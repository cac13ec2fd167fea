import Mathlib.Tactic.SplitIfs
import ZkevmProver.Prover.TranscodeTx

/-!
# `dataStream2batch`

A data stream is a sequence of file entries, from which the blocks of a batch are read.

1. The batch
2. Numbers and hashes
3. The entries
4. The loop
-/

namespace ZkevmProver

open BigEndian

/-! ## The batch -/

structure DataStreamTx where
  gasPricePercentage : UInt8
  isValid : Bool
  stateRoot : List UInt8
  encodedTx : List UInt8
  deriving DecidableEq

structure DataStreamBlock where
  blockNumber : UInt64
  timestamp : UInt64
  deltaTimestamp : UInt32
  l1InfoTreeIndex : UInt32
  l1BlockHash : List UInt8
  globalExitRoot : List UInt8
  coinbase : List UInt8
  forkId : UInt64
  l2BlockHash : List UInt8
  stateRoot : List UInt8
  chainId : UInt32
  txs : List DataStreamTx
  deriving DecidableEq

structure DataStreamBatch where
  batchNumber : UInt64
  blocks : List DataStreamBlock
  forkId : UInt16
  chainId : UInt32
  deriving DecidableEq

/-- `reset` -/
def DataStreamBatch.empty : DataStreamBatch where
  batchNumber := 0
  blocks := []
  forkId := 0
  chainId := 0

/-! ## Numbers and hashes -/

/-- What a part of the decoder returns, or its error code.  `none` where it reads a byte after the last
one. -/
abbrev Parse (α : Type) : Type := ExceptT DataStreamError Option α

def overRead {α : Type} : Parse α := ExceptT.mk none

/-- `n` bytes from `p` on. -/
def readBytes (data : List UInt8) (p n : ℕ) : Parse (List UInt8) :=
  if p + n ≤ data.length then pure ((data.drop p).take n) else overRead

/-- The bytes, shifted one by one into a `uint32_t`, whatever the width of the number. -/
def accumulate (ds : List UInt8) : UInt32 := ds.foldl (fun result d => (result <<< 8) + d.toUInt32) 0

def ParseU8 (data : List UInt8) (p : ℕ) : Parse (UInt8 × ℕ) := do
  let ds ← readBytes data p 1
  pure (ds.headD 0, p + 1)

def ParseBigEndianU16 (data : List UInt8) (p : ℕ) : Parse (UInt16 × ℕ) := do
  let ds ← readBytes data p 2
  pure ((accumulate ds).toUInt16, p + 2)

def ParseBigEndianU32 (data : List UInt8) (p : ℕ) : Parse (UInt32 × ℕ) := do
  let ds ← readBytes data p 4
  pure (accumulate ds, p + 4)

def ParseBigEndianU64 (data : List UInt8) (p : ℕ) : Parse (UInt64 × ℕ) := do
  let ds ← readBytes data p 8
  pure ((accumulate ds).toUInt64, p + 8)

/-- `ba2string` of `n` bytes of the data, and the position after them. -/
def parseHash (data : List UInt8) (p n : ℕ) : Parse (List UInt8 × ℕ) := do
  let ds ← readBytes data p n
  pure (ba2string ds, p + n)

/-! ## The entries -/

/-- Adds a block to the batch, after the checks against the blocks that it has. -/
def addBlock (batch : DataStreamBatch) (batchNumber : UInt64) (block : DataStreamBlock) :
    Parse DataStreamBatch :=
  match batch.blocks.getLast? with
  | none => pure
      { batchNumber, blocks := batch.blocks ++ [block], forkId := block.forkId.toUInt16,
        chainId := block.chainId }
  | some latestBlock =>
    if batch.batchNumber ≠ batchNumber then throw .invalidData
    else if block.forkId ≠ batch.forkId.toUInt64 then throw .invalidData
    else if block.chainId ≠ batch.chainId then throw .invalidData
    else if block.blockNumber ≠ latestBlock.blockNumber + 1 then throw .invalidData
    else pure { batch with blocks := batch.blocks ++ [block] }

/-- An entry of type 1. -/
def startL2Block (dataStream : List UInt8) (p dataLength : ℕ) (batch : DataStreamBatch) :
    Parse (ℕ × DataStreamBatch) :=
  if dataLength ≠ 122 then throw .invalidData
  else do
    let (batchNumber, p) ← ParseBigEndianU64 dataStream p
    if batchNumber = 0 then throw .invalidData
    else
      let (blockNumber, p) ← ParseBigEndianU64 dataStream p
      if blockNumber = 0 then throw .invalidData
      else
        let (timestamp, p) ← ParseBigEndianU64 dataStream p
        let (deltaTimestamp, p) ← ParseBigEndianU32 dataStream p
        let (l1InfoTreeIndex, p) ← ParseBigEndianU32 dataStream p
        let (l1BlockHash, p) ← parseHash dataStream p 32
        let (globalExitRoot, p) ← parseHash dataStream p 32
        let (coinbase, p) ← parseHash dataStream p 20
        let (forkId, p) ← ParseBigEndianU16 dataStream p
        if forkId = 0 then throw .invalidData
        else
          let (chainId, p) ← ParseBigEndianU32 dataStream p
          let batch ← addBlock batch batchNumber
            { blockNumber, timestamp, deltaTimestamp, l1InfoTreeIndex, l1BlockHash, globalExitRoot,
              coinbase, forkId := forkId.toUInt64, l2BlockHash := [], stateRoot := [], chainId,
              txs := [] }
          pure (p, batch)

/-- The current block of the batch, where it is still open. -/
def openBlock (batch : DataStreamBatch) : Parse DataStreamBlock :=
  match batch.blocks.getLast? with
  | none => throw .invalidData
  | some latestBlock =>
    if batch.batchNumber = 0 then throw .invalidData
    else if batch.forkId = 0 then throw .invalidData
    else if ¬latestBlock.l2BlockHash.isEmpty then throw .invalidData
    else if ¬latestBlock.stateRoot.isEmpty then throw .invalidData
    else pure latestBlock

/-- The batch with its current block replaced. -/
def DataStreamBatch.setLatest (batch : DataStreamBatch) (block : DataStreamBlock) : DataStreamBatch :=
  { batch with blocks := batch.blocks.dropLast ++ [block] }

/-- An entry of type 2. -/
def l2Tx (dataStream : List UInt8) (p dataLength : ℕ) (batch : DataStreamBatch) :
    Parse (ℕ × DataStreamBatch) :=
  if dataLength < 38 then throw .invalidData
  else do
    let latestBlock ← openBlock batch
    let (gasPricePercentage, p) ← ParseU8 dataStream p
    let (isValid, p) ← ParseU8 dataStream p
    let (stateRoot, p) ← parseHash dataStream p 32
    let (encodedTxLength, p) ← ParseBigEndianU32 dataStream p
    if p + encodedTxLength.toNat - 1 ≥ dataStream.length then throw .invalidData
    else
      let encodedTx := (dataStream.drop p).take encodedTxLength.toNat
      let tx := { gasPricePercentage, isValid := isValid != 0, stateRoot, encodedTx }
      pure (p + encodedTxLength.toNat,
        batch.setLatest { latestBlock with txs := latestBlock.txs ++ [tx] })

/-- An entry of type 3. -/
def endL2Block (dataStream : List UInt8) (p dataLength : ℕ) (batch : DataStreamBatch) :
    Parse (ℕ × DataStreamBatch) :=
  if dataLength ≠ 72 then throw .invalidData
  else do
    let (blockNumber, p) ← ParseBigEndianU64 dataStream p
    let latestBlock ← openBlock batch
    if latestBlock.blockNumber ≠ blockNumber then throw .invalidData
    else
      let (l2BlockHash, p) ← parseHash dataStream p 32
      let (stateRoot, p) ← parseHash dataStream p 32
      pure (p, batch.setLatest { latestBlock with l2BlockHash, stateRoot })

/-! ## The loop -/

/-- The data of an entry, whose type counts where the packet is not padding. -/
def parseData (dataStream : List UInt8) (packetType : UInt8) (entryType : UInt32) (p dataLength : ℕ)
    (batch : DataStreamBatch) : Parse (ℕ × DataStreamBatch) :=
  if packetType = 0 then pure (p + dataLength, batch)
  else if packetType ≠ 2 then throw .invalidData
  else if entryType = 0xb0 then pure (p + dataLength, batch)
  else if entryType = 1 then startL2Block dataStream p dataLength batch
  else if entryType = 2 then l2Tx dataStream p dataLength batch
  else if entryType = 3 then endL2Block dataStream p dataLength batch
  else throw .invalidData

/-- One round: the entry at `p`.  The check that the whole entry is there only logs; the one of its data
counts. -/
def parseEntry (dataStream : List UInt8) (p : ℕ) (batch : DataStreamBatch) :
    Parse (ℕ × DataStreamBatch) := do
  let (packetType, p) ← ParseU8 dataStream p
  if p + 4 > dataStream.length then throw .invalidData
  else
    let (length, p) ← ParseBigEndianU32 dataStream p
    if length < 17 then throw .invalidData
    else if p + 4 > dataStream.length then throw .invalidData
    else
      let (entryType, p) ← ParseBigEndianU32 dataStream p
      if p + 8 > dataStream.length then throw .invalidData
      else
        let p := p + 8
        let dataLength := length.toNat - 17
        if p + dataLength > dataStream.length then throw .invalidData
        else parseData dataStream packetType entryType p dataLength batch

/-- The check that the latest block is closed. -/
def finalCheck (batch : DataStreamBatch) : Parse DataStreamBatch :=
  match batch.blocks.getLast? with
  | none => pure batch
  | some latestBlock =>
    if batch.batchNumber = 0 then throw .invalidData
    else if batch.forkId = 0 then throw .invalidData
    else if latestBlock.l2BlockHash.isEmpty then throw .invalidData
    else if latestBlock.stateRoot.isEmpty then throw .invalidData
    else pure batch

/-- The rounds from `p` on; `none` where they have not ended after as many as the first argument says. -/
def parseEntries (dataStream : List UInt8) : ℕ → ℕ → DataStreamBatch → Option (Parse DataStreamBatch)
  | 0, _, _ => none
  | rounds + 1, p, batch =>
    if p < dataStream.length then
      match (parseEntry dataStream p batch).run with
      | none => some overRead
      | some (.error e) => some (throw e)
      | some (.ok (p, batch)) => parseEntries dataStream rounds p batch
    else some (finalCheck batch)

def dataStream2batch (rounds : ℕ) (dataStream : List UInt8) : Option (Parse DataStreamBatch) :=
  parseEntries dataStream rounds 0 .empty

end ZkevmProver
