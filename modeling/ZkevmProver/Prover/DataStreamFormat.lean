import ZkevmProver.Prover.DataStream

/-!
# The entry format of a data stream

Entries as the comments of `data_stream.cpp` document them, and what one round of the decoder makes of
them.  A number of eight bytes is accumulated in a `uint32_t`, so that its upper half is lost.

1. Entries
2. The bytes of an entry
3. What an entry does to a batch
4. Reading numbers and hashes
5. A round over an entry
6. What a round reads
-/

namespace ZkevmProver

open BigEndian

/-! ## Entries -/

/-- Byte strings of a fixed length. -/
abbrev Bytes (n : ℕ) : Type := { ba : List UInt8 // ba.length = n }

structure L2BlockStart where
  batchNumber : UInt64
  blockNumber : UInt64
  timestamp : UInt64
  deltaTimestamp : UInt32
  l1InfoTreeIndex : UInt32
  l1BlockHash : Bytes 32
  globalExitRoot : Bytes 32
  coinbase : Bytes 20
  forkId : UInt16
  chainId : UInt32

structure L2TxData where
  gasPricePercentage : UInt8
  isValid : UInt8
  stateRoot : Bytes 32
  encodedTx : { ba : List UInt8 // ba.length < 2 ^ 32 }

structure L2BlockEnd where
  blockNumber : UInt64
  l2BlockHash : Bytes 32
  stateRoot : Bytes 32

/-- The kinds of entries: padding, of any type, bookmarks, and the three that the batch is made of. -/
inductive EntryData
  | padding (entryType : UInt32) (data : List UInt8)
  | bookmark (data : List UInt8)
  | start (block : L2BlockStart)
  | tx (tx : L2TxData)
  | stop (block : L2BlockEnd)

structure FileEntry where
  number : UInt64
  data : EntryData

/-! ## The bytes of an entry -/

def L2BlockStart.encode (b : L2BlockStart) : List UInt8 :=
  bytes 8 b.batchNumber.toNat ++ (bytes 8 b.blockNumber.toNat ++ (bytes 8 b.timestamp.toNat ++
    (bytes 4 b.deltaTimestamp.toNat ++ (bytes 4 b.l1InfoTreeIndex.toNat ++ (b.l1BlockHash.1 ++
      (b.globalExitRoot.1 ++ (b.coinbase.1 ++ (bytes 2 b.forkId.toNat ++
        bytes 4 b.chainId.toNat))))))))

def L2TxData.encode (t : L2TxData) : List UInt8 :=
  [t.gasPricePercentage] ++ ([t.isValid] ++ (t.stateRoot.1 ++ (bytes 4 t.encodedTx.1.length ++
    t.encodedTx.1)))

def L2BlockEnd.encode (b : L2BlockEnd) : List UInt8 :=
  bytes 8 b.blockNumber.toNat ++ (b.l2BlockHash.1 ++ b.stateRoot.1)

namespace EntryData

def packetType : EntryData → UInt8
  | padding _ _ => 0
  | _ => 2

def entryType : EntryData → UInt32
  | padding entryType _ => entryType
  | bookmark _ => 0xb0
  | start _ => 1
  | tx _ => 2
  | stop _ => 3

def encode : EntryData → List UInt8
  | padding _ data => data
  | bookmark data => data
  | start block => block.encode
  | tx t => t.encode
  | stop block => block.encode

end EntryData

/-- An entry that declares a length of its data. -/
def FileEntry.encodeWith (e : FileEntry) (dataLength : ℕ) : List UInt8 :=
  [e.data.packetType] ++ (bytes 4 (17 + dataLength) ++ (bytes 4 e.data.entryType.toNat ++
    (bytes 8 e.number.toNat ++ e.data.encode)))

/-- An entry that declares the length that its data has. -/
def FileEntry.encode (e : FileEntry) : List UInt8 := e.encodeWith e.data.encode.length

@[simp] theorem L2BlockStart.length_encode (b : L2BlockStart) : b.encode.length = 122 := by
  simp [L2BlockStart.encode, b.l1BlockHash.2, b.globalExitRoot.2, b.coinbase.2]

@[simp] theorem L2TxData.length_encode (t : L2TxData) :
    t.encode.length = 38 + t.encodedTx.1.length := by
  simp [L2TxData.encode, t.stateRoot.2]
  omega

@[simp] theorem L2BlockEnd.length_encode (b : L2BlockEnd) : b.encode.length = 72 := by
  simp [L2BlockEnd.encode, b.l2BlockHash.2, b.stateRoot.2]

theorem FileEntry.length_encodeWith (e : FileEntry) (dataLength : ℕ) :
    (e.encodeWith dataLength).length = 17 + e.data.encode.length := by
  simp [FileEntry.encodeWith]
  omega

/-! ## What an entry does to a batch -/

/-- What is left of a number of eight bytes. -/
def lowHalf (n : UInt64) : UInt64 := n.toUInt32.toUInt64

/-- The block that a start entry opens. -/
def L2BlockStart.block (b : L2BlockStart) : DataStreamBlock where
  blockNumber := lowHalf b.blockNumber
  timestamp := lowHalf b.timestamp
  deltaTimestamp := b.deltaTimestamp
  l1InfoTreeIndex := b.l1InfoTreeIndex
  l1BlockHash := ba2string b.l1BlockHash.1
  globalExitRoot := ba2string b.globalExitRoot.1
  coinbase := ba2string b.coinbase.1
  forkId := b.forkId.toUInt64
  l2BlockHash := []
  stateRoot := []
  chainId := b.chainId
  txs := []

def L2TxData.tx (t : L2TxData) : DataStreamTx where
  gasPricePercentage := t.gasPricePercentage
  isValid := t.isValid != 0
  stateRoot := ba2string t.stateRoot.1
  encodedTx := t.encodedTx.1

def applyStart (b : L2BlockStart) (batch : DataStreamBatch) : Parse DataStreamBatch :=
  if lowHalf b.batchNumber = 0 then throw .invalidData
  else if lowHalf b.blockNumber = 0 then throw .invalidData
  else if b.forkId = 0 then throw .invalidData
  else addBlock batch (lowHalf b.batchNumber) b.block

def applyTx (t : L2TxData) (batch : DataStreamBatch) : Parse DataStreamBatch := do
  let latestBlock ← openBlock batch
  pure (batch.setLatest { latestBlock with txs := latestBlock.txs ++ [t.tx] })

def applyEnd (b : L2BlockEnd) (batch : DataStreamBatch) : Parse DataStreamBatch := do
  let latestBlock ← openBlock batch
  if latestBlock.blockNumber ≠ lowHalf b.blockNumber then throw .invalidData
  else
    pure (batch.setLatest { latestBlock with
      l2BlockHash := ba2string b.l2BlockHash.1, stateRoot := ba2string b.stateRoot.1 })

def EntryData.apply : EntryData → DataStreamBatch → Parse DataStreamBatch
  | padding _ _, batch => pure batch
  | bookmark _, batch => pure batch
  | start block, batch => applyStart block batch
  | tx t, batch => applyTx t batch
  | stop block, batch => applyEnd block batch

/-! ## Reading numbers and hashes -/

theorem toNat_accumulate (ds : List UInt8) : (accumulate ds).toNat = value ds % 2 ^ 32 := by
  induction ds using List.reverseRecOn with
  | nil => rfl
  | append_singleton ds d ih =>
    have hstep : accumulate (ds ++ [d]) = (accumulate ds <<< 8) + d.toUInt32 := by
      rw [accumulate, List.foldl_append]
      rfl
    rw [hstep, value_concat, UInt32.toNat_add, UInt32.toNat_shiftLeft, ih]
    simp only [UInt8.toNat_toUInt32, Nat.shiftLeft_eq]
    have h8 : (8 : UInt32).toNat % 32 = 8 := rfl
    rw [h8]
    omega

@[simp] theorem toNat_lowHalf (n : UInt64) : (lowHalf n).toNat = n.toNat % 2 ^ 32 := by
  simp [lowHalf]

theorem accumulate_u64 (n : UInt64) : (accumulate (bytes 8 n.toNat)).toUInt64 = lowHalf n := by
  apply UInt64.toNat_inj.mp
  rw [UInt32.toNat_toUInt64, toNat_accumulate, value_bytes, toNat_lowHalf]
  omega

theorem accumulate_u32 (n : UInt32) : accumulate (bytes 4 n.toNat) = n := by
  apply UInt32.toNat_inj.mp
  have hn := n.toNat_lt
  rw [toNat_accumulate, value_bytes]
  omega

theorem accumulate_u16 (n : UInt16) : (accumulate (bytes 2 n.toNat)).toUInt16 = n := by
  apply UInt16.toNat_inj.mp
  have hn := n.toNat_lt
  rw [UInt32.toNat_toUInt16, toNat_accumulate, value_bytes]
  omega

section Reading

variable {s rest : List UInt8} {p : ℕ}

/-- What follows the bytes at a position. -/
theorem drop_add {ds : List UInt8} {n : ℕ} (hn : ds.length = n) (h : s.drop p = ds ++ rest) :
    s.drop (p + n) = rest := by
  rw [← List.drop_drop, h, ← hn, List.drop_left]

theorem add_le_of_drop {ds : List UInt8} {n : ℕ} (hn : ds.length = n) (hpos : 0 < n)
    (h : s.drop p = ds ++ rest) : p + n ≤ s.length := by
  have hlen := congrArg List.length h
  rw [List.length_drop, List.length_append] at hlen
  omega

theorem readBytes_eq {ds : List UInt8} {n : ℕ} (hn : ds.length = n) (hpos : 0 < n)
    (h : s.drop p = ds ++ rest) : readBytes s p n = pure ds := by
  rw [readBytes, if_pos (add_le_of_drop hn hpos h), h, ← hn, List.take_left]

theorem ParseU8_eq {b : UInt8} (h : s.drop p = [b] ++ rest) : ParseU8 s p = pure (b, p + 1) := by
  rw [ParseU8, readBytes_eq (n := 1) rfl Nat.one_pos h, pure_bind]
  rfl

theorem ParseBigEndianU16_eq {n : UInt16} (h : s.drop p = bytes 2 n.toNat ++ rest) :
    ParseBigEndianU16 s p = pure (n, p + 2) := by
  rw [ParseBigEndianU16, readBytes_eq (length_bytes _ _) (by decide) h, pure_bind, accumulate_u16]

theorem ParseBigEndianU32_eq {n : UInt32} (h : s.drop p = bytes 4 n.toNat ++ rest) :
    ParseBigEndianU32 s p = pure (n, p + 4) := by
  rw [ParseBigEndianU32, readBytes_eq (length_bytes _ _) (by decide) h, pure_bind, accumulate_u32]

theorem ParseBigEndianU64_eq {n : UInt64} (h : s.drop p = bytes 8 n.toNat ++ rest) :
    ParseBigEndianU64 s p = pure (lowHalf n, p + 8) := by
  rw [ParseBigEndianU64, readBytes_eq (length_bytes _ _) (by decide) h, pure_bind, accumulate_u64]

theorem parseHash_eq {n : ℕ} {ba : Bytes n} (hpos : 0 < n) (h : s.drop p = ba.1 ++ rest) :
    parseHash s p n = pure (ba2string ba.1, p + n) := by
  rw [parseHash, readBytes_eq ba.2 hpos h, pure_bind]

/-! ## A round over an entry -/

theorem startL2Block_eq {b : L2BlockStart} (batch : DataStreamBatch)
    (h : s.drop p = b.encode ++ rest) :
    startL2Block s p 122 batch = (fun batch => (p + 122, batch)) <$> applyStart b batch := by
  simp only [L2BlockStart.encode, List.append_assoc] at h
  have h1 := drop_add (length_bytes _ _) h
  have h2 := drop_add (length_bytes _ _) h1
  have h3 := drop_add (length_bytes _ _) h2
  have h4 := drop_add (length_bytes _ _) h3
  have h5 := drop_add (length_bytes _ _) h4
  have h6 := drop_add b.l1BlockHash.2 h5
  have h7 := drop_add b.globalExitRoot.2 h6
  have h8 := drop_add b.coinbase.2 h7
  have h9 := drop_add (length_bytes _ _) h8
  rw [startL2Block, if_neg (by simp), ParseBigEndianU64_eq h, pure_bind, applyStart]
  simp only
  by_cases hbatch : lowHalf b.batchNumber = 0
  · rw [if_pos hbatch, if_pos hbatch]
    rfl
  rw [if_neg hbatch, if_neg hbatch, ParseBigEndianU64_eq h1, pure_bind]
  by_cases hblock : lowHalf b.blockNumber = 0
  · rw [if_pos hblock, if_pos hblock]
    rfl
  rw [if_neg hblock, if_neg hblock]
  simp only [ParseBigEndianU64_eq h2, ParseBigEndianU32_eq h3, ParseBigEndianU32_eq h4,
    parseHash_eq (by decide) h5, parseHash_eq (by decide) h6, parseHash_eq (by decide) h7,
    ParseBigEndianU16_eq h8, pure_bind]
  by_cases hfork : b.forkId = 0
  · rw [if_pos hfork, if_pos hfork]
    rfl
  rw [if_neg hfork, if_neg hfork, ParseBigEndianU32_eq h9, pure_bind, map_eq_pure_bind]
  rfl

theorem l2Tx_eq {t : L2TxData} {dataLength : ℕ} (batch : DataStreamBatch)
    (h : s.drop p = t.encode ++ rest) (hlen : 38 ≤ dataLength) :
    l2Tx s p dataLength batch =
      (fun batch => (p + t.encode.length, batch)) <$> applyTx t batch := by
  have hsize : s.length = p + t.encode.length + rest.length := by
    have hlength := congrArg List.length h
    rw [List.length_drop, List.length_append, t.length_encode] at hlength
    rw [t.length_encode]
    omega
  rw [t.length_encode] at hsize ⊢
  simp only [L2TxData.encode, List.append_assoc] at h
  have h1 := drop_add (n := 1) rfl h
  have h2 := drop_add (n := 1) rfl h1
  have h3 := drop_add t.stateRoot.2 h2
  have h4 := drop_add (length_bytes _ _) h3
  have hnat : (UInt32.ofNat t.encodedTx.1.length).toNat = t.encodedTx.1.length := by
    rw [UInt32.toNat_ofNat']
    exact Nat.mod_eq_of_lt t.encodedTx.2
  rw [← hnat] at h3
  have hthere : ¬p + 1 + 1 + 32 + 4 + (UInt32.ofNat t.encodedTx.1.length).toNat - 1 ≥ s.length := by
    rw [hnat]
    omega
  rw [l2Tx, if_neg (by omega), applyTx, map_bind]
  apply bind_congr
  intro latestBlock
  simp only [ParseU8_eq h, ParseU8_eq h1, parseHash_eq (by decide) h2, ParseBigEndianU32_eq h3,
    pure_bind]
  rw [if_neg hthere, hnat, h4, List.take_left, map_pure]
  congr 2
  omega

theorem endL2Block_eq {b : L2BlockEnd} (batch : DataStreamBatch) (h : s.drop p = b.encode ++ rest) :
    endL2Block s p 72 batch = (fun batch => (p + 72, batch)) <$> applyEnd b batch := by
  simp only [L2BlockEnd.encode, List.append_assoc] at h
  have h1 := drop_add (length_bytes _ _) h
  have h2 := drop_add b.l2BlockHash.2 h1
  rw [endL2Block, if_neg (by simp), ParseBigEndianU64_eq h, pure_bind, applyEnd, map_bind]
  apply bind_congr
  intro latestBlock
  by_cases hnumber : latestBlock.blockNumber ≠ lowHalf b.blockNumber
  · simp only [if_pos hnumber]
    rfl
  · simp only [if_neg hnumber, parseHash_eq (by decide) h1, parseHash_eq (by decide) h2, pure_bind]
    rfl

/-- The length that is declared is the one of the data; for a transaction it may be any that leaves room
for its fields. -/
def EntryData.Declares (dataLength : ℕ) : EntryData → Prop
  | tx _ => 38 ≤ dataLength
  | data => dataLength = data.encode.length

theorem parseData_eq {data : EntryData} {dataLength : ℕ} (batch : DataStreamBatch)
    (h : s.drop p = data.encode ++ rest) (hdeclares : data.Declares dataLength) :
    parseData s data.packetType data.entryType p dataLength batch =
      (fun batch => (p + data.encode.length, batch)) <$> data.apply batch := by
  cases data with
  | padding entryType data =>
    obtain rfl : dataLength = data.length := hdeclares
    rfl
  | bookmark data =>
    obtain rfl : dataLength = data.length := hdeclares
    rfl
  | start block =>
    obtain rfl : dataLength = block.encode.length := hdeclares
    simp only [parseData, EntryData.packetType, EntryData.entryType, EntryData.apply,
      EntryData.encode, L2BlockStart.length_encode] at h ⊢
    rw [if_neg (by decide), if_neg (by decide), if_neg (by decide), if_pos trivial,
      startL2Block_eq batch h]
  | tx t =>
    simp only [parseData, EntryData.packetType, EntryData.entryType, EntryData.apply,
      EntryData.encode] at h ⊢
    rw [if_neg (by decide), if_neg (by decide), if_neg (by decide), if_neg (by decide),
      if_pos trivial, l2Tx_eq batch h hdeclares]
  | stop block =>
    obtain rfl : dataLength = block.encode.length := hdeclares
    simp only [parseData, EntryData.packetType, EntryData.entryType, EntryData.apply,
      EntryData.encode, L2BlockEnd.length_encode] at h ⊢
    rw [if_neg (by decide), if_neg (by decide), if_neg (by decide), if_neg (by decide),
      if_neg (by decide), if_pos trivial, endL2Block_eq batch h]

/-- A round reads an entry, whatever length a transaction declares, and moves on by the length that the
entry has. -/
theorem parseEntry_eq {e : FileEntry} {dataLength : ℕ} (batch : DataStreamBatch)
    (h : s.drop p = e.encodeWith dataLength ++ rest) (hdeclares : e.data.Declares dataLength)
    (hroom : dataLength ≤ e.data.encode.length + rest.length) (hlen : 17 + dataLength < 2 ^ 32) :
    parseEntry s p batch =
      (fun batch => (p + (e.encodeWith dataLength).length, batch)) <$> e.data.apply batch := by
  have hsize : s.length = p + (17 + e.data.encode.length) + rest.length := by
    have hlength := congrArg List.length h
    rw [List.length_drop, List.length_append, e.length_encodeWith] at hlength
    omega
  rw [e.length_encodeWith]
  have hnat : (UInt32.ofNat (17 + dataLength)).toNat = 17 + dataLength := by
    rw [UInt32.toNat_ofNat']
    exact Nat.mod_eq_of_lt hlen
  simp only [FileEntry.encodeWith, List.append_assoc] at h
  have h1 := drop_add (n := 1) rfl h
  have h2 := drop_add (length_bytes _ _) h1
  have h3 := drop_add (length_bytes _ _) h2
  have h4 := drop_add (length_bytes _ _) h3
  rw [← hnat] at h1
  have hmin : ¬UInt32.ofNat (17 + dataLength) < 17 := by
    rw [UInt32.lt_iff_toNat_lt, hnat]
    exact Nat.not_lt.mpr (Nat.le_add_right 17 dataLength)
  have hdata : (UInt32.ofNat (17 + dataLength)).toNat - 17 = dataLength := by omega
  rw [parseEntry, ParseU8_eq h, pure_bind]
  simp only
  rw [if_neg (by omega), ParseBigEndianU32_eq h1, pure_bind]
  simp only
  rw [if_neg hmin, if_neg (by omega), ParseBigEndianU32_eq h2, pure_bind]
  simp only
  rw [if_neg (by omega), hdata, if_neg (by omega)]
  rw [parseData_eq batch h4 hdeclares]
  congr 1
  funext batch
  congr 1
  omega

end Reading

end ZkevmProver
