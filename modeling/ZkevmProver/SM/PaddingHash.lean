import ZkevmProver.SM.Padding

/-!
# The Keccak and SHA-256 padding executors

The two executors walk through the messages in the same way: a byte for each row, a block for the
bit machine at the end of every block, and the hash of the message on all its rows.  They differ in
the padding, in what tells the last row of a message, and in the columns for the length.

  1. The walk, with what the executors differ in as parameters.
  2. `PaddingKKExecutor`.
  3. `PaddingSha256Executor`.
-/

namespace ZkevmProver

open Loops

/-! ## The walk -/

/-- A row, with columns `X` that one of the machines has. -/
structure PaddingHashRow (X : Type) [Inhabited X] extends PaddingRow where
  connected : Fe := 0
  hash : Fin 8 → Fe := fun _ => 0
  ext : X := default

/-- `PaddingKKBitExecutorInput` and `PaddingSha256BitExecutorInput`. -/
structure PaddingBitExecutorInput where
  connected : Bool := false
  data : List UInt8

/-- What an executor does in a way of its own. -/
structure HashPadder (X : Type) where
  bytesPerBlock : ℕ
  /-- The number of blocks that the machines together have room for. -/
  nTotalBlocks : ℕ
  /-- The padded message; `none` when it is too long. -/
  pad : List UInt8 → Option (List UInt8)
  digest : List UInt8 → ℕ
  /-- The columns of a hash. -/
  hash : ℕ → Fin 8 → Fe
  /-- Whether `spare` is set. -/
  spare : PaddingExecutorInput → ℕ → Bool
  /-- Whether row `p`, of byte `j` and with this `spare`, closes the message. -/
  lastHash : PaddingExecutorInput → ℕ → ℕ → Fe → Bool
  ext : PaddingExecutorInput → ℕ → X → X
  /-- Whether so many bytes are refused. -/
  tooMany : ℕ → Bool
  /-- Byte `j` of an unused block. -/
  bytes0 : ℕ → UInt8
  unusedSpare : ℕ → Bool
  unusedExt : ℕ → X → X
  /-- What row `p` of the rest, which starts at `fp`, has as its byte. -/
  restByte : ℕ → ℕ → Option UInt8
  restExt : ℕ → X → X

/-- `pilDegree()` of both machines, the same for every fork. -/
abbrev PaddingHash.N : ℕ := 8388608

namespace HashPadder

variable {X : Type} [Inhabited X] (P : HashPadder X)

/-- The state of a run. -/
abbrev State (X : Type) [Inhabited X] := PaddingState (PaddingHashRow X) PaddingBitExecutorInput

/-- `none` when the text has an odd length or other characters, or the message is too long. -/
def prepareMessage (input : PaddingExecutorInput) : Option PaddingExecutorInput := do
  let dataBytes ← if input.data.length > 0 then hexBytes input.data else some input.dataBytes
  let padded ← P.pad dataBytes
  return { input with
    hash := P.digest dataBytes
    realLen := dataBytes.length
    dataBytes := padded }

def prepareInput (input : List PaddingExecutorInput) : Option (List PaddingExecutorInput) :=
  input.mapM P.prepareMessage

/-- What byte `j` writes in the columns that all machines have. -/
def curRow (input : PaddingExecutorInput) (addr j p : ℕ) (cursor : ReadCursor) (prev : PaddingRow)
    (row : PaddingHashRow X) : ReadCursor × PaddingRow :=
  let spare := if P.spare input j then 1 else row.spare
  let cols := byteRow input addr j spare (P.lastHash input j p spare) row.toPaddingRow
  readRow input.reads cursor prev
    { cols with incCounter := fromU64 (j / P.bytesPerBlock + 1) }

/-- Byte `j` of a message. -/
def execByte (input : PaddingExecutorInput) (addr j : ℕ) (S : State X × ReadCursor) :
    State X × ReadCursor :=
  let p := S.1.p
  let pols := S.1.pols
  let cols := P.curRow input addr j p S.2 (pols (p - 1)).toPaddingRow (pols p)
  let row := { pols p with
    toPaddingRow := cols.2
    connected := if j ≥ P.bytesPerBlock then 1 else (pols p).connected
    ext := P.ext input j (pols p).ext }
  let next := { pols (p + 1) with
    toPaddingRow := readNext cols.2 (pols (p + 1)).toPaddingRow }
  let pols := Function.update (Function.update pols p row) (p + 1) next
  if j % P.bytesPerBlock = P.bytesPerBlock - 1 then
    let block := { connected := j ≥ P.bytesPerBlock
                   data := slice input.dataBytes (j + 1 - P.bytesPerBlock) (j + 1) }
    let size := input.dataBytes.length
    let pols := if j = size - 1 then
        setRows pols (p + 1 - size) size fun r => { r with hash := P.hash input.hash }
      else pols
    (⟨p + 1, pols, S.1.required ++ [block]⟩, cols.1)
  else (⟨p + 1, pols, S.1.required⟩, cols.1)

/-- A message. -/
def execMessage (input : PaddingExecutorInput) (addr : ℕ) (S : State X) : State X :=
  (forUpTo input.dataBytes.length (P.execByte input addr) (S, {})).1

/-- Row `j` of an unused block. -/
def unusedRow (addr j : ℕ) (row : PaddingHashRow X) : PaddingHashRow X :=
  let rem := -fromU64 j
  { row with
    addr := fromU64 addr
    freeIn := if P.bytes0 j ≠ 0 then fromU64 (P.bytes0 j).toNat else row.freeIn
    rem := if j ≠ 0 then rem else row.rem
    remInv := if j ≠ 0 then glpInv rem else row.remInv
    spare := if P.unusedSpare j then 1 else row.spare
    incCounter := 1
    crLen := 1
    crF := Function.update row.crF 0 1
    ext := P.unusedExt j row.ext }

def unusedRows (addr size : ℕ) (S : State X) : State X :=
  forUpTo size (fun j S =>
    { S with p := S.p + 1, pols := Function.update S.pols S.p (P.unusedRow addr j (S.pols S.p)) }) S

/-- An unused block: the padding of an empty message. -/
def unusedBlock (addr : ℕ) (S : State X) : State X :=
  let size := P.bytesPerBlock
  let S := P.unusedRows addr size S
  { S with
    pols := setRows S.pols (S.p - size) size fun r => { r with hash := P.hash (P.digest []) }
    required := S.required ++ [{ data := (List.range size).map P.bytes0 }] }

/-- Row `p` of the rest, which starts at `fp`. -/
def restRow (addr fp p : ℕ) (prev row : PaddingHashRow X) : PaddingHashRow X :=
  let rem := if p ≠ fp then prev.rem - 1 else row.rem
  { row with
    addr := fromU64 addr
    freeIn := match P.restByte fp p with
      | some byte => fromU64 byte.toNat
      | none => row.freeIn
    rem
    remInv := if p ≠ fp ∧ rem ≠ 0 then glpInv rem else row.remInv
    spare := if p ≠ fp then 1 else row.spare
    incCounter := 1
    crLen := 1
    crF := Function.update row.crF 0 1
    ext := P.restExt p row.ext }

/-- The rows up to the degree. -/
def execRest (addr : ℕ) (S : State X) : State X :=
  let fp := S.p
  forUpTo (PaddingHash.N - fp) (fun _ S =>
    let row := P.restRow addr fp S.p (S.pols (S.p - 1)) (S.pols S.p)
    { S with p := S.p + 1, pols := Function.update S.pols S.p row }) S

/-- The unused blocks and the rest; `none` when the messages took more blocks than there are. -/
def execUnused (addr : ℕ) (S : State X) : Option (State X) :=
  let nUsedBlocks := S.p / P.bytesPerBlock
  if nUsedBlocks > P.nTotalBlocks then none
  else
    let nFullUnused := P.nTotalBlocks - nUsedBlocks
    let S := forUpTo nFullUnused (fun i => P.unusedBlock (addr + i)) S
    some (P.execRest (addr + nFullUnused) S)

/-- `none` when the process exits. -/
def execute (input : List PaddingExecutorInput) : Option (State X) := do
  let input ← P.prepareInput input
  if P.tooMany (totalInputBytes input) then none
  else P.execUnused input.length (forMessages P.execMessage 0 input ⟨0, fun _ => {}, []⟩)

end HashPadder

/-! ## `PaddingKKExecutor` -/

namespace PaddingKKExecutor

open PaddingHash

abbrev blockSize : ℕ := 155286
abbrev bytesPerBlock : ℕ := 136

/-- `keccak256` is the hash of a message as a number. -/
def padder (keccak256 : List UInt8 → ℕ) : HashPadder Unit where
  bytesPerBlock := bytesPerBlock
  nTotalBlocks := 44 * (N / blockSize)
  pad bytes := some (pad10 bytesPerBlock bytes)
  digest := keccak256
  hash scalar k := limb scalar k
  spare input j := remAt input j ≠ 0 ∧ toS64 (remAt input j) < 0
  lastHash input j p spare :=
    let lastBlock := p % bytesPerBlock = bytesPerBlock - 1
    lastBlock ∧ (spare ≠ 0 ∨ remAt input j = 0)
  ext _ _ u := u
  tooMany total := total > 44 * bytesPerBlock * (N / blockSize)
  bytes0 j := if j = 0 then 1 else if j = bytesPerBlock - 1 then 0x80 else 0
  unusedSpare j := j ≠ 0 ∧ toS64 (-fromU64 j) < 0
  unusedExt _ u := u
  restByte _ _ := none
  restExt _ u := u

/-- `PaddingKKExecutor::execute`. -/
def execute (keccak256 : List UInt8 → ℕ) (input : List PaddingExecutorInput) :
    Option (HashPadder.State Unit) := (padder keccak256).execute input

end PaddingKKExecutor

/-! ## `PaddingSha256Executor` -/

/-- The columns for the length of a message. -/
structure LengthColumns where
  lengthSection : Fe := 0
  accLength : Fe := 0

instance : Inhabited LengthColumns := ⟨{}⟩

namespace PaddingSha256Executor

open PaddingHash

abbrev blockSize : ℕ := 31488
abbrev bytesPerBlock : ℕ := 64
abbrev bitsPerElement : ℕ := 7

/-- `0x80`, zeros up to 56 bytes of a block, and the length in bits in eight bytes, the upper four of
which are zero. -/
def pad (bytes : List UInt8) : Option (List UInt8) :=
  let realLen := bytes.length
  if realLen > 1 <<< 29 then none
  else
    let bitLen := realLen * 8
    let length : List UInt8 := [0, 0, 0, 0, (bitLen >>> 24).toUInt8, (bitLen >>> 16).toUInt8,
      (bitLen >>> 8).toUInt8, bitLen.toUInt8]
    some (pushZeros bytesPerBlock 56 (bytes ++ [0x80]) ++ length)

/-- The rows behind byte `j`. -/
def sectionRest (input : PaddingExecutorInput) (j : ℕ) : ℕ := input.dataBytes.length - 1 - j

/-- `accLength[p]`, when `s` rows follow: the bytes of the length so far. -/
def accLength (input : PaddingExecutorInput) (s : ℕ) : ℕ :=
  (input.realLen <<< 3) &&& (0xFFFFFFFF <<< (s * 8) % 2 ^ 32)

/-- `SHA256` is the hash of a message as a number. -/
def padder (SHA256 : List UInt8 → ℕ) : HashPadder LengthColumns where
  bytesPerBlock := bytesPerBlock
  nTotalBlocks := bitsPerElement * (N / blockSize)
  pad := pad
  digest := SHA256
  hash scalar k := limb scalar (7 - k)
  spare input j := j > input.realLen
  lastHash input j p _ :=
    let lastBlockLatch := p % bytesPerBlock = bytesPerBlock - 1
    lastBlockLatch ∧ sectionRest input j < 8
  ext input j cols :=
    let s := sectionRest input j
    { lengthSection := if s < 8 then 1 else cols.lengthSection
      accLength := if s < 4 then fromU64 (accLength input s) else cols.accLength }
  tooMany total := total * blockSize > bitsPerElement * bytesPerBlock * N
  bytes0 j := if j = 0 then 0x80 else 0
  unusedSpare j := j ≠ 0
  unusedExt j cols := { cols with lengthSection := if j ≥ 56 then 1 else cols.lengthSection }
  restByte fp p := if p ≠ fp then none else some 0x80
  restExt p cols := { cols with lengthSection := if N - p ≤ 8 then 1 else cols.lengthSection }

/-- `PaddingSha256Executor::execute`. -/
def execute (SHA256 : List UInt8 → ℕ) (input : List PaddingExecutorInput) :
    Option (HashPadder.State LengthColumns) := (padder SHA256).execute input

end PaddingSha256Executor

end ZkevmProver
