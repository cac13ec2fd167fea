import ZkevmProver.SM.Padding
import ZkevmProver.HashDB.SmtTypes

/-!
# The executor of the Poseidon padding state machine

A message, padded to blocks of 56 bytes, takes a row for each byte.  Seven bytes go to each of eight
field elements; the last row of a block hashes them with the hash of the block before as capacity.

  1. Rows and messages.
  2. A byte, a message, and the whole list.
  3. `poseidonLinearHash`.
-/

namespace ZkevmProver

open Loops

/-! ## Rows and messages -/

structure PaddingPGRow extends PaddingRow where
  acc : Fin 8 → Fe := fun _ => 0
  prevHash : Fea := 0
  curHash : Fea := 0

/-- A permutation that the Poseidon machine has to prove. -/
structure PoseidonGInput where
  node : Node
  hash : Fea
  permutation : Fe

namespace PaddingPGExecutor

abbrev bytesPerElement : ℕ := 7
abbrev nElements : ℕ := 8
abbrev bytesPerBlock : ℕ := bytesPerElement * nElements

/-- `PaddingPGCommitPols::pilDegree()`, the same for every fork. -/
abbrev N : ℕ := 8388608

def POSEIDONG_PERMUTATION4_ID : ℕ := 4

section Executor

variable (keccak256 : List UInt8 → ℕ) (poseidon : Node → Fea)

/-- The bytes of a message; `none` when the text has an odd length or other characters. -/
def messageBytes (input : PaddingExecutorInput) : Option (List UInt8) := do
  let bytes ← hexBytes input.data
  return input.dataBytes ++ bytes

def prepareMessage (input : PaddingExecutorInput) : Option PaddingExecutorInput := do
  let dataBytes ← messageBytes input
  return { input with
    hash := keccak256 dataBytes
    realLen := dataBytes.length
    dataBytes := pad10 bytesPerBlock dataBytes }

def prepareInput (input : List PaddingExecutorInput) : Option (List PaddingExecutorInput) :=
  input.mapM (prepareMessage keccak256)

/-! ## The executor -/

/-- `acc[k][p+1]` -/
def accNext (j : ℕ) (freeIn : Fe) (acc : Fin 8 → Fe) : Fin 8 → Fe :=
  let acci := j % bytesPerBlock / bytesPerElement
  let sh := j % bytesPerElement * 8
  fun k => if k = acci then fromU64 (toU64 (acc k) ||| (toU64 freeIn <<< sh)) else acc k

/-- What is hashed: eight elements and the capacity. -/
def hashNode (acc : Fin 8 → Fe) (prevHash : Fea) : Node where
  left := ⟨acc 0, acc 1, acc 2, acc 3⟩
  right := ⟨acc 4, acc 5, acc 6, acc 7⟩
  capacity := prevHash

/-- `spare[p]` -/
def spare (input : PaddingExecutorInput) (j : ℕ) (row : PaddingRow) : Fe :=
  if remAt input j ≠ 0 ∧ toU64 (remAt input j) > 0xFFFF then 1 else row.spare

def lastHash (input : PaddingExecutorInput) (j p : ℕ) (spare : Fe) : Bool :=
  let lastBlock := p % bytesPerBlock = bytesPerBlock - 1
  lastBlock ∧ (spare ≠ 0 ∨ remAt input j = 0)

/-- What byte `j` writes in its own row, before the hash. -/
def curRow (input : PaddingExecutorInput) (addr j p : ℕ) (cursor : ReadCursor) (prev : PaddingRow)
    (row : PaddingPGRow) : ReadCursor × PaddingRow :=
  let spare := spare input j row.toPaddingRow
  readRow input.reads cursor prev
    (byteRow input addr j spare (lastHash input j p spare) row.toPaddingRow)

/-- What byte `j` writes in the next row, where the block does not end. -/
def nextRow (j : ℕ) (row next : PaddingPGRow) : PaddingPGRow :=
  { readNext row.toPaddingRow next.toPaddingRow with
    incCounter := row.incCounter
    acc := accNext j row.freeIn row.acc
    prevHash := row.prevHash
    curHash := next.curHash }

/-- What the last byte of a block changes in the next row. -/
def nextBlock (input : PaddingExecutorInput) (j : ℕ) (hash : Fea) (row next : PaddingPGRow) :
    PaddingPGRow :=
  let last := j = input.dataBytes.length - 1
  { next with
    acc := fun _ => 0
    prevHash := if last then 0 else hash
    incCounter := if last then 1 else row.incCounter + 1 }

/-- Byte `j` of a message. -/
def execByte (input : PaddingExecutorInput) (addr j : ℕ)
    (S : PaddingState PaddingPGRow PoseidonGInput × ReadCursor) :
    PaddingState PaddingPGRow PoseidonGInput × ReadCursor :=
  let p := S.1.p
  let pols := S.1.pols
  let cols := curRow input addr j p S.2 (pols (p - 1)).toPaddingRow (pols p)
  let row := { pols p with toPaddingRow := cols.2 }
  let next := nextRow j row (pols (p + 1))
  let pols := Function.update pols p row
  if j % bytesPerBlock = bytesPerBlock - 1 then
    let node := hashNode next.acc row.prevHash
    let hash := poseidon node
    let pols := setRows pols (p + 1 - bytesPerBlock) bytesPerBlock fun r =>
      { r with curHash := hash }
    let pols := Function.update pols (p + 1) (nextBlock input j hash row next)
    let required := S.1.required ++ [⟨node, hash, fromU64 POSEIDONG_PERMUTATION4_ID⟩]
    (⟨p + 1, pols, required⟩, cols.1)
  else (⟨p + 1, Function.update pols (p + 1) next, S.1.required⟩, cols.1)

/-- A message. -/
def execMessage (input : PaddingExecutorInput) (addr : ℕ)
    (S : PaddingState PaddingPGRow PoseidonGInput) : PaddingState PaddingPGRow PoseidonGInput :=
  (forUpTo input.dataBytes.length (execByte poseidon input addr) (S, {})).1

/-- The padded empty message as field elements. -/
def emptyAcc (k : Fin 8) : Fe :=
  if k = 0 then 1 else if k = 7 then fromU64 (0x80 <<< 48) else 0

/-- Row `j` of an unused block of `bytesBlock` rows. -/
def unusedRow (hash : Fea) (addr bytesBlock j : ℕ) (row : PaddingPGRow) : PaddingPGRow :=
  let rem := -fromU64 j
  { row with
    freeIn := if j = 0 then 1 else if j = bytesBlock - 1 then fromU64 0x80 else row.freeIn
    acc := if j ≠ 0 then Function.update row.acc 0 1 else row.acc
    addr := fromU64 addr
    rem
    remInv := if rem ≠ 0 then glpInv rem else row.remInv
    spare := if j ≠ 0 then 1 else row.spare
    prevHash := 0
    incCounter := 1
    curHash := hash
    crLen := 1
    crF := Function.update row.crF 0 1 }

def unusedRows (hash : Fea) (addr bytesBlock n : ℕ) (S : PaddingState PaddingPGRow PoseidonGInput) :
    PaddingState PaddingPGRow PoseidonGInput :=
  forUpTo n (fun j S =>
    let row := unusedRow hash addr bytesBlock j (S.pols S.p)
    { S with p := S.p + 1, pols := Function.update S.pols S.p row }) S

/-- An unused block, the last one with the rows that are left. -/
def unusedBlock (hash : Fea) (addr : ℕ) (S : PaddingState PaddingPGRow PoseidonGInput) :
    PaddingState PaddingPGRow PoseidonGInput :=
  let bytesBlock := if N - S.p > bytesPerBlock then bytesPerBlock else N - S.p
  unusedRows hash addr bytesBlock bytesBlock S

/-- The rows up to the degree. -/
def execUnused (addr : ℕ) (S : PaddingState PaddingPGRow PoseidonGInput) :
    PaddingState PaddingPGRow PoseidonGInput :=
  let nFullUnused := (N - S.p - 1) / bytesPerBlock + 1
  let node := hashNode emptyAcc 0
  let h0 := poseidon node
  let S := { S with required := S.required ++ [⟨node, h0, fromU64 POSEIDONG_PERMUTATION4_ID⟩] }
  forUpTo nFullUnused (fun i => unusedBlock h0 (addr + i)) S

/-- The rows of zeroed memory, the first counter apart. -/
def init : PaddingState PaddingPGRow PoseidonGInput where
  pols := fun p => { incCounter := if p = 0 then 1 else 0 }

/-- `none` when the process exits. -/
def execute (input : List PaddingExecutorInput) :
    Option (PaddingState PaddingPGRow PoseidonGInput) := do
  let input ← prepareInput keccak256 input
  if totalInputBytes input > N then none
  else return execUnused poseidon input.length (forMessages (execMessage poseidon) 0 input init)

end Executor

end PaddingPGExecutor

/-! ## `poseidonLinearHash` -/

/-- The buffer of field elements, seven bytes each. -/
def linearHashBuffer (data : List UInt8) : ℕ → Fe :=
  forUpTo data.length (fun j buffer =>
    let fePos := j / 7
    let shifted := (data.getD j 0).toNat <<< (j % 7 * 8)
    Function.update buffer fePos (buffer fePos + fromU64 shifted)) fun _ => 0

def poseidonLinearHash (linear_hash : List Fe → Fea) (data : List UInt8) : Fea :=
  let data := pad10 56 data
  let bufferSize := data.length / 7
  linear_hash ((List.range bufferSize).map (linearHashBuffer data))

end ZkevmProver
