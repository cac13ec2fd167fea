import ZkevmProver.Lib.BigEndian
import ZkevmProver.Lib.Loops
import ZkevmProver.Utils.ByteArray
import ZkevmProver.Utils.Scalar

/-!
# Reads and writes that cross two words

The check of the main executor on a `memAlign` instruction, and the rows that `MemAlignExecutor` writes
for the operations that pass it.

  1. The check of the main executor.
  2. The executor.
  3. What an operation means.
-/

namespace ZkevmProver

open BigEndian

/-! ## The check of the main executor -/

/-- A scalar that `fea2scalar` gives. -/
abbrev Word256 := Fin (2 ^ 256)

inductive MemAlignMode
  /-- `memAlignRD` -/
  | read
  /-- `memAlignWR` -/
  | write
  /-- `memAlignWR8` -/
  | write8
  deriving DecidableEq

/-- A `memAlign` instruction: its mode, the operand and the registers that it reads. -/
structure MemAlignOp where
  mode : MemAlignMode
  /-- A -/
  m0 : Word256
  /-- B -/
  m1 : Word256
  /-- The operand. -/
  v : Word256
  /-- C -/
  offset : Word256
  /-- D, of a write -/
  w0 : Word256
  /-- E, of a write of 32 bytes -/
  w1 : Word256

/-- What the executor of the state machine gets. -/
structure MemAlignAction where
  m0 : ℕ
  m1 : ℕ
  v : ℕ
  w0 : ℕ
  w1 : ℕ
  offset : ℕ
  wr8 : ℕ
  wr256 : ℕ

inductive MemAlignError
  /-- `ZKR_SM_MAIN_MEMALIGN_OFFSET_OUT_OF_RANGE` -/
  | offsetOutOfRange
  /-- `ZKR_SM_MAIN_MEMALIGN_WRITE_MISMATCH` -/
  | writeMismatch
  /-- `ZKR_SM_MAIN_MEMALIGN_WRITE8_MISMATCH` -/
  | write8Mismatch
  /-- `ZKR_SM_MAIN_MEMALIGN_READ_MISMATCH` -/
  | readMismatch
  /-- The process is aborted. -/
  | abort
  deriving DecidableEq

/-- `x << n`: a number of more than 2^31 - 1 limbs of 64 bits aborts the process. -/
def mpzShiftLeft (x n : ℕ) : Except MemAlignError ℕ :=
  if x = 0 then pure 0
  else if (x.size + 63) / 64 + n / 64 + (if n % 64 = 0 then 0 else 1) < 2 ^ 31 then pure (x <<< n)
  else throw .abort

/-- `byteMaskOn256`: 32 bytes `FF`, one byte `00` and 31 bytes `FF`. -/
def byteMaskOn256 : ℕ :=
  0xFFFFFFFFFFFFFFFFFFFFFFFFFFFFFFFFFFFFFFFFFFFFFFFFFFFFFFFFFFFFFFFF00FFFFFFFFFFFFFFFFFFFFFFFFFFFFFFFFFFFFFFFFFFFFFFFFFFFFFFFFFFFFFF

namespace MemAlignOp

/-- The memAlign instruction of `MainExecutor::execute`. -/
def check (op : MemAlignOp) : Except MemAlignError MemAlignAction :=
  let m0 := op.m0.val
  let m1 := op.m1.val
  let v := op.v.val
  let w0 := op.w0.val
  let w1 := op.w1.val
  let offset := op.offset.val
  if offset > 32 then throw .offsetOutOfRange
  else
    match op.mode with
    | .write =>
      let W0 := (m0 &&& (2 ^ 256 - (1 <<< (256 - offset * 8)))) ||| (v >>> (offset * 8))
      let W1 := (m1 &&& (ScalarMask256 >>> (offset * 8))) |||
        ((v <<< (256 - offset * 8)) &&& ScalarMask256)
      if w0 ≠ W0 ∨ w1 ≠ W1 then throw .writeMismatch
      else pure { m0, m1, w0, w1, v, offset, wr256 := 1, wr8 := 0 }
    | .write8 => do
      -- the offset is a `uint64_t`, and so is the shift
      let byte ← mpzShiftLeft (v &&& 0xFF) ((31 + 2 ^ 64 - offset) % 2 ^ 64 * 8 % 2 ^ 64)
      let W0 := (m0 &&& (byteMaskOn256 >>> (offset * 8))) ||| byte
      if w0 ≠ W0 then throw .write8Mismatch
      else pure { m0, m1 := 0, w0, w1 := 0, v, offset, wr256 := 0, wr8 := 1 }
    | .read =>
      let leftV := (m0 <<< (offset * 8)) &&& ScalarMask256
      let rightV := (m1 >>> (256 - offset * 8)) &&& (ScalarMask256 >>> (256 - offset * 8))
      if v ≠ leftV ||| rightV then throw .readMismatch
      else pure { m0, m1, w0 := 0, w1 := 0, v, offset, wr256 := 0, wr8 := 0 }

end MemAlignOp

/-! ## The executor -/

/-- The committed polynomials, by index. -/
structure MemAlignCommitPols where
  inM : Fin 2 → ℕ → Fe
  inV : ℕ → Fe
  wr256 : ℕ → Fe
  wr8 : ℕ → Fe
  m0 : Fin 8 → ℕ → Fe
  m1 : Fin 8 → ℕ → Fe
  w0 : Fin 8 → ℕ → Fe
  w1 : Fin 8 → ℕ → Fe
  v : Fin 8 → ℕ → Fe
  selM1 : ℕ → Fe
  factorV : Fin 8 → ℕ → Fe
  offset : ℕ → Fe
  resultRd : ℕ → Fe
  resultWr8 : ℕ → Fe
  resultWr256 : ℕ → Fe

namespace MemAlignExecutor

open Function

/-- `MemAlignCommitPols::pilDegree()` -/
def pilDegree : ℕ := 8388608

/-- Polynomials of zeroed memory. -/
def zeroPols : MemAlignCommitPols :=
  ⟨fun _ _ => 0, fun _ => 0, fun _ => 0, fun _ => 0, fun _ _ => 0, fun _ _ => 0, fun _ _ => 0,
    fun _ _ => 0, fun _ _ => 0, fun _ => 0, fun _ _ => 0, fun _ => 0, fun _ => 0, fun _ => 0,
    fun _ => 0⟩

/-- `STEP`, of a fixed column. -/
def STEP (i : ℕ) : ℕ := i % 32

/-- `OFFSET` -/
def OFFSET (i : ℕ) : ℕ := (i >>> 5) % 32

/-- `WR8` -/
def WR8 (i : ℕ) : ℕ := if i % 3072 ≥ 2048 then 1 else 0

/-- `V_BYTE` -/
def V_BYTE (i : ℕ) : ℕ := (31 + (OFFSET i + WR8 i) - STEP i) % 32

/-- `1`, `0x100`, `0x10000` and `0x1000000` -/
def factors (i : ℕ) : ℕ := 256 ^ i

/-- `FACTORV` -/
def FACTORV (index : Fin 8) (i : ℕ) : ℕ :=
  if V_BYTE i >>> 2 = index then factors (V_BYTE i % 4) else 0

def getByte (value index : ℕ) : ℕ := (value >>> (8 * index)) &&& 0xFF

namespace MemAlignAction

variable (input : MemAlignAction) (j : ℕ)

/-- The byte of the value that row `j` reads. -/
def vByte : ℕ := (31 + (input.offset + input.wr8) - j) % 32

def inM0 : ℕ := getByte input.m0 (31 - j)

def inM1 : ℕ := getByte input.m1 (31 - j)

def inV : ℕ := getByte input.v (vByte input j)

def selM1 : ℕ :=
  if input.wr8 ≠ 0 then (if j = input.offset then 1 else 0) else if input.offset > j then 1 else 0

def inW0 : ℕ :=
  if input.wr256 * (1 - selM1 input j) = 1 ∨ input.wr8 * selM1 input j = 1 then inV input j
  else (input.wr256 + input.wr8) * inM0 input j % 2 ^ 8

def inW1 : ℕ :=
  if input.wr256 * selM1 input j = 1 then inV input j
  else (input.wr256 + input.wr8) * inM1 input j % 2 ^ 8

end MemAlignAction

/-- The byte of row `j` is added to its limb in the next row. -/
def addByte (polIndex j byte : ℕ) (limbs : Fin 8 → ℕ → Fe) : Fin 8 → ℕ → Fe :=
  let mIndex : Fin 8 := Fin.ofNat 8 (7 - (j >>> 2))
  let factor := factors (3 - j % 4)
  update limbs mIndex (update (limbs mIndex) (polIndex + 1 + j)
    (fromU64 ((if j = 0 then 0 else toU64 (limbs mIndex (polIndex + j))) + byte * factor)))

/-- The limb goes on to the next row. -/
def copyLimb (polIndex : ℕ) (index : Fin 8) (j : ℕ) (limbs : Fin 8 → ℕ → Fe) :
    Fin 8 → ℕ → Fe :=
  update limbs index (update (limbs index) (polIndex + j + 1) (limbs index (polIndex + j)))

/-- What row `j` of an action writes. -/
def byteRow (input : MemAlignAction) (polIndex j : ℕ) (pols : MemAlignCommitPols) :
    MemAlignCommitPols :=
  let vByte := MemAlignAction.vByte input j
  let index : Fin 8 := Fin.ofNat 8 (vByte >>> 2)
  { pols with
    wr8 := update pols.wr8 (polIndex + j + 1) (fromU64 input.wr8)
    wr256 := update pols.wr256 (polIndex + j + 1) (fromU64 input.wr256)
    offset := update pols.offset (polIndex + j + 1) (fromU64 input.offset)
    inM := ![update (pols.inM 0) (polIndex + j) (fromU64 (MemAlignAction.inM0 input j)),
      update (pols.inM 1) (polIndex + j) (fromU64 (MemAlignAction.inM1 input j))]
    inV := update pols.inV (polIndex + j) (fromU64 (MemAlignAction.inV input j))
    selM1 := update pols.selM1 (polIndex + j) (fromU64 (MemAlignAction.selM1 input j))
    factorV := update pols.factorV index
      (update (pols.factorV index) (polIndex + j) (fromU64 (factors (vByte % 4))))
    m0 := addByte polIndex j (MemAlignAction.inM0 input j) pols.m0
    m1 := addByte polIndex j (MemAlignAction.inM1 input j) pols.m1
    w0 := addByte polIndex j (MemAlignAction.inW0 input j) pols.w0
    w1 := addByte polIndex j (MemAlignAction.inW1 input j) pols.w1 }

/-- The limbs of the value after row `j`. -/
def valueRow (polIndex j : ℕ) (pols : MemAlignCommitPols) : MemAlignCommitPols :=
  { pols with
    v := fun index => update (pols.v index) (polIndex + 1 + j)
      ((if j = 0 then 0 else pols.v index (polIndex + j)) +
        pols.inV (polIndex + j) * pols.factorV index (polIndex + j)) }

/-- The limbs that are complete after row `j`. -/
def copyRow (polIndex : ℕ) (index : Fin 8) (j : ℕ) (pols : MemAlignCommitPols) :
    MemAlignCommitPols :=
  { pols with
    m0 := copyLimb polIndex index j pols.m0
    m1 := copyLimb polIndex index j pols.m1
    w0 := copyLimb polIndex index j pols.w0
    w1 := copyLimb polIndex index j pols.w1 }

/-- Which kind of operation has its result at this index. -/
def setResult (input : MemAlignAction) (polResultIndex : ℕ) (pols : MemAlignCommitPols) :
    MemAlignCommitPols :=
  { pols with
    resultRd := if input.wr8 = 0 ∧ input.wr256 = 0 then update pols.resultRd polResultIndex 1
      else pols.resultRd
    resultWr8 := if input.wr8 ≠ 0 then update pols.resultWr8 polResultIndex 1 else pols.resultWr8
    resultWr256 := if input.wr256 ≠ 0 then update pols.resultWr256 polResultIndex 1
      else pols.resultWr256 }

/-- A row step writes at the next index, which is one of the polynomials only when it is less than
`N`: no bound is checked. -/
def guarded (N polIndex j : ℕ) (f : MemAlignCommitPols → MemAlignCommitPols)
    (pols : MemAlignCommitPols) : Option MemAlignCommitPols :=
  if polIndex + j + 1 < N then some (f pols) else none

/-- The rows of action `i`. -/
def execAction (N : ℕ) (pols : MemAlignCommitPols) (x : MemAlignAction × ℕ) :
    Option MemAlignCommitPols := do
  let (input, i) := x
  let polIndex := i * 32
  let pols := setResult input (((i + 1) * 32) % N) pols
  let pols ← (List.range 32).foldlM (fun pols j =>
    guarded N polIndex j (byteRow input polIndex j) pols) pols
  let pols ← (List.range 32).foldlM (fun pols j =>
    guarded N polIndex j (valueRow polIndex j) pols) pols
  (List.finRange 8).foldlM (fun pols (index : Fin 8) =>
    (List.range' (32 - index * 4) (index * 4)).foldlM (fun pols j =>
      guarded N polIndex j (copyRow polIndex index j) pols) pols) pols

/-- The factors of a row after the last action. -/
def fillRow (i : ℕ) (pols : MemAlignCommitPols) : MemAlignCommitPols :=
  { pols with
    factorV := fun index => update (pols.factorV index) i (fromU64 (FACTORV index (i % 32))) }

/-- `MemAlignExecutor::execute`; `none` when the process exits, or writes outside of the
polynomials. -/
def execute (N : ℕ) (input : List MemAlignAction) (pols : MemAlignCommitPols) :
    Option MemAlignCommitPols := do
  if input.length * 32 > N then none
  else
    let pols ← input.zipIdx.foldlM (execAction N) pols
    return (List.range' (input.length * 32) (N - input.length * 32)).foldl
      (fun pols i => fillRow i pols) pols

end MemAlignExecutor

/-! ## What an operation means -/

namespace MemAlignOp

/-- The 64 bytes of the two words that an operation is about.  A write of one byte is about one
word. -/
def memory (op : MemAlignOp) : List UInt8 :=
  bytes 32 op.m0 ++ bytes 32 (if op.mode = .write8 then 0 else op.m1.val)

/-- The bytes of the value go to or come from the offset. -/
def Spliced (op : MemAlignOp) : Prop :=
  match op.mode with
  | .read => bytes 32 op.v = (op.memory.drop op.offset).take 32
  | .write => bytes 32 op.w0 ++ bytes 32 op.w1 =
      op.memory.take op.offset ++ bytes 32 op.v ++ op.memory.drop (op.offset + 32)
  | .write8 => bytes 32 op.w0 ++ bytes 32 0 =
      op.memory.take op.offset ++ [op.v.val.toUInt8] ++ op.memory.drop (op.offset + 1)

end MemAlignOp

end ZkevmProver
