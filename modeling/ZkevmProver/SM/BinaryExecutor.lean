import ZkevmProver.Utils.Scalar

/-!
# The executor of the binary state machine

Every binary operation of the main state machine takes sixteen rows here.  A row reads two bytes of
each operand and of the result, passes a carry through them, and adds them to the registers of the
next row.

  1. Operands as bytes, and the rows of polynomials.
  2. The carry through a byte, by opcode.
  3. A row, an action, and the whole list.
  4. `lt4`, and the results that the main state machine expects.
-/

namespace ZkevmProver

/-! ## Bytes and rows -/

/-- The 32 bytes of a scalar, lowest first; `none` when it does not fit (the process exits). -/
def scalar2bytes (s : ℕ) : Option (ℕ → ℕ) :=
  if s >>> 256 = 0 then some fun i => (s >>> (8 * i)) &&& 0xFF else none

structure BinaryAction where
  a : ℕ
  b : ℕ
  c : ℕ
  opcode : ℕ
  type : ℕ

structure BinaryActionBytes where
  a_bytes : ℕ → ℕ
  b_bytes : ℕ → ℕ
  c_bytes : ℕ → ℕ
  opcode : ℕ
  type : ℕ

def BinaryAction.bytes (action : BinaryAction) : Option BinaryActionBytes := do
  let a_bytes ← scalar2bytes action.a
  let b_bytes ← scalar2bytes action.b
  let c_bytes ← scalar2bytes action.c
  return { a_bytes, b_bytes, c_bytes, opcode := action.opcode, type := action.type }

/-- The values of the committed polynomials at one index. -/
structure BinaryRow where
  opcode : Fe
  a : Fin 8 → Fe
  b : Fin 8 → Fe
  c : Fin 8 → Fe
  freeInA : Fin 2 → Fe
  freeInB : Fin 2 → Fe
  freeInC : Fin 2 → Fe
  cIn : Fe
  cMiddle : Fe
  cOut : Fe
  lCout : Fe
  lOpcode : Fe
  previousAreLt4 : Fe
  usePreviousAreLt4 : Fe
  reset4 : Fe
  useCarry : Fe
  resultBinOp : Fe
  resultValidRange : Fe

/-- A row of zeroed memory. -/
instance : Zero BinaryRow :=
  ⟨⟨0, fun _ => 0, fun _ => 0, fun _ => 0, fun _ => 0, fun _ => 0, fun _ => 0,
    0, 0, 0, 0, 0, 0, 0, 0, 0, 0, 0⟩⟩

/-- The committed polynomials, by index. -/
abbrev BinaryCommitPols := ℕ → BinaryRow

namespace BinaryExecutor

/-- `BinaryCommitPols::pilDegree()`, the same for every fork. -/
def pilDegree : ℕ := 8388608

abbrev REGISTERS_NUM : ℕ := 8
abbrev STEPS_PER_REGISTER : ℕ := 2
abbrev STEPS : ℕ := STEPS_PER_REGISTER * REGISTERS_NUM
abbrev LATCH_SIZE : ℕ := REGISTERS_NUM * STEPS_PER_REGISTER

/-- `FACTOR[j][index]`. -/
def FACTOR (j index : ℕ) : ℕ :=
  if j = index / STEPS_PER_REGISTER % REGISTERS_NUM then
    if index % 2 = 0 then 1 else 1 <<< 16
  else 0

/-- What a 64-bit word holds. -/
def u64 (n : ℕ) : ℕ := n % 2 ^ 64

/-! ## The carry through a byte -/

/-- What the two bytes of a row leave in its local variables and in `freeInC`. -/
structure RowVars where
  cOut : Fe
  freeInC : Fin 2 → Fe
  useCarry : Bool
  usePreviousAreLt4 : ℕ

/-- The carry of a comparison through a byte. -/
def compareByte (byteA byteB : ℕ) (cIn : Fe) : Fe :=
  if byteA < byteB then 1 else if byteA = byteB then cIn else 0

/-- The body of the loop over the two bytes of a row. -/
def execByte (input : BinaryActionBytes) (j : ℕ) (k : Fin 2) (cIn : Fe) (v : RowVars) : RowVars :=
  let byteA := input.a_bytes (j * 2 + k)
  let byteB := input.b_bytes (j * 2 + k)
  let byteC := input.c_bytes (j * 2 + k)
  let last := j = STEPS - 1
  let resetByte := j = 0 ∧ k = 0
  let lastByte := last ∧ k = 1
  let v := { v with freeInC := Function.update v.freeInC k (fromU64 byteC) }
  match input.opcode with
  | 0 => { v with cOut := fromU64 ((byteA + byteB + toU64 cIn) >>> 8) }
  | 1 => { v with cOut := if (byteB : ℤ) ≤ byteA - toU64 cIn then 0 else 1 }
  | 2 | 8 =>
    let v := if resetByte then
        { v with freeInC := Function.update v.freeInC 0 (fromU64 (input.c_bytes (STEPS - 1))) }
      else v
    let v := { v with cOut := compareByte byteA byteB cIn }
    if lastByte then
      if input.opcode = 2 ∨ v.cOut = 0 then
        { v with
          useCarry := true
          freeInC := Function.update v.freeInC 1 (fromU64 (input.c_bytes 0)) }
      else
        { v with usePreviousAreLt4 := 1, freeInC := Function.update v.freeInC 1 v.cOut }
    else v
  | 3 =>
    let v := { v with useCarry := decide last }
    let v := if resetByte then
        { v with freeInC := Function.update v.freeInC 0 (fromU64 (input.c_bytes (STEPS - 1))) }
      else v
    if lastByte then
      let sig_a := byteA >>> 7
      let sig_b := byteB >>> 7
      { v with
        cOut := if sig_b < sig_a then 1 else if sig_a < sig_b then 0 else
          compareByte byteA byteB cIn
        freeInC := Function.update v.freeInC k (fromU64 (input.c_bytes 0)) }
    else { v with cOut := compareByte byteA byteB cIn }
  | 4 =>
    let v := if resetByte then
        { v with freeInC := Function.update v.freeInC k (fromU64 (input.c_bytes (STEPS - 1))) }
      else v
    let v := { v with cOut := if byteA = byteB ∧ cIn = 0 then 0 else 1 }
    if lastByte then
      { v with
        useCarry := true
        cOut := if v.cOut = 0 then 1 else 0
        freeInC := Function.update v.freeInC k (fromU64 (input.c_bytes 0)) }
    else v
  | 5 => { v with cOut := if byteC = 0 ∧ cIn = 0 then 0 else 1 }
  | _ => { v with cOut := 0 }

/-- The loop over the two bytes of a row. -/
def execBytes (input : BinaryActionBytes) (j : ℕ) (cIn : Fe) (freeInC : Fin 2 → Fe) :
    RowVars × RowVars :=
  let v := execByte input j 0 cIn ⟨0, freeInC, false, 0⟩
  (v, execByte input j 1 v.cOut v)

/-! ## Rows and actions -/

/-- What a register of the next row receives. -/
def accumulate (reset : Bool) (j index : ℕ) (register : Fe) (freeIn : Fin 2 → Fe) : ℕ :=
  u64 (toU64 register * (if reset then 0 else 1) + toU64 (freeIn 0) * FACTOR j index +
    256 * toU64 (freeIn 1) * FACTOR j index)

/-- `reset4`. -/
def reset4 (opcode : ℕ) : ℕ := if opcode = 8 then 1 else 0

/-- What row `j` of an action writes at its own index. -/
def curRow (input : BinaryActionBytes) (j : ℕ) (v : RowVars × RowVars) (cur : BinaryRow) :
    BinaryRow :=
  { cur with
    opcode := fromU64 input.opcode
    freeInA := fun k => fromU64 (input.a_bytes (j * 2 + k))
    freeInB := fun k => fromU64 (input.b_bytes (j * 2 + k))
    freeInC := v.2.freeInC
    cMiddle := v.1.cOut
    cOut := v.2.cOut
    useCarry := if v.2.useCarry then 1 else 0
    usePreviousAreLt4 := fromU64 v.2.usePreviousAreLt4
    reset4 := fromU64 (reset4 input.opcode) }

/-- `previousAreLt4` after row `j`. -/
def nextPreviousAreLt4 (j : ℕ) (previousAreLt4 cOut : Fe) : Fe :=
  if j % 16 = 3 then cOut
  else if j % 16 = 7 ∨ j % 16 = 11 then previousAreLt4 * cOut else previousAreLt4

/-- What row `j` of an action, at `index`, writes at the next index. -/
def nextRow (N : ℕ) (input : BinaryActionBytes) (index j : ℕ) (v : RowVars) (previousAreLt4 : Fe)
    (row next : BinaryRow) : BinaryRow :=
  let last := j = STEPS - 1
  let reset : Bool := j = 0
  let nextReset := (index + 1) % N % STEPS = 0
  let c0Temp := accumulate reset 0 index (row.c 0) row.freeInC
  { next with
    previousAreLt4 := previousAreLt4
    cIn := if nextReset then 0
      else if reset4 input.opcode = 1 ∧ index % 4 = 3 then 0 else row.cOut
    lCout := if v.usePreviousAreLt4 ≠ 0 then previousAreLt4 else row.cOut
    lOpcode := row.opcode
    a := fun k => fromU64 (accumulate reset k index (row.a k) row.freeInA)
    b := fun k => fromU64 (accumulate reset k index (row.b k) row.freeInB)
    c := fun k =>
      if k = 0 then
        if row.useCarry ≠ 0 then row.cOut
        else if row.usePreviousAreLt4 = 1 then row.previousAreLt4 else fromU64 c0Temp
      else if last ∧ (v.useCarry ∨ v.usePreviousAreLt4 ≠ 0) then 0
      else fromU64 (accumulate reset k index (row.c k) row.freeInC) }

/-- Row `j` of action `i`, and `previousAreLt4` after it. -/
def execRow (N : ℕ) (input : BinaryActionBytes) (i j : ℕ) (s : Fe × BinaryCommitPols) :
    Fe × BinaryCommitPols :=
  let index := i * STEPS + j
  let nextIndex := (index + 1) % N
  let v := execBytes input j (s.2 index).cIn (s.2 index).freeInC
  let row := curRow input j v (s.2 index)
  let previousAreLt4 := nextPreviousAreLt4 j s.1 v.2.cOut
  let pols := Function.update s.2 index row
  (previousAreLt4, Function.update pols nextIndex
    (nextRow N input index j v.2 previousAreLt4 row (pols nextIndex)))

/-- The first rows of action `i`. -/
def execRows (N : ℕ) (input : BinaryActionBytes) (i : ℕ) (pols : BinaryCommitPols) :
    ℕ → Fe × BinaryCommitPols
  | 0 => (0, pols)
  | j + 1 => execRow N input i j (execRows N input i pols j)

/-- All the rows of action `i`, and the kind of operation that they are for. -/
def execAction (N : ℕ) (input : BinaryActionBytes) (i : ℕ) (pols : BinaryCommitPols) :
    BinaryCommitPols :=
  let pols := (execRows N input i pols STEPS).2
  let index := ((i + 1) * STEPS) % N
  let pols := if input.type = 1 then
      Function.update pols index { pols index with resultBinOp := 1 }
    else pols
  if input.type = 2 then
    Function.update pols index { pols index with resultValidRange := 1 }
  else pols

/-- The actions from `i` on. -/
def execActions (N : ℕ) : ℕ → List BinaryActionBytes → BinaryCommitPols → BinaryCommitPols
  | _, [], pols => pols
  | i, input :: rest, pols => execActions N (i + 1) rest (execAction N input i pols)

/-- A row after the last action. -/
def padRow (N : ℕ) (pols : BinaryCommitPols) (index : ℕ) : BinaryCommitPols :=
  let nextIndex := (index + 1) % N
  let reset : Bool := index % STEPS = 0
  let row := pols index
  let c0Temp := accumulate reset 0 index (row.c 0) row.freeInC
  Function.update pols nextIndex { pols nextIndex with
    a := fun k => fromU64 (accumulate reset k index (row.a k) row.freeInA)
    b := fun k => fromU64 (accumulate reset k index (row.b k) row.freeInB)
    c := fun k =>
      if k = 0 then
        fromU64 (u64 (toU64 row.useCarry * u64 (toU64 row.cOut + 2 ^ 64 - c0Temp) + c0Temp))
      else fromU64 (accumulate reset k index (row.c k) row.freeInC) }

/-- `BinaryExecutor::execute`; `none` when the process exits. -/
def execute (N : ℕ) (action : List BinaryAction) (pols : BinaryCommitPols) :
    Option BinaryCommitPols :=
  if N < action.length * LATCH_SIZE then none
  else do
    let input ← action.mapM BinaryAction.bytes
    let pols := execActions N 0 input pols
    return (List.range' (input.length * STEPS) (N - input.length * STEPS)).foldl (padRow N) pols

/-! ## What the operations mean -/

/-- The loop of `lt4`, over the chunks that are left. -/
def lt4Loop : ℕ → ℕ → ℕ → ℕ
  | 0, _, _ => 1
  | n + 1, a, b =>
    if a &&& 0xFFFFFFFFFFFFFFFF ≥ b &&& 0xFFFFFFFFFFFFFFFF then 0
    else lt4Loop n (a >>> 64) (b >>> 64)

/-- `lt4`. -/
def lt4 (a b : ℕ) : ℕ := lt4Loop 4 a b

end BinaryExecutor

def ScalarTwoTo256 : ℕ := 2 ^ 256

/-- The value of a 256-bit word in two's complement. -/
def signed (x : ℕ) : ℤ := if x < 2 ^ 255 then x else x - 2 ^ 256

/-- The result of an operation, as the main state machine expects it. -/
def BinaryAction.result (opcode a b : ℕ) : ℕ :=
  match opcode with
  | 0 => (a + b) % ScalarTwoTo256
  | 1 => (a + ScalarTwoTo256 - b) % ScalarTwoTo256
  | 2 => if a < b then 1 else 0
  | 3 => if signed a < signed b then 1 else 0
  | 4 => if a = b then 1 else 0
  | 5 => a &&& b
  | 6 => a ||| b
  | 7 => a ^^^ b
  | 8 => BinaryExecutor.lt4 a b
  | _ => 0

/-- The carry that the main state machine expects. -/
def BinaryAction.carry (opcode a b : ℕ) : ℕ :=
  match opcode with
  | 0 => if 2 ^ 256 ≤ a + b then 1 else 0
  | 1 => if a < b then 1 else 0
  | 2 => if a < b then 1 else 0
  | 3 => if signed a < signed b then 1 else 0
  | 4 => if a = b then 1 else 0
  | 5 => if a &&& b = 0 then 0 else 1
  | 8 => BinaryExecutor.lt4 a b
  | _ => 0

/-- Two 256-bit operands with the result of one of the nine operations. -/
structure BinaryAction.Correct (action : BinaryAction) : Prop where
  a_lt : action.a < 2 ^ 256
  b_lt : action.b < 2 ^ 256
  opcode_le : action.opcode ≤ 8
  c_eq : action.c = BinaryAction.result action.opcode action.a action.b

end ZkevmProver
