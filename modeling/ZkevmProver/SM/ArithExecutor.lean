import ZkevmProver.ECRecover.PointEc
import ZkevmProver.Lib.CarryChain
import ZkevmProver.Lib.Loops
import ZkevmProver.Utils.Scalar

/-!
# The executor of the arithmetic state machine

An action takes 32 rows.  Its operands, the slope and the quotients of its equations are 16 chunks of 16
bits, the same in all rows.  Row by row, a digit of each selected equation and a carry add up to a
multiple of `2 ^ 16`; and flags tell whether the results are less than the prime, and whether the
two points of an addition differ.

  1. Actions, chunks and polynomials.
  2. The equations.
  3. The slope and the quotients.
  4. The flags.
  5. The carries, an action, and the whole list.
-/

namespace ZkevmProver

open CarryChain

/-! ## Actions, chunks and polynomials -/

instance neZero_sixteen : NeZero 16 := ⟨by decide⟩

structure ArithAction where
  x1 : ℕ
  y1 : ℕ
  x2 : ℕ
  y2 : ℕ
  x3 : ℕ
  y3 : ℕ
  selEq0 : ℕ := 0
  selEq1 : ℕ := 0
  selEq2 : ℕ := 0
  selEq3 : ℕ := 0
  selEq4 : ℕ := 0
  selEq5 : ℕ := 0
  selEq6 : ℕ := 0

/-- 16 chunks, lowest first: 16 bits each but the last one, which has up to 20; `none` when the number
does not fit (the process exits). -/
def scalar2ba16 (s : ℕ) : Option (Fin 16 → ℕ) :=
  if s >>> 256 > 0xF then none
  else some fun i => (s >>> (16 * i.val)) &&& (if i.val < 15 then 0xFFFF else 0xFFFFF)

structure ArithActionBytes extends ArithAction where
  _x1 : Fin 16 → ℕ
  _y1 : Fin 16 → ℕ
  _x2 : Fin 16 → ℕ
  _y2 : Fin 16 → ℕ
  _x3 : Fin 16 → ℕ
  _y3 : Fin 16 → ℕ
  _s : Fin 16 → ℕ
  _q0 : Fin 16 → ℕ
  _q1 : Fin 16 → ℕ
  _q2 : Fin 16 → ℕ

/-- The columns of an index that are read from the action. -/
structure ArithRow where
  x1 : Fin 16 → Fe := fun _ => 0
  y1 : Fin 16 → Fe := fun _ => 0
  x2 : Fin 16 → Fe := fun _ => 0
  y2 : Fin 16 → Fe := fun _ => 0
  x3 : Fin 16 → Fe := fun _ => 0
  y3 : Fin 16 → Fe := fun _ => 0
  s : Fin 16 → Fe := fun _ => 0
  q0 : Fin 16 → Fe := fun _ => 0
  q1 : Fin 16 → Fe := fun _ => 0
  q2 : Fin 16 → Fe := fun _ => 0
  selEq : Fin 7 → Fe := fun _ => 0
  xDeltaChunkInverse : Fe := 0
  chunkLtPrime : Fe := 0

structure ArithCommitPols where
  row : ℕ → ArithRow := fun _ => {}
  xAreDifferent : ℕ → Fe := fun _ => 0
  valueLtPrime : ℕ → Fe := fun _ => 0
  carry : ℕ → Fin 3 → Fe := fun _ _ => 0
  /-- `resultEq0`, `resultEq1` and `resultEq2`. -/
  resultEq : ℕ → Fin 3 → Fe := fun _ _ => 0

namespace ArithExecutor

/-- `ArithCommitPols::pilDegree()`, the same for every fork. -/
abbrev N : ℕ := 8388608

def pBN254 : ℕ := 0x30644E72E131A029B85045B68181585D97816A916871CA8D3C208C16D87CFD47

/-- The highest chunk first. -/
def chunksPrimeSecp256k1 : Fin 16 → ℕ :=
  ![0xFFFF, 0xFFFF, 0xFFFF, 0xFFFF, 0xFFFF, 0xFFFF, 0xFFFF, 0xFFFF,
    0xFFFF, 0xFFFF, 0xFFFF, 0xFFFF, 0xFFFF, 0xFFFE, 0xFFFF, 0xFC2F]

def chunksPrimeBN254 : Fin 16 → ℕ :=
  ![0x3064, 0x4E72, 0xE131, 0xA029, 0xB850, 0x45B6, 0x8181, 0x585D,
    0x9781, 0x6A91, 0x6871, 0xCA8D, 0x3C20, 0x8C16, 0xD87C, 0xFD47]

/-! ## The equations -/

/-- The chunks of a column as digits. -/
def num (x : Fin 16 → Fe) (j : ℕ) : ℤ := if h : j < 16 then toU64 (x ⟨j, h⟩) else 0

/-- The chunks of a constant as digits. -/
def const (n : ℕ) (j : ℕ) : ℤ := ((n >>> (16 * j)) &&& 0xFFFF : ℕ)

section Equations

variable (p : ArithRow) (step : ℕ)

def eq0 : ℤ :=
  conv (num p.x1) (num p.y1) step - conv (const (2 ^ 256)) (num p.y2) step + num p.x2 step -
    num p.y3 step

def eq1 : ℤ :=
  conv (num p.s) (num p.x2) step - conv (num p.s) (num p.x1) step - num p.y2 step + num p.y1 step -
    conv (const FPEC) (num p.q0) step + conv (const FPEC) (const (2 * 2 ^ 256)) step

def eq2 : ℤ :=
  conv (num p.s) (num p.y1) step + conv (num p.s) (num p.y1) step - conv (num p.x1) (num p.x1) step -
    conv (num p.x1) (num p.x1) step - conv (num p.x1) (num p.x1) step +
    conv (const FPEC) (num p.q0) step - conv (const FPEC) (const (4 * 2 ^ 256)) step

def eq3 : ℤ :=
  conv (num p.s) (num p.s) step - num p.x1 step - num p.x2 step - num p.x3 step -
    conv (const FPEC) (num p.q1) step + conv (const FPEC) (const 4) step

def eq4 : ℤ :=
  conv (num p.s) (num p.x1) step - conv (num p.s) (num p.x3) step - num p.y1 step - num p.y3 step +
    conv (const FPEC) (num p.q2) step - conv (const FPEC) (const (2 * 2 ^ 256)) step

def eq5 : ℤ :=
  conv (num p.x1) (num p.x2) step - conv (num p.y1) (num p.y2) step - num p.x3 step +
    conv (const pBN254) (num p.q1) step - conv (const pBN254) (const (8 * 2 ^ 256)) step

def eq6 : ℤ :=
  conv (num p.y1) (num p.x2) step + conv (num p.x1) (num p.y2) step - num p.y3 step -
    conv (const pBN254) (num p.q2) step + conv (const pBN254) (const 8) step

def eq7 : ℤ :=
  num p.x1 step + num p.x2 step - num p.x3 step - conv (const pBN254) (num p.q1) step +
    conv (const pBN254) (const 8) step

def eq8 : ℤ :=
  num p.y1 step + num p.y2 step - num p.y3 step - conv (const pBN254) (num p.q2) step +
    conv (const pBN254) (const 8) step

def eq9 : ℤ :=
  num p.x1 step - num p.x2 step - num p.x3 step + conv (const pBN254) (num p.q1) step -
    conv (const pBN254) (const 8) step

def eq10 : ℤ :=
  num p.y1 step - num p.y2 step - num p.y3 step + conv (const pBN254) (num p.q2) step -
    conv (const pBN254) (const 8) step

end Equations

/-- `eq[eqIndex]` -/
def eq (eqIndex : Fin 11) (p : ArithRow) (step : ℕ) : ℤ :=
  match eqIndex with
  | 0 => eq0 p step
  | 1 => eq1 p step
  | 2 => eq2 p step
  | 3 => eq3 p step
  | 4 => eq4 p step
  | 5 => eq5 p step
  | 6 => eq6 p step
  | 7 => eq7 p step
  | 8 => eq8 p step
  | 9 => eq9 p step
  | 10 => eq10 p step

def eqIndexToCarryIndex : Fin 11 → Fin 3 := ![0, 0, 0, 1, 2, 1, 2, 1, 2, 1, 2]

def eqIndexes (p : ArithRow) : List (Fin 11) :=
  (if p.selEq 0 ≠ 0 then [0] else []) ++ (if p.selEq 1 ≠ 0 then [1] else []) ++
    (if p.selEq 2 ≠ 0 then [2] else []) ++ (if p.selEq 3 ≠ 0 then [3, 4] else []) ++
    (if p.selEq 4 ≠ 0 then [5, 6] else []) ++ (if p.selEq 5 ≠ 0 then [7, 8] else []) ++
    (if p.selEq 6 ≠ 0 then [9, 10] else [])

/-! ## The slope and the quotients -/

/-- `q = pq / p`, or its negation, with an offset; `none` when a residual is left or it is negative. -/
def quotient (negated : Bool) (pq : ℤ) (p : ℕ) (offset : ℤ) : Option ℤ :=
  let q := if negated then -(pq.tdiv p) else pq.tdiv p
  if (if negated then pq + p * q else pq - p * q) ≠ 0 then none
  else
    let q := q + offset
    if q < 0 then none else some q

section Quotients

variable (input : ArithAction)

/-- `s` and `q0` -/
def slope : Option (Fec × ℤ) :=
  let x1 := fromMpz input.x1
  let y1 := fromMpz input.y1
  let x2 := fromMpz input.x2
  let y2 := fromMpz input.y2
  if input.selEq1 = 1 then do
    let aux1 := y2 - y1
    let aux2 := x2 - x1
    if aux2 = 0 then none
    else
      let s := aux1 / aux2
      let sScalar : ℤ := toMpz s
      let pq0 := sScalar * input.x2 - sScalar * input.x1 - input.y2 + input.y1
      let q0 ← quotient false pq0 FPEC (2 * 2 ^ 256)
      return (s, q0)
  else if input.selEq2 = 1 then do
    let aux1 := x1 * x1
    let aux2 := (3 : Fec)
    let aux1 := aux1 * aux2
    let aux2 := y1 + y1
    let s := aux1 / aux2
    let sScalar : ℤ := toMpz s
    let pq0 := sScalar * 2 * input.y1 - 3 * input.x1 * input.x1
    let q0 ← quotient true pq0 FPEC (4 * 2 ^ 256)
    return (s, q0)
  else some (0, 0)

/-- `q1` and `q2` -/
def quotients (s : Fec) : Option (ℤ × ℤ) :=
  let x1 : ℤ := input.x1
  let y1 : ℤ := input.y1
  let x2 : ℤ := input.x2
  let y2 : ℤ := input.y2
  let x3 : ℤ := input.x3
  let y3 : ℤ := input.y3
  let sScalar : ℤ := toMpz s
  if input.selEq3 = 1 then do
    let q1 ← quotient false (sScalar * sScalar - x1 - x2 - x3) FPEC 4
    let q2 ← quotient true (sScalar * x1 - sScalar * x3 - y1 - y3) FPEC (2 * 2 ^ 256)
    return (q1, q2)
  else if input.selEq4 = 1 then do
    let q1 ← quotient true (x1 * x2 - y1 * y2 - x3) pBN254 (8 * 2 ^ 256)
    let q2 ← quotient false (y1 * x2 + x1 * y2 - y3) pBN254 8
    return (q1, q2)
  else if input.selEq5 = 1 then do
    let q1 ← quotient false (x1 + x2 - x3) pBN254 8
    let q2 ← quotient false (y1 + y2 - y3) pBN254 8
    return (q1, q2)
  else if input.selEq6 = 1 then do
    let q1 ← quotient true (x1 - x2 - x3) pBN254 8
    let q2 ← quotient true (y1 - y2 - y3) pBN254 8
    return (q1, q2)
  else some (0, 0)

/-- An action with its chunks. -/
def prepare : Option ArithActionBytes := do
  let _x1 ← scalar2ba16 input.x1
  let _y1 ← scalar2ba16 input.y1
  let _x2 ← scalar2ba16 input.x2
  let _y2 ← scalar2ba16 input.y2
  let _x3 ← scalar2ba16 input.x3
  let _y3 ← scalar2ba16 input.y3
  let (s, q0) ← slope input
  let (q1, q2) ← quotients input s
  let _s ← scalar2ba16 (toMpz s)
  let _q0 ← scalar2ba16 q0.toNat
  let _q1 ← scalar2ba16 q1.toNat
  let _q2 ← scalar2ba16 q2.toNat
  return { input with _x1, _y1, _x2, _y2, _x3, _y3, _s, _q0, _q1, _q2 }

end Quotients

/-! ## The flags -/

/-- `b ? fr.one() : fr.zero()` -/
def flag (b : Bool) : Fe := if b then 1 else 0

/-- The columns of all rows of an action. -/
def columns (input : ArithActionBytes) (row : ArithRow) : ArithRow :=
  { row with
    x1 := fun j => fromU64 (input._x1 j)
    y1 := fun j => fromU64 (input._y1 j)
    x2 := fun j => fromU64 (input._x2 j)
    y2 := fun j => fromU64 (input._y2 j)
    x3 := fun j => fromU64 (input._x3 j)
    y3 := fun j => fromU64 (input._y3 j)
    s := fun j => fromU64 (input._s j)
    q0 := fun j => fromU64 (input._q0 j)
    q1 := fun j => fromU64 (input._q1 j)
    q2 := fun j => fromU64 (input._q2 j)
    selEq := fun k => fromU64 (![input.selEq0, input.selEq1, input.selEq2, input.selEq3,
      input.selEq4, input.selEq5, input.selEq6] k) }

/-- The polynomials, and the variables of the loop over the rows. -/
structure RowState where
  pols : ArithCommitPols
  xAreDifferent : Bool := false
  valueLtPrime : Bool := false

section Flags

variable (inv : Fe → Fe) (input : ArithActionBytes) (offset step : ℕ)

/-- Whether `x1` and `x2` differ, when the points of an addition have to. -/
def execDifferent (S : RowState) : RowState :=
  let index := offset + step
  let nextIndex := (index + 1) % N
  let row := S.pols.row index
  if row.selEq 1 ≠ 0 ∧ step < 16 then
    let delta := row.x2 (Fin.ofNat 16 step) - row.x1 (Fin.ofNat 16 step)
    let xAreDifferent := S.xAreDifferent || decide (delta ≠ 0)
    { S with
      pols := { S.pols with
        row := if S.xAreDifferent then S.pols.row
          else Function.update S.pols.row index
            { row with xDeltaChunkInverse := if delta = 0 then 0 else inv delta }
        xAreDifferent := Function.update S.pols.xAreDifferent nextIndex (flag xAreDifferent) }
      xAreDifferent }
  else S

/-- Whether `x3`, and then `y3`, is less than the prime, when it has to be. -/
def execLtPrime (S : RowState) : RowState :=
  let index := offset + step
  let nextIndex := (index + 1) % N
  let row := S.pols.row index
  if row.selEq 3 ≠ 0 ∨ row.selEq 4 ≠ 0 ∨ row.selEq 5 ≠ 0 ∨ row.selEq 6 ≠ 0 then
    let step16 := Fin.ofNat 16 step
    let first := S.pols.row offset
    let chunkValue := if step < 16 then first.x3 (15 - step16) else first.y3 (15 - step16)
    let chunkPrime :=
      if row.selEq 3 ≠ 0 then chunksPrimeSecp256k1 step16 else chunksPrimeBN254 step16
    let chunkLtPrime := if S.valueLtPrime then false else decide (toU64 chunkValue < chunkPrime)
    let valueLtPrime := S.valueLtPrime || chunkLtPrime
    { S with
      pols := { S.pols with
        row := Function.update S.pols.row index { row with chunkLtPrime := flag chunkLtPrime }
        valueLtPrime := Function.update S.pols.valueLtPrime nextIndex (flag valueLtPrime) }
      valueLtPrime }
  else S

/-- A row, but for the carries. -/
def execRow (S : RowState) : RowState :=
  let index := offset + step
  let S := { S with
    valueLtPrime := if step % 16 = 0 then false else S.valueLtPrime
    pols := { S.pols with
      row := Function.update S.pols.row index (columns input (S.pols.row index)) } }
  execLtPrime offset step (execDifferent inv offset step S)

end Flags

/-! ## The carries, an action, and the whole list -/

section Carries

variable (fromScalar : ℤ → Fe)

/-- The carry through a digit of an equation; `none` when there is a residual. -/
def execCarry (first : ArithRow) (offset step : ℕ) (S : (ℕ → Fin 3 → Fe) × (Fin 3 → ℤ))
    (eqIndex : Fin 11) : Option ((ℕ → Fin 3 → Fe) × (Fin 3 → ℤ)) :=
  let carryIndex := eqIndexToCarryIndex eqIndex
  let sum := eq eqIndex first step + S.2 carryIndex
  let pol := Function.update S.1 (offset + step)
    (Function.update (S.1 (offset + step)) carryIndex (fromScalar (S.2 carryIndex)))
  if sum.tmod (2 ^ 16) ≠ 0 then none
  else some (pol, Function.update S.2 carryIndex (sum.tdiv (2 ^ 16)))

def execCarries (offset : ℕ) (pols : ArithCommitPols) : Option (ℕ → Fin 3 → Fe) := do
  let first := pols.row offset
  let S ← (List.range 32).foldlM
    (fun S step => (eqIndexes first).foldlM (execCarry fromScalar first offset step) S)
    (pols.carry, fun _ => 0)
  return S.1

/-- Which result the last row of an action gives to the main state machine. -/
def results (first : ArithRow) (result : Fin 3 → Fe) : Fin 3 → Fe :=
  let result := if first.selEq 0 ≠ 0 then Function.update result 0 1 else result
  let result :=
    if (first.selEq 1 ≠ 0 ∧ first.selEq 3 ≠ 0) ∨ first.selEq 4 ≠ 0 ∨ first.selEq 5 ≠ 0 ∨
        first.selEq 6 ≠ 0 then
      Function.update result 1 1
    else result
  if first.selEq 2 ≠ 0 ∧ first.selEq 3 ≠ 0 then Function.update result 2 1 else result

end Carries

section Execute

variable (fromScalar : ℤ → Fe) (inv : Fe → Fe)

/-- Action `i`. -/
def execAction (i : ℕ) (input : ArithActionBytes) (pols : ArithCommitPols) :
    Option ArithCommitPols := do
  let offset := i * 32
  let pols := (Loops.forUpTo 32 (execRow inv input offset) { pols }).pols
  let carry ← execCarries fromScalar offset pols
  return { pols with
    carry
    resultEq := Function.update pols.resultEq (offset + 31)
      (results (pols.row offset) (pols.resultEq (offset + 31))) }

/-- The actions from action `i` on. -/
def execActions (i : ℕ) : List ArithActionBytes → ArithCommitPols → Option ArithCommitPols
  | [], pols => some pols
  | input :: rest, pols => do
    let pols ← execAction fromScalar inv i input pols
    execActions (i + 1) rest pols

/-- `ArithExecutor::execute`; `none` when the process exits.  `fromScalar` and `inv` are those of the
field. -/
def execute (action : List ArithAction) : Option ArithCommitPols :=
  if action.length * 32 > N then none
  else do
    let input ← action.mapM prepare
    execActions fromScalar inv 0 input {}

end Execute

end ArithExecutor

end ZkevmProver
