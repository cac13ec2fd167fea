import ZkevmProver.Lib.Transitions
import ZkevmProver.SM.ArithExecutor

/-!
# The arithmetic instructions of the main executor

Each instruction is checked, and then handed over to `ArithExecutor` as an action.  The sums of points
are taken from a cache of one sum where that was computed last.

  1. The sum of two points.
  2. The instructions.
-/

namespace ZkevmProver

open ArithExecutor

/-! ## The sum of two points -/

/-- The last sum of points that was computed. -/
structure EllipticCurveAddition where
  bDouble : Bool := false
  x1 : Fec := 0
  y1 : Fec := 0
  x2 : Fec := 0
  y2 : Fec := 0
  x3 : Fec := 0
  y3 : Fec := 0

namespace MainExecutor

/-- `AddPointEc`; `none` when a denominator is zero. -/
def AddPointEc (lastECAdd : EllipticCurveAddition) (dbl : Bool) (x1 y1 x2 y2 : Fec) :
    Option ((Fec × Fec) × EllipticCurveAddition) :=
  if lastECAdd.bDouble = dbl ∧ lastECAdd.x1 = x1 ∧ lastECAdd.y1 = y1 ∧
      (dbl = true ∨ (lastECAdd.x2 = x2 ∧ lastECAdd.y2 = y2)) then
    some ((lastECAdd.x3, lastECAdd.y3), lastECAdd)
  else
    let s : Option Fec :=
      if dbl then
        let aux1 := x1 * x1
        let aux2 := (3 : Fec)
        let aux1 := aux1 * aux2
        let aux2 := y1 + y1
        if aux2 = 0 then none else some (aux1 / aux2)
      else
        let aux1 := y2 - y1
        let aux2 := x2 - x1
        if aux2 = 0 then none else some (aux1 / aux2)
    s.map fun s =>
      let aux1 := s * s
      let aux2 := x1 + x2
      let x3 := aux1 - aux2
      let aux1 := x1 - x3
      let aux1 := aux1 * s
      let y3 := aux1 - y1
      ((x3, y3), { bDouble := dbl, x1, y1, x2, y2, x3, y3 })

/-! ## The instructions -/

/-- An element of the field of BN254. -/
abbrev Fq := ZMod pBN254

/-- The registers that an instruction reads, and its operand. -/
structure ArithRegisters where
  A : Fea × Fea
  B : Fea × Fea
  C : Fea × Fea
  D : Fea × Fea
  E : Fea × Fea
  op : Fea × Fea

/-- The instructions by the flag of the ROM that they set, and the command for a sum of points. -/
inductive ArithOp where
  | arithEq0 (r : ArithRegisters)
  | arithEq1 (r : ArithRegisters)
  | arithEq2 (r : ArithRegisters)
  | arithEq3 (r : ArithRegisters)
  | arithEq4 (r : ArithRegisters)
  | arithEq5 (r : ArithRegisters)
  | evalAddPointEc (dbl : Bool) (x1 y1 x2 y2 : ℕ)

/-- What the instructions change. -/
structure ArithContext where
  lastECAdd : EllipticCurveAddition := {}
  required : List ArithAction := []

/-- A register as a scalar. -/
def toScalar (fea : Fea × Fea) : Option ℕ :=
  let (ok, scalar) := fea2scalar 0 fea
  if ok then some scalar else none

def arithEq0 (r : ArithRegisters) : Option ArithAction := do
  let A ← toScalar r.A
  let B ← toScalar r.B
  let C ← toScalar r.C
  let D ← toScalar r.D
  let op ← toScalar r.op
  if A * B + C ≠ (D <<< 256) + op then none
  else return { x1 := A, y1 := B, x2 := C, y2 := D, x3 := 0, y3 := op, selEq0 := 1 }

/-- The six scalars of a point instruction. -/
def operands (r : ArithRegisters) : Option ArithAction := do
  let x1 ← toScalar r.A
  let y1 ← toScalar r.B
  let x2 ← toScalar r.C
  let y2 ← toScalar r.D
  let x3 ← toScalar r.E
  let y3 ← toScalar r.op
  return { x1, y1, x2, y2, x3, y3 }

/-- An operation on two complex numbers, compared in the field. -/
def arithFp2 (f : Fq → Fq → Fq → Fq → Fq × Fq) (r : ArithRegisters) : Option ArithAction := do
  let a ← operands r
  let (_x3fe, _y3fe) := f a.x1 a.y1 a.x2 a.y2
  if (a.x3 : Fq) ≠ _x3fe ∨ (a.y3 : Fq) ≠ _y3fe then none else some a

def arithEq3 (r : ArithRegisters) : Option ArithAction :=
  (arithFp2 (fun x1 y1 x2 y2 => (x1 * x2 - y1 * y2, y1 * x2 + x1 * y2)) r).map
    ({ · with selEq4 := 1 })

def arithEq4 (r : ArithRegisters) : Option ArithAction :=
  (arithFp2 (fun x1 y1 x2 y2 => (x1 + x2, y1 + y2)) r).map ({ · with selEq5 := 1 })

def arithEq5 (r : ArithRegisters) : Option ArithAction :=
  (arithFp2 (fun x1 y1 x2 y2 => (x1 - x2, y1 - y2)) r).map ({ · with selEq6 := 1 })

/-- A sum of points, compared as numbers. -/
def arithPoints (dbl : Bool) (r : ArithRegisters) (lastECAdd : EllipticCurveAddition) :
    Option (ArithAction × EllipticCurveAddition) := do
  let a ← operands r
  let fecX1 := fromMpz a.x1
  let fecY1 := fromMpz a.y1
  let fecX2 := fromMpz a.x2
  let fecY2 := fromMpz a.y2
  let ((fecX3, fecY3), lastECAdd) ←
    AddPointEc lastECAdd dbl fecX1 fecY1 (if dbl then fecX1 else fecX2) (if dbl then fecY1 else fecY2)
  if a.x3 ≠ toMpz fecX3 ∨ a.y3 ≠ toMpz fecY3 then none
  else return ({ a with
    x2 := if dbl then a.x1 else a.x2
    y2 := if dbl then a.y1 else a.y2
    selEq1 := if dbl then 0 else 1
    selEq2 := if dbl then 1 else 0
    selEq3 := 1 }, lastECAdd)

namespace ArithContext

def push (S : ArithContext) (action : ArithAction) : ArithContext :=
  { S with required := S.required ++ [action] }

/-- An instruction; `none` when the executor returns with an error. -/
def exec (S : ArithContext) : ArithOp → Option ArithContext
  | .arithEq0 r => (arithEq0 r).map S.push
  | .arithEq1 r => do
    let (action, lastECAdd) ← arithPoints false r S.lastECAdd
    return { S with lastECAdd }.push action
  | .arithEq2 r => do
    let (action, lastECAdd) ← arithPoints true r S.lastECAdd
    return { S with lastECAdd }.push action
  | .arithEq3 r => (arithEq3 r).map S.push
  | .arithEq4 r => (arithEq4 r).map S.push
  | .arithEq5 r => (arithEq5 r).map S.push
  | .evalAddPointEc dbl x1 y1 x2 y2 => do
    let x1 := fromMpz x1
    let y1 := fromMpz y1
    let (_, lastECAdd) ← AddPointEc S.lastECAdd dbl x1 y1 (if dbl then x1 else fromMpz x2)
      (if dbl then y1 else fromMpz y2)
    return { S with lastECAdd }

/-- The instructions of a run, one after the other. -/
abbrev execAll (ops : List ArithOp) : Option ArithContext := Transitions.follow exec {} ops

end ArithContext

end MainExecutor

end ZkevmProver
