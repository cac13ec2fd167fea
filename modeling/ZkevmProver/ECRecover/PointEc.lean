import ZkevmProver.ECRecover.Secp256k1
import ZkevmProver.Lib.Countdown

/-!
# Double scalar multiplication, as computed

The five versions of `k1 * p1 + k2 * p2`.  Where the source passes one variable as an input and as an
output, no input is read after the output that shares it is written, so the functions below take
their inputs by value.

1. Affine coordinates
2. Jacobian coordinates
3. `mulPointEcJacobian`
4. `mulPointEcJacobian1bit`
-/

namespace ZkevmProver

open Countdown

def fromMpz (n : ℕ) : Fec := n

def toMpz (a : Fec) : ℕ := a.val

/-- `mpz_tstbit` -/
def tstbit (n i : ℕ) : ℕ := n / 2 ^ i % 2

/-! ## Affine coordinates -/

/-- A point of two `mpz_class`. -/
@[ext] structure PointMpz where
  x : ℕ
  y : ℕ
  deriving DecidableEq

def dblPointEc (p1 : PointMpz) : PointMpz :=
  let x1 := fromMpz p1.x
  let y1 := fromMpz p1.y
  let x2 := x1
  let aux1 := x1 * x1
  let aux2 := (3 : Fec)
  let aux1 := aux1 * aux2
  let aux2 := y1 + y1
  let s := aux1 / aux2
  let aux1 := s * s
  let aux2 := x1 + x2
  let x3 := aux1 - aux2
  let aux1 := x1 - x3
  let aux1 := aux1 * s
  let y3 := aux1 - y1
  ⟨toMpz x3, toMpz y3⟩

def addPointEc (p1 p2 : PointMpz) : PointMpz :=
  let x1 := fromMpz p1.x
  let y1 := fromMpz p1.y
  let x2 := fromMpz p2.x
  let y2 := fromMpz p2.y
  let aux1 := y2 - y1
  let aux2 := x2 - x1
  let s := aux1 / aux2
  let aux1 := s * s
  let aux2 := x1 + x2
  let x3 := aux1 - aux2
  let aux1 := x1 - x3
  let aux1 := aux1 * s
  let y3 := aux1 - y1
  ⟨toMpz x3, toMpz y3⟩

/-- A point with its `empty` flag, which keeps the coordinates it had when it becomes empty. -/
structure SlotMpz where
  point : PointMpz
  empty : Bool

/-- The contribution of a point in `mulPointEc`. -/
def addContribution (p : PointMpz) (p3 : SlotMpz) : SlotMpz :=
  if p3.empty then ⟨p, false⟩
  else if p3.point.x ≠ p.x then { p3 with point := addPointEc p3.point p }
  else if p3.point.y ≠ p.y then { p3 with empty := true }
  else { p3 with point := dblPointEc p3.point }

/-- `p12`, which starts with some coordinates. -/
def mulPointEcTable (p1 p2 : PointMpz) : SlotMpz :=
  if p1.x ≠ p2.x then ⟨addPointEc p1 p2, false⟩
  else if p1.y = p2.y then ⟨dblPointEc p1, false⟩
  else ⟨⟨0, 0⟩, true⟩

/-- One pass of the loop of `mulPointEc`. -/
def mulPointEcStep (p1 : PointMpz) (k1 : ℕ) (p2 : PointMpz) (k2 : ℕ) (p12 : SlotMpz) (i : ℕ)
    (p3 : SlotMpz) : SlotMpz :=
  let bitk1 := tstbit k1 i
  let bitk2 := tstbit k2 i
  let p3 :=
    if bitk1 = 1 ∧ bitk2 = 0 then addContribution p1 p3
    else if bitk1 = 0 ∧ bitk2 = 1 then addContribution p2 p3
    else if bitk1 = 1 ∧ bitk2 = 1 ∧ !p12.empty then addContribution p12.point p3
    else p3
  if !p3.empty ∧ i ≠ 0 then { p3 with point := dblPointEc p3.point } else p3

def mulPointEc (p1 : PointMpz) (k1 : ℕ) (p2 : PointMpz) (k2 : ℕ) : PointMpz :=
  (countdown (mulPointEcStep p1 k1 p2 k2 (mulPointEcTable p1 p2)) 256 ⟨⟨0, 0⟩, true⟩).point

/-! ## Jacobian coordinates -/

structure PointJacobian where
  x : Fec
  y : Fec
  z : Fec
  deriving DecidableEq

def dblPointEcJacobian (p1 : PointJacobian) : PointJacobian :=
  let a := p1.x * p1.x
  let b := p1.y * p1.y
  let c := b * b
  let d := p1.x + b
  let d := d * d
  let d := d - a
  let d := d - c
  let d := d + d
  let e := a + a
  let e := e + a
  let f := e * e
  let aux1 := d + d
  let x3 := f - aux1
  let aux1 := d - x3
  let aux1 := aux1 * e
  let aux2 := c + c
  let aux2 := aux2 + aux2
  let aux2 := aux2 + aux2
  let y3 := aux1 - aux2
  let aux1 := p1.y * p1.z
  let z3 := aux1 + aux1
  ⟨x3, y3, z3⟩

/-- It does not read `z1`. -/
def dblPointEcJacobianZ2Is1 (p1 : PointJacobian) : PointJacobian :=
  let xx := p1.x * p1.x
  let yy := p1.y * p1.y
  let yyyy := yy * yy
  let s := p1.x + yy
  let s := s * s
  let s := s - xx
  let s := s - yyyy
  let s := s + s
  let m := xx + xx
  let m := m + xx
  let t := m * m
  let t := t - s
  let t := t - s
  let x3 := t
  let aux1 := yyyy + yyyy
  let aux1 := aux1 + aux1
  let aux1 := aux1 + aux1
  let aux2 := s - t
  let aux2 := aux2 * m
  let y3 := aux2 - aux1
  let z3 := p1.y + p1.y
  ⟨x3, y3, z3⟩

def addPointEcJacobian (p1 p2 : PointJacobian) : PointJacobian :=
  let z1z1 := p1.z * p1.z
  let z2z2 := p2.z * p2.z
  let u1 := p1.x * z2z2
  let u2 := p2.x * z1z1
  let s1 := p1.y * p2.z
  let s1 := s1 * z2z2
  let s2 := p2.y * p1.z
  let s2 := s2 * z1z1
  let h := u2 - u1
  let i := h + h
  let i := i * i
  let j := h * i
  let r := s2 - s1
  let r := r + r
  let v := u1 * i
  let rr := r * r
  let aux1 := v + v
  let x3 := rr - j
  let x3 := x3 - aux1
  let aux1 := v - x3
  let aux1 := aux1 * r
  let aux2 := s1 * j
  let aux2 := aux2 + aux2
  let y3 := aux1 - aux2
  let aux1 := p1.z + p2.z
  let aux1 := aux1 * aux1
  let aux1 := aux1 - z1z1
  let aux1 := aux1 - z2z2
  let z3 := aux1 * h
  ⟨x3, y3, z3⟩

/-- It does not read `z2`. -/
def addPointEcJacobianZ2Is1 (p1 p2 : PointJacobian) : PointJacobian :=
  let z1z1 := p1.z * p1.z
  let u2 := p2.x * z1z1
  let s2 := p2.y * p1.z
  let s2 := s2 * z1z1
  let h := u2 - p1.x
  let hh := h * h
  let i := hh + hh
  let i := i + i
  let j := h * i
  let r := s2 - p1.y
  let r := r + r
  let v := p1.x * i
  let rr := r * r
  let aux1 := v + v
  let x3 := rr - j
  let x3 := x3 - aux1
  let aux1 := v - x3
  let aux1 := aux1 * r
  let aux2 := p1.y * j
  let aux2 := aux2 + aux2
  let y3 := aux1 - aux2
  let aux1 := p1.z + h
  let aux1 := aux1 * aux1
  let aux1 := aux1 - z1z1
  let z3 := aux1 - hh
  ⟨x3, y3, z3⟩

/-- The version with `zz1` and `zzz1` at hand. -/
def addPointEcJacobianPrecomputed (p1 : PointJacobian) (zz1 zzz1 : Fec) (p2 : PointJacobian) :
    PointJacobian :=
  let z2z2 := p2.z * p2.z
  let u1 := p1.x * z2z2
  let u2 := p2.x * zz1
  let s1 := p1.y * p2.z
  let s1 := s1 * z2z2
  let s2 := p2.y * zzz1
  let h := u2 - u1
  let i := h + h
  let i := i * i
  let j := h * i
  let r := s2 - s1
  let r := r + r
  let v := u1 * i
  let rr := r * r
  let aux1 := v + v
  let x3 := rr - j
  let x3 := x3 - aux1
  let aux1 := v - x3
  let aux1 := aux1 * r
  let aux2 := s1 * j
  let aux2 := aux2 + aux2
  let y3 := aux1 - aux2
  let aux1 := p1.z + p2.z
  let aux1 := aux1 * aux1
  let aux1 := aux1 - zz1
  let aux1 := aux1 - z2z2
  let z3 := aux1 * h
  ⟨x3, y3, z3⟩

/-- A point with its `isz` or `empty` flag. -/
structure SlotJacobian where
  point : PointJacobian
  empty : Bool
  deriving DecidableEq

/-- The three versions of `generalAddPointEcJacobian`, by their addition and their doubling.  `p3` is
what the output holds before the call. -/
def generalAddPoint (add : PointJacobian → PointJacobian → PointJacobian)
    (dbl : PointJacobian → PointJacobian) (p1 p2 p3 : SlotJacobian) : SlotJacobian :=
  let z1_2 := p1.point.z * p1.point.z
  let z2_2 := p2.point.z * p2.point.z
  let z1_3 := z1_2 * p1.point.z
  let z2_3 := z2_2 * p2.point.z
  if p1.empty && p2.empty then { p3 with empty := true }
  else if p1.empty then p2
  else if p2.empty then p1
  else if p1.point.x * z2_2 ≠ p2.point.x * z1_2 then
    let sum := add p1.point p2.point
    ⟨sum, sum.z = 0⟩
  else if p1.point.y * z2_3 ≠ p2.point.y * z1_3 then { p3 with empty := true }
  else
    let double := dbl p1.point
    ⟨double, double.z = 0⟩

def generalAddPointEcJacobian : SlotJacobian → SlotJacobian → SlotJacobian → SlotJacobian :=
  generalAddPoint addPointEcJacobian dblPointEcJacobian

def generalAddPointEcJacobianZ2Is1 : SlotJacobian → SlotJacobian → SlotJacobian → SlotJacobian :=
  generalAddPoint addPointEcJacobianZ2Is1 dblPointEcJacobianZ2Is1

def generalAddPointEcJacobianPrecomputed (p1 : SlotJacobian) (zz1 zzz1 : Fec) :
    SlotJacobian → SlotJacobian → SlotJacobian :=
  generalAddPoint (fun p1 p2 => addPointEcJacobianPrecomputed p1 zz1 zzz1 p2) dblPointEcJacobian p1

def jacobian2Affine (p : PointJacobian) : Fec × Fec :=
  let z_inv := p.z⁻¹
  let z_inv_sq := z_inv * z_inv
  let z_inv_cube := z_inv_sq * z_inv
  (p.x * z_inv_sq, p.y * z_inv_cube)

/-- `dblPointEcJacobian(x3, y3, z3, x3, y3, z3)`, unless `p3` is empty. -/
def SlotJacobian.dbl (p3 : SlotJacobian) : SlotJacobian :=
  if !p3.empty then { p3 with point := dblPointEcJacobian p3.point } else p3

/-! ## `mulPointEcJacobian` -/

/-- `p[5 k .. 5 k + 4]` and `isz[k]`. -/
structure TableEntry extends SlotJacobian where
  zz : Fec
  zzz : Fec

def vina (k : ℕ) : ℕ := [0, 0, 1, 1, 0, 1, 2, 3, 4, 1, 2, 3, 4, 1, 2, 3].getD k 0

def vinb (k : ℕ) : ℕ := [0, 0, 1, 2, 0, 4, 4, 4, 4, 8, 8, 8, 8, 12, 12, 12].getD k 0

/-- `8 * bitk21 + 4 * bitk20 + 2 * bitk11 + bitk10` -/
def window2 (k1 k2 i : ℕ) : ℕ :=
  8 * tstbit k2 i + 4 * tstbit k2 (i - 1) + 2 * tstbit k1 i + tstbit k1 (i - 1)

namespace MulPointEcJacobian

/-- The table of the version with affine arguments, over what the array held before. -/
def table (p1 p2 : PointMpz) (p : ℕ → TableEntry) : ℕ → TableEntry :=
  let p := Function.update p 0 { p 0 with empty := true }
  let p := Function.update p 1 ⟨⟨⟨fromMpz p1.x, fromMpz p1.y, 1⟩, false⟩, 1, 1⟩
  let p := Function.update p 4 ⟨⟨⟨fromMpz p2.x, fromMpz p2.y, 1⟩, false⟩, 1, 1⟩
  (List.range' 2 14).foldl
    (fun p k =>
      if k = 4 then p
      else
        let sum := generalAddPointEcJacobian (p (vina k)).toSlotJacobian (p (vinb k)).toSlotJacobian
          (p k).toSlotJacobian
        let zz := sum.point.z * sum.point.z
        Function.update p k ⟨sum, zz, zz * sum.point.z⟩)
    p

def step (p : ℕ → TableEntry) (k1 k2 j : ℕ) (p3 : SlotJacobian) : SlotJacobian :=
  let p3 := p3.dbl.dbl
  let out0 := window2 k1 k2 (2 * j + 1)
  generalAddPointEcJacobianPrecomputed (p out0).toSlotJacobian (p out0).zz (p out0).zzz p3 p3

end MulPointEcJacobian

/-- The version with affine arguments.  `p` and `p3` are what its local variables hold before they are
written. -/
def mulPointEcJacobian (p1 : PointMpz) (k1 : ℕ) (p2 : PointMpz) (k2 : ℕ) (p : ℕ → TableEntry)
    (p3 : PointJacobian) : PointMpz :=
  let p := MulPointEcJacobian.table p1 p2 p
  let p3 := countdown (MulPointEcJacobian.step p k1 k2) 128 ⟨p3, true⟩
  let r := jacobian2Affine p3.point
  ⟨toMpz r.1, toMpz r.2⟩

/-- A point of three `mpz_class`. -/
structure PointMpzJacobian where
  x : ℕ
  y : ℕ
  z : ℕ

def PointMpzJacobian.toPoint (p : PointMpzJacobian) : PointJacobian :=
  ⟨fromMpz p.x, fromMpz p.y, fromMpz p.z⟩

def PointJacobian.toMpz (p : PointJacobian) : PointMpzJacobian :=
  ⟨ZkevmProver.toMpz p.x, ZkevmProver.toMpz p.y, ZkevmProver.toMpz p.z⟩

namespace MulPointEcJacobianZ

/-- The table of the version with Jacobian arguments. -/
def table (p1 p2 : PointMpzJacobian) (p : ℕ → SlotJacobian) : ℕ → SlotJacobian :=
  let add (a b k : ℕ) (p : ℕ → SlotJacobian) :=
    Function.update p k (generalAddPointEcJacobian (p a) (p b) (p k))
  let p := Function.update p 0 { p 0 with empty := true }
  let p := Function.update p 1 ⟨p1.toPoint, false⟩
  let p := Function.update p 2 ⟨dblPointEcJacobian (p 1).point, false⟩
  let p := add 1 2 3 p
  let p := Function.update p 4 ⟨p2.toPoint, false⟩
  let p := add 1 4 5 p
  let p := add 2 4 6 p
  let p := add 3 4 7 p
  let p := Function.update p 8 ⟨dblPointEcJacobian (p 4).point, false⟩
  let p := add 1 8 9 p
  let p := add 2 8 10 p
  let p := add 3 8 11 p
  let p := add 4 8 12 p
  let p := add 1 12 13 p
  let p := add 2 12 14 p
  add 3 12 15 p

def step (p : ℕ → SlotJacobian) (k1 k2 j : ℕ) (p3 : SlotJacobian) : SlotJacobian :=
  let p3 := p3.dbl.dbl
  generalAddPointEcJacobian (p (window2 k1 k2 (2 * j + 1))) p3 p3

end MulPointEcJacobianZ

/-- The version with Jacobian arguments. -/
def mulPointEcJacobianZ (p1 : PointMpzJacobian) (k1 : ℕ) (p2 : PointMpzJacobian) (k2 : ℕ)
    (p : ℕ → SlotJacobian) (p3 : PointJacobian) : PointMpzJacobian :=
  let p := MulPointEcJacobianZ.table p1 p2 p
  (countdown (MulPointEcJacobianZ.step p k1 k2) 128 ⟨p3, true⟩).point.toMpz

/-! ## `mulPointEcJacobian1bit` -/

/-- `2 * bitk2 + bitk1` -/
def window1 (k1 k2 i : ℕ) : ℕ := 2 * tstbit k2 i + tstbit k1 i

namespace MulPointEcJacobian1bitZ

/-- The table of the version with Jacobian arguments. -/
def table (p1 p2 : PointMpzJacobian) (p : ℕ → SlotJacobian) : ℕ → SlotJacobian :=
  let p := Function.update p 0 { p 0 with empty := true }
  let p := Function.update p 1 ⟨p1.toPoint, false⟩
  let p := Function.update p 2 ⟨p2.toPoint, false⟩
  Function.update p 3 (generalAddPointEcJacobian (p 1) (p 2) (p 3))

def step (p : ℕ → SlotJacobian) (k1 k2 i : ℕ) (p3 : SlotJacobian) : SlotJacobian :=
  let p3 := p3.dbl
  generalAddPointEcJacobian (p (window1 k1 k2 i)) p3 p3

end MulPointEcJacobian1bitZ

/-- The version with Jacobian arguments. -/
def mulPointEcJacobian1bitZ (p1 : PointMpzJacobian) (k1 : ℕ) (p2 : PointMpzJacobian) (k2 : ℕ)
    (p : ℕ → SlotJacobian) (p3 : PointJacobian) : PointMpzJacobian :=
  let p := MulPointEcJacobian1bitZ.table p1 p2 p
  (countdown (MulPointEcJacobian1bitZ.step p k1 k2) 256 ⟨p3, true⟩).point.toMpz

namespace MulPointEcJacobian1bit

/-- The table of the version with affine arguments, whose last point is made affine. -/
def table (p1 p2 : PointMpz) (p : ℕ → SlotJacobian) : ℕ → SlotJacobian :=
  let p := Function.update p 0 { p 0 with empty := true }
  let p := Function.update p 1 ⟨⟨fromMpz p1.x, fromMpz p1.y, 1⟩, false⟩
  let p := Function.update p 2 ⟨⟨fromMpz p2.x, fromMpz p2.y, 1⟩, false⟩
  let sum := generalAddPointEcJacobianZ2Is1 (p 1) (p 2) (p 3)
  let r := jacobian2Affine sum.point
  Function.update p 3 (if !sum.empty then ⟨⟨r.1, r.2, 1⟩, sum.empty⟩ else sum)

/-- The point of the table comes second. -/
def step (p : ℕ → SlotJacobian) (k1 k2 i : ℕ) (p3 : SlotJacobian) : SlotJacobian :=
  let p3 := p3.dbl
  generalAddPointEcJacobianZ2Is1 p3 (p (window1 k1 k2 i)) p3

end MulPointEcJacobian1bit

/-- The version with affine arguments. -/
def mulPointEcJacobian1bit (p1 : PointMpz) (k1 : ℕ) (p2 : PointMpz) (k2 : ℕ)
    (p : ℕ → SlotJacobian) (p3 : PointJacobian) : PointMpz :=
  let p := MulPointEcJacobian1bit.table p1 p2 p
  let p3 := countdown (MulPointEcJacobian1bit.step p k1 k2) 256 ⟨p3, true⟩
  let r := jacobian2Affine p3.point
  ⟨toMpz r.1, toMpz r.2⟩

end ZkevmProver
