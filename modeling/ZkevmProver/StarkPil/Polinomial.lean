import ZkevmProver.Lib.Loops
import ZkevmProver.StarkPil.NTTGoldilocks

/-!
# Polynomials in memory

A memory maps addresses to field elements, and an element of the cubic extension takes three places.  The
operations of `Polinomial` on elements of dimension three compute a product with six multiplications of
the field; they are those of the cubic extension.
-/

namespace ZkevmProver

open Loops

variable {F : Type*}

/-! ## Writing an element -/

/-- Writes the three coordinates of an element at offset `o`. -/
def write3 (m : ℕ → F) (o : ℕ) (a0 a1 a2 : F) : ℕ → F :=
  Function.update (Function.update (Function.update m o a0) (o + 1) a1) (o + 2) a2

theorem write3_zero (m : ℕ → F) (o : ℕ) (a0 a1 a2 : F) : write3 m o a0 a1 a2 o = a0 := by
  rw [write3, Function.update_of_ne (by omega), Function.update_of_ne (by omega), Function.update_self]

theorem write3_one (m : ℕ → F) (o : ℕ) (a0 a1 a2 : F) : write3 m o a0 a1 a2 (o + 1) = a1 := by
  rw [write3, Function.update_of_ne (by omega), Function.update_self]

theorem write3_two (m : ℕ → F) (o : ℕ) (a0 a1 a2 : F) : write3 m o a0 a1 a2 (o + 2) = a2 := by
  rw [write3, Function.update_self]

theorem write3_of_ne {m : ℕ → F} {o j : ℕ} {a0 a1 a2 : F} (h : j < o ∨ o + 3 ≤ j) :
    write3 m o a0 a1 a2 j = m j := by
  rw [write3, Function.update_of_ne (by omega), Function.update_of_ne (by omega),
    Function.update_of_ne (by omega)]

theorem write3_written {g m : ℕ → F} {e : ℕ} {a0 a1 a2 : F} (h0 : g (e * 3) = a0)
    (h1 : g (e * 3 + 1) = a1) (h2 : g (e * 3 + 2) = a2) :
    Written {j | j / 3 = e} g m (write3 m (e * 3) a0 a1 a2) where
  inside j hj := by
    have hj : j / 3 = e := hj
    obtain rfl | rfl | rfl : j = e * 3 ∨ j = e * 3 + 1 ∨ j = e * 3 + 2 := by omega
    · rw [write3_zero, h0]
    · rw [write3_one, h1]
    · rw [write3_two, h2]
  outside j hj := by
    have hj : j / 3 ≠ e := hj
    exact write3_of_ne (by omega)

variable [Field F]

@[simp] theorem get_write3_self (m : ℕ → F) (o : ℕ) (a0 a1 a2 : F) :
    Goldilocks3.get (write3 m o a0 a1 a2) o = Goldilocks3.of a0 a1 a2 := by
  rw [Goldilocks3.get, write3_zero, write3_one, write3_two]

theorem get_write3_of_ne {m : ℕ → F} {o o' : ℕ} {a0 a1 a2 : F} (h : o' + 3 ≤ o ∨ o + 3 ≤ o') :
    Goldilocks3.get (write3 m o a0 a1 a2) o' = Goldilocks3.get m o' := by
  rw [Goldilocks3.get, write3_of_ne (by omega), write3_of_ne (by omega), write3_of_ne (by omega)]
  rfl

/-- Elements in a row do not overlap. -/
theorem get_write3_mul {m : ℕ → F} {i j : ℕ} {a0 a1 a2 : F} :
    Goldilocks3.get (write3 m (i * 3) a0 a1 a2) (j * 3) =
      if j = i then Goldilocks3.of a0 a1 a2 else Goldilocks3.get m (j * 3) := by
  split
  · next h => rw [h, get_write3_self]
  · next h => exact get_write3_of_ne (by omega)

/-! ## Products -/

/-- `Goldilocks3::mul` with an element of the field -/
def mulBase (result : ℕ → F) (o : ℕ) (a : ℕ → F) (oa : ℕ) (b : F) : ℕ → F :=
  write3 result o (a oa * b) (a (oa + 1) * b) (a (oa + 2) * b)

/-- The coordinates of a product, as `mulElement` and `mulAddElement_adim3` compute them. -/
def product3 (a0 a1 a2 b0 b1 b2 : F) : F × F × F :=
  let A := (a0 + a1) * (b0 + b1)
  let B := (a0 + a2) * (b0 + b2)
  let C := (a1 + a2) * (b1 + b2)
  let D := a0 * b0
  let E := a1 * b1
  let F := a2 * b2
  let G := D - E
  ((C + G) - F, ((((A + C) - E) - E) - D), B - G)

theorem of_product3 (a0 a1 a2 b0 b1 b2 : F) :
    Goldilocks3.of (product3 a0 a1 a2 b0 b1 b2).1 (product3 a0 a1 a2 b0 b1 b2).2.1
        (product3 a0 a1 a2 b0 b1 b2).2.2 =
      Goldilocks3.of a0 a1 a2 * Goldilocks3.of b0 b1 b2 := by
  rw [Goldilocks3.of_mul]
  simp only [product3]
  congr 1 <;> ring

/-- `Polinomial::mulElement` where the first factor has dimension three -/
def mulElement (out : ℕ → F) (o : ℕ) (a : ℕ → F) (oa : ℕ) (b : ℕ → F) (ob dim : ℕ) : ℕ → F :=
  if dim = 1 then mulBase out o a oa (b ob)
  else
    let c := product3 (a oa) (a (oa + 1)) (a (oa + 2)) (b ob) (b (ob + 1)) (b (ob + 2))
    write3 out o c.1 c.2.1 c.2.2

/-- `Polinomial::divElement` where the dividend has dimension three -/
def divElement (out : ℕ → F) (o : ℕ) (a : ℕ → F) (oa : ℕ) (b : F) : ℕ → F :=
  mulElement out o a oa (fun _ => b⁻¹) 0 1

/-- What `b` has at `ob`, for an element of dimension one or three. -/
noncomputable def Goldilocks3.element (b : ℕ → F) (ob dim : ℕ) : Goldilocks3 F :=
  if dim = 1 then algebraMap F _ (b ob) else Goldilocks3.get b ob

theorem get_mulBase (out : ℕ → F) (o : ℕ) (a : ℕ → F) (oa : ℕ) (b : F) :
    Goldilocks3.get (mulBase out o a oa b) o = b • Goldilocks3.get a oa := by
  rw [mulBase, get_write3_self, Goldilocks3.get, Goldilocks3.smul_of, mul_comm b, mul_comm b, mul_comm b]

theorem get_mulElement (out : ℕ → F) (o : ℕ) (a : ℕ → F) (oa : ℕ) (b : ℕ → F) (ob dim : ℕ) :
    Goldilocks3.get (mulElement out o a oa b ob dim) o = Goldilocks3.get a oa * Goldilocks3.element b ob dim := by
  unfold mulElement Goldilocks3.element
  split
  · rw [get_mulBase, Algebra.smul_def, mul_comm]
  · rw [get_write3_self, of_product3]
    rfl

theorem get_mulElement_of_ne {out a b : ℕ → F} {o oa ob dim o' : ℕ} (h : o' + 3 ≤ o ∨ o + 3 ≤ o') :
    Goldilocks3.get (mulElement out o a oa b ob dim) o' = Goldilocks3.get out o' := by
  unfold mulElement
  split
  · exact get_write3_of_ne h
  · exact get_write3_of_ne h

theorem get_divElement (out : ℕ → F) (o : ℕ) (a : ℕ → F) (oa : ℕ) (b : F) :
    Goldilocks3.get (divElement out o a oa b) o = b⁻¹ • Goldilocks3.get a oa := by
  rw [divElement, get_mulElement, Goldilocks3.element, if_pos rfl, mul_comm, Algebra.smul_def]

/-- `Polinomial::mulAddElement_adim3` -/
def mulAddElement_adim3 (out : ℕ → F) (o : ℕ) (a : ℕ → F) (oa : ℕ) (b : ℕ → F) (ob dim : ℕ) : ℕ → F :=
  if dim = 1 then
    write3 out o (out o + a oa * b ob) (out (o + 1) + a (oa + 1) * b ob) (out (o + 2) + a (oa + 2) * b ob)
  else
    let A := (a oa + a (oa + 1)) * (b ob + b (ob + 1))
    let B := (a oa + a (oa + 2)) * (b ob + b (ob + 2))
    let C := (a (oa + 1) + a (oa + 2)) * (b (ob + 1) + b (ob + 2))
    let D := a oa * b ob
    let E := a (oa + 1) * b (ob + 1)
    let F := a (oa + 2) * b (ob + 2)
    let G := D - E
    write3 out o (out o + (C + G) - F) (out (o + 1) + ((((A + C) - E) - E) - D)) (out (o + 2) + B - G)

/-- A product is added to the element at `i`, and no other element changes. -/
theorem get_mulAddElement_adim3 (out a b : ℕ → F) (i j oa ob dim : ℕ) :
    Goldilocks3.get (mulAddElement_adim3 out (i * 3) a oa b ob dim) (j * 3) =
      if j = i then Goldilocks3.get out (i * 3) + Goldilocks3.get a oa * Goldilocks3.element b ob dim
      else Goldilocks3.get out (j * 3) := by
  unfold mulAddElement_adim3 Goldilocks3.element
  split
  · rw [get_write3_mul, mul_comm (Goldilocks3.get a oa), ← Algebra.smul_def]
    simp only [Goldilocks3.get, Goldilocks3.smul_of, Goldilocks3.of_add, mul_comm (b ob)]
  · rw [get_write3_mul]
    simp only [Goldilocks3.get, Goldilocks3.of_mul, Goldilocks3.of_add]
    congr 2 <;> ring

end ZkevmProver
