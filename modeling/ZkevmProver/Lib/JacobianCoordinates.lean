import Mathlib.AlgebraicGeometry.EllipticCurve.Affine.Point
import Mathlib.Tactic.FieldSimp
import Mathlib.Tactic.LinearCombination

/-!
# Jacobian coordinates on `y² = x³ + b`

A triple `(x, y, z)` with `z ≠ 0` stands for the affine point `(x / z², y / z³)`.  The chord and the
tangent of two triples are polynomials in their coordinates, which need no division.

1. The curve
2. Jacobian coordinates
3. The chord and the tangent
-/

namespace ShortWeierstrass

open WeierstrassCurve

variable {F : Type*} [Field F]

/-! ## The curve -/

/-- The curve `y² = x³ + b`. -/
def curve (b : F) : Affine F where
  a₁ := 0
  a₂ := 0
  a₃ := 0
  a₄ := 0
  a₆ := b

variable {b x y z x' y' x₁ y₁ z₁ x₂ y₂ z₂ x₃ y₃ z₃ : F}

theorem equation_iff : (curve b).Equation x y ↔ y ^ 2 = x ^ 3 + b := by
  rw [Affine.equation_iff]
  simp [curve]

@[simp] theorem negY_curve : (curve b).negY x y = -y := by simp [Affine.negY, curve]

/-- Where two is not zero, no point but the own negatives is singular. -/
theorem nonsingular_of_ne (two_ne : (2 : F) ≠ 0) (hy : y ≠ 0) (h : y ^ 2 = x ^ 3 + b) :
    (curve b).Nonsingular x y := by
  rw [Affine.nonsingular_iff']
  refine ⟨equation_iff.mpr h, Or.inr ?_⟩
  simpa [curve] using ⟨two_ne, hy⟩

theorem some_eq (h : (curve b).Nonsingular x y) (hx : x = x') (hy : y = y') :
    ∃ h', (Affine.Point.some x y h : (curve b).Point) = .some x' y' h' := by
  subst hx hy
  exact ⟨h, rfl⟩

section

variable [DecidableEq F] {s : F}

/-- The chord through two points. -/
theorem add_of_ne (h₁ : (curve b).Nonsingular x₁ y₁) (h₂ : (curve b).Nonsingular x₂ y₂)
    (hx : x₁ ≠ x₂) (hs : s * (x₂ - x₁) = y₂ - y₁) :
    ∃ h, (Affine.Point.some x₁ y₁ h₁ + .some x₂ y₂ h₂ : (curve b).Point) =
      .some (s * s - (x₁ + x₂)) ((x₁ - (s * s - (x₁ + x₂))) * s - y₁) h := by
  have hslope : (curve b).slope x₁ x₂ y₁ y₂ = s := by
    rw [Affine.slope_of_X_ne hx, div_eq_iff (sub_ne_zero.mpr hx)]
    linear_combination hs
  rw [Affine.Point.add_of_X_ne hx]
  refine some_eq _ ?_ ?_
  · rw [hslope]
    simp only [Affine.addX, curve]
    ring
  · rw [hslope]
    simp only [Affine.addY, Affine.negAddY, Affine.addX, negY_curve]
    simp only [curve]
    ring

/-- The tangent at a point. -/
theorem add_self_of_ne (h₁ : (curve b).Nonsingular x₁ y₁) (two_ne : (2 : F) ≠ 0) (hy : y₁ ≠ 0)
    (hs : s * (y₁ + y₁) = x₁ * x₁ * 3) :
    ∃ h, (Affine.Point.some x₁ y₁ h₁ + .some x₁ y₁ h₁ : (curve b).Point) =
      .some (s * s - (x₁ + x₁)) ((x₁ - (s * s - (x₁ + x₁))) * s - y₁) h := by
  have hsum : y₁ - -y₁ ≠ 0 := by
    rw [sub_neg_eq_add, ← two_mul]
    exact mul_ne_zero two_ne hy
  have hneg : y₁ ≠ (curve b).negY x₁ y₁ := by
    rw [negY_curve]
    exact sub_ne_zero.mp hsum
  have hslope : (curve b).slope x₁ x₁ y₁ y₁ = s := by
    rw [Affine.slope_of_Y_ne rfl hneg, negY_curve, div_eq_iff hsum]
    simp only [curve]
    linear_combination -hs
  rw [Affine.Point.add_self_of_Y_ne hneg]
  refine some_eq _ ?_ ?_
  · rw [hslope]
    simp only [Affine.addX, curve]
    ring
  · rw [hslope]
    simp only [Affine.addY, Affine.negAddY, Affine.addX, negY_curve]
    simp only [curve]
    ring

end

/-! ## Jacobian coordinates -/

/-- A triple stands for a point. -/
def IsJacobian (x y z : F) (P : (curve b).Point) : Prop :=
  z ≠ 0 ∧ ∃ px py h, P = .some px py h ∧ x = px * z ^ 2 ∧ y = py * z ^ 3

theorem IsJacobian.of_affine (h : (curve b).Nonsingular x y) :
    IsJacobian x y 1 (.some x y h : (curve b).Point) :=
  ⟨one_ne_zero, x, y, h, rfl, by ring, by ring⟩

variable {P Q : (curve b).Point}

/-- The affine coordinates of the point. -/
theorem IsJacobian.affine (h : IsJacobian x y z P) :
    ∃ h', P = .some (x * (z⁻¹ * z⁻¹)) (y * (z⁻¹ * z⁻¹ * z⁻¹)) h' := by
  obtain ⟨hz, px, py, hp, rfl, rfl, rfl⟩ := h
  refine some_eq hp ?_ ?_
  · field_simp
  · field_simp

theorem IsJacobian.ne_zero (h : IsJacobian x y z P) : P ≠ 0 := by
  obtain ⟨_, px, py, hp, rfl, _, _⟩ := h
  exact Affine.Point.some_ne_zero hp

/-- Two triples with the same `x / z²` and the same `y / z³` stand for one point. -/
theorem IsJacobian.eq (hP : IsJacobian x₁ y₁ z₁ P) (hQ : IsJacobian x₂ y₂ z₂ Q)
    (hx : x₁ * z₂ ^ 2 = x₂ * z₁ ^ 2) (hy : y₁ * z₂ ^ 3 = y₂ * z₁ ^ 3) : P = Q := by
  obtain ⟨hz₁, px, py, hp, rfl, rfl, rfl⟩ := hP
  obtain ⟨hz₂, qx, qy, hq, rfl, rfl, rfl⟩ := hQ
  obtain rfl : px = qx := by
    refine mul_right_cancel₀ (pow_ne_zero 2 (mul_ne_zero hz₁ hz₂)) ?_
    linear_combination hx
  obtain rfl : py = qy := by
    refine mul_right_cancel₀ (pow_ne_zero 3 (mul_ne_zero hz₁ hz₂)) ?_
    linear_combination hy
  rfl

theorem IsJacobian.cross (h₁ : IsJacobian x₁ y₁ z₁ P) (h₂ : IsJacobian x₂ y₂ z₂ P) :
    x₁ * z₂ ^ 2 = x₂ * z₁ ^ 2 ∧ y₁ * z₂ ^ 3 = y₂ * z₁ ^ 3 := by
  obtain ⟨-, px, py, hp, rfl, rfl, rfl⟩ := h₁
  obtain ⟨-, qx, qy, hq, heq, rfl, rfl⟩ := h₂
  obtain ⟨rfl, rfl⟩ := Affine.Point.some.inj heq
  exact ⟨by ring, by ring⟩

section

variable [DecidableEq F]

/-- Two triples with the same `x / z²` and another `y / z³` stand for opposite points. -/
theorem IsJacobian.add_eq_zero (hP : IsJacobian x₁ y₁ z₁ P) (hQ : IsJacobian x₂ y₂ z₂ Q)
    (hx : x₁ * z₂ ^ 2 = x₂ * z₁ ^ 2) (hy : y₁ * z₂ ^ 3 ≠ y₂ * z₁ ^ 3) : P + Q = 0 := by
  obtain ⟨hz₁, px, py, hp, rfl, rfl, rfl⟩ := hP
  obtain ⟨hz₂, qx, qy, hq, rfl, rfl, rfl⟩ := hQ
  obtain rfl : px = qx := by
    refine mul_right_cancel₀ (pow_ne_zero 2 (mul_ne_zero hz₁ hz₂)) ?_
    linear_combination hx
  have hne : py ≠ qy := by
    rintro rfl
    exact hy (by ring)
  refine Affine.Point.add_of_Y_eq rfl ?_
  have hsq : (py - qy) * (py + qy) = 0 := by
    linear_combination equation_iff.mp hp.1 - equation_iff.mp hq.1
  rw [negY_curve, eq_neg_iff_add_eq_zero]
  exact (mul_eq_zero.mp hsq).resolve_left (sub_ne_zero.mpr hne)

/-! ## The chord and the tangent -/

variable {u r : F}

/-- The chord of two triples. -/
theorem IsJacobian.add (two_ne : (2 : F) ≠ 0) (hP : IsJacobian x₁ y₁ z₁ P)
    (hQ : IsJacobian x₂ y₂ z₂ Q) (hx : x₁ * z₂ ^ 2 ≠ x₂ * z₁ ^ 2)
    (hu : u = x₂ * z₁ ^ 2 - x₁ * z₂ ^ 2) (hr : r = 2 * (y₂ * z₁ ^ 3 - y₁ * z₂ ^ 3))
    (hx₃ : x₃ = r ^ 2 - 4 * u ^ 3 - 8 * x₁ * z₂ ^ 2 * u ^ 2)
    (hy₃ : y₃ = r * (4 * x₁ * z₂ ^ 2 * u ^ 2 - x₃) - 8 * y₁ * z₂ ^ 3 * u ^ 3)
    (hz₃ : z₃ = 2 * z₁ * z₂ * u) : IsJacobian x₃ y₃ z₃ (P + Q) := by
  obtain ⟨hz₁, px, py, hp, rfl, rfl, rfl⟩ := hP
  obtain ⟨hz₂, qx, qy, hq, rfl, rfl, rfl⟩ := hQ
  have hne : px ≠ qx := by
    rintro rfl
    exact hx (by ring)
  have hsub : qx - px ≠ 0 := sub_ne_zero.mpr hne.symm
  have hu' : u = z₁ ^ 2 * z₂ ^ 2 * (qx - px) := by linear_combination hu
  obtain ⟨h, hsum⟩ := add_of_ne hp hq hne (div_mul_cancel₀ (qy - py) hsub)
  have hz₃' : z₃ ≠ 0 := by
    rw [hz₃, hu']
    positivity
  refine ⟨hz₃', _, _, h, hsum, ?_, ?_⟩
  · rw [hx₃, hz₃, hr, hu']
    field_simp
    ring
  · rw [hy₃, hx₃, hz₃, hr, hu']
    field_simp
    ring

/-- The tangent of a triple. -/
theorem IsJacobian.dbl (two_ne : (2 : F) ≠ 0) (hP : IsJacobian x₁ y₁ z₁ P) (hy : y₁ ≠ 0)
    (hx₃ : x₃ = 9 * x₁ ^ 4 - 8 * x₁ * y₁ ^ 2)
    (hy₃ : y₃ = 3 * x₁ ^ 2 * (4 * x₁ * y₁ ^ 2 - x₃) - 8 * y₁ ^ 4) (hz₃ : z₃ = 2 * y₁ * z₁) :
    IsJacobian x₃ y₃ z₃ (P + P) := by
  obtain ⟨hz₁, px, py, hp, rfl, rfl, rfl⟩ := hP
  have hpy : py ≠ 0 := left_ne_zero_of_mul hy
  have htwo : py + py ≠ 0 := by
    rw [← two_mul]
    exact mul_ne_zero two_ne hpy
  obtain ⟨s, hs⟩ : ∃ s, s * (py + py) = px * px * 3 := ⟨_, div_mul_cancel₀ (px * px * 3) htwo⟩
  obtain ⟨h, hsum⟩ := add_self_of_ne hp two_ne hpy hs
  have hz₃' : z₃ ≠ 0 := hz₃ ▸ mul_ne_zero (mul_ne_zero two_ne hy) hz₁
  refine ⟨hz₃', _, _, h, hsum, ?_, ?_⟩
  · rw [hx₃, hz₃]
    linear_combination (-z₁ ^ 8 * (3 * px ^ 2 + 2 * s * py)) * hs
  · rw [hy₃, hx₃, hz₃]
    linear_combination (-z₁ ^ 12 *
      (12 * px * py ^ 2 - (9 * px ^ 4 + 3 * px ^ 2 * (2 * s * py) + (2 * s * py) ^ 2))) * hs

end

end ShortWeierstrass
