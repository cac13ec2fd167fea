import Mathlib.GroupTheory.Perm.Cycle.Type
import ZkevmProver.ECRecover.MulPointEc

/-!
# The number of points

The base point has order `FNEC`, as the multiplication by `FNEC` shows, and there are too few points for
another multiple of `FNEC` but its double, which would take a point that is its own negative.
-/

namespace ZkevmProver

open ShortWeierstrass WeierstrassCurve

/-- The end of `mulPointEcJacobian1bit` for `FNEC` times the base point. -/
def baseMultiple : SlotJacobian :=
  Countdown.countdown (MulPointEcJacobian1bitZ.step (MulPointEcJacobian1bitZ.table baseMpz.withOne
    baseMpz.withOne fun _ => ⟨⟨0, 0, 0⟩, true⟩) FNEC 0) 256 ⟨⟨0, 0, 0⟩, true⟩

theorem fnec_nsmul_basePoint : FNEC • basePoint = 0 := by
  have hempty : baseMultiple.empty = true := by decide +kernel
  have hdenotes : baseMultiple.Denotes (FNEC • basePoint + (0 : ℕ) • basePoint) := by
    unfold baseMultiple
    exact mulPointEcJacobian1bitZ_denotes baseMpz_is.withOne baseMpz_is.withOne
      (by decide) (by norm_num) _ _
  rw [zero_nsmul, add_zero] at hdenotes
  exact hdenotes.zero hempty

theorem addOrderOf_basePoint : addOrderOf basePoint = FNEC :=
  addOrderOf_eq_prime fnec_nsmul_basePoint (Affine.Point.some_ne_zero nonsingular_base)

/-- A point is known by its first coordinate and the parity of the second one. -/
def shape : secp256k1.Point → Option (Fec × Bool)
  | .zero => none
  | .some x y _ => some (x, y.val % 2 = 1)

theorem val_neg_parity {y : Fec} (hy : y ≠ 0) : (-y).val % 2 ≠ y.val % 2 := by
  have : NeZero y := ⟨hy⟩
  have hlt := y.val_lt
  have hodd : FPEC % 2 = 1 := by decide
  rw [ZMod.val_neg_of_ne_zero]
  omega

theorem eq_of_parity {x y y' : Fec} (h : secp256k1.Nonsingular x y)
    (h' : secp256k1.Nonsingular x y') (hparity : y.val % 2 = y'.val % 2) : y = y' := by
  have hsq : (y - y') * (y + y') = 0 := by
    linear_combination nonsingular_iff.mp h - nonsingular_iff.mp h'
  rcases mul_eq_zero.mp hsq with heq | hneg
  · exact sub_eq_zero.mp heq
  · rw [eq_neg_of_add_eq_zero_left hneg] at hparity
    exact absurd hparity (val_neg_parity (y_ne_zero h'.1))

theorem shape_injective : Function.Injective shape := by
  intro P Q h
  cases P with
  | zero =>
    cases Q with
    | zero => rfl
    | some x y hQ => cases h
  | some x y hP =>
    cases Q with
    | zero => cases h
    | some x' y' hQ =>
      simp only [shape, Option.some.injEq, Prod.mk.injEq, decide_eq_decide] at h
      obtain ⟨rfl, hparity⟩ := h
      obtain rfl := eq_of_parity hP hQ (by omega)
      rfl

instance : Finite secp256k1.Point := Finite.of_injective shape shape_injective

theorem card_lt : Nat.card secp256k1.Point < 3 * FNEC := by
  have hle : Nat.card secp256k1.Point ≤ Nat.card (Option (Fec × Bool)) :=
    Nat.card_le_card_of_injective shape shape_injective
  have hcard : Nat.card (Option (Fec × Bool)) = FPEC * 2 + 1 := by
    rw [Nat.card_eq_fintype_card, Fintype.card_option, Fintype.card_prod, ZMod.card,
      Fintype.card_bool]
  have hlt : FPEC * 2 + 1 < 3 * FNEC := by decide
  omega

/-- No point but the one at infinity is its own negative. -/
theorem add_self_ne_zero {P : secp256k1.Point} (hP : P ≠ 0) : P + P ≠ 0 := by
  cases P with
  | zero => exact absurd rfl hP
  | some x y h =>
    have hdouble := (IsJacobian.of_affine h).dbl two_ne_zero_fec (y_ne_zero h.1) rfl rfl rfl
    exact hdouble.ne_zero

theorem card_point : Nat.card secp256k1.Point = FNEC := by
  obtain ⟨m, hm⟩ : FNEC ∣ Nat.card secp256k1.Point := addOrderOf_basePoint ▸ addOrderOf_dvd_natCard _
  have hlt := card_lt
  have hpos : 0 < Nat.card secp256k1.Point := Nat.card_pos
  rw [hm] at hlt hpos
  have hm3 : m < 3 := by
    rw [Nat.mul_comm] at hlt
    exact Nat.lt_of_mul_lt_mul_right hlt
  have hm0 : 0 < m := Nat.pos_of_mul_pos_left hpos
  obtain rfl | rfl : m = 1 ∨ m = 2 := by omega
  · rw [hm, Nat.mul_one]
  · obtain ⟨P, hP⟩ := exists_prime_addOrderOf_dvd_card' 2 (Dvd.intro_left FNEC hm.symm)
    have hne : P ≠ 0 := by
      rintro rfl
      rw [addOrderOf_zero] at hP
      cases hP
    have hsum : P + P = 0 := by
      rw [← two_nsmul, ← hP]
      exact addOrderOf_nsmul_eq_zero P
    exact absurd hsum (add_self_ne_zero hne)

theorem fnec_nsmul (P : secp256k1.Point) : FNEC • P = 0 := by
  rw [← card_point]
  exact card_nsmul_eq_zero'

end ZkevmProver
