import Mathlib.FieldTheory.Finite.Basic
import Mathlib.Tactic.NormNum.Prime
import ZkevmProver.Lib.JacobianCoordinates
import ZkevmProver.Lib.LucasCertificate

/-!
# secp256k1

The curve `y² = x³ + 7` over the field of `FPEC` elements, with its base point.  Both `FPEC` and `FNEC`
are prime.

1. The two primes
2. The curve
3. The base point
-/

set_option maxRecDepth 4000

namespace ZkevmProver

open LucasCertificate ShortWeierstrass WeierstrassCurve

-- One proof for the coefficients of the curve and of its tangents.
instance atLeastTwo_three : Nat.AtLeastTwo 3 := ⟨by decide⟩

instance atLeastTwo_seven : Nat.AtLeastTwo 7 := ⟨by decide⟩

/-! ## The two primes -/

def FPEC : ℕ := 0xFFFFFFFFFFFFFFFFFFFFFFFFFFFFFFFFFFFFFFFFFFFFFFFFFFFFFFFEFFFFFC2F

def FNEC : ℕ := 0xFFFFFFFFFFFFFFFFFFFFFFFFFFFFFFFEBAAEDCE6AF48A03BBFD25E8CD0364141

/-- The small factors are prime by trial division, the large ones by a certificate. -/
private theorem prime_of_factors (p a bits : ℕ) (small large : List ℕ)
    (h : check p a bits (small ++ large) = true) (hsmall : ∀ q ∈ small, q.Prime)
    (hlarge : ∀ q ∈ large, q.Prime) : p.Prime :=
  prime_of_check p a bits _
    (fun q hq => (List.mem_append.mp hq).elim (hsmall q) (hlarge q)) h

theorem prime_fpec : FPEC.Prime := by
  have h₁ : Nat.Prime 173378833005251801 :=
    prime_of_factors _ 6 64 [2, 2, 2, 5, 5, 2621, 24809, 13331831] [] (by decide)
      (by norm_num) (by simp)
  have h₂ : Nat.Prime 22149492674086928081353 :=
    prime_of_factors _ 5 80 [2, 2, 2, 3, 5323] [173378833005251801] (by decide)
      (by norm_num) (by simp [h₁])
  have h₃ : Nat.Prime 132896956044521568488119 :=
    prime_of_factors _ 6 80 [2, 3] [22149492674086928081353] (by decide) (by norm_num)
      (by simp [h₂])
  have h₄ : Nat.Prime 255515944373312847190720520512484175977 :=
    prime_of_factors _ 3 128
      [2, 2, 2, 7, 7, 11, 1627, 2657, 4423, 41201, 96557, 7240687, 107590001] []
      (by decide) (by norm_num) (by simp)
  have h₅ : Nat.Prime 205115282021455665897114700593932402728804164701536103180137503955397371 :=
    prime_of_factors _ 10 256 [2, 3, 5, 29, 29, 31, 7723]
      [132896956044521568488119, 255515944373312847190720520512484175977] (by decide)
      (by norm_num) (by simp [h₃, h₄])
  exact prime_of_factors _ 3 256 [2, 3, 7, 13441]
    [205115282021455665897114700593932402728804164701536103180137503955397371] (by decide)
    (by norm_num) (by simp [h₅])

theorem prime_fnec : FNEC.Prime := by
  have h₁ : Nat.Prime 107361793816595537 :=
    prime_of_factors _ 3 64 [2, 2, 2, 2, 16699, 85831, 4681609] [] (by decide)
      (by norm_num) (by simp)
  have h₂ : Nat.Prime 174723607534414371449 :=
    prime_of_factors _ 3 80 [2, 2, 2, 17, 59, 4051, 120233, 44706919] [] (by decide)
      (by norm_num) (by simp)
  have h₃ : Nat.Prime 297159362677 :=
    prime_of_factors _ 2 64 [2, 2, 3, 3, 11, 461, 1627771] [] (by decide) (by norm_num)
      (by simp)
  have h₄ : Nat.Prime 545358713 :=
    prime_of_factors _ 5 32 [2, 2, 2, 41, 59, 28181] [] (by decide) (by norm_num) (by simp)
  have h₅ : Nat.Prime 29047611873442575647497758179 :=
    prime_of_factors _ 2 128 [2, 293, 305873] [545358713, 297159362677] (by decide)
      (by norm_num) (List.forall_mem_cons.mpr ⟨h₄, List.forall_mem_singleton.mpr h₃⟩)
  have h₆ : Nat.Prime 341948486974166000522343609283189 :=
    prime_of_factors _ 2 128 [2, 2, 3, 3, 3, 109] [29047611873442575647497758179]
      (by decide) (by norm_num) (by simp [h₅])
  exact prime_of_factors _ 7 256 [2, 2, 2, 2, 2, 2, 3, 149, 631]
    [107361793816595537, 174723607534414371449, 341948486974166000522343609283189]
    (by decide) (by norm_num) (by simp [h₁, h₂, h₆])

/-! ## The curve -/

instance : Fact FPEC.Prime := ⟨prime_fpec⟩

instance : Fact FNEC.Prime := ⟨prime_fnec⟩

/-- `RawFec::Element`, whose arithmetic is that of the field of `FPEC` elements. -/
abbrev Fec := ZMod FPEC

abbrev secp256k1 : Affine Fec := curve 7

theorem two_ne_zero_fec : (2 : Fec) ≠ 0 := by decide

/-- Minus seven is no cube, as its power to a third of `FPEC - 1` is not one. -/
theorem cube_add_seven_ne_zero (x : Fec) : x ^ 3 + 7 ≠ 0 := by
  intro h
  have hx : x ≠ 0 := by
    rintro rfl
    exact absurd h (by decide)
  have hcube : x ^ 3 = (FPEC - 7 : ℕ) := by
    rw [Nat.cast_sub (by decide), ZMod.natCast_self]
    linear_combination h
  have hone : ((FPEC - 7 : ℕ) : Fec) ^ ((FPEC - 1) / 3) = 1 := by
    rw [← hcube, ← pow_mul, show 3 * ((FPEC - 1) / 3) = FPEC - 1 by decide]
    exact ZMod.pow_card_sub_one_eq_one hx
  have hnot : powIsOne FPEC 256 (FPEC - 7) ((FPEC - 1) / 3) = false := by decide
  rw [← powIsOne_iff FPEC (by decide : (FPEC - 1) / 3 < 2 ^ 256), hnot] at hone
  exact Bool.false_ne_true hone

variable {x y : Fec}

theorem y_ne_zero (h : secp256k1.Equation x y) : y ≠ 0 := by
  rintro rfl
  rw [equation_iff] at h
  exact cube_add_seven_ne_zero x (by rw [← h, zero_pow two_ne_zero])

/-- Seven is no square, as its power to half of `FPEC - 1` is not one. -/
theorem x_ne_zero (h : secp256k1.Equation x y) : x ≠ 0 := by
  rintro rfl
  have hy := y_ne_zero h
  have hsq : y ^ 2 = (7 : ℕ) := by
    rw [equation_iff.mp h, zero_pow three_ne_zero, zero_add]
    rfl
  have hone : ((7 : ℕ) : Fec) ^ ((FPEC - 1) / 2) = 1 := by
    rw [← hsq, ← pow_mul, show 2 * ((FPEC - 1) / 2) = FPEC - 1 by decide]
    exact ZMod.pow_card_sub_one_eq_one hy
  have hnot : powIsOne FPEC 256 7 ((FPEC - 1) / 2) = false := by decide
  rw [← powIsOne_iff FPEC (by decide : (FPEC - 1) / 2 < 2 ^ 256), hnot] at hone
  exact Bool.false_ne_true hone

theorem nonsingular_iff : secp256k1.Nonsingular x y ↔ y ^ 2 = x ^ 3 + 7 :=
  ⟨fun h => equation_iff.mp h.1, fun h => nonsingular_of_ne two_ne_zero_fec
    (y_ne_zero (equation_iff.mpr h)) h⟩

/-! ## The base point -/

def ECGX : ℕ := 0x79BE667EF9DCBBAC55A06295CE870B07029BFCDB2DCE28D959F2815B16F81798

def ECGY : ℕ := 0x483ADA7726A3C4655DA4FBFC0E1108A8FD17B448A68554199C47D08FFB10D4B8

theorem nonsingular_base : secp256k1.Nonsingular (ECGX : Fec) (ECGY : Fec) :=
  nonsingular_iff.mpr (by decide)

/-- The base point. -/
def basePoint : secp256k1.Point := .some _ _ nonsingular_base

end ZkevmProver
