import Mathlib.Algebra.Ring.Nat
import Mathlib.Data.Nat.Log
import Mathlib.Order.Monotone.Basic

/-!
# Rounding to a number of significant bits

Natural numbers rounded to the nearest one with at most `p` significant bits, ties to the even
significand, as binary floating point does.  Multiplying by a power of two changes nothing, so that a
fixed-point number is rounded as the natural number of its units.

1. Rounding
2. Bounds
3. Monotonicity
-/

namespace Rounding

/-! ## Rounding -/

/-- How many low bits a number has more than `p` significant ones. -/
def excess (p n : ℕ) : ℕ := n.log2 + 1 - p

/-- The nearest number of `p` significant bits. -/
def roundEven (p n : ℕ) : ℕ :=
  let unit := 2 ^ excess p n
  let q := n / unit
  let r := n % unit
  if 2 * r < unit ∨ 2 * r = unit ∧ q % 2 = 0 then q * unit else (q + 1) * unit

theorem roundEven_eq (p n : ℕ) :
    roundEven p n = n / 2 ^ excess p n * 2 ^ excess p n ∨
      n % 2 ^ excess p n ≠ 0 ∧ roundEven p n = (n / 2 ^ excess p n + 1) * 2 ^ excess p n := by
  have hpos : 0 < 2 ^ excess p n := Nat.pow_pos (by decide)
  unfold roundEven
  dsimp only
  split_ifs with h
  · exact .inl rfl
  · exact .inr ⟨by omega, rfl⟩

/-! ## Bounds -/

/-- A multiple of the unit that bounds the number bounds the rounded one. -/
theorem roundEven_le {p n m : ℕ} (h : n ≤ m) (hdvd : 2 ^ excess p n ∣ m) : roundEven p n ≤ m := by
  obtain ⟨k, rfl⟩ := hdvd
  have hpos : 0 < 2 ^ excess p n := Nat.pow_pos (by decide)
  have hdiv := Nat.div_add_mod n (2 ^ excess p n)
  rw [Nat.mul_comm (2 ^ excess p n) k] at *
  rcases roundEven_eq p n with heq | ⟨hr, heq⟩
  · rw [heq]
    exact (Nat.div_mul_le_self n _).trans h
  · rw [heq]
    apply Nat.mul_le_mul_right
    apply Nat.lt_of_mul_lt_mul_left (a := 2 ^ excess p n)
    rw [Nat.mul_comm _ k]
    omega

theorem le_roundEven {p n m : ℕ} (h : m ≤ n) (hdvd : 2 ^ excess p n ∣ m) : m ≤ roundEven p n := by
  obtain ⟨k, rfl⟩ := hdvd
  have hpos : 0 < 2 ^ excess p n := Nat.pow_pos (by decide)
  have hk : k ≤ n / 2 ^ excess p n := (Nat.le_div_iff_mul_le hpos).mpr (by rwa [Nat.mul_comm])
  rw [Nat.mul_comm]
  rcases roundEven_eq p n with heq | ⟨-, heq⟩
  · rw [heq]
    exact Nat.mul_le_mul_right _ hk
  · rw [heq]
    exact Nat.mul_le_mul_right _ (hk.trans (Nat.le_succ _))

theorem roundEven_of_dvd {p n : ℕ} (h : 2 ^ excess p n ∣ n) : roundEven p n = n :=
  le_antisymm (roundEven_le le_rfl h) (le_roundEven le_rfl h)

section Positive

variable {p : ℕ} (hp : 0 < p)

include hp

theorem excess_le {n k : ℕ} (h : n < 2 ^ (p + k)) : excess p n ≤ k := by
  unfold excess
  by_cases hzero : n = 0
  · rw [hzero, Nat.log2_zero]
    omega
  · have hlog := (Nat.log2_lt hzero).mpr h
    omega

/-- Numbers of at most `p` significant bits are left as they are. -/
theorem roundEven_mul_pow {n k : ℕ} (h : n < 2 ^ p) : roundEven p (n * 2 ^ k) = n * 2 ^ k := by
  apply roundEven_of_dvd
  have hlt : n * 2 ^ k < 2 ^ (p + k) := by
    rw [Nat.pow_add]
    exact Nat.mul_lt_mul_of_pos_right h (Nat.pow_pos (by decide))
  exact Nat.dvd_mul_left_of_dvd (Nat.pow_dvd_pow 2 (excess_le hp hlt)) n

theorem roundEven_of_lt {n : ℕ} (h : n < 2 ^ p) : roundEven p n = n := by
  have hmul := roundEven_mul_pow hp (k := 0) h
  rwa [Nat.pow_zero, Nat.mul_one] at hmul

theorem roundEven_of_le {n : ℕ} (h : n ≤ 2 ^ p) : roundEven p n = n := by
  rcases Nat.lt_or_eq_of_le h with hlt | rfl
  · exact roundEven_of_lt hp hlt
  · have hone := roundEven_mul_pow hp (k := p) (n := 1) (Nat.one_lt_two_pow hp.ne')
    rwa [Nat.one_mul] at hone

/-! ## Monotonicity -/

theorem roundEven_monotone : Monotone (roundEven p) := by
  intro n m hle
  rcases Nat.lt_or_ge n.log2 m.log2 with hlog | hlog
  · -- a power of two lies between them
    have hm : m ≠ 0 := by
      rintro rfl
      rw [Nat.log2_zero] at hlog
      exact Nat.not_lt_zero _ hlog
    calc roundEven p n ≤ 2 ^ m.log2 := by
          apply roundEven_le
          · exact (Nat.lt_log2_self.trans_le (Nat.pow_le_pow_right (by decide) hlog)).le
          · apply Nat.pow_dvd_pow
            unfold excess
            omega
      _ ≤ roundEven p m := by
          apply le_roundEven (Nat.log2_self_le hm)
          apply Nat.pow_dvd_pow
          unfold excess
          omega
  · -- they have the same unit
    have hexcess : excess p n = excess p m := by
      have hlog' : n.log2 ≤ m.log2 := by
        by_cases hn : n = 0
        · rw [hn, Nat.log2_zero]
          exact Nat.zero_le _
        · exact (Nat.le_log2 (by omega)).mpr ((Nat.log2_self_le hn).trans hle)
      unfold excess
      omega
    have hpos : 0 < 2 ^ excess p m := Nat.pow_pos (by decide)
    have hq : n / 2 ^ excess p m ≤ m / 2 ^ excess p m := Nat.div_le_div_right hle
    rcases Nat.lt_or_eq_of_le hq with hlt | heq
    · calc roundEven p n ≤ m / 2 ^ excess p m * 2 ^ excess p m := by
            apply roundEven_le
            · have hn := Nat.div_add_mod n (2 ^ excess p m)
              have hr := Nat.mod_lt n hpos
              have hmul := Nat.mul_le_mul_right (2 ^ excess p m) hlt
              rw [Nat.succ_mul, Nat.mul_comm (n / _)] at hmul
              omega
            · rw [hexcess]
              exact Nat.dvd_mul_left _ _
        _ ≤ roundEven p m := le_roundEven (Nat.div_mul_le_self m _) (Nat.dvd_mul_left _ _)
    · have hr : n % 2 ^ excess p m ≤ m % 2 ^ excess p m := by
        have hn := Nat.div_add_mod n (2 ^ excess p m)
        have hm := Nat.div_add_mod m (2 ^ excess p m)
        rw [heq] at hn
        omega
      unfold roundEven
      dsimp only
      rw [hexcess, heq]
      split_ifs with hdown hdown'
      · exact le_rfl
      · exact Nat.mul_le_mul_right _ (Nat.le_succ _)
      · omega
      · exact le_rfl

end Positive

end Rounding
