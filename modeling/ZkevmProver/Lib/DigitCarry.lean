import Mathlib.Tactic.Ring
import Mathlib.Order.Basic

/-!
# Carries between digits

A number is read one digit of base `B` at a time, the lowest first.  After `n` digits, what an
automaton has seen of `x` is `x % B ^ n`.  Each lemma gives the carry after one more digit from the
digit and the carry before it: of a sum, of a comparison, of an equality.  Where the digits have different
bases, `x % W` has been seen of `x`, and the next digit has the base `M`: a comparison, and a doubling.
-/

namespace DigitCarry

variable {B : ℕ}

/-- Digit `n` of `x` in base `B`. -/
def digit (B x n : ℕ) : ℕ := x / B ^ n % B

theorem digit_lt (hB : 0 < B) (x n : ℕ) : digit B x n < B := Nat.mod_lt _ hB

/-- One more digit of `x` has been seen. -/
theorem mod_succ (B x n : ℕ) : x % B ^ (n + 1) = x % B ^ n + B ^ n * digit B x n :=
  Nat.mod_pow_succ

/-- Digit `n` above the lowest `s` digits. -/
theorem digit_div (B x s n : ℕ) : digit B (x / B ^ s) n = digit B x (s + n) := by
  rw [digit, digit, Nat.div_div_eq_div_mul, ← Nat.pow_add]

/-- The carry out of a sum. -/
def addCarry (B x y n : ℕ) : ℕ := (x % B ^ n + y % B ^ n) / B ^ n

theorem addCarry_zero (B x y : ℕ) : addCarry B x y 0 = 0 := by
  simp [addCarry, Nat.mod_one]

theorem addCarry_succ (hB : 0 < B) (x y n : ℕ) :
    addCarry B x y (n + 1) = (digit B x n + digit B y n + addCarry B x y n) / B := by
  have hpow : 0 < B ^ n := Nat.pow_pos hB
  unfold addCarry
  rw [mod_succ, mod_succ, Nat.pow_succ, ← Nat.div_div_eq_div_mul]
  congr 1
  calc (x % B ^ n + B ^ n * digit B x n + (y % B ^ n + B ^ n * digit B y n)) / B ^ n
      = (x % B ^ n + y % B ^ n + B ^ n * (digit B x n + digit B y n)) / B ^ n := by
        congr 1
        ring
    _ = (x % B ^ n + y % B ^ n) / B ^ n + (digit B x n + digit B y n) :=
        Nat.add_mul_div_left _ _ hpow
    _ = _ := Nat.add_comm _ _

theorem addCarry_le_one (hB : 0 < B) (x y n : ℕ) : addCarry B x y n ≤ 1 := by
  have hpow : 0 < B ^ n := Nat.pow_pos hB
  have hx := Nat.mod_lt x hpow
  have hy := Nat.mod_lt y hpow
  exact Nat.lt_succ_iff.mp ((Nat.div_lt_iff_lt_mul hpow).mpr (by omega))

/-- Numbers compare by a digit of any base, and then by what is below it. -/
theorem mod_mul_lt_iff {W : ℕ} (hW : 0 < W) (x y M : ℕ) :
    x % (W * M) < y % (W * M) ↔
      x / W % M < y / W % M ∨ x / W % M = y / W % M ∧ x % W < y % W := by
  have hx := Nat.mod_lt x hW
  have hy := Nat.mod_lt y hW
  rw [Nat.mod_mul, Nat.mod_mul]
  generalize x % W = u at *
  generalize y % W = v at *
  obtain h | h | h := lt_trichotomy (x / W % M) (y / W % M)
  · have hmul : W * (x / W % M + 1) ≤ W * (y / W % M) := Nat.mul_le_mul_left _ h
    rw [Nat.mul_succ] at hmul
    exact iff_of_true (by omega) (Or.inl h)
  · rw [h]
    exact ⟨fun hlt => Or.inr ⟨rfl, by omega⟩, fun hlt => by
      rcases hlt with hlt | hlt <;> omega⟩
  · have hmul : W * (y / W % M + 1) ≤ W * (x / W % M) := Nat.mul_le_mul_left _ h
    rw [Nat.mul_succ] at hmul
    exact iff_of_false (by omega) (by omega)

/-- Digits compare from the highest. -/
theorem mod_succ_lt_iff (hB : 0 < B) (x y n : ℕ) :
    x % B ^ (n + 1) < y % B ^ (n + 1) ↔
      digit B x n < digit B y n ∨ digit B x n = digit B y n ∧ x % B ^ n < y % B ^ n :=
  mod_mul_lt_iff (Nat.pow_pos hB) x y B

/-- The carry out of a number that is doubled with `c` added. -/
def doubleCarry (W x c : ℕ) : ℕ := (2 * (x % W) + c) / W

theorem doubleCarry_le_one {W c : ℕ} (hW : 0 < W) (hc : c ≤ 1) (x : ℕ) : doubleCarry W x c ≤ 1 := by
  have hx := Nat.mod_lt x hW
  exact Nat.lt_succ_iff.mp ((Nat.div_lt_iff_lt_mul hW).mpr (by omega))

/-- What is above a digit is doubled with the carry added. -/
theorem double_div {W : ℕ} (hW : 0 < W) (x c : ℕ) : (2 * x + c) / W = 2 * (x / W) + doubleCarry W x c := by
  have hx : 2 * x + c = 2 * (x % W) + c + W * (2 * (x / W)) := by
    nth_rewrite 1 [← Nat.mod_add_div x W]
    ring
  rw [hx, Nat.add_mul_div_left _ _ hW, Nat.add_comm, doubleCarry]

theorem doubleCarry_mul {W : ℕ} (hW : 0 < W) (x c M : ℕ) :
    doubleCarry (W * M) x c = (2 * (x / W % M) + doubleCarry W x c) / M := by
  have hx := double_div hW (x % (W * M)) c
  rw [Nat.mod_mul_right_div_self, doubleCarry, Nat.mod_mul_right_mod] at hx
  rw [doubleCarry, ← Nat.div_div_eq_div_mul, hx, doubleCarry]

/-- Two numbers agree on one more digit. -/
theorem mod_succ_eq_iff (hB : 0 < B) (x y n : ℕ) :
    x % B ^ (n + 1) = y % B ^ (n + 1) ↔
      digit B x n = digit B y n ∧ x % B ^ n = y % B ^ n := by
  have hxy := mod_succ_lt_iff hB x y n
  have hyx := mod_succ_lt_iff hB y x n
  constructor
  · intro h
    rw [h] at hxy
    rw [h] at hyx
    have hxy := hxy.not.mp (lt_irrefl _)
    have hyx := hyx.not.mp (lt_irrefl _)
    omega
  · rintro ⟨hd, hm⟩
    rw [mod_succ, mod_succ, hd, hm]

theorem mod_succ_eq_zero_iff (hB : 0 < B) (x n : ℕ) :
    x % B ^ (n + 1) = 0 ↔ digit B x n = 0 ∧ x % B ^ n = 0 := by
  have hpow : B ^ n ≠ 0 := (Nat.pow_pos hB).ne'
  rw [mod_succ, Nat.add_eq_zero_iff, Nat.mul_eq_zero, or_iff_right hpow, and_comm]

/-- One digit less is left out. -/
theorem div_pow (B x k : ℕ) : x / B ^ k = B * (x / B ^ (k + 1)) + digit B x k := by
  rw [Nat.pow_succ, ← Nat.div_div_eq_div_mul]
  exact (Nat.div_add_mod _ B).symm

/-- Of two numbers of `k + d` digits, the smaller one is smaller from digit `k` on if one of these
digits is. -/
theorem div_lt_iff (hB : 0 < B) {x y k d : ℕ} (hy : y < B ^ (k + d)) (hxy : x < y) :
    x / B ^ k < y / B ^ k ↔ ∃ j, k ≤ j ∧ j < k + d ∧ digit B x j < digit B y j := by
  induction d generalizing k with
  | zero =>
    have hy : y < B ^ k := hy
    rw [Nat.div_eq_of_lt hy]
    exact iff_of_false (Nat.not_lt_zero _) fun ⟨j, hk, hlt, _⟩ => absurd hk (Nat.not_le.mpr hlt)
  | succ d ih =>
    have hsucc : k + 1 + d = k + (d + 1) := by omega
    have hle : x / B ^ (k + 1) ≤ y / B ^ (k + 1) := Nat.div_le_div_right hxy.le
    have hx := div_pow B x k
    have hy' := div_pow B y k
    have hdx := digit_lt hB x k
    have ih := ih (k := k + 1) (by rwa [hsucc])
    rw [hsucc] at ih
    have hsplit : (∃ j, k ≤ j ∧ j < k + (d + 1) ∧ digit B x j < digit B y j) ↔
        digit B x k < digit B y k ∨ x / B ^ (k + 1) < y / B ^ (k + 1) := by
      rw [ih]
      constructor
      · rintro ⟨j, hk, hlt, hj⟩
        rcases Nat.eq_or_lt_of_le hk with rfl | hk
        · exact .inl hj
        · exact .inr ⟨j, hk, hlt, hj⟩
      · rintro (hj | ⟨j, hk, hlt, hj⟩)
        · exact ⟨k, le_rfl, by omega, hj⟩
        · exact ⟨j, Nat.le_of_succ_le hk, hlt, hj⟩
    rw [hsplit, hx, hy']
    rcases Nat.eq_or_lt_of_le hle with heq | hlt
    · rw [heq]
      omega
    · have hmul := Nat.mul_le_mul_left B hlt
      rw [Nat.mul_succ] at hmul
      exact iff_of_true (by omega) (.inr hlt)

end DigitCarry
