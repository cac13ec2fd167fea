import Mathlib.Algebra.Module.NatInt
import Mathlib.Algebra.Order.Ring.Nat

/-!
# Loops that count down, and double-and-add

`k₁ P₁ + k₂ P₂` is built from the top: with the sum of what is above a window of both scalars at hand,
the sum of what is above the next window is a few doublings and one addition away.

1. Loops
2. Windows of two scalars
-/

namespace Countdown

variable {α : Type*} {n : ℕ}

/-- `for (i = n - 1; i >= 0; --i) a = f(i, a)` -/
def countdown (f : ℕ → α → α) : ℕ → α → α
  | 0, a => a
  | n + 1, a => countdown f n (f n a)

/-- What holds before the first step and is handed down by every step holds at the end. -/
theorem countdown_induction {f : ℕ → α → α} {I : ℕ → α → Prop}
    (hstep : ∀ i < n, ∀ a, I (i + 1) a → I i (f i a)) {a : α} (h : I n a) :
    I 0 (countdown f n a) := by
  induction n generalizing a with
  | zero => exact h
  | succ n ih =>
    have hlast := hstep n n.lt_succ_self a h
    exact ih (fun i hi => hstep i (Nat.lt_succ_of_lt hi)) hlast

/-- What holds before the first step of `for (k = s; k < s + n; ++k)` and is handed on by every step
holds at the end. -/
theorem foldl_range'_induction {f : α → ℕ → α} {I : ℕ → α → Prop} {s : ℕ}
    (hstep : ∀ k a, s ≤ k → k < s + n → I k a → I (k + 1) (f a k)) {a : α} (h : I s a) :
    I (s + n) ((List.range' s n).foldl f a) := by
  induction n with
  | zero => exact h
  | succ n ih =>
    have hlast := ih fun k a hk hlt => hstep k a hk (hlt.trans (Nat.lt_succ_self (s + n)))
    rw [List.range'_concat, Nat.one_mul, List.foldl_append]
    exact hstep (s + n) _ (Nat.le_add_right s n) (Nat.lt_succ_self (s + n)) hlast

/-! ## Windows of two scalars -/

section

variable {G : Type*} [AddCommMonoid G] (w k₁ k₂ : ℕ) (P₁ P₂ : G) (i : ℕ)

/-- The sum by what is above the windows from `i` on. -/
def above : G := (k₁ / (2 ^ w) ^ i) • P₁ + (k₂ / (2 ^ w) ^ i) • P₂

/-- The sum by the windows at `i`. -/
def window : G := (k₁ / (2 ^ w) ^ i % 2 ^ w) • P₁ + (k₂ / (2 ^ w) ^ i % 2 ^ w) • P₂

theorem div_pow_smul (k : ℕ) (P : G) :
    (k / (2 ^ w) ^ i) • P = 2 ^ w • (k / (2 ^ w) ^ (i + 1)) • P + (k / (2 ^ w) ^ i % 2 ^ w) • P := by
  rw [smul_smul, ← add_smul, pow_succ, ← Nat.div_div_eq_div_mul, Nat.div_add_mod]

theorem above_eq_double_add :
    above w k₁ k₂ P₁ P₂ i = 2 ^ w • above w k₁ k₂ P₁ P₂ (i + 1) + window w k₁ k₂ P₁ P₂ i := by
  unfold above window
  rw [div_pow_smul w i k₁, div_pow_smul w i k₂, smul_add, add_add_add_comm]

theorem above_zero : above w k₁ k₂ P₁ P₂ 0 = k₁ • P₁ + k₂ • P₂ := by
  unfold above
  rw [pow_zero, Nat.div_one, Nat.div_one]

variable {w k₁ k₂}

theorem above_eq_zero (h₁ : k₁ < (2 ^ w) ^ n) (h₂ : k₂ < (2 ^ w) ^ n) :
    above w k₁ k₂ P₁ P₂ n = 0 := by
  unfold above
  rw [Nat.div_eq_of_lt h₁, Nat.div_eq_of_lt h₂, zero_smul, zero_smul, add_zero]

end

end Countdown
