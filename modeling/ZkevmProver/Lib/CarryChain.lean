import Mathlib.Algebra.Polynomial.Degree.Lemmas
import Mathlib.Tactic.Ring

/-!
# Equations between numbers, digit by digit

Numbers are sequences of integer digits, which may be negative or larger than the base.  The product
of two of them is a convolution.  A sequence of value zero has carries: each digit with the carry
into it is the base times the carry out of it, and there is none at the end.

  1. The value of a sequence.
  2. Products.
  3. Carries.
-/

namespace CarryChain

open Finset Polynomial

/-! ## The value of a sequence -/

/-- The number of the first `n` digits, lowest first. -/
def value (B : ℤ) (a : ℕ → ℤ) (n : ℕ) : ℤ := ∑ i ∈ range n, a i * B ^ i

section Value

variable {B : ℤ} {a b : ℕ → ℤ} {n : ℕ}

theorem value_succ (B : ℤ) (a : ℕ → ℤ) (n : ℕ) :
    value B a (n + 1) = value B a n + a n * B ^ n := sum_range_succ _ n

theorem value_add : value B (fun i => a i + b i) n = value B a n + value B b n := by
  simp only [value, add_mul, sum_add_distrib]

theorem value_sub : value B (fun i => a i - b i) n = value B a n - value B b n := by
  simp only [value, sub_mul, sum_sub_distrib]

/-- The digits from `k` on are a multiple of `B ^ k`. -/
theorem pow_dvd_value_sub {k : ℕ} (h : k ≤ n) : B ^ k ∣ value B a n - value B a k := by
  induction n, h using Nat.le_induction with
  | base => rw [sub_self]; exact dvd_zero _
  | succ n hn ih =>
    have hnext : value B a (n + 1) - value B a k = value B a n - value B a k + a n * B ^ n := by
      rw [value_succ]
      ring
    rw [hnext]
    exact dvd_add ih (Dvd.dvd.mul_left (pow_dvd_pow B hn) _)

end Value

/-! ## Products -/

/-- Digit `k` of a product. -/
def conv (a b : ℕ → ℤ) (k : ℕ) : ℤ := ∑ i ∈ range (k + 1), a i * b (k - i)

section Products

variable {B : ℤ} {a b : ℕ → ℤ} {m n N : ℕ}

/-- The polynomial of the first `N` digits. -/
noncomputable def poly (a : ℕ → ℤ) (N : ℕ) : ℤ[X] := ∑ i ∈ range N, monomial i (a i)

theorem eval_poly (B : ℤ) (a : ℕ → ℤ) (N : ℕ) : (poly a N).eval B = value B a N := by
  simp only [poly, eval_finsetSum, eval_monomial, value]

theorem coeff_poly {k : ℕ} : (poly a N).coeff k = if k < N then a k else 0 := by
  simp only [poly, finsetSum_coeff, coeff_monomial, sum_ite_eq', mem_range]

theorem natDegree_poly (h : ∀ i, m < i → a i = 0) : (poly a N).natDegree ≤ m := by
  refine natDegree_le_iff_coeff_eq_zero.mpr fun i hi => ?_
  rw [coeff_poly, h i hi, ite_self]

/-- A product has the value of a product if it has digits enough. -/
theorem value_conv (ha : ∀ i, m < i → a i = 0) (hb : ∀ i, n < i → b i = 0) (h : m + n < N) :
    value B (conv a b) N = value B a N * value B b N := by
  have hdegree : (poly a N * poly b N).natDegree < N :=
    (natDegree_mul_le.trans (Nat.add_le_add (natDegree_poly ha) (natDegree_poly hb))).trans_lt h
  rw [← eval_poly, ← eval_poly, ← eval_poly, ← eval_mul, eval_eq_sum_range' hdegree, eval_poly]
  refine sum_congr rfl fun k hk => ?_
  rw [coeff_mul, Nat.sum_antidiagonal_eq_sum_range_succ fun i j => (poly a N).coeff i *
    (poly b N).coeff j]
  congr 1
  refine sum_congr rfl fun i hi => ?_
  have hk := mem_range.mp hk
  have hi := mem_range.mp hi
  rw [coeff_poly, coeff_poly, if_pos (by omega), if_pos (by omega)]

end Products

/-! ## Carries -/

/-- `c` are the carries of `e`. -/
structure Carries (B : ℤ) (e c : ℕ → ℤ) (N : ℕ) : Prop where
  zero : c 0 = 0
  last : c N = 0
  step : ∀ k < N, e k + c k = B * c (k + 1)

/-- A sequence of value zero has carries. -/
theorem exists_carries {B : ℤ} (hB : B ≠ 0) {e : ℕ → ℤ} {N : ℕ} (h : value B e N = 0) :
    ∃ c, Carries B e c N := by
  have hdvd (k : ℕ) (hk : k ≤ N) : ∃ c, value B e k = B ^ k * c := by
    have hrest := pow_dvd_value_sub (B := B) (a := e) hk
    rwa [h, zero_sub, dvd_neg] at hrest
  choose! c hc using hdvd
  have hcancel {k : ℕ} {x y : ℤ} (hxy : B ^ k * x = B ^ k * y) : x = y :=
    mul_left_cancel₀ (pow_ne_zero k hB) hxy
  refine ⟨c, ?_, ?_, fun k hk => ?_⟩
  · exact hcancel (k := 0) ((hc 0 (Nat.zero_le N)).symm.trans (by rw [mul_zero]; rfl))
  · exact hcancel ((hc N le_rfl).symm.trans (h.trans (mul_zero _).symm))
  · refine hcancel (k := k) ?_
    calc B ^ k * (e k + c k) = value B e k + e k * B ^ k := by rw [hc k hk.le]; ring
      _ = B ^ (k + 1) * c (k + 1) := by rw [← value_succ, hc (k + 1) hk]
      _ = B ^ k * (B * c (k + 1)) := by ring

end CarryChain
