import Mathlib.Algebra.Polynomial.Eval.Degree
import Mathlib.Algebra.Polynomial.AlgebraMap
import Mathlib.Algebra.Polynomial.Degree.Lemmas
import Mathlib.Algebra.Field.GeomSum
import Mathlib.RingTheory.RootsOfUnity.PrimitiveRoots

/-!
# Finite Fourier transforms and the values of polynomials on cosets

A sequence of `N` elements of a vector space is transformed with an `N`-th root of unity `ω`.  When the
elements are the coefficients of a polynomial, scaled by the powers of `s`, the transform gives its values
at `s`, `sω`, `sω²` and so on.

  1. Transforms.
  2. Values of polynomials.
  3. Polynomials with given values.
  4. Windows of coefficients.
-/

namespace Fourier

open Finset Polynomial

/-! ## Transforms -/

section Transforms

variable {F M : Type*} [Field F] [AddCommGroup M] [Module F M]

def dft (ω : F) (N : ℕ) (v : ℕ → M) (i : ℕ) : M := ∑ k ∈ range N, ω ^ (i * k) • v k

def idft (ω : F) (N : ℕ) (v : ℕ → M) (k : ℕ) : M := (N : F)⁻¹ • ∑ i ∈ range N, ω⁻¹ ^ (k * i) • v i

variable {ω : F} {N : ℕ} {v v' : ℕ → M}

theorem dft_congr (h : ∀ k < N, v k = v' k) (i : ℕ) : dft ω N v i = dft ω N v' i :=
  sum_congr rfl fun k hk => by rw [h k (mem_range.mp hk)]

theorem idft_congr (h : ∀ i < N, v i = v' i) (k : ℕ) : idft ω N v k = idft ω N v' k := by
  unfold idft
  rw [sum_congr rfl fun i hi => by rw [h i (mem_range.mp hi)]]

/-- Different powers of the root are orthogonal. -/
theorem sum_pow_mul_inv_pow (hω : IsPrimitiveRoot ω N) {k l : ℕ} (hk : k < N) (hl : l < N) :
    ∑ i ∈ range N, ω ^ (i * k) * ω⁻¹ ^ (i * l) = if k = l then (N : F) else 0 := by
  have hN : 0 < N := Nat.zero_lt_of_lt hk
  have hω0 : ω ≠ 0 := hω.ne_zero hN.ne'
  have hterm (i : ℕ) : ω ^ (i * k) * ω⁻¹ ^ (i * l) = (ω ^ k * ω⁻¹ ^ l) ^ i := by
    rw [mul_pow, ← pow_mul, ← pow_mul, Nat.mul_comm k, Nat.mul_comm l]
  rw [sum_congr rfl fun i _ => hterm i]
  split
  · next h =>
    subst h
    rw [inv_pow, mul_inv_cancel₀ (pow_ne_zero k hω0), sum_congr rfl fun i _ => one_pow i, sum_const,
      card_range, nsmul_one]
  · next h =>
    have hne : ω ^ k * ω⁻¹ ^ l ≠ 1 := by
      intro hone
      rw [inv_pow, mul_inv_eq_one₀ (pow_ne_zero l hω0)] at hone
      exact h (hω.pow_inj hk hl hone)
    have hpow : (ω ^ k * ω⁻¹ ^ l) ^ N = 1 := by
      rw [mul_pow, ← pow_mul, ← pow_mul, Nat.mul_comm k, Nat.mul_comm l, pow_mul, pow_mul, inv_pow ω N,
        hω.pow_eq_one, inv_one, one_pow, one_pow, one_mul]
    rw [geom_sum_eq hne, hpow, sub_self, zero_div]

theorem natCast_ne_zero (hω : IsPrimitiveRoot ω N) (hN : 0 < N) : (N : F) ≠ 0 := by
  have : NeZero N := ⟨hN.ne'⟩
  exact hω.neZero'.out

theorem idft_dft (hω : IsPrimitiveRoot ω N) {k : ℕ} (hk : k < N) : idft ω N (dft ω N v) k = v k := by
  have hN := natCast_ne_zero hω (Nat.zero_lt_of_lt hk)
  have hswap : ∑ i ∈ range N, ω⁻¹ ^ (k * i) • dft ω N v i =
      ∑ l ∈ range N, (∑ i ∈ range N, ω ^ (i * l) * ω⁻¹ ^ (i * k)) • v l := by
    simp only [dft, smul_sum, sum_smul]
    rw [sum_comm]
    refine sum_congr rfl fun l _ => sum_congr rfl fun i _ => ?_
    rw [smul_smul, mul_comm, Nat.mul_comm k]
  rw [idft, hswap, sum_congr rfl fun l hl => by rw [sum_pow_mul_inv_pow hω (mem_range.mp hl) hk]]
  simp only [ite_smul, zero_smul, sum_ite_eq', mem_range, if_pos hk]
  rw [smul_smul, inv_mul_cancel₀ hN, one_smul]

theorem dft_idft (hω : IsPrimitiveRoot ω N) {i : ℕ} (hi : i < N) : dft ω N (idft ω N v) i = v i := by
  have hN := natCast_ne_zero hω (Nat.zero_lt_of_lt hi)
  have hswap : ∑ k ∈ range N, ω ^ (i * k) • ∑ j ∈ range N, ω⁻¹ ^ (k * j) • v j =
      ∑ j ∈ range N, (∑ k ∈ range N, ω ^ (k * i) * ω⁻¹ ^ (k * j)) • v j := by
    simp only [smul_sum, sum_smul]
    rw [sum_comm]
    refine sum_congr rfl fun j _ => sum_congr rfl fun k _ => ?_
    rw [smul_smul, Nat.mul_comm i]
  have hscale : dft ω N (idft ω N v) i =
      (N : F)⁻¹ • ∑ k ∈ range N, ω ^ (i * k) • ∑ j ∈ range N, ω⁻¹ ^ (k * j) • v j := by
    unfold dft idft
    rw [smul_sum]
    exact sum_congr rfl fun k _ => smul_comm _ _ _
  rw [hscale, hswap, sum_congr rfl fun j hj => by rw [sum_pow_mul_inv_pow hω hi (mem_range.mp hj)]]
  simp only [ite_smul, zero_smul, sum_ite_eq, mem_range, if_pos hi]
  rw [smul_smul, inv_mul_cancel₀ hN, one_smul]

end Transforms

/-! ## Values of polynomials -/

section Values

variable {F K : Type*} [Field F] [CommRing K] [Algebra F K] {ω s : F} {N : ℕ} {P : K[X]}

theorem natDegree_lt (hN : 0 < N) (hP : P.degree < N) : P.natDegree < N := by
  rcases eq_or_ne P 0 with rfl | hne
  · rwa [natDegree_zero]
  · exact (natDegree_lt_iff_degree_lt hne).mpr hP

/-- The values of a polynomial on the coset of `s`. -/
theorem eval_eq_dft (hN : 0 < N) (hP : P.degree < N) (s ω : F) (i : ℕ) :
    P.eval (algebraMap F K (s * ω ^ i)) = dft ω N (fun k => s ^ k • P.coeff k) i := by
  rw [eval_eq_sum_range' (natDegree_lt hN hP), dft]
  refine sum_congr rfl fun k _ => ?_
  rw [← map_pow, mul_comm, ← Algebra.smul_def, smul_smul, mul_pow, ← pow_mul, mul_comm (s ^ k)]

/-- The coefficients of a polynomial, from its values on the coset of `s`. -/
theorem smul_coeff_eq_idft (hω : IsPrimitiveRoot ω N) (hP : P.degree < N) (s : F) {k : ℕ} (hk : k < N) :
    s ^ k • P.coeff k = idft ω N (fun i => P.eval (algebraMap F K (s * ω ^ i))) k := by
  have hN := Nat.zero_lt_of_lt hk
  rw [idft_congr fun i _ => eval_eq_dft hN hP s ω i, idft_dft hω hk]

/-! ## Polynomials with given values -/

/-- The polynomial with the values `v` on the coset of `s`. -/
noncomputable def interpolate (ω s : F) (N : ℕ) (v : ℕ → K) : K[X] :=
  ∑ k ∈ range N, monomial k (s⁻¹ ^ k • idft ω N v k)

theorem coeff_interpolate {v : ℕ → K} (k : ℕ) :
    (interpolate ω s N v).coeff k = if k < N then s⁻¹ ^ k • idft ω N v k else 0 := by
  simp only [interpolate, finsetSum_coeff, coeff_monomial, sum_ite_eq', mem_range]

theorem degree_interpolate_lt {v : ℕ → K} : (interpolate ω s N v).degree < N := by
  refine (degree_lt_iff_coeff_zero _ _).mpr fun k hk => ?_
  rw [coeff_interpolate, if_neg (Nat.not_lt.mpr hk)]

theorem smul_inv_pow (hs : s ≠ 0) (k : ℕ) (x : K) : s ^ k • s⁻¹ ^ k • x = x := by
  rw [smul_smul, inv_pow, mul_inv_cancel₀ (pow_ne_zero k hs), one_smul]

theorem eval_interpolate (hω : IsPrimitiveRoot ω N) (hs : s ≠ 0) {v : ℕ → K} {i : ℕ} (hi : i < N) :
    (interpolate ω s N v).eval (algebraMap F K (s * ω ^ i)) = v i := by
  rw [eval_eq_dft (Nat.zero_lt_of_lt hi) degree_interpolate_lt, ← dft_idft hω hi (v := v)]
  refine dft_congr (fun k hk => ?_) i
  rw [coeff_interpolate, if_pos hk, smul_inv_pow hs]

/-- `P` is the polynomial of degree less than `N` that has the values `v` on the coset of `s`. -/
def Interpolates (ω s : F) (N : ℕ) (v : ℕ → K) (P : K[X]) : Prop :=
  P.degree < N ∧ ∀ i < N, P.eval (algebraMap F K (s * ω ^ i)) = v i

/-- There is no other one. -/
theorem Interpolates.eq (hω : IsPrimitiveRoot ω N) (hs : s ≠ 0) {v : ℕ → K} (hP : Interpolates ω s N v P) :
    P = interpolate ω s N v := by
  ext k
  rw [coeff_interpolate]
  split
  · next hk =>
    rw [idft_congr fun i hi => (hP.2 i hi).symm, ← smul_coeff_eq_idft hω hP.1 s hk, smul_smul, inv_pow,
      inv_mul_cancel₀ (pow_ne_zero k hs), one_smul]
  · next hk => exact coeff_eq_zero_of_degree_lt (hP.1.trans_le (Nat.cast_le.mpr (Nat.le_of_not_lt hk)))

theorem interpolates_interpolate (hω : IsPrimitiveRoot ω N) (hs : s ≠ 0) (v : ℕ → K) :
    Interpolates ω s N v (interpolate ω s N v) :=
  ⟨degree_interpolate_lt, fun _ hi => eval_interpolate hω hs hi⟩

/-- The value at any point, from the values on the coset and the transform of the powers of the point. -/
theorem eval_interpolate_eq_sum (v : ℕ → K) (x : K) :
    (interpolate ω s N v).eval x = ∑ i ∈ range N, v i * idft ω N (fun k => (s⁻¹ • x) ^ k) i := by
  have hleft : (interpolate ω s N v).eval x =
      ∑ k ∈ range N, ∑ i ∈ range N, ((N : F)⁻¹ * ω⁻¹ ^ (k * i) * s⁻¹ ^ k) • (v i * x ^ k) := by
    simp only [interpolate, eval_finsetSum, eval_monomial, idft, smul_sum, smul_smul, sum_mul,
      smul_mul_assoc]
    exact sum_congr rfl fun k _ => sum_congr rfl fun i _ => by congr 1; ring
  have hpow (k : ℕ) : (s⁻¹ • x) ^ k = s⁻¹ ^ k • x ^ k := by
    rw [Algebra.smul_def, mul_pow, ← map_pow, ← Algebra.smul_def]
  have hright : ∑ i ∈ range N, v i * idft ω N (fun k => (s⁻¹ • x) ^ k) i =
      ∑ i ∈ range N, ∑ k ∈ range N, ((N : F)⁻¹ * ω⁻¹ ^ (k * i) * s⁻¹ ^ k) • (v i * x ^ k) := by
    simp only [idft, hpow, smul_smul, smul_sum, mul_sum, mul_smul_comm]
    exact sum_congr rfl fun i _ => sum_congr rfl fun k _ => by congr 1; rw [Nat.mul_comm i]; ring
  rw [hleft, hright, sum_comm]

end Values

/-! ## Windows of coefficients -/

section Windows

variable {K : Type*} [CommRing K] {P : K[X]} {N : ℕ}

/-- The `N` coefficients from `p * N` on. -/
noncomputable def window (P : K[X]) (N p : ℕ) : K[X] := ∑ k ∈ range N, monomial k (P.coeff (p * N + k))

theorem coeff_window (p k : ℕ) : (window P N p).coeff k = if k < N then P.coeff (p * N + k) else 0 := by
  simp only [window, finsetSum_coeff, coeff_monomial, sum_ite_eq', mem_range]

theorem degree_window_lt (p : ℕ) : (window P N p).degree < N := by
  refine (degree_lt_iff_coeff_zero _ _).mpr fun k hk => ?_
  rw [coeff_window, if_neg (Nat.not_lt.mpr hk)]

theorem coeff_X_pow_mul_window (p m : ℕ) :
    (X ^ (p * N) * window P N p).coeff m = if p * N ≤ m ∧ m < (p + 1) * N then P.coeff m else 0 := by
  rw [coeff_X_pow_mul', coeff_window, Nat.succ_mul]
  by_cases hle : p * N ≤ m
  · by_cases hlt : m < p * N + N
    · rw [if_pos hle, if_pos (by omega), if_pos ⟨hle, hlt⟩, Nat.add_sub_cancel' hle]
    · rw [if_pos hle, if_neg (by omega), if_neg fun h => hlt h.2]
  · rw [if_neg hle, if_neg fun h => hle h.1]

/-- A polynomial is put together from its windows. -/
theorem eq_sum_windows {d : ℕ} (hP : P.degree < (d * N : ℕ)) :
    P = ∑ p ∈ range d, X ^ (p * N) * window P N p := by
  ext m
  simp only [finsetSum_coeff, coeff_X_pow_mul_window]
  rcases Nat.lt_or_ge m (d * N) with hm | hm
  · have hN : 0 < N := Nat.pos_of_mul_pos_left (Nat.zero_lt_of_lt hm)
    have hmem : m / N ∈ range d := mem_range.mpr (Nat.div_lt_of_lt_mul (by rwa [Nat.mul_comm]))
    rw [sum_eq_single_of_mem (m / N) hmem, if_pos]
    · exact ⟨Nat.div_mul_le_self m N, Nat.lt_mul_of_div_lt (Nat.lt_succ_self _) hN⟩
    · intro p _ hne
      refine if_neg fun h => hne ?_
      exact (Nat.div_eq_of_lt_le h.1 h.2).symm
  · rw [coeff_eq_zero_of_degree_lt (hP.trans_le (Nat.cast_le.mpr hm))]
    refine (sum_eq_zero fun p hp => if_neg fun h => ?_).symm
    have hle : (p + 1) * N ≤ d * N := Nat.mul_le_mul_right N (mem_range.mp hp)
    omega

end Windows

end Fourier
