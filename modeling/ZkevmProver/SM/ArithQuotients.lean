import ZkevmProver.ECRecover.PointEcSpec
import ZkevmProver.SM.ArithEquations

/-!
# The quotients fit

What the main executor checks makes every equation hold modulo its prime.  The quotients with their
offsets are then not negative, and have at most 260 bits.

  1. Accepted actions.
  2. A quotient.
  3. The quotients of an accepted action.
  4. Prepared actions.
-/

namespace ZkevmProver

open ArithExecutor

/-! ## Accepted actions -/

namespace ArithAction

/-- The operands are registers. -/
structure Below (a : ArithAction) : Prop where
  x1 : a.x1 < 2 ^ 256
  y1 : a.y1 < 2 ^ 256
  x2 : a.x2 < 2 ^ 256
  y2 : a.y2 < 2 ^ 256
  x3 : a.x3 < 2 ^ 256
  y3 : a.y3 < 2 ^ 256

/-- The third point on a line of slope `s`, reflected. -/
def OnLine (a : ArithAction) (s : Fec) : Prop :=
  a.x3 = toMpz (s * s - (a.x1 + a.x2)) ∧ a.y3 = toMpz ((a.x1 - a.x3) * s - a.y1)

/-- The actions that the main executor hands over, with what it has checked. -/
inductive Accepted (a : ArithAction) : Prop where
  | product (hsel : a.selEq = ![1, 0, 0, 0, 0, 0, 0])
      (heq : a.x1 * a.y1 + a.x2 = a.y2 * 2 ^ 256 + a.y3)
  | sum (hsel : a.selEq = ![0, 1, 0, 1, 0, 0, 0]) (hne : (a.x2 : Fec) - a.x1 ≠ 0)
      (hline : a.OnLine ((a.y2 - a.y1) / (a.x2 - a.x1)))
  /-- The first sum of a run, of two zero points. -/
  | zeros (hsel : a.selEq = ![0, 1, 0, 1, 0, 0, 0]) (hx : (a.x2 : Fec) - a.x1 = 0)
  | double (hsel : a.selEq = ![0, 0, 1, 1, 0, 0, 0]) (hne : (a.y1 : Fec) + a.y1 ≠ 0)
      (hline : a.OnLine (a.x1 * a.x1 * 3 / (a.y1 + a.y1)))
  | complexMul (hsel : a.selEq = ![0, 0, 0, 0, 1, 0, 0])
      (hx : (a.x3 : ZMod pBN254) = a.x1 * a.x2 - a.y1 * a.y2)
      (hy : (a.y3 : ZMod pBN254) = a.y1 * a.x2 + a.x1 * a.y2)
  | complexAdd (hsel : a.selEq = ![0, 0, 0, 0, 0, 1, 0]) (hx : (a.x3 : ZMod pBN254) = a.x1 + a.x2)
      (hy : (a.y3 : ZMod pBN254) = a.y1 + a.y2)
  | complexSub (hsel : a.selEq = ![0, 0, 0, 0, 0, 0, 1]) (hx : (a.x3 : ZMod pBN254) = a.x1 - a.x2)
      (hy : (a.y3 : ZMod pBN254) = a.y1 - a.y2)

end ArithAction

/-! ## A quotient -/

section Quotient

variable {pq offset : ℤ} {p : ℕ}

/-- A product of factors below a bound and `2 ^ 256`. -/
theorem product_bounds {m n M : ℕ} (hm : m < M) (hn : n < 2 ^ 256) :
    0 ≤ (m : ℤ) * n ∧ (m : ℤ) * n ≤ M * 2 ^ 256 :=
  ⟨Int.mul_nonneg (Int.natCast_nonneg m) (Int.natCast_nonneg n),
    by exact_mod_cast Nat.mul_le_mul hm.le hn.le⟩

/-- A multiple of the prime within the bounds has a quotient that fits. -/
theorem quotient_spec {negated : Bool} (hp : 0 < p) (hdvd : (p : ℤ) ∣ pq)
    (hlow : 0 ≤ (if negated then -pq else pq) + p * offset)
    (hhigh : (if negated then -pq else pq) + p * offset < p * (2 ^ 256 * 16)) :
    ∃ q : ℕ, quotient negated pq p offset = some (q : ℤ) ∧ q < 2 ^ 256 * 16 ∧
      (if negated then pq + p * q - p * offset else pq - p * q + p * offset) = 0 := by
  obtain ⟨t, rfl⟩ := hdvd
  have hp' : (0 : ℤ) < p := Int.natCast_pos.mpr hp
  have ht : (p * t).tdiv (p : ℤ) = t := Int.mul_tdiv_cancel_left t hp'.ne'
  have hmul : (if negated = true then -((p : ℤ) * t) else p * t) + p * offset =
      p * ((if negated = true then -t else t) + offset) := by
    split <;> ring
  rw [hmul] at hlow hhigh
  have hnonneg := nonneg_of_mul_nonneg_right hlow hp'
  have hlt := lt_of_mul_lt_mul_left hhigh hp'.le
  obtain ⟨q, hq⟩ := Int.eq_ofNat_of_zero_le hnonneg
  refine ⟨q, ?_, by omega, ?_⟩
  · unfold quotient
    dsimp only
    rw [ht, if_neg (by split <;> simp), hq, if_neg (by omega)]
  · rw [← hq]
    split <;> ring

theorem quotient_pos (pq offset : ℤ) (hp : 0 < p) (hdvd : (p : ℤ) ∣ pq) (hlow : 0 ≤ pq + p * offset)
    (hhigh : pq + p * offset < p * (2 ^ 256 * 16)) :
    ∃ q : ℕ, quotient false pq p offset = some (q : ℤ) ∧ q < 2 ^ 256 * 16 ∧
      pq - p * q + p * offset = 0 := quotient_spec hp hdvd hlow hhigh

theorem quotient_neg (pq offset : ℤ) (hp : 0 < p) (hdvd : (p : ℤ) ∣ pq) (hlow : 0 ≤ -pq + p * offset)
    (hhigh : -pq + p * offset < p * (2 ^ 256 * 16)) :
    ∃ q : ℕ, quotient true pq p offset = some (q : ℤ) ∧ q < 2 ^ 256 * 16 ∧
      pq + p * q - p * offset = 0 := quotient_spec hp hdvd hlow hhigh

end Quotient

/-! ## The quotients of an accepted action -/

/-- The slope and the quotients that are computed: they fit, and solve the selected equations, which
have a carry each. -/
structure ArithAction.Solution (a : ArithAction) (s : Fec) (q0 q1 q2 : ℕ) : Prop where
  slope : ArithExecutor.slope a = some (s, ↑q0)
  quotients : quotients a s = some (↑q1, ↑q2)
  lt0 : q0 < 2 ^ 256 * 16
  lt1 : q1 < 2 ^ 256 * 16
  lt2 : q2 < 2 ^ 256 * 16
  equations : ∃ ks : List (Fin 11),
    (∀ row : ArithRow, (∀ k, row.selEq k = fromU64 (a.selEq k)) → eqIndexes row = ks) ∧
      (ks.map eqIndexToCarryIndex).Nodup ∧
        ∀ k ∈ ks, a.equation (toMpz s) q0 q1 q2 k = 0

section Solutions

variable {a : ArithAction}

/-- Which equations are selected. -/
theorem eqIndexes_eq {sel : Fin 7 → ℕ} {ks : List (Fin 11)} (hsel : a.selEq = sel)
    (hks : eqIndexes { selEq := fun k => fromU64 (sel k) } = ks) (row : ArithRow)
    (hrow : ∀ k, row.selEq k = fromU64 (a.selEq k)) : eqIndexes row = ks := by
  rw [← hks, ← hsel]
  unfold eqIndexes
  simp only [hrow]

theorem fpec_pos : 0 < FPEC := by decide

theorem pBN254_pos : 0 < pBN254 := by decide

theorem fec_dvd {z : ℤ} (h : (z : Fec) = 0) : (FPEC : ℤ) ∣ z :=
  (ZMod.intCast_zmod_eq_zero_iff_dvd z FPEC).mp h

theorem fq_dvd {z : ℤ} (h : (z : ZMod pBN254) = 0) : (pBN254 : ℤ) ∣ z :=
  (ZMod.intCast_zmod_eq_zero_iff_dvd z pBN254).mp h

theorem natCast_toMpz (s : Fec) : ((toMpz s : ℕ) : Fec) = s := fromMpz_toMpz s

/-- A product with a sum, and complex numbers: no slope. -/
theorem slope_zero (h1 : a.selEq1 = 0) (h2 : a.selEq2 = 0) : ArithExecutor.slope a = some (0, 0) := by
  unfold ArithExecutor.slope
  rw [h1, h2]
  rfl

theorem solution_product (hsel : a.selEq = ![1, 0, 0, 0, 0, 0, 0])
    (heq : a.x1 * a.y1 + a.x2 = a.y2 * 2 ^ 256 + a.y3) :
    ∃ s q0 q1 q2, a.Solution s q0 q1 q2 := by
  have h3 : a.selEq3 = 0 := congrFun hsel 3
  have h4 : a.selEq4 = 0 := congrFun hsel 4
  have h5 : a.selEq5 = 0 := congrFun hsel 5
  have h6 : a.selEq6 = 0 := congrFun hsel 6
  refine ⟨0, 0, 0, 0, slope_zero (congrFun hsel 1) (congrFun hsel 2), ?_, by decide, by decide,
    by decide, [0], eqIndexes_eq hsel (by decide), by decide, ?_⟩
  · unfold quotients
    rw [h3, h4, h5, h6]
    rfl
  · simp only [List.mem_singleton, forall_eq]
    have heq' : (a.x1 : ℤ) * a.y1 + a.x2 = a.y2 * 2 ^ 256 + a.y3 := by exact_mod_cast heq
    show (a.x1 : ℤ) * a.y1 - 2 ^ 256 * a.y2 + a.x2 - a.y3 = 0
    linear_combination heq'

variable (hbelow : a.Below)
include hbelow

/-- The third point of a line gives `q1` and `q2`. -/
theorem quotients_line {s : Fec} (hsel : a.selEq3 = 1) (hline : a.OnLine s) :
    ∃ q1 q2 : ℕ, quotients a s = some (↑q1, ↑q2) ∧ q1 < 2 ^ 256 * 16 ∧ q2 < 2 ^ 256 * 16 ∧
      a.equation (toMpz s) 0 q1 q2 3 = 0 ∧ a.equation (toMpz s) 0 q1 q2 4 = 0 := by
  obtain ⟨hx3, hy3⟩ := hline
  have hx3' : (a.x3 : Fec) = s * s - (a.x1 + a.x2) := by rw [hx3, natCast_toMpz]
  have hy3' : (a.y3 : Fec) = (a.x1 - a.x3) * s - a.y1 := by rw [hy3, natCast_toMpz]
  have hs := toMpz_lt s
  have hss := product_bounds hs (hs.trans (by decide))
  have hsx1 := product_bounds hs hbelow.x1
  have hsx3 := product_bounds hs hbelow.x3
  have hF : (FPEC : ℤ) = 0xFFFFFFFFFFFFFFFFFFFFFFFFFFFFFFFFFFFFFFFFFFFFFFFFFFFFFFFEFFFFFC2F := rfl
  obtain ⟨hx1b, hy1b, hx2b, hy2b, hx3b, hy3b⟩ := hbelow
  obtain ⟨q1, hq1, hlt1, heq1⟩ := quotient_pos
    ((toMpz s : ℤ) * toMpz s - a.x1 - a.x2 - a.x3) 4 fpec_pos (fec_dvd (by
      push_cast
      rw [natCast_toMpz]
      linear_combination -hx3')) (by omega) (by omega)
  obtain ⟨q2, hq2, hlt2, heq2⟩ := quotient_neg
    ((toMpz s : ℤ) * a.x1 - toMpz s * a.x3 - a.y1 - a.y3) (2 * 2 ^ 256) fpec_pos
    (fec_dvd (by
      push_cast
      rw [natCast_toMpz]
      linear_combination -hy3')) (by omega) (by omega)
  refine ⟨q1, q2, ?_, hlt1, hlt2, heq1, heq2⟩
  unfold quotients
  dsimp only
  rw [if_pos hsel, hq1, hq2]
  rfl

theorem solution_sum (hsel : a.selEq = ![0, 1, 0, 1, 0, 0, 0]) (hne : (a.x2 : Fec) - a.x1 ≠ 0)
    (hline : a.OnLine ((a.y2 - a.y1) / (a.x2 - a.x1))) :
    ∃ s q0 q1 q2, a.Solution s q0 q1 q2 := by
  obtain ⟨q1, q2, hq, hlt1, hlt2, heq3, heq4⟩ := quotients_line hbelow (congrFun hsel 3) hline
  have hs := div_mul_cancel₀ ((a.y2 : Fec) - a.y1) hne
  generalize hslope : ((a.y2 : Fec) - a.y1) / (a.x2 - a.x1) = s at *
  have hlt := toMpz_lt s
  have hsx1 := product_bounds hlt hbelow.x1
  have hsx2 := product_bounds hlt hbelow.x2
  have hF : (FPEC : ℤ) = 0xFFFFFFFFFFFFFFFFFFFFFFFFFFFFFFFFFFFFFFFFFFFFFFFFFFFFFFFEFFFFFC2F := rfl
  obtain ⟨-, hy1, -, hy2, -, -⟩ := hbelow
  obtain ⟨q0, hq0, hlt0, heq1⟩ := quotient_pos
    ((toMpz s : ℤ) * a.x2 - toMpz s * a.x1 - a.y2 + a.y1) (2 * 2 ^ 256) fpec_pos (fec_dvd (by
      push_cast
      rw [natCast_toMpz]
      linear_combination hs)) (by omega) (by omega)
  refine ⟨s, q0, q1, q2, ?_, hq, hlt0, hlt1, hlt2, [1, 3, 4], eqIndexes_eq hsel (by decide),
    by decide, ?_⟩
  · unfold ArithExecutor.slope fromMpz
    dsimp only
    have hsel1 : a.selEq1 = 1 := congrFun hsel 1
    rw [hsel1, if_pos rfl, if_neg hne, hslope, hq0]
    rfl
  · simp only [List.mem_cons, List.not_mem_nil, or_false, forall_eq_or_imp, forall_eq]
    exact ⟨heq1, heq3, heq4⟩

theorem solution_double (hsel : a.selEq = ![0, 0, 1, 1, 0, 0, 0]) (hne : (a.y1 : Fec) + a.y1 ≠ 0)
    (hline : a.OnLine (a.x1 * a.x1 * 3 / (a.y1 + a.y1))) :
    ∃ s q0 q1 q2, a.Solution s q0 q1 q2 := by
  obtain ⟨q1, q2, hq, hlt1, hlt2, heq3, heq4⟩ := quotients_line hbelow (congrFun hsel 3) hline
  have hs := div_mul_cancel₀ ((a.x1 : Fec) * a.x1 * 3) hne
  generalize hslope : (a.x1 : Fec) * a.x1 * 3 / (a.y1 + a.y1) = s at *
  have hsy1 := product_bounds (toMpz_lt s) hbelow.y1
  have hxx := product_bounds hbelow.x1 hbelow.x1
  have hF : (FPEC : ℤ) = 0xFFFFFFFFFFFFFFFFFFFFFFFFFFFFFFFFFFFFFFFFFFFFFFFFFFFFFFFEFFFFFC2F := rfl
  have htwo : (toMpz s : ℤ) * 2 * a.y1 = 2 * (toMpz s * a.y1) := by ring
  have hthree : (3 : ℤ) * a.x1 * a.x1 = 3 * (a.x1 * a.x1) := by ring
  obtain ⟨q0, hq0, hlt0, heq2⟩ := quotient_neg
    ((toMpz s : ℤ) * 2 * a.y1 - 3 * a.x1 * a.x1) (4 * 2 ^ 256) fpec_pos (fec_dvd (by
      push_cast
      rw [natCast_toMpz]
      linear_combination hs)) (by push_cast at hxx; omega) (by push_cast at hxx; omega)
  refine ⟨s, q0, q1, q2, ?_, hq, hlt0, hlt1, hlt2, [2, 3, 4], eqIndexes_eq hsel (by decide),
    by decide, ?_⟩
  · unfold ArithExecutor.slope fromMpz
    dsimp only
    have hsel1 : a.selEq1 = 0 := congrFun hsel 1
    have hsel2 : a.selEq2 = 1 := congrFun hsel 2
    rw [hsel1, hsel2, if_neg Nat.zero_ne_one, if_pos rfl, hslope, hq0]
    rfl
  · simp only [List.mem_cons, List.not_mem_nil, or_false, forall_eq_or_imp, forall_eq]
    refine ⟨?_, heq3, heq4⟩
    rw [← heq2]
    unfold ArithAction.equation
    ring

theorem solution_complexMul (hsel : a.selEq = ![0, 0, 0, 0, 1, 0, 0])
    (hx : (a.x3 : ZMod pBN254) = a.x1 * a.x2 - a.y1 * a.y2)
    (hy : (a.y3 : ZMod pBN254) = a.y1 * a.x2 + a.x1 * a.y2) :
    ∃ s q0 q1 q2, a.Solution s q0 q1 q2 := by
  have h3 : a.selEq3 = 0 := congrFun hsel 3
  have h4 : a.selEq4 = 1 := congrFun hsel 4
  have hxx := product_bounds hbelow.x1 hbelow.x2
  have hyy := product_bounds hbelow.y1 hbelow.y2
  have hyx := product_bounds hbelow.y1 hbelow.x2
  have hxy := product_bounds hbelow.x1 hbelow.y2
  have hp : (pBN254 : ℤ) = 0x30644E72E131A029B85045B68181585D97816A916871CA8D3C208C16D87CFD47 := rfl
  obtain ⟨-, -, -, -, hx3, hy3⟩ := hbelow
  push_cast at hxx hyy hyx hxy
  obtain ⟨q1, hq1, hlt1, heq1⟩ := quotient_neg
    ((a.x1 : ℤ) * a.x2 - a.y1 * a.y2 - a.x3) (8 * 2 ^ 256) pBN254_pos (fq_dvd (by
      push_cast
      linear_combination -hx)) (by omega) (by omega)
  obtain ⟨q2, hq2, hlt2, heq2⟩ := quotient_pos
    ((a.y1 : ℤ) * a.x2 + a.x1 * a.y2 - a.y3) 8 pBN254_pos (fq_dvd (by
      push_cast
      linear_combination -hy)) (by omega) (by omega)
  refine ⟨0, 0, q1, q2, slope_zero (congrFun hsel 1) (congrFun hsel 2), ?_, by decide, hlt1, hlt2,
    [5, 6], eqIndexes_eq hsel (by decide), by decide, ?_⟩
  · unfold quotients
    dsimp only
    rw [h3, h4, if_neg Nat.zero_ne_one, if_pos rfl, hq1, hq2]
    rfl
  · simp only [List.mem_cons, List.not_mem_nil, or_false, forall_eq_or_imp, forall_eq]
    exact ⟨heq1, heq2⟩

theorem solution_complexAdd (hsel : a.selEq = ![0, 0, 0, 0, 0, 1, 0])
    (hx : (a.x3 : ZMod pBN254) = a.x1 + a.x2) (hy : (a.y3 : ZMod pBN254) = a.y1 + a.y2) :
    ∃ s q0 q1 q2, a.Solution s q0 q1 q2 := by
  have h3 : a.selEq3 = 0 := congrFun hsel 3
  have h4 : a.selEq4 = 0 := congrFun hsel 4
  have h5 : a.selEq5 = 1 := congrFun hsel 5
  have hp : (pBN254 : ℤ) = 0x30644E72E131A029B85045B68181585D97816A916871CA8D3C208C16D87CFD47 := rfl
  obtain ⟨hx1, hy1, hx2, hy2, hx3, hy3⟩ := hbelow
  obtain ⟨q1, hq1, hlt1, heq1⟩ := quotient_pos ((a.x1 : ℤ) + a.x2 - a.x3) 8 pBN254_pos
    (fq_dvd (by
      push_cast
      linear_combination -hx)) (by omega) (by omega)
  obtain ⟨q2, hq2, hlt2, heq2⟩ := quotient_pos ((a.y1 : ℤ) + a.y2 - a.y3) 8 pBN254_pos
    (fq_dvd (by
      push_cast
      linear_combination -hy)) (by omega) (by omega)
  refine ⟨0, 0, q1, q2, slope_zero (congrFun hsel 1) (congrFun hsel 2), ?_, by decide, hlt1, hlt2,
    [7, 8], eqIndexes_eq hsel (by decide), by decide, ?_⟩
  · unfold quotients
    dsimp only
    rw [h3, h4, h5, if_neg Nat.zero_ne_one, if_neg Nat.zero_ne_one, if_pos rfl, hq1, hq2]
    rfl
  · simp only [List.mem_cons, List.not_mem_nil, or_false, forall_eq_or_imp, forall_eq]
    exact ⟨heq1, heq2⟩

theorem solution_complexSub (hsel : a.selEq = ![0, 0, 0, 0, 0, 0, 1])
    (hx : (a.x3 : ZMod pBN254) = a.x1 - a.x2) (hy : (a.y3 : ZMod pBN254) = a.y1 - a.y2) :
    ∃ s q0 q1 q2, a.Solution s q0 q1 q2 := by
  have h3 : a.selEq3 = 0 := congrFun hsel 3
  have h4 : a.selEq4 = 0 := congrFun hsel 4
  have h5 : a.selEq5 = 0 := congrFun hsel 5
  have h6 : a.selEq6 = 1 := congrFun hsel 6
  have hp : (pBN254 : ℤ) = 0x30644E72E131A029B85045B68181585D97816A916871CA8D3C208C16D87CFD47 := rfl
  obtain ⟨hx1, hy1, hx2, hy2, hx3, hy3⟩ := hbelow
  obtain ⟨q1, hq1, hlt1, heq1⟩ := quotient_neg ((a.x1 : ℤ) - a.x2 - a.x3) 8 pBN254_pos
    (fq_dvd (by
      push_cast
      linear_combination -hx)) (by omega) (by omega)
  obtain ⟨q2, hq2, hlt2, heq2⟩ := quotient_neg ((a.y1 : ℤ) - a.y2 - a.y3) 8 pBN254_pos
    (fq_dvd (by
      push_cast
      linear_combination -hy)) (by omega) (by omega)
  refine ⟨0, 0, q1, q2, slope_zero (congrFun hsel 1) (congrFun hsel 2), ?_, by decide, hlt1, hlt2,
    [9, 10], eqIndexes_eq hsel (by decide), by decide, ?_⟩
  · unfold quotients
    dsimp only
    rw [h3, h4, h5, h6, if_neg Nat.zero_ne_one, if_neg Nat.zero_ne_one, if_neg Nat.zero_ne_one,
      if_pos rfl, hq1, hq2]
    rfl
  · simp only [List.mem_cons, List.not_mem_nil, or_false, forall_eq_or_imp, forall_eq]
    exact ⟨heq1, heq2⟩

end Solutions

/-! ## Prepared actions -/

section Prepared

variable {a : ArithAction} {s : Fec} {q0 q1 q2 : ℕ}

/-- The chunks of a prepared action. -/
theorem ArithAction.Solution.prepare (h : a.Solution s q0 q1 q2) (hbelow : a.Below) :
    ∃ input, prepare a = some input ∧ input.toArithAction = a ∧
      ∀ row, (columns input row).Holds a (toMpz s) q0 q1 q2 := by
  have hsmall {n : ℕ} (hn : n < 2 ^ 256) : n < 2 ^ 256 * 16 := hn.trans (by decide)
  obtain ⟨x1, hx1, hx1c⟩ := scalar2ba16_spec (hsmall hbelow.x1)
  obtain ⟨y1, hy1, hy1c⟩ := scalar2ba16_spec (hsmall hbelow.y1)
  obtain ⟨x2, hx2, hx2c⟩ := scalar2ba16_spec (hsmall hbelow.x2)
  obtain ⟨y2, hy2, hy2c⟩ := scalar2ba16_spec (hsmall hbelow.y2)
  obtain ⟨x3, hx3, hx3c⟩ := scalar2ba16_spec (hsmall hbelow.x3)
  obtain ⟨y3, hy3, hy3c⟩ := scalar2ba16_spec (hsmall hbelow.y3)
  obtain ⟨cs, hs, hsc⟩ := scalar2ba16_spec (hsmall ((toMpz_lt s).trans (by decide)))
  obtain ⟨c0, hq0, hq0c⟩ := scalar2ba16_spec h.lt0
  obtain ⟨c1, hq1, hq1c⟩ := scalar2ba16_spec h.lt1
  obtain ⟨c2, hq2, hq2c⟩ := scalar2ba16_spec h.lt2
  refine ⟨⟨a, x1, y1, x2, y2, x3, y3, cs, c0, c1, c2⟩, ?_, rfl, fun row =>
    ⟨hx1c, hy1c, hx2c, hy2c, hx3c, hy3c, hsc, hq0c, hq1c, hq2c, fun _ => rfl⟩⟩
  unfold ArithExecutor.prepare
  rw [hx1, hy1, hx2, hy2, hx3, hy3, h.slope]
  dsimp only [Option.bind_eq_bind, Option.bind_some]
  rw [h.quotients]
  dsimp only [Option.bind_some]
  rw [hs, Int.toNat_natCast, Int.toNat_natCast, Int.toNat_natCast, hq0, hq1, hq2]
  rfl

/-- The zero points have no slope. -/
theorem prepare_zeros (hsel : a.selEq1 = 1) (hx : (a.x2 : Fec) - a.x1 = 0) :
    ArithExecutor.prepare a = none := by
  have hslope : ArithExecutor.slope a = none := by
    unfold ArithExecutor.slope fromMpz
    dsimp only
    rw [hsel, if_pos rfl, if_pos hx]
  unfold ArithExecutor.prepare
  rw [hslope]
  simp only [Option.bind_eq_bind, Option.bind_none, Option.bind_fun_none]

/-- The quotients of all other accepted actions fit. -/
theorem ArithAction.Accepted.solution (h : a.Accepted) (hbelow : a.Below)
    (hne : a.selEq1 = 1 → (a.x2 : Fec) - a.x1 ≠ 0) : ∃ s q0 q1 q2, a.Solution s q0 q1 q2 := by
  cases h with
  | product hsel heq => exact solution_product hsel heq
  | sum hsel hne hline => exact solution_sum hbelow hsel hne hline
  | zeros hsel hx => exact absurd hx (hne (congrFun hsel 1))
  | double hsel hne hline => exact solution_double hbelow hsel hne hline
  | complexMul hsel hx hy => exact solution_complexMul hbelow hsel hx hy
  | complexAdd hsel hx hy => exact solution_complexAdd hbelow hsel hx hy
  | complexSub hsel hx hy => exact solution_complexSub hbelow hsel hx hy

end Prepared

end ZkevmProver
