import Mathlib.Data.List.DropRight
import Mathlib.Data.List.GetD
import Mathlib.Tactic.Linarith
import Mathlib.Tactic.Ring

/-!
# Numbers of limbs

Numbers in a base `B` as lists of limbs, the lowest first.  The highest limb of a number is not zero, so
that a number has one list.

  1. The value of a list.
  2. Numbers.
  3. Estimates of a quotient.
-/

namespace Limbs

variable (B : ℤ)

/-! ## The value of a list -/

def value : List ℤ → ℤ
  | [] => 0
  | x :: l => x + B * value l

/-- All limbs are digits of the base. -/
def InRange (l : List ℤ) : Prop := ∀ x ∈ l, 0 ≤ x ∧ x < B

variable {B}

@[simp] theorem value_nil : value B [] = 0 := rfl

@[simp] theorem value_cons (x : ℤ) (l : List ℤ) : value B (x :: l) = x + B * value B l := rfl

theorem value_append (l m : List ℤ) : value B (l ++ m) = value B l + B ^ l.length * value B m := by
  induction l with
  | nil => rw [List.nil_append, value_nil, List.length_nil, pow_zero, one_mul, zero_add]
  | cons x l ih =>
    rw [List.cons_append, value_cons, value_cons, ih, List.length_cons, pow_succ]
    ring

@[simp] theorem inRange_nil : InRange B [] := fun _ h => absurd h List.not_mem_nil

theorem inRange_cons {x : ℤ} {l : List ℤ} : InRange B (x :: l) ↔ (0 ≤ x ∧ x < B) ∧ InRange B l :=
  List.forall_mem_cons

theorem inRange_append {l m : List ℤ} : InRange B (l ++ m) ↔ InRange B l ∧ InRange B m :=
  List.forall_mem_append

theorem InRange.of_sublist {l m : List ℤ} (h : InRange B m) (hsub : l.Sublist m) : InRange B l :=
  fun x hx => h x (hsub.subset hx)

theorem value_nonneg {l : List ℤ} (h : InRange B l) : 0 ≤ value B l := by
  induction l with
  | nil => exact le_rfl
  | cons x l ih =>
    obtain ⟨⟨h0, hlt⟩, hl⟩ := inRange_cons.mp h
    exact add_nonneg h0 (mul_nonneg (h0.trans hlt.le) (ih hl))

theorem value_lt {l : List ℤ} (h : InRange B l) : value B l < B ^ l.length := by
  induction l with
  | nil =>
    rw [value_nil, List.length_nil, pow_zero]
    exact Int.one_pos
  | cons x l ih =>
    obtain ⟨⟨h0, hlt⟩, hl⟩ := inRange_cons.mp h
    have hB : 0 ≤ B := h0.trans hlt.le
    have hle : value B l + 1 ≤ B ^ l.length := ih hl
    calc value B (x :: l) < B + B * value B l := add_lt_add_left hlt _
      _ = B * (value B l + 1) := by ring
      _ ≤ B * B ^ l.length := mul_le_mul_of_nonneg_left hle hB
      _ = B ^ (x :: l).length := by rw [List.length_cons, pow_succ']

theorem value_drop_succ (l : List ℤ) (j : ℕ) :
    value B (l.drop j) = l.getD j 0 + B * value B (l.drop (j + 1)) := by
  rcases Nat.lt_or_ge j l.length with hlt | hge
  · rw [List.drop_eq_getElem_cons hlt, value_cons, List.getD_eq_getElem _ _ hlt]
  · rw [List.drop_eq_nil_of_le hge, List.drop_eq_nil_of_le (by omega), List.getD_eq_default _ _ hge,
      value_nil, mul_zero, add_zero]

theorem InRange.getD (hB : 0 < B) {l : List ℤ} (h : InRange B l) (j : ℕ) : 0 ≤ l.getD j 0 ∧ l.getD j 0 < B := by
  rcases Nat.lt_or_ge j l.length with hlt | hge
  · rw [List.getD_eq_getElem _ _ hlt]
    exact h _ (List.getElem_mem hlt)
  · rw [List.getD_eq_default _ _ hge]
    exact ⟨le_rfl, hB⟩

/-- A list cut at a limb: the value of the part above it is a quotient. -/
theorem value_drop (hB : 0 < B) {l : List ℤ} (h : InRange B l) (j : ℕ) :
    value B (l.drop j) = value B l / B ^ j := by
  induction j with
  | zero => rw [List.drop_zero, pow_zero, Int.ediv_one]
  | succ j ih =>
    obtain ⟨h0, hlt⟩ := h.getD hB j
    rw [pow_succ, ← Int.ediv_ediv_of_nonneg (pow_nonneg hB.le j), ← ih, value_drop_succ l j,
      Int.add_mul_ediv_left _ _ hB.ne', Int.ediv_eq_zero_of_lt h0 hlt, zero_add]

/-- The limb itself. -/
theorem getD_eq (hB : 0 < B) {l : List ℤ} (h : InRange B l) (j : ℕ) :
    l.getD j 0 = value B l / B ^ j % B := by
  obtain ⟨h0, hlt⟩ := h.getD hB j
  rw [← value_drop hB h, value_drop_succ, Int.add_mul_emod_self_left, Int.emod_eq_of_lt h0 hlt]

theorem value_drop_antitone (hB : 0 < B) {l : List ℤ} (h : InRange B l) {i j : ℕ} (hij : i ≤ j) :
    value B (l.drop j) ≤ value B (l.drop i) := by
  induction j, hij using Nat.le_induction with
  | base => exact le_rfl
  | succ j _ ih =>
    obtain ⟨h0, -⟩ := h.getD hB j
    have hnonneg := value_nonneg (h.of_sublist (List.drop_sublist (j + 1) l))
    rw [value_drop_succ l j] at ih
    nlinarith

/-! ## Numbers -/

variable (B) in
/-- A list of limbs without leading zeros. -/
structure Number (l : List ℤ) : Prop where
  inRange : InRange B l
  trimmed : l.getLast? ≠ some 0

theorem number_nil : Number B [] := ⟨inRange_nil, Option.some_ne_none 0 |>.symm⟩

theorem Number.last {l : List ℤ} {x : ℤ} (h : Number B (l ++ [x])) : 0 < x ∧ x < B := by
  obtain ⟨h0, hlt⟩ := (inRange_append.mp h.inRange).2 x List.mem_cons_self
  have hne := h.trimmed
  rw [List.getLast?_concat] at hne
  exact ⟨lt_of_le_of_ne h0 fun heq => hne (congrArg some heq.symm), hlt⟩

theorem Number.of_cons {x : ℤ} {l : List ℤ} (h : Number B (x :: l)) : Number B l := by
  refine ⟨(inRange_cons.mp h.inRange).2, fun hlast => h.trimmed ?_⟩
  cases l with
  | nil => cases hlast
  | cons y l => rwa [List.getLast?_cons_cons]

theorem Number.cons {x : ℤ} {l : List ℤ} (h : Number B l) (hne : l ≠ []) (hx : 0 ≤ x ∧ x < B) :
    Number B (x :: l) := by
  refine ⟨inRange_cons.mpr ⟨hx, h.inRange⟩, fun hlast => h.trimmed ?_⟩
  cases l with
  | nil => exact absurd rfl hne
  | cons y l => rwa [List.getLast?_cons_cons] at hlast

theorem Number.drop {l : List ℤ} (h : Number B l) (j : ℕ) : Number B (l.drop j) := by
  induction j generalizing l with
  | zero => exact h
  | succ j ih =>
    cases l with
    | nil => exact number_nil
    | cons x l => exact ih h.of_cons

theorem Number.pow_le_value {l : List ℤ} (h : Number B l) (hne : l ≠ []) : B ^ (l.length - 1) ≤ value B l := by
  obtain ⟨l, x, rfl⟩ := (List.eq_nil_or_concat' l).resolve_left hne
  obtain ⟨hpos, hlt⟩ := h.last
  have hnonneg := value_nonneg (inRange_append.mp h.inRange).1
  have hpow : 0 ≤ B ^ l.length := pow_nonneg (hpos.le.trans hlt.le) _
  rw [value_append, List.length_append, List.length_singleton, Nat.add_sub_cancel, value_cons, value_nil,
    mul_zero, add_zero]
  calc B ^ l.length = 0 + B ^ l.length * 1 := by rw [zero_add, mul_one]
    _ ≤ value B l + B ^ l.length * x := add_le_add hnonneg (mul_le_mul_of_nonneg_left hpos hpow)

theorem Number.value_pos (hB : 0 < B) {l : List ℤ} (h : Number B l) (hne : l ≠ []) : 0 < value B l :=
  (pow_pos hB _).trans_le (h.pow_le_value hne)

/-- A longer list stands for a larger number. -/
theorem Number.value_lt_of_length (hB : 1 < B) {l m : List ℤ} (hl : InRange B l) (hm : Number B m)
    (h : l.length < m.length) : value B l < value B m :=
  calc value B l < B ^ l.length := value_lt hl
    _ ≤ B ^ (m.length - 1) := pow_le_pow_right₀ hB.le (by omega)
    _ ≤ value B m := hm.pow_le_value (List.ne_nil_of_length_pos (by omega))

theorem Number.length_le (hB : 1 < B) {l m : List ℤ} (hl : Number B l) (hm : InRange B m)
    (h : value B l ≤ value B m) : l.length ≤ m.length := by
  by_contra hlt
  exact absurd (Number.value_lt_of_length hB hm hl (by omega)) h.not_gt

/-- A number has one list. -/
theorem Number.eq_of_value (hB : 1 < B) {l m : List ℤ} (hl : Number B l) (hm : Number B m)
    (h : value B l = value B m) : l = m := by
  induction l generalizing m with
  | nil =>
    by_contra hne
    exact absurd h (hm.value_pos (by omega) (Ne.symm hne)).ne
  | cons x l ih =>
    cases m with
    | nil => exact absurd h (hl.value_pos (by omega) (List.cons_ne_nil x l)).ne'
    | cons y m =>
      obtain ⟨hx0, hx⟩ := (inRange_cons.mp hl.inRange).1
      obtain ⟨hy0, hy⟩ := (inRange_cons.mp hm.inRange).1
      rw [value_cons, value_cons] at h
      have hlow : x = y := by
        calc x = (x + B * value B l) % B := by rw [Int.add_mul_emod_self_left, Int.emod_eq_of_lt hx0 hx]
          _ = (y + B * value B m) % B := by rw [h]
          _ = y := by rw [Int.add_mul_emod_self_left, Int.emod_eq_of_lt hy0 hy]
      subst hlow
      have hhigh : value B l = value B m := by
        have hmul : B * value B l = B * value B m := by linarith
        exact mul_left_cancel₀ (by omega) hmul
      rw [ih hl.of_cons hm.of_cons hhigh]

/-! ## Estimates of a quotient -/

/-- The quotient of the high parts, of which only the divisor's is cut, is not too small. -/
theorem quotient_le_estimate {P U v D bm dl : ℤ} (hbm : 0 < bm) (hP : 0 < P) (hv : v < P) (hdl : 0 ≤ dl)
    (hD : D = dl + P * bm) (hU : 0 ≤ U) : (v + P * U) / D ≤ U / bm := by
  have hDpos : 0 < D := by
    rw [hD]
    exact add_pos_of_nonneg_of_pos hdl (mul_pos hP hbm)
  have hmod := Int.lt_ediv_add_one_mul_self U hbm
  have hlt : (v + P * U) / D < U / bm + 1 := by
    apply Int.ediv_lt_of_lt_mul hDpos
    have hq : 0 ≤ U / bm + 1 := by
      have := Int.ediv_nonneg hU hbm.le
      omega
    have hU1 : U + 1 ≤ (U / bm + 1) * bm := hmod
    calc v + P * U < P + P * U := add_lt_add_left hv _
      _ = P * (U + 1) := by ring
      _ ≤ P * ((U / bm + 1) * bm) := mul_le_mul_of_nonneg_left hU1 hP.le
      _ = (U / bm + 1) * (P * bm) := by ring
      _ ≤ (U / bm + 1) * D := mul_le_mul_of_nonneg_left (by rw [hD]; omega) hq
  omega

/-- If the divisor's high part is at least half of the base, an estimate is at most two too large. -/
theorem estimate_le_quotient {P U v D bm dl q : ℤ} (hP : 0 < P) (hv : 0 ≤ v) (hdl0 : 0 ≤ dl) (hdl : dl < P)
    (hD : D = dl + P * bm) (hbm : 0 < bm) (hq0 : 0 ≤ q) (hqU : q * bm ≤ U) (hq : q < 2 * bm) :
    q ≤ (v + P * U) / D + 2 := by
  have hDpos : 0 < D := by
    rw [hD]
    exact add_pos_of_nonneg_of_pos hdl0 (mul_pos hP hbm)
  have hle : q - 2 ≤ (v + P * U) / D := by
    apply Int.le_ediv_of_mul_le hDpos
    have hqdl : q * dl ≤ q * P := mul_le_mul_of_nonneg_left hdl.le hq0
    have hqP : q * P ≤ 2 * bm * P := mul_le_mul_of_nonneg_right hq.le hP.le
    have hPU : P * (q * bm) ≤ P * U := mul_le_mul_of_nonneg_left hqU hP.le
    rw [hD]
    nlinarith
  omega

end Limbs
