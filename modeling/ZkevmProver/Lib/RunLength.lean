import Mathlib.Data.List.Induction
import Mathlib.Data.List.Perm.Basic
import Mathlib.Tactic.Common

/-!
# Lists of repeated elements

Lists in which element `g i` stands `c i` times, in the order of the numbers `i`; and lists that take their
elements from two others in turn.

  1. Runs.
  2. Interleaving.
  3. Last occurrences.
-/

namespace RunLength

variable {α : Type*}

/-! ## Runs -/

/-- `c i` times `g i`, for `i` from `lo` on and before `hi`. -/
def runs (c : ℕ → ℕ) (g : ℕ → α) (lo hi : ℕ) : List α :=
  (List.range' lo (hi - lo)).flatMap fun i => List.replicate (c i) (g i)

variable {c c' : ℕ → ℕ} {g : ℕ → α} {lo hi : ℕ}

theorem runs_self : runs c g hi hi = [] := by rw [runs, Nat.sub_self, List.range'_zero, List.flatMap_nil]

theorem runs_cons (h : lo < hi) : runs c g lo hi = List.replicate (c lo) (g lo) ++ runs c g (lo + 1) hi := by
  have hlen : hi - lo = hi - (lo + 1) + 1 := by omega
  rw [runs, hlen, List.range'_succ, List.flatMap_cons, runs]

theorem runs_concat (h : lo ≤ hi) : runs c g lo (hi + 1) = runs c g lo hi ++ List.replicate (c hi) (g hi) := by
  have hlen : hi + 1 - lo = hi - lo + 1 := by omega
  rw [runs, hlen, List.range'_concat, List.flatMap_append, Nat.one_mul, Nat.add_sub_cancel' h,
    List.flatMap_singleton, runs]

theorem runs_congr (h : ∀ i, lo ≤ i → i < hi → c i = c' i) : runs c g lo hi = runs c' g lo hi := by
  unfold runs
  refine List.flatMap_congr fun i hi => ?_
  obtain ⟨hlo, hhi⟩ := List.mem_range'_1.mp hi
  rw [h i hlo (by omega)]

theorem map_runs {β : Type*} (f : α → β) : (runs c g lo hi).map f = runs c (fun i => f (g i)) lo hi := by
  unfold runs
  rw [List.map_flatMap]
  exact List.flatMap_congr fun i _ => List.map_replicate

theorem mem_runs {x : α} : x ∈ runs c g lo hi ↔ ∃ i, lo ≤ i ∧ i < hi ∧ 0 < c i ∧ x = g i := by
  simp only [runs, List.mem_flatMap, List.mem_range'_1, List.mem_replicate]
  constructor
  · rintro ⟨i, ⟨hlo, hhi⟩, hc, rfl⟩
    exact ⟨i, hlo, by omega, Nat.pos_of_ne_zero hc, rfl⟩
  · rintro ⟨i, hlo, hhi, hc, rfl⟩
    exact ⟨i, ⟨hlo, by omega⟩, Nat.ne_of_gt hc, rfl⟩

/-- One more copy of an element. -/
theorem runs_increment_perm {k : ℕ} (hk : k < hi) :
    (runs (fun i => if i = k then c i + 1 else c i) g 0 hi).Perm (g k :: runs c g 0 hi) := by
  induction hi with
  | zero => exact absurd hk (Nat.not_lt_zero k)
  | succ n ih =>
    rw [runs_concat (Nat.zero_le n), runs_concat (Nat.zero_le n)]
    rcases Nat.lt_succ_iff_lt_or_eq.mp hk with hk | rfl
    · rw [if_neg (by omega)]
      exact (ih hk).append_right _
    · have hbefore : runs (fun i => if i = k then c i + 1 else c i) g 0 k = runs c g 0 k :=
        runs_congr fun i _ hi => if_neg (Nat.ne_of_lt hi)
      rw [if_pos rfl, List.replicate_succ, hbefore]
      exact List.perm_middle

/-- Runs of pairs are in the order of their numbers. -/
theorem pairwise_runs : (runs c (fun i => (i, g i)) lo hi).Pairwise fun p q => p.1 ≤ q.1 := by
  induction h : hi - lo generalizing lo with
  | zero =>
    have hrange : List.range' lo (hi - lo) = [] := by rw [h, List.range'_zero]
    rw [runs, hrange]
    exact List.Pairwise.nil
  | succ n ih =>
    rw [runs_cons (by omega), List.pairwise_append]
    refine ⟨List.pairwise_replicate.mpr (.inr (Nat.le_refl _)), ih (by omega), fun p hp q hq => ?_⟩
    obtain ⟨i, hlo, -, -, rfl⟩ := mem_runs.mp hq
    rw [List.eq_of_mem_replicate hp]
    exact Nat.le_of_succ_le hlo

/-! ## Interleaving -/

/-- `h1[0]`, `h2[0]`, `h1[1]` and so on -/
def interleave : List α → List α → List α
  | a :: h1, b :: h2 => a :: b :: interleave h1 h2
  | _, _ => []

theorem interleave_concat {h1 h2 : List α} (h : h1.length = h2.length) (a b : α) :
    interleave (h1 ++ [a]) (h2 ++ [b]) = interleave h1 h2 ++ [a, b] := by
  induction h1 generalizing h2 with
  | nil =>
    rw [List.eq_nil_of_length_eq_zero h.symm]
    rfl
  | cons x h1 ih =>
    cases h2 with
    | nil => exact absurd h (Nat.succ_ne_zero _)
    | cons y h2 => exact congrArg (x :: y :: ·) (ih (Nat.succ.inj h))

theorem length_interleave {h1 h2 : List α} (h : h1.length = h2.length) :
    (interleave h1 h2).length = 2 * h1.length := by
  induction h1 generalizing h2 with
  | nil =>
    rw [List.eq_nil_of_length_eq_zero h.symm]
    rfl
  | cons a h1 ih =>
    cases h2 with
    | nil => exact absurd h (Nat.succ_ne_zero _)
    | cons b h2 =>
      unfold interleave
      rw [List.length_cons, List.length_cons, ih (Nat.succ.inj h), List.length_cons]
      omega

/-- Every list of even length is taken apart in one way. -/
theorem interleave_injective {h1 h2 h1' h2' : List α} (h : h1.length = h2.length) (h' : h1'.length = h2'.length)
    (heq : interleave h1 h2 = interleave h1' h2') : h1 = h1' ∧ h2 = h2' := by
  induction h1 generalizing h2 h1' h2' with
  | nil =>
    cases h2 with
    | cons y h2 => exact absurd h.symm (Nat.succ_ne_zero _)
    | nil =>
      cases h1' with
      | nil => exact ⟨rfl, (List.eq_nil_of_length_eq_zero h'.symm).symm⟩
      | cons x h1' =>
        cases h2' with
        | nil => exact absurd h' (Nat.succ_ne_zero _)
        | cons y h2' => cases heq
  | cons x h1 ih =>
    cases h2 with
    | nil => exact absurd h (Nat.succ_ne_zero _)
    | cons y h2 =>
      cases h1' with
      | nil => cases heq
      | cons x' h1' =>
        cases h2' with
        | nil => exact absurd h' (Nat.succ_ne_zero _)
        | cons y' h2' =>
          injection heq with hx heq
          injection heq with hy heq
          obtain ⟨rfl, rfl⟩ := ih (Nat.succ.inj h) (Nat.succ.inj h') heq
          exact ⟨by rw [hx], by rw [hy]⟩

/-! ## Last occurrences -/

section Last

variable [DecidableEq α]

/-- The index at which an element stands for the last time. -/
def lastIndex (t : List α) (x : α) : Option ℕ :=
  t.zipIdx.foldl (fun last p => if p.1 = x then some p.2 else last) none

theorem lastIndex_concat (t : List α) (y x : α) :
    lastIndex (t ++ [y]) x = if y = x then some t.length else lastIndex t x := by
  unfold lastIndex
  rw [List.zipIdx_append, List.foldl_append, Nat.zero_add]
  rfl

theorem lastIndex_eq_none {t : List α} {x : α} : lastIndex t x = none ↔ x ∉ t := by
  induction t using List.reverseRecOn with
  | nil => exact ⟨fun _ => List.not_mem_nil, fun _ => rfl⟩
  | append_singleton t y ih =>
    rw [lastIndex_concat, List.mem_append, List.mem_singleton]
    split
    · next h => exact ⟨nofun, fun h' => absurd (.inr h.symm) h'⟩
    · next h => exact ih.trans ⟨fun h' => not_or.mpr ⟨h', fun h'' => h h''.symm⟩, fun h' => (not_or.mp h').1⟩

theorem getElem?_of_lastIndex {t : List α} {x : α} {i : ℕ} (h : lastIndex t x = some i) : t[i]? = some x := by
  induction t using List.reverseRecOn with
  | nil => cases h
  | append_singleton t y ih =>
    rw [lastIndex_concat] at h
    split at h
    · next hy =>
      injection h with h
      rw [← h, List.getElem?_concat_length, hy]
    · have hi := ih h
      obtain ⟨hlt, -⟩ := List.getElem?_eq_some_iff.mp hi
      rw [List.getElem?_append_left hlt, hi]

theorem lastIndex_map {β : Type*} [DecidableEq β] {f : α → β} (hf : Function.Injective f) (t : List α) (x : α) :
    lastIndex (t.map f) (f x) = lastIndex t x := by
  induction t using List.reverseRecOn with
  | nil => rfl
  | append_singleton t y ih =>
    rw [List.map_append, List.map_singleton, lastIndex_concat, lastIndex_concat, ih, List.length_map]
    exact if_congr hf.eq_iff rfl rfl

end Last

end RunLength
