import Mathlib.Data.List.GetD
import Mathlib.Data.List.Range
import Mathlib.Tactic.Ring

/-!
# Ranges of a memory of words

A memory of words of `w` elements each, read as one sequence of elements: a range of it is put together
from the end of its first word, whole words, and the beginning of its last word.

1. Slices
2. Parts of words
3. Ranges
-/

namespace WordMemory

variable {β : Type*} [Inhabited β] (w : ℕ) (word : ℕ → List β)

/-! ## Slices -/

/-- The element at a position. -/
def cell (a : ℕ) : β := (word (a / w)).getD (a % w) default

/-- The elements from a position on. -/
def cells (start count : ℕ) : List β := (List.range' start count).map (cell w word)

@[simp] theorem length_cells (start count : ℕ) : (cells w word start count).length = count := by
  rw [cells, List.length_map, List.length_range']

@[simp] theorem cells_zero (start : ℕ) : cells w word start 0 = [] := rfl

theorem cells_succ (start count : ℕ) :
    cells w word start (count + 1) = cell w word start :: cells w word (start + 1) count := by
  rw [cells, List.range'_succ, List.map_cons, cells]

theorem cells_append (start m n : ℕ) :
    cells w word start m ++ cells w word (start + m) n = cells w word start (m + n) := by
  rw [cells, cells, cells, ← List.map_append, List.range'_append_1]

theorem getD_cells {start count i : ℕ} (h : i < count) :
    (cells w word start count).getD i default = cell w word (start + i) := by
  rw [cells, List.getD_eq_getElem _ _ (by simpa using h), List.getElem_map, List.getElem_range',
    Nat.one_mul]

theorem take_cells {start count k : ℕ} (h : k ≤ count) :
    (cells w word start count).take k = cells w word start k := by
  have hsplit := cells_append w word start k (count - k)
  rw [Nat.add_sub_cancel' h] at hsplit
  rw [← hsplit]
  exact List.take_left' (length_cells w word start k)

/-! ## Parts of words -/

section Width

variable {w word} (hpos : 0 < w) (hword : ∀ i, (word i).length = w)

include hpos hword

theorem word_eq_cells (i : ℕ) : word i = cells w word (w * i) w := by
  apply List.ext_getElem
  · rw [hword, length_cells]
  · intro k hk _
    rw [hword] at hk
    have hdiv : (w * i + k) / w = i := by
      rw [Nat.mul_add_div hpos, Nat.div_eq_of_lt hk, Nat.add_zero]
    have hmod : (w * i + k) % w = k := by rw [Nat.mul_add_mod, Nat.mod_eq_of_lt hk]
    simp only [cells, List.getElem_map, List.getElem_range', Nat.one_mul, cell]
    rw [hmod, hdiv, List.getD_eq_getElem]

theorem take_word (i : ℕ) {k : ℕ} (h : k ≤ w) : (word i).take k = cells w word (w * i) k := by
  conv_lhs => rw [word_eq_cells hpos hword i]
  exact take_cells w word h

theorem drop_word (i : ℕ) {k : ℕ} (h : k ≤ w) :
    (word i).drop k = cells w word (w * i + k) (w - k) := by
  have hsplit := cells_append w word (w * i) k (w - k)
  rw [Nat.add_sub_cancel' h] at hsplit
  conv_lhs => rw [word_eq_cells hpos hword i, ← hsplit]
  exact List.drop_left' (length_cells w word (w * i) k)

theorem words_eq_cells (i count : ℕ) :
    (List.range' i count).flatMap word = cells w word (w * i) (w * count) := by
  induction count generalizing i with
  | zero => rfl
  | succ count ih =>
    have hnext : w * (i + 1) = w * i + w := Nat.mul_succ w i
    have hcount : w * (count + 1) = w + w * count := by ring
    rw [List.range'_succ, List.flatMap_cons, ih, hnext, hcount, ← cells_append,
      ← word_eq_cells hpos hword i]

end Width

/-! ## Ranges -/

/-- The end of the first word unless the range begins with it, whole words, and the beginning of the
last one unless it ends before it. -/
def cellRange (start finish : ℕ) : List β :=
  (if start % w ≠ 0 then (word (start / w)).drop (start % w) else []) ++
    (List.range' ((start + w - 1) / w) (finish / w - (start + w - 1) / w)).flatMap word ++
    if finish % w ≠ 0 then (word (finish / w)).take (finish % w) else []

section Width

variable {w word} (hpos : 0 < w) (hword : ∀ i, (word i).length = w)

include hpos hword

omit hword in
theorem ceil_of_mod_eq_zero {start : ℕ} (h : start % w = 0) : (start + w - 1) / w = start / w := by
  obtain ⟨k, rfl⟩ := Nat.dvd_of_mod_eq_zero h
  rw [Nat.mul_div_cancel_left _ hpos, Nat.add_sub_assoc hpos, Nat.mul_add_div hpos,
    Nat.div_eq_of_lt (Nat.sub_lt hpos Nat.one_pos), Nat.add_zero]

omit hword in
theorem ceil_of_mod_ne_zero {start : ℕ} (h : start % w ≠ 0) :
    (start + w - 1) / w = start / w + 1 := by
  have hsplit := Nat.div_add_mod start w
  have hlt := Nat.mod_lt start hpos
  have heq : start + w - 1 = w * (start / w + 1) + (start % w - 1) := by
    rw [Nat.mul_succ]
    omega
  have hlow : (start % w - 1) / w = 0 := Nat.div_eq_of_lt (by omega)
  rw [heq, Nat.mul_add_div hpos, hlow, Nat.add_zero]

/-- The end of the first word. -/
theorem first_eq_cells (start : ℕ) :
    (if start % w ≠ 0 then (word (start / w)).drop (start % w) else []) =
      cells w word start (w * ((start + w - 1) / w) - start) := by
  have hsplit := Nat.div_add_mod start w
  have hlt := Nat.mod_lt start hpos
  by_cases h : start % w = 0
  · rw [if_neg (not_not.mpr h), ceil_of_mod_eq_zero hpos h]
    rw [h, Nat.add_zero] at hsplit
    rw [hsplit, Nat.sub_self, cells_zero]
  · rw [if_pos h, ceil_of_mod_ne_zero hpos h, drop_word hpos hword _ hlt.le, hsplit, Nat.mul_succ]
    congr 1
    omega

/-- The beginning of the last word. -/
theorem last_eq_cells (finish : ℕ) :
    (if finish % w ≠ 0 then (word (finish / w)).take (finish % w) else []) =
      cells w word (w * (finish / w)) (finish % w) := by
  by_cases h : finish % w = 0
  · rw [if_neg (not_not.mpr h), h, cells_zero]
  · rw [if_pos h, take_word hpos hword _ (Nat.mod_lt _ hpos).le]

/-- A range that does not end in the word that it begins within. -/
theorem cellRange_eq_cells {start finish : ℕ} (h : (start + w - 1) / w ≤ finish / w) :
    cellRange w word start finish = cells w word start (finish - start) := by
  have hfinish := Nat.div_add_mod finish w
  have hmul := Nat.mul_le_mul_left w h
  have hceil : start ≤ w * ((start + w - 1) / w) := by
    have hsplit := Nat.div_add_mod (start + w - 1) w
    have hlt := Nat.mod_lt (start + w - 1) hpos
    omega
  have hmiddle : start + (w * ((start + w - 1) / w) - start) = w * ((start + w - 1) / w) :=
    Nat.add_sub_cancel' hceil
  have hlast : start + (w * ((start + w - 1) / w) - start +
      w * (finish / w - (start + w - 1) / w)) = w * (finish / w) := by
    rw [Nat.mul_sub]
    omega
  have hwords := cells_append w word start (w * ((start + w - 1) / w) - start)
    (w * (finish / w - (start + w - 1) / w))
  have hall := cells_append w word start (w * ((start + w - 1) / w) - start +
    w * (finish / w - (start + w - 1) / w)) (finish % w)
  rw [hmiddle] at hwords
  rw [hlast] at hall
  rw [cellRange, first_eq_cells hpos hword, words_eq_cells hpos hword, last_eq_cells hpos hword, hwords, hall]
  congr 1
  omega

/-- A range inside of the word that it begins within: the end of the word, and its beginning. -/
theorem cellRange_inside {start finish : ℕ} (hstart : start % w ≠ 0) (h : finish / w = start / w) :
    cellRange w word start finish =
      cells w word start (w - start % w) ++ cells w word (w * (start / w)) (finish % w) := by
  have hlt := Nat.mod_lt start hpos
  have hsplit := Nat.div_add_mod start w
  rw [cellRange, last_eq_cells hpos hword, h, ceil_of_mod_ne_zero hpos hstart,
    Nat.sub_eq_zero_of_le (Nat.le_succ _), if_pos hstart, drop_word hpos hword _ hlt.le, hsplit]
  simp

omit hword in
theorem ceil_le_or_inside {start finish : ℕ} (h : start ≤ finish) :
    (start + w - 1) / w ≤ finish / w ∨ start % w ≠ 0 ∧ finish / w = start / w := by
  have hdiv : start / w ≤ finish / w := Nat.div_le_div_right h
  by_cases hstart : start % w = 0
  · rw [ceil_of_mod_eq_zero hpos hstart]
    exact .inl hdiv
  · rw [ceil_of_mod_ne_zero hpos hstart]
    rcases Nat.lt_or_eq_of_le hdiv with hlt | heq
    · exact .inl hlt
    · exact .inr ⟨hstart, heq.symm⟩

/-- A range begins with the element at its beginning. -/
theorem cellRange_eq_nil_or_cons {start finish : ℕ} (h : start ≤ finish) :
    cellRange w word start finish = [] ∨ ∃ rest, cellRange w word start finish = cell w word start :: rest := by
  rcases ceil_le_or_inside hpos h with hceil | ⟨hstart, hinside⟩
  · rw [cellRange_eq_cells hpos hword hceil]
    cases finish - start with
    | zero => exact .inl rfl
    | succ count => exact .inr ⟨_, cells_succ w word start count⟩
  · have hlt := Nat.mod_lt start hpos
    obtain ⟨count, hcount⟩ := Nat.exists_eq_add_of_lt hlt
    have hsub : w - start % w = count + 1 := by omega
    rw [cellRange_inside hpos hword hstart hinside, hsub, cells_succ]
    exact .inr ⟨_, rfl⟩

end Width

end WordMemory
