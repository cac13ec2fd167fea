import Mathlib.Data.List.GetD
import ZkevmProver.Lib.Search
import ZkevmProver.Utils.ByteArray

/-!
# String increments

The part of a string that has to be sent to bring an older, shorter string up to date: the older one is
extended with zero bytes, and one range of it is overwritten.

  1. The source function.
  2. Overwriting a range.
  3. The range that the function returns.
-/

namespace ZkevmProver

/-! ## The source function -/

section

variable (oldString newString : List UInt8)

/-- `oldString[i] != newString[i]` -/
def differs (i : ℕ) : Bool := charAt oldString i != charAt newString i

/-- `newString[i] != 0` -/
def isNonZero (i : ℕ) : Bool := charAt newString i != 0

/-- The second half of `getStringIncrement`: the last byte to be sent, and from it the length.  For strings
of one length the first loop has no round, as under the test of the source. -/
def incrementLength (offset : ℕ) : ℕ :=
  match Search.down (isNonZero newString) oldString.length (newString.length - oldString.length) with
  | some i => i + 1 - offset
  | none =>
    match Search.down (differs oldString newString) 0 oldString.length with
    | some i => i + 1 - offset
    | none => 0

/-- The offset and the length. -/
def getStringIncrement : ℕ × ℕ :=
  -- if the new string is shorter, all of it is returned
  if oldString.length > newString.length then (0, newString.length)
  else
    let i := Search.up (differs oldString newString) 0 oldString.length
    if i = oldString.length then
      if oldString.length = newString.length then (0, 0)
      else
        let i := Search.up (isNonZero newString) i (newString.length - i)
        if i = newString.length then (0, 0) else (i, incrementLength oldString newString i)
    else (i, incrementLength oldString newString i)

end

/-! ## Overwriting -/

/-- `s` with zero bytes up to the length `n`. -/
def extendZeros (s : List UInt8) (n : ℕ) : List UInt8 := s ++ List.replicate (n - s.length) 0

/-- `s` with `length` bytes from `offset` on replaced by those of `newString`. -/
def overwrite (s newString : List UInt8) (offset length : ℕ) : List UInt8 :=
  s.take offset ++ (newString.drop offset).take length ++ s.drop (offset + length)

theorem charAt_extendZeros (s : List UInt8) (n i : ℕ) : charAt (extendZeros s n) i = charAt s i := by
  unfold charAt extendZeros
  by_cases h : i < s.length
  · rw [List.getD_append _ _ _ _ h]
  · rw [List.getD_append_right _ _ _ _ (Nat.not_lt.mp h), List.getD_eq_default _ _ (Nat.not_lt.mp h)]
    rw [List.getD_eq_getElem?_getD, List.getElem?_getD_replicate_default_eq]

theorem length_extendZeros {s : List UInt8} {n : ℕ} (h : s.length ≤ n) : (extendZeros s n).length = n := by
  rw [extendZeros, List.length_append, List.length_replicate]
  omega

/-- Strings of one length that have the same bytes. -/
theorem eq_of_charAt {s t : List UInt8} (hlength : s.length = t.length)
    (h : ∀ i < t.length, charAt s i = charAt t i) : s = t := by
  apply List.ext_getElem hlength
  intro i hs ht
  have hi := h i ht
  rwa [charAt, charAt, List.getD_eq_getElem _ _ hs, List.getD_eq_getElem _ _ ht] at hi

section

variable {s newString : List UInt8} {offset length : ℕ}

theorem length_overwrite (h : s.length = newString.length) :
    (overwrite s newString offset length).length = newString.length := by
  simp only [overwrite, List.length_append, List.length_take, List.length_drop]
  omega

theorem charAt_overwrite (h : s.length = newString.length) {i : ℕ} (hi : i < newString.length) :
    charAt (overwrite s newString offset length) i =
      if offset ≤ i ∧ i < offset + length then charAt newString i else charAt s i := by
  unfold charAt
  rw [List.getD_eq_getElem?_getD, List.getD_eq_getElem?_getD, List.getD_eq_getElem?_getD]
  have htake : (s.take offset).length = min offset newString.length := by
    rw [List.length_take, h]
  have hmiddle : ((newString.drop offset).take length).length =
      min length (newString.length - offset) := by
    rw [List.length_take, List.length_drop]
  rcases Nat.lt_or_ge i offset with hlt | hge
  · rw [if_neg (by omega), overwrite, List.append_assoc, List.getElem?_append_left (by omega),
      List.getElem?_take_of_lt hlt]
  · have hoffset : (s.take offset).length = offset := by omega
    rw [overwrite, List.append_assoc, List.getElem?_append_right (by omega), hoffset]
    rcases Nat.lt_or_ge i (offset + length) with hin | hout
    · rw [if_pos ⟨hge, hin⟩, List.getElem?_append_left (by omega), List.getElem?_take_of_lt (by omega),
        List.getElem?_drop, Nat.add_sub_cancel' hge]
    · have hlength : ((newString.drop offset).take length).length = length := by omega
      rw [if_neg (by omega), List.getElem?_append_right (by omega), hlength, List.getElem?_drop]
      congr 2
      omega

/-- Overwriting a range gives the new string exactly when the range covers all differences. -/
theorem overwrite_eq_iff (h : s.length = newString.length) :
    overwrite s newString offset length = newString ↔
      ∀ i < newString.length, charAt s i ≠ charAt newString i → offset ≤ i ∧ i < offset + length := by
  constructor
  · intro heq i hi hne
    have hcharAt := @charAt_overwrite s newString offset length h i hi
    rw [heq] at hcharAt
    by_contra hout
    rw [if_neg hout] at hcharAt
    exact hne hcharAt.symm
  · intro hcover
    apply eq_of_charAt (length_overwrite h)
    intro i hi
    rw [charAt_overwrite h hi]
    split
    · rfl
    · next hout =>
      by_contra hne
      exact hout (hcover i hi hne)

end

/-! ## The range -/

variable {oldString newString : List UInt8}

theorem differs_iff {i : ℕ} : differs oldString newString i = true ↔ charAt oldString i ≠ charAt newString i :=
  bne_iff_ne

theorem differs_eq_false {i : ℕ} :
    differs oldString newString i = false ↔ charAt oldString i = charAt newString i := by
  simp [differs]

/-- Beyond the old string it is the non-zero bytes that differ. -/
theorem isNonZero_eq_differs {i : ℕ} (h : oldString.length ≤ i) :
    isNonZero newString i = differs oldString newString i := by
  have hold : charAt oldString i = 0 := List.getD_eq_default _ _ h
  rw [isNonZero, differs, hold, bne_comm]

/-- The range starts and ends with a difference, and covers all of them. -/
structure Spans (oldString newString : List UInt8) (offset length : ℕ) : Prop where
  first : charAt oldString offset ≠ charAt newString offset
  last : ∃ i, offset + length = i + 1 ∧ offset ≤ i ∧ i < newString.length ∧
    charAt oldString i ≠ charAt newString i
  covers : ∀ i < newString.length, charAt oldString i ≠ charAt newString i →
    offset ≤ i ∧ i < offset + length

/-- The last difference, from the first one on. -/
theorem spans_incrementLength (h : oldString.length ≤ newString.length) {offset : ℕ}
    (hlt : offset < newString.length) (hfirst : differs oldString newString offset = true)
    (hbefore : ∀ j < offset, differs oldString newString j = false) :
    Spans oldString newString offset (incrementLength oldString newString offset) := by
  -- whichever of the two searches finds the last difference
  have key : ∀ i < newString.length, differs oldString newString i = true →
      (∀ j, i < j → j < newString.length → differs oldString newString j = false) →
      Spans oldString newString offset (i + 1 - offset) := by
    intro i hi hdiffers habove
    have hge : offset ≤ i := by
      by_contra hgt
      rw [habove offset (by omega) hlt] at hfirst
      cases hfirst
    refine ⟨differs_iff.mp hfirst, ⟨i, by omega, hge, hi, differs_iff.mp hdiffers⟩, fun j hj hne => ?_⟩
    rw [← differs_iff] at hne
    constructor
    · by_contra hgt
      rw [hbefore j (by omega)] at hne
      cases hne
    · by_contra hgt
      rw [habove j (by omega) hj] at hne
      cases hne
  unfold incrementLength
  split
  · next i hdown =>
    obtain ⟨hge, hi, hp, habove⟩ := Search.down_eq_some hdown
    rw [isNonZero_eq_differs hge] at hp
    refine key i (by omega) hp fun j hj hjlt => ?_
    rw [← isNonZero_eq_differs (by omega)]
    exact habove j hj (by omega)
  · next hdown =>
    have hzero := Search.down_eq_none hdown
    have hbeyond : ∀ j, oldString.length ≤ j → j < newString.length →
        differs oldString newString j = false := by
      intro j hj hjlt
      rw [← isNonZero_eq_differs hj]
      exact hzero j hj (by omega)
    split
    · next i hdown =>
      obtain ⟨-, hi, hp, habove⟩ := Search.down_eq_some hdown
      refine key i (by omega) hp fun j hj hjlt => ?_
      rcases Nat.lt_or_ge j oldString.length with hin | hout
      · exact habove j hj (by omega)
      · exact hbeyond j hout hjlt
    · next hdown =>
      -- there is a difference, so one of the searches finds one
      have hnone := Search.down_eq_none hdown offset (Nat.zero_le _)
      rcases Nat.lt_or_ge offset oldString.length with hin | hout
      · rw [hnone (by omega)] at hfirst
        cases hfirst
      · rw [hbeyond offset hout hlt] at hfirst
        cases hfirst

/-- Either there is no difference, or the range spans them. -/
theorem getStringIncrement_cases (h : oldString.length ≤ newString.length) :
    (getStringIncrement oldString newString = (0, 0) ∧
      ∀ i < newString.length, charAt oldString i = charAt newString i) ∨
    Spans oldString newString (getStringIncrement oldString newString).1
      (getStringIncrement oldString newString).2 := by
  obtain ⟨-, hle, hpassed, hhit⟩ := Search.up_stopsAt (differs oldString newString) 0 oldString.length
  unfold getStringIncrement
  rw [if_neg (by omega)]
  dsimp only
  set i := Search.up (differs oldString newString) 0 oldString.length
  split
  · next hi =>
    split
    · next hlength =>
      refine .inl ⟨rfl, fun j hj => ?_⟩
      exact differs_eq_false.mp (hpassed j (Nat.zero_le _) (by omega))
    · next hlength =>
      obtain ⟨hge, hle', hpassed', hhit'⟩ :=
        Search.up_stopsAt (isNonZero newString) i (newString.length - i)
      set i' := Search.up (isNonZero newString) i (newString.length - i)
      have hbefore : ∀ j < i', differs oldString newString j = false := by
        intro j hj
        rcases Nat.lt_or_ge j i with hin | hout
        · exact hpassed j (Nat.zero_le _) hin
        · rw [← isNonZero_eq_differs (Nat.le_trans (Nat.le_of_eq hi.symm) hout)]
          exact hpassed' j hout hj
      split
      · next hend =>
        refine .inl ⟨rfl, fun j hj => ?_⟩
        exact differs_eq_false.mp (hbefore j (by omega))
      · next hend =>
        have hfirst := hhit' (by omega)
        rw [isNonZero_eq_differs (Nat.le_trans (Nat.le_of_eq hi.symm) hge)] at hfirst
        exact .inr (spans_incrementLength h (by omega) hfirst hbefore)
  · next hi =>
    refine .inr (spans_incrementLength h (by omega) (hhit (by omega)) fun j hj => ?_)
    exact hpassed j (Nat.zero_le _) hj

/-- **The increment is exact.**  Overwriting the range that `getStringIncrement` returns brings the
extended old string up to date, and no shorter range does. -/
theorem getStringIncrement_exact (oldString newString : List UInt8)
    (h : oldString.length ≤ newString.length) :
    overwrite (extendZeros oldString newString.length) newString
        (getStringIncrement oldString newString).1 (getStringIncrement oldString newString).2 =
      newString ∧
    ∀ offset length,
      overwrite (extendZeros oldString newString.length) newString offset length = newString →
        (getStringIncrement oldString newString).2 ≤ length := by
  have hlength := length_extendZeros h
  simp only [overwrite_eq_iff hlength, charAt_extendZeros]
  rcases getStringIncrement_cases h with ⟨hzero, heq⟩ | hspans
  · rw [hzero]
    exact ⟨fun i hi hne => absurd (heq i hi) hne, fun _ length _ => Nat.zero_le length⟩
  · obtain ⟨hfirst, ⟨i, hi, hge, hlt, hlast⟩, hcovers⟩ := hspans
    refine ⟨hcovers, fun offset length hcover => ?_⟩
    have hstart := hcover _ (by omega) hfirst
    have hend := hcover i hlt hlast
    omega

/-- The old string has four bytes, the new one seven. -/
theorem getStringIncrement_exact_sample :
    overwrite (extendZeros [1, 0, 1, 0] 7) [1, 0, 2, 0, 5, 0, 0]
        (getStringIncrement [1, 0, 1, 0] [1, 0, 2, 0, 5, 0, 0]).1
        (getStringIncrement [1, 0, 1, 0] [1, 0, 2, 0, 5, 0, 0]).2 = [1, 0, 2, 0, 5, 0, 0] ∧
    ∀ offset length,
      overwrite (extendZeros [1, 0, 1, 0] 7) [1, 0, 2, 0, 5, 0, 0] offset length =
          [1, 0, 2, 0, 5, 0, 0] →
        (getStringIncrement [1, 0, 1, 0] [1, 0, 2, 0, 5, 0, 0]).2 ≤ length :=
  getStringIncrement_exact [1, 0, 1, 0] [1, 0, 2, 0, 5, 0, 0] (by decide)

end ZkevmProver
