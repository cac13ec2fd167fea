import Mathlib.Tactic.Common

/-!
# Searches through a range

Loops that look for the first or the last place where a test holds.

  1. Upwards.
  2. Downwards.
-/

namespace Search

variable (p : ℕ → Bool)

/-! ## Upwards -/

/-- `for (i = lo; i < lo + n; i++) if (p(i)) break;`, and where `i` ends. -/
def up (lo : ℕ) : ℕ → ℕ
  | 0 => lo
  | n + 1 => if p lo then lo else up (lo + 1) n

/-- The search stops at a place of the range or at its end, and every place that it passed fails the
test. -/
structure StopsAt (lo n i : ℕ) : Prop where
  ge : lo ≤ i
  le : i ≤ lo + n
  passed : ∀ j, lo ≤ j → j < i → p j = false
  hit : i < lo + n → p i = true

theorem up_stopsAt (lo n : ℕ) : StopsAt p lo n (up p lo n) := by
  induction n generalizing lo with
  | zero =>
    refine ⟨Nat.le_refl lo, Nat.le_refl lo, fun j hj hlt => ?_, fun h => absurd h (Nat.lt_irrefl lo)⟩
    exact absurd hlt (Nat.not_lt.mpr hj)
  | succ n ih =>
    unfold up
    split
    · next hp =>
      refine ⟨Nat.le_refl lo, Nat.le_add_right lo _, fun j hj hlt => ?_, fun _ => hp⟩
      exact absurd hlt (Nat.not_lt.mpr hj)
    · next hp =>
      obtain ⟨hge, hle, hpassed, hhit⟩ := ih (lo + 1)
      refine ⟨by omega, by omega, fun j hj hlt => ?_, fun h => hhit (by omega)⟩
      rcases Nat.eq_or_lt_of_le hj with rfl | hj
      · exact Bool.eq_false_iff.mpr hp
      · exact hpassed j hj hlt

/-! ## Downwards -/

/-- `for (i = lo + n - 1; i >= lo; i--) if (p(i)) return i;` -/
def down (lo : ℕ) : ℕ → Option ℕ
  | 0 => none
  | n + 1 => if p (lo + n) then some (lo + n) else down lo n

variable {p} {lo n i : ℕ}

theorem down_eq_some (h : down p lo n = some i) :
    lo ≤ i ∧ i < lo + n ∧ p i = true ∧ ∀ j, i < j → j < lo + n → p j = false := by
  induction n with
  | zero => exact absurd h (by simp [down])
  | succ n ih =>
    unfold down at h
    split at h
    · next hp =>
      obtain rfl : lo + n = i := Option.some_inj.mp h
      exact ⟨by omega, by omega, hp, fun j hj hlt => absurd hj (by omega)⟩
    · next hp =>
      obtain ⟨hge, hlt, hi, habove⟩ := ih h
      refine ⟨hge, by omega, hi, fun j hj hjlt => ?_⟩
      rcases Nat.lt_succ_iff_lt_or_eq.mp hjlt with hjlt | rfl
      · exact habove j hj hjlt
      · exact Bool.eq_false_iff.mpr hp

theorem down_eq_none (h : down p lo n = none) : ∀ j, lo ≤ j → j < lo + n → p j = false := by
  induction n with
  | zero => exact fun j hj hlt => absurd hj (by omega)
  | succ n ih =>
    unfold down at h
    split at h
    · cases h
    · next hp =>
      intro j hj hlt
      rcases Nat.lt_succ_iff_lt_or_eq.mp hlt with hlt | rfl
      · exact ih h j hj hlt
      · exact Bool.eq_false_iff.mpr hp

end Search
