import Mathlib.Data.List.Basic
import Mathlib.Order.Lattice
import Mathlib.Logic.Function.Basic

/-!
# Histories of versioned values

A store keeps the values of each key with the versions they were written at, the newest one first.  A value
that is written again keeps its older version.  What was last written up to a version can be told from that.

1. Writing
2. Reading up to a version
3. What was last written
-/

namespace VersionedValues

variable {κ V α : Type*}

/-! ## Writing -/

/-- A key is written at a version. -/
structure Write (κ V α : Type*) where
  key : κ
  version : V
  value : α

section

variable [DecidableEq κ] [DecidableEq α]

/-- A value is written, unless it is there already. -/
def record (history : List (V × α)) (v : V) (a : α) : List (V × α) :=
  match history with
  | [] => [(v, a)]
  | newest :: older => if newest.2 = a then newest :: older else (v, a) :: newest :: older

theorem record_cons_self (v v' : V) (a : α) (older : List (V × α)) :
    record ((v', a) :: older) v a = (v', a) :: older := if_pos rfl

theorem record_cons_of_ne {a a' : α} (h : a' ≠ a) (v v' : V) (older : List (V × α)) :
    record ((v', a') :: older) v a = (v, a) :: (v', a') :: older := if_neg h

/-- The histories after one more write. -/
def recordKey (histories : κ → List (V × α)) (w : Write κ V α) : κ → List (V × α) :=
  Function.update histories w.key (record (histories w.key) w.version w.value)

@[simp] theorem recordKey_self (histories : κ → List (V × α)) (w : Write κ V α) :
    recordKey histories w w.key = record (histories w.key) w.version w.value := Function.update_self ..

theorem recordKey_of_ne (histories : κ → List (V × α)) {w : Write κ V α} {k : κ} (h : k ≠ w.key) :
    recordKey histories w k = histories k := Function.update_of_ne h ..

end

/-! ## Reading up to a version -/

variable [LinearOrder V]

/-- The newest value up to a version. -/
def valueAt (history : List (V × α)) (v : V) : Option α :=
  (history.find? fun entry => entry.1 ≤ v).map Prod.snd

theorem valueAt_cons_of_le {v w : V} (h : v ≤ w) (a : α) (history : List (V × α)) :
    valueAt ((v, a) :: history) w = some a := by
  unfold valueAt
  rw [List.find?_cons_of_pos (by simpa using h)]
  rfl

theorem valueAt_cons_of_lt {v w : V} (h : w < v) (a : α) (history : List (V × α)) :
    valueAt ((v, a) :: history) w = valueAt history w := by
  unfold valueAt
  rw [List.find?_cons_of_neg (by simpa using h)]

section

variable [DecidableEq α]

theorem valueAt_record {history : List (V × α)} {v : V} (hle : ∀ entry ∈ history, entry.1 ≤ v) (a : α) (w : V) :
    valueAt (record history v a) w = if v ≤ w then some a else valueAt history w := by
  rcases history with - | ⟨⟨v', a'⟩, older⟩
  · unfold record
    split_ifs with h
    · exact valueAt_cons_of_le h a []
    · exact valueAt_cons_of_lt (not_le.mp h) a []
  · by_cases hsame : a' = a
    · subst hsame
      rw [record_cons_self]
      split_ifs with h
      · exact valueAt_cons_of_le ((hle _ List.mem_cons_self).trans h) a' older
      · rfl
    · rw [record_cons_of_ne hsame]
      split_ifs with h
      · exact valueAt_cons_of_le h a _
      · exact valueAt_cons_of_lt (not_le.mp h) a _

theorem record_le {history : List (V × α)} {v : V} (hle : ∀ entry ∈ history, entry.1 ≤ v) (a : α) :
    ∀ entry ∈ record history v a, entry.1 ≤ v := by
  intro entry hmem
  rcases history with - | ⟨⟨v', a'⟩, older⟩
  · rw [List.mem_singleton.mp hmem]
  · by_cases hsame : a' = a
    · subst hsame
      rw [record_cons_self] at hmem
      exact hle entry hmem
    · rw [record_cons_of_ne hsame] at hmem
      rcases List.mem_cons.mp hmem with rfl | hmem
      · exact le_rfl
      · exact hle entry hmem

end

/-! ## What was last written -/

variable [DecidableEq κ]

/-- What was last written for a key up to a version. -/
def lastWrite (writes : List (Write κ V α)) (k : κ) (v : V) : Option α :=
  ((writes.filter fun w => w.key = k ∧ w.version ≤ v).getLast?).map Write.value

theorem lastWrite_concat (writes : List (Write κ V α)) (w : Write κ V α) (k : κ) (v : V) :
    lastWrite (writes ++ [w]) k v =
      if w.key = k ∧ w.version ≤ v then some w.value else lastWrite writes k v := by
  unfold lastWrite
  rw [List.filter_append]
  by_cases h : w.key = k ∧ w.version ≤ v
  · rw [if_pos h, List.filter_singleton, decide_eq_true h]
    simp
  · rw [if_neg h, List.filter_singleton, decide_eq_false h]
    simp

/-- The histories say what was written, up to every version. -/
structure Records (writes : List (Write κ V α)) (histories : κ → List (V × α)) : Prop where
  valueAt_eq : ∀ k v, valueAt (histories k) v = lastWrite writes k v
  le : ∀ w, (∀ w' ∈ writes, w'.version ≤ w) → ∀ k, ∀ entry ∈ histories k, entry.1 ≤ w

variable [DecidableEq α]

theorem Records.concat {writes : List (Write κ V α)} {histories : κ → List (V × α)} (h : Records writes histories)
    {w : Write κ V α} (hle : ∀ w' ∈ writes, w'.version ≤ w.version) :
    Records (writes ++ [w]) (recordKey histories w) := by
  have hold := h.le w.version hle w.key
  refine ⟨fun k v => ?_, fun v hv k entry hmem => ?_⟩
  · rw [lastWrite_concat, ← h.valueAt_eq]
    by_cases hk : k = w.key
    · subst hk
      rw [recordKey_self, valueAt_record hold]
      simp
    · rw [recordKey_of_ne _ hk, if_neg fun hand => hk hand.1.symm]
  · have hlast : w.version ≤ v := hv w (List.mem_append_right _ List.mem_cons_self)
    by_cases hk : k = w.key
    · subst hk
      rw [recordKey_self] at hmem
      exact (record_le hold w.value entry hmem).trans hlast
    · rw [recordKey_of_ne _ hk] at hmem
      exact (h.le w.version hle k entry hmem).trans hlast

end VersionedValues
