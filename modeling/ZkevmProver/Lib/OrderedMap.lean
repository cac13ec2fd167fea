import Mathlib.Data.List.Sort
import Mathlib.Tactic.Common

/-!
# Maps with a comparison

A map or a multimap is the list of its pairs.  Keys are the same when neither comes before the other.

  1. Maps.
  2. Multimaps.
-/

namespace OrderedMap

variable {κ ν : Type*}

/-! ## Maps -/

/-- Neither key comes before the other. -/
def equivalent (lt : κ → κ → Bool) (a b : κ) : Bool := !lt a b && !lt b a

theorem equivalent_eq_true {lt : κ → κ → Bool} {a b : κ} :
    equivalent lt a b = true ↔ lt a b = false ∧ lt b a = false := by
  unfold equivalent
  rw [Bool.and_eq_true, Bool.not_eq_true', Bool.not_eq_true']

/-- `map[key] = value`: an equivalent key stays, with the new value. -/
def assign (lt : κ → κ → Bool) (key : κ) (value : ν) : List (κ × ν) → List (κ × ν)
  | [] => [(key, value)]
  | p :: map => if equivalent lt p.1 key then (p.1, value) :: map else p :: assign lt key value map

def find (lt : κ → κ → Bool) (map : List (κ × ν)) (key : κ) : Option ν :=
  (map.find? fun p => equivalent lt p.1 key).map Prod.snd

section Maps

variable {lt : κ → κ → Bool} {S : Set κ} (hS : ∀ a ∈ S, ∀ b ∈ S, equivalent lt a b = true ↔ a = b)

include hS

theorem find_assign [DecidableEq κ] {map : List (κ × ν)} (hmap : ∀ p ∈ map, p.1 ∈ S) {key key' : κ}
    (hkey : key ∈ S) (hkey' : key' ∈ S) (value : ν) :
    find lt (assign lt key value map) key' = if key' = key then some value else find lt map key' := by
  induction map with
  | nil =>
    have h := hS key hkey key' hkey'
    by_cases heq : key' = key
    · rw [if_pos heq]
      simp only [assign, find, List.find?_cons, h.mpr heq.symm, Option.map_some]
    · rw [if_neg heq]
      have hne : equivalent lt key key' = false := Bool.eq_false_iff.mpr fun h' => heq (h.mp h').symm
      simp only [assign, find, List.find?_cons, hne, List.find?_nil, Option.map_none]
  | cons p map ih =>
    have ih := ih fun q hq => hmap q (List.mem_cons_of_mem p hq)
    have hp := hS p.1 (hmap p List.mem_cons_self) key hkey
    have hp' := hS p.1 (hmap p List.mem_cons_self) key' hkey'
    unfold assign
    by_cases hpk : p.1 = key
    · rw [if_pos (hp.mpr hpk)]
      by_cases heq : key' = key
      · rw [if_pos heq]
        simp only [find, List.find?_cons, hp'.mpr (hpk.trans heq.symm), Option.map_some]
      · rw [if_neg heq]
        have hne : equivalent lt p.1 key' = false :=
          Bool.eq_false_iff.mpr fun h' => heq ((hp'.mp h').symm.trans hpk)
        simp only [find, List.find?_cons, hne]
    · rw [if_neg fun h => hpk (hp.mp h)]
      by_cases hpk' : p.1 = key'
      · rw [if_neg fun h => hpk (hpk'.trans h)]
        simp only [find, List.find?_cons, hp'.mpr hpk', Option.map_some]
      · have hne : equivalent lt p.1 key' = false := Bool.eq_false_iff.mpr fun h' => hpk' (hp'.mp h')
        simp only [find, List.find?_cons, hne] at ih ⊢
        exact ih

omit hS in
theorem mem_assign {map : List (κ × ν)} (hmap : ∀ p ∈ map, p.1 ∈ S) {key : κ} (hkey : key ∈ S) (value : ν) :
    ∀ p ∈ assign lt key value map, p.1 ∈ S := by
  induction map with
  | nil =>
    intro p hp
    rw [List.mem_singleton.mp hp]
    exact hkey
  | cons q map ih =>
    intro p hp
    have ih := ih fun q' hq' => hmap q' (List.mem_cons_of_mem q hq')
    unfold assign at hp
    split at hp
    · rcases List.mem_cons.mp hp with rfl | hp
      · exact hmap q List.mem_cons_self
      · exact hmap p (List.mem_cons_of_mem q hp)
    · rcases List.mem_cons.mp hp with rfl | hp
      · exact hmap p List.mem_cons_self
      · exact ih p hp

end Maps

/-! ## Multimaps -/

/-- `multimap.insert(p)`: behind the pairs whose keys do not come after it. -/
def insert (lt : κ → κ → Bool) (p : κ × ν) (map : List (κ × ν)) : List (κ × ν) :=
  map.orderedInsert (fun p q => lt p.1 q.1 = true) p

theorem insert_perm (lt : κ → κ → Bool) (p : κ × ν) (map : List (κ × ν)) :
    (insert lt p map).Perm (p :: map) := List.perm_orderedInsert ..

theorem foldl_insert_perm (lt : κ → κ → Bool) (l map : List (κ × ν)) :
    (l.foldl (fun map p => insert lt p map) map).Perm (l ++ map) := by
  induction l generalizing map with
  | nil => exact .refl _
  | cons p l ih => exact (ih _).trans (((insert_perm lt p map).append_left l).trans List.perm_middle)

/-- A multimap with numbers as keys is sorted. -/
theorem insert_sorted {p : ℕ × ν} {map : List (ℕ × ν)} (h : map.Pairwise fun p q => p.1 ≤ q.1) :
    (insert (fun i j => decide (i < j)) p map).Pairwise fun p q => p.1 ≤ q.1 := by
  induction map with
  | nil => exact List.pairwise_singleton _ _
  | cons q map ih =>
    obtain ⟨hq, hmap⟩ := List.pairwise_cons.mp h
    unfold insert
    rw [List.orderedInsert]
    split
    · next hlt =>
      have hlt := of_decide_eq_true hlt
      refine List.pairwise_cons.mpr ⟨fun r hr => ?_, h⟩
      rcases List.mem_cons.mp hr with rfl | hr
      · exact hlt.le
      · exact hlt.le.trans (hq r hr)
    · next hlt =>
      have hle : q.1 ≤ p.1 := Nat.le_of_not_lt fun h' => hlt (decide_eq_true h')
      refine List.pairwise_cons.mpr ⟨fun r hr => ?_, ih hmap⟩
      rcases List.mem_cons.mp ((List.perm_orderedInsert _ p map).mem_iff.mp hr) with rfl | hr
      · exact hle
      · exact hq r hr

theorem foldl_insert_sorted (l : List (ℕ × ν)) {map : List (ℕ × ν)}
    (h : map.Pairwise fun p q => p.1 ≤ q.1) :
    (l.foldl (fun map p => insert (fun i j => decide (i < j)) p map) map).Pairwise fun p q => p.1 ≤ q.1 := by
  induction l generalizing map with
  | nil => exact h
  | cons p l ih => exact ih (insert_sorted h)

end OrderedMap
