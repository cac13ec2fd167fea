import Mathlib.Data.List.Infix
import Mathlib.Data.Set.BooleanAlgebra
import Mathlib.Data.Set.Insert
import Mathlib.Logic.Function.Basic
import Mathlib.Order.CompletePartialOrder
import Mathlib.Tactic.Common

/-!
# Radix trees of pages

Keys are looked up in pages by their digits.  A slot of a page is empty, holds what is stored for one key, or
leads to the page of the next digit; it leads to a page only when two keys are stored there.

  1. Keys and their digits.
  2. What the pages say.
  3. Looking up a key: `Tree.walk_says`, `Tree.walk_leaf_iff`.
  4. A slot is replaced: `Tree.put`, `Tree.descend`.
  5. A new page, with one leaf or none.
-/

namespace RadixPages

variable {κ ν : Type*}

/-! ## Keys and their digits -/

/-- How keys are split into the same number of digits. -/
structure Radix (κ : Type*) where
  digits : κ → List ℕ
  length : ℕ
  length_digits : ∀ k, (digits k).length = length
  injective : Function.Injective digits

/-- The keys that are looked up at a place of the tree. -/
def Radix.Below (R : Radix κ) (place : List ℕ) (k : κ) : Prop := place <+: R.digits k

inductive Slot (ν : Type*)
  | empty
  | leaf (x : ν)
  | next (page : ℕ)
  | invalid
  deriving DecidableEq

/-- The slots of the pages. -/
abbrev Table (ν : Type*) := ℕ → ℕ → Slot ν

/-- The slot of a key, from a page on. -/
def walk (T : Table ν) : List ℕ → ℕ → Slot ν
  | [], _ => .invalid
  | i :: bits, p =>
    match T p i with
    | .next q => walk T bits q
    | slot => slot

variable (R : Radix κ)

/-! ## What the pages say -/

/-- One key is stored among those of the place. -/
def Sole (contents : κ → Option ν) (place : List ℕ) (k : κ) : Prop :=
  R.Below place k ∧ contents k ≠ none ∧ ∀ k', R.Below place k' → k' ≠ k → contents k' = none

/-- Two keys are. -/
def Crowded (contents : κ → Option ν) (place : List ℕ) : Prop :=
  ∃ k k', k ≠ k' ∧ R.Below place k ∧ R.Below place k' ∧ contents k ≠ none ∧ contents k' ≠ none

/-- What a slot says about the keys of its place. -/
def Says (contents : κ → Option ν) (place : List ℕ) : Slot ν → Prop
  | .empty => ∀ k, R.Below place k → contents k = none
  | .leaf x => ∃ k, contents k = some x ∧ Sole R contents place k
  | .next _ => Crowded R contents place
  | .invalid => False

/-- A page of the tree, and the pages below each of its slots. -/
structure Node (place : List ℕ) (p : ℕ) (pages : Set ℕ) (below : ℕ → Set ℕ) : Prop where
  length_lt : place.length < R.length
  mem : p ∈ pages
  sub : ∀ i, below i ⊆ pages
  notMem : ∀ i, p ∉ below i
  disjoint : ∀ i j, i ≠ j → Disjoint (below i) (below j)

/-- The pages from a place on say what is stored for its keys. -/
inductive Tree (T : Table ν) (contents : κ → Option ν) : List ℕ → ℕ → Set ℕ → Prop
  | node {place : List ℕ} {p : ℕ} {pages : Set ℕ} {below : ℕ → Set ℕ} :
      Node R place p pages below → (∀ i, Says R contents (place ++ [i]) (T p i)) →
      (∀ i q, T p i = .next q → Tree T contents (place ++ [i]) q (below i)) → Tree T contents place p pages

section

variable {R} {T T' : Table ν} {contents contents' : κ → Option ν} {place place' bits : List ℕ} {p i : ℕ}
  {pages new : Set ℕ} {below : ℕ → Set ℕ} {k k' : κ} {x : ν} {slot : Slot ν}

theorem Radix.Below.of_concat (h : R.Below (place ++ [i]) k) : R.Below place k :=
  (List.prefix_append place [i]).trans h

theorem Radix.Below.eq_of_concat {j : ℕ} (h : R.Below (place ++ [i]) k) (h' : R.Below (place ++ [j]) k) :
    i = j := by
  have heq := (List.prefix_of_prefix_length_le h h' (by simp)).eq_of_length (by simp)
  simpa using heq

/-- Two keys of a place have a next digit. -/
theorem length_lt_of_ne (h : R.Below place k) (h' : R.Below place k') (hne : k ≠ k') :
    place.length < R.length := by
  by_contra hle
  have hle := Nat.le_of_not_lt hle
  have heq := h.eq_of_length_le (by rwa [R.length_digits])
  have heq' := h'.eq_of_length_le (by rwa [R.length_digits])
  exact hne (R.injective (heq.symm.trans heq'))

theorem Sole.congr (h : Sole R contents place k) (heq : ∀ k, R.Below place k → contents' k = contents k) :
    Sole R contents' place k := by
  refine ⟨h.1, ?_, fun k' hk' hne => (heq k' hk').trans (h.2.2 k' hk' hne)⟩
  rw [heq k h.1]
  exact h.2.1

theorem Says.congr (h : Says R contents place slot)
    (heq : ∀ k, R.Below place k → contents' k = contents k) : Says R contents' place slot := by
  cases slot with
  | empty => exact fun k hk => (heq k hk).trans (h k hk)
  | leaf x =>
    obtain ⟨k, hx, hsole⟩ := h
    exact ⟨k, (heq k hsole.1).trans hx, hsole.congr heq⟩
  | next q =>
    obtain ⟨k, k', hne, hk, hk', hc, hc'⟩ := h
    refine ⟨k, k', hne, hk, hk', ?_, ?_⟩
    · rwa [heq k hk]
    · rwa [heq k' hk']
  | invalid => exact h

/-- A tree is what its pages are, for its own keys. -/
theorem Tree.congr (h : Tree R T contents place p pages) (hT : ∀ q ∈ pages, T' q = T q)
    (heq : ∀ k, R.Below place k → contents' k = contents k) : Tree R T' contents' place p pages := by
  induction h with
  | @node place p pages below hnode hslots _ ih =>
    refine .node hnode (fun i => ?_) (fun i q hq => ?_)
    · rw [hT p hnode.mem]
      exact (hslots i).congr fun k hk => heq k hk.of_concat
    · rw [hT p hnode.mem] at hq
      exact ih i q hq (fun q hq => hT q (hnode.sub i hq)) fun k hk => heq k hk.of_concat

/-! ## Looking up a key -/

theorem concat_prefix {bits digits : List ℕ} (h : place ++ i :: bits = digits) : place ++ [i] <+: digits :=
  ⟨bits, by simpa using h⟩

/-- The slot that is found says what is stored at its place, which is one of the key's. -/
theorem Tree.walk_says (h : Tree R T contents place p pages) (hbits : place ++ bits = R.digits k) :
    ∃ place', R.Below place' k ∧ Says R contents place' (walk T bits p) ∧
      ∀ q, walk T bits p ≠ .next q := by
  induction h generalizing bits with
  | @node place p pages below hnode hslots _ ih =>
    have hlt := hnode.length_lt
    rw [← R.length_digits k, ← hbits, List.length_append] at hlt
    obtain ⟨i, bits, rfl⟩ := List.exists_cons_of_length_pos (Nat.pos_of_lt_add_right hlt)
    have hi := hslots i
    unfold walk
    cases hslot : T p i with
    | next q => exact ih i q hslot (by simpa using hbits)
    | empty =>
      rw [hslot] at hi
      exact ⟨place ++ [i], concat_prefix hbits, hi, nofun⟩
    | leaf x =>
      rw [hslot] at hi
      exact ⟨place ++ [i], concat_prefix hbits, hi, nofun⟩
    | invalid =>
      rw [hslot] at hi
      exact hi.elim

/-- A key that is stored is found. -/
theorem Tree.walk_of_some (h : Tree R T contents place p pages) (hbits : place ++ bits = R.digits k)
    (hx : contents k = some x) : walk T bits p = .leaf x := by
  obtain ⟨place', hk, hslots, hnext⟩ := h.walk_says hbits
  cases hslot : walk T bits p with
  | empty =>
    rw [hslot] at hslots
    exact absurd (hx.symm.trans (hslots k hk)) (Option.some_ne_none x)
  | leaf y =>
    rw [hslot] at hslots
    obtain ⟨k', hy, hsole⟩ := hslots
    by_cases hkk : k = k'
    · subst hkk
      rw [Option.some.inj (hx.symm.trans hy)]
    · exact absurd (hx.symm.trans (hsole.2.2 k hk hkk)) (Option.some_ne_none x)
  | next q => exact absurd hslot (hnext q)
  | invalid =>
    rw [hslot] at hslots
    exact hslots.elim

/-- A key that is not stored leads to an empty slot or to another key. -/
theorem Tree.walk_of_none (h : Tree R T contents place p pages) (hbits : place ++ bits = R.digits k)
    (hnone : contents k = none) : walk T bits p = .empty ∨
      ∃ x k', walk T bits p = .leaf x ∧ contents k' = some x ∧ k' ≠ k := by
  obtain ⟨place', hk, hslots, hnext⟩ := h.walk_says hbits
  cases hslot : walk T bits p with
  | empty => exact .inl rfl
  | leaf x =>
    rw [hslot] at hslots
    obtain ⟨k', hx, -⟩ := hslots
    refine .inr ⟨x, k', rfl, hx, ?_⟩
    rintro rfl
    exact absurd (hx.symm.trans hnone) (Option.some_ne_none x)
  | next q => exact absurd hslot (hnext q)
  | invalid =>
    rw [hslot] at hslots
    exact hslots.elim

/-- A key that is not stored leads to another one if and only if that one is alone at a place of the key. -/
theorem Tree.walk_leaf_iff (h : Tree R T contents place p pages) (hbits : place ++ bits = R.digits k) :
    (∃ x, walk T bits p = .leaf x) ↔
      ∃ place', place <+: place' ∧ place ≠ place' ∧ R.Below place' k ∧ ∃ k', Sole R contents place' k' := by
  induction h generalizing bits with
  | @node place p pages below hnode hslots _ ih =>
    have hlt := hnode.length_lt
    rw [← R.length_digits k, ← hbits, List.length_append] at hlt
    obtain ⟨i, bits, rfl⟩ := List.exists_cons_of_length_pos (Nat.pos_of_lt_add_right hlt)
    have hi := hslots i
    -- a longer place of the key is below the slot
    have hlonger : ∀ place', place <+: place' → place ≠ place' → R.Below place' k →
        place ++ [i] <+: place' := by
      intro place' hpre hne hk
      have hplace : place ++ [i] <+: R.digits k := concat_prefix hbits
      refine List.prefix_of_prefix_length_le hplace hk ?_
      rw [List.length_append, List.length_singleton]
      exact Nat.lt_of_le_of_ne hpre.length_le fun heq => hne (hpre.eq_of_length heq)
    have hshorter : place <+: place ++ [i] ∧ place ≠ place ++ [i] := ⟨List.prefix_append _ _, by simp⟩
    unfold walk
    cases hslot : T p i with
    | empty =>
      rw [hslot] at hi
      refine ⟨fun ⟨x, hx⟩ => (nomatch hx), ?_⟩
      rintro ⟨place', hpre, hne, hk, k', hsole⟩
      exact absurd (hi k' ((hlonger place' hpre hne hk).trans hsole.1)) hsole.2.1
    | leaf x =>
      rw [hslot] at hi
      obtain ⟨k', -, hsole⟩ := hi
      exact ⟨fun _ => ⟨place ++ [i], hshorter.1, hshorter.2, concat_prefix hbits, k', hsole⟩, fun _ => ⟨x, rfl⟩⟩
    | next q =>
      rw [hslot] at hi
      dsimp only
      rw [ih i q hslot (by simpa using hbits)]
      constructor
      · rintro ⟨place', hpre, hne, hk, hsole⟩
        refine ⟨place', hshorter.1.trans hpre, ?_, hk, hsole⟩
        rintro rfl
        exact absurd hpre.length_le (by simp)
      · rintro ⟨place', hpre, hne, hk, k', hsole⟩
        refine ⟨place', hlonger place' hpre hne hk, ?_, hk, k', hsole⟩
        rintro rfl
        obtain ⟨k₁, k₂, hne, hk₁, hk₂, hc₁, hc₂⟩ := hi
        by_cases heq : k₁ = k'
        · exact hc₂ (hsole.2.2 k₂ hk₂ fun heq' => hne (heq.trans heq'.symm))
        · exact hc₁ (hsole.2.2 k₁ hk₁ heq)
    | invalid =>
      rw [hslot] at hi
      exact hi.elim

/-! ## A slot is replaced -/

theorem Tree.replace (hnode : Node R place p pages below)
    (hslots : ∀ j, Says R contents (place ++ [j]) (T p j))
    (hnext : ∀ j q, T p j = .next q → Tree R T contents (place ++ [j]) q (below j))
    (hsame : ∀ j, j ≠ i → T' p j = T p j)
    (hothers : ∀ q ∈ pages, q ≠ p → q ∉ below i → T' q = T q)
    (hnew : ∀ q ∈ new, q ∈ below i ∨ q ∉ pages)
    (heq : ∀ k, R.Below place k → ¬R.Below (place ++ [i]) k → contents' k = contents k)
    (hslot : Says R contents' (place ++ [i]) (T' p i))
    (htree : ∀ q, T' p i = .next q → Tree R T' contents' (place ++ [i]) q new) :
    Tree R T' contents' place p (pages ∪ new) := by
  have hdisjoint (j : ℕ) (hj : j ≠ i) : Disjoint (below j) new := by
    rw [Set.disjoint_left]
    intro q hq hmem
    rcases hnew q hmem with hin | hout
    · exact Set.disjoint_left.mp (hnode.disjoint j i hj) hq hin
    · exact hout (hnode.sub j hq)
  have hp : p ∉ new := by
    intro hmem
    rcases hnew p hmem with hin | hout
    · exact hnode.notMem i hin
    · exact hout hnode.mem
  have hkeys (j : ℕ) (hj : j ≠ i) (k : κ) (hk : R.Below (place ++ [j]) k) : contents' k = contents k :=
    heq k hk.of_concat fun hi => hj (hk.eq_of_concat hi)
  refine @Tree.node κ ν R T' contents' place p (pages ∪ new) (Function.update below i new) ?_
    (fun j => ?_) (fun j q hq => ?_)
  · refine ⟨hnode.length_lt, .inl hnode.mem, fun j => ?_, fun j => ?_, fun j l hjl => ?_⟩
    · by_cases hj : j = i
      · rw [hj, Function.update_self]
        exact Set.subset_union_right
      · rw [Function.update_of_ne hj]
        exact (hnode.sub j).trans Set.subset_union_left
    · by_cases hj : j = i
      · rwa [hj, Function.update_self]
      · rw [Function.update_of_ne hj]
        exact hnode.notMem j
    · by_cases hj : j = i
      · rw [hj, Function.update_self, Function.update_of_ne (fun hl => hjl (hj.trans hl.symm))]
        exact (hdisjoint l fun hl => hjl (hj.trans hl.symm)).symm
      · rw [Function.update_of_ne hj]
        by_cases hl : l = i
        · rw [hl, Function.update_self]
          exact hdisjoint j hj
        · rw [Function.update_of_ne hl]
          exact hnode.disjoint j l hjl
  · by_cases hj : j = i
    · rwa [hj]
    · rw [hsame j hj]
      exact (hslots j).congr (hkeys j hj)
  · by_cases hj : j = i
    · subst hj
      rw [Function.update_self]
      exact htree q hq
    · rw [Function.update_of_ne hj]
      rw [hsame j hj] at hq
      refine (hnext j q hq).congr (fun r hr => ?_) (hkeys j hj)
      refine hothers r (hnode.sub j hr) (fun hrp => hnode.notMem j (hrp ▸ hr)) fun hri => ?_
      exact Set.disjoint_left.mp (hnode.disjoint j i hj) hr hri

/-- The slots after a write to one of them. -/
def setSlot (T : Table ν) (p i : ℕ) (slot : Slot ν) : Table ν :=
  Function.update T p (Function.update (T p) i slot)

@[simp] theorem setSlot_self : setSlot T p i slot p i = slot := by
  unfold setSlot
  rw [Function.update_self, Function.update_self]

theorem setSlot_of_ne {j : ℕ} (hj : j ≠ i) : setSlot T p i slot p j = T p j := by
  unfold setSlot
  rw [Function.update_self, Function.update_of_ne hj]

theorem setSlot_page {q : ℕ} (hq : q ≠ p) : setSlot T p i slot q = T q := Function.update_of_ne hq _ _

theorem Crowded.update [DecidableEq κ] (h : Crowded R contents place) (k : κ) (x : ν) :
    Crowded R (Function.update contents k (some x)) place := by
  obtain ⟨k₁, k₂, hne, hk₁, hk₂, hc₁, hc₂⟩ := h
  have hkeep {k' : κ} (hc : contents k' ≠ none) : Function.update contents k (some x) k' ≠ none := by
    by_cases hk' : k' = k
    · rw [hk', Function.update_self]
      exact Option.some_ne_none x
    · rwa [Function.update_of_ne hk']
  exact ⟨k₁, k₂, hne, hk₁, hk₂, hkeep hc₁, hkeep hc₂⟩

theorem Sole.crowded [DecidableEq κ] (h : Sole R contents place k) (hne : k ≠ k') (hk' : R.Below place k')
    (x : ν) : Crowded R (Function.update contents k' (some x)) place := by
  refine ⟨k, k', hne, h.1, hk', ?_, ?_⟩
  · rw [Function.update_of_ne hne]
    exact h.2.1
  · rw [Function.update_self]
    exact Option.some_ne_none x

/-- A key is stored in a slot where no other one is. -/
theorem Tree.put [DecidableEq κ] (hnode : Node R place p pages below)
    (hslots : ∀ j, Says R contents (place ++ [j]) (T p j))
    (hnext : ∀ j q, T p j = .next q → Tree R T contents (place ++ [j]) q (below j))
    (hk : R.Below (place ++ [i]) k)
    (hothers : ∀ k', R.Below (place ++ [i]) k' → k' ≠ k → contents k' = none) (x : ν) :
    Tree R (setSlot T p i (.leaf x)) (Function.update contents k (some x)) place p pages := by
  rw [← Set.union_empty pages]
  refine Tree.replace hnode hslots hnext (fun j hj => setSlot_of_ne hj) (fun q _ hq _ => setSlot_page hq)
    (fun q hq => hq.elim) (fun k' _ hout => ?_) ?_ (fun q hq => ?_)
  · refine Function.update_of_ne ?_ _ _
    rintro rfl
    exact hout hk
  · rw [setSlot_self]
    refine ⟨k, Function.update_self _ _ _, hk, ?_, fun k' hk' hne => ?_⟩
    · rw [Function.update_self]
      exact Option.some_ne_none x
    · rw [Function.update_of_ne hne]
      exact hothers k' hk' hne
  · rw [setSlot_self] at hq
    cases hq

/-- A slot is made to lead to a page that was written. -/
theorem Tree.descend {T₁ : Table ν} {q : ℕ} (hnode : Node R place p pages below)
    (hslots : ∀ j, Says R contents (place ++ [j]) (T p j))
    (hnext : ∀ j q, T p j = .next q → Tree R T contents (place ++ [j]) q (below j))
    (hothers : ∀ r ∈ pages, r ∉ below i → T₁ r = T r) (htree : Tree R T₁ contents' (place ++ [i]) q new)
    (hnew : ∀ r ∈ new, r ∈ below i ∨ r ∉ pages)
    (heq : ∀ k, R.Below place k → ¬R.Below (place ++ [i]) k → contents' k = contents k)
    (hcrowded : Crowded R contents' (place ++ [i])) :
    Tree R (setSlot T₁ p i (.next q)) contents' place p (pages ∪ new) := by
  have hp : T₁ p = T p := hothers p hnode.mem (hnode.notMem i)
  refine Tree.replace hnode hslots hnext (fun j hj => ?_) (fun r hr hrp hri => ?_) hnew heq ?_ (fun r hr => ?_)
  · rw [setSlot_of_ne hj, hp]
  · rw [setSlot_page hrp, hothers r hr hri]
  · rw [setSlot_self]
    exact hcrowded
  · rw [setSlot_self] at hr
    obtain rfl := Slot.next.inj hr
    refine htree.congr (fun r hr => setSlot_page ?_) fun _ _ => rfl
    rintro rfl
    rcases hnew r hr with hin | hout
    · exact hnode.notMem i hin
    · exact hout hnode.mem

/-! ## A new page -/

/-- A page where one slot holds the only key of its place. -/
theorem Tree.lone (hlt : place.length < R.length) (hsole : Sole R contents place k)
    (hx : contents k = some x) (hi : R.Below (place ++ [i]) k) (hslot : T p i = .leaf x)
    (hempty : ∀ j, j ≠ i → T p j = .empty) : Tree R T contents place p {p} := by
  refine @Tree.node κ ν R T contents place p {p} (fun _ => ∅) ?_ (fun j => ?_) (fun j q hq => ?_)
  · exact ⟨hlt, rfl, fun _ => Set.empty_subset _, fun _ => Set.notMem_empty p,
      fun _ _ _ => Set.disjoint_empty _⟩
  · by_cases hj : j = i
    · rw [hj, hslot]
      exact ⟨k, hx, hi, hsole.2.1, fun k' hk' hne => hsole.2.2 k' hk'.of_concat hne⟩
    · rw [hempty j hj]
      intro k' hk'
      refine hsole.2.2 k' hk'.of_concat ?_
      rintro rfl
      exact hj (hk'.eq_of_concat hi)
  · by_cases hj : j = i
    · rw [hj, hslot] at hq
      cases hq
    · rw [hempty j hj] at hq
      cases hq

/-- A page where nothing is stored. -/
theorem Tree.blank (hlt : place.length < R.length) (hnone : ∀ k, R.Below place k → contents k = none)
    (hempty : ∀ j, T p j = .empty) : Tree R T contents place p {p} := by
  refine @Tree.node κ ν R T contents place p {p} (fun _ => ∅) ?_ (fun j => ?_) (fun j q hq => ?_)
  · exact ⟨hlt, rfl, fun _ => Set.empty_subset _, fun _ => Set.notMem_empty p,
      fun _ _ _ => Set.disjoint_empty _⟩
  · rw [hempty j]
    exact fun k hk => hnone k hk.of_concat
  · rw [hempty j] at hq
    cases hq

end

end RadixPages
