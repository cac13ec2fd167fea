import ZkevmProver.HashDB64.PageManager
import ZkevmProver.Lib.RadixPages

/-!
# Radix trees in the pages of a page manager

The pages of one kind are read as slots of a radix tree.  A write changes pages of the tree and takes free
ones, besides other pages that the tree does not have.

  1. The slots of the pages.
  2. A leaf that is moved to a new page.
  3. A write in a slot, and below it.
-/

namespace ZkevmProver.HashDB64

open RadixPages PageManager

variable {κ ν : Type*} {R : Radix κ} {slots : Page → ℕ → Slot ν} {m m' : PageManager}
  {contents : κ → Option ν} {place : List ℕ} {p q i : ℕ} {pages new others : Set ℕ} {below : ℕ → Set ℕ}
  {key key' : κ} {x : ν} {page blank : Page} {slot : Slot ν}

/-! ## The slots of the pages -/

/-- The pages of a page manager, when `slots` tells how a page is read. -/
def pageTable (slots : Page → ℕ → Slot ν) (m : PageManager) : Table ν := fun p => slots (m.pages p)

theorem pageTable_setPage (h : slots page = Function.update (slots (m.pages p)) i slot) :
    pageTable slots (m.setPage p page) = setSlot (pageTable slots m) p i slot := by
  funext q
  unfold pageTable setSlot
  by_cases hq : q = p
  · subst hq
    rw [pages_setPage_self, Function.update_self, h]
  · rw [pages_setPage_of_ne hq, Function.update_of_ne hq]

theorem pageTable_congr (h : m'.pages q = m.pages q) : pageTable slots m' q = pageTable slots m q := by
  unfold pageTable
  rw [h]

/-! ## A leaf that is moved to a new page -/

/-- A new page that holds the leaf of a key alone. -/
theorem moved_spec (hwellFormed : m.WellFormed) (hlt : place.length < R.length)
    (hsole : Sole R contents place key') (hx : contents key' = some x) (hi : R.Below (place ++ [i]) key')
    (hblank : slots blank = fun _ => .empty)
    (hpage : slots page = Function.update (slots blank) i (.leaf x)) :
    let m' := (m.getFreePage.2.setPage m.getFreePage.1 blank).setPage m.getFreePage.1 page
    RadixPages.Tree R (pageTable slots m') contents place m.getFreePage.1 {m.getFreePage.1} ∧ Frame m m' ∅ ∧
      m'.Editable {m.getFreePage.1} := by
  intro m'
  have htaken := frame_getFreePage hwellFormed
  have hframe := @frame_setPage m.getFreePage.2 m.getFreePage.1 blank htaken.wellFormed
  have hframe' := @frame_setPage _ m.getFreePage.1 page hframe.wellFormed
  have hnone : ∀ q ∈ ({m.getFreePage.1} : Set ℕ), m.Allocated q → q ∈ (∅ : Set ℕ) := by
    rintro q rfl hq
    exact absurd hq (getFreePage_takes hwellFormed).fresh
  refine ⟨?_, (htaken.trans hframe hnone).trans hframe' hnone, ?_⟩
  · have htable : pageTable slots m' m.getFreePage.1 = Function.update (fun _ => .empty) i (.leaf x) := by
      unfold pageTable
      rw [pages_setPage_self, hpage, hblank]
    refine RadixPages.Tree.lone hlt hsole hx hi ?_ fun j hj => ?_
    · rw [htable, Function.update_self]
    · rw [htable, Function.update_of_ne hj]
  · exact ((editable_getFreePage hwellFormed).frame hframe).frame hframe'

/-- A leaf and the key of a write differ, so both have a digit more. -/
theorem exists_newIndex (hk : R.Below place key) (hk' : R.Below place key') (hne : key ≠ key') :
    place.length < R.length ∧ ∃ newIndex, (R.digits key')[place.length]? = some newIndex ∧
      R.Below (place ++ [newIndex]) key' := by
  have hlt := length_lt_of_ne hk hk' hne
  have hlt' := hlt
  rw [← R.length_digits key'] at hlt'
  refine ⟨hlt, (R.digits key')[place.length], List.getElem?_eq_getElem hlt', ?_⟩
  obtain ⟨rest, hrest⟩ := hk'
  have hrest' : rest ≠ [] := by
    rintro rfl
    rw [List.append_nil] at hrest
    rw [hrest] at hlt'
    exact Nat.lt_irrefl _ hlt'
  obtain ⟨i, rest, rfl⟩ := List.exists_cons_of_ne_nil hrest'
  refine ⟨rest, ?_⟩
  simp [← hrest]

/-- A page of a tree has a digit to look up. -/
theorem exists_bits {T : Table ν} {bits : List ℕ} (h : RadixPages.Tree R T contents place p pages)
    (hbits : place ++ bits = R.digits key) : bits ≠ [] := by
  rintro rfl
  cases h with
  | node hnode =>
    have hlt := hnode.length_lt
    rw [← R.length_digits key, ← hbits, List.append_nil] at hlt
    exact Nat.lt_irrefl _ hlt

/-! ## A write in a slot, and below it -/

section

variable [DecidableEq κ]

/-- What a write of a key leaves: other keys have what they had. -/
structure Writes (R : Radix κ) (slots : Page → ℕ → Slot ν) (m m' : PageManager) (contents : κ → Option ν)
    (key : κ) (x : ν) (place : List ℕ) (p : ℕ) (pages pages' others : Set ℕ) : Prop where
  frame : Frame m m' (pages ∪ others)
  editable : m'.Editable pages'
  fresh : ∀ q ∈ pages', q ∈ pages ∨ ¬m.Allocated q
  tree : RadixPages.Tree R (pageTable slots m') (Function.update contents key (some x)) place p pages'

variable (hnode : RadixPages.Node R place p pages below)
  (hslots : ∀ j, Says R contents (place ++ [j]) (pageTable slots m p j))
  (hnext : ∀ j q, pageTable slots m p j = .next q → RadixPages.Tree R (pageTable slots m) contents (place ++ [j]) q (below j))
  (hpages : m.Editable pages) (hothers : ∀ r ∈ pages, r ∉ others)

include hnode hslots hnext hpages hothers

/-- The slot becomes a leaf, after a step that writes other pages. -/
theorem writes_put (hframe : Frame m m' others) (hk : R.Below (place ++ [i]) key)
    (hsole : ∀ k, R.Below (place ++ [i]) k → k ≠ key → contents k = none)
    (hpage : slots page = Function.update (slots (m'.pages p)) i (.leaf x)) :
    Writes R slots m (m'.setPage p page) contents key x place p pages pages others where
  frame := hframe.mono Set.subset_union_right |>.trans (frame_setPage hframe.wellFormed) (by
    rintro r rfl _
    exact .inl hnode.mem)
  editable := (hpages.frame hframe).frame (frame_setPage hframe.wellFormed)
  fresh _ hq := .inl hq
  tree := by
    have htable (r : ℕ) (hr : r ∈ pages) : pageTable slots m' r = pageTable slots m r :=
      pageTable_congr (hframe.pages r (hpages r hr).2.1 (hothers r hr))
    rw [pageTable_setPage hpage]
    refine RadixPages.Tree.put hnode (fun j => ?_) (fun j q hq => ?_) hk hsole x
    · rw [htable p hnode.mem]
      exact hslots j
    · rw [htable p hnode.mem] at hq
      exact (hnext j q hq).congr (fun r hr => htable r (hnode.sub j hr)) fun _ _ => rfl

/-- The slot is made to lead to a page below, which was written. -/
theorem writes_descend (hframe : Frame m m' (below i ∪ others)) (hnew : m'.Editable new)
    (hfresh : ∀ r ∈ new, r ∈ below i ∨ ¬m.Allocated r) (hk : R.Below (place ++ [i]) key)
    (htree : RadixPages.Tree R (pageTable slots m') (Function.update contents key (some x)) (place ++ [i]) q new)
    (hcrowded : Crowded R (Function.update contents key (some x)) (place ++ [i]))
    (hpage : slots page = Function.update (slots (m'.pages p)) i (.next q)) :
    Writes R slots m (m'.setPage p page) contents key x place p pages (pages ∪ new) others where
  frame := by
    refine (hframe.mono (Set.union_subset_union_left others (hnode.sub i))).trans
      (frame_setPage hframe.wellFormed) ?_
    rintro r rfl _
    exact .inl hnode.mem
  editable := ((hpages.frame hframe).union hnew).frame (frame_setPage hframe.wellFormed)
  fresh := by
    rintro r (hr | hr)
    · exact .inl hr
    · exact (hfresh r hr).imp (fun hin => hnode.sub i hin) id
  tree := by
    rw [pageTable_setPage hpage]
    refine RadixPages.Tree.descend hnode hslots hnext (fun r hr hri => ?_) htree (fun r hr => ?_) (fun k _ hout => ?_)
      hcrowded
    · refine pageTable_congr (hframe.pages r (hpages r hr).2.1 ?_)
      rintro (hin | hin)
      · exact hri hin
      · exact hothers r hr hin
    · exact (hfresh r hr).imp_right fun hnot hin => hnot (hpages r hin).2.1
    · refine Function.update_of_ne ?_ _ _
      rintro rfl
      exact hout hk

end

end ZkevmProver.HashDB64
