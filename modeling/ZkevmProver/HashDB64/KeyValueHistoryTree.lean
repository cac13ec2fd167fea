import Mathlib.Data.Set.BooleanAlgebra
import Mathlib.Order.CompletePartialOrder
import ZkevmProver.HashDB64.KeyValueHistoryPage
import ZkevmProver.Lib.VersionedValues

/-!
# Pages that store histories

The pages are a tree.  A slot that is empty says that its keys have no history, a leaf that all of them but
one have none, and what the newest values of that one are.  A step that changes some of the pages, and that
appends raw data, leaves what the others say.

  1. What a leaf says.
  2. What the pages say.
  3. Steps.
  4. One slot is replaced.
-/

namespace ZkevmProver.HashDB64

namespace KeyValueHistoryPage

open BigEndian VersionedValues

/-! ## What a leaf says -/

/-- The versions and values of each key, the newest ones first. -/
abbrev Histories := Fea → List (ℕ × ℕ)

/-- The key and the value are at the location. -/
structure Stored (m : PageManager) (location : Location) (key : Fea) (value : ℕ) : Prop where
  lt : value < 2 ^ 256
  minOffset_le : RawDataPage.minOffset ≤ location.rawDataOffset
  lt_maxOffset : location.rawDataOffset < RawDataPage.maxOffset
  holds : RawDataPage.Holds m location.rawDataPage location.rawDataOffset (fea2ba key ++ bytes 32 value)

/-- What is before the newest value of a leaf: nothing, or an entry in the history of the page. -/
inductive Older (m : PageManager) (page : KeyValueHistoryStruct) (key : Fea) : ℕ → List (ℕ × ℕ) → Prop
  | none : Older m page key 0 []
  | entry {j value : ℕ} {older : List (ℕ × ℕ)} :
      minHistoryOffset + (j + 1) * entrySize ≤ page.historyOffset →
      Stored m (page.historyEntry j).location key value →
      Older m page key (minHistoryOffset + j * entrySize) (((page.historyEntry j).version, value) :: older)

/-- The keys that are looked up at a place of the tree. -/
def Below (place : List ℕ) (key : Fea) : Prop := place <+: splitKey6 key

structure Leaf (m : PageManager) (histories : Histories) (page : KeyValueHistoryStruct) (place : List ℕ)
    (entry : KeyValueEntry) (key : Fea) (value : ℕ) (older : List (ℕ × ℕ)) : Prop where
  below : Below place key
  others : ∀ key', Below place key' → key' ≠ key → histories key' = []
  histories_eq : histories key = (entry.version, value) :: older
  stored : Stored m entry.location key value
  older : Older m page key entry.previousVersionOffset older

/-! ## What the pages say -/

/-- A slot that leads to no page. -/
inductive Flat (m : PageManager) (histories : Histories) (page : KeyValueHistoryStruct) (place : List ℕ)
    (entry : KeyValueEntry) : Prop
  | empty : entry.control = 0 → (∀ key, Below place key → histories key = []) → Flat m histories page place entry
  | leaf {key : Fea} {value : ℕ} {older : List (ℕ × ℕ)} :
      entry.control = 1 → Leaf m histories page place entry key value older → Flat m histories page place entry

/-- A page of the tree, and the pages below each of its slots. -/
structure Node (m : PageManager) (place : List ℕ) (p : ℕ) (pages : Set ℕ) (page : KeyValueHistoryStruct)
    (below : ℕ → Set ℕ) : Prop where
  length_lt : place.length < 43
  ne_one : p ≠ 1
  live : m.Live p
  page_eq : m.pages p = .history page
  historyOffset : ∃ n ≤ 106, page.historyOffset = minHistoryOffset + n * entrySize
  allocated : ∀ q ∈ pages, m.Allocated q
  mem : p ∈ pages
  sub : ∀ i, below i ⊆ pages
  notMem : ∀ i, p ∉ below i
  disjoint : ∀ i j, i ≠ j → Disjoint (below i) (below j)

/-- The pages from a place on say what the histories of its keys are. -/
inductive Tree (m : PageManager) (histories : Histories) : List ℕ → ℕ → Set ℕ → Prop
  | node {place : List ℕ} {p : ℕ} {pages : Set ℕ} {page : KeyValueHistoryStruct} {below : ℕ → Set ℕ} :
      Node m place p pages page below →
      (∀ i, (page.keyValueEntry i).control ≠ 2 →
        Flat m histories page (place ++ [i]) (page.keyValueEntry i)) →
      (∀ i, (page.keyValueEntry i).control = 2 →
        Tree m histories (place ++ [i]) (page.keyValueEntry i).location.rawDataPage (below i)) →
      Tree m histories place p pages

/-- What a slot says. -/
inductive Slot (m : PageManager) (histories : Histories) (page : KeyValueHistoryStruct) (place : List ℕ)
    (entry : KeyValueEntry) (pages : Set ℕ) : Prop
  | flat : entry.control ≠ 2 → Flat m histories page place entry → Slot m histories page place entry pages
  | next : entry.control = 2 → Tree m histories place entry.location.rawDataPage pages →
      Slot m histories page place entry pages

/-- The page where raw data are appended can be found from the header. -/
structure HeaderOk (m : PageManager) (headerPageNumber : ℕ) : Prop where
  wellFormed : m.WellFormed
  allocated : m.Allocated headerPageNumber
  live : m.Live headerPageNumber
  current : ∃ header page, m.pages headerPageNumber = .header header ∧
    RawDataPage.Current m header.rawDataPage page ∧ page.offset < RawDataPage.maxOffset

/-! ## Steps -/

/-- Only the history pages of a set change, and only raw data are appended. -/
structure Changes (m m' : PageManager) (changed : Set ℕ) : Prop extends RawDataPage.KeepsRaw m m' where
  live : ∀ q, m.Live q → m'.Live q
  history : ∀ q page, q ∉ changed → m.Allocated q → m.pages q = .history page → m'.pages q = .history page

section

variable {m m' m'' : PageManager} {histories histories' : Histories} {page page' : KeyValueHistoryStruct}
  {place : List ℕ} {entry entry' : KeyValueEntry} {key : Fea} {value p : ℕ} {pages changed : Set ℕ}

theorem Changes.refl (m : PageManager) (changed : Set ℕ) : Changes m m changed where
  toKeepsRaw := RawDataPage.keepsRaw_of_pages (fun _ hq => hq) fun _ _ _ hpage => hpage
  live _ hq := hq
  history _ _ _ _ hpage := hpage

theorem Changes.trans {changed₁ changed₂ : Set ℕ} (h : Changes m m' changed₁) (h' : Changes m' m'' changed₂)
    (hsub : ∀ q ∈ changed₁, m.Allocated q → q ∈ changed) (hsub' : ∀ q ∈ changed₂, m.Allocated q → q ∈ changed) :
    Changes m m'' changed where
  toKeepsRaw := h.toKeepsRaw.trans h'.toKeepsRaw
  live q hq := h'.live q (h.live q hq)
  history q page hq ha hpage :=
    h'.history q page (fun hmem => hq (hsub' q hmem ha)) (h.allocated q ha)
      (h.history q page (fun hmem => hq (hsub q hmem ha)) ha hpage)

theorem Changes.mono {changed' : Set ℕ} (h : Changes m m' changed) (hsub : changed ⊆ changed') :
    Changes m m' changed' where
  toKeepsRaw := h.toKeepsRaw
  live := h.live
  history q page hq := h.history q page fun hmem => hq (hsub hmem)

/-- A history page is changed. -/
theorem changes_setPage (hpage : m.pages p = .history page) : Changes m (m.setPage p (.history page')) {p} where
  toKeepsRaw := by
    refine RawDataPage.keepsRaw_of_pages (fun q hq => PageManager.allocated_setPage.mpr hq) ?_
    intro q raw _ hraw
    rw [PageManager.pages_setPage_of_ne, hraw]
    rintro rfl
    simp [hpage] at hraw
  live _ hq := hq
  history q _ hq _ hpage' := by rwa [PageManager.pages_setPage_of_ne fun heq => hq heq]

theorem changes_of_extends (h : RawDataPage.Extends m m') : Changes m m' ∅ where
  toKeepsRaw := h.toKeepsRaw
  live := h.live
  history q page _ hq hpage := by
    rw [h.pages q hq (by simp [hpage]), hpage]

theorem Stored.keeps {location : Location} (h : Stored m location key value) (hm : RawDataPage.KeepsRaw m m') :
    Stored m' location key value := ⟨h.lt, h.minOffset_le, h.lt_maxOffset, h.holds.extends hm⟩

/-- The history of the page is only added to. -/
structure HistoryAdded (page page' : KeyValueHistoryStruct) : Prop where
  historyOffset_le : page.historyOffset ≤ page'.historyOffset
  historyEntry_eq : ∀ j, minHistoryOffset + (j + 1) * entrySize ≤ page.historyOffset →
    page'.historyEntry j = page.historyEntry j

theorem Older.keeps {offset : ℕ} {older : List (ℕ × ℕ)} (h : Older m page key offset older)
    (hm : RawDataPage.KeepsRaw m m') (hpage : HistoryAdded page page') : Older m' page' key offset older := by
  cases h with
  | none => exact .none
  | @entry j value older hj hstored =>
    have heq := hpage.historyEntry_eq j hj
    rw [← heq] at hstored ⊢
    exact .entry (hj.trans hpage.historyOffset_le) (hstored.keeps hm)

/-- Entries that differ in the location of the hash only. -/
def SameButHash (entry entry' : KeyValueEntry) : Prop := { entry with hash := entry'.hash } = entry'

theorem Flat.keeps (h : Flat m histories page place entry) (hm : RawDataPage.KeepsRaw m m')
    (hpage : HistoryAdded page page') (hentry : SameButHash entry entry')
    (hhistories : ∀ key, Below place key → histories' key = histories key) :
    Flat m' histories' page' place entry' := by
  rw [← hentry]
  cases h with
  | empty hcontrol hempty => exact .empty hcontrol fun key hkey => (hhistories key hkey).trans (hempty key hkey)
  | leaf hcontrol hleaf =>
    refine .leaf hcontrol ⟨hleaf.below, fun key' hbelow hne => ?_, ?_, hleaf.stored.keeps hm,
      hleaf.older.keeps hm hpage⟩
    · rw [hhistories key' hbelow, hleaf.others key' hbelow hne]
    · rw [hhistories _ hleaf.below, hleaf.histories_eq]

theorem Below.of_concat {i : ℕ} (h : Below (place ++ [i]) key) : Below place key :=
  (List.prefix_append place [i]).trans h

theorem Below.eq_of_concat {i j : ℕ} (h : Below (place ++ [i]) key) (h' : Below (place ++ [j]) key) : i = j := by
  have heq := (List.prefix_of_prefix_length_le h h' (by simp)).eq_of_length (by simp)
  simpa using heq

theorem Node.keeps {below : ℕ → Set ℕ} (h : Node m place p pages page below) (hm : Changes m m' changed)
    (hpage : m'.pages p = .history page) : Node m' place p pages page below :=
  ⟨h.length_lt, h.ne_one, hm.live p h.live, hpage, h.historyOffset, fun q hq => hm.allocated q (h.allocated q hq),
    h.mem, h.sub, h.notMem, h.disjoint⟩

theorem historyAdded_refl (page : KeyValueHistoryStruct) : HistoryAdded page page := ⟨le_rfl, fun _ _ => rfl⟩

/-- A tree is kept by a step that changes other pages, for its own keys. -/
theorem Tree.keeps (h : Tree m histories place p pages) (hm : Changes m m' changed)
    (hdisjoint : Disjoint pages changed) (hhistories : ∀ key, Below place key → histories' key = histories key) :
    Tree m' histories' place p pages := by
  induction h with
  | @node place p pages page below hnode hflat _ ih =>
    have hp : p ∉ changed := Set.disjoint_left.mp hdisjoint hnode.mem
    refine .node (hnode.keeps hm (hm.history p page hp (hnode.allocated p hnode.mem) hnode.page_eq)) ?_ ?_
    · intro i hi
      exact (hflat i hi).keeps hm.toKeepsRaw (historyAdded_refl page) rfl
        fun key hkey => hhistories key hkey.of_concat
    · intro i hi
      exact ih i hi (hdisjoint.mono_left (hnode.sub i)) fun key hkey => hhistories key hkey.of_concat

theorem Tree.allocated (h : Tree m histories place p pages) : ∀ q ∈ pages, m.Allocated q := by
  cases h with
  | node hnode => exact hnode.allocated

theorem Tree.slots (h : Tree m histories place p pages) : ∃ page below, Node m place p pages page below ∧
    ∀ i, Slot m histories page (place ++ [i]) (page.keyValueEntry i) (below i) := by
  cases h with
  | @node _ _ _ page below hnode hflat hnext =>
    refine ⟨page, below, hnode, fun i => ?_⟩
    by_cases hi : (page.keyValueEntry i).control = 2
    · exact .next hi (hnext i hi)
    · exact .flat hi (hflat i hi)

theorem tree_of_slots {below : ℕ → Set ℕ} (hnode : Node m place p pages page below)
    (h : ∀ i, Slot m histories page (place ++ [i]) (page.keyValueEntry i) (below i)) :
    Tree m histories place p pages := by
  refine .node hnode (fun i hi => ?_) (fun i hi => ?_)
  · cases h i with
    | flat _ hflat => exact hflat
    | next hnext => exact absurd hnext hi
  · cases h i with
    | flat hflat => exact absurd hi hflat
    | next _ htree => exact htree

theorem Slot.keeps (h : Slot m histories page place entry pages) (hm : Changes m m' changed)
    (hdisjoint : Disjoint pages changed) (hpage : HistoryAdded page page') (hentry : SameButHash entry entry')
    (hhistories : ∀ key, Below place key → histories' key = histories key) :
    Slot m' histories' page' place entry' pages := by
  have hcontrol : entry'.control = entry.control := by
    rw [← hentry]
  cases h with
  | flat hne hflat => exact .flat (by rwa [hcontrol]) (hflat.keeps hm.toKeepsRaw hpage hentry hhistories)
  | next heq htree =>
    refine .next (hcontrol.trans heq) ?_
    rw [← hentry]
    exact htree.keeps hm hdisjoint hhistories

/-! ## One slot is replaced -/

/-- A page that differs in one slot, in the location of hashes, and in what was added to the history. -/
structure SlotReplaced (i : ℕ) (page page' : KeyValueHistoryStruct) : Prop extends HistoryAdded page page' where
  historyOffset : ∃ n ≤ 106, page'.historyOffset = minHistoryOffset + n * entrySize
  others : ∀ j, j ≠ i → SameButHash (page.keyValueEntry j) (page'.keyValueEntry j)

theorem Tree.replace {below : ℕ → Set ℕ} {i : ℕ} {new : Set ℕ} (hnode : Node m place p pages page below)
    (hslots : ∀ j, Slot m histories page (place ++ [j]) (page.keyValueEntry j) (below j))
    (hm : Changes m m' (insert p (below i))) (hpage : m'.pages p = .history page')
    (hreplaced : SlotReplaced i page page')
    (hslot : Slot m' histories' page' (place ++ [i]) (page'.keyValueEntry i) new)
    (hnew : ∀ q ∈ new, q ∈ below i ∨ ¬m.Allocated q) (hallocated : ∀ q ∈ new, m'.Allocated q)
    (hhistories : ∀ key, Below place key → ¬Below (place ++ [i]) key → histories' key = histories key) :
    Tree m' histories' place p (pages ∪ new) := by
  have hdisjoint (j : ℕ) (hj : j ≠ i) : Disjoint (below j) new := by
    rw [Set.disjoint_left]
    intro q hq hmem
    rcases hnew q hmem with hin | hfresh
    · exact Set.disjoint_left.mp (hnode.disjoint j i hj) hq hin
    · exact hfresh (hnode.allocated q (hnode.sub j hq))
  have hp : p ∉ new := by
    intro hmem
    rcases hnew p hmem with hin | hfresh
    · exact hnode.notMem i hin
    · exact hfresh (hnode.allocated p hnode.mem)
  apply @tree_of_slots m' histories' page' place p (pages ∪ new) (Function.update below i new)
  · refine ⟨hnode.length_lt, hnode.ne_one, hm.live p hnode.live, hpage, hreplaced.historyOffset, ?_,
      .inl hnode.mem, ?_, ?_, ?_⟩
    · rintro q (hq | hq)
      · exact hm.allocated q (hnode.allocated q hq)
      · exact hallocated q hq
    · intro j
      by_cases hj : j = i
      · subst hj
        rw [Function.update_self]
        exact Set.subset_union_right
      · rw [Function.update_of_ne hj]
        exact (hnode.sub j).trans Set.subset_union_left
    · intro j
      by_cases hj : j = i
      · subst hj
        rwa [Function.update_self]
      · rw [Function.update_of_ne hj]
        exact hnode.notMem j
    · intro j k hjk
      by_cases hj : j = i
      · subst hj
        rw [Function.update_self, Function.update_of_ne hjk.symm]
        exact (hdisjoint k hjk.symm).symm
      · rw [Function.update_of_ne hj]
        by_cases hk : k = i
        · subst hk
          rw [Function.update_self]
          exact hdisjoint j hj
        · rw [Function.update_of_ne hk]
          exact hnode.disjoint j k hjk
  · intro j
    by_cases hj : j = i
    · subst hj
      rwa [Function.update_self]
    · rw [Function.update_of_ne hj]
      refine (hslots j).keeps hm ?_ hreplaced.toHistoryAdded (hreplaced.others j hj) fun key hkey => ?_
      · rw [Set.disjoint_insert_right]
        exact ⟨hnode.notMem j, hnode.disjoint j i hj⟩
      · exact hhistories key hkey.of_concat fun hi => hj (hkey.eq_of_concat hi)

end

end KeyValueHistoryPage

end ZkevmProver.HashDB64
