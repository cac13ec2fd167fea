import ZkevmProver.HashDB64.KeyValueHistoryTree

/-!
# Writing in the tree

A write adds to the history of its key, and to no other one, as long as the history of the page of its leaf
is not full, and no key with older values is moved to a new page.

  1. Where raw data go.
  2. The slot that is written.
  3. A leaf is written.
  4. A page below is written.
  5. `Write`.
-/

namespace ZkevmProver.HashDB64

namespace KeyValueHistoryPage

open BigEndian VersionedValues

variable {m m' m₁ : PageManager} {histories histories' : Histories} {page page' page₁ : KeyValueHistoryStruct}
  {place : List ℕ} {entry : KeyValueEntry} {key : Fea} {value p h i : ℕ} {pages : Set ℕ} {below : ℕ → Set ℕ}

/-! ## Where raw data go -/

theorem HeaderOk.of_pages (hh : HeaderOk m h) (hwellFormed : m'.WellFormed)
    (hallocated : ∀ q, m.Allocated q → m'.Allocated q) (hlive : ∀ q, m.Live q → m'.Live q)
    (hpages : ∀ q, m.Allocated q → (∀ page, m.pages q ≠ .history page) → m'.pages q = m.pages q) :
    HeaderOk m' h := by
  obtain ⟨header, page, hheader, hcurrent, hlt⟩ := hh.current
  refine ⟨hwellFormed, hallocated h hh.allocated, hlive h hh.live, header, page, ?_, ?_, hlt⟩
  · rw [hpages h hh.allocated (by simp [hheader]), hheader]
  · refine ⟨hallocated _ hcurrent.allocated, ?_, hcurrent.nextPageNumber, hcurrent.minOffset_le,
      hcurrent.le_maxOffset⟩
    rw [hpages _ hcurrent.allocated (by simp [hcurrent.pages]), hcurrent.pages]

theorem HeaderOk.setPage (hh : HeaderOk m h) (hpage : m.pages p = .history page) :
    HeaderOk (m.setPage p (.history page')) h := by
  refine hh.of_pages hh.wellFormed.setPage (fun q hq => PageManager.allocated_setPage.mpr hq) (fun _ hq => hq) ?_
  intro q _ hne
  apply PageManager.pages_setPage_of_ne
  rintro rfl
  exact hne page hpage

theorem insertRawData_spec (hh : HeaderOk m h) (data : List UInt8) :
    ∃ m' location, insertRawData m h data = .ok (m', h, location) ∧ Changes m m' ∅ ∧ HeaderOk m' h ∧
      RawDataPage.minOffset ≤ location.rawDataOffset ∧ location.rawDataOffset < RawDataPage.maxOffset ∧
      RawDataPage.Holds m' location.rawDataPage location.rawDataOffset data := by
  obtain ⟨header, page, hheader, hcurrent, hlt⟩ := hh.current
  obtain ⟨m₁, hedit, hpages, hfree, hfirst, hlive⟩ := PageManager.editPage_of_live hh.live
  have hallocated (q : ℕ) : m₁.Allocated q ↔ m.Allocated q := by
    unfold PageManager.Allocated
    rw [hfree, hfirst]
  have hwellFormed : m₁.WellFormed := by
    refine ⟨(hallocated 0).mpr hh.wellFormed.zero, (hallocated 1).mpr hh.wellFormed.one, ?_, ?_⟩
    · rw [hfree]
      exact hh.wellFormed.nodup
    · rw [hfree, hfirst]
      exact hh.wellFormed.lt
  have hcurrent₁ : RawDataPage.Current m₁ header.rawDataPage page :=
    ⟨(hallocated _).mpr hcurrent.allocated, by rw [hpages, hcurrent.pages], hcurrent.nextPageNumber,
      hcurrent.minOffset_le, hcurrent.le_maxOffset⟩
  have hchanges₁ : Changes m m₁ ∅ := by
    refine ⟨RawDataPage.keepsRaw_of_pages (fun q hq => (hallocated q).mpr hq) ?_, hlive, ?_⟩
    · intro q _ _ hpage
      rw [hpages, hpage]
    · intro q _ _ _ hpage
      rw [hpages, hpage]
  obtain ⟨m₂, p₂, page₂, hwrite, hextends, hcurrent₂, hlt₂, hholds⟩ :=
    @RawDataPage.write_spec m₁ header.rawDataPage data page hwellFormed hcurrent₁ hlt
  have hheader₂ : m₂.pages h = .header header := by
    rw [hextends.pages h ((hallocated h).mpr hh.allocated) (by simp [hpages, hheader]), hpages, hheader]
  have hne : p₂ ≠ h := by
    rintro rfl
    simp [hcurrent₂.pages] at hheader₂
  have hkeeps : RawDataPage.KeepsRaw m₂ (m₂.setPage h (.header { header with rawDataPage := p₂ })) := by
    refine RawDataPage.keepsRaw_of_pages (fun q hq => PageManager.allocated_setPage.mpr hq) ?_
    intro q raw _ hraw
    rw [PageManager.pages_setPage_of_ne, hraw]
    rintro rfl
    simp [hheader₂] at hraw
  have hchanges₂ : Changes m₂ (m₂.setPage h (.header { header with rawDataPage := p₂ })) ∅ := by
    refine ⟨hkeeps, fun _ hq => hq, ?_⟩
    intro q page _ _ hpage
    rw [PageManager.pages_setPage_of_ne, hpage]
    rintro rfl
    simp [hheader₂] at hpage
  refine ⟨m₂.setPage h (.header { header with rawDataPage := p₂ }), ⟨page.offset, header.rawDataPage⟩, ?_, ?_,
    ?_, hcurrent.minOffset_le, hlt, hholds.extends hkeeps⟩
  · unfold insertRawData
    rw [hedit]
    dsimp only
    rw [hpages, hheader]
    dsimp only [Page.asHeader]
    rw [hwrite]
    dsimp only [bind, Except.bind, pure, Except.pure]
    unfold RawDataPage.getOffset
    rw [hcurrent₁.pages, hheader₂]
    rfl
  · exact (hchanges₁.trans (changes_of_extends hextends) nofun nofun).trans hchanges₂ nofun nofun
  · refine ⟨hextends.wellFormed.setPage, hextends.allocated h ((hallocated h).mpr hh.allocated),
      hextends.live h (hlive h hh.live), { header with rawDataPage := p₂ }, page₂, PageManager.pages_setPage_self, ?_, hlt₂⟩
    refine ⟨hcurrent₂.allocated, ?_, hcurrent₂.nextPageNumber, hcurrent₂.minOffset_le, hcurrent₂.le_maxOffset⟩
    rw [PageManager.pages_setPage_of_ne hne, hcurrent₂.pages]

theorem valueBa_eq (hvalue : value < 2 ^ 256) : valueBa value = .ok (bytes 32 value) := by
  unfold valueBa
  rw [scalar2ba32_eq (Nat.le_sub_one_of_lt hvalue)]
  rfl

theorem ok_bind {α β : Type} (a : α) (f : α → Except Stop β) : (Except.ok a >>= f) = f a := rfl

theorem Stored.read {location : Location} (hs : Stored m location key value) :
    RawDataPage.read m location.rawDataPage location.rawDataOffset 64 = .ok (fea2ba key ++ bytes 32 value) := by
  have hlength : (fea2ba key ++ bytes 32 value).length = 64 := by simp
  have hread := RawDataPage.read_holds hs.holds (by
    intro hnil
    rw [hnil] at hlength
    simp at hlength) hs.minOffset_le hs.lt_maxOffset
  rwa [hlength] at hread

/-! ## The slot that is written -/

/-- The page and the entry where a key is looked up. -/
def slotOf (m : PageManager) : List ℕ → ℕ → Option (KeyValueHistoryStruct × KeyValueEntry)
  | [], _ => none
  | index :: bits, p =>
    let page := (m.pages p).asHistory
    let entry := page.keyValueEntry index
    if entry.control = 2 then slotOf m bits entry.location.rawDataPage else some (page, entry)

theorem slotOf_cons {index : ℕ} (hpage : m.pages p = .history page) (bits : List ℕ) :
    slotOf m (index :: bits) p =
      if (page.keyValueEntry index).control = 2 then
        slotOf m bits (page.keyValueEntry index).location.rawDataPage
      else some (page, page.keyValueEntry index) := by
  rw [slotOf]
  rw [hpage]
  rfl

/-- A write of a key that is in a leaf finds space in the history of its page; one of another key moves a
leaf that has no older values. -/
def WriteFits (m : PageManager) (bits : List ℕ) (p : ℕ) (key : Fea) (value : ℕ) : Prop :=
  ∀ page entry, slotOf m bits p = some (page, entry) → entry.control = 1 → ∀ keyAndValue,
    RawDataPage.read m entry.location.rawDataPage entry.location.rawDataOffset 64 = .ok keyAndValue →
      (keyAndValue.take 32 = fea2ba key → keyAndValue.drop 32 ≠ bytes 32 value →
        page.historyOffset ≠ maxHistoryOffset) ∧
      (keyAndValue.take 32 ≠ fea2ba key → entry.previousVersionOffset = 0)

/-- What a write does to the pages from a place on. -/
structure Written (m m' : PageManager) (histories' : Histories) (place : List ℕ) (p h : ℕ) (pages : Set ℕ) :
    Prop where
  tree : ∃ pages', Tree m' histories' place p pages' ∧ ∀ q ∈ pages', q ∈ pages ∨ ¬m.Allocated q
  header : HeaderOk m' h
  changes : Changes m m' pages

theorem setEntry_eq (hpage : m.pages p = .history page) (index : ℕ) (entry : KeyValueEntry) :
    setEntry m p index entry =
      m.setPage p (.history { page with keyValueEntry := Function.update page.keyValueEntry index entry }) := by
  unfold setEntry
  rw [hpage]
  rfl

/-! ## A leaf is written -/

/-- A slot becomes a leaf. -/
theorem written_of_leaf {key : Fea} {older : List (ℕ × ℕ)} (hnode : Node m place p pages page below)
    (hslots : ∀ j, Slot m histories page (place ++ [j]) (page.keyValueEntry j) (below j))
    (hm : Changes m m₁ {p}) (hpage₁ : m₁.pages p = .history page₁) (hh : HeaderOk m₁ h)
    (hreplaced : SlotReplaced i page page') (hcontrol : (page'.keyValueEntry i).control = 1)
    (hleaf : Leaf m₁ histories' page' (place ++ [i]) (page'.keyValueEntry i) key value older)
    (hhistories : ∀ key', key' ≠ key → histories' key' = histories key') :
    Written m (m₁.setPage p (.history page')) histories' place p h pages := by
  have hset := @changes_setPage m₁ page₁ page' p hpage₁
  have hchanges : Changes m (m₁.setPage p (.history page')) {p} :=
    hm.trans hset (fun q hq _ => hq) fun q hq _ => hq
  refine ⟨⟨pages ∪ ∅, ?_, ?_⟩, hh.setPage hpage₁, hchanges.mono (Set.singleton_subset_iff.mpr hnode.mem)⟩
  · apply Tree.replace hnode hslots (hchanges.mono ?_) PageManager.pages_setPage_self hreplaced ?_
      (fun q hq => absurd hq (Set.notMem_empty q)) (fun q hq => absurd hq (Set.notMem_empty q)) ?_
    · exact Set.singleton_subset_iff.mpr (Set.mem_insert p (below i))
    · apply Slot.flat (by simp [hcontrol])
      exact (Flat.leaf hcontrol hleaf).keeps hset.toKeepsRaw (historyAdded_refl page') rfl fun _ _ => rfl
    · intro key' _ hbelow
      apply hhistories
      rintro rfl
      exact hbelow hleaf.below
  · intro q hq
    rw [Set.union_empty] at hq
    exact .inl hq

section

variable (version : ℕ) (hnode : Node m place p pages page below)
  (hslots : ∀ j, Slot m histories page (place ++ [j]) (page.keyValueEntry j) (below j)) (hh : HeaderOk m h)
  (hvalue : value < 2 ^ 256) (hbelow : Below (place ++ [i]) key)

include hnode hslots hh hvalue hbelow

theorem writeEmpty_spec (hempty : ∀ key', Below (place ++ [i]) key' → histories key' = []) :
    ∃ m' page', writeEmpty (fea2ba key) version value m i p h = .ok (m', p, h) ∧
      Written m m' (recordKey histories ⟨key, version, value⟩) place p h pages ∧
      m'.pages p = .history page' ∧ (page'.keyValueEntry i).control = 1 ∧
      page'.historyOffset = page.historyOffset := by
  obtain ⟨m₁, location, hinsert, hm, hh₁, hmin, hmax, hholds⟩ :=
    insertRawData_spec hh (fea2ba key ++ bytes 32 value)
  have hpage₁ : m₁.pages p = .history page :=
    hm.history p page (Set.notMem_empty p) (hnode.allocated p hnode.mem) hnode.page_eq
  generalize hentries : Function.update page.keyValueEntry i { page.keyValueEntry i with
    control := 1, previousVersionOffset := 0, version := version, location := location } = entries
  generalize hpage' : ({ page with keyValueEntry := fun j =>
    if (entries j).control = 1 then { entries j with hash := ⟨0, 0⟩ } else entries j } :
      KeyValueHistoryStruct) = page'
  have hi : page'.keyValueEntry i = ⟨1, 0, version, location, ⟨0, 0⟩⟩ := by
    rw [← hpage', ← hentries]
    simp
  have hwrite : writeEmpty (fea2ba key) version value m i p h = .ok (m₁.setPage p (.history page'), p, h) := by
    unfold writeEmpty
    rw [PageManager.editPage_of_live_of_ne hnode.live hnode.ne_one]
    dsimp only
    rw [valueBa_eq hvalue]
    dsimp only [bind, Except.bind]
    rw [hinsert]
    dsimp only
    rw [hpage₁, setEntry_eq hpage₁]
    simp only [Page.asHistory, hentries, PageManager.pages_setPage_self, PageManager.setPage_setPage, hpage']
    rfl
  have hreplaced : SlotReplaced i page page' := by
    refine ⟨⟨?_, ?_⟩, ?_, ?_⟩
    · rw [← hpage']
    · intro j _
      rw [← hpage']
    · rw [← hpage']
      exact hnode.historyOffset
    · intro j hj
      have hentry : entries j = page.keyValueEntry j := by
        rw [← hentries, Function.update_of_ne hj]
      rw [← hpage']
      dsimp only
      rw [hentry]
      unfold SameButHash
      split_ifs <;> rfl
  have hleaf : Leaf m₁ (recordKey histories ⟨key, version, value⟩) page' (place ++ [i])
      (page'.keyValueEntry i) key value [] := by
    rw [hi]
    refine ⟨hbelow, fun key' hkey' hne => ?_, ?_, ⟨hvalue, hmin, hmax, hholds⟩, .none⟩
    · rw [recordKey_of_ne _ hne, hempty key' hkey']
    · have hself := recordKey_self histories ⟨key, version, value⟩
      rw [hempty key hbelow] at hself
      exact hself
  have hcontrol : (page'.keyValueEntry i).control = 1 := by
    rw [hi]
  refine ⟨_, page', hwrite, ?_, PageManager.pages_setPage_self, hcontrol, ?_⟩
  · exact written_of_leaf hnode hslots (hm.mono (Set.empty_subset _)) hpage₁ hh₁ hreplaced hcontrol hleaf
      fun key' hne => recordKey_of_ne _ hne
  · rw [← hpage']

/-- The newest value so far is put in the history of the page. -/
theorem writeSame_spec {value' : ℕ} {older : List (ℕ × ℕ)}
    (hleaf : Leaf m histories page (place ++ [i]) (page.keyValueEntry i) key value' older) (hne : value' ≠ value)
    (hle : (page.keyValueEntry i).version ≤ version) (hspace : page.historyOffset ≠ maxHistoryOffset) :
    ∃ m', writeSame (fea2ba key) version m i p h (bytes 32 value) = .ok (m', p, h) ∧
      Written m m' (recordKey histories ⟨key, version, value⟩) place p h pages := by
  obtain ⟨n, hn, hoffset⟩ := hnode.historyOffset
  have hindex : historyIndex page.historyOffset = n := by
    rw [hoffset]
    unfold historyIndex
    rw [Nat.add_sub_cancel_left, Nat.mul_div_cancel n (by decide)]
  generalize hadded : ({ page with
    historyEntry := Function.update page.historyEntry n (page.keyValueEntry i)
    historyOffset := page.historyOffset + entrySize } : KeyValueHistoryStruct) = added
  have hset := @changes_setPage m page added p hnode.page_eq
  obtain ⟨m₁, location, hinsert, hm, hh₁, hmin, hmax, hholds⟩ :=
    insertRawData_spec (@HeaderOk.setPage m page added p h hh hnode.page_eq) (fea2ba key ++ bytes 32 value)
  have hpage₁ : m₁.pages p = .history added :=
    hm.history p added (Set.notMem_empty p) (hnode.allocated p hnode.mem) PageManager.pages_setPage_self
  have hm₁ : Changes m m₁ {p} := hset.trans hm (fun q hq _ => hq) fun q hq => absurd hq (Set.notMem_empty q)
  generalize hpage' : ({ added with
    keyValueEntry := Function.update added.keyValueEntry i ⟨1, page.historyOffset, version, location, ⟨0, 0⟩⟩ } :
      KeyValueHistoryStruct) = page'
  have hi : page'.keyValueEntry i = ⟨1, page.historyOffset, version, location, ⟨0, 0⟩⟩ := by
    rw [← hpage']
    exact Function.update_self ..
  have hwrite : writeSame (fea2ba key) version m i p h (bytes 32 value) =
      .ok (m₁.setPage p (.history page'), p, h) := by
    unfold writeSame
    simp only [hnode.page_eq, Page.asHistory, if_neg (Nat.not_lt.mpr hle), if_neg hspace, hindex, hadded]
    rw [hinsert]
    dsimp only [bind, Except.bind]
    rw [setEntry_eq hpage₁, hpage']
    rfl
  have hentry : page'.historyEntry n = page.keyValueEntry i := by
    rw [← hpage', ← hadded]
    exact Function.update_self ..
  have hlt : n ≠ 106 := by
    rintro rfl
    exact hspace hoffset
  have hoffset' : page'.historyOffset = minHistoryOffset + (n + 1) * entrySize := by
    rw [← hpage', ← hadded]
    dsimp only
    rw [hoffset, Nat.add_mul, Nat.one_mul, Nat.add_assoc]
  have hreplaced : SlotReplaced i page page' := by
    refine ⟨⟨?_, ?_⟩, ⟨n + 1, by omega, hoffset'⟩, ?_⟩
    · rw [← hpage', ← hadded]
      exact Nat.le_add_right _ _
    · intro j hj
      have hjn : j ≠ n := by
        rintro rfl
        rw [hoffset] at hj
        unfold entrySize at hj
        omega
      rw [← hpage', ← hadded]
      exact Function.update_of_ne hjn ..
    · intro j hj
      have hsame : page'.keyValueEntry j = page.keyValueEntry j := by
        rw [← hpage', ← hadded]
        exact Function.update_of_ne hj ..
      rw [hsame]
      rfl
  have hleaf' : Leaf m₁ (recordKey histories ⟨key, version, value⟩) page' (place ++ [i])
      (page'.keyValueEntry i) key value (((page'.historyEntry n).version, value') :: older) := by
    rw [hi]
    refine ⟨hbelow, fun key' hkey' hne' => ?_, ?_, ⟨hvalue, hmin, hmax, hholds⟩, ?_⟩
    · rw [recordKey_of_ne _ hne', hleaf.others key' hkey' hne']
    · have hself := recordKey_self histories ⟨key, version, value⟩
      rw [hleaf.histories_eq, record_cons_of_ne hne] at hself
      rw [hentry]
      exact hself
    · dsimp only
      rw [hoffset]
      apply Older.entry hoffset'.ge
      rw [hentry]
      exact hleaf.stored.keeps hm₁.toKeepsRaw
  exact ⟨_, hwrite, written_of_leaf hnode hslots hm₁ hpage₁ hh₁ hreplaced (by rw [hi]) hleaf'
    fun key' hne' => recordKey_of_ne _ hne'⟩

end

/-! ## A page below is written -/

theorem Written.attach {q : ℕ} {new : Set ℕ} (hnode : Node m place p pages page below)
    (hslots : ∀ j, Slot m histories page (place ++ [j]) (page.keyValueEntry j) (below j))
    (hm : Changes m m₁ (below i)) (hh : HeaderOk m₁ h) (htree : Tree m₁ histories' (place ++ [i]) q new)
    (hnew : ∀ r ∈ new, r ∈ below i ∨ ¬m.Allocated r) (hcontrol : entry.control = 2)
    (hentry : entry.location.rawDataPage = q)
    (hhistories : ∀ key, ¬Below (place ++ [i]) key → histories' key = histories key) :
    Written m (setEntry m₁ p i entry) histories' place p h pages := by
  have hpage₁ : m₁.pages p = .history page :=
    hm.history p page (hnode.notMem i) (hnode.allocated p hnode.mem) hnode.page_eq
  rw [setEntry_eq hpage₁]
  generalize hpage' : ({ page with keyValueEntry := Function.update page.keyValueEntry i entry } :
    KeyValueHistoryStruct) = page'
  have hset := @changes_setPage m₁ page page' p hpage₁
  have hchanges : Changes m (m₁.setPage p (.history page')) (insert p (below i)) :=
    hm.trans hset (fun q hq _ => .inr hq) fun q hq _ => .inl hq
  have hp : p ∉ new := by
    intro hmem
    rcases hnew p hmem with hin | hfresh
    · exact hnode.notMem i hin
    · exact hfresh (hnode.allocated p hnode.mem)
  have hi : page'.keyValueEntry i = entry := by
    rw [← hpage']
    exact Function.update_self ..
  have hreplaced : SlotReplaced i page page' := by
    refine ⟨⟨?_, ?_⟩, ?_, ?_⟩
    · rw [← hpage']
    · intro j _
      rw [← hpage']
    · rw [← hpage']
      exact hnode.historyOffset
    · intro j hj
      have hsame : page'.keyValueEntry j = page.keyValueEntry j := by
        rw [← hpage']
        exact Function.update_of_ne hj ..
      rw [hsame]
      rfl
  have hslot :
      Slot (m₁.setPage p (.history page')) histories' page' (place ++ [i]) (page'.keyValueEntry i) new := by
    rw [hi]
    apply Slot.next hcontrol
    rw [hentry]
    exact htree.keeps hset (Set.disjoint_singleton_right.mpr hp) fun _ _ => rfl
  refine ⟨⟨pages ∪ new, ?_, ?_⟩, hh.setPage hpage₁, hchanges.mono ?_⟩
  · exact Tree.replace hnode hslots hchanges PageManager.pages_setPage_self hreplaced hslot hnew
      htree.allocated fun key _ => hhistories key
  · rintro q (hq | hq)
    · exact .inl hq
    · exact (hnew q hq).imp_left fun hin => hnode.sub i hin
  · exact Set.insert_subset hnode.mem (hnode.sub i)

/-- A leaf without older values, in another page. -/
theorem Leaf.moved {key' : Fea} {value' : ℕ} {older : List (ℕ × ℕ)}
    (hleaf : Leaf m histories page place entry key' value' older) (hprevious : entry.previousVersionOffset = 0) :
    Leaf m histories page' place ⟨1, 0, entry.version, entry.location, ⟨0, 0⟩⟩ key' value' [] := by
  have holder : older = [] := by
    have hold := hleaf.older
    rw [hprevious] at hold
    generalize hzero : 0 = offset at hold
    cases hold with
    | none => rfl
    | entry => exact absurd hzero (by unfold minHistoryOffset; omega)
  refine ⟨hleaf.below, hleaf.others, ?_, hleaf.stored, .none⟩
  rw [hleaf.histories_eq, holder]

/-- A page with one entry. -/
def movedPage (newIndex : ℕ) (entry : KeyValueEntry) : KeyValueHistoryStruct :=
  ⟨minHistoryOffset, 0, Function.update (fun _ => .empty) newIndex entry, fun _ => .empty⟩

theorem movedPage_self (newIndex : ℕ) (entry : KeyValueEntry) :
    (movedPage newIndex entry).keyValueEntry newIndex = entry := by
  unfold movedPage
  exact Function.update_self newIndex _ fun _ => KeyValueEntry.empty

theorem movedPage_of_ne {j newIndex : ℕ} (hj : j ≠ newIndex) (entry : KeyValueEntry) :
    (movedPage newIndex entry).keyValueEntry j = .empty := by
  unfold movedPage
  exact Function.update_of_ne hj _ fun _ => KeyValueEntry.empty

theorem setEntry_initEmptyPage (m : PageManager) (q newIndex : ℕ) (entry : KeyValueEntry) :
    setEntry (initEmptyPage m q) q newIndex entry = m.setPage q (.history (movedPage newIndex entry)) := by
  unfold initEmptyPage
  rw [setEntry_eq PageManager.pages_setPage_self, PageManager.setPage_setPage]
  rfl

/-- A new page, whose slots lead to no other one. -/
theorem tree_newPage {q : ℕ} (hh : HeaderOk m h) (htakes : PageManager.Takes m q m₁) (hlength : place.length < 43)
    (hoffset : page.historyOffset = minHistoryOffset) (hcontrol : ∀ i, (page.keyValueEntry i).control ≠ 2)
    (hflat : ∀ i, Flat m histories page (place ++ [i]) (page.keyValueEntry i)) :
    Tree (m₁.setPage q (.history page)) histories place q {q} ∧ Changes m (m₁.setPage q (.history page)) ∅ ∧
      HeaderOk (m₁.setPage q (.history page)) h := by
  have hpages (r : ℕ) (hr : m.Allocated r) : (m₁.setPage q (.history page)).pages r = m.pages r := by
    rw [PageManager.pages_setPage_of_ne, htakes.keepsPages r hr]
    rintro rfl
    exact htakes.fresh hr
  have hchanges : Changes m (m₁.setPage q (.history page)) ∅ := by
    refine ⟨RawDataPage.keepsRaw_of_pages htakes.keepsAllocated ?_, htakes.keepsLive, ?_⟩
    · exact fun r _ hr hraw => (hpages r hr).trans hraw
    · exact fun r _ _ hr hpage => (hpages r hr).trans hpage
  have hne : q ≠ 1 := by
    rintro rfl
    exact htakes.fresh hh.wellFormed.one
  refine ⟨?_, hchanges, hh.of_pages htakes.wellFormed.setPage htakes.keepsAllocated htakes.keepsLive
    fun r hr _ => hpages r hr⟩
  apply @tree_of_slots _ histories page place q {q} fun _ => ∅
  · refine ⟨hlength, hne, htakes.live, PageManager.pages_setPage_self, ⟨0, Nat.zero_le _, ?_⟩, ?_, rfl,
      fun _ => Set.empty_subset _, fun _ => Set.notMem_empty q, fun _ _ _ => Set.disjoint_empty _⟩
    · rw [hoffset, Nat.zero_mul, Nat.add_zero]
    · rintro r rfl
      exact htakes.allocated
  · intro i
    exact .flat (hcontrol i)
      ((hflat i).keeps hchanges.toKeepsRaw (historyAdded_refl page) rfl fun _ _ => rfl)

theorem flat_movedPage {newIndex : ℕ} {key' : Fea} {value' : ℕ}
    (hleaf : ∀ page, Leaf m histories page place entry key' value' [])
    (hbelow : Below (place ++ [newIndex]) key') (hcontrol : entry.control = 1) (i : ℕ) :
    ((movedPage newIndex entry).keyValueEntry i).control ≠ 2 ∧
      Flat m histories (movedPage newIndex entry) (place ++ [i])
        ((movedPage newIndex entry).keyValueEntry i) := by
  have hkept := hleaf (movedPage newIndex entry)
  by_cases hi : i = newIndex
  · subst hi
    rw [movedPage_self]
    refine ⟨by simp [hcontrol], .leaf hcontrol ⟨hbelow, ?_, hkept.histories_eq, hkept.stored, hkept.older⟩⟩
    exact fun key'' hkey => hkept.others key'' hkey.of_concat
  · rw [movedPage_of_ne hi]
    refine ⟨by decide, .empty rfl fun key'' hkey => hkept.others key'' hkey.of_concat ?_⟩
    rintro rfl
    exact hi (hkey.eq_of_concat hbelow)

theorem fea2ba_injective : Function.Injective fea2ba := by
  intro key key' heq
  rw [← ba2fea_fea2ba key, heq, ba2fea_fea2ba]

theorem writeFits_movedPage {q newIndex : ℕ} {key' : Fea} {value' : ℕ} {m : PageManager}
    (hstored : Stored m entry.location key' value') (hne : key' ≠ key) (hcontrol : entry.control = 1)
    (hprevious : entry.previousVersionOffset = 0) (hq : m.pages q = .history (movedPage newIndex entry))
    (bits : List ℕ) :
    WriteFits m bits q key value := by
  intro page₂ entry₂ hslot hcontrol₂ keyAndValue hread
  cases bits with
  | nil => exact absurd hslot nofun
  | cons index bits =>
    rw [slotOf_cons hq] at hslot
    by_cases hindex : index = newIndex
    · subst hindex
      rw [movedPage_self, if_neg (by simp [hcontrol])] at hslot
      obtain ⟨-, rfl⟩ := Prod.mk.inj (Option.some.inj hslot)
      rw [hstored.read] at hread
      obtain rfl := Except.ok.inj hread
      rw [List.take_left' (length_fea2ba key')]
      exact ⟨fun heq => absurd (fea2ba_injective heq) hne, fun _ => hprevious⟩
    · rw [movedPage_of_ne hindex, if_neg (by decide)] at hslot
      obtain ⟨-, rfl⟩ := Prod.mk.inj (Option.some.inj hslot)
      exact absurd hcontrol₂ (by decide)

/-! ## `Write` -/

theorem recordKey_of_same {version value' : ℕ} {older : List (ℕ × ℕ)}
    (heq : histories key = (version, value) :: older) : recordKey histories ⟨key, value', value⟩ = histories := by
  unfold recordKey
  rw [heq, record_cons_self, ← heq]
  exact Function.update_eq_self key histories

theorem below_concat {index : ℕ} {bits : List ℕ} (hbits : place ++ index :: bits = splitKey6 key) :
    Below (place ++ [index]) key := ⟨bits, by rw [← hbits, List.append_assoc]; rfl⟩

/-- Two keys that differ do so after a place they share. -/
theorem exists_below_concat {key' : Fea} (h : Below place key) (h' : Below place key') (hne : key' ≠ key) :
    place.length < 43 ∧ ∃ newIndex, (splitKey6 key')[place.length]? = some newIndex ∧
      Below (place ++ [newIndex]) key' := by
  have hle : place.length ≤ 43 := by
    rw [← length_splitKey6 key]
    exact h.length_le
  have hlt : place.length < 43 := by
    apply lt_of_le_of_ne hle
    intro heq
    apply hne
    apply splitKey6_injective
    rw [← h.eq_of_length (by rw [heq, length_splitKey6]), ← h'.eq_of_length (by rw [heq, length_splitKey6])]
  obtain ⟨rest, hrest⟩ := h'
  refine ⟨hlt, ?_⟩
  cases rest with
  | nil =>
    rw [List.append_nil] at hrest
    rw [hrest, length_splitKey6] at hlt
    exact absurd hlt (Nat.lt_irrefl _)
  | cons newIndex rest =>
    refine ⟨newIndex, ?_, below_concat hrest⟩
    rw [← hrest]
    simp

theorem bytes_ne {value' : ℕ} (hvalue : value < 2 ^ 256) (hvalue' : value' < 2 ^ 256) (hne : value' ≠ value) :
    bytes 32 value' ≠ bytes 32 value := by
  intro heq
  have hvalues := congrArg BigEndian.value heq
  rw [value_bytes_of_lt (by simpa using hvalue'), value_bytes_of_lt (by simpa using hvalue)] at hvalues
  exact hne hvalues

theorem writeFrom_spec {version : ℕ} {bits : List ℕ} (hvalue : value < 2 ^ 256)
    (htree : Tree m histories place p pages) (hh : HeaderOk m h) (hbits : place ++ bits = splitKey6 key)
    (hle : ∀ entry ∈ histories key, entry.1 ≤ version) (hfits : WriteFits m bits p key value) :
    ∃ m', writeFrom (fea2ba key) version value bits place.length m p h = .ok (m', p, h) ∧
      Written m m' (recordKey histories ⟨key, version, value⟩) place p h pages := by
  induction bits generalizing m place p pages with
  | nil =>
    obtain ⟨page, below, hnode, -⟩ := htree.slots
    have hlt := hnode.length_lt
    rw [List.append_nil] at hbits
    rw [hbits, length_splitKey6] at hlt
    exact absurd hlt (Nat.lt_irrefl _)
  | cons index bits ih =>
    have hbelow := below_concat hbits
    have hlength : (place ++ [index]).length = place.length + 1 := List.length_append
    have hbits' : (place ++ [index]) ++ bits = splitKey6 key := by
      rw [← hbits, List.append_assoc]
      rfl
    obtain ⟨page, below, hnode, hslots⟩ := htree.slots
    have hothers : ∀ key', ¬Below (place ++ [index]) key' →
        recordKey histories ⟨key, version, value⟩ key' = histories key' := by
      intro key' hkey'
      apply recordKey_of_ne
      rintro rfl
      exact hkey' hbelow
    unfold writeFrom
    rw [PageManager.editPage_of_live_of_ne hnode.live hnode.ne_one]
    dsimp only
    rw [hnode.page_eq]
    dsimp only [Page.asHistory]
    cases hslots index with
    | next hcontrol hnext =>
      have hfits' : WriteFits m bits (page.keyValueEntry index).location.rawDataPage key value := by
        intro page₂ entry₂ hslot
        apply hfits page₂ entry₂
        rwa [slotOf_cons hnode.page_eq, if_pos hcontrol]
      obtain ⟨m₁, hwrite, ⟨new, htree₁, hnew⟩, hh₁, hm₁⟩ := ih hnext hh hbits' hfits'
      rw [hlength] at hwrite
      rw [hcontrol]
      simp only
      rw [hwrite]
      exact ⟨_, rfl, Written.attach hnode hslots hm₁ hh₁ htree₁ hnew (by
        rw [hm₁.history p page (hnode.notMem index) (hnode.allocated p hnode.mem) hnode.page_eq]
        exact hcontrol) rfl hothers⟩
    | flat hcontrol hflat =>
      cases hflat with
      | empty hcontrol hempty =>
        rw [hcontrol]
        obtain ⟨m₁, -, hwrite, hwritten, -⟩ := writeEmpty_spec version hnode hslots hh hvalue hbelow hempty
        exact ⟨m₁, hwrite, hwritten⟩
      | @leaf key' value' older hcontrol hleaf =>
        have hslot : slotOf m (index :: bits) p = some (page, page.keyValueEntry index) := by
          rw [slotOf_cons hnode.page_eq]
          exact if_neg (by simp [hcontrol])
        have hfit := hfits page _ hslot hcontrol _ hleaf.stored.read
        rw [List.take_left' (length_fea2ba key'), List.drop_left' (length_fea2ba key')] at hfit
        obtain ⟨hspace, hprevious⟩ := hfit
        rw [hcontrol]
        simp only
        rw [hleaf.stored.read, ok_bind, if_neg (by simp), List.take_left' (length_fea2ba key'),
          List.drop_left' (length_fea2ba key')]
        by_cases hkey : key' = key
        · subst hkey
          rw [if_pos rfl, valueBa_eq hvalue, ok_bind]
          by_cases hsame : value' = value
          · subst hsame
            rw [recordKey_of_same hleaf.histories_eq]
            exact ⟨m, if_pos rfl, ⟨pages, htree, fun q hq => .inl hq⟩, hh, .refl m pages⟩
          · have hbytes := bytes_ne hvalue hleaf.stored.lt hsame
            have hversion : (page.keyValueEntry index).version ≤ version := by
              apply hle (_, value')
              rw [hleaf.histories_eq]
              exact List.mem_cons_self
            rw [if_neg hbytes.symm]
            exact writeSame_spec version hnode hslots hh hvalue hbelow hleaf hsame hversion (hspace rfl hbytes)
        · have hne : fea2ba key' ≠ fea2ba key := fun heq => hkey (fea2ba_injective heq)
          rw [if_neg hne.symm, ba2fea_fea2ba]
          obtain ⟨hlt, newIndex, hnewIndex, hbelow'⟩ := exists_below_concat hbelow hleaf.below hkey
          rw [hlength] at hnewIndex
          have htakes := PageManager.getFreePage_takes hh.wellFormed
          rcases hfree : m.getFreePage with ⟨q, m₁⟩
          rw [hfree] at htakes
          dsimp only at htakes ⊢
          rw [hnewIndex]
          dsimp only
          rw [setEntry_initEmptyPage]
          have hflat := flat_movedPage (fun _ => hleaf.moved (hprevious hne)) hbelow' rfl
          obtain ⟨htree₂, hm₂, hh₂⟩ := tree_newPage hh htakes hlt rfl (fun i => (hflat i).1) fun i => (hflat i).2
          have hfits₂ := @writeFits_movedPage ⟨1, 0, (page.keyValueEntry index).version,
            (page.keyValueEntry index).location, ⟨0, 0⟩⟩ key value q newIndex key' value' _
            (hleaf.stored.keeps hm₂.toKeepsRaw) hkey rfl rfl PageManager.pages_setPage_self bits
          generalize m₁.setPage q (.history (movedPage newIndex ⟨1, 0, (page.keyValueEntry index).version,
            (page.keyValueEntry index).location, ⟨0, 0⟩⟩)) = m₂ at *
          obtain ⟨m₃, hwrite, ⟨new, htree₃, hnew⟩, hh₃, hm₃⟩ := ih htree₂ hh₂ hbits' hfits₂
          rw [hlength] at hwrite
          rw [hwrite]
          have hfresh : ∀ r ∈ new, r ∈ below index ∨ ¬m.Allocated r := by
            intro r hr
            rcases hnew r hr with rfl | hnot
            · exact .inr htakes.fresh
            · exact .inr fun ha => hnot (hm₂.allocated r ha)
          have hm : Changes m m₃ (below index) := by
            apply hm₂.trans hm₃ (fun r hr => absurd hr (Set.notMem_empty r))
            rintro r rfl ha
            exact absurd ha htakes.fresh
          exact ⟨_, rfl, Written.attach hnode hslots hm hh₃ htree₃ hfresh rfl rfl hothers⟩

end KeyValueHistoryPage

end ZkevmProver.HashDB64
