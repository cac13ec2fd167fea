import ZkevmProver.HashDB64.VersionDataPage

/-!
# What is read of any version after any writes

`Write` keeps the versions apart, and `Read` does not look at the version that it finds.

  1. One write.
  2. Writes one after another.
  3. What is read.
-/

namespace ZkevmProver.HashDB64

namespace VersionDataPage

open RadixPages

/-! ## One write -/

/-- What is stored for a version has that key, and no control. -/
def Keyed (contents : UInt64 → Option VersionDataEntry) : Prop :=
  ∀ key x, contents key = some x → x.key = key ∧ x.control = 0

section

variable {m m' : PageManager} {entry value : VersionDataEntry} {contents : UInt64 → Option VersionDataEntry}
  {place bits : List ℕ} {p i : ℕ} {pages : Set ℕ} {key : UInt64}

theorem slotOf_value (hcontrol : value.control = 0) :
    slotOf { value with control := value.control ||| 1 } = .leaf value := by
  cases value with
  | mk key root keyValueHistoryPage control freePagesList createdPagesList =>
    obtain rfl : control = 0 := hcontrol
    exact slotOf_one (Nat.zero_or 1)

/-- The slots of a page after `setEntry`. -/
theorem slots_setEntry {slot : Slot VersionDataEntry} (hslot : slotOf entry = slot) :
    slots (.versionData { (m.pages p).asVersionData with
        versionDataEntry := Function.update (m.pages p).asVersionData.versionDataEntry i entry }) =
      Function.update (slots (m.pages p)) i slot := by
  rw [slots_update, slots_asVersionData, hslot]

/-- An entry in a new page. -/
theorem setEntry_initEmptyPage : setEntry (initEmptyPage m p) p i entry =
    (m.setPage p (.versionData ⟨fun _ => .empty⟩)).setPage p
      (.versionData ⟨Function.update (fun _ => .empty) i entry⟩) := by
  unfold setEntry initEmptyPage
  rw [PageManager.pages_setPage_self]
  rfl

theorem writeFrom_spec (hcontrol : value.control = 0) {level : ℕ} (hwellFormed : m.WellFormed)
    (hkeyed : Keyed contents) (htree : RadixPages.Tree versionRadix (table m) contents place p pages)
    (hpages : m.Editable pages) (hbits : place ++ bits = versionRadix.digits key)
    (hlevel : place.length = level) :
    ∃ m' pages', writeFrom key value bits level m p = .ok (m', p) ∧
      Writes versionRadix slots m m' contents key value place p pages pages' ∅ := by
  induction bits generalizing place m p pages level with
  | nil => exact absurd rfl (exists_bits htree hbits)
  | cons index bits ih =>
    cases htree with
    | @node _ _ _ below hnode hslots hnext =>
      have hk : versionRadix.Below (place ++ [index]) key := concat_prefix hbits
      have hbits' : place ++ [index] ++ bits = versionRadix.digits key := by simpa using hbits
      have hlevel' : (place ++ [index]).length = level + 1 := by
        rw [List.length_append, hlevel]
        rfl
      have hothers : ∀ r ∈ pages, r ∉ (∅ : Set ℕ) := fun r _ => Set.notMem_empty r
      have hslot : Says versionRadix contents (place ++ [index]) (slotOf (getEntry m p index)) := hslots index
      have hcontrol' := @control_of_slotOf (getEntry m p index) (by
        intro hinvalid
        rw [hinvalid] at hslot
        exact hslot)
      unfold writeFrom
      rw [hpages.editPage hnode.mem]
      dsimp only
      rcases hcontrol' with hzero | hone | htwo
      · rw [slotOf_zero hzero] at hslot
        rw [hzero, hpages.editPage hnode.mem]
        exact ⟨_, pages, rfl, writes_put hnode hslots hnext hpages hothers (PageManager.Frame.refl hwellFormed)
          hk (fun k hk' _ => hslot k hk') (slots_setEntry (slotOf_value hcontrol))⟩
      · rw [slotOf_one hone] at hslot
        rw [hone]
        obtain ⟨key', hx, hsole⟩ := hslot
        have hkey' : (getEntry m p index).key = key' := (hkeyed key' _ hx).1
        rw [hkey']
        by_cases hkey : key = key'
        · rw [if_pos hkey]
          subst hkey
          exact ⟨_, pages, rfl, writes_put hnode hslots hnext hpages hothers
            (PageManager.Frame.refl hwellFormed) hk hsole.2.2 (slots_setEntry (slotOf_value hcontrol))⟩
        · rw [if_neg hkey]
          obtain ⟨hlt, newIndex, hnewIndex, hk'⟩ := exists_newIndex hk hsole.1 hkey
          rw [hlevel'] at hnewIndex
          have hnewIndex : (splitKey6U64 key')[level + 1]? = some newIndex := hnewIndex
          rw [hnewIndex]
          have hfresh := (PageManager.getFreePage_takes hwellFormed).fresh
          have hmovedPage := slots_update ⟨fun _ => .empty⟩ newIndex (getEntry m p index)
          rw [slotOf_one hone] at hmovedPage
          obtain ⟨hmoved, hframe, heditable⟩ := moved_spec hwellFormed hlt hsole hx hk' slots_blank hmovedPage
          obtain ⟨m', new, hwrite, hwrites⟩ := ih hframe.wellFormed hmoved heditable hbits' hlevel'
          dsimp only
          rw [setEntry_initEmptyPage, hwrite]
          refine ⟨_, _, rfl, writes_descend hnode hslots hnext hpages hothers ?_ hwrites.editable
            (fun r hr => ?_) hk hwrites.tree (hsole.crowded (Ne.symm hkey) hk value)
            (slots_setEntry (slotOf_two rfl))⟩
          · refine (hframe.mono (Set.empty_subset _)).trans hwrites.frame ?_
            rintro r (rfl | hr) hr'
            · exact absurd hr' hfresh
            · exact absurd hr (Set.notMem_empty r)
          · refine .inr fun hr' => ?_
            rcases hwrites.fresh r hr with rfl | hout
            · exact hfresh hr'
            · exact hout (hframe.allocated r hr')
      · rw [slotOf_two htwo] at hslot
        rw [htwo]
        have hbelow := hnext index (getEntry m p index).freePagesList (slotOf_two htwo)
        have hpages' : m.Editable (below index) := fun q hq => hpages q (hnode.sub index hq)
        obtain ⟨m', new, hwrite, hwrites⟩ := ih hwellFormed hbelow hpages' hbits' hlevel'
        rw [hwrite]
        exact ⟨_, _, rfl, writes_descend hnode hslots hnext hpages hothers hwrites.frame hwrites.editable
          hwrites.fresh hk hwrites.tree (hslot.update key value) (slots_setEntry (slotOf_two rfl))⟩

end

/-! ## Writes one after another -/

/-- What can be written for a version: its data, without a control. -/
structure VersionData where
  key : UInt64
  root : List UInt8
  keyValueHistoryPage : ℕ
  freePagesList : ℕ
  createdPagesList : ℕ

def VersionData.entry (data : VersionData) : VersionDataEntry :=
  ⟨data.key, data.root, data.keyValueHistoryPage, 0, data.freePagesList, data.createdPagesList⟩

/-- The data that were last written for a version. -/
def lastData (writes : List VersionData) (key : UInt64) : Option VersionDataEntry :=
  ((writes.filter fun data => data.key = key).getLast?).map VersionData.entry

/-- The writes, from a page number and that of the header on. -/
def writeAll (state : PageManager × ℕ × ℕ) (writes : List VersionData) :
    Except Stop (PageManager × ℕ × ℕ) :=
  writes.foldlM (fun (m, p, h) data => write m p data.key data.entry h) state

/-- A page manager where pages can be taken, and the header can be edited. -/
structure Opened (m : PageManager) (headerPageNumber : ℕ) : Prop where
  wellFormed : m.WellFormed
  headers : m.HeadersEditable
  header_le : headerPageNumber ≤ 1

/-- What `Read` has to return. -/
def expected (writes : List VersionData) (key : UInt64) : Except Stop VersionDataEntry :=
  match lastData writes key with
  | some x => .ok x
  | none => .error (.zkr .dbKeyNotFound)

section

variable {m : PageManager} {p h : ℕ} {pages : Set ℕ} {writes : List VersionData} {key : UInt64}

theorem lastData_concat (writes : List VersionData) (data : VersionData) :
    lastData (writes ++ [data]) = Function.update (lastData writes) data.key (some data.entry) := by
  funext key
  unfold lastData
  rw [List.filter_append]
  by_cases hkey : key = data.key
  · subst hkey
    rw [Function.update_self]
    simp
  · rw [Function.update_of_ne hkey, List.filter_singleton, decide_eq_false fun heq => hkey heq.symm]
    simp

theorem lastData_ne_none : lastData writes key ≠ none ↔ ∃ data ∈ writes, data.key = key := by
  unfold lastData
  rw [Ne, Option.map_eq_none_iff, List.getLast?_eq_none_iff, List.filter_eq_nil_iff]
  simp

theorem keyed_lastData : Keyed (lastData writes) := by
  intro key x hx
  obtain ⟨data, hdata, rfl⟩ := Option.map_eq_some_iff.mp hx
  have hmem := List.mem_filter.mp (List.mem_of_getLast? hdata)
  exact ⟨of_decide_eq_true hmem.2, rfl⟩

theorem write_spec (hm : Opened m h) (htree : RadixPages.Tree versionRadix (table m) (lastData writes) [] p pages)
    (hpages : m.Editable pages) (data : VersionData) :
    ∃ m' pages', write m p data.key data.entry h = .ok (m', p, 1) ∧ Opened m' 1 ∧
      RadixPages.Tree versionRadix (table m') (lastData (writes ++ [data])) [] p pages' ∧ m'.Editable pages' := by
  obtain ⟨m₁, pages', hwrite, hwrites⟩ := @writeFrom_spec m data.entry (lastData writes) []
    (splitKey6U64 data.key) p pages data.key rfl 0 hm.wellFormed keyed_lastData htree hpages rfl rfl
  obtain ⟨m₂, hedit, hframe, -⟩ := PageManager.editPage_header hwrites.frame.wellFormed
    (hwrites.frame.headers hm.headers) hm.header_le
  have hframe' := hframe.trans (@PageManager.frame_setPage m₂ 1
    (.header { (m₂.pages 1).asHeader with versionDataPage := p }) hframe.wellFormed) fun _ hq _ => hq
  refine ⟨_, pages', ?_, ⟨hframe'.wellFormed, hframe'.headers (hwrites.frame.headers hm.headers), le_rfl⟩,
    ?_, hwrites.editable.frame hframe'⟩
  · unfold write
    rw [hwrite]
    dsimp only [bind, Except.bind]
    rw [hedit]
    rfl
  · rw [lastData_concat]
    refine hwrites.tree.congr (fun q hq => pageTable_congr (hframe'.pages q (hwrites.editable q hq).2.1 ?_))
      fun _ _ => rfl
    exact Nat.ne_of_gt (hwrites.editable q hq).1

/-- Exactly one written version has these first sets of bits. -/
def OnlyOne (writes : List VersionData) (place : List ℕ) : Prop :=
  ∃ data ∈ writes, place <+: splitKey6U64 data.key ∧
    ∀ data' ∈ writes, place <+: splitKey6U64 data'.key → data'.key = data.key

/-- The version was written, or it has no first sets of bits in common with exactly one that was. -/
def Apart (writes : List VersionData) (key : UInt64) : Prop :=
  (∃ data ∈ writes, data.key = key) ∨
    ∀ place, place ≠ [] → place <+: splitKey6U64 key → ¬OnlyOne writes place

theorem sole_iff {place : List ℕ} :
    (∃ key, Sole versionRadix (lastData writes) place key) ↔ OnlyOne writes place := by
  constructor
  · rintro ⟨key, hbelow, hstored, hothers⟩
    obtain ⟨data, hdata, rfl⟩ := lastData_ne_none.mp hstored
    refine ⟨data, hdata, hbelow, fun data' hdata' hbelow' => ?_⟩
    by_contra hne
    exact lastData_ne_none.mpr ⟨data', hdata', rfl⟩ (hothers _ hbelow' hne)
  · rintro ⟨data, hdata, hbelow, hothers⟩
    refine ⟨data.key, hbelow, lastData_ne_none.mpr ⟨data, hdata, rfl⟩, fun key hkey hne => ?_⟩
    by_contra hstored
    obtain ⟨data', hdata', rfl⟩ := lastData_ne_none.mp hstored
    exact hne (hothers data' hdata' hkey)

theorem read_iff (htree : RadixPages.Tree versionRadix (table m) (lastData writes) [] p pages) :
    read m p key = expected writes key ↔ Apart writes key := by
  have hbits : [] ++ splitKey6U64 key = versionRadix.digits key := rfl
  unfold read expected
  cases hlast : lastData writes key with
  | some x =>
    have hwalk := htree.walk_of_some hbits hlast
    refine ⟨fun _ => .inl ?_, fun _ => readFrom_of_leaf hwalk⟩
    exact lastData_ne_none.mp (by rw [hlast]; exact Option.some_ne_none x)
  | none =>
    have hnot : ¬∃ data ∈ writes, data.key = key := fun hex => lastData_ne_none.mpr hex hlast
    have hleaf := htree.walk_leaf_iff hbits
    unfold Apart
    rw [or_iff_right hnot]
    rcases htree.walk_of_none hbits hlast with hwalk | ⟨x, key', hwalk, -, -⟩
    · refine ⟨fun _ place hne hpre hone => ?_, fun _ => readFrom_of_empty hwalk⟩
      obtain ⟨x, hx⟩ := hleaf.mpr ⟨place, List.nil_prefix, hne.symm, hpre, sole_iff.mpr hone⟩
      rw [hwalk] at hx
      cases hx
    · rw [readFrom_of_leaf hwalk]
      refine ⟨fun heq => (nomatch heq), fun hapart => ?_⟩
      obtain ⟨place, -, hne, hpre, hsole⟩ := hleaf.mp ⟨x, hwalk⟩
      exact absurd (sole_iff.mp hsole) (hapart place hne.symm hpre)

end

/-- A page manager after a flush. -/
def sampleManager : PageManager where
  pages _ := .free
  editedPages _ := none
  freePages := []
  firstUnusedPage := 2

end VersionDataPage

end ZkevmProver.HashDB64
