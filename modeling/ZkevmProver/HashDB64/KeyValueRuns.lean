import ZkevmProver.HashDB64.KeyValuePage

/-!
# What is read of any key after any writes

Keys and values stay where they are in the raw data, and the pages lead to them.

  1. Raw data: `Stored`.
  2. Where raw data are appended: `HeaderAt`.
  3. `Read`.
  4. `Write`.
  5. Writes one after another.
-/

namespace ZkevmProver.HashDB64

namespace KeyValuePage

open RadixPages BigEndian PageManager

/-! ## Raw data -/

/-- The length, the key and the value are at the location. -/
structure Stored (m : PageManager) (location : Location) (key value : List UInt8) : Prop where
  length_le : 4 + key.length + value.length ≤ U64Mask32
  minOffset_le : RawDataPage.minOffset ≤ location.rawDataOffset
  lt_maxOffset : location.rawDataOffset < RawDataPage.maxOffset
  holds : RawDataPage.Holds m location.rawDataPage location.rawDataOffset
    (lengthBa (4 + key.length + value.length) ++ key ++ value)

section

variable {m m' : PageManager} {location : Location} {key key' value : List UInt8} {slot : KeyValueSlot} {n : ℕ}

@[simp] theorem length_lengthBa (n : ℕ) : (lengthBa n).length = 4 := by
  unfold lengthBa
  rw [List.length_reverse, length_bytes]

theorem length32_lengthBa (h : n ≤ U64Mask32) : length32 (lengthBa n) = n := by
  unfold length32 lengthBa
  rw [List.take_of_length_le (by simp), List.reverse_reverse]
  refine value_bytes_of_lt ?_
  unfold U64Mask32 at h
  omega

theorem Stored.keeps (h : Stored m location key value) (hm : RawDataPage.KeepsRaw m m') :
    Stored m' location key value := ⟨h.length_le, h.minOffset_le, h.lt_maxOffset, h.holds.extends hm⟩

/-- The first bytes are read. -/
theorem Stored.read (h : Stored m location key value) (hpos : 0 < n)
    (hle : n ≤ 4 + key.length + value.length) :
    RawDataPage.read m location.rawDataPage location.rawDataOffset n =
      .ok ((lengthBa (4 + key.length + value.length) ++ key ++ value).take n) := by
  have hlength : ((lengthBa (4 + key.length + value.length) ++ key ++ value).take n).length = n := by
    rw [List.length_take, List.length_append, List.length_append, length_lengthBa]
    omega
  have hread := RawDataPage.read_holds (h.holds.take n) (fun hnil => ?_) h.minOffset_le h.lt_maxOffset
  · rwa [hlength] at hread
  · rw [hnil] at hlength
    exact absurd hlength (Nat.ne_of_lt hpos)

theorem Stored.read_length (h : Stored m location key value) :
    RawDataPage.read m location.rawDataPage location.rawDataOffset 4 =
      .ok (lengthBa (4 + key.length + value.length)) := by
  rw [h.read (by decide) (by omega), List.append_assoc, List.take_left' (length_lengthBa _)]

theorem Stored.read_key (h : Stored m location key value) (hlength : key'.length = key.length) :
    RawDataPage.read m location.rawDataPage location.rawDataOffset (4 + key'.length) =
      .ok (lengthBa (4 + key.length + value.length) ++ key) := by
  rw [h.read (by omega) (by omega), List.take_left']
  rw [List.length_append, length_lengthBa, hlength]

end

/-! ## Where raw data are appended -/

/-- The pages that change when raw data are appended. -/
def others (m : PageManager) : Set ℕ := { q | q = 1 ∨ ∃ raw, m.pages q = .raw raw }

/-- The header can be edited, and the page where raw data are appended is found from it. -/
structure HeaderAt (m : PageManager) (headerPageNumber : ℕ) : Prop where
  wellFormed : m.WellFormed
  headers : m.HeadersEditable
  header_le : headerPageNumber ≤ 1
  one_ne_raw : ∀ raw, m.pages 1 ≠ .raw raw
  current : ∃ header page,
    m.pages ((m.editedPages headerPageNumber).getD headerPageNumber) = .header header ∧
      RawDataPage.Current m header.rawDataPage page ∧ page.offset < RawDataPage.maxOffset

section

variable {m m' m'' : PageManager} {h : ℕ} {pages changed : Set ℕ}

/-- Pages of other kinds than raw data change from one step to the next only if they did before. -/
theorem others_of_frame (hframe : Frame m m' changed) {q : ℕ} (hq : q ∈ others m') (hallocated : m.Allocated q) :
    q ∈ changed ∪ others m := by
  by_contra hnot
  have hnot := not_or.mp hnot
  rcases hq with hone | ⟨raw, hraw⟩
  · exact hnot.2 (.inl hone)
  · rw [hframe.pages q hallocated hnot.1] at hraw
    exact hnot.2 (.inr ⟨raw, hraw⟩)

theorem getD_editedPages_one (hm : m.HeadersEditable) : (m.editedPages 1).getD 1 = 1 := by
  rcases hm 1 le_rfl with hnone | hone
  · rw [hnone, Option.getD_none]
  · rw [hone, Option.getD_some]

theorem insertRawData_spec (hh : HeaderAt m h) (data : List UInt8) :
    ∃ m' location, KeyValueHistoryPage.insertRawData m h data = .ok (m', 1, location) ∧
      Frame m m' (others m) ∧ RawDataPage.KeepsRaw m m' ∧ HeaderAt m' 1 ∧
      RawDataPage.minOffset ≤ location.rawDataOffset ∧ location.rawDataOffset < RawDataPage.maxOffset ∧
      RawDataPage.Holds m' location.rawDataPage location.rawDataOffset data := by
  obtain ⟨header, page, hheader, hcurrent, hlt⟩ := hh.current
  obtain ⟨m₁, hedit, hframe₁, hone₁⟩ := editPage_header hh.wellFormed hh.headers hh.header_le
  rw [hheader] at hone₁
  have hraw₁ : ∀ q raw, m.Allocated q → m.pages q = .raw raw → m₁.pages q = .raw raw := by
    intro q raw hq hraw
    rw [hframe₁.pages q hq, hraw]
    rintro rfl
    exact hh.one_ne_raw raw hraw
  have hkeeps₁ := RawDataPage.keepsRaw_of_pages hframe₁.allocated hraw₁
  have hcurrent₁ : RawDataPage.Current m₁ header.rawDataPage page :=
    ⟨hframe₁.allocated _ hcurrent.allocated, hraw₁ _ _ hcurrent.allocated hcurrent.pages,
      hcurrent.nextPageNumber, hcurrent.minOffset_le, hcurrent.le_maxOffset⟩
  obtain ⟨m₂, p₂, page₂, hwrite, hextends, hcurrent₂, hlt₂, hholds⟩ :=
    @RawDataPage.write_spec m₁ header.rawDataPage data page hframe₁.wellFormed hcurrent₁ hlt
  have hedited := RawDataPage.keepsEdited_write hframe₁.wellFormed hwrite
  have hone₂ : m₂.pages 1 = .header header := by
    rw [hextends.pages 1 hframe₁.wellFormed.one (by simp [hone₁]), hone₁]
  have hframe₂ : Frame m₁ m₂ (others m₁) := by
    refine ⟨hextends.wellFormed, fun hm q hq => ?_, hextends.allocated, fun q hq _ => hedited.edited q hq,
      fun q hq hnot => ?_⟩
    · have hallocated : m₁.Allocated q := by
        obtain rfl | rfl := Nat.le_one_iff_eq_zero_or_eq_one.mp hq
        · exact hframe₁.wellFormed.zero
        · exact hframe₁.wellFormed.one
      rw [hedited.edited q hallocated]
      exact hm q hq
    · exact hextends.pages q hq fun raw hraw => hnot (.inr ⟨raw, hraw⟩)
  have hframe₃ := @frame_setPage m₂ 1 (.header { header with rawDataPage := p₂ }) hframe₂.wellFormed
  have hne : p₂ ≠ 1 := by
    rintro rfl
    simp [hcurrent₂.pages] at hone₂
  have hkeeps₃ : RawDataPage.KeepsRaw m₂ (m₂.setPage 1 (.header { header with rawDataPage := p₂ })) := by
    refine RawDataPage.keepsRaw_of_pages hframe₃.allocated fun q raw _ hraw => ?_
    rw [pages_setPage_of_ne, hraw]
    rintro rfl
    simp [hone₂] at hraw
  have hframe : Frame m (m₂.setPage 1 (.header { header with rawDataPage := p₂ })) (others m) := by
    refine ((hframe₁.mono ?_).trans hframe₂ fun q hq hallocated => ?_).trans hframe₃ ?_
    · rintro q rfl
      exact .inl rfl
    · rcases others_of_frame hframe₁ hq hallocated with rfl | hq
      · exact .inl rfl
      · exact hq
    · rintro q rfl _
      exact .inl rfl
  refine ⟨m₂.setPage 1 (.header { header with rawDataPage := p₂ }), ⟨page.offset, header.rawDataPage⟩, ?_,
    hframe, (hkeeps₁.trans hextends.toKeepsRaw).trans hkeeps₃, ?_, hcurrent.minOffset_le, hlt,
    hholds.extends hkeeps₃⟩
  · unfold KeyValueHistoryPage.insertRawData
    rw [hedit]
    dsimp only
    rw [hone₁]
    dsimp only [Page.asHeader]
    rw [hwrite]
    dsimp only [bind, Except.bind, pure, Except.pure]
    unfold RawDataPage.getOffset
    rw [hcurrent₁.pages, hone₂]
    rfl
  · refine ⟨hframe.wellFormed, hframe.headers hh.headers, le_rfl, fun raw hraw => ?_,
      { header with rawDataPage := p₂ }, page₂, ?_, ?_, hlt₂⟩
    · rw [pages_setPage_self] at hraw
      cases hraw
    · rw [getD_editedPages_one (hframe.headers hh.headers)]
      exact pages_setPage_self
    · refine ⟨hcurrent₂.allocated, ?_, hcurrent₂.nextPageNumber, hcurrent₂.minOffset_le,
        hcurrent₂.le_maxOffset⟩
      rw [pages_setPage_of_ne hne, hcurrent₂.pages]

end

/-! ## `Read` -/

/-- Keys of one length. -/
abbrev Key (n : ℕ) := { ba : List UInt8 // ba.length = n }

/-- The locations lead to the values. -/
def Represents {n : ℕ} (m : PageManager) (contents : Key n → Option Location)
    (values : Key n → Option (List UInt8)) : Prop :=
  ∀ key, (contents key = none ∧ values key = none) ∨
    ∃ x value, contents key = some x ∧ values key = some value ∧ Stored m x key value

/-- What is read from a slot. -/
def ofSlot (m : PageManager) (key : List UInt8) : Slot Location → Except Stop (List UInt8)
  | .leaf x => readLeaf m key ⟨1, x.rawDataOffset, x.rawDataPage⟩
  | _ => .error (.zkr .dbKeyNotFound)

/-- What `Read` has to return. -/
def expected (value : Option (List UInt8)) : Except Stop (List UInt8) :=
  match value with
  | some value => .ok value
  | none => .error (.zkr .dbKeyNotFound)

section

variable {n : ℕ} {m m' : PageManager} {contents : Key n → Option Location}
  {values : Key n → Option (List UInt8)} {key key' : Key n} {value : List UInt8} {x : Location}
  {place bits : List ℕ} {p h i : ℕ} {pages : Set ℕ} {slot : KeyValueSlot}

theorem readFrom_eq {key : List UInt8} (hne : walk (table m) bits p ≠ .invalid) :
    readFrom m key bits p = ofSlot m key (walk (table m) bits p) := by
  induction bits generalizing p with
  | nil => exact absurd rfl hne
  | cons index bits ih =>
    unfold walk at hne ⊢
    unfold readFrom
    dsimp only
    have hslot : table m p index = slotOf (getKey m p index) := rfl
    rw [hslot] at hne ⊢
    have hcontrol := @control_of_slotOf (getKey m p index) (by
      intro hinvalid
      rw [hinvalid] at hne
      exact hne rfl)
    rcases hcontrol with hzero | hone | htwo
    · rw [slotOf_zero hzero, hzero]
      rfl
    · rw [slotOf_one hone, hone]
      rfl
    · rw [slotOf_two htwo] at hne ⊢
      rw [htwo]
      exact ih hne

theorem Represents.stored (hr : Represents m contents values) (hx : contents key = some x) :
    ∃ value, values key = some value ∧ Stored m x key value := by
  rcases hr key with ⟨hnone, -⟩ | ⟨y, value, hy, hvalue, hstored⟩
  · rw [hnone] at hx
    cases hx
  · obtain rfl := Option.some.inj (hx.symm.trans hy)
    exact ⟨value, hvalue, hstored⟩

theorem Represents.none_iff (hr : Represents m contents values) : contents key = none ↔ values key = none := by
  rcases hr key with ⟨hnone, hnone'⟩ | ⟨y, value, hy, hvalue, -⟩
  · exact iff_of_true hnone hnone'
  · rw [hy, hvalue]
    exact iff_of_false (Option.some_ne_none y) (Option.some_ne_none value)

/-- All these pages have keys and values. -/
def KeyValues (m : PageManager) (pages : Set ℕ) : Prop := ∀ q ∈ pages, ∃ page, m.pages q = .keyValue page

theorem KeyValues.not_others (hk : KeyValues m pages) (hpages : m.Editable pages) {q : ℕ} (hq : q ∈ pages) :
    q ∉ others m := by
  rintro (rfl | ⟨raw, hraw⟩)
  · exact absurd (hpages 1 hq).1 (Nat.lt_irrefl 1)
  · obtain ⟨page, hpage⟩ := hk q hq
    rw [hpage] at hraw
    cases hraw

/-- What a write leaves. -/
structure Wrote (m m' : PageManager) (contents : Key n → Option Location) (key : Key n) (value : List UInt8)
    (place : List ℕ) (p : ℕ) (pages pages' : Set ℕ) (x : Location) : Prop
    extends Writes (baRadix n) slots m m' contents key x place p pages pages' (others m) where
  sub : pages ⊆ pages'
  raw : RawDataPage.KeepsRaw m m'
  header : HeaderAt m' 1
  keyValues : KeyValues m' pages'
  stored : Stored m' x key value

/-- Raw data and the header stay when other pages are written. -/
theorem HeaderAt.frame (hh : HeaderAt m h) {changed : Set ℕ} (hframe : Frame m m' changed)
    (hedited : m'.editedPages h = m.editedPages h)
    (hchanged : ∀ q ∈ changed, 1 < q ∧ ∀ raw, m.pages q ≠ .raw raw) :
    HeaderAt m' h ∧ RawDataPage.KeepsRaw m m' := by
  obtain ⟨header, page, hpage, hcurrent, hlt⟩ := hh.current
  have hraw : ∀ q raw, m.Allocated q → m.pages q = .raw raw → m'.pages q = .raw raw := by
    intro q raw hq hraw
    rw [hframe.pages q hq fun hmem => (hchanged q hmem).2 raw hraw, hraw]
  have hone : m'.pages 1 = m.pages 1 :=
    hframe.pages 1 hh.wellFormed.one fun hmem => absurd (hchanged 1 hmem).1 (Nat.lt_irrefl 1)
  have hheader : m'.pages ((m.editedPages h).getD h) = .header header := by
    rcases hh.headers h hh.header_le with hnone | hsome
    · rw [hnone, Option.getD_none] at hpage ⊢
      rw [hframe.pages h ?_ fun hmem => absurd hh.header_le (Nat.not_le.mpr (hchanged h hmem).1), hpage]
      obtain rfl | rfl := Nat.le_one_iff_eq_zero_or_eq_one.mp hh.header_le
      · exact hh.wellFormed.zero
      · exact hh.wellFormed.one
    · rw [hsome, Option.getD_some] at hpage ⊢
      rw [hone, hpage]
  refine ⟨⟨hframe.wellFormed, hframe.headers hh.headers, hh.header_le, fun raw => ?_, header, page, ?_, ?_, hlt⟩,
    RawDataPage.keepsRaw_of_pages hframe.allocated hraw⟩
  · rw [hone]
    exact hh.one_ne_raw raw
  · rw [hedited]
    exact hheader
  · exact ⟨hframe.allocated _ hcurrent.allocated, hraw _ page hcurrent.allocated hcurrent.pages,
      hcurrent.nextPageNumber, hcurrent.minOffset_le, hcurrent.le_maxOffset⟩

theorem HeaderAt.setKey (hh : HeaderAt m h) (hp : 1 < p) (hpage : ∃ page, m.pages p = .keyValue page) :
    HeaderAt (setKey m p i slot) h ∧ RawDataPage.KeepsRaw m (setKey m p i slot) := by
  refine hh.frame (frame_setPage hh.wellFormed) rfl ?_
  rintro q rfl
  obtain ⟨page, hpage⟩ := hpage
  refine ⟨hp, fun raw => ?_⟩
  rw [hpage]
  exact nofun

theorem Represents.keeps (hr : Represents m contents values) (hm : RawDataPage.KeepsRaw m m') :
    Represents m' contents values := by
  intro key
  exact (hr key).imp_right fun ⟨x, value, hx, hvalue, hstored⟩ => ⟨x, value, hx, hvalue, hstored.keeps hm⟩

theorem keyValues_setKey (hk : KeyValues m pages) : KeyValues (KeyValuePage.setKey m p i slot) pages := by
  intro q hq
  by_cases hqp : q = p
  · rw [hqp]
    exact ⟨_, pages_setPage_self⟩
  · obtain ⟨page, hpage⟩ := hk q hq
    exact ⟨page, (pages_setPage_of_ne hqp).trans hpage⟩

section

variable {below : ℕ → Set ℕ} {new written : Set ℕ} {q : ℕ} (hnode : RadixPages.Node (baRadix n) place p pages below)
  (hslots : ∀ j, Says (baRadix n) contents (place ++ [j]) (table m p j))
  (hnext : ∀ j q, table m p j = .next q → RadixPages.Tree (baRadix n) (table m) contents (place ++ [j]) q (below j))
  (hpages : m.Editable pages) (hk : KeyValues m pages)

include hnode hslots hnext hpages hk

/-- The key and the value are appended, and located by the slot. -/
theorem writeEmpty_spec (hh : HeaderAt m h) (hbelow : (baRadix n).Below (place ++ [i]) key)
    (hsole : ∀ k, (baRadix n).Below (place ++ [i]) k → k ≠ key → contents k = none)
    (hlength : 4 + key.1.length + value.length ≤ U64Mask32) :
    ∃ m' x, writeEmpty key value m i p h = .ok (m', p, 1) ∧
      Wrote m m' contents key value place p pages pages x := by
  obtain ⟨m₁, x, hinsert, hframe, hraw, hh₁, hmin, hmax, hholds⟩ :=
    insertRawData_spec hh (lengthBa (4 + key.1.length + value.length) ++ key ++ value)
  have hothers : ∀ r ∈ pages, r ∉ others m := fun r hr => hk.not_others hpages hr
  have hk₁ : KeyValues m₁ pages := by
    intro q hq
    rw [hframe.pages q (hpages q hq).2.1 (hothers q hq)]
    exact hk q hq
  have hmask : x.rawDataOffset &&& U64Mask12 = x.rawDataOffset :=
    (Nat.and_two_pow_sub_one_eq_mod _ 12).trans (Nat.mod_eq_of_lt hmax)
  obtain ⟨hh₂, hraw₂⟩ := @HeaderAt.setKey m₁ p 1 i ⟨1, x.rawDataOffset, x.rawDataPage⟩ hh₁
    (hpages p hnode.mem).1 (hk₁ p hnode.mem)
  refine ⟨_, x, ?_, ⟨writes_put hnode hslots hnext hpages hothers hframe hbelow hsole
    (slots_setKey (slotOf_one rfl)), subset_rfl, hraw.trans hraw₂, hh₂, keyValues_setKey hk₁,
    ⟨hlength, hmin, hmax, hholds.extends hraw₂⟩⟩⟩
  unfold writeEmpty
  dsimp only
  rw [if_neg (Nat.not_lt.mpr hlength), hinsert]
  dsimp only [bind, Except.bind, pure, Except.pure]
  rw [hmask]
  rfl

/-- A page below was written, and the slot is made to lead to it. -/
theorem wrote_descend (hframe : Frame m m' (written ∪ others m)) (hbelow : written ⊆ below i)
    (hwritten : written ⊆ new) (hraw : RawDataPage.KeepsRaw m m') (hh : HeaderAt m' 1)
    (hnew : m'.Editable new) (hnewk : KeyValues m' new) (hfresh : ∀ r ∈ new, r ∈ below i ∨ ¬m.Allocated r)
    (hkey : (baRadix n).Below (place ++ [i]) key) (hstored : Stored m' x key value)
    (htree : RadixPages.Tree (baRadix n) (table m') (Function.update contents key (some x)) (place ++ [i]) q new)
    (hcrowded : Crowded (baRadix n) (Function.update contents key (some x)) (place ++ [i])) :
    Wrote m (setKey m' p i ⟨2, 0, q⟩) contents key value place p pages (pages ∪ new) x := by
  have hothers : ∀ r ∈ pages, r ∉ others m := fun r hr => hk.not_others hpages hr
  have hk' : KeyValues m' (pages ∪ new) := by
    rintro r (hr | hr)
    · by_cases hin : r ∈ written
      · exact hnewk r (hwritten hin)
      · rw [hframe.pages r (hpages r hr).2.1 (by
          rintro (hmem | hmem)
          · exact hin hmem
          · exact hothers r hr hmem)]
        exact hk r hr
    · exact hnewk r hr
  obtain ⟨hh', hraw'⟩ := @HeaderAt.setKey m' p 1 i ⟨2, 0, q⟩ hh (hpages p hnode.mem).1
    (hk' p (.inl hnode.mem))
  exact ⟨writes_descend hnode hslots hnext hpages hothers
    (hframe.mono (Set.union_subset_union_left _ hbelow)) hnew hfresh hkey htree hcrowded
    (slots_setKey (slotOf_two rfl)), Set.subset_union_left, hraw.trans hraw', hh', keyValues_setKey hk',
    hstored.keeps hraw'⟩

end

/-- What is known of the pages when a key is written. -/
structure Ready (m : PageManager) (h : ℕ) (contents : Key n → Option Location)
    (values : Key n → Option (List UInt8)) (place : List ℕ) (p : ℕ) (pages : Set ℕ) : Prop where
  header : HeaderAt m h
  tree : RadixPages.Tree (baRadix n) (table m) contents place p pages
  editable : m.Editable pages
  keyValues : KeyValues m pages
  represents : Represents m contents values

/-- The leaf of another key is moved to a new page. -/
theorem Ready.moved (hr : Ready m h contents values place p pages) {place' : List ℕ}
    (hlt : place'.length < (baRadix n).length) (hsole : Sole (baRadix n) contents place' key') (hx : contents key' = some x)
    (hi : (baRadix n).Below (place' ++ [i]) key') (hslot : slotOf slot = .leaf x) :
    Ready (setKey (initEmptyPage m.getFreePage.2 m.getFreePage.1) m.getFreePage.1 i slot) h contents values
        place' m.getFreePage.1 {m.getFreePage.1} ∧
      Frame m (setKey (initEmptyPage m.getFreePage.2 m.getFreePage.1) m.getFreePage.1 i slot) ∅ ∧
      RawDataPage.KeepsRaw m (setKey (initEmptyPage m.getFreePage.2 m.getFreePage.1) m.getFreePage.1 i slot) := by
  have hpage := slots_update ⟨fun _ => .empty⟩ i slot
  rw [hslot] at hpage
  obtain ⟨htree, hframe, heditable⟩ :=
    moved_spec hr.header.wellFormed hlt hsole hx hi slots_blank hpage
  rw [setKey_initEmptyPage]
  have hallocated : m.Allocated h := by
    obtain rfl | rfl := Nat.le_one_iff_eq_zero_or_eq_one.mp hr.header.header_le
    · exact hr.header.wellFormed.zero
    · exact hr.header.wellFormed.one
  obtain ⟨hh, hraw⟩ := hr.header.frame hframe (edited_getFreePage hr.header.wellFormed hallocated)
    fun q hq => absurd hq (Set.notMem_empty q)
  refine ⟨⟨hh, htree, heditable, ?_, hr.represents.keeps hraw⟩, hframe, hraw⟩
  rintro q rfl
  exact ⟨_, pages_setPage_self⟩

/-- The slot leads to the page that is written below it. -/
def writeBelow (key value : List UInt8) (bits : List ℕ) (level index p : ℕ) (m : PageManager) (q h : ℕ) :
    Except Stop (PageManager × ℕ × ℕ) := do
  let (m, q, h) ← writeFrom key value bits (level + 1) m q h
  return (setKey m p index ⟨2, 0, q⟩, p, h)

theorem writeFrom_next {index level : ℕ} (hedit : m.editPage p = (p, m))
    (htwo : (getKey m p index).control = 2) : writeFrom key value (index :: bits) level m p h =
      writeBelow key value bits level index p m (getKey m p index).rawPageNumber h := by
  conv_lhs => unfold writeFrom
  rw [hedit]
  dsimp only
  rw [htwo]
  rfl

/-- The leaf has another key, which is moved to a new page. -/
theorem writeFrom_moved {index level newIndex : ℕ} {value' : List UInt8} (hedit : m.editPage p = (p, m))
    (hone : (getKey m p index).control = 1)
    (hstored : Stored m ⟨(getKey m p index).rawPageOffset, (getKey m p index).rawPageNumber⟩ key' value')
    (hne : key ≠ key') (hnewIndex : (splitKey9 key')[level + 1]? = some newIndex) :
    writeFrom key value (index :: bits) level m p h =
      writeBelow key value bits level index p
        (setKey (initEmptyPage m.getFreePage.2 m.getFreePage.1) m.getFreePage.1 newIndex (getKey m p index))
        m.getFreePage.1 h := by
  have hlength : key.1.length = key'.1.length := key.2.trans key'.2.symm
  have hread := hstored.read_length
  have hreadKey := hstored.read_key hlength
  have hdrop : (lengthBa (4 + key'.1.length + value'.length) ++ key'.1).drop 4 = key' :=
    List.drop_left' (length_lengthBa _)
  have hge : ¬4 + key'.1.length + value'.length < 4 + key.1.length := by omega
  have hne' : ¬key'.1 = key.1 := fun heq => hne (Subtype.ext heq.symm)
  conv_lhs => unfold writeFrom
  rw [hedit]
  dsimp only
  rw [hone]
  simp only
  rw [hread]
  dsimp only [bind, Except.bind]
  rw [length32_lengthBa hstored.length_le, if_neg hge, hreadKey]
  dsimp only [bind, Except.bind]
  rw [hdrop, if_neg hne', hnewIndex]
  rfl

/-- A key that is not there is written, unless its data are too long. -/
theorem writeFrom_spec {level : ℕ} (hr : Ready m h contents values place p pages) (hnone : contents key = none)
    (hbits : place ++ bits = (baRadix n).digits key) (hlevel : place.length = level) :
    if 4 + key.1.length + value.length ≤ U64Mask32 then
      ∃ m' pages' x, writeFrom key value bits level m p h = .ok (m', p, 1) ∧
        Wrote m m' contents key value place p pages pages' x
    else writeFrom key value bits level m p h = .error (.zkr .dbError) := by
  induction bits generalizing place m p pages level with
  | nil => exact absurd rfl (exists_bits hr.tree hbits)
  | cons index bits ih =>
    obtain ⟨below, hnode, hslots, hnext⟩ : ∃ below, RadixPages.Node (baRadix n) place p pages below ∧
        (∀ j, Says (baRadix n) contents (place ++ [j]) (table m p j)) ∧
        ∀ j q, table m p j = .next q → RadixPages.Tree (baRadix n) (table m) contents (place ++ [j]) q (below j) := by
      cases hr.tree with
      | node hnode hslots hnext => exact ⟨_, hnode, hslots, hnext⟩
    have hpages := hr.editable
    have hk : (baRadix n).Below (place ++ [index]) key := concat_prefix hbits
    have hbits' : place ++ [index] ++ bits = (baRadix n).digits key := by simpa using hbits
    have hlevel' : (place ++ [index]).length = level + 1 := by
      rw [List.length_append, hlevel]
      rfl
    have hslot : Says (baRadix n) contents (place ++ [index]) (slotOf (getKey m p index)) := hslots index
    have hcontrol := @control_of_slotOf (getKey m p index) (by
      intro hinvalid
      rw [hinvalid] at hslot
      exact hslot)
    have hedit := hpages.editPage hnode.mem
    rcases hcontrol with hzero | hone | htwo
    · rw [slotOf_zero hzero] at hslot
      unfold writeFrom
      rw [hedit]
      dsimp only
      rw [hzero]
      split
      · rename_i hlength
        obtain ⟨m', x, hwrite, hwrote⟩ := writeEmpty_spec hnode hslots hnext hpages hr.keyValues hr.header hk
          (fun k hk' _ => hslot k hk') hlength
        exact ⟨m', pages, x, hwrite, hwrote⟩
      · rename_i hlength
        unfold writeEmpty
        dsimp only
        rw [if_pos (Nat.lt_of_not_le hlength)]
        rfl
    · rw [slotOf_one hone] at hslot
      obtain ⟨key', hx, hsole⟩ := hslot
      obtain ⟨value', -, hstored⟩ := hr.represents.stored hx
      have hne : key ≠ key' := by
        rintro rfl
        rw [hnone] at hx
        cases hx
      obtain ⟨hlt, newIndex, hnewIndex, hk'⟩ := exists_newIndex hk hsole.1 hne
      rw [hlevel'] at hnewIndex
      obtain ⟨hmoved, hframe, hraw⟩ := hr.moved hlt hsole hx hk' (slotOf_one hone)
      have hfresh := (getFreePage_takes hr.header.wellFormed).fresh
      have hrec := ih hmoved hbits' hlevel'
      rw [writeFrom_moved hedit hone hstored hne hnewIndex]
      unfold writeBelow
      split at hrec
      · rename_i hle
        rw [if_pos hle]
        obtain ⟨m', new, x', hwrite, hwrote⟩ := hrec
        rw [hwrite]
        have hframe' : Frame m m' (∅ ∪ others m) := by
          refine (hframe.mono (Set.empty_subset _)).trans hwrote.frame ?_
          rintro r (rfl | hr') hallocated
          · exact absurd hallocated hfresh
          · exact others_of_frame hframe hr' hallocated
        have hfresh' : ∀ r ∈ new, r ∈ below index ∨ ¬m.Allocated r := by
          refine fun r hr' => .inr fun hallocated => ?_
          rcases hwrote.fresh r hr' with rfl | hout
          · exact hfresh hallocated
          · exact hout (hframe.allocated r hallocated)
        exact ⟨_, _, x', rfl, wrote_descend hnode hslots hnext hpages hr.keyValues hframe' (Set.empty_subset _)
          (Set.empty_subset _) (hraw.trans hwrote.raw) hwrote.header hwrote.editable hwrote.keyValues hfresh' hk
          hwrote.stored hwrote.tree (hsole.crowded (Ne.symm hne) hk x')⟩
      · rename_i hle
        rw [if_neg hle, hrec]
        rfl
    · rw [slotOf_two htwo] at hslot
      have hbelow := hnext index (getKey m p index).rawPageNumber (slotOf_two htwo)
      have hready : Ready m h contents values (place ++ [index]) (getKey m p index).rawPageNumber (below index) :=
        ⟨hr.header, hbelow, fun q hq => hpages q (hnode.sub index hq),
          fun q hq => hr.keyValues q (hnode.sub index hq), hr.represents⟩
      have hrec := ih hready hbits' hlevel'
      rw [writeFrom_next hedit htwo]
      unfold writeBelow
      split at hrec
      · rename_i hle
        rw [if_pos hle]
        obtain ⟨m', new, x, hwrite, hwrote⟩ := hrec
        rw [hwrite]
        exact ⟨_, _, x, rfl, wrote_descend hnode hslots hnext hpages hr.keyValues hwrote.frame subset_rfl
          hwrote.sub hwrote.raw hwrote.header hwrote.editable hwrote.keyValues hwrote.fresh hk hwrote.stored
          hwrote.tree (hslot.update key x)⟩
      · rename_i hle
        rw [if_neg hle, hrec]
        rfl

end

/-! ## Writes one after another -/

/-- The writes, from a page number and that of the header on. -/
def writeAll {n : ℕ} (state : PageManager × ℕ × ℕ) (writes : List (Key n × List UInt8)) :
    Except Stop (PageManager × ℕ × ℕ) :=
  writes.foldlM (fun (m, p, h) (key, value) => write m p key value h) state

/-- The length of the data of an entry fits. -/
abbrev Fits (n : ℕ) (value : List UInt8) : Prop := 4 + n + value.length ≤ U64Mask32

section

variable {n : ℕ} {m m' : PageManager} {contents : Key n → Option Location}
  {values : Key n → Option (List UInt8)} {key : Key n} {value : List UInt8} {p h : ℕ} {pages : Set ℕ}
  {writes : List (Key n × List UInt8)}

theorem Represents.update (hr : Represents m contents values) {x : Location} (hx : Stored m x key value) :
    Represents m (Function.update contents key (some x)) (Function.update values key (some value)) := by
  intro k
  by_cases hk : k = key
  · subst hk
    rw [Function.update_self, Function.update_self]
    exact .inr ⟨x, value, rfl, rfl, hx⟩
  · rw [Function.update_of_ne hk, Function.update_of_ne hk]
    exact hr k

/-- A key that is not there can be read after it is written, and data that are too long are refused. -/
theorem write_spec (hn : 0 < n) (hr : Ready m h contents values [] p pages) (hnone : values key = none) :
    if Fits n value then
      ∃ m' contents' pages', write m p key value h = .ok (m', p, 1) ∧
        Ready m' 1 contents' (Function.update values key (some value)) [] p pages'
    else write m p key value h = .error (.zkr .dbError) := by
  have hspec := @writeFrom_spec n m contents values key value [] (splitKey9 key) p h pages 0 hr
    (hr.represents.none_iff.mpr hnone) rfl rfl
  have hne : ¬key.1.length = 0 := by
    rw [key.2]
    exact Nat.ne_of_gt hn
  unfold write Fits
  rw [if_neg hne]
  rw [key.2] at hspec
  split at hspec
  · rename_i hfits
    rw [if_pos hfits]
    obtain ⟨m', pages', x, hwrite, hwrote⟩ := hspec
    exact ⟨m', _, pages', hwrite, hwrote.header, hwrote.tree, hwrote.editable, hwrote.keyValues,
      (hr.represents.keeps hwrote.raw).update hwrote.stored⟩
  · rename_i hfits
    rw [if_neg hfits]
    exact hspec

end

/-- A header, and a page for raw data. -/
def sampleManager : PageManager where
  pages p :=
    if p = 1 then .header ⟨2, 0⟩
    else if p = 2 then .raw ⟨0, 0, RawDataPage.minOffset, fun _ => 0⟩
    else .free
  editedPages p := if p = 0 then some 1 else if p = 2 then some 2 else none
  freePages := []
  firstUnusedPage := 3

end KeyValuePage

end ZkevmProver.HashDB64
