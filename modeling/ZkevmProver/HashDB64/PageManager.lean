import ZkevmProver.HashDB.SmtTypes

/-!
# The pages of the database

A page has 4096 bytes, which are read as one of the structures below.  A page that is edited for the first
time after a flush is copied to a free page.

  1. The structures.
  2. The page manager.
  3. What its functions do.
-/

namespace ZkevmProver.HashDB64

/-! ## The structures -/

structure RawDataStruct where
  previousPageNumber : ℕ
  /-- The low 48 bits of `nextPageNumberAndOffset`. -/
  nextPageNumber : ℕ
  /-- The high 16 bits of `nextPageNumberAndOffset`. -/
  offset : ℕ
  /-- The bytes of the page, by their offset. -/
  data : ℕ → UInt8

/-- The location of raw data. -/
structure Location where
  rawDataOffset : ℕ
  /-- Also the number of the next page, of an intermediate node. -/
  rawDataPage : ℕ
  deriving DecidableEq

/-- An entry of 24 bytes. -/
structure KeyValueEntry where
  control : ℕ
  previousVersionOffset : ℕ
  version : ℕ
  location : Location
  hash : Location
  deriving DecidableEq

structure KeyValueHistoryStruct where
  historyOffset : ℕ
  previousPage : ℕ
  keyValueEntry : ℕ → KeyValueEntry
  /-- The history entries, copied from `keyValueEntry` when a new version is written. -/
  historyEntry : ℕ → KeyValueEntry

structure HeaderStruct where
  rawDataPage : ℕ
  versionDataPage : ℕ

/-- An entry of 64 bytes. -/
structure VersionDataEntry where
  key : UInt64
  root : List UInt8
  keyValueHistoryPage : ℕ
  /-- The high 16 bits of `controlAndFreePagesList`. -/
  control : ℕ
  /-- The low 48 bits, also the number of the next page, of an intermediate node. -/
  freePagesList : ℕ
  createdPagesList : ℕ
  deriving DecidableEq

structure VersionDataStruct where
  versionDataEntry : ℕ → VersionDataEntry

/-- An entry of 8 bytes: 4 bits, 12 bits and 48 bits. -/
structure KeyValueSlot where
  control : ℕ
  rawPageOffset : ℕ
  /-- Also the number of the next page, of an intermediate node. -/
  rawPageNumber : ℕ
  deriving DecidableEq

structure KeyValueStruct where
  key : ℕ → KeyValueSlot

/-- The number of the previous page, that of the next page with the offset in its high 16 bits, and entries. -/
structure PageListStruct where
  words : ℕ → ℕ

inductive Page
  /-- All bytes are zero. -/
  | free
  | raw (page : RawDataStruct)
  | history (page : KeyValueHistoryStruct)
  | header (page : HeaderStruct)
  | versionData (page : VersionDataStruct)
  | keyValue (page : KeyValueStruct)
  | pageList (page : PageListStruct)

def Page.asRaw : Page → RawDataStruct
  | .raw page => page
  | _ => ⟨0, 0, 0, fun _ => 0⟩

def KeyValueEntry.empty : KeyValueEntry := ⟨0, 0, 0, ⟨0, 0⟩, ⟨0, 0⟩⟩

def Page.asHistory : Page → KeyValueHistoryStruct
  | .history page => page
  | _ => ⟨0, 0, fun _ => .empty, fun _ => .empty⟩

def Page.asHeader : Page → HeaderStruct
  | .header page => page
  | _ => ⟨0, 0⟩

def VersionDataEntry.empty : VersionDataEntry := ⟨0, List.replicate 32 0, 0, 0, 0, 0⟩

def Page.asVersionData : Page → VersionDataStruct
  | .versionData page => page
  | _ => ⟨fun _ => .empty⟩

def KeyValueSlot.empty : KeyValueSlot := ⟨0, 0, 0⟩

def Page.asKeyValue : Page → KeyValueStruct
  | .keyValue page => page
  | _ => ⟨fun _ => .empty⟩

def Page.asPageList : Page → PageListStruct
  | .pageList page => page
  | _ => ⟨fun _ => 0⟩

/-! ## The page manager -/

/-- Why a call does not return its result. -/
inductive Stop
  | exitProcess
  | outOfBounds
  | zkr (result : ZkResult)
  deriving DecidableEq

structure PageManager where
  pages : ℕ → Page
  editedPages : ℕ → Option ℕ
  /-- The last free page comes first. -/
  freePages : List ℕ
  firstUnusedPage : ℕ

namespace PageManager

def setPage (m : PageManager) (pageNumber : ℕ) (page : Page) : PageManager :=
  { m with pages := Function.update m.pages pageNumber page }

def setEdited (m : PageManager) (pageNumber pageNumber_ : ℕ) : PageManager :=
  { m with editedPages := Function.update m.editedPages pageNumber (some pageNumber_) }

/-- There is always another page: the files grow. -/
def getFreePage (m : PageManager) : ℕ × PageManager :=
  let (pageNumber, m) : ℕ × PageManager :=
    match m.freePages with
    | pageNumber :: freePages => (pageNumber, { m with freePages := freePages }.setPage pageNumber .free)
    | [] => (m.firstUnusedPage,
        { m with firstUnusedPage := m.firstUnusedPage + 1 }.setPage m.firstUnusedPage .free)
  (pageNumber, m.setEdited pageNumber pageNumber)

/-- The first two pages cannot be released. -/
def releasePage (m : PageManager) (pageNumber : ℕ) : Except Stop PageManager :=
  if 2 ≤ pageNumber ∧ pageNumber < m.firstUnusedPage then .ok { m with freePages := pageNumber :: m.freePages }
  else .error .exitProcess

def editPage (m : PageManager) (pageNumber : ℕ) : ℕ × PageManager :=
  match m.editedPages pageNumber with
  | some pageNumber_ => (pageNumber_, m)
  | none =>
    let (pageNumber_, m) := if pageNumber ≤ 1 then (1, m) else m.getFreePage
    let m := m.setPage pageNumber_ (m.pages pageNumber)
    (pageNumber_, m.setEdited pageNumber pageNumber_)

/-! ## What its functions do -/

/-- The page is in use. -/
def Allocated (m : PageManager) (p : ℕ) : Prop := p < m.firstUnusedPage ∧ p ∉ m.freePages

/-- The page is edited in place. -/
def Live (m : PageManager) (p : ℕ) : Prop :=
  m.editedPages p = some p ∨ (p = 1 ∧ m.editedPages p = none)

/-- Each free page is free once, and the two header pages are in use. -/
structure WellFormed (m : PageManager) : Prop where
  zero : m.Allocated 0
  one : m.Allocated 1
  nodup : m.freePages.Nodup
  lt : ∀ p ∈ m.freePages, p < m.firstUnusedPage

section

variable {m : PageManager} {p q : ℕ} {page : Page}

@[simp] theorem pages_setPage_self : (m.setPage p page).pages p = page := Function.update_self ..

theorem pages_setPage_of_ne (h : q ≠ p) : (m.setPage p page).pages q = m.pages q := Function.update_of_ne h ..

theorem setPage_setPage {page' : Page} : (m.setPage p page).setPage p page' = m.setPage p page' := by
  unfold setPage
  rw [Function.update_idem]

@[simp] theorem allocated_setPage : (m.setPage p page).Allocated q ↔ m.Allocated q := Iff.rfl

@[simp] theorem live_setPage : (m.setPage p page).Live q ↔ m.Live q := Iff.rfl

theorem WellFormed.setPage (h : m.WellFormed) : (m.setPage p page).WellFormed := ⟨h.zero, h.one, h.nodup, h.lt⟩

theorem live_setEdited (h : m.Live q) : (m.setEdited p p).Live q := by
  unfold Live setEdited
  dsimp only
  by_cases hq : q = p
  · subst hq
    exact .inl (Function.update_self ..)
  · rw [Function.update_of_ne hq]
    exact h

theorem live_setEdited_self : (m.setEdited p p).Live p := .inl (Function.update_self ..)

/-- What stays as it is when a free page is taken. -/
structure Takes (m : PageManager) (p : ℕ) (m' : PageManager) : Prop where
  fresh : ¬m.Allocated p
  allocated : m'.Allocated p
  live : m'.Live p
  pages : m'.pages p = .free
  wellFormed : m'.WellFormed
  keepsPages : ∀ q, m.Allocated q → m'.pages q = m.pages q
  keepsAllocated : ∀ q, m.Allocated q → m'.Allocated q
  keepsLive : ∀ q, m.Live q → m'.Live q

theorem getFreePage_takes (h : m.WellFormed) : Takes m m.getFreePage.1 m.getFreePage.2 := by
  unfold getFreePage
  cases hfree : m.freePages with
  | nil =>
    have hfresh : ¬m.Allocated m.firstUnusedPage := fun ha => Nat.lt_irrefl _ ha.1
    refine ⟨hfresh, ⟨Nat.lt_succ_self _, List.not_mem_nil⟩, live_setEdited_self, pages_setPage_self,
      ⟨⟨Nat.lt_succ_of_lt h.zero.1, List.not_mem_nil⟩, ⟨Nat.lt_succ_of_lt h.one.1, List.not_mem_nil⟩,
        List.nodup_nil, nofun⟩, ?_, ?_, ?_⟩
    · intro q hq
      apply pages_setPage_of_ne
      rintro rfl
      exact hfresh hq
    · exact fun q hq => ⟨Nat.lt_succ_of_lt hq.1, List.not_mem_nil⟩
    · exact fun q hq => live_setEdited hq
  | cons p rest =>
    have hmem : p ∈ m.freePages := hfree ▸ List.mem_cons_self
    have hnodup := h.nodup
    rw [hfree] at hnodup
    have hfresh : ¬m.Allocated p := fun ha => ha.2 hmem
    have hsub : ∀ q ∈ rest, q ∈ m.freePages := fun q hq => hfree ▸ List.mem_cons_of_mem p hq
    refine ⟨hfresh, ⟨h.lt p hmem, (List.nodup_cons.mp hnodup).1⟩, live_setEdited_self, pages_setPage_self,
      ⟨⟨h.zero.1, fun hin => h.zero.2 (hsub 0 hin)⟩, ⟨h.one.1, fun hin => h.one.2 (hsub 1 hin)⟩,
        (List.nodup_cons.mp hnodup).2, fun q hq => h.lt q (hsub q hq)⟩, ?_, ?_, ?_⟩
    · intro q hq
      apply pages_setPage_of_ne
      rintro rfl
      exact hfresh hq
    · exact fun q hq => ⟨hq.1, fun hin => hq.2 (hsub q hin)⟩
    · exact fun q hq => live_setEdited hq

/-- A live page is edited in place. -/
theorem editPage_of_live (h : m.Live p) :
    ∃ m', m.editPage p = (p, m') ∧ m'.pages = m.pages ∧ m'.freePages = m.freePages ∧
      m'.firstUnusedPage = m.firstUnusedPage ∧ ∀ q, m.Live q → m'.Live q := by
  unfold editPage
  rcases h with hedited | ⟨rfl, hedited⟩
  · rw [hedited]
    exact ⟨m, rfl, rfl, rfl, rfl, fun _ hq => hq⟩
  · rw [hedited]
    refine ⟨(m.setPage 1 (m.pages 1)).setEdited 1 1, rfl, ?_, rfl, rfl, fun q hq => live_setEdited hq⟩
    exact Function.update_eq_self 1 m.pages

theorem editPage_of_live_of_ne (h : m.Live p) (hp : p ≠ 1) : m.editPage p = (p, m) := by
  obtain hedited | ⟨hone, -⟩ := h
  · unfold editPage
    rw [hedited]
  · exact absurd hone hp

/-- Both headers are edited in page 1. -/
def HeadersEditable (m : PageManager) : Prop :=
  ∀ h ≤ 1, m.editedPages h = none ∨ m.editedPages h = some 1

/-- What a step leaves as it is that writes some pages, and takes free ones. -/
structure Frame (m m' : PageManager) (changed : Set ℕ) : Prop where
  wellFormed : m'.WellFormed
  headers : m.HeadersEditable → m'.HeadersEditable
  allocated : ∀ q, m.Allocated q → m'.Allocated q
  edited : ∀ q, m.Allocated q → 1 < q → m'.editedPages q = m.editedPages q
  pages : ∀ q, m.Allocated q → q ∉ changed → m'.pages q = m.pages q

variable {m' m'' : PageManager} {changed changed' : Set ℕ}

theorem Frame.refl (h : m.WellFormed) : Frame m m changed :=
  ⟨h, fun hm => hm, fun _ hq => hq, fun _ _ _ => rfl, fun _ _ _ => rfl⟩

theorem Frame.trans (h : Frame m m' changed) (h' : Frame m' m'' changed')
    (hsub : ∀ q ∈ changed', m.Allocated q → q ∈ changed) : Frame m m'' changed where
  wellFormed := h'.wellFormed
  headers hm := h'.headers (h.headers hm)
  allocated q hq := h'.allocated q (h.allocated q hq)
  edited q hq hlt := (h'.edited q (h.allocated q hq) hlt).trans (h.edited q hq hlt)
  pages q hq hnot := (h'.pages q (h.allocated q hq) fun hmem => hnot (hsub q hmem hq)).trans (h.pages q hq hnot)

theorem Frame.mono (h : Frame m m' changed) (hsub : changed ⊆ changed') : Frame m m' changed' where
  wellFormed := h.wellFormed
  headers := h.headers
  allocated := h.allocated
  edited := h.edited
  pages q hq hnot := h.pages q hq fun hmem => hnot (hsub hmem)

theorem Frame.live (h : Frame m m' changed) (hq : m.Allocated q) (hlt : 1 < q) (hlive : m.Live q) :
    m'.Live q := by
  unfold Live at hlive ⊢
  rwa [h.edited q hq hlt]

/-- These pages are in use, and edited in place. -/
def Editable (m : PageManager) (pages : Set ℕ) : Prop := ∀ q ∈ pages, 1 < q ∧ m.Allocated q ∧ m.Live q

theorem Editable.frame {pages : Set ℕ} (h : m.Editable pages) (hm : Frame m m' changed) : m'.Editable pages := by
  intro q hq
  obtain ⟨hlt, hallocated, hlive⟩ := h q hq
  exact ⟨hlt, hm.allocated q hallocated, hm.live hallocated hlt hlive⟩

theorem Editable.union {pages new : Set ℕ} (h : m.Editable pages) (h' : m.Editable new) :
    m.Editable (pages ∪ new) := by
  rintro q (hq | hq)
  · exact h q hq
  · exact h' q hq

theorem Editable.editPage {pages : Set ℕ} (h : m.Editable pages) (hq : q ∈ pages) : m.editPage q = (q, m) :=
  editPage_of_live_of_ne (h q hq).2.2 (Nat.ne_of_gt (h q hq).1)

theorem frame_setPage (h : m.WellFormed) : Frame m (m.setPage p page) {p} :=
  ⟨h.setPage, fun hm => hm, fun _ hq => hq, fun _ _ _ => rfl, fun _ _ hq => pages_setPage_of_ne hq⟩

theorem edited_getFreePage (h : m.WellFormed) (hq : m.Allocated q) :
    m.getFreePage.2.editedPages q = m.editedPages q := by
  have hne : q ≠ m.getFreePage.1 := by
    rintro rfl
    exact (getFreePage_takes h).fresh hq
  unfold getFreePage at hne ⊢
  cases hfree : m.freePages with
  | nil =>
    rw [hfree] at hne
    exact Function.update_of_ne hne _ _
  | cons r rest =>
    rw [hfree] at hne
    exact Function.update_of_ne hne _ _

/-- A free page is taken. -/
theorem frame_getFreePage (h : m.WellFormed) : Frame m m.getFreePage.2 ∅ where
  wellFormed := (getFreePage_takes h).wellFormed
  headers hm q hq := by
    have hallocated : m.Allocated q := by
      obtain rfl | rfl := Nat.le_one_iff_eq_zero_or_eq_one.mp hq
      · exact h.zero
      · exact h.one
    rw [edited_getFreePage h hallocated]
    exact hm q hq
  allocated := (getFreePage_takes h).keepsAllocated
  edited q hq _ := edited_getFreePage h hq
  pages q hq _ := (getFreePage_takes h).keepsPages q hq

theorem one_lt_getFreePage (h : m.WellFormed) : 1 < m.getFreePage.1 := by
  have hfresh := (getFreePage_takes h).fresh
  by_contra hle
  obtain heq | heq := Nat.le_one_iff_eq_zero_or_eq_one.mp (Nat.le_of_not_lt hle)
  · exact hfresh (heq ▸ h.zero)
  · exact hfresh (heq ▸ h.one)

theorem editable_getFreePage (h : m.WellFormed) : m.getFreePage.2.Editable {m.getFreePage.1} := by
  rintro q rfl
  exact ⟨one_lt_getFreePage h, (getFreePage_takes h).allocated, (getFreePage_takes h).live⟩

/-- A header is edited in page 1, where its contents are copied to if it was not edited before. -/
theorem editPage_header (h : m.WellFormed) (hm : m.HeadersEditable) {header : ℕ} (hheader : header ≤ 1) :
    ∃ m', m.editPage header = (1, m') ∧ Frame m m' {1} ∧
      m'.pages 1 = m.pages ((m.editedPages header).getD header) := by
  unfold editPage
  rcases hm header hheader with hnone | hone
  · rw [hnone]
    dsimp only
    rw [if_pos hheader]
    refine ⟨_, rfl, ⟨⟨h.zero, h.one, h.nodup, h.lt⟩, fun _ q hq => ?_, fun _ hq => hq, fun q _ hlt => ?_,
      fun q _ hq => pages_setPage_of_ne hq⟩, ?_⟩
    · unfold setEdited
      dsimp only
      by_cases heq : q = header
      · rw [heq, Function.update_self]
        exact .inr rfl
      · rw [Function.update_of_ne heq]
        exact hm q hq
    · exact Function.update_of_ne (by omega) _ _
    · change Function.update m.pages 1 (m.pages header) 1 = m.pages header
      exact Function.update_self _ _ _
  · rw [hone]
    exact ⟨m, rfl, Frame.refl h, rfl⟩

end

end PageManager

end ZkevmProver.HashDB64
