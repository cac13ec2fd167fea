import ZkevmProver.HashDB64.PageManager

/-!
# Raw data

Byte strings are appended to a chain of pages.  What has been appended is never written again, so that it
is read from where it was put, whatever is appended later.

  1. The source functions.
  2. Where data are.
  3. Reading.
  4. Writing.
  5. Parts of data, and which pages are edited.
-/

namespace ZkevmProver.HashDB64

namespace RawDataPage

/-! ## The source functions -/

def minOffset : ℕ := 16

def maxOffset : ℕ := 4096

def initEmptyPage (m : PageManager) (pageNumber : ℕ) : PageManager :=
  m.setPage pageNumber (.raw ⟨0, 0, minOffset, fun _ => 0⟩)

def getOffset (m : PageManager) (pageNumber : ℕ) : ℕ := (m.pages pageNumber).asRaw.offset

/-- The loop of `Read`, over the number of bytes that are left. -/
def readLoop (m : PageManager) : ℕ → ℕ → ℕ → ℕ → List UInt8
  | 0, _, _, _ => []
  | fuel + 1, pageNumber, offset, left =>
    if left = 0 then []
    else
      let (pageNumber, offset) : ℕ × ℕ :=
        if offset = maxOffset then ((m.pages pageNumber).asRaw.nextPageNumber, minOffset)
        else (pageNumber, offset)
      let pageRemainingBytes := maxOffset - offset
      let bytesToCopy := min pageRemainingBytes left
      (List.range bytesToCopy).map (fun i => (m.pages pageNumber).asRaw.data (offset + i)) ++
        readLoop m fuel pageNumber (offset + bytesToCopy) (left - bytesToCopy)

def read (m : PageManager) (pageNumber offset length : ℕ) : Except Stop (List UInt8) :=
  let pageOffset := (m.pages pageNumber).asRaw.offset
  if pageOffset < minOffset then throw (.zkr .dbError)
  else if pageOffset > maxOffset then throw (.zkr .dbError)
  else if offset < minOffset then throw (.zkr .dbError)
  else if offset > maxOffset then throw (.zkr .dbError)
  else if offset > pageOffset then throw (.zkr .dbError)
  else return readLoop m length pageNumber offset length

/-- A new page after a full one. -/
def appendPage (m : PageManager) (pageNumber : ℕ) : PageManager × ℕ :=
  let (nextPageNumber, m) := m.getFreePage
  let m := initEmptyPage m nextPageNumber
  let m := m.setPage pageNumber
    (.raw { (m.pages pageNumber).asRaw with nextPageNumber := nextPageNumber, offset := maxOffset })
  let m := m.setPage nextPageNumber
    (.raw { (m.pages nextPageNumber).asRaw with previousPageNumber := pageNumber })
  (m, nextPageNumber)

/-- `memcpy` into a page, and its new offset. -/
def RawDataStruct.copy (page : RawDataStruct) (offset : ℕ) (bytes : List UInt8) : RawDataStruct :=
  { page with
    data := fun i => if offset ≤ i ∧ i < offset + bytes.length then bytes.getD (i - offset) 0 else page.data i
    nextPageNumber := 0
    offset := offset + bytes.length }

/-- The loop of `Write`, over the data that are left. -/
def writeLoop (nextPage : ℕ) : ℕ → PageManager → ℕ → ℕ → List UInt8 → Except Stop (PageManager × ℕ × ℕ)
  | 0, m, pageNumber, offset, _ => return (m, pageNumber, offset)
  | fuel + 1, m, pageNumber, offset, data =>
    if data.length = 0 then return (m, pageNumber, offset)
    else
      let (m, pageNumber, offset) : PageManager × ℕ × ℕ :=
        if offset = maxOffset then ((appendPage m pageNumber).1, (appendPage m pageNumber).2, minOffset)
        else (m, pageNumber, offset)
      if nextPage ≠ 0 then throw (.zkr .dbError)
      else if offset < minOffset then throw (.zkr .dbError)
      else if offset > maxOffset then throw (.zkr .dbError)
      else
        let pageRemainingBytes := maxOffset - offset
        let bytesToCopy := min pageRemainingBytes data.length
        let page := RawDataStruct.copy (m.pages pageNumber).asRaw offset (data.take bytesToCopy)
        writeLoop nextPage fuel (m.setPage pageNumber (.raw page)) pageNumber (offset + bytesToCopy)
          (data.drop bytesToCopy)

/-- The page manager, and the page that comes next. -/
def write (m : PageManager) (pageNumber : ℕ) (data : List UInt8) : Except Stop (PageManager × ℕ) := do
  let offset := (m.pages pageNumber).asRaw.offset
  let nextPage := (m.pages pageNumber).asRaw.nextPageNumber
  if nextPage ≠ 0 then throw (.zkr .dbError)
  if offset < minOffset then throw (.zkr .dbError)
  if offset > maxOffset then throw (.zkr .dbError)
  let (m, pageNumber, offset) ← writeLoop nextPage data.length m pageNumber offset data
  if offset = maxOffset then return appendPage m pageNumber
  return (m, pageNumber)

/-! ## Where data are -/

/-- The bytes are in the pages, from an offset on. -/
inductive Holds (m : PageManager) : ℕ → ℕ → List UInt8 → Prop
  | nil {p offset : ℕ} : Holds m p offset []
  | byte {p offset : ℕ} {page : RawDataStruct} {b : UInt8} {bytes : List UInt8} :
      m.Allocated p → m.pages p = .raw page → offset < page.offset → page.offset ≤ maxOffset →
      page.data offset = b → Holds m p (offset + 1) bytes → Holds m p offset (b :: bytes)
  | next {p : ℕ} {page : RawDataStruct} {b : UInt8} {bytes : List UInt8} :
      m.Allocated p → m.pages p = .raw page → page.nextPageNumber ≠ 0 →
      Holds m page.nextPageNumber minOffset (b :: bytes) → Holds m p maxOffset (b :: bytes)

/-- Data have only been appended. -/
structure KeepsRaw (m m' : PageManager) : Prop where
  allocated : ∀ q, m.Allocated q → m'.Allocated q
  raw : ∀ q page, m.Allocated q → m.pages q = .raw page → ∃ page', m'.pages q = .raw page' ∧
    page.offset ≤ page'.offset ∧ (page.offset ≤ maxOffset → page'.offset ≤ maxOffset) ∧
    (∀ i < page.offset, page'.data i = page.data i) ∧
    (page.nextPageNumber ≠ 0 → page'.nextPageNumber = page.nextPageNumber)

/-- The other pages stay as they are. -/
structure Extends (m m' : PageManager) : Prop extends KeepsRaw m m' where
  wellFormed : m'.WellFormed
  live : ∀ q, m.Live q → m'.Live q
  pages : ∀ q, m.Allocated q → (∀ page, m.pages q ≠ .raw page) → m'.pages q = m.pages q

/-- The page where data are appended. -/
structure Current (m : PageManager) (p : ℕ) (page : RawDataStruct) : Prop where
  allocated : m.Allocated p
  pages : m.pages p = .raw page
  nextPageNumber : page.nextPageNumber = 0
  minOffset_le : minOffset ≤ page.offset
  le_maxOffset : page.offset ≤ maxOffset

section

variable {m m' m'' : PageManager} {p offset : ℕ} {bytes : List UInt8}

theorem keepsRaw_of_pages (hallocated : ∀ q, m.Allocated q → m'.Allocated q)
    (hpages : ∀ q page, m.Allocated q → m.pages q = .raw page → m'.pages q = .raw page) : KeepsRaw m m' where
  allocated := hallocated
  raw q page hq hpage := ⟨page, hpages q page hq hpage, le_rfl, id, fun _ _ => rfl, fun _ => rfl⟩

theorem KeepsRaw.trans (h : KeepsRaw m m') (h' : KeepsRaw m' m'') : KeepsRaw m m'' where
  allocated q hq := h'.allocated q (h.allocated q hq)
  raw q page hq hpage := by
    obtain ⟨page', hpage', hle, hmax, hdata, hnext⟩ := h.raw q page hq hpage
    obtain ⟨page'', hpage'', hle', hmax', hdata', hnext'⟩ := h'.raw q page' (h.allocated q hq) hpage'
    refine ⟨page'', hpage'', hle.trans hle', fun hp => hmax' (hmax hp), fun i hi => ?_, fun hne => ?_⟩
    · rw [hdata' i (hi.trans_le hle), hdata i hi]
    · rw [hnext' (by rwa [hnext hne]), hnext hne]

theorem Extends.refl (h : m.WellFormed) : Extends m m where
  toKeepsRaw := keepsRaw_of_pages (fun _ hq => hq) fun _ _ _ hpage => hpage
  wellFormed := h
  live _ hq := hq
  pages _ _ _ := rfl

theorem Extends.trans (h : Extends m m') (h' : Extends m' m'') : Extends m m'' where
  toKeepsRaw := h.toKeepsRaw.trans h'.toKeepsRaw
  wellFormed := h'.wellFormed
  live q hq := h'.live q (h.live q hq)
  pages q hq hne := by
    have hpages := h.pages q hq hne
    rw [h'.pages q (h.allocated q hq) (by rwa [hpages]), hpages]

/-- Data stay where they are. -/
theorem Holds.extends (h : Holds m p offset bytes) (hm : KeepsRaw m m') : Holds m' p offset bytes := by
  induction h with
  | nil => exact .nil
  | byte hp hpage hoffset hmax hb _ ih =>
    obtain ⟨page', hpage', hle, hmax', hdata, -⟩ := hm.raw _ _ hp hpage
    exact .byte (hm.allocated _ hp) hpage' (hoffset.trans_le hle) (hmax' hmax) ((hdata _ hoffset).trans hb) ih
  | next hp hpage hne _ ih =>
    obtain ⟨page', hpage', -, -, -, hnext⟩ := hm.raw _ _ hp hpage
    have heq := hnext hne
    rw [← heq] at ih
    exact .next (hm.allocated _ hp) hpage' (by rwa [heq]) ih

/-! ## Reading -/

/-- The part of data that is in one page. -/
theorem Holds.chunk {n : ℕ} (h : Holds m p offset bytes) (hn : n ≤ bytes.length) (hmax : offset + n ≤ maxOffset) :
    (List.range n).map (fun i => (m.pages p).asRaw.data (offset + i)) = bytes.take n ∧
      Holds m p (offset + n) (bytes.drop n) := by
  induction n generalizing offset bytes with
  | zero => exact ⟨rfl, h⟩
  | succ n ih =>
    cases h with
    | nil => exact absurd hn (Nat.not_succ_le_zero n)
    | next => exact absurd hmax (by omega)
    | @byte _ _ page b bytes hp hpage hoffset hle hb hrest =>
      obtain ⟨hread, hrest'⟩ := ih hrest (Nat.le_of_succ_le_succ hn) (by omega)
      have hfirst : (m.pages p).asRaw.data (offset + 0) = b := by
        rw [hpage]
        exact hb
      refine ⟨?_, ?_⟩
      · rw [List.range_succ_eq_map, List.map_cons, List.map_map, hfirst, List.take_succ_cons, ← hread]
        congr 1
        apply List.map_congr_left
        intro i _
        show (m.pages p).asRaw.data (offset + (i + 1)) = _
        rw [Nat.add_right_comm, Nat.add_assoc]
      · rw [List.drop_succ_cons]
        rwa [Nat.add_right_comm, Nat.add_assoc] at hrest'

theorem readLoop_holds {fuel : ℕ} (h : Holds m p offset bytes) (hoffset : offset ≤ maxOffset)
    (hfuel : bytes.length ≤ fuel) : readLoop m fuel p offset bytes.length = bytes := by
  induction fuel generalizing p offset bytes with
  | zero =>
    rw [List.length_eq_zero_iff.mp (Nat.le_zero.mp hfuel)]
    rfl
  | succ fuel ih =>
    by_cases hempty : bytes.length = 0
    · rw [List.length_eq_zero_iff.mp hempty]
      rfl
    have hstep {p offset : ℕ} (h : Holds m p offset bytes) (hlt : offset < maxOffset) :
        (List.range (min (maxOffset - offset) bytes.length)).map
            (fun i => (m.pages p).asRaw.data (offset + i)) ++
          readLoop m fuel p (offset + min (maxOffset - offset) bytes.length)
            (bytes.length - min (maxOffset - offset) bytes.length) = bytes := by
      obtain ⟨hread, hrest⟩ := h.chunk (Nat.min_le_right (maxOffset - offset) bytes.length) (by omega)
      have hlength : bytes.length - min (maxOffset - offset) bytes.length =
          (bytes.drop (min (maxOffset - offset) bytes.length)).length := List.length_drop.symm
      rw [hread, hlength, ih hrest (by omega) (by rw [List.length_drop]; omega), List.take_append_drop]
    unfold readLoop
    rw [if_neg hempty]
    by_cases hfull : offset = maxOffset
    · rw [if_pos hfull]
      subst hfull
      cases h with
      | nil => exact absurd rfl hempty
      | byte _ _ hlt hle => exact absurd (hlt.trans_le hle) (Nat.lt_irrefl _)
      | @next _ page b bytes hp hpage hne hrest =>
        rw [hpage]
        exact hstep hrest (by decide)
    · rw [if_neg hfull]
      exact hstep h (by omega)

theorem read_holds (h : Holds m p offset bytes) (hne : bytes ≠ []) (hmin : minOffset ≤ offset)
    (hlt : offset < maxOffset) : read m p offset bytes.length = .ok bytes := by
  have hread := readLoop_holds h hlt.le le_rfl
  cases h with
  | nil => exact absurd rfl hne
  | next => exact absurd hlt (Nat.lt_irrefl _)
  | @byte _ _ page b bytes hp hpage hoffset hmax hb hrest =>
    unfold read
    rw [hread, hpage]
    dsimp only [Page.asRaw]
    rw [if_neg (by omega), if_neg (by omega), if_neg (by omega), if_neg (by omega), if_neg (by omega)]
    rfl

/-- Data are read from the page where they were appended, when only data have been appended since. -/
theorem read_of_keepsRaw {page : RawDataStruct} (hp : Current m p page) (hm : KeepsRaw m m')
    (h : Holds m' p page.offset bytes) : read m' p page.offset bytes.length = .ok bytes := by
  obtain ⟨page', hpage', hle, hmax', -⟩ := hm.raw p page hp.allocated hp.pages
  have hmin := hp.minOffset_le
  have hmax := hmax' hp.le_maxOffset
  unfold read
  rw [readLoop_holds h hp.le_maxOffset le_rfl, hpage']
  dsimp only [Page.asRaw]
  rw [if_neg (by omega), if_neg (by omega), if_neg (by omega), if_neg (by omega), if_neg (by omega)]
  rfl

/-! ## Writing -/

theorem Holds.append {page : RawDataStruct} {first rest : List UInt8} (hp : m.Allocated p)
    (hpage : m.pages p = .raw page) (hmax : page.offset ≤ maxOffset) (hle : offset + first.length ≤ page.offset)
    (hfirst : ∀ i < first.length, page.data (offset + i) = first.getD i 0)
    (hrest : Holds m p (offset + first.length) rest) : Holds m p offset (first ++ rest) := by
  induction first generalizing offset with
  | nil => exact hrest
  | cons b first ih =>
    rw [List.length_cons] at hle hrest
    refine .byte hp hpage (by omega) hmax (hfirst 0 (Nat.succ_pos _)) (ih (by omega) (fun i hi => ?_) ?_)
    · have hbyte := hfirst (i + 1) (Nat.succ_lt_succ hi)
      have hoffset : offset + (i + 1) = offset + 1 + i := by omega
      rw [hoffset] at hbyte
      exact hbyte
    · rwa [Nat.add_comm first.length, ← Nat.add_assoc] at hrest

/-- The raw pages of a page manager, but one, stay as they are. -/
theorem extends_setPage {page page' : RawDataStruct} (h : m.WellFormed) (hpage : m.pages p = .raw page)
    (hle : page.offset ≤ page'.offset) (hmax : page'.offset ≤ maxOffset)
    (hdata : ∀ i < page.offset, page'.data i = page.data i) (hnext : page.nextPageNumber = 0) :
    Extends m (m.setPage p (.raw page')) where
  wellFormed := h.setPage
  allocated _ hq := hq
  live _ hq := hq
  pages q _ hne := by
    apply PageManager.pages_setPage_of_ne
    rintro rfl
    exact hne page hpage
  raw q page₁ _ hpage₁ := by
    by_cases hq : q = p
    · subst hq
      rw [hpage] at hpage₁
      obtain rfl := Page.raw.inj hpage₁
      exact ⟨page', PageManager.pages_setPage_self, hle, fun _ => hmax, hdata, fun hne => absurd hnext hne⟩
    · rw [PageManager.pages_setPage_of_ne hq]
      exact ⟨page₁, hpage₁, le_rfl, id, fun _ _ => rfl, fun _ => rfl⟩

theorem appendPage_spec {page : RawDataStruct} (h : m.WellFormed) (hp : Current m p page) :
    Extends m (appendPage m p).1 ∧ Current (appendPage m p).1 (appendPage m p).2 ⟨p, 0, minOffset, fun _ => 0⟩ ∧
      (appendPage m p).1.pages p =
        .raw { page with nextPageNumber := (appendPage m p).2, offset := maxOffset } ∧
      (appendPage m p).2 ≠ 0 := by
  have htakes := PageManager.getFreePage_takes h
  unfold appendPage
  rcases hfree : m.getFreePage with ⟨q, m₁⟩
  rw [hfree] at htakes
  dsimp only at htakes ⊢
  have hqp : p ≠ q := by
    rintro rfl
    exact htakes.fresh hp.allocated
  have hpage₂ : (initEmptyPage m₁ q).pages p = .raw page := by
    rw [initEmptyPage, PageManager.pages_setPage_of_ne hqp, htakes.keepsPages p hp.allocated, hp.pages]
  rw [hpage₂]
  dsimp only [Page.asRaw]
  generalize hfull : Page.raw { page with nextPageNumber := q, offset := maxOffset } = full
  have hq₃ : ((initEmptyPage m₁ q).setPage p full).pages q = .raw ⟨0, 0, minOffset, fun _ => 0⟩ := by
    rw [PageManager.pages_setPage_of_ne hqp.symm]
    exact PageManager.pages_setPage_self
  rw [hq₃]
  dsimp only [Page.asRaw]
  have hp₄ : (((initEmptyPage m₁ q).setPage p full).setPage q (.raw ⟨p, 0, minOffset, fun _ => 0⟩)).pages p =
      full := by
    rw [PageManager.pages_setPage_of_ne hqp]
    exact PageManager.pages_setPage_self
  have hother : ∀ r, m.Allocated r → r ≠ p → (((initEmptyPage m₁ q).setPage p full).setPage q
      (.raw ⟨p, 0, minOffset, fun _ => 0⟩)).pages r = m.pages r := by
    intro r hr hrp
    have hrq : r ≠ q := by
      rintro rfl
      exact htakes.fresh hr
    rw [PageManager.pages_setPage_of_ne hrq, PageManager.pages_setPage_of_ne hrp, initEmptyPage,
      PageManager.pages_setPage_of_ne hrq, htakes.keepsPages r hr]
  refine ⟨⟨⟨htakes.keepsAllocated, ?_⟩, htakes.wellFormed.setPage.setPage.setPage, htakes.keepsLive, ?_⟩, ?_,
    hp₄, ?_⟩
  · intro r page' hr hpage'
    by_cases hrp : r = p
    · subst hrp
      rw [hp.pages] at hpage'
      obtain rfl := Page.raw.inj hpage'
      refine ⟨_, hp₄.trans hfull.symm, hp.le_maxOffset, fun _ => le_rfl, fun _ _ => rfl, fun hne => ?_⟩
      exact absurd hp.nextPageNumber hne
    · exact ⟨page', (hother r hr hrp).trans hpage', le_rfl, id, fun _ _ => rfl, fun _ => rfl⟩
  · intro r hr hne
    apply hother r hr
    rintro rfl
    exact hne page hp.pages
  · exact ⟨htakes.allocated, PageManager.pages_setPage_self, rfl, le_rfl, (by decide : minOffset ≤ maxOffset)⟩
  · rintro rfl
    exact htakes.fresh h.zero

theorem copy_data_before {page : RawDataStruct} {i : ℕ} (hi : i < offset) :
    (RawDataStruct.copy page offset bytes).data i = page.data i := if_neg (by omega)

theorem copy_data {page : RawDataStruct} {i : ℕ} (hi : i < bytes.length) :
    (RawDataStruct.copy page offset bytes).data (offset + i) = bytes.getD i 0 := by
  unfold RawDataStruct.copy
  dsimp only
  rw [if_pos (by omega), Nat.add_sub_cancel_left]

/-- Data that fit are copied. -/
theorem extends_copy {page : RawDataStruct} (h : m.WellFormed) (hp : Current m p page)
    (hfits : page.offset + bytes.length ≤ maxOffset) :
    Extends m (m.setPage p (.raw (RawDataStruct.copy page page.offset bytes))) ∧
      Current (m.setPage p (.raw (RawDataStruct.copy page page.offset bytes))) p
        (RawDataStruct.copy page page.offset bytes) := by
  refine ⟨extends_setPage h hp.pages (Nat.le_add_right _ _) hfits (fun i hi => copy_data_before hi)
    hp.nextPageNumber, hp.allocated, PageManager.pages_setPage_self, rfl, ?_, hfits⟩
  exact Nat.le_add_right_of_le hp.minOffset_le

theorem writeLoop_spec {fuel : ℕ} {page : RawDataStruct} (h : m.WellFormed) (hp : Current m p page)
    (hfuel : bytes.length ≤ fuel) :
    ∃ m' p' page', writeLoop 0 fuel m p page.offset bytes = .ok (m', p', page'.offset) ∧ Extends m m' ∧
      Current m' p' page' ∧ Holds m' p page.offset bytes := by
  induction fuel generalizing m p page bytes with
  | zero =>
    obtain rfl := List.length_eq_zero_iff.mp (Nat.le_zero.mp hfuel)
    exact ⟨m, p, page, rfl, .refl h, hp, .nil⟩
  | succ fuel ih =>
    unfold writeLoop
    by_cases hempty : bytes.length = 0
    · obtain rfl := List.length_eq_zero_iff.mp hempty
      exact ⟨m, p, page, rfl, .refl h, hp, .nil⟩
    rw [if_neg hempty]
    -- one part of the data, in a page that is not full
    have hstep {m : PageManager} {p : ℕ} {page : RawDataStruct} (h : m.WellFormed) (hp : Current m p page)
        (hlt : page.offset < maxOffset) :
        ∃ m' p' page', writeLoop 0 fuel
            (m.setPage p (.raw (RawDataStruct.copy page page.offset
              (bytes.take (min (maxOffset - page.offset) bytes.length))))) p
            (page.offset + min (maxOffset - page.offset) bytes.length)
            (bytes.drop (min (maxOffset - page.offset) bytes.length)) = .ok (m', p', page'.offset) ∧
          Extends m m' ∧ Current m' p' page' ∧ Holds m' p page.offset bytes := by
      generalize hn : min (maxOffset - page.offset) bytes.length = n
      have hlength : (bytes.take n).length = n := by
        rw [List.length_take]
        omega
      obtain ⟨hextends, hcurrent⟩ := @extends_copy m p (bytes.take n) page h hp (by omega)
      generalize hpage₁ : RawDataStruct.copy page page.offset (bytes.take n) = page₁ at *
      have hoffset₁ : page₁.offset = page.offset + n := by
        rw [← hpage₁]
        show page.offset + (bytes.take n).length = _
        rw [hlength]
      obtain ⟨m', p', page', heq, hextends', hcurrent', hrest⟩ := @ih (m.setPage p (.raw page₁)) p (bytes.drop n)
        page₁ hextends.wellFormed hcurrent (by rw [List.length_drop]; omega)
      rw [← hoffset₁]
      refine ⟨m', p', page', heq, hextends.trans hextends', hcurrent', ?_⟩
      obtain ⟨page₂, hpage₂, hle, hmax, hdata, -⟩ := hextends'.raw p page₁ hp.allocated
        PageManager.pages_setPage_self
      rw [← List.take_append_drop n bytes]
      refine .append (hextends'.allocated p hp.allocated) hpage₂ (hmax hcurrent.le_maxOffset)
        (by omega) (fun i hi => ?_) (by rwa [hlength, ← hoffset₁])
      rw [hdata _ (by omega), ← hpage₁]
      exact copy_data hi
    have hmin : minOffset < maxOffset := by decide
    by_cases hfull : page.offset = maxOffset
    · obtain ⟨hextends, hcurrent, hfirst, hne⟩ := appendPage_spec h hp
      rw [if_pos hfull]
      dsimp only
      rw [if_neg (by simp), if_neg (Nat.lt_irrefl _), if_neg (Nat.not_lt.mpr hmin.le), hcurrent.pages]
      dsimp only [Page.asRaw]
      obtain ⟨m', p', page', heq, hextends', hcurrent', hholds⟩ := hstep hextends.wellFormed hcurrent hmin
      refine ⟨m', p', page', heq, hextends.trans hextends', hcurrent', ?_⟩
      obtain ⟨page₂, hpage₂, -, -, -, hnext⟩ := hextends'.raw p _ (hextends.allocated p hp.allocated) hfirst
      obtain ⟨b, rest, rfl⟩ := List.exists_cons_of_length_pos (Nat.pos_of_ne_zero hempty)
      have hnext₂ : page₂.nextPageNumber = (appendPage m p).2 := hnext hne
      rw [hfull]
      apply Holds.next (hextends'.allocated p (hextends.allocated p hp.allocated)) hpage₂
      · rwa [hnext₂]
      · rw [hnext₂]
        exact hholds
    · rw [if_neg hfull]
      dsimp only
      have hle := hp.le_maxOffset
      have hmin' := hp.minOffset_le
      rw [if_neg (by simp), if_neg (by omega), if_neg (by omega), hp.pages]
      dsimp only [Page.asRaw]
      exact hstep h hp (by omega)

/-- Data are where the page ended, and the next ones come after them. -/
theorem write_spec {page : RawDataStruct} (h : m.WellFormed) (hp : Current m p page)
    (hlt : page.offset < maxOffset) :
    ∃ m' p' page', write m p bytes = .ok (m', p') ∧ Extends m m' ∧ Current m' p' page' ∧
      page'.offset < maxOffset ∧ Holds m' p page.offset bytes := by
  obtain ⟨m', p', page', heq, hextends, hcurrent, hholds⟩ :=
    @writeLoop_spec m p bytes bytes.length page h hp le_rfl
  have hmin := hp.minOffset_le
  have hle := hcurrent.le_maxOffset
  unfold write
  rw [hp.pages]
  dsimp only [Page.asRaw]
  rw [hp.nextPageNumber, if_neg (by simp), if_neg (by omega), if_neg (by omega), heq]
  dsimp only [bind, Except.bind, pure, Except.pure]
  by_cases hfull : page'.offset = maxOffset
  · obtain ⟨hextends', hcurrent', -, -⟩ := appendPage_spec hextends.wellFormed hcurrent
    rw [if_pos hfull]
    exact ⟨_, _, _, rfl, hextends.trans hextends', hcurrent', (by decide : minOffset < maxOffset),
      hholds.extends hextends'.toKeepsRaw⟩
  · rw [if_neg hfull]
    exact ⟨m', p', page', rfl, hextends, hcurrent, by omega, hholds⟩

/-! ## Parts of data, and which pages are edited -/

/-- The first bytes of data are where the data are. -/
theorem Holds.take (h : Holds m p offset bytes) (n : ℕ) : Holds m p offset (bytes.take n) := by
  induction h generalizing n with
  | nil =>
    rw [List.take_nil]
    exact .nil
  | byte hp hpage hoffset hmax hb _ ih =>
    cases n with
    | zero => exact .nil
    | succ n => exact .byte hp hpage hoffset hmax hb (ih n)
  | next hp hpage hne _ ih =>
    cases n with
    | zero => exact .nil
    | succ n => exact .next hp hpage hne (ih (n + 1))

/-- Pages in use stay so, and stay edited where they were. -/
structure KeepsEdited (m m' : PageManager) : Prop where
  wellFormed : m'.WellFormed
  allocated : ∀ q, m.Allocated q → m'.Allocated q
  edited : ∀ q, m.Allocated q → m'.editedPages q = m.editedPages q

theorem KeepsEdited.trans (h : KeepsEdited m m') (h' : KeepsEdited m' m'') : KeepsEdited m m'' where
  wellFormed := h'.wellFormed
  allocated q hq := h'.allocated q (h.allocated q hq)
  edited q hq := (h'.edited q (h.allocated q hq)).trans (h.edited q hq)

theorem keepsEdited_appendPage (h : m.WellFormed) : KeepsEdited m (appendPage m p).1 where
  wellFormed := (PageManager.getFreePage_takes h).wellFormed.setPage.setPage.setPage
  allocated := (PageManager.getFreePage_takes h).keepsAllocated
  edited _ hq := PageManager.edited_getFreePage h hq

theorem keepsEdited_setPage (p : ℕ) (page : Page) (h : m.WellFormed) : KeepsEdited m (m.setPage p page) :=
  ⟨h.setPage, fun _ hq => hq, fun _ _ => rfl⟩

theorem keepsEdited_writeLoop {nextPage fuel : ℕ} {result : PageManager × ℕ × ℕ} (h : m.WellFormed)
    (hresult : writeLoop nextPage fuel m p offset bytes = .ok result) : KeepsEdited m result.1 := by
  induction fuel generalizing m p offset bytes with
  | zero =>
    obtain rfl := Except.ok.inj hresult
    exact ⟨h, fun _ hq => hq, fun _ _ => rfl⟩
  | succ fuel ih =>
    unfold writeLoop at hresult
    split at hresult
    · obtain rfl := Except.ok.inj hresult
      exact ⟨h, fun _ hq => hq, fun _ _ => rfl⟩
    by_cases hfull : offset = maxOffset
    · simp only [if_pos hfull] at hresult
      have happend := @keepsEdited_appendPage m p h
      split at hresult
      · cases hresult
      split at hresult
      · cases hresult
      split at hresult
      · cases hresult
      exact (happend.trans (keepsEdited_setPage _ _ happend.wellFormed)).trans
        (ih happend.wellFormed.setPage hresult)
    · simp only [if_neg hfull] at hresult
      split at hresult
      · cases hresult
      split at hresult
      · cases hresult
      split at hresult
      · cases hresult
      exact (keepsEdited_setPage _ _ h).trans (ih h.setPage hresult)

theorem keepsEdited_write {p' : ℕ} (h : m.WellFormed) (hwrite : write m p bytes = .ok (m', p')) :
    KeepsEdited m m' := by
  unfold write at hwrite
  dsimp only at hwrite
  split at hwrite
  · cases hwrite
  split at hwrite
  · cases hwrite
  split at hwrite
  · cases hwrite
  cases hloop : writeLoop (m.pages p).asRaw.nextPageNumber bytes.length m p (m.pages p).asRaw.offset bytes with
  | error e =>
    rw [hloop] at hwrite
    cases hwrite
  | ok result =>
    rw [hloop] at hwrite
    have hkeeps := keepsEdited_writeLoop h hloop
    dsimp only [bind, Except.bind] at hwrite
    split at hwrite
    · have heq : (appendPage result.1 result.2.1).1 = m' := congrArg Prod.fst (Except.ok.inj hwrite)
      rw [← heq]
      exact hkeeps.trans (keepsEdited_appendPage hkeeps.wellFormed)
    · have heq : result.1 = m' := congrArg Prod.fst (Except.ok.inj hwrite)
      rw [← heq]
      exact hkeeps

end

end RawDataPage

end ZkevmProver.HashDB64
