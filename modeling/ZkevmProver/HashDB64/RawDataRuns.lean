import ZkevmProver.HashDB64.RawDataPage

/-!
# Runs of writes of raw data

`Write` keeps the address of a page while it takes the next one.  Files are mapped once, but `realloc` may move
the pages in memory, and the link to the next page is then written where they were before.

  1. The source functions.
  2. The pages that are left.
  3. One write.
  4. Runs.
-/

namespace ZkevmProver.HashDB64

/-! ## The source functions -/

/-- The page manager, and where its pages are. -/
structure PageMemory where
  m : PageManager
  mappedFile : Bool
  pagesPerFile : ℕ
  nPages : ℕ
  /-- How often `realloc` has moved the pages. -/
  moved : ℕ
  /-- The offsets that have been stored in headers of raw pages. -/
  offsets : List ℕ

/-- A pointer to a page, as the pages were when it was taken. -/
structure PageAddress where
  moved : ℕ
  pageNumber : ℕ

namespace PageMemory

open RawDataPage (minOffset maxOffset)

def getPageAddress (s : PageMemory) (pageNumber : ℕ) : PageAddress := ⟨s.moved, pageNumber⟩

def setPage (s : PageMemory) (pageNumber : ℕ) (page : RawDataStruct) : PageMemory :=
  { s with m := s.m.setPage pageNumber (.raw page), offsets := s.offsets ++ [page.offset] }

/-- A raw page is changed through a pointer, which must not be one to freed memory. -/
def store (s : PageMemory) (page : PageAddress) (f : RawDataStruct → RawDataStruct) : Except Stop PageMemory :=
  if page.moved = s.moved then return s.setPage page.pageNumber (f (s.m.pages page.pageNumber).asRaw)
  else throw .outOfBounds

def initEmptyPage (s : PageMemory) (pageNumber : ℕ) : PageMemory :=
  s.setPage pageNumber ⟨0, 0, minOffset, fun _ => 0⟩

def addFile (s : PageMemory) : PageMemory := { s with nPages := s.nPages + s.pagesPerFile }

section

-- Whether `realloc` moves so many pages, when their number grows.
variable (moves : ℕ → Bool)

def addPages (s : PageMemory) (nPages_ : ℕ) : PageMemory :=
  { s with
    moved := if moves s.nPages then s.moved + 1 else s.moved
    nPages := s.nPages + nPages_
    pagesPerFile := s.nPages + nPages_ }

/-- No page is free, and none is left. -/
def grow (s : PageMemory) : PageMemory :=
  if s.m.freePages = [] ∧ s.m.firstUnusedPage = s.nPages then
    if s.mappedFile then s.addFile else s.addPages moves s.nPages
  else s

def getFreePage (s : PageMemory) : ℕ × PageMemory :=
  (s.m.getFreePage.1, { s.grow moves with m := s.m.getFreePage.2 })

/-- A new page after a full one. -/
def appendPage (s : PageMemory) (page : PageAddress) (pageNumber : ℕ) : Except Stop (PageMemory × ℕ) := do
  let (nextPageNumber, s) := s.getFreePage moves
  let s := s.initEmptyPage nextPageNumber
  let nextPage := s.getPageAddress nextPageNumber
  let s ← s.store page ({ · with nextPageNumber, offset := maxOffset })
  let s ← s.store nextPage ({ · with previousPageNumber := pageNumber })
  return (s, nextPageNumber)

/-- The loop of `Write`, over the data that are left. -/
def writeLoop (nextPage : ℕ) : ℕ → PageMemory → ℕ → PageAddress → ℕ → List UInt8 →
    Except Stop (PageMemory × ℕ × PageAddress × ℕ)
  | 0, s, pageNumber, page, offset, _ => return (s, pageNumber, page, offset)
  | fuel + 1, s, pageNumber, page, offset, data =>
    if data.length = 0 then return (s, pageNumber, page, offset)
    else do
      let (s, pageNumber, page, offset) ←
        if offset = maxOffset then do
          let (s, nextPageNumber) ← s.appendPage moves page pageNumber
          pure (s, nextPageNumber, s.getPageAddress nextPageNumber, minOffset)
        else pure (s, pageNumber, page, offset)
      if nextPage ≠ 0 then throw (.zkr .dbError)
      else if offset < minOffset then throw (.zkr .dbError)
      else if offset > maxOffset then throw (.zkr .dbError)
      else
        let pageRemainingBytes := maxOffset - offset
        let bytesToCopy := min pageRemainingBytes data.length
        let s ← s.store page (RawDataPage.RawDataStruct.copy · offset (data.take bytesToCopy))
        writeLoop nextPage fuel s pageNumber page (offset + bytesToCopy) (data.drop bytesToCopy)

/-- After the loop of `Write`. -/
def finish : PageMemory × ℕ × PageAddress × ℕ → Except Stop (PageMemory × ℕ)
  | (s, pageNumber, page, offset) =>
    if offset = maxOffset then s.appendPage moves page pageNumber else return (s, pageNumber)

def write (s : PageMemory) (pageNumber : ℕ) (data : List UInt8) : Except Stop (PageMemory × ℕ) := do
  let page := s.getPageAddress pageNumber
  let offset := (s.m.pages pageNumber).asRaw.offset
  let nextPage := (s.m.pages pageNumber).asRaw.nextPageNumber
  if nextPage ≠ 0 then throw (.zkr .dbError)
  if offset < minOffset then throw (.zkr .dbError)
  if offset > maxOffset then throw (.zkr .dbError)
  let result ← writeLoop moves nextPage data.length s pageNumber page offset data
  finish moves result

/-- One write after the other; each starts at the page and the offset where the one before ended. -/
def writes (s : PageMemory) (pageNumber : ℕ) : List (List UInt8) → Except Stop (PageMemory × List (ℕ × ℕ))
  | [] => return (s, [])
  | data :: rest => do
    let offset := RawDataPage.getOffset s.m pageNumber
    let (s, nextPageNumber) ← s.write moves pageNumber data
    let (s, positions) ← s.writes nextPageNumber rest
    return (s, (pageNumber, offset) :: positions)

end

/-! ## The pages that are left -/

/-- Every page in use is in memory. -/
structure Valid (s : PageMemory) : Prop where
  wellFormed : s.m.WellFormed
  fits : s.m.firstUnusedPage ≤ s.nPages
  pagesPerFile_pos : 0 < s.pagesPerFile

/-- The pages that are taken before the memory grows. -/
def unused (s : PageMemory) : ℕ := s.m.freePages.length + (s.nPages - s.m.firstUnusedPage)

/-- The pages stay where they are while `k` more are taken: their number is doubled whenever none is left. -/
def Stays (moves : ℕ → Bool) (s : PageMemory) (k : ℕ) : Prop :=
  s.mappedFile = true ∨ ∀ j, s.unused + s.nPages * (2 ^ j - 1) < k → moves (s.nPages * 2 ^ j) = false

variable {moves : ℕ → Bool} {s s' s'' : PageMemory} {p : ℕ}

theorem stays_zero : s.Stays moves 0 := .inr fun _ h => absurd h (Nat.not_lt_zero _)

theorem Stays.mono {k l : ℕ} (h : s.Stays moves l) (hle : k ≤ l) : s.Stays moves k :=
  h.imp id fun h j hj => h j (hj.trans_le hle)

/-- What `k` more pages leave. -/
structure Grown (moves : ℕ → Bool) (s s' : PageMemory) (k : ℕ) : Prop where
  valid : s'.Valid
  stays : ∀ l, s'.Stays moves l ↔ s.Stays moves (k + l)
  offsets : ∃ offsets, s'.offsets = s.offsets ++ offsets ∧
    ∀ offset ∈ offsets, minOffset ≤ offset ∧ offset ≤ maxOffset

theorem Grown.refl (h : s.Valid) : Grown moves s s 0 :=
  ⟨h, fun l => by rw [Nat.zero_add], [], (List.append_nil _).symm, nofun⟩

theorem Grown.trans {k l : ℕ} (h : Grown moves s s' k) (h' : Grown moves s' s'' l) :
    Grown moves s s'' (k + l) where
  valid := h'.valid
  stays n := by rw [h'.stays, h.stays, Nat.add_assoc]
  offsets := by
    obtain ⟨new, heq, hnew⟩ := h.offsets
    obtain ⟨new', heq', hnew'⟩ := h'.offsets
    refine ⟨new ++ new', by rw [heq', heq, List.append_assoc], fun offset hoffset => ?_⟩
    exact (List.mem_append.mp hoffset).elim (hnew offset) (hnew' offset)

theorem double_sub_one (n j : ℕ) : n * (2 ^ (j + 1) - 1) = n + 2 * n * (2 ^ j - 1) := by
  have hpow : 2 ^ (j + 1) - 1 = 1 + 2 * (2 ^ j - 1) := by
    have hpos := Nat.two_pow_pos j
    omega
  rw [hpow, Nat.mul_add, Nat.mul_one, ← Nat.mul_assoc, Nat.mul_comm n 2]

theorem stays_of_le {k : ℕ} (h : k ≤ s.unused) : s.Stays moves k :=
  .inr fun _ hj => absurd hj (Nat.not_lt.mpr (h.trans (Nat.le_add_right _ _)))

theorem stays_of_mapped {k : ℕ} (h : s.mappedFile = true) : s.Stays moves k := .inl h

theorem stays_iff {k : ℕ} (h : s.mappedFile = false) : s.Stays moves k ↔
    ∀ j, s.unused + s.nPages * (2 ^ j - 1) < k → moves (s.nPages * 2 ^ j) = false := by
  simp [Stays, h]

/-- A page is left. -/
theorem stays_of_unused {k : ℕ} (hunused : s.unused = s'.unused + 1) (hmapped : s'.mappedFile = s.mappedFile)
    (hnPages : s'.nPages = s.nPages) : s.Stays moves (k + 1) ↔ s'.Stays moves k := by
  unfold Stays
  rw [hunused, hmapped, hnPages]
  simp only [Nat.add_right_comm _ 1, Nat.add_lt_add_iff_right]

/-- No page is left, and the number of pages is doubled. -/
theorem stays_of_doubled {k : ℕ} (hmapped : s.mappedFile = false) (hmapped' : s'.mappedFile = false)
    (hfull : s.unused = 0) (hunused : s'.unused + 1 = s.nPages) (hnPages : s'.nPages = s.nPages + s.nPages) :
    s.Stays moves (k + 1) ↔ moves s.nPages = false ∧ s'.Stays moves k := by
  have hnext (j : ℕ) : 0 + s.nPages * (2 ^ (j + 1) - 1) < k + 1 ↔
      s'.unused + 2 * s.nPages * (2 ^ j - 1) < k := by
    rw [double_sub_one]
    omega
  have hsize (j : ℕ) : s.nPages * 2 ^ (j + 1) = 2 * s.nPages * 2 ^ j := by
    rw [Nat.pow_succ', ← Nat.mul_assoc, Nat.mul_comm _ 2]
  rw [stays_iff hmapped, stays_iff hmapped', hfull, hnPages, ← Nat.two_mul]
  constructor
  · intro hstays
    refine ⟨?_, fun j hj => ?_⟩
    · have hfirst := hstays 0 (by simp)
      rwa [Nat.pow_zero, Nat.mul_one] at hfirst
    · rw [← hsize]
      exact hstays (j + 1) ((hnext j).mpr hj)
  · rintro ⟨hfirst, hstays⟩ j hj
    cases j with
    | zero => rwa [Nat.pow_zero, Nat.mul_one]
    | succ j =>
      rw [hsize]
      exact hstays j ((hnext j).mp hj)

theorem firstUnusedPage_getFreePage (m : PageManager) :
    (m.freePages = [] ∧ m.getFreePage.2.freePages = [] ∧
      m.getFreePage.2.firstUnusedPage = m.firstUnusedPage + 1) ∨
      ∃ p rest, m.freePages = p :: rest ∧ m.getFreePage.2.freePages = rest ∧
        m.getFreePage.2.firstUnusedPage = m.firstUnusedPage := by
  unfold PageManager.getFreePage
  cases m.freePages with
  | nil => exact .inl ⟨rfl, rfl, rfl⟩
  | cons p rest => exact .inr ⟨p, rest, rfl, rfl, rfl⟩

/-- A page is taken. -/
theorem getFreePage_stays (moves : ℕ → Bool) (hs : s.Valid) :
    (s.getFreePage moves).2.Valid ∧ ∀ k, s.Stays moves (k + 1) ↔
      (s.getFreePage moves).2.moved = s.moved ∧ (s.getFreePage moves).2.Stays moves k := by
  have hone := hs.wellFormed.one.1
  have hfits := hs.fits
  have hvalid := (PageManager.getFreePage_takes hs.wellFormed).wellFormed
  have hpos := hs.pagesPerFile_pos
  have hsizes := firstUnusedPage_getFreePage s.m
  unfold getFreePage
  generalize s.m.getFreePage.2 = m' at *
  dsimp only
  by_cases hfull : s.m.freePages = [] ∧ s.m.firstUnusedPage = s.nPages
  · rw [grow, if_pos hfull]
    obtain ⟨hfree, hlast⟩ := hfull
    obtain ⟨-, hfree', hfirst⟩ | ⟨p, rest, hcons, -⟩ := hsizes
    case inr => rw [hfree] at hcons; cases hcons
    by_cases hmapped : s.mappedFile = true
    · rw [if_pos hmapped]
      refine ⟨⟨hvalid, ?_, hpos⟩, fun k => iff_of_true (stays_of_mapped hmapped) ⟨rfl, stays_of_mapped hmapped⟩⟩
      show m'.firstUnusedPage ≤ s.nPages + s.pagesPerFile
      omega
    · rw [if_neg hmapped]
      have hmapped := Bool.eq_false_iff.mpr hmapped
      have hmoved : (s.addPages moves s.nPages).moved = s.moved ↔ moves s.nPages = false := by
        unfold addPages
        cases moves s.nPages <;> simp
      refine ⟨⟨hvalid, ?_, ?_⟩, fun k => ?_⟩
      · show m'.firstUnusedPage ≤ s.nPages + s.nPages
        omega
      · show 0 < s.nPages + s.nPages
        omega
      · rw [hmoved]
        refine stays_of_doubled hmapped hmapped ?_ ?_ rfl
        · rw [unused, hfree, hlast, Nat.sub_self, List.length_nil]
        · show m'.freePages.length + (s.nPages + s.nPages - m'.firstUnusedPage) + 1 = s.nPages
          rw [hfree', List.length_nil]
          omega
  · rw [grow, if_neg hfull]
    refine ⟨⟨hvalid, ?_, hpos⟩, fun k => ?_⟩
    · show m'.firstUnusedPage ≤ s.nPages
      rcases hsizes with ⟨hfree, -, hfirst⟩ | ⟨-, -, -, -, hfirst⟩
      · have hlast : s.m.firstUnusedPage ≠ s.nPages := fun h => hfull ⟨hfree, h⟩
        omega
      · omega
    · rw [eq_self, true_and]
      refine stays_of_unused ?_ rfl rfl
      show s.m.freePages.length + (s.nPages - s.m.firstUnusedPage) =
        m'.freePages.length + (s.nPages - m'.firstUnusedPage) + 1
      rcases hsizes with ⟨hfree, hfree', hfirst⟩ | ⟨p, rest, hfree, hfree', hfirst⟩
      · have hlast : s.m.firstUnusedPage ≠ s.nPages := fun h => hfull ⟨hfree, h⟩
        rw [hfree, hfree', List.length_nil]
        omega
      · rw [hfree, hfree', hfirst, List.length_cons]
        omega

/-! ## One write -/

theorem store_of_moved {page : PageAddress} (f : RawDataStruct → RawDataStruct) (h : page.moved = s.moved) :
    s.store page f = .ok (s.setPage page.pageNumber (f (s.m.pages page.pageNumber).asRaw)) := if_pos h

theorem grown_setPage {page : RawDataStruct} (hs : s.Valid) (hmin : minOffset ≤ page.offset)
    (hmax : page.offset ≤ maxOffset) : Grown moves s (s.setPage p page) 0 := by
  refine ⟨⟨hs.wellFormed.setPage, hs.fits, hs.pagesPerFile_pos⟩, fun l => ?_, [page.offset], rfl, ?_⟩
  · rw [Nat.zero_add]
    exact Iff.rfl
  · intro offset hoffset
    rw [List.mem_singleton.mp hoffset]
    exact ⟨hmin, hmax⟩

theorem grown_getFreePage (hs : s.Valid) (hmoved : (s.getFreePage moves).2.moved = s.moved) :
    Grown moves s (s.getFreePage moves).2 1 := by
  obtain ⟨hvalid, hstays⟩ := getFreePage_stays moves hs
  refine ⟨hvalid, fun l => ?_, [], ?_, nofun⟩
  · rw [Nat.add_comm, hstays]
    exact (and_iff_right hmoved).symm
  · rw [List.append_nil]
    show (s.grow moves).offsets = s.offsets
    unfold grow
    split_ifs <;> rfl

theorem appendPage_of_moved (h : (s.getFreePage moves).2.moved ≠ s.moved) :
    s.appendPage moves (s.getPageAddress p) p = .error .outOfBounds := by
  have hstore (f : RawDataStruct → RawDataStruct) :
      ((s.getFreePage moves).2.initEmptyPage (s.getFreePage moves).1).store (s.getPageAddress p) f =
        .error .outOfBounds := if_neg h.symm
  unfold appendPage
  dsimp only
  rw [hstore]
  rfl

/-- The link of the full page is written, and the page after it is empty. -/
theorem appendPage_of_stays {page : RawDataStruct} (hs : s.Valid) (hp : RawDataPage.Current s.m p page)
    (hmoved : (s.getFreePage moves).2.moved = s.moved) :
    ∃ s', s.appendPage moves (s.getPageAddress p) p = .ok (s', (RawDataPage.appendPage s.m p).2) ∧
      s'.m = (RawDataPage.appendPage s.m p).1 ∧ Grown moves s s' 1 := by
  have hne : (s.getFreePage moves).1 ≠ p := by
    rintro rfl
    exact (PageManager.getFreePage_takes hs.wellFormed).fresh hp.allocated
  have hmin : minOffset ≤ maxOffset := by decide
  have hempty := (grown_getFreePage hs hmoved).trans (@grown_setPage moves _ (s.getFreePage moves).1
    ⟨0, 0, minOffset, fun _ => 0⟩ (getFreePage_stays moves hs).1 le_rfl hmin)
  unfold appendPage
  dsimp only
  rw [store_of_moved _ hmoved.symm]
  dsimp only [bind, Except.bind]
  rw [store_of_moved _ rfl]
  have hlink := hempty.trans (@grown_setPage moves _ p
    { (((s.getFreePage moves).2.initEmptyPage (s.getFreePage moves).1).m.pages p).asRaw with
      nextPageNumber := (s.getFreePage moves).1, offset := maxOffset }
    hempty.valid hmin le_rfl)
  have hnew (full : RawDataStruct) : ((((s.getFreePage moves).2.initEmptyPage (s.getFreePage moves).1).setPage p
      full).m.pages (s.getFreePage moves).1).asRaw.offset = minOffset :=
    congrArg (fun page => page.asRaw.offset)
      ((PageManager.pages_setPage_of_ne hne).trans PageManager.pages_setPage_self)
  refine ⟨_, rfl, rfl, hlink.trans (grown_setPage hlink.valid ?_ ?_)⟩
  · exact (hnew _).ge
  · exact (hnew _).trans_le hmin

/-- The pages that `n` bytes from an offset on fill. -/
def filled (offset n : ℕ) : ℕ := (offset - minOffset + n) / (maxOffset - minOffset)

/-- The offset after `n` bytes from an offset on. -/
def offsetAfter (offset n : ℕ) : ℕ := minOffset + (offset - minOffset + n) % (maxOffset - minOffset)

/-- `result` is what `write` gives, and `result₀` what the page manager alone gives: no page that is filled is
moved before it is linked to the next one. -/
def Written (moves : ℕ → Bool) (s : PageMemory) (offset n : ℕ) (result : Except Stop (PageMemory × ℕ))
    (result₀ : Except Stop (PageManager × ℕ)) : Prop :=
  (s.Stays moves (filled offset n) → ∃ s' p' page', result = .ok (s', p') ∧ result₀ = .ok (s'.m, p') ∧
    Grown moves s s' (filled offset n) ∧ RawDataPage.Current s'.m p' page' ∧
    page'.offset = offsetAfter offset n) ∧
  (¬s.Stays moves (filled offset n) → result = .error .outOfBounds)

variable {offset n : ℕ} {result : Except Stop (PageMemory × ℕ)} {result₀ : Except Stop (PageManager × ℕ)}

/-- What comes after `k` of the pages. -/
theorem Written.of_grown {k offset' n' : ℕ} (h : Written moves s' offset' n' result result₀)
    (hs : Grown moves s s' k) (hfilled : filled offset n = k + filled offset' n')
    (hoffset : offsetAfter offset n = offsetAfter offset' n') : Written moves s offset n result result₀ := by
  unfold Written
  rw [hfilled, hoffset, ← hs.stays]
  refine ⟨fun hstays => ?_, h.2⟩
  obtain ⟨s'', p', page', heq, heq₀, hgrown, hcurrent, hpage'⟩ := h.1 hstays
  exact ⟨s'', p', page', heq, heq₀, hs.trans hgrown, hcurrent, hpage'⟩

theorem filled_max (n : ℕ) : filled maxOffset n = 1 + filled minOffset n := by
  unfold filled minOffset maxOffset
  omega

theorem offsetAfter_max (n : ℕ) : offsetAfter maxOffset n = offsetAfter minOffset n := by
  unfold offsetAfter minOffset maxOffset
  omega

theorem written_of_moved (hs : s.Valid) (h : (s.getFreePage moves).2.moved ≠ s.moved) :
    Written moves s maxOffset n (.error .outOfBounds) result₀ := by
  refine ⟨fun hstays => ?_, fun _ => rfl⟩
  rw [filled_max, Nat.add_comm] at hstays
  exact absurd (((getFreePage_stays moves hs).2 _).mp hstays).1 h

/-- After the loop of `Write`, of the page manager alone. -/
def finish₀ : PageManager × ℕ × ℕ → Except Stop (PageManager × ℕ)
  | (m, pageNumber, offset) =>
    if offset = maxOffset then return RawDataPage.appendPage m pageNumber else return (m, pageNumber)

theorem finish_written {page : RawDataStruct} (hs : s.Valid) (hp : RawDataPage.Current s.m p page) :
    Written moves s page.offset 0 (finish moves (s, p, s.getPageAddress p, page.offset))
      (finish₀ (s.m, p, page.offset)) := by
  have hmin := hp.minOffset_le
  have hmax := hp.le_maxOffset
  unfold finish finish₀
  dsimp only
  by_cases hfull : page.offset = maxOffset
  · rw [if_pos hfull, if_pos hfull, hfull]
    by_cases hmoved : (s.getFreePage moves).2.moved = s.moved
    · obtain ⟨s', heq, hm, hgrown⟩ := appendPage_of_stays hs hp hmoved
      obtain ⟨-, hcurrent, -, -⟩ := RawDataPage.appendPage_spec hs.wellFormed hp
      rw [heq]
      refine ⟨fun _ => ⟨s', _, _, rfl, ?_, hgrown, hm ▸ hcurrent, rfl⟩, fun hstays => ?_⟩
      · rw [hm]
        rfl
      · exact absurd (((getFreePage_stays moves hs).2 0).mpr ⟨hmoved, stays_zero⟩) hstays
    · rw [appendPage_of_moved hmoved]
      exact written_of_moved hs hmoved
  · rw [if_neg hfull, if_neg hfull]
    have hzero : filled page.offset 0 = 0 := by
      unfold filled minOffset maxOffset at *
      omega
    refine ⟨fun _ => ⟨s, p, page, rfl, rfl, ?_, hp, ?_⟩, fun hstays => ?_⟩
    · rw [hzero]
      exact .refl hs
    · unfold offsetAfter minOffset maxOffset at *
      omega
    · rw [hzero] at hstays
      exact absurd stays_zero hstays

theorem writeLoop_written {page : RawDataStruct} {fuel : ℕ} {data : List UInt8} (hs : s.Valid)
    (hp : RawDataPage.Current s.m p page) (hfuel : data.length ≤ fuel) :
    Written moves s page.offset data.length
      (writeLoop moves 0 fuel s p (s.getPageAddress p) page.offset data >>= finish moves)
      (RawDataPage.writeLoop 0 fuel s.m p page.offset data >>= finish₀) := by
  induction fuel generalizing s p page data with
  | zero =>
    obtain rfl := List.length_eq_zero_iff.mp (Nat.le_zero.mp hfuel)
    exact finish_written hs hp
  | succ fuel ih =>
    unfold writeLoop RawDataPage.writeLoop
    by_cases hempty : data.length = 0
    · obtain rfl := List.length_eq_zero_iff.mp hempty
      exact finish_written hs hp
    rw [if_neg hempty, if_neg hempty]
    -- one part of the data, in a page that is not full
    have hcopy {s : PageMemory} {p : ℕ} {page : RawDataStruct} (hs : s.Valid)
        (hp : RawDataPage.Current s.m p page) (hlt : page.offset < maxOffset) : Written moves s page.offset data.length
          ((do
            let s' ← s.store (s.getPageAddress p) (RawDataPage.RawDataStruct.copy · page.offset
              (data.take (min (maxOffset - page.offset) data.length)))
            writeLoop moves 0 fuel s' p (s.getPageAddress p)
              (page.offset + min (maxOffset - page.offset) data.length)
              (data.drop (min (maxOffset - page.offset) data.length))) >>= finish moves)
          (RawDataPage.writeLoop 0 fuel (s.m.setPage p (.raw (RawDataPage.RawDataStruct.copy (s.m.pages p).asRaw
              page.offset (data.take (min (maxOffset - page.offset) data.length))))) p
            (page.offset + min (maxOffset - page.offset) data.length)
            (data.drop (min (maxOffset - page.offset) data.length)) >>= finish₀) := by
      generalize hn : min (maxOffset - page.offset) data.length = n
      have hlength : (data.take n).length = n := by
        rw [List.length_take]
        omega
      have hcurrent := (@RawDataPage.extends_copy s.m p (data.take n) page hs.wellFormed hp (by omega)).2
      rw [store_of_moved _ rfl]
      show Written moves s page.offset data.length
        (writeLoop moves 0 fuel (s.setPage p (RawDataPage.RawDataStruct.copy (s.m.pages p).asRaw page.offset
          (data.take n))) p (s.getPageAddress p) (page.offset + n) (data.drop n) >>= finish moves) _
      rw [hp.pages]
      dsimp only [Page.asRaw]
      have hoffset : (RawDataPage.RawDataStruct.copy page page.offset (data.take n)).offset = page.offset + n :=
        congrArg (page.offset + ·) hlength
      generalize RawDataPage.RawDataStruct.copy page page.offset (data.take n) = page₁ at *
      have hgrown := @grown_setPage moves s p page₁ hs hcurrent.minOffset_le hcurrent.le_maxOffset
      have hrest := @ih (s.setPage p page₁) p page₁ (data.drop n) hgrown.valid hcurrent
        (by rw [List.length_drop]; omega)
      have hsum : page.offset - minOffset + data.length = page₁.offset - minOffset + (data.drop n).length := by
        have hmin := hp.minOffset_le
        rw [hoffset, List.length_drop]
        omega
      rw [← hoffset]
      refine hrest.of_grown hgrown ?_ ?_
      · rw [filled, hsum, Nat.zero_add, filled]
      · rw [offsetAfter, hsum, offsetAfter]
    by_cases hfull : page.offset = maxOffset
    · simp only [if_pos hfull]
      rw [hfull]
      by_cases hmoved : (s.getFreePage moves).2.moved = s.moved
      · obtain ⟨s', heq, hm, hgrown⟩ := appendPage_of_stays hs hp hmoved
        obtain ⟨-, hcurrent, -, -⟩ := RawDataPage.appendPage_spec hs.wellFormed hp
        have hmin : minOffset < maxOffset := by decide
        have hrest := hcopy hgrown.valid (hm ▸ hcurrent) hmin
        refine Written.of_grown ?_ hgrown (filled_max _) (offsetAfter_max _)
        have heq : s.appendPage moves (s.getPageAddress p) p = pure (s', (RawDataPage.appendPage s.m p).2) := heq
        simp only [heq, pure_bind, ne_eq, not_true, if_false, if_neg (Nat.lt_irrefl _),
          if_neg (Nat.not_lt.mpr hmin.le)]
        rw [hm] at hrest
        exact hrest
      · rw [appendPage_of_moved hmoved]
        exact written_of_moved hs hmoved
    · have hmin := hp.minOffset_le
      have hmax := hp.le_maxOffset
      simp only [if_neg hfull, pure_bind, ne_eq, not_true, if_false, if_neg (Nat.not_lt.mpr hmin),
        if_neg (Nat.not_lt.mpr hmax)]
      exact hcopy hs hp (by omega)

/-- One write: the pages stay where they are, or it ends at an address that is freed. -/
theorem write_written {page : RawDataStruct} {data : List UInt8} (hs : s.Valid)
    (hp : RawDataPage.Current s.m p page) :
    Written moves s page.offset data.length (s.write moves p data) (RawDataPage.write s.m p data) := by
  have hloop := @writeLoop_written moves s p page data.length data hs hp le_rfl
  have hmin := hp.minOffset_le
  have hmax := hp.le_maxOffset
  unfold write RawDataPage.write
  rw [hp.pages]
  dsimp only [Page.asRaw]
  rw [hp.nextPageNumber]
  simp only [ne_eq, not_true, if_false, if_neg (Nat.not_lt.mpr hmin), if_neg (Nat.not_lt.mpr hmax)]
  exact hloop

/-! ## Runs -/

theorem filled_add (offset n n' : ℕ) :
    filled offset (n + n') = filled offset n + filled (offsetAfter offset n) n' := by
  unfold filled offsetAfter minOffset maxOffset
  omega

theorem offsetAfter_lt (offset n : ℕ) : offsetAfter offset n < maxOffset := by
  unfold offsetAfter minOffset maxOffset
  omega

/-- Each position is that of a byte string, which is read from there. -/
def ReadsBack (m : PageManager) (positions : List (ℕ × ℕ)) (datas : List (List UInt8)) : Prop :=
  List.Forall₂ (fun position data => RawDataPage.read m position.1 position.2 data.length = .ok data)
    positions datas

/-- The induction is on the writes: what each one appends stays where it is. -/
theorem writes_spec {page : RawDataStruct} {datas : List (List UInt8)} (hs : s.Valid)
    (hp : RawDataPage.Current s.m p page) (hlt : page.offset < maxOffset) :
    (s.Stays moves (filled page.offset (datas.map List.length).sum) → ∃ s' positions,
      s.writes moves p datas = .ok (s', positions) ∧ RawDataPage.Extends s.m s'.m ∧
        (∃ k, Grown moves s s' k) ∧ ReadsBack s'.m positions datas) ∧
    (¬s.Stays moves (filled page.offset (datas.map List.length).sum) →
      s.writes moves p datas = .error .outOfBounds) := by
  induction datas generalizing s p page with
  | nil =>
    refine ⟨fun _ => ⟨s, [], rfl, .refl hs.wellFormed, ⟨0, .refl hs⟩, .nil⟩, fun hstays => ?_⟩
    have hzero : filled page.offset 0 = 0 := by
      have hmin := hp.minOffset_le
      unfold filled minOffset maxOffset at *
      omega
    rw [List.map_nil, List.sum_nil, hzero] at hstays
    exact absurd stays_zero hstays
  | cons data rest ih =>
    obtain ⟨hok, herror⟩ := @write_written moves s p page data hs hp
    rw [List.map_cons, List.sum_cons, filled_add]
    unfold writes
    by_cases hdata : s.Stays moves (filled page.offset data.length)
    · obtain ⟨s₁, p₁, page₁, heq, heq₀, hgrown, hcurrent, hoffset⟩ := hok hdata
      obtain ⟨m₁, q₁, -, heq₁, hextends, -, -, hholds⟩ :=
        @RawDataPage.write_spec s.m p data page hs.wellFormed hp hlt
      obtain ⟨rfl, rfl⟩ := Prod.mk.inj (Except.ok.inj (heq₁.symm.trans heq₀))
      obtain ⟨hrest, hrest'⟩ := ih hgrown.valid hcurrent (hoffset ▸ offsetAfter_lt _ _)
      have hposition : RawDataPage.getOffset s.m p = page.offset := by
        rw [RawDataPage.getOffset, hp.pages]
        rfl
      rw [← hgrown.stays, ← hoffset, heq, hposition]
      refine ⟨fun hstays => ?_, fun hstays => ?_⟩
      · obtain ⟨s', positions, heq', hextends', ⟨k, hgrown'⟩, hreads⟩ := hrest hstays
        refine ⟨s', (p, page.offset) :: positions, ?_, hextends.trans hextends', ⟨_, hgrown.trans hgrown'⟩, ?_⟩
        · dsimp only [bind, Except.bind]
          rw [heq']
          rfl
        · exact .cons (RawDataPage.read_of_keepsRaw hp (hextends.trans hextends').toKeepsRaw
            (hholds.extends hextends'.toKeepsRaw)) hreads
      · dsimp only [bind, Except.bind]
        rw [hrest' hstays]
    · rw [herror hdata]
      refine ⟨fun hstays => absurd (hstays.mono (Nat.le_add_right _ _)) hdata, fun _ => rfl⟩

/-- From a new page on, all byte strings are appended and read back, and no header has another offset. -/
def AppendsAndReads (moves : ℕ → Bool) (s : PageMemory) (p : ℕ) (datas : List (List UInt8)) : Prop :=
  ∃ s' positions, (s.initEmptyPage p).writes moves p datas = .ok (s', positions) ∧
    ReadsBack s'.m positions datas ∧
    ∃ offsets, s'.offsets = s.offsets ++ offsets ∧ ∀ offset ∈ offsets, minOffset ≤ offset ∧ offset ≤ maxOffset

theorem writes_initEmptyPage (hs : s.Valid) (hp : s.m.Allocated p) (datas : List (List UInt8)) :
    (s.Stays moves ((datas.map List.length).sum / (maxOffset - minOffset)) → AppendsAndReads moves s p datas) ∧
    (¬s.Stays moves ((datas.map List.length).sum / (maxOffset - minOffset)) →
      (s.initEmptyPage p).writes moves p datas = .error .outOfBounds) := by
  have hmin : minOffset < maxOffset := by decide
  have hempty : Grown moves s (s.initEmptyPage p) 0 := grown_setPage hs le_rfl hmin.le
  have hcurrent : RawDataPage.Current (s.initEmptyPage p).m p ⟨0, 0, minOffset, fun _ => 0⟩ :=
    ⟨hp, PageManager.pages_setPage_self, rfl, le_rfl, hmin.le⟩
  obtain ⟨hok, herror⟩ := @writes_spec moves _ p _ datas hempty.valid hcurrent hmin
  have hfilled (n : ℕ) : filled minOffset n = n / (maxOffset - minOffset) := by
    rw [filled, Nat.sub_self, Nat.zero_add]
  rw [hfilled, hempty.stays, Nat.zero_add] at hok herror
  refine ⟨fun hstays => ?_, herror⟩
  obtain ⟨s', positions, heq, -, ⟨k, hgrown⟩, hreads⟩ := hok hstays
  exact ⟨s', positions, heq, hreads, (hempty.trans hgrown).offsets⟩

/-- All byte strings are read back exactly if no page that they fill is moved when the next one is taken. -/
theorem appendsAndReads_iff (hs : s.Valid) (hp : s.m.Allocated p) (datas : List (List UInt8)) :
    AppendsAndReads moves s p datas ↔
      s.Stays moves ((datas.map List.length).sum / (maxOffset - minOffset)) := by
  obtain ⟨hok, herror⟩ := @writes_initEmptyPage moves s p hs hp datas
  refine ⟨fun ⟨s', positions, heq, _⟩ => ?_, hok⟩
  by_contra hstays
  rw [herror hstays] at heq
  cases heq

/-- Pages in memory, with the first ones in use. -/
def sample (firstUnusedPage : ℕ) : PageMemory where
  m := ⟨fun _ => .free, fun _ => none, [], firstUnusedPage⟩
  mappedFile := false
  pagesPerFile := 1024
  nPages := 1024
  moved := 0
  offsets := []

theorem valid_sample {firstUnusedPage : ℕ} (hmin : 1 < firstUnusedPage) (hmax : firstUnusedPage ≤ 1024) :
    (sample firstUnusedPage).Valid where
  wellFormed := ⟨⟨Nat.zero_lt_of_lt hmin, List.not_mem_nil⟩, ⟨hmin, List.not_mem_nil⟩, List.nodup_nil, nofun⟩
  fits := hmax
  pagesPerFile_pos := (by decide : 0 < 1024)

/-- A byte string that spans two pages, one of no bytes, and one that fills its page. -/
theorem appendsAndReads_iff_sample :
    AppendsAndReads (fun _ => true) (sample 8) 7 [List.replicate 4081 1, [], List.replicate 4079 2] := by
  refine (appendsAndReads_iff (valid_sample (by decide) (by decide)) ⟨by decide, List.not_mem_nil⟩ _).mpr ?_
  simp only [List.map_cons, List.map_nil, List.length_replicate, List.length_nil, List.sum_cons, List.sum_nil]
  exact stays_of_le (by decide)

/-- All pages are in use, and `realloc` moves them when the byte string reaches its second page. -/
theorem not_appendsAndReads : ¬∀ (moves : ℕ → Bool) (s : PageMemory) (p : ℕ) (datas : List (List UInt8)),
    s.Valid → s.m.Allocated p → AppendsAndReads moves s p datas := by
  intro h
  have hs : (sample 1024).Valid := valid_sample (by decide) le_rfl
  have hp : (sample 1024).m.Allocated 7 := ⟨by decide, List.not_mem_nil⟩
  obtain ⟨s', positions, heq, -⟩ := h (fun _ => true) (sample 1024) 7 [List.replicate 4081 0] hs hp
  rw [(writes_initEmptyPage hs hp _).2] at heq
  · cases heq
  · simp only [List.map_cons, List.map_nil, List.length_replicate, List.sum_cons, List.sum_nil]
    rintro (hmapped | hstays)
    · cases hmapped
    · cases hstays 0 (by decide)

end PageMemory

end ZkevmProver.HashDB64
