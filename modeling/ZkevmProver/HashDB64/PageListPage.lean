import ZkevmProver.HashDB64.PageManager

/-!
# Lists of page numbers

A page has 510 page numbers after its two words of links.  `CreatePages` writes a list over given pages, and
`InsertPage` and `ExtractPage` add and take numbers at its end.

  1. The functions.
  2. What `CreatePages` writes.
  3. The page numbers in a chain of pages.
  4. Calls of `InsertPage` and `ExtractPage` one after another.
-/

namespace ZkevmProver.HashDB64

namespace PageListPage

open PageManager

/-! ## The functions -/

/-- The page is empty. -/
def minOffset : ℕ := 16

/-- The page is full. -/
def maxOffset : ℕ := 4096

def entrySize : ℕ := 8

def getWord (m : PageManager) (pageNumber i : ℕ) : ℕ := (m.pages pageNumber).asPageList.words i

def setWord (m : PageManager) (pageNumber i word : ℕ) : PageManager :=
  m.setPage pageNumber (.pageList ⟨Function.update (m.pages pageNumber).asPageList.words i word⟩)

def previousPageNumber (m : PageManager) (pageNumber : ℕ) : ℕ := getWord m pageNumber 0

def getOffset (m : PageManager) (pageNumber : ℕ) : ℕ := getWord m pageNumber 1 >>> 48

def emptyWords : ℕ → ℕ := Function.update (fun _ => 0) 1 (minOffset <<< 48)

def initEmptyPage (m : PageManager) (pageNumber : ℕ) : PageManager :=
  m.setPage pageNumber (.pageList ⟨emptyWords⟩)

/-- A full page is followed by a new one, which is left as it was taken. -/
def nextPage (m : PageManager) (pageNumber : ℕ) : PageManager × ℕ :=
  if getOffset m pageNumber = maxOffset then
    let (nextPageNumber, m) := m.getFreePage
    let m := setWord m nextPageNumber 0 pageNumber
    let m := setWord m pageNumber 1 (nextPageNumber ||| maxOffset <<< 48)
    (m, nextPageNumber)
  else (m, pageNumber)

def insertPage (m : PageManager) (pageNumber pageNumberToInsert : ℕ) : Except Stop (PageManager × ℕ) :=
  let (m, pageNumber) := nextPage m pageNumber
  let offset := getOffset m pageNumber
  if maxOffset ≤ offset then .error .outOfBounds
  else
    let m := setWord m pageNumber (offset / entrySize) pageNumberToInsert
    let m := setWord m pageNumber 1 ((offset + entrySize) <<< 48)
    .ok (m, pageNumber)

/-- Empty pages are released.  No page is left when the last one is released. -/
def releaseEmpty : ℕ → PageManager → ℕ → Option (Except Stop (PageManager × Option ℕ))
  | 0, _, _ => none
  | fuel + 1, m, pageNumber =>
    if getOffset m pageNumber ≠ minOffset then some (.ok (m, some pageNumber))
    else
      match m.releasePage pageNumber with
      | .error stop => some (.error stop)
      | .ok m' =>
        if previousPageNumber m pageNumber = 0 then some (.ok (m', none))
        else releaseEmpty fuel m' (previousPageNumber m pageNumber)

/-- The page number after the call, and the extracted page number, unless there is none. -/
def extractPage (fuel : ℕ) (m : PageManager) (pageNumber : ℕ) : Option (Except Stop (PageManager × ℕ × Option ℕ)) :=
  match releaseEmpty fuel m pageNumber with
  | none => none
  | some (.error stop) => some (.error stop)
  | some (.ok (m, none)) => some (.ok (m, 0, none))
  | some (.ok (m, some pageNumber)) =>
    if getOffset m pageNumber < entrySize ∨ maxOffset < getOffset m pageNumber then some (.error .outOfBounds)
    else
      let offset := getOffset m pageNumber - entrySize
      let extractedPageNumber := getWord m pageNumber (offset / entrySize)
      let m := setWord m pageNumber 1 (offset <<< 48)
      match releaseEmpty fuel m pageNumber with
      | none => none
      | some (.error stop) => some (.error stop)
      | some (.ok (m, next)) => some (.ok (m, next.getD 0, some extractedPageNumber))

/-- The page numbers in one page. -/
def pageEntries (m : PageManager) (pageNumber : ℕ) : List ℕ :=
  (List.range ((getOffset m pageNumber - minOffset + (entrySize - 1)) / entrySize)).map fun i =>
    getWord m pageNumber (minOffset / entrySize + i)

/-- The numbers of the previous pages come first. -/
def getPages : ℕ → PageManager → ℕ → Option (List ℕ)
  | 0, _, _ => none
  | fuel + 1, m, pageNumber =>
    let freePages :=
      if previousPageNumber m pageNumber ≠ 0 then getPages fuel m (previousPageNumber m pageNumber) else some []
    freePages.map fun freePages => freePages ++ pageEntries m pageNumber

def getContainerPages : ℕ → PageManager → ℕ → Option (List ℕ)
  | 0, _, _ => none
  | fuel + 1, m, pageNumber =>
    let containerPages :=
      if previousPageNumber m pageNumber ≠ 0 then getContainerPages fuel m (previousPageNumber m pageNumber)
      else some []
    containerPages.map fun containerPages => containerPages ++ [pageNumber]

/-- As many pages as possible are inserted.  The last one of the list comes first. -/
def fill (words : ℕ → ℕ) (offset : ℕ) : List ℕ → (ℕ → ℕ) × ℕ × List ℕ
  | [] => (words, offset, [])
  | containedPageNumber :: freePages =>
    if offset < maxOffset then
      fill (Function.update words (offset / entrySize) containedPageNumber) (offset + entrySize) freePages
    else (words, offset, containedPageNumber :: freePages)

/-- The loop over the container pages.  The offset is decreased after the last page is inserted. -/
def createLoop : PageManager → List ℕ → List ℕ → PageManager × List ℕ
  | m, freePages, [] => (m, freePages)
  | m, freePages, pageNumber :: containerPages =>
    let m := initEmptyPage m pageNumber
    let (words, offset, freePages) := fill (m.pages pageNumber).asPageList.words (getOffset m pageNumber) freePages
    let offset := offset - entrySize
    let words := Function.update words 1 (offset <<< 48)
    let words := Function.update words 0 (containerPages.headD 0)
    createLoop (m.setPage pageNumber (.pageList ⟨words⟩)) freePages containerPages

/-- The number of the first page, and the free pages that do not fit. -/
def createPages (m : PageManager) (freePages containerPages : List ℕ) : Except Stop (PageManager × ℕ × List ℕ) :=
  match containerPages with
  | [] => .error .exitProcess
  | pageNumber :: _ =>
    let (m, rest) := createLoop m freePages.reverse containerPages
    .ok (m, pageNumber, rest.reverse)

/-! ## What `CreatePages` writes -/

section

variable {m m' : PageManager} {p q previous : ℕ} {pages xs freePages containerPages : List ℕ}

theorem getOffset_eq {offset : ℕ} (h : getWord m p 1 = offset <<< 48) : getOffset m p = offset := by
  unfold getOffset
  rw [h, Nat.shiftLeft_shiftRight]

theorem pageEntries_eq (hlength : (getOffset m p - minOffset + (entrySize - 1)) / entrySize = xs.length)
    (hwords : ∀ i x, xs[i]? = some x → getWord m p (minOffset / entrySize + i) = x) : pageEntries m p = xs := by
  unfold pageEntries
  rw [hlength]
  refine List.ext_getElem? fun i => ?_
  rw [List.getElem?_map]
  by_cases hi : i < xs.length
  · rw [List.getElem?_range hi, List.getElem?_eq_getElem hi]
    exact congrArg some (hwords i _ (List.getElem?_eq_getElem hi))
  · rw [List.getElem?_eq_none (by simpa using hi), List.getElem?_eq_none (Nat.le_of_not_lt hi)]
    rfl

/-- The numbers that fit are written, from the offset on. -/
theorem fill_spec (words : ℕ → ℕ) {j : ℕ} (hj : j ≤ 510) :
    (fill words (minOffset + entrySize * j) xs).2.1 = minOffset + entrySize * (j + (xs.take (510 - j)).length) ∧
      (fill words (minOffset + entrySize * j) xs).2.2 = xs.drop (510 - j) ∧
      (∀ i < 2 + j, (fill words (minOffset + entrySize * j) xs).1 i = words i) ∧
      ∀ i x, (xs.take (510 - j))[i]? = some x → (fill words (minOffset + entrySize * j) xs).1 (2 + j + i) = x := by
  induction xs generalizing words j with
  | nil =>
    refine ⟨by simp [fill], by simp [fill], fun i _ => rfl, fun i x hx => ?_⟩
    rw [List.take_nil] at hx
    cases hx
  | cons y xs ih =>
    unfold fill
    by_cases hlt : j < 510
    · have hoffset : minOffset + entrySize * j < maxOffset := by
        unfold minOffset entrySize maxOffset
        omega
      have hindex : (minOffset + entrySize * j) / entrySize = 2 + j := by
        unfold minOffset entrySize
        omega
      have hnext : minOffset + entrySize * j + entrySize = minOffset + entrySize * (j + 1) := by
        unfold entrySize
        omega
      have htake : 510 - j = (510 - (j + 1)) + 1 := by omega
      obtain ⟨hlast, hrest, hkeep, hwords⟩ := @ih (Function.update words (2 + j) y) (j + 1) hlt
      rw [if_pos hoffset, hindex, hnext, htake, List.take_succ_cons, List.drop_succ_cons, List.length_cons]
      refine ⟨?_, hrest, fun i hi => ?_, fun i x hx => ?_⟩
      · rw [hlast]
        congr 2
        omega
      · rw [hkeep i (by omega), Function.update_of_ne (by omega)]
      · cases i with
        | zero =>
          have hself : Function.update words (2 + j) y (2 + j) = y := Function.update_self _ _ _
          exact (hkeep (2 + j) (by omega)).trans (hself.trans (Option.some.inj hx))
        | succ i =>
          have hindex' : 2 + (j + 1) + i = 2 + j + (i + 1) := by omega
          rw [← hindex']
          exact hwords i x hx
    · obtain rfl : j = 510 := by omega
      rw [if_neg (by decide)]
      refine ⟨by simp, rfl, fun i _ => rfl, fun i x hx => ?_⟩
      rw [Nat.sub_self, List.take_zero] at hx
      cases hx

/-- The numbers that are read after they are written over these pages: the last one of each page is lost. -/
def created : List ℕ → List ℕ → List ℕ
  | _, [] => []
  | freePages, _ :: containerPages => created (freePages.drop 510) containerPages ++ (freePages.take 510).dropLast

/-- A page that the loop writes. -/
structure Created (m : PageManager) (p previous : ℕ) (xs : List ℕ) : Prop where
  previous : previousPageNumber m p = previous
  entries : pageEntries m p = xs.dropLast

/-- The words of a page that the loop writes. -/
def createdWords (freePages : List ℕ) (previous : ℕ) : ℕ → ℕ :=
  Function.update (Function.update (fill emptyWords minOffset freePages).1 1
    (((fill emptyWords minOffset freePages).2.1 - entrySize) <<< 48)) 0 previous

theorem createdWords_zero : createdWords freePages previous 0 = previous := Function.update_self _ _ _

theorem createdWords_one :
    createdWords freePages previous 1 = ((fill emptyWords minOffset freePages).2.1 - entrySize) <<< 48 := by
  unfold createdWords
  rw [Function.update_of_ne (by decide), Function.update_self]

theorem createdWords_of_le {i : ℕ} (hi : 2 ≤ i) :
    createdWords freePages previous i = (fill emptyWords minOffset freePages).1 i := by
  unfold createdWords
  rw [Function.update_of_ne (by omega), Function.update_of_ne (by omega)]

theorem createLoop_cons : ∃ m₁, createLoop m freePages (p :: containerPages) =
      createLoop m₁ (freePages.drop 510) containerPages ∧
    (∀ q, q ≠ p → m₁.pages q = m.pages q) ∧ Created m₁ p (containerPages.headD 0) (freePages.take 510) := by
  have hwords : ((initEmptyPage m p).pages p).asPageList.words = emptyWords := by
    unfold initEmptyPage
    rw [pages_setPage_self]
    rfl
  have hoffset : getOffset (initEmptyPage m p) p = minOffset := getOffset_eq (congrFun hwords 1)
  obtain ⟨hlast, hrest, hkeep, hentries⟩ := @fill_spec freePages emptyWords 0 (Nat.zero_le _)
  rw [Nat.mul_zero, Nat.add_zero] at hlast hrest hkeep hentries
  rw [Nat.zero_add, Nat.sub_zero] at hlast
  have hloop : createLoop m freePages (p :: containerPages) =
      createLoop ((initEmptyPage m p).setPage p (.pageList ⟨createdWords freePages (containerPages.headD 0)⟩))
        (freePages.drop 510) containerPages := by
    conv_lhs => unfold createLoop
    dsimp only
    rw [hwords, hoffset, hrest]
    rfl
  have hword (i : ℕ) : getWord ((initEmptyPage m p).setPage p
      (.pageList ⟨createdWords freePages (containerPages.headD 0)⟩)) p i =
        createdWords freePages (containerPages.headD 0) i := by
    unfold getWord
    rw [pages_setPage_self]
    rfl
  refine ⟨_, hloop, fun q hq => ?_, (hword 0).trans createdWords_zero, ?_⟩
  · rw [pages_setPage_of_ne hq]
    exact pages_setPage_of_ne hq
  · apply pageEntries_eq
    · rw [getOffset_eq ((hword 1).trans createdWords_one), hlast, List.length_dropLast]
      unfold minOffset entrySize
      omega
    · intro i x hx
      have hlt : i < (freePages.take 510).length - 1 := by
        rw [← List.length_dropLast]
        exact (List.getElem?_eq_some_iff.mp hx).1
      have hx' : (freePages.take 510)[i]? = some x := by
        rwa [List.getElem?_dropLast, if_pos hlt] at hx
      exact (hword _).trans ((createdWords_of_le (Nat.le_add_right 2 i)).trans (hentries i x hx'))

theorem pages_createLoop (hq : q ∉ containerPages) :
    (createLoop m freePages containerPages).1.pages q = m.pages q := by
  induction containerPages generalizing m freePages with
  | nil => rfl
  | cons p containerPages ih =>
    obtain ⟨m₁, hloop, hpages, -⟩ := @createLoop_cons m p freePages containerPages
    rw [hloop, ih fun hmem => hq (List.mem_cons_of_mem p hmem)]
    exact hpages q fun heq => hq (heq ▸ List.mem_cons_self)

theorem Created.congr (h : Created m p previous xs) (hpages : m'.pages p = m.pages p) :
    Created m' p previous xs := by
  have hword : getWord m' p = getWord m p := by
    funext i
    unfold getWord
    rw [hpages]
  obtain ⟨hprevious, hentries⟩ := h
  refine ⟨?_, ?_⟩
  · unfold previousPageNumber at hprevious ⊢
    rw [hword, hprevious]
  · unfold pageEntries getOffset at hentries ⊢
    rw [hword, hentries]

/-- What is read of the pages that were written, and which pages these are. -/
theorem getPages_createLoop {fuel : ℕ} (hnodup : (p :: containerPages).Nodup) (hzero : 0 ∉ p :: containerPages)
    (hfuel : (p :: containerPages).length ≤ fuel) :
    getPages fuel (createLoop m freePages (p :: containerPages)).1 p =
        some (created freePages (p :: containerPages)) ∧
      getContainerPages fuel (createLoop m freePages (p :: containerPages)).1 p =
        some (p :: containerPages).reverse := by
  induction containerPages generalizing p m freePages fuel with
  | nil =>
    obtain ⟨fuel, rfl⟩ := Nat.exists_eq_add_of_le' (show 1 ≤ fuel from hfuel)
    obtain ⟨m₁, hloop, -, hcreated⟩ := @createLoop_cons m p freePages []
    have hprevious : previousPageNumber m₁ p = 0 := hcreated.previous
    rw [hloop]
    unfold createLoop
    refine ⟨?_, ?_⟩
    · unfold getPages
      dsimp only
      rw [hprevious, if_neg (not_not_intro rfl), hcreated.entries]
      rfl
    · unfold getContainerPages
      dsimp only
      rw [hprevious, if_neg (not_not_intro rfl)]
      rfl
  | cons q containerPages ih =>
    obtain ⟨fuel, rfl⟩ := Nat.exists_eq_add_of_le' ((Nat.succ_le_succ (Nat.zero_le _)).trans hfuel)
    obtain ⟨m₁, hloop, -, hcreated⟩ := @createLoop_cons m p freePages (q :: containerPages)
    obtain ⟨hp, hnodup'⟩ := List.nodup_cons.mp hnodup
    have hzero' : 0 ∉ q :: containerPages := fun hmem => hzero (List.mem_cons_of_mem p hmem)
    have hq : q ≠ 0 := fun heq => hzero' (heq ▸ List.mem_cons_self)
    obtain ⟨hread, hcontainers⟩ := @ih m₁ q (freePages.drop 510) fuel hnodup' hzero' (Nat.le_of_succ_le_succ hfuel)
    have hcreated' := hcreated.congr (@pages_createLoop m₁ p (freePages.drop 510) (q :: containerPages) hp)
    have hprevious : previousPageNumber (createLoop m₁ (freePages.drop 510) (q :: containerPages)).1 p = q :=
      hcreated'.previous
    rw [hloop]
    refine ⟨?_, ?_⟩
    · unfold getPages
      dsimp only
      rw [hprevious, if_pos hq, hread, hcreated'.entries]
      rfl
    · unfold getContainerPages
      dsimp only
      rw [hprevious, if_pos hq, hcontainers]
      exact congrArg some List.reverse_cons.symm

theorem length_created_le (freePages containerPages : List ℕ) :
    (created freePages containerPages).length ≤ freePages.length := by
  induction containerPages generalizing freePages with
  | nil => exact Nat.zero_le _
  | cons p containerPages ih =>
    unfold created
    have hrest := ih (freePages.drop 510)
    rw [List.length_append, List.length_dropLast, List.length_take]
    rw [List.length_drop] at hrest
    omega

/-- One number is lost at least. -/
theorem length_created_lt (hne : freePages ≠ []) :
    (created freePages (p :: containerPages)).length < freePages.length := by
  have hpos := List.length_pos_iff.mpr hne
  have hrest := length_created_le (freePages.drop 510) containerPages
  unfold created
  rw [List.length_append, List.length_dropLast, List.length_take]
  rw [List.length_drop] at hrest
  omega

theorem created_nil (containerPages : List ℕ) : created [] containerPages = [] :=
  List.length_eq_zero_iff.mp (Nat.le_zero.mp (length_created_le [] containerPages))

end

/-! ## The page numbers in a chain of pages -/

/-- A page with these numbers, in the order in which they were inserted. -/
structure Holds (m : PageManager) (p previous : ℕ) (xs : List ℕ) : Prop where
  previous : previousPageNumber m p = previous
  offset : getOffset m p = minOffset + entrySize * xs.length
  length_le : xs.length ≤ 510
  entries : ∀ i x, xs[i]? = some x → getWord m p (2 + i) = x

/-- The pages from this one to the first, and their numbers in the order in which they were inserted. -/
inductive Chain (m : PageManager) : ℕ → List ℕ → List ℕ → Prop
  | nil : Chain m 0 [] []
  | page {p previous : ℕ} {pages contents xs : List ℕ} (holds : Holds m p previous xs) (one_lt : 1 < p)
      (lt : p < m.firstUnusedPage) (notMem : p ∉ pages) (chain : Chain m previous pages contents) :
      Chain m p (p :: pages) (contents ++ xs)

/-- A chain whose first page to read is not empty. -/
structure Top (m : PageManager) (p : ℕ) (pages contents : List ℕ) (x : ℕ) : Prop where
  top : ∃ previous pages' below xs, pages = p :: pages' ∧ contents = below ++ xs ∧
    Holds m p previous (xs ++ [x]) ∧ 1 < p ∧ p < m.firstUnusedPage ∧ p ∉ pages' ∧ Chain m previous pages' below

section

variable {m m' : PageManager} {p q previous fuel x : ℕ} {pages contents xs : List ℕ}

theorem getWord_setWord_self (i word : ℕ) : getWord (setWord m p i word) p i = word := by
  unfold getWord setWord
  rw [pages_setPage_self]
  exact Function.update_self _ _ _

theorem getWord_setWord_of_ne {i j word : ℕ} (h : j ≠ i) : getWord (setWord m p i word) p j = getWord m p j := by
  unfold getWord setWord
  rw [pages_setPage_self]
  exact Function.update_of_ne h _ _

theorem pages_setWord_of_ne {i word : ℕ} (h : q ≠ p) : (setWord m p i word).pages q = m.pages q :=
  pages_setPage_of_ne h

theorem getWord_congr (h : m'.pages p = m.pages p) : getWord m' p = getWord m p := by
  funext i
  unfold getWord
  rw [h]

theorem Holds.congr (h : Holds m p previous xs) (hpages : m'.pages p = m.pages p) : Holds m' p previous xs := by
  have hword := getWord_congr hpages
  obtain ⟨hprevious, hoffset, hlength, hentries⟩ := h
  unfold previousPageNumber at hprevious
  unfold getOffset at hoffset
  rw [← hword] at hprevious hoffset hentries
  exact ⟨hprevious, hoffset, hlength, hentries⟩

theorem Chain.congr (h : Chain m p pages contents) (hpages : ∀ q ∈ pages, m'.pages q = m.pages q)
    (hlt : m'.firstUnusedPage = m.firstUnusedPage) : Chain m' p pages contents := by
  induction h with
  | nil => exact .nil
  | page holds one_lt lt notMem _ ih =>
    refine .page (holds.congr (hpages _ List.mem_cons_self)) one_lt (hlt ▸ lt) notMem (ih fun q hq => ?_)
    exact hpages q (List.mem_cons_of_mem _ hq)

/-- A page to which nothing was written yet, at the end of no pages. -/
theorem chain_initEmptyPage (hp : 1 < p) (hlt : p < m.firstUnusedPage) : Chain (initEmptyPage m p) p [p] [] := by
  have hword (i : ℕ) : getWord (initEmptyPage m p) p i = emptyWords i := by
    unfold getWord initEmptyPage
    rw [pages_setPage_self]
    rfl
  refine @Chain.page _ p 0 [] [] [] ⟨hword 0, getOffset_eq (hword 1), Nat.zero_le _, fun i x hx => ?_⟩ hp hlt
    List.not_mem_nil .nil
  cases hx

theorem Top.chain (h : Top m p pages contents x) : Chain m p pages (contents ++ [x]) := by
  obtain ⟨previous, pages', below, xs, rfl, rfl, hholds, hp, hlt, hnot, hchain⟩ := h
  rw [List.append_assoc]
  exact .page hholds hp hlt hnot hchain

theorem Chain.of_zero (h : Chain m 0 pages contents) : pages = [] ∧ contents = [] := by
  generalize hp : 0 = p at h
  cases h with
  | nil => exact ⟨rfl, rfl⟩
  | page holds one_lt lt notMem chain =>
    rw [← hp] at one_lt
    exact absurd one_lt (by decide)

/-- Empty pages are released, up to a page with numbers or to the end. -/
theorem releaseEmpty_spec (h : Chain m p pages contents) (hp : p ≠ 0) (hfuel : pages.length ≤ fuel) :
    ∃ m' next, releaseEmpty fuel m p = some (.ok (m', next)) ∧
      ((next = none ∧ contents = []) ∨ ∃ q pages' rest x, next = some q ∧ contents = rest ++ [x] ∧
        Top m' q pages' rest x ∧ pages'.length ≤ pages.length) := by
  induction fuel generalizing m p pages contents with
  | zero =>
    cases h with
    | nil => exact absurd rfl hp
    | page holds one_lt lt notMem chain => exact absurd hfuel (Nat.not_succ_le_zero _)
  | succ fuel ih =>
    cases h with
    | nil => exact absurd rfl hp
    | @page _ previous pages below xs holds one_lt lt notMem chain =>
      unfold releaseEmpty
      rw [holds.offset]
      rcases List.eq_nil_or_concat xs with rfl | ⟨ys, x, rfl⟩
      · have hrelease : m.releasePage p = .ok { m with freePages := p :: m.freePages } := if_pos ⟨one_lt, lt⟩
        have hempty : ¬minOffset + entrySize * ([] : List ℕ).length ≠ minOffset := not_not_intro rfl
        rw [if_neg hempty, hrelease, holds.previous, List.append_nil]
        dsimp only
        by_cases hprevious : previous = 0
        · subst hprevious
          rw [if_pos rfl]
          exact ⟨_, _, rfl, .inl ⟨rfl, chain.of_zero.2⟩⟩
        · rw [if_neg hprevious]
          have hchain := @Chain.congr m { m with freePages := p :: m.freePages } previous pages below chain
            (fun _ _ => rfl) rfl
          obtain ⟨m', next, hreleased, hnext⟩ := ih hchain hprevious (Nat.le_of_succ_le_succ hfuel)
          refine ⟨m', next, hreleased, hnext.imp_right ?_⟩
          rintro ⟨q, pages', rest, x, hq, hrest, htop, hle⟩
          exact ⟨q, pages', rest, x, hq, hrest, htop, Nat.le_succ_of_le hle⟩
      · rw [List.concat_eq_append] at holds ⊢
        have hne : minOffset + entrySize * (ys ++ [x]).length ≠ minOffset := by
          rw [List.length_append, List.length_singleton]
          unfold entrySize
          omega
        rw [if_pos hne]
        refine ⟨m, some p, rfl, .inr ⟨p, p :: pages, below ++ ys, x, rfl, (List.append_assoc ..).symm, ?_, le_rfl⟩⟩
        exact ⟨previous, pages, below, ys, rfl, rfl, holds, one_lt, lt, notMem, chain⟩

/-- The last number is taken. -/
theorem extractPage_concat (h : Chain m p pages (contents ++ [x])) (hp : p ≠ 0) (hfuel : pages.length ≤ fuel) :
    ∃ m' p' pages', extractPage fuel m p = some (.ok (m', p', some x)) ∧ Chain m' p' pages' contents ∧
      pages'.length ≤ pages.length := by
  obtain ⟨m₁, next, hreleased, hnext⟩ := releaseEmpty_spec h hp hfuel
  rcases hnext with ⟨-, hnil⟩ | ⟨q, pages₁, rest, y, rfl, hrest, htop, hle⟩
  · exact absurd hnil (by simp)
  obtain ⟨rfl, hxy⟩ := List.append_inj' hrest rfl
  obtain rfl := List.singleton_inj.mp hxy
  obtain ⟨previous, pages₂, below, ys, rfl, rfl, hholds, hq, hlt, hnot, hchain⟩ := htop.top
  have hlength : (ys ++ [x]).length = ys.length + 1 := by simp
  have hoffset := hholds.offset
  have hle' := hholds.length_le
  rw [hlength] at hoffset hle'
  have hbounds : ¬(getOffset m₁ q < entrySize ∨ maxOffset < getOffset m₁ q) := by
    rw [hoffset]
    unfold minOffset entrySize maxOffset
    omega
  have hnew : getOffset m₁ q - entrySize = minOffset + entrySize * ys.length := by
    rw [hoffset]
    unfold entrySize
    omega
  have hindex : (minOffset + entrySize * ys.length) / entrySize = 2 + ys.length := by
    unfold minOffset entrySize
    omega
  have hword : getWord m₁ q (2 + ys.length) = x := hholds.entries ys.length x (by simp)
  -- the number stays in the page, after the offset
  have hholds' : Holds (setWord m₁ q 1 ((minOffset + entrySize * ys.length) <<< 48)) q previous ys := by
    refine ⟨?_, getOffset_eq (getWord_setWord_self _ _), by omega, fun i z hz => ?_⟩
    · exact (getWord_setWord_of_ne (by decide)).trans hholds.previous
    · refine (getWord_setWord_of_ne (by omega)).trans (hholds.entries i z ?_)
      rw [List.getElem?_append_left (List.getElem?_eq_some_iff.mp hz).1, hz]
  have hchain' : Chain (setWord m₁ q 1 ((minOffset + entrySize * ys.length) <<< 48)) q (q :: pages₂) (below ++ ys) := by
    refine .page hholds' hq hlt hnot (hchain.congr (fun r hr => pages_setWord_of_ne ?_) rfl)
    rintro rfl
    exact hnot hr
  obtain ⟨m₃, next, hreleased', hnext⟩ := releaseEmpty_spec hchain' (Nat.ne_of_gt (Nat.lt_of_succ_lt hq))
    (hle.trans hfuel)
  refine ⟨m₃, next.getD 0, ?_⟩
  have hextract : extractPage fuel m p = some (.ok (m₃, next.getD 0, some x)) := by
    unfold extractPage
    rw [hreleased]
    dsimp only
    rw [if_neg hbounds, hnew, hindex, hword, hreleased']
  rcases hnext with ⟨rfl, hnil⟩ | ⟨r, pages₃, rest, z, rfl, hrest', htop', hle₃⟩
  · rw [hnil]
    exact ⟨[], hextract, .nil, Nat.zero_le _⟩
  · rw [hrest']
    exact ⟨pages₃, hextract, htop'.chain, hle₃.trans hle⟩

theorem extractPage_nil (h : Chain m p pages []) (hp : p ≠ 0) (hfuel : pages.length ≤ fuel) :
    ∃ m', extractPage fuel m p = some (.ok (m', 0, none)) := by
  obtain ⟨m₁, next, hreleased, hnext⟩ := releaseEmpty_spec h hp hfuel
  rcases hnext with ⟨rfl, -⟩ | ⟨q, pages₁, rest, y, rfl, hrest, -⟩
  · refine ⟨m₁, ?_⟩
    unfold extractPage
    rw [hreleased]
  · exact absurd hrest (by simp)

/-- A number is inserted in a page that is not full. -/
theorem insertPage_spec (h : Chain m p pages contents) (hp : p ≠ 0) (hfull : getOffset m p ≠ maxOffset) (x : ℕ) :
    ∃ m', insertPage m p x = .ok (m', p) ∧ Chain m' p pages (contents ++ [x]) := by
  cases h with
  | nil => exact absurd rfl hp
  | @page _ previous pages below xs holds one_lt lt notMem chain =>
    have hoffset := holds.offset
    have hlength : xs.length < 510 := by
      refine lt_of_le_of_ne holds.length_le fun heq => hfull ?_
      rw [hoffset, heq]
      rfl
    have hnext : nextPage m p = (m, p) := if_neg hfull
    have hlt : ¬maxOffset ≤ getOffset m p := by
      rw [hoffset]
      unfold minOffset entrySize maxOffset
      omega
    have hindex : getOffset m p / entrySize = 2 + xs.length := by
      rw [hoffset]
      unfold minOffset entrySize
      omega
    have hnew : getOffset m p + entrySize = minOffset + entrySize * (xs ++ [x]).length := by
      rw [hoffset, List.length_append, List.length_singleton]
      unfold entrySize
      omega
    have hother (r : ℕ) (hr : r ≠ p) : (setWord (setWord m p (2 + xs.length) x) p 1
        ((minOffset + entrySize * (xs ++ [x]).length) <<< 48)).pages r = m.pages r :=
      (pages_setWord_of_ne hr).trans (pages_setWord_of_ne hr)
    refine ⟨setWord (setWord m p (2 + xs.length) x) p 1 ((minOffset + entrySize * (xs ++ [x]).length) <<< 48), ?_, ?_⟩
    · unfold insertPage
      rw [hnext]
      dsimp only
      rw [if_neg hlt, hindex, hnew]
    · rw [List.append_assoc]
      refine .page ⟨?_, getOffset_eq (getWord_setWord_self _ _), ?_, fun i z hz => ?_⟩ one_lt lt notMem
        (chain.congr (fun r hr => hother r ?_) rfl)
      · refine (getWord_setWord_of_ne (by decide)).trans ((getWord_setWord_of_ne (by omega)).trans holds.previous)
      · rw [List.length_append, List.length_singleton]
        exact hlength
      · rw [getWord_setWord_of_ne (by omega)]
        by_cases hi : i < xs.length
        · rw [getWord_setWord_of_ne (by omega)]
          rw [List.getElem?_append_left hi] at hz
          exact holds.entries i z hz
        · have hlast := (List.getElem?_eq_some_iff.mp hz).1
          rw [List.length_append, List.length_singleton] at hlast
          obtain rfl : i = xs.length := by omega
          rw [getWord_setWord_self]
          simpa using hz
      · rintro rfl
        exact notMem hr

/-- In the page that follows a full one, the number is written over that of the full page. -/
theorem insertPage_full (hm : m.WellFormed) (hp : m.Allocated p) (hfull : getOffset m p = maxOffset) (x : ℕ) :
    ∃ m' q, insertPage m p x = .ok (m', q) ∧ q ≠ p ∧ previousPageNumber m' q = x := by
  have hfresh := getFreePage_takes hm
  have hne : m.getFreePage.1 ≠ p := by
    rintro rfl
    exact hfresh.fresh hp
  have hnext : nextPage m p = (setWord (setWord m.getFreePage.2 m.getFreePage.1 0 p) p 1
      (m.getFreePage.1 ||| maxOffset <<< 48), m.getFreePage.1) := if_pos hfull
  have hoffset : getOffset (setWord (setWord m.getFreePage.2 m.getFreePage.1 0 p) p 1
      (m.getFreePage.1 ||| maxOffset <<< 48)) m.getFreePage.1 = 0 := by
    unfold getOffset
    rw [getWord_congr (pages_setWord_of_ne hne), getWord_setWord_of_ne (by decide)]
    unfold getWord
    rw [hfresh.pages]
    rfl
  unfold insertPage
  rw [hnext]
  dsimp only
  rw [hoffset, if_neg (by decide)]
  refine ⟨_, _, rfl, hne, ?_⟩
  exact (getWord_setWord_of_ne (by decide)).trans (getWord_setWord_self _ _)

end

/-! ## Calls of `InsertPage` and `ExtractPage` one after another -/

inductive Call
  | insertPage (pageNumberToInsert : ℕ)
  | extractPage

inductive Result
  | inserted
  | extracted (pageNumber : ℕ)
  | keyNotFound
  deriving DecidableEq

def Call.isInsert : Call → Bool
  | .insertPage _ => true
  | .extractPage => false

def Result.isExtracted : Result → Bool
  | .extracted _ => true
  | _ => false

def step (fuel : ℕ) (m : PageManager) (p : ℕ) : Call → ExceptT Stop Option (PageManager × ℕ × Result)
  | .insertPage pageNumberToInsert => do
    let (m, p) ← insertPage m p pageNumberToInsert
    return (m, p, .inserted)
  | .extractPage => do
    let (m, p, extracted) ← (extractPage fuel m p : ExceptT Stop Option (PageManager × ℕ × Option ℕ))
    return (m, p, extracted.elim .keyNotFound .extracted)

def run (fuel : ℕ) : PageManager → ℕ → List Call → ExceptT Stop Option (PageManager × ℕ × List Result)
  | m, p, [] => return (m, p, [])
  | m, p, call :: calls => do
    let (m, p, result) ← step fuel m p call
    let (m, p, results) ← run fuel m p calls
    return (m, p, result :: results)

/-- A stack, with its last element at the end. -/
def stackStep (stack : List ℕ) : Call → List ℕ × Result
  | .insertPage pageNumberToInsert => (stack ++ [pageNumberToInsert], .inserted)
  | .extractPage => (stack.dropLast, stack.getLast?.elim .keyNotFound .extracted)

def stackRun (stack : List ℕ) : List Call → List ℕ × List Result
  | [] => (stack, [])
  | call :: calls =>
    ((stackRun (stackStep stack call).1 calls).1, (stackStep stack call).2 :: (stackRun (stackStep stack call).1 calls).2)

/-- The list has a page, which is not full when a number is inserted. -/
def Allowed (m : PageManager) (p : ℕ) : Call → Prop
  | .insertPage _ => p ≠ 0 ∧ getOffset m p ≠ maxOffset
  | .extractPage => p ≠ 0

/-- Each call is allowed in the state in which it is made. -/
def AllAllowed (fuel : ℕ) : PageManager → ℕ → List Call → Prop
  | _, _, [] => True
  | m, p, call :: calls => Allowed m p call ∧
    ∀ m' p' result, step fuel m p call = some (.ok (m', p', result)) → AllAllowed fuel m' p' calls

section

variable {m : PageManager} {p fuel : ℕ} {pages contents : List ℕ}

theorem step_insertPage {m' : PageManager} {x : ℕ} (hinsert : insertPage m p x = .ok (m', p)) :
    step fuel m p (.insertPage x) = some (.ok (m', p, .inserted)) := by
  unfold step
  dsimp only
  rw [hinsert]
  rfl

theorem step_spec {call : Call} (h : Chain m p pages contents) (hfuel : pages.length ≤ fuel)
    (hallowed : Allowed m p call) : ∃ m' p' pages', step fuel m p call = some (.ok (m', p', (stackStep contents call).2)) ∧
      Chain m' p' pages' (stackStep contents call).1 ∧ pages'.length ≤ pages.length := by
  cases call with
  | insertPage x =>
    obtain ⟨m', hinsert, hchain⟩ := insertPage_spec h hallowed.1 hallowed.2 x
    exact ⟨m', p, pages, step_insertPage hinsert, hchain, le_rfl⟩
  | extractPage =>
    rcases List.eq_nil_or_concat contents with rfl | ⟨rest, x, rfl⟩
    · obtain ⟨m', hextract⟩ := extractPage_nil h hallowed hfuel
      refine ⟨m', 0, [], ?_, .nil, Nat.zero_le _⟩
      unfold step
      rw [hextract]
      rfl
    · rw [List.concat_eq_append] at h ⊢
      obtain ⟨m', p', pages', hextract, hchain, hle⟩ := extractPage_concat h hallowed hfuel
      have hstack : stackStep (rest ++ [x]) .extractPage = (rest, .extracted x) := by
        unfold stackStep
        rw [List.dropLast_concat, List.getLast?_concat]
        rfl
      rw [hstack]
      refine ⟨m', p', pages', ?_, hchain, hle⟩
      unfold step
      rw [hextract]
      rfl

theorem run_spec (calls : List Call) (h : Chain m p pages contents) (hfuel : pages.length ≤ fuel)
    (hallowed : AllAllowed fuel m p calls) : ∃ m' p' pages',
      run fuel m p calls = some (.ok (m', p', (stackRun contents calls).2)) ∧
        Chain m' p' pages' (stackRun contents calls).1 := by
  induction calls generalizing m p pages contents with
  | nil => exact ⟨m, p, pages, rfl, h⟩
  | cons call calls ih =>
    obtain ⟨m₁, p₁, pages₁, hstep, hchain₁, hle⟩ := step_spec h hfuel hallowed.1
    obtain ⟨m₂, p₂, pages₂, hrun, hchain₂⟩ := ih hchain₁ (hle.trans hfuel) (hallowed.2 _ _ _ hstep)
    refine ⟨m₂, p₂, pages₂, ?_, hchain₂⟩
    unfold run
    rw [hstep]
    change run fuel m₁ p₁ calls >>= _ = _
    rw [hrun]
    rfl

/-- As many numbers are left as were inserted and not extracted. -/
theorem length_stackRun (stack : List ℕ) (calls : List Call) :
    (stackRun stack calls).1.length + (stackRun stack calls).2.countP Result.isExtracted =
      stack.length + calls.countP Call.isInsert := by
  induction calls generalizing stack with
  | nil => rfl
  | cons call calls ih =>
    have hrest := ih (stackStep stack call).1
    unfold stackRun
    rw [List.countP_cons, List.countP_cons]
    cases call with
    | insertPage x =>
      simp [stackStep, Call.isInsert, Result.isExtracted] at hrest ⊢
      omega
    | extractPage =>
      rcases List.eq_nil_or_concat stack with rfl | ⟨rest, x, rfl⟩
      · simp [stackStep, Call.isInsert, Result.isExtracted] at hrest ⊢
        omega
      · simp [stackStep, Call.isInsert, Result.isExtracted] at hrest ⊢
        omega

/-- The next `ExtractPage` reports that there is none if and only if as many were extracted as inserted. -/
theorem keyNotFound_iff (calls : List Call) :
    (stackStep (stackRun [] calls).1 .extractPage).2 = .keyNotFound ↔
      (stackRun [] calls).2.countP Result.isExtracted = calls.countP Call.isInsert := by
  have hlength := length_stackRun [] calls
  rw [List.length_nil, Nat.zero_add] at hlength
  rcases List.eq_nil_or_concat (stackRun [] calls).1 with hnil | ⟨rest, x, hconcat⟩
  · rw [hnil] at hlength ⊢
    exact iff_of_true rfl ((Nat.zero_add _).symm.trans hlength)
  · rw [hconcat, List.concat_eq_append] at hlength ⊢
    refine iff_of_false ?_ ?_
    · unfold stackStep
      rw [List.getLast?_concat]
      exact nofun
    · rw [List.length_append, List.length_singleton] at hlength
      omega

end

/-- The list that is created is read as it was if and only if it is empty.  While no number is inserted in a
full page, and no call is made after the last page was released, the calls return what those of a stack do,
which is empty when as many numbers were extracted as inserted. -/
theorem pages_kept_iff (fuel : ℕ) :
    (∀ (m : PageManager) (freePages containerPages : List ℕ), containerPages ≠ [] →
      containerPages.Nodup → 0 ∉ containerPages → containerPages.length ≤ fuel →
      ∃ m' p rest pages, createPages m freePages containerPages = .ok (m', p, rest) ∧
        getPages fuel m' p = some pages ∧ getContainerPages fuel m' p = some containerPages.reverse ∧
        (pages.Perm freePages ↔ freePages = [])) ∧
    (∀ (m : PageManager) (p : ℕ) (pages contents : List ℕ) (calls : List Call), Chain m p pages contents →
      pages.length ≤ fuel → AllAllowed fuel m p calls →
      ∃ m' p' pages', run fuel m p calls = some (.ok (m', p', (stackRun contents calls).2)) ∧
        Chain m' p' pages' (stackRun contents calls).1) ∧
    ∀ calls : List Call, (stackStep (stackRun [] calls).1 .extractPage).2 = .keyNotFound ↔
      (stackRun [] calls).2.countP Result.isExtracted = calls.countP Call.isInsert := by
  refine ⟨fun m freePages containerPages hne hnodup hzero hfuel => ?_,
    fun m p pages contents calls h hfuel hallowed => run_spec calls h hfuel hallowed, keyNotFound_iff⟩
  obtain ⟨p, containerPages, rfl⟩ := List.exists_cons_of_ne_nil hne
  obtain ⟨hread, hcontainers⟩ := @getPages_createLoop m p freePages.reverse containerPages fuel hnodup hzero hfuel
  refine ⟨_, p, _, _, rfl, hread, hcontainers, ?_⟩
  constructor
  · intro hperm
    by_contra hne'
    have hlt := @length_created_lt p freePages.reverse containerPages (List.reverse_ne_nil_iff.mpr hne')
    rw [hperm.length_eq, List.length_reverse] at hlt
    exact Nat.lt_irrefl _ hlt
  · rintro rfl
    rw [List.reverse_nil, created_nil]

/-- A page manager with pages 2 and 3 in use. -/
def sampleManager : PageManager where
  pages _ := .free
  editedPages _ := none
  freePages := []
  firstUnusedPage := 4

theorem pages_kept_sample :
    (∃ m' p rest pages, createPages sampleManager [5] [2] = .ok (m', p, rest) ∧
      getPages 1 m' p = some pages ∧ getContainerPages 1 m' p = some [2] ∧ (pages.Perm [5] ↔ [5] = [])) ∧
    ∃ m' p' pages', run 1 (initEmptyPage sampleManager 2) 2 [.insertPage 5, .extractPage] =
        some (.ok (m', p', [.inserted, .extracted 5])) ∧ Chain m' p' pages' [] := by
  refine ⟨(pages_kept_iff 1).1 sampleManager [5] [2] (by decide) (by decide) (by decide) (by decide),
    (pages_kept_iff 1).2.1 (initEmptyPage sampleManager 2) 2 [2] [] [.insertPage 5, .extractPage]
      (chain_initEmptyPage (by decide) (by decide)) (by decide) ⟨⟨by decide, by decide⟩, fun m' p' result hstep => ?_⟩⟩
  obtain ⟨m₁, hinsert, -⟩ := insertPage_spec (@chain_initEmptyPage sampleManager 2 (by decide) (by decide)) (by decide)
    (by decide) 5
  have hstate := Except.ok.inj (Option.some.inj ((step_insertPage hinsert).symm.trans hstep))
  rw [Prod.mk.injEq, Prod.mk.injEq] at hstate
  obtain ⟨-, rfl, -⟩ := hstate
  exact ⟨two_ne_zero, fun _ _ _ _ => trivial⟩

/-- Of a list of one number none is read. -/
theorem not_pages_kept : ¬∀ (m : PageManager) (freePages containerPages : List ℕ) (fuel : ℕ), containerPages ≠ [] →
    containerPages.Nodup → 0 ∉ containerPages → containerPages.length ≤ fuel →
    ∃ m' p rest pages, createPages m freePages containerPages = .ok (m', p, rest) ∧
      getPages fuel m' p = some pages ∧ pages.Perm freePages := by
  intro hclaim
  obtain ⟨m', p, rest, pages, hcreate, hpages, hperm⟩ :=
    hclaim sampleManager [5] [2] 1 (by decide) (by decide) (by decide) (by decide)
  have hcreated := (@getPages_createLoop sampleManager 2 [5] [] 1 (by decide) (by decide) (by decide)).1
  have hstate := Except.ok.inj hcreate
  rw [Prod.mk.injEq, Prod.mk.injEq] at hstate
  obtain ⟨rfl, rfl, -⟩ := hstate
  have hnil : pages = [] := (Option.some.inj (hcreated.symm.trans hpages)).symm
  rw [hnil] at hperm
  exact absurd hperm.length_eq (by decide)

end PageListPage

end ZkevmProver.HashDB64
