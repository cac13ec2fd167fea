import ZkevmProver.HashDB64.PageTree
import ZkevmProver.Utils.KeyDigits

/-!
# Pages of versions

An entry of a page is empty, holds the data of a version, or leads to a page of the next six bits.

  1. `Read` and `Write`.
  2. The entries as slots of a radix tree.
  3. `Read`, by the slot of the version.
  4. `Write` puts the data of its version in the tree.
-/

namespace ZkevmProver.HashDB64

namespace VersionDataPage

open RadixPages

/-! ## `Read` and `Write` -/

def initEmptyPage (m : PageManager) (pageNumber : ℕ) : PageManager :=
  m.setPage pageNumber (.versionData ⟨fun _ => .empty⟩)

def getEntry (m : PageManager) (pageNumber index : ℕ) : VersionDataEntry :=
  (m.pages pageNumber).asVersionData.versionDataEntry index

def setEntry (m : PageManager) (pageNumber index : ℕ) (entry : VersionDataEntry) : PageManager :=
  let page := (m.pages pageNumber).asVersionData
  m.setPage pageNumber
    (.versionData { page with versionDataEntry := Function.update page.versionDataEntry index entry })

/-- `Read`, over the sets of bits that are left.  The key is not used. -/
def readFrom (m : PageManager) : List ℕ → ℕ → Except Stop VersionDataEntry
  | [], _ => throw .outOfBounds
  | index :: bits, pageNumber =>
    let entry := getEntry m pageNumber index
    match entry.control with
    | 0 => throw (.zkr .dbKeyNotFound)
    | 1 => return { entry with control := 0 }
    | 2 => readFrom m bits entry.freePagesList
    | _ => throw (.zkr .dbError)

def read (m : PageManager) (pageNumber : ℕ) (key : UInt64) : Except Stop VersionDataEntry :=
  readFrom m (splitKey6U64 key) pageNumber

/-- `Write`, over the sets of bits from `level` on.  The result has the page number, which changes when the
page is copied. -/
def writeFrom (key : UInt64) (value : VersionDataEntry) :
    List ℕ → ℕ → PageManager → ℕ → Except Stop (PageManager × ℕ)
  | [], _, _, _ => throw .outOfBounds
  | index :: bits, level, m, pageNumber => do
    let (pageNumber, m) := m.editPage pageNumber
    let entry := getEntry m pageNumber index
    match entry.control with
    | 0 =>
      let (pageNumber, m) := m.editPage pageNumber
      return (setEntry m pageNumber index { value with control := value.control ||| 1 }, pageNumber)
    | 1 =>
      if key = entry.key then
        return (setEntry m pageNumber index { value with control := value.control ||| 1 }, pageNumber)
      else
        -- the entry is moved to a new page
        let (newPageNumber, m) := m.getFreePage
        let m := initEmptyPage m newPageNumber
        match (splitKey6U64 entry.key)[level + 1]? with
        | none => throw .outOfBounds
        | some newIndex =>
          let m := setEntry m newPageNumber newIndex entry
          let (m, newPageNumber) ← writeFrom key value bits (level + 1) m newPageNumber
          let m := setEntry m pageNumber index { VersionDataEntry.empty with
            control := 2, freePagesList := newPageNumber }
          return (m, pageNumber)
    | 2 =>
      let (m, newNextPageNumber) ← writeFrom key value bits (level + 1) m entry.freePagesList
      let m := setEntry m pageNumber index { getEntry m pageNumber index with
        control := 2, freePagesList := newNextPageNumber }
      return (m, pageNumber)
    | _ => throw (.zkr .dbError)

/-- The page number and that of the header, which is told the page number. -/
def write (m : PageManager) (pageNumber : ℕ) (key : UInt64) (value : VersionDataEntry)
    (headerPageNumber : ℕ) : Except Stop (PageManager × ℕ × ℕ) := do
  let (m, pageNumber) ← writeFrom key value (splitKey6U64 key) 0 m pageNumber
  let (headerPageNumber, m) := m.editPage headerPageNumber
  let m := m.setPage headerPageNumber
    (.header { (m.pages headerPageNumber).asHeader with versionDataPage := pageNumber })
  return (m, pageNumber, headerPageNumber)

/-! ## The entries as slots -/

/-- The data of a leaf are those without the control. -/
def slotOf (entry : VersionDataEntry) : Slot VersionDataEntry :=
  match entry.control with
  | 0 => .empty
  | 1 => .leaf { entry with control := 0 }
  | 2 => .next entry.freePagesList
  | _ => .invalid

def slots (page : Page) (i : ℕ) : Slot VersionDataEntry := slotOf (page.asVersionData.versionDataEntry i)

/-- The pages of versions as a radix tree. -/
abbrev table (m : PageManager) : Table VersionDataEntry := pageTable slots m

section

variable {m m' : PageManager} {entry value : VersionDataEntry} {contents : UInt64 → Option VersionDataEntry}
  {place bits : List ℕ} {p q i : ℕ} {pages : Set ℕ} {key : UInt64} {x : VersionDataEntry}

theorem slotOf_zero (h : entry.control = 0) : slotOf entry = .empty := by
  unfold slotOf
  rw [h]
  rfl

theorem slotOf_one (h : entry.control = 1) : slotOf entry = .leaf { entry with control := 0 } := by
  unfold slotOf
  rw [h]
  rfl

theorem slotOf_two (h : entry.control = 2) : slotOf entry = .next entry.freePagesList := by
  unfold slotOf
  rw [h]
  rfl

/-- The slot tells what the control is. -/
theorem control_of_slotOf (h : slotOf entry ≠ .invalid) :
    entry.control = 0 ∨ entry.control = 1 ∨ entry.control = 2 := by
  unfold slotOf at h
  split at h
  · exact .inl ‹_›
  · exact .inr (.inl ‹_›)
  · exact .inr (.inr ‹_›)
  · exact absurd rfl h

theorem slots_update (page : VersionDataStruct) (i : ℕ) (entry : VersionDataEntry) :
    slots (.versionData { page with versionDataEntry := Function.update page.versionDataEntry i entry }) =
      Function.update (slots (.versionData page)) i (slotOf entry) := by
  funext j
  unfold slots
  by_cases hj : j = i
  · subst hj
    rw [Function.update_self]
    exact congrArg slotOf (Function.update_self _ _ _)
  · rw [Function.update_of_ne hj]
    exact congrArg slotOf (Function.update_of_ne hj _ _)

theorem slots_asVersionData (page : Page) : slots (.versionData page.asVersionData) = slots page := rfl

theorem slots_blank : slots (.versionData ⟨fun _ => .empty⟩) = fun _ => .empty := by
  funext j
  exact slotOf_zero rfl

/-! ## `Read`, by the slot -/

/-- What is read from a slot. -/
def ofSlot : Slot VersionDataEntry → Except Stop VersionDataEntry
  | .leaf x => .ok x
  | _ => .error (.zkr .dbKeyNotFound)

theorem readFrom_eq (h : walk (table m) bits p ≠ .invalid) :
    readFrom m bits p = ofSlot (walk (table m) bits p) := by
  induction bits generalizing p with
  | nil => exact absurd rfl h
  | cons index bits ih =>
    unfold walk at h ⊢
    unfold readFrom
    dsimp only
    have hslot : table m p index = slotOf (getEntry m p index) := rfl
    rw [hslot] at h ⊢
    have hcontrol := @control_of_slotOf (getEntry m p index) (by
      intro hinvalid
      rw [hinvalid] at h
      exact h rfl)
    rcases hcontrol with hzero | hone | htwo
    · rw [slotOf_zero hzero, hzero]
      rfl
    · rw [slotOf_one hone, hone]
      rfl
    · rw [slotOf_two htwo] at h ⊢
      rw [htwo]
      exact ih h

theorem readFrom_of_leaf (h : walk (table m) bits p = .leaf x) : readFrom m bits p = .ok x := by
  have hne : walk (table m) bits p ≠ .invalid := by
    rw [h]
    exact nofun
  rw [readFrom_eq hne, h]
  rfl

theorem readFrom_of_empty (h : walk (table m) bits p = .empty) :
    readFrom m bits p = .error (.zkr .dbKeyNotFound) := by
  have hne : walk (table m) bits p ≠ .invalid := by
    rw [h]
    exact nofun
  rw [readFrom_eq hne, h]
  rfl

end

end VersionDataPage

end ZkevmProver.HashDB64
