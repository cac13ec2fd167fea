import ZkevmProver.HashDB64.KeyValueHistoryWrite
import ZkevmProver.HashDB64.PageTree
import ZkevmProver.Utils.KeyDigits

/-!
# Pages of keys and values

An entry of a page is empty, locates a length, a key and a value in the raw data, or leads to a page of the
next nine bits.  All keys of a page have the same length, and a key is written once.

  1. `Read`.
  2. `Write`.
  3. The entries as slots of a radix tree.
-/

namespace ZkevmProver.HashDB64

namespace KeyValuePage

open RadixPages BigEndian

/-! ## `Read` -/

def U64Mask12 : ℕ := 0xFFF

def U64Mask32 : ℕ := 0xFFFFFFFF

/-- The four bytes of a `uint32_t`, the lowest first. -/
def lengthBa (length : ℕ) : List UInt8 := (bytes 4 length).reverse

/-- `*(uint32_t *)` of the first four bytes. -/
def length32 (ba : List UInt8) : ℕ := value (ba.take 4).reverse

def initEmptyPage (m : PageManager) (pageNumber : ℕ) : PageManager :=
  m.setPage pageNumber (.keyValue ⟨fun _ => .empty⟩)

def getKey (m : PageManager) (pageNumber index : ℕ) : KeyValueSlot :=
  (m.pages pageNumber).asKeyValue.key index

def setKey (m : PageManager) (pageNumber index : ℕ) (slot : KeyValueSlot) : PageManager :=
  let page := (m.pages pageNumber).asKeyValue
  m.setPage pageNumber (.keyValue { page with key := Function.update page.key index slot })

/-- The value of a leaf, when its key is the one that is read. -/
def readLeaf (m : PageManager) (key : List UInt8) (slot : KeyValueSlot) : Except Stop (List UInt8) := do
  let lengthBa ← RawDataPage.read m slot.rawPageNumber slot.rawPageOffset 4
  -- the result of the last call, with no value
  if lengthBa.length ≠ 4 then return []
  let length := length32 lengthBa
  let rawData ← RawDataPage.read m slot.rawPageNumber slot.rawPageOffset length
  if rawData.length < 4 + key.length then throw (.zkr .dbError)
  if (rawData.drop 4).take key.length ≠ key then throw (.zkr .dbKeyNotFound)
  return rawData.drop (4 + key.length)

/-- `Read`, over the sets of bits that are left. -/
def readFrom (m : PageManager) (key : List UInt8) : List ℕ → ℕ → Except Stop (List UInt8)
  | [], _ => throw (.zkr .dbError)
  | index :: bits, pageNumber =>
    let slot := getKey m pageNumber index
    match slot.control with
    | 0 => throw (.zkr .dbKeyNotFound)
    | 1 => readLeaf m key slot
    | 2 => readFrom m key bits slot.rawPageNumber
    | _ => throw .exitProcess

def read (m : PageManager) (pageNumber : ℕ) (key : List UInt8) : Except Stop (List UInt8) :=
  if key.length = 0 then throw .exitProcess else readFrom m key (splitKey9 key) pageNumber

/-! ## `Write` -/

section

variable (key value : List UInt8)

/-- An empty slot. -/
def writeEmpty (m : PageManager) (index pageNumber headerPageNumber : ℕ) :
    Except Stop (PageManager × ℕ × ℕ) := do
  let length := 4 + key.length + value.length
  if length > U64Mask32 then throw (.zkr .dbError)
  let lengthKeyValue := lengthBa length ++ key ++ value
  let (m, headerPageNumber, location) ← KeyValueHistoryPage.insertRawData m headerPageNumber lengthKeyValue
  let m := setKey m pageNumber index ⟨1, location.rawDataOffset &&& U64Mask12, location.rawDataPage⟩
  return (m, pageNumber, headerPageNumber)

/-- A leaf of the same key, which must have the same value. -/
def writeSame (m : PageManager) (slot : KeyValueSlot) (length pageNumber headerPageNumber : ℕ) :
    Except Stop (PageManager × ℕ × ℕ) := do
  if length ≠ 4 + key.length + value.length then throw .exitProcess
  let existingLengthKeyAndValue ← RawDataPage.read m slot.rawPageNumber slot.rawPageOffset length
  if existingLengthKeyAndValue.length ≠ 4 + key.length + value.length then throw .exitProcess
  if value ≠ existingLengthKeyAndValue.drop (4 + key.length) then throw .exitProcess
  return (m, pageNumber, headerPageNumber)

/-- `Write`, over the sets of bits from `level` on.  The result has the page number and that of the header,
which change when a page is copied. -/
def writeFrom : List ℕ → ℕ → PageManager → ℕ → ℕ → Except Stop (PageManager × ℕ × ℕ)
  | [], _, _, _, _ => throw (.zkr .dbError)
  | index :: bits, level, m, pageNumber, headerPageNumber => do
    let (pageNumber, m) := m.editPage pageNumber
    let slot := getKey m pageNumber index
    match slot.control with
    | 0 => writeEmpty key value m index pageNumber headerPageNumber
    | 1 =>
      let lengthString ← RawDataPage.read m slot.rawPageNumber slot.rawPageOffset 4
      let length := length32 lengthString
      if length < 4 + key.length then throw .exitProcess
      let existingLengthAndKey ← RawDataPage.read m slot.rawPageNumber slot.rawPageOffset (4 + key.length)
      if existingLengthAndKey.drop 4 = key then
        writeSame key value m slot length pageNumber headerPageNumber
      else
        -- the entry is moved to a new page
        let (newPageNumber, m) := m.getFreePage
        let m := initEmptyPage m newPageNumber
        let existingKeyBits := splitKey9 (existingLengthAndKey.drop 4)
        match existingKeyBits[level + 1]? with
        | none => throw .exitProcess
        | some newIndex =>
          let m := setKey m newPageNumber newIndex slot
          let (m, newPageNumber, headerPageNumber) ←
            writeFrom bits (level + 1) m newPageNumber headerPageNumber
          let m := setKey m pageNumber index ⟨2, 0, newPageNumber⟩
          return (m, pageNumber, headerPageNumber)
    | 2 =>
      let (m, nextKeyValuePage, headerPageNumber) ←
        writeFrom bits (level + 1) m slot.rawPageNumber headerPageNumber
      let m := setKey m pageNumber index ⟨2, 0, nextKeyValuePage⟩
      return (m, pageNumber, headerPageNumber)
    | _ => throw .exitProcess

end

def write (m : PageManager) (pageNumber : ℕ) (key value : List UInt8) (headerPageNumber : ℕ) :
    Except Stop (PageManager × ℕ × ℕ) :=
  if key.length = 0 then throw .exitProcess
  else writeFrom key value (splitKey9 key) 0 m pageNumber headerPageNumber

/-! ## The entries as slots -/

/-- A leaf has the location of its raw data. -/
def slotOf (slot : KeyValueSlot) : Slot Location :=
  match slot.control with
  | 0 => .empty
  | 1 => .leaf ⟨slot.rawPageOffset, slot.rawPageNumber⟩
  | 2 => .next slot.rawPageNumber
  | _ => .invalid

def slots (page : Page) (i : ℕ) : Slot Location := slotOf (page.asKeyValue.key i)

/-- The pages of keys and values as a radix tree. -/
abbrev table (m : PageManager) : Table Location := pageTable slots m

section

variable {m : PageManager} {slot : KeyValueSlot} {p i : ℕ}

theorem slotOf_zero (h : slot.control = 0) : slotOf slot = .empty := by
  unfold slotOf
  rw [h]
  rfl

theorem slotOf_one (h : slot.control = 1) : slotOf slot = .leaf ⟨slot.rawPageOffset, slot.rawPageNumber⟩ := by
  unfold slotOf
  rw [h]
  rfl

theorem slotOf_two (h : slot.control = 2) : slotOf slot = .next slot.rawPageNumber := by
  unfold slotOf
  rw [h]
  rfl

theorem control_of_slotOf (h : slotOf slot ≠ .invalid) :
    slot.control = 0 ∨ slot.control = 1 ∨ slot.control = 2 := by
  unfold slotOf at h
  split at h
  · exact .inl ‹_›
  · exact .inr (.inl ‹_›)
  · exact .inr (.inr ‹_›)
  · exact absurd rfl h

theorem slots_update (page : KeyValueStruct) (i : ℕ) (slot : KeyValueSlot) :
    slots (.keyValue { page with key := Function.update page.key i slot }) =
      Function.update (slots (.keyValue page)) i (slotOf slot) := by
  funext j
  unfold slots
  by_cases hj : j = i
  · subst hj
    rw [Function.update_self]
    exact congrArg slotOf (Function.update_self _ _ _)
  · rw [Function.update_of_ne hj]
    exact congrArg slotOf (Function.update_of_ne hj _ _)

theorem slots_asKeyValue (page : Page) : slots (.keyValue page.asKeyValue) = slots page := rfl

theorem slots_blank : slots (.keyValue ⟨fun _ => .empty⟩) = fun _ => .empty := by
  funext j
  exact slotOf_zero rfl

theorem setKey_initEmptyPage : setKey (initEmptyPage m p) p i slot =
    (m.setPage p (.keyValue ⟨fun _ => .empty⟩)).setPage p
      (.keyValue ⟨Function.update (fun _ => .empty) i slot⟩) := by
  unfold setKey initEmptyPage
  rw [PageManager.pages_setPage_self]
  rfl

/-- The slots of a page after `setKey`. -/
theorem slots_setKey {s : Slot Location} (hslot : slotOf slot = s) :
    slots (.keyValue { (m.pages p).asKeyValue with
        key := Function.update (m.pages p).asKeyValue.key i slot }) =
      Function.update (slots (m.pages p)) i s := by
  rw [slots_update, slots_asKeyValue, hslot]

end

end KeyValuePage

end ZkevmProver.HashDB64
