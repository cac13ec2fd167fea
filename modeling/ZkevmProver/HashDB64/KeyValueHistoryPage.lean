import ZkevmProver.HashDB64.RawDataPage
import ZkevmProver.Utils.KeySets

/-!
# Pages of keys, values and their history

An entry of a page is empty, holds the newest value of a key, or leads to a page of the next six bits.  Older
values are in the history of the page.

  1. The pages.
  2. `Read`.
  3. `Write`.
-/

namespace ZkevmProver.HashDB64

namespace KeyValueHistoryPage

/-! ## The pages -/

def entrySize : ℕ := 24

def minHistoryOffset : ℕ := 1552

def maxHistoryOffset : ℕ := 4096

/-- The history entry at an offset of the page. -/
def historyIndex (offset : ℕ) : ℕ := (offset - minHistoryOffset) / entrySize

def initEmptyPage (m : PageManager) (pageNumber : ℕ) : PageManager :=
  m.setPage pageNumber (.history ⟨minHistoryOffset, 0, fun _ => .empty, fun _ => .empty⟩)

def setEntry (m : PageManager) (pageNumber index : ℕ) (entry : KeyValueEntry) : PageManager :=
  let page := (m.pages pageNumber).asHistory
  m.setPage pageNumber (.history { page with keyValueEntry := Function.update page.keyValueEntry index entry })

/-! ## `Read` -/

/-- The first set of bits that is different. -/
def firstDifferent (keyBits foundKeyBits : List ℕ) : ℕ :=
  ((List.range 43).find? fun i => keyBits.getD i 0 ≠ foundKeyBits.getD i 0).getD 43

section Read

variable (m : PageManager) (key : List UInt8) (keyBits : List ℕ) (version : ℕ) (before : ℕ × ℕ)

/-- The loop over the versions of a leaf; `none` when it has not ended.  The result is the value and the
level of the key, which are those from `before` where they are not written. -/
def readLeaf (page : KeyValueHistoryStruct) (index level : ℕ) :
    ℕ → KeyValueEntry → Option (Except Stop (ℕ × ℕ))
  | 0, _ => none
  | fuel + 1, keyValueEntry =>
    let foundVersion := keyValueEntry.version
    if version ≥ foundVersion then
      some do
        let keyValue ← RawDataPage.read m keyValueEntry.location.rawDataPage
          keyValueEntry.location.rawDataOffset 64
        if keyValue.length ≠ 64 then return before
        if key ≠ keyValue.take 32 then
          let foundKeyBits := splitKey6 (ba2fea (keyValue.take 32))
          let i := firstDifferent keyBits foundKeyBits
          if i < level then throw .exitProcess
          return (0, (i + 1) * 6)
        return (ba2scalar (keyValue.drop 32), (level + 1) * 6)
    else
      let previousVersionOffset := (page.keyValueEntry index).previousVersionOffset
      if previousVersionOffset = 0 then some (return (0, (level + 1) * 6))
      else if previousVersionOffset < minHistoryOffset ∨ previousVersionOffset > maxHistoryOffset ∨
          (previousVersionOffset - minHistoryOffset) &&& (entrySize - 1) ≠ 0 then
        some (throw (.zkr .dbError))
      else readLeaf page index level fuel (page.historyEntry (historyIndex previousVersionOffset))

/-- `Read`, over the sets of bits from `level` on. -/
def readFrom (fuel : ℕ) : List ℕ → ℕ → ℕ → Option (Except Stop (ℕ × ℕ))
  | [], _, _ => some (throw .outOfBounds)
  | index :: bits, level, pageNumber =>
    let page := (m.pages pageNumber).asHistory
    match (page.keyValueEntry index).control with
    | 0 => some (return (0, (level + 1) * 6))
    | 1 => readLeaf m key keyBits version before page index level fuel (page.keyValueEntry index)
    | 2 => readFrom fuel bits (level + 1) (page.keyValueEntry index).location.rawDataPage
    | _ => some (throw (.zkr .dbError))

end Read

def read (m : PageManager) (fuel pageNumber : ℕ) (key : List UInt8) (version : ℕ) (before : ℕ × ℕ) :
    Option (Except Stop (ℕ × ℕ)) :=
  let keyBits := splitKey6 (ba2fea key)
  readFrom m key keyBits version before fuel keyBits 0 pageNumber

/-! ## `Write` -/

/-- The key and the value are appended to the raw data, and located. -/
def insertRawData (m : PageManager) (headerPageNumber : ℕ) (keyAndValue : List UInt8) :
    Except Stop (PageManager × ℕ × Location) := do
  let (headerPageNumber, m) := m.editPage headerPageNumber
  let insertionRawDataPage := (m.pages headerPageNumber).asHeader.rawDataPage
  let insertionRawDataOffset := RawDataPage.getOffset m insertionRawDataPage
  let (m, rawDataPage) ← RawDataPage.write m insertionRawDataPage keyAndValue
  let m := m.setPage headerPageNumber
    (.header { (m.pages headerPageNumber).asHeader with rawDataPage := rawDataPage })
  return (m, headerPageNumber, ⟨insertionRawDataOffset, insertionRawDataPage⟩)

/-- A new page with the entries of a page whose history is full. -/
def newHistoryPage (m : PageManager) (pageNumber : ℕ) : ℕ × PageManager :=
  let (newPageNumber, m) := m.getFreePage
  let page := (m.pages pageNumber).asHistory
  (newPageNumber, m.setPage newPageNumber (.history { page with
    historyOffset := minHistoryOffset
    previousPage := pageNumber
    historyEntry := fun _ => .empty }))

/-- `scalar2ba32`, which ends the process for values of more than 32 bytes. -/
def valueBa (value : ℕ) : Except Stop (List UInt8) :=
  match scalar2ba32 value with
  | some ba => return ba
  | none => throw .exitProcess

section Write

variable (key : List UInt8) (version value : ℕ)

/-- An empty slot. -/
def writeEmpty (m : PageManager) (index pageNumber headerPageNumber : ℕ) :
    Except Stop (PageManager × ℕ × ℕ) := do
  let (pageNumber, m) := m.editPage pageNumber
  let ba ← valueBa value
  let (m, headerPageNumber, location) ← insertRawData m headerPageNumber (key ++ ba)
  let page := (m.pages pageNumber).asHistory
  let entry : KeyValueEntry :=
    { page.keyValueEntry index with
      control := 1, previousVersionOffset := 0, version := version, location := location }
  let m := setEntry m pageNumber index entry
  -- all leaf nodes hashes are reset, since their relative positions might have changed
  let page := (m.pages pageNumber).asHistory
  let m := m.setPage pageNumber (.history { page with
    keyValueEntry := fun i =>
      if (page.keyValueEntry i).control = 1 then { page.keyValueEntry i with hash := ⟨0, 0⟩ }
      else page.keyValueEntry i })
  return (m, pageNumber, headerPageNumber)

/-- A new value of the key of a leaf. -/
def writeSame (m : PageManager) (index pageNumber headerPageNumber : ℕ) (ba : List UInt8) :
    Except Stop (PageManager × ℕ × ℕ) := do
  let currentVersion := ((m.pages pageNumber).asHistory.keyValueEntry index).version
  if version < currentVersion then throw (.zkr .dbError)
  let (pageNumber, m) : ℕ × PageManager :=
    if (m.pages pageNumber).asHistory.historyOffset = maxHistoryOffset then newHistoryPage m pageNumber
    else (pageNumber, m)
  let page := (m.pages pageNumber).asHistory
  let previousVersionOffset := page.historyOffset
  let m := m.setPage pageNumber (.history { page with
    historyEntry := Function.update page.historyEntry (historyIndex page.historyOffset) (page.keyValueEntry index)
    historyOffset := page.historyOffset + entrySize })
  let (m, headerPageNumber, location) ← insertRawData m headerPageNumber (key ++ ba)
  let m := setEntry m pageNumber index ⟨1, previousVersionOffset, version, location, ⟨0, 0⟩⟩
  return (m, pageNumber, headerPageNumber)

/-- `Write`, over the sets of bits from `level` on.  The result has the page number and that of the header,
which change when a page is copied. -/
def writeFrom : List ℕ → ℕ → PageManager → ℕ → ℕ → Except Stop (PageManager × ℕ × ℕ)
  | [], _, _, _, _ => throw .outOfBounds
  | index :: bits, level, m, pageNumber, headerPageNumber => do
    let (pageNumber, m) := m.editPage pageNumber
    let entry := (m.pages pageNumber).asHistory.keyValueEntry index
    match entry.control with
    | 0 => writeEmpty key version value m index pageNumber headerPageNumber
    | 1 =>
      let keyAndValue ← RawDataPage.read m entry.location.rawDataPage entry.location.rawDataOffset 64
      if keyAndValue.length ≠ 64 then return (m, pageNumber, headerPageNumber)
      if key = keyAndValue.take 32 then
        let ba ← valueBa value
        -- there is nothing to do, even if versions are not the same
        if ba = keyAndValue.drop 32 then return (m, pageNumber, headerPageNumber)
        writeSame key version m index pageNumber headerPageNumber ba
      else
        -- the key of the leaf is moved to a new page
        let (newPageNumber, m) := m.getFreePage
        let m := initEmptyPage m newPageNumber
        match (splitKey6 (ba2fea (keyAndValue.take 32)))[level + 1]? with
        | none => throw .outOfBounds
        | some newIndex =>
          let m := setEntry m newPageNumber newIndex { entry with previousVersionOffset := 0, hash := ⟨0, 0⟩ }
          let (m, newPageNumber, headerPageNumber) ←
            writeFrom bits (level + 1) m newPageNumber headerPageNumber
          let m := setEntry m pageNumber index ⟨2, 0, 0, ⟨0, newPageNumber⟩, ⟨0, 0⟩⟩
          return (m, pageNumber, headerPageNumber)
    | 2 =>
      let (m, newNextPageNumber, headerPageNumber) ←
        writeFrom bits (level + 1) m entry.location.rawDataPage headerPageNumber
      let entry := (m.pages pageNumber).asHistory.keyValueEntry index
      let m := setEntry m pageNumber index { entry with location := ⟨0, newNextPageNumber⟩, hash := ⟨0, 0⟩ }
      return (m, pageNumber, headerPageNumber)
    | _ => throw (.zkr .dbError)

end Write

def write (m : PageManager) (pageNumber : ℕ) (key : List UInt8) (version value headerPageNumber : ℕ) :
    Except Stop (PageManager × ℕ × ℕ) :=
  writeFrom key version value (splitKey6 (ba2fea key)) 0 m pageNumber headerPageNumber

end KeyValueHistoryPage

end ZkevmProver.HashDB64
