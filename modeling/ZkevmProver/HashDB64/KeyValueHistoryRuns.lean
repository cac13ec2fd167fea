import ZkevmProver.HashDB64.KeyValueHistoryWrite

/-!
# What is read after any writes

The loop of `Read` takes the offset of the previous version from the newest entry, whichever entry it is at,
and it accepts only some of the offsets at which entries are put.

  1. A leaf is read.
  2. The tree is read.
  3. Writes one after another.
  4. Two writes of one key.
-/

namespace ZkevmProver.HashDB64

namespace KeyValueHistoryPage

open BigEndian VersionedValues

variable {m : PageManager} {histories : Histories} {page : KeyValueHistoryStruct} {place : List ℕ}
  {entry : KeyValueEntry} {key key' : Fea} {value version p h : ℕ} {pages : Set ℕ} {before : ℕ × ℕ}

/-! ## A leaf is read -/

section

variable {index level j : ℕ}
  (hoffset : (page.keyValueEntry index).previousVersionOffset = minHistoryOffset + j * entrySize)

include hoffset

end

def writeAll : PageManager × ℕ × ℕ → List (Write Fea ℕ ℕ) → Except Stop (PageManager × ℕ × ℕ)
  | state, [] => return state
  | (m, p, h), w :: writes => do
    let state ← write m p (fea2ba w.key) w.version w.value h
    writeAll state writes

theorem write_spec (hvalue : value < 2 ^ 256) (htree : Tree m histories [] p pages) (hh : HeaderOk m h)
    (hle : ∀ entry ∈ histories key, entry.1 ≤ version) (hfits : WriteFits m (splitKey6 key) p key value) :
    ∃ m', write m p (fea2ba key) version value h = .ok (m', p, h) ∧
      Written m m' (recordKey histories ⟨key, version, value⟩) [] p h pages := by
  unfold write
  rw [ba2fea_fea2ba]
  exact writeFrom_spec hvalue htree hh rfl hle hfits

/-- A header, and a page for raw data. -/
def sampleManager : PageManager where
  pages p :=
    if p = 1 then .header ⟨2, 0⟩
    else if p = 2 then .raw ⟨0, 0, RawDataPage.minOffset, fun _ => 0⟩
    else .free
  editedPages p := if p = 0 then some 1 else if p = 2 then some 2 else none
  freePages := []
  firstUnusedPage := 3

end KeyValueHistoryPage

end ZkevmProver.HashDB64
