import Mathlib.Data.List.GetD
import ZkevmProver.Lib.Fallible
import ZkevmProver.Lib.HashChain
import ZkevmProver.Lib.Loops
import ZkevmProver.Lib.OrderedMap
import ZkevmProver.Utils.Goldilocks

/-!
# Sorting for plookup

`calculateH1H2` and its faster versions sort the rows of `f` and of the table `t` together.  They stop with an
error when a row of `f` is not in the table; the error shows the row.

  1. Rows.
  2. With a multimap.
  3. With a counter for every row of the table.
  4. With a hash table in a buffer.
-/

namespace ZkevmProver.Plookup

open Loops OrderedMap

/-! ## Rows -/

/-- `toVector` of a row, which has one element or three. -/
abbrev Row := List Fe

/-- `CompareFeVectorImpl` -/
def compareFe (a b : Row) : Bool :=
  if a.length = 1 then toU64 (a.getD 0 0) < toU64 (b.getD 0 0)
  else if toU64 (a.getD 0 0) ≠ toU64 (b.getD 0 0) then toU64 (a.getD 0 0) < toU64 (b.getD 0 0)
  else if toU64 (a.getD 1 0) ≠ toU64 (b.getD 1 0) then toU64 (a.getD 1 0) < toU64 (b.getD 1 0)
  else toU64 (a.getD 2 0) < toU64 (b.getD 2 0)

/-- `toVectorU64` -/
def toVectorU64 (row : Row) : List ℕ := row.map toU64

/-- What the functions return, `h1` and `h2`, or the row of the error. -/
abbrev Sorter := ExceptT Row Option (List Row × List Row)

/-! ## With a multimap -/

/-- `h1` and `h2` take the rows in turn. -/
def takeTurns (rows : List Row) : List Row × List Row :=
  (rows.foldl
    (fun (s : ℕ × List Row × List Row) row =>
      if s.1 % 2 = 0 then (s.1 + 1, s.2.1 ++ [row], s.2.2) else (s.1 + 1, s.2.1, s.2.2 ++ [row]))
    (0, [], [])).2

/-- Row `i` of the table. -/
def insertT (s : List (Row × ℕ) × List (Row × ℕ)) (p : Row × ℕ) : List (Row × ℕ) × List (Row × ℕ) :=
  (assign compareFe p.1 p.2 s.1, OrderedMap.insert compareFe p s.2)

/-- A row of `f`. -/
def insertF (idx_t s : List (Row × ℕ)) (key : Row) : ExceptT Row Option (List (Row × ℕ)) :=
  match find compareFe idx_t key with
  | none => throw key
  | some idx => return OrderedMap.insert compareFe (key, idx) s

def calculateH1H2 (f t : List Row) : Sorter := do
  let (idx_t, s) := t.zipIdx.foldl insertT ([], [])
  let s ← f.foldlM (insertF idx_t) s
  let s_sorted := s.foldl
    (fun m p => OrderedMap.insert (fun i j => decide (i < j)) (p.2, p.1) m) ([] : List (ℕ × Row))
  return takeTurns (s_sorted.map Prod.snd)

/-! ## With a counter for every row of the table -/

/-- `++counter[indx]`, of type `int` -/
def increment (counter : ℕ → ℤ) (indx : ℕ) : ExceptT Row Option (ℕ → ℤ) :=
  if counter indx + 1 < 2 ^ 31 then return Function.update counter indx (counter indx + 1)
  else ExceptT.mk none

/-- The loop over the rows of `f`; `look` is how a row is looked up. -/
def countRows (look : Row → ExceptT Row Option ℕ) (f : List Row) : ExceptT Row Option (ℕ → ℤ) :=
  f.foldlM
    (fun counter key => do
      let indx ← look key
      increment counter indx) fun _ => 1

/-- The next row that still has a count. -/
def takeRow (t : List Row) (s : ℕ × (ℕ → ℤ)) : Option ((ℕ × (ℕ → ℤ)) × Row) := do
  let _ ← t[s.1]?
  let id := if s.2 s.1 = 0 then s.1 + 1 else s.1
  let row ← t[id]?
  return ((id, Function.update s.2 id (s.2 id - 1)), row)

/-- The loop that writes `h1` and `h2`. -/
def writeOut (t : List Row) (counter : ℕ → ℤ) : Option (List Row × List Row) := do
  let (_, h1, h2) ← (List.range t.length).foldlM
    (fun (s : (ℕ × (ℕ → ℤ)) × List Row × List Row) _ => do
      let (s1, row1) ← takeRow t s.1
      let (s2, row2) ← takeRow t s1
      return (s2, s.2.1 ++ [row1], s.2.2 ++ [row2])) ((0, counter), [], [])
  return (h1, h2)

/-- `idx_t[key]`, where an index is one more than that of the row. -/
def look_ (idx_t : List (Row × ℕ)) (key : Row) : ExceptT Row Option ℕ :=
  let indx := (find compareFe idx_t key).getD 0
  if indx = 0 then throw key else return indx - 1

def calculateH1H2_ (f t : List Row) : Sorter := do
  let idx_t := t.zipIdx.foldl (fun m p => assign compareFe p.1 (p.2 + 1) m) []
  let counter ← countRows (look_ idx_t) f
  writeOut t counter

/-! ## With a hash table in a buffer -/

/-- The state of the loop over the table. -/
structure HashTable where
  buffer : ℕ → ℕ
  touched : ℕ → Bool
  pos : ℕ

section HashTable

variable (d size_keys : ℕ)

/-- Word `c` of entry `e`: the offset and the sums are of type `uint32_t`. -/
def slot (e c : ℕ) : ℕ := ((size_keys + (d + 2) * e) % 2 ^ 32 + c) % 2 ^ 32

/-- The key of an entry. -/
def readKey (buffer : ℕ → ℕ) (e : ℕ) : List ℕ := (List.range d).map fun c => buffer (slot d size_keys e c)

/-- A new entry: the key, the index of its row, and the end of the chain. -/
def writeEntry (buffer : ℕ → ℕ) (e : ℕ) (key : List ℕ) (i : ℕ) : ℕ → ℕ :=
  forUpTo (d + 2)
    (fun c buffer => Function.update buffer (slot d size_keys e c) ((key ++ [i, 0]).getD c 0)) buffer

/-- The search of both loops: an entry with the key, or the last one of its chain. -/
def search (fuel : ℕ) (buffer : ℕ → ℕ) (key : List ℕ) (ind : ℕ) : Option (Bool × ℕ) :=
  HashChain.walk (fun e => decide (readKey d size_keys buffer e = key))
    (fun e => buffer (slot d size_keys e (d + 1))) fuel (buffer ind)

/-- Row `i` of the table. -/
def insertRow (fuel : ℕ) (st : HashTable) (p : Row × ℕ) : Option HashTable :=
  let key := toVectorU64 p.1
  let ind := key.getD 0 0 % size_keys
  if st.touched ind = false then
    some {
      buffer := writeEntry d size_keys (Function.update st.buffer ind st.pos) st.pos key p.2
      touched := Function.update st.touched ind true
      pos := (st.pos + 1) % 2 ^ 32 }
  else do
    let (found, e) ← search d size_keys fuel st.buffer key ind
    if found then
      return { st with buffer := Function.update st.buffer (slot d size_keys e d) p.2 }
    else
      return { st with
        buffer := writeEntry d size_keys
          (Function.update st.buffer (slot d size_keys e (d + 1)) st.pos) st.pos key p.2
        pos := (st.pos + 1) % 2 ^ 32 }

/-- A row of `f`. -/
def findRow (fuel : ℕ) (st : HashTable) (row : Row) : ExceptT Row Option ℕ := do
  let key := toVectorU64 row
  let ind := key.getD 0 0 % size_keys
  if st.touched ind = false then throw row
  else
    let (found, e) ← (search d size_keys fuel st.buffer key ind : Option (Bool × ℕ))
    if found then return st.buffer (slot d size_keys e d) else throw row

/-- The versions with a buffer; a search takes at most `fuel` steps. -/
def calculateH1H2_opt (f t : List Row) (buffer : ℕ → ℕ) (fuel : ℕ) : Sorter := do
  let st ← (t.zipIdx.foldlM (insertRow d size_keys fuel) ⟨buffer, fun _ => false, 0⟩ : Option HashTable)
  let counter ← countRows (findRow d size_keys fuel st) f
  writeOut t counter

end HashTable

/-- For one column. -/
def calculateH1H2_opt1 : (size_keys : ℕ) → (f t : List Row) → (buffer : ℕ → ℕ) → (fuel : ℕ) → Sorter :=
  calculateH1H2_opt 1

/-- For three columns. -/
def calculateH1H2_opt3 : (size_keys : ℕ) → (f t : List Row) → (buffer : ℕ → ℕ) → (fuel : ℕ) → Sorter :=
  calculateH1H2_opt 3

end ZkevmProver.Plookup
