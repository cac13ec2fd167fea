import ZkevmProver.Lib.LinkedRecords
import ZkevmProver.Lib.Transitions
import ZkevmProver.Utils.Text

/-!
# The database cache

Records of keys and values in a doubly linked list, the last used at its head, and a map from keys to
records.  A new record is charged to `currentSize`, and the records at the end are freed while it is above
`maxSize`.  Following a null pointer, or one to a freed record, has no result.

  1. Records: `allocRecord`, `updateRecord`.
  2. `findKey`, `addKeyValue`, `clear`, and the `add` and `find` over them.
  3. Sequences of calls.
-/

namespace ZkevmProver

open LinkedRecords

/-! ## Records -/

/-- A `vector<T>`: its elements, and how many there is room for. -/
structure CacheVector (α : Type) where
  elems : List α
  capacity : ℕ
  deriving DecidableEq

namespace CacheVector

variable {α : Type}

def empty : CacheVector α := ⟨[], 0⟩

/-- The assignment of a vector, which allocates when there is no room for the elements. -/
def assign (v : CacheVector α) (elems : List α) : CacheVector α :=
  ⟨elems, if v.capacity < elems.length then elems.length else v.capacity⟩

end CacheVector

/-- `capacity()` of a string that was assigned this text: 15 bytes are stored in place, and the first
allocation is of twice as many at least. -/
def stringCapacity (s : Text) : ℕ :=
  if s.length ≤ 15 then 15 else if s.length < 30 then 30 else s.length

/-- `DatabaseMTCache`, whose values are field elements, and `DatabaseProgramCache`, whose values are
bytes. -/
inductive DatabaseCacheKind
  | mt
  | program
  deriving DecidableEq

/-- `sizeof` of an element of a value. -/
def DatabaseCacheKind.sizeofElement : DatabaseCacheKind → ℕ
  | .mt => 8
  | .program => 1

def sizeofDatabaseCacheRecord : ℕ := 64

def sizeofVector : ℕ := 24

/-- A `DatabaseCacheRecord` without its pointers. -/
structure RecordData (α : Type) where
  key : Text
  value : CacheVector α
  size : ℕ
  deriving DecidableEq

abbrev DatabaseCacheRecord (α : Type) := LinkedRecords.Node (RecordData α)

structure DatabaseCache (α : Type) where
  kind : DatabaseCacheKind
  maxSize : ℕ
  currentSize : ℕ
  cacheMap : Text → Option ℕ
  head : Option ℕ
  last : Option ℕ
  attempts : ℕ
  hits : ℕ
  heap : Heap (RecordData α)
  /-- Where no record has been so far. -/
  fresh : ℕ

namespace DatabaseCache

variable {α : Type}

/-- A cache after `setMaxSize`. -/
def new (kind : DatabaseCacheKind) (maxSize : ℕ) : DatabaseCache α :=
  ⟨kind, maxSize, 0, fun _ => none, none, none, 0, 0, fun _ => none, 0⟩

/-- What a record with this key and this value is charged with. -/
def recordSize (kind : DatabaseCacheKind) (key : Text) (value : CacheVector α) : ℕ :=
  2 * (sizeofDatabaseCacheRecord + (stringCapacity key + 1) + sizeofVector +
    kind.sizeofElement * value.capacity)

def allocRecord (kind : DatabaseCacheKind) (key : Text) (value : List α) : RecordData α :=
  let pValue := CacheVector.empty.assign value
  ⟨key, pValue, recordSize kind key pValue⟩

/-- Assigns the value; the size stays as it is. -/
def updateRecord (record : RecordData α) (value : List α) : RecordData α :=
  { record with value := record.value.assign value }

/-! ## Calls -/

/-- `record->prev->next = record->next`, and then `record->prev` becomes the last one or
`record->next->prev`. -/
def removeFromPosition (heap : Heap (RecordData α)) (last record : Option ℕ) :
    Option (Heap (RecordData α) × Option ℕ) := do
  let r ← heap.node record
  let heap ← heap.setNext r.prev r.next
  let r ← heap.node record
  if last = record then
    some (heap, r.prev)
  else
    let heap ← heap.setPrev r.next r.prev
    some (heap, last)

/-- `head->prev = record`, `record->prev = NULL`, `record->next = head`. -/
def putOnTop (heap : Heap (RecordData α)) (head record : Option ℕ) : Option (Heap (RecordData α)) := do
  let heap ← heap.setPrev head record
  let heap ← heap.setPrev record none
  heap.setNext record head

/-- The cache, and the record with the key where there is one.  It becomes the head. -/
def findKey (c : DatabaseCache α) (key : Text) : Option (DatabaseCache α × Option ℕ) :=
  let c := { c with attempts := c.attempts + 1 }
  match c.cacheMap key with
  | none => some (c, none)
  | some record =>
    let c := { c with hits := c.hits + 1 }
    if c.head = some record then some (c, some record)
    else do
      let (heap, last) ← removeFromPosition c.heap c.last (some record)
      let heap ← putOnTop heap c.head (some record)
      some ({ c with heap := heap, last := last, head := some record }, some record)

/-- Frees the last records, but not the head, while the cache is above its maximum size. -/
def removeLast : ℕ → DatabaseCache α → Option (DatabaseCache α)
  | 0, _ => none
  | fuel + 1, c =>
    if c.maxSize < c.currentSize then do
      let last ← c.heap.node c.last
      match last.prev with
      | none => some c
      | some prev =>
        let heap ← c.heap.setNext (some prev) none
        let tmp ← heap.node c.last
        -- zkassert(currentSize >= tmp->size)
        guard (tmp.data.size ≤ c.currentSize)
        let heap ← heap.free c.last
        removeLast fuel { c with
          last := some prev
          cacheMap := Function.update c.cacheMap tmp.data.key none
          currentSize := c.currentSize - tmp.data.size
          heap := heap }
    else some c

/-- `record->next` and `last`, or `record->next` and `head->prev`, before the record becomes the head. -/
def linkRecord (heap : Heap (RecordData α)) (head last record : Option ℕ) :
    Option (Heap (RecordData α) × Option ℕ) :=
  if head = none then do
    let heap ← heap.setNext record none
    some (heap, record)
  else do
    let heap ← heap.setNext record head
    let heap ← heap.setPrev head record
    some (heap, last)

/-- A new record at the head of the list, in the map and in the current size. -/
def addRecord (c : DatabaseCache α) (key : Text) (value : List α) : Option (DatabaseCache α) := do
  let record := c.fresh
  let data := allocRecord c.kind key value
  let (heap, last) ← linkRecord (Function.update c.heap record (some ⟨data, none, none⟩))
    c.head c.last (some record)
  some { c with
    fresh := c.fresh + 1
    cacheMap := Function.update c.cacheMap key (some record)
    currentSize := c.currentSize + data.size
    head := some record
    last := last
    heap := heap }

/-- The cache, and whether it is full or the record has been updated. -/
def addKeyValue (c : DatabaseCache α) (key : Text) (value : List α) (update : Bool) :
    Option (DatabaseCache α × Bool) :=
  if c.maxSize = 0 then some (c, true) else do
    let (c, found) ← c.findKey key
    match found with
    | some record =>
      if update then
        let heap ← c.heap.setData (some record) fun r => updateRecord r value
        some ({ c with heap := heap }, true)
      else some (c, false)
    | none =>
      let c ← c.addRecord key value
      let full := decide (c.maxSize < c.currentSize)
      -- as much fuel as there can be records
      let c ← removeLast (c.currentSize + 1) c
      some (c, full)

def freeRecords : ℕ → Heap (RecordData α) → Option ℕ → Option (Heap (RecordData α))
  | 0, _, _ => none
  | _ + 1, heap, none => some heap
  | fuel + 1, heap, some record => do
    let r ← heap.node (some record)
    let heap ← heap.free (some record)
    freeRecords fuel heap r.next

def clear (c : DatabaseCache α) : Option (DatabaseCache α) := do
  let heap ← freeRecords (c.currentSize + 1) c.heap c.head
  some { c with
    heap := heap
    head := none
    last := none
    attempts := 0
    hits := 0
    cacheMap := fun _ => none
    currentSize := 0 }

def add (c : DatabaseCache α) (key : Text) (value : List α) (update : Bool) :
    Option (DatabaseCache α × Bool) :=
  if c.maxSize = 0 then some (c, true) else c.addKeyValue key value update

/-- The cache, and the value of the key where it is found. -/
def find (c : DatabaseCache α) (key : Text) : Option (DatabaseCache α × Option (List α)) :=
  if c.maxSize = 0 then some (c, none) else do
    let (c, found) ← c.findKey key
    match found with
    | none => some (c, none)
    | some record =>
      let r ← c.heap.node (some record)
      some (c, some r.data.value.elems)

/-! ## Sequences of calls -/

inductive Call (α : Type)
  | addKeyValue (key : Text) (value : List α) (update : Bool)
  | findKey (key : Text)
  | clear

def step (c : DatabaseCache α) : Call α → Option (DatabaseCache α)
  | .addKeyValue key value update => (c.addKeyValue key value update).map Prod.fst
  | .findKey key => (c.findKey key).map Prod.fst
  | .clear => c.clear

end DatabaseCache

end ZkevmProver
