import ZkevmProver.Lib.RingWindow
import ZkevmProver.Utils.Goldilocks

/-!
# The associative cache of tree nodes

Keys and values are kept in a ring of `cacheSize` slots; a table of `indexesSize` entries holds
32-bit insertion numbers, and a key is looked for in the four entries its elements select.  All
index arithmetic is that of the source, in 32 bits, and an access outside an array is undefined.

  1. The arrays, and `postConstruct`.
  2. `emptyCacheSlot`, and the scan of the four entries.
  3. `addKeyValue`, `forcedInsertion` and `findKey`.
  4. Runs of calls.
-/

namespace ZkevmProver

/-- A key, as four raw 64-bit words. -/
structure CacheKey where
  fe0 : ℕ
  fe1 : ℕ
  fe2 : ℕ
  fe3 : ℕ
  deriving DecidableEq

def CacheKey.toList (key : CacheKey) : List ℕ := [key.fe0, key.fe1, key.fe2, key.fe3]

namespace AssociativeCache

open RingWindow

/-- How a call may fail to return: the process exits, or the behaviour is undefined. -/
inductive Failure where
  | exitProcess
  | undefinedBehaviour
  deriving DecidableEq

/-- A 32-bit word. -/
def u32 (n : ℕ) : ℕ := n % 2 ^ 32

def UINT32_MAX : ℕ := 2 ^ 32 - 1

/-! ## Arrays -/

structure Cache where
  indexesSize : ℕ
  cacheSize : ℕ
  indexes : ℕ → ℕ
  keys : ℕ → ℕ
  values : ℕ → Fe
  currentCacheIndex : ℕ

namespace Cache

variable (c : Cache)

def indexesMask : ℕ := c.indexesSize - 1

def cacheMask : ℕ := c.cacheSize - 1

/-- How many elements `new Goldilocks::Element[4 * cacheSize]` allocates. -/
def keysLength : ℕ := u32 (4 * c.cacheSize)

/-- How many elements `new Goldilocks::Element[12 * cacheSize]` allocates. -/
def valuesLength : ℕ := u32 (12 * c.cacheSize)

end Cache

/-- `1 << n` on an `int`, as an unsigned word: undefined from 32 on. -/
def shiftOne (n : ℕ) : Except Failure ℕ :=
  if 32 ≤ n then .error .undefinedBehaviour else .ok (2 ^ n)

/-- `postConstruct`, over the memory that `new` returns. -/
def postConstruct (log2IndexesSize log2CacheSize : ℕ) (keys : ℕ → ℕ) (values : ℕ → Fe) :
    Except Failure Cache :=
  if 32 < log2IndexesSize then .error .exitProcess
  else do
    let indexesSize ← shiftOne log2IndexesSize
    if 32 < log2CacheSize then .error .exitProcess
    else do
      let cacheSize ← shiftOne log2CacheSize
      let initValue := u32 (UINT32_MAX + 2 ^ 32 - cacheSize - 1)
      return { indexesSize, cacheSize, indexes := fun _ => initValue, keys, values,
               currentCacheIndex := 0 }

namespace Cache

/-! ## The four entries of a key -/

/-- `emptyCacheSlot`. -/
def emptyCacheSlot (c : Cache) (cacheIndexRaw : ℕ) : Bool :=
  (cacheIndexRaw ≤ c.currentCacheIndex ∧ c.cacheSize < c.currentCacheIndex - cacheIndexRaw) ∨
    (c.currentCacheIndex < cacheIndexRaw ∧
      c.cacheSize < UINT32_MAX - cacheIndexRaw + c.currentCacheIndex)

/-- The entry that an element of a key selects. -/
def tableIndex (c : Cache) (fe : ℕ) : ℕ := u32 (fe &&& c.indexesMask)

/-- The key in slot `cacheIndex`. -/
def keyAt (c : Cache) (cacheIndex : ℕ) : Except Failure (List ℕ) :=
  let cacheIndexKey := u32 (cacheIndex * 4)
  if cacheIndexKey + 4 ≤ c.keysLength then .ok (readBlock c.keys cacheIndexKey 4)
  else .error .undefinedBehaviour

/-- What the scan of the entries finds: the slot of the key, or the first empty entry. -/
inductive Scan where
  | present (cacheIndex : ℕ)
  | absent (tableIndexEmpty : Option ℕ)

/-- The loop of `addKeyValue` and of `findKey` over the elements of a key. -/
def scan (c : Cache) (key : CacheKey) : List ℕ → Option ℕ → Except Failure Scan
  | [], empty => .ok (.absent empty)
  | fe :: fes, empty => do
    let cacheIndexRaw := c.indexes (c.tableIndex fe)
    let cacheIndex := cacheIndexRaw &&& c.cacheMask
    if c.emptyCacheSlot cacheIndexRaw then
      c.scan key fes (empty <|> some (c.tableIndex fe))
    else
      if (← c.keyAt cacheIndex) = key.toList then .ok (.present cacheIndex)
      else c.scan key fes empty

/-! ## The calls -/

/-- The twelve elements that a value is stored as; `none` when the source reads past its end. -/
def storedValue (value : List Fe) : Option (List Fe) :=
  if 12 ≤ value.length then some (value.take 12)
  else if value.length = 8 then some (value ++ [0, 0, 0, 0]) else none

/-- Writes a key and its value in slot `cacheIndex`. -/
def store (c : Cache) (cacheIndex : ℕ) (key : CacheKey) (value : List Fe) : Except Failure Cache :=
  let cacheIndexKey := u32 (cacheIndex * 4)
  let cacheIndexValue := u32 (cacheIndex * 12)
  match storedValue value with
  | none => .error .undefinedBehaviour
  | some elements =>
    if cacheIndexKey + 4 ≤ c.keysLength ∧ cacheIndexValue + 12 ≤ c.valuesLength then
      .ok { c with
        keys := writeBlock c.keys cacheIndexKey key.toList
        values := writeBlock c.values cacheIndexValue elements }
    else .error .undefinedBehaviour

/-- What `forcedInsertion` finds for a key: an empty entry, or the one to displace, if any. -/
inductive Victim where
  | empty (tableIndex : ℕ)
  | displace (best : Option (ℕ × ℕ))

/-- The loop of `forcedInsertion`; `best` is the smallest insertion number so far, and its entry. -/
def findVictim (c : Cache) (used : List ℕ) : List ℕ → Option (ℕ × ℕ) → Victim
  | [], best => .displace best
  | fe :: fes, best =>
    let tableIndex := c.tableIndex fe
    let rawCacheIndex := c.indexes tableIndex
    if c.emptyCacheSlot rawCacheIndex then .empty tableIndex
    else
      let minRawCacheIndex := (best.map Prod.fst).getD UINT32_MAX
      if rawCacheIndex ∉ used ∧ rawCacheIndex < minRawCacheIndex then
        c.findVictim used fes (some (rawCacheIndex, tableIndex))
      else c.findVictim used fes best

/-- `indexes[tableIndex] = rawCacheIndex`. -/
def setIndex (c : Cache) (tableIndex rawCacheIndex : ℕ) : Cache :=
  { c with indexes := Function.update c.indexes tableIndex rawCacheIndex }

/-- `forcedInsertion`, with the iterations that are left; the input is the last number used. -/
def forcedInsertion (c : Cache) : ℕ → ℕ → List ℕ → Except Failure Cache
  | 0, _, _ => .error .exitProcess
  | iters + 1, inputRawCacheIndex, used => do
    let cacheIndexKey := (inputRawCacheIndex &&& c.cacheMask) * 4
    if c.keysLength < cacheIndexKey + 4 then .error .undefinedBehaviour
    else
      match c.findVictim (inputRawCacheIndex :: used) (readBlock c.keys cacheIndexKey 4) none with
      | .empty tableIndex => .ok (c.setIndex tableIndex inputRawCacheIndex)
      | .displace none => .error .exitProcess
      | .displace (some (minRawCacheIndex, tableIndex)) =>
        (c.setIndex tableIndex inputRawCacheIndex).forcedInsertion iters minRawCacheIndex
          (inputRawCacheIndex :: used)

/-- The next insertion number. -/
def advance (c : Cache) : Cache :=
  { c with
    currentCacheIndex := if c.currentCacheIndex = UINT32_MAX then 0 else c.currentCacheIndex + 1 }

/-- `addKeyValue`. -/
def addKeyValue (c : Cache) (key : CacheKey) (value : List Fe) (update : Bool) :
    Except Failure Cache := do
  match ← c.scan key key.toList none with
  | .present cacheIndex => if update then c.store cacheIndex key value else .ok c
  | .absent empty =>
    let c₁ := match empty with
      | some tableIndexEmpty => c.setIndex tableIndexEmpty c.currentCacheIndex
      | none => c
    let cacheIndex := u32 (c.currentCacheIndex &&& c.cacheMask)
    let c₂ ← c₁.advance.store cacheIndex key value
    match empty with
    | some _ => .ok c₂
    | none => c₂.forcedInsertion 9 (u32 (c₂.currentCacheIndex + 2 ^ 32 - 1)) []

/-- `findKey`: the value, when the key is found. -/
def findKey (c : Cache) (key : CacheKey) : Except Failure (Option (List Fe)) := do
  match ← c.scan key key.toList none with
  | .present cacheIndex =>
    let cacheIndexValue := u32 (cacheIndex * 12)
    if cacheIndexValue + 12 ≤ c.valuesLength then
      .ok (some (readBlock c.values cacheIndexValue 12))
    else .error .undefinedBehaviour
  | .absent _ => .ok none

end Cache

/-! ## Runs -/

/-- A call of the cache. -/
inductive Call where
  | addKeyValue (key : CacheKey) (value : List Fe) (update : Bool)
  | findKey (key : CacheKey)

/-- The cache after a call. -/
def Cache.call (c : Cache) : Call → Except Failure Cache
  | .addKeyValue key value update => c.addKeyValue key value update
  | .findKey key => (c.findKey key).map fun _ => c

/-- The cache after a list of calls, the last one first. -/
def Cache.calls (c : Cache) : List Call → Except Failure Cache
  | [] => .ok c
  | call :: before => c.calls before >>= fun c => c.call call

end AssociativeCache

end ZkevmProver
