import ZkevmProver.HashDB64.LevelTreeLevel

/-!
# The tree of keys and values

A `KVTree` is a level tree with insertion counters, where every key has a stack of values.  The
values of all keys are in one vector, and each of them has the number of the value below it.

1. The data and the operations
2. The specification: `ValueLog`
-/

namespace ZkevmProver

/-! ## The data and the operations -/

structure ListedValue where
  value : ℤ
  /-- The number of the value below. -/
  prev : ℕ

structure KVTree where
  tree : LevelTree
  pileValues : ℕ → ListedValue
  nValues : ℕ
  /-- The last one that was emptied comes first. -/
  emptyValues : List ℕ

/-- `ZKR_SUCCESS` and `ZKR_DB_KEY_NOT_FOUND` -/
inductive KVResult
  | success
  | keyNotFound
  deriving DecidableEq

namespace KVTree

def new (nBitsStep : ℕ) : Option KVTree :=
  (LevelTree.new nBitsStep true).map fun t =>
    { tree := t, pileValues := fun _ => ⟨0, 0⟩, nValues := 0, emptyValues := [] }

variable (kv : KVTree)

structure ReadResult where
  /-- `none` is `ZKR_DB_KEY_NOT_FOUND`. -/
  value : Option ℤ
  level : ℕ
  deriving DecidableEq

def read (key : KeyWords) : Option ReadResult := do
  let r ← kv.tree.level key
  return ⟨r.pileIdx.map fun pileIdx => (kv.pileValues (kv.tree.pile pileIdx).value).value, r.level⟩

/-- The number for the next value. -/
def allocValue : KVTree × ℕ :=
  match kv.emptyValues with
  | idx :: rest => ({ kv with emptyValues := rest }, idx)
  | [] => ({ kv with nValues := kv.nValues + 1 }, kv.nValues)

/-- `pile[pileIdx * 6 + 5] = idx` -/
def setTop (pileIdx idx : ℕ) : KVTree :=
  { kv with tree := kv.tree.setPile pileIdx { kv.tree.pile pileIdx with value := idx } }

/-- `none` where the number does not fit an `int`. -/
def addValue (pileIdx : ℕ) (value : ℤ) : Option KVTree :=
  let (kv, idx) := kv.allocValue
  if idx < 2 ^ 31 then
    -- `prev` is a 32-bit word
    let v : ListedValue := ⟨value, (kv.tree.pile pileIdx).value % 2 ^ 32⟩
    some ({ kv with pileValues := Function.update kv.pileValues idx v }.setTop pileIdx idx)
  else none

def removeValue (pileIdx : ℕ) : KVTree × ℤ :=
  let valIdx := (kv.tree.pile pileIdx).value
  let v := kv.pileValues valIdx
  ({ kv.setTop pileIdx v.prev with emptyValues := valIdx :: kv.emptyValues }, v.value)

def write (key : KeyWords) (value : ℤ) : Option (KVTree × ℕ) := do
  let r ← kv.tree.insert key
  let kv ← { kv with tree := r.tree }.addValue r.pileIdx value
  return (kv, r.level)

/-- `none` where the value is not the last one of the key and the process ends. -/
def extract (key : KeyWords) (value : ℤ) : Option (KVTree × KVResult) := do
  let r ← kv.tree.extract key
  match r.found, r.pileIdx with
  | true, some pileIdx =>
    let (kv, value') := { kv with tree := r.tree }.removeValue pileIdx
    if value' ≠ value then none else return (kv, .success)
  | _, _ => return ({ kv with tree := r.tree }, .keyNotFound)

/-- A call of `write`, `read` or `extract`. -/
inductive Op
  | write (key : KeyWords) (value : ℤ)
  | read (key : KeyWords)
  | extract (key : KeyWords) (value : ℤ)

def step : Op → Option KVTree
  | .write key value => (kv.write key value).map Prod.fst
  | .read key => (kv.read key).map fun _ => kv
  | .extract key value => (kv.extract key value).map Prod.fst

end KVTree

/-! ## The specification -/

/-- The values that were written and not extracted, the last one first. -/
abbrev ValueLog := List (KeyWords × ℤ)

namespace ValueLog

/-- The last value of a key. -/
def last (log : ValueLog) (key : KeyWords) : Option ℤ :=
  (log.find? fun e => e.1 = key).map Prod.snd

def keys (log : ValueLog) : Set KeyWords := {key | ∃ e ∈ log, e.1 = key}

def Step (log : ValueLog) : KVTree.Op → ValueLog → Prop
  | .write key value, log' => log' = (key, value) :: log
  | .read _, log' => log' = log
  | .extract key _, log' => log' = log.eraseP fun e => e.1 = key

/-- A value is extracted when it is the last one of its key. -/
def Extracts (log : ValueLog) : KVTree.Op → Prop
  | .extract key value => ∀ v ∈ log.last key, v = value
  | _ => True

/-- Less than `2 ^ 31` values are stored when another one is written. -/
def Fits (log : ValueLog) : KVTree.Op → Prop
  | .write _ _ => log.length < 2 ^ 31
  | _ => True

end ValueLog

end ZkevmProver
