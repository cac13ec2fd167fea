import Mathlib.Data.List.AList
import ZkevmProver.HashDB.SmtTypes
import ZkevmProver.HashDB64.KVTree

/-!
# The state manager of the paged database

The state manager keeps, for every batch that is not consolidated yet, the values that its
transactions wrote: one sub-state for each call of `set`, and one `KVTree` with the values of all of
them.  A second container lists the batches in the order of their creation.

State roots and keys are strings of 64 digits in the source, and a root is empty before it is set:
here they are `Fea`, and `Option Fea`.

1. The data
2. `setStateRoot`
3. `write`, `writeProgram`, `read` and `readProgram`
4. `finishTx`, `startBlock` and `finishBlock`
5. `set` and `get`
-/

namespace ZkevmProver

/-! ## The data -/

structure TxSubState64 where
  oldStateRoot : Option Fea := none
  newStateRoot : Option Fea := none
  previousSubState : ℕ := 0
  bValid : Bool := false
  /-- One value for each key. -/
  dbWrite : List (Fea × ℤ) := []

structure TxPersistenceState64 where
  oldStateRoot : Option Fea := none
  newStateRoot : Option Fea := none
  currentSubState : ℕ := 0
  subState : List TxSubState64 := []
  dbPrograms : List (Fea × List UInt8) := []

structure TxState64 where
  persistence : Persistence → TxPersistenceState64 := fun _ => {}

structure BlockState64 where
  oldStateRoot : Option Fea := none
  currentStateRoot : Option Fea := none
  currentTx : ℕ := 0
  txState : List TxState64 := []

/-- `keyValueTree.postConstruct(4)` -/
def KVTree.postConstruct4 : KVTree := (KVTree.new 4).get (by decide)

structure BatchState64 where
  oldStateRoot : Option Fea := none
  currentStateRoot : Option Fea := none
  currentBlock : ℕ := 0
  blockState : List BlockState64 := []
  keyValueTree : KVTree := .postConstruct4
  dbPrograms : List (Fea × List UInt8) := []

abbrev BatchUUID := String

structure StateManager64 where
  state : AList fun _ : BatchUUID => BatchState64 := ∅
  /-- Batch UUIDs in order of creation. -/
  stateOrder : List BatchUUID := []
  lastVirtualStateRoot : ℕ := 0
  lastConsolidatedStateRoot : Fea := 0
  /-- Empty until the first root is set. -/
  lastConsolidatedStateRootString : Option Fea := none

/-- Why a call does not return. -/
inductive Halt where
  | exitProcess
  /-- An access out of the bounds of a vector, or another operation that C++ does not define. -/
  | undefined
  | endless
  deriving DecidableEq

/-- A call that returns made calls that return. -/
theorem bind_eq_ok {ε α β : Type} {x : Except ε α} {f : α → Except ε β} {r : β}
    (h : x >>= f = .ok r) : ∃ a, x = .ok a ∧ f a = .ok r := by
  cases x with
  | error e => cases h
  | ok a => exact ⟨a, rfl, h⟩

/-- What a function of the state manager returns, and the state it leaves. -/
abbrev SM64Result (α : Type) := Except Halt (Except ZkResult α × StateManager64)

/-- The words of a key for the tree. -/
def Fea.toKeyWords (key : Fea) : KeyWords :=
  ⟨.ofNat 64 (toU64 key.fe0), .ofNat 64 (toU64 key.fe1), .ofNat 64 (toU64 key.fe2),
    .ofNat 64 (toU64 key.fe3)⟩

/-- `map[key] = value` -/
def insertKey {α : Type} (m : List (Fea × α)) (key : Fea) (value : α) : List (Fea × α) :=
  (key, value) :: m.filter fun e => e.1 ≠ key

namespace TxState64

def modify (t : TxState64) (p : Persistence) (f : TxPersistenceState64 → TxPersistenceState64) :
    TxState64 :=
  ⟨Function.update t.persistence p (f (t.persistence p))⟩

end TxState64

namespace BatchState64

def modifyBlock (b : BatchState64) (block : ℕ) (f : BlockState64 → BlockState64) : BatchState64 :=
  { b with blockState := b.blockState.modify block f }

/-- Changes `blockState[block].txState[tx].persistence[p]`. -/
def modifyPersistence (b : BatchState64) (block tx : ℕ) (p : Persistence)
    (f : TxPersistenceState64 → TxPersistenceState64) : BatchState64 :=
  b.modifyBlock block fun bl => { bl with txState := bl.txState.modify tx fun t => t.modify p f }

/-- `blockState[block].txState[tx].persistence[p]` -/
def getPersistence (b : BatchState64) (block tx : ℕ) (p : Persistence) :
    Option TxPersistenceState64 :=
  (b.blockState[block]?.bind fun bl => bl.txState[tx]?).map fun t => t.persistence p

end BatchState64

/-! ## `setStateRoot` -/

namespace KVTree

/-- Extracts values one after the other, up to the first key that is not found. -/
def extractAll (kv : KVTree) : List (Fea × ℤ) → Except Halt (Bool × KVTree)
  | [] => .ok (true, kv)
  | (key, value) :: rest =>
    match kv.extract key.toKeyWords value with
    | none => .error .exitProcess
    | some (kv, .success) => extractAll kv rest
    | some (kv, .keyNotFound) => .ok (false, kv)

end KVTree

namespace TxPersistenceState64

/-- The values written after every sub-state that ended at a root. -/
def writtenAfter (stateRoot : Fea) : List TxSubState64 → List (Fea × ℤ)
  | [] => []
  | ss :: rest =>
    (if ss.newStateRoot = some stateRoot then rest.flatMap TxSubState64.dbWrite else []) ++
      writtenAfter stateRoot rest

/-- Whether a new sub-state can start. -/
def canStart (ps : TxPersistenceState64) : Bool :=
  match ps.subState.getLast? with
  | none => ps.currentSubState = 0
  | some last => ps.currentSubState < ps.subState.length ∧ last.newStateRoot ≠ none

/-- Records the root where the transaction starts, with its first sub-state. -/
def recordOld (ps : TxPersistenceState64) (stateRoot : Fea) : TxPersistenceState64 :=
  if ps.subState = [] then { ps with oldStateRoot := some stateRoot } else ps

/-- A new sub-state that starts from a root. -/
def pushSubState (ps : TxPersistenceState64) (stateRoot : Fea) : TxPersistenceState64 :=
  { ps with
    subState := ps.subState ++
      [{ oldStateRoot := some stateRoot, previousSubState := ps.currentSubState }]
    currentSubState := ps.subState.length }

/-- Changes the current sub-state. -/
def modifyCurrent (ps : TxPersistenceState64) (f : TxSubState64 → TxSubState64) :
    TxPersistenceState64 :=
  { ps with subState := ps.subState.modify ps.currentSubState f }

/-- `setStateRoot` with a new state root, for a transaction; `none` where it returns an error. -/
def setNew (ps : TxPersistenceState64) (stateRoot : Fea) : Option TxPersistenceState64 :=
  match ps.subState[ps.currentSubState]? with
  | none => none
  | some s =>
    if s.newStateRoot ≠ none then none
    else some { ps.modifyCurrent fun s => { s with newStateRoot := some stateRoot } with
      newStateRoot := some stateRoot }

end TxPersistenceState64

/-- What `setStateRoot` records in the block: its first stored old state root, or the current one. -/
def BlockState64.recordRoot (bl : BlockState64) (stateRoot : Fea) (bIsOldStateRoot : Bool)
    (p : Persistence) : BlockState64 :=
  { bl with
    oldStateRoot :=
      if bl.oldStateRoot = none ∧ p.isStored ∧ bIsOldStateRoot then some stateRoot
      else bl.oldStateRoot
    currentStateRoot :=
      if p.isStored ∧ !bIsOldStateRoot then some stateRoot else bl.currentStateRoot }

namespace BatchState64

/-- Creates the blocks up to a block, if they are missing. -/
def ensureBlock (b : BatchState64) (block : ℕ) : BatchState64 :=
  if b.blockState.length ≤ block then
    { b with
      blockState := b.blockState ++ List.replicate (block - b.blockState.length + 1) {}
      currentBlock := block }
  else b

/-- What `setStateRoot` records in the batch: its first stored old state root, and the current one. -/
def recordCurrent (b : BatchState64) (stateRoot : Fea) (bIsOldStateRoot : Bool) (p : Persistence) :
    BatchState64 :=
  { b with
    oldStateRoot :=
      if b.oldStateRoot = none ∧ p.isStored ∧ bIsOldStateRoot then some stateRoot else b.oldStateRoot
    currentStateRoot := some stateRoot }

/-- What `setStateRoot` records in the batch and in the block. -/
def recordRoot (b : BatchState64) (block : ℕ) (stateRoot : Fea) (bIsOldStateRoot : Bool)
    (p : Persistence) : BatchState64 :=
  ((b.recordCurrent stateRoot bIsOldStateRoot p).ensureBlock block).modifyBlock block fun bl =>
    bl.recordRoot stateRoot bIsOldStateRoot p

/-- Creates the transactions of a block up to a transaction, if they are missing. -/
def ensureTx (b : BatchState64) (block tx : ℕ) : BatchState64 :=
  b.modifyBlock block fun bl =>
    if bl.txState.length ≤ tx then
      { bl with
        txState := bl.txState ++ List.replicate (tx - bl.txState.length + 1) {}
        currentTx := tx }
    else bl

/-- Whether a block has a transaction. -/
def hasTx (b : BatchState64) (block tx : ℕ) : Bool :=
  (b.blockState[block]?.bind fun bl => bl.txState[tx]?).isSome

/-- `setStateRoot` with an old state root, for a transaction. -/
def setOld (b : BatchState64) (block tx : ℕ) (stateRoot : Fea) (p : Persistence) :
    Except Halt (Except ZkResult Unit × BatchState64) :=
  let ps := (b.getPersistence block tx p).getD {}
  if !ps.canStart then .ok (.error .stateManager, b)
  else
    let ps := ps.recordOld stateRoot
    -- the keys of the sub-states that come after the root are deleted
    let written := TxPersistenceState64.writtenAfter stateRoot ps.subState
    match b.keyValueTree.extractAll written with
    | .error h => .error h
    | .ok (found, keyValueTree) =>
      let b := { b with keyValueTree := keyValueTree }
      if !found then .ok (.error .stateManager, b.modifyPersistence block tx p fun _ => ps)
      else .ok (.ok (), b.modifyPersistence block tx p fun _ => ps.pushSubState stateRoot)

def setStateRoot (b : BatchState64) (block tx : ℕ) (stateRoot : Fea) (bIsOldStateRoot : Bool)
    (p : Persistence) : Except Halt (Except ZkResult Unit × BatchState64) :=
  let b := b.recordRoot block stateRoot bIsOldStateRoot p
  if !b.hasTx block tx && !bIsOldStateRoot then .ok (.error .stateManager, b)
  else
    let b := b.ensureTx block tx
    if bIsOldStateRoot then b.setOld block tx stateRoot p
    else
      match ((b.getPersistence block tx p).getD {}).setNew stateRoot with
      | none => .ok (.error .stateManager, b)
      | some ps => .ok (.ok (), b.modifyPersistence block tx p fun _ => ps)

end BatchState64

namespace StateManager64

variable (s : StateManager64)

/-- Changes a batch of the state, which stays where it is in the order. -/
def setBatch (batchUUID : BatchUUID) (b : BatchState64) : StateManager64 :=
  { s with state := s.state.insert batchUUID b }

/-- Creates a batch, if it does not exist. -/
def ensureBatch (batchUUID : BatchUUID) : StateManager64 × BatchState64 :=
  match s.state.lookup batchUUID with
  | some b => (s, b)
  | none =>
    ({ s with state := s.state.insert batchUUID {}, stateOrder := s.stateOrder ++ [batchUUID] }, {})

/-- Stores the batch that a function leaves. -/
def withBatch {α : Type} (batchUUID : BatchUUID)
    (r : Except Halt (Except ZkResult α × BatchState64)) : SM64Result α :=
  r.map fun (zkr, b) => (zkr, s.setBatch batchUUID b)

def setStateRoot (batchUUID : BatchUUID) (block tx : ℕ) (stateRoot : Fea) (bIsOldStateRoot : Bool)
    (p : Persistence) : SM64Result Unit :=
  if s.state.lookup batchUUID = none ∧ !bIsOldStateRoot then .ok (.error .stateManager, s)
  else
    let (s, b) := s.ensureBatch batchUUID
    s.withBatch batchUUID (b.setStateRoot block tx stateRoot bIsOldStateRoot p)

/-! ## Values and programs -/

end StateManager64

namespace BatchState64

/-- Creates the transaction that comes next, if it is asked for. -/
def addTx (b : BatchState64) (block tx : ℕ) (p : Persistence) : BatchState64 :=
  b.modifyBlock block fun bl =>
    if tx = bl.txState.length then
      { bl with
        txState := bl.txState ++
          [({} : TxState64).modify p fun ps => { ps with oldStateRoot := b.currentStateRoot }] }
    else bl

/-- Creates the first sub-state, if there is none. -/
def addSubState (b : BatchState64) (block tx : ℕ) (p : Persistence) : BatchState64 :=
  b.modifyPersistence block tx p fun ps =>
    if ps.subState.length = 0 then
      { ps with subState := [{ oldStateRoot := b.currentStateRoot }], currentSubState := 0 }
    else ps

/-- `write`, in a batch.  It returns the level of the key in the tree. -/
def write (b : BatchState64) (block tx : ℕ) (key : Fea) (value : ℤ) (p : Persistence) :
    Except Halt (Except ZkResult ℕ × BatchState64) :=
  match b.blockState[block]? with
  | none => .ok (.error .stateManager, b)
  | some bl =>
    if bl.txState.length < tx then .ok (.error .stateManager, b)
    else
      let b := (b.addTx block tx p).addSubState block tx p
      let ps := (b.getPersistence block tx p).getD {}
      match ps.subState[ps.currentSubState]?, b.keyValueTree.write key.toKeyWords value with
      | some _, some (keyValueTree, level) =>
        .ok (.ok level, { b with keyValueTree := keyValueTree }.modifyPersistence block tx p fun ps =>
          ps.modifyCurrent fun ss => { ss with dbWrite := insertKey ss.dbWrite key value })
      | _, _ => .error .undefined

def writeProgram (b : BatchState64) (block tx : ℕ) (key : Fea) (value : List UInt8)
    (p : Persistence) : Except ZkResult Unit × BatchState64 :=
  if block = 0 ∧ b.blockState = [] then (.ok (), b)
  else
    match b.blockState[block]? with
    | none => (.error .stateManager, b)
    | some bl =>
      if bl.txState.length < tx then (.error .stateManager, b)
      else
        let b := (b.addTx block tx p).modifyPersistence block tx p fun ps =>
          { ps with dbPrograms := insertKey ps.dbPrograms key value }
        (.ok (), { b with dbPrograms := insertKey b.dbPrograms key value })

end BatchState64

namespace StateManager64

variable (s : StateManager64)

def write (batchUUID : BatchUUID) (block tx : ℕ) (key : Fea) (value : ℤ) (p : Persistence) :
    SM64Result ℕ :=
  match s.state.lookup batchUUID with
  | none => .ok (.error .stateManager, s)
  | some b => s.withBatch batchUUID (b.write block tx key value p)

def writeProgram (batchUUID : BatchUUID) (block tx : ℕ) (key : Fea) (value : List UInt8)
    (p : Persistence) : SM64Result Unit :=
  let (s, b) := s.ensureBatch batchUUID
  s.withBatch batchUUID (.ok (b.writeProgram block tx key value p))

/-- The value of a key and its level, or `ZKR_DB_KEY_NOT_FOUND` with the level that was looked up. -/
def read (batchUUID : BatchUUID) (key : Fea) : Except Halt (Option ℤ × ℕ) :=
  match s.state.lookup batchUUID with
  | none => .ok (none, 0)
  | some b =>
    match b.keyValueTree.read key.toKeyWords with
    | none => .error .undefined
    | some r => .ok (r.value, r.level)

def readProgram (batchUUID : BatchUUID) (key : Fea) : Option (List UInt8) :=
  (s.state.lookup batchUUID).bind fun b => b.dbPrograms.lookup key

/-! ## Transactions and blocks -/

end StateManager64

namespace TxPersistenceState64

/-- `finishTx`, for a transaction. -/
def finish (ps : TxPersistenceState64) (purge : Bool) (stateRoot : Fea) : TxPersistenceState64 :=
  if ps.newStateRoot = some stateRoot then ps
  else if ps.oldStateRoot = some stateRoot then
    -- the transaction ended up with the root it started from
    if purge then { ps with subState := [], newStateRoot := some stateRoot, currentSubState := 0 }
    else ps
  else if purge then
    -- deletes what comes after the point where this root was reached
    match ps.subState.findIdx? fun ss => ss.oldStateRoot = some stateRoot with
    | some i =>
      { ps with newStateRoot := some stateRoot, currentSubState := i - 1
                subState := ps.subState.take i }
    | none => ps
  else ps

end TxPersistenceState64

namespace BlockState64

/-- `finishBlock`, for a block. -/
def finish (bl : BlockState64) (purge : Bool) (stateRoot : Fea) (p : Persistence)
    (ps : TxPersistenceState64) : BlockState64 :=
  if ps.newStateRoot = some stateRoot then { bl with currentStateRoot := some stateRoot }
  else if ps.oldStateRoot = some stateRoot then
    if purge then { bl with txState := [], currentStateRoot := some stateRoot, currentTx := 0 }
    else bl
  else if purge then
    match bl.txState.findIdx? fun t => (t.persistence p).oldStateRoot = some stateRoot with
    | some i =>
      { bl with currentStateRoot := some stateRoot, currentTx := i - 1
                txState := bl.txState.take i }
    | none => bl
  else bl

end BlockState64

namespace BatchState64

/-- The current transaction of the current block. -/
def current (b : BatchState64) : Option (BlockState64 × TxState64) :=
  b.blockState[b.currentBlock]?.bind fun bl => bl.txState[bl.currentTx]?.map fun t => (bl, t)

def finishTx (b : BatchState64) (purge : Bool) (stateRoot : Fea) (p : Persistence) :
    Except ZkResult Unit × BatchState64 :=
  match b.current with
  | none => (.error .stateManager, b)
  | some (bl, _) =>
    (.ok (), b.modifyPersistence b.currentBlock bl.currentTx p fun ps => ps.finish purge stateRoot)

def startBlock (b : BatchState64) (stateRoot : Fea) : Except ZkResult Unit × BatchState64 :=
  if b.blockState ≠ [] ∧ b.blockState.length ≤ b.currentBlock then (.error .stateManager, b)
  else (.ok (), { b with
    blockState := b.blockState ++ [{ oldStateRoot := some stateRoot }]
    currentBlock := b.blockState.length })

def finishBlock (b : BatchState64) (purge : Bool) (stateRoot : Fea) (p : Persistence) :
    Except ZkResult Unit × BatchState64 :=
  match b.current with
  | none => (.error .stateManager, b)
  | some (_, t) =>
    (.ok (), b.modifyBlock b.currentBlock fun bl => bl.finish purge stateRoot p (t.persistence p))

end BatchState64

namespace StateManager64

variable (s : StateManager64)

def finishTx (purge : Bool) (batchUUID : BatchUUID) (stateRoot : Fea) (p : Persistence) :
    SM64Result Unit :=
  match s.state.lookup batchUUID with
  | none => .ok (.ok (), s)
  | some b => s.withBatch batchUUID (.ok (b.finishTx purge stateRoot p))

def startBlock (batchUUID : BatchUUID) (stateRoot : Fea) (_p : Persistence) : SM64Result Unit :=
  let (s, b) := s.ensureBatch batchUUID
  s.withBatch batchUUID (.ok (b.startBlock stateRoot))

def finishBlock (purge : Bool) (batchUUID : BatchUUID) (stateRoot : Fea) (p : Persistence) :
    SM64Result Unit :=
  match s.state.lookup batchUUID with
  | none => .ok (.ok (), s)
  | some b => s.withBatch batchUUID (.ok (b.finishBlock purge stateRoot p))

end StateManager64

/-! ## `set` and `get` -/

/-- The calls of the state manager to `Database64`, on a database in a state `σ`. -/
structure Database64 (σ : Type) where
  /-- The value and the level of a key under a root. -/
  readKV : σ → Fea → Fea → Except ZkResult (ℤ × ℕ)
  readLevel : σ → Fea → Except ZkResult ℕ
  writeTree : σ → Fea → List (Fea × ℤ) → Bool → Except ZkResult Fea × σ
  setProgram : σ → Fea → List UInt8 → Bool → Except ZkResult Unit × σ
  /-- The flush id and the last flush id that was sent. -/
  flush : σ → Except ZkResult (ℕ × ℕ) × σ

/-- A database without values. -/
def Database64.empty : Database64 Unit where
  readKV _ _ _ := .error .dbKeyNotFound
  readLevel _ _ := .ok 0
  writeTree w _ _ _ := (.ok 0, w)
  setProgram w _ _ _ := (.ok (), w)
  flush w := (.ok (0, 0), w)

structure SmtSetResult64 where
  newRoot : Fea
  proofHashCounter : ℕ
  deriving DecidableEq

structure SmtGetResult64 where
  value : ℤ
  proofHashCounter : ℕ
  deriving DecidableEq

namespace StateManager64

variable {σ : Type} (db : Database64 σ) (w : σ) (s : StateManager64)

def getVirtualStateRoot : StateManager64 × Fea :=
  let n := (s.lastVirtualStateRoot + 1) % 2 ^ 64
  ({ s with lastVirtualStateRoot := n }, ⟨fromU64 n, 0, 0, 0⟩)

def isVirtualStateRoot (stateRoot : Fea) : Bool :=
  stateRoot.fe1 = 0 ∧ stateRoot.fe2 = 0 ∧ stateRoot.fe3 = 0

def setLastConsolidatedStateRoot (root : Fea) : StateManager64 :=
  { s with lastConsolidatedStateRoot := root, lastConsolidatedStateRootString := some root }

/-- `set` of a batch, with the state manager in use.  The errors of the calls it makes are logged
only. -/
def set (batchUUID : BatchUUID) (block tx : ℕ) (oldRoot key : Fea) (value : ℤ) (p : Persistence) :
    Except Halt (SmtSetResult64 × StateManager64) := do
  let (_, s) ← s.setStateRoot batchUUID block tx oldRoot true p
  let (zkr, s) ← s.write batchUUID block tx key value p
  let level := match zkr with
    | .error _ => 0
    | .ok stateManagerLevel =>
      match db.readLevel w key with
      | .error _ => 128
      | .ok databaseLevel => max stateManagerLevel databaseLevel
  let (s, newRoot) := s.getVirtualStateRoot
  let (_, s) ← s.setStateRoot batchUUID block tx newRoot false p
  return (⟨newRoot, level + 2⟩, s)

/-- `get` of a batch, with the state manager in use. -/
def get (batchUUID : BatchUUID) (_root key : Fea) : Except Halt (Except ZkResult SmtGetResult64) := do
  let (value?, stateManagerLevel) ← s.read batchUUID key
  match value? with
  | some value =>
    let level := match db.readLevel w key with
      | .error _ => 128
      | .ok databaseLevel => max stateManagerLevel databaseLevel
    return .ok ⟨value, level + 2⟩
  | none =>
    -- the key has no value in the batch, and then none in the database
    let notFound : Except ZkResult SmtGetResult64 :=
      match db.readLevel w key with
      | .error zkr => .error zkr
      | .ok databaseLevel => .ok ⟨0, max databaseLevel stateManagerLevel + 2⟩
    if s.lastConsolidatedStateRoot = 0 then return notFound
    else
      match db.readKV w s.lastConsolidatedStateRoot key with
      | .ok (value, databaseLevel) => return .ok ⟨value, databaseLevel + 2⟩
      | .error .dbKeyNotFound => return notFound
      | .error zkr => return .error zkr

end StateManager64

end ZkevmProver
