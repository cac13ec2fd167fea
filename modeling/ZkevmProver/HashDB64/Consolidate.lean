import ZkevmProver.HashDB64.StateManager64

/-!
# Consolidation of batches

`consolidateState` writes to the database the batches that lead to a virtual state root, and forgets
them; `cancelBatch` forgets one batch.

1. `purgeBatch` and `cancelBatch`
2. Writing a batch
3. `consolidateState`
4. The calls of the state manager
-/

namespace ZkevmProver

/-! ## `purgeBatch` and `cancelBatch` -/

namespace TxPersistenceState64

/-- Marks as valid the sub-states that lead to sub-state `cur`, back to the first one, with `n` rounds
left.  It is `false` where they do not start at the old state root of the transaction. -/
def markValid : ℕ → TxPersistenceState64 → ℕ → Except Halt (Bool × TxPersistenceState64)
  | 0, _, _ => .error .endless
  | n + 1, ps, cur =>
    match ps.subState[cur]? with
    | none => .error .undefined
    | some ss =>
      let ps := { ps with subState := ps.subState.modify cur fun ss => { ss with bValid := true } }
      if cur = 0 then .ok (ss.oldStateRoot = ps.oldStateRoot, ps)
      else
        match ps.subState[ss.previousSubState]? with
        | none => .error .undefined
        | some prev =>
          if prev.newStateRoot = ss.oldStateRoot then markValid n ps ss.previousSubState
          else
            match (ps.subState.take cur).findIdx? fun s => s.newStateRoot = ss.oldStateRoot with
            | some i => markValid n ps i
            | none => .ok (ss.oldStateRoot = ps.oldStateRoot, ps)

/-- Deletes the sub-states that do not lead to the new state root of the transaction.  More rounds
than sub-states visit one of them twice, and the loop does not end. -/
def purge (ps : TxPersistenceState64) : Except Halt (Bool × TxPersistenceState64) :=
  if ps.subState = [] then .ok (true, ps)
  else
    match ps.subState[ps.currentSubState]? with
    | none => .error .undefined
    | some ss =>
      if ss.newStateRoot ≠ ps.newStateRoot then .ok (false, ps)
      else do
        let (found, ps) ← markValid (ps.subState.length + 1) ps ps.currentSubState
        if found then return (true, { ps with subState := ps.subState.filter TxSubState64.bValid })
        else return (false, ps)

end TxPersistenceState64

namespace TxState64

/-- The loop over the persistences of a transaction. -/
def purgeAll (t : TxState64) : List Persistence → Except Halt (Bool × TxState64)
  | [] => .ok (true, t)
  | p :: rest =>
    if p = .temporary ∨ p = .temporaryHash then
      -- temporary data can be deleted at the end of a batch
      (t.modify p fun ps => { ps with subState := [], currentSubState := 0 }).purgeAll rest
    else do
      let (found, ps) ← (t.persistence p).purge
      let t := t.modify p fun _ => ps
      if found then t.purgeAll rest else return (false, t)

def purge (t : TxState64) : Except Halt (Bool × TxState64) :=
  t.purgeAll [.cache, .database, .temporary, .temporaryHash]

end TxState64

/-- The loop of a purge over a vector, which stops at the first element that is not purged. -/
def purgeEach {α : Type} (f : α → Except Halt (Bool × α)) : List α → Except Halt (Bool × List α)
  | [] => .ok (true, [])
  | x :: rest => do
    let (found, x) ← f x
    if found then
      let (found, rest) ← purgeEach f rest
      return (found, x :: rest)
    else return (false, x :: rest)

def BlockState64.purge (bl : BlockState64) : Except Halt (Bool × BlockState64) := do
  let (found, txState) ← purgeEach TxState64.purge bl.txState
  return (found, { bl with txState := txState })

/-- The elements of a chain of roots that ends at a root; the last element comes first. -/
def chainTo {α : Type} (oldRoot newRoot : α → Option Fea) : Option Fea → List α → List α
  | _, [] => []
  | root, x :: before =>
    if newRoot x = root then x :: chainTo oldRoot newRoot (oldRoot x) before
    else chainTo oldRoot newRoot root before

namespace BatchState64

/-- Deletes the blocks that do not lead to the current state root. -/
def purgeBlocks (b : BatchState64) : Bool × BatchState64 :=
  -- the block that starts at this root is kept, with those before it
  let blocks :=
    match b.blockState.findIdx? fun bl => bl.oldStateRoot = b.currentStateRoot with
    | some firstBlock => b.blockState.take (firstBlock + 1)
    | none => b.blockState
  -- the last block that ends at this root, and the chain of blocks before it
  match blocks.reverse.span fun bl => bl.currentStateRoot ≠ b.currentStateRoot with
  | (_, []) => (false, { b with blockState := blocks })
  | (after, last :: before) =>
    let chain :=
      chainTo BlockState64.oldStateRoot BlockState64.currentStateRoot last.oldStateRoot before
    let blocks := chain.reverse ++ last :: after.reverse
    (blocks.head?.bind BlockState64.oldStateRoot = b.oldStateRoot, { b with blockState := blocks })

/-- Deletes the blocks of a batch that does not change the state root. -/
def clearUnchanged (b : BatchState64) : BatchState64 :=
  if b.currentStateRoot = b.oldStateRoot then { b with blockState := [], currentBlock := 0 } else b

/-- Deletes the blocks that `config.stateManagerPurge` deletes. -/
def purgeInvalid (purge : Bool) (b : BatchState64) : Bool × BatchState64 :=
  if purge then
    let b := b.clearUnchanged
    if b.blockState ≠ [] ∧ b.oldStateRoot ≠ none then b.purgeBlocks else (true, b)
  else (true, b)

/-- `false` is `ZKR_STATE_MANAGER`. -/
def purgeBatch (purge : Bool) (b : BatchState64) : Except Halt (Bool × BatchState64) :=
  match b.purgeInvalid purge with
  | (false, b) => .ok (false, b)
  | (true, b) => do
    let (found, blockState) ← purgeEach BlockState64.purge b.blockState
    return (found, { b with blockState := blockState })

end BatchState64

namespace StateManager64

variable (s : StateManager64)

/-- Erases a batch, and leaves the order as it is. -/
def eraseBatch (batchUUID : BatchUUID) : StateManager64 :=
  { s with state := s.state.erase batchUUID }

def cancelBatch (batchUUID : BatchUUID) : Except ZkResult Unit × StateManager64 :=
  match s.state.lookup batchUUID with
  | none => (.error .stateManager, s)
  | some _ => (.ok (), s.eraseBatch batchUUID)

/-- A call of `purgeBatch` for a batch of the state. -/
def purgeBatch (purge : Bool) (batchUUID : BatchUUID) : SM64Result Unit :=
  match s.state.lookup batchUUID with
  | none => .ok (.error .stateManager, s)
  | some b => s.withBatch batchUUID ((b.purgeBatch purge).map fun (found, b) =>
      (if found then .ok () else .error .stateManager, b))

end StateManager64

/-! ## Writing a batch -/

/-- The errors of `consolidateState`, which all return `ZKR_STATE_MANAGER`. -/
inductive ConsolidateError where
  /-- A batch of the order that is not in the state, found while looking for the root. -/
  | unmatchingState (i : ℕ) (batchUUID : BatchUUID)
  /-- The same, in the other loops. -/
  | noMatchingState (batchUUID : BatchUUID)
  | noMatchingRoot
  | purgeBatch (batchUUID : BatchUUID)
  | writeTree (zkr : ZkResult)
  | setProgram (zkr : ZkResult)
  deriving DecidableEq

section

variable {σ : Type} (db : Database64 σ)

/-- Sends the programs of a transaction. -/
def setPrograms (p : Persistence) :
    List (Fea × List UInt8) → σ → Except ConsolidateError Unit × σ
  | [], w => (.ok (), w)
  | (key, value) :: rest, w =>
    match db.setProgram w key value (p = .database) with
    | (.error zkr, w) => (.error (.setProgram zkr), w)
    | (.ok (), w) => setPrograms p rest w

/-- What a loop of the consolidation leaves. -/
structure Written (α σ : Type) where
  zkr : Except ConsolidateError Unit
  item : α
  newRoot : Fea
  db : σ

/-- Records the root where the first of some transactions starts. -/
def startAt (p : Persistence) (root : Fea) : List TxState64 → List TxState64
  | [] => []
  | t :: rest => t.modify p (fun ps => { ps with oldStateRoot := some root }) :: rest

/-- Writes transactions one after the other; `start`, where there is one, is the root where the first
of them starts.  It leaves the transactions, and the root of the block once the last one has it. -/
def writeTxs (p : Persistence) : List TxState64 → Option Fea → Fea → σ →
    Except Halt (Written (List TxState64 × Option Fea) σ)
  | [], _, newRoot, w => .ok ⟨.ok (), ([], none), newRoot, w⟩
  | t :: rest, start, newRoot, w =>
    match start.or (t.persistence p).oldStateRoot with
    -- `string2fea` of an empty string
    | none => .error .exitProcess
    | some oldRoot =>
      let t := t.modify p fun ps => { ps with oldStateRoot := some oldRoot }
      let ps := t.persistence p
      match db.writeTree w oldRoot (ps.subState.flatMap TxSubState64.dbWrite) (p = .database) with
      | (.error zkr, w) => .ok ⟨.error (.writeTree zkr), (t :: rest, none), newRoot, w⟩
      | (.ok newRoot, w) =>
        let t := t.modify p fun ps => { ps with newStateRoot := some newRoot }
        let root := if rest = [] then some newRoot else none
        match setPrograms db p ps.dbPrograms w with
        | (.error e, w) => .ok ⟨.error e, (t :: startAt p newRoot rest, root), newRoot, w⟩
        | (.ok (), w) => (writeTxs p rest (some newRoot) newRoot w).map fun r =>
            { r with item := (t :: r.item.1, r.item.2.or root) }

/-- Writes the blocks of a batch from a block on, `n` of them; the first batch of a chain starts at
its own root. -/
def writeBlocks (p : Persistence) (first : Bool) : ℕ → ℕ → BatchState64 → Fea → σ →
    Except Halt (Written BatchState64 σ)
  | 0, _, b, newRoot, w => .ok ⟨.ok (), b, newRoot, w⟩
  | n + 1, block, b, newRoot, w => do
    let b := if first then b else { b with oldStateRoot := some newRoot }
    let txState := (b.blockState[block]?.map BlockState64.txState).getD []
    let r ← writeTxs db p txState (if first then none else some newRoot) newRoot w
    let b := b.modifyBlock block fun bl => { bl with
      txState := r.item.1
      currentStateRoot := r.item.2.or bl.currentStateRoot }
    match r.zkr with
    | .error e => return ⟨.error e, b, r.newRoot, r.db⟩
    | .ok () => writeBlocks p first n (block + 1) b r.newRoot r.db

def writeBatch (p : Persistence) (first : Bool) (b : BatchState64) (newRoot : Fea) (w : σ) :
    Except Halt (Written BatchState64 σ) :=
  writeBlocks db p first b.blockState.length 0 b newRoot w

end

/-! ## `consolidateState` -/

/-- What `consolidateState` returns when it succeeds, up to the result of the flush. -/
structure Consolidated where
  consolidatedStateRoot : Fea
  /-- The flush id and the last flush id that was sent. -/
  flush : Except ZkResult (ℕ × ℕ)

namespace StateManager64

section

variable (s : StateManager64)

/-- Looks for the first batch that ends at a root, from position `i` on. -/
def findRoot (root : Fea) : ℕ → List BatchUUID →
    Except ConsolidateError (ℕ × BatchUUID × BatchState64)
  | _, [] => .error .noMatchingRoot
  | i, batchUUID :: rest =>
    match s.state.lookup batchUUID with
    | none => .error (.unmatchingState i batchUUID)
    | some b =>
      if b.currentStateRoot = some root then .ok (i, batchUUID, b) else findRoot root (i + 1) rest

/-- Erases the batch in position `i` of the order. -/
def eraseAt (i : ℕ) (batchUUID : BatchUUID) : StateManager64 :=
  { s with state := s.state.erase batchUUID, stateOrder := s.stateOrder.eraseIdx i }

end

/-- What a loop over the order leaves, and the position of the last batch of the chain. -/
abbrev OrderResult := Except Halt (Except ConsolidateError ℕ × StateManager64)

/-- Erases those of the first `i` batches that do not lead to a root. -/
def dropOffChain : ℕ → Option Fea → ℕ → StateManager64 → OrderResult
  | 0, _, position, s => .ok (.ok position, s)
  | i + 1, oldStateRoot, position, s =>
    match s.stateOrder[i]? with
    | none => .error .undefined
    | some batchUUID =>
      match s.state.lookup batchUUID with
      | none => .ok (.error (.noMatchingState batchUUID), s)
      | some b =>
        if oldStateRoot = b.currentStateRoot then dropOffChain i b.oldStateRoot position s
        else dropOffChain i oldStateRoot (position - 1) (s.eraseAt i batchUUID)

/-- Erases the first `i` batches. -/
def eraseChain : ℕ → StateManager64 → OrderResult
  | 0, s => .ok (.ok 0, s)
  | i + 1, s =>
    match s.stateOrder[i]? with
    | none => .error .undefined
    | some batchUUID =>
      match s.state.lookup batchUUID with
      | none => .ok (.error (.noMatchingState batchUUID), s)
      | some _ => eraseChain i (s.eraseAt i batchUUID)

variable {σ : Type} (db : Database64 σ)

/-- Writes `n` batches of the order, from a batch on. -/
def writeBatches (p : Persistence) : ℕ → ℕ → StateManager64 → Fea → σ →
    Except Halt (Written StateManager64 σ)
  | 0, _, s, newRoot, w => .ok ⟨.ok (), s, newRoot, w⟩
  | n + 1, batch, s, newRoot, w =>
    match s.stateOrder[batch]? with
    | none => .error .undefined
    | some batchUUID =>
      match s.state.lookup batchUUID with
      | none => .ok ⟨.error (.noMatchingState batchUUID), s, newRoot, w⟩
      | some b => do
        let r ← writeBatch db p (batch = 0) b newRoot w
        let s := s.setBatch batchUUID r.item
        match r.zkr with
        | .error e => return ⟨.error e, s, r.newRoot, r.db⟩
        | .ok () => writeBatches p n (batch + 1) s r.newRoot r.db

/-- Writes the first `n` batches of the order, and erases them.  `newRoot` is not initialised in the
source: `garbage` is what it holds. -/
def consolidateFirst (garbage : Fea) (p : Persistence) (n : ℕ) (s : StateManager64) (w : σ) :
    Except Halt (Except ConsolidateError Consolidated × StateManager64 × σ) := do
  let r ← writeBatches db p n 0 s garbage w
  match r.zkr with
  | .error e => return (.error e, r.item, r.db)
  | .ok () =>
    let s := r.item.setLastConsolidatedStateRoot r.newRoot
    let (flush, w) := db.flush r.db
    match ← eraseChain n s with
    | (.error e, s) => return (.error e, s, w)
    | (.ok _, s) => return (.ok ⟨r.newRoot, flush⟩, s, w)

def consolidateState (purge : Bool) (garbage : Fea) (virtualStateRoot : Fea) (p : Persistence)
    (s : StateManager64) (w : σ) :
    Except Halt (Except ConsolidateError Consolidated × StateManager64 × σ) :=
  if !isVirtualStateRoot virtualStateRoot ∧
      s.lastConsolidatedStateRootString = some virtualStateRoot then
    -- there is nothing to do
    let (flush, w) := db.flush w
    .ok (.ok ⟨virtualStateRoot, flush⟩, s, w)
  else
    match s.findRoot virtualStateRoot 0 s.stateOrder with
    | .error e => .ok (.error e, s, w)
    | .ok (position, batchUUID, b) => do
      let (found, b) ← b.purgeBatch purge
      let s := s.setBatch batchUUID b
      if !found then return (.error (.purgeBatch batchUUID), s, w)
      match ← dropOffChain position b.oldStateRoot position s with
      | (.error e, s) => return (.error e, s, w)
      | (.ok position, s) => consolidateFirst db garbage p (position + 1) s w

end StateManager64

/-! ## The calls of the state manager -/

/-- A call of the state manager. -/
inductive SM64Op where
  | setStateRoot (batchUUID : BatchUUID) (block tx : ℕ) (stateRoot : Fea) (bIsOldStateRoot : Bool)
      (p : Persistence)
  | write (batchUUID : BatchUUID) (block tx : ℕ) (key : Fea) (value : ℤ) (p : Persistence)
  | writeProgram (batchUUID : BatchUUID) (block tx : ℕ) (key : Fea) (value : List UInt8)
      (p : Persistence)
  | finishTx (batchUUID : BatchUUID) (stateRoot : Fea) (p : Persistence)
  | startBlock (batchUUID : BatchUUID) (stateRoot : Fea) (p : Persistence)
  | finishBlock (batchUUID : BatchUUID) (stateRoot : Fea) (p : Persistence)
  | purgeBatch (batchUUID : BatchUUID)
  | cancelBatch (batchUUID : BatchUUID)
  | consolidateState (garbage virtualStateRoot : Fea) (p : Persistence)

namespace StateManager64

variable {σ : Type} (db : Database64 σ) (purge : Bool)

/-- The state that a call leaves, whatever it returns; `none` where it does not return. -/
def step : StateManager64 × σ → SM64Op → Option (StateManager64 × σ)
  | (s, w), .setStateRoot batchUUID block tx stateRoot bIsOldStateRoot p =>
    (s.setStateRoot batchUUID block tx stateRoot bIsOldStateRoot p).toOption.map fun r => (r.2, w)
  | (s, w), .write batchUUID block tx key value p =>
    (s.write batchUUID block tx key value p).toOption.map fun r => (r.2, w)
  | (s, w), .writeProgram batchUUID block tx key value p =>
    (s.writeProgram batchUUID block tx key value p).toOption.map fun r => (r.2, w)
  | (s, w), .finishTx batchUUID stateRoot p =>
    (s.finishTx purge batchUUID stateRoot p).toOption.map fun r => (r.2, w)
  | (s, w), .startBlock batchUUID stateRoot p =>
    (s.startBlock batchUUID stateRoot p).toOption.map fun r => (r.2, w)
  | (s, w), .finishBlock batchUUID stateRoot p =>
    (s.finishBlock purge batchUUID stateRoot p).toOption.map fun r => (r.2, w)
  | (s, w), .purgeBatch batchUUID => (s.purgeBatch purge batchUUID).toOption.map fun r => (r.2, w)
  | (s, w), .cancelBatch batchUUID => some ((s.cancelBatch batchUUID).2, w)
  | (s, w), .consolidateState garbage virtualStateRoot p =>
    (consolidateState db purge garbage virtualStateRoot p s w).toOption.map Prod.snd

end StateManager64

end ZkevmProver
