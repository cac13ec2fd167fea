import ZkevmProver.HashDB.SmtStore

/-!
# The state manager

Between `Smt` and the database, the state manager keeps the nodes that a batch writes and deletes,
by block, transaction, persistence and sub-state: a sub-state is one call of `Smt::set`.  A flush
writes to the database the nodes of the sub-states that lead to the new root, and drops the rest.

A state root is a string in the source, empty before it is set: here it is an `Option`.  The state is
the one of a single batch, `none` when the state manager has no entry for it.

1. The data
2. `setStateRoot`
3. Nodes and programs
4. `finishTx`, `startBlock` and `finishBlock`
5. What a flush takes from a transaction
6. `flush`
7. The calls of the state manager
-/

namespace ZkevmProver

open Effects

/-! ## The data -/

structure TxSubState where
  oldStateRoot : Option Fea
  newStateRoot : Option Fea
  previousSubState : ℕ
  bValid : Bool
  /-- The last node written under a hash comes first. -/
  dbWriteNodes : NodeTable
  dbDeleteNodes : List Fea

structure TxPersistenceState where
  oldStateRoot : Option Fea := none
  newStateRoot : Option Fea := none
  currentSubState : ℕ := 0
  subState : List TxSubState := []
  /-- The last program written under a key comes first. -/
  dbWritePrograms : List (Fea × List UInt8) := []

structure TxState where
  persistence : Persistence → TxPersistenceState := fun _ => {}

structure BlockState where
  oldStateRoot : Option Fea := none
  currentStateRoot : Option Fea := none
  currentTx : ℕ := 0
  txState : List TxState := []

structure BatchState where
  oldStateRoot : Option Fea := none
  currentStateRoot : Option Fea := none
  currentBlock : ℕ := 0
  blockState : List BlockState := []
  /-- The common write pool. -/
  dbWriteNodes : NodeTable := []
  dbWritePrograms : List (Fea × List UInt8) := []

/-- What a function of the state manager returns, and the state it leaves. -/
abbrev SMResult (α : Type) := Except Fault α × Option BatchState

/-- `ZKR_STATE_MANAGER` -/
abbrev smError : Except Fault Unit := .error (.zkr .stateManager)

namespace TxState

def modify (t : TxState) (p : Persistence) (f : TxPersistenceState → TxPersistenceState) : TxState :=
  ⟨Function.update t.persistence p (f (t.persistence p))⟩

end TxState

namespace BatchState

def modifyBlock (b : BatchState) (block : ℕ) (f : BlockState → BlockState) : BatchState :=
  { b with blockState := b.blockState.modify block f }

/-- Changes `blockState[block].txState[tx].persistence[p]`. -/
def modifyPersistence (b : BatchState) (block tx : ℕ) (p : Persistence)
    (f : TxPersistenceState → TxPersistenceState) : BatchState :=
  b.modifyBlock block fun bl => { bl with txState := bl.txState.modify tx fun t => t.modify p f }

/-- `blockState[block].txState[tx].persistence[p]` -/
def getPersistence (b : BatchState) (block tx : ℕ) (p : Persistence) : Option TxPersistenceState :=
  (b.blockState[block]?.bind fun bl => bl.txState[tx]?).map fun t => t.persistence p

end BatchState

/-! ## `setStateRoot` -/

namespace TxPersistenceState

/-- A new sub-state that starts from a root. -/
def pushSubState (ps : TxPersistenceState) (stateRoot : Fea) : TxPersistenceState :=
  { ps with
    subState := ps.subState ++ [{
      oldStateRoot := some stateRoot, newStateRoot := none
      previousSubState := ps.currentSubState, bValid := false
      dbWriteNodes := [], dbDeleteNodes := [] }]
    currentSubState := ps.subState.length }

/-- `setStateRoot` with an old state root, for a transaction; `none` where it returns an error. -/
def setOld (ps : TxPersistenceState) (stateRoot : Fea) : Option TxPersistenceState :=
  match ps.subState.getLast? with
  | none =>
    if ps.currentSubState ≠ 0 then none
    else some ({ ps with oldStateRoot := some stateRoot }.pushSubState stateRoot)
  | some last =>
    if ps.subState.length ≤ ps.currentSubState then none
    else if last.newStateRoot = none then none
    else some (ps.pushSubState stateRoot)

/-- Changes the current sub-state. -/
def modifyCurrent (ps : TxPersistenceState) (f : TxSubState → TxSubState) : TxPersistenceState :=
  { ps with subState := ps.subState.modify ps.currentSubState f }

/-- `setStateRoot` with a new state root, for a transaction; `none` where it returns an error. -/
def setNew (ps : TxPersistenceState) (stateRoot : Fea) : Option TxPersistenceState :=
  match ps.subState[ps.currentSubState]? with
  | none => none
  | some s =>
    if s.newStateRoot ≠ none then none
    else some { ps.modifyCurrent fun s => { s with newStateRoot := some stateRoot } with
      newStateRoot := some stateRoot }

end TxPersistenceState

namespace BatchState

/-- Creates the blocks up to a block, if they are missing. -/
def ensureBlock (b : BatchState) (block : ℕ) : BatchState :=
  if b.blockState.length ≤ block then
    { b with
      blockState := b.blockState ++ List.replicate (block - b.blockState.length + 1) {}
      currentBlock := block }
  else b

/-- What `setStateRoot` records in the batch and in the block. -/
def recordRoot (b : BatchState) (block : ℕ) (stateRoot : Fea) (bIsOldStateRoot : Bool)
    (p : Persistence) : BatchState :=
  let b := if b.oldStateRoot = none ∧ p.isStored ∧ bIsOldStateRoot then
      { b with oldStateRoot := some stateRoot }
    else b
  let b := { b with currentStateRoot := some stateRoot }.ensureBlock block
  b.modifyBlock block fun bl =>
    let bl := if bl.oldStateRoot = none ∧ p.isStored ∧ bIsOldStateRoot then
        { bl with oldStateRoot := some stateRoot }
      else bl
    if p.isStored ∧ !bIsOldStateRoot then { bl with currentStateRoot := some stateRoot } else bl

/-- Creates the transactions of a block up to a transaction, if they are missing. -/
def ensureTx (b : BatchState) (block tx : ℕ) : BatchState :=
  b.modifyBlock block fun bl =>
    if bl.txState.length ≤ tx then
      { bl with
        txState := bl.txState ++ List.replicate (tx - bl.txState.length + 1) {}
        currentTx := tx }
    else bl

/-- Whether a block has a transaction. -/
def hasTx (b : BatchState) (block tx : ℕ) : Bool :=
  (b.blockState[block]?.bind fun bl => bl.txState[tx]?).isSome

def setStateRoot (b : BatchState) (block tx : ℕ) (stateRoot : Fea) (bIsOldStateRoot : Bool)
    (p : Persistence) : SMResult Unit :=
  let b := b.recordRoot block stateRoot bIsOldStateRoot p
  if !b.hasTx block tx && !bIsOldStateRoot then (smError, some b)
  else
    let b := b.ensureTx block tx
    let ps := (b.getPersistence block tx p).getD {}
    let ps' := if bIsOldStateRoot then ps.setOld stateRoot else ps.setNew stateRoot
    match ps' with
    | none => (smError, some b)
    | some ps' => (.ok (), some (b.modifyPersistence block tx p fun _ => ps'))

end BatchState

namespace StateManager

variable (s : Option BatchState)

def setStateRoot (block tx : ℕ) (stateRoot : Fea) (bIsOldStateRoot : Bool) (p : Persistence) :
    SMResult Unit :=
  match s with
  | some b => b.setStateRoot block tx stateRoot bIsOldStateRoot p
  | none =>
    if !bIsOldStateRoot then (smError, none)
    else ({} : BatchState).setStateRoot block tx stateRoot bIsOldStateRoot p

/-! ## Nodes and programs -/

def writeNode (block tx : ℕ) (key : Fea) (value : Node) (p : Persistence) : SMResult Unit :=
  match s with
  | none => (smError, none)
  | some b =>
    match b.blockState[block]? with
    | none => (smError, s)
    | some bl =>
      if bl.txState.length < tx then (smError, s)
      else
        -- creates the transaction and the sub-state, if they are missing
        let b := if tx = bl.txState.length then
            b.modifyBlock block fun bl => { bl with
              txState := bl.txState ++
                [({} : TxState).modify p fun ps => { ps with oldStateRoot := b.currentStateRoot }] }
          else b
        let b := b.modifyPersistence block tx p fun ps =>
          let ps := if ps.subState.length = 0 then
              { ps with
                subState := [{
                  oldStateRoot := b.currentStateRoot, newStateRoot := none
                  previousSubState := 0, bValid := false, dbWriteNodes := [], dbDeleteNodes := [] }]
                currentSubState := 0 }
            else ps
          ps.modifyCurrent fun ss => { ss with dbWriteNodes := (key, value) :: ss.dbWriteNodes }
        (.ok (), some { b with dbWriteNodes := (key, value) :: b.dbWriteNodes })

def deleteNode (block tx : ℕ) (key : Fea) (p : Persistence) : SMResult Unit :=
  match s with
  | none => (smError, none)
  | some b =>
    match b.getPersistence block tx p with
    | none => (smError, s)
    | some ps =>
      if ps.subState.length ≤ ps.currentSubState then (smError, s)
      else (.ok (), some (b.modifyPersistence block tx p fun ps =>
        ps.modifyCurrent fun ss => { ss with dbDeleteNodes := ss.dbDeleteNodes ++ [key] }))

/-- Looks in the common write pool. -/
def readNode (key : Fea) : Option Node := s.bind fun b => b.dbWriteNodes.lookup key

def writeProgram (block tx : ℕ) (key : Fea) (value : List UInt8) (p : Persistence) : SMResult Unit :=
  let b := s.getD {}
  -- programs set before the first block are ignored
  if block = 0 ∧ b.blockState = [] then (.ok (), some b)
  else
    match b.blockState[block]? with
    | none => (smError, some b)
    | some bl =>
      if bl.txState.length < tx then (smError, some b)
      else
        let b := if tx = bl.txState.length then
            b.modifyBlock block fun bl => { bl with
              txState := bl.txState ++
                [({} : TxState).modify p fun ps => { ps with oldStateRoot := b.currentStateRoot }] }
          else b
        let b := b.modifyPersistence block tx p fun ps =>
          { ps with dbWritePrograms := (key, value) :: ps.dbWritePrograms }
        (.ok (), some { b with dbWritePrograms := (key, value) :: b.dbWritePrograms })

def readProgram (key : Fea) : Option (List UInt8) := s.bind fun b => b.dbWritePrograms.lookup key

/-! ## Transactions and blocks -/

end StateManager

namespace TxPersistenceState

/-- `finishTx`, for a transaction. -/
def finish (ps : TxPersistenceState) (purge : Bool) (stateRoot : Fea) : TxPersistenceState :=
  if ps.newStateRoot = some stateRoot then ps
  else if ps.oldStateRoot = some stateRoot then
    -- the transaction ended up with the root it started from
    if purge then { ps with subState := [], newStateRoot := some stateRoot, currentSubState := 0 }
    else ps
  else if purge then
    -- deletes what comes after the point where this root was reached
    match ps.subState.findIdx? fun ss => ss.oldStateRoot = some stateRoot with
    | some i =>
      { ps with newStateRoot := some stateRoot, currentSubState := i - 1
                subState := ps.subState.take i }
    | none => ps
  else ps

end TxPersistenceState

namespace BlockState

/-- `finishBlock`, for a block. -/
def finish (bl : BlockState) (purge : Bool) (stateRoot : Fea) (p : Persistence)
    (ps : TxPersistenceState) : BlockState :=
  if ps.newStateRoot = some stateRoot then { bl with currentStateRoot := some stateRoot }
  else if ps.oldStateRoot = some stateRoot then
    if purge then { bl with txState := [], currentStateRoot := some stateRoot, currentTx := 0 }
    else bl
  else if purge then
    match bl.txState.findIdx? fun t => (t.persistence p).oldStateRoot = some stateRoot with
    | some i =>
      { bl with currentStateRoot := some stateRoot, currentTx := i - 1
                txState := bl.txState.take i }
    | none => bl
  else bl

end BlockState

namespace StateManager

variable (s : Option BatchState)

/-- The current transaction of the current block. -/
def current (b : BatchState) : Option (BlockState × TxState) :=
  b.blockState[b.currentBlock]?.bind fun bl => bl.txState[bl.currentTx]?.map fun t => (bl, t)

def finishTx (purge : Bool) (stateRoot : Fea) (p : Persistence) : SMResult Unit :=
  match s with
  | none => (.ok (), none)
  | some b =>
    match current b with
    | none => (smError, s)
    | some (bl, _) =>
      (.ok (), some (b.modifyPersistence b.currentBlock bl.currentTx p fun ps =>
        ps.finish purge stateRoot))

def startBlock (stateRoot : Fea) (_p : Persistence) : SMResult Unit :=
  let b := s.getD {}
  if !b.blockState.isEmpty && b.blockState.length ≤ b.currentBlock then (smError, some b)
  else (.ok (), some { b with
    blockState := b.blockState ++ [{ oldStateRoot := some stateRoot }]
    currentBlock := b.blockState.length })

def finishBlock (purge : Bool) (stateRoot : Fea) (p : Persistence) : SMResult Unit :=
  match s with
  | none => (.ok (), none)
  | some b =>
    match current b with
    | none => (smError, s)
    | some (_, t) =>
      (.ok (), some (b.modifyBlock b.currentBlock fun bl =>
        bl.finish purge stateRoot p (t.persistence p)))

end StateManager

/-! ## What a flush takes from a transaction -/

namespace TxPersistenceState

/-- Marks a sub-state as valid. -/
def markValid (ps : TxPersistenceState) (i : ℕ) : TxPersistenceState :=
  { ps with subState := ps.subState.modify i fun ss => { ss with bValid := true } }

/-- Where the loop of `flush` goes on after sub-state `cur`; it ends at the `none`. -/
def stepBack (ps : TxPersistenceState) (cur : ℕ) : Except Fault (Option ℕ) :=
  match ps.subState[cur]? with
  | none => .error .outOfBounds
  | some ss =>
    if cur = 0 then
      if ss.oldStateRoot ≠ ps.oldStateRoot then .error (.zkr .stateManager) else .ok none
    else
      match ps.subState[ss.previousSubState]? with
      | none => .error .outOfBounds
      | some prev =>
        if prev.newStateRoot = ss.oldStateRoot then .ok (some ss.previousSubState)
        else
          -- searches for the previous state
          match (ps.subState.take cur).findIdx? fun s => s.newStateRoot = ss.oldStateRoot with
          | some i => .ok (some i)
          | none =>
            if ss.oldStateRoot = ps.oldStateRoot then .ok none else .error (.zkr .stateManager)

/-- The loop of `flush` that walks back from a sub-state and marks what it visits, with a number of
rounds left. -/
def trackBack : ℕ → TxPersistenceState → ℕ → Option (Except Fault Unit × TxPersistenceState)
  | 0, _, _ => none
  | fuel + 1, ps, cur =>
    let ps := ps.markValid cur
    match ps.stepBack cur with
    | .error e => some (.error e, ps)
    | .ok none => some (.ok (), ps)
    | .ok (some i) => trackBack fuel ps i

/-- Finds the valid sub-states of a transaction that has any; `none` where the loop does not end. -/
def findValid (ps : TxPersistenceState) (fuel : ℕ) :
    Option (Except Fault Unit × TxPersistenceState) :=
  match ps.subState[ps.currentSubState]? with
  | none => some (.error .outOfBounds, ps)
  | some ss =>
    if ss.newStateRoot ≠ ps.newStateRoot then some (.error (.zkr .stateManager), ps)
    else trackBack fuel ps ps.currentSubState

end TxPersistenceState

/-- What `flush` is about to write. -/
structure FlushData where
  dbWriteNodes : NodeTable := []
  lastNewStateRoot : Option Fea := none

namespace FlushData

/-- `dbWriteNodes.insert`, which keeps the nodes that are there. -/
def insert (d : FlushData) (nodes : NodeTable) : FlushData :=
  { d with dbWriteNodes := d.dbWriteNodes ++ nodes }

def erase (d : FlushData) (keys : List Fea) : FlushData :=
  { d with dbWriteNodes := d.dbWriteNodes.filter fun e => e.1 ∉ keys }

/-- Loads the nodes of a sub-state. -/
def load (purge : Bool) (newStateRoot : Option Fea) (d : FlushData) (ss : TxSubState) : FlushData :=
  if purge ∧ (ss.bValid = false ∨ ss.oldStateRoot = ss.newStateRoot) then d
  else
    let d := d.insert ss.dbWriteNodes
    let d := if purge then d.erase ss.dbDeleteNodes else d
    { d with lastNewStateRoot := newStateRoot }

end FlushData

/-! ## `flush` -/

/-- The calls of the database that `flush` makes. -/
inductive FlushOp where
  | setProgram (key : Fea) (data : List UInt8) (persistent : Bool)
  | write (key : Fea) (node : Node) (persistent : Bool)
  | updateStateRoot (root : Fea)
  | flush
  deriving DecidableEq

/-- Why `flush` does not come to its end. -/
inductive FlushStop where
  /-- A call of the database failed. -/
  | database (r : ZkResult)
  | endless

abbrev FlushM := Prog FlushOp (fun _ => Unit) FlushStop

/-- The entries of a map, in any order. -/
def entries {α : Type} (m : List (Fea × α)) : List (Fea × α) := m.eraseDupsBy fun a b => a.1 = b.1

namespace TxState

/-- The body of the loop of `flush` over the persistences.  When a check fails, the transaction is as the
loop left it. -/
def flushPersistence (purge : Bool) (t : TxState) (d : FlushData) (p : Persistence) :
    FlushM (Except Fault Unit × TxState × FlushData) :=
  if !p.isStored then
    -- temporary data can be deleted at the end of a batch
    pure (.ok (), t.modify p fun ps => { ps with subState := [], currentSubState := 0 }, d)
  else
    let ps := t.persistence p
    if ps.subState = [] then pure (.ok (), t, d)
    else
      match ps.findValid ps.subState.length with
      | none => .fail .endless
      | some (.error e, ps) => pure (.error e, t.modify p fun _ => ps, d)
      | some (.ok (), ps) => do
        let d := ps.subState.foldl (FlushData.load purge ps.newStateRoot) d
        Prog.callAll ((entries ps.dbWritePrograms).map fun e =>
          .setProgram e.1 e.2 (p = .database))
        return (.ok (), t.modify p fun _ => ps, d)

def flushEach (purge : Bool) : List Persistence → TxState → FlushData →
    FlushM (Except Fault Unit × TxState × FlushData)
  | [], t, d => pure (.ok (), t, d)
  | p :: rest, t, d => do
    let (r, t, d) ← t.flushPersistence purge d p
    match r with
    | .error e => return (.error e, t, d)
    | .ok () => flushEach purge rest t d

/-- The loop over the persistences of a transaction. -/
def flush (purge : Bool) (t : TxState) (d : FlushData) :
    FlushM (Except Fault Unit × TxState × FlushData) :=
  flushEach purge [.cache, .database, .temporary, .temporaryHash] t d

end TxState

namespace BlockState

/-- The loop over the transactions of a block. -/
def flushTxs (purge : Bool) : List TxState → FlushData →
    FlushM (Except Fault Unit × List TxState × FlushData)
  | [], d => pure (.ok (), [], d)
  | t :: rest, d => do
    let (r, t, d) ← t.flush purge d
    match r with
    | .error e => return (.error e, t :: rest, d)
    | .ok () => do
      let (r, rest, d) ← flushTxs purge rest d
      return (r, t :: rest, d)

/-- Writes a block to the database, and gives the last new state root. -/
def flush (purge persistent : Bool) (bl : BlockState) (lastNewStateRoot : Option Fea) :
    FlushM (Except Fault Unit × BlockState × Option Fea) := do
  let (r, txs, d) ← flushTxs purge bl.txState { lastNewStateRoot := lastNewStateRoot }
  match r with
  | .error e => return (.error e, { bl with txState := txs }, d.lastNewStateRoot)
  | .ok () => do
    Prog.callAll ((entries d.dbWriteNodes).map fun e => .write e.1 e.2 persistent)
    return (.ok (), { bl with txState := txs }, d.lastNewStateRoot)

end BlockState

namespace BatchState

/-- The loop over the blocks of a batch. -/
def flushBlocks (purge persistent : Bool) : List BlockState → Option Fea →
    FlushM (Except Fault Unit × List BlockState × Option Fea)
  | [], last => pure (.ok (), [], last)
  | bl :: rest, last => do
    let (r, bl, last) ← bl.flush purge persistent last
    match r with
    | .error e => return (.error e, bl :: rest, last)
    | .ok () => do
      let (r, rest, last) ← flushBlocks purge persistent rest last
      return (r, bl :: rest, last)

/-- Deletes unnecessary blocks.  The new state root is `none` when the text is empty, which is root zero in
the source's comparison. -/
def purgeBlocks (b : BatchState) (purge : Bool) (newStateRoot : Option Fea) : BatchState :=
  -- the batch was cancelled
  let b := if purge ∧ some (newStateRoot.getD 0) = b.oldStateRoot then
      { b with blockState := [], currentBlock := 0, currentStateRoot := b.oldStateRoot }
    else b
  -- blocks that do not change the state
  if purge ∧ newStateRoot ≠ none ∧ b.oldStateRoot ≠ none then
    { b with blockState := b.blockState.filter fun bl => bl.currentStateRoot ≠ bl.oldStateRoot }
  else b

end BatchState

namespace StateManager

/-- What `flush` does, as long as the calls of the database succeed. -/
def flushProgram (s : Option BatchState) (purge : Bool) (newStateRoot : Option Fea) (p : Persistence) :
    FlushM (Except Fault Unit × Option BatchState) :=
  match s with
  | none => do
    Prog.call .flush
    return (.ok (), none)
  | some b => do
    let b := b.purgeBlocks purge newStateRoot
    let (r, blocks, last) ← BatchState.flushBlocks purge (p = .database) b.blockState none
    match r with
    | .error e => return (.error e, some { b with blockState := blocks })
    | .ok () => do
      Prog.callAll (last.toList.map .updateStateRoot)
      Prog.call .flush
      -- deletes the batch
      return (.ok (), none)

/-- Which calls of the database fail, after those that succeeded. -/
abbrev DbFailures := List FlushOp → FlushOp → Option ZkResult

/-- `flush`, with the calls of the database that succeeded.  When one fails, the batch is deleted; `none`
where `flush` does not end. -/
def flush (s : Option BatchState) (purge : Bool) (newStateRoot : Option Fea) (p : Persistence)
    (fails : DbFailures) : Option (SMResult Unit × List FlushOp) :=
  match run (recorder fun log op => (fails log op).map .database) (flushProgram s purge newStateRoot p)
      [] with
  | (.ok r, log) => some (r, log)
  | (.error (.database r), log) => some ((.error (.zkr r), none), log)
  | (.error .endless, _) => none

def cancelBatch (s : Option BatchState) : SMResult Unit :=
  match s with
  | none => (smError, none)
  | some _ => (.ok (), none)

/-! ## The calls of the state manager -/

inductive Call where
  | setStateRoot (block tx : ℕ) (stateRoot : Fea) (bIsOldStateRoot : Bool) (p : Persistence)
  | writeNode (block tx : ℕ) (key : Fea) (value : Node) (p : Persistence)
  | deleteNode (block tx : ℕ) (key : Fea) (p : Persistence)
  | writeProgram (block tx : ℕ) (key : Fea) (value : List UInt8) (p : Persistence)
  | finishTx (stateRoot : Fea) (p : Persistence)
  | startBlock (stateRoot : Fea) (p : Persistence)
  | finishBlock (stateRoot : Fea) (p : Persistence)
  | flush (newStateRoot : Option Fea) (p : Persistence) (fails : DbFailures)
  | cancelBatch

/-- The state that a call leaves. -/
def step (purge : Bool) (s : Option BatchState) : Call → Option BatchState
  | .setStateRoot block tx stateRoot bIsOldStateRoot p =>
    (setStateRoot s block tx stateRoot bIsOldStateRoot p).2
  | .writeNode block tx key value p => (writeNode s block tx key value p).2
  | .deleteNode block tx key p => (deleteNode s block tx key p).2
  | .writeProgram block tx key value p => (writeProgram s block tx key value p).2
  | .finishTx stateRoot p => (finishTx s purge stateRoot p).2
  | .startBlock stateRoot p => (startBlock s stateRoot p).2
  | .finishBlock stateRoot p => (finishBlock s purge stateRoot p).2
  | .flush newStateRoot p fails => ((flush s purge newStateRoot p fails).map (·.1.2)).getD s
  | .cancelBatch => (cancelBatch s).2

/-- The state after calls on a batch that does not exist yet. -/
def after (purge : Bool) (calls : List Call) : Option BatchState := calls.foldl (step purge) none

end StateManager

end ZkevmProver
