import ZkevmProver.HashDB.SendData
import ZkevmProver.Lib.WriteBehind

/-!
# The database and its sender thread

The calls of `Database` that fill the multi-write buffers, and the loop of `dbSenderThread`, as the
steps of one system.  What happens under the lock is one step, and so is every query of `sendData`.

1. The calls of the clients
2. The sender thread
3. The steps, and what a client can see
-/

namespace ZkevmProver

open Transitions

/-! ## The calls of the clients -/

/-- What `Database::flush` returns when it is not read-only. -/
structure FlushResult where
  thisBatch : ℕ
  lastSentBatch : ℕ

/-- What `Database::getFlushStatus` returns. -/
structure FlushStatus where
  storedFlushId : ℕ
  storingFlushId : ℕ
  lastFlushId : ℕ
  pendingToFlushNodes : ℕ
  pendingToFlushProgram : ℕ
  storingNodes : ℕ
  storingProgram : ℕ

namespace MultiWrite

/-- `writeRemote` of a node or a program, and `updateStateRoot`. -/
def accept (m : MultiWrite) : Entry → MultiWrite
  | .node key value =>
    m.setPending { m.pending with nodesIntray := m.pending.nodesIntray.insert key value }
  | .program key data =>
    m.setPending { m.pending with programIntray := m.pending.programIntray.insert key data }
  | .stateRoot root => m.setPending { m.pending with nodesStateRoot := some root }

def semiFlush (m : MultiWrite) : MultiWrite := m.setPending m.pending.acceptIntray

/-- A read-only database just frees the memory. -/
def flush (cfg : DbConfig) (m : MultiWrite) : MultiWrite × Option FlushResult :=
  if cfg.dbReadOnly then (m.setPending .Reset, none)
  else
    let lastFlushId := (m.lastFlushId + 1) % 2 ^ 64
    ({ m.setPending m.pending.acceptIntray with lastFlushId := lastFlushId },
      some ⟨lastFlushId, m.storedFlushId⟩)

@[simp] theorem storing_flush (cfg : DbConfig) (m : MultiWrite) :
    (m.flush cfg).1.storing = m.storing := by
  unfold flush
  split
  · exact storing_setPending _ _
  · exact storing_setPending m m.pending.acceptIntray

def getFlushStatus (m : MultiWrite) : FlushStatus where
  storedFlushId := m.storedFlushId
  storingFlushId := m.storingFlushId
  lastFlushId := m.lastFlushId
  pendingToFlushNodes := m.pending.nodes.entries.length
  pendingToFlushProgram := m.pending.program.entries.length
  storingNodes := m.storing.nodes.entries.length
  storingProgram := m.storing.program.entries.length

end MultiWrite

/-! ## The sender thread -/

/-- Where the sender thread is. -/
inductive Phase where
  /-- It waits for the semaphore or the timeout. -/
  | waiting
  /-- It calls `sendData`. -/
  | calling
  /-- It is in `sendData`, between two queries. -/
  | sending
  deriving DecidableEq

structure Db where
  multiWrite : MultiWrite
  phase : Phase
  tables : Tables

namespace Db

/-- A database that has just been opened. -/
def new (tables : Tables) : Db := ⟨.new, .waiting, tables⟩

abbrev pending (s : Db) : MultiWriteData := s.multiWrite.pending

abbrev storing (s : Db) : MultiWriteData := s.multiWrite.storing

@[simp] theorem pending_mk (m : MultiWrite) (p : Phase) (t : Tables) :
    (mk m p t).pending = m.pending := rfl

@[simp] theorem storing_mk (m : MultiWrite) (p : Phase) (t : Tables) :
    (mk m p t).storing = m.storing := rfl

/-- The thread wakes up, after a flush or a timeout, and goes through its section under the lock. -/
def wake (s : Db) : Db :=
  if !s.storing.multiQuery.isEmpty then
    -- a previous send failed; it is resumed
    { s with phase := .calling }
  else if s.pending.IsEmpty then
    { s with multiWrite := { s.multiWrite with storedFlushId := s.multiWrite.lastFlushId } }
  else
    let m := (s.multiWrite.setPending s.pending.acceptIntray).switch
    if m.storing.IsEmpty then { s with multiWrite := m.markStored }
    else { s with multiWrite := m, phase := .calling }

/-- `sendData` returned success. -/
def succeed (s : Db) : Db := { s with multiWrite := s.multiWrite.markStored, phase := .waiting }

/-- `sendData` up to its first query.  `none` when building the queries never ends. -/
def sendData (cfg : DbConfig) (s : Db) : Option Db :=
  if cfg.dbReadOnly then some s.succeed
  else if s.storing.IsEmpty then some s.succeed
  else if s.storing.stored then some s.succeed
  else do
    let queries ←
      if s.storing.multiQuery.isEmpty then buildQueries cfg s.storing
      else some s.storing.multiQuery
    let d := { s.storing with multiQuery := queries }
    if queries.isEmpty then
      return { s with multiWrite := s.multiWrite.setStoring { d with stored := true } }.succeed
    else return { s with multiWrite := s.multiWrite.setStoring d, phase := .sending }

/-- The first query not yet sent. -/
def nextQuery (s : Db) : Option SingleQuery := s.storing.multiQuery.find? fun q => !q.sent

/-- Marks the first unsent query as sent. -/
def markSent : MultiQuery → MultiQuery
  | [] => []
  | q :: qs => if q.sent then q :: markSent qs else { q with sent := true } :: qs

/-- The next query is executed and committed. -/
def exec (s : Db) : Option Db :=
  s.nextQuery.map fun q =>
    { s with
      multiWrite := s.multiWrite.setStoring
        { s.storing with multiQuery := markSent s.storing.multiQuery }
      tables := s.tables.execQuery q }

/-- The next query throws an exception.  When the commit itself failed, its work may be `applied`
all the same. -/
def fail (applied : Bool) (s : Db) : Option Db :=
  s.nextQuery.map fun q =>
    { s with
      phase := .waiting
      tables := if applied then s.tables.execQuery q else s.tables }

/-- All queries have been sent, and `sendData` returns. -/
def finish (s : Db) : Option Db :=
  if s.nextQuery.isNone then
    some { s with
      multiWrite := s.multiWrite.setStoring
        { s.storing with multiQuery := [], stored := true } }.succeed
  else none

/-! ## The steps, and what a client can see -/

inductive Event where
  | accept (e : Entry)
  | flush
  | semiFlush
  | wake
  | sendData
  | exec
  | fail (applied : Bool)
  | finish
  deriving DecidableEq

/-- A step of the system; `none` where the step is not possible. -/
def step (cfg : DbConfig) (s : Db) : Event → Option Db
  | .accept e => some { s with multiWrite := s.multiWrite.accept e }
  | .flush => some { s with multiWrite := (s.multiWrite.flush cfg).1 }
  | .semiFlush => some { s with multiWrite := s.multiWrite.semiFlush }
  | .wake => if s.phase = .waiting then some s.wake else none
  | .sendData => if s.phase = .calling then s.sendData cfg else none
  | .exec => if s.phase = .sending then s.exec else none
  | .fail applied => if s.phase = .sending then s.fail applied else none
  | .finish => if s.phase = .sending then s.finish else none

end Db

end ZkevmProver
