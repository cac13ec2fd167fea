import ZkevmProver.Utils.Goldilocks
import Mathlib.Data.List.AList

/-!
# The multi-write buffers

Three sets of data that wait for the database (`MultiWriteData`), and the indices and flush ids
that say which of them is being filled and which one is being sent (`MultiWrite`).
-/

namespace ZkevmProver

/-- The elements of a node.  The buffers hold their text, 16 hexadecimal digits an element. -/
abbrev NodeData := List Fe

/-- The bytes of a program.  The buffers hold their text, 2 hexadecimal digits a byte. -/
abbrev ProgramData := List UInt8

/-- An `unordered_map` from hashes. -/
abbrev HashMap (V : Type) := AList fun _ : Fea => V

/-! ## Queries -/

/-- The SQL statements of `sendData`. -/
inductive Statement where
  /-- `INSERT INTO <nodes> ... ON CONFLICT (hash) DO NOTHING;` -/
  | insertNodes (rows : List (Σ _ : Fea, NodeData))
  /-- `INSERT INTO <program> ... ON CONFLICT (hash) DO NOTHING;` -/
  | insertProgram (rows : List (Σ _ : Fea, ProgramData))
  /-- `UPDATE <nodes> SET data = ... WHERE hash = <dbStateRootKey>;` -/
  | updateStateRoot (root : Fea)
  deriving DecidableEq

structure SingleQuery where
  statements : List Statement := []
  /-- `query.size()` -/
  size : ℕ := 0
  full : Bool := false
  sent : Bool := false
  deriving DecidableEq

abbrev MultiQuery := List SingleQuery

/-! ## `MultiWriteData` -/

structure MultiWriteData where
  program : HashMap ProgramData
  programIntray : HashMap ProgramData
  nodes : HashMap NodeData
  nodesIntray : HashMap NodeData
  /-- `none` is the empty string. -/
  nodesStateRoot : Option Fea
  multiQuery : MultiQuery
  stored : Bool

namespace MultiWriteData

/-- The data after `Reset`. -/
def Reset : MultiWriteData where
  program := ∅
  programIntray := ∅
  nodes := ∅
  nodesIntray := ∅
  nodesStateRoot := none
  multiQuery := []
  stored := false

def IsEmpty (d : MultiWriteData) : Bool :=
  d.nodes.entries.isEmpty && d.nodesIntray.entries.isEmpty && d.program.entries.isEmpty &&
    d.programIntray.entries.isEmpty && d.nodesStateRoot.isNone

/-- `merge` leaves an entry whose key is already there in the intray, which is cleared next. -/
def acceptIntray (d : MultiWriteData) : MultiWriteData :=
  { d with
    program := d.program ∪ d.programIntray
    programIntray := ∅
    nodes := d.nodes ∪ d.nodesIntray
    nodesIntray := ∅ }

end MultiWriteData

/-! ## `MultiWrite` -/

structure MultiWrite where
  /-- The three flush ids are 64-bit words. -/
  lastFlushId : ℕ
  storedFlushId : ℕ
  storingFlushId : ℕ
  pendingToFlushDataIndex : Fin 3
  storingDataIndex : Fin 3
  synchronizingDataIndex : Fin 3
  data : Fin 3 → MultiWriteData
  /-- The data being filled is the one after the data being sent. -/
  adjacent : pendingToFlushDataIndex = storingDataIndex + 1

namespace MultiWrite

/-- The constructor of `MultiWrite`. -/
def new : MultiWrite where
  lastFlushId := 0
  storedFlushId := 0
  storingFlushId := 0
  pendingToFlushDataIndex := 0
  storingDataIndex := 2
  synchronizingDataIndex := 2
  data := fun _ => .Reset
  adjacent := rfl

/-- `data[pendingToFlushDataIndex]` -/
def pending (m : MultiWrite) : MultiWriteData := m.data m.pendingToFlushDataIndex

/-- `data[storingDataIndex]` -/
def storing (m : MultiWrite) : MultiWriteData := m.data m.storingDataIndex

def setPending (m : MultiWrite) (d : MultiWriteData) : MultiWrite :=
  { m with data := Function.update m.data m.pendingToFlushDataIndex d }

def setStoring (m : MultiWrite) (d : MultiWriteData) : MultiWrite :=
  { m with data := Function.update m.data m.storingDataIndex d }

/-- The switch of the data indices in `dbSenderThread`. -/
def switch (m : MultiWrite) : MultiWrite :=
  { m with
    storingDataIndex := m.storingDataIndex + 1
    pendingToFlushDataIndex := m.pendingToFlushDataIndex + 1
    data := Function.update m.data (m.pendingToFlushDataIndex + 1) .Reset
    storingFlushId := m.lastFlushId
    adjacent := by rw [m.adjacent] }

/-- Marks the data being sent as stored, and passes them on to be synchronized. -/
def markStored (m : MultiWrite) : MultiWrite :=
  { m with
    storedFlushId := m.storingFlushId
    synchronizingDataIndex := m.synchronizingDataIndex + 1 }

def findNode (m : MultiWrite) (key : Fea) : Option NodeData :=
  (m.pending.nodes.lookup key).or <|
    (m.pending.nodesIntray.lookup key).or <|
      -- the data being sent count only while their flush id is not the stored one
      if m.storingFlushId ≠ m.storedFlushId then m.storing.nodes.lookup key else none

def findProgram (m : MultiWrite) (key : Fea) : Option ProgramData :=
  (m.pending.program.lookup key).or <|
    (m.pending.programIntray.lookup key).or <| m.storing.program.lookup key

/-! ### The two buffers -/

theorem pending_ne_storing (m : MultiWrite) : m.pendingToFlushDataIndex ≠ m.storingDataIndex := by
  rw [m.adjacent]
  generalize m.storingDataIndex = i
  revert i
  decide

@[simp] theorem pending_setPending (m : MultiWrite) (d : MultiWriteData) :
    (m.setPending d).pending = d :=
  Function.update_self _ _ _

@[simp] theorem storing_setPending (m : MultiWrite) (d : MultiWriteData) :
    (m.setPending d).storing = m.storing :=
  Function.update_of_ne m.pending_ne_storing.symm _ _

@[simp] theorem storing_setStoring (m : MultiWrite) (d : MultiWriteData) :
    (m.setStoring d).storing = d :=
  Function.update_self _ _ _

@[simp] theorem pending_setStoring (m : MultiWrite) (d : MultiWriteData) :
    (m.setStoring d).pending = m.pending :=
  Function.update_of_ne m.pending_ne_storing _ _

@[simp] theorem lastFlushId_setPending (m : MultiWrite) (d : MultiWriteData) :
    (m.setPending d).lastFlushId = m.lastFlushId := rfl

@[simp] theorem storingFlushId_setPending (m : MultiWrite) (d : MultiWriteData) :
    (m.setPending d).storingFlushId = m.storingFlushId := rfl

@[simp] theorem storedFlushId_setPending (m : MultiWrite) (d : MultiWriteData) :
    (m.setPending d).storedFlushId = m.storedFlushId := rfl

@[simp] theorem lastFlushId_setStoring (m : MultiWrite) (d : MultiWriteData) :
    (m.setStoring d).lastFlushId = m.lastFlushId := rfl

@[simp] theorem storingFlushId_setStoring (m : MultiWrite) (d : MultiWriteData) :
    (m.setStoring d).storingFlushId = m.storingFlushId := rfl

@[simp] theorem storedFlushId_setStoring (m : MultiWrite) (d : MultiWriteData) :
    (m.setStoring d).storedFlushId = m.storedFlushId := rfl

@[simp] theorem pending_switch (m : MultiWrite) : m.switch.pending = .Reset :=
  Function.update_self _ _ _

@[simp] theorem storing_switch (m : MultiWrite) : m.switch.storing = m.pending := by
  show Function.update m.data (m.pendingToFlushDataIndex + 1) .Reset (m.storingDataIndex + 1) =
    m.data m.pendingToFlushDataIndex
  rw [← m.adjacent, Function.update_of_ne]
  generalize m.pendingToFlushDataIndex = i
  revert i
  decide

@[simp] theorem pending_markStored (m : MultiWrite) : m.markStored.pending = m.pending := rfl

@[simp] theorem storing_markStored (m : MultiWrite) : m.markStored.storing = m.storing := rfl

end MultiWrite

end ZkevmProver
