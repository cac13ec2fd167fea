import ZkevmProver.Lib.Effects
import ZkevmProver.Utils.KeyUtils
import ZkevmProver.Utils.Scalar

/-!
# The data of the state tree

Tree nodes, the requests that `Smt` makes to its store, and the results of `Smt::get` and
`Smt::set`.
-/

namespace ZkevmProver

open Effects

/-! ## Nodes -/

/-- The twelve field elements of a node: an intermediate node holds the hashes of its two children,
a leaf its remaining key and the hash of its value, a value node the eight limbs of a value. -/
structure Node where
  left : Fea
  right : Fea
  capacity : Fea
  deriving DecidableEq

/-- The capacity of intermediate nodes and values. -/
abbrev capacityZero : Fea := 0

/-- The capacity of leaf nodes. -/
abbrev capacityOne : Fea := 1

namespace Node

/-- A node is a leaf when its element 8 is one. -/
def isLeaf (n : Node) : Bool := n.capacity.fe0 = 1

/-- The four elements on the side of a key bit. -/
def child (n : Node) (b : Bool) : Fea := if b then n.right else n.left

/-- Overwrites the four elements on the side of a key bit. -/
def setChild (n : Node) (b : Bool) (h : Fea) : Node :=
  if b then { n with right := h } else { n with left := h }

/-- The `i`-th group of four elements. -/
def group (n : Node) : Fin 3 → Fea
  | 0 => n.left
  | 1 => n.right
  | 2 => n.capacity

end Node

/-- The eight elements with `x` on side `b` and `y` on the other. -/
def sides (b : Bool) (x y : Fea) : Fea × Fea := if b then (y, x) else (x, y)

/-! ## Requests to the store -/

/-- The result codes that the modelled functions return, success apart. -/
inductive ZkResult where
  | unspecified
  | dbKeyNotFound
  | dbError
  | smtInvalidDataSize
  | stateManager
  deriving DecidableEq

/-- Why a call does not return its result: an error code, or an array access out of its bounds. -/
inductive Fault where
  | zkr (r : ZkResult)
  | outOfBounds
  deriving DecidableEq

inductive Persistence where
  | cache
  | database
  | temporary
  | temporaryHash
  deriving DecidableEq

/-- Persistences whose data reach the database. -/
def Persistence.isStored : Persistence → Bool
  | .cache => true
  | .database => true
  | .temporary => false
  | .temporaryHash => false

/-- The calls of `Smt` to the state manager and the database. -/
inductive SmtOp where
  /-- `stateManager.setOldStateRoot` -/
  | setOldStateRoot (root : Fea)
  /-- `stateManager.readNode`, then `db.read` -/
  | readNode (hash : Fea)
  /-- `stateManager.writeNode` or `db.write` -/
  | writeNode (hash : Fea) (node : Node)
  /-- `stateManager.deleteNode`, whose result is not looked at -/
  | deleteNode (hash : Fea)
  /-- `stateManager.setNewStateRoot` -/
  | setNewStateRoot (root : Fea)
  /-- `db.updateStateRoot` -/
  | updateStateRoot (root : Fea)

/-- What a call returns when it succeeds. -/
abbrev SmtOp.Resp : SmtOp → Type
  | .readNode _ => Node
  | _ => Unit

/-- Programs of `Smt`. -/
abbrev SmtM := Prog SmtOp SmtOp.Resp Fault

/-- The stores `Smt` can run on. -/
abbrev SmtHandler (σ : Type) := Handler SmtOp SmtOp.Resp Fault σ

def setOldStateRoot (root : Fea) : SmtM Unit := Prog.call (SmtOp.setOldStateRoot root)

def readNode (hash : Fea) : SmtM Node := Prog.call (SmtOp.readNode hash)

def writeNode (hash : Fea) (node : Node) : SmtM Unit := Prog.call (SmtOp.writeNode hash node)

def deleteNode (hash : Fea) : SmtM Unit := Prog.call (SmtOp.deleteNode hash)

def setNewStateRoot (root : Fea) : SmtM Unit := Prog.call (SmtOp.setNewStateRoot root)

def updateStateRoot (root : Fea) : SmtM Unit := Prog.call (SmtOp.updateStateRoot root)

/-- What a call of `Smt` carries along. -/
structure SmtContext where
  bUseStateManager : Bool
  persistence : Persistence
  deriving DecidableEq

/-! ## Results -/

/-- The modes of `Smt::set`. -/
inductive Mode where
  | update
  | insertFound
  | insertNotFound
  | deleteFound
  | deleteNotFound
  | deleteLast
  | zeroToZero
  deriving DecidableEq

structure SmtSetResult where
  oldRoot : Fea
  newRoot : Fea
  key : Fea
  /-- The siblings of level 0, 1, … -/
  siblings : List Node
  insKey : Fea
  insValue : ℕ
  isOld0 : Bool
  oldValue : ℕ
  newValue : ℕ
  mode : Mode
  proofHashCounter : ℕ
  siblingLeftChild : Fea
  siblingRightChild : Fea
  deriving DecidableEq

structure SmtGetResult where
  root : Fea
  key : Fea
  /-- The siblings of level 0, 1, … -/
  siblings : List Node
  insKey : Fea
  insValue : ℕ
  isOld0 : Bool
  value : ℕ
  proofHashCounter : ℕ
  deriving DecidableEq

end ZkevmProver
