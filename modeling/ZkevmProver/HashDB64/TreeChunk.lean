import ZkevmProver.HashDB.SmtTree

/-!
# Chunks of the state tree

A `TreeChunk` holds six levels of the state tree: the 64 children of its lowest row, and the rows above
them, which `calculateHash` computes from two children each.  A leaf that is alone below a node stands for
the node, so that it passes upwards until it meets a sibling.

  1. The data.
  2. `calculateHash`.
  3. `getHashValues`.
-/

namespace ZkevmProver.HashDB64

/-! ## The data -/

structure LeafNode where
  level : ℕ
  key : Fea
  value : ℕ
  hash : Fea
  deriving DecidableEq

/-- Every type with the data that belongs to it. -/
inductive Child
  | unspecified
  | zero
  | leaf (leaf : LeafNode)
  | intermediate (hash : Fea)
  | treeChunk (id : ℕ)
  deriving DecidableEq

structure HashValueGL where
  hash : Fea
  value : Node
  deriving DecidableEq

/-- Why a call does not succeed. -/
inductive Failure
  | exitProcess
  | zkr (result : ZkResult)
  deriving DecidableEq

structure TreeChunk where
  /-- The level of its root. -/
  level : ℕ
  hash : Fea
  child1 : Child
  children2 : List Child
  children4 : List Child
  children8 : List Child
  children16 : List Child
  children32 : List Child
  children64 : List Child
  bHashValid : Bool
  bChildrenRestValid : Bool
  deriving DecidableEq

/-- A child of the lowest row that can be hashed. -/
def Child.isNode : Child → Bool
  | .zero => true
  | .leaf _ => true
  | .intermediate _ => true
  | _ => false

/-- The child at a position. -/
def childAt (row : List Child) (i : ℕ) : Child := row.getD i .unspecified

variable (smt : Smt)

/-! ## `calculateHash` -/

/-- `LeafNode::calculateHash`, with the pairs that it adds. -/
def LeafNode.calculateHash (leaf : LeafNode) : LeafNode × List HashValueGL :=
  let valueHash := smt.poseidon (valueNode leaf.value)
  let input : Node := ⟨removeKeyBits smt.shift leaf.key leaf.level, valueHash, capacityOne⟩
  ({ leaf with hash := smt.poseidon input }, [⟨valueHash, valueNode leaf.value⟩, ⟨smt.poseidon input, input⟩])

/-- `IntermediateNode::calculateHash`, with the pair that it adds. -/
def intermediateHash (leftHash rightHash : Fea) : Child × List HashValueGL :=
  let input : Node := ⟨leftHash, rightHash, capacityZero⟩
  (.intermediate (smt.poseidon input), [⟨smt.poseidon input, input⟩])

/-- What `calculateChild` leaves in its three children, with the pairs that it adds. -/
structure Calculated where
  left : Child
  right : Child
  output : Child
  hashValues : List HashValueGL

def TreeChunk.calculateChild (level : ℕ) : Child → Child → Except Failure Calculated
  | .zero, .zero => return ⟨.zero, .zero, .zero, []⟩
  | .zero, .leaf right =>
    let (right, hashValues) :=
      if level = 0 then { right with level := level }.calculateHash smt else (right, [])
    return ⟨.zero, .leaf right, .leaf right, hashValues⟩
  | .zero, .intermediate right =>
    let (output, hashValues) := intermediateHash smt 0 right
    return ⟨.zero, .intermediate right, output, hashValues⟩
  | .leaf left, .zero =>
    let (left, hashValues) :=
      if level = 0 then { left with level := level }.calculateHash smt else (left, [])
    return ⟨.leaf left, .zero, .leaf left, hashValues⟩
  | .leaf left, .leaf right =>
    let (left, leftValues) := { left with level := level + 1 }.calculateHash smt
    let (right, rightValues) := { right with level := level + 1 }.calculateHash smt
    let (output, hashValues) := intermediateHash smt left.hash right.hash
    return ⟨.leaf left, .leaf right, output, leftValues ++ rightValues ++ hashValues⟩
  | .leaf left, .intermediate right =>
    let (left, leftValues) := { left with level := level + 1 }.calculateHash smt
    let (output, hashValues) := intermediateHash smt left.hash right
    return ⟨.leaf left, .intermediate right, output, leftValues ++ hashValues⟩
  | .intermediate left, .zero =>
    let (output, hashValues) := intermediateHash smt left 0
    return ⟨.intermediate left, .zero, output, hashValues⟩
  | .intermediate left, .leaf right =>
    let (right, rightValues) := { right with level := level + 1 }.calculateHash smt
    let (output, hashValues) := intermediateHash smt left right.hash
    return ⟨.intermediate left, .leaf right, output, rightValues ++ hashValues⟩
  | .intermediate left, .intermediate right =>
    let (output, hashValues) := intermediateHash smt left right
    return ⟨.intermediate left, .intermediate right, output, hashValues⟩
  | _, _ => throw .exitProcess

/-- The input children afterwards, and the output children, with the pairs. -/
structure Row where
  input : List Child
  output : List Child
  hashValues : List HashValueGL

def TreeChunk.calculateChildren (level : ℕ) : List Child → Except Failure Row
  | [] => return ⟨[], [], []⟩
  | [_] => throw .exitProcess
  | left :: right :: rest => do
    let c ← calculateChild smt level left right
    let row ← calculateChildren level rest
    return ⟨c.left :: c.right :: row.input, c.output :: row.output, c.hashValues ++ row.hashValues⟩

/-- `Child::getHash` -/
def Child.getHash : Child → Except Failure Fea
  | .zero => return 0
  | .leaf node => return node.hash
  | .intermediate hash => return hash
  | _ => throw (.zkr .dbError)

def TreeChunk.calculateHash (chunk : TreeChunk) : Except Failure (TreeChunk × List HashValueGL) := do
  if chunk.bHashValid ∧ chunk.bChildrenRestValid then return (chunk, [])
  if chunk.level % 6 ≠ 0 then throw (.zkr .unspecified)
  let row64 ← calculateChildren smt (chunk.level + 5) chunk.children64
  let row32 ← calculateChildren smt (chunk.level + 4) row64.output
  let row16 ← calculateChildren smt (chunk.level + 3) row32.output
  let row8 ← calculateChildren smt (chunk.level + 2) row16.output
  let row4 ← calculateChildren smt (chunk.level + 1) row8.output
  let row2 ← calculateChildren smt chunk.level row4.output
  let child1 := childAt row2.output 0
  let hash ←
    match child1 with
    | .zero => pure 0
    | .leaf node => pure node.hash
    | .intermediate hash => pure hash
    | _ => throw (.zkr .unspecified)
  return ({ chunk with
      hash := hash
      child1 := child1
      children2 := row2.input
      children4 := row4.input
      children8 := row8.input
      children16 := row16.input
      children32 := row32.input
      children64 := row64.input
      bHashValid := true
      bChildrenRestValid := true },
    row64.hashValues ++ row32.hashValues ++ row16.hashValues ++ row8.hashValues ++ row4.hashValues ++
      row2.hashValues)

/-! ## `getHashValues` -/

/-- The pairs of a leaf: its value and the hash that it has, with the remaining key of one level. -/
def leafValues (level : ℕ) (leaf : LeafNode) : List HashValueGL :=
  let valueHash := smt.poseidon (valueNode leaf.value)
  [⟨valueHash, valueNode leaf.value⟩,
    ⟨leaf.hash, ⟨removeKeyBits smt.shift leaf.key (level + 5), valueHash, capacityOne⟩⟩]

/-- The pair of a node of children `positionLeft` and `positionLeft + 1` of the row below. -/
def intermediateValues (below : List Child) (position : ℕ) (hash : Fea) : Except Failure (List HashValueGL) := do
  let positionLeft := position <<< 1
  let positionRight := positionLeft + 1
  let left ← (childAt below positionLeft).getHash
  let right ← (childAt below positionRight).getHash
  return [⟨hash, ⟨left, right, capacityZero⟩⟩]

/-- The pairs of one row above `children64`. -/
def rowValues (level : ℕ) (row below : List Child) (position : ℕ) : Except Failure (List HashValueGL) :=
  match childAt row position with
  | .zero => return []
  | .leaf leaf => return leafValues smt level leaf
  | .intermediate hash => intermediateValues below position hash
  | _ => throw (.zkr .dbError)

/-- The pairs of `children64`, which has no row below. -/
def lowestValues (level : ℕ) (row : List Child) (position : ℕ) : Except Failure (List HashValueGL) :=
  match childAt row position with
  | .zero => return []
  | .leaf leaf => return leafValues smt level leaf
  | .intermediate _ => return []
  | _ => throw (.zkr .dbError)

def TreeChunk.getHashValues (chunk : TreeChunk) (children64Position : ℕ) : Except Failure (List HashValueGL) := do
  let position := children64Position
  let values64 ← lowestValues smt chunk.level chunk.children64 position
  let position := position >>> 1
  let values32 ← rowValues smt chunk.level chunk.children32 chunk.children64 position
  let position := position >>> 1
  let values16 ← rowValues smt chunk.level chunk.children16 chunk.children32 position
  let position := position >>> 1
  let values8 ← rowValues smt chunk.level chunk.children8 chunk.children16 position
  let position := position >>> 1
  let values4 ← rowValues smt chunk.level chunk.children4 chunk.children8 position
  let position := position >>> 1
  let values2 ← rowValues smt chunk.level chunk.children2 chunk.children4 position
  let position := position >>> 1
  let values1 ← rowValues smt chunk.level [chunk.child1] chunk.children2 position
  return values64 ++ values32 ++ values16 ++ values8 ++ values4 ++ values2 ++ values1

end ZkevmProver.HashDB64
