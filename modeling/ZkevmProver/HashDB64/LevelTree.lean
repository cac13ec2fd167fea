import ZkevmProver.HashDB64.MixKey
import Mathlib.Logic.Function.Basic

/-!
# The level tree

A radix tree over mixed keys, kept in two vectors: the slots of all nodes, one node after the other,
and the pile of keys.  A slot is zero when it is empty, the number of a node when it is positive, and
minus the number of a key of the pile when it is negative.

The vectors double, with zeros, when their last element comes into use, so they are functions here.

1. The data
2. Nodes and keys: `addNode`, `addKey`, `removeKey`
3. `levelInNode`
4. The descent, and `insert`, `level`, `extract`
-/

namespace ZkevmProver

/-! ## The data -/

/-- The words of the pile that belong to one key. -/
structure PileSlot where
  key : KeyWords
  /-- The number of insertions, when they are counted. -/
  counter : ℕ
  /-- The last value of the key, in a `KVTree`. -/
  value : ℕ

structure LevelTree where
  nBitsStep : ℕ
  useInsertCounters : Bool
  nodes : ℕ → ℤ
  nNodes : ℕ
  pile : ℕ → PileSlot
  nKeys : ℕ
  /-- The last one that was emptied comes first. -/
  emptyNodes : List ℕ
  emptyKeys : List ℕ

/-- `1 << n` in a 32-bit `int`, which is not defined from bit 31 on. -/
def intShiftOne (n : ℕ) : Option ℕ := if n < 31 then some (2 ^ n) else none

namespace LevelTree

/-- `postConstruct`.  `none` when an assertion fails or the size of a node is not defined. -/
def new (nBitsStep : ℕ) (useInsertCounters : Bool) : Option LevelTree :=
  if 256 % nBitsStep = 0 ∧ nBitsStep ≤ 32 then
    (intShiftOne nBitsStep).map fun _ =>
      { nBitsStep := nBitsStep
        useInsertCounters := useInsertCounters
        nodes := fun _ => 0
        nNodes := 1
        pile := fun _ => ⟨⟨0, 0, 0, 0⟩, 0, 0⟩
        nKeys := 1
        emptyNodes := []
        emptyKeys := [] }
  else none

variable (t : LevelTree)

def nodeSize : ℕ := 2 ^ t.nBitsStep

def nSteps : ℕ := 256 / t.nBitsStep

/-- `nodes[node * nodeSize + index]` -/
def slot (node index : ℕ) : ℤ := t.nodes (node * t.nodeSize + index)

/-- `nodes[node * nodeSize + index] = v` -/
def setSlot (node index : ℕ) (v : ℤ) : LevelTree :=
  { t with nodes := Function.update t.nodes (node * t.nodeSize + index) v }

/-- `getKey(-v)`, of a negative slot -/
def keyAt (v : ℤ) : KeyWords := (t.pile (-v).toNat).key

abbrev stepIndex (key : KeyWords) (step : ℕ) : ℕ := getStepIndex t.nBitsStep key step

/-! ## Nodes and keys -/

/-- The tree with one more node, and its number. -/
def addNode : LevelTree × ℕ :=
  match t.emptyNodes with
  | node :: rest => ({ t with emptyNodes := rest }, node)
  | [] => ({ t with nNodes := t.nNodes + 1 }, t.nNodes)

def setPile (keyId : ℕ) (s : PileSlot) : LevelTree :=
  { t with pile := Function.update t.pile keyId s }

/-- The number for the next key. -/
def allocKey : LevelTree × ℕ :=
  match t.emptyKeys with
  | keyId :: rest => ({ t with emptyKeys := rest }, keyId)
  | [] => ({ t with nKeys := t.nKeys + 1 }, t.nKeys)

/-- The tree with one more key in its pile, and its number. -/
def addKey (key : KeyWords) : LevelTree × ℕ :=
  let (t, keyId) := t.allocKey
  let s := t.pile keyId
  (t.setPile keyId
    { s with key := key, counter := if t.useInsertCounters then s.counter + 1 else s.counter },
    keyId)

/-- Counts one insertion of the key more. -/
def recount (keyIdx : ℕ) : LevelTree :=
  let s := t.pile keyIdx
  if t.useInsertCounters then t.setPile keyIdx { s with counter := s.counter + 1 } else t

/-- Counts one insertion of the key less; the key goes when it was the last one. -/
def removeKey (keyIdx : ℕ) : LevelTree × Bool :=
  let s := t.pile keyIdx
  if !t.useInsertCounters || s.counter == 1 then
    let s' := { s with
      key := ⟨0, 0, 0, 0⟩, counter := if t.useInsertCounters then 0 else s.counter }
    ({ t.setPile keyIdx s' with emptyKeys := keyIdx :: t.emptyKeys }, true)
  else (t.setPile keyIdx { s with counter := s.counter - 1 }, false)

/-! ## Levels -/

/-- Whether one of the slots `start`, …, `start + inc - 1` is taken, apart from `globalIdx`. -/
def someTaken (globalIdx start inc : ℕ) : Bool :=
  (List.range' start inc).any fun i => t.nodes i ≠ 0 && i ≠ globalIdx

/-- The loop of `levelInNode`, with `m` rounds left. -/
def levelLoop (globalIdx : ℕ) : ℕ → ℕ → ℕ → ℕ → ℕ
  | 0, _, _, nbits => nbits
  | m + 1, auxIndex, start, nbits =>
    let inc := 2 ^ m
    let start := if inc ≤ auxIndex then start + inc else start
    let auxIndex := if inc ≤ auxIndex then auxIndex - inc else auxIndex
    if t.someTaken globalIdx start inc then levelLoop globalIdx m auxIndex start (nbits + 1)
    else nbits

/-- The number of bits that the slot has in common with another slot of the node that is taken. -/
def levelInNode (nodeId localIdx : ℕ) : ℕ :=
  -- `globalIdx` is a 16-bit word
  let globalIdx := (localIdx + nodeId * t.nodeSize) % 2 ^ 16
  t.levelLoop globalIdx t.nBitsStep localIdx (nodeId * t.nodeSize) 0

/-! ## The descent -/

/-- The slot where the descent of a key ends, which is not that of a node. -/
structure Spot where
  step : ℕ
  node : ℕ
  index : ℕ
  /-- The content of the slot. -/
  next : ℤ
  /-- The nodes of the steps before, the last one first. -/
  above : List ℕ

/-- The loop over the steps, with `m` of them left; `none` where the loop ends. -/
def descend (key : KeyWords) : ℕ → ℕ → ℕ → List ℕ → Option Spot
  | 0, _, _, _ => none
  | m + 1, step, node, above =>
    let index := t.stepIndex key step
    let next := t.slot node index
    if 0 < next then descend key m (step + 1) next.toNat (node :: above)
    else some ⟨step, node, index, next, above⟩

/-- The descent from the root. -/
def find (key : KeyWords) : Option Spot := t.descend key t.nSteps 0 0 []

/-! ## `insert` -/

/-- Moves the key of a slot, `nextPileIdxPKey`, and a new key, `nextPileIdxKey`, down to the first
node where they part, with `m` steps left. -/
def insertSplit (mixedKey pileKey : KeyWords) (nextPileIdxKey nextPileIdxPKey : ℤ) :
    ℕ → LevelTree → ℕ → ℕ → ℕ → Option (LevelTree × ℕ)
  | 0, _, _, _, _ => none
  | m + 1, t, step, currentNode, index =>
    let (t, addedNode) := t.addNode
    let t := t.setSlot currentNode index addedNode
    let nextIndexKey := t.stepIndex mixedKey (step + 1)
    let nextIndexPKey := t.stepIndex pileKey (step + 1)
    if nextIndexKey ≠ nextIndexPKey then
      let t := t.setSlot addedNode nextIndexKey nextPileIdxKey
      let t := t.setSlot addedNode nextIndexPKey nextPileIdxPKey
      some (t, (step + 1) * t.nBitsStep + t.levelInNode addedNode nextIndexKey)
    else insertSplit mixedKey pileKey nextPileIdxKey nextPileIdxPKey m t (step + 1) addedNode
      nextIndexKey

structure InsertResult where
  tree : LevelTree
  level : ℕ
  pileIdx : ℕ

/-- `none` where the assertion at its end fails. -/
protected def insert (key : KeyWords) : Option InsertResult := do
  let mixedKey := mixKey key
  let spot ← t.find mixedKey
  if spot.next = 0 then
    let (t, pileIdx) := t.addKey mixedKey
    let t := t.setSlot spot.node spot.index (-pileIdx)
    return ⟨t, spot.step * t.nBitsStep + t.levelInNode spot.node spot.index, pileIdx⟩
  else
    let pileKey := t.keyAt spot.next
    if pileKey ≠ mixedKey then
      let (t, pileIdx) := t.addKey mixedKey
      let (t, level) ← insertSplit mixedKey pileKey (-pileIdx) spot.next (t.nSteps - spot.step) t
        spot.step spot.node spot.index
      return ⟨t, level, pileIdx⟩
    else
      let pileIdx := (-spot.next).toNat
      let t := t.recount pileIdx
      return ⟨t, spot.step * t.nBitsStep + t.levelInNode spot.node spot.index, pileIdx⟩

/-! ## `level` -/

structure LevelResult where
  level : ℕ
  /-- `none` is `-1`. -/
  pileIdx : Option ℕ
  deriving DecidableEq

def level (key : KeyWords) : Option LevelResult := do
  let mixedKey := mixKey key
  let spot ← t.find mixedKey
  let nbits := spot.step * t.nBitsStep + t.levelInNode spot.node spot.index
  if spot.next = 0 then return ⟨nbits, none⟩
  else
    let common := commonBits mixedKey (t.keyAt spot.next) nbits
    return ⟨common, if common = nbits then some (-spot.next).toNat else none⟩

/-! ## `extract` -/

/-- The slots of a node that are taken. -/
def taken (node : ℕ) : List ℕ := (List.range t.nodeSize).filter fun i => t.slot node i ≠ 0

/-- Moves a key that is alone in its node to the node above, and so on. -/
def climb : LevelTree → ℕ → ℕ → List ℕ → LevelTree
  | t, _, _, [] => t
  | t, step, node, up :: above =>
    match t.taken node with
    | [i] =>
      let v := t.slot node i
      if v < 0 then
        let t := t.setSlot node i 0
        let indexPrev := t.stepIndex (t.keyAt v) (step - 1)
        climb (t.setSlot up indexPrev v) (step - 1) up above
      else t
    | _ => t

structure ExtractResult where
  tree : LevelTree
  found : Bool
  /-- `none` is `-1`. -/
  pileIdx : Option ℕ

def extract (key : KeyWords) : Option ExtractResult := do
  let mixedKey := mixKey key
  let spot ← t.find mixedKey
  if spot.next = 0 then return ⟨t, false, none⟩
  else if t.keyAt spot.next ≠ mixedKey then return ⟨t, false, none⟩
  else
    let pileIdx := (-spot.next).toNat
    let (t, removed) := t.removeKey pileIdx
    let t := if removed then t.setSlot spot.node spot.index 0 else t
    return ⟨t.climb spot.step spot.node spot.above, true, some pileIdx⟩

end LevelTree

end ZkevmProver
