import ZkevmProver.HashDB.SmtTypes

/-!
# The state tree: `Smt::get` and `Smt::set`

The variable `level` of the source is the length of a path less one, so that `level < 0` is the
empty path.

  1. Saving a node under its hash.
  2. The walk down from the root along the bits of a key.
  3. The branches of `set`, one for each thing that can be at the end of the walk.
  4. The climb back to the root.
  5. `get` and `set`.
-/

namespace ZkevmProver

open Effects

/-- The tree, given the Poseidon hash and the machine's shifts. -/
structure Smt where
  poseidon : Node → Fea
  shift : WordShift

namespace Smt

variable (smt : Smt) (ctx : SmtContext)

def hashSave (v : Node) : SmtM Fea := do
  writeNode (smt.poseidon v) v
  return smt.poseidon v

def hashSaveZero (a : Fea × Fea) : SmtM Fea := smt.hashSave ⟨a.1, a.2, capacityZero⟩

def hashSaveOne (a : Fea × Fea) : SmtM Fea := smt.hashSave ⟨a.1, a.2, capacityOne⟩

/-- The index of the only group of `a` that is not zero. -/
def getUniqueSibling (a : Node) : Option (Fin 3) :=
  match (List.finRange 3).filter fun i => a.group i ≠ 0 with
  | [fnd] => some fnd
  | _ => none

/-! ## The walk down -/

/-- `keys[level]` and `siblings[level]`, from the current level up to level 0. -/
abbrev Path := List (Bool × Node)

/-- `accKey`: the key bits used so far, from level 0. -/
def accKey (path : Path) : List Bool := (path.map Prod.fst).reverse

/-- What the walk finds in a leaf. -/
structure Found where
  foundKey : Fea
  foundRKey : Fea
  foundValueHash : Fea
  foundValue : ℕ
  deriving DecidableEq

structure Descent where
  path : Path
  found : Option Found

/-- Reads a value node. -/
def readValue (hash : Fea) : SmtM ℕ := do
  let dbValue ← readNode hash
  return (fea2scalar 0 (dbValue.left, dbValue.right)).2

/-- Goes down from `r` while it is not zero, until a leaf. -/
def descend : List Bool → Fea → Path → SmtM Descent
  | keys, r, path =>
    if r = 0 then return ⟨path, none⟩
    else do
      let dbValue ← readNode r
      if dbValue.isLeaf then
        let foundValue ← readValue dbValue.right
        return ⟨path, some {
          foundKey := joinKey smt.shift (accKey path) dbValue.left
          foundRKey := dbValue.left
          foundValueHash := dbValue.right
          foundValue }⟩
      else
        match keys with
        | [] => .fail .outOfBounds
        | b :: keys => descend keys (dbValue.child b) ((b, dbValue) :: path)

/-- `siblings.size()` after the walk: the leaf has been stored too. -/
def Descent.siblingsSize (d : Descent) : ℕ := d.path.length + if d.found.isSome then 1 else 0

/-! ## The branches of `set` -/

/-- What a branch of `set` leaves for the climb back to the root. -/
structure SetState where
  mode : Mode
  path : Path
  newRoot : Fea
  insKey : Fea := 0
  insValue : ℕ := 0
  isOld0 : Bool := true
  oldValue : ℕ := 0
  siblingLeftChild : Fea := 0
  siblingRightChild : Fea := 0
  proofHashCounter : ℕ

/-- Overwrites a child.  The node it replaces is deleted, if asked to and unless it is the same; the
further test of the source, that its name is not `"0"`, always holds: a name has 64 digits. -/
def replaceChild (delete : Bool) (b : Bool) (sibling : Node) (hash : Fea) : SmtM Node := do
  if delete ∧ sibling.child b ≠ hash then deleteNode (sibling.child b)
  return sibling.setChild b hash

/-- Puts a hash at the end of a path; at the top of the tree it is the new root. -/
def place (delete : Bool) : Path → Fea → Fea → SmtM (Path × Fea)
  | [], _, hash => return ([], hash)
  | (b, sibling) :: above, newRoot, hash => do
    let sibling ← replaceChild delete b sibling hash
    return ((b, sibling) :: above, newRoot)

def setUpdate (value : ℕ) (f : Found) (path : Path) (newRoot : Fea) (proofHashCounter : ℕ) :
    SmtM SetState := do
  let newValH ← smt.hashSaveZero (scalar2fea value)
  let newLeafHash ← smt.hashSaveOne (f.foundRKey, newValH)
  let (path, newRoot) ←
    place (ctx.bUseStateManager && f.foundValue ≠ value) path newRoot newLeafHash
  return {
    mode := .update, path, newRoot, oldValue := f.foundValue
    proofHashCounter := proofHashCounter + 2 }

/-- The bits that two keys have in common, and the first bit of the first key where they differ. -/
def commonBits : List Bool → List Bool → Option (List Bool × Bool)
  | b :: keys, b' :: foundKeys =>
    if b = b' then (commonBits keys foundKeys).map fun c => (b :: c.1, c.2) else some ([], b)
  | _, _ => none

/-- Creates the intermediate nodes of a list of bits, deepest first, with nothing beside them. -/
def extend : List Bool → Fea → SmtM Fea
  | [], r2 => return r2
  | b :: bits, r2 => do
    let r2 ← smt.hashSaveZero (sides b r2 0)
    extend bits r2

def setInsertFound (key : Fea) (value : ℕ) (f : Found) (path : Path) (newRoot : Fea)
    (proofHashCounter : ℕ) : SmtM SetState :=
  match commonBits ((splitKey key).drop path.length) ((splitKey f.foundKey).drop path.length) with
  | none => .fail .outOfBounds
  | some (common, b) => do
    let level2 := path.length + common.length
    let oldKey := removeKeyBits smt.shift f.foundKey (level2 + 1)
    let oldLeafHash ← smt.hashSaveOne (oldKey, f.foundValueHash)
    let newKey := removeKeyBits smt.shift key (level2 + 1)
    let newValH ← smt.hashSaveZero (scalar2fea value)
    let newLeafHash ← smt.hashSaveOne (newKey, newValH)
    let r2 ← smt.hashSaveZero (sides b newLeafHash oldLeafHash)
    let r2 ← smt.extend common.reverse r2
    let (path, newRoot) ← place false path newRoot r2
    return {
      mode := .insertFound, path, newRoot
      insKey := f.foundKey, insValue := f.foundValue, isOld0 := false
      proofHashCounter := proofHashCounter + 4 + common.length }

def setInsertNotFound (key : Fea) (value : ℕ) (path : Path) (newRoot : Fea)
    (proofHashCounter : ℕ) : SmtM SetState := do
  let newKey := removeKeyBits smt.shift key path.length
  let newValH ← smt.hashSaveZero (scalar2fea value)
  let newLeafHash ← smt.hashSaveOne (newKey, newValH)
  let (path, newRoot) ← place ctx.bUseStateManager path newRoot newLeafHash
  return { mode := .insertNotFound, path, newRoot, proofHashCounter := proofHashCounter + 2 }

/-- The end of a deletion that leaves the branch where it is: reads the children of the sibling. -/
def setDeleteNotFound (oldValue : ℕ) (b : Bool) (sibling : Node) (above : Path) (newRoot : Fea)
    (proofHashCounter : ℕ) : SmtM SetState := do
  let dbValue ← readNode (sibling.child (!b))
  return {
    mode := .deleteNotFound, path := (b, sibling) :: above, newRoot, oldValue
    siblingLeftChild := dbValue.left, siblingRightChild := dbValue.right
    proofHashCounter := proofHashCounter + 1 }

/-- The end of a deletion that leaves a lone leaf: moves it up to the next level with two
siblings. -/
def setDeleteFound (oldValue : ℕ) (bits : List Bool) (leaf : Node) (above : Path) (newRoot : Fea)
    (proofHashCounter : ℕ) : SmtM SetState := do
  let valH := leaf.right
  let val ← readValue valH
  let insKey := joinKey smt.shift bits leaf.left
  let path := above.dropWhile fun s => (getUniqueSibling s.2).isSome
  let oldKey := removeKeyBits smt.shift insKey path.length
  let oldLeafHash ← smt.hashSaveOne (oldKey, valH)
  let (path, newRoot) ← place false path newRoot oldLeafHash
  return {
    mode := .deleteFound, path, newRoot, oldValue
    insKey, insValue := val, isOld0 := false, proofHashCounter := proofHashCounter + 3 }

def setDelete (f : Found) (path : Path) (newRoot : Fea) (proofHashCounter : ℕ) : SmtM SetState :=
  match path with
  | [] =>
    return { mode := .deleteNotFound, path := [], newRoot := 0, oldValue := f.foundValue
             proofHashCounter }
  | (b, sibling) :: above => do
    if ctx.bUseStateManager then deleteNode (sibling.child b)
    let sibling := sibling.setChild b 0
    match getUniqueSibling sibling with
    | none => setDeleteNotFound f.foundValue b sibling above newRoot proofHashCounter
    | some uKey => do
      let dbValue ← readNode (sibling.group uKey)
      if dbValue.isLeaf then
        smt.setDeleteFound f.foundValue (accKey above ++ [decide (uKey ≠ 0)]) dbValue above newRoot
          proofHashCounter
      else
        setDeleteNotFound f.foundValue b sibling above newRoot proofHashCounter

def setZeroToZero (found : Option Found) (path : Path) (oldRoot : Fea) (proofHashCounter : ℕ) :
    SetState :=
  match found with
  | some f =>
    { mode := .zeroToZero, path, newRoot := oldRoot
      insKey := f.foundKey, insValue := f.foundValue, isOld0 := false, proofHashCounter }
  | none => { mode := .zeroToZero, path, newRoot := oldRoot, proofHashCounter }

/-- The branch that `set` takes on what the walk found. -/
def setBranch (key : Fea) (value : ℕ) (d : Descent) (oldRoot : Fea) (proofHashCounter : ℕ) :
    SmtM SetState :=
  if value ≠ 0 then
    match d.found with
    | some f =>
      if key = f.foundKey then smt.setUpdate ctx value f d.path oldRoot proofHashCounter
      else smt.setInsertFound key value f d.path oldRoot proofHashCounter
    | none => smt.setInsertNotFound ctx key value d.path oldRoot proofHashCounter
  else
    match d.found with
    | some f =>
      if key = f.foundKey then smt.setDelete ctx f d.path oldRoot proofHashCounter
      else return setZeroToZero d.found d.path oldRoot proofHashCounter
    | none => return setZeroToZero d.found d.path oldRoot proofHashCounter

/-! ## The climb up -/

/-- Overwrites, level by level, the child on the path with the hash from below, and saves. Returns
the new root and the siblings of level 0, 1, … -/
def climb : Path → Fea → SmtM (Fea × List Node)
  | [], newRoot => return (newRoot, [])
  | (b, sibling) :: above, newRoot => do
    let sibling ← replaceChild ctx.bUseStateManager b sibling newRoot
    let newRoot ← smt.hashSave sibling
    let (newRoot, siblings) ← climb above newRoot
    return (newRoot, siblings ++ [sibling])

/-- Saves the last sibling, whose child is in place already, and climbs from there. -/
def rebuild : Path → Fea → SmtM (Fea × List Node)
  | [], newRoot => return (newRoot, [])
  | (_, sibling) :: above, _ => do
    let newRoot ← smt.hashSave sibling
    let (newRoot, siblings) ← smt.climb ctx above newRoot
    return (newRoot, siblings ++ [sibling])

/-! ## The two calls -/

/-- What `set` does before the walk. -/
def openState (oldRoot : Fea) : SmtM Unit := do
  if ctx.bUseStateManager then setOldStateRoot oldRoot

/-- What `set` does once the new root is known. -/
def closeState (oldRoot newRoot : Fea) : SmtM Unit := do
  if ctx.bUseStateManager then setNewStateRoot newRoot
  else if ctx.persistence = .database ∧ oldRoot ≠ newRoot then updateStateRoot newRoot

def set (oldRoot key : Fea) (value : ℕ) : SmtM SmtSetResult := do
  openState ctx oldRoot
  let d ← smt.descend (splitKey key) oldRoot []
  let foundValue := (d.found.map Found.foundValue).getD 0
  let proofHashCounter :=
    if oldRoot ≠ 0 then
      min d.siblingsSize d.path.length + if foundValue ≠ 0 then 2 else 0
    else 0
  let st ← smt.setBranch ctx key value d oldRoot proofHashCounter
  let proofHashCounterIncrement := if st.mode = .zeroToZero then 0 else 1
  let (newRoot, siblings) ← smt.rebuild ctx st.path st.newRoot
  closeState ctx oldRoot newRoot
  return {
    oldRoot, newRoot, key, siblings
    insKey := st.insKey, insValue := st.insValue, isOld0 := st.isOld0
    oldValue := st.oldValue, newValue := value, mode := st.mode
    proofHashCounter := st.proofHashCounter + proofHashCounterIncrement * st.path.length
    siblingLeftChild := st.siblingLeftChild, siblingRightChild := st.siblingRightChild }

def get (root key : Fea) : SmtM SmtGetResult := do
  let d ← smt.descend (splitKey key) root []
  let siblings := (d.path.map Prod.snd).reverse
  let r : SmtGetResult :=
    match d.found with
    | some f =>
      if key = f.foundKey then
        { root, key, siblings, insKey := 0, insValue := 0, isOld0 := true, value := f.foundValue
          proofHashCounter := 0 }
      else
        { root, key, siblings, insKey := f.foundKey, insValue := f.foundValue, isOld0 := false
          value := 0, proofHashCounter := 0 }
    | none =>
      { root, key, siblings, insKey := 0, insValue := 0, isOld0 := true, value := 0
        proofHashCounter := 0 }
  return { r with
    proofHashCounter :=
      if root ≠ 0 then siblings.length + if r.value ≠ 0 ∨ ¬ r.isOld0 then 2 else 0 else 0 }

end Smt

end ZkevmProver
