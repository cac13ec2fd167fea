import ZkevmProver.HashDB.SmtTree
import ZkevmProver.Lib.Fallible
import ZkevmProver.Prover.Cbor

/-!
# `witness.cpp`

A witness is a state tree written in pre-order, of which the hashes, the nodes and the programs are put
into a database.

1. The context
2. The opcodes
3. Nodes
-/

namespace ZkevmProver

/-! ## The context -/

/-- What ends a call early: an error that is returned, a byte read after the terminator, or the end of the
process. -/
inductive WitnessStop
  | invalidWitness
  | cborInvalidData
  | overRead
  | exitProcess
  deriving DecidableEq

/-- `none` where calls of `cbor2result` are nested deeper than allowed for. -/
abbrev Witnessing (α : Type) : Type := ExceptT WitnessStop Option α

/-- What is read for a leaf. -/
structure WitnessLeaf where
  nodeType : ℕ
  address : ℕ
  storageKey : ℕ
  value : ℕ
  deriving DecidableEq

structure WitnessContext where
  p : ℕ
  db : List (Fea × Node)
  programs : List (Fea × List UInt8)
  /-- The leaves so far, which the source does not keep. -/
  leaves : List WitnessLeaf

/-- The Poseidon hash, the machine's shifts, and `poseidonLinearHash`. -/
structure WitnessHash extends Smt where
  linearHash : List UInt8 → Fea

section Parser

variable (H : WitnessHash) (depth : ℕ) (witness : List UInt8)

/-- A call of one of the functions of `cbor.cpp` at the current position. -/
def cborCall {α : Type} (cbor : ℕ → List UInt8 → ℕ → Option (CborOutcome α)) (ctx : WitnessContext) :
    Witnessing (α × WitnessContext) :=
  match cbor depth witness ctx.p with
  | some (.success value p) => pure (value, { ctx with p })
  | some .invalidData => throw .cborInvalidData
  | some .overRead => throw .overRead
  | none => ExceptT.mk none

/-- The byte at the current position. -/
def nextByte (ctx : WitnessContext) : Witnessing (UInt8 × WitnessContext) :=
  if ctx.p ≥ witness.length then throw .invalidWitness
  else pure (charAt witness ctx.p, { ctx with p := ctx.p + 1 })

/-- Stores a node under its hash. -/
def WitnessHash.save (node : Node) (ctx : WitnessContext) : Fea × WitnessContext :=
  (H.poseidon node, { ctx with db := (H.poseidon node, node) :: ctx.db })

/-! ## The opcodes -/

/-- The hash of a child that the mask may have or not. -/
def witnessChild (child : List Bool → WitnessContext → Witnessing (Fea × WitnessContext))
    (hasChild : Bool) (bits : List Bool) (ctx : WitnessContext) : Witnessing (Fea × WitnessContext) :=
  if hasChild then child bits ctx else pure (0, ctx)

/-- `BRANCH`, where `child` parses a child whose key bits it is given. -/
def witnessBranch (child : List Bool → WitnessContext → Witnessing (Fea × WitnessContext))
    (bits : List Bool) (ctx : WitnessContext) : Witnessing (Fea × WitnessContext) := do
  let (mask, ctx) ← cborCall depth witness cbor2u64 ctx
  if mask ≠ 1 ∧ mask ≠ 2 ∧ mask ≠ 3 then throw .invalidWitness
  else
    let (leftHash, ctx) ← witnessChild child (mask ≠ 2) (bits ++ [false]) ctx
    let (rightHash, ctx) ← witnessChild child (mask ≠ 1) (bits ++ [true]) ctx
    pure (H.save ⟨leftHash, rightHash, capacityZero⟩ ctx)

/-- `Kin1`: the elements that are hashed to the key of an account. -/
def keyNode (address nodeType : ℕ) (Kin0Hash : Fea) : Node :=
  let Kin1 := scalar2fea address
  ⟨Kin1.1, { Kin1.2 with fe2 := fromU64 nodeType }, Kin0Hash⟩

/-- The key of a balance, a nonce, a code hash, a storage slot or a code length. -/
def WitnessHash.key (leaf : WitnessLeaf) : Fea :=
  H.poseidon (keyNode leaf.address leaf.nodeType (H.poseidon (valueNode leaf.storageKey)))

/-- Stores a leaf below the bits of a path. -/
def witnessLeafNode (bits : List Bool) (leaf : WitnessLeaf) (ctx : WitnessContext) :
    Witnessing (Fea × WitnessContext) :=
  let key := H.key leaf
  let (valueHash, ctx) := H.save (valueNode leaf.value) ctx
  if (splitKey key).take bits.length ≠ bits then throw .invalidWitness
  else
    let rkey := removeKeyBits H.shift key bits.length
    let (hash, ctx) := H.save ⟨rkey, valueHash, capacityOne⟩ ctx
    pure (hash, { ctx with leaves := leaf :: ctx.leaves })

/-- The storage key, which only a leaf of the storage has. -/
def witnessStorageKey (nodeType : UInt8) (ctx : WitnessContext) : Witnessing (ℕ × WitnessContext) :=
  if nodeType = 3 then cborCall depth witness cbor2scalar ctx else pure (0, ctx)

/-- `SMT_LEAF` -/
def witnessLeaf (bits : List Bool) (ctx : WitnessContext) : Witnessing (Fea × WitnessContext) := do
  let (nodeType, ctx) ← nextByte witness ctx
  let (address, ctx) ← cborCall depth witness cbor2scalar ctx
  let (storageKey, ctx) ← witnessStorageKey depth witness nodeType ctx
  let (value, ctx) ← cborCall depth witness cbor2scalar ctx
  let Kin1 := (scalar2fea address).2
  if Kin1.fe1 ≠ 0 ∨ Kin1.fe2 ≠ 0 ∨ Kin1.fe3 ≠ 0 then throw .invalidWitness
  -- a balance leaves element 6 as it is, which is zero
  else if nodeType > 4 then throw .invalidWitness
  else witnessLeafNode H bits { nodeType := nodeType.toNat, address, storageKey, value } ctx

/-- `HASH` -/
def witnessHash (ctx : WitnessContext) : Witnessing (Fea × WitnessContext) :=
  if ctx.p + 32 > witness.length then throw .invalidWitness
  else
    match scalar2hash (ba2scalar ((witness.drop ctx.p).take 32)) with
    | some hash => pure (hash, { ctx with p := ctx.p + 32 })
    | none => throw .exitProcess

/-- `CODE` -/
def witnessCode (ctx : WitnessContext) : Witnessing WitnessContext := do
  let (program, ctx) ← cborCall depth witness cbor2ba ctx
  if program.isEmpty then throw .invalidWitness
  else pure { ctx with programs := (H.linearHash program, program) :: ctx.programs }

/-! ## Nodes -/

/-- An opcode, `none` standing for the hash where it is `CODE`. -/
def witnessOpcode (child : List Bool → WitnessContext → Witnessing (Fea × WitnessContext))
    (bits : List Bool) (afterCode : Bool) (ctx : WitnessContext) :
    Witnessing (Option Fea × WitnessContext) := do
  let (opcode, ctx) ← nextByte witness ctx
  if opcode = 0x02 then
    let (hash, ctx) ← witnessBranch H depth witness child bits ctx
    pure (some hash, ctx)
  else if opcode = 0x07 then
    let (hash, ctx) ← witnessLeaf H depth witness bits ctx
    pure (some hash, ctx)
  else if opcode = 0x03 then
    let (hash, ctx) ← witnessHash witness ctx
    pure (some hash, ctx)
  else if opcode = 0x04 then
    if afterCode then throw .invalidWitness
    else
      let ctx ← witnessCode H depth witness ctx
      pure (none, ctx)
  else throw .invalidWitness

/-- A node: an opcode, and one more where the first is `CODE`.  The level is the number of bits. -/
def calculateWitnessHash : ℕ → List Bool → WitnessContext → Witnessing (Fea × WitnessContext)
  | 0, _, _ => ExceptT.mk none
  | levels + 1, bits, ctx =>
    if bits.length > 255 then throw .invalidWitness
    else do
      let (hash, ctx) ← witnessOpcode H depth witness (calculateWitnessHash levels) bits false ctx
      match hash with
      | some hash => pure (hash, ctx)
      | none =>
        let (hash, ctx) ← witnessOpcode H depth witness (calculateWitnessHash levels) bits true ctx
        match hash with
        | some hash => pure (hash, ctx)
        -- not reached: a second `CODE` is refused
        | none => throw .invalidWitness

/-- The state root, and the context at the end.  Levels from 0 to 256 are entered. -/
def witness2db : Witnessing (ℕ × WitnessContext) :=
  if witness.isEmpty then throw .invalidWitness
  else if charAt witness 0 ≠ 1 then throw .invalidWitness
  else do
    let (hash, ctx) ← calculateWitnessHash H depth witness 257 []
      { p := 1, db := [], programs := [], leaves := [] }
    pure (hash2scalar hash, ctx)

end Parser

end ZkevmProver
