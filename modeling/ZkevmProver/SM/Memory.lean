import ZkevmProver.Lib.Loops
import ZkevmProver.Lib.SortedAccesses
import ZkevmProver.Utils.Goldilocks
import Mathlib.Data.Fintype.Basic

/-!
# The memory of the prover

The memory operations of the main executor, and the rows that `MemoryExecutor` writes for them.

  1. The accesses of the main executor.
  2. The executor.
  3. What the rows have to show.
-/

namespace ZkevmProver

open Function

/-- A word of memory. -/
abbrev MemWord := Fin 8 → Fe

structure MemoryAccess where
  bIsWrite : Bool
  /-- `address` and `pc` are `uint64_t`. -/
  address : ℕ
  pc : ℕ
  /-- `fe0`, …, `fe7` -/
  fe : MemWord
  deriving DecidableEq

/-! ## The accesses of the main executor -/

abbrev CTX_OFFSET : ℕ := 0x40000
abbrev STACK_OFFSET : ℕ := 0x10000
abbrev MEM_OFFSET : ℕ := 0x20000

/-- A step whose `mOp` is set, and the registers that it reads. -/
structure MemoryOp where
  mWR : Bool
  /-- The address before the offsets, from `E0`, `RR`, the offset of the line and `SP`. -/
  addrRel : ℤ
  useCTX : Bool
  isStack : Bool
  isMem : Bool
  CTX : Fe
  /-- `op0`, …, `op7` -/
  op : MemWord

inductive MemoryError
  /-- `ZKR_SM_MAIN_ADDRESS_OUT_OF_RANGE` -/
  | addressOutOfRange
  /-- `ZKR_SM_MAIN_ADDRESS_NEGATIVE` -/
  | addressNegative
  /-- `ZKR_SM_MAIN_MEMORY` -/
  | mismatch
  deriving DecidableEq

namespace MemoryOp

/-- `addr`, a `uint64_t`. -/
def addr (o : MemoryOp) : Except MemoryError ℕ :=
  if o.addrRel ≥ (if o.isMem then 0x20000 else 0x10000) - 2048 then throw .addressOutOfRange
  else if o.addrRel < 0 then throw .addressNegative
  else pure ((o.addrRel.toNat + (if o.useCTX then toU64 o.CTX * CTX_OFFSET else 0) +
    (if o.isStack then STACK_OFFSET else 0) + (if o.isMem then MEM_OFFSET else 0)) % 2 ^ 64)

end MemoryOp

/-- `ctx.mem` and `required.Memory`. -/
structure MemoryContext where
  mem : ℕ → Option MemWord := fun _ => none
  required : List MemoryAccess := []

namespace MemoryContext

/-- The memory operation of step `i`, not in a batch that is only processed. -/
def exec (i : ℕ) (o : MemoryOp) (ctx : MemoryContext) : Except MemoryError MemoryContext := do
  let addr ← o.addr
  let required := ctx.required ++ [⟨o.mWR, addr, i, o.op⟩]
  if o.mWR then return ⟨update ctx.mem addr (some o.op), required⟩
  else if o.op = (ctx.mem addr).getD 0 then return { ctx with required }
  else throw .mismatch

/-- The steps from `i` on; not every step has a memory operation. -/
def run : ℕ → List (Option MemoryOp) → MemoryContext → Except MemoryError MemoryContext
  | _, [], ctx => pure ctx
  | i, none :: steps, ctx => run (i + 1) steps ctx
  | i, some o :: steps, ctx => do run (i + 1) steps (← ctx.exec i o)

end MemoryContext

/-- The accesses of a main executor whose steps do not fail. -/
def mainAccesses (steps : List (Option MemoryOp)) : Except MemoryError (List MemoryAccess) := do
  return (← MemoryContext.run 0 steps {}).required

/-! ## The executor -/

/-- The committed polynomials, by index. -/
structure MemCommitPols where
  addr : ℕ → Fe := fun _ => 0
  step : ℕ → Fe := fun _ => 0
  mOp : ℕ → Fe := fun _ => 0
  mWr : ℕ → Fe := fun _ => 0
  val : ℕ → MemWord := fun _ => 0
  lastAccess : ℕ → Fe := fun _ => 0

namespace MemoryExecutor

/-- `MemCommitPols::pilDegree()`, which is also the number of steps of the main executor. -/
def pilDegree : ℕ := 8388608

/-- `MemoryAccessCompare` -/
def lt (a b : MemoryAccess) : Bool :=
  if a.address = b.address then a.pc < b.pc else a.address < b.address

/-- `auxMap[a] = i`: an equivalent key stays. -/
def insert (a : MemoryAccess) : List MemoryAccess → List MemoryAccess
  | [] => [a]
  | b :: map => if lt a b then a :: b :: map else if lt b a then b :: insert a map else b :: map

/-- `reorder` -/
def reorder (input : List MemoryAccess) : List MemoryAccess :=
  input.foldl (fun auxMap a => insert a auxMap) []

/-- The evaluation of access `i`; `none` when there is no such access. -/
def accessRow (access : List MemoryAccess) (inputSize : ℕ) (pols : MemCommitPols) (i : ℕ) :
    Option MemCommitPols :=
  access[i]?.map fun a =>
    { addr := update pols.addr i (fromU64 a.address)
      step := update pols.step i (fromU64 a.pc)
      mOp := update pols.mOp i 1
      mWr := if a.bIsWrite then update pols.mWr i 1 else pols.mWr
      val := update pols.val i a.fe
      lastAccess :=
        if i < inputSize - 1 ∧ access[i + 1]?.map (·.address) = some a.address then pols.lastAccess
        else update pols.lastAccess i 1 }

/-- An evaluation after the last access. -/
def fillRow (lastAddr : Fe) (i : ℕ) (s : MemCommitPols × ℕ) : MemCommitPols × ℕ :=
  let prevStep := s.2 + 1
  ({ s.1 with
    addr := update s.1.addr i lastAddr
    step := update s.1.step i (fromU64 prevStep) }, prevStep)

/-- `MemoryExecutor::execute`; `none` when the process exits, or reads outside of the accesses. -/
def execute (N : ℕ) (input : List MemoryAccess) (pols : MemCommitPols) : Option MemCommitPols := do
  let inputSize := input.length
  if inputSize > N then none
  else
    let access := reorder input
    let pols ← (List.range inputSize).foldlM (accessRow access inputSize) pols
    let (lastAddr, prevStep) :=
      if inputSize > 0 then (pols.addr (inputSize - 1) + 1, toU64 (pols.step (inputSize - 1)))
      else (0, 0)
    let (pols, _) := Loops.forUpTo (N - inputSize) (fun j => fillRow lastAddr (inputSize + j))
      (pols, prevStep)
    return { pols with lastAccess := update pols.lastAccess (N - 1) 1 }

end MemoryExecutor

/-! ## What the rows have to show -/

namespace MemCommitPols

/-- The value of the latest write to the address before row `i`, zero if there is none. -/
def latest (pols : MemCommitPols) (addr : Fe) : ℕ → MemWord
  | 0 => 0
  | i + 1 => if pols.addr i = addr ∧ pols.mWr i = 1 then pols.val i else latest pols addr i

/-- Row `i` is that of an access. -/
structure Shows (pols : MemCommitPols) (i : ℕ) (a : MemoryAccess) : Prop where
  addr : toU64 (pols.addr i) = a.address
  step : toU64 (pols.step i) = a.pc
  mOp : pols.mOp i = 1
  mWr : pols.mWr i = if a.bIsWrite then 1 else 0
  val : pols.val i = a.fe

/-- No later row has the same address. -/
def LastRow (pols : MemCommitPols) (N i : ℕ) : Prop :=
  ∀ j, i < j → j < N → pols.addr j ≠ pols.addr i

/-- The `N` rows are a sorted trace of the accesses. -/
structure SortedTrace (N : ℕ) (input : List MemoryAccess) (pols : MemCommitPols) : Prop where
  /-- The first rows are the accesses in some order, each once, and the others none. -/
  accesses : ∃ access : List MemoryAccess, access.Perm input ∧
    (∀ i (h : i < access.length), pols.Shows i access[i]) ∧
      ∀ i, access.length ≤ i → i < N → pols.mOp i = 0
  /-- The rows are sorted by address and then by step. -/
  sorted : ∀ i, i + 1 < N → toU64 (pols.addr i) < toU64 (pols.addr (i + 1)) ∨
    pols.addr i = pols.addr (i + 1) ∧ toU64 (pols.step i) < toU64 (pols.step (i + 1))
  last : ∀ i < N, pols.LastRow N i → pols.lastAccess i = 1
  notLast : ∀ i < N, ¬pols.LastRow N i → pols.lastAccess i = 0
  /-- A read has the value of the latest write. -/
  reads : ∀ i < N, pols.mOp i = 1 → pols.mWr i = 0 → pols.val i = pols.latest (pols.addr i) i

end MemCommitPols

end ZkevmProver
