import Mathlib.Data.Finset.Lattice.Fold
import Mathlib.Order.Lattice.Nat
import ZkevmProver.Lib.Transitions
import ZkevmProver.Utils.ByteArray
import ZkevmProver.SM.Padding

/-!
# The Keccak operations of the main executor

For each address the executor keeps the bytes of a message, and which reads were made of it.  At the
end it turns the reads of each address into one list of sizes, for `PaddingKKExecutor`.

  1. The operations.
  2. The messages that are handed over.
-/

namespace ZkevmProver

open BigEndian

/-! ## The operations -/

structure HashValue where
  data : List UInt8 := []
  /-- The sizes of the reads, by position. -/
  reads : ℕ → Option ℕ := fun _ => none
  digest : ℕ := 0
  digestCalled : Bool := false
  lenCalled : Bool := false

/-- `unordered_map< uint64_t, HashValue > hashK` -/
structure HashValues where
  keys : Finset ℕ := ∅
  value : ℕ → HashValue := fun _ => {}

namespace HashValues

/-- `hashK[addr]`; an entry that is new is empty. -/
def get (S : HashValues) (addr : ℕ) : HashValue := if addr ∈ S.keys then S.value addr else {}

def set (S : HashValues) (addr : ℕ) (value : HashValue) : HashValues where
  keys := insert addr S.keys
  value := Function.update S.value addr value

theorem get_set (S : HashValues) (addr : ℕ) (value : HashValue) (addr' : ℕ) :
    (S.set addr value).get addr' = if addr' = addr then value else S.get addr' := by
  show (if addr' ∈ insert addr S.keys then Function.update S.value addr value addr' else {}) = _
  by_cases h : addr' = addr
  · subst h
    rw [if_pos (Finset.mem_insert_self _ _), if_pos rfl, Function.update_self]
  · rw [if_neg h, get, Function.update_of_ne h]
    exact if_congr (by rw [Finset.mem_insert, or_iff_right h]) rfl rfl

theorem mem_keys_set (S : HashValues) (addr : ℕ) (value : HashValue) (addr' : ℕ) :
    addr' ∈ (S.set addr value).keys ↔ addr' = addr ∨ addr' ∈ S.keys := Finset.mem_insert

end HashValues

/-- What an instruction gives to a Keccak operation. -/
inductive HashKOp where
  | hashK (addr : ℕ) (D0 HASHPOS : Fe) (op : Fea × Fea)
  | hashK1 (addr : ℕ) (HASHPOS : Fe) (op : Fea × Fea)
  | hashKLen (addr : ℕ) (op0 : Fe)
  | hashKDigest (addr : ℕ) (op : Fea × Fea)

namespace MainExecutor

/-- Byte `j` of a read: a new byte of the message, or one that is there. -/
def setByte (pos size a : ℕ) (data : List UInt8) (j : ℕ) : Option (List UInt8) :=
  let bm := ((a >>> ((size - j - 1) * 8)) &&& 0xFF).toUInt8
  if data.length = pos + j then some (data ++ [bm])
  else if data.length < pos + j then none
  else if bm ≠ data.getD (pos + j) 0 then none
  else some data

def setData (pos size a : ℕ) (data : List UInt8) : Option (List UInt8) :=
  (List.range size).foldlM (setByte pos size a) data

def hashK (S : HashValues) (addr size : ℕ) (HASHPOS : Fe) (op : Fea × Fea) : Option HashValues := do
  let value := S.get addr
  let iPos := toS64 HASHPOS
  if iPos < 0 then none
  else
    let pos := iPos.toNat
    let (ok, a) := fea2scalar 0 op
    if ok = false then none
    else
      let data ← setData pos size a value.data
      if a >>> (size * 8) ≠ 0 then none
      else match value.reads pos with
        | some size' => if size' ≠ size then none else some (S.set addr { value with data })
        | none => some (S.set addr { value with
            data
            reads := Function.update value.reads pos (some size) })

section

variable (keccak256 : List UInt8 → ℕ)

def hashKLen (S : HashValues) (addr : ℕ) (op0 : Fe) : Option HashValues :=
  let lm := toU64 op0
  let value := S.get addr
  if addr ∉ S.keys ∧ lm ≠ 0 then none
  else if value.lenCalled then none
  else if lm ≠ value.data.length then none
  else some (S.set addr { value with
    lenCalled := true
    digest := if value.digestCalled then value.digest else keccak256 value.data })

def hashKDigest (S : HashValues) (addr : ℕ) (op : Fea × Fea) : Option HashValues :=
  if addr ∉ S.keys then none
  else
    let value := S.get addr
    let (ok, dg) := fea2scalar 0 op
    if ok = false then none
    else if dg ≠ value.digest then none
    else if value.digestCalled then none
    else some (S.set addr { value with digestCalled := true })

/-- An operation; `none` when the executor returns with an error. -/
def exec (S : HashValues) : HashKOp → Option HashValues
  | .hashK addr D0 HASHPOS op =>
    let size := toU64 D0
    if size > 32 then none else hashK S addr size HASHPOS op
  | .hashK1 addr HASHPOS op => hashK S addr 1 HASHPOS op
  | .hashKLen addr op0 => hashKLen keccak256 S addr op0
  | .hashKDigest addr op => hashKDigest S addr op

/-- The operations of a run, one after the other. -/
abbrev execAll (ops : List HashKOp) : Option HashValues :=
  Transitions.follow (exec keccak256) {} ops

end

/-! ## The messages that are handed over -/

/-- The size of the read at `p`, or of one byte where none is recorded. -/
def tileSize (reads : ℕ → Option ℕ) (p : ℕ) : ℕ :=
  let size := (reads p).getD 0
  if size ≠ 0 then size else 1

theorem tileSize_pos (reads : ℕ → Option ℕ) (p : ℕ) : 0 < tileSize reads p := by
  unfold tileSize
  dsimp only
  split <;> omega

/-- Reads one behind the other, from `p` on, and where they end. -/
def tileReads (size : ℕ) (reads : ℕ → Option ℕ) (p : ℕ) : List ℕ × ℕ :=
  if p < size then
    let (rest, q) := tileReads size reads (p + tileSize reads p)
    (tileSize reads p :: rest, q)
  else ([], p)
termination_by size - p
decreasing_by
  have hpos := tileSize_pos reads p
  omega

/-- The message of an address; `none` when the reads go beyond it. -/
def paddingKKMessage (value : HashValue) : Option PaddingExecutorInput :=
  let (reads, p) := tileReads value.data.length value.reads 0
  if p ≠ value.data.length then none
  else some {
    dataBytes := value.data
    reads
    digestCalled := value.digestCalled
    lenCalled := value.lenCalled }

/-- One behind the last address. -/
def addresses (S : HashValues) : ℕ := S.keys.sup Nat.succ

theorem lt_addresses {S : HashValues} {i : ℕ} (h : i < S.keys.card) : i < addresses S := by
  by_contra hle
  have hsub : S.keys ⊆ Finset.range i := fun k hk =>
    Finset.mem_range.mpr ((Finset.le_sup (f := Nat.succ) hk).trans (Nat.not_lt.mp hle))
  have hcard := Finset.card_le_card hsub
  rw [Finset.card_range] at hcard
  omega

/-- `required.PaddingKK`, from address `i` on.  `hashK[i]` makes an entry where there is none, so that
the size goes up as the loop passes an address that was not used. -/
def paddingKKFrom (i : ℕ) (S : HashValues) : Option (List PaddingExecutorInput) :=
  if i < S.keys.card then do
    let h ← paddingKKMessage (S.get i)
    let rest ← paddingKKFrom (i + 1) (S.set i (S.get i))
    return h :: rest
  else some []
termination_by addresses S - i
decreasing_by
  next h =>
    have hlt := lt_addresses h
    have hsame : addresses (S.set i (S.get i)) = addresses S := by
      show (insert i S.keys).sup Nat.succ = _
      rw [Finset.sup_insert]
      exact Nat.max_eq_right hlt
    rw [hsame]
    omega

def paddingKK (S : HashValues) : Option (List PaddingExecutorInput) := paddingKKFrom 0 S

end MainExecutor

end ZkevmProver
