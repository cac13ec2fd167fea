import ZkevmProver.HashDB.SmtTypes

/-!
# The context of a storage action

What the storage state machine derives from the result of a tree operation before it replays it:
the level at which the proof starts, the key bits above it and the remaining keys.

  1. The source functions.
  2. The bits of the context are the first bits of the two keys.
-/

namespace ZkevmProver

/-! ## The source functions -/

/-- `SmtAction`: the result of a get or of a set. -/
inductive SmtAction where
  | get (getResult : SmtGetResult)
  | set (setResult : SmtSetResult)

/-- The remaining keys, and the bits taken from them. -/
structure KeyBits where
  rKey : Fea
  siblingRKey : Fea
  bits : List Bool := []
  siblingBits : List Bool := []
  deriving DecidableEq

/-- The bit that is taken next from a remaining key. -/
def nextBit (rKey : Fea) (i : ℕ) : Bool := (toU64 (rKey.get (lane i))).testBit 0

/-- Halves the element that bit `i` has been taken from. -/
def halve (rKey : Fea) (i : ℕ) : Fea :=
  .ofFn (Function.update rKey.get (lane i) (fromU64 (toU64 (rKey.get (lane i)) / 2)))

/-- One iteration of the loops of `SmtActionContext::init`. -/
def KeyBits.take (c : KeyBits) (i : ℕ) : KeyBits where
  rKey := halve c.rKey i
  siblingRKey := halve c.siblingRKey i
  bits := c.bits ++ [nextBit c.rKey i]
  siblingBits := c.siblingBits ++ [nextBit c.siblingRKey i]

/-- The loop for the modes with a found sibling: takes bits until they differ, `fuel` at most. -/
def KeyBits.takeUntilDiffer (c : KeyBits) : ℕ → ℕ → KeyBits
  | _, 0 => c
  | i, fuel + 1 =>
    if nextBit c.rKey i ≠ nextBit c.siblingRKey i then c.take i
    else (c.take i).takeUntilDiffer (i + 1) fuel

structure SmtActionContext where
  level : ℕ
  currentLevel : ℕ
  keys : KeyBits
  deriving DecidableEq

/-- `SmtActionContext::init` -/
def SmtActionContext.init : SmtAction → SmtActionContext
  | .get r =>
    let level := r.siblings.length
    let keys := (List.range level).foldl KeyBits.take { rKey := r.key, siblingRKey := r.insKey }
    { level, currentLevel := level, keys }
  | .set r =>
    let keys : KeyBits := { rKey := r.key, siblingRKey := r.insKey }
    match r.mode with
    | .update | .deleteNotFound | .zeroToZero | .insertNotFound =>
      let level := r.siblings.length
      { level, currentLevel := level, keys := (List.range level).foldl KeyBits.take keys }
    | .insertFound | .deleteFound =>
      let keys := keys.takeUntilDiffer 0 256
      { level := keys.bits.length, currentLevel := keys.bits.length, keys }
    | .deleteLast =>
      { level := r.siblings.length, currentLevel := r.siblings.length, keys }

/-! ## The bits of the context -/

/-- The remaining key after taking `n` bits, one by one. -/
def restKey (key : Fea) (n : ℕ) : Fea :=
  .ofFn fun i => fromU64 (toU64 (key.get i) >>> laneBits n i)

theorem toU64_restKey (key : Fea) (n : ℕ) (i : Fin 4) :
    toU64 ((restKey key n).get i) = toU64 (key.get i) >>> laneBits n i := by
  rw [restKey, Fea.get_ofFn]
  exact toU64_fromU64 ((Nat.shiftRight_le _ _).trans_lt (key.get i).isLt)

theorem restKey_zero (key : Fea) : restKey key 0 = key := by
  refine Fea.ext_get fun i => ?_
  have h0 : laneBits 0 i = 0 := by simp [laneBits]
  rw [restKey, Fea.get_ofFn, h0, Nat.shiftRight_zero, fromU64_toU64]

theorem nextBit_restKey (key : Fea) (n : ℕ) : nextBit (restKey key n) n = keyBit key n := by
  rw [nextBit, toU64_restKey, Nat.testBit_shiftRight, laneBits_lane, Nat.add_zero, keyBit]

theorem halve_restKey (key : Fea) (n : ℕ) : halve (restKey key n) n = restKey key (n + 1) := by
  refine Fea.ext_get fun i => ?_
  rw [halve, Fea.get_ofFn, Function.update_apply]
  rw [toU64_restKey, restKey, restKey, Fea.get_ofFn, Fea.get_ofFn, laneBits_succ]
  split
  · next hi => rw [← hi, Nat.shiftRight_succ]
  · rfl

/-- The state after taking the first `n` bits of two keys. -/
def takenBits (key insKey : Fea) (n : ℕ) : KeyBits where
  rKey := restKey key n
  siblingRKey := restKey insKey n
  bits := (List.range n).map (keyBit key)
  siblingBits := (List.range n).map (keyBit insKey)

theorem takenBits_zero (key insKey : Fea) :
    takenBits key insKey 0 = { rKey := key, siblingRKey := insKey } := by
  simp [takenBits, restKey_zero]

theorem take_takenBits (key insKey : Fea) (n : ℕ) :
    (takenBits key insKey n).take n = takenBits key insKey (n + 1) := by
  simp [takenBits, KeyBits.take, halve_restKey, nextBit_restKey, List.range_succ]

theorem foldl_take (key insKey : Fea) (n : ℕ) :
    (List.range n).foldl KeyBits.take { rKey := key, siblingRKey := insKey } =
      takenBits key insKey n := by
  induction n with
  | zero => exact (takenBits_zero key insKey).symm
  | succ n ih => rw [List.range_succ, List.foldl_append, ih, List.foldl_cons, List.foldl_nil,
      take_takenBits]

/-- The loop over the bits of two keys that part at bit `d` stops right after it. -/
theorem takeUntilDiffer_takenBits {key insKey : Fea} {d : ℕ}
    (heq : ∀ i < d, keyBit insKey i = keyBit key i) (hne : keyBit insKey d = !keyBit key d)
    {i fuel : ℕ} (hi : i ≤ d) (hfuel : d < i + fuel) :
    (takenBits key insKey i).takeUntilDiffer i fuel = takenBits key insKey (d + 1) := by
  induction fuel generalizing i with
  | zero => omega
  | succ fuel ih =>
    rw [KeyBits.takeUntilDiffer, take_takenBits]
    simp only [takenBits, nextBit_restKey]
    rcases Nat.lt_or_eq_of_le hi with h | rfl
    · rw [if_neg (by simp [heq i h])]
      exact ih h (by omega)
    · rw [if_pos (by simp [hne])]

end ZkevmProver
