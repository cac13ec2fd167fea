import ZkevmProver.Utils.Goldilocks
import Mathlib.Data.List.Induction
import Mathlib.Data.Nat.Bitwise

/-!
# Splitting and joining keys

The bits of a key in tree order (`splitKey`), the remaining key below a level (`removeKeyBits`) and
its inverse (`joinKey`).  Bit `i` of a key is bit `i / 4` of its element `i % 4`.

  1. 64-bit shifts, and the three source functions.
  2. `splitKey` lists the 256 bits of a key, and determines it.
  3. `joinKey` undoes `removeKeyBits`.
  4. `joinKey` of one more bit.
-/

namespace ZkevmProver

/-! ## The source functions -/

/-- What a shift of a 64-bit word by 64 gives.  The language leaves it undefined, and
`removeKeyBits` and `joinKey` reach it for keys that share 252 bits: a scalar shift takes the count
modulo 64 (`true`), a vector shift gives 0 (`false`). -/
structure WordShift where
  rightWraps : Bool
  leftWraps : Bool
  deriving DecidableEq

/-- `x >> n`, on a 64-bit word. -/
def WordShift.shr (w : WordShift) (x n : ℕ) : ℕ :=
  if n < 64 then x >>> n else if w.rightWraps then x >>> (n % 64) else 0

/-- `x << n`, on a 64-bit word. -/
def WordShift.shl (w : WordShift) (x n : ℕ) : ℕ :=
  if n < 64 then (x <<< n) % 2 ^ 64 else if w.leftWraps then (x <<< (n % 64)) % 2 ^ 64 else 0

/-- The element a bit of a key is taken from. -/
def lane (i : ℕ) : Fin 4 := ⟨i % 4, Nat.mod_lt i (by decide)⟩

/-- The bits of a key, taking one bit from a different element every time. -/
def splitKey (key : Fea) : List Bool :=
  (List.range 64).flatMap fun i =>
    [(toU64 (key.get 0)).testBit i, (toU64 (key.get 1)).testBit i,
      (toU64 (key.get 2)).testBit i, (toU64 (key.get 3)).testBit i]

/-- The loop state of `joinKey`: the bit index, the count and the bits collected per element. -/
structure JoinState where
  i : ℕ
  n : Fin 4 → ℕ
  accs : Fin 4 → ℕ

/-- One iteration of the loop of `joinKey`. -/
def joinStep (w : WordShift) (s : JoinState) (bit : Bool) : JoinState where
  i := s.i + 1
  n := Function.update s.n (lane s.i) (s.n (lane s.i) + 1)
  accs := if bit then
      Function.update s.accs (lane s.i) (s.accs (lane s.i) ||| w.shl 1 (s.n (lane s.i)))
    else s.accs

/-- The full key, from the path already used and the remaining key. -/
def joinKey (w : WordShift) (bits : List Bool) (rkey : Fea) : Fea :=
  let s := bits.foldl (joinStep w) ⟨0, fun _ => 0, fun _ => 0⟩
  .ofFn fun i => fromU64 (w.shl (toU64 (rkey.get i)) (s.n i) ||| s.accs i)

/-- How many of the first `nBits` bits of a key come from element `i`. -/
def laneBits (nBits : ℕ) (i : Fin 4) : ℕ :=
  nBits / 4 + if nBits / 4 * 4 + i < nBits then 1 else 0

/-- The remaining key below level `nBits`. -/
def removeKeyBits (w : WordShift) (key : Fea) (nBits : ℕ) : Fea :=
  .ofFn fun i => fromU64 (w.shr (toU64 (key.get i)) (laneBits nBits i))

/-! ## The bits of a key -/

/-- Bit `i` of a key, in tree order. -/
def keyBit (key : Fea) (i : ℕ) : Bool := (toU64 (key.get (lane i))).testBit (i / 4)

theorem flatMap_range_four {α : Type*} (f : ℕ → α) (n : ℕ) :
    ((List.range n).flatMap fun i => [f (4 * i), f (4 * i + 1), f (4 * i + 2), f (4 * i + 3)]) =
      (List.range (4 * n)).map f := by
  induction n with
  | zero => rfl
  | succ n ih =>
    rw [List.range_succ, List.flatMap_append, ih, Nat.mul_succ]
    simp [List.range_succ]

theorem splitKey_eq (key : Fea) : splitKey key = (List.range 256).map (keyBit key) := by
  rw [show 256 = 4 * 64 from rfl, ← flatMap_range_four]
  unfold splitKey
  congr 1
  funext i
  have h1 : (4 * i + 1) / 4 = i := by omega
  have h2 : (4 * i + 2) / 4 = i := by omega
  have h3 : (4 * i + 3) / 4 = i := by omega
  simp [keyBit, lane, h1, h2, h3, Nat.add_mod]

@[simp] theorem length_splitKey (key : Fea) : (splitKey key).length = 256 := by
  simp [splitKey_eq]

theorem getElem_splitKey (key : Fea) (i : ℕ) (h : i < (splitKey key).length) :
    (splitKey key)[i] = keyBit key i := by
  simp [splitKey_eq]

theorem take_splitKey (key : Fea) {n : ℕ} (h : n ≤ 256) :
    (splitKey key).take n = (List.range n).map (keyBit key) := by
  rw [splitKey_eq, ← List.map_take, List.take_range, Nat.min_eq_left h]

theorem drop_splitKey (key : Fea) {n : ℕ} (h : n < 256) :
    (splitKey key).drop n = keyBit key n :: (splitKey key).drop (n + 1) := by
  rw [List.drop_eq_getElem_cons (by simpa using h), getElem_splitKey]

theorem keyBit_of_le {key : Fea} {i : ℕ} (h : 256 ≤ i) : keyBit key i = false := by
  refine Nat.testBit_lt_two_pow (lt_of_lt_of_le (toU64_lt _) ?_)
  exact Nat.pow_le_pow_right (by decide) (by omega)

/-- Bit `j` of element `i` is bit `4 * j + i` of the key. -/
theorem testBit_get (key : Fea) (i : Fin 4) (j : ℕ) :
    (toU64 (key.get i)).testBit j = keyBit key (4 * j + i) := by
  have h1 : (4 * j + (i : ℕ)) / 4 = j := by omega
  have h2 : lane (4 * j + i) = i := by
    apply Fin.ext
    simp only [lane]
    omega
  rw [keyBit, h1, h2]

/-- A key is determined by its bits. -/
theorem key_ext {key key' : Fea} (h : ∀ i < 256, keyBit key i = keyBit key' i) : key = key' := by
  refine Fea.ext_get fun i => toU64_injective (Nat.eq_of_testBit_eq fun j => ?_)
  rw [testBit_get, testBit_get]
  by_cases hj : 4 * j + (i : ℕ) < 256
  · exact h _ hj
  · rw [keyBit_of_le (by omega), keyBit_of_le (by omega)]

theorem exists_keyBit_ne {key key' : Fea} (h : key ≠ key') :
    ∃ i < 256, keyBit key i ≠ keyBit key' i := by
  by_contra hall
  push Not at hall
  exact h (key_ext hall)

/-! ## Joining -/

theorem laneBits_succ (n : ℕ) (i : Fin 4) :
    laneBits (n + 1) i = if i = lane n then laneBits n i + 1 else laneBits n i := by
  have hi := i.isLt
  unfold laneBits
  by_cases h : i = lane n
  · have : (i : ℕ) = n % 4 := congrArg Fin.val h
    rw [if_pos h]
    split <;> split <;> omega
  · have : (i : ℕ) ≠ n % 4 := fun he => h (Fin.ext he)
    rw [if_neg h]
    split <;> split <;> omega

theorem laneBits_lane (n : ℕ) : laneBits n (lane n) = n / 4 := by
  have hlane : (lane n : ℕ) = n % 4 := rfl
  rw [laneBits, hlane, if_neg (by omega), Nat.add_zero]

theorem laneBits_le {n : ℕ} (h : n ≤ 256) (i : Fin 4) : laneBits n i ≤ 64 := by
  have hi := i.isLt
  unfold laneBits
  split <;> omega

theorem or_shiftLeft_eq_mod (x n : ℕ) :
    (x % 2 ^ n ||| if x.testBit n then 1 <<< n else 0) = x % 2 ^ (n + 1) := by
  refine Nat.eq_of_testBit_eq fun j => ?_
  have hshift : (1 <<< n : ℕ).testBit j = decide (n = j) := by
    rw [Nat.one_shiftLeft, Nat.testBit_two_pow]
  rw [Nat.testBit_or, Nat.testBit_mod_two_pow, Nat.testBit_mod_two_pow, apply_ite (Nat.testBit · j),
    hshift, Nat.zero_testBit]
  rcases lt_trichotomy j n with h | rfl | h
  · simp [h, Nat.lt_succ_of_lt h, h.ne']
  · cases hb : x.testBit j <;> simp
  · simp [h.ne, Nat.not_lt.mpr h.le, show ¬ j < n + 1 by omega]

theorem shl_one (w : WordShift) {n : ℕ} (h : n < 64) : w.shl 1 n = 1 <<< n := by
  rw [WordShift.shl, if_pos h, Nat.one_shiftLeft]
  exact Nat.mod_eq_of_lt (Nat.pow_lt_pow_right (by decide) h)

/-- After the first `n` bits of a key, `joinKey` has collected the low bits of each element. -/
theorem foldl_joinStep (w : WordShift) (key : Fea) {n : ℕ} (h : n ≤ 256) :
    ((List.range n).map (keyBit key)).foldl (joinStep w) ⟨0, fun _ => 0, fun _ => 0⟩ =
      ⟨n, laneBits n, fun i => toU64 (key.get i) % 2 ^ laneBits n i⟩ := by
  induction n with
  | zero =>
    have h0 : laneBits 0 = fun _ => 0 := by
      funext i
      simp [laneBits]
    simp [h0, Nat.mod_one]
  | succ n ih =>
    rw [List.range_succ, List.map_append, List.foldl_append, ih (by omega)]
    simp only [List.map_cons, List.map_nil, List.foldl_cons, List.foldl_nil, joinStep,
      JoinState.mk.injEq, true_and]
    refine ⟨funext fun i => ?_, funext fun i => ?_⟩
    · rw [laneBits_succ, Function.update_apply]
      split <;> simp_all
    · have hlane := shl_one w (show laneBits n (lane n) < 64 by rw [laneBits_lane]; omega)
      have hstep := or_shiftLeft_eq_mod (toU64 (key.get (lane n))) (laneBits n (lane n))
      rw [laneBits_lane, show (toU64 (key.get (lane n))).testBit (n / 4) = keyBit key n from rfl]
        at hstep
      rw [laneBits_succ]
      by_cases hi : i = lane n
      · subst hi
        rw [if_pos rfl, laneBits_lane, ← hstep]
        rw [laneBits_lane] at hlane
        split <;> simp [laneBits_lane, hlane]
      · rw [if_neg hi]
        split <;> simp [hi]

/-- The two shifts of a word and its low bits make up the word again. -/
theorem shl_shr_or (w : WordShift) {x n : ℕ} (hx : x < 2 ^ 64) (hn : n ≤ 64) :
    (w.shl (w.shr x n) n ||| x % 2 ^ n) = x := by
  rcases Nat.lt_or_eq_of_le hn with h | rfl
  · have hle : x >>> n <<< n ≤ x := by
      rw [Nat.shiftLeft_eq, Nat.shiftRight_eq_div_pow]
      exact Nat.div_mul_le_self x (2 ^ n)
    rw [WordShift.shl, WordShift.shr, if_pos h, if_pos h, Nat.mod_eq_of_lt (hle.trans_lt hx)]
    refine Nat.eq_of_testBit_eq fun j => ?_
    rw [Nat.testBit_or, Nat.testBit_shiftLeft, Nat.testBit_shiftRight, Nat.testBit_mod_two_pow]
    rcases Nat.lt_or_ge j n with hj | hj
    · simp [hj, Nat.not_le.mpr hj]
    · simp [hj, Nat.not_lt.mpr hj]
  · have hx' : x % 18446744073709551616 = x := Nat.mod_eq_of_lt hx
    rw [Nat.mod_eq_of_lt hx]
    cases hr : w.rightWraps <;> cases hl : w.leftWraps <;>
      simp [WordShift.shl, WordShift.shr, hr, hl, hx']

/-- What is left of an element is an element. -/
theorem shr_lt (w : WordShift) (x : Fe) (n : ℕ) : w.shr (toU64 x) n < goldilocksPrime := by
  have hp : toU64 x < goldilocksPrime := x.isLt
  unfold WordShift.shr
  split
  · exact (Nat.shiftRight_le _ _).trans_lt hp
  · split
    · exact (Nat.shiftRight_le _ _).trans_lt hp
    · decide

/-- **Joining undoes removing.**  The bits above a level and the remaining key below it make up the
key, whatever a shift by 64 gives. -/
theorem joinKey_removeKeyBits (w : WordShift) (key : Fea) {n : ℕ} (h : n ≤ 256) :
    joinKey w ((splitKey key).take n) (removeKeyBits w key n) = key := by
  unfold joinKey
  rw [take_splitKey key h, foldl_joinStep w key h]
  refine Fea.ext_get fun i => ?_
  simp only [removeKeyBits, Fea.get_ofFn]
  have hx := toU64_lt (key.get i)
  rw [toU64_fromU64 (shr_lt w (key.get i) _), shl_shr_or w hx (laneBits_le h i), fromU64_toU64]

/-! ## Joining one more bit -/

/-- Which bit comes next, and how many bits each element has got, do not depend on the bits. -/
theorem foldl_joinStep_counts (w : WordShift) (bits : List Bool) :
    (bits.foldl (joinStep w) ⟨0, fun _ => 0, fun _ => 0⟩).i = bits.length ∧
      (bits.foldl (joinStep w) ⟨0, fun _ => 0, fun _ => 0⟩).n = laneBits bits.length := by
  induction bits using List.reverseRecOn with
  | nil =>
    refine ⟨rfl, funext fun i => ?_⟩
    simp [laneBits]
  | append_singleton bits bit ih =>
    obtain ⟨hi, hn⟩ := ih
    simp only [List.foldl_append, List.foldl_cons, List.foldl_nil, List.length_append, List.length_singleton]
    refine ⟨congrArg (· + 1) hi, funext fun i => ?_⟩
    simp only [joinStep, hi, hn]
    rw [laneBits_succ, Function.update_apply]
    split
    · next h => rw [h]
    · rfl

/-- A word that is doubled with a bit added, shifted by one bit less. -/
theorem shl_succ_or (w : WordShift) {x n : ℕ} (bit : Bool) (acc : ℕ) (hn : n < 64) (hx : n + 1 < 64 ∨ x = 0) :
    (w.shl x (n + 1) ||| if bit then acc ||| w.shl 1 n else acc) = w.shl (2 * x + bit.toNat) n ||| acc := by
  have hdouble : w.shl x (n + 1) = (x <<< (n + 1)) % 2 ^ 64 := by
    unfold WordShift.shl
    rcases hx with hlt | rfl
    · rw [if_pos hlt]
    · simp
  have hone (j : ℕ) : (1 <<< n % 2 ^ 64 : ℕ).testBit j = (decide (j < 64) && decide (n = j)) := by
    rw [Nat.testBit_mod_two_pow, Nat.one_shiftLeft, Nat.testBit_two_pow]
  have hbit (j : ℕ) : (2 * x + bit.toNat).testBit j = if j = 0 then bit else x.testBit (j - 1) := by
    cases j with
    | zero => cases bit <;> simp
    | succ j =>
      rw [Nat.testBit_succ]
      have hhalf : (2 * x + bit.toNat) / 2 = x := by
        have := Bool.toNat_lt bit
        omega
      simp [hhalf]
  rw [hdouble]
  unfold WordShift.shl
  rw [if_pos hn, if_pos hn]
  refine Nat.eq_of_testBit_eq fun j => ?_
  rw [Nat.testBit_or, Nat.testBit_or, Nat.testBit_mod_two_pow, Nat.testBit_mod_two_pow,
    Nat.testBit_shiftLeft, Nat.testBit_shiftLeft, hbit]
  have hacc : (if bit then acc ||| 1 <<< n % 2 ^ 64 else acc).testBit j =
      (acc.testBit j || (bit && (decide (j < 64) && decide (n = j)))) := by
    cases bit with
    | false => simp
    | true => rw [if_pos rfl, Nat.testBit_or, hone, Bool.true_and]
  rw [hacc]
  rcases lt_trichotomy j n with h | rfl | h
  · simp [h.ne', show ¬n + 1 ≤ j by omega, show ¬n ≤ j by omega]
  · simp [hn, Bool.or_comm]
  · simp [h.ne, show n + 1 ≤ j by omega, show n ≤ j by omega, show j - n ≠ 0 by omega,
      show j - (n + 1) = j - n - 1 by omega]

/-- **The bit of one more level.**  It is the lowest bit of the element whose turn it is. -/
theorem joinKey_concat (w : WordShift) (bits : List Bool) (bit : Bool) (rkey rkey' : Fea)
    (hlength : bits.length < 252 ∨ bits.length < 256 ∧ toU64 (rkey.get (lane bits.length)) = 0)
    (hsame : ∀ i ≠ lane bits.length, rkey'.get i = rkey.get i)
    (hbit : toU64 (rkey'.get (lane bits.length)) = 2 * toU64 (rkey.get (lane bits.length)) + bit.toNat) :
    joinKey w (bits ++ [bit]) rkey = joinKey w bits rkey' := by
  obtain ⟨hi, hn⟩ := foldl_joinStep_counts w bits
  unfold joinKey
  refine Fea.ext_get fun i => ?_
  simp only [List.foldl_append, List.foldl_cons, List.foldl_nil, Fea.get_ofFn]
  simp only [joinStep, hi, hn]
  by_cases h : i = lane bits.length
  · rw [h, hbit, Function.update_self, laneBits_lane,
      ← shl_succ_or w bit _ (by omega) (hlength.imp (by omega) And.right), ite_apply,
      Function.update_self]
  · rw [hsame i h, Function.update_of_ne h]
    split
    · rw [Function.update_of_ne h]
    · rfl

end ZkevmProver
