import Mathlib.Tactic.Common
import Mathlib.Tactic.IntervalCases
import Mathlib.Tactic.Ring
import Mathlib.Data.Nat.Find
import Mathlib.Data.Nat.Bitwise

/-!
# Keys of the level tree

A key is four 64-bit words.  The tree works on mixed keys, whose bits are taken in turn from the
four words, and looks at the bits of a mixed key from the most significant one of its first word
on.

1. Mixing: `mixKey` and its injectivity
2. The bits of a key, in the order of the tree: `bit`, `Agree`
3. The steps of a key: `getStepIndex`
4. `commonBits`
-/

namespace ZkevmProver

/-- `uint64_t key[4]` -/
@[ext] structure KeyWords where
  w0 : BitVec 64
  w1 : BitVec 64
  w2 : BitVec 64
  w3 : BitVec 64
  deriving DecidableEq

/-- `key[i]` -/
def KeyWords.get (k : KeyWords) : ℕ → BitVec 64
  | 0 => k.w0
  | 1 => k.w1
  | 2 => k.w2
  | _ => k.w3

/-! ## Mixing -/

/-- Moves bit `i` to bit `2 * i`. -/
def spread16 (x : BitVec 16) : BitVec 32 :=
  let a := x.setWidth 32
  let a := (a ||| (a <<< 8)) &&& 0x00FF00FF
  let a := (a ||| (a <<< 4)) &&& 0x0F0F0F0F
  let a := (a ||| (a <<< 2)) &&& 0x33333333
  (a ||| (a <<< 1)) &&& 0x55555555

def interleave16 (x y : BitVec 16) : BitVec 32 := spread16 y ||| (spread16 x <<< 1)

/-- Moves bit `i` to bit `2 * i`. -/
def spread32 (x : BitVec 32) : BitVec 64 :=
  let a := x.setWidth 64
  let a := (a ||| (a <<< 16)) &&& 0x0000FFFF0000FFFF
  let a := (a ||| (a <<< 8)) &&& 0x00FF00FF00FF00FF
  let a := (a ||| (a <<< 4)) &&& 0x0F0F0F0F0F0F0F0F
  let a := (a ||| (a <<< 2)) &&& 0x3333333333333333
  (a ||| (a <<< 1)) &&& 0x5555555555555555

def interleave32 (x y : BitVec 32) : BitVec 64 := spread32 y ||| (spread32 x <<< 1)

/-- `(uint16_t) (w >> (16 * i))` -/
def half (w : BitVec 64) (i : ℕ) : BitVec 16 := (w >>> (16 * i)).setWidth 16

/-- The `i`-th word of a mixed key comes from 16 bits of each of the words. -/
def mixWord (k : KeyWords) (i : ℕ) : BitVec 64 :=
  interleave32 (interleave16 (half k.w0 i) (half k.w2 i)) (interleave16 (half k.w1 i) (half k.w3 i))

def mixKey (k : KeyWords) : KeyWords := ⟨mixWord k 3, mixWord k 2, mixWord k 1, mixWord k 0⟩

section

variable {n m : ℕ} {x : BitVec n} {a : BitVec m}

/-- The bits of `x` in blocks of `b`, each at the start of `2 * b` bits. -/
def Spread (b : ℕ) (x : BitVec n) (a : BitVec m) : Prop :=
  ∀ q, ∀ r < 2 * b, 2 * b * q + r < m →
    a.getLsbD (2 * b * q + r) = (decide (r < b) && x.getLsbD (b * q + r))

theorem spread_setWidth (hm : m = 2 * n) (x : BitVec n) : Spread n x (x.setWidth m) := by
  subst hm
  intro q r hr hj
  obtain rfl : q = 0 := by
    by_contra hq
    have := Nat.le_mul_of_pos_right (2 * n) (Nat.pos_of_ne_zero hq)
    omega
  rw [BitVec.getLsbD_setWidth, decide_eq_true hj, Bool.true_and, Nat.mul_zero, Nat.mul_zero, Nat.zero_add]
  by_cases hlow : r < n
  · rw [decide_eq_true hlow, Bool.true_and]
  · rw [decide_eq_false hlow, Bool.false_and, BitVec.getLsbD_of_ge _ _ (Nat.not_lt.mp hlow)]

/-- A step moves the upper half of each block to a place of its own. -/
theorem Spread.step (b : ℕ) (h : Spread (2 * b) x a) (mask : BitVec m)
    (hmask : ∀ j < m, mask.getLsbD j = decide (j % (2 * b) < b)) :
    Spread b x ((a ||| a <<< b) &&& mask) := by
  intro q r hr hj
  rw [BitVec.getLsbD_and, hmask _ hj, Nat.mul_add_mod, Nat.mod_eq_of_lt hr, Bool.and_comm]
  by_cases hlow : r < b
  · rw [decide_eq_true hlow, Bool.true_and, Bool.true_and, BitVec.getLsbD_or, BitVec.getLsbD_shiftLeft,
      decide_eq_true hj, Bool.true_and]
    -- the block is the lower or the upper half of one before the step
    obtain ⟨p, rfl | rfl⟩ : ∃ p, q = 2 * p ∨ q = 2 * p + 1 := ⟨q / 2, by omega⟩
    · have hpos : 2 * b * (2 * p) + r = 2 * (2 * b) * p + r := by ring
      rw [hpos] at hj ⊢
      rw [h p r (by omega) hj, decide_eq_true (by omega), Bool.true_and,
        show 2 * b * p + r = b * (2 * p) + r by ring]
      cases p with
      | zero => simp [hlow]
      | succ p =>
        have hbefore : 2 * (2 * b) * (p + 1) + r - b = 2 * (2 * b) * p + (3 * b + r) := by
          rw [Nat.mul_succ]
          omega
        rw [hbefore, h p (3 * b + r) (by omega) (by omega), decide_eq_false (by omega : ¬3 * b + r < 2 * b)]
        simp
    · have hpos : 2 * b * (2 * p + 1) + r = 2 * (2 * b) * p + (2 * b + r) := by ring
      have hbefore : 2 * (2 * b) * p + (2 * b + r) - b = 2 * (2 * b) * p + (b + r) := by omega
      rw [hpos] at hj ⊢
      rw [h p (2 * b + r) (by omega) hj, hbefore, h p (b + r) (by omega) (by omega),
        decide_eq_false (by omega : ¬2 * b + r < 2 * b), decide_eq_true (by omega : b + r < 2 * b),
        decide_eq_false (by omega), show 2 * b * p + (b + r) = b * (2 * p + 1) + r by ring]
      rfl
  · rw [decide_eq_false hlow, Bool.false_and, Bool.false_and]

theorem Spread.bits (h : Spread 1 x a) {i : ℕ} (hi : 2 * i + 1 < m) :
    a.getLsbD (2 * i) = x.getLsbD i ∧ a.getLsbD (2 * i + 1) = false := by
  have heven := h i 0 (by decide) (by omega)
  have hodd := h i 1 (by decide) (by omega)
  rw [Nat.mul_one, Nat.one_mul] at heven hodd
  exact ⟨heven, hodd⟩

end

theorem getLsbD_spread16 (x : BitVec 16) {i : ℕ} (hi : i < 16) :
    (spread16 x).getLsbD (2 * i) = x.getLsbD i ∧ (spread16 x).getLsbD (2 * i + 1) = false := by
  have h16 : Spread 16 x (x.setWidth 32) := spread_setWidth rfl x
  have h8 := h16.step 8 0x00FF00FF (by decide)
  have h4 := h8.step 4 0x0F0F0F0F (by decide)
  have h2 := h4.step 2 0x33333333 (by decide)
  have h1 := h2.step 1 0x55555555 (by decide)
  exact h1.bits (by omega)

theorem getLsbD_spread32 (x : BitVec 32) {i : ℕ} (hi : i < 32) :
    (spread32 x).getLsbD (2 * i) = x.getLsbD i ∧ (spread32 x).getLsbD (2 * i + 1) = false := by
  have h32 : Spread 32 x (x.setWidth 64) := spread_setWidth rfl x
  have h16 := h32.step 16 0x0000FFFF0000FFFF (by decide)
  have h8 := h16.step 8 0x00FF00FF00FF00FF (by decide)
  have h4 := h8.step 4 0x0F0F0F0F0F0F0F0F (by decide)
  have h2 := h4.step 2 0x3333333333333333 (by decide)
  have h1 := h2.step 1 0x5555555555555555 (by decide)
  exact h1.bits (by omega)

section

variable {n m : ℕ} {spread : BitVec n → BitVec m}

/-- Two words that are spread have their bits in turn. -/
theorem getLsbD_spread_or (hm : 2 * n ≤ m) (hspread : ∀ x, ∀ i < n,
      (spread x).getLsbD (2 * i) = x.getLsbD i ∧ (spread x).getLsbD (2 * i + 1) = false)
    (x y : BitVec n) {i : ℕ} (hi : i < n) :
    (spread y ||| spread x <<< 1).getLsbD (2 * i) = y.getLsbD i ∧
      (spread y ||| spread x <<< 1).getLsbD (2 * i + 1) = x.getLsbD i := by
  obtain ⟨hx, -⟩ := hspread x i hi
  obtain ⟨hy, hy'⟩ := hspread y i hi
  rw [BitVec.getLsbD_or, BitVec.getLsbD_or, BitVec.getLsbD_shiftLeft, BitVec.getLsbD_shiftLeft, hy,
    hy', Nat.add_sub_cancel, hx]
  refine ⟨?_, ?_⟩
  · cases i with
    | zero => simp
    | succ i =>
      have hodd := (hspread x i (Nat.lt_of_succ_lt hi)).2
      rw [show 2 * (i + 1) - 1 = 2 * i + 1 by omega, hodd]
      simp
  · simp [show 2 * i + 1 < m by omega]

theorem spread_or_injective (hm : 2 * n ≤ m) (hspread : ∀ x, ∀ i < n,
      (spread x).getLsbD (2 * i) = x.getLsbD i ∧ (spread x).getLsbD (2 * i + 1) = false)
    {x y x' y' : BitVec n} (h : spread y ||| spread x <<< 1 = spread y' ||| spread x' <<< 1) :
    x = x' ∧ y = y' := by
  constructor
  · refine BitVec.eq_of_getLsbD_eq fun i hi => ?_
    rw [← (getLsbD_spread_or hm hspread x y hi).2, h, (getLsbD_spread_or hm hspread x' y' hi).2]
  · refine BitVec.eq_of_getLsbD_eq fun i hi => ?_
    rw [← (getLsbD_spread_or hm hspread x y hi).1, h, (getLsbD_spread_or hm hspread x' y' hi).1]

end

theorem interleave16_injective {x y x' y' : BitVec 16}
    (h : interleave16 x y = interleave16 x' y') : x = x' ∧ y = y' :=
  spread_or_injective (by decide) (fun x _ hi => getLsbD_spread16 x hi) h

theorem interleave32_injective {x y x' y' : BitVec 32}
    (h : interleave32 x y = interleave32 x' y') : x = x' ∧ y = y' :=
  spread_or_injective (by decide) (fun x _ hi => getLsbD_spread32 x hi) h

/-- A word is given by its four quarters. -/
theorem eq_of_half_eq {v w : BitVec 64} (h : ∀ i < 4, half v i = half w i) : v = w := by
  refine BitVec.eq_of_getLsbD_eq fun j hj => ?_
  have hbit := congrArg (fun x : BitVec 16 => x.getLsbD (j % 16)) (h (j / 16) (by omega))
  have hj' : 16 * (j / 16) + j % 16 = j := Nat.div_add_mod j 16
  simpa [half, Nat.mod_lt, hj'] using hbit

theorem mixKey_injective : Function.Injective mixKey := by
  intro k k' h
  have hword : ∀ i < 4, mixWord k i = mixWord k' i := by
    simp only [mixKey, KeyWords.mk.injEq] at h
    obtain ⟨h3, h2, h1, h0⟩ := h
    intro i hi
    interval_cases i
    · exact h0
    · exact h1
    · exact h2
    · exact h3
  have hhalf : ∀ i < 4, (half k.w0 i = half k'.w0 i ∧ half k.w2 i = half k'.w2 i) ∧
      half k.w1 i = half k'.w1 i ∧ half k.w3 i = half k'.w3 i := by
    intro i hi
    obtain ⟨h02, h13⟩ := interleave32_injective (hword i hi)
    exact ⟨interleave16_injective h02, interleave16_injective h13⟩
  exact KeyWords.ext (eq_of_half_eq fun i hi => (hhalf i hi).1.1)
    (eq_of_half_eq fun i hi => (hhalf i hi).2.1) (eq_of_half_eq fun i hi => (hhalf i hi).1.2)
    (eq_of_half_eq fun i hi => (hhalf i hi).2.2)

/-! ## The bits of a key -/

namespace KeyWords

/-- Bit `j` of a key in the order of the tree, the most significant bit of a word first. -/
def bit (k : KeyWords) (j : ℕ) : Bool := (k.get (j / 64)).getLsbD (63 - j % 64)

/-- The first `b` bits of the keys are the same. -/
def Agree (k k' : KeyWords) (b : ℕ) : Prop := ∀ j < b, k.bit j = k'.bit j

instance (k k' : KeyWords) (b : ℕ) : Decidable (k.Agree k' b) :=
  inferInstanceAs (Decidable (∀ j < b, k.bit j = k'.bit j))

variable {k k' : KeyWords} {a b : ℕ}

theorem Agree.mono (h : k.Agree k' b) (hab : a ≤ b) : k.Agree k' a :=
  fun j hj => h j (hj.trans_le hab)

theorem agree_zero : k.Agree k' 0 := fun _ hj => absurd hj (Nat.not_lt_zero _)

theorem agree_add : k.Agree k' (a + b) ↔ k.Agree k' a ∧ ∀ j < b, k.bit (a + j) = k'.bit (a + j) := by
  constructor
  · intro h
    exact ⟨h.mono (Nat.le_add_right a b), fun j hj => h _ (Nat.add_lt_add_left hj a)⟩
  · rintro ⟨h, h'⟩ j hj
    by_cases hja : j < a
    · exact h j hja
    · have := h' (j - a) (by omega)
      rwa [Nat.add_sub_cancel' (not_lt.mp hja)] at this

/-- Bit `j` of word `i`. -/
theorem bit_word (k : KeyWords) (i : ℕ) {j : ℕ} (hj : j < 64) :
    k.bit (64 * i + j) = (k.get i).getLsbD (63 - j) := by
  unfold bit
  rw [show (64 * i + j) / 64 = i by omega, show (64 * i + j) % 64 = j by omega]

theorem get_eq_iff (i : ℕ) :
    k.get i = k'.get i ↔ ∀ j < 64, k.bit (64 * i + j) = k'.bit (64 * i + j) := by
  constructor
  · intro h j hj
    rw [bit_word k i hj, bit_word k' i hj, h]
  · intro h
    refine BitVec.eq_of_getLsbD_eq fun j hj => ?_
    have := h (63 - j) (by omega)
    rwa [bit_word k i (by omega), bit_word k' i (by omega), show 63 - (63 - j) = j by omega] at this

theorem eq_of_agree (h : k.Agree k' 256) : k = k' := by
  have hget : ∀ i < 4, k.get i = k'.get i := fun i hi =>
    (get_eq_iff i).mpr fun j hj => h _ (by omega)
  exact KeyWords.ext (hget 0 (by omega)) (hget 1 (by omega)) (hget 2 (by omega))
    (hget 3 (by omega))

end KeyWords

open KeyWords

/-! ## The steps of a key -/

/-- The bits that choose the slot of a node at a step, `n` bits a step. -/
def getStepIndex (n : ℕ) (key : KeyWords) (step : ℕ) : ℕ :=
  let indx := step * n / 64
  let stepInWord := step - indx * (64 / n)
  (key.get indx).toNat >>> (64 - (stepInWord + 1) * n) % 2 ^ n

theorem getStepIndex_lt (n : ℕ) (key : KeyWords) (step : ℕ) : getStepIndex n key step < 2 ^ n :=
  Nat.mod_lt _ (by positivity)

section

variable {n : ℕ} {k k' : KeyWords} {step : ℕ}

theorem testBit_getStepIndex (hn : n ∣ 64) {r : ℕ} (hr : r < n) :
    (getStepIndex n k step).testBit (n - 1 - r) = k.bit (step * n + r) := by
  obtain ⟨m, hm⟩ := hn
  have hm0 : 0 < m := Nat.pos_of_ne_zero (by rintro rfl; omega)
  have hdiv : 64 / n = m := by rw [hm, Nat.mul_div_cancel_left _ (by omega)]
  -- the step is number `t` of its word
  have hq : step * n / 64 = step / m := by
    rw [hm, Nat.mul_comm step, Nat.mul_div_mul_left _ _ (by omega)]
  have ht : step - step / m * m = step % m := by
    have := Nat.div_add_mod' step m
    omega
  have htm : step % m < m := Nat.mod_lt _ hm0
  have hstep : step * n = 64 * (step / m) + step % m * n := by
    conv_lhs => rw [← Nat.div_add_mod' step m]
    rw [Nat.add_mul, hm]
    ring
  have hle : (step % m + 1) * n ≤ 64 := by
    rw [hm, Nat.mul_comm n]
    exact Nat.mul_le_mul_right _ htm
  have hle' : step % m * n + n ≤ 64 := by rwa [Nat.add_mul, Nat.one_mul] at hle
  unfold getStepIndex
  simp only [hdiv, hq, ht]
  rw [Nat.testBit_mod_two_pow, Nat.testBit_shiftRight, hstep, Nat.add_assoc,
    bit_word k _ (by omega)]
  simp only [show n - 1 - r < n by omega, decide_true, Bool.true_and]
  show (k.get (step / m)).getLsbD _ = _
  congr 1
  rw [Nat.add_mul, Nat.one_mul]
  omega

/-- Two steps start with the same `r` bits. -/
theorem getStepIndex_div_eq_iff (hn : n ∣ 64) {r : ℕ} (hr : r ≤ n) :
    getStepIndex n k step / 2 ^ (n - r) = getStepIndex n k' step / 2 ^ (n - r) ↔
      ∀ j < r, k.bit (step * n + j) = k'.bit (step * n + j) := by
  have hbit : ∀ (k : KeyWords) (i : ℕ), i < r →
      (getStepIndex n k step / 2 ^ (n - r)).testBit i = k.bit (step * n + (r - 1 - i)) := by
    intro k i hi
    rw [Nat.testBit_div_two_pow, ← testBit_getStepIndex hn (show r - 1 - i < n by omega)]
    congr 1
    omega
  constructor
  · intro h j hj
    have := congrArg (fun x => x.testBit (r - 1 - j)) h
    simp only [hbit _ _ (show r - 1 - j < r by omega)] at this
    rwa [show r - 1 - (r - 1 - j) = j by omega] at this
  · intro h
    refine Nat.eq_of_testBit_eq fun i => ?_
    by_cases hi : i < r
    · rw [hbit k i hi, hbit k' i hi, h _ (by omega)]
    · have hlt : ∀ k : KeyWords, getStepIndex n k step / 2 ^ (n - r) < 2 ^ i := by
        intro k
        rw [Nat.div_lt_iff_lt_mul (by positivity), ← Nat.pow_add]
        exact (getStepIndex_lt n k step).trans_le (Nat.pow_le_pow_right (by omega) (by omega))
      rw [Nat.testBit_lt_two_pow (hlt k), Nat.testBit_lt_two_pow (hlt k')]

theorem getStepIndex_eq_iff (hn : n ∣ 64) :
    getStepIndex n k step = getStepIndex n k' step ↔
      ∀ j < n, k.bit (step * n + j) = k'.bit (step * n + j) := by
  have h : getStepIndex n k step / 2 ^ (n - n) = getStepIndex n k' step / 2 ^ (n - n) ↔
      ∀ j < n, k.bit (step * n + j) = k'.bit (step * n + j) := getStepIndex_div_eq_iff hn le_rfl
  simpa using h

end

/-! ## Common bits -/

/-- The first word from `i` on that is not the same, if there is one in the next `m` words. -/
def firstDifferent (k₁ k₂ : KeyWords) : ℕ → ℕ → ℕ
  | 0, i => i
  | m + 1, i => if k₁.get i = k₂.get i then firstDifferent k₁ k₂ m (i + 1) else i

/-- The number of equal bits from bit `m - 1` down. -/
def leadingBits (w₁ w₂ : BitVec 64) : ℕ → ℕ
  | 0 => 0
  | m + 1 => if w₁.getLsbD m = w₂.getLsbD m then leadingBits w₁ w₂ m + 1 else 0

def commonBits (key₁ key₂ : KeyWords) (checkedBits : ℕ) : ℕ :=
  let commonWords := firstDifferent key₁ key₂ (4 - checkedBits / 64) (checkedBits / 64)
  if commonWords = 4 then checkedBits
  else commonWords * 64 + leadingBits (key₁.get commonWords) (key₂.get commonWords) 64

theorem firstDifferent_spec (k₁ k₂ : KeyWords) (m i : ℕ) :
    i ≤ firstDifferent k₁ k₂ m i ∧ firstDifferent k₁ k₂ m i ≤ i + m ∧
      (∀ j, i ≤ j → j < firstDifferent k₁ k₂ m i → k₁.get j = k₂.get j) ∧
      (firstDifferent k₁ k₂ m i ≠ i + m →
        k₁.get (firstDifferent k₁ k₂ m i) ≠ k₂.get (firstDifferent k₁ k₂ m i)) := by
  induction m generalizing i with
  | zero => exact ⟨le_rfl, le_rfl, fun j h h' => absurd h' (not_lt.mpr h), fun h => absurd rfl h⟩
  | succ m ih =>
    unfold firstDifferent
    split
    · rename_i heq
      obtain ⟨h₁, h₂, h₃, h₄⟩ := ih (i + 1)
      refine ⟨by omega, by omega, ?_, fun h => h₄ (by omega)⟩
      intro j hj hj'
      rcases Nat.eq_or_lt_of_le hj with rfl | hj
      · exact heq
      · exact h₃ j hj hj'
    · rename_i hne
      exact ⟨le_rfl, by omega, fun j h h' => absurd h' (not_lt.mpr h), fun _ => hne⟩

theorem leadingBits_spec (w₁ w₂ : BitVec 64) (m : ℕ) :
    leadingBits w₁ w₂ m ≤ m ∧
      (∀ j < leadingBits w₁ w₂ m, w₁.getLsbD (m - 1 - j) = w₂.getLsbD (m - 1 - j)) ∧
      (leadingBits w₁ w₂ m ≠ m →
        w₁.getLsbD (m - 1 - leadingBits w₁ w₂ m) ≠ w₂.getLsbD (m - 1 - leadingBits w₁ w₂ m)) := by
  induction m with
  | zero => exact ⟨le_rfl, fun j hj => absurd hj (Nat.not_lt_zero _), fun h => absurd rfl h⟩
  | succ m ih =>
    obtain ⟨h₁, h₂, h₃⟩ := ih
    unfold leadingBits
    split
    · rename_i heq
      refine ⟨by omega, ?_, ?_⟩
      · intro j hj
        cases j with
        | zero => exact heq
        | succ j =>
          rw [show m + 1 - 1 - (j + 1) = m - 1 - j by omega]
          exact h₂ j (by omega)
      · intro h
        rw [show m + 1 - 1 - (leadingBits w₁ w₂ m + 1) = m - 1 - leadingBits w₁ w₂ m by omega]
        exact h₃ (by omega)
    · rename_i hne
      exact ⟨Nat.zero_le _, fun j hj => absurd hj (Nat.not_lt_zero _), fun _ => hne⟩

theorem commonBits_self (k : KeyWords) {c : ℕ} (hc : c ≤ 256) : commonBits k k c = c := by
  obtain ⟨h₁, h₂, -, h₄⟩ := firstDifferent_spec k k (4 - c / 64) (c / 64)
  have h : firstDifferent k k (4 - c / 64) (c / 64) = 4 := by
    by_contra hne
    exact h₄ (by omega) rfl
  simp [commonBits, h]

/-- Different keys agree on exactly their first `commonBits` bits. -/
theorem agree_iff_le_commonBits {k k' : KeyWords} (hne : k ≠ k') {c : ℕ} (hc : k.Agree k' c)
    (b : ℕ) : k.Agree k' b ↔ b ≤ commonBits k k' c := by
  have hc256 : c < 256 := by
    by_contra h
    exact hne (eq_of_agree (hc.mono (not_lt.mp h)))
  obtain ⟨h₁, h₂, h₃, h₄⟩ := firstDifferent_spec k k' (4 - c / 64) (c / 64)
  unfold commonBits
  simp only
  generalize firstDifferent k k' (4 - c / 64) (c / 64) = d at *
  -- all words before word `d` are the same
  have hwords : k.Agree k' (64 * d) := by
    intro j hj
    by_cases hjc : j < c
    · exact hc j hjc
    · have hget := (get_eq_iff (j / 64)).mp (h₃ (j / 64) (by omega) (by omega)) (j % 64) (by omega)
      rwa [Nat.div_add_mod] at hget
  have hd : d ≠ 4 := by
    rintro rfl
    exact hne (eq_of_agree hwords)
  rw [if_neg hd]
  obtain ⟨hl₁, hl₂, hl₃⟩ := leadingBits_spec (k.get d) (k'.get d) 64
  have hneq := h₄ (by omega)
  generalize leadingBits (k.get d) (k'.get d) 64 = l at *
  have hl : l ≠ 64 := by
    rintro rfl
    refine hneq ((get_eq_iff d).mpr fun j hj => ?_)
    rw [bit_word k d hj, bit_word k' d hj]
    exact hl₂ j hj
  constructor
  · intro h
    by_contra hlt
    have hbit := h (64 * d + l) (by omega)
    rw [bit_word k d (by omega), bit_word k' d (by omega)] at hbit
    exact hl₃ hl hbit
  · intro h
    refine Agree.mono (agree_add.mpr ⟨hwords, fun j hj => ?_⟩) (show b ≤ 64 * d + l by omega)
    rw [bit_word k d (by omega), bit_word k' d (by omega)]
    exact hl₂ j hj

end ZkevmProver
