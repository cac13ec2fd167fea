import Mathlib.Data.List.GetD
import ZkevmProver.Lib.Bits
import ZkevmProver.Utils.ByteArray
import ZkevmProver.Utils.KeyDigits
import ZkevmProver.Utils.KeyUtils

/-!
# Keys as bytes, and in sets of bits

A key is stored as 32 bytes, and looked up in pages of 64 entries by the sets of 6 bits of its bits in tree
order.  The bits of a key are removed level by level, and the splits of a key consume them in sets: `splitKey`
and `splitKey6` follow the levels of the tree, `splitKey9` is given the bytes of a key and starts at the
highest bit of the last element.

  1. The source functions.
  2. Keys and bytes.
  3. A key is determined by its sets.
  4. Removing the bits of further levels.
  5. Where the splits have the bits of a key.
  6. Splitting and joining.
-/

namespace ZkevmProver

open BigEndian

/-! ## The source functions -/

/-- `string2ba(fea2string(key))` -/
def fea2ba (key : Fea) : List UInt8 :=
  bytes 32 (((toU64 key.fe3 * 2 ^ 64 + toU64 key.fe2) * 2 ^ 64 + toU64 key.fe1) * 2 ^ 64 + toU64 key.fe0)

/-- `string2fea(ba2string(ba))` of 32 bytes. -/
def ba2fea (ba : List UInt8) : Fea where
  fe3 := fromU64 (value (ba.take 8))
  fe2 := fromU64 (value ((ba.drop 8).take 8))
  fe1 := fromU64 (value ((ba.drop 16).take 8))
  fe0 := fromU64 (value (ba.drop 24))

/-- The 256 bits of a key in sets of 6 bits. -/
def splitKey6 (key : Fea) : List ℕ :=
  let bits := splitKey key
  let bit (i weight : ℕ) : ℕ := if bits.getD i false then weight else 0
  (List.range 42).map (fun i =>
      bit (i * 6 + 0) 0b100000 + bit (i * 6 + 1) 0b010000 + bit (i * 6 + 2) 0b001000 +
        bit (i * 6 + 3) 0b000100 + bit (i * 6 + 4) 0b000010 + bit (i * 6 + 5) 0b000001) ++
    [bit (42 * 6 + 0) 0b100000 + bit (42 * 6 + 1) 0b010000 + bit (42 * 6 + 2) 0b001000 +
      bit (42 * 6 + 3) 0b000100]

/-! ## Keys and bytes -/

@[simp] theorem length_fea2ba (key : Fea) : (fea2ba key).length = 32 := length_bytes _ _

theorem value_fea2ba (key : Fea) : value (fea2ba key) =
    ((toU64 key.fe3 * 2 ^ 64 + toU64 key.fe2) * 2 ^ 64 + toU64 key.fe1) * 2 ^ 64 + toU64 key.fe0 := by
  have h0 := toU64_lt key.fe0
  have h1 := toU64_lt key.fe1
  have h2 := toU64_lt key.fe2
  have h3 := toU64_lt key.fe3
  unfold fea2ba
  apply value_bytes_of_lt
  omega

theorem ba2fea_fea2ba (key : Fea) : ba2fea (fea2ba key) = key := by
  have h0 := toU64_lt key.fe0
  have h1 := toU64_lt key.fe1
  have h2 := toU64_lt key.fe2
  have hvalue := value_fea2ba key
  have hlength := length_fea2ba key
  apply Fea.ext
  · show fromU64 (value ((fea2ba key).drop 24)) = key.fe0
    have hword : value ((fea2ba key).drop 24) = toU64 key.fe0 := by
      rw [value_drop, hvalue, hlength]
      omega
    rw [hword, fromU64_toU64]
  · show fromU64 (value (((fea2ba key).drop 16).take 8)) = key.fe1
    have hword : value (((fea2ba key).drop 16).take 8) = toU64 key.fe1 := by
      rw [value_take, value_drop, hvalue, List.length_drop, hlength]
      omega
    rw [hword, fromU64_toU64]
  · show fromU64 (value (((fea2ba key).drop 8).take 8)) = key.fe2
    have hword : value (((fea2ba key).drop 8).take 8) = toU64 key.fe2 := by
      rw [value_take, value_drop, hvalue, List.length_drop, hlength]
      omega
    rw [hword, fromU64_toU64]
  · show fromU64 (value ((fea2ba key).take 8)) = key.fe3
    have hword : value ((fea2ba key).take 8) = toU64 key.fe3 := by
      rw [value_take, hvalue, hlength]
      omega
    rw [hword, fromU64_toU64]

/-! ## A key is determined by its sets -/

/-- The set of 6 bits at a place. -/
def keySet (key : Fea) (i : ℕ) : ℕ :=
  32 * (keyBit key (6 * i)).toNat + 16 * (keyBit key (6 * i + 1)).toNat + 8 * (keyBit key (6 * i + 2)).toNat +
    4 * (keyBit key (6 * i + 3)).toNat + 2 * (keyBit key (6 * i + 4)).toNat + (keyBit key (6 * i + 5)).toNat

theorem getD_splitKey (key : Fea) (i : ℕ) : (splitKey key).getD i false = keyBit key i := by
  by_cases hi : i < 256
  · rw [List.getD_eq_getElem _ _ (by rwa [length_splitKey]), getElem_splitKey]
  · rw [List.getD_eq_default _ _ (by rw [length_splitKey]; omega), keyBit_of_le (by omega)]

theorem ite_weight (b : Bool) (weight : ℕ) : (if b then weight else 0) = weight * b.toNat := by
  cases b <;> simp

theorem splitKey6_eq (key : Fea) : splitKey6 key = (List.range 43).map (keySet key) := by
  have hrange : List.range 43 = List.range 42 ++ [42] := List.range_succ
  unfold splitKey6
  dsimp only
  rw [hrange, List.map_append]
  congr 1
  · apply List.map_congr_left
    intro i _
    simp only [getD_splitKey, ite_weight]
    unfold keySet
    rw [Nat.mul_comm i 6]
    simp only [Nat.add_zero, Nat.one_mul]
  · simp only [getD_splitKey, ite_weight, List.map_cons, List.map_nil]
    unfold keySet
    rw [keyBit_of_le (show 256 ≤ 6 * 42 + 4 by decide), keyBit_of_le (show 256 ≤ 6 * 42 + 5 by decide)]
    rfl

@[simp] theorem length_splitKey6 (key : Fea) : (splitKey6 key).length = 43 := by
  rw [splitKey6_eq, List.length_map, List.length_range]

/-- A set holds its six bits, the first one the highest. -/
theorem testBit_keySet (key : Fea) (i : ℕ) {t : ℕ} (ht : t < 6) :
    (keySet key i).testBit (5 - t) = keyBit key (6 * i + t) := by
  have hbits : ∀ b0 b1 b2 b3 b4 b5 : Bool, ∀ t : Fin 6,
      (32 * b0.toNat + 16 * b1.toNat + 8 * b2.toNat + 4 * b3.toNat + 2 * b4.toNat + b5.toNat).testBit
        (5 - t) = ![b0, b1, b2, b3, b4, b5] t := by decide
  unfold keySet
  rw [hbits _ _ _ _ _ _ ⟨t, ht⟩]
  match t, ht with
  | 0, _ | 1, _ | 2, _ | 3, _ | 4, _ | 5, _ => rfl

theorem splitKey6_injective : Function.Injective splitKey6 := by
  intro key key' h
  rw [splitKey6_eq, splitKey6_eq] at h
  apply key_ext
  intro i hi
  have hset : keySet key (i / 6) = keySet key' (i / 6) :=
    List.map_inj_left.mp h (i / 6) (List.mem_range.mpr (by omega))
  have hmod : i % 6 < 6 := Nat.mod_lt i (by decide)
  have hbit := testBit_keySet key (i / 6) hmod
  rwa [hset, testBit_keySet key' (i / 6) hmod, Nat.div_add_mod, eq_comm] at hbit

/-! ## Removing the bits of further levels -/

section Order

variable {w : WordShift} {key : Fea}

/-- The bit of one level is removed: the lowest one that is left of the element whose turn it is. -/
def removeBit (rkey : Fea) (level : ℕ) : Fea :=
  .ofFn fun i => if i = lane level then fromU64 (toU64 (rkey.get i) / 2) else rkey.get i

/-- The bits of `m` levels are removed from the remaining key at a level, in tree order. -/
def removeBits (rkey : Fea) (level : ℕ) : ℕ → Fea
  | 0 => rkey
  | m + 1 => removeBit (removeBits rkey level m) (level + m)

/-- A shift by one more bit.  The word is not shifted by its length, or nothing is left of it then. -/
theorem shr_succ {x n : ℕ} (hx : x < 2 ^ 64) (h : n + 1 < 64 ∨ w.rightWraps = false) :
    w.shr x (n + 1) = w.shr x n / 2 := by
  unfold WordShift.shr
  rcases Nat.lt_or_ge (n + 1) 64 with hn | hn
  · rw [if_pos hn, if_pos (Nat.lt_of_succ_lt hn), Nat.shiftRight_succ]
  · have hwrap : ¬w.rightWraps = true := by
      rw [h.resolve_left (Nat.not_lt.mpr hn)]
      exact Bool.false_ne_true
    rw [if_neg (Nat.not_lt.mpr hn), if_neg hwrap, if_neg hwrap]
    by_cases hlt : n < 64
    · obtain rfl : n = 63 := by omega
      rw [if_pos hlt, Nat.shiftRight_eq_div_pow]
      omega
    · rw [if_neg hlt]

/-- No element is shifted by its whole length, or nothing is left of it then. -/
theorem removeKeyBits_succ {n : ℕ} (h : n < 252 ∨ w.rightWraps = false) :
    removeKeyBits w key (n + 1) = removeBit (removeKeyBits w key n) n := by
  refine Fea.ext_get fun i => ?_
  unfold removeBit removeKeyBits
  rw [Fea.get_ofFn, Fea.get_ofFn, Fea.get_ofFn, laneBits_succ]
  by_cases hi : i = lane n
  · rw [if_pos hi, if_pos hi, toU64_fromU64 (shr_lt w (key.get i) _), shr_succ (toU64_lt _)]
    rw [hi, laneBits_lane]
    exact h.imp_left fun hlt => by omega
  · rw [if_neg hi, if_neg hi]

theorem removeKeyBits_add (n m : ℕ) (h : n + m ≤ 252 ∨ w.rightWraps = false) :
    removeKeyBits w key (n + m) = removeBits (removeKeyBits w key n) n m := by
  induction m with
  | zero => rfl
  | succ m ih =>
    have hlast : n + m < 252 ∨ w.rightWraps = false := h.imp_left Nat.lt_of_succ_le
    rw [← Nat.add_assoc, removeKeyBits_succ hlast, ih (hlast.imp_left Nat.le_of_lt)]
    rfl

/-! ## Where the splits have the bits of a key -/

theorem splitKey_injective : Function.Injective splitKey := by
  intro key key' h
  apply key_ext
  intro i _
  rw [← getD_splitKey, ← getD_splitKey, h]

theorem testBit_splitKey6 {i : ℕ} (hi : i < 256) :
    ((splitKey6 key).getD (i / 6) 0).testBit (5 - i % 6) = (splitKey key).getD i false := by
  have hset : (splitKey6 key).getD (i / 6) 0 = keySet key (i / 6) := by
    rw [List.getD_eq_getElem _ _ (by rw [length_splitKey6]; omega)]
    simp [splitKey6_eq]
  rw [hset, testBit_keySet key (i / 6) (Nat.mod_lt i (by decide)), Nat.div_add_mod, getD_splitKey]

/-- A bit of the bytes of a key, the highest of the last element first. -/
theorem baBit_fea2ba {i : ℕ} (hi : i < 256) :
    baBit (fea2ba key) i = keyBit key (4 * (63 - i % 64) + (3 - i / 64)) := by
  have hlength := length_fea2ba key
  have hvalue := Bits.testBit_value (fea2ba key) (i := 255 - i) (by omega)
  have hplace : (fea2ba key).length - 1 - (255 - i) / 8 = i / 8 := by omega
  have hmod : (255 - i) % 8 = 7 - i % 8 := by omega
  rw [hplace, hmod, value_fea2ba] at hvalue
  have h0 := toU64_lt key.fe0
  have h1 := toU64_lt key.fe1
  have h2 := toU64_lt key.fe2
  simp only [Nat.mul_comm _ (2 ^ 64)] at hvalue
  rw [Nat.testBit_two_pow_mul_add _ h0, Nat.testBit_two_pow_mul_add _ h1,
    Nat.testBit_two_pow_mul_add _ h2] at hvalue
  unfold baBit
  rw [← hvalue]
  have hget (l : Fin 4) : keyBit key (4 * (63 - i % 64) + l) = (toU64 (key.get l)).testBit (63 - i % 64) :=
    (testBit_get key l (63 - i % 64)).symm
  obtain hl | hl | hl | hl : i / 64 = 3 ∨ i / 64 = 2 ∨ i / 64 = 1 ∨ i / 64 = 0 := by omega
  · rw [hl, if_pos (by omega)]
    exact (congrArg _ (by omega)).trans (hget 0).symm
  · rw [hl, if_neg (by omega), if_pos (by omega)]
    exact (congrArg _ (by omega)).trans (hget 1).symm
  · rw [hl, if_neg (by omega), if_neg (by omega), if_pos (by omega)]
    exact (congrArg _ (by omega)).trans (hget 2).symm
  · rw [hl, if_neg (by omega), if_neg (by omega), if_neg (by omega)]
    exact (congrArg _ (by omega)).trans (hget 3).symm

theorem testBit_splitKey9 {i : ℕ} (hi : i < 256) :
    ((splitKey9 (fea2ba key)).getD (i / 9) 0).testBit (8 - i % 9) =
      (splitKey key).getD (4 * (63 - i % 64) + (3 - i / 64)) false := by
  have hlength := length_fea2ba key
  have hpart : (splitKey9 (fea2ba key)).getD (i / 9) 0 = splitKey9Part (fea2ba key) (9 * (i / 9)) := by
    rw [List.getD_eq_getElem _ _ (by rw [length_splitKey9]; omega)]
    simp [splitKey9]
  rw [hpart, testBit_splitKey9Part _ _ (Nat.mod_lt i (by decide)) (by rw [Nat.div_add_mod]; omega),
    Nat.div_add_mod, baBit_fea2ba hi, getD_splitKey]

/-! ## Splitting and joining -/

/-- What the functions on keys do to the bits of a key. -/
structure SplitsAndJoins (w : WordShift) (key : Fea) : Prop where
  joined : ∀ n ≤ 256, joinKey w ((splitKey key).take n) (removeKeyBits w key n) = key
  removed : ∀ n m, n + m ≤ 252 ∨ w.rightWraps = false →
    removeKeyBits w key (n + m) = removeBits (removeKeyBits w key n) n m
  splitKey_inj : ∀ key', splitKey key = splitKey key' → key = key'
  splitKey6_inj : ∀ key', splitKey6 key = splitKey6 key' → key = key'
  splitKey9_inj : ∀ key', splitKey9 (fea2ba key) = splitKey9 (fea2ba key') → key = key'
  /-- From the lowest bits on, one of each element in turn. -/
  splitKey_order : ∀ i < 256, (splitKey key).getD i false = (toU64 (key.get (lane i))).testBit (i / 4)
  splitKey6_order : ∀ i < 256,
    ((splitKey6 key).getD (i / 6) 0).testBit (5 - i % 6) = (splitKey key).getD i false
  /-- From the highest bit on, the last element first. -/
  splitKey9_order : ∀ i < 256, ((splitKey9 (fea2ba key)).getD (i / 9) 0).testBit (8 - i % 9) =
    (splitKey key).getD (4 * (63 - i % 64) + (3 - i / 64)) false

/-- **Splitting and joining are inverse,** and the order of the bits is that of the tree but for
`splitKey9`. -/
theorem splitsAndJoins (w : WordShift) (key : Fea) : SplitsAndJoins w key where
  joined _ hn := joinKey_removeKeyBits w key hn
  removed n m h := removeKeyBits_add n m h
  splitKey_inj _ h := splitKey_injective h
  splitKey6_inj _ h := splitKey6_injective h
  splitKey9_inj key' h := by
    have hba := splitKey9_inj ((length_fea2ba key).trans (length_fea2ba key').symm) h
    rw [← ba2fea_fea2ba key, hba, ba2fea_fea2ba]
  splitKey_order i _ := getD_splitKey key i
  splitKey6_order _ hi := testBit_splitKey6 hi
  splitKey9_order _ hi := testBit_splitKey9 hi

/-- The lowest bit of the first element is the first one of the tree and the last one of the bytes.  Where a
shift by 64 leaves a word as it is, the element comes back at level 253. -/
theorem not_one_order :
    ((splitKey9 (fea2ba 1)).getD (0 / 9) 0).testBit (8 - 0 % 9) ≠ (splitKey 1).getD 0 false ∧
      removeKeyBits ⟨true, true⟩ 1 (252 + 1) ≠ removeBits (removeKeyBits ⟨true, true⟩ 1 252) 252 1 := by
  decide

end Order

end ZkevmProver
