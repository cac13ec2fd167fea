import ZkevmProver.SM.MemAlign

/-!
# What the check of `memAlign` accepts

  1. The bit operations of the check.
  2. Bytes at an offset.
  3. The operations that are accepted.
-/

namespace ZkevmProver

open BigEndian

/-! ## The bit operations of the check -/

section Bits

variable {m v o : ℕ}

/-- The bytes before the offset. -/
theorem and_highMask (hm : m < 2 ^ 256) {k : ℕ} (hk : k ≤ 256) :
    m &&& (2 ^ 256 - (1 <<< k)) = (m >>> k) <<< k := by
  have hmask : 2 ^ 256 - (1 <<< k) = (2 ^ (256 - k) - 1) <<< k := by
    rw [Nat.shiftLeft_eq, Nat.shiftLeft_eq, Nat.sub_mul, ← Nat.pow_add, Nat.sub_add_cancel hk]
  rw [hmask]
  apply Nat.eq_of_testBit_eq
  intro i
  rw [Nat.testBit_and, Nat.testBit_shiftLeft, Nat.testBit_shiftLeft, Nat.testBit_two_pow_sub_one,
    Nat.testBit_shiftRight]
  by_cases hi : i < 256
  · by_cases hki : k ≤ i
    · have : i - k < 256 - k := by omega
      simp [hki, this]
    · simp [hki]
  · have hlt : m < 2 ^ i := hm.trans_le (Nat.pow_le_pow_right (by decide) (by omega))
    by_cases hki : k ≤ i
    · simp [Nat.testBit_lt_two_pow hlt, hki]
    · simp [hki]

theorem mask_shiftRight {s : ℕ} (hs : s ≤ 256) : ScalarMask256 >>> s = 2 ^ (256 - s) - 1 := by
  apply Nat.eq_of_testBit_eq
  intro i
  rw [ScalarMask256, Nat.testBit_shiftRight, Nat.testBit_two_pow_sub_one,
    Nat.testBit_two_pow_sub_one]
  exact decide_eq_decide.mpr (by omega)

/-- The bytes from the offset on. -/
theorem and_lowMask {s : ℕ} (hs : s ≤ 256) : m &&& (ScalarMask256 >>> s) = m % 2 ^ (256 - s) := by
  rw [mask_shiftRight hs, Nat.and_two_pow_sub_one_eq_mod]

theorem shiftLeft_and_mask {k : ℕ} (hk : k ≤ 256) :
    (m <<< k) &&& ScalarMask256 = (m % 2 ^ (256 - k)) <<< k := by
  rw [ScalarMask256, Nat.and_two_pow_sub_one_eq_mod, Nat.shiftLeft_eq, Nat.shiftLeft_eq]
  have hpow : 2 ^ 256 = 2 ^ (256 - k) * 2 ^ k := by rw [← Nat.pow_add, Nat.sub_add_cancel hk]
  rw [hpow, Nat.mul_mod_mul_right]

theorem shiftRight_lt {k : ℕ} (hv : v < 2 ^ 256) (hk : k ≤ 256) : v >>> k < 2 ^ (256 - k) := by
  rw [Nat.shiftRight_eq_div_pow]
  apply Nat.div_lt_of_lt_mul
  rwa [← Nat.pow_add, Nat.add_sub_cancel' hk]

/-- The first word of a write. -/
theorem write_w0 (hm : m < 2 ^ 256) (hv : v < 2 ^ 256) (ho : o ≤ 32) :
    (m &&& (2 ^ 256 - (1 <<< (256 - o * 8)))) ||| (v >>> (o * 8)) =
      m / 256 ^ (32 - o) * 256 ^ (32 - o) + v / 256 ^ o := by
  rw [and_highMask hm (by omega), ← Nat.shiftLeft_add_eq_or_of_lt (shiftRight_lt hv (by omega)),
    Nat.shiftLeft_eq, Nat.shiftRight_eq_div_pow, Nat.shiftRight_eq_div_pow]
  have h256 (k : ℕ) : 256 ^ k = 2 ^ (8 * k) := by rw [Nat.pow_mul]
  rw [h256, h256, Nat.mul_comm o 8, (by omega : 256 - 8 * o = 8 * (32 - o))]

/-- The second word of a write. -/
theorem write_w1 (ho : o ≤ 32) :
    (m &&& (ScalarMask256 >>> (o * 8))) ||| ((v <<< (256 - o * 8)) &&& ScalarMask256) =
      v % 256 ^ o * 256 ^ (32 - o) + m % 256 ^ (32 - o) := by
  have h256 (k : ℕ) : 256 ^ k = 2 ^ (8 * k) := by rw [Nat.pow_mul]
  rw [and_lowMask (by omega), shiftLeft_and_mask (by omega), Nat.or_comm,
    ← Nat.shiftLeft_add_eq_or_of_lt (Nat.mod_lt _ (Nat.two_pow_pos _)), Nat.shiftLeft_eq, h256,
    h256, (by omega : 256 - (256 - o * 8) = 8 * o), (by omega : 256 - o * 8 = 8 * (32 - o))]

/-- The value of a read. -/
theorem read_value {m0 m1 : ℕ} (hm : m1 < 2 ^ 256) (ho : o ≤ 32) :
    ((m0 <<< (o * 8)) &&& ScalarMask256) |||
        ((m1 >>> (256 - o * 8)) &&& (ScalarMask256 >>> (256 - o * 8))) =
      m0 % 256 ^ (32 - o) * 256 ^ o + m1 / 256 ^ (32 - o) := by
  have h256 (k : ℕ) : 256 ^ k = 2 ^ (8 * k) := by rw [Nat.pow_mul]
  have hlt := shiftRight_lt hm (by omega : 256 - o * 8 ≤ 256)
  rw [(by omega : 256 - (256 - o * 8) = o * 8)] at hlt
  rw [shiftLeft_and_mask (by omega), and_lowMask (by omega),
    (by omega : 256 - (256 - o * 8) = o * 8), Nat.mod_eq_of_lt hlt,
    ← Nat.shiftLeft_add_eq_or_of_lt hlt, Nat.shiftLeft_eq, Nat.shiftRight_eq_div_pow, h256, h256,
    (by omega : 256 - o * 8 = 8 * (32 - o)), Nat.mul_comm o 8]

theorem byteMaskOn256_eq : byteMaskOn256 = ((2 ^ 256 - 1) <<< 256) ||| (2 ^ 248 - 1) := by decide

/-- The mask is zero at the byte of the offset only. -/
theorem testBit_byteMask (o i : ℕ) (ho : o ≤ 32) (hi : i < 256) :
    byteMaskOn256.testBit (o * 8 + i) = decide (i + 8 * o < 248 ∨ 256 ≤ i + 8 * o) := by
  rw [byteMaskOn256_eq, Nat.testBit_or, Nat.testBit_shiftLeft,
    Nat.testBit_two_pow_sub_one, Nat.testBit_two_pow_sub_one]
  by_cases h : 256 ≤ i + 8 * o
  · have h1 : o * 8 + i ≥ 256 := by omega
    have h2 : o * 8 + i - 256 < 256 := by omega
    simp [h, h1, h2]
  · have h1 : ¬o * 8 + i ≥ 256 := by omega
    have h2 : o * 8 + i < 248 ↔ i + 8 * o < 248 := by omega
    simp [h, h1, h2]

/-- The word of a write of one byte. -/
theorem write8_w0 (hm : m < 2 ^ 256) (ho : o < 32) :
    (m &&& (byteMaskOn256 >>> (o * 8))) ||| ((v &&& 0xFF) <<< (8 * (31 - o))) =
      m / 256 ^ (32 - o) * 256 ^ (32 - o) + (v % 256 * 256 ^ (31 - o) + m % 256 ^ (31 - o)) := by
  have h256 (k : ℕ) : 256 ^ k = 2 ^ (8 * k) := by rw [Nat.pow_mul]
  have hkeep : m &&& (byteMaskOn256 >>> (o * 8)) =
      ((m >>> (8 * (32 - o))) <<< (8 * (32 - o))) ||| (m % 2 ^ (8 * (31 - o))) := by
    apply Nat.eq_of_testBit_eq
    intro i
    rw [Nat.testBit_and, Nat.testBit_or, Nat.testBit_shiftLeft, Nat.testBit_shiftRight,
      Nat.testBit_shiftRight, Nat.testBit_mod_two_pow]
    by_cases hi : i < 256
    · rw [testBit_byteMask o i (by omega) hi]
      by_cases hlow : i < 8 * (31 - o)
      · have h1 : i + 8 * o < 248 := by omega
        have h2 : ¬8 * (32 - o) ≤ i := by omega
        simp [hlow, h1, h2]
      · by_cases hhigh : 8 * (32 - o) ≤ i
        · have h1 : 256 ≤ i + 8 * o := by omega
          simp [hlow, h1, hhigh]
        · have h1 : ¬(i + 8 * o < 248 ∨ 256 ≤ i + 8 * o) := by omega
          simp [hlow, h1, hhigh]
    · have hlt : m < 2 ^ i := hm.trans_le (Nat.pow_le_pow_right (by decide) (by omega))
      have hzero := Nat.testBit_lt_two_pow hlt
      by_cases hhigh : 8 * (32 - o) ≤ i
      · simp [hzero, hhigh]
      · simp [hzero, hhigh]
  have hlow : m % 2 ^ (8 * (31 - o)) < 2 ^ (8 * (31 - o)) := Nat.mod_lt _ (Nat.two_pow_pos _)
  have hbyte : v &&& 0xFF = v % 256 := Nat.and_two_pow_sub_one_eq_mod v 8
  have hmid : ((v &&& 0xFF) <<< (8 * (31 - o))) ||| (m % 2 ^ (8 * (31 - o))) =
      v % 256 * 256 ^ (31 - o) + m % 256 ^ (31 - o) := by
    rw [← Nat.shiftLeft_add_eq_or_of_lt hlow, Nat.shiftLeft_eq, hbyte, h256]
  have hmidlt : v % 256 * 256 ^ (31 - o) + m % 256 ^ (31 - o) < 2 ^ (8 * (32 - o)) := by
    have hpow : (2 : ℕ) ^ (8 * (32 - o)) = 256 * 256 ^ (31 - o) := by
      rw [← h256, ← Nat.pow_succ', (by omega : (31 - o).succ = 32 - o)]
    have hmod : m % 256 ^ (31 - o) < 256 ^ (31 - o) := Nat.mod_lt _ (Nat.pow_pos (by decide))
    calc v % 256 * 256 ^ (31 - o) + m % 256 ^ (31 - o)
        < v % 256 * 256 ^ (31 - o) + 256 ^ (31 - o) := Nat.add_lt_add_left hmod _
      _ = (v % 256 + 1) * 256 ^ (31 - o) := (Nat.succ_mul _ _).symm
      _ ≤ 256 * 256 ^ (31 - o) := Nat.mul_le_mul_right _ (Nat.mod_lt _ (by decide))
      _ = 2 ^ (8 * (32 - o)) := hpow.symm
  rw [hkeep, Nat.or_assoc, Nat.or_comm (m % _), hmid, ← Nat.shiftLeft_add_eq_or_of_lt hmidlt,
    Nat.shiftLeft_eq, Nat.shiftRight_eq_div_pow]
  simp only [h256]

end Bits

/-! ## Bytes at an offset -/

section Bytes

theorem bytes_eq_iff {width n : ℕ} {l : List UInt8} (hn : n < 256 ^ width) (hl : l.length = width) :
    bytes width n = l ↔ n = value l := by
  constructor
  · rintro rfl
    exact (value_bytes_of_lt hn).symm
  · rintro rfl
    rw [← hl]
    exact bytes_value l

variable {A B V : List UInt8} {o : ℕ} (hA : A.length = 32)
include hA

theorem write_splice (ho : o ≤ 32) :
    (A ++ B).take o ++ V ++ (A ++ B).drop (o + 32) =
      (A.take o ++ V.take (32 - o)) ++ (V.drop (32 - o) ++ B.drop o) := by
  have htake : (A ++ B).take o = A.take o := List.take_append_of_le_length (by omega)
  have hdrop : (A ++ B).drop (o + 32) = B.drop o := by
    rw [List.drop_append, List.drop_of_length_le (by omega), List.nil_append, hA,
      Nat.add_sub_cancel]
  rw [htake, hdrop, List.append_assoc, List.append_assoc, ← List.append_assoc (V.take _),
    List.take_append_drop]

theorem read_splice (ho : o ≤ 32) :
    ((A ++ B).drop o).take 32 = A.drop o ++ B.take o := by
  have hlen : (A.drop o).length = 32 - o := by rw [List.length_drop, hA]
  rw [List.drop_append_of_le_length (by omega), List.take_append, hlen,
    List.take_of_length_le (by omega), (by omega : 32 - (32 - o) = o)]

theorem write8_splice (b : UInt8) (ho : o < 32) :
    (A ++ B).take o ++ [b] ++ (A ++ B).drop (o + 1) =
      (A.take o ++ ([b] ++ A.drop (o + 1))) ++ B := by
  rw [List.take_append_of_le_length (by omega), List.drop_append_of_le_length (by omega)]
  simp only [List.append_assoc]

end Bytes

/-! ## The operations that are accepted -/

namespace MemAlignOp

variable {op : MemAlignOp}

/-- A write of one byte that is not zero to the offset 32. -/
def Aborts (op : MemAlignOp) : Prop :=
  op.mode = .write8 ∧ op.offset.val = 32 ∧ op.v.val % 256 ≠ 0

/-- What the executor of the state machine gets for an accepted operation. -/
def action (op : MemAlignOp) : MemAlignAction where
  m0 := op.m0
  m1 := if op.mode = .write8 then 0 else op.m1.val
  v := op.v
  w0 := if op.mode = .read then 0 else op.w0.val
  w1 := if op.mode = .write then op.w1.val else 0
  offset := op.offset
  wr8 := if op.mode = .write8 then 1 else 0
  wr256 := if op.mode = .write then 1 else 0

theorem word_lt (x : Word256) : x.val < 256 ^ 32 := x.isLt

theorem spliced_write (hmode : op.mode = .write) (ho : op.offset.val ≤ 32) :
    op.Spliced ↔
      op.w0.val = op.m0.val / 256 ^ (32 - op.offset.val) * 256 ^ (32 - op.offset.val) +
        op.v.val / 256 ^ op.offset.val ∧
      op.w1.val = op.v.val % 256 ^ op.offset.val * 256 ^ (32 - op.offset.val) +
        op.m1.val % 256 ^ (32 - op.offset.val) := by
  unfold Spliced memory
  simp only [hmode, reduceCtorEq, if_false]
  rw [write_splice (length_bytes _ _) ho]
  have hlen₀ : (List.take op.offset.val (bytes 32 op.m0) ++
      List.take (32 - op.offset.val) (bytes 32 op.v)).length = 32 := by simp; omega
  have hlen₁ : (List.drop (32 - op.offset.val) (bytes 32 op.v) ++
      List.drop op.offset.val (bytes 32 op.m1)).length = 32 := by simp
  rw [List.append_eq_append_iff_of_size_eq_left (by rw [hlen₀, length_bytes]),
    bytes_eq_iff (word_lt _) hlen₀, bytes_eq_iff (word_lt _) hlen₁]
  simp only [value_append, value_take, value_drop, List.length_take, List.length_drop,
    length_bytes, value_bytes_of_lt (word_lt _)]
  have h1 : 32 - (32 - op.offset.val) = op.offset.val := by omega
  have h2 : min (32 - op.offset.val) 32 = 32 - op.offset.val := by omega
  rw [h1, h2]

theorem spliced_read (hmode : op.mode = .read) (ho : op.offset.val ≤ 32) :
    op.Spliced ↔ op.v.val = op.m0.val % 256 ^ (32 - op.offset.val) * 256 ^ op.offset.val +
      op.m1.val / 256 ^ (32 - op.offset.val) := by
  unfold Spliced memory
  simp only [hmode, reduceCtorEq, if_false]
  rw [read_splice (length_bytes _ _) ho]
  have hlen : (List.drop op.offset.val (bytes 32 op.m0) ++
      List.take op.offset.val (bytes 32 op.m1)).length = 32 := by simp; omega
  rw [bytes_eq_iff (word_lt _) hlen]
  simp only [value_append, value_take, value_drop, List.length_take, length_bytes,
    value_bytes_of_lt (word_lt _)]
  rw [Nat.min_eq_left ho]

theorem spliced_write8 (hmode : op.mode = .write8) (ho : op.offset.val < 32) :
    op.Spliced ↔ op.w0.val =
      op.m0.val / 256 ^ (32 - op.offset.val) * 256 ^ (32 - op.offset.val) +
        (op.v.val % 256 * 256 ^ (31 - op.offset.val) +
          op.m0.val % 256 ^ (31 - op.offset.val)) := by
  unfold Spliced memory
  simp only [hmode, if_true]
  rw [write8_splice (length_bytes _ _) _ ho, List.append_left_inj]
  have hlen : (List.take op.offset.val (bytes 32 op.m0) ++
      ([op.v.val.toUInt8] ++ List.drop (op.offset.val + 1) (bytes 32 op.m0))).length = 32 := by
    simp; omega
  rw [bytes_eq_iff (word_lt _) hlen]
  have hbyte : value [op.v.val.toUInt8] = op.v.val % 256 := by simp [value_cons]
  rw [value_append, value_append, hbyte]
  simp only [value_take, value_drop, List.length_append, List.length_singleton, List.length_drop,
    length_bytes, value_bytes_of_lt (word_lt _)]
  rw [(by omega : 1 + (32 - (op.offset.val + 1)) = 32 - op.offset.val),
    (by omega : 32 - (op.offset.val + 1) = 31 - op.offset.val)]

/-- Behind the word there is nothing but zeros. -/
theorem spliced_write8_last (hmode : op.mode = .write8) (ho : op.offset.val = 32) :
    op.Spliced ↔ op.w0 = op.m0 ∧ op.v.val % 256 = 0 := by
  unfold Spliced memory
  simp only [hmode, if_true, ho]
  have htake (A B : List UInt8) (hA : A.length = 32) : (A ++ B).take 32 = A := by
    rw [List.take_append_of_le_length (by omega), List.take_of_length_le (by omega)]
  have hdrop (A B : List UInt8) (hA : A.length = 32) : (A ++ B).drop (32 + 1) = B.drop 1 := by
    rw [List.drop_append, List.drop_of_length_le (by omega), List.nil_append, hA]
  rw [htake _ _ (length_bytes _ _), hdrop _ _ (length_bytes _ _), List.append_assoc,
    List.append_eq_append_iff_of_size_eq_left (by rw [length_bytes, length_bytes]),
    bytes_of_zero, List.replicate_succ, List.drop_succ_cons, List.drop_zero,
    List.singleton_append, List.cons.injEq, eq_self_iff_true, and_true]
  have hw : bytes 32 op.w0 = bytes 32 op.m0 ↔ op.w0 = op.m0 := by
    rw [bytes_eq_iff (word_lt _) (length_bytes _ _), value_bytes_of_lt (word_lt _), Fin.ext_iff]
  rw [hw]
  apply and_congr_right
  intro _
  rw [eq_comm, ← UInt8.toNat_inj]
  simp

/-- A byte is shifted to a place in a word. -/
theorem mpzShiftLeft_byte {x n : ℕ} (hx : x < 256) (hn : n ≤ 248) :
    mpzShiftLeft x n = .ok (x <<< n) := by
  unfold mpzShiftLeft
  split
  · rename_i h
    rw [h, Nat.zero_shiftLeft]
    rfl
  · have hsize : x.size ≤ 8 := Nat.size_le.mpr hx
    rw [if_pos (by split <;> omega)]
    rfl

theorem check_of_gt (ho : 32 < op.offset.val) : op.check = .error .offsetOutOfRange := by
  unfold check
  rw [if_pos ho]
  rfl

theorem check_write (hmode : op.mode = .write) (ho : op.offset.val ≤ 32) :
    op.Spliced ∧ op.check = .ok op.action ∨ ¬op.Spliced ∧ op.check = .error .writeMismatch := by
  have haction : op.action = ⟨op.m0, op.m1, op.v, op.w0, op.w1, op.offset, 0, 1⟩ := by
    simp [action, hmode]
  unfold check
  rw [if_neg (Nat.not_lt.mpr ho), spliced_write hmode ho, haction, hmode]
  dsimp only
  rw [write_w0 op.m0.isLt op.v.isLt ho, write_w1 ho]
  split
  · rename_i h
    exact .inr ⟨fun hw => h.elim (fun h => h hw.1) fun h => h hw.2, rfl⟩
  · rename_i h
    exact .inl ⟨by rwa [not_or, not_not, not_not] at h, rfl⟩

theorem check_read (hmode : op.mode = .read) (ho : op.offset.val ≤ 32) :
    op.Spliced ∧ op.check = .ok op.action ∨ ¬op.Spliced ∧ op.check = .error .readMismatch := by
  have haction : op.action = ⟨op.m0, op.m1, op.v, 0, 0, op.offset, 0, 0⟩ := by
    simp [action, hmode]
  unfold check
  rw [if_neg (Nat.not_lt.mpr ho), spliced_read hmode ho, haction, hmode]
  dsimp only
  rw [read_value op.m1.isLt ho]
  split
  · rename_i h
    exact .inr ⟨h, rfl⟩
  · rename_i h
    exact .inl ⟨not_not.mp h, rfl⟩

theorem check_write8 (hmode : op.mode = .write8) (ho : op.offset.val < 32) :
    op.Spliced ∧ op.check = .ok op.action ∨ ¬op.Spliced ∧ op.check = .error .write8Mismatch := by
  have haction : op.action = ⟨op.m0, 0, op.v, op.w0, 0, op.offset, 1, 0⟩ := by
    simp [action, hmode]
  have hcount : (31 + 2 ^ 64 - op.offset.val) % 2 ^ 64 * 8 % 2 ^ 64 = 8 * (31 - op.offset.val) := by
    omega
  have hbyte : op.v.val &&& 0xFF < 256 := Nat.and_lt_two_pow _ (by decide : 0xFF < 2 ^ 8)
  unfold check
  rw [if_neg (by omega), spliced_write8 hmode ho, haction, hmode]
  dsimp only
  rw [hcount, mpzShiftLeft_byte hbyte (by omega)]
  show _ ∧ (if op.w0.val ≠ _ then _ else _) = _ ∨ _ ∧ (if op.w0.val ≠ _ then _ else _) = _
  rw [write8_w0 op.m0.isLt ho]
  split
  · rename_i h
    exact .inr ⟨h, rfl⟩
  · rename_i h
    exact .inl ⟨not_not.mp h, rfl⟩

/-- The shift is by 2^64 - 8 bits, which only zero survives. -/
theorem check_write8_last (hmode : op.mode = .write8) (ho : op.offset.val = 32) :
    op.v.val % 256 ≠ 0 ∧ op.check = .error .abort ∨
      op.v.val % 256 = 0 ∧ op.Spliced ∧ op.check = .ok op.action ∨
      op.v.val % 256 = 0 ∧ ¬op.Spliced ∧ op.check = .error .write8Mismatch := by
  have haction : op.action = ⟨op.m0, 0, op.v, op.w0, 0, op.offset, 1, 0⟩ := by
    simp [action, hmode]
  have hbyte : op.v.val &&& 0xFF = op.v.val % 256 := Nat.and_two_pow_sub_one_eq_mod _ 8
  have hcount : (31 + 2 ^ 64 - 32) % 2 ^ 64 * 8 % 2 ^ 64 = 2 ^ 64 - 8 := by decide
  have hkeep : op.m0.val &&& (byteMaskOn256 >>> (32 * 8)) = op.m0.val := by
    have hmask : byteMaskOn256 >>> (32 * 8) = 2 ^ 256 - 1 := by decide
    rw [hmask, Nat.and_two_pow_sub_one_eq_mod, Nat.mod_eq_of_lt op.m0.isLt]
  rw [spliced_write8_last hmode ho]
  unfold check
  rw [if_neg (by omega), haction, hmode]
  dsimp only
  rw [hbyte, ho, hcount, hkeep]
  by_cases hv : op.v.val % 256 = 0
  · right
    rw [hv]
    show _ ∧ _ ∧ (if op.w0.val ≠ op.m0.val ||| 0 then _ else _) = _ ∨
      _ ∧ _ ∧ (if op.w0.val ≠ op.m0.val ||| 0 then _ else _) = _
    rw [Nat.or_zero]
    split
    · rename_i h
      exact .inr ⟨rfl, fun hw => h (congrArg Fin.val hw.1), rfl⟩
    · rename_i h
      exact .inl ⟨rfl, ⟨Fin.ext (not_not.mp h), rfl⟩, rfl⟩
  · left
    refine ⟨hv, ?_⟩
    unfold mpzShiftLeft
    rw [if_neg hv, if_neg (by omega)]
    rfl

/-- The check aborts, or it accepts what the operation means, or it rejects what it does not. -/
theorem check_cases (op : MemAlignOp) :
    op.Aborts ∧ op.check = .error .abort ∨
      ¬op.Aborts ∧ (op.offset.val ≤ 32 ∧ op.Spliced) ∧ op.check = .ok op.action ∨
      ¬op.Aborts ∧ ¬(op.offset.val ≤ 32 ∧ op.Spliced) ∧
        ∃ e, op.check = .error e ∧ e ≠ .abort := by
  by_cases ho : op.offset.val ≤ 32
  · cases hmode : op.mode with
    | read =>
      have hno : ¬op.Aborts := fun h => by simp [Aborts, hmode] at h
      rcases check_read hmode ho with ⟨h, hc⟩ | ⟨h, hc⟩
      · exact .inr (.inl ⟨hno, ⟨ho, h⟩, hc⟩)
      · exact .inr (.inr ⟨hno, fun hs => h hs.2, _, hc, by decide⟩)
    | write =>
      have hno : ¬op.Aborts := fun h => by simp [Aborts, hmode] at h
      rcases check_write hmode ho with ⟨h, hc⟩ | ⟨h, hc⟩
      · exact .inr (.inl ⟨hno, ⟨ho, h⟩, hc⟩)
      · exact .inr (.inr ⟨hno, fun hs => h hs.2, _, hc, by decide⟩)
    | write8 =>
      rcases Nat.lt_or_eq_of_le ho with hlt | heq
      · have hno : ¬op.Aborts := fun h => by have := h.2.1; omega
        rcases check_write8 hmode hlt with ⟨h, hc⟩ | ⟨h, hc⟩
        · exact .inr (.inl ⟨hno, ⟨ho, h⟩, hc⟩)
        · exact .inr (.inr ⟨hno, fun hs => h hs.2, _, hc, by decide⟩)
      · rcases check_write8_last hmode heq with ⟨hv, hc⟩ | ⟨hv, h, hc⟩ | ⟨hv, h, hc⟩
        · exact .inl ⟨⟨hmode, heq, hv⟩, hc⟩
        · exact .inr (.inl ⟨fun hab => hab.2.2 hv, ⟨ho, h⟩, hc⟩)
        · exact .inr (.inr ⟨fun hab => hab.2.2 hv, fun hs => h hs.2, _, hc, by decide⟩)
  · have hno : ¬op.Aborts := fun h => ho h.2.1.le
    exact .inr (.inr ⟨hno, fun hs => ho hs.1, _, check_of_gt (Nat.not_le.mp ho), by decide⟩)

end MemAlignOp

end ZkevmProver
