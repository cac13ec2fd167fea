import ZkevmProver.Lib.DigitCarry
import ZkevmProver.SM.BinaryExecutor

/-!
# The carry of the binary state machine

`carryIn` says what the carry into a row means for the words that the bytes come from, and
`carryOut` what the row hands on.  `execByte_cOut` is one byte, `row_cOut` the two bytes of a row.

  1. Bytes are digits in base 256.
  2. The meaning of the carry, and one byte of each comparison.
  3. The two bytes of a row.
-/

namespace ZkevmProver

namespace BinaryExecutor

open DigitCarry

/-! ## Bytes -/

theorem byte_eq_digit (s i : ℕ) : (s >>> (8 * i)) &&& 0xFF = digit 256 s i := by
  have hpow : (256 : ℕ) ^ i = 2 ^ (8 * i) := by
    rw [Nat.pow_mul]
  rw [digit, hpow, ← Nat.shiftRight_eq_div_pow]
  exact Nat.and_two_pow_sub_one_eq_mod _ 8

theorem scalar2bytes_eq_some {s : ℕ} (hs : s < 2 ^ 256) :
    scalar2bytes s = some (digit 256 s) := by
  have hzero : s >>> 256 = 0 := by
    rw [Nat.shiftRight_eq_div_pow]
    exact Nat.div_eq_of_lt hs
  rw [scalar2bytes, if_pos hzero]
  congr 1
  funext i
  exact byte_eq_digit s i

/-- The bytes of an action whose words all fit. -/
def digits (action : BinaryAction) : BinaryActionBytes where
  a_bytes := digit 256 action.a
  b_bytes := digit 256 action.b
  c_bytes := digit 256 action.c
  opcode := action.opcode
  type := action.type

@[simp] theorem digits_opcode (action : BinaryAction) : (digits action).opcode = action.opcode := rfl

/-! ## The meaning of the carry -/

/-- A carry that says whether `p` holds. -/
def flag (p : Prop) [Decidable p] : Fe := if p then 1 else 0

theorem flag_eq_zero {p : Prop} [Decidable p] : flag p = 0 ↔ ¬p := by
  unfold flag
  by_cases h : p
  · rw [if_pos h]
    exact iff_of_false (by decide) (not_not.mpr h)
  · rw [if_neg h]
    exact iff_of_true rfl h

theorem toU64_flag (p : Prop) [Decidable p] : toU64 (flag p) = if p then 1 else 0 := by
  unfold flag
  split <;> rfl

theorem flag_congr {p q : Prop} [Decidable p] [Decidable q] (h : p ↔ q) : flag p = flag q :=
  if_congr h rfl rfl

theorem compareByte_flag (x y : ℕ) (p : Prop) [Decidable p] :
    compareByte x y (flag p) = flag (x < y ∨ x = y ∧ p) := by
  unfold compareByte
  by_cases hlt : x < y
  · rw [if_pos hlt, flag, if_pos (Or.inl hlt)]
  · rw [if_neg hlt]
    by_cases heq : x = y
    · rw [if_pos heq]
      exact flag_congr ⟨fun h => Or.inr ⟨heq, h⟩, fun h => (h.resolve_left hlt).2⟩
    · rw [if_neg heq, flag, if_neg]
      rintro (h | h)
      · exact hlt h
      · exact heq h.1

/-- The carry after the lowest `n` bytes of the words. -/
def partialCarry (opcode a b c n : ℕ) : Fe :=
  match opcode with
  | 0 => fromU64 (addCarry 256 a b n)
  | 1 | 2 | 3 | 8 => flag (a % 256 ^ n < b % 256 ^ n)
  | 4 => flag (a % 256 ^ n ≠ b % 256 ^ n)
  | 5 => flag (c % 256 ^ n ≠ 0)
  | _ => 0

theorem partialCarry_zero (opcode a b c : ℕ) : partialCarry opcode a b c 0 = 0 := by
  unfold partialCarry
  split <;> simp [addCarry_zero, Nat.mod_one, flag, fromU64]

theorem toU64_addCarry (a b n : ℕ) : toU64 (fromU64 (addCarry 256 a b n)) = addCarry 256 a b n :=
  toU64_fromU64 ((addCarry_le_one (by decide) a b n).trans_lt (by decide))

theorem borrow_flag (x y : ℕ) (p : Prop) [Decidable p] :
    (if (y : ℤ) ≤ x - toU64 (flag p) then (0 : Fe) else 1) = flag (x < y ∨ x = y ∧ p) := by
  rw [toU64_flag, ← ite_not]
  refine flag_congr ?_
  by_cases hp : p
  · simp only [hp, if_true, and_true]
    omega
  · simp only [hp, if_false, and_false, or_false]
    omega

theorem differ_flag (x y : ℕ) (p : Prop) [Decidable p] :
    (if x = y ∧ flag p = 0 then (0 : Fe) else 1) = flag (¬(x = y ∧ ¬p)) := by
  simp only [flag_eq_zero]
  exact (ite_not ..).symm

/-- A byte takes the carry from `n` to `n + 1` bytes of the words. -/
theorem execByte_cOut {input : BinaryActionBytes} {a b c j n : ℕ} {k : Fin 2}
    (ha : input.a_bytes (j * 2 + k) = digit 256 a n)
    (hb : input.b_bytes (j * 2 + k) = digit 256 b n)
    (hc : input.c_bytes (j * 2 + k) = digit 256 c n)
    (hlast : input.opcode = 3 ∨ input.opcode = 4 → ¬(j = STEPS - 1 ∧ k = 1)) (v : RowVars) :
    (execByte input j k (partialCarry input.opcode a b c n) v).cOut =
      partialCarry input.opcode a b c (n + 1) := by
  have hlt := mod_succ_lt_iff (B := 256) (by decide) a b n
  have hcompare := (compareByte_flag (digit 256 a n) (digit 256 b n)
    (a % 256 ^ n < b % 256 ^ n)).trans (flag_congr hlt.symm)
  unfold execByte
  rw [ha, hb, hc]
  obtain ⟨ab, bb, cb, opcode, type⟩ := input
  dsimp only at hlast ⊢
  split
  case h_1 =>
    simp only [partialCarry]
    rw [toU64_addCarry, addCarry_succ (by decide), Nat.shiftRight_eq_div_pow]
  case h_2 =>
    exact (borrow_flag _ _ _).trans (flag_congr hlt.symm)
  case h_3 =>
    simp only [partialCarry] at hcompare ⊢
    split_ifs <;> exact hcompare
  case h_4 =>
    simp only [partialCarry] at hcompare ⊢
    split_ifs <;> exact hcompare
  case h_5 =>
    simp only [partialCarry] at hcompare ⊢
    rw [if_neg (hlast (Or.inl rfl))]
    split_ifs <;> exact hcompare
  case h_6 =>
    simp only [partialCarry]
    rw [if_neg (hlast (Or.inr rfl)), differ_flag]
    refine flag_congr ?_
    rw [ne_eq, ne_eq, not_not, mod_succ_eq_iff (by decide)]
  case h_7 =>
    simp only [partialCarry]
    rw [differ_flag]
    refine flag_congr ?_
    rw [ne_eq, ne_eq, not_not, mod_succ_eq_zero_iff (by decide)]
  case h_8 =>
    unfold partialCarry
    split <;> simp_all

/-! ## The last byte of a signed comparison and of an equality -/

/-- A word is its highest byte and the rest. -/
theorem eq_high_byte {a : ℕ} (ha : a < 2 ^ 256) :
    a = a % 256 ^ 31 + 256 ^ 31 * digit 256 a 31 := by
  have hmod : a % 256 ^ (31 + 1) = a := Nat.mod_eq_of_lt ha
  rw [← mod_succ, hmod]

theorem signed_lt_iff {a b : ℕ} (ha : a < 2 ^ 256) (hb : b < 2 ^ 256) :
    signed a < signed b ↔
      digit 256 b 31 >>> 7 < digit 256 a 31 >>> 7 ∨
        digit 256 a 31 >>> 7 = digit 256 b 31 >>> 7 ∧ a < b := by
  have hda := digit_lt (B := 256) (by decide) a 31
  have hdb := digit_lt (B := 256) (by decide) b 31
  have hra : a % 256 ^ 31 < 256 ^ 31 := Nat.mod_lt _ (by decide)
  have hrb : b % 256 ^ 31 < 256 ^ 31 := Nat.mod_lt _ (by decide)
  have hasplit := eq_high_byte ha
  have hbsplit := eq_high_byte hb
  generalize digit 256 a 31 = da at *
  generalize digit 256 b 31 = db at *
  generalize a % 256 ^ 31 = ra at *
  generalize b % 256 ^ 31 = rb at *
  simp only [Nat.shiftRight_eq_div_pow]
  unfold signed
  split_ifs <;> omega

theorem execByte_cOut_slt (input : BinaryActionBytes) {a b : ℕ} (hop : input.opcode = 3)
    (ha : a < 2 ^ 256) (hb : b < 2 ^ 256) (hA : input.a_bytes 31 = digit 256 a 31)
    (hB : input.b_bytes 31 = digit 256 b 31) (c : ℕ) (v : RowVars) :
    (execByte input 15 1 (partialCarry input.opcode a b c 31) v).cOut =
      flag (signed a < signed b) := by
  have hlt := mod_succ_lt_iff (B := 256) (by decide) a b 31
  rw [Nat.mod_eq_of_lt (show a < 256 ^ (31 + 1) from ha),
    Nat.mod_eq_of_lt (show b < 256 ^ (31 + 1) from hb)] at hlt
  have hcompare := (compareByte_flag (digit 256 a 31) (digit 256 b 31)
    (a % 256 ^ 31 < b % 256 ^ 31)).trans (flag_congr hlt.symm)
  have hsigned := signed_lt_iff ha hb
  have hlast : 15 = STEPS - 1 := rfl
  unfold execByte
  rw [show 15 * 2 + ((1 : Fin 2) : ℕ) = 31 from rfl, hA, hB, hop]
  simp only [partialCarry, ← hlast, and_true, if_true]
  rw [hcompare]
  by_cases hba : digit 256 b 31 >>> 7 < digit 256 a 31 >>> 7
  · rw [if_pos hba, flag, if_pos (hsigned.mpr (Or.inl hba))]
  · rw [if_neg hba]
    by_cases hab : digit 256 a 31 >>> 7 < digit 256 b 31 >>> 7
    · rw [if_pos hab, flag, if_neg]
      intro h
      have := hsigned.mp h
      omega
    · rw [if_neg hab]
      refine flag_congr ?_
      rw [hsigned]
      omega

theorem execByte_cOut_eq (input : BinaryActionBytes) {a b : ℕ} (hop : input.opcode = 4)
    (ha : a < 2 ^ 256) (hb : b < 2 ^ 256) (hA : input.a_bytes 31 = digit 256 a 31)
    (hB : input.b_bytes 31 = digit 256 b 31) (c : ℕ) (v : RowVars) :
    (execByte input 15 1 (partialCarry input.opcode a b c 31) v).cOut = flag (a = b) := by
  have heq := mod_succ_eq_iff (B := 256) (by decide) a b 31
  rw [Nat.mod_eq_of_lt (show a < 256 ^ (31 + 1) from ha),
    Nat.mod_eq_of_lt (show b < 256 ^ (31 + 1) from hb)] at heq
  have hlast : 15 = STEPS - 1 := rfl
  unfold execByte
  rw [show 15 * 2 + ((1 : Fin 2) : ℕ) = 31 from rfl, hA, hB, hop]
  simp only [partialCarry, ← hlast, and_true, if_true, ne_eq]
  rw [differ_flag]
  simp only [flag_eq_zero, not_not]
  exact flag_congr heq.symm

end BinaryExecutor

end ZkevmProver
