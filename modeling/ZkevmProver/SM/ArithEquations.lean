import ZkevmProver.SM.ArithExecutor
import ZkevmProver.Lib.DigitCarry

/-!
# The equations as numbers

Chunks are digits in base `2 ^ 16`, and the equation functions are the digits of the equations that
they document.

  1. Chunks as digits.
  2. Rows that hold an action.
  3. The equations.
-/

namespace ZkevmProver

open CarryChain ArithExecutor

/-! ## Chunks as digits -/

/-- Chunks of 16 bits, the last one of 20, and the number that they are. -/
structure Chunks (col : Fin 16 → Fe) (n : ℕ) : Prop where
  digit : ∀ j : Fin 16, toU64 (col j) =
    n / (2 ^ 16) ^ j.val % (if j.val < 15 then 2 ^ 16 else 2 ^ 20)
  value : value (2 ^ 16) (num col) 16 = n

section Chunks

variable {col : Fin 16 → Fe} {n : ℕ}

theorem num_of_le {j : ℕ} (h : 15 < j) : num col j = 0 := dif_neg (Nat.not_lt.mpr h)

theorem num_lt {j : ℕ} (h : j < 16) : num col j = toU64 (col ⟨j, h⟩) := dif_pos h

/-- Digits that are zero do not count. -/
theorem value_eq_of_zero {B : ℤ} {a : ℕ → ℤ} {m k : ℕ} (hmk : m ≤ k) (h : ∀ i, m ≤ i → a i = 0) :
    CarryChain.value B a k = CarryChain.value B a m := by
  induction k, hmk using Nat.le_induction with
  | base => rfl
  | succ k hk ih => rw [value_succ, ih, h k hk, zero_mul, add_zero]

theorem Chunks.value32 (h : Chunks col n) : CarryChain.value (2 ^ 16) (num col) 32 = n := by
  rw [value_eq_of_zero (by decide : 16 ≤ 32) fun i hi => num_of_le hi]
  exact h.value

/-- The lowest digits of a number. -/
theorem value_digits {a : ℕ → ℤ} {k : ℕ} (h : ∀ i < k, a i = DigitCarry.digit (2 ^ 16) n i) :
    CarryChain.value (2 ^ 16) a k = (n % (2 ^ 16) ^ k : ℕ) := by
  induction k with
  | zero => rw [pow_zero, Nat.mod_one]; rfl
  | succ k ih =>
    rw [value_succ, ih fun i hi => h i (Nat.lt_succ_of_lt hi), h k (Nat.lt_succ_self k),
      DigitCarry.mod_succ]
    push_cast
    ring

theorem shiftRight_eq (n i : ℕ) : n >>> (16 * i) = n / (2 ^ 16) ^ i := by
  rw [Nat.shiftRight_eq_div_pow, Nat.pow_mul]

theorem const_eq (n i : ℕ) : const n i = DigitCarry.digit (2 ^ 16) n i := by
  rw [const, (by rfl : (0xFFFF : ℕ) = 2 ^ 16 - 1), Nat.and_two_pow_sub_one_eq_mod, shiftRight_eq]
  rfl

theorem value_const (h : n < (2 ^ 16) ^ 32) : CarryChain.value (2 ^ 16) (const n) 32 = n := by
  rw [value_digits fun i _ => const_eq n i, Nat.mod_eq_of_lt h]

theorem const_of_lt {k i : ℕ} (h : n < (2 ^ 16) ^ (k + 1)) (hi : k < i) : const n i = 0 := by
  rw [const_eq, DigitCarry.digit, Nat.div_eq_of_lt (h.trans_le (Nat.pow_le_pow_right (by decide) hi))]
  rfl

/-- A number of 260 bits fits its chunks. -/
theorem scalar2ba16_spec (h : n < 2 ^ 256 * 16) :
    ∃ c, scalar2ba16 n = some c ∧ Chunks (fun j => fromU64 (c j)) n := by
  have hfits : ¬n >>> 256 > 0xF := by
    rw [Nat.shiftRight_eq_div_pow, Nat.not_lt]
    exact Nat.le_of_lt_succ (Nat.div_lt_of_lt_mul h)
  refine ⟨_, if_neg hfits, ?_⟩
  have hlow (j : Fin 16) (hj : j.val < 15) :
      toU64 (fromU64 ((n >>> (16 * j.val)) &&& (if j.val < 15 then 0xFFFF else 0xFFFFF))) =
        DigitCarry.digit (2 ^ 16) n j := by
    rw [if_pos hj, (by rfl : (0xFFFF : ℕ) = 2 ^ 16 - 1), Nat.and_two_pow_sub_one_eq_mod,
      shiftRight_eq]
    exact toU64_fromU64 ((Nat.mod_lt _ (by decide)).trans (by decide))
  have hlast (j : Fin 16) (hj : ¬j.val < 15) :
      toU64 (fromU64 ((n >>> (16 * j.val)) &&& (if j.val < 15 then 0xFFFF else 0xFFFFF))) =
        n / (2 ^ 16) ^ 15 := by
    have hj' : j.val = 15 := by omega
    have hlt : n / (2 ^ 16) ^ 15 < 2 ^ 20 := Nat.div_lt_of_lt_mul (h.trans_eq (by decide))
    rw [if_neg hj, (by rfl : (0xFFFFF : ℕ) = 2 ^ 20 - 1), Nat.and_two_pow_sub_one_eq_mod,
      shiftRight_eq, hj', Nat.mod_eq_of_lt hlt]
    exact toU64_fromU64 (hlt.trans (by decide))
  constructor
  · intro j
    by_cases hj : j.val < 15
    · rw [hlow j hj, if_pos hj]
      rfl
    · have hlt : n / (2 ^ 16) ^ 15 < 2 ^ 20 := Nat.div_lt_of_lt_mul (h.trans_eq (by decide))
      have hj' : j.val = 15 := by omega
      rw [hlast j hj, if_neg hj, hj', Nat.mod_eq_of_lt hlt]
  · have hdigits : CarryChain.value (2 ^ 16) (num fun j : Fin 16 => fromU64 ((n >>> (16 * j.val)) &&&
        (if j.val < 15 then 0xFFFF else 0xFFFFF))) 15 = (n % (2 ^ 16) ^ 15 : ℕ) := by
      refine value_digits fun i hi => ?_
      rw [num_lt (by omega), hlow ⟨i, by omega⟩ hi]
    rw [value_succ, hdigits, num_lt (by decide), hlast ⟨15, by decide⟩ (by decide)]
    have hsplit := Nat.mod_add_div n ((2 ^ 16) ^ 15)
    rw [Nat.mul_comm] at hsplit
    exact_mod_cast hsplit

end Chunks

/-! ## Rows that hold an action -/

namespace ArithAction

/-- The selectors of an action. -/
def selEq (a : ArithAction) : Fin 7 → ℕ :=
  ![a.selEq0, a.selEq1, a.selEq2, a.selEq3, a.selEq4, a.selEq5, a.selEq6]

/-- The equations that the equation functions document, with all terms on one side. -/
def equation (a : ArithAction) (s q0 q1 q2 : ℤ) : Fin 11 → ℤ
  | 0 => a.x1 * a.y1 - 2 ^ 256 * a.y2 + a.x2 - a.y3
  | 1 => s * a.x2 - s * a.x1 - a.y2 + a.y1 - FPEC * q0 + FPEC * (2 * 2 ^ 256)
  | 2 => s * a.y1 + s * a.y1 - a.x1 * a.x1 - a.x1 * a.x1 - a.x1 * a.x1 + FPEC * q0 - FPEC * (4 * 2 ^ 256)
  | 3 => s * s - a.x1 - a.x2 - a.x3 - FPEC * q1 + FPEC * 4
  | 4 => s * a.x1 - s * a.x3 - a.y1 - a.y3 + FPEC * q2 - FPEC * (2 * 2 ^ 256)
  | 5 => a.x1 * a.x2 - a.y1 * a.y2 - a.x3 + pBN254 * q1 - pBN254 * (8 * 2 ^ 256)
  | 6 => a.y1 * a.x2 + a.x1 * a.y2 - a.y3 - pBN254 * q2 + pBN254 * 8
  | 7 => a.x1 + a.x2 - a.x3 - pBN254 * q1 + pBN254 * 8
  | 8 => a.y1 + a.y2 - a.y3 - pBN254 * q2 + pBN254 * 8
  | 9 => a.x1 - a.x2 - a.x3 + pBN254 * q1 - pBN254 * 8
  | 10 => a.y1 - a.y2 - a.y3 + pBN254 * q2 - pBN254 * 8

end ArithAction

/-- A row with the chunks of an action, of its slope and of its quotients. -/
structure ArithRow.Holds (row : ArithRow) (a : ArithAction) (s q0 q1 q2 : ℕ) : Prop where
  x1 : Chunks row.x1 a.x1
  y1 : Chunks row.y1 a.y1
  x2 : Chunks row.x2 a.x2
  y2 : Chunks row.y2 a.y2
  x3 : Chunks row.x3 a.x3
  y3 : Chunks row.y3 a.y3
  s : Chunks row.s s
  q0 : Chunks row.q0 q0
  q1 : Chunks row.q1 q1
  q2 : Chunks row.q2 q2
  selEq : ∀ k, row.selEq k = fromU64 (a.selEq k)

/-! ## The equations -/

section Equations

variable {row : ArithRow} {a : ArithAction} {s q0 q1 q2 : ℕ}

theorem value_conv_num {c d : Fin 16 → Fe} {m n : ℕ} (hc : Chunks c m) (hd : Chunks d n) :
    value (2 ^ 16) (conv (num c) (num d)) 32 = m * n := by
  rw [value_conv (m := 15) (n := 15) (fun i hi => num_of_le hi) (fun i hi => num_of_le hi)
    (by decide), hc.value32, hd.value32]

theorem value_conv_const {c : Fin 16 → Fe} {p n : ℕ} (hp : p < (2 ^ 16) ^ 17) (hc : Chunks c n) :
    value (2 ^ 16) (conv (const p) (num c)) 32 = p * n := by
  rw [value_conv (m := 16) (n := 15) (fun i hi => const_of_lt hp hi) (fun i hi => num_of_le hi)
    (by decide), hc.value32,
    value_const (hp.trans_le (Nat.pow_le_pow_right (by decide) (by decide)))]

theorem value_offset {p n : ℕ} (hp : p < (2 ^ 16) ^ 16) (hn : n < (2 ^ 16) ^ 17) :
    value (2 ^ 16) (conv (const p) (const n)) 32 = p * n := by
  rw [value_conv (m := 15) (n := 16) (fun i hi => const_of_lt hp hi) (fun i hi => const_of_lt hn hi)
    (by decide), value_const (hp.trans_le (Nat.pow_le_pow_right (by decide) (by decide))),
    value_const (hn.trans_le (Nat.pow_le_pow_right (by decide) (by decide)))]

theorem fpec_lt_pow : FPEC < (2 ^ 16) ^ 16 := by decide

theorem pBN254_lt_pow : pBN254 < (2 ^ 16) ^ 16 := by decide

/-- The digits of an equation are those of the number. -/
theorem value_eq (h : row.Holds a s q0 q1 q2) (k : Fin 11) :
    value (2 ^ 16) (eq k row) 32 = a.equation s q0 q1 q2 k := by
  have hpow : (2 ^ 16) ^ 16 < (2 ^ 16) ^ 17 := by decide
  have hfpec := fpec_lt_pow.trans hpow
  have hbn := pBN254_lt_pow.trans hpow
  have hoffset {n : ℕ} (hn : n < (2 ^ 16) ^ 17) := value_offset fpec_lt_pow hn
  have hoffset' {n : ℕ} (hn : n < (2 ^ 16) ^ 17) := value_offset pBN254_lt_pow hn
  unfold eq ArithAction.equation
  match k with
  | 0 =>
    simp only [eq0, value_add, value_sub, value_conv_num h.x1 h.y1,
      value_conv_const (by decide : 2 ^ 256 < (2 ^ 16) ^ 17) h.y2, h.x2.value32, h.y3.value32]
    push_cast
    rfl
  | 1 =>
    simp only [eq1, value_add, value_sub, value_conv_num h.s h.x2, value_conv_num h.s h.x1,
      value_conv_const hfpec h.q0, hoffset (by decide : 2 * 2 ^ 256 < (2 ^ 16) ^ 17), h.y1.value32,
      h.y2.value32]
    push_cast
    rfl
  | 2 =>
    simp only [eq2, value_add, value_sub, value_conv_num h.s h.y1, value_conv_num h.x1 h.x1,
      value_conv_const hfpec h.q0, hoffset (by decide : 4 * 2 ^ 256 < (2 ^ 16) ^ 17)]
    push_cast
    rfl
  | 3 =>
    simp only [eq3, value_add, value_sub, value_conv_num h.s h.s, value_conv_const hfpec h.q1,
      hoffset (by decide : 4 < (2 ^ 16) ^ 17), h.x1.value32, h.x2.value32, h.x3.value32]
    rfl
  | 4 =>
    simp only [eq4, value_add, value_sub, value_conv_num h.s h.x1, value_conv_num h.s h.x3,
      value_conv_const hfpec h.q2, hoffset (by decide : 2 * 2 ^ 256 < (2 ^ 16) ^ 17), h.y1.value32,
      h.y3.value32]
    push_cast
    rfl
  | 5 =>
    simp only [eq5, value_add, value_sub, value_conv_num h.x1 h.x2, value_conv_num h.y1 h.y2,
      value_conv_const hbn h.q1, hoffset' (by decide : 8 * 2 ^ 256 < (2 ^ 16) ^ 17), h.x3.value32]
    push_cast
    rfl
  | 6 =>
    simp only [eq6, value_add, value_sub, value_conv_num h.y1 h.x2, value_conv_num h.x1 h.y2,
      value_conv_const hbn h.q2, hoffset' (by decide : 8 < (2 ^ 16) ^ 17), h.y3.value32]
    rfl
  | 7 =>
    simp only [eq7, value_add, value_sub, value_conv_const hbn h.q1,
      hoffset' (by decide : 8 < (2 ^ 16) ^ 17), h.x1.value32, h.x2.value32, h.x3.value32]
    rfl
  | 8 =>
    simp only [eq8, value_add, value_sub, value_conv_const hbn h.q2,
      hoffset' (by decide : 8 < (2 ^ 16) ^ 17), h.y1.value32, h.y2.value32, h.y3.value32]
    rfl
  | 9 =>
    simp only [eq9, value_add, value_sub, value_conv_const hbn h.q1,
      hoffset' (by decide : 8 < (2 ^ 16) ^ 17), h.x1.value32, h.x2.value32, h.x3.value32]
    rfl
  | 10 =>
    simp only [eq10, value_add, value_sub, value_conv_const hbn h.q2,
      hoffset' (by decide : 8 < (2 ^ 16) ^ 17), h.y1.value32, h.y2.value32, h.y3.value32]
    rfl

end Equations

end ZkevmProver
