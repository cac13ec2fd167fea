import ZkevmProver.SM.BinaryCarry

/-!
# A row of the binary state machine

What the two bytes of a row hand on, and what they add to the registers of the next row.

  1. The carry, and the local variables that replace the accumulated result.
  2. A register of the next row holds two more bytes of its word.
-/

namespace ZkevmProver

namespace BinaryExecutor

open DigitCarry

/-! ## The bytes of a row -/

/-- The first byte of the chunk that row `j` compares. -/
def base (opcode j : ℕ) : ℕ := if opcode = 8 then 8 * (j / 4) else 0

theorem base_le (opcode j : ℕ) : base opcode j ≤ 2 * j := by
  unfold base
  split <;> omega

/-- The carry through the bytes of an action below `n`, in the chunk that row `j` compares. -/
def rowCarry (action : BinaryAction) (j n : ℕ) : Fe :=
  partialCarry action.opcode (action.a / 256 ^ base action.opcode j)
    (action.b / 256 ^ base action.opcode j) (action.c / 256 ^ base action.opcode j)
    (n - base action.opcode j)

theorem execByte_rowCarry (action : BinaryAction) (j : ℕ) (k : Fin 2)
    (hlast : action.opcode = 3 ∨ action.opcode = 4 → ¬(j = STEPS - 1 ∧ k = 1)) (v : RowVars) :
    (execByte (digits action) j k (rowCarry action j (2 * j + k)) v).cOut =
      rowCarry action j (2 * j + k + 1) := by
  have hbase := base_le action.opcode j
  have hdigit (x : ℕ) : digit 256 x (j * 2 + k) =
      digit 256 (x / 256 ^ base action.opcode j) (2 * j + k - base action.opcode j) := by
    rw [digit_div]
    congr 1
    omega
  unfold rowCarry
  rw [Nat.sub_add_comm (hbase.trans (Nat.le_add_right _ _))]
  exact execByte_cOut (hdigit _) (hdigit _) (hdigit _) hlast v

/-- The carry that a row hands on. -/
theorem execBytes_cOut (action : BinaryAction) (j : ℕ)
    (hlast : action.opcode = 3 ∨ action.opcode = 4 → j ≠ STEPS - 1) (freeInC : Fin 2 → Fe) :
    (execBytes (digits action) j (rowCarry action j (2 * j)) freeInC).2.cOut =
      rowCarry action j (2 * (j + 1)) := by
  have h0 := execByte_rowCarry action j 0 (fun h hj => hlast h hj.1) ⟨0, freeInC, false, 0⟩
  have h1 := execByte_rowCarry action j 1 (fun h hj => hlast h hj.1)
    (execByte (digits action) j 0 (rowCarry action j (2 * j)) ⟨0, freeInC, false, 0⟩)
  unfold execBytes
  dsimp only
  rw [show 2 * (j + 1) = 2 * j + ((1 : Fin 2) : ℕ) + 1 from rfl, ← h1]
  congr 2

/-- The operations whose registers hold the result byte by byte. -/
def Bytewise (opcode : ℕ) : Prop := opcode ≠ 2 ∧ opcode ≠ 3 ∧ opcode ≠ 4 ∧ opcode ≠ 8

instance (opcode : ℕ) : Decidable (Bytewise opcode) := by
  unfold Bytewise
  infer_instance

theorem execByte_bytewise {input : BinaryActionBytes} (hop : Bytewise input.opcode) (j : ℕ)
    (k : Fin 2) (cIn : Fe) (v : RowVars) :
    (execByte input j k cIn v).freeInC =
        Function.update v.freeInC k (fromU64 (input.c_bytes (j * 2 + k))) ∧
      (execByte input j k cIn v).useCarry = v.useCarry ∧
      (execByte input j k cIn v).usePreviousAreLt4 = v.usePreviousAreLt4 := by
  obtain ⟨ab, bb, cb, opcode, type⟩ := input
  obtain ⟨h2, h3, h4, h8⟩ := hop
  unfold execByte
  dsimp only at h2 h3 h4 h8 ⊢
  split
  case h_3 => exact absurd rfl h2
  case h_4 => exact absurd rfl h8
  case h_5 => exact absurd rfl h3
  case h_6 => exact absurd rfl h4
  all_goals exact ⟨rfl, rfl, rfl⟩

theorem execBytes_bytewise (input : BinaryActionBytes) (hop : Bytewise input.opcode) (j : ℕ)
    (cIn : Fe) (freeInC : Fin 2 → Fe) :
    (execBytes input j cIn freeInC).2.freeInC = (fun k : Fin 2 => fromU64 (input.c_bytes (j * 2 + k))) ∧
      (execBytes input j cIn freeInC).2.useCarry = false ∧
      (execBytes input j cIn freeInC).2.usePreviousAreLt4 = 0 := by
  obtain ⟨hf0, hu0, hp0⟩ := execByte_bytewise hop j 0 cIn ⟨0, freeInC, false, 0⟩
  obtain ⟨hf1, hu1, hp1⟩ := execByte_bytewise hop j 1
    (execByte input j 0 cIn ⟨0, freeInC, false, 0⟩).cOut
    (execByte input j 0 cIn ⟨0, freeInC, false, 0⟩)
  refine ⟨hf1.trans ?_, hu1.trans hu0, hp1.trans hp0⟩
  rw [hf0]
  funext k
  match k with
  | 0 => rfl
  | 1 => rfl

/-- In the last row a comparison replaces it: by the carry, or by the chunks below. -/
theorem execByte_last {input : BinaryActionBytes} (hop : ¬Bytewise input.opcode) (cIn : Fe)
    {v : RowVars} (hu : input.opcode = 8 → v.useCarry = false) (hp : v.usePreviousAreLt4 = 0) :
    let v' := execByte input 15 1 cIn v
    if input.opcode = 8 ∧ v'.cOut ≠ 0 then v'.useCarry = false ∧ v'.usePreviousAreLt4 = 1
    else v'.useCarry = true ∧ v'.usePreviousAreLt4 = 0 := by
  have hlast : 15 = STEPS - 1 := rfl
  obtain ⟨ab, bb, cb, opcode, type⟩ := input
  dsimp only at hu ⊢
  have hcases : opcode = 2 ∨ opcode = 3 ∨ opcode = 4 ∨ opcode = 8 := by
    by_contra hall
    push Not at hall
    exact hop hall
  unfold execByte
  simp only [← hlast, true_and, if_true]
  rcases hcases with rfl | rfl | rfl | rfl
  · simp [hp]
  · simp [hp]
  · simp [hp]
  · generalize compareByte (ab (15 * 2 + ((1 : Fin 2) : ℕ))) (bb (15 * 2 + ((1 : Fin 2) : ℕ))) cIn = x
    by_cases hx : x = 0
    · simp [hx, hp]
    · simp [hx, hu rfl]

theorem execBytes_last (input : BinaryActionBytes) (hop : ¬Bytewise input.opcode) (cIn : Fe)
    (freeInC : Fin 2 → Fe) :
    let v := (execBytes input 15 cIn freeInC).2
    if input.opcode = 8 ∧ v.cOut ≠ 0 then v.useCarry = false ∧ v.usePreviousAreLt4 = 1
    else v.useCarry = true ∧ v.usePreviousAreLt4 = 0 := by
  refine execByte_last hop _ (fun h8 => ?_) ?_
  all_goals
    obtain ⟨ab, bb, cb, opcode, type⟩ := input
    unfold execByte
    dsimp only at *
  · subst h8
    simp
  · split <;> (try split_ifs) <;> first | rfl | simp_all

/-! ## The registers -/

/-- The eight registers of a word. -/
def limbs (x : ℕ) : Fin 8 → Fe := fun k => limb x k

/-- Sixteen more bits of a word, seen through one register. -/
theorem window_add {u w : ℕ} (j k : ℕ) (hu : u < 2 ^ (16 * j)) (hw : w < 2 ^ 16) :
    (u + 2 ^ (16 * j) * w) / 2 ^ (32 * k) % 2 ^ 32 = u / 2 ^ (32 * k) % 2 ^ 32 +
      (if k = j / 2 then w * (if j % 2 = 0 then 1 else 2 ^ 16) else 0) := by
  have hpos : 0 < 2 ^ (32 * k) := Nat.two_pow_pos _
  obtain hlt | rfl | hgt := lt_trichotomy k (j / 2)
  · -- the register is full already
    obtain ⟨d, rfl⟩ : ∃ d, j = 2 * k + 2 + d := ⟨j - (2 * k + 2), by omega⟩
    have hpow : 2 ^ (16 * (2 * k + 2 + d)) * w = 2 ^ (32 * k) * (2 ^ 32 * (2 ^ (16 * d) * w)) := by
      rw [show 16 * (2 * k + 2 + d) = 32 * k + 32 + 16 * d by ring, Nat.pow_add, Nat.pow_add]
      ring
    rw [if_neg (by omega), hpow, Nat.add_mul_div_left _ _ hpos, Nat.add_mul_mod_self_left,
      Nat.add_zero]
  · rw [if_pos rfl]
    by_cases hj : j % 2 = 0
    · -- the lower half
      have hpow : 16 * j = 32 * (j / 2) := by omega
      rw [hpow] at hu ⊢
      rw [if_pos hj, Nat.add_mul_div_left _ _ hpos, Nat.div_eq_of_lt hu]
      omega
    · -- the upper half
      have hpow : 16 * j = 32 * (j / 2) + 16 := by omega
      rw [hpow, Nat.pow_add] at hu
      have hdiv : u / 2 ^ (32 * (j / 2)) < 2 ^ 16 := Nat.div_lt_of_lt_mul hu
      rw [if_neg hj, hpow, Nat.pow_add, Nat.mul_assoc, Nat.add_mul_div_left _ _ hpos]
      generalize u / 2 ^ (32 * (j / 2)) = q at *
      omega
  · -- the register is still empty
    have hsum : u + 2 ^ (16 * j) * w < 2 ^ (16 * j + 16) := by
      have hmul : 2 ^ (16 * j) * (w + 1) ≤ 2 ^ (16 * j) * 2 ^ 16 := Nat.mul_le_mul_left _ hw
      rw [Nat.mul_succ] at hmul
      rw [Nat.pow_add]
      omega
    have hle : 2 ^ (16 * j + 16) ≤ 2 ^ (32 * k) := Nat.pow_le_pow_right (by decide) (by omega)
    rw [if_neg (by omega), Nat.div_eq_of_lt (hsum.trans_le hle),
      Nat.div_eq_of_lt ((Nat.le_add_right _ _).trans_lt (hsum.trans_le hle)), Nat.add_zero]

/-- Bytes `2 j` and `2 j + 1` of a word, in their place in register `k`. -/
theorem limb_mod_succ (x k j : ℕ) :
    toU64 (limb (x % 256 ^ (2 * (j + 1))) k) =
      toU64 (limb (x % 256 ^ (2 * j)) k) +
        (if k = j / 2 then
          (digit 256 x (2 * j) + 256 * digit 256 x (2 * j + 1)) * (if j % 2 = 0 then 1 else 2 ^ 16)
        else 0) := by
  have h1 := mod_succ 256 x (2 * j)
  have h2 := mod_succ 256 x (2 * j + 1)
  have hpow : (256 : ℕ) ^ (2 * j) = 2 ^ (16 * j) := by
    rw [show (256 : ℕ) = 2 ^ 8 from rfl, ← Nat.pow_mul]
    congr 1
    omega
  have hd1 := digit_lt (B := 256) (by decide) x (2 * j)
  have hd2 := digit_lt (B := 256) (by decide) x (2 * j + 1)
  have hx : x % 256 ^ (2 * j) < 2 ^ (16 * j) := hpow ▸ Nat.mod_lt _ (Nat.pow_pos (by decide))
  have hsum : x % 256 ^ (2 * (j + 1)) = x % 256 ^ (2 * j) +
      2 ^ (16 * j) * (digit 256 x (2 * j) + 256 * digit 256 x (2 * j + 1)) := by
    rw [show 2 * (j + 1) = 2 * j + 1 + 1 from rfl, h2, h1, Nat.pow_succ, hpow]
    ring
  rw [toU64_limb, toU64_limb, hsum, Nat.shiftRight_eq_div_pow, Nat.shiftRight_eq_div_pow]
  exact window_add j k hx (by omega)

/-- A register of the next row, from a register that held the word below row `j`. -/
theorem accumulate_limb (x : ℕ) {i j : ℕ} (hj : j < STEPS) (k : Fin 8) (register : Fe)
    (hreg : 0 < j → register = limb (x % 256 ^ (2 * j)) k) {freeIn : Fin 2 → Fe}
    (hfree : freeIn = fun k : Fin 2 => fromU64 (digit 256 x (j * 2 + k))) :
    fromU64 (accumulate (j = 0) k (i * STEPS + j) register freeIn) =
      limb (x % 256 ^ (2 * (j + 1))) k := by
  have hd0 := digit_lt (B := 256) (by decide) x (2 * j)
  have hd1 := digit_lt (B := 256) (by decide) x (2 * j + 1)
  have hbyte {d : ℕ} (hd : d < 256) : toU64 (fromU64 d) = d :=
    toU64_fromU64 (hd.trans (by decide))
  have hreset : toU64 register * (if decide (j = 0) = true then 0 else 1) =
      toU64 (limb (x % 256 ^ (2 * j)) k) := by
    by_cases h0 : j = 0
    · subst h0
      simp [limb, Nat.mod_one, fromU64, toU64]
    · rw [hreg (Nat.pos_of_ne_zero h0), if_neg (by simpa using h0), Nat.mul_one]
  have hfactor : FACTOR k (i * STEPS + j) =
      if (k : ℕ) = j / 2 then (if j % 2 = 0 then 1 else 2 ^ 16) else 0 := by
    have hj : j < 16 := hj
    show (if (k : ℕ) = (i * 16 + j) / 2 % 8 then
      (if (i * 16 + j) % 2 = 0 then 1 else 1 <<< 16) else 0) = _
    rw [show (i * 16 + j) / 2 % 8 = j / 2 by omega, show (i * 16 + j) % 2 = j % 2 by omega]
    rfl
  have hsum := limb_mod_succ x k j
  have hlt := toU64_limb_lt (x % 256 ^ (2 * (j + 1))) k
  have hacc : accumulate (j = 0) k (i * STEPS + j) register freeIn =
      toU64 (limb (x % 256 ^ (2 * (j + 1))) k) := by
    unfold accumulate u64
    rw [hreset, hfree, hfactor, Nat.mul_comm j 2]
    dsimp only
    rw [show 2 * j + ((0 : Fin 2) : ℕ) = 2 * j from rfl,
      show 2 * j + ((1 : Fin 2) : ℕ) = 2 * j + 1 from rfl, hbyte hd0, hbyte hd1]
    rw [← Nat.mod_eq_of_lt (hlt.trans (show 2 ^ 32 < 2 ^ 64 by decide)), hsum]
    congr 1
    by_cases hk : (k : ℕ) = j / 2
    · rw [if_pos hk, if_pos hk, Nat.add_mul, Nat.add_assoc]
    · rw [if_neg hk, if_neg hk, Nat.mul_zero, Nat.mul_zero]
  rw [hacc, fromU64_toU64]

end BinaryExecutor

end ZkevmProver
