import ZkevmProver.SM.BinaryRows

/-!
# A run of the binary state machine

The list of actions is executed row by row.  `RowIn` says what the rows of an action before row `j`
have left in that row; `execRow` takes it from one row to the next.

  1. The fields that a row writes in the next one.
  2. The chunks of `lt4`.
  3. The rows of an action, and what the last one hands on.
  4. What an action leaves as it is, and `execute_rows` for the whole list.
-/

namespace ZkevmProver

namespace BinaryExecutor

open DigitCarry

/-! ## One row -/

section Row

variable (N : ℕ) (input : BinaryActionBytes) (i j : ℕ) (s : Fe × BinaryCommitPols)

/-- What the bytes of row `j` leave. -/
def rowVars : RowVars × RowVars :=
  execBytes input j (s.2 (i * STEPS + j)).cIn (s.2 (i * STEPS + j)).freeInC

theorem execRow_fst : (execRow N input i j s).1 =
    nextPreviousAreLt4 j s.1 (rowVars input i j s).2.cOut := rfl

theorem execRow_next : ∃ next, (execRow N input i j s).2 ((i * STEPS + j + 1) % N) =
    nextRow N input (i * STEPS + j) j (rowVars input i j s).2 (execRow N input i j s).1
      (curRow input j (rowVars input i j s) (s.2 (i * STEPS + j))) next :=
  ⟨_, Function.update_self ..⟩

variable {N i j}

theorem execRow_cur (hN : i * STEPS + j ≠ (i * STEPS + j + 1) % N) :
    (execRow N input i j s).2 (i * STEPS + j) =
      curRow input j (rowVars input i j s) (s.2 (i * STEPS + j)) :=
  (Function.update_of_ne hN ..).trans (Function.update_self ..)

/-- The other rows stay as they are. -/
theorem execRow_of_ne {r : ℕ} (hcur : r ≠ i * STEPS + j) (hnext : r ≠ (i * STEPS + j + 1) % N) :
    (execRow N input i j s).2 r = s.2 r :=
  (Function.update_of_ne hnext ..).trans (Function.update_of_ne hcur ..)

end Row

section Fields

variable (N : ℕ) (input : BinaryActionBytes) (index : ℕ) {j : ℕ} {v : RowVars × RowVars}
  (previousAreLt4 : Fe) (cur next : BinaryRow)

theorem nextRow_cIn (j : ℕ) (v : RowVars) (row : BinaryRow) :
    (nextRow N input index j v previousAreLt4 row next).cIn =
      if (index + 1) % N % STEPS = 0 ∨ input.opcode = 8 ∧ index % 4 = 3 then 0 else row.cOut := by
  show (if _ then _ else if reset4 input.opcode = 1 ∧ _ then _ else _) = _
  have hreset4 : reset4 input.opcode = 1 ↔ input.opcode = 8 := by
    unfold reset4
    split <;> simp_all
  simp only [hreset4]
  by_cases hreset : (index + 1) % N % STEPS = 0
  · rw [if_pos hreset, if_pos (Or.inl hreset)]
  · rw [if_neg hreset]
    exact if_congr (or_iff_right hreset).symm rfl rfl

/-- The registers of the result, when nothing replaces them. -/
theorem nextRow_c_bytes (huse : v.2.useCarry = false) (hprev : v.2.usePreviousAreLt4 = 0) :
    (nextRow N input index j v.2 previousAreLt4 (curRow input j v cur) next).c = fun k : Fin 8 =>
      fromU64 (accumulate (j = 0) k index (cur.c k) v.2.freeInC) := by
  funext k
  simp only [nextRow, curRow, huse, hprev]
  by_cases hk : k = 0
  · subst hk
    rw [if_pos rfl, if_neg (by simp), if_neg (by decide)]
    rfl
  · rw [if_neg hk, if_neg (by simp)]

/-- The registers of the result of a comparison. -/
theorem nextRow_c_last
    (h : if v.2.useCarry then v.2.usePreviousAreLt4 = 0 else v.2.usePreviousAreLt4 = 1) :
    (nextRow N input index (STEPS - 1) v.2 previousAreLt4 (curRow input j v cur) next).c = fun k : Fin 8 =>
      if k = 0 then (if v.2.useCarry then v.2.cOut else cur.previousAreLt4) else 0 := by
  funext k
  obtain ⟨v0, cOut, freeInC, useCarry, usePreviousAreLt4⟩ := v
  dsimp only at h
  simp only [nextRow, curRow]
  cases useCarry with
  | true =>
    rw [if_pos rfl] at h
    by_cases hk : k = 0 <;> simp [hk]
  | false =>
    rw [if_neg (by decide)] at h
    subst h
    have hone : fromU64 1 = 1 := rfl
    by_cases hk : k = 0 <;> simp [hk, hone]

end Fields

/-! ## The chunks of `lt4` -/

/-- Chunk `l` of `a` is less than that of `b`. -/
def chunkLt (a b l : ℕ) : Prop := a / 256 ^ (8 * l) % 256 ^ 8 < b / 256 ^ (8 * l) % 256 ^ 8

instance (a b l : ℕ) : Decidable (chunkLt a b l) := by
  unfold chunkLt
  infer_instance

/-- The lowest `n` chunks of `a` are less than those of `b`. -/
def chunksLt (a b n : ℕ) : Prop := ∀ l < n, chunkLt a b l

instance (a b n : ℕ) : Decidable (chunksLt a b n) := by
  unfold chunksLt
  infer_instance

theorem chunksLt_succ (a b n : ℕ) : chunksLt a b (n + 1) ↔ chunksLt a b n ∧ chunkLt a b n :=
  Nat.forall_lt_succ_right

theorem flag_mul (p q : Prop) [Decidable p] [Decidable q] : flag p * flag q = flag (p ∧ q) := by
  unfold flag
  by_cases hp : p <;> by_cases hq : q <;> simp [hp, hq]

theorem lt4Loop_eq (n : ℕ) : ∀ l a b : ℕ,
    lt4Loop n (a / 256 ^ (8 * l)) (b / 256 ^ (8 * l)) =
      if ∀ m < n, chunkLt a b (l + m) then 1 else 0 := by
  have hmask (x : ℕ) : x &&& 0xFFFFFFFFFFFFFFFF = x % 256 ^ 8 := Nat.and_two_pow_sub_one_eq_mod x 64
  have hnext (x l : ℕ) : (x / 256 ^ (8 * l)) >>> 64 = x / 256 ^ (8 * (l + 1)) := by
    rw [Nat.shiftRight_eq_div_pow, Nat.div_div_eq_div_mul, show 8 * (l + 1) = 8 * l + 8 by rfl,
      Nat.pow_add]
  induction n with
  | zero =>
    intro l a b
    simp [lt4Loop]
  | succ n ih =>
    intro l a b
    have hsplit : (∀ m < n + 1, chunkLt a b (l + m)) ↔
        chunkLt a b l ∧ ∀ m < n, chunkLt a b (l + 1 + m) := by
      rw [Nat.forall_lt_succ_left]
      simp only [Nat.add_zero, Nat.add_assoc, Nat.add_comm 1]
    rw [lt4Loop, hmask, hmask, hnext, hnext, ih (l + 1)]
    by_cases hl : chunkLt a b l
    · rw [if_neg (Nat.not_le.mpr hl)]
      exact if_congr (by rw [hsplit, and_iff_right hl]) rfl rfl
    · rw [if_pos (Nat.not_lt.mp hl), if_neg]
      exact fun h => hl (hsplit.mp h).1

theorem lt4_eq (a b : ℕ) : lt4 a b = if chunksLt a b 4 then 1 else 0 := by
  have h := lt4Loop_eq 4 0 a b
  simp only [Nat.mul_zero, Nat.pow_zero, Nat.div_one, Nat.zero_add] at h
  exact h

/-- The carry at the end of a chunk. -/
theorem rowCarry_chunk {action : BinaryAction} (hop : action.opcode = 8) {j : ℕ}
    (hj : j % 4 = 3) :
    rowCarry action j (2 * (j + 1)) = flag (chunkLt action.a action.b (j / 4)) := by
  have hn : 2 * (j + 1) - base 8 j = 8 := by
    show 2 * (j + 1) - 8 * (j / 4) = 8
    omega
  unfold rowCarry
  rw [hop, hn]
  rfl

/-! ## The rows of an action -/

/-- What the rows of an action below `j` leave in row `j`, and in `previousAreLt4`. -/
structure RowIn (action : BinaryAction) (j : ℕ) (previousAreLt4 : Fe) (row : BinaryRow) :
    Prop where
  a : 0 < j → row.a = limbs (action.a % 256 ^ (2 * j))
  b : 0 < j → row.b = limbs (action.b % 256 ^ (2 * j))
  c : 0 < j → Bytewise action.opcode → row.c = limbs (action.c % 256 ^ (2 * j))
  cIn : j < STEPS → row.cIn = rowCarry action j (2 * j)
  chunks : action.opcode = 8 → 4 ≤ j →
    previousAreLt4 = flag (chunksLt action.a action.b (min (j / 4) 3))
  previousAreLt4 : 0 < j → row.previousAreLt4 = previousAreLt4

section Action

variable {N i : ℕ} {action : BinaryAction}

theorem RowIn.step {j : ℕ} (hj : j < STEPS) (hN : STEPS ∣ N) {s : Fe × BinaryCommitPols}
    (h : RowIn action j s.1 (s.2 (i * STEPS + j))) :
    RowIn action (j + 1) (execRow N (digits action) i j s).1
      ((execRow N (digits action) i j s).2 ((i * STEPS + j + 1) % N)) := by
  obtain ⟨next, hnext⟩ := execRow_next N (digits action) i j s
  have hcarry (hlast : action.opcode = 3 ∨ action.opcode = 4 → j ≠ STEPS - 1) :
      (rowVars (digits action) i j s).2.cOut = rowCarry action j (2 * (j + 1)) := by
    unfold rowVars
    rw [h.cIn hj]
    exact execBytes_cOut action j hlast _
  rw [hnext]
  constructor
  case a =>
    intro _
    funext k
    exact accumulate_limb action.a hj k _ (fun h0 => congrFun (h.a h0) k) rfl
  case b =>
    intro _
    funext k
    exact accumulate_limb action.b hj k _ (fun h0 => congrFun (h.b h0) k) rfl
  case c =>
    intro _ hop
    obtain ⟨hfree, huse, hprev⟩ := execBytes_bytewise (digits action) hop j
      (s.2 (i * STEPS + j)).cIn (s.2 (i * STEPS + j)).freeInC
    have hacc (k : Fin 8) := accumulate_limb (i := i) action.c hj k
      ((s.2 (i * STEPS + j)).c k) (fun h0 => congrFun (h.c h0 hop) k) hfree
    rw [nextRow_c_bytes (v := rowVars (digits action) i j s) _ _ _ _ _ _ huse hprev]
    exact funext hacc
  case cIn =>
    intro hj'
    have hreset : (i * STEPS + j + 1) % N % STEPS ≠ 0 := by
      rw [Nat.mod_mod_of_dvd _ hN, Nat.add_assoc, Nat.mul_add_mod_self_right, Nat.mod_eq_of_lt hj']
      omega
    have hindex : (i * STEPS + j) % 4 = j % 4 := by
      show (i * 16 + j) % 4 = j % 4
      omega
    rw [nextRow_cIn, hindex, digits_opcode]
    by_cases hchunk : action.opcode = 8 ∧ j % 4 = 3
    · have hn : 2 * (j + 1) - base 8 (j + 1) = 0 := by
        show 2 * (j + 1) - 8 * ((j + 1) / 4) = 0
        omega
      rw [if_pos (Or.inr hchunk), rowCarry, hchunk.1, hn]
      exact (partialCarry_zero ..).symm
    · have hbase : base action.opcode (j + 1) = base action.opcode j := by
        unfold base
        by_cases hop : action.opcode = 8
        · rw [if_pos hop, if_pos hop]
          have : j % 4 ≠ 3 := fun h3 => hchunk ⟨hop, h3⟩
          omega
        · rw [if_neg hop, if_neg hop]
      rw [if_neg (not_or.mpr ⟨hreset, hchunk⟩)]
      refine (hcarry fun _ => Nat.ne_of_lt (Nat.lt_of_succ_lt_succ hj')).trans ?_
      unfold rowCarry
      rw [hbase]
  case chunks =>
    intro hop hj'
    have hj16 : j < 16 := hj
    have hcOut := hcarry (fun h34 => by omega)
    rw [execRow_fst, hcOut]
    unfold nextPreviousAreLt4
    rw [Nat.mod_eq_of_lt hj16]
    by_cases h3 : j = 3
    · subst h3
      rw [if_pos rfl, rowCarry_chunk hop rfl]
      refine flag_congr ?_
      simp [chunksLt]
    · rw [if_neg h3, h.chunks hop (by omega)]
      by_cases h7 : j = 7 ∨ j = 11
      · have hmin : min ((j + 1) / 4) 3 = min (j / 4) 3 + 1 := by omega
        have hdiv : min (j / 4) 3 = j / 4 := by omega
        rw [if_pos h7, rowCarry_chunk hop (by omega), flag_mul]
        refine flag_congr ?_
        rw [hmin, chunksLt_succ, hdiv]
      · have hmin : min ((j + 1) / 4) 3 = min (j / 4) 3 := by omega
        rw [if_neg h7]
        exact flag_congr (by rw [hmin])
  case previousAreLt4 =>
    exact fun _ => rfl

theorem rowCarry_of_ne (hop : action.opcode ≠ 8) (j n : ℕ) :
    rowCarry action j n = partialCarry action.opcode action.a action.b action.c n := by
  rw [rowCarry, base, if_neg hop]
  simp

/-- The carry after all the bytes, of the operations that take it as it is. -/
theorem rowCarry_last (h : action.Correct)
    (hop : action.opcode ≠ 3 ∧ action.opcode ≠ 4 ∧ action.opcode ≠ 8) :
    toU64 (rowCarry action 15 32) =
      BinaryAction.carry action.opcode action.a action.b := by
  rw [rowCarry_of_ne hop.2.2]
  obtain ⟨a, b, c, opcode, type⟩ := action
  obtain ⟨ha, hb, hle, hc⟩ := h
  dsimp only at ha hb hle hc hop ⊢
  have hmod {x : ℕ} (hx : x < 2 ^ 256) : x % 256 ^ 32 = x := Nat.mod_eq_of_lt hx
  have hcases : opcode = 0 ∨ opcode = 1 ∨ opcode = 2 ∨ opcode = 5 ∨ opcode = 6 ∨ opcode = 7 := by
    omega
  rcases hcases with rfl | rfl | rfl | rfl | rfl | rfl
  · show toU64 (fromU64 (addCarry 256 a b 32)) = if 2 ^ 256 ≤ a + b then 1 else 0
    rw [toU64_addCarry, addCarry, hmod ha, hmod hb]
    split <;> omega
  · show toU64 (flag (a % 256 ^ 32 < b % 256 ^ 32)) = if a < b then 1 else 0
    rw [toU64_flag, hmod ha, hmod hb]
  · show toU64 (flag (a % 256 ^ 32 < b % 256 ^ 32)) = if a < b then 1 else 0
    rw [toU64_flag, hmod ha, hmod hb]
  · have hand : a &&& b < 2 ^ 256 := Nat.and_lt_two_pow a hb
    show toU64 (flag (c % 256 ^ 32 ≠ 0)) = if a &&& b = 0 then 0 else 1
    rw [toU64_flag, hc]
    show (if (a &&& b) % 256 ^ 32 ≠ 0 then 1 else 0) = _
    rw [hmod hand, ite_not]
  · rfl
  · rfl

/-- The last byte of a signed comparison and of an equality. -/
theorem rowVars_cOut_last (haction : action.Correct)
    (hop : action.opcode = 3 ∨ action.opcode = 4) {s : Fe × BinaryCommitPols}
    (h : RowIn action 15 s.1 (s.2 (i * STEPS + 15))) :
    toU64 (rowVars (digits action) i 15 s).2.cOut =
      BinaryAction.carry action.opcode action.a action.b := by
  have hfirst := execByte_rowCarry action 15 0 (fun _ hj => absurd hj.2 (by decide))
    ⟨0, (s.2 (i * STEPS + 15)).freeInC, false, 0⟩
  rw [rowCarry_of_ne (by omega) 15 (2 * 15 + ((0 : Fin 2) : ℕ) + 1)] at hfirst
  unfold rowVars execBytes
  rw [h.cIn (by decide)]
  dsimp only
  rw [show rowCarry action 15 (2 * 15) = rowCarry action 15 (2 * 15 + ((0 : Fin 2) : ℕ)) from rfl,
    hfirst]
  rcases hop with hop | hop
  · refine (congrArg toU64 (execByte_cOut_slt (digits action) hop haction.a_lt
      haction.b_lt rfl rfl _ _)).trans ?_
    rw [toU64_flag, hop]
    rfl
  · refine (congrArg toU64 (execByte_cOut_eq (digits action) hop haction.a_lt
      haction.b_lt rfl rfl _ _)).trans ?_
    rw [toU64_flag, hop]
    rfl

/-- The last row takes the chunks below, or it does not. -/
theorem usePreviousAreLt4_last (action : BinaryAction) (i : ℕ) (s : Fe × BinaryCommitPols) :
    (rowVars (digits action) i 15 s).2.usePreviousAreLt4 = 0 ∨
      (rowVars (digits action) i 15 s).2.usePreviousAreLt4 = 1 := by
  by_cases hbytes : Bytewise action.opcode
  · exact Or.inl (execBytes_bytewise (digits action) hbytes 15 _ _).2.2
  · have hlast := execBytes_last (digits action) hbytes
      (s.2 (i * STEPS + 15)).cIn (s.2 (i * STEPS + 15)).freeInC
    dsimp only at hlast
    split_ifs at hlast
    · exact Or.inr hlast.2
    · exact Or.inl hlast.2

/-- What the last row of an action hands on. -/
def output (input : BinaryActionBytes) (i : ℕ) (s : Fe × BinaryCommitPols) : Fe :=
  if (rowVars input i 15 s).2.usePreviousAreLt4 ≠ 0 then s.1 else (rowVars input i 15 s).2.cOut

/-- The last row hands on the carry of the operation. -/
theorem RowIn.output_eq (haction : action.Correct) {s : Fe × BinaryCommitPols}
    (h : RowIn action 15 s.1 (s.2 (i * STEPS + 15))) :
    toU64 (output (digits action) i s) =
      BinaryAction.carry action.opcode action.a action.b := by
  have hcarry (hlast : action.opcode = 3 ∨ action.opcode = 4 → 15 ≠ STEPS - 1) :
      (rowVars (digits action) i 15 s).2.cOut = rowCarry action 15 32 := by
    unfold rowVars
    rw [h.cIn (by decide)]
    exact execBytes_cOut action 15 hlast _
  unfold output
  by_cases hbytes : Bytewise action.opcode
  · have hprev : (rowVars (digits action) i 15 s).2.usePreviousAreLt4 = 0 :=
      (execBytes_bytewise (digits action) hbytes 15 _ _).2.2
    have ⟨h2, h3, h4, h8⟩ := hbytes
    rw [hprev, if_neg (by decide), hcarry (by omega)]
    exact rowCarry_last haction ⟨h3, h4, h8⟩
  · have hlast := execBytes_last (digits action) hbytes
      (s.2 (i * STEPS + 15)).cIn (s.2 (i * STEPS + 15)).freeInC
    change if action.opcode = 8 ∧ (rowVars (digits action) i 15 s).2.cOut ≠ 0 then
        (rowVars (digits action) i 15 s).2.useCarry = false ∧
          (rowVars (digits action) i 15 s).2.usePreviousAreLt4 = 1
      else (rowVars (digits action) i 15 s).2.useCarry = true ∧
        (rowVars (digits action) i 15 s).2.usePreviousAreLt4 = 0 at hlast
    by_cases h8 : action.opcode = 8
    · have hchunk := (hcarry (by omega)).trans (rowCarry_chunk h8 (j := 15) rfl)
      have hchunks := h.chunks h8 (by decide)
      rw [hchunk] at hlast ⊢
      rw [h8]
      show _ = lt4 action.a action.b
      rw [lt4_eq]
      by_cases h3 : chunkLt action.a action.b 3
      · rw [if_pos ⟨h8, fun h0 => flag_eq_zero.mp h0 h3⟩] at hlast
        rw [hlast.2, if_pos (by decide), hchunks, toU64_flag]
        exact if_congr ((chunksLt_succ ..).trans (and_iff_left h3)).symm rfl rfl
      · rw [if_neg (fun h => h.2 (flag_eq_zero.mpr h3))] at hlast
        rw [hlast.2, if_neg (by decide), toU64_flag, if_neg h3, if_neg]
        exact fun h => h3 ((chunksLt_succ ..).mp h).2
    · rw [if_neg (fun h => h8 h.1)] at hlast
      rw [hlast.2, if_neg (by decide)]
      by_cases h34 : action.opcode = 3 ∨ action.opcode = 4
      · exact rowVars_cOut_last haction h34 h
      · rw [hcarry (fun h => absurd h h34)]
        exact rowCarry_last haction ⟨fun h => h34 (Or.inl h), fun h => h34 (Or.inr h), h8⟩

/-- The rows of an action below `m` have been executed. -/
structure Rows (N : ℕ) (action : BinaryAction) (i m : ℕ) (s : Fe × BinaryCommitPols) : Prop where
  a : ∀ j, 0 < j → j ≤ m → (s.2 ((i * STEPS + j) % N)).a = limbs (action.a % 256 ^ (2 * j))
  b : ∀ j, 0 < j → j ≤ m → (s.2 ((i * STEPS + j) % N)).b = limbs (action.b % 256 ^ (2 * j))
  row : RowIn action m s.1 (s.2 ((i * STEPS + m) % N))

theorem index_mod (hfit : (i + 1) * STEPS ≤ N) {j : ℕ} (hj : j < STEPS) :
    (i * STEPS + j) % N = i * STEPS + j := by
  refine Nat.mod_eq_of_lt (Nat.lt_of_lt_of_le ?_ hfit)
  rw [Nat.succ_mul]
  exact Nat.add_lt_add_left hj _

theorem last_index_ne (hfit : (i + 1) * STEPS ≤ N) :
    i * STEPS + 15 ≠ (i * STEPS + 15 + 1) % N := by
  have hend : i * STEPS + 15 + 1 = (i + 1) * STEPS := (Nat.succ_mul i STEPS).symm
  rw [hend]
  obtain hlt | heq := Nat.lt_or_eq_of_le hfit
  · rw [Nat.mod_eq_of_lt hlt]
    omega
  · rw [heq, Nat.mod_self]
    omega

/-- A row keeps the registers of the rows before it. -/
theorem execRow_registers (hfit : (i + 1) * STEPS ≤ N) {j m : ℕ} (hm : m < STEPS) (hj : 0 < j)
    (hjm : j ≤ m) (input : BinaryActionBytes) (s : Fe × BinaryCommitPols) :
    ((execRow N input i m s).2 ((i * STEPS + j) % N)).a = (s.2 ((i * STEPS + j) % N)).a ∧
      ((execRow N input i m s).2 ((i * STEPS + j) % N)).b = (s.2 ((i * STEPS + j) % N)).b := by
  have hnext : i * STEPS + j ≠ (i * STEPS + m + 1) % N := by
    by_cases hm' : m + 1 < STEPS
    · rw [Nat.add_assoc, index_mod hfit hm']
      omega
    · have hend : i * STEPS + m + 1 = (i + 1) * STEPS := by
        rw [Nat.succ_mul]
        omega
      rw [hend]
      obtain hlt | heq := Nat.lt_or_eq_of_le hfit
      · rw [Nat.mod_eq_of_lt hlt]
        omega
      · rw [heq, Nat.mod_self]
        omega
  rw [index_mod hfit (hjm.trans_lt hm)]
  by_cases hcur : j = m
  · subst hcur
    rw [execRow_cur input s hnext]
    exact ⟨rfl, rfl⟩
  · rw [execRow_of_ne input s (by omega) hnext]
    exact ⟨rfl, rfl⟩

theorem Rows.step (hN : STEPS ∣ N) (hfit : (i + 1) * STEPS ≤ N) {m : ℕ} (hm : m < STEPS)
    {s : Fe × BinaryCommitPols} (h : Rows N action i m s) :
    Rows N action i (m + 1) (execRow N (digits action) i m s) := by
  have hrow := h.row
  rw [index_mod hfit hm] at hrow
  have hnext := hrow.step hm hN
  constructor
  case a =>
    intro j hj hjm
    obtain hlt | rfl := Nat.lt_or_eq_of_le hjm
    · rw [(execRow_registers hfit hm hj (Nat.le_of_lt_succ hlt) _ s).1]
      exact h.a j hj (Nat.le_of_lt_succ hlt)
    · exact hnext.a hj
  case b =>
    intro j hj hjm
    obtain hlt | rfl := Nat.lt_or_eq_of_le hjm
    · rw [(execRow_registers hfit hm hj (Nat.le_of_lt_succ hlt) _ s).2]
      exact h.b j hj (Nat.le_of_lt_succ hlt)
    · exact hnext.b hj
  case row => exact hnext

theorem rows_execRows (action : BinaryAction) (hN : STEPS ∣ N) (hfit : (i + 1) * STEPS ≤ N)
    {pols : BinaryCommitPols} (hin : (pols (i * STEPS)).cIn = 0) {m : ℕ} (hm : m ≤ STEPS) :
    Rows N action i m (execRows N (digits action) i pols m) := by
  induction m with
  | zero =>
    refine ⟨fun j hj hj0 => by omega, fun j hj hj0 => by omega, ?_⟩
    rw [index_mod hfit (by decide)]
    refine ⟨fun h0 => absurd h0 (by decide), fun h0 => absurd h0 (by decide),
      fun h0 => absurd h0 (by decide), fun _ => ?_, fun _ h4 => absurd h4 (by decide),
      fun h0 => absurd h0 (by decide)⟩
    rw [rowCarry, Nat.mul_zero, Nat.zero_sub, partialCarry_zero]
    exact hin
  | succ m ih => exact (ih (Nat.le_of_succ_le hm)).step hN hfit hm

/-! ## The last row -/

theorem limbs_bit {x : ℕ} (hx : x ≤ 1) :
    limbs x = fun k : Fin 8 => if k = 0 then fromU64 x else 0 := by
  funext k
  apply toU64_injective
  rw [limbs, toU64_limb]
  by_cases hk : k = 0
  · subst hk
    rw [if_pos rfl, Fin.val_zero, Nat.mul_zero, Nat.shiftRight_zero, toU64_fromU64 (hx.trans_lt (by decide))]
    exact Nat.mod_eq_of_lt (by omega)
  · have hk0 : 0 < (k : ℕ) := Nat.pos_of_ne_zero (fun h => hk (Fin.ext h))
    have hpow : 2 ^ 1 ≤ 2 ^ (32 * (k : ℕ)) := Nat.pow_le_pow_right (by decide) (by omega)
    rw [if_neg hk, Nat.shiftRight_eq_div_pow, Nat.div_eq_of_lt (by omega)]
    rfl

theorem result_of_comparison {opcode : ℕ} (hop : ¬Bytewise opcode) (a b : ℕ) :
    ∃ (p : Prop) (_ : Decidable p), BinaryAction.result opcode a b = (if p then 1 else 0) ∧
      BinaryAction.carry opcode a b = (if p then 1 else 0) := by
  have hcases : opcode = 2 ∨ opcode = 3 ∨ opcode = 4 ∨ opcode = 8 := by
    by_contra hall
    push Not at hall
    exact hop hall
  rcases hcases with rfl | rfl | rfl | rfl
  · exact ⟨a < b, inferInstance, rfl, rfl⟩
  · exact ⟨signed a < signed b, inferInstance, rfl, rfl⟩
  · exact ⟨a = b, inferInstance, rfl, rfl⟩
  · exact ⟨chunksLt a b 4, inferInstance, lt4_eq a b, lt4_eq a b⟩

/-- A comparison results in its carry. -/
theorem result_eq_carry {opcode : ℕ} (hop : ¬Bytewise opcode) (a b : ℕ) :
    BinaryAction.result opcode a b = BinaryAction.carry opcode a b ∧
      BinaryAction.carry opcode a b ≤ 1 := by
  obtain ⟨p, _, hresult, hcarry⟩ := result_of_comparison hop a b
  rw [hresult, hcarry]
  refine ⟨rfl, ?_⟩
  split <;> decide

theorem c_lt (haction : action.Correct) : action.c < ScalarTwoTo256 := by
  obtain ⟨a, b, c, opcode, type⟩ := action
  obtain ⟨ha, hb, hle, hc⟩ := haction
  have hone {p : Prop} [Decidable p] : (if p then 1 else 0) < ScalarTwoTo256 := by
    split <;> decide
  dsimp only at ha hb hc ⊢
  rw [hc]
  unfold BinaryAction.result
  split
  case h_1 => exact Nat.mod_lt _ (by decide)
  case h_2 => exact Nat.mod_lt _ (by decide)
  case h_6 => exact Nat.and_lt_two_pow _ hb
  case h_7 => exact Nat.or_lt_two_pow ha hb
  case h_8 => exact Nat.xor_lt_two_pow ha hb
  case h_9 =>
    rw [lt4_eq]
    exact hone
  case h_10 => decide
  all_goals exact hone

/-- The registers of the result after the last row. -/
theorem RowIn.c_last (haction : action.Correct) (hN : STEPS ∣ N) {s : Fe × BinaryCommitPols}
    (h : RowIn action 15 s.1 (s.2 (i * STEPS + 15))) :
    ((execRow N (digits action) i 15 s).2 ((i * STEPS + 15 + 1) % N)).c = limbs action.c := by
  by_cases hbytes : Bytewise action.opcode
  · have hc := c_lt haction
    rw [(h.step (by decide) hN).c (by decide) hbytes]
    exact congrArg limbs (Nat.mod_eq_of_lt (show action.c < 256 ^ 32 from hc))
  · obtain ⟨next, hnext⟩ := execRow_next N (digits action) i 15 s
    have hlast := execBytes_last (digits action) hbytes
      (s.2 (i * STEPS + 15)).cIn (s.2 (i * STEPS + 15)).freeInC
    change if action.opcode = 8 ∧ (rowVars (digits action) i 15 s).2.cOut ≠ 0 then
        (rowVars (digits action) i 15 s).2.useCarry = false ∧
          (rowVars (digits action) i 15 s).2.usePreviousAreLt4 = 1
      else (rowVars (digits action) i 15 s).2.useCarry = true ∧
        (rowVars (digits action) i 15 s).2.usePreviousAreLt4 = 0 at hlast
    have hout := h.output_eq haction
    obtain ⟨hresult, hbit⟩ := result_eq_carry hbytes action.a action.b
    have hvalue : output (digits action) i s = fromU64 action.c := by
      rw [haction.c_eq, hresult, ← hout, fromU64_toU64]
    have hreplaced : (if (rowVars (digits action) i 15 s).2.useCarry then
        (rowVars (digits action) i 15 s).2.cOut else (s.2 (i * STEPS + 15)).previousAreLt4) =
          fromU64 action.c := by
      rw [← hvalue, output, h.previousAreLt4 (by decide)]
      split_ifs at hlast <;> simp [hlast.1, hlast.2]
    rw [hnext]
    show (nextRow N (digits action) (i * STEPS + 15) (STEPS - 1) _ _ _ next).c = _
    rw [nextRow_c_last]
    · rw [hreplaced, limbs_bit]
      rw [haction.c_eq, hresult]
      exact hbit
    · split_ifs at hlast <;> simp [hlast.1, hlast.2]

/-! ## The rows of every action -/

/-- The carry that a row hands on: its own, or that of the chunks below. -/
def carryOutput (row : BinaryRow) : Fe :=
  if row.usePreviousAreLt4 = 1 then row.previousAreLt4 else row.cOut

/-- The rows of action `i` hold its words and its carry. -/
structure ActionRows (N : ℕ) (action : BinaryAction) (i : ℕ) (pols : BinaryCommitPols) : Prop where
  a : ∀ j, 0 < j → j ≤ STEPS → (pols ((i * STEPS + j) % N)).a = limbs (action.a % 256 ^ (2 * j))
  b : ∀ j, 0 < j → j ≤ STEPS → (pols ((i * STEPS + j) % N)).b = limbs (action.b % 256 ^ (2 * j))
  c : (pols ((i * STEPS + STEPS) % N)).c = limbs action.c
  lOpcode : (pols ((i * STEPS + STEPS) % N)).lOpcode = fromU64 action.opcode
  lCout : toU64 (pols ((i * STEPS + STEPS) % N)).lCout =
    BinaryAction.carry action.opcode action.a action.b
  carryOutput : toU64 (carryOutput (pols (i * STEPS + (STEPS - 1)))) =
    BinaryAction.carry action.opcode action.a action.b

theorem actionRows_execRows (haction : action.Correct) (hN : STEPS ∣ N)
    (hfit : (i + 1) * STEPS ≤ N) {pols : BinaryCommitPols} (hin : (pols (i * STEPS)).cIn = 0) :
    ActionRows N action i (execRows N (digits action) i pols STEPS).2 ∧
      ((execRows N (digits action) i pols STEPS).2 ((i * STEPS + STEPS) % N)).cIn = 0 := by
  have hall := rows_execRows action hN hfit hin (Nat.le_refl STEPS)
  have hrow := (rows_execRows action hN hfit hin (show 15 ≤ STEPS by decide)).row
  rw [index_mod hfit (by decide)] at hrow
  show _ ∧ ((execRow N (digits action) i 15 (execRows N (digits action) i pols 15)).2 _).cIn = 0
  have hexec : execRows N (digits action) i pols STEPS =
      execRow N (digits action) i 15 (execRows N (digits action) i pols 15) := rfl
  rw [hexec] at hall ⊢
  generalize execRows N (digits action) i pols 15 = s at *
  obtain ⟨next, hnext⟩ := execRow_next N (digits action) i 15 s
  have hout := hrow.output_eq haction
  refine ⟨⟨hall.a, hall.b, hrow.c_last haction hN, ?_, ?_, ?_⟩, ?_⟩
  · exact congrArg BinaryRow.lOpcode hnext
  · exact (congrArg (fun row : BinaryRow => toU64 row.lCout) hnext).trans hout
  · have hcur := execRow_cur (N := N) (j := 15) (digits action) s (last_index_ne hfit)
    show toU64 (carryOutput ((execRow N (digits action) i 15 s).2 (i * STEPS + 15))) = _
    rw [hcur, ← hout]
    unfold carryOutput output
    obtain h | h := usePreviousAreLt4_last action i s
    · simp only [curRow, h]
      rfl
    · simp only [curRow, h, hrow.previousAreLt4 (by decide)]
      rfl
  · refine (congrArg BinaryRow.cIn hnext).trans ?_
    rw [nextRow_cIn, if_pos]
    left
    rw [Nat.mod_mod_of_dvd _ hN]
    exact Nat.mul_add_mod_self_right i STEPS STEPS |>.trans (Nat.mod_self _)

end Action

/-! ## What stays as it is -/

/-- Two rows agree on what earlier rows wrote in them. -/
structure SameIn (row row' : BinaryRow) : Prop where
  a : row'.a = row.a
  b : row'.b = row.b
  c : row'.c = row.c
  cIn : row'.cIn = row.cIn
  lCout : row'.lCout = row.lCout
  lOpcode : row'.lOpcode = row.lOpcode

theorem SameIn.refl (row : BinaryRow) : SameIn row row := ⟨rfl, rfl, rfl, rfl, rfl, rfl⟩

theorem SameIn.trans {r₁ r₂ r₃ : BinaryRow} (h : SameIn r₁ r₂) (h' : SameIn r₂ r₃) : SameIn r₁ r₃ :=
  ⟨h'.a.trans h.a, h'.b.trans h.b, h'.c.trans h.c, h'.cIn.trans h.cIn, h'.lCout.trans h.lCout,
    h'.lOpcode.trans h.lOpcode⟩

/-- The rows up to `m` stay, and row `m` keeps what earlier rows wrote in it. -/
structure Frame (N m : ℕ) (pols pols' : BinaryCommitPols) : Prop where
  below : ∀ r, 0 < r → r < m → pols' r = pols r
  last : 0 < m → SameIn (pols (m % N)) (pols' (m % N))

namespace Frame

variable {N m : ℕ} {p₁ p₂ p₃ : BinaryCommitPols}

theorem refl (N m : ℕ) (pols : BinaryCommitPols) : Frame N m pols pols :=
  ⟨fun _ _ _ => rfl, fun _ => SameIn.refl _⟩

theorem trans (h : Frame N m p₁ p₂) (h' : Frame N m p₂ p₃) : Frame N m p₁ p₃ :=
  ⟨fun r h0 hr => (h'.below r h0 hr).trans (h.below r h0 hr),
    fun h0 => (h.last h0).trans (h'.last h0)⟩

theorem mono (h : Frame N m p₁ p₂) {m' : ℕ} (hm : m' ≤ m) (hN : m ≤ N) : Frame N m' p₁ p₂ := by
  obtain hlt | rfl := Nat.lt_or_eq_of_le hm
  · refine ⟨fun r h0 hr => h.below r h0 (hr.trans hlt), fun h0 => ?_⟩
    rw [Nat.mod_eq_of_lt (hlt.trans_le hN), h.below m' h0 hlt]
    exact SameIn.refl _
  · exact h

end Frame

theorem ActionRows.frame {N i m : ℕ} {action : BinaryAction} {pols pols' : BinaryCommitPols}
    (h : ActionRows N action i pols) (hm : (i + 1) * STEPS ≤ m) (hN : m ≤ N)
    (hframe : Frame N m pols pols') : ActionRows N action i pols' := by
  have hf := hframe.mono hm hN
  have hend : i * STEPS + STEPS = (i + 1) * STEPS := (Nat.succ_mul i STEPS).symm
  have hpos : 0 < (i + 1) * STEPS := Nat.mul_pos (Nat.succ_pos i) (by decide)
  have hlast := hf.last hpos
  rw [← hend] at hlast
  have hrow {j : ℕ} (hj : 0 < j) (hj' : j ≤ STEPS) :
      SameIn (pols ((i * STEPS + j) % N)) (pols' ((i * STEPS + j) % N)) := by
    obtain hlt | rfl := Nat.lt_or_eq_of_le hj'
    · rw [index_mod (hm.trans hN) hlt, hf.below _ (by omega) (by omega)]
      exact SameIn.refl _
    · exact hlast
  refine ⟨fun j h0 hj => (hrow h0 hj).a.trans (h.a j h0 hj),
    fun j h0 hj => (hrow h0 hj).b.trans (h.b j h0 hj), hlast.c.trans h.c,
    hlast.lOpcode.trans h.lOpcode, (congrArg toU64 hlast.lCout).trans h.lCout, ?_⟩
  have hsteps : STEPS = 16 := rfl
  rw [hf.below (i * STEPS + (STEPS - 1)) (by omega) (by omega)]
  exact h.carryOutput

theorem execRow_frame {N i j : ℕ} (hfit : (i + 1) * STEPS ≤ N) (hj : j < STEPS)
    (input : BinaryActionBytes) (s : Fe × BinaryCommitPols) :
    Frame N (i * STEPS) s.2 (execRow N input i j s).2 := by
  have hend : (i + 1) * STEPS = i * STEPS + STEPS := Nat.succ_mul i STEPS
  have hnext {r : ℕ} (h0 : 0 < r) (hr : r ≤ i * STEPS) : r ≠ (i * STEPS + j + 1) % N := by
    obtain hlt | heq := Nat.lt_or_eq_of_le (show i * STEPS + j + 1 ≤ N by omega)
    · rw [Nat.mod_eq_of_lt hlt]
      omega
    · rw [heq, Nat.mod_self]
      omega
  refine ⟨fun r h0 hr => execRow_of_ne input s (by omega) (hnext h0 hr.le), fun h0 => ?_⟩
  rw [Nat.mod_eq_of_lt (by omega)]
  by_cases hj0 : j = 0
  · subst hj0
    have hcur := execRow_cur (j := 0) input s (hnext h0 (Nat.le_refl _))
    rw [Nat.add_zero] at hcur
    rw [hcur]
    exact ⟨rfl, rfl, rfl, rfl, rfl, rfl⟩
  · rw [execRow_of_ne input s (by omega) (hnext h0 (Nat.le_refl _))]
    exact SameIn.refl _

theorem execRows_frame {N i : ℕ} (hfit : (i + 1) * STEPS ≤ N) (input : BinaryActionBytes)
    (pols : BinaryCommitPols) {j : ℕ} (hj : j ≤ STEPS) :
    Frame N (i * STEPS) pols (execRows N input i pols j).2 := by
  induction j with
  | zero => exact Frame.refl ..
  | succ j ih => exact (ih (Nat.le_of_succ_le hj)).trans (execRow_frame hfit hj input _)

/-- Marking the kind of an operation changes nothing else. -/
theorem execAction_frame_rows {N i : ℕ} (hfit : (i + 1) * STEPS ≤ N) (input : BinaryActionBytes)
    (pols : BinaryCommitPols) :
    Frame N ((i + 1) * STEPS) (execRows N input i pols STEPS).2 (execAction N input i pols) := by
  have hmark (p : BinaryCommitPols) (q : Prop) [Decidable q] (row : BinaryRow)
      (hrow : SameIn (p ((i + 1) * STEPS % N)) row) :
      Frame N ((i + 1) * STEPS) p
        (if q then Function.update p ((i + 1) * STEPS % N) row else p) := by
    by_cases hq : q
    · rw [if_pos hq]
      refine ⟨fun r h0 hr => Function.update_of_ne ?_ _ _, fun _ => ?_⟩
      · obtain hlt | heq := Nat.lt_or_eq_of_le hfit
        · rw [Nat.mod_eq_of_lt hlt]
          exact hr.ne
        · rw [heq, Nat.mod_self]
          exact h0.ne'
      · rw [Function.update_self]
        exact hrow
    · rw [if_neg hq]
      exact Frame.refl ..
  unfold execAction
  generalize (execRows N input i pols STEPS).2 = p
  have h1 := hmark p (input.type = 1) { p ((i + 1) * STEPS % N) with resultBinOp := 1 }
    ⟨rfl, rfl, rfl, rfl, rfl, rfl⟩
  dsimp only
  generalize (if input.type = 1 then _ else p : BinaryCommitPols) = p₁ at h1 ⊢
  exact h1.trans (hmark p₁ (input.type = 2)
    { p₁ ((i + 1) * STEPS % N) with resultValidRange := 1 } ⟨rfl, rfl, rfl, rfl, rfl, rfl⟩)

theorem actionRows_execAction {N i : ℕ} {action : BinaryAction} (haction : action.Correct)
    (hN : STEPS ∣ N) (hfit : (i + 1) * STEPS ≤ N) {pols : BinaryCommitPols}
    (hin : (pols (i * STEPS)).cIn = 0) :
    ActionRows N action i (execAction N (digits action) i pols) ∧
      ((execAction N (digits action) i pols) ((i + 1) * STEPS % N)).cIn = 0 := by
  have hframe := execAction_frame_rows hfit (digits action) pols
  obtain ⟨hrows, hcIn⟩ := actionRows_execRows haction hN hfit hin
  refine ⟨hrows.frame (Nat.le_refl _) hfit hframe, ?_⟩
  rw [(hframe.last (Nat.mul_pos (Nat.succ_pos i) (by decide))).cIn]
  rw [Nat.succ_mul]
  exact hcIn

theorem execAction_frame {N i : ℕ} (hfit : (i + 1) * STEPS ≤ N) (input : BinaryActionBytes)
    (pols : BinaryCommitPols) : Frame N (i * STEPS) pols (execAction N input i pols) :=
  (execRows_frame hfit input pols (Nat.le_refl _)).trans
    ((execAction_frame_rows hfit input pols).mono
      (Nat.mul_le_mul_right _ (Nat.le_succ i)) hfit)

/-- A list of actions, from action `i` on. -/
theorem execActions_rows {N : ℕ} (hN : STEPS ∣ N) {action : List BinaryAction} :
    ∀ {i : ℕ} (pols : BinaryCommitPols), (∀ x ∈ action, x.Correct) →
      (i + action.length) * STEPS ≤ N → (0 < action.length → (pols (i * STEPS)).cIn = 0) →
        Frame N (i * STEPS) pols (execActions N i (action.map digits) pols) ∧
          ∀ k x, action[k]? = some x →
            ActionRows N x (i + k) (execActions N i (action.map digits) pols) := by
  induction action with
  | nil =>
    intro i pols _ _ _
    exact ⟨Frame.refl .., fun k x hx => by simp at hx⟩
  | cons x rest ih =>
    intro i pols hcorrect hfit hin
    rw [List.length_cons] at hfit
    have hfit1 : (i + 1) * STEPS ≤ N := (Nat.mul_le_mul_right _ (by omega)).trans hfit
    obtain ⟨hrows, hcIn⟩ := actionRows_execAction (hcorrect x (by simp)) hN hfit1
      (hin (Nat.succ_pos _))
    have hrest := ih (i := i + 1) (execAction N (digits x) i pols)
      (fun y hy => hcorrect y (by simp [hy])) (by rwa [Nat.add_assoc, Nat.add_comm 1])
      (fun hpos => by
        have hlt : (i + 1) * STEPS < N := by
          refine Nat.lt_of_lt_of_le ?_ hfit
          exact Nat.mul_lt_mul_of_pos_right (by omega) (by decide)
        rwa [Nat.mod_eq_of_lt hlt] at hcIn)
    refine ⟨(execAction_frame hfit1 _ pols).trans
      (hrest.1.mono (Nat.mul_le_mul_right _ (Nat.le_succ i)) hfit1), ?_⟩
    intro k y hy
    cases k with
    | zero =>
      obtain rfl : x = y := by simpa using hy
      exact hrows.frame (Nat.le_refl _) hfit1 hrest.1
    | succ k =>
      have hk := hrest.2 k y (by simpa using hy)
      rwa [Nat.add_assoc, Nat.add_comm 1] at hk

theorem padRow_frame {N m index : ℕ} (hm : m ≤ index) (hindex : index < N)
    (pols : BinaryCommitPols) : Frame N m pols (padRow N pols index) := by
  have hnext {r : ℕ} (h0 : 0 < r) (hr : r ≤ m) : r ≠ (index + 1) % N := by
    obtain hlt | heq := Nat.lt_or_eq_of_le (Nat.succ_le_of_lt hindex)
    · rw [Nat.mod_eq_of_lt hlt]
      omega
    · rw [← Nat.succ_eq_add_one, heq, Nat.mod_self]
      exact h0.ne'
  refine ⟨fun r h0 hr => Function.update_of_ne (hnext h0 hr.le) .., fun h0 => ?_⟩
  rw [Nat.mod_eq_of_lt (hm.trans_lt hindex)]
  unfold padRow
  rw [Function.update_of_ne (hnext h0 (Nat.le_refl m))]
  exact SameIn.refl _

theorem padRows_frame {N m : ℕ} : ∀ {len start : ℕ} {pols : BinaryCommitPols},
    m ≤ start → start + len ≤ N →
      Frame N m pols ((List.range' start len).foldl (padRow N) pols) := by
  intro len
  induction len with
  | zero => exact fun _ _ => Frame.refl ..
  | succ len ih =>
    intro start pols hm hfit
    rw [List.range'_succ, List.foldl_cons]
    exact (padRow_frame hm (by omega) pols).trans (ih (by omega) (by omega))

theorem bytes_eq_some {action : BinaryAction} (h : action.Correct) :
    action.bytes = some (digits action) := by
  unfold BinaryAction.bytes
  rw [scalar2bytes_eq_some h.a_lt, scalar2bytes_eq_some h.b_lt, scalar2bytes_eq_some (c_lt h)]
  rfl

theorem mapM_bytes {action : List BinaryAction} (h : ∀ x ∈ action, x.Correct) :
    action.mapM BinaryAction.bytes = some (action.map digits) := by
  induction action with
  | nil => rfl
  | cons x rest ih =>
    rw [List.mapM_cons, bytes_eq_some (h x (by simp)), ih fun y hy => h y (by simp [hy])]
    rfl

theorem execute_eq_some {N : ℕ} {action : List BinaryAction} (haction : ∀ x ∈ action, x.Correct)
    (hfit : action.length * LATCH_SIZE ≤ N) (pols : BinaryCommitPols) :
    execute N action pols =
      some ((List.range' (action.length * STEPS) (N - action.length * STEPS)).foldl (padRow N)
        (execActions N 0 (action.map digits) pols)) := by
  unfold execute
  rw [if_neg (Nat.not_lt.mpr hfit), mapM_bytes haction]
  simp

/-- **The registers and the carry of every action.** -/
theorem execute_rows {action : List BinaryAction} (haction : ∀ x ∈ action, x.Correct)
    (hfit : action.length * LATCH_SIZE ≤ pilDegree) {pols : BinaryCommitPols}
    (hin : (pols 0).cIn = 0) :
    ∃ pols', execute pilDegree action pols = some pols' ∧
      ∀ i x, action[i]? = some x → ActionRows pilDegree x i pols' := by
  have hrows := execActions_rows (N := pilDegree) (by decide) (i := 0) pols haction
    (by rw [Nat.zero_add]; exact hfit) (fun _ => by rw [Nat.zero_mul]; exact hin)
  refine ⟨_, execute_eq_some haction hfit pols, fun i x hx => ?_⟩
  have hlen : i < action.length := (List.getElem?_eq_some_iff.mp hx).1
  have hi := hrows.2 i x hx
  rw [Nat.zero_add] at hi
  exact hi.frame (Nat.mul_le_mul_right _ hlen) hfit
    (padRows_frame (Nat.le_refl _) (Nat.add_sub_cancel' hfit).le)

/-- The sum of two words that overflow. -/
def sampleAction : BinaryAction := ⟨2 ^ 255, 2 ^ 255, 0, 0, 1⟩

theorem execute_rows_sample : ∃ pols', execute pilDegree [sampleAction] (fun _ => 0) = some pols' ∧
    toU64 (pols' 16).lCout = 1 := by
  have hcorrect : sampleAction.Correct := ⟨by decide, by decide, by decide, by decide⟩
  obtain ⟨pols', hexec, hrows⟩ : ∃ pols',
      execute pilDegree [sampleAction] (fun _ => 0) = some pols' ∧
        ∀ i x, [sampleAction][i]? = some x → ActionRows pilDegree x i pols' :=
    execute_rows (fun x hx => by rwa [List.mem_singleton.mp hx]) (by decide) rfl
  exact ⟨pols', hexec, (hrows 0 sampleAction rfl).lCout⟩

end BinaryExecutor

end ZkevmProver
