import ZkevmProver.SM.ArithRows

/-!
# Runs of the arithmetic executor

`xAreDifferent` compares the two numbers as far as they have been read.  `valueLtPrime` is set by the
first chunk that is less than that of the prime, even below one that is larger.  Actions that are accepted
and have a slope go through, and what one of them writes is kept by those after it.

  1. Chunks that differ.
  2. Chunks that are less.
  3. When these are the flags of the comparison.
  4. What an action writes.
  5. An action goes through.
  6. A list of actions.
-/

namespace ZkevmProver

open CarryChain ArithExecutor DigitCarry

/-- The chunks of a prepared action. -/
structure ArithActionBytes.Of (input : ArithActionBytes) (a : ArithAction) : Prop where
  x1 : Chunks (fun j => fromU64 (input._x1 j)) a.x1
  x2 : Chunks (fun j => fromU64 (input._x2 j)) a.x2
  x3 : Chunks (fun j => fromU64 (input._x3 j)) a.x3
  y3 : Chunks (fun j => fromU64 (input._y3 j)) a.y3
  selEq : ∀ k, input.selEq k = a.selEq k

theorem digit_of_chunks {col : Fin 16 → Fe} {n : ℕ} (h : Chunks col n) (hn : n < 2 ^ 256)
    (j : Fin 16) : toU64 (col j) = digit (2 ^ 16) n j := by
  rw [h.digit j, DigitCarry.digit]
  split
  · rfl
  · next hj =>
    have hj' : j.val = 15 := by omega
    have hlt : n / (2 ^ 16) ^ 15 < 2 ^ 16 := Nat.div_lt_of_lt_mul (hn.trans_eq (by decide))
    rw [hj', Nat.mod_eq_of_lt hlt, Nat.mod_eq_of_lt (hlt.trans (by decide))]

/-! ## Chunks that differ -/

section Differ

variable {input : ArithActionBytes} {a : ArithAction}

theorem differAt_iff (h : input.Of a) (hbelow : a.Below) {t : ℕ} (ht : t < 16) :
    input.differAt t = true ↔ digit (2 ^ 16) a.x1 t ≠ digit (2 ^ 16) a.x2 t := by
  have hval : (Fin.ofNat 16 t).val = t := Nat.mod_eq_of_lt ht
  have h1 := digit_of_chunks h.x1 hbelow.x1 (Fin.ofNat 16 t)
  have h2 := digit_of_chunks h.x2 hbelow.x2 (Fin.ofNat 16 t)
  rw [hval] at h1 h2
  unfold ArithActionBytes.differAt
  rw [decide_eq_true_iff, sub_ne_zero, ← h1, ← h2, ne_comm, ← toU64_injective.ne_iff]

/-- The flag says whether the parts that have been read differ. -/
theorem differ_iff (h : input.Of a) (hbelow : a.Below) {n : ℕ} (hn : n ≤ 16) :
    input.differ n = true ↔ a.x1 % (2 ^ 16) ^ n ≠ a.x2 % (2 ^ 16) ^ n := by
  induction n with
  | zero =>
    rw [pow_zero, Nat.mod_one, Nat.mod_one]
    exact iff_of_false Bool.false_ne_true (not_not_intro rfl)
  | succ n ih =>
    rw [ArithActionBytes.differ, Bool.or_eq_true, ih (Nat.le_of_succ_le hn),
      differAt_iff h hbelow hn, Ne, Ne, Ne, mod_succ_eq_iff (by decide), not_and_or, or_comm]

end Differ

/-! ## Chunks that are less -/

/-- The prime that results are compared with. -/
def ArithAction.prime (a : ArithAction) : ℕ := if a.selEq3 ≠ 0 then FPEC else pBN254

/-- The number that row `t` is about. -/
def ArithAction.result (a : ArithAction) (t : ℕ) : ℕ := if t < 16 then a.x3 else a.y3

section Less

variable {input : ArithActionBytes} {a : ArithAction}

theorem lessBefore_iff (t : ℕ) : input.lessBefore t = true ↔
    ∃ j, 16 * (t / 16) ≤ j ∧ j < t ∧ input.lessAt j = true := by
  induction t with
  | zero => exact iff_of_false Bool.false_ne_true fun ⟨j, _, hj, _⟩ => absurd hj (Nat.not_lt_zero j)
  | succ t ih =>
    rw [ArithActionBytes.lessBefore]
    split
    · next hmod =>
      refine iff_of_false Bool.false_ne_true ?_
      rintro ⟨j, hle, hlt, -⟩
      omega
    · next hmod =>
      have hdiv : (t + 1) / 16 = t / 16 := by omega
      rw [Bool.or_eq_true, ih, hdiv]
      constructor
      · rintro (⟨j, hle, hlt, hj⟩ | hj)
        · exact ⟨j, hle, Nat.lt_succ_of_lt hlt, hj⟩
        · exact ⟨t, by omega, Nat.lt_succ_self t, hj⟩
      · rintro ⟨j, hle, hlt, hj⟩
        rcases Nat.lt_succ_iff_lt_or_eq.mp hlt with hlt | rfl
        · exact .inl ⟨j, hle, hlt, hj⟩
        · exact .inr hj

theorem less_iff (t : ℕ) : input.less t = true ↔
    ∃ j, 16 * (t / 16) ≤ j ∧ j ≤ t ∧ input.lessAt j = true := by
  rw [ArithActionBytes.less, Bool.or_eq_true, lessBefore_iff]
  constructor
  · rintro (⟨j, hle, hlt, hj⟩ | hj)
    · exact ⟨j, hle, hlt.le, hj⟩
    · exact ⟨t, by omega, le_rfl, hj⟩
  · rintro ⟨j, hle, hlt, hj⟩
    rcases Nat.lt_or_eq_of_le hlt with hlt | rfl
    · exact .inl ⟨j, hle, hlt, hj⟩
    · exact .inr hj

theorem chunksPrime_eq (u : Fin 16) :
    chunksPrimeSecp256k1 u = digit (2 ^ 16) FPEC (15 - u) ∧
      chunksPrimeBN254 u = digit (2 ^ 16) pBN254 (15 - u) := by
  revert u
  decide

theorem lessAt_iff (h : input.Of a) (hbelow : a.Below) (hsel : a.selEq3 < goldilocksPrime)
    (t : ℕ) : input.lessAt t = true ↔
      digit (2 ^ 16) (a.result t) (15 - t % 16) < digit (2 ^ 16) a.prime (15 - t % 16) := by
  have hlt : t % 16 < 16 := Nat.mod_lt t (by decide)
  have hchunk : (15 - Fin.ofNat 16 t : Fin 16).val = 15 - t % 16 :=
    Fin.sub_val_of_le (Fin.le_def.mpr (Nat.le_of_lt_succ hlt))
  have hselect : fromU64 input.selEq3 ≠ 0 ↔ a.selEq3 ≠ 0 := by
    have heq : input.selEq3 = a.selEq3 := h.selEq 3
    rw [heq, ← toU64_injective.ne_iff, toU64_fromU64 hsel]
    rfl
  have hprime : (if fromU64 input.selEq3 ≠ 0 then chunksPrimeSecp256k1 else chunksPrimeBN254)
      (Fin.ofNat 16 t) = digit (2 ^ 16) a.prime (15 - t % 16) := by
    obtain ⟨hsecp, hbn⟩ := chunksPrime_eq (Fin.ofNat 16 t)
    unfold ArithAction.prime
    by_cases hsel3 : a.selEq3 ≠ 0
    · rw [if_pos (hselect.mpr hsel3), if_pos hsel3]
      exact hsecp
    · rw [if_neg fun hne => hsel3 (hselect.mp hne), if_neg hsel3]
      exact hbn
  have hresult : toU64 (fromU64 ((if t < 16 then input._x3 else input._y3)
      (15 - Fin.ofNat 16 t))) = digit (2 ^ 16) (a.result t) (15 - t % 16) := by
    rw [ArithAction.result, ← hchunk]
    split
    · exact digit_of_chunks h.x3 hbelow.x3 _
    · exact digit_of_chunks h.y3 hbelow.y3 _
  rw [ArithActionBytes.lessAt, decide_eq_true_iff, hprime, hresult]

/-- The flag says whether one of the chunks that have been read is less. -/
theorem less_iff_digit (h : input.Of a) (hbelow : a.Below) (hsel : a.selEq3 < goldilocksPrime)
    {t : ℕ} (ht : t < 32) : input.less t = true ↔ ∃ j, 15 - t % 16 ≤ j ∧ j < 16 ∧
      digit (2 ^ 16) (a.result t) j < digit (2 ^ 16) a.prime j := by
  rw [less_iff]
  constructor
  · rintro ⟨j, hle, hlt, hj⟩
    rw [lessAt_iff h hbelow hsel] at hj
    have hresult : a.result j = a.result t := by
      unfold ArithAction.result
      exact if_congr (by omega) rfl rfl
    rw [hresult] at hj
    exact ⟨15 - j % 16, by omega, by omega, hj⟩
  · rintro ⟨j, hle, hlt, hj⟩
    have hresult : a.result (16 * (t / 16) + (15 - j)) = a.result t := by
      unfold ArithAction.result
      exact if_congr (by omega) rfl rfl
    have hindex : 15 - (16 * (t / 16) + (15 - j)) % 16 = j := by omega
    refine ⟨16 * (t / 16) + (15 - j), by omega, by omega, ?_⟩
    rwa [lessAt_iff h hbelow hsel, hresult, hindex]

end Less

/-! ## When these are the flags of the comparison -/

/-- A number is less than the prime, or no chunk of it is. -/
def Comparable (n p : ℕ) : Prop :=
  n < p ∨ ∀ j < 16, digit (2 ^ 16) p j ≤ digit (2 ^ 16) n j

/-- Whether the `u + 1` highest chunks of `n` are a lower number than those of `p`. -/
def topLess (n p u : ℕ) : Prop := n / (2 ^ 16) ^ (15 - u) < p / (2 ^ 16) ^ (15 - u)

instance (n p u : ℕ) : Decidable (topLess n p u) := inferInstanceAs (Decidable (_ < _))

theorem comparable_iff {n p : ℕ} (hp : p < (2 ^ 16) ^ 16) : Comparable n p ↔
    ∀ u < 16, (∃ j, 15 - u ≤ j ∧ j < 16 ∧ digit (2 ^ 16) n j < digit (2 ^ 16) p j) ↔
      topLess n p u := by
  have hless (hlt : n < p) (u : ℕ) (hu : u < 16) :
      topLess n p u ↔ ∃ j, 15 - u ≤ j ∧ j < 16 ∧ digit (2 ^ 16) n j < digit (2 ^ 16) p j := by
    have hsum : 15 - u + (u + 1) = 16 := by omega
    have h := div_lt_iff (B := 2 ^ 16) (by decide) (k := 15 - u) (d := u + 1) (by rwa [hsum]) hlt
    rwa [hsum] at h
  constructor
  · rintro (hlt | hall) u hu
    · exact (hless hlt u hu).symm
    · by_cases hlt : n < p
      · exact (hless hlt u hu).symm
      · refine iff_of_false ?_ ?_
        · rintro ⟨j, -, hj, hdigit⟩
          exact absurd hdigit (Nat.not_lt.mpr (hall j hj))
        · exact Nat.not_lt.mpr (Nat.div_le_div_right (Nat.not_lt.mp hlt))
  · intro h
    have hlast := h 15 (by decide)
    rw [topLess, Nat.sub_self, pow_zero, Nat.div_one, Nat.div_one] at hlast
    by_cases hlt : n < p
    · exact .inl hlt
    · refine .inr fun j hj => Nat.not_lt.mp fun hdigit => hlt (hlast.mp ⟨j, Nat.zero_le j, hj, hdigit⟩)

/-! ## What an action writes -/

/-- An accepted action with its chunks. -/
structure ArithActionBytes.Solved (input : ArithActionBytes) (a : ArithAction) : Prop where
  action : input.toArithAction = a
  below : a.Below
  accepted : a.Accepted
  solution : ∃ s q0 q1 q2, a.Solution s q0 q1 q2 ∧
    ∀ row, (columns input row).Holds a (toMpz s) q0 q1 q2

/-- The carries of the selected equations. -/
def CarriesDone (fromScalar : ℤ → Fe) (offset : ℕ) (pols : ArithCommitPols) : Prop :=
  ∀ k ∈ eqIndexes (pols.row offset), ∃ c, Carries (2 ^ 16) (eq k (pols.row offset)) c 32 ∧
    ∀ step < 32, pols.carry (offset + step) (eqIndexToCarryIndex k) = fromScalar (c step)

/-- The 32 rows of an action. -/
structure ActionRows (fromScalar : ℤ → Fe) (input : ArithActionBytes) (offset : ℕ)
    (pols : ArithCommitPols) : Prop where
  rows : ∀ t < 32, ∃ r i, pols.row (offset + t) =
    doneRow input r i (!input.lessBefore t && input.lessAt t)
  different : input.ChecksDifferent → ∀ t < 16,
    pols.xAreDifferent ((offset + t + 1) % N) = flag (input.differ (t + 1))
  less : input.ChecksLtPrime → ∀ t < 32,
    pols.valueLtPrime ((offset + t + 1) % N) = flag (input.less t)
  carries : CarriesDone fromScalar offset pols

/-- The first `n` rows are kept, with the flags that they set. -/
structure ArithCommitPols.Kept (P P' : ArithCommitPols) (n : ℕ) : Prop where
  row : ∀ q < n, P'.row q = P.row q
  xAreDifferent : ∀ q < n, P'.xAreDifferent ((q + 1) % N) = P.xAreDifferent ((q + 1) % N)
  valueLtPrime : ∀ q < n, P'.valueLtPrime ((q + 1) % N) = P.valueLtPrime ((q + 1) % N)
  carry : ∀ q < n, P'.carry q = P.carry q

theorem ArithCommitPols.Kept.refl (P : ArithCommitPols) (n : ℕ) : P.Kept P n :=
  ⟨fun _ _ => rfl, fun _ _ => rfl, fun _ _ => rfl, fun _ _ => rfl⟩

theorem ArithCommitPols.Kept.trans {P P' P'' : ArithCommitPols} {m n : ℕ} (h : P.Kept P' m)
    (h' : P'.Kept P'' n) (hmn : m ≤ n) : P.Kept P'' m where
  row q hq := (h'.row q (hq.trans_le hmn)).trans (h.row q hq)
  xAreDifferent q hq := (h'.xAreDifferent q (hq.trans_le hmn)).trans (h.xAreDifferent q hq)
  valueLtPrime q hq := (h'.valueLtPrime q (hq.trans_le hmn)).trans (h.valueLtPrime q hq)
  carry q hq := (h'.carry q (hq.trans_le hmn)).trans (h.carry q hq)

/-- The rows of an action stay. -/
theorem ActionRows.kept {fromScalar : ℤ → Fe} {input : ArithActionBytes} {offset n : ℕ}
    {P P' : ArithCommitPols} (h : ActionRows fromScalar input offset P) (hkept : P.Kept P' n)
    (hn : offset + 32 ≤ n) : ActionRows fromScalar input offset P' where
  rows t ht := by
    rw [hkept.row _ (by omega)]
    exact h.rows t ht
  different hcheck t ht := by
    rw [hkept.xAreDifferent _ (by omega)]
    exact h.different hcheck t ht
  less hcheck t ht := by
    rw [hkept.valueLtPrime _ (by omega)]
    exact h.less hcheck t ht
  carries k hk := by
    rw [hkept.row _ (by omega)] at hk ⊢
    obtain ⟨c, hc, hpol⟩ := h.carries k hk
    refine ⟨c, hc, fun step hstep => ?_⟩
    rw [hkept.carry _ (by omega)]
    exact hpol step hstep

/-! ## An action goes through -/

section Action

variable (fromScalar : ℤ → Fe) (inv : Fe → Fe) {input : ArithActionBytes} {a : ArithAction}

/-- The selected equations of a row that holds a solution, with their carries. -/
theorem carries_of_solution {row : ArithRow} {s : Fec} {q0 q1 q2 : ℕ}
    (h : a.Solution s q0 q1 q2) (hrow : row.Holds a (toMpz s) q0 q1 q2) :
    ((eqIndexes row).map eqIndexToCarryIndex).Nodup ∧
      ∀ k ∈ eqIndexes row, ∃ c, Carries (2 ^ 16) (eq k row) c 32 := by
  obtain ⟨ks, hks, hnodup, hzero⟩ := h.equations
  rw [hks row hrow.selEq]
  exact ⟨hnodup, fun k hk => exists_carries (by decide) ((value_eq hrow k).trans (hzero k hk))⟩

/-- A row that is done holds what its columns hold. -/
theorem holds_doneRow {s q0 q1 q2 : ℕ} {r : ArithRow} {i : Fe} {c : Bool}
    (h : (columns input r).Holds a s q0 q1 q2) : (doneRow input r i c).Holds a s q0 q1 q2 :=
  ⟨h.x1, h.y1, h.x2, h.y2, h.x3, h.y3, h.s, h.q0, h.q1, h.q2, h.selEq⟩

theorem execAction_spec (h : input.Solved a) {i : ℕ} (hi : i * 32 + 32 ≤ N) (P : ArithCommitPols) :
    ∃ P', execAction fromScalar inv i input P = some P' ∧
      ActionRows fromScalar input (i * 32) P' ∧ P.Kept P' (i * 32) := by
  obtain ⟨s, q0, q1, q2, hsolution, hholds⟩ := h.solution
  have hN : i * 32 + 32 ≤ 8388608 := hi
  have hdone := rowsDone inv input P hi
  generalize hS : Loops.forUpTo 32 (execRow inv input (i * 32)) { pols := P } = S at hdone
  have hfirst : (S.pols.row (i * 32)).Holds a (toMpz s) q0 q1 q2 := by
    obtain ⟨j, hj⟩ := hdone.rows 0 (by decide)
    rw [Nat.add_zero] at hj
    rw [hj]
    exact holds_doneRow (hholds _)
  obtain ⟨hnodup, hcarries⟩ := carries_of_solution hsolution hfirst
  choose! C hC using hcarries
  obtain ⟨T, hT, hpol, hothers⟩ := carries_rows (n := 32) fromScalar (i * 32) hnodup
    (fun k hk => (hC k hk).zero) (fun step hstep k hk => (hC k hk).step step hstep) S.pols.carry
  have hcarry : execCarries fromScalar (i * 32) S.pols = some T.1 := by
    unfold execCarries
    dsimp only
    rw [hT]
    rfl
  refine ⟨_, by unfold execAction; dsimp only; rw [hS, hcarry]; rfl, ⟨fun t ht => ?_,
    fun hcheck t ht => ?_, fun hcheck t ht => ?_, fun k hk => ?_⟩, ⟨fun q hq => ?_, fun q hq => ?_,
    fun q hq => ?_, fun q hq => ?_⟩⟩
  · obtain ⟨j, hj⟩ := hdone.rows t ht
    exact ⟨_, j, hj⟩
  · exact hdone.differentRow hcheck t (by omega) ht
  · exact hdone.lessRow hcheck t ht
  · exact ⟨C k, hC k hk, (hpol k hk).2⟩
  · exact hdone.others q (.inl hq)
  · refine hdone.differentOthers _ fun t ht => ?_
    show (q + 1) % 8388608 ≠ (i * 32 + t + 1) % 8388608
    omega
  · refine hdone.lessOthers _ fun t ht => ?_
    show (q + 1) % 8388608 ≠ (i * 32 + t + 1) % 8388608
    omega
  · dsimp only
    rw [hothers q (.inl hq), hdone.carry]

end Action

/-! ## A list of actions -/

section Actions

variable (fromScalar : ℤ → Fe) (inv : Fe → Fe)

theorem execActions_spec {inputs : List ArithActionBytes} {actions : List ArithAction}
    (h : List.Forall₂ ArithActionBytes.Solved inputs actions) {i : ℕ}
    (hi : (i + inputs.length) * 32 ≤ N) (P : ArithCommitPols) :
    ∃ P', execActions fromScalar inv i inputs P = some P' ∧ P.Kept P' (i * 32) ∧
      ∀ (j : ℕ) (hj : j < inputs.length), ActionRows fromScalar inputs[j] ((i + j) * 32) P' := by
  induction h generalizing i P with
  | nil => exact ⟨P, rfl, .refl P _, fun j hj => absurd hj (Nat.not_lt_zero j)⟩
  | @cons input a inputs actions hsolved _ ih =>
    rw [List.length_cons] at hi
    obtain ⟨P₁, hP₁, hrows, hkept⟩ := execAction_spec fromScalar inv hsolved (i := i) (by omega) P
    obtain ⟨P', hP', hkept', hall⟩ := ih (i := i + 1) (by omega) P₁
    refine ⟨P', by rw [execActions, hP₁]; exact hP', hkept.trans hkept' (by omega), fun j hj => ?_⟩
    cases j with
    | zero => exact hrows.kept hkept' (by omega)
    | succ j =>
      have hrow := hall j (Nat.lt_of_succ_lt_succ hj)
      rwa [(by omega : i + 1 + j = i + (j + 1))] at hrow

/-- Prepared actions, when no action is without a slope. -/
theorem mapM_prepare {actions : List ArithAction}
    (h : ∀ a ∈ actions, a.Below ∧ a.Accepted ∧ (a.selEq1 = 1 → (a.x2 : Fec) - a.x1 ≠ 0)) :
    ∃ inputs, actions.mapM prepare = some inputs ∧
      List.Forall₂ ArithActionBytes.Solved inputs actions := by
  induction actions with
  | nil => exact ⟨[], rfl, .nil⟩
  | cons a actions ih =>
    obtain ⟨inputs, hinputs, hsolved⟩ := ih fun a ha => h a (List.mem_cons_of_mem _ ha)
    obtain ⟨hbelow, haccepted, hne⟩ := h a (List.mem_cons_self ..)
    obtain ⟨s, q0, q1, q2, hsolution⟩ := haccepted.solution hbelow hne
    obtain ⟨input, hinput, haction, hholds⟩ := hsolution.prepare hbelow
    refine ⟨input :: inputs, ?_,
      .cons ⟨haction, hbelow, haccepted, s, q0, q1, q2, hsolution, hholds⟩ hsolved⟩
    rw [List.mapM_cons, hinput, hinputs]
    rfl

end Actions

end ZkevmProver
