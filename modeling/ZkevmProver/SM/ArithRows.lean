import ZkevmProver.SM.ArithQuotients

/-!
# The rows of an action

  1. The carries.
  2. What the flags say.
  3. The rows.
-/

namespace ZkevmProver

open CarryChain ArithExecutor Loops

/-! ## The carries -/

section Carries

variable (fromScalar : ℤ → Fe) {first : ArithRow} (offset : ℕ) {C : Fin 11 → ℕ → ℤ}
  {ks : List (Fin 11)}

/-- The carries of different equations through one row. -/
theorem carries_step {step : ℕ} (hnodup : (ks.map eqIndexToCarryIndex).Nodup)
    (hstep : ∀ k ∈ ks, eq k first step + C k step =
      2 ^ 16 * C k (step + 1))
    (S : (ℕ → Fin 3 → Fe) × (Fin 3 → ℤ))
    (hS : ∀ k ∈ ks, S.2 (eqIndexToCarryIndex k) = C k step) :
    ∃ S', ks.foldlM (execCarry fromScalar first offset step) S = some S' ∧
      (∀ k ∈ ks, S'.2 (eqIndexToCarryIndex k) = C k (step + 1) ∧
        S'.1 (offset + step) (eqIndexToCarryIndex k) =
          fromScalar (C k step)) ∧
      (∀ c ∉ ks.map eqIndexToCarryIndex,
        S'.2 c = S.2 c ∧ S'.1 (offset + step) c = S.1 (offset + step) c) ∧
      ∀ q ≠ offset + step, S'.1 q = S.1 q := by
  induction ks generalizing S with
  | nil =>
    exact ⟨S, rfl, fun k hk => absurd hk List.not_mem_nil, fun c _ => ⟨rfl, rfl⟩, fun q _ => rfl⟩
  | cons k ks ih =>
    have hk := hstep k (List.mem_cons_self ..)
    have hnodup' := List.nodup_cons.mp hnodup
    obtain ⟨S₁, hcarry, h1, h2⟩ : ∃ S₁, execCarry fromScalar first offset step S k = some S₁ ∧
        S₁.1 = Function.update S.1 (offset + step) (Function.update (S.1 (offset + step))
          (eqIndexToCarryIndex k) (fromScalar (C k step))) ∧
        S₁.2 = Function.update S.2 (eqIndexToCarryIndex k)
          (C k (step + 1)) := by
      unfold execCarry
      dsimp only
      rw [hS k (List.mem_cons_self ..), hk, Int.mul_tmod_right, if_neg (not_not_intro rfl),
        Int.mul_tdiv_cancel_left _ (by decide)]
      exact ⟨_, rfl, rfl, rfl⟩
    have hother {k' : Fin 11} (hk' : k' ∈ ks) :
        eqIndexToCarryIndex k' ≠ eqIndexToCarryIndex k := fun h =>
      hnodup'.1 (h ▸ List.mem_map_of_mem hk')
    obtain ⟨S', hS', hdone, hkept, hrows⟩ := ih hnodup'.2
      (fun k' hk' => hstep k' (List.mem_cons_of_mem _ hk')) S₁ fun k' hk' => by
        rw [h2, Function.update_of_ne (hother hk'), hS k' (List.mem_cons_of_mem _ hk')]
    refine ⟨S', by rw [List.foldlM_cons, hcarry]; exact hS', fun k' hk' => ?_, fun c hc => ?_,
      fun q hq => ?_⟩
    · rcases List.mem_cons.mp hk' with rfl | hk'
      · obtain ⟨hcarry', hpol⟩ := hkept _ hnodup'.1
        rw [hcarry', hpol, h1, h2, Function.update_self, Function.update_self, Function.update_self]
        exact ⟨rfl, rfl⟩
      · exact hdone k' hk'
    · rw [List.map_cons, List.mem_cons, not_or] at hc
      obtain ⟨hcarry', hpol⟩ := hkept c hc.2
      rw [hcarry', hpol, h1, h2, Function.update_of_ne hc.1, Function.update_self,
        Function.update_of_ne hc.1]
      exact ⟨rfl, rfl⟩
    · rw [hrows q hq, h1]
      exact Function.update_of_ne hq _ _

/-- The carries of different equations through all rows. -/
theorem carries_rows {n : ℕ} (hnodup : (ks.map eqIndexToCarryIndex).Nodup)
    (hzero : ∀ k ∈ ks, C k 0 = 0)
    (hstep : ∀ step < n, ∀ k ∈ ks, eq k first step + C k step =
      2 ^ 16 * C k (step + 1)) (pol : ℕ → Fin 3 → Fe) :
    ∃ S, (List.range n).foldlM
        (fun S step => ks.foldlM (execCarry fromScalar first offset step) S)
        (pol, fun _ => 0) = some S ∧
      (∀ k ∈ ks, S.2 (eqIndexToCarryIndex k) = C k n ∧
        ∀ step < n, S.1 (offset + step) (eqIndexToCarryIndex k) =
          fromScalar (C k step)) ∧
      ∀ q, q < offset ∨ offset + n ≤ q → S.1 q = pol q := by
  induction n with
  | zero =>
    exact ⟨_, rfl, fun k hk => ⟨(hzero k hk).symm, fun _ h => absurd h (Nat.not_lt_zero _)⟩,
      fun q _ => rfl⟩
  | succ n ih =>
    obtain ⟨S, hS, hdone, hrows⟩ := ih fun step hlt => hstep step (Nat.lt_succ_of_lt hlt)
    obtain ⟨S', hS', hdone', -, hrows'⟩ := carries_step fromScalar offset hnodup
      (hstep n (Nat.lt_succ_self n)) S fun k hk => (hdone k hk).1
    refine ⟨S', ?_, fun k hk => ⟨(hdone' k hk).1, fun step hlt => ?_⟩, fun q hq => ?_⟩
    · rw [List.range_succ, List.foldlM_append, hS]
      simp only [List.foldlM_cons, List.foldlM_nil, Option.bind_eq_bind, Option.bind_some, hS']
      rfl
    · rcases Nat.lt_succ_iff_lt_or_eq.mp hlt with hlt | rfl
      · rw [hrows' _ (by omega)]
        exact (hdone k hk).2 step hlt
      · exact (hdone' k hk).2
    · rw [hrows' q (by omega), hrows q (by omega)]

end Carries

/-! ## What the flags say -/

namespace ArithActionBytes

variable (input : ArithActionBytes)

/-- Whether `x1` and `x2` have to differ. -/
def ChecksDifferent : Prop := fromU64 input.selEq1 ≠ 0

/-- Whether `x3` and `y3` have to be less than the prime. -/
def ChecksLtPrime : Prop := fromU64 input.selEq3 ≠ 0 ∨ fromU64 input.selEq4 ≠ 0 ∨
  fromU64 input.selEq5 ≠ 0 ∨ fromU64 input.selEq6 ≠ 0

instance : Decidable input.ChecksDifferent := inferInstanceAs (Decidable (_ ≠ _))

instance : Decidable input.ChecksLtPrime := inferInstanceAs (Decidable (_ ∨ _))

/-- Whether chunk `t` of `x1` and `x2` is not the same. -/
def differAt (t : ℕ) : Bool :=
  decide (fromU64 (input._x2 (Fin.ofNat 16 t)) - fromU64 (input._x1 (Fin.ofNat 16 t)) ≠ 0)

/-- Whether one of the first `n` chunks of `x1` and `x2` is not the same. -/
def differ : ℕ → Bool
  | 0 => false
  | n + 1 => differ n || input.differAt n

/-- Whether the chunk of row `t` is less than that of the prime. -/
def lessAt (t : ℕ) : Bool :=
  decide (toU64 (fromU64 ((if t < 16 then input._x3 else input._y3) (15 - Fin.ofNat 16 t))) <
    (if fromU64 input.selEq3 ≠ 0 then chunksPrimeSecp256k1 else chunksPrimeBN254) (Fin.ofNat 16 t))

/-- Whether that was so for a higher chunk of the same number. -/
def lessBefore : ℕ → Bool
  | 0 => false
  | t + 1 => if (t + 1) % 16 = 0 then false else lessBefore t || input.lessAt t

/-- Whether it is so for a chunk up to this one. -/
def less (t : ℕ) : Bool := input.lessBefore t || input.lessAt t

end ArithActionBytes

/-! ## The rows -/

section Rows

variable (inv : Fe → Fe) {input : ArithActionBytes} {offset step : ℕ}

theorem execDifferent_eq {S : RowState} {r : ArithRow}
    (hrow : S.pols.row (offset + step) = columns input r) :
    ∃ i, execDifferent inv offset step S = { S with
      pols := { S.pols with
        row := Function.update S.pols.row (offset + step)
          { columns input r with xDeltaChunkInverse := i }
        xAreDifferent := if input.ChecksDifferent ∧ step < 16 then
            Function.update S.pols.xAreDifferent ((offset + step + 1) % N)
              (flag (S.xAreDifferent || input.differAt step))
          else S.pols.xAreDifferent }
      xAreDifferent := if input.ChecksDifferent ∧ step < 16 then
          S.xAreDifferent || input.differAt step
        else S.xAreDifferent } := by
  have hsame : Function.update S.pols.row (offset + step)
      { columns input r with xDeltaChunkInverse := (columns input r).xDeltaChunkInverse } =
        S.pols.row := by
    rw [← hrow]
    exact Function.update_eq_self _ _
  unfold execDifferent
  dsimp only
  rw [hrow]
  by_cases hcheck : input.ChecksDifferent ∧ step < 16
  · have hcheck' : (columns input r).selEq 1 ≠ 0 ∧ step < 16 := hcheck
    rw [if_pos hcheck', if_pos hcheck, if_pos hcheck]
    by_cases hdiff : S.xAreDifferent = true
    · refine ⟨(columns input r).xDeltaChunkInverse, ?_⟩
      rw [hsame, if_pos hdiff]
      rfl
    · rw [if_neg hdiff]
      exact ⟨_, rfl⟩
  · have hcheck' : ¬((columns input r).selEq 1 ≠ 0 ∧ step < 16) := hcheck
    rw [if_neg hcheck', if_neg hcheck, if_neg hcheck]
    refine ⟨(columns input r).xDeltaChunkInverse, ?_⟩
    rw [hsame]

theorem execLtPrime_eq {S : RowState} {r : ArithRow} {i : Fe}
    (hrow : S.pols.row (offset + step) = { columns input r with xDeltaChunkInverse := i })
    (hx3 : (S.pols.row offset).x3 = fun j => fromU64 (input._x3 j))
    (hy3 : (S.pols.row offset).y3 = fun j => fromU64 (input._y3 j)) :
    execLtPrime offset step S = { S with
      pols := { S.pols with
        row := Function.update S.pols.row (offset + step) { columns input r with
          xDeltaChunkInverse := i
          chunkLtPrime := if input.ChecksLtPrime then
            flag (!S.valueLtPrime && input.lessAt step) else r.chunkLtPrime }
        valueLtPrime := if input.ChecksLtPrime then
            Function.update S.pols.valueLtPrime ((offset + step + 1) % N)
              (flag (S.valueLtPrime || input.lessAt step))
          else S.pols.valueLtPrime }
      valueLtPrime := if input.ChecksLtPrime then S.valueLtPrime || input.lessAt step
        else S.valueLtPrime } := by
  unfold execLtPrime
  dsimp only
  rw [hrow]
  by_cases hcheck : input.ChecksLtPrime
  · have hcheck' : (columns input r).selEq 3 ≠ 0 ∨ (columns input r).selEq 4 ≠ 0 ∨
      (columns input r).selEq 5 ≠ 0 ∨ (columns input r).selEq 6 ≠ 0 := hcheck
    have hat : (decide (toU64 (if step < 16 then (S.pols.row offset).x3 (15 - Fin.ofNat 16 step)
        else (S.pols.row offset).y3 (15 - Fin.ofNat 16 step)) <
          if (columns input r).selEq 3 ≠ 0 then chunksPrimeSecp256k1 (Fin.ofNat 16 step)
          else chunksPrimeBN254 (Fin.ofNat 16 step))) = input.lessAt step := by
      rw [hx3, hy3, ArithActionBytes.lessAt]
      have hsel : (columns input r).selEq 3 = fromU64 input.selEq3 := rfl
      rw [hsel]
      by_cases hstep : step < 16
      · rw [if_pos hstep, if_pos hstep]
        split <;> rfl
      · rw [if_neg hstep, if_neg hstep]
        split <;> rfl
    have hchunk : (if S.valueLtPrime = true then false else input.lessAt step) =
        (!S.valueLtPrime && input.lessAt step) := by
      cases S.valueLtPrime <;> rfl
    have hvalue : (S.valueLtPrime || (!S.valueLtPrime && input.lessAt step)) =
        (S.valueLtPrime || input.lessAt step) := by
      cases S.valueLtPrime <;> rfl
    rw [if_pos hcheck', if_pos hcheck, if_pos hcheck, if_pos hcheck]
    rw [hat, hchunk, hvalue]
  · have hcheck' : ¬((columns input r).selEq 3 ≠ 0 ∨ (columns input r).selEq 4 ≠ 0 ∨
      (columns input r).selEq 5 ≠ 0 ∨ (columns input r).selEq 6 ≠ 0) := hcheck
    rw [if_neg hcheck', if_neg hcheck, if_neg hcheck, if_neg hcheck]
    have hsame : Function.update S.pols.row (offset + step)
        { columns input r with xDeltaChunkInverse := i, chunkLtPrime := r.chunkLtPrime } =
          S.pols.row := Function.update_eq_self_iff.mpr hrow.symm
    rw [hsame]

/-- The columns of a row that is done. -/
def doneRow (input : ArithActionBytes) (r : ArithRow) (i : Fe) (chunkLtPrime : Bool) : ArithRow :=
  { columns input r with
    xDeltaChunkInverse := i
    chunkLtPrime := if input.ChecksLtPrime then flag chunkLtPrime else r.chunkLtPrime }

/-- The first `n` rows of an action are done, and the flags of the rows after them are set. -/
structure RowsDone (input : ArithActionBytes) (offset n : ℕ) (P : ArithCommitPols) (S : RowState) :
    Prop where
  rows : ∀ t < n, ∃ i, S.pols.row (offset + t) =
    doneRow input (P.row (offset + t)) i (!input.lessBefore t && input.lessAt t)
  others : ∀ q, q < offset ∨ offset + n ≤ q → S.pols.row q = P.row q
  different : input.ChecksDifferent → S.xAreDifferent = input.differ (min n 16)
  differentRow : input.ChecksDifferent → ∀ t < n, t < 16 →
    S.pols.xAreDifferent ((offset + t + 1) % N) = flag (input.differ (t + 1))
  differentOthers : ∀ q, (∀ t < n, q ≠ (offset + t + 1) % N) →
    S.pols.xAreDifferent q = P.xAreDifferent q
  less : input.ChecksLtPrime → n % 16 ≠ 0 → S.valueLtPrime = input.lessBefore n
  lessRow : input.ChecksLtPrime → ∀ t < n,
    S.pols.valueLtPrime ((offset + t + 1) % N) = flag (input.less t)
  lessOthers : ∀ q, (∀ t < n, q ≠ (offset + t + 1) % N) →
    S.pols.valueLtPrime q = P.valueLtPrime q
  carry : S.pols.carry = P.carry
  resultEq : S.pols.resultEq = P.resultEq

variable {P : ArithCommitPols} {n : ℕ} {S : RowState}

theorem rowsDone_zero : RowsDone input offset 0 P { pols := P } where
  rows _ h := absurd h (Nat.not_lt_zero _)
  others _ _ := rfl
  different _ := rfl
  differentRow _ _ h := absurd h (Nat.not_lt_zero _)
  differentOthers _ _ := rfl
  less _ h := absurd rfl h
  lessRow _ _ h := absurd h (Nat.not_lt_zero _)
  lessOthers _ _ := rfl
  carry := rfl
  resultEq := rfl

theorem lessBefore_of_mod (h : n % 16 = 0) : input.lessBefore n = false := by
  cases n with
  | zero => rfl
  | succ n => exact if_pos h

/-- What a row leaves behind. -/
theorem execRow_eq (h : RowsDone input offset n P S) :
    ∃ i, execRow inv input offset n S = {
      pols := { S.pols with
        row := Function.update S.pols.row (offset + n)
          (doneRow input (P.row (offset + n)) i (!input.lessBefore n && input.lessAt n))
        xAreDifferent := if input.ChecksDifferent ∧ n < 16 then
            Function.update S.pols.xAreDifferent ((offset + n + 1) % N)
              (flag (S.xAreDifferent || input.differAt n))
          else S.pols.xAreDifferent
        valueLtPrime := if input.ChecksLtPrime then
            Function.update S.pols.valueLtPrime ((offset + n + 1) % N) (flag (input.less n))
          else S.pols.valueLtPrime }
      xAreDifferent := if input.ChecksDifferent ∧ n < 16 then
          S.xAreDifferent || input.differAt n
        else S.xAreDifferent
      valueLtPrime := if input.ChecksLtPrime then input.less n
        else if n % 16 = 0 then false else S.valueLtPrime } := by
  have hsame : S.pols.row (offset + n) = P.row (offset + n) := h.others _ (.inr le_rfl)
  have hbefore (hcheck : input.ChecksLtPrime) :
      (if n % 16 = 0 then false else S.valueLtPrime) = input.lessBefore n := by
    split
    · next hmod => rw [lessBefore_of_mod hmod]
    · next hmod => exact h.less hcheck hmod
  unfold execRow
  dsimp only
  generalize hS₁ : ({ S with
    valueLtPrime := if n % 16 = 0 then false else S.valueLtPrime
    pols := { S.pols with
      row := Function.update S.pols.row (offset + n) (columns input (S.pols.row (offset + n))) } } :
        RowState) = S₁
  have hrow₁ : S₁.pols.row (offset + n) = columns input (P.row (offset + n)) := by
    rw [← hS₁, hsame]
    exact Function.update_self ..
  obtain ⟨i, hdiff⟩ := execDifferent_eq inv hrow₁
  have hfirst : ∃ r j c, Function.update S₁.pols.row (offset + n)
      { columns input (P.row (offset + n)) with xDeltaChunkInverse := i } offset =
        { columns input r with xDeltaChunkInverse := j, chunkLtPrime := c } := by
    rcases Nat.eq_zero_or_pos n with rfl | hpos
    · exact ⟨_, _, _, Function.update_self ..⟩
    · obtain ⟨j, hj⟩ := h.rows 0 hpos
      have hne : offset ≠ offset + n := by omega
      rw [Function.update_of_ne hne, ← hS₁]
      dsimp only
      rw [Function.update_of_ne hne]
      exact ⟨_, _, _, hj⟩
  obtain ⟨r, j, c, hfirst⟩ := hfirst
  rw [hdiff, execLtPrime_eq (r := P.row (offset + n)) (i := i) (Function.update_self ..)
    (by dsimp only; rw [hfirst]; rfl) (by dsimp only; rw [hfirst]; rfl)]
  refine ⟨i, ?_⟩
  subst hS₁
  dsimp only
  rw [Function.update_idem, Function.update_idem, doneRow]
  by_cases hcheck : input.ChecksLtPrime
  · simp only [if_pos hcheck, hbefore hcheck]
    rfl
  · simp only [if_neg hcheck]

theorem RowsDone.succ (h : RowsDone input offset n P S) (hoffset : offset + n < N) :
    RowsDone input offset (n + 1) P (execRow inv input offset n S) := by
  obtain ⟨i, hrow⟩ := execRow_eq inv h
  have hN : N = 8388608 := rfl
  have hnext {t : ℕ} (ht : t < n) : (offset + t + 1) % N ≠ (offset + n + 1) % N := by
    show (offset + t + 1) % 8388608 ≠ (offset + n + 1) % 8388608
    omega
  rw [hrow]
  refine ⟨fun t ht => ?_, fun q hq => ?_, fun hcheck => ?_, fun hcheck t ht ht16 => ?_,
    fun q hq => ?_, fun hcheck hmod => ?_, fun hcheck t ht => ?_, fun q hq => ?_, h.carry, h.resultEq⟩
  all_goals dsimp only
  · rcases Nat.lt_succ_iff_lt_or_eq.mp ht with ht | rfl
    · rw [Function.update_of_ne (by omega)]
      exact h.rows t ht
    · exact ⟨i, Function.update_self ..⟩
  · rw [Function.update_of_ne (by omega)]
    exact h.others q (by omega)
  · by_cases hlt : n < 16
    · rw [if_pos ⟨hcheck, hlt⟩, h.different hcheck, Nat.min_eq_left hlt.le, Nat.min_eq_left hlt]
      rfl
    · rw [if_neg fun hn => hlt hn.2, h.different hcheck, Nat.min_eq_right (by omega),
        Nat.min_eq_right (by omega)]
  · rcases Nat.lt_succ_iff_lt_or_eq.mp ht with ht | rfl
    · have hkept := h.differentRow hcheck t ht ht16
      split
      · rwa [Function.update_of_ne (hnext ht)]
      · exact hkept
    · rw [if_pos ⟨hcheck, ht16⟩, Function.update_self, h.different hcheck,
        Nat.min_eq_left ht16.le]
      rfl
  · have hkept := h.differentOthers q fun t ht => hq t (Nat.lt_succ_of_lt ht)
    split
    · rwa [Function.update_of_ne (hq n (Nat.lt_succ_self n))]
    · exact hkept
  · rw [if_pos hcheck]
    exact (if_neg hmod).symm
  · rw [if_pos hcheck]
    rcases Nat.lt_succ_iff_lt_or_eq.mp ht with ht | rfl
    · rw [Function.update_of_ne (hnext ht)]
      exact h.lessRow hcheck t ht
    · exact Function.update_self ..
  · have hkept := h.lessOthers q fun t ht => hq t (Nat.lt_succ_of_lt ht)
    split
    · rwa [Function.update_of_ne (hq n (Nat.lt_succ_self n))]
    · exact hkept

/-- All rows of an action. -/
theorem rowsDone (input : ArithActionBytes) (P : ArithCommitPols) (h : offset + 32 ≤ N) :
    RowsDone input offset 32 P (forUpTo 32 (execRow inv input offset) { pols := P }) :=
  forUpTo_inv (J := fun n S => RowsDone input offset n P S) rowsDone_zero
    fun n hn _ ih => ih.succ inv (by omega)

end Rows

end ZkevmProver
