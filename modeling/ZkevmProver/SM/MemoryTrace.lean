import ZkevmProver.SM.MemoryAccesses

/-!
# The rows of `MemoryExecutor`

  1. What the loops write.
  2. The rows as a sorted trace.
  3. Addresses at the upper limit.
-/

namespace ZkevmProver.MemoryExecutor

open Function

/-! ## What the loops write -/

variable {N n : ℕ} {access input : List MemoryAccess} {p : MemCommitPols}

/-- The access after access `i` is to the same address. -/
def SameNext (access : List MemoryAccess) (i : ℕ) : Prop :=
  i < access.length - 1 ∧ access[i + 1]?.map (·.address) = access[i]?.map (·.address)

instance (access : List MemoryAccess) (i : ℕ) : Decidable (SameNext access i) := by
  unfold SameNext
  infer_instance

/-- Row `i` after the first loop. -/
structure AccessRow (access : List MemoryAccess) (p : MemCommitPols) (i : ℕ) (a : MemoryAccess) :
    Prop where
  addr : p.addr i = fromU64 a.address
  step : p.step i = fromU64 a.pc
  mOp : p.mOp i = 1
  mWr : p.mWr i = if a.bIsWrite then 1 else 0
  val : p.val i = a.fe

/-- The first `n` rows are written, and the others are not. -/
structure AccessRows (access : List MemoryAccess) (n : ℕ) (p : MemCommitPols) : Prop where
  row : ∀ i (h : i < access.length), i < n → AccessRow access p i access[i]
  last : ∀ i < n, p.lastAccess i = if SameNext access i then 0 else 1
  rest : ∀ i, n ≤ i → p.mOp i = 0 ∧ p.mWr i = 0 ∧ p.lastAccess i = 0

theorem accessRows_step (h : AccessRows access n p) (hn : n < access.length) :
    ∃ p', accessRow access access.length p n = some p' ∧ AccessRows access (n + 1) p' := by
  unfold accessRow
  rw [List.getElem?_eq_getElem hn, Option.map_some]
  refine ⟨_, rfl, ?_, ?_, ?_⟩
  · intro i hi hlt
    by_cases hin : i = n
    · subst hin
      constructor
      · exact update_self ..
      · exact update_self ..
      · exact update_self ..
      · dsimp only
        split
        · exact update_self ..
        · exact (h.rest i le_rfl).2.1
      · exact update_self ..
    · have hold := h.row i hi (by omega)
      constructor
      · exact (update_of_ne hin _ _).trans hold.addr
      · exact (update_of_ne hin _ _).trans hold.step
      · exact (update_of_ne hin _ _).trans hold.mOp
      · rw [← hold.mWr]
        dsimp only
        split
        · exact update_of_ne hin _ _
        · rfl
      · exact (update_of_ne hin _ _).trans hold.val
  · intro i hi
    have hsame : (n < access.length - 1 ∧
        access[n + 1]?.map (·.address) = some access[n].address) ↔ SameNext access n := by
      unfold SameNext
      rw [List.getElem?_eq_getElem hn]
      rfl
    dsimp only
    rw [if_congr hsame rfl rfl]
    by_cases hin : i = n
    · subst hin
      split
      · exact (h.rest i le_rfl).2.2
      · exact update_self ..
    · rw [← h.last i (by omega)]
      split
      · rfl
      · exact update_of_ne hin _ _
  · intro i hi
    obtain ⟨hmOp, hmWr, hlast⟩ := h.rest i (by omega)
    have hin : i ≠ n := by omega
    refine ⟨(update_of_ne hin _ _).trans hmOp, ?_, ?_⟩
    · dsimp only
      split
      · exact (update_of_ne hin _ _).trans hmWr
      · exact hmWr
    · dsimp only
      split
      · exact hlast
      · exact (update_of_ne hin _ _).trans hlast

theorem accessRows_spec (access : List MemoryAccess) :
    ∃ p, (List.range access.length).foldlM (accessRow access access.length) {} = some p ∧
      AccessRows access access.length p :=
  Loops.foldlM_range_inv (J := AccessRows access)
    ⟨fun i _ hi => absurd hi (Nat.not_lt_zero i), fun i hi => absurd hi (Nat.not_lt_zero i),
      fun _ _ => ⟨rfl, rfl, rfl⟩⟩
    fun _ hi _ h => accessRows_step h hi

/-- After `j` rows of the second loop, which starts at row `n`. -/
structure FillRows (lastAddr : Fe) (prevStep n : ℕ) (p₀ : MemCommitPols) (j : ℕ)
    (s : MemCommitPols × ℕ) : Prop where
  prev : s.2 = prevStep + j
  before : ∀ i < n, s.1.addr i = p₀.addr i ∧ s.1.step i = p₀.step i
  row : ∀ i, n ≤ i → i < n + j →
    s.1.addr i = lastAddr ∧ s.1.step i = fromU64 (prevStep + (i - n) + 1)
  mOp : s.1.mOp = p₀.mOp
  mWr : s.1.mWr = p₀.mWr
  val : s.1.val = p₀.val
  lastAccess : s.1.lastAccess = p₀.lastAccess

theorem fillRows_spec (lastAddr : Fe) (prevStep n k : ℕ) (p₀ : MemCommitPols) :
    FillRows lastAddr prevStep n p₀ k
      (Loops.forUpTo k (fun j => fillRow lastAddr (n + j)) (p₀, prevStep)) := by
  refine Loops.forUpTo_inv (J := FillRows lastAddr prevStep n p₀) ?_ ?_
  · exact ⟨rfl, fun _ _ => ⟨rfl, rfl⟩, fun i hi hlt => absurd hlt (by omega), rfl, rfl, rfl, rfl⟩
  · intro j _ s h
    refine ⟨?_, ?_, ?_, h.mOp, h.mWr, h.val, h.lastAccess⟩
    · show s.2 + 1 = _
      rw [h.prev, Nat.add_assoc]
    · intro i hi
      have hne : i ≠ n + j := by omega
      exact ⟨(update_of_ne hne _ _).trans (h.before i hi).1,
        (update_of_ne hne _ _).trans (h.before i hi).2⟩
    · intro i hi hlt
      by_cases hij : i = n + j
      · subst hij
        refine ⟨update_self .., ?_⟩
        show update s.1.step (n + j) (fromU64 (s.2 + 1)) (n + j) = _
        rw [update_self, h.prev, Nat.add_sub_cancel_left]
      · obtain ⟨haddr, hstep⟩ := h.row i hi (by omega)
        exact ⟨(update_of_ne hij _ _).trans haddr, (update_of_ne hij _ _).trans hstep⟩

/-- The rows that `execute` leaves. -/
structure Executed (N : ℕ) (access : List MemoryAccess) (p : MemCommitPols) : Prop where
  row : ∀ i (h : i < access.length), AccessRow access p i access[i]
  fill : ∀ i, access.length ≤ i → i < N →
    p.addr i = (if access.length > 0 then p.addr (access.length - 1) + 1 else 0) ∧
    p.step i = fromU64 ((if access.length > 0 then toU64 (p.step (access.length - 1)) else 0) +
      (i - access.length) + 1) ∧ p.mOp i = 0 ∧ p.mWr i = 0
  last : ∀ i < N, p.lastAccess i =
    if i + 1 = N ∨ i < access.length ∧ ¬SameNext access i then 1 else 0

theorem execute_spec (hinput : input.Pairwise fun a b => a.pc < b.pc) (hN : 0 < N)
    (hle : input.length ≤ N) :
    ∃ p, execute N input {} = some p ∧ Executed N (reorder input) p := by
  have hlen : (reorder input).length = input.length := (reorder_spec hinput).1.length_eq
  obtain ⟨p₁, hp₁, hrows⟩ := accessRows_spec (reorder input)
  rw [hlen] at hp₁ hrows
  let lastAddr : Fe := if input.length > 0 then p₁.addr (input.length - 1) + 1 else 0
  let prevStep : ℕ := if input.length > 0 then toU64 (p₁.step (input.length - 1)) else 0
  let s := Loops.forUpTo (N - input.length) (fun j => fillRow lastAddr (input.length + j))
    (p₁, prevStep)
  have hfill : FillRows lastAddr prevStep input.length p₁ (N - input.length) s :=
    fillRows_spec ..
  refine ⟨{ s.1 with lastAccess := update s.1.lastAccess (N - 1) 1 }, ?_, ?_, ?_, ?_⟩
  · unfold execute
    rw [if_neg (by omega)]
    dsimp only
    rw [hp₁]
    show some _ = some _
    by_cases hpos : input.length > 0
    · simp only [if_pos hpos, s, lastAddr, prevStep]
    · simp only [if_neg hpos, s, lastAddr, prevStep]
  · intro i hi
    have hi' : i < input.length := by omega
    have hrow := hrows.row i hi hi'
    exact ⟨(hfill.before i hi').1.trans hrow.addr, (hfill.before i hi').2.trans hrow.step,
      (congrFun hfill.mOp i).trans hrow.mOp, (congrFun hfill.mWr i).trans hrow.mWr,
      (congrFun hfill.val i).trans hrow.val⟩
  · intro i hi hlt
    rw [hlen] at hi ⊢
    obtain ⟨haddr, hstep⟩ := hfill.row i hi (by omega)
    refine ⟨?_, ?_, (congrFun hfill.mOp i).trans (hrows.rest i hi).1,
      (congrFun hfill.mWr i).trans (hrows.rest i hi).2.1⟩
    · dsimp only
      rw [haddr]
      by_cases hpos : input.length > 0
      · rw [if_pos hpos, (hfill.before _ (by omega)).1]
        exact if_pos hpos
      · rw [if_neg hpos]
        exact if_neg hpos
    · dsimp only
      rw [hstep]
      by_cases hpos : input.length > 0
      · rw [if_pos hpos, (hfill.before _ (by omega)).2]
        simp only [prevStep, if_pos hpos]
      · rw [if_neg hpos]
        simp only [prevStep, if_neg hpos]
  · intro i hi
    dsimp only
    rw [hlen, hfill.lastAccess]
    by_cases hlast : i + 1 = N
    · rw [if_pos (.inl hlast), (by omega : N - 1 = i), update_self]
    · rw [update_of_ne (by omega)]
      by_cases hin : i < input.length
      · rw [hrows.last i hin]
        by_cases hsame : SameNext (reorder input) i
        · rw [if_pos hsame, if_neg fun h => h.elim hlast fun h => h.2 hsame]
        · rw [if_neg hsame, if_pos (.inr ⟨hin, hsame⟩)]
      · rw [(hrows.rest i (by omega)).2.2, if_neg fun h => h.elim hlast fun h => hin h.1]

/-! ## The rows as a sorted trace -/

theorem toU64_add_one (x : Fe) : toU64 (x + 1) = (toU64 x + 1) % goldilocksPrime := by
  unfold toU64
  rw [Fin.val_add]
  rfl

theorem add_one_ne (x : Fe) : x + 1 ≠ x := by
  intro h
  have hval := congrArg toU64 h
  have hlt : toU64 x < goldilocksPrime := x.isLt
  rw [toU64_add_one] at hval
  unfold goldilocksPrime at hval hlt
  omega

/-- The addresses are field elements, and there is one more after the last one where rows are left. -/
def AddressesFit (N : ℕ) (access : List MemoryAccess) : Prop :=
  (∀ a ∈ access, a.address < goldilocksPrime) ∧
    (access.length < N → ∀ a ∈ access, a.address + 1 < goldilocksPrime)

theorem AddressesFit.perm {access' : List MemoryAccess} (h : AddressesFit N access)
    (hperm : access'.Perm access) : AddressesFit N access' := by
  refine ⟨fun a ha => h.1 a (hperm.mem_iff.mp ha), fun hlen a ha => ?_⟩
  rw [hperm.length_eq] at hlen
  exact h.2 hlen a (hperm.mem_iff.mp ha)

section Sorted

/-- Rows that are sorted one after the other have addresses that do not decrease. -/
theorem addr_mono (hsorted : ∀ i, i + 1 < N → toU64 (p.addr i) < toU64 (p.addr (i + 1)) ∨
    p.addr i = p.addr (i + 1) ∧ toU64 (p.step i) < toU64 (p.step (i + 1))) {i j : ℕ}
    (hij : i ≤ j) (hj : j < N) : toU64 (p.addr i) ≤ toU64 (p.addr j) := by
  induction j, hij using Nat.le_induction with
  | base => exact le_rfl
  | succ j _ ih =>
    refine (ih (by omega)).trans ?_
    rcases hsorted j hj with hlt | ⟨heq, -⟩
    · exact hlt.le
    · rw [heq]

theorem lastRow_iff (hsorted : ∀ i, i + 1 < N → toU64 (p.addr i) < toU64 (p.addr (i + 1)) ∨
    p.addr i = p.addr (i + 1) ∧ toU64 (p.step i) < toU64 (p.step (i + 1))) {i : ℕ} (hi : i < N) :
    p.LastRow N i ↔ i + 1 = N ∨ p.addr (i + 1) ≠ p.addr i := by
  constructor
  · intro h
    by_cases hlast : i + 1 = N
    · exact .inl hlast
    · exact .inr (h (i + 1) (Nat.lt_succ_self i) (by omega))
  · rintro (hlast | hne) j hij hj
    · omega
    · have hnext : toU64 (p.addr i) < toU64 (p.addr (i + 1)) :=
        (hsorted i (by omega)).resolve_right fun h => hne h.1.symm
      have hle := addr_mono hsorted (by omega : i + 1 ≤ j) hj
      intro heq
      rw [heq] at hle
      omega

variable (h : Executed N access p) (hsort : access.Pairwise Before)
  (hpc : ∀ a ∈ access, a.pc < N) (hN : 2 * N < goldilocksPrime) (hfit : AddressesFit N access)

include h hpc hN in
theorem Executed.toU64_step {i : ℕ} (hi : i < access.length) : toU64 (p.step i) = access[i].pc := by
  have := hpc access[i] (List.getElem_mem hi)
  rw [(h.row i hi).step, toU64_fromU64 (by omega)]

include h hfit in
theorem Executed.toU64_addr {i : ℕ} (hi : i < access.length) :
    toU64 (p.addr i) = access[i].address := by
  rw [(h.row i hi).addr, toU64_fromU64 (hfit.1 _ (List.getElem_mem hi))]

include h hsort hpc hN hfit in
theorem Executed.sorted (i : ℕ) (hi : i + 1 < N) :
    toU64 (p.addr i) < toU64 (p.addr (i + 1)) ∨
      p.addr i = p.addr (i + 1) ∧ toU64 (p.step i) < toU64 (p.step (i + 1)) := by
  rcases Nat.lt_trichotomy (i + 1) access.length with hlt | heq | hgt
  · -- two accesses
    have hbefore := List.pairwise_iff_getElem.mp hsort i (i + 1) (by omega) hlt
      (Nat.lt_succ_self i)
    rw [h.toU64_addr hfit (by omega), h.toU64_addr hfit hlt, h.toU64_step hpc hN (by omega),
      h.toU64_step hpc hN hlt]
    refine hbefore.imp_right fun ⟨haddr, hstep⟩ => ⟨?_, hstep⟩
    rw [(h.row i (by omega)).addr, (h.row (i + 1) hlt).addr, haddr]
  · -- the last access
    left
    have hlast := h.toU64_addr hfit (by omega : i < access.length)
    have haddr := (h.fill (i + 1) (by omega) hi).1
    rw [if_pos (by omega), (by omega : access.length - 1 = i)] at haddr
    have hlt := hfit.2 (by omega) _ (List.getElem_mem (by omega : i < access.length))
    rw [haddr, toU64_add_one, Nat.mod_eq_of_lt (by omega)]
    exact Nat.lt_succ_self _
  · -- two rows without an access
    right
    obtain ⟨haddr, hstep, -⟩ := h.fill i (by omega) (by omega)
    obtain ⟨haddr', hstep', -⟩ := h.fill (i + 1) (by omega) hi
    refine ⟨haddr.trans haddr'.symm, ?_⟩
    have hprev : (if access.length > 0 then toU64 (p.step (access.length - 1)) else 0) < N := by
      split
      · rw [h.toU64_step hpc hN (by omega)]
        exact hpc _ (List.getElem_mem _)
      · omega
    rw [hstep, hstep', toU64_fromU64 (by omega), toU64_fromU64 (by omega)]
    omega

include h hfit in
/-- The rows have the latest write of the list. -/
theorem Executed.latest {address : ℕ} (haddress : address < goldilocksPrime) {j : ℕ}
    (hj : j ≤ access.length) :
    p.latest (fromU64 address) j = (latestWrite address (access.take j)).getD 0 := by
  induction j with
  | zero => rfl
  | succ j ih =>
    have hlt : j < access.length := hj
    have hrow := h.row j hlt
    have hsame : p.addr j = fromU64 address ↔ access[j].address = address := by
      rw [← toU64_injective.eq_iff, h.toU64_addr hfit hlt, toU64_fromU64 haddress]
    have hconcat : latestWrite address (access.take (j + 1)) =
        if access[j].address = address then
          access[j].written.or (latestWrite address (access.take j))
        else latestWrite address (access.take j) := by
      rw [← List.take_concat_get' access j hlt]
      exact SortedAccesses.latest_concat _ _ _ _ _
    unfold MemCommitPols.latest
    rw [hconcat]
    by_cases haddr : access[j].address = address
    · rw [if_pos haddr]
      by_cases hw : access[j].bIsWrite = true
      · have hmWr := hrow.mWr
        rw [if_pos hw] at hmWr
        rw [if_pos ⟨hsame.mpr haddr, hmWr⟩, hrow.val, MemoryAccess.written, if_pos hw]
        rfl
      · have hmWr := hrow.mWr
        rw [if_neg hw] at hmWr
        rw [if_neg fun hc => by rw [hmWr] at hc; exact absurd hc.2 (by decide),
          ih (Nat.le_of_succ_le hj), MemoryAccess.written, if_neg hw, Option.none_or]
    · rw [if_neg haddr, if_neg fun hc => haddr (hsame.mp hc.1), ih (Nat.le_of_succ_le hj)]

include h hsort hpc hN hfit in
theorem Executed.sortedTrace (hlen : access.length ≤ N) (hperm : access.Perm input)
    (hreads : ∀ pre a post, access = pre ++ a :: post → a.bIsWrite = false →
      a.fe = (latestWrite a.address pre).getD 0) : p.SortedTrace N input := by
  have hsorted := h.sorted hsort hpc hN hfit
  -- the flag that the code sets, by addresses of rows
  have hflag (i : ℕ) (hi : i < N) : p.LastRow N i ↔
      i + 1 = N ∨ i < access.length ∧ ¬SameNext access i := by
    rw [lastRow_iff hsorted hi]
    apply or_congr_right'
    intro hlast
    by_cases hin : i < access.length
    · rw [and_iff_right hin]
      by_cases hnext : i + 1 < access.length
      · have hsame : SameNext access i ↔ access[i + 1].address = access[i].address := by
          unfold SameNext
          rw [List.getElem?_eq_getElem hnext, List.getElem?_eq_getElem hin, Option.map_some,
            Option.map_some, Option.some.injEq]
          exact and_iff_right (by omega)
        rw [hsame, Ne, ← toU64_injective.eq_iff, h.toU64_addr hfit hnext, h.toU64_addr hfit hin]
      · have haddr := (h.fill (i + 1) (by omega) (by omega)).1
        rw [if_pos (by omega), (by omega : access.length - 1 = i)] at haddr
        rw [haddr]
        exact iff_of_true (add_one_ne _) fun hs => by
          have := hs.1
          omega
    · rw [(h.fill i (by omega) hi).1, (h.fill (i + 1) (by omega) (by omega)).1]
      exact iff_of_false (fun hne => hne rfl) fun hc => hin hc.1
  refine ⟨⟨access, hperm, fun i hi => ?_, fun i hi hlt => (h.fill i hi hlt).2.2.1⟩, hsorted,
    ?_, ?_, ?_⟩
  · have hrow := h.row i hi
    exact ⟨h.toU64_addr hfit hi, h.toU64_step hpc hN hi, hrow.mOp, hrow.mWr, hrow.val⟩
  · intro i hi hlast
    rw [h.last i hi, if_pos ((hflag i hi).mp hlast)]
  · intro i hi hlast
    rw [h.last i hi, if_neg (mt (hflag i hi).mpr hlast)]
  · intro i hi hmOp hmWr
    have hin : i < access.length := by
      by_contra hge
      rw [(h.fill i (by omega) hi).2.2.1] at hmOp
      exact absurd hmOp (by decide)
    have hrow := h.row i hin
    have hread : access[i].bIsWrite = false := by
      by_contra hw
      rw [hrow.mWr, if_pos (Bool.eq_true_of_not_eq_false hw)] at hmWr
      exact absurd hmWr (by decide)
    have hsplit : access = access.take i ++ access[i] :: access.drop (i + 1) := by
      rw [List.getElem_cons_drop, List.take_append_drop]
    rw [hrow.val, hreads _ _ _ hsplit hread, hrow.addr,
      h.latest hfit (hfit.1 _ (List.getElem_mem hin)) hin.le]

end Sorted

/-! ## Addresses at the upper limit -/

/-- The address that a row shows is a field element, and so is the one after it. -/
theorem addressesFit_of_sortedTrace (h : Executed N access p) (hperm : access.Perm input)
    (htrace : p.SortedTrace N input) : AddressesFit N input := by
  have hlt : ∀ a ∈ input, a.address < goldilocksPrime := by
    obtain ⟨access', hperm', hshows, -⟩ := htrace.accesses
    intro a ha
    obtain ⟨i, hi, rfl⟩ := List.mem_iff_getElem.mp (hperm'.mem_iff.mpr ha)
    rw [← (hshows i hi).addr]
    exact (p.addr i).isLt
  refine ⟨hlt, fun hlen a ha => ?_⟩
  have haddress := hlt a ha
  rw [← hperm.length_eq] at hlen
  by_contra hlimit
  obtain ⟨i, hi, rfl⟩ := List.mem_iff_getElem.mp (hperm.mem_iff.mpr ha)
  have haddr : toU64 (p.addr i) = access[i].address := by
    rw [(h.row i hi).addr, toU64_fromU64 haddress]
  have hle := addr_mono htrace.sorted (by omega : i ≤ access.length - 1) (by omega)
  have hlast : toU64 (p.addr (access.length - 1)) < goldilocksPrime := (p.addr _).isLt
  -- the last access has the greatest address, and the first row after it the address 0
  have hfill := (h.fill access.length le_rfl hlen).1
  rw [if_pos (by omega)] at hfill
  have hzero : toU64 (p.addr access.length) = 0 := by
    rw [hfill, toU64_add_one, (by omega : toU64 (p.addr (access.length - 1)) + 1 = goldilocksPrime),
      Nat.mod_self]
  have hmax : toU64 (p.addr (access.length - 1)) = goldilocksPrime - 1 := by omega
  rcases htrace.sorted (access.length - 1) (by omega) with hcase | ⟨heq, -⟩
  · rw [(by omega : access.length - 1 + 1 = access.length), hzero] at hcase
    omega
  · rw [(by omega : access.length - 1 + 1 = access.length)] at heq
    rw [heq, hzero] at hmax
    exact absurd hmax (by decide)

theorem sortedTrace_iff {steps : List (Option MemoryOp)} (hsteps : steps.length ≤ pilDegree)
    (hinput : mainAccesses steps = .ok input) :
    (∃ p, execute pilDegree input {} = some p ∧ p.SortedTrace pilDegree input) ↔
      AddressesFit pilDegree input := by
  have hmain := mainAccesses_spec hinput
  obtain ⟨hperm, hsort⟩ := reorder_spec hmain.order
  have hle : input.length ≤ pilDegree := hmain.length_le.trans hsteps
  obtain ⟨p, hp, hexec⟩ := execute_spec hmain.order (by decide) hle
  constructor
  · rintro ⟨p', hp', htrace⟩
    obtain rfl := Option.some.inj (hp.symm.trans hp')
    exact addressesFit_of_sortedTrace hexec hperm htrace
  · intro hfit
    refine ⟨p, hp, hexec.sortedTrace hsort ?_ (by decide) (hfit.perm hperm) ?_ hperm
      fun pre a post => read_reorder hmain⟩
    · exact fun a ha => (hmain.pc_lt a (hperm.mem_iff.mp ha)).trans_le hsteps
    · rw [hperm.length_eq]
      exact hle

/-- A write, a step without memory and a read. -/
def sampleSteps : List (Option MemoryOp) :=
  [some ⟨true, 5, true, false, true, 9, fun _ => 7⟩, none,
    some ⟨false, 5, true, false, true, 9, fun _ => 7⟩]

theorem sortedTrace_sample :
    (∃ p, execute pilDegree [⟨true, 2490373, 0, fun _ => 7⟩, ⟨false, 2490373, 2, fun _ => 7⟩] {} =
      some p ∧ p.SortedTrace pilDegree
        [⟨true, 2490373, 0, fun _ => 7⟩, ⟨false, 2490373, 2, fun _ => 7⟩]) ↔
      AddressesFit pilDegree [⟨true, 2490373, 0, fun _ => 7⟩, ⟨false, 2490373, 2, fun _ => 7⟩] :=
  @sortedTrace_iff _ sampleSteps (by decide) rfl

/-- A read of the address `p - 1`: the rows after it have the address 0. -/
theorem not_sortedTrace :
    let input : List MemoryAccess := [⟨false, goldilocksPrime - 1, 0, 0⟩]
    mainAccesses [some ⟨false, 0, true, false, false, fromU64 (2 ^ 46 - 2 ^ 14), 0⟩] = .ok input ∧
      ¬∃ p, execute pilDegree input {} = some p ∧ p.SortedTrace pilDegree input := by
  intro input
  refine ⟨rfl, ?_⟩
  have horder : input.Pairwise fun a b => a.pc < b.pc := List.pairwise_singleton _ _
  obtain ⟨p, hp, hexec⟩ := @execute_spec pilDegree input horder (by decide) (by decide)
  rintro ⟨p', hp', htrace⟩
  obtain rfl := Option.some.inj (hp.symm.trans hp')
  have hfit := addressesFit_of_sortedTrace hexec (reorder_spec horder).1 htrace
  exact absurd (hfit.2 (by decide) _ List.mem_cons_self) (by decide)

/-- The condition holds of every run whose contexts have less than 46 bits. -/
theorem addressesFit_of_ctx {steps : List (Option MemoryOp)}
    (hctx : ∀ o, some o ∈ steps → toU64 o.CTX < 2 ^ 45) (hinput : mainAccesses steps = .ok input) :
    AddressesFit N input := by
  unfold mainAccesses at hinput
  cases hrun : MemoryContext.run 0 steps {} with
  | error e =>
    rw [hrun] at hinput
    cases hinput
  | ok ctx =>
    rw [hrun] at hinput
    cases hinput
    have hlt := MemoryContext.run_addresses (P := fun addr => addr < 2 ^ 63 + 2 ^ 19)
      (fun o ho addr => MemoryOp.addr_lt_of_ctx (hctx o ho))
      (fun a ha => absurd ha List.not_mem_nil) hrun
    exact ⟨fun a ha => (hlt a ha).trans (by decide),
      fun _ a ha => (Nat.succ_lt_succ (hlt a ha)).trans (by decide)⟩

end ZkevmProver.MemoryExecutor
