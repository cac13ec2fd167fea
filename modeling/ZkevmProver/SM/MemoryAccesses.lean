import ZkevmProver.SM.Memory

/-!
# The accesses of the main executor

  1. What every run keeps: `Recorded`.
  2. The accesses in the order of the executor.
-/

namespace ZkevmProver

open Function SortedAccesses

/-! ## What every run keeps -/

namespace MemoryAccess

/-- What an access writes. -/
def written (a : MemoryAccess) : Option MemWord := if a.bIsWrite then some a.fe else none

end MemoryAccess

/-- The latest value that has been written to an address. -/
abbrev latestWrite (address : ℕ) (l : List MemoryAccess) : Option MemWord :=
  latest MemoryAccess.address MemoryAccess.written address l

/-- The accesses are in the order of the steps, and the reads have the values of the memory. -/
structure Recorded (n : ℕ) (ctx : MemoryContext) : Prop where
  order : ctx.required.Pairwise fun a b => a.pc < b.pc
  lt : ∀ a ∈ ctx.required, a.pc < n ∧ a.address < 2 ^ 64
  mem : ∀ address, ctx.mem address = latestWrite address ctx.required
  reads : ∀ pre a post, ctx.required = pre ++ a :: post → a.bIsWrite = false →
    a.fe = (latestWrite a.address pre).getD 0

theorem recorded_new : Recorded 0 {} where
  order := .nil
  lt := fun _ h => absurd h List.not_mem_nil
  mem := fun _ => rfl
  reads := fun pre a post h => by simp at h

theorem MemoryOp.addr_lt {o : MemoryOp} {addr : ℕ} (h : o.addr = .ok addr) : addr < 2 ^ 64 := by
  unfold MemoryOp.addr at h
  by_cases hrange : o.addrRel ≥ (if o.isMem then 0x20000 else 0x10000) - 2048
  · rw [if_pos hrange] at h
    cases h
  · rw [if_neg hrange] at h
    by_cases hneg : o.addrRel < 0
    · rw [if_pos hneg] at h
      cases h
    · rw [if_neg hneg] at h
      cases h
      exact Nat.mod_lt _ (by decide)

namespace MemoryContext

variable {i n : ℕ} {o : MemoryOp} {ctx ctx' : MemoryContext}

/-- What a memory operation does. -/
theorem exec_cases (h : ctx.exec i o = .ok ctx') :
    ∃ addr, o.addr = .ok addr ∧ ctx'.required = ctx.required ++ [⟨o.mWR, addr, i, o.op⟩] ∧
      (o.mWR = true ∧ ctx'.mem = update ctx.mem addr (some o.op) ∨
        o.mWR = false ∧ ctx'.mem = ctx.mem ∧ o.op = (ctx.mem addr).getD 0) := by
  unfold exec at h
  cases haddr : o.addr with
  | error e =>
    rw [haddr] at h
    cases h
  | ok addr =>
    rw [haddr] at h
    change (if o.mWR = true then _ else _) = _ at h
    refine ⟨addr, rfl, ?_⟩
    split at h
    · rename_i hw
      cases h
      exact ⟨rfl, .inl ⟨hw, rfl⟩⟩
    · rename_i hw
      split at h
      · rename_i hop
        cases h
        exact ⟨rfl, .inr ⟨Bool.eq_false_iff.mpr hw, rfl, hop⟩⟩
      · cases h

theorem exec_recorded (h : Recorded i ctx) (hexec : ctx.exec i o = .ok ctx') :
    Recorded (i + 1) ctx' := by
  obtain ⟨addr, haddr, hreq, hcase⟩ := exec_cases hexec
  have hlatest (address : ℕ) : latestWrite address ctx'.required =
      if addr = address then
        (MemoryAccess.written ⟨o.mWR, addr, i, o.op⟩).or (latestWrite address ctx.required)
      else latestWrite address ctx.required := by
    rw [hreq]
    exact latest_concat _ _ _ _ _
  constructor
  · rw [hreq, List.pairwise_append]
    refine ⟨h.order, List.pairwise_singleton _ _, fun a ha b hb => ?_⟩
    obtain rfl := List.mem_singleton.mp hb
    exact (h.lt a ha).1
  · intro a ha
    rw [hreq] at ha
    rcases List.mem_append.mp ha with ha | ha
    · exact ⟨Nat.lt_succ_of_lt (h.lt a ha).1, (h.lt a ha).2⟩
    · obtain rfl := List.mem_singleton.mp ha
      exact ⟨Nat.lt_succ_self i, MemoryOp.addr_lt haddr⟩
  · intro address
    rw [hlatest, ← h.mem]
    rcases hcase with ⟨hw, hmem⟩ | ⟨hw, hmem, -⟩
    · rw [hmem, MemoryAccess.written, if_pos hw]
      by_cases haddr : addr = address
      · rw [haddr, update_self, if_pos rfl, Option.some_or]
      · rw [update_of_ne (Ne.symm haddr), if_neg haddr]
    · have hnone : MemoryAccess.written ⟨o.mWR, addr, i, o.op⟩ = none := by
        simp [MemoryAccess.written, hw]
      rw [hmem, hnone, Option.none_or, ite_self]
  · intro pre a post heq hread
    rw [hreq] at heq
    rcases List.eq_nil_or_concat' post with rfl | ⟨post', b, rfl⟩
    · -- the access of this step
      obtain ⟨rfl, ha⟩ := List.append_inj' heq rfl
      obtain rfl := (List.cons.inj ha).1
      rcases hcase with ⟨hw, -⟩ | ⟨-, -, hop⟩
      · rw [hw] at hread
        cases hread
      · rw [← h.mem]
        exact hop
    · rw [← List.cons_append, ← List.append_assoc] at heq
      obtain ⟨hpre, -⟩ := List.append_inj' heq rfl
      exact h.reads pre a post' hpre hread

theorem run_recorded {steps : List (Option MemoryOp)} (h : Recorded i ctx)
    (hrun : run i steps ctx = .ok ctx') : Recorded (i + steps.length) ctx' := by
  induction steps generalizing i ctx with
  | nil =>
    cases hrun
    exact h
  | cons s steps ih =>
    rw [List.length_cons, Nat.add_comm steps.length, ← Nat.add_assoc]
    cases s with
    | none =>
      refine ih ?_ hrun
      exact { h with lt := fun a ha => ⟨Nat.lt_succ_of_lt (h.lt a ha).1, (h.lt a ha).2⟩ }
    | some o =>
      unfold run at hrun
      cases hexec : ctx.exec i o with
      | error e =>
        rw [hexec] at hrun
        cases hrun
      | ok ctx₁ =>
        rw [hexec] at hrun
        exact ih (exec_recorded h hexec) hrun

/-- Every recorded address is that of an operation. -/
theorem run_addresses {P : ℕ → Prop} {steps : List (Option MemoryOp)}
    (hP : ∀ o, some o ∈ steps → ∀ addr, o.addr = .ok addr → P addr)
    (h : ∀ a ∈ ctx.required, P a.address) (hrun : run i steps ctx = .ok ctx') :
    ∀ a ∈ ctx'.required, P a.address := by
  induction steps generalizing i ctx with
  | nil =>
    cases hrun
    exact h
  | cons s steps ih =>
    have hP' := fun o ho => hP o (List.mem_cons_of_mem s ho)
    cases s with
    | none => exact ih hP' h hrun
    | some o =>
      unfold run at hrun
      cases hexec : ctx.exec i o with
      | error e =>
        rw [hexec] at hrun
        cases hrun
      | ok ctx₁ =>
        rw [hexec] at hrun
        refine ih hP' ?_ hrun
        obtain ⟨addr, haddr, hreq, -⟩ := exec_cases hexec
        intro a ha
        rw [hreq] at ha
        rcases List.mem_append.mp ha with ha | ha
        · exact h a ha
        · obtain rfl := List.mem_singleton.mp ha
          exact hP o List.mem_cons_self addr haddr

end MemoryContext

/-- With contexts of less than 46 bits the addresses stay far below the limit. -/
theorem MemoryOp.addr_lt_of_ctx {o : MemoryOp} {addr : ℕ} (hctx : toU64 o.CTX < 2 ^ 45)
    (h : o.addr = .ok addr) : addr < 2 ^ 63 + 2 ^ 19 := by
  unfold MemoryOp.addr at h
  by_cases hrange : o.addrRel ≥ (if o.isMem then 0x20000 else 0x10000) - 2048
  · rw [if_pos hrange] at h
    cases h
  · rw [if_neg hrange] at h
    have hrel : o.addrRel < 0x20000 := by
      split at hrange <;> omega
    by_cases hneg : o.addrRel < 0
    · rw [if_pos hneg] at h
      cases h
    · rw [if_neg hneg] at h
      cases h
      refine (Nat.mod_le _ _).trans_lt ?_
      unfold CTX_OFFSET STACK_OFFSET MEM_OFFSET
      split <;> split <;> split <;> omega

/-- The accesses of a run of the main executor. -/
structure MainAccesses (n : ℕ) (input : List MemoryAccess) : Prop where
  order : input.Pairwise fun a b => a.pc < b.pc
  pc_lt : ∀ a ∈ input, a.pc < n
  address_lt : ∀ a ∈ input, a.address < 2 ^ 64
  reads : ∀ pre a post, input = pre ++ a :: post → a.bIsWrite = false →
    a.fe = (latestWrite a.address pre).getD 0

theorem mainAccesses_spec {steps : List (Option MemoryOp)} {input : List MemoryAccess}
    (h : mainAccesses steps = .ok input) : MainAccesses steps.length input := by
  unfold mainAccesses at h
  cases hrun : MemoryContext.run 0 steps {} with
  | error e =>
    rw [hrun] at h
    cases h
  | ok ctx =>
    rw [hrun] at h
    cases h
    have hrec := MemoryContext.run_recorded recorded_new hrun
    rw [Nat.zero_add] at hrec
    exact ⟨hrec.order, fun a ha => (hrec.lt a ha).1, fun a ha => (hrec.lt a ha).2, hrec.reads⟩

/-- At most one access a step. -/
theorem MainAccesses.length_le {n : ℕ} {input : List MemoryAccess} (h : MainAccesses n input) :
    input.length ≤ n := by
  have hmap : (input.map (·.pc)).Pairwise (· < ·) := List.pairwise_map.mpr h.order
  have hsub : input.map (·.pc) ⊆ List.range n := by
    intro pc hpc
    obtain ⟨a, ha, rfl⟩ := List.mem_map.mp hpc
    exact List.mem_range.mpr (h.pc_lt a ha)
  have hlen := (List.subperm_of_subset (hmap.imp Nat.ne_of_lt) hsub).length_le
  rwa [List.length_map, List.length_range] at hlen

/-! ## The accesses in the order of the executor -/

namespace MemoryExecutor

/-- `MemoryAccessCompare`, as an order. -/
def Before (a b : MemoryAccess) : Prop :=
  a.address < b.address ∨ a.address = b.address ∧ a.pc < b.pc

theorem lt_iff {a b : MemoryAccess} : lt a b = true ↔ Before a b := by
  unfold lt Before
  split
  · rename_i h
    rw [decide_eq_true_iff]
    omega
  · rename_i h
    rw [decide_eq_true_iff]
    omega

theorem Before.trans {a b c : MemoryAccess} (hab : Before a b) (hbc : Before b c) : Before a c := by
  unfold Before at *
  omega

theorem before_of_not {a b : MemoryAccess} (hab : ¬Before a b) (hpc : a.pc ≠ b.pc) : Before b a := by
  unfold Before at *
  omega

theorem insert_spec {a : MemoryAccess} {map : List MemoryAccess} (hmap : map.Pairwise Before)
    (ha : ∀ b ∈ map, a.pc ≠ b.pc) :
    (insert a map).Perm (a :: map) ∧ (insert a map).Pairwise Before := by
  induction map with
  | nil => exact ⟨.refl _, List.pairwise_singleton _ _⟩
  | cons b map ih =>
    obtain ⟨hb, hmap'⟩ := List.pairwise_cons.mp hmap
    obtain ⟨hperm, hpair⟩ := ih hmap' fun c hc => ha c (List.mem_cons_of_mem b hc)
    unfold insert
    by_cases hab : Before a b
    · rw [if_pos (lt_iff.mpr hab)]
      refine ⟨.refl _, List.pairwise_cons.mpr ⟨fun c hc => ?_, hmap⟩⟩
      rcases List.mem_cons.mp hc with rfl | hc
      · exact hab
      · exact hab.trans (hb c hc)
    · have hba := before_of_not hab (ha b List.mem_cons_self)
      rw [if_neg (mt lt_iff.mp hab), if_pos (lt_iff.mpr hba)]
      refine ⟨(hperm.cons b).trans (.swap a b map), List.pairwise_cons.mpr ⟨fun c hc => ?_, hpair⟩⟩
      rcases List.mem_cons.mp (hperm.mem_iff.mp hc) with rfl | hc
      · exact hba
      · exact hb c hc

/-- No access is lost or repeated, since no two of them have one step. -/
theorem reorder_spec {input : List MemoryAccess} (h : input.Pairwise fun a b => a.pc < b.pc) :
    (reorder input).Perm input ∧ (reorder input).Pairwise Before := by
  unfold reorder
  induction input using List.reverseRecOn with
  | nil => exact ⟨.refl _, .nil⟩
  | append_singleton input a ih =>
    obtain ⟨hinput, -, ha⟩ := List.pairwise_append.mp h
    obtain ⟨hperm, hpair⟩ := ih hinput
    rw [List.foldl_append, List.foldl_cons, List.foldl_nil]
    obtain ⟨hperm', hpair'⟩ := insert_spec (a := a) hpair fun b hb =>
      (ha b (hperm.mem_iff.mp hb) a List.mem_cons_self).ne'
    exact ⟨hperm'.trans ((hperm.cons a).trans (List.perm_append_singleton a input).symm), hpair'⟩

/-- A read in its place in the new order still has the value of the latest write before it. -/
theorem read_reorder {n : ℕ} {input : List MemoryAccess} (h : MainAccesses n input)
    {pre post : List MemoryAccess} {a : MemoryAccess} (heq : reorder input = pre ++ a :: post)
    (hread : a.bIsWrite = false) : a.fe = (latestWrite a.address pre).getD 0 := by
  obtain ⟨hperm, hpair⟩ := reorder_spec h.order
  have hmem : a ∈ input := hperm.mem_iff.mp (by rw [heq]; simp)
  obtain ⟨pre', post', hinput⟩ := List.append_of_mem hmem
  rw [heq] at hperm hpair
  have horder := h.order
  rw [hinput] at hperm horder
  have hlatest := latest_eq MemoryAccess.written horder hpair hperm
  rw [h.reads pre' a post' hinput hread]
  exact congrArg (fun w : Option MemWord => w.getD 0) hlatest.symm

end MemoryExecutor

end ZkevmProver
