import ZkevmProver.HashDB64.SubStatePath

/-!
# Runs of `set` and `get` in one batch

1. The path to a root, and the calls of a batch
2. One call, in the state manager
3. What a call keeps: `step_spec`
4. Runs
-/

namespace ZkevmProver

open Transitions

/-! ## The path to a root, and the calls of a batch -/

/-- A call of `set` that was made. -/
structure SetCall where
  oldRoot : Fea
  newRoot : Fea
  key : Fea
  value : ℤ

/-- The values written on the path of sub-states to a root, the last one first, from the calls of
`set`, the last one first. -/
def pathTo : List SetCall → Fea → WriteLog
  | [], _ => []
  | c :: older, root =>
    if c.newRoot = root then (c.key, c.value) :: pathTo older c.oldRoot else pathTo older root

/-- The value of a key in the database under a root.  The tree of root zero is empty. -/
def Database64.value {σ : Type} (db : Database64 σ) (w : σ) (root key : Fea) : Except ZkResult ℤ :=
  let notFound := (db.readLevel w key).map fun _ => 0
  if root = 0 then notFound
  else
    match db.readKV w root key with
    | .ok (value, _) => .ok value
    | .error .dbKeyNotFound => notFound
    | .error zkr => .error zkr

inductive BatchOp where
  | set (block tx : ℕ) (oldRoot key : Fea) (value : ℤ) (p : Persistence)
  /-- `setOldStateRoot`, without a value -/
  | setStateRoot (block tx : ℕ) (oldRoot : Fea) (p : Persistence)
  | get (root key : Fea)
  | finishTx (stateRoot : Fea) (p : Persistence)

/-- A batch between two calls. -/
structure BatchSession where
  s : StateManager64
  /-- The calls of `set` so far, the last one first. -/
  sets : List SetCall
  /-- The current root. -/
  root : Fea

namespace BatchSession

section

variable {σ : Type} (db : Database64 σ) (w : σ) (purge : Bool) (batchUUID : BatchUUID)
  (startRoot : Fea) (t : BatchSession)

/-- A call; `none` where it does not return. -/
def step : BatchOp → Option BatchSession
  | .set block tx oldRoot key value p =>
    (t.s.set db w batchUUID block tx oldRoot key value p).toOption.map fun r =>
      ⟨r.2, ⟨oldRoot, r.1.newRoot, key, value⟩ :: t.sets, r.1.newRoot⟩
  | .setStateRoot block tx oldRoot p =>
    (t.s.setStateRoot batchUUID block tx oldRoot true p).toOption.map fun r =>
      { t with s := r.2, root := oldRoot }
  | .get root key => (t.s.get db w batchUUID root key).toOption.map fun _ => t
  | .finishTx stateRoot p =>
    (t.s.finishTx purge batchUUID stateRoot p).toOption.map fun r => { t with s := r.2 }

/-- The batch, which is new when there is none. -/
def batch : BatchState64 := (t.s.state.lookup batchUUID).getD {}

/-- The sub-states of the transaction that come after a root hold exactly what was written on the
path from this root to the current one, and the values of each key among them read the same in both
directions. -/
def Reverts (block tx : ℕ) (oldRoot : Fea) (p : Persistence) : Prop :=
  let written := (t.batch batchUUID).extracted block tx oldRoot p
  pathTo t.sets t.root = written.reverse ++ pathTo t.sets oldRoot ∧
    WriteLog.SameStacks written written.reverse

/-- The condition on a call. -/
def KeepsPath : BatchOp → Prop
  | .set block tx oldRoot _ _ p =>
    t.Reverts batchUUID block tx oldRoot p ∧ (pathTo t.sets oldRoot).length < 2 ^ 31
  | .setStateRoot block tx oldRoot p => t.Reverts batchUUID block tx oldRoot p
  | .get root key => root = t.root ∧
      (t.batch batchUUID).keyValueTree.tree.Clear (mixKey key.toKeyWords) ∧
      ((pathTo t.sets root).last key = none → t.s.lastConsolidatedStateRoot = startRoot)
  | .finishTx _ _ => True

/-- What a `get` at the current root is to return. -/
def answer (key : Fea) : Except ZkResult ℤ :=
  match (pathTo t.sets t.root).last key with
  | some value => .ok value
  | none => db.value w startRoot key

end

/-! ## One call, in the state manager -/

variable {σ : Type} {db : Database64 σ} {w : σ} {purge : Bool} {batchUUID : BatchUUID}
  {startRoot : Fea} {t t' : BatchSession} {s : StateManager64} {b b' : BatchState64}
  {block tx : ℕ} {oldRoot stateRoot key : Fea} {value : ℤ} {p : Persistence} {old : Bool}

theorem withBatch_eq {zkr : Except ZkResult Unit}
    {r : Except Halt (Except ZkResult Unit × BatchState64)} (h : r = .ok (zkr, b)) :
    ∃ s', s.withBatch batchUUID r = .ok (zkr, s') ∧ s'.state.lookup batchUUID = some b := by
  rw [h]
  exact ⟨_, rfl, AList.lookup_insert _⟩

theorem setStateRoot_eq {zkr : Except ZkResult Unit} (hold : old ∨ s.state.lookup batchUUID ≠ none)
    (h : ((s.state.lookup batchUUID).getD {}).setStateRoot block tx stateRoot old p = .ok (zkr, b)) :
    ∃ s', s.setStateRoot batchUUID block tx stateRoot old p = .ok (zkr, s') ∧
      s'.state.lookup batchUUID = some b := by
  unfold StateManager64.setStateRoot
  rw [if_neg fun hn => by rcases hold with hold | hold <;> simp_all]
  unfold StateManager64.ensureBatch
  cases hb : s.state.lookup batchUUID with
  | none =>
    rw [hb, Option.getD_none] at h
    exact withBatch_eq h
  | some b₀ =>
    rw [hb, Option.getD_some] at h
    exact withBatch_eq h

/-! ## What a call keeps -/

/-- The tree holds what was written on the path to the current root, which is nothing as long as there
is no batch. -/
structure Inv (batchUUID : BatchUUID) (t : BatchSession) : Prop where
  sound : (t.batch batchUUID).Sound
  holds : (t.batch batchUUID).keyValueTree.Holds (pathTo t.sets t.root)
  no_path : t.s.state.lookup batchUUID = none → pathTo t.sets t.root = []

theorem Inv.of_lookup (hb : t.s.state.lookup batchUUID = some b) (hsound : b.Sound)
    (hlog : b.keyValueTree.Holds (pathTo t.sets t.root)) : t.Inv batchUUID := by
  have hbatch : t.batch batchUUID = b := by rw [batch, hb, Option.getD_some]
  exact ⟨hbatch ▸ hsound, hbatch ▸ hlog, fun hnone => by rw [hb] at hnone; cases hnone⟩

/-- A call of `set` leaves the path to its new root in the tree. -/
theorem set_spec (db : Database64 σ) (w : σ) (h : t.Inv batchUUID) (hrev : t.Reverts batchUUID block tx oldRoot p)
    (hlen : (pathTo t.sets oldRoot).length < 2 ^ 31) (key : Fea) (value : ℤ) :
    ∃ r s' b', t.s.set db w batchUUID block tx oldRoot key value p = .ok (r, s') ∧
      s'.state.lookup batchUUID = some b' ∧ b'.Sound ∧
      b'.keyValueTree.Holds ((key, value) :: pathTo t.sets oldRoot) := by
  obtain ⟨hsound, hlog, -⟩ := h
  obtain ⟨hpath, hstacks⟩ := hrev
  rw [hpath] at hlog
  obtain ⟨zkr, b₁, hold, hlog₁, hsound₁, hready⟩ :=
    BatchState64.setStateRoot_old_spec hsound hlog hstacks
  obtain ⟨s₁, hs₁, hb₁⟩ := setStateRoot_eq (Or.inl rfl) hold
  obtain ⟨level, b₂, hwrite, hlog₂, hsound₂⟩ :=
    BatchState64.write_spec hsound₁ hready hlog₁ hlen key value
  obtain ⟨s₂, hs₂, hb₂⟩ : ∃ s₂, s₁.write batchUUID block tx key value p = .ok (.ok level, s₂) ∧
      s₂.state.lookup batchUUID = some b₂ := by
    refine ⟨s₁.setBatch batchUUID b₂, ?_, AList.lookup_insert _⟩
    simp only [StateManager64.write, hb₁, hwrite]
    rfl
  obtain ⟨zkr', b₃, hnew, htree, hsound₃⟩ : ∃ zkr' b₃,
      b₂.setStateRoot block tx s₂.getVirtualStateRoot.2 false p = .ok (zkr', b₃) ∧
        b₃.keyValueTree = b₂.keyValueTree ∧ b₃.Sound := BatchState64.setStateRoot_new_spec hsound₂
  have hb₂' : s₂.getVirtualStateRoot.1.state.lookup batchUUID = some b₂ := hb₂
  have hsome : s₂.getVirtualStateRoot.1.state.lookup batchUUID ≠ none := by
    rw [hb₂']
    exact Option.some_ne_none b₂
  obtain ⟨s₃, hs₃, hb₃⟩ := setStateRoot_eq (Or.inr hsome) (by rw [hb₂']; exact hnew)
  have hset : ∃ r, t.s.set db w batchUUID block tx oldRoot key value p = .ok (r, s₃) := by
    unfold StateManager64.set
    simp only [hs₁, hs₂, hs₃, bind, Except.bind]
    exact ⟨_, rfl⟩
  obtain ⟨r, hr⟩ := hset
  exact ⟨r, s₃, b₃, hr, hb₃, hsound₃, htree ▸ hlog₂⟩

/-- A call with an old root leaves the path to this root in the tree. -/
theorem setStateRoot_spec (h : t.Inv batchUUID) (hrev : t.Reverts batchUUID block tx oldRoot p) :
    ∃ zkr s' b', t.s.setStateRoot batchUUID block tx oldRoot true p = .ok (zkr, s') ∧
      s'.state.lookup batchUUID = some b' ∧ b'.Sound ∧
      b'.keyValueTree.Holds (pathTo t.sets oldRoot) := by
  obtain ⟨hsound, hlog, -⟩ := h
  obtain ⟨hpath, hstacks⟩ := hrev
  rw [hpath] at hlog
  obtain ⟨zkr, b₁, hold, hlog₁, hsound₁, -⟩ :=
    BatchState64.setStateRoot_old_spec hsound hlog hstacks
  obtain ⟨s₁, hs₁, hb₁⟩ := setStateRoot_eq (Or.inl rfl) hold
  exact ⟨zkr, s₁, b₁, hs₁, hb₁, hsound₁, hlog₁⟩

theorem finishTx_batch (b : BatchState64) (purge : Bool) (stateRoot : Fea) (p : Persistence)
    (h : b.Sound) : (b.finishTx purge stateRoot p).2.Sound ∧
      (b.finishTx purge stateRoot p).2.keyValueTree = b.keyValueTree := by
  unfold BatchState64.finishTx
  split
  · exact ⟨h, rfl⟩
  · exact ⟨h.modifyPersistence ((h _ _ _).finish purge stateRoot), rfl⟩

/-- The end of a transaction leaves the tree as it is. -/
theorem finishTx_spec (h : t.Inv batchUUID) (purge : Bool) (stateRoot : Fea) (p : Persistence) :
    ∃ zkr s', t.s.finishTx purge batchUUID stateRoot p = .ok (zkr, s') ∧
      Inv batchUUID { t with s := s' } := by
  unfold StateManager64.finishTx
  cases hb : t.s.state.lookup batchUUID with
  | none => exact ⟨_, t.s, rfl, h⟩
  | some b =>
    have hbatch : t.batch batchUUID = b := by rw [batch, hb, Option.getD_some]
    obtain ⟨hsound, htree⟩ := finishTx_batch b purge stateRoot p (hbatch ▸ h.sound)
    refine ⟨_, t.s.setBatch batchUUID (b.finishTx purge stateRoot p).2, rfl,
      .of_lookup (AList.lookup_insert _) hsound ?_⟩
    rw [htree, ← hbatch]
    exact h.holds

/-- A key without a value in the batch is read from the database. -/
theorem get_of_missing (db : Database64 σ) (w : σ) (root : Fea) {level : ℕ}
    (h : s.read batchUUID key = .ok (none, level)) :
    ∃ r, s.get db w batchUUID root key = .ok r ∧
      r.map SmtGetResult64.value = db.value w s.lastConsolidatedStateRoot key := by
  unfold StateManager64.get Database64.value
  rw [h]
  simp only [bind, Except.bind, pure, Except.pure]
  split_ifs with hroot
  · cases db.readLevel w key <;> exact ⟨_, rfl, rfl⟩
  · cases db.readKV w s.lastConsolidatedStateRoot key with
    | ok r => exact ⟨_, rfl, rfl⟩
    | error zkr =>
      cases zkr with
      | dbKeyNotFound => cases db.readLevel w key <;> exact ⟨_, rfl, rfl⟩
      | _ => exact ⟨_, rfl, rfl⟩

/-- What a `get` at the current root returns. -/
theorem get_spec (db : Database64 σ) (w : σ) (startRoot : Fea) (h : t.Inv batchUUID) (key : Fea) :
    ∃ r, t.s.get db w batchUUID t.root key = .ok r ∧
      (t.KeepsPath batchUUID startRoot (.get t.root key) →
        r.map SmtGetResult64.value = t.answer db w startRoot key) := by
  obtain ⟨found, level, hread, hfound⟩ : ∃ found level,
      t.s.read batchUUID key = .ok (found, level) ∧
        ((t.batch batchUUID).keyValueTree.tree.Clear (mixKey key.toKeyWords) →
          found = (pathTo t.sets t.root).last key) := by
    unfold StateManager64.read
    cases hb : t.s.state.lookup batchUUID with
    | none => exact ⟨none, 0, rfl, fun _ => by rw [h.no_path hb]; rfl⟩
    | some b =>
      have hbatch : t.batch batchUUID = b := by rw [batch, hb, Option.getD_some]
      obtain ⟨r, hr, hvalue⟩ := h.holds.read key
      rw [hbatch] at hr hvalue ⊢
      exact ⟨r.value, r.level, by simp only [hr], hvalue⟩
  cases found with
  | some value =>
    unfold StateManager64.get
    rw [hread]
    refine ⟨_, rfl, fun hkeeps => ?_⟩
    rw [answer, ← hfound hkeeps.2.1]
    rfl
  | none =>
    obtain ⟨r, hget, hr⟩ := get_of_missing db w t.root hread
    refine ⟨r, hget, fun hkeeps => ?_⟩
    obtain ⟨-, hclear, hstart⟩ := hkeeps
    have hlast := (hfound hclear).symm
    rw [hr, hstart hlast, answer, hlast]

/-- Every call that meets its condition returns, and keeps the path in the tree. -/
theorem step_spec (db : Database64 σ) (w : σ) (purge : Bool) (h : t.Inv batchUUID) {op : BatchOp}
    (hop : t.KeepsPath batchUUID startRoot op) :
    ∃ t', t.step db w purge batchUUID op = some t' ∧ t'.Inv batchUUID := by
  cases op with
  | set block tx oldRoot key value p =>
    obtain ⟨r, s', b', hset, hb', hsound, hlog⟩ := set_spec db w h hop.1 hop.2 key value
    refine ⟨_, by rw [step, hset]; rfl, .of_lookup hb' hsound ?_⟩
    rw [pathTo, if_pos rfl]
    exact hlog
  | setStateRoot block tx oldRoot p =>
    obtain ⟨zkr, s', b', hset, hb', hsound, hlog⟩ := setStateRoot_spec h hop
    exact ⟨_, by rw [step, hset]; rfl, .of_lookup hb' hsound hlog⟩
  | get root key =>
    obtain ⟨r, hget, -⟩ := get_spec db w startRoot h key
    obtain ⟨rfl, -⟩ := hop
    exact ⟨t, by rw [step, hget]; rfl, h⟩
  | finishTx stateRoot p =>
    obtain ⟨zkr, s', hfinish, hinv⟩ := finishTx_spec h purge stateRoot p
    exact ⟨_, by rw [step, hfinish]; rfl, hinv⟩

/-! ## Runs -/

end BatchSession

end ZkevmProver
