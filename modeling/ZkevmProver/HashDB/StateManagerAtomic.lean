import ZkevmProver.HashDB.StateManagerFlush

/-!
# When a flush is all or nothing

A flush writes block by block, and checks the roots of the transactions of a block right before it writes it.
So a check that fails leaves the blocks before it in the database, and the batch in the state manager.

  1. What is loaded, and what fails.
  2. Flushing a block.
  3. Flushing a batch.
  4. All or nothing.
-/

namespace ZkevmProver

open Effects TxPersistenceState

variable {purge persistent : Bool} {b : BatchState} {bl : BlockState} {t : TxState} {p : Persistence}

/-! ## What is loaded, and what fails -/

namespace TxPersistenceState

/-- A check of the roots fails. -/
def Fails (ps : TxPersistenceState) : Prop :=
  ps.subState ≠ [] ∧ ∃ e ps', ps.findValid ps.subState.length = some (.error e, ps')

/-- What is about to be written after the sub-states of a transaction. -/
def loaded (purge : Bool) (ps : TxPersistenceState) (d : FlushData) : FlushData :=
  if ps.subState = [] then d
  else
    match ps.findValid ps.subState.length with
    | some (_, ps') => ps'.subState.foldl (FlushData.load purge ps'.newStateRoot) d
    | none => d

end TxPersistenceState

/-- A check of the roots fails in a stored persistence. -/
def TxState.Fails (t : TxState) : Prop := ∃ p, p.isStored = true ∧ (t.persistence p).Fails

def TxState.loaded (purge : Bool) (t : TxState) (d : FlushData) : FlushData :=
  (t.persistence .database).loaded purge ((t.persistence .cache).loaded purge d)

namespace BlockState

def Fails (bl : BlockState) : Prop := ∃ t ∈ bl.txState, t.Fails

/-- The nodes that are written of a block. -/
def nodes (purge : Bool) (bl : BlockState) : NodeTable :=
  (bl.txState.foldl (fun d t => TxState.loaded purge t d) {}).dbWriteNodes

end BlockState

namespace FlushData

variable {d d' : FlushData}

theorem load_nodes (root : Option Fea) (ss : TxSubState) (h : d.dbWriteNodes = d'.dbWriteNodes) :
    (d.load purge root ss).dbWriteNodes = (d'.load purge root ss).dbWriteNodes := by
  unfold FlushData.load insert erase
  split
  · exact h
  · cases purge with
    | false => simp [h]
    | true => simp [h]

theorem loaded_nodes (ps : TxPersistenceState) (h : d.dbWriteNodes = d'.dbWriteNodes) :
    (ps.loaded purge d).dbWriteNodes = (ps.loaded purge d').dbWriteNodes := by
  unfold TxPersistenceState.loaded
  split
  · exact h
  · split
    · rename_i ps' _
      induction ps'.subState generalizing d d' with
      | nil => exact h
      | cons ss l ih => exact ih (load_nodes _ _ h)
    · exact h

theorem foldl_loaded_nodes (txs : List TxState) (h : d.dbWriteNodes = d'.dbWriteNodes) :
    (txs.foldl (fun d t => t.loaded purge d) d).dbWriteNodes =
      (txs.foldl (fun d t => t.loaded purge d) d').dbWriteNodes := by
  induction txs generalizing d d' with
  | nil => exact h
  | cons t txs ih => exact ih (loaded_nodes _ (loaded_nodes _ h))

end FlushData

/-! ## Flushing a block -/

def FlushOp.IsSetProgram (op : FlushOp) : Prop := ∃ key data persistent, op = .setProgram key data persistent

namespace TxState

variable {d : FlushData}

/-- What the loop over persistences leaves of a transaction. -/
structure Flushed (purge : Bool) (l : List Persistence) (t : TxState) (d : FlushData)
    (res : Except Fault Unit × TxState × FlushData) : Prop where
  all : res.2.1.All Indexed
  other : ∀ q, q ∉ l → res.2.1.persistence q = t.persistence q
  passes : res.1 = .ok () → (∀ p ∈ l, p.isStored = true → ¬(t.persistence p).Fails) ∧
    res.2.2 = l.foldl (fun d p => if p.isStored then (t.persistence p).loaded purge d else d) d
  fails : res.1 ≠ .ok () → (∃ p ∈ l, p.isStored = true ∧ (t.persistence p).Fails) ∧ res.2.1.Fails

theorem ensures_flushPersistence (h : t.All Indexed) (d : FlushData) (p : Persistence) :
    (t.flushPersistence purge d p).Ensures FlushOp.IsSetProgram (Flushed purge [p] t d) := by
  have hother (f : TxPersistenceState → TxPersistenceState) :
      ∀ q, q ∉ [p] → (t.modify p f).persistence q = t.persistence q := by
    intro q hq
    rw [persistence_modify, if_neg (fun heq => hq (List.mem_singleton.mpr heq))]
  unfold TxState.flushPersistence
  by_cases hp : p.isStored = true
  · rw [if_neg (by rw [hp]; decide)]
    dsimp only
    by_cases hnil : (t.persistence p).subState = []
    · rw [if_pos hnil]
      have hpass : ∀ q ∈ [p], q.isStored = true → ¬(t.persistence q).Fails := by
        intro q hq _ hfails
        rw [List.mem_singleton.mp hq] at hfails
        exact hfails.1 hnil
      refine ensures_pure ⟨h, fun _ _ => rfl, fun _ => ⟨hpass, ?_⟩, fun hne => absurd rfl hne⟩
      simp [hp, TxPersistenceState.loaded, hnil]
    · rw [if_neg hnil]
      obtain ⟨r, ps', hends, hlinks, hr, _, _⟩ := (h p).findValid_ends hnil
      have hfind := hends _ le_rfl
      have hall : (t.modify p fun _ => ps').All Indexed := h.modify fun hidx => hlinks.indexed hidx
      rcases hr with rfl | rfl
      · rw [hfind]
        refine (ensures_callAll ?_).bind fun _ _ => ensures_pure ⟨hall, hother fun _ => ps', fun _ => ⟨?_, ?_⟩,
          fun hne => absurd rfl hne⟩
        · intro op hop
          obtain ⟨e, _, rfl⟩ := List.mem_map.mp hop
          exact ⟨_, _, _, rfl⟩
        · rintro q hq _ ⟨_, e, ps'', hfail⟩
          rw [List.mem_singleton.mp hq, hfind] at hfail
          cases hfail
        · simp [hp, TxPersistenceState.loaded, hnil, hfind]
      · rw [hfind]
        refine ensures_pure ⟨hall, hother fun _ => ps', fun hok => (by cases hok), fun _ =>
          ⟨⟨p, List.mem_singleton_self p, hp, hnil, _, _, hfind⟩, p, hp, ?_⟩⟩
        rw [persistence_modify, if_pos rfl]
        have hne' : ps'.subState ≠ [] := by
          intro hnil'
          refine hnil (List.length_eq_zero_iff.mp ?_)
          rw [← hlinks.length_eq, hnil', List.length_nil]
        obtain ⟨ps'', hfail⟩ := hlinks.findValid_error hfind
        exact ⟨hne', _, ps'', hfail⟩
  · rw [if_pos (by simp [hp])]
    have hall : (t.modify p fun ps => { ps with subState := [], currentSubState := 0 }).All Indexed :=
      h.modify fun _ => indexed_nil rfl rfl
    refine ensures_pure ⟨hall, hother fun ps => { ps with subState := [], currentSubState := 0 },
      fun _ => ⟨?_, ?_⟩, fun hne => absurd rfl hne⟩
    · intro q hq hst
      rw [List.mem_singleton.mp hq] at hst
      exact absurd hst hp
    · simp [hp]

theorem ensures_flushEach (purge : Bool) {l : List Persistence} (hl : l.Nodup) (h : t.All Indexed) (d : FlushData) :
    (flushEach purge l t d).Ensures FlushOp.IsSetProgram (Flushed purge l t d) := by
  induction l generalizing t d with
  | nil =>
    refine ensures_pure ⟨h, fun _ _ => rfl, fun _ => ⟨fun p hp => absurd hp List.not_mem_nil, rfl⟩,
      fun hne => absurd rfl hne⟩
  | cons p l ih =>
    obtain ⟨hp, hl⟩ := List.nodup_cons.mp hl
    refine (ensures_flushPersistence h d p).bind fun res hres => ?_
    obtain ⟨r, t', d'⟩ := res
    cases r with
    | error e =>
      obtain ⟨⟨q, hq, hst, hfails⟩, hfails'⟩ := hres.fails (by simp)
      refine ensures_pure ⟨hres.all, fun q hq => hres.other q fun hmem => hq ?_, fun hok => (by cases hok),
        fun _ => ⟨⟨q, ?_, hst, hfails⟩, hfails'⟩⟩
      · rw [List.mem_singleton.mp hmem]
        exact List.mem_cons_self
      · rw [List.mem_singleton.mp hq]
        exact List.mem_cons_self
    | ok u =>
      obtain ⟨hpass, rfl⟩ := hres.passes rfl
      have hsame : ∀ q ∈ l, t'.persistence q = t.persistence q := fun q hq =>
        hres.other q fun hmem => hp (List.mem_singleton.mp hmem ▸ hq)
      obtain ⟨ops, res', hplan, hops, hres'⟩ := ih hl hres.all
        ([p].foldl (fun d p => if p.isStored then (t.persistence p).loaded purge d else d) d)
      refine ⟨ops, res', hplan, hops, hres'.all, fun q hq => ?_, fun hok => ⟨fun q hq hst => ?_, ?_⟩,
        fun hne => ⟨?_, (hres'.fails hne).2⟩⟩
      · rw [hres'.other q fun hmem => hq (List.mem_cons_of_mem _ hmem), hres.other q fun hmem => hq ?_]
        rw [List.mem_singleton.mp hmem]
        exact List.mem_cons_self
      · rcases List.mem_cons.mp hq with rfl | hq
        · exact hpass q (List.mem_singleton_self q) hst
        · rw [← hsame q hq]
          exact (hres'.passes hok).1 q hq hst
      · rw [(hres'.passes hok).2, List.foldl_cons]
        refine List.foldl_ext _ _ _ fun d q hq => ?_
        rw [hsame q hq]
      · obtain ⟨q, hq, hst, hfails⟩ := (hres'.fails hne).1
        rw [hsame q hq] at hfails
        exact ⟨q, List.mem_cons_of_mem _ hq, hst, hfails⟩

theorem ensures_flush (h : t.All Indexed) (d : FlushData) :
    (t.flush purge d).Ensures FlushOp.IsSetProgram fun res => res.2.1.All Indexed ∧
      (res.1 = .ok () → ¬t.Fails ∧ res.2.2 = t.loaded purge d) ∧
      (res.1 ≠ .ok () → t.Fails ∧ res.2.1.Fails) := by
  obtain ⟨ops, res, hplan, hops, hres⟩ :=
    ensures_flushEach purge (by decide : [Persistence.cache, .database, .temporary, .temporaryHash].Nodup) h d
  refine ⟨ops, res, hplan, hops, hres.all, fun hok => ⟨?_, (hres.passes hok).2⟩, fun hne => ⟨?_, ?_⟩⟩
  · rintro ⟨p, hst, hfails⟩
    exact (hres.passes hok).1 p (by cases p <;> decide) hst hfails
  · obtain ⟨p, _, hst, hfails⟩ := (hres.fails hne).1
    exact ⟨p, hst, hfails⟩
  · exact (hres.fails hne).2

end TxState

namespace BlockState

theorem ensures_flushTxs (purge : Bool) {txs : List TxState} (h : ∀ t ∈ txs, t.All Indexed) (d : FlushData) :
    (flushTxs purge txs d).Ensures FlushOp.IsSetProgram fun res => (∀ t ∈ res.2.1, t.All Indexed) ∧
      (res.1 = .ok () → (∀ t ∈ txs, ¬t.Fails) ∧
        res.2.2 = txs.foldl (fun d t => TxState.loaded purge t d) d) ∧
      (res.1 ≠ .ok () → (∃ t ∈ txs, t.Fails) ∧ ∃ t ∈ res.2.1, t.Fails) := by
  induction txs generalizing d with
  | nil =>
    refine ensures_pure ⟨h, fun _ => ⟨fun t ht => absurd ht List.not_mem_nil, rfl⟩, fun hne => absurd rfl hne⟩
  | cons t txs ih =>
    have htxs : ∀ t' ∈ txs, t'.All Indexed := fun t' ht' => h t' (List.mem_cons_of_mem _ ht')
    refine (TxState.ensures_flush (h t List.mem_cons_self) d).bind fun res hres => ?_
    obtain ⟨r, t', d'⟩ := res
    obtain ⟨hall, hpass, hfail⟩ := hres
    cases r with
    | error e =>
      obtain ⟨hfails, hfails'⟩ := hfail (by simp)
      refine ensures_pure ⟨?_, fun hok => (by cases hok), fun _ => ⟨⟨t, List.mem_cons_self, hfails⟩,
        t', List.mem_cons_self, hfails'⟩⟩
      exact List.forall_mem_cons.mpr ⟨hall, htxs⟩
    | ok u =>
      obtain ⟨hno, hd⟩ := hpass rfl
      refine (ih htxs d').bind fun res' hres' => ?_
      obtain ⟨hall', hpass', hfail'⟩ := hres'
      refine ensures_pure ⟨List.forall_mem_cons.mpr ⟨hall, hall'⟩, fun hok => ⟨?_, ?_⟩, fun hne => ?_⟩
      · exact List.forall_mem_cons.mpr ⟨hno, (hpass' hok).1⟩
      · rw [List.foldl_cons, ← hd]
        exact (hpass' hok).2
      · obtain ⟨⟨s, hs, hfails⟩, s', hs', hfails'⟩ := hfail' hne
        exact ⟨⟨s, List.mem_cons_of_mem _ hs, hfails⟩, s', List.mem_cons_of_mem _ hs', hfails'⟩

/-- The writes of a block. -/
def writes (purge persistent : Bool) (bl : BlockState) : List FlushOp :=
  (entries (bl.nodes purge)).map fun e => .write e.1 e.2 persistent

/-- A block whose checks pass is written. -/
theorem plan_flush_of_passes (purge persistent : Bool) (h : bl.All Indexed) (hno : ¬bl.Fails) (last : Option Fea) :
    ∃ ops txs last', (∀ op ∈ ops, op.IsSetProgram) ∧ (∀ t ∈ txs, t.All Indexed) ∧
      (bl.flush purge persistent last).plan =
        (ops ++ bl.writes purge persistent, .ok (.ok (), { bl with txState := txs }, last')) := by
  obtain ⟨ops, ⟨r, txs, d⟩, hplan, hops, hall, hpass, hfail⟩ :=
    ensures_flushTxs purge h { lastNewStateRoot := last }
  cases r with
  | error e => exact absurd (hfail (by simp)).1 hno
  | ok u =>
    obtain ⟨_, hd⟩ := hpass rfl
    dsimp only at hd
    have hnodes : d.dbWriteNodes = bl.nodes purge := by
      rw [hd]
      exact FlushData.foldl_loaded_nodes _ rfl
    refine ⟨ops, txs, d.lastNewStateRoot, hops, hall, ?_⟩
    unfold BlockState.flush
    rw [plan_bind_ok hplan]
    dsimp only
    rw [plan_bind_ok (plan_callAll _), hnodes]
    simp [BlockState.writes]

/-- Nothing is written of a block with a check that fails. -/
theorem ensures_flush_of_fails (purge persistent : Bool) (h : bl.All Indexed) (hfails : bl.Fails) (last : Option Fea) :
    (bl.flush purge persistent last).Ensures FlushOp.IsSetProgram fun res => res.1 ≠ .ok () ∧
      ∃ txs, res.2.1 = { bl with txState := txs } ∧ (∀ t ∈ txs, t.All Indexed) ∧ ∃ t ∈ txs, t.Fails := by
  obtain ⟨ops, ⟨r, txs, d⟩, hplan, hops, hall, hpass, hfail⟩ :=
    ensures_flushTxs purge h { lastNewStateRoot := last }
  cases r with
  | error e =>
    refine ⟨ops, (.error e, { bl with txState := txs }, d.lastNewStateRoot), ?_, hops, by simp, txs, rfl,
      hall, (hfail (by simp)).2⟩
    unfold BlockState.flush
    rw [plan_bind_ok hplan]
    simp
  | ok u =>
    obtain ⟨t, ht, hfails⟩ := hfails
    exact absurd hfails ((hpass rfl).1 t ht)

/-- A block writes a node exactly when it has one. -/
theorem exists_write_iff (purge persistent : Bool) : (∃ key node d, FlushOp.write key node d ∈ bl.writes purge persistent) ↔
    bl.nodes purge ≠ [] := by
  unfold BlockState.writes entries
  cases bl.nodes purge with
  | nil => simp
  | cons e l =>
    refine ⟨fun _ => List.cons_ne_nil _ _, fun _ => ⟨e.1, e.2, persistent, List.mem_map.mpr ⟨e, ?_, rfl⟩⟩⟩
    rw [List.eraseDupsBy_cons]
    exact List.mem_cons_self

end BlockState

/-! ## Flushing a batch -/

namespace FlushOp

theorem IsSetProgram.ne_write {op : FlushOp} (h : op.IsSetProgram) (key : Fea) (node : Node) (d : Bool) :
    op ≠ .write key node d := by
  obtain ⟨_, _, _, rfl⟩ := h
  simp

/-- Calls for programs and nodes. -/
def StoresNoRoot (op : FlushOp) : Prop := ∀ root, op ≠ .updateStateRoot root

theorem IsSetProgram.storesNoRoot {op : FlushOp} (h : op.IsSetProgram) : op.StoresNoRoot := by
  obtain ⟨_, _, _, rfl⟩ := h
  exact fun root => by simp

end FlushOp

theorem BlockState.storesNoRoot_writes : ∀ op ∈ bl.writes purge persistent, op.StoresNoRoot := by
  intro op hop root
  obtain ⟨_, _, rfl⟩ := List.mem_map.mp hop
  simp

namespace BatchState

/-- The blocks are the same but for their transactions. -/
def SameRoots (blocks blocks' : List BlockState) : Prop :=
  List.Forall₂ (fun bl bl' : BlockState => bl'.oldStateRoot = bl.oldStateRoot ∧
    bl'.currentStateRoot = bl.currentStateRoot) blocks blocks'

theorem sameRoots_refl (blocks : List BlockState) : SameRoots blocks blocks :=
  List.forall₂_same.mpr fun _ _ => ⟨rfl, rfl⟩

/-- All blocks are written when all checks pass. -/
theorem plan_flushBlocks_of_passes (purge persistent : Bool) {blocks : List BlockState}
    (h : ∀ bl ∈ blocks, bl.All Indexed) (hno : ∀ bl ∈ blocks, ¬bl.Fails) (last : Option Fea) :
    ∃ ops blocks' last', (flushBlocks purge persistent blocks last).plan = (ops, .ok (.ok (), blocks', last')) ∧
      ∀ key node d, FlushOp.write key node d ∈ ops ↔
        ∃ bl ∈ blocks, FlushOp.write key node d ∈ bl.writes purge persistent := by
  induction blocks generalizing last with
  | nil => exact ⟨[], [], last, rfl, fun key node d => by simp⟩
  | cons bl blocks ih =>
    obtain ⟨ops, txs, last', hops, _, hplan⟩ := BlockState.plan_flush_of_passes purge persistent
      (h bl List.mem_cons_self) (hno bl List.mem_cons_self) last
    obtain ⟨ops', blocks', last'', hplan', hwrites⟩ := ih (fun bl' hbl' => h bl' (List.mem_cons_of_mem _ hbl'))
      (fun bl' hbl' => hno bl' (List.mem_cons_of_mem _ hbl')) last'
    refine ⟨(ops ++ bl.writes purge persistent) ++ ops', { bl with txState := txs } :: blocks', last'', ?_,
      fun key node d => ?_⟩
    · unfold BatchState.flushBlocks
      rw [plan_bind_ok hplan]
      dsimp only
      rw [plan_bind_ok hplan']
      simp
    · have hprogram : FlushOp.write key node d ∉ ops := fun hop => (hops _ hop).ne_write key node d rfl
      rw [List.mem_append, List.mem_append, hwrites, List.exists_mem_cons_iff]
      simp [hprogram]

/-- A check that fails in a block ends the loop after the blocks before it are written. -/
theorem plan_flushBlocks_of_fails (purge persistent : Bool) {pre post : List BlockState} (h : ∀ x ∈ pre ++ bl :: post, x.All Indexed)
    (hno : ∀ x ∈ pre, ¬x.Fails) (hfails : bl.Fails) (last : Option Fea) :
    ∃ ops e blocks last', (flushBlocks purge persistent (pre ++ bl :: post) last).plan =
        (ops, .ok (.error e, blocks, last')) ∧
      (∀ op ∈ ops, op.StoresNoRoot) ∧
      ((∃ key node d, FlushOp.write key node d ∈ ops) ↔ ∃ x ∈ pre, x.nodes purge ≠ []) ∧
      SameRoots (pre ++ bl :: post) blocks ∧ (∀ x ∈ blocks, x.All Indexed) ∧ ∃ x ∈ blocks, x.Fails := by
  induction pre generalizing last with
  | nil =>
    rw [List.nil_append] at h
    obtain ⟨ops, ⟨r, _, last'⟩, hplan, hops, hr, txs, rfl, hall, t, ht, htfails⟩ :=
      BlockState.ensures_flush_of_fails purge persistent (h bl List.mem_cons_self)
        hfails last
    cases r with
    | ok u => exact absurd rfl hr
    | error e =>
      refine ⟨ops, e, { bl with txState := txs } :: post, last', ?_, fun op hop => (hops op hop).storesNoRoot,
        ?_, ?_, ?_, ?_⟩
      · rw [List.nil_append]
        unfold BatchState.flushBlocks
        rw [plan_bind_ok hplan]
        simp
      · constructor
        · rintro ⟨key, node, d, hop⟩
          exact absurd rfl ((hops _ hop).ne_write key node d)
        · rintro ⟨x, hx, _⟩
          exact absurd hx List.not_mem_nil
      · exact List.Forall₂.cons ⟨rfl, rfl⟩ (sameRoots_refl post)
      · exact List.forall_mem_cons.mpr ⟨hall, fun x hx => h x (List.mem_cons_of_mem _ hx)⟩
      · exact ⟨_, List.mem_cons_self, t, ht, htfails⟩
  | cons x pre ih =>
    obtain ⟨ops, txs, last', hops, hall, hplan⟩ := BlockState.plan_flush_of_passes purge persistent
      (h x List.mem_cons_self) (hno x List.mem_cons_self) last
    obtain ⟨ops', e, blocks, last'', hplan', hroot, hwrites, hsame, hall', y, hy, hyfails⟩ :=
      ih (fun y hy => h y (List.mem_cons_of_mem _ hy)) (fun y hy => hno y (List.mem_cons_of_mem _ hy)) last'
    refine ⟨(ops ++ x.writes purge persistent) ++ ops', e, { x with txState := txs } :: blocks, last'',
      ?_, ?_, ?_, ?_, ?_, y, List.mem_cons_of_mem _ hy, hyfails⟩
    · rw [List.cons_append]
      unfold BatchState.flushBlocks
      rw [plan_bind_ok hplan]
      dsimp only
      rw [plan_bind_ok hplan']
      simp
    · intro op hop
      rcases List.mem_append.mp hop with hop | hop
      · rcases List.mem_append.mp hop with hop | hop
        · exact (hops op hop).storesNoRoot
        · exact BlockState.storesNoRoot_writes op hop
      · exact hroot op hop
    · constructor
      · rintro ⟨key, node, d, hop⟩
        rcases List.mem_append.mp hop with hop | hop
        · rcases List.mem_append.mp hop with hop | hop
          · exact absurd rfl ((hops _ hop).ne_write key node d)
          · exact ⟨x, List.mem_cons_self, (BlockState.exists_write_iff _ _).mp ⟨key, node, d, hop⟩⟩
        · obtain ⟨y, hy, hnodes⟩ := hwrites.mp ⟨key, node, d, hop⟩
          exact ⟨y, List.mem_cons_of_mem _ hy, hnodes⟩
      · rintro ⟨y, hy, hnodes⟩
        rcases List.mem_cons.mp hy with rfl | hy
        · obtain ⟨key, node, d, hop⟩ := (BlockState.exists_write_iff purge persistent).mpr hnodes
          exact ⟨key, node, d, List.mem_append_left _ (List.mem_append_right _ hop)⟩
        · obtain ⟨key, node, d, hop⟩ := hwrites.mpr ⟨y, hy, hnodes⟩
          exact ⟨key, node, d, List.mem_append_right _ hop⟩
    · exact List.Forall₂.cons ⟨rfl, rfl⟩ hsame
    · exact List.forall_mem_cons.mpr ⟨hall, hall'⟩

theorem SameRoots.exists_mem {blocks blocks' : List BlockState} (h : SameRoots blocks blocks')
    {bl' : BlockState} (hbl' : bl' ∈ blocks') : ∃ bl ∈ blocks, bl'.oldStateRoot = bl.oldStateRoot ∧
      bl'.currentStateRoot = bl.currentStateRoot := by
  induction h with
  | nil => exact absurd hbl' List.not_mem_nil
  | cons hroots _ ih =>
    rcases List.mem_cons.mp hbl' with rfl | hbl'
    · exact ⟨_, List.mem_cons_self, hroots⟩
    · obtain ⟨bl, hbl, hroots⟩ := ih hbl'
      exact ⟨bl, List.mem_cons_of_mem _ hbl, hroots⟩

section Purge

variable {newStateRoot : Option Fea}

/-- A batch that the purge leaves as it is. -/
structure Purged (purge : Bool) (newStateRoot : Option Fea) (b : BatchState) : Prop where
  cancelled : ¬(purge = true ∧ some (newStateRoot.getD 0) = b.oldStateRoot)
  blocks : purge = true ∧ newStateRoot ≠ none ∧ b.oldStateRoot ≠ none →
    ∀ bl ∈ b.blockState, bl.currentStateRoot ≠ bl.oldStateRoot

theorem purgeBlocks_eq_of_not_cancelled (h : ¬(purge = true ∧ some (newStateRoot.getD 0) = b.oldStateRoot)) :
    b.purgeBlocks purge newStateRoot =
      if purge = true ∧ newStateRoot ≠ none ∧ b.oldStateRoot ≠ none then
        { b with blockState := b.blockState.filter fun bl => bl.currentStateRoot ≠ bl.oldStateRoot }
      else b := by
  unfold BatchState.purgeBlocks
  rw [if_neg h]

theorem Purged.purgeBlocks_eq (h : Purged purge newStateRoot b) : b.purgeBlocks purge newStateRoot = b := by
  rw [purgeBlocks_eq_of_not_cancelled h.cancelled]
  split
  · rename_i hfilter
    rw [List.filter_eq_self.mpr fun bl hbl => decide_eq_true (h.blocks hfilter bl hbl)]
  · rfl

/-- The purge is done once. -/
theorem purged_purgeBlocks (hne : (b.purgeBlocks purge newStateRoot).blockState ≠ []) :
    Purged purge newStateRoot (b.purgeBlocks purge newStateRoot) := by
  by_cases hc : purge = true ∧ some (newStateRoot.getD 0) = b.oldStateRoot
  · refine absurd ?_ hne
    unfold BatchState.purgeBlocks
    rw [if_pos hc]
    dsimp only
    split
    · rfl
    · rfl
  · rw [purgeBlocks_eq_of_not_cancelled hc]
    split
    · exact ⟨hc, fun _ bl hbl => of_decide_eq_true (List.mem_filter.mp hbl).2⟩
    · rename_i hfilter
      exact ⟨hc, fun hf => absurd hf hfilter⟩

theorem Purged.of_sameRoots (h : Purged purge newStateRoot b) {blocks : List BlockState}
    (hsame : SameRoots b.blockState blocks) : Purged purge newStateRoot { b with blockState := blocks } where
  cancelled := h.cancelled
  blocks hfilter bl hbl := by
    obtain ⟨bl', hbl', hold, hcurrent⟩ := hsame.exists_mem hbl
    rw [hold, hcurrent]
    exact h.blocks hfilter bl' hbl'

theorem All.purgeBlocks {P : TxPersistenceState → Prop} (h : b.All P) :
    (b.purgeBlocks purge newStateRoot).All P := by
  unfold BatchState.purgeBlocks
  dsimp only
  split
  · split
    · intro bl hbl
      rw [List.filter_nil] at hbl
      exact absurd hbl List.not_mem_nil
    · exact fun bl hbl => absurd hbl List.not_mem_nil
  · split
    · exact fun bl hbl => h bl (List.mem_of_mem_filter hbl)
    · exact h

end Purge

end BatchState

namespace StateManager

variable {s : Option BatchState} {newStateRoot : Option Fea}

/-- How a flush ends: as planned, or at a call of the database that fails, and then the batch is
deleted. -/
theorem flush_cases {ops : List FlushOp} {res : Except Fault Unit × Option BatchState}
    (hplan : (flushProgram s purge newStateRoot p).plan = (ops, .ok res)) (fails : DbFailures) :
    flush s purge newStateRoot p fails = some (res, ops) ∨
      ∃ done z, done <+: ops ∧ flush s purge newStateRoot p fails = some ((.error (.zkr z), none), done) := by
  unfold StateManager.flush
  rcases run_recorder (fun log op => (fails log op).map FlushStop.database)
    (flushProgram s purge newStateRoot p) [] with h | ⟨done, op, rest, e, hops, he, h⟩
  · rw [h, hplan]
    exact .inl rfl
  · obtain ⟨z, _, rfl⟩ := Option.map_eq_some_iff.mp he
    rw [h]
    rw [hplan] at hops
    exact .inr ⟨done, z, ⟨op :: rest, hops.symm⟩, rfl⟩

theorem flush_flawless {ops : List FlushOp} {res : Except Fault Unit × Option BatchState}
    (hplan : (flushProgram s purge newStateRoot p).plan = (ops, .ok res)) :
    flush s purge newStateRoot p (fun _ _ => none) = some (res, ops) := by
  unfold StateManager.flush
  have hnone : (fun (log : List FlushOp) (op : FlushOp) => ((fun _ _ => none : DbFailures) log op).map
      FlushStop.database) = fun _ _ => none := rfl
  rw [hnone, run_recorder_none, hplan]
  rfl

/-- A batch whose flush is stopped by a check. -/
structure Stuck (purge : Bool) (newStateRoot : Option Fea) (b : BatchState) : Prop where
  indexed : b.All Indexed
  fails : ∃ bl ∈ (b.purgeBlocks purge newStateRoot).blockState, bl.Fails

/-- The plan of a flush that a check stops: the blocks before it are written. -/
theorem plan_of_fails (h : b.All Indexed) {pre post : List BlockState}
    (hblocks : (b.purgeBlocks purge newStateRoot).blockState = pre ++ bl :: post)
    (hno : ∀ x ∈ pre, ¬x.Fails) (hfails : bl.Fails) :
    ∃ ops e b', (flushProgram (some b) purge newStateRoot p).plan = (ops, .ok (.error e, some b')) ∧
      Stuck purge newStateRoot b' ∧ (∀ op ∈ ops, op.StoresNoRoot) ∧
      ((∃ key node d, FlushOp.write key node d ∈ ops) ↔ ∃ x ∈ pre, x.nodes purge ≠ []) := by
  have hall : (b.purgeBlocks purge newStateRoot).All Indexed := h.purgeBlocks
  have hne : (b.purgeBlocks purge newStateRoot).blockState ≠ [] := by
    rw [hblocks]
    simp
  have hpurged := BatchState.purged_purgeBlocks hne
  rw [BatchState.All, hblocks] at hall
  obtain ⟨ops, e, blocks, last, hplan, hroot, hwrites, hsame, hall', x, hx, hxfails⟩ :=
    BatchState.plan_flushBlocks_of_fails purge (p = .database) hall hno hfails none
  rw [← hblocks] at hsame hplan
  refine ⟨ops, e, { b.purgeBlocks purge newStateRoot with blockState := blocks }, ?_, ⟨hall', ?_⟩, hroot, hwrites⟩
  · unfold flushProgram
    dsimp only
    rw [plan_bind_ok hplan]
    simp
  · rw [(hpurged.of_sameRoots hsame).purgeBlocks_eq]
    exact ⟨x, hx, hxfails⟩

/-- The plan of a flush whose checks pass: the blocks are written, and the batch is deleted. -/
theorem plan_of_passes (h : b.All Indexed)
    (hno : ∀ bl ∈ (b.purgeBlocks purge newStateRoot).blockState, ¬bl.Fails) :
    ∃ ops, (flushProgram (some b) purge newStateRoot p).plan = (ops, .ok (.ok (), none)) ∧
      ∀ key node d, FlushOp.write key node d ∈ ops ↔ ∃ bl ∈ (b.purgeBlocks purge newStateRoot).blockState,
        FlushOp.write key node d ∈ bl.writes purge (p = .database) := by
  obtain ⟨ops, blocks, last, hplan, hwrites⟩ :=
    BatchState.plan_flushBlocks_of_passes purge (p = .database) h.purgeBlocks hno none
  refine ⟨ops ++ (last.toList.map FlushOp.updateStateRoot ++ [.flush]), ?_, fun key node d => ?_⟩
  · unfold flushProgram
    dsimp only
    rw [plan_bind_ok hplan]
    dsimp only
    rw [plan_bind_ok (plan_callAll _), plan_bind_ok (plan_call _)]
    simp
  · rw [← hwrites]
    simp

/-- The first block with a check that fails. -/
theorem exists_first_fails {blocks : List BlockState} (h : ∃ bl ∈ blocks, bl.Fails) :
    ∃ pre bl post, blocks = pre ++ bl :: post ∧ (∀ x ∈ pre, ¬x.Fails) ∧ bl.Fails := by
  induction blocks with
  | nil =>
    obtain ⟨bl, hbl, _⟩ := h
    exact absurd hbl List.not_mem_nil
  | cons x blocks ih =>
    by_cases hx : x.Fails
    · exact ⟨[], x, blocks, rfl, fun y hy => absurd hy List.not_mem_nil, hx⟩
    · obtain ⟨bl, hbl, hfails⟩ := h
      rcases List.mem_cons.mp hbl with rfl | hbl
      · exact absurd hfails hx
      · obtain ⟨pre, y, post, rfl, hno, hy⟩ := ih ⟨bl, hbl, hfails⟩
        exact ⟨x :: pre, y, post, rfl, List.forall_mem_cons.mpr ⟨hx, hno⟩, hy⟩

/-- A flush stops at a check, or it deletes the batch. -/
theorem flush_of_stuck (h : Stuck purge newStateRoot b) (fails : DbFailures) :
    ∃ r s' log, flush (some b) purge newStateRoot p fails = some ((r, s'), log) ∧ r ≠ .ok () ∧
      (∀ b', s' = some b' → Stuck purge newStateRoot b') ∧ ∀ op ∈ log, op.StoresNoRoot := by
  obtain ⟨pre, bl, post, hblocks, hno, hfails⟩ := exists_first_fails h.fails
  obtain ⟨ops, e, b', hplan, hstuck, hroot, _⟩ := plan_of_fails (p := p) h.indexed hblocks hno hfails
  rcases flush_cases hplan fails with hflush | ⟨done, z, hpre, hflush⟩
  · refine ⟨_, _, _, hflush, by simp, fun b'' hb'' => ?_, hroot⟩
    obtain rfl := Option.some.inj hb''
    exact hstuck
  · exact ⟨_, _, _, hflush, by simp, fun b'' hb'' => (by cases hb''),
      fun op hop => hroot op (hpre.subset hop)⟩

theorem plan_none (purge : Bool) (newStateRoot : Option Fea) (p : Persistence) :
    (flushProgram none purge newStateRoot p).plan = ([.flush], .ok (.ok (), none)) := rfl

/-- A flush of a batch without failing checks deletes it. -/
theorem flush_of_passes (h : b.All Indexed)
    (hno : ∀ bl ∈ (b.purgeBlocks purge newStateRoot).blockState, ¬bl.Fails) (fails : DbFailures) :
    ∃ r log, flush (some b) purge newStateRoot p fails = some ((r, none), log) := by
  obtain ⟨ops, hplan, _⟩ := plan_of_passes (p := p) h hno
  rcases flush_cases hplan fails with hflush | ⟨done, z, _, hflush⟩
  · exact ⟨_, _, hflush⟩
  · exact ⟨_, _, hflush⟩

/-- The indices of the sub-states are right after any calls. -/
theorem indexed_after {calls : List Call} : ∀ b, after purge calls = some b → b.All Indexed := by
  induction calls using List.reverseRecOn with
  | nil =>
    intro b hb
    cases hb
  | append_singleton calls c ih =>
    unfold after at ih ⊢
    rw [List.foldl_append]
    by_cases hc : c.IsFlush
    · obtain ⟨newStateRoot, p, fails, rfl⟩ : ∃ newStateRoot p fails, c = .flush newStateRoot p fails := by
        cases c with
        | flush newStateRoot p fails => exact ⟨_, _, _, rfl⟩
        | _ => exact absurd hc id
      intro b' hb'
      generalize calls.foldl (step purge) none = s at ih hb'
      cases s with
      | none =>
        rcases flush_cases (plan_none purge newStateRoot p) fails with
          hflush | ⟨_, _, _, hflush⟩
        · simp [step, hflush] at hb'
        · simp [step, hflush] at hb'
      | some b =>
        by_cases hfails : ∃ bl ∈ (b.purgeBlocks purge newStateRoot).blockState, bl.Fails
        · obtain ⟨r, s', log, hflush, _, hstuck, _⟩ :=
            flush_of_stuck (p := p) ⟨ih b rfl, hfails⟩ fails
          simp [step, hflush] at hb'
          exact (hstuck b' hb').indexed
        · obtain ⟨r, log, hflush⟩ := flush_of_passes (p := p) (ih b rfl)
            (fun bl hbl hf => hfails ⟨bl, hbl, hf⟩) fails
          simp [step, hflush] at hb'
    · exact all_step ih isKept_indexed hc

/-! ## All or nothing -/

/-- The calls of the database of flushes that are made one after the other. -/
def flushes (purge : Bool) (newStateRoot : Option Fea) (p : Persistence) :
    List DbFailures → Option BatchState → List FlushOp
  | [], _ => []
  | fails :: rest, s =>
    match flush s purge newStateRoot p fails with
    | none => []
    | some ((_, s'), log) => log ++ flushes purge newStateRoot p rest s'

/-- A flush that fails deletes the batch or writes no node of it, and flushes after it store no state root
that a flush without failures of the database would not have stored. -/
def AllOrNothing (purge : Bool) (newStateRoot : Option Fea) (p : Persistence) (b : BatchState) : Prop :=
  ∀ fails, ∃ r s' log, flush (some b) purge newStateRoot p fails = some ((r, s'), log) ∧ (r ≠ .ok () →
    (s' = none ∨ ∀ key node d, FlushOp.write key node d ∉ log) ∧
    ∀ again root, .updateStateRoot root ∈ flushes purge newStateRoot p again s' →
      ∃ res flawless, flush (some b) purge newStateRoot p (fun _ _ => none) = some (res, flawless) ∧
        .updateStateRoot root ∈ flawless)

theorem storesNoRoot_flushes_none (again : List DbFailures) :
    ∀ op ∈ flushes purge newStateRoot p again none, op.StoresNoRoot := by
  induction again with
  | nil => exact fun op hop => absurd hop List.not_mem_nil
  | cons fails again ih =>
    have hflush : ∀ op ∈ [FlushOp.flush], op.StoresNoRoot := by
      intro op hop root
      rw [List.mem_singleton.mp hop]
      simp
    intro op hop
    unfold flushes at hop
    rcases flush_cases (plan_none purge newStateRoot p) fails with
      h | ⟨done, z, hpre, h⟩
    · rw [h] at hop
      rcases List.mem_append.mp hop with hop | hop
      · exact hflush op hop
      · exact ih op hop
    · rw [h] at hop
      rcases List.mem_append.mp hop with hop | hop
      · exact hflush op (hpre.subset hop)
      · exact ih op hop

theorem storesNoRoot_flushes (h : ∀ b, s = some b → Stuck purge newStateRoot b) (again : List DbFailures) :
    ∀ op ∈ flushes purge newStateRoot p again s, op.StoresNoRoot := by
  induction again generalizing s with
  | nil => exact fun op hop => absurd hop List.not_mem_nil
  | cons fails again ih =>
    cases s with
    | none => exact storesNoRoot_flushes_none _
    | some b =>
      obtain ⟨r, s', log, hflush, _, hstuck, hlog⟩ := flush_of_stuck (p := p) (h b rfl) fails
      intro op hop
      unfold flushes at hop
      rw [hflush] at hop
      rcases List.mem_append.mp hop with hop | hop
      · exact hlog op hop
      · exact ih hstuck op hop

/-- After any calls, a flush is all or nothing exactly when no block before the first one with a check that
fails has a node to write. -/
theorem flush_allOrNothing_iff (purge : Bool) {calls : List Call} {b : BatchState}
    (hb : after purge calls = some b) (newStateRoot : Option Fea) (p : Persistence) :
    AllOrNothing purge newStateRoot p b ↔ ∀ pre bl post,
      (b.purgeBlocks purge newStateRoot).blockState = pre ++ bl :: post → bl.Fails →
        (∀ x ∈ pre, ¬x.Fails) → ∀ x ∈ pre, x.nodes purge = [] := by
  have hidx := indexed_after b hb
  constructor
  · intro h pre bl post hblocks hfails hno x hx
    by_contra hnodes
    obtain ⟨ops, e, b', hplan, _, _, hwrites⟩ := plan_of_fails (p := p) hidx hblocks hno hfails
    obtain ⟨r, s', log, hflush, hr⟩ := h fun _ _ => none
    rw [flush_flawless hplan] at hflush
    obtain ⟨hres, rfl⟩ := Prod.mk.inj (Option.some.inj hflush)
    obtain ⟨rfl, rfl⟩ := Prod.mk.inj hres
    obtain ⟨key, node, d, hop⟩ := hwrites.mpr ⟨x, hx, hnodes⟩
    rcases (hr (by simp)).1 with hnone | hnot
    · cases hnone
    · exact hnot key node d hop
  · intro h fails
    by_cases hfails : ∃ bl ∈ (b.purgeBlocks purge newStateRoot).blockState, bl.Fails
    · obtain ⟨pre, bl, post, hblocks, hno, hbl⟩ := exists_first_fails hfails
      obtain ⟨ops, e, b', hplan, hstuck, _, hwrites⟩ := plan_of_fails (p := p) hidx hblocks hno hbl
      have hnot : ∀ key node d, FlushOp.write key node d ∉ ops := by
        intro key node d hop
        obtain ⟨x, hx, hnodes⟩ := hwrites.mp ⟨key, node, d, hop⟩
        exact hnodes (h pre bl post hblocks hbl hno x hx)
      rcases flush_cases hplan fails with hflush | ⟨done, z, _, hflush⟩
      · refine ⟨_, _, _, hflush, fun _ => ⟨.inr hnot, fun again root hroot => ?_⟩⟩
        refine absurd rfl (storesNoRoot_flushes (s := some b') (fun b'' hb'' => ?_) again _ hroot root)
        obtain rfl := Option.some.inj hb''
        exact hstuck
      · refine ⟨_, _, _, hflush, fun _ => ⟨.inl rfl, fun again root hroot => ?_⟩⟩
        exact absurd rfl (storesNoRoot_flushes_none again _ hroot root)
    · obtain ⟨r, log, hflush⟩ := flush_of_passes (p := p) hidx (fun bl hbl hf => hfails ⟨bl, hbl, hf⟩) fails
      refine ⟨_, _, _, hflush, fun _ => ⟨.inl rfl, fun again root hroot => ?_⟩⟩
      exact absurd rfl (storesNoRoot_flushes_none again _ hroot root)

/-- A block that is written, and one in which a call of `set` did not come to its end. -/
def tornCalls : List Call :=
  [.setStateRoot 0 0 (rootNumber 1) true .database, .writeNode 0 0 (rootNumber 2) ⟨0, 0, 0⟩ .database,
    .setStateRoot 0 0 (rootNumber 2) false .database, .setStateRoot 1 0 (rootNumber 2) true .database,
    .setStateRoot 1 0 (rootNumber 3) false .database, .setStateRoot 1 0 (rootNumber 3) true .database]

theorem flush_allOrNothing_iff_sample :
    ¬AllOrNothing true (some (rootNumber 3)) .database ((after true tornCalls).getD {}) := by
  intro h
  have hiff := flush_allOrNothing_iff true (show after true tornCalls = some ((after true tornCalls).getD {})
    from rfl) (some (rootNumber 3)) .database
  have hnodes := hiff.mp h [_] _ [] rfl
    ⟨_, List.mem_singleton_self _, .database, rfl, List.cons_ne_nil _ _, _, _, rfl⟩ ?_ _
    (List.mem_singleton_self _)
  · exact absurd (congrArg List.length hnodes) (by decide)
  · intro x hx
    rw [List.mem_singleton.mp hx]
    rintro ⟨t, ht, p, hp, hne, e, ps', hfails⟩
    rw [List.mem_singleton.mp ht] at hne hfails
    cases p with
    | cache => exact hne rfl
    | database => cases hfails
    | temporary => cases hp
    | temporaryHash => cases hp

end StateManager

end ZkevmProver
