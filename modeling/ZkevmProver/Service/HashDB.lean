import ZkevmProver.HashDB.SmtMap
import ZkevmProver.HashDB.StateManagerStore

/-!
# `HashDB` with and without the state manager

`HashDB` sends the calls of a batch to `Smt`, and to the state manager if it is configured.  A client that
only sees what the calls return cannot tell whether it is.

  1. The calls.
  2. What a flush writes when nothing is purged.
  3. One call.
  4. Clients.
-/

namespace ZkevmProver

open Effects StateManager

/-! ## The calls -/

/-- The configuration: the trees of 64-way pages are not modelled here, and the UUID of the batch is not
empty. -/
structure HashDB where
  smt : Smt
  stateManager : Bool
  stateManagerPurge : Bool

/-- The batch in the state manager, and the nodes of the database. -/
abbrev HashDBState := Option BatchState × NodeTable

/-- The calls that a batch makes. -/
inductive HashDBCall where
  | set (block tx : ℕ) (oldRoot key : Fea) (value : ℕ) (p : Persistence)
  | get (root key : Fea)
  | finishTx (newStateRoot : Fea) (p : Persistence)
  | startBlock (oldStateRoot : Fea) (p : Persistence)
  | finishBlock (newStateRoot : Fea) (p : Persistence)
  | flush (newStateRoot : Option Fea) (p : Persistence)

/-- A client goes on after a `get` that fails. -/
abbrev HashDBCall.Resp : HashDBCall → Type
  | .set _ _ _ _ _ _ => SmtSetResult
  | .get _ _ => Except Fault SmtGetResult
  | _ => Unit

namespace HashDBCall

def IsFlush : HashDBCall → Prop
  | .flush _ _ => True
  | _ => False

/-- Nothing is written to a temporary persistence. -/
def Stored : HashDBCall → Prop
  | .set _ _ _ _ _ p => p.isStored = true
  | _ => True

end HashDBCall

/-- The errors that end a batch. -/
inductive HashDBError where
  | set (e : Fault)
  | flush (e : Fault)
  | endless
  deriving DecidableEq

namespace HashDB

variable (hashDB : HashDB)

def set (block tx : ℕ) (oldRoot key : Fea) (value : ℕ) (p : Persistence) (st : HashDBState) :
    Except Fault SmtSetResult × HashDBState :=
  if hashDB.stateManager then
    run (smtHandler block tx p) (hashDB.smt.set ⟨true, p⟩ oldRoot key value) st
  else
    let r := run dbHandler (hashDB.smt.set ⟨false, p⟩ oldRoot key value) st.2
    (r.1, (st.1, r.2))

def get (root key : Fea) (st : HashDBState) : Except Fault SmtGetResult × HashDBState :=
  if hashDB.stateManager then run (smtHandler 0 0 .database) (hashDB.smt.get root key) st
  else
    let r := run dbHandler (hashDB.smt.get root key) st.2
    (r.1, (st.1, r.2))

/-- Without the state manager the three calls are a `semiFlush`, which leaves the nodes as they are. -/
def finishTx (newStateRoot : Fea) (p : Persistence) (st : HashDBState) : HashDBState :=
  if hashDB.stateManager then
    ((StateManager.finishTx st.1 hashDB.stateManagerPurge newStateRoot p).2, st.2)
  else st

def startBlock (oldStateRoot : Fea) (p : Persistence) (st : HashDBState) : HashDBState :=
  if hashDB.stateManager then ((StateManager.startBlock st.1 oldStateRoot p).2, st.2) else st

def finishBlock (newStateRoot : Fea) (p : Persistence) (st : HashDBState) : HashDBState :=
  if hashDB.stateManager then
    ((StateManager.finishBlock st.1 hashDB.stateManagerPurge newStateRoot p).2, st.2)
  else st

/-- The nodes of the database after the calls of a flush. -/
def written (db : NodeTable) : List FlushOp → NodeTable
  | [] => db
  | .write key node _ :: ops => written ((key, node) :: db) ops
  | _ :: ops => written db ops

/-- A flush, with a database whose calls succeed. -/
def flush (newStateRoot : Option Fea) (p : Persistence) (st : HashDBState) :
    Except HashDBError Unit × HashDBState :=
  if hashDB.stateManager then
    match StateManager.flush st.1 hashDB.stateManagerPurge newStateRoot p fun _ _ => none with
    | none => (.error .endless, st)
    | some ((.ok (), s), ops) => (.ok (), (s, written st.2 ops))
    | some ((.error e, s), ops) => (.error (.flush e), (s, written st.2 ops))
  else (.ok (), st)

def handler : Handler HashDBCall HashDBCall.Resp HashDBError HashDBState
  | .set block tx oldRoot key value p, st =>
    let r := hashDB.set block tx oldRoot key value p st
    (r.1.mapError .set, r.2)
  | .get root key, st =>
    let r := hashDB.get root key st
    (.ok r.1, r.2)
  | .finishTx newStateRoot p, st => (.ok (), hashDB.finishTx newStateRoot p st)
  | .startBlock oldStateRoot p, st => (.ok (), hashDB.startBlock oldStateRoot p st)
  | .finishBlock newStateRoot p, st => (.ok (), hashDB.finishBlock newStateRoot p st)
  | .flush newStateRoot p, st => hashDB.flush newStateRoot p st

end HashDB

/-! ## What a flush writes when nothing is purged -/

section Flush

variable {b : BatchState} {bl : BlockState} {t : TxState} {d : FlushData} {ps : TxPersistenceState}

theorem FlushData.load_false (newStateRoot : Option Fea) (d : FlushData) (ss : TxSubState) :
    (d.load false newStateRoot ss).dbWriteNodes = d.dbWriteNodes ++ ss.dbWriteNodes := by
  unfold FlushData.load FlushData.insert
  simp

theorem FlushData.foldl_load_false (newStateRoot : Option Fea) (d : FlushData) (l : List TxSubState) :
    (l.foldl (FlushData.load false newStateRoot) d).dbWriteNodes =
      d.dbWriteNodes ++ l.flatMap TxSubState.dbWriteNodes := by
  induction l generalizing d with
  | nil => simp
  | cons ss l ih => rw [List.foldl_cons, ih, FlushData.load_false, List.flatMap_cons, List.append_assoc]

theorem TxPersistenceState.SameLinks.rows_eq {ps' : TxPersistenceState} (h : SameLinks ps ps') :
    ps'.rows = ps.rows := by
  have hrows (ps : TxPersistenceState) : ps.rows = ps.links.flatMap fun l => l.2.2.2 := by
    unfold TxPersistenceState.rows TxPersistenceState.links
    rw [List.flatMap_map]
  rw [hrows, hrows, h.links]

theorem TxPersistenceState.loaded_false (h : ps.Indexed) (d : FlushData) :
    (ps.loaded false d).dbWriteNodes = d.dbWriteNodes ++ ps.rows := by
  unfold TxPersistenceState.loaded
  by_cases hnil : ps.subState = []
  · rw [if_pos hnil]
    simp [TxPersistenceState.rows, hnil]
  · obtain ⟨r, ps', hends, hlinks, _, _, _⟩ := h.findValid_ends hnil
    rw [if_neg hnil, hends _ le_rfl]
    dsimp only
    rw [FlushData.foldl_load_false, ← hlinks.rows_eq]
    rfl

theorem TxState.loaded_false (h : t.All TxPersistenceState.Indexed) (d : FlushData) :
    (t.loaded false d).dbWriteNodes =
      d.dbWriteNodes ++ ((t.persistence .cache).rows ++ (t.persistence .database).rows) := by
  unfold TxState.loaded
  rw [TxPersistenceState.loaded_false (h _), TxPersistenceState.loaded_false (h _), List.append_assoc]

theorem BlockState.nodes_false (h : bl.All TxPersistenceState.Indexed) :
    bl.nodes false = bl.txState.flatMap fun t => (t.persistence .cache).rows ++ (t.persistence .database).rows := by
  have hfold (txs : List TxState) (htxs : ∀ t ∈ txs, t.All TxPersistenceState.Indexed) (d : FlushData) :
      (txs.foldl (fun d t => TxState.loaded false t d) d).dbWriteNodes = d.dbWriteNodes ++
        txs.flatMap fun t => (t.persistence .cache).rows ++ (t.persistence .database).rows := by
    induction txs generalizing d with
    | nil => simp
    | cons t txs ih =>
      rw [List.foldl_cons, ih (fun t ht => htxs t (List.mem_cons_of_mem _ ht)),
        TxState.loaded_false (htxs t List.mem_cons_self), List.flatMap_cons, List.append_assoc]
  unfold BlockState.nodes
  rw [hfold _ h]
  rfl

/-- The blocks have the rows that are kept. -/
theorem BatchState.exists_nodes_iff (h : b.All TxPersistenceState.Indexed) (r : Fea × Node) :
    (∃ bl ∈ b.blockState, r ∈ bl.nodes false) ↔ b.Keeps r := by
  constructor
  · rintro ⟨bl, hbl, hr⟩
    rw [BlockState.nodes_false (h bl hbl)] at hr
    obtain ⟨t, ht, hr⟩ := List.mem_flatMap.mp hr
    obtain ⟨block, hblock⟩ := List.mem_iff_getElem?.mp hbl
    obtain ⟨tx, htx⟩ := List.mem_iff_getElem?.mp ht
    have hps (p : Persistence) : b.getPersistence block tx p = some (t.persistence p) := by
      unfold BatchState.getPersistence
      rw [hblock, Option.bind_some, htx]
      rfl
    rcases List.mem_append.mp hr with hr | hr
    · exact ⟨block, tx, .cache, _, rfl, hps _, hr⟩
    · exact ⟨block, tx, .database, _, rfl, hps _, hr⟩
  · rintro ⟨block, tx, p, ps, hp, hps, hr⟩
    obtain ⟨t, ht, rfl⟩ := Option.map_eq_some_iff.mp hps
    obtain ⟨bl, hbl, htx⟩ := Option.bind_eq_some_iff.mp ht
    have hmem := List.mem_of_getElem? hbl
    refine ⟨bl, hmem, ?_⟩
    rw [BlockState.nodes_false (h bl hmem)]
    refine List.mem_flatMap.mpr ⟨t, List.mem_of_getElem? htx, List.mem_append.mpr ?_⟩
    cases p with
    | cache => exact .inl hr
    | database => exact .inr hr
    | temporary => cases hp
    | temporaryHash => cases hp

theorem mem_of_mem_entries {m : NodeTable} {r : Fea × Node} (h : r ∈ entries m) : r ∈ m := by
  induction hn : m.length using Nat.strong_induction_on generalizing m with
  | _ n ih =>
    cases m with
    | nil => exact h
    | cons e m =>
      unfold entries at h
      rw [List.eraseDupsBy_cons] at h
      rcases List.mem_cons.mp h with rfl | h
      · exact List.mem_cons_self
      · have hlt : (m.filter fun x => (decide (x.1 = e.1)) = false).length < n := by
          rw [← hn]
          exact Nat.lt_succ_of_le (List.length_filter_le _ _)
        exact List.mem_cons_of_mem _ (List.mem_of_mem_filter (ih _ hlt h rfl))

/-- Every key of a map has an entry. -/
theorem exists_mem_entries {m : NodeTable} {k : Fea} {node : Node} (h : (k, node) ∈ m) :
    ∃ node', (k, node') ∈ entries m := by
  induction hn : m.length using Nat.strong_induction_on generalizing m with
  | _ n ih =>
    cases m with
    | nil => exact absurd h List.not_mem_nil
    | cons e m =>
      unfold entries
      rw [List.eraseDupsBy_cons]
      by_cases hk : k = e.1
      · exact ⟨e.2, by rw [hk]; exact List.mem_cons_self⟩
      · have hlt : (m.filter fun x => (decide (x.1 = e.1)) = false).length < n := by
          rw [← hn]
          exact Nat.lt_succ_of_le (List.length_filter_le _ _)
        have hmem : (k, node) ∈ m.filter fun x => (decide (x.1 = e.1)) = false := by
          rcases List.mem_cons.mp h with rfl | h
          · exact absurd rfl hk
          · exact List.mem_filter.mpr ⟨h, by simp [hk]⟩
        obtain ⟨node', hnode'⟩ := ih _ hlt hmem rfl
        exact ⟨node', List.mem_cons_of_mem _ hnode'⟩

theorem BlockState.mem_writes_iff (persistent : Bool) (key : Fea) (node : Node) (d : Bool) :
    FlushOp.write key node d ∈ bl.writes false persistent ↔ (key, node) ∈ entries (bl.nodes false) ∧ persistent = d := by
  unfold BlockState.writes
  constructor
  · intro hmem
    obtain ⟨e, he, heq⟩ := List.mem_map.mp hmem
    injection heq with hkey hnode hd
    subst hkey hnode
    exact ⟨he, hd⟩
  · rintro ⟨he, rfl⟩
    exact List.mem_map.mpr ⟨_, he, rfl⟩

/-- A flush of a batch without failing checks writes the rows that are kept, one for each key. -/
theorem StateManager.flush_false (h : b.All TxPersistenceState.Indexed) (newStateRoot : Option Fea) (p : Persistence) :
    (∃ ops, flush (some b) false newStateRoot p (fun _ _ => none) = some ((.ok (), none), ops) ∧
      ∀ key node d, FlushOp.write key node d ∈ ops ↔
        ∃ bl ∈ b.blockState, FlushOp.write key node d ∈ bl.writes false (p = .database)) ∨
      ∃ e b' ops, flush (some b) false newStateRoot p (fun _ _ => none) = some ((.error e, some b'), ops) := by
  have hpurge : b.purgeBlocks false newStateRoot = b := by
    unfold BatchState.purgeBlocks
    simp
  by_cases hfails : ∃ bl ∈ (b.purgeBlocks false newStateRoot).blockState, bl.Fails
  · obtain ⟨pre, bl, post, hblocks, hno, hbl⟩ := exists_first_fails hfails
    obtain ⟨ops, e, b', hplan, _⟩ := plan_of_fails (p := p) h hblocks hno hbl
    exact .inr ⟨e, b', ops, flush_flawless hplan⟩
  · obtain ⟨ops, hplan, hwrites⟩ := plan_of_passes (p := p) h fun bl hbl hf => hfails ⟨bl, hbl, hf⟩
    rw [hpurge] at hwrites
    exact .inl ⟨ops, flush_flawless hplan, hwrites⟩

end Flush

namespace HashDB

/-- No two nodes have the same hash. -/
def Unique (db : NodeTable) : Prop := ∀ k n n', (k, n) ∈ db → (k, n') ∈ db → n = n'

theorem Unique.lookup_iff {db : NodeTable} (h : Unique db) (k : Fea) (n : Node) : db.lookup k = some n ↔ (k, n) ∈ db := by
  constructor
  · intro hl
    obtain ⟨l₁, l₂, rfl, _⟩ := List.lookup_eq_some_iff.mp hl
    exact List.mem_append_right _ List.mem_cons_self
  · intro hmem
    obtain ⟨n', hl, hmem'⟩ := lookup_of_mem hmem
    rw [hl, h k n n' hmem hmem']

theorem sameRows_of_mem {db db' : NodeTable} (h : Unique db) (hmem : ∀ r, r ∈ db' ↔ r ∈ db) : SameRows db db' where
  lookup k := by
    have h' : Unique db' := fun k n n' hn hn' => h k n n' ((hmem _).mp hn) ((hmem _).mp hn')
    refine Option.ext fun n => ?_
    rw [h'.lookup_iff, h.lookup_iff, hmem]
  mem := hmem

theorem mem_written_iff (ops : List FlushOp) (db : NodeTable) (r : Fea × Node) :
    r ∈ written db ops ↔ r ∈ db ∨ ∃ d, FlushOp.write r.1 r.2 d ∈ ops := by
  induction ops generalizing db with
  | nil => simp [written]
  | cons op ops ih =>
    cases op with
    | write key node d =>
      unfold written
      rw [ih, List.mem_cons, or_comm (a := r = _), or_assoc]
      refine or_congr_right ?_
      constructor
      · rintro (rfl | ⟨d', hd'⟩)
        · exact ⟨d, List.mem_cons_self⟩
        · exact ⟨d', List.mem_cons_of_mem _ hd'⟩
      · rintro ⟨d', hd'⟩
        rcases List.mem_cons.mp hd' with heq | hd'
        · injection heq with hkey hnode
          exact .inl (Prod.ext hkey hnode)
        · exact .inr ⟨d', hd'⟩
    | setProgram key data d => unfold written; rw [ih]; simp
    | updateStateRoot root => unfold written; rw [ih]; simp
    | flush => unfold written; rw [ih]; simp

/-! ## One call -/

variable (smt : Smt) (purge : Bool) {keep : Prop} {st t : HashDBState}

/-- What holds of the two states between two calls. -/
structure Alike (keep : Prop) (st t : HashDBState) : Prop where
  mirrors : Mirrors keep st t.2
  indexed : ∀ b, st.1 = some b → b.All TxPersistenceState.Indexed

/-- The store of `Smt` keeps what the functions of the state manager keep. -/
theorem smtHandler_keeps {P : TxPersistenceState → Prop} (hP : IsKept P) (block tx : ℕ) (p : Persistence) (op : SmtOp)
    (st : HashDBState) (h : ∀ b, st.1 = some b → b.All P) :
    ∀ b, (smtHandler block tx p op st).2.1 = some b → b.All P := by
  obtain ⟨s, db⟩ := st
  cases op with
  | setOldStateRoot root => exact all_setStateRoot h hP root true
  | readNode hash =>
    rw [show (smtHandler block tx p (.readNode hash) (s, db)).2 = (s, db) by
      unfold smtHandler
      dsimp only
      split
      · rfl
      · split
        · rfl
        · rfl]
    exact h
  | writeNode hash node => exact all_writeNode h hP hash node
  | deleteNode hash => exact all_deleteNode h hP hash
  | setNewStateRoot root => exact all_setStateRoot h hP root false
  | updateStateRoot root => exact h

theorem Alike.set (h : Alike keep st t) {p : Persistence} (hp : keep → p.isStored = true) (block tx : ℕ)
    (oldRoot key : Fea) (value : ℕ) :
    (HashDB.set ⟨smt, true, purge⟩ block tx oldRoot key value p st).1 =
        (HashDB.set ⟨smt, false, purge⟩ block tx oldRoot key value p t).1 ∧
      ∀ r, (HashDB.set ⟨smt, true, purge⟩ block tx oldRoot key value p st).1 = .ok r →
        Alike keep (HashDB.set ⟨smt, true, purge⟩ block tx oldRoot key value p st).2
          (HashDB.set ⟨smt, false, purge⟩ block tx oldRoot key value p t).2 := by
  obtain ⟨hres, hmirrors⟩ := h.mirrors.set smt hp block tx oldRoot key value
  refine ⟨hres, fun r hr => ⟨hmirrors r hr, ?_⟩⟩
  exact run_keeps (fun op st hst => smtHandler_keeps TxPersistenceState.isKept_indexed block tx p op st hst) _ h.indexed

theorem Alike.get (h : Alike keep st t) (root key : Fea) :
    (HashDB.get ⟨smt, true, purge⟩ root key st).1 = (HashDB.get ⟨smt, false, purge⟩ root key t).1 ∧
      Alike keep (HashDB.get ⟨smt, true, purge⟩ root key st).2 (HashDB.get ⟨smt, false, purge⟩ root key t).2 := by
  obtain ⟨hres, hmirrors⟩ := agree_get smt 0 0 .database root key st t.2 h.mirrors
  refine ⟨hres, hmirrors, ?_⟩
  exact run_keeps (fun op st hst => smtHandler_keeps TxPersistenceState.isKept_indexed 0 0 .database op st hst) _
    h.indexed

/-- A flush that succeeds leaves the rows of the batch in the database, unless two nodes have the same hash. -/
theorem Alike.flush (h : Alike True st t) (newStateRoot : Option Fea) (p : Persistence) (hunique : Unique t.2) :
    (∃ e, (HashDB.flush ⟨smt, true, false⟩ newStateRoot p st).1 = .error (.flush e)) ∨
      (HashDB.flush ⟨smt, true, false⟩ newStateRoot p st).1 = .ok () ∧
        Alike True (HashDB.flush ⟨smt, true, false⟩ newStateRoot p st).2 t := by
  obtain ⟨s, db⟩ := st
  cases s with
  | none =>
    have hflush := flush_flawless (plan_none false newStateRoot p)
    unfold HashDB.flush
    rw [if_pos rfl]
    dsimp only
    rw [hflush]
    exact .inr ⟨rfl, h⟩
  | some b =>
    have hindexed := h.indexed b rfl
    have hkept := h.mirrors.kept trivial b rfl
    have hsame (r : Fea × Node) : r ∈ t.2 ↔ r ∈ b.dbWriteNodes ∨ r ∈ db := by
      rw [← List.mem_append]
      exact (h.mirrors.same.mem r).symm
    have hnodes (r : Fea × Node) : r ∈ b.dbWriteNodes ↔ ∃ bl ∈ b.blockState, r ∈ bl.nodes false := by
      rw [← hkept, BatchState.exists_nodes_iff hindexed]
    unfold HashDB.flush
    rw [if_pos rfl]
    dsimp only
    rcases StateManager.flush_false hindexed newStateRoot p with ⟨ops, hflush, hwrites⟩ | ⟨e, b', ops, hflush⟩
    · rw [hflush]
      refine .inr ⟨rfl, ⟨fun b hb => (by cases hb), sameRows_of_mem hunique fun r => ?_,
        fun _ b hb => (by cases hb)⟩, fun b hb => (by cases hb)⟩
      show r ∈ written db ops ↔ r ∈ t.2
      rw [mem_written_iff, hsame, or_comm]
      refine or_congr_left ?_
      constructor
      · rintro ⟨d, hd⟩
        obtain ⟨bl, hbl, hmem⟩ := (hwrites _ _ _).mp hd
        exact (hnodes r).mpr ⟨bl, hbl, mem_of_mem_entries ((BlockState.mem_writes_iff _ _ _ _).mp hmem).1⟩
      · intro hr
        obtain ⟨bl, hbl, hmem⟩ := (hnodes r).mp hr
        obtain ⟨node', hentry⟩ := exists_mem_entries hmem
        have hr' := (hnodes (r.1, node')).mpr ⟨bl, hbl, mem_of_mem_entries hentry⟩
        obtain rfl := hunique r.1 node' r.2 ((hsame _).mpr (.inl hr')) ((hsame _).mpr (.inl hr))
        exact ⟨_, (hwrites _ _ _).mpr ⟨bl, hbl, (BlockState.mem_writes_iff _ _ _ _).mpr ⟨hentry, rfl⟩⟩⟩
    · rw [hflush]
      exact .inl ⟨e, rfl⟩

theorem mapError_eq_ok {ε ε' α : Type} {x : Except ε α} {f : ε → ε'} {a : α} :
    x.mapError f = .ok a ↔ x = .ok a := by
  cases x <;> simp [Except.mapError]

/-- A call that does not flush. -/
theorem Alike.step (h : Alike keep st t) (hpurge : keep → purge = false) {c : HashDBCall} (hc : ¬c.IsFlush)
    (hstored : keep → c.Stored) :
    (handler ⟨smt, true, purge⟩ c st).1 = (handler ⟨smt, false, purge⟩ c t).1 ∧
      ∀ r, (handler ⟨smt, true, purge⟩ c st).1 = .ok r →
        Alike keep (handler ⟨smt, true, purge⟩ c st).2 (handler ⟨smt, false, purge⟩ c t).2 := by
  cases c with
  | set block tx oldRoot key value p =>
    obtain ⟨hres, halike⟩ := h.set smt purge hstored block tx oldRoot key value
    exact ⟨congrArg (Except.mapError HashDBError.set) hres, fun r hr => halike r (mapError_eq_ok.mp hr)⟩
  | get root key =>
    obtain ⟨hres, halike⟩ := h.get smt purge root key
    exact ⟨congrArg Except.ok hres, fun _ _ => halike⟩
  | finishTx newStateRoot p =>
    refine ⟨rfl, fun _ _ => ⟨h.mirrors.finishTx hpurge newStateRoot p, ?_⟩⟩
    exact all_finishTx h.indexed TxPersistenceState.isKept_indexed newStateRoot
  | startBlock oldStateRoot p =>
    exact ⟨rfl, fun _ _ => ⟨h.mirrors.startBlock oldStateRoot p, all_startBlock h.indexed oldStateRoot⟩⟩
  | finishBlock newStateRoot p =>
    refine ⟨rfl, fun _ _ => ⟨h.mirrors.finishBlock hpurge newStateRoot p, ?_⟩⟩
    exact all_finishBlock h.indexed newStateRoot
  | flush newStateRoot p => exact absurd trivial hc

/-! ## Clients -/

/-- A new batch over a database. -/
theorem alike_new (keep : Prop) (db : NodeTable) : Alike keep (none, db) (none, db) where
  mirrors := ⟨fun _ hb => (by cases hb), ⟨fun _ => rfl, fun _ => Iff.rfl⟩, fun _ _ hb => (by cases hb)⟩
  indexed _ hb := by cases hb

variable {α : Type}

/-- **The state manager is transparent.**  Until it flushes, a client cannot tell whether its nodes are
kept by the state manager, with or without purging, or written to the database. -/
theorem stateManager_transparent (db : NodeTable)
    (client : Prog HashDBCall HashDBCall.Resp HashDBError α) (hclient : client.Only fun c => ¬c.IsFlush) :
    (run (handler ⟨smt, true, purge⟩) client (none, db)).1 =
      (run (handler ⟨smt, false, purge⟩) client (none, db)).1 := by
  rcases run_eq_until (fun _ => False) (fun _ => False) (fun _ _ hbad => hbad)
    (fun _ _ _ hc h => .inr (.inr (h.step smt purge False.elim hc False.elim))) client hclient
    (alike_new False db) with hbad | ⟨_, he, _⟩ | h
  · exact hbad.elim
  · exact he.elim
  · exact h

/-- Without the state manager the rows of the database stay. -/
theorem subset_handler_false (c : HashDBCall) (st : HashDBState) :
    ∀ r ∈ st.2, r ∈ (handler ⟨smt, false, purge⟩ c st).2.2 := by
  cases c with
  | set block tx oldRoot key value p =>
    exact fun r hr => NodeStore.rows_subset_run (S := dbStore ⟨false, p⟩) _ st.2 hr
  | get root key => exact fun r hr => NodeStore.rows_subset_run (S := dbStore ⟨false, .database⟩) _ st.2 hr
  | finishTx newStateRoot p => exact fun _ hr => hr
  | startBlock oldStateRoot p => exact fun _ hr => hr
  | finishBlock newStateRoot p => exact fun _ hr => hr
  | flush newStateRoot p => exact fun _ hr => hr

/-- **A flush keeps everything when nothing is purged.**  Over any number of batches and flushes, a client of
stored persistences cannot tell whether there is a state manager, unless a flush fails or two nodes have the
same hash. -/
theorem stateManager_transparent_flush (db : NodeTable)
    (client : Prog HashDBCall HashDBCall.Resp HashDBError α) (hclient : client.Only HashDBCall.Stored)
    (hunique : Unique (run (handler ⟨smt, false, false⟩) client (none, db)).2.2)
    (hflush : ∀ e, (run (handler ⟨smt, true, false⟩) client (none, db)).1 ≠ .error (.flush e)) :
    (run (handler ⟨smt, true, false⟩) client (none, db)).1 =
      (run (handler ⟨smt, false, false⟩) client (none, db)).1 := by
  have hbad (c : HashDBCall) (t : HashDBState) (ht : ¬Unique t.2) :
      ¬Unique (handler ⟨smt, false, false⟩ c t).2.2 := fun h => ht fun k n n' hn hn' =>
    h k n n' (subset_handler_false smt false c t _ hn) (subset_handler_false smt false c t _ hn')
  have hstep (c : HashDBCall) (st t : HashDBState) (hc : c.Stored) (h : Alike True st t) :
      ¬Unique (handler ⟨smt, false, false⟩ c t).2.2 ∨
        (∃ e, (∃ e', e = .flush e') ∧ (handler ⟨smt, true, false⟩ c st).1 = .error e) ∨
        (handler ⟨smt, true, false⟩ c st).1 = (handler ⟨smt, false, false⟩ c t).1 ∧
          ∀ r, (handler ⟨smt, true, false⟩ c st).1 = .ok r →
            Alike True (handler ⟨smt, true, false⟩ c st).2 (handler ⟨smt, false, false⟩ c t).2 := by
    by_cases hf : c.IsFlush
    · cases c with
      | flush newStateRoot p =>
        by_cases hu : Unique t.2
        · rcases h.flush smt newStateRoot p hu with ⟨e, he⟩ | ⟨hok, halike⟩
          · exact .inr (.inl ⟨_, ⟨e, rfl⟩, he⟩)
          · exact .inr (.inr ⟨hok, fun _ _ => halike⟩)
        · exact .inl hu
      | _ => exact hf.elim
    · exact .inr (.inr (h.step smt false (fun _ => rfl) hf fun _ => hc))
  rcases run_eq_until (fun t : HashDBState => ¬Unique t.2) (fun e => ∃ e', e = .flush e') hbad hstep client hclient
    (alike_new True db) with hu | ⟨_, ⟨e, rfl⟩, he⟩ | h
  · exact absurd hunique hu
  · exact absurd he (hflush e)
  · exact h

/-- A batch that writes a value, ends, and reads it. -/
def sampleClient (last : HashDBCall) : Prog HashDBCall HashDBCall.Resp HashDBError (Except Fault SmtGetResult) :=
  .request (.startBlock 0 .database) fun _ =>
    .request (.set 0 0 0 ⟨1, 0, 0, 0⟩ 3 .database) fun r =>
      .request last fun _ => .request (.get r.newRoot ⟨1, 0, 0, 0⟩) .pure

theorem only_sampleClient {C : HashDBCall → Prop} {last : HashDBCall} (hstart : C (.startBlock 0 .database))
    (hset : C (.set 0 0 0 ⟨1, 0, 0, 0⟩ 3 .database)) (hlast : C last) (hget : ∀ root key, C (.get root key)) :
    (sampleClient last).Only C :=
  ⟨hstart, fun _ => ⟨hset, fun _ => ⟨hlast, fun _ => ⟨hget _ _, fun _ => trivial⟩⟩⟩⟩

theorem stateManager_transparent_sample :
    (run (handler ⟨Smt.sampleSmt, true, true⟩) (sampleClient (.finishTx 0 .database)) (none, [])).1 =
      (run (handler ⟨Smt.sampleSmt, false, true⟩) (sampleClient (.finishTx 0 .database)) (none, [])).1 :=
  stateManager_transparent Smt.sampleSmt true [] _ (only_sampleClient id id id fun _ _ => id)

theorem stateManager_transparent_flush_sample :
    (run (handler ⟨Smt.sampleSmt, true, false⟩) (sampleClient (.flush none .database)) (none, [])).1 =
      (run (handler ⟨Smt.sampleSmt, false, false⟩) (sampleClient (.flush none .database)) (none, [])).1 := by
  have hok : (run (handler ⟨Smt.sampleSmt, true, false⟩) (sampleClient (.flush none .database)) (none, [])).1.isOk = true := by
    decide
  refine stateManager_transparent_flush Smt.sampleSmt [] _ (only_sampleClient trivial rfl trivial fun _ _ => trivial)
    (fun k n n' => (NodeTable.collisionFree (by decide)).unique) fun e he => ?_
  rw [he] at hok
  cases hok

end HashDB

end ZkevmProver
