import ZkevmProver.HashDB.DbPipeline

/-!
# What readers and flush ids can rely on

1. Reads of data on their way to the database: `no_lost_read`
2. The meaning of the stored flush id: `stored_flush_id`
-/

namespace ZkevmProver

open Transitions

variable {c : Content}

/-! ## Reads -/

/-- The node or program is found in the buffers, with its value. -/
def MultiWrite.Finds (m : MultiWrite) : Entry → Prop
  | .node key value => m.findNode key = some value
  | .program key data => m.findProgram key = some data
  | .stateRoot _ => False

namespace MultiWrite

variable {m : MultiWrite} {e : Entry}

theorem or_eq_some_of {α : Type} {a b : Option α} {v : α} (ha : ∀ w, a = some w → w = v)
    (h : a = some v ∨ b = some v) : a.or b = some v := by
  cases a with
  | none => simpa using h
  | some w => rw [Option.some_or, ha w rfl]

theorem findNode_eq_some {key : Fea} {value : NodeData} (hv : value = c.node key)
    (hp : ∀ e, m.pending.Holds e → e.Addressed c)
    (h : m.pending.Holds (.node key value) ∨
      (m.storingFlushId ≠ m.storedFlushId ∧ m.storing.nodes.lookup key = some value)) :
    m.findNode key = some value := by
  refine or_eq_some_of (fun w hw => (hp (.node key w) (.inl hw)).trans hv.symm) ?_
  rcases h with (h | h) | ⟨hid, h⟩
  · exact .inl h
  · exact .inr (or_eq_some_of (fun w hw => (hp (.node key w) (.inr hw)).trans hv.symm) (.inl h))
  · refine .inr (or_eq_some_of (fun w hw => (hp (.node key w) (.inr hw)).trans hv.symm) (.inr ?_))
    rw [if_pos hid]
    exact h

theorem findProgram_eq_some {key : Fea} {data : ProgramData} (hd : data = c.program key)
    (hp : ∀ e, m.pending.Holds e → e.Addressed c)
    (h : m.pending.Holds (.program key data) ∨ m.storing.program.lookup key = some data) :
    m.findProgram key = some data := by
  refine or_eq_some_of (fun w hw => (hp (.program key w) (.inl hw)).trans hd.symm) ?_
  rcases h with (h | h) | h
  · exact .inl h
  · exact .inr (or_eq_some_of (fun w hw => (hp (.program key w) (.inr hw)).trans hd.symm) (.inl h))
  · exact .inr (or_eq_some_of (fun w hw => (hp (.program key w) (.inr hw)).trans hd.symm) (.inr h))

end MultiWrite

def Entry.IsNode : Entry → Prop
  | .node _ _ => True
  | _ => False

namespace Db

variable {cfg : DbConfig} {s t : Db} {e : Entry} {tables : Tables} {es es₁ es₂ : List Event}

/-- The condition on a step: nodes and programs come under their hash, and a wake-up that switches
the buffers while the last flush id is the stored one finds all pending nodes in the tables. -/
def Safe (c : Content) (s : Db) (ev : Event) : Prop :=
  ev.Addressed c ∧
    (ev = .wake → s.storing.multiQuery = [] →
      s.multiWrite.lastFlushId = s.multiWrite.storedFlushId →
      ∀ key value, s.pending.Holds (.node key value) → s.tables.Has (.node key value))

/-- Only a wake-up makes the thread busy. -/
theorem eq_wake_of_rotates {ev : Event}
    (hs : s.step cfg ev = some t) (h : WriteBehind.Rotates s.view t.view) : ev = .wake := by
  obtain ⟨hb, hb'⟩ := h
  have hp : s.phase = .waiting := by
    by_contra hp
    exact hb (.inl hp)
  have hidle : ∀ m : MultiWrite, m.storing = s.storing → t = { s with multiWrite := m } → False := by
    rintro m hm rfl
    refine hb ?_
    rcases hb' with h | h
    · exact .inl h
    · exact .inr (by rwa [storing_mk, hm] at h)
  cases ev with
  | wake => rfl
  | accept e => exact (hidle _ MultiWrite.storing_accept (Option.some.inj hs).symm).elim
  | semiFlush => exact (hidle _ (MultiWrite.storing_setPending _ _) (Option.some.inj hs).symm).elim
  | flush => exact (hidle _ (MultiWrite.storing_flush cfg _) (Option.some.inj hs).symm).elim
  | sendData | exec | fail | finish => simp [step, hp] at hs

theorem accept_mem_map (hrow : e.IsRow) (he : .accept e ∈ es) :
    WriteBehind.Label.accept e ∈ es.map label := by
  refine List.mem_map.mpr ⟨_, he, ?_⟩
  cases e with
  | stateRoot => exact hrow.elim
  | _ => rfl

/-- Every accepted node is found with its value or is in the tables, and so is every program, in
every run whose steps are all safe. -/
theorem no_lost_read (hro : cfg.dbReadOnly = false) (htables : tables.Agrees c)
    (h : Run (restrict (steps (step cfg)) (Safe c)) (new tables) es s) (hrow : e.IsRow)
    (he : .accept e ∈ es) : s.multiWrite.Finds e ∨ s.tables.Has e := by
  -- the pipeline whose rotations under an old flush id find the pending nodes in the store
  let R : WriteBehind.State Entry Fea → WriteBehind.Label Entry Fea →
      WriteBehind.State Entry Fea → Prop := fun s l t =>
    WriteBehind.Step (fun _ _ => True) s l t ∧
      (WriteBehind.Rotates s t → s.lastId = s.storedId → ∀ e ∈ s.pending, e.IsNode → e ∈ s.store)
  obtain ⟨hrun, hinv⟩ : Run R (new tables).view (es.map label) s.view ∧ Inv c s := by
    refine h.simulate (inv_new htables) ?_
    rintro u ev v hu ⟨⟨haddr, hsafe⟩, hs⟩
    obtain ⟨hstep, hv⟩ : WriteBehind.Step (fun _ _ => True) u.view (label ev) v.view ∧ Inv c v :=
      simulate hro haddr (fun _ => trivial) hu hs
    refine ⟨⟨hstep, ?_⟩, hv⟩
    rintro hrot hid e ⟨hrow, hpend⟩ hnode
    have hq : u.storing.multiQuery = [] := by
      by_contra hq
      exact hrot.1 (.inr hq)
    cases e with
    | node key value =>
      exact ⟨trivial, hsafe (eq_wake_of_rotates hs hrot) hq hid key value hpend⟩
    | _ => exact hnode.elim
  have hmem := accept_mem_map hrow he
  have hloc : WriteBehind.Located (fun s => e.IsNode → s.storingId ≠ s.storedId) (fun _ => True) e
      s.view := by
    refine WriteBehind.located_of_run (R := R) (fun _ _ _ hs => hs.1) (fun _ _ _ _ _ => trivial) ?_
      hrun hmem
    intro u l v hs hu
    refine hu.step hs.1 ?_ (fun _ _ _ => trivial) ?_
    · intro hb hb' hA hnode
      rw [(hs.1.ids_of_busy hb hb').1, (hs.1.ids_of_busy hb hb').2]
      exact hA hnode
    · intro hrot hpend _
      obtain ⟨hstoring, hstored⟩ := hs.1.ids_of_rotates hrot
      by_cases hstore : e ∈ u.store
      · exact .inl hstore
      · refine .inr fun hnode hid => hstore (hs.2 hrot ?_ e hpend hnode)
        rw [← hstoring, hid, hstored]
  rcases hloc with ⟨-, h⟩ | ⟨hA, -, -, h⟩ | ⟨-, -, h⟩
  · exact .inr h
  · left
    have hsends := (MultiWriteData.holds_iff_sends hinv.intray.1 hinv.intray.2).mp h
    cases e with
    | node key value =>
      exact MultiWrite.findNode_eq_some (hinv.storing _ h) hinv.pending (.inr ⟨hA trivial, hsends⟩)
    | program key data =>
      exact MultiWrite.findProgram_eq_some (hinv.storing _ h) hinv.pending (.inr hsends)
    | stateRoot => exact hrow.elim
  · left
    cases e with
    | node key value => exact MultiWrite.findNode_eq_some (hinv.pending _ h) hinv.pending (.inl h)
    | program key data =>
      exact MultiWrite.findProgram_eq_some (hinv.pending _ h) hinv.pending (.inl h)
    | stateRoot => exact hrow.elim

/-! ### Two runs -/

def sampleConfig : DbConfig where
  dbReadOnly := false
  dbMultiWriteSingleQuerySize := 10000
  dbNodesTableName := "state.nodes"
  dbProgramTableName := "state.program"

/-- The content of the one node of the runs below. -/
def sampleContent : Content where
  node _ := [5]
  program _ := [7]

theorem empty_agrees (c : Content) : Tables.empty.Agrees c where
  nodes _ _ h := by cases h
  program _ _ h := by cases h

/-- A node written and flushed, and the sender thread on its way with it. -/
def readEvents : List Event := [.accept (.node 1 [5]), .flush, .wake]

def readState : Db := (follow (step sampleConfig) (new .empty) readEvents).get (by decide)

theorem safe_of_ne_wake {ev : Event} (haddr : ev.Addressed c) (hev : ev ≠ .wake) : Safe c s ev :=
  ⟨haddr, fun h => absurd h hev⟩

theorem no_lost_read_sample :
    readState.multiWrite.Finds (.node 1 [5]) ∨ readState.tables.Has (.node 1 [5]) := by
  have hrun : Run (restrict (steps (step sampleConfig)) (Safe sampleContent)) (new .empty)
      readEvents readState := by
    refine ⟨_, ⟨safe_of_ne_wake rfl (by simp), rfl⟩, _, ⟨safe_of_ne_wake trivial (by simp), rfl⟩,
      _, ⟨⟨trivial, ?_⟩, rfl⟩, rfl⟩
    intro _ _ hid
    exact absurd hid (by decide)
  exact no_lost_read rfl (empty_agrees _) hrun trivial (by simp [readEvents])

/-- A node that the sender thread takes up after its timeout, before any flush. -/
def lostEvents : List Event := [.accept (.node 1 [5]), .wake]

def lostState : Db := (follow (step sampleConfig) (new .empty) lostEvents).get (by decide)

/-- Such a node is in none of the places where a read looks for it, until it is sent. -/
theorem lost_read : ¬∀ c cfg tables es s, Tables.Agrees c tables → (∀ ev ∈ es, ev.Addressed c) →
    cfg.dbReadOnly = false → Run (steps (step cfg)) (new tables) es s →
    ∀ e, e.IsRow → .accept e ∈ es → s.multiWrite.Finds e ∨ s.tables.Has e := by
  intro h
  have haddr : ∀ ev ∈ lostEvents, ev.Addressed sampleContent := by
    simp [lostEvents, Event.Addressed, Entry.Addressed, sampleContent]
  have hrun : Run (steps (step sampleConfig)) (new .empty) lostEvents lostState :=
    run_steps_iff.mpr (Option.some_get _).symm
  rcases h _ _ _ _ _ (empty_agrees _) haddr rfl hrun (.node 1 [5]) trivial
    (by simp [lostEvents]) with h | h
  · have hnone : lostState.multiWrite.findNode 1 = none := by decide
    cases hnone.symm.trans h
  · have hnone : lostState.tables.nodes 1 = none := by decide
    cases hnone.symm.trans h

/-! ## Flush ids -/

/-- The last state root handed over. -/
def lastStateRoot (es : List Event) : Option Fea := WriteBehind.lastReg (es.map label)

/-- What the flush ids mean after the events `es`. -/
structure FlushIdsMean (cfg : DbConfig) (tables : Tables) (es : List Event) (s : Db) : Prop where
  /-- Once the id of a flush is reported as stored, what was handed over before that flush is in the
  tables; a later state root may have replaced the last one. -/
  stored : ∀ es₁ es₂ s₁ r, es = es₁ ++ .flush :: es₂ →
    Run (steps (step cfg)) (new tables) es₁ s₁ → (s₁.multiWrite.flush cfg).2 = some r →
    r.thisBatch ≤ s.multiWrite.getFlushStatus.storedFlushId →
    (∀ e, e.IsRow → .accept e ∈ es₁ → s.tables.Has e) ∧
      ∀ root, lastStateRoot es₁ = some root →
        s.tables.Has (.stateRoot root) ∨ .accept (.stateRoot s.tables.stateRoot) ∈ es₂
  /-- The ids never decrease. -/
  mono : ∀ es₁ es₂ s₁, es = es₁ ++ es₂ → Run (steps (step cfg)) (new tables) es₁ s₁ →
    s₁.multiWrite.lastFlushId ≤ s.multiWrite.lastFlushId ∧
      s₁.multiWrite.storedFlushId ≤ s.multiWrite.storedFlushId
  stored_le_last : s.multiWrite.storedFlushId ≤ s.multiWrite.lastFlushId
  /-- No node or program is dropped. -/
  kept : ∀ e, e.IsRow → .accept e ∈ es →
    s.tables.Has e ∨ s.storing.Holds e ∨ s.pending.Holds e
  /-- Nor is the last state root. -/
  root_kept : ∀ root, lastStateRoot es = some root → s.tables.Has (.stateRoot root) ∨
    s.storing.Holds (.stateRoot root) ∨ s.pending.Holds (.stateRoot root)

theorem accept_of_put_mem_map {root : Fea} (h : WriteBehind.Label.put root ∈ es.map label) :
    .accept (.stateRoot root) ∈ es := by
  obtain ⟨ev, hev, hl⟩ := List.mem_map.mp h
  cases ev with
  | accept e =>
    cases e with
    | stateRoot r =>
      cases hl
      exact hev
    | _ => cases hl
  | _ => cases hl

/-- The stored flush id means what clients take it to mean, in every run with fewer than `2 ^ 64`
flushes. -/
theorem stored_flush_id (hro : cfg.dbReadOnly = false) (htables : tables.Agrees c)
    (h : Run (steps (step cfg)) (new tables) es s) (haddr : ∀ ev ∈ es, ev.Addressed c)
    (hcount : es.count .flush < 2 ^ 64) : FlushIdsMean cfg tables es s := by
  have hzero : (new tables).multiWrite.lastFlushId = 0 := rfl
  have hfresh := fresh_new tables
  obtain ⟨hrun, -, -⟩ := run_view hro h (inv_new htables) haddr (by omega)
  -- a prefix of the run and the rest of it are runs of the pipeline
  have hsplit : ∀ es₁ es₂ s₁, es = es₁ ++ es₂ → Run (steps (step cfg)) (new tables) es₁ s₁ →
      Run (WriteBehind.Step (· < ·)) (new tables).view (es₁.map label) s₁.view ∧
        Run (WriteBehind.Step (· < ·)) s₁.view (es₂.map label) s.view ∧ Inv c s₁ ∧
        s₁.multiWrite.lastFlushId + es₂.count .flush < 2 ^ 64 := by
    rintro es₁ es₂ s₁ rfl h₁
    obtain ⟨s₁', h₁', h₂⟩ := run_append.mp h
    obtain rfl := h₁.unique h₁'
    rw [List.count_append] at hcount
    obtain ⟨hrun₁, hinv₁, hlast₁⟩ :=
      run_view hro h₁ (inv_new htables) (fun ev hev => haddr ev (by simp [hev])) (by omega)
    obtain ⟨hrun₂, -, -⟩ :=
      run_view hro h₂ hinv₁ (fun ev hev => haddr ev (by simp [hev])) (by omega)
    exact ⟨hrun₁, hrun₂, hinv₁, by omega⟩
  refine ⟨?_, ?_, ?_, ?_, ?_⟩
  · intro es₁ es₂ s₁ r hes h₁ hr hid
    obtain ⟨hrun₁, -, hinv₁, hlt⟩ := hsplit es₁ (.flush :: es₂) s₁ hes h₁
    rw [List.count_cons_self] at hlt
    have hlast := lastFlushId_flush hro s₁.multiWrite (by omega)
    let s₂ : Db := { s₁ with multiWrite := (s₁.multiWrite.flush cfg).1 }
    have hflush : WriteBehind.Step (· < ·) s₁.view .flush s₂.view :=
      step_flush hro hinv₁ (by rw [Nat.mod_eq_of_lt (by omega)]; omega)
    have hs₂ : steps (step cfg) s₁ .flush s₂ := rfl
    obtain ⟨-, hrun₂, -⟩ := hsplit (es₁ ++ [.flush]) es₂ s₂ (by simp [hes])
      (run_concat.mpr ⟨s₁, h₁, hs₂⟩)
    have hu : s₂.view.lastId ≤ s.view.storedId := by
      have hbatch : r.thisBatch = (s₁.multiWrite.flush cfg).1.lastFlushId := by
        simp only [MultiWrite.flush, hro] at hr ⊢
        cases hr
        rfl
      show (s₁.multiWrite.flush cfg).1.lastFlushId ≤ _
      rw [← hbatch]
      exact hid
    constructor
    · intro e hrow he
      exact (WriteBehind.stored_of_flushed hrun₁ hfresh hflush hrun₂ hu (accept_mem_map hrow he)).2
    · intro root hroot
      exact (WriteBehind.reg_of_flushed hrun₁ hfresh hflush hrun₂ hu hroot).imp id
        accept_of_put_mem_map
  · intro es₁ es₂ s₁ hes h₁
    obtain ⟨hrun₁, hrun₂, -, -⟩ := hsplit es₁ es₂ s₁ hes h₁
    exact WriteBehind.ids_mono hrun₂ (WriteBehind.ordered_of_run hrun₁ hfresh)
  · exact (WriteBehind.ordered_of_run hrun hfresh).stored_le
  · intro e hrow he
    rcases WriteBehind.kept hrun (accept_mem_map hrow he) with h | ⟨-, -, h⟩ | ⟨-, h⟩
    · exact .inl h.2
    · exact .inr (.inl h.2)
    · exact .inr (.inr h.2)
  · intro root hroot
    rcases WriteBehind.latestReg_of_run hrun root hroot with h | ⟨-, -, h⟩ | ⟨-, -, h⟩
    · exact .inr (.inr h)
    · exact .inr (.inl h)
    · exact .inl h

/-! ### A run -/

/-- A node and a root handed over, flushed and sent; a second root comes before the send. -/
def storedEvents : List Event :=
  [.accept (.node 1 [5]), .accept (.stateRoot 1)] ++ .flush ::
    [.accept (.stateRoot ⟨2, 0, 0, 0⟩), .wake, .sendData, .exec, .finish]

def storedState : Db := (follow (step sampleConfig) (new .empty) storedEvents).get (by decide)

theorem run_storedEvents :
    Run (steps (step sampleConfig)) (new .empty) storedEvents storedState :=
  run_steps_iff.mpr (Option.some_get _).symm

theorem addressed_storedEvents : ∀ ev ∈ storedEvents, ev.Addressed sampleContent := by
  simp [storedEvents, Event.Addressed, Entry.Addressed, sampleContent]

theorem stored_flush_id_sample : FlushIdsMean sampleConfig .empty storedEvents storedState :=
  stored_flush_id rfl (empty_agrees _) run_storedEvents addressed_storedEvents (by decide)

/-- The root in the database need not be the last one handed over before the flush. -/
theorem root_replaced : ¬∀ c cfg tables es₁ es₂ s₁ s r root, Tables.Agrees c tables →
    (∀ ev ∈ es₁ ++ .flush :: es₂, ev.Addressed c) → cfg.dbReadOnly = false →
    Run (steps (step cfg)) (new tables) es₁ s₁ → (s₁.multiWrite.flush cfg).2 = some r →
    Run (steps (step cfg)) (new tables) (es₁ ++ .flush :: es₂) s →
    r.thisBatch ≤ s.multiWrite.getFlushStatus.storedFlushId → lastStateRoot es₁ = some root →
    s.tables.Has (.stateRoot root) := by
  intro h
  have hroot := h _ _ _ [.accept (.node 1 [5]), .accept (.stateRoot 1)]
    [.accept (.stateRoot ⟨2, 0, 0, 0⟩), .wake, .sendData, .exec, .finish] _ storedState _ 1
    (empty_agrees _) addressed_storedEvents rfl ⟨_, rfl, _, rfl, rfl⟩ rfl run_storedEvents
    (by decide) rfl
  have hne : storedState.tables.stateRoot ≠ 1 := by decide
  exact hne hroot

end Db

end ZkevmProver
