import ZkevmProver.HashDB.DbSender

/-!
# The database as a write-behind pipeline

Seen without its hash tables, indices and queries, the database with its sender thread is a
write-behind pipeline: every step of the code is a step of the pipeline.

1. What the buffers hold
2. The view and the invariant of the simulation
3. One lemma a step
4. `Db.simulate` and the runs
-/

namespace ZkevmProver

open Transitions

/-! ## What the buffers hold -/

/-- A node or a program, as opposed to a state root. -/
def Entry.IsRow : Entry → Prop
  | .stateRoot _ => False
  | _ => True

/-- A node or a program is the one that `c` gives for its hash. -/
def Entry.Addressed (c : Content) : Entry → Prop
  | .node key value => value = c.node key
  | .program key data => data = c.program key
  | .stateRoot _ => True

/-- The entry waits in the buffer, in the intray or not. -/
def MultiWriteData.Holds (d : MultiWriteData) : Entry → Prop
  | .node key value => d.nodes.lookup key = some value ∨ d.nodesIntray.lookup key = some value
  | .program key data => d.program.lookup key = some data ∨ d.programIntray.lookup key = some data
  | .stateRoot root => d.nodesStateRoot = some root

variable {c : Content}

theorem Entry.Agrees.of_row {root : Option Fea} {e : Entry} (hrow : e.IsRow) (h : e.Addressed c) :
    e.Agrees c root := by
  cases e with
  | stateRoot => exact hrow.elim
  | _ => exact h

namespace HashMap

variable {V : Type} {s t : HashMap V} {f : Fea → V} {k : Fea} {v : V}

/-- When both maps agree with `f`, it does not matter which of them wins. -/
theorem lookup_union (hs : ∀ k v, s.lookup k = some v → v = f k)
    (ht : ∀ k v, t.lookup k = some v → v = f k) :
    (s ∪ t).lookup k = some v ↔ s.lookup k = some v ∨ t.lookup k = some v := by
  rw [AList.lookup_union_eq_some]
  constructor
  · rintro (h | ⟨-, h⟩)
    · exact .inl h
    · exact .inr h
  · rintro (h | h)
    · exact .inl h
    · by_cases hk : k ∈ s
      · obtain ⟨w, hw⟩ := Option.isSome_iff_exists.mp (AList.lookup_isSome.mpr hk)
        have hwv : w = v := (hs k w hw).trans (ht k v h).symm
        exact .inl (hwv ▸ hw)
      · exact .inr ⟨hk, h⟩

theorem lookup_insert (k' : Fea) (v' : V) (hs : ∀ k v, s.lookup k = some v → v = f k)
    (hv : v = f k) :
    (s.insert k v).lookup k' = some v' ↔ (k' = k ∧ v' = v) ∨ s.lookup k' = some v' := by
  by_cases hk : k' = k
  · subst hk
    rw [AList.lookup_insert]
    constructor
    · intro h
      exact .inl ⟨rfl, (Option.some.inj h).symm⟩
    · rintro (⟨-, rfl⟩ | h)
      · rfl
      · rw [hv, hs k' v' h]
  · rw [AList.lookup_insert_ne hk]
    simp [hk]

theorem entries_union_isEmpty :
    (s ∪ t).entries.isEmpty = (s.entries.isEmpty && t.entries.isEmpty) := by
  rw [AList.union_entries]
  cases s.entries with
  | nil => simp
  | cons p l => simp [List.kunion]

end HashMap

namespace MultiWriteData

variable {d : MultiWriteData} {e : Entry}

@[simp] theorem isEmpty_acceptIntray : d.acceptIntray.IsEmpty = d.IsEmpty := by
  unfold IsEmpty acceptIntray
  simp only [HashMap.entries_union_isEmpty, AList.empty_entries, List.isEmpty_nil, Bool.and_true]
  grind

/-- An empty buffer holds nothing. -/
theorem not_holds_of_isEmpty (h : d.IsEmpty = true) : ¬d.Holds e := by
  simp only [IsEmpty, Bool.and_eq_true, List.isEmpty_iff, Option.isNone_iff_eq_none] at h
  obtain ⟨⟨⟨⟨h₁, h₂⟩, h₃⟩, h₄⟩, h₅⟩ := h
  cases e <;> simp [Holds, AList.lookup, h₁, h₂, h₃, h₄, h₅]

/-- A buffer with nothing to send and nothing in its intray is empty. -/
theorem isEmpty_of_not_sends (hn : d.nodesIntray = ∅) (hp : d.programIntray = ∅)
    (h : ∀ e, ¬d.Sends e) : d.IsEmpty = true := by
  have hnil : ∀ {V : Type} (m : HashMap V), (∀ k v, m.lookup k ≠ some v) → m.entries = [] := by
    intro V m hm
    refine List.eq_nil_iff_forall_not_mem.mpr ?_
    rintro ⟨k, v⟩ hkv
    exact hm k v (AList.mem_lookup_iff.mpr hkv)
  have h₁ := hnil d.nodes fun k v => h (.node k v)
  have h₂ := hnil d.program fun k v => h (.program k v)
  have h₃ : d.nodesStateRoot = none :=
    Option.eq_none_iff_forall_ne_some.mpr fun r => h (.stateRoot r)
  simp [IsEmpty, h₁, h₂, h₃, hn, hp]

theorem holds_iff_sends (hn : d.nodesIntray = ∅) (hp : d.programIntray = ∅) :
    d.Holds e ↔ d.Sends e := by
  cases e <;> simp [Holds, Sends, hn, hp]

theorem holds_acceptIntray (hd : ∀ e, d.Holds e → e.Addressed c) :
    d.acceptIntray.Holds e ↔ d.Holds e := by
  cases e with
  | node key value =>
    have h := HashMap.lookup_union (s := d.nodes) (t := d.nodesIntray) (f := c.node) (k := key)
      (v := value) (fun k v h => hd (.node k v) (.inl h)) fun k v h => hd (.node k v) (.inr h)
    simpa [Holds, acceptIntray] using h
  | program key data =>
    have h := HashMap.lookup_union (s := d.program) (t := d.programIntray) (f := c.program)
      (k := key) (v := data) (fun k v h => hd (.program k v) (.inl h))
      fun k v h => hd (.program k v) (.inr h)
    simpa [Holds, acceptIntray] using h
  | stateRoot root => exact Iff.rfl

/-- What waits to be sent agrees with the content and the state root of its buffer. -/
theorem agrees_of_sends (hd : ∀ e, d.Holds e → e.Addressed c) (h : d.Sends e) :
    e.Agrees c d.nodesStateRoot := by
  cases e with
  | node key value => exact hd (.node key value) (.inl h)
  | program key data => exact hd (.program key data) (.inl h)
  | stateRoot root => exact h

end MultiWriteData

namespace MultiWrite

variable {m : MultiWrite} {e e' : Entry}

/-- What the pending buffer holds after one more entry. -/
theorem holds_accept (hm : ∀ e, m.pending.Holds e → e.Addressed c) (he : e.Addressed c)
    (hrow : e'.IsRow) : (m.accept e).pending.Holds e' ↔ e' = e ∨ m.pending.Holds e' := by
  cases e with
  | node key value =>
    cases e' with
    | node k v =>
      have h := HashMap.lookup_insert k v
        (fun k v h => hm (.node k v) (.inr h)) he
      simp only [accept, pending_setPending, MultiWriteData.Holds, h, Entry.node.injEq]
      tauto
    | program k v => simp [accept, MultiWriteData.Holds]
    | stateRoot r => exact hrow.elim
  | program key data =>
    cases e' with
    | node k v => simp [accept, MultiWriteData.Holds]
    | program k v =>
      have h := HashMap.lookup_insert k v
        (fun k v h => hm (.program k v) (.inr h)) he
      simp only [accept, pending_setPending, MultiWriteData.Holds, h, Entry.program.injEq]
      tauto
    | stateRoot r => exact hrow.elim
  | stateRoot root =>
    cases e' with
    | stateRoot r => exact hrow.elim
    | _ => simp [accept, MultiWriteData.Holds]

theorem addressed_accept (hm : ∀ e, m.pending.Holds e → e.Addressed c) (he : e.Addressed c) :
    ∀ e', (m.accept e).pending.Holds e' → e'.Addressed c := by
  intro e' h
  by_cases hrow : e'.IsRow
  · rcases (holds_accept hm he hrow).mp h with rfl | h
    · exact he
    · exact hm e' h
  · cases e' with
    | stateRoot r => trivial
    | _ => exact absurd trivial hrow

@[simp] theorem storing_accept : (m.accept e).storing = m.storing := by
  cases e <;> exact storing_setPending _ _

@[simp] theorem multiQuery_accept : (m.accept e).pending.multiQuery = m.pending.multiQuery := by
  cases e <;> simp [accept]

@[simp] theorem stored_accept : (m.accept e).pending.stored = m.pending.stored := by
  cases e <;> simp [accept]

end MultiWrite

/-! ## The view and the invariant of the simulation -/

namespace Db

/-- The sender thread is on its way to the database, or it has failed there. -/
def Busy (s : Db) : Prop := s.phase ≠ .waiting ∨ s.storing.multiQuery ≠ []

def view (s : Db) : WriteBehind.State Entry Fea where
  pending := {e | e.IsRow ∧ s.pending.Holds e}
  pendingReg := s.pending.nodesStateRoot
  storing := {e | e.IsRow ∧ s.storing.Holds e}
  storingReg := s.storing.nodesStateRoot
  store := {e | e.IsRow ∧ s.tables.Has e}
  storeReg := s.tables.stateRoot
  busy := s.Busy
  lastId := s.multiWrite.lastFlushId
  storingId := s.multiWrite.storingFlushId
  storedId := s.multiWrite.storedFlushId

def label : Event → WriteBehind.Label Entry Fea
  | .accept (.stateRoot root) => .put root
  | .accept e => .accept e
  | .flush => .flush
  | _ => .silent

/-- What holds between any two steps. -/
structure Inv (c : Content) (s : Db) : Prop where
  tables : s.tables.Agrees c
  pending : ∀ e, s.pending.Holds e → e.Addressed c
  storing : ∀ e, s.storing.Holds e → e.Addressed c
  fresh : s.pending.multiQuery = [] ∧ s.pending.stored = false
  intray : s.storing.nodesIntray = ∅ ∧ s.storing.programIntray = ∅
  /-- The queries carry the data being sent. -/
  queries : s.storing.multiQuery ≠ [] →
    ∀ e, e ∈ s.storing.multiQuery.entries ↔ s.storing.Sends e
  /-- What a query marked as sent carries is in the tables. -/
  sent : ∀ q ∈ s.storing.multiQuery, q.sent = true → ∀ e ∈ q.entries, s.tables.Has e
  filled : s.Busy → s.storing.IsEmpty = false ∧ s.storing.stored = false
  sending : s.phase = .sending → s.storing.multiQuery ≠ []

theorem inv_new {tables : Tables} (h : tables.Agrees c) : Inv c (new tables) where
  tables := h
  pending e he := by cases e <;> simp [new, MultiWrite.new, MultiWrite.pending,
    MultiWriteData.Reset, MultiWriteData.Holds] at he
  storing e he := by cases e <;> simp [new, MultiWrite.new, MultiWrite.storing,
    MultiWriteData.Reset, MultiWriteData.Holds] at he
  fresh := ⟨rfl, rfl⟩
  intray := ⟨rfl, rfl⟩
  queries h := absurd rfl h
  sent q hq := by cases hq
  filled h := by
    rcases h with h | h
    · exact absurd rfl h
    · exact absurd rfl h
  sending h := by cases h

/-! ## One lemma a step -/

variable {next : ℕ → ℕ → Prop} {cfg : DbConfig} {s t : Db} {e : Entry}

theorem view_setPending (s : Db) (d : MultiWriteData) :
    view { s with multiWrite := s.multiWrite.setPending d } =
      { view s with pending := {e | e.IsRow ∧ d.Holds e}, pendingReg := d.nodesStateRoot } := by
  apply WriteBehind.State.ext <;> simp [view, Busy]

theorem Inv.setPending (h : Inv c s) {d : MultiWriteData} (hd : ∀ e, d.Holds e → e.Addressed c)
    (hq : d.multiQuery = []) (hst : d.stored = false) :
    Inv c { s with multiWrite := s.multiWrite.setPending d } where
  tables := h.tables
  pending := by simpa using hd
  storing := by simpa using h.storing
  fresh := by simpa using ⟨hq, hst⟩
  intray := by simpa using h.intray
  queries := by simpa using h.queries
  sent := by simpa using h.sent
  filled := by simpa [Busy] using h.filled
  sending := by simpa using h.sending

/-- The ids play no part in the invariant. -/
theorem Inv.of_eq (h : Inv c s) (hd : t.pending = s.pending) (hs : t.storing = s.storing)
    (hp : t.phase = s.phase) (ht : t.tables = s.tables) : Inv c t where
  tables := ht ▸ h.tables
  pending := hd ▸ h.pending
  storing := hs ▸ h.storing
  fresh := hd ▸ h.fresh
  intray := hs ▸ h.intray
  queries := hs ▸ h.queries
  sent := by
    rw [hs, ht]
    exact h.sent
  filled := by
    unfold Busy
    rw [hs, hp]
    exact h.filled
  sending := by
    rw [hs, hp]
    exact h.sending

theorem step_accept (h : Inv c s) (he : e.Addressed c) :
    WriteBehind.Step next s.view (label (.accept e))
      (view { s with multiWrite := s.multiWrite.accept e }) := by
  have hset : ∀ e', e'.IsRow ∧ (s.multiWrite.accept e).pending.Holds e' ↔
      (e'.IsRow ∧ e' = e) ∨ (e'.IsRow ∧ s.pending.Holds e') := by
    intro e'
    rw [← and_or_left]
    exact and_congr_right fun hrow => MultiWrite.holds_accept h.pending he hrow
  have hins : e.IsRow → {e' | e'.IsRow ∧ (s.multiWrite.accept e).pending.Holds e'} =
      insert e s.view.pending := by
    intro hrow
    ext e'
    refine (hset e').trans (or_congr ?_ Iff.rfl)
    exact ⟨And.right, fun h => ⟨h ▸ hrow, h⟩⟩
  cases e with
  | node key value =>
    have hv : view { s with multiWrite := s.multiWrite.accept (.node key value) } =
        { s.view with pending := insert (.node key value) s.view.pending } := by
      rw [← hins trivial]
      exact (view_setPending s _).trans (by simp [MultiWrite.accept, view])
    rw [hv]
    exact .accept _ _
  | program key data =>
    have hv : view { s with multiWrite := s.multiWrite.accept (.program key data) } =
        { s.view with pending := insert (.program key data) s.view.pending } := by
      rw [← hins trivial]
      exact (view_setPending s _).trans (by simp [MultiWrite.accept, view])
    rw [hv]
    exact .accept _ _
  | stateRoot root =>
    have hv : view { s with multiWrite := s.multiWrite.accept (.stateRoot root) } =
        { s.view with pendingReg := some root } := by
      refine (view_setPending s _).trans ?_
      have hset : {e' | e'.IsRow ∧ { s.pending with nodesStateRoot := some root }.Holds e'} =
          s.view.pending := by
        ext e'
        cases e' with
        | stateRoot => exact ⟨fun h => h.1.elim, fun h => h.1.elim⟩
        | _ => exact Iff.rfl
      rw [hset]
    rw [hv]
    exact .put _ _

theorem inv_accept (h : Inv c s) (he : e.Addressed c) :
    Inv c { s with multiWrite := s.multiWrite.accept e } := by
  have hp := MultiWrite.addressed_accept h.pending he
  have hq : (s.multiWrite.accept e).pending.multiQuery = [] :=
    MultiWrite.multiQuery_accept.trans h.fresh.1
  have hst : (s.multiWrite.accept e).pending.stored = false :=
    MultiWrite.stored_accept.trans h.fresh.2
  cases e with
  | _ =>
    simp only [MultiWrite.accept, MultiWrite.pending_setPending] at hp hq hst
    exact h.setPending hp hq hst

theorem view_semiFlush (h : Inv c s) :
    view { s with multiWrite := s.multiWrite.semiFlush } = s.view := by
  refine (view_setPending s _).trans ?_
  have hset : {e | e.IsRow ∧ s.pending.acceptIntray.Holds e} = s.view.pending := by
    ext e
    exact and_congr_right fun _ => MultiWriteData.holds_acceptIntray h.pending
  rw [hset]
  rfl

theorem inv_semiFlush (h : Inv c s) : Inv c { s with multiWrite := s.multiWrite.semiFlush } := by
  refine h.setPending ?_ h.fresh.1 h.fresh.2
  intro e he
  exact h.pending e ((MultiWriteData.holds_acceptIntray h.pending).mp he)

theorem step_flush (hro : cfg.dbReadOnly = false) (h : Inv c s)
    (hn : next s.multiWrite.lastFlushId ((s.multiWrite.lastFlushId + 1) % 2 ^ 64)) :
    WriteBehind.Step next s.view .flush
      (view { s with multiWrite := (s.multiWrite.flush cfg).1 }) := by
  have hv : view { s with multiWrite := (s.multiWrite.flush cfg).1 } =
      { s.view with lastId := (s.multiWrite.lastFlushId + 1) % 2 ^ 64 } := by
    rw [← view_semiFlush h]
    simp only [MultiWrite.flush, hro]
    rfl
  rw [hv]
  exact .flush _ _ hn

theorem inv_flush (hro : cfg.dbReadOnly = false) (h : Inv c s) :
    Inv c { s with multiWrite := (s.multiWrite.flush cfg).1 } := by
  refine (inv_semiFlush h).of_eq ?_ ?_ rfl rfl
  · simp only [MultiWrite.flush, hro]
    rfl
  · simp only [MultiWrite.flush, hro]
    rfl

/-- The thread resumes a failed send, finds nothing to send, or switches the buffers. -/
theorem wake_cases (s : Db) :
    (s.storing.multiQuery ≠ [] ∧ s.wake = { s with phase := .calling }) ∨
      (s.storing.multiQuery = [] ∧ s.pending.IsEmpty = true ∧ s.wake =
        { s with
          multiWrite := { s.multiWrite with storedFlushId := s.multiWrite.lastFlushId } }) ∨
      (s.storing.multiQuery = [] ∧ s.pending.IsEmpty = false ∧ s.wake =
        { s with
          multiWrite := (s.multiWrite.setPending s.pending.acceptIntray).switch
          phase := .calling }) := by
  unfold wake
  cases hq : s.storing.multiQuery with
  | cons q qs => exact .inl ⟨by simp, by simp⟩
  | nil =>
    cases he : s.pending.IsEmpty with
    | true => exact .inr (.inl ⟨rfl, rfl, by simp⟩)
    | false => exact .inr (.inr ⟨rfl, rfl, by simp [he]⟩)

theorem not_busy (hp : s.phase = .waiting) (hq : s.storing.multiQuery = []) : ¬s.Busy := by
  rintro (h | h)
  · exact h hp
  · exact h hq

theorem step_wake (h : Inv c s) (hp : s.phase = .waiting) :
    WriteBehind.Step next s.view .silent s.wake.view := by
  rcases wake_cases s with ⟨hq, hw⟩ | ⟨hq, he, hw⟩ | ⟨hq, he, hw⟩
  · have hv : s.wake.view = s.view := by
      rw [hw]
      apply WriteBehind.State.ext <;> simp [view, Busy, hq]
    rw [hv]
    exact .stutter _
  · rw [hw]
    refine .idle s.view (not_busy hp hq) ?_ ?_
    · refine Set.eq_empty_iff_forall_notMem.mpr ?_
      rintro e ⟨-, hd⟩
      exact MultiWriteData.not_holds_of_isEmpty he hd
    · refine Option.eq_none_iff_forall_ne_some.mpr ?_
      intro r
      exact MultiWriteData.not_holds_of_isEmpty (e := .stateRoot r) he
  · have hv : s.wake.view =
        { s.view with
          pending := ∅, pendingReg := none, storing := s.view.pending,
          storingReg := s.view.pendingReg, busy := True,
          storingId := s.view.lastId } := by
      rw [hw]
      apply WriteBehind.State.ext
      · refine Set.eq_empty_iff_forall_notMem.mpr ?_
        rintro e ⟨-, hd⟩
        rw [pending_mk, MultiWrite.pending_switch] at hd
        exact MultiWriteData.not_holds_of_isEmpty rfl hd
      · exact congrArg MultiWriteData.nodesStateRoot (MultiWrite.pending_switch _)
      · ext e
        show e.IsRow ∧ MultiWriteData.Holds (MultiWrite.storing _) e ↔ _
        rw [MultiWrite.storing_switch, MultiWrite.pending_setPending]
        exact and_congr_right fun _ => MultiWriteData.holds_acceptIntray h.pending
      · show (MultiWrite.storing _).nodesStateRoot = _
        rw [MultiWrite.storing_switch, MultiWrite.pending_setPending]
        rfl
      · rfl
      · rfl
      · exact eq_true (.inl (by simp))
      · rfl
      · rfl
      · rfl
    rw [hv]
    exact .rotate s.view (not_busy hp hq)

theorem inv_wake (h : Inv c s) : Inv c s.wake := by
  rcases wake_cases s with ⟨hq, hw⟩ | ⟨hq, he, hw⟩ | ⟨hq, he, hw⟩
  · rw [hw]
    exact { h with filled := fun _ => h.filled (.inr hq), sending := fun hp => by cases hp }
  · rw [hw]
    exact h.of_eq rfl rfl rfl rfl
  · rw [hw]
    have hfresh := h.fresh
    have hstoring : ((s.multiWrite.setPending s.pending.acceptIntray).switch).storing =
        s.pending.acceptIntray := by simp
    have hnil : ((s.multiWrite.setPending s.pending.acceptIntray).switch).storing.multiQuery =
        [] := by rw [hstoring]; exact hfresh.1
    refine ⟨h.tables, ?_, ?_, ?_, ?_, ?_, ?_, ?_, ?_⟩
    · intro e hd
      rw [pending_mk, MultiWrite.pending_switch] at hd
      exact absurd hd (MultiWriteData.not_holds_of_isEmpty rfl)
    · intro e hd
      rw [storing_mk, hstoring, MultiWriteData.holds_acceptIntray h.pending] at hd
      exact h.pending e hd
    · rw [pending_mk, MultiWrite.pending_switch]
      exact ⟨rfl, rfl⟩
    · rw [storing_mk, hstoring]
      exact ⟨rfl, rfl⟩
    · exact fun hne => absurd hnil hne
    · intro q hq
      rw [storing_mk, hnil] at hq
      cases hq
    · intro _
      rw [storing_mk, hstoring, MultiWriteData.isEmpty_acceptIntray]
      exact ⟨he, hfresh.2⟩
    · intro hp
      cases hp

/-! ### Sending -/

@[simp] theorem holds_queries (d : MultiWriteData)
    (qs : MultiQuery) (st : Bool) (e : Entry) :
    { d with multiQuery := qs, stored := st }.Holds e ↔ d.Holds e := by
  cases e <;> exact Iff.rfl

/-- Inside `sendData` only the queries, the tables and the phase change. -/
theorem view_sending (s : Db) (qs : MultiQuery) (st : Bool) (p : Phase) (tables : Tables) :
    view ⟨s.multiWrite.setStoring { s.storing with multiQuery := qs, stored := st }, p, tables⟩ =
      { s.view with
        store := {e | e.IsRow ∧ tables.Has e}, storeReg := tables.stateRoot,
        busy := p ≠ .waiting ∨ qs ≠ [] } := by
  apply WriteBehind.State.ext <;> simp [view, Busy]

/-- `sendData` goes on with the queries it has, or with new ones. -/
theorem sendData_cases (hro : cfg.dbReadOnly = false) (h : Inv c s) (hp : s.phase = .calling)
    (ht : s.sendData cfg = some t) :
    ∃ qs : MultiQuery, qs ≠ [] ∧
      (qs = s.storing.multiQuery ∨
        s.storing.multiQuery = [] ∧ buildQueries cfg s.storing = some qs) ∧
      t = { s with
        multiWrite := s.multiWrite.setStoring { s.storing with multiQuery := qs }
        phase := .sending } := by
  obtain ⟨hempty, hstored⟩ := h.filled (.inl (by simp [hp]))
  simp only [sendData, hro, hempty, hstored] at ht
  cases hq : s.storing.multiQuery with
  | cons q qs =>
    rw [hq] at ht
    refine ⟨q :: qs, by simp, .inl rfl, ?_⟩
    simpa [hstored] using ht.symm
  | nil =>
    rw [hq] at ht
    simp only [List.isEmpty_nil, if_true, Option.bind_eq_bind, Option.bind_eq_some_iff,
      Bool.false_eq_true, if_false] at ht
    obtain ⟨qs, hbuild, ht⟩ := ht
    have hne : qs ≠ [] := by
      rintro rfl
      have := MultiWriteData.isEmpty_of_not_sends h.intray.1 h.intray.2 fun e he => by
        simpa using (mem_buildQueries hbuild e).mpr he
      rw [hempty] at this
      cases this
    refine ⟨qs, hne, .inr ⟨rfl, hbuild⟩, ?_⟩
    simpa [hne, hstored] using ht.symm

theorem step_sendData (hro : cfg.dbReadOnly = false) (h : Inv c s) (hp : s.phase = .calling)
    (ht : s.sendData cfg = some t) : t.view = s.view := by
  obtain ⟨qs, hne, -, rfl⟩ := sendData_cases hro h hp ht
  refine (view_sending s qs s.storing.stored .sending s.tables).trans ?_
  apply WriteBehind.State.ext <;> simp [view, Busy, hp]

theorem inv_sendData (hro : cfg.dbReadOnly = false) (h : Inv c s) (hp : s.phase = .calling)
    (ht : s.sendData cfg = some t) : Inv c t := by
  obtain ⟨qs, hne, hqs, rfl⟩ := sendData_cases hro h hp ht
  have hfilled := h.filled (.inl (by simp [hp]))
  refine ⟨h.tables, by simpa using h.pending, ?_, by simpa using h.fresh, by simpa using h.intray,
    ?_, ?_, ?_, ?_⟩
  · intro e he
    simp only [storing_mk, MultiWrite.storing_setStoring] at he
    exact h.storing e ((holds_queries _ _ _ _).mp he)
  · intro _ e
    simp only [storing_mk, MultiWrite.storing_setStoring]
    rcases hqs with rfl | ⟨-, hbuild⟩
    · refine (h.queries hne e).trans ?_
      cases e <;> exact Iff.rfl
    · refine (mem_buildQueries hbuild e).trans ?_
      cases e <;> exact Iff.rfl
  · intro q hq hsent
    simp only [storing_mk, MultiWrite.storing_setStoring] at hq
    rcases hqs with rfl | ⟨-, hbuild⟩
    · exact h.sent q hq hsent
    · rw [unsent_buildQueries hbuild q hq] at hsent
      cases hsent
  · intro _
    simpa [MultiWriteData.IsEmpty] using hfilled
  · intro _
    simpa using hne

theorem markSent_eq_nil {qs : MultiQuery} : markSent qs = [] ↔ qs = [] := by
  cases qs with
  | nil => simp [markSent]
  | cons q qs => by_cases hq : q.sent <;> simp [markSent, hq]

theorem entries_markSent (qs : MultiQuery) : (markSent qs).entries = qs.entries := by
  induction qs with
  | nil => rfl
  | cons q qs ih =>
    unfold markSent
    split
    · rw [MultiQuery.entries_cons, MultiQuery.entries_cons, ih]
    · rfl

/-- A query marked as sent was sent before, or it is the first unsent one. -/
theorem sent_markSent {qs : MultiQuery} {q : SingleQuery} (hq : q ∈ markSent qs)
    (hsent : q.sent = true) :
    (q ∈ qs ∧ q.sent = true) ∨
      ∃ q', qs.find? (fun q => !q.sent) = some q' ∧ q.entries = q'.entries := by
  induction qs with
  | nil => cases hq
  | cons p qs ih =>
    by_cases hp : p.sent = true
    · simp only [markSent, hp, if_true, List.mem_cons] at hq
      simp only [List.find?_cons, hp, Bool.not_true]
      rcases hq with rfl | hq
      · exact .inl ⟨by simp, hsent⟩
      · exact (ih hq).imp (fun h => ⟨by simp [h.1], h.2⟩) id
    · rw [markSent, if_neg hp] at hq
      rcases List.mem_cons.mp hq with rfl | hq
      · exact .inr ⟨p, by simp [hp], rfl⟩
      · exact .inl ⟨by simp [hq], hsent⟩

section

variable {q : SingleQuery}

theorem agrees_of_mem (h : Inv c s) (hq : q ∈ s.storing.multiQuery) :
    ∀ e ∈ q.entries, e.Agrees c s.storing.nodesStateRoot := by
  intro e he
  have hmem : e ∈ s.storing.multiQuery.entries := List.mem_flatMap.mpr ⟨q, hq, he⟩
  refine MultiWriteData.agrees_of_sends h.storing ?_
  exact (h.queries (List.ne_nil_of_mem hq) e).mp hmem

theorem mem_of_nextQuery (hq : s.nextQuery = some q) : q ∈ s.storing.multiQuery :=
  List.mem_of_find?_eq_some hq

/-- A query moves a part of the storing buffer to the tables. -/
theorem step_execQuery (h : Inv c s) (hq : q ∈ s.storing.multiQuery) :
    WriteBehind.Step next s.view .silent
      { s.view with
        store := {e | e.IsRow ∧ (s.tables.execQuery q).Has e}
        storeReg := (s.tables.execQuery q).stateRoot } := by
  obtain ⟨-, hsub, hhas⟩ := Tables.execQuery_spec h.tables (agrees_of_mem h hq)
  refine .progress s.view _ _ (.inr (List.ne_nil_of_mem hq)) ?_ ?_
  · rintro e ⟨hrow, he⟩
    refine ⟨hrow, hhas e (Entry.Agrees.of_row hrow ?_) (.inl he)⟩
    cases e with
    | node key value => exact h.tables.nodes _ _ he
    | program key data => exact h.tables.program _ _ he
    | stateRoot => trivial
  · rcases hsub (.stateRoot (s.tables.execQuery q).stateRoot) rfl with hr | hr
    · exact .inl hr.symm
    · exact .inr (agrees_of_mem h hq _ hr)

/-- What sent queries carry stays in the tables. -/
theorem sent_execQuery (h : Inv c s) (hq : q ∈ s.storing.multiQuery) {q' : SingleQuery}
    (hq' : q' ∈ s.storing.multiQuery) (hsent : q'.sent = true ∨ q' = q) :
    ∀ e ∈ q'.entries, (s.tables.execQuery q).Has e := by
  intro e he
  obtain ⟨-, -, hhas⟩ := Tables.execQuery_spec h.tables (agrees_of_mem h hq)
  refine hhas e (agrees_of_mem h hq' e he) ?_
  rcases hsent with hsent | rfl
  · exact .inl (h.sent q' hq' hsent e he)
  · exact .inr he

theorem step_exec (h : Inv c s) (ht : s.exec = some t) :
    WriteBehind.Step next s.view .silent t.view ∧ Inv c t := by
  obtain ⟨q, hq, rfl⟩ := Option.map_eq_some_iff.mp ht
  have hmem := mem_of_nextQuery hq
  have hne := List.ne_nil_of_mem hmem
  constructor
  · have hv := view_sending s (markSent s.storing.multiQuery) s.storing.stored s.phase
      (s.tables.execQuery q)
    rw [hv]
    have hbusy : (s.phase ≠ .waiting ∨ markSent s.storing.multiQuery ≠ []) = s.view.busy := by
      simp [view, Busy, markSent_eq_nil]
    rw [hbusy]
    exact step_execQuery h hmem
  · have hst : ∀ e, MultiWriteData.Holds
        { s.storing with multiQuery := markSent s.storing.multiQuery } e ↔ s.storing.Holds e :=
      holds_queries _ _ _
    refine ⟨(Tables.execQuery_spec h.tables (agrees_of_mem h hmem)).1, by simpa using h.pending,
      ?_, by simpa using h.fresh, by simpa using h.intray, ?_, ?_, ?_, ?_⟩
    · intro e he
      rw [storing_mk, MultiWrite.storing_setStoring, hst] at he
      exact h.storing e he
    · intro _ e
      rw [storing_mk, MultiWrite.storing_setStoring]
      show e ∈ (markSent s.storing.multiQuery).entries ↔ _
      rw [entries_markSent, h.queries hne e]
      cases e <;> exact Iff.rfl
    · intro q' hq' hsent
      rw [storing_mk, MultiWrite.storing_setStoring] at hq'
      rcases sent_markSent hq' hsent with ⟨hq', hsent⟩ | ⟨q'', hq'', heq⟩
      · exact sent_execQuery h hmem hq' (.inl hsent)
      · obtain rfl : q = q'' := Option.some.inj (hq.symm.trans hq'')
        rw [heq]
        exact sent_execQuery h hmem hmem (.inr rfl)
    · intro _
      simpa [MultiWriteData.IsEmpty] using h.filled (.inr hne)
    · intro _
      simpa [markSent_eq_nil] using hne

theorem step_fail (h : Inv c s) {applied : Bool} (ht : s.fail applied = some t) :
    WriteBehind.Step next s.view .silent t.view ∧ Inv c t := by
  obtain ⟨q, hq, rfl⟩ := Option.map_eq_some_iff.mp ht
  have hmem := mem_of_nextQuery hq
  have hne := List.ne_nil_of_mem hmem
  cases applied with
  | false =>
    refine ⟨?_, { h with filled := fun _ => h.filled (.inr hne), sending := fun hp => by cases hp }⟩
    have hv : view { s with phase := .waiting } = s.view := by
      apply WriteBehind.State.ext <;> simp [view, Busy, hne]
    show WriteBehind.Step next s.view .silent (view { s with phase := .waiting })
    rw [hv]
    exact .stutter _
  | true =>
    have hspec := Tables.execQuery_spec h.tables (agrees_of_mem h hmem)
    refine ⟨?_, { h with
      tables := hspec.1
      sent := fun q' hq' hsent => sent_execQuery h hmem hq' (.inl hsent)
      filled := fun _ => h.filled (.inr hne)
      sending := fun hp => by cases hp }⟩
    have hv : view { s with phase := .waiting, tables := s.tables.execQuery q } =
        { s.view with
          store := {e | e.IsRow ∧ (s.tables.execQuery q).Has e}
          storeReg := (s.tables.execQuery q).stateRoot } := by
      apply WriteBehind.State.ext <;> simp [view, Busy, hne]
    show WriteBehind.Step next s.view .silent
      (view { s with phase := .waiting, tables := s.tables.execQuery q })
    rw [hv]
    exact step_execQuery h hmem

/-- When every query is sent, everything that was to be sent is in the tables. -/
theorem has_of_finished (h : Inv c s) (hp : s.phase = .sending) (hq : s.nextQuery = none)
    {e : Entry} (he : s.storing.Sends e) : s.tables.Has e := by
  have hmem := (h.queries (h.sending hp) e).mpr he
  obtain ⟨q, hqs, heq⟩ := List.mem_flatMap.mp hmem
  have hsent := List.find?_eq_none.mp hq q hqs
  exact h.sent q hqs (by simpa using hsent) e heq

theorem step_finish (h : Inv c s) (hp : s.phase = .sending) (ht : s.finish = some t) :
    WriteBehind.Step next s.view .silent t.view ∧ Inv c t := by
  unfold finish at ht
  split at ht
  · rename_i hq
    rw [Option.isNone_iff_eq_none] at hq
    cases ht
    constructor
    · have hv := view_sending s [] true .waiting s.tables
      have hs : WriteBehind.Step next s.view .silent
          { s.view with busy := False, storedId := s.view.storingId } := by
        refine .deliver s.view (.inl (by simp [hp])) ?_ ?_
        · rintro e ⟨hrow, he⟩
          rw [MultiWriteData.holds_iff_sends h.intray.1 h.intray.2] at he
          exact ⟨hrow, has_of_finished h hp hq he⟩
        · intro r hr
          exact has_of_finished h hp hq (e := .stateRoot r) hr
      have hv' : view (succeed { s with
          multiWrite := s.multiWrite.setStoring
            { s.storing with multiQuery := [], stored := true } }) =
          { s.view with busy := False, storedId := s.view.storingId } := by
        apply WriteBehind.State.ext <;> simp [view, Busy, succeed] <;> rfl
      rw [hv']
      exact hs
    · refine ⟨h.tables, by simpa [succeed] using h.pending, ?_, by simpa [succeed] using h.fresh,
        by simpa [succeed] using h.intray, ?_, ?_, ?_, ?_⟩
      · intro e he
        simp only [succeed, storing_mk, MultiWrite.storing_markStored,
          MultiWrite.storing_setStoring] at he
        exact h.storing e ((holds_queries _ _ _ _).mp he)
      · intro hne
        simp [succeed] at hne
      · intro q hq
        simp [succeed] at hq
      · rintro (hb | hb)
        · exact absurd rfl hb
        · simp [succeed] at hb
      · intro hp
        cases hp
  · cases ht

end

/-! ## Runs -/

/-- The condition on a step: nodes and programs are stored under their hash. -/
def Event.Addressed (c : Content) : Event → Prop
  | .accept e => e.Addressed c
  | _ => True

/-- A step of the code is a step of the pipeline, and keeps the invariant. -/
theorem simulate (hro : cfg.dbReadOnly = false) {ev : Event} (hev : ev.Addressed c)
    (hnext : ev = .flush →
      next s.multiWrite.lastFlushId ((s.multiWrite.lastFlushId + 1) % 2 ^ 64))
    (h : Inv c s) (hs : s.step cfg ev = some t) :
    WriteBehind.Step next s.view (label ev) t.view ∧ Inv c t := by
  cases ev with
  | accept e =>
    cases hs
    exact ⟨step_accept h hev, inv_accept h hev⟩
  | flush =>
    cases hs
    exact ⟨step_flush hro h (hnext rfl), inv_flush hro h⟩
  | semiFlush =>
    cases hs
    refine ⟨?_, inv_semiFlush h⟩
    rw [view_semiFlush h]
    exact .stutter _
  | wake =>
    obtain ⟨hp, hs⟩ := Option.ite_none_right_eq_some.mp hs
    cases hs
    exact ⟨step_wake h hp, inv_wake h⟩
  | sendData =>
    obtain ⟨hp, hs⟩ := Option.ite_none_right_eq_some.mp hs
    refine ⟨?_, inv_sendData hro h hp hs⟩
    rw [step_sendData hro h hp hs]
    exact .stutter _
  | exec =>
    obtain ⟨-, hs⟩ := Option.ite_none_right_eq_some.mp hs
    exact step_exec h hs
  | fail applied =>
    obtain ⟨-, hs⟩ := Option.ite_none_right_eq_some.mp hs
    exact step_fail h hs
  | finish =>
    obtain ⟨hp, hs⟩ := Option.ite_none_right_eq_some.mp hs
    exact step_finish h hp hs

theorem label_ne_flush {ev : Event} (h : ev ≠ .flush) : label ev ≠ .flush := by
  cases ev with
  | flush => exact absurd rfl h
  | accept e => cases e <;> simp [label]
  | _ => simp [label]

theorem lastFlushId_flush (hro : cfg.dbReadOnly = false) (m : MultiWrite)
    (hm : m.lastFlushId + 1 < 2 ^ 64) : (m.flush cfg).1.lastFlushId = m.lastFlushId + 1 := by
  simp only [MultiWrite.flush, hro]
  exact Nat.mod_eq_of_lt hm

/-- A run with fewer than `2 ^ 64` flushes is a run of the pipeline whose flush numbers grow. -/
theorem run_view (hro : cfg.dbReadOnly = false) {es : List Event}
    (h : Run (steps (step cfg)) s es t) (hs : Inv c s) (haddr : ∀ ev ∈ es, ev.Addressed c)
    (hcount : s.multiWrite.lastFlushId + es.count .flush < 2 ^ 64) :
    Run (WriteBehind.Step (· < ·)) s.view (es.map label) t.view ∧ Inv c t ∧
      t.multiWrite.lastFlushId = s.multiWrite.lastFlushId + es.count .flush := by
  induction es generalizing s with
  | nil =>
    cases h
    exact ⟨rfl, hs, rfl⟩
  | cons ev es ih =>
    obtain ⟨u, hu, h⟩ := h
    have hlt : ev = .flush → s.multiWrite.lastFlushId + 1 < 2 ^ 64 := by
      rintro rfl
      rw [List.count_cons_self] at hcount
      omega
    have hgrow : ev = .flush →
        s.multiWrite.lastFlushId < (s.multiWrite.lastFlushId + 1) % 2 ^ 64 := by
      intro hev
      rw [Nat.mod_eq_of_lt (hlt hev)]
      exact Nat.lt_succ_self _
    obtain ⟨hstep, hinv⟩ := simulate hro (haddr ev (by simp)) hgrow hs hu
    have hlast : u.multiWrite.lastFlushId + es.count .flush =
        s.multiWrite.lastFlushId + (ev :: es).count .flush := by
      by_cases hev : ev = .flush
      · subst hev
        cases hu
        have := lastFlushId_flush hro s.multiWrite (hlt rfl)
        rw [List.count_cons_self]
        show (s.multiWrite.flush cfg).1.lastFlushId + _ = _
        omega
      · rw [List.count_cons_of_ne hev]
        exact congrArg (· + _) (hstep.lastId_eq (label_ne_flush hev))
    obtain ⟨hrun, ht, hcount'⟩ := ih h hinv (fun ev hev => haddr ev (by simp [hev])) (by omega)
    exact ⟨⟨u.view, hstep, hrun⟩, ht, hcount'.trans hlast⟩

theorem fresh_new (tables : Tables) : WriteBehind.Fresh (new tables).view where
  pending := by
    refine Set.eq_empty_iff_forall_notMem.mpr ?_
    rintro e ⟨-, he⟩
    exact MultiWriteData.not_holds_of_isEmpty rfl he
  pendingReg := rfl
  busy := not_busy rfl rfl
  lastId := rfl
  storingId := rfl
  storedId := rfl

end Db

end ZkevmProver
