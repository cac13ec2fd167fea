import ZkevmProver.HashDB.DbSender

/-!
# Every row once

For which data the queries of `sendData` carry every row exactly once, and which queries are sent
again after a failure.

1. The size of the text of the rows: `InsertTarget.rowsSize`
2. Rows that fit into the current query, and rows that do not: `fill_of_lt`, `length_lt_fill`
3. The queries for the data: `buildQueries_once`
4. The queries that a resend sends: `Db.resends`
-/

namespace ZkevmProver

/-! ## The size of the text of the rows -/

namespace InsertTarget

variable {ρ : Type} (t : InsertTarget ρ)

/-- The size of the text of the rows, with the commas between them. -/
def rowsSize (rows : List ρ) : ℕ :=
  (rows.map fun row => rowSize (t.digits row)).sum + ", ".length * (rows.length - 1)

/-- With all rows, the text of a query that has the size `start` stays below the limit. -/
def Fits (limit start : ℕ) (rows : List ρ) : Prop :=
  rows ≠ [] → start + t.headSize + t.rowsSize rows < limit

/-- The size of the text of that query after its insert. -/
def endSize (start : ℕ) (rows : List ρ) : ℕ :=
  if rows.isEmpty then start else start + t.headSize + t.rowsSize rows + onConflictSize

theorem grow_rowsSize (base : ℕ) (rows : List ρ) (row : ρ) :
    t.grow (base + t.rowsSize rows) rows row = base + t.rowsSize (rows ++ [row]) := by
  unfold grow rowsSize
  cases rows with
  | nil => simp
  | cons r rows =>
    simp only [List.isEmpty_cons, Bool.false_eq_true, if_false, List.cons_append, List.map_cons,
      List.map_append, List.map_nil, List.sum_cons, List.sum_append, List.sum_nil,
      List.length_cons, List.length_append, List.length_nil, Nat.add_sub_cancel]
    generalize ", ".length = comma
    rw [Nat.mul_add, Nat.mul_add]
    omega

theorem rowsSize_le_append (rows rest : List ρ) : t.rowsSize rows ≤ t.rowsSize (rows ++ rest) := by
  unfold rowsSize
  have hlen : rows.length - 1 ≤ (rows ++ rest).length - 1 := by simp; omega
  have hsum : (rows.map fun row => rowSize (t.digits row)).sum ≤
      ((rows ++ rest).map fun row => rowSize (t.digits row)).sum := by simp
  exact Nat.add_le_add hsum (Nat.mul_le_mul_left _ hlen)

/-! ## Rows that fit into the current query, and rows that do not -/

variable {t}

theorem fill_of_lt {limit : ℕ} (q : SingleQuery) (base : ℕ) {rest : List ρ} :
    ∀ rows, base + t.rowsSize (rows ++ rest) < limit →
      t.fill limit q (base + t.rowsSize rows) rows rest =
        some [t.close q (rows ++ rest) (base + t.rowsSize (rows ++ rest))] := by
  induction rest with
  | nil =>
    intro rows _
    simp [fill]
  | cons row rest ih =>
    intro rows h
    have happ : rows ++ row :: rest = (rows ++ [row]) ++ rest := by simp
    have hle := t.rowsSize_le_append (rows ++ [row]) rest
    rw [happ] at h ⊢
    have hlt : base + t.rowsSize (rows ++ [row]) < limit := by omega
    unfold fill
    rw [t.grow_rowsSize, if_pos hlt]
    exact ih _ h

/-- No row is lost. -/
theorem length_le_fill {entry : ρ → Entry} (ht : t.Carries entry) {limit : ℕ} {rest : List ρ} :
    ∀ {q size rows qs}, t.fill limit q size rows rest = some qs →
      q.entries.length + (rows.length + rest.length) ≤ (MultiQuery.entries qs).length := by
  induction rest with
  | nil =>
    intro q size rows qs h
    cases h
    simp [entries_close ht]
  | cons row rest ih =>
    intro q size rows qs h
    rcases fill_cons h with h | ⟨qs', h', rfl⟩
    · have := ih h
      simp only [List.length_append, List.length_cons, List.length_nil] at this ⊢
      omega
    · have hrest := ih h'
      have hclose := congrArg List.length
        (entries_close ht q (rows ++ [row]) (t.grow size rows row))
      -- `full` says nothing about the statements
      change _ ≤ ((t.close q (rows ++ [row]) (t.grow size rows row)).entries ++
        MultiQuery.entries qs').length
      simp only [List.length_append, List.length_map, List.length_cons, List.length_nil,
        SingleQuery.entries_empty] at hrest hclose ⊢
      omega

/-- The row at a cut is carried twice. -/
theorem length_lt_fill {entry : ρ → Entry} (ht : t.Carries entry) {limit : ℕ} {q : SingleQuery}
    {base : ℕ} {rest : List ρ} : ∀ rows {qs}, rest ≠ [] ∨ base + t.rowsSize rows < limit →
      ¬base + t.rowsSize (rows ++ rest) < limit →
      t.fill limit q (base + t.rowsSize rows) rows rest = some qs →
      q.entries.length + (rows.length + rest.length) < (MultiQuery.entries qs).length := by
  induction rest with
  | nil =>
    intro rows qs hrest hlimit _
    rw [List.append_nil] at hlimit
    exact absurd (hrest.resolve_left (by simp)) hlimit
  | cons row rest ih =>
    intro rows qs _ hlimit h
    have happ : rows ++ row :: rest = (rows ++ [row]) ++ rest := by simp
    rw [happ] at hlimit
    unfold fill at h
    rw [t.grow_rowsSize] at h
    by_cases hlt : base + t.rowsSize (rows ++ [row]) < limit
    · rw [if_pos hlt] at h
      have := ih _ (.inr hlt) hlimit h
      simp only [List.length_append, List.length_cons, List.length_nil] at this ⊢
      omega
    · rw [if_neg hlt] at h
      by_cases hfirst : t.grow t.headSize [] row < limit
      · rw [if_pos hfirst] at h
        obtain ⟨qs', h', rfl⟩ := Option.map_eq_some_iff.mp h
        have hrest := length_le_fill ht h'
        have hclose := congrArg List.length
          (entries_close ht q (rows ++ [row]) (base + t.rowsSize (rows ++ [row])))
        change _ < ((t.close q (rows ++ [row]) (base + t.rowsSize (rows ++ [row]))).entries ++
          MultiQuery.entries qs').length
        simp only [List.length_append, List.length_map, List.length_cons, List.length_nil,
          SingleQuery.entries_empty] at hrest hclose ⊢
        omega
      · rw [if_neg hfirst] at h
        cases h

end InsertTarget

/-! ## The queries for the data -/

/-- The statement is a complete one: an insert has at least one row. -/
def Statement.Complete : Statement → Prop
  | .insertNodes rows => rows ≠ []
  | .insertProgram rows => rows ≠ []
  | .updateStateRoot _ => True

/-- The rows to send, in the order of the two maps, and the state root. -/
def MultiWriteData.rows (d : MultiWriteData) : List Entry :=
  d.nodes.entries.map (fun row => .node row.1 row.2) ++
    d.program.entries.map (fun row => .program row.1 row.2) ++
    d.nodesStateRoot.toList.map .stateRoot

/-- All rows fit into one query. -/
def MultiWriteData.OneQuery (cfg : DbConfig) (d : MultiWriteData) : Prop :=
  (InsertTarget.nodes cfg).Fits cfg.dbMultiWriteSingleQuerySize 0 d.nodes.entries ∧
    (InsertTarget.program cfg).Fits cfg.dbMultiWriteSingleQuerySize
      ((InsertTarget.nodes cfg).endSize 0 d.nodes.entries) d.program.entries

/-- Building the queries ends, and their statements, which are complete, carry every row once and
in order. -/
def MultiWriteData.BuiltOnce (cfg : DbConfig) (d : MultiWriteData) : Prop :=
  ∃ qs, buildQueries cfg d = some qs ∧ qs.entries = d.rows ∧
    ∀ q ∈ qs, ∀ st ∈ q.statements, st.Complete

section

variable {ρ : Type} {t : InsertTarget ρ} {entry : ρ → Entry} {limit : ℕ} {qs qs' : MultiQuery}
  {rows : List ρ}

theorem full_currentQuery (qs : MultiQuery) : (currentQuery qs).2.full = false := by
  unfold currentQuery
  split
  · rfl
  · split
    · rfl
    · rename_i hq
      exact Bool.eq_false_iff.mpr hq

theorem currentQuery_concat {q : SingleQuery} (hq : q.full = false) :
    currentQuery (qs ++ [q]) = (qs, q) := by
  unfold currentQuery
  rw [List.getLast?_concat]
  simp [hq]

theorem mem_of_mem_currentQuery {q : SingleQuery} (hq : q ∈ (currentQuery qs).1) : q ∈ qs := by
  unfold currentQuery at hq
  split at hq
  · exact hq
  · split at hq
    · exact hq
    · exact List.dropLast_subset _ hq

/-- The statements of the current query are among those of the queries. -/
theorem mem_statements_currentQuery {st : Statement} (hst : st ∈ (currentQuery qs).2.statements) :
    ∃ q ∈ qs, st ∈ q.statements := by
  unfold currentQuery at hst
  split at hst
  · cases hst
  · rename_i q hq
    split at hst
    · cases hst
    · exact ⟨q, List.mem_of_getLast? hq, hst⟩

/-- Rows that fit become one more statement of the current query. -/
theorem insertRows_of_fits (qs : MultiQuery) (ht : t.Carries entry)
    (hne : ∀ rows, rows ≠ [] → (t.statement rows).Complete)
    (hqs : ∀ q ∈ qs, ∀ st ∈ q.statements, st.Complete)
    (h : t.Fits limit (currentQuery qs).2.size rows) :
    ∃ qs', insertRows t limit qs rows = some qs' ∧
      qs'.entries = qs.entries ++ rows.map entry ∧
      (∀ q ∈ qs', ∀ st ∈ q.statements, st.Complete) ∧
      (currentQuery qs').2.size = t.endSize (currentQuery qs).2.size rows := by
  unfold insertRows InsertTarget.endSize
  by_cases hrows : rows = []
  · subst hrows
    exact ⟨qs, by simp, by simp, hqs, by simp⟩
  · have hempty : rows.isEmpty = false := by simpa using hrows
    have hfill := InsertTarget.fill_of_lt (currentQuery qs).2
      ((currentQuery qs).2.size + t.headSize) [] (h hrows)
    have hzero : t.rowsSize [] = 0 := by simp [InsertTarget.rowsSize]
    rw [hzero, Nat.add_zero, List.nil_append] at hfill
    let last := t.close (currentQuery qs).2 rows
      ((currentQuery qs).2.size + t.headSize + t.rowsSize rows)
    refine ⟨(currentQuery qs).1 ++ [last], ?_, ?_, ?_, ?_⟩
    · rw [hempty, if_neg (by simp)]
      show Option.map _ (t.fill limit (currentQuery qs).2 _ [] rows) = _
      rw [hfill]
      rfl
    · rw [MultiQuery.entries_append, MultiQuery.entries_cons, MultiQuery.entries_nil,
        List.append_nil, InsertTarget.entries_close ht, ← List.append_assoc, entries_currentQuery]
    · intro q hq st hst
      rcases List.mem_append.mp hq with hq | hq
      · exact hqs q (mem_of_mem_currentQuery hq) st hst
      · obtain rfl := List.mem_singleton.mp hq
        rcases List.mem_append.mp hst with hst | hst
        · obtain ⟨q, hq, hst⟩ := mem_statements_currentQuery hst
          exact hqs q hq st hst
        · obtain rfl := List.mem_singleton.mp hst
          exact hne rows hrows
    · have hfull : last.full = false := full_currentQuery qs
      rw [currentQuery_concat hfull, hempty]
      rfl

theorem length_le_insertRows (ht : t.Carries entry) (h : insertRows t limit qs rows = some qs') :
    qs.entries.length + rows.length ≤ qs'.entries.length := by
  unfold insertRows at h
  split at h
  · rename_i hrows
    cases h
    simp [List.isEmpty_iff.mp hrows]
  · obtain ⟨qs₁, h₁, rfl⟩ := Option.map_eq_some_iff.mp h
    have := InsertTarget.length_le_fill ht h₁
    rw [← entries_currentQuery qs]
    simp only [MultiQuery.entries_append, List.length_append, List.length_nil] at this ⊢
    omega

/-- Rows that do not fit are not all carried once. -/
theorem length_lt_insertRows (qs : MultiQuery) (ht : t.Carries entry)
    (hfits : ¬t.Fits limit (currentQuery qs).2.size rows) (h : insertRows t limit qs rows = some qs') :
    qs.entries.length + rows.length < qs'.entries.length := by
  obtain ⟨hrows, hlimit⟩ := Classical.not_imp.mp hfits
  unfold insertRows at h
  rw [if_neg (by simpa using hrows)] at h
  obtain ⟨qs₁, h₁, rfl⟩ := Option.map_eq_some_iff.mp h
  have hzero : t.rowsSize [] = 0 := by simp [InsertTarget.rowsSize]
  have := InsertTarget.length_lt_fill ht [] (.inl hrows) hlimit (by rw [hzero]; exact h₁)
  rw [← entries_currentQuery qs]
  simp only [MultiQuery.entries_append, List.length_append, List.length_nil] at this ⊢
  omega

end

theorem entries_insertStateRoot (cfg : DbConfig) (qs : MultiQuery) (root : Option Fea) :
    (insertStateRoot cfg qs root).entries = qs.entries ++ root.toList.map .stateRoot := by
  cases root with
  | none => simp [insertStateRoot]
  | some r =>
    rw [← entries_currentQuery qs]
    simp [insertStateRoot, SingleQuery.entries, Statement.entries]

theorem complete_insertStateRoot (cfg : DbConfig) {qs : MultiQuery} (root : Option Fea)
    (hqs : ∀ q ∈ qs, ∀ st ∈ q.statements, st.Complete) :
    ∀ q ∈ insertStateRoot cfg qs root, ∀ st ∈ q.statements, st.Complete := by
  cases root with
  | none => exact hqs
  | some r =>
    intro q hq st hst
    rcases List.mem_append.mp hq with hq | hq
    · exact hqs q (mem_of_mem_currentQuery hq) st hst
    · obtain rfl := List.mem_singleton.mp hq
      rcases List.mem_append.mp hst with hst | hst
      · obtain ⟨q, hq, hst⟩ := mem_statements_currentQuery hst
        exact hqs q hq st hst
      · obtain rfl := List.mem_singleton.mp hst
        trivial

theorem buildQueries_once (cfg : DbConfig) (d : MultiWriteData) :
    d.BuiltOnce cfg ↔ d.OneQuery cfg := by
  constructor
  · rintro ⟨qs, hbuild, hentries, -⟩
    unfold buildQueries at hbuild
    simp only [Option.bind_eq_bind, Option.bind_eq_some_iff, Option.pure_def,
      Option.some.injEq] at hbuild
    obtain ⟨qs₁, h₁, qs₂, h₂, rfl⟩ := hbuild
    rw [entries_insertStateRoot, MultiWriteData.rows] at hentries
    have hlen := congrArg List.length (List.append_cancel_right hentries)
    simp only [List.length_append, List.length_map] at hlen
    have hle₁ := length_le_insertRows (carries_nodes cfg) h₁
    have hle₂ := length_le_insertRows (carries_program cfg) h₂
    have hnodes : (InsertTarget.nodes cfg).Fits cfg.dbMultiWriteSingleQuerySize 0
        d.nodes.entries := by
      by_contra hfits
      have := length_lt_insertRows [] (carries_nodes cfg) hfits h₁
      omega
    refine ⟨hnodes, ?_⟩
    obtain ⟨qs₁', h₁', -, -, hsize⟩ := insertRows_of_fits [] (carries_nodes cfg)
      (fun _ h => h) (by simp) hnodes
    obtain rfl := Option.some.inj (h₁.symm.trans h₁')
    by_contra hfits
    have := length_lt_insertRows qs₁ (carries_program cfg) (by rw [hsize]; exact hfits) h₂
    omega
  · rintro ⟨hnodes, hprogram⟩
    obtain ⟨qs₁, h₁, hentries₁, hcomplete₁, hsize⟩ := insertRows_of_fits []
      (carries_nodes cfg) (fun _ h => h) (by simp) hnodes
    obtain ⟨qs₂, h₂, hentries₂, hcomplete₂, -⟩ := insertRows_of_fits qs₁
      (carries_program cfg) (fun _ h => h) hcomplete₁ (by rw [hsize]; exact hprogram)
    refine ⟨insertStateRoot cfg qs₂ d.nodesStateRoot, ?_, ?_, ?_⟩
    · unfold buildQueries
      simp only [h₁, h₂, Option.bind_eq_bind, Option.bind_some, Option.pure_def]
    · rw [entries_insertStateRoot, hentries₂, hentries₁]
      rfl
    · exact complete_insertStateRoot cfg _ hcomplete₂

/-! ## The queries that a resend sends -/

/-- The queries that have not been confirmed. -/
def MultiQuery.unsent (qs : MultiQuery) : List SingleQuery := qs.filter fun q => !q.sent

namespace Db

/-- The query that a step sends and the database confirms. -/
def confirms (s : Db) : Event → List SingleQuery
  | .exec => s.nextQuery.toList
  | _ => []

/-- Follows the steps, and keeps the queries that they confirm. -/
def follow (cfg : DbConfig) : Db → List Event → Option (List SingleQuery × Db)
  | s, [] => some ([], s)
  | s, e :: es => do
    let t ← s.step cfg e
    let (qs, u) ← follow cfg t es
    return (s.confirms e ++ qs, u)

/-- The sender thread has queries to send. -/
structure InFlight (cfg : DbConfig) (s : Db) : Prop where
  writable : cfg.dbReadOnly = false
  queries : s.storing.multiQuery ≠ []
  filled : s.storing.IsEmpty = false
  notStored : s.storing.stored = false

variable {cfg : DbConfig} {s t : Db} {e : Event}

theorem follow_cons {es : List Event} {qs : List SingleQuery} {u : Db}
    (hstep : s.step cfg e = some t) (h : t.follow cfg es = some (qs, u)) :
    s.follow cfg (e :: es) = some (s.confirms e ++ qs, u) := by
  unfold follow
  rw [hstep]
  show (t.follow cfg es >>= _) = _
  rw [h]
  rfl

theorem nextQuery_eq_head? (s : Db) : s.nextQuery = s.storing.multiQuery.unsent.head? := by
  unfold nextQuery MultiQuery.unsent
  rw [List.head?_filter]

theorem markSent_ne_nil {qs : MultiQuery} (h : qs ≠ []) : markSent qs ≠ [] := by
  cases qs with
  | nil => exact h
  | cons q qs =>
    unfold markSent
    split <;> simp

theorem unsent_markSent (qs : MultiQuery) : (markSent qs).unsent = qs.unsent.tail := by
  unfold MultiQuery.unsent
  induction qs with
  | nil => rfl
  | cons q qs ih =>
    unfold markSent
    by_cases hq : q.sent = true
    · simp [hq, ih]
    · simp [hq]

/-- The queries in flight are kept as they are. -/
theorem sendData_of_inFlight (h : s.InFlight cfg) :
    s.sendData cfg = some ⟨s.multiWrite.setStoring s.storing, .sending, s.tables⟩ := by
  have hqueries : s.storing.multiQuery.isEmpty = false := by simpa using h.queries
  unfold sendData
  rw [if_neg (by simp [h.writable]), if_neg (by simp [h.filled]), if_neg (by simp [h.notStored])]
  simp only [hqueries, Bool.false_eq_true, if_false, Option.bind_eq_bind, Option.bind_some,
    Option.pure_def]

/-- While queries are in flight, only a query that is confirmed and the end of `sendData` change
what is left to send. -/
theorem step_inFlight (h : s.InFlight cfg) (hstep : s.step cfg e = some t) (he : e ≠ .finish) :
    t.InFlight cfg ∧ s.confirms e ++ t.storing.multiQuery.unsent = s.storing.multiQuery.unsent := by
  have keeps {m : MultiWrite} {p : Phase} {tables : Tables} (hm : m.storing = s.storing) :
      InFlight cfg ⟨m, p, tables⟩ ∧ m.storing.multiQuery.unsent = s.storing.multiQuery.unsent := by
    refine ⟨⟨h.writable, ?_, ?_, ?_⟩, by rw [hm]⟩
    · rw [storing_mk, hm]
      exact h.queries
    · rw [storing_mk, hm]
      exact h.filled
    · rw [storing_mk, hm]
      exact h.notStored
  cases e with
  | accept entry =>
    cases hstep
    cases entry <;> exact keeps (MultiWrite.storing_setPending _ _)
  | flush =>
    cases hstep
    exact keeps (MultiWrite.storing_flush cfg _)
  | semiFlush =>
    cases hstep
    exact keeps (MultiWrite.storing_setPending _ _)
  | wake =>
    change (if s.phase = .waiting then some s.wake else none) = some t at hstep
    split at hstep
    · cases hstep
      have hqueries : (!s.storing.multiQuery.isEmpty) = true := by simpa using h.queries
      unfold wake
      rw [if_pos hqueries]
      exact keeps rfl
    · cases hstep
  | sendData =>
    change (if s.phase = .calling then s.sendData cfg else none) = some t at hstep
    split at hstep
    · rw [sendData_of_inFlight h] at hstep
      cases hstep
      exact keeps (MultiWrite.storing_setStoring _ _)
    · cases hstep
  | exec =>
    change (if s.phase = .sending then s.exec else none) = some t at hstep
    split at hstep
    · obtain ⟨q, hq, rfl⟩ := Option.map_eq_some_iff.mp hstep
      have hstoring : ∀ m : MultiWrite, ∀ p tables, (mk m p tables).storing = m.storing :=
        fun _ _ _ => rfl
      refine ⟨⟨h.writable, ?_, ?_, ?_⟩, ?_⟩
      · rw [hstoring, MultiWrite.storing_setStoring]
        exact markSent_ne_nil h.queries
      · rw [hstoring, MultiWrite.storing_setStoring]
        exact h.filled
      · rw [hstoring, MultiWrite.storing_setStoring]
        exact h.notStored
      · unfold confirms
        rw [hstoring, MultiWrite.storing_setStoring, unsent_markSent, hq]
        rw [nextQuery_eq_head?] at hq
        exact List.cons_head?_tail hq
    · cases hstep
  | fail applied =>
    change (if s.phase = .sending then s.fail applied else none) = some t at hstep
    split at hstep
    · obtain ⟨q, -, rfl⟩ := Option.map_eq_some_iff.mp hstep
      exact keeps rfl
    · cases hstep
  | finish => exact absurd rfl he

theorem follow_inFlight {es : List Event} : ∀ {s : Db} {log : List SingleQuery},
    s.InFlight cfg → s.follow cfg es = some (log, t) → .finish ∉ es →
      t.InFlight cfg ∧ log ++ t.storing.multiQuery.unsent = s.storing.multiQuery.unsent := by
  induction es with
  | nil =>
    intro s log h hrun _
    cases hrun
    exact ⟨h, rfl⟩
  | cons e es ih =>
    intro s log h hrun hfinish
    obtain ⟨he, hes⟩ := not_or.mp (mt List.mem_cons.mpr hfinish)
    unfold follow at hrun
    simp only [Option.bind_eq_bind, Option.bind_eq_some_iff, Option.pure_def,
      Option.some.injEq, Prod.mk.injEq] at hrun
    obtain ⟨u, hu, ⟨qs, v⟩, hv, rfl, rfl⟩ := hrun
    obtain ⟨hin, hunsent⟩ := step_inFlight h hu (Ne.symm he)
    obtain ⟨hin', hunsent'⟩ := ih hin hv hes
    exact ⟨hin', by rw [List.append_assoc, hunsent', hunsent]⟩

theorem follow_concat {es : List Event} : ∀ {s : Db} {log : List SingleQuery},
    s.follow cfg (es ++ [e]) = some (log, t) →
      ∃ log' u, s.follow cfg es = some (log', u) ∧ u.step cfg e = some t ∧
        log = log' ++ u.confirms e := by
  induction es with
  | nil =>
    intro s log h
    simp only [List.nil_append, follow, Option.bind_eq_bind, Option.bind_eq_some_iff,
      Option.pure_def, Option.some.injEq, Prod.mk.injEq] at h
    obtain ⟨u, hu, ⟨qs, v⟩, ⟨rfl, rfl⟩, rfl, rfl⟩ := h
    exact ⟨[], s, rfl, hu, by simp⟩
  | cons e' es ih =>
    intro s log h
    rw [List.cons_append] at h
    unfold follow at h
    simp only [Option.bind_eq_bind, Option.bind_eq_some_iff, Option.pure_def,
      Option.some.injEq, Prod.mk.injEq] at h
    obtain ⟨u, hu, ⟨qs, v⟩, hv, rfl, rfl⟩ := h
    obtain ⟨log', w, hw, hstep, rfl⟩ := ih hv
    refine ⟨s.confirms e' ++ log', w, ?_, hstep, by rw [List.append_assoc]⟩
    unfold follow
    simp [hu, hw]

/-- `n` queries in a row. -/
theorem follow_exec (cfg : DbConfig) : ∀ {n : ℕ} {s : Db}, s.phase = .sending →
    s.storing.multiQuery.unsent.length = n →
      ∃ t, s.follow cfg (List.replicate n .exec ++ [.finish]) =
        some (s.storing.multiQuery.unsent, t) := by
  intro n
  induction n with
  | zero =>
    intro s hp hn
    have hnil := List.length_eq_zero_iff.mp hn
    have hnone : s.nextQuery.isNone = true := by rw [nextQuery_eq_head?, hnil]; rfl
    obtain ⟨t, ht⟩ : ∃ t, s.step cfg .finish = some t := by
      simp [step, finish, hp, hnone]
    refine ⟨t, ?_⟩
    rw [hnil]
    exact follow_cons ht rfl
  | succ n ih =>
    intro s hp hn
    obtain ⟨q, qs, hq⟩ := List.exists_cons_of_length_eq_add_one hn
    have hnext : s.nextQuery = some q := by rw [nextQuery_eq_head?, hq]; rfl
    have hunsent : MultiQuery.unsent (markSent s.storing.multiQuery) = qs := by
      rw [unsent_markSent, hq]
      rfl
    let u : Db := { s with
      multiWrite := s.multiWrite.setStoring
        { s.storing with multiQuery := markSent s.storing.multiQuery }
      tables := s.tables.execQuery q }
    have hu : s.exec = some u := by unfold exec; rw [hnext]; rfl
    have hstoring : u.storing.multiQuery.unsent = qs := by
      show MultiQuery.unsent ((s.multiWrite.setStoring _).storing).multiQuery = qs
      rw [MultiWrite.storing_setStoring]
      exact hunsent
    obtain ⟨t, ht⟩ := ih (s := u) hp (by rw [hstoring]; simpa [hq] using hn)
    refine ⟨t, ?_⟩
    have hstep : s.step cfg .exec = some u := by
      show (if s.phase = .sending then s.exec else none) = some u
      rw [if_pos hp, hu]
    rw [List.replicate_succ, List.cons_append, follow_cons hstep ht]
    unfold confirms
    rw [hstoring, hnext, hq]
    rfl

/-- Whatever fails and whatever the clients do meanwhile, the queries confirmed from `s` on are the
first ones not yet confirmed in `s`, in order and each once; all of them when `sendData` ends; and
a resend without a failure sends them. -/
structure Resends (cfg : DbConfig) (s : Db) : Prop where
  confirmed : ∀ es log t, s.follow cfg es = some (log, t) → .finish ∉ es →
    log ++ t.storing.multiQuery.unsent = s.storing.multiQuery.unsent
  finished : ∀ es log t, s.follow cfg (es ++ [.finish]) = some (log, t) → .finish ∉ es →
    log = s.storing.multiQuery.unsent
  resent : s.phase = .waiting → ∃ t,
    s.follow cfg (.wake :: .sendData ::
      (List.replicate s.storing.multiQuery.unsent.length .exec ++ [.finish])) =
      some (s.storing.multiQuery.unsent, t)

theorem resends (h : s.InFlight cfg) : s.Resends cfg where
  confirmed es log t hrun hes := (follow_inFlight h hrun hes).2
  finished es log t hrun hes := by
    obtain ⟨log', u, hu, hstep, rfl⟩ := follow_concat hrun
    have hunsent := (follow_inFlight h hu hes).2
    change (if u.phase = .sending then u.finish else none) = some t at hstep
    split at hstep
    · unfold finish at hstep
      split at hstep
      · rename_i hnone
        rw [nextQuery_eq_head?, Option.isNone_iff_eq_none, List.head?_eq_none_iff] at hnone
        rw [hnone] at hunsent
        exact hunsent
      · cases hstep
    · cases hstep
  resent hp := by
    have hqueries : s.storing.multiQuery.isEmpty = false := by simpa using h.queries
    let c : Db := { s with phase := .calling }
    let u : Db := ⟨s.multiWrite.setStoring s.storing, .sending, s.tables⟩
    have hwake : s.step cfg .wake = some c := by
      simp [step, hp, wake, hqueries, c]
    have hsend : c.step cfg .sendData = some u :=
      @sendData_of_inFlight cfg c ⟨h.writable, h.queries, h.filled, h.notStored⟩
    have hunsent : u.storing.multiQuery.unsent = s.storing.multiQuery.unsent := by
      show MultiQuery.unsent ((s.multiWrite.setStoring _).storing).multiQuery = _
      rw [MultiWrite.storing_setStoring]
    obtain ⟨t, ht⟩ := @follow_exec cfg _ u rfl (congrArg List.length hunsent)
    refine ⟨t, ?_⟩
    rw [follow_cons hwake (follow_cons hsend ht), hunsent]
    rfl

end Db

/-- The queries carry every row once, in order and with the state root last, and a resend sends the
queries not yet confirmed: this is what `sendData` does if and only if all rows fit into one
query. -/
theorem MultiWriteData.sendsOnce_iff (cfg : DbConfig) (d : MultiWriteData) :
    (d.BuiltOnce cfg ∧ ∀ s : Db, s.InFlight cfg → s.Resends cfg) ↔ d.OneQuery cfg := by
  rw [buildQueries_once]
  exact and_iff_left fun s => Db.resends

/-- Two nodes of twelve elements. -/
def twoNodes : MultiWriteData :=
  let nodes : HashMap NodeData := ∅
  { MultiWriteData.Reset with
    nodes := AList.insert (0 : Fea) (List.replicate 12 5 : NodeData)
      (AList.insert (1 : Fea) (List.replicate 12 5 : NodeData) nodes) }

/-- With queries of 500 characters the second node ends the first query and starts the second one. -/
theorem MultiWriteData.not_sendsOnce :
    let cfg : DbConfig := ⟨false, 500, "state.nodes", "state.program"⟩
    let row (key : Fea) : Σ _ : Fea, NodeData := ⟨key, List.replicate 12 5⟩
    buildQueries cfg twoNodes = some [
      ⟨[.insertNodes [row 0, row 1]], 598 + onConflictSize, true, false⟩,
      ⟨[.insertNodes [row 1]], 321 + onConflictSize, false, false⟩] ∧
      ¬(twoNodes.BuiltOnce cfg ∧ ∀ s : Db, s.InFlight cfg → s.Resends cfg) := by
  intro cfg row
  have hbuild : buildQueries cfg twoNodes = some [
      ⟨[.insertNodes [row 0, row 1]], 598 + onConflictSize, true, false⟩,
      ⟨[.insertNodes [row 1]], 321 + onConflictSize, false, false⟩] := by decide
  refine ⟨hbuild, ?_⟩
  rintro ⟨⟨qs, hqs, hentries, -⟩, -⟩
  obtain rfl := Option.some.inj (hbuild.symm.trans hqs)
  exact absurd (congrArg List.length hentries) (by decide)

end ZkevmProver
