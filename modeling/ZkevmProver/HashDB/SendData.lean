import ZkevmProver.HashDB.MultiWrite

/-!
# The queries of `sendData`

How `sendData` turns the data to send into SQL queries of a bounded size, and what the database
does with them.

1. Building the queries: `buildQueries`
2. The tables of the database: `Tables.exec`
3. What the queries carry: `mem_buildQueries`
4. What the tables hold after a query: `execQuery_spec`
-/

namespace ZkevmProver

/-- What a client hands over to the database. -/
inductive Entry where
  | node (key : Fea) (value : NodeData)
  | program (key : Fea) (data : ProgramData)
  | stateRoot (root : Fea)
  deriving DecidableEq

/-- The part of the configuration that the multi-write code reads. -/
structure DbConfig where
  dbReadOnly : Bool
  dbMultiWriteSingleQuerySize : ℕ
  dbNodesTableName : String
  dbProgramTableName : String

/-! ## Building the queries -/

/-- The digits of a key, and of `dbStateRootKey`. -/
abbrev keyDigits : ℕ := 64

/-- The size of the text of one row. -/
def rowSize (digits : ℕ) : ℕ :=
  "( E'\\\\x".length + keyDigits + "', E'\\\\x".length + digits + "' ) ".length

def onConflictSize : ℕ := " ON CONFLICT (hash) DO NOTHING;".length

/-- One of the two tables, with rows `ρ`. -/
structure InsertTarget (ρ : Type) where
  tableName : String
  /-- The digits of the data of a row. -/
  digits : ρ → ℕ
  statement : List ρ → Statement

namespace InsertTarget

def nodes (cfg : DbConfig) : InsertTarget (Σ _ : Fea, NodeData) where
  tableName := cfg.dbNodesTableName
  digits row := 16 * row.2.length
  statement := .insertNodes

def program (cfg : DbConfig) : InsertTarget (Σ _ : Fea, ProgramData) where
  tableName := cfg.dbProgramTableName
  digits row := 2 * row.2.length
  statement := .insertProgram

variable {ρ : Type} (t : InsertTarget ρ)

def headSize : ℕ := "INSERT INTO ".length + t.tableName.length + " ( hash, data ) VALUES ".length

/-- The statement with the rows so far goes to the end of the query, whose text has this size. -/
def close (q : SingleQuery) (rows : List ρ) (size : ℕ) : SingleQuery :=
  { q with statements := q.statements ++ [t.statement rows], size := size + onConflictSize }

/-- The size of the text with one more row. -/
def grow (size : ℕ) (rows : List ρ) (row : ρ) : ℕ :=
  size + (if rows.isEmpty then 0 else ", ".length) + rowSize (t.digits row)

/-- The loop over the rows: `q` is the current query, `size` the size of its text with the `rows`
that its last statement already has.  `none` is a loop that never ends. -/
def fill (limit : ℕ) (q : SingleQuery) (size : ℕ) (rows : List ρ) : List ρ → Option MultiQuery
  | [] => some [t.close q rows size]
  | row :: rest =>
    if t.grow size rows row < limit then
      fill limit q (t.grow size rows row) (rows ++ [row]) rest
    else if t.grow t.headSize [] row < limit then
      -- the loop is left at this row, which is also the first one of the next query
      (fill limit {} (t.grow t.headSize [] row) [row] rest).map
        ({ t.close q (rows ++ [row]) (t.grow size rows row) with full := true } :: ·)
    else none

end InsertTarget

/-- The queries before the current one, and the current one: a new one when there is none yet or
the last one is full. -/
def currentQuery (queries : MultiQuery) : MultiQuery × SingleQuery :=
  match queries.getLast? with
  | none => (queries, {})
  | some q => if q.full then (queries, {}) else (queries.dropLast, q)

/-- Adds the rows of one table. -/
def insertRows {ρ : Type} (t : InsertTarget ρ) (limit : ℕ) (queries : MultiQuery) (rows : List ρ) :
    Option MultiQuery :=
  if rows.isEmpty then some queries
  else
    let q := (currentQuery queries).2
    (t.fill limit q (q.size + t.headSize) [] rows).map ((currentQuery queries).1 ++ ·)

/-- Adds the update of the state root. -/
def insertStateRoot (cfg : DbConfig) (queries : MultiQuery) : Option Fea → MultiQuery
  | none => queries
  | some root =>
    let q := (currentQuery queries).2
    (currentQuery queries).1 ++
      [{ q with
        statements := q.statements ++ [.updateStateRoot root]
        size := q.size + "UPDATE ".length + cfg.dbNodesTableName.length +
          " SET data = E'\\\\x".length + 12 * 16 + "' WHERE hash = E'\\\\x".length + keyDigits +
          "';".length
        full := true }]

/-- The queries for the data to send, unless building them never ends. -/
def buildQueries (cfg : DbConfig) (d : MultiWriteData) : Option MultiQuery := do
  let limit := cfg.dbMultiWriteSingleQuerySize
  let queries ← insertRows (.nodes cfg) limit [] d.nodes.entries
  let queries ← insertRows (.program cfg) limit queries d.program.entries
  return insertStateRoot cfg queries d.nodesStateRoot

/-! ## The tables of the database -/

/-- The rows of the two tables.  The state root is the row of the nodes table whose hash is
`dbStateRootKey`, 64 digits `f`, which four field elements never have. -/
structure Tables where
  nodes : Fea → Option NodeData
  program : Fea → Option ProgramData
  stateRoot : Fea

namespace Tables

/-- A new database after `createStateRoot`. -/
def empty : Tables where
  nodes _ := none
  program _ := none
  stateRoot := 0

/-- A row whose hash is already there is left as it is. -/
def insertRows {V : Type} (table : Fea → Option V) (rows : List (Σ _ : Fea, V)) :
    Fea → Option V :=
  fun key => (table key).or (rows.dlookup key)

def exec (t : Tables) : Statement → Tables
  | .insertNodes rows => { t with nodes := insertRows t.nodes rows }
  | .insertProgram rows => { t with program := insertRows t.program rows }
  | .updateStateRoot root => { t with stateRoot := root }

/-- A query is one transaction. -/
def execQuery (t : Tables) (q : SingleQuery) : Tables := q.statements.foldl exec t

/-- The entry is in the database. -/
def Has (t : Tables) : Entry → Prop
  | .node key value => t.nodes key = some value
  | .program key data => t.program key = some data
  | .stateRoot root => t.stateRoot = root

end Tables

/-! ## What the queries carry -/

/-- The entries that a statement stores. -/
def Statement.entries : Statement → List Entry
  | .insertNodes rows => rows.map fun row => .node row.1 row.2
  | .insertProgram rows => rows.map fun row => .program row.1 row.2
  | .updateStateRoot root => [.stateRoot root]

def SingleQuery.entries (q : SingleQuery) : List Entry := q.statements.flatMap Statement.entries

def MultiQuery.entries (queries : MultiQuery) : List Entry := queries.flatMap SingleQuery.entries

@[simp] theorem MultiQuery.entries_nil : MultiQuery.entries [] = [] := rfl

@[simp] theorem MultiQuery.entries_cons (q : SingleQuery) (qs : MultiQuery) :
    MultiQuery.entries (q :: qs) = q.entries ++ MultiQuery.entries qs := rfl

@[simp] theorem MultiQuery.entries_append (qs qs' : MultiQuery) :
    MultiQuery.entries (qs ++ qs') = MultiQuery.entries qs ++ MultiQuery.entries qs' :=
  List.flatMap_append

@[simp] theorem SingleQuery.entries_empty : SingleQuery.entries {} = [] := rfl

/-- No query has been sent yet. -/
def MultiQuery.Unsent (queries : MultiQuery) : Prop := ∀ q ∈ queries, q.sent = false

namespace InsertTarget

variable {ρ : Type} {t : InsertTarget ρ}

/-- The entry of one row. -/
def Carries (t : InsertTarget ρ) (entry : ρ → Entry) : Prop :=
  ∀ rows, (t.statement rows).entries = rows.map entry

theorem entries_close {entry : ρ → Entry} (ht : t.Carries entry) (q : SingleQuery) (rows : List ρ)
    (size : ℕ) : (t.close q rows size).entries = q.entries ++ rows.map entry := by
  simp [SingleQuery.entries, close, ht rows]

/-- A row goes into the current query, or it ends that query and starts the next one. -/
theorem fill_cons {limit : ℕ} {q : SingleQuery} {size : ℕ} {rows rest : List ρ} {row : ρ}
    {qs : MultiQuery} (h : t.fill limit q size rows (row :: rest) = some qs) :
    t.fill limit q (t.grow size rows row) (rows ++ [row]) rest = some qs ∨
      ∃ qs', t.fill limit {} (t.grow t.headSize [] row) [row] rest = some qs' ∧
        qs = { t.close q (rows ++ [row]) (t.grow size rows row) with full := true } :: qs' := by
  unfold fill at h
  split at h
  · exact .inl h
  · split at h
    · obtain ⟨qs', h', rfl⟩ := Option.map_eq_some_iff.mp h
      exact .inr ⟨qs', h', rfl⟩
    · cases h

/-- The loop stores the rows it started with and all rows it has seen, and nothing else. -/
theorem mem_fill {entry : ρ → Entry} (ht : t.Carries entry) {limit : ℕ} {e : Entry}
    {rest : List ρ} : ∀ {q size rows qs}, t.fill limit q size rows rest = some qs →
      (e ∈ MultiQuery.entries qs ↔ e ∈ q.entries ∨ e ∈ (rows ++ rest).map entry) := by
  induction rest with
  | nil =>
    intro q size rows qs h
    cases h
    simp [entries_close ht]
  | cons row rest ih =>
    intro q size rows qs h
    rcases fill_cons h with h | ⟨qs', h', rfl⟩
    · rw [ih h]
      simp
    · rw [MultiQuery.entries_cons, List.mem_append, ih h']
      have hclose := entries_close ht q (rows ++ [row]) (t.grow size rows row)
      -- `full` says nothing about the statements
      change e ∈ (t.close q (rows ++ [row]) (t.grow size rows row)).entries ∨ _ ↔ _
      rw [hclose]
      simp only [SingleQuery.entries_empty, List.map_append, List.mem_append, List.map_cons,
        List.map_nil, List.mem_cons, List.not_mem_nil]
      tauto

theorem unsent_fill {limit : ℕ} {rest : List ρ} :
    ∀ {q size rows qs}, t.fill limit q size rows rest = some qs → q.sent = false →
      MultiQuery.Unsent qs := by
  induction rest with
  | nil =>
    intro q size rows qs h hq q' hq'
    cases h
    obtain rfl := List.mem_singleton.mp hq'
    exact hq
  | cons row rest ih =>
    intro q size rows qs h hq
    rcases fill_cons h with h | ⟨qs', h', rfl⟩
    · exact ih h hq
    · intro q' hq'
      rcases List.mem_cons.mp hq' with rfl | hq'
      · exact hq
      · exact ih h' rfl q' hq'

end InsertTarget

theorem entries_currentQuery (queries : MultiQuery) :
    MultiQuery.entries (currentQuery queries).1 ++ (currentQuery queries).2.entries =
      queries.entries := by
  unfold currentQuery
  split
  · simp
  · rename_i q hq
    split
    · simp
    · obtain ⟨init, rfl⟩ := List.getLast?_eq_some_iff.mp hq
      simp

theorem MultiQuery.Unsent.currentQuery {queries : MultiQuery} (h : queries.Unsent) :
    MultiQuery.Unsent (currentQuery queries).1 ∧ (currentQuery queries).2.sent = false := by
  unfold ZkevmProver.currentQuery
  split
  · exact ⟨h, rfl⟩
  · rename_i q hq
    split
    · exact ⟨h, rfl⟩
    · exact ⟨fun q' hq' => h q' (List.dropLast_subset _ hq'), h q (List.mem_of_getLast? hq)⟩

theorem mem_insertRows {ρ : Type} {t : InsertTarget ρ} {entry : ρ → Entry} (ht : t.Carries entry)
    {limit : ℕ} {qs qs' : MultiQuery} {rows : List ρ} (h : insertRows t limit qs rows = some qs')
    (e : Entry) : e ∈ qs'.entries ↔ e ∈ qs.entries ∨ e ∈ rows.map entry := by
  unfold insertRows at h
  split at h
  · rename_i hrows
    cases h
    simp [List.isEmpty_iff.mp hrows]
  · obtain ⟨qs₁, h₁, rfl⟩ := Option.map_eq_some_iff.mp h
    rw [MultiQuery.entries_append, List.mem_append, t.mem_fill ht h₁,
      ← entries_currentQuery qs, List.mem_append, List.nil_append]
    tauto

theorem unsent_insertRows {ρ : Type} {t : InsertTarget ρ} {limit : ℕ} {qs qs' : MultiQuery}
    {rows : List ρ} (h : insertRows t limit qs rows = some qs') (hqs : qs.Unsent) : qs'.Unsent := by
  unfold insertRows at h
  split at h
  · cases h
    exact hqs
  · obtain ⟨qs₁, h₁, rfl⟩ := Option.map_eq_some_iff.mp h
    intro q hq
    rcases List.mem_append.mp hq with hq | hq
    · exact hqs.currentQuery.1 q hq
    · exact t.unsent_fill h₁ hqs.currentQuery.2 q hq

theorem mem_insertStateRoot (cfg : DbConfig) (qs : MultiQuery) (root : Option Fea) (e : Entry) :
    e ∈ (insertStateRoot cfg qs root).entries ↔
      e ∈ qs.entries ∨ ∃ r, root = some r ∧ e = .stateRoot r := by
  cases root with
  | none => simp [insertStateRoot]
  | some r =>
    rw [← entries_currentQuery qs]
    simp [insertStateRoot, SingleQuery.entries, Statement.entries, or_assoc]

theorem unsent_insertStateRoot (cfg : DbConfig) {qs : MultiQuery} (hqs : qs.Unsent)
    (root : Option Fea) : (insertStateRoot cfg qs root).Unsent := by
  cases root with
  | none => exact hqs
  | some r =>
    intro q hq
    rcases List.mem_append.mp hq with hq | hq
    · exact hqs.currentQuery.1 q hq
    · obtain rfl := List.mem_singleton.mp hq
      exact hqs.currentQuery.2

/-- The entries that wait to be sent. -/
def MultiWriteData.Sends (d : MultiWriteData) : Entry → Prop
  | .node key value => d.nodes.lookup key = some value
  | .program key data => d.program.lookup key = some data
  | .stateRoot root => d.nodesStateRoot = some root

theorem carries_nodes (cfg : DbConfig) :
    (InsertTarget.nodes cfg).Carries fun row => .node row.1 row.2 := fun _ => rfl

theorem carries_program (cfg : DbConfig) :
    (InsertTarget.program cfg).Carries fun row => .program row.1 row.2 := fun _ => rfl

/-- The queries carry the data to send, all of it and nothing else. -/
theorem mem_buildQueries {cfg : DbConfig} {d : MultiWriteData} {qs : MultiQuery}
    (h : buildQueries cfg d = some qs) (e : Entry) : e ∈ qs.entries ↔ d.Sends e := by
  unfold buildQueries at h
  simp only [Option.bind_eq_bind, Option.bind_eq_some_iff, Option.pure_def,
    Option.some.injEq] at h
  obtain ⟨qs₁, h₁, qs₂, h₂, rfl⟩ := h
  rw [mem_insertStateRoot, mem_insertRows (carries_program cfg) h₂,
    mem_insertRows (carries_nodes cfg) h₁]
  cases e <;> simp [MultiWriteData.Sends, ← AList.mem_lookup_iff, Option.mem_def]

theorem unsent_buildQueries {cfg : DbConfig} {d : MultiWriteData} {qs : MultiQuery}
    (h : buildQueries cfg d = some qs) : qs.Unsent := by
  unfold buildQueries at h
  simp only [Option.bind_eq_bind, Option.bind_eq_some_iff, Option.pure_def,
    Option.some.injEq] at h
  obtain ⟨qs₁, h₁, qs₂, h₂, rfl⟩ := h
  have hnil : MultiQuery.Unsent [] := by simp [MultiQuery.Unsent]
  exact unsent_insertStateRoot cfg (unsent_insertRows h₂ (unsent_insertRows h₁ hnil)) _

/-! ## What the tables hold after a query -/

/-- What the hashes are hashes of. -/
structure Content where
  node : Fea → NodeData
  program : Fea → ProgramData

/-- The entry is the one that `c` gives for its hash, or the state root `root`. -/
def Entry.Agrees (c : Content) (root : Option Fea) : Entry → Prop
  | .node key value => value = c.node key
  | .program key data => data = c.program key
  | .stateRoot r => root = some r

/-- Every row is the one that `c` gives for its hash. -/
structure Tables.Agrees (c : Content) (t : Tables) : Prop where
  nodes : ∀ key value, t.nodes key = some value → value = c.node key
  program : ∀ key data, t.program key = some data → data = c.program key

variable {c : Content} {root : Option Fea} {t : Tables}

namespace Tables

theorem insertRows_eq_some {V : Type} {table : Fea → Option V} {rows : List (Σ _ : Fea, V)}
    {f : Fea → V} (ht : ∀ k v, table k = some v → v = f k) (hrows : ∀ r ∈ rows, r.2 = f r.1)
    {k : Fea} {v : V} :
    insertRows table rows k = some v ↔ table k = some v ∨ (⟨k, v⟩ : Σ _ : Fea, V) ∈ rows := by
  unfold insertRows
  constructor
  · intro h
    rcases Option.or_eq_some_iff.mp h with h | ⟨-, h⟩
    · exact .inl h
    · exact .inr (List.of_mem_dlookup (Option.mem_def.mpr h))
  · rintro (h | h)
    · simp [h]
    · have hv : v = f k := hrows _ h
      cases htab : table k with
      | some w => rw [Option.some_or, ht k w htab, hv]
      | none =>
        rw [Option.none_or]
        obtain ⟨w, hw⟩ := Option.isSome_iff_exists.mp
          (List.dlookup_isSome.mpr (List.mem_keys_of_mem h))
        have hw' : w = f k := hrows _ (List.of_mem_dlookup (Option.mem_def.mpr hw))
        rw [hw, hw', hv]

variable {st : Statement} {e : Entry}

theorem exec_agrees (ht : t.Agrees c) (hst : ∀ e ∈ st.entries, e.Agrees c root) :
    (t.exec st).Agrees c := by
  obtain ⟨hn, hp⟩ := ht
  cases st with
  | insertNodes rows =>
    refine ⟨?_, hp⟩
    have hrows : ∀ r ∈ rows, r.2 = c.node r.1 := fun r hr => hst _ (List.mem_map_of_mem hr)
    intro key value h
    rcases (insertRows_eq_some hn hrows).mp h with h | h
    · exact hn _ _ h
    · exact hrows _ h
  | insertProgram rows =>
    refine ⟨hn, ?_⟩
    have hrows : ∀ r ∈ rows, r.2 = c.program r.1 := fun r hr => hst _ (List.mem_map_of_mem hr)
    intro key value h
    rcases (insertRows_eq_some hp hrows).mp h with h | h
    · exact hp _ _ h
    · exact hrows _ h
  | updateStateRoot r => exact ⟨hn, hp⟩

/-- What the tables hold after a statement is what they held before or what it stores. -/
theorem has_of_has_exec (h : (t.exec st).Has e) : t.Has e ∨ e ∈ st.entries := by
  have hrows : ∀ {V : Type} {table : Fea → Option V} {rows : List (Σ _ : Fea, V)} {k : Fea} {v : V},
      insertRows table rows k = some v → table k = some v ∨ (⟨k, v⟩ : Σ _ : Fea, V) ∈ rows := by
    intro V table rows k v h
    rcases Option.or_eq_some_iff.mp h with h | ⟨-, h⟩
    · exact .inl h
    · exact .inr (List.of_mem_dlookup (Option.mem_def.mpr h))
  cases st with
  | insertNodes rows =>
    cases e with
    | node key value =>
      rcases hrows h with h | h
      · exact .inl h
      · exact .inr (List.mem_map.mpr ⟨_, h, rfl⟩)
    | _ => exact .inl h
  | insertProgram rows =>
    cases e with
    | program key data =>
      rcases hrows h with h | h
      · exact .inl h
      · exact .inr (List.mem_map.mpr ⟨_, h, rfl⟩)
    | _ => exact .inl h
  | updateStateRoot r =>
    cases e with
    | stateRoot r' =>
      have hr : r = r' := h
      exact .inr (by simp [Statement.entries, hr])
    | _ => exact .inl h

/-- After a statement the tables hold what they held and what the statement stores. -/
theorem has_exec (ht : t.Agrees c) (hst : ∀ e ∈ st.entries, e.Agrees c root)
    (he : e.Agrees c root) (h : t.Has e ∨ e ∈ st.entries) : (t.exec st).Has e := by
  cases st with
  | insertNodes rows =>
    have hrows : ∀ r ∈ rows, r.2 = c.node r.1 := fun r hr => hst _ (List.mem_map_of_mem hr)
    cases e with
    | node key value =>
      refine (insertRows_eq_some ht.nodes hrows).mpr (h.imp id ?_)
      simp [Statement.entries]
    | _ => exact h.resolve_right (by simp [Statement.entries])
  | insertProgram rows =>
    have hrows : ∀ r ∈ rows, r.2 = c.program r.1 := fun r hr => hst _ (List.mem_map_of_mem hr)
    cases e with
    | program key data =>
      refine (insertRows_eq_some ht.program hrows).mpr (h.imp id ?_)
      simp [Statement.entries]
    | _ => exact h.resolve_right (by simp [Statement.entries])
  | updateStateRoot r =>
    cases e with
    | stateRoot r' =>
      have hr : root = some r := hst (.stateRoot r) (by simp [Statement.entries])
      exact Option.some.inj (hr.symm.trans he)
    | _ => exact h.resolve_right (by simp [Statement.entries])

variable {q : SingleQuery}

/-- What a query does, statement by statement. -/
theorem execQuery_spec (ht : t.Agrees c) (hq : ∀ e ∈ q.entries, e.Agrees c root) :
    (t.execQuery q).Agrees c ∧
      (∀ e, (t.execQuery q).Has e → t.Has e ∨ e ∈ q.entries) ∧
      ∀ e, e.Agrees c root → t.Has e ∨ e ∈ q.entries → (t.execQuery q).Has e := by
  unfold execQuery SingleQuery.entries at *
  generalize q.statements = sts at hq ⊢
  induction sts generalizing t with
  | nil => exact ⟨ht, fun e h => .inl h, fun e _ h => h.resolve_right (by simp)⟩
  | cons st sts ih =>
    simp only [List.flatMap_cons, List.mem_append] at hq ⊢
    have hst : ∀ e ∈ st.entries, e.Agrees c root := fun e he => hq e (.inl he)
    obtain ⟨h₁, h₂, h₃⟩ := ih (exec_agrees ht hst) fun e he => hq e (.inr he)
    refine ⟨h₁, ?_, ?_⟩
    · intro e h
      rcases h₂ e h with h | h
      · exact (has_of_has_exec h).imp id .inl
      · exact .inr (.inr h)
    · intro e he h
      refine h₃ e he ?_
      rcases h with h | h | h
      · exact .inl (has_exec ht hst he (.inl h))
      · exact .inl (has_exec ht hst he (.inr h))
      · exact .inr h

end Tables

end ZkevmProver
