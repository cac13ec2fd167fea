import ZkevmProver.HashDB.SmtTree

/-!
# Stores that keep the nodes readable

The assumption that the tree makes about its store: whatever was written can be read back.
`NodeStore` states it once, for the database and for the state manager; the rows of the store grow
by the nodes that `Smt` saves.

  1. The laws of a store.
  2. The effect of the requests (`Reads`, `Does`, `Saves`), and the rules to compose them.
  3. The database alone is such a store.
-/

namespace ZkevmProver

open Effects

/-- A store on which all nodes written stay readable: `rows` are the hashes and nodes written so
far, and a call of `set` runs from an `idle` state through `busy` ones. -/
structure NodeStore {σ : Type} (h : SmtHandler σ) (ctx : SmtContext) where
  rows : σ → Set (Fea × Node)
  idle : σ → Prop
  busy : σ → Prop
  rows_mono : ∀ op s, rows s ⊆ rows (h op s).2
  read : ∀ {s k n}, (k, n) ∈ rows s → ∃ n', h (.readNode k) s = (.ok n', s) ∧ (k, n') ∈ rows s
  write : ∀ {s} k n, busy s →
    ∃ s', h (.writeNode k n) s = (.ok (), s') ∧ busy s' ∧ rows s' = insert (k, n) (rows s)
  delete : ∀ {s} k, busy s →
    ∃ s', h (.deleteNode k) s = (.ok (), s') ∧ busy s' ∧ rows s' = rows s
  openState : ∀ {s} oldRoot, idle s →
    ∃ s', Runs h (Smt.openState ctx oldRoot) s () s' ∧ busy s' ∧ rows s' = rows s
  closeState : ∀ {s} oldRoot newRoot, busy s →
    ∃ s', Runs h (Smt.closeState ctx oldRoot newRoot) s () s' ∧ idle s' ∧ rows s' = rows s

namespace NodeStore

variable {σ : Type} {h : SmtHandler σ} {ctx : SmtContext} (S : NodeStore h ctx)
variable {α β : Type} {R R' R'' : Set (Fea × Node)}

/-- On a store with rows `R` the program returns `a` and leaves the store as it is. -/
def Reads (R : Set (Fea × Node)) (m : SmtM α) (a : α) : Prop :=
  ∀ s, S.rows s = R → Runs h m s a s

/-- In the middle of a call of `set`, on a store with rows `R`, the program returns `a` and leaves
the store with rows `R'`. -/
def Does (R : Set (Fea × Node)) (m : SmtM α) (a : α) (R' : Set (Fea × Node)) : Prop :=
  ∀ s, S.busy s → S.rows s = R → ∃ s', Runs h m s a s' ∧ S.busy s' ∧ S.rows s' = R'

/-- In the middle of a call of `set`, on a store with rows `R`, the program returns `a` and adds rows
so that `P` holds of them. -/
def Saves (R : Set (Fea × Node)) (m : SmtM α) (a : α) (P : Set (Fea × Node) → Prop) : Prop :=
  ∃ R', R ⊆ R' ∧ S.Does R m a R' ∧ P R'

variable {S}

/-- A run only adds rows. -/
theorem rows_subset_run (m : SmtM α) (s : σ) : S.rows s ⊆ S.rows (run h m s).2 :=
  run_mono S.rows_mono m s

theorem reads_pure (a : α) : S.Reads R (pure a) a := fun _ _ => Runs.pure a

theorem reads_pure_of_eq {a b : α} (hab : a = b) : S.Reads R (pure a) b := hab ▸ reads_pure a

theorem Reads.bind {m : SmtM α} {f : α → SmtM β} {a : α} {b : β} (hm : S.Reads R m a)
    (hf : S.Reads R (f a) b) : S.Reads R (m >>= f) b :=
  fun s hs => (hm s hs).bind (hf s hs)

theorem Reads.does {m : SmtM α} {a : α} (hm : S.Reads R m a) : S.Does R m a R :=
  fun s hb hs => ⟨s, hm s hs, hb, hs⟩

theorem does_pure (a : α) : S.Does R (pure a) a R := (reads_pure a).does

theorem Does.bind {m : SmtM α} {f : α → SmtM β} {a : α} {b : β} (hm : S.Does R m a R')
    (hf : S.Does R' (f a) b R'') : S.Does R (m >>= f) b R'' := by
  intro s hb hs
  obtain ⟨s', hm, hb', hs'⟩ := hm s hb hs
  obtain ⟨s'', hf, hb'', hs''⟩ := hf s' hb' hs'
  exact ⟨s'', hm.bind hf, hb'', hs''⟩

variable {P Q : Set (Fea × Node) → Prop}

theorem Does.saves {m : SmtM α} {a : α} (hm : S.Does R m a R) (hP : P R) : S.Saves R m a P :=
  ⟨R, subset_rfl, hm, hP⟩

theorem Saves.bind {m : SmtM α} {f : α → SmtM β} {a : α} {b : β} (hm : S.Saves R m a P)
    (hf : ∀ R', R ⊆ R' → P R' → S.Saves R' (f a) b Q) : S.Saves R (m >>= f) b Q := by
  obtain ⟨R', hR', hm, hP⟩ := hm
  obtain ⟨R'', hR'', hf, hQ⟩ := hf R' hR' hP
  exact ⟨R'', hR'.trans hR'', hm.bind hf, hQ⟩

theorem Does.bind_saves {m : SmtM α} {f : α → SmtM β} {a : α} {b : β} (hm : S.Does R m a R)
    (hf : S.Saves R (f a) b Q) : S.Saves R (m >>= f) b Q := by
  obtain ⟨R', hR', hf, hQ⟩ := hf
  exact ⟨R', hR', hm.bind hf, hQ⟩

/-- A row is read back. -/
theorem reads_readNode (hR : CollisionFree R) {k : Fea} {n : Node} (hk : (k, n) ∈ R) :
    S.Reads R (readNode k) n := by
  rintro s rfl
  obtain ⟨n', hr, hk'⟩ := S.read hk
  obtain rfl := hR.unique hk hk'
  exact runs_call_iff.mpr hr

theorem does_deleteNode (k : Fea) : S.Does R (deleteNode k) () R := by
  rintro s hb rfl
  obtain ⟨s', hr, hb', hs'⟩ := S.delete k hb
  exact ⟨s', runs_call_iff.mpr hr, hb', hs'⟩

variable (smt : Smt)

theorem saves_hashSave (n : Node) :
    S.Saves R (smt.hashSave n) (smt.poseidon n) fun R' => smt.row n ∈ R' := by
  refine ⟨insert (smt.row n) R, Set.subset_insert _ _, ?_, Set.mem_insert _ _⟩
  rintro s hb rfl
  obtain ⟨s', hr, hb', hs'⟩ := S.write (smt.poseidon n) n hb
  exact ⟨s', (runs_call_iff.mpr hr).bind (Runs.pure _), hb', hs'⟩

/-- Reading the node of a stored value gives the value. -/
theorem reads_readValue (hR : CollisionFree R) {v : ℕ} (hv : v < 2 ^ 256)
    (hk : smt.row (valueNode v) ∈ R) :
    S.Reads R (Smt.readValue (smt.poseidon (valueNode v))) v := by
  refine (reads_readNode hR hk).bind ?_
  rw [show (valueNode v).left = (scalar2fea v).1 from rfl,
    show (valueNode v).right = (scalar2fea v).2 from rfl, Prod.mk.eta,
    fea2scalar_scalar2fea 0 hv]
  exact reads_pure v

theorem does_replaceChild (delete b : Bool) (n : Node) (k : Fea) :
    S.Does R (Smt.replaceChild delete b n k) (n.setChild b k) R := by
  unfold Smt.replaceChild
  split
  · exact (does_deleteNode _).bind (does_pure _)
  · exact does_pure _

end NodeStore

/-! ## The database -/

/-- The nodes of the database, the last one written first. -/
abbrev NodeTable := List (Fea × Node)

/-- The database without state manager: every node is written straight to it. -/
def dbHandler : SmtHandler NodeTable
  | .readNode hash, db =>
    match db.lookup hash with
    | some node => (.ok node, db)
    | none => (.error (.zkr .dbKeyNotFound), db)
  | .writeNode hash node, db => (.ok (), (hash, node) :: db)
  | .setOldStateRoot _, db => (.ok (), db)
  | .deleteNode _, db => (.ok (), db)
  | .setNewStateRoot _, db => (.ok (), db)
  | .updateStateRoot _, db => (.ok (), db)

theorem lookup_of_mem {db : NodeTable} {k : Fea} {n : Node} (h : (k, n) ∈ db) :
    ∃ n', db.lookup k = some n' ∧ (k, n') ∈ db := by
  induction db with
  | nil => simp at h
  | cons p db ih =>
    obtain ⟨k', n'⟩ := p
    by_cases hk : k = k'
    · subst hk
      exact ⟨n', by simp, by simp⟩
    · obtain ⟨n₁, hl, hm⟩ := ih (by simpa [hk] using h)
      refine ⟨n₁, ?_, List.mem_cons_of_mem _ hm⟩
      rw [List.lookup_cons, beq_false_of_ne hk]
      exact hl

/-- The database as a store. -/
def dbStore (ctx : SmtContext) : NodeStore dbHandler ctx where
  rows db := {p | p ∈ db}
  idle _ := True
  busy _ := True
  rows_mono := by
    intro op db
    cases op with
    | readNode hash =>
      simp only [dbHandler]
      split <;> exact subset_rfl
    | writeNode hash node => exact List.subset_cons_self _ _
    | _ => exact subset_rfl
  read hk := by
    obtain ⟨n', hl, hm⟩ := lookup_of_mem hk
    exact ⟨n', by simp [dbHandler, hl], hm⟩
  write k n _ := ⟨_, rfl, trivial, by ext; simp⟩
  delete k _ := ⟨_, rfl, trivial, rfl⟩
  openState {db} oldRoot _ := by
    refine ⟨db, ?_, trivial, rfl⟩
    unfold Smt.openState
    split <;> rfl
  closeState {db} oldRoot newRoot _ := by
    refine ⟨db, ?_, trivial, rfl⟩
    unfold Smt.closeState
    split
    · rfl
    · split <;> rfl

/-- Whether no two rows of a table share a hash, and no hash is zero. -/
def NodeTable.noCollision (db : NodeTable) : Bool :=
  db.all fun p => p.1 ≠ 0 ∧ db.all fun q => p.1 ≠ q.1 ∨ p.2 = q.2

theorem NodeTable.collisionFree {db : NodeTable} (h : db.noCollision = true) :
    CollisionFree {p | p ∈ db} := by
  simp only [noCollision, List.all_eq_true, decide_eq_true_eq] at h
  constructor
  · intro k n n' hn hn'
    rcases (h _ hn).2 _ hn' with hne | heq
    · exact absurd rfl hne
    · exact heq
  · intro n hn
    exact (h _ hn).1 rfl

end ZkevmProver
