import ZkevmProver.HashDB.Smt
import ZkevmProver.HashDB.StateManagerAtomic

/-!
# The tree over the state manager

With the state manager, `Smt` writes its nodes to the batch, and reads them from there before it asks the
database.  A call of `set` has the last sub-state of its transaction for itself, from `setStateRoot` with the
old root to `setStateRoot` with the new one.

  1. The store.
  2. Sub-states during a call of `set`.
  3. The transactions of a batch.
  4. The rows that a flush can find.
  5. One request.
  6. The programs of `Smt`.
-/

namespace ZkevmProver

open Effects

/-! ## The store -/

namespace StateManager

/-- All nodes of a batch: the common write pool. -/
def pool (s : Option BatchState) : NodeTable := s.elim [] BatchState.dbWriteNodes

/-- The store of `Smt`: the state manager, and behind it the database.  Only writes look at the block, the
transaction and the persistence. -/
def smtHandler (block tx : ℕ) (p : Persistence) : SmtHandler (Option BatchState × NodeTable)
  | .readNode hash, (s, db) =>
    match StateManager.readNode s hash with
    | some node => (.ok node, (s, db))
    | none =>
      match db.lookup hash with
      | some node => (.ok node, (s, db))
      | none => (.error (.zkr .dbKeyNotFound), (s, db))
  | .writeNode hash node, (s, db) =>
    let r := StateManager.writeNode s block tx hash node p
    (r.1, (r.2, db))
  | .deleteNode hash, (s, db) => (.ok (), ((StateManager.deleteNode s block tx hash p).2, db))
  | .setOldStateRoot root, (s, db) =>
    let r := StateManager.setStateRoot s block tx root true p
    (r.1, (r.2, db))
  | .setNewStateRoot root, (s, db) =>
    let r := StateManager.setStateRoot s block tx root false p
    (r.1, (r.2, db))
  | .updateStateRoot _, st => (.ok (), st)

end StateManager

/-! ## Sub-states during a call of `set` -/

namespace TxPersistenceState

variable {ps ps' : TxPersistenceState} {root : Fea}

/-- No call of `set` is under way. -/
structure Idle (ps : TxPersistenceState) : Prop where
  current : ps.subState = [] ∧ ps.currentSubState = 0 ∨ ps.currentSubState < ps.subState.length
  closed : ∀ ss ∈ ps.subState, ss.newStateRoot ≠ none

/-- A call of `set` is under way: the last sub-state is its own. -/
structure Busy (ps : TxPersistenceState) (l : List TxSubState) (ss : TxSubState) : Prop where
  subState : ps.subState = l ++ [ss]
  current : ps.currentSubState = l.length
  opened : ss.newStateRoot = none
  closed : ∀ s ∈ l, s.newStateRoot ≠ none

/-- The nodes that have been written in a transaction. -/
def rows (ps : TxPersistenceState) : NodeTable := ps.subState.flatMap TxSubState.dbWriteNodes

theorem idle_new : Idle {} := ⟨.inl ⟨rfl, rfl⟩, fun _ hss => absurd hss List.not_mem_nil⟩

theorem rows_push : (ps.pushSubState root).rows = ps.rows := by
  simp [rows, pushSubState, List.flatMap_append]

theorem Idle.setOld (h : ps.Idle) (root : Fea) :
    ∃ ps', ps.setOld root = some ps' ∧ (∃ l ss, ps'.Busy l ss) ∧ ps'.rows = ps.rows := by
  unfold TxPersistenceState.setOld
  cases hlast : ps.subState.getLast? with
  | none =>
    have hcur : ps.currentSubState = 0 := by
      rcases h.current with ⟨_, hcur⟩ | hcur
      · exact hcur
      · rw [List.getLast?_eq_none_iff.mp hlast] at hcur
        exact absurd hcur (Nat.not_lt_zero _)
    dsimp only
    rw [if_neg (not_not_intro hcur)]
    exact ⟨_, rfl, ⟨ps.subState, _, rfl, rfl, rfl, h.closed⟩, rows_push⟩
  | some last =>
    have hmem := List.mem_of_getLast? hlast
    have hcur : ps.currentSubState < ps.subState.length := by
      rcases h.current with ⟨hnil, _⟩ | hcur
      · rw [hnil] at hmem
        exact absurd hmem List.not_mem_nil
      · exact hcur
    dsimp only
    rw [if_neg (Nat.not_le_of_lt hcur), if_neg (h.closed last hmem)]
    exact ⟨_, rfl, ⟨ps.subState, _, rfl, rfl, rfl, h.closed⟩, rows_push⟩

theorem Idle.finish (h : ps.Idle) (purge : Bool) (root : Fea) : (ps.finish purge root).Idle := by
  unfold TxPersistenceState.finish
  split
  · exact h
  · split
    · split
      · exact ⟨.inl ⟨rfl, rfl⟩, fun _ hss => absurd hss List.not_mem_nil⟩
      · exact h
    · split
      · split
        · rename_i i hi
          have hlt := (List.findIdx?_eq_some_iff_findIdx_eq.mp hi).1
          refine ⟨?_, fun ss hss => h.closed ss (List.mem_of_mem_take hss)⟩
          rcases Nat.eq_zero_or_pos i with rfl | hpos
          · exact .inl ⟨rfl, rfl⟩
          · exact .inr (by rw [List.length_take]; show i - 1 < min i _; omega)
        · exact h
      · exact h

/-- Without purging, the end of a transaction leaves it as it is. -/
theorem finish_false (root : Fea) : ps.finish false root = ps := by
  unfold TxPersistenceState.finish
  split
  · rfl
  · split
    · rfl
    · rfl

theorem modify_concat {α : Type} (l : List α) (a : α) (f : α → α) :
    (l ++ [a]).modify l.length f = l ++ [f a] :=
  List.modifyTailIdx_add (List.modifyHead f) 0 l [a]

section Busy

variable {l : List TxSubState} {ss : TxSubState}

theorem Busy.getElem? (h : ps.Busy l ss) : ps.subState[ps.currentSubState]? = some ss := by
  rw [h.subState, h.current]
  exact List.getElem?_concat_length

theorem Busy.modifyCurrent (h : ps.Busy l ss) (f : TxSubState → TxSubState) :
    (ps.modifyCurrent f).subState = l ++ [f ss] := by
  show ps.subState.modify ps.currentSubState f = _
  rw [h.subState, h.current, modify_concat]

theorem Busy.keep (h : ps.Busy l ss) {f : TxSubState → TxSubState} (hf : (f ss).newStateRoot = none) :
    (ps.modifyCurrent f).Busy l (f ss) :=
  ⟨h.modifyCurrent f, h.current, hf, h.closed⟩

theorem rows_of_subState (h : ps.subState = l ++ [ss]) :
    ps.rows = l.flatMap TxSubState.dbWriteNodes ++ ss.dbWriteNodes := by
  unfold TxPersistenceState.rows
  rw [h, List.flatMap_append, List.flatMap_singleton]

theorem Busy.setNew (h : ps.Busy l ss) (root : Fea) :
    ∃ ps', ps.setNew root = some ps' ∧ ps'.Idle ∧ ps'.rows = ps.rows := by
  have hsub := h.modifyCurrent fun s => { s with newStateRoot := some root }
  unfold TxPersistenceState.setNew
  rw [h.getElem?]
  dsimp only
  rw [if_neg (not_not_intro h.opened)]
  refine ⟨_, rfl, ⟨.inr ?_, ?_⟩, ?_⟩
  · show ps.currentSubState < (ps.modifyCurrent _).subState.length
    rw [hsub, h.current, List.length_append]
    exact Nat.lt_succ_self _
  · intro s hs
    rcases List.mem_append.mp (hsub ▸ hs) with hs | hs
    · exact h.closed s hs
    · rw [List.mem_singleton.mp hs]
      simp
  · exact (rows_of_subState hsub).trans (rows_of_subState h.subState).symm

end Busy

end TxPersistenceState

/-! ## The transactions of a batch -/

namespace BatchState

variable {b b' b'' : BatchState} {block tx block' tx' : ℕ} {p p' : Persistence} {ps : TxPersistenceState}

theorem getPersistence_modifyPersistence (f : TxPersistenceState → TxPersistenceState) :
    (b.modifyPersistence block tx p f).getPersistence block' tx' p' =
      if block' = block ∧ tx' = tx ∧ p' = p then (b.getPersistence block tx p).map f
      else b.getPersistence block' tx' p' := by
  unfold BatchState.getPersistence modifyPersistence modifyBlock
  rw [List.getElem?_modify, Option.map_eq_map]
  by_cases hblock : block' = block
  · subst hblock
    cases b.blockState[block']? with
    | none => simp
    | some bl =>
      rw [Option.map_some, if_pos rfl, Option.bind_some, Option.bind_some, Option.bind_some,
        List.getElem?_modify, Option.map_eq_map]
      by_cases htx : tx' = tx
      · subst htx
        cases bl.txState[tx']? with
        | none => simp
        | some t =>
          rw [Option.map_some, if_pos rfl, Option.map_some, Option.map_some, TxState.persistence_modify]
          by_cases hp : p' = p <;> simp [hp]
      · rw [if_neg fun h => htx h.2.1]
        cases bl.txState[tx']? with
        | none => rfl
        | some t => simp [Ne.symm htx]
  · rw [if_neg fun h => hblock h.1]
    cases b.blockState[block']? with
    | none => rfl
    | some bl => simp [Ne.symm hblock]

/-- What a batch has stays, and what is new has no data. -/
structure Extends (b b' : BatchState) : Prop where
  nodes : b'.dbWriteNodes = b.dbWriteNodes
  old : ∀ block tx p ps, b.getPersistence block tx p = some ps → b'.getPersistence block tx p = some ps
  new : ∀ block tx p ps, b'.getPersistence block tx p = some ps →
    b.getPersistence block tx p = some ps ∨ ps = {}

theorem Extends.refl (b : BatchState) : Extends b b := ⟨rfl, fun _ _ _ _ => id, fun _ _ _ _ => .inl⟩

theorem Extends.trans (h : Extends b b') (h' : Extends b' b'') : Extends b b'' where
  nodes := h'.nodes.trans h.nodes
  old _ _ _ _ hps := h'.old _ _ _ _ (h.old _ _ _ _ hps)
  new _ _ _ _ hps := (h'.new _ _ _ _ hps).elim (h.new _ _ _ _) .inr

/-- Blocks that are added have no transactions. -/
theorem extends_of_append {blocks : List BlockState} (hnodes : b'.dbWriteNodes = b.dbWriteNodes)
    (hblocks : b'.blockState = b.blockState ++ blocks) (hnew : ∀ bl ∈ blocks, bl.txState = []) :
    Extends b b' where
  nodes := hnodes
  old block tx p ps hps := by
    unfold BatchState.getPersistence at hps ⊢
    obtain ⟨t, ht, rfl⟩ := Option.map_eq_some_iff.mp hps
    obtain ⟨bl, hbl, ht⟩ := Option.bind_eq_some_iff.mp ht
    rw [hblocks, List.getElem?_append_left (List.getElem?_eq_some_iff.mp hbl).1, hbl, Option.bind_some, ht]
    rfl
  new block tx p ps hps := by
    unfold BatchState.getPersistence at hps ⊢
    obtain ⟨t, ht, rfl⟩ := Option.map_eq_some_iff.mp hps
    obtain ⟨bl, hbl, ht⟩ := Option.bind_eq_some_iff.mp ht
    rw [hblocks] at hbl
    rcases Nat.lt_or_ge block b.blockState.length with hlt | hge
    · rw [List.getElem?_append_left hlt] at hbl
      rw [hbl, Option.bind_some, ht]
      exact .inl rfl
    · rw [List.getElem?_append_right hge] at hbl
      rw [hnew bl (List.mem_of_getElem? hbl)] at ht
      cases ht

/-- Transactions that are added have no data. -/
theorem extends_modifyBlock {f : BlockState → BlockState}
    (hf : ∀ bl, ∃ n, (f bl).txState = bl.txState ++ List.replicate n ({} : TxState)) : Extends b (b.modifyBlock block f) where
  nodes := rfl
  old block' tx p ps hps := by
    unfold BatchState.getPersistence modifyBlock at *
    obtain ⟨t, ht, rfl⟩ := Option.map_eq_some_iff.mp hps
    obtain ⟨bl, hbl, ht⟩ := Option.bind_eq_some_iff.mp ht
    rw [List.getElem?_modify, hbl, Option.map_eq_map, Option.map_some, Option.bind_some]
    split
    · obtain ⟨n, hn⟩ := hf bl
      rw [hn, List.getElem?_append_left (List.getElem?_eq_some_iff.mp ht).1, ht]
      rfl
    · rw [ht]
      rfl
  new block' tx p ps hps := by
    unfold BatchState.getPersistence modifyBlock at *
    obtain ⟨t, ht, rfl⟩ := Option.map_eq_some_iff.mp hps
    obtain ⟨bl', hbl', ht⟩ := Option.bind_eq_some_iff.mp ht
    rw [List.getElem?_modify, Option.map_eq_map] at hbl'
    obtain ⟨bl, hbl, hbl'⟩ := Option.map_eq_some_iff.mp hbl'
    rw [hbl, Option.bind_some]
    split at hbl'
    · obtain ⟨n, hn⟩ := hf bl
      rw [← hbl', hn] at ht
      rcases Nat.lt_or_ge tx bl.txState.length with hlt | hge
      · rw [List.getElem?_append_left hlt] at ht
        rw [ht]
        exact .inl rfl
      · rw [List.getElem?_append_right hge] at ht
        rw [List.eq_of_mem_replicate (List.mem_of_getElem? ht)]
        exact .inr rfl
    · rw [← hbl'] at ht
      rw [ht]
      exact .inl rfl

theorem extends_ensureBlock (b : BatchState) (block : ℕ) : Extends b (b.ensureBlock block) := by
  unfold BatchState.ensureBlock
  split
  · exact extends_of_append rfl rfl fun bl hbl => by rw [List.eq_of_mem_replicate hbl]
  · exact .refl b

theorem extends_recordRoot (b : BatchState) (block : ℕ) (stateRoot : Fea) (bIsOldStateRoot : Bool)
    (p : Persistence) : Extends b (b.recordRoot block stateRoot bIsOldStateRoot p) := by
  unfold BatchState.recordRoot
  dsimp only
  refine Extends.trans ?_ (extends_modifyBlock fun bl => ⟨0, ?_⟩)
  · refine Extends.trans ?_ (extends_ensureBlock _ block)
    split
    · exact extends_of_append rfl (List.append_nil _).symm fun bl hbl => absurd hbl List.not_mem_nil
    · exact extends_of_append rfl (List.append_nil _).symm fun bl hbl => absurd hbl List.not_mem_nil
  · split
    · split
      · simp
      · simp
    · split
      · simp
      · simp

theorem extends_ensureTx (b : BatchState) (block tx : ℕ) : Extends b (b.ensureTx block tx) := by
  refine extends_modifyBlock fun bl => ?_
  split
  · exact ⟨_, rfl⟩
  · exact ⟨0, by simp⟩

theorem exists_block_recordRoot (b : BatchState) (block : ℕ) (stateRoot : Fea) (bIsOldStateRoot : Bool)
    (p : Persistence) : block < (b.recordRoot block stateRoot bIsOldStateRoot p).blockState.length := by
  have hensure (b : BatchState) : block < (b.ensureBlock block).blockState.length := by
    unfold BatchState.ensureBlock
    split
    · rw [List.length_append, List.length_replicate]
      omega
    · omega
  unfold BatchState.recordRoot modifyBlock
  rw [List.length_modify]
  exact hensure _

theorem exists_ensureTx (h : block < b.blockState.length) (tx : ℕ) (p : Persistence) :
    ∃ ps, (b.ensureTx block tx).getPersistence block tx p = some ps := by
  unfold BatchState.getPersistence ensureTx modifyBlock
  rw [List.getElem?_modify, Option.map_eq_map, List.getElem?_eq_getElem h, Option.map_some, if_pos rfl,
    Option.bind_some]
  have hlt : tx < (if b.blockState[block].txState.length ≤ tx then
      { b.blockState[block] with
        txState := b.blockState[block].txState ++ List.replicate (tx - b.blockState[block].txState.length + 1) {}
        currentTx := tx }
    else b.blockState[block]).txState.length := by
    split
    · rw [List.length_append, List.length_replicate]
      omega
    · omega
  rw [List.getElem?_eq_getElem hlt]
  exact ⟨_, rfl⟩

/-! ## The rows that a flush can find -/

/-- No call of `set` is under way. -/
def Idle (b : BatchState) : Prop := ∀ block tx p ps, b.getPersistence block tx p = some ps → ps.Idle

/-- A call of `set` is under way in one transaction. -/
structure Busy (b : BatchState) (block tx : ℕ) (p : Persistence) (ps : TxPersistenceState) : Prop where
  here : b.getPersistence block tx p = some ps
  busy : ∃ l ss, ps.Busy l ss
  elsewhere : ∀ block' tx' p' ps', ¬(block' = block ∧ tx' = tx ∧ p' = p) →
    b.getPersistence block' tx' p' = some ps' → ps'.Idle

/-- A row that is kept in a sub-state of a stored persistence. -/
def Keeps (b : BatchState) (r : Fea × Node) : Prop :=
  ∃ block tx p ps, p.isStored = true ∧ b.getPersistence block tx p = some ps ∧ r ∈ ps.rows

theorem idle_new : ({} : BatchState).Idle := fun _ _ _ _ hps => by cases hps

theorem Extends.idle (h : Extends b b') (hb : b.Idle) : b'.Idle := by
  intro block tx p ps hps
  rcases h.new block tx p ps hps with hps | rfl
  · exact hb block tx p ps hps
  · exact TxPersistenceState.idle_new

theorem Extends.keeps_congr (h : Extends b b') (r : Fea × Node) : b'.Keeps r ↔ b.Keeps r := by
  constructor
  · rintro ⟨block, tx, p, ps, hp, hps, hr⟩
    rcases h.new block tx p ps hps with hps | rfl
    · exact ⟨block, tx, p, ps, hp, hps, hr⟩
    · exact absurd hr List.not_mem_nil
  · rintro ⟨block, tx, p, ps, hp, hps, hr⟩
    exact ⟨block, tx, p, ps, hp, h.old block tx p ps hps, hr⟩

/-- A row that is kept in another persistence. -/
def KeepsElsewhere (b : BatchState) (block tx : ℕ) (p : Persistence) (r : Fea × Node) : Prop :=
  ∃ block' tx' p' ps', ¬(block' = block ∧ tx' = tx ∧ p' = p) ∧ p'.isStored = true ∧
    b.getPersistence block' tx' p' = some ps' ∧ r ∈ ps'.rows

theorem keeps_here_iff (hps : b.getPersistence block tx p = some ps) (r : Fea × Node) :
    b.Keeps r ↔ p.isStored = true ∧ r ∈ ps.rows ∨ b.KeepsElsewhere block tx p r := by
  constructor
  · rintro ⟨block', tx', p', ps', hp', hps', hr⟩
    by_cases hsame : block' = block ∧ tx' = tx ∧ p' = p
    · obtain ⟨rfl, rfl, rfl⟩ := hsame
      rw [hps] at hps'
      obtain rfl := Option.some.inj hps'
      exact .inl ⟨hp', hr⟩
    · exact .inr ⟨block', tx', p', ps', hsame, hp', hps', hr⟩
  · rintro (⟨hp, hr⟩ | ⟨block', tx', p', ps', _, hp', hps', hr⟩)
    · exact ⟨block, tx, p, ps, hp, hps, hr⟩
    · exact ⟨block', tx', p', ps', hp', hps', hr⟩

theorem getPersistence_modified (hps : b.getPersistence block tx p = some ps)
    (f : TxPersistenceState → TxPersistenceState) :
    (b.modifyPersistence block tx p f).getPersistence block tx p = some (f ps) := by
  rw [getPersistence_modifyPersistence, if_pos ⟨rfl, rfl, rfl⟩, hps]
  rfl

theorem getPersistence_other {f : TxPersistenceState → TxPersistenceState}
    (hother : ¬(block' = block ∧ tx' = tx ∧ p' = p)) :
    (b.modifyPersistence block tx p f).getPersistence block' tx' p' = b.getPersistence block' tx' p' := by
  rw [getPersistence_modifyPersistence, if_neg hother]

/-- A change that adds rows to a persistence, or none. -/
theorem keeps_modifyPersistence {f : TxPersistenceState → TxPersistenceState} (new : NodeTable)
    (hps : b.getPersistence block tx p = some ps) (hf : ∀ r, r ∈ (f ps).rows ↔ r ∈ new ∨ r ∈ ps.rows)
    (r : Fea × Node) : (b.modifyPersistence block tx p f).Keeps r ↔ p.isStored = true ∧ r ∈ new ∨ b.Keeps r := by
  have helse : (b.modifyPersistence block tx p f).KeepsElsewhere block tx p r ↔ b.KeepsElsewhere block tx p r := by
    unfold KeepsElsewhere
    constructor
    · rintro ⟨block', tx', p', ps', hother, hp', hps', hr⟩
      exact ⟨block', tx', p', ps', hother, hp', getPersistence_other hother ▸ hps', hr⟩
    · rintro ⟨block', tx', p', ps', hother, hp', hps', hr⟩
      exact ⟨block', tx', p', ps', hother, hp', (getPersistence_other hother).trans hps', hr⟩
  rw [keeps_here_iff (getPersistence_modified hps f), keeps_here_iff hps, helse, hf, and_or_left, or_assoc]

theorem Idle.modifyPersistence (h : b.Idle) {f : TxPersistenceState → TxPersistenceState}
    (hf : ∀ ps, ps.Idle → (f ps).Idle) : (b.modifyPersistence block tx p f).Idle := by
  intro block' tx' p' ps' hps'
  rw [getPersistence_modifyPersistence] at hps'
  split at hps'
  · obtain ⟨ps, hps, rfl⟩ := Option.map_eq_some_iff.mp hps'
    exact hf ps (h block tx p ps hps)
  · exact h block' tx' p' ps' hps'

/-! ## One request -/

/-- Two states of a batch with the same nodes. -/
structure SameNodes (b b' : BatchState) : Prop where
  nodes : b'.dbWriteNodes = b.dbWriteNodes
  keeps : ∀ r, b'.Keeps r ↔ b.Keeps r

theorem SameNodes.trans (h : SameNodes b b') (h' : SameNodes b' b'') : SameNodes b b'' :=
  ⟨h'.nodes.trans h.nodes, fun r => (h'.keeps r).trans (h.keeps r)⟩

theorem Extends.sameNodes (h : Extends b b') : SameNodes b b' := ⟨h.nodes, h.keeps_congr⟩

theorem sameNodes_modifyPersistence {f : TxPersistenceState → TxPersistenceState}
    (hps : b.getPersistence block tx p = some ps) (hf : (f ps).rows = ps.rows) :
    SameNodes b (b.modifyPersistence block tx p f) where
  nodes := rfl
  keeps r := by
    rw [keeps_modifyPersistence [] hps fun r => by simp [hf]]
    simp

theorem Idle.busy (h : b.Idle) (hps : b.getPersistence block tx p = some ps) {ps' : TxPersistenceState}
    (hbusy : ∃ l ss, ps'.Busy l ss) : (b.modifyPersistence block tx p fun _ => ps').Busy block tx p ps' where
  here := getPersistence_modified hps _
  busy := hbusy
  elsewhere _ _ _ _ hother hps' := h _ _ _ _ (getPersistence_other hother ▸ hps')

theorem Busy.change (h : b.Busy block tx p ps) {f : TxPersistenceState → TxPersistenceState}
    (hf : ∃ l ss, (f ps).Busy l ss) : (b.modifyPersistence block tx p f).Busy block tx p (f ps) where
  here := getPersistence_modified h.here f
  busy := hf
  elsewhere _ _ _ _ hother hps' := h.elsewhere _ _ _ _ hother (getPersistence_other hother ▸ hps')

/-- A call of `set` can begin in any transaction. -/
theorem Idle.setOld (h : b.Idle) (block tx : ℕ) (root : Fea) (p : Persistence) :
    ∃ b' ps', b.setStateRoot block tx root true p = (.ok (), some b') ∧ b'.Busy block tx p ps' ∧ SameNodes b b' := by
  have hext := (extends_recordRoot b block root true p).trans (extends_ensureTx _ block tx)
  obtain ⟨ps, hps⟩ := exists_ensureTx (exists_block_recordRoot b block root true p) tx p
  obtain ⟨ps', hset, hbusy, hrows⟩ := (hext.idle h block tx p ps hps).setOld root
  unfold BatchState.setStateRoot
  dsimp only
  rw [Bool.not_true, Bool.and_false, if_neg (by decide), if_pos rfl, hps, Option.getD_some, hset]
  exact ⟨_, ps', rfl, (hext.idle h).busy hps hbusy,
    hext.sameNodes.trans (sameNodes_modifyPersistence hps hrows)⟩

theorem Busy.setNew (h : b.Busy block tx p ps) (root : Fea) :
    ∃ b', b.setStateRoot block tx root false p = (.ok (), some b') ∧ b'.Idle ∧ SameNodes b b' := by
  have hrec := extends_recordRoot b block root false p
  have hext := hrec.trans (extends_ensureTx _ block tx)
  have hps := hext.old _ _ _ _ h.here
  obtain ⟨l, ss, hbusy⟩ := h.busy
  obtain ⟨ps', hset, hidle, hrows⟩ := hbusy.setNew root
  have htx : (b.recordRoot block root false p).hasTx block tx = true := by
    obtain ⟨t, ht, _⟩ := Option.map_eq_some_iff.mp (hrec.old _ _ _ _ h.here)
    unfold BatchState.hasTx
    rw [ht]
    rfl
  unfold BatchState.setStateRoot
  dsimp only
  rw [htx, Bool.not_true, Bool.false_and, if_neg (by decide), if_neg (by decide), hps, Option.getD_some, hset]
  refine ⟨_, rfl, ?_, hext.sameNodes.trans (sameNodes_modifyPersistence hps hrows)⟩
  intro block' tx' p' ps'' hps''
  by_cases hsame : block' = block ∧ tx' = tx ∧ p' = p
  · obtain ⟨rfl, rfl, rfl⟩ := hsame
    rw [getPersistence_modified hps] at hps''
    obtain rfl := Option.some.inj hps''
    exact hidle
  · rw [getPersistence_other hsame] at hps''
    rcases hext.new _ _ _ _ hps'' with hps'' | rfl
    · exact h.elsewhere _ _ _ _ hsame hps''
    · exact TxPersistenceState.idle_new

theorem Busy.writeNode (h : b.Busy block tx p ps) (key : Fea) (value : Node) :
    ∃ b' ps', StateManager.writeNode (some b) block tx key value p = (.ok (), some b') ∧ b'.Busy block tx p ps' ∧
      b'.dbWriteNodes = (key, value) :: b.dbWriteNodes ∧
      ∀ r, b'.Keeps r ↔ p.isStored = true ∧ r = (key, value) ∨ b.Keeps r := by
  obtain ⟨t, ht, hpt⟩ := Option.map_eq_some_iff.mp h.here
  obtain ⟨bl, hbl, htx⟩ := Option.bind_eq_some_iff.mp ht
  have hlt := (List.getElem?_eq_some_iff.mp htx).1
  obtain ⟨l, ss, hbusy⟩ := h.busy
  have hne : ps.subState.length ≠ 0 := by
    rw [hbusy.subState, List.length_append]
    exact Nat.succ_ne_zero _
  have hwrite : (if ps.subState.length = 0 then
        { ps with
          subState := [{
            oldStateRoot := b.currentStateRoot, newStateRoot := none
            previousSubState := 0, bValid := false, dbWriteNodes := [], dbDeleteNodes := [] }]
          currentSubState := 0 }
      else ps) = ps := if_neg hne
  have hkeep := hbusy.keep (f := fun ss => { ss with dbWriteNodes := (key, value) :: ss.dbWriteNodes }) hbusy.opened
  unfold StateManager.writeNode
  dsimp only
  rw [hbl]
  dsimp only
  rw [if_neg (Nat.not_lt_of_lt hlt), if_neg (Nat.ne_of_lt hlt)]
  have hchange := h.change (f := fun ps =>
    (if ps.subState.length = 0 then
        { ps with
          subState := [{
            oldStateRoot := b.currentStateRoot, newStateRoot := none
            previousSubState := 0, bValid := false, dbWriteNodes := [], dbDeleteNodes := [] }]
          currentSubState := 0 }
      else ps).modifyCurrent fun ss => { ss with dbWriteNodes := (key, value) :: ss.dbWriteNodes })
    (by rw [hwrite]; exact ⟨_, _, hkeep⟩)
  refine ⟨_, _, rfl, ⟨hchange.here, hchange.busy, hchange.elsewhere⟩, rfl, fun r => ?_⟩
  refine (keeps_modifyPersistence [(key, value)] h.here (fun r => ?_) r).trans (by rw [List.mem_singleton])
  rw [hwrite, TxPersistenceState.rows_of_subState hkeep.subState, TxPersistenceState.rows_of_subState hbusy.subState]
  simp only [List.mem_append, List.mem_cons, List.not_mem_nil, or_false]
  tauto

theorem Busy.deleteNode (h : b.Busy block tx p ps) (key : Fea) :
    ∃ b' ps', (StateManager.deleteNode (some b) block tx key p).2 = some b' ∧ b'.Busy block tx p ps' ∧
      SameNodes b b' := by
  obtain ⟨l, ss, hbusy⟩ := h.busy
  have hkeep := hbusy.keep (f := fun ss => { ss with dbDeleteNodes := ss.dbDeleteNodes ++ [key] }) hbusy.opened
  have hlt : ps.currentSubState < ps.subState.length := (List.getElem?_eq_some_iff.mp hbusy.getElem?).1
  unfold StateManager.deleteNode
  dsimp only
  rw [h.here]
  dsimp only
  rw [if_neg (Nat.not_le_of_lt hlt)]
  refine ⟨_, _, rfl, h.change ⟨_, _, hkeep⟩, sameNodes_modifyPersistence h.here ?_⟩
  rw [TxPersistenceState.rows_of_subState hkeep.subState, TxPersistenceState.rows_of_subState hbusy.subState]

end BatchState

/-! ## The programs of `Smt` -/

/-- Two tables in which the same is found. -/
structure SameRows (l l' : NodeTable) : Prop where
  lookup : ∀ k, l'.lookup k = l.lookup k
  mem : ∀ r, r ∈ l' ↔ r ∈ l

theorem SameRows.cons {l l' : NodeTable} (h : SameRows l l') (k : Fea) (n : Node) :
    SameRows ((k, n) :: l) ((k, n) :: l') where
  lookup k' := by
    rw [List.lookup_cons, List.lookup_cons, h.lookup]
  mem r := by
    rw [List.mem_cons, List.mem_cons, h.mem]

namespace StateManager

variable {keep : Prop} {block tx : ℕ} {p : Persistence}

/-- Between two calls, a database has the rows of the state manager and of the database behind it.  If they
are to be kept, the rows of the batch are there for a flush. -/
structure Mirrors (keep : Prop) (st : Option BatchState × NodeTable) (t : NodeTable) : Prop where
  idle : ∀ b, st.1 = some b → b.Idle
  same : SameRows t (pool st.1 ++ st.2)
  kept : keep → ∀ b, st.1 = some b → ∀ r, b.Keeps r ↔ r ∈ b.dbWriteNodes

/-- The same during a call of `set`. -/
structure MirrorsBusy (keep : Prop) (block tx : ℕ) (p : Persistence) (st : Option BatchState × NodeTable)
    (t : NodeTable) : Prop where
  busy : ∃ b ps, st.1 = some b ∧ b.Busy block tx p ps ∧ (keep → ∀ r, b.Keeps r ↔ r ∈ b.dbWriteNodes)
  same : SameRows t (pool st.1 ++ st.2)

theorem readNode_eq (s : Option BatchState) (key : Fea) : readNode s key = (pool s).lookup key := by
  cases s with
  | none => rfl
  | some b => rfl

/-- A read finds what it finds in the rows. -/
theorem smtHandler_readNode (block tx : ℕ) (p : Persistence) {st : Option BatchState × NodeTable} {t : NodeTable}
    (h : SameRows t (pool st.1 ++ st.2)) (hash : Fea) :
    (smtHandler block tx p (.readNode hash) st).1 = (dbHandler (.readNode hash) t).1 ∧
      (smtHandler block tx p (.readNode hash) st).2 = st ∧ (dbHandler (.readNode hash) t).2 = t := by
  obtain ⟨s, db⟩ := st
  have hlookup := h.lookup hash
  rw [List.lookup_append] at hlookup
  unfold smtHandler dbHandler
  dsimp only at hlookup ⊢
  rw [readNode_eq, ← hlookup]
  cases (pool s).lookup hash with
  | some n => exact ⟨rfl, rfl, rfl⟩
  | none =>
    rw [Option.none_or]
    cases db.lookup hash with
    | some n => exact ⟨rfl, rfl, rfl⟩
    | none => exact ⟨rfl, rfl, rfl⟩

/-- The store answers like the database during a call of `set`. -/
abbrev Agrees (keep : Prop) (block tx : ℕ) (p : Persistence) {α : Type} (m m' : SmtM α) : Prop :=
  Agree (smtHandler block tx p) dbHandler (MirrorsBusy keep block tx p) m m'

section Programs

theorem agree_readNode {R : Option BatchState × NodeTable → NodeTable → Prop}
    (hR : ∀ st t, R st t → SameRows t (pool st.1 ++ st.2)) (hash : Fea) :
    Agree (smtHandler block tx p) dbHandler R (ZkevmProver.readNode hash) (ZkevmProver.readNode hash) := by
  refine agree_call fun st t h => ?_
  obtain ⟨hres, hst, ht⟩ := smtHandler_readNode block tx p (hR st t h) hash
  rw [hst, ht]
  exact ⟨hres, h⟩

theorem agrees_readNode (hash : Fea) :
    Agrees keep block tx p (ZkevmProver.readNode hash) (ZkevmProver.readNode hash) :=
  agree_readNode (fun _ _ h => h.same) hash

theorem agrees_writeNode (hp : keep → p.isStored = true) (hash : Fea) (node : Node) :
    Agrees keep block tx p (ZkevmProver.writeNode hash node) (ZkevmProver.writeNode hash node) := by
  refine agree_call fun st t h => ?_
  obtain ⟨s, db⟩ := st
  obtain ⟨⟨b, ps, hs, hbusy, hkept⟩, hsame⟩ := h
  obtain rfl : s = some b := hs
  obtain ⟨b', ps', hwrite, hbusy', hnodes, hkeeps⟩ := hbusy.writeNode hash node
  unfold smtHandler dbHandler
  dsimp only
  rw [hwrite]
  refine ⟨rfl, ⟨b', ps', rfl, hbusy', fun hk r => ?_⟩, ?_⟩
  · rw [hkeeps, hnodes, List.mem_cons, hkept hk]
    simp [hp hk]
  · have hcons := hsame.cons hash node
    show SameRows _ (b'.dbWriteNodes ++ db)
    rw [hnodes]
    exact hcons

/-- A node is deleted in the state manager alone. -/
theorem agrees_deleteNode (hash : Fea) : Agrees keep block tx p (ZkevmProver.deleteNode hash) (pure ()) := by
  refine agree_call_pure fun st t h => ?_
  obtain ⟨s, db⟩ := st
  obtain ⟨⟨b, ps, hs, hbusy, hkept⟩, hsame⟩ := h
  obtain rfl : s = some b := hs
  obtain ⟨b', ps', hdelete, hbusy', hsame'⟩ := hbusy.deleteNode hash
  unfold smtHandler
  dsimp only
  rw [hdelete]
  refine ⟨rfl, ⟨b', ps', rfl, hbusy', fun hk r => ?_⟩, ?_⟩
  · rw [hsame'.keeps, hsame'.nodes, hkept hk]
  · show SameRows _ (b'.dbWriteNodes ++ db)
    rw [hsame'.nodes]
    exact hsame

variable (smt : Smt)

theorem agrees_hashSave (hp : keep → p.isStored = true) (v : Node) :
    Agrees keep block tx p (smt.hashSave v) (smt.hashSave v) :=
  (agrees_writeNode hp _ v).bind fun _ => agree_pure _

theorem agrees_readValue (hash : Fea) : Agrees keep block tx p (Smt.readValue hash) (Smt.readValue hash) :=
  (agrees_readNode hash).bind fun _ => agree_pure _

/-- The walk down only reads. -/
theorem agree_descend {σ τ : Type} {h : SmtHandler σ} {h' : SmtHandler τ} {R : σ → τ → Prop}
    (hread : ∀ hash, Agree h h' R (ZkevmProver.readNode hash) (ZkevmProver.readNode hash)) (keys : List Bool) (r : Fea)
    (path : Smt.Path) : Agree h h' R (smt.descend keys r path) (smt.descend keys r path) := by
  induction keys generalizing r path with
  | nil =>
    unfold Smt.descend
    split
    · exact agree_pure _
    · refine (hread r).bind fun dbValue => ?_
      split
      · exact ((hread _).bind fun _ => agree_pure _).bind fun _ => agree_pure _
      · exact agree_fail _
  | cons key keys ih =>
    unfold Smt.descend
    split
    · exact agree_pure _
    · refine (hread r).bind fun dbValue => ?_
      split
      · exact ((hread _).bind fun _ => agree_pure _).bind fun _ => agree_pure _
      · exact ih _ _

theorem agrees_replaceChild (delete b : Bool) (sibling : Node) (hash : Fea) :
    Agrees keep block tx p (Smt.replaceChild delete b sibling hash) (Smt.replaceChild false b sibling hash) :=
  (agrees_deleteNode _).ite_skip fun _ => agree_pure _

theorem agrees_place (delete : Bool) (path : Smt.Path) (newRoot hash : Fea) :
    Agrees keep block tx p (Smt.place delete path newRoot hash) (Smt.place false path newRoot hash) := by
  cases path with
  | nil => exact agree_pure _
  | cons s above => exact (agrees_replaceChild delete _ _ _).bind fun _ => agree_pure _

theorem agrees_extend (hp : keep → p.isStored = true) (bits : List Bool) (r2 : Fea) :
    Agrees keep block tx p (smt.extend bits r2) (smt.extend bits r2) := by
  induction bits generalizing r2 with
  | nil => exact agree_pure _
  | cons b bits ih => exact (agrees_hashSave smt hp _).bind fun r2 => ih r2

variable {ctx ctx' : SmtContext}

theorem agrees_setUpdate (hp : keep → p.isStored = true) (hctx : ctx'.bUseStateManager = false) (value : ℕ)
    (f : Smt.Found) (path : Smt.Path) (newRoot : Fea) (n : ℕ) :
    Agrees keep block tx p (smt.setUpdate ctx value f path newRoot n) (smt.setUpdate ctx' value f path newRoot n) := by
  unfold Smt.setUpdate
  rw [hctx, Bool.false_and]
  refine (agrees_hashSave smt hp _).bind fun newValH => (agrees_hashSave smt hp _).bind fun newLeafHash => ?_
  exact (agrees_place _ _ _ _).bind fun _ => agree_pure _

theorem agrees_setInsertFound (hp : keep → p.isStored = true) (key : Fea) (value : ℕ) (f : Smt.Found)
    (path : Smt.Path) (newRoot : Fea) (n : ℕ) :
    Agrees keep block tx p (smt.setInsertFound key value f path newRoot n)
      (smt.setInsertFound key value f path newRoot n) := by
  unfold Smt.setInsertFound
  split
  · exact agree_fail _
  · refine (agrees_hashSave smt hp _).bind fun oldLeafHash => (agrees_hashSave smt hp _).bind fun newValH => ?_
    refine (agrees_hashSave smt hp _).bind fun newLeafHash => (agrees_hashSave smt hp _).bind fun r2 => ?_
    exact (agrees_extend smt hp _ _).bind fun r2 => (agrees_place _ _ _ _).bind fun _ => agree_pure _

theorem agrees_setInsertNotFound (hp : keep → p.isStored = true) (hctx : ctx'.bUseStateManager = false) (key : Fea)
    (value : ℕ) (path : Smt.Path) (newRoot : Fea) (n : ℕ) :
    Agrees keep block tx p (smt.setInsertNotFound ctx key value path newRoot n)
      (smt.setInsertNotFound ctx' key value path newRoot n) := by
  unfold Smt.setInsertNotFound
  rw [hctx]
  refine (agrees_hashSave smt hp _).bind fun newValH => (agrees_hashSave smt hp _).bind fun newLeafHash => ?_
  exact (agrees_place _ _ _ _).bind fun _ => agree_pure _

theorem agrees_setDeleteNotFound (oldValue : ℕ) (b : Bool) (sibling : Node) (above : Smt.Path) (newRoot : Fea) (n : ℕ) :
    Agrees keep block tx p (Smt.setDeleteNotFound oldValue b sibling above newRoot n)
      (Smt.setDeleteNotFound oldValue b sibling above newRoot n) :=
  (agrees_readNode _).bind fun _ => agree_pure _

theorem agrees_setDeleteFound (hp : keep → p.isStored = true) (oldValue : ℕ) (bits : List Bool) (leaf : Node)
    (above : Smt.Path) (newRoot : Fea) (n : ℕ) :
    Agrees keep block tx p (smt.setDeleteFound oldValue bits leaf above newRoot n)
      (smt.setDeleteFound oldValue bits leaf above newRoot n) := by
  refine (agrees_readValue _).bind fun val => (agrees_hashSave smt hp _).bind fun oldLeafHash => ?_
  exact (agrees_place _ _ _ _).bind fun _ => agree_pure _

theorem agrees_setDelete (hp : keep → p.isStored = true) (hctx : ctx'.bUseStateManager = false) (f : Smt.Found)
    (path : Smt.Path) (newRoot : Fea) (n : ℕ) :
    Agrees keep block tx p (smt.setDelete ctx f path newRoot n) (smt.setDelete ctx' f path newRoot n) := by
  cases path with
  | nil => exact agree_pure _
  | cons s above =>
    obtain ⟨b, sibling⟩ := s
    unfold Smt.setDelete
    rw [hctx]
    refine (agrees_deleteNode _).ite_skip fun _ => ?_
    dsimp only
    split
    · exact agrees_setDeleteNotFound _ _ _ _ _ _
    · refine (agrees_readNode _).bind fun dbValue => ?_
      split
      · exact agrees_setDeleteFound smt hp _ _ _ _ _ _
      · exact agrees_setDeleteNotFound _ _ _ _ _ _

theorem agrees_climb (hp : keep → p.isStored = true) (hctx : ctx'.bUseStateManager = false) (path : Smt.Path)
    (newRoot : Fea) : Agrees keep block tx p (smt.climb ctx path newRoot) (smt.climb ctx' path newRoot) := by
  induction path generalizing newRoot with
  | nil => exact agree_pure _
  | cons s above ih =>
    unfold Smt.climb
    rw [hctx]
    refine (agrees_replaceChild _ _ _ _).bind fun sibling => (agrees_hashSave smt hp _).bind fun newRoot => ?_
    exact (ih newRoot).bind fun _ => agree_pure _

theorem agrees_rebuild (hp : keep → p.isStored = true) (hctx : ctx'.bUseStateManager = false) (path : Smt.Path)
    (newRoot : Fea) : Agrees keep block tx p (smt.rebuild ctx path newRoot) (smt.rebuild ctx' path newRoot) := by
  cases path with
  | nil => exact agree_pure _
  | cons s above =>
    refine (agrees_hashSave smt hp _).bind fun newRoot => ?_
    exact (agrees_climb smt hp hctx above newRoot).bind fun _ => agree_pure _

theorem agrees_setBranch (hp : keep → p.isStored = true) (hctx : ctx'.bUseStateManager = false) (key : Fea)
    (value : ℕ) (d : Smt.Descent) (oldRoot : Fea) (n : ℕ) :
    Agrees keep block tx p (smt.setBranch ctx key value d oldRoot n) (smt.setBranch ctx' key value d oldRoot n) := by
  unfold Smt.setBranch
  split
  · split
    · split
      · exact agrees_setUpdate smt hp hctx _ _ _ _ _
      · exact agrees_setInsertFound smt hp _ _ _ _ _ _
    · exact agrees_setInsertNotFound smt hp hctx _ _ _ _ _
  · split
    · split
      · exact agrees_setDelete smt hp hctx _ _ _ _
      · exact agree_pure _
    · exact agree_pure _

/-- `Smt::set` between the two calls of `setStateRoot`. -/
def setBody (ctx : SmtContext) (oldRoot key : Fea) (value : ℕ) : SmtM SmtSetResult := do
  let d ← smt.descend (splitKey key) oldRoot []
  let foundValue := (d.found.map Smt.Found.foundValue).getD 0
  let proofHashCounter :=
    if oldRoot ≠ 0 then
      min d.siblingsSize d.path.length + if foundValue ≠ 0 then 2 else 0
    else 0
  let st ← smt.setBranch ctx key value d oldRoot proofHashCounter
  let proofHashCounterIncrement := if st.mode = .zeroToZero then 0 else 1
  let (newRoot, siblings) ← smt.rebuild ctx st.path st.newRoot
  return {
    oldRoot, newRoot, key, siblings
    insKey := st.insKey, insValue := st.insValue, isOld0 := st.isOld0
    oldValue := st.oldValue, newValue := value, mode := st.mode
    proofHashCounter := st.proofHashCounter + proofHashCounterIncrement * st.path.length
    siblingLeftChild := st.siblingLeftChild, siblingRightChild := st.siblingRightChild }

theorem set_eq (ctx : SmtContext) (oldRoot key : Fea) (value : ℕ) :
    smt.set ctx oldRoot key value = Smt.openState ctx oldRoot >>= fun _ =>
      setBody smt ctx oldRoot key value >>= fun r => Smt.closeState ctx oldRoot r.newRoot >>= fun _ => pure r := by
  simp only [Smt.set, setBody, Prog.bind_assoc]
  rfl

theorem agrees_setBody (hp : keep → p.isStored = true) (hctx : ctx'.bUseStateManager = false) (oldRoot key : Fea)
    (value : ℕ) :
    Agrees keep block tx p (setBody smt ctx oldRoot key value) (setBody smt ctx' oldRoot key value) := by
  refine (agree_descend smt agrees_readNode _ _ _).bind fun d => (agrees_setBranch smt hp hctx _ _ _ _ _).bind fun st => ?_
  exact (agrees_rebuild smt hp hctx _ _).bind fun _ => agree_pure _

/-- A call of `set` begins. -/
theorem Mirrors.openState {st : Option BatchState × NodeTable} {t : NodeTable} (h : Mirrors keep st t)
    (block tx : ℕ) (p q : Persistence) (oldRoot : Fea) :
    ∃ st', Runs (smtHandler block tx p) (Smt.openState ⟨true, q⟩ oldRoot) st () st' ∧
      MirrorsBusy keep block tx p st' t := by
  obtain ⟨s, db⟩ := st
  cases s with
  | none =>
    obtain ⟨b, ps, hset, hbusy, hsame⟩ := BatchState.idle_new.setOld block tx oldRoot p
    refine ⟨(some b, db), runs_call_iff.mpr ?_, ⟨b, ps, rfl, hbusy, fun _ r => ?_⟩, ?_⟩
    · show ((setStateRoot none block tx oldRoot true p).1, ((setStateRoot none block tx oldRoot true p).2, db)) = _
      have hnone : setStateRoot none block tx oldRoot true p = (.ok (), some b) := hset
      rw [hnone]
    · rw [hsame.keeps, hsame.nodes]
      refine iff_of_false ?_ List.not_mem_nil
      rintro ⟨_, _, _, _, _, hps, _⟩
      cases hps
    · show SameRows t (b.dbWriteNodes ++ db)
      rw [hsame.nodes]
      exact h.same
  | some b =>
    obtain ⟨b', ps, hset, hbusy, hsame⟩ := (h.idle b rfl).setOld block tx oldRoot p
    refine ⟨(some b', db), runs_call_iff.mpr ?_, ⟨b', ps, rfl, hbusy, fun hk r => ?_⟩, ?_⟩
    · show ((setStateRoot (some b) block tx oldRoot true p).1,
        ((setStateRoot (some b) block tx oldRoot true p).2, db)) = _
      have hsome : setStateRoot (some b) block tx oldRoot true p = (.ok (), some b') := hset
      rw [hsome]
    · rw [hsame.keeps, hsame.nodes, h.kept hk b rfl]
    · show SameRows t (b'.dbWriteNodes ++ db)
      rw [hsame.nodes]
      exact h.same

/-- A call of `set` ends. -/
theorem MirrorsBusy.closeState {st : Option BatchState × NodeTable} {t : NodeTable}
    (h : MirrorsBusy keep block tx p st t) (q : Persistence) (oldRoot newRoot : Fea) :
    ∃ st', Runs (smtHandler block tx p) (Smt.closeState ⟨true, q⟩ oldRoot newRoot) st () st' ∧ Mirrors keep st' t := by
  obtain ⟨s, db⟩ := st
  obtain ⟨⟨b, ps, hs, hbusy, hkept⟩, hsame⟩ := h
  obtain rfl : s = some b := hs
  obtain ⟨b', hset, hidle, hsame'⟩ := hbusy.setNew newRoot
  refine ⟨(some b', db), runs_call_iff.mpr ?_, fun b'' hb'' => ?_, ?_, fun hk b'' hb'' r => ?_⟩
  · show ((setStateRoot (some b) block tx newRoot false p).1,
      ((setStateRoot (some b) block tx newRoot false p).2, db)) = _
    have hsome : setStateRoot (some b) block tx newRoot false p = (.ok (), some b') := hset
    rw [hsome]
  · obtain rfl := Option.some.inj hb''
    exact hidle
  · show SameRows t (b'.dbWriteNodes ++ db)
    rw [hsame'.nodes]
    exact hsame
  · obtain rfl := Option.some.inj hb''
    rw [hsame'.keeps, hsame'.nodes, hkept hk]

theorem runs_closeState_db (q : Persistence) (oldRoot newRoot : Fea) (t : NodeTable) :
    Runs dbHandler (Smt.closeState ⟨false, q⟩ oldRoot newRoot) t () t := by
  unfold Smt.closeState
  rw [if_neg Bool.false_ne_true]
  split
  · exact runs_call_iff.mpr rfl
  · exact Runs.pure ()

/-- `Smt::set` returns the same over the state manager as over the database, and leaves the same rows. -/
theorem Mirrors.set {st : Option BatchState × NodeTable} {t : NodeTable} (h : Mirrors keep st t)
    (hp : keep → p.isStored = true) (block tx : ℕ) (oldRoot key : Fea) (value : ℕ) :
    (run (smtHandler block tx p) (smt.set ⟨true, p⟩ oldRoot key value) st).1 =
        (run dbHandler (smt.set ⟨false, p⟩ oldRoot key value) t).1 ∧
      ∀ r, (run (smtHandler block tx p) (smt.set ⟨true, p⟩ oldRoot key value) st).1 = .ok r →
        Mirrors keep (run (smtHandler block tx p) (smt.set ⟨true, p⟩ oldRoot key value) st).2
          (run dbHandler (smt.set ⟨false, p⟩ oldRoot key value) t).2 := by
  obtain ⟨st₁, hopen, h₁⟩ := h.openState block tx p p oldRoot
  have hopen' : Runs dbHandler (Smt.openState ⟨false, p⟩ oldRoot) t () t := Runs.pure ()
  have hbody : Agrees keep block tx p (setBody smt ⟨true, p⟩ oldRoot key value) (setBody smt ⟨false, p⟩ oldRoot key value) :=
    agrees_setBody smt hp rfl oldRoot key value
  obtain ⟨hres, h₂⟩ := hbody st₁ t h₁
  rw [set_eq, set_eq, run_bind, hopen, run_bind, hopen']
  dsimp only
  rw [run_bind, run_bind]
  rcases hs : run (smtHandler block tx p) (setBody smt ⟨true, p⟩ oldRoot key value) st₁ with ⟨e | r, st₂⟩
  · rw [hs] at hres
    rcases ht : run dbHandler (setBody smt ⟨false, p⟩ oldRoot key value) t with ⟨e' | r', t₂⟩
    · rw [ht] at hres
      exact ⟨congrArg Except.error (Except.error.inj hres), fun r hr => (by cases hr)⟩
    · rw [ht] at hres
      cases hres
  · rw [hs] at hres h₂
    rcases ht : run dbHandler (setBody smt ⟨false, p⟩ oldRoot key value) t with ⟨e' | r', t₂⟩
    · rw [ht] at hres
      cases hres
    · rw [ht] at hres h₂
      obtain rfl := Except.ok.inj hres
      obtain ⟨st₃, hclose, h₃⟩ := h₂.closeState p oldRoot r.newRoot
      dsimp only
      rw [run_bind, run_bind, hclose, runs_closeState_db p oldRoot r.newRoot t₂]
      exact ⟨rfl, fun _ _ => h₃⟩

/-- `Smt::get` returns the same over the state manager as over the database. -/
theorem agree_get (block tx : ℕ) (p : Persistence) (root key : Fea) :
    Agree (smtHandler block tx p) dbHandler (Mirrors keep) (smt.get root key) (smt.get root key) :=
  (agree_descend smt (agree_readNode fun _ _ h => h.same) _ _ _).bind fun _ => agree_pure _

end Programs

/-! ## Transactions and blocks -/

section Blocks

variable {s : Option BatchState} {b b' : BatchState} {db t : NodeTable} {purge : Bool}

/-- A change of the batch that keeps its nodes. -/
theorem Mirrors.of_sameNodes (h : Mirrors keep (some b, db) t) (hidle : b'.Idle)
    (hnodes : b'.dbWriteNodes = b.dbWriteNodes) (hkeeps : keep → ∀ r, b'.Keeps r ↔ b.Keeps r) :
    Mirrors keep (some b', db) t where
  idle b'' hb'' := Option.some.inj hb'' ▸ hidle
  same := by
    show SameRows t (b'.dbWriteNodes ++ db)
    rw [hnodes]
    exact h.same
  kept hk b'' hb'' r := by
    obtain rfl := Option.some.inj hb''
    rw [hkeeps hk, hnodes, h.kept hk b rfl]

theorem Mirrors.of_extends (h : Mirrors keep (some b, db) t) (hext : b.Extends b') : Mirrors keep (some b', db) t :=
  h.of_sameNodes (hext.idle (h.idle b rfl)) hext.nodes fun _ => hext.keeps_congr

theorem Mirrors.empty (h : Mirrors keep (none, db) t) : Mirrors keep (some {}, db) t where
  idle b hb := Option.some.inj hb ▸ BatchState.idle_new
  same := h.same
  kept hk b hb r := by
    obtain rfl := Option.some.inj hb
    refine iff_of_false ?_ List.not_mem_nil
    rintro ⟨_, _, _, _, _, hps, _⟩
    cases hps

theorem Mirrors.finishTx (h : Mirrors keep (s, db) t) (hpurge : keep → purge = false) (stateRoot : Fea)
    (p : Persistence) : Mirrors keep ((finishTx s purge stateRoot p).2, db) t := by
  unfold StateManager.finishTx
  cases s with
  | none => exact h
  | some b =>
    dsimp only
    cases hcurrent : current b with
    | none => exact h
    | some c =>
      refine h.of_sameNodes ((h.idle b rfl).modifyPersistence fun ps hps => hps.finish purge stateRoot) rfl
        fun hk r => ?_
      obtain ⟨bl, hbl, hc⟩ := Option.bind_eq_some_iff.mp hcurrent
      obtain ⟨tx, htx, rfl⟩ := Option.map_eq_some_iff.mp hc
      have hps : b.getPersistence b.currentBlock bl.currentTx p = some (tx.persistence p) := by
        unfold BatchState.getPersistence
        rw [hbl, Option.bind_some, htx]
        rfl
      rw [hpurge hk]
      exact (BatchState.sameNodes_modifyPersistence hps (by rw [TxPersistenceState.finish_false])).keeps r

theorem Mirrors.startBlock (h : Mirrors keep (s, db) t) (stateRoot : Fea) (p : Persistence) :
    Mirrors keep ((startBlock s stateRoot p).2, db) t := by
  have hb : Mirrors keep (some (s.getD {}), db) t := by
    cases s with
    | none => exact h.empty
    | some b => exact h
  unfold StateManager.startBlock
  dsimp only
  split
  · exact hb
  · refine hb.of_extends (BatchState.extends_of_append rfl rfl fun bl hbl => ?_)
    rw [List.mem_singleton.mp hbl]

theorem idle_finishBlock (h : b.Idle) {block : ℕ} {stateRoot : Fea} {ps : TxPersistenceState} :
    (b.modifyBlock block fun bl => bl.finish purge stateRoot p ps).Idle := by
  have htake (bl : BlockState) : ∃ n, (bl.finish purge stateRoot p ps).txState = bl.txState.take n := by
    unfold BlockState.finish
    split
    · exact ⟨_, (List.take_length).symm⟩
    · split
      · split
        · exact ⟨0, rfl⟩
        · exact ⟨_, (List.take_length).symm⟩
      · split
        · split
          · exact ⟨_, rfl⟩
          · exact ⟨_, (List.take_length).symm⟩
        · exact ⟨_, (List.take_length).symm⟩
  intro block' tx' p' ps' hps'
  refine h block' tx' p' ps' ?_
  unfold BatchState.getPersistence BatchState.modifyBlock at hps'
  unfold BatchState.getPersistence
  obtain ⟨t, ht, rfl⟩ := Option.map_eq_some_iff.mp hps'
  obtain ⟨bl', hbl', ht⟩ := Option.bind_eq_some_iff.mp ht
  rw [List.getElem?_modify, Option.map_eq_map] at hbl'
  obtain ⟨bl, hbl, hbl'⟩ := Option.map_eq_some_iff.mp hbl'
  rw [hbl, Option.bind_some]
  split at hbl'
  · obtain ⟨n, hn⟩ := htake bl
    rw [← hbl', hn, List.getElem?_take] at ht
    split at ht
    · rw [ht]
      rfl
    · cases ht
  · rw [← hbl'] at ht
    rw [ht]
    rfl

theorem Mirrors.finishBlock (h : Mirrors keep (s, db) t) (hpurge : keep → purge = false) (stateRoot : Fea)
    (p : Persistence) : Mirrors keep ((finishBlock s purge stateRoot p).2, db) t := by
  unfold StateManager.finishBlock
  cases s with
  | none => exact h
  | some b =>
    dsimp only
    cases hcurrent : current b with
    | none => exact h
    | some c =>
      refine h.of_sameNodes (idle_finishBlock (h.idle b rfl)) rfl fun hk r => ?_
      refine (BatchState.extends_modifyBlock fun bl => ⟨0, ?_⟩).keeps_congr r
      rw [hpurge hk, List.replicate_zero, List.append_nil]
      unfold BlockState.finish
      split
      · rfl
      · split
        · rfl
        · rfl

end Blocks

end StateManager

end ZkevmProver
