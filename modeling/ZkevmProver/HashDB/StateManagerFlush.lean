import ZkevmProver.HashDB.StateManager

/-!
# What a flush of the state manager does

Before it writes anything of a transaction, `flush` walks back over its sub-states, from the current one to
one that starts at the old state root.

  1. What all transactions of a batch keep.
  2. Indices of sub-states.
  3. One step back.
  4. The walk.
  5. The transactions of a run.
-/

namespace ZkevmProver

open Effects

/-! ## What all transactions of a batch keep -/

theorem forall_mem_modify {α : Type} {P : α → Prop} {l : List α} {i : ℕ} {f : α → α}
    (h : ∀ x ∈ l, P x) (hf : ∀ x ∈ l, P (f x)) : ∀ x ∈ l.modify i f, P x := by
  intro x hx
  obtain ⟨j, hj⟩ := List.mem_iff_getElem?.mp hx
  rw [List.getElem?_modify] at hj
  cases hy : l[j]? with
  | none => rw [hy] at hj; cases hj
  | some y =>
    rw [hy] at hj
    have hmem := List.mem_of_getElem? hy
    obtain rfl := Option.some.inj hj
    split
    · exact hf y hmem
    · exact h y hmem

theorem forall_mem_extend {α : Type} {P : α → Prop} {l : List α} {n : ℕ} {a : α} (h : ∀ x ∈ l, P x)
    (ha : P a) : ∀ x ∈ l ++ List.replicate n a, P x := by
  intro x hx
  rcases List.mem_append.mp hx with hx | hx
  · exact h x hx
  · rw [List.eq_of_mem_replicate hx]
    exact ha

section All

variable (P : TxPersistenceState → Prop)

def TxState.All (t : TxState) : Prop := ∀ p, P (t.persistence p)

def BlockState.All (bl : BlockState) : Prop := ∀ t ∈ bl.txState, t.All P

def BatchState.All (b : BatchState) : Prop := ∀ bl ∈ b.blockState, bl.All P

/-- The functions of the state manager keep a property of what they know of a transaction. -/
structure IsKept : Prop where
  empty : ∀ root, P { oldStateRoot := root }
  setOld : ∀ ps root ps', P ps → ps.setOld root = some ps' → P ps'
  setNew : ∀ ps root ps', P ps → ps.setNew root = some ps' → P ps'
  start : ∀ ps root, P ps → ps.subState = [] → P { ps with
    subState := [{ oldStateRoot := root, newStateRoot := none, previousSubState := 0, bValid := false
                   dbWriteNodes := [], dbDeleteNodes := [] }]
    currentSubState := 0 }
  write : ∀ ps (nodes : TxSubState → NodeTable), P ps → P (ps.modifyCurrent fun ss => { ss with dbWriteNodes := nodes ss })
  delete : ∀ ps (keys : TxSubState → List Fea), P ps → P (ps.modifyCurrent fun ss => { ss with dbDeleteNodes := keys ss })
  program : ∀ ps programs, P ps → P { ps with dbWritePrograms := programs }
  finish : ∀ ps purge root, P ps → P (ps.finish purge root)

end All

variable {P : TxPersistenceState → Prop} {purge : Bool} {s : Option BatchState} {b : BatchState}
  {bl : BlockState} {t : TxState} {p : Persistence}

theorem TxState.persistence_modify (t : TxState) (p q : Persistence)
    (f : TxPersistenceState → TxPersistenceState) :
    (t.modify p f).persistence q = if q = p then f (t.persistence p) else t.persistence q := by
  exact Function.update_apply _ _ _ _

theorem TxState.All.modify (h : t.All P) {f : TxPersistenceState → TxPersistenceState}
    (hf : P (t.persistence p) → P (f (t.persistence p))) : (t.modify p f).All P := by
  intro q
  rw [TxState.persistence_modify]
  split
  · exact hf (h p)
  · exact h q

namespace BatchState

variable {block tx : ℕ}

theorem All.modifyBlock (h : b.All P) {f : BlockState → BlockState}
    (hf : ∀ bl, bl.All P → (f bl).All P) : (b.modifyBlock block f).All P :=
  forall_mem_modify h fun bl hbl => hf bl (h bl hbl)

theorem All.modifyPersistence (h : b.All P) {f : TxPersistenceState → TxPersistenceState}
    (hf : ∀ ps, P ps → P (f ps)) : (b.modifyPersistence block tx p f).All P :=
  h.modifyBlock fun _ hbl => forall_mem_modify hbl fun t ht => (hbl t ht).modify (hf _)

theorem all_new : ({} : BatchState).All P := fun _ hbl => absurd hbl List.not_mem_nil

/-- What is read from a batch can be written to it after a change. -/
theorem All.getPersistence (h : b.All P) {ps : TxPersistenceState}
    (hps : b.getPersistence block tx p = some ps) : P ps := by
  unfold BatchState.getPersistence at hps
  obtain ⟨t, ht, rfl⟩ := Option.map_eq_some_iff.mp hps
  obtain ⟨bl, hbl, ht⟩ := Option.bind_eq_some_iff.mp ht
  exact h bl (List.mem_of_getElem? hbl) t (List.mem_of_getElem? ht) p

theorem All.ensureBlock (h : b.All P) : (b.ensureBlock block).All P := by
  unfold BatchState.ensureBlock
  split
  · exact forall_mem_extend h fun t ht => absurd ht List.not_mem_nil
  · exact h

theorem All.ensureTx (h : b.All P) (hP : IsKept P) : (b.ensureTx block tx).All P := by
  refine h.modifyBlock fun bl hbl => ?_
  split
  · exact forall_mem_extend hbl fun p => hP.empty none
  · exact hbl

theorem All.recordRoot (h : b.All P) (stateRoot : Fea) (bIsOldStateRoot : Bool) :
    (b.recordRoot block stateRoot bIsOldStateRoot p).All P := by
  unfold BatchState.recordRoot
  refine BatchState.All.modifyBlock (All.ensureBlock ?_) fun bl hbl => ?_
  · show BatchState.All P _
    split
    · exact h
    · exact h
  · dsimp only
    split
    · split
      · exact hbl
      · exact hbl
    · split
      · exact hbl
      · exact hbl

theorem All.addTx (h : b.All P) (hP : IsKept P) {root : Option Fea} :
    (if tx = bl.txState.length then
      b.modifyBlock block fun bl => { bl with
        txState := bl.txState ++ [({} : TxState).modify p fun ps => { ps with oldStateRoot := root }] }
    else b).All P := by
  split
  · refine h.modifyBlock fun bl hbl t ht => ?_
    rcases List.mem_append.mp ht with ht | ht
    · exact hbl t ht
    · rw [List.mem_singleton.mp ht]
      exact TxState.All.modify (fun _ => hP.empty none) fun _ => hP.empty root
  · exact h

theorem All.setStateRoot (h : b.All P) (hP : IsKept P) (stateRoot : Fea) (bIsOldStateRoot : Bool) :
    ∀ b', (b.setStateRoot block tx stateRoot bIsOldStateRoot p).2 = some b' → b'.All P := by
  intro b' hb'
  have hrec : (b.recordRoot block stateRoot bIsOldStateRoot p).All P := h.recordRoot _ _
  unfold BatchState.setStateRoot at hb'
  dsimp only at hb'
  split at hb'
  · obtain rfl := Option.some.inj hb'
    exact hrec
  · have htx : ((b.recordRoot block stateRoot bIsOldStateRoot p).ensureTx block tx).All P := hrec.ensureTx hP
    have hget : P (((((b.recordRoot block stateRoot bIsOldStateRoot p).ensureTx block tx).getPersistence
        block tx p)).getD {}) := by
      cases hps : (((b.recordRoot block stateRoot bIsOldStateRoot p).ensureTx block tx).getPersistence
          block tx p) with
      | none => exact hP.empty none
      | some ps => exact htx.getPersistence hps
    split at hb'
    · obtain rfl := Option.some.inj hb'
      exact htx
    · rename_i ps' hps'
      obtain rfl := Option.some.inj hb'
      refine htx.modifyPersistence fun _ _ => ?_
      split at hps'
      · exact hP.setOld _ _ _ hget hps'
      · exact hP.setNew _ _ _ hget hps'

end BatchState

namespace StateManager

variable {block tx : ℕ}

theorem all_writeNode (hs : ∀ b, s = some b → b.All P) (hP : IsKept P) (key : Fea) (value : Node) :
    ∀ b, (writeNode s block tx key value p).2 = some b → b.All P := by
  intro b' hb'
  cases s with
  | none => cases hb'
  | some b =>
    have h := hs b rfl
    unfold writeNode at hb'
    dsimp only at hb'
    split at hb'
    · exact hs b' hb'
    · split at hb'
      · exact hs b' hb'
      · obtain rfl := Option.some.inj hb'
        refine BatchState.All.modifyPersistence (h.addTx hP) fun ps hps => hP.write _ _ ?_
        split
        · rename_i hlen
          exact hP.start ps _ hps (List.length_eq_zero_iff.mp hlen)
        · exact hps

theorem all_deleteNode (hs : ∀ b, s = some b → b.All P) (hP : IsKept P) (key : Fea) :
    ∀ b, (deleteNode s block tx key p).2 = some b → b.All P := by
  intro b' hb'
  cases s with
  | none => cases hb'
  | some b =>
    have h := hs b rfl
    unfold deleteNode at hb'
    dsimp only at hb'
    split at hb'
    · exact hs b' hb'
    · split at hb'
      · exact hs b' hb'
      · obtain rfl := Option.some.inj hb'
        exact h.modifyPersistence fun ps hps => hP.delete ps _ hps

theorem all_writeProgram (hs : ∀ b, s = some b → b.All P) (hP : IsKept P) (key : Fea)
    (value : List UInt8) : ∀ b, (writeProgram s block tx key value p).2 = some b → b.All P := by
  intro b' hb'
  have h : (s.getD {}).All P := by
    cases s with
    | none => exact BatchState.all_new
    | some b => exact hs b rfl
  unfold writeProgram at hb'
  dsimp only at hb'
  split at hb'
  · obtain rfl := Option.some.inj hb'
    exact h
  · split at hb'
    · obtain rfl := Option.some.inj hb'
      exact h
    · split at hb'
      · obtain rfl := Option.some.inj hb'
        exact h
      · obtain rfl := Option.some.inj hb'
        exact BatchState.All.modifyPersistence (h.addTx hP) fun ps hps => hP.program ps _ hps

theorem all_finishTx (hs : ∀ b, s = some b → b.All P) (hP : IsKept P) (stateRoot : Fea) :
    ∀ b, (finishTx s purge stateRoot p).2 = some b → b.All P := by
  intro b' hb'
  cases s with
  | none => cases hb'
  | some b =>
    have h := hs b rfl
    unfold finishTx at hb'
    dsimp only at hb'
    split at hb'
    · exact hs b' hb'
    · obtain rfl := Option.some.inj hb'
      exact h.modifyPersistence fun ps hps => hP.finish ps purge stateRoot hps

theorem all_startBlock (hs : ∀ b, s = some b → b.All P) (stateRoot : Fea) :
    ∀ b, (startBlock s stateRoot p).2 = some b → b.All P := by
  intro b' hb'
  have h : (s.getD {}).All P := by
    cases s with
    | none => exact BatchState.all_new
    | some b => exact hs b rfl
  unfold startBlock at hb'
  dsimp only at hb'
  split at hb'
  · obtain rfl := Option.some.inj hb'
    exact h
  · obtain rfl := Option.some.inj hb'
    intro bl hbl
    rcases List.mem_append.mp hbl with hbl | hbl
    · exact h bl hbl
    · rw [List.mem_singleton.mp hbl]
      exact fun t ht => absurd ht List.not_mem_nil

theorem all_finishBlock (hs : ∀ b, s = some b → b.All P) (stateRoot : Fea) :
    ∀ b, (finishBlock s purge stateRoot p).2 = some b → b.All P := by
  intro b' hb'
  cases s with
  | none => cases hb'
  | some b =>
    have h := hs b rfl
    unfold finishBlock at hb'
    dsimp only at hb'
    split at hb'
    · exact hs b' hb'
    · obtain rfl := Option.some.inj hb'
      refine h.modifyBlock fun bl hbl t ht => ?_
      refine hbl t ?_
      unfold BlockState.finish at ht
      split at ht
      · exact ht
      · split at ht
        · split at ht
          · exact absurd ht List.not_mem_nil
          · exact ht
        · split at ht
          · split at ht
            · exact List.mem_of_mem_take ht
            · exact ht
          · exact ht

theorem all_setStateRoot (hs : ∀ b, s = some b → b.All P) (hP : IsKept P) (stateRoot : Fea)
    (bIsOldStateRoot : Bool) :
    ∀ b, (setStateRoot s block tx stateRoot bIsOldStateRoot p).2 = some b → b.All P := by
  intro b' hb'
  cases s with
  | none =>
    unfold setStateRoot at hb'
    dsimp only at hb'
    split at hb'
    · cases hb'
    · exact BatchState.all_new.setStateRoot hP _ _ b' hb'
  | some b => exact (hs b rfl).setStateRoot hP _ _ b' hb'

/-- Calls other than `flush`. -/
def Call.IsFlush : Call → Prop
  | .flush _ _ _ => True
  | _ => False

theorem all_step (hs : ∀ b, s = some b → b.All P) (hP : IsKept P) {c : Call} (hc : ¬c.IsFlush) :
    ∀ b, step purge s c = some b → b.All P := by
  cases c with
  | setStateRoot block tx stateRoot bIsOldStateRoot p => exact all_setStateRoot hs hP stateRoot bIsOldStateRoot
  | writeNode block tx key value p => exact all_writeNode hs hP key value
  | deleteNode block tx key p => exact all_deleteNode hs hP key
  | writeProgram block tx key value p => exact all_writeProgram hs hP key value
  | finishTx stateRoot p => exact all_finishTx hs hP stateRoot
  | startBlock stateRoot p => exact all_startBlock hs stateRoot
  | finishBlock stateRoot p => exact all_finishBlock hs stateRoot
  | flush newStateRoot p fails => exact absurd trivial hc
  | cancelBatch =>
    intro b' hb'
    cases s with
    | none => cases hb'
    | some b => cases hb'

/-- What holds of new transactions, and is kept by the functions, holds after any calls that do not
flush. -/
theorem all_after (hP : IsKept P) {calls : List Call} (hcalls : ∀ c ∈ calls, ¬c.IsFlush) :
    ∀ b, after purge calls = some b → b.All P := by
  induction calls using List.reverseRecOn with
  | nil =>
    intro b hb
    cases hb
  | append_singleton calls c ih =>
    unfold after
    rw [List.foldl_append]
    exact all_step (ih fun c' hc' => hcalls c' (List.mem_append_left _ hc')) hP
      (hcalls c (List.mem_append_right _ (List.mem_singleton_self c)))

end StateManager

/-! ## Indices of sub-states -/

namespace TxPersistenceState

variable {ps ps' : TxPersistenceState} {cur i : ℕ} {ss : TxSubState} {root : Fea}

/-- The indices of the sub-states are right. -/
structure Indexed (ps : TxPersistenceState) : Prop where
  current : ps.subState = [] ∧ ps.currentSubState = 0 ∨ ps.currentSubState < ps.subState.length
  previous : ∀ i ss, ps.subState[i]? = some ss → i = 0 ∨ ss.previousSubState < i

theorem Indexed.current_lt (h : ps.Indexed) (hne : ps.subState ≠ []) :
    ps.currentSubState < ps.subState.length := by
  rcases h.current with ⟨hnil, _⟩ | h
  · exact absurd hnil hne
  · exact h

theorem indexed_nil (h : ps.subState = []) (hcur : ps.currentSubState = 0) : ps.Indexed where
  current := .inl ⟨h, hcur⟩
  previous i ss hi := by
    rw [h] at hi
    cases hi

theorem Indexed.modify (h : ps.Indexed) {f : TxSubState → TxSubState}
    (hf : ∀ ss, (f ss).previousSubState = ss.previousSubState) (i : ℕ) :
    ({ ps with subState := ps.subState.modify i f } : TxPersistenceState).Indexed where
  current := by
    rcases h.current with ⟨hnil, hcur⟩ | hcur
    · exact .inl ⟨by rw [hnil, List.modify_nil], hcur⟩
    · exact .inr (by rw [List.length_modify]; exact hcur)
  previous j ss hj := by
    rw [List.getElem?_modify] at hj
    cases hs : ps.subState[j]? with
    | none => rw [hs] at hj; cases hj
    | some s =>
      rw [hs] at hj
      obtain rfl := Option.some.inj hj
      have hprev := h.previous j s hs
      split
      · rw [hf]
        exact hprev
      · exact hprev

theorem Indexed.push (h : ps.Indexed) (hcur : ps.subState = [] ∨ ps.currentSubState < ps.subState.length) :
    (ps.pushSubState root).Indexed where
  current := .inr (by simp [pushSubState])
  previous i ss hi := by
    unfold pushSubState at hi
    rcases Nat.lt_trichotomy i ps.subState.length with hlt | rfl | hgt
    · rw [List.getElem?_append_left hlt] at hi
      exact h.previous i ss hi
    · rw [List.getElem?_append_right le_rfl, Nat.sub_self] at hi
      obtain rfl := Option.some.inj hi
      rcases hcur with hnil | hcur
      · exact .inl (by rw [hnil]; rfl)
      · exact .inr hcur
    · rw [List.getElem?_eq_none (by simp; omega)] at hi
      cases hi

theorem Indexed.take (h : ps.Indexed) (newStateRoot : Option Fea) (hi : i < ps.subState.length) :
    ({ ps with newStateRoot, currentSubState := i - 1, subState := ps.subState.take i } :
      TxPersistenceState).Indexed where
  current := by
    rcases Nat.eq_zero_or_pos i with rfl | hpos
    · exact .inl ⟨rfl, rfl⟩
    · exact .inr (by rw [List.length_take]; show i - 1 < min i _; omega)
  previous j ss hj := by
    have hlt := (List.getElem?_eq_some_iff.mp hj).1
    rw [List.getElem?_take_of_lt (by rw [List.length_take] at hlt; omega)] at hj
    exact h.previous j ss hj

theorem Indexed.setOld (h : ps.Indexed) (hps : ps.setOld root = some ps') : ps'.Indexed := by
  unfold TxPersistenceState.setOld at hps
  split at hps
  · rename_i hlast
    split at hps
    · cases hps
    · obtain rfl := Option.some.inj hps
      exact Indexed.push ⟨h.current, h.previous⟩ (.inl (List.getLast?_eq_none_iff.mp hlast))
  · split at hps
    · cases hps
    · rename_i hcur
      split at hps
      · cases hps
      · obtain rfl := Option.some.inj hps
        exact h.push (.inr (Nat.lt_of_not_le hcur))

theorem Indexed.setNew (h : ps.Indexed) (hps : ps.setNew root = some ps') : ps'.Indexed := by
  unfold TxPersistenceState.setNew at hps
  split at hps
  · cases hps
  · split at hps
    · cases hps
    · obtain rfl := Option.some.inj hps
      have hmod := h.modify (f := fun s => { s with newStateRoot := some root }) (fun _ => rfl)
        ps.currentSubState
      exact ⟨hmod.current, hmod.previous⟩

theorem Indexed.finish (h : ps.Indexed) (purge : Bool) (root : Fea) : (ps.finish purge root).Indexed := by
  unfold TxPersistenceState.finish
  split
  · exact h
  · split
    · split
      · exact indexed_nil rfl rfl
      · exact h
    · split
      · split
        · rename_i i hi
          exact h.take _ (List.findIdx?_eq_some_iff_findIdx_eq.mp hi).1
        · exact h
      · exact h

theorem isKept_indexed : IsKept Indexed where
  empty _ := indexed_nil rfl rfl
  setOld _ _ _ h := h.setOld
  setNew _ _ _ h := h.setNew
  start ps root _ _ := ⟨.inr Nat.zero_lt_one, fun i ss hi => by
    have hlt := (List.getElem?_eq_some_iff.mp hi).1
    exact .inl (Nat.lt_one_iff.mp hlt)⟩
  write ps nodes h := h.modify (f := fun ss => { ss with dbWriteNodes := nodes ss }) (fun _ => rfl) _
  delete ps keys h := h.modify (f := fun ss => { ss with dbDeleteNodes := keys ss }) (fun _ => rfl) _
  program _ _ h := ⟨h.current, h.previous⟩
  finish _ purge root h := h.finish purge root

/-! ## One step back -/

/-- What the walk reads of a sub-state, and its nodes. -/
def links (ps : TxPersistenceState) : List (Option Fea × Option Fea × ℕ × NodeTable) :=
  ps.subState.map fun ss => (ss.oldStateRoot, ss.newStateRoot, ss.previousSubState, ss.dbWriteNodes)

/-- Two states that differ in the marks at most. -/
structure SameLinks (ps ps' : TxPersistenceState) : Prop where
  oldStateRoot : ps'.oldStateRoot = ps.oldStateRoot
  newStateRoot : ps'.newStateRoot = ps.newStateRoot
  currentSubState : ps'.currentSubState = ps.currentSubState
  links : ps'.links = ps.links

theorem SameLinks.trans {ps'' : TxPersistenceState} (h : SameLinks ps ps') (h' : SameLinks ps' ps'') :
    SameLinks ps ps'' :=
  ⟨h'.oldStateRoot.trans h.oldStateRoot, h'.newStateRoot.trans h.newStateRoot,
    h'.currentSubState.trans h.currentSubState, h'.links.trans h.links⟩

theorem sameLinks_markValid (ps : TxPersistenceState) (i : ℕ) : SameLinks ps (ps.markValid i) where
  oldStateRoot := rfl
  newStateRoot := rfl
  currentSubState := rfl
  links := by
    refine List.ext_getElem? fun j => ?_
    unfold TxPersistenceState.links markValid
    rw [List.getElem?_map, List.getElem?_map, List.getElem?_modify]
    cases ps.subState[j]? with
    | none => rfl
    | some ss => by_cases hij : i = j <;> simp [hij]

theorem SameLinks.getElem? (h : SameLinks ps ps') {ss : TxSubState} (hi : ps.subState[i]? = some ss) :
    ∃ ss', ps'.subState[i]? = some ss' ∧ ss'.oldStateRoot = ss.oldStateRoot ∧
      ss'.newStateRoot = ss.newStateRoot ∧ ss'.previousSubState = ss.previousSubState := by
  have hmap : ps'.links[i]? = ps.links[i]? := by rw [h.links]
  unfold TxPersistenceState.links at hmap
  rw [List.getElem?_map, List.getElem?_map, hi] at hmap
  obtain ⟨ss', hss', heq⟩ := Option.map_eq_some_iff.mp hmap
  exact ⟨ss', hss', congrArg Prod.fst heq, congrArg (·.2.1) heq, congrArg (·.2.2.1) heq⟩

theorem SameLinks.length_eq (h : SameLinks ps ps') : ps'.subState.length = ps.subState.length := by
  have hlen := congrArg List.length h.links
  unfold TxPersistenceState.links at hlen
  rwa [List.length_map, List.length_map] at hlen

theorem SameLinks.findIdx? (h : SameLinks ps ps') (cur : ℕ) (root : Option Fea) :
    (ps'.subState.take cur).findIdx? (fun ss => ss.newStateRoot = root) =
      (ps.subState.take cur).findIdx? (fun ss => ss.newStateRoot = root) := by
  have hmap (ps : TxPersistenceState) :
      (ps.subState.take cur).findIdx? (fun ss => decide (ss.newStateRoot = root)) =
        (ps.links.take cur).findIdx? fun l => decide (l.2.1 = root) := by
    unfold TxPersistenceState.links
    rw [← List.map_take, List.findIdx?_map]
    rfl
  rw [hmap, hmap, h.links]

theorem SameLinks.stepBack (h : SameLinks ps ps') (cur : ℕ) : ps'.stepBack cur = ps.stepBack cur := by
  unfold TxPersistenceState.stepBack
  have hnone {i : ℕ} (hi : ps.subState[i]? = none) : ps'.subState[i]? = none := by
    rw [List.getElem?_eq_none_iff] at hi ⊢
    rwa [h.length_eq]
  cases hss : ps.subState[cur]? with
  | none => rw [hnone hss]
  | some ss =>
    obtain ⟨ss', hss', hold, _, hprev⟩ := h.getElem? hss
    rw [hss']
    simp only [hold, hprev, h.oldStateRoot, h.findIdx?]
    cases hpr : ps.subState[ss.previousSubState]? with
    | none => rw [hnone hpr]
    | some prev =>
      obtain ⟨prev', hprev', _, hnew, _⟩ := h.getElem? hpr
      rw [hprev']
      simp only [hnew]

/-- What one step back comes to: an earlier sub-state that ends where this one starts, the start of the
transaction, or an error. -/
theorem Indexed.stepBack_cases (h : ps.Indexed) {ss : TxSubState} (hcur : ps.subState[cur]? = some ss) :
    (∃ i si, i < cur ∧ ps.subState[i]? = some si ∧ si.newStateRoot = ss.oldStateRoot ∧
        ps.stepBack cur = .ok (some i)) ∨
      (ss.oldStateRoot = ps.oldStateRoot ∧ ps.stepBack cur = .ok none) ∨
      (ss.oldStateRoot ≠ ps.oldStateRoot ∧ (cur ≠ 0 → ∀ i si, i < cur → ps.subState[i]? = some si →
        si.newStateRoot ≠ ss.oldStateRoot) ∧ ps.stepBack cur = .error (.zkr .stateManager)) := by
  unfold TxPersistenceState.stepBack
  rw [hcur]
  by_cases hzero : cur = 0
  · by_cases hold : ss.oldStateRoot = ps.oldStateRoot
    · exact .inr (.inl ⟨hold, by simp [hzero, hold]⟩)
    · exact .inr (.inr ⟨hold, fun hne => absurd hzero hne, by simp [hzero, hold]⟩)
  · have hprev : ss.previousSubState < cur := (h.previous cur ss hcur).resolve_left hzero
    have hlen := (List.getElem?_eq_some_iff.mp hcur).1
    obtain ⟨prev, hpr⟩ : ∃ prev, ps.subState[ss.previousSubState]? = some prev :=
      ⟨_, List.getElem?_eq_getElem (hprev.trans hlen)⟩
    simp only [if_neg hzero, hpr]
    by_cases hnew : prev.newStateRoot = ss.oldStateRoot
    · exact .inl ⟨_, prev, hprev, hpr, hnew, if_pos hnew⟩
    · rw [if_neg hnew]
      cases hfind : (ps.subState.take cur).findIdx? fun s => decide (s.newStateRoot = ss.oldStateRoot) with
      | some i =>
        obtain ⟨hi, hroot, _⟩ := List.findIdx?_eq_some_iff_getElem.mp hfind
        rw [List.length_take] at hi
        rw [List.getElem_take] at hroot
        exact .inl ⟨i, _, by omega, List.getElem?_eq_getElem (by omega), of_decide_eq_true hroot, rfl⟩
      | none =>
        have hno : ∀ i si, i < cur → ps.subState[i]? = some si → si.newStateRoot ≠ ss.oldStateRoot := by
          intro i si hi hsi heq
          have hmem : si ∈ ps.subState.take cur :=
            List.mem_of_getElem? (by rw [List.getElem?_take_of_lt hi]; exact hsi)
          have hfalse := List.findIdx?_eq_none_iff.mp hfind si hmem
          rw [decide_eq_false_iff_not] at hfalse
          exact hfalse heq
        by_cases hold : ss.oldStateRoot = ps.oldStateRoot
        · exact .inr (.inl ⟨hold, if_pos hold⟩)
        · exact .inr (.inr ⟨hold, fun _ => hno, if_neg hold⟩)

/-! ## The walk -/

/-- The sub-states lead from a root to a root, each one from where the one before it ended. -/
def PathFrom : Option Fea → List TxSubState → Option Fea → Prop
  | root, [], root' => root = root'
  | root, ss :: rest, root' => ss.oldStateRoot = root ∧ PathFrom ss.newStateRoot rest root'

theorem PathFrom.concat {root root' : Option Fea} {l : List TxSubState} (h : PathFrom root l root')
    (hss : ss.oldStateRoot = root') : PathFrom root (l ++ [ss]) ss.newStateRoot := by
  induction l generalizing root with
  | nil => exact ⟨hss.trans h.symm, rfl⟩
  | cons s l ih => exact ⟨h.1, ih h.2⟩

/-- Every sub-state starts from the old state root of the transaction, or from where an earlier one
ended. -/
def Connected (ps : TxPersistenceState) : Prop :=
  ∀ i ss, ps.subState[i]? = some ss → ss.oldStateRoot = ps.oldStateRoot ∨
    i ≠ 0 ∧ ∃ j sj, j < i ∧ ps.subState[j]? = some sj ∧ sj.newStateRoot = ss.oldStateRoot

theorem SameLinks.indexed (hl : SameLinks ps ps') (h : ps.Indexed) : ps'.Indexed where
  current := by
    rw [hl.currentSubState, hl.length_eq]
    refine h.current.imp (fun hnil => ⟨?_, hnil.2⟩) id
    rw [← List.length_eq_zero_iff, hl.length_eq, hnil.1, List.length_nil]
  previous i ss' hi := by
    have hlt := (List.getElem?_eq_some_iff.mp hi).1
    rw [hl.length_eq] at hlt
    obtain ⟨ss'', hss'', _, _, hprev⟩ := hl.getElem? (List.getElem?_eq_getElem hlt)
    obtain rfl := Option.some.inj (hi.symm.trans hss'')
    rw [hprev]
    exact h.previous i _ (List.getElem?_eq_getElem hlt)

/-- The walk ends, and changes the marks only. -/
theorem trackBack_succ_back {i : ℕ} (h : (ps.markValid cur).stepBack cur = .ok (some i)) (fuel : ℕ) :
    trackBack (fuel + 1) ps cur = trackBack fuel (ps.markValid cur) i := by
  unfold trackBack
  dsimp only
  rw [h]
  cases fuel <;> rfl

theorem trackBack_succ_stop (h : (ps.markValid cur).stepBack cur = .ok none) (fuel : ℕ) :
    trackBack (fuel + 1) ps cur = some (.ok (), ps.markValid cur) := by
  unfold trackBack
  dsimp only
  rw [h]

theorem trackBack_succ_error {e : Fault} (h : (ps.markValid cur).stepBack cur = .error e) (fuel : ℕ) :
    trackBack (fuel + 1) ps cur = some (.error e, ps.markValid cur) := by
  unfold trackBack
  dsimp only
  rw [h]

theorem Indexed.trackBack_ends (h : ps.Indexed) (hcur : cur < ps.subState.length) :
    ∃ r ps', (∀ fuel, cur < fuel → trackBack fuel ps cur = some (r, ps')) ∧ SameLinks ps ps' ∧
      (r = .ok () ∨ r = .error (.zkr .stateManager)) := by
  induction cur using Nat.strong_induction_on generalizing ps with
  | _ cur ih =>
  have hmark := sameLinks_markValid ps cur
  have hback := hmark.stepBack cur
  rcases h.stepBack_cases (List.getElem?_eq_getElem hcur) with
    ⟨i, _, hi, _, _, hstep⟩ | ⟨_, hstep⟩ | ⟨_, _, hstep⟩
  · obtain ⟨r, ps', hends, hlinks, hr⟩ := ih i hi (hmark.indexed h) (by rw [hmark.length_eq]; omega)
    refine ⟨r, ps', fun fuel hfuel => ?_, hmark.trans hlinks, hr⟩
    obtain ⟨fuel, rfl⟩ := Nat.exists_eq_add_of_lt hfuel
    rw [trackBack_succ_back (hback.trans hstep)]
    exact hends _ (by omega)
  · refine ⟨_, _, fun fuel hfuel => ?_, hmark, .inl rfl⟩
    obtain ⟨fuel, rfl⟩ := Nat.exists_eq_add_of_lt hfuel
    exact trackBack_succ_stop (hback.trans hstep) _
  · refine ⟨_, _, fun fuel hfuel => ?_, hmark, .inr rfl⟩
    obtain ⟨fuel, rfl⟩ := Nat.exists_eq_add_of_lt hfuel
    exact trackBack_succ_error (hback.trans hstep) _

theorem getElem?_markValid_of_ne {j : ℕ} (hne : cur ≠ j) :
    (ps.markValid cur).subState[j]? = ps.subState[j]? := by
  unfold markValid
  rw [List.getElem?_modify]
  simp [hne]

/-- The marks after a sub-state is marked, in the part of a list that had none. -/
theorem filter_markValid (hclean : ∀ ss ∈ ps.subState.take (cur + 1), ss.bValid = false)
    (hcur : ps.subState[cur]? = some ss) {k : ℕ} (hk : k ≤ cur) :
    (((ps.markValid cur).subState.drop k).take (cur - k + 1)).filter TxSubState.bValid =
      [{ ss with bValid := true }] := by
  have hlast : ((ps.markValid cur).subState.drop k)[cur - k]? = some { ss with bValid := true } := by
    rw [List.getElem?_drop, (by omega : k + (cur - k) = cur)]
    simp [markValid, hcur]
  have hfirst : (((ps.markValid cur).subState.drop k).take (cur - k)).filter TxSubState.bValid = [] := by
    rw [List.filter_eq_nil_iff]
    intro s hs
    obtain ⟨j, hj⟩ := List.mem_iff_getElem?.mp hs
    have hlt := (List.getElem?_eq_some_iff.mp hj).1
    rw [List.length_take] at hlt
    rw [List.getElem?_take_of_lt (by omega), List.getElem?_drop,
      getElem?_markValid_of_ne (by omega)] at hj
    have hmem : s ∈ ps.subState.take (cur + 1) :=
      List.mem_of_getElem? (i := k + j) (by rw [List.getElem?_take_of_lt (by omega)]; exact hj)
    rw [hclean s hmem]
    decide
  rw [List.take_add_one, List.filter_append, hfirst, hlast]
  rfl

/-- What the walk marks leads from the old state root of the transaction to where the sub-state ends. -/
theorem Indexed.trackBack_path (h : ps.Indexed) (hclean : ∀ ss ∈ ps.subState.take (cur + 1), ss.bValid = false)
    (hcur : ps.subState[cur]? = some ss) {fuel : ℕ} {r : Except Fault Unit}
    (hrun : trackBack fuel ps cur = some (r, ps')) :
    ps'.subState.drop (cur + 1) = ps.subState.drop (cur + 1) ∧ (r = .ok () →
      PathFrom ps.oldStateRoot ((ps'.subState.take (cur + 1)).filter TxSubState.bValid) ss.newStateRoot) := by
  induction fuel generalizing ps cur ss with
  | zero => cases hrun
  | succ fuel ih =>
  have hmark := sameLinks_markValid ps cur
  have hdrop : (ps.markValid cur).subState.drop (cur + 1) = ps.subState.drop (cur + 1) := by
    refine List.ext_getElem? fun j => ?_
    rw [List.getElem?_drop, List.getElem?_drop, getElem?_markValid_of_ne (by omega)]
  unfold trackBack at hrun
  dsimp only at hrun
  rw [hmark.stepBack cur] at hrun
  rcases h.stepBack_cases hcur with ⟨i, si, hi, hsi, hnew, hstep⟩ | ⟨hold, hstep⟩ | ⟨_, _, hstep⟩
  · rw [hstep] at hrun
    obtain ⟨si', hsi', _, hnew', _⟩ := hmark.getElem? hsi
    have hclean' : ∀ s ∈ (ps.markValid cur).subState.take (i + 1), s.bValid = false := by
      intro s hs
      obtain ⟨j, hj⟩ := List.mem_iff_getElem?.mp hs
      have hlt := (List.getElem?_eq_some_iff.mp hj).1
      rw [List.length_take] at hlt
      rw [List.getElem?_take_of_lt (by omega), getElem?_markValid_of_ne (by omega)] at hj
      refine hclean s (List.mem_of_getElem? (i := j) ?_)
      rw [List.getElem?_take_of_lt (by omega)]
      exact hj
    obtain ⟨hsame, hpath⟩ := ih (hmark.indexed h) hclean' hsi' hrun
    have hsame' : ps'.subState.drop (cur + 1) = (ps.markValid cur).subState.drop (cur + 1) := by
      rw [(by omega : cur + 1 = (i + 1) + (cur - i)), ← List.drop_drop, hsame, List.drop_drop]
    refine ⟨hsame'.trans hdrop, fun hr => ?_⟩
    have hsplit : ps'.subState.take (cur + 1) = ps'.subState.take (i + 1) ++
        (ps'.subState.drop (i + 1)).take (cur - (i + 1) + 1) := by
      rw [(by omega : cur + 1 = (i + 1) + (cur - (i + 1) + 1)), List.take_add]
    rw [hsplit, List.filter_append, hsame, filter_markValid hclean hcur hi]
    exact (hpath hr).concat (hnew'.trans hnew).symm
  · rw [hstep] at hrun
    obtain ⟨rfl, rfl⟩ := Prod.mk.inj (Option.some.inj hrun)
    refine ⟨hdrop, fun _ => ?_⟩
    have hfilter := filter_markValid hclean hcur (Nat.zero_le cur)
    rw [List.drop_zero, Nat.sub_zero] at hfilter
    rw [hfilter]
    exact ⟨hold, rfl⟩
  · rw [hstep] at hrun
    obtain ⟨rfl, rfl⟩ := Prod.mk.inj (Option.some.inj hrun)
    exact ⟨hdrop, fun hr => by cases hr⟩

/-- The walk finds its way when every sub-state starts where it can be found. -/
theorem Indexed.trackBack_connected (h : ps.Indexed) (hconn : ps.Connected)
    (hcur : cur < ps.subState.length) {fuel : ℕ} {r : Except Fault Unit}
    (hrun : trackBack fuel ps cur = some (r, ps')) : r = .ok () := by
  induction fuel generalizing ps cur with
  | zero => cases hrun
  | succ fuel ih =>
  have hmark := sameLinks_markValid ps cur
  have hget := List.getElem?_eq_getElem hcur
  unfold trackBack at hrun
  dsimp only at hrun
  rw [hmark.stepBack cur] at hrun
  rcases h.stepBack_cases hget with ⟨i, _, hi, _, _, hstep⟩ | ⟨_, hstep⟩ | ⟨hold, hno, _⟩
  · rw [hstep] at hrun
    refine ih (hmark.indexed h) (fun j sj hj => ?_) (by rw [hmark.length_eq]; omega) hrun
    have hlt := (List.getElem?_eq_some_iff.mp hj).1
    rw [hmark.length_eq] at hlt
    obtain ⟨sj', hsj', hold, _, _⟩ := hmark.getElem? (List.getElem?_eq_getElem hlt)
    obtain rfl := Option.some.inj (hj.symm.trans hsj')
    rw [hold, hmark.oldStateRoot]
    refine (hconn j _ (List.getElem?_eq_getElem hlt)).imp id ?_
    rintro ⟨hj0, k, sk, hk, hsk, hnew⟩
    obtain ⟨sk', hsk', _, hnew', _⟩ := hmark.getElem? hsk
    exact ⟨hj0, k, sk', hk, hsk', hnew'.trans hnew⟩
  · rw [hstep] at hrun
    exact (Prod.mk.inj (Option.some.inj hrun)).1.symm
  · rcases hconn cur _ hget with heq | ⟨hne, j, sj, hj, hsj, hnew⟩
    · exact absurd heq hold
    · exact absurd hnew (hno hne j sj hj hsj)

/-! ## The transactions of a run -/

/-- Nothing is marked before the first flush. -/
def Unmarked (ps : TxPersistenceState) : Prop := ∀ ss ∈ ps.subState, ss.bValid = false

theorem isKept_unmarked : IsKept Unmarked where
  empty _ _ hss := absurd hss List.not_mem_nil
  setOld ps root ps' h hps := by
    have hpush {ps : TxPersistenceState} (h : ps.Unmarked) : (ps.pushSubState root).Unmarked := by
      intro ss hss
      rcases List.mem_append.mp hss with hss | hss
      · exact h ss hss
      · rw [List.mem_singleton.mp hss]
    unfold TxPersistenceState.setOld at hps
    split at hps
    · split at hps
      · cases hps
      · obtain rfl := Option.some.inj hps
        exact hpush h
    · split at hps
      · cases hps
      · split at hps
        · cases hps
        · obtain rfl := Option.some.inj hps
          exact hpush h
  setNew ps root ps' h hps := by
    unfold TxPersistenceState.setNew at hps
    split at hps
    · cases hps
    · split at hps
      · cases hps
      · obtain rfl := Option.some.inj hps
        exact forall_mem_modify h h
  start _ _ _ _ ss hss := by
    rw [List.mem_singleton.mp hss]
  write _ _ h := forall_mem_modify h h
  delete _ _ h := forall_mem_modify h h
  program _ _ h := h
  finish ps purge root h := by
    unfold TxPersistenceState.finish
    split
    · exact h
    · split
      · split
        · exact fun ss hss => absurd hss List.not_mem_nil
        · exact h
      · split
        · split
          · exact fun ss hss => h ss (List.mem_of_mem_take hss)
          · exact h
        · exact h

/-- A walk with an error has it again when it starts over. -/
theorem SameLinks.trackBack_error (hl : SameLinks ps ps') {fuel : ℕ} {e : Fault} {ps₁ : TxPersistenceState}
    (hrun : trackBack fuel ps cur = some (.error e, ps₁)) :
    ∃ ps₂, trackBack fuel ps' cur = some (.error e, ps₂) := by
  induction fuel generalizing ps ps' cur with
  | zero => cases hrun
  | succ fuel ih =>
  unfold trackBack at hrun ⊢
  dsimp only at hrun ⊢
  have hmark : SameLinks (ps.markValid cur) (ps'.markValid cur) := by
    have h' := hl.trans (sameLinks_markValid ps' cur)
    exact ⟨h'.oldStateRoot, h'.newStateRoot, h'.currentSubState,
      h'.links.trans (sameLinks_markValid ps cur).links.symm⟩
  rw [hmark.stepBack cur]
  split at hrun
  · obtain ⟨heq, _⟩ := Prod.mk.inj (Option.some.inj hrun)
    exact ⟨_, by rw [heq]⟩
  · cases hrun
  · exact ih hmark hrun

theorem SameLinks.findValid_error (hl : SameLinks ps ps') {e : Fault} {ps₁ : TxPersistenceState}
    (hfind : ps.findValid ps.subState.length = some (.error e, ps₁)) :
    ∃ ps₂, ps'.findValid ps'.subState.length = some (.error e, ps₂) := by
  unfold TxPersistenceState.findValid at hfind ⊢
  rw [hl.currentSubState, hl.length_eq, hl.newStateRoot]
  split at hfind
  · rename_i hnone
    rw [List.getElem?_eq_none (by rw [hl.length_eq]; exact List.getElem?_eq_none_iff.mp hnone)]
    obtain ⟨heq, _⟩ := Prod.mk.inj (Option.some.inj hfind)
    exact ⟨_, by rw [heq]⟩
  · rename_i ss hss
    obtain ⟨ss', hss', _, hnew, _⟩ := hl.getElem? hss
    rw [hss']
    dsimp only
    rw [hnew]
    split at hfind
    · rename_i hne
      rw [if_pos hne]
      obtain ⟨heq, _⟩ := Prod.mk.inj (Option.some.inj hfind)
      exact ⟨_, by rw [heq]⟩
    · rename_i heq
      rw [if_neg heq]
      exact hl.trackBack_error hfind

/-- The search for the valid sub-states ends.  Where it finds no error, they lead from the old state root
of the transaction to its new one. -/
theorem Indexed.findValid_ends (h : ps.Indexed) (hne : ps.subState ≠ []) :
    ∃ r ps', (∀ fuel, ps.subState.length ≤ fuel → ps.findValid fuel = some (r, ps')) ∧
      SameLinks ps ps' ∧ (r = .ok () ∨ r = .error (.zkr .stateManager)) ∧
      (ps.Unmarked → r = .ok () →
        PathFrom ps.oldStateRoot (ps'.subState.filter TxSubState.bValid) ps.newStateRoot) ∧
      (ps.Connected → (∀ ss, ps.subState[ps.currentSubState]? = some ss → ss.newStateRoot = ps.newStateRoot) →
        r = .ok ()) := by
  have hlt := h.current_lt hne
  have hcur := List.getElem?_eq_getElem hlt
  unfold TxPersistenceState.findValid
  rw [hcur]
  by_cases hnew : ps.subState[ps.currentSubState].newStateRoot = ps.newStateRoot
  · obtain ⟨r, ps', hends, hlinks, hr⟩ := h.trackBack_ends hlt
    have hrun := hends (ps.currentSubState + 1) (Nat.lt_succ_self _)
    refine ⟨r, ps', fun fuel hfuel => ?_, hlinks, hr, fun hclean hok => ?_, fun hconn _ =>
      h.trackBack_connected hconn hlt hrun⟩
    · dsimp only
      rw [if_neg (not_not.mpr hnew)]
      exact hends fuel (by omega)
    · obtain ⟨hsame, hpath⟩ :=
        h.trackBack_path (fun ss hss => hclean ss (List.mem_of_mem_take hss)) hcur hrun
      have hrest : (ps'.subState.drop (ps.currentSubState + 1)).filter TxSubState.bValid = [] := by
        rw [hsame, List.filter_eq_nil_iff]
        intro ss hss
        rw [hclean ss (List.mem_of_mem_drop hss)]
        decide
      rw [← List.take_append_drop (ps.currentSubState + 1) ps'.subState, List.filter_append, hrest,
        List.append_nil, ← hnew]
      exact hpath hok
  · refine ⟨_, _, fun fuel _ => if_pos hnew, ⟨rfl, rfl, rfl, rfl⟩, .inr rfl, fun _ hok => ?_,
      fun _ hcurrent => absurd (hcurrent _ rfl) hnew⟩
    cases hok

end TxPersistenceState

namespace StateManager

/-- After any calls but flushes, the indices of sub-states lead back.  The loop of `flush` ends, with an error
of the state manager or with the sub-states marked that lead from the old state root of the transaction to
its new one; these it finds where every sub-state starts from the old state root, or from where an earlier
one ended. -/
theorem flush_backtracks (purge : Bool) {calls : List Call} (hcalls : ∀ c ∈ calls, ¬c.IsFlush)
    {b : BatchState} (hb : after purge calls = some b) {block tx : ℕ} {p : Persistence}
    {ps : TxPersistenceState} (hps : b.getPersistence block tx p = some ps) (hne : ps.subState ≠ []) :
    (∀ i ss, ps.subState[i]? = some ss → i = 0 ∨ ss.previousSubState < i) ∧
      ∃ r ps', (∀ fuel, ps.subState.length ≤ fuel → ps.findValid fuel = some (r, ps')) ∧
        (r = .ok () ∨ r = .error (.zkr .stateManager)) ∧
        (r = .ok () → TxPersistenceState.PathFrom ps.oldStateRoot
          (ps'.subState.filter TxSubState.bValid) ps.newStateRoot) ∧
        (ps.Connected →
          (∀ ss, ps.subState[ps.currentSubState]? = some ss → ss.newStateRoot = ps.newStateRoot) →
          r = .ok ()) := by
  have hidx := (all_after TxPersistenceState.isKept_indexed hcalls b hb).getPersistence hps
  have hclean := (all_after TxPersistenceState.isKept_unmarked hcalls b hb).getPersistence hps
  obtain ⟨r, ps', hends, _, hr, hpath, hconn⟩ := hidx.findValid_ends hne
  exact ⟨hidx.previous, r, ps', hends, hr, hpath hclean, hconn⟩

def rootNumber (n : Fe) : Fea := ⟨n, 0, 0, 0⟩

/-- Two calls of `set`, and one more after a revert to the root before them. -/
def revertedCalls : List Call :=
  [(1, true), (2, false), (2, true), (3, false), (1, true), (4, false)].map fun r =>
    .setStateRoot 0 0 (rootNumber r.1) r.2 .database

theorem flush_backtracks_sample :
    let ps := (((after true revertedCalls).bind fun b => b.getPersistence 0 0 .database)).getD {}
    ps.subState.length = 3 ∧ (∀ i ss, ps.subState[i]? = some ss → i = 0 ∨ ss.previousSubState < i) ∧
      ∃ r ps', (∀ fuel, ps.subState.length ≤ fuel → ps.findValid fuel = some (r, ps')) ∧
        (r = .ok () ∨ r = .error (.zkr .stateManager)) ∧
        (r = .ok () → TxPersistenceState.PathFrom ps.oldStateRoot
          (ps'.subState.filter TxSubState.bValid) ps.newStateRoot) ∧
        (ps.Connected →
          (∀ ss, ps.subState[ps.currentSubState]? = some ss → ss.newStateRoot = ps.newStateRoot) →
          r = .ok ()) := by
  have hcalls : ∀ c ∈ revertedCalls, ¬c.IsFlush := by
    intro c hc
    obtain ⟨_, _, rfl⟩ := List.mem_map.mp hc
    exact id
  have hlen : ((((after true revertedCalls).bind fun b => b.getPersistence 0 0 .database)).getD {}).subState.length
      = 3 := by decide
  refine ⟨hlen, flush_backtracks true hcalls rfl
    (show BatchState.getPersistence _ 0 0 .database = some _ from rfl) fun hnil => ?_⟩
  exact absurd (hlen.symm.trans (congrArg List.length hnil)) (by decide)

end StateManager

end ZkevmProver
