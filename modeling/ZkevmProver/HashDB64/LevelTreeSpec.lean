import ZkevmProver.HashDB64.LevelTreeShape

/-!
# Inserting and extracting keys

The set of keys in a level tree, and what `insert` and `extract` do to it.

1. The invariant: `Inv`
2. `allocKey` and the slot of a key
3. `insert_spec`
4. `extract_spec`
-/

namespace ZkevmProver

open RadixArray

namespace LevelTree

variable {t t' : LevelTree} {stored live : Set ℕ} {path : ℕ → List ℕ} {loose : Set ℕ}
  {key : KeyWords} {x y i j k : ℕ} {p : Spot}

theorem pile_setPile_self (t : LevelTree) (k : ℕ) (s : PileSlot) : (t.setPile k s).pile k = s :=
  Function.update_self _ _ _

theorem pile_setPile_ne (t : LevelTree) (s : PileSlot) (h : i ≠ k) :
    (t.setPile k s).pile i = t.pile i :=
  Function.update_of_ne h _ _

/-! ## The invariant -/

/-- The pile holds the keys numbered `stored`, and its free numbers are known. -/
structure PileInv (t : LevelTree) (stored : Set ℕ) : Prop where
  nKeys_pos : 0 < t.nKeys
  stored_lt : ∀ k ∈ stored, k < t.nKeys
  free : ∀ k ∈ t.emptyKeys, 0 < k ∧ k < t.nKeys ∧ k ∉ stored
  free_nodup : t.emptyKeys.Nodup
  counted : t.useInsertCounters = true →
    (∀ k ∈ stored, 0 < (t.pile k).counter) ∧ ∀ k, k ∉ stored → (t.pile k).counter = 0

structure Inv (t : LevelTree) (stored : Set ℕ) : Prop where
  tree : ∃ live path, TreeInv t stored live path ∅
  pile : PileInv t stored

/-- A tree that has just been constructed holds no key. -/
theorem inv_new {n : ℕ} {b : Bool} (h : new n b = some t) :
    Inv t ∅ ∧ t.nBitsStep = n ∧ t.useInsertCounters = b ∧ t.nKeys = 1 ∧
      ∀ k, (t.pile k).value = 0 := by
  unfold new at h
  obtain ⟨⟨h256, h32⟩, h⟩ := Option.ite_none_right_eq_some.mp h
  obtain ⟨-, -, rfl⟩ := Option.map_eq_some_iff.mp h
  have hdvd : n ∣ 64 := by
    have h256' : n ∣ 256 := Nat.dvd_of_mod_eq_zero h256
    have hpos : 0 < n := Nat.pos_of_dvd_of_pos h256' (by norm_num)
    interval_cases n <;> revert h256' <;> decide
  have hsteps : 0 < 256 / n := by
    have hpos : 0 < n := Nat.pos_of_dvd_of_pos hdvd (by norm_num)
    exact Nat.div_pos (by omega) hpos
  refine ⟨⟨⟨{0}, fun _ => [], hdvd, ?_, ?_, rfl⟩, ?_⟩, rfl, rfl, rfl, fun _ => rfl⟩
  · refine ⟨rfl, rfl, ?_, fun _ _ => hsteps, ?_, ?_, ?_, ?_, ?_, fun _ _ _ _ => rfl, ?_, ?_, ?_, ?_⟩
    · rintro x (rfl : x = 0) y (rfl : y = 0) _
      rfl
    · intro x _ i _ hpos
      exact absurd hpos (lt_irrefl _)
    · rintro y (rfl : y = 0) hne
      exact absurd rfl hne
    · intro x _ i _ hneg
      exact absurd hneg (lt_irrefl _)
    · simp
    · rintro x (rfl : x = 0) hne
      exact absurd rfl hne
    · simp
    · simp
    · simp
    · simp
  · rintro x (rfl : x = 0)
    exact Nat.zero_lt_one
  · exact ⟨Nat.zero_lt_one, by simp, by simp, List.nodup_nil, fun _ => ⟨by simp, fun _ _ => rfl⟩⟩

theorem exists_new {n : ℕ} (hn : n ∣ 256) (hn' : n ≤ 16) (b : Bool) : ∃ t, new n b = some t := by
  unfold new intShiftOne
  rw [if_pos ⟨Nat.mod_eq_zero_of_dvd hn, by omega⟩, if_pos (by omega)]
  exact ⟨_, rfl⟩

theorem le_of_new {n : ℕ} {b : Bool} (hn : n ∣ 256) (hn' : n ≤ 32) (h : new n b = some t) : n ≤ 16 := by
  by_contra hlt
  obtain rfl : n = 32 := by
    interval_cases n <;> first | rfl | exact absurd hn (by decide)
  simp [new, intShiftOne] at h

/-- A key is stored once. -/
theorem Inv.key_inj (h : Inv t stored) (hi : i ∈ stored) (hj : j ∈ stored)
    (heq : (t.pile i).key = (t.pile j).key) : i = j := by
  obtain ⟨⟨live, path, htree⟩, -⟩ := h
  exact htree.shape.word_inj i hi j hj (congrArg _ heq)

/-- Only the pile was changed. -/
structure SameNodes (t t' : LevelTree) : Prop where
  nBitsStep : t'.nBitsStep = t.nBitsStep
  useInsertCounters : t'.useInsertCounters = t.useInsertCounters
  nodes : t'.nodes = t.nodes
  nNodes : t'.nNodes = t.nNodes
  emptyNodes : t'.emptyNodes = t.emptyNodes

theorem SameNodes.slot (h : SameNodes t t') : t'.slot = t.slot := by
  unfold LevelTree.slot nodeSize
  rw [h.nBitsStep, h.nodes]

theorem TreeInv.of_sameNodes (h : TreeInv t stored live path loose) (hs : SameNodes t t')
    (hk : ∀ k ∈ stored, (t'.pile k).key = (t.pile k).key) : TreeInv t' stored live path loose := by
  refine ⟨hs.nBitsStep ▸ h.dvd, ?_, hs.nNodes ▸ h.live_lt, hs.emptyNodes ▸ h.emptyNodes⟩
  have hword : ∀ k ∈ stored, stepsOf t.nBitsStep (t'.pile k).key =
      stepsOf t.nBitsStep (t.pile k).key := fun k hk' => by rw [hk k hk']
  have hshape := h.shape.congr_word hword
  unfold nodeSize nSteps at hshape ⊢
  rw [hs.nBitsStep, hs.slot]
  exact hshape

/-! ## The slot of a key -/

/-- At the end of its descent a stored key is found. -/
theorem AtSpot.next_eq (hp : AtSpot t live path key p) (h : TreeInv t stored live path loose)
    (hk : k ∈ stored) (hkey : (t.pile k).key = key) : p.next = -(k : ℤ) := by
  subst hkey
  obtain ⟨-, hs⟩ := h.shape.on_way hp.mem hk hp.way
  have hle := hp.next_le
  rw [hp.next] at hle ⊢
  exact hs.resolve_right (not_lt.mpr hle)

/-- What is found at the end of a descent is stored. -/
theorem AtSpot.mem_stored (hp : AtSpot t live path key p) (h : TreeInv t stored live path loose)
    (hne : p.next ≠ 0) : p.next < 0 ∧ (-p.next).toNat ∈ stored := by
  have hneg : p.next < 0 := lt_of_le_of_ne hp.next_le hne
  have hi : p.index < t.nodeSize := hp.index ▸ stepIndex_lt t key p.step
  rw [hp.next] at hneg ⊢
  exact ⟨hneg, (h.shape.leaf _ hp.mem _ hi hneg).1⟩

/-! ## `insert` -/

/-- The number for the next key is not in use. -/
theorem allocKey_spec (h : PileInv t stored) :
    ∃ t' k, t.allocKey = (t', k) ∧ 0 < k ∧ k ∉ stored ∧ t'.pile = t.pile ∧ SameNodes t t' ∧
      k < t'.nKeys ∧ t.nKeys ≤ t'.nKeys ∧ (∀ k' ∈ t'.emptyKeys, k' ∈ t.emptyKeys ∧ k' ≠ k) ∧
      t'.emptyKeys.Nodup := by
  unfold allocKey
  cases he : t.emptyKeys with
  | nil =>
    exact ⟨_, _, rfl, h.nKeys_pos, fun hmem => lt_irrefl _ (h.stored_lt _ hmem), rfl,
      ⟨rfl, rfl, rfl, rfl, rfl⟩, Nat.lt_succ_self _, Nat.le_succ _, by simp, by simp⟩
  | cons k rest =>
    obtain ⟨h0, hlt, hmem⟩ := h.free k (by simp [he])
    have hnodup := h.free_nodup
    rw [he, List.nodup_cons] at hnodup
    refine ⟨_, _, rfl, h0, hmem, rfl, ⟨rfl, rfl, rfl, rfl, rfl⟩, hlt, le_rfl, ?_, hnodup.2⟩
    intro k' hk'
    refine ⟨List.mem_cons_of_mem _ hk', ?_⟩
    rintro rfl
    exact hnodup.1 hk'

/-- The pile slot of a key after one more insertion. -/
def inserted (t : LevelTree) (k : ℕ) (key : KeyWords) : PileSlot :=
  { t.pile k with
    key := key
    counter := if t.useInsertCounters then (t.pile k).counter + 1 else (t.pile k).counter }

theorem addKey_spec (h : PileInv t stored) (key : KeyWords) :
    ∃ t' k, t.addKey key = (t', k) ∧ 0 < k ∧ k ∉ stored ∧ SameNodes t t' ∧
      t'.pile = Function.update t.pile k (t.inserted k key) ∧ PileInv t' (insert k stored) := by
  obtain ⟨t', k, halloc, hpos, hk, hpile, hsame, hlt, hle, hfree, hnodup⟩ := allocKey_spec h
  have hadd : t.addKey key = (t'.setPile k (t'.inserted k key), k) := by
    simp only [addKey, halloc]
    rfl
  have hpile' : (t'.setPile k (t'.inserted k key)).pile =
      Function.update t.pile k (t.inserted k key) := by
    unfold setPile inserted
    rw [hpile, hsame.useInsertCounters]
  refine ⟨_, k, hadd, hpos, hk,
    ⟨hsame.nBitsStep, hsame.useInsertCounters, hsame.nodes, hsame.nNodes, hsame.emptyNodes⟩,
    hpile', ?_⟩
  refine ⟨(Nat.zero_le _).trans_lt hlt, ?_, ?_, hnodup, ?_⟩
  · rintro k' (rfl | hk')
    · exact hlt
    · exact (h.stored_lt k' hk').trans_le hle
  · intro k' hk'
    obtain ⟨hmem, hne⟩ := hfree k' hk'
    obtain ⟨h0, hlt', hns⟩ := h.free k' hmem
    refine ⟨h0, hlt'.trans_le hle, ?_⟩
    rintro (rfl | hk')
    · exact hne rfl
    · exact hns hk'
  · intro hcount
    have hcount' : t.useInsertCounters = true := hsame.useInsertCounters ▸ hcount
    obtain ⟨h₁, h₂⟩ := h.counted hcount'
    rw [hpile']
    constructor
    · rintro k' (rfl | hk')
      · rw [Function.update_self]
        simp [inserted, hcount']
      · rw [Function.update_of_ne (ne_of_mem_of_not_mem hk' hk)]
        exact h₁ k' hk'
    · intro k' hk'
      rw [Set.mem_insert_iff, not_or] at hk'
      rw [Function.update_of_ne hk'.1]
      exact h₂ k' hk'.2

/-- Where `insert` has put its key, and the level it returns. -/
def InsertedAt (r : InsertResult) (stored : Set ℕ) : Prop :=
  ∃ live path y j, TreeInv r.tree stored live path ∅ ∧ InSlot r.tree live path r.pileIdx y j ∧
    r.level = (path y).length * r.tree.nBitsStep + r.tree.levelInNode y j

/-- The pile is kept by changes of the nodes. -/
theorem PileInv.of_samePile (h : PileInv t stored) (hs : SamePile t t') : PileInv t' stored := by
  refine ⟨hs.nKeys ▸ h.nKeys_pos, hs.nKeys ▸ h.stored_lt, ?_, hs.emptyKeys ▸ h.free_nodup, ?_⟩
  · rw [hs.emptyKeys, hs.nKeys]
    exact h.free
  · rw [hs.useInsertCounters, hs.pile]
    exact h.counted

/-- What `insert` does: the key is counted once more, or it is added. -/
structure Inserted (t : LevelTree) (stored : Set ℕ) (key : KeyWords) (r : InsertResult) : Prop where
  nBitsStep : r.tree.nBitsStep = t.nBitsStep
  useInsertCounters : r.tree.useInsertCounters = t.useInsertCounters
  pile : r.tree.pile = Function.update t.pile r.pileIdx (t.inserted r.pileIdx (mixKey key))
  pileInv : PileInv r.tree (insert r.pileIdx stored)
  at_slot : InsertedAt r (insert r.pileIdx stored)
  stored_or_new : r.pileIdx ∈ stored ∧ (t.pile r.pileIdx).key = mixKey key ∨
    r.pileIdx ∉ stored ∧ ∀ k ∈ stored, (t.pile k).key ≠ mixKey key

/-- After `addKey` the key is in the pile, and the nodes are as they were. -/
theorem addKey_tree (h : TreeInv t stored live path ∅) (hp : PileInv t stored) (key : KeyWords)
    (hnew : ∀ k ∈ stored, (t.pile k).key ≠ key) :
    ∃ t' k, t.addKey key = (t', k) ∧ 0 < k ∧ k ∉ stored ∧ SameNodes t t' ∧
      t'.pile = Function.update t.pile k (t.inserted k key) ∧ PileInv t' (insert k stored) ∧
      TreeInv t' stored live path ∅ ∧ (t'.pile k).key = key ∧
      (∀ k' ∈ stored, (t'.pile k').key = (t.pile k').key) ∧
      ∀ k' ∈ stored, (t'.pile k').key ≠ key := by
  obtain ⟨t', k, hadd, hpos, hk, hsame, hpile, hpinv⟩ := addKey_spec hp key
  have hkeys : ∀ k' ∈ stored, (t'.pile k').key = (t.pile k').key := by
    intro k' hk'
    rw [hpile, Function.update_of_ne (ne_of_mem_of_not_mem hk' hk)]
  refine ⟨t', k, hadd, hpos, hk, hsame, hpile, hpinv, h.of_sameNodes hsame hkeys, ?_, hkeys, ?_⟩
  · rw [hpile, Function.update_self]
    rfl
  · intro k' hk'
    rw [hkeys k' hk']
    exact hnew k' hk'

theorem recount_spec (h : PileInv t stored) (hk : k ∈ stored) (hkey : (t.pile k).key = key) :
    SameNodes t (t.recount k) ∧
      (t.recount k).pile = Function.update t.pile k (t.inserted k key) ∧
      PileInv (t.recount k) stored := by
  subst hkey
  unfold recount inserted
  cases hcount : t.useInsertCounters with
  | false =>
    exact ⟨⟨rfl, rfl, rfl, rfl, rfl⟩, (Function.update_eq_self k t.pile).symm, h⟩
  | true =>
    obtain ⟨h₁, h₂⟩ := h.counted hcount
    refine ⟨⟨rfl, rfl, rfl, rfl, rfl⟩, rfl, h.nKeys_pos, h.stored_lt, h.free, h.free_nodup,
      fun _ => ⟨?_, ?_⟩⟩
    · intro k' hk'
      simp only [if_true, setPile]
      by_cases hkk : k' = k
      · rw [hkk, Function.update_self]
        exact Nat.succ_pos _
      · rw [Function.update_of_ne hkk]
        exact h₁ k' hk'
    · intro k' hk'
      simp only [if_true, setPile]
      rw [Function.update_of_ne (ne_of_mem_of_not_mem hk hk').symm]
      exact h₂ k' hk'

theorem insert_spec (h : Inv t stored) (key : KeyWords) :
    ∃ r, t.insert key = some r ∧ Inserted t stored key r := by
  obtain ⟨⟨live, path, hinv⟩, hpile⟩ := h
  obtain ⟨p, hfind, hp⟩ := find_spec hinv (mixKey key)
  have hi : p.index < t.nodeSize := hp.index ▸ stepIndex_lt t _ p.step
  simp only [LevelTree.insert, hfind, Option.bind_eq_bind, Option.bind_some, Option.pure_def]
  by_cases h0 : p.next = 0
  · -- an empty slot
    rw [if_pos h0]
    have hnew : ∀ k ∈ stored, (t.pile k).key ≠ mixKey key := by
      intro k hk hkey
      have := hp.next_eq hinv hk hkey
      have := hinv.shape.stored_pos k hk
      omega
    obtain ⟨t', k, hadd, hpos, hk, hsame, hpile', hpinv, hinv', hkey, -, hnew'⟩ :=
      addKey_tree hinv hpile (mixKey key) hnew
    simp only [hadd]
    have hi' : p.index < t'.nodeSize := by
      unfold nodeSize
      rw [hsame.nBitsStep]
      exact hi
    obtain ⟨hadd', hin⟩ := hinv'.add hp.mem hi' (by rw [hsame.slot, ← hp.next, h0]) hpos
      (by rw [hkey, hsame.nBitsStep]; exact hp.way) fun k' hk' => hkey ▸ hnew' k' hk'
    refine ⟨_, rfl, hsame.nBitsStep, hsame.useInsertCounters, hpile',
      hpinv.of_samePile samePile_setSlot, ⟨live, path, _, _, hadd', hin, ?_⟩, .inr ⟨hk, hnew⟩⟩
    rw [hp.length]
  · rw [if_neg h0]
    obtain ⟨hneg, hmem⟩ := hp.mem_stored hinv h0
    by_cases hkey : t.keyAt p.next = mixKey key
    · -- the slot of the key itself
      rw [if_neg (not_not.mpr hkey)]
      refine ⟨_, rfl, ?_⟩
      have hkey' : (t.pile (-p.next).toNat).key = mixKey key := hkey
      have hslot : t.slot p.node p.index = -((-p.next).toNat : ℤ) := by rw [← hp.next]; omega
      generalize (-p.next).toNat = k at hkey' hslot hmem
      obtain ⟨hsame, hpile', hpinv⟩ := recount_spec hpile hmem hkey'
      have hkeys : ∀ k' ∈ stored, ((t.recount k).pile k').key = (t.pile k').key := by
        intro k' _
        rw [hpile']
        by_cases hkk : k' = k
        · rw [hkk, Function.update_self, hkey']
          rfl
        · rw [Function.update_of_ne hkk]
      have hinv' := hinv.of_sameNodes hsame hkeys
      have hins : insert k stored = stored := Set.insert_eq_of_mem hmem
      refine ⟨hsame.nBitsStep, hsame.useInsertCounters, hpile', hins.symm ▸ hpinv, ?_,
        .inl ⟨hmem, hkey'⟩⟩
      simp only
      rw [hins]
      refine ⟨live, path, p.node, p.index, hinv', ⟨hp.mem, ?_, ?_, ?_⟩, ?_⟩
      · unfold nodeSize
        rw [hsame.nBitsStep]
        exact hi
      · rw [hsame.slot, hslot]
      · rw [hkeys k hmem, hkey', hsame.nBitsStep]
        exact hp.way
      · rw [hp.length]
    · -- the slot of another key
      rw [if_pos hkey]
      have hnew : ∀ k ∈ stored, (t.pile k).key ≠ mixKey key := by
        intro k hk hkey'
        refine hkey ?_
        rw [hp.next_eq hinv hk hkey', keyAt, neg_neg, Int.toNat_natCast, hkey']
      obtain ⟨t', k, hadd, hpos, hk, hsame, hpile', hpinv, hinv', hkey', hkeys, hnew'⟩ :=
        addKey_tree hinv hpile (mixKey key) hnew
      have hi' : p.index < t'.nodeSize := by
        unfold nodeSize
        rw [hsame.nBitsStep]
        exact hi
      have hlt : p.step < t'.nSteps := hp.length ▸ hinv'.shape.path_lt _ hp.mem
      obtain ⟨t'', live', path', y, j, hrun, hsame', hinv'', hin⟩ :=
        insertSplit_spec hpos hinv' (Set.empty_subset _) hp.mem hi' (by rw [hsame.slot, ← hp.next])
          hneg (hkeys _ hmem) hp.length hkey' (by rw [hsame.nBitsStep]; exact hp.way)
          (Nat.add_sub_of_le hlt.le) hnew'
      change insertSplit _ (t.keyAt p.next) _ _ _ _ _ _ _ = _ at hrun
      simp only [hadd, hrun, Option.bind_some]
      exact ⟨_, rfl, hsame'.nBitsStep.trans hsame.nBitsStep,
        hsame'.useInsertCounters.trans hsame.useInsertCounters, hsame'.pile.trans hpile',
        hpinv.of_samePile hsame', ⟨live', path', y, j, hinv'', hin, by rw [hsame'.nBitsStep]⟩,
        .inr ⟨hk, hnew⟩⟩

/-! ## `extract` -/

/-- Whether the next extraction of a key removes it. -/
def lastOne (t : LevelTree) (k : ℕ) : Prop := t.useInsertCounters = false ∨ (t.pile k).counter = 1

/-- What `removeKey` does: the key goes, or it is counted once less. -/
theorem removeKey_spec (h : PileInv t stored) (hk : k ∈ stored) (hpos : 0 < k) :
    ∃ t' removed, t.removeKey k = (t', removed) ∧ SameNodes t t' ∧
      (∀ k', (t'.pile k').value = (t.pile k').value) ∧ (∀ k' ≠ k, t'.pile k' = t.pile k') ∧
      (removed = true ∧ t.lastOne k ∧ PileInv t' (stored \ {k}) ∨
        removed = false ∧ ¬t.lastOne k ∧ PileInv t' stored ∧
          t'.pile k = { t.pile k with counter := (t.pile k).counter - 1 }) := by
  have hother : ∀ (s : PileSlot), ∀ k' ≠ k, (t.setPile k s).pile k' = t.pile k' :=
    fun s _ => pile_setPile_ne t s
  have hself := pile_setPile_self t k
  have hvalue : ∀ s : PileSlot, s.value = (t.pile k).value →
      ∀ k', ((t.setPile k s).pile k').value = (t.pile k').value := by
    intro s hs k'
    by_cases hkk : k' = k
    · rw [hkk, hself, hs]
    · rw [hother s k' hkk]
  unfold removeKey
  by_cases hlast : t.lastOne k
  · have hif : (!t.useInsertCounters || (t.pile k).counter == 1) = true := by
      rcases hlast with h | h <;> simp [h]
    simp only [hif, if_true]
    refine ⟨_, _, rfl, ⟨rfl, rfl, rfl, rfl, rfl⟩, hvalue _ rfl, hother _, .inl ⟨rfl, hlast, ?_⟩⟩
    refine ⟨h.nKeys_pos, fun k' hk' => h.stored_lt k' hk'.1, ?_, ?_, ?_⟩
    · intro k' hk'
      rcases List.mem_cons.mp hk' with rfl | hk'
      · exact ⟨hpos, h.stored_lt _ hk, fun hm => hm.2 rfl⟩
      · obtain ⟨h0, hlt, hns⟩ := h.free k' hk'
        exact ⟨h0, hlt, fun hm => hns hm.1⟩
    · exact List.nodup_cons.mpr ⟨fun hm => (h.free k hm).2.2 hk, h.free_nodup⟩
    · intro hcount
      obtain ⟨h₁, h₂⟩ := h.counted hcount
      constructor
      · rintro k' ⟨hk', hne⟩
        show 0 < (Function.update t.pile k _ k').counter
        rw [Function.update_of_ne hne]
        exact h₁ k' hk'
      · intro k' hk'
        by_cases hkk : k' = k
        · subst hkk
          show (Function.update t.pile k' _ k').counter = 0
          rw [Function.update_self]
          exact if_pos hcount
        · show (Function.update t.pile k _ k').counter = 0
          rw [Function.update_of_ne hkk]
          exact h₂ k' fun hm => hk' ⟨hm, hkk⟩
  · have hif : (!t.useInsertCounters || (t.pile k).counter == 1) = false := by
      unfold lastOne at hlast
      push Not at hlast
      simp [hlast.1, hlast.2]
    simp only [hif, Bool.false_eq_true, if_false]
    refine ⟨_, _, rfl, ⟨rfl, rfl, rfl, rfl, rfl⟩, hvalue _ rfl, hother _,
      .inr ⟨rfl, hlast, ?_, hself _⟩⟩
    refine ⟨h.nKeys_pos, h.stored_lt, h.free, h.free_nodup, fun hcount => ?_⟩
    obtain ⟨h₁, h₂⟩ := h.counted hcount
    constructor
    · intro k' hk'
      by_cases hkk : k' = k
      · subst hkk
        have hne : (t.pile k').counter ≠ 1 := fun h => hlast (.inr h)
        have := h₁ k' hk
        rw [hself]
        show 0 < (t.pile k').counter - 1
        omega
      · rw [hother _ k' hkk]
        exact h₁ k' hk'
    · intro k' hk'
      rw [hother _ k' (ne_of_mem_of_not_mem hk hk').symm]
      exact h₂ k' hk'

/-- After a key that has gone from the pile has gone from its slot. -/
theorem TreeInv.remove (h : TreeInv t stored live path ∅) (hx : x ∈ live) (hi : i < t.nodeSize)
    (hslot : t.slot x i = -(k : ℤ)) (hk : k ∈ stored) (hs : SameNodes t t')
    (hkeys : ∀ k' ≠ k, t'.pile k' = t.pile k') :
    TreeInv (t'.setSlot x i 0) (stored \ {k}) live path {x} ∧
      (x ≠ 0 → ∃ j < t'.nodeSize, (t'.setSlot x i 0).slot x j ≠ 0) := by
  have hsize : t'.nodeSize = t.nodeSize := by unfold nodeSize; rw [hs.nBitsStep]
  have hsteps : t'.nSteps = t.nSteps := by unfold nSteps; rw [hs.nBitsStep]
  have hput : ∀ y, ∀ j < t.nodeSize, (t'.setSlot x i 0).slot y j = put t.slot x i 0 y j := by
    intro y j hj
    rw [slot_setSlot (hsize ▸ hi) (hsize ▸ hj), hs.slot]
  refine ⟨⟨hs.nBitsStep ▸ h.dvd, ?_, hs.nNodes ▸ h.live_lt, hs.emptyNodes ▸ h.emptyNodes⟩, ?_⟩
  · have hword : ∀ k' ∈ stored \ {k}, stepsOf t.nBitsStep (t'.pile k').key =
        stepsOf t.nBitsStep (t.pile k').key := by
      rintro k' ⟨-, hne⟩
      rw [hkeys k' hne]
    have hshape := ((h.shape.remove hx hi hslot hk).congr_word hword).congr_slot hput
    show Shape t'.nodeSize t'.nSteps (fun k => stepsOf t'.nBitsStep (t'.pile k).key) _ _ _ _ _
    rw [hsize, hsteps, hs.nBitsStep]
    exact hshape
  · intro hx0
    have hpos := h.shape.stored_pos k hk
    have hother : ∀ j < t.nodeSize, j ≠ i → t.slot x j ≠ 0 →
        ∃ j < t'.nodeSize, (t'.setSlot x i 0).slot x j ≠ 0 := by
      intro j hj hne hsj
      refine ⟨j, hsize ▸ hj, ?_⟩
      rwa [hput x j hj, put_ne fun h => hne h.2]
    rcases h.shape.branching x hx hx0 (Set.notMem_empty x) with
      ⟨j, hj, hsj⟩ | ⟨j, hj, j', hj', hne, hsj, hsj'⟩
    · refine hother j hj ?_ hsj.ne'
      rintro rfl
      omega
    · by_cases hji : j = i
      · exact hother j' hj' (hji ▸ hne.symm) hsj'
      · exact hother j hj hji hsj

/-- A node may always be taken for loose. -/
theorem TreeInv.loosen (h : TreeInv t stored live path ∅) (x : ℕ) :
    TreeInv t stored live path {x} :=
  ⟨h.dvd, { h.shape with
    branching := fun y hy hy0 _ => h.shape.branching y hy hy0 (Set.notMem_empty y) },
    h.live_lt, h.emptyNodes⟩

/-- What `extract` does to a tree that holds the key: it is removed, or counted once less. -/
structure Extracted (t : LevelTree) (stored : Set ℕ) (k : ℕ) (t' : LevelTree) : Prop where
  nBitsStep : t'.nBitsStep = t.nBitsStep
  useInsertCounters : t'.useInsertCounters = t.useInsertCounters
  value : ∀ k', (t'.pile k').value = (t.pile k').value
  other : ∀ k' ≠ k, t'.pile k' = t.pile k'
  last : t.lastOne k → Inv t' (stored \ {k})
  not_last : ¬t.lastOne k → Inv t' stored ∧
    t'.pile k = { t.pile k with counter := (t.pile k).counter - 1 }

theorem extract_spec (h : Inv t stored) (key : KeyWords) :
    (∃ k ∈ stored, (t.pile k).key = mixKey key ∧
      ∃ t', t.extract key = some ⟨t', true, some k⟩ ∧ Extracted t stored k t') ∨
    (∀ k ∈ stored, (t.pile k).key ≠ mixKey key) ∧ t.extract key = some ⟨t, false, none⟩ := by
  obtain ⟨⟨live, path, hinv⟩, hpile⟩ := h
  obtain ⟨p, hfind, hp⟩ := find_spec hinv (mixKey key)
  have hi : p.index < t.nodeSize := hp.index ▸ stepIndex_lt t _ p.step
  simp only [extract, hfind, Option.bind_eq_bind, Option.bind_some, Option.pure_def]
  by_cases h0 : p.next = 0
  · refine .inr ⟨?_, if_pos h0⟩
    intro k hk hkey
    have := hp.next_eq hinv hk hkey
    have := hinv.shape.stored_pos k hk
    omega
  obtain ⟨-, hmem⟩ := hp.mem_stored hinv h0
  rw [if_neg h0]
  by_cases hkey : t.keyAt p.next = mixKey key
  · rw [if_neg (not_not.mpr hkey)]
    left
    have hkey' : (t.pile (-p.next).toNat).key = mixKey key := hkey
    have hslot : t.slot p.node p.index = -((-p.next).toNat : ℤ) := by
      have := hp.next_le
      rw [← hp.next]
      omega
    generalize (-p.next).toNat = k at hkey' hslot hmem
    refine ⟨k, hmem, hkey', ?_⟩
    have hkpos := hinv.shape.stored_pos k hmem
    obtain ⟨t', removed, hrem, hsame, hvalue, hother, hcase⟩ := removeKey_spec hpile hmem hkpos
    simp only [hrem]
    have hstep : (path p.node).length = p.step := hp.length
    rcases hcase with ⟨rfl, hlast, hpile'⟩ | ⟨rfl, hlast, hpile', hself⟩
    · rw [if_pos rfl]
      obtain ⟨hinv', htaken⟩ := hinv.remove hp.mem hi hslot hmem hsame hother
      obtain ⟨hclimb, live', htree⟩ := climb_spec hinv' hp.mem hp.above hstep htaken
      have hnodes := (SamePile.trans samePile_setSlot hclimb)
      refine ⟨_, rfl, hnodes.nBitsStep.trans hsame.nBitsStep,
        hnodes.useInsertCounters.trans hsame.useInsertCounters, ?_, ?_, ?_, fun h => absurd hlast h⟩
      · rw [hnodes.pile]
        exact hvalue
      · rw [hnodes.pile]
        exact hother
      · exact fun _ => ⟨⟨live', path, htree⟩, hpile'.of_samePile hnodes⟩
    · rw [if_neg Bool.false_ne_true]
      have hkeys : ∀ k' ∈ stored, (t'.pile k').key = (t.pile k').key := by
        intro k' _
        by_cases hkk : k' = k
        · rw [hkk, hself]
        · rw [hother k' hkk]
      have hinv' := (hinv.of_sameNodes hsame hkeys).loosen p.node
      obtain ⟨hnodes, live', htree⟩ := climb_spec hinv' hp.mem hp.above hstep fun _ =>
        ⟨p.index, by unfold nodeSize; rwa [hsame.nBitsStep], by rw [hsame.slot, hslot]; omega⟩
      refine ⟨_, rfl, hnodes.nBitsStep.trans hsame.nBitsStep,
        hnodes.useInsertCounters.trans hsame.useInsertCounters, ?_, ?_, fun h => absurd h hlast, ?_⟩
      · rw [hnodes.pile]
        exact hvalue
      · rw [hnodes.pile]
        exact hother
      · rw [hnodes.pile]
        exact fun _ => ⟨⟨⟨live', path, htree⟩, hpile'.of_samePile hnodes⟩, hself⟩
  · rw [if_pos hkey]
    refine .inr ⟨?_, rfl⟩
    intro k hk hkey'
    refine hkey ?_
    rw [hp.next_eq hinv hk hkey', keyAt, neg_neg, Int.toNat_natCast, hkey']

end LevelTree

end ZkevmProver
