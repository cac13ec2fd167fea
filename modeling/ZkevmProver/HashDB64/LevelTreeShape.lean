import ZkevmProver.HashDB64.LevelTree
import ZkevmProver.Lib.RadixArray

/-!
# The nodes of the level tree

The node vector of the level tree is a radix tree in an array, over the steps of the mixed keys of
its pile.  The descent ends at the slot where the key is, or where it would go; `insertSplit` and
`climb` keep the tree in shape.

1. The steps of a key
2. The invariant of the nodes: `TreeInv`
3. The descent: `find_spec`
4. `insertSplit_spec`
5. `climb_spec`
-/

namespace ZkevmProver

open RadixArray

/-! ## The steps of a key -/

/-- The slots on the way of a key. -/
def stepsOf (n : ℕ) (key : KeyWords) : List ℕ := (List.range (256 / n)).map (getStepIndex n key)

section

variable {n : ℕ} {k k' : KeyWords}

@[simp] theorem length_stepsOf : (stepsOf n k).length = 256 / n := by simp [stepsOf]

theorem lt_of_mem_stepsOf {i : ℕ} (h : i ∈ stepsOf n k) : i < 2 ^ n := by
  obtain ⟨step, -, rfl⟩ := List.mem_map.mp h
  exact getStepIndex_lt n k step

@[simp] theorem getElem_stepsOf {step : ℕ} (h : step < (stepsOf n k).length) :
    (stepsOf n k)[step] = getStepIndex n k step := by simp [stepsOf]

/-- The first steps are the same when the first bits are. -/
theorem take_stepsOf_eq_iff (hn : n ∣ 64) {m : ℕ} (hm : m ≤ 256 / n) :
    (stepsOf n k).take m = (stepsOf n k').take m ↔ k.Agree k' (m * n) := by
  induction m with
  | zero => simp [KeyWords.agree_zero]
  | succ m ih =>
    have hlt : ∀ k : KeyWords, m < (stepsOf n k).length := by
      intro k
      rw [length_stepsOf]
      exact hm
    rw [List.take_succ_eq_append_getElem (hlt k), List.take_succ_eq_append_getElem (hlt k'),
      Nat.succ_mul,
      KeyWords.agree_add, ← ih (by omega), ← getStepIndex_eq_iff hn, getElem_stepsOf,
      getElem_stepsOf]
    constructor
    · intro h
      obtain ⟨h₁, h₂⟩ := List.append_inj' h rfl
      exact ⟨h₁, by simpa using h₂⟩
    · rintro ⟨h₁, h₂⟩
      rw [h₁, h₂]

theorem stepsOf_injective (hn : n ∣ 64) : Function.Injective (stepsOf n) := by
  intro k k' h
  have hdvd : n ∣ 256 := hn.trans (by norm_num)
  have hagree : k.Agree k' (256 / n * n) := (take_stepsOf_eq_iff hn le_rfl).mp (by rw [h])
  rw [Nat.div_mul_cancel hdvd] at hagree
  exact KeyWords.eq_of_agree hagree

end

namespace LevelTree

/-! ## The invariant of the nodes -/

/-- The nodes `live` of the tree hold the keys of the pile with numbers `stored`. -/
structure TreeInv (t : LevelTree) (stored live : Set ℕ) (path : ℕ → List ℕ) (loose : Set ℕ) :
    Prop where
  dvd : t.nBitsStep ∣ 64
  shape : Shape t.nodeSize t.nSteps (fun k => stepsOf t.nBitsStep (t.pile k).key) stored t.slot
    live path loose
  live_lt : ∀ x ∈ live, x < t.nNodes
  emptyNodes : t.emptyNodes = []

/-- Only nodes were changed. -/
structure SamePile (t t' : LevelTree) : Prop where
  nBitsStep : t'.nBitsStep = t.nBitsStep
  useInsertCounters : t'.useInsertCounters = t.useInsertCounters
  pile : t'.pile = t.pile
  nKeys : t'.nKeys = t.nKeys
  emptyKeys : t'.emptyKeys = t.emptyKeys

theorem SamePile.refl (t : LevelTree) : SamePile t t := ⟨rfl, rfl, rfl, rfl, rfl⟩

theorem SamePile.trans {t t' t'' : LevelTree} (h : SamePile t t') (h' : SamePile t' t'') :
    SamePile t t'' :=
  ⟨h'.1.trans h.1, h'.2.trans h.2, h'.3.trans h.3, h'.4.trans h.4, h'.5.trans h.5⟩

variable {t t' : LevelTree} {stored live : Set ℕ} {path : ℕ → List ℕ} {loose : Set ℕ}
  {key : KeyWords} {x y i j : ℕ} {v : ℤ}

theorem samePile_setSlot : SamePile t (t.setSlot x i v) := ⟨rfl, rfl, rfl, rfl, rfl⟩

theorem slot_setSlot (hi : i < t.nodeSize) (hj : j < t.nodeSize) :
    (t.setSlot x i v).slot y j = put t.slot x i v y j := by
  have hpos : 0 < t.nodeSize := by unfold nodeSize; positivity
  have hiff : y * t.nodeSize + j = x * t.nodeSize + i ↔ y = x ∧ j = i := by
    constructor
    · intro h
      have hdiv : y = x := by
        have := congrArg (· / t.nodeSize) h
        simpa [Nat.mul_comm _ t.nodeSize, Nat.mul_add_div hpos, Nat.div_eq_of_lt hi,
          Nat.div_eq_of_lt hj] using this
      subst hdiv
      exact ⟨rfl, Nat.add_left_cancel h⟩
    · rintro ⟨rfl, rfl⟩
      rfl
  show Function.update t.nodes (x * t.nodeSize + i) v (y * t.nodeSize + j) = _
  by_cases h : y = x ∧ j = i
  · rw [hiff.mpr h, Function.update_self, h.1, h.2, put_self]
  · rw [Function.update_of_ne (fun h' => h (hiff.mp h')), put_ne h]
    rfl

theorem stepIndex_lt (t : LevelTree) (key : KeyWords) (step : ℕ) :
    t.stepIndex key step < t.nodeSize := getStepIndex_lt _ _ _

/-! ## The descent -/

/-- What is known of the slot where the descent of a key ends. -/
structure AtSpot (t : LevelTree) (live : Set ℕ) (path : ℕ → List ℕ) (key : KeyWords) (p : Spot) :
    Prop where
  mem : p.node ∈ live
  length : (path p.node).length = p.step
  index : p.index = t.stepIndex key p.step
  way : path p.node ++ [p.index] <+: stepsOf t.nBitsStep key
  next : p.next = t.slot p.node p.index
  next_le : p.next ≤ 0
  above : Above live path p.node p.above

theorem step_on_way (h : TreeInv t stored live path loose) (hx : x ∈ live)
    (hp : path x <+: stepsOf t.nBitsStep key) :
    path x ++ [t.stepIndex key (path x).length] <+: stepsOf t.nBitsStep key := by
  have hlt : (path x).length < (stepsOf t.nBitsStep key).length := by
    rw [length_stepsOf]
    exact h.shape.path_lt x hx
  have := concat_prefix hp hlt
  rwa [getElem_stepsOf] at this

theorem descend_spec (h : TreeInv t stored live path loose) {m : ℕ} : ∀ {step x above},
    x ∈ live → (path x).length = step → step + m = t.nSteps →
      path x <+: stepsOf t.nBitsStep key → Above live path x above →
      ∃ p, t.descend key m step x above = some p ∧ AtSpot t live path key p := by
  induction m with
  | zero =>
    intro step x above hx hlen hm _ _
    have := h.shape.path_lt x hx
    omega
  | succ m ih =>
    intro step x above hx hlen hm hp habove
    have hway := step_on_way h hx hp
    rw [hlen] at hway
    unfold descend
    simp only
    split
    · rename_i hpos
      obtain ⟨hy, hpath⟩ := h.shape.child x hx _ (stepIndex_lt t key step) hpos
      refine ih hy ?_ (by omega) (hpath ▸ hway) ⟨hx, ⟨_, hpath⟩, habove⟩
      rw [hpath, List.length_append, hlen]
      rfl
    · rename_i hle
      exact ⟨_, rfl, hx, hlen, rfl, hway, rfl, not_lt.mp hle, habove⟩

/-- The descent of a key ends at its slot. -/
theorem find_spec (h : TreeInv t stored live path loose) (key : KeyWords) :
    ∃ p, t.find key = some p ∧ AtSpot t live path key p := by
  have h0 := h.shape.path_root
  exact descend_spec h h.shape.root_mem (by simp [h0]) (Nat.zero_add _) (by simp [h0]) rfl

/-! ## `insertSplit` -/

theorem addNode_setSlot (t : LevelTree) (x i : ℕ) (v : ℤ) :
    (t.setSlot x i v).addNode = (t.addNode.1.setSlot x i v, t.addNode.2) := by
  unfold addNode setSlot nodeSize
  cases t.emptyNodes <;> rfl

theorem setSlot_setSlot (t : LevelTree) (x i : ℕ) (v w : ℤ) :
    (t.setSlot x i v).setSlot x i w = t.setSlot x i w := by
  unfold setSlot nodeSize
  simp only [Function.update_idem]

theorem setSlot_comm (t : LevelTree) (x : ℕ) (hij : i ≠ j) (v w : ℤ) :
    (t.setSlot x i v).setSlot x j w = (t.setSlot x j w).setSlot x i v := by
  unfold setSlot nodeSize
  simp only
  rw [Function.update_comm]
  omega

/-- The slot where the loop starts is overwritten first. -/
theorem insertSplit_setSlot (mixedKey pileKey : KeyWords) (kv pv : ℤ) (m : ℕ) (t : LevelTree)
    (step x i : ℕ) (v : ℤ) : insertSplit mixedKey pileKey kv pv m (t.setSlot x i v) step x i =
      insertSplit mixedKey pileKey kv pv m t step x i := by
  cases m with
  | zero => rfl
  | succ m =>
    unfold insertSplit
    simp only [addNode_setSlot, setSlot_setSlot]

/-- The key number `k` is in a slot of its own, on its way. -/
structure InSlot (t : LevelTree) (live : Set ℕ) (path : ℕ → List ℕ) (k y j : ℕ) : Prop where
  mem : y ∈ live
  lt : j < t.nodeSize
  slot : t.slot y j = -(k : ℤ)
  way : path y ++ [j] <+: stepsOf t.nBitsStep (t.pile k).key

theorem TreeInv.addNode_eq (h : TreeInv t stored live path loose) :
    t.addNode = ({ t with nNodes := t.nNodes + 1 }, t.nNodes) := by
  simp only [addNode, h.emptyNodes]

theorem TreeInv.notMem_nNodes (h : TreeInv t stored live path loose) : t.nNodes ∉ live :=
  fun hmem => lt_irrefl _ (h.live_lt _ hmem)

/-- The slots after a new node was put in a slot, and another value into the new node. -/
theorem slot_deepen (t : LevelTree) (n : ℕ) (hi : i < t.nodeSize) (hj : j < t.nodeSize) (a : ℕ) {j' : ℕ}
    (hj' : j' < t.nodeSize) :
    (({ t with nNodes := n }.setSlot x i a).setSlot a j v).slot y j' =
      put (put t.slot x i a) a j v y j' := by
  have houter : (({ t with nNodes := n }.setSlot x i a).setSlot a j v).slot y j' =
      put ({ t with nNodes := n }.setSlot x i a).slot a j v y j' := slot_setSlot hj hj'
  rw [houter]
  unfold put
  split
  · rfl
  · exact slot_setSlot (t := { t with nNodes := n }) hi hj'

/-- After a key has made room by moving to a new node below its slot. -/
theorem TreeInv.deepen (h : TreeInv t stored live path loose) (hl : loose ⊆ {x}) (hx : x ∈ live)
    (hi : i < t.nodeSize) (hv : t.slot x i = v) (hneg : v < 0)
    (hlt : (path x).length + 1 < t.nSteps) (hj : j < t.nodeSize)
    (hp : path x ++ [i] ++ [j] <+: stepsOf t.nBitsStep (t.keyAt v)) :
    TreeInv (({ t with nNodes := t.nNodes + 1 }.setSlot x i t.nNodes).setSlot t.nNodes j v) stored
      (insert t.nNodes live) (Function.update path t.nNodes (path x ++ [i])) {t.nNodes} := by
  subst hv
  refine ⟨h.dvd, ?_, ?_, h.emptyNodes⟩
  · refine (h.shape.deepen hl hx hi hneg h.notMem_nNodes hlt hj hp).congr_slot ?_
    intro y j' hj'
    exact slot_deepen t _ hi hj _ hj'
  · rintro y (rfl | hy)
    · exact Nat.lt_succ_self _
    · exact (h.live_lt y hy).trans (Nat.lt_succ_self _)

/-- After a key of the pile has got a slot of its own. -/
theorem TreeInv.add (h : TreeInv t stored live path loose) (hx : x ∈ live) (hi : i < t.nodeSize)
    (hs : t.slot x i = 0) {k : ℕ} (hk : 0 < k)
    (hp : path x ++ [i] <+: stepsOf t.nBitsStep (t.pile k).key)
    (hnew : ∀ k' ∈ stored, (t.pile k').key ≠ (t.pile k).key) :
    TreeInv (t.setSlot x i (-(k : ℤ))) (insert k stored) live path loose ∧
      InSlot (t.setSlot x i (-(k : ℤ))) live path k x i := by
  have hslot : ∀ y, ∀ j < t.nodeSize,
      (t.setSlot x i (-(k : ℤ))).slot y j = put t.slot x i (-(k : ℤ)) y j :=
    fun y j hj => slot_setSlot hi hj
  refine ⟨⟨h.dvd, ?_, h.live_lt, h.emptyNodes⟩, hx, hi, (hslot x i hi).trans (put_self _ _ _ _), hp⟩
  refine (h.shape.add hx hi hs hk hp length_stepsOf (fun _ => lt_of_mem_stepsOf) ?_).congr_slot hslot
  intro k' hk' heq
  exact hnew k' hk' (stepsOf_injective h.dvd heq)

/-- A node with two keys need not be loose. -/
theorem TreeInv.add_second (h : TreeInv t stored live path {x}) (hx : x ∈ live) (hi : i < t.nodeSize)
    (hj : j < t.nodeSize) (hij : i ≠ j) (hsi : t.slot x i = 0) (hsj : t.slot x j ≠ 0) {k : ℕ}
    (hk : 0 < k) (hp : path x ++ [i] <+: stepsOf t.nBitsStep (t.pile k).key)
    (hnew : ∀ k' ∈ stored, (t.pile k').key ≠ (t.pile k).key) :
    TreeInv (t.setSlot x i (-(k : ℤ))) (insert k stored) live path ∅ ∧
      InSlot (t.setSlot x i (-(k : ℤ))) live path k x i := by
  obtain ⟨hadd, hin⟩ := h.add hx hi hsi hk hp hnew
  refine ⟨⟨hadd.dvd, hadd.shape.tighten ?_, hadd.live_lt, hadd.emptyNodes⟩, hin⟩
  refine .inr (.inr ⟨i, hi, j, hj, hij, ?_, ?_⟩)
  · rw [hin.slot]
    omega
  · rw [slot_setSlot hi hj, put_ne fun h => hij h.2.symm]
    exact hsj

section

variable (h : TreeInv t stored live path loose) {mixedKey pileKey : KeyWords} {kv : ℤ}
  {m step : ℕ}

include h

/-- One round of the loop when the keys go on to the same slot `j` of the new node. -/
theorem insertSplit_same (hj : t.stepIndex mixedKey (step + 1) = j)
    (hj' : t.stepIndex pileKey (step + 1) = j) :
    insertSplit mixedKey pileKey kv v (m + 1) t step x i =
      insertSplit mixedKey pileKey kv v m
        (({ t with nNodes := t.nNodes + 1 }.setSlot x i t.nNodes).setSlot t.nNodes j v)
        (step + 1) t.nNodes j := by
  rw [insertSplit_setSlot, insertSplit]
  simp only [h.addNode_eq]
  refine (if_neg ?_).trans (congrArg _ hj)
  exact not_not.mpr (hj.trans hj'.symm)

/-- The last round of the loop, where the keys part. -/
theorem insertSplit_part
    (hne : t.stepIndex mixedKey (step + 1) ≠ t.stepIndex pileKey (step + 1)) :
    insertSplit mixedKey pileKey kv v (m + 1) t step x i =
      let t₁ := (({ t with nNodes := t.nNodes + 1 }.setSlot x i t.nNodes).setSlot t.nNodes
        (t.stepIndex mixedKey (step + 1)) kv).setSlot t.nNodes (t.stepIndex pileKey (step + 1)) v
      some (t₁, (step + 1) * t.nBitsStep +
        t₁.levelInNode t.nNodes (t.stepIndex mixedKey (step + 1))) := by
  rw [insertSplit]
  simp only [h.addNode_eq]
  exact if_pos hne

end

theorem insertSplit_spec {pileKey : KeyWords} {k m : ℕ} (hk : 0 < k) :
    ∀ {t : LevelTree} {live : Set ℕ} {path : ℕ → List ℕ} {loose : Set ℕ} {step x i : ℕ},
      TreeInv t stored live path loose → loose ⊆ {x} → x ∈ live → i < t.nodeSize →
      t.slot x i = v → v < 0 → t.keyAt v = pileKey → (path x).length = step → (t.pile k).key = key →
      path x ++ [i] <+: stepsOf t.nBitsStep key → step + m = t.nSteps →
      (∀ k' ∈ stored, (t.pile k').key ≠ key) →
      ∃ t' live' path' y j, insertSplit key pileKey (-(k : ℤ)) v m t step x i =
          some (t', (path' y).length * t.nBitsStep + t'.levelInNode y j) ∧
        SamePile t t' ∧ TreeInv t' (insert k stored) live' path' ∅ ∧ InSlot t' live' path' k y j := by
  induction m with
  | zero =>
    intro t live path loose step x i h _ hx _ _ _ _ hlen _ _ hm
    have := h.shape.path_lt x hx
    omega
  | succ m ih =>
    intro t live path loose step x i h hl hx hi hv hneg hpile hlen hkey hway hm hnew
    obtain ⟨hmem, hpway⟩ := h.shape.leaf x hx i hi (by omega)
    have hpkey : (t.pile (-t.slot x i).toNat).key = pileKey := by rw [hv]; exact hpile
    rw [hpkey] at hpway
    have hne : stepsOf t.nBitsStep key ≠ stepsOf t.nBitsStep pileKey := by
      intro heq
      exact hnew _ hmem (hpkey.trans (stepsOf_injective h.dvd heq).symm)
    -- two different keys part before their last step
    have hlen' : (path x ++ [i]).length = step + 1 := by simp [hlen]
    have hlt : step + 1 < 256 / t.nBitsStep := by
      by_contra hge
      have hle := hway.length_le
      rw [length_stepsOf] at hle
      refine hne ((hway.eq_of_length ?_).symm.trans (hpway.eq_of_length ?_))
      · rw [length_stepsOf]; omega
      · rw [length_stepsOf]; omega
    have hnext : ∀ {key' : KeyWords}, path x ++ [i] <+: stepsOf t.nBitsStep key' →
        path x ++ [i] ++ [t.stepIndex key' (step + 1)] <+: stepsOf t.nBitsStep key' := by
      intro key' hpre
      have := concat_prefix hpre (by rw [hlen', length_stepsOf]; exact hlt)
      rwa [getElem_stepsOf, hlen'] at this
    have hdeep := h.deepen hl hx hi hv hneg (by rw [hlen]; exact hlt)
      (stepIndex_lt t pileKey (step + 1)) (by rw [hpile]; exact hnext hpway)
    have hpatha : Function.update path t.nNodes (path x ++ [i]) t.nNodes = path x ++ [i] :=
      Function.update_self _ _ _
    have hi₁ := stepIndex_lt t key (step + 1)
    have hi₂ := stepIndex_lt t pileKey (step + 1)
    by_cases hj : t.stepIndex key (step + 1) = t.stepIndex pileKey (step + 1)
    · rw [insertSplit_same h hj rfl]
      have hslot : (({ t with nNodes := t.nNodes + 1 }.setSlot x i t.nNodes).setSlot t.nNodes
          (t.stepIndex pileKey (step + 1)) v).slot t.nNodes (t.stepIndex pileKey (step + 1)) = v :=
        (slot_deepen t _ hi hi₂ _ hi₂).trans (put_self _ _ _ _)
      obtain ⟨t', live', path', y, j, hrun, hsame, hrest⟩ := ih hdeep subset_rfl
        (Set.mem_insert _ _) hi₂ hslot hneg hpile (by rw [hpatha, hlen']) hkey
        (by rw [hpatha, ← hj]; exact hnext hway) (show step + 1 + m = t.nSteps by omega) hnew
      refine ⟨t', live', path', y, j, hrun, ?_, hrest⟩
      exact ⟨hsame.nBitsStep, hsame.useInsertCounters, hsame.pile, hsame.nKeys, hsame.emptyKeys⟩
    · rw [insertSplit_part h hj, setSlot_comm _ _ hj]
      -- the new key goes into the new node, next to the key that has moved there
      have hslot : ∀ j' < t.nodeSize, (({ t with nNodes := t.nNodes + 1 }.setSlot x i
          t.nNodes).setSlot t.nNodes (t.stepIndex pileKey (step + 1)) v).slot t.nNodes j' =
          if j' = t.stepIndex pileKey (step + 1) then v else 0 := by
        intro j' hj'
        rw [slot_deepen t _ hi hi₂ _ hj']
        by_cases hjj : j' = t.stepIndex pileKey (step + 1)
        · rw [if_pos hjj, hjj, put_self]
        · rw [if_neg hjj, put_ne fun h => hjj h.2, put_ne]
          · exact h.shape.dead _ h.notMem_nNodes _ hj'
          · rintro ⟨rfl, -⟩
            exact h.notMem_nNodes hx
      obtain ⟨hinv, hin⟩ := hdeep.add_second (Set.mem_insert _ _) hi₁ hi₂ hj
        ((hslot _ hi₁).trans (if_neg hj)) (by rw [hslot _ hi₂, if_pos rfl]; exact hneg.ne) hk
        (by rw [hpatha]; exact hkey ▸ hnext (hkey ▸ hway)) fun k' hk' heq =>
          hnew k' hk' (heq.trans hkey)
      refine ⟨_, _, _, _, _, ?_, ?_, hinv, hin⟩
      · rw [hpatha, hlen']
      · exact ⟨rfl, rfl, rfl, rfl, rfl⟩

/-! ## `climb` -/

theorem mem_taken : i ∈ t.taken x ↔ i < t.nodeSize ∧ t.slot x i ≠ 0 := by
  simp [taken]

/-- After a key that was alone in its node has moved to the node above. -/
theorem TreeInv.lift (h : TreeInv t stored live path {x}) (hx : x ∈ live) (hi : i < t.nodeSize)
    (hneg : t.slot x i < 0) (halone : ∀ j < t.nodeSize, j ≠ i → t.slot x j = 0) {up : ℕ}
    (hup : up ∈ live) (hp : path x = path up ++ [j]) :
    TreeInv ((t.setSlot x i 0).setSlot up j (t.slot x i)) stored (live \ {x}) path {up} := by
  obtain ⟨hj, -⟩ := h.shape.slot_of_path hup hx hp
  refine ⟨h.dvd, ?_, fun y hy => h.live_lt y hy.1, h.emptyNodes⟩
  refine (h.shape.lift hx hi hneg halone hup hp).congr_slot ?_
  intro y j' hj'
  have houter : ((t.setSlot x i 0).setSlot up j (t.slot x i)).slot y j' =
      put (t.setSlot x i 0).slot up j (t.slot x i) y j' := slot_setSlot hj hj'
  rw [houter]
  unfold put
  split
  · rfl
  · exact slot_setSlot hi hj'

/-- The step of a key that leads to its node is the last one of the path of the node. -/
theorem stepIndex_of_way {p : List ℕ} {n i j : ℕ} {key : KeyWords}
    (h : p ++ [j] ++ [i] <+: stepsOf n key) : getStepIndex n key p.length = j := by
  have hlt : p.length < (stepsOf n key).length := by
    have := h.length_le
    simp only [List.length_append, List.length_singleton] at this
    omega
  have hget := (List.IsPrefix.getElem h (show p.length < (p ++ [j] ++ [i]).length by simp)).symm
  rw [getElem_stepsOf] at hget
  simpa using hget

theorem climb_spec {above : List ℕ} : ∀ {t : LevelTree} {live : Set ℕ} {step x : ℕ},
    TreeInv t stored live path {x} → x ∈ live → Above live path x above → (path x).length = step →
      (x ≠ 0 → ∃ i < t.nodeSize, t.slot x i ≠ 0) →
      SamePile t (t.climb step x above) ∧
        ∃ live', TreeInv (t.climb step x above) stored live' path ∅ := by
  induction above with
  | nil =>
    intro t live step x h hx habove hlen hne
    exact ⟨SamePile.refl t, live, h.dvd, h.shape.tighten (.inl habove), h.live_lt, h.emptyNodes⟩
  | cons up above ih =>
    intro t live step x h hx habove hlen hne
    obtain ⟨hup, ⟨j, hj⟩, habove'⟩ := habove
    have hx0 : x ≠ 0 := by
      rintro rfl
      simp [h.shape.path_root] at hj
    obtain ⟨i₀, hi₀, hs₀⟩ := hne hx0
    have hmem₀ := mem_taken.mpr ⟨hi₀, hs₀⟩
    unfold climb
    split
    · rename_i i htaken
      have htaken' : ∀ j, j ∈ t.taken x ↔ j = i := by simp [htaken]
      obtain ⟨hi, hsi⟩ := mem_taken.mp ((htaken' i).mpr rfl)
      simp only
      split
      · rename_i hneg
        have halone : ∀ j < t.nodeSize, j ≠ i → t.slot x j = 0 := by
          intro j hj hji
          by_contra hsj
          exact hji ((htaken' j).mp (mem_taken.mpr ⟨hj, hsj⟩))
        -- the key moves to the slot that pointed to its node
        have hway := (h.shape.leaf x hx i hi hneg).2
        have hstep : step - 1 = (path up).length := by
          rw [← hlen, hj]
          simp
        have hindex : t.stepIndex (t.keyAt (t.slot x i)) (step - 1) = j := by
          rw [hstep]
          rw [hj] at hway
          exact stepIndex_of_way hway
        have hindex' : (t.setSlot x i 0).stepIndex ((t.setSlot x i 0).keyAt (t.slot x i))
            (step - 1) = j := hindex
        rw [hindex']
        obtain ⟨hj', -⟩ := h.shape.slot_of_path hup hx hj
        have hlt : (path up).length ≤ (path x).length := by
          rw [hj]
          simp
        have hupx : up ≠ x := by
          rintro rfl
          simpa using congrArg List.length hj
        obtain ⟨hsame, hinv⟩ := ih (h.lift hx hi hneg halone hup hj) ⟨hup, hupx⟩
          (habove'.erase hlt) hstep.symm fun _ => ⟨j, hj', by
            have hself : ((t.setSlot x i 0).setSlot up j (t.slot x i)).slot up j = t.slot x i :=
              (slot_setSlot (t := t.setSlot x i 0) hj' hj').trans (put_self _ _ _ _)
            rw [hself]
            exact hneg.ne⟩
        exact ⟨SamePile.trans (SamePile.trans samePile_setSlot samePile_setSlot) hsame, hinv⟩
      · rename_i hge
        refine ⟨SamePile.refl t, live, h.dvd, h.shape.tighten (.inr (.inl ⟨i, hi, ?_⟩)), h.live_lt,
          h.emptyNodes⟩
        omega
    · rename_i hmany
      have hnodup : (t.taken x).Nodup := List.nodup_range.filter _
      refine ⟨SamePile.refl t, live, h.dvd, h.shape.tighten (.inr (.inr ?_)), h.live_lt,
        h.emptyNodes⟩
      match htaken : t.taken x with
      | [] => simp [htaken] at hmem₀
      | [i] => exact absurd htaken (hmany i)
      | i :: j :: rest =>
        obtain ⟨hi, hsi⟩ := mem_taken.mp (htaken ▸ List.mem_cons_self : i ∈ t.taken x)
        obtain ⟨hj, hsj⟩ := mem_taken.mp
          (htaken ▸ List.mem_cons_of_mem _ List.mem_cons_self : j ∈ t.taken x)
        rw [htaken] at hnodup
        exact ⟨i, hi, j, hj, fun h => (List.nodup_cons.mp hnodup).1 (h ▸ List.mem_cons_self), hsi, hsj⟩

end LevelTree

end ZkevmProver
