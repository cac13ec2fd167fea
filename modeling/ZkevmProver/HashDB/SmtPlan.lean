import ZkevmProver.HashDB.SmtStore

/-!
# What `Smt::set` does to the tree

On a store that holds a tree, `Smt::get` and `Smt::set` walk from its root to where the trie walk
ends, and know what is there.  `plan` says, for each end of the walk, which position of the tree
`set` replaces, by what, and what it reports.  The tree it leaves is again well formed, and is the
old map with one key written.

  1. The walk down the tree.
  2. Where two keys part.
  3. The plan.
  4. The tree of a plan is well formed.
  5. The tree of a plan represents the updated map.
-/

namespace ZkevmProver

open Effects PrefixTrie PrefixTrie.Trie

/-! ## The walk down the tree -/

/-- A node with two keys is above level 256: its keys agree on all bits above it. -/
theorem length_lt_of_node {sp : TreeSpine} {l r : Tree} (hwf : WF keyBit sp.length (node l r))
    (hkeys : ∀ k ∈ (node l r).keys, OnPath keyBit k sp) : sp.length < 256 := by
  obtain ⟨k, hk⟩ := List.exists_mem_of_length_pos (l := (node l r).keys)
    (Nat.lt_of_lt_of_le (by decide) hwf.two_le_size)
  obtain ⟨k', hk', hne⟩ := hwf.exists_other k
  obtain ⟨i, hi, hbit⟩ := exists_keyBit_ne hne
  by_contra hlen
  exact hbit ((hkeys k' hk').bit_eq (hkeys k hk) i (by omega))

/-- The bits of the path to a position are the first bits of every key on it. -/
theorem bits_of_onPath {k : Fea} {sp : TreeSpine} (h : OnPath keyBit k sp)
    (hlen : sp.length ≤ 256) : (sp.map Prod.fst).reverse = (splitKey k).take sp.length := by
  induction sp with
  | nil => rfl
  | cons f sp ih =>
    rw [List.length_cons] at hlen
    rw [List.map_cons, List.reverse_cons, ih h.2 (by omega), take_splitKey k (by omega),
      List.length_cons, take_splitKey k hlen, List.range_succ, List.map_append, ← h.1]
    rfl

namespace Smt

section Walk

variable {σ : Type} {h : SmtHandler σ} {ctx : SmtContext} {S : NodeStore h ctx}
variable {smt : Smt} {R : Set (Fea × Node)}

/-- What the walk finds at the position of a subtree. -/
def foundAt (smt : Smt) (ℓ : ℕ) : Tree → Option Found
  | leaf k v => some {
      foundKey := k
      foundRKey := removeKeyBits smt.shift k ℓ
      foundValueHash := smt.poseidon (valueNode v)
      foundValue := v }
  | _ => none

/-- The end of the walk for a key, at a position of a tree. -/
def endOf (smt : Smt) (p : TreeSpine × Tree) : Descent :=
  ⟨smt.pathOf p.1 p.2, smt.foundAt p.1.length p.2⟩

theorem accKey_pathOf (sp : TreeSpine) (t : Tree) :
    accKey (smt.pathOf sp t) = (sp.map Prod.fst).reverse := by
  rw [accKey, map_fst_pathOf]

theorem joinKey_accKey (smt : Smt) {k : Fea} {sp : TreeSpine} (hk : OnPath keyBit k sp)
    (hlen : sp.length ≤ 256) (t : Tree) :
    joinKey smt.shift (accKey (smt.pathOf sp t)) (removeKeyBits smt.shift k sp.length) = k := by
  rw [accKey_pathOf, bits_of_onPath hk hlen, joinKey_removeKeyBits _ _ hlen]

/-- **The walk.**  On a store that holds a subtree, `descend` ends where the walk in the trie
does. -/
theorem reads_descend (hR : CollisionFree R) (k : Fea) {sp : TreeSpine} {t : Tree}
    (hlen : sp.length ≤ 256) (hwf : WF keyBit sp.length t)
    (hkeys : ∀ k' ∈ t.keys, OnPath keyBit k' sp) (hold : smt.Holds R sp.length t) :
    S.Reads R
      (smt.descend ((splitKey k).drop sp.length) (smt.digest sp.length t) (smt.pathOf sp t))
      (smt.endOf (locate keyBit k sp.length t sp)) := by
  induction t generalizing sp with
  | empty =>
    unfold descend
    rw [if_pos (digest_empty _ _)]
    exact NodeStore.reads_pure _
  | leaf k' v =>
    have hne := hold.digest_ne_zero hR (by simp)
    obtain ⟨hv, hval, hleaf⟩ := hold
    unfold descend
    rw [if_neg hne]
    refine (NodeStore.reads_readNode hR hleaf).bind ?_
    rw [if_pos (isLeaf_leafNode _ _ _ _)]
    refine (NodeStore.reads_readValue smt hR hv.2 hval).bind ?_
    simp only [leafNode, joinKey_accKey smt (hkeys k' (by simp)) hlen]
    exact NodeStore.reads_pure _
  | node l r ihl ihr =>
    have hne := hold.digest_ne_zero hR (by simp)
    have hlt := length_lt_of_node hwf hkeys
    obtain ⟨⟨hl, hr⟩, -, wl, wr⟩ := hwf
    obtain ⟨hrow, holdl, holdr⟩ := hold
    unfold descend
    rw [if_neg hne]
    refine (NodeStore.reads_readNode hR hrow).bind ?_
    rw [isLeaf_mk_zero, if_neg Bool.false_ne_true, drop_splitKey k hlt]
    simp only [keys_node, List.mem_append] at hkeys
    unfold locate
    cases hb : keyBit k sp.length with
    | false =>
      rw [if_neg (by decide)]
      exact @ihl ((false, r) :: sp) hlt wl
        (fun k' hk' => ⟨hl k' hk', hkeys k' (Or.inl hk')⟩) holdl
    | true =>
      rw [if_pos rfl]
      exact @ihr ((true, l) :: sp) hlt wr
        (fun k' hk' => ⟨hr k' hk', hkeys k' (Or.inr hk')⟩) holdr

/-- The walk from the root. -/
theorem reads_descend_root (hR : CollisionFree R) (k : Fea) {t : Tree} (hwf : WF keyBit 0 t)
    (hold : smt.Holds R 0 t) :
    S.Reads R (smt.descend (splitKey k) (smt.digest 0 t) []) (smt.endOf (locate keyBit k 0 t [])) :=
  reads_descend hR k (show ([] : TreeSpine).length ≤ 256 from Nat.zero_le _) hwf
    (fun _ _ => trivial) hold

end Walk

/-! ## Where two keys part -/

/-- The number of bits that two keys have in common from level `ℓ` on. -/
def commonLevels (key foundKey : Fea) (ℓ : ℕ) : ℕ :=
  ((commonBits ((splitKey key).drop ℓ) ((splitKey foundKey).drop ℓ)).map (·.1.length)).getD 0

/-- Two keys that agree above level `ℓ` part at a level below it, where the loop of `set` stops. -/
theorem commonBits_splitKey {k k' : Fea} (hne : k ≠ k') {ℓ : ℕ}
    (hℓ : ∀ i < ℓ, keyBit k i = keyBit k' i) : ∃ n, ℓ + n < 256 ∧
      (∀ i < n, keyBit k' (ℓ + i) = keyBit k (ℓ + i)) ∧
      keyBit k' (ℓ + n) = !keyBit k (ℓ + n) ∧
      commonBits ((splitKey k).drop ℓ) ((splitKey k').drop ℓ) =
        some ((List.range n).map fun i => keyBit k (ℓ + i), keyBit k (ℓ + n)) := by
  obtain ⟨j, hj, hbit⟩ := exists_keyBit_ne hne
  have hlt : ℓ < 256 := by
    by_contra hge
    exact hbit (hℓ j (by omega))
  -- by the levels left: each round consumes one
  induction hm : 256 - ℓ generalizing ℓ with
  | zero => omega
  | succ m ih =>
    rw [drop_splitKey k hlt, drop_splitKey k' hlt]
    by_cases hb : keyBit k ℓ = keyBit k' ℓ
    · have hℓ' : ∀ i < ℓ + 1, keyBit k i = keyBit k' i := by
        intro i hi
        rcases Nat.lt_succ_iff_lt_or_eq.mp hi with hi | rfl
        · exact hℓ i hi
        · exact hb
      have hlt' : ℓ + 1 < 256 := by
        by_contra hge
        exact hbit (hℓ' j (by omega))
      obtain ⟨n, hn, heq, hpart, hc⟩ := ih hℓ' hlt' (by omega)
      refine ⟨n + 1, by omega, ?_, ?_, ?_⟩
      · intro i hi
        cases i with
        | zero => exact hb.symm
        | succ i =>
          rw [show ℓ + (i + 1) = ℓ + 1 + i by omega]
          exact heq i (by omega)
      · rw [show ℓ + (n + 1) = ℓ + 1 + n by omega]
        exact hpart
      · rw [commonBits, if_pos hb, hc, List.range_succ_eq_map]
        simp [Nat.add_comm, Nat.add_left_comm]
    · refine ⟨0, by omega, by simp, ?_, ?_⟩
      · simpa using (Bool.eq_not_of_ne (Ne.symm hb))
      · rw [commonBits, if_neg hb]
        rfl

theorem commonLevels_spec {k k' : Fea} (hne : k ≠ k') {ℓ : ℕ}
    (hℓ : ∀ i < ℓ, keyBit k i = keyBit k' i) :
    (∀ i < commonLevels k k' ℓ, keyBit k' (ℓ + i) = keyBit k (ℓ + i)) ∧
      keyBit k' (ℓ + commonLevels k k' ℓ) = !keyBit k (ℓ + commonLevels k k' ℓ) ∧
      commonBits ((splitKey k).drop ℓ) ((splitKey k').drop ℓ) =
        some ((List.range (commonLevels k k' ℓ)).map fun i => keyBit k (ℓ + i),
          keyBit k (ℓ + commonLevels k k' ℓ)) := by
  obtain ⟨n, -, heq, hpart, hc⟩ := commonBits_splitKey hne hℓ
  have hn : commonLevels k k' ℓ = n := by simp [commonLevels, hc]
  rw [hn]
  exact ⟨heq, hpart, hc⟩

/-! ## The plan -/

/-- What a call of `set` is to do: the mode, the position it replaces and the subtree it puts there,
and what it reports besides. -/
structure Plan where
  mode : Mode
  spine : TreeSpine
  sub : Tree
  /-- The other leaf that the walk or the deletion met. -/
  ins : Option (Fea × ℕ) := none
  oldValue : ℕ := 0
  siblingChildren : Fea × Fea := (0, 0)
  /-- The hashes counted before the climb. -/
  proofHashCounter : ℕ

/-- The tree that the plan leaves. -/
def Plan.tree (p : Plan) : Tree := plug p.spine p.sub

/-- The hashes of the children of a node. -/
def childDigests (smt : Smt) (ℓ : ℕ) : Tree → Fea × Fea
  | node l r => (smt.digest (ℓ + 1) l, smt.digest (ℓ + 1) r)
  | _ => (0, 0)

/-- The plan of a deletion, by what is beside the deleted leaf. -/
def planDelete (smt : Smt) (oldValue : ℕ) (counter : ℕ) : TreeSpine → Plan
  | [] =>
    { mode := .deleteNotFound, spine := [], sub := empty, oldValue, proofHashCounter := counter }
  | (b, s) :: above =>
    match s with
    | leaf k' v' =>
      let spine := above.dropWhile fun f => f.2.isEmpty
      { mode := .deleteFound, spine, sub := leaf k' v', ins := some (k', v'), oldValue
        proofHashCounter := counter + 3 }
    | s =>
      { mode := .deleteNotFound, spine := (b, s) :: above, sub := empty, oldValue
        siblingChildren := smt.childDigests (above.length + 1) s
        proofHashCounter := counter + 1 }

/-- The hashes that the walk to a position accounts for. -/
def walkHashes : TreeSpine × Tree → ℕ
  | (sp, empty) => sp.length
  | (sp, _) => sp.length + 2

/-- The plan of `set`, for the end of the walk. -/
def plan (smt : Smt) (key : Fea) (value : ℕ) (p : TreeSpine × Tree) : Plan :=
  let sp := p.1
  let counter := walkHashes p
  if value ≠ 0 then
    match p.2 with
    | leaf k' v' =>
      if key = k' then
        { mode := .update, spine := sp, sub := leaf key value, oldValue := v'
          proofHashCounter := counter + 2 }
      else
        let n := commonLevels key k' sp.length
        { mode := .insertFound, spine := sp, sub := fork keyBit key value k' v' sp.length n
          ins := some (k', v'), proofHashCounter := counter + 4 + n }
    | _ =>
      { mode := .insertNotFound, spine := sp, sub := leaf key value
        proofHashCounter := counter + 2 }
  else
    match p.2 with
    | leaf k' v' =>
      if key = k' then planDelete smt v' counter sp
      else
        { mode := .zeroToZero, spine := sp, sub := leaf k' v', ins := some (k', v')
          proofHashCounter := counter }
    | e => { mode := .zeroToZero, spine := sp, sub := e, proofHashCounter := counter }

/-! ## The tree of a plan -/

/-- The position `(sp, e)` is where the walk for `k` ends in a well-formed tree. -/
structure Located (k : Fea) (sp : TreeSpine) (e : Tree) : Prop where
  wf : WF keyBit 0 (plug sp e)
  onPath : OnPath keyBit k sp
  ends : e = empty ∨ ∃ k' v', e = leaf k' v'

theorem plug_locate_root (k : Fea) (t : Tree) :
    plug (locate keyBit k 0 t []).1 (locate keyBit k 0 t []).2 = t :=
  plug_locate k 0 t []

theorem located_locate (k : Fea) {t : Tree} (h : WF keyBit 0 t) :
    Located k (locate keyBit k 0 t []).1 (locate keyBit k 0 t []).2 where
  wf := by rwa [plug_locate_root]
  onPath := onPath_locate k t rfl trivial
  ends := locate_cases k 0 t []

variable {smt : Smt} {k : Fea} {sp : TreeSpine} {e : Tree}

theorem Located.keys_onPath (h : Located k sp e) : ∀ k' ∈ e.keys, OnPath keyBit k' sp :=
  (wf_plug_iff.mp h.wf).2.2.1

theorem Located.length_le (h : Located k sp e) : sp.length ≤ 256 := by
  cases sp with
  | nil => exact Nat.zero_le _
  | cons f above =>
    obtain ⟨b, s⟩ := f
    obtain ⟨-, hwf, hkeys, -⟩ := wf_plug_iff.mp (show WF keyBit 0 (plug above (join b e s)) from h.wf)
    cases b <;> exact length_lt_of_node hwf hkeys

theorem Located.full (h : Located k sp e) : Full sp e.size := (wf_plug_iff.mp h.wf).2.2.2

/-- Another leaf at the end of the walk parts from the key below the position. -/
theorem Located.commonLevels_spec {k' : Fea} {v' : ℕ} (h : Located k sp (leaf k' v'))
    (hne : k ≠ k') :
    (∀ i < commonLevels k k' sp.length,
        keyBit k' (sp.length + i) = keyBit k (sp.length + i)) ∧
      keyBit k' (sp.length + commonLevels k k' sp.length) =
        !keyBit k (sp.length + commonLevels k k' sp.length) ∧
      commonBits ((splitKey k).drop sp.length) ((splitKey k').drop sp.length) =
        some ((List.range (commonLevels k k' sp.length)).map fun i => keyBit k (sp.length + i),
          keyBit k (sp.length + commonLevels k k' sp.length)) :=
  Smt.commonLevels_spec hne (h.onPath.bit_eq (h.keys_onPath k' (by simp)))

/-- A deletion leaves the tree with the position emptied, a lone leaf lifted. -/
theorem planDelete_tree (oldValue counter : ℕ) (hf : Full sp 1) :
    (planDelete smt oldValue counter sp).tree = lift sp empty := by
  cases sp with
  | nil => rfl
  | cons f above =>
    obtain ⟨b, s⟩ := f
    cases s with
    | empty => exact absurd hf.1 (by simp)
    | leaf k' v' => exact (lift_leaf above k' v').symm
    | node l r => exact (lift_join above b empty (node l r)).symm

/-- **The plan keeps the tree well formed.** -/
theorem plan_wf (h : Located k sp e) (v : ℕ) : WF keyBit 0 (plan smt k v (sp, e)).tree := by
  by_cases hv : v = 0
  · rcases h.ends with rfl | ⟨k', v', rfl⟩
    · rw [plan, if_neg (by simpa using hv)]
      exact h.wf
    · by_cases hk : k = k'
      · obtain ⟨hsp, -⟩ := wf_plug_iff.mp h.wf
        simp only [plan, ne_eq, hv, not_true_eq_false, if_false, hk, if_true]
        rw [planDelete_tree _ _ h.full]
        exact (lift_spec (t := empty) hsp (wf_empty _ _) (by simp)).1
      · simp only [plan, ne_eq, hv, not_true_eq_false, if_false, hk]
        exact h.wf
  · rcases h.ends with rfl | ⟨k', v', rfl⟩
    · simp only [plan, ne_eq, hv, not_false_eq_true, if_true]
      exact wf_replace h.wf trivial (by simpa using h.onPath) (by simp)
    · by_cases hk : k = k'
      · simp only [plan, ne_eq, hv, not_false_eq_true, if_true, hk]
        exact wf_replace h.wf trivial (by simpa [hk] using h.onPath) (by simp)
      · obtain ⟨heq, hpart, -⟩ := h.commonLevels_spec hk
        simp only [plan, ne_eq, hv, not_false_eq_true, if_true, hk, if_false]
        refine wf_replace h.wf (wf_fork v v' heq hpart) ?_ (by simp [size_fork])
        intro x hx
        rcases mem_keys_fork.mp hx with rfl | rfl
        · exact h.onPath
        · exact h.keys_onPath _ (by simp)

/-- **The plan writes one key.** -/
theorem plan_get (h : Located k sp e) (v : ℕ) (k' : Fea) :
    Trie.get keyBit 0 (plan smt k v (sp, e)).tree k' =
      if k' = k then if v = 0 then none else some v else Trie.get keyBit 0 (plug sp e) k' := by
  by_cases hv : v = 0
  · rw [if_pos hv]
    rcases h.ends with rfl | ⟨k₁, v₁, rfl⟩
    · simp only [plan, ne_eq, hv, not_true_eq_false, if_false, Plan.tree]
      exact get_replace h.onPath (fun _ _ => rfl) k'
    · by_cases hk : k = k₁
      · subst hk
        obtain ⟨hsp, -⟩ := wf_plug_iff.mp h.wf
        simp only [plan, ne_eq, hv, not_true_eq_false, if_false, if_true]
        rw [planDelete_tree _ _ h.full, (lift_spec (t := empty) hsp (wf_empty _ _) (by simp)).2,
          get_replace h.onPath (t := leaf k v₁) (by intro x hx; simp [hx])]
        rfl
      · simp only [plan, ne_eq, hv, not_true_eq_false, if_false, hk, Plan.tree]
        rw [get_replace h.onPath (fun _ _ => rfl) k', get_leaf, if_neg hk]
        split <;> rfl
  · rw [if_neg hv]
    rcases h.ends with rfl | ⟨k₁, v₁, rfl⟩
    · simp only [plan, ne_eq, hv, not_false_eq_true, if_true, Plan.tree]
      rw [get_replace h.onPath (t := empty) (by intro x hx; simp [hx]), get_leaf, if_pos rfl]
    · by_cases hk : k = k₁
      · subst hk
        simp only [plan, ne_eq, hv, not_false_eq_true, if_true, Plan.tree]
        rw [get_replace h.onPath (t := leaf k v₁) (by intro x hx; simp [hx]), get_leaf, if_pos rfl]
      · obtain ⟨heq, hpart, -⟩ := h.commonLevels_spec hk
        simp only [plan, ne_eq, hv, not_false_eq_true, if_true, hk, if_false, Plan.tree]
        have hfork := get_fork v v₁ hk heq hpart
        rw [get_replace h.onPath (t := leaf k₁ v₁) (by intro x hx; rw [hfork]; simp [hx]), hfork,
          if_pos rfl]

end Smt

end ZkevmProver
