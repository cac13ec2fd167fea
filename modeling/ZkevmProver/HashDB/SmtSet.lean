import ZkevmProver.HashDB.SmtPlan

/-!
# `Smt::set` follows its plan

On a store that holds a tree, a call of `set` on its root succeeds, saves the tree of its plan and
returns what the plan says (`runs_set`).

  1. Paths whose last child has been replaced.
  2. The climb back to the root.
  3. The branches.
  4. The whole call.
-/

namespace ZkevmProver

open Effects PrefixTrie PrefixTrie.Trie

namespace Smt

variable {σ : Type} {h : SmtHandler σ} {ctx : SmtContext} {S : NodeStore h ctx}
variable {smt : Smt} {R : Set (Fea × Node)} {sp : TreeSpine} {x : Tree}

/-! ## Placing a hash at the end of a path -/

/-- The path to a position, with the hash `hash` at the position and the nodes above it still those
of the tree with `y` there. -/
def placed (smt : Smt) : TreeSpine → Tree → Fea → Path
  | [], _, _ => []
  | (b, s) :: sp, y, hash =>
      (b, branchNode b hash (smt.digest (sp.length + 1) s)) :: smt.pathOf sp (join b y s)

theorem placed_digest (smt : Smt) (sp : TreeSpine) (y : Tree) :
    smt.placed sp y (smt.digest sp.length y) = smt.pathOf sp y := by
  cases sp <;> rfl

@[simp] theorem length_placed (sp : TreeSpine) (y : Tree) (hash : Fea) :
    (smt.placed sp y hash).length = sp.length := by
  cases sp with
  | nil => rfl
  | cons f sp => exact congrArg (· + 1) (length_pathOf _ _)

theorem does_place (delete : Bool) (sp : TreeSpine) (y : Tree) (newRoot hash : Fea) :
    S.Does R (place delete (smt.pathOf sp y) newRoot hash)
      (smt.placed sp y hash, if sp = [] then hash else newRoot) R := by
  cases sp with
  | nil => exact NodeStore.does_pure _
  | cons f sp =>
    obtain ⟨b, s⟩ := f
    refine (NodeStore.does_replaceChild _ _ _ _).bind ?_
    rw [setChild_branchNode]
    exact NodeStore.does_pure _

/-! ## The climb up -/

/-- The siblings of level 0, 1, … on the path to a position. -/
def siblingsOf (smt : Smt) (sp : TreeSpine) (x : Tree) : List Node :=
  ((smt.pathOf sp x).map Prod.snd).reverse

theorem siblingsOf_cons (b : Bool) (s : Tree) (sp : TreeSpine) (x : Tree) :
    smt.siblingsOf ((b, s) :: sp) x = smt.siblingsOf sp (join b x s) ++
      [branchNode b (smt.digest (sp.length + 1) x) (smt.digest (sp.length + 1) s)] := by
  simp [siblingsOf, pathOf]

/-- The climb saves the nodes of the path, with `x` at the position, whatever was there before. -/
theorem saves_climb (y : Tree) (hsp : smt.HoldsSpine R sp) (hx : smt.Holds R sp.length x) :
    S.Saves R (smt.climb ctx (smt.pathOf sp y) (smt.digest sp.length x))
      (smt.digest 0 (plug sp x), smt.siblingsOf sp x) fun R' => smt.Holds R' 0 (plug sp x) := by
  induction sp generalizing R x y with
  | nil => exact (NodeStore.does_pure _).saves hx
  | cons f sp ih =>
    obtain ⟨b, s⟩ := f
    obtain ⟨hs, hsp⟩ := hsp
    refine (NodeStore.does_replaceChild _ _ _ _).bind_saves ?_
    rw [setChild_branchNode]
    refine (NodeStore.saves_hashSave smt _).bind fun R₁ hR₁ hrow => ?_
    rw [List.length_cons] at hx ⊢
    rw [← digest_join]
    refine (ih (join b y s) (hsp.mono hR₁)
      ((smt.holds_join).mpr ⟨hrow, hx.mono hR₁, hs.mono hR₁⟩)).bind fun R₂ _ hroot => ?_
    rw [siblingsOf_cons]
    exact (NodeStore.does_pure _).saves hroot

/-- `rebuild` saves the tree with `x` at the position. -/
theorem saves_rebuild (y : Tree) (newRoot : Fea) (hroot : sp = [] → newRoot = smt.digest 0 x)
    (hsp : smt.HoldsSpine R sp) (hx : smt.Holds R sp.length x) :
    S.Saves R (smt.rebuild ctx (smt.placed sp y (smt.digest sp.length x)) newRoot)
      (smt.digest 0 (plug sp x), smt.siblingsOf sp x) fun R' => smt.Holds R' 0 (plug sp x) := by
  cases sp with
  | nil =>
    rw [hroot rfl]
    exact (NodeStore.does_pure _).saves hx
  | cons f sp =>
    obtain ⟨b, s⟩ := f
    obtain ⟨hs, hsp⟩ := hsp
    refine (NodeStore.saves_hashSave smt _).bind fun R₁ hR₁ hrow => ?_
    rw [List.length_cons] at hx ⊢
    rw [← digest_join]
    refine (saves_climb (join b y s) (hsp.mono hR₁)
      ((smt.holds_join).mpr ⟨hrow, hx.mono hR₁, hs.mono hR₁⟩)).bind fun R₂ _ hroot => ?_
    rw [siblingsOf_cons]
    exact (NodeStore.does_pure _).saves hroot

/-! ## Saving leaves and forks -/

/-- The value node and the leaf of a key, at a level. -/
theorem saves_leaf (ℓ : ℕ) (k : Fea) {v : ℕ} (hv : LeafValue v) {β : Type} {f : Fea → SmtM β}
    {b : β} {Q : Set (Fea × Node) → Prop}
    (hf : ∀ R', R ⊆ R' → smt.Holds R' ℓ (leaf k v) →
      S.Saves R' (f (smt.digest ℓ (leaf k v))) b Q) :
    S.Saves R (smt.hashSaveZero (scalar2fea v) >>= fun newValH =>
      smt.hashSaveOne (removeKeyBits smt.shift k ℓ, newValH) >>= f) b Q :=
  (NodeStore.saves_hashSave smt (valueNode v)).bind fun _ hR₁ hval =>
    (NodeStore.saves_hashSave smt (smt.leafNode ℓ k v)).bind fun _ hR₂ hleaf =>
      hf _ (hR₁.trans hR₂) ⟨hv, hR₂ hval, hleaf⟩

theorem extend_append (smt : Smt) (bits bits' : List Bool) (r2 : Fea) :
    smt.extend (bits ++ bits') r2 = smt.extend bits r2 >>= smt.extend bits' := by
  induction bits generalizing r2 with
  | nil => rfl
  | cons b bits ih => simp only [List.cons_append, extend, ih]; rfl

/-- The nodes above the parting of two keys. -/
theorem saves_extend (k k' : Fea) (v v' : ℕ) (ℓ n : ℕ)
    (hf : smt.Holds R (ℓ + n) (fork keyBit k v k' v' (ℓ + n) 0)) :
    S.Saves R
      (smt.extend ((List.range n).map fun i => keyBit k (ℓ + i)).reverse
        (smt.digest (ℓ + n) (fork keyBit k v k' v' (ℓ + n) 0)))
      (smt.digest ℓ (fork keyBit k v k' v' ℓ n))
      fun R' => smt.Holds R' ℓ (fork keyBit k v k' v' ℓ n) := by
  induction n generalizing ℓ with
  | zero => exact (NodeStore.does_pure _).saves hf
  | succ n ih =>
    rw [show ℓ + (n + 1) = ℓ + 1 + n by omega] at hf ⊢
    have hbits : ((List.range (n + 1)).map fun i => keyBit k (ℓ + i)).reverse =
        ((List.range n).map fun i => keyBit k (ℓ + 1 + i)).reverse ++ [keyBit k ℓ] := by
      rw [List.range_succ_eq_map]
      simp [Nat.add_comm, Nat.add_left_comm]
    rw [hbits, extend_append]
    refine (ih (ℓ + 1) hf).bind fun R₁ _ hsub => ?_
    refine (NodeStore.saves_hashSave smt _).bind fun R₂ hR₂ hrow => ?_
    refine NodeStore.Does.saves ?_ ((smt.holds_join).mpr ⟨hrow, hsub.mono hR₂, trivial⟩)
    rw [fork_succ, digest_join]
    exact NodeStore.does_pure _

/-! ## The branches -/

/-- The state in which a branch leaves the call, for its plan: the path still has above the position
the nodes of the tree with `y` there. -/
def stateOf (smt : Smt) (p : Plan) (y : Tree) (newRoot : Fea) : SetState where
  mode := p.mode
  path := smt.placed p.spine y (smt.digest p.spine.length p.sub)
  newRoot := newRoot
  insKey := (p.ins.map Prod.fst).getD 0
  insValue := (p.ins.map Prod.snd).getD 0
  isOld0 := p.ins.isNone
  oldValue := p.oldValue
  siblingLeftChild := p.siblingChildren.1
  siblingRightChild := p.siblingChildren.2
  proofHashCounter := p.proofHashCounter

/-- A branch has followed its plan: the subtree of the plan is saved, and is in place. -/
def Follows (S : NodeStore h ctx) (smt : Smt) (R : Set (Fea × Node)) (m : SmtM SetState)
    (p : Plan) : Prop :=
  ∃ y newRoot, (p.spine = [] → newRoot = smt.digest 0 p.sub) ∧ smt.HoldsSpine R p.spine ∧
    S.Saves R m (smt.stateOf p y newRoot) fun R' => smt.Holds R' p.spine.length p.sub

variable {k : Fea} {v : ℕ}

theorem follows_setUpdate {v₀ : ℕ} (hv : LeafValue v) (hsp : smt.HoldsSpine R sp)
    (newRoot : Fea) (counter : ℕ) :
    Follows S smt R
      (smt.setUpdate ctx v
        ⟨k, removeKeyBits smt.shift k sp.length, smt.poseidon (valueNode v₀), v₀⟩
        (smt.pathOf sp (leaf k v₀)) newRoot counter)
      { mode := .update, spine := sp, sub := leaf k v, oldValue := v₀
        proofHashCounter := counter + 2 } := by
  refine ⟨leaf k v₀, if sp = [] then smt.digest sp.length (leaf k v) else newRoot, ?_, hsp, ?_⟩
  · rintro rfl
    exact if_pos rfl
  · refine saves_leaf sp.length k hv fun R₁ _ hleaf => ?_
    refine (does_place _ _ _ _ _).bind_saves ?_
    exact (NodeStore.does_pure _).saves hleaf

theorem follows_setInsertNotFound (hv : LeafValue v) (hsp : smt.HoldsSpine R sp)
    (newRoot : Fea) (counter : ℕ) :
    Follows S smt R (smt.setInsertNotFound ctx k v (smt.pathOf sp empty) newRoot counter)
      { mode := .insertNotFound, spine := sp, sub := leaf k v
        proofHashCounter := counter + 2 } := by
  refine ⟨empty, if sp = [] then smt.digest sp.length (leaf k v) else newRoot, ?_, hsp, ?_⟩
  · rintro rfl
    exact if_pos rfl
  · unfold setInsertNotFound
    rw [length_pathOf]
    refine saves_leaf sp.length k hv fun R₁ _ hleaf => ?_
    refine (does_place _ _ _ _ _).bind_saves ?_
    exact (NodeStore.does_pure _).saves hleaf

theorem follows_setInsertFound {k' : Fea} {v' : ℕ} (hv : LeafValue v)
    (loc : Located k sp (leaf k' v')) (hne : k ≠ k') (hsp : smt.HoldsSpine R sp)
    (hold : smt.Holds R sp.length (leaf k' v')) (newRoot : Fea) (counter : ℕ) :
    Follows S smt R
      (smt.setInsertFound k v
        ⟨k', removeKeyBits smt.shift k' sp.length, smt.poseidon (valueNode v'), v'⟩
        (smt.pathOf sp (leaf k' v')) newRoot counter)
      { mode := .insertFound, spine := sp
        sub := fork keyBit k v k' v' sp.length (commonLevels k k' sp.length)
        ins := some (k', v')
        proofHashCounter := counter + 4 + commonLevels k k' sp.length } := by
  obtain ⟨-, -, hcommon⟩ := loc.commonLevels_spec hne
  obtain ⟨hv', hval', -⟩ := hold
  set n := commonLevels k k' sp.length
  set x := fork keyBit k v k' v' sp.length n
  refine ⟨leaf k' v', if sp = [] then smt.digest sp.length x else newRoot, ?_, hsp, ?_⟩
  · rintro rfl
    exact if_pos rfl
  · unfold setInsertFound
    simp only [length_pathOf, hcommon, List.length_map, List.length_range]
    refine (NodeStore.saves_hashSave smt (smt.leafNode _ k' v')).bind fun R₁ hR₁ hold' => ?_
    refine saves_leaf (sp.length + n + 1) k hv fun R₂ hR₂ hnew => ?_
    refine (NodeStore.saves_hashSave smt _).bind fun R₃ hR₃ hrow => ?_
    have hfork : smt.Holds R₃ (sp.length + n) (fork keyBit k v k' v' (sp.length + n) 0) := by
      refine (smt.holds_join).mpr ⟨hrow, hnew.mono hR₃, hv', ?_, ?_⟩
      · exact hR₃ (hR₂ (hR₁ hval'))
      · exact hR₃ (hR₂ hold')
    have hext := saves_extend (S := S) k k' v v' sp.length n hfork
    rw [fork_zero, digest_join] at hext
    refine hext.bind fun R₄ _ hx => ?_
    refine (does_place _ _ _ _ _).bind_saves ?_
    exact (NodeStore.does_pure _).saves hx

/-! ## Deletions -/

/-- The index of the right child, or of the left one. -/
def sideIndex (b : Bool) : Fin 3 := if b then 1 else 0

/-- Once a child is zero, the only sibling is the other one. -/
theorem getUniqueSibling_zero (b : Bool) {d : Fea} (hd : d ≠ 0) :
    getUniqueSibling (branchNode b 0 d) = some (sideIndex (!b)) := by
  cases b <;> simp [getUniqueSibling, branchNode, sides, Node.group, List.finRange, hd, sideIndex]

/-- A node over something has one child exactly when there is nothing on the other side. -/
theorem isSome_getUniqueSibling (b : Bool) {d : Fea} (hd : d ≠ 0) (d' : Fea) :
    (getUniqueSibling (branchNode b d d')).isSome = decide (d' = 0) := by
  by_cases hd' : d' = 0 <;> cases b <;>
    simp [getUniqueSibling, branchNode, sides, Node.group, List.finRange, hd, hd']

theorem group_sideIndex (b : Bool) (x y : Fea) :
    (branchNode b x y).group (sideIndex (!b)) = y := by
  cases b <;> rfl

theorem decide_sideIndex_ne_zero (b : Bool) : decide (sideIndex b ≠ 0) = b := by
  cases b <;> rfl

/-- The levels that the deletion climbs are those with nothing beside the path. -/
theorem dropWhile_pathOf (hR : CollisionFree R) {y : Tree} (hy : smt.Holds R sp.length y)
    (hne : y ≠ empty) (hsp : smt.HoldsSpine R sp)
    (hrows : ∀ f ∈ smt.pathOf sp y, smt.row f.2 ∈ R) :
    ∃ y', (smt.pathOf sp y).dropWhile (fun f => (getUniqueSibling f.2).isSome) =
      smt.pathOf (sp.dropWhile fun f => f.2.isEmpty) y' := by
  induction sp generalizing y with
  | nil => exact ⟨y, rfl⟩
  | cons f sp ih =>
    obtain ⟨b, s⟩ := f
    obtain ⟨hs, hsp⟩ := hsp
    rw [pathOf, List.forall_mem_cons] at hrows
    obtain ⟨hrow, hrows⟩ := hrows
    have hsib := isSome_getUniqueSibling b (hy.digest_ne_zero hR hne)
      (smt.digest (sp.length + 1) s)
    by_cases hempty : s = empty
    · subst hempty
      obtain ⟨y', hy'⟩ :=
        ih ((smt.holds_join).mpr ⟨hrow, hy, hs⟩) (join_ne_empty b y empty) hsp hrows
      refine ⟨y', ?_⟩
      rw [pathOf, List.dropWhile_cons_of_pos (by simpa using hsib), hy']
      rfl
    · have hd := hs.digest_ne_zero hR hempty
      refine ⟨y, ?_⟩
      rw [pathOf, List.dropWhile_cons_of_neg (by simpa [hd] using hsib),
        List.dropWhile_cons_of_neg (by cases s <;> simp_all [isEmpty])]
      rfl

theorem HoldsSpine.dropWhile (hsp : smt.HoldsSpine R sp) (q : Bool × Tree → Bool) :
    smt.HoldsSpine R (sp.dropWhile q) := by
  induction sp with
  | nil => exact hsp
  | cons f sp ih =>
    rw [List.dropWhile_cons]
    split
    · exact ih hsp.2
    · exact hsp

/-- A lone leaf beside the deleted one moves up. -/
theorem follows_setDeleteFound (v₀ : ℕ) {above : TreeSpine} {b : Bool} {k' : Fea} {v' : ℕ}
    {y : Tree}
    (hR : CollisionFree R) (habove : smt.HoldsSpine R above) (hy : smt.Holds R above.length y)
    (hne : y ≠ empty) (hrows : ∀ f ∈ smt.pathOf above y, smt.row f.2 ∈ R)
    (hleaf : smt.Holds R (above.length + 1) (leaf k' v')) (hlen : above.length + 1 ≤ 256)
    (hpath : keyBit k' above.length = b ∧ OnPath keyBit k' above) (newRoot : Fea) (counter : ℕ) :
    Follows S smt R
      (smt.setDeleteFound v₀ (accKey (smt.pathOf above y) ++ [b])
        (smt.leafNode (above.length + 1) k' v') (smt.pathOf above y) newRoot counter)
      { mode := .deleteFound, spine := above.dropWhile fun f => f.2.isEmpty, sub := leaf k' v'
        ins := some (k', v'), oldValue := v₀, proofHashCounter := counter + 3 } := by
  obtain ⟨hv', hval', -⟩ := hleaf
  obtain ⟨y', hy'⟩ := dropWhile_pathOf hR hy hne habove hrows
  have hkey := joinKey_accKey smt (show OnPath keyBit k' ((b, empty) :: above) from hpath) hlen empty
  rw [accKey_pathOf, List.map_cons, List.reverse_cons, List.length_cons] at hkey
  set spine := above.dropWhile fun f => f.2.isEmpty
  refine ⟨y', if spine = [] then smt.digest spine.length (leaf k' v') else newRoot, ?_,
    habove.dropWhile _, ?_⟩
  · intro hnil
    show (if spine = [] then smt.digest spine.length (leaf k' v') else newRoot) = _
    rw [if_pos hnil, show spine = [] from hnil]
    rfl
  · unfold setDeleteFound
    refine (NodeStore.reads_readValue smt hR hv'.2 hval').does.bind_saves ?_
    simp only [accKey_pathOf, leafNode, hkey, hy', length_pathOf]
    refine (NodeStore.saves_hashSave smt (smt.leafNode spine.length k' v')).bind
      fun R₁ hR₁ hrow => ?_
    refine (does_place _ _ _ _ _).bind_saves ?_
    exact (NodeStore.does_pure _).saves ⟨hv', hR₁ hval', hrow⟩

/-- A node beside the deleted leaf stays. -/
theorem follows_setDeleteNotFound (v₀ : ℕ) {above : TreeSpine} {b : Bool} {l r : Tree} {y : Tree}
    (hR : CollisionFree R) (hsp : smt.HoldsSpine R ((b, node l r) :: above)) (newRoot : Fea)
    (counter : ℕ) :
    Follows S smt R
      (setDeleteNotFound v₀ b (branchNode b 0 (smt.digest (above.length + 1) (node l r)))
        (smt.pathOf above (join b y (node l r))) newRoot counter)
      { mode := .deleteNotFound, spine := (b, node l r) :: above, sub := empty, oldValue := v₀
        siblingChildren := smt.childDigests (above.length + 1) (node l r)
        proofHashCounter := counter + 1 } := by
  refine ⟨y, newRoot, fun hnil => absurd hnil (by simp), hsp, ?_⟩
  unfold setDeleteNotFound
  rw [child_not_branchNode]
  refine (NodeStore.reads_readNode hR hsp.1.1).does.bind_saves ?_
  exact (NodeStore.does_pure _).saves trivial

theorem follows_setDelete {v₀ : ℕ} (hR : CollisionFree R) (loc : Located k sp (leaf k v₀))
    (hold : smt.Holds R 0 (plug sp (leaf k v₀))) (rkey valH : Fea) (newRoot : Fea)
    (counter : ℕ) :
    Follows S smt R
      (smt.setDelete ctx ⟨k, rkey, valH, v₀⟩ (smt.pathOf sp (leaf k v₀)) newRoot counter)
      (planDelete smt v₀ counter sp) := by
  obtain ⟨hsp, hleaf, hrows⟩ := holds_plug_iff.mp hold
  cases sp with
  | nil => exact ⟨empty, 0, fun _ => rfl, trivial, (NodeStore.does_pure _).saves trivial⟩
  | cons f above =>
    obtain ⟨b, s⟩ := f
    have hne : s ≠ empty := by
      rintro rfl
      exact absurd loc.full.1 (by simp)
    have hd := hsp.1.digest_ne_zero hR hne
    -- with the state manager the leaf is deleted first
    suffices hrest : ∀ m, m = smt.setDelete ⟨false, ctx.persistence⟩ ⟨k, rkey, valH, v₀⟩
        (smt.pathOf ((b, s) :: above) (leaf k v₀)) newRoot counter →
        Follows S smt R m (planDelete smt v₀ counter ((b, s) :: above)) by
      obtain ⟨y, root, hroot, hspine, R', hR', hdoes, hsub⟩ := hrest _ rfl
      refine ⟨y, root, hroot, hspine, R', hR', ?_, hsub⟩
      unfold setDelete
      simp only [pathOf]
      split
      · exact (NodeStore.does_deleteNode _).bind hdoes
      · exact hdoes
    rintro m rfl
    simp only [setDelete, pathOf, setChild_branchNode, getUniqueSibling_zero b hd, group_sideIndex,
      decide_sideIndex_ne_zero, Bool.false_eq_true, if_false]
    cases s with
    | empty => exact absurd rfl hne
    | leaf k' v' =>
      obtain ⟨⟨⟨-, hoff⟩, -⟩, -⟩ := wf_plug_iff.mp loc.wf
      have hjoin : smt.Holds R above.length (join b (leaf k v₀) (leaf k' v')) :=
        (smt.holds_join).mpr ⟨(List.forall_mem_cons.mp hrows).1, hleaf, hsp.1⟩
      obtain ⟨y, root, hroot, hspine, hsaves⟩ := follows_setDeleteFound (S := S) v₀ hR
        hsp.2 hjoin (join_ne_empty _ _ _) (List.forall_mem_cons.mp hrows).2 hsp.1 loc.length_le
        (hoff k' (by simp)) newRoot counter
      refine ⟨y, root, hroot, hspine, (NodeStore.reads_readNode hR hsp.1.2.2).does.bind_saves ?_⟩
      rw [isLeaf_leafNode, if_pos rfl]
      exact hsaves
    | node l r =>
      obtain ⟨y, root, hroot, hspine, hsaves⟩ := follows_setDeleteNotFound (S := S) v₀
        (y := leaf k v₀) hR hsp newRoot counter
      refine ⟨y, root, hroot, hspine, (NodeStore.reads_readNode hR hsp.1.1).does.bind_saves ?_⟩
      rw [isLeaf_mk_zero, if_neg Bool.false_ne_true]
      exact hsaves

/-! ## The whole call -/

theorem saves_setBranch (hR : CollisionFree R) {e : Tree} (loc : Located k sp e)
    (hold : smt.Holds R 0 (plug sp e)) (hv : v < 2 ^ 256) :
    Follows S smt R
      (smt.setBranch ctx k v (smt.endOf (sp, e)) (smt.digest 0 (plug sp e)) (walkHashes (sp, e)))
      (plan smt k v (sp, e)) := by
  obtain ⟨hsp, hsub, -⟩ := holds_plug_iff.mp hold
  by_cases hv0 : v = 0
  · have hkeep : Follows S smt R (pure (setZeroToZero (smt.foundAt sp.length e) (smt.pathOf sp e)
        (smt.digest 0 (plug sp e)) (walkHashes (sp, e))))
        { mode := .zeroToZero, spine := sp, sub := e
          ins := (smt.foundAt sp.length e).map fun f => (f.foundKey, f.foundValue)
          proofHashCounter := walkHashes (sp, e) } := by
      refine ⟨e, smt.digest 0 (plug sp e), ?_, hsp, NodeStore.Does.saves ?_ hsub⟩
      · rintro rfl
        rfl
      · rw [stateOf, placed_digest]
        cases e <;> exact NodeStore.does_pure _
    rcases loc.ends with rfl | ⟨k', v', rfl⟩
    · simpa [setBranch, plan, hv0, endOf, foundAt] using hkeep
    · by_cases hk : k = k'
      · subst hk
        simp only [setBranch, plan, hv0, endOf, foundAt, ne_eq, not_true_eq_false, if_false, if_true]
        exact follows_setDelete hR loc hold _ _ _ _
      · simpa [setBranch, plan, hv0, endOf, foundAt, hk] using hkeep
  · have hleafv : LeafValue v := ⟨Nat.pos_of_ne_zero hv0, hv⟩
    rcases loc.ends with rfl | ⟨k', v', rfl⟩
    · simp only [setBranch, plan, hv0, endOf, foundAt, ne_eq, not_false_eq_true, if_true]
      exact follows_setInsertNotFound hleafv hsp _ _
    · by_cases hk : k = k'
      · subst hk
        simp only [setBranch, plan, hv0, endOf, foundAt, ne_eq, not_false_eq_true, if_true]
        exact follows_setUpdate hleafv hsp _ _
      · simp only [setBranch, plan, hv0, endOf, foundAt, ne_eq, not_false_eq_true, if_true, hk,
          if_false]
        exact follows_setInsertFound hleafv loc hk hsp hsub _ _

/-- What `set` returns, for its plan. -/
def resultOf (smt : Smt) (oldRoot key : Fea) (value : ℕ) (p : Plan) : SmtSetResult where
  oldRoot := oldRoot
  newRoot := smt.digest 0 p.tree
  key := key
  siblings := smt.siblingsOf p.spine p.sub
  insKey := (p.ins.map Prod.fst).getD 0
  insValue := (p.ins.map Prod.snd).getD 0
  isOld0 := p.ins.isNone
  oldValue := p.oldValue
  newValue := value
  mode := p.mode
  proofHashCounter := p.proofHashCounter + (if p.mode = .zeroToZero then 0 else 1) * p.spine.length
  siblingLeftChild := p.siblingChildren.1
  siblingRightChild := p.siblingChildren.2

/-- The hashes that the source counts for the walk. -/
theorem walkHashes_eq (hR : CollisionFree R) {e : Tree} (loc : Located k sp e)
    (hold : smt.Holds R 0 (plug sp e)) :
    (if smt.digest 0 (plug sp e) ≠ 0 then
      min (smt.endOf (sp, e)).siblingsSize (smt.endOf (sp, e)).path.length +
        if (((smt.endOf (sp, e)).found.map Found.foundValue).getD 0) ≠ 0 then 2 else 0
      else 0) = walkHashes (sp, e) := by
  have hmin : min (smt.endOf (sp, e)).siblingsSize (smt.endOf (sp, e)).path.length = sp.length := by
    simp [Descent.siblingsSize, endOf]
  rw [hmin]
  rcases loc.ends with rfl | ⟨k', v', rfl⟩
  · cases sp with
    | nil => rfl
    | cons f sp =>
      rw [if_pos (hold.digest_ne_zero hR (plug_ne_empty (t := join f.1 empty f.2) sp
        (join_ne_empty _ _ _)))]
      simp [endOf, foundAt, walkHashes]
  · obtain ⟨-, ⟨hv', -⟩, -⟩ := holds_plug_iff.mp hold
    rw [if_pos (hold.digest_ne_zero hR (plug_ne_empty sp (by simp)))]
    simp [endOf, foundAt, walkHashes, hv'.1.ne']

/-- **`set` follows its plan.**  On a store that holds a tree, `set` on the root of the tree
succeeds, saves the tree of the plan and returns the result of the plan. -/
theorem runs_set (S : NodeStore h ctx) {s : σ} (hidle : S.idle s) (hR : CollisionFree (S.rows s))
    {t : Tree} (hwf : WF keyBit 0 t) (hold : smt.Holds (S.rows s) 0 t) (k : Fea)
    (hv : v < 2 ^ 256) :
    ∃ s', Runs h (smt.set ctx (smt.digest 0 t) k v) s
        (smt.resultOf (smt.digest 0 t) k v (plan smt k v (locate keyBit k 0 t []))) s' ∧
      S.idle s' ∧ S.rows s ⊆ S.rows s' ∧
      smt.Holds (S.rows s') 0 (plan smt k v (locate keyBit k 0 t [])).tree := by
  have loc := located_locate k hwf
  have hplug := plug_locate_root k t
  have hwalk := reads_descend_root (S := S) hR k hwf hold
  generalize locate keyBit k 0 t [] = p at loc hplug hwalk ⊢
  obtain ⟨sp, e⟩ := p
  obtain rfl : plug sp e = t := hplug
  obtain ⟨y, root, hroot, hsp, R₁, hR₁, hbranch, hsub⟩ :=
    saves_setBranch (S := S) hR loc hold hv
  obtain ⟨R₂, hR₂, hclimb, htree⟩ := saves_rebuild (S := S) y root hroot (hsp.mono hR₁) hsub
  -- the states at the start of the walk, after the branch, after the climb and at the end
  obtain ⟨s₁, hopen, hbusy₁, hrows₁⟩ := S.openState (smt.digest 0 (plug sp e)) hidle
  obtain ⟨s₂, hrun₂, hbusy₂, hrows₂⟩ := hbranch s₁ hbusy₁ hrows₁
  obtain ⟨s₃, hrun₃, hbusy₃, hrows₃⟩ := hclimb s₂ hbusy₂ hrows₂
  obtain ⟨s₄, hclose, hidle₄, hrows₄⟩ := S.closeState (smt.digest 0 (plug sp e))
    (smt.digest 0 (plan smt k v (sp, e)).tree) hbusy₃
  rw [hrows₃] at hrows₄
  refine ⟨s₄, ?_, hidle₄, ?_, ?_⟩
  · refine hopen.bind ((hwalk s₁ hrows₁).bind ?_)
    simp only [walkHashes_eq hR loc hold]
    refine hrun₂.bind (hrun₃.bind (hclose.bind ?_))
    simp only [stateOf, length_placed]
    exact Runs.pure _
  · rw [hrows₄]
    exact hR₁.trans hR₂
  · rw [hrows₄]
    exact htree

end Smt

end ZkevmProver
