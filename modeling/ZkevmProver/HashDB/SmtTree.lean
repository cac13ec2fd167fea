import ZkevmProver.Lib.PrefixTrie
import ZkevmProver.HashDB.Smt

/-!
# What the state tree stands for

The tree under a root is the canonical prefix trie of a map from keys to non-zero values, and the
root is the digest of that trie.  The store holds the trie when it has the row of each of its nodes.

  1. The trie, its nodes and its digest.
  2. Rows held by a store, and the collision-free sets of rows.
  3. Paths as the nodes of a spine.
-/

namespace ZkevmProver

open PrefixTrie PrefixTrie.Trie

/-- A trie from keys to values. -/
abbrev Tree := Trie Fea ℕ

/-- A position in a tree. -/
abbrev TreeSpine := Spine Fea ℕ

/-- The value of a key in a tree, zero if it has none. -/
def Tree.value (t : Tree) (key : Fea) : ℕ := (get keyBit 0 t key).getD 0

/-- A value that the tree can hold in a leaf. -/
def LeafValue (value : ℕ) : Prop := 0 < value ∧ value < 2 ^ 256

/-- The node of a value. -/
def valueNode (value : ℕ) : Node := ⟨(scalar2fea value).1, (scalar2fea value).2, capacityZero⟩

/-- The intermediate node with child `x` on side `b` and `y` on the other. -/
def branchNode (b : Bool) (x y : Fea) : Node := ⟨(sides b x y).1, (sides b x y).2, capacityZero⟩

@[simp] theorem child_branchNode (b : Bool) (x y : Fea) : (branchNode b x y).child b = x := by
  cases b <;> rfl

@[simp] theorem child_not_branchNode (b : Bool) (x y : Fea) :
    (branchNode b x y).child (!b) = y := by
  cases b <;> rfl

@[simp] theorem setChild_branchNode (b : Bool) (x y z : Fea) :
    (branchNode b x y).setChild b z = branchNode b z y := by
  cases b <;> rfl

@[simp] theorem isLeaf_mk_zero (x y : Fea) : (⟨x, y, capacityZero⟩ : Node).isLeaf = false := rfl

@[simp] theorem isLeaf_branchNode (b : Bool) (x y : Fea) : (branchNode b x y).isLeaf = false := rfl

namespace Smt

variable (smt : Smt)

/-- The leaf of a key and value at a level. -/
def leafNode (ℓ : ℕ) (key : Fea) (value : ℕ) : Node :=
  ⟨removeKeyBits smt.shift key ℓ, smt.poseidon (valueNode value), capacityOne⟩

@[simp] theorem isLeaf_leafNode (ℓ : ℕ) (key : Fea) (value : ℕ) :
    (smt.leafNode ℓ key value).isLeaf = true := rfl

/-- The hash of a subtree whose root is at level `ℓ`. -/
def digest : ℕ → Tree → Fea
  | _, empty => 0
  | ℓ, leaf k v => smt.poseidon (smt.leafNode ℓ k v)
  | ℓ, node l r => smt.poseidon ⟨digest (ℓ + 1) l, digest (ℓ + 1) r, capacityZero⟩

@[simp] theorem digest_empty (ℓ : ℕ) : smt.digest ℓ empty = 0 := rfl

@[simp] theorem digest_leaf (ℓ : ℕ) (k : Fea) (v : ℕ) :
    smt.digest ℓ (leaf k v) = smt.poseidon (smt.leafNode ℓ k v) := rfl

theorem digest_join (ℓ : ℕ) (b : Bool) (t s : Tree) :
    smt.digest ℓ (join b t s) =
      smt.poseidon (branchNode b (smt.digest (ℓ + 1) t) (smt.digest (ℓ + 1) s)) := by
  cases b <;> rfl

/-! ## Rows -/

/-- The row of a node: its hash and itself. -/
def row (n : Node) : Fea × Node := (smt.poseidon n, n)

/-- The rows of the nodes of a subtree at level `ℓ` are in `R`. -/
def Holds (R : Set (Fea × Node)) : ℕ → Tree → Prop
  | _, empty => True
  | ℓ, leaf k v => LeafValue v ∧ smt.row (valueNode v) ∈ R ∧ smt.row (smt.leafNode ℓ k v) ∈ R
  | ℓ, node l r =>
      smt.row ⟨smt.digest (ℓ + 1) l, smt.digest (ℓ + 1) r, capacityZero⟩ ∈ R ∧
        Holds R (ℓ + 1) l ∧ Holds R (ℓ + 1) r

theorem holds_join {R : Set (Fea × Node)} {ℓ : ℕ} {b : Bool} {t s : Tree} :
    smt.Holds R ℓ (join b t s) ↔
      smt.row (branchNode b (smt.digest (ℓ + 1) t) (smt.digest (ℓ + 1) s)) ∈ R ∧
        smt.Holds R (ℓ + 1) t ∧ smt.Holds R (ℓ + 1) s := by
  cases b
  · exact Iff.rfl
  · simp only [join, if_true, Holds]
    exact and_congr_right fun _ => and_comm

variable {smt} in
theorem Holds.mono {R R' : Set (Fea × Node)} (hR : R ⊆ R') {ℓ : ℕ} {t : Tree}
    (h : smt.Holds R ℓ t) : smt.Holds R' ℓ t := by
  induction t generalizing ℓ with
  | empty => trivial
  | leaf k v => exact ⟨h.1, hR h.2.1, hR h.2.2⟩
  | node l r ihl ihr => exact ⟨hR h.1, ihl h.2.1, ihr h.2.2⟩

end Smt

/-- No two rows share a hash, and no hash is zero: what the tree relies on Poseidon for, on the
nodes that were hashed. -/
structure CollisionFree (R : Set (Fea × Node)) : Prop where
  unique : ∀ {h : Fea} {n n' : Node}, (h, n) ∈ R → (h, n') ∈ R → n = n'
  ne_zero : ∀ {n : Node}, (0, n) ∉ R

theorem CollisionFree.mono {R R' : Set (Fea × Node)} (h : CollisionFree R') (hR : R ⊆ R') :
    CollisionFree R :=
  ⟨fun h₁ h₂ => h.unique (hR h₁) (hR h₂), fun h₁ => h.ne_zero (hR h₁)⟩

namespace Smt

variable {smt : Smt} {R : Set (Fea × Node)}

/-- Only the empty subtree has the zero hash. -/
theorem Holds.digest_ne_zero (hR : CollisionFree R) {ℓ : ℕ} {t : Tree} (h : smt.Holds R ℓ t)
    (ht : t ≠ empty) : smt.digest ℓ t ≠ 0 := by
  intro h0
  cases t with
  | empty => exact ht rfl
  | leaf k v =>
    have hrow := h.2.2
    rw [row, show smt.poseidon (smt.leafNode ℓ k v) = 0 from h0] at hrow
    exact hR.ne_zero hrow
  | node l r =>
    have hrow := h.1
    rw [row, show smt.poseidon _ = 0 from h0] at hrow
    exact hR.ne_zero hrow

theorem Holds.leafValue {ℓ : ℕ} {t : Tree} (h : smt.Holds R ℓ t) {i : ℕ} {k : Fea} {v : ℕ}
    (hv : Trie.get keyBit i t k = some v) : LeafValue v := by
  induction t generalizing ℓ i with
  | empty => simp at hv
  | leaf k' v' =>
    rw [get_leaf] at hv
    split at hv
    · cases hv
      exact h.1
    · simp at hv
  | node l r ihl ihr =>
    rw [get_node] at hv
    split at hv
    · exact ihr h.2.2 hv
    · exact ihl h.2.1 hv

/-! ## Paths -/

/-- The key bits and the nodes from a position up to the root, with `t` at the position. -/
def pathOf (smt : Smt) : TreeSpine → Tree → Path
  | [], _ => []
  | (b, s) :: sp, t =>
      (b, branchNode b (smt.digest (sp.length + 1) t) (smt.digest (sp.length + 1) s)) ::
        pathOf smt sp (join b t s)

@[simp] theorem length_pathOf (sp : TreeSpine) (t : Tree) :
    (smt.pathOf sp t).length = sp.length := by
  induction sp generalizing t with
  | nil => rfl
  | cons f sp ih => exact congrArg (· + 1) (ih _)

theorem map_fst_pathOf (sp : TreeSpine) (t : Tree) :
    (smt.pathOf sp t).map Prod.fst = sp.map Prod.fst := by
  induction sp generalizing t with
  | nil => rfl
  | cons f sp ih => exact congrArg (f.1 :: ·) (ih _)

/-- The subtrees off the path are held. -/
def HoldsSpine (smt : Smt) (R : Set (Fea × Node)) : TreeSpine → Prop
  | [] => True
  | (_, s) :: sp => smt.Holds R (sp.length + 1) s ∧ HoldsSpine smt R sp

theorem HoldsSpine.mono {R' : Set (Fea × Node)} (hR : R ⊆ R') {sp : TreeSpine}
    (h : smt.HoldsSpine R sp) : smt.HoldsSpine R' sp := by
  induction sp with
  | nil => trivial
  | cons f sp ih => exact ⟨h.1.mono hR, ih h.2⟩

/-- A tree is held when the subtree at a position, the subtrees off the path to it and the nodes of
the path are. -/
theorem holds_plug_iff {sp : TreeSpine} {t : Tree} :
    smt.Holds R 0 (plug sp t) ↔ smt.HoldsSpine R sp ∧ smt.Holds R sp.length t ∧
      ∀ f ∈ smt.pathOf sp t, smt.row f.2 ∈ R := by
  induction sp generalizing t with
  | nil => simp [plug, HoldsSpine, pathOf]
  | cons f sp ih =>
    obtain ⟨b, s⟩ := f
    rw [plug, ih, holds_join]
    simp only [HoldsSpine, pathOf, List.forall_mem_cons, List.length_cons]
    tauto

end Smt

end ZkevmProver
