import Mathlib.Data.List.Basic
import Mathlib.Data.Set.Function
import Mathlib.Tactic.Common

/-!
# Hash trees in an array

A tree in which a node has up to `a` children, stored level by level in an array.  A level starts where
the level below ends when all its groups are full, and a node is the hash of a fixed element and of the
group of its children.

  1. Chains of blocks.
  2. Trees.
  3. Openings.
  4. What the root determines.
-/

namespace NodeTree

variable {F : Type*}

/-! ## Chains -/

/-- Blocks that are hashed one after the other, each with the hash before it. -/
def chain (hash : List F → F) (x : F) (blocks : List (List F)) : F :=
  blocks.foldl (fun x block => hash (x :: block)) x

/-- What is hashed on the way. -/
def chainInputs (hash : List F → F) : F → List (List F) → List (List F)
  | _, [] => []
  | x, block :: blocks => (x :: block) :: chainInputs hash (hash (x :: block)) blocks

/-- No two inputs in `I` of the same length have the same hash. -/
def InjectiveOn (hash : List F → F) (I : Set (List F)) : Prop :=
  ∀ x ∈ I, ∀ y ∈ I, x.length = y.length → hash x = hash y → x = y

theorem chain_injective {hash : List F → F} {I : Set (List F)} (hinj : InjectiveOn hash I)
    {blocks blocks' : List (List F)} (hlength : List.Forall₂ (fun b b' => b.length = b'.length) blocks blocks')
    {x x' : F} (hmem : ∀ b ∈ chainInputs hash x blocks, b ∈ I)
    (hmem' : ∀ b ∈ chainInputs hash x' blocks', b ∈ I)
    (h : chain hash x blocks = chain hash x' blocks') : x = x' ∧ blocks = blocks' := by
  induction hlength generalizing x x' with
  | nil => exact ⟨h, rfl⟩
  | @cons b b' blocks blocks' hb _ ih =>
    obtain ⟨hhead, hrest⟩ := List.forall_mem_cons.mp hmem
    obtain ⟨hhead', hrest'⟩ := List.forall_mem_cons.mp hmem'
    obtain ⟨hhash, rfl⟩ := ih hrest hrest' h
    have hinput := hinj _ hhead _ hhead' (congrArg (· + 1) hb) hhash
    obtain ⟨rfl, rfl⟩ := List.cons.inj hinput
    exact ⟨rfl, rfl⟩

/-! ## Trees -/

/-- The length of the next level. -/
def nextN (a n : ℕ) : ℕ := (n - 1) / a + 1

/-- Some nodes next to each other. -/
def group (a : ℕ) (nodes : ℕ → F) (o : ℕ) : List F := (List.range a).map fun k => nodes (o + k)

theorem getElem?_group {a : ℕ} {nodes : ℕ → F} {o k : ℕ} (hk : k < a) :
    (group a nodes o)[k]? = some (nodes (o + k)) := by
  rw [group, List.getElem?_map, List.getElem?_range hk]
  rfl

theorem length_group {a : ℕ} {nodes : ℕ → F} {o : ℕ} : (group a nodes o).length = a := by
  rw [group, List.length_map, List.length_range]

theorem group_congr {a : ℕ} {nodes nodes' : ℕ → F} {o : ℕ} (h : ∀ k < a, nodes (o + k) = nodes' (o + k)) :
    group a nodes o = group a nodes' o := by
  refine List.map_congr_left fun k hk => ?_
  rw [h k (List.mem_range.mp hk)]

/-- From a level of `n` nodes at `o` up to the root at `r`, all hashed inputs being in `I`. -/
inductive Tree (hash : List F → F) (zero : F) (a : ℕ) (I : Set (List F)) (nodes : ℕ → F) :
    ℕ → ℕ → ℕ → Prop
  | root {o n : ℕ} (h : n ≤ 1) : Tree hash zero a I nodes o n o
  | level {o n r : ℕ} (h : 1 < n)
      (hmem : ∀ i < nextN a n, zero :: group a nodes (o + i * a) ∈ I)
      (hnode : ∀ i < nextN a n,
        nodes (o + nextN a n * a + i) = hash (zero :: group a nodes (o + i * a)))
      (next : Tree hash zero a I nodes (o + nextN a n * a) (nextN a n) r) :
      Tree hash zero a I nodes o n r

theorem Tree.mono {hash : List F → F} {zero : F} {a : ℕ} {I J : Set (List F)} {nodes : ℕ → F} {o n r : ℕ}
    (h : Tree hash zero a I nodes o n r) (hIJ : I ⊆ J) : Tree hash zero a J nodes o n r := by
  induction h with
  | root h => exact .root h
  | level h hmem hnode _ ih => exact .level h (fun i hi => hIJ (hmem i hi)) hnode ih

theorem div_lt_nextN {a n i : ℕ} (hi : i < n) : i / a < nextN a n :=
  Nat.lt_succ_of_le (Nat.div_le_div_right (Nat.le_sub_one_of_lt hi))

/-! ## Openings -/

/-- The groups on the way from a node to the root. -/
inductive Path (a : ℕ) (nodes : ℕ → F) : ℕ → ℕ → ℕ → List (List F) → Prop
  | root {idx o n : ℕ} (h : n ≤ 1) : Path a nodes idx o n []
  | level {idx o n : ℕ} {groups : List (List F)} (h : 1 < n)
      (next : Path a nodes (idx / a) (o + nextN a n * a) (nextN a n) groups) :
      Path a nodes idx o n (group a nodes (o + idx / a * a) :: groups)

/-- A value is found in the first group, the hash of that group in the second one, and so on; the last
hash is the root. -/
def Verifies (hash : List F → F) (zero : F) (a : ℕ) (root : F) : F → ℕ → List (List F) → Prop
  | x, _, [] => x = root
  | x, idx, group :: groups =>
    group[idx % a]? = some x ∧ Verifies hash zero a root (hash (zero :: group)) (idx / a) groups

section Openings

variable {hash : List F → F} {zero : F} {a : ℕ} {I : Set (List F)} {nodes : ℕ → F} {idx o n r : ℕ}
  {groups : List (List F)}

theorem Tree.verifies (h : Tree hash zero a I nodes o n r) (ha : 0 < a) (hidx : idx < n)
    (hpath : Path a nodes idx o n groups) :
    Verifies hash zero a (nodes r) (nodes (o + idx)) idx groups := by
  induction h generalizing idx groups with
  | @root o n h =>
    cases hpath with
    | root _ =>
      obtain rfl : idx = 0 := by omega
      exact rfl
    | level hlt _ => exact absurd hlt (Nat.not_lt.mpr h)
  | @level o n r h hmem hnode next ih =>
    cases hpath with
    | root hle => exact absurd h (Nat.not_lt.mpr hle)
    | level _ hpath =>
      have hdiv : idx / a < nextN a n := div_lt_nextN hidx
      refine ⟨?_, ?_⟩
      · rw [getElem?_group (Nat.mod_lt _ ha), Nat.add_assoc, Nat.div_add_mod']
      · rw [← hnode _ hdiv]
        exact ih hdiv hpath

/-- A node that is not where it should be does not verify. -/
theorem Verifies.eq_node {root x : F} (h : Verifies hash zero a root x idx groups)
    (hpath : Path a nodes idx o n groups) (ha : 0 < a) (hn : 1 < n) : x = nodes (o + idx) := by
  cases hpath with
  | root hle => exact absurd hn (Nat.not_lt.mpr hle)
  | level _ _ =>
    obtain ⟨hx, -⟩ := h
    rw [getElem?_group (Nat.mod_lt _ ha), Nat.add_assoc, Nat.div_add_mod'] at hx
    exact (Option.some_inj.mp hx).symm

/-- With a constant hash only one root verifies. -/
theorem Verifies.eq_const {root x c : F} (h : Verifies (fun _ => c) zero a root x idx groups)
    (hgroups : groups ≠ []) : root = c := by
  induction groups generalizing x idx with
  | nil => exact absurd rfl hgroups
  | cons group groups ih =>
    obtain ⟨-, h⟩ := h
    cases groups with
    | nil => exact h.symm
    | cons group' groups => exact ih h (List.cons_ne_nil _ _)

end Openings

/-! ## What the root determines -/

/-- With the same root, two trees of one shape have the same nodes. -/
theorem Tree.binding {hash : List F → F} {zero : F} {a : ℕ} {I : Set (List F)} {nodes nodes' : ℕ → F}
    {o n r : ℕ} (h : Tree hash zero a I nodes o n r) (h' : Tree hash zero a I nodes' o n r)
    (ha : 0 < a) (hinj : InjectiveOn hash I)
    (hroot : nodes r = nodes' r) : ∀ i < n, nodes (o + i) = nodes' (o + i) := by
  induction h with
  | @root o n h =>
    intro i hi
    obtain rfl : i = 0 := by omega
    cases h' with
    | root _ => exact hroot
    | level hlt _ _ _ => exact absurd hlt (Nat.not_lt.mpr h)
  | @level o n r h hmem hnode next ih =>
    cases h' with
    | root hle => exact absurd h (Nat.not_lt.mpr hle)
    | level _ hmem' hnode' next' =>
      intro i hi
      have hdiv : i / a < nextN a n := div_lt_nextN hi
      have hparent := ih next' hroot _ hdiv
      rw [hnode _ hdiv, hnode' _ hdiv] at hparent
      have hinput := hinj _ (hmem _ hdiv) _ (hmem' _ hdiv)
        (by simp only [List.length_cons, length_group]) hparent
      have hget := congrArg (fun l => l[i % a]?) (List.cons_inj_right _ |>.mp hinput)
      rw [getElem?_group (Nat.mod_lt _ ha), getElem?_group (Nat.mod_lt _ ha), Nat.add_assoc,
        Nat.div_add_mod'] at hget
      exact Option.some_inj.mp hget

end NodeTree
