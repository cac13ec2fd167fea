import Mathlib.Data.BitVec
import Mathlib.Data.Nat.Log
import ZkevmProver.FFIAsm.RawFr
import ZkevmProver.Lib.Loops
import ZkevmProver.Lib.NodeTree
import ZkevmProver.Utils.Goldilocks

/-!
# The Merkle tree over BN128

The rows of a table of Goldilocks elements are hashed to leaves, and groups of sixteen nodes to nodes of
the next level.  All nodes are in one array: `merkelize` builds a tree over the leaves in it, when the height
is a power of two from 16 on and fits in 32 bits.

  1. The tree.
  2. Leaves.
  3. Levels.
  4. Openings.
  5. What the leaves are.
  6. One level.
  7. All levels.
  8. The size of the array.
-/

namespace ZkevmProver

open Loops NodeTree

/-! ## The tree -/

/-- `Goldilocks::toU64` of an element as it is in memory, which need not be canonical. -/
def toWord (x : BitVec 64) : BitVec 64 := BitVec.ofNat 64 (toU64 (fromU64 x.toNat))

/-- `hashed` and `outside` are not in the source: what Poseidon has been called with, and whether a node
has been written that is not in the array. -/
structure MerkleTreeBN128 where
  nodes : ℕ → RawFr
  source : List (BitVec 64)
  numNodes : ℕ
  height : ℕ
  width : ℕ
  source_width : ℕ
  hashed : List (List RawFr) := []
  outside : Bool := false

namespace MerkleTreeBN128

/-- The loop of `getNumNodes`, with 16 for `MT_BN128_ARITY`; `nextN` is a function of `n_tmp`. -/
def getNumNodesLoop (n_tmp acc : ℕ) : ℕ :=
  if 1 < n_tmp then
    let n_tmp' := (n_tmp - 1) / 16 + 1
    let nextN := (n_tmp' - 1) / 16 + 1
    getNumNodesLoop n_tmp' (if 1 < n_tmp' then acc + nextN * 16 else acc + 1)
  else acc
termination_by n_tmp
decreasing_by omega

/-- `n_tmp` is a `uint`. -/
def getNumNodes (n : ℕ) : ℕ :=
  let n_tmp := n % 2 ^ 32
  let nextN := (n_tmp + 2 ^ 32 - 1) % 2 ^ 32 / 16 + 1
  getNumNodesLoop n_tmp (nextN * 16)

/-- The constructors, with 3 for `GOLDILOCKS_ELEMENTS`.  They leave `source` as it is: it is not
initialised, or is the given one. -/
def new (_height _width : ℕ) (source : List (BitVec 64)) : MerkleTreeBN128 where
  nodes := fun _ => 0
  source := source
  numNodes := getNumNodes _height
  height := _height
  width := if _width > 3 + 1 then (_width + 2) / 3 else 0
  source_width := _width

def write (t : MerkleTreeBN128) (i : ℕ) (x : RawFr) : MerkleTreeBN128 :=
  { t with nodes := Function.update t.nodes i x, outside := t.outside || t.numNodes ≤ i }

/-- `p.hash(elements, &nodes[i])`, where `poseidon` gives the first element of the hashed state. -/
def hash (poseidon : List RawFr → RawFr) (t : MerkleTreeBN128) (elements : List RawFr) (i : ℕ) :
    MerkleTreeBN128 :=
  { t with hashed := t.hashed ++ [elements] }.write i (poseidon elements)

/-! ## Leaves -/

/-- `source[i * source_width + k]`, for all `k`. -/
def row (t : MerkleTreeBN128) (i : ℕ) : List (BitVec 64) :=
  (t.source.drop (i * t.source_width)).take t.source_width

/-- The part of `buff` that belongs to a row. -/
def pack (width : ℕ) (row : List (BitVec 64)) : List RawFr :=
  (List.range width).map fun j =>
    RawFr.toMontgomery (RawFr.storeWords 0
      (((row.drop (j * 3)).take 3).map toWord))

section Tree

variable (poseidon : List RawFr → RawFr)

/-- The loop over the elements of a row. -/
def hashRow (t : MerkleTreeBN128) (i : ℕ) (buff : List RawFr) (pending : ℕ) : MerkleTreeBN128 :=
  if pending = 0 then t
  else if 16 ≤ pending then
    hashRow (hash poseidon t (t.nodes i :: (buff.drop (t.width - pending)).take 16) i) i buff (pending - 16)
  else hash poseidon t (t.nodes i :: (buff.drop (t.width - pending)).take pending) i
termination_by pending
decreasing_by omega

/-- `pending` is a `uint`. -/
def linearHash (t : MerkleTreeBN128) : MerkleTreeBN128 :=
  if t.source_width > 4 then
    forUpTo t.height (fun i t => hashRow poseidon t i (pack t.width (t.row i)) (t.width % 2 ^ 32)) t
  else
    forUpTo t.height (fun i t =>
      t.write i (RawFr.toMontgomery (RawFr.storeWords (t.nodes i) ((t.row i).map toWord)))) t

/-! ## Levels -/

/-- The elements of a batch after the capacity. -/
def batch (nodes : ℕ → RawFr) (numHashes o : ℕ) : List RawFr :=
  (List.range 16).map fun k => if k < numHashes then nodes (o + k) else 0

def hashLevel (t : MerkleTreeBN128) (cursor cursorNext n256 : ℕ) : MerkleTreeBN128 :=
  let batches := (n256 + 15) / 16
  let numHashes := if batches = 1 then n256 else 16
  forUpTo batches (fun i t =>
    hash poseidon t (0 :: batch t.nodes numHashes (cursor + i * 16)) (cursorNext + i)) t

/-- The loop of `merkelize`; `nextN256` is a function of `n256`. -/
def merkelizeLoop (t : MerkleTreeBN128) (cursor cursorNext n256 : ℕ) : MerkleTreeBN128 :=
  if 1 < n256 then
    let n256' := (n256 - 1) / 16 + 1
    merkelizeLoop (hashLevel poseidon t cursor cursorNext n256) cursorNext (cursorNext + max n256' 16) n256'
  else t
termination_by n256
decreasing_by omega

def merkelize (t : MerkleTreeBN128) : MerkleTreeBN128 :=
  let t := linearHash poseidon t
  merkelizeLoop poseidon t 0 t.height t.height

/-- `initialize` -/
def initializeTree (t : MerkleTreeBN128) (_source : List (BitVec 64)) : MerkleTreeBN128 :=
  merkelize poseidon { t with source := _source.take (t.height * t.source_width) }

/-- The operations that build the tree. -/
inductive Call
  | merkelize
  | initializeTree (source : List (BitVec 64))

def exec (t : MerkleTreeBN128) : Call → MerkleTreeBN128
  | .merkelize => merkelize poseidon t
  | .initializeTree source => initializeTree poseidon t source

def run (t : MerkleTreeBN128) (calls : List Call) : MerkleTreeBN128 := calls.foldl (exec poseidon) t

def getRoot (t : MerkleTreeBN128) : RawFr := t.nodes (t.numNodes - 1)

/-! ## Openings -/

/-- `ceil(log(n) / log(16))` -/
def getMerkleProofLength (n : ℕ) : ℕ := Nat.clog 16 n

def merkle_genMerkleProof (nodes : ℕ → RawFr) (idx offset n : ℕ) : List (List RawFr) :=
  if n ≤ 1 then []
  else
    let nextIdx := idx / 16
    let si := idx % 2 ^ 32 / 16 * 16
    let nextN := (n - 1) / 16 + 1
    group 16 nodes (offset + si) :: merkle_genMerkleProof nodes nextIdx (offset + nextN * 16) nextN
termination_by n
decreasing_by omega

/-- The row and the groups; there is no room for more than `getMerkleProofLength` groups. -/
def getGroupProof (t : MerkleTreeBN128) (idx : ℕ) : Option (List (BitVec 64) × List (List RawFr)) :=
  let mp := merkle_genMerkleProof t.nodes idx 0 t.height
  let length := getMerkleProofLength t.height
  if idx < t.height ∧ mp.length ≤ length then
    some (t.row idx, mp ++ List.replicate (length - mp.length) (List.replicate 16 0))
  else none

end Tree

/-! ## What the leaves are -/

variable {poseidon : List RawFr → RawFr}

/-- The blocks that a row is hashed in. -/
def blocks (width : ℕ) (buff : List RawFr) (pending : ℕ) : List (List RawFr) :=
  if pending = 0 then []
  else if 16 ≤ pending then (buff.drop (width - pending)).take 16 :: blocks width buff (pending - 16)
  else [(buff.drop (width - pending)).take pending]
termination_by pending
decreasing_by omega

theorem hashRow_eq (t : MerkleTreeBN128) (i : ℕ) (buff : List RawFr) (pending : ℕ) :
    hashRow poseidon t i buff pending =
      (blocks t.width buff pending).foldl (fun t block => hash poseidon t (t.nodes i :: block) i) t := by
  fun_induction hashRow poseidon t i buff pending with
  | case1 t =>
    rw [blocks, if_pos rfl]
    rfl
  | case2 t pending h h16 ih =>
    rw [blocks, if_neg h, if_pos h16]
    exact ih
  | case3 t pending h h16 =>
    rw [blocks, if_neg h, if_neg h16]
    rfl

theorem hash_eq {t : MerkleTreeBN128} {elements : List RawFr} {i : ℕ} (h : i < t.numNodes) :
    hash poseidon t elements i =
      { t with nodes := Function.update t.nodes i (poseidon elements), hashed := t.hashed ++ [elements] } := by
  unfold hash write
  dsimp only
  rw [decide_eq_false (Nat.not_le.mpr h), Bool.or_false]

theorem foldl_hash {i : ℕ} (bs : List (List RawFr)) : ∀ {t : MerkleTreeBN128}, i < t.numNodes →
    bs.foldl (fun t block => hash poseidon t (t.nodes i :: block) i) t =
      { t with
        nodes := Function.update t.nodes i (chain poseidon (t.nodes i) bs)
        hashed := t.hashed ++ chainInputs poseidon (t.nodes i) bs } := by
  induction bs with
  | nil =>
    intro t _
    rw [List.foldl_nil, chain, List.foldl_nil, Function.update_eq_self, chainInputs, List.append_nil]
  | cons block bs ih =>
    intro t h
    rw [List.foldl_cons, hash_eq h, ih (by exact h)]
    dsimp only
    rw [Function.update_self, Function.update_idem, List.append_assoc]
    rfl

/-- A leaf, from what is in its node before. -/
def leafFrom (poseidon : List RawFr → RawFr) (source_width width : ℕ) (x : RawFr) (row : List (BitVec 64)) :
    RawFr :=
  if source_width > 4 then chain poseidon x (blocks width (pack width row) (width % 2 ^ 32))
  else RawFr.toMontgomery (RawFr.storeWords x (row.map toWord))

/-- What is hashed for it. -/
def leafInputs (poseidon : List RawFr → RawFr) (source_width width : ℕ) (x : RawFr) (row : List (BitVec 64)) :
    List (List RawFr) :=
  if source_width > 4 then chainInputs poseidon x (blocks width (pack width row) (width % 2 ^ 32)) else []

/-- The tree with the leaves of the first rows. -/
def withLeaves (poseidon : List RawFr → RawFr) (t : MerkleTreeBN128) (n : ℕ) : MerkleTreeBN128 :=
  { t with
    nodes := fun j => if j < n then leafFrom poseidon t.source_width t.width (t.nodes j) (t.row j)
      else t.nodes j
    hashed := t.hashed ++ (List.range n).flatMap fun i =>
      leafInputs poseidon t.source_width t.width (t.nodes i) (t.row i) }

theorem withLeaves_zero (t : MerkleTreeBN128) : withLeaves poseidon t 0 = t := by
  unfold withLeaves
  rw [List.range_zero, List.flatMap_nil, List.append_nil]
  rfl

theorem withLeaves_nodes (t : MerkleTreeBN128) (i : ℕ) : (withLeaves poseidon t i).nodes i = t.nodes i :=
  if_neg (Nat.lt_irrefl i)

theorem withLeaves_succ (t : MerkleTreeBN128) (i : ℕ) :
    withLeaves poseidon t (i + 1) = { withLeaves poseidon t i with
      nodes := Function.update (withLeaves poseidon t i).nodes i
        (leafFrom poseidon t.source_width t.width (t.nodes i) (t.row i))
      hashed := (withLeaves poseidon t i).hashed ++
        leafInputs poseidon t.source_width t.width (t.nodes i) (t.row i) } := by
  have hnodes : (withLeaves poseidon t (i + 1)).nodes = Function.update (withLeaves poseidon t i).nodes i
      (leafFrom poseidon t.source_width t.width (t.nodes i) (t.row i)) := by
    funext j
    unfold withLeaves
    dsimp only
    rcases Nat.lt_trichotomy j i with hj | rfl | hj
    · rw [Function.update_of_ne hj.ne, if_pos hj, if_pos (Nat.lt_succ_of_lt hj)]
    · rw [Function.update_self, if_pos (Nat.lt_succ_self j)]
    · rw [Function.update_of_ne hj.ne', if_neg hj.not_gt, if_neg (Nat.not_lt.mpr hj)]
  have hhashed : (withLeaves poseidon t (i + 1)).hashed = (withLeaves poseidon t i).hashed ++
      leafInputs poseidon t.source_width t.width (t.nodes i) (t.row i) := by
    unfold withLeaves
    dsimp only
    rw [List.range_succ, List.flatMap_append, List.flatMap_singleton, List.append_assoc]
  rw [← hnodes, ← hhashed]
  rfl

theorem linearHash_eq {t : MerkleTreeBN128} (h : t.height ≤ t.numNodes) :
    linearHash poseidon t = withLeaves poseidon t t.height := by
  unfold linearHash
  split
  · next hw =>
    refine forUpTo_inv (J := fun i s => s = withLeaves poseidon t i) (withLeaves_zero t).symm
      fun i hi s hs => ?_
    subst hs
    rw [hashRow_eq, foldl_hash (t := withLeaves poseidon t i) _ (hi.trans_le h), withLeaves_nodes,
      withLeaves_succ, leafFrom, leafInputs, if_pos hw, if_pos hw]
    rfl
  · next hw =>
    refine forUpTo_inv (J := fun i s => s = withLeaves poseidon t i) (withLeaves_zero t).symm
      fun i hi s hs => ?_
    subst hs
    have hout : decide ((withLeaves poseidon t i).numNodes ≤ i) = false :=
      decide_eq_false (Nat.not_le.mpr (hi.trans_le h))
    rw [withLeaves_nodes, withLeaves_succ, leafFrom, leafInputs, if_neg hw, if_neg hw, List.append_nil,
      write, hout, Bool.or_false]
    rfl

/-! ## One level -/

/-- The tree with the first nodes of the next level. -/
def withLevel (poseidon : List RawFr → RawFr) (t : MerkleTreeBN128) (cursor cursorNext numHashes n : ℕ) :
    MerkleTreeBN128 :=
  { t with
    nodes := fun j =>
      if cursorNext ≤ j ∧ j < cursorNext + n then
        poseidon (0 :: batch t.nodes numHashes (cursor + (j - cursorNext) * 16))
      else t.nodes j
    hashed := t.hashed ++ (List.range n).map fun i => 0 :: batch t.nodes numHashes (cursor + i * 16) }

section OneLevel

variable {t : MerkleTreeBN128} {cursor cursorNext numHashes i n256 : ℕ}

theorem withLevel_zero : withLevel poseidon t cursor cursorNext numHashes 0 = t := by
  have hno (j : ℕ) : ¬ (cursorNext ≤ j ∧ j < cursorNext + 0) := by omega
  unfold withLevel
  simp only [if_neg (hno _), List.range_zero, List.map_nil, List.append_nil]

theorem withLevel_nodes_of_lt {j : ℕ} (hj : j < cursorNext) :
    (withLevel poseidon t cursor cursorNext numHashes i).nodes j = t.nodes j :=
  if_neg fun h => absurd h.1 (Nat.not_le.mpr hj)

theorem withLevel_nodes_of_ge {j : ℕ} (hj : cursorNext + i ≤ j) :
    (withLevel poseidon t cursor cursorNext numHashes i).nodes j = t.nodes j :=
  if_neg fun h => absurd h.2 (Nat.not_lt.mpr hj)

theorem withLevel_nodes {k : ℕ} (hk : k < i) :
    (withLevel poseidon t cursor cursorNext numHashes i).nodes (cursorNext + k) =
      poseidon (0 :: batch t.nodes numHashes (cursor + k * 16)) := by
  refine (if_pos ⟨Nat.le_add_right _ _, Nat.add_lt_add_left hk _⟩).trans ?_
  rw [Nat.add_sub_cancel_left]

theorem withLevel_succ :
    withLevel poseidon t cursor cursorNext numHashes (i + 1) =
      { withLevel poseidon t cursor cursorNext numHashes i with
        nodes := Function.update (withLevel poseidon t cursor cursorNext numHashes i).nodes (cursorNext + i)
          (poseidon (0 :: batch t.nodes numHashes (cursor + i * 16)))
        hashed := (withLevel poseidon t cursor cursorNext numHashes i).hashed ++
          [0 :: batch t.nodes numHashes (cursor + i * 16)] } := by
  have hnodes : (withLevel poseidon t cursor cursorNext numHashes (i + 1)).nodes =
      Function.update (withLevel poseidon t cursor cursorNext numHashes i).nodes (cursorNext + i)
        (poseidon (0 :: batch t.nodes numHashes (cursor + i * 16))) := by
    funext j
    rcases eq_or_ne j (cursorNext + i) with rfl | hj
    · rw [Function.update_self, withLevel_nodes (Nat.lt_succ_self i)]
    · rw [Function.update_of_ne hj]
      refine if_congr ?_ rfl rfl
      omega
  have hhashed : (withLevel poseidon t cursor cursorNext numHashes (i + 1)).hashed =
      (withLevel poseidon t cursor cursorNext numHashes i).hashed ++
        [0 :: batch t.nodes numHashes (cursor + i * 16)] := by
    unfold withLevel
    dsimp only
    rw [List.range_succ, List.map_append, List.append_assoc]
    rfl
  rw [← hnodes, ← hhashed]
  rfl

theorem batch_congr {nodes nodes' : ℕ → RawFr} {o : ℕ} (h : ∀ k < 16, nodes (o + k) = nodes' (o + k)) :
    batch nodes numHashes o = batch nodes' numHashes o := by
  refine List.map_congr_left fun k hk => ?_
  rw [h k (List.mem_range.mp hk)]

/-- The batches are read before anything is written over them. -/
theorem hashLevel_eq (hread : cursor + (n256 + 15) / 16 * 16 ≤ cursorNext)
    (hwrite : cursorNext + (n256 + 15) / 16 ≤ t.numNodes) :
    hashLevel poseidon t cursor cursorNext n256 = withLevel poseidon t cursor cursorNext
      (if (n256 + 15) / 16 = 1 then n256 else 16) ((n256 + 15) / 16) := by
  unfold hashLevel
  refine forUpTo_inv (J := fun i s => s = withLevel poseidon t cursor cursorNext _ i) withLevel_zero.symm
    fun i hi s hs => ?_
  subst hs
  have hbatch : batch (withLevel poseidon t cursor cursorNext
      (if (n256 + 15) / 16 = 1 then n256 else 16) i).nodes (if (n256 + 15) / 16 = 1 then n256 else 16)
      (cursor + i * 16) = batch t.nodes (if (n256 + 15) / 16 = 1 then n256 else 16) (cursor + i * 16) :=
    batch_congr fun k hk => withLevel_nodes_of_lt (by omega)
  rw [hbatch, hash_eq (t := withLevel poseidon t cursor cursorNext _ i)
    ((Nat.add_lt_add_left hi _).trans_le hwrite), withLevel_succ]

end OneLevel

/-! ## All levels -/

/-- Where the root of a tree with `n` nodes at `o` is. -/
def rootAt (o n : ℕ) : ℕ :=
  if n ≤ 1 then o else rootAt (o + nextN 16 n * 16) (nextN 16 n)
termination_by n
decreasing_by
  unfold nextN
  omega

/-- Between the levels there are only zeros. -/
inductive Padded (nodes : ℕ → RawFr) : ℕ → ℕ → Prop
  | root {o n : ℕ} (h : n ≤ 1) : Padded nodes o n
  | level {o n : ℕ} (h : 1 < n) (hpad : ∀ k, n ≤ k → k < nextN 16 n * 16 → nodes (o + k) = 0)
      (next : Padded nodes (o + nextN 16 n * 16) (nextN 16 n)) : Padded nodes o n

theorem nextN_eq {n : ℕ} (h : 0 < n) : nextN 16 n = (n + 15) / 16 := by
  unfold nextN
  omega

theorem nextN_lt {n : ℕ} (h : 1 < n) : nextN 16 n < n := by
  unfold nextN
  omega

theorem le_nextN (n : ℕ) : n ≤ nextN 16 n * 16 := by
  unfold nextN
  omega

theorem nextN_pow {m : ℕ} (h : 4 ≤ m) : nextN 16 (2 ^ m) = 2 ^ (m - 4) := by
  obtain ⟨k, rfl⟩ := Nat.exists_eq_add_of_le h
  have hpos : 0 < 2 ^ k := Nat.two_pow_pos k
  rw [Nat.add_sub_cancel_left, Nat.pow_add, nextN]
  omega

theorem nextN_pow_lt {m : ℕ} (h : m < 4) : nextN 16 (2 ^ m) = 1 := by
  have hlt : 2 ^ m ≤ 2 ^ 3 := Nat.pow_le_pow_right (by decide) (by omega)
  have hpos : 0 < 2 ^ m := Nat.two_pow_pos m
  unfold nextN
  omega

theorem exists_nextN_pow (m : ℕ) : ∃ m', nextN 16 (2 ^ m) = 2 ^ m' := by
  rcases Nat.lt_or_ge m 4 with h | h
  · exact ⟨0, nextN_pow_lt h⟩
  · exact ⟨m - 4, nextN_pow h⟩

/-- For a power of two `merkelize` and the proofs agree on where the next level starts. -/
theorem max_pow (m : ℕ) : max (2 ^ m) 16 = nextN 16 (2 ^ m) * 16 := by
  rcases Nat.lt_or_ge m 4 with h | h
  · have hlt : 2 ^ m ≤ 2 ^ 4 := Nat.pow_le_pow_right (by decide) h.le
    rw [nextN_pow_lt h]
    exact max_eq_right hlt
  · have hle : 2 ^ 4 ≤ 2 ^ m := Nat.pow_le_pow_right (by decide) h
    rw [nextN_pow h]
    calc max (2 ^ m) 16 = 2 ^ m := max_eq_left hle
      _ = 2 ^ (m - 4 + 4) := by rw [Nat.sub_add_cancel h]
      _ = 2 ^ (m - 4) * 16 := Nat.pow_add 2 (m - 4) 4

theorem le_rootAt (o n : ℕ) : o ≤ rootAt o n := by
  fun_induction rootAt o n with
  | case1 o n h => exact le_rfl
  | case2 o n h ih => exact (Nat.le_add_right _ _).trans ih

/-- All nodes of a level are before the root. -/
theorem add_le_rootAt {o n : ℕ} (h : 0 < n) : o + n ≤ rootAt o n + 1 := by
  rcases Nat.lt_or_ge 1 n with hn | hn
  · rw [rootAt, if_neg (Nat.not_le.mpr hn)]
    have hle := le_rootAt (o + nextN 16 n * 16) (nextN 16 n)
    have hnext := le_nextN n
    omega
  · rw [rootAt, if_pos hn]
    omega

/-- The batch of a padded level is a group of nodes. -/
theorem batch_eq_group {nodes : ℕ → RawFr} {o n i : ℕ} (hi : i < (n + 15) / 16)
    (hpad : ∀ k, n ≤ k → k < nextN 16 n * 16 → nodes (o + k) = 0) :
    batch nodes (if (n + 15) / 16 = 1 then n else 16) (o + i * 16) = group 16 nodes (o + i * 16) := by
  refine List.map_congr_left fun k hk => ?_
  have hk := List.mem_range.mp hk
  split
  · next hone =>
    rw [hone] at hi
    obtain rfl : i = 0 := Nat.lt_one_iff.mp hi
    split
    · rfl
    · next hn =>
      have hnext : nextN 16 n = 1 := by
        unfold nextN
        omega
      refine (hpad k (Nat.le_of_not_lt hn) ?_).symm
      rwa [hnext]
  · rfl

/-- What the levels from `cursor` on look like after `merkelize`. -/
structure Built (poseidon : List RawFr → RawFr) (t t' : MerkleTreeBN128) (cursor n : ℕ) : Prop where
  config : t' = { t with nodes := t'.nodes, hashed := t'.hashed }
  hashed : t.hashed ⊆ t'.hashed
  nodes : ∀ j < cursor + nextN 16 n * 16, t'.nodes j = t.nodes j
  padded : Padded t'.nodes cursor n
  tree : Tree poseidon 0 16 { x | x ∈ t'.hashed } t'.nodes cursor n (rootAt cursor n)

/-- The next level does not change the zeros above it. -/
theorem Padded.congr {nodes nodes' : ℕ → RawFr} {o n : ℕ} (h : Padded nodes o n)
    (hnodes : ∀ j, o + n ≤ j → nodes' j = nodes j) : Padded nodes' o n := by
  induction h with
  | root h => exact .root h
  | @level o n h hpad next ih =>
    refine .level h (fun k hk hlt => ?_) (ih fun j hj => hnodes j ?_)
    · rw [hnodes _ (Nat.add_le_add_left hk _)]
      exact hpad k hk hlt
    · have hle := le_nextN n
      omega

/-- One level, and what is built over it. -/
theorem Built.level {t t' : MerkleTreeBN128} {cursor n : ℕ} (hn : 1 < n)
    (hpad : ∀ k, n ≤ k → k < nextN 16 n * 16 → t.nodes (cursor + k) = 0)
    (h : Built poseidon (withLevel poseidon t cursor (cursor + nextN 16 n * 16)
      (if (n + 15) / 16 = 1 then n else 16) (nextN 16 n)) t' (cursor + nextN 16 n * 16) (nextN 16 n)) :
    Built poseidon t t' cursor n := by
  have hbatches : nextN 16 n = (n + 15) / 16 := nextN_eq (by omega)
  have hnodes (j : ℕ) (hj : j < cursor + nextN 16 n * 16) : t'.nodes j = t.nodes j :=
    (h.nodes j (by omega)).trans (withLevel_nodes_of_lt hj)
  have hgroup (i : ℕ) (hi : i < nextN 16 n) :
      group 16 t'.nodes (cursor + i * 16) = batch t.nodes (if (n + 15) / 16 = 1 then n else 16)
        (cursor + i * 16) := by
    rw [batch_eq_group (hbatches ▸ hi) hpad]
    exact group_congr fun k hk => hnodes _ (by omega)
  refine ⟨h.config, List.Subset.trans (List.subset_append_left _ _) h.hashed, hnodes,
    .level hn (fun k hk hlt => ?_) h.padded, ?_⟩
  · rw [hnodes _ (by omega)]
    exact hpad k hk hlt
  · rw [rootAt, if_neg (Nat.not_le.mpr hn)]
    refine .level hn (fun i hi => ?_) (fun i hi => ?_) h.tree
    · rw [hgroup i hi]
      exact h.hashed (List.mem_append_right _ (List.mem_map_of_mem (List.mem_range.mpr hi)))
    · rw [hgroup i hi]
      have hle := le_nextN (nextN 16 n)
      exact (h.nodes _ (by omega)).trans (withLevel_nodes hi)

theorem merkelizeLoop_built (n : ℕ) : ∀ {t : MerkleTreeBN128} {cursor m : ℕ}, n = 2 ^ m →
    Padded t.nodes cursor n → rootAt cursor n < t.numNodes →
    Built poseidon t (merkelizeLoop poseidon t cursor (cursor + nextN 16 n * 16) n) cursor n := by
  induction n using Nat.strong_induction_on with
  | _ n ih =>
    intro t cursor m hm hpadded hroot
    rw [merkelizeLoop]
    split
    · next hn =>
      cases hpadded with
      | root hle => exact absurd hn (Nat.not_lt.mpr hle)
      | level _ hpad hnext =>
        obtain ⟨m', hm'⟩ := exists_nextN_pow m
        rw [← hm] at hm'
        rw [rootAt, if_neg (Nat.not_le.mpr hn)] at hroot
        have hbatches : (n + 15) / 16 = nextN 16 n := (nextN_eq (by omega)).symm
        have hlast := add_le_rootAt (o := cursor + nextN 16 n * 16) (n := nextN 16 n) (Nat.succ_pos _)
        have hlevel : hashLevel poseidon t cursor (cursor + nextN 16 n * 16) n = withLevel poseidon t cursor
            (cursor + nextN 16 n * 16) (if (n + 15) / 16 = 1 then n else 16) ((n + 15) / 16) :=
          hashLevel_eq (by rw [hbatches]) (by rw [hbatches]; exact hlast.trans hroot)
        have hloop : cursor + nextN 16 n * 16 + max ((n - 1) / 16 + 1) 16 =
            cursor + nextN 16 n * 16 + nextN 16 (nextN 16 n) * 16 := by
          rw [show (n - 1) / 16 + 1 = nextN 16 n from rfl, hm', max_pow]
        rw [hlevel]
        dsimp only
        rw [hloop]
        refine .level hn hpad ?_
        rw [hbatches]
        exact ih _ (nextN_lt hn) hm' (hnext.congr fun j hj => withLevel_nodes_of_ge hj) hroot
    · next hn =>
      have hle := Nat.le_of_not_lt hn
      refine ⟨rfl, List.Subset.refl _, fun _ _ => rfl, .root hle, ?_⟩
      rw [rootAt, if_pos hle]
      exact .root hle

/-! ## The size of the array -/

theorem getNumNodesLoop_eq (n : ℕ) : ∀ {o : ℕ}, 1 < n →
    getNumNodesLoop n (o + nextN 16 n * 16) = rootAt o n + 1 := by
  induction n using Nat.strong_induction_on with
  | _ n ih =>
    intro o hn
    rw [getNumNodesLoop, if_pos hn, rootAt, if_neg (Nat.not_le.mpr hn)]
    show getNumNodesLoop (nextN 16 n) (if 1 < nextN 16 n then _ + nextN 16 (nextN 16 n) * 16 else _ + 1) = _
    split
    · next hnext => exact ih _ (nextN_lt hn) hnext
    · next hnext => rw [getNumNodesLoop, if_neg hnext, rootAt, if_pos (Nat.le_of_not_lt hnext)]

/-- The root is the last node. -/
theorem getNumNodes_eq {n : ℕ} (h : 1 < n) (hlt : n < 2 ^ 32) : getNumNodes n = rootAt 0 n + 1 := by
  have hmod : n % 2 ^ 32 = n := Nat.mod_eq_of_lt hlt
  have hnext : (n + 2 ^ 32 - 1) % 2 ^ 32 / 16 + 1 = nextN 16 n := by
    unfold nextN
    omega
  rw [getNumNodes, hmod, hnext, ← getNumNodesLoop_eq n h, Nat.zero_add]

end MerkleTreeBN128

end ZkevmProver
