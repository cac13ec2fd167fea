import Mathlib.Data.List.GetD
import ZkevmProver.StarkPil.MerkleTreeBN128

/-!
# The openings of the Merkle tree over BN128

  1. What an opening has to satisfy.
  2. The groups of a proof.
  3. What a call leaves.
  4. Heights from 16 on.
  5. Other heights.
  6. When all openings verify.
-/

namespace ZkevmProver

open Loops NodeTree

namespace MerkleTreeBN128

/-! ## Openings -/

/-- The leaf of a row, from what is in its node before. -/
def leafOver (poseidon : List RawFr → RawFr) (x : RawFr) (row : List (BitVec 64)) : RawFr :=
  leafFrom poseidon row.length ((row.length + 2) / 3) x row

/-- A row hashed as the leaf of a new tree. -/
def freshLeaf (poseidon : List RawFr → RawFr) (row : List (BitVec 64)) : RawFr := leafOver poseidon 0 row

/-- What `getGroupProof` returns leads from the hash of the row to the root. -/
def Opens (poseidon : List RawFr → RawFr) (t : MerkleTreeBN128) (idx : ℕ) : Prop :=
  ∃ row groups, t.getGroupProof idx = some (row, groups) ∧
    Verifies poseidon 0 16 t.getRoot (freshLeaf poseidon row) idx groups

/-- A call has all the elements that it copies. -/
def Call.Fits (height width : ℕ) : Call → Prop
  | .merkelize => True
  | .initializeTree source => height * width ≤ source.length

/-- All openings verify after any `n` calls on a tree of this height and width. -/
def OpeningsVerify (height width n : ℕ) : Prop :=
  ∀ (poseidon : List RawFr → RawFr) (source : List (BitVec 64)) (calls : List Call),
    source.length = height * width → (∀ call ∈ calls, call.Fits height width) → calls.length = n →
      (run poseidon (new height width source) calls).outside = false ∧
        ∀ idx < height, Opens poseidon (run poseidon (new height width source) calls) idx

/-- The number of elements of a row is a multiple of 2 ^ 32, so that `pending` is zero. -/
def Unhashed (width : ℕ) : Prop := 4 < width ∧ (width + 2) / 3 % 2 ^ 32 = 0

/-! ## Proofs -/

theorem genMerkleProof_path (nodes : ℕ → RawFr) (idx offset n : ℕ) (h : idx < 2 ^ 32) :
    Path 16 nodes idx offset n (merkle_genMerkleProof nodes idx offset n) := by
  fun_induction merkle_genMerkleProof nodes idx offset n with
  | case1 idx offset n hn => exact .root hn
  | case2 idx offset n hn nextIdx si nextN' ih =>
    have hsi : si = idx / 16 * 16 := by
      show idx % 2 ^ 32 / 16 * 16 = idx / 16 * 16
      rw [Nat.mod_eq_of_lt h]
    rw [hsi]
    exact .level (Nat.lt_of_not_le hn) (ih ((Nat.div_le_self _ _).trans_lt h))

theorem length_genMerkleProof (nodes : ℕ → RawFr) (idx offset n : ℕ) :
    (merkle_genMerkleProof nodes idx offset n).length = getMerkleProofLength n := by
  fun_induction merkle_genMerkleProof nodes idx offset n with
  | case1 idx offset n hn => exact (Nat.clog_of_right_le_one hn 16).symm
  | case2 idx offset n hn nextIdx si nextN' ih =>
    have hdiv : (n + 16 - 1) / 16 = (n - 1) / 16 + 1 := by omega
    rw [List.length_cons, ih, getMerkleProofLength, getMerkleProofLength,
      Nat.clog_of_two_le (by decide) (Nat.lt_of_not_le hn), hdiv]

theorem getGroupProof_eq {t : MerkleTreeBN128} {idx : ℕ} (h : idx < t.height) :
    t.getGroupProof idx = some (t.row idx, merkle_genMerkleProof t.nodes idx 0 t.height) := by
  have hlength := length_genMerkleProof t.nodes idx 0 t.height
  unfold getGroupProof
  dsimp only
  rw [if_pos ⟨h, hlength.le⟩, hlength, Nat.sub_self, List.replicate_zero, List.append_nil]

theorem opens_iff_verifies {poseidon : List RawFr → RawFr} {t : MerkleTreeBN128} {idx : ℕ} (h : idx < t.height) :
    Opens poseidon t idx ↔ Verifies poseidon 0 16 t.getRoot (freshLeaf poseidon (t.row idx)) idx
      (merkle_genMerkleProof t.nodes idx 0 t.height) := by
  unfold Opens
  rw [getGroupProof_eq h]
  constructor
  · rintro ⟨row, groups, heq, hverifies⟩
    obtain ⟨rfl, rfl⟩ := Prod.mk.inj (Option.some_inj.mp heq)
    exact hverifies
  · exact fun hverifies => ⟨_, _, rfl, hverifies⟩

/-! ## Calls -/

/-- What stays when nodes are written. -/
structure Later (t t' : MerkleTreeBN128) : Prop where
  source : t'.source = t.source
  numNodes : t'.numNodes = t.numNodes
  height : t'.height = t.height
  width : t'.width = t.width
  source_width : t'.source_width = t.source_width
  outside : t.outside = true → t'.outside = true

section Later

variable {poseidon : List RawFr → RawFr} {t t' t'' : MerkleTreeBN128}

theorem Later.refl (t : MerkleTreeBN128) : Later t t := ⟨rfl, rfl, rfl, rfl, rfl, id⟩

theorem Later.trans (h : Later t t') (h' : Later t' t'') : Later t t'' where
  source := h'.source.trans h.source
  numNodes := h'.numNodes.trans h.numNodes
  height := h'.height.trans h.height
  width := h'.width.trans h.width
  source_width := h'.source_width.trans h.source_width
  outside := h'.outside ∘ h.outside

theorem later_write (i : ℕ) (x : RawFr) : Later t (t.write i x) where
  source := rfl
  numNodes := rfl
  height := rfl
  width := rfl
  source_width := rfl
  outside := fun h => by rw [write, h, Bool.true_or]

theorem later_hash (elements : List RawFr) (i : ℕ) : Later t (hash poseidon t elements i) where
  source := rfl
  numNodes := rfl
  height := rfl
  width := rfl
  source_width := rfl
  outside := (later_write (t := { t with hashed := t.hashed ++ [elements] }) i _).outside

theorem later_hashRow (i : ℕ) (buff : List RawFr) (pending : ℕ) :
    Later t (hashRow poseidon t i buff pending) := by
  fun_induction hashRow poseidon t i buff pending with
  | case1 t => exact .refl t
  | case2 t pending h h16 ih => exact (later_hash _ _).trans ih
  | case3 t pending h h16 => exact later_hash _ _

theorem later_linearHash (poseidon : List RawFr → RawFr) : Later t (linearHash poseidon t) := by
  unfold linearHash
  split
  · exact forUpTo_inv (J := fun _ s => Later t s) (.refl t) fun i _ s hs => hs.trans (later_hashRow _ _ _)
  · exact forUpTo_inv (J := fun _ s => Later t s) (.refl t) fun i _ s hs => hs.trans (later_write _ _)

theorem later_hashLevel (cursor cursorNext n256 : ℕ) :
    Later t (hashLevel poseidon t cursor cursorNext n256) :=
  forUpTo_inv (J := fun _ s => Later t s) (.refl t) fun _ _ _ hs => hs.trans (later_hash _ _)

theorem later_merkelizeLoop (cursor cursorNext n256 : ℕ) :
    Later t (merkelizeLoop poseidon t cursor cursorNext n256) := by
  fun_induction merkelizeLoop poseidon t cursor cursorNext n256 with
  | case1 t cursor cursorNext n256 h n256' ih => exact (later_hashLevel _ _ _).trans ih
  | case2 t cursor cursorNext n256 h => exact .refl t

theorem later_merkelize (poseidon : List RawFr → RawFr) : Later t (merkelize poseidon t) :=
  (later_linearHash poseidon).trans (later_merkelizeLoop _ _ _)

end Later

/-- The sizes of a tree. -/
structure Shaped (height width : ℕ) (t : MerkleTreeBN128) : Prop where
  height_eq : t.height = height
  source_width_eq : t.source_width = width
  width_eq : 4 < width → t.width = (width + 2) / 3
  numNodes_eq : t.numNodes = getNumNodes height
  source_length : t.source.length = height * width

/-- The tree that a call hashes. -/
def Call.load (t : MerkleTreeBN128) : Call → MerkleTreeBN128
  | .merkelize => t
  | .initializeTree source => { t with source := source.take (t.height * t.source_width) }

section Calls

variable {poseidon : List RawFr → RawFr} {t t' : MerkleTreeBN128} {height width : ℕ} {call : Call}

theorem exec_eq (t : MerkleTreeBN128) (call : Call) :
    exec poseidon t call = merkelize poseidon (call.load t) := by
  cases call <;> rfl

theorem run_append (t : MerkleTreeBN128) (calls calls' : List Call) :
    run poseidon t (calls ++ calls') = run poseidon (run poseidon t calls) calls' :=
  List.foldl_append

theorem shaped_new {source : List (BitVec 64)} (h : source.length = height * width) :
    Shaped height width (new height width source) where
  height_eq := rfl
  source_width_eq := rfl
  width_eq := fun hw => if_pos hw
  numNodes_eq := rfl
  source_length := h

theorem Shaped.later (h : Shaped height width t) (hlater : Later t t') : Shaped height width t' where
  height_eq := hlater.height.trans h.height_eq
  source_width_eq := hlater.source_width.trans h.source_width_eq
  width_eq := fun hw => hlater.width.trans (h.width_eq hw)
  numNodes_eq := hlater.numNodes.trans h.numNodes_eq
  source_length := hlater.source ▸ h.source_length

theorem Shaped.load (h : Shaped height width t) (hfits : call.Fits height width) :
    Shaped height width (call.load t) := by
  cases call with
  | merkelize => exact h
  | initializeTree source =>
    refine ⟨h.height_eq, h.source_width_eq, h.width_eq, h.numNodes_eq, ?_⟩
    show (source.take (t.height * t.source_width)).length = height * width
    rw [h.height_eq, h.source_width_eq, List.length_take]
    exact min_eq_left hfits

theorem Shaped.length_row (h : Shaped height width t) {i : ℕ} (hi : i < height) :
    (t.row i).length = width := by
  have hle : (i + 1) * width ≤ height * width := Nat.mul_le_mul_right _ hi
  rw [Nat.add_mul, Nat.one_mul] at hle
  rw [row, List.length_take, List.length_drop, h.source_length, h.source_width_eq]
  omega

theorem Shaped.leafFrom_eq (h : Shaped height width t) {i : ℕ} (hi : i < height) (x : RawFr) :
    leafFrom poseidon t.source_width t.width x (t.row i) = leafOver poseidon x (t.row i) := by
  rw [leafOver, h.length_row hi, h.source_width_eq, leafFrom, leafFrom]
  split
  · next hw => rw [h.width_eq hw]
  · rfl

end Calls

/-! ## Heights from 16 on -/

/-- The heights for which the levels fit together. -/
def GoodHeight (height : ℕ) : Prop := (∃ m, height = 2 ^ m) ∧ 16 ≤ height ∧ height < 2 ^ 32

/-- A tree between two calls. -/
structure Ready (height width : ℕ) (t : MerkleTreeBN128) : Prop extends Shaped height width t where
  padded : Padded t.nodes 0 height
  outside : t.outside = false

theorem padded_zero (o n : ℕ) : Padded (fun _ => 0) o n := by
  fun_induction rootAt o n with
  | case1 o n h => exact .root h
  | case2 o n h ih => exact .level (Nat.lt_of_not_le h) (fun _ _ _ => rfl) ih

section GoodHeight

variable {poseidon : List RawFr → RawFr} {t : MerkleTreeBN128} {height width : ℕ} {call : Call}

theorem ready_new {source : List (BitVec 64)} (h : source.length = height * width) :
    Ready height width (new height width source) where
  toShaped := shaped_new h
  padded := padded_zero 0 height
  outside := rfl

theorem Ready.load (h : Ready height width t) (hfits : call.Fits height width) :
    Ready height width (call.load t) where
  toShaped := h.toShaped.load hfits
  padded := by cases call <;> exact h.padded
  outside := by cases call <;> exact h.outside

theorem Ready.built (poseidon : List RawFr → RawFr) (h : Ready height width t) (hgood : GoodHeight height) :
    Built poseidon (withLeaves poseidon t height) (merkelize poseidon t) 0 height := by
  obtain ⟨⟨m, hm⟩, h16, hlt⟩ := hgood
  have hroot : t.numNodes = rootAt 0 height + 1 := h.numNodes_eq.trans (getNumNodes_eq (by omega) hlt)
  have hle : height ≤ t.numNodes := by
    have hadd := add_le_rootAt (o := 0) (n := height) (by omega)
    omega
  have hnext : height = nextN 16 height * 16 := by
    have hmax := max_pow m
    rw [← hm, max_eq_left h16] at hmax
    exact hmax
  have hpadded : Padded (withLeaves poseidon t height).nodes 0 height :=
    h.padded.congr fun j hj => if_neg (by omega)
  have hbuilt : Built poseidon (withLeaves poseidon t height) (merkelizeLoop poseidon
      (withLeaves poseidon t height) 0 (0 + nextN 16 height * 16) height) 0 height :=
    merkelizeLoop_built height hm hpadded (by rw [withLeaves, hroot]; exact Nat.lt_succ_self _)
  rw [← hnext, Nat.zero_add] at hbuilt
  unfold merkelize
  rw [linearHash_eq (by rw [h.height_eq]; exact hle), h.height_eq]
  dsimp only
  rw [show (withLeaves poseidon t height).height = height from h.height_eq]
  exact hbuilt

theorem Ready.merkelize (poseidon : List RawFr → RawFr) (h : Ready height width t) (hgood : GoodHeight height) :
    Ready height width (merkelize poseidon t) where
  toShaped := h.toShaped.later (later_merkelize poseidon)
  padded := (h.built poseidon hgood).padded
  outside := by
    rw [(h.built poseidon hgood).config]
    exact h.outside

theorem Ready.nodes_merkelize (h : Ready height width t) (hgood : GoodHeight height) {i : ℕ}
    (hi : i < height) :
    (MerkleTreeBN128.merkelize poseidon t).nodes i = leafOver poseidon (t.nodes i) (t.row i) := by
  have hle := le_nextN height
  rw [(h.built poseidon hgood).nodes i (by omega), ← h.toShaped.leafFrom_eq hi]
  exact if_pos hi

/-- An opening verifies if and only if the leaf is that of a new tree. -/
theorem Ready.opens_iff (h : Ready height width t) (hgood : GoodHeight height) {idx : ℕ}
    (hidx : idx < height) :
    Opens poseidon (MerkleTreeBN128.merkelize poseidon t) idx ↔
      freshLeaf poseidon (t.row idx) = leafOver poseidon (t.nodes idx) (t.row idx) := by
  have hmerkelize := h.merkelize poseidon hgood
  have hrow : (MerkleTreeBN128.merkelize poseidon t).row idx = t.row idx := by
    have hlater := later_merkelize poseidon (t := t)
    rw [row, hlater.source, hlater.source_width, row]
  have hpath := genMerkleProof_path (MerkleTreeBN128.merkelize poseidon t).nodes idx 0 height
    (hidx.trans hgood.2.2)
  have hroot : (MerkleTreeBN128.merkelize poseidon t).getRoot =
      (MerkleTreeBN128.merkelize poseidon t).nodes (rootAt 0 height) := by
    rw [getRoot, hmerkelize.numNodes_eq, getNumNodes_eq (by have := hgood.2.1; omega) hgood.2.2,
      Nat.add_sub_cancel]
  rw [opens_iff_verifies (hmerkelize.height_eq.symm ▸ hidx), hrow, hmerkelize.height_eq, hroot,
    ← h.nodes_merkelize hgood hidx]
  constructor
  · intro hverifies
    have hnode := hverifies.eq_node hpath (by decide) (by have := hgood.2.1; omega)
    rwa [Nat.zero_add] at hnode
  · intro hleaf
    have hverifies := (h.built poseidon hgood).tree.verifies (by decide) hidx hpath
    rwa [Nat.zero_add, ← hleaf] at hverifies

theorem Ready.exec (poseidon : List RawFr → RawFr) (h : Ready height width t) (hgood : GoodHeight height) (hfits : call.Fits height width) :
    Ready height width (exec poseidon t call) := by
  rw [exec_eq]
  exact (h.load hfits).merkelize poseidon hgood

theorem Ready.run (poseidon : List RawFr → RawFr) {calls : List Call} (hgood : GoodHeight height)
    (hfits : ∀ call ∈ calls, call.Fits height width) (h : Ready height width t) :
    Ready height width (run poseidon t calls) := by
  induction calls generalizing t with
  | nil => exact h
  | cons call calls ih =>
    obtain ⟨hcall, hfits⟩ := List.forall_mem_cons.mp hfits
    exact ih hfits (h.exec poseidon hgood hcall)

theorem load_nodes : (call.load t).nodes = t.nodes := by cases call <;> rfl

theorem Ready.nodes_exec (h : Ready height width t) (hgood : GoodHeight height)
    (hfits : call.Fits height width) {i : ℕ} (hi : i < height) :
    (MerkleTreeBN128.exec poseidon t call).nodes i = leafOver poseidon (t.nodes i) ((call.load t).row i) := by
  rw [exec_eq, (h.load hfits).nodes_merkelize hgood hi, load_nodes]

/-- Four words are written over whatever there was. -/
theorem leafOver_four {row : List (BitVec 64)} (h : row.length = 4) (x y : RawFr) :
    leafOver poseidon x row = leafOver poseidon y row := by
  have hstore : RawFr.storeWords x (row.map toWord) = RawFr.storeWords y (row.map toWord) := by
    funext k
    have hk : k.val < (row.map toWord).length := by
      rw [List.length_map, h]
      exact k.isLt
    rw [RawFr.storeWords, RawFr.storeWords, List.getD_eq_getElem _ _ hk, List.getD_eq_getElem _ _ hk]
  rw [leafOver, leafOver, leafFrom, leafFrom, h, if_neg (by decide), if_neg (by decide), hstore]

/-- Nothing is hashed when there is nothing pending. -/
theorem leafOver_unhashed {row : List (BitVec 64)} (h : Unhashed row.length) (x : RawFr) :
    leafOver poseidon x row = x := by
  rw [leafOver, leafFrom, if_pos h.1, h.2, blocks, if_pos rfl]
  rfl

theorem nodes_unhashed {calls : List Call} (hgood : GoodHeight height) (hunhashed : Unhashed width)
    (hfits : ∀ call ∈ calls, call.Fits height width) (h : Ready height width t) {i : ℕ} (hi : i < height) :
    (MerkleTreeBN128.run poseidon t calls).nodes i = t.nodes i := by
  induction calls generalizing t with
  | nil => rfl
  | cons call calls ih =>
    obtain ⟨hcall, hfits⟩ := List.forall_mem_cons.mp hfits
    refine (ih hfits (h.exec poseidon hgood hcall)).trans ?_
    rw [h.nodes_exec hgood hcall hi]
    exact leafOver_unhashed ((h.load hcall).length_row hi ▸ hunhashed) _

theorem openingsVerify_of_good {n : ℕ} (hgood : GoodHeight height) (hn : 0 < n)
    (hcase : n = 1 ∨ width = 4 ∨ Unhashed width) : OpeningsVerify height width n := by
  intro poseidon source calls hsource hfits hlength
  have hready : Ready height width (new height width source) := ready_new hsource
  rcases List.eq_nil_or_concat calls with rfl | ⟨calls, call, rfl⟩
  · exact absurd hlength.symm hn.ne'
  · rw [List.concat_eq_append] at hfits hlength ⊢
    obtain ⟨hfits, hcall⟩ := List.forall_mem_append.mp hfits
    have hcall := hcall call (List.mem_singleton_self call)
    have hbefore := hready.run poseidon hgood hfits
    rw [run_append]
    refine ⟨(hbefore.exec poseidon hgood hcall).outside, fun idx hidx => ?_⟩
    show Opens poseidon (MerkleTreeBN128.exec poseidon (MerkleTreeBN128.run poseidon _ calls) call) idx
    have hload := hbefore.load hcall
    rw [exec_eq, hload.opens_iff hgood hidx, load_nodes]
    rcases hcase with rfl | rfl | hunhashed
    · obtain rfl : calls = [] := by
        rw [List.length_append, List.length_singleton] at hlength
        exact List.length_eq_zero_iff.mp (by omega)
      rfl
    · exact leafOver_four (hload.length_row hidx) _ _
    · rw [nodes_unhashed hgood hunhashed hfits hready hidx]
      rfl

end GoodHeight

/-! ## Other heights -/

section OtherHeights

variable {poseidon : List RawFr → RawFr} {t : MerkleTreeBN128} {height width : ℕ} {call : Call}

theorem hashLevel_frame {cursor cursorNext n256 j : ℕ}
    (hj : j < cursorNext ∨ cursorNext + (n256 + 15) / 16 ≤ j) :
    (hashLevel poseidon t cursor cursorNext n256).nodes j = t.nodes j := by
  refine forUpTo_inv (J := fun _ (s : MerkleTreeBN128) => s.nodes j = t.nodes j) rfl fun i hi s hs => ?_
  exact (Function.update_of_ne (by omega) _ _).trans hs

theorem lt_numNodes {height : ℕ} (h : 0 < height) (hlt : height < 16) : height + 1 < getNumNodes height := by
  have hcheck : ∀ n < 16, 0 < n → n + 1 < getNumNodes n := by
    intro n hn hpos
    rcases Nat.lt_or_ge 1 n with hone | hone
    · have hnext : nextN 16 n = 1 := by
        unfold nextN
        omega
      rw [getNumNodes_eq hone (by omega), rootAt, if_neg (Nat.not_le.mpr hone), hnext, rootAt, if_pos le_rfl]
      omega
    · obtain rfl : n = 1 := by omega
      rw [getNumNodes, getNumNodesLoop, if_neg (by decide)]
      decide
  exact hcheck height hlt h

/-- Below 16 rows the root is never written. -/
theorem Shaped.merkelize_nodes (h : Shaped height width t) (hpos : 0 < height) (hlt : height < 16) {j : ℕ}
    (hj : height < j) : (merkelize poseidon t).nodes j = t.nodes j := by
  have hle : t.height ≤ t.numNodes := by
    have hsize := lt_numNodes hpos hlt
    rw [h.height_eq, h.numNodes_eq]
    omega
  have hleaves : (withLeaves poseidon t t.height).nodes j = t.nodes j := if_neg (by rw [h.height_eq]; omega)
  rw [merkelize, linearHash_eq hle, ← hleaves, show (withLeaves poseidon t t.height).height = height from h.height_eq,
    merkelizeLoop]
  split
  · dsimp only
    rw [merkelizeLoop, if_neg (by omega)]
    exact hashLevel_frame (.inr (by omega))
  · rfl

theorem Shaped.exec (h : Shaped height width t) (hfits : call.Fits height width) :
    Shaped height width (exec poseidon t call) := by
  rw [exec_eq]
  exact (h.load hfits).later (later_merkelize poseidon)

theorem Shaped.run {calls : List Call} (hfits : ∀ call ∈ calls, call.Fits height width)
    (h : Shaped height width t) : Shaped height width (run poseidon t calls) := by
  induction calls generalizing t with
  | nil => exact h
  | cons call calls ih =>
    obtain ⟨hcall, hfits⟩ := List.forall_mem_cons.mp hfits
    exact ih hfits (h.exec hcall)

theorem Shaped.run_nodes {calls : List Call} (hfits : ∀ call ∈ calls, call.Fits height width)
    (h : Shaped height width t) (hpos : 0 < height) (hlt : height < 16) {j : ℕ} (hj : height < j) :
    (MerkleTreeBN128.run poseidon t calls).nodes j = t.nodes j := by
  induction calls generalizing t with
  | nil => rfl
  | cons call calls ih =>
    obtain ⟨hcall, hfits⟩ := List.forall_mem_cons.mp hfits
    refine (ih hfits (h.exec hcall)).trans ?_
    rw [exec_eq, (h.load hcall).merkelize_nodes hpos hlt hj, load_nodes]

/-- Some element that is not zero. -/
def mark : RawFr := fun _ => 1

theorem mark_ne_zero : mark ≠ 0 := fun h => absurd (congrFun h 0) (by decide)

/-- With a constant hash that is not zero, no opening verifies against an empty root. -/
theorem not_opens_const (h : Shaped height width t) (hheight : 1 < height) (hroot : t.getRoot = 0) :
    ¬ Opens (fun _ => mark) t 0 := by
  rw [opens_iff_verifies (h.height_eq ▸ Nat.lt_of_succ_lt hheight), hroot]
  intro hverifies
  refine mark_ne_zero (hverifies.eq_const ?_).symm
  rw [merkle_genMerkleProof, if_neg (Nat.not_le.mpr (h.height_eq ▸ hheight))]
  exact List.cons_ne_nil _ _

/-- Below 16 rows only one row that is not hashed can be opened. -/
theorem not_openingsVerify_small {n : ℕ} (hlt : height < 16) (hheight : 1 < height) :
    ¬ OpeningsVerify height width n := by
  intro h
  have hsource : (List.replicate (height * width) (0 : BitVec 64)).length = height * width :=
    List.length_replicate
  have hfits : ∀ call ∈ List.replicate n Call.merkelize, call.Fits height width := by
    intro call hcall
    rw [List.eq_of_mem_replicate hcall]
    trivial
  obtain ⟨-, hopens⟩ := h (fun _ => mark) _ _ hsource hfits List.length_replicate
  have hshaped : Shaped height width (new height width _) := shaped_new hsource
  refine not_opens_const (hshaped.run hfits) hheight ?_ (hopens 0 (Nat.lt_of_succ_lt hheight))
  have hsize := lt_numNodes (Nat.lt_of_succ_lt hheight) hlt
  rw [getRoot, (hshaped.run hfits).numNodes_eq, hshaped.run_nodes hfits (Nat.lt_of_succ_lt hheight) hlt (by omega)]
  rfl

/-- Before the first call the root is zero. -/
theorem not_openingsVerify_zero (hheight : 1 < height) : ¬ OpeningsVerify height width 0 := by
  intro h
  have hsource : (List.replicate (height * width) (0 : BitVec 64)).length = height * width :=
    List.length_replicate
  obtain ⟨-, hopens⟩ := h (fun _ => mark) _ [] hsource (fun _ hcall => absurd hcall List.not_mem_nil) rfl
  exact not_opens_const (shaped_new hsource) hheight rfl (hopens 0 (Nat.lt_of_succ_lt hheight))

/-- From 2 ^ 32 rows on the array is too short. -/
theorem Shaped.outside_merkelize (poseidon : List RawFr → RawFr) (h : Shaped height width t) (hheight : 1 < height)
    (hsize : getNumNodes height ≤ height) : (MerkleTreeBN128.merkelize poseidon t).outside = true := by
  have hlinear := h.later (later_linearHash poseidon)
  have hlevel : (hashLevel poseidon (linearHash poseidon t) 0 height height).outside = true := by
    have hbatches : 0 < (height + 15) / 16 := by omega
    have hinv := forUpTo_inv (n := (height + 15) / 16) (s := linearHash poseidon t)
      (f := fun i t => hash poseidon t (0 :: batch t.nodes (if (height + 15) / 16 = 1 then height else 16)
        (0 + i * 16)) (height + i))
      (J := fun i (s : MerkleTreeBN128) => s.numNodes = getNumNodes height ∧ (0 < i → s.outside = true))
      ⟨hlinear.numNodes_eq, fun hi => absurd hi (Nat.lt_irrefl 0)⟩ fun i _ s hs => ⟨hs.1, fun _ => ?_⟩
    · exact hinv.2 hbatches
    · show (s.outside || decide (s.numNodes ≤ height + i)) = true
      rw [hs.1, decide_eq_true (hsize.trans (Nat.le_add_right _ _)), Bool.or_true]
  rw [MerkleTreeBN128.merkelize, hlinear.height_eq, merkelizeLoop, if_pos hheight]
  exact (later_merkelizeLoop _ _ _).outside hlevel

theorem getNumNodes_pow {m : ℕ} (h : 32 ≤ m) : getNumNodes (2 ^ m) = 2 ^ 32 := by
  have hmod : 2 ^ m % 2 ^ 32 = 0 := Nat.mod_eq_zero_of_dvd (Nat.pow_dvd_pow 2 h)
  rw [getNumNodes, hmod, getNumNodesLoop, if_neg (by decide)]
  decide

theorem later_run (poseidon : List RawFr → RawFr) {calls : List Call} (hcalls : ∀ call ∈ calls, call = Call.merkelize) :
    Later t (run poseidon t calls) := by
  induction calls generalizing t with
  | nil => exact .refl t
  | cons call calls ih =>
    obtain ⟨rfl, hrest⟩ := List.forall_mem_cons.mp hcalls
    exact (later_merkelize poseidon).trans (ih hrest)

theorem not_openingsVerify_big {n : ℕ} (hpow : ∃ m, height = 2 ^ m) (hge : 2 ^ 32 ≤ height) :
    ¬ OpeningsVerify height width (n + 1) := by
  intro h
  have hsource : (List.replicate (height * width) (0 : BitVec 64)).length = height * width :=
    List.length_replicate
  have hcalls : ∀ call ∈ List.replicate n Call.merkelize, call = Call.merkelize :=
    fun call hcall => List.eq_of_mem_replicate hcall
  have hfits : ∀ call ∈ Call.merkelize :: List.replicate n Call.merkelize, call.Fits height width := by
    refine List.forall_mem_cons.mpr ⟨trivial, fun call hcall => ?_⟩
    rw [hcalls call hcall]
    trivial
  obtain ⟨hinside, -⟩ := h (fun _ => mark) _ _ hsource hfits (congrArg (· + 1) List.length_replicate)
  have hsize : getNumNodes height ≤ height := by
    obtain ⟨m, rfl⟩ := hpow
    rw [getNumNodes_pow ((Nat.pow_le_pow_iff_right (by decide)).mp hge)]
    exact hge
  have hnew : Shaped height width (new height width _) := shaped_new hsource
  have hlast := (later_run (fun _ => mark) hcalls).outside
    (hnew.outside_merkelize (fun _ => mark) (by omega) hsize)
  exact Bool.false_ne_true (hinside.symm.trans hlast)

end OtherHeights

/-! ## Leaves that are written again -/

/-- Keeps the capacity, unless the first element is not zero. -/
def keepOrMark (elements : List RawFr) : RawFr := if elements[1]? = some 0 then elements.headD 0 else mark

/-- Every block starts with an element of the row. -/
theorem head_blocks {width : ℕ} {buff : List RawFr} {pending : ℕ} (hlength : buff.length = width)
    (hpending : pending ≤ width) :
    ∀ block ∈ blocks width buff pending, ∃ x xs, block = x :: xs ∧ x ∈ buff := by
  have hhead (p k : ℕ) (hp : p ≤ width) (hpos : 0 < p) (hk : 0 < k) :
      ∃ x xs, (buff.drop (width - p)).take k = x :: xs ∧ x ∈ buff := by
    have hlt : width - p < buff.length := by omega
    obtain ⟨k, rfl⟩ := Nat.exists_eq_succ_of_ne_zero hk.ne'
    rw [List.drop_eq_getElem_cons hlt, List.take_succ_cons]
    exact ⟨_, _, rfl, List.getElem_mem hlt⟩
  fun_induction blocks width buff pending with
  | case1 => exact fun _ h => absurd h List.not_mem_nil
  | case2 pending hpos h16 ih =>
    exact List.forall_mem_cons.mpr ⟨hhead pending 16 hpending (Nat.pos_of_ne_zero hpos) (by decide),
      ih ((Nat.sub_le _ _).trans hpending)⟩
  | case3 pending hpos h16 =>
    exact List.forall_mem_singleton.mpr (hhead pending pending hpending (Nat.pos_of_ne_zero hpos)
      (Nat.pos_of_ne_zero hpos))

theorem blocks_ne_nil {width : ℕ} {buff : List RawFr} {pending : ℕ} (h : pending ≠ 0) :
    blocks width buff pending ≠ [] := by
  rw [blocks, if_neg h]
  split <;> exact List.cons_ne_nil _ _

theorem length_pack (width : ℕ) (row : List (BitVec 64)) : (pack width row).length = width := by
  rw [pack, List.length_map, List.length_range]

theorem chain_keep {bs : List (List RawFr)} (h : ∀ block ∈ bs, ∃ x xs, block = x :: xs ∧ x = 0) (x : RawFr) :
    chain keepOrMark x bs = x := by
  induction bs with
  | nil => rfl
  | cons block bs ih =>
    obtain ⟨⟨y, ys, rfl, rfl⟩, hrest⟩ := List.forall_mem_cons.mp h
    have hfirst : keepOrMark (x :: 0 :: ys) = x := if_pos rfl
    show chain keepOrMark (keepOrMark (x :: 0 :: ys)) bs = x
    rw [hfirst]
    exact ih hrest

theorem chain_mark {bs : List (List RawFr)} (h : ∀ block ∈ bs, ∃ x xs, block = x :: xs ∧ x ≠ 0) (hne : bs ≠ [])
    (x : RawFr) : chain keepOrMark x bs = mark := by
  induction bs generalizing x with
  | nil => exact absurd rfl hne
  | cons block bs ih =>
    obtain ⟨⟨y, ys, rfl, hy⟩, hrest⟩ := List.forall_mem_cons.mp h
    have hfirst : keepOrMark (x :: y :: ys) = mark := if_neg fun heq => hy (Option.some_inj.mp heq)
    show chain keepOrMark (keepOrMark (x :: y :: ys)) bs = mark
    rw [hfirst]
    cases bs with
    | nil => rfl
    | cons block' bs => exact ih hrest (List.cons_ne_nil _ _) mark

/-- Every element of a row of equal entries has one to three of them. -/
theorem mem_pack_replicate {width : ℕ} {a : BitVec 64} {x : RawFr}
    (h : x ∈ pack ((width + 2) / 3) (List.replicate width a)) :
    ∃ k, 0 < k ∧ k ≤ 3 ∧ x = RawFr.toMontgomery (RawFr.storeWords 0 (List.replicate k (toWord a))) := by
  obtain ⟨j, hj, rfl⟩ := List.mem_map.mp h
  have hj := List.mem_range.mp hj
  refine ⟨min 3 (width - j * 3), ?_, min_le_left _ _, ?_⟩
  · omega
  · rw [List.drop_replicate, List.take_replicate, List.map_replicate]

theorem toMontgomery_zeros (k : ℕ) (x : RawFr) (hx : x = 0) :
    RawFr.toMontgomery (RawFr.storeWords x (List.replicate k (toWord 0))) = 0 := by
  have hstore : RawFr.storeWords x (List.replicate k (toWord 0)) = 0 := by
    funext i
    rw [RawFr.storeWords, hx, List.getD_eq_getElem?_getD, List.getElem?_replicate]
    split <;> rfl
  rw [hstore]
  decide

theorem toMontgomery_ones {k : ℕ} (hpos : 0 < k) (hle : k ≤ 4) :
    RawFr.toMontgomery (RawFr.storeWords 0 (List.replicate k (toWord 1))) ≠ 0 := by
  match k, hpos, hle with
  | 1, _, _ => decide
  | 2, _, _ => decide
  | 3, _, _ => decide
  | 4, _, _ => decide

section Again

variable {height width : ℕ}

/-- A row of zeros over an empty node. -/
theorem leafOver_zeros : leafOver keepOrMark 0 (List.replicate width 0) = 0 := by
  rw [leafOver, leafFrom, List.length_replicate]
  split
  · refine chain_keep (fun block hblock => ?_) 0
    obtain ⟨x, xs, rfl, hx⟩ := head_blocks (length_pack _ _) (Nat.mod_le _ _) block hblock
    obtain ⟨k, -, -, rfl⟩ := mem_pack_replicate hx
    exact ⟨_, xs, rfl, toMontgomery_zeros k 0 rfl⟩
  · rw [List.map_replicate]
    exact toMontgomery_zeros width 0 rfl

/-- A row of zeros over the leaf of a row of ones. -/
theorem leafOver_again (hwidth : 0 < width) (hfour : width ≠ 4) (hhashed : ¬ Unhashed width) :
    leafOver keepOrMark (leafOver keepOrMark 0 (List.replicate width 1)) (List.replicate width 0) ≠ 0 := by
  rcases Nat.lt_or_ge 4 width with hlarge | hsmall
  · have hpending : (width + 2) / 3 % 2 ^ 32 ≠ 0 := fun h => hhashed ⟨hlarge, h⟩
    have hones : leafOver keepOrMark 0 (List.replicate width 1) = mark := by
      rw [leafOver, leafFrom, List.length_replicate, if_pos hlarge]
      refine chain_mark (fun block hblock => ?_) (blocks_ne_nil hpending) 0
      obtain ⟨x, xs, rfl, hx⟩ := head_blocks (length_pack _ _) (Nat.mod_le _ _) block hblock
      obtain ⟨k, hpos, hle, rfl⟩ := mem_pack_replicate hx
      exact ⟨_, xs, rfl, toMontgomery_ones hpos (by omega)⟩
    have hzeros : leafOver keepOrMark mark (List.replicate width 0) = mark := by
      rw [leafOver, leafFrom, List.length_replicate, if_pos hlarge]
      refine chain_keep (fun block hblock => ?_) mark
      obtain ⟨x, xs, rfl, hx⟩ := head_blocks (length_pack _ _) (Nat.mod_le _ _) block hblock
      obtain ⟨k, -, -, rfl⟩ := mem_pack_replicate hx
      exact ⟨_, xs, rfl, toMontgomery_zeros k 0 rfl⟩
    rw [hones, hzeros]
    exact mark_ne_zero
  · obtain rfl | rfl | rfl : width = 1 ∨ width = 2 ∨ width = 3 := by omega
    · decide
    · decide
    · decide

theorem row_replicate {t : MerkleTreeBN128} {a : BitVec 64} (h : Shaped height width t) (hheight : 0 < height)
    (hsource : t.source = List.replicate (height * width) a) : t.row 0 = List.replicate width a := by
  rw [row, hsource, h.source_width_eq, Nat.zero_mul, List.drop_zero, List.take_replicate,
    min_eq_left (Nat.le_mul_of_pos_left width hheight)]

theorem load_replicate {t : MerkleTreeBN128} {a : BitVec 64} (h : Shaped height width t) :
    (Call.load t (.initializeTree (List.replicate (height * width) a))).source =
      List.replicate (height * width) a := by
  show (List.replicate (height * width) a).take (t.height * t.source_width) = _
  rw [h.height_eq, h.source_width_eq, List.take_replicate, min_self]

/-- Any number of calls on rows of zeros. -/
theorem run_zeros (hgood : GoodHeight height) (n : ℕ) : ∀ {t : MerkleTreeBN128}, Ready height width t →
    t.source = List.replicate (height * width) 0 → t.nodes 0 = 0 →
    (run keepOrMark t (List.replicate n .merkelize)).nodes 0 = 0 := by
  have hpos : 0 < height := by
    have := hgood.2.1
    omega
  induction n with
  | zero => exact fun _ _ h => h
  | succ n ih =>
    intro t h hsource hnode
    have hfits : Call.Fits height width .merkelize := trivial
    refine ih (h.exec keepOrMark hgood hfits) ((later_merkelize keepOrMark).source.trans hsource) ?_
    rw [h.nodes_exec hgood hfits hpos, hnode]
    show leafOver keepOrMark 0 (t.row 0) = 0
    rw [row_replicate h.toShaped hpos hsource]
    exact leafOver_zeros

theorem not_openingsVerify_again {n : ℕ} (hgood : GoodHeight height) (hwidth : 0 < width) (hfour : width ≠ 4)
    (hhashed : ¬ Unhashed width) : ¬ OpeningsVerify height width (n + 2) := by
  intro h
  have hpos : 0 < height := by
    have := hgood.2.1
    omega
  have hsource (a : BitVec 64) : (List.replicate (height * width) a).length = height * width :=
    List.length_replicate
  have hones : Call.Fits height width (.initializeTree (List.replicate (height * width) 1)) := (hsource 1).ge
  have hzeros : Call.Fits height width (.initializeTree (List.replicate (height * width) 0)) := (hsource 0).ge
  have hfirst : ∀ call ∈ List.replicate n Call.merkelize, call.Fits height width := by
    intro call hcall
    rw [List.eq_of_mem_replicate hcall]
    trivial
  obtain ⟨-, hopens⟩ := h keepOrMark _ (List.replicate n .merkelize ++
    [.initializeTree (List.replicate (height * width) 1), .initializeTree (List.replicate (height * width) 0)])
    (hsource 0)
    (List.forall_mem_append.mpr ⟨hfirst, List.forall_mem_cons.mpr ⟨hones, List.forall_mem_singleton.mpr hzeros⟩⟩)
    (by rw [List.length_append, List.length_replicate]; rfl)
  have hnew : Ready height width (new height width _) := ready_new (hsource 0)
  have hrun := hnew.run keepOrMark hgood hfirst
  have hnode := run_zeros hgood n hnew rfl rfl
  have hnext := hrun.exec keepOrMark hgood hones
  have hopens := hopens 0 hpos
  rw [run_append] at hopens
  change Opens keepOrMark (exec keepOrMark (exec keepOrMark (run keepOrMark (new height width _) _)
    (.initializeTree (List.replicate (height * width) 1)))
    (.initializeTree (List.replicate (height * width) 0))) 0 at hopens
  rw [exec_eq, (hnext.load hzeros).opens_iff hgood hpos, load_nodes, hrun.nodes_exec hgood hones hpos,
    row_replicate (hnext.load hzeros).toShaped hpos (load_replicate hnext.toShaped),
    row_replicate (hrun.load hones).toShaped hpos (load_replicate hrun.toShaped)] at hopens
  rw [hnode, freshLeaf, leafOver_zeros] at hopens
  exact leafOver_again hwidth hfour hhashed hopens.symm

end Again

/-! ## A single row -/

section OneRow

variable {poseidon : List RawFr → RawFr} {t : MerkleTreeBN128} {width : ℕ}

/-- The root of a single row is not its leaf. -/
theorem Shaped.opens_one (h : Shaped 1 width t) (hroot : t.getRoot = 0) :
    Opens poseidon t 0 ↔ freshLeaf poseidon (t.row 0) = 0 := by
  rw [opens_iff_verifies (by rw [h.height_eq]; decide), h.height_eq, merkle_genMerkleProof, if_pos le_rfl, hroot]
  exact Iff.rfl

theorem Shaped.run_root_one {calls : List Call} (hfits : ∀ call ∈ calls, call.Fits 1 width)
    (h : Shaped 1 width t) (hnodes : ∀ j, t.nodes j = 0) :
    (MerkleTreeBN128.run poseidon t calls).getRoot = 0 := by
  have hsize : 1 + 1 < getNumNodes 1 := lt_numNodes (by decide) (by decide)
  rw [getRoot, (h.run hfits).numNodes_eq, h.run_nodes hfits (by decide) (by decide) (by omega)]
  exact hnodes _

theorem Shaped.outside_run_one {calls : List Call} (hfits : ∀ call ∈ calls, call.Fits 1 width)
    (h : Shaped 1 width t) (hinside : t.outside = false) :
    (MerkleTreeBN128.run poseidon t calls).outside = false := by
  induction calls generalizing t with
  | nil => exact hinside
  | cons call calls ih =>
    obtain ⟨hcall, hrest⟩ := List.forall_mem_cons.mp hfits
    refine ih hrest (h.exec hcall) ?_
    have hload := h.load hcall
    have hsize : 1 + 1 < getNumNodes 1 := lt_numNodes (by decide) (by decide)
    have hle : (call.load t).height ≤ (call.load t).numNodes := by
      rw [hload.height_eq, hload.numNodes_eq]
      omega
    rw [exec_eq, merkelize, linearHash_eq hle, merkelizeLoop, if_neg (by rw [withLeaves, hload.height_eq]; decide)]
    cases call <;> exact hinside

theorem chain_const {bs : List (List RawFr)} (h : bs ≠ []) (x : RawFr) : chain (fun _ => mark) x bs = mark := by
  induction bs generalizing x with
  | nil => exact absurd rfl h
  | cons block bs ih =>
    cases bs with
    | nil => rfl
    | cons block' bs => exact ih (List.cons_ne_nil _ _) mark

theorem openingsVerify_one {n : ℕ} (hwidth : 0 < width) : OpeningsVerify 1 width n ↔ Unhashed width := by
  constructor
  · intro h
    by_contra hhashed
    have hsource : (List.replicate (1 * width) (1 : BitVec 64)).length = 1 * width := List.length_replicate
    have hcalls : ∀ call ∈ List.replicate n Call.merkelize, call = Call.merkelize :=
      fun call hcall => List.eq_of_mem_replicate hcall
    have hfits : ∀ call ∈ List.replicate n Call.merkelize, call.Fits 1 width := by
      intro call hcall
      rw [hcalls call hcall]
      trivial
    have hnew : Shaped 1 width (new 1 width _) := shaped_new hsource
    have hlater := later_run (fun _ => mark)
      (t := new 1 width (List.replicate (1 * width) 1)) hcalls
    obtain ⟨-, hopens⟩ := h (fun _ => mark) _ _ hsource hfits List.length_replicate
    have hleaf := ((hnew.run hfits).opens_one (hnew.run_root_one hfits fun _ => rfl)).mp (hopens 0 (by decide))
    rw [row_replicate (hnew.run hfits) (by decide) hlater.source, freshLeaf, leafOver, leafFrom,
      List.length_replicate] at hleaf
    split at hleaf
    · next hlarge =>
      rw [chain_const (blocks_ne_nil fun h => hhashed ⟨hlarge, h⟩)] at hleaf
      exact mark_ne_zero hleaf
    · next hsmall =>
      rw [List.map_replicate] at hleaf
      exact toMontgomery_ones hwidth (Nat.le_of_not_lt hsmall) hleaf
  · intro hunhashed poseidon source calls hsource hfits _
    have hnew : Shaped 1 width (new 1 width _) := shaped_new hsource
    refine ⟨hnew.outside_run_one hfits rfl, fun idx hidx => ?_⟩
    obtain rfl : idx = 0 := Nat.lt_one_iff.mp hidx
    refine ((hnew.run hfits).opens_one (hnew.run_root_one hfits fun _ => rfl)).mpr ?_
    refine leafOver_unhashed ?_ 0
    rw [(hnew.run hfits).length_row (by decide)]
    exact hunhashed

end OneRow

/-! ## All openings -/

/-- All openings verify after `n` calls if and only if the height is from 16 on and below 2 ^ 32, and there
is one call, or at least one and rows of four elements, which leave nothing of the node before.  A row with a
multiple of 2 ^ 32 elements is not hashed at all. -/
theorem openings_verify_iff {height width : ℕ} (n : ℕ) (hpow : ∃ m, height = 2 ^ m) (hwidth : 0 < width) :
    OpeningsVerify height width n ↔
      (16 ≤ height ∧ height < 2 ^ 32 ∧ 0 < n ∧
        (n = 1 ∨ width = 4 ∨ (4 < width ∧ (width + 2) / 3 % 2 ^ 32 = 0))) ∨
      (height = 1 ∧ 4 < width ∧ (width + 2) / 3 % 2 ^ 32 = 0) := by
  constructor
  · intro h
    have hpos : 0 < height := by
      obtain ⟨m, rfl⟩ := hpow
      exact Nat.two_pow_pos m
    rcases Nat.lt_or_ge height 16 with hsmall | h16
    · right
      obtain rfl : height = 1 := by
        by_contra hne
        exact not_openingsVerify_small hsmall (by omega) h
      exact ⟨rfl, (openingsVerify_one hwidth).mp h⟩
    · left
      obtain ⟨n, rfl⟩ : ∃ k, n = k + 1 := by
        refine Nat.exists_eq_succ_of_ne_zero ?_
        rintro rfl
        exact not_openingsVerify_zero (by omega) h
      have hlt : height < 2 ^ 32 := by
        by_contra hge
        exact not_openingsVerify_big hpow (Nat.le_of_not_lt hge) h
      refine ⟨h16, hlt, Nat.succ_pos n, ?_⟩
      by_contra hcase
      obtain ⟨hone, hfour, hhashed⟩ := not_or.mp hcase |>.imp_right not_or.mp
      obtain ⟨n, rfl⟩ := Nat.exists_eq_succ_of_ne_zero fun hn => hone (congrArg (· + 1) hn)
      exact not_openingsVerify_again ⟨hpow, h16, hlt⟩ hwidth hfour hhashed h
  · rintro (⟨h16, hlt, hn, hcase⟩ | ⟨rfl, hunhashed⟩)
    · exact openingsVerify_of_good ⟨hpow, h16, hlt⟩ hn hcase
    · exact (openingsVerify_one hwidth).mpr hunhashed

theorem openings_verify_sixteen : OpeningsVerify 16 3 1 :=
  (openings_verify_iff 1 ⟨4, rfl⟩ (by decide)).mpr (.inl ⟨le_rfl, by decide, by decide, .inl rfl⟩)

/-- Eight rows after one call, and sixteen rows after two. -/
theorem openings_fail : ¬ OpeningsVerify 8 3 1 ∧ ¬ OpeningsVerify 16 3 2 :=
  ⟨not_openingsVerify_small (by decide) (by decide),
    not_openingsVerify_again ⟨⟨4, rfl⟩, le_rfl, by decide⟩ (by decide) (by decide) fun h => absurd h.1 (by decide)⟩

end MerkleTreeBN128

end ZkevmProver
