import ZkevmProver.HashDB.SmtMap
import ZkevmProver.HashDB64.TreeChunkRows

/-!
# Which pairs of a chunk are preimages

The pairs that `getHashValues` adds link the hash of a chunk to each of its children.  The pair of an
intermediate node is a preimage.  The pair of a leaf has the remaining key of the level above `children64`,
whatever the level is that the leaf has been hashed at, and in the rows that a leaf only passes it has not
been hashed.

  1. What a chunk says to a reader.
  2. Intermediate nodes.
  3. Where a leaf stands.
  4. The way to a child.
  5. When all pairs are preimages.
-/

namespace ZkevmProver.HashDB64

variable (smt : Smt)

/-! ## What a chunk says to a reader -/

/-- The pair is a preimage. -/
def IsPreimage (pair : HashValueGL) : Prop := pair.hash = smt.poseidon pair.value

/-- The bits of a position below row `k`, from the highest one on. -/
def bitsBelow (position : ℕ) : ℕ → List Bool
  | 0 => []
  | k + 1 => (position / 2 ^ k % 2 == 1) :: bitsBelow position k

/-- A reader who knows the pairs comes from a hash to a child by the bits of its position: over pairs of
intermediate nodes to a hash of the chunk below, or to the pair of a leaf and that of its value. -/
inductive Reaches (pairs : List HashValueGL) : Fea → List Bool → Child → Prop
  | intermediate {hash : Fea} : Reaches pairs hash [] (.intermediate hash)
  | leaf {hash rkey valueHash : Fea} {bits : List Bool} {node : LeafNode} :
      ⟨hash, ⟨rkey, valueHash, capacityOne⟩⟩ ∈ pairs →
      ⟨valueHash, valueNode node.value⟩ ∈ pairs → Reaches pairs hash bits (.leaf node)
  | step {hash left right : Fea} {bit : Bool} {bits : List Bool} {child : Child} :
      ⟨hash, ⟨left, right, capacityZero⟩⟩ ∈ pairs →
      Reaches pairs (if bit then right else left) bits child → Reaches pairs hash (bit :: bits) child

/-- The chunk can be hashed, and the pairs of each position are preimages, have one of the root unless
the chunk is empty, and lead to the child at the position. -/
def GenuinePreimages (chunk : TreeChunk) : Prop :=
  ∃ chunk' added, TreeChunk.calculateHash smt chunk = .ok (chunk', added) ∧
    ∀ position < 64, ∃ pairs, TreeChunk.getHashValues smt chunk' position = .ok pairs ∧
      (∀ pair ∈ pairs, IsPreimage smt pair) ∧
      (chunk'.child1 ≠ .zero → ∃ pair ∈ pairs, pair.hash = chunk'.hash) ∧
      (childAt chunk.children64 position ≠ .zero →
        Reaches pairs chunk'.hash (bitsBelow position 6) (childAt chunk.children64 position))

/-- All other children below the same node of row `k` are zero. -/
def Alone (children : ℕ → Child) (k position : ℕ) : Prop :=
  ∀ i, i / 2 ^ k = position / 2 ^ k → i ≠ position → children i = .zero

open Classical in
/-- The hash of a leaf in row `k`, up to which it is alone: it is hashed at the level of the row when its
node has another child there, and at level 0 when the tree has no other leaf. -/
noncomputable def hashInRow (level : ℕ) (children : ℕ → Child) (k position : ℕ) (node : LeafNode) : Fea :=
  if k < 6 ∧ ¬Alone children (k + 1) position then
    smt.poseidon (smt.leafNode (level + (6 - k)) node.key node.value)
  else if level = 0 ∧ 5 ≤ k then smt.poseidon (smt.leafNode 0 node.key node.value)
  else node.hash

/-- In each row where a leaf stands it has the hash of the level above `children64`. -/
def LeavesAgree (level : ℕ) (children : ℕ → Child) : Prop :=
  ∀ position < 64, ∀ node, children position = .leaf node → ∀ k ≤ 6, Alone children k position →
    hashInRow smt level children k position node =
      smt.poseidon (smt.leafNode (level + 5) node.key node.value)

/-! ## Intermediate nodes -/

section Two

variable {level : ℕ} {left right : Child}

theorem touched_of_not_leaf {child : Child} (h : ∀ node, child ≠ .leaf node) (sibling : Child) :
    touched smt level child sibling = child := by
  unfold touched
  split
  · exact absurd rfl (h _)
  · exact absurd rfl (h _)
  · rfl

theorem eq_intermediate_of_touched {child sibling : Child} {hash : Fea}
    (h : touched smt level child sibling = .intermediate hash) : child = .intermediate hash := by
  unfold touched at h
  split at h
  · split_ifs at h
  · exact nomatch h
  · exact h

theorem eq_zero_of_touched {child sibling : Child} (h : touched smt level child sibling = .zero) :
    child = .zero := by
  unfold touched at h
  split at h
  · split_ifs at h
  · exact nomatch h
  · exact h

theorem joined_eq_intermediate {hash : Fea} (h : joined smt level left right = .intermediate hash) :
    hash = smt.poseidon
      ⟨(touched smt level left right).hash, (touched smt level right left).hash, capacityZero⟩ := by
  unfold joined at h
  split at h
  · exact nomatch h
  · exact nomatch eq_intermediate_of_touched smt h
  · exact nomatch eq_intermediate_of_touched smt h
  · exact (Child.intermediate.inj h).symm

theorem joined_eq_zero : joined smt level left right = .zero ↔ left = .zero ∧ right = .zero := by
  constructor
  · intro h
    unfold joined at h
    split at h
    · exact ⟨rfl, rfl⟩
    · exact nomatch eq_zero_of_touched smt h
    · exact nomatch eq_zero_of_touched smt h
    · exact nomatch h
  · rintro ⟨rfl, rfl⟩
    rfl

/-- A node is a leaf when one of its children is, and the other one is zero. -/
theorem joined_eq_leaf {node : LeafNode} (h : joined smt level left right = .leaf node) :
    (left = .zero ∧ ∃ node', right = .leaf node' ∧ touched smt level right .zero = .leaf node) ∨
      (right = .zero ∧ ∃ node', left = .leaf node' ∧ touched smt level left .zero = .leaf node) := by
  unfold joined at h
  split at h
  · exact nomatch h
  · exact .inl ⟨rfl, _, rfl, h⟩
  · exact .inr ⟨rfl, _, rfl, h⟩
  · exact nomatch h

end Two

section Rows

variable {smt} {level : ℕ} {children : ℕ → Child}

theorem outputs_of_settled_intermediate {k i : ℕ} {hash : Fea}
    (h : settled smt level children k i = .intermediate hash) :
    outputs smt level children k i = .intermediate hash := by
  unfold settled at h
  split_ifs at h with hsix
  · rwa [hsix]
  · exact eq_intermediate_of_touched smt h

theorem outputs_of_settled_zero {k i : ℕ} (h : settled smt level children k i = .zero) :
    outputs smt level children k i = .zero := by
  unfold settled at h
  split_ifs at h with hsix
  · rwa [hsix]
  · exact eq_zero_of_touched smt h

/-- The hash of an intermediate node is that of its two children as they are left. -/
theorem settled_intermediate {k i : ℕ} (hk : k < 6) {hash : Fea}
    (h : settled smt level children (k + 1) i = .intermediate hash) :
    hash = smt.poseidon ⟨(settled smt level children k (2 * i)).hash,
      (settled smt level children k (2 * i + 1)).hash, capacityZero⟩ := by
  have houtput := outputs_of_settled_intermediate h
  rw [settled_even smt level children hk, settled_odd smt level children hk]
  exact joined_eq_intermediate smt houtput

/-! ## Where a leaf stands -/

theorem div_two_pow_succ {q k i : ℕ} : q / 2 ^ (k + 1) = i ↔ q / 2 ^ k = 2 * i ∨ q / 2 ^ k = 2 * i + 1 := by
  rw [Nat.pow_succ, ← Nat.div_div_eq_div_mul]
  omega

theorem outputs_eq_zero {k i : ℕ} :
    outputs smt level children k i = .zero ↔ ∀ q, q / 2 ^ k = i → children q = .zero := by
  induction k generalizing i with
  | zero =>
    constructor
    · rintro h q rfl
      rwa [Nat.pow_zero, Nat.div_one] at h
    · intro h
      exact h i (by rw [Nat.pow_zero, Nat.div_one])
  | succ k ih =>
    have hjoined : outputs smt level children (k + 1) i = joined smt (level + (5 - k))
      (outputs smt level children k (2 * i)) (outputs smt level children k (2 * i + 1)) := rfl
    rw [hjoined, joined_eq_zero, ih, ih]
    constructor
    · rintro ⟨hleft, hright⟩ q hq
      rcases div_two_pow_succ.mp hq with hq | hq
      · exact hleft q hq
      · exact hright q hq
    · intro h
      exact ⟨fun q hq => h q (div_two_pow_succ.mpr (.inl hq)), fun q hq => h q (div_two_pow_succ.mpr (.inr hq))⟩

theorem Alone.of_succ {k q : ℕ} (h : Alone children (k + 1) q) : Alone children k q := by
  intro i hi hne
  apply h i _ hne
  rw [Nat.pow_succ, ← Nat.div_div_eq_div_mul, ← Nat.div_div_eq_div_mul, hi]

/-- A leaf is alone below the next node when it is alone below this one and its sibling is zero. -/
theorem alone_succ_iff {k q : ℕ} :
    Alone children (k + 1) q ↔
      Alone children k q ∧ outputs smt level children k (sibling (q / 2 ^ k)) = .zero := by
  have hparent : q / 2 ^ (k + 1) = q / 2 ^ k / 2 := by
    rw [Nat.pow_succ, ← Nat.div_div_eq_div_mul]
  have hsibling : sibling (q / 2 ^ k) / 2 = q / 2 ^ k / 2 ∧ sibling (q / 2 ^ k) ≠ q / 2 ^ k := by
    generalize q / 2 ^ k = y
    unfold sibling
    split_ifs <;> omega
  rw [outputs_eq_zero]
  constructor
  · intro h
    refine ⟨h.of_succ, fun i hi => h i ?_ ?_⟩
    · rw [hparent, Nat.pow_succ, ← Nat.div_div_eq_div_mul, hi, hsibling.1]
    · rintro rfl
      exact hsibling.2 hi.symm
  · rintro ⟨halone, hzero⟩ i hi hne
    by_cases hsame : i / 2 ^ k = q / 2 ^ k
    · exact halone i hsame hne
    · apply hzero
      rw [hparent, Nat.pow_succ, ← Nat.div_div_eq_div_mul] at hi
      generalize i / 2 ^ k = x at *
      generalize q / 2 ^ k = y at *
      unfold sibling
      split_ifs <;> omega

theorem outputs_eq_leaf {k : ℕ} (hk : k ≤ 5) {i : ℕ} {node : LeafNode} :
    outputs smt level children k i = .leaf node ↔
      ∃ q, q / 2 ^ k = i ∧ children q = .leaf node ∧ Alone children k q := by
  induction k generalizing i with
  | zero =>
    constructor
    · intro h
      refine ⟨i, by rw [Nat.pow_zero, Nat.div_one], h, fun j hj hne => absurd ?_ hne⟩
      rwa [Nat.pow_zero, Nat.div_one, Nat.div_one] at hj
    · rintro ⟨q, rfl, hq, -⟩
      rwa [Nat.pow_zero, Nat.div_one]
  | succ k ih =>
    have hlevel : level + (5 - k) ≠ 0 := by omega
    have hpass (leaf : LeafNode) : touched smt (level + (5 - k)) (.leaf leaf) .zero = .leaf leaf :=
      if_neg hlevel
    have hjoined : outputs smt level children (k + 1) i = joined smt (level + (5 - k))
      (outputs smt level children k (2 * i)) (outputs smt level children k (2 * i + 1)) := rfl
    have hleft : sibling (2 * i) = 2 * i + 1 := if_pos (by omega)
    have hright : sibling (2 * i + 1) = 2 * i := if_neg (by omega)
    rw [hjoined]
    constructor
    · intro h
      rcases joined_eq_leaf smt h with ⟨hzero, node', hleaf, heq⟩ | ⟨hzero, node', hleaf, heq⟩
      · rw [hleaf, hpass] at heq
        obtain rfl := Child.leaf.inj heq
        obtain ⟨q, hq, hchild, halone⟩ := (ih (by omega)).mp hleaf
        exact ⟨q, div_two_pow_succ.mpr (.inr hq), hchild,
          alone_succ_iff.mpr ⟨halone, by rwa [hq, hright]⟩⟩
      · rw [hleaf, hpass] at heq
        obtain rfl := Child.leaf.inj heq
        obtain ⟨q, hq, hchild, halone⟩ := (ih (by omega)).mp hleaf
        exact ⟨q, div_two_pow_succ.mpr (.inl hq), hchild,
          alone_succ_iff.mpr ⟨halone, by rwa [hq, hleft]⟩⟩
    · rintro ⟨q, hq, hchild, halone⟩
      obtain ⟨halone', hzero⟩ := alone_succ_iff.mp halone
      rcases div_two_pow_succ.mp hq with hq | hq
      · have hleaf := (ih (by omega)).mpr ⟨q, hq, hchild, halone'⟩
        rw [hq, hleft] at hzero
        rw [hleaf, hzero]
        exact hpass node
      · have hleaf := (ih (by omega)).mpr ⟨q, hq, hchild, halone'⟩
        rw [hq, hright] at hzero
        rw [hleaf, hzero]
        exact hpass node

/-- In each row up to which a leaf is alone it stands with the hash of that row. -/
theorem settled_of_alone {k : ℕ} (hk : k ≤ 6) {q : ℕ} {node : LeafNode}
    (hchild : children q = .leaf node) (halone : Alone children k q) :
    ∃ node', settled smt level children k (q / 2 ^ k) = .leaf node' ∧ node'.key = node.key ∧
      node'.value = node.value ∧ node'.hash = hashInRow smt level children k q node := by
  unfold hashInRow
  rcases Nat.lt_or_eq_of_le hk with hlt | rfl
  · have hleaf := (@outputs_eq_leaf smt level _ k (by omega) _ _).mpr
      ⟨q, rfl, hchild, halone⟩
    unfold settled
    rw [if_neg (show k ≠ 6 by omega), hleaf]
    by_cases hnext : Alone children (k + 1) q
    · rw [(alone_succ_iff.mp hnext).2, if_neg fun h => h.2 hnext]
      unfold touched
      dsimp only
      by_cases hzero : level + (5 - k) = 0
      · rw [if_pos hzero, if_pos (by omega)]
        exact ⟨_, rfl, rfl, rfl, rfl⟩
      · rw [if_neg hzero, if_neg (by omega)]
        exact ⟨_, rfl, rfl, rfl, rfl⟩
    · have hne : outputs smt level children k (sibling (q / 2 ^ k)) ≠ .zero :=
        fun hzero => hnext (alone_succ_iff.mpr ⟨halone, hzero⟩)
      have hlevel : level + (5 - k) + 1 = level + (6 - k) := by omega
      rw [if_pos ⟨hlt, hnext⟩, ← hlevel]
      refine ⟨node.atLevel smt (level + (5 - k) + 1), ?_, rfl, rfl, rfl⟩
      unfold touched
      split
      · next hzero => exact absurd hzero hne
      · next heq _ => rw [Child.leaf.inj heq]
      · next hleaf _ => exact absurd rfl (hleaf node)
  · obtain ⟨halone', hzero⟩ := alone_succ_iff.mp halone
    have hleaf := (@outputs_eq_leaf smt level _ 5 le_rfl _ _).mpr ⟨q, rfl, hchild, halone'⟩
    have hnode : settled smt level children 6 (q / 2 ^ 6) = touched smt level (.leaf node) .zero := by
      have hjoined : outputs smt level children 6 (q / 2 ^ 6) = joined smt level
        (outputs smt level children 5 (2 * (q / 2 ^ 6))) (outputs smt level children 5 (2 * (q / 2 ^ 6) + 1)) :=
        rfl
      rw [settled_six, hjoined]
      rcases div_two_pow_succ.mp (rfl : q / 2 ^ (5 + 1) = q / 2 ^ 6) with hq | hq
      · have hsibling : sibling (2 * (q / 2 ^ 6)) = 2 * (q / 2 ^ 6) + 1 := if_pos (by omega)
        rw [hq] at hleaf hzero
        rw [hsibling] at hzero
        rw [hleaf, hzero]
        rfl
      · have hsibling : sibling (2 * (q / 2 ^ 6) + 1) = 2 * (q / 2 ^ 6) := if_neg (by omega)
        rw [hq] at hleaf hzero
        rw [hsibling] at hzero
        rw [hleaf, hzero]
        rfl
    rw [hnode, if_neg (by omega)]
    unfold touched
    dsimp only
    by_cases hlevel : level = 0
    · rw [if_pos hlevel, if_pos ⟨hlevel, by decide⟩]
      exact ⟨_, rfl, rfl, rfl, rfl⟩
    · rw [if_neg hlevel, if_neg (fun h => hlevel h.1)]
      exact ⟨_, rfl, rfl, rfl, rfl⟩

theorem exists_of_settled {k : ℕ} (hk : k ≤ 6) {i : ℕ} {node : LeafNode}
    (h : settled smt level children k i = .leaf node) :
    ∃ q node', q / 2 ^ k = i ∧ children q = .leaf node' ∧ Alone children k q := by
  have houtput : ∃ node', outputs smt level children k i = .leaf node' := by
    unfold settled at h
    split_ifs at h with hsix
    · exact ⟨node, by rwa [hsix]⟩
    · cases hout : outputs smt level children k i with
      | leaf node' => exact ⟨node', rfl⟩
      | _ =>
        rw [hout, touched_of_not_leaf smt (fun _ heq => by cases heq)] at h
        exact nomatch h
  obtain ⟨node', houtput⟩ := houtput
  rcases Nat.lt_or_eq_of_le hk with hlt | rfl
  · obtain ⟨q, hq, hchild, halone⟩ := (outputs_eq_leaf (show k ≤ 5 by omega)).mp houtput
    exact ⟨q, node', hq, hchild, halone⟩
  · have hjoined : outputs smt level children 6 i = joined smt level
      (outputs smt level children 5 (2 * i)) (outputs smt level children 5 (2 * i + 1)) := rfl
    have hleft : sibling (2 * i) = 2 * i + 1 := if_pos (by omega)
    have hright : sibling (2 * i + 1) = 2 * i := if_neg (by omega)
    rw [hjoined] at houtput
    rcases joined_eq_leaf smt houtput with ⟨hzero, leaf, hleaf, -⟩ | ⟨hzero, leaf, hleaf, -⟩
    · obtain ⟨q, hq, hchild, halone⟩ := (outputs_eq_leaf le_rfl).mp hleaf
      exact ⟨q, leaf, div_two_pow_succ.mpr (.inr hq), hchild,
        alone_succ_iff.mpr ⟨halone, by rwa [hq, hright]⟩⟩
    · obtain ⟨q, hq, hchild, halone⟩ := (outputs_eq_leaf le_rfl).mp hleaf
      exact ⟨q, leaf, div_two_pow_succ.mpr (.inl hq), hchild,
        alone_succ_iff.mpr ⟨halone, by rwa [hq, hleft]⟩⟩

/-! ## The way to a child -/

theorem div_lt_width {k q : ℕ} (hk : k ≤ 6) (hq : q < 64) : q / 2 ^ k < 2 ^ (6 - k) := by
  apply Nat.div_lt_of_lt_mul
  rwa [← Nat.pow_add, Nat.add_sub_cancel' hk]

/-- The pairs of the rows below lead from the hash of a node to each child below it. -/
theorem reaches_of_rowPairs (hnode : ∀ i < 64, (children i).isNode = true) {q : ℕ} (hq : q < 64)
    (hne : children q ≠ .zero) {pairs : List HashValueGL}
    (hpairs : ∀ k ≤ 6, ∀ pair ∈ rowPairs smt level children k (q / 2 ^ k), pair ∈ pairs) {k : ℕ}
    (hk : k ≤ 6) :
    Reaches pairs (settled smt level children k (q / 2 ^ k)).hash (bitsBelow q k) (children q) := by
  have hleaf {k : ℕ} (hk : k ≤ 6) {x : LeafNode}
      (hx : settled smt level children k (q / 2 ^ k) = .leaf x) (bits : List Bool) :
      Reaches pairs x.hash bits (children q) := by
    obtain ⟨q', node, hq', hchild, halone⟩ := exists_of_settled hk hx
    obtain rfl : q = q' := by
      by_contra hother
      exact hne (halone q hq'.symm hother)
    obtain ⟨x', hx', -, hvalue, -⟩ := @settled_of_alone smt level _ _ hk _ _ hchild halone
    obtain rfl := Child.leaf.inj (hx.symm.trans hx')
    have hmem : ∀ pair ∈ leafValues smt level x, pair ∈ pairs := by
      intro pair hpair
      apply hpairs k hk
      unfold rowPairs
      rw [hx]
      exact hpair
    rw [hchild]
    refine .leaf (hmem _ (List.mem_cons_of_mem _ List.mem_cons_self)) ?_
    rw [← hvalue]
    exact hmem _ List.mem_cons_self
  induction k with
  | zero =>
    have hisNode := isNode_settled smt level hnode hk (div_lt_width hk hq)
    cases hsettled : settled smt level children 0 (q / 2 ^ 0) with
    | unspecified =>
      rw [hsettled] at hisNode
      exact nomatch hisNode
    | treeChunk =>
      rw [hsettled] at hisNode
      exact nomatch hisNode
    | leaf x => exact hleaf hk hsettled _
    | zero => exact absurd (outputs_eq_zero.mp (outputs_of_settled_zero hsettled) q rfl) hne
    | intermediate hash =>
      have houtput := outputs_of_settled_intermediate hsettled
      rw [Nat.pow_zero, Nat.div_one] at houtput
      have hchild : children q = .intermediate hash := houtput
      rw [hchild]
      exact .intermediate
  | succ k ih =>
    have hisNode := isNode_settled smt level hnode hk (div_lt_width hk hq)
    cases hsettled : settled smt level children (k + 1) (q / 2 ^ (k + 1)) with
    | unspecified =>
      rw [hsettled] at hisNode
      exact nomatch hisNode
    | treeChunk =>
      rw [hsettled] at hisNode
      exact nomatch hisNode
    | leaf x => exact hleaf hk hsettled _
    | zero => exact absurd (outputs_eq_zero.mp (outputs_of_settled_zero hsettled) q rfl) hne
    | intermediate hash =>
      have hmem := hpairs (k + 1) hk
      unfold rowPairs at hmem
      rw [hsettled] at hmem
      dsimp only at hmem
      rw [if_neg (Nat.succ_ne_zero k), Nat.add_sub_cancel] at hmem
      refine .step (hmem _ List.mem_cons_self) ?_
      have hchild := ih (by omega)
      rcases div_two_pow_succ.mp (rfl : q / 2 ^ (k + 1) = q / 2 ^ (k + 1)) with hside | hside
      · have hbit : (q / 2 ^ k % 2 == 1) = false := by
          rw [hside, Nat.mul_mod_right]
          rfl
        rw [hbit, if_neg Bool.false_ne_true, ← hside]
        exact hchild
      · have hbit : (q / 2 ^ k % 2 == 1) = true := by
          rw [hside, Nat.mul_add_mod]
          rfl
        rw [hbit, if_pos rfl, ← hside]
        exact hchild

/-! ## When all pairs are preimages -/

theorem isPreimage_rowPairs {k i : ℕ} (hk : k ≤ 6) :
    (∀ pair ∈ rowPairs smt level children k i, IsPreimage smt pair) ↔
      ∀ node, settled smt level children k i = .leaf node →
        node.hash = smt.poseidon (smt.leafNode (level + 5) node.key node.value) := by
  unfold rowPairs
  cases hsettled : settled smt level children k i with
  | unspecified => simp
  | treeChunk => simp
  | zero => simp
  | leaf node =>
    constructor
    · intro h node' heq
      obtain rfl := Child.leaf.inj heq
      exact h _ (List.mem_cons_of_mem _ List.mem_cons_self)
    · intro h pair hmem
      rcases List.mem_cons.mp hmem with rfl | hmem
      · rfl
      · rw [List.mem_singleton.mp hmem]
        exact h node rfl
  | intermediate hash =>
    refine ⟨fun _ node hleaf => (nomatch hleaf), fun _ pair hmem => ?_⟩
    dsimp only at hmem
    cases k with
    | zero => exact nomatch hmem
    | succ k =>
      rw [if_neg (Nat.succ_ne_zero k), Nat.add_sub_cancel] at hmem
      rw [List.mem_singleton.mp hmem]
      exact settled_intermediate (by omega) hsettled

/-- All pairs are preimages exactly when each leaf has the hash of the level above `children64`. -/
theorem isPreimage_iff_leavesAgree :
    (∀ q < 64, ∀ k ≤ 6, ∀ pair ∈ rowPairs smt level children k (q / 2 ^ k), IsPreimage smt pair) ↔
      LeavesAgree smt level children := by
  constructor
  · intro h q hq node hchild k hk halone
    obtain ⟨node', hsettled, hkey, hvalue, hhash⟩ :=
      @settled_of_alone smt level _ _ hk _ _ hchild halone
    have hpreimage := (isPreimage_rowPairs hk).mp (h q hq k hk) node' hsettled
    rwa [hkey, hvalue, hhash] at hpreimage
  · intro h q hq k hk
    apply (isPreimage_rowPairs hk).mpr
    intro node hsettled
    obtain ⟨q', node', hq', hchild, halone⟩ := exists_of_settled hk hsettled
    obtain ⟨node'', hsettled', hkey, hvalue, hhash⟩ :=
      @settled_of_alone smt level _ _ hk _ _ hchild halone
    rw [hq', hsettled] at hsettled'
    obtain rfl := Child.leaf.inj hsettled'
    have hlt : q' < 64 := by
      have hwidth := (Nat.div_lt_iff_lt_mul (Nat.two_pow_pos k)).mp (hq' ▸ div_lt_width hk hq)
      rwa [← Nat.pow_add, Nat.sub_add_cancel hk] at hwidth
    rw [hhash, hkey, hvalue]
    exact h q' hlt node' hchild k hk halone

variable (smt) in
theorem exists_root_pair (hnode : ∀ i < 64, (children i).isNode = true) {i : ℕ} (hi : i < 1)
    (hne : settled smt level children 6 i ≠ .zero) {pairs : List HashValueGL}
    (hpairs : ∀ pair ∈ rowPairs smt level children 6 i, pair ∈ pairs) :
    ∃ pair ∈ pairs, pair.hash = (settled smt level children 6 i).hash := by
  have hisNode := isNode_settled smt level hnode le_rfl hi
  unfold rowPairs at hpairs
  cases hsettled : settled smt level children 6 i with
  | unspecified =>
    rw [hsettled] at hisNode
    exact nomatch hisNode
  | treeChunk =>
    rw [hsettled] at hisNode
    exact nomatch hisNode
  | zero => exact absurd hsettled hne
  | leaf node =>
    rw [hsettled] at hpairs
    exact ⟨_, hpairs _ (List.mem_cons_of_mem _ List.mem_cons_self), rfl⟩
  | intermediate hash =>
    rw [hsettled] at hpairs
    exact ⟨_, hpairs _ List.mem_cons_self, rfl⟩

end Rows

theorem GenuinePreimages.leavesAgree {chunk : TreeChunk} (h : chunk.Ready) (hgenuine : GenuinePreimages smt chunk) :
    LeavesAgree smt chunk.level (childAt chunk.children64) := by
  obtain ⟨chunk', added, hcalculate, hcalc⟩ := calculateHash_calculates smt h
  obtain ⟨chunk'', added', heq, hall⟩ := hgenuine
  rw [hcalculate] at heq
  obtain ⟨rfl, -⟩ := Prod.mk.inj (Except.ok.inj heq)
  apply isPreimage_iff_leavesAgree.mp
  intro q hq k hk pair hmem
  obtain ⟨pairs, hget, hpreimage, -⟩ := hall q hq
  obtain ⟨pairs', hget', hmem'⟩ := getHashValues_eq h hcalc hq
  rw [hget] at hget'
  obtain rfl := Except.ok.inj hget'
  exact hpreimage pair ((hmem' pair).mpr ⟨k, hk, hmem⟩)

theorem LeavesAgree.genuinePreimages {chunk : TreeChunk} (h : chunk.Ready)
    (hagree : LeavesAgree smt chunk.level (childAt chunk.children64)) : GenuinePreimages smt chunk := by
  have hnode : ∀ i < 64, (childAt chunk.children64 i).isNode = true := fun i hi => h.isNode_childAt hi
  have hpreimage := isPreimage_iff_leavesAgree.mpr hagree
  obtain ⟨chunk', added, hcalculate, hcalc⟩ := calculateHash_calculates smt h
  refine ⟨chunk', added, hcalculate, fun q hq => ?_⟩
  obtain ⟨pairs, hget, hmem⟩ := getHashValues_eq h hcalc hq
  have hroot : chunk'.child1 = settled smt chunk.level (childAt chunk.children64) 6 (q / 2 ^ 6) := by
    have hzero : q / 2 ^ 6 = 0 := Nat.div_eq_of_lt hq
    rw [hzero]
    exact hcalc.childAt_eq 6 le_rfl 0 (by decide)
  refine ⟨pairs, hget, fun pair hpair => ?_, fun hne => ?_, fun hne => ?_⟩
  · obtain ⟨k, hk, hpair⟩ := (hmem pair).mp hpair
    exact hpreimage q hq k hk pair hpair
  · rw [hcalc.hash_eq]
    rw [hroot] at hne ⊢
    exact exists_root_pair smt hnode (div_lt_width le_rfl hq) hne
      fun pair hpair => (hmem pair).mpr ⟨6, le_rfl, hpair⟩
  · rw [hcalc.hash_eq, hroot]
    exact reaches_of_rowPairs hnode hq hne (fun k hk pair hpair => (hmem pair).mpr ⟨k, hk, hpair⟩) le_rfl

/-- The pairs of every position are preimages that lead from the root to its child exactly when each leaf
has, in every row where it stands, the hash that it has at the level above `children64`. -/
theorem genuinePreimages_iff {chunk : TreeChunk} (h : chunk.Ready) :
    GenuinePreimages smt chunk ↔ LeavesAgree smt chunk.level (childAt chunk.children64) :=
  ⟨fun hgenuine => hgenuine.leavesAgree smt h, fun hagree => hagree.genuinePreimages smt h⟩

/-- A chunk with the given first children, and zeros. -/
def chunkOf (level : ℕ) (first : List Child) : TreeChunk where
  level := level
  hash := 0
  child1 := .unspecified
  children2 := []
  children4 := []
  children8 := []
  children16 := []
  children32 := []
  children64 := first ++ List.replicate (64 - first.length) .zero
  bHashValid := false
  bChildrenRestValid := false

theorem chunkOf_ready {level : ℕ} {first : List Child} (hlevel : level % 6 = 0) (hlength : first.length ≤ 64)
    (hnode : ∀ child ∈ first, child.isNode = true) : (chunkOf level first).Ready where
  level_mod := hlevel
  length := by
    show (first ++ List.replicate (64 - first.length) Child.zero).length = 64
    rw [List.length_append, List.length_replicate, Nat.add_sub_cancel' hlength]
  isNode child hmem := by
    rcases List.mem_append.mp hmem with hmem | hmem
    · exact hnode child hmem
    · rw [List.eq_of_mem_replicate hmem]
      rfl
  not_valid h := Bool.false_ne_true h.1

/-- Two leaves that are siblings. -/
theorem genuinePreimages_sample :
    (chunkOf 6 [.leaf ⟨0, ⟨64, 0, 0, 0⟩, 5, 0⟩, .leaf ⟨0, ⟨64, 4, 0, 0⟩, 6, 0⟩]).Ready ∧
      (GenuinePreimages Smt.sampleSmt
          (chunkOf 6 [.leaf ⟨0, ⟨64, 0, 0, 0⟩, 5, 0⟩, .leaf ⟨0, ⟨64, 4, 0, 0⟩, 6, 0⟩]) ↔
        LeavesAgree Smt.sampleSmt 6 (childAt
          (chunkOf 6 [.leaf ⟨0, ⟨64, 0, 0, 0⟩, 5, 0⟩, .leaf ⟨0, ⟨64, 4, 0, 0⟩, 6, 0⟩]).children64)) := by
  have hready := @chunkOf_ready 6
    [.leaf ⟨0, ⟨64, 0, 0, 0⟩, 5, 0⟩, .leaf ⟨0, ⟨64, 4, 0, 0⟩, 6, 0⟩]
    (by decide) (by decide) (by decide)
  exact ⟨hready, genuinePreimages_iff Smt.sampleSmt hready⟩

/-- A tree of one leaf: in the lowest row it has no hash yet. -/
theorem not_genuinePreimages :
    ¬∀ (smt : Smt) (chunk : TreeChunk), chunk.Ready → GenuinePreimages smt chunk := by
  intro hall
  have hready := @chunkOf_ready 0 [.leaf ⟨0, ⟨0, 4, 0, 0⟩, 5, 0⟩]
    (by decide) (by decide) (by decide)
  have hagree := (hall Smt.sampleSmt _ hready).leavesAgree Smt.sampleSmt hready 0 (by decide) _ rfl 0 (by decide)
    fun i hi hne => absurd (by rwa [Nat.pow_zero, Nat.div_one, Nat.div_one] at hi) hne
  -- the leaf only passes the lowest row
  have halone : Alone (childAt (chunkOf 0 [.leaf ⟨0, ⟨0, 4, 0, 0⟩, 5, 0⟩]).children64) 1 0 := by
    intro i hi hne
    obtain rfl : i = 1 := by omega
    rfl
  unfold hashInRow at hagree
  rw [if_neg fun h => h.2 halone, if_neg fun h => absurd h.2 (by decide)] at hagree
  exact absurd (congrArg Fea.fe1 hagree) (by decide)

end ZkevmProver.HashDB64
