import ZkevmProver.HashDB64.TreeChunk

/-!
# The rows of a chunk

What `calculateHash` leaves in the seven rows of a chunk, as functions of the 64 children, and which
pairs `getHashValues` adds of them.

  1. Two children.
  2. The rows.
  3. The pairs of a position.
-/

namespace ZkevmProver.HashDB64

variable (smt : Smt)

/-! ## Two children -/

/-- The hash of a child that is part of the hash of its node. -/
def Child.hash : Child → Fea
  | .leaf node => node.hash
  | .intermediate hash => hash
  | _ => 0

theorem Child.getHash_eq {child : Child} (h : child.isNode = true) : child.getHash = .ok child.hash := by
  cases child with
  | zero => rfl
  | leaf => rfl
  | intermediate => rfl
  | unspecified => exact nomatch h
  | treeChunk => exact nomatch h

/-- A leaf with the hash that it has at a level. -/
def LeafNode.atLevel (leaf : LeafNode) (level : ℕ) : LeafNode :=
  { leaf with level := level, hash := smt.poseidon (smt.leafNode level leaf.key leaf.value) }

/-- What `calculateChild` leaves in a child: a leaf is hashed when it has a sibling, and at the root of
the tree. -/
def touched (level : ℕ) : Child → Child → Child
  | .leaf leaf, .zero => if level = 0 then .leaf (leaf.atLevel smt 0) else .leaf leaf
  | .leaf leaf, _ => .leaf (leaf.atLevel smt (level + 1))
  | child, _ => child

/-- The node of two children. -/
def joined (level : ℕ) (left right : Child) : Child :=
  match left, right with
  | .zero, .zero => .zero
  | .zero, .leaf _ => touched smt level right .zero
  | .leaf _, .zero => touched smt level left .zero
  | _, _ => .intermediate (smt.poseidon
      ⟨(touched smt level left right).hash, (touched smt level right left).hash, capacityZero⟩)

theorem isNode_touched {level : ℕ} {child : Child} (sibling : Child) (h : child.isNode = true) :
    (touched smt level child sibling).isNode = true := by
  cases child with
  | leaf leaf =>
    unfold touched
    split
    · split_ifs <;> rfl
    · rfl
    · next hne _ => exact absurd rfl (hne leaf)
  | zero => exact h
  | intermediate => exact h
  | unspecified => exact nomatch h
  | treeChunk => exact nomatch h

theorem isNode_joined {level : ℕ} {left right : Child} (hleft : left.isNode = true)
    (hright : right.isNode = true) : (joined smt level left right).isNode = true := by
  unfold joined
  split
  · rfl
  · exact isNode_touched smt _ hright
  · exact isNode_touched smt _ hleft
  · rfl

theorem calculateChild_eq (level : ℕ) {left right : Child} (hleft : left.isNode = true)
    (hright : right.isNode = true) :
    ∃ hashValues, TreeChunk.calculateChild smt level left right =
      .ok ⟨touched smt level left right, touched smt level right left, joined smt level left right,
        hashValues⟩ := by
  cases left with
  | unspecified => exact nomatch hleft
  | treeChunk => exact nomatch hleft
  | zero =>
    cases right with
    | unspecified => exact nomatch hright
    | treeChunk => exact nomatch hright
    | zero => exact ⟨_, rfl⟩
    | intermediate => exact ⟨_, rfl⟩
    | leaf right =>
      unfold TreeChunk.calculateChild joined touched
      dsimp only
      split_ifs with hlevel
      · rw [hlevel]
        exact ⟨_, rfl⟩
      · exact ⟨_, rfl⟩
  | intermediate =>
    cases right with
    | unspecified => exact nomatch hright
    | treeChunk => exact nomatch hright
    | zero => exact ⟨_, rfl⟩
    | intermediate => exact ⟨_, rfl⟩
    | leaf => exact ⟨_, rfl⟩
  | leaf left =>
    cases right with
    | unspecified => exact nomatch hright
    | treeChunk => exact nomatch hright
    | intermediate => exact ⟨_, rfl⟩
    | leaf => exact ⟨_, rfl⟩
    | zero =>
      unfold TreeChunk.calculateChild joined touched
      dsimp only
      split_ifs with hlevel
      · rw [hlevel]
        exact ⟨_, rfl⟩
      · exact ⟨_, rfl⟩

theorem calculateChildren_spec (level n : ℕ) {row : List Child} (hlength : row.length = 2 * n)
    (hnode : ∀ child ∈ row, child.isNode = true) :
    ∃ r, TreeChunk.calculateChildren smt level row = .ok r ∧ r.input.length = 2 * n ∧
      r.output.length = n ∧ ∀ i < n,
        childAt r.output i = joined smt level (childAt row (2 * i)) (childAt row (2 * i + 1)) ∧
        childAt r.input (2 * i) = touched smt level (childAt row (2 * i)) (childAt row (2 * i + 1)) ∧
        childAt r.input (2 * i + 1) =
          touched smt level (childAt row (2 * i + 1)) (childAt row (2 * i)) := by
  induction n generalizing row with
  | zero =>
    obtain rfl : row = [] := List.length_eq_zero_iff.mp hlength
    exact ⟨⟨[], [], []⟩, rfl, rfl, rfl, nofun⟩
  | succ n ih =>
    match row with
    | [] => exact nomatch hlength
    | [_] =>
      rw [List.length_singleton] at hlength
      omega
    | left :: right :: rest =>
      obtain ⟨hashValues, hchild⟩ := calculateChild_eq smt level (hnode left List.mem_cons_self)
        (hnode right (List.mem_cons_of_mem _ List.mem_cons_self))
      obtain ⟨r, hr, hinput, houtput, hpositions⟩ := @ih rest
        (by rw [List.length_cons, List.length_cons] at hlength; omega)
        (fun child hmem => hnode child (List.mem_cons_of_mem _ (List.mem_cons_of_mem _ hmem)))
      refine ⟨⟨touched smt level left right :: touched smt level right left :: r.input,
        joined smt level left right :: r.output, hashValues ++ r.hashValues⟩, ?_, ?_, ?_, ?_⟩
      · unfold TreeChunk.calculateChildren
        rw [hchild, hr]
        rfl
      · rw [List.length_cons, List.length_cons, hinput]
        omega
      · rw [List.length_cons, houtput]
      · intro i hi
        cases i with
        | zero => exact ⟨rfl, rfl, rfl⟩
        | succ i => exact hpositions i (by omega)

/-! ## The rows -/

section Rows

variable (level : ℕ) (children : ℕ → Child)

/-- The children of row `k` as they come from the row below, from the lowest row up. -/
def outputs : ℕ → ℕ → Child
  | 0, i => children i
  | k + 1, i => joined smt (level + (5 - k)) (outputs k (2 * i)) (outputs k (2 * i + 1))

/-- The other child of the same node. -/
def sibling (i : ℕ) : ℕ := if i % 2 = 0 then i + 1 else i - 1

/-- The children of row `k` after the row above them has been calculated. -/
def settled (k i : ℕ) : Child :=
  if k = 6 then outputs smt level children 6 i
  else touched smt (level + (5 - k)) (outputs smt level children k i)
    (outputs smt level children k (sibling i))

theorem settled_even {k : ℕ} (hk : k < 6) (i : ℕ) :
    settled smt level children k (2 * i) = touched smt (level + (5 - k))
      (outputs smt level children k (2 * i)) (outputs smt level children k (2 * i + 1)) := by
  have hsibling : sibling (2 * i) = 2 * i + 1 := if_pos (by omega)
  unfold settled
  rw [if_neg (by omega), hsibling]

theorem settled_odd {k : ℕ} (hk : k < 6) (i : ℕ) :
    settled smt level children k (2 * i + 1) = touched smt (level + (5 - k))
      (outputs smt level children k (2 * i + 1)) (outputs smt level children k (2 * i)) := by
  have hsibling : sibling (2 * i + 1) = 2 * i := if_neg (by omega)
  unfold settled
  rw [if_neg (by omega), hsibling]

theorem settled_six (i : ℕ) : settled smt level children 6 i = outputs smt level children 6 i := if_pos rfl

theorem width_succ {k : ℕ} (hk : k < 6) : 2 ^ (6 - k) = 2 * 2 ^ (6 - (k + 1)) := by
  rw [← Nat.pow_succ']
  congr 1
  omega

variable {children} (hnode : ∀ i < 64, (children i).isNode = true)

include hnode

theorem isNode_outputs {k : ℕ} (hk : k ≤ 6) {i : ℕ} (hi : i < 2 ^ (6 - k)) :
    (outputs smt level children k i).isNode = true := by
  induction k generalizing i with
  | zero => exact hnode i hi
  | succ k ih =>
    have hwidth := width_succ (show k < 6 by omega)
    exact isNode_joined smt (ih (by omega) (by omega)) (ih (by omega) (by omega))

theorem isNode_settled {k : ℕ} (hk : k ≤ 6) {i : ℕ} (hi : i < 2 ^ (6 - k)) :
    (settled smt level children k i).isNode = true := by
  unfold settled
  split_ifs with hsix
  · subst hsix
    exact isNode_outputs smt level hnode le_rfl hi
  · exact isNode_touched smt _ (isNode_outputs smt level hnode hk hi)

omit hnode

variable (children) in
/-- A list of children that is row `k` as it comes from the row below. -/
structure IsRow (k : ℕ) (row : List Child) : Prop where
  length : row.length = 2 ^ (6 - k)
  childAt_eq : ∀ i < 2 ^ (6 - k), childAt row i = outputs smt level children k i

include hnode

theorem IsRow.isNode {k : ℕ} (hk : k ≤ 6) {row : List Child} (hrow : IsRow smt level children k row)
    {child : Child} (hmem : child ∈ row) : child.isNode = true := by
  obtain ⟨i, hi, rfl⟩ := List.mem_iff_getElem.mp hmem
  have hchild := hrow.childAt_eq i (hrow.length ▸ hi)
  rw [childAt, List.getD_eq_getElem _ _ hi] at hchild
  rw [hchild]
  exact isNode_outputs smt level hnode hk (hrow.length ▸ hi)

/-- One row is calculated from the one below it. -/
theorem calculateChildren_row {k : ℕ} (hk : k < 6) {row : List Child}
    (hrow : IsRow smt level children k row) :
    ∃ r, TreeChunk.calculateChildren smt (level + (5 - k)) row = .ok r ∧
      IsRow smt level children (k + 1) r.output ∧
      ∀ i < 2 ^ (6 - k), childAt r.input i = settled smt level children k i := by
  have hwidth := width_succ hk
  obtain ⟨r, hr, -, houtput, hpositions⟩ := calculateChildren_spec smt (level + (5 - k))
    (2 ^ (6 - (k + 1))) (hwidth ▸ hrow.length) fun child hmem => hrow.isNode smt level hnode hk.le hmem
  refine ⟨r, hr, ⟨houtput, fun i hi => ?_⟩, fun i hi => ?_⟩
  · rw [(hpositions i hi).1, hrow.childAt_eq _ (by omega), hrow.childAt_eq _ (by omega)]
    rfl
  · obtain ⟨-, hleft, hright⟩ := hpositions (i / 2) (by omega)
    rw [hrow.childAt_eq _ (by omega), hrow.childAt_eq _ (by omega)] at hleft hright
    rcases Nat.mod_two_eq_zero_or_one i with heven | hodd
    · have hi2 : i = 2 * (i / 2) := by omega
      rw [hi2, settled_even smt level children hk]
      exact hleft
    · have hi2 : i = 2 * (i / 2) + 1 := by omega
      rw [hi2, settled_odd smt level children hk]
      exact hright

end Rows

/-- The rows from the lowest one up. -/
def TreeChunk.row (chunk : TreeChunk) : ℕ → List Child
  | 0 => chunk.children64
  | 1 => chunk.children32
  | 2 => chunk.children16
  | 3 => chunk.children8
  | 4 => chunk.children4
  | 5 => chunk.children2
  | _ => [chunk.child1]

/-- The rows of a chunk have been calculated from the children. -/
structure Calculates (chunk chunk' : TreeChunk) : Prop where
  level_eq : chunk'.level = chunk.level
  childAt_eq : ∀ k ≤ 6, ∀ i < 2 ^ (6 - k),
    childAt (chunk'.row k) i = settled smt chunk.level (childAt chunk.children64) k i
  hash_eq : chunk'.hash = chunk'.child1.hash

/-- A chunk at a level where chunks are, with children that can be hashed, and no hash yet. -/
structure TreeChunk.Ready (chunk : TreeChunk) : Prop where
  level_mod : chunk.level % 6 = 0
  length : chunk.children64.length = 64
  isNode : ∀ child ∈ chunk.children64, child.isNode = true
  not_valid : ¬(chunk.bHashValid = true ∧ chunk.bChildrenRestValid = true)

variable {smt}

theorem TreeChunk.Ready.isNode_childAt {chunk : TreeChunk} (h : chunk.Ready) {i : ℕ} (hi : i < 64) :
    (childAt chunk.children64 i).isNode = true := by
  apply h.isNode
  rw [childAt, List.getD_eq_getElem _ _ (h.length ▸ hi)]
  exact List.getElem_mem _

variable (smt)

theorem calculateHash_calculates {chunk : TreeChunk} (h : chunk.Ready) :
    ∃ chunk' hashValues, TreeChunk.calculateHash smt chunk = .ok (chunk', hashValues) ∧
      Calculates smt chunk chunk' := by
  have hnode : ∀ i < 64, (childAt chunk.children64 i).isNode = true := fun i hi => h.isNode_childAt hi
  have hlowest : IsRow smt chunk.level (childAt chunk.children64) 0 chunk.children64 :=
    ⟨h.length, fun i _ => rfl⟩
  obtain ⟨row64, heq64, hrow32, h64⟩ := calculateChildren_row smt chunk.level hnode (by decide) hlowest
  obtain ⟨row32, heq32, hrow16, h32⟩ := calculateChildren_row smt chunk.level hnode (by decide) hrow32
  obtain ⟨row16, heq16, hrow8, h16⟩ := calculateChildren_row smt chunk.level hnode (by decide) hrow16
  obtain ⟨row8, heq8, hrow4, h8⟩ := calculateChildren_row smt chunk.level hnode (by decide) hrow8
  obtain ⟨row4, heq4, hrow2, h4⟩ := calculateChildren_row smt chunk.level hnode (by decide) hrow4
  obtain ⟨row2, heq2, hrow1, h2⟩ := calculateChildren_row smt chunk.level hnode (by decide) hrow2
  have hchild1 : childAt row2.output 0 =
      outputs smt chunk.level (childAt chunk.children64) 6 0 := hrow1.childAt_eq 0 (by decide)
  have hroot := isNode_outputs smt chunk.level hnode (k := 6) le_rfl (i := 0) (by decide)
  rw [← hchild1] at hroot
  have heq64' : TreeChunk.calculateChildren smt (chunk.level + 5) chunk.children64 = .ok row64 := heq64
  have heq32' : TreeChunk.calculateChildren smt (chunk.level + 4) row64.output = .ok row32 := heq32
  have heq16' : TreeChunk.calculateChildren smt (chunk.level + 3) row32.output = .ok row16 := heq16
  have heq8' : TreeChunk.calculateChildren smt (chunk.level + 2) row16.output = .ok row8 := heq8
  have heq4' : TreeChunk.calculateChildren smt (chunk.level + 1) row8.output = .ok row4 := heq4
  have heq2' : TreeChunk.calculateChildren smt chunk.level row4.output = .ok row2 := heq2
  have hrows : ∀ chunk' : TreeChunk, chunk'.children64 = row64.input → chunk'.children32 = row32.input →
      chunk'.children16 = row16.input → chunk'.children8 = row8.input → chunk'.children4 = row4.input →
      chunk'.children2 = row2.input → chunk'.child1 = childAt row2.output 0 →
      ∀ k ≤ 6, ∀ i < 2 ^ (6 - k),
        childAt (chunk'.row k) i = settled smt chunk.level (childAt chunk.children64) k i := by
    intro chunk' e64 e32 e16 e8 e4 e2 e1 k hk i hi
    match k, hk with
    | 0, _ => exact (congrArg (childAt · i) e64).trans (h64 i hi)
    | 1, _ => exact (congrArg (childAt · i) e32).trans (h32 i hi)
    | 2, _ => exact (congrArg (childAt · i) e16).trans (h16 i hi)
    | 3, _ => exact (congrArg (childAt · i) e8).trans (h8 i hi)
    | 4, _ => exact (congrArg (childAt · i) e4).trans (h4 i hi)
    | 5, _ => exact (congrArg (childAt · i) e2).trans (h2 i hi)
    | 6, _ =>
      obtain rfl : i = 0 := Nat.lt_one_iff.mp hi
      rw [settled_six]
      exact e1.trans hchild1
  unfold TreeChunk.calculateHash
  rw [if_neg h.not_valid, if_neg (not_not.mpr h.level_mod), heq64']
  dsimp only [bind, Except.bind]
  rw [heq32']
  dsimp only
  rw [heq16']
  dsimp only
  rw [heq8']
  dsimp only
  rw [heq4']
  dsimp only
  rw [heq2']
  dsimp only
  cases hc : childAt row2.output 0 with
  | unspecified =>
    rw [hc] at hroot
    exact nomatch hroot
  | treeChunk =>
    rw [hc] at hroot
    exact nomatch hroot
  | zero => exact ⟨_, _, rfl, rfl, hrows _ rfl rfl rfl rfl rfl rfl hc.symm, rfl⟩
  | leaf => exact ⟨_, _, rfl, rfl, hrows _ rfl rfl rfl rfl rfl rfl hc.symm, rfl⟩
  | intermediate => exact ⟨_, _, rfl, rfl, hrows _ rfl rfl rfl rfl rfl rfl hc.symm, rfl⟩

/-! ## The pairs of a position -/

section Pairs

variable (level : ℕ) (children : ℕ → Child)

/-- What `getHashValues` adds for row `k`. -/
def rowPairs (k i : ℕ) : List HashValueGL :=
  match settled smt level children k i with
  | .leaf leaf => leafValues smt level leaf
  | .intermediate hash =>
    if k = 0 then []
    else [⟨hash, ⟨(settled smt level children (k - 1) (2 * i)).hash,
      (settled smt level children (k - 1) (2 * i + 1)).hash, capacityZero⟩⟩]
  | _ => []

variable {smt level children} {chunk chunk' : TreeChunk}

theorem rowValues_eq (h : chunk.Ready) (hcalc : Calculates smt chunk chunk') {k : ℕ} (hk : k < 6) {i : ℕ}
    (hi : i < 2 ^ (6 - (k + 1))) :
    rowValues smt chunk'.level (chunk'.row (k + 1)) (chunk'.row k) i =
      .ok (rowPairs smt chunk.level (childAt chunk.children64) (k + 1) i) := by
  have hnode : ∀ i < 64, (childAt chunk.children64 i).isNode = true := fun i hi => h.isNode_childAt hi
  have hwidth := width_succ hk
  have hchild := hcalc.childAt_eq (k + 1) (by omega) i hi
  have hisNode := isNode_settled smt chunk.level hnode (show k + 1 ≤ 6 by omega) hi
  have hleft := hcalc.childAt_eq k (by omega) (2 * i) (by omega)
  have hright := hcalc.childAt_eq k (by omega) (2 * i + 1) (by omega)
  have hleftNode := isNode_settled smt chunk.level hnode (show k ≤ 6 by omega)
    (show 2 * i < 2 ^ (6 - k) by omega)
  have hrightNode := isNode_settled smt chunk.level hnode (show k ≤ 6 by omega)
    (show 2 * i + 1 < 2 ^ (6 - k) by omega)
  have hshift : i <<< 1 = 2 * i := by rw [Nat.shiftLeft_eq, Nat.mul_comm]
  unfold rowValues rowPairs
  rw [hchild, hcalc.level_eq]
  cases hsettled : settled smt chunk.level (childAt chunk.children64) (k + 1) i with
  | unspecified =>
    rw [hsettled] at hisNode
    exact nomatch hisNode
  | treeChunk =>
    rw [hsettled] at hisNode
    exact nomatch hisNode
  | zero => rfl
  | leaf => rfl
  | intermediate hash =>
    unfold intermediateValues
    dsimp only
    rw [hshift, hleft, hright, Child.getHash_eq hleftNode, Child.getHash_eq hrightNode,
      if_neg (Nat.succ_ne_zero k)]
    rfl

theorem lowestValues_eq (h : chunk.Ready) (hcalc : Calculates smt chunk chunk') {i : ℕ} (hi : i < 64) :
    lowestValues smt chunk'.level chunk'.children64 i =
      .ok (rowPairs smt chunk.level (childAt chunk.children64) 0 i) := by
  have hnode : ∀ i < 64, (childAt chunk.children64 i).isNode = true := fun i hi => h.isNode_childAt hi
  have hchild : childAt chunk'.children64 i =
    settled smt chunk.level (childAt chunk.children64) 0 i := hcalc.childAt_eq 0 (by decide) i hi
  have hisNode := isNode_settled smt chunk.level hnode (k := 0) (by decide) hi
  unfold lowestValues rowPairs
  rw [hchild, hcalc.level_eq]
  cases hsettled : settled smt chunk.level (childAt chunk.children64) 0 i with
  | unspecified =>
    rw [hsettled] at hisNode
    exact nomatch hisNode
  | treeChunk =>
    rw [hsettled] at hisNode
    exact nomatch hisNode
  | zero => rfl
  | leaf => rfl
  | intermediate => rfl

/-- The pairs of a position are those of its rows. -/
theorem getHashValues_eq (h : chunk.Ready) (hcalc : Calculates smt chunk chunk') {position : ℕ}
    (hposition : position < 64) :
    ∃ pairs, TreeChunk.getHashValues smt chunk' position = .ok pairs ∧
      ∀ pair, pair ∈ pairs ↔ ∃ k ≤ 6,
        pair ∈ rowPairs smt chunk.level (childAt chunk.children64) k (position / 2 ^ k) := by
  have hrow (k : ℕ) (hk : k < 6) :=
    rowValues_eq h hcalc hk (i := position / 2 ^ (k + 1)) (by
      apply Nat.div_lt_of_lt_mul
      rw [← Nat.pow_add, Nat.add_sub_cancel' (show k + 1 ≤ 6 by omega)]
      exact hposition)
  have hshift (k : ℕ) : (position / 2 ^ k) >>> 1 = position / 2 ^ (k + 1) := by
    rw [Nat.shiftRight_eq_div_pow, Nat.div_div_eq_div_mul, ← Nat.pow_add]
  have hfirst : position >>> 1 = position / 2 ^ 1 := Nat.shiftRight_eq_div_pow position 1
  have h64 := lowestValues_eq h hcalc hposition
  have h32 : rowValues smt chunk'.level chunk'.children32 chunk'.children64 (position / 2 ^ 1) = .ok _ :=
    hrow 0 (by decide)
  have h16 : rowValues smt chunk'.level chunk'.children16 chunk'.children32 (position / 2 ^ 2) = .ok _ :=
    hrow 1 (by decide)
  have h8 : rowValues smt chunk'.level chunk'.children8 chunk'.children16 (position / 2 ^ 3) = .ok _ :=
    hrow 2 (by decide)
  have h4 : rowValues smt chunk'.level chunk'.children4 chunk'.children8 (position / 2 ^ 4) = .ok _ :=
    hrow 3 (by decide)
  have h2 : rowValues smt chunk'.level chunk'.children2 chunk'.children4 (position / 2 ^ 5) = .ok _ :=
    hrow 4 (by decide)
  have h1 : rowValues smt chunk'.level [chunk'.child1] chunk'.children2 (position / 2 ^ 6) = .ok _ :=
    hrow 5 (by decide)
  unfold TreeChunk.getHashValues
  dsimp only
  rw [hfirst, hshift 1, hshift 2, hshift 3, hshift 4, hshift 5, h64, h32, h16, h8, h4, h2, h1]
  refine ⟨_, rfl, fun pair => ?_⟩
  simp only [List.mem_append]
  constructor
  · rintro ((((((hmem | hmem) | hmem) | hmem) | hmem) | hmem) | hmem)
    · exact ⟨0, by decide, by rwa [Nat.pow_zero, Nat.div_one]⟩
    · exact ⟨1, by decide, hmem⟩
    · exact ⟨2, by decide, hmem⟩
    · exact ⟨3, by decide, hmem⟩
    · exact ⟨4, by decide, hmem⟩
    · exact ⟨5, by decide, hmem⟩
    · exact ⟨6, by decide, hmem⟩
  · rintro ⟨k, hk, hmem⟩
    match k, hk with
    | 0, _ =>
      rw [Nat.pow_zero, Nat.div_one] at hmem
      exact .inl (.inl (.inl (.inl (.inl (.inl hmem)))))
    | 1, _ => exact .inl (.inl (.inl (.inl (.inl (.inr hmem)))))
    | 2, _ => exact .inl (.inl (.inl (.inl (.inr hmem))))
    | 3, _ => exact .inl (.inl (.inl (.inr hmem)))
    | 4, _ => exact .inl (.inl (.inr hmem))
    | 5, _ => exact .inl (.inr hmem)
    | 6, _ => exact .inr hmem

end Pairs

end ZkevmProver.HashDB64
