import Mathlib.Tactic.Common
import Mathlib.Data.Set.Insert
import Mathlib.Data.List.Infix
import Mathlib.Data.Int.Notation
import Mathlib.Logic.Function.Basic

/-!
# Radix trees in an array of nodes

A radix tree whose nodes are numbers and whose slots hold integers: zero for nothing, a positive
number for a node, a negative number for (minus) a key.  A key is known by its word, a list of
indices; the slot of a key is the first one on the way of its word that no other key shares.

1. `Shape`: the nodes in use, their paths, and where the keys are
2. Paths and slots
3. Adding a key: `Shape.add`, `Shape.deepen`, `Shape.tighten`
4. Removing a key: `Shape.remove`, `Shape.lift`
5. The way up: `Above`
-/

namespace RadixArray

/-- The slots `s` of a tree with nodes of `size` slots and words of length `len`.  Every node of
`live` but the root and the `loose` ones has a node below it or two slots taken. -/
structure Shape (size len : ℕ) (word : ℕ → List ℕ) (stored : Set ℕ) (s : ℕ → ℕ → ℤ)
    (live : Set ℕ) (path : ℕ → List ℕ) (loose : Set ℕ) : Prop where
  root_mem : 0 ∈ live
  path_root : path 0 = []
  path_inj : ∀ x ∈ live, ∀ y ∈ live, path x = path y → x = y
  path_lt : ∀ x ∈ live, (path x).length < len
  child : ∀ x ∈ live, ∀ i < size, 0 < s x i →
    (s x i).toNat ∈ live ∧ path (s x i).toNat = path x ++ [i]
  parent : ∀ y ∈ live, y ≠ 0 → ∃ x ∈ live, ∃ i < size, s x i = y
  leaf : ∀ x ∈ live, ∀ i < size, s x i < 0 →
    (-s x i).toNat ∈ stored ∧ path x ++ [i] <+: word (-s x i).toNat
  placed : ∀ k ∈ stored, ∃ x ∈ live, ∃ i < size, s x i = -(k : ℤ)
  branching : ∀ x ∈ live, x ≠ 0 → x ∉ loose → (∃ i < size, 0 < s x i) ∨
    ∃ i < size, ∃ j < size, i ≠ j ∧ s x i ≠ 0 ∧ s x j ≠ 0
  dead : ∀ x ∉ live, ∀ i < size, s x i = 0
  stored_pos : ∀ k ∈ stored, 0 < k
  word_length : ∀ k ∈ stored, (word k).length = len
  word_lt : ∀ k ∈ stored, ∀ i ∈ word k, i < size
  word_inj : ∀ k ∈ stored, ∀ k' ∈ stored, word k = word k' → k = k'

/-- The slots after a write. -/
def put (s : ℕ → ℕ → ℤ) (x i : ℕ) (v : ℤ) : ℕ → ℕ → ℤ :=
  fun y j => if y = x ∧ j = i then v else s y j

@[simp] theorem put_self (s : ℕ → ℕ → ℤ) (x i : ℕ) (v : ℤ) : put s x i v x i = v := by simp [put]

theorem put_ne {s : ℕ → ℕ → ℤ} {x i y j : ℕ} {v : ℤ} (h : ¬(y = x ∧ j = i)) :
    put s x i v y j = s y j := if_neg h

theorem concat_prefix {p w : List ℕ} (h : p <+: w) (hlt : p.length < w.length) :
    p ++ [w[p.length]] <+: w := by
  obtain ⟨r, rfl⟩ := h
  cases r with
  | nil => simp at hlt
  | cons a r => simp

/-- Two extensions of one list by one element, both prefixes of one list, are the same. -/
theorem eq_of_prefixes {p w : List ℕ} {i j : ℕ} (h : p ++ [i] <+: w) (h' : p ++ [j] <+: w) :
    i = j := by
  obtain ⟨r, rfl⟩ := h
  obtain ⟨r', h'⟩ := h'
  simp only [List.append_assoc, List.append_cancel_left_eq, List.cons_append, List.nil_append,
    List.cons.injEq] at h'
  exact h'.1.symm

variable {size len : ℕ} {word : ℕ → List ℕ} {stored : Set ℕ} {s : ℕ → ℕ → ℤ} {live : Set ℕ}
  {path : ℕ → List ℕ} {loose : Set ℕ} {x y i j k : ℕ}

namespace Shape

/-! ## Paths and slots -/

section

variable (h : Shape size len word stored s live path loose)

include h

/-- Every prefix of the path of a node is the path of a node. -/
theorem exists_of_prefix {p : List ℕ} (hy : y ∈ live) (hp : p <+: path y) :
    ∃ x ∈ live, path x = p := by
  induction hlen : (path y).length generalizing y with
  | zero =>
    have hnil := List.length_eq_zero_iff.mp hlen
    rw [hnil, List.prefix_nil] at hp
    exact ⟨y, hy, hnil.trans hp.symm⟩
  | succ n ih =>
    have hy0 : y ≠ 0 := by
      rintro rfl
      simp [h.path_root] at hlen
    obtain ⟨x, hx, i, hi, hxi⟩ := h.parent y hy hy0
    have hpos : 0 < s x i := by omega
    obtain ⟨-, hpath⟩ := h.child x hx i hi hpos
    have hto : (s x i).toNat = y := by omega
    rw [hto] at hpath
    rw [hpath, List.prefix_concat_iff] at hp
    rcases hp with rfl | hp
    · exact ⟨y, hy, hpath⟩
    · refine ih hx hp ?_
      simpa [hpath] using hlen

/-- The slot towards a node one step further. -/
theorem slot_of_path (hx : x ∈ live) (hy : y ∈ live) (hp : path y = path x ++ [i]) :
    i < size ∧ s x i = y := by
  have hy0 : y ≠ 0 := by
    rintro rfl
    simp [h.path_root] at hp
  obtain ⟨x', hx', i', hi', hxi'⟩ := h.parent y hy hy0
  obtain ⟨-, hpath⟩ := h.child x' hx' i' hi' (by omega)
  rw [show (s x' i').toNat = y by omega, hp] at hpath
  obtain ⟨hpx, hi⟩ := List.append_inj' hpath rfl
  obtain rfl := h.path_inj x hx x' hx' hpx
  obtain rfl : i = i' := by simpa using hi
  exact ⟨hi', hxi'⟩

/-- There is no node below a slot that does not point to one. -/
theorem not_concat_prefix (hx : x ∈ live) (hy : y ∈ live) (hneg : s x i < 0) :
    ¬path x ++ [i] <+: path y := by
  intro hp
  obtain ⟨z, hz, hpz⟩ := h.exists_of_prefix hy hp
  have := (h.slot_of_path hx hz hpz).2
  omega

/-- On the way of a stored key there is the key itself or a node. -/
theorem on_way (hx : x ∈ live) (hk : k ∈ stored) (hp : path x ++ [i] <+: word k) :
    i < size ∧ (s x i = -(k : ℤ) ∨ 0 < s x i) := by
  have hi : i < size := h.word_lt k hk i (hp.subset (by simp))
  refine ⟨hi, ?_⟩
  obtain ⟨y, hy, j, hj, hyj⟩ := h.placed k hk
  have hkpos := h.stored_pos k hk
  have hleaf := (h.leaf y hy j hj (by omega)).2
  rw [show (-s y j).toNat = k by omega] at hleaf
  rcases Nat.lt_or_ge (path x).length (path y).length with hlt | hle
  · -- the key is further down
    have hxy : path x ++ [i] <+: path y :=
      List.prefix_of_prefix_length_le hp ((List.prefix_append _ _).trans hleaf)
        (by rw [List.length_append]; exact hlt)
    obtain ⟨z, hz, hpz⟩ := h.exists_of_prefix hy hxy
    obtain ⟨-, hslot⟩ := h.slot_of_path hx hz hpz
    have hz0 : z ≠ 0 := by
      rintro rfl
      simp [h.path_root] at hpz
    exact .inr (by omega)
  · have hyx : path y <+: path x :=
      List.prefix_of_prefix_length_le ((List.prefix_append _ _).trans hleaf)
        ((List.prefix_append _ _).trans hp) hle
    rcases Nat.lt_or_ge (path y).length (path x).length with hlt | hge
    · exfalso
      refine h.not_concat_prefix hy hx (show s y j < 0 by omega) ?_
      exact List.prefix_of_prefix_length_le hleaf ((List.prefix_append _ _).trans hp)
        (by rw [List.length_append]; exact hlt)
    · have heq : path y = path x := hyx.eq_of_length (by omega)
      obtain rfl := h.path_inj y hy x hx heq
      obtain rfl := eq_of_prefixes hleaf hp
      exact .inl hyj

/-- The node towards which a positive slot points. -/
theorem exists_child (hx : x ∈ live) (hi : i < size) (hpos : 0 < s x i) :
    ∃ y ∈ live, s x i = (y : ℤ) ∧ path y = path x ++ [i] ∧ y ≠ 0 := by
  obtain ⟨hy, hp⟩ := h.child x hx i hi hpos
  exact ⟨(s x i).toNat, hy, by omega, hp, by omega⟩

/-- Below every slot that is taken there is a key, when no node is loose. -/
theorem exists_stored (hloose : loose = ∅) (hx : x ∈ live) (hi : i < size) (hne : s x i ≠ 0) :
    ∃ k ∈ stored, path x ++ [i] <+: word k := by
  induction hm : len - (path x).length using Nat.strong_induction_on generalizing x i with
  | _ m ih =>
    rcases lt_or_gt_of_ne hne with hneg | hpos
    · obtain ⟨hk, hp⟩ := h.leaf x hx i hi hneg
      exact ⟨_, hk, hp⟩
    · obtain ⟨y, hy, -, hpath, hy0⟩ := h.exists_child hx hi hpos
      have hlt := h.path_lt y hy
      have hlen : (path y).length = (path x).length + 1 := by simp [hpath]
      obtain ⟨j, hj, hyj⟩ : ∃ j < size, s y j ≠ 0 := by
        rcases h.branching y hy hy0 (by simp [hloose]) with ⟨j, hj, hpos⟩ | ⟨j, hj, -, -, -, hyj, -⟩
        · exact ⟨j, hj, by omega⟩
        · exact ⟨j, hj, hyj⟩
      obtain ⟨k, hk, hp⟩ := ih (len - (path y).length) (by omega) hy hj hyj rfl
      rw [hpath] at hp
      exact ⟨k, hk, (List.prefix_append _ _).trans hp⟩

/-- The slot of a key is the only one that holds it. -/
theorem slot_unique (hx : x ∈ live) (hy : y ∈ live) (hi : i < size) (hj : j < size)
    (hneg : s x i < 0) (heq : s y j = s x i) : y = x ∧ j = i := by
  obtain ⟨hk, hp⟩ := h.leaf x hx i hi hneg
  obtain ⟨-, hp'⟩ := h.leaf y hy j hj (by omega)
  rw [heq] at hp'
  have hxy : path y = path x := by
    have hpre : path y <+: path x ∨ path x <+: path y :=
      List.prefix_or_prefix_of_prefix ((List.prefix_append _ _).trans hp')
        ((List.prefix_append _ _).trans hp)
    by_contra hne
    rcases hpre with hpre | hpre
    · refine h.not_concat_prefix hy hx (show s y j < 0 by omega) ?_
      refine List.prefix_of_prefix_length_le hp' ((List.prefix_append _ _).trans hp) ?_
      rw [List.length_append]
      exact lt_of_le_of_ne hpre.length_le fun hl => hne (hpre.eq_of_length hl)
    · refine h.not_concat_prefix hx hy hneg ?_
      refine List.prefix_of_prefix_length_le hp ((List.prefix_append _ _).trans hp') ?_
      rw [List.length_append]
      exact lt_of_le_of_ne hpre.length_le fun hl => hne (hpre.eq_of_length hl).symm
  obtain rfl := h.path_inj y hy x hx hxy
  exact ⟨rfl, eq_of_prefixes hp' hp⟩

end

/-! ## Adding a key -/

/-- Only the words of the stored keys matter. -/
theorem congr_word (h : Shape size len word stored s live path loose) {word' : ℕ → List ℕ}
    (hw : ∀ k ∈ stored, word' k = word k) : Shape size len word' stored s live path loose :=
  { h with
    leaf := by
      intro x hx i hi hneg
      obtain ⟨hk, hp⟩ := h.leaf x hx i hi hneg
      exact ⟨hk, (hw _ hk).symm ▸ hp⟩
    word_length := fun k hk => (hw k hk).symm ▸ h.word_length k hk
    word_lt := fun k hk => (hw k hk).symm ▸ h.word_lt k hk
    word_inj := by
      intro k hk k' hk' heq
      rw [hw k hk, hw k' hk'] at heq
      exact h.word_inj k hk k' hk' heq }

/-- Only the slots that nodes have matter. -/
theorem congr_slot (h : Shape size len word stored s live path loose) {s' : ℕ → ℕ → ℤ}
    (hs : ∀ x, ∀ i < size, s' x i = s x i) : Shape size len word stored s' live path loose := by
  refine { h with child := ?_, parent := ?_, leaf := ?_, placed := ?_, branching := ?_, dead := ?_ }
  · intro x hx i hi hpos
    rw [hs x i hi] at hpos ⊢
    exact h.child x hx i hi hpos
  · intro y hy hy0
    obtain ⟨x, hx, i, hi, hxi⟩ := h.parent y hy hy0
    exact ⟨x, hx, i, hi, (hs x i hi).trans hxi⟩
  · intro x hx i hi hneg
    rw [hs x i hi] at hneg ⊢
    exact h.leaf x hx i hi hneg
  · intro k hk
    obtain ⟨x, hx, i, hi, hxi⟩ := h.placed k hk
    exact ⟨x, hx, i, hi, (hs x i hi).trans hxi⟩
  · intro x hx hx0 hl
    rcases h.branching x hx hx0 hl with ⟨i, hi, hpos⟩ | ⟨i, hi, j, hj, hne, hxi, hxj⟩
    · exact .inl ⟨i, hi, by rwa [hs x i hi]⟩
    · exact .inr ⟨i, hi, j, hj, hne, by rwa [hs x i hi], by rwa [hs x j hj]⟩
  · intro x hx i hi
    rw [hs x i hi]
    exact h.dead x hx i hi

/-- A key goes into an empty slot on its way. -/
theorem add (h : Shape size len word stored s live path loose) (hx : x ∈ live) (hi : i < size)
    (hs : s x i = 0) (hk : 0 < k) (hp : path x ++ [i] <+: word k) (hlen : (word k).length = len)
    (hlt : ∀ i ∈ word k, i < size) (hnew : ∀ k' ∈ stored, word k' ≠ word k) :
    Shape size len word (insert k stored) (put s x i (-(k : ℤ))) live path loose := by
  have hput : ∀ y j, put s x i (-(k : ℤ)) y j = s y j ∨
      (y = x ∧ j = i ∧ put s x i (-(k : ℤ)) y j = -(k : ℤ)) := by
    intro y j
    by_cases hyj : y = x ∧ j = i
    · exact .inr ⟨hyj.1, hyj.2, by rw [hyj.1, hyj.2, put_self]⟩
    · exact .inl (put_ne hyj)
  -- no slot that was taken changes
  have hkeep : ∀ y j, s y j ≠ 0 → put s x i (-(k : ℤ)) y j = s y j := by
    intro y j hne
    refine put_ne ?_
    rintro ⟨rfl, rfl⟩
    exact hne hs
  refine { h with
    child := ?_, parent := ?_, leaf := ?_, placed := ?_, branching := ?_, dead := ?_,
    stored_pos := ?_, word_length := ?_, word_lt := ?_, word_inj := ?_ }
  · intro y hy j hj hpos
    rcases hput y j with heq | ⟨-, -, heq⟩
    · rw [heq] at hpos ⊢
      exact h.child y hy j hj hpos
    · omega
  · intro y hy hy0
    obtain ⟨z, hz, j, hj, hzj⟩ := h.parent y hy hy0
    exact ⟨z, hz, j, hj, by rw [hkeep z j (by omega), hzj]⟩
  · intro y hy j hj hneg
    rcases hput y j with heq | ⟨rfl, rfl, heq⟩
    · rw [heq] at hneg ⊢
      obtain ⟨hmem, hpre⟩ := h.leaf y hy j hj hneg
      exact ⟨Set.mem_insert_of_mem _ hmem, hpre⟩
    · rw [heq, show (-(-(k : ℤ))).toNat = k by omega]
      exact ⟨Set.mem_insert _ _, hp⟩
  · intro k' hk'
    rcases Set.mem_insert_iff.mp hk' with rfl | hk'
    · exact ⟨x, hx, i, hi, put_self _ _ _ _⟩
    · obtain ⟨y, hy, j, hj, hyj⟩ := h.placed k' hk'
      have := h.stored_pos k' hk'
      exact ⟨y, hy, j, hj, by rw [hkeep y j (by omega), hyj]⟩
  · intro y hy hy0 hl
    rcases h.branching y hy hy0 hl with ⟨j, hj, hpos⟩ | ⟨j, hj, j', hj', hne, hyj, hyj'⟩
    · exact .inl ⟨j, hj, by rwa [hkeep y j (by omega)]⟩
    · exact .inr ⟨j, hj, j', hj', hne, by rwa [hkeep y j hyj], by rwa [hkeep y j' hyj']⟩
  · intro y hy j hj
    rw [put_ne (by rintro ⟨rfl, -⟩; exact hy hx)]
    exact h.dead y hy j hj
  · rintro k' (rfl | hk')
    · exact hk
    · exact h.stored_pos k' hk'
  · rintro k' (rfl | hk')
    · exact hlen
    · exact h.word_length k' hk'
  · rintro k' (rfl | hk')
    · exact hlt
    · exact h.word_lt k' hk'
  · rintro k₁ (rfl | h₁) k₂ (rfl | h₂) heq
    · rfl
    · exact absurd heq.symm (hnew k₂ h₂)
    · exact absurd heq (hnew k₁ h₁)
    · exact h.word_inj k₁ h₁ k₂ h₂ heq

/-- A key moves from its slot to a new node below it. -/
theorem deepen (h : Shape size len word stored s live path loose) (hl : loose ⊆ {x}) (hx : x ∈ live)
    (hi : i < size) (hneg : s x i < 0) {a : ℕ} (ha : a ∉ live)
    (hlt : (path x).length + 1 < len) (hj : j < size)
    (hp : path x ++ [i] ++ [j] <+: word (-s x i).toNat) :
    Shape size len word stored (put (put s x i a) a j (s x i)) (insert a live)
      (Function.update path a (path x ++ [i])) {a} := by
  have ha0 : a ≠ 0 := by
    rintro rfl
    exact ha h.root_mem
  have hax : a ≠ x := by
    rintro rfl
    exact ha hx
  have hpath : ∀ y ∈ live, Function.update path a (path x ++ [i]) y = path y := by
    intro y hy
    refine Function.update_of_ne ?_ _ _
    rintro rfl
    exact ha hy
  have hpatha : Function.update path a (path x ++ [i]) a = path x ++ [i] :=
    Function.update_self _ _ _
  have hslot : ∀ y ∈ live, ∀ j', ¬(y = x ∧ j' = i) →
      put (put s x i a) a j (s x i) y j' = s y j' := by
    intro y hy j' hne
    rw [put_ne (by rintro ⟨rfl, -⟩; exact ha hy), put_ne hne]
  have hxi : put (put s x i a) a j (s x i) x i = a := by
    rw [put_ne (by rintro ⟨rfl, -⟩; exact ha hx), put_self]
  have haj : put (put s x i a) a j (s x i) a j = s x i := put_self _ _ _ _
  have haj' : ∀ j' < size, j' ≠ j → put (put s x i a) a j (s x i) a j' = 0 := by
    intro j' hj' hne
    rw [put_ne (by rintro ⟨-, rfl⟩; exact hne rfl), put_ne (by rintro ⟨rfl, -⟩; exact hax rfl)]
    exact h.dead a ha j' hj'
  -- no node has the new path yet
  have hnew : ∀ y ∈ live, path y ≠ path x ++ [i] := by
    intro y hy heq
    have := (h.slot_of_path hx hy heq).2
    omega
  obtain ⟨hk, hpk⟩ := h.leaf x hx i hi hneg
  refine ⟨Set.mem_insert_of_mem _ h.root_mem, ?_, ?_, ?_, ?_, ?_, ?_, ?_, ?_, ?_, h.stored_pos,
    h.word_length, h.word_lt, h.word_inj⟩
  · rw [hpath 0 h.root_mem]
    exact h.path_root
  · rintro y (rfl | hy) z (rfl | hz) heq
    · rfl
    · rw [hpatha, hpath z hz] at heq
      exact absurd heq.symm (hnew z hz)
    · rw [hpatha, hpath y hy] at heq
      exact absurd heq (hnew y hy)
    · rw [hpath y hy, hpath z hz] at heq
      exact h.path_inj y hy z hz heq
  · rintro y (rfl | hy)
    · simpa [hpatha] using hlt
    · rw [hpath y hy]
      exact h.path_lt y hy
  · rintro y (rfl | hy) j' hj' hpos
    · by_cases hjj : j' = j
      · subst hjj
        rw [haj] at hpos
        omega
      · rw [haj' j' hj' hjj] at hpos
        omega
    · by_cases hyx : y = x ∧ j' = i
      · obtain ⟨rfl, rfl⟩ := hyx
        rw [hxi, Int.toNat_natCast, hpatha, hpath y hy]
        exact ⟨Set.mem_insert _ _, rfl⟩
      · rw [hslot y hy j' hyx] at hpos ⊢
        obtain ⟨hmem, hpc⟩ := h.child y hy j' hj' hpos
        rw [hpath _ hmem, hpath y hy]
        exact ⟨Set.mem_insert_of_mem _ hmem, hpc⟩
  · rintro y (rfl | hy) hy0
    · exact ⟨x, Set.mem_insert_of_mem _ hx, i, hi, hxi⟩
    · obtain ⟨z, hz, j', hj', hzj⟩ := h.parent y hy hy0
      refine ⟨z, Set.mem_insert_of_mem _ hz, j', hj', ?_⟩
      rw [hslot z hz j' (by rintro ⟨rfl, rfl⟩; omega), hzj]
  · rintro y (rfl | hy) j' hj' hneg'
    · by_cases hjj : j' = j
      · subst hjj
        rw [haj, hpatha]
        exact ⟨hk, hp⟩
      · rw [haj' j' hj' hjj] at hneg'
        omega
    · by_cases hyx : y = x ∧ j' = i
      · obtain ⟨rfl, rfl⟩ := hyx
        rw [hxi] at hneg'
        omega
      · rw [hslot y hy j' hyx] at hneg' ⊢
        rw [hpath y hy]
        exact h.leaf y hy j' hj' hneg'
  · intro k hk
    obtain ⟨y, hy, j', hj', hyj⟩ := h.placed k hk
    by_cases hyx : y = x ∧ j' = i
    · obtain ⟨rfl, rfl⟩ := hyx
      exact ⟨a, Set.mem_insert _ _, j, hj, by rw [haj, hyj]⟩
    · exact ⟨y, Set.mem_insert_of_mem _ hy, j', hj', by rw [hslot y hy j' hyx, hyj]⟩
  · rintro y (rfl | hy) hy0 hya
    · exact absurd rfl hya
    · by_cases hyx : y = x
      · subst hyx
        exact .inl ⟨i, hi, by rw [hxi]; omega⟩
      · have hsl : ∀ j', put (put s x i a) a j (s x i) y j' = s y j' :=
          fun j' => hslot y hy j' fun h => hyx h.1
        simp only [hsl]
        exact h.branching y hy hy0 fun hm => hyx (hl hm)
  · intro y hy j' hj'
    have hya : y ≠ a := fun h => hy (h ▸ Set.mem_insert _ _)
    have hyl : y ∉ live := fun h => hy (Set.mem_insert_of_mem _ h)
    rw [put_ne fun h => hya h.1, put_ne (by rintro ⟨rfl, -⟩; exact hyl hx)]
    exact h.dead y hyl j' hj'

/-- A node that is the root, or has a node below it or two slots taken, need not be loose. -/
theorem tighten (h : Shape size len word stored s live path {x}) (hx : x = 0 ∨
    (∃ i < size, 0 < s x i) ∨ ∃ i < size, ∃ j < size, i ≠ j ∧ s x i ≠ 0 ∧ s x j ≠ 0) :
    Shape size len word stored s live path ∅ :=
  { h with
    branching := by
      intro y hy hy0 _
      by_cases hyx : y = x
      · subst hyx
        exact hx.resolve_left hy0
      · exact h.branching y hy hy0 hyx }

/-! ## Removing a key -/

theorem remove (h : Shape size len word stored s live path ∅) (hx : x ∈ live) (hi : i < size)
    (hs : s x i = -(k : ℤ)) (hk : k ∈ stored) :
    Shape size len word (stored \ {k}) (put s x i 0) live path {x} := by
  have hkpos := h.stored_pos k hk
  have hput : ∀ y j, put s x i 0 y j ≠ 0 → put s x i 0 y j = s y j ∧ ¬(y = x ∧ j = i) := by
    intro y j hne
    have hyj : ¬(y = x ∧ j = i) := by
      rintro ⟨rfl, rfl⟩
      simp at hne
    exact ⟨put_ne hyj, hyj⟩
  refine { h with
    child := ?_, parent := ?_, leaf := ?_, placed := ?_, branching := ?_, dead := ?_,
    stored_pos := fun k hk => h.stored_pos k hk.1
    word_length := fun k hk => h.word_length k hk.1
    word_lt := fun k hk => h.word_lt k hk.1
    word_inj := fun k hk k' hk' => h.word_inj k hk.1 k' hk'.1 }
  · intro y hy j hj hpos
    obtain ⟨heq, -⟩ := hput y j hpos.ne'
    rw [heq] at hpos ⊢
    exact h.child y hy j hj hpos
  · intro y hy hy0
    obtain ⟨z, hz, j, hj, hzj⟩ := h.parent y hy hy0
    refine ⟨z, hz, j, hj, ?_⟩
    rw [put_ne (by rintro ⟨rfl, rfl⟩; omega), hzj]
  · intro y hy j hj hneg
    obtain ⟨heq, hne⟩ := hput y j hneg.ne
    rw [heq] at hneg ⊢
    obtain ⟨hmem, hpre⟩ := h.leaf y hy j hj hneg
    refine ⟨⟨hmem, ?_⟩, hpre⟩
    rintro hkk
    rw [Set.mem_singleton_iff] at hkk
    exact hne (h.slot_unique hx hy hi hj (by omega) (by omega))
  · rintro k' ⟨hk', hne⟩
    obtain ⟨y, hy, j, hj, hyj⟩ := h.placed k' hk'
    refine ⟨y, hy, j, hj, ?_⟩
    rw [put_ne, hyj]
    rintro ⟨rfl, rfl⟩
    refine hne (Set.mem_singleton_iff.mpr ?_)
    omega
  · intro y hy hy0 hyx
    have hsl : ∀ j, put s x i 0 y j = s y j := fun j => put_ne fun h => hyx h.1
    simp only [hsl]
    exact h.branching y hy hy0 (Set.notMem_empty _)
  · intro y hy j hj
    rw [put_ne (by rintro ⟨rfl, -⟩; exact hy hx)]
    exact h.dead y hy j hj

/-- A key that is alone in its node moves to the node above. -/
theorem lift (h : Shape size len word stored s live path {x}) (hx : x ∈ live) (hi : i < size)
    (hneg : s x i < 0) (halone : ∀ j < size, j ≠ i → s x j = 0) {up : ℕ} (hup : up ∈ live)
    (hp : path x = path up ++ [j]) :
    Shape size len word stored (put (put s x i 0) up j (s x i)) (live \ {x}) path {up} := by
  obtain ⟨hj, hslot⟩ := h.slot_of_path hup hx hp
  have hx0 : x ≠ 0 := by
    rintro rfl
    simp [h.path_root] at hp
  have hxup : x ≠ up := by
    rintro rfl
    simpa using congrArg List.length hp
  obtain ⟨hk, hpk⟩ := h.leaf x hx i hi hneg
  have hupj : put (put s x i 0) up j (s x i) up j = s x i := put_self _ _ _ _
  have hother : ∀ y j', y ≠ x → ¬(y = up ∧ j' = j) →
      put (put s x i 0) up j (s x i) y j' = s y j' := by
    intro y j' hyx hne
    rw [put_ne hne, put_ne fun h => hyx h.1]
  have hxj : ∀ j' < size, put (put s x i 0) up j (s x i) x j' = 0 := by
    intro j' hj'
    rw [put_ne fun h => hxup h.1]
    by_cases hji : j' = i
    · rw [hji, put_self]
    · rw [put_ne fun h => hji h.2]
      exact halone j' hj' hji
  refine ⟨⟨h.root_mem, fun h => hx0 h.symm⟩, h.path_root,
    fun y hy z hz => h.path_inj y hy.1 z hz.1, fun y hy => h.path_lt y hy.1, ?_, ?_, ?_, ?_, ?_, ?_,
    h.stored_pos, h.word_length, h.word_lt, h.word_inj⟩
  · rintro y ⟨hy, hyx⟩ j' hj' hpos
    by_cases hyup : y = up ∧ j' = j
    · obtain ⟨rfl, rfl⟩ := hyup
      omega
    · rw [hother y j' hyx hyup] at hpos ⊢
      obtain ⟨hmem, hpc⟩ := h.child y hy j' hj' hpos
      refine ⟨⟨hmem, ?_⟩, hpc⟩
      rintro (hcx : _ = x)
      rw [hcx, hp] at hpc
      obtain ⟨hpy, hjj⟩ := List.append_inj' hpc rfl
      refine hyup ⟨(h.path_inj up hup y hy hpy).symm, ?_⟩
      simpa using hjj.symm
  · rintro y ⟨hy, hyx⟩ hy0
    obtain ⟨z, hz, j', hj', hzj⟩ := h.parent y hy hy0
    have hzx : z ≠ x := by
      rintro rfl
      by_cases hji : j' = i
      · subst hji
        omega
      · have := halone j' hj' hji
        omega
    refine ⟨z, ⟨hz, hzx⟩, j', hj', ?_⟩
    rw [hother z j' hzx, hzj]
    rintro ⟨rfl, rfl⟩
    rw [hslot] at hzj
    exact hyx (Int.natCast_inj.mp hzj.symm)
  · rintro y ⟨hy, hyx⟩ j' hj' hneg'
    by_cases hyup : y = up ∧ j' = j
    · obtain ⟨rfl, rfl⟩ := hyup
      rw [hupj, ← hp]
      exact ⟨hk, (List.prefix_append _ _).trans hpk⟩
    · rw [hother y j' hyx hyup] at hneg' ⊢
      exact h.leaf y hy j' hj' hneg'
  · intro k hk
    obtain ⟨y, hy, j', hj', hyj⟩ := h.placed k hk
    have hkpos := h.stored_pos k hk
    by_cases hyx : y = x
    · subst hyx
      refine ⟨up, ⟨hup, fun h => hxup h.symm⟩, j, hj, ?_⟩
      by_cases hji : j' = i
      · rw [hupj, ← hji, hyj]
      · have := halone j' hj' hji
        omega
    · refine ⟨y, ⟨hy, hyx⟩, j', hj', ?_⟩
      rw [hother y j' hyx, hyj]
      rintro ⟨rfl, rfl⟩
      omega
  · rintro y ⟨hy, hyx⟩ hy0 hyup
    have hsl : ∀ j', put (put s x i 0) up j (s x i) y j' = s y j' :=
      fun j' => hother y j' hyx fun h => hyup h.1
    simp only [hsl]
    exact h.branching y hy hy0 hyx
  · intro y hy j' hj'
    by_cases hyx : y = x
    · subst hyx
      exact hxj j' hj'
    · have hyl : y ∉ live := fun h => hy ⟨h, hyx⟩
      rw [hother y j' hyx (by rintro ⟨rfl, -⟩; exact hyl hup)]
      exact h.dead y hyl j' hj'

end Shape

/-! ## The way up -/

/-- `above` are the nodes from the one above `x` to the root. -/
def Above (live : Set ℕ) (path : ℕ → List ℕ) : ℕ → List ℕ → Prop
  | x, [] => x = 0
  | x, up :: above => up ∈ live ∧ (∃ i, path x = path up ++ [i]) ∧ Above live path up above

/-- The nodes above are shorter, so they stay when `x` goes. -/
theorem Above.erase {above : List ℕ} (h : Above live path x above)
    (hy : (path x).length ≤ (path y).length) : Above (live \ {y}) path x above := by
  induction above generalizing x with
  | nil => exact h
  | cons up above ih =>
    obtain ⟨hup, ⟨i, hi⟩, h⟩ := h
    have hlt : (path up).length < (path y).length := by
      rw [hi, List.length_append] at hy
      exact hy
    refine ⟨⟨hup, ?_⟩, ⟨i, hi⟩, ih h hlt.le⟩
    rintro (rfl : up = y)
    exact lt_irrefl _ hlt

end RadixArray
