import ZkevmProver.StarkPil.MerkleTreeBN128Openings

/-!
# What the root of the Merkle tree over BN128 binds

  1. Words and elements.
  2. Rows.
  3. Sources.
  4. Rows that are not bound.
  5. When the root binds.
-/

namespace ZkevmProver

open Loops NodeTree

/-- A Goldilocks element in canonical form. -/
def Canonical (x : BitVec 64) : Prop := x.toNat < goldilocksPrime

instance : DecidablePred Canonical := fun x => inferInstanceAs (Decidable (x.toNat < goldilocksPrime))

theorem toWord_of_canonical {x : BitVec 64} (h : Canonical x) : toWord x = x := by
  rw [toWord, toU64_fromU64 h, BitVec.ofNat_toNat, BitVec.setWidth_eq]

namespace MerkleTreeBN128

/-! ## Elements -/

theorem storeWords_injective {ws ws' : List (BitVec 64)} (hlength : ws.length = ws'.length) (hle : ws.length ≤ 4)
    (h : RawFr.storeWords 0 ws = RawFr.storeWords 0 ws') : ws = ws' := by
  refine List.ext_getElem hlength fun k hk hk' => ?_
  have hword := congrFun h ⟨k, hk.trans_le hle⟩
  rw [RawFr.storeWords, RawFr.storeWords, List.getD_eq_getElem _ _ hk, List.getD_eq_getElem _ _ hk'] at hword
  exact hword

/-- Three words are a number below the modulus. -/
theorem value_storeWords_lt {ws : List (BitVec 64)} (hle : ws.length ≤ 3) :
    (RawFr.storeWords 0 ws).value < RawFr.q := by
  have hlast : RawFr.storeWords 0 ws 3 = 0 := by
    rw [RawFr.storeWords, List.getD_eq_default _ _ (by exact hle)]
    rfl
  have h0 := (RawFr.storeWords 0 ws 0).isLt
  have h1 := (RawFr.storeWords 0 ws 1).isLt
  have h2 := (RawFr.storeWords 0 ws 2).isLt
  have hvalue : (RawFr.storeWords 0 ws).value < 2 ^ 192 := by
    rw [RawFr.value, hlast, show (0 : BitVec 64).toNat = 0 from rfl]
    omega
  exact hvalue.trans (by decide)

theorem toMontgomery_injective {ws ws' : List (BitVec 64)} (hlength : ws.length = ws'.length)
    (hle : ws.length ≤ 3)
    (h : RawFr.toMontgomery (RawFr.storeWords 0 ws) = RawFr.toMontgomery (RawFr.storeWords 0 ws')) : ws = ws' := by
  have hvalue := RawFr.toMontgomery_eq_iff.mp h
  rw [Nat.mod_eq_of_lt (value_storeWords_lt hle), Nat.mod_eq_of_lt (value_storeWords_lt (hlength ▸ hle))] at hvalue
  exact storeWords_injective hlength (by omega) (RawFr.value_injective hvalue)

/-! ## Rows -/

theorem map_toWord {row : List (BitVec 64)} (h : ∀ x ∈ row, Canonical x) : row.map toWord = row := by
  rw [List.map_congr_left fun x hx => toWord_of_canonical (h x hx), List.map_id']

/-- Packing loses nothing. -/
theorem pack_injective {row row' : List (BitVec 64)} (hlength : row.length = row'.length)
    (hrow : ∀ x ∈ row, Canonical x) (hrow' : ∀ x ∈ row', Canonical x)
    (h : pack ((row.length + 2) / 3) row = pack ((row.length + 2) / 3) row') : row = row' := by
  refine List.ext_getElem hlength fun k hk hk' => ?_
  have hlt : k / 3 < (row.length + 2) / 3 := by omega
  have helement := List.map_inj_left.mp h (k / 3) (List.mem_range.mpr hlt)
  have hchunk : (row.drop (k / 3 * 3)).take 3 = (row'.drop (k / 3 * 3)).take 3 := by
    have hmem (r : List (BitVec 64)) (hr : ∀ x ∈ r, Canonical x) :
        ∀ x ∈ (r.drop (k / 3 * 3)).take 3, Canonical x :=
      fun x hx => hr x (List.mem_of_mem_drop (List.mem_of_mem_take hx))
    rw [map_toWord (hmem row hrow), map_toWord (hmem row' hrow')] at helement
    refine toMontgomery_injective ?_ (List.length_take_le _ _) helement
    rw [List.length_take, List.length_take, List.length_drop, List.length_drop, hlength]
  have hget := congrArg (fun l => l[k % 3]?) hchunk
  have hmod : k % 3 < 3 := Nat.mod_lt _ (by decide)
  simp only [List.getElem?_take_of_lt hmod, List.getElem?_drop, Nat.div_add_mod'] at hget
  rw [List.getElem?_eq_getElem hk, List.getElem?_eq_getElem hk'] at hget
  exact Option.some_inj.mp hget

theorem flatten_blocks {width : ℕ} {buff : List RawFr} {pending : ℕ} (hlength : buff.length = width)
    (hpending : pending ≤ width) : (blocks width buff pending).flatten = buff.drop (width - pending) := by
  fun_induction blocks width buff pending with
  | case1 =>
    rw [Nat.sub_zero, List.drop_eq_nil_of_le hlength.le]
    rfl
  | case2 pending hpos h16 ih =>
    have hdrop : width - (pending - 16) = width - pending + 16 := by omega
    rw [List.flatten_cons, ih (by omega), hdrop, ← List.drop_drop, List.take_append_drop]
  | case3 pending hpos h16 =>
    rw [List.flatten_cons, List.flatten_nil, List.append_nil, List.take_of_length_le]
    rw [List.length_drop, hlength]
    omega

theorem length_blocks {width : ℕ} {buff buff' : List RawFr} {pending : ℕ} (hlength : buff.length = buff'.length) :
    List.Forall₂ (fun b b' => b.length = b'.length) (blocks width buff pending) (blocks width buff' pending) := by
  have htake (p k : ℕ) : ((buff.drop p).take k).length = ((buff'.drop p).take k).length := by
    rw [List.length_take, List.length_take, List.length_drop, List.length_drop, hlength]
  fun_induction blocks width buff pending with
  | case1 =>
    rw [blocks, if_pos rfl]
    exact .nil
  | case2 pending hpos h16 ih =>
    rw [blocks.eq_def width buff' pending, if_neg hpos, if_pos h16]
    exact .cons (htake _ _) ih
  | case3 pending hpos h16 =>
    rw [blocks.eq_def width buff' pending, if_neg hpos, if_neg h16]
    exact .cons (htake _ _) .nil

section Rows

variable {poseidon : List RawFr → RawFr} {I : Set (List RawFr)} {row row' : List (BitVec 64)}

/-- The leaf determines the row, unless the row has four elements, or more than `pending` can count. -/
theorem freshLeaf_injective (hinj : InjectiveOn poseidon I) (hlength : row.length = row'.length)
    (hfour : row.length ≠ 4) (hwidth : (row.length + 2) / 3 < 2 ^ 32)
    (hrow : ∀ x ∈ row, Canonical x) (hrow' : ∀ x ∈ row', Canonical x)
    (hmem : ∀ x ∈ leafInputs poseidon row.length ((row.length + 2) / 3) 0 row, x ∈ I)
    (hmem' : ∀ x ∈ leafInputs poseidon row'.length ((row'.length + 2) / 3) 0 row', x ∈ I)
    (h : freshLeaf poseidon row = freshLeaf poseidon row') : row = row' := by
  rw [freshLeaf, freshLeaf, leafOver, leafOver, leafFrom, leafFrom, ← hlength] at h
  rw [leafInputs] at hmem
  rw [leafInputs, ← hlength] at hmem'
  rcases Nat.lt_or_ge 4 row.length with hlarge | hsmall
  · rw [if_pos hlarge, if_pos hlarge, Nat.mod_eq_of_lt hwidth] at h
    rw [if_pos hlarge, Nat.mod_eq_of_lt hwidth] at hmem hmem'
    have hpack : (pack ((row.length + 2) / 3) row).length = (pack ((row.length + 2) / 3) row').length := by
      rw [length_pack, length_pack]
    obtain ⟨-, hblocks⟩ := chain_injective hinj (length_blocks hpack) hmem hmem' h
    have hflatten := congrArg List.flatten hblocks
    rw [flatten_blocks (length_pack _ _) le_rfl, flatten_blocks (length_pack _ _) le_rfl, Nat.sub_self,
      List.drop_zero, List.drop_zero] at hflatten
    exact pack_injective hlength hrow hrow' hflatten
  · rw [if_neg (Nat.not_lt.mpr hsmall), if_neg (Nat.not_lt.mpr hsmall), map_toWord hrow, map_toWord hrow'] at h
    exact toMontgomery_injective hlength (by omega) h

end Rows

/-! ## Sources -/

/-- A table is given by its rows. -/
theorem source_ext {height width : ℕ} {t t' : MerkleTreeBN128} (h : Shaped height width t)
    (h' : Shaped height width t') (hrow : ∀ i < height, t.row i = t'.row i) : t.source = t'.source := by
  refine List.ext_getElem (h.source_length.trans h'.source_length.symm) fun k hk hk' => ?_
  rw [h.source_length] at hk
  have hwidth : 0 < width := Nat.pos_of_mul_pos_left (Nat.zero_lt_of_lt hk)
  have hget := congrArg (fun l => l[k % width]?) (hrow (k / width) (Nat.div_lt_of_lt_mul (by rwa [Nat.mul_comm])))
  have hmod : k % width < width := Nat.mod_lt _ hwidth
  simp only [row, h.source_width_eq, h'.source_width_eq, List.getElem?_take_of_lt hmod, List.getElem?_drop,
    Nat.div_add_mod'] at hget
  rw [List.getElem?_eq_getElem (h.source_length ▸ hk), List.getElem?_eq_getElem hk'] at hget
  exact Option.some_inj.mp hget

/-- The commitment to a source is binding: the tree is built, and two sources with the same root are equal
if Poseidon does not collide on what has been hashed for them. -/
def Binding (height width : ℕ) : Prop :=
  ∀ (poseidon : List RawFr → RawFr) (source source' : List (BitVec 64)),
    source.length = height * width → source'.length = height * width →
      (∀ x ∈ source, Canonical x) → (∀ x ∈ source', Canonical x) →
        let t := merkelize poseidon (new height width source)
        let t' := merkelize poseidon (new height width source')
        t.outside = false ∧ t'.outside = false ∧
          (InjectiveOn poseidon { x | x ∈ t.hashed ∨ x ∈ t'.hashed } → t.getRoot = t'.getRoot → source = source')

section Good

variable {poseidon : List RawFr → RawFr} {height width : ℕ} {source source' : List (BitVec 64)}

theorem Shaped.canonical_row {t : MerkleTreeBN128} (h : ∀ x ∈ t.source, Canonical x) (i : ℕ) :
    ∀ x ∈ t.row i, Canonical x :=
  fun x hx => h x (List.mem_of_mem_drop (List.mem_of_mem_take hx))

/-- What has been hashed for a leaf. -/
theorem Ready.leafInputs_mem {t : MerkleTreeBN128} (h : Ready height width t) (hgood : GoodHeight height) {i : ℕ}
    (hi : i < height) : ∀ x ∈ leafInputs poseidon (t.row i).length (((t.row i).length + 2) / 3) (t.nodes i) (t.row i),
      x ∈ (MerkleTreeBN128.merkelize poseidon t).hashed := by
  intro x hx
  refine (h.built poseidon hgood).hashed (List.mem_append_right _ (List.mem_flatMap.mpr ⟨i, List.mem_range.mpr hi, ?_⟩))
  rw [h.length_row hi, leafInputs] at hx
  rw [leafInputs, h.source_width_eq]
  split at hx
  · next hlarge => rwa [if_pos hlarge, h.width_eq hlarge]
  · exact absurd hx List.not_mem_nil

theorem binding_of_good (hgood : GoodHeight height) (hfour : width ≠ 4) (hwidth : (width + 2) / 3 < 2 ^ 32) :
    Binding height width := by
  intro poseidon source source' hsource hsource' hcanonical hcanonical'
  have hnew : Ready height width (new height width source) := ready_new hsource
  have hnew' : Ready height width (new height width source') := ready_new hsource'
  refine ⟨(hnew.merkelize poseidon hgood).outside, (hnew'.merkelize poseidon hgood).outside, fun hinj hroot => ?_⟩
  have hh : 1 < height := by
    have := hgood.2.1
    omega
  have hlast : getNumNodes height - 1 = rootAt 0 height := by
    rw [getNumNodes_eq hh hgood.2.2, Nat.add_sub_cancel]
  rw [getRoot, getRoot, (hnew.merkelize poseidon hgood).numNodes_eq, (hnew'.merkelize poseidon hgood).numNodes_eq, hlast] at hroot
  have hnodes := ((hnew.built poseidon hgood).tree.mono fun _ => Or.inl).binding
    ((hnew'.built poseidon hgood).tree.mono fun _ => Or.inr) (by decide) hinj hroot
  refine source_ext hnew.toShaped hnew'.toShaped fun i hi => ?_
  have hlength : ((new height width source).row i).length = width := hnew.length_row hi
  have hlength' : ((new height width source').row i).length = width := hnew'.length_row hi
  have hleaf := hnodes i hi
  rw [Nat.zero_add, hnew.nodes_merkelize hgood hi, hnew'.nodes_merkelize hgood hi] at hleaf
  exact freshLeaf_injective hinj (hlength.trans hlength'.symm) (by rwa [hlength]) (by rwa [hlength])
    (Shaped.canonical_row hcanonical i) (Shaped.canonical_row hcanonical' i)
    (fun x hx => .inl (hnew.leafInputs_mem hgood hi x hx))
    (fun x hx => .inr (hnew'.leafInputs_mem hgood hi x hx)) hleaf

end Good

/-! ## Rows that are not bound -/

/-- All nodes are zero, and only zeros have been hashed. -/
def Blank (t : MerkleTreeBN128) : Prop := (∀ j, t.nodes j = 0) ∧ ∀ x ∈ t.hashed, ∀ e ∈ x, e = 0

/-- A row whose leaf is zero, whatever is hashed to zero. -/
def BlankRow (source_width width : ℕ) (row : List (BitVec 64)) : Prop :=
  if source_width > 4 then ∀ e ∈ (pack width row).drop (width - width % 2 ^ 32), e = 0
  else RawFr.toMontgomery (RawFr.storeWords 0 (row.map toWord)) = 0

section Blank

variable {t : MerkleTreeBN128} {height width : ℕ}

theorem Blank.write (h : Blank t) (i : ℕ) : Blank (t.write i 0) := by
  refine ⟨fun j => ?_, h.2⟩
  show Function.update t.nodes i 0 j = 0
  rw [Function.update_apply, h.1]
  exact ite_self 0

theorem Blank.hash (h : Blank t) (i : ℕ) {elements : List RawFr} (helements : ∀ e ∈ elements, e = 0) :
    Blank (hash (fun _ => 0) t elements i) := by
  refine Blank.write (t := { t with hashed := t.hashed ++ [elements] }) ⟨h.1, ?_⟩ i
  exact List.forall_mem_append.mpr ⟨h.2, List.forall_mem_singleton.mpr helements⟩

theorem Blank.hashRow (h : Blank t) (i : ℕ) (buff : List RawFr) (pending : ℕ)
    (hbuff : ∀ e ∈ buff.drop (t.width - pending), e = 0) :
    Blank (hashRow (fun _ => 0) t i buff pending) := by
  fun_induction MerkleTreeBN128.hashRow (fun _ => 0) t i buff pending with
  | case1 t => exact h
  | case2 t pending hpos h16 ih =>
    refine ih (h.hash i (List.forall_mem_cons.mpr ⟨h.1 i, fun e he => hbuff e (List.mem_of_mem_take he)⟩))
      fun e he => ?_
    have hle : t.width - pending ≤ t.width - (pending - 16) := by omega
    exact hbuff e ((List.drop_sublist_drop_left buff hle).subset he)
  | case3 t pending hpos h16 =>
    exact h.hash i (List.forall_mem_cons.mpr ⟨h.1 i, fun e he => hbuff e (List.mem_of_mem_take he)⟩)

theorem Blank.linearHash (h : Blank t) (hrow : ∀ i < t.height, BlankRow t.source_width t.width (t.row i)) :
    Blank (linearHash (fun _ => 0) t) := by
  unfold MerkleTreeBN128.linearHash
  split
  · next hlarge =>
    have hinv := forUpTo_inv (n := t.height) (s := t)
      (f := fun i t => MerkleTreeBN128.hashRow (fun _ => 0) t i (pack t.width (t.row i)) (t.width % 2 ^ 32))
      (J := fun _ s => Later t s ∧ Blank s) ⟨.refl t, h⟩ fun i hi s hs => ?_
    · exact hinv.2
    · obtain ⟨hlater, hblank⟩ := hs
      have hzero := hrow i hi
      rw [BlankRow, if_pos hlarge] at hzero
      refine ⟨hlater.trans (later_hashRow _ _ _), hblank.hashRow i _ _ ?_⟩
      rwa [row, hlater.width, hlater.source, hlater.source_width]
  · next hsmall =>
    have hinv := forUpTo_inv (n := t.height) (s := t)
      (f := fun i t => t.write i (RawFr.toMontgomery (RawFr.storeWords (t.nodes i) ((t.row i).map toWord))))
      (J := fun _ s => Later t s ∧ Blank s) ⟨.refl t, h⟩ fun i hi s hs => ?_
    · exact hinv.2
    · obtain ⟨hlater, hblank⟩ := hs
      have hzero := hrow i hi
      rw [BlankRow, if_neg hsmall] at hzero
      refine ⟨hlater.trans (later_write _ _), ?_⟩
      have hrow : s.row i = t.row i := by rw [row, hlater.source, hlater.source_width, row]
      rw [hblank.1 i, hrow, hzero]
      exact hblank.write i

theorem Blank.hashLevel (h : Blank t) (cursor cursorNext n256 : ℕ) :
    Blank (hashLevel (fun _ => 0) t cursor cursorNext n256) := by
  refine forUpTo_inv (J := fun _ s => Blank s) h fun i _ s hs => ?_
  refine hs.hash _ (List.forall_mem_cons.mpr ⟨rfl, fun e he => ?_⟩)
  obtain ⟨k, -, rfl⟩ := List.mem_map.mp he
  rw [hs.1]
  exact ite_self 0

theorem Blank.merkelizeLoop (h : Blank t) (cursor cursorNext n256 : ℕ) :
    Blank (merkelizeLoop (fun _ => 0) t cursor cursorNext n256) := by
  fun_induction MerkleTreeBN128.merkelizeLoop (fun _ => 0) t cursor cursorNext n256 with
  | case1 t cursor cursorNext n256 hn n256' ih => exact ih (h.hashLevel _ _ _)
  | case2 => exact h

theorem blank_merkelize {source : List (BitVec 64)}
    (hrow : ∀ i < height, BlankRow width (new height width source).width ((new height width source).row i)) :
    Blank (merkelize (fun _ => 0) (new height width source)) := by
  have hnew : Blank (new height width source) := ⟨fun _ => rfl, fun _ h => absurd h List.not_mem_nil⟩
  exact (hnew.linearHash hrow).merkelizeLoop _ _ _

/-- Two sources with blank rows have the same root, and nothing collides. -/
theorem not_binding_of_blank (source source' : List (BitVec 64)) (hsource : source.length = height * width)
    (hsource' : source'.length = height * width) (hcanonical : ∀ x ∈ source, Canonical x)
    (hcanonical' : ∀ x ∈ source', Canonical x) (hne : source ≠ source')
    (hrow : ∀ i < height, BlankRow width (new height width source).width ((new height width source).row i))
    (hrow' : ∀ i < height, BlankRow width (new height width source').width ((new height width source').row i)) :
    ¬ Binding height width := by
  intro h
  obtain ⟨-, -, heq⟩ := h (fun _ => 0) source source' hsource hsource' hcanonical hcanonical'
  have hblank := blank_merkelize hrow
  have hblank' := blank_merkelize hrow'
  refine hne (heq (fun x hx y hy hlength _ => ?_) ((hblank.1 _).trans (hblank'.1 _).symm))
  have hzero (z : List RawFr) (hz : z ∈ { x | x ∈ (merkelize (fun _ => 0) (new height width source)).hashed ∨
      x ∈ (merkelize (fun _ => 0) (new height width source')).hashed }) : z = List.replicate z.length 0 :=
    List.eq_replicate_of_mem (hz.elim (hblank.2 z) (hblank'.2 z))
  rw [hzero x hx, hzero y hy, hlength]

theorem toMontgomery_of_zeros {row : List (BitVec 64)} (h : ∀ x ∈ row, x = 0) :
    RawFr.toMontgomery (RawFr.storeWords 0 (row.map toWord)) = 0 := by
  rw [List.eq_replicate_of_mem h, List.map_replicate]
  exact toMontgomery_zeros _ 0 rfl

/-- The modulus, whose words are canonical Goldilocks elements. -/
def qWords : List (BitVec 64) :=
  [0x43e1f593f0000001, 0x2833e84879b97091, 0xb85045b68181585d, 0x30644e72e131a029]

theorem not_binding_four (hheight : 0 < height) : ¬ Binding height 4 := by
  have hsize : 4 + (height * 4 - 4) = height * 4 := by omega
  have hcanonical : ∀ x ∈ qWords, Canonical x :=
    List.forall_mem_cons.mpr ⟨by decide, List.forall_mem_cons.mpr ⟨by decide,
      List.forall_mem_cons.mpr ⟨by decide, List.forall_mem_singleton.mpr (by decide)⟩⟩⟩
  have hzero (n : ℕ) : ∀ x ∈ List.replicate n (0 : BitVec 64), x = 0 := fun x hx => List.eq_of_mem_replicate hx
  refine not_binding_of_blank (List.replicate (height * 4) 0)
    (qWords ++ List.replicate (height * 4 - 4) 0) List.length_replicate ?_ (fun x hx => ?_) (fun x hx => ?_)
    (fun heq => ?_) (fun i _ => ?_) fun i _ => ?_
  · rw [List.length_append, List.length_replicate]
    exact hsize
  · rw [hzero _ x hx]
    exact (by decide : 0 < goldilocksPrime)
  · rcases List.mem_append.mp hx with hx | hx
    · exact hcanonical x hx
    · rw [hzero _ x hx]
      exact (by decide : 0 < goldilocksPrime)
  · obtain ⟨n, hn⟩ : ∃ n, height * 4 = n + 1 := Nat.exists_eq_succ_of_ne_zero (by omega)
    rw [hn, List.replicate_succ] at heq
    exact absurd (List.cons.inj heq).1 (by decide)
  · exact (if_neg (by decide)).mpr (toMontgomery_of_zeros fun x hx =>
      hzero _ x (List.mem_of_mem_drop (List.mem_of_mem_take hx)))
  · refine (if_neg (by decide)).mpr ?_
    rcases Nat.eq_zero_or_pos i with rfl | hi
    · show RawFr.toMontgomery (RawFr.storeWords 0 ((((qWords ++ _).drop (0 * 4)).take 4).map toWord)) = 0
      rw [Nat.zero_mul, List.drop_zero, List.take_left' (show qWords.length = 4 from rfl)]
      decide
    · refine toMontgomery_of_zeros fun x hx => hzero (height * 4 - 4) x ?_
      have hx : x ∈ (qWords ++ List.replicate (height * 4 - 4) 0).drop (i * 4) := List.mem_of_mem_take hx
      have hlength : qWords.length ≤ i * 4 := Nat.le_mul_of_pos_left 4 hi
      rw [List.drop_append, List.drop_eq_nil_of_le hlength, List.nil_append] at hx
      exact List.mem_of_mem_drop hx

/-- Elements before `width - pending` are never hashed. -/
theorem not_binding_wide (hheight : 0 < height) (hwide : 2 ^ 32 ≤ (width + 2) / 3) : ¬ Binding height width := by
  have hwidth : 4 < width := by omega
  have hsize : 0 < height * width := Nat.mul_pos hheight (by omega)
  have hzero (n : ℕ) : ∀ x ∈ List.replicate n (0 : BitVec 64), x = 0 := fun x hx => List.eq_of_mem_replicate hx
  have hnew (source : List (BitVec 64)) : (new height width source).width = (width + 2) / 3 := if_pos hwidth
  have hskip : 1 ≤ (width + 2) / 3 - (width + 2) / 3 % 2 ^ 32 := by
    have hmod : (width + 2) / 3 % 2 ^ 32 < 2 ^ 32 := Nat.mod_lt _ (by decide)
    omega
  -- only the first entry of the source may differ from zero
  have hblank (source : List (BitVec 64)) (hsource : ∀ x ∈ source.drop 1, x = 0) (i : ℕ) :
      BlankRow width (new height width source).width ((new height width source).row i) := by
    rw [hnew, BlankRow, if_pos hwidth]
    intro e he
    have he := (List.drop_sublist_drop_left _ hskip).subset he
    rw [pack, ← List.map_drop] at he
    obtain ⟨j, hj, rfl⟩ := List.mem_map.mp he
    obtain ⟨j, rfl⟩ : ∃ k, j = k + 1 := by
      rw [List.range_eq_range', List.drop_range', List.mem_range'_1] at hj
      exact Nat.exists_eq_succ_of_ne_zero (by omega)
    refine toMontgomery_of_zeros fun x hx => hsource x ?_
    have hx := List.mem_of_mem_take hx
    rw [row, List.drop_take, List.drop_drop] at hx
    have hx := List.mem_of_mem_take hx
    have hle : 1 ≤ i * (new height width source).source_width + (j + 1) * 3 := by omega
    exact (List.drop_sublist_drop_left _ hle).subset hx
  obtain ⟨n, hn⟩ := Nat.exists_eq_succ_of_ne_zero hsize.ne'
  refine not_binding_of_blank (List.replicate (height * width) 0) (1 :: List.replicate n 0)
    List.length_replicate ?_ (fun x hx => ?_) (fun x hx => ?_) (fun heq => ?_) (fun i _ => hblank _ (fun x hx => ?_) i)
    fun i _ => hblank _ (fun x hx => ?_) i
  · rw [List.length_cons, List.length_replicate, hn]
  · rw [hzero _ x hx]
    exact (by decide : 0 < goldilocksPrime)
  · rcases List.mem_cons.mp hx with rfl | hx
    · exact (by decide : 1 < goldilocksPrime)
    · rw [hzero _ x hx]
      exact (by decide : 0 < goldilocksPrime)
  · rw [hn, List.replicate_succ] at heq
    exact absurd (List.cons.inj heq).1 (by decide)
  · exact hzero _ x (List.mem_of_mem_drop hx)
  · exact hzero _ x hx

end Blank

/-! ## When the root binds -/

/-- The root is binding if and only if the tree fits in 32 bits, rows do not have four elements, and the
elements of a row can be counted in 32 bits. -/
theorem binding_iff {height width : ℕ} (hpow : ∃ m, height = 2 ^ m) (h16 : 16 ≤ height) :
    Binding height width ↔ height < 2 ^ 32 ∧ width ≠ 4 ∧ (width + 2) / 3 < 2 ^ 32 := by
  constructor
  · intro h
    refine ⟨?_, ?_, ?_⟩
    · by_contra hge
      have hsize : getNumNodes height ≤ height := by
        obtain ⟨m, rfl⟩ := hpow
        rw [getNumNodes_pow ((Nat.pow_le_pow_iff_right (by decide)).mp (Nat.le_of_not_lt hge))]
        exact Nat.le_of_not_lt hge
      have hsource : (List.replicate (height * width) (0 : BitVec 64)).length = height * width :=
        List.length_replicate
      have hcanonical : ∀ x ∈ List.replicate (height * width) (0 : BitVec 64), Canonical x := by
        intro x hx
        rw [List.eq_of_mem_replicate hx]
        exact (by decide : 0 < goldilocksPrime)
      obtain ⟨hinside, -⟩ := h (fun _ => 0) _ _ hsource hsource hcanonical hcanonical
      have houtside := (shaped_new hsource).outside_merkelize (fun _ => 0) (by omega) hsize
      exact Bool.false_ne_true (hinside.symm.trans houtside)
    · rintro rfl
      exact not_binding_four (by omega) h
    · by_contra hwide
      exact not_binding_wide (by omega) (Nat.le_of_not_lt hwide) h
  · rintro ⟨hlt, hfour, hwidth⟩
    exact binding_of_good ⟨hpow, h16, hlt⟩ hfour hwidth

theorem binding_sixteen : Binding 16 12 := (binding_iff ⟨4, rfl⟩ le_rfl).mpr ⟨by decide, by decide, by decide⟩

/-- A row of four zeros and the words of the modulus have the same leaf. -/
theorem not_binding_sixteen : ¬ Binding 16 4 := not_binding_four (by decide)

end MerkleTreeBN128

end ZkevmProver
