import ZkevmProver.Prover.WitnessSerial
import ZkevmProver.Prover.WitnessSound

/-!
# Which witnesses of a state are accepted

The witness of a state is accepted, with the root that the calls of `set` give, exactly when its numbers are
read as they are meant and its nodes are not too deep.

1. The tree of a map
2. Keys below a path
3. Nodes that are hashed
4. The root
-/

namespace ZkevmProver

open BigEndian Cbor Effects Fallible Parsing PrefixTrie PrefixTrie.Trie

/-! ## The tree of a map -/

/-- The canonical tree of a map, in which zero stands for no value. -/
def IsTreeOf (m : Fea → ℕ) (t : Tree) : Prop :=
  WF keyBit 0 t ∧ ∀ k, Trie.get keyBit 0 t k = if m k = 0 then none else some (m k)

/-- The key and the value that are written for a leaf. -/
def WitnessHash.write (H : WitnessHash) (leaf : WitnessLeaf) : Fea × ℕ := (H.key leaf, leaf.value)

theorem IsTreeOf.digest_eq {smt : Smt} {R : Set (Fea × Node)} {m : Fea → ℕ} {t : Tree} {root : Fea}
    (ht : IsTreeOf m t) (h : smt.Represents R root m) : smt.digest 0 t = root := by
  obtain ⟨t', hwf', hold', rfl, hm'⟩ := h
  have hsame : t = t' := ht.1.ext hwf' fun k => by
    rw [ht.2, Smt.Holds.get_eq hold', hm']
  rw [hsame]

/-! ## Keys below a path -/

theorem take_splitKey_of_bit {key : Fea} {bits : List Bool} {b : Bool} (hlevel : bits.length < 256)
    (hbits : (splitKey key).take bits.length = bits) (hbit : keyBit key bits.length = b) :
    (splitKey key).take (bits ++ [b]).length = bits ++ [b] := by
  have hlen : bits.length < (splitKey key).length := by rwa [length_splitKey]
  rw [List.length_append, List.length_singleton, List.take_add_one, List.getElem?_eq_getElem hlen,
    getElem_splitKey, Option.toList_some, hbits, hbit]

namespace LeafCode

/-- The leaf that is read is the one that is meant exactly when each of its numbers is. -/
theorem leaf_read_eq {c : LeafCode} : c.leaf NumberCode.read = c.leaf NumberCode.meant ↔ c.Readable := by
  unfold leaf Readable
  rw [← NumberCode.read_eq_meant, ← NumberCode.read_eq_meant, ← NumberCode.read_eq_meant,
    WitnessLeaf.mk.injEq]
  by_cases htype : c.nodeType = 3
  · simp [htype]
  · simp [htype]

end LeafCode

namespace WitnessNode

variable {H : WitnessHash} {bits : List Bool}

/-- The keys of a subtree begin with the bits of its path. -/
def Below (H : WitnessHash) (bits : List Bool) (w : WitnessNode) : Prop :=
  ∀ k ∈ (w.tree H NumberCode.meant).keys, (splitKey k).take bits.length = bits

theorem Below.child {program : Option ProgramCode} {left right : WitnessNode} (hlevel : bits.length < 256)
    (hwf : WF keyBit bits.length ((branch program left right).tree H NumberCode.meant))
    (h : (branch program left right).Below H bits) :
    left.Below H (bits ++ [false]) ∧ right.Below H (bits ++ [true]) := by
  obtain ⟨⟨hleft, hright⟩, -⟩ := hwf
  refine ⟨fun k hk => ?_, fun k hk => ?_⟩
  · exact take_splitKey_of_bit hlevel (h k (List.mem_append_left _ hk)) (hleft k hk)
  · exact take_splitKey_of_bit hlevel (h k (List.mem_append_right _ hk)) (hright k hk)

theorem tree_absent {w : WitnessNode} {number : NumberCode → ℕ} (h : w.present = false) :
    w.tree H number = .empty := by
  cases w with
  | absent => rfl
  | _ => cases h

theorem fits_of_readable {w : WitnessNode} (hvalid : w.Valid) (hshallow : w.Shallow bits.length)
    (hreadable : w.Readable) (hwf : WF keyBit bits.length (w.tree H NumberCode.meant))
    (hbelow : w.Below H bits) : w.Fits H bits := by
  induction w generalizing bits with
  | absent => trivial
  | hash program t => trivial
  | leaf program code =>
    refine ⟨?_, ?_⟩
    · rw [NumberCode.read_eq_meant.mpr hreadable.1]
      exact hvalid.2.address_lt
    · rw [LeafCode.leaf_read_eq.mpr hreadable]
      exact hbelow _ List.mem_cons_self
  | branch program left right ihl ihr =>
    obtain ⟨⟨hlevel, -⟩, hshallowl, hshallowr⟩ := hshallow
    obtain ⟨hbelowl, hbelowr⟩ := hbelow.child (Nat.lt_succ_of_le hlevel) hwf
    obtain ⟨-, hsize, hwfl, hwfr⟩ := hwf
    have hlen (b : Bool) : (bits ++ [b]).length = bits.length + 1 := by
      rw [List.length_append, List.length_singleton]
    refine ⟨fun hmask => ?_, ihl hvalid.2.1 ?_ hreadable.1 ?_ hbelowl, ihr hvalid.2.2 ?_ hreadable.2 ?_ hbelowr⟩
    · have hnone : left.present = false ∧ right.present = false := by
        unfold mask at hmask
        cases hleft : left.present <;> cases hright : right.present <;> simp [hleft, hright] at hmask ⊢
      rw [tree_absent hnone.1, tree_absent hnone.2] at hsize
      exact absurd hsize (by decide)
    all_goals rwa [hlen]

theorem Readable.tree_eq {w : WitnessNode} (h : w.Readable) :
    w.tree H NumberCode.read = w.tree H NumberCode.meant := by
  induction w with
  | absent => rfl
  | hash program t => rfl
  | leaf program code =>
    rw [tree, tree, LeafCode.leaf_read_eq.mpr h, NumberCode.read_eq_meant.mpr h.2.2]
  | branch program left right ihl ihr => rw [tree, tree, ihl h.1, ihr h.2]

/-! ## Nodes that are hashed -/

end WitnessNode

/-- The nodes of a leaf, its key and its value. -/
def LeafCode.hashed (H : WitnessHash) (number : NumberCode → ℕ) (ℓ : ℕ) (c : LeafCode) : List Node :=
  let leaf := c.leaf number
  [valueNode leaf.storageKey,
    keyNode leaf.address leaf.nodeType (H.poseidon (valueNode leaf.storageKey)),
    valueNode leaf.value, H.leafNode ℓ (H.key leaf) leaf.value]

namespace WitnessNode

/-- The nodes of a tree that are hashed, other than below a hash. -/
def hashed (H : WitnessHash) (number : NumberCode → ℕ) : ℕ → WitnessNode → List Node
  | _, absent => []
  | _, hash _ _ => []
  | ℓ, leaf _ code => code.hashed H number ℓ
  | ℓ, branch _ left right =>
    ⟨H.digest (ℓ + 1) (left.tree H number), H.digest (ℓ + 1) (right.tree H number), capacityZero⟩ ::
      (left.hashed H number (ℓ + 1) ++ right.hashed H number (ℓ + 1))

end WitnessNode

section Collisions

variable {H : WitnessHash} {bits : List Bool} {N : Set Node}

theorem valueNode_injective {x y : ℕ} (hx : x < 2 ^ 256) (hy : y < 2 ^ 256) (h : valueNode x = valueNode y) :
    x = y := by
  obtain ⟨hleft, hright, -⟩ := Node.mk.inj h
  exact scalar2fea_injective hx hy (Prod.ext hleft hright)

/-- Addresses of 160 bits leave element 6 of the key free. -/
theorem keyNode_injective {x y nodeType : ℕ} {hash hash' : Fea} (hx : x < 2 ^ 160) (hy : y < 2 ^ 160)
    (h : keyNode x nodeType hash = keyNode y nodeType hash') : x = y ∧ hash = hash' := by
  have hpow : 2 ^ 160 ≤ 2 ^ 256 := by decide
  obtain ⟨hleft, hright, hhash⟩ := Node.mk.inj h
  obtain ⟨-, hx6, -⟩ := (high_limbs_eq_zero (hx.trans_le hpow)).mpr hx
  obtain ⟨-, hy6, -⟩ := (high_limbs_eq_zero (hy.trans_le hpow)).mpr hy
  obtain ⟨h4, h5, -, h7⟩ := Fea.mk.inj hright
  refine ⟨scalar2fea_injective (hx.trans_le hpow) (hy.trans_le hpow) (Prod.ext hleft ?_), hhash⟩
  exact Fea.mk.injEq .. ▸ ⟨h4, h5, hx6.trans hy6.symm, h7⟩

/-- Where the hash has no collisions, leaves of the same hash are the same. -/
theorem readable_of_leaf {code : LeafCode} (hN : Set.InjOn H.poseidon N)
    (hmeant : ∀ n ∈ code.hashed H NumberCode.meant bits.length, n ∈ N)
    (hread : ∀ n ∈ code.hashed H NumberCode.read bits.length, n ∈ N) (hvalid : code.Valid)
    (hlevel : bits.length ≤ 256) (haddress : code.address.read < 2 ^ 160)
    (hbitsMeant : (splitKey (H.key (code.leaf NumberCode.meant))).take bits.length = bits)
    (hbitsRead : (splitKey (H.key (code.leaf NumberCode.read))).take bits.length = bits)
    (heq : H.poseidon (H.leafNode bits.length (H.key (code.leaf NumberCode.read)) code.value.read) =
      H.poseidon (H.leafNode bits.length (H.key (code.leaf NumberCode.meant)) code.value.meant)) :
    code.Readable := by
  simp only [LeafCode.hashed, List.forall_mem_cons] at hmeant hread
  obtain ⟨hmeant0, hmeant1, hmeant2, hmeant3, -⟩ := hmeant
  obtain ⟨hread0, hread1, hread2, hread3, -⟩ := hread
  obtain ⟨hremaining, hvalueHash, -⟩ := Node.mk.inj (hN hread3 hmeant3 heq)
  have hvalue : code.value.read = code.value.meant :=
    valueNode_injective (NumberCode.read_lt hvalid.value) (NumberCode.meant_lt hvalid.value)
      (hN hread2 hmeant2 hvalueHash)
  have hkey : H.key (code.leaf NumberCode.read) = H.key (code.leaf NumberCode.meant) := by
    have hjoin := joinKey_removeKeyBits H.shift (H.key (code.leaf NumberCode.read)) hlevel
    rw [hremaining, hbitsRead, ← hbitsMeant, List.length_take_of_le (by rwa [length_splitKey]),
      joinKey_removeKeyBits _ _ hlevel] at hjoin
    exact hjoin.symm
  obtain ⟨haddress, hstorageHash⟩ :=
    keyNode_injective haddress hvalid.address_lt (hN hread1 hmeant1 hkey)
  have hlt (number : NumberCode → ℕ) (hnumber : ∀ c, NumberCode.Valid c → number c < 2 ^ 256) :
      (code.leaf number).storageKey < 2 ^ 256 := by
    unfold LeafCode.leaf
    dsimp only
    split_ifs with htype
    · exact hnumber _ (hvalid.storageKey htype)
    · exact Nat.pow_pos (by decide)
  have hstorage : (code.leaf NumberCode.read).storageKey = (code.leaf NumberCode.meant).storageKey :=
    valueNode_injective (hlt _ fun _ => NumberCode.read_lt) (hlt _ fun _ => NumberCode.meant_lt)
      (hN hread0 hmeant0 hstorageHash)
  refine LeafCode.leaf_read_eq.mp ?_
  rw [WitnessLeaf.mk.injEq]
  exact ⟨rfl, haddress, hstorage, hvalue⟩

/-- Where the hash has no collisions, what is read with the hash of the tree that is meant is meant. -/
theorem WitnessNode.readable_of_digest {w : WitnessNode} (hN : Set.InjOn H.poseidon N)
    (hmeant : ∀ n ∈ w.hashed H NumberCode.meant bits.length, n ∈ N)
    (hread : ∀ n ∈ w.hashed H NumberCode.read bits.length, n ∈ N) (hvalid : w.Valid)
    (hshallow : w.Shallow bits.length) (hfits : w.Fits H bits)
    (hwf : WF keyBit bits.length (w.tree H NumberCode.meant)) (hbelow : w.Below H bits)
    (heq : H.digest bits.length (w.tree H NumberCode.read) =
      H.digest bits.length (w.tree H NumberCode.meant)) : w.Readable := by
  induction w generalizing bits with
  | absent => trivial
  | hash program t => trivial
  | leaf program code =>
    exact readable_of_leaf hN hmeant hread hvalid.2 (hshallow.1.trans (by decide)) hfits.1
      (hbelow _ List.mem_cons_self) hfits.2 heq
  | branch program left right ihl ihr =>
    obtain ⟨⟨hlevel, -⟩, hshallowl, hshallowr⟩ := hshallow
    obtain ⟨hbelowl, hbelowr⟩ := hbelow.child (Nat.lt_succ_of_le hlevel) hwf
    obtain ⟨-, -, hwfl, hwfr⟩ := hwf
    rw [hashed, List.forall_mem_cons, List.forall_mem_append] at hmeant hread
    obtain ⟨hmeant0, hmeantl, hmeantr⟩ := hmeant
    obtain ⟨hread0, hreadl, hreadr⟩ := hread
    obtain ⟨hleft, hright, -⟩ := Node.mk.inj (hN hread0 hmeant0 heq)
    have hlen (b : Bool) : (bits ++ [b]).length = bits.length + 1 := by
      rw [List.length_append, List.length_singleton]
    rw [← hlen false] at hmeantl hreadl hshallowl hwfl hleft
    rw [← hlen true] at hmeantr hreadr hshallowr hwfr hright
    exact ⟨ihl hmeantl hreadl hvalid.2.1 hshallowl hfits.2.1 hwfl hbelowl hleft,
      ihr hmeantr hreadr hvalid.2.2 hshallowr hfits.2.2 hwfr hbelowr hright⟩

end Collisions

/-! ## The root -/

section Root

variable {H : WitnessHash} {w : WitnessNode}

/-- A witness without a node is refused. -/
theorem stops_empty : Settles (fun depth => witness2db H depth [1]) (throw .invalidWitness) := by
  have hbyte : Stops WitnessContext.p byteParser [1] [] .invalidWitness := by
    intro ctx hp
    unfold byteParser nextByte
    rw [if_pos (by simp [hp])]
    exact .of_eq _
  have hnode : Stops WitnessContext.p (nodeParser H 257 []) [1] [] .invalidWitness := by
    rw [nodeParser_succ, if_neg (by decide), opcodeParser_eq]
    exact hbyte.andThen.andThen
  simp only [witness2db_cons]
  exact (hnode _ rfl).bind_throw

/-- What is written for a tree is accepted exactly when its checks pass, with the hash that is read. -/
theorem witness2db_encode_iff (hvalid : w.Valid) (hsize : (1 :: w.encode H 0).length < 2 ^ 64) (hash : Fea) :
    (∃ ctx, Settles (fun depth => witness2db H depth (1 :: w.encode H 0)) (pure (hash2scalar hash, ctx))) ↔
      w.present = true ∧ w.Shallow 0 ∧ w.Fits H [] ∧ H.digest 0 (w.tree H NumberCode.read) = hash := by
  cases hpresent : w.present with
  | false =>
    rw [(WitnessNode.digest_absent hpresent NumberCode.read 0).2]
    refine iff_of_false ?_ fun h => absurd h.1 Bool.false_ne_true
    rintro ⟨ctx, hctx⟩
    exact throw_ne_pure _ (stops_empty.unique hctx)
  | true =>
    by_cases hgood : w.Shallow 0 ∧ w.Fits H []
    · have hbytes : NodeBytes H 257 [] (w.encode H 0) (H.digest 0 (w.tree H NumberCode.read)) :=
        WitnessNode.nodeBytes rfl hpresent hvalid hgood.1 hgood.2
      have hnil : (1 :: (w.encode H 0 ++ [])).length < 2 ^ 64 := by rwa [List.append_nil]
      obtain ⟨ctx, -, hrun⟩ := witness2db_of_nodeBytes hbytes hnil
      rw [List.append_nil] at hrun
      constructor
      · rintro ⟨ctx', hctx'⟩
        have hsame := hash2scalar_injective (Prod.mk.inj (pure_injective (hrun.unique hctx'))).1
        exact ⟨rfl, hgood.1, hgood.2, hsame⟩
      · rintro ⟨-, -, -, rfl⟩
        exact ⟨ctx, hrun⟩
    · refine iff_of_false ?_ fun h => hgood ⟨h.2.1, h.2.2.1⟩
      rintro ⟨ctx, hctx⟩
      have hnode : Stops WitnessContext.p (nodeParser H 257 []) [1] (w.encode H 0 ++ []) .invalidWitness :=
        @WitnessNode.stops H [] 257 [1] [] w (by decide) rfl hpresent hvalid hgood (by rwa [List.append_nil])
      rw [List.append_nil] at hnode
      have hstops : Settles (fun depth => witness2db H depth (1 :: w.encode H 0)) (throw .invalidWitness) := by
        simp only [witness2db_cons]
        exact (hnode _ rfl).bind_throw
      exact throw_ne_pure _ (hstops.unique hctx)

variable {σ : Type} {h : SmtHandler σ} {smtContext : SmtContext} (S : NodeStore h smtContext) {s : σ}

/-- The witness of a map of accounts is accepted, with the root that `set` gives for the map, exactly when a
node is written, none below level 255 and none after an empty program, and every integer is the five low
bits of its first byte. -/
theorem witness2db_complete (hidle : S.idle s) {leaves : List WitnessLeaf}
    (hvalues : ∀ leaf ∈ leaves, leaf.value < 2 ^ 256)
    (hR : CollisionFree (S.rows (run h (H.setAll smtContext (leaves.map H.write) 0) s).2))
    (hvalid : w.Valid) (hsize : (1 :: w.encode H 0).length < 2 ^ 64)
    (htree : IsTreeOf (Smt.written (fun _ => 0) (leaves.map H.write)) (w.tree H NumberCode.meant))
    (hN : Set.InjOn H.poseidon
      {n | n ∈ w.hashed H NumberCode.meant 0 ∨ n ∈ w.hashed H NumberCode.read 0}) :
    (∃ root ctx, (run h (H.setAll smtContext (leaves.map H.write) 0) s).1 = .ok root ∧
      Settles (fun depth => witness2db H depth (1 :: w.encode H 0)) (pure (hash2scalar root, ctx))) ↔
      w.present = true ∧ w.Shallow 0 ∧ w.Readable := by
  have hwrites : ∀ op ∈ leaves.map H.write, op.2 < 2 ^ 256 := by
    intro op hop
    obtain ⟨leaf, hleaf, rfl⟩ := List.mem_map.mp hop
    exact hvalues leaf hleaf
  obtain ⟨root, s', hrun, hrepresents⟩ := Smt.runs_setAll hidle hwrites hR (Smt.represents_zero _ _)
  have hroot := htree.digest_eq hrepresents
  have hwf : WF keyBit ([] : List Bool).length (w.tree H NumberCode.meant) := htree.1
  have hbelow : w.Below H [] := fun k _ => List.take_zero
  constructor
  · rintro ⟨root', ctx, hroot', hctx⟩
    rw [show run h _ s = _ from hrun] at hroot'
    obtain rfl : root = root' := Except.ok.inj hroot'
    obtain ⟨hpresent, hshallow, hfits, hread⟩ := (witness2db_encode_iff hvalid hsize root).mp ⟨ctx, hctx⟩
    refine ⟨hpresent, hshallow, ?_⟩
    exact @WitnessNode.readable_of_digest H [] _ w hN (fun _ => Or.inl) (fun _ => Or.inr) hvalid hshallow
      hfits hwf hbelow (hread.trans hroot.symm)
  · rintro ⟨hpresent, hshallow, hreadable⟩
    have hfits : w.Fits H [] := WitnessNode.fits_of_readable hvalid hshallow hreadable hwf hbelow
    have hread : w.tree H NumberCode.read = w.tree H NumberCode.meant := hreadable.tree_eq
    obtain ⟨ctx, hctx⟩ := (witness2db_encode_iff hvalid hsize root).mpr
      ⟨hpresent, hshallow, hfits, hread ▸ hroot⟩
    exact ⟨root, ctx, congrArg Prod.fst hrun, hctx⟩

end Root

/-- The balance 4 of the account 6. -/
def otherLeaf : WitnessLeaf := { nodeType := 0, address := 6, storageKey := 0, value := 4 }

/-- The balance of account 6 as a hash, and that of account 5 after a program of one byte. -/
def sampleNode : WitnessNode :=
  .branch none (.hash none (.leaf (sampleWitnessHash.key otherLeaf) 4))
    (.leaf (some ⟨.immediate, [0x60]⟩)
      ⟨0, .ba .one [0x05], .u64 .immediate 0, .u64 .immediate 3⟩)

theorem isTreeOf_sampleNode : IsTreeOf
    (Smt.written (fun _ => 0) ([sampleLeaf, otherLeaf].map sampleWitnessHash.write))
    (sampleNode.tree sampleWitnessHash NumberCode.meant) := by
  have hbit : keyBit (sampleWitnessHash.key otherLeaf) 0 = false := by decide
  have hbit' : keyBit (sampleWitnessHash.key sampleLeaf) 0 = true := by decide
  have hne : sampleWitnessHash.key otherLeaf ≠ sampleWitnessHash.key sampleLeaf := by decide
  have htree : sampleNode.tree sampleWitnessHash NumberCode.meant =
      .node (.leaf (sampleWitnessHash.key otherLeaf) 4) (.leaf (sampleWitnessHash.key sampleLeaf) 3) := rfl
  rw [htree]
  refine ⟨⟨⟨?_, ?_⟩, by decide, trivial, trivial⟩, fun k => ?_⟩
  · simpa using hbit
  · simpa using hbit'
  · have hwritten : Smt.written (fun _ => 0) ([sampleLeaf, otherLeaf].map sampleWitnessHash.write) k =
        if k = sampleWitnessHash.key otherLeaf then 4
        else if k = sampleWitnessHash.key sampleLeaf then 3 else 0 := by
      simp only [Smt.written, List.map_cons, List.map_nil, WitnessHash.write, Function.update_apply]
      rfl
    rw [hwritten, get_node, get_leaf, get_leaf]
    by_cases hother : k = sampleWitnessHash.key otherLeaf
    · rw [hother, hbit]
      simp
    · by_cases hsample : k = sampleWitnessHash.key sampleLeaf
      · rw [hsample, hbit']
        simp [hne.symm]
      · simp [hother, hsample]

theorem witness2db_complete_sample : ∃ root ctx,
    (run dbHandler (sampleWitnessHash.setAll Smt.directContext
      ([sampleLeaf, otherLeaf].map sampleWitnessHash.write) 0) []).1 = .ok root ∧
    Settles (fun depth => witness2db sampleWitnessHash depth (1 :: sampleNode.encode sampleWitnessHash 0))
      (pure (hash2scalar root, ctx)) := by
  have hR : CollisionFree ((dbStore Smt.directContext).rows (run dbHandler
      (sampleWitnessHash.setAll Smt.directContext ([sampleLeaf, otherLeaf].map sampleWitnessHash.write) 0)
      []).2) := NodeTable.collisionFree (by decide)
  have hvalid : sampleNode.Valid := by
    refine ⟨nofun, nofun, ?_, ?_⟩
    · rintro p ⟨⟩
      exact (by decide : 1 < 24)
    · exact ⟨by decide, ⟨(by decide : 1 < 256 ^ 1), by decide⟩, by decide, nofun, (by decide : 3 < 24)⟩
  have hN : ∀ x ∈ sampleNode.hashed sampleWitnessHash NumberCode.meant 0 ++
      sampleNode.hashed sampleWitnessHash NumberCode.read 0,
      ∀ y ∈ sampleNode.hashed sampleWitnessHash NumberCode.meant 0 ++
        sampleNode.hashed sampleWitnessHash NumberCode.read 0,
      sampleWitnessHash.poseidon x = sampleWitnessHash.poseidon y → x = y := by
    decide
  refine (witness2db_complete (dbStore Smt.directContext) trivial (by decide) hR hvalid (by decide)
    isTreeOf_sampleNode fun x hx y hy => ?_).mpr ⟨rfl, ?_, ?_⟩
  · exact hN x (List.mem_append.mpr hx) y (List.mem_append.mpr hy)
  · refine ⟨⟨by decide, nofun⟩, ⟨by decide, nofun⟩, by decide, ?_⟩
    rintro p ⟨⟩
    exact List.cons_ne_nil _ _
  · exact ⟨trivial, trivial, fun _ => rfl, rfl⟩

/-- The balance 25 of the account 5, as an integer in the byte that follows the first one. -/
def misreadNode : WitnessNode := .leaf none ⟨0, .u64 .immediate 5, .u64 .immediate 0, .u64 .one 25⟩

theorem witness2db_incomplete :
    misreadNode.encode sampleWitnessHash 0 = [0x07, 0x00, 0x05, 0x18, 0x19] ∧ misreadNode.Valid ∧
    misreadNode.tree sampleWitnessHash NumberCode.meant =
      .leaf (sampleWitnessHash.key ⟨0, 5, 0, 25⟩) 25 ∧
    ∃ root, (run dbHandler (sampleWitnessHash.setAll Smt.directContext
        [sampleWitnessHash.write ⟨0, 5, 0, 25⟩] 0) []).1 = .ok root ∧
      ¬∃ ctx, Settles (fun depth => witness2db sampleWitnessHash depth [0x01, 0x07, 0x00, 0x05, 0x18, 0x19])
        (pure (hash2scalar root, ctx)) := by
  have hvalid : misreadNode.Valid :=
    ⟨nofun, ⟨by decide, (by decide : 5 < 24), by decide, nofun, (by decide : 25 < 256 ^ 1)⟩⟩
  have hrun : (run dbHandler (sampleWitnessHash.setAll Smt.directContext
      [sampleWitnessHash.write ⟨0, 5, 0, 25⟩] 0) []).1 =
        .ok (sampleWitnessHash.digest 0 (misreadNode.tree sampleWitnessHash NumberCode.meant)) := by
    rfl
  have hdiffers : sampleWitnessHash.digest 0 (misreadNode.tree sampleWitnessHash NumberCode.read) ≠
      sampleWitnessHash.digest 0 (misreadNode.tree sampleWitnessHash NumberCode.meant) := by
    decide
  exact ⟨rfl, hvalid, rfl, _, hrun, fun hctx =>
    hdiffers ((witness2db_encode_iff hvalid (by decide) _).mp hctx).2.2.2⟩

end ZkevmProver
