import ZkevmProver.HashDB.SmtMap
import ZkevmProver.Prover.Witness

/-!
# What an accepted witness puts into the database

Every entry is a node of the tree under its hash, and the tree under the state root has the leaves of the
witness.

1. What a part of the witness adds
2. Opcodes
3. Nodes
4. Reading the leaves
-/

namespace ZkevmProver

open Effects Fallible PrefixTrie

/-! ## What a part of the witness adds -/

/-- From `hash`, at level `ℓ`, the bits of the key lead to its leaf. -/
inductive LeadsTo (smt : Smt) (R : Set (Fea × Node)) (key : Fea) (value : ℕ) : ℕ → Fea → Prop
  | leaf {ℓ : ℕ} : smt.row (valueNode value) ∈ R → smt.row (smt.leafNode ℓ key value) ∈ R →
      LeadsTo smt R key value ℓ (smt.poseidon (smt.leafNode ℓ key value))
  | branch {ℓ : ℕ} {l r : Fea} : smt.row ⟨l, r, capacityZero⟩ ∈ R → ℓ < 256 →
      LeadsTo smt R key value (ℓ + 1) (if keyBit key ℓ then r else l) →
      LeadsTo smt R key value ℓ (smt.poseidon ⟨l, r, capacityZero⟩)

theorem LeadsTo.mono {smt : Smt} {R R' : Set (Fea × Node)} {key : Fea} {value ℓ : ℕ} {hash : Fea}
    (hR : R ⊆ R') (h : LeadsTo smt R key value ℓ hash) : LeadsTo smt R' key value ℓ hash := by
  induction h with
  | leaf hvalue hleaf => exact .leaf (hR hvalue) (hR hleaf)
  | branch hnode hℓ _ ih => exact .branch (hR hnode) hℓ ih

/-- An intermediate node or a value, or a leaf. -/
def Smt.IsTreeNode (smt : Smt) (node : Node) : Prop :=
  (∃ l r, node = ⟨l, r, capacityZero⟩) ∨ ∃ ℓ key value, node = smt.leafNode ℓ key value

/-- What a part of a witness adds to the context: rows of the tree, programs under their hash, and leaves
of which `P` holds. -/
structure Adds (H : WitnessHash) (P : WitnessLeaf → Prop) (ctx ctx' : WitnessContext) : Prop where
  db_subset : ctx.db ⊆ ctx'.db
  db : ∀ e ∈ ctx'.db, e ∈ ctx.db ∨ e = H.row e.2 ∧ H.IsTreeNode e.2
  programs : ∀ e ∈ ctx'.programs, e ∈ ctx.programs ∨ e.1 = H.linearHash e.2
  leaves : ∀ leaf ∈ ctx'.leaves, leaf ∈ ctx.leaves ∨ P leaf

section Adds

variable {H : WitnessHash} {P Q : WitnessLeaf → Prop} {ctx ctx' ctx'' : WitnessContext}

theorem Adds.trans (h : Adds H P ctx ctx') (h' : Adds H P ctx' ctx'') : Adds H P ctx ctx'' where
  db_subset _ he := h'.db_subset (h.db_subset he)
  db e he := (h'.db e he).elim (h.db e) Or.inr
  programs e he := (h'.programs e he).elim (h.programs e) Or.inr
  leaves leaf hleaf := (h'.leaves leaf hleaf).elim (h.leaves leaf) Or.inr

theorem Adds.imp (hPQ : ∀ leaf, P leaf → Q leaf) (h : Adds H P ctx ctx') : Adds H Q ctx ctx' :=
  ⟨h.db_subset, h.db, h.programs, fun leaf hleaf => (h.leaves leaf hleaf).imp id (hPQ leaf)⟩

/-- Nothing but the position changes. -/
theorem Adds.of_position (ctx : WitnessContext) (p : ℕ) : Adds H P ctx { ctx with p } :=
  ⟨fun _ => id, fun _ => Or.inl, fun _ => Or.inl, fun _ => Or.inl⟩

theorem Adds.save {node : Node} (hnode : H.IsTreeNode node) : Adds H P ctx (H.save node ctx).2 where
  db_subset := List.subset_cons_self _ _
  db _ he := (List.mem_cons.mp he).elim (fun h => Or.inr (h ▸ ⟨rfl, hnode⟩)) Or.inl
  programs _ := Or.inl
  leaves _ := Or.inl

end Adds

/-- The rows of the database. -/
def WitnessContext.rows (ctx : WitnessContext) : Set (Fea × Node) := {e | e ∈ ctx.db}

/-- A leaf of the subtree at the end of a path. -/
def Below (H : WitnessHash) (ctx : WitnessContext) (bits : List Bool) (hash : Fea) (leaf : WitnessLeaf) :
    Prop :=
  (splitKey (H.key leaf)).take bits.length = bits ∧ leaf.value < 2 ^ 256 ∧
    LeadsTo H.toSmt ctx.rows (H.key leaf) leaf.value bits.length hash

/-! ## Opcodes -/

section Opcodes

variable {H : WitnessHash} {depth : ℕ} {witness : List UInt8} {bits : List Bool}
  {ctx ctx' : WitnessContext} {hash : Fea}

theorem adds_cborCall {α : Type} {cbor : ℕ → List UInt8 → ℕ → Option (CborOutcome α)} {value : α}
    (P : WitnessLeaf → Prop) (h : cborCall depth witness cbor ctx = pure (value, ctx')) :
    Adds H P ctx ctx' := by
  unfold cborCall at h
  split at h
  · obtain ⟨-, rfl⟩ := Prod.mk.inj (pure_injective h)
    exact Adds.of_position ctx _
  · exact absurd h (throw_ne_pure _)
  · exact absurd h (throw_ne_pure _)
  · cases h

theorem adds_nextByte {b : UInt8} (P : WitnessLeaf → Prop) (h : nextByte witness ctx = pure (b, ctx')) :
    Adds H P ctx ctx' := by
  unfold nextByte at h
  split_ifs at h
  · exact absurd h (throw_ne_pure _)
  · obtain ⟨-, rfl⟩ := Prod.mk.inj (pure_injective h)
    exact Adds.of_position ctx _

theorem cborCall_eq_pure {α : Type} {cbor : ℕ → List UInt8 → ℕ → Option (CborOutcome α)} {value : α}
    (h : cborCall depth witness cbor ctx = pure (value, ctx')) :
    cbor depth witness ctx.p = some (.success value ctx'.p) := by
  unfold cborCall at h
  split at h
  · obtain ⟨rfl, rfl⟩ := Prod.mk.inj (pure_injective h)
    assumption
  · exact absurd h (throw_ne_pure _)
  · exact absurd h (throw_ne_pure _)
  · cases h

theorem adds_witnessHash (P : WitnessLeaf → Prop) (h : witnessHash witness ctx = pure (hash, ctx')) :
    Adds H P ctx ctx' := by
  unfold witnessHash at h
  split_ifs at h
  · exact absurd h (throw_ne_pure _)
  split at h
  · obtain ⟨-, rfl⟩ := Prod.mk.inj (pure_injective h)
    exact Adds.of_position ctx _
  · exact absurd h (throw_ne_pure _)

theorem adds_witnessCode (P : WitnessLeaf → Prop) (h : witnessCode H depth witness ctx = pure ctx') :
    Adds H P ctx ctx' := by
  obtain ⟨⟨program, next⟩, hcbor, h⟩ := bind_eq_pure h
  dsimp only at h
  split_ifs at h
  · exact absurd h (throw_ne_pure _)
  · obtain rfl := pure_injective h
    refine (adds_cborCall P hcbor).trans ⟨fun _ => id, fun _ => Or.inl, ?_, fun _ => Or.inl⟩
    intro e he
    obtain rfl | he := List.mem_cons.mp he
    · exact Or.inr rfl
    · exact Or.inl he

/-- A leaf is added where it is. -/
theorem adds_witnessLeafNode {leaf : WitnessLeaf} (hvalue : leaf.value < 2 ^ 256)
    (h : witnessLeafNode H bits leaf ctx = pure (hash, ctx')) :
    Adds H (Below H ctx' bits hash) ctx ctx' := by
  unfold witnessLeafNode at h
  dsimp only at h
  split_ifs at h with hbits
  · exact absurd h (throw_ne_pure _)
  obtain ⟨rfl, rfl⟩ := Prod.mk.inj (pure_injective h)
  refine ⟨fun e he => List.mem_cons_of_mem _ (List.mem_cons_of_mem _ he), ?_, fun _ => Or.inl, ?_⟩
  · intro e he
    obtain rfl | he := List.mem_cons.mp he
    · exact Or.inr ⟨rfl, Or.inr ⟨bits.length, H.key leaf, leaf.value, rfl⟩⟩
    · obtain rfl | he := List.mem_cons.mp he
      · exact Or.inr ⟨rfl, Or.inl ⟨_, _, rfl⟩⟩
      · exact Or.inl he
  · intro leaf' hleaf
    obtain rfl | hleaf := List.mem_cons.mp hleaf
    · refine Or.inr ⟨not_not.mp hbits, hvalue, .leaf ?_ ?_⟩
      · exact List.mem_cons_of_mem _ List.mem_cons_self
      · exact List.mem_cons_self
    · exact Or.inl hleaf

theorem adds_witnessLeaf (h : witnessLeaf H depth witness bits ctx = pure (hash, ctx')) :
    Adds H (Below H ctx' bits hash) ctx ctx' := by
  obtain ⟨⟨nodeType, ctx1⟩, htype, h⟩ := bind_eq_pure h
  obtain ⟨⟨address, ctx2⟩, haddress, h⟩ := bind_eq_pure h
  obtain ⟨⟨storageKey, ctx3⟩, hstorageKey, h⟩ := bind_eq_pure h
  obtain ⟨⟨value, ctx4⟩, hvalue, h⟩ := bind_eq_pure h
  have hstorage : Adds H (Below H ctx' bits hash) ctx2 ctx3 := by
    unfold witnessStorageKey at hstorageKey
    split_ifs at hstorageKey
    · exact adds_cborCall _ hstorageKey
    · obtain ⟨-, rfl⟩ := Prod.mk.inj (pure_injective hstorageKey)
      exact Adds.of_position ctx2 ctx2.p
  dsimp only at h
  split_ifs at h
  · exact absurd h (throw_ne_pure _)
  · exact absurd h (throw_ne_pure _)
  · have hlt := cbor2scalar_lt (cborCall_eq_pure hvalue)
    exact (adds_nextByte _ htype).trans <| (adds_cborCall _ haddress).trans <|
      hstorage.trans <| (adds_cborCall _ hvalue).trans <| adds_witnessLeafNode hlt h

/-! ## Nodes -/

/-- The bits of a path and the one below it. -/
theorem take_splitKey_concat {key : Fea} {b : Bool} (hlevel : bits.length < 256)
    (h : (splitKey key).take (bits ++ [b]).length = bits ++ [b]) :
    (splitKey key).take bits.length = bits ∧ keyBit key bits.length = b := by
  rw [List.length_append, List.length_singleton, List.take_add_one] at h
  have hlen : bits.length < (splitKey key).length := by rwa [length_splitKey]
  rw [List.getElem?_eq_getElem hlen, getElem_splitKey, Option.toList_some] at h
  obtain ⟨hbits, hbit⟩ := List.append_inj h (by rw [List.length_take]; omega)
  exact ⟨hbits, (List.cons.inj hbit).1⟩

/-- A leaf below a child is below its parent. -/
theorem Below.branch {b : Bool} {l r : Fea} {leaf : WitnessLeaf} (hlevel : bits.length < 256)
    (hsubset : ctx.db ⊆ ctx'.db) (hrow : H.row ⟨l, r, capacityZero⟩ ∈ ctx'.rows)
    (h : Below H ctx (bits ++ [b]) (if b then r else l) leaf) :
    Below H ctx' bits (H.poseidon ⟨l, r, capacityZero⟩) leaf := by
  obtain ⟨hbits, hvalue, hleads⟩ := h
  obtain ⟨htake, hbit⟩ := take_splitKey_concat hlevel hbits
  refine ⟨htake, hvalue, .branch hrow hlevel ?_⟩
  rw [hbit]
  rw [List.length_append, List.length_singleton] at hleads
  exact hleads.mono fun e he => hsubset he

section Child

variable {child : List Bool → WitnessContext → Witnessing (Fea × WitnessContext)}
  (hchild : ∀ bits ctx hash ctx', child bits ctx = pure (hash, ctx') →
    Adds H (Below H ctx' bits hash) ctx ctx')
include hchild

theorem adds_witnessChild {hasChild : Bool} (h : witnessChild child hasChild bits ctx = pure (hash, ctx')) :
    Adds H (Below H ctx' bits hash) ctx ctx' := by
  unfold witnessChild at h
  split_ifs at h
  · exact hchild _ _ _ _ h
  · obtain ⟨-, rfl⟩ := Prod.mk.inj (pure_injective h)
    exact Adds.of_position ctx ctx.p

theorem adds_witnessBranch (hlevel : bits.length < 256)
    (h : witnessBranch H depth witness child bits ctx = pure (hash, ctx')) :
    Adds H (Below H ctx' bits hash) ctx ctx' := by
  obtain ⟨⟨mask, ctx1⟩, hmask, h⟩ := bind_eq_pure h
  dsimp only at h
  split_ifs at h
  · exact absurd h (throw_ne_pure _)
  obtain ⟨⟨leftHash, ctx2⟩, hleft, h⟩ := bind_eq_pure h
  obtain ⟨⟨rightHash, ctx3⟩, hright, h⟩ := bind_eq_pure h
  obtain ⟨rfl, rfl⟩ := Prod.mk.inj (pure_injective h)
  have hnode : H.IsTreeNode ⟨leftHash, rightHash, capacityZero⟩ := Or.inl ⟨_, _, rfl⟩
  have hrow : H.row ⟨leftHash, rightHash, capacityZero⟩ ∈
      (H.save ⟨leftHash, rightHash, capacityZero⟩ ctx3).2.rows := List.mem_cons_self
  have hadds2 := adds_witnessChild hchild hleft
  have hadds3 := adds_witnessChild hchild hright
  have hsubset3 : ctx3.db ⊆ (H.save ⟨leftHash, rightHash, capacityZero⟩ ctx3).2.db :=
    List.subset_cons_self _ _
  have hleftBelow : Adds H (Below H (H.save ⟨leftHash, rightHash, capacityZero⟩ ctx3).2 bits
      (H.poseidon ⟨leftHash, rightHash, capacityZero⟩)) ctx1 ctx2 :=
    hadds2.imp fun leaf hleaf => Below.branch (b := false) hlevel
      (fun e he => hsubset3 (hadds3.db_subset he)) hrow hleaf
  have hrightBelow : Adds H (Below H (H.save ⟨leftHash, rightHash, capacityZero⟩ ctx3).2 bits
      (H.poseidon ⟨leftHash, rightHash, capacityZero⟩)) ctx2 ctx3 :=
    hadds3.imp fun leaf hleaf => Below.branch (b := true) hlevel hsubset3 hrow hleaf
  exact (adds_cborCall _ hmask).trans <| hleftBelow.trans <| hrightBelow.trans <| .save hnode

/-- An opcode: a node, or a program. -/
theorem adds_witnessOpcode {afterCode : Bool} {found : Option Fea} (hlevel : bits.length < 256)
    (h : witnessOpcode H depth witness child bits afterCode ctx = pure (found, ctx')) :
    Adds H (fun leaf => ∃ hash, found = some hash ∧ Below H ctx' bits hash leaf) ctx ctx' := by
  obtain ⟨⟨opcode, ctx1⟩, hopcode, h⟩ := bind_eq_pure h
  refine (adds_nextByte _ hopcode).trans ?_
  dsimp only at h
  split_ifs at h
  · obtain ⟨⟨hash, ctx2⟩, hbranch, h⟩ := bind_eq_pure h
    obtain ⟨rfl, rfl⟩ := Prod.mk.inj (pure_injective h)
    exact (adds_witnessBranch hchild hlevel hbranch).imp fun leaf hleaf => ⟨hash, rfl, hleaf⟩
  · obtain ⟨⟨hash, ctx2⟩, hleaf, h⟩ := bind_eq_pure h
    obtain ⟨rfl, rfl⟩ := Prod.mk.inj (pure_injective h)
    exact (adds_witnessLeaf hleaf).imp fun leaf hleaf => ⟨hash, rfl, hleaf⟩
  · obtain ⟨⟨hash, ctx2⟩, hhash, h⟩ := bind_eq_pure h
    obtain ⟨rfl, rfl⟩ := Prod.mk.inj (pure_injective h)
    exact adds_witnessHash _ hhash
  · exact absurd h (throw_ne_pure _)
  · obtain ⟨ctx2, hcode, h⟩ := bind_eq_pure h
    obtain ⟨-, rfl⟩ := Prod.mk.inj (pure_injective h)
    exact adds_witnessCode _ hcode
  · exact absurd h (throw_ne_pure _)

end Child

/-- A node of the witness adds its rows, its programs, and leaves below it. -/
theorem adds_calculateWitnessHash {levels : ℕ} (bits : List Bool) (ctx : WitnessContext) (hash : Fea)
    (ctx' : WitnessContext)
    (h : calculateWitnessHash H depth witness levels bits ctx = pure (hash, ctx')) :
    Adds H (Below H ctx' bits hash) ctx ctx' := by
  induction levels generalizing bits ctx hash ctx' with
  | zero => cases h
  | succ levels ih =>
    unfold calculateWitnessHash at h
    split_ifs at h with hlevel
    · exact absurd h (throw_ne_pure _)
    have hlevel : bits.length < 256 := Nat.lt_succ_of_le (Nat.not_lt.mp hlevel)
    obtain ⟨⟨found, ctx1⟩, hfirst, h⟩ := bind_eq_pure h
    have hadds1 := adds_witnessOpcode ih hlevel hfirst
    cases found with
    | some hash1 =>
      obtain ⟨rfl, rfl⟩ := Prod.mk.inj (pure_injective h)
      refine hadds1.imp ?_
      rintro leaf ⟨hash2, hsome, hbelow⟩
      obtain rfl := Option.some.inj hsome
      exact hbelow
    | none =>
      obtain ⟨⟨found, ctx2⟩, hsecond, h⟩ := bind_eq_pure h
      have hadds2 := adds_witnessOpcode ih hlevel hsecond
      cases found with
      | none => exact absurd h (throw_ne_pure _)
      | some hash1 =>
        obtain ⟨rfl, rfl⟩ := Prod.mk.inj (pure_injective h)
        refine (hadds1.imp ?_).trans (hadds2.imp ?_)
        · rintro leaf ⟨hash2, hsome, -⟩
          cases hsome
        · rintro leaf ⟨hash2, hsome, hbelow⟩
          obtain rfl := Option.some.inj hsome
          exact hbelow

end Opcodes

/-! ## Reading the leaves -/

/-- The walk for a key that the bits lead to a leaf of ends in that leaf. -/
theorem LeadsTo.reads_descend {σ : Type} {h : SmtHandler σ} {ctx : SmtContext} {S : NodeStore h ctx}
    {smt : Smt} {R : Set (Fea × Node)} (hR : CollisionFree R) {key : Fea} {value ℓ : ℕ} {hash : Fea}
    (hleads : LeadsTo smt R key value ℓ hash) (hvalue : value < 2 ^ 256) (path : Smt.Path)
    (hℓ : ℓ ≤ 256) (hpath : Smt.accKey path = (splitKey key).take ℓ) :
    ∃ d found, S.Reads R (smt.descend ((splitKey key).drop ℓ) hash path) ⟨d, some found⟩ ∧
      found.foundKey = key ∧ found.foundValue = value := by
  induction hleads generalizing path with
  | @leaf ℓ hrowValue hrow =>
    have hne : smt.poseidon (smt.leafNode ℓ key value) ≠ 0 := fun hzero =>
      hR.ne_zero (by rw [Smt.row, hzero] at hrow; exact hrow)
    unfold Smt.descend
    rw [if_neg hne]
    refine ⟨path, ⟨joinKey smt.shift (Smt.accKey path) (smt.leafNode ℓ key value).left,
      (smt.leafNode ℓ key value).left, (smt.leafNode ℓ key value).right, value⟩,
      (NodeStore.reads_readNode hR hrow).bind ?_, ?_, rfl⟩
    · rw [if_pos (Smt.isLeaf_leafNode _ _ _ _)]
      exact (NodeStore.reads_readValue smt hR hvalue hrowValue).bind (NodeStore.reads_pure _)
    · rw [hpath]
      exact joinKey_removeKeyBits smt.shift key hℓ
  | @branch ℓ l r hrow hlt hbelow ih =>
    have hne : smt.poseidon ⟨l, r, capacityZero⟩ ≠ 0 := fun hzero =>
      hR.ne_zero (by rw [Smt.row, hzero] at hrow; exact hrow)
    have hacc : Smt.accKey ((keyBit key ℓ, (⟨l, r, capacityZero⟩ : Node)) :: path) =
        (splitKey key).take (ℓ + 1) := by
      rw [Smt.accKey, List.map_cons, List.reverse_cons, ← Smt.accKey, hpath, take_splitKey key hℓ,
        take_splitKey key hlt, List.range_succ, List.map_append]
      rfl
    obtain ⟨d, found, hreads, hkey, hval⟩ := ih _ hlt hacc
    refine ⟨d, found, ?_, hkey, hval⟩
    unfold Smt.descend
    rw [if_neg hne]
    refine (NodeStore.reads_readNode hR hrow).bind ?_
    rw [isLeaf_mk_zero, if_neg Bool.false_ne_true, drop_splitKey key hlt]
    exact hreads

/-- `get` returns the value of a leaf that is led to from the root. -/
theorem LeadsTo.valueAt {smt : Smt} {db : NodeTable} (hR : CollisionFree {e | e ∈ db}) {key : Fea}
    {value : ℕ} {root : Fea} (hleads : LeadsTo smt {e | e ∈ db} key value 0 root)
    (hvalue : value < 2 ^ 256) : smt.valueAt dbHandler db root key = .ok value := by
  obtain ⟨d, found, hreads, rfl, rfl⟩ := hleads.reads_descend (S := dbStore ⟨false, .database⟩) hR
    hvalue [] (Nat.zero_le _) rfl
  have hrun : Runs dbHandler (smt.get root found.foundKey) db _ db :=
    (hreads db rfl).bind (Runs.pure _)
  rw [Smt.valueAt, show run dbHandler _ db = _ from hrun]
  simp [Except.map]

section Database

variable {H : WitnessHash} {depth : ℕ} {witness : List UInt8} {stateRoot : ℕ} {ctx : WitnessContext}

/-- An accepted witness adds, from nothing, what is below its root. -/
theorem adds_witness2db (h : witness2db H depth witness = pure (stateRoot, ctx)) :
    ∃ root, scalar2hash stateRoot = some root ∧
      Adds H (Below H ctx [] root) { p := 1, db := [], programs := [], leaves := [] } ctx := by
  unfold witness2db at h
  split_ifs at h
  · exact absurd h (throw_ne_pure _)
  · exact absurd h (throw_ne_pure _)
  · obtain ⟨⟨hash, ctx'⟩, hnode, h⟩ := bind_eq_pure h
    obtain ⟨rfl, rfl⟩ := Prod.mk.inj (pure_injective h)
    exact ⟨hash, scalar2hash_hash2scalar hash, adds_calculateWitnessHash [] _ _ _ hnode⟩

/-- The database of an accepted witness: every entry is a node under its Poseidon hash, every program is
under its linear hash, and every leaf is read under the state root. -/
theorem witness2db_sound (h : witness2db H depth witness = pure (stateRoot, ctx)) :
    (∀ e ∈ ctx.db, H.poseidon e.2 = e.1 ∧ H.IsTreeNode e.2) ∧
    (∀ e ∈ ctx.programs, H.linearHash e.2 = e.1) ∧
    ∃ root, scalar2hash stateRoot = some root ∧
      (CollisionFree ctx.rows →
        ∀ leaf ∈ ctx.leaves, H.valueAt dbHandler ctx.db root (H.key leaf) = .ok leaf.value) := by
  obtain ⟨root, hroot, hadds⟩ := adds_witness2db h
  refine ⟨fun e he => ?_, fun e he => ?_, root, hroot, fun hR leaf hleaf => ?_⟩
  · obtain hnone | ⟨hrow, hnode⟩ := hadds.db e he
    · exact absurd hnone List.not_mem_nil
    · exact ⟨congrArg Prod.fst hrow.symm, hnode⟩
  · obtain hnone | hprogram := hadds.programs e he
    · exact absurd hnone List.not_mem_nil
    · exact hprogram.symm
  · obtain hnone | ⟨-, hvalue, hleads⟩ := hadds.leaves leaf hleaf
    · exact absurd hnone List.not_mem_nil
    · exact hleads.valueAt hR hvalue

end Database

/-- The sample hash, and a linear hash that tells programs apart by their first byte. -/
def sampleWitnessHash : WitnessHash where
  toSmt := Smt.sampleSmt
  linearHash program := ⟨fromU64 (program.headD 0).toNat, 0, 0, 0⟩

/-- The balance 3 of the account 5. -/
def sampleLeaf : WitnessLeaf := { nodeType := 0, address := 5, storageKey := 0, value := 3 }

/-- What the witness of that balance alone leaves. -/
def sampleContext : WitnessContext where
  p := 5
  db := [sampleWitnessHash.row (sampleWitnessHash.leafNode 0 (sampleWitnessHash.key sampleLeaf) 3),
    sampleWitnessHash.row (valueNode 3)]
  programs := []
  leaves := [sampleLeaf]

theorem witness2db_sound_sample :
    ∃ stateRoot, witness2db sampleWitnessHash 1 [0x01, 0x07, 0x00, 0x05, 0x03] =
        pure (stateRoot, sampleContext) ∧
      ∃ root, scalar2hash stateRoot = some root ∧ sampleWitnessHash.valueAt dbHandler
        sampleContext.db root (sampleWitnessHash.key sampleLeaf) = .ok 3 := by
  have hrun : witness2db sampleWitnessHash 1 [0x01, 0x07, 0x00, 0x05, 0x03] =
      pure (_, sampleContext) := rfl
  obtain ⟨-, -, root, hroot, hleaves⟩ := witness2db_sound hrun
  have hR : CollisionFree sampleContext.rows := NodeTable.collisionFree (by decide)
  exact ⟨_, hrun, root, hroot, hleaves hR sampleLeaf List.mem_cons_self⟩

end ZkevmProver
