import ZkevmProver.Lib.Parsing
import ZkevmProver.Prover.CborTotal
import ZkevmProver.Prover.Witness

/-!
# The format of a witness

Which bytes a node of a witness may be, with the hash that they have.  Numbers are taken as they are read,
not as they are meant.

1. Items
2. Nodes
3. The parsers
4. Accepting items
5. Accepting nodes
-/

namespace ZkevmProver

open BigEndian Cbor Fallible Parsing

/-! ## Items -/

/-- An integer or a string of bytes, and the item that it is read as. -/
inductive ReadAs : List UInt8 → Item → Prop
  | u64 {major : ℕ} {form : Form} {n : ℕ} : major = 0 ∨ major = 1 ∨ major = 7 → form.Fits n →
      ReadAs (head major form n) (.u64 (form.info n))
  | ba {form : Form} {content : List UInt8} : form.Fits content.length →
      ReadAs (head 2 form content.length ++ content) (.ba content)

/-- What `cbor2scalar` accepts. -/
inductive NumberBytes : List UInt8 → ℕ → Prop
  | u64 {bytes : List UInt8} {n : ℕ} : ReadAs bytes (.u64 n) → NumberBytes bytes n
  | ba {bytes content : List UInt8} : ReadAs bytes (.ba content) → content.length ≤ 32 →
      NumberBytes bytes (ba2scalar content)

/-- What `witnessStorageKey` accepts. -/
inductive StorageKeyBytes (nodeType : UInt8) : List UInt8 → ℕ → Prop
  | storage {bytes : List UInt8} {storageKey : ℕ} : nodeType = 3 → NumberBytes bytes storageKey →
      StorageKeyBytes nodeType bytes storageKey
  | none : nodeType ≠ 3 → StorageKeyBytes nodeType [] 0

/-! ## Nodes -/

/-- The hash of a leaf below the bits of a path. -/
def WitnessHash.leafHash (H : WitnessHash) (bits : List Bool) (leaf : WitnessLeaf) : Fea :=
  H.poseidon (H.leafNode bits.length (H.key leaf) leaf.value)

section Nodes

variable (H : WitnessHash) (child : List Bool → List UInt8 → Fea → Prop)

/-- A child that is there or not. -/
inductive ChildBytes (bits : List Bool) : Bool → List UInt8 → Fea → Prop
  | present {bytes : List UInt8} {hash : Fea} : child bits bytes hash → ChildBytes bits true bytes hash
  | absent : ChildBytes bits false [] 0

/-- The bytes of an opcode, and the hash where it is not that of a program. -/
inductive OpcodeBytes (bits : List Bool) : List UInt8 → Option Fea → Prop
  | branch {maskBytes left right : List UInt8} {mask : ℕ} {leftHash rightHash : Fea} :
      ReadAs maskBytes (.u64 mask) → mask = 1 ∨ mask = 2 ∨ mask = 3 →
      ChildBytes child (bits ++ [false]) (mask ≠ 2) left leftHash →
      ChildBytes child (bits ++ [true]) (mask ≠ 1) right rightHash →
      OpcodeBytes bits (0x02 :: (maskBytes ++ (left ++ right)))
        (some (H.poseidon ⟨leftHash, rightHash, capacityZero⟩))
  | leaf {nodeType : UInt8} {addressBytes keyBytes valueBytes : List UInt8}
      {address storageKey value : ℕ} : nodeType ≤ 4 → NumberBytes addressBytes address →
      StorageKeyBytes nodeType keyBytes storageKey → NumberBytes valueBytes value →
      address < 2 ^ 160 →
      (splitKey (H.key ⟨nodeType.toNat, address, storageKey, value⟩)).take bits.length = bits →
      OpcodeBytes bits (0x07 :: nodeType :: (addressBytes ++ (keyBytes ++ valueBytes)))
        (some (H.leafHash bits ⟨nodeType.toNat, address, storageKey, value⟩))
  | hash {bytes : List UInt8} {hash : Fea} : bytes.length = 32 →
      scalar2hash (ba2scalar bytes) = some hash → OpcodeBytes bits (0x03 :: bytes) (some hash)
  | code {bytes program : List UInt8} : ReadAs bytes (.ba program) → program ≠ [] →
      OpcodeBytes bits (0x04 :: bytes) none

/-- The bytes of a node: an opcode, after a program or not. -/
def NodeBytes : ℕ → List Bool → List UInt8 → Fea → Prop
  | 0, _, _, _ => False
  | levels + 1, bits, bytes, hash =>
    bits.length ≤ 255 ∧
      (OpcodeBytes H (NodeBytes levels) bits bytes (some hash) ∨
        ∃ code node, bytes = code ++ node ∧ OpcodeBytes H (NodeBytes levels) bits code none ∧
          OpcodeBytes H (NodeBytes levels) bits node (some hash))

end Nodes

/-! ## The parsers -/

abbrev WitnessParser (α : Type) : Type := Parser WitnessStop UInt8 WitnessContext α

section Parsers

variable (H : WitnessHash)

def byteParser : WitnessParser UInt8 := fun _ witness ctx => nextByte witness ctx

def cborParser {α : Type} (cbor : ℕ → List UInt8 → ℕ → Option (CborOutcome α)) : WitnessParser α :=
  fun depth witness ctx => cborCall depth witness cbor ctx

def storageKeyParser (nodeType : UInt8) : WitnessParser ℕ :=
  fun depth witness ctx => witnessStorageKey depth witness nodeType ctx

def leafParser (bits : List Bool) : WitnessParser Fea :=
  fun depth witness ctx => witnessLeaf H depth witness bits ctx

def hashParser : WitnessParser Fea := fun _ witness ctx => witnessHash witness ctx

def codeParser : WitnessParser (Option Fea) :=
  fun depth witness ctx => witnessCode H depth witness ctx >>= fun ctx => pure (none, ctx)

theorem codeParser_eq : codeParser H =
    andThen (cborParser cbor2ba) fun program =>
      if program.isEmpty then fun _ _ _ => throw .invalidWitness
      else fun _ _ ctx =>
        pure (none, { ctx with programs := (H.linearHash program, program) :: ctx.programs }) := by
  funext depth witness ctx
  unfold codeParser witnessCode
  rw [bind_assoc]
  refine bind_congr fun ⟨program, ctx⟩ => ?_
  dsimp only
  split_ifs <;> rfl

variable (child : List Bool → WitnessParser Fea)

def childParser (hasChild : Bool) (bits : List Bool) : WitnessParser Fea :=
  fun depth witness ctx => witnessChild (fun bits => child bits depth witness) hasChild bits ctx

def branchParser (bits : List Bool) : WitnessParser Fea :=
  fun depth witness ctx => witnessBranch H depth witness (fun bits => child bits depth witness) bits ctx

def opcodeParser (bits : List Bool) (afterCode : Bool) : WitnessParser (Option Fea) :=
  fun depth witness ctx =>
    witnessOpcode H depth witness (fun bits => child bits depth witness) bits afterCode ctx

def nodeParser (levels : ℕ) (bits : List Bool) : WitnessParser Fea :=
  fun depth witness ctx => calculateWitnessHash H depth witness levels bits ctx

theorem branchParser_eq (bits : List Bool) : branchParser H child bits =
    andThen (cborParser cbor2u64) fun mask =>
      if mask ≠ 1 ∧ mask ≠ 2 ∧ mask ≠ 3 then fun _ _ _ => throw .invalidWitness
      else
        andThen (childParser child (mask ≠ 2) (bits ++ [false])) fun leftHash =>
          andThen (childParser child (mask ≠ 1) (bits ++ [true])) fun rightHash _ _ ctx =>
            pure (H.save ⟨leftHash, rightHash, capacityZero⟩ ctx) := by
  funext depth witness ctx
  unfold branchParser witnessBranch
  refine bind_congr fun ⟨mask, ctx⟩ => ?_
  dsimp only
  split_ifs <;> rfl

theorem leafParser_eq (bits : List Bool) : leafParser H bits =
    andThen byteParser fun nodeType => andThen (cborParser cbor2scalar) fun address =>
      andThen (storageKeyParser nodeType) fun storageKey => andThen (cborParser cbor2scalar) fun value =>
        let Kin1 := (scalar2fea address).2
        if Kin1.fe1 ≠ 0 ∨ Kin1.fe2 ≠ 0 ∨ Kin1.fe3 ≠ 0 then fun _ _ _ => throw .invalidWitness
        else if nodeType > 4 then fun _ _ _ => throw .invalidWitness
        else fun _ _ => witnessLeafNode H bits ⟨nodeType.toNat, address, storageKey, value⟩ := by
  funext depth witness ctx
  unfold leafParser witnessLeaf
  refine bind_congr fun ⟨nodeType, ctx⟩ => bind_congr fun ⟨address, ctx⟩ =>
    bind_congr fun ⟨storageKey, ctx⟩ => bind_congr fun ⟨value, ctx⟩ => ?_
  dsimp only
  split_ifs <;> rfl

theorem opcodeParser_eq (bits : List Bool) (afterCode : Bool) : opcodeParser H child bits afterCode =
    andThen byteParser fun opcode =>
      if opcode = 0x02 then andThen (branchParser H child bits) fun hash _ _ ctx => pure (some hash, ctx)
      else if opcode = 0x07 then andThen (leafParser H bits) fun hash _ _ ctx => pure (some hash, ctx)
      else if opcode = 0x03 then andThen hashParser fun hash _ _ ctx => pure (some hash, ctx)
      else if opcode = 0x04 then if afterCode then fun _ _ _ => throw .invalidWitness else codeParser H
      else fun _ _ _ => throw .invalidWitness := by
  funext depth witness ctx
  unfold opcodeParser witnessOpcode
  refine bind_congr fun ⟨opcode, ctx⟩ => ?_
  dsimp only
  split_ifs <;> rfl

theorem nodeParser_succ (levels : ℕ) (bits : List Bool) : nodeParser H (levels + 1) bits =
    if bits.length > 255 then fun _ _ _ => throw .invalidWitness
    else
      andThen (opcodeParser H (nodeParser H levels) bits false) fun
        | some hash => fun _ _ ctx => pure (hash, ctx)
        | none =>
          andThen (opcodeParser H (nodeParser H levels) bits true) fun
            | some hash => fun _ _ ctx => pure (hash, ctx)
            | none => fun _ _ _ => throw .invalidWitness := by
  funext depth witness ctx
  change calculateWitnessHash H depth witness (levels + 1) bits ctx = _
  rw [calculateWitnessHash]
  split_ifs
  · rfl
  · refine bind_congr fun ⟨found, ctx⟩ => ?_
    cases found with
    | some hash => rfl
    | none =>
      refine bind_congr fun ⟨found, ctx⟩ => ?_
      cases found <;> rfl

end Parsers

/-- After the version of the header, a witness is a node. -/
theorem witness2db_cons (H : WitnessHash) (depth : ℕ) (bytes : List UInt8) :
    witness2db H depth (1 :: bytes) =
      nodeParser H 257 [] depth (1 :: bytes) { p := 1, db := [], programs := [], leaves := [] } >>=
        fun x => pure (hash2scalar x.1, x.2) := by
  have hversion : ¬charAt (1 :: bytes) 0 ≠ 1 := fun h => h rfl
  rw [witness2db, if_neg (by simp), if_neg hversion]
  rfl

/-! ## Accepting items -/

theorem accepts_byteParser (b : UInt8) : Accepts WitnessContext.p (2 ^ 64) byteParser [b] b := by
  intro before after ctx hp _
  have hroom : ¬ctx.p ≥ (before ++ ([b] ++ after)).length := by
    simp [hp]
  refine ⟨{ ctx with p := ctx.p + 1 }, by simp [hp], ?_⟩
  unfold byteParser nextByte
  rw [if_neg hroom, hp, List.singleton_append, charAt_append]
  exact .of_eq _

/-- An integer or a string of bytes is read. -/
theorem cbor2result_readAs {bytes : List UInt8} {item : Item} (h : ReadAs bytes item)
    (before after : List UInt8) (hsize : (before ++ (bytes ++ after)).length < 2 ^ 64) (depth : ℕ) :
    cbor2result (depth + 1) (before ++ (bytes ++ after)) before.length =
      some (.success item (before ++ bytes).length) := by
  cases h with
  | @u64 major form n hmajor hfits =>
    rw [cbor2result_head_eq (by omega) hfits]
    obtain rfl | rfl | rfl := hmajor <;> rfl
  | @ba form content hfits =>
    rw [List.append_assoc] at hsize ⊢
    rw [cbor2result_head_eq (by decide) hfits, cborPayload,
      cborString_append _ _ _ _ (by rwa [List.append_assoc]), List.length_append, List.length_append,
      List.length_append, Nat.add_assoc]

theorem accepts_cborParser {α : Type} {expect : Item → Option α} {bytes : List UInt8} {item : Item} {a : α}
    (h : ReadAs bytes item) (hexpect : expect item = some a) :
    Accepts WitnessContext.p (2 ^ 64) (cborParser (cborExpect expect)) bytes a := by
  intro before after ctx hp hsize
  refine ⟨{ ctx with p := (before ++ bytes).length }, rfl, 1, fun depth hdepth => ?_⟩
  obtain ⟨depth, rfl⟩ := Nat.exists_eq_add_of_le' hdepth
  have hcbor : cborExpect expect (depth + 1) (before ++ (bytes ++ after)) ctx.p =
      some (.success a (before ++ bytes).length) := by
    rw [cborExpect, hp, cbor2result_readAs h before after hsize depth]
    dsimp only
    rw [hexpect]
  dsimp only [cborParser]
  rw [cborCall, hcbor]

theorem accepts_number {bytes : List UInt8} {n : ℕ} (h : NumberBytes bytes n) :
    Accepts WitnessContext.p (2 ^ 64) (cborParser cbor2scalar) bytes n := by
  cases h with
  | u64 hbytes => exact accepts_cborParser hbytes rfl
  | ba hbytes hlen => exact accepts_cborParser hbytes (if_neg (Nat.not_lt.mpr hlen))

theorem accepts_storageKey {nodeType : UInt8} {bytes : List UInt8} {storageKey : ℕ}
    (h : StorageKeyBytes nodeType bytes storageKey) :
    Accepts WitnessContext.p (2 ^ 64) (storageKeyParser nodeType) bytes storageKey := by
  unfold storageKeyParser witnessStorageKey
  cases h with
  | storage htype hbytes =>
    simp only [if_pos htype]
    exact accepts_number hbytes
  | none htype =>
    simp only [if_neg htype]
    exact .of_pos (fun _ => rfl) fun _ => rfl

/-! ## Accepting nodes -/

theorem NumberBytes.lt {bytes : List UInt8} {n : ℕ} (h : NumberBytes bytes n) : n < 2 ^ 256 := by
  have hlt (content : List UInt8) (hlen : content.length ≤ 32) : ba2scalar content < 2 ^ 256 :=
    (value_lt content).trans_le
      ((Nat.pow_le_pow_right (by decide) hlen).trans (by decide : 256 ^ 32 ≤ 2 ^ 256))
  cases h with
  | u64 hbytes =>
    cases hbytes with
    | u64 _ hfits => exact (Form.info_lt hfits).trans (by decide)
  | ba _ hlen => exact hlt _ hlen

section Nodes

variable {H : WitnessHash} {bits : List Bool} {bytes : List UInt8} {hash : Fea}

theorem accepts_witnessLeafNode {leaf : WitnessLeaf}
    (hbits : (splitKey (H.key leaf)).take bits.length = bits) :
    Accepts WitnessContext.p (2 ^ 64) (fun _ (_ : List UInt8) => witnessLeafNode H bits leaf) []
      (H.leafHash bits leaf) := by
  unfold witnessLeafNode
  simp only [if_neg (not_not.mpr hbits)]
  exact .of_pos (fun _ => rfl) fun _ => rfl

theorem accepts_leaf {nodeType : UInt8} {addressBytes keyBytes valueBytes : List UInt8}
    {address storageKey value : ℕ} (htype : nodeType ≤ 4) (haddress : NumberBytes addressBytes address)
    (hkey : StorageKeyBytes nodeType keyBytes storageKey) (hvalue : NumberBytes valueBytes value)
    (hlt : address < 2 ^ 160)
    (hbits : (splitKey (H.key ⟨nodeType.toNat, address, storageKey, value⟩)).take bits.length = bits) :
    Accepts WitnessContext.p (2 ^ 64) (leafParser H bits)
      (nodeType :: (addressBytes ++ (keyBytes ++ valueBytes)))
      (H.leafHash bits ⟨nodeType.toNat, address, storageKey, value⟩) := by
  rw [leafParser_eq, ← List.singleton_append, ← List.append_nil valueBytes]
  refine (accepts_byteParser nodeType).andThen <| (accepts_number haddress).andThen <|
    (accepts_storageKey hkey).andThen <| (accepts_number hvalue).andThen ?_
  have hlimbs := (high_limbs_eq_zero haddress.lt).mpr hlt
  have hzero : ¬((scalar2fea address).2.fe1 ≠ 0 ∨ (scalar2fea address).2.fe2 ≠ 0 ∨
      (scalar2fea address).2.fe3 ≠ 0) := by
    rintro (h | h | h)
    · exact h hlimbs.1
    · exact h hlimbs.2.1
    · exact h hlimbs.2.2
  dsimp only
  rw [if_neg hzero, if_neg (UInt8.not_lt.mpr htype)]
  exact accepts_witnessLeafNode hbits

theorem accepts_hash (hlen : bytes.length = 32) (hhash : scalar2hash (ba2scalar bytes) = some hash) :
    Accepts WitnessContext.p (2 ^ 64) hashParser bytes hash := by
  intro before after ctx hp _
  have hroom : ¬ctx.p + 32 > (before ++ (bytes ++ after)).length := by
    simp only [hp, List.length_append, hlen]
    omega
  refine ⟨{ ctx with p := ctx.p + 32 }, by rw [hp, List.length_append, hlen], ?_⟩
  unfold hashParser witnessHash
  rw [if_neg hroom, hp, List.drop_left, ← hlen, List.take_left, hhash]
  exact .of_eq _

theorem accepts_code {program : List UInt8} (hbytes : ReadAs bytes (.ba program)) (hprogram : program ≠ []) :
    Accepts WitnessContext.p (2 ^ 64) (codeParser H) bytes none := by
  have hread : Accepts WitnessContext.p (2 ^ 64) (cborParser cbor2ba) bytes program :=
    accepts_cborParser hbytes rfl
  rw [codeParser_eq, ← List.append_nil bytes]
  refine hread.andThen ?_
  rw [if_neg (by simpa using hprogram)]
  exact .of_pos (fun _ => rfl) fun _ => rfl

variable {child : List Bool → WitnessParser Fea} {childBytes : List Bool → List UInt8 → Fea → Prop}

section Child

variable (hchild : ∀ bits bytes hash, childBytes bits bytes hash →
  Accepts WitnessContext.p (2 ^ 64) (child bits) bytes hash)
include hchild

theorem accepts_child {hasChild : Bool} (h : ChildBytes childBytes bits hasChild bytes hash) :
    Accepts WitnessContext.p (2 ^ 64) (childParser child hasChild bits) bytes hash := by
  cases h with
  | present hbytes => exact hchild _ _ _ hbytes
  | absent => exact .of_pos (fun _ => rfl) fun _ => rfl

theorem accepts_branch {maskBytes left right : List UInt8} {mask : ℕ} {leftHash rightHash : Fea}
    (hmask : ReadAs maskBytes (.u64 mask)) (hchildren : mask = 1 ∨ mask = 2 ∨ mask = 3)
    (hleft : ChildBytes childBytes (bits ++ [false]) (mask ≠ 2) left leftHash)
    (hright : ChildBytes childBytes (bits ++ [true]) (mask ≠ 1) right rightHash) :
    Accepts WitnessContext.p (2 ^ 64) (branchParser H child bits) (maskBytes ++ (left ++ right))
      (H.poseidon ⟨leftHash, rightHash, capacityZero⟩) := by
  have hread : Accepts WitnessContext.p (2 ^ 64) (cborParser cbor2u64) maskBytes mask :=
    accepts_cborParser hmask rfl
  rw [branchParser_eq, ← List.append_nil right]
  refine hread.andThen ?_
  rw [if_neg (by omega)]
  refine (accepts_child hchild hleft).andThen <| (accepts_child hchild hright).andThen ?_
  exact .of_pos (fun _ => rfl) fun _ => rfl

theorem accepts_opcode {found : Option Fea} {afterCode : Bool}
    (h : OpcodeBytes H childBytes bits bytes found) (hcode : found = none → afterCode = false) :
    Accepts WitnessContext.p (2 ^ 64) (opcodeParser H child bits afterCode) bytes found := by
  rw [opcodeParser_eq]
  cases h with
  | branch hmask hchildren hleft hright =>
    exact (accepts_byteParser 0x02).andThen ((accepts_branch hchild hmask hchildren hleft hright).map some)
  | leaf htype haddress hkey hvalue hlt hbits =>
    exact (accepts_byteParser 0x07).andThen
      ((accepts_leaf htype haddress hkey hvalue hlt hbits).map some)
  | hash hlen hhash => exact (accepts_byteParser 0x03).andThen ((accepts_hash hlen hhash).map some)
  | code hbytes hprogram =>
    rw [hcode rfl]
    exact (accepts_byteParser 0x04).andThen (accepts_code hbytes hprogram)

end Child

/-- The bytes of a node are accepted, and the hash is theirs. -/
theorem accepts_node {levels : ℕ} (bits : List Bool) (bytes : List UInt8) (hash : Fea)
    (h : NodeBytes H levels bits bytes hash) :
    Accepts WitnessContext.p (2 ^ 64) (nodeParser H levels bits) bytes hash := by
  induction levels generalizing bits bytes hash with
  | zero => exact h.elim
  | succ levels ih =>
    obtain ⟨hlevel, hopcode | ⟨code, node, rfl, hcode, hopcode⟩⟩ := h
    · rw [nodeParser_succ, if_neg (Nat.not_lt.mpr hlevel), ← List.append_nil bytes]
      refine (accepts_opcode ih hopcode nofun).andThen ?_
      exact .of_pos (fun _ => rfl) fun _ => rfl
    · rw [nodeParser_succ, if_neg (Nat.not_lt.mpr hlevel), ← List.append_nil node]
      refine (accepts_opcode ih hcode fun _ => rfl).andThen <| (accepts_opcode ih hopcode nofun).andThen ?_
      exact .of_pos (fun _ => rfl) fun _ => rfl

/-- A witness of these bytes is accepted, whatever follows them. -/
theorem witness2db_of_nodeBytes {after : List UInt8} (h : NodeBytes H 257 [] bytes hash)
    (hsize : (1 :: (bytes ++ after)).length < 2 ^ 64) :
    ∃ ctx, ctx.p = ([1] ++ bytes).length ∧
      Settles (fun depth => witness2db H depth (1 :: (bytes ++ after))) (pure (hash2scalar hash, ctx)) := by
  obtain ⟨ctx, hp, hnode⟩ := accepts_node _ _ _ h [1] after
    { p := 1, db := [], programs := [], leaves := [] } rfl hsize
  simp only [witness2db_cons]
  exact ⟨ctx, hp, hnode.bind (.of_eq _)⟩

end Nodes

end ZkevmProver
