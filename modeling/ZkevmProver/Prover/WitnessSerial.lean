import ZkevmProver.HashDB.SmtTree
import ZkevmProver.Prover.WitnessFormat

/-!
# Writing a witness

A tree is written node by node, with subtrees replaced by their hashes and programs before nodes.  What is
written is refused, or accepted with the hash of the tree whose numbers are those that are read.

1. Numbers, leaves and programs
2. Trees
3. Nodes that are accepted
4. Nodes that are refused
-/

namespace ZkevmProver

open BigEndian Cbor Fallible Parsing PrefixTrie PrefixTrie.Trie

/-! ## Numbers, leaves and programs -/

/-- A number is written as an integer, or as a string of bytes. -/
inductive NumberCode
  | u64 (form : Form) (n : ℕ)
  | ba (form : Form) (content : List UInt8)

namespace NumberCode

def encode : NumberCode → List UInt8
  | u64 form n => head 0 form n
  | ba form content => head 2 form content.length ++ content

def Valid : NumberCode → Prop
  | u64 form n => form.Fits n
  | ba form content => form.Fits content.length ∧ content.length ≤ 32

/-- The number that is meant. -/
def meant : NumberCode → ℕ
  | u64 _ n => n
  | ba _ content => ba2scalar content

/-- The number that is read. -/
def read : NumberCode → ℕ
  | u64 form n => form.info n
  | ba _ content => ba2scalar content

/-- An integer is the five low bits of its first byte. -/
def Readable : NumberCode → Prop
  | u64 form n => form.info n = n
  | ba _ _ => True

theorem read_eq_meant {c : NumberCode} : c.read = c.meant ↔ c.Readable := by
  cases c with
  | u64 form n => exact Iff.rfl
  | ba form content => exact iff_of_true rfl trivial

theorem numberBytes {c : NumberCode} (h : c.Valid) : NumberBytes c.encode c.read := by
  cases c with
  | u64 form n => exact .u64 (.u64 (Or.inl rfl) h)
  | ba form content => exact .ba (.ba h.1) h.2

theorem read_lt {c : NumberCode} (h : c.Valid) : c.read < 2 ^ 256 := (numberBytes h).lt

theorem meant_lt {c : NumberCode} (h : c.Valid) : c.meant < 2 ^ 256 := by
  cases c with
  | u64 form n => exact (Form.Fits.lt h).trans (by decide)
  | ba form content => exact @read_lt (.ba form content) h

end NumberCode

/-- How the numbers of a leaf are written.  The storage key is written for a leaf of the storage only. -/
structure LeafCode where
  nodeType : UInt8
  address : NumberCode
  storageKey : NumberCode
  value : NumberCode

namespace LeafCode

def keyBytes (c : LeafCode) : List UInt8 := if c.nodeType = 3 then c.storageKey.encode else []

def encode (c : LeafCode) : List UInt8 :=
  0x07 :: c.nodeType :: (c.address.encode ++ (c.keyBytes ++ c.value.encode))

/-- The leaf with the numbers that are meant, or those that are read. -/
def leaf (number : NumberCode → ℕ) (c : LeafCode) : WitnessLeaf where
  nodeType := c.nodeType.toNat
  address := number c.address
  storageKey := if c.nodeType = 3 then number c.storageKey else 0
  value := number c.value

structure Valid (c : LeafCode) : Prop where
  nodeType_le : c.nodeType ≤ 4
  address : c.address.Valid
  address_lt : c.address.meant < 2 ^ 160
  storageKey : c.nodeType = 3 → c.storageKey.Valid
  value : c.value.Valid

def Readable (c : LeafCode) : Prop :=
  c.address.Readable ∧ (c.nodeType = 3 → c.storageKey.Readable) ∧ c.value.Readable

end LeafCode

/-- A program that is written before a node. -/
structure ProgramCode where
  form : Form
  content : List UInt8

namespace ProgramCode

def encode (program : ProgramCode) : List UInt8 :=
  0x04 :: (head 2 program.form program.content.length ++ program.content)

def Valid (program : ProgramCode) : Prop := program.form.Fits program.content.length

end ProgramCode

/-! ## Trees -/

/-- How a subtree is written: not at all, as its hash, or as its node, after a program or not. -/
inductive WitnessNode
  | absent
  | hash (program : Option ProgramCode) (t : Tree)
  | leaf (program : Option ProgramCode) (code : LeafCode)
  | branch (program : Option ProgramCode) (left right : WitnessNode)

namespace WitnessNode

def present : WitnessNode → Bool
  | absent => false
  | _ => true

def mask (left right : WitnessNode) : ℕ :=
  (if left.present then 1 else 0) + (if right.present then 2 else 0)

def programBytes : Option ProgramCode → List UInt8
  | none => []
  | some program => program.encode

section Hash

variable (H : WitnessHash)

/-- The tree with the numbers that are meant, or those that are read. -/
def tree (number : NumberCode → ℕ) : WitnessNode → Tree
  | absent => .empty
  | hash _ t => t
  | leaf _ code => .leaf (H.key (code.leaf number)) (number code.value)
  | branch _ left right => .node (left.tree number) (right.tree number)

/-- The bytes of a node at a level. -/
def encode : ℕ → WitnessNode → List UInt8
  | _, absent => []
  | ℓ, hash program t => programBytes program ++ 0x03 :: bytes 32 (hash2scalar (H.digest ℓ t))
  | _, leaf program code => programBytes program ++ code.encode
  | ℓ, branch program left right =>
    programBytes program ++
      0x02 :: (head 0 .immediate (mask left right) ++ (left.encode (ℓ + 1) ++ right.encode (ℓ + 1)))

/-- The numbers and the programs fit their forms. -/
def Valid : WitnessNode → Prop
  | absent => True
  | hash program _ => ∀ p ∈ program, p.Valid
  | leaf program code => (∀ p ∈ program, p.Valid) ∧ code.Valid
  | branch program left right => (∀ p ∈ program, p.Valid) ∧ left.Valid ∧ right.Valid

/-- The programs before the nodes have at least one byte, and no node is below level 255. -/
def Shallow : ℕ → WitnessNode → Prop
  | _, absent => True
  | ℓ, hash program _ => ℓ ≤ 255 ∧ ∀ p ∈ program, p.content ≠ []
  | ℓ, leaf program _ => ℓ ≤ 255 ∧ ∀ p ∈ program, p.content ≠ []
  | ℓ, branch program left right =>
    (ℓ ≤ 255 ∧ ∀ p ∈ program, p.content ≠ []) ∧ left.Shallow (ℓ + 1) ∧ right.Shallow (ℓ + 1)

/-- Every number of a leaf is read as it is meant. -/
def Readable : WitnessNode → Prop
  | absent => True
  | hash _ _ => True
  | leaf _ code => code.Readable
  | branch _ left right => left.Readable ∧ right.Readable

/-- The bits of the key that is read for a leaf are those of its path, and a branch has a child. -/
def Fits : List Bool → WitnessNode → Prop
  | _, absent => True
  | _, hash _ _ => True
  | bits, leaf _ code => code.address.read < 2 ^ 160 ∧
    (splitKey (H.key (code.leaf NumberCode.read))).take bits.length = bits
  | bits, branch _ left right => mask left right ≠ 0 ∧
    left.Fits (bits ++ [false]) ∧ right.Fits (bits ++ [true])

end Hash

end WitnessNode

/-! ## Nodes that are accepted -/

section Accepted

variable {H : WitnessHash} {bits : List Bool} {levels : ℕ}

theorem LeafCode.storageKeyBytes {c : LeafCode} (h : c.Valid) :
    StorageKeyBytes c.nodeType c.keyBytes (c.leaf NumberCode.read).storageKey := by
  unfold keyBytes leaf
  by_cases htype : c.nodeType = 3
  · rw [if_pos htype]
    simp only [if_pos htype]
    exact .storage htype (NumberCode.numberBytes (h.storageKey htype))
  · rw [if_neg htype]
    simp only [if_neg htype]
    exact .none htype

theorem scalar2hash_bytes (hash : Fea) : scalar2hash (ba2scalar (bytes 32 (hash2scalar hash))) = some hash := by
  have hlt : hash2scalar hash < 256 ^ 32 := hash2scalar_lt hash
  rw [ba2scalar, value_bytes_of_lt hlt, scalar2hash_hash2scalar]

/-- A node after a program or not. -/
theorem nodeBytes_of_opcode {program : Option ProgramCode} {node : List UInt8} {hash : Fea}
    (hlevel : bits.length ≤ 255) (hvalid : ∀ p ∈ program, p.Valid) (hcontent : ∀ p ∈ program, p.content ≠ [])
    (h : OpcodeBytes H (NodeBytes H levels) bits node (some hash)) :
    NodeBytes H (levels + 1) bits (WitnessNode.programBytes program ++ node) hash := by
  refine ⟨hlevel, ?_⟩
  cases program with
  | none => exact Or.inl h
  | some program =>
    refine Or.inr ⟨program.encode, node, rfl, .code (.ba (hvalid program rfl)) (hcontent program rfl), h⟩

namespace WitnessNode

theorem digest_absent {w : WitnessNode} (h : w.present = false) (number : NumberCode → ℕ) (ℓ : ℕ) :
    H.digest ℓ (w.tree H number) = 0 ∧ w.encode H ℓ = [] := by
  cases w with
  | absent => exact ⟨rfl, rfl⟩
  | _ => cases h

theorem childBytes {w : WitnessNode} {b : Bool}
    (h : w.present = true → NodeBytes H levels (bits ++ [b]) (w.encode H (bits ++ [b]).length)
      (H.digest (bits ++ [b]).length (w.tree H NumberCode.read))) :
    ChildBytes (NodeBytes H levels) (bits ++ [b]) w.present (w.encode H (bits.length + 1))
      (H.digest (bits.length + 1) (w.tree H NumberCode.read)) := by
  rw [List.length_append, List.length_singleton] at h
  cases hpresent : w.present with
  | true => exact .present (h hpresent)
  | false =>
    obtain ⟨hdigest, hencode⟩ := digest_absent (H := H) hpresent NumberCode.read (bits.length + 1)
    rw [hdigest, hencode]
    exact .absent

theorem mask_cases {left right : WitnessNode} (h : mask left right ≠ 0) :
    (mask left right = 1 ∨ mask left right = 2 ∨ mask left right = 3) ∧
      decide (mask left right ≠ 2) = left.present ∧ decide (mask left right ≠ 1) = right.present := by
  unfold mask at h ⊢
  cases hleft : left.present <;> cases hright : right.present <;> simp [hleft, hright] at h ⊢

/-- What is written for a node is a node, with the hash of the tree that is read. -/
theorem nodeBytes {w : WitnessNode} (hlevels : bits.length + levels = 257) (hpresent : w.present = true)
    (hvalid : w.Valid) (hshallow : w.Shallow bits.length) (hfits : w.Fits H bits) :
    NodeBytes H levels bits (w.encode H bits.length)
      (H.digest bits.length (w.tree H NumberCode.read)) := by
  induction w generalizing bits levels with
  | absent => cases hpresent
  | hash program t =>
    obtain ⟨hlevel, hcontent⟩ := hshallow
    obtain ⟨levels, rfl⟩ : ∃ n, levels = n + 1 := ⟨levels - 1, by omega⟩
    exact nodeBytes_of_opcode hlevel hvalid hcontent (.hash (length_bytes _ _) (scalar2hash_bytes _))
  | leaf program code =>
    obtain ⟨hlevel, hcontent⟩ := hshallow
    obtain ⟨levels, rfl⟩ : ∃ n, levels = n + 1 := ⟨levels - 1, by omega⟩
    obtain ⟨hprogram, hcode⟩ := hvalid
    refine nodeBytes_of_opcode hlevel hprogram hcontent ?_
    exact .leaf hcode.nodeType_le (NumberCode.numberBytes hcode.address) (LeafCode.storageKeyBytes hcode)
      (NumberCode.numberBytes hcode.value) hfits.1 hfits.2
  | branch program left right ihl ihr =>
    obtain ⟨⟨hlevel, hcontent⟩, hshallowl, hshallowr⟩ := hshallow
    obtain ⟨levels, rfl⟩ : ∃ n, levels = n + 1 := ⟨levels - 1, by omega⟩
    obtain ⟨hprogram, hvalidl, hvalidr⟩ := hvalid
    obtain ⟨hmask, hfitsl, hfitsr⟩ := hfits
    obtain ⟨hcases, hleft, hright⟩ := mask_cases hmask
    have hlen (b : Bool) : (bits ++ [b]).length = bits.length + 1 := by
      rw [List.length_append, List.length_singleton]
    have hmaskRead : ReadAs (head 0 .immediate (mask left right)) (.u64 (mask left right)) :=
      .u64 (Or.inl rfl) (show mask left right < 24 by omega)
    refine nodeBytes_of_opcode hlevel hprogram hcontent (.branch hmaskRead hcases ?_ ?_)
    · rw [hleft]
      exact childBytes fun hpresent => ihl (by rw [hlen]; omega) hpresent hvalidl
        (by rwa [hlen]) hfitsl
    · rw [hright]
      exact childBytes fun hpresent => ihr (by rw [hlen]; omega) hpresent hvalidr
        (by rwa [hlen]) hfitsr

end WitnessNode

end Accepted

/-! ## Nodes that are refused -/

section Refused

variable {H : WitnessHash} {bits : List Bool} {levels : ℕ} {before after : List UInt8}

theorem stops_throw (error : WitnessStop) {α : Type} {rest : List UInt8} :
    Stops WitnessContext.p (fun _ _ _ => throw error : WitnessParser α) before rest error :=
  fun _ _ => .of_eq _

/-- A program of no bytes is refused, and what is refused after a program is refused. -/
theorem stops_of_opcode {program : Option ProgramCode} {node : List UInt8} (hlevel : bits.length ≤ 255)
    (hvalid : ∀ p ∈ program, p.Valid)
    (hsize : (before ++ (WitnessNode.programBytes program ++ node)).length < 2 ^ 64)
    (h : (∀ p ∈ program, p.content ≠ []) → ∀ afterCode before, (before ++ node).length < 2 ^ 64 →
      Stops WitnessContext.p (opcodeParser H (nodeParser H levels) bits afterCode) before node
        .invalidWitness) :
    Stops WitnessContext.p (nodeParser H (levels + 1) bits) before
      (WitnessNode.programBytes program ++ node) .invalidWitness := by
  rw [nodeParser_succ, if_neg (Nat.not_lt.mpr hlevel)]
  cases program with
  | none => exact (h nofun false before hsize).andThen
  | some program =>
    have hread : ReadAs (head 2 program.form program.content.length ++ program.content)
        (.ba program.content) := .ba (hvalid program rfl)
    by_cases hcontent : program.content = []
    · refine Stops.andThen ?_
      have hcbor : Accepts WitnessContext.p (2 ^ 64) (cborParser cbor2ba)
          (head 2 program.form program.content.length ++ program.content) program.content :=
        accepts_cborParser hread rfl
      change Stops _ _ before
        ([0x04] ++ ((head 2 program.form program.content.length ++ program.content) ++ node)) _
      rw [opcodeParser_eq]
      refine (accepts_byteParser 0x04).andThen_stops hsize ?_
      rw [if_neg (by decide), if_neg (by decide), if_neg (by decide), if_pos rfl,
        if_neg Bool.false_ne_true, codeParser_eq]
      refine hcbor.andThen_stops (by simpa [WitnessNode.programBytes, ProgramCode.encode] using hsize) ?_
      rw [if_pos (by rw [hcontent]; rfl)]
      exact stops_throw _
    · have hcode : OpcodeBytes H (NodeBytes H levels) bits program.encode none := .code hread hcontent
      refine (accepts_opcode accepts_node hcode fun _ => rfl).andThen_stops hsize (Stops.andThen ?_)
      refine h ?_ true _ ?_
      · rintro p ⟨⟩
        exact hcontent
      · rwa [List.append_assoc]

theorem stops_witnessLeafNode {leaf : WitnessLeaf} {rest : List UInt8}
    (hbits : (splitKey (H.key leaf)).take bits.length ≠ bits) :
    Stops WitnessContext.p (fun _ (_ : List UInt8) => witnessLeafNode H bits leaf) before rest
      .invalidWitness := by
  intro ctx _
  unfold witnessLeafNode
  simp only [if_pos hbits]
  exact .of_eq _

theorem stops_leaf {code : LeafCode} (hcode : code.Valid)
    (hfits : ¬(code.address.read < 2 ^ 160 ∧
      (splitKey (H.key (code.leaf NumberCode.read))).take bits.length = bits))
    (hsize : (before ++ (code.encode ++ after)).length < 2 ^ 64) {child : List Bool → WitnessParser Fea}
    (afterCode : Bool) :
    Stops WitnessContext.p (opcodeParser H child bits afterCode) before (code.encode ++ after)
      .invalidWitness := by
  have hbytes : code.encode ++ after = [0x07] ++ ([code.nodeType] ++ (code.address.encode ++
      (code.keyBytes ++ (code.value.encode ++ after)))) := by
    simp [LeafCode.encode]
  rw [hbytes] at hsize ⊢
  rw [opcodeParser_eq]
  refine (accepts_byteParser 0x07).andThen_stops hsize ?_
  rw [if_neg (by decide), if_pos rfl, leafParser_eq]
  rw [← List.append_assoc before] at hsize
  refine Stops.andThen ((accepts_byteParser code.nodeType).andThen_stops hsize ?_)
  rw [← List.append_assoc _ [code.nodeType]] at hsize
  refine (accepts_number (NumberCode.numberBytes hcode.address)).andThen_stops hsize ?_
  rw [← List.append_assoc _ code.address.encode] at hsize
  refine (accepts_storageKey (LeafCode.storageKeyBytes hcode)).andThen_stops hsize ?_
  rw [← List.append_assoc _ code.keyBytes] at hsize
  refine (accepts_number (NumberCode.numberBytes hcode.value)).andThen_stops hsize ?_
  have htype : ¬code.nodeType > 4 := UInt8.not_lt.mpr hcode.nodeType_le
  have hlimbs := high_limbs_eq_zero (NumberCode.numberBytes hcode.address).lt
  by_cases haddress : code.address.read < 2 ^ 160
  · have hzero : ¬((scalar2fea code.address.read).2.fe1 ≠ 0 ∨ (scalar2fea code.address.read).2.fe2 ≠ 0 ∨
        (scalar2fea code.address.read).2.fe3 ≠ 0) := by
      obtain ⟨h5, h6, h7⟩ := hlimbs.mpr haddress
      rintro (h | h | h)
      · exact h h5
      · exact h h6
      · exact h h7
    have hbits : (splitKey (H.key (code.leaf NumberCode.read))).take bits.length ≠ bits :=
      fun hbits => hfits ⟨haddress, hbits⟩
    dsimp only
    rw [if_neg hzero, if_neg htype]
    exact stops_witnessLeafNode hbits
  · have hnonzero : (scalar2fea code.address.read).2.fe1 ≠ 0 ∨ (scalar2fea code.address.read).2.fe2 ≠ 0 ∨
        (scalar2fea code.address.read).2.fe3 ≠ 0 := by
      by_contra hzero
      push Not at hzero
      exact haddress (hlimbs.mp hzero)
    dsimp only
    rw [if_pos hnonzero]
    exact stops_throw _

namespace WitnessNode

section Children

variable {left right : WitnessNode}

theorem mask_bytes (ℓ : ℕ) :
    0x02 :: (head 0 .immediate (mask left right) ++ (left.encode H ℓ ++ right.encode H ℓ)) ++ after =
      [0x02] ++ (head 0 .immediate (mask left right) ++ (left.encode H ℓ ++ (right.encode H ℓ ++ after))) := by
  simp

theorem accepts_mask : Accepts WitnessContext.p (2 ^ 64) (cborParser cbor2u64)
    (head 0 .immediate (mask left right)) (mask left right) := by
  have hlt : mask left right < 24 := by
    unfold mask
    split_ifs <;> decide
  exact accepts_cborParser (.u64 (Or.inl rfl) hlt) rfl

theorem present_of_not {w : WitnessNode} {ℓ : ℕ} (h : ¬(w.Shallow ℓ ∧ w.Fits H bits)) :
    w.present = true := by
  cases w with
  | absent => exact absurd ⟨trivial, trivial⟩ h
  | _ => rfl

/-- A child whose checks do not all pass is there, and refused. -/
theorem stops_present {w : WitnessNode} {b : Bool}
    (h : ∀ {bits : List Bool} {levels : ℕ} {before after : List UInt8}, bits.length ≤ 256 →
      bits.length + levels = 257 → w.present = true → w.Valid → ¬(w.Shallow bits.length ∧ w.Fits H bits) →
      (before ++ (w.encode H bits.length ++ after)).length < 2 ^ 64 →
      Stops WitnessContext.p (nodeParser H levels bits) before (w.encode H bits.length ++ after)
        .invalidWitness)
    (hlevel : bits.length ≤ 255) (hlevels : bits.length + (levels + 1) = 257) (hvalid : w.Valid)
    (hnot : ¬(w.Shallow (bits.length + 1) ∧ w.Fits H (bits ++ [b])))
    (hsize : (before ++ (w.encode H (bits.length + 1) ++ after)).length < 2 ^ 64) :
    Stops WitnessContext.p (childParser (nodeParser H levels) w.present (bits ++ [b])) before
      (w.encode H (bits.length + 1) ++ after) .invalidWitness := by
  have hlen : (bits ++ [b]).length = bits.length + 1 := by
    rw [List.length_append, List.length_singleton]
  have hpresent := present_of_not hnot
  rw [← hlen] at hnot hsize ⊢
  rw [hpresent]
  exact h (by omega) (by omega) hpresent hvalid hnot hsize

end Children

/-- What is written for a node whose checks do not all pass is refused. -/
theorem stops {w : WitnessNode} (hlevel : bits.length ≤ 256) (hlevels : bits.length + levels = 257)
    (hpresent : w.present = true) (hvalid : w.Valid) (hnot : ¬(w.Shallow bits.length ∧ w.Fits H bits))
    (hsize : (before ++ (w.encode H bits.length ++ after)).length < 2 ^ 64) :
    Stops WitnessContext.p (nodeParser H levels bits) before (w.encode H bits.length ++ after)
      .invalidWitness := by
  induction w generalizing bits levels before after with
  | absent => cases hpresent
  | hash program t =>
    obtain ⟨levels, rfl⟩ : ∃ n, levels = n + 1 := ⟨levels - 1, by omega⟩
    by_cases hlast : bits.length ≤ 255
    · rw [encode, List.append_assoc] at hsize ⊢
      exact stops_of_opcode hlast hvalid hsize fun hcontent => absurd ⟨⟨hlast, hcontent⟩, trivial⟩ hnot
    · rw [nodeParser_succ, if_pos (Nat.not_le.mp hlast)]
      exact stops_throw _
  | leaf program code =>
    obtain ⟨levels, rfl⟩ : ∃ n, levels = n + 1 := ⟨levels - 1, by omega⟩
    by_cases hlast : bits.length ≤ 255
    · rw [encode, List.append_assoc] at hsize ⊢
      exact stops_of_opcode hlast hvalid.1 hsize fun hcontent afterCode before hsize =>
        stops_leaf hvalid.2 (fun hfits => hnot ⟨⟨hlast, hcontent⟩, hfits⟩) hsize afterCode
    · rw [nodeParser_succ, if_pos (Nat.not_le.mp hlast)]
      exact stops_throw _
  | branch program left right ihl ihr =>
    obtain ⟨levels, rfl⟩ : ∃ n, levels = n + 1 := ⟨levels - 1, by omega⟩
    have hlen (b : Bool) : (bits ++ [b]).length = bits.length + 1 := by
      rw [List.length_append, List.length_singleton]
    by_cases hlast : bits.length ≤ 255
    · rw [encode, List.append_assoc] at hsize ⊢
      refine stops_of_opcode hlast hvalid.1 hsize fun hcontent afterCode before hsize => ?_
      rw [mask_bytes] at hsize ⊢
      rw [opcodeParser_eq]
      refine (accepts_byteParser 0x02).andThen_stops hsize ?_
      rw [if_pos rfl, branchParser_eq]
      rw [← List.append_assoc before] at hsize
      refine Stops.andThen (accepts_mask.andThen_stops hsize ?_)
      by_cases hmask : mask left right = 0
      · rw [if_pos (by omega)]
        exact stops_throw _
      obtain ⟨hcases, hleft, hright⟩ := mask_cases hmask
      rw [if_neg (by omega), hleft, hright]
      rw [← List.append_assoc _ (head 0 .immediate (mask left right))] at hsize
      by_cases hgood : left.Shallow (bits.length + 1) ∧ left.Fits H (bits ++ [false])
      · have hbad : ¬(right.Shallow (bits.length + 1) ∧ right.Fits H (bits ++ [true])) := fun hright =>
          hnot ⟨⟨⟨hlast, hcontent⟩, hgood.1, hright.1⟩, hmask, hgood.2, hright.2⟩
        have hread : ChildBytes (NodeBytes H levels) (bits ++ [false]) left.present
            (left.encode H (bits.length + 1)) (H.digest (bits.length + 1) (left.tree H NumberCode.read)) :=
          childBytes fun hpresent =>
            nodeBytes (by rw [hlen]; omega) hpresent hvalid.2.1 (by rw [hlen]; exact hgood.1) hgood.2
        refine (accepts_child accepts_node hread).andThen_stops hsize (Stops.andThen ?_)
        rw [← List.append_assoc _ (left.encode H _)] at hsize
        exact stops_present ihr (by omega) (by omega) hvalid.2.2 hbad hsize
      · exact Stops.andThen (stops_present ihl (by omega) (by omega) hvalid.2.1 hgood hsize)
    · rw [nodeParser_succ, if_pos (Nat.not_le.mp hlast)]
      exact stops_throw _

end WitnessNode

end Refused

end ZkevmProver
