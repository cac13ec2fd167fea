import ZkevmProver.Prover.WitnessFormat
import ZkevmProver.Prover.WitnessSound

/-!
# Parsing any bytes

A witness is parsed as it should be where the items that are come to are decoded so and no hash that is
come to ends the process.

1. The places that are come to
2. Parsing items
3. Parsing nodes
4. Ending the process
5. Which bytes are parsed as they should be
-/

namespace ZkevmProver

open BigEndian Cbor Fallible Parsing

/-! ## The places that are come to -/

/-- Where a data item is due, or the bytes of a hash. -/
inductive WitnessPlace
  | item
  | hash

section Places

variable (H : WitnessHash) (child : List Bool → List UInt8 → Fea → Prop)
  (childPlace : List Bool → List UInt8 → List UInt8 → WitnessPlace → List UInt8 → List UInt8 → Prop)

/-- `OpcodePlace bits afterCode before rest kind before' rest'`: parsing the opcode at the start of `rest`,
which comes after `before`, comes to a place at the start of `rest'`. -/
inductive OpcodePlace (bits : List Bool) (afterCode : Bool) (before : List UInt8) :
    List UInt8 → WitnessPlace → List UInt8 → List UInt8 → Prop
  | mask {rest : List UInt8} :
      OpcodePlace bits afterCode before (0x02 :: rest) .item (before ++ [0x02]) rest
  | left {maskBytes rest before' rest' : List UInt8} {mask : ℕ} {kind : WitnessPlace} :
      ReadAs maskBytes (.u64 mask) → mask = 1 ∨ mask = 3 →
      childPlace (bits ++ [false]) (before ++ [0x02] ++ maskBytes) rest kind before' rest' →
      OpcodePlace bits afterCode before (0x02 :: (maskBytes ++ rest)) kind before' rest'
  | right {maskBytes left rest before' rest' : List UInt8} {mask : ℕ} {leftHash : Fea}
      {kind : WitnessPlace} : ReadAs maskBytes (.u64 mask) → mask = 2 ∨ mask = 3 →
      ChildBytes child (bits ++ [false]) (mask ≠ 2) left leftHash →
      childPlace (bits ++ [true]) (before ++ [0x02] ++ maskBytes ++ left) rest kind before' rest' →
      OpcodePlace bits afterCode before (0x02 :: (maskBytes ++ (left ++ rest))) kind before' rest'
  | address {nodeType : UInt8} {rest : List UInt8} :
      OpcodePlace bits afterCode before (0x07 :: nodeType :: rest) .item (before ++ [0x07] ++ [nodeType]) rest
  | storageKey {nodeType : UInt8} {addressBytes rest : List UInt8} {address : ℕ} : nodeType = 3 →
      NumberBytes addressBytes address →
      OpcodePlace bits afterCode before (0x07 :: nodeType :: (addressBytes ++ rest)) .item
        (before ++ [0x07] ++ [nodeType] ++ addressBytes) rest
  | value {nodeType : UInt8} {addressBytes keyBytes rest : List UInt8} {address storageKey : ℕ} :
      NumberBytes addressBytes address → StorageKeyBytes nodeType keyBytes storageKey →
      OpcodePlace bits afterCode before (0x07 :: nodeType :: (addressBytes ++ (keyBytes ++ rest))) .item
        (before ++ [0x07] ++ [nodeType] ++ addressBytes ++ keyBytes) rest
  | hash {rest : List UInt8} :
      OpcodePlace bits afterCode before (0x03 :: rest) .hash (before ++ [0x03]) rest
  | code {rest : List UInt8} : afterCode = false →
      OpcodePlace bits afterCode before (0x04 :: rest) .item (before ++ [0x04]) rest

/-- The places that parsing a node comes to. -/
def NodePlace : ℕ → List Bool → List UInt8 → List UInt8 → WitnessPlace → List UInt8 → List UInt8 → Prop
  | 0, _, _, _, _, _, _ => False
  | levels + 1, bits, before, rest, kind, before', rest' =>
    bits.length ≤ 255 ∧
      (OpcodePlace (NodeBytes H levels) (NodePlace levels) bits false before rest kind before' rest' ∨
        ∃ code after, rest = code ++ after ∧ OpcodeBytes H (NodeBytes H levels) bits code none ∧
          OpcodePlace (NodeBytes H levels) (NodePlace levels) bits true (before ++ code) after kind
            before' rest')

end Places

/-- Each eight of the thirty-two bytes are an element of the field. -/
def HashInField (rest : List UInt8) : Prop :=
  32 ≤ rest.length → ∀ i < 4, value ((rest.drop (8 * i)).take 8) < goldilocksPrime

/-- The item is decoded as it should be, or the bytes are a hash. -/
def PlaceSafe : WitnessPlace → List UInt8 → List UInt8 → Prop
  | .item, before, rest => DecodesSafely before rest
  | .hash, _, rest => HashInField rest

/-- The errors that are returned. -/
def WitnessStop.IsError (stop : WitnessStop) : Prop := stop = .invalidWitness ∨ stop = .cborInvalidData

/-! ## Parsing items -/

section Items

variable {before rest : List UInt8}

theorem parses_byteParser :
    Parses WitnessContext.p WitnessStop.IsError byteParser before rest fun bytes b => bytes = [b] := by
  intro ctx hp
  cases rest with
  | nil =>
    refine Or.inl ⟨.invalidWitness, Or.inl rfl, ?_⟩
    unfold byteParser nextByte
    rw [if_pos (by simp [hp])]
    exact .of_eq _
  | cons b after =>
    refine Or.inr ⟨[b], after, b, { ctx with p := ctx.p + 1 }, rfl, rfl, by simp [hp], ?_⟩
    unfold byteParser nextByte
    rw [if_neg (by simp [hp]), hp, charAt_append]
    exact .of_eq _

/-- A well-formed item that is read as an integer or a string of bytes is one. -/
theorem readAs_of_wellFormed {bytes after : List UInt8} {depth p : ℕ} {item : Item} (h : WellFormed bytes)
    (hsize : (before ++ (bytes ++ after)).length < 2 ^ 64)
    (hread : cbor2result depth (before ++ (bytes ++ after)) before.length = some (.success item p))
    (hitem : (∃ n, item = .u64 n) ∨ ∃ content, item = .ba content) : ReadAs bytes item := by
  have hsame {item' : Item} (hbytes : ReadAs bytes item') : ReadAs bytes item := by
    have heq := cbor2result_unique hread (cbor2result_readAs hbytes before after hsize 0)
    injection heq with heq
    exact heq ▸ hbytes
  have hpos : depth ≠ 0 := by
    rintro rfl
    cases hread
  obtain ⟨depth, rfl⟩ := Nat.exists_eq_succ_of_ne_zero hpos
  cases h with
  | plain hmajor hfits => exact hsame (.u64 hmajor hfits)
  | @string major form content hmajor hfits =>
    obtain rfl | rfl := hmajor
    · exact hsame (.ba hfits)
    · rw [List.append_assoc] at hread
      rw [cbor2result_head_eq (by decide) hfits, cborPayload, cborString] at hread
      split_ifs at hread
      · cases hread
      · obtain ⟨n, rfl⟩ | ⟨content, rfl⟩ := hitem <;> cases hread
  | array hfits =>
    rw [List.append_assoc] at hread
    rw [cbor2result_head_eq (by decide) hfits, cborPayload] at hread
    obtain ⟨n, rfl⟩ | ⟨content, rfl⟩ := hitem <;> (split at hread <;> cases hread)
  | tag hfits =>
    rw [List.append_assoc] at hread
    rw [cbor2result_head_eq (by decide) hfits, cborPayload] at hread
    obtain ⟨n, rfl⟩ | ⟨content, rfl⟩ := hitem <;> (split at hread <;> cases hread)

theorem parses_cborParser {α : Type} {expect : Item → Option α}
    (hexpect : ∀ item a, expect item = some a → (∃ n, item = .u64 n) ∨ ∃ content, item = .ba content)
    (hsize : (before ++ rest).length < 2 ^ 64) (h : DecodesSafely before rest) :
    Parses WitnessContext.p WitnessStop.IsError (cborParser (cborExpect expect)) before rest
      fun bytes a => ∃ item, ReadAs bytes item ∧ expect item = some a := by
  intro ctx hp
  -- the fuel of `cbor2result` is enough
  have hsettles {depth : ℕ} {outcome : CborOutcome Item}
      (hresult : cbor2result depth (before ++ rest) before.length = some outcome) :
      Settles (fun depth => cborParser (cborExpect expect) depth (before ++ rest) ctx)
        (cborParser (cborExpect expect) depth (before ++ rest) ctx) := by
    refine ⟨depth, fun depth' hdepth => ?_⟩
    dsimp only [cborParser]
    rw [cborCall, cborCall, cborExpect, cborExpect, hp, hresult, cbor2result_mono hdepth _ _ _ hresult]
  obtain ⟨depth, hinvalid | ⟨item, bytes, after, rfl, hbytes, hsuccess⟩⟩ := h
  · have hrun := hsettles hinvalid
    dsimp only [cborParser] at hrun
    rw [cborCall, cborExpect, hp, hinvalid] at hrun
    exact Or.inl ⟨.cborInvalidData, Or.inr rfl, hrun⟩
  · have hrun := hsettles hsuccess
    dsimp only [cborParser] at hrun
    rw [cborCall, cborExpect, hp, hsuccess] at hrun
    dsimp only at hrun
    cases hitem : expect item with
    | none =>
      rw [hitem] at hrun
      exact Or.inl ⟨.cborInvalidData, Or.inr rfl, hrun⟩
    | some a =>
      rw [hitem] at hrun
      refine Or.inr ⟨bytes, after, a, _, rfl, ⟨item, ?_, hitem⟩, ?_, hrun⟩
      · exact readAs_of_wellFormed hbytes hsize hsuccess (hexpect item a hitem)
      · rw [List.length_append]

theorem parses_number (hsize : (before ++ rest).length < 2 ^ 64) (h : DecodesSafely before rest) :
    Parses WitnessContext.p WitnessStop.IsError (cborParser cbor2scalar) before rest NumberBytes := by
  refine (parses_cborParser ?_ hsize h).imp ?_
  · intro item n hn
    cases item with
    | u64 n => exact Or.inl ⟨n, rfl⟩
    | ba content => exact Or.inr ⟨content, rfl⟩
    | _ => cases hn
  · rintro bytes n ⟨item, hbytes, hn⟩
    cases hbytes with
    | u64 hmajor hfits =>
      obtain rfl := Option.some.inj hn
      exact .u64 (.u64 hmajor hfits)
    | ba hfits =>
      dsimp only at hn
      split_ifs at hn with hlen
      obtain rfl := Option.some.inj hn
      exact .ba (.ba hfits) (Nat.not_lt.mp hlen)

theorem parses_mask (hsize : (before ++ rest).length < 2 ^ 64) (h : DecodesSafely before rest) :
    Parses WitnessContext.p WitnessStop.IsError (cborParser cbor2u64) before rest fun bytes n =>
      ReadAs bytes (.u64 n) := by
  refine (parses_cborParser ?_ hsize h).imp ?_
  · intro item n hn
    cases item with
    | u64 n => exact Or.inl ⟨n, rfl⟩
    | _ => cases hn
  · rintro bytes n ⟨item, hbytes, hn⟩
    cases hbytes with
    | u64 hmajor hfits =>
      obtain rfl := Option.some.inj hn
      exact .u64 hmajor hfits
    | ba => cases hn

theorem parses_program (hsize : (before ++ rest).length < 2 ^ 64) (h : DecodesSafely before rest) :
    Parses WitnessContext.p WitnessStop.IsError (cborParser cbor2ba) before rest fun bytes program =>
      ReadAs bytes (.ba program) := by
  refine (parses_cborParser ?_ hsize h).imp ?_
  · intro item program hprogram
    cases item with
    | ba content => exact Or.inr ⟨content, rfl⟩
    | _ => cases hprogram
  · rintro bytes program ⟨item, hbytes, hprogram⟩
    cases hbytes with
    | u64 => cases hprogram
    | ba hfits =>
      obtain rfl := Option.some.inj hprogram
      exact .ba hfits

/-- A group of eight bytes is a limb. -/
theorem value_group (bytes : List UInt8) (hroom : 32 ≤ bytes.length) {i : ℕ} (hi : i < 4) :
    value ((bytes.drop (8 * i)).take 8) = (value (bytes.take 32) >>> (64 * (3 - i))) % 2 ^ 64 := by
  have hgroup : (bytes.drop (8 * i)).take 8 = ((bytes.take 32).take (8 * i + 8)).drop (8 * i) := by
    rw [List.take_take, Nat.min_eq_left (by omega), List.drop_take, Nat.add_sub_cancel_left]
  have hlen : (bytes.take 32).length = 32 := List.length_take_of_le hroom
  have hpow : 256 ^ (32 - (8 * i + 8)) = 2 ^ (64 * (3 - i)) := by
    rw [show 256 = 2 ^ 8 from rfl, ← Nat.pow_mul]
    congr 1
    omega
  have height : min (8 * i + 8) 32 - 8 * i = 8 := by omega
  have hword : 256 ^ 8 = 2 ^ 64 := rfl
  rw [hgroup, value_drop, value_take, hlen, List.length_take, hlen, hpow, height, hword,
    Nat.shiftRight_eq_div_pow]

theorem hashInField_iff (hroom : 32 ≤ rest.length) :
    HashInField rest ↔ (scalar2hash (ba2scalar (rest.take 32))).isSome := by
  rw [scalar2hash_isSome, ba2scalar]
  constructor
  · intro h i hi
    have hgroup := h hroom (3 - i) (by omega)
    rwa [value_group rest hroom (by omega), show 3 - (3 - i) = i by omega] at hgroup
  · intro h _ i hi
    rw [value_group rest hroom hi]
    exact h (3 - i) (by omega)

theorem parses_hash (h : HashInField rest) :
    Parses WitnessContext.p WitnessStop.IsError hashParser before rest fun bytes hash =>
      bytes.length = 32 ∧ scalar2hash (ba2scalar bytes) = some hash := by
  intro ctx hp
  unfold hashParser witnessHash
  obtain hshort | hroom := Nat.lt_or_ge rest.length 32
  · refine Or.inl ⟨.invalidWitness, Or.inl rfl, ?_⟩
    rw [if_pos (by rw [hp, List.length_append]; omega)]
    exact .of_eq _
  · obtain ⟨hash, hhash⟩ := Option.isSome_iff_exists.mp ((hashInField_iff hroom).mp h)
    have hlen : (rest.take 32).length = 32 := List.length_take_of_le hroom
    refine Or.inr ⟨rest.take 32, rest.drop 32, hash, { ctx with p := ctx.p + 32 },
      (List.take_append_drop 32 rest).symm, ⟨hlen, hhash⟩, ?_, ?_⟩
    · rw [List.length_append, hlen, hp]
    · rw [if_neg (by rw [hp, List.length_append]; omega), hp, List.drop_left, hhash]
      exact .of_eq _

end Items

/-! ## Parsing nodes -/

section Nodes

variable {H : WitnessHash} {bits : List Bool} {afterCode : Bool} {before rest : List UInt8}
  {childBytes : List Bool → List UInt8 → Fea → Prop}
  {childPlace : List Bool → List UInt8 → List UInt8 → WitnessPlace → List UInt8 → List UInt8 → Prop}

theorem parses_storageKey {nodeType : UInt8} (hsize : (before ++ rest).length < 2 ^ 64)
    (h : nodeType = 3 → DecodesSafely before rest) :
    Parses WitnessContext.p WitnessStop.IsError (storageKeyParser nodeType) before rest
      (StorageKeyBytes nodeType) := by
  unfold storageKeyParser witnessStorageKey
  by_cases htype : nodeType = 3
  · simp only [if_pos htype]
    exact (parses_number hsize (h htype)).imp fun bytes n hn => .storage htype hn
  · simp only [if_neg htype]
    exact .of_pos (fun _ => rfl) (fun _ => rfl) (.none htype)

/-- The places of an opcode are all safe. -/
def OpcodeSafe (childBytes : List Bool → List UInt8 → Fea → Prop)
    (childPlace : List Bool → List UInt8 → List UInt8 → WitnessPlace → List UInt8 → List UInt8 → Prop)
    (bits : List Bool) (afterCode : Bool) (before rest : List UInt8) : Prop :=
  ∀ kind before' rest', OpcodePlace childBytes childPlace bits afterCode before rest kind before' rest' →
    PlaceSafe kind before' rest'

theorem parses_leaf (hsize : (before ++ 0x07 :: rest).length < 2 ^ 64)
    (h : OpcodeSafe childBytes childPlace bits afterCode before (0x07 :: rest)) :
    Parses WitnessContext.p WitnessStop.IsError (leafParser H bits) (before ++ [0x07]) rest fun bytes hash =>
      OpcodeBytes H childBytes bits (0x07 :: bytes) (some hash) := by
  rw [leafParser_eq]
  refine parses_byteParser.andThen fun xs rest₁ nodeType hrest₁ hxs => ?_
  subst hxs hrest₁
  rw [List.singleton_append] at h
  refine (parses_number (by simpa using hsize) (h .item _ _ .address)).andThen
    fun addressBytes rest₂ address hrest₂ haddress => ?_
  subst hrest₂
  refine (parses_storageKey (by simpa using hsize)
    fun htype => h .item _ _ (.storageKey htype haddress)).andThen
      fun keyBytes rest₃ storageKey hrest₃ hkey => ?_
  subst hrest₃
  refine (parses_number (by simpa using hsize) (h .item _ _ (.value haddress hkey))).andThen
    fun valueBytes after value hrest₄ hvalue => ?_
  dsimp only
  split_ifs with hlimbs htype
  · exact .throw (Or.inl rfl)
  · exact .throw (Or.inl rfl)
  have hlt : address < 2 ^ 160 := by
    rw [← high_limbs_eq_zero haddress.lt]
    push Not at hlimbs
    exact hlimbs
  unfold witnessLeafNode
  dsimp only
  split_ifs with hbits
  · exact .throw (Or.inl rfl)
  · refine .of_pos (a := H.leafHash bits ⟨nodeType.toNat, address, storageKey, value⟩) (fun _ => rfl)
      (fun _ => rfl) ?_
    rw [List.append_nil, List.singleton_append]
    exact .leaf (UInt8.not_lt.mp htype) haddress hkey hvalue hlt (not_not.mp hbits)

theorem parses_code (hsize : (before ++ 0x04 :: rest).length < 2 ^ 64)
    (h : OpcodeSafe childBytes childPlace bits false before (0x04 :: rest)) :
    Parses WitnessContext.p WitnessStop.IsError (codeParser H) (before ++ [0x04]) rest fun bytes found =>
      OpcodeBytes H childBytes bits (0x04 :: bytes) found := by
  rw [codeParser_eq]
  refine (parses_program (by simpa using hsize) (h .item _ _ (.code rfl))).andThen
    fun bytes rest₁ program hrest₁ hprogram => ?_
  split_ifs with hempty
  · exact .throw (Or.inl rfl)
  · refine .of_pos (fun _ => rfl) (fun _ => rfl) ?_
    rw [List.append_nil]
    exact .code hprogram (by simpa using hempty)

section Child

variable {level : ℕ} {child : List Bool → WitnessParser Fea}
  (hchild : ∀ bits before rest, (before ++ rest).length < 2 ^ 64 →
    (∀ kind before' rest', childPlace bits before rest kind before' rest' → PlaceSafe kind before' rest') →
    bits.length = level + 1 →
    Parses WitnessContext.p WitnessStop.IsError (child bits) before rest (childBytes bits))
include hchild

theorem parses_child {hasChild : Bool} (hsize : (before ++ rest).length < 2 ^ 64)
    (h : hasChild = true → ∀ kind before' rest', childPlace bits before rest kind before' rest' →
      PlaceSafe kind before' rest') (hlevel : bits.length = level + 1) :
    Parses WitnessContext.p WitnessStop.IsError (childParser child hasChild bits) before rest
      (ChildBytes childBytes bits hasChild) := by
  cases hasChild with
  | false => exact .of_pos (fun _ => rfl) (fun _ => rfl) .absent
  | true => exact (hchild bits before rest hsize (h rfl) hlevel).imp fun bytes hash hbytes => .present hbytes

theorem parses_branch (hsize : (before ++ 0x02 :: rest).length < 2 ^ 64)
    (h : OpcodeSafe childBytes childPlace bits afterCode before (0x02 :: rest))
    (hlevel : bits.length = level) :
    Parses WitnessContext.p WitnessStop.IsError (branchParser H child bits) (before ++ [0x02]) rest
      fun bytes hash => OpcodeBytes H childBytes bits (0x02 :: bytes) (some hash) := by
  rw [branchParser_eq]
  refine (parses_mask (by simpa using hsize) (h .item _ _ .mask)).andThen
    fun maskBytes rest₁ mask hrest₁ hmask => ?_
  subst hrest₁
  split_ifs with hchildren
  · exact .throw (Or.inl rfl)
  have hchildren : mask = 1 ∨ mask = 2 ∨ mask = 3 := by omega
  refine (parses_child hchild (by simpa using hsize) (fun hleft kind before' rest' hplace => ?_) ?_).andThen
    fun left rest₂ leftHash hrest₂ hleft => ?_
  · refine h kind _ _ (.left hmask ?_ hplace)
    simp at hleft
    omega
  · simpa using hlevel
  subst hrest₂
  refine (parses_child hchild (by simpa using hsize) (fun hright kind before' rest' hplace => ?_) ?_).andThen
    fun right after rightHash _ hright => ?_
  · refine h kind _ _ (.right hmask ?_ hleft hplace)
    simp at hright
    omega
  · simpa using hlevel
  refine .of_pos (a := H.poseidon ⟨leftHash, rightHash, capacityZero⟩) (fun _ => rfl) (fun _ => rfl) ?_
  rw [List.append_nil]
  exact .branch hmask hchildren hleft hright

theorem parses_opcode (hsize : (before ++ rest).length < 2 ^ 64)
    (h : OpcodeSafe childBytes childPlace bits afterCode before rest) (hlevel : bits.length = level) :
    Parses WitnessContext.p WitnessStop.IsError (opcodeParser H child bits afterCode) before rest
      fun bytes found => OpcodeBytes H childBytes bits bytes found ∧ (afterCode = true → found ≠ none) := by
  rw [opcodeParser_eq]
  refine parses_byteParser.andThen fun xs rest₁ opcode hrest₁ hxs => ?_
  subst hxs hrest₁
  rw [List.singleton_append] at h hsize
  simp only [List.singleton_append]
  split_ifs with hbranch hleaf hhash hcode hafter
  · subst hbranch
    exact ((parses_branch hchild hsize h hlevel).imp fun _ _ hbytes => ⟨hbytes, nofun⟩).map some
  · subst hleaf
    exact ((parses_leaf hsize h).imp fun _ _ hbytes => ⟨hbytes, nofun⟩).map some
  · subst hhash
    exact ((parses_hash (h .hash _ _ .hash)).imp fun _ _ hbytes =>
      ⟨.hash hbytes.1 hbytes.2, nofun⟩).map some
  · exact .throw (Or.inl rfl)
  · subst hcode
    rw [Bool.not_eq_true] at hafter
    subst hafter
    exact (parses_code hsize h).imp fun _ _ hbytes => ⟨hbytes, nofun⟩
  · exact .throw (Or.inl rfl)

end Child

/-- Where the places that are come to are safe, a node is refused, or accepted after its bytes. -/
theorem parses_node {levels : ℕ} (bits : List Bool) (before rest : List UInt8)
    (hsize : (before ++ rest).length < 2 ^ 64)
    (h : ∀ kind before' rest', NodePlace H levels bits before rest kind before' rest' →
      PlaceSafe kind before' rest') (hlevel : bits.length ≤ 256) (hlevels : bits.length + levels = 257) :
    Parses WitnessContext.p WitnessStop.IsError (nodeParser H levels bits) before rest
      (NodeBytes H levels bits) := by
  induction levels generalizing bits before rest with
  | zero => omega
  | succ levels ih =>
    rw [nodeParser_succ]
    split_ifs with hlast
    · exact .throw (Or.inl rfl)
    have hlast : bits.length ≤ 255 := Nat.not_lt.mp hlast
    have hchild (bits' : List Bool) (before rest : List UInt8) (hsize : (before ++ rest).length < 2 ^ 64)
        (h : ∀ kind before' rest', NodePlace H levels bits' before rest kind before' rest' →
          PlaceSafe kind before' rest') (hlevel : bits'.length = bits.length + 1) :
        Parses WitnessContext.p WitnessStop.IsError (nodeParser H levels bits') before rest
          (NodeBytes H levels bits') :=
      ih bits' before rest hsize h (by omega) (by omega)
    refine (parses_opcode hchild hsize
      (fun kind _ _ hplace => h kind _ _ ⟨hlast, Or.inl hplace⟩) rfl).andThen
        fun code rest₁ found hrest₁ hcode => ?_
    cases found with
    | some hash =>
      refine .of_pos (a := hash) (fun _ => rfl) (fun _ => rfl) ⟨hlast, Or.inl ?_⟩
      rw [List.append_nil]
      exact hcode.1
    | none =>
      subst hrest₁
      refine (parses_opcode hchild (by rwa [List.append_assoc]) (fun kind _ _ hplace =>
        h kind _ _ ⟨hlast, Or.inr ⟨code, rest₁, rfl, hcode.1, hplace⟩⟩) rfl).andThen
          fun node rest₂ found _ hnode => ?_
      cases found with
      | none => exact absurd rfl (hnode.2 rfl)
      | some hash =>
        refine .of_pos (a := hash) (fun _ => rfl) (fun _ => rfl)
          ⟨hlast, Or.inr ⟨code, node, ?_, hcode.1, hnode.1⟩⟩
        rw [List.append_nil]

/-! ## Ending the process -/

theorem stops_hash (h : ¬HashInField rest) :
    Stops WitnessContext.p hashParser before rest .exitProcess := by
  intro ctx hp
  have hroom : 32 ≤ rest.length := by
    by_contra hshort
    exact h fun hroom => absurd hroom hshort
  have hnone : scalar2hash (ba2scalar (rest.take 32)) = none :=
    Option.not_isSome_iff_eq_none.mp ((hashInField_iff hroom).not.mp h)
  unfold hashParser witnessHash
  rw [if_neg (by rw [hp, List.length_append]; omega), hp, List.drop_left, hnone]
  exact .of_eq _

section Child

variable {child : List Bool → WitnessParser Fea} {before' rest' : List UInt8}
  (hstops : ∀ bits before rest, (before ++ rest).length < 2 ^ 64 →
    childPlace bits before rest .hash before' rest' →
      Stops WitnessContext.p (child bits) before rest .exitProcess)
include hstops

theorem stops_left {maskBytes : List UInt8} {mask : ℕ} (hmask : ReadAs maskBytes (.u64 mask))
    (hchildren : mask = 1 ∨ mask = 3) (hsize : (before ++ (maskBytes ++ rest)).length < 2 ^ 64)
    (hplace : childPlace (bits ++ [false]) (before ++ maskBytes) rest .hash before' rest') :
    Stops WitnessContext.p (branchParser H child bits) before (maskBytes ++ rest) .exitProcess := by
  have hread : Accepts WitnessContext.p (2 ^ 64) (cborParser cbor2u64) maskBytes mask :=
    accepts_cborParser hmask rfl
  have hpresent : decide (mask ≠ 2) = true := decide_eq_true (by omega)
  rw [branchParser_eq]
  refine hread.andThen_stops hsize ?_
  rw [if_neg (by omega), hpresent]
  rw [← List.append_assoc] at hsize
  exact Stops.andThen (hstops _ _ _ hsize hplace)

variable (haccepts : ∀ bits bytes hash, childBytes bits bytes hash →
  Accepts WitnessContext.p (2 ^ 64) (child bits) bytes hash)
include haccepts

theorem stops_right {maskBytes left : List UInt8} {mask : ℕ} {leftHash : Fea}
    (hmask : ReadAs maskBytes (.u64 mask)) (hchildren : mask = 2 ∨ mask = 3)
    (hleft : ChildBytes childBytes (bits ++ [false]) (mask ≠ 2) left leftHash)
    (hsize : (before ++ (maskBytes ++ (left ++ rest))).length < 2 ^ 64)
    (hplace : childPlace (bits ++ [true]) (before ++ maskBytes ++ left) rest .hash before' rest') :
    Stops WitnessContext.p (branchParser H child bits) before (maskBytes ++ (left ++ rest))
      .exitProcess := by
  have hread : Accepts WitnessContext.p (2 ^ 64) (cborParser cbor2u64) maskBytes mask :=
    accepts_cborParser hmask rfl
  have hpresent : decide (mask ≠ 1) = true := decide_eq_true (by omega)
  rw [branchParser_eq]
  refine hread.andThen_stops hsize ?_
  rw [if_neg (by omega), hpresent]
  rw [← List.append_assoc] at hsize
  refine (accepts_child haccepts hleft).andThen_stops hsize ?_
  rw [← List.append_assoc] at hsize
  exact Stops.andThen (hstops _ _ _ hsize hplace)

theorem stops_opcode (hsize : (before ++ rest).length < 2 ^ 64)
    (h : OpcodePlace childBytes childPlace bits afterCode before rest .hash before' rest')
    (hhash : ¬HashInField rest') :
    Stops WitnessContext.p (opcodeParser H child bits afterCode) before rest .exitProcess := by
  rw [opcodeParser_eq]
  cases h with
  | @left maskBytes rest _ _ mask _ hmask hchildren hplace =>
    change Stops _ _ before ([0x02] ++ (maskBytes ++ rest)) _
    refine (accepts_byteParser 0x02).andThen_stops hsize ?_
    rw [if_pos rfl]
    rw [List.append_cons] at hsize
    exact Stops.andThen (stops_left hstops hmask hchildren hsize hplace)
  | @right maskBytes left rest _ _ mask leftHash _ hmask hchildren hleft hplace =>
    change Stops _ _ before ([0x02] ++ (maskBytes ++ (left ++ rest))) _
    refine (accepts_byteParser 0x02).andThen_stops hsize ?_
    rw [if_pos rfl]
    rw [List.append_cons] at hsize
    exact Stops.andThen (stops_right hstops haccepts hmask hchildren hleft hsize hplace)
  | hash =>
    change Stops _ _ before ([0x03] ++ rest') _
    refine (accepts_byteParser 0x03).andThen_stops hsize ?_
    rw [if_neg (by decide), if_neg (by decide), if_pos rfl]
    exact Stops.andThen (stops_hash hhash)

end Child

theorem stops_node {levels : ℕ} {before' rest' : List UInt8} (hhash : ¬HashInField rest')
    (bits : List Bool) (before rest : List UInt8) (hsize : (before ++ rest).length < 2 ^ 64)
    (h : NodePlace H levels bits before rest .hash before' rest') :
    Stops WitnessContext.p (nodeParser H levels bits) before rest .exitProcess := by
  induction levels generalizing bits before rest with
  | zero => exact h.elim
  | succ levels ih =>
    obtain ⟨hlevel, hplace | ⟨code, after, rfl, hcode, hplace⟩⟩ := h
    · rw [nodeParser_succ, if_neg (Nat.not_lt.mpr hlevel)]
      exact Stops.andThen (stops_opcode ih accepts_node hsize hplace hhash)
    · rw [nodeParser_succ, if_neg (Nat.not_lt.mpr hlevel)]
      refine (accepts_opcode accepts_node hcode fun _ => rfl).andThen_stops hsize (Stops.andThen ?_)
      rw [← List.append_assoc] at hsize
      exact stops_opcode ih accepts_node hsize hplace hhash

end Nodes

/-! ## Which bytes are parsed as they should be -/

/-- The places that parsing a witness comes to. -/
def WitnessComesTo (H : WitnessHash) (witness : List UInt8) (kind : WitnessPlace)
    (before rest : List UInt8) : Prop :=
  ∃ bytes, witness = 1 :: bytes ∧ NodePlace H 257 [] [1] bytes kind before rest

/-- The call ends, within the witness, with an error, or after the bytes of a node and with its hash. -/
def ParsesSafely (H : WitnessHash) (witness : List UInt8) : Prop :=
  (∃ stop, WitnessStop.IsError stop ∧ Settles (fun depth => witness2db H depth witness) (throw stop)) ∨
  ∃ bytes after hash ctx, witness = 1 :: (bytes ++ after) ∧ NodeBytes H 257 [] bytes hash ∧
    1 < ctx.p ∧ ctx.p = 1 + bytes.length ∧
    Settles (fun depth => witness2db H depth witness) (pure (hash2scalar hash, ctx))

section Total

variable {H : WitnessHash} {witness : List UInt8}

theorem OpcodeBytes.length_pos {child : List Bool → List UInt8 → Fea → Prop} {bits : List Bool}
    {bytes : List UInt8} {found : Option Fea} (h : OpcodeBytes H child bits bytes found) :
    0 < bytes.length := by
  cases h <;> exact Nat.succ_pos _

theorem NodeBytes.length_pos {levels : ℕ} {bits : List Bool} {bytes : List UInt8} {hash : Fea}
    (h : NodeBytes H levels bits bytes hash) : 0 < bytes.length := by
  cases levels with
  | zero => exact h.elim
  | succ levels =>
    obtain ⟨-, hopcode | ⟨code, node, rfl, hcode, -⟩⟩ := h
    · exact hopcode.length_pos
    · rw [List.length_append]
      exact Nat.add_pos_left hcode.length_pos _

theorem OpcodePlace.append_eq {child : List Bool → List UInt8 → Fea → Prop}
    {childPlace : List Bool → List UInt8 → List UInt8 → WitnessPlace → List UInt8 → List UInt8 → Prop}
    (hchild : ∀ bits before rest kind before' rest', childPlace bits before rest kind before' rest' →
      before ++ rest = before' ++ rest') {bits : List Bool} {afterCode : Bool} {kind : WitnessPlace}
    {before rest before' rest' : List UInt8}
    (h : OpcodePlace child childPlace bits afterCode before rest kind before' rest') :
    before ++ rest = before' ++ rest' := by
  cases h with
  | left _ _ hplace => simp [← hchild _ _ _ _ _ _ hplace]
  | right _ _ _ hplace => simp [← hchild _ _ _ _ _ _ hplace]
  | _ => simp

theorem NodePlace.append_eq {levels : ℕ} (bits : List Bool) (before rest : List UInt8)
    (kind : WitnessPlace) (before' rest' : List UInt8)
    (h : NodePlace H levels bits before rest kind before' rest') : before ++ rest = before' ++ rest' := by
  induction levels generalizing bits before rest kind before' rest' with
  | zero => exact h.elim
  | succ levels ih =>
    obtain ⟨-, hplace | ⟨code, after, rfl, -, hplace⟩⟩ := h
    · exact hplace.append_eq ih
    · rw [← List.append_assoc]
      exact hplace.append_eq ih

theorem WitnessComesTo.append_eq {kind : WitnessPlace} {before rest : List UInt8}
    (h : WitnessComesTo H witness kind before rest) : witness = before ++ rest := by
  obtain ⟨bytes, rfl, hplace⟩ := h
  exact NodePlace.append_eq _ _ _ _ _ _ hplace

/-- Where the places that are come to are safe, so is the call. -/
theorem parsesSafely_of_places (hsize : witness.length < 2 ^ 64)
    (h : ∀ kind before rest, WitnessComesTo H witness kind before rest → PlaceSafe kind before rest) :
    ParsesSafely H witness := by
  have hrefused (hwitness : ∀ depth, witness2db H depth witness = throw .invalidWitness) :
      ParsesSafely H witness :=
    Or.inl ⟨.invalidWitness, Or.inl rfl, 0, fun depth _ => hwitness depth⟩
  cases witness with
  | nil => exact hrefused fun _ => rfl
  | cons version bytes =>
    by_cases hversion : version = 1
    · subst hversion
      have hnode := parses_node [] [1] bytes hsize
        (fun kind before rest hplace => h kind before rest ⟨bytes, rfl, hplace⟩) (by decide) rfl
      unfold ParsesSafely
      simp only [witness2db_cons]
      obtain ⟨stop, hstop, hrun⟩ | ⟨node, after, hash, ctx, rfl, hnode, hp, hrun⟩ :=
        hnode { p := 1, db := [], programs := [], leaves := [] } rfl
      · exact Or.inl ⟨stop, hstop, hrun.bind_throw⟩
      · have hlen : ctx.p = 1 + node.length := by
          rw [hp, List.length_append, List.length_singleton]
        have hpos := hnode.length_pos
        exact Or.inr ⟨node, after, hash, ctx, rfl, hnode, by omega, hlen, hrun.bind (.of_eq _)⟩
    · refine hrefused fun depth => ?_
      rw [witness2db, if_neg (by simp)]
      exact if_pos hversion

theorem stops_witness {before rest : List UInt8} (hsize : witness.length < 2 ^ 64)
    (h : WitnessComesTo H witness .hash before rest) (hhash : ¬HashInField rest) :
    Settles (fun depth => witness2db H depth witness) (throw .exitProcess) := by
  obtain ⟨bytes, rfl, hplace⟩ := h
  simp only [witness2db_cons]
  exact (stops_node hhash [] [1] bytes hsize hplace _ rfl).bind_throw

/-- The items that are come to, those of arrays and after tags included, are decoded as they should be, and
the witness is parsed so, exactly when each item starts as it should and each hash is in the field. -/
theorem witness2db_total (H : WitnessHash) {before rest witness : List UInt8}
    (hsize : (before ++ rest).length < 2 ^ 64) (hwitness : witness.length < 2 ^ 64) :
    ((∀ before' rest', ComesTo before rest before' rest' → DecodesSafely before' rest') ↔
      ∀ before' rest', ComesTo before rest before' rest' → Regular before' rest') ∧
    ((ParsesSafely H witness ∧ ∀ before rest, WitnessComesTo H witness .item before rest →
        ∀ before' rest', ComesTo before rest before' rest' → DecodesSafely before' rest') ↔
      (∀ before rest, WitnessComesTo H witness .item before rest →
        ∀ before' rest', ComesTo before rest before' rest' → Regular before' rest') ∧
      ∀ before rest, WitnessComesTo H witness .hash before rest → HashInField rest) := by
  refine ⟨decodesSafely_iff_regular hsize, ?_⟩
  have hitems (before rest : List UInt8) (hplace : WitnessComesTo H witness .item before rest) :
      (before ++ rest).length < 2 ^ 64 := by
    rwa [← hplace.append_eq]
  constructor
  · rintro ⟨hsafe, hdecodes⟩
    refine ⟨fun before rest hplace => (decodesSafely_iff_regular (hitems _ _ hplace)).mp
      (hdecodes _ _ hplace), fun before rest hplace => ?_⟩
    by_contra hhash
    have hstops := stops_witness hwitness hplace hhash
    obtain ⟨stop, hstop, hrun⟩ | ⟨bytes, after, hash, ctx, -, -, -, -, hrun⟩ := hsafe
    · obtain rfl | rfl := hstop <;> cases hstops.unique hrun
    · exact absurd (hstops.unique hrun) (throw_ne_pure _)
  · rintro ⟨hregular, hhashes⟩
    have hdecodes (before rest : List UInt8) (hplace : WitnessComesTo H witness .item before rest) :=
      (decodesSafely_iff_regular (hitems _ _ hplace)).mpr (hregular _ _ hplace)
    refine ⟨parsesSafely_of_places hwitness fun kind before rest hplace => ?_, hdecodes⟩
    cases kind with
    | item => exact hdecodes _ _ hplace _ _ .here
    | hash => exact hhashes _ _ hplace

end Total

/-- No bytes at all, and a witness without a node. -/
theorem witness2db_total_sample :
    ¬(∀ before' rest', ComesTo [] [] before' rest' → DecodesSafely before' rest') ∧
    (ParsesSafely sampleWitnessHash [1] ∧
      ∀ before rest, WitnessComesTo sampleWitnessHash [1] .item before rest →
        ∀ before' rest', ComesTo before rest before' rest' → DecodesSafely before' rest') := by
  have hnone (kind : WitnessPlace) (before rest : List UInt8) :
      ¬WitnessComesTo sampleWitnessHash [1] kind before rest := by
    rintro ⟨bytes, hbytes, -, hplace | ⟨code, after, rfl, hcode, -⟩⟩
    · obtain rfl := (List.cons.inj hbytes).2
      cases hplace
    · obtain rfl := (List.append_eq_nil_iff.mp (List.cons.inj hbytes).2.symm).1
      cases hcode
  have htotal := @witness2db_total sampleWitnessHash [] [] [1] (by decide) (by decide)
  refine ⟨fun h => htotal.1.mp h _ _ .here, htotal.2.mpr ⟨?_, ?_⟩⟩
  · exact fun before rest hplace => absurd hplace (hnone _ _ _)
  · exact fun before rest hplace => absurd hplace (hnone _ _ _)

/-- An item is read after the last byte, a string of `2 ^ 64 - 9` bytes ends where it starts, and a hash
outside the field ends the process. -/
theorem witness2db_not_total :
    cbor2result 1 [] 0 = some (.success (.u64 0) 1) ∧ ¬DecodesSafely [] [] ∧
    cbor2result 1 (head 2 .eight (2 ^ 64 - 9)) 0 = some (.success (.ba []) 0) ∧
    ¬DecodesSafely [] (head 2 .eight (2 ^ 64 - 9)) ∧
    ∀ H, Settles (fun depth => witness2db H depth (0x01 :: 0x03 :: List.replicate 32 0xff))
      (throw .exitProcess) := by
  have hfits : Form.eight.Fits (2 ^ 64 - 9) := show 2 ^ 64 - 9 < 256 ^ 8 by decide
  refine ⟨rfl, fun h => h.regular (by decide), ?_, fun h => ?_, fun H => ?_⟩
  · have hhead := @cbor2result_head_eq 0 2 (2 ^ 64 - 9) .eight [] [] (by decide) hfits
    rw [List.append_nil, List.nil_append, List.append_nil] at hhead
    have hwraps : add64 9 (2 ^ 64 - 9) = 0 := by decide
    refine hhead.trans ?_
    rw [cborPayload, cborString, length_head, Form.width, hwraps, if_neg (Nat.not_lt_zero _),
      List.drop_of_length_le (by rw [length_head]; rfl), List.take_nil]
  · have hlength := (h.regular (by decide)).2 2 .eight (2 ^ 64 - 9) [] (Or.inl rfl) hfits rfl
    exact absurd hlength (by decide)
  · refine stops_witness (by decide) ⟨_, rfl, Nat.zero_le _, Or.inl .hash⟩ fun h => ?_
    exact absurd (h (by decide) 0 (by decide)) (by decide)

end ZkevmProver
