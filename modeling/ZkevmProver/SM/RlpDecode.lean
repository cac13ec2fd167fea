import Mathlib.Data.List.Basic
import Mathlib.Tactic.SplitIfs
import ZkevmProver.Lib.Fallible
import ZkevmProver.Lib.Rlp
import ZkevmProver.Utils.ByteArray

/-!
# `rlp_decode.cpp` of fork 8

The recursive decoder of nested lists.  What it says it consumed leaves out the bytes that hold a length.

1. Numbers
2. Lengths
3. Items
4. Lengths that are whole
5. Nested lists
6. Lengths that are cut
-/

namespace ZkevmProver

open BigEndian Rlp Fallible

namespace fork_8

/-- What ends a call early: an error that is returned, the end of the process, or a position beyond the
end given to `substr`. -/
inductive RLPFailure
  | unspecified
  | exitProcess
  | outOfRange
  deriving DecidableEq

/-- `none` where a call nests deeper than allowed for. -/
abbrev Decoding (α : Type) : Type := ExceptT RLPFailure Option α

/-! ## Numbers -/

def RLPStringToU64 (input : List UInt8) : Decoding ℕ :=
  if input.length > 8 then throw .unspecified
  else pure (input.foldl (fun output b => (256 * output + b.toNat) % 2 ^ 64) 0)

/-- The numbers that are no `uint64_t`. -/
def RLPStringToMpz (size : ℕ) (input : List UInt8) : Decoding ℕ :=
  if input.length > size then throw .unspecified
  else pure (input.foldl (fun output b => 256 * output + b.toNat) 0)

def RLPStringToU160 : List UInt8 → Decoding ℕ := RLPStringToMpz 20

def RLPStringToU256 : List UInt8 → Decoding ℕ := RLPStringToMpz 32

/-! ## Lengths -/

inductive RLPType
  | unknown
  | string
  | list
  deriving DecidableEq

/-- `substr` from a position on. -/
def substrFrom (input : List UInt8) (p : ℕ) : Decoding (List UInt8) :=
  if p > input.length then throw .outOfRange else pure (input.drop p)

/-- `substr` of `n` bytes, or what there is. -/
def substr (input : List UInt8) (p n : ℕ) : Decoding (List UInt8) := do
  let tail ← substrFrom input p
  pure (tail.take n)

/-- The offset of the data, its length and its type. -/
abbrev RLPLength : Type := ℕ × ℕ × RLPType

/-- The case of first bytes up to `upTo`, where these say the length above `base`. -/
def shortLength (input : List UInt8) (upTo base : ℕ) (type : RLPType) : Decoding (Option RLPLength) :=
  let firstByte := (charAt input 0).toNat
  if firstByte ≤ upTo then
    let dataLen := sub64 firstByte base
    if input.length > dataLen then pure (some (1, dataLen, type)) else pure none
  else pure none

/-- The case of first bytes up to `upTo`, where these say above `base` how many bytes the length takes. -/
def longLength (input : List UInt8) (upTo base : ℕ) (type : RLPType) : Decoding (Option RLPLength) :=
  let firstByte := (charAt input 0).toNat
  if firstByte ≤ upTo then
    let lenOfLen := sub64 firstByte base
    if input.length > lenOfLen then do
      let text ← substr input 1 lenOfLen
      let dataLen ← RLPStringToU64 text
      if input.length > add64 lenOfLen dataLen then pure (some (add64 1 lenOfLen, dataLen, type))
      else pure none
    else pure none
  else pure none

/-- The next case is tried where the test inside one fails. -/
def orNext (thisCase : Decoding (Option RLPLength)) (next : Decoding RLPLength) : Decoding RLPLength := do
  match ← thisCase with
  | some length => pure length
  | none => next

def RLPDecodeLength (input : List UInt8) : Decoding RLPLength :=
  if input.length = 0 then throw .unspecified
  else if (charAt input 0).toNat ≤ 0x7f then pure (0, 1, .string)
  else
    orNext (shortLength input 0xb7 0x80 .string) <|
    orNext (longLength input 0xbf 0xb7 .string) <|
    orNext (shortLength input 0xf7 0xc0 .list) <|
    orNext (longLength input 0xff 0xf7 .list) <|
    throw .unspecified

/-! ## Items -/

structure RLPData where
  type : RLPType
  data : List UInt8
  dataWithLength : List UInt8
  rlpData : List RLPData

/-- The item at the start of the input, where `decodeList` decodes the content of a list. -/
def decodeItem (decodeList : List UInt8 → Decoding (List RLPData × ℕ)) (input : List UInt8)
    (rlpType : RLPType) (offset dataLength : ℕ) : RLPType → Decoding RLPData
  | .string =>
    if rlpType = .list then throw .unspecified
    else do
      let data ← substr input offset dataLength
      let dataWithLength ← substr input 0 (add64 offset dataLength)
      pure { type := .string, data, dataWithLength, rlpData := [] }
  | .list =>
    if rlpType = .string then throw .unspecified
    else do
      let data ← substr input offset dataLength
      let dataWithLength ← substr input 0 (add64 offset dataLength)
      let (rlpData, _) ← decodeList data
      pure { type := .list, data, dataWithLength, rlpData }
  | .unknown => throw .exitProcess

/-- The output with the items at its end, and `consumedBytes`, which an empty input leaves as it was. -/
def RLPDecode : ℕ → List UInt8 → RLPType → List RLPData → ℕ → Decoding (List RLPData × ℕ)
  | 0, _, _, _, _ => ExceptT.mk none
  | depth + 1, input, rlpType, output, consumedBytes =>
    if input.length = 0 then pure (output, consumedBytes)
    else do
      let (offset, dataLength, type) ← RLPDecodeLength input
      -- the count of the inner call goes to a variable that nothing reads
      let rlpData ← decodeItem (fun data => RLPDecode depth data .unknown [] 0) input rlpType offset
        dataLength type
      let output := output ++ [rlpData]
      let consumedBytes := add64 dataLength 1
      if rlpType ≠ .unknown then pure (output, consumedBytes)
      else
        let rest ← substrFrom input (add64 offset dataLength)
        let (output, consumedBytes) ← RLPDecode depth rest .unknown output consumedBytes
        pure (output, add64 consumedBytes dataLength)

/-! ## Lengths that are whole -/

section Lengths

variable {input tail : List UInt8} {upTo base : ℕ} {type : RLPType}

theorem RLPStringToMpz_eq {size : ℕ} (h : input.length ≤ size) :
    RLPStringToMpz size input = pure (value input) := by
  rw [RLPStringToMpz, if_neg (Nat.not_lt.mpr h), value]
  simp only [Nat.mul_comm 256]

theorem RLPStringToU64_eq (h : input.length ≤ 8) : RLPStringToU64 input = pure (value input) := by
  rw [RLPStringToU64, if_neg (Nat.not_lt.mpr h)]
  congr 1
  induction input using List.reverseRecOn with
  | nil => rfl
  | append_singleton input b ih =>
    have hlt := value_lt (input ++ [b])
    have hpow : 256 ^ (input ++ [b]).length ≤ 256 ^ 8 := Nat.pow_le_pow_right (by decide) h
    rw [List.length_append] at h
    rw [List.foldl_append, ih (by omega), List.foldl_cons, List.foldl_nil]
    rw [value_concat] at hlt ⊢
    rw [Nat.mul_comm 256]
    exact Nat.mod_eq_of_lt (hlt.trans_le hpow)

theorem substr_eq {p n : ℕ} (h : p ≤ input.length) : substr input p n = pure ((input.drop p).take n) := by
  rw [substr, substrFrom, if_neg (Nat.not_lt.mpr h), pure_bind]

@[simp] theorem orNext_some (length : RLPLength) (next : Decoding RLPLength) :
    orNext (pure (some length)) next = pure length := rfl

@[simp] theorem orNext_none (next : Decoding RLPLength) : orNext (pure none) next = next := rfl

theorem shortLength_of_lt (h : upTo < (charAt input 0).toNat) :
    shortLength input upTo base type = pure none := if_neg (Nat.not_le.mpr h)

theorem longLength_of_lt (h : upTo < (charAt input 0).toNat) :
    longLength input upTo base type = pure none := if_neg (Nat.not_le.mpr h)

/-- A first byte below the base makes the length huge. -/
theorem lt_sub64 {a b : ℕ} (hlen : input.length < 2 ^ 63) (h : a < b) (hb : b ≤ 255) :
    ¬input.length > sub64 a b := by
  rw [sub64]
  omega

theorem shortLength_of_gt (hlen : input.length < 2 ^ 63) (h : (charAt input 0).toNat < base)
    (hbase : base ≤ 255) : shortLength input upTo base type = pure none := by
  unfold shortLength
  simp only [if_neg (lt_sub64 hlen h hbase), ite_self]

theorem longLength_of_gt (hlen : input.length < 2 ^ 63) (h : (charAt input 0).toNat < base)
    (hbase : base ≤ 255) : longLength input upTo base type = pure none := by
  unfold longLength
  simp only [if_neg (lt_sub64 hlen h hbase), ite_self]

theorem toNat_toUInt8 {n : ℕ} (h : n ≤ 255) : n.toUInt8.toNat = n := by
  simpa using Nat.mod_eq_of_lt (Nat.lt_succ_of_le h)

/-- The two cases of a type at a first byte that says the length. -/
theorem shortLength_header {offset n : ℕ} (hn : n ≤ 55) (hoffset : offset ≤ 0xc0) :
    shortLength ((offset + n).toUInt8 :: tail) (offset + 55) offset type =
      if n ≤ tail.length then pure (some (1, n, type)) else pure none := by
  have hfirst : (charAt ((offset + n).toUInt8 :: tail) 0).toNat = offset + n :=
    toNat_toUInt8 (by omega)
  have hsub : sub64 (offset + n) offset = n := by
    rw [sub64_of_le (by omega) (by omega)]
    omega
  unfold shortLength
  simp only [hfirst, if_pos (Nat.add_le_add_left hn offset), hsub, List.length_cons, gt_iff_lt,
    Nat.lt_succ_iff]

theorem longLength_header {offset : ℕ} {be : List UInt8} (hlen : be.length ≤ 8)
    (hoffset : offset ≤ 0xc0) (hsize : be.length + value be < 2 ^ 64) :
    longLength ((offset + 55 + be.length).toUInt8 :: (be ++ tail)) (offset + 63) (offset + 55) type =
      if value be ≤ tail.length then pure (some (1 + be.length, value be, type)) else pure none := by
  have hfirst : (charAt ((offset + 55 + be.length).toUInt8 :: (be ++ tail)) 0).toNat =
      offset + 55 + be.length := toNat_toUInt8 (by omega)
  have hsub : sub64 (offset + 55 + be.length) (offset + 55) = be.length := by
    rw [sub64_of_le (by omega) (by omega)]
    omega
  have htext : substr ((offset + 55 + be.length).toUInt8 :: (be ++ tail)) 1 be.length = pure be := by
    rw [substr_eq (by simp), List.drop_succ_cons, List.drop_zero, List.take_left]
  unfold longLength
  simp only [hfirst, hsub]
  rw [if_pos (by omega), if_pos (by rw [List.length_cons, List.length_append]; omega), htext, pure_bind, RLPStringToU64_eq hlen, pure_bind,
    add64_of_lt hsize, add64_of_lt (by omega)]
  have hiff : ((offset + 55 + be.length).toUInt8 :: (be ++ tail)).length > be.length + value be ↔
      value be ≤ tail.length := by
    rw [List.length_cons, List.length_append]
    omega
  simp only [hiff]

/-- A length whose data is there. -/
theorem orNext_header {offset n : ℕ} (hoffset : offset ≤ 0xc0) (hn : n ≤ tail.length)
    (hlen : (header offset n ++ tail).length < 2 ^ 63) (next : Decoding RLPLength) :
    (orNext (shortLength (header offset n ++ tail) (offset + 55) offset type) <|
      orNext (longLength (header offset n ++ tail) (offset + 63) (offset + 55) type) next) =
      pure ((header offset n).length, n, type) := by
  by_cases hshort : n ≤ 55
  · rw [header_short hshort, List.singleton_append, shortLength_header hshort hoffset, if_pos hn,
      orNext_some, List.length_singleton]
  · have hwidth : width n ≤ 8 := width_le.mpr (by rw [List.length_append] at hlen; omega)
    have hfirst : (charAt (header offset n ++ tail) 0).toNat = offset + 55 + width n := by
      rw [header_long (Nat.not_le.mp hshort), List.cons_append]
      exact toNat_toUInt8 (by omega)
    have hpos : 0 < width n := width_pos.mpr (by omega)
    rw [shortLength_of_lt (by omega), orNext_none]
    have hlong := @longLength_header tail type _ (shortest n)
      (by rwa [length_shortest]) hoffset
      (by rw [length_shortest, value_shortest, List.length_append] at *; omega)
    rw [length_shortest, value_shortest, if_pos hn, ← List.cons_append,
      ← header_long (Nat.not_le.mp hshort)] at hlong
    rw [hlong, orNext_some, length_header, if_neg hshort]

theorem toNat_header_le {offset n : ℕ} (hoffset : offset ≤ 0xc0) (hn : n < 256 ^ 8) :
    offset ≤ (charAt (header offset n ++ tail) 0).toNat ∧
      (charAt (header offset n ++ tail) 0).toNat ≤ offset + 63 := by
  have hwidth : width n ≤ 8 := width_le.mpr hn
  by_cases hshort : n ≤ 55
  · have hfirst : (charAt (header offset n ++ tail) 0).toNat = offset + n := by
      rw [header_short hshort]
      exact toNat_toUInt8 (by omega)
    omega
  · have hfirst : (charAt (header offset n ++ tail) 0).toNat = offset + 55 + width n := by
      rw [header_long (Nat.not_le.mp hshort), List.cons_append]
      exact toNat_toUInt8 (by omega)
    omega

theorem header_append_ne_nil (offset n : ℕ) : (header offset n ++ tail).length ≠ 0 := by
  rw [List.length_append, length_header]
  split_ifs <;> omega

theorem RLPDecodeLength_list {n : ℕ} (hn : n ≤ tail.length)
    (hlen : (header 0xc0 n ++ tail).length < 2 ^ 63) :
    RLPDecodeLength (header 0xc0 n ++ tail) = pure ((header 0xc0 n).length, n, .list) := by
  have hsize : n < 256 ^ 8 := by
    rw [List.length_append] at hlen
    omega
  obtain ⟨hge, -⟩ := @toNat_header_le tail _ _ (le_refl 0xc0) hsize
  rw [RLPDecodeLength, if_neg (header_append_ne_nil _ _), if_neg (by omega),
    shortLength_of_lt (by omega), orNext_none, longLength_of_lt (by omega), orNext_none]
  exact orNext_header le_rfl hn hlen _

theorem RLPDecodeLength_string (content rest : List UInt8)
    (hlen : (encodeBytes content ++ rest).length < 2 ^ 63) :
    RLPDecodeLength (encodeBytes content ++ rest) =
      pure ((stringHeader content).length, content.length, .string) := by
  have hheaded (content : List UInt8)
      (hlen : (header 0x80 content.length ++ (content ++ rest)).length < 2 ^ 63) :
      RLPDecodeLength (header 0x80 content.length ++ (content ++ rest)) =
        pure ((header 0x80 content.length).length, content.length, .string) := by
    have hsize : content.length < 256 ^ 8 := by
      rw [List.length_append, List.length_append] at hlen
      omega
    obtain ⟨hge, -⟩ := @toNat_header_le (content ++ rest) _ _ (show 0x80 ≤ 0xc0 by decide) hsize
    rw [RLPDecodeLength, if_neg (header_append_ne_nil _ _), if_neg (by omega)]
    refine orNext_header (by decide) ?_ hlen _
    rw [List.length_append]
    exact Nat.le_add_right _ _
  rw [encodeBytes_eq, List.append_assoc] at hlen ⊢
  unfold stringHeader at hlen ⊢
  split
  · split_ifs with hb
    · rw [RLPDecodeLength, if_neg (by simp), if_pos]
      · rfl
      · exact UInt8.le_iff_toNat_le.mp hb
    · exact hheaded [_] (by simpa [hb] using hlen)
  · rename_i hne
    refine hheaded content ?_
    split at hlen
    · exact absurd rfl (hne _)
    · exact hlen

end Lengths

/-! ## Nested lists -/

mutual

/-- What decoding an item gives. -/
def itemData : Item → RLPData
  | .bytes content =>
    { type := .string, data := content, dataWithLength := encodeBytes content, rlpData := [] }
  | .list items =>
    { type := .list, data := encodeAll items, dataWithLength := (Item.list items).encode,
      rlpData := itemsData items }

def itemsData : List Item → List RLPData
  | [] => []
  | item :: items => itemData item :: itemsData items

end

def itemType : Item → RLPType
  | .bytes _ => .string
  | .list _ => .list

/-- The types that a call may ask for where an item is. -/
def Admits (rlpType : RLPType) (item : Item) : Prop := rlpType = .unknown ∨ rlpType = itemType item

section Items

variable {item : Item} {rest : List UInt8} {rlpType : RLPType}

theorem RLPDecodeLength_item (item : Item) (hlen : (item.encode ++ rest).length < 2 ^ 63) :
    RLPDecodeLength (item.encode ++ rest) =
      pure (item.header.length, item.content.length, itemType item) := by
  cases item with
  | bytes content =>
    rw [Item.encode] at hlen ⊢
    exact RLPDecodeLength_string content rest hlen
  | list items =>
    rw [Item.encode, List.append_assoc] at hlen ⊢
    exact RLPDecodeLength_list (by simp) hlen

theorem decodeItem_item {decodeList : List UInt8 → Decoding (List RLPData × ℕ)}
    (hlen : (item.encode ++ rest).length < 2 ^ 63) (hadmits : Admits rlpType item)
    (hlist : ∀ items, item = .list items → ∃ c, decodeList (encodeAll items) = pure (itemsData items, c)) :
    decodeItem decodeList (item.encode ++ rest) rlpType item.header.length item.content.length
      (itemType item) = pure (itemData item) := by
  have hdata : substr (item.encode ++ rest) item.header.length item.content.length =
      pure item.content := by
    rw [substr_eq (by rw [List.length_append, item.length_encode]; omega), item.encode_eq,
      List.append_assoc, List.drop_left, List.take_left]
  have hwhole : substr (item.encode ++ rest) 0 (add64 item.header.length item.content.length) =
      pure item.encode := by
    rw [List.length_append, item.length_encode] at hlen
    rw [add64_of_lt (by omega), substr_eq (Nat.zero_le _), List.drop_zero, ← item.length_encode,
      List.take_left]
  cases item with
  | bytes content =>
    have htype : rlpType ≠ .list := by
      obtain rfl | rfl := hadmits <;> simp [itemType]
    rw [itemType, decodeItem, if_neg htype, hdata, pure_bind, hwhole, pure_bind, itemData,
      Item.content, Item.encode]
  | list items =>
    have htype : rlpType ≠ .string := by
      obtain rfl | rfl := hadmits <;> simp [itemType]
    obtain ⟨c, hc⟩ := hlist items rfl
    rw [itemType, decodeItem, if_neg htype, hdata, pure_bind, hwhole, pure_bind,
      Item.content, hc, pure_bind, itemData]

/-- The call at an item. -/
theorem RLPDecode_item {depth : ℕ} (output : List RLPData) (c : ℕ)
    (hlen : (item.encode ++ rest).length < 2 ^ 63) (hadmits : Admits rlpType item)
    (hlist : ∀ items, item = .list items →
      ∃ c, RLPDecode depth (encodeAll items) .unknown [] 0 = pure (itemsData items, c)) :
    RLPDecode (depth + 1) (item.encode ++ rest) rlpType output c =
      if rlpType ≠ .unknown then pure (output ++ [itemData item], add64 item.content.length 1)
      else
        RLPDecode depth rest .unknown (output ++ [itemData item]) (add64 item.content.length 1) >>=
          fun (output, consumedBytes) => pure (output, add64 consumedBytes item.content.length) := by
  have hpos := item.length_encode_pos
  have hne : (item.encode ++ rest).length ≠ 0 := by
    rw [List.length_append]
    omega
  have hrest : substrFrom (item.encode ++ rest) (add64 item.header.length item.content.length) =
      pure rest := by
    rw [List.length_append, item.length_encode] at hlen
    rw [add64_of_lt (by omega), ← item.length_encode, substrFrom, if_neg (by simp), List.drop_left]
  rw [RLPDecode, if_neg hne, RLPDecodeLength_item item hlen, pure_bind]
  dsimp only
  rw [decodeItem_item hlen hadmits hlist, pure_bind]
  split_ifs with htype
  · rfl
  · rw [hrest, pure_bind]

end Items

/-- Items one after the other are decoded, whatever the depth beyond the number of their bytes. -/
theorem RLPDecode_items (depth : ℕ) (items : List Item) (output : List RLPData) (c : ℕ)
    (hlen : (encodeAll items).length < 2 ^ 63) (hdepth : (encodeAll items).length < depth) :
    ∃ c', RLPDecode depth (encodeAll items) .unknown output c = pure (output ++ itemsData items, c') := by
  induction depth generalizing items output c with
  | zero => exact absurd hdepth (Nat.not_lt_zero _)
  | succ depth ih =>
    cases items with
    | nil =>
      rw [encodeAll, itemsData, List.append_nil]
      exact ⟨c, rfl⟩
    | cons item items =>
      have hpos := item.length_encode_pos
      rw [encodeAll] at hlen hdepth ⊢
      have hsplit := hlen
      rw [List.length_append] at hsplit hdepth
      have hlist (inner : List Item) (hitem : item = .list inner) :
          ∃ c, RLPDecode depth (encodeAll inner) .unknown [] 0 = pure (itemsData inner, c) := by
        have hheader := header_length_pos 0xc0 (encodeAll inner).length
        have hinner := item.length_encode
        rw [hitem, Item.header, Item.content, ← hitem] at hinner
        exact ih inner [] 0 (by omega) (by omega)
      obtain ⟨c', hc'⟩ := ih items (output ++ [itemData item]) (add64 item.content.length 1)
        (by omega) (by omega)
      rw [RLPDecode_item output c hlen (Or.inl rfl) hlist, if_neg (not_not.mpr rfl), hc', pure_bind,
        itemsData, List.append_assoc, List.singleton_append]
      exact ⟨_, rfl⟩

/-- A list alone, with the count that is returned for it. -/
theorem RLPDecode_list {depth : ℕ} {items : List Item} {rlpType : RLPType} (c : ℕ)
    (hlen : (Item.list items).encode.length < 2 ^ 63)
    (hdepth : (Item.list items).encode.length < depth) (htype : rlpType ≠ .string) :
    RLPDecode depth (Item.list items).encode rlpType [] c =
      pure ([itemData (.list items)],
        if rlpType = .unknown then 2 * (encodeAll items).length + 1
        else (encodeAll items).length + 1) := by
  have hheader := header_length_pos 0xc0 (encodeAll items).length
  have hsplit := (Item.list items).length_encode
  rw [Item.header, Item.content] at hsplit
  have hadmits : Admits rlpType (.list items) := by
    cases rlpType with
    | unknown => exact Or.inl rfl
    | string => exact absurd rfl htype
    | list => exact Or.inr rfl
  cases depth with
  | zero => exact absurd hdepth (Nat.not_lt_zero _)
  | succ depth =>
    have hcall := @RLPDecode_item _ [] _ depth [] c (by rwa [List.append_nil]) hadmits
      fun inner hinner => by
        obtain rfl := Item.list.inj hinner
        exact RLPDecode_items depth items [] 0 (by omega) (by omega)
    rw [List.append_nil, List.nil_append, Item.content, add64_of_lt (by omega)] at hcall
    rw [hcall]
    by_cases hunknown : rlpType = .unknown
    · cases depth with
      | zero => omega
      | succ depth =>
        rw [if_neg (not_not.mpr hunknown), if_pos hunknown, RLPDecode, if_pos List.length_nil, pure_bind]
        dsimp only
        rw [add64_of_lt (by omega), Nat.add_right_comm, ← Nat.two_mul]
    · rw [if_pos hunknown, if_neg hunknown]

/-! ## Any lengths -/

section Any

variable {input : List UInt8} {upTo base : ℕ} {type : RLPType} {length : RLPLength}

/-- A length of data that is there as far as the sum of `uint64_t` tells. -/
def Announces (input : List UInt8) (length : RLPLength) : Prop :=
  ∃ w dataLen type, w ≤ 8 ∧ dataLen < 2 ^ 64 ∧ length = (1 + w, dataLen, type) ∧
    add64 w dataLen < input.length

theorem shortLength_eq_some (hlen : input.length < 2 ^ 63)
    (h : shortLength input upTo base type = pure (some length)) : Announces input length := by
  unfold shortLength at h
  dsimp only at h
  split_ifs at h with hfirst hdata
  · refine ⟨0, sub64 (charAt input 0).toNat base, type, Nat.zero_le _, ?_, ?_, ?_⟩
    · exact Nat.mod_lt _ (by decide)
    · exact (Option.some.inj (pure_injective h)).symm
    · rw [add64_of_lt (by omega)]
      omega
  · cases pure_injective h
  · cases pure_injective h

theorem RLPStringToU64_eq_pure {n : ℕ} (h : RLPStringToU64 input = pure n) :
    input.length ≤ 8 ∧ n < 2 ^ 64 := by
  by_cases hle : input.length ≤ 8
  · rw [RLPStringToU64_eq hle] at h
    rw [← pure_injective h]
    exact ⟨hle, (value_lt input).trans_le (Nat.pow_le_pow_right (by decide) hle)⟩
  · rw [RLPStringToU64, if_pos (Nat.not_le.mp hle)] at h
    exact absurd h (throw_ne_pure _)

theorem longLength_eq_some (h : longLength input upTo base type = pure (some length)) :
    Announces input length := by
  unfold longLength at h
  dsimp only at h
  split_ifs at h with hfirst hsize
  · rw [substr_eq (by omega), pure_bind] at h
    obtain ⟨dataLen, htext, h⟩ := bind_eq_pure h
    obtain ⟨hwidth, hlt⟩ := RLPStringToU64_eq_pure htext
    rw [List.length_take, List.length_drop] at hwidth
    split_ifs at h with hdata
    · refine ⟨_, dataLen, type, ?_, hlt, ?_, hdata⟩
      · omega
      · rw [← Option.some.inj (pure_injective h), add64_of_lt (by omega)]
    · cases pure_injective h
  · cases pure_injective h
  · cases pure_injective h

theorem orNext_eq_pure {thisCase : Decoding (Option RLPLength)} {next : Decoding RLPLength}
    (h : orNext thisCase next = pure length) : thisCase = pure (some length) ∨ next = pure length := by
  obtain ⟨found, hcase, h⟩ := bind_eq_pure h
  cases found with
  | none => exact Or.inr h
  | some found => exact Or.inl (by rw [hcase, pure_injective h])

/-- Every length but that of a single small byte is announced. -/
theorem announces_of_RLPDecodeLength (hlen : input.length < 2 ^ 63)
    (h : RLPDecodeLength input = pure length) : length = (0, 1, .string) ∨ Announces input length := by
  unfold RLPDecodeLength at h
  split_ifs at h
  · exact absurd h (throw_ne_pure _)
  · exact Or.inl (pure_injective h).symm
  · right
    obtain h | h := orNext_eq_pure h
    · exact shortLength_eq_some hlen h
    obtain h | h := orNext_eq_pure h
    · exact longLength_eq_some h
    obtain h | h := orNext_eq_pure h
    · exact shortLength_eq_some hlen h
    obtain h | h := orNext_eq_pure h
    · exact longLength_eq_some h
    · exact absurd h (throw_ne_pure _)

/-- What a call that wants a list returns. -/
theorem RLPDecode_eq_pure_list {depth c consumedBytes : ℕ} {output : List RLPData}
    (hne : input.length ≠ 0) (h : RLPDecode depth input .list [] c = pure (output, consumedBytes)) :
    ∃ offset dataLength list, RLPDecodeLength input = pure (offset, dataLength, .list) ∧
      output = [list] ∧ list.dataWithLength = input.take (add64 offset dataLength) ∧
      consumedBytes = add64 dataLength 1 := by
  cases depth with
  | zero => cases h
  | succ depth =>
    rw [RLPDecode, if_neg hne] at h
    obtain ⟨⟨offset, dataLength, type⟩, hlength, h⟩ := bind_eq_pure h
    obtain ⟨list, hitem, h⟩ := bind_eq_pure h
    rw [if_pos (by decide)] at h
    obtain ⟨rfl, rfl⟩ := Prod.mk.inj (pure_injective h)
    cases type with
    | unknown => exact absurd hitem (throw_ne_pure _)
    | string => exact absurd hitem (throw_ne_pure _)
    | list =>
      refine ⟨offset, dataLength, list, hlength, rfl, ?_, rfl⟩
      rw [decodeItem, if_neg (by decide)] at hitem
      obtain ⟨data, -, hitem⟩ := bind_eq_pure hitem
      rw [substr_eq (Nat.zero_le _), pure_bind] at hitem
      obtain ⟨rlpData, -, hitem⟩ := bind_eq_pure hitem
      rw [← pure_injective hitem]
      rfl

end Any

/-! ## Lengths that are cut -/

section Cut

variable {tail : List UInt8} {n : ℕ}

/-- Data of 55 bytes that is not whole is taken for a length of no bytes. -/
theorem RLPDecodeLength_list_cut_short (hn : n ≤ 55) (hcut : tail.length < n) :
    RLPDecodeLength ((0xc0 + n).toUInt8 :: tail) =
      if n = 55 then pure (1, 0, .list) else throw .unspecified := by
  have hfirst : (charAt ((0xc0 + n).toUInt8 :: tail) 0).toNat = 0xc0 + n := toNat_toUInt8 (by omega)
  have hmiss := @shortLength_header tail .list _ _ hn (le_refl 0xc0)
  rw [if_neg (Nat.not_le.mpr hcut)] at hmiss
  rw [RLPDecodeLength, if_neg (by simp), if_neg (by omega), shortLength_of_lt (by omega), orNext_none,
    longLength_of_lt (by omega), orNext_none, hmiss, orNext_none]
  split_ifs with hfull
  · have hnone := @longLength_header tail .list _ [] (Nat.zero_le _)
      (le_refl 0xc0) (by decide)
    rw [value_nil, List.nil_append, List.length_nil, Nat.add_zero, if_pos (Nat.zero_le _)] at hnone
    rw [hfull, hnone, orNext_some]
  · rw [longLength_of_gt (by rw [List.length_cons]; omega) (by omega) (by decide), orNext_none]

theorem RLPDecodeLength_string_cut_short (hn : n < 55) (hcut : tail.length < n) :
    RLPDecodeLength ((0x80 + n).toUInt8 :: tail) = throw .unspecified := by
  have hfirst : (charAt ((0x80 + n).toUInt8 :: tail) 0).toNat = 0x80 + n := toNat_toUInt8 (by omega)
  have hlen : ((0x80 + n).toUInt8 :: tail).length < 2 ^ 63 := by
    rw [List.length_cons]
    omega
  have hmiss := @shortLength_header tail .string _ _ hn.le (show 0x80 ≤ 0xc0 by decide)
  rw [if_neg (Nat.not_le.mpr hcut)] at hmiss
  rw [RLPDecodeLength, if_neg (by simp), if_neg (by omega), hmiss, orNext_none,
    longLength_of_gt hlen (by omega) (by decide), orNext_none,
    shortLength_of_gt hlen (by omega) (by decide), orNext_none,
    longLength_of_gt hlen (by omega) (by decide), orNext_none]

/-- A long form that is cut, be it in the length or in the data. -/
theorem RLPDecodeLength_list_cut_long {k : ℕ} (hn : 55 < n) (hsize : n < 2 ^ 63) (hpos : 0 < k)
    (hcut : k < (header 0xc0 n).length + n) :
    RLPDecodeLength ((header 0xc0 n ++ tail).take k) = throw .unspecified := by
  obtain ⟨k, rfl⟩ := Nat.exists_eq_add_of_le' hpos
  have hwidth : width n ≤ 8 := width_le.mpr (by omega)
  have hwpos : 0 < width n := width_pos.mpr (by omega)
  rw [length_header, if_neg (Nat.not_le.mpr hn)] at hcut
  rw [header_long hn, List.cons_append, List.take_succ_cons]
  generalize hinput : (0xc0 + 55 + width n).toUInt8 :: (shortest n ++ tail).take k = input
  have hfirst : (charAt input 0).toNat = 0xc0 + 55 + width n := by
    rw [← hinput]
    exact toNat_toUInt8 (by omega)
  have hmiss : longLength input 0xff 0xf7 .list = pure none := by
    obtain hhead | hdata := Nat.lt_or_ge k (width n)
    · have hsub : sub64 (0xc0 + 55 + width n) 0xf7 = width n := by
        rw [sub64_of_le (by omega) (by omega)]
        omega
      have hshort : ¬input.length > width n := by
        rw [← hinput, List.length_cons, List.length_take]
        omega
      unfold longLength
      simp only [hfirst, hsub, if_neg hshort, ite_self]
    · have hlong := @longLength_header (tail.take (k - width n)) .list _ (shortest n)
        (by rwa [length_shortest]) (le_refl 0xc0)
        (by rw [length_shortest, value_shortest]; omega)
      rw [length_shortest, value_shortest, if_neg (by rw [List.length_take]; omega)] at hlong
      rw [← hinput, List.take_append, length_shortest,
        List.take_of_length_le (by rwa [length_shortest])]
      exact hlong
  have hne : input.length ≠ 0 := by
    rw [← hinput]
    simp
  rw [RLPDecodeLength, if_neg hne, if_neg (by omega), shortLength_of_lt (by omega), orNext_none,
    longLength_of_lt (by omega), orNext_none, shortLength_of_lt (by omega), orNext_none, hmiss,
    orNext_none]

/-- An item of at most 55 bytes that is cut. -/
theorem RLPDecodeLength_item_cut {item : Item} {k : ℕ} (hsize : item.encode.length ≤ 55) (hpos : 0 < k)
    (hcut : k < item.encode.length) : RLPDecodeLength (item.encode.take k) = throw .unspecified := by
  obtain ⟨k, rfl⟩ := Nat.exists_eq_add_of_le' hpos
  have htail (content : List UInt8) (hk : k < content.length) :
      (content.take k).length < content.length := by
    rw [List.length_take]
    exact (Nat.min_le_left _ _).trans_lt hk
  cases item with
  | bytes content =>
    have hsplit := (Item.bytes content).length_encode
    rw [Item.header, Item.content] at hsplit
    obtain hempty | hshort : stringHeader content = [] ∧ content.length = 1 ∨
        stringHeader content = header 0x80 content.length := by
      unfold stringHeader
      split
      · split_ifs
        · exact Or.inl ⟨rfl, rfl⟩
        · exact Or.inr rfl
      · exact Or.inr rfl
    · rw [hempty.1, hempty.2, List.length_nil] at hsplit
      omega
    · have hheader := header_length_pos 0x80 content.length
      rw [hshort] at hsplit
      rw [Item.encode, encodeBytes_eq, hshort, header_short (by omega), List.singleton_append,
        List.take_succ_cons]
      rw [header_short (by omega), List.length_singleton] at hsplit
      exact RLPDecodeLength_string_cut_short (by omega) (htail content (by omega))
  | list items =>
    have hheader := header_length_pos 0xc0 (encodeAll items).length
    have hsplit := (Item.list items).length_encode
    rw [Item.header, Item.content] at hsplit
    rw [header_short (by omega), List.length_singleton] at hsplit
    rw [Item.encode, header_short (by omega), List.singleton_append, List.take_succ_cons,
      RLPDecodeLength_list_cut_short (by omega) (htail _ (by omega)), if_neg (by omega)]

theorem RLPDecode_of_length_error {depth : ℕ} {input : List UInt8} {rlpType : RLPType}
    {output : List RLPData} {c : ℕ} (hne : input.length ≠ 0)
    (h : RLPDecodeLength input = throw .unspecified) :
    RLPDecode (depth + 1) input rlpType output c = throw .unspecified := by
  rw [RLPDecode, if_neg hne, h, throw_bind]

/-- The first `k` bytes are whole items. -/
def AtBoundary (items : List Item) (k : ℕ) : Prop := ∃ n, k = (encodeAll (items.take n)).length

theorem atBoundary_zero (items : List Item) : AtBoundary items 0 :=
  ⟨0, by rw [List.take_zero, encodeAll, List.length_nil]⟩

theorem atBoundary_cons {item : Item} {items : List Item} {k : ℕ} (hpos : 0 < k) :
    AtBoundary (item :: items) k ↔ item.encode.length ≤ k ∧ AtBoundary items (k - item.encode.length) := by
  constructor
  · rintro ⟨n, hk⟩
    cases n with
    | zero =>
      rw [List.take_zero, encodeAll, List.length_nil] at hk
      exact absurd hk hpos.ne'
    | succ n =>
      rw [List.take_succ_cons, encodeAll, List.length_append] at hk
      exact ⟨by omega, n, by omega⟩
  · rintro ⟨hle, n, hk⟩
    refine ⟨n + 1, ?_⟩
    rw [List.take_succ_cons, encodeAll, List.length_append]
    omega

/-- Items of at most 55 bytes that are cut. -/
theorem RLPDecode_items_take (depth : ℕ) (items : List Item) (k : ℕ) (output : List RLPData) (c : ℕ)
    (hsize : (encodeAll items).length ≤ 55) (hk : k ≤ (encodeAll items).length) (hdepth : k < depth) :
    (AtBoundary items k →
      ∃ result, RLPDecode depth ((encodeAll items).take k) .unknown output c = pure result) ∧
    (¬AtBoundary items k →
      RLPDecode depth ((encodeAll items).take k) .unknown output c = throw .unspecified) := by
  induction depth generalizing items k output c with
  | zero => exact absurd hdepth (Nat.not_lt_zero _)
  | succ depth ih =>
    obtain rfl | hpos := Nat.eq_zero_or_pos k
    · exact ⟨fun _ => ⟨_, rfl⟩, fun h => absurd (atBoundary_zero items) h⟩
    cases items with
    | nil =>
      rw [encodeAll, List.length_nil] at hk
      exact absurd hk (Nat.not_le.mpr hpos)
    | cons item items =>
      rw [atBoundary_cons hpos]
      rw [encodeAll, List.length_append] at hsize hk
      obtain hcut | hwhole := Nat.lt_or_ge k item.encode.length
      · refine ⟨fun h => absurd h.1 (Nat.not_le.mpr hcut), fun _ => ?_⟩
        rw [encodeAll, List.take_append_of_le_length hcut.le]
        refine RLPDecode_of_length_error ?_ (RLPDecodeLength_item_cut (by omega) hpos hcut)
        rw [List.length_take]
        omega
      · have hitem := item.length_encode_pos
        have hlist (inner : List Item) (heq : item = .list inner) :
            ∃ c, RLPDecode depth (encodeAll inner) .unknown [] 0 = pure (itemsData inner, c) := by
          have hheader := header_length_pos 0xc0 (encodeAll inner).length
          have hinner := item.length_encode
          rw [heq, Item.header, Item.content, ← heq] at hinner
          exact RLPDecode_items depth inner [] 0 (by omega) (by omega)
        have hcall := @RLPDecode_item item ((encodeAll items).take (k - item.encode.length)) .unknown depth
          output c
          (by rw [List.length_append, List.length_take]; omega) (Or.inl rfl) hlist
        rw [if_neg (not_not.mpr rfl)] at hcall
        rw [encodeAll, List.take_append, List.take_of_length_le hwhole, hcall]
        obtain ⟨hok, herror⟩ := ih items (k - item.encode.length) (output ++ [itemData item])
          (add64 item.content.length 1) (by omega) (by omega) (by omega)
        constructor
        · rintro ⟨-, hboundary⟩
          obtain ⟨result, hresult⟩ := hok hboundary
          rw [hresult, pure_bind]
          exact ⟨_, rfl⟩
        · intro h
          rw [herror fun hboundary => h ⟨hwhole, hboundary⟩, throw_bind]

/-- What is made of a cut list of 55 bytes. -/
def emptyListData : RLPData :=
  { type := .list, data := [], dataWithLength := [0xf7], rlpData := [] }

theorem RLPDecode_list_cut_55 {depth k : ℕ} {items : List Item} {rlpType : RLPType} (c : ℕ)
    (hfull : (encodeAll items).length = 55) (hk : k < 55) (htype : rlpType ≠ .string) :
    RLPDecode (depth + 2) ((Item.list items).encode.take (k + 1)) rlpType [] c =
      if rlpType ≠ .unknown then pure ([emptyListData], 1)
      else RLPDecode (depth + 1) ((encodeAll items).take k) .unknown [emptyListData] 1 >>=
        fun (output, consumedBytes) => pure (output, add64 consumedBytes 0) := by
  have hinput : (Item.list items).encode.take (k + 1) =
      (0xc0 + 55).toUInt8 :: (encodeAll items).take k := by
    rw [Item.encode, hfull, header_short le_rfl, List.singleton_append, List.take_succ_cons]
  have hlength : RLPDecodeLength ((0xc0 + 55).toUInt8 :: (encodeAll items).take k) =
      pure (1, 0, .list) := by
    rw [RLPDecodeLength_list_cut_short le_rfl (by rw [List.length_take]; omega), if_pos rfl]
  have hdata : decodeItem (fun data => RLPDecode (depth + 1) data .unknown [] 0)
      ((0xc0 + 55).toUInt8 :: (encodeAll items).take k) rlpType 1 0 .list = pure emptyListData := by
    rw [decodeItem, if_neg htype, substr_eq (by simp), pure_bind, substr_eq (Nat.zero_le _), pure_bind]
    rfl
  have hrest : substrFrom ((0xc0 + 55).toUInt8 :: (encodeAll items).take k) (add64 1 0) =
      pure ((encodeAll items).take k) := by
    rw [add64_of_lt (by decide), substrFrom, if_neg (by simp), List.drop_succ_cons, List.drop_zero]
  rw [hinput, RLPDecode, if_neg (by simp), hlength, pure_bind]
  dsimp only
  rw [hdata, pure_bind]
  split_ifs with hunknown
  · rfl
  · rw [hrest, pure_bind]
    rfl

/-- A list that is cut is refused unless nothing is left of it, or its 55 bytes are cut; these are refused
only where more is decoded and an item is cut. -/
theorem RLPDecode_list_cut {depth k : ℕ} {items : List Item} {rlpType : RLPType} (c : ℕ)
    (hlen : (Item.list items).encode.length < 2 ^ 63)
    (hdepth : (Item.list items).encode.length < depth) (htype : rlpType ≠ .string)
    (hcut : k < (Item.list items).encode.length) :
    RLPDecode depth ((Item.list items).encode.take k) rlpType [] c = throw .unspecified ↔
      0 < k ∧ ((encodeAll items).length ≠ 55 ∨ rlpType = .unknown ∧ ¬AtBoundary items (k - 1)) := by
  have hsplit := (Item.list items).length_encode
  rw [Item.header, Item.content] at hsplit
  obtain ⟨depth, rfl⟩ : ∃ d, depth = d + 2 := by
    have hheader := header_length_pos 0xc0 (encodeAll items).length
    exact ⟨depth - 2, by omega⟩
  have hne {result : List RLPData × ℕ} {x : Decoding (List RLPData × ℕ)} (h : x = pure result) :
      x ≠ throw .unspecified := h ▸ (throw_ne_pure result).symm
  obtain rfl | hpos := Nat.eq_zero_or_pos k
  · exact iff_of_false (hne rfl) fun h => (Nat.lt_irrefl 0 h.1).elim
  obtain ⟨k, rfl⟩ := Nat.exists_eq_add_of_le' hpos
  by_cases hfull : (encodeAll items).length = 55
  · have hk : k < 55 := by
      rw [hfull, length_header, if_pos le_rfl] at hsplit
      omega
    rw [RLPDecode_list_cut_55 c hfull hk htype]
    by_cases hunknown : rlpType = .unknown
    · rw [if_neg (not_not.mpr hunknown)]
      obtain ⟨hok, herror⟩ := RLPDecode_items_take (depth + 1) items k [emptyListData] 1 hfull.le
        (by omega) (by omega)
      by_cases hboundary : AtBoundary items k
      · obtain ⟨result, hresult⟩ := hok hboundary
        rw [hresult, pure_bind]
        refine iff_of_false (hne rfl) ?_
        rintro ⟨-, h | ⟨-, h⟩⟩
        · exact h hfull
        · exact h hboundary
      · rw [herror hboundary, throw_bind]
        exact iff_of_true rfl ⟨hpos, Or.inr ⟨hunknown, hboundary⟩⟩
    · rw [if_pos hunknown]
      refine iff_of_false (hne rfl) ?_
      rintro ⟨-, h | ⟨h, -⟩⟩
      · exact h hfull
      · exact hunknown h
  · refine iff_of_true (RLPDecode_of_length_error ?_ ?_) ⟨hpos, Or.inl hfull⟩
    · rw [List.length_take]
      omega
    · rw [Item.encode]
      by_cases hshort : (encodeAll items).length ≤ 55
      · rw [length_header, if_pos hshort] at hsplit
        rw [header_short hshort, List.singleton_append, List.take_succ_cons,
          RLPDecodeLength_list_cut_short hshort (by rw [List.length_take]; omega), if_neg hfull]
      · exact RLPDecodeLength_list_cut_long (Nat.not_le.mp hshort) (by omega) hpos (by omega)

end Cut

end fork_8

end ZkevmProver
