import ZkevmProver.Lib.BigEndian

/-!
# Recursive length prefix

Byte strings and nested lists of them, written with a header that says how long the content is.

1. Headers
2. The header of each length
3. Byte strings
4. Nested lists
-/

namespace Rlp

open BigEndian

/-! ## Headers -/

/-- `Header offset bytes n`: the bytes announce a content of `n` bytes, `offset` tells strings from
lists.  The length may have leading zeros, and may be written after the first byte also where the first
byte has room for it. -/
inductive Header (offset : ℕ) : List UInt8 → ℕ → Prop
  | short {n : ℕ} : n ≤ 55 → Header offset [(offset + n).toUInt8] n
  | long {be : List UInt8} : 1 ≤ be.length → be.length ≤ 8 →
      Header offset ((offset + 55 + be.length).toUInt8 :: be) (value be)

theorem Header.length_pos {offset : ℕ} {h : List UInt8} {n : ℕ} (hh : Header offset h n) :
    0 < h.length := by
  cases hh <;> simp

theorem Header.length_le {offset : ℕ} {h : List UInt8} {n : ℕ} (hh : Header offset h n) :
    h.length ≤ 9 := by
  cases hh with
  | short => simp
  | long _ hlen => exact Nat.succ_le_succ hlen

theorem Header.lt {offset : ℕ} {h : List UInt8} {n : ℕ} (hh : Header offset h n) : n < 256 ^ 8 := by
  cases hh with
  | short hn => exact hn.trans_lt (by decide)
  | @long be _ hlen => exact (value_lt be).trans_le (Nat.pow_le_pow_right (by decide) hlen)

/-- `Encodes h content`: a byte string written as its header, which is empty for one small byte. -/
inductive Encodes : List UInt8 → List UInt8 → Prop
  | single {b : UInt8} : b ≤ 0x7f → Encodes [] [b]
  | headed {h content : List UInt8} : Header 0x80 h content.length → Encodes h content

theorem Encodes.length_pos {h content : List UInt8} (he : Encodes h content) :
    0 < (h ++ content).length := by
  cases he with
  | single => simp
  | headed hh =>
    rw [List.length_append]
    exact Nat.add_pos_left hh.length_pos _

theorem Encodes.length_header_le {h content : List UInt8} (he : Encodes h content) : h.length ≤ 9 := by
  cases he with
  | single => exact Nat.zero_le 9
  | headed hh => exact hh.length_le

/-- Byte strings one after the other, each after its header. -/
def concat (headers items : List (List UInt8)) : List UInt8 :=
  (List.zipWith (· ++ ·) headers items).flatten

@[simp] theorem concat_nil : concat [] [] = [] := rfl

@[simp] theorem concat_cons (h content : List UInt8) (headers items : List (List UInt8)) :
    concat (h :: headers) (content :: items) = h ++ content ++ concat headers items := rfl

theorem concat_snoc {headers items : List (List UInt8)} (hlen : headers.length = items.length)
    (h content : List UInt8) :
    concat (headers ++ [h]) (items ++ [content]) = concat headers items ++ (h ++ content) := by
  rw [concat, List.zipWith_append hlen, List.flatten_append]
  simp [concat]

/-! ## The header of each length -/

/-- The shortest header of a content of `n` bytes. -/
def header (offset n : ℕ) : List UInt8 :=
  if n ≤ 55 then [(offset + n).toUInt8]
  else (offset + 55 + width n).toUInt8 :: shortest n

theorem header_short {offset n : ℕ} (h : n ≤ 55) : header offset n = [(offset + n).toUInt8] :=
  if_pos h

theorem header_long {offset n : ℕ} (h : 55 < n) :
    header offset n = (offset + 55 + width n).toUInt8 :: shortest n := if_neg (Nat.not_le.mpr h)

/-- The length of a content is below `256 ^ 8`. -/
theorem header_spec (offset : ℕ) {n : ℕ} (h : n < 256 ^ 8) : Header offset (header offset n) n := by
  by_cases hn : n ≤ 55
  · rw [header_short hn]
    exact .short hn
  · have hpos : 1 ≤ (shortest n).length := by
      rw [length_shortest]
      exact width_pos.mpr (by omega)
    have hle : (shortest n).length ≤ 8 := by
      rw [length_shortest]
      exact width_le.mpr h
    have hlong := @Header.long offset _ hpos hle
    rwa [length_shortest, value_shortest, ← header_long (by omega)] at hlong

theorem length_header (offset n : ℕ) :
    (header offset n).length = if n ≤ 55 then 1 else 1 + width n := by
  unfold header
  split
  · rfl
  · rw [List.length_cons, length_shortest, Nat.add_comm]

/-- A longer content does not get a shorter header. -/
theorem length_header_mono (offset : ℕ) {m n : ℕ} (h : m ≤ n) :
    (header offset m).length ≤ (header offset n).length := by
  have hw := width_mono h
  rw [length_header, length_header]
  split_ifs <;> omega

/-! ## Byte strings -/

/-- The shortest form of a byte string. -/
def encodeBytes (content : List UInt8) : List UInt8 :=
  match content with
  | [b] => if b ≤ 0x7f then [b] else header 0x80 1 ++ [b]
  | _ => header 0x80 content.length ++ content

theorem encodeBytes_singleton (b : UInt8) :
    encodeBytes [b] = if b ≤ 0x7f then [b] else header 0x80 1 ++ [b] := rfl

theorem encodeBytes_of_length_ne_one {content : List UInt8} (h : content.length ≠ 1) :
    encodeBytes content = header 0x80 content.length ++ content := by
  unfold encodeBytes
  split
  · exact absurd List.length_singleton h
  · rfl

/-- The header of the shortest form. -/
def stringHeader (content : List UInt8) : List UInt8 :=
  match content with
  | [b] => if b ≤ 0x7f then [] else header 0x80 1
  | _ => header 0x80 content.length

theorem encodeBytes_eq (content : List UInt8) :
    encodeBytes content = stringHeader content ++ content := by
  unfold encodeBytes stringHeader
  split
  · split <;> rfl
  · rfl

theorem encodes_stringHeader {content : List UInt8} (h : content.length < 256 ^ 8) :
    Encodes (stringHeader content) content := by
  unfold stringHeader
  split
  · split_ifs with hb
    · exact .single hb
    · exact .headed (header_spec _ (by decide))
  · exact .headed (header_spec _ h)

theorem length_le_encodeBytes (content : List UInt8) :
    content.length ≤ (encodeBytes content).length := by
  rw [encodeBytes_eq, List.length_append]
  exact Nat.le_add_left _ _

theorem length_encodeBytes_le {content : List UInt8} (h : content.length < 256 ^ 8) :
    (encodeBytes content).length ≤ content.length + 9 := by
  have hheader := (encodes_stringHeader h).length_header_le
  rw [encodeBytes_eq, List.length_append]
  omega

/-- A string that is neither longer nor greater does not get a longer form. -/
theorem length_encodeBytes_mono {xs ys : List UInt8} (hlen : xs.length ≤ ys.length)
    (hvalue : value xs ≤ value ys) : (encodeBytes xs).length ≤ (encodeBytes ys).length := by
  have hheader (n : ℕ) : 1 ≤ (header 0x80 n).length := by
    rw [length_header]
    split_ifs <;> omega
  match xs, ys with
  | [], ys =>
    have hempty : (encodeBytes []).length = 1 := rfl
    rw [hempty]
    unfold encodeBytes
    split
    · split_ifs <;> simp
    · rw [List.length_append]
      exact Nat.le_add_right_of_le (hheader _)
  | [x], [y] =>
    have hle : y ≤ 0x7f → x ≤ 0x7f := by
      intro hy
      rw [UInt8.le_iff_toNat_le] at hy ⊢
      simp only [value_cons, value_nil, List.length_nil, Nat.pow_zero, Nat.mul_one,
        Nat.add_zero] at hvalue
      exact hvalue.trans hy
    rw [encodeBytes_singleton, encodeBytes_singleton]
    split_ifs with hx hy hy
    · exact le_rfl
    · rw [List.length_append]
      exact Nat.le_add_left _ _
    · exact absurd (hle hy) hx
    · exact le_rfl
  | [x], y :: z :: ys =>
    have hone : (encodeBytes [x]).length ≤ 2 := by
      rw [encodeBytes_singleton]
      split_ifs
      · exact Nat.le_succ 1
      · exact le_rfl
    refine hone.trans ((Nat.le_add_left 2 ys.length).trans ?_)
    exact length_le_encodeBytes (y :: z :: ys)
  | w :: x :: xs, y :: z :: ys =>
    have hmono := length_header_mono 0x80 hlen
    simp only [encodeBytes, List.length_append]
    exact Nat.add_le_add hmono hlen

/-! ## Nested lists -/

/-- A byte string, or a list of items. -/
inductive Item
  | bytes (content : List UInt8)
  | list (items : List Item)

mutual

/-- The shortest form of an item. -/
def Item.encode : Item → List UInt8
  | .bytes content => encodeBytes content
  | .list items => header 0xc0 (encodeAll items).length ++ encodeAll items

def encodeAll : List Item → List UInt8
  | [] => []
  | item :: items => item.encode ++ encodeAll items

end

/-- What the form of an item begins with. -/
def Item.header : Item → List UInt8
  | .bytes content => stringHeader content
  | .list items => Rlp.header 0xc0 (encodeAll items).length

/-- What the header announces. -/
def Item.content : Item → List UInt8
  | .bytes content => content
  | .list items => encodeAll items

theorem Item.encode_eq (item : Item) : item.encode = item.header ++ item.content := by
  cases item with
  | bytes content => rw [Item.encode, encodeBytes_eq, Item.header, Item.content]
  | list items => rw [Item.encode, Item.header, Item.content]

theorem Item.length_encode (item : Item) :
    item.encode.length = item.header.length + item.content.length := by
  rw [Item.encode_eq, List.length_append]

theorem header_length_pos (offset n : ℕ) : 0 < (Rlp.header offset n).length := by
  rw [length_header]
  split_ifs <;> omega

/-- No form is empty. -/
theorem Item.length_encode_pos (item : Item) : 0 < item.encode.length := by
  rw [Item.length_encode]
  cases item with
  | bytes content =>
    cases content with
    | nil => exact Nat.add_pos_left (by decide) _
    | cons => exact Nat.add_pos_right _ (Nat.succ_pos _)
  | list items => exact Nat.add_pos_left (header_length_pos _ _) _

/-- The strings of a list, each in its shortest form. -/
theorem encodeAll_bytes (contents : List (List UInt8)) :
    encodeAll (contents.map .bytes) = (contents.map encodeBytes).flatten := by
  induction contents with
  | nil => simp only [List.map_nil, encodeAll, List.flatten_nil]
  | cons content contents ih =>
    simp only [List.map_cons, encodeAll, Item.encode, List.flatten_cons, ih]

theorem encodeAll_bytes_eq_concat (contents : List (List UInt8)) :
    encodeAll (contents.map .bytes) = concat (contents.map stringHeader) contents := by
  induction contents with
  | nil => simp only [List.map_nil, encodeAll, concat_nil]
  | cons content contents ih =>
    simp only [List.map_cons, encodeAll, Item.encode, encodeBytes_eq, concat_cons, ih]

end Rlp
