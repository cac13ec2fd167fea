import Mathlib.Data.List.Forall2
import Mathlib.Tactic.SplitIfs
import ZkevmProver.Lib.Rlp
import ZkevmProver.Utils.ByteArray

/-!
# `rlp.cpp`

The list of byte strings that a transaction is, decoded and encoded.

1. Decoding
2. Encoding
3. What `decodeLength` reads
4. A round over a whole item
5. Decoding undoes encoding
-/

namespace ZkevmProver

open BigEndian Rlp

namespace rlp

/-! ## Decoding -/

/-- The loop over the bytes of a length: where it ends, and the length. -/
def readLength (input : List UInt8) : ℕ → ℕ → ℕ → ℕ × ℕ
  | 0, p, length => (p, length)
  | count + 1, p, length =>
    let d := charAt input p
    readLength input count (p + 1) ((length * 2 ^ 8 + d.toNat) % 2 ^ 64)

/-- A length that is written after the first byte. -/
def decodeLengthOfLength (input : List UInt8) (p lengthOfLength : ℕ) (list : Bool) :
    Option (ℕ × ℕ × Bool) :=
  if lengthOfLength > 8 then none
  else if add64 p lengthOfLength > input.length then none
  else
    let (p, length) := readLength input lengthOfLength p 0
    some (p, length, list)

/-- The position after the header, the length of the content and whether it is a list. -/
def decodeLength (input : List UInt8) (p : ℕ) : Option (ℕ × ℕ × Bool) :=
  if p > input.length then none
  else
    let prefixByte := (charAt input p).toNat
    if prefixByte ≤ 0x7f then some (p, 1, false)
    else if prefixByte ≤ 0xb7 then
      let length := prefixByte - 0x80
      let p := p + 1
      if add64 p length > input.length then none else some (p, length, false)
    else if prefixByte ≤ 0xbf then
      decodeLengthOfLength input (p + 1) (prefixByte - 0xb7) false
    else if prefixByte ≤ 0xf7 then
      let length := prefixByte - 0xc0
      let p := p + 1
      if add64 p length > input.length then none else some (p, length, true)
    else decodeLengthOfLength input (p + 1) (prefixByte - 0xf7) true

/-- The byte array, whether it is a list, and the position after it. -/
def decodeBa (input : List UInt8) (p : ℕ) : Option (List UInt8 × Bool × ℕ) :=
  if p > input.length then none
  else
    match decodeLength input p with
    | none => none
    -- `substr` takes what there is
    | some (p, length, list) => some ((input.drop p).take length, list, add64 p length)

/-- The rounds over the byte arrays of a list: whether they succeed, and the output.  `none` where they
have not ended after as many rounds as the first argument says. -/
def decodeItems (input : List UInt8) :
    ℕ → ℕ → List (List UInt8) → Option (Bool × List (List UInt8))
  | 0, _, _ => none
  | rounds + 1, p, output =>
    if p < input.length then
      match decodeBa input p with
      | none => some (false, output)
      | some (_, true, _) => some (false, output)
      | some (ba, false, p) => decodeItems input rounds p (output ++ [ba])
    else if p ≠ input.length then some (false, output)
    else some (true, output)

def decodeList (rounds : ℕ) (input : List UInt8) (output : List (List UInt8)) :
    Option (Bool × List (List UInt8)) :=
  match decodeLength input 0 with
  | none => some (false, output)
  | some (_, _, false) => some (false, output)
  | some (p, length, true) =>
    if add64 p length ≠ input.length then some (false, output)
    else decodeItems input rounds p output

/-! ## Encoding -/

/-- The output with the header at its end. -/
def encodeLength (length : ℕ) (list : Bool) (output : List UInt8) : Option (List UInt8) :=
  let offset := if list then 0xc0 else 0x80
  if length < 56 then some (output ++ [(offset + length).toUInt8])
  else if length < 256 then
    some (output ++ (offset + 55 + 1).toUInt8 :: [length.toUInt8])
  else if length < 256 * 256 then
    some (output ++ (offset + 55 + 2).toUInt8 :: [(length >>> 8).toUInt8, length.toUInt8])
  else if length < 256 * 256 * 256 then
    some (output ++ (offset + 55 + 3).toUInt8 ::
      [(length >>> 16).toUInt8, (length >>> 8).toUInt8, length.toUInt8])
  else none

def encodeBa (input : List UInt8) : Option (List UInt8) :=
  if input.length = 1 ∧ charAt input 0 < 0x80 then some input
  else
    match encodeLength input.length false [] with
    | none => none
    | some output => some (output ++ input)

/-- The byte arrays, encoded and concatenated. -/
def encodeItems : List (List UInt8) → List UInt8 → Option (List UInt8)
  | [], list => some list
  | input :: inputs, list =>
    match encodeBa input with
    | none => none
    | some ba => encodeItems inputs (list ++ ba)

def encodeList (input : List (List UInt8)) (output : List UInt8) : Option (List UInt8) :=
  match encodeItems input [] with
  | none => none
  | some list =>
    match encodeLength list.length true output with
    | none => none
    | some output => some (output ++ list)

/-! ## What `decodeLength` reads -/

section Reading

variable {before rest : List UInt8}

theorem readLength_append (be : List UInt8) (before : List UInt8) (length : ℕ)
    (hlen : length * 256 ^ be.length + value be < 2 ^ 64) :
    readLength (before ++ (be ++ rest)) be.length before.length length =
      (before.length + be.length, length * 256 ^ be.length + value be) := by
  induction be generalizing before length with
  | nil => simp [readLength]
  | cons b be ih =>
    have hvalue : (length * 2 ^ 8 + b.toNat) * 256 ^ be.length + value be =
        length * 256 ^ (b :: be).length + value (b :: be) := by
      rw [value_cons, List.length_cons]
      ring
    have hpow : 0 < 256 ^ be.length := Nat.pow_pos (by decide)
    have hfits : length * 2 ^ 8 + b.toNat < 2 ^ 64 := by
      refine lt_of_le_of_lt ?_ hlen
      calc length * 2 ^ 8 + b.toNat
          ≤ (length * 2 ^ 8 + b.toNat) * 256 ^ be.length := Nat.le_mul_of_pos_right _ hpow
        _ ≤ (length * 2 ^ 8 + b.toNat) * 256 ^ be.length + value be := Nat.le_add_right _ _
        _ = _ := hvalue
    have hnext := ih (before ++ [b]) (length * 2 ^ 8 + b.toNat) (by rwa [hvalue])
    rw [List.append_assoc, List.length_append, List.length_singleton, hvalue, Nat.add_assoc,
      Nat.add_comm 1] at hnext
    rw [List.length_cons, readLength, List.cons_append, charAt_append, Nat.mod_eq_of_lt hfits]
    exact hnext

theorem decodeLengthOfLength_eq (before rest : List UInt8) (list : Bool) {count : ℕ}
    (hcount : count ≤ 8) (hsize : (before ++ rest).length < 2 ^ 63) :
    decodeLengthOfLength (before ++ rest) before.length count list =
      if count ≤ rest.length then some (before.length + count, value (rest.take count), list)
      else none := by
  rw [List.length_append] at hsize
  have hadd : add64 before.length count = before.length + count := add64_of_lt (by omega)
  rw [decodeLengthOfLength, if_neg (by omega), hadd, List.length_append]
  by_cases hroom : count ≤ rest.length
  · have hlen : (rest.take count).length = count := List.length_take_of_le hroom
    have hvalue : value (rest.take count) < 2 ^ 64 := by
      have hlt := value_lt (rest.take count)
      rw [hlen] at hlt
      exact hlt.trans_le (Nat.pow_le_pow_right (by decide) hcount)
    have hread := @readLength_append (rest.drop count) (rest.take count) before 0
      (by rw [Nat.zero_mul, Nat.zero_add]; exact hvalue)
    rw [List.take_append_drop, hlen, Nat.zero_mul, Nat.zero_add] at hread
    rw [if_neg (by omega), hread, if_pos hroom]
  · rw [if_pos (by omega), if_neg hroom]

/-- The first byte decides. -/
theorem decodeLength_cons (before rest : List UInt8) (b : UInt8)
    (hsize : (before ++ b :: rest).length < 2 ^ 63) :
    decodeLength (before ++ b :: rest) before.length =
      if b.toNat ≤ 0x7f then some (before.length, 1, false)
      else if b.toNat ≤ 0xb7 then
        if b.toNat - 0x80 ≤ rest.length then
          some (before.length + 1, b.toNat - 0x80, false) else none
      else if b.toNat ≤ 0xbf then
        if b.toNat - 0xb7 ≤ rest.length then
          some (before.length + 1 + (b.toNat - 0xb7), value (rest.take (b.toNat - 0xb7)), false)
        else none
      else if b.toNat ≤ 0xf7 then
        if b.toNat - 0xc0 ≤ rest.length then
          some (before.length + 1, b.toNat - 0xc0, true) else none
      else if b.toNat - 0xf7 ≤ rest.length then
        some (before.length + 1 + (b.toNat - 0xf7), value (rest.take (b.toNat - 0xf7)), true)
      else none := by
  have hb : b.toNat < 256 := b.toNat_lt
  have hsplit : before ++ b :: rest = (before ++ [b]) ++ rest := by simp
  have hlong (count : ℕ) (list : Bool) (hcount : count ≤ 8) :
      decodeLengthOfLength (before ++ b :: rest) (before.length + 1) count list =
        if count ≤ rest.length then
          some (before.length + 1 + count, value (rest.take count), list)
        else none := by
    have h := decodeLengthOfLength_eq (before ++ [b]) rest list hcount (by rwa [← hsplit])
    rwa [← hsplit, List.length_append, List.length_singleton] at h
  rw [List.length_append, List.length_cons] at hsize
  have hadd (n : ℕ) (hn : n < 256) : add64 (before.length + 1) n = before.length + 1 + n :=
    add64_of_lt (by omega)
  have hlen : ¬before.length > (before ++ b :: rest).length := by simp
  rw [decodeLength, if_neg hlen]
  simp only [charAt_append]
  have hroom (n : ℕ) (hn : n < 256) :
      (add64 (before.length + 1) n > (before ++ b :: rest).length) ↔ ¬n ≤ rest.length := by
    rw [hadd n hn, List.length_append, List.length_cons]
    omega
  by_cases h7f : b.toNat ≤ 0x7f
  · rw [if_pos h7f, if_pos h7f]
  rw [if_neg h7f, if_neg h7f]
  by_cases hb7 : b.toNat ≤ 0xb7
  · rw [if_pos hb7, if_pos hb7, if_congr (hroom _ (by omega)) rfl rfl, ite_not]
  rw [if_neg hb7, if_neg hb7]
  by_cases hbf : b.toNat ≤ 0xbf
  · rw [if_pos hbf, if_pos hbf, hlong _ _ (by omega)]
  rw [if_neg hbf, if_neg hbf]
  by_cases hf7 : b.toNat ≤ 0xf7
  · rw [if_pos hf7, if_pos hf7, if_congr (hroom _ (by omega)) rfl rfl, ite_not]
  rw [if_neg hf7, if_neg hf7, hlong _ _ (by omega)]

/-- What sets strings and lists apart in a header. -/
def offset (list : Bool) : ℕ := if list then 0xc0 else 0x80

@[simp] theorem offset_false : offset false = 0x80 := rfl

@[simp] theorem offset_true : offset true = 0xc0 := rfl

theorem toNat_firstByte (list : Bool) {n : ℕ} (hn : n ≤ 63) :
    ((offset list + n).toUInt8).toNat = offset list + n := by
  cases list <;> simp [offset] <;> omega

/-- A header is read as it is meant.  Where it is one byte, the content has to be there. -/
theorem decodeLength_header {list : Bool} {h after : List UInt8} {n : ℕ}
    (hh : Header (offset list) h n) (hroom : h.length = 1 → n ≤ after.length)
    (hsize : (before ++ (h ++ after)).length < 2 ^ 63) :
    decodeLength (before ++ (h ++ after)) before.length =
      some (before.length + h.length, n, list) := by
  cases hh with
  | @short n hn =>
    rw [List.singleton_append] at hsize ⊢
    rw [decodeLength_cons _ _ _ hsize, toNat_firstByte list (by omega)]
    have hfits := hroom rfl
    cases list
    · rw [offset_false, if_neg (by omega), if_pos (by omega), if_pos (by omega),
        Nat.add_sub_cancel_left, List.length_singleton]
    · rw [offset_true, if_neg (by omega), if_neg (by omega), if_neg (by omega), if_pos (by omega),
        if_pos (by omega), Nat.add_sub_cancel_left, List.length_singleton]
  | @long be hpos hle =>
    rw [List.cons_append] at hsize ⊢
    rw [decodeLength_cons _ _ _ hsize, Nat.add_assoc, toNat_firstByte list (by omega)]
    have htake : (be ++ after).take be.length = be := List.take_left
    have hthere : be.length ≤ (be ++ after).length := by simp
    rw [List.length_cons, Nat.add_comm be.length, ← Nat.add_assoc before.length]
    cases list
    · have hcount : 0x80 + (55 + be.length) - 0xb7 = be.length := by omega
      rw [offset_false, hcount, if_neg (by omega), if_neg (by omega), if_pos (by omega),
        if_pos hthere, htake]
    · have hcount : 0xc0 + (55 + be.length) - 0xf7 = be.length := by omega
      rw [offset_true, hcount, if_neg (by omega), if_neg (by omega), if_neg (by omega),
        if_neg (by omega), if_pos hthere, htake]

/-- What is read starts with a small byte or with a header, whose content is there where the header is
one byte. -/
theorem decodeLength_inv {list : Bool} {n q : ℕ} (hrest : rest ≠ [])
    (hsize : (before ++ rest).length < 2 ^ 63)
    (h : decodeLength (before ++ rest) before.length = some (q, n, list)) :
    (∃ b after, rest = b :: after ∧ b ≤ 0x7f ∧ q = before.length ∧ n = 1 ∧ list = false) ∨
      ∃ hd after, rest = hd ++ after ∧ Header (offset list) hd n ∧ q = before.length + hd.length ∧
        (hd.length = 1 → n ≤ after.length) := by
  obtain ⟨b, rest, rfl⟩ := List.exists_cons_of_ne_nil hrest
  have hb : b.toNat < 256 := b.toNat_lt
  have hbyte (list : Bool) (m : ℕ) (hm : b.toNat = offset list + m) :
      b = (offset list + m).toUInt8 := by
    rw [← hm]
    simp
  have hlong (list : Bool) (m : ℕ) (hm : b.toNat = offset list + 55 + m) (hpos : 1 ≤ m)
      (hle : m ≤ 8) (hlen : m ≤ rest.length) :
      Header (offset list) (b :: rest.take m) (value (rest.take m)) := by
    have htake : (rest.take m).length = m := List.length_take_of_le hlen
    have hd := @Header.long (offset list) (rest.take m) (by omega) (by omega)
    rwa [htake, Nat.add_assoc, ← hbyte list (55 + m) (by omega)] at hd
  rw [decodeLength_cons _ _ _ hsize] at h
  split_ifs at h with h7f hb7 hfit hbf hfit hf7 hfit hfit
  · obtain ⟨rfl, rfl, rfl⟩ : before.length = q ∧ 1 = n ∧ false = list := by simpa using h
    exact Or.inl ⟨b, rest, rfl, UInt8.le_iff_toNat_le.mpr h7f, rfl, rfl, rfl⟩
  · obtain ⟨rfl, rfl, rfl⟩ : before.length + 1 = q ∧ b.toNat - 0x80 = n ∧ false = list := by
      simpa using h
    refine Or.inr ⟨[b], rest, rfl, ?_, rfl, fun _ => hfit⟩
    have hd := @Header.short (offset false) (b.toNat - 0x80) (by omega)
    rwa [← hbyte false (b.toNat - 0x80) (by simp; omega)] at hd
  · obtain ⟨rfl, rfl, rfl⟩ : before.length + 1 + (b.toNat - 0xb7) = q ∧
        value (rest.take (b.toNat - 0xb7)) = n ∧ false = list := by simpa using h
    refine Or.inr ⟨b :: rest.take (b.toNat - 0xb7), rest.drop (b.toNat - 0xb7), by simp, ?_, ?_, ?_⟩
    · exact hlong false _ (by simp; omega) (by omega) (by omega) hfit
    · rw [List.length_cons, List.length_take_of_le hfit, Nat.add_assoc, Nat.add_comm 1]
    · rw [List.length_cons, List.length_take_of_le hfit]
      omega
  · obtain ⟨rfl, rfl, rfl⟩ : before.length + 1 = q ∧ b.toNat - 0xc0 = n ∧ true = list := by
      simpa using h
    refine Or.inr ⟨[b], rest, rfl, ?_, rfl, fun _ => hfit⟩
    have hd := @Header.short (offset true) (b.toNat - 0xc0) (by omega)
    rwa [← hbyte true (b.toNat - 0xc0) (by simp; omega)] at hd
  · obtain ⟨rfl, rfl, rfl⟩ : before.length + 1 + (b.toNat - 0xf7) = q ∧
        value (rest.take (b.toNat - 0xf7)) = n ∧ true = list := by simpa using h
    refine Or.inr ⟨b :: rest.take (b.toNat - 0xf7), rest.drop (b.toNat - 0xf7), by simp, ?_, ?_, ?_⟩
    · exact hlong true _ (by simp; omega) (by omega) (by omega) hfit
    · rw [List.length_cons, List.length_take_of_le hfit, Nat.add_assoc, Nat.add_comm 1]
    · rw [List.length_cons, List.length_take_of_le hfit]
      omega

end Reading

/-! ## A round over a whole item -/

theorem decodeBa_eq {input : List UInt8} {p q n : ℕ} {list : Bool} (hp : p ≤ input.length)
    (h : decodeLength input p = some (q, n, list)) :
    decodeBa input p = some ((input.drop q).take n, list, add64 q n) := by
  rw [decodeBa, if_neg (Nat.not_lt.mpr hp), h]

/-- The content starts where the header ends. -/
theorem take_drop_content (before h content after : List UInt8) :
    ((before ++ (h ++ (content ++ after))).drop (before.length + h.length)).take content.length =
      content := by
  rw [← List.append_assoc before, ← List.length_append, List.drop_left, List.take_left]

theorem decodeBa_encodes (before after : List UInt8) {h content : List UInt8}
    (he : Encodes h content) (hsize : (before ++ (h ++ content ++ after)).length < 2 ^ 63) :
    decodeBa (before ++ (h ++ content ++ after)) before.length =
      some (content, false, before.length + (h ++ content).length) := by
  have hadd : add64 (before.length + h.length) content.length =
      before.length + (h ++ content).length := by
    simp only [List.length_append] at hsize ⊢
    rw [add64_of_lt (by omega), Nat.add_assoc]
  have hread : decodeLength (before ++ (h ++ (content ++ after))) before.length =
      some (before.length + h.length, content.length, false) := by
    rw [List.append_assoc] at hsize
    cases he with
    | @single b hb =>
      rw [List.nil_append, List.singleton_append] at hsize ⊢
      rw [decodeLength_cons _ _ _ hsize]
      exact if_pos (UInt8.le_iff_toNat_le.mp hb)
    | headed hh =>
      have hhere : h.length = 1 → content.length ≤ (content ++ after).length := fun _ => by simp
      exact @decodeLength_header _ false _ _ _ hh hhere hsize
  rw [List.append_assoc, decodeBa_eq (by simp) hread, take_drop_content, hadd]

/-- The rounds over items that are whole. -/
theorem decodeItems_concat {headers items : List (List UInt8)}
    (he : List.Forall₂ Encodes headers items) (before after : List UInt8) (rounds : ℕ)
    (output : List (List UInt8))
    (hsize : (before ++ (concat headers items ++ after)).length < 2 ^ 63) :
    decodeItems (before ++ (concat headers items ++ after)) (rounds + items.length) before.length
        output =
      decodeItems (before ++ (concat headers items ++ after)) rounds
        (before ++ concat headers items).length (output ++ items) := by
  induction he generalizing before output with
  | nil => simp
  | @cons h content headers items hhc _ ih =>
    have hnext := ih (before ++ (h ++ content)) (output ++ [content]) (by simpa using hsize)
    have hround := decodeBa_encodes before (concat headers items ++ after) hhc
      (by simpa using hsize)
    have hpos := hhc.length_pos
    have hlt : before.length < (before ++ (concat (h :: headers) (content :: items) ++ after)).length := by
      simp only [concat_cons, List.length_append] at hpos ⊢
      omega
    have hsplit : before ++ (concat (h :: headers) (content :: items) ++ after) =
        before ++ (h ++ content ++ (concat headers items ++ after)) := by simp
    rw [List.length_cons, ← Nat.add_assoc, decodeItems, if_pos hlt, hsplit, hround]
    simp only [List.append_assoc, List.length_append, List.singleton_append, concat_cons] at hnext ⊢
    exact hnext

/-- The header of the whole list. -/
theorem decodeLength_list {hd payload : List UInt8} (hh : Header 0xc0 hd payload.length)
    (hsize : (hd ++ payload).length < 2 ^ 63) :
    decodeLength (hd ++ payload) 0 = some (hd.length, payload.length, true) ∧
      add64 hd.length payload.length = (hd ++ payload).length := by
  have hread := @decodeLength_header [] true _ payload _ hh
    (fun _ => le_rfl) (by simpa using hsize)
  rw [List.nil_append, List.length_nil, Nat.zero_add] at hread
  refine ⟨hread, ?_⟩
  rw [List.length_append] at hsize ⊢
  exact add64_of_lt (by omega)

/-- The rounds start after a header that announces the rest of the input. -/
theorem decodeLength_list_inv {input : List UInt8} {p length : ℕ} (hsize : input.length < 2 ^ 63)
    (hread : decodeLength input 0 = some (p, length, true)) (hlen : add64 p length = input.length) :
    ∃ hd payload, input = hd ++ payload ∧ Header 0xc0 hd payload.length ∧ p = hd.length := by
  have hne : input ≠ [] := by
    rintro rfl
    have hempty : decodeLength [] 0 = some (0, 1, false) := rfl
    rw [hempty] at hread
    cases hread
  obtain ⟨_, _, -, -, -, -, hlist⟩ | ⟨hd, payload, rfl, hh, rfl, -⟩ :=
    @decodeLength_inv [] _ _ _ _ hne (by simpa using hsize) hread
  · cases hlist
  · rw [List.length_nil, Nat.zero_add] at hlen
    rw [List.length_append] at hsize hlen
    have hlt := hh.lt
    have hpayload : length = payload.length := by
      rw [add64] at hlen
      omega
    exact ⟨hd, payload, rfl, hpayload ▸ hh, by simp⟩

/-- A list of whole items is decoded. -/
theorem decodeList_concat {hd : List UInt8} {headers items : List (List UInt8)}
    (hh : Header 0xc0 hd (concat headers items).length) (he : List.Forall₂ Encodes headers items)
    (hsize : (hd ++ concat headers items).length < 2 ^ 63) (output : List (List UInt8))
    {rounds : ℕ} (hrounds : items.length < rounds) :
    decodeList rounds (hd ++ concat headers items) output = some (true, output ++ items) := by
  obtain ⟨hread, hadd⟩ := decodeLength_list hh hsize
  obtain ⟨k, rfl⟩ := Nat.exists_eq_add_of_lt hrounds
  have hitems := decodeItems_concat he hd [] (k + 1) output (by simpa using hsize)
  rw [List.append_nil] at hitems
  rw [decodeList, hread]
  simp only [hadd, ne_eq, not_true_eq_false, if_false]
  rw [Nat.add_assoc, Nat.add_comm, hitems, decodeItems, if_neg (lt_irrefl _)]
  simp

/-! ## Decoding undoes encoding -/

theorem shortest_of_lt {n : ℕ} (hpos : 0 < n) (h : n < 256) : shortest n = [n.toUInt8] := by
  have hw : width n = 1 := by
    apply le_antisymm
    · exact width_le.mpr (by simpa using h)
    · exact width_pos.mpr hpos
  rw [shortest, hw, bytes_succ, bytes_zero, List.nil_append]

theorem shortest_of_lt_two {n : ℕ} (hle : 256 ≤ n) (h : n < 256 * 256) :
    shortest n = [(n >>> 8).toUInt8, n.toUInt8] := by
  have hw : width n = 2 := by
    apply le_antisymm
    · exact width_le.mpr h
    · exact lt_width.mpr (by simpa using hle)
  rw [shortest, hw, bytes_succ, bytes_succ, bytes_zero, Nat.shiftRight_eq_div_pow]
  rfl

theorem shortest_of_lt_three {n : ℕ} (hle : 256 * 256 ≤ n) (h : n < 256 * 256 * 256) :
    shortest n = [(n >>> 16).toUInt8, (n >>> 8).toUInt8, n.toUInt8] := by
  have hw : width n = 3 := by
    apply le_antisymm
    · exact width_le.mpr h
    · exact lt_width.mpr hle
  have hdiv : n / 256 / 256 = n >>> 16 := by
    rw [Nat.shiftRight_eq_div_pow, Nat.div_div_eq_div_mul]
  rw [shortest, hw, bytes_succ, bytes_succ, bytes_succ, bytes_zero, hdiv,
    Nat.shiftRight_eq_div_pow n 8]
  rfl

/-- The encoder writes the shortest header, of lengths of at most three bytes. -/
theorem encodeLength_eq (length : ℕ) (list : Bool) (output : List UInt8) :
    encodeLength length list output =
      if length < 256 ^ 3 then some (output ++ header (offset list) length) else none := by
  have hlong (hlen : 55 < length) (bytes : List UInt8) (hbytes : shortest length = bytes) :
      header (offset list) length = (offset list + 55 + bytes.length).toUInt8 :: bytes := by
    rw [header_long hlen, ← hbytes, length_shortest]
  have hoff : (if list then 0xc0 else 0x80) = offset list := rfl
  rw [encodeLength]
  simp only [hoff]
  by_cases h56 : length < 56
  · rw [if_pos h56, if_pos (by omega), header_short (by omega)]
  rw [if_neg h56]
  by_cases h1 : length < 256
  · rw [if_pos h1, if_pos (by omega), hlong (by omega) _ (shortest_of_lt (by omega) h1)]
    rfl
  rw [if_neg h1]
  by_cases h2 : length < 256 * 256
  · rw [if_pos h2, if_pos (by omega), hlong (by omega) _ (shortest_of_lt_two (by omega) h2)]
    rfl
  rw [if_neg h2]
  by_cases h3 : length < 256 * 256 * 256
  · rw [if_pos h3, if_pos (by omega), hlong (by omega) _ (shortest_of_lt_three (by omega) h3)]
    rfl
  · rw [if_neg h3, if_neg (by omega)]

theorem encodeBa_eq (input : List UInt8) :
    encodeBa input = if input.length < 256 ^ 3 then some (encodeBytes input) else none := by
  match input with
  | [] => rfl
  | [b] =>
    have hlt : b < 0x80 ↔ b ≤ 0x7f := by
      rw [UInt8.lt_iff_toNat_lt, UInt8.le_iff_toNat_le]
      exact Nat.lt_succ_iff
    have hsmall : [b].length = 1 ∧ charAt [b] 0 < 0x80 ↔ b ≤ 0x7f := by
      rw [← hlt]
      exact and_iff_right rfl
    have hone : [b].length < 256 ^ 3 := Nat.one_lt_pow (by decide) (by decide)
    rw [encodeBa, if_congr hsmall rfl rfl, encodeLength_eq, if_pos hone, if_pos hone, encodeBytes]
    by_cases hb : b ≤ 0x7f
    · rw [if_pos hb, if_pos hb]
    · rw [if_neg hb, if_neg hb]
      rfl
  | b :: c :: input =>
    rw [encodeBa, if_neg (by simp), encodeLength_eq, encodeBytes, List.nil_append, offset_false]
    · split_ifs <;> rfl
    · simp

theorem encodeItems_eq (inputs : List (List UInt8)) (list : List UInt8) :
    encodeItems inputs list =
      if ∀ input ∈ inputs, input.length < 256 ^ 3 then
        some (list ++ encodeAll (inputs.map .bytes)) else none := by
  induction inputs generalizing list with
  | nil => simp [encodeItems, encodeAll]
  | cons input inputs ih =>
    rw [encodeItems, encodeBa_eq]
    by_cases hin : input.length < 256 ^ 3
    · simp only [hin, if_true, ih, List.forall_mem_cons, true_and, List.map_cons, encodeAll,
        Item.encode, List.append_assoc]
    · simp only [hin, List.forall_mem_cons, false_and, if_false]

theorem length_le_encodeAll {inputs : List (List UInt8)} {input : List UInt8} (h : input ∈ inputs) :
    input.length ≤ (encodeAll (inputs.map .bytes)).length := by
  rw [encodeAll_bytes]
  have hsub : (encodeBytes input).Sublist (inputs.map encodeBytes).flatten :=
    List.sublist_flatten_of_mem (List.mem_map_of_mem h)
  exact (length_le_encodeBytes input).trans hsub.length_le

/-- The encoder writes the shortest form, of lists whose payload has a length of at most three bytes. -/
theorem encodeList_eq (input : List (List UInt8)) (output : List UInt8) :
    encodeList input output =
      if (encodeAll (input.map .bytes)).length < 256 ^ 3 then
        some (output ++ (Item.list (input.map .bytes)).encode) else none := by
  rw [encodeList, encodeItems_eq, Item.encode]
  by_cases hsize : (encodeAll (input.map .bytes)).length < 256 ^ 3
  · have hall : ∀ content ∈ input, content.length < 256 ^ 3 :=
      fun content hmem => (length_le_encodeAll hmem).trans_lt hsize
    simp only [if_pos hall, List.nil_append, encodeLength_eq, if_pos hsize, offset_true,
      List.append_assoc]
  · rw [if_neg hsize]
    split_ifs
    · simp only [List.nil_append, encodeLength_eq, if_neg hsize]
    · rfl

theorem encodes_stringHeaders {contents : List (List UInt8)}
    (h : ∀ content ∈ contents, content.length < 256 ^ 8) :
    List.Forall₂ Encodes (contents.map stringHeader) contents := by
  rw [List.forall₂_map_left_iff, List.forall₂_same]
  exact fun content hmem => encodes_stringHeader (h content hmem)

/-- What the encoder writes is the shortest form of the list, and the decoder gives the list back. -/
theorem decodeList_encodeList (input : List (List UInt8)) (bytes : List UInt8)
    (h : encodeList input [] = some bytes) :
    bytes = (Item.list (input.map .bytes)).encode ∧
      ∃ rounds, decodeList rounds bytes [] = some (true, input) := by
  rw [encodeList_eq] at h
  split_ifs at h with hsize
  obtain rfl : (Item.list (input.map .bytes)).encode = bytes := by simpa using h
  refine ⟨rfl, input.length + 1, ?_⟩
  have hall : ∀ content ∈ input, content.length < 256 ^ 8 := fun content hmem =>
    ((length_le_encodeAll hmem).trans_lt hsize).trans (by decide)
  have hh := header_spec 0xc0 (hsize.trans (by decide))
  have hlen := hh.length_le
  rw [Item.encode, encodeAll_bytes_eq_concat] at *
  refine decodeList_concat hh (encodes_stringHeaders hall) ?_ [] (Nat.lt_succ_self _)
  rw [List.length_append]
  omega

theorem decodeList_encodeList_sample :
    encodeList [[], [0x7f], [0x80]] [] = some [0xc4, 0x80, 0x7f, 0x81, 0x80] ∧
      ∃ rounds, decodeList rounds [0xc4, 0x80, 0x7f, 0x81, 0x80] [] =
        some (true, [[], [0x7f], [0x80]]) :=
  ⟨rfl, (decodeList_encodeList [[], [0x7f], [0x80]] _ rfl).2⟩

end rlp

end ZkevmProver
