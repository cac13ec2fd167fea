import Mathlib.Tactic.SplitIfs
import ZkevmProver.Lib.Cbor
import ZkevmProver.Utils.ByteArray

/-!
# `cbor.cpp`

An item is decoded into a `CborResult`.  The count of an integer is read from the bytes that it takes,
while the integer that is returned is the five low bits of the first byte.

1. The decoder
2. The functions that expect one type
3. What a head is read as
4. Coded items
5. Integers
6. Scalars
-/

namespace ZkevmProver

open BigEndian Cbor

/-! ## The decoder -/

/-- How a call of `cbor2result` ends. -/
inductive CborOutcome (α : Type) where
  | success (result : α) (p : ℕ)
  /-- `ZKR_CBOR_INVALID_DATA` -/
  | invalidData
  /-- A byte after the terminator is read. -/
  | overRead

/-- The count whose `width` bytes start at `p`, and the position after it. -/
def longCountBytes (s : List UInt8) (p width : ℕ) : Option (ℕ × ℕ) :=
  if p + (width - 1) ≥ s.length then none
  else some (value ((List.range width).map fun i => charAt s (p + i)), p + width)

/-- The count that the five low bits of the first byte announce. -/
def longCount (s : List UInt8) (p shortCount : ℕ) : Option (ℕ × ℕ) :=
  if shortCount ≤ 23 then some (shortCount, p)
  else if shortCount = 24 then longCountBytes s p 1
  else if shortCount = 25 then longCountBytes s p 2
  else if shortCount = 26 then longCountBytes s p 4
  else if shortCount = 27 then longCountBytes s p 8
  else some (0, p)

/-- The content of a string. -/
def cborString (s : List UInt8) (p longCount : ℕ) (item : List UInt8 → Item) : CborOutcome Item :=
  if add64 p longCount > s.length then .invalidData
  else .success (item ((s.drop p).take longCount)) (add64 p longCount)

/-- The items of an array, each by a call of `cbor2result`. -/
def cborArray (item : ℕ → Option (CborOutcome Item)) :
    ℕ → ℕ → List Item → Option (CborOutcome (List Item))
  | 0, p, array => some (.success array p)
  | count + 1, p, array =>
    match item p with
    | some (.success result p) => cborArray item count p (array ++ [result])
    | some .invalidData => some .invalidData
    | some .overRead => some .overRead
    | none => none

/-- The switch over the major types, where `nested` is a call of `cbor2result`. -/
def cborPayload (nested : ℕ → Option (CborOutcome Item)) (s : List UInt8)
    (majorType shortCount longCount p : ℕ) : Option (CborOutcome Item) :=
  match majorType with
  | 2 => some (cborString s p longCount .ba)
  | 3 => some (cborString s p longCount .text)
  | 4 =>
    match cborArray nested longCount p [] with
    | some (.success array p) => some (.success (.array array) p)
    | some .invalidData => some .invalidData
    | some .overRead => some .overRead
    | none => none
  | 5 => some .invalidData
  | 6 =>
    match nested p with
    | some (.success result p) => some (.success (.tag longCount result) p)
    | some .invalidData => some .invalidData
    | some .overRead => some .overRead
    | none => none
  -- 0, 1 and 7
  | _ => some (.success (.u64 shortCount) p)

/-- `none` where calls are nested more than `depth` deep. -/
def cbor2result : ℕ → List UInt8 → ℕ → Option (CborOutcome Item)
  | 0, _, _ => none
  | depth + 1, s, p =>
    -- the check of `p` against the size sets the result, which is then overwritten
    if p > s.length then some .overRead
    else
      let firstByte := (charAt s p).toNat
      let p := p + 1
      if firstByte < 24 then some (.success (.u64 firstByte) p)
      else
        let majorType := firstByte >>> 5
        let shortCount := firstByte &&& 0x1F
        match longCount s p shortCount with
        | none => some .invalidData
        | some (longCount, p) =>
          cborPayload (cbor2result depth s) s majorType shortCount longCount p

/-! ## The functions that expect one type -/

/-- What the functions that expect one type have in common. -/
def cborExpect {α : Type} (expect : Item → Option α) (depth : ℕ) (s : List UInt8) (p : ℕ) :
    Option (CborOutcome α) :=
  match cbor2result depth s p with
  | some (.success result p) =>
    match expect result with
    | some value => some (.success value p)
    | none => some .invalidData
  | some .invalidData => some .invalidData
  | some .overRead => some .overRead
  | none => none

def cbor2u64 : ℕ → List UInt8 → ℕ → Option (CborOutcome ℕ) :=
  cborExpect fun
    | .u64 n => some n
    | _ => none

def cbor2ba : ℕ → List UInt8 → ℕ → Option (CborOutcome (List UInt8)) :=
  cborExpect fun
    | .ba content => some content
    | _ => none

def cbor2text : ℕ → List UInt8 → ℕ → Option (CborOutcome (List UInt8)) :=
  cborExpect fun
    | .text content => some content
    | _ => none

def cbor2scalar : ℕ → List UInt8 → ℕ → Option (CborOutcome ℕ) :=
  cborExpect fun
    | .u64 n => some n
    | .ba content => if content.length > 32 then none else some (ba2scalar content)
    | _ => none

/-! ## What a head is read as -/

section Reading

variable {before rest after : List UInt8}

theorem map_charAt (before rest : List UInt8) {width : ℕ} (h : width ≤ rest.length) :
    ((List.range width).map fun i => charAt (before ++ rest) (before.length + i)) =
      rest.take width := by
  apply List.ext_getElem
  · simp [h]
  · intro i hi _
    have hi' : i < rest.length := by simp at hi; omega
    simp [charAt, hi']

theorem longCountBytes_eq (before rest : List UInt8) {width : ℕ} (hpos : 0 < width) :
    longCountBytes (before ++ rest) before.length width =
      if width ≤ rest.length then some (value (rest.take width), before.length + width)
      else none := by
  rw [longCountBytes, List.length_append]
  by_cases h : width ≤ rest.length
  · rw [if_neg (by omega), if_pos h, map_charAt before rest h]
  · rw [if_pos (by omega), if_neg h]

theorem longCount_form {form : Form} {n : ℕ} (hfits : form.Fits n) :
    longCount (before ++ (bytes form.width n ++ after)) before.length (form.info n) =
      some (n, before.length + form.width) := by
  have hlong (width : ℕ) (hpos : 0 < width) (hn : n < 256 ^ width) :
      longCountBytes (before ++ (bytes width n ++ after)) before.length width =
        some (n, before.length + width) := by
    have hlen : (bytes width n).length = width := length_bytes width n
    have htake : (bytes width n ++ after).take width = bytes width n := by
      rw [List.take_append_of_le_length hlen.ge, List.take_of_length_le hlen.le]
    rw [longCountBytes_eq _ _ hpos, if_pos (by simp), htake, value_bytes_of_lt hn]
  cases form with
  | immediate =>
    have hle : n ≤ 23 := Nat.le_of_lt_succ hfits
    exact if_pos hle
  | one => exact hlong 1 (by decide) hfits
  | two => exact hlong 2 (by decide) hfits
  | four => exact hlong 4 (by decide) hfits
  | eight => exact hlong 8 (by decide) hfits

/-- A head is read as it is written. -/
theorem cbor2result_head (depth : ℕ) {major : ℕ} {form : Form} {n : ℕ} (hmajor : major < 8)
    (hfits : form.Fits n) :
    cbor2result (depth + 1) (before ++ (head major form n ++ after)) before.length =
      cborPayload (cbor2result depth (before ++ (head major form n ++ after)))
        (before ++ (head major form n ++ after)) major (form.info n) n
        (before.length + (head major form n).length) := by
  have hinfo := Form.info_lt hfits
  have hbyte : ((32 * major + form.info n).toUInt8).toNat = 32 * major + form.info n := by
    simp only [Nat.toUInt8_eq, UInt8.toNat_ofNat']
    omega
  have hlen : ¬before.length > (before ++ (head major form n ++ after)).length := by simp
  have hchar : (charAt (before ++ (head major form n ++ after)) before.length).toNat =
      32 * major + form.info n := by
    rw [head, List.cons_append, charAt_append, hbyte]
  have hmajorType : (32 * major + form.info n) >>> 5 = major := by
    rw [Nat.shiftRight_eq_div_pow]
    omega
  have hshort : (32 * major + form.info n) &&& 0x1F = form.info n := by
    rw [show 0x1F = 2 ^ 5 - 1 from rfl, Nat.and_two_pow_sub_one_eq_mod]
    omega
  rw [cbor2result, if_neg hlen]
  simp only [hchar, hmajorType, hshort]
  by_cases hfirst : 32 * major + form.info n < 24
  · obtain rfl : major = 0 := by omega
    have himm : form = .immediate := by
      cases form <;> simp_all [Form.info]
    subst himm
    rw [if_pos hfirst, Nat.mul_zero, Nat.zero_add]
    rfl
  · have hcount := @longCount_form (before ++ [(32 * major + form.info n).toUInt8]) after _ _ hfits
    rw [List.append_assoc, List.singleton_append, ← List.cons_append, ← head, List.length_append,
      List.length_singleton] at hcount
    rw [if_neg hfirst, hcount, length_head, Nat.add_assoc]

end Reading

/-! ## Coded items -/

end ZkevmProver

namespace Cbor.Coded

mutual

/-- What `cbor2result` makes of a coded item: of an integer it keeps the five low bits of the first
byte. -/
def read : Coded → Item
  | .u64 form n => .u64 (form.info n)
  | .ba _ content => .ba content
  | .text _ content => .text content
  | .array _ items => .array (readAll items)
  | .tag _ count inner => .tag count inner.read

def readAll : List Coded → List Item
  | [] => []
  | c :: cs => c.read :: readAll cs

end

mutual

/-- Each integer is the five low bits of its first byte: it is written in the first byte, or it is 24, 25,
26 or 27 and written in the one, two, four or eight bytes that follow. -/
def InFirstByte : Coded → Prop
  | .u64 form n => form.info n = n
  | .ba _ _ => True
  | .text _ _ => True
  | .array _ items => AllInFirstByte items
  | .tag _ _ inner => inner.InFirstByte

def AllInFirstByte : List Coded → Prop
  | [] => True
  | c :: cs => c.InFirstByte ∧ AllInFirstByte cs

end

mutual

/-- How deep calls are nested. -/
def depth : Coded → ℕ
  | .u64 _ _ => 1
  | .ba _ _ => 1
  | .text _ _ => 1
  | .array _ items => depthAll items + 1
  | .tag _ _ inner => inner.depth + 1

def depthAll : List Coded → ℕ
  | [] => 0
  | c :: cs => max c.depth (depthAll cs)

end

mutual

theorem read_eq_item : ∀ c : Coded, c.read = c.item ↔ c.InFirstByte
  | .u64 form n => by simp [read, item, InFirstByte]
  | .ba form content => by simp [read, item, InFirstByte]
  | .text form content => by simp [read, item, InFirstByte]
  | .array form items => by simp [read, item, InFirstByte, readAll_eq_itemAll items]
  | .tag form count inner => by simp [read, item, InFirstByte, read_eq_item inner]

theorem readAll_eq_itemAll : ∀ cs : List Coded, readAll cs = itemAll cs ↔ AllInFirstByte cs
  | [] => by simp [readAll, itemAll, AllInFirstByte]
  | c :: cs => by simp [readAll, itemAll, AllInFirstByte, read_eq_item c, readAll_eq_itemAll cs]

end

end Cbor.Coded

namespace ZkevmProver

open BigEndian Cbor

/-- The content of a string that is there. -/
theorem cborString_append (before content after : List UInt8) (item : List UInt8 → Item)
    (hsize : (before ++ (content ++ after)).length < 2 ^ 64) :
    cborString (before ++ (content ++ after)) before.length content.length item =
      .success (item content) (before.length + content.length) := by
  simp only [List.length_append] at hsize
  have hadd : add64 before.length content.length = before.length + content.length :=
    add64_of_lt (by omega)
  have hroom : ¬before.length + content.length > (before ++ (content ++ after)).length := by
    simp only [List.length_append]
    omega
  rw [cborString, hadd, if_neg hroom, List.drop_left, List.take_left]

mutual

theorem cbor2result_encode : ∀ (c : Coded) {depth : ℕ}, c.Valid → c.depth ≤ depth →
    ∀ before after : List UInt8, (before ++ (c.encode ++ after)).length < 2 ^ 64 →
    cbor2result depth (before ++ (c.encode ++ after)) before.length =
      some (.success c.read (before.length + c.encode.length))
  | .u64 form n, depth + 1, hvalid, _, before, after, _ =>
    cbor2result_head depth (by decide) hvalid
  | .ba form content, depth + 1, hvalid, _, before, after, hsize => by
    have hhead := @cbor2result_head before (content ++ after) depth 2 _ _ (by decide) hvalid
    have hcontent := cborString_append (before ++ head 2 form content.length) content after .ba
      (by simpa [Coded.encode] using hsize)
    rw [List.length_append, List.append_assoc] at hcontent
    rw [Coded.encode, List.append_assoc, hhead, cborPayload, hcontent, List.length_append,
      Nat.add_assoc, Coded.read]
  | .text form content, depth + 1, hvalid, _, before, after, hsize => by
    have hhead := @cbor2result_head before (content ++ after) depth 3 _ _ (by decide) hvalid
    have hcontent := cborString_append (before ++ head 3 form content.length) content after .text
      (by simpa [Coded.encode] using hsize)
    rw [List.length_append, List.append_assoc] at hcontent
    rw [Coded.encode, List.append_assoc, hhead, cborPayload, hcontent, List.length_append,
      Nat.add_assoc, Coded.read]
  | .array form items, depth + 1, hvalid, hdepth, before, after, hsize => by
    rw [Coded.Valid] at hvalid
    rw [Coded.depth] at hdepth
    have hhead := @cbor2result_head before (Coded.encodeAll items ++ after) depth 4 _ _ (by decide) hvalid.1
    have hitems := cborArray_encodeAll items hvalid.2 (Nat.le_of_succ_le_succ hdepth)
      (before ++ head 4 form items.length) after [] (by simpa [Coded.encode] using hsize)
    rw [List.length_append, List.append_assoc] at hitems
    rw [Coded.encode, List.append_assoc, hhead, cborPayload, hitems]
    simp only [List.nil_append, List.length_append, Nat.add_assoc, Coded.read]
  | .tag form count inner, depth + 1, hvalid, hdepth, before, after, hsize => by
    rw [Coded.Valid] at hvalid
    rw [Coded.depth] at hdepth
    have hhead := @cbor2result_head before (inner.encode ++ after) depth 6 _ _ (by decide) hvalid.1
    have hinner := cbor2result_encode inner hvalid.2 (Nat.le_of_succ_le_succ hdepth)
      (before ++ head 6 form count) after (by simpa [Coded.encode] using hsize)
    rw [List.length_append, List.append_assoc] at hinner
    rw [Coded.encode, List.append_assoc, hhead, cborPayload, hinner]
    simp only [List.length_append, Nat.add_assoc, Coded.read]

theorem cborArray_encodeAll : ∀ (cs : List Coded) {depth : ℕ}, Coded.ValidAll cs →
    Coded.depthAll cs ≤ depth → ∀ (before after : List UInt8) (array : List Item),
    (before ++ (Coded.encodeAll cs ++ after)).length < 2 ^ 64 →
    cborArray (cbor2result depth (before ++ (Coded.encodeAll cs ++ after))) cs.length before.length
        array =
      some (.success (array ++ Coded.readAll cs) (before.length + (Coded.encodeAll cs).length))
  | [], _, _, _, before, after, array, _ => by
    simp [cborArray, Coded.readAll, Coded.encodeAll]
  | c :: cs, depth, hvalid, hdepth, before, after, array, hsize => by
    rw [Coded.ValidAll] at hvalid
    rw [Coded.depthAll, Nat.max_le] at hdepth
    have hfirst := cbor2result_encode c hvalid.1 hdepth.1 before (Coded.encodeAll cs ++ after)
      (by simpa [Coded.encodeAll] using hsize)
    have hnext := cborArray_encodeAll cs hvalid.2 hdepth.2 (before ++ c.encode) after
      (array ++ [c.read]) (by simpa [Coded.encodeAll] using hsize)
    rw [List.length_append, List.append_assoc] at hnext
    rw [Coded.encodeAll, List.append_assoc, List.length_cons, cborArray, hfirst]
    simp only [hnext, Coded.readAll, List.append_assoc, List.singleton_append, List.length_append,
      Nat.add_assoc]

end

/-! ## Integers -/

section Depth

variable {nested nested' : ℕ → Option (CborOutcome Item)}
  (hnested : ∀ p outcome, nested p = some outcome → nested' p = some outcome)
include hnested

theorem cborArray_mono {count p : ℕ} {array : List Item} {outcome : CborOutcome (List Item)}
    (h : cborArray nested count p array = some outcome) :
    cborArray nested' count p array = some outcome := by
  induction count generalizing p array with
  | zero => exact h
  | succ count ih =>
    rw [cborArray] at h ⊢
    cases hp : nested p with
    | none => simp [hp] at h
    | some outcome' =>
      rw [hp] at h
      rw [hnested p _ hp]
      cases outcome' with
      | success result q => exact ih h
      | invalidData => exact h
      | overRead => exact h

theorem cborPayload_mono {s : List UInt8} {majorType shortCount longCount p : ℕ}
    {outcome : CborOutcome Item}
    (h : cborPayload nested s majorType shortCount longCount p = some outcome) :
    cborPayload nested' s majorType shortCount longCount p = some outcome := by
  unfold cborPayload at h ⊢
  split at h
  · exact h
  · exact h
  · cases hp : cborArray nested longCount p [] with
    | none => simp [hp] at h
    | some outcome' =>
      rw [hp] at h
      rw [cborArray_mono hnested hp]
      exact h
  · exact h
  · cases hp : nested p with
    | none => simp [hp] at h
    | some outcome' =>
      rw [hp] at h
      rw [hnested p _ hp]
      exact h
  · exact h

end Depth

/-- Room for deeper calls does not change what a call returns. -/
theorem cbor2result_mono {depth depth' : ℕ} (hle : depth ≤ depth') (s : List UInt8) (p : ℕ)
    (outcome : CborOutcome Item) (h : cbor2result depth s p = some outcome) :
    cbor2result depth' s p = some outcome := by
  induction depth generalizing depth' p outcome with
  | zero => cases h
  | succ depth ih =>
    obtain ⟨k, rfl⟩ := Nat.exists_eq_add_of_le hle
    rw [Nat.add_right_comm]
    rw [cbor2result] at h ⊢
    by_cases hp : p > s.length
    · rw [if_pos hp] at h ⊢
      exact h
    · rw [if_neg hp] at h ⊢
      simp only at h ⊢
      by_cases hfirst : (charAt s p).toNat < 24
      · rw [if_pos hfirst] at h ⊢
        exact h
      · rw [if_neg hfirst] at h ⊢
        cases hcount : longCount s (p + 1) ((charAt s p).toNat &&& 0x1F) with
        | none => simpa [hcount] using h
        | some count =>
          simp only [hcount] at h ⊢
          exact cborPayload_mono (fun p outcome => ih (by omega) p outcome) h

theorem cbor2result_unique {s : List UInt8} {p depth depth' : ℕ} {outcome outcome' : CborOutcome Item}
    (h : cbor2result depth s p = some outcome) (h' : cbor2result depth' s p = some outcome') :
    outcome = outcome' := by
  obtain hle | hle := Nat.le_total depth depth'
  · exact Option.some.inj ((cbor2result_mono hle s p _ h).symm.trans h')
  · exact Option.some.inj (h.symm.trans (cbor2result_mono hle s p _ h'))

/-- Decoding a coded item gives the item back, and the position after it, exactly when each integer is the
five low bits of its first byte. -/
theorem cbor2result_encode_iff (c : Coded) (hc : c.Valid) (before after : List UInt8)
    (hsize : (before ++ (c.encode ++ after)).length < 2 ^ 64) :
    (∃ depth, cbor2result depth (before ++ (c.encode ++ after)) before.length =
      some (.success c.item (before.length + c.encode.length))) ↔ c.InFirstByte := by
  have hread := cbor2result_encode c hc le_rfl before after hsize
  rw [← Coded.read_eq_item]
  constructor
  · rintro ⟨depth, hdepth⟩
    have heq := cbor2result_unique hread hdepth
    injection heq
  · intro heq
    exact ⟨c.depth, heq ▸ hread⟩

/-- The integer 24, written as `0x18 0x18`, before a byte that is not its own. -/
theorem cbor2result_encode_iff_sample : (Coded.u64 .one 24).Valid ∧
    ((∃ depth, cbor2result depth ([] ++ ((Coded.u64 .one 24).encode ++ [0])) 0 =
      some (.success (.u64 24) 2)) ↔ (Coded.u64 .one 24).InFirstByte) := by
  have hvalid : (Coded.u64 .one 24).Valid := show 24 < 256 ^ 1 by decide
  exact ⟨hvalid, cbor2result_encode_iff _ hvalid [] [0] (by decide)⟩

/-- The integer 100, written as `0x18 0x64`. -/
theorem cbor2result_hundred : (Coded.u64 .one 100).encode = [0x18, 0x64] ∧
    ¬∃ depth, cbor2result depth [0x18, 0x64] 0 = some (.success (.u64 100) 2) := by
  refine ⟨rfl, ?_⟩
  rintro ⟨depth, hdepth⟩
  have hread : cbor2result 1 [0x18, 0x64] 0 = some (.success (.u64 24) 2) := rfl
  have heq := cbor2result_unique hread hdepth
  injection heq with hitem _
  injection hitem with hn
  exact absurd hn (by decide)

/-! ## Scalars -/

/-- An integer is the low bits of a byte. -/
theorem u64_lt_of_cbor2result {depth p q n : ℕ} {s : List UInt8}
    (h : cbor2result depth s p = some (.success (.u64 n) q)) : n < 32 := by
  cases depth with
  | zero => cases h
  | succ depth =>
    rw [cbor2result] at h
    split_ifs at h with hbeyond
    · cases h
    simp only at h
    split_ifs at h with hsmall
    · injection h with h
      injection h with hn _
      injection hn with hn
      omega
    · have hshort : (charAt s p).toNat &&& 0x1F < 32 :=
        Nat.and_lt_two_pow (n := 5) _ (by decide)
      split at h
      · cases h
      · unfold cborPayload at h
        split at h
        · unfold cborString at h
          split_ifs at h <;> cases h
        · unfold cborString at h
          split_ifs at h <;> cases h
        · split at h <;> cases h
        · cases h
        · split at h <;> cases h
        · injection h with h
          injection h with hn _
          injection hn with hn
          omega

theorem cbor2scalar_lt {depth p q n : ℕ} {s : List UInt8}
    (h : cbor2scalar depth s p = some (.success n q)) : n < 2 ^ 256 := by
  unfold cbor2scalar cborExpect at h
  split at h
  · rename_i item p' hitem
    split at h
    · rename_i value hvalue
      injection h with h
      injection h with hn _
      subst hn
      dsimp only at hvalue
      split at hvalue
      · obtain rfl := Option.some.inj hvalue
        exact (u64_lt_of_cbor2result hitem).trans (by decide)
      · split_ifs at hvalue with hlong
        obtain rfl := Option.some.inj hvalue
        have hpow : 256 ^ _ ≤ 256 ^ 32 := Nat.pow_le_pow_right (by decide) (Nat.not_lt.mp hlong)
        exact (value_lt _).trans_le (hpow.trans (by decide))
      · cases hvalue
    · cases h
  all_goals cases h

end ZkevmProver
