import ZkevmProver.Prover.Cbor

/-!
# Decoding any bytes

What is not a data item is refused unless it ends where an item is due, its first byte is one of those that
are reserved, or the length of a string wraps.

1. The items that are come to
2. Heads
3. Well-formed items
4. Items that are refused
5. Which bytes are decoded as they should be
-/

namespace ZkevmProver

open BigEndian Cbor

/-! ## The items that are come to -/

/-- `ComesTo before rest before' rest'`: reading the item at the start of `rest`, which comes after `before`,
comes to the item at the start of `rest'`.  After a tag an item is read, whatever the count of the tag, and
in an array one after each whole item. -/
inductive ComesTo : List UInt8 → List UInt8 → List UInt8 → List UInt8 → Prop
  | here {before rest : List UInt8} : ComesTo before rest before rest
  | tag {before rest before' rest' : List UInt8} {form : Form} {count : ℕ} : form.Fits count →
      ComesTo (before ++ head 6 form count) rest before' rest' →
      ComesTo before (head 6 form count ++ rest) before' rest'
  | reservedTag {before rest before' rest' : List UInt8} {b : UInt8} : b.toNat / 32 = 6 →
      28 ≤ b.toNat % 32 → ComesTo (before ++ [b]) rest before' rest' →
      ComesTo before (b :: rest) before' rest'
  | array {before rest before' rest' : List UInt8} {form : Form} {count : ℕ} {items : List (List UInt8)} :
      form.Fits count → items.length < count → (∀ item ∈ items, WellFormed item) →
      ComesTo (before ++ (head 4 form count ++ items.flatten)) rest before' rest' →
      ComesTo before (head 4 form count ++ (items.flatten ++ rest)) before' rest'

theorem ComesTo.trans {before rest before' rest' before'' rest'' : List UInt8}
    (h : ComesTo before rest before' rest') (h' : ComesTo before' rest' before'' rest'') :
    ComesTo before rest before'' rest'' := by
  induction h with
  | here => exact h'
  | tag hfits _ ih => exact .tag hfits (ih h')
  | reservedTag hmajor hreserved _ ih => exact .reservedTag hmajor hreserved (ih h')
  | array hfits hlt hitems _ ih => exact .array hfits hlt hitems (ih h')

theorem ComesTo.append_eq {before rest before' rest' : List UInt8}
    (h : ComesTo before rest before' rest') : before ++ rest = before' ++ rest' := by
  induction h with
  | here => rfl
  | tag _ _ ih => rw [← ih, List.append_assoc]
  | reservedTag _ _ _ ih => rw [← ih, List.append_assoc, List.singleton_append]
  | array _ _ _ _ ih => rw [← ih, List.append_assoc, List.append_assoc]

/-- The item at the start of `rest` is decoded as it should be: the call ends, within the bytes, with an
error, or after the bytes of an item. -/
def DecodesSafely (before rest : List UInt8) : Prop :=
  ∃ depth, cbor2result depth (before ++ rest) before.length = some .invalidData ∨
    ∃ item bytes after, rest = bytes ++ after ∧ WellFormed bytes ∧
      cbor2result depth (before ++ rest) before.length =
        some (.success item (before.length + bytes.length))

/-- There is a byte, it is not reserved, unless maps or errors follow, and no length wraps. -/
def Regular (before : List UInt8) : List UInt8 → Prop
  | [] => False
  | b :: after =>
    (b.toNat % 32 < 28 ∨ b.toNat / 32 = 5 ∨
      b.toNat / 32 = 6 ∧ ¬∃ item after', after = item ++ after' ∧ WellFormed item) ∧
    ∀ major form n tail, major = 2 ∨ major = 3 → form.Fits n → b :: after = head major form n ++ tail →
      (before ++ head major form n).length + n < 2 ^ 64

/-! ## Heads -/

theorem toNat_firstByte {major : ℕ} {form : Form} {n : ℕ} (hmajor : major < 8) (hfits : form.Fits n) :
    ((32 * major + form.info n).toUInt8).toNat = 32 * major + form.info n := by
  have hinfo := Form.info_lt hfits
  simp only [Nat.toUInt8_eq, UInt8.toNat_ofNat']
  omega

/-- Two heads at the start of the same bytes are the same. -/
theorem head_append_inj {major major' : ℕ} {form form' : Form} {n n' : ℕ} {tail tail' : List UInt8}
    (hmajor : major < 8) (hmajor' : major' < 8) (hfits : form.Fits n) (hfits' : form'.Fits n')
    (h : head major form n ++ tail = head major' form' n' ++ tail') :
    major = major' ∧ form = form' ∧ n = n' ∧ tail = tail' := by
  rw [head, head, List.cons_append, List.cons_append] at h
  obtain ⟨hbyte, hrest⟩ := List.cons.inj h
  have hinfo := Form.info_lt hfits
  have hinfo' := Form.info_lt hfits'
  have hsum := congrArg UInt8.toNat hbyte
  rw [toNat_firstByte hmajor hfits, toNat_firstByte hmajor' hfits'] at hsum
  obtain rfl : major = major' := by omega
  have hsame : form.info n = form'.info n' := by omega
  have hform : form = form' := by
    cases form <;> cases form' <;> first
      | rfl
      | (simp only [Form.info, Form.Fits] at hsame hfits hfits'; omega)
  subst hform
  obtain ⟨hbytes, htail⟩ := List.append_inj hrest (by rw [length_bytes, length_bytes])
  have hn : n = n' := by
    cases form with
    | immediate => exact hsame
    | _ =>
      have hvalue := congrArg value hbytes
      rwa [value_bytes_of_lt hfits, value_bytes_of_lt hfits'] at hvalue
  exact ⟨rfl, rfl, hn, htail⟩

/-- Bytes that do not begin with a reserved one begin with a head, or end within one. -/
theorem exists_head {before : List UInt8} {b : UInt8} {after : List UInt8} (hlow : b.toNat % 32 < 28) :
    (∃ form n tail, form.Fits n ∧ b :: after = head (b.toNat / 32) form n ++ tail) ∨
      24 ≤ b.toNat % 32 ∧
        longCount (before ++ b :: after) (before.length + 1) (b.toNat % 32) = none := by
  have hb : ((32 * (b.toNat / 32) + b.toNat % 32).toUInt8) = b := by
    apply UInt8.toNat_inj.mp
    rw [Nat.div_add_mod]
    simp
  have hlong (form : Form) (hwidth : 0 < form.width) (hinfo : ∀ n, form.info n = b.toNat % 32)
      (hfits : ∀ n, n < 256 ^ form.width → form.Fits n) (h24 : 24 ≤ b.toNat % 32)
      (hcount : ∀ s p, longCount s p (b.toNat % 32) = longCountBytes s p form.width) :
      (∃ form n tail, form.Fits n ∧ b :: after = head (b.toNat / 32) form n ++ tail) ∨
        24 ≤ b.toNat % 32 ∧
          longCount (before ++ b :: after) (before.length + 1) (b.toNat % 32) = none := by
    by_cases hroom : form.width ≤ after.length
    · refine Or.inl ⟨form, value (after.take form.width), after.drop form.width, hfits _ ?_, ?_⟩
      · have hlt := value_lt (after.take form.width)
        rwa [List.length_take, Nat.min_eq_left hroom] at hlt
      · have hbytes := bytes_value (after.take form.width)
        rw [List.length_take, Nat.min_eq_left hroom] at hbytes
        rw [head, hinfo, hb, hbytes, List.cons_append, List.take_append_drop]
    · have hnone := longCountBytes_eq (before ++ [b]) after hwidth
      rw [if_neg hroom, List.append_assoc, List.singleton_append, List.length_append,
        List.length_singleton] at hnone
      exact Or.inr ⟨h24, (hcount _ _).trans hnone⟩
  obtain hsmall | h24 := Nat.lt_or_ge (b.toNat % 32) 24
  · refine Or.inl ⟨.immediate, b.toNat % 32, after, hsmall, ?_⟩
    rw [head, Form.info, hb]
    rfl
  obtain h | h | h | h : b.toNat % 32 = 24 ∨ b.toNat % 32 = 25 ∨ b.toNat % 32 = 26 ∨
      b.toNat % 32 = 27 := by omega
  · exact hlong .one (by decide) (fun _ => h.symm) (fun _ => id) h24 fun s p => by rw [h]; rfl
  · exact hlong .two (by decide) (fun _ => h.symm) (fun _ => id) h24 fun s p => by rw [h]; rfl
  · exact hlong .four (by decide) (fun _ => h.symm) (fun _ => id) h24 fun s p => by rw [h]; rfl
  · exact hlong .eight (by decide) (fun _ => h.symm) (fun _ => id) h24 fun s p => by rw [h]; rfl

/-! ## Well-formed items -/

/-- Wherever the bytes are, the call at their start succeeds and ends after them. -/
def ReadsWhole (depth : ℕ) (bytes : List UInt8) : Prop :=
  ∀ before after : List UInt8, (before ++ (bytes ++ after)).length < 2 ^ 64 →
    ∃ item, cbor2result depth (before ++ (bytes ++ after)) before.length =
      some (.success item (before.length + bytes.length))

theorem ReadsWhole.mono {depth depth' : ℕ} {bytes : List UInt8} (hle : depth ≤ depth')
    (h : ReadsWhole depth bytes) : ReadsWhole depth' bytes := by
  intro before after hsize
  obtain ⟨item, hitem⟩ := h before after hsize
  exact ⟨item, cbor2result_mono hle _ _ _ hitem⟩

/-- The rounds of an array over whole items. -/
theorem cborArray_items {depth count : ℕ} {before after : List UInt8} (items : List (List UInt8))
    (hitems : ∀ item ∈ items, ReadsWhole depth item) (array : List Item)
    (hsize : (before ++ (items.flatten ++ after)).length < 2 ^ 64) :
    ∃ results, cborArray (cbor2result depth (before ++ (items.flatten ++ after))) (items.length + count)
        before.length array =
      cborArray (cbor2result depth (before ++ (items.flatten ++ after))) count
        (before ++ items.flatten).length results := by
  induction items generalizing before array with
  | nil =>
    rw [List.flatten_nil, List.append_nil, List.length_nil, Nat.zero_add]
    exact ⟨array, rfl⟩
  | cons item items ih =>
    rw [List.flatten_cons, List.append_assoc] at hsize ⊢
    obtain ⟨result, hresult⟩ := hitems item List.mem_cons_self before (items.flatten ++ after) hsize
    have hassoc : before ++ (item ++ (items.flatten ++ after)) =
        (before ++ item) ++ (items.flatten ++ after) := by
      rw [List.append_assoc]
    rw [List.length_cons, Nat.add_right_comm, cborArray, hresult]
    dsimp only
    rw [hassoc] at hsize
    obtain ⟨results, hresults⟩ := ih (fun item hitem => hitems item (List.mem_cons_of_mem _ hitem))
      (array ++ [result]) hsize
    refine ⟨results, ?_⟩
    rw [hassoc, ← List.length_append, hresults, List.append_assoc before item items.flatten]

/-- The call at a head. -/
theorem cbor2result_head_eq {depth major n : ℕ} {form : Form} {before tail : List UInt8}
    (hmajor : major < 8) (hfits : form.Fits n) :
    cbor2result (depth + 1) (before ++ (head major form n ++ tail)) before.length =
      cborPayload (cbor2result depth ((before ++ head major form n) ++ tail))
        ((before ++ head major form n) ++ tail) major (form.info n) n
        (before ++ head major form n).length := by
  rw [cbor2result_head depth hmajor hfits, List.append_assoc, List.length_append]

theorem exists_depth {items : List (List UInt8)} (h : ∀ item ∈ items, ∃ depth, ReadsWhole depth item) :
    ∃ depth, ∀ item ∈ items, ReadsWhole depth item := by
  induction items with
  | nil => exact ⟨0, fun item hitem => absurd hitem List.not_mem_nil⟩
  | cons item items ih =>
    obtain ⟨depth, hdepth⟩ := h item List.mem_cons_self
    obtain ⟨depths, hdepths⟩ := ih fun item hitem => h item (List.mem_cons_of_mem _ hitem)
    refine ⟨max depth depths, List.forall_mem_cons.mpr ⟨hdepth.mono (Nat.le_max_left _ _), ?_⟩⟩
    exact fun item hitem => (hdepths item hitem).mono (Nat.le_max_right _ _)

theorem reads_of_wellFormed {bytes : List UInt8} (h : WellFormed bytes) :
    ∃ depth, ReadsWhole depth bytes := by
  induction h with
  | @plain major form n hmajor hfits =>
    refine ⟨1, fun before after hsize => ?_⟩
    rw [cbor2result_head_eq (by omega) hfits, List.length_append]
    obtain rfl | rfl | rfl := hmajor
    · exact ⟨_, rfl⟩
    · exact ⟨_, rfl⟩
    · exact ⟨_, rfl⟩
  | @string major form content hmajor hfits =>
    refine ⟨1, fun before after hsize => ?_⟩
    rw [List.append_assoc] at hsize ⊢
    have hcontent (item : List UInt8 → Item) :
        cborString ((before ++ head major form content.length) ++ (content ++ after))
          (before ++ head major form content.length).length content.length item =
          .success (item content) (before.length +
            (head major form content.length ++ content).length) := by
      rw [cborString_append _ _ _ _ (by rwa [List.append_assoc]), List.length_append,
        List.length_append, Nat.add_assoc]
    rw [cbor2result_head_eq (by omega) hfits]
    obtain rfl | rfl := hmajor
    · exact ⟨_, congrArg some (hcontent .ba)⟩
    · exact ⟨_, congrArg some (hcontent .text)⟩
  | @array form items hfits _ ih =>
    obtain ⟨depth, hdepth⟩ := exists_depth ih
    refine ⟨depth + 1, fun before after hsize => ?_⟩
    rw [List.append_assoc] at hsize ⊢
    rw [cbor2result_head_eq (by decide) hfits, cborPayload]
    rw [← List.append_assoc] at hsize
    obtain ⟨results, hresults⟩ := @cborArray_items depth 0 _ after items hdepth [] hsize
    rw [Nat.add_zero] at hresults
    rw [hresults, cborArray]
    refine ⟨.array results, ?_⟩
    simp only [List.length_append, Nat.add_assoc]
  | @tag form count item hfits _ ih =>
    obtain ⟨depth, hdepth⟩ := ih
    refine ⟨depth + 1, fun before after hsize => ?_⟩
    rw [List.append_assoc] at hsize ⊢
    rw [cbor2result_head_eq (by decide) hfits, cborPayload]
    rw [← List.append_assoc] at hsize
    obtain ⟨result, hresult⟩ := hdepth _ after hsize
    rw [hresult]
    refine ⟨.tag count result, ?_⟩
    simp only [List.length_append, Nat.add_assoc]

/-! ## Items that are refused -/

section Refused

variable {before rest : List UInt8}

theorem not_reserved_of_wellFormed {b : UInt8} {bytes after after' : List UInt8} (h : WellFormed bytes)
    (hbytes : b :: after = bytes ++ after') : b.toNat % 32 < 28 := by
  have hlow {major n : ℕ} {form : Form} {tail : List UInt8} (hmajor : major < 8) (hfits : form.Fits n)
      (heq : b :: after = head major form n ++ tail) : b.toNat % 32 < 28 := by
    rw [head, List.cons_append] at heq
    have hinfo := Form.info_lt hfits
    rw [(List.cons.inj heq).1, toNat_firstByte hmajor hfits]
    omega
  cases h with
  | plain hmajor hfits => exact hlow (by omega) hfits hbytes
  | string hmajor hfits =>
    rw [List.append_assoc] at hbytes
    exact hlow (by omega) hfits hbytes
  | array hfits =>
    rw [List.append_assoc] at hbytes
    exact hlow (by decide) hfits hbytes
  | tag hfits =>
    rw [List.append_assoc] at hbytes
    exact hlow (by decide) hfits hbytes

/-- A string takes at least as many bytes as its head says. -/
theorem le_length_of_wellFormed {major n : ℕ} {form : Form} {bytes tail after : List UInt8}
    (hmajor : major = 2 ∨ major = 3) (hfits : form.Fits n) (h : WellFormed bytes)
    (heq : head major form n ++ tail = bytes ++ after) : n ≤ bytes.length := by
  cases h with
  | plain hmajor' hfits' =>
    obtain ⟨rfl, -⟩ := head_append_inj (by omega) (by omega) hfits hfits' heq
    omega
  | string hmajor' hfits' =>
    rw [List.append_assoc] at heq
    obtain ⟨-, -, rfl, -⟩ := head_append_inj (by omega) (by omega) hfits hfits' heq
    rw [List.length_append]
    exact Nat.le_add_left _ _
  | array hfits' =>
    rw [List.append_assoc] at heq
    obtain ⟨rfl, -⟩ := head_append_inj (by omega) (by decide) hfits hfits' heq
    omega
  | tag hfits' =>
    rw [List.append_assoc] at heq
    obtain ⟨rfl, -⟩ := head_append_inj (by omega) (by decide) hfits hfits' heq
    omega

/-- The call at a byte that is not a small integer. -/
theorem cbor2result_cons {depth : ℕ} {b : UInt8} {after : List UInt8} (hb : 24 ≤ b.toNat) :
    cbor2result (depth + 1) (before ++ b :: after) before.length =
      match longCount (before ++ b :: after) (before.length + 1) (b.toNat % 32) with
      | none => some .invalidData
      | some (count, p) =>
        cborPayload (cbor2result depth (before ++ b :: after)) (before ++ b :: after) (b.toNat / 32)
          (b.toNat % 32) count p := by
  have hlen : ¬before.length > (before ++ b :: after).length := by
    rw [List.length_append]
    exact Nat.not_lt.mpr (Nat.le_add_right _ _)
  have hmajor : b.toNat >>> 5 = b.toNat / 32 := Nat.shiftRight_eq_div_pow _ _
  have hshort : b.toNat &&& 0x1F = b.toNat % 32 := Nat.and_two_pow_sub_one_eq_mod _ 5
  rw [cbor2result, if_neg hlen]
  simp only [charAt_append, hmajor, hshort]
  exact if_neg (Nat.not_lt.mpr hb)

/-- A byte that is reserved is read as a head that counts nothing. -/
theorem cbor2result_reserved {depth : ℕ} {b : UInt8} {after : List UInt8} (hreserved : 28 ≤ b.toNat % 32) :
    cbor2result (depth + 1) (before ++ b :: after) before.length =
      cborPayload (cbor2result depth ((before ++ [b]) ++ after)) ((before ++ [b]) ++ after)
        (b.toNat / 32) (b.toNat % 32) 0 (before ++ [b]).length := by
  have hcount : longCount (before ++ b :: after) (before.length + 1) (b.toNat % 32) =
      some (0, before.length + 1) := by
    unfold longCount
    rw [if_neg (by omega), if_neg (by omega), if_neg (by omega), if_neg (by omega), if_neg (by omega)]
  rw [cbor2result_cons (by omega), hcount, List.append_assoc, List.singleton_append, List.length_append,
    List.length_singleton]

/-- A reserved byte is accepted, unless maps follow it, or tags of something that is no item. -/
theorem exists_success_of_reserved {b : UInt8} {after : List UInt8}
    (hsize : (before ++ b :: after).length < 2 ^ 64) (hreserved : 28 ≤ b.toNat % 32)
    (hmap : b.toNat / 32 ≠ 5)
    (htag : b.toNat / 32 = 6 → ∃ item after', after = item ++ after' ∧ WellFormed item) :
    ∃ depth item p, cbor2result depth (before ++ b :: after) before.length = some (.success item p) := by
  rw [List.append_cons] at hsize
  have hstring (item : List UInt8 → Item) :
      cborString ((before ++ [b]) ++ after) (before ++ [b]).length 0 item =
        .success (item []) (before ++ [b]).length :=
    cborString_append _ [] after item hsize
  have hmajor : b.toNat / 32 < 8 := Nat.div_lt_of_lt_mul b.toNat_lt
  obtain h | h | h | h | h | h | h : b.toNat / 32 = 0 ∨ b.toNat / 32 = 1 ∨ b.toNat / 32 = 2 ∨
      b.toNat / 32 = 3 ∨ b.toNat / 32 = 4 ∨ b.toNat / 32 = 6 ∨ b.toNat / 32 = 7 := by omega
  · exact ⟨1, _, _, by rw [cbor2result_reserved hreserved, h]; rfl⟩
  · exact ⟨1, _, _, by rw [cbor2result_reserved hreserved, h]; rfl⟩
  · exact ⟨1, _, _, by rw [cbor2result_reserved hreserved, h, cborPayload, hstring]⟩
  · exact ⟨1, _, _, by rw [cbor2result_reserved hreserved, h, cborPayload, hstring]⟩
  · exact ⟨1, _, _, by rw [cbor2result_reserved hreserved, h]; rfl⟩
  · obtain ⟨bytes, after', rfl, hbytes⟩ := htag h
    obtain ⟨depth, hdepth⟩ := reads_of_wellFormed hbytes
    obtain ⟨item, hitem⟩ := hdepth _ _ hsize
    exact ⟨depth + 1, _, _, by rw [cbor2result_reserved hreserved, h, cborPayload, hitem]⟩
  · exact ⟨1, _, _, by rw [cbor2result_reserved hreserved, h]; rfl⟩

/-- A string whose length wraps is accepted, and the position after it is before its own. -/
theorem exists_success_of_wraps {major n : ℕ} {form : Form} {tail : List UInt8}
    (hsize : (before ++ (head major form n ++ tail)).length < 2 ^ 64) (hmajor : major = 2 ∨ major = 3)
    (hfits : form.Fits n) (hwraps : 2 ^ 64 ≤ (before ++ head major form n).length + n) :
    ∃ item p, p < before.length + n ∧
      cbor2result 1 (before ++ (head major form n ++ tail)) before.length = some (.success item p) := by
  have hn := Form.Fits.lt hfits
  rw [← List.append_assoc] at hsize
  have hlen : (before ++ head major form n).length ≤ ((before ++ head major form n) ++ tail).length := by
    conv_rhs => rw [List.length_append]
    exact Nat.le_add_right _ _
  have hadd : add64 (before ++ head major form n).length n =
      (before ++ head major form n).length + n - 2 ^ 64 := by
    unfold add64
    rw [Nat.mod_eq_sub_mod hwraps, Nat.mod_eq_of_lt (by omega)]
  have hstring (item : List UInt8 → Item) :
      ∃ content, cborString ((before ++ head major form n) ++ tail) (before ++ head major form n).length n
        item = .success (item content) ((before ++ head major form n).length + n - 2 ^ 64) := by
    rw [cborString, hadd, if_neg (by omega)]
    exact ⟨_, rfl⟩
  have hback : (before ++ head major form n).length + n - 2 ^ 64 < before.length + n := by omega
  rw [cbor2result_head_eq (by omega) hfits]
  obtain rfl | rfl := hmajor
  · obtain ⟨content, hcontent⟩ := hstring .ba
    exact ⟨_, _, hback, congrArg some hcontent⟩
  · obtain ⟨content, hcontent⟩ := hstring .text
    exact ⟨_, _, hback, congrArg some hcontent⟩

end Refused

/-! ## Which bytes are decoded as they should be -/

section Exact

variable {before rest : List UInt8}

/-- Where an item is decoded as it should be, it starts with a byte that is not reserved, and so on. -/
theorem DecodesSafely.regular (hsize : (before ++ rest).length < 2 ^ 64) (h : DecodesSafely before rest) :
    Regular before rest := by
  obtain ⟨depth, hdecodes⟩ := h
  have hpos : depth ≠ 0 := by
    rintro rfl
    obtain h | ⟨_, _, _, -, -, h⟩ := hdecodes <;> cases h
  obtain ⟨depth, rfl⟩ := Nat.exists_eq_succ_of_ne_zero hpos
  -- any other way to end is not that of an item that is decoded as it should be
  have hends {depth' : ℕ} {item : Item} {p : ℕ}
      (hother : cbor2result depth' (before ++ rest) before.length = some (.success item p)) :
      ∃ bytes after, rest = bytes ++ after ∧ WellFormed bytes ∧ p = before.length + bytes.length := by
    obtain hinvalid | ⟨item', bytes, after, hrest, hbytes, hsuccess⟩ := hdecodes
    · exact absurd (cbor2result_unique hother hinvalid) nofun
    · have heq := cbor2result_unique hother hsuccess
      injection heq with _ hp
      exact ⟨bytes, after, hrest, hbytes, hp⟩
  cases rest with
  | nil =>
    have hend : cbor2result 1 (before ++ []) before.length =
        some (.success (.u64 0) (before.length + 1)) := by
      rw [List.append_nil, cbor2result, if_neg (Nat.lt_irrefl _)]
      simp [charAt]
    obtain ⟨bytes, after, hrest, hbytes, -⟩ := hends hend
    have hlen := congrArg List.length hrest
    rw [List.length_append, List.length_nil] at hlen
    have := hbytes.length_pos
    omega
  | cons b after =>
    refine ⟨?_, ?_⟩
    · by_contra hreserved
      push Not at hreserved
      obtain ⟨hlow, hmap, htag⟩ := hreserved
      obtain ⟨depth', item, p, hsuccess⟩ := exists_success_of_reserved hsize hlow hmap htag
      obtain ⟨bytes, after', hrest, hbytes, -⟩ := hends hsuccess
      exact absurd (not_reserved_of_wellFormed hbytes hrest) (Nat.not_lt.mpr hlow)
    · rintro major form n tail hmajor hfits hrest
      rw [hrest] at hsize hends
      by_contra hwraps
      obtain ⟨item, p, hback, hsuccess⟩ :=
        exists_success_of_wraps hsize hmajor hfits (Nat.not_lt.mp hwraps)
      obtain ⟨bytes, after', hbytes', hbytes, rfl⟩ := hends hsuccess
      have hle := le_length_of_wellFormed hmajor hfits hbytes hbytes'
      omega

/-- The rounds of an array are refused, or go over as many items as it counts. -/
def ArrayDecodesSafely (count : ℕ) (before rest : List UInt8) : Prop :=
  ∃ depth, ∀ array,
    cborArray (cbor2result depth (before ++ rest)) count before.length array = some .invalidData ∨
    ∃ results items after, rest = List.flatten items ++ after ∧ items.length = count ∧
      (∀ item ∈ items, WellFormed item) ∧
      cborArray (cbor2result depth (before ++ rest)) count before.length array =
        some (.success results (before.length + items.flatten.length))

theorem arrayDecodesSafely {count : ℕ} {before rest : List UInt8}
    (h : ∀ items rest', items.length < count → (∀ item ∈ items, WellFormed item) →
      rest = List.flatten items ++ rest' → DecodesSafely (before ++ items.flatten) rest') :
    ArrayDecodesSafely count before rest := by
  induction count generalizing before rest with
  | zero => exact ⟨0, fun array => Or.inr ⟨array, [], rest, rfl, rfl, by simp, rfl⟩⟩
  | succ count ih =>
    have hfirst : DecodesSafely before rest := by
      simpa using h [] rest (Nat.succ_pos _) (by simp) rfl
    obtain ⟨depth, hinvalid | ⟨item, bytes, after, rfl, hbytes, hitem⟩⟩ := hfirst
    · refine ⟨depth, fun array => Or.inl ?_⟩
      rw [cborArray, hinvalid]
    have hnext : ArrayDecodesSafely count (before ++ bytes) after := by
      refine ih fun items rest' hlt hitems hafter => ?_
      have hsafe := h (bytes :: items) rest' (Nat.succ_lt_succ hlt)
        (List.forall_mem_cons.mpr ⟨hbytes, hitems⟩)
        (by rw [hafter, List.flatten_cons, List.append_assoc])
      rwa [List.flatten_cons, ← List.append_assoc] at hsafe
    obtain ⟨depths, hdepths⟩ := hnext
    refine ⟨max depth depths, fun array => ?_⟩
    have hround : cborArray (cbor2result (max depth depths) (before ++ (bytes ++ after))) (count + 1)
        before.length array =
          cborArray (cbor2result (max depth depths) ((before ++ bytes) ++ after)) count
            (before ++ bytes).length (array ++ [item]) := by
      rw [cborArray, cbor2result_mono (Nat.le_max_left depth depths) _ _ _ hitem, List.append_assoc,
        List.length_append]
    have hmono {outcome : CborOutcome (List Item)} :=
      @cborArray_mono _ _ (fun p outcome => cbor2result_mono (Nat.le_max_right depth depths)
        ((before ++ bytes) ++ after) p outcome) count (before ++ bytes).length (array ++ [item]) outcome
    obtain hinvalid | ⟨results, items, after', rfl, hcount, hitems, hsuccess⟩ :=
      hdepths (array ++ [item])
    · exact Or.inl (hround.trans (hmono hinvalid))
    · refine Or.inr ⟨results, bytes :: items, after', ?_, congrArg Nat.succ hcount,
        List.forall_mem_cons.mpr ⟨hbytes, hitems⟩, ?_⟩
      · rw [List.flatten_cons, List.append_assoc]
      · rw [hround, hmono hsuccess, List.flatten_cons, List.length_append, List.length_append,
          Nat.add_assoc]

theorem decodesSafely_string {major n : ℕ} {form : Form} {tail : List UInt8}
    (hmajor : major = 2 ∨ major = 3) (hfits : form.Fits n)
    (hsize : (before ++ (head major form n ++ tail)).length < 2 ^ 64)
    (hlength : (before ++ head major form n).length + n < 2 ^ 64) :
    DecodesSafely before (head major form n ++ tail) := by
  obtain hshort | hroom := Nat.lt_or_ge tail.length n
  · have hbeyond : (before ++ head major form n).length + n >
        ((before ++ head major form n) ++ tail).length := by
      conv_rhs => rw [List.length_append]
      omega
    have hinvalid (item : List UInt8 → Item) :
        cborString ((before ++ head major form n) ++ tail) (before ++ head major form n).length n item =
          .invalidData := by
      rw [cborString, add64_of_lt hlength, if_pos hbeyond]
    refine ⟨1, Or.inl ?_⟩
    rw [cbor2result_head_eq (by omega) hfits]
    obtain rfl | rfl := hmajor
    · exact congrArg some (hinvalid .ba)
    · exact congrArg some (hinvalid .text)
  · obtain ⟨content, after, rfl, rfl⟩ : ∃ content after, tail = content ++ after ∧ n = content.length :=
      ⟨tail.take n, tail.drop n, (List.take_append_drop n tail).symm, (List.length_take_of_le hroom).symm⟩
    have hbytes : WellFormed (head major form content.length ++ content) := .string hmajor hfits
    obtain ⟨depth, hdepth⟩ := reads_of_wellFormed hbytes
    rw [← List.append_assoc (head _ _ _)] at hsize ⊢
    obtain ⟨item, hitem⟩ := hdepth before after hsize
    exact ⟨depth, Or.inr ⟨item, _, after, rfl, hbytes, hitem⟩⟩

/-- A head before what it counts. -/
theorem decodesSafely_head {major n : ℕ} {form : Form} {tail : List UInt8} (hmajor : major < 8)
    (hfits : form.Fits n) (hsize : (before ++ (head major form n ++ tail)).length < 2 ^ 64)
    (hlength : major = 2 ∨ major = 3 → (before ++ head major form n).length + n < 2 ^ 64)
    (harray : major = 4 → ArrayDecodesSafely n (before ++ head major form n) tail)
    (htag : major = 6 → DecodesSafely (before ++ head major form n) tail) :
    DecodesSafely before (head major form n ++ tail) := by
  obtain hplain | hstring | rfl | rfl | rfl : (major = 0 ∨ major = 1 ∨ major = 7) ∨
      (major = 2 ∨ major = 3) ∨ major = 4 ∨ major = 5 ∨ major = 6 := by omega
  · obtain ⟨depth, hdepth⟩ := reads_of_wellFormed (.plain hplain hfits)
    obtain ⟨item, hitem⟩ := hdepth before tail hsize
    exact ⟨depth, Or.inr ⟨item, _, tail, rfl, .plain hplain hfits, hitem⟩⟩
  · exact decodesSafely_string hstring hfits hsize (hlength hstring)
  · obtain ⟨depth, hdepth⟩ := harray rfl
    refine ⟨depth + 1, ?_⟩
    rw [cbor2result_head_eq (by decide) hfits, cborPayload]
    obtain hinvalid | ⟨results, items, after, rfl, rfl, hitems, hsuccess⟩ := hdepth []
    · rw [hinvalid]
      exact Or.inl rfl
    · rw [hsuccess]
      refine Or.inr ⟨.array results, _, after, ?_, .array hfits hitems, ?_⟩
      · rw [List.append_assoc]
      · rw [List.length_append, List.length_append, Nat.add_assoc]
  · refine ⟨1, Or.inl ?_⟩
    rw [cbor2result_head_eq (by decide) hfits, cborPayload]
  · obtain ⟨depth, hdepth⟩ := htag rfl
    refine ⟨depth + 1, ?_⟩
    rw [cbor2result_head_eq (by decide) hfits, cborPayload]
    obtain hinvalid | ⟨item, bytes, after, rfl, hbytes, hsuccess⟩ := hdepth
    · rw [hinvalid]
      exact Or.inl rfl
    · rw [hsuccess]
      refine Or.inr ⟨.tag n item, _, after, ?_, .tag hfits hbytes, ?_⟩
      · rw [List.append_assoc]
      · rw [List.length_append, List.length_append, Nat.add_assoc]

/-- Where each item that is come to starts as it should, it is decoded as it should be. -/
theorem decodesSafely_of_regular (hsize : (before ++ rest).length < 2 ^ 64)
    (h : ∀ before' rest', ComesTo before rest before' rest' → Regular before' rest') :
    DecodesSafely before rest := by
  induction hlen : rest.length using Nat.strong_induction_on generalizing before rest with
  | _ len ih =>
    subst hlen
    cases rest with
    | nil => exact (h _ _ .here).elim
    | cons b after =>
      obtain ⟨hfirst, hlengths⟩ := h _ _ .here
      obtain hlow | hreserved := Nat.lt_or_ge (b.toNat % 32) 28
      · obtain ⟨form, n, tail, hfits, hhead⟩ | ⟨hlong, hnone⟩ := @exists_head before b after hlow
        · rw [hhead] at hsize h ih hlengths ⊢
          have hshorter : tail.length < (head (b.toNat / 32) form n ++ tail).length := by
            rw [List.length_append, length_head]
            omega
          rw [← List.append_assoc] at hsize
          refine decodesSafely_head (Nat.div_lt_of_lt_mul b.toNat_lt) hfits
            (by rwa [List.append_assoc] at hsize) (fun hstring => hlengths _ _ _ _ hstring hfits rfl)
            (fun harray => ?_) fun htag => ?_
          · refine arrayDecodesSafely fun items rest' hlt hitems htail => ?_
            subst htail
            rw [harray] at h hsize hshorter ⊢
            refine ih _ (lt_of_le_of_lt ?_ hshorter) ?_ ?_ rfl
            · conv_rhs => rw [List.length_append]
              exact Nat.le_add_left _ _
            · rwa [List.append_assoc _ items.flatten]
            · intro before' rest' hcomes
              rw [List.append_assoc] at hcomes
              exact h _ _ (.array hfits hlt hitems hcomes)
          · exact ih _ hshorter hsize (fun before' rest' hcomes => h _ _ (by
              rw [htag] at hcomes ⊢
              exact .tag hfits hcomes)) rfl
        · refine ⟨1, Or.inl ?_⟩
          rw [cbor2result_cons (hlong.trans (Nat.mod_le _ _)), hnone]
      · obtain hmap | ⟨htag, hnone⟩ := hfirst.resolve_left (Nat.not_lt.mpr hreserved)
        · exact ⟨1, Or.inl (by rw [cbor2result_reserved hreserved, hmap, cborPayload])⟩
        · rw [List.append_cons] at hsize
          have hnext : DecodesSafely (before ++ [b]) after :=
            ih _ (Nat.lt_succ_self _) hsize
              (fun before' rest' hcomes => h _ _ (.reservedTag htag hreserved hcomes)) rfl
          obtain ⟨depth, hinvalid | ⟨item, bytes, after', hafter, hbytes, -⟩⟩ := hnext
          · refine ⟨depth + 1, Or.inl ?_⟩
            rw [cbor2result_reserved hreserved, htag, cborPayload, hinvalid]
          · exact absurd ⟨bytes, after', hafter, hbytes⟩ hnone

/-- The items that are come to are all decoded as they should be exactly when each starts as it should. -/
theorem decodesSafely_iff_regular (hsize : (before ++ rest).length < 2 ^ 64) :
    (∀ before' rest', ComesTo before rest before' rest' → DecodesSafely before' rest') ↔
      ∀ before' rest', ComesTo before rest before' rest' → Regular before' rest' := by
  constructor
  · intro h before' rest' hcomes
    exact (h _ _ hcomes).regular (hcomes.append_eq ▸ hsize)
  · intro h before' rest' hcomes
    exact decodesSafely_of_regular (hcomes.append_eq ▸ hsize) fun _ _ hnext => h _ _ (hcomes.trans hnext)

end Exact

end ZkevmProver
