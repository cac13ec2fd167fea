import ZkevmProver.Utils.Rlp

/-!
# The rounds of `decodeList`

The length of a byte array that is written after its first byte is added to the cursor as it comes.
Where the content is shorter than that, the cursor leaves the payload, or wraps around and goes back.

1. Cursors
2. A round
3. Lengths that fit
4. Lengths that do not
-/

namespace ZkevmProver

namespace rlp

open BigEndian Rlp

/-! ## Cursors -/

/-- A round takes the cursor from `p` to `q`, past the byte array `ba`. -/
def Round (input : List UInt8) (p : ℕ) (ba : List UInt8) (q : ℕ) : Prop :=
  p < input.length ∧ decodeBa input p = some (ba, false, q)

/-- The positions from which a round of `decodeList` starts, or at which the rounds end. -/
inductive Cursor (input : List UInt8) : ℕ → Prop
  | start {p length : ℕ} : decodeLength input 0 = some (p, length, true) →
      add64 p length = input.length → Cursor input p
  | next {p q : ℕ} {ba : List UInt8} : Cursor input p → Round input p ba q → Cursor input q

/-- `decodeList` ends, every round takes the cursor forward and not past the end, and where it succeeds
the payload is the byte arrays, each whole and after its header. -/
structure DecodesSafely (input : List UInt8) : Prop where
  returns : ∃ rounds, (decodeList rounds input []).isSome
  advances : ∀ p ba q, Cursor input p → Round input p ba q → p < q ∧ q ≤ input.length
  exact : ∀ rounds output, decodeList rounds input [] = some (true, output) →
    ∃ hd headers, Header 0xc0 hd (concat headers output).length ∧
      List.Forall₂ Encodes headers output ∧ input = hd ++ concat headers output

/-- After any number of whole byte arrays, a length that is written after its first byte is at most what
follows, or so large that the cursor comes to lie on the bytes of the length. -/
def LengthsFit (input : List UInt8) : Prop :=
  ∀ hd headers items be after,
    input = hd ++ (concat headers items ++ ((0xb7 + be.length).toUInt8 :: be ++ after)) →
    Header 0xc0 hd (concat headers items ++ ((0xb7 + be.length).toUInt8 :: be ++ after)).length →
    List.Forall₂ Encodes headers items → 1 ≤ be.length → be.length ≤ 8 →
    value be ≤ after.length ∨ 2 ^ 64 - 8 ≤ value be

/-! ## A round -/

section Rounds

variable {before rest : List UInt8} {ba : List UInt8} {q : ℕ}

theorem Round.rest_ne_nil (h : Round (before ++ rest) before.length ba q) : rest ≠ [] := by
  rintro rfl
  exact absurd h.1 (by simp)

/-- A byte array is whole, or its length is written after its first byte and is more than what
follows. -/
theorem Round.cases (hsize : (before ++ rest).length < 2 ^ 63)
    (h : Round (before ++ rest) before.length ba q) :
    (∃ hd after, rest = hd ++ ba ++ after ∧ Encodes hd ba ∧ q = before.length + (hd ++ ba).length) ∨
      ∃ be, rest = (0xb7 + be.length).toUInt8 :: be ++ ba ∧ 1 ≤ be.length ∧ be.length ≤ 8 ∧
        ba.length < value be ∧ q = add64 (before.length + 1 + be.length) (value be) := by
  obtain ⟨p, n, hread, hba, hq⟩ : ∃ p n, decodeLength (before ++ rest) before.length =
      some (p, n, false) ∧ ((before ++ rest).drop p).take n = ba ∧ add64 p n = q := by
    have hdecode := h.2
    rw [decodeBa, if_neg (Nat.not_lt.mpr h.1.le)] at hdecode
    split at hdecode
    · cases hdecode
    · next p n list hread =>
      obtain ⟨hba, rfl, hq⟩ := by simpa using hdecode
      exact ⟨p, n, hread, hba, hq⟩
  obtain ⟨b, after, rfl, hb, rfl, rfl, -⟩ | ⟨hd, after, rfl, hh, rfl, hroom⟩ :=
    decodeLength_inv h.rest_ne_nil hsize hread
  · left
    rw [List.drop_left, List.take_succ_cons, List.take_zero] at hba
    subst hba
    refine ⟨[], after, rfl, .single hb, ?_⟩
    rw [← hq, add64_of_lt]
    · rfl
    · rw [List.length_append, List.length_cons] at hsize
      omega
  · rw [← List.append_assoc, ← List.length_append, List.drop_left] at hba
    simp only [List.length_append] at hsize
    by_cases hfit : n ≤ after.length
    · left
      have hlen : ba.length = n := by rw [← hba, List.length_take_of_le hfit]
      refine ⟨hd, after.drop n, ?_, .headed (hlen ▸ hh), ?_⟩
      · rw [← hba, List.append_assoc, List.take_append_drop]
      · rw [← hq, List.length_append, hlen, add64_of_lt (by omega), Nat.add_assoc]
    · right
      rw [List.take_of_length_le (by omega)] at hba
      subst hba
      cases hh with
      | short => exact absurd (hroom rfl) hfit
      | @long be hpos hle =>
        refine ⟨be, ?_, hpos, hle, Nat.not_le.mp hfit, ?_⟩
        · rw [offset_false]
        · rw [← hq, List.length_cons, Nat.add_assoc, Nat.add_comm 1]

/-- The round over a length that is written after its first byte and is more than what follows. -/
theorem Round.of_long (before after : List UInt8) {be : List UInt8} (hpos : 1 ≤ be.length)
    (hle : be.length ≤ 8) (hover : after.length < value be)
    (hsize : (before ++ ((0xb7 + be.length).toUInt8 :: be ++ after)).length < 2 ^ 63) :
    Round (before ++ ((0xb7 + be.length).toUInt8 :: be ++ after)) before.length after
      (add64 (before.length + 1 + be.length) (value be)) := by
  have hh : Header (offset false) ((0xb7 + be.length).toUInt8 :: be) (value be) := .long hpos hle
  have hread := @decodeLength_header before _ _ after _ hh
    (fun hone => by rw [List.length_cons] at hone; omega) hsize
  refine ⟨by simp, ?_⟩
  rw [decodeBa_eq (by simp) hread, ← List.append_assoc before, ← List.length_append, List.drop_left,
    List.take_of_length_le hover.le]
  rw [List.length_append, List.length_cons, Nat.add_comm be.length, ← Nat.add_assoc]

end Rounds

/-! ## Lengths that fit -/

/-- The cursor lies after whole byte arrays. -/
structure Whole (input : List UInt8) (p : ℕ) (hd : List UInt8) (headers items : List (List UInt8))
    (rest : List UInt8) : Prop where
  input_eq : input = hd ++ (concat headers items ++ rest)
  header : Header 0xc0 hd (concat headers items ++ rest).length
  encodes : List.Forall₂ Encodes headers items
  cursor_eq : p = (hd ++ concat headers items).length

/-- The cursor lies on a byte that starts a list. -/
def AtList (input : List UInt8) (p : ℕ) : Prop :=
  ∃ before after, input = before ++ 0xff :: after ∧ p = before.length

theorem AtList.lt {input : List UInt8} {p : ℕ} (h : AtList input p) : p < input.length := by
  obtain ⟨before, after, rfl, rfl⟩ := h
  simp

theorem AtList.decodeBa {input : List UInt8} {p : ℕ} (h : AtList input p)
    (hsize : input.length < 2 ^ 63) :
    decodeBa input p = none ∨ ∃ ba q, decodeBa input p = some (ba, true, q) := by
  obtain ⟨before, after, rfl, rfl⟩ := h
  have hread := decodeLength_cons before after 0xff hsize
  have hbyte : (0xff : UInt8).toNat = 255 := rfl
  rw [hbyte, if_neg (by decide), if_neg (by decide), if_neg (by decide), if_neg (by decide)] at hread
  rw [rlp.decodeBa, if_neg (by simp), hread]
  split_ifs
  · exact Or.inr ⟨_, _, rfl⟩
  · exact Or.inl rfl

theorem AtList.not_round {input : List UInt8} {p q : ℕ} {ba : List UInt8} (h : AtList input p)
    (hsize : input.length < 2 ^ 63) : ¬Round input p ba q := by
  rintro ⟨-, hba⟩
  obtain hnone | ⟨_, _, hlist⟩ := h.decodeBa hsize
  · rw [hnone] at hba
    cases hba
  · rw [hlist] at hba
    cases hba

/-- The byte of such a length at which the cursor comes to lie. -/
theorem bytes_wrap : ∀ j < 8, bytes 8 (2 ^ 64 - 8 + j) =
    List.replicate j 0xff ++ 0xff :: (bytes 8 (2 ^ 64 - 8 + j)).drop (j + 1) := by
  decide

/-- A length of almost `2 ^ 64` leads onto its own bytes, which start a list. -/
theorem atList_of_wrap (before after : List UInt8) {be : List UInt8} (hle : be.length ≤ 8)
    (hbig : 2 ^ 64 - 8 ≤ value be) (b : UInt8)
    (hsize : (before ++ (b :: be ++ after)).length < 2 ^ 63) :
    AtList (before ++ (b :: be ++ after)) (add64 (before.length + 1 + be.length) (value be)) ∧
      before.length < add64 (before.length + 1 + be.length) (value be) := by
  have hlt := value_lt be
  have hlen : be.length = 8 := by
    by_contra hne
    have hpow : 256 ^ be.length ≤ 256 ^ 7 := Nat.pow_le_pow_right (by decide) (by omega)
    omega
  rw [hlen] at hlt ⊢
  obtain ⟨j, hj⟩ := Nat.exists_eq_add_of_le hbig
  simp only [List.length_append, List.length_cons] at hsize
  have hcursor : add64 (before.length + 1 + 8) (value be) = before.length + 1 + j := by
    rw [add64]
    omega
  have hj8 : j < 8 := by omega
  have hbytes := bytes_value be
  rw [hlen, hj] at hbytes
  rw [hcursor]
  refine ⟨⟨before ++ b :: List.replicate j 0xff, be.drop (j + 1) ++ after, ?_, ?_⟩, by omega⟩
  · conv_lhs => rw [← hbytes, bytes_wrap j hj8, hbytes]
    simp
  · simp only [List.length_append, List.length_cons, List.length_replicate]
    omega

theorem Whole.start {hd rest : List UInt8} (h : Header 0xc0 hd rest.length) :
    Whole (hd ++ rest) hd.length hd [] [] rest where
  input_eq := rfl
  header := h
  encodes := .nil
  cursor_eq := by simp

theorem Whole.snoc {input hd h content rest : List UInt8} {p : ℕ}
    {headers items : List (List UInt8)} (hw : Whole input p hd headers items (h ++ content ++ rest))
    (he : Encodes h content) :
    Whole input (p + (h ++ content).length) hd (headers ++ [h]) (items ++ [content]) rest := by
  have hconcat := concat_snoc hw.encodes.length_eq h content
  constructor
  · rw [hconcat, hw.input_eq]
    simp only [List.append_assoc]
  · rw [hconcat]
    have hh := hw.header
    simp only [List.append_assoc] at hh ⊢
    exact hh
  · exact List.rel_append hw.encodes (.cons he .nil)
  · rw [hconcat, hw.cursor_eq]
    simp only [List.length_append]
    omega

/-- A round from after whole byte arrays, where lengths fit. -/
theorem Whole.round {input hd rest ba : List UInt8} {p q : ℕ} {headers items : List (List UInt8)}
    (hfit : LengthsFit input) (hsize : input.length < 2 ^ 63)
    (hw : Whole input p hd headers items rest) (h : Round input p ba q) :
    (∃ hd' rest', rest = hd' ++ ba ++ rest' ∧ Encodes hd' ba ∧ q = p + (hd' ++ ba).length) ∨
      AtList input q ∧ p < q := by
  have hsplit : input = hd ++ concat headers items ++ rest := by
    rw [hw.input_eq, List.append_assoc]
  have hp := hw.cursor_eq
  rw [hsplit, hp] at h
  rw [hsplit] at hsize
  obtain ⟨hd', after, hrest, he, hq⟩ | ⟨be, hrest, hpos, hle, hover, hq⟩ := h.cases hsize
  · exact Or.inl ⟨hd', after, hrest, he, by rw [hq, hp]⟩
  · right
    have hbig : 2 ^ 64 - 8 ≤ value be := by
      have hcond := hfit hd headers items be ba (by rw [hw.input_eq, hrest])
        (by rw [← hrest]; exact hw.header) hw.encodes hpos hle
      exact hcond.resolve_left (Nat.not_le.mpr hover)
    have hatList := atList_of_wrap (hd ++ concat headers items) ba hle hbig (0xb7 + be.length).toUInt8
      (by rw [← hrest]; exact hsize)
    rw [hsplit, hp, hq, hrest]
    exact hatList

/-- Where a cursor lies, where lengths fit. -/
theorem Cursor.whole_or_atList {input : List UInt8} {p : ℕ} (hfit : LengthsFit input)
    (hsize : input.length < 2 ^ 63) (h : Cursor input p) :
    (∃ hd headers items rest, Whole input p hd headers items rest) ∨ AtList input p := by
  induction h with
  | start hread hlen =>
    obtain ⟨hd, payload, rfl, hh, rfl⟩ := decodeLength_list_inv hsize hread hlen
    exact Or.inl ⟨hd, [], [], payload, .start hh⟩
  | @next p q ba _ hround ih =>
    obtain ⟨hd, headers, items, rest, hw⟩ | hatList := ih
    · obtain ⟨hd', rest', rfl, he, rfl⟩ | ⟨hatList, -⟩ := hw.round hfit hsize hround
      · exact Or.inl ⟨hd, _, _, rest', hw.snoc he⟩
      · exact Or.inr hatList
    · exact absurd hround (hatList.not_round hsize)

theorem Cursor.advances {input ba : List UInt8} {p q : ℕ} (hfit : LengthsFit input)
    (hsize : input.length < 2 ^ 63) (hp : Cursor input p) (h : Round input p ba q) :
    p < q ∧ q ≤ input.length := by
  obtain ⟨hd, headers, items, rest, hw⟩ | hatList := hp.whole_or_atList hfit hsize
  · obtain ⟨hd', rest', rfl, he, rfl⟩ | ⟨hatList, hlt⟩ := hw.round hfit hsize h
    · have hpos := he.length_pos
      refine ⟨by omega, ?_⟩
      rw [hw.input_eq, hw.cursor_eq]
      simp only [List.length_append]
      omega
    · exact ⟨hlt, hatList.lt.le⟩
  · exact absurd h (hatList.not_round hsize)

theorem decodeItems_isSome {input : List UInt8} (hfit : LengthsFit input)
    (hsize : input.length < 2 ^ 63) (rounds p : ℕ) (output : List (List UInt8))
    (hp : Cursor input p) (hrounds : input.length < p + rounds) (hle : p ≤ input.length) :
    (decodeItems input rounds p output).isSome := by
  induction rounds generalizing p output with
  | zero => omega
  | succ rounds ih =>
    rw [decodeItems]
    split_ifs with hlt
    · split
      · rfl
      · rfl
      · next ba q hdecode =>
        have hround : Round input p ba q := ⟨hlt, hdecode⟩
        obtain ⟨hpq, hq⟩ := hp.advances hfit hsize hround
        exact ih q _ (hp.next hround) (by omega) hq
    · rfl
    · rfl

theorem AtList.decodeItems_ne {input : List UInt8} {p : ℕ} (h : AtList input p)
    (hsize : input.length < 2 ^ 63) (rounds : ℕ) (output output' : List (List UInt8)) :
    decodeItems input rounds p output ≠ some (true, output') := by
  cases rounds with
  | zero => exact nofun
  | succ rounds =>
    rw [decodeItems, if_pos h.lt]
    obtain hnone | ⟨_, _, hlist⟩ := h.decodeBa hsize
    · simp [hnone]
    · simp [hlist]

/-- From after whole byte arrays, the rounds that succeed read whole byte arrays to the end. -/
theorem Whole.decodeItems {input hd rest : List UInt8} {headers items : List (List UInt8)} {p : ℕ}
    (hfit : LengthsFit input) (hsize : input.length < 2 ^ 63)
    (hw : Whole input p hd headers items rest) (rounds : ℕ) {output output' : List (List UInt8)}
    (h : decodeItems input rounds p output = some (true, output')) :
    ∃ headers' items', output' = output ++ items' ∧ rest = concat headers' items' ∧
      List.Forall₂ Encodes headers' items' := by
  induction rounds generalizing p headers items rest output with
  | zero => cases h
  | succ rounds ih =>
    rw [rlp.decodeItems] at h
    split_ifs at h with hlt hne
    · split at h
      · cases h
      · cases h
      · next ba q hdecode =>
        obtain ⟨hd', rest', rfl, he, rfl⟩ | ⟨hatList, -⟩ := hw.round hfit hsize ⟨hlt, hdecode⟩
        · obtain ⟨headers', items', rfl, rfl, hall⟩ := ih (hw.snoc he) h
          exact ⟨hd' :: headers', ba :: items', by simp, by simp, .cons he hall⟩
        · exact absurd h (hatList.decodeItems_ne hsize rounds _ _)
    · cases h
    · have hnil : rest = [] := by
        have hlen := hw.cursor_eq
        have hinput := congrArg List.length hw.input_eq
        simp only [List.length_append] at hlen hinput
        exact List.length_eq_zero_iff.mp (by omega)
      obtain rfl : output = output' := by simpa using h
      exact ⟨[], [], by simp, hnil, .nil⟩

theorem decodesSafely_of_lengthsFit {input : List UInt8} (hsize : input.length < 2 ^ 63)
    (hfit : LengthsFit input) : DecodesSafely input where
  returns := by
    refine ⟨input.length + 1, ?_⟩
    unfold decodeList
    split
    · rfl
    · rfl
    · next p length hread =>
      split_ifs with hlen
      · rfl
      · have hcursor : Cursor input p := .start hread (not_not.mp hlen)
        obtain ⟨hd, payload, rfl, -, rfl⟩ := decodeLength_list_inv hsize hread (not_not.mp hlen)
        exact decodeItems_isSome hfit hsize _ _ _ hcursor (by omega) (by simp)
  advances _ _ _ hp h := hp.advances hfit hsize h
  exact rounds output h := by
    unfold decodeList at h
    split at h
    · cases h
    · cases h
    · next p length hread =>
      split_ifs at h with hlen
      · cases h
      · obtain ⟨hd, payload, rfl, hh, rfl⟩ := decodeLength_list_inv hsize hread (not_not.mp hlen)
        obtain ⟨headers, items, rfl, rfl, hall⟩ := (Whole.start hh).decodeItems hfit hsize rounds h
        exact ⟨hd, headers, hh, hall, rfl⟩

/-! ## Lengths that do not -/

theorem Cursor.of_concat {headers items : List (List UInt8)}
    (he : List.Forall₂ Encodes headers items) (before after : List UInt8)
    (hsize : (before ++ (concat headers items ++ after)).length < 2 ^ 63)
    (hc : Cursor (before ++ (concat headers items ++ after)) before.length) :
    Cursor (before ++ (concat headers items ++ after)) (before ++ concat headers items).length := by
  induction he generalizing before with
  | nil => simpa using hc
  | @cons h content headers items hhc _ ih =>
    have hsplit : before ++ (concat (h :: headers) (content :: items) ++ after) =
        before ++ (h ++ content) ++ (concat headers items ++ after) := by simp
    have hround : Round (before ++ (concat (h :: headers) (content :: items) ++ after))
        before.length content (before.length + (h ++ content).length) := by
      have hpos := hhc.length_pos
      have hdecode := decodeBa_encodes before (concat headers items ++ after) hhc
        (by simpa using hsize)
      refine ⟨?_, ?_⟩
      · simp only [concat_cons, List.length_append] at hpos ⊢
        omega
      · simpa using hdecode
    have hnext := hc.next hround
    rw [hsplit, ← List.length_append] at hnext
    have hend := ih (before ++ (h ++ content)) (by rwa [← hsplit]) hnext
    simp only [concat_cons, List.append_assoc] at hend ⊢
    exact hend

theorem lengthsFit_of_decodesSafely {input : List UInt8} (hsize : input.length < 2 ^ 63)
    (h : DecodesSafely input) : LengthsFit input := by
  intro hd headers items be after hinput hh he hpos hle
  by_contra hcond
  rw [not_or, Nat.not_le, Nat.not_le] at hcond
  obtain ⟨hover, hsmall⟩ := hcond
  subst hinput
  obtain ⟨hread, hlen⟩ := decodeLength_list hh hsize
  have hcursor := Cursor.of_concat he hd _ hsize (.start hread hlen)
  rw [← List.append_assoc] at hcursor hsize
  have hround := Round.of_long (hd ++ concat headers items) after hpos hle hover hsize
  have hadvances := h.advances (hd ++ concat headers items).length after _
    (by rw [← List.append_assoc]; exact hcursor) (by rw [← List.append_assoc]; exact hround)
  -- either the cursor leaves the payload or it wraps around
  rw [add64] at hadvances
  simp only [List.length_append, List.length_cons] at hadvances hsize
  omega

/-- `decodeList` is safe on a string of bytes exactly when the lengths it meets fit. -/
theorem decodesSafely_iff (input : List UInt8) (hsize : input.length < 2 ^ 63) :
    DecodesSafely input ↔ LengthsFit input :=
  ⟨lengthsFit_of_decodesSafely hsize, decodesSafely_of_lengthsFit hsize⟩

/-- A list of one byte array whose length is `2 ^ 64 - 9`. -/
def wrappingList : List UInt8 := [0xc9, 0xbf, 0xff, 0xff, 0xff, 0xff, 0xff, 0xff, 0xff, 0xf7]

theorem decodesSafely_iff_sample : wrappingList.length < 2 ^ 63 ∧
    (DecodesSafely wrappingList ↔ LengthsFit wrappingList) :=
  ⟨by decide, decodesSafely_iff wrappingList (by decide)⟩

/-- The cursor goes back to where it was. -/
theorem wrappingList_round : Round wrappingList 1 [] 1 := ⟨by decide, by decide⟩

theorem decodeItems_wrappingList (rounds : ℕ) (output : List (List UInt8)) :
    decodeItems wrappingList rounds 1 output = none := by
  induction rounds generalizing output with
  | zero => rfl
  | succ rounds ih =>
    rw [decodeItems, if_pos wrappingList_round.1, wrappingList_round.2]
    exact ih _

/-- It never ends, and no round takes the cursor forward. -/
theorem wrappingList_not_decodesSafely : (∀ rounds, decodeList rounds wrappingList [] = none) ∧
    ¬DecodesSafely wrappingList := by
  have hread : decodeLength wrappingList 0 = some (1, 9, true) := by decide
  refine ⟨fun rounds => ?_, fun h => ?_⟩
  · rw [decodeList, hread]
    exact decodeItems_wrappingList rounds []
  · exact absurd (h.advances 1 [] 1 (.start hread rfl) wrappingList_round).1 (lt_irrefl 1)

end rlp

end ZkevmProver
