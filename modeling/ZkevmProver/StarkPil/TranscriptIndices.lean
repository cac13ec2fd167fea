import ZkevmProver.Lib.Bits
import ZkevmProver.StarkPil.TranscriptBN128

/-!
# The indices of the queries

`getPermutations` reads the drawn elements as one string of bits, 63 or 253 of each, and cuts it into
indices of `nBits` bits.  A bit of an index is added as `1 << j`, where `1` is an `int`: for `j = 31` that
is a negative number, and as `uint64_t` it has the upper 33 bits set.

  1. The string of bits.
  2. One index.
  3. All indices.
  4. Both transcripts.
-/

namespace ZkevmProver

section

variable {F : Type*} (testBit : F → ℕ → Bool) (fieldBits : ℕ) (fields : List F)

/-! ## The string of bits -/

/-- A bit of the string that the low `fieldBits` bits of the elements make up. -/
def drawnBit (k : ℕ) : Bool := fields[k / fieldBits]?.any fun field => testBit field (k % fieldBits)

/-- The integer whose bits are those of the string from `i * nBits` to `(i + 1) * nBits - 1`. -/
def bitSlice (nBits i : ℕ) : ℕ :=
  Bits.pack nBits fun j => drawnBit testBit fieldBits fields (i * nBits + j)

/-- Enough elements for `n` indices, none read past them, and each index its slice. -/
structure SlicesExactly (n nBits : ℕ) (res : Option (List ℕ)) : Prop where
  enough : n * nBits ≤ fieldBits * fields.length
  slices : res = some ((List.range n).map (bitSlice testBit fieldBits fields nBits))
  lt : ∀ a ∈ res.getD [], a < 2 ^ nBits

/-- Where the loops stand at a bit of the string. -/
def BitCursor.ofPos (k : ℕ) : BitCursor := ⟨k / fieldBits, k % fieldBits⟩

/-! ## One index -/

/-- What the inner loop adds up from `n` bits. -/
def shiftedBits (bits : ℕ → Bool) : ℕ → ℕ
  | 0 => 0
  | n + 1 => if bits n then (shiftedBits bits n + shiftOne n) % 2 ^ 64 else shiftedBits bits n

theorem shiftOne_of_lt : ∀ j < 31, shiftOne j = 2 ^ j := by decide

theorem shiftOne_31 : shiftOne 31 = 2 ^ 64 - 2 ^ 31 := by decide

theorem shiftedBits_of_le {bits : ℕ → Bool} {n : ℕ} (h : n ≤ 31) : shiftedBits bits n = Bits.pack n bits := by
  induction n with
  | zero => rfl
  | succ n ih =>
    rw [shiftedBits, ih (Nat.le_of_succ_le h), Bits.pack_succ, shiftOne_of_lt n h]
    cases bits n with
    | false => rw [if_neg Bool.false_ne_true, Bool.toNat_false, Nat.zero_shiftLeft, Nat.add_zero]
    | true =>
      have hlt := Bits.pack_lt n bits
      have hpow : 2 ^ n ≤ 2 ^ 31 := Nat.pow_le_pow_right Nat.two_pos (Nat.le_of_succ_le h)
      rw [if_pos rfl, Bool.toNat_true, Nat.one_shiftLeft]
      apply Nat.mod_eq_of_lt
      omega

theorem shiftedBits_eq_iff {bits : ℕ → Bool} {n : ℕ} (h : n ≤ 32) :
    shiftedBits bits n = Bits.pack n bits ↔ n ≤ 31 ∨ bits 31 = false := by
  rcases Nat.lt_succ_iff_lt_or_eq.mp (Nat.lt_succ_of_le h) with hlt | rfl
  · exact iff_of_true (shiftedBits_of_le (Nat.le_of_lt_succ hlt)) (.inl (Nat.le_of_lt_succ hlt))
  · rw [or_iff_right (Nat.not_succ_le_self 31), shiftedBits, shiftedBits_of_le le_rfl,
      Bits.pack_succ 31, shiftOne_31]
    have hlt := Bits.pack_lt 31 bits
    cases bits 31 with
    | false =>
      refine iff_of_true ?_ rfl
      rw [if_neg Bool.false_ne_true, Bool.toNat_false, Nat.zero_shiftLeft, Nat.add_zero]
    | true =>
      refine iff_of_false (fun heq => ?_) Bool.noConfusion
      rw [if_pos rfl, Bool.toNat_true, Nat.one_shiftLeft] at heq
      omega

variable {testBit fieldBits fields}

/-- A bit is read at its place in the string. -/
theorem cutBit_ofPos (hpos : 0 < fieldBits) {k : ℕ} (hk : k < fieldBits * fields.length) (a j : ℕ) :
    cutBit testBit fieldBits fields (a, BitCursor.ofPos fieldBits k) j =
      some (if drawnBit testBit fieldBits fields k then (a + shiftOne j) % 2 ^ 64 else a,
        BitCursor.ofPos fieldBits (k + 1)) := by
  have hfield : k / fieldBits < fields.length := Nat.div_lt_of_lt_mul hk
  have hmod := Nat.mod_lt k hpos
  have hk' := Nat.div_add_mod k fieldBits
  unfold cutBit drawnBit BitCursor.ofPos
  rw [List.getElem?_eq_getElem hfield, Option.map_some, Option.any_some]
  dsimp only
  split
  · next hlast =>
    have hdiv : (k + 1) / fieldBits = k / fieldBits + 1 := by
      rw [show k + 1 = fieldBits * (k / fieldBits + 1) by rw [Nat.mul_succ]; omega]
      exact Nat.mul_div_cancel_left _ hpos
    have hmod' : (k + 1) % fieldBits = 0 := by
      rw [show k + 1 = fieldBits * (k / fieldBits + 1) by rw [Nat.mul_succ]; omega]
      exact Nat.mul_mod_right _ _
    rw [hdiv, hmod']
  · next hlast =>
    have heq : k + 1 = k % fieldBits + 1 + fieldBits * (k / fieldBits) := by omega
    have hlt : k % fieldBits + 1 < fieldBits := by omega
    rw [heq, Nat.add_mul_div_left _ _ hpos, Nat.div_eq_of_lt hlt, Nat.zero_add, Nat.add_mul_mod_self_left,
      Nat.mod_eq_of_lt hlt]

theorem foldlM_cutBit (hpos : 0 < fieldBits) {k nBits : ℕ} (hk : k + nBits ≤ fieldBits * fields.length) :
    (List.range nBits).foldlM (cutBit testBit fieldBits fields) (0, BitCursor.ofPos fieldBits k) =
      some (shiftedBits (fun j => drawnBit testBit fieldBits fields (k + j)) nBits,
        BitCursor.ofPos fieldBits (k + nBits)) := by
  induction nBits with
  | zero => rfl
  | succ nBits ih =>
    rw [List.range_succ, List.foldlM_append, ih (by omega), Option.bind_eq_bind, Option.bind_some,
      List.foldlM_cons, cutBit_ofPos hpos (by omega), Option.bind_eq_bind, Option.bind_some]
    rfl

/-! ## All indices -/

theorem cutIndices_ofPos (hpos : 0 < fieldBits) (nBits : ℕ) {n k : ℕ}
    (hk : k + n * nBits ≤ fieldBits * fields.length) :
    cutIndices testBit fieldBits fields nBits n (BitCursor.ofPos fieldBits k) =
      some ((List.range n).map fun i =>
        shiftedBits (fun j => drawnBit testBit fieldBits fields (k + i * nBits + j)) nBits) := by
  induction n generalizing k with
  | zero => rfl
  | succ n ih =>
    rw [Nat.succ_mul] at hk
    rw [cutIndices, foldlM_cutBit hpos (by omega), Option.bind_eq_bind, Option.bind_some]
    dsimp only
    rw [ih (by omega), Option.bind_eq_bind, Option.bind_some, List.range_succ_eq_map, List.map_cons,
      Nat.zero_mul, List.map_map]
    congr 2
    apply List.map_congr_left
    intro i _
    dsimp only [Function.comp]
    rw [Nat.succ_mul, Nat.add_assoc k nBits, Nat.add_comm nBits]

/-- The elements suffice when they are counted exactly. -/
theorem le_mul_count (hpos : 0 < fieldBits) {m : ℕ} (hm : 1 ≤ m) : m ≤ fieldBits * ((m - 1) / fieldBits + 1) := by
  have hlt := Nat.lt_mul_div_succ (m - 1) hpos
  omega

theorem slicesExactly_iff (hpos : 0 < fieldBits) {n nBits : ℕ} (h32 : nBits ≤ 32)
    (henough : n * nBits ≤ fieldBits * fields.length) :
    SlicesExactly testBit fieldBits fields n nBits (cutIndices testBit fieldBits fields nBits n {}) ↔
      nBits ≤ 31 ∨ ∀ i < n, drawnBit testBit fieldBits fields (i * nBits + 31) = false := by
  have hstart : ({} : BitCursor) = BitCursor.ofPos fieldBits 0 := by
    unfold BitCursor.ofPos
    rw [Nat.zero_div, Nat.zero_mod]
  have hcut : cutIndices testBit fieldBits fields nBits n {} = some ((List.range n).map fun i =>
      shiftedBits (fun j => drawnBit testBit fieldBits fields (i * nBits + j)) nBits) := by
    rw [hstart, cutIndices_ofPos hpos nBits (by omega)]
    simp only [Nat.zero_add]
  have hslices : (cutIndices testBit fieldBits fields nBits n {} =
      some ((List.range n).map (bitSlice testBit fieldBits fields nBits))) ↔
      nBits ≤ 31 ∨ ∀ i < n, drawnBit testBit fieldBits fields (i * nBits + 31) = false := by
    rw [hcut, Option.some_inj, List.map_inj_left]
    simp only [List.mem_range, bitSlice, shiftedBits_eq_iff h32]
    by_cases h31 : nBits ≤ 31
    · exact iff_of_true (fun _ _ => .inl h31) (.inl h31)
    · simp only [h31, false_or]
  rw [← hslices]
  refine ⟨SlicesExactly.slices, fun heq => ⟨henough, heq, fun a ha => ?_⟩⟩
  rw [heq, Option.getD_some] at ha
  obtain ⟨i, -, rfl⟩ := List.mem_map.mp ha
  unfold bitSlice
  apply Bits.pack_lt

end

/-! ## Both transcripts -/

theorem Transcript.length_getFields {F : Type*} [Zero F]
    (hash_full_result : List F → Fin Transcript.TRANSCRIPT_OUT_SIZE → F) (k : ℕ) (t : Transcript F) :
    (Transcript.getFields hash_full_result k t).1.length = k := by
  induction k with
  | zero => rfl
  | succ k ih =>
    show (_ ++ [_] : List F).length = k + 1
    rw [List.length_append, ih, List.length_singleton]

theorem TranscriptBN128.length_getFields {F : Type*} [Zero F] (poseidon : List F → ℕ → F) (k : ℕ)
    (t : TranscriptBN128 F) : (TranscriptBN128.getFields poseidon k t).1.length = k := by
  induction k with
  | zero => rfl
  | succ k ih =>
    show (_ ++ [_] : List F).length = k + 1
    rw [List.length_append, ih, List.length_singleton]

/-- **The indices are exact slices** of the drawn bits, unless an index of 32 bits has its top bit set. -/
theorem getPermutations_slices_iff {F F' : Type*} [Zero F] [Zero F']
    (hash_full_result : List F → Fin Transcript.TRANSCRIPT_OUT_SIZE → F) (toU64 : F → ℕ)
    (poseidon : List F' → ℕ → F') (toMpz : F' → ℕ) (NFields NFields' : ℕ → ℕ)
    (t : Transcript F) (t' : TranscriptBN128 F') (n nBits : ℕ) (hn : 1 ≤ n) (h1 : 1 ≤ nBits)
    (h32 : nBits ≤ 32) (hcount : NFields (n * nBits % 2 ^ 64) = (n * nBits - 1) / 63 + 1)
    (hcount' : NFields' (n * nBits % 2 ^ 64) = (n * nBits - 1) / 253 + 1) :
    (SlicesExactly (fun field => (toU64 field).testBit) 63
        (Transcript.getFields hash_full_result ((n * nBits - 1) / 63 + 1) t).1 n nBits
        (Transcript.getPermutations hash_full_result toU64 NFields t n nBits).1 ↔
      nBits ≤ 31 ∨ ∀ i < n, drawnBit (fun field => (toU64 field).testBit) 63
        (Transcript.getFields hash_full_result ((n * nBits - 1) / 63 + 1) t).1 (i * nBits + 31) = false) ∧
    (SlicesExactly (fun field => (toMpz field).testBit) 253
        (TranscriptBN128.getFields poseidon ((n * nBits - 1) / 253 + 1) t').1 n nBits
        (TranscriptBN128.getPermutations poseidon toMpz NFields' t' n nBits).1 ↔
      nBits ≤ 31 ∨ ∀ i < n, drawnBit (fun field => (toMpz field).testBit) 253
        (TranscriptBN128.getFields poseidon ((n * nBits - 1) / 253 + 1) t').1 (i * nBits + 31) = false) := by
  have hbits : 1 ≤ n * nBits := Nat.mul_pos hn h1
  constructor
  · unfold Transcript.getPermutations
    dsimp only
    rw [hcount]
    apply slicesExactly_iff (Nat.succ_pos 62) h32
    rw [Transcript.length_getFields]
    exact le_mul_count (Nat.succ_pos 62) hbits
  · unfold TranscriptBN128.getPermutations
    dsimp only
    rw [hcount']
    apply slicesExactly_iff (Nat.succ_pos 252) h32
    rw [TranscriptBN128.length_getFields]
    exact le_mul_count (Nat.succ_pos 252) hbits

/-- Three indices of 21 bits take exactly one element of the first transcript. -/
theorem getPermutations_slices_iff_sample :
    (SlicesExactly (fun field => (id field : ℕ).testBit) 63
        (Transcript.getFields (fun _ i => 2 ^ 31 + i.val) ((3 * 21 - 1) / 63 + 1) Transcript.init).1 3 21
        (Transcript.getPermutations (fun _ i => 2 ^ 31 + i.val) id (fun m => (m - 1) / 63 + 1)
          Transcript.init 3 21).1 ↔
      21 ≤ 31 ∨ ∀ i < 3, drawnBit (fun field => (id field : ℕ).testBit) 63
        (Transcript.getFields (fun _ i => 2 ^ 31 + i.val) ((3 * 21 - 1) / 63 + 1) Transcript.init).1
          (i * 21 + 31) = false) ∧
    (SlicesExactly (fun field => (id field : ℕ).testBit) 253
        (TranscriptBN128.getFields (fun _ i => 2 ^ 31 + i) ((3 * 21 - 1) / 253 + 1)
          TranscriptBN128.init).1 3 21
        (TranscriptBN128.getPermutations (fun _ i => 2 ^ 31 + i) id (fun m => (m - 1) / 253 + 1)
          TranscriptBN128.init 3 21).1 ↔
      21 ≤ 31 ∨ ∀ i < 3, drawnBit (fun field => (id field : ℕ).testBit) 253
        (TranscriptBN128.getFields (fun _ i => 2 ^ 31 + i) ((3 * 21 - 1) / 253 + 1)
          TranscriptBN128.init).1 (i * 21 + 31) = false) :=
  getPermutations_slices_iff (fun _ i => 2 ^ 31 + i.val) id (fun _ i => 2 ^ 31 + i) id
    (fun m => (m - 1) / 63 + 1) (fun m => (m - 1) / 253 + 1) Transcript.init TranscriptBN128.init 3 21
    (by decide) (by decide) (by decide) rfl rfl

/-- One index of 32 bits from an element with bit 31 set: it is not below `2 ^ 32`. -/
theorem getPermutations_top_bit :
    ¬ SlicesExactly (fun field => (id field : ℕ).testBit) 63
        (Transcript.getFields (fun _ _ => 2 ^ 31) 1 Transcript.init).1 1 32
        (Transcript.getPermutations (fun _ _ => 2 ^ 31) id (fun m => (m - 1) / 63 + 1)
          Transcript.init 1 32).1 ∧
    ¬ SlicesExactly (fun field => (id field : ℕ).testBit) 253
        (TranscriptBN128.getFields (fun _ _ => 2 ^ 31) 1
          (TranscriptBN128.put (fun _ _ => 2 ^ 31) TranscriptBN128.init [1])).1 1 32
        (TranscriptBN128.getPermutations (fun _ _ => 2 ^ 31) id (fun m => (m - 1) / 253 + 1)
          (TranscriptBN128.put (fun _ _ => 2 ^ 31) TranscriptBN128.init [1]) 1 32).1 := by
  constructor
  · intro h
    exact absurd (h.lt (2 ^ 64 - 2 ^ 31) (by decide)) (by decide)
  · intro h
    exact absurd (h.lt (2 ^ 64 - 2 ^ 31) (by decide)) (by decide)

end ZkevmProver
