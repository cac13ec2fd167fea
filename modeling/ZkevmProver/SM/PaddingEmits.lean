import ZkevmProver.SM.PaddingHashSpec
import ZkevmProver.SM.PaddingPGTable

/-!
# Tables of padded messages

  1. Messages and tables of padded messages.
  2. The paddings.
  3. `PaddingKKExecutor` and `PaddingSha256Executor` as padders.
  4. Prepared messages.
-/

namespace ZkevmProver

open BigEndian

/-! ## Tables of padded messages -/

/-- A message with its reads, and whether its length and its digest are asked for. -/
structure HashMessageInput where
  bytes : List UInt8 := []
  reads : List ℕ := []
  lenCalled : Bool := false
  digestCalled : Bool := false

namespace HashMessageInput

/-- The message with which the table is filled up. -/
protected def empty : HashMessageInput := {}

/-- The message as the executors are handed it. -/
def input (m : HashMessageInput) : PaddingExecutorInput where
  dataBytes := m.bytes
  reads := m.reads
  lenCalled := m.lenCalled
  digestCalled := m.digestCalled

/-- The message with its padding, which depends on the length. -/
def padded (padding : ℕ → List UInt8) (m : HashMessageInput) : List UInt8 :=
  m.bytes ++ padding m.bytes.length

/-- The row at which message `i` starts. -/
def start (padding : ℕ → List UInt8) (messages : List HashMessageInput) (i : ℕ) : ℕ :=
  ((messages.take i).map fun m => (m.padded padding).length).sum

/-- The rows of all messages. -/
def total (padding : ℕ → List UInt8) (messages : List HashMessageInput) : ℕ :=
  (messages.map fun m => (m.padded padding).length).sum

end HashMessageInput

/-- Row by row, the padded messages and nothing else; and on the last row of every read the limbs of
the big-endian number of its bytes. -/
structure Emits (padding : ℕ → List UInt8) (messages : List HashMessageInput)
    (cols : ℕ → PaddingRow) : Prop where
  bytes : ∀ (i : ℕ) (hi : i < messages.length), ∀ j < (messages[i].padded padding).length,
    (cols (HashMessageInput.start padding messages i + j)).freeIn =
      fromU64 ((messages[i].padded padding).getD j 0).toNat
  reads : ∀ (i : ℕ) (hi : i < messages.length), ∀ c < messages[i].reads.length,
    let first := (messages[i].reads.take c).sum
    let past := (messages[i].reads.take (c + 1)).sum
    let row := cols (HashMessageInput.start padding messages i + (past - 1))
    row.crLen = fromU64 (past - first) ∧ row.crOffset = 0 ∧
      ∀ k : Fin 8, row.crV k + row.crF k * row.freeIn =
        limb (value (slice messages[i].bytes first past)) k

/-- The markers stand on the last row of message `i` if they were asked for, and on no other row of
it. -/
structure Marks (padding : ℕ → List UInt8) (messages : List HashMessageInput)
    (cols : ℕ → PaddingRow) (i : ℕ) (hi : i < messages.length) : Prop where
  len : ∀ j < (messages[i].padded padding).length,
    (cols (HashMessageInput.start padding messages i + j)).lastHashLen =
      if j + 1 = (messages[i].padded padding).length ∧ messages[i].lenCalled then 1 else 0
  digest : ∀ j < (messages[i].padded padding).length,
    (cols (HashMessageInput.start padding messages i + j)).lastHashDigest =
      if j + 1 = (messages[i].padded padding).length ∧ messages[i].digestCalled then 1 else 0

/-- The blocks of a padded message, all but the first one connected to the block before. -/
def messageBlocks (block : ℕ) (bytes : List UInt8) : List PaddingBitExecutorInput :=
  (List.range (bytes.length / block)).map fun b =>
    { connected := b ≠ 0, data := slice bytes (block * b) (block * (b + 1)) }

/-- A row is connected if its block is not the first one of its message. -/
def Connects (block : ℕ) (padding : ℕ → List UInt8) (messages : List HashMessageInput)
    (connected : ℕ → Fe) : Prop :=
  ∀ (i : ℕ) (hi : i < messages.length), ∀ j < (messages[i].padded padding).length,
    connected (HashMessageInput.start padding messages i + j) = if j ≥ block then 1 else 0

/-! ## The paddings -/

/-- A one, zeros, and a one in the highest bit of the last byte of a block. -/
def multiRatePadding (block length : ℕ) : List UInt8 :=
  let rest := block - length % block
  if rest = 1 then [0x81] else 1 :: (List.replicate (rest - 2) 0 ++ [0x80])

/-- The padding of SHA-256: a one bit, zeros, and the length in bits in eight bytes. -/
def sha256Padding (length : ℕ) : List UInt8 :=
  0x80 :: (List.replicate ((119 - length % 64) % 64) 0 ++ bytes 8 (8 * length))

theorem set_last (xs : List UInt8) (a : UInt8) :
    (xs ++ [a]).set ((xs ++ [a]).length - 1) ((xs ++ [a]).getD ((xs ++ [a]).length - 1) 0 ||| 0x80) =
      xs ++ [a ||| 0x80] := by
  have hlast : (xs ++ [a]).length - 1 = xs.length := by simp
  rw [hlast, List.set_append_right _ _ le_rfl, Nat.sub_self, List.getD_append_right _ _ _ _ le_rfl,
    Nat.sub_self]
  rfl

theorem pad10_eq {block : ℕ} (hblock : 1 < block) (bytes : List UInt8) :
    pad10 block bytes = bytes ++ multiRatePadding block bytes.length := by
  have hmod := Nat.mod_lt bytes.length (Nat.zero_lt_of_lt hblock)
  have hone : (bytes.length + 1) % block = (bytes.length % block + 1) % block := by
    rw [Nat.mod_add_mod]
  unfold pad10 pushZeros multiRatePadding
  dsimp only
  rw [List.length_append, List.length_singleton, hone, Nat.zero_add]
  split
  · next h =>
    have hend : bytes.length % block + 1 = block := by omega
    have hzeros : block - (bytes.length % block + 1) % block = block := by
      rw [hend, Nat.mod_self, Nat.sub_zero]
    rw [hzeros, Nat.mod_self, List.replicate_zero, List.append_nil, set_last]
    rfl
  · next h =>
    obtain ⟨z, hz⟩ : ∃ z, block - bytes.length % block = z + 2 := ⟨_, (by omega :
      block - bytes.length % block = (block - bytes.length % block - 2) + 2)⟩
    have hlt : (bytes.length % block + 1) % block = bytes.length % block + 1 :=
      Nat.mod_eq_of_lt (by omega)
    have hzeros : (block - (bytes.length % block + 1) % block) % block = z + 1 := by
      rw [hlt, Nat.mod_eq_of_lt (by omega)]
      omega
    rw [hzeros, hz, List.replicate_succ', ← List.append_assoc, set_last]
    simp

theorem sha256_pad_eq {bytes : List UInt8} (h : bytes.length < 2 ^ 29) :
    PaddingSha256Executor.pad bytes = some (bytes ++ sha256Padding bytes.length) := by
  have hle : ¬bytes.length > 1 <<< 29 := by
    show ¬bytes.length > 2 ^ 29
    omega
  have hzeros : (56 + 64 - (bytes.length + 1) % 64) % 64 = (119 - bytes.length % 64) % 64 := by
    omega
  have hlength : BigEndian.bytes 8 (8 * bytes.length) = ([0, 0, 0, 0,
      ((bytes.length * 8) >>> 24).toUInt8, ((bytes.length * 8) >>> 16).toUInt8,
      ((bytes.length * 8) >>> 8).toUInt8, (bytes.length * 8).toUInt8] : List UInt8) := by
    have hn : bytes.length * 8 < 2 ^ 32 := by omega
    rw [Nat.mul_comm 8]
    generalize bytes.length * 8 = n at *
    have hzero (k : ℕ) (hk : 2 ^ 32 ≤ 256 ^ k) : (n / 256 ^ k).toUInt8 = 0 := by
      rw [Nat.div_eq_of_lt (hn.trans_le hk)]
      rfl
    simp only [bytes_cons, bytes_zero, Nat.shiftRight_eq_div_pow, hzero 7 (by decide),
      hzero 6 (by decide), hzero 5 (by decide), hzero 4 (by decide), Nat.pow_zero, Nat.div_one]
    rfl
  unfold PaddingSha256Executor.pad
  dsimp only
  rw [if_neg hle, pushZeros, List.length_append, List.length_singleton, hzeros, sha256Padding,
    hlength]
  simp

/-! ## The executors as padders -/

section Rem

variable {input : PaddingExecutorInput} {j : ℕ} (hlen : input.realLen < 2 ^ 61) (hj : j < 2 ^ 61)
include hlen hj

theorem toU64_remAt :
    toU64 (remAt input j) =
      if j ≤ input.realLen then input.realLen - j else goldilocksPrime + input.realLen - j := by
  have hp : 2 ^ 61 < goldilocksPrime := by decide
  have ha : toU64 (fromU64 input.realLen) = input.realLen := toU64_fromU64 (hlen.trans hp)
  have hb : toU64 (fromU64 j) = j := toU64_fromU64 (hj.trans hp)
  split
  · next h =>
    rw [remAt, ← fromU64_sub h]
    exact toU64_fromU64 (by omega)
  · next h =>
    have hlt : fromU64 input.realLen < fromU64 j := by
      rw [Fin.lt_def]
      show toU64 (fromU64 input.realLen) < toU64 (fromU64 j)
      rw [ha, hb]
      omega
    have hsub := Fin.coe_sub_iff_lt.mpr hlt
    calc toU64 (remAt input j)
        = goldilocksPrime + toU64 (fromU64 input.realLen) - toU64 (fromU64 j) := hsub
      _ = _ := by rw [ha, hb]

theorem remAt_eq_zero : remAt input j = 0 ↔ input.realLen = j := by
  have hp : 2 ^ 61 < goldilocksPrime := by decide
  have hval := toU64_remAt hlen hj
  have hzero : remAt input j = 0 ↔ toU64 (remAt input j) = 0 := Fin.ext_iff
  rw [hzero, hval]
  split <;> omega

theorem toS64_remAt_neg : toS64 (remAt input j) < 0 ↔ input.realLen < j := by
  have hp : 2 * 2 ^ 61 < goldilocksPrime / 2 := by decide
  have hval := toU64_remAt hlen hj
  have hlt : toU64 (remAt input j) < goldilocksPrime := (remAt input j).isLt
  unfold toS64
  rw [hval] at hlt ⊢
  split_ifs <;> omega

theorem toU64_remAt_big : toU64 (remAt input j) > 0xFFFF ↔
    input.realLen < j ∨ input.realLen - j > 0xFFFF := by
  have hp : 2 * 2 ^ 61 < goldilocksPrime := by decide
  rw [toU64_remAt hlen hj]
  split <;> omega

end Rem

theorem PaddingKKExecutor.lawful (keccak256 : List UInt8 → ℕ) :
    HashPadder.Lawful (padder keccak256) where
  pos := (by decide : 0 < 136)
  padded bytes padded h := by
    obtain rfl := Option.some_inj.mp h
    obtain ⟨n, hn, -, hlt⟩ := pad10_blocks 136 (by decide) bytes
    exact ⟨hlt.trans_eq hn.symm, hn ▸ Nat.mul_mod_right _ _⟩
  empty := congrArg some (by decide +kernel : pad10 136 [] =
    (List.range 136).map fun j => if j = 0 then 1 else if j = 135 then 0x80 else 0)
  emptyExt _ _ := rfl

/-- The last row of a block in which the message is at an end. -/
theorem PaddingKKExecutor.closing (keccak256 : List UInt8 → ℕ) {input : PaddingExecutorInput}
    {bytes : List UInt8} (hlen : input.realLen = bytes.length)
    (hdata : input.dataBytes = pad10 136 bytes) (hsize : input.dataBytes.length < 2 ^ 61) :
    HashPadder.Closing (padder keccak256) input := by
  intro j hj p hp
  obtain ⟨n, hn, hle, hlt⟩ := pad10_blocks 136 (by decide) bytes
  rw [← hdata] at hn
  have hzero : remAt input j = 0 ↔ input.realLen = j := remAt_eq_zero (by omega) (by omega)
  have hneg : toS64 (remAt input j) < 0 ↔ input.realLen < j :=
    toS64_remAt_neg (by omega) (by omega)
  have hspare : ((if (padder keccak256).spare input j then (1 : Fe) else 0) ≠ 0 ∨
      remAt input j = 0) ↔ input.realLen ≤ j := by
    have hset : (padder keccak256).spare input j = true ↔
        remAt input j ≠ 0 ∧ toS64 (remAt input j) < 0 := decide_eq_true_iff
    have hone : (1 : Fe) ≠ 0 := by decide
    rw [ite_ne_right_iff, hset, ne_eq, hzero, hneg, and_iff_left hone]
    omega
  refine decide_eq_decide.mpr ?_
  show p % 136 = 136 - 1 ∧ _ ↔ _
  have hmod : p % 136 = j % 136 := hp
  rw [hspare]
  omega

theorem PaddingSha256Executor.lawful (SHA256 : List UInt8 → ℕ) :
    HashPadder.Lawful (padder SHA256) where
  pos := (by decide : 0 < 64)
  padded bytes padded h := by
    have hmod := length_pushZeros (by decide : 0 < 64) (by decide : 56 < 64) (bytes ++ [0x80])
    have hle := le_length_pushZeros 64 56 (bytes ++ [0x80])
    rw [List.length_append, List.length_singleton] at hle
    obtain ⟨-, h⟩ := Option.ite_none_left_eq_some.mp h
    obtain rfl := Option.some_inj.mp h
    rw [List.length_append]
    show bytes.length < (pushZeros 64 56 (bytes ++ [0x80])).length + 8 ∧
      ((pushZeros 64 56 (bytes ++ [0x80])).length + 8) % 64 = 0
    omega
  empty := (by decide : pad [] =
    some ((List.range 64).map fun j => if j = 0 then 0x80 else 0))
  emptyExt j hj := by
    have hlen : sectionRest (padder SHA256).empty j = 63 - j := by
      simp [sectionRest, HashPadder.empty, padder]
    have hacc (s : ℕ) : accLength (padder SHA256).empty s = 0 := Nat.zero_and _
    have hsection : 63 - j < 8 ↔ j ≥ 56 := by
      have hj' : j < 64 := hj
      omega
    show LengthColumns.mk (if j ≥ 56 then 1 else 0) 0 =
      LengthColumns.mk (if sectionRest (padder SHA256).empty j < 8 then 1 else 0)
        (if sectionRest (padder SHA256).empty j < 4 then
          fromU64 (accLength (padder SHA256).empty (sectionRest (padder SHA256).empty j)) else 0)
    rw [hlen, hacc, if_congr hsection rfl rfl]
    congr 1
    split <;> rfl

/-- The last row of the block that holds the length. -/
theorem PaddingSha256Executor.closing (SHA256 : List UInt8 → ℕ) {input : PaddingExecutorInput}
    (hblocks : input.dataBytes.length % 64 = 0) :
    HashPadder.Closing (padder SHA256) input := by
  intro j hj p hp
  have hmod : p % 64 = j % 64 := hp
  refine decide_eq_decide.mpr ?_
  show p % 64 = 64 - 1 ∧ input.dataBytes.length - 1 - j < 8 ↔ _
  omega

/-! ## Prepared messages -/

namespace HashMessageInput

/-- The message as it is prepared. -/
def prepared (padding : ℕ → List UInt8) (digest : List UInt8 → ℕ) (m : HashMessageInput) :
    PaddingExecutorInput where
  dataBytes := m.padded padding
  realLen := m.bytes.length
  reads := m.reads
  hash := digest m.bytes
  digestCalled := m.digestCalled
  lenCalled := m.lenCalled

section Prepared

variable (padding : ℕ → List UInt8) (digest : List UInt8 → ℕ) (messages : List HashMessageInput)

theorem totalInputBytes_prepared :
    totalInputBytes (messages.map (prepared padding digest)) = total padding messages := by
  rw [totalInputBytes, List.map_map]
  rfl

theorem messageStart_prepared (i : ℕ) :
    messageStart (messages.map (prepared padding digest)) i = start padding messages i := by
  rw [messageStart, ← List.map_take, totalInputBytes_prepared]
  rfl

end Prepared

/-- Messages that a function prepares one by one. -/
theorem mapM_prepared {f : PaddingExecutorInput → Option PaddingExecutorInput}
    {padding : ℕ → List UInt8} {digest : List UInt8 → ℕ} {messages : List HashMessageInput}
    (h : ∀ m ∈ messages, f m.input = some (m.prepared padding digest)) :
    (messages.map input).mapM f = some (messages.map (prepared padding digest)) := by
  rw [Loops.mapM_eq_some, List.forall₂_map_left_iff, List.forall₂_map_right_iff,
    List.forall₂_same]
  exact h

end HashMessageInput

open HashMessageInput

/-- The rows of prepared messages are the padded messages with their reads. -/
theorem emits_of_messageRows {padding : ℕ → List UInt8} {digest : List UInt8 → ℕ}
    {messages : List HashMessageInput} {cols : ℕ → PaddingRow}
    (htile : ∀ m ∈ messages, Tiling m.reads m.bytes.length)
    (h : ∀ (i : ℕ) (hi : i < messages.length), ∀ t < (messages[i].padded padding).length,
      MessageRow (messages[i].prepared padding digest) i t (cols (start padding messages i + t))) :
    Emits padding messages cols where
  bytes i hi j hj := (h i hi j hj).cols.freeIn
  reads i hi c hc := by
    have hmem := List.getElem_mem hi
    have htile := htile _ hmem
    have hsum : messages[i].reads.sum = messages[i].bytes.length := htile.sum
    have hsize := htile.sizes.readSize c
    have hstart : readStart messages[i].reads c = (messages[i].reads.take c).sum :=
      readStart_eq_sum hc.le
    have hend : readStart messages[i].reads (c + 1) = (messages[i].reads.take (c + 1)).sum :=
      readStart_eq_sum hc
    have hle : (messages[i].reads.take (c + 1)).sum ≤ messages[i].bytes.length := by
      rw [← hsum, ← hend]
      have hmono := readStart_mono messages[i].reads (c := c + 1) hc
      rwa [readStart_eq_sum (c := messages[i].reads.length) le_rfl, List.take_length] at hmono
    have hlen : messages[i].bytes.length ≤ (messages[i].padded padding).length := by
      rw [padded, List.length_append]
      exact Nat.le_add_right _ _
    rw [readStart_succ] at hend
    dsimp only
    rw [← hstart, ← hend] at *
    obtain ⟨c', hrow⟩ := (h i hi (readStart messages[i].reads c +
      readSize messages[i].reads c - 1) (by omega)).read
    have hrow : ReadRow messages[i].reads (messages[i].padded padding) _ c' _ := hrow
    obtain rfl : c' = c := readStart_unique hrow.start_le hrow.lt_end (by omega)
      (by rw [readStart_succ]; omega)
    have hpast : readStart messages[i].reads c' + readSize messages[i].reads c' - 1 + 1 =
        readStart messages[i].reads c' + readSize messages[i].reads c' := by omega
    have hrest : readStart messages[i].reads (c' + 1) - 1 -
        (readStart messages[i].reads c' + readSize messages[i].reads c' - 1) = 0 := by
      rw [readStart_succ]
      omega
    have hslice : slice (messages[i].padded padding) (readStart messages[i].reads c')
        (readStart messages[i].reads c' + readSize messages[i].reads c') =
          slice messages[i].bytes (readStart messages[i].reads c')
            (readStart messages[i].reads c' + readSize messages[i].reads c') := by
      rw [slice, slice, padded, List.take_append_of_le_length hle]
    refine ⟨?_, ?_, fun k => ?_⟩
    · rw [hrow.crLen, Nat.add_sub_cancel_left]
    · rw [hrow.crOffset, hrest]
      rfl
    · rw [hrow.crV k, hrest, Nat.pow_zero, Nat.one_mul, hpast, hslice]

end ZkevmProver
