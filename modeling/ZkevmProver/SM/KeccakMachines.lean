import Mathlib.Algebra.Order.BigOperators.Group.List
import ZkevmProver.SM.Bits2Field

/-!
# The Keccak state machines

`PaddingKKExecutor` hands its blocks to `PaddingKKBitExecutor`, and this one its states to
`Bits2FieldExecutor`.  Together they are the sponge.

  1. The blocks of a list of messages.
  2. States that are carried over, and their bits in lanes.
  3. The machines together.
-/

namespace ZkevmProver

open BigEndian

/-! ## The blocks of a list of messages -/

namespace HashPadder

section Blocks

variable {X : Type} [Inhabited X] {P : HashPadder X} {messages : List PaddingExecutorInput}

omit [Inhabited X] in
theorem length_blocks (P : HashPadder X) (i : PaddingExecutorInput) :
    (P.blocks i).length = i.dataBytes.length / P.bytesPerBlock := by
  rw [blocks, List.length_map, List.length_range]

omit [Inhabited X] in
theorem length_flatMap_blocks (hpad : ∀ i ∈ messages, Padded P.bytesPerBlock i) :
    P.bytesPerBlock * (messages.flatMap P.blocks).length = totalInputBytes messages := by
  induction messages with
  | nil => rfl
  | cons i messages ih =>
    have hi := Nat.mul_div_cancel' (Nat.dvd_of_mod_eq_zero (hpad i (List.mem_cons_self ..)).blocks)
    rw [List.flatMap_cons, List.length_append, length_blocks, Nat.mul_add, hi,
      ih fun j hj => hpad j (List.mem_cons_of_mem _ hj)]
    rfl

omit [Inhabited X] in
/-- The blocks of message `i`, in the list of all blocks. -/
theorem getElem?_flatMap_blocks (hpos : 0 < P.bytesPerBlock)
    (hpad : ∀ i ∈ messages, Padded P.bytesPerBlock i) {i b : ℕ} (hi : i < messages.length)
    (hb : b < messages[i].dataBytes.length / P.bytesPerBlock) :
    (messages.flatMap P.blocks)[messageStart messages i / P.bytesPerBlock + b]? =
      some (P.block messages[i] b) := by
  induction messages generalizing i with
  | nil => exact absurd hi (Nat.not_lt_zero i)
  | cons m messages ih =>
    rw [List.flatMap_cons]
    obtain _ | i := i
    · have hstart : messageStart (m :: messages) 0 / P.bytesPerBlock + b = b := by
        show 0 / P.bytesPerBlock + b = b
        rw [Nat.zero_div, Nat.zero_add]
      rw [hstart, List.getElem?_append_left (by rwa [length_blocks]), blocks,
        List.getElem?_map,
        List.getElem?_range (show b < m.dataBytes.length / P.bytesPerBlock from hb)]
      rfl
    · have hm := Nat.mul_div_cancel'
        (Nat.dvd_of_mod_eq_zero (hpad m (List.mem_cons_self ..)).blocks)
      have hstart : messageStart (m :: messages) (i + 1) / P.bytesPerBlock + b =
          (P.blocks m).length + (messageStart messages i / P.bytesPerBlock + b) := by
        show (m.dataBytes.length + messageStart messages i) / P.bytesPerBlock + b = _
        rw [← hm, Nat.mul_add_div hpos, length_blocks, Nat.add_assoc]
      rw [hstart, List.getElem?_append_right (Nat.le_add_right _ _), Nat.add_sub_cancel_left]
      exact ih (fun j hj => hpad j (List.mem_cons_of_mem _ hj)) (Nat.lt_of_succ_lt_succ hi) hb

omit [Inhabited X] in
theorem mem_prepareInput {input prepared : List PaddingExecutorInput}
    (h : P.prepareInput input = some prepared) : ∀ i ∈ prepared, ∃ bytes,
      P.pad bytes = some i.dataBytes ∧ i.realLen = bytes.length ∧ i.hash = P.digest bytes := by
  have hall := Loops.mapM_eq_some.mp h
  clear h
  induction hall with
  | nil => exact fun i hi => absurd hi List.not_mem_nil
  | @cons a b _ _ h _ ih =>
    rintro i (_ | ⟨_, hi⟩)
    · unfold prepareMessage at h
      dsimp only at h
      have hbytes : ∃ bytes, (P.pad bytes).bind (fun padded => some { a with
          hash := P.digest bytes
          realLen := bytes.length
          dataBytes := padded }) = some b := by
        split at h
        · obtain ⟨bytes, -, h⟩ := Option.bind_eq_some_iff.mp h
          exact ⟨bytes, h⟩
        · exact ⟨_, h⟩
      obtain ⟨bytes, h⟩ := hbytes
      obtain ⟨padded, hpadded, h⟩ := Option.bind_eq_some_iff.mp h
      obtain rfl := Option.some_inj.mp h
      exact ⟨bytes, hpadded, rfl, rfl⟩
    · exact ih i hi

omit [Inhabited X] in
/-- Messages and empty messages take all blocks. -/
theorem totalInputBytes_allMessages (hpad : ∀ i ∈ messages, Padded P.bytesPerBlock i)
    (hpos : 0 < P.bytesPerBlock)
    (hfits : totalInputBytes messages ≤ P.bytesPerBlock * P.nTotalBlocks) :
    totalInputBytes (P.allMessages messages) = P.bytesPerBlock * P.nTotalBlocks := by
  have hdvd := length_flatMap_blocks hpad
  have hempty := messageStart_replicate P.empty
    (le_refl (P.nTotalBlocks - totalInputBytes messages / P.bytesPerBlock))
  have hone : P.empty.dataBytes.length = P.bytesPerBlock := by
    rw [HashPadder.empty, List.length_map, List.length_range]
  rw [messageStart, List.take_of_length_le (List.length_replicate ..).le, hone] at hempty
  rw [allMessages, totalInputBytes_append, hempty]
  rw [← hdvd] at hfits ⊢
  rw [Nat.mul_div_cancel_left _ hpos, ← Nat.mul_add,
    Nat.add_sub_cancel' (Nat.le_of_mul_le_mul_left hfits hpos)]

omit [Inhabited X] in
theorem padded_allMessages (hpad : ∀ i ∈ messages, Padded P.bytesPerBlock i)
    (hpos : 0 < P.bytesPerBlock) : ∀ i ∈ P.allMessages messages, Padded P.bytesPerBlock i := by
  intro i hi
  rcases List.mem_append.mp hi with hi | hi
  · exact hpad i hi
  · obtain rfl := (List.mem_replicate.mp hi).2
    exact padded_empty hpos

end Blocks

end HashPadder

namespace PaddingKKExecutor

/-- The blocks of the messages, and their hash in their rows. -/
theorem execute_blocks {keccak256 : List UInt8 → ℕ} {input prepared : List PaddingExecutorInput}
    (hprepare : (padder keccak256).prepareInput input = some prepared)
    (hfits : totalInputBytes prepared ≤ 136 * 2376) :
    ∃ S, execute keccak256 input = some S ∧ S.required.length = 2376 ∧
      (∀ block ∈ S.required, block.data.length ≤ 136) ∧
      ∀ (i : ℕ) (hi : i < prepared.length), ∃ bytes, prepared[i].dataBytes = pad10 136 bytes ∧
        (∀ b < prepared[i].dataBytes.length / 136,
          S.required[messageStart prepared i / 136 + b]? =
            some ⟨b ≠ 0, slice prepared[i].dataBytes (136 * b) (136 * (b + 1))⟩) ∧
        ∀ t < prepared[i].dataBytes.length,
          (S.pols (messageStart prepared i + t)).hash =
            fun k : Fin 8 => limb (keccak256 bytes) k := by
  have hP := lawful keccak256
  have hprepared (i : PaddingExecutorInput) (hi : i ∈ prepared) :
      ∃ bytes, i.dataBytes = pad10 136 bytes ∧ i.realLen = bytes.length ∧
        i.hash = keccak256 bytes := by
    obtain ⟨bytes, hpad, hrest⟩ := HashPadder.mem_prepareInput hprepare i hi
    exact ⟨bytes, (Option.some_inj.mp hpad).symm, hrest⟩
  have hpad (i : PaddingExecutorInput) (hi : i ∈ prepared) :
      Padded (padder keccak256).bytesPerBlock i := by
    obtain ⟨bytes, hdata, -⟩ := hprepared i hi
    obtain ⟨n, hn, -, hlt⟩ := pad10_blocks 136 (by decide) bytes
    exact ⟨hdata ▸ (Nat.zero_le _).trans_lt (hlt.trans_eq hn.symm),
      hdata ▸ hn ▸ Nat.mul_mod_right _ _⟩
  have hclose (i : PaddingExecutorInput) (hi : i ∈ prepared) :
      HashPadder.Closing (padder keccak256) i := by
    obtain ⟨bytes, hdata, hlen, -⟩ := hprepared i hi
    have hle : i.dataBytes.length ≤ totalInputBytes prepared :=
      List.single_le_sum (fun _ _ => Nat.zero_le _) _ (List.mem_map_of_mem hi)
    exact closing _ hlen hdata ((hle.trans hfits).trans_lt (by decide))
  obtain ⟨S, hS, hblocks, hmsgs⟩ := HashPadder.execute_spec hP hpad hclose hprepare
    ⟨decide_eq_false (Nat.not_lt.mpr hfits), Nat.div_le_of_le_mul hfits⟩
  have hall := HashPadder.padded_allMessages hpad hP.pos
  refine ⟨S, hS, ?_, fun block hblock => ?_, fun i hi => ?_⟩
  · have hlen := HashPadder.length_flatMap_blocks hall
    rw [HashPadder.totalInputBytes_allMessages hpad hP.pos hfits, ← hblocks] at hlen
    exact Nat.eq_of_mul_eq_mul_left hP.pos hlen
  · rw [hblocks] at hblock
    obtain ⟨i, -, hblock⟩ := List.mem_flatMap.mp hblock
    obtain ⟨b, -, rfl⟩ := List.mem_map.mp hblock
    show (slice i.dataBytes (136 * b) (136 * (b + 1))).length ≤ 136
    rw [slice, List.length_drop, List.length_take]
    omega
  · obtain ⟨bytes, hdata, -, hhash⟩ := hprepared _ (List.getElem_mem hi)
    refine ⟨bytes, hdata, fun b hb => ?_, fun t ht => ?_⟩
    · have hi' : i < ((padder keccak256).allMessages prepared).length := by
        rw [HashPadder.allMessages, List.length_append]
        omega
      have hmsg : ((padder keccak256).allMessages prepared)[i] = prepared[i] :=
        List.getElem_append_left hi
      have hget := HashPadder.getElem?_flatMap_blocks (P := padder keccak256) hP.pos hall hi'
        (b := b) (by rwa [hmsg])
      rw [hmsg, HashPadder.allMessages, messageStart_append_left _ hi.le] at hget
      rw [hblocks]
      exact hget
    · rw [(hmsgs i hi).hash t ht, hhash]
      rfl

end PaddingKKExecutor

/-! ## States that are carried over, and their bits in lanes -/

section Carried

open PaddingKKBitExecutor

/-- Every state comes from the permutation of the state before it, or of none where a message begins,
with its block. -/
structure Carried (KeccakF1600 : KeccakState → KeccakState) (blocks : List PaddingBitExecutorInput)
    (states : List Bits2FieldExecutorInput) : Prop where
  output : ∀ (s : ℕ) (hs : s < states.length),
    states[s].outputState = KeccakF1600 states[s].inputState
  reset : ∀ (s : ℕ) (hs : s < states.length), connected blocks s = false →
    states[s].inputState = xorBytes (fun _ => 0) (blockData blocks s)
  carried : ∀ (s : ℕ) (hs : s + 1 < states.length), connected blocks (s + 1) = true →
    states[s + 1].inputState = xorBytes states[s].outputState (blockData blocks (s + 1))

/-- Bit `j` of all inputs is in their lanes of the field elements that are handed over, and bit `j`
of all outputs in those of the table. -/
structure InLanes (states : List Bits2FieldExecutorInput) (S : Bits2FieldExecutor.State) : Prop where
  input : ∀ (s : ℕ) (hs : s < states.length), ∀ j < 1600,
    (toU64 ((S.required.getD (s / 44) []).getD j 0)).testBit (s % 44) =
      stateBit states[s].inputState j
  output : ∀ (s : ℕ) (hs : s < states.length), ∀ j < 1600,
    (toU64 (S.pols (1 + 155286 * (s / 44) + 44 * (1600 + j + 1))).field44).testBit (s % 44) =
      stateBit states[s].outputState j
  small : ∀ fields ∈ S.required, ∀ field ∈ fields, toU64 field < 2 ^ 44

theorem carried_of_executed {KeccakF1600 : KeccakState → KeccakState}
    {blocks : List PaddingBitExecutorInput} {currentState : KeccakState} {m : ℕ} {S : State}
    (h : Executed KeccakF1600 blocks currentState m S) :
    Carried KeccakF1600 blocks S.required := by
  rw [h.required]
  refine ⟨fun s hs => ?_, fun s hs hreset => ?_, fun s hs hcarried => ?_⟩
  · rw [List.getElem_map, List.getElem_range]
    rfl
  · rw [List.getElem_map, List.getElem_range, runInput]
    dsimp only
    rw [stateWithR, if_neg (by rw [hreset]; exact Bool.false_ne_true)]
  · rw [List.getElem_map, List.getElem_range, List.getElem_map, List.getElem_range, runInput,
      runInput]
    dsimp only
    rw [stateWithR, if_pos hcarried]

theorem inLanes_of_packed {states : List Bits2FieldExecutorInput} {m : ℕ}
    {S : Bits2FieldExecutor.State} (hsize : states.length ≤ m * 44)
    (h : Bits2FieldExecutor.Packed states m S) : InLanes states S := by
  have hbound (s : ℕ) (hs : s < states.length) : s / 44 < m := by omega
  have hlane (s : ℕ) (hs : s < states.length) (g : ℕ) :
      Bits2FieldExecutor.laneBits states (s / 44) g (s % 44) =
        if g < 1600 then stateBit states[s].inputState g
        else stateBit states[s].outputState (g - 1600) := by
    rw [Bits2FieldExecutor.laneBits, Nat.div_add_mod' s 44, List.getElem?_eq_getElem hs]
  refine ⟨fun s hs j hj => ?_, fun s hs j hj => ?_, fun fields hfields field hfield => ?_⟩
  · have hfields : S.required.getD (s / 44) [] =
        Bits2FieldExecutor.slotFields states (s / 44) := by
      rw [h.required, List.getD_eq_getElem _ _ (by
        rw [List.length_map, List.length_range]
        exact hbound s hs), List.getElem_map, List.getElem_range]
    rw [hfields, Bits2FieldExecutor.slotFields, List.getD_eq_getElem _ _ (by
      rwa [List.length_map, List.length_range]), List.getElem_map, List.getElem_range,
      Bits2FieldExecutor.testBit_field _ (Nat.mod_lt s (by decide)), hlane s hs, if_pos hj]
  · rw [h.rows _ (hbound s hs) _ (by omega), Bits2FieldExecutor.fieldRow]
    dsimp only
    rw [Nat.mul_succ, Bits2FieldExecutor.accAt_succ _ _ (by decide : 43 < 44),
      Bits2FieldExecutor.testBit_field _ (Nat.mod_lt s (by decide)), hlane s hs,
      if_neg (by omega), Nat.add_sub_cancel_left]
  · rw [h.required] at hfields
    obtain ⟨i, -, rfl⟩ := List.mem_map.mp hfields
    obtain ⟨j, -, rfl⟩ := List.mem_map.mp hfield
    have hlt : Bits.pack 44 (Bits2FieldExecutor.laneBits states i j) < 2 ^ 44 := Bits.pack_lt _ _
    rwa [toU64_fromU64 (hlt.trans (by decide))]

end Carried

/-! ## The machines together -/

section Machines

open PaddingKKBitExecutor

variable {KeccakF1600 : KeccakState → KeccakState} {currentState : KeccakState}

/-- The slots of a message absorb its blocks. -/
theorem stateBefore_message {blocks : List PaddingBitExecutorInput} {bytes : List UInt8}
    {first n : ℕ}
    (hblocks : ∀ b < n, blocks[first + b]? =
      some ⟨b ≠ 0, slice bytes (keccakRate * b) (keccakRate * (b + 1))⟩)
    {b : ℕ} (hb : b < n) :
    stateBefore KeccakF1600 blocks currentState (first + (b + 1)) =
      absorbBlocks KeccakF1600 bytes (fun _ => 0) (b + 1) := by
  have hdata (b : ℕ) (hb : b < n) : blockData blocks (first + b) =
      slice bytes (keccakRate * b) (keccakRate * (b + 1)) := by rw [blockData, hblocks b hb]
  have hconn (b : ℕ) (hb : b < n) : connected blocks (first + b) = decide (b ≠ 0) := by
    rw [connected, hblocks b hb]
  induction b with
  | zero =>
    show KeccakF1600 (stateWithR blocks (first + 0) _) = _
    rw [stateWithR, hdata 0 hb, hconn 0 hb, if_neg (by decide)]
    rfl
  | succ b ih =>
    show KeccakF1600 (stateWithR blocks (first + (b + 1))
      (stateBefore KeccakF1600 blocks currentState (first + (b + 1)))) = _
    rw [stateWithR, hdata _ hb, hconn _ hb, if_pos (by simp), ih (Nat.lt_of_succ_lt hb)]
    rfl

/-- The hash that the bit machine ends up with in the last slot of a message is the one that the
padding machine wrote, the state is carried over within a message and only there, and all bits of all
states are in their lanes. -/
theorem keccak_machines_compose (KeccakF1600 : KeccakState → KeccakState)
    (currentState : KeccakState) {input prepared : List PaddingExecutorInput}
    (hprepare : (PaddingKKExecutor.padder (keccak256 KeccakF1600)).prepareInput input =
      some prepared)
    (hfits : totalInputBytes prepared ≤ 44 * 136 * (PaddingHash.N / PaddingKKExecutor.blockSize)) :
    ∃ SK SB SF, PaddingKKExecutor.execute (keccak256 KeccakF1600) input = some SK ∧
      PaddingKKBitExecutor.execute KeccakF1600 SK.required currentState = some SB ∧
      Bits2FieldExecutor.execute SB.required = some SF ∧
      (∀ (i : ℕ) (hi : i < prepared.length), ∀ t < prepared[i].dataBytes.length,
        let slots := messageStart prepared (i + 1) / 136
        (SB.pols (1993 * (slots - 1) + 1992)).sOut =
          (SK.pols (messageStart prepared i + t)).hash) ∧
      (∀ (i : ℕ) (hi : i < prepared.length), ∀ b < prepared[i].dataBytes.length / 136,
        connected SK.required (messageStart prepared i / 136 + b) = decide (b ≠ 0) ∧
        blockData SK.required (messageStart prepared i / 136 + b) =
          slice prepared[i].dataBytes (136 * b) (136 * (b + 1))) ∧
      SB.required.length = 44 * (PaddingHash.N / PaddingKKExecutor.blockSize) ∧
      Carried KeccakF1600 SK.required SB.required ∧
      InLanes SB.required SF := by
  obtain ⟨SK, hSK, hlen, hsize, hmsgs⟩ :=
    PaddingKKExecutor.execute_blocks hprepare (hfits.trans (by decide))
  have hdata (s : ℕ) : (blockData SK.required s).length ≤ 136 := by
    unfold blockData
    split
    · next block hs => exact hsize block (List.mem_of_getElem? hs)
    · exact Nat.zero_le _
  obtain ⟨SB, hSB, hexec⟩ := PaddingKKBitExecutor.execute_spec KeccakF1600 currentState
    (hlen.le.trans (by decide)) hdata
  have hstates : SB.required.length = 2376 := by
    rw [hexec.required, List.length_map, List.length_range]
    rfl
  have hlanes : SB.required.length ≤ Bits2FieldExecutor.nSlots * 44 := hstates.le.trans (by decide)
  obtain ⟨SF, hSF, hpacked⟩ := Bits2FieldExecutor.execute_spec hlanes
  refine ⟨SK, SB, SF, hSK, hSB, hSF, fun i hi t ht => ?_, fun i hi b hb => ?_, hstates,
    carried_of_executed hexec, inLanes_of_packed hlanes hpacked⟩
  · obtain ⟨bytes, hpad, hblocks, hhash⟩ := hmsgs i hi
    obtain ⟨n, hn, hle, hlt⟩ := pad10_blocks 136 (by decide) bytes
    have hcount : prepared[i].dataBytes.length / 136 = n + 1 := by
      rw [hpad, hn, Nat.mul_div_cancel_left _ (by decide)]
    rw [hcount] at hblocks
    have hslots : messageStart prepared (i + 1) / 136 - 1 = messageStart prepared i / 136 + n := by
      rw [messageStart_succ _ hi, hpad, hn, Nat.add_mul_div_left _ _ (by decide)]
      rfl
    have hlast := (List.getElem?_eq_some_iff.mp (hblocks n (Nat.lt_succ_self n))).1
    have hstate : stateBefore KeccakF1600 SK.required currentState
        (messageStart prepared i / 136 + n + 1) =
          absorbBlocks KeccakF1600 (pad10 136 bytes) (fun _ => 0) (n + 1) :=
      stateBefore_message (hpad ▸ hblocks) (Nat.lt_succ_self n)
    intro slots
    rw [hslots, hexec.sOut _ (hlast.trans_eq hlen), hstate, hhash t ht, keccak256_eq _ _ hn]
  · obtain ⟨bytes, -, hblocks, -⟩ := hmsgs i hi
    rw [connected, blockData, hblocks b hb]
    exact ⟨rfl, rfl⟩

/-- Three bytes. -/
theorem keccak_machines_compose_three :
    ∃ SK SB, PaddingKKExecutor.execute (keccak256 id) [{ dataBytes := [1, 2, 3] }] = some SK ∧
      PaddingKKBitExecutor.execute id SK.required (fun _ => 0) = some SB ∧
      (SB.pols 1992).sOut = (SK.pols 0).hash := by
  have hprepare (bytes : List UInt8) :
      (PaddingKKExecutor.padder (keccak256 id)).prepareInput [{ dataBytes := bytes }] =
        some [{ dataBytes := pad10 136 bytes
                realLen := bytes.length
                hash := keccak256 id bytes }] := rfl
  have hprepare := hprepare [1, 2, 3]
  have hlen : (pad10 136 [1, 2, 3]).length = 136 := by decide +kernel
  generalize pad10 136 [1, 2, 3] = padded at *
  generalize hmessage : PaddingExecutorInput.mk [] padded _ [] _ _ _ = message at hprepare
  have hlen : message.dataBytes.length = 136 := by rw [← hmessage, hlen]
  have hstart : messageStart [message] 1 = 136 := hlen
  have htotal : totalInputBytes [message] = 136 := hlen
  obtain ⟨SK, SB, -, hSK, hSB, -, hhash, -⟩ :=
    keccak_machines_compose id (fun _ => 0) hprepare (htotal.le.trans (by decide))
  have hrow := hhash 0 (Nat.zero_lt_one) 0 (by
    rw [List.getElem_cons_zero, hlen]
    decide)
  rw [hstart] at hrow
  exact ⟨SK, SB, hSK, hSB, hrow⟩

end Machines

end ZkevmProver
