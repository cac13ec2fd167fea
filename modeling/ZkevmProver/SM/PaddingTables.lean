import Mathlib.Algebra.Order.BigOperators.Group.List
import ZkevmProver.SM.PaddingEmits

/-!
# The padding executors emit the padded messages

Each machine has room for a number of blocks.  The messages, with empty messages up to that number,
are emitted as they are padded; the rows that are left belong to no message.

  1. The Keccak and the SHA-256 table.
  2. The Poseidon table.
  3. All three.
-/

namespace ZkevmProver

open HashMessageInput

/-! ## The Keccak and the SHA-256 table -/

section Total

variable {padding : ℕ → List UInt8} {messages : List HashMessageInput}

theorem total_append_replicate (padding : ℕ → List UInt8) (messages : List HashMessageInput)
    (n : ℕ) : total padding (messages ++ List.replicate n HashMessageInput.empty) =
      total padding messages + n * (padding 0).length := by
  rw [total, List.map_append, List.sum_append, List.map_replicate, List.sum_replicate_nat]
  rfl

theorem length_padded_le_total (padding : ℕ → List UInt8) {m : HashMessageInput}
    (hm : m ∈ messages) :
    (m.padded padding).length ≤ total padding messages :=
  List.single_le_sum (fun _ _ => Nat.zero_le _) _ (List.mem_map_of_mem hm)

theorem total_blocks {block : ℕ} (h : ∀ m ∈ messages, (m.padded padding).length % block = 0) :
    total padding messages % block = 0 := by
  induction messages with
  | nil => exact Nat.zero_mod _
  | cons m messages ih =>
    have hm := h m (List.mem_cons_self ..)
    have htail := ih fun m' hm' => h m' (List.mem_cons_of_mem _ hm')
    show ((m.padded padding).length + total padding messages) % block = 0
    rw [Nat.add_mod, hm, htail]
    exact Nat.zero_mod _

end Total

/-- A list of messages with empty ones after it. -/
theorem tile_append_replicate {messages : List HashMessageInput}
    (htile : ∀ m ∈ messages, Tiling m.reads m.bytes.length) (n : ℕ) :
    ∀ m ∈ messages ++ List.replicate n HashMessageInput.empty,
      Tiling m.reads m.bytes.length := by
  intro m hm
  rcases List.mem_append.mp hm with hm | hm
  · exact htile m hm
  · obtain rfl := (List.mem_replicate.mp hm).2
    exact ⟨fun _ hr => absurd hr List.not_mem_nil, rfl⟩

/-- The padded messages, their markers, their blocks as the bit machine is handed them, and rows at
the end that belong to no message. -/
structure HashTable {X : Type} [Inhabited X] (block : ℕ) (padding : ℕ → List UInt8)
    (restByte : ℕ → ℕ) (messages : List HashMessageInput) (S : HashPadder.State X) : Prop where
  emits : Emits padding messages fun q => (S.pols q).toPaddingRow
  marks : ∀ (i : ℕ) (hi : i < messages.length),
    Marks padding messages (fun q => (S.pols q).toPaddingRow) i hi
  connects : Connects block padding messages fun q => (S.pols q).connected
  blocks : S.required = messages.flatMap fun m => messageBlocks block (m.padded padding)
  rest : ∀ j, total padding messages + j < PaddingHash.N →
    let row := S.pols (total padding messages + j)
    row.freeIn = fromU64 (restByte j) ∧ row.connected = 0 ∧ row.lastHashLen = 0 ∧
      row.lastHashDigest = 0

namespace HashPadder

section Table

variable {X : Type} [Inhabited X] {P : HashPadder X} {padding : ℕ → List UInt8}
  {messages : List HashMessageInput}

/-- The messages with their padding, empty messages up to the number of blocks, and rows that belong
to no message. -/
theorem execute_messages (hP : Lawful P)
    (hpadding : ∀ m ∈ messages, P.pad m.bytes = some (m.padded padding))
    (hpadding0 : P.pad [] = some (padding 0))
    (hclose : ∀ m ∈ messages, Closing P (m.prepared padding P.digest))
    (htile : ∀ m ∈ messages, Tiling m.reads m.bytes.length)
    (hroom : P.tooMany (total padding messages) = false)
    (hfits : total padding messages ≤ P.nTotalBlocks * P.bytesPerBlock) :
    ∃ n S, P.execute (messages.map input) = some S ∧
      let all := messages ++ List.replicate n HashMessageInput.empty
      total padding all = P.nTotalBlocks * P.bytesPerBlock ∧
      S.required = (all.flatMap fun m => messageBlocks P.bytesPerBlock (m.padded padding)) ∧
      (∀ (i : ℕ) (hi : i < all.length),
        ReadMessage P (all[i].prepared padding P.digest) i (start padding all i) S.pols) ∧
      ∀ q, total padding all ≤ q → q < PaddingHash.N →
        RestRow P all.length (total padding all) q (S.pols q) := by
  have hlist {p : PaddingExecutorInput → Prop}
      (h : ∀ m ∈ messages, p (m.prepared padding P.digest)) :
      ∀ i ∈ messages.map (prepared padding P.digest), p i := List.forall_mem_map.mpr h
  have hsum := totalInputBytes_prepared padding P.digest messages
  have hprepare (m : HashMessageInput) (hm : m ∈ messages) :
      P.prepareMessage m.input = some (m.prepared padding P.digest) := by
    show (P.pad m.bytes).bind _ = _
    rw [hpadding m hm]
    rfl
  have hempty : P.empty = prepared padding P.digest HashMessageInput.empty := by
    have hbytes : P.empty.dataBytes = padding 0 :=
      Option.some_inj.mp (hP.empty.symm.trans hpadding0)
    show ({ dataBytes := P.empty.dataBytes, hash := P.digest [] } : PaddingExecutorInput) = _
    rw [hbytes]
    rfl
  have hpad (m : HashMessageInput) (hm : m ∈ messages) :
      Padded P.bytesPerBlock (m.prepared padding P.digest) :=
    have hblocks := hP.padded _ _ (hpadding m hm)
    ⟨(Nat.zero_le _).trans_lt hblocks.1, hblocks.2⟩
  obtain ⟨S, hS, hblocks, hmsgs, hrows⟩ := execute_reads hP (hlist hpad) (hlist hclose)
    (mapM_prepared hprepare)
    ⟨by rw [hsum]; exact hroom, by rw [hsum]; exact Nat.div_le_of_le_mul (by rwa [Nat.mul_comm])⟩
    (hlist fun m hm => ⟨htile m hm, by
      show m.bytes.length ≤ (m.padded padding).length
      rw [padded, List.length_append]
      exact Nat.le_add_right _ _⟩)
  have hone : (padding 0).length = P.bytesPerBlock := by
    have h := congrArg (fun i => i.dataBytes.length) hempty
    exact h.symm.trans (by rw [HashPadder.empty, List.length_map, List.length_range])
  have htotal := total_blocks fun m hm => (hpad m hm).blocks
  obtain ⟨used, hused⟩ := Nat.dvd_of_mod_eq_zero htotal
  have hall : allMessages P (messages.map (prepared padding P.digest)) =
      (messages ++ List.replicate
        (P.nTotalBlocks - total padding messages / P.bytesPerBlock) HashMessageInput.empty).map
          (prepared padding P.digest) := by
    rw [allMessages, hsum, hempty, List.map_append, List.map_replicate]
  rw [hall] at hblocks hmsgs hrows
  refine ⟨P.nTotalBlocks - total padding messages / P.bytesPerBlock, S, hS, ?_, ?_, ?_, ?_⟩
  · rw [total_append_replicate, hone, hused, Nat.mul_div_cancel_left _ hP.pos, Nat.sub_mul,
      Nat.mul_comm P.bytesPerBlock]
    refine Nat.add_sub_cancel' ?_
    rwa [hused, Nat.mul_comm P.bytesPerBlock] at hfits
  · rw [hblocks, List.flatMap_map]
    rfl
  · intro i hi
    have h := hmsgs i (by rwa [List.length_map])
    rwa [List.getElem_map, messageStart_prepared] at h
  · rwa [totalInputBytes_prepared, List.length_map] at hrows

theorem execute_table (hP : Lawful P)
    (hpadding : ∀ m ∈ messages, P.pad m.bytes = some (m.padded padding))
    (hpadding0 : P.pad [] = some (padding 0))
    (hclose : ∀ m ∈ messages, Closing P (m.prepared padding P.digest))
    (htile : ∀ m ∈ messages, Tiling m.reads m.bytes.length)
    (hroom : P.tooMany (total padding messages) = false)
    (hfits : total padding messages ≤ P.nTotalBlocks * P.bytesPerBlock) {restByte : ℕ → ℕ}
    (hrest : ∀ fp j, ((P.restByte fp (fp + j)).getD 0).toNat = restByte j) :
    ∃ n S, P.execute (messages.map input) = some S ∧
      total padding (messages ++ List.replicate n HashMessageInput.empty) =
        P.nTotalBlocks * P.bytesPerBlock ∧
      HashTable P.bytesPerBlock padding restByte
        (messages ++ List.replicate n HashMessageInput.empty) S := by
  obtain ⟨n, S, hS, htotal, hblocks, hmsg, hrows⟩ :=
    execute_messages hP hpadding hpadding0 hclose htile hroom hfits
  have htile := tile_append_replicate htile n
  refine ⟨n, S, hS, htotal, ?_⟩
  generalize messages ++ List.replicate n HashMessageInput.empty = all at *
  refine ⟨?_, fun i hi => ⟨?_, ?_⟩, ?_, hblocks, ?_⟩
  · exact emits_of_messageRows htile fun i hi t ht => (hmsg i hi).reads t ht
  · exact fun j hj => ((hmsg i hi).rows j hj).lastHashLen
  · exact fun j hj => ((hmsg i hi).rows j hj).lastHashDigest
  · exact fun i hi j hj => ((hmsg i hi).rows j hj).connected
  · intro j hj
    obtain ⟨-, hfree, hconn, hlen, hdig⟩ := hrows _ (Nat.le_add_right _ j) hj
    exact ⟨by rw [hfree, hrest], hconn, hlen, hdig⟩

end Table

end HashPadder

section KK

variable {messages : List HashMessageInput}

theorem PaddingKKExecutor.pad_eq (keccak256 : List UInt8 → ℕ) (bytes : List UInt8) :
    (padder keccak256).pad bytes = some (bytes ++ multiRatePadding 136 bytes.length) :=
  congrArg some (pad10_eq (by decide) bytes)

theorem PaddingKKExecutor.closing_prepared (keccak256 : List UInt8 → ℕ)
    (hfits : total (multiRatePadding 136) messages ≤ 2376 * 136) (m : HashMessageInput)
    (hm : m ∈ messages) :
    HashPadder.Closing (padder keccak256) (m.prepared (multiRatePadding 136) keccak256) := by
  have hle := length_padded_le_total (multiRatePadding 136) hm
  exact closing keccak256 rfl (pad10_eq (by decide) m.bytes).symm (by
    show (m.padded (multiRatePadding 136)).length < 2 ^ 61
    omega)

theorem PaddingKKExecutor.execute_table (keccak256 : List UInt8 → ℕ)
    (htile : ∀ m ∈ messages, Tiling m.reads m.bytes.length)
    (hfits : total (multiRatePadding 136) messages ≤ 2376 * 136) :
    ∃ n S, execute keccak256 (messages.map input) = some S ∧
      total (multiRatePadding 136) (messages ++ List.replicate n HashMessageInput.empty) =
        2376 * 136 ∧
      HashTable 136 (multiRatePadding 136) (fun _ => 0)
        (messages ++ List.replicate n HashMessageInput.empty) S :=
  HashPadder.execute_table (lawful keccak256) (fun m _ => pad_eq keccak256 m.bytes)
    (pad_eq keccak256 []) (closing_prepared keccak256 hfits) htile
    (decide_eq_false (Nat.not_lt.mpr hfits)) hfits fun _ _ => rfl

end KK

theorem PaddingSha256Executor.execute_table (SHA256 : List UInt8 → ℕ)
    {messages : List HashMessageInput} (htile : ∀ m ∈ messages, Tiling m.reads m.bytes.length)
    (hfits : total sha256Padding messages ≤ 1862 * 64) :
    ∃ n S, execute SHA256 (messages.map input) = some S ∧
      total sha256Padding (messages ++ List.replicate n HashMessageInput.empty) = 1862 * 64 ∧
      HashTable 64 sha256Padding (fun j => if j = 0 then 0x80 else 0)
        (messages ++ List.replicate n HashMessageInput.empty) S := by
  have hpadding (m : HashMessageInput) (hm : m ∈ messages) :
      (padder SHA256).pad m.bytes = some (m.padded sha256Padding) := by
    refine sha256_pad_eq ?_
    have hle := length_padded_le_total sha256Padding hm
    rw [padded, List.length_append] at hle
    omega
  refine HashPadder.execute_table (lawful SHA256) hpadding
    (sha256_pad_eq (by decide : ([] : List UInt8).length < 2 ^ 29))
    (fun m hm => closing SHA256 ((lawful SHA256).padded _ _ (hpadding m hm)).2) htile
    (decide_eq_false ?_) hfits fun fp j => ?_
  · show ¬total sha256Padding messages * 31488 > 7 * 64 * 8388608
    omega
  · show ((if fp + j ≠ fp then none else some (0x80 : UInt8)).getD 0).toNat = _
    rcases Nat.eq_zero_or_pos j with rfl | hj
    · rw [if_neg (not_not_intro (Nat.add_zero fp))]
      rfl
    · rw [if_pos (by omega), if_neg hj.ne']
      rfl

/-! ## The Poseidon table -/

/-- The padded messages; the markers of all messages up to a length; the hash of a block as the
capacity of the next one of the same message; and a shorter padding at the end. -/
structure PaddingPGTable (messages : List HashMessageInput)
    (S : PaddingState PaddingPGRow PoseidonGInput) : Prop where
  emits : Emits (multiRatePadding 56) messages fun q => (S.pols q).toPaddingRow
  marks : ∀ (i : ℕ) (hi : i < messages.length), messages[i].bytes.length ≤ 65590 →
    Marks (multiRatePadding 56) messages (fun q => (S.pols q).toPaddingRow) i hi
  chained : ∀ (i : ℕ) (hi : i < messages.length),
    ∀ j < (messages[i].padded (multiRatePadding 56)).length,
      let p := start (multiRatePadding 56) messages i + j
      (S.pols p).prevHash = if j < 56 then 0 else (S.pols (p - 56)).curHash
  rest : ∀ j < 32, PaddingPGExecutor.PGRestRow 32 j
    (S.pols (total (multiRatePadding 56) messages + j))

/-- The Poseidon executor sees the last row of a message that is not too long. -/
theorem PaddingPGExecutor.closes_iff {input : PaddingExecutorInput} {bytes : List UInt8}
    (hlen : input.realLen = bytes.length) (hdata : input.dataBytes = pad10 56 bytes)
    (hshort : bytes.length ≤ 65590) {j : ℕ} (hj : j < input.dataBytes.length) :
    Closes input j ↔ j + 1 = input.dataBytes.length := by
  obtain ⟨n, hn, hle, hlt⟩ := pad10_blocks 56 (by decide) bytes
  rw [← hdata] at hn
  unfold Closes
  rw [toU64_remAt_big (by omega) (by omega), remAt_eq_zero (by omega) (by omega)]
  omega

theorem PaddingPGExecutor.execute_table (keccak256 : List UInt8 → ℕ) (poseidon : Node → Fea)
    {messages : List HashMessageInput} (htile : ∀ m ∈ messages, Tiling m.reads m.bytes.length)
    (hfits : total (multiRatePadding 56) messages ≤ N) :
    ∃ n S, execute keccak256 poseidon (messages.map input) = some S ∧
      total (multiRatePadding 56) (messages ++ List.replicate n HashMessageInput.empty) + 32 = N ∧
      PaddingPGTable (messages ++ List.replicate n HashMessageInput.empty) S := by
  have hpadded (m : HashMessageInput) : pad10 56 m.bytes = m.padded (multiRatePadding 56) :=
    pad10_eq (by decide) m.bytes
  have hprepare : prepareInput keccak256 (messages.map input) =
      some (messages.map (prepared (multiRatePadding 56) keccak256)) := by
    refine mapM_prepared fun m _ => ?_
    show some _ = some _
    rw [prepared, ← hpadded]
    dsimp only [input]
    rw [List.append_nil]
    rfl
  have hpad := padded_of_prepareInput hprepare
  have hsum := totalInputBytes_prepared (multiRatePadding 56) keccak256 messages
  obtain ⟨S, hS, hmsgs, hrest⟩ := execute_reads poseidon hprepare (hsum.trans_le hfits)
    (List.forall_mem_map.mpr fun m hm => ⟨htile m hm, by
      show m.bytes.length ≤ (m.padded (multiRatePadding 56)).length
      rw [padded, List.length_append]
      exact Nat.le_add_right _ _⟩)
  have htotal := totalInputBytes_allMessages keccak256 hpad (hsum.trans_le hfits)
  have hall : allMessages keccak256 (messages.map (prepared (multiRatePadding 56) keccak256)) =
      (messages ++ List.replicate ((N - total (multiRatePadding 56) messages) / 56)
        HashMessageInput.empty).map (prepared (multiRatePadding 56) keccak256) := by
    rw [allMessages, hsum, List.map_append, List.map_replicate]
    rfl
  rw [hall] at hmsgs hrest htotal
  have htile := tile_append_replicate htile ((N - total (multiRatePadding 56) messages) / 56)
  refine ⟨(N - total (multiRatePadding 56) messages) / 56, S, hS, ?_⟩
  clear hall
  generalize messages ++ List.replicate _ HashMessageInput.empty = all at *
  rw [totalInputBytes_prepared] at htotal hrest
  have hmsg (i : ℕ) (hi : i < all.length) :
      PGReadMessage poseidon (all[i].prepared (multiRatePadding 56) keccak256) i
        (start (multiRatePadding 56) all i) S.pols := by
    have h := hmsgs i (by rwa [List.length_map])
    rwa [List.getElem_map, messageStart_prepared] at h
  refine ⟨htotal, ?_, fun i hi hshort => ⟨?_, ?_⟩, ?_, hrest⟩
  · exact emits_of_messageRows htile fun i hi t ht => (hmsg i hi).reads t ht
  · intro j hj
    have hcloses : Closes (all[i].prepared (multiRatePadding 56) keccak256) j ↔ _ :=
      closes_iff rfl (hpadded all[i]).symm hshort hj
    show (S.pols _).lastHashLen = _
    rw [((hmsg i hi).rows j hj).lastHashLen]
    exact if_congr (and_congr_left' hcloses) rfl rfl
  · intro j hj
    have hcloses : Closes (all[i].prepared (multiRatePadding 56) keccak256) j ↔ _ :=
      closes_iff rfl (hpadded all[i]).symm hshort hj
    show (S.pols _).lastHashDigest = _
    rw [((hmsg i hi).rows j hj).lastHashDigest]
    exact if_congr (and_congr_left' hcloses) rfl rfl
  · intro i hi j hj p
    rw [((hmsg i hi).rows j hj).prevHash]
    split
    · next hlt => rw [Nat.div_eq_of_lt hlt]; rfl
    · next hge =>
      obtain ⟨t, rfl⟩ := Nat.exists_eq_add_of_le (Nat.not_lt.mp hge)
      have hp : p - 56 = start (multiRatePadding 56) all i + t := by omega
      have hlt : t < (all[i].prepared (multiRatePadding 56) keccak256).dataBytes.length :=
        (Nat.le_add_left t 56).trans_lt hj
      rw [hp, (hmsg i hi).curHash t hlt, Nat.add_div_left _ (by decide)]

/-! ## All three -/

/-- Messages that their reads tile, as many as a machine has room for, are emitted with their padding
and their markers, empty messages fill up the blocks of the machine, and no other row has a
marker. -/
theorem padding_executors_emit (keccak256 SHA256 : List UInt8 → ℕ) (poseidon : Node → Fea)
    {messages : List HashMessageInput}
    (htile : ∀ m ∈ messages, Tiling m.reads m.bytes.length) :
    (total (multiRatePadding 136) messages ≤ 2376 * 136 →
      ∃ n S, PaddingKKExecutor.execute keccak256 (messages.map input) = some S ∧
        total (multiRatePadding 136) (messages ++ List.replicate n HashMessageInput.empty) =
          2376 * 136 ∧
        HashTable 136 (multiRatePadding 136) (fun _ => 0)
          (messages ++ List.replicate n HashMessageInput.empty) S) ∧
    (total sha256Padding messages ≤ 1862 * 64 →
      ∃ n S, PaddingSha256Executor.execute SHA256 (messages.map input) = some S ∧
        total sha256Padding (messages ++ List.replicate n HashMessageInput.empty) = 1862 * 64 ∧
        HashTable 64 sha256Padding (fun j => if j = 0 then 0x80 else 0)
          (messages ++ List.replicate n HashMessageInput.empty) S) ∧
    (total (multiRatePadding 56) messages ≤ PaddingPGExecutor.N →
      ∃ n S, PaddingPGExecutor.execute keccak256 poseidon (messages.map input) = some S ∧
        total (multiRatePadding 56) (messages ++ List.replicate n HashMessageInput.empty) + 32 =
          PaddingPGExecutor.N ∧
        PaddingPGTable (messages ++ List.replicate n HashMessageInput.empty) S) :=
  ⟨PaddingKKExecutor.execute_table keccak256 htile,
    PaddingSha256Executor.execute_table SHA256 htile,
    PaddingPGExecutor.execute_table keccak256 poseidon htile⟩

/-- Three bytes that are read at once. -/
theorem padding_executors_emit_three :
    let messages : List HashMessageInput := [{ bytes := [1, 2, 3], reads := [3] }]
    (∃ n S, PaddingKKExecutor.execute (fun _ => 0) (messages.map input) = some S ∧
      HashTable 136 (multiRatePadding 136) (fun _ => 0)
        (messages ++ List.replicate n HashMessageInput.empty) S) ∧
    (∃ n S, PaddingSha256Executor.execute (fun _ => 0) (messages.map input) = some S ∧
      HashTable 64 sha256Padding (fun j => if j = 0 then 0x80 else 0)
        (messages ++ List.replicate n HashMessageInput.empty) S) ∧
    ∃ n S, PaddingPGExecutor.execute (fun _ => 0) Node.right (messages.map input) = some S ∧
      PaddingPGTable (messages ++ List.replicate n HashMessageInput.empty) S := by
  intro messages
  have htile : ∀ m ∈ messages, Tiling m.reads m.bytes.length := by
    intro m hm
    obtain rfl := List.mem_singleton.mp hm
    exact ⟨fun r hr => by obtain rfl := List.mem_singleton.mp hr; decide, rfl⟩
  obtain ⟨hkk, hsha, hpg⟩ :=
    padding_executors_emit (fun _ => 0) (fun _ => 0) Node.right htile
  obtain ⟨n, S, hS, -, htable⟩ := hkk (by decide +kernel)
  obtain ⟨n', S', hS', -, htable'⟩ := hsha (by decide)
  obtain ⟨n'', S'', hS'', -, htable''⟩ := hpg (by decide)
  exact ⟨⟨n, S, hS, htable⟩, ⟨n', S', hS', htable'⟩, n'', S'', hS'', htable''⟩

/-- The Keccak table does not end with the paddings of empty messages. -/
theorem padding_executors_emit_rest : ∃ S, PaddingKKExecutor.execute (fun _ => 0) [] = some S ∧
    ¬∃ n, PaddingHash.N ≤ total (multiRatePadding 136) (List.replicate n HashMessageInput.empty) ∧
      Emits (multiRatePadding 136) (List.replicate n HashMessageInput.empty)
        fun q => (S.pols q).toPaddingRow := by
  have hnil : ∀ m ∈ ([] : List HashMessageInput), Tiling m.reads m.bytes.length :=
    fun m hm => absurd hm List.not_mem_nil
  obtain ⟨m, S, hS, htotal, htable⟩ :=
    PaddingKKExecutor.execute_table (fun _ => 0) hnil (by decide)
  refine ⟨S, hS, fun ⟨n, hn, hemits⟩ => ?_⟩
  have hrow : (S.pols (2376 * 136)).freeIn = 0 := by
    have hrest := (htable.rest 0 (by rw [htotal]; decide)).1
    rwa [htotal] at hrest
  have htotal := total_append_replicate (multiRatePadding 136) [] n
  rw [List.nil_append] at htotal
  have hlen : (multiRatePadding 136 0).length = 136 := by decide +kernel
  have hlt : 2376 < n := by
    have hzero : total (multiRatePadding 136) [] = 0 := rfl
    rw [hlen, hzero] at htotal
    have hN : PaddingHash.N = 8388608 := rfl
    omega
  have hindex : 2376 < (List.replicate n HashMessageInput.empty).length := by
    rwa [List.length_replicate]
  have hget : (List.replicate n HashMessageInput.empty)[2376] = HashMessageInput.empty :=
    List.getElem_replicate ..
  have hstart : start (multiRatePadding 136) (List.replicate n HashMessageInput.empty) 2376 =
      2376 * 136 := by
    rw [start, List.take_replicate, Nat.min_eq_left hlt.le]
    have h := total_append_replicate (multiRatePadding 136) [] 2376
    rwa [List.nil_append, hlen] at h
  have hbyte := hemits.bytes 2376 hindex 0 (by rw [hget]; decide +kernel)
  rw [hstart, hget, Nat.add_zero] at hbyte
  exact absurd (hrow.symm.trans hbyte) (by decide)

end ZkevmProver
