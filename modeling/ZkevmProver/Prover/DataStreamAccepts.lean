import ZkevmProver.Prover.DataStreamExact

/-!
# Streams that are accepted

Every stream is read to its end or to an error.  What is accepted is a stream of a batch unless a block is
started while another one is open, a transaction has another length than its entry, or the upper halves of
numbers, which the decoder does not see, differ.

1. What a stream spells
2. Reading any bytes
3. Accepted streams
4. The entries so far
5. Streams that are not well formed
-/

namespace ZkevmProver

open BigEndian Fallible

/-! ## What a stream spells -/

/-- No block is started while another one is open. -/
def NoReopen : Bool → List EntryData → Prop
  | _, [] => True
  | isOpen, .start _ :: datas => isOpen = false ∧ NoReopen true datas
  | _, .stop _ :: datas => NoReopen false datas
  | isOpen, _ :: datas => NoReopen isOpen datas

/-- The half of a number that is lost. -/
def highHalf (n : UInt64) : ℕ := n.toNat / 2 ^ 32

/-- The lost halves of the batch numbers are the same, and so are those of the block numbers. -/
def SameHighHalves (batchHigh blockHigh : ℕ) (datas : List EntryData) : Prop :=
  (∀ b, .start b ∈ datas → highHalf b.batchNumber = batchHigh ∧ highHalf b.blockNumber = blockHigh) ∧
    ∀ b, .stop b ∈ datas → highHalf b.blockNumber = blockHigh

/-- The entries that a stream spells: each transaction has the length of its entry, no block is started
while another one is open, and the lost halves of numbers agree. -/
def Tight (s : List UInt8) : Prop :=
  ∃ entries batchHigh blockHigh, Spells s entries ∧
    (∀ e ∈ entries, e.2 = e.1.data.encode.length) ∧
    NoReopen false (entries.map fun e => e.1.data) ∧
    SameHighHalves batchHigh blockHigh (entries.map fun e => e.1.data)

/-- A stream of the entries of a batch with consecutive blocks. -/
def WellFormedStream (s : List UInt8) : Prop :=
  ∃ batch entries, StreamOf batch entries ∧ s = entries.flatMap FileEntry.encode ∧
    batch.blocks.IsChain fun b b' => b'.blockNumber.toNat = b.blockNumber.toNat + 1

/-! ## Reading any bytes -/

theorem exists_append_of_le {l : List UInt8} {n : ℕ} (h : n ≤ l.length) :
    ∃ (ba : Bytes n) (rest : List UInt8), l = ba.1 ++ rest :=
  ⟨⟨l.take n, List.length_take_of_le h⟩, l.drop n, (List.take_append_drop n l).symm⟩

theorem exists_number {n : ℕ} (ba : Bytes n) : ∃ k < 256 ^ n, ba.1 = bytes n k := by
  obtain ⟨ba, rfl⟩ := ba
  exact ⟨value ba, value_lt ba, (bytes_value ba).symm⟩

theorem exists_u16 (ba : Bytes 2) : ∃ n : UInt16, ba.1 = bytes 2 n.toNat := by
  obtain ⟨k, hk, hba⟩ := exists_number ba
  exact ⟨UInt16.ofNat k, by rw [UInt16.toNat_ofNat_of_lt' hk, hba]⟩

theorem exists_u32 (ba : Bytes 4) : ∃ n : UInt32, ba.1 = bytes 4 n.toNat := by
  obtain ⟨k, hk, hba⟩ := exists_number ba
  exact ⟨UInt32.ofNat k, by rw [UInt32.toNat_ofNat_of_lt' hk, hba]⟩

theorem exists_u64 (ba : Bytes 8) : ∃ n : UInt64, ba.1 = bytes 8 n.toNat := by
  obtain ⟨k, hk, hba⟩ := exists_number ba
  exact ⟨UInt64.ofNat k, by rw [UInt64.toNat_ofNat_of_lt' hk, hba]⟩

theorem exists_start {l : List UInt8} (h : 122 ≤ l.length) :
    ∃ (b : L2BlockStart) (rest : List UInt8), l = b.encode ++ rest := by
  obtain ⟨b1, l1, rfl⟩ := exists_append_of_le (n := 8) (l := l) (by omega)
  simp only [List.length_append, b1.2] at h
  obtain ⟨b2, l2, rfl⟩ := exists_append_of_le (n := 8) (l := l1) (by omega)
  simp only [List.length_append, b2.2] at h
  obtain ⟨b3, l3, rfl⟩ := exists_append_of_le (n := 8) (l := l2) (by omega)
  simp only [List.length_append, b3.2] at h
  obtain ⟨b4, l4, rfl⟩ := exists_append_of_le (n := 4) (l := l3) (by omega)
  simp only [List.length_append, b4.2] at h
  obtain ⟨b5, l5, rfl⟩ := exists_append_of_le (n := 4) (l := l4) (by omega)
  simp only [List.length_append, b5.2] at h
  obtain ⟨b6, l6, rfl⟩ := exists_append_of_le (n := 32) (l := l5) (by omega)
  simp only [List.length_append, b6.2] at h
  obtain ⟨b7, l7, rfl⟩ := exists_append_of_le (n := 32) (l := l6) (by omega)
  simp only [List.length_append, b7.2] at h
  obtain ⟨b8, l8, rfl⟩ := exists_append_of_le (n := 20) (l := l7) (by omega)
  simp only [List.length_append, b8.2] at h
  obtain ⟨b9, l9, rfl⟩ := exists_append_of_le (n := 2) (l := l8) (by omega)
  simp only [List.length_append, b9.2] at h
  obtain ⟨b10, l10, rfl⟩ := exists_append_of_le (n := 4) (l := l9) (by omega)
  obtain ⟨batchNumber, h1⟩ := exists_u64 b1
  obtain ⟨blockNumber, h2⟩ := exists_u64 b2
  obtain ⟨timestamp, h3⟩ := exists_u64 b3
  obtain ⟨deltaTimestamp, h4⟩ := exists_u32 b4
  obtain ⟨l1InfoTreeIndex, h5⟩ := exists_u32 b5
  obtain ⟨forkId, h9⟩ := exists_u16 b9
  obtain ⟨chainId, h10⟩ := exists_u32 b10
  refine ⟨⟨batchNumber, blockNumber, timestamp, deltaTimestamp, l1InfoTreeIndex, b6, b7, b8, forkId,
    chainId⟩, l10, ?_⟩
  rw [h1, h2, h3, h4, h5, h9, h10]
  simp only [L2BlockStart.encode, List.append_assoc]

theorem exists_stop {l : List UInt8} (h : 72 ≤ l.length) :
    ∃ (b : L2BlockEnd) (rest : List UInt8), l = b.encode ++ rest := by
  obtain ⟨b1, l1, rfl⟩ := exists_append_of_le (n := 8) (l := l) (by omega)
  simp only [List.length_append, b1.2] at h
  obtain ⟨b2, l2, rfl⟩ := exists_append_of_le (n := 32) (l := l1) (by omega)
  simp only [List.length_append, b2.2] at h
  obtain ⟨b3, l3, rfl⟩ := exists_append_of_le (n := 32) (l := l2) (by omega)
  obtain ⟨blockNumber, h1⟩ := exists_u64 b1
  refine ⟨⟨blockNumber, b2, b3⟩, l3, ?_⟩
  rw [h1]
  simp only [L2BlockEnd.encode, List.append_assoc]

/-- The fields of a transaction, up to the bytes of the transaction itself. -/
theorem exists_txFields {l : List UInt8} (h : 38 ≤ l.length) :
    ∃ (gasPricePercentage isValid : UInt8) (stateRoot : Bytes 32) (encodedTxLength : UInt32)
      (rest : List UInt8), l = [gasPricePercentage] ++ ([isValid] ++ (stateRoot.1 ++
        (bytes 4 encodedTxLength.toNat ++ rest))) := by
  obtain ⟨b1, l1, rfl⟩ := exists_append_of_le (n := 1) (l := l) (by omega)
  simp only [List.length_append, b1.2] at h
  obtain ⟨b2, l2, rfl⟩ := exists_append_of_le (n := 1) (l := l1) (by omega)
  simp only [List.length_append, b2.2] at h
  obtain ⟨b3, l3, rfl⟩ := exists_append_of_le (n := 32) (l := l2) (by omega)
  simp only [List.length_append, b3.2] at h
  obtain ⟨b4, l4, rfl⟩ := exists_append_of_le (n := 4) (l := l3) (by omega)
  obtain ⟨g, h1⟩ := List.length_eq_one_iff.mp b1.2
  obtain ⟨v, h2⟩ := List.length_eq_one_iff.mp b2.2
  obtain ⟨n, h4⟩ := exists_u32 b4
  exact ⟨g, v, b3, n, l4, by rw [h1, h2, h4]⟩

theorem openBlock_cases (batch : DataStreamBatch) :
    openBlock batch = throw .invalidData ∨ ∃ latestBlock, openBlock batch = pure latestBlock := by
  unfold openBlock
  split
  · exact Or.inl rfl
  · next latestBlock _ =>
    split_ifs
    all_goals first
      | exact Or.inl rfl
      | exact Or.inr ⟨latestBlock, rfl⟩

section Reading

variable {s rest : List UInt8} {p : ℕ}

/-- A transaction that is not there is an error. -/
theorem l2Tx_of_short {g v : UInt8} {stateRoot : Bytes 32} {encodedTxLength : UInt32}
    {dataLength : ℕ} (batch : DataStreamBatch)
    (h : s.drop p = [g] ++ ([v] ++ (stateRoot.1 ++ (bytes 4 encodedTxLength.toNat ++ rest))))
    (hshort : rest.length < encodedTxLength.toNat) (hlen : 38 ≤ dataLength) :
    l2Tx s p dataLength batch = throw .invalidData := by
  have h1 := drop_add (n := 1) rfl h
  have h2 := drop_add (n := 1) rfl h1
  have h3 := drop_add stateRoot.2 h2
  have h4 := drop_add (length_bytes _ _) h3
  have hle := add_le_of_drop (n := 4) (length_bytes _ _) (by decide) h3
  have hrest := congrArg List.length h4
  rw [List.length_drop] at hrest
  rw [l2Tx, if_neg (by omega)]
  obtain herror | ⟨latestBlock, hok⟩ := openBlock_cases batch
  · rw [herror]
    rfl
  · rw [hok, pure_bind]
    simp only [ParseU8_eq h, ParseU8_eq h1, parseHash_eq (by decide) h2, ParseBigEndianU32_eq h3,
      pure_bind]
    rw [if_pos (by omega)]

/-- The data of an entry is what it should be, or an error. -/
theorem parseData_cases (batch : DataStreamBatch) (packetType : UInt8) (entryType : UInt32)
    {dataLength : ℕ} (h : s.drop p = rest) (hroom : dataLength ≤ rest.length) :
    parseData s packetType entryType p dataLength batch = throw .invalidData ∨
      ∃ (data : EntryData) (after : List UInt8), data.packetType = packetType ∧
        data.entryType = entryType ∧ rest = data.encode ++ after ∧ data.Declares dataLength := by
  unfold parseData
  by_cases hpadding : packetType = 0
  · obtain ⟨ba, after, rfl⟩ := exists_append_of_le hroom
    exact Or.inr ⟨.padding entryType ba.1, after, hpadding.symm, rfl, rfl, ba.2.symm⟩
  rw [if_neg hpadding]
  by_cases hpacket : packetType ≠ 2
  · exact Or.inl (if_pos hpacket)
  rw [if_neg hpacket]
  have hdata : 2 = packetType := (not_not.mp hpacket).symm
  by_cases hbookmark : entryType = 0xb0
  · obtain ⟨ba, after, rfl⟩ := exists_append_of_le hroom
    exact Or.inr ⟨.bookmark ba.1, after, hdata, hbookmark.symm, rfl, ba.2.symm⟩
  rw [if_neg hbookmark]
  by_cases hstart : entryType = 1
  · rw [if_pos hstart]
    by_cases hlen : dataLength ≠ 122
    · exact Or.inl (if_pos hlen)
    · rw [not_not] at hlen
      obtain ⟨b, after, rfl⟩ := exists_start (hlen ▸ hroom)
      exact Or.inr ⟨.start b, after, hdata, hstart.symm, rfl, hlen.trans b.length_encode.symm⟩
  rw [if_neg hstart]
  by_cases htx : entryType = 2
  · rw [if_pos htx]
    by_cases hlen : dataLength < 38
    · exact Or.inl (if_pos hlen)
    · obtain ⟨g, v, stateRoot, n, after, hrest⟩ := exists_txFields (l := rest) (by omega)
      by_cases hshort : after.length < n.toNat
      · exact Or.inl (l2Tx_of_short batch (h.trans hrest) hshort (Nat.not_lt.mp hlen))
      · obtain ⟨encodedTx, after, rfl⟩ := exists_append_of_le (Nat.not_lt.mp hshort)
        refine Or.inr ⟨.tx ⟨g, v, stateRoot, encodedTx.1, ?_⟩, after, hdata, htx.symm, ?_,
          Nat.not_lt.mp hlen⟩
        · rw [encodedTx.2]
          exact n.toNat_lt
        · rw [hrest]
          simp only [EntryData.encode, L2TxData.encode, encodedTx.2, List.append_assoc]
  rw [if_neg htx]
  by_cases hstop : entryType = 3
  · rw [if_pos hstop]
    by_cases hlen : dataLength ≠ 72
    · exact Or.inl (if_pos hlen)
    · rw [not_not] at hlen
      obtain ⟨b, after, rfl⟩ := exists_stop (hlen ▸ hroom)
      exact Or.inr ⟨.stop b, after, hdata, hstop.symm, rfl, hlen.trans b.length_encode.symm⟩
  exact Or.inl (if_neg hstop)

/-- A round reads an entry or returns an error. -/
theorem parseEntry_cases (batch : DataStreamBatch) (hp : p < s.length) :
    parseEntry s p batch = throw .invalidData ∨
      ∃ (e : FileEntry) (dataLength : ℕ) (after : List UInt8),
        s.drop p = e.encodeWith dataLength ++ after ∧ e.data.Declares dataLength ∧
        dataLength ≤ e.data.encode.length + after.length ∧ 17 + dataLength < 2 ^ 32 := by
  obtain ⟨b, l1, h⟩ := exists_append_of_le (n := 1) (l := s.drop p) (by
    rw [List.length_drop]
    omega)
  obtain ⟨packetType, hb⟩ := List.length_eq_one_iff.mp b.2
  rw [hb] at h
  have h1 := drop_add (n := 1) rfl h
  have hlen1 := congrArg List.length h1
  rw [List.length_drop] at hlen1
  rw [parseEntry, ParseU8_eq h, pure_bind]
  simp only
  by_cases hshort1 : p + 1 + 4 > s.length
  · exact Or.inl (if_pos hshort1)
  obtain ⟨b1, l2, rfl⟩ := exists_append_of_le (n := 4) (l := l1) (by omega)
  obtain ⟨length, hlength⟩ := exists_u32 b1
  rw [hlength] at h h1
  have h2 := drop_add (length_bytes _ _) h1
  rw [if_neg hshort1, ParseBigEndianU32_eq h1, pure_bind]
  simp only
  by_cases hmin : length < 17
  · exact Or.inl (if_pos hmin)
  rw [if_neg hmin]
  by_cases hshort2 : p + 1 + 4 + 4 > s.length
  · exact Or.inl (if_pos hshort2)
  have hlen2 := congrArg List.length h2
  rw [List.length_drop] at hlen2
  obtain ⟨b2, l3, rfl⟩ := exists_append_of_le (n := 4) (l := l2) (by omega)
  obtain ⟨entryType, htype⟩ := exists_u32 b2
  rw [htype] at h h1 h2
  have h3 := drop_add (length_bytes _ _) h2
  rw [if_neg hshort2, ParseBigEndianU32_eq h2, pure_bind]
  simp only
  by_cases hshort3 : p + 1 + 4 + 4 + 8 > s.length
  · exact Or.inl (if_pos hshort3)
  have hlen3 := congrArg List.length h3
  rw [List.length_drop] at hlen3
  obtain ⟨b3, l4, rfl⟩ := exists_append_of_le (n := 8) (l := l3) (by omega)
  obtain ⟨number, hnumber⟩ := exists_u64 b3
  rw [hnumber] at h h1 h2 h3
  have h4 := drop_add (length_bytes _ _) h3
  rw [if_neg hshort3]
  by_cases hshort4 : p + 1 + 4 + 4 + 8 + (length.toNat - 17) > s.length
  · exact Or.inl (if_pos hshort4)
  have hlen4 := congrArg List.length h4
  rw [List.length_drop] at hlen4
  rw [if_neg hshort4]
  have hdeclared : length.toNat = 17 + (length.toNat - 17) := by
    have hle : 17 ≤ length.toNat := Nat.not_lt.mp fun hlt => hmin (UInt32.lt_iff_toNat_lt.mpr hlt)
    omega
  obtain herror | ⟨data, after, hpacket, hkind, rfl, hdeclares⟩ :=
    @parseData_cases s _ _ batch packetType entryType (length.toNat - 17) h4 (by omega)
  · exact Or.inl herror
  · refine Or.inr ⟨⟨number, data⟩, length.toNat - 17, after, ?_, hdeclares, ?_, ?_⟩
    · rw [h, FileEntry.encodeWith, ← hdeclared, hpacket, hkind]
      simp only [List.append_assoc]
    · rw [List.length_append] at hlen4
      change length.toNat - 17 ≤ data.encode.length + after.length
      omega
    · rw [← hdeclared]
      exact length.toNat_lt

end Reading

/-! ## Accepted streams -/

theorem addBlock_cases (batch : DataStreamBatch) (batchNumber : UInt64) (block : DataStreamBlock) :
    addBlock batch batchNumber block = throw .invalidData ∨
      ∃ batch', addBlock batch batchNumber block = pure batch' := by
  unfold addBlock
  split
  · exact Or.inr ⟨_, rfl⟩
  · split_ifs
    all_goals first
      | exact Or.inl rfl
      | exact Or.inr ⟨_, rfl⟩

theorem apply_cases (data : EntryData) (batch : DataStreamBatch) :
    data.apply batch = throw .invalidData ∨ ∃ batch', data.apply batch = pure batch' := by
  cases data with
  | padding entryType data => exact Or.inr ⟨batch, rfl⟩
  | bookmark data => exact Or.inr ⟨batch, rfl⟩
  | start b =>
    rw [EntryData.apply, applyStart]
    split_ifs
    · exact Or.inl rfl
    · exact Or.inl rfl
    · exact Or.inl rfl
    · exact addBlock_cases _ _ _
  | tx t =>
    rw [EntryData.apply, applyTx]
    obtain herror | ⟨latestBlock, hok⟩ := openBlock_cases batch
    · rw [herror]
      exact Or.inl rfl
    · rw [hok, pure_bind]
      exact Or.inr ⟨_, rfl⟩
  | stop b =>
    rw [EntryData.apply, applyEnd]
    obtain herror | ⟨latestBlock, hok⟩ := openBlock_cases batch
    · rw [herror]
      exact Or.inl rfl
    · rw [hok, pure_bind]
      split_ifs
      · exact Or.inl rfl
      · exact Or.inr ⟨_, rfl⟩

theorem finalCheck_cases (batch : DataStreamBatch) :
    finalCheck batch = throw .invalidData ∨ finalCheck batch = pure batch := by
  unfold finalCheck
  split
  · exact Or.inr rfl
  · split_ifs
    all_goals first
      | exact Or.inl rfl
      | exact Or.inr rfl

/-- Every stream is read to its end or to an error: what is accepted is spelled out by entries that the
batch takes. -/
theorem parseEntries_cases (s : List UInt8) (p : ℕ) (hp : p ≤ s.length) (batch : DataStreamBatch) :
    ∃ rounds, parseEntries s rounds p batch = some (throw .invalidData) ∨
      ∃ entries batch', Spells (s.drop p) entries ∧
        applyAll (entries.map fun e => e.1.data) batch >>= finalCheck = pure batch' ∧
        parseEntries s rounds p batch = some (pure batch') := by
  induction hn : s.length - p using Nat.strong_induction_on generalizing p batch with
  | h n ih =>
    by_cases hlt : p < s.length
    · obtain herror | ⟨e, dataLength, after, h, hdeclares, hroom, hlen⟩ := parseEntry_cases batch hlt
      · refine ⟨1, Or.inl ?_⟩
        rw [parseEntries, if_pos hlt, herror]
        rfl
      · have hround := parseEntry_eq batch h hdeclares hroom hlen
        obtain herror | ⟨batch', hok⟩ := apply_cases e.data batch
        · refine ⟨1, Or.inl ?_⟩
          rw [parseEntries, if_pos hlt, hround, herror]
          rfl
        · have hpos : 0 < (e.encodeWith dataLength).length := by
            rw [FileEntry.length_encodeWith]
            omega
          have hle := add_le_of_drop rfl hpos h
          rw [hok, map_pure] at hround
          have hrun (rounds : ℕ) : parseEntries s (rounds + 1) p batch =
              parseEntries s rounds (p + (e.encodeWith dataLength).length) batch' := by
            rw [parseEntries, if_pos hlt, hround]
            rfl
          obtain ⟨rounds, hnext⟩ := ih (s.length - (p + (e.encodeWith dataLength).length)) (by omega)
            (p + (e.encodeWith dataLength).length) hle batch' rfl
          refine ⟨rounds + 1, ?_⟩
          rw [hrun]
          obtain herror | ⟨entries, batch'', hspells, happly, hpure⟩ := hnext
          · exact Or.inl herror
          · refine Or.inr ⟨(e, dataLength) :: entries, batch'', ?_, ?_, hpure⟩
            · rw [h]
              rw [drop_add rfl h] at hspells
              exact .cons hdeclares hroom hlen hspells
            · rw [List.map_cons, applyAll_cons, hok, pure_bind, happly]
    · have hnil : s.drop p = [] := List.drop_eq_nil_of_le (Nat.not_lt.mp hlt)
      refine ⟨1, ?_⟩
      rw [parseEntries, if_neg hlt]
      obtain herror | hok := finalCheck_cases batch
      · exact Or.inl (congrArg some herror)
      · refine Or.inr ⟨[], batch, ?_, ?_, congrArg some hok⟩
        · rw [hnil]
          exact .nil
        · rw [List.map_nil, applyAll_nil, pure_bind, hok]

/-! ## The entries so far -/

/-- The batch of the entries so far, with the block that is open. -/
def progress (batch : L2Batch) : Option (L2BlockStart × List L2TxData) → List EntryData
  | none => batch.entries
  | some (b, txs) => batch.entries ++ .start b :: txs.map .tx

/-- The decoder's batch has the numbers of a batch, as far as it sees them. -/
structure SameHeader (batch : L2Batch) (state : DataStreamBatch) : Prop where
  batchNumber_eq : state.batchNumber = lowHalf batch.batchNumber
  forkId_eq : state.forkId = batch.forkId
  chainId_eq : state.chainId = batch.chainId

/-- What the decoder's batch says of the entries so far. -/
inductive Tracks (batchHigh blockHigh : ℕ) :
    L2Batch → Option (L2BlockStart × List L2TxData) → DataStreamBatch → Prop
  | empty {batch : L2Batch} : batch.blocks = [] → Tracks batchHigh blockHigh batch none .empty
  | closed {batch : L2Batch} {b : L2Block} {state : DataStreamBatch} {latest : DataStreamBlock} :
      batch.blocks.getLast? = some b → SameHeader batch state →
      highHalf batch.batchNumber = batchHigh → highHalf b.blockNumber = blockHigh →
      state.blocks.getLast? = some latest → latest.blockNumber = lowHalf b.blockNumber →
      latest.l2BlockHash ≠ [] → Tracks batchHigh blockHigh batch none state
  | opened {batch : L2Batch} {b : L2BlockStart} {txs : List L2TxData} {state : DataStreamBatch}
      {latest : DataStreamBlock} :
      SameHeader batch state → highHalf batch.batchNumber = batchHigh →
      highHalf b.blockNumber = blockHigh → b.batchNumber = batch.batchNumber →
      b.forkId = batch.forkId → b.chainId = batch.chainId →
      (∀ b' ∈ batch.blocks.getLast?, b.blockNumber.toNat = b'.blockNumber.toNat + 1) →
      state.blocks.getLast? = some latest → latest.blockNumber = lowHalf b.blockNumber →
      latest.l2BlockHash = [] → Tracks batchHigh blockHigh batch (some (b, txs)) state

section Steps

variable {batchHigh blockHigh : ℕ} {batch : L2Batch} {state state' : DataStreamBatch}

/-- What an open block is. -/
theorem openBlock_eq_pure {latestBlock : DataStreamBlock} (h : openBlock state = pure latestBlock) :
    state.blocks.getLast? = some latestBlock ∧ latestBlock.l2BlockHash = [] := by
  unfold openBlock at h
  split at h
  · exact absurd h (throw_ne_pure _)
  · next latest hlast =>
    split_ifs at h with hbatch hfork hhash hroot
    all_goals first
      | exact absurd h (throw_ne_pure _)
      | skip
    injection h with hsome
    injection hsome with heq
    subst heq
    exact ⟨hlast, by simpa using hhash⟩

theorem getLast?_setLatest (state : DataStreamBatch) (block : DataStreamBlock) :
    (state.setLatest block).blocks.getLast? = some block := by
  rw [DataStreamBatch.setLatest]
  exact List.getLast?_concat

/-- No block is open after an end. -/
theorem Tracks.openBlock_ne (h : Tracks batchHigh blockHigh batch none state)
    (latestBlock : DataStreamBlock) : openBlock state ≠ pure latestBlock := by
  intro hopen
  obtain ⟨hlast, hhash⟩ := openBlock_eq_pure hopen
  cases h with
  | empty => cases hlast
  | closed _ _ _ _ hlatest _ hne =>
    rw [hlatest] at hlast
    exact hne (Option.some.inj hlast ▸ hhash)

/-- The open block is the one of the entries so far. -/
theorem Tracks.openBlock_eq {b : L2BlockStart} {txs : List L2TxData} {latestBlock : DataStreamBlock}
    (h : Tracks batchHigh blockHigh batch (some (b, txs)) state)
    (hopen : openBlock state = pure latestBlock) :
    latestBlock.blockNumber = lowHalf b.blockNumber ∧ latestBlock.l2BlockHash = [] := by
  obtain ⟨hlast, hhash⟩ := openBlock_eq_pure hopen
  refine ⟨?_, hhash⟩
  cases h with
  | opened _ _ _ _ _ _ _ hlatest hnumber _ =>
    rw [hlatest] at hlast
    exact Option.some.inj hlast ▸ hnumber

theorem Tracks.tx {b : L2BlockStart} {txs : List L2TxData} {t : L2TxData}
    (h : Tracks batchHigh blockHigh batch (some (b, txs)) state)
    (happly : applyTx t state = pure state') :
    Tracks batchHigh blockHigh batch (some (b, txs ++ [t])) state' := by
  obtain ⟨latestBlock, hopen, hset⟩ := bind_eq_pure happly
  obtain ⟨hnumber, hhash⟩ := h.openBlock_eq hopen
  obtain rfl := pure_injective hset
  cases h with
  | opened hheader hhigh hblock hbatch hfork hchain hnext _ _ _ =>
    exact .opened ⟨hheader.batchNumber_eq, hheader.forkId_eq, hheader.chainId_eq⟩ hhigh hblock hbatch
      hfork hchain hnext (getLast?_setLatest _ _) hnumber hhash

/-- The block that an end completes. -/
def L2BlockStart.complete (b : L2BlockStart) (txs : List L2TxData) (e : L2BlockEnd) : L2Block where
  blockNumber := b.blockNumber
  timestamp := b.timestamp
  deltaTimestamp := b.deltaTimestamp
  l1InfoTreeIndex := b.l1InfoTreeIndex
  l1BlockHash := b.l1BlockHash
  globalExitRoot := b.globalExitRoot
  coinbase := b.coinbase
  l2BlockHash := e.l2BlockHash
  stateRoot := e.stateRoot
  txs := txs

/-- The consecutive blocks of a batch. -/
def L2Batch.Consecutive (batch : L2Batch) : Prop :=
  batch.blocks.IsChain fun b b' => b'.blockNumber.toNat = b.blockNumber.toNat + 1

theorem eq_of_halves {m n : UInt64} (hlow : lowHalf m = lowHalf n) (hhigh : highHalf m = highHalf n) :
    m = n := by
  apply UInt64.toNat_inj.mp
  have hlow' := congrArg UInt64.toNat hlow
  rw [toNat_lowHalf, toNat_lowHalf] at hlow'
  rw [highHalf, highHalf] at hhigh
  omega

theorem blockEntries_complete {b : L2BlockStart} (txs : List L2TxData) {e : L2BlockEnd}
    (hbatch : b.batchNumber = batch.batchNumber) (hfork : b.forkId = batch.forkId)
    (hchain : b.chainId = batch.chainId) (hnumber : b.blockNumber = e.blockNumber) :
    batch.blockEntries (b.complete txs e) = .start b :: (txs.map .tx ++ [.stop e]) := by
  cases b
  cases e
  simp only at hbatch hfork hchain hnumber
  subst hbatch hfork hchain hnumber
  rfl

theorem Tracks.stop {b : L2BlockStart} {txs : List L2TxData} {e : L2BlockEnd}
    (h : Tracks batchHigh blockHigh batch (some (b, txs)) state) (hconsecutive : batch.Consecutive)
    (hhigh : highHalf e.blockNumber = blockHigh) (happly : applyEnd e state = pure state') :
    ∃ batch' : L2Batch, batch'.entries = progress batch (some (b, txs)) ++ [.stop e] ∧
      batch'.Consecutive ∧ Tracks batchHigh blockHigh batch' none state' := by
  obtain ⟨latestBlock, hopen, hset⟩ := bind_eq_pure happly
  obtain ⟨hnumber, -⟩ := h.openBlock_eq hopen
  split_ifs at hset with hne
  · exact absurd hset (throw_ne_pure _)
  obtain rfl := pure_injective hset
  cases h with
  | opened hheader hbatchHigh hblock hbatch hfork hchain hnext _ _ _ =>
    have hsame : b.blockNumber = e.blockNumber := by
      apply eq_of_halves
      · rw [← hnumber, not_not.mp hne]
      · rw [hblock, hhigh]
    refine ⟨{ batch with blocks := batch.blocks ++ [b.complete txs e] }, ?_, ?_, ?_⟩
    · change (batch.blocks ++ [b.complete txs e]).flatMap batch.blockEntries = _
      rw [List.flatMap_append, List.flatMap_singleton,
        blockEntries_complete txs hbatch hfork hchain hsame, progress, List.append_assoc]
      rfl
    · refine List.IsChain.append hconsecutive (.singleton _) ?_
      intro b' hb' c hc
      obtain rfl : b.complete txs e = c := by simpa using hc
      exact hnext b' hb'
    · refine .closed (b := b.complete txs e) (by simp)
        ⟨hheader.batchNumber_eq, hheader.forkId_eq, hheader.chainId_eq⟩ hbatchHigh hblock
        (getLast?_setLatest _ _) hnumber ?_
      have hne := ba2string_isEmpty (by decide) e.l2BlockHash
      exact List.isEmpty_eq_false_iff.mp hne

theorem addBlock_eq_pure {batchNumber : UInt64} {block : DataStreamBlock}
    (h : addBlock state batchNumber block = pure state') :
    (state.blocks = [] ∧ state'.batchNumber = batchNumber ∧ state'.forkId = block.forkId.toUInt16 ∧
        state'.chainId = block.chainId ∨
      ∃ latest, state.blocks.getLast? = some latest ∧ state.batchNumber = batchNumber ∧
        block.forkId = state.forkId.toUInt64 ∧ block.chainId = state.chainId ∧
        block.blockNumber = latest.blockNumber + 1 ∧ state'.batchNumber = state.batchNumber ∧
        state'.forkId = state.forkId ∧ state'.chainId = state.chainId) ∧
      state'.blocks.getLast? = some block := by
  unfold addBlock at h
  split at h
  · next hnil =>
    obtain rfl := pure_injective h
    exact ⟨Or.inl ⟨List.getLast?_eq_none_iff.mp hnil, rfl, rfl, rfl⟩, List.getLast?_concat⟩
  · next latest hlatest =>
    split_ifs at h with hbatch hfork hchain hnumber
    all_goals first
      | exact absurd h (throw_ne_pure _)
      | skip
    obtain rfl := pure_injective h
    exact ⟨Or.inr ⟨latest, hlatest, not_not.mp hbatch, not_not.mp hfork, not_not.mp hchain,
      not_not.mp hnumber, rfl, rfl, rfl⟩, List.getLast?_concat⟩

theorem toUInt64_injective {m n : UInt16} (h : m.toUInt64 = n.toUInt64) : m = n := by
  apply UInt16.toNat_inj.mp
  simpa using congrArg UInt64.toNat h

/-- A block that follows another one in the lower halves follows it. -/
theorem next_of_halves {m n : UInt64} (hlow : lowHalf m = lowHalf n + 1)
    (hhigh : highHalf m = highHalf n) : m.toNat = n.toNat + 1 := by
  have hlow' := congrArg UInt64.toNat hlow
  rw [UInt64.toNat_add, toNat_lowHalf, toNat_lowHalf] at hlow'
  have hone : (1 : UInt64).toNat = 1 := rfl
  rw [hone] at hlow'
  rw [highHalf, highHalf] at hhigh
  omega

theorem Tracks.start {b : L2BlockStart} (h : Tracks batchHigh blockHigh batch none state)
    (hconsecutive : batch.Consecutive) (hbatchHigh : highHalf b.batchNumber = batchHigh)
    (hblockHigh : highHalf b.blockNumber = blockHigh) (happly : applyStart b state = pure state') :
    ∃ batch' : L2Batch, batch'.entries = batch.entries ∧ batch'.Consecutive ∧
      Tracks batchHigh blockHigh batch' (some (b, [])) state' := by
  unfold applyStart at happly
  split_ifs at happly with hbatch hblock hfork
  all_goals first
    | exact absurd happly (throw_ne_pure _)
    | skip
  obtain ⟨hadd, hlast⟩ := addBlock_eq_pure happly
  cases h with
  | empty hnil =>
    obtain ⟨-, hn, hf, hc⟩ | ⟨_, hlatest, -⟩ := hadd
    · refine ⟨⟨b.batchNumber, b.forkId, b.chainId, []⟩, ?_, .nil, ?_⟩
      · rw [L2Batch.entries, L2Batch.entries, hnil]
        rfl
      · have hfork16 : b.block.forkId.toUInt16 = b.forkId := by simp [L2BlockStart.block]
        refine .opened ⟨hn, hf.trans hfork16, hc⟩ hbatchHigh hblockHigh rfl rfl rfl ?_ hlast rfl rfl
        intro last' hlast'
        cases hlast'
    · cases hlatest
  | closed hblocks hheader hhigh hlastHigh hlatest hnumber hclosed =>
    rename_i last latest
    obtain ⟨hnil, -⟩ | ⟨latest', hlatest', hn, hf, hc, hnext, hn', hf', hc'⟩ := hadd
    · rw [hnil] at hlatest
      cases hlatest
    · rw [hlatest] at hlatest'
      obtain rfl : latest = latest' := Option.some.inj hlatest'
      refine ⟨batch, rfl, hconsecutive, .opened
        ⟨hn'.trans hheader.batchNumber_eq, hf'.trans hheader.forkId_eq, hc'.trans hheader.chainId_eq⟩
        hhigh hblockHigh ?_ ?_ ?_ ?_ hlast rfl rfl⟩
      · apply eq_of_halves
        · rw [← hn, hheader.batchNumber_eq]
        · rw [hbatchHigh, hhigh]
      · rw [hheader.forkId_eq] at hf
        exact toUInt64_injective hf
      · rw [← hheader.chainId_eq]
        exact hc
      · intro last' hlast'
        rw [hblocks] at hlast'
        obtain rfl : last = last' := Option.some.inj hlast'
        apply next_of_halves
        · rw [← hnumber]
          exact hnext
        · rw [hblockHigh, hlastHigh]

/-- The entries that a batch takes to its end, where no block is started while another one is open. -/
theorem Tracks.run {cur : Option (L2BlockStart × List L2TxData)} (datas : List EntryData)
    (h : Tracks batchHigh blockHigh batch cur state) (hconsecutive : batch.Consecutive)
    (hreopen : NoReopen cur.isSome datas) (hhalves : SameHighHalves batchHigh blockHigh datas)
    (happly : applyAll datas state >>= finalCheck = pure state') :
    ∃ batch' : L2Batch, batch'.entries =
      progress batch cur ++ datas.filter (fun data => !data.isSkipped) ∧ batch'.Consecutive := by
  induction datas generalizing batch cur state with
  | nil =>
    rw [applyAll_nil, pure_bind] at happly
    cases cur with
    | none => exact ⟨batch, by simp [progress], hconsecutive⟩
    | some cur =>
      exfalso
      cases h with
      | opened _ _ _ _ _ _ _ hlatest _ hhash =>
        rw [finalCheck, hlatest] at happly
        simp only [hhash, List.isEmpty_nil, if_true] at happly
        split_ifs at happly
        all_goals exact throw_ne_pure _ happly
  | cons data datas ih =>
    rw [applyAll_cons, bind_assoc] at happly
    obtain ⟨next, hnext, hrest⟩ := bind_eq_pure happly
    have hhalves' : SameHighHalves batchHigh blockHigh datas :=
      ⟨fun b hb => hhalves.1 b (List.mem_cons_of_mem _ hb),
        fun b hb => hhalves.2 b (List.mem_cons_of_mem _ hb)⟩
    cases data with
    | padding entryType data =>
      obtain rfl := pure_injective hnext
      rw [List.filter_cons_of_neg (by simp [EntryData.isSkipped])]
      exact ih h hconsecutive hreopen hhalves' hrest
    | bookmark data =>
      obtain rfl := pure_injective hnext
      rw [List.filter_cons_of_neg (by simp [EntryData.isSkipped])]
      exact ih h hconsecutive hreopen hhalves' hrest
    | start b =>
      rw [List.filter_cons_of_pos (by simp [EntryData.isSkipped])]
      obtain ⟨hopen, hreopen⟩ := hreopen
      obtain rfl : cur = none := by simpa using hopen
      obtain ⟨hbatchHigh, hblockHigh⟩ := hhalves.1 b List.mem_cons_self
      obtain ⟨batch', hentries, hconsecutive', h'⟩ := h.start hconsecutive hbatchHigh hblockHigh hnext
      obtain ⟨batch'', hentries', hconsecutive''⟩ := ih h' hconsecutive' hreopen hhalves' hrest
      refine ⟨batch'', ?_, hconsecutive''⟩
      rw [hentries', progress, progress, hentries]
      simp
    | tx t =>
      rw [List.filter_cons_of_pos (by simp [EntryData.isSkipped])]
      cases cur with
      | none =>
        obtain ⟨_, hopen, -⟩ := bind_eq_pure hnext
        exact absurd hopen (h.openBlock_ne _)
      | some cur =>
        obtain ⟨b, txs⟩ := cur
        obtain ⟨batch', hentries, hconsecutive'⟩ := ih (h.tx hnext) hconsecutive hreopen hhalves' hrest
        refine ⟨batch', ?_, hconsecutive'⟩
        rw [hentries, progress, progress]
        simp
    | stop e =>
      rw [List.filter_cons_of_pos (by simp [EntryData.isSkipped])]
      cases cur with
      | none =>
        obtain ⟨_, hopen, -⟩ := bind_eq_pure hnext
        exact absurd hopen (h.openBlock_ne _)
      | some cur =>
        obtain ⟨b, txs⟩ := cur
        obtain ⟨batch', hentries, hconsecutive', h'⟩ :=
          h.stop hconsecutive (hhalves.2 e List.mem_cons_self) hnext
        obtain ⟨batch'', hentries', hconsecutive''⟩ := ih h' hconsecutive' hreopen hhalves' hrest
        refine ⟨batch'', ?_, hconsecutive''⟩
        rw [hentries', progress, hentries]
        simp

end Steps

/-! ## Streams that are well formed -/

theorem spells_tight {s : List UInt8} {entries : List (FileEntry × ℕ)} (h : Spells s entries)
    (hexact : ∀ e ∈ entries, e.2 = e.1.data.encode.length) :
    s = (entries.map Prod.fst).flatMap FileEntry.encode ∧
      ∀ e ∈ entries.map Prod.fst, 17 + e.data.encode.length < 2 ^ 32 := by
  induction h with
  | nil => exact ⟨rfl, nofun⟩
  | @cons e dataLength rest entries _ _ hlen _ ih =>
    obtain ⟨hrest, hlens⟩ := ih fun e he => hexact e (List.mem_cons_of_mem _ he)
    obtain rfl : dataLength = e.data.encode.length := hexact _ List.mem_cons_self
    refine ⟨?_, ?_⟩
    · rw [List.map_cons, List.flatMap_cons, ← hrest]
      rfl
    · rw [List.map_cons]
      exact List.forall_mem_cons.mpr ⟨hlen, hlens⟩

/-- An accepted stream whose entries are tight is a stream of a batch. -/
theorem wellFormedStream_of_tight {s : List UInt8} {rounds : ℕ} {batch : DataStreamBatch}
    (haccepts : dataStream2batch rounds s = some (pure batch)) (h : Tight s) :
    WellFormedStream s := by
  obtain ⟨entries, batchHigh, blockHigh, hspells, hexact, hreopen, hhalves⟩ := h
  have hrun := parseEntries_spells hspells 0 .empty List.drop_zero (Nat.zero_le _)
  have happly := (parseEntries_unique haccepts hrun).symm
  have hempty : Tracks batchHigh blockHigh ⟨0, 0, 0, []⟩ none .empty := .empty rfl
  obtain ⟨batch', hentries, hconsecutive⟩ := hempty.run _ .nil hreopen hhalves happly
  obtain ⟨hencode, hlen⟩ := spells_tight hspells hexact
  refine ⟨batch', entries.map Prod.fst, ⟨?_, hlen⟩, hencode, hconsecutive⟩
  rw [hentries, List.map_map]
  rfl

/-- No block of a batch is started while another one is open. -/
theorem noReopen_entries (batch : L2Batch) (blocks : List L2Block) :
    NoReopen false (blocks.flatMap batch.blockEntries) := by
  induction blocks with
  | nil => trivial
  | cons b blocks ih =>
    rw [List.flatMap_cons, L2Batch.blockEntries]
    refine ⟨rfl, ?_⟩
    induction b.txs with
    | nil => exact ih
    | cons t txs ihtxs => exact ihtxs

theorem noReopen_filter {isOpen : Bool} (datas : List EntryData) :
    NoReopen isOpen (datas.filter fun data => !data.isSkipped) ↔ NoReopen isOpen datas := by
  induction datas generalizing isOpen with
  | nil => rfl
  | cons data datas ih =>
    cases data with
    | start b => exact and_congr_right fun _ => ih
    | _ => exact ih

/-- The lower half of a block number that is taken is not zero. -/
theorem lowHalf_ne_of_applyAll {datas : List EntryData} {state state' : DataStreamBatch}
    (h : applyAll datas state = pure state') {b : L2BlockStart} (hb : .start b ∈ datas) :
    lowHalf b.blockNumber ≠ 0 := by
  induction datas generalizing state with
  | nil => cases hb
  | cons data datas ih =>
    rw [applyAll_cons] at h
    obtain ⟨next, hnext, hrest⟩ := bind_eq_pure h
    obtain rfl | hmem := List.mem_cons.mp hb
    · intro hzero
      rw [EntryData.apply, applyStart, hzero] at hnext
      simp only [if_true] at hnext
      split_ifs at hnext
      all_goals exact throw_ne_pure _ hnext
    · exact ih hrest hmem

/-- A number that follows another one, and whose lower half is not zero, has the same upper half. -/
theorem highHalf_of_next {m n : UInt64} (hnext : m.toNat = n.toNat + 1) (hlow : lowHalf m ≠ 0) :
    highHalf m = highHalf n := by
  have hne : m.toNat % 2 ^ 32 ≠ 0 := by
    intro hzero
    apply hlow
    apply UInt64.toNat_inj.mp
    rw [toNat_lowHalf, hzero]
    rfl
  rw [highHalf, highHalf]
  omega

theorem highHalf_blocks {blocks : List L2Block}
    (hchain : blocks.IsChain fun b b' => b'.blockNumber.toNat = b.blockNumber.toNat + 1)
    (hlow : ∀ b ∈ blocks, lowHalf b.blockNumber ≠ 0) :
    ∃ blockHigh, ∀ b ∈ blocks, highHalf b.blockNumber = blockHigh := by
  induction blocks with
  | nil => exact ⟨0, nofun⟩
  | cons b blocks ih =>
    obtain ⟨blockHigh, hall⟩ := ih hchain.tail fun b hb => hlow b (List.mem_cons_of_mem _ hb)
    refine ⟨highHalf b.blockNumber, ?_⟩
    cases blocks with
    | nil => simp
    | cons b' blocks =>
      rw [List.isChain_cons_cons] at hchain
      have hfirst := highHalf_of_next hchain.1 (hlow b' (by simp))
      have hhigh := hall b' List.mem_cons_self
      intro c hc
      obtain rfl | hmem := List.mem_cons.mp hc
      · rfl
      · rw [hall c hmem, ← hhigh, hfirst]

theorem mem_entries_start {batch : L2Batch} {b : L2BlockStart} (h : .start b ∈ batch.entries) :
    ∃ block ∈ batch.blocks, b = batch.start block := by
  obtain ⟨block, hblock, hmem⟩ := List.mem_flatMap.mp h
  refine ⟨block, hblock, ?_⟩
  simpa [L2Batch.blockEntries] using hmem

theorem mem_entries_stop {batch : L2Batch} {e : L2BlockEnd} (h : .stop e ∈ batch.entries) :
    ∃ block ∈ batch.blocks, e.blockNumber = block.blockNumber := by
  obtain ⟨block, hblock, hmem⟩ := List.mem_flatMap.mp h
  have he : e = ⟨block.blockNumber, block.l2BlockHash, block.stateRoot⟩ := by
    simpa [L2Batch.blockEntries] using hmem
  exact ⟨block, hblock, by rw [he]⟩

/-- The entries of an accepted stream of a batch are tight. -/
theorem tight_of_wellFormedStream {s : List UInt8} {rounds : ℕ} {state : DataStreamBatch}
    (haccepts : dataStream2batch rounds s = some (pure state)) (h : WellFormedStream s) : Tight s := by
  obtain ⟨batch, entries, hstream, rfl, hchain⟩ := h
  have hrun := dataStream2batch_encode entries hstream.length_lt
  have happly := (parseEntries_unique haccepts hrun).symm
  obtain ⟨state', hall, -⟩ := bind_eq_pure happly
  rw [← applyAll_filter, hstream.entries_eq] at hall
  have hstart (block : L2Block) (hblock : block ∈ batch.blocks) :
      .start (batch.start block) ∈ batch.entries :=
    List.mem_flatMap.mpr ⟨block, hblock, List.mem_cons_self⟩
  obtain ⟨blockHigh, hhigh⟩ := highHalf_blocks hchain fun block hblock =>
    lowHalf_ne_of_applyAll hall (hstart block hblock)
  have hdatas : (entries.map fun e => (e, e.data.encode.length)).map (fun e => e.1.data) =
      entries.map FileEntry.data := by
    rw [List.map_map]
    rfl
  have hkept (data : EntryData) (hmem : data ∈ entries.map FileEntry.data)
      (hk : data.isSkipped = false) : data ∈ batch.entries := by
    rw [← hstream.entries_eq]
    exact List.mem_filter.mpr ⟨hmem, by simp [hk]⟩
  refine ⟨_, highHalf batch.batchNumber, blockHigh, spells_encode entries hstream.length_lt, ?_, ?_, ?_⟩
  · intro e he
    obtain ⟨e', -, rfl⟩ := List.mem_map.mp he
    rfl
  · rw [hdatas, ← noReopen_filter, hstream.entries_eq]
    exact noReopen_entries batch batch.blocks
  · rw [hdatas]
    constructor
    · intro b hb
      obtain ⟨block, hblock, rfl⟩ := mem_entries_start (hkept _ hb rfl)
      exact ⟨rfl, hhigh block hblock⟩
    · intro e he
      obtain ⟨block, hblock, heq⟩ := mem_entries_stop (hkept _ he rfl)
      rw [heq]
      exact hhigh block hblock

/-- Every stream is accepted or an error is returned, and no byte after the end is read; a stream that is
accepted is well formed exactly when its entries are tight. -/
theorem dataStream2batch_accepts (s : List UInt8) :
    (∃ rounds, dataStream2batch rounds s = some (throw .invalidData) ∨
      ∃ batch, dataStream2batch rounds s = some (pure batch)) ∧
    ∀ rounds batch, dataStream2batch rounds s = some (pure batch) →
      (WellFormedStream s ↔ Tight s) := by
  refine ⟨?_, fun rounds batch h =>
    ⟨tight_of_wellFormedStream h, wellFormedStream_of_tight h⟩⟩
  obtain ⟨rounds, herror | ⟨_, batch, -, -, hok⟩⟩ :=
    parseEntries_cases s 0 (Nat.zero_le _) .empty
  · exact ⟨rounds, Or.inl herror⟩
  · exact ⟨rounds, Or.inr ⟨batch, hok⟩⟩

theorem dataStream2batch_accepts_sample :
    ∃ batch, dataStream2batch 4 ((sampleEntries 1).flatMap FileEntry.encode) = some (pure batch) ∧
      (WellFormedStream ((sampleEntries 1).flatMap FileEntry.encode) ↔
        Tight ((sampleEntries 1).flatMap FileEntry.encode)) := by
  have hrun := dataStream2batch_encode (sampleEntries 1) (sampleEntries_streamOf 1).length_lt
  exact ⟨_, hrun, (dataStream2batch_accepts _).2 _ _ hrun⟩

/-! ## Streams that are not -/

section Closed

variable {state state' : DataStreamBatch}

theorem blocks_of_applyStart {b : L2BlockStart} (h : applyStart b state = pure state') :
    state'.blocks = state.blocks ++ [b.block] := by
  unfold applyStart at h
  split_ifs at h
  all_goals first
    | exact absurd h (throw_ne_pure _)
    | skip
  unfold addBlock at h
  split at h
  · obtain rfl := pure_injective h
    rfl
  · split_ifs at h
    all_goals first
      | exact absurd h (throw_ne_pure _)
      | skip
    obtain rfl := pure_injective h
    rfl

theorem blocks_of_applyAll_txs {txs : List L2TxData} {blocks : List DataStreamBlock}
    {latest : DataStreamBlock} (hstate : state.blocks = blocks ++ [latest])
    (h : applyAll (txs.map .tx) state = pure state') : ∃ latest', state'.blocks = blocks ++ [latest'] := by
  induction txs generalizing state latest with
  | nil =>
    obtain rfl := pure_injective h
    exact ⟨latest, hstate⟩
  | cons t txs ih =>
    rw [List.map_cons, applyAll_cons] at h
    obtain ⟨next, hnext, hrest⟩ := bind_eq_pure h
    obtain ⟨block, -, hset⟩ := bind_eq_pure hnext
    obtain rfl := pure_injective hset
    have hnext (filled : DataStreamBlock) : (state.setLatest filled).blocks = blocks ++ [filled] := by
      rw [DataStreamBatch.setLatest, hstate, List.dropLast_concat]
    exact ih (hnext _) hrest

/-- The entries of a block leave it closed. -/
theorem closed_of_applyAll_blockEntries {batch : L2Batch} {b : L2Block}
    (hclosed : ∀ block ∈ state.blocks, block.l2BlockHash ≠ [])
    (h : applyAll (batch.blockEntries b) state = pure state') :
    ∀ block ∈ state'.blocks, block.l2BlockHash ≠ [] := by
  rw [L2Batch.blockEntries, applyAll_cons] at h
  obtain ⟨started, hstart, h⟩ := bind_eq_pure h
  rw [applyAll_append] at h
  obtain ⟨filled, htxs, h⟩ := bind_eq_pure h
  obtain ⟨latest, hfilled⟩ := blocks_of_applyAll_txs (blocks_of_applyStart hstart) htxs
  rw [applyAll_cons] at h
  obtain ⟨ended, hstop, h⟩ := bind_eq_pure h
  obtain rfl := pure_injective h
  obtain ⟨open', -, hset⟩ := bind_eq_pure hstop
  split_ifs at hset
  · exact absurd hset (throw_ne_pure _)
  obtain rfl := pure_injective hset
  rw [DataStreamBatch.setLatest, hfilled, List.dropLast_concat]
  intro block hblock
  obtain hmem | hmem := List.mem_append.mp hblock
  · exact hclosed block hmem
  · rw [List.mem_singleton.mp hmem]
    exact List.isEmpty_eq_false_iff.mp (ba2string_isEmpty (by decide) b.l2BlockHash)

theorem closed_of_applyAll_blocks {batch : L2Batch} (blocks : List L2Block)
    (hclosed : ∀ block ∈ state.blocks, block.l2BlockHash ≠ [])
    (h : applyAll (blocks.flatMap batch.blockEntries) state = pure state') :
    ∀ block ∈ state'.blocks, block.l2BlockHash ≠ [] := by
  induction blocks generalizing state with
  | nil =>
    obtain rfl := pure_injective h
    exact hclosed
  | cons b blocks ih =>
    rw [List.flatMap_cons, applyAll_append] at h
    obtain ⟨next, hnext, hrest⟩ := bind_eq_pure h
    exact ih (closed_of_applyAll_blockEntries hclosed hnext) hrest

/-- The blocks of a well-formed stream are closed. -/
theorem closed_of_wellFormedStream {s : List UInt8} {rounds : ℕ}
    (haccepts : dataStream2batch rounds s = some (pure state)) (h : WellFormedStream s) :
    ∀ block ∈ state.blocks, block.l2BlockHash ≠ [] := by
  obtain ⟨batch, entries, hstream, rfl, -⟩ := h
  have hrun := dataStream2batch_encode entries hstream.length_lt
  have happly := (parseEntries_unique haccepts hrun).symm
  obtain ⟨final, hall, hcheck⟩ := bind_eq_pure happly
  rw [← applyAll_filter, hstream.entries_eq] at hall
  have hsame : final = state := by
    obtain herror | hok := finalCheck_cases final
    · rw [herror] at hcheck
      exact absurd hcheck (throw_ne_pure _)
    · rw [hok] at hcheck
      exact pure_injective hcheck
  rw [← hsame]
  exact closed_of_applyAll_blocks batch.blocks (by simp [DataStreamBatch.empty]) hall

end Closed

theorem length_hash : (List.replicate 32 (0 : UInt8)).length = 32 := rfl

/-- A block that is started and not ended, and the next one. -/
def reopeningEntries : List FileEntry :=
  let block (blockNumber : UInt64) : L2Block := { sampleBlock with blockNumber }
  [{ number := 0, data := .start ((sampleBatch 1).start (block 1)) },
    { number := 1, data := .start ((sampleBatch 1).start (block 2)) },
    { number := 2, data := .stop ⟨2, ⟨List.replicate 32 0, length_hash⟩, ⟨List.replicate 32 0, length_hash⟩⟩ }]

theorem applyAll_reopening :
    ∃ batch, (applyAll (reopeningEntries.map FileEntry.data) .empty >>= finalCheck) = pure batch ∧
      ∃ block ∈ batch.blocks, block.l2BlockHash = [] :=
  ⟨_, rfl, _, List.mem_cons_self, rfl⟩

/-- It is accepted. -/
theorem dataStream2batch_reopening :
    (∃ rounds batch, dataStream2batch rounds (reopeningEntries.flatMap FileEntry.encode) =
      some (pure batch)) ∧ ¬WellFormedStream (reopeningEntries.flatMap FileEntry.encode) := by
  have hlen : ∀ e ∈ reopeningEntries, 17 + e.data.encode.length < 2 ^ 32 := by
    simp [reopeningEntries, EntryData.encode]
  have hrun := dataStream2batch_encode reopeningEntries hlen
  obtain ⟨batch, happly, block, hblock, hopen⟩ := applyAll_reopening
  rw [happly] at hrun
  exact ⟨⟨_, _, hrun⟩, fun h => closed_of_wellFormedStream hrun h block hblock hopen⟩

end ZkevmProver
