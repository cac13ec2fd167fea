import Mathlib.Data.List.Chain
import ZkevmProver.Lib.Fallible
import ZkevmProver.Prover.DataStreamFormat

/-!
# Streams of a batch

A batch, written in the entry format with padding and bookmarks in between, is what the decoder returns.

1. Batches and their entries
2. Rounds over entries
3. The entries of a block
4. The entries of a batch
5. Batches that are rejected
-/

namespace ZkevmProver

open BigEndian

/-! ## Batches and their entries -/

structure L2Block where
  blockNumber : UInt64
  timestamp : UInt64
  deltaTimestamp : UInt32
  l1InfoTreeIndex : UInt32
  l1BlockHash : Bytes 32
  globalExitRoot : Bytes 32
  coinbase : Bytes 20
  l2BlockHash : Bytes 32
  stateRoot : Bytes 32
  txs : List L2TxData

structure L2Batch where
  batchNumber : UInt64
  forkId : UInt16
  chainId : UInt32
  blocks : List L2Block

namespace L2Batch

/-- The block as the decoder stores it, with its hashes in hexadecimal. -/
def block (batch : L2Batch) (b : L2Block) : DataStreamBlock where
  blockNumber := b.blockNumber
  timestamp := b.timestamp
  deltaTimestamp := b.deltaTimestamp
  l1InfoTreeIndex := b.l1InfoTreeIndex
  l1BlockHash := ba2string b.l1BlockHash.1
  globalExitRoot := ba2string b.globalExitRoot.1
  coinbase := ba2string b.coinbase.1
  forkId := batch.forkId.toUInt64
  l2BlockHash := ba2string b.l2BlockHash.1
  stateRoot := ba2string b.stateRoot.1
  chainId := batch.chainId
  txs := b.txs.map L2TxData.tx

def withBlocks (batch : L2Batch) (blocks : List DataStreamBlock) : DataStreamBatch where
  batchNumber := batch.batchNumber
  blocks := blocks
  forkId := batch.forkId
  chainId := batch.chainId

def toBatch (batch : L2Batch) : DataStreamBatch := batch.withBlocks (batch.blocks.map batch.block)

def start (batch : L2Batch) (b : L2Block) : L2BlockStart where
  batchNumber := batch.batchNumber
  blockNumber := b.blockNumber
  timestamp := b.timestamp
  deltaTimestamp := b.deltaTimestamp
  l1InfoTreeIndex := b.l1InfoTreeIndex
  l1BlockHash := b.l1BlockHash
  globalExitRoot := b.globalExitRoot
  coinbase := b.coinbase
  forkId := batch.forkId
  chainId := batch.chainId

/-- The start of a block, its transactions and its end. -/
def blockEntries (batch : L2Batch) (b : L2Block) : List EntryData :=
  .start (batch.start b) :: (b.txs.map .tx ++
    [.stop { blockNumber := b.blockNumber, l2BlockHash := b.l2BlockHash, stateRoot := b.stateRoot }])

def entries (batch : L2Batch) : List EntryData := batch.blocks.flatMap batch.blockEntries

end L2Batch

/-- Padding and bookmarks. -/
def EntryData.isSkipped : EntryData → Bool
  | padding _ _ => true
  | bookmark _ => true
  | _ => false

/-- A stream of the entries of a batch, with any padding and bookmarks in between, and with any entry
numbers.  The length of an entry fits its four bytes. -/
structure StreamOf (batch : L2Batch) (entries : List FileEntry) : Prop where
  entries_eq : (entries.map FileEntry.data).filter (fun data => !data.isSkipped) = batch.entries
  length_lt : ∀ e ∈ entries, 17 + e.data.encode.length < 2 ^ 32

/-- A batch that the checks let through and whose numbers fit a `uint32_t`: it has blocks, which are
consecutive, and the batch number, the block numbers and the fork id are not zero. -/
structure L2Batch.Regular (batch : L2Batch) : Prop where
  batchNumber_ne : batch.batchNumber ≠ 0
  batchNumber_lt : batch.batchNumber.toNat < 2 ^ 32
  forkId_ne : batch.forkId ≠ 0
  blocks_ne : batch.blocks ≠ []
  blockNumber_ne : ∀ b ∈ batch.blocks, b.blockNumber ≠ 0
  blockNumber_lt : ∀ b ∈ batch.blocks, b.blockNumber.toNat < 2 ^ 32
  timestamp_lt : ∀ b ∈ batch.blocks, b.timestamp.toNat < 2 ^ 32
  consecutive : batch.blocks.IsChain fun b b' => b'.blockNumber = b.blockNumber + 1

/-! ## Rounds over entries -/

/-- What entries do to a batch, one after the other. -/
def applyAll (datas : List EntryData) (batch : DataStreamBatch) : Parse DataStreamBatch :=
  datas.foldlM (fun batch data => data.apply batch) batch

@[simp] theorem applyAll_nil (batch : DataStreamBatch) : applyAll [] batch = pure batch := rfl

theorem applyAll_cons (data : EntryData) (datas : List EntryData) (batch : DataStreamBatch) :
    applyAll (data :: datas) batch = data.apply batch >>= applyAll datas := by
  rw [applyAll, List.foldlM_cons]
  rfl

theorem applyAll_append (xs ys : List EntryData) (batch : DataStreamBatch) :
    applyAll (xs ++ ys) batch = applyAll xs batch >>= applyAll ys := by
  rw [applyAll, List.foldlM_append]
  rfl

/-- Padding and bookmarks do nothing. -/
theorem applyAll_filter (datas : List EntryData) (batch : DataStreamBatch) :
    applyAll (datas.filter fun data => !data.isSkipped) batch = applyAll datas batch := by
  induction datas generalizing batch with
  | nil => rfl
  | cons data datas ih =>
    have hkept (hk : data.isSkipped = false) :
        applyAll ((data :: datas).filter fun data => !data.isSkipped) batch =
          applyAll (data :: datas) batch := by
      rw [List.filter_cons_of_pos (by simp [hk]), applyAll_cons, applyAll_cons]
      exact bind_congr ih
    cases data with
    | padding entryType data =>
      rw [List.filter_cons_of_neg (by simp [EntryData.isSkipped]), ih, applyAll_cons, EntryData.apply,
        pure_bind]
    | bookmark data =>
      rw [List.filter_cons_of_neg (by simp [EntryData.isSkipped]), ih, applyAll_cons, EntryData.apply,
        pure_bind]
    | _ => exact hkept rfl

theorem EntryData.declares_length (data : EntryData) : data.Declares data.encode.length := by
  cases data with
  | tx t =>
    rw [EntryData.encode, L2TxData.length_encode]
    exact Nat.le_add_right 38 _
  | _ => rfl

/-- Entries one after the other, each with the length that it declares, where a transaction takes the bytes
of its own length. -/
inductive Spells : List UInt8 → List (FileEntry × ℕ) → Prop
  | nil : Spells [] []
  | cons {e : FileEntry} {dataLength : ℕ} {rest : List UInt8} {entries : List (FileEntry × ℕ)} :
      e.data.Declares dataLength → dataLength ≤ e.data.encode.length + rest.length →
      17 + dataLength < 2 ^ 32 → Spells rest entries →
      Spells (e.encodeWith dataLength ++ rest) ((e, dataLength) :: entries)

/-- The rounds over what a stream spells. -/
theorem parseEntries_spells {s rest : List UInt8} {entries : List (FileEntry × ℕ)}
    (h : Spells rest entries) (p : ℕ) (batch : DataStreamBatch) (hdrop : s.drop p = rest)
    (hp : p ≤ s.length) :
    parseEntries s (entries.length + 1) p batch =
      some (applyAll (entries.map fun e => e.1.data) batch >>= finalCheck) := by
  induction h generalizing p batch with
  | nil =>
    have hend : ¬p < s.length := by simpa using hdrop
    rw [List.length_nil, parseEntries, if_neg hend, List.map_nil, applyAll_nil, pure_bind]
  | @cons e dataLength rest entries hdeclares hroom hlen _ ih =>
    have hpos : 0 < (e.encodeWith dataLength).length := by
      rw [FileEntry.length_encodeWith]
      omega
    have hle := add_le_of_drop rfl hpos hdrop
    rw [List.length_cons, parseEntries, if_pos (by omega),
      parseEntry_eq batch hdrop hdeclares hroom hlen, List.map_cons, applyAll_cons]
    have hnext (batch : DataStreamBatch) := ih (p + (e.encodeWith dataLength).length) batch
      (drop_add rfl hdrop) hle
    obtain hover | ⟨error, herror⟩ | ⟨batch', hok⟩ := Fallible.cases (e.data.apply batch)
    · rw [hover]
      rfl
    · rw [herror]
      rfl
    · rw [hok, pure_bind, ← hnext batch']
      rfl

theorem spells_encode (entries : List FileEntry)
    (hlen : ∀ e ∈ entries, 17 + e.data.encode.length < 2 ^ 32) :
    Spells (entries.flatMap FileEntry.encode) (entries.map fun e => (e, e.data.encode.length)) := by
  induction entries with
  | nil => exact .nil
  | cons e entries ih =>
    rw [List.flatMap_cons, List.map_cons]
    exact .cons e.data.declares_length (Nat.le_add_right _ _) (hlen e List.mem_cons_self)
      (ih fun e he => hlen e (List.mem_cons_of_mem _ he))

/-- The rounds over whole entries. -/
theorem dataStream2batch_encode (entries : List FileEntry)
    (hlen : ∀ e ∈ entries, 17 + e.data.encode.length < 2 ^ 32) :
    dataStream2batch (entries.length + 1) (entries.flatMap FileEntry.encode) =
      some (applyAll (entries.map FileEntry.data) .empty >>= finalCheck) := by
  have hrun := parseEntries_spells (spells_encode entries hlen) 0 .empty List.drop_zero
    (Nat.zero_le _)
  rw [List.length_map, List.map_map] at hrun
  exact hrun

/-! ## The entries of a block -/

theorem lowHalf_of_lt {n : UInt64} (h : n.toNat < 2 ^ 32) : lowHalf n = n := by
  apply UInt64.toNat_inj.mp
  rw [toNat_lowHalf, Nat.mod_eq_of_lt h]

theorem ba2string_isEmpty {n : ℕ} (hpos : 0 < n) (ba : Bytes n) :
    (ba2string ba.1).isEmpty = false := by
  obtain ⟨_ | ⟨b, ba⟩, rfl⟩ := ba
  · exact absurd hpos (lt_irrefl 0)
  · rfl

section Block

variable {batch : L2Batch} {b : L2Block}

/-- A block that is still open. -/
def L2Batch.openedBlock (batch : L2Batch) (b : L2Block) (txs : List DataStreamTx) :
    DataStreamBlock :=
  { batch.block b with l2BlockHash := [], stateRoot := [], txs := txs }

theorem setLatest_withBlocks (blocks : List DataStreamBlock) (x y : DataStreamBlock) :
    (batch.withBlocks (blocks ++ [x])).setLatest y = batch.withBlocks (blocks ++ [y]) := by
  simp only [DataStreamBatch.setLatest, L2Batch.withBlocks, List.dropLast_concat]

theorem openBlock_opened (hbatch : batch.batchNumber ≠ 0) (hfork : batch.forkId ≠ 0)
    (blocks : List DataStreamBlock) (b : L2Block) (txs : List DataStreamTx) :
    openBlock (batch.withBlocks (blocks ++ [batch.openedBlock b txs])) =
      pure (batch.openedBlock b txs) := by
  rw [openBlock, L2Batch.withBlocks]
  simp only [List.getLast?_append, List.getLast?_singleton, Option.some_or]
  rw [if_neg hbatch, if_neg hfork, if_neg (by simp [L2Batch.openedBlock]),
    if_neg (by simp [L2Batch.openedBlock])]

theorem applyAll_txs (hbatch : batch.batchNumber ≠ 0) (hfork : batch.forkId ≠ 0)
    (blocks : List DataStreamBlock) (ts : List L2TxData) (txs : List DataStreamTx) :
    applyAll (ts.map .tx) (batch.withBlocks (blocks ++ [batch.openedBlock b txs])) =
      pure (batch.withBlocks (blocks ++ [batch.openedBlock b (txs ++ ts.map L2TxData.tx)])) := by
  induction ts generalizing txs with
  | nil => simp
  | cons t ts ih =>
    have hnext := ih (txs ++ [t.tx])
    rw [List.append_assoc, List.singleton_append] at hnext
    rw [List.map_cons, applyAll_cons, EntryData.apply, applyTx, openBlock_opened hbatch hfork,
      pure_bind, pure_bind, setLatest_withBlocks]
    exact hnext

/-- The entries of a block add it. -/
theorem applyAll_blockEntries (hbatch : batch.batchNumber ≠ 0) (hfork : batch.forkId ≠ 0)
    (hnumber : b.blockNumber.toNat < 2 ^ 32) (blocks : List DataStreamBlock)
    {start : DataStreamBatch} (hstart : applyStart (batch.start b) start =
      pure (batch.withBlocks (blocks ++ [batch.openedBlock b []]))) :
    applyAll (batch.blockEntries b) start =
      pure (batch.withBlocks (blocks ++ [batch.block b])) := by
  rw [L2Batch.blockEntries, applyAll_cons, EntryData.apply, hstart, pure_bind, applyAll_append,
    applyAll_txs hbatch hfork, pure_bind, applyAll_cons, EntryData.apply, applyEnd,
    openBlock_opened hbatch hfork, pure_bind]
  have hsame : (batch.openedBlock b ([] ++ b.txs.map L2TxData.tx)).blockNumber =
      lowHalf b.blockNumber := (lowHalf_of_lt hnumber).symm
  rw [if_neg (not_not.mpr hsame), setLatest_withBlocks, pure_bind, applyAll_nil]
  rfl

end Block

/-! ## The entries of a batch -/

section Batch

variable {batch : L2Batch}

theorem L2Batch.start_block (h : batch.Regular) {b : L2Block} (hb : b ∈ batch.blocks) :
    (batch.start b).block = batch.openedBlock b [] := by
  simp only [L2BlockStart.block, L2Batch.start, L2Batch.openedBlock, L2Batch.block,
    lowHalf_of_lt (h.blockNumber_lt b hb), lowHalf_of_lt (h.timestamp_lt b hb)]

/-- The start of a block, where the checks of `addBlock` let it through. -/
theorem applyStart_eq (h : batch.Regular) {b : L2Block} (hb : b ∈ batch.blocks)
    (start : DataStreamBatch) :
    applyStart (batch.start b) start = addBlock start batch.batchNumber (batch.openedBlock b []) := by
  have hbatch := h.batchNumber_ne
  have hblock := h.blockNumber_ne b hb
  rw [applyStart, L2Batch.start_block h hb]
  simp only [L2Batch.start, lowHalf_of_lt h.batchNumber_lt, lowHalf_of_lt (h.blockNumber_lt b hb)]
  rw [if_neg hbatch, if_neg hblock, if_neg h.forkId_ne]

theorem addBlock_first (b : L2Block) :
    addBlock .empty batch.batchNumber (batch.openedBlock b []) =
      pure (batch.withBlocks ([] ++ [batch.openedBlock b []])) := by
  have hfork : (batch.openedBlock b []).forkId.toUInt16 = batch.forkId := by
    simp [L2Batch.openedBlock, L2Batch.block]
  rw [addBlock, DataStreamBatch.empty]
  simp only [List.getLast?_nil, hfork]
  rfl

theorem addBlock_next {b latest : L2Block} (hnext : b.blockNumber = latest.blockNumber + 1)
    (blocks : List DataStreamBlock) :
    addBlock (batch.withBlocks (blocks ++ [batch.block latest])) batch.batchNumber
        (batch.openedBlock b []) =
      pure (batch.withBlocks (blocks ++ [batch.block latest] ++ [batch.openedBlock b []])) := by
  rw [addBlock, L2Batch.withBlocks]
  simp only [List.getLast?_append, List.getLast?_singleton, Option.some_or]
  rw [if_neg (by simp), if_neg (by simp [L2Batch.openedBlock, L2Batch.block]),
    if_neg (by simp [L2Batch.openedBlock, L2Batch.block]),
    if_neg (by simp [L2Batch.openedBlock, L2Batch.block, hnext])]
  rfl

/-- The entries of the blocks that follow a block. -/
theorem applyAll_blocks (h : batch.Regular) (latest : L2Block) (bs : List L2Block)
    (hbs : ∀ b ∈ bs, b ∈ batch.blocks)
    (hchain : (latest :: bs).IsChain fun b b' => b'.blockNumber = b.blockNumber + 1)
    (blocks : List DataStreamBlock) :
    applyAll (bs.flatMap batch.blockEntries)
        (batch.withBlocks (blocks ++ [batch.block latest])) =
      pure (batch.withBlocks (blocks ++ [batch.block latest] ++ bs.map batch.block)) := by
  induction bs generalizing latest blocks with
  | nil => simp
  | cons b bs ih =>
    rw [List.isChain_cons_cons] at hchain
    have hb := hbs b List.mem_cons_self
    have hstart := applyStart_eq h hb (batch.withBlocks (blocks ++ [batch.block latest]))
    rw [addBlock_next hchain.1] at hstart
    have hnext := ih b (fun b hb => hbs b (List.mem_cons_of_mem _ hb)) hchain.2
      (blocks ++ [batch.block latest])
    rw [List.flatMap_cons, applyAll_append,
      applyAll_blockEntries h.batchNumber_ne h.forkId_ne (h.blockNumber_lt b hb) _ hstart, pure_bind,
      hnext, List.append_assoc _ [batch.block b]]
    rfl

theorem applyAll_entries (h : batch.Regular) :
    applyAll batch.entries .empty = pure batch.toBatch := by
  have hchain := h.consecutive
  have hall : ∀ b ∈ batch.blocks, b ∈ batch.blocks := fun b hb => hb
  rw [L2Batch.entries, L2Batch.toBatch]
  obtain ⟨b, bs, hblocks⟩ := List.exists_cons_of_ne_nil h.blocks_ne
  nth_rewrite 1 [hblocks] at hall
  have hb := hall b List.mem_cons_self
  have hstart := applyStart_eq h hb .empty
  rw [addBlock_first] at hstart
  have hrest := applyAll_blocks h b bs (fun b hb => hall b (List.mem_cons_of_mem _ hb))
    (hblocks ▸ hchain) []
  rw [hblocks, List.flatMap_cons, applyAll_append,
    applyAll_blockEntries h.batchNumber_ne h.forkId_ne (h.blockNumber_lt b hb) [] hstart, pure_bind,
    hrest]
  rfl

theorem finalCheck_toBatch (h : batch.Regular) : finalCheck batch.toBatch = pure batch.toBatch := by
  have hlast : batch.toBatch.blocks.getLast? =
      some (batch.block (batch.blocks.getLast h.blocks_ne)) := by
    rw [L2Batch.toBatch, L2Batch.withBlocks, List.getLast?_map,
      List.getLast?_eq_some_getLast h.blocks_ne]
    rfl
  have hopen (ba : Bytes 32) : ¬(ba2string ba.1).isEmpty = true := by
    simp [ba2string_isEmpty (by decide) ba]
  have hhash : ¬(batch.block (batch.blocks.getLast h.blocks_ne)).l2BlockHash.isEmpty = true :=
    hopen _
  have hroot : ¬(batch.block (batch.blocks.getLast h.blocks_ne)).stateRoot.isEmpty = true :=
    hopen _
  have hbatch : ¬batch.toBatch.batchNumber = 0 := h.batchNumber_ne
  have hfork : ¬batch.toBatch.forkId = 0 := h.forkId_ne
  rw [finalCheck, hlast]
  simp only
  rw [if_neg hbatch, if_neg hfork, if_neg hhash, if_neg hroot]

/-- The decoder returns the batch of a stream. -/
theorem dataStream2batch_exact (h : batch.Regular) {entries : List FileEntry}
    (hs : StreamOf batch entries) :
    ∃ rounds, dataStream2batch rounds (entries.flatMap FileEntry.encode) =
      some (pure batch.toBatch) := by
  refine ⟨entries.length + 1, ?_⟩
  rw [dataStream2batch_encode entries hs.length_lt, ← applyAll_filter, hs.entries_eq,
    applyAll_entries h, pure_bind, finalCheck_toBatch h]

end Batch

/-- One block without transactions. -/
def sampleBlock : L2Block where
  blockNumber := 1
  timestamp := 0
  deltaTimestamp := 0
  l1InfoTreeIndex := 0
  l1BlockHash := ⟨List.replicate 32 0, rfl⟩
  globalExitRoot := ⟨List.replicate 32 0, rfl⟩
  coinbase := ⟨List.replicate 20 0, rfl⟩
  l2BlockHash := ⟨List.replicate 32 0, rfl⟩
  stateRoot := ⟨List.replicate 32 0, rfl⟩
  txs := []

def sampleBatch (batchNumber : UInt64) : L2Batch where
  batchNumber := batchNumber
  forkId := 8
  chainId := 1
  blocks := [sampleBlock]

/-- Its entries, after a bookmark. -/
def sampleEntries (batchNumber : UInt64) : List FileEntry :=
  { number := 0, data := .bookmark [] } ::
    (sampleBatch batchNumber).entries.map fun data => { number := 1, data }

theorem sampleEntries_streamOf (batchNumber : UInt64) :
    StreamOf (sampleBatch batchNumber) (sampleEntries batchNumber) where
  entries_eq := rfl
  length_lt := by
    simp [sampleEntries, sampleBatch, L2Batch.entries, L2Batch.blockEntries, sampleBlock,
      EntryData.encode]

theorem dataStream2batch_exact_sample :
    ∃ rounds, dataStream2batch rounds ((sampleEntries 1).flatMap FileEntry.encode) =
      some (pure (sampleBatch 1).toBatch) :=
  dataStream2batch_exact
    { batchNumber_ne := by decide
      batchNumber_lt := by decide
      forkId_ne := by decide
      blocks_ne := by simp [sampleBatch]
      blockNumber_ne := by simp [sampleBatch, sampleBlock]
      blockNumber_lt := by simp [sampleBatch, sampleBlock]
      timestamp_lt := by simp [sampleBatch, sampleBlock]
      consecutive := by simp [sampleBatch] }
    (sampleEntries_streamOf 1)

/-! ## Batches that are rejected -/

theorem parseEntries_unique {s : List UInt8} {rounds rounds' p : ℕ} {batch : DataStreamBatch}
    {r r' : Parse DataStreamBatch} (h : parseEntries s rounds p batch = some r)
    (h' : parseEntries s rounds' p batch = some r') : r = r' := by
  induction rounds generalizing rounds' p batch with
  | zero => cases h
  | succ rounds ih =>
    cases rounds' with
    | zero => cases h'
    | succ rounds' =>
      rw [parseEntries] at h h'
      split_ifs at h h' with hp
      · split at h
        · next hround =>
          rw [hround] at h'
          exact Option.some.inj (h.symm.trans h')
        · next hround =>
          rw [hround] at h'
          exact Option.some.inj (h.symm.trans h')
        · next hround =>
          rw [hround] at h'
          exact ih h h'
      · exact Option.some.inj (h.symm.trans h')

/-- A batch whose number is zero is not returned. -/
theorem dataStream2batch_zero : StreamOf (sampleBatch 0) (sampleEntries 0) ∧
    ¬∃ rounds, dataStream2batch rounds ((sampleEntries 0).flatMap FileEntry.encode) =
      some (pure (sampleBatch 0).toBatch) := by
  refine ⟨sampleEntries_streamOf 0, ?_⟩
  rintro ⟨rounds, h⟩
  have hrun := dataStream2batch_encode (sampleEntries 0) (sampleEntries_streamOf 0).length_lt
  have heq := parseEntries_unique hrun h
  cases heq

end ZkevmProver
