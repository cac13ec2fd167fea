import ZkevmProver.SM.PaddingHash

/-!
# What the Keccak and SHA-256 padding executors write

  1. The rows of a message.
  2. The rows of a list of messages.
  3. The unused blocks.
  4. The rest.
-/

namespace ZkevmProver

open Loops

namespace HashPadder

variable {X : Type} [Inhabited X] {P : HashPadder X}

/-! ## The rows of a message -/

/-- The executor sees the last row of a message as such, and no other row. -/
def Closing (P : HashPadder X) (input : PaddingExecutorInput) : Prop :=
  ∀ j < input.dataBytes.length, ∀ p, p % P.bytesPerBlock = j % P.bytesPerBlock →
    P.lastHash input j p (if P.spare input j then 1 else 0) =
      decide (j + 1 = input.dataBytes.length)

/-- Row `j` of a message, apart from the columns that all machines have, and the hash. -/
structure HashRow (P : HashPadder X) (input : PaddingExecutorInput) (j : ℕ)
    (row : PaddingHashRow X) : Prop where
  incCounter : row.incCounter = fromU64 (j / P.bytesPerBlock + 1)
  connected : row.connected = if j ≥ P.bytesPerBlock then 1 else 0
  lastHashLen : row.lastHashLen =
    if j + 1 = input.dataBytes.length ∧ input.lenCalled then 1 else 0
  lastHashDigest : row.lastHashDigest =
    if j + 1 = input.dataBytes.length ∧ input.digestCalled then 1 else 0
  ext : row.ext = P.ext input j default

/-- Block `b` of a message. -/
def block (P : HashPadder X) (input : PaddingExecutorInput) (b : ℕ) : PaddingBitExecutorInput where
  connected := b ≠ 0
  data := slice input.dataBytes (P.bytesPerBlock * b) (P.bytesPerBlock * (b + 1))

/-- The blocks of a message. -/
def blocks (P : HashPadder X) (input : PaddingExecutorInput) : List PaddingBitExecutorInput :=
  (List.range (input.dataBytes.length / P.bytesPerBlock)).map (block P input)

/-- The rows from `base` on hold the first `j` bytes of a message, apart from its reads. -/
structure HashAt (P : HashPadder X) (input : PaddingExecutorInput) (base j : ℕ) (S₀ : State X)
    (S : State X × ReadCursor) : Prop where
  p : S.1.p = base + j
  before : ∀ q < base, S.1.pols q = S₀.pols q
  rows : ∀ t < j, HashRow P input t (S.1.pols (base + t))
  hash : j = input.dataBytes.length → ∀ t < j, (S.1.pols (base + t)).hash = P.hash input.hash
  cur : ∃ crV, S.1.pols (base + j) = { crV }
  fresh : ∀ q, base + j < q → S.1.pols q = {}
  required : S.1.required = S₀.required ++ (List.range (j / P.bytesPerBlock)).map (block P input)

section Message

variable {input : PaddingExecutorInput} {addr base j : ℕ} {S₀ : State X} {S : State X × ReadCursor}

/-- The row of byte `j` when it is complete, the hash apart. -/
def doneRow (P : HashPadder X) (input : PaddingExecutorInput) (addr j : ℕ)
    (S : State X × ReadCursor) : PaddingHashRow X :=
  { S.1.pols S.1.p with
    toPaddingRow :=
      (P.curRow input addr j S.1.p S.2 (S.1.pols (S.1.p - 1)).toPaddingRow (S.1.pols S.1.p)).2
    connected := if j ≥ P.bytesPerBlock then 1 else (S.1.pols S.1.p).connected
    ext := P.ext input j (S.1.pols S.1.p).ext }

/-- The row after it. -/
def followingRow (P : HashPadder X) (input : PaddingExecutorInput) (addr j : ℕ)
    (S : State X × ReadCursor) : PaddingHashRow X :=
  { S.1.pols (S.1.p + 1) with
    toPaddingRow := readNext (doneRow P input addr j S).toPaddingRow
      (S.1.pols (S.1.p + 1)).toPaddingRow }

/-- The rows before the hash is written. -/
def writtenRows (P : HashPadder X) (input : PaddingExecutorInput) (addr j : ℕ)
    (S : State X × ReadCursor) : ℕ → PaddingHashRow X :=
  Function.update (Function.update S.1.pols S.1.p (doneRow P input addr j S)) (S.1.p + 1)
    (followingRow P input addr j S)

theorem execByte_eq : P.execByte input addr j S =
    (if j % P.bytesPerBlock = P.bytesPerBlock - 1 then
      (⟨S.1.p + 1,
        if j = input.dataBytes.length - 1 then
          setRows (writtenRows P input addr j S) (S.1.p + 1 - input.dataBytes.length)
            input.dataBytes.length fun r => { r with hash := P.hash input.hash }
        else writtenRows P input addr j S,
        S.1.required ++ [⟨j ≥ P.bytesPerBlock,
          slice input.dataBytes (j + 1 - P.bytesPerBlock) (j + 1)⟩]⟩,
        (P.curRow input addr j S.1.p S.2 (S.1.pols (S.1.p - 1)).toPaddingRow (S.1.pols S.1.p)).1)
    else
      (⟨S.1.p + 1, writtenRows P input addr j S, S.1.required⟩,
        (P.curRow input addr j S.1.p S.2 (S.1.pols (S.1.p - 1)).toPaddingRow
          (S.1.pols S.1.p)).1)) :=
  rfl

theorem execByte_p : (P.execByte input addr j S).1.p = S.1.p + 1 := by
  rw [execByte_eq]
  split <;> rfl

theorem execByte_cursor : (P.execByte input addr j S).2 =
    (P.curRow input addr j S.1.p S.2 (S.1.pols (S.1.p - 1)).toPaddingRow (S.1.pols S.1.p)).1 := by
  rw [execByte_eq]
  split <;> rfl

/-- The last byte of a message gives the hash to all its rows. -/
theorem execByte_pols (q : ℕ) : (P.execByte input addr j S).1.pols q =
    if (j % P.bytesPerBlock = P.bytesPerBlock - 1 ∧ j = input.dataBytes.length - 1) ∧
        S.1.p + 1 - input.dataBytes.length ≤ q ∧
        q < S.1.p + 1 - input.dataBytes.length + input.dataBytes.length then
      { writtenRows P input addr j S q with hash := P.hash input.hash }
    else writtenRows P input addr j S q := by
  rw [execByte_eq]
  split
  · next h =>
    dsimp only
    split
    · next h' => simp only [h, ← h', true_and, setRows]
    · next h' => rw [if_neg fun hq => h' hq.1.2]
  · next h => rw [if_neg fun hq => h hq.1.1]

theorem execByte_cols (q : ℕ) : ((P.execByte input addr j S).1.pols q).toPaddingRow =
    (writtenRows P input addr j S q).toPaddingRow := by
  rw [execByte_pols]
  split <;> rfl

theorem execByte_required : (P.execByte input addr j S).1.required =
    if j % P.bytesPerBlock = P.bytesPerBlock - 1 then
      S.1.required ++ [⟨j ≥ P.bytesPerBlock,
        slice input.dataBytes (j + 1 - P.bytesPerBlock) (j + 1)⟩]
    else S.1.required := by
  rw [execByte_eq]
  split <;> rfl

theorem writtenRows_cur : writtenRows P input addr j S S.1.p = doneRow P input addr j S := by
  rw [writtenRows, Function.update_of_ne (by omega), Function.update_self]

theorem writtenRows_next :
    writtenRows P input addr j S (S.1.p + 1) = followingRow P input addr j S :=
  Function.update_self ..

theorem writtenRows_other {q : ℕ} (hq : q ≠ S.1.p) (hq' : q ≠ S.1.p + 1) :
    writtenRows P input addr j S q = S.1.pols q := by
  rw [writtenRows, Function.update_of_ne hq', Function.update_of_ne hq]

theorem HashRow.withHash {row : PaddingHashRow X} (h : HashRow P input j row) (hash : Fin 8 → Fe) :
    HashRow P input j { row with hash } :=
  ⟨h.incCounter, h.connected, h.lastHashLen, h.lastHashDigest, h.ext⟩

theorem HashRow.execByte {t q : ℕ} (h : HashRow P input t (writtenRows P input addr j S q)) :
    HashRow P input t ((P.execByte input addr j S).1.pols q) := by
  rw [execByte_pols]
  split
  · exact h.withHash _
  · exact h

/-- The row of byte `j` is complete. -/
theorem HashAt.doneRow (h : HashAt P input base j S₀ S) (hj : j < input.dataBytes.length)
    (hclose : Closing P input) (hbase : base % P.bytesPerBlock = 0) :
    HashRow P input j (doneRow P input addr j S) := by
  obtain ⟨crV, hcur⟩ := h.cur
  have hp : S.1.p % P.bytesPerBlock = j % P.bytesPerBlock := by
    rw [h.p, Nat.add_mod, hbase, Nat.zero_add, Nat.mod_mod]
  rw [← h.p] at hcur
  have hlast : P.lastHash input j S.1.p
      (if P.spare input j then 1 else (S.1.pols S.1.p).spare) =
        decide (j + 1 = input.dataBytes.length) := by
    rw [hcur]
    exact hclose j hj S.1.p hp
  refine ⟨rfl, ?_, ?_, ?_, ?_⟩
  · show (if j ≥ P.bytesPerBlock then 1 else (S.1.pols S.1.p).connected) = _
    rw [hcur]
  · show (if P.lastHash input j S.1.p (if P.spare input j then 1 else (S.1.pols S.1.p).spare) &&
      input.lenCalled then 1 else (S.1.pols S.1.p).lastHashLen) = _
    rw [hlast, hcur]
    simp
  · show (if P.lastHash input j S.1.p (if P.spare input j then 1 else (S.1.pols S.1.p).spare) &&
      input.digestCalled then 1 else (S.1.pols S.1.p).lastHashDigest) = _
    rw [hlast, hcur]
    simp
  · show P.ext input j (S.1.pols S.1.p).ext = _
    rw [hcur]

/-- The last byte of a block. -/
theorem mod_eq_pred {B : ℕ} (hB : 0 < B) : j % B = B - 1 ↔ (j + 1) % B = 0 := by
  have hlt := Nat.mod_lt j hB
  rw [Nat.add_mod]
  rcases Nat.lt_or_ge (j % B + 1) B with h | h
  · have hone : 1 % B = 1 := Nat.mod_eq_of_lt (by omega)
    rw [hone, Nat.mod_eq_of_lt h]
    omega
  · have hB' : j % B + 1 = B := by omega
    rw [Nat.add_mod_mod, hB', Nat.mod_self]
    omega

omit [Inhabited X] in
/-- The block that ends at byte `j`. -/
theorem block_eq (hpos : 0 < P.bytesPerBlock) (hlast : j % P.bytesPerBlock = P.bytesPerBlock - 1) :
    block P input (j / P.bytesPerBlock) =
      ⟨j ≥ P.bytesPerBlock, slice input.dataBytes (j + 1 - P.bytesPerBlock) (j + 1)⟩ := by
  have hj := Nat.div_add_mod j P.bytesPerBlock
  rw [hlast] at hj
  have hend : P.bytesPerBlock * (j / P.bytesPerBlock + 1) = j + 1 := by
    rw [Nat.mul_succ]
    omega
  have hstart : P.bytesPerBlock * (j / P.bytesPerBlock) = j + 1 - P.bytesPerBlock := by omega
  have hconn : j / P.bytesPerBlock ≠ 0 ↔ j ≥ P.bytesPerBlock := by
    rw [ne_eq, Nat.div_eq_zero_iff]
    omega
  rw [block, hend, hstart, decide_eq_decide.mpr hconn]

/-- Byte `j` is written. -/
theorem HashAt.step (h : HashAt P input base j S₀ S) (hj : j < input.dataBytes.length)
    (hclose : Closing P input) (hpos : 0 < P.bytesPerBlock)
    (hblocks : input.dataBytes.length % P.bytesPerBlock = 0)
    (hbase : base % P.bytesPerBlock = 0) :
    HashAt P input base (j + 1) S₀ (P.execByte input addr j S) := by
  have hp := h.p
  have hrow : HashRow P input j (HashPadder.doneRow P input addr j S) :=
    h.doneRow hj hclose hbase
  refine ⟨by rw [execByte_p, hp, Nat.add_assoc], fun q hq => ?_, fun t ht => ?_,
    fun hend t ht => ?_, ?_, fun q hq => ?_, ?_⟩
  · rw [execByte_pols, if_neg (by omega), writtenRows_other (by omega) (by omega)]
    exact h.before q hq
  · refine HashRow.execByte ?_
    rcases Nat.lt_succ_iff_lt_or_eq.mp ht with ht | rfl
    · rw [writtenRows_other (by omega) (by omega)]
      exact h.rows t ht
    · rw [← hp, writtenRows_cur]
      exact hrow
  · have hlast : j % P.bytesPerBlock = P.bytesPerBlock - 1 :=
      (mod_eq_pred hpos).mpr (hend ▸ hblocks)
    rw [execByte_pols, if_pos (by omega)]
  · refine ⟨(readNext (HashPadder.doneRow P input addr j S).toPaddingRow {}).crV, ?_⟩
    rw [← Nat.add_assoc, ← hp, execByte_pols, if_neg (by omega), writtenRows_next, followingRow,
      h.fresh _ (by omega), readNext_eq]
  · rw [execByte_pols, if_neg (by omega), writtenRows_other (by omega) (by omega)]
    exact h.fresh q (by omega)
  · rw [execByte_required, h.required]
    split
    · next hlast =>
      rw [Nat.succ_div_of_dvd (Nat.dvd_of_mod_eq_zero ((mod_eq_pred hpos).mp hlast)),
        List.range_succ, List.map_append, List.append_assoc, List.map_singleton, block_eq hpos hlast]
    · next hlast =>
      have hdvd : ¬P.bytesPerBlock ∣ j + 1 :=
        fun h => hlast ((mod_eq_pred hpos).mpr (Nat.mod_eq_zero_of_dvd h))
      rw [Nat.succ_div_of_not_dvd hdvd]

/-- The reads next to it. -/
theorem atByte_execByte (hp : S.1.p = base + j) (hj : j < input.dataBytes.length)
    (h : AtByte input addr base j (fun q => (S.1.pols q).toPaddingRow) S.2)
    (hsizes : ReadSizes input.reads) :
    AtByte input addr base (j + 1)
      (fun q => ((P.execByte input addr j S).1.pols q).toPaddingRow)
      (P.execByte input addr j S).2 := by
  have hcols (spare : Fe) (lastHash : Bool) (row : PaddingRow) : ByteCols input addr j
      { byteRow input addr j spare lastHash row with
        incCounter := fromU64 (j / P.bytesPerBlock + 1) } := ⟨rfl, rfl, rfl, rfl⟩
  rw [execByte_cursor, hp]
  refine h.step hsizes hj (hcols (if P.spare input j then 1 else (S.1.pols (base + j)).spare)
    (P.lastHash input j (base + j) (if P.spare input j then 1 else (S.1.pols (base + j)).spare))
    (S.1.pols (base + j)).toPaddingRow) rfl rfl ?_ ?_ ?_ fun q hq hq' => ?_
  · rw [← hp, execByte_cols, writtenRows_cur, doneRow]
    rfl
  · rw [← hp, execByte_cols, execByte_cols, writtenRows_next, writtenRows_cur]
    rfl
  · rw [← hp, execByte_cols, writtenRows_next]
    exact readNext_crF _ _
  · rw [execByte_cols, writtenRows_other (by omega) (by omega)]

end Message

/-! ## The rows of a list of messages -/

/-- The rows of a message, from `base` on, apart from its reads. -/
structure HashMessage (P : HashPadder X) (input : PaddingExecutorInput) (base : ℕ)
    (pols : ℕ → PaddingHashRow X) : Prop where
  rows : ∀ t < input.dataBytes.length, HashRow P input t (pols (base + t))
  hash : ∀ t < input.dataBytes.length, (pols (base + t)).hash = P.hash input.hash

/-- The rows of a message with its reads. -/
structure ReadMessage (P : HashPadder X) (input : PaddingExecutorInput) (addr base : ℕ)
    (pols : ℕ → PaddingHashRow X) : Prop extends HashMessage P input base pols where
  reads : ∀ t < input.dataBytes.length, MessageRow input addr t (pols (base + t)).toPaddingRow

/-- A whole number of blocks is written, and the next row starts a message. -/
structure HashReady (P : HashPadder X) (S : State X) : Prop where
  blocks : S.p % P.bytesPerBlock = 0
  cur : ∃ crV, S.pols S.p = { crV }
  fresh : ∀ q, S.p < q → S.pols q = {}

/-- The reads are at an end, too. -/
structure ReadReady (P : HashPadder X) (S : State X) : Prop where
  blocks : S.p % P.bytesPerBlock = 0
  fresh : ∀ q, S.p ≤ q → S.pols q = {}

theorem ReadReady.hashReady {S : State X} (h : ReadReady P S) : HashReady P S :=
  ⟨h.blocks, ⟨fun _ => 0, h.fresh _ le_rfl⟩, fun q hq => h.fresh q hq.le⟩

section Messages

variable {input : PaddingExecutorInput} {S : State X} {base : ℕ}

theorem HashReady.hashAt (h : HashReady P S) :
    HashAt P input S.p 0 S (S, {}) where
  p := rfl
  before _ _ := rfl
  rows _ ht := absurd ht (Nat.not_lt_zero _)
  hash _ _ ht := absurd ht (Nat.not_lt_zero _)
  cur := h.cur
  fresh := h.fresh
  required := by
    rw [Nat.zero_div]
    exact (List.append_nil _).symm

variable (hpos : 0 < P.bytesPerBlock) (hpad : Padded P.bytesPerBlock input)
  (hclose : Closing P input) (addr : ℕ)
include hpos hpad hclose

theorem execMessage_at (h : HashReady P S) :
    HashAt P input S.p input.dataBytes.length S
      (forUpTo input.dataBytes.length (P.execByte input addr) (S, {})) :=
  forUpTo_inv (J := fun j S' => HashAt P input S.p j S S') h.hashAt
    fun _ hj _ h' => h'.step hj hclose hpos hpad.blocks h.blocks

/-- A message. -/
theorem execMessage_spec (h : HashReady P S) :
    HashReady P (P.execMessage input addr S) ∧
      Wrote S (P.execMessage input addr S) input.dataBytes.length (P.blocks input) ∧
      HashMessage P input S.p (P.execMessage input addr S).pols := by
  have hat := execMessage_at hpos hpad hclose addr h
  have hp : (P.execMessage input addr S).p = S.p + input.dataBytes.length := hat.p
  refine ⟨⟨?_, ?_, ?_⟩, ⟨hp, hat.before, hat.required⟩, hat.rows, hat.hash rfl⟩
  · rw [hp, Nat.add_mod, h.blocks, hpad.blocks]
    exact Nat.zero_mod _
  · rw [hp]
    exact hat.cur
  · rw [hp]
    exact hat.fresh

/-- A message whose reads end with it. -/
theorem execMessage_reads (h : ReadReady P S) {realLen : ℕ} (htile : Tiling input.reads realLen)
    (hlen : realLen ≤ input.dataBytes.length) :
    ReadReady P (P.execMessage input addr S) ∧
      Wrote S (P.execMessage input addr S) input.dataBytes.length (P.blocks input) ∧
      ReadMessage P input addr S.p (P.execMessage input addr S).pols := by
  obtain ⟨hready, hwrote, hmsg⟩ := execMessage_spec hpos hpad hclose addr h.hashReady
  have hat : HashAt P input S.p input.dataBytes.length S _ ∧
      AtByte input addr S.p input.dataBytes.length (fun q =>
        ((forUpTo input.dataBytes.length (P.execByte input addr) (S, {})).1.pols q).toPaddingRow)
        (forUpTo input.dataBytes.length (P.execByte input addr) (S, {})).2 :=
    forUpTo_inv (J := fun j S' => HashAt P input S.p j S S' ∧
        AtByte input addr S.p j (fun q => (S'.1.pols q).toPaddingRow) S'.2)
      ⟨h.hashReady.hashAt, atByte_zero (fun q hq => by rw [h.fresh q hq])
        fun q hq => by rw [h.fresh q hq]⟩
      fun j hj S' h' => ⟨h'.1.step hj hclose hpos hpad.blocks h.blocks,
        atByte_execByte h'.1.p hj h'.2 htile.sizes⟩
  refine ⟨⟨hready.blocks, fun q hq => ?_⟩, hwrote, hmsg, hat.2.rows⟩
  rcases Nat.eq_or_lt_of_le hq with rfl | hq
  · obtain ⟨crV, hcur⟩ := hready.cur
    have hend := htile.readStart (input.dataBytes.length - realLen)
    rw [Nat.add_sub_cancel' hlen] at hend
    have hzero : ((P.execMessage input addr S).pols (P.execMessage input addr S).p).crV =
        fun _ => 0 := hat.2.crV_eq_zero hend (by rw [hwrote.p])
    rw [hcur] at hzero ⊢
    rw [show crV = fun _ => 0 from hzero]
  · exact hready.fresh q hq

omit hpos hpad hclose in
theorem HashMessage.congr {pols pols' : ℕ → PaddingHashRow X}
    (heq : ∀ q < base + input.dataBytes.length, pols' q = pols q)
    (h : HashMessage P input base pols) : HashMessage P input base pols' where
  rows t ht := by
    rw [heq _ (by omega)]
    exact h.rows t ht
  hash t ht := by
    rw [heq _ (by omega)]
    exact h.hash t ht

omit hpos hpad hclose in
theorem ReadMessage.congr {addr : ℕ} {pols pols' : ℕ → PaddingHashRow X}
    (heq : ∀ q < base + input.dataBytes.length, pols' q = pols q)
    (h : ReadMessage P input addr base pols) : ReadMessage P input addr base pols' where
  toHashMessage := h.toHashMessage.congr heq
  reads t ht := by
    rw [heq _ (by omega)]
    exact h.reads t ht

end Messages

/-! ## The unused blocks -/

/-- An empty message, padded. -/
def empty (P : HashPadder X) : PaddingExecutorInput where
  dataBytes := (List.range P.bytesPerBlock).map P.bytes0
  hash := P.digest []

/-- What the executors have in common: blocks that are not empty, a padding to whole blocks, and the
unused blocks are the padding of an empty message. -/
structure Lawful (P : HashPadder X) : Prop where
  pos : 0 < P.bytesPerBlock
  padded : ∀ bytes padded, P.pad bytes = some padded →
    bytes.length < padded.length ∧ padded.length % P.bytesPerBlock = 0
  empty : P.pad [] = some P.empty.dataBytes
  emptyExt : ∀ j < P.bytesPerBlock, P.unusedExt j default = P.ext P.empty j default

section Unused

variable {S : State X}

omit [Inhabited X] in
theorem padded_empty (hpos : 0 < P.bytesPerBlock) : Padded P.bytesPerBlock P.empty where
  pos := by simpa [empty] using hpos
  blocks := by simp [empty]

theorem unusedRows_wrote (addr n : ℕ) (S : State X) : Wrote S (P.unusedRows addr n S) n [] := by
  unfold unusedRows
  exact forUpTo_inv (J := fun n (S' : State X) => Wrote S S' n []) (.refl S)
    fun j _ S' h => h.trans (.row S' _)

/-- The rows of an unused block. -/
theorem unusedRows_spec (addr : ℕ) (h : ReadReady P S) (n : ℕ) :
    (∀ t < n, (P.unusedRows addr n S).pols (S.p + t) = P.unusedRow addr t {}) ∧
      ∀ q, S.p + n ≤ q → (P.unusedRows addr n S).pols q = {} := by
  induction n with
  | zero => exact ⟨fun t ht => absurd ht (Nat.not_lt_zero t), h.fresh⟩
  | succ n ih =>
    obtain ⟨hrows, hfresh⟩ := ih
    have hp : (P.unusedRows addr n S).p = S.p + n := (unusedRows_wrote addr n S).p
    have hsucc : (P.unusedRows addr (n + 1) S).pols =
        Function.update (P.unusedRows addr n S).pols (P.unusedRows addr n S).p
          (P.unusedRow addr n ((P.unusedRows addr n S).pols (P.unusedRows addr n S).p)) := rfl
    rw [hsucc, hp, hfresh _ le_rfl]
    refine ⟨fun t ht => ?_, fun q hq => ?_⟩
    · rcases Nat.lt_succ_iff_lt_or_eq.mp ht with ht | rfl
      · rw [Function.update_of_ne (by omega), hrows t ht]
      · rw [Function.update_self]
    · rw [Function.update_of_ne (by omega), hfresh q (by omega)]

omit [Inhabited X] in
theorem getD_empty {j : ℕ} (hj : j < P.bytesPerBlock) : P.empty.dataBytes.getD j 0 = P.bytes0 j := by
  have hlen : j < ((List.range P.bytesPerBlock).map P.bytes0).length := by simpa using hj
  rw [empty, List.getD_eq_getElem _ _ hlen, List.getElem_map, List.getElem_range]

/-- A row of an unused block is one of an empty message. -/
theorem messageRow_unusedRow (addr : ℕ) {j : ℕ} (hj : j < P.bytesPerBlock) :
    MessageRow P.empty addr j (P.unusedRow addr j {}).toPaddingRow := by
  have hbyte := getD_empty hj
  have hfree : (P.unusedRow addr j {}).freeIn = fromU64 (P.bytes0 j).toNat := by
    show (if P.bytes0 j ≠ 0 then fromU64 (P.bytes0 j).toNat else 0) = _
    split
    · rfl
    · next h =>
      rw [not_not.mp h]
      rfl
  refine ⟨⟨by rw [hfree, hbyte], rfl, rfl, ?_⟩, j, ?_⟩
  · show (if j ≠ 0 then -fromU64 j else 0) = fromU64 0 - fromU64 j
    split
    · exact (zero_sub _).symm
    · next h =>
      rw [not_not.mp h]
      rfl
  · have hlen : j < P.empty.dataBytes.length := by simpa [empty] using hj
    exact readRow_nil hlen (by rw [hfree, hbyte]) rfl rfl rfl rfl

theorem hashRow_unusedRow (hP : Lawful P) (addr : ℕ) {j : ℕ} (hj : j < P.bytesPerBlock) :
    HashRow P P.empty j (P.unusedRow addr j {}) := by
  refine ⟨?_, ?_, ?_, ?_, hP.emptyExt j hj⟩
  · rw [Nat.div_eq_of_lt hj]
    rfl
  · rw [if_neg (Nat.not_le.mpr hj)]
    rfl
  · rw [if_neg fun h => Bool.false_ne_true h.2]
    rfl
  · rw [if_neg fun h => Bool.false_ne_true h.2]
    rfl

omit [Inhabited X] in
theorem blocks_empty (hpos : 0 < P.bytesPerBlock) :
    P.blocks P.empty = [{ data := (List.range P.bytesPerBlock).map P.bytes0 }] := by
  have hlen : P.empty.dataBytes.length = P.bytesPerBlock := by simp [empty]
  have hslice : slice P.empty.dataBytes 0 P.bytesPerBlock = P.empty.dataBytes := by
    rw [slice, List.drop_zero, ← hlen, List.take_length]
  rw [blocks, hlen, Nat.div_self hpos]
  show [block P P.empty 0] = _
  rw [block, Nat.mul_zero, Nat.mul_one, hslice]
  rfl

theorem unusedBlock_wrote (hpos : 0 < P.bytesPerBlock) (addr : ℕ) (S : State X) :
    Wrote S (P.unusedBlock addr S) P.empty.dataBytes.length (P.blocks P.empty) := by
  have h : Wrote S (P.unusedRows addr P.bytesPerBlock S) P.bytesPerBlock [] :=
    unusedRows_wrote addr P.bytesPerBlock S
  have hlen : P.empty.dataBytes.length = P.bytesPerBlock := by simp [empty]
  have hp := h.p
  rw [hlen, blocks_empty hpos]
  refine ⟨hp, fun q hq => ?_, ?_⟩
  · rw [unusedBlock]
    dsimp only
    rw [setRows_out (by omega), h.before q hq]
  · rw [unusedBlock, h.required, List.append_nil]

/-- An unused block is written as an empty message. -/
theorem unusedBlock_spec (hP : Lawful P) (addr : ℕ) (h : ReadReady P S) :
    ReadReady P (P.unusedBlock addr S) ∧ ReadMessage P P.empty addr S.p (P.unusedBlock addr S).pols := by
  have hp : (P.unusedRows addr P.bytesPerBlock S).p = S.p + P.bytesPerBlock :=
    (unusedRows_wrote addr P.bytesPerBlock S).p
  obtain ⟨hrows, hfresh⟩ := unusedRows_spec addr h P.bytesPerBlock
  have hlen : P.empty.dataBytes.length = P.bytesPerBlock := by simp [empty]
  unfold unusedBlock
  dsimp only
  generalize P.unusedRows addr P.bytesPerBlock S = S' at *
  rw [hp, Nat.add_sub_cancel]
  refine ⟨⟨(Nat.add_mod_right ..).trans h.blocks, fun q hq => ?_⟩,
    ⟨fun t ht => ?_, fun t ht => ?_⟩, fun t ht => ?_⟩
  · have hq' : S.p + P.bytesPerBlock ≤ q := hq
    dsimp only
    rw [setRows_out (by omega), hfresh q hq']
  · rw [hlen] at ht
    rw [setRows_in (by omega), hrows t ht]
    exact (hashRow_unusedRow hP addr ht).withHash _
  · rw [hlen] at ht
    rw [setRows_in (by omega)]
    rfl
  · rw [hlen] at ht
    rw [setRows_in (by omega), hrows t ht]
    exact messageRow_unusedRow addr ht

end Unused

/-! ## The rest -/

/-- A row that belongs to no block. -/
structure RestRow (P : HashPadder X) (addr fp q : ℕ) (row : PaddingHashRow X) : Prop where
  addr : row.addr = fromU64 addr
  freeIn : row.freeIn = fromU64 ((P.restByte fp q).getD 0).toNat
  connected : row.connected = 0
  lastHashLen : row.lastHashLen = 0
  lastHashDigest : row.lastHashDigest = 0

theorem execRest_wrote (addr : ℕ) (S : State X) :
    Wrote S (P.execRest addr S) (PaddingHash.N - S.p) [] := by
  unfold execRest
  exact forUpTo_inv (J := fun n (S' : State X) => Wrote S S' n []) (.refl S)
    fun j _ S' h => h.trans (.row S' _)

theorem execRest_rows (addr : ℕ) {S : State X} (h : ∀ q, S.p ≤ q → S.pols q = {}) :
    ∀ q, S.p ≤ q → q < PaddingHash.N → RestRow P addr S.p q ((P.execRest addr S).pols q) := by
  intro q hq hN
  suffices hrun : ∀ n, let S' := forUpTo n (fun _ (S' : State X) =>
      { S' with
        p := S'.p + 1
        pols := Function.update S'.pols S'.p
          (P.restRow addr S.p S'.p (S'.pols (S'.p - 1)) (S'.pols S'.p)) }) S
      S'.p = S.p + n ∧ (∀ q, S.p ≤ q → q < S'.p → RestRow P addr S.p q (S'.pols q)) ∧
        ∀ q, S'.p ≤ q → S'.pols q = {} by
    obtain ⟨hp, hrows, -⟩ := hrun (PaddingHash.N - S.p)
    exact hrows q hq (by rw [hp]; omega)
  intro n
  refine forUpTo_inv (J := fun n (S' : State X) => S'.p = S.p + n ∧
    (∀ q, S.p ≤ q → q < S'.p → RestRow P addr S.p q (S'.pols q)) ∧ ∀ q, S'.p ≤ q → S'.pols q = {})
    ⟨rfl, fun q hq hq' => absurd hq' (Nat.not_lt.mpr hq), h⟩ ?_
  rintro j - S' ⟨hp, hrows, hfresh⟩
  refine ⟨by rw [hp, Nat.add_assoc], fun q hq hq' => ?_, fun q hq => ?_⟩
  · dsimp only
    rcases Nat.lt_succ_iff_lt_or_eq.mp hq' with hq' | rfl
    · rw [Function.update_of_ne (Nat.ne_of_lt hq')]
      exact hrows q hq hq'
    · rw [Function.update_self, hfresh _ le_rfl, restRow]
      refine ⟨rfl, ?_, rfl, rfl, rfl⟩
      dsimp only
      cases P.restByte S.p S'.p <;> rfl
  · have hq' : S'.p + 1 ≤ q := hq
    dsimp only
    rw [Function.update_of_ne (by omega), hfresh q (by omega)]

/-! ## A whole run -/

section Run

variable {input prepared : List PaddingExecutorInput}

/-- The messages and the empty messages up to the number of blocks. -/
def allMessages (P : HashPadder X) (prepared : List PaddingExecutorInput) :
    List PaddingExecutorInput :=
  prepared ++
    List.replicate (P.nTotalBlocks - totalInputBytes prepared / P.bytesPerBlock) P.empty

/-- The messages have room. -/
structure Fits (P : HashPadder X) (prepared : List PaddingExecutorInput) : Prop where
  tooMany : P.tooMany (totalInputBytes prepared) = false
  blocks : totalInputBytes prepared / P.bytesPerBlock ≤ P.nTotalBlocks

theorem execute_eq (hprepare : P.prepareInput input = some prepared) (hfits : Fits P prepared) :
    P.execute input =
      P.execUnused prepared.length
        (forMessages P.execMessage 0 prepared ⟨0, fun _ => {}, []⟩) := by
  rw [execute, hprepare]
  exact if_neg (by rw [hfits.tooMany]; exact Bool.false_ne_true)

/-- The unused blocks, as a list of empty messages. -/
theorem unusedBlocks_wrote (hpos : 0 < P.bytesPerBlock) (addr n : ℕ) (S : State X) :
    Wrote S (forUpTo n (fun i => P.unusedBlock (addr + i)) S)
      (totalInputBytes (List.replicate n P.empty))
      ((List.replicate n P.empty).flatMap P.blocks) := by
  induction n with
  | zero => exact .refl S
  | succ n ih =>
    have hnext := ih.trans (unusedBlock_wrote hpos (addr + n) _)
    rw [List.replicate_succ', List.flatMap_append, List.flatMap_singleton, totalInputBytes,
      List.map_append, List.sum_append, List.map_singleton, List.sum_singleton]
    exact hnext

/-- The rows behind the messages leave them as they are. -/
theorem execUnused_wrote (hpos : 0 < P.bytesPerBlock) (hfits : Fits P prepared) {S : State X}
    (hp : S.p = totalInputBytes prepared) (hrequired : S.required = prepared.flatMap P.blocks) :
    ∃ S', P.execUnused prepared.length S = some S' ∧
      S'.required = (allMessages P prepared).flatMap P.blocks ∧
      ∀ q < S.p, S'.pols q = S.pols q := by
  rw [execUnused, if_neg (by rw [hp]; exact Nat.not_lt.mpr hfits.blocks)]
  have hunused := unusedBlocks_wrote hpos prepared.length
    (P.nTotalBlocks - S.p / P.bytesPerBlock) S
  have hrest := hunused.trans (execRest_wrote (P := P) (prepared.length +
    (P.nTotalBlocks - S.p / P.bytesPerBlock)) _)
  refine ⟨_, rfl, ?_, hrest.before⟩
  rw [hrest.required, hrequired, List.append_nil, allMessages, List.flatMap_append, hp]

variable (hP : Lawful P) (hpad : ∀ i ∈ prepared, Padded P.bytesPerBlock i)
  (hclose : ∀ i ∈ prepared, Closing P i)
include hP hpad hclose

/-- The blocks that are handed over, and the rows of the messages. -/
theorem execute_spec (hprepare : P.prepareInput input = some prepared) (hfits : Fits P prepared) :
    ∃ S, P.execute input = some S ∧ S.required = (allMessages P prepared).flatMap P.blocks ∧
      ∀ (i : ℕ) (hi : i < prepared.length),
        HashMessage P prepared[i] (messageStart prepared i) S.pols := by
  obtain ⟨-, hwrote, hmsgs⟩ := forMessages_spec P.execMessage (HashReady P)
    (fun i _ base pols => HashMessage P i base pols) P.blocks 0
    (fun i hi addr S hS => execMessage_spec hP.pos (hpad i hi) (hclose i hi) addr hS)
    (fun i _ base pols pols' heq h => h.congr heq)
    (⟨Nat.zero_mod _, ⟨fun _ => 0, rfl⟩, fun _ _ => rfl⟩ : HashReady P ⟨0, fun _ => {}, []⟩)
  have hp := hwrote.p
  rw [execute_eq hprepare hfits]
  generalize forMessages P.execMessage 0 prepared ⟨0, fun _ => {}, []⟩ = S at *
  rw [Nat.zero_add] at hp
  obtain ⟨S', hS', hrequired, hbefore⟩ := execUnused_wrote hP.pos hfits hp hwrote.required
  refine ⟨S', hS', hrequired, fun i hi => ?_⟩
  have hmsg := hmsgs i hi
  rw [Nat.zero_add] at hmsg
  refine hmsg.congr fun q hq => hbefore q ?_
  rw [← messageStart_succ prepared hi] at hq
  exact hp ▸ hq.trans_le (messageStart_le prepared (i + 1))

/-- The whole table, for messages whose reads end with them: the messages, empty messages up to the
number of blocks, and rows that belong to no block. -/
theorem execute_reads (hprepare : P.prepareInput input = some prepared) (hfits : Fits P prepared)
    (htile : ∀ i ∈ prepared, Tiling i.reads i.realLen ∧ i.realLen ≤ i.dataBytes.length) :
    ∃ S, P.execute input = some S ∧ S.required = (allMessages P prepared).flatMap P.blocks ∧
      (∀ (i : ℕ) (hi : i < (allMessages P prepared).length),
        ReadMessage P (allMessages P prepared)[i] i (messageStart (allMessages P prepared) i)
          S.pols) ∧
      ∀ q, totalInputBytes (allMessages P prepared) ≤ q → q < PaddingHash.N →
        RestRow P (allMessages P prepared).length (totalInputBytes (allMessages P prepared)) q
          (S.pols q) := by
  obtain ⟨hready, hwrote, hmsgs⟩ := forMessages_spec P.execMessage (ReadReady P)
    (fun i addr base pols => ReadMessage P i addr base pols) P.blocks 0
    (fun i hi addr S hS =>
      execMessage_reads hP.pos (hpad i hi) (hclose i hi) addr hS (htile i hi).1 (htile i hi).2)
    (fun i _ base pols pols' heq h => h.congr heq)
    (⟨Nat.zero_mod _, fun _ _ => rfl⟩ : ReadReady P ⟨0, fun _ => {}, []⟩)
  have hp := hwrote.p
  have hrequired := hwrote.required
  rw [execute_eq hprepare hfits]
  generalize forMessages P.execMessage 0 prepared ⟨0, fun _ => {}, []⟩ = S at *
  rw [Nat.zero_add] at hp
  rw [List.nil_append] at hrequired
  rw [execUnused, if_neg (by rw [hp]; exact Nat.not_lt.mpr hfits.blocks), hp]
  unfold allMessages
  dsimp only
  generalize P.nTotalBlocks - totalInputBytes prepared / P.bytesPerBlock = n
  obtain ⟨hready', hwrote', hmsgs'⟩ := forMessages_spec (fun _ => P.unusedBlock) (ReadReady P)
    (fun i addr base pols => ReadMessage P i addr base pols) P.blocks prepared.length
    (fun i (hi : i ∈ List.replicate n P.empty) addr S hS => by
      obtain rfl := (List.mem_replicate.mp hi).2
      obtain ⟨hready, hmsg⟩ := unusedBlock_spec hP addr hS
      exact ⟨hready, unusedBlock_wrote hP.pos addr S, hmsg⟩)
    (fun i _ base pols pols' heq h => h.congr heq) hready
  rw [forMessages_replicate] at hready' hwrote' hmsgs'
  have hp' := hwrote'.p
  have hrequired' := hwrote'.required
  have hrest := execRest_wrote (P := P) (prepared.length + n)
    (forUpTo n (fun i => P.unusedBlock (prepared.length + i)) S)
  refine ⟨_, rfl, ?_, ?_, fun q hq hN => ?_⟩
  · rw [hrest.required, hrequired', hrequired, List.append_nil, List.flatMap_append]
  · refine forall_append_replicate (P := fun i addr base => ReadMessage P i addr base _)
      (fun i hi => ?_) fun k hk => ?_
    · have hmsg := hmsgs i hi
      rw [Nat.zero_add, Nat.zero_add] at hmsg
      refine hmsg.congr fun q hq => ?_
      rw [← messageStart_succ prepared hi] at hq
      have hle := messageStart_le prepared (i + 1)
      rw [hrest.before q (by omega), hwrote'.before q (by omega)]
    · have hk' : k < (List.replicate n P.empty).length := by rwa [List.length_replicate]
      have hmsg := hmsgs' k hk'
      rw [hp, List.getElem_replicate, messageStart_replicate _ hk.le] at hmsg
      refine hmsg.congr fun q hq => hrest.before q ?_
      have hle := messageStart_le (List.replicate n P.empty) (k + 1)
      rw [messageStart_replicate _ (show k + 1 ≤ n by omega), Nat.mul_succ] at hle
      omega
  · rw [List.length_append, List.length_replicate]
    rw [totalInputBytes_append] at hq ⊢
    rw [← hp, ← hp'] at hq ⊢
    exact execRest_rows (prepared.length + n) hready'.fresh q hq hN

end Run

end HashPadder

end ZkevmProver
