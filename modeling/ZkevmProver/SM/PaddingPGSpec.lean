import ZkevmProver.SM.PaddingPG

/-!
# What the Poseidon padding executor writes

The elements of a block and the chain of hashes of a message, and the rows that the executor writes
for it.

  1. Seven bytes in an element.
  2. The chain of hashes.
  3. The rows of a message.
  4. The rows of a list of messages.
-/

namespace ZkevmProver

open BigEndian Loops

/-! ## Seven bytes in an element -/

/-- Element `f` of a string of bytes, lowest byte first, when `j` bytes have been read. -/
def element (bytes : List UInt8) (j f : ℕ) : Fe :=
  fromU64 (value (slice bytes (7 * f) (min j (7 * f + 7))).reverse)

section Element

variable {bytes : List UInt8} {j f : ℕ}

theorem element_of_le (h : j ≤ 7 * f) : element bytes j f = 0 := by
  have hnil : slice bytes (7 * f) (min j (7 * f + 7)) = [] := by
    rw [slice, List.drop_eq_nil_iff, List.length_take]
    omega
  rw [element, hnil]
  rfl

theorem element_of_ge (h : 7 * f + 7 ≤ j) : element bytes j f = element bytes (7 * f + 7) f := by
  rw [element, element, Nat.min_eq_right h, Nat.min_self]

theorem value_lt_prime {xs : List UInt8} (h : xs.length ≤ 7) : value xs < goldilocksPrime :=
  (value_lt xs).trans_le ((Nat.pow_le_pow_right (by decide) h).trans (by decide))

/-- The value of an element with a byte more. -/
theorem value_slice_succ (hj : j < bytes.length) :
    value (slice bytes (7 * (j / 7)) (j + 1)).reverse =
      value (slice bytes (7 * (j / 7)) j).reverse + (bytes.getD j 0).toNat <<< (j % 7 * 8) := by
  have hle : 7 * (j / 7) ≤ j := Nat.mul_div_le j 7
  have hlen : j - 7 * (j / 7) = j % 7 := by omega
  have hpow : 256 ^ (j % 7) = 2 ^ (j % 7 * 8) := by rw [Nat.mul_comm, Nat.pow_mul]
  rw [slice_succ hle hj, List.reverse_append, List.reverse_singleton, List.singleton_append,
    value_cons, List.length_reverse, length_slice hj.le, hlen, hpow, Nat.shiftLeft_eq, Nat.add_comm]

theorem element_current : element bytes j (j / 7) =
    fromU64 (value (slice bytes (7 * (j / 7)) j).reverse) := by
  rw [element, Nat.min_eq_left (by omega)]

theorem toU64_element_current (hj : j < bytes.length) :
    toU64 (element bytes j (j / 7)) = value (slice bytes (7 * (j / 7)) j).reverse := by
  rw [element_current]
  refine toU64_fromU64 (value_lt_prime ?_)
  rw [List.length_reverse, length_slice hj.le]
  omega

/-- A byte goes to its own element. -/
theorem element_succ (hj : j < bytes.length) :
    element bytes (j + 1) f =
      if f = j / 7 then element bytes j f + fromU64 ((bytes.getD j 0).toNat <<< (j % 7 * 8))
      else element bytes j f := by
  split
  · next h =>
    rw [h, element_current, ← fromU64_add, ← value_slice_succ hj, element,
      Nat.min_eq_left (by omega)]
  · next h =>
    rcases Nat.lt_or_gt_of_ne h with h | h
    · rw [element_of_ge (j := j + 1) (by omega), element_of_ge (j := j) (by omega)]
    · rw [element_of_le (j := j + 1) (by omega), element_of_le (j := j) (by omega)]

/-- The executor sets the bits of the byte where `poseidonLinearHash` adds them. -/
theorem accNext_element (hj : j < bytes.length) :
    PaddingPGExecutor.accNext j (fromU64 (bytes.getD j 0).toNat)
        (fun k : Fin 8 => element bytes j (8 * (j / 56) + k)) =
      fun k : Fin 8 => element bytes (j + 1) (8 * (j / 56) + k) := by
  funext k
  have hk : 8 * (j / 56) + k = j / 7 ↔ (k : ℕ) = j % 56 / 7 := by omega
  have hbyte : toU64 (fromU64 (bytes.getD j 0).toNat) = (bytes.getD j 0).toNat :=
    toU64_fromU64 ((bytes.getD j 0).toNat_lt.trans (by decide))
  show (if (k : ℕ) = j % 56 / 7 then
      fromU64 (toU64 (element bytes j (8 * (j / 56) + k)) |||
        (toU64 (fromU64 (bytes.getD j 0).toNat) <<< (j % 7 * 8)))
    else element bytes j (8 * (j / 56) + k)) = element bytes (j + 1) (8 * (j / 56) + k)
  rw [element_succ hj, hbyte]
  by_cases h : (k : ℕ) = j % 56 / 7
  · have hlow : value (slice bytes (7 * (j / 7)) j).reverse < 2 ^ (j % 7 * 8) := by
      have hlt := value_lt (slice bytes (7 * (j / 7)) j).reverse
      have hlen : j - 7 * (j / 7) = j % 7 := by omega
      have hpow : 256 ^ (j % 7) = 2 ^ (j % 7 * 8) := by rw [Nat.mul_comm, Nat.pow_mul]
      rwa [List.length_reverse, length_slice hj.le, hlen, hpow] at hlt
    rw [if_pos h, if_pos (hk.mpr h), hk.mpr h, toU64_element_current hj, element_current,
      ← fromU64_add, Nat.lor_comm, Nat.shiftLeft_eq, Nat.mul_comm,
      ← Nat.two_pow_add_eq_or_of_lt hlow, Nat.add_comm]
  · rw [if_neg h, if_neg fun h' => h (hk.mp h')]

end Element

/-! ## The chain of hashes -/

section Chain

variable (poseidon : Node → Fea) (bytes : List UInt8)

/-- Block `b` under the hash of the blocks before. -/
def blockNode (b : ℕ) (prevHash : Fea) : Node :=
  PaddingPGExecutor.hashNode (fun k => element bytes (56 * b + 56) (8 * b + k)) prevHash

/-- The hash of the first blocks. -/
def hashChain : ℕ → Fea
  | 0 => 0
  | b + 1 => poseidon (blockNode bytes b (hashChain b))

end Chain

/-- The buffer of `poseidonLinearHash`. -/
theorem linearHashBuffer_eq (data : List UInt8) :
    linearHashBuffer data = element data data.length := by
  unfold linearHashBuffer
  refine forUpTo_inv (J := fun j buffer => buffer = element data j) ?_ ?_
  · funext f
    rw [element_of_le (Nat.zero_le _)]
  · rintro j hj _ rfl
    funext f
    rw [element_succ hj, Function.update_apply]
    split
    · next h => rw [h]
    · rfl

/-- The library hashes eight elements at a time, with the hash before as capacity. -/
def ChainsBlocks (poseidon : Node → Fea) (linear_hash : List Fe → Fea) : Prop :=
  ∀ blocks : List (Fea × Fea),
    linear_hash (blocks.flatMap fun b =>
        [b.1.fe0, b.1.fe1, b.1.fe2, b.1.fe3, b.2.fe0, b.2.fe1, b.2.fe2, b.2.fe3]) =
      blocks.foldl (fun h b => poseidon ⟨b.1, b.2, h⟩) 0

/-- `poseidonLinearHash` is the chain over all blocks. -/
theorem poseidonLinearHash_eq {poseidon : Node → Fea} {linear_hash : List Fe → Fea}
    (hchain : ChainsBlocks poseidon linear_hash) (data : List UInt8) {n : ℕ}
    (hn : (pad10 56 data).length = 56 * n) :
    poseidonLinearHash linear_hash data = hashChain poseidon (pad10 56 data) n := by
  unfold poseidonLinearHash
  generalize pad10 56 data = bytes at *
  let block (b : ℕ) : Fea × Fea :=
    ((blockNode bytes b 0).left, (blockNode bytes b 0).right)
  have hlist (m : ℕ) (hm : m ≤ n) :
      (List.range (8 * m)).map (element bytes bytes.length) =
        ((List.range m).map block).flatMap fun b =>
          [b.1.fe0, b.1.fe1, b.1.fe2, b.1.fe3, b.2.fe0, b.2.fe1, b.2.fe2, b.2.fe3] := by
    induction m with
    | zero => rfl
    | succ m ih =>
      have helem (k : ℕ) (hk : k < 8) :
          element bytes bytes.length (8 * m + k) = element bytes (56 * m + 56) (8 * m + k) := by
        rw [element_of_ge (by omega), element_of_ge (j := 56 * m + 56) (by omega)]
      rw [Nat.mul_succ, List.range_add, List.map_append, ih (by omega),
        List.range_succ (n := m), List.map_append, List.flatMap_append]
      congr 1
      have helem0 := helem 0 (by decide)
      rw [Nat.add_zero] at helem0
      simp [List.range_succ, block, blockNode, PaddingPGExecutor.hashNode, helem, helem0]
  have hfold (m : ℕ) : ((List.range m).map block).foldl
      (fun h b => poseidon ⟨b.1, b.2, h⟩) 0 = hashChain poseidon bytes m := by
    induction m with
    | zero => rfl
    | succ m ih =>
      rw [List.range_succ, List.map_append, List.foldl_append, ih]
      rfl
  have hsize : bytes.length / 7 = 8 * n := by omega
  dsimp only
  rw [linearHashBuffer_eq, hsize, hlist n le_rfl, hchain, hfold]

/-! ## The rows of a message -/

namespace PaddingPGExecutor

/-- The row at byte `j` closes the message, as the executor sees it. -/
def Closes (input : PaddingExecutorInput) (j : ℕ) : Prop :=
  j % 56 = 55 ∧ (toU64 (remAt input j) > 0xFFFF ∨ remAt input j = 0)

instance (input : PaddingExecutorInput) (j : ℕ) : Decidable (Closes input j) :=
  inferInstanceAs (Decidable (_ ∧ _))

/-- Row `j` of a message, apart from the columns that all machines have, and `curHash`. -/
structure PGRow (poseidon : Node → Fea) (input : PaddingExecutorInput) (j : ℕ)
    (row : PaddingPGRow) : Prop where
  incCounter : row.incCounter = fromU64 (j / 56 + 1)
  lastHashLen : row.lastHashLen = if Closes input j ∧ input.lenCalled then 1 else 0
  lastHashDigest : row.lastHashDigest = if Closes input j ∧ input.digestCalled then 1 else 0
  prevHash : row.prevHash = hashChain poseidon input.dataBytes (j / 56)

/-- The permutation of block `b`. -/
def blockInput (poseidon : Node → Fea) (bytes : List UInt8) (b : ℕ) : PoseidonGInput where
  node := blockNode bytes b (hashChain poseidon bytes b)
  hash := hashChain poseidon bytes (b + 1)
  permutation := fromU64 POSEIDONG_PERMUTATION4_ID

/-- The row that byte `j` finds: what the byte before left there. -/
def freshRow (poseidon : Node → Fea) (input : PaddingExecutorInput) (j : ℕ) (crV : Fin 8 → Fe) :
    PaddingPGRow where
  crV := crV
  incCounter := if j < input.dataBytes.length then fromU64 (j / 56 + 1) else 1
  acc := fun k => element input.dataBytes j (8 * (j / 56) + k)
  prevHash := if j < input.dataBytes.length then hashChain poseidon input.dataBytes (j / 56) else 0

/-- The rows from `base` on hold the first `j` bytes of a message, apart from its reads. -/
structure PGAt (poseidon : Node → Fea) (input : PaddingExecutorInput) (base j : ℕ)
    (S₀ : PaddingState PaddingPGRow PoseidonGInput)
    (S : PaddingState PaddingPGRow PoseidonGInput × ReadCursor) : Prop where
  p : S.1.p = base + j
  before : ∀ q < base, S.1.pols q = S₀.pols q
  rows : ∀ t < j, PGRow poseidon input t (S.1.pols (base + t))
  curHash : ∀ t < 56 * (j / 56),
    (S.1.pols (base + t)).curHash = hashChain poseidon input.dataBytes (t / 56 + 1)
  cur : ∃ crV, S.1.pols (base + j) = freshRow poseidon input j crV
  fresh : ∀ q, base + j < q → S.1.pols q = {}
  required : S.1.required =
    S₀.required ++ (List.range (j / 56)).map (blockInput poseidon input.dataBytes)

section Message

variable {poseidon : Node → Fea} {input : PaddingExecutorInput} {addr base j : ℕ}
  {S₀ : PaddingState PaddingPGRow PoseidonGInput}
  {S : PaddingState PaddingPGRow PoseidonGInput × ReadCursor}

/-- The row of byte `j` when it is complete, `curHash` apart. -/
def doneRow (input : PaddingExecutorInput) (addr j : ℕ)
    (S : PaddingState PaddingPGRow PoseidonGInput × ReadCursor) : PaddingPGRow :=
  { S.1.pols S.1.p with
    toPaddingRow :=
      (curRow input addr j S.1.p S.2 (S.1.pols (S.1.p - 1)).toPaddingRow (S.1.pols S.1.p)).2 }

/-- The hash of a block that ends at byte `j`. -/
def endHash (poseidon : Node → Fea) (input : PaddingExecutorInput) (addr j : ℕ)
    (S : PaddingState PaddingPGRow PoseidonGInput × ReadCursor) : Fea :=
  let row := doneRow input addr j S
  poseidon (hashNode (nextRow j row (S.1.pols (S.1.p + 1))).acc row.prevHash)

theorem execByte_eq : execByte poseidon input addr j S =
    (if j % 56 = 55 then
      (⟨S.1.p + 1,
        Function.update (setRows (Function.update S.1.pols S.1.p (doneRow input addr j S))
          (S.1.p + 1 - 56) 56 fun r => { r with curHash := endHash poseidon input addr j S })
          (S.1.p + 1) (nextBlock input j (endHash poseidon input addr j S) (doneRow input addr j S)
            (nextRow j (doneRow input addr j S) (S.1.pols (S.1.p + 1)))),
        S.1.required ++ [⟨hashNode (nextRow j (doneRow input addr j S) (S.1.pols (S.1.p + 1))).acc
          (doneRow input addr j S).prevHash, endHash poseidon input addr j S,
          fromU64 POSEIDONG_PERMUTATION4_ID⟩]⟩,
        (curRow input addr j S.1.p S.2 (S.1.pols (S.1.p - 1)).toPaddingRow (S.1.pols S.1.p)).1)
    else
      (⟨S.1.p + 1,
        Function.update (Function.update S.1.pols S.1.p (doneRow input addr j S)) (S.1.p + 1)
          (nextRow j (doneRow input addr j S) (S.1.pols (S.1.p + 1))), S.1.required⟩,
        (curRow input addr j S.1.p S.2 (S.1.pols (S.1.p - 1)).toPaddingRow (S.1.pols S.1.p)).1)) :=
  rfl

theorem execByte_p : (execByte poseidon input addr j S).1.p = S.1.p + 1 := by
  rw [execByte_eq]
  split <;> rfl

theorem execByte_cursor : (execByte poseidon input addr j S).2 =
    (curRow input addr j S.1.p S.2 (S.1.pols (S.1.p - 1)).toPaddingRow (S.1.pols S.1.p)).1 := by
  rw [execByte_eq]
  split <;> rfl

theorem execByte_next : (execByte poseidon input addr j S).1.pols (S.1.p + 1) =
    if j % 56 = 55 then
      nextBlock input j (endHash poseidon input addr j S) (doneRow input addr j S)
        (nextRow j (doneRow input addr j S) (S.1.pols (S.1.p + 1)))
    else nextRow j (doneRow input addr j S) (S.1.pols (S.1.p + 1)) := by
  rw [execByte_eq]
  split <;> exact Function.update_self ..

/-- The rows up to the one of byte `j`: the last byte of a block gives its hash to all of them. -/
theorem execByte_done {q : ℕ} (hq : q ≠ S.1.p + 1) :
    (execByte poseidon input addr j S).1.pols q =
      let row := Function.update S.1.pols S.1.p (doneRow input addr j S) q
      if j % 56 = 55 ∧ S.1.p + 1 - 56 ≤ q ∧ q < S.1.p + 1 - 56 + 56 then
        { row with curHash := endHash poseidon input addr j S }
      else row := by
  rw [execByte_eq]
  split
  · next h =>
    refine (Function.update_of_ne hq _ _).trans ?_
    simp only [h, true_and]
    rfl
  · next h =>
    refine (Function.update_of_ne hq _ _).trans ?_
    simp only [h, false_and, if_false]

theorem execByte_required : (execByte poseidon input addr j S).1.required =
    if j % 56 = 55 then
      S.1.required ++ [⟨hashNode (nextRow j (doneRow input addr j S) (S.1.pols (S.1.p + 1))).acc
        (doneRow input addr j S).prevHash, endHash poseidon input addr j S,
        fromU64 POSEIDONG_PERMUTATION4_ID⟩]
    else S.1.required := by
  rw [execByte_eq]
  split <;> rfl

theorem execByte_cols {q : ℕ} (hq : q ≠ S.1.p + 1) :
    ((execByte poseidon input addr j S).1.pols q).toPaddingRow =
      (Function.update S.1.pols S.1.p (doneRow input addr j S) q).toPaddingRow := by
  rw [execByte_done hq]
  dsimp only
  split <;> rfl

theorem PGRow.withHash {row : PaddingPGRow} (h : PGRow poseidon input j row) (hash : Fea) :
    PGRow poseidon input j { row with curHash := hash } :=
  ⟨h.incCounter, h.lastHashLen, h.lastHashDigest, h.prevHash⟩

theorem PGAt.execByte_row (h : PGAt poseidon input base j S₀ S) {t : ℕ} (ht : t < j)
    (hrow : PGRow poseidon input t (S.1.pols (base + t))) :
    PGRow poseidon input t ((execByte poseidon input addr j S).1.pols (base + t)) := by
  have hp := h.p
  rw [execByte_done (by omega), Function.update_of_ne (by omega)]
  dsimp only
  split
  · exact hrow.withHash _
  · exact hrow

variable (hj : j < input.dataBytes.length)
include hj

/-- The row of byte `j` is the one that the byte before left, with the columns of its own byte. -/
theorem PGAt.doneRow_eq (h : PGAt poseidon input base j S₀ S) (hbase : base % 56 = 0) :
    PGRow poseidon input j (doneRow input addr j S) ∧
      (doneRow input addr j S).freeIn = fromU64 (input.dataBytes.getD j 0).toNat ∧
      (doneRow input addr j S).acc =
        fun k : Fin 8 => element input.dataBytes j (8 * (j / 56) + k) := by
  obtain ⟨crV, hcur⟩ := h.cur
  have hp : S.1.p % 56 = j % 56 := by
    have := h.p
    omega
  rw [← h.p] at hcur
  have hlast : lastHash input j S.1.p (spare input j (S.1.pols S.1.p).toPaddingRow) =
      decide (Closes input j) := by
    have hspare : spare input j (S.1.pols S.1.p).toPaddingRow ≠ 0 ↔
        remAt input j ≠ 0 ∧ toU64 (remAt input j) > 0xFFFF := by
      have hzero : (freshRow poseidon input j crV).spare = 0 := rfl
      rw [hcur, spare, hzero, ite_ne_right_iff]
      exact and_iff_left (by decide)
    refine decide_eq_decide.mpr ?_
    show S.1.p % 56 = 55 ∧ (spare input j (S.1.pols S.1.p).toPaddingRow ≠ 0 ∨ remAt input j = 0) ↔
      Closes input j
    rw [hspare, hp]
    refine and_congr_right fun _ => ⟨?_, ?_⟩
    · exact Or.imp_left And.right
    · rcases eq_or_ne (remAt input j) 0 with h0 | h0
      · exact fun _ => .inr h0
      · exact Or.imp_left fun hbig => ⟨h0, hbig⟩
  refine ⟨⟨?_, ?_, ?_, ?_⟩, ?_, ?_⟩
  · show (S.1.pols S.1.p).incCounter = _
    rw [hcur]
    exact if_pos hj
  · show (if lastHash input j S.1.p (spare input j (S.1.pols S.1.p).toPaddingRow) && input.lenCalled
      then 1 else (S.1.pols S.1.p).lastHashLen) = _
    rw [hlast, hcur]
    simp [freshRow]
  · show (if lastHash input j S.1.p (spare input j (S.1.pols S.1.p).toPaddingRow) &&
      input.digestCalled then 1 else (S.1.pols S.1.p).lastHashDigest) = _
    rw [hlast, hcur]
    simp [freshRow]
  · show (S.1.pols S.1.p).prevHash = _
    rw [hcur]
    exact if_pos hj
  · rfl
  · show (S.1.pols S.1.p).acc = _
    rw [hcur]
    rfl

theorem PGAt.nextRow_acc (h : PGAt poseidon input base j S₀ S) (hbase : base % 56 = 0) :
    (nextRow j (doneRow input addr j S) (S.1.pols (S.1.p + 1))).acc =
      fun k : Fin 8 => element input.dataBytes (j + 1) (8 * (j / 56) + k) := by
  obtain ⟨-, hfree, hacc⟩ := h.doneRow_eq hj hbase
  show accNext j (doneRow input addr j S).freeIn (doneRow input addr j S).acc = _
  rw [hfree, hacc, accNext_element hj]

/-- The last byte of a block hashes the block. -/
theorem PGAt.endHash_eq (h : PGAt poseidon input base j S₀ S) (hbase : base % 56 = 0)
    (hlast : j % 56 = 55) :
    hashNode (nextRow j (doneRow input addr j S) (S.1.pols (S.1.p + 1))).acc
        (doneRow input addr j S).prevHash =
      blockNode input.dataBytes (j / 56) (hashChain poseidon input.dataBytes (j / 56)) := by
  obtain ⟨hrow, -, -⟩ := h.doneRow_eq hj hbase
  have hend : j + 1 = 56 * (j / 56) + 56 := by omega
  rw [h.nextRow_acc hj hbase, hrow.prevHash, blockNode, hend]

/-- What the row after byte `j` has: the next row of the block, or a fresh block or message. -/
theorem PGAt.next_eq (h : PGAt poseidon input base j S₀ S) (hbase : base % 56 = 0)
    (hblocks : input.dataBytes.length % 56 = 0) :
    ∃ crV, (execByte poseidon input addr j S).1.pols (S.1.p + 1) =
      freshRow poseidon input (j + 1) crV := by
  have hrow : PGRow poseidon input j (doneRow input addr j S) := (h.doneRow_eq hj hbase).1
  have hp := h.p
  have hnext := h.fresh (S.1.p + 1) (by omega)
  have hacc : (nextRow j (doneRow input addr j S) (S.1.pols (S.1.p + 1))).acc = _ :=
    h.nextRow_acc hj hbase
  have hhash (hlast : j % 56 = 55) : endHash poseidon input addr j S =
      hashChain poseidon input.dataBytes (j / 56 + 1) :=
    congrArg poseidon (h.endHash_eq hj hbase hlast)
  have hcounter := hrow.incCounter
  have hprev := hrow.prevHash
  rw [execByte_next]
  generalize doneRow input addr j S = row at *
  rw [hnext] at hacc ⊢
  refine ⟨(readNext row.toPaddingRow {}).crV, ?_⟩
  split
  · next hlast =>
    have hdiv : (j + 1) / 56 = j / 56 + 1 := by omega
    have hzero : (fun k : Fin 8 => element input.dataBytes (j + 1) (8 * ((j + 1) / 56) + k)) =
        fun _ => 0 := by
      funext k
      exact element_of_le (by omega)
    rw [hhash hlast, nextBlock, nextRow, readNext_eq, freshRow, hzero, hcounter, hdiv]
    by_cases hend : j = input.dataBytes.length - 1
    · rw [if_pos hend, if_pos hend, if_neg (by omega), if_neg (by omega)]
    · rw [if_neg hend, if_neg hend, if_pos (by omega), if_pos (by omega), fromU64_add (j / 56 + 1)]
      rfl
  · next hlast =>
    have hdiv : (j + 1) / 56 = j / 56 := by omega
    have hin : j + 1 < input.dataBytes.length := by omega
    have hrow' : nextRow j row {} =
        { readNext row.toPaddingRow {} with
          incCounter := row.incCounter
          acc := (nextRow j row {}).acc
          prevHash := row.prevHash
          curHash := 0 } := rfl
    rw [hrow', hacc, readNext_eq, freshRow, hcounter, hprev, hdiv, if_pos hin, if_pos hin]

/-- Byte `j` is written. -/
theorem PGAt.step (h : PGAt poseidon input base j S₀ S) (hbase : base % 56 = 0)
    (hblocks : input.dataBytes.length % 56 = 0) :
    PGAt poseidon input base (j + 1) S₀ (execByte poseidon input addr j S) := by
  have hp := h.p
  have hrow : PGRow poseidon input j (doneRow input addr j S) := (h.doneRow_eq hj hbase).1
  have hhash (hlast : j % 56 = 55) : endHash poseidon input addr j S =
      hashChain poseidon input.dataBytes (j / 56 + 1) :=
    congrArg poseidon (h.endHash_eq hj hbase hlast)
  refine ⟨by rw [execByte_p, hp, Nat.add_assoc], fun q hq => ?_, fun t ht => ?_, fun t ht => ?_, ?_,
    fun q hq => ?_, ?_⟩
  · rw [execByte_done (by omega), Function.update_of_ne (by omega), if_neg (by omega)]
    exact h.before q hq
  · rcases Nat.lt_succ_iff_lt_or_eq.mp ht with ht | rfl
    · exact h.execByte_row ht (h.rows t ht)
    · rw [← hp, execByte_done (by omega), Function.update_self]
      dsimp only
      split
      · exact hrow.withHash _
      · exact hrow
  · rw [execByte_done (by omega)]
    by_cases hlast : j % 56 = 55
    · by_cases hold : t < 56 * (j / 56)
      · rw [if_neg (by omega), Function.update_of_ne (by omega)]
        exact h.curHash t hold
      · have hdiv : t / 56 = j / 56 := by omega
        rw [if_pos (by omega), hdiv]
        exact hhash hlast
    · rw [if_neg (by omega), Function.update_of_ne (by omega)]
      exact h.curHash t (by omega)
  · rw [← Nat.add_assoc, ← hp]
    exact h.next_eq hj hbase hblocks
  · rw [execByte_done (by omega), Function.update_of_ne (by omega), if_neg (by omega)]
    exact h.fresh q (by omega)
  · rw [execByte_required, h.required]
    split
    · next hlast =>
      have hdiv : (j + 1) / 56 = j / 56 + 1 := by omega
      rw [hdiv, List.range_succ, List.map_append, List.append_assoc, h.endHash_eq hj hbase hlast,
        hhash hlast]
      rfl
    · next hlast =>
      have hdiv : (j + 1) / 56 = j / 56 := by omega
      rw [hdiv]

omit hj in
/-- The reads next to it. -/
theorem atByte_execByte (hp : S.1.p = base + j) (hj : j < input.dataBytes.length)
    (h : AtByte input addr base j (fun q => (S.1.pols q).toPaddingRow) S.2)
    (hsizes : ReadSizes input.reads) :
    AtByte input addr base (j + 1)
      (fun q => ((execByte poseidon input addr j S).1.pols q).toPaddingRow)
      (execByte poseidon input addr j S).2 := by
  rw [execByte_cursor, hp]
  refine h.step hsizes hj (byteCols_byteRow
    (spare input j (S.1.pols (base + j)).toPaddingRow)
    (lastHash input j (base + j) (spare input j (S.1.pols (base + j)).toPaddingRow))
    (S.1.pols (base + j)).toPaddingRow) rfl rfl ?_ ?_ ?_ fun q hq hq' => ?_
  · rw [← hp, execByte_cols (by omega), Function.update_self, doneRow]
    rfl
  · rw [← hp, execByte_next, execByte_cols (by omega), Function.update_self]
    split <;> rfl
  · rw [← hp, execByte_next]
    split <;> exact readNext_crF _ _
  · rw [execByte_cols (by omega), Function.update_of_ne (by omega)]

end Message

/-! ## The rows of a list of messages -/

/-- The rows of a message, from `base` on. -/
structure PGMessage (poseidon : Node → Fea) (input : PaddingExecutorInput) (base : ℕ)
    (pols : ℕ → PaddingPGRow) : Prop where
  rows : ∀ t < input.dataBytes.length, PGRow poseidon input t (pols (base + t))
  curHash : ∀ t < input.dataBytes.length,
    (pols (base + t)).curHash = hashChain poseidon input.dataBytes (t / 56 + 1)

/-- A whole number of blocks is written, and the next row starts a message. -/
structure PGReady (S : PaddingState PaddingPGRow PoseidonGInput) : Prop where
  blocks : S.p % 56 = 0
  cur : ∃ crV, S.pols S.p = { crV, incCounter := 1 }
  fresh : ∀ q, S.p < q → S.pols q = {}

/-- The permutations of a message. -/
def handed (poseidon : Node → Fea) (input : PaddingExecutorInput) : List PoseidonGInput :=
  (List.range (input.dataBytes.length / 56)).map (blockInput poseidon input.dataBytes)

section Messages

variable {poseidon : Node → Fea} {input : PaddingExecutorInput}
  {S : PaddingState PaddingPGRow PoseidonGInput}

theorem PGReady.pgAt (h : PGReady S) (hpad : Padded 56 input) :
    PGAt poseidon input S.p 0 S (S, {}) where
  p := rfl
  before _ _ := rfl
  rows _ ht := absurd ht (Nat.not_lt_zero _)
  curHash _ ht := absurd ht (Nat.not_lt_zero _)
  cur := by
    obtain ⟨crV, hcur⟩ := h.cur
    refine ⟨crV, ?_⟩
    have hzero : (fun k : Fin 8 => element input.dataBytes 0 (8 * (0 / 56) + k)) = fun _ => 0 := by
      funext k
      exact element_of_le (Nat.zero_le _)
    rw [Nat.add_zero, hcur, freshRow, hzero, if_pos hpad.pos, if_pos hpad.pos]
    rfl
  fresh := h.fresh
  required := (List.append_nil _).symm

theorem execMessage_at (h : PGReady S) (hpad : Padded 56 input) (addr : ℕ) :
    PGAt poseidon input S.p input.dataBytes.length S
      (forUpTo input.dataBytes.length (execByte poseidon input addr) (S, {})) :=
  forUpTo_inv (J := fun j S' => PGAt poseidon input S.p j S S') (h.pgAt hpad)
    fun _ hj _ h' => h'.step hj h.blocks hpad.blocks

/-- A message. -/
theorem execMessage_spec (h : PGReady S) (hpad : Padded 56 input) (addr : ℕ) :
    PGReady (execMessage poseidon input addr S) ∧
      Wrote S (execMessage poseidon input addr S) input.dataBytes.length (handed poseidon input) ∧
      PGMessage poseidon input S.p (execMessage poseidon input addr S).pols := by
  have hat : PGAt poseidon input S.p input.dataBytes.length S
      (forUpTo input.dataBytes.length (execByte poseidon input addr) (S, {})) :=
    execMessage_at h hpad addr
  have hblocks := hpad.blocks
  have hp : (execMessage poseidon input addr S).p = S.p + input.dataBytes.length := hat.p
  refine ⟨⟨?_, ?_, ?_⟩, ⟨hp, hat.before, hat.required⟩, hat.rows, fun t ht => hat.curHash t ?_⟩
  · have hS := h.blocks
    omega
  · obtain ⟨crV, hcur⟩ := hat.cur
    refine ⟨crV, ?_⟩
    have hzero : (fun k : Fin 8 => element input.dataBytes input.dataBytes.length
        (8 * (input.dataBytes.length / 56) + k)) = fun _ => 0 := by
      funext k
      exact element_of_le (by omega)
    rw [hp]
    refine hcur.trans ?_
    rw [freshRow, hzero, if_neg (Nat.lt_irrefl _), if_neg (Nat.lt_irrefl _)]
  · rw [hp]
    exact hat.fresh
  · omega

theorem PGMessage.congr {base : ℕ} {pols pols' : ℕ → PaddingPGRow}
    (heq : ∀ q < base + input.dataBytes.length, pols' q = pols q)
    (h : PGMessage poseidon input base pols) : PGMessage poseidon input base pols' where
  rows t ht := by
    rw [heq _ (by omega)]
    exact h.rows t ht
  curHash t ht := by
    rw [heq _ (by omega)]
    exact h.curHash t ht

theorem pgReady_init : PGReady init where
  blocks := rfl
  cur := ⟨fun _ => 0, rfl⟩
  fresh q hq := by
    show ({ incCounter := if q = 0 then 1 else 0 } : PaddingPGRow) = {}
    have hq' : q ≠ 0 := Nat.ne_of_gt hq
    rw [if_neg hq']

/-- All messages of a list. -/
theorem execMessages_spec (poseidon : Node → Fea) {input : List PaddingExecutorInput}
    (hpad : ∀ i ∈ input, Padded 56 i) :
    PGReady (forMessages (execMessage poseidon) 0 input init) ∧
      Wrote init (forMessages (execMessage poseidon) 0 input init) (totalInputBytes input)
        (input.flatMap (handed poseidon)) ∧
      ∀ (i : ℕ) (hi : i < input.length), PGMessage poseidon input[i] (messageStart input i)
        (forMessages (execMessage poseidon) 0 input init).pols := by
  have hspec := forMessages_spec (execMessage poseidon) PGReady
    (fun i _ base pols => PGMessage poseidon i base pols) (handed poseidon) 0
    (fun i hi addr S hS => execMessage_spec hS (hpad i hi) addr)
    (fun i _ base pols pols' heq h => h.congr heq) pgReady_init
  have hp : (init : PaddingState PaddingPGRow PoseidonGInput).p = 0 := rfl
  simpa only [hp, Nat.zero_add] using hspec

/-- The rows that are left leave the others as they are. -/
theorem unusedRows_wrote (hash : Fea) (addr bytesBlock n : ℕ)
    (S : PaddingState PaddingPGRow PoseidonGInput) :
    Wrote S (unusedRows hash addr bytesBlock n S) n [] := by
  unfold unusedRows
  exact forUpTo_inv (J := fun n (S' : PaddingState PaddingPGRow PoseidonGInput) => Wrote S S' n [])
    (.refl S) fun j _ S' h => h.trans (.row S' _)

theorem execUnused_before (poseidon : Node → Fea) (addr : ℕ)
    (S : PaddingState PaddingPGRow PoseidonGInput) :
    S.p ≤ (execUnused poseidon addr S).p ∧
      ∀ q < S.p, (execUnused poseidon addr S).pols q = S.pols q := by
  unfold execUnused
  refine forUpTo_inv (J := fun _ (S' : PaddingState PaddingPGRow PoseidonGInput) =>
    S.p ≤ S'.p ∧ ∀ q < S.p, S'.pols q = S.pols q) ⟨le_rfl, fun _ _ => rfl⟩ ?_
  rintro j - S' ⟨hle, heq⟩
  obtain ⟨hp, hbefore, -⟩ := unusedRows_wrote (poseidon (hashNode emptyAcc 0)) (addr + j)
    (if N - S'.p > bytesPerBlock then bytesPerBlock else N - S'.p)
    (if N - S'.p > bytesPerBlock then bytesPerBlock else N - S'.p) S'
  exact ⟨hle.trans (hp ▸ Nat.le_add_right _ _),
    fun q hq => (hbefore q (by omega)).trans (heq q hq)⟩

theorem prepareMessage_eq_some {keccak256 : List UInt8 → ℕ} {i : PaddingExecutorInput}
    (h : prepareMessage keccak256 i = some input) : ∃ bytes, messageBytes i = some bytes ∧
      input = { i with
        hash := keccak256 bytes
        realLen := bytes.length
        dataBytes := pad10 56 bytes } := by
  obtain ⟨bytes, hbytes, hinput⟩ := Option.bind_eq_some_iff.mp h
  exact ⟨bytes, hbytes, (Option.some_inj.mp hinput).symm⟩

theorem padded_of_prepareInput {keccak256 : List UInt8 → ℕ} {input prepared : List _}
    (h : prepareInput keccak256 input = some prepared) : ∀ i ∈ prepared, Padded 56 i := by
  have hall := mapM_eq_some.mp h
  clear h
  induction hall with
  | nil => exact fun i hi => absurd hi (List.not_mem_nil)
  | cons h _ ih =>
    rintro i (_ | ⟨_, hi⟩)
    · obtain ⟨bytes, -, rfl⟩ := prepareMessage_eq_some h
      obtain ⟨n, hn, -, -⟩ := pad10_blocks 56 (by decide) bytes
      have hlen : (pad10 56 bytes).length = 56 * (n + 1) := hn
      exact ⟨show 0 < (pad10 56 bytes).length by omega,
        show (pad10 56 bytes).length % 56 = 0 by omega⟩
    · exact ih i hi

/-- The executor on messages that fit. -/
theorem execute_eq_some {keccak256 : List UInt8 → ℕ} (poseidon : Node → Fea)
    {input prepared : List PaddingExecutorInput}
    (hprepare : prepareInput keccak256 input = some prepared)
    (hfit : totalInputBytes prepared ≤ N) :
    execute keccak256 poseidon input =
      some (execUnused poseidon prepared.length
        (forMessages (execMessage poseidon) 0 prepared init)) := by
  rw [execute, hprepare]
  exact if_neg (Nat.not_lt.mpr hfit)

/-- The blocks of a prepared list hold the messages of the list. -/
theorem prepareInput_getElem {keccak256 : List UInt8 → ℕ} {input prepared : List _}
    (h : prepareInput keccak256 input = some prepared) :
    ∃ hlen : input.length = prepared.length, ∀ (i : ℕ) (hi : i < input.length),
      prepareMessage keccak256 input[i] = some prepared[i] := by
  have hall := List.forall₂_iff_get.mp (mapM_eq_some.mp h)
  exact ⟨hall.1, fun i hi => hall.2 i hi (hall.1 ▸ hi)⟩

end Messages

end PaddingPGExecutor

/-- The two paths of the bytecode hash agree: on the rows of the last block of every message,
`curHash` is the linear hash of the message. -/
theorem curHash_eq_poseidonLinearHash (keccak256 : List UInt8 → ℕ) {poseidon : Node → Fea}
    {linear_hash : List Fe → Fea} (hchain : ChainsBlocks poseidon linear_hash)
    {input prepared : List PaddingExecutorInput}
    (hprepare : PaddingPGExecutor.prepareInput keccak256 input = some prepared)
    (hfit : totalInputBytes prepared ≤ PaddingPGExecutor.N) :
    ∃ S, PaddingPGExecutor.execute keccak256 poseidon input = some S ∧
      ∀ (i : ℕ) (hi : i < input.length) (bytes : List UInt8),
        PaddingPGExecutor.messageBytes input[i] = some bytes →
          ∀ t < 56, (S.pols (messageStart prepared (i + 1) - 56 + t)).curHash =
            poseidonLinearHash linear_hash bytes := by
  have hpad := PaddingPGExecutor.padded_of_prepareInput hprepare
  obtain ⟨-, hwrote, hmsgs⟩ := PaddingPGExecutor.execMessages_spec poseidon hpad
  obtain ⟨hlen, hget⟩ := PaddingPGExecutor.prepareInput_getElem hprepare
  refine ⟨_, PaddingPGExecutor.execute_eq_some poseidon hprepare hfit, fun i hi bytes hbytes t ht => ?_⟩
  have hi' : i < prepared.length := hlen ▸ hi
  obtain ⟨bytes', hbytes', hprep⟩ := PaddingPGExecutor.prepareMessage_eq_some (hget i hi)
  obtain rfl := Option.some_inj.mp (hbytes.symm.trans hbytes')
  have hdata : prepared[i].dataBytes = pad10 56 bytes := by rw [hprep]
  obtain ⟨n, hn, -, -⟩ := pad10_blocks 56 (by decide) bytes
  rw [← hdata] at hn
  have hstart := messageStart_succ prepared hi'
  have hlast : messageStart prepared (i + 1) - 56 + t = messageStart prepared i + (56 * n + t) := by
    omega
  have htotal := messageStart_le prepared (i + 1)
  have hdiv : (56 * n + t) / 56 + 1 = n + 1 := by omega
  have hp := hwrote.p
  have hzero : (PaddingPGExecutor.init).p = 0 := rfl
  rw [(PaddingPGExecutor.execUnused_before _ _ _).2 _ (by omega), hlast, (hmsgs i hi').curHash _ (by omega), hdiv, hdata,
    poseidonLinearHash_eq hchain bytes (hdata ▸ hn)]

/-- The chain as a function of the elements. -/
def chainElements (poseidon : Node → Fea) : Fea → List Fe → Fea
  | h, a :: b :: c :: d :: e :: f :: g :: i :: elements =>
    chainElements poseidon (poseidon ⟨⟨a, b, c, d⟩, ⟨e, f, g, i⟩, h⟩) elements
  | h, _ => h

theorem chainsBlocks_chainElements (poseidon : Node → Fea) :
    ChainsBlocks poseidon (chainElements poseidon 0) := by
  intro blocks
  generalize (0 : Fea) = h
  induction blocks generalizing h with
  | nil => rfl
  | cons b blocks ih => exact ih _

/-- An empty message. -/
theorem curHash_eq_poseidonLinearHash_empty :
    ∃ S, PaddingPGExecutor.execute (fun _ => 0) Node.right [{}] = some S ∧
      ∀ t < 56, (S.pols t).curHash = poseidonLinearHash (chainElements Node.right 0) [] := by
  have hprepare : PaddingPGExecutor.prepareInput (fun _ => 0) [{}] =
      some [{ dataBytes := pad10 56 [] }] := rfl
  obtain ⟨S, hS, hrows⟩ := curHash_eq_poseidonLinearHash (fun _ => 0)
    (chainsBlocks_chainElements Node.right) hprepare (by decide)
  refine ⟨S, hS, fun t ht => ?_⟩
  have hrow := hrows 0 (by decide) [] rfl t ht
  have hstart : messageStart [{ dataBytes := pad10 56 [] }] 1 = 56 := by decide
  rwa [hstart, Nat.sub_self, Nat.zero_add] at hrow

end ZkevmProver
