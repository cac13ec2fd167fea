import ZkevmProver.Utils.ByteArray
import ZkevmProver.Utils.Scalar
import ZkevmProver.Lib.Loops
import Mathlib.Algebra.Group.Fin.Basic
import Mathlib.Data.Int.GCD
import Mathlib.Algebra.BigOperators.Group.List.Basic
import Mathlib.Data.List.GetD

/-!
# What the padding state machines share

The Keccak, SHA-256 and Poseidon padding executors walk through the bytes of every message, row by
row, and through the reads of the message with a cursor of their own.

  1. Messages.
  2. Rows, and the walk through the reads.
  3. What the walk through the reads writes.
-/

namespace ZkevmProver

open BigEndian

/-! ## Messages -/

/-- `PaddingKKExecutorInput`, `PaddingPGExecutorInput` and `PaddingSha256ExecutorInput`. -/
structure PaddingExecutorInput where
  data : List UInt8 := []
  dataBytes : List UInt8 := []
  realLen : ℕ := 0
  reads : List ℕ := []
  hash : ℕ := 0
  digestCalled : Bool := false
  lenCalled : Bool := false

/-- `while (bytes.size() % block != size) bytes.push_back(0)` -/
def pushZeros (block size : ℕ) (bytes : List UInt8) : List UInt8 :=
  bytes ++ List.replicate ((size + block - bytes.length % block) % block) 0

/-- A one, zeros up to a whole number of blocks, and a one at the other end of the last byte. -/
def pad10 (block : ℕ) (bytes : List UInt8) : List UInt8 :=
  let padded := pushZeros block 0 (bytes ++ [1])
  padded.set (padded.length - 1) (padded.getD (padded.length - 1) 0 ||| 0x80)

/-! ## Rows -/

/-- `fr.toS64`: elements above half the prime stand for negative numbers. -/
def toS64 (x : Fe) : ℤ :=
  if toU64 x ≤ goldilocksPrime / 2 then toU64 x else (toU64 x : ℤ) - goldilocksPrime

/-- `glp.inv` -/
def glpInv (x : Fe) : Fe := fromU64 (Nat.gcdA (toU64 x) goldilocksPrime % goldilocksPrime).toNat

/-- The columns that all padding state machines have. -/
structure PaddingRow where
  freeIn : Fe := 0
  len : Fe := 0
  addr : Fe := 0
  rem : Fe := 0
  remInv : Fe := 0
  spare : Fe := 0
  incCounter : Fe := 0
  lastHashLen : Fe := 0
  lastHashDigest : Fe := 0
  crLen : Fe := 0
  crOffset : Fe := 0
  crOffsetInv : Fe := 0
  crF : Fin 8 → Fe := fun _ => 0
  crV : Fin 8 → Fe := fun _ => 0

/-- `rem`: what is left of the message, negative in the padding. -/
def remAt (input : PaddingExecutorInput) (j : ℕ) : Fe := fromU64 input.realLen - fromU64 j

/-- What byte `j` of a message writes in the columns that all machines have, apart from the reads;
`lastHash` on the row that closes the message. -/
def byteRow (input : PaddingExecutorInput) (addr j : ℕ) (spare : Fe) (lastHash : Bool)
    (row : PaddingRow) : PaddingRow :=
  { row with
    freeIn := fromU64 (input.dataBytes.getD j 0).toNat
    len := fromU64 input.realLen
    addr := fromU64 addr
    rem := remAt input j
    remInv := if remAt input j ≠ 0 then glpInv (remAt input j) else row.remInv
    spare
    lastHashLen := if lastHash && input.lenCalled then 1 else row.lastHashLen
    lastHashDigest := if lastHash && input.digestCalled then 1 else row.lastHashDigest }

/-- The position in the list of reads. -/
structure ReadCursor where
  curRead : ℤ := -1
  lastOffset : ℕ := 0

/-- `reads[curRead]`, and one past the end. -/
def readLen (reads : List ℕ) (curRead : ℤ) : ℕ :=
  if curRead < reads.length then reads.getD curRead.toNat 0 else 1

/-- What a row says of the read that its byte belongs to. -/
def readRow (reads : List ℕ) (cursor : ReadCursor) (prev row : PaddingRow) :
    ReadCursor × PaddingRow :=
  let curRead := if cursor.lastOffset = 0 then cursor.curRead + 1 else cursor.curRead
  let crLen := if cursor.lastOffset = 0 then fromU64 (readLen reads curRead) else prev.crLen
  let crOffset := if cursor.lastOffset = 0 then crLen - 1 else prev.crOffset - 1
  let crAccI := toU64 crOffset / 4
  let crSh := toU64 crOffset % 4 * 8
  ({ curRead, lastOffset := toU64 crOffset },
    { row with
      crLen, crOffset
      crOffsetInv := if crOffset ≠ 0 then glpInv crOffset else row.crOffsetInv
      crF := fun k => if k = crAccI then fromU64 (1 <<< crSh) else row.crF k })

/-- What a row leaves to the next one of the read: its value so far. -/
def readNext (row next : PaddingRow) : PaddingRow :=
  let crAccI := toU64 row.crOffset / 4
  let crSh := toU64 row.crOffset % 4 * 8
  if row.crOffset ≠ 0 then
    { next with
      crV := fun k =>
        if k = crAccI then fromU64 (toU64 (row.crV k) + toU64 row.freeIn <<< crSh) else row.crV k }
  else next

/-- Only the value so far goes to the next row. -/
theorem readNext_eq (row next : PaddingRow) :
    readNext row next = { next with crV := (readNext row next).crV } := by
  unfold readNext
  split <;> rfl

theorem readNext_crF (row next : PaddingRow) : (readNext row next).crF = next.crF := by
  rw [readNext_eq]

/-- A run of a padding executor over rows `ρ`, for a state machine that is handed `β`s. -/
structure PaddingState (ρ β : Type) where
  /-- The row to write. -/
  p : ℕ := 0
  pols : ℕ → ρ
  required : List β := []

/-- The messages of a list, each with the next address. -/
def forMessages {σ : Type} (exec : PaddingExecutorInput → ℕ → σ → σ) :
    ℕ → List PaddingExecutorInput → σ → σ
  | _, [], S => S
  | addr, input :: inputs, S => forMessages exec (addr + 1) inputs (exec input addr S)

/-- The rows that messages take, one for each byte. -/
def totalInputBytes (input : List PaddingExecutorInput) : ℕ :=
  (input.map fun i => i.dataBytes.length).sum

/-! ## What the walk through the reads writes -/

theorem fromU64_add (m n : ℕ) : fromU64 (m + n) = fromU64 m + fromU64 n := by
  apply Fin.ext
  simp [fromU64, Fin.val_add]

theorem fromU64_mul (m n : ℕ) : fromU64 (m * n) = fromU64 m * fromU64 n := by
  apply Fin.ext
  simp [fromU64, Fin.val_mul, Nat.mul_mod]

theorem fromU64_sub {m n : ℕ} (h : n ≤ m) : fromU64 (m - n) = fromU64 m - fromU64 n := by
  obtain ⟨d, rfl⟩ := Nat.exists_eq_add_of_le' h
  rw [Nat.add_sub_cancel, fromU64_add]
  exact (add_sub_cancel_right (fromU64 d) (fromU64 n)).symm

/-- The length of read `c`; one past the end of the list. -/
def readSize (reads : List ℕ) (c : ℕ) : ℕ := reads.getD c 1

/-- The position at which read `c` starts. -/
def readStart (reads : List ℕ) : ℕ → ℕ
  | 0 => 0
  | c + 1 => readStart reads c + readSize reads c

theorem readStart_succ (reads : List ℕ) (c : ℕ) :
    readStart reads (c + 1) = readStart reads c + readSize reads c := rfl

theorem readLen_eq (reads : List ℕ) (c : ℕ) : readLen reads c = readSize reads c := by
  unfold readLen readSize
  by_cases h : c < reads.length
  · rw [if_pos (by exact_mod_cast h), Int.toNat_natCast, List.getD_eq_getElem _ _ h,
      List.getD_eq_getElem _ _ h]
  · rw [if_neg (by exact_mod_cast h), List.getD_eq_default _ _ (Nat.not_lt.mp h)]

theorem readStart_mono (reads : List ℕ) {c c' : ℕ} (h : c ≤ c') :
    readStart reads c ≤ readStart reads c' := by
  induction c', h using Nat.le_induction with
  | base => exact le_rfl
  | succ c' _ ih => exact ih.trans (Nat.le_add_right _ _)

/-- A byte is in one read only. -/
theorem readStart_unique {reads : List ℕ} {j c c' : ℕ} (h : readStart reads c ≤ j)
    (h' : j < readStart reads (c + 1)) (hr : readStart reads c' ≤ j)
    (hr' : j < readStart reads (c' + 1)) : c = c' := by
  rcases Nat.lt_trichotomy c c' with hlt | heq | hlt
  · have hmono := readStart_mono reads (c := c + 1) hlt
    omega
  · exact heq
  · have hmono := readStart_mono reads (c := c' + 1) hlt
    omega

/-- Every read has 1 to 32 bytes. -/
def ReadSizes (reads : List ℕ) : Prop := ∀ r ∈ reads, 1 ≤ r ∧ r ≤ 32

theorem ReadSizes.readSize {reads : List ℕ} (h : ReadSizes reads) (c : ℕ) :
    1 ≤ readSize reads c ∧ readSize reads c ≤ 32 := by
  unfold ZkevmProver.readSize
  by_cases hc : c < reads.length
  · rw [List.getD_eq_getElem _ _ hc]
    exact h _ (List.getElem_mem hc)
  · rw [List.getD_eq_default _ _ (Nat.not_lt.mp hc)]
    decide

/-- The bytes from `i` up to `j`. -/
def slice (bytes : List UInt8) (i j : ℕ) : List UInt8 := (bytes.take j).drop i

theorem slice_self (bytes : List UInt8) (i : ℕ) : slice bytes i i = [] := by
  rw [slice, List.drop_eq_nil_iff, List.length_take]
  omega

theorem slice_succ {bytes : List UInt8} {i j : ℕ} (hij : i ≤ j) (hj : j < bytes.length) :
    slice bytes i (j + 1) = slice bytes i j ++ [bytes.getD j 0] := by
  unfold slice
  rw [List.take_succ_eq_append_getElem hj, List.getD_eq_getElem _ _ hj]
  exact List.drop_append_of_le_length (by rw [List.length_take]; omega)

theorem length_slice {bytes : List UInt8} {i j : ℕ} (hj : j ≤ bytes.length) :
    (slice bytes i j).length = j - i := by
  rw [slice, List.length_drop, List.length_take]
  omega

/-- Low bits that are zero leave room for others. -/
theorem shiftRight_add_low {m n v x : ℕ} (hx : x < 2 ^ m) (h : m ≤ n) :
    (2 ^ m * v + x) >>> n = (2 ^ m * v) >>> n := by
  obtain ⟨d, rfl⟩ := Nat.exists_eq_add_of_le h
  rw [Nat.shiftRight_add, Nat.shiftRight_add, Nat.shiftRight_eq_div_pow _ m,
    Nat.shiftRight_eq_div_pow _ m, Nat.mul_add_div (Nat.two_pow_pos m), Nat.div_eq_of_lt hx,
    Nat.mul_div_cancel_left _ (Nat.two_pow_pos m), Nat.add_zero]

theorem mod_add_low {m n v x : ℕ} (hx : x < 2 ^ m) (h : m ≤ n) :
    (2 ^ m * v + x) % 2 ^ n = 2 ^ m * v % 2 ^ n + x := by
  obtain ⟨d, rfl⟩ := Nat.exists_eq_add_of_le h
  have hmod : 2 ^ m * v % 2 ^ (m + d) = 2 ^ m * (v % 2 ^ d) := by
    rw [Nat.pow_add, Nat.mul_mod_mul_left]
  have hlt : 2 ^ m * (v % 2 ^ d) + x < 2 ^ (m + d) := by
    have hd : v % 2 ^ d + 1 ≤ 2 ^ d := Nat.mod_lt _ (Nat.two_pow_pos d)
    calc 2 ^ m * (v % 2 ^ d) + x < 2 ^ m * (v % 2 ^ d) + 2 ^ m := by omega
      _ = 2 ^ m * (v % 2 ^ d + 1) := by ring
      _ ≤ 2 ^ m * 2 ^ d := Nat.mul_le_mul_left _ hd
      _ = 2 ^ (m + d) := (Nat.pow_add _ _ _).symm
  rw [Nat.add_mod, hmod, Nat.mod_eq_of_lt (a := x)]
  · exact Nat.mod_eq_of_lt hlt
  · exact hx.trans_le (Nat.pow_le_pow_right (by decide) (by omega))

/-- A byte below the bytes that a number has already, limb by limb. -/
theorem limb_add_byte (v : ℕ) {b : ℕ} (o k : ℕ) (hb : b < 256) :
    limb (256 ^ (o + 1) * v + 256 ^ o * b) k =
      if k = o / 4 then fromU64 (toU64 (limb (256 ^ (o + 1) * v) k) + b <<< (o % 4 * 8))
      else limb (256 ^ (o + 1) * v) k := by
  have hpow (n : ℕ) : 256 ^ n = 2 ^ (8 * n) := by rw [Nat.pow_mul]
  have hlow : 2 ^ (8 * o) * b < 2 ^ (8 * (o + 1)) := by
    rw [Nat.mul_succ, Nat.pow_add]
    exact Nat.mul_lt_mul_of_pos_left hb (Nat.two_pow_pos _)
  rw [hpow, hpow]
  split
  · next hk =>
    -- the limb of the byte
    have hsplit : 8 * (o + 1) = 32 * k + 8 * (o % 4 + 1) := by omega
    have hsplit' : 8 * o = 32 * k + 8 * (o % 4) := by omega
    have hb' : 2 ^ (8 * (o % 4)) * b < 2 ^ (8 * (o % 4 + 1)) := by
      rw [Nat.mul_succ 8, Nat.pow_add]
      exact Nat.mul_lt_mul_of_pos_left hb (Nat.two_pow_pos _)
    have hdiv : (2 ^ (8 * (o + 1)) * v + 2 ^ (8 * o) * b) >>> (32 * k) =
        2 ^ (8 * (o % 4 + 1)) * v + 2 ^ (8 * (o % 4)) * b := by
      rw [Nat.shiftRight_eq_div_pow, hsplit, hsplit', Nat.pow_add, Nat.pow_add, Nat.mul_assoc,
        Nat.mul_assoc, ← Nat.mul_add, Nat.mul_div_cancel_left _ (Nat.two_pow_pos _)]
    have hdiv' : (2 ^ (8 * (o + 1)) * v) >>> (32 * k) = 2 ^ (8 * (o % 4 + 1)) * v := by
      rw [Nat.shiftRight_eq_div_pow, hsplit, Nat.pow_add, Nat.mul_assoc,
        Nat.mul_div_cancel_left _ (Nat.two_pow_pos _)]
    rw [toU64_limb, limb, hdiv, hdiv', mod_add_low hb' (by omega), Nat.shiftLeft_eq,
      Nat.mul_comm b, Nat.mul_comm (o % 4)]
  · next hk =>
    rcases Nat.lt_or_gt_of_ne hk with hk | hk
    · -- below the byte everything is zero
      have hzero (w : ℕ) : limb (2 ^ (8 * o) * w) k = 0 := by
        have hsplit : 8 * o = 32 * k + (32 + (8 * o - 32 * k - 32)) := by omega
        rw [limb, Nat.shiftRight_eq_div_pow, hsplit, Nat.pow_add, Nat.mul_assoc,
          Nat.mul_div_cancel_left _ (Nat.two_pow_pos _), Nat.pow_add, Nat.mul_assoc,
          Nat.mul_mod_right]
        rfl
      rw [Nat.mul_succ, Nat.pow_add, Nat.mul_assoc, ← Nat.mul_add, hzero, hzero]
    · rw [limb, limb, shiftRight_add_low hlow (by omega)]

section Reads

variable {reads : List ℕ} {bytes : List UInt8} {j : ℕ} {cursor : ReadCursor} {prev row : PaddingRow}

/-- Row `j` belongs to read `c`, has the size of the read and what is left of it, and with its byte
the limbs of the value that the read has so far. -/
structure ReadRow (reads : List ℕ) (bytes : List UInt8) (j c : ℕ) (row : PaddingRow) : Prop where
  start_le : readStart reads c ≤ j
  lt_end : j < readStart reads (c + 1)
  crLen : row.crLen = fromU64 (readSize reads c)
  crOffset : row.crOffset = fromU64 (readStart reads (c + 1) - 1 - j)
  crV : ∀ k : Fin 8, row.crV k + row.crF k * row.freeIn =
    limb (256 ^ (readStart reads (c + 1) - 1 - j) *
      value (slice bytes (readStart reads c) (j + 1))) k

/-- Before byte `j`, `n` reads have been taken up and `cursor.lastOffset` bytes of the last one are
left. -/
structure AtRead (reads : List ℕ) (bytes : List UInt8) (j n : ℕ) (cursor : ReadCursor)
    (prev : PaddingRow) (crV : Fin 8 → Fe) : Prop where
  curRead : cursor.curRead = n - 1
  start : j + cursor.lastOffset = readStart reads n
  fresh : cursor.lastOffset = 0 → crV = fun _ => 0
  within : cursor.lastOffset ≠ 0 → ∃ c, n = c + 1 ∧ readStart reads c < j ∧
    prev.crLen = fromU64 (readSize reads c) ∧ prev.crOffset = fromU64 cursor.lastOffset ∧
    ∀ k : Fin 8, crV k = limb (256 ^ cursor.lastOffset * value (slice bytes (readStart reads c) j)) k

/-- Before the first byte. -/
theorem atRead_zero : AtRead reads bytes 0 0 {} prev fun _ => 0 where
  curRead := rfl
  start := rfl
  fresh _ := rfl
  within h := absurd rfl h

theorem fromU64_succ_sub_one (o : ℕ) : fromU64 (o + 1) - 1 = fromU64 o :=
  (fromU64_sub (Nat.le_add_left 1 o)).symm

/-- The read that byte `j` belongs to, whether it starts there or before. -/
theorem AtRead.current {n : ℕ} (h : AtRead reads bytes j n cursor prev row.crV)
    (hsize : ReadSizes reads) :
    ∃ c o, readStart reads c ≤ j ∧ j + o + 1 = readStart reads (c + 1) ∧
      (readRow reads cursor prev row).1.curRead = c ∧
      (readRow reads cursor prev row).2.crLen = fromU64 (readSize reads c) ∧
      (readRow reads cursor prev row).2.crOffset = fromU64 o ∧
      ∀ k : Fin 8,
        row.crV k = limb (256 ^ (o + 1) * value (slice bytes (readStart reads c) j)) k := by
  by_cases h0 : cursor.lastOffset = 0
  · -- a new read
    have hstart : j = readStart reads n := by rw [← h.start, h0, Nat.add_zero]
    have hcur : cursor.curRead + 1 = (n : ℤ) := by
      rw [h.curRead]
      omega
    obtain ⟨o, ho⟩ := Nat.exists_eq_add_of_le' (hsize.readSize n).1
    refine ⟨n, o, hstart.ge, by rw [readStart_succ, ho]; omega, ?_, ?_, ?_, ?_⟩
    · simp only [readRow, h0, if_true]
      exact hcur
    · simp only [readRow, h0, if_true, hcur, readLen_eq]
    · simp only [readRow, h0, if_true, hcur, readLen_eq, ho, fromU64_succ_sub_one]
    · intro k
      rw [h.fresh h0, ← hstart, slice_self, value_nil, Nat.mul_zero, limb, Nat.zero_shiftRight,
        Nat.zero_mod]
      rfl
  · obtain ⟨c, rfl, hle, hlen, hoff, hcrV⟩ := h.within h0
    obtain ⟨o, ho⟩ := Nat.exists_eq_succ_of_ne_zero h0
    have hstart := h.start
    have hcur := h.curRead
    refine ⟨c, o, hle.le, by omega, ?_, ?_, ?_, ?_⟩
    · simp only [readRow, h0, if_false]
      omega
    · simp only [readRow, h0, if_false, hlen]
    · simp only [readRow, h0, if_false, hoff]
      rw [ho, fromU64_succ_sub_one]
    · intro k
      rw [hcrV k, ho]

/-- A byte. -/
theorem AtRead.step {n : ℕ} {next : PaddingRow} (h : AtRead reads bytes j n cursor prev row.crV)
    (hsize : ReadSizes reads) (hj : j < bytes.length)
    (hfree : row.freeIn = fromU64 (bytes.getD j 0).toNat) (hcrF : row.crF = fun _ => 0)
    (hnext : next.crV = fun _ => 0) :
    ∃ c, ReadRow reads bytes j c (readRow reads cursor prev row).2 ∧
      AtRead reads bytes (j + 1) (c + 1) (readRow reads cursor prev row).1
        (readRow reads cursor prev row).2 (readNext (readRow reads cursor prev row).2 next).crV := by
  obtain ⟨c, o, hle, hend, hcur, hlen, hoff, hcrV⟩ := h.current hsize
  have hcursor : (readRow reads cursor prev row).1.lastOffset =
      toU64 (readRow reads cursor prev row).2.crOffset := rfl
  have hcrF' : (readRow reads cursor prev row).2.crF = fun k : Fin 8 =>
      if (k : ℕ) = toU64 (readRow reads cursor prev row).2.crOffset / 4 then
        fromU64 (1 <<< (toU64 (readRow reads cursor prev row).2.crOffset % 4 * 8))
      else row.crF k := rfl
  have hcrV' : (readRow reads cursor prev row).2.crV = row.crV := rfl
  have hfree' : (readRow reads cursor prev row).2.freeIn = row.freeIn := rfl
  generalize readRow reads cursor prev row = r at *
  have hlt : o < goldilocksPrime := by
    have hle32 := (hsize.readSize c).2
    have hp : 32 < goldilocksPrime := by decide
    rw [readStart_succ] at hend
    omega
  have ho : toU64 r.2.crOffset = o := by rw [hoff, toU64_fromU64 hlt]
  have hb : (bytes.getD j 0).toNat < 256 := (bytes.getD j 0).toNat_lt
  have hvalue : value (slice bytes (readStart reads c) (j + 1)) =
      256 * value (slice bytes (readStart reads c) j) + (bytes.getD j 0).toNat := by
    rw [slice_succ hle hj, value_concat, Nat.mul_comm]
  have hlimb (k : ℕ) : limb (256 ^ o * value (slice bytes (readStart reads c) (j + 1))) k =
      if k = o / 4 then
        fromU64 (toU64 (limb (256 ^ (o + 1) * value (slice bytes (readStart reads c) j)) k) +
          (bytes.getD j 0).toNat <<< (o % 4 * 8))
      else limb (256 ^ (o + 1) * value (slice bytes (readStart reads c) j)) k := by
    rw [hvalue, Nat.mul_add, ← Nat.mul_assoc, ← Nat.pow_succ, limb_add_byte _ o k hb]
  have hrest : readStart reads (c + 1) - 1 - j = o := by omega
  refine ⟨c, ⟨hle, by omega, hlen, by rw [hrest, hoff], fun k => ?_⟩, ?_⟩
  · rw [hrest, hlimb, hcrV', hcrV k, hcrF', hfree', hfree, ho]
    dsimp only
    split
    · next hk =>
      rw [fromU64_add, fromU64_toU64, Nat.shiftLeft_eq, Nat.shiftLeft_eq, Nat.one_mul,
        Nat.mul_comm _ (2 ^ _), fromU64_mul]
    · next hk =>
      rw [hcrF, Fin.zero_mul, Fin.add_zero]
  · refine ⟨by rw [hcur]; omega, by rw [hcursor, ho]; omega, fun h0 => ?_, fun h0 => ?_⟩
    · rw [hcursor, ho] at h0
      rw [readNext, if_neg (by rw [hoff, h0]; exact not_not.mpr rfl), hnext]
    · rw [hcursor, ho] at h0 ⊢
      have hne : r.2.crOffset ≠ 0 := by
        intro hz
        rw [hz] at ho
        exact h0 ho.symm
      refine ⟨c, rfl, by omega, hlen, hoff, fun k => ?_⟩
      have hbyte : toU64 (fromU64 (bytes.getD j 0).toNat) = (bytes.getD j 0).toNat :=
        toU64_fromU64 (hb.trans (by decide))
      simp only [readNext, if_pos hne, ho, hcrV', hcrV k, hfree', hfree, hbyte]
      exact (hlimb k).symm

/-- Where a read ends, none is left open. -/
theorem AtRead.lastOffset_eq_zero {n c : ℕ} {crV : Fin 8 → Fe}
    (h : AtRead reads bytes j n cursor prev crV) (hc : readStart reads c = j) :
    cursor.lastOffset = 0 := by
  by_contra h0
  obtain ⟨c', rfl, hlt, -⟩ := h.within h0
  have hend := h.start
  rcases Nat.lt_or_ge c' c with hcc | hcc
  · have hmono := readStart_mono reads (c := c' + 1) hcc
    omega
  · have hmono := readStart_mono reads hcc
    omega

theorem readStart_nil (c : ℕ) : readStart [] c = c := by
  induction c with
  | zero => rfl
  | succ c ih => rw [readStart_succ, ih]; rfl

/-- A row that reads its own byte only. -/
theorem readRow_nil (hj : j < bytes.length) (hfree : row.freeIn = fromU64 (bytes.getD j 0).toNat)
    (hcrLen : row.crLen = 1) (hcrOffset : row.crOffset = 0)
    (hcrF : row.crF = Function.update (fun _ => 0) 0 1) (hcrV : row.crV = fun _ => 0) :
    ReadRow [] bytes j j row := by
  have hrest : j + 1 - 1 - j = 0 := by omega
  refine ⟨by rw [readStart_nil], by rw [readStart_nil]; omega, hcrLen,
    by rw [readStart_nil, hrest, hcrOffset]; rfl, fun k => ?_⟩
  have hvalue : value ([] ++ [bytes.getD j 0]) = (bytes.getD j 0).toNat := by
    rw [value_concat, value_nil, Nat.zero_mul, Nat.zero_add]
  have hlt : (bytes.getD j 0).toNat < 256 := (bytes.getD j 0).toNat_lt
  rw [readStart_nil, readStart_nil, hrest, slice_succ le_rfl hj, slice_self, hvalue, Nat.pow_zero,
    Nat.one_mul, hcrV, hcrF, hfree, Fin.zero_add]
  rcases eq_or_ne k 0 with rfl | hk
  · have hlow : (bytes.getD j 0).toNat % 2 ^ 32 = (bytes.getD j 0).toNat :=
      Nat.mod_eq_of_lt (by omega)
    rw [Function.update_self, Fin.one_mul, limb]
    show _ = fromU64 ((bytes.getD j 0).toNat % 2 ^ 32)
    rw [hlow]
  · have hk' : 1 ≤ (k : ℕ) := Nat.one_le_iff_ne_zero.mpr fun h => hk (Fin.ext h)
    have hshift : (bytes.getD j 0).toNat >>> (32 * (k : ℕ)) = 0 := by
      rw [Nat.shiftRight_eq_div_pow]
      refine Nat.div_eq_of_lt (hlt.trans_le ?_)
      exact (Nat.pow_le_pow_right (by decide) (show 8 ≤ 32 * (k : ℕ) by omega) : 2 ^ 8 ≤ _)
    rw [Function.update_of_ne hk, Fin.zero_mul, limb, hshift]
    rfl

end Reads

/-! ## A message -/

/-- The columns that only depend on the byte. -/
structure ByteCols (input : PaddingExecutorInput) (addr j : ℕ) (row : PaddingRow) : Prop where
  freeIn : row.freeIn = fromU64 (input.dataBytes.getD j 0).toNat
  len : row.len = fromU64 input.realLen
  addr : row.addr = fromU64 addr
  rem : row.rem = remAt input j

/-- A row of a message, with the read that its byte belongs to. -/
structure MessageRow (input : PaddingExecutorInput) (addr j : ℕ) (row : PaddingRow) : Prop where
  cols : ByteCols input addr j row
  read : ∃ c, ReadRow input.reads input.dataBytes j c row

/-- The rows from `base` on hold the first `j` bytes of a message, and the next row is prepared. -/
structure AtByte (input : PaddingExecutorInput) (addr base j : ℕ) (cols : ℕ → PaddingRow)
    (cursor : ReadCursor) : Prop where
  rows : ∀ t < j, MessageRow input addr t (cols (base + t))
  read : ∃ n, AtRead input.reads input.dataBytes j n cursor (cols (base + j - 1))
    (cols (base + j)).crV
  crF : ∀ q, base + j ≤ q → (cols q).crF = fun _ => 0
  crV : ∀ q, base + j < q → (cols q).crV = fun _ => 0

section Message

variable {input : PaddingExecutorInput} {addr base j : ℕ} {cols cols' : ℕ → PaddingRow}
  {cursor : ReadCursor}

theorem atByte_zero (hcrF : ∀ q, base ≤ q → (cols q).crF = fun _ => 0)
    (hcrV : ∀ q, base ≤ q → (cols q).crV = fun _ => 0) : AtByte input addr base 0 cols {} where
  rows _ h := absurd h (Nat.not_lt_zero _)
  read := ⟨0, by rw [Nat.add_zero, hcrV base le_rfl]; exact atRead_zero⟩
  crF q hq := hcrF q hq
  crV q hq := hcrV q (Nat.le_of_lt hq)

theorem byteCols_byteRow (spare : Fe) (lastHash : Bool) (row : PaddingRow) :
    ByteCols input addr j (byteRow input addr j spare lastHash row) := ⟨rfl, rfl, rfl, rfl⟩

/-- Byte `j` is written: its own row is completed, the next one gets the value of its read, and the
others stay. -/
theorem AtByte.step {row : PaddingRow} (h : AtByte input addr base j cols cursor)
    (hsize : ReadSizes input.reads) (hj : j < input.dataBytes.length)
    (hcols : ByteCols input addr j row) (hcrF : row.crF = (cols (base + j)).crF)
    (hcrV : row.crV = (cols (base + j)).crV)
    (hcur : cols' (base + j) = (readRow input.reads cursor (cols (base + j - 1)) row).2)
    (hnextV : (cols' (base + j + 1)).crV =
      (readNext (cols' (base + j)) (cols (base + j + 1))).crV)
    (hnextF : (cols' (base + j + 1)).crF = (cols (base + j + 1)).crF)
    (hother : ∀ q, q ≠ base + j → q ≠ base + j + 1 → cols' q = cols q) :
    AtByte input addr base (j + 1) cols'
      (readRow input.reads cursor (cols (base + j - 1)) row).1 := by
  obtain ⟨n, hread⟩ := h.read
  rw [← hcrV] at hread
  obtain ⟨c, hrow, hread⟩ := hread.step hsize hj hcols.freeIn
    (hcrF.trans (h.crF _ le_rfl)) (h.crV (base + j + 1) (by omega))
  rw [← hcur] at hrow hread
  refine ⟨fun t ht => ?_, ⟨c + 1, ?_⟩, fun q hq => ?_, fun q hq => ?_⟩
  · rcases Nat.lt_succ_iff_lt_or_eq.mp ht with ht | rfl
    · rw [hother _ (by omega) (by omega)]
      exact h.rows t ht
    · refine ⟨?_, c, hrow⟩
      rw [hcur]
      exact ⟨hcols.freeIn, hcols.len, hcols.addr, hcols.rem⟩
  · rw [← hnextV] at hread
    exact hread
  · rcases Nat.eq_or_lt_of_le hq with rfl | hq
    · exact hnextF.trans (h.crF _ (by omega))
    · rw [hother _ (by omega) (by omega)]
      exact h.crF q (by omega)
  · rw [hother _ (by omega) (by omega)]
    exact h.crV q (by omega)

/-- At the end of a message whose reads end there as well. -/
theorem AtByte.crV_eq_zero {c : ℕ} (h : AtByte input addr base j cols cursor)
    (hc : readStart input.reads c = j) {q : ℕ} (hq : base + j ≤ q) :
    (cols q).crV = fun _ => 0 := by
  obtain ⟨n, hread⟩ := h.read
  rcases Nat.eq_or_lt_of_le hq with rfl | hq
  · exact hread.fresh (hread.lastOffset_eq_zero hc)
  · exact h.crV q hq

end Message

/-- A message that has been padded to blocks. -/
structure Padded (block : ℕ) (input : PaddingExecutorInput) : Prop where
  pos : 0 < input.dataBytes.length
  blocks : input.dataBytes.length % block = 0

/-! ## A list of messages -/

/-- The row at which message `i` starts. -/
def messageStart (input : List PaddingExecutorInput) (i : ℕ) : ℕ := totalInputBytes (input.take i)

theorem messageStart_succ (input : List PaddingExecutorInput) {i : ℕ} (hi : i < input.length) :
    messageStart input (i + 1) = messageStart input i + input[i].dataBytes.length := by
  rw [messageStart, messageStart, totalInputBytes, totalInputBytes,
    List.take_succ_eq_append_getElem hi, List.map_append, List.sum_append, List.map_singleton,
    List.sum_singleton]

theorem messageStart_le (input : List PaddingExecutorInput) (i : ℕ) :
    messageStart input i ≤ totalInputBytes input := by
  have h := congrArg totalInputBytes (List.take_append_drop i input)
  rw [totalInputBytes, List.map_append, List.sum_append] at h
  exact (Nat.le_add_right _ _).trans h.le

theorem totalInputBytes_append (xs ys : List PaddingExecutorInput) :
    totalInputBytes (xs ++ ys) = totalInputBytes xs + totalInputBytes ys := by
  rw [totalInputBytes, List.map_append, List.sum_append]
  rfl

theorem messageStart_append_left {xs : List PaddingExecutorInput} (ys : List PaddingExecutorInput)
    {i : ℕ} (hi : i ≤ xs.length) : messageStart (xs ++ ys) i = messageStart xs i := by
  rw [messageStart, List.take_append_of_le_length hi]
  rfl

theorem messageStart_append_right (xs ys : List PaddingExecutorInput) (k : ℕ) :
    messageStart (xs ++ ys) (xs.length + k) = totalInputBytes xs + messageStart ys k := by
  rw [messageStart, List.take_length_add_append, totalInputBytes_append]
  rfl

theorem messageStart_replicate (input : PaddingExecutorInput) {n k : ℕ} (hk : k ≤ n) :
    messageStart (List.replicate n input) k = input.dataBytes.length * k := by
  rw [messageStart, List.take_replicate, Nat.min_eq_left hk, totalInputBytes, List.map_replicate,
    List.sum_replicate_nat, Nat.mul_comm]

/-- What holds of the messages of a list and of copies of a message after them. -/
theorem forall_append_replicate {P : PaddingExecutorInput → ℕ → ℕ → Prop}
    {xs : List PaddingExecutorInput} {e : PaddingExecutorInput} {n : ℕ}
    (hxs : ∀ (i : ℕ) (hi : i < xs.length), P xs[i] i (messageStart xs i))
    (he : ∀ k < n, P e (xs.length + k) (totalInputBytes xs + e.dataBytes.length * k)) :
    ∀ (i : ℕ) (hi : i < (xs ++ List.replicate n e).length),
      P (xs ++ List.replicate n e)[i] i (messageStart (xs ++ List.replicate n e) i) := by
  intro i hi
  by_cases hi' : i < xs.length
  · rw [List.getElem_append_left hi', messageStart_append_left _ hi'.le]
    exact hxs i hi'
  · obtain ⟨k, rfl⟩ := Nat.exists_eq_add_of_le (Nat.not_lt.mp hi')
    have hk : k < n := by
      rw [List.length_append, List.length_replicate] at hi
      omega
    have hget : (xs ++ List.replicate n e)[xs.length + k] = e := by
      rw [List.getElem_append_right (Nat.le_add_right _ _), List.getElem_replicate]
    rw [hget, messageStart_append_right, messageStart_replicate e hk.le]
    exact he k hk

section Messages

variable {ρ β : Type}

/-- A piece of a run that completes `n` rows and hands over `required`. -/
structure Wrote (S S' : PaddingState ρ β) (n : ℕ) (required : List β) : Prop where
  p : S'.p = S.p + n
  before : ∀ q < S.p, S'.pols q = S.pols q
  required : S'.required = S.required ++ required

theorem Wrote.refl (S : PaddingState ρ β) : Wrote S S 0 [] :=
  ⟨rfl, fun _ _ => rfl, (List.append_nil _).symm⟩

theorem Wrote.trans {S S' S'' : PaddingState ρ β} {m n : ℕ} {r r' : List β}
    (h : Wrote S S' m r) (h' : Wrote S' S'' n r') : Wrote S S'' (m + n) (r ++ r') where
  p := by rw [h'.p, h.p, Nat.add_assoc]
  before q hq := by
    have hp := h.p
    rw [h'.before q (by omega), h.before q hq]
  required := by rw [h'.required, h.required, List.append_assoc]

/-- A row is written. -/
theorem Wrote.row (S : PaddingState ρ β) (row : ρ) :
    Wrote S { S with p := S.p + 1, pols := Function.update S.pols S.p row } 1 [] where
  p := rfl
  before _ hq := Function.update_of_ne (Nat.ne_of_lt hq) _ _
  required := (List.append_nil _).symm

variable (exec : PaddingExecutorInput → ℕ → PaddingState ρ β → PaddingState ρ β)
  (Ready : PaddingState ρ β → Prop) (P : PaddingExecutorInput → ℕ → ℕ → (ℕ → ρ) → Prop)
  (handed : PaddingExecutorInput → List β)

/-- The rule of a list of messages: `P` is what a message has in its rows, which the messages after
it do not touch. -/
theorem forMessages_spec (addr : ℕ) {input : List PaddingExecutorInput} {S : PaddingState ρ β}
    (hexec : ∀ i ∈ input, ∀ addr S, Ready S → Ready (exec i addr S) ∧
      Wrote S (exec i addr S) i.dataBytes.length (handed i) ∧ P i addr S.p (exec i addr S).pols)
    (hP : ∀ i addr base pols pols', (∀ q < base + i.dataBytes.length, pols' q = pols q) →
      P i addr base pols → P i addr base pols')
    (hS : Ready S) :
    Ready (forMessages exec addr input S) ∧
      Wrote S (forMessages exec addr input S) (totalInputBytes input) (input.flatMap handed) ∧
      ∀ (i : ℕ) (hi : i < input.length),
        P input[i] (addr + i) (S.p + messageStart input i) (forMessages exec addr input S).pols := by
  induction input generalizing addr S with
  | nil => exact ⟨hS, .refl S, fun i hi => absurd hi (Nat.not_lt_zero i)⟩
  | cons input inputs ih =>
    obtain ⟨hready, hwrote, hmsg⟩ := hexec input (List.mem_cons_self ..) addr S hS
    obtain ⟨hready', hwrote', hmsgs⟩ :=
      ih (addr + 1) (fun i hi => hexec i (List.mem_cons_of_mem _ hi)) hready
    refine ⟨hready', hwrote.trans hwrote', fun i hi => ?_⟩
    obtain _ | i := i
    · refine hP _ _ _ _ _ (fun q hq => hwrote'.before q ?_) hmsg
      rw [hwrote.p]
      exact hq
    · have hstart : S.p + messageStart (input :: inputs) (i + 1) =
          (exec input addr S).p + messageStart inputs i := by
        rw [hwrote.p, Nat.add_assoc]
        rfl
      have haddr : addr + (i + 1) = addr + 1 + i := by omega
      rw [hstart, haddr]
      exact hmsgs i (Nat.lt_of_succ_lt_succ hi)

theorem forMessages_append {σ : Type} (exec : PaddingExecutorInput → ℕ → σ → σ) (addr : ℕ)
    (xs ys : List PaddingExecutorInput) (S : σ) :
    forMessages exec addr (xs ++ ys) S =
      forMessages exec (addr + xs.length) ys (forMessages exec addr xs S) := by
  induction xs generalizing addr S with
  | nil => rfl
  | cons x xs ih =>
    rw [List.cons_append, forMessages, forMessages, ih, List.length_cons, Nat.add_assoc,
      Nat.add_comm 1]

/-- A loop that adds the same message again and again. -/
theorem forMessages_replicate {σ : Type} (exec : PaddingExecutorInput → ℕ → σ → σ) (addr n : ℕ)
    (input : PaddingExecutorInput) (S : σ) :
    forMessages exec addr (List.replicate n input) S =
      Loops.forUpTo n (fun i => exec input (addr + i)) S := by
  induction n with
  | zero => rfl
  | succ n ih =>
    rw [List.replicate_succ', forMessages_append, ih, List.length_replicate]
    rfl

end Messages

/-- The reads of a message: of 1 to 32 bytes each, one after the other. -/
structure Tiling (reads : List ℕ) (length : ℕ) : Prop where
  sizes : ReadSizes reads
  sum : reads.sum = length

theorem readStart_eq_sum {reads : List ℕ} {c : ℕ} (h : c ≤ reads.length) :
    readStart reads c = (reads.take c).sum := by
  induction c with
  | zero => rfl
  | succ c ih =>
    have hsize : readSize reads c = reads[c] := List.getD_eq_getElem _ _ h
    rw [readStart_succ, ih (by omega), hsize, List.take_succ_eq_append_getElem h, List.sum_append,
      List.sum_singleton]

/-- The padding is read byte by byte. -/
theorem Tiling.readStart {reads : List ℕ} {length : ℕ} (h : Tiling reads length) (n : ℕ) :
    readStart reads (reads.length + n) = length + n := by
  induction n with
  | zero => rw [Nat.add_zero, Nat.add_zero, readStart_eq_sum le_rfl, List.take_length, h.sum]
  | succ n ih =>
    have hsize : readSize reads (reads.length + n) = 1 :=
      List.getD_eq_default _ _ (Nat.le_add_right _ _)
    rw [← Nat.add_assoc, readStart_succ, ih, hsize, Nat.add_assoc]

/-! ## The padding -/

theorem length_pushZeros {block size : ℕ} (hblock : 0 < block) (hsize : size < block)
    (bytes : List UInt8) : (pushZeros block size bytes).length % block = size := by
  rw [pushZeros, List.length_append, List.length_replicate]
  have hmod := Nat.mod_lt bytes.length hblock
  have hdiv := Nat.div_add_mod bytes.length block
  generalize bytes.length = n at *
  have hsum : n + (size + block - n % block) % block =
      (size + block - n % block) % block + n % block + block * (n / block) := by omega
  rw [hsum, Nat.add_mul_mod_self_left, Nat.mod_add_mod, Nat.sub_add_cancel (by omega),
    Nat.add_mod_right, Nat.mod_eq_of_lt hsize]

theorem length_pushZeros_lt {block : ℕ} (hblock : 0 < block) (size : ℕ) (bytes : List UInt8) :
    (pushZeros block size bytes).length < bytes.length + block := by
  rw [pushZeros, List.length_append, List.length_replicate]
  have hmod := Nat.mod_lt (size + block - bytes.length % block) hblock
  omega

theorem le_length_pushZeros (block size : ℕ) (bytes : List UInt8) :
    bytes.length ≤ (pushZeros block size bytes).length := by
  rw [pushZeros, List.length_append]
  exact Nat.le_add_right _ _

theorem length_pad10 (block : ℕ) (bytes : List UInt8) :
    (pad10 block bytes).length = (pushZeros block 0 (bytes ++ [1])).length :=
  List.length_set ..

/-- Whole blocks, the last of which holds a byte of padding at least. -/
theorem pad10_blocks (block : ℕ) (hblock : 0 < block) (bytes : List UInt8) :
    ∃ n, (pad10 block bytes).length = block * (n + 1) ∧ block * n ≤ bytes.length ∧
      bytes.length < block * (n + 1) := by
  have hmod := length_pushZeros hblock hblock (bytes ++ [1])
  have hlt := length_pushZeros_lt hblock 0 (bytes ++ [1])
  have hle := le_length_pushZeros block 0 (bytes ++ [1])
  rw [← length_pad10] at hmod hlt hle
  rw [List.length_append, List.length_singleton] at hlt hle
  obtain ⟨m, hm⟩ := Nat.dvd_of_mod_eq_zero hmod
  obtain _ | n := m
  · omega
  · refine ⟨n, hm, ?_, by omega⟩
    rw [hm, Nat.mul_succ] at hlt
    omega

end ZkevmProver
