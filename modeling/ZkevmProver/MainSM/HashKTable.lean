import ZkevmProver.MainSM.HashKHistory
import ZkevmProver.SM.PaddingTables

/-!
# The Keccak operations in the table of `PaddingKKExecutor`

The main executor hands over one message for each address.  The table has the counterpart of an
operation if the reads of the message tile it there, and if its markers are set.

  1. The messages that are handed over.
  2. The reads of a message.
  3. The rows of a message in the table.
  4. Counterparts in the table.
-/

namespace ZkevmProver

open BigEndian MainExecutor

/-! ## The messages that are handed over -/

namespace MainExecutor

section Messages

theorem card_le_addresses {S : HashValues} {i : ℕ} (hrange : ∀ k < i, k ∈ S.keys)
    (hi : i < addresses S) : i < S.keys.card := by
  obtain ⟨k, hk, hki⟩ : ∃ k ∈ S.keys, i < k + 1 := Finset.lt_sup_iff.mp hi
  have hsub : insert k (Finset.range i) ⊆ S.keys := by
    intro j hj
    rcases Finset.mem_insert.mp hj with rfl | hj
    · exact hk
    · exact hrange j (Finset.mem_range.mp hj)
  have hcard := Finset.card_le_card hsub
  rw [Finset.card_insert_of_notMem (by rw [Finset.mem_range]; omega), Finset.card_range] at hcard
  omega

/-- The loop goes through all addresses up to the last one. -/
theorem paddingKKFrom_eq {S : HashValues} {i : ℕ} (hrange : ∀ k < i, k ∈ S.keys)
    (hi : i ≤ addresses S) : paddingKKFrom i S =
      (List.range' i (addresses S - i)).mapM fun i => paddingKKMessage (S.get i) := by
  generalize hn : addresses S - i = n
  induction n generalizing i S with
  | zero =>
    have hcard : ¬i < S.keys.card := fun h => absurd (lt_addresses h) (by omega)
    rw [paddingKKFrom, if_neg hcard]
    rfl
  | succ n ih =>
    have hlt : i < addresses S := by omega
    have hget (a : ℕ) : (S.set i (S.get i)).get a = S.get a := by
      rw [HashValues.get_set]
      split
      · next h => rw [h]
      · rfl
    have hsame : addresses (S.set i (S.get i)) = addresses S := by
      show (insert i S.keys).sup Nat.succ = _
      rw [Finset.sup_insert]
      exact Nat.max_eq_right hlt
    rw [paddingKKFrom, if_pos (card_le_addresses hrange hlt), List.range'_succ, List.mapM_cons,
      ih (S := S.set i (S.get i)) (fun k hk => ?_) (by omega) (by omega)]
    · simp only [hget]
    · rw [HashValues.mem_keys_set]
      rcases Nat.lt_succ_iff_lt_or_eq.mp hk with hk | rfl
      · exact .inr (hrange k hk)
      · exact .inl rfl

theorem paddingKK_eq (S : HashValues) : paddingKK S =
    (List.range (addresses S)).mapM fun i => paddingKKMessage (S.get i) := by
  rw [paddingKK, paddingKKFrom_eq (fun k hk => absurd hk (Nat.not_lt_zero k)) (Nat.zero_le _),
    Nat.sub_zero, List.range_eq_range']

end Messages

/-! ## The reads of a message -/

section Tile

variable {size : ℕ} {reads : ℕ → Option ℕ}

theorem tileReads_lt {p : ℕ} (h : p < size) : tileReads size reads p =
    (tileSize reads p :: (tileReads size reads (p + tileSize reads p)).1,
      (tileReads size reads (p + tileSize reads p)).2) := by
  rw [tileReads, if_pos h]

theorem tileReads_end (p : ℕ) :
    (tileReads size reads p).2 = p + (tileReads size reads p).1.sum := by
  induction p using tileReads.induct size reads with
  | case1 p h _ _ _ ih =>
    rw [tileReads_lt h, List.sum_cons, ih, Nat.add_assoc]
  | case2 p h => rw [tileReads, if_neg h]; rfl

theorem tileReads_sizes (hreads : ∀ p n, reads p = some n → n ≤ 32) (p : ℕ) :
    ReadSizes (tileReads size reads p).1 := by
  induction p using tileReads.induct size reads with
  | case1 p h _ _ _ ih =>
    rw [tileReads_lt h]
    intro r hr
    rcases List.mem_cons.mp hr with rfl | hr
    · refine ⟨tileSize_pos reads p, ?_⟩
      unfold tileSize
      dsimp only
      split
      · rcases hp : reads p with _ | n
        · exact Nat.zero_le _
        · exact hreads p n hp
      · decide
    · exact ih r hr
  | case2 p h =>
    rw [tileReads, if_neg h]
    exact fun r hr => absurd hr List.not_mem_nil

/-- Where reads do not overlap, each of them is found. -/
theorem tileReads_found (hpos : ∀ p n, reads p = some n → 0 < n)
    (hdisj : ∀ p n p' n', reads p = some n → reads p' = some n' → p < p' → p + n ≤ p')
    {y n : ℕ} (hy : reads y = some n) (hsize : y < size) (p : ℕ)
    (hbefore : ∀ q m, reads q = some m → q < p → q + m ≤ p) (hle : p ≤ y) :
    ∃ (c : ℕ) (hc : c < (tileReads size reads p).1.length),
      p + ((tileReads size reads p).1.take c).sum = y ∧ (tileReads size reads p).1[c] = n := by
  induction p using tileReads.induct size reads with
  | case1 p h _ _ _ ih =>
    rcases Nat.eq_or_lt_of_le hle with rfl | hlt
    · have hn : tileSize reads p = n := by
        unfold tileSize
        rw [hy]
        exact if_pos (hpos p n hy).ne'
      rw [tileReads_lt h]
      exact ⟨0, Nat.succ_pos _, rfl, hn⟩
    · have hnext : p + tileSize reads p ≤ y := by
        unfold tileSize
        dsimp only
        split
        · rcases hp : reads p with _ | m
          · exact hlt.le
          · exact hdisj p m y n hp hy hlt
        · exact hlt
      have hbefore' (q m : ℕ) (hq : reads q = some m) (hlt' : q < p + tileSize reads p) :
          q + m ≤ p + tileSize reads p := by
        rcases Nat.lt_trichotomy q p with hqp | rfl | hqp
        · exact (hbefore q m hq hqp).trans (Nat.le_add_right _ _)
        · unfold tileSize
          rw [hq]
          dsimp only [Option.getD_some]
          rw [if_pos (hpos q m hq).ne']
        · exfalso
          unfold tileSize at hlt'
          dsimp only at hlt'
          split at hlt'
          · next h0 =>
            rcases hp : reads p with _ | m'
            · rw [hp] at h0
              exact h0 rfl
            · rw [hp] at hlt'
              have := hdisj p m' q m hp hq hqp
              exact absurd hlt' (Nat.not_lt.mpr this)
          · omega
      obtain ⟨c, hc, hsum, hget⟩ := ih hbefore' hnext
      rw [tileReads_lt h]
      refine ⟨c + 1, Nat.succ_lt_succ hc, ?_, hget⟩
      rw [List.take_succ_cons, List.sum_cons, ← Nat.add_assoc, hsum]
  | case2 p h => exact absurd (hle.trans_lt hsize) h

end Tile

/-- The message of an address with its reads. -/
def messageInput (value : HashValue) : HashMessageInput where
  bytes := value.data
  reads := (tileReads value.data.length value.reads 0).1
  lenCalled := value.lenCalled
  digestCalled := value.digestCalled

theorem paddingKKMessage_some {value : HashValue} {h : PaddingExecutorInput}
    (hsome : paddingKKMessage value = some h) : h = (messageInput value).input ∧
      (tileReads value.data.length value.reads 0).1.sum = value.data.length := by
  obtain ⟨hend, hsome⟩ := Option.ite_none_left_eq_some.mp hsome
  have hend := not_ne_iff.mp hend
  rw [tileReads_end, Nat.zero_add] at hend
  exact ⟨(Option.some_inj.mp hsome).symm, hend⟩

/-- The messages that are handed over, and that their reads end with them. -/
theorem paddingKK_some {S : HashValues} {messages : List PaddingExecutorInput}
    (h : paddingKK S = some messages) :
    messages = ((List.range (addresses S)).map fun i => messageInput (S.get i)).map
        HashMessageInput.input ∧
      ∀ i < addresses S, (messageInput (S.get i)).reads.sum = (S.get i).data.length := by
  rw [paddingKK_eq, Loops.mapM_eq_some] at h
  suffices hall : ∀ is ms, List.Forall₂ (fun i m => paddingKKMessage (S.get i) = some m) is ms →
      ms = (is.map fun i => messageInput (S.get i)).map HashMessageInput.input ∧
        ∀ i ∈ is, (messageInput (S.get i)).reads.sum = (S.get i).data.length by
    obtain ⟨hmessages, hsum⟩ := hall _ _ h
    exact ⟨hmessages, fun i hi => hsum i (List.mem_range.mpr hi)⟩
  intro is ms hall
  induction hall with
  | nil => exact ⟨rfl, fun i hi => absurd hi List.not_mem_nil⟩
  | cons hi _ ih =>
    obtain ⟨hm, hsum⟩ := paddingKKMessage_some hi
    refine ⟨by rw [hm, ih.1]; rfl, fun i hi => ?_⟩
    rcases List.mem_cons.mp hi with rfl | hi
    · exact hsum
    · exact ih.2 i hi

end MainExecutor

/-! ## The rows of a message in the table -/

/-- The rows of all messages and those behind them. -/
structure HashKTable (keccak256 : List UInt8 → ℕ) (all : List HashMessageInput)
    (pols : ℕ → PaddingHashRow Unit) : Prop where
  total : HashMessageInput.total (multiRatePadding 136) all = 2376 * 136
  message : ∀ (i : ℕ) (hi : i < all.length),
    HashPadder.ReadMessage (PaddingKKExecutor.padder keccak256)
      (all[i].prepared (multiRatePadding 136) keccak256) i
      (HashMessageInput.start (multiRatePadding 136) all i) pols
  rest : ∀ q, 2376 * 136 ≤ q → q < PaddingHash.N → (pols q).addr = fromU64 all.length

section Table

open HashMessageInput

variable {keccak256 : List UInt8 → ℕ} {all : List HashMessageInput}
  {pols : ℕ → PaddingHashRow Unit}

/-- A row of the messages is one of a message. -/
theorem exists_row (padding : ℕ → List UInt8) {messages : List HashMessageInput} {q : ℕ}
    (hq : q < total padding messages) : ∃ (i : ℕ) (hi : i < messages.length),
      ∃ j < (messages[i].padded padding).length, q = start padding messages i + j := by
  induction messages generalizing q with
  | nil => exact absurd hq (Nat.not_lt_zero q)
  | cons m messages ih =>
    by_cases hm : q < (m.padded padding).length
    · exact ⟨0, Nat.succ_pos _, q, hm, (Nat.zero_add q).symm⟩
    · have hq : q < (m.padded padding).length + total padding messages := hq
      obtain ⟨i, hi, j, hj, hrow⟩ := ih (q := q - (m.padded padding).length) (by omega)
      refine ⟨i + 1, Nat.succ_lt_succ hi, j, hj, ?_⟩
      show q = (m.padded padding).length + start padding messages i + j
      omega

theorem length_padded (m : HashMessageInput) :
    (m.padded (multiRatePadding 136)).length = 136 * (m.bytes.length / 136 + 1) := by
  obtain ⟨n, hn, hle, hlt⟩ := pad10_blocks 136 (by decide) m.bytes
  have hlen : (m.padded (multiRatePadding 136)).length = 136 * (n + 1) := by
    rw [padded, ← pad10_eq (by decide), hn]
  have hcount : m.bytes.length / 136 = n := by omega
  rw [hlen, hcount]

theorem start_add_le (padding : ℕ → List UInt8) {messages : List HashMessageInput} {i : ℕ}
    (hi : i < messages.length) :
    start padding messages i + (messages[i].padded padding).length ≤ total padding messages := by
  induction messages generalizing i with
  | nil => exact absurd hi (Nat.not_lt_zero i)
  | cons m messages ih =>
    obtain _ | i := i
    · show 0 + (m.padded padding).length ≤ (m.padded padding).length + total padding messages
      omega
    · have hi' : i < messages.length := Nat.lt_of_succ_lt_succ hi
      have hstep := ih hi'
      show (m.padded padding).length + start padding messages i +
        (messages[i].padded padding).length ≤ (m.padded padding).length + total padding messages
      omega

theorem HashKTable.length_le (h : HashKTable keccak256 all pols) : all.length ≤ 2376 := by
  have hle : all.length * 136 ≤ HashMessageInput.total (multiRatePadding 136) all := by
    have hsum := List.card_nsmul_le_sum
      (all.map fun m => (m.padded (multiRatePadding 136)).length) 136 (by
        intro x hx
        obtain ⟨m, -, rfl⟩ := List.mem_map.mp hx
        rw [length_padded]
        omega)
    rwa [List.length_map, nsmul_eq_mul, Nat.cast_id] at hsum
  rw [h.total] at hle
  omega

theorem fromU64_injective {m n : ℕ} (hm : m < 2 ^ 61) (hn : n < 2 ^ 61)
    (h : fromU64 m = fromU64 n) : m = n := by
  have hp : 2 ^ 61 < goldilocksPrime := by decide
  rw [← toU64_fromU64 (hm.trans hp), h, toU64_fromU64 (hn.trans hp)]

/-- A row with the address of a message is one of its rows. -/
theorem HashKTable.row (h : HashKTable keccak256 all pols) {a : ℕ} (ha : a < all.length) {q : ℕ}
    (hq : q < PaddingHash.N) (haddr : (pols q).addr = fromU64 a) :
    ∃ j < (all[a].padded (multiRatePadding 136)).length,
      q = start (multiRatePadding 136) all a + j := by
  have hlen := h.length_le
  by_cases hrow : q < 2376 * 136
  · rw [← h.total] at hrow
    obtain ⟨i, hi, j, hj, rfl⟩ := exists_row _ hrow
    have hcol := ((h.message i hi).reads j hj).cols.addr
    obtain rfl : i = a :=
      fromU64_injective (by omega) (by omega) (hcol.symm.trans haddr)
    exact ⟨j, hj, rfl⟩
  · have hcol := h.rest q (Nat.not_lt.mp hrow) hq
    have heq : all.length = a := fromU64_injective (by omega) (by omega) (hcol.symm.trans haddr)
    omega

end Table

/-! ## Counterparts in the table -/

/-- The counterpart of an operation: the row that the main state machine looks up. -/
def HashKEvent.Emitted (pols : ℕ → PaddingHashRow Unit) : HashKEvent → Prop
  | .read addr pos size value => ∃ q < PaddingHash.N, (pols q).addr = fromU64 addr ∧
      (pols q).crOffset = 0 ∧ (pols q).crLen = fromU64 size ∧
      (pols q).len - (pols q).rem - (pols q).crLen + 1 = fromU64 pos ∧
      ∀ k : Fin 8, (pols q).crV k + (pols q).crF k * (pols q).freeIn = limb value k
  | .len addr length => ∃ q < PaddingHash.N, (pols q).addr = fromU64 addr ∧
      (pols q).lastHashLen = 1 ∧ (pols q).len = fromU64 length
  | .digest addr dg => ∃ q < PaddingHash.N, (pols q).addr = fromU64 addr ∧
      (pols q).lastHashDigest = 1 ∧ ∀ k : Fin 8, (pols q).hash k = limb dg k

section Table

open HashMessageInput HashKEvent

variable {keccak256 : List UInt8 → ℕ} {all : List HashMessageInput}
  {pols : ℕ → PaddingHashRow Unit}

/-- The position that the main state machine looks up is the one at which the read starts. -/
theorem readPos_iff {input : PaddingExecutorInput} {addr j size pos : ℕ} {row : PaddingRow}
    (hcols : ByteCols input addr j row) (hsize : row.crLen = fromU64 size) (hj : j + 1 < 2 ^ 61)
    (hpos : pos + size < 2 ^ 61) :
    row.len - row.rem - row.crLen + 1 = fromU64 pos ↔ j + 1 = pos + size := by
  have hrow : row.len - row.rem = fromU64 j := by
    rw [hcols.len, hcols.rem, remAt, sub_sub_cancel]
  rw [hrow, hsize, sub_add_eq_add_sub, sub_eq_iff_eq_add, ← fromU64_add]
  have hone : fromU64 j + 1 = fromU64 (j + 1) := (fromU64_add j 1).symm
  rw [hone]
  exact ⟨fromU64_injective hj hpos, congrArg fromU64⟩

theorem limb_eq_iff {x y : ℕ} (hx : x < 2 ^ 256) (hy : y < 2 ^ 256) :
    (∀ k : Fin 8, limb x k = limb y k) ↔ x = y := by
  refine ⟨fun h => scalar2fea_injective hx hy ?_, fun h k => by rw [h]⟩
  exact Prod.ext (by
    simp only [scalar2fea, Fea.mk.injEq]
    exact ⟨h 0, h 1, h 2, h 3⟩) (by
    simp only [scalar2fea, Fea.mk.injEq]
    exact ⟨h 4, h 5, h 6, h 7⟩)

variable {a : ℕ} (h : HashKTable keccak256 all pols) (ha : a < all.length)
include h ha

/-- A message ends within the table. -/
theorem HashKTable.row_lt : start (multiRatePadding 136) all a +
    (all[a].padded (multiRatePadding 136)).length ≤ 2376 * 136 ∧
      all[a].bytes.length < (all[a].padded (multiRatePadding 136)).length := by
  have hend := start_add_le (multiRatePadding 136) ha
  rw [h.total] at hend
  refine ⟨hend, ?_⟩
  rw [length_padded]
  omega

/-- A row of the message, with the read that its byte belongs to. -/
theorem HashKTable.cell {j : ℕ} (hj : j < (all[a].padded (multiRatePadding 136)).length) :
    let row := (pols (start (multiRatePadding 136) all a + j)).toPaddingRow
    ByteCols (all[a].prepared (multiRatePadding 136) keccak256) a j row ∧
      ∃ c, ReadRow all[a].reads (all[a].padded (multiRatePadding 136)) j c row :=
  ⟨((h.message a ha).reads j hj).cols, ((h.message a ha).reads j hj).read⟩

/-- A read of the message has its counterpart if it is one of those that tile the message. -/
theorem HashKTable.read_iff (htile : Tiling all[a].reads all[a].bytes.length) {pos size v : ℕ}
    (hsize : 0 < size)
    (hend : pos + size ≤ all[a].bytes.length)
    (hv : value (slice all[a].bytes pos (pos + size)) = v) :
    Emitted pols (.read a pos size v) ↔
      ∃ c, readStart all[a].reads c = pos ∧ readSize all[a].reads c = size := by
  have hp : 2 ^ 61 < goldilocksPrime := by decide
  obtain ⟨hlt, hle⟩ := h.row_lt ha
  constructor
  · rintro ⟨q, hq, haddr, hoffset, hlen, hpos, -⟩
    obtain ⟨j, hj, rfl⟩ := h.row ha hq haddr
    obtain ⟨hcols, c, hread⟩ := h.cell ha hj
    obtain ⟨-, hsmall⟩ := htile.sizes.readSize c
    have hsize' : size = readSize all[a].reads c :=
      fromU64_injective (by omega) (by omega) (hlen.symm.trans hread.crLen)
    have hstart : j + 1 = pos + size := (readPos_iff hcols hlen (by omega) (by omega)).mp hpos
    have hbegin : readStart all[a].reads c ≤ j := hread.start_le
    have hnext : j < readStart all[a].reads (c + 1) := hread.lt_end
    rw [readStart_succ] at hnext
    have hlast : readStart all[a].reads (c + 1) - 1 - j = 0 := by
      refine fromU64_injective ?_ (by decide) (hread.crOffset.symm.trans hoffset)
      rw [readStart_succ]
      omega
    rw [readStart_succ] at hlast
    exact ⟨c, by omega, hsize'.symm⟩
  · rintro ⟨c, rfl, rfl⟩
    have hpos : 0 < readStart all[a].reads c + readSize all[a].reads c := Nat.add_pos_right _ hsize
    obtain ⟨j, hj⟩ : ∃ j, j + 1 = readStart all[a].reads c + readSize all[a].reads c :=
      ⟨_, Nat.succ_pred_eq_of_pos hpos⟩
    obtain ⟨hcols, c', hread⟩ := h.cell ha (j := j) (by omega)
    obtain rfl : c = c' := readStart_unique (j := j) (by omega) (by rw [readStart_succ]; omega)
      hread.start_le hread.lt_end
    have hlast : readStart all[a].reads (c + 1) - 1 - j = 0 := by
      rw [readStart_succ]
      omega
    have hN : PaddingHash.N = 8388608 := rfl
    refine ⟨start (multiRatePadding 136) all a + j, by omega, hcols.addr, ?_, hread.crLen,
      (readPos_iff hcols hread.crLen (by omega) (by omega)).mpr hj, fun k => ?_⟩
    · rw [hread.crOffset]
      exact congrArg fromU64 hlast
    · have hbytes : slice (all[a].padded (multiRatePadding 136)) (readStart all[a].reads c) (j + 1) =
          slice all[a].bytes (readStart all[a].reads c)
            (readStart all[a].reads c + readSize all[a].reads c) := by
        rw [hj]
        exact slice_append hend
      have hrow := hread.crV k
      rw [hlast, Nat.pow_zero, Nat.one_mul, hbytes, hv] at hrow
      exact hrow

/-- The marker of the length is on the last row of a message whose length was asked for. -/
theorem HashKTable.len_iff {length : ℕ} (hlength : length < 2 ^ 61) :
    Emitted pols (.len a length) ↔
      all[a].lenCalled = true ∧ all[a].bytes.length = length := by
  obtain ⟨hlt, hle⟩ := h.row_lt ha
  constructor
  · rintro ⟨q, hq, haddr, hmark, hlen⟩
    obtain ⟨j, hj, rfl⟩ := h.row ha hq haddr
    have hcols := ((h.message a ha).reads j hj).cols
    have hrow := ((h.message a ha).rows j hj).lastHashLen
    rw [hmark] at hrow
    have hcalled := of_not_not fun hnot => absurd (hrow.trans (if_neg hnot)) (by decide)
    exact ⟨hcalled.2, fromU64_injective (by omega) hlength (hcols.len.symm.trans hlen)⟩
  · rintro ⟨hcalled, rfl⟩
    obtain ⟨j, hj⟩ : ∃ j, j + 1 = (all[a].padded (multiRatePadding 136)).length :=
      ⟨_, Nat.succ_pred_eq_of_pos (Nat.zero_lt_of_lt hle)⟩
    have hj' : j < (all[a].padded (multiRatePadding 136)).length := by omega
    have hN : PaddingHash.N = 8388608 := rfl
    have hcols := ((h.message a ha).reads j hj').cols
    refine ⟨start (multiRatePadding 136) all a + j, by omega, hcols.addr, ?_, hcols.len⟩
    rw [((h.message a ha).rows j hj').lastHashLen]
    exact if_pos ⟨hj, hcalled⟩

/-- The marker of the digest, with the digest. -/
theorem HashKTable.digest_iff {dg : ℕ} (hdigest : keccak256 all[a].bytes < 2 ^ 256)
    (hdg : dg < 2 ^ 256) : Emitted pols (.digest a dg) ↔
      all[a].digestCalled = true ∧ keccak256 all[a].bytes = dg := by
  obtain ⟨hlt, hle⟩ := h.row_lt ha
  have hhash (j : ℕ) (hj : j < (all[a].padded (multiRatePadding 136)).length) (k : Fin 8) :
      (pols (start (multiRatePadding 136) all a + j)).hash k = limb (keccak256 all[a].bytes) k := by
    rw [(h.message a ha).hash j hj]
    rfl
  constructor
  · rintro ⟨q, hq, haddr, hmark, hdigest'⟩
    obtain ⟨j, hj, rfl⟩ := h.row ha hq haddr
    have hrow := ((h.message a ha).rows j hj).lastHashDigest
    rw [hmark] at hrow
    have hcalled := of_not_not fun hnot => absurd (hrow.trans (if_neg hnot)) (by decide)
    exact ⟨hcalled.2, (limb_eq_iff hdigest hdg).mp fun k =>
      (hhash j hj k).symm.trans (hdigest' k)⟩
  · rintro ⟨hcalled, rfl⟩
    obtain ⟨j, hj⟩ : ∃ j, j + 1 = (all[a].padded (multiRatePadding 136)).length :=
      ⟨_, Nat.succ_pred_eq_of_pos (Nat.zero_lt_of_lt hle)⟩
    have hj' : j < (all[a].padded (multiRatePadding 136)).length := by omega
    have hN : PaddingHash.N = 8388608 := rfl
    have hcols := ((h.message a ha).reads j hj').cols
    refine ⟨start (multiRatePadding 136) all a + j, by omega, hcols.addr, ?_, hhash j hj'⟩
    rw [((h.message a ha).rows j hj').lastHashDigest]
    exact if_pos ⟨hj, hcalled⟩

end Table

end ZkevmProver
