import ZkevmProver.SM.PaddingPGSpec

/-!
# The whole table of the Poseidon padding executor

Messages whose reads end with them, empty messages as far as there is room for a block, and the rows
that are left.

  1. Messages with their reads.
  2. The unused blocks.
  3. A whole run.
-/

namespace ZkevmProver

open Loops

namespace PaddingPGExecutor

/-! ## Messages with their reads -/

/-- The rows of a message with its reads. -/
structure PGReadMessage (poseidon : Node → Fea) (input : PaddingExecutorInput) (addr base : ℕ)
    (pols : ℕ → PaddingPGRow) : Prop extends PGMessage poseidon input base pols where
  reads : ∀ t < input.dataBytes.length, MessageRow input addr t (pols (base + t)).toPaddingRow

theorem PGReadMessage.congr {poseidon : Node → Fea} {input : PaddingExecutorInput} {addr base : ℕ}
    {pols pols' : ℕ → PaddingPGRow} (heq : ∀ q < base + input.dataBytes.length, pols' q = pols q)
    (h : PGReadMessage poseidon input addr base pols) :
    PGReadMessage poseidon input addr base pols' where
  toPGMessage := h.toPGMessage.congr heq
  reads t ht := by
    rw [heq _ (by omega)]
    exact h.reads t ht

/-- A whole number of blocks is written, and the next row starts a message without a read. -/
structure PGFresh (S : PaddingState PaddingPGRow PoseidonGInput) : Prop where
  blocks : S.p % 56 = 0
  cur : S.pols S.p = { incCounter := 1 }
  fresh : ∀ q, S.p < q → S.pols q = {}

section Message

variable {poseidon : Node → Fea} {input : PaddingExecutorInput}
  {S : PaddingState PaddingPGRow PoseidonGInput}

theorem PGFresh.pgReady (h : PGFresh S) : PGReady S := ⟨h.blocks, ⟨fun _ => 0, h.cur⟩, h.fresh⟩

theorem PGFresh.cols (h : PGFresh S) {q : ℕ} (hq : S.p ≤ q) :
    (S.pols q).crF = (fun _ => 0) ∧ (S.pols q).crV = fun _ => 0 := by
  rcases Nat.eq_or_lt_of_le hq with rfl | hq
  · rw [h.cur]
    exact ⟨rfl, rfl⟩
  · rw [h.fresh q hq]
    exact ⟨rfl, rfl⟩

/-- A message whose reads end with it. -/
theorem execMessage_reads (h : PGFresh S) (hpad : Padded 56 input) (addr : ℕ) {realLen : ℕ}
    (htile : Tiling input.reads realLen) (hlen : realLen ≤ input.dataBytes.length) :
    PGFresh (execMessage poseidon input addr S) ∧
      Wrote S (execMessage poseidon input addr S) input.dataBytes.length (handed poseidon input) ∧
      PGReadMessage poseidon input addr S.p (execMessage poseidon input addr S).pols := by
  have hspec : _ ∧ Wrote S (execMessage poseidon input addr S) input.dataBytes.length _ ∧ _ :=
    execMessage_spec h.pgReady hpad addr
  obtain ⟨hready, hwrote, hmsg⟩ := hspec
  have hat : PGAt poseidon input S.p input.dataBytes.length S _ ∧
      AtByte input addr S.p input.dataBytes.length (fun q =>
        ((forUpTo input.dataBytes.length (execByte poseidon input addr) (S, {})).1.pols
          q).toPaddingRow)
        (forUpTo input.dataBytes.length (execByte poseidon input addr) (S, {})).2 :=
    forUpTo_inv (J := fun j S' => PGAt poseidon input S.p j S S' ∧
        AtByte input addr S.p j (fun q => (S'.1.pols q).toPaddingRow) S'.2)
      ⟨h.pgReady.pgAt hpad, atByte_zero (fun q hq => (h.cols hq).1) fun q hq => (h.cols hq).2⟩
      fun j hj S' h' => ⟨h'.1.step hj h.blocks hpad.blocks,
        atByte_execByte h'.1.p hj h'.2 htile.sizes⟩
  refine ⟨⟨hready.blocks, ?_, hready.fresh⟩, hwrote, hmsg, hat.2.rows⟩
  obtain ⟨crV, hcur⟩ := hready.cur
  have hend := htile.readStart (input.dataBytes.length - realLen)
  rw [Nat.add_sub_cancel' hlen] at hend
  have hzero : ((execMessage poseidon input addr S).pols
      (execMessage poseidon input addr S).p).crV = fun _ => 0 :=
    hat.2.crV_eq_zero hend (by rw [hwrote.p])
  rw [hcur] at hzero ⊢
  rw [show crV = fun _ => 0 from hzero]

end Message

/-! ## The unused blocks -/

/-- An empty message, as it is prepared. -/
def empty (keccak256 : List UInt8 → ℕ) : PaddingExecutorInput where
  dataBytes := pad10 56 []
  hash := keccak256 []

/-- A whole number of blocks is written, and the next row has at most its counter. -/
structure PGUnused (S : PaddingState PaddingPGRow PoseidonGInput) : Prop where
  blocks : S.p % 56 = 0
  cur : ∃ incCounter, S.pols S.p = { incCounter }
  fresh : ∀ q, S.p < q → S.pols q = {}

section Unused

variable {keccak256 : List UInt8 → ℕ} {poseidon : Node → Fea}
  {S : PaddingState PaddingPGRow PoseidonGInput}

/-- The rows of an unused block. -/
theorem unusedRows_spec (h : PGUnused S) (hash : Fea) (addr bytesBlock n : ℕ) :
    (∀ t < n, (unusedRows hash addr bytesBlock n S).pols (S.p + t) =
        unusedRow hash addr bytesBlock t {}) ∧
      (∃ incCounter, (unusedRows hash addr bytesBlock n S).pols (S.p + n) = { incCounter }) ∧
      ∀ q, S.p + n < q → (unusedRows hash addr bytesBlock n S).pols q = {} := by
  induction n with
  | zero => exact ⟨fun t ht => absurd ht (Nat.not_lt_zero t), h.cur, h.fresh⟩
  | succ n ih =>
    obtain ⟨hrows, ⟨incCounter, hcur⟩, hfresh⟩ := ih
    have hp : (unusedRows hash addr bytesBlock n S).p = S.p + n :=
      (unusedRows_wrote hash addr bytesBlock n S).p
    have hsucc : (unusedRows hash addr bytesBlock (n + 1) S).pols =
        Function.update (unusedRows hash addr bytesBlock n S).pols
          (unusedRows hash addr bytesBlock n S).p
          (unusedRow hash addr bytesBlock n ((unusedRows hash addr bytesBlock n S).pols
            (unusedRows hash addr bytesBlock n S).p)) := rfl
    rw [hsucc, hp, hcur]
    refine ⟨fun t ht => ?_, ⟨0, ?_⟩, fun q hq => ?_⟩
    · rcases Nat.lt_succ_iff_lt_or_eq.mp ht with ht | rfl
      · rw [Function.update_of_ne (by omega), hrows t ht]
      · rw [Function.update_self]
        rfl
    · rw [Function.update_of_ne (by omega), hfresh _ (by omega)]
    · rw [Function.update_of_ne (by omega), hfresh q (by omega)]

theorem length_empty : (empty keccak256).dataBytes.length = 56 :=
  (by decide : (pad10 56 []).length = 56)

theorem getD_empty {j : ℕ} (hj : j < 56) : (empty keccak256).dataBytes.getD j 0 =
    if j = 0 then 1 else if j = 55 then 0x80 else 0 := by
  have h : ∀ j < 56, (pad10 56 []).getD j 0 =
      if j = 0 then 1 else if j = 55 then 0x80 else 0 := by decide
  exact h j hj

theorem hashChain_empty :
    hashChain poseidon (empty keccak256).dataBytes 1 = poseidon (hashNode emptyAcc 0) := by
  have helem : (fun k : Fin 8 => element (pad10 56 []) (56 * 0 + 56) (8 * 0 + k)) = emptyAcc := by
    funext k
    revert k
    decide
  show poseidon (blockNode (pad10 56 []) 0 0) = _
  rw [blockNode, helem]

/-- A row of an unused block is one of an empty message. -/
theorem messageRow_unusedRow (hash : Fea) (addr : ℕ) {j : ℕ} (hj : j < 56) :
    MessageRow (empty keccak256) addr j (unusedRow hash addr 56 j {}).toPaddingRow := by
  have hfree : (unusedRow hash addr 56 j {}).freeIn =
      fromU64 ((empty keccak256).dataBytes.getD j 0).toNat := by
    rw [getD_empty hj]
    show (if j = 0 then 1 else if j = 56 - 1 then fromU64 0x80 else 0) = _
    split
    · rfl
    · split <;> rfl
  refine ⟨⟨hfree, rfl, rfl, (zero_sub _).symm⟩, j, ?_⟩
  exact readRow_nil (by rwa [length_empty]) hfree rfl rfl rfl rfl

/-- A full unused block is written as an empty message. -/
theorem unusedBlock_spec (h : PGUnused S) (hroom : S.p + 56 < N) (addr : ℕ) :
    PGUnused (unusedBlock (poseidon (hashNode emptyAcc 0)) addr S) ∧
      Wrote S (unusedBlock (poseidon (hashNode emptyAcc 0)) addr S) 56 [] ∧
      PGReadMessage poseidon (empty keccak256) addr S.p
        (unusedBlock (poseidon (hashNode emptyAcc 0)) addr S).pols := by
  have hwrote := unusedRows_wrote (poseidon (hashNode emptyAcc 0)) addr 56 56 S
  obtain ⟨hrows, hcur, hfresh⟩ := unusedRows_spec h (poseidon (hashNode emptyAcc 0)) addr 56 56
  have hblock : unusedBlock (poseidon (hashNode emptyAcc 0)) addr S =
      unusedRows (poseidon (hashNode emptyAcc 0)) addr 56 56 S := by
    have hlt : N - S.p > bytesPerBlock := show N - S.p > 56 by omega
    rw [unusedBlock, if_pos hlt]
    rfl
  rw [hblock]
  have hp := hwrote.p
  refine ⟨⟨?_, hp ▸ hcur, hp ▸ hfresh⟩, hwrote, ⟨fun t ht => ?_, fun t ht => ?_⟩, fun t ht => ?_⟩
  · rw [hp, Nat.add_mod_right]
    exact h.blocks
  · rw [length_empty] at ht
    have hdiv : t / 56 = 0 := Nat.div_eq_of_lt ht
    rw [hrows t ht]
    refine ⟨by rw [hdiv]; rfl, ?_, ?_, by rw [hdiv]; rfl⟩
    · rw [if_neg fun h => Bool.false_ne_true h.2]
      rfl
    · rw [if_neg fun h => Bool.false_ne_true h.2]
      rfl
  · rw [length_empty] at ht
    have hdiv : t / 56 = 0 := Nat.div_eq_of_lt ht
    rw [hrows t ht, hdiv, Nat.zero_add, hashChain_empty]
    rfl
  · rw [length_empty] at ht
    rw [hrows t ht]
    exact messageRow_unusedRow _ addr ht

/-- A row of the padding in the rows that are left, of which there are `n`. -/
structure PGRestRow (n j : ℕ) (row : PaddingPGRow) : Prop where
  freeIn : row.freeIn = if j = 0 then 1 else if j = n - 1 then fromU64 0x80 else 0
  prevHash : row.prevHash = 0
  lastHashLen : row.lastHashLen = 0
  lastHashDigest : row.lastHashDigest = 0

/-- The unused rows: empty messages, and a shorter padding. -/
theorem execUnused_spec (keccak256 : List UInt8 → ℕ) (h : PGUnused S) (addr : ℕ) {n : ℕ} (hn : S.p + 56 * n + 32 = N) :
    (∀ k < n, PGReadMessage poseidon (empty keccak256) (addr + k) (S.p + 56 * k)
        (execUnused poseidon addr S).pols) ∧
      ∀ j < 32, PGRestRow 32 j ((execUnused poseidon addr S).pols (S.p + 56 * n + j)) := by
  have hcount : (N - S.p - 1) / bytesPerBlock + 1 = n + 1 := by
    show (N - S.p - 1) / 56 + 1 = n + 1
    omega
  have hblocks (m : ℕ) (hm : m ≤ n) (S₁ : PaddingState PaddingPGRow PoseidonGInput)
      (h₁ : PGUnused S₁) (hp₁ : S₁.p = S.p) :
      let S' := forUpTo m (fun i =>
        unusedBlock (poseidon (hashNode emptyAcc 0)) (addr + i)) S₁
      PGUnused S' ∧ S'.p = S.p + 56 * m ∧
        ∀ k < m, PGReadMessage poseidon (empty keccak256) (addr + k) (S.p + 56 * k) S'.pols := by
    refine forUpTo_inv (J := fun m (S' : PaddingState PaddingPGRow PoseidonGInput) =>
      PGUnused S' ∧ S'.p = S.p + 56 * m ∧
        ∀ k < m, PGReadMessage poseidon (empty keccak256) (addr + k) (S.p + 56 * k) S'.pols)
      ⟨h₁, hp₁, fun k hk => absurd hk (Nat.not_lt_zero k)⟩ ?_
    rintro i hi S' ⟨hS', hp', hmsgs⟩
    obtain ⟨hunused, hwrote, hmsg⟩ : _ ∧ _ ∧ PGReadMessage poseidon (empty keccak256) (addr + i) S'.p _ :=
      unusedBlock_spec hS' (by omega) (addr + i)
    refine ⟨hunused, by rw [hwrote.p, hp']; omega, fun k hk => ?_⟩
    rcases Nat.lt_succ_iff_lt_or_eq.mp hk with hk | rfl
    · refine (hmsgs k hk).congr fun q hq => hwrote.before q ?_
      rw [length_empty] at hq
      omega
    · rwa [← hp']
  obtain ⟨hunused, hp', hmsgs⟩ := hblocks n le_rfl
    { S with
      required := S.required ++ [⟨hashNode emptyAcc 0, poseidon (hashNode emptyAcc 0),
        fromU64 POSEIDONG_PERMUTATION4_ID⟩] } ⟨h.blocks, h.cur, h.fresh⟩ rfl
  have hexec : execUnused poseidon addr S =
      unusedBlock (poseidon (hashNode emptyAcc 0)) (addr + n)
        (forUpTo n (fun i => unusedBlock (poseidon (hashNode emptyAcc 0)) (addr + i))
          { S with
            required := S.required ++ [⟨hashNode emptyAcc 0, poseidon (hashNode emptyAcc 0),
              fromU64 POSEIDONG_PERMUTATION4_ID⟩] }) := by
    unfold execUnused
    rw [hcount]
    rfl
  rw [hexec]
  generalize forUpTo n _ _ = S' at *
  have hleft : N - S'.p = 32 := by omega
  have hlast : unusedBlock (poseidon (hashNode emptyAcc 0)) (addr + n) S' =
      unusedRows (poseidon (hashNode emptyAcc 0)) (addr + n) 32 32 S' := by
    rw [unusedBlock, hleft]
    rfl
  obtain ⟨hrows, -, -⟩ :=
    unusedRows_spec hunused (poseidon (hashNode emptyAcc 0)) (addr + n) 32 32
  have hbefore := (unusedRows_wrote (poseidon (hashNode emptyAcc 0)) (addr + n) 32 32 S').before
  rw [hlast]
  refine ⟨fun k hk => (hmsgs k hk).congr fun q hq => hbefore q ?_, fun j hj => ?_⟩
  · rw [length_empty] at hq
    omega
  · rw [← hp', hrows j hj]
    exact ⟨rfl, rfl, rfl, rfl⟩

end Unused

/-! ## A whole run -/

/-- The messages and empty messages in the blocks that are left. -/
def allMessages (keccak256 : List UInt8 → ℕ) (prepared : List PaddingExecutorInput) :
    List PaddingExecutorInput :=
  prepared ++ List.replicate ((N - totalInputBytes prepared) / 56) (empty keccak256)

theorem totalInputBytes_blocks {prepared : List PaddingExecutorInput}
    (hpad : ∀ i ∈ prepared, Padded 56 i) : totalInputBytes prepared % 56 = 0 := by
  induction prepared with
  | nil => rfl
  | cons i prepared ih =>
    have hi := (hpad i (List.mem_cons_self ..)).blocks
    have htail := ih fun j hj => hpad j (List.mem_cons_of_mem _ hj)
    show (i.dataBytes.length + totalInputBytes prepared) % 56 = 0
    omega

theorem totalInputBytes_allMessages (keccak256 : List UInt8 → ℕ)
    {prepared : List PaddingExecutorInput}
    (hpad : ∀ i ∈ prepared, Padded 56 i) (hfit : totalInputBytes prepared ≤ N) :
    totalInputBytes (allMessages keccak256 prepared) + 32 = N := by
  have hblocks := totalInputBytes_blocks hpad
  have hempty := messageStart_replicate (empty keccak256) (le_refl ((N - totalInputBytes prepared) / 56))
  rw [messageStart, List.take_of_length_le (List.length_replicate ..).le, length_empty] at hempty
  rw [allMessages, totalInputBytes_append, hempty]
  have hN : N = 8388608 := rfl
  omega

theorem execute_reads {keccak256 : List UInt8 → ℕ} (poseidon : Node → Fea)
    {input prepared : List PaddingExecutorInput}
    (hprepare : prepareInput keccak256 input = some prepared)
    (hfit : totalInputBytes prepared ≤ N)
    (htile : ∀ i ∈ prepared, Tiling i.reads i.realLen ∧ i.realLen ≤ i.dataBytes.length) :
    ∃ S, execute keccak256 poseidon input = some S ∧
      (∀ (i : ℕ) (hi : i < (allMessages keccak256 prepared).length),
        PGReadMessage poseidon (allMessages keccak256 prepared)[i] i (messageStart (allMessages keccak256 prepared) i)
          S.pols) ∧
      ∀ j < 32, PGRestRow 32 j (S.pols (totalInputBytes (allMessages keccak256 prepared) + j)) := by
  have hpad := padded_of_prepareInput hprepare
  obtain ⟨hready, hwrote, hmsgs⟩ := forMessages_spec (execMessage poseidon) PGFresh
    (fun i addr base pols => PGReadMessage poseidon i addr base pols) (handed poseidon) 0
    (fun i hi addr S hS => execMessage_reads hS (hpad i hi) addr (htile i hi).1 (htile i hi).2)
    (fun i _ base pols pols' heq h => h.congr heq)
    (⟨rfl, rfl, pgReady_init.fresh⟩ : PGFresh init)
  have hp := hwrote.p
  have htotal := totalInputBytes_allMessages keccak256 hpad hfit
  rw [execute_eq_some poseidon hprepare hfit]
  generalize forMessages (execMessage poseidon) 0 prepared init = S at *
  have hp : S.p = totalInputBytes prepared := hp.trans (Nat.zero_add _)
  have hn : S.p + 56 * ((N - totalInputBytes prepared) / 56) + 32 = N := by
    have hblocks := totalInputBytes_blocks hpad
    have hN : N = 8388608 := rfl
    omega
  obtain ⟨hunused, hrest⟩ := execUnused_spec keccak256
    (⟨hready.blocks, ⟨1, hready.cur⟩, hready.fresh⟩ : PGUnused S) prepared.length hn
  have hbefore := (execUnused_before poseidon prepared.length S).2
  refine ⟨_, rfl, ?_, ?_⟩
  · refine forall_append_replicate (P := fun i addr base => PGReadMessage poseidon i addr base _)
      (fun i hi => ?_) fun k hk => ?_
    · have hmsg := hmsgs i hi
      have hstart := messageStart_succ prepared hi
      have hle := messageStart_le prepared (i + 1)
      rw [Nat.zero_add, show init.p = 0 from rfl, Nat.zero_add] at hmsg
      exact hmsg.congr fun q hq => hbefore q (by omega)
    · rw [length_empty, ← hp]
      exact hunused k hk
  · have hstart : totalInputBytes (allMessages keccak256 prepared) =
        S.p + 56 * ((N - totalInputBytes prepared) / 56) := by omega
    rw [hstart]
    exact hrest

end PaddingPGExecutor

end ZkevmProver
