import ZkevmProver.Lib.Bits
import ZkevmProver.XKCP.Keccak

/-!
# `PaddingKKBitExecutor`

A slot for each block: the bits of the block, a row for each of them and one more for each byte, the
other bits of the state, and 256 bits of the new state that make up a hash.

  1. Rows and slots.
  2. The rows of a slot.
  3. A slot and a run.
  4. Bits of the state.
  5. What the rows of a slot are.
  6. What a slot is.
  7. What a run writes.
-/

namespace ZkevmProver

open Loops BigEndian

/-! ## Rows and slots -/

/-- `Bits2FieldExecutorInput` -/
structure Bits2FieldExecutorInput where
  inputState : KeccakState
  outputState : KeccakState

/-- Also `getBitFromState` of `Bits2FieldExecutor`. -/
def getStateBit (state : KeccakState) (i : ℕ) : ℕ :=
  ((state (Fin.ofNat 200 (i / 8))).toNat >>> (i % 8)) &&& 1

def setStateBit (state : KeccakState) (i b : ℕ) : KeccakState :=
  Function.update state (Fin.ofNat 200 (i / 8))
    (state (Fin.ofNat 200 (i / 8)) ^^^ (b <<< (i % 8)).toUInt8)

@[ext]
structure PaddingKKBitRow where
  rBit : Fe := 0
  r8 : Fe := 0
  sOutBit : Fe := 0
  sOut : Fin 8 → Fe := fun _ => 0
  connected : Fe := 0

instance : Inhabited PaddingKKBitRow := ⟨{}⟩

namespace PaddingKKBitExecutor

abbrev slotSize : ℕ := 155286

/-- `PaddingKKBitCommitPols::pilDegree()`, the same for every fork. -/
abbrev N : ℕ := 8388608

abbrev nSlots : ℕ := 44 * ((N - 1) / slotSize)

/-- The table and the state that is absorbed into. -/
structure State where
  p : ℕ := 0
  pols : ℕ → PaddingKKBitRow := fun _ => {}
  currentState : KeccakState
  bCurStateWritten : Bool := false
  required : List Bits2FieldExecutorInput := []

/-- Writes row `p`. -/
def State.write (S : State) (row : PaddingKKBitRow) : State :=
  { S with p := S.p + 1, pols := Function.update S.pols S.p row }

/-- `if (connected) pols.connected[p] = fr.one();` -/
def connect (connected : Bool) (row : PaddingKKBitRow) : PaddingKKBitRow :=
  { row with connected := if connected then 1 else row.connected }

/-- A row of bit `i` of the state. -/
def curRow (S : State) (connected : Bool) (i : ℕ) (row : PaddingKKBitRow) : PaddingKKBitRow :=
  connect connected { row with
    sOutBit := if S.bCurStateWritten then fromU64 (getStateBit S.currentState i) else row.sOutBit }

/-- Bit `k` of byte `j`. -/
def inputBit (connected : Bool) (byte : UInt8) (j k : ℕ) (S : State × KeccakState) :
    State × KeccakState :=
  let p := S.1.p
  let bit := (byte.toNat >>> k) &&& 1
  let row := { curRow S.1 connected (j * 8 + k) (S.1.pols p) with rBit := fromU64 bit }
  let next := { S.1.pols (p + 1) with r8 := fromU64 (toU64 row.r8 ||| (bit <<< k)) }
  ({ S.1 with
      p := p + 1
      pols := Function.update (Function.update S.1.pols p row) (p + 1) next },
    setStateBit S.2 (j * 8 + k) bit)

/-- Byte `j` of a block, zero where there is none. -/
def inputData (block : Option PaddingBitExecutorInput) (j : ℕ) : UInt8 :=
  match block with
  | some input => input.data.getD j 0
  | none => 0

/-- Byte `j`. -/
def inputByte (connected : Bool) (block : Option PaddingBitExecutorInput) (j : ℕ)
    (S : State × KeccakState) : State × KeccakState :=
  let p := S.1.p
  let S := ({ S.1 with pols := Function.update S.1.pols p { S.1.pols p with r8 := 0 } }, S.2)
  let S := forUpTo 8 (inputBit connected (inputData block j) j) S
  (S.1.write (connect connected (S.1.pols S.1.p)), S.2)

/-- Bit `136 * 8 + j` of the state. -/
def stateBit (connected : Bool) (j : ℕ) (S : State) : State :=
  S.write (curRow S connected (136 * 8 + j) (S.pols S.p))

/-- Bit `j` of the hash. -/
def outBit (connected : Bool) (j : ℕ) (S : State) : State :=
  let p := S.p
  let row := connect connected
    { S.pols p with sOutBit := fromU64 (getStateBit S.currentState j) }
  let bit := j % 8
  let byte := j / 8
  let chunk := 7 - byte / 4
  let byteInChunk := 3 - byte % 4
  let next := { S.pols (p + 1) with
    sOut := fun k => if k = chunk then
        fromU64 (toU64 (row.sOut k) ||| (toU64 row.sOutBit <<< (byteInChunk * 8 + bit)))
      else row.sOut k }
  { S with p := p + 1, pols := Function.update (Function.update S.pols p row) (p + 1) next }

section Executor

variable (KeccakF1600 : KeccakState → KeccakState) (input : List PaddingBitExecutorInput)

/-- Whether slot `i` goes on with the state of the slot before. -/
def connected (i : ℕ) : Bool :=
  match input[i]? with
  | some block => block.connected
  | none => false

/-- Slot `i`, which takes block `i`. -/
def slot (i : ℕ) (S : State) : State :=
  let conn := connected input i
  let stateWithR := if conn then S.currentState else fun _ => 0
  let (S, stateWithR) := forUpTo 136 (inputByte conn input[i]?) (S, stateWithR)
  let S := forUpTo 512 (stateBit conn) S
  let currentState := KeccakF1600 stateWithR
  let S := { S with
    currentState
    bCurStateWritten := true
    required := S.required ++ [⟨stateWithR, currentState⟩] }
  let S := forUpTo 256 (outBit conn) S
  S.write (connect conn (S.pols S.p))

/-- The rows of the first slot that show the state before it: the last state. -/
def wrapRow (S : State) (pp : ℕ) (row : PaddingKKBitRow) : PaddingKKBitRow :=
  if pp < 136 * 9 then
    { row with sOutBit :=
        if pp % 9 < 8 then fromU64 (getStateBit S.currentState (pp / 9 * 8 + pp % 9)) else 0 }
  else { row with
    sOutBit := fromU64 (getStateBit S.currentState (136 * 8 + (pp - 136 * 9))) }

/-- The last state is connected with the first. -/
def wrap (S : State) : State :=
  { S with pols := fun pp =>
      if pp < 136 * 9 + 512 then wrapRow S pp (S.pols pp) else S.pols pp }

/-- `none` when the process exits.  `currentState` is what the memory holds that is not
initialised. -/
def execute (currentState : KeccakState) : Option State :=
  if input.length > nSlots then none
  else some (wrap (forUpTo nSlots (slot KeccakF1600 input) { currentState }))

end Executor

end PaddingKKBitExecutor

/-! ## Bits of the state -/

/-- Bit `i` of the state. -/
def stateBit (state : KeccakState) (i : ℕ) : Bool :=
  (state (Fin.ofNat 200 (i / 8))).toNat.testBit (i % 8)

theorem getStateBit_eq (state : KeccakState) (i : ℕ) :
    getStateBit state i = (stateBit state i).toNat := Bits.shiftRight_and_one _ _

/-- A byte bit by bit. -/
theorem or_bit (n k : ℕ) : n % 2 ^ k ||| ((n >>> k) &&& 1) <<< k = n % 2 ^ (k + 1) := by
  rw [Bits.shiftRight_and_one, Nat.shiftLeft_eq, Nat.mul_comm, Nat.lor_comm,
    ← Nat.two_pow_add_eq_or_of_lt (Nat.mod_lt _ (Nat.two_pow_pos k)), Nat.mod_pow_succ,
    Nat.toNat_testBit, Nat.add_comm]

/-- The bits of a byte are set one by one. -/
theorem xor_bit {n k : ℕ} (hn : n < 256) (hk : k < 8) :
    (n % 2 ^ k).toUInt8 ^^^ (((n >>> k) &&& 1) <<< k).toUInt8 = (n % 2 ^ (k + 1)).toUInt8 := by
  have h : ∀ n : Fin 256, ∀ k < 8,
      (n.val % 2 ^ k).toUInt8 ^^^ (((n.val >>> k) &&& 1) <<< k).toUInt8 =
        (n.val % 2 ^ (k + 1)).toUInt8 := by decide +kernel
  exact h ⟨n, hn⟩ k hk

/-- The first `j` bytes of a block are taken in. -/
def xorPrefix (state : KeccakState) (data : List UInt8) (j : ℕ) : KeccakState :=
  fun i => if (i : ℕ) < j then state i ^^^ data.getD i 0 else state i

/-- Bit `k` of byte `j` is taken in. -/
theorem setStateBit_xorPrefix (state : KeccakState) (data : List UInt8) {j k : ℕ} (hk : k < 8)
    {s : KeccakState}
    (hs : s = Function.update (xorPrefix state data j) (Fin.ofNat 200 j)
      (state (Fin.ofNat 200 j) ^^^ ((data.getD j 0).toNat % 2 ^ k).toUInt8)) :
    setStateBit s (j * 8 + k) (((data.getD j 0).toNat >>> k) &&& 1) =
      Function.update (xorPrefix state data j) (Fin.ofNat 200 j)
        (state (Fin.ofNat 200 j) ^^^ ((data.getD j 0).toNat % 2 ^ (k + 1)).toUInt8) := by
  have hdiv : (j * 8 + k) / 8 = j := by omega
  have hmod : (j * 8 + k) % 8 = k := by omega
  subst hs
  rw [setStateBit, hdiv, hmod, Function.update_idem, Function.update_self, UInt8.xor_assoc,
    xor_bit (data.getD j 0).toNat_lt hk]

theorem xorPrefix_succ (state : KeccakState) (data : List UInt8) {j : ℕ} (hj : j < 136) :
    Function.update (xorPrefix state data j) (Fin.ofNat 200 j)
        (state (Fin.ofNat 200 j) ^^^ ((data.getD j 0).toNat % 2 ^ 8).toUInt8) =
      xorPrefix state data (j + 1) := by
  have hval : (Fin.ofNat 200 j).val = j := Nat.mod_eq_of_lt (by omega)
  have hbyte : ((data.getD j 0).toNat % 2 ^ 8).toUInt8 = data.getD j 0 := by
    rw [Nat.mod_eq_of_lt (data.getD j 0).toNat_lt]
    exact UInt8.ofNat_toNat
  funext i
  rw [hbyte]
  by_cases hi : i = Fin.ofNat 200 j
  · subst hi
    rw [Function.update_self, xorPrefix, hval, if_pos (Nat.lt_succ_self j)]
  · have hne : (i : ℕ) ≠ j := fun h => hi (Fin.ext (h.trans hval.symm))
    rw [Function.update_of_ne hi, xorPrefix, xorPrefix]
    exact if_congr (by omega) rfl rfl

theorem xorPrefix_all (state : KeccakState) {data : List UInt8} (h : data.length ≤ 136) :
    xorPrefix state data 136 = xorBytes state data := by
  funext i
  rw [xorPrefix, xorBytes]
  split
  · rfl
  · rw [List.getD_eq_default _ _ (by omega), UInt8.xor_zero]

/-- The bits that the rows of a hash have put into limb `k`. -/
def limbBits (state : KeccakState) (j k m : ℕ) : Bool :=
  decide (8 * (31 - 4 * k - m / 8) + m % 8 < j) &&
    stateBit state (8 * (31 - 4 * k - m / 8) + m % 8)

/-- Bit `j` of a hash goes to one place of one limb. -/
theorem pack_limbBits_succ (state : KeccakState) {j k : ℕ} (hj : j < 256) (hk : k < 8) :
    Bits.pack 32 (limbBits state (j + 1) k) =
      if k = 7 - j / 8 / 4 then
        Bits.pack 32 (limbBits state j k) ||| getStateBit state j <<< ((3 - j / 8 % 4) * 8 + j % 8)
      else Bits.pack 32 (limbBits state j k) := by
  apply Nat.eq_of_testBit_eq
  intro m
  rw [Bits.testBit_pack]
  split
  · next hchunk =>
    have hpos : (3 - j / 8 % 4) * 8 + j % 8 < 32 := by omega
    rw [Nat.testBit_or, Bits.testBit_pack, Nat.testBit_shiftLeft, getStateBit_eq]
    by_cases hm : m = (3 - j / 8 % 4) * 8 + j % 8
    · have hidx : 8 * (31 - 4 * k - m / 8) + m % 8 = j := by omega
      rw [← hm, Nat.sub_self, limbBits, limbBits, hidx]
      cases stateBit state j <;> simp [hm ▸ hpos]
    · have hbit : (stateBit state j).toNat.testBit (m - ((3 - j / 8 % 4) * 8 + j % 8)) = false ∨
          ¬m ≥ (3 - j / 8 % 4) * 8 + j % 8 := by
        rcases Nat.lt_or_ge m ((3 - j / 8 % 4) * 8 + j % 8) with hlt | hge
        · exact .inr (Nat.not_le.mpr hlt)
        · obtain ⟨d, hd⟩ : ∃ d, m - ((3 - j / 8 % 4) * 8 + j % 8) = d + 1 :=
            ⟨m - ((3 - j / 8 % 4) * 8 + j % 8) - 1, by omega⟩
          rw [hd]
          cases stateBit state j <;> simp [Nat.testBit_add_one]
      have hiff (h : m < 32) : 8 * (31 - 4 * k - m / 8) + m % 8 < j + 1 ↔
          8 * (31 - 4 * k - m / 8) + m % 8 < j := by omega
      have hsame : (decide (m < 32) && limbBits state (j + 1) k m) =
          (decide (m < 32) && limbBits state j k m) := by
        by_cases h : m < 32
        · rw [limbBits, limbBits, decide_eq_decide.mpr (hiff h)]
        · rw [decide_eq_false h, Bool.false_and, Bool.false_and]
      rw [hsame]
      rcases hbit with hbit | hbit
      · rw [hbit, Bool.and_false, Bool.or_false]
      · rw [decide_eq_false hbit, Bool.false_and, Bool.or_false]
  · next hchunk =>
    rw [Bits.testBit_pack]
    by_cases hm : m < 32
    · have hne : 8 * (31 - 4 * k - m / 8) + m % 8 ≠ j := by omega
      have hiff : 8 * (31 - 4 * k - m / 8) + m % 8 < j + 1 ↔
          8 * (31 - 4 * k - m / 8) + m % 8 < j := by omega
      rw [limbBits, limbBits, decide_eq_decide.mpr hiff]
    · rw [decide_eq_false hm, Bool.false_and, Bool.false_and]

/-- All bits of a hash are the limb of the number of its bytes. -/
theorem fromU64_limbBits (state : KeccakState) (k : Fin 8) :
    fromU64 (Bits.pack 32 (limbBits state 256 k)) = limb (value (firstBytes 32 state)) k := by
  rw [limb]
  congr 1
  apply Nat.eq_of_testBit_eq
  intro m
  have hk := k.isLt
  rw [Bits.testBit_pack, Nat.testBit_mod_two_pow, Nat.testBit_shiftRight]
  by_cases hm : m < 32
  · have hlen : (firstBytes 32 state).length = 32 := by rw [firstBytes, List.length_map,
      List.length_range]
    have hlt : 8 * (31 - 4 * (k : ℕ) - m / 8) + m % 8 < 256 := by omega
    have hbyte : 32 - 1 - (32 * (k : ℕ) + m) / 8 =
        (8 * (31 - 4 * (k : ℕ) - m / 8) + m % 8) / 8 := by omega
    have hbit : (32 * (k : ℕ) + m) % 8 = (8 * (31 - 4 * (k : ℕ) - m / 8) + m % 8) % 8 := by omega
    rw [Bits.testBit_value _ (by omega), hlen, hbyte, hbit, limbBits, decide_eq_true hlt,
      Bool.true_and, stateBit, firstBytes]
    congr 2
    rw [List.getD_eq_getElem _ _ (by rw [List.length_map, List.length_range]; omega),
      List.getElem_map, List.getElem_range]
  · rw [decide_eq_false hm, Bool.false_and, Bool.false_and]

theorem toU64_limbBits (state : KeccakState) (j k : ℕ) :
    toU64 (fromU64 (Bits.pack 32 (limbBits state j k))) = Bits.pack 32 (limbBits state j k) :=
  toU64_fromU64 ((Bits.pack_lt _ _).trans (by decide))

namespace PaddingKKBitExecutor

/-! ## What the rows of a slot are -/

/-- What a slot works on: the state before it, once there is one, and the one after it. -/
structure Slot where
  current : Option KeccakState
  connected : Bool
  data : List UInt8
  after : KeccakState

/-- A bit of the state before. -/
def Slot.shown (s : Slot) (i : ℕ) : Fe :=
  match s.current with
  | some state => fromU64 (getStateBit state i)
  | none => 0

/-- Row `t` of a slot. -/
def slotRow (s : Slot) (t : ℕ) : PaddingKKBitRow where
  rBit := if t < 1224 ∧ t % 9 < 8 then
      fromU64 (((s.data.getD (t / 9) 0).toNat >>> (t % 9)) &&& 1) else 0
  r8 := if t < 1224 then fromU64 ((s.data.getD (t / 9) 0).toNat % 2 ^ (t % 9)) else 0
  sOutBit :=
    if t < 1224 then if t % 9 < 8 then s.shown (t / 9 * 8 + t % 9) else 0
    else if t < 1736 then s.shown (1088 + (t - 1224))
    else if t < 1992 then fromU64 (getStateBit s.after (t - 1736))
    else 0
  sOut k := fromU64 (Bits.pack 32 (limbBits s.after (t - 1736) k))
  connected := if s.connected then 1 else 0

theorem limbBits_zero (state : KeccakState) :
    (fun k : Fin 8 => fromU64 (Bits.pack 32 (limbBits state 0 k))) = fun _ => 0 := by
  funext k
  have hzero : Bits.pack 32 (limbBits state 0 k) = 0 := by
    apply Nat.eq_of_testBit_eq
    intro m
    rw [Bits.testBit_pack, limbBits, decide_eq_false (Nat.not_lt_zero _), Bool.false_and,
      Bool.and_false, Nat.zero_testBit]
  rw [hzero]
  rfl

section Rows

variable (s : Slot) {j k : ℕ}

theorem slotRow_bit (hj : j < 136) (hk : k < 8) : slotRow s (9 * j + k) =
    { rBit := fromU64 (((s.data.getD j 0).toNat >>> k) &&& 1)
      r8 := fromU64 ((s.data.getD j 0).toNat % 2 ^ k)
      sOutBit := s.shown (j * 8 + k)
      connected := if s.connected then 1 else 0 } := by
  have hdiv : (9 * j + k) / 9 = j := by omega
  have hmod : (9 * j + k) % 9 = k := by omega
  have hlt : 9 * j + k < 1224 := by omega
  have hzero : 9 * j + k - 1736 = 0 := by omega
  rw [slotRow, hdiv, hmod, hzero, limbBits_zero, if_pos ⟨hlt, hk⟩, if_pos hlt, if_pos hlt,
    if_pos hk]

theorem slotRow_byte (hj : j < 136) : slotRow s (9 * j + 8) =
    { r8 := fromU64 ((s.data.getD j 0).toNat % 2 ^ 8)
      connected := if s.connected then 1 else 0 } := by
  have hdiv : (9 * j + 8) / 9 = j := by omega
  have hmod : (9 * j + 8) % 9 = 8 := by omega
  have hlt : 9 * j + 8 < 1224 := by omega
  have hzero : 9 * j + 8 - 1736 = 0 := by omega
  rw [slotRow, hdiv, hmod, hzero, limbBits_zero, if_neg fun h => absurd h.2 (by decide),
    if_pos hlt, if_pos hlt, if_neg (by decide)]

theorem slotRow_state (hj : j < 512) : slotRow s (1224 + j) =
    { sOutBit := s.shown (136 * 8 + j)
      connected := if s.connected then 1 else 0 } := by
  have hge : ¬1224 + j < 1224 := by omega
  have hzero : 1224 + j - 1736 = 0 := by omega
  rw [slotRow, hzero, limbBits_zero, if_neg fun h => hge h.1, if_neg hge, if_neg hge,
    if_pos (by omega), Nat.add_sub_cancel_left]

theorem slotRow_out (hj : j < 256) : slotRow s (1736 + j) =
    { sOutBit := fromU64 (getStateBit s.after j)
      sOut := fun k => fromU64 (Bits.pack 32 (limbBits s.after j k))
      connected := if s.connected then 1 else 0 } := by
  have hge : ¬1736 + j < 1224 := by omega
  rw [slotRow, if_neg fun h => hge h.1, if_neg hge, if_neg hge, if_neg (by omega),
    if_pos (by omega), Nat.add_sub_cancel_left]

theorem slotRow_last : slotRow s 1992 =
    { sOut := fun k => limb (value (firstBytes 32 s.after)) k
      connected := if s.connected then 1 else 0 } := by
  have hsum : (fun k : Fin 8 => fromU64 (Bits.pack 32 (limbBits s.after 256 k))) =
      fun k : Fin 8 => limb (value (firstBytes 32 s.after)) k := by
    funext k
    exact fromU64_limbBits s.after k
  show PaddingKKBitRow.mk 0 0 0 (fun k : Fin 8 => fromU64 (Bits.pack 32
    (limbBits s.after 256 k))) _ = _
  rw [hsum]

end Rows

/-- `n` rows of a slot are written, from row `base` on; `S₁` has the other fields. -/
structure SlotAt (t₀ : ℕ → PaddingKKBitRow) (base : ℕ) (s : Slot) (S₁ : State) (n : ℕ)
    (next : PaddingKKBitRow) (S : State) : Prop where
  p : S.p = base + n
  filled : Loops.Filled t₀ base n (slotRow s) next S.pols
  current : S.currentState = S₁.currentState
  written : S.bCurStateWritten = S₁.bCurStateWritten
  required : S.required = S₁.required

section Slot

variable {t₀ : ℕ → PaddingKKBitRow} {base : ℕ} {s : Slot} {S₁ : State} {n : ℕ}
  {next : PaddingKKBitRow} {S : State}

theorem SlotAt.write (h : SlotAt t₀ base s S₁ n next S) {row : PaddingKKBitRow}
    (hrow : row = slotRow s n) : SlotAt t₀ base s S₁ (n + 1) {} (S.write row) where
  p := by
    show S.p + 1 = _
    rw [h.p, Nat.add_assoc]
  filled := by
    show Loops.Filled _ _ _ _ _ (Function.update S.pols S.p row)
    rw [h.p, hrow]
    exact h.filled.write
  current := h.current
  written := h.written
  required := h.required

theorem SlotAt.cur (h : SlotAt t₀ base s S₁ n next S) : S.pols S.p = next := by
  rw [h.p, h.filled.next]

/-- The row of a bit of the state before. -/
theorem curRow_sOutBit (h : SlotAt t₀ base s S₁ n next S)
    (hcur : s.current = if S₁.bCurStateWritten then some S₁.currentState else none)
    (i : ℕ) (row : PaddingKKBitRow) (hrow : row.sOutBit = 0) :
    (curRow S s.connected i row).sOutBit = s.shown i := by
  show (if S.bCurStateWritten then fromU64 (getStateBit S.currentState i) else row.sOutBit) = _
  rw [h.written, h.current, Slot.shown, hcur, hrow]
  cases S₁.bCurStateWritten <;> rfl

/-- Bit `k` of byte `j`. -/
theorem SlotAt.inputBit {j k : ℕ} (hj : j < 136) (hk : k < 8) {state : KeccakState}
    (h : SlotAt t₀ base s S₁ (9 * j + k)
      { r8 := fromU64 ((s.data.getD j 0).toNat % 2 ^ k) } S)
    (hcur : s.current = if S₁.bCurStateWritten then some S₁.currentState else none) :
    SlotAt t₀ base s S₁ (9 * j + (k + 1))
      { r8 := fromU64 ((s.data.getD j 0).toNat % 2 ^ (k + 1)) }
      (PaddingKKBitExecutor.inputBit s.connected (s.data.getD j 0) j k (S, state)).1 := by
  have hbyte : (s.data.getD j 0).toNat < 256 := (s.data.getD j 0).toNat_lt
  have hrow : { curRow S s.connected (j * 8 + k) (S.pols S.p) with
      rBit := fromU64 (((s.data.getD j 0).toNat >>> k) &&& 1) } = slotRow s (9 * j + k) := by
    rw [slotRow_bit s hj hk, h.cur]
    dsimp only
    rw [curRow_sOutBit h hcur _ _ rfl]
    rfl
  have hnext : { S.pols (S.p + 1) with
      r8 := fromU64 (toU64 (S.pols S.p).r8 ||| (((s.data.getD j 0).toNat >>> k) &&& 1) <<< k) } =
        ({ r8 := fromU64 ((s.data.getD j 0).toNat % 2 ^ (k + 1)) } : PaddingKKBitRow) := by
    have hlt : (s.data.getD j 0).toNat % 2 ^ k < goldilocksPrime :=
      ((Nat.mod_le _ _).trans_lt hbyte).trans (by decide)
    have hfresh : S.pols (S.p + 1) = {} := h.filled.fresh _ (by rw [h.p]; omega)
    rw [hfresh, h.cur]
    dsimp only
    rw [toU64_fromU64 hlt, or_bit]
  have hstep := h.filled.step { r8 := fromU64 ((s.data.getD j 0).toNat % 2 ^ (k + 1)) }
  rw [← hrow, ← hnext, ← h.p] at hstep
  refine ⟨?_, hnext ▸ hstep, h.current, h.written, h.required⟩
  show S.p + 1 = _
  rw [h.p]
  omega

/-- The bits of byte `j`. -/
theorem SlotAt.inputBits {j : ℕ} (hj : j < 136) (h : SlotAt t₀ base s S₁ (9 * j) {} S)
    (hcur : s.current = if S₁.bCurStateWritten then some S₁.currentState else none)
    (stateWithR : KeccakState) :
    let S' := forUpTo 8 (PaddingKKBitExecutor.inputBit s.connected (s.data.getD j 0) j)
      (S, xorPrefix stateWithR s.data j)
    SlotAt t₀ base s S₁ (9 * j + 8) { r8 := fromU64 ((s.data.getD j 0).toNat % 2 ^ 8) } S'.1 ∧
      S'.2 = xorPrefix stateWithR s.data (j + 1) := by
  rw [← xorPrefix_succ _ _ hj]
  refine forUpTo_inv (J := fun k (S' : State × KeccakState) =>
    SlotAt t₀ base s S₁ (9 * j + k) { r8 := fromU64 ((s.data.getD j 0).toNat % 2 ^ k) } S'.1 ∧
      S'.2 = Function.update (xorPrefix stateWithR s.data j) (Fin.ofNat 200 j)
        (stateWithR (Fin.ofNat 200 j) ^^^ ((s.data.getD j 0).toNat % 2 ^ k).toUInt8)) ⟨?_, ?_⟩ ?_
  · rw [Nat.pow_zero, Nat.mod_one]
    exact h
  · have hval : (Fin.ofNat 200 j).val = j := Nat.mod_eq_of_lt (by omega)
    have hbefore : xorPrefix stateWithR s.data j (Fin.ofNat 200 j) =
        stateWithR (Fin.ofNat 200 j) := if_neg (by rw [hval]; exact Nat.lt_irrefl j)
    have hkeep : stateWithR (Fin.ofNat 200 j) ^^^ (0 : ℕ).toUInt8 =
        stateWithR (Fin.ofNat 200 j) := UInt8.xor_zero
    rw [Nat.pow_zero, Nat.mod_one, hkeep, ← hbefore, Function.update_eq_self]
  · exact fun k hk S' h' => ⟨h'.1.inputBit hj hk hcur, setStateBit_xorPrefix _ _ hk h'.2⟩

/-- Byte `j`. -/
theorem SlotAt.inputByte {j : ℕ} (hj : j < 136) {block : Option PaddingBitExecutorInput}
    (hdata : inputData block j = s.data.getD j 0) (h : SlotAt t₀ base s S₁ (9 * j) {} S)
    (hcur : s.current = if S₁.bCurStateWritten then some S₁.currentState else none)
    (stateWithR : KeccakState) :
    let S' := PaddingKKBitExecutor.inputByte s.connected block j
      (S, xorPrefix stateWithR s.data j)
    SlotAt t₀ base s S₁ (9 * (j + 1)) {} S'.1 ∧ S'.2 = xorPrefix stateWithR s.data (j + 1) := by
  have hstart : { S with pols := Function.update S.pols S.p { S.pols S.p with r8 := 0 } } = S := by
    have hrow : { S.pols S.p with r8 := 0 } = S.pols S.p := by rw [h.cur]
    rw [hrow, Function.update_eq_self]
  rw [PaddingKKBitExecutor.inputByte, hdata]
  dsimp only
  rw [hstart]
  obtain ⟨hbits, hstate⟩ := h.inputBits hj hcur stateWithR
  refine ⟨hbits.write ?_, hstate⟩
  rw [hbits.cur, slotRow_byte s hj]
  rfl

/-- Bit `j` of the rest of the state. -/
theorem SlotAt.stateBit {j : ℕ} (hj : j < 512) (h : SlotAt t₀ base s S₁ (1224 + j) {} S)
    (hcur : s.current = if S₁.bCurStateWritten then some S₁.currentState else none) :
    SlotAt t₀ base s S₁ (1224 + (j + 1)) {}
      (PaddingKKBitExecutor.stateBit s.connected j S) := by
  refine h.write ?_
  rw [h.cur, slotRow_state s hj, ← curRow_sOutBit h hcur _ {} rfl]
  rfl

/-- Bit `j` of the hash. -/
theorem SlotAt.outBit {j : ℕ} (hj : j < 256) (h : SlotAt t₀ base s S₁ (1736 + j)
      { sOut := fun k => fromU64 (Bits.pack 32 (limbBits s.after j k)) } S)
    (hafter : S₁.currentState = s.after) :
    SlotAt t₀ base s S₁ (1736 + (j + 1))
      { sOut := fun k => fromU64 (Bits.pack 32 (limbBits s.after (j + 1) k)) }
      (PaddingKKBitExecutor.outBit s.connected j S) := by
  have hrow : connect s.connected
      { S.pols S.p with sOutBit := fromU64 (getStateBit S.currentState j) } =
        slotRow s (1736 + j) := by
    rw [slotRow_out s hj, h.cur, h.current, hafter]
    rfl
  have hbit : toU64 (fromU64 (getStateBit s.after j)) = getStateBit s.after j := by
    refine toU64_fromU64 ?_
    rw [getStateBit_eq]
    exact (Bool.toNat_lt _).trans (by decide)
  have hnext : { S.pols (S.p + 1) with
      sOut := fun k : Fin 8 => if k = 7 - j / 8 / 4 then
          fromU64 (toU64 ((slotRow s (1736 + j)).sOut k) |||
            (toU64 (slotRow s (1736 + j)).sOutBit <<< ((3 - j / 8 % 4) * 8 + j % 8)))
        else (slotRow s (1736 + j)).sOut k } =
        ({ sOut := fun k => fromU64 (Bits.pack 32 (limbBits s.after (j + 1) k)) } :
          PaddingKKBitRow) := by
    have hfresh : S.pols (S.p + 1) = {} := h.filled.fresh _ (by rw [h.p]; omega)
    rw [hfresh, slotRow_out s hj]
    dsimp only
    congr 1
    funext k
    rw [toU64_limbBits, hbit, pack_limbBits_succ s.after hj k.isLt]
    exact (apply_ite fromU64 _ _ _).symm
  have hstep := h.filled.step
    { sOut := fun k => fromU64 (Bits.pack 32 (limbBits s.after (j + 1) k)) }
  rw [← hnext, ← hrow, ← h.p] at hstep
  refine ⟨?_, hnext ▸ hrow ▸ hstep, h.current, h.written, h.required⟩
  show S.p + 1 = _
  rw [h.p]
  omega

end Slot

/-! ## What a slot is -/

section Executor

variable {KeccakF1600 : KeccakState → KeccakState} {input : List PaddingBitExecutorInput}

/-- The bytes of block `i`, none where there is no block. -/
def blockData (input : List PaddingBitExecutorInput) (i : ℕ) : List UInt8 :=
  match input[i]? with
  | some block => block.data
  | none => []

/-- The state that slot `i` applies the permutation to, when `state` is the one before it. -/
def stateWithR (input : List PaddingBitExecutorInput) (i : ℕ) (state : KeccakState) : KeccakState :=
  xorBytes (if connected input i then state else fun _ => 0) (blockData input i)

/-- What slot `i` works on. -/
def slotOf (KeccakF1600 : KeccakState → KeccakState) (input : List PaddingBitExecutorInput) (i : ℕ)
    (S : State) : Slot where
  current := if S.bCurStateWritten then some S.currentState else none
  connected := connected input i
  data := blockData input i
  after := KeccakF1600 (stateWithR input i S.currentState)

/-- What slot `i` does. -/
structure SlotDone (KeccakF1600 : KeccakState → KeccakState) (input : List PaddingBitExecutorInput)
    (i : ℕ) (S S' : State) : Prop where
  p : S'.p = S.p + 1993
  filled : Loops.Filled S.pols S.p 1993 (slotRow (slotOf KeccakF1600 input i S)) {} S'.pols
  currentState : S'.currentState = KeccakF1600 (stateWithR input i S.currentState)
  bCurStateWritten : S'.bCurStateWritten = true
  required : S'.required = S.required ++
    [⟨stateWithR input i S.currentState, KeccakF1600 (stateWithR input i S.currentState)⟩]

theorem slot_spec {i : ℕ} {S : State} (hdata : (blockData input i).length ≤ 136)
    (hfresh : ∀ q, S.p ≤ q → S.pols q = {}) :
    SlotDone KeccakF1600 input i S (slot KeccakF1600 input i S) := by
  let s := slotOf KeccakF1600 input i S
  let state : KeccakState := if connected input i then S.currentState else fun _ => 0
  have hinit : SlotAt S.pols S.p s S 0 {} S := ⟨rfl, Loops.Filled.start hfresh, rfl, rfl, rfl⟩
  have hbytes (j : ℕ) : inputData input[i]? j = s.data.getD j 0 := by
    show _ = (blockData input i).getD j 0
    unfold blockData inputData
    cases input[i]? <;> rfl
  obtain ⟨hinput, htaken⟩ : SlotAt S.pols S.p s S (9 * 136) {}
        (forUpTo 136 (inputByte (connected input i) input[i]?) (S, state)).1 ∧
      (forUpTo 136 (inputByte (connected input i) input[i]?) (S, state)).2 =
        xorPrefix state s.data 136 := by
    refine forUpTo_inv (J := fun j (S' : State × KeccakState) =>
      SlotAt S.pols S.p s S (9 * j) {} S'.1 ∧ S'.2 = xorPrefix state s.data j) ⟨hinit, ?_⟩ ?_
    · funext k
      exact (if_neg (Nat.not_lt_zero _)).symm
    · rintro j hj ⟨S', state'⟩ ⟨h, rfl⟩
      exact h.inputByte hj (hbytes j) rfl state
  have htaken : (forUpTo 136 (inputByte (connected input i) input[i]?) (S, state)).2 =
      stateWithR input i S.currentState := htaken.trans (xorPrefix_all state hdata)
  have hstate : SlotAt S.pols S.p s S (1224 + 512) {}
      (forUpTo 512 (stateBit (connected input i))
        (forUpTo 136 (inputByte (connected input i) input[i]?) (S, state)).1) :=
    forUpTo_inv (J := fun j S' => SlotAt S.pols S.p s S (1224 + j) {} S') hinput
      fun j hj S' h => h.stateBit hj rfl
  generalize hS₂ : forUpTo 512 (stateBit (connected input i))
    (forUpTo 136 (inputByte (connected input i) input[i]?) (S, state)).1 = S₂ at hstate
  let S₃ : State := { S₂ with
    currentState := KeccakF1600 (stateWithR input i S.currentState)
    bCurStateWritten := true
    required := S₂.required ++
      [⟨stateWithR input i S.currentState, KeccakF1600 (stateWithR input i S.currentState)⟩] }
  have hslot : slot KeccakF1600 input i S =
      (forUpTo 256 (outBit (connected input i)) S₃).write (connect (connected input i)
        ((forUpTo 256 (outBit (connected input i)) S₃).pols
          (forUpTo 256 (outBit (connected input i)) S₃).p)) := by
    unfold slot
    dsimp only
    rw [htaken, hS₂]
  have hout : SlotAt S.pols S.p s S₃ (1736 + 256)
      { sOut := fun k => fromU64 (Bits.pack 32 (limbBits s.after 256 k)) }
      (forUpTo 256 (outBit (connected input i)) S₃) := by
    refine forUpTo_inv (J := fun j S' => SlotAt S.pols S.p s S₃ (1736 + j)
      { sOut := fun k => fromU64 (Bits.pack 32 (limbBits s.after j k)) } S') ?_
      fun j hj S' h => h.outBit hj rfl
    rw [limbBits_zero]
    exact ⟨hstate.p, hstate.filled, rfl, rfl, rfl⟩
  have hlast : SlotAt S.pols S.p s S₃ 1993 {} (slot KeccakF1600 input i S) := by
    rw [hslot]
    exact hout.write (by rw [hout.cur]; rfl)
  refine ⟨hlast.p, hlast.filled, hlast.current, hlast.written, hlast.required.trans ?_⟩
  show S₂.required ++ _ = _
  rw [hstate.required]

/-! ## What a run writes -/

variable (KeccakF1600 : KeccakState → KeccakState) (input : List PaddingBitExecutorInput)
  (currentState : KeccakState)

/-- The state before slot `i`. -/
def stateBefore : ℕ → KeccakState
  | 0 => currentState
  | i + 1 => KeccakF1600 (stateWithR input i (stateBefore i))

/-- What slot `i` works on in a run. -/
def runSlot (i : ℕ) : Slot where
  current := if 0 < i then some (stateBefore KeccakF1600 input currentState i) else none
  connected := connected input i
  data := blockData input i
  after := stateBefore KeccakF1600 input currentState (i + 1)

/-- What slot `i` hands over. -/
def runInput (i : ℕ) : Bits2FieldExecutorInput where
  inputState := stateWithR input i (stateBefore KeccakF1600 input currentState i)
  outputState := stateBefore KeccakF1600 input currentState (i + 1)

/-- A run after `n` slots. -/
structure RunAt (n : ℕ) (S : State) : Prop where
  p : S.p = 1993 * n
  current : S.currentState = stateBefore KeccakF1600 input currentState n
  written : S.bCurStateWritten = decide (0 < n)
  required : S.required = (List.range n).map (runInput KeccakF1600 input currentState)
  rows : ∀ i < n, ∀ t < 1993,
    S.pols (1993 * i + t) = slotRow (runSlot KeccakF1600 input currentState i) t
  fresh : ∀ q, 1993 * n ≤ q → S.pols q = {}

variable {KeccakF1600 input currentState}

theorem RunAt.slot {n : ℕ} {S : State} (h : RunAt KeccakF1600 input currentState n S)
    (hdata : (blockData input n).length ≤ 136) :
    RunAt KeccakF1600 input currentState (n + 1)
      (PaddingKKBitExecutor.slot KeccakF1600 input n S) := by
  have hdone : SlotDone KeccakF1600 input n S _ :=
    slot_spec hdata fun q hq => h.fresh q (by rwa [h.p] at hq)
  have hslot : slotOf KeccakF1600 input n S = runSlot KeccakF1600 input currentState n := by
    rw [slotOf, h.written, h.current, runSlot]
    congr 1
    exact if_congr decide_eq_true_iff rfl rfl
  have hp : S.p + 1993 = 1993 * (n + 1) := by
    rw [h.p]
    omega
  refine ⟨hdone.p.trans hp, by rw [hdone.currentState, h.current]; rfl,
    hdone.bCurStateWritten.trans (decide_eq_true (Nat.succ_pos n)).symm, ?_, ?_, ?_⟩
  · rw [hdone.required, h.required, h.current, List.range_succ, List.map_append]
    rfl
  · intro i hi t ht
    rcases Nat.lt_succ_iff_lt_or_eq.mp hi with hi | rfl
    · rw [hdone.filled.before _ (by rw [h.p]; omega), h.rows i hi t ht]
    · rw [← h.p, hdone.filled.rows t ht, hslot]
  · intro q hq
    rcases Nat.eq_or_lt_of_le hq with rfl | hq
    · rw [← hp]
      exact hdone.filled.next
    · exact hdone.filled.fresh q (hp ▸ hq)

theorem run_spec (hdata : ∀ i, (blockData input i).length ≤ 136) (n : ℕ) :
    RunAt KeccakF1600 input currentState n
      (forUpTo n (PaddingKKBitExecutor.slot KeccakF1600 input) { currentState }) := by
  refine forUpTo_inv (J := RunAt KeccakF1600 input currentState)
    ⟨rfl, rfl, rfl, rfl, fun i hi => absurd hi (Nat.not_lt_zero i), fun _ _ => rfl⟩
    fun i _ S h => h.slot (hdata i)

/-- The row of a slot that shows bit `n` of the state before. -/
def bitRow (n : ℕ) : ℕ := if n < 1088 then 9 * (n / 8) + n % 8 else 1224 + (n - 1088)

theorem wrap_pols (S : State) (q : ℕ) : (wrap S).pols q =
    if q < 136 * 9 + 512 then wrapRow S q (S.pols q) else S.pols q := rfl

theorem slotRow_bitRow (s : Slot) {n : ℕ} (hn : n < 1600) :
    (slotRow s (bitRow n)).sOutBit = s.shown n := by
  unfold bitRow
  split
  · next h =>
    rw [slotRow_bit s (by omega) (Nat.mod_lt n (by decide)), Nat.div_add_mod' n 8]
  · next h =>
    have hidx : 136 * 8 + (n - 1088) = n := by omega
    rw [slotRow_state s (by omega), hidx]

theorem bitRow_lt {n : ℕ} (hn : n < 1600) : bitRow n < 1736 := by
  unfold bitRow
  split <;> omega

theorem wrapRow_bitRow (S : State) {n : ℕ} (hn : n < 1600) (row : PaddingKKBitRow) :
    (wrapRow S (bitRow n) row).sOutBit = fromU64 (getStateBit S.currentState n) := by
  unfold bitRow wrapRow
  by_cases h : n < 1088
  · have hlt : 9 * (n / 8) + n % 8 < 136 * 9 := by omega
    have hmod : (9 * (n / 8) + n % 8) % 9 = n % 8 := by omega
    have hdiv : (9 * (n / 8) + n % 8) / 9 * 8 + n % 8 = n := by omega
    rw [if_pos h, if_pos hlt]
    dsimp only
    rw [hmod, if_pos (Nat.mod_lt n (by decide)), hdiv]
  · have hge : ¬1224 + (n - 1088) < 136 * 9 := by omega
    have hidx : 136 * 8 + (1224 + (n - 1088) - 136 * 9) = n := by omega
    rw [if_neg h, if_neg hge]
    dsimp only
    rw [hidx]

variable (KeccakF1600 input currentState) in
/-- What `m` slots hand over, and what their table shows: where slots are connected, the state before
a slot (the last one before the first), and the hash after it. -/
structure Executed (m : ℕ) (S : State) : Prop where
  required : S.required = (List.range m).map (runInput KeccakF1600 input currentState)
  connected : ∀ i < m, ∀ t < 1993,
    (S.pols (1993 * i + t)).connected = if connected input i then 1 else 0
  before : ∀ i < m, ∀ n < 1600, (S.pols (1993 * i + bitRow n)).sOutBit =
    fromU64 (getStateBit
      (stateBefore KeccakF1600 input currentState (if i = 0 then m else i)) n)
  sOut : ∀ i < m, (S.pols (1993 * i + 1992)).sOut = fun k : Fin 8 =>
    limb (value (firstBytes 32 (stateBefore KeccakF1600 input currentState (i + 1)))) k

theorem RunAt.executed {m : ℕ} {S : State} (h : RunAt KeccakF1600 input currentState m S) :
    Executed KeccakF1600 input currentState m (wrap S) := by
  have hother (q : ℕ) : ((wrap S).pols q).connected = (S.pols q).connected ∧
      ((wrap S).pols q).sOut = (S.pols q).sOut := by
    rw [wrap_pols]
    split
    · unfold wrapRow
      split <;> exact ⟨rfl, rfl⟩
    · exact ⟨rfl, rfl⟩
  refine ⟨h.required, fun i hi t ht => ?_, fun i hi n hn => ?_, fun i hi => ?_⟩
  · rw [(hother _).1, h.rows i hi t ht]
    rfl
  · have hlt := bitRow_lt hn
    rw [wrap_pols]
    rcases Nat.eq_zero_or_pos i with rfl | hi0
    · rw [Nat.mul_zero, Nat.zero_add, if_pos hlt, wrapRow_bitRow S hn, h.current, if_pos rfl]
    · rw [if_neg (by omega), h.rows i hi _ (by omega), slotRow_bitRow _ hn, if_neg hi0.ne',
        Slot.shown, runSlot]
      dsimp only
      rw [if_pos hi0]
  · rw [(hother _).2, h.rows i hi 1992 (by omega), slotRow_last]
    rfl

theorem execute_spec (KeccakF1600 : KeccakState → KeccakState) (currentState : KeccakState)
    (hsize : input.length ≤ nSlots) (hdata : ∀ i, (blockData input i).length ≤ 136) :
    ∃ S, execute KeccakF1600 input currentState = some S ∧
      Executed KeccakF1600 input currentState nSlots S :=
  ⟨_, if_neg (Nat.not_lt.mpr hsize), (run_spec hdata nSlots).executed⟩

end Executor

end PaddingKKBitExecutor

end ZkevmProver
