import ZkevmProver.SM.PaddingKKBit

/-!
# `Bits2FieldExecutor`

A slot for 44 states: the bits at one place of all their inputs, and of all their outputs, make up
one field element each.

  1. The executor.
  2. The rows of a slot.
  3. A slot and a run.
-/

namespace ZkevmProver

open Loops

structure Bits2FieldRow where
  bit : Fe := 0
  field44 : Fe := 0

instance : Inhabited Bits2FieldRow := ⟨{}⟩

namespace Bits2FieldExecutor

/-! ## The executor -/

abbrev slotSize : ℕ := 155286

/-- `Bits2FieldCommitPols::pilDegree()`, the same for every fork. -/
abbrev N : ℕ := 8388608

abbrev nSlots : ℕ := (N - 1) / slotSize

/-- Row 0 is reserved. -/
structure State where
  p : ℕ := 1
  pols : ℕ → Bits2FieldRow := fun _ => {}
  accField : Fe := 0
  required : List (List Fe) := []

section Executor

variable (input : List Bits2FieldExecutorInput)

def getBit (block : ℕ) (isOutput : Bool) (pos : ℕ) : Fe :=
  match input[block]? with
  | none => 0
  | some i => fromU64 (getStateBit (if isOutput then i.outputState else i.inputState) pos)

/-- Bit `j` of state `k` of slot `i`. -/
def addBit (i : ℕ) (isOutput : Bool) (j k : ℕ) (S : State) : State :=
  let bit := getBit input (i * 44 + k) isOutput j
  { S with
    p := S.p + 1
    pols := Function.update S.pols S.p { bit, field44 := S.accField }
    accField := if k = 0 then bit else S.accField + fromU64 (toU64 bit <<< k) }

/-- Bit `j` of the states of slot `i`. -/
def addField (i : ℕ) (isOutput : Bool) (j : ℕ) (S : State) : State :=
  forUpTo 44 (addBit input i isOutput j) S

/-- Slot `i`. -/
def slot (i : ℕ) (S : State) : State :=
  let (S, keccakFSlot) := forUpTo 1600 (fun j S =>
    let S' := addField input i false j S.1
    (S', S.2 ++ [S'.accField])) (S, [])
  let S := forUpTo 1600 (addField input i true) S
  { p := S.p + 1 + (slotSize - (3200 * 44 + 1))
    pols := Function.update S.pols S.p { S.pols S.p with field44 := S.accField }
    accField := 0
    required := S.required ++ [keccakFSlot] }

/-- `none` when the process exits. -/
def execute : Option State :=
  if input.length > nSlots * 44 then none else some (forUpTo nSlots (slot input) {})

end Executor

/-! ## The rows of a slot -/

/-- The bits that field element `g` of a slot is made of: first those of the inputs, then those of
the outputs. -/
def laneBits (input : List Bits2FieldExecutorInput) (i g k : ℕ) : Bool :=
  match input[i * 44 + k]? with
  | none => false
  | some b => if g < 1600 then stateBit b.inputState g else stateBit b.outputState (g - 1600)

theorem getBit_input (input : List Bits2FieldExecutorInput) (i : ℕ) {j : ℕ} (hj : j < 1600)
    (k : ℕ) : getBit input (i * 44 + k) false j = fromU64 (laneBits input i j k).toNat := by
  unfold getBit laneBits
  split
  · rfl
  · rw [if_pos hj, if_neg Bool.false_ne_true, getStateBit_eq]

theorem getBit_output (input : List Bits2FieldExecutorInput) (i j k : ℕ) :
    getBit input (i * 44 + k) true j = fromU64 (laneBits input i (1600 + j) k).toNat := by
  unfold getBit laneBits
  split
  · rfl
  · rw [if_neg (by omega : ¬1600 + j < 1600), Nat.add_sub_cancel_left, ← getStateBit_eq]
    rfl

/-- The accumulator before row `t` of a slot. -/
def accAt (lanes : ℕ → ℕ → Bool) (t : ℕ) : Fe :=
  if t = 0 then 0
  else if t % 44 = 0 then fromU64 (Bits.pack 44 (lanes (t / 44 - 1)))
  else fromU64 (Bits.pack (t % 44) (lanes (t / 44)))

/-- Row `t` of a slot. -/
def fieldRow (lanes : ℕ → ℕ → Bool) (t : ℕ) : Bits2FieldRow where
  bit := if t < 140800 then fromU64 (lanes (t / 44) (t % 44)).toNat else 0
  field44 := accAt lanes t

theorem accAt_succ (lanes : ℕ → ℕ → Bool) (g : ℕ) {k : ℕ} (hk : k < 44) :
    accAt lanes (44 * g + (k + 1)) = fromU64 (Bits.pack (k + 1) (lanes g)) := by
  have hpos : ¬44 * g + (k + 1) = 0 := by omega
  rw [accAt, if_neg hpos]
  by_cases hlast : k + 1 = 44
  · have hmod : (44 * g + (k + 1)) % 44 = 0 := by omega
    have hdiv : (44 * g + (k + 1)) / 44 - 1 = g := by omega
    rw [if_pos hmod, hdiv, hlast]
  · have hmod : (44 * g + (k + 1)) % 44 = k + 1 := by omega
    have hdiv : (44 * g + (k + 1)) / 44 = g := by omega
    rw [if_neg (by omega), hmod, hdiv]

/-- The first `t` rows of a slot are written. -/
structure FieldsAt (t₀ : ℕ → Bits2FieldRow) (base : ℕ) (lanes : ℕ → ℕ → Bool)
    (required : List (List Fe)) (t : ℕ) (S : State) : Prop where
  p : S.p = base + t
  filled : Loops.Filled t₀ base t (fieldRow lanes) {} S.pols
  accField : S.accField = accAt lanes t
  required : S.required = required

section Slot

variable {input : List Bits2FieldExecutorInput} {i : ℕ} {t₀ : ℕ → Bits2FieldRow} {base : ℕ}
  {required : List (List Fe)} {S : State}

theorem toU64_bit (b : Bool) : toU64 (fromU64 b.toNat) = b.toNat :=
  toU64_fromU64 ((Bool.toNat_lt b).trans (by decide))

/-- One more bit of field element `g`. -/
theorem FieldsAt.addBit {lanes : ℕ → ℕ → Bool} {isOutput : Bool} {g j k : ℕ} (hg : g < 3200)
    (hk : k < 44) (hbit : getBit input (i * 44 + k) isOutput j = fromU64 (lanes g k).toNat)
    (h : FieldsAt t₀ base lanes required (44 * g + k) S) :
    FieldsAt t₀ base lanes required (44 * g + (k + 1))
      (Bits2FieldExecutor.addBit input i isOutput j k S) := by
  have hdiv : (44 * g + k) / 44 = g := by omega
  have hmod : (44 * g + k) % 44 = k := by omega
  have hrow : ({ bit := getBit input (i * 44 + k) isOutput j, field44 := S.accField } :
      Bits2FieldRow) = fieldRow lanes (44 * g + k) := by
    rw [hbit, h.accField, fieldRow, hdiv, hmod, if_pos (by omega)]
  refine ⟨?_, ?_, ?_, h.required⟩
  · show S.p + 1 = _
    rw [h.p, Nat.add_assoc, Nat.add_assoc]
  · show Loops.Filled t₀ base (44 * g + (k + 1)) _ {} (Function.update S.pols S.p _)
    rw [hrow, h.p]
    exact h.filled.write
  · show (if k = 0 then getBit input (i * 44 + k) isOutput j
      else S.accField + fromU64 (toU64 (getBit input (i * 44 + k) isOutput j) <<< k)) = _
    rw [accAt_succ lanes g hk, hbit, toU64_bit, Bits.pack_succ]
    rcases k with _ | k
    · rw [if_pos rfl, Nat.shiftLeft_zero]
      exact congrArg fromU64 (Nat.zero_add _).symm
    · rw [if_neg (Nat.succ_ne_zero k), h.accField, accAt_succ lanes g (by omega), ← fromU64_add]

/-- A field element. -/
theorem FieldsAt.addField {lanes : ℕ → ℕ → Bool} {isOutput : Bool} {g j : ℕ} (hg : g < 3200)
    (hbit : ∀ k, getBit input (i * 44 + k) isOutput j = fromU64 (lanes g k).toNat)
    (h : FieldsAt t₀ base lanes required (44 * g) S) :
    FieldsAt t₀ base lanes required (44 * (g + 1))
      (Bits2FieldExecutor.addField input i isOutput j S) :=
  forUpTo_inv (J := fun k S => FieldsAt t₀ base lanes required (44 * g + k) S) h
    fun k hk _ h => h.addBit hg hk (hbit k)

/-- A field element holds the bits of its lanes. -/
theorem testBit_field (bits : ℕ → Bool) {k : ℕ} (hk : k < 44) :
    (toU64 (fromU64 (Bits.pack 44 bits))).testBit k = bits k := by
  rw [toU64_fromU64 ((Bits.pack_lt _ _).trans (by decide)), Bits.testBit_pack, decide_eq_true hk,
    Bool.true_and]

/-! ## A slot and a run -/

/-- The field elements that slot `i` hands over. -/
def slotFields (input : List Bits2FieldExecutorInput) (i : ℕ) : List Fe :=
  (List.range 1600).map fun j => fromU64 (Bits.pack 44 (laneBits input i j))

theorem slot_spec (input : List Bits2FieldExecutorInput) (i : ℕ)
    (hfresh : ∀ q, S.p ≤ q → S.pols q = {}) (hacc : S.accField = 0) :
    let S' := slot input i S
    S'.p = S.p + slotSize ∧ S'.accField = 0 ∧
      S'.required = S.required ++ [slotFields input i] ∧
      Loops.Filled S.pols S.p 140801 (fieldRow (laneBits input i)) {} S'.pols := by
  have hinit : FieldsAt S.pols S.p (laneBits input i) S.required 0 S :=
    ⟨rfl, Loops.Filled.start hfresh, hacc, rfl⟩
  obtain ⟨hin, hfields⟩ : FieldsAt S.pols S.p (laneBits input i) S.required (44 * 1600)
        (forUpTo 1600 (fun j S => let S' := addField input i false j S.1
          (S', S.2 ++ [S'.accField])) (S, [])).1 ∧
      (forUpTo 1600 (fun j S => let S' := addField input i false j S.1
          (S', S.2 ++ [S'.accField])) (S, [])).2 = slotFields input i := by
    refine forUpTo_inv (J := fun j (S' : State × List Fe) =>
      FieldsAt S.pols S.p (laneBits input i) S.required (44 * j) S'.1 ∧
        S'.2 = (List.range j).map fun j => fromU64 (Bits.pack 44 (laneBits input i j)))
      ⟨hinit, rfl⟩ ?_
    rintro j hj ⟨S', fields⟩ ⟨h, rfl⟩
    have hfield : FieldsAt S.pols S.p (laneBits input i) S.required (44 * (j + 1)) _ :=
      h.addField (by omega) fun k => getBit_input input i hj k
    refine ⟨hfield, ?_⟩
    dsimp only
    rw [hfield.accField, Nat.mul_succ, accAt_succ _ j (by decide : 43 < 44), List.range_succ,
      List.map_append]
    rfl
  generalize hS₁ : forUpTo 1600 (fun j S => let S' := addField input i false j S.1
    (S', S.2 ++ [S'.accField])) (S, []) = S₁ at *
  have hout : FieldsAt S.pols S.p (laneBits input i) S.required (44 * (1600 + 1600))
      (forUpTo 1600 (addField input i true) S₁.1) :=
    forUpTo_inv (J := fun j S' =>
        FieldsAt S.pols S.p (laneBits input i) S.required (44 * (1600 + j)) S') hin
      fun j hj _ h => h.addField (by omega : 1600 + j < 3200) (getBit_output input i j)
  generalize hS₂ : forUpTo 1600 (addField input i true) S₁.1 = S₂ at *
  have hslot : slot input i S = { S₂ with
      p := S₂.p + 1 + (slotSize - (3200 * 44 + 1))
      pols := Function.update S₂.pols S₂.p { S₂.pols S₂.p with field44 := S₂.accField }
      accField := 0
      required := S₂.required ++ [slotFields input i] } := by
    unfold slot
    rw [hS₁]
    dsimp only
    rw [hS₂, hfields]
  have hrow : { S₂.pols S₂.p with field44 := S₂.accField } =
      fieldRow (laneBits input i) 140800 := by
    rw [hout.p, hout.filled.next, hout.accField]
    rfl
  intro S'
  have hS' : S' = _ := hslot
  rw [hS', hrow, hout.required, hout.p]
  refine ⟨?_, rfl, rfl, hout.filled.write⟩
  show S.p + 140800 + 1 + 14485 = S.p + 155286
  omega

end Slot

/-- What `m` slots hand over and what their table shows. -/
structure Packed (input : List Bits2FieldExecutorInput) (m : ℕ) (S : State) : Prop where
  required : S.required = (List.range m).map (slotFields input)
  rows : ∀ i < m, ∀ t < 140801,
    S.pols (1 + slotSize * i + t) = fieldRow (laneBits input i) t

theorem run_spec (input : List Bits2FieldExecutorInput) (m : ℕ) :
    Packed input m (forUpTo m (slot input) {}) := by
  have hrun : Packed input m (forUpTo m (slot input) {}) ∧
      (forUpTo m (slot input) {}).p = 1 + slotSize * m ∧
      (forUpTo m (slot input) {}).accField = 0 ∧
      ∀ q, 1 + slotSize * m ≤ q → (forUpTo m (slot input) {}).pols q = {} := by
    refine forUpTo_inv (J := fun m S => Packed input m S ∧ S.p = 1 + slotSize * m ∧
      S.accField = 0 ∧ ∀ q, 1 + slotSize * m ≤ q → S.pols q = {})
      ⟨⟨rfl, fun i hi => absurd hi (Nat.not_lt_zero i)⟩, rfl, rfl, fun _ _ => rfl⟩ ?_
    rintro i hi S ⟨hpacked, hp, hacc, hfresh⟩
    obtain ⟨hp', hacc', hrequired, hfilled⟩ : _ ∧ _ ∧ (slot input i S).required = _ ∧
        Loops.Filled S.pols S.p 140801 _ {} _ :=
      slot_spec input i (fun q hq => hfresh q (by rwa [hp] at hq)) hacc
    have hstart : S.p + slotSize = 1 + slotSize * (i + 1) := by
      rw [hp, Nat.mul_succ, Nat.add_assoc]
    refine ⟨⟨?_, fun i' hi' t ht => ?_⟩, hp'.trans hstart, hacc', fun q hq => ?_⟩
    · rw [hrequired, hpacked.required, List.range_succ, List.map_append]
      rfl
    · rcases Nat.lt_succ_iff_lt_or_eq.mp hi' with hi' | rfl
      · rw [hfilled.before _ ?_, hpacked.rows i' hi' t ht]
        have hlt : 1 + 155286 * i' + t < 1 + 155286 * i := by omega
        rw [hp]
        exact hlt
      · rw [← hp, hfilled.rows t ht]
    · refine hfilled.fresh q ?_
      rw [← hstart] at hq
      exact (Nat.add_lt_add_left (by decide : 140801 < slotSize) S.p).trans_le hq
  exact hrun.1

theorem execute_spec {input : List Bits2FieldExecutorInput} (hsize : input.length ≤ nSlots * 44) :
    ∃ S, execute input = some S ∧ Packed input nSlots S :=
  ⟨_, if_neg (Nat.not_lt.mpr hsize), run_spec input nSlots⟩

end Bits2FieldExecutor

end ZkevmProver
