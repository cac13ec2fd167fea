import Mathlib.Order.Interval.Finset.Nat
import ZkevmProver.Lib.Bits
import ZkevmProver.Lib.Loops

/-!
# Adders of gates

The hash functions are compiled to circuits: a gate is put at a free reference, and reads the pins of gates
that are there already.  `GateU32_add` and `GateU64_add` are ripple-carry adders.

  1. Gates.
  2. The functions of a gate state.
  3. The adders.
  4. References.
  5. One gate.
  6. Sums.
-/

namespace ZkevmProver

open Function

/-! ## Gates -/

inductive PinId
  | pin_a
  | pin_b
  | pin_r
  deriving DecidableEq

inductive PinSource
  | external
  | wired
  | gated
  deriving DecidableEq

inductive GateOperation
  | gop_unknown
  | gop_xor
  | gop_andp
  | gop_or
  | gop_and
  | gop_ch
  | gop_maj
  | gop_add
  deriving DecidableEq

structure Pin where
  source : PinSource
  wiredRef : ℕ
  wiredPinId : PinId
  fanOut : ℕ
  /-- 0 or 1 -/
  bit : Bool
  connectionsToInputA : List ℕ
  connectionsToInputB : List ℕ
  deriving DecidableEq

structure Gate where
  op : GateOperation
  pin : PinId → Pin

/-- `Pin::reset` -/
def Pin.reset (id : PinId) : Pin where
  source := if id = .pin_r then .gated else .external
  wiredRef := 0
  wiredPinId := .pin_r
  fanOut := 0
  bit := false
  connectionsToInputA := []
  connectionsToInputB := []

/-- `Gate::reset`: the value of a gate is that of `XOR(0,0)`. -/
def Gate.reset : Gate := ⟨.gop_xor, Pin.reset⟩

structure GateConfig where
  zeroRef : ℕ
  slotSize : ℕ
  maxRefs : ℕ
  firstNextRef : ℕ
  sinRef0 : ℕ
  sinRefNumber : ℕ
  sinRefDistance : ℕ
  soutRef0 : ℕ
  soutRefNumber : ℕ
  soutRefDistance : ℕ
  polLength : ℕ
  deriving DecidableEq

def KeccakGateConfig : GateConfig :=
  ⟨0, 155286, 160000, 1, 45, 1600, 44, 45 + 1600 * 44, 1600, 44, 1 <<< 23⟩

def SHA256GateConfig : GateConfig :=
  ⟨0, 160480, 170000, 1, 45, 768, 44, 45 + 768 * 44, 256, 44, 1 <<< 23⟩

structure GateState where
  gateConfig : GateConfig
  nextRef : ℕ
  /-- The references of the gates, in the order of the operations. -/
  program : List ℕ
  gate : ℕ → Gate
  xors : ℕ
  ors : ℕ
  andps : ℕ
  ands : ℕ

structure GateBit where
  ref : ℕ
  pin : PinId
  deriving DecidableEq

/-! ## The functions of a gate state

`none` stands for a `zkassert` that fails, or an exit of the process. -/

namespace GateConfig

/-- The last of `number` references, computed in 64 bits. -/
def lastRef (ref0 number distance : ℕ) : ℕ := (ref0 + (number + 2 ^ 64 - 1) % 2 ^ 64 * distance) % 2 ^ 64

/-- A reference of a pin of the input or the output. -/
def onPin (nextRef ref0 number distance : ℕ) : Bool :=
  nextRef ≥ ref0 ∧ nextRef ≤ lastRef ref0 number distance ∧ (nextRef - ref0) % distance = 0

/-- `getFreeRef` goes on to the next reference. -/
def skips (c : GateConfig) (nextRef : ℕ) : Bool :=
  nextRef = c.zeroRef || onPin nextRef c.sinRef0 c.sinRefNumber c.sinRefDistance ||
    onPin nextRef c.soutRef0 c.soutRefNumber c.soutRefDistance

/-- No reference is skipped from here on. -/
def bound (c : GateConfig) : ℕ :=
  max c.zeroRef (max (lastRef c.sinRef0 c.sinRefNumber c.sinRefDistance)
    (lastRef c.soutRef0 c.soutRefNumber c.soutRefDistance)) + 1

/-- The loop of `getFreeRef`, over the references up to the bound. -/
def skip (c : GateConfig) : ℕ → ℕ → ℕ
  | 0, nextRef => nextRef
  | fuel + 1, nextRef => if c.skips nextRef then skip c fuel (nextRef + 1) else nextRef

end GateConfig

namespace GateState

/-- `resetBitsAndCounters`, of a new state. -/
def new (gateConfig : GateConfig) : GateState where
  gateConfig := gateConfig
  nextRef := gateConfig.firstNextRef
  program := []
  gate := update (fun _ => .reset) gateConfig.zeroRef
    { Gate.reset with
      pin := fun id => { Pin.reset id with bit := id ≠ .pin_a } }
  xors := 0
  ors := 0
  andps := 0
  ands := 0

def bit (S : GateState) (b : GateBit) : Bool := ((S.gate b.ref).pin b.pin).bit

def setOp (S : GateState) (ref : ℕ) (op : GateOperation) : GateState :=
  { S with gate := update S.gate ref { S.gate ref with op := op } }

/-- Changes a pin. -/
def setPin (S : GateState) (b : GateBit) (f : Pin → Pin) : GateState :=
  { S with
    gate := update S.gate b.ref
      { S.gate b.ref with pin := update (S.gate b.ref).pin b.pin (f ((S.gate b.ref).pin b.pin)) } }

def getFreeRef (S : GateState) : Option (ℕ × GateState) :=
  if S.nextRef < S.gateConfig.maxRefs then
    let result := S.nextRef
    let nextRef := S.gateConfig.skip (S.gateConfig.bound - (S.nextRef + 1)) (S.nextRef + 1)
    if nextRef < S.gateConfig.maxRefs then some (result, { S with nextRef }) else none
  else none

/-- The value of a gate, and the counter of its operation. -/
def setResult (S : GateState) (op : GateOperation) (a b : GateBit) (refR : ℕ) : Option GateState :=
  match op with
  | .gop_xor =>
    some { S.setPin ⟨refR, .pin_r⟩ ({ · with bit := S.bit a ^^ S.bit b }) with xors := S.xors + 1 }
  | .gop_or =>
    some { S.setPin ⟨refR, .pin_r⟩ ({ · with bit := S.bit a || S.bit b }) with ors := S.ors + 1 }
  | .gop_andp =>
    some { S.setPin ⟨refR, .pin_r⟩ ({ · with bit := !S.bit a && S.bit b }) with andps := S.andps + 1 }
  | .gop_and =>
    some { S.setPin ⟨refR, .pin_r⟩ ({ · with bit := S.bit a && S.bit b }) with ands := S.ands + 1 }
  | _ => none

/-- The type and the connections of a gate. -/
def wire (S : GateState) (op : GateOperation) (a b : GateBit) (refR : ℕ) : GateState :=
  let S := S.setOp refR op
  let S := S.setPin ⟨refR, .pin_a⟩
    ({ · with source := .wired, wiredRef := a.ref, wiredPinId := a.pin, bit := S.bit a })
  let S := S.setPin ⟨refR, .pin_b⟩
    ({ · with source := .wired, wiredRef := b.ref, wiredPinId := b.pin, bit := S.bit b })
  S.setPin ⟨refR, .pin_r⟩ ({ · with source := .gated, wiredRef := refR })

/-- The fan-out counters and the connections of the operands. -/
def connect (S : GateState) (a b : GateBit) (refR : ℕ) : GateState :=
  let S := if a.ref ≠ refR then
      S.setPin a fun p =>
        { p with fanOut := p.fanOut + 1, connectionsToInputA := p.connectionsToInputA ++ [refR] }
    else S
  if b.ref ≠ refR then
    S.setPin b fun p =>
      { p with fanOut := p.fanOut + 1, connectionsToInputB := p.connectionsToInputB ++ [refR] }
  else S

def OP (S : GateState) (op : GateOperation) (a b : GateBit) (refR : ℕ) : Option GateState :=
  if a.ref < S.gateConfig.maxRefs ∧ b.ref < S.gateConfig.maxRefs ∧ refR < S.gateConfig.maxRefs then do
    let S ← (S.wire op a b refR).setResult op a b refR
    let S := S.connect a b refR
    return { S with program := S.program ++ [refR] }
  else none

/-- An operation at a free reference, and its result. -/
def newGate (S : GateState) (op : GateOperation) (a b : GateBit) : Option (GateBit × GateState) := do
  let (ref, S) ← S.getFreeRef
  let S ← S.OP op a b ref
  return (⟨ref, .pin_r⟩, S)

end GateState

/-! ## The adders -/

namespace GateAdder

/-- The bits of a word of gates, `bit[0]` the lowest. -/
abbrev Word := ℕ → GateBit

structure Vars where
  S : GateState
  r : Word
  carry : GateBit

/-- One round of the loop, over the bits of words of `width` bits. -/
def addBit (width : ℕ) (a b : Word) (v : Vars) (i : ℕ) : Option Vars := do
  if i = 0 then
    let (r, S) ← v.S.newGate .gop_xor (a i) (b i)
    let (carry, S) ← S.newGate .gop_and (a i) (b i)
    return ⟨S, update v.r i r, carry⟩
  else
    let (aux, S) ← v.S.newGate .gop_xor (a i) (b i)
    let (r, S) ← S.newGate .gop_xor aux v.carry
    if i < width - 1 then
      let (and1, S) ← S.newGate .gop_and (a i) (b i)
      let (and2, S) ← S.newGate .gop_and v.carry (b i)
      let (and3, S) ← S.newGate .gop_and (a i) v.carry
      let (or, S) ← S.newGate .gop_or and1 and2
      let (carry, S) ← S.newGate .gop_or or and3
      return ⟨S, update v.r i r, carry⟩
    else return ⟨S, update v.r i r, v.carry⟩

def add (width : ℕ) (S : GateState) (a b r : Word) : Option (GateState × Word) := do
  let v ← (List.range width).foldlM (addBit width a b) ⟨S, r, ⟨S.gateConfig.zeroRef, .pin_a⟩⟩
  return (v.S, v.r)

end GateAdder

namespace GateConfig

/-- The constant zero, and the pins of the input and the output. -/
def Pinned (c : GateConfig) (ref : ℕ) : Prop :=
  ref = c.zeroRef ∨ (∃ i < c.sinRefNumber, ref = c.sinRef0 + i * c.sinRefDistance) ∨
    ∃ i < c.soutRefNumber, ref = c.soutRef0 + i * c.soutRefDistance

/-- `number` references at a distance, in an array of `maxRefs` gates. -/
structure Spaced (maxRefs ref0 number distance : ℕ) : Prop where
  number_pos : 0 < number
  distance_pos : 0 < distance
  last_lt : ref0 + (number - 1) * distance < maxRefs

/-- What a configuration has to keep. -/
structure Valid (c : GateConfig) : Prop where
  maxRefs_lt : c.maxRefs < 2 ^ 64
  zeroRef_lt : c.zeroRef < c.maxRefs
  sin : Spaced c.maxRefs c.sinRef0 c.sinRefNumber c.sinRefDistance
  sout : Spaced c.maxRefs c.soutRef0 c.soutRefNumber c.soutRefDistance
  firstNextRef : c.skips c.firstNextRef = false

theorem valid_keccak : KeccakGateConfig.Valid where
  maxRefs_lt := by decide
  zeroRef_lt := by decide
  sin := ⟨by decide, by decide, by decide⟩
  sout := ⟨by decide, by decide, by decide⟩
  firstNextRef := by decide

theorem valid_sha256 : SHA256GateConfig.Valid where
  maxRefs_lt := by decide
  zeroRef_lt := by decide
  sin := ⟨by decide, by decide, by decide⟩
  sout := ⟨by decide, by decide, by decide⟩
  firstNextRef := by decide

variable {c : GateConfig} {ref : ℕ}

theorem lastRef_eq {maxRefs ref0 number distance : ℕ} (h : Spaced maxRefs ref0 number distance)
    (hmax : maxRefs < 2 ^ 64) : lastRef ref0 number distance = ref0 + (number - 1) * distance := by
  obtain ⟨hnumber, hdistance, hlast⟩ := h
  have hle : number - 1 ≤ (number - 1) * distance := Nat.le_mul_of_pos_right _ hdistance
  have hmod : (number + 2 ^ 64 - 1) % 2 ^ 64 = number - 1 := by omega
  rw [lastRef, hmod, Nat.mod_eq_of_lt (by omega)]

theorem onPin_iff {maxRefs ref0 number distance : ℕ} (h : Spaced maxRefs ref0 number distance)
    (hmax : maxRefs < 2 ^ 64) :
    onPin ref ref0 number distance = true ↔ ∃ i < number, ref = ref0 + i * distance := by
  have hpos := h.distance_pos
  have hnumber := h.number_pos
  unfold onPin
  rw [lastRef_eq h hmax, decide_eq_true_iff]
  constructor
  · rintro ⟨hge, hle, hmod⟩
    obtain ⟨i, hi⟩ := Nat.dvd_of_mod_eq_zero hmod
    rw [Nat.mul_comm] at hi
    have hlt : i * distance ≤ (number - 1) * distance := by omega
    have hi' : i ≤ number - 1 := Nat.le_of_mul_le_mul_right hlt hpos
    exact ⟨i, by omega, by omega⟩
  · rintro ⟨i, hi, rfl⟩
    have hle : i * distance ≤ (number - 1) * distance := Nat.mul_le_mul_right _ (by omega)
    refine ⟨Nat.le_add_right _ _, Nat.add_le_add_left hle _, ?_⟩
    rw [Nat.add_sub_cancel_left, Nat.mul_mod_left]

theorem skips_iff (h : c.Valid) : c.skips ref = true ↔ c.Pinned ref := by
  unfold skips Pinned
  rw [Bool.or_eq_true, Bool.or_eq_true, decide_eq_true_iff, onPin_iff h.sin h.maxRefs_lt,
    onPin_iff h.sout h.maxRefs_lt, or_assoc]

theorem Pinned.lt (h : c.Valid) (hpin : c.Pinned ref) : ref < c.maxRefs := by
  have hlt {ref0 number distance i : ℕ} (hs : Spaced c.maxRefs ref0 number distance) (hi : i < number) :
      ref0 + i * distance < c.maxRefs := by
    have hle : i * distance ≤ (number - 1) * distance := Nat.mul_le_mul_right _ (by omega)
    have hlast := hs.last_lt
    omega
  rcases hpin with rfl | ⟨i, hi, rfl⟩ | ⟨i, hi, rfl⟩
  · exact h.zeroRef_lt
  · exact hlt h.sin hi
  · exact hlt h.sout hi

theorem lt_bound (h : c.skips ref = true) : ref < c.bound := by
  unfold skips onPin at h
  unfold bound
  simp only [Bool.or_eq_true, decide_eq_true_eq] at h
  omega

/-- The loop ends at the first reference that is not skipped. -/
theorem skip_spec (c : GateConfig) {fuel : ℕ} (hfuel : c.bound ≤ ref + fuel) :
    ref ≤ c.skip fuel ref ∧ c.skips (c.skip fuel ref) = false ∧
      ∀ q, ref ≤ q → q < c.skip fuel ref → c.skips q = true := by
  have hend {ref : ℕ} (h : c.skips ref = false) : ref ≤ ref ∧ c.skips ref = false ∧
      ∀ q, ref ≤ q → q < ref → c.skips q = true := ⟨le_rfl, h, fun q hle hlt => absurd hle (Nat.not_le.mpr hlt)⟩
  induction fuel generalizing ref with
  | zero =>
    refine hend (Bool.eq_false_iff.mpr fun h => ?_)
    exact absurd (lt_bound h) (Nat.not_lt.mpr hfuel)
  | succ fuel ih =>
    unfold skip
    by_cases h : c.skips ref = true
    · obtain ⟨hle, hfree, hskipped⟩ := ih (show c.bound ≤ ref + 1 + fuel by omega)
      rw [if_pos h]
      refine ⟨by omega, hfree, fun q hq hlt => ?_⟩
      rcases Nat.eq_or_lt_of_le hq with rfl | hq
      · exact h
      · exact hskipped q hq hlt
    · rw [if_neg h]
      exact hend (Bool.eq_false_iff.mpr h)

end GateConfig

namespace GateState

variable {S S' S'' : GateState} {a b : GateBit} {ref : ℕ}

/-- A gate whose value may be read. -/
def Defined (S : GateState) (ref : ℕ) : Prop := S.gateConfig.Pinned ref ∨ ref < S.nextRef

/-- How many references are free. -/
def free (S : GateState) : ℕ :=
  ((Finset.Ico S.nextRef S.gateConfig.maxRefs).filter fun ref => S.gateConfig.skips ref = false).card

structure Valid (S : GateState) : Prop where
  config : S.gateConfig.Valid
  next : S.gateConfig.skips S.nextRef = false

theorem valid_new {c : GateConfig} (h : c.Valid) : (new c).Valid := ⟨h, h.firstNextRef⟩

/-- Only the constant zero and the pins of the input and the output are not free. -/
theorem le_free (h : S.gateConfig.Valid) : S.gateConfig.maxRefs - S.nextRef ≤
    S.free + (1 + S.gateConfig.sinRefNumber + S.gateConfig.soutRefNumber) := by
  generalize hc : S.gateConfig = c at *
  have hsub : (Finset.Ico S.nextRef c.maxRefs).filter (fun ref => ¬c.skips ref = false) ⊆
      {c.zeroRef} ∪ (Finset.range c.sinRefNumber).image (fun i => c.sinRef0 + i * c.sinRefDistance) ∪
        (Finset.range c.soutRefNumber).image (fun i => c.soutRef0 + i * c.soutRefDistance) := by
    intro ref href
    have hskips : c.skips ref = true := by simpa using (Finset.mem_filter.mp href).2
    simp only [Finset.mem_union, Finset.mem_singleton, Finset.mem_image, Finset.mem_range, or_assoc]
    rcases (GateConfig.skips_iff h).mp hskips with hzero | ⟨i, hi, rfl⟩ | ⟨i, hi, rfl⟩
    · exact .inl hzero
    · exact .inr (.inl ⟨i, hi, rfl⟩)
    · exact .inr (.inr ⟨i, hi, rfl⟩)
  have hcard := (Finset.card_le_card hsub).trans ((Finset.card_union_le _ _).trans
    (Nat.add_le_add ((Finset.card_union_le _ _).trans (Nat.add_le_add_left Finset.card_image_le _))
      Finset.card_image_le))
  rw [Finset.card_singleton, Finset.card_range, Finset.card_range] at hcard
  have hsplit := Finset.card_filter_add_card_filter_not (s := Finset.Ico S.nextRef c.maxRefs)
    (fun ref => c.skips ref = false)
  rw [Nat.card_Ico] at hsplit
  unfold free
  rw [hc]
  omega

theorem free_pos_iff (hS : S.Valid) : 0 < S.free ↔ S.nextRef < S.gateConfig.maxRefs := by
  unfold free
  rw [Finset.card_pos]
  constructor
  · rintro ⟨q, hq⟩
    have hIco := Finset.mem_Ico.mp (Finset.mem_filter.mp hq).1
    exact hIco.1.trans_lt hIco.2
  · exact fun hlt => ⟨S.nextRef, Finset.mem_filter.mpr ⟨Finset.mem_Ico.mpr ⟨le_rfl, hlt⟩, hS.next⟩⟩

/-- After the loop of `getFreeRef`. -/
def next (S : GateState) : GateState :=
  { S with nextRef := S.gateConfig.skip (S.gateConfig.bound - (S.nextRef + 1)) (S.nextRef + 1) }

theorem next_spec (S : GateState) : S.nextRef < S.next.nextRef ∧ S.gateConfig.skips S.next.nextRef = false ∧
    ∀ q, S.nextRef < q → q < S.next.nextRef → S.gateConfig.skips q = true :=
  GateConfig.skip_spec S.gateConfig (by omega)

theorem valid_next (hS : S.Valid) : S.next.Valid := ⟨hS.config, (next_spec S).2.1⟩

theorem free_next (hS : S.Valid) (hlt : S.nextRef < S.gateConfig.maxRefs) : S.next.free + 1 = S.free := by
  obtain ⟨hnext, -, hskipped⟩ := next_spec S
  have hinsert :
      (Finset.Ico S.nextRef S.gateConfig.maxRefs).filter (fun ref => S.gateConfig.skips ref = false) =
      insert S.nextRef ((Finset.Ico S.next.nextRef S.gateConfig.maxRefs).filter
        fun ref => S.gateConfig.skips ref = false) := by
    ext q
    simp only [Finset.mem_insert, Finset.mem_filter, Finset.mem_Ico]
    constructor
    · rintro ⟨⟨hge, hmax⟩, hq⟩
      rcases Nat.eq_or_lt_of_le hge with heq | hgt
      · exact .inl heq.symm
      · refine .inr ⟨⟨?_, hmax⟩, hq⟩
        by_contra hbefore
        rw [hskipped q hgt (by omega)] at hq
        cases hq
    · rintro (rfl | ⟨⟨hge, hmax⟩, hq⟩)
      · exact ⟨⟨le_rfl, hlt⟩, hS.next⟩
      · exact ⟨⟨by omega, hmax⟩, hq⟩
  unfold free
  rw [hinsert, Finset.card_insert_of_notMem]
  · rfl
  · simp only [Finset.mem_filter, Finset.mem_Ico]
    omega

/-- A free reference is taken if there is another one after it. -/
theorem getFreeRef_eq (hS : S.Valid) :
    S.getFreeRef = if 2 ≤ S.free then some (S.nextRef, S.next) else none := by
  have hfree := free_pos_iff hS
  have hnext := free_pos_iff (valid_next hS)
  unfold getFreeRef
  by_cases hlt : S.nextRef < S.gateConfig.maxRefs
  · have hcount := free_next hS hlt
    rw [if_pos hlt]
    refine if_congr ?_ rfl rfl
    exact hnext.symm.trans (by omega)
  · rw [if_neg hlt, if_neg (by omega)]

/-! ## One gate -/

/-- The value of a pin and what it depends on; only its connections to other gates may differ. -/
structure KeepsPin (p p' : Pin) : Prop where
  source : p'.source = p.source
  wiredRef : p'.wiredRef = p.wiredRef
  wiredPinId : p'.wiredPinId = p.wiredPinId
  bit : p'.bit = p.bit

structure KeepsGate (g g' : Gate) : Prop where
  op : g'.op = g.op
  pin : ∀ id, KeepsPin (g.pin id) (g'.pin id)

theorem KeepsGate.refl (g : Gate) : KeepsGate g g := ⟨rfl, fun _ => ⟨rfl, rfl, rfl, rfl⟩⟩

theorem KeepsGate.trans {g g' g'' : Gate} (h : KeepsGate g g') (h' : KeepsGate g' g'') : KeepsGate g g'' where
  op := h'.op.trans h.op
  pin id :=
    { source := (h'.pin id).source.trans (h.pin id).source
      wiredRef := (h'.pin id).wiredRef.trans (h.pin id).wiredRef
      wiredPinId := (h'.pin id).wiredPinId.trans (h.pin id).wiredPinId
      bit := (h'.pin id).bit.trans (h.pin id).bit }

theorem gate_setPin_of_ne {f : Pin → Pin} (h : ref ≠ a.ref) : (S.setPin a f).gate ref = S.gate ref :=
  update_of_ne h _ _

theorem bit_setPin_self {f : Pin → Pin} : (S.setPin a f).bit a = (f ((S.gate a.ref).pin a.pin)).bit := by
  unfold bit setPin
  simp

theorem bit_of_gate (h : S'.gate a.ref = S.gate a.ref) : S'.bit a = S.bit a := by
  unfold bit
  rw [h]

theorem keepsGate_setPin {f : Pin → Pin} (hf : ∀ p, KeepsPin p (f p)) (ref : ℕ) :
    KeepsGate (S.gate ref) ((S.setPin a f).gate ref) := by
  by_cases h : ref = a.ref
  · subst h
    have hself : (S.setPin a f).gate a.ref =
        { S.gate a.ref with pin := update (S.gate a.ref).pin a.pin (f ((S.gate a.ref).pin a.pin)) } :=
      update_self _ _ _
    rw [hself]
    refine ⟨rfl, fun id => ?_⟩
    by_cases hid : id = a.pin
    · subst hid
      simpa using hf _
    · simpa [hid] using (KeepsGate.refl _).pin id
  · rw [gate_setPin_of_ne h]
    exact .refl _

theorem gate_wire_of_ne {op : GateOperation} {refR : ℕ} (h : ref ≠ refR) :
    (S.wire op a b refR).gate ref = S.gate ref := by
  unfold wire
  rw [gate_setPin_of_ne h, gate_setPin_of_ne h, gate_setPin_of_ne h]
  exact update_of_ne h _ _

theorem keepsGate_connect {refR : ℕ} (ref : ℕ) : KeepsGate (S.gate ref) ((S.connect a b refR).gate ref) := by
  have hkeeps {f : Pin → Pin} (hf : ∀ p, KeepsPin p (f p)) (S : GateState) (a : GateBit) (p : Prop)
      [Decidable p] : KeepsGate (S.gate ref) ((if p then S.setPin a f else S).gate ref) := by
    split
    · exact keepsGate_setPin hf ref
    · exact .refl _
  unfold connect
  refine (hkeeps ?_ S a _).trans (hkeeps ?_ _ b _)
  · exact fun _ => ⟨rfl, rfl, rfl, rfl⟩
  · exact fun _ => ⟨rfl, rfl, rfl, rfl⟩

theorem nextRef_connect (S : GateState) (a b : GateBit) (refR : ℕ) : (S.connect a b refR).nextRef = S.nextRef ∧
    (S.connect a b refR).gateConfig = S.gateConfig ∧ (S.connect a b refR).program = S.program := by
  unfold connect
  dsimp only
  split <;> split <;> exact ⟨rfl, rfl, rfl⟩

end GateState

/-- The value of an operation; `none` for the operations that `OP` does not have. -/
def GateOperation.value (op : GateOperation) (x y : Bool) : Option Bool :=
  match op with
  | .gop_xor => some (x ^^ y)
  | .gop_andp => some (!x && y)
  | .gop_or => some (x || y)
  | .gop_and => some (x && y)
  | _ => none

namespace GateState

variable {S S' S'' : GateState} {a b : GateBit} {op : GateOperation} {refR : ℕ} {v : Bool}

theorem setResult_spec (refR : ℕ) (hv : op.value (S.bit a) (S.bit b) = some v) :
    ∃ S', S.setResult op a b refR = some S' ∧ S'.bit ⟨refR, .pin_r⟩ = v ∧
      (∀ ref ≠ refR, S'.gate ref = S.gate ref) ∧
      S'.nextRef = S.nextRef ∧ S'.gateConfig = S.gateConfig ∧ S'.program = S.program := by
  have hset (v : Bool) : (S.setPin ⟨refR, .pin_r⟩ ({ · with bit := v })).bit ⟨refR, .pin_r⟩ = v :=
    bit_setPin_self
  have hother (v : Bool) :
      ∀ ref ≠ refR, (S.setPin ⟨refR, .pin_r⟩ ({ · with bit := v })).gate ref = S.gate ref :=
    fun ref href => gate_setPin_of_ne href
  unfold GateOperation.value at hv
  cases op <;> dsimp only at hv <;> first
  | (cases hv; done)
  | (obtain rfl := Option.some_inj.mp hv
     exact ⟨_, rfl, hset _, hother _, rfl, rfl, rfl⟩)

/-- An operation at a reference that its operands do not use. -/
theorem OP_spec (ha : a.ref < S.gateConfig.maxRefs)
    (hb : b.ref < S.gateConfig.maxRefs) (hR : refR < S.gateConfig.maxRefs) (hane : a.ref ≠ refR)
    (hbne : b.ref ≠ refR) (hv : op.value (S.bit a) (S.bit b) = some v) :
    ∃ S', S.OP op a b refR = some S' ∧ S'.bit ⟨refR, .pin_r⟩ = v ∧
      (∀ ref ≠ refR, KeepsGate (S.gate ref) (S'.gate ref)) ∧
      S'.nextRef = S.nextRef ∧ S'.gateConfig = S.gateConfig ∧ S'.program = S.program ++ [refR] := by
  have hwire : op.value ((S.wire op a b refR).bit a) ((S.wire op a b refR).bit b) = some v := by
    rwa [bit_of_gate (gate_wire_of_ne hane), bit_of_gate (gate_wire_of_ne hbne)]
  obtain ⟨S₁, heq, hbit, hgate, hnext, hconfig, hprogram⟩ := setResult_spec refR hwire
  obtain ⟨hnext', hconfig', hprogram'⟩ := nextRef_connect S₁ a b refR
  refine ⟨{ S₁.connect a b refR with program := (S₁.connect a b refR).program ++ [refR] }, ?_, ?_,
    fun ref href => ?_, hnext'.trans hnext, hconfig'.trans hconfig, ?_⟩
  · unfold OP
    rw [if_pos ⟨ha, hb, hR⟩, heq]
    rfl
  · exact ((keepsGate_connect refR).pin .pin_r).bit.trans hbit
  · have hkeeps : KeepsGate (S₁.gate ref) ((S₁.connect a b refR).gate ref) := keepsGate_connect ref
    rwa [hgate ref href, gate_wire_of_ne href] at hkeeps
  · exact congrArg (· ++ [refR]) (hprogram'.trans hprogram)

/-- What a circuit that is built at the references `refs` leaves of a state. -/
structure Extends (S S' : GateState) (refs : List ℕ) : Prop where
  valid : S'.Valid
  gateConfig : S'.gateConfig = S.gateConfig
  program : S'.program = S.program ++ refs
  nodup : refs.Nodup
  /-- No constant, no pin of the input or the output, and not in use. -/
  fresh : ∀ ref ∈ refs, ¬S.Defined ref
  defined : ∀ ref ∈ refs, S'.Defined ref
  keepsDefined : ∀ ref, S.Defined ref → S'.Defined ref
  keepsGate : ∀ ref, S.Defined ref → KeepsGate (S.gate ref) (S'.gate ref)
  free : S'.free + refs.length = S.free

theorem Extends.refl (h : S.Valid) : Extends S S [] where
  valid := h
  gateConfig := rfl
  program := (List.append_nil _).symm
  nodup := List.nodup_nil
  fresh := nofun
  defined := nofun
  keepsDefined _ h := h
  keepsGate _ _ := .refl _
  free := rfl

theorem Extends.trans {refs refs' : List ℕ} (h : Extends S S' refs) (h' : Extends S' S'' refs') :
    Extends S S'' (refs ++ refs') where
  valid := h'.valid
  gateConfig := h'.gateConfig.trans h.gateConfig
  program := by rw [h'.program, h.program, List.append_assoc]
  nodup := by
    refine List.nodup_append'.mpr ⟨h.nodup, h'.nodup, fun ref href href' => ?_⟩
    exact h'.fresh ref href' (h.defined ref href)
  fresh ref href := by
    rcases List.mem_append.mp href with href | href
    · exact h.fresh ref href
    · exact fun hdefined => h'.fresh ref href (h.keepsDefined ref hdefined)
  defined ref href := by
    rcases List.mem_append.mp href with href | href
    · exact h'.keepsDefined ref (h.defined ref href)
    · exact h'.defined ref href
  keepsDefined ref hdefined := h'.keepsDefined ref (h.keepsDefined ref hdefined)
  keepsGate ref hdefined := (h.keepsGate ref hdefined).trans (h'.keepsGate ref (h.keepsDefined ref hdefined))
  free := by
    rw [List.length_append]
    have := h.free
    have := h'.free
    omega

theorem Extends.bit {refs : List ℕ} (h : Extends S S' refs) (ha : S.Defined a.ref) : S'.bit a = S.bit a :=
  ((h.keepsGate a.ref ha).pin a.pin).bit

/-- An operand, and its value. -/
structure Reads (S : GateState) (a : GateBit) (x : Bool) : Prop where
  defined : S.Defined a.ref
  bit : S.bit a = x

variable {x y : Bool}

theorem Reads.mono {refs : List ℕ} (ha : S.Reads a x) (h : Extends S S' refs) : S'.Reads a x :=
  ⟨h.keepsDefined _ ha.defined, (h.bit ha.defined).trans ha.bit⟩

theorem Defined.lt_maxRefs {ref : ℕ} (h : S.Defined ref) (hS : S.Valid) (hfree : 0 < S.free) :
    ref < S.gateConfig.maxRefs := by
  rcases h with hpin | hlow
  · exact hpin.lt hS.config
  · exact hlow.trans ((free_pos_iff hS).mp hfree)

theorem Defined.ne_nextRef {ref : ℕ} (h : S.Defined ref) (hS : S.Valid) : ref ≠ S.nextRef := by
  rintro rfl
  rcases h with hpin | hself
  · have htrue := (GateConfig.skips_iff hS.config).mpr hpin
    rw [hS.next] at htrue
    cases htrue
  · exact Nat.lt_irrefl _ hself

/-- One more gate, whose operands are not at its reference. -/
theorem newGate_of_ne (hS : S.Valid) (ha : a.ref < S.gateConfig.maxRefs) (hb : b.ref < S.gateConfig.maxRefs)
    (hane : a.ref ≠ S.nextRef) (hbne : b.ref ≠ S.nextRef) (hfree : 2 ≤ S.free)
    (hv : op.value (S.bit a) (S.bit b) = some v) :
    ∃ S', S.newGate op a b = some (⟨S.nextRef, .pin_r⟩, S') ∧ Extends S S' [S.nextRef] ∧
      S'.Reads ⟨S.nextRef, .pin_r⟩ v ∧ S'.nextRef = S.next.nextRef ∧
      ∀ ref ≠ S.nextRef, KeepsGate (S.gate ref) (S'.gate ref) := by
  have hget : S.getFreeRef = some (S.nextRef, S.next) := (getFreeRef_eq hS).trans (if_pos hfree)
  have hmax : S.nextRef < S.gateConfig.maxRefs := (free_pos_iff hS).mp (by omega)
  have hlt := (next_spec S).1
  have hfresh : ¬S.Defined S.nextRef := fun h => h.ne_nextRef hS rfl
  obtain ⟨S₁, hop, hbit, hkeeps, hnext, hconfig, hprogram⟩ := OP_spec (S := S.next) ha hb hmax hane hbne hv
  have hown : S₁.Defined S.nextRef := .inr (hnext ▸ hlt)
  refine ⟨S₁, ?_, ?_, ⟨hown, hbit⟩, hnext, hkeeps⟩
  · unfold newGate
    rw [hget]
    dsimp only [Option.bind_eq_bind, Option.bind_some]
    rw [hop]
    rfl
  · refine ⟨⟨?_, ?_⟩, hconfig, hprogram, List.nodup_singleton _, ?_, ?_, ?_, ?_, ?_⟩
    · rw [hconfig]
      exact hS.config
    · rw [hconfig, hnext]
      exact (valid_next hS).next
    · intro ref href
      rw [List.mem_singleton.mp href]
      exact hfresh
    · intro ref href
      rw [List.mem_singleton.mp href]
      exact hown
    · rintro ref (hpin | hlow)
      · refine .inl ?_
        rwa [hconfig]
      · refine .inr ?_
        rw [hnext]
        exact hlow.trans hlt
    · exact fun ref href => hkeeps ref fun heq => hfresh (heq ▸ href)
    · rw [← free_next hS hmax, List.length_singleton]
      unfold free
      rw [hconfig, hnext]

/-- One more gate. -/
theorem newGate_spec (op : GateOperation) (hS : S.Valid) (ha : S.Reads a x) (hb : S.Reads b y)
    (hfree : 2 ≤ S.free) (hv : op.value x y = some v) :
    ∃ g S', S.newGate op a b = some (g, S') ∧ Extends S S' [g.ref] ∧ S'.Reads g v := by
  obtain ⟨ha, rfl⟩ := ha
  obtain ⟨hb, rfl⟩ := hb
  obtain ⟨S', hnew, hext, hread, -⟩ := newGate_of_ne hS (ha.lt_maxRefs hS (by omega)) (hb.lt_maxRefs hS (by omega))
    (ha.ne_nextRef hS) (hb.ne_nextRef hS) hfree hv
  exact ⟨_, S', hnew, hext, hread⟩

/-- One more gate of a circuit. -/
theorem Extends.newGate {S₀ : GateState} {refs : List ℕ} (h : Extends S₀ S refs) (op : GateOperation)
    (ha : S.Reads a x) (hb : S.Reads b y) (hroom : refs.length + 2 ≤ S₀.free) (hv : op.value x y = some v) :
    ∃ g S', S.newGate op a b = some (g, S') ∧ Extends S S' [g.ref] ∧ Extends S₀ S' (refs ++ [g.ref]) ∧
      S'.Reads g v := by
  have hfree := h.free
  obtain ⟨g, S', hnew, hext, hread⟩ := newGate_spec op h.valid ha hb (by omega) hv
  exact ⟨g, S', hnew, hext, h.trans hext, hread⟩

/-- What `n` gates that are built at free references leave. -/
structure Takes (S S' : GateState) (n : ℕ) : Prop where
  valid : S'.Valid
  free : S'.free + n = S.free
  room : 0 < S'.free

theorem Takes.trans {m n : ℕ} (h : Takes S S' m) (h' : Takes S' S'' n) : Takes S S'' (m + n) := by
  refine ⟨h'.valid, ?_, h'.room⟩
  rw [← h.free, ← h'.free]
  omega

theorem getFreeRef_takes (hS : S.Valid) (h : S.getFreeRef = some (ref, S')) : Takes S S' 1 := by
  rw [getFreeRef_eq hS] at h
  split at h
  case isFalse => cases h
  case isTrue hfree =>
    obtain ⟨-, rfl⟩ := Prod.mk.inj (Option.some_inj.mp h)
    have hcount := free_next hS ((free_pos_iff hS).mp (by omega))
    exact ⟨valid_next hS, hcount, by omega⟩

theorem setResult_keeps (h : S.setResult op a b ref = some S') :
    S'.nextRef = S.nextRef ∧ S'.gateConfig = S.gateConfig := by
  cases op <;> first
  | (cases h; done)
  | (obtain rfl := Option.some_inj.mp h
     exact ⟨rfl, rfl⟩)

theorem OP_keeps (h : S.OP op a b ref = some S') : S'.nextRef = S.nextRef ∧ S'.gateConfig = S.gateConfig := by
  unfold OP at h
  split at h
  case isFalse => cases h
  case isTrue =>
    obtain ⟨S₁, hresult, h⟩ := Option.bind_eq_some_iff.mp h
    obtain rfl := Option.some_inj.mp h
    obtain ⟨hnext, hconfig, -⟩ := nextRef_connect S₁ a b ref
    obtain ⟨hnext', hconfig'⟩ := setResult_keeps hresult
    exact ⟨hnext.trans hnext', hconfig.trans hconfig'⟩

theorem newGate_takes {g : GateBit} (hS : S.Valid) (h : S.newGate op a b = some (g, S')) : Takes S S' 1 := by
  obtain ⟨⟨ref, S₁⟩, hget, h⟩ := Option.bind_eq_some_iff.mp h
  obtain ⟨S₂, hop, h⟩ := Option.bind_eq_some_iff.mp h
  obtain ⟨-, rfl⟩ := Prod.mk.inj (Option.some_inj.mp h)
  obtain ⟨hvalid, hfree, hroom⟩ := getFreeRef_takes hS hget
  obtain ⟨hnext, hconfig⟩ := OP_keeps hop
  have heq : S₂.free = S₁.free := by
    unfold free
    rw [hnext, hconfig]
  refine ⟨⟨?_, ?_⟩, heq ▸ hfree, heq ▸ hroom⟩
  · rw [hconfig]
    exact hvalid.config
  · rw [hnext, hconfig]
    exact hvalid.next

end GateState

/-! ## Sums -/

namespace GateAdder

open GateState

variable {width i : ℕ} {a b : Word} {v v' : Vars}

/-- The number of a word. -/
def value (S : GateState) (width : ℕ) (word : Word) : ℕ := Bits.pack width fun i => S.bit (word i)

/-- What a round for bit `i` does with the gates at `refs`. -/
structure Round (v v' : Vars) (i : ℕ) (refs : List ℕ) (sum : Bool) : Prop where
  grows : Extends v.S v'.S refs
  other : ∀ j ≠ i, v'.r j = v.r j
  mem : (v'.r i).ref ∈ refs
  sum : v'.S.bit (v'.r i) = sum

variable {x y c : Bool}

theorem addBit_zero (width : ℕ) (hS : v.S.Valid) (ha : v.S.Reads (a 0) x) (hb : v.S.Reads (b 0) y)
    (hfree : 3 ≤ v.S.free) :
    ∃ v' refs, addBit width a b v 0 = some v' ∧ Round v v' 0 refs (x ^^ y) ∧ refs.length = 2 ∧
      v'.S.Reads v'.carry (x && y) := by
  obtain ⟨r, S₁, hop₁, h₁, e₁, hr⟩ := (Extends.refl hS).newGate .gop_xor ha hb (by simp; omega) rfl
  obtain ⟨carry, S₂, hop₂, h₂, e₂, hcarry⟩ := e₁.newGate .gop_and (ha.mono e₁) (hb.mono e₁) (by simpa) rfl
  refine ⟨⟨S₂, update v.r 0 r, carry⟩, _, ?_, ⟨e₂, fun j hj => update_of_ne hj _ _, ?_, ?_⟩, rfl, hcarry⟩
  · simp [addBit, hop₁, hop₂]
  · simp
  · simpa using (hr.mono h₂).bit

theorem addBit_last (hi : 0 < i) (hlast : ¬i < width - 1) (hS : v.S.Valid) (ha : v.S.Reads (a i) x)
    (hb : v.S.Reads (b i) y) (hc : v.S.Reads v.carry c) (hfree : 3 ≤ v.S.free) :
    ∃ v' refs, addBit width a b v i = some v' ∧ Round v v' i refs (x ^^ y ^^ c) ∧ refs.length = 2 := by
  obtain ⟨aux, S₁, hop₁, h₁, e₁, haux⟩ := (Extends.refl hS).newGate .gop_xor ha hb (by simp; omega) rfl
  obtain ⟨r, S₂, hop₂, h₂, e₂, hr⟩ := e₁.newGate .gop_xor haux (hc.mono e₁) (by simpa) rfl
  refine ⟨⟨S₂, update v.r i r, v.carry⟩, _, ?_, ⟨e₂, fun j hj => update_of_ne hj _ _, ?_, ?_⟩, rfl⟩
  · simp [addBit, hop₁, hop₂, hlast, Nat.ne_of_gt hi]
  · simp
  · simpa using hr.bit

/-- A round that leaves a carry. -/
theorem addBit_middle (hi : 0 < i) (hlt : i < width - 1) (hS : v.S.Valid) (ha : v.S.Reads (a i) x)
    (hb : v.S.Reads (b i) y) (hc : v.S.Reads v.carry c) (hfree : 8 ≤ v.S.free) :
    ∃ v' refs, addBit width a b v i = some v' ∧ Round v v' i refs (x ^^ y ^^ c) ∧ refs.length = 7 ∧
      v'.S.Reads v'.carry (x && y || c && y || x && c) := by
  obtain ⟨aux, S₁, hop₁, h₁, e₁, haux⟩ := (Extends.refl hS).newGate .gop_xor ha hb (by simp; omega) rfl
  obtain ⟨r, S₂, hop₂, h₂, e₂, hr⟩ := e₁.newGate .gop_xor haux (hc.mono e₁) (by simp; omega) rfl
  -- the three products of the carry
  obtain ⟨and1, S₃, hop₃, h₃, e₃, hand1⟩ := e₂.newGate .gop_and (ha.mono e₂) (hb.mono e₂) (by simp; omega) rfl
  obtain ⟨and2, S₄, hop₄, h₄, e₄, hand2⟩ := e₃.newGate .gop_and (hc.mono e₃) (hb.mono e₃) (by simp; omega) rfl
  obtain ⟨and3, S₅, hop₅, h₅, e₅, hand3⟩ := e₄.newGate .gop_and (ha.mono e₄) (hc.mono e₄) (by simp; omega) rfl
  -- and their sum
  obtain ⟨or, S₆, hop₆, h₆, e₆, hor⟩ := e₅.newGate .gop_or ((hand1.mono h₄).mono h₅) (hand2.mono h₅)
    (by simp; omega) rfl
  obtain ⟨carry, S₇, hop₇, h₇, e₇, hcarry⟩ := e₆.newGate .gop_or hor (hand3.mono h₆) (by simpa) rfl
  refine ⟨⟨S₇, update v.r i r, carry⟩, _, ?_, ⟨e₇, fun j hj => update_of_ne hj _ _, ?_, ?_⟩, rfl, hcarry⟩
  · simp [addBit, hop₁, hop₂, hop₃, hop₄, hop₅, hop₆, hop₇, hlt, Nat.ne_of_gt hi]
  · simp
  · simpa using (((((hr.mono h₃).mono h₄).mono h₅).mono h₆).mono h₇).bit

/-- The value of a word, as the words of the hash functions have it. -/
def word (S : GateState) (width : ℕ) (bits : Word) : BitVec width := BitVec.ofNat width (value S width bits)

theorem getLsbD_word {S : GateState} {bits : Word} (hi : i < width) :
    (word S width bits).getLsbD i = S.bit (bits i) := by
  unfold word value
  rw [BitVec.getLsbD_ofNat, Bits.testBit_pack]
  simp [hi]

/-- How many gates the first `i` rounds take. -/
def gatesBefore (width i : ℕ) : ℕ := if i = 0 then 0 else if i < width then 7 * i - 5 else 7 * width - 10

theorem gatesBefore_of_pos (hpos : 0 < i) (hi : i < width) : gatesBefore width i = 7 * i - 5 := by
  rw [gatesBefore, if_neg (Nat.ne_of_gt hpos), if_pos hi]

theorem gatesBefore_width (hwidth : 2 ≤ width) : gatesBefore width width = 7 * width - 10 := by
  rw [gatesBefore, if_neg (by omega), if_neg (Nat.lt_irrefl _)]

/-- After `i` rounds, that took the references `refs`. -/
structure Added (S : GateState) (width : ℕ) (a b : Word) (i : ℕ) (v : Vars) (refs : List ℕ) : Prop where
  grows : Extends S v.S refs
  length : refs.length = gatesBefore width i
  mem : ∀ j < i, (v.r j).ref ∈ refs
  sum : ∀ j < i, v.S.bit (v.r j) = (word S width a + word S width b).getLsbD j
  carry : 0 < i → i < width → v.S.Reads v.carry (BitVec.carry i (word S width a) (word S width b) false)

variable {S : GateState} {r : Word} {refs refs' : List ℕ}

theorem Added.round (h : Added S width a b i v refs) (hi : i < width)
    (hround : Round v v' i refs' ((word S width a + word S width b).getLsbD i))
    (hlength : gatesBefore width i + refs'.length = gatesBefore width (i + 1))
    (hcarry : i + 1 < width →
      v'.S.Reads v'.carry (BitVec.carry (i + 1) (word S width a) (word S width b) false)) :
    Added S width a b (i + 1) v' (refs ++ refs') where
  grows := h.grows.trans hround.grows
  length := by rw [List.length_append, h.length, hlength]
  mem j hj := by
    rcases Nat.eq_or_lt_of_le (Nat.lt_succ_iff.mp hj) with rfl | hlt
    · exact List.mem_append_right _ hround.mem
    · rw [hround.other j (Nat.ne_of_lt hlt)]
      exact List.mem_append_left _ (h.mem j hlt)
  sum j hj := by
    rcases Nat.eq_or_lt_of_le (Nat.lt_succ_iff.mp hj) with rfl | hlt
    · exact hround.sum
    · rw [hround.other j (Nat.ne_of_lt hlt), ← h.sum j hlt]
      exact hround.grows.bit (h.grows.defined _ (h.mem j hlt))
  carry _ := hcarry

/-- One round takes the sum one bit further. -/
theorem Added.step (hwidth : 2 ≤ width) (ha : ∀ j < width, S.Defined (a j).ref)
    (hb : ∀ j < width, S.Defined (b j).ref) (hfree : 7 * width - 10 < S.free) (hi : i < width)
    (h : Added S width a b i v refs) :
    ∃ v', addBit width a b v i = some v' ∧ ∃ refs', Added S width a b (i + 1) v' refs' := by
  have hx : v.S.Reads (a i) ((word S width a).getLsbD i) :=
    Reads.mono ⟨ha i hi, (getLsbD_word hi).symm⟩ h.grows
  have hy : v.S.Reads (b i) ((word S width b).getLsbD i) :=
    Reads.mono ⟨hb i hi, (getLsbD_word hi).symm⟩ h.grows
  have hcount := h.grows.free
  rw [h.length] at hcount
  have hsum := BitVec.getLsbD_add hi (word S width a) (word S width b)
  have hnext := BitVec.carry_succ i (word S width a) (word S width b) false
  rcases Nat.eq_zero_or_pos i with rfl | hpos
  · obtain ⟨v', refs', heq, hround, hlen, hcarry⟩ := addBit_zero width h.grows.valid hx hy
      (by rw [gatesBefore, if_pos rfl] at hcount; omega)
    rw [BitVec.carry_zero, Bool.xor_false] at hsum
    rw [BitVec.carry_zero, Bool.atLeastTwo_false_right] at hnext
    refine ⟨v', heq, _, h.round hi (hsum ▸ hround) ?_ fun _ => hnext ▸ hcarry⟩
    rw [hlen, gatesBefore_of_pos Nat.one_pos (by omega), gatesBefore, if_pos rfl]
  · rw [← Bool.xor_assoc] at hsum
    rw [gatesBefore_of_pos hpos hi] at hcount
    have hc := h.carry hpos hi
    by_cases hlt : i < width - 1
    · obtain ⟨v', refs', heq, hround, hlen, hcarry⟩ := addBit_middle hpos hlt h.grows.valid hx hy hc (by omega)
      refine ⟨v', heq, _, h.round hi (hsum ▸ hround) ?_ fun _ => ?_⟩
      · rw [hlen, gatesBefore_of_pos hpos hi, gatesBefore_of_pos (by omega) (by omega)]
        omega
      · rw [hnext, Bool.atLeastTwo, Bool.or_right_comm]
        rwa [Bool.and_comm (BitVec.carry _ _ _ _)] at hcarry
    · obtain ⟨v', refs', heq, hround, hlen⟩ := addBit_last hpos hlt h.grows.valid hx hy hc (by omega)
      refine ⟨v', heq, _, h.round hi (hsum ▸ hround) ?_ fun hlt' => absurd hlt' (by omega)⟩
      obtain rfl : i + 1 = width := by omega
      rw [hlen, gatesBefore_of_pos hpos hi, gatesBefore_width hwidth]
      omega

/-- The adder of words of any length. -/
theorem add_spec (hwidth : 2 ≤ width) (hS : S.Valid) (ha : ∀ j < width, S.Defined (a j).ref)
    (hb : ∀ j < width, S.Defined (b j).ref) (hfree : 7 * width - 10 < S.free) (r : Word) :
    ∃ S' r' refs, add width S a b r = some (S', r') ∧ Extends S S' refs ∧
      (∀ j < width, (r' j).ref ∈ refs) ∧
      value S' width r' = (value S width a + value S width b) % 2 ^ width := by
  have hstart : Added S width a b 0 ⟨S, r, ⟨S.gateConfig.zeroRef, .pin_a⟩⟩ [] :=
    ⟨.refl hS, rfl, nofun, nofun, nofun⟩
  obtain ⟨v, heq, refs, h⟩ := Loops.foldlM_range_inv (J := fun i v => ∃ refs, Added S width a b i v refs)
    ⟨[], hstart⟩ fun i hi v ⟨refs, h⟩ => h.step hwidth ha hb hfree hi
  refine ⟨v.S, v.r, refs, ?_, h.grows, h.mem, ?_⟩
  · unfold add
    rw [heq]
    rfl
  · have hword (bits : Word) : (word S width bits).toNat = value S width bits := by
      unfold word value
      rw [BitVec.toNat_ofNat, Nat.mod_eq_of_lt (Bits.pack_lt _ _)]
    rw [← hword a, ← hword b, ← BitVec.toNat_add]
    apply Nat.eq_of_testBit_eq
    intro j
    unfold value
    rw [Bits.testBit_pack, BitVec.testBit_toNat]
    by_cases hj : j < width
    · simp [hj, h.sum j hj]
    · rw [decide_eq_false hj, Bool.false_and, BitVec.getLsbD_of_ge _ _ (Nat.not_lt.mp hj)]

theorem addBit_takes (hwidth : 2 ≤ width) (hi : i < width) (hS : v.S.Valid)
    (h : addBit width a b v i = some v') :
    ∃ n, Takes v.S v'.S n ∧ gatesBefore width i + n = gatesBefore width (i + 1) := by
  unfold addBit at h
  rcases Nat.eq_zero_or_pos i with rfl | hpos
  · rw [if_pos rfl] at h
    obtain ⟨⟨r, S₁⟩, h₁, h⟩ := Option.bind_eq_some_iff.mp h
    obtain ⟨⟨carry, S₂⟩, h₂, h⟩ := Option.bind_eq_some_iff.mp h
    obtain rfl := Option.some_inj.mp h
    have e₁ := newGate_takes hS h₁
    refine ⟨2, e₁.trans (newGate_takes e₁.valid h₂), ?_⟩
    rw [gatesBefore_of_pos Nat.one_pos (by omega), gatesBefore, if_pos rfl]
  · rw [if_neg (Nat.ne_of_gt hpos)] at h
    obtain ⟨⟨aux, S₁⟩, h₁, h⟩ := Option.bind_eq_some_iff.mp h
    obtain ⟨⟨r, S₂⟩, h₂, h⟩ := Option.bind_eq_some_iff.mp h
    have e₁ := newGate_takes hS h₁
    have e₂ := e₁.trans (newGate_takes e₁.valid h₂)
    dsimp only at h
    split at h
    case isTrue hlt =>
      obtain ⟨⟨and1, S₃⟩, h₃, h⟩ := Option.bind_eq_some_iff.mp h
      obtain ⟨⟨and2, S₄⟩, h₄, h⟩ := Option.bind_eq_some_iff.mp h
      obtain ⟨⟨and3, S₅⟩, h₅, h⟩ := Option.bind_eq_some_iff.mp h
      obtain ⟨⟨or, S₆⟩, h₆, h⟩ := Option.bind_eq_some_iff.mp h
      obtain ⟨⟨carry, S₇⟩, h₇, h⟩ := Option.bind_eq_some_iff.mp h
      obtain rfl := Option.some_inj.mp h
      have e₃ := e₂.trans (newGate_takes e₂.valid h₃)
      have e₄ := e₃.trans (newGate_takes e₃.valid h₄)
      have e₅ := e₄.trans (newGate_takes e₄.valid h₅)
      have e₆ := e₅.trans (newGate_takes e₅.valid h₆)
      refine ⟨7, e₆.trans (newGate_takes e₆.valid h₇), ?_⟩
      rw [gatesBefore_of_pos hpos hi, gatesBefore_of_pos (by omega) (by omega)]
      omega
    case isFalse hlast =>
      obtain rfl := Option.some_inj.mp h
      refine ⟨2, e₂, ?_⟩
      obtain rfl : i + 1 = width := by omega
      rw [gatesBefore_of_pos hpos hi, gatesBefore_width hwidth]
      omega

/-- The gates of an adder that does not stop. -/
theorem add_takes {S' : GateState} {r' : Word} (hwidth : 2 ≤ width) (hS : S.Valid)
    (h : add width S a b r = some (S', r')) : Takes S S' (7 * width - 10) := by
  obtain ⟨v, hloop, h⟩ := Option.bind_eq_some_iff.mp h
  have hinv := Loops.foldlM_range_of_some (J := fun i v => v.S.Valid ∧
      v.S.free + gatesBefore width i = S.free ∧ (0 < i → 0 < v.S.free)) hloop
    ⟨hS, rfl, fun h => absurd h (Nat.lt_irrefl 0)⟩ ?_
  · obtain ⟨hvalid, hcount, hroom⟩ := hinv
    obtain ⟨rfl, rfl⟩ := Prod.mk.inj (Option.some_inj.mp h)
    rw [gatesBefore_width hwidth] at hcount
    exact ⟨hvalid, hcount, hroom (by omega)⟩
  · rintro i hi v v' ⟨hvalid, hcount, -⟩ hround
    obtain ⟨n, htakes, hn⟩ := addBit_takes hwidth hi hvalid hround
    have hfree := htakes.free
    exact ⟨htakes.valid, by omega, fun _ => htakes.room⟩

end GateAdder

open GateAdder

end ZkevmProver
