import ZkevmProver.SM.GateAdders

/-!
# Words of gates

The circuits of the hash functions are built by operations on words of gates.  A program adds gates to a
state; what it is proved to build stays when further gates are added.

  1. Programs.
  2. Words.
  3. The rules of programs.
  4. What the operations build.
  5. The input.
-/

namespace ZkevmProver

open Function GateState
open GateAdder (Word)

/-! ## Programs -/

/-- A function that adds gates to a state. -/
abbrev GateProgram := StateT GateState Option

/-! ## Words -/

namespace GateWord

/-- `GateU32::fromU32` and `GateU64::fromU64`: the constants zero and one are pins of one gate. -/
def constant {width : ℕ} (zeroRef : ℕ) (value : BitVec width) : Word :=
  fun i => ⟨zeroRef, if value.getLsbD i then .pin_b else .pin_a⟩

def rotateRight (width pos : ℕ) (a : Word) : Word := fun i => a ((i + pos) % width)

def shiftRight (zeroRef width pos : ℕ) (a : Word) : Word :=
  fun i => if i < width - pos then a ((i + pos) % width) else ⟨zeroRef, .pin_a⟩

/-- The loop over the bits of an operation that has no carry. -/
def bitwise (width : ℕ) (op : GateOperation) (a b r : Word) : GateProgram Word :=
  (List.range width).foldlM (fun r i => do
    let g : GateBit ← fun S => S.newGate op (a i) (b i)
    return update r i g) r

/-- NOT(a) is the same operation as XOR(a,1). -/
def not (width : ℕ) (a r : Word) : GateProgram Word := do
  let S ← get
  bitwise width .gop_xor a (fun _ => ⟨S.gateConfig.zeroRef, .pin_b⟩) r

/-- The adders, as programs. -/
def add (width : ℕ) (a b r : Word) : GateProgram Word :=
  fun S => (GateAdder.add width S a b r).map Prod.swap

end GateWord

namespace GateState

/-- Number `k` of the pins that take the input. -/
def inputPin (S : GateState) (k : ℕ) : GateBit := ⟨S.gateConfig.sinRef0 + k * 44, .pin_a⟩

/-- The bits of a value are set at the pins from number `first` on. -/
def attach {width : ℕ} (S : GateState) (first : ℕ) (value : BitVec width) : GateState :=
  Loops.forUpTo width (fun j S =>
    S.setPin (S.inputPin (first + j)) ({ · with bit := value.getLsbD j, source := .external })) S

/-- The loop over the words of an input. -/
def attachWords {width : ℕ} (S : GateState) (first n : ℕ) (values : ℕ → BitVec width) : GateState :=
  Loops.forUpTo n (fun i S => S.attach (first + i * width) (values i)) S

/-- The word of the pins from number `first` on. -/
def inputWord (S : GateState) (first : ℕ) : Word := fun j => S.inputPin (first + j)

end GateState

/-! ## The rules of programs -/

namespace GateState

/-- A state with its constants. -/
structure Ready (S : GateState) : Prop where
  valid : S.Valid
  zero : S.bit ⟨S.gateConfig.zeroRef, .pin_a⟩ = false
  one : S.bit ⟨S.gateConfig.zeroRef, .pin_b⟩ = true

/-- The pins of a word have the bits of a number. -/
def HasWord {width : ℕ} (S : GateState) (a : Word) (x : BitVec width) : Prop :=
  ∀ i < width, S.Reads (a i) (x.getLsbD i)

variable {S S' : GateState} {refs : List ℕ} {width : ℕ} {a b : Word} {x y : BitVec width}

theorem Ready.mono (h : S.Ready) (hext : Extends S S' refs) : S'.Ready := by
  have hzero : S.Defined S.gateConfig.zeroRef := .inl (.inl rfl)
  refine ⟨hext.valid, ?_, ?_⟩
  · rw [hext.gateConfig, hext.bit hzero, h.zero]
  · rw [hext.gateConfig, hext.bit hzero, h.one]

theorem HasWord.mono (h : S.HasWord a x) (hext : Extends S S' refs) : S'.HasWord a x :=
  fun i hi => (h i hi).mono hext

theorem HasWord.word_eq (h : S.HasWord a x) : GateAdder.word S width a = x := by
  refine BitVec.eq_of_getLsbD_eq fun i hi => ?_
  rw [GateAdder.getLsbD_word hi, (h i hi).bit]

theorem HasWord.value_eq (h : S.HasWord a x) : GateAdder.value S width a = x.toNat := by
  rw [← h.word_eq, GateAdder.word, BitVec.toNat_ofNat]
  unfold GateAdder.value
  exact (Nat.mod_eq_of_lt (Bits.pack_lt _ _)).symm

theorem hasWord_constant (h : S.Ready) (x : BitVec width) :
    S.HasWord (GateWord.constant S.gateConfig.zeroRef x) x := by
  intro i _
  refine ⟨.inl (.inl rfl), ?_⟩
  unfold GateWord.constant
  cases x.getLsbD i
  · exact h.zero
  · exact h.one

theorem HasWord.rotateRight (h : S.HasWord a x) (pos : ℕ) (hpos : pos < width) :
    S.HasWord (GateWord.rotateRight width pos a) (x.rotateRight pos) := by
  intro i hi
  have hbit : (x.rotateRight pos).getLsbD i = x.getLsbD ((i + pos) % width) := by
    rw [BitVec.getLsbD_rotateRight, Nat.mod_eq_of_lt hpos]
    by_cases hlow : i < width - pos
    · rw [decide_eq_true hlow, cond_true, Nat.mod_eq_of_lt (by omega), Nat.add_comm]
    · rw [decide_eq_false hlow, cond_false, decide_eq_true hi, Bool.true_and, Nat.mod_eq_sub_mod (by omega),
        Nat.mod_eq_of_lt (by omega)]
      congr 1
      omega
  rw [hbit]
  exact h _ (Nat.mod_lt _ (by omega))

theorem HasWord.shiftRight (h : S.HasWord a x) (hS : S.Ready) (pos : ℕ) :
    S.HasWord (GateWord.shiftRight S.gateConfig.zeroRef width pos a) (x >>> pos) := by
  intro i hi
  rw [BitVec.getLsbD_ushiftRight, Nat.add_comm]
  unfold GateWord.shiftRight
  split
  · rw [Nat.mod_eq_of_lt (by omega)]
    exact h _ (by omega)
  · rw [BitVec.getLsbD_of_ge _ _ (by omega)]
    exact ⟨.inl (.inl rfl), hS.zero⟩

theorem ready_new {c : GateConfig} (h : c.Valid) : (new c).Ready where
  valid := valid_new h
  zero := by simp [new, bit]
  one := by simp [new, bit]

/-- An operation at any reference. -/
theorem OP_xor_eq_some {g g' : GateBit} {refR : ℕ} (hg : g.ref < S.gateConfig.maxRefs)
    (hg' : g'.ref < S.gateConfig.maxRefs) (hR : refR < S.gateConfig.maxRefs) :
    ∃ S', S.OP .gop_xor g g' refR = some S' ∧ S'.gateConfig = S.gateConfig := by
  have hsome : ∃ S', S.OP .gop_xor g g' refR = some S' := by
    unfold OP
    rw [if_pos ⟨hg, hg', hR⟩]
    exact ⟨_, rfl⟩
  obtain ⟨S', hS'⟩ := hsome
  exact ⟨S', hS', (OP_keeps hS').2⟩

end GateState

/-- A program builds `n` gates where there is room for them and one more. -/
def Builds {α : Type} (S : GateState) (n : ℕ) (p : GateProgram α) (post : GateState → α → Prop) : Prop :=
  S.Ready → n < S.free → ∃ v S' refs, p S = some (v, S') ∧ Extends S S' refs ∧ refs.length = n ∧ post S' v

section Rules

variable {α β : Type} {S : GateState} {n m : ℕ} {p : GateProgram α} {post post' : GateState → α → Prop}

theorem Builds.of_ready (h : S.Ready → Builds S n p post) : Builds S n p post := fun hS => h hS hS

theorem Builds.pure {v : α} (h : post S v) : Builds S 0 (Pure.pure v) post :=
  fun hS _ => ⟨v, S, [], rfl, .refl hS.valid, rfl, h⟩

theorem Builds.bind {q : α → GateProgram β} {post' : GateState → β → Prop} (hp : Builds S n p post)
    (hq : ∀ S' v refs, Extends S S' refs → post S' v → Builds S' m (q v) post') :
    Builds S (n + m) (p >>= q) post' := by
  intro hS hroom
  obtain ⟨v, S', refs, hrun, hext, hlength, hpost⟩ := hp hS (by omega)
  have hfree := hext.free
  obtain ⟨v', S'', refs', hrun', hext', hlength', hpost'⟩ := hq S' v refs hext hpost (hS.mono hext) (by omega)
  refine ⟨v', S'', refs ++ refs', ?_, hext.trans hext', ?_, hpost'⟩
  · show (p S).bind _ = _
    rw [hrun]
    exact hrun'
  · rw [List.length_append, hlength, hlength']

theorem Builds.imp (h : Builds S n p post) (himp : ∀ S' v, post S' v → post' S' v) : Builds S n p post' := by
  intro hS hroom
  obtain ⟨v, S', refs, hrun, hext, hlength, hpost⟩ := h hS hroom
  exact ⟨v, S', refs, hrun, hext, hlength, himp S' v hpost⟩

/-- The rule of a counting loop whose rounds build equally many gates. -/
theorem Builds.foldlM {f : α → ℕ → GateProgram α} {J : ℕ → GateState → α → Prop} {v : α} (h0 : J 0 S v) (k : ℕ)
    (hf : ∀ i < k, ∀ S' v refs, Extends S S' refs → J i S' v → Builds S' n (f v i) (J (i + 1))) :
    Builds S (k * n) ((List.range k).foldlM f v) (J k) := by
  induction k with
  | zero =>
    rw [Nat.zero_mul]
    exact .pure h0
  | succ k ih =>
    have hlast : (List.range (k + 1)).foldlM f v = (List.range k).foldlM f v >>= fun v => f v k := by
      rw [List.range_succ, List.foldlM_append]
      refine congrArg _ (funext fun v => ?_)
      rw [List.foldlM_cons]
      exact bind_pure _
    rw [Nat.succ_mul, hlast]
    exact (ih fun i hi => hf i (Nat.lt_succ_of_lt hi)).bind (hf k (Nat.lt_succ_self k))

end Rules

/-! ## What the operations build -/

section Operations

variable {S : GateState} {width : ℕ} {a b : Word} {x y : BitVec width} {op : GateOperation}

theorem newGate_builds {g g' : GateBit} {p q v : Bool} (hg : S.Reads g p) (hg' : S.Reads g' q)
    (hv : op.value p q = some v) : Builds S 1 (fun S => S.newGate op g g') fun S' r => S'.Reads r v := by
  intro hS hroom
  obtain ⟨r, S', hnew, hext, hread⟩ := newGate_spec op hS.valid hg hg' hroom hv
  exact ⟨r, S', _, hnew, hext, rfl, hread⟩

theorem bitwise_builds {f : Bool → Bool → Bool} (hop : ∀ p q, op.value p q = some (f p q))
    (ha : S.HasWord a x) (hb : S.HasWord b y) (r : Word) :
    Builds S width (GateWord.bitwise width op a b r) fun S' r' =>
      ∀ i < width, S'.Reads (r' i) (f (x.getLsbD i) (y.getLsbD i)) := by
  have hloop := Builds.foldlM (S := S) (n := 1) (v := r) (J := fun k S' (r' : Word) =>
    ∀ i < k, S'.Reads (r' i) (f (x.getLsbD i) (y.getLsbD i)))
    (f := fun r i => (do
      let g : GateBit ← fun S => S.newGate op (a i) (b i)
      return update r i g)) (fun i hi => absurd hi (Nat.not_lt_zero i)) width fun i hi S' r' refs hext hJ => by
    refine (newGate_builds ((ha i hi).mono hext) ((hb i hi).mono hext) (hop _ _)).bind (m := 0)
      fun S'' g refs' hext' hg => .pure fun j hj => ?_
    rcases Nat.eq_or_lt_of_le (Nat.lt_succ_iff.mp hj) with rfl | hlt
    · rwa [update_self]
    · rw [update_of_ne (Nat.ne_of_lt hlt)]
      exact (hJ j hlt).mono hext'
  rwa [Nat.mul_one] at hloop

theorem xor_builds (ha : S.HasWord a x) (hb : S.HasWord b y) (r : Word) :
    Builds S width (GateWord.bitwise width .gop_xor a b r) fun S' r' => S'.HasWord r' (x ^^^ y) :=
  (bitwise_builds (fun _ _ => rfl) ha hb r).imp fun S' r' h i hi => by
    rw [BitVec.getLsbD_xor]
    exact h i hi

theorem and_builds (ha : S.HasWord a x) (hb : S.HasWord b y) (r : Word) :
    Builds S width (GateWord.bitwise width .gop_and a b r) fun S' r' => S'.HasWord r' (x &&& y) :=
  (bitwise_builds (fun _ _ => rfl) ha hb r).imp fun S' r' h i hi => by
    rw [BitVec.getLsbD_and]
    exact h i hi

theorem not_builds (ha : S.HasWord a x) (r : Word) :
    Builds S width (GateWord.not width a r) fun S' r' => S'.HasWord r' (~~~x) := by
  refine .of_ready fun hS => ?_
  have hones : S.HasWord (fun _ => ⟨S.gateConfig.zeroRef, .pin_b⟩) (BitVec.allOnes width) := fun i hi => by
    rw [BitVec.getLsbD_allOnes, decide_eq_true hi]
    exact ⟨.inl (.inl rfl), hS.one⟩
  have hxor := xor_builds ha hones r
  rwa [← BitVec.xor_allOnes]

theorem add_builds (hwidth : 2 ≤ width) (ha : S.HasWord a x) (hb : S.HasWord b y) (r : Word) :
    Builds S (7 * width - 10) (GateWord.add width a b r) fun S' r' => S'.HasWord r' (x + y) := by
  intro hS hroom
  obtain ⟨S', r', refs, hrun, hext, hmem, hvalue⟩ := GateAdder.add_spec hwidth hS.valid
    (fun j hj => (ha j hj).defined) (fun j hj => (hb j hj).defined) hroom r
  have htakes := (GateAdder.add_takes hwidth hS.valid hrun).free
  have hfree := hext.free
  refine ⟨r', S', refs, ?_, hext, by omega, fun i hi => ⟨hext.defined _ (hmem i hi), ?_⟩⟩
  · show (GateAdder.add width S a b r).map Prod.swap = _
    rw [hrun]
    rfl
  · rw [ha.value_eq, hb.value_eq, ← BitVec.toNat_add] at hvalue
    have hbit := congrArg (Nat.testBit · i) hvalue
    dsimp only [GateAdder.value] at hbit
    rw [Bits.testBit_pack, decide_eq_true hi, Bool.true_and] at hbit
    exact hbit

end Operations

/-! ## The input -/

namespace GateState

/-- The pins from number `first` on have been set to `n` bits, and no other pin has changed. -/
structure Attached (S S' : GateState) (first n : ℕ) (bits : ℕ → Bool) : Prop where
  gateConfig : S'.gateConfig = S.gateConfig
  nextRef : S'.nextRef = S.nextRef
  inside : ∀ k < n, S'.bit (S.inputPin (first + k)) = bits k
  outside : ∀ b, (∀ k < n, b ≠ S.inputPin (first + k)) → S'.bit b = S.bit b

variable {S S' S'' : GateState} {first n m : ℕ} {bits bits' : ℕ → Bool}

theorem inputPin_congr (h : S'.gateConfig = S.gateConfig) (k : ℕ) : S'.inputPin k = S.inputPin k := by
  unfold inputPin
  rw [h]

theorem inputWord_congr (h : S'.gateConfig = S.gateConfig) (first : ℕ) : S'.inputWord first = S.inputWord first :=
  funext fun _ => inputPin_congr h _

theorem inputPin_injective (S : GateState) : Injective S.inputPin := by
  intro k k' h
  have href := congrArg GateBit.ref h
  dsimp only [inputPin] at href
  omega

theorem attached_zero (S : GateState) (first : ℕ) (bits : ℕ → Bool) : Attached S S first 0 bits :=
  ⟨rfl, rfl, fun k hk => absurd hk (Nat.not_lt_zero k), fun _ _ => rfl⟩

theorem attached_setPin (S : GateState) (k : ℕ) (f : Pin → Pin) :
    Attached S (S.setPin (S.inputPin k) f) k 1
      fun _ => (f ((S.gate (S.inputPin k).ref).pin (S.inputPin k).pin)).bit where
  gateConfig := rfl
  nextRef := rfl
  inside i hi := by
    obtain rfl := Nat.lt_one_iff.mp hi
    exact bit_setPin_self
  outside b hb := by
    have hne : b ≠ S.inputPin k := hb 0 Nat.one_pos
    unfold bit setPin
    dsimp only
    by_cases href : b.ref = (S.inputPin k).ref
    · have hpin : b.pin ≠ (S.inputPin k).pin := fun hpin => hne (by
        cases b
        exact congrArg₂ GateBit.mk href hpin)
      rw [href, update_self]
      dsimp only
      rw [update_of_ne hpin]
    · rw [update_of_ne href]

/-- What is set in two parts, the second one after the first one. -/
theorem Attached.append (h : Attached S S' first n bits) (h' : Attached S' S'' (first + n) m bits') :
    Attached S S'' first (n + m) fun k => if k < n then bits k else bits' (k - n) where
  gateConfig := h'.gateConfig.trans h.gateConfig
  nextRef := h'.nextRef.trans h.nextRef
  inside k hk := by
    by_cases hlt : k < n
    · rw [if_pos hlt, h'.outside, h.inside k hlt]
      intro i _ heq
      rw [inputPin_congr h.gateConfig] at heq
      have hkey := inputPin_injective S heq
      omega
    · have hin := h'.inside (k - n) (by omega)
      rw [inputPin_congr h.gateConfig] at hin
      rw [if_neg hlt, ← hin]
      congr 2
      omega
  outside b hb := by
    rw [h'.outside, h.outside]
    · exact fun k hk => hb k (by omega)
    · intro k hk
      rw [inputPin_congr h.gateConfig, Nat.add_assoc]
      exact hb (n + k) (by omega)

theorem Attached.congr (h : Attached S S' first n bits) (hbits : ∀ k < n, bits k = bits' k) :
    Attached S S' first n bits' :=
  ⟨h.gateConfig, h.nextRef, fun k hk => (h.inside k hk).trans (hbits k hk), h.outside⟩

theorem attached_attach {width : ℕ} (S : GateState) (first : ℕ) (value : BitVec width) :
    Attached S (S.attach first value) first width value.getLsbD := by
  refine Loops.forUpTo_inv (J := fun n S' => Attached S S' first n value.getLsbD) (attached_zero ..)
    fun j _ S' h => (h.append (attached_setPin S' (first + j) _)).congr fun k hk => ?_
  split
  · rfl
  · rw [show k = j by omega]

theorem attached_attachWords {width : ℕ} (hwidth : 0 < width) (S : GateState) (first n : ℕ)
    (values : ℕ → BitVec width) : Attached S (S.attachWords first n values) first (n * width)
      fun k => (values (k / width)).getLsbD (k % width) := by
  refine Loops.forUpTo_inv (J := fun n S' => Attached S S' first (n * width)
      fun k => (values (k / width)).getLsbD (k % width)) ?_ fun i _ S' h => ?_
  · rw [Nat.zero_mul]
    exact attached_zero ..
  · rw [Nat.succ_mul]
    refine (h.append (attached_attach S' _ (values i))).congr fun k hk => ?_
    split
    · rfl
    · next hge =>
      obtain ⟨j, rfl⟩ := Nat.exists_eq_add_of_le (Nat.not_lt.mp hge)
      have hj : j < width := by omega
      rw [Nat.add_sub_cancel_left, Nat.mul_comm, Nat.mul_add_div hwidth, Nat.mul_add_mod,
        Nat.div_eq_of_lt hj, Nat.mod_eq_of_lt hj, Nat.add_zero]

/-- The constants are not pins of the input. -/
theorem Attached.ready (h : Attached S S' first n bits) (hS : S.Ready)
    (hzero : S.gateConfig.zeroRef < S.gateConfig.sinRef0) : S'.Ready := by
  have hkeep (id : PinId) : S'.bit ⟨S.gateConfig.zeroRef, id⟩ = S.bit ⟨S.gateConfig.zeroRef, id⟩ := by
    refine h.outside _ fun k _ heq => ?_
    have href := congrArg GateBit.ref heq
    dsimp only [inputPin] at href
    omega
  refine ⟨⟨?_, ?_⟩, ?_, ?_⟩
  · rw [h.gateConfig]
    exact hS.valid.config
  · rw [h.gateConfig, h.nextRef]
    exact hS.valid.next
  · rw [h.gateConfig, hkeep, hS.zero]
  · rw [h.gateConfig, hkeep, hS.one]

theorem Attached.free (h : Attached S S' first n bits) : S'.free = S.free := by
  unfold GateState.free
  rw [h.gateConfig, h.nextRef]

/-- A word that has none of the pins. -/
theorem Attached.keeps {width : ℕ} {a : Word} {x : BitVec width} (h : Attached S S' first n bits) (ha : S.HasWord a x)
    (hne : ∀ j < width, ∀ k < n, a j ≠ S.inputPin (first + k)) : S'.HasWord a x := by
  intro j hj
  obtain ⟨hdefined, hbit⟩ := ha j hj
  refine ⟨?_, (h.outside _ (hne j hj)).trans hbit⟩
  unfold Defined
  rwa [h.gateConfig, h.nextRef]

/-- A word of the input, where its pins are references of the input. -/
theorem Attached.hasWord {width : ℕ} (values : ℕ → BitVec width)
    (h : Attached S S' first (n * width) fun k => (values (k / width)).getLsbD (k % width))
    (hdistance : S.gateConfig.sinRefDistance = 44) (hnumber : first + n * width ≤ S.gateConfig.sinRefNumber)
    {i : ℕ} (hi : i < n) : S'.HasWord (S.inputWord (first + i * width)) (values i) := by
  intro j hj
  have hlt : i * width + j < n * width := calc
    i * width + j < i * width + width := Nat.add_lt_add_left hj _
    _ = (i + 1) * width := (Nat.succ_mul i width).symm
    _ ≤ n * width := Nat.mul_le_mul_right _ hi
  have hbit := h.inside _ hlt
  rw [Nat.mul_comm i, Nat.mul_add_div (by omega), Nat.mul_add_mod, Nat.div_eq_of_lt hj, Nat.mod_eq_of_lt hj,
    Nat.add_zero, ← Nat.add_assoc, Nat.mul_comm width] at hbit
  refine ⟨.inl (.inr (.inl ⟨first + i * width + j, ?_, ?_⟩)), hbit⟩
  · rw [h.gateConfig]
    omega
  · rw [h.gateConfig, hdistance]
    rfl

end GateState

end ZkevmProver
