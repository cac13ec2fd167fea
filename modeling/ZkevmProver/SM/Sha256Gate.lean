import ZkevmProver.SM.GateWords
import ZkevmProver.SM.Sha256

/-!
# The circuit of SHA-256

`SHA256Gate` builds a circuit for every chunk of a message, and reads the hash off its gates.

  1. The circuit.
  2. Words of the circuit.
  3. The message schedule and the rounds.
  4. A chunk.
  5. Messages.
-/

namespace ZkevmProver

open GateState
open GateAdder (Word)

/-! ## The circuit -/

def GateU32_xor : (a b r : Word) → GateProgram Word := GateWord.bitwise 32 .gop_xor

def GateU32_and : (a b r : Word) → GateProgram Word := GateWord.bitwise 32 .gop_and

def GateU32_not : (a r : Word) → GateProgram Word := GateWord.not 32

namespace Sha256Gate

/-- `GateU32_add`, as a program. -/
def add : (a b r : Word) → GateProgram Word := GateWord.add 32

/-- The variables of type `GateU32` begin as zero. -/
def zero : GateProgram Word := do
  let S ← get
  return GateWord.constant S.gateConfig.zeroRef (0 : BitVec 32)

/-- `GateU32_xor(S, aux1, aux2, aux4)` and `GateU32_xor(S, aux4, aux3, r)` -/
def xor3 (aux1 aux2 aux3 : Word) : GateProgram Word := do
  let r ← zero
  let aux4 ← GateU32_xor aux1 aux2 r
  GateU32_xor aux4 aux3 r

/-- One more word of the message schedule. -/
def extend (i : ℕ) (w : List Word) : GateProgram (List Word) := do
  let S ← get
  let r ← zero
  let w15 := w.getD (i - 15) r
  let w2 := w.getD (i - 2) r
  let s0 ← xor3 (GateWord.rotateRight 32 7 w15) (GateWord.rotateRight 32 18 w15)
    (GateWord.shiftRight S.gateConfig.zeroRef 32 3 w15)
  let s1 ← xor3 (GateWord.rotateRight 32 17 w2) (GateWord.rotateRight 32 19 w2)
    (GateWord.shiftRight S.gateConfig.zeroRef 32 10 w2)
  let aux1 ← add (w.getD (i - 16) r) s0 r
  let aux2 ← add aux1 (w.getD (i - 7) r) r
  let last ← add aux2 s1 r
  return w ++ [last]

/-- `(e & f) ^ ((~e) & g)` -/
def ch (e f g : Word) : GateProgram Word := do
  let r ← zero
  let aux1 ← GateU32_and e f r
  let aux2 ← GateU32_not e r
  let aux3 ← GateU32_and aux2 g r
  GateU32_xor aux1 aux3 r

/-- `(a & b) ^ (a & c) ^ (b & c)` -/
def maj (a b c : Word) : GateProgram Word := do
  let r ← zero
  let aux1 ← GateU32_and a b r
  let aux2 ← GateU32_and a c r
  let aux3 ← GateU32_and b c r
  xor3 aux1 aux2 aux3

/-- `h + S1 + ch + k[i] + w[i]` -/
def temp1 (hh S1 ch k w : Word) : GateProgram Word := do
  let r ← zero
  let aux1 ← add hh S1 r
  let aux2 ← add aux1 ch r
  let aux3 ← add aux2 k r
  add aux3 w r

/-- One round of the compression loop. -/
def round (w : List Word) (v : Sha256State Word) (i : ℕ) : GateProgram (Sha256State Word) := do
  let S ← get
  let r ← zero
  let S1 ← xor3 (GateWord.rotateRight 32 6 v.e) (GateWord.rotateRight 32 11 v.e) (GateWord.rotateRight 32 25 v.e)
  let ch ← ch v.e v.f v.g
  let temp1 ← temp1 v.h S1 ch (GateWord.constant S.gateConfig.zeroRef (Sha256.k.getD i 0)) (w.getD i r)
  let S0 ← xor3 (GateWord.rotateRight 32 2 v.a) (GateWord.rotateRight 32 13 v.a) (GateWord.rotateRight 32 22 v.a)
  let maj ← maj v.a v.b v.c
  let temp2 ← add S0 maj r
  let e ← add v.d temp1 v.e
  let a ← add temp1 temp2 v.a
  return { a, b := v.a, c := v.b, d := v.c, e, f := v.e, g := v.f, h := v.g }

/-- The message schedule and the compression loop. -/
def compress (w : List Word) (h32 : Sha256State Word) : GateProgram (Sha256State Word) := do
  let w ← (List.range 48).foldlM (fun w i => extend (16 + i) w) w
  (List.range 64).foldlM (round w) h32

/-- The gates of the output; the pin of a gate is that of another bit of the word. -/
def output (v : Sha256State Word) (S : GateState) : Option GateState :=
  (v.words.zipIdx).foldlM (fun S (word, i) => (List.range 32).foldlM (fun S j =>
    S.OP .gop_xor ⟨(word j).ref, (word i).pin⟩ ⟨S.gateConfig.zeroRef, .pin_a⟩
      (S.gateConfig.soutRef0 + S.gateConfig.soutRefDistance * (32 * i + j))) S) S

/-- The words of the input: 16 of the chunk, and eight of the state. -/
def inputs (S : GateState) (h : Sha256State (BitVec 32)) (pChunkBytes : ℕ → UInt8) : GateState :=
  (S.attachWords 0 16 fun i => bytes2u32 fun j => pChunkBytes (4 * i + j)).attachWords 512 8 fun i => h.words.getD i 0

/-- One chunk. -/
def chunk (h : Sha256State (BitVec 32)) (pChunkBytes : ℕ → UInt8) : Option (Sha256State (BitVec 32)) := do
  let S := inputs (GateState.new SHA256GateConfig) h pChunkBytes
  let w := (List.range 16).map fun i => S.inputWord (0 + i * 32)
  let h32 (i : ℕ) : Word := S.inputWord (512 + i * 32)
  let (v, S) ← compress w ⟨h32 0, h32 1, h32 2, h32 3, h32 4, h32 5, h32 6, h32 7⟩ S
  let _ ← output v S
  return h.zipWith (fun x word => x + GateAdder.word S 32 word) v

end Sha256Gate

def SHA256Gate (data : List UInt8) : Option Text := (sha256Chunks Sha256Gate.chunk data).map sha256Text

/-! ## Words of the circuit -/

namespace Sha256Gate

variable {S : GateState} {aux1 aux2 aux3 : Word} {x y z : BitVec 32}

/-- A program that reads the state begins with this one. -/
theorem Builds.get {α : Type} {n : ℕ} {p : GateState → GateProgram α} {post : GateState → α → Prop}
    (h : Builds S n (p S) post) : Builds S n (do let S ← get; p S) post := h

theorem Builds.zero {α : Type} {n : ℕ} {p : Word → GateProgram α} {post : GateState → α → Prop}
    (h : ∀ r, S.HasWord r (0 : BitVec 32) → Builds S n (p r) post) : Builds S n (do let r ← zero; p r) post :=
  .of_ready fun hS => h _ (hasWord_constant hS 0)

theorem xor3_builds (h1 : S.HasWord aux1 x) (h2 : S.HasWord aux2 y) (h3 : S.HasWord aux3 z) :
    Builds S (32 + 32) (xor3 aux1 aux2 aux3) fun S' r => S'.HasWord r (x ^^^ y ^^^ z) := by
  refine Builds.zero fun r _ => ?_
  refine (xor_builds h1 h2 r).bind fun S₁ aux4 _ e₁ h4 => ?_
  exact xor_builds h4 (h3.mono e₁) r

theorem ch_builds {e f g : Word} (he : S.HasWord e x) (hf : S.HasWord f y) (hg : S.HasWord g z) :
    Builds S (32 + (32 + (32 + 32))) (ch e f g) fun S' r => S'.HasWord r ((x &&& y) ^^^ (~~~x &&& z)) := by
  refine Builds.zero fun r _ => ?_
  refine (and_builds he hf r).bind fun S₁ aux1 _ e₁ h1 => ?_
  refine (not_builds (he.mono e₁) r).bind fun S₂ aux2 _ e₂ h2 => ?_
  refine (and_builds h2 ((hg.mono e₁).mono e₂) r).bind fun S₃ aux3 _ e₃ h3 => ?_
  exact xor_builds ((h1.mono e₂).mono e₃) h3 r

theorem maj_builds {a b c : Word} (ha : S.HasWord a x) (hb : S.HasWord b y) (hc : S.HasWord c z) :
    Builds S (32 + (32 + (32 + (32 + 32)))) (maj a b c) fun S' r =>
      S'.HasWord r ((x &&& y) ^^^ (x &&& z) ^^^ (y &&& z)) := by
  refine Builds.zero fun r _ => ?_
  refine (and_builds ha hb r).bind fun S₁ aux1 _ e₁ h1 => ?_
  refine (and_builds (ha.mono e₁) (hc.mono e₁) r).bind fun S₂ aux2 _ e₂ h2 => ?_
  refine (and_builds ((hb.mono e₁).mono e₂) ((hc.mono e₁).mono e₂) r).bind fun S₃ aux3 _ e₃ h3 => ?_
  exact xor3_builds ((h1.mono e₂).mono e₃) (h2.mono e₃) h3

theorem add_builds32 {a b : Word} (ha : S.HasWord a x) (hb : S.HasWord b y) (r : Word) :
    Builds S 214 (add a b r) fun S' r => S'.HasWord r (x + y) := add_builds (by decide) ha hb r

theorem temp1_builds {hh S1 ch k w : Word} {x₁ x₂ x₃ x₄ x₅ : BitVec 32} (h₁ : S.HasWord hh x₁)
    (h₂ : S.HasWord S1 x₂) (h₃ : S.HasWord ch x₃) (h₄ : S.HasWord k x₄) (h₅ : S.HasWord w x₅) :
    Builds S (214 + (214 + (214 + 214))) (temp1 hh S1 ch k w) fun S' r =>
      S'.HasWord r (x₁ + x₂ + x₃ + x₄ + x₅) := by
  refine Builds.zero fun r _ => ?_
  refine (add_builds32 h₁ h₂ r).bind fun S₁ aux1 _ e₁ h1 => ?_
  refine (add_builds32 h1 (h₃.mono e₁) r).bind fun S₂ aux2 _ e₂ h2 => ?_
  refine (add_builds32 h2 ((h₄.mono e₁).mono e₂) r).bind fun S₃ aux3 _ e₃ h3 => ?_
  exact add_builds32 h3 (((h₅.mono e₁).mono e₂).mono e₃) r

/-! ## The message schedule and the rounds -/

/-- Words with the numbers of a list. -/
def HasWords (S : GateState) (ws : List Word) (xs : List (BitVec 32)) : Prop := List.Forall₂ S.HasWord ws xs

theorem HasWords.mono {S' : GateState} {refs : List ℕ} {ws : List Word} {xs : List (BitVec 32)}
    (h : HasWords S ws xs) (hext : Extends S S' refs) : HasWords S' ws xs := h.imp fun _ _ hw => hw.mono hext

theorem HasWords.getD {ws : List Word} {xs : List (BitVec 32)} (h : HasWords S ws xs) {r : Word}
    (hr : S.HasWord r (0 : BitVec 32)) (i : ℕ) : S.HasWord (ws.getD i r) (xs.getD i 0) := by
  induction h generalizing i with
  | nil => exact hr
  | cons hw _ ih =>
    cases i with
    | zero => exact hw
    | succ i => exact ih i

theorem HasWords.concat {ws : List Word} {xs : List (BitVec 32)} {w : Word} (h : HasWords S ws xs)
    (hw : S.HasWord w x) : HasWords S (ws ++ [w]) (xs ++ [x]) := List.rel_append h (.cons hw .nil)

theorem extend_builds {w : List Word} {xs : List (BitVec 32)} (h : HasWords S w xs) (i : ℕ) :
    Builds S (32 + 32 + (32 + 32 + (214 + (214 + (214 + 0))))) (extend i w) fun S' w' =>
      HasWords S' w' (sha256Extend i xs) := by
  refine .of_ready fun hS => Builds.get (Builds.zero fun r hr => ?_)
  have h15 := h.getD hr (i - 15)
  have h2 := h.getD hr (i - 2)
  refine (xor3_builds (h15.rotateRight 7 (by decide)) (h15.rotateRight 18 (by decide))
    (h15.shiftRight hS 3)).bind fun S₁ s0 _ e₁ hs0 => ?_
  refine (xor3_builds ((h2.rotateRight 17 (by decide)).mono e₁)
    ((h2.rotateRight 19 (by decide)).mono e₁) ((h2.shiftRight hS 10).mono e₁)).bind fun S₂ s1 _ e₂ hs1 => ?_
  refine (add_builds32 (((h.getD hr (i - 16)).mono e₁).mono e₂) (hs0.mono e₂) r).bind fun S₃ aux1 _ e₃ h₁ => ?_
  refine (add_builds32 h₁ ((((h.getD hr (i - 7)).mono e₁).mono e₂).mono e₃) r).bind fun S₄ aux2 _ e₄ h₂ => ?_
  refine (add_builds32 h₂ ((hs1.mono e₃).mono e₄) r).bind fun S₅ last _ e₅ hlast => .pure ?_
  unfold sha256Extend
  dsimp only
  rw [rotateRight32_eq (by decide), rotateRight32_eq (by decide), rotateRight32_eq (by decide),
    rotateRight32_eq (by decide)]
  exact (((((h.mono e₁).mono e₂).mono e₃).mono e₄).mono e₅).concat hlast

/-- Variables with the words of a state. -/
structure HasState (S : GateState) (v : Sha256State Word) (s : Sha256State (BitVec 32)) : Prop where
  a : S.HasWord v.a s.a
  b : S.HasWord v.b s.b
  c : S.HasWord v.c s.c
  d : S.HasWord v.d s.d
  e : S.HasWord v.e s.e
  f : S.HasWord v.f s.f
  g : S.HasWord v.g s.g
  h : S.HasWord v.h s.h

theorem HasState.mono {S' : GateState} {refs : List ℕ} {v : Sha256State Word} {s : Sha256State (BitVec 32)}
    (h : HasState S v s) (hext : Extends S S' refs) : HasState S' v s :=
  ⟨h.a.mono hext, h.b.mono hext, h.c.mono hext, h.d.mono hext, h.e.mono hext, h.f.mono hext, h.g.mono hext,
    h.h.mono hext⟩

theorem round_builds {w : List Word} {xs : List (BitVec 32)} {v : Sha256State Word} {s : Sha256State (BitVec 32)}
    (hw : HasWords S w xs) (h : HasState S v s) (i : ℕ) :
    Builds S (32 + 32 + (32 + (32 + (32 + 32)) + (214 + (214 + (214 + 214)) + (32 + 32 +
      (32 + (32 + (32 + (32 + 32))) + (214 + (214 + (214 + 0)))))))) (round w v i) fun S' v' =>
        HasState S' v' (sha256Round xs i s) := by
  refine .of_ready fun hS => Builds.get (Builds.zero fun r hr => ?_)
  refine (xor3_builds (h.e.rotateRight 6 (by decide)) (h.e.rotateRight 11 (by decide))
    (h.e.rotateRight 25 (by decide))).bind fun S₁ S1 _ e₁ hS1 => ?_
  have h₁ := h.mono e₁
  refine (ch_builds h₁.e h₁.f h₁.g).bind fun S₂ ch _ e₂ hch => ?_
  have h₂ := h₁.mono e₂
  have hk : S₂.HasWord (GateWord.constant S.gateConfig.zeroRef (Sha256.k.getD i 0)) (Sha256.k.getD i 0) :=
    ((hasWord_constant hS _).mono e₁).mono e₂
  refine (temp1_builds h₂.h (hS1.mono e₂) hch hk (((hw.getD hr i).mono e₁).mono e₂)).bind
    fun S₃ temp1 _ e₃ htemp1 => ?_
  have h₃ := h₂.mono e₃
  refine (xor3_builds (h₃.a.rotateRight 2 (by decide)) (h₃.a.rotateRight 13 (by decide))
    (h₃.a.rotateRight 22 (by decide))).bind fun S₄ S0 _ e₄ hS0 => ?_
  have h₄ := h₃.mono e₄
  refine (maj_builds h₄.a h₄.b h₄.c).bind fun S₅ maj _ e₅ hmaj => ?_
  have h₅ := h₄.mono e₅
  refine (add_builds32 (hS0.mono e₅) hmaj r).bind fun S₆ temp2 _ e₆ htemp2 => ?_
  have h₆ := h₅.mono e₆
  have htemp1 := ((htemp1.mono e₄).mono e₅).mono e₆
  refine (add_builds32 h₆.d htemp1 v.e).bind fun S₇ e _ e₇ he => ?_
  refine (add_builds32 (htemp1.mono e₇) (htemp2.mono e₇) v.a).bind fun S₈ a _ e₈ ha => .pure ?_
  have h₈ := (h₆.mono e₇).mono e₈
  unfold sha256Round
  dsimp only
  rw [rotateRight32_eq (by decide), rotateRight32_eq (by decide), rotateRight32_eq (by decide),
    rotateRight32_eq (by decide), rotateRight32_eq (by decide), rotateRight32_eq (by decide)]
  exact ⟨ha, h₈.a, h₈.b, h₈.c, he.mono e₈, h₈.e, h₈.f, h₈.g⟩

theorem compress_builds {w : List Word} {h32 : Sha256State Word} {inR : ℕ → UInt8} {s : Sha256State (BitVec 32)}
    (hw : HasWords S w (sha256Words inR)) (h : HasState S h32 s) :
    Builds S (48 * 770 + 64 * 1914) (compress w h32) fun S' v =>
      HasState S' v (Loops.forUpTo 64 (sha256Round (sha256Schedule inR)) s) := by
  have hschedule : Builds S (48 * 770) ((List.range 48).foldlM (fun w i => extend (16 + i) w) w) fun S' w' =>
      HasWords S' w' (sha256Schedule inR) := by
    refine Builds.foldlM (J := fun i S' w' =>
      HasWords S' w' (Loops.forUpTo i (fun i => sha256Extend (16 + i)) (sha256Words inR))) hw 48 ?_
    exact fun i _ S' w' _ _ hJ => extend_builds hJ (16 + i)
  refine hschedule.bind fun S₁ w' _ e₁ hw' => ?_
  have hrounds := Builds.foldlM (S := S₁) (n := 1914) (v := h32) (f := round w') (J := fun i S' v =>
    HasState S' v (Loops.forUpTo i (sha256Round (sha256Schedule inR)) s)) (h.mono e₁) 64
    fun i _ S' v _ e hJ => round_builds (hw'.mono e) hJ i
  exact hrounds

/-! ## A chunk -/

theorem free_new : 168974 ≤ (GateState.new SHA256GateConfig).free := by
  have hfree := le_free (S := GateState.new SHA256GateConfig) GateConfig.valid_sha256
  have hnext : (GateState.new SHA256GateConfig).nextRef = 1 := rfl
  have hconfig : (GateState.new SHA256GateConfig).gateConfig = SHA256GateConfig := rfl
  have hmaxRefs : SHA256GateConfig.maxRefs = 170000 := rfl
  have hsin : SHA256GateConfig.sinRefNumber = 768 := rfl
  have hsout : SHA256GateConfig.soutRefNumber = 256 := rfl
  rw [hconfig, hnext, hmaxRefs, hsin, hsout] at hfree
  omega

/-- The input of a chunk. -/
theorem inputs_spec (h : Sha256State (BitVec 32)) (pChunkBytes : ℕ → UInt8) :
    let S := inputs (GateState.new SHA256GateConfig) h pChunkBytes
    S.Ready ∧ S.gateConfig = SHA256GateConfig ∧ 168974 ≤ S.free ∧
      HasWords S ((List.range 16).map fun i => S.inputWord (0 + i * 32)) (sha256Words pChunkBytes) ∧
      ∀ i < 8, S.HasWord (S.inputWord (512 + i * 32)) (h.words.getD i 0) := by
  have hnew : (GateState.new SHA256GateConfig).Ready := ready_new GateConfig.valid_sha256
  have hconfig : (GateState.new SHA256GateConfig).gateConfig = SHA256GateConfig := rfl
  have hfree := free_new
  unfold inputs
  generalize GateState.new SHA256GateConfig = S₀ at *
  have h₁ := attached_attachWords (by decide : 0 < 32) S₀ 0 16 fun i => bytes2u32 fun j => pChunkBytes (4 * i + j)
  generalize S₀.attachWords 0 16 _ = S₁ at h₁ ⊢
  have h₂ := attached_attachWords (by decide : 0 < 32) S₁ 512 8 fun i => h.words.getD i 0
  generalize S₁.attachWords 512 8 _ = S at h₂ ⊢
  have hconfig₁ := h₁.gateConfig.trans hconfig
  have hconfig₂ := h₂.gateConfig.trans hconfig₁
  have hzero (S : GateState) (hS : S.gateConfig = SHA256GateConfig) : S.gateConfig.zeroRef < S.gateConfig.sinRef0 := by
    rw [hS]
    decide
  intro S'
  refine ⟨h₂.ready (h₁.ready hnew (hzero _ hconfig)) (hzero _ hconfig₁), hconfig₂,
    hfree.trans_eq (h₁.free.symm.trans h₂.free.symm), ?_, fun i hi => ?_⟩
  · refine List.forall₂_map_left_iff.mpr (List.forall₂_map_right_iff.mpr (List.forall₂_same.mpr fun i hi => ?_))
    have hi := List.mem_range.mp hi
    rw [inputWord_congr (h₂.gateConfig.trans h₁.gateConfig)]
    refine h₂.keeps (h₁.hasWord (fun i => bytes2u32 fun j => pChunkBytes (4 * i + j)) (by rw [hconfig]; rfl)
      (by rw [hconfig]; decide) hi) fun j hj k _ heq => ?_
    rw [inputPin_congr h₁.gateConfig] at heq
    have hkey := inputPin_injective S₀ heq
    omega
  · rw [inputWord_congr h₂.gateConfig]
    exact h₂.hasWord (fun i => h.words.getD i 0) (by rw [hconfig₁]; rfl) (by rw [hconfig₁]; decide) hi

/-- The gates of the output are built: no reference is outside of the array. -/
theorem output_eq_some {v : Sha256State Word} (hconfig : S.gateConfig = SHA256GateConfig)
    (hv : ∀ word ∈ v.words, ∀ j < 32, (word j).ref < SHA256GateConfig.maxRefs) : ∃ S', output v S = some S' := by
  have hloop : ∃ S', output v S = some S' ∧ S'.gateConfig = SHA256GateConfig := by
    refine Loops.foldlM_zipIdx_inv (J := fun _ (S : GateState) => S.gateConfig = SHA256GateConfig) hconfig
      fun pre word hpre S hS => ?_
    have hi : pre.length < 8 := by
      have hle := hpre.length_le
      rw [List.length_append, List.length_singleton] at hle
      exact hle
    have hmem : word ∈ v.words := hpre.subset (List.mem_append_right _ (List.mem_singleton_self _))
    refine Loops.foldlM_range_inv (J := fun _ (S : GateState) => S.gateConfig = SHA256GateConfig) hS
      fun j hj S hS => ?_
    have hout : SHA256GateConfig.soutRef0 + SHA256GateConfig.soutRefDistance * (32 * pre.length + j) <
        SHA256GateConfig.maxRefs := by
      show 45 + 768 * 44 + 44 * (32 * pre.length + j) < 170000
      omega
    have hop : ∃ S', S.OP .gop_xor ⟨(word j).ref, (word pre.length).pin⟩ ⟨S.gateConfig.zeroRef, .pin_a⟩
        (S.gateConfig.soutRef0 + S.gateConfig.soutRefDistance * (32 * pre.length + j)) = some S' ∧
          S'.gateConfig = S.gateConfig := by
      refine OP_xor_eq_some ?_ ?_ ?_
      · rw [hS]
        exact hv word hmem j hj
      · rw [hS]
        decide
      · rw [hS]
        exact hout
    obtain ⟨S', hop, hconfig⟩ := hop
    exact ⟨S', hop, hconfig.trans hS⟩
  obtain ⟨S', hout, -⟩ := hloop
  exact ⟨S', hout⟩

/-- The circuit of a chunk computes the compression function. -/
theorem chunk_eq (h : Sha256State (BitVec 32)) (pChunkBytes : ℕ → UInt8) :
    chunk h pChunkBytes = some (SHA256F pChunkBytes h) := by
  obtain ⟨hready, hconfig, hfree, hwords, hstate⟩ := inputs_spec h pChunkBytes
  unfold chunk
  dsimp only
  generalize inputs (GateState.new SHA256GateConfig) h pChunkBytes = S at *
  have hh32 : HasState S ⟨S.inputWord (512 + 0 * 32), S.inputWord (512 + 1 * 32), S.inputWord (512 + 2 * 32),
      S.inputWord (512 + 3 * 32), S.inputWord (512 + 4 * 32), S.inputWord (512 + 5 * 32),
      S.inputWord (512 + 6 * 32), S.inputWord (512 + 7 * 32)⟩ h :=
    ⟨hstate 0 (by decide), hstate 1 (by decide), hstate 2 (by decide), hstate 3 (by decide), hstate 4 (by decide),
      hstate 5 (by decide), hstate 6 (by decide), hstate 7 (by decide)⟩
  obtain ⟨v, S', refs, hrun, hext, hlength, hv⟩ := compress_builds hwords hh32 hready (by omega)
  have hroom := hext.free
  have hconfig' := hext.gateConfig.trans hconfig
  have hrefs : ∀ word ∈ v.words, ∀ j < 32, (word j).ref < SHA256GateConfig.maxRefs := by
    have hlt {word : Word} {x : BitVec 32} (hword : S'.HasWord word x) (j : ℕ) (hj : j < 32) :
        (word j).ref < SHA256GateConfig.maxRefs :=
      hconfig' ▸ (hword j hj).defined.lt_maxRefs hext.valid (by omega)
    simp only [Sha256State.words, List.forall_mem_cons, List.not_mem_nil, false_imp_iff, implies_true, and_true]
    exact ⟨hlt hv.a, hlt hv.b, hlt hv.c, hlt hv.d, hlt hv.e, hlt hv.f, hlt hv.g, hlt hv.h⟩
  obtain ⟨S'', hout⟩ := output_eq_some hconfig' hrefs
  rw [hrun]
  dsimp only [Option.bind_eq_bind, Option.bind_some]
  rw [hout]
  unfold SHA256F Sha256State.zipWith
  dsimp only
  rw [hv.a.word_eq, hv.b.word_eq, hv.c.word_eq, hv.d.word_eq, hv.e.word_eq, hv.f.word_eq, hv.g.word_eq, hv.h.word_eq]
  rfl

end Sha256Gate

/-! ## Messages -/

/-- **The circuit computes the hash of a message exactly if its length fits after the last bytes of it.**
For messages that `SHA256` can read, `SHA256Gate` and `SHA256_old` give the same text as it, which is the
hash of the padded message; when 56 bytes or more are left for the last chunk, they write outside of it. -/
theorem sha256Gate_eq_sha256 {data : List UInt8} (hlength : data.length < 2 ^ 32) (buffer : ℕ → UInt8) :
    SHA256 buffer data = some (sha256Text (sha256 data)) ∧
      (data.length % 64 < 56 → SHA256Gate data = SHA256 buffer data ∧ SHA256_old data = SHA256 buffer data) ∧
      (56 ≤ data.length % 64 → SHA256Gate data = none ∧ SHA256_old data = none) := by
  have hspec := SHA256_eq hlength buffer
  have hlt : data.length < 2 ^ 60 := hlength.trans (by decide)
  refine ⟨hspec, fun hrest => ?_, fun hrest => ?_⟩
  · unfold SHA256Gate SHA256_old
    rw [hspec, sha256Chunks_eq Sha256Gate.chunk_eq hlt hrest, sha256Chunks_eq (fun _ _ => rfl) hlt hrest]
    exact ⟨rfl, rfl⟩
  · unfold SHA256Gate SHA256_old
    rw [sha256Chunks_eq_none hlt hrest, sha256Chunks_eq_none hlt hrest]
    exact ⟨rfl, rfl⟩

/-- A message of three bytes. -/
theorem sha256Gate_eq_sha256_abc : SHA256Gate [97, 98, 99] = SHA256 (fun _ => 0) [97, 98, 99] :=
  ((sha256Gate_eq_sha256 (by decide : [97, 98, 99].length < 2 ^ 32) fun _ => 0).2.1 (by decide)).1

end ZkevmProver
