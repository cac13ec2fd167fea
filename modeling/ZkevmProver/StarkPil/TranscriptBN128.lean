import ZkevmProver.StarkPil.Transcript

/-!
# The transcript over BN128

Elements are put into a buffer of sixteen, which is hashed together with the state.  The outputs are
handed out whole, or three words of 64 bits at a time from a second buffer.

  1. The transcript.
  2. Its runs.
  3. When a run is fresh.
-/

namespace ZkevmProver

open Sponge

/-! ## The transcript -/

/-- `state` is a vector of one element; `trace` is not in the source: it records what happens. -/
structure TranscriptBN128 (F : Type*) where
  state : F
  pending : List F := []
  out : List F
  out3 : List ℕ := []
  trace : Trace F (F ⊕ ℕ) := {}

namespace TranscriptBN128

variable {F G : Type*} [Zero F]

def init : TranscriptBN128 F where
  state := 0
  out := [0]

variable (fromGoldilocks : G → F) (poseidon : List F → ℕ → F) (word : ℕ → F → ℕ)

/-- Poseidon works in place. -/
def hash (out : List F) : List F := List.ofFn fun i : Fin out.length => poseidon out i

def _updateState (t : TranscriptBN128 F) : TranscriptBN128 F :=
  let pending := t.pending ++ List.replicate (16 - t.pending.length) 0
  let inputs := t.out ++ [t.state] ++ pending
  let out := hash poseidon inputs
  { state := out.headD 0
    pending := []
    out := out
    out3 := []
    trace := t.trace.call inputs }

def _add1 (t : TranscriptBN128 F) (input : F) : TranscriptBN128 F :=
  let t := { t with
    pending := t.pending ++ [input]
    out := []
    trace := t.trace.add input }
  if t.pending.length = 16 then _updateState poseidon t else t

/-- Elements of the field itself. -/
def put (t : TranscriptBN128 F) (input : List F) : TranscriptBN128 F := input.foldl (_add1 poseidon) t

/-- Goldilocks elements, in Montgomery form. -/
def putGoldilocks (t : TranscriptBN128 F) (input : List G) : TranscriptBN128 F :=
  put poseidon t (input.map fromGoldilocks)

/-- The first output that is left. -/
def takeOut (t : TranscriptBN128 F) : F × TranscriptBN128 F :=
  let res := t.out.headD 0
  (res, { t with out := t.out.tail, trace := t.trace.draw (.inl res) })

/-- The first word that is left. -/
def takeOut3 (t : TranscriptBN128 F) : ℕ × TranscriptBN128 F :=
  let res := t.out3.headD 0
  (res, { t with out3 := t.out3.tail, trace := t.trace.draw (.inr res) })

/-- The first output that is left is cut into words. -/
def splitOut (t : TranscriptBN128 F) : TranscriptBN128 F :=
  let res := t.out.headD 0
  { t with out := t.out.tail, out3 := t.out3 ++ [word 0 res, word 1 res, word 2 res] }

/-- The call of itself after `_updateState` finds an output. -/
def getFields253 (t : TranscriptBN128 F) : F × TranscriptBN128 F :=
  if 0 < t.out.length then takeOut t else takeOut (_updateState poseidon t)

/-- The calls of itself find an output after `_updateState`, and a word after the cut. -/
def getFields1 (t : TranscriptBN128 F) : ℕ × TranscriptBN128 F :=
  if 0 < t.out3.length then takeOut3 t
  else if 0 < t.out.length then takeOut3 (splitOut word t)
  else takeOut3 (splitOut word (_updateState poseidon t))

def getField (t : TranscriptBN128 F) : List ℕ × TranscriptBN128 F :=
  let (output0, t) := getFields1 poseidon word t
  let (output1, t) := getFields1 poseidon word t
  let (output2, t) := getFields1 poseidon word t
  ([output0, output1, output2], t)

/-- The loop that fills `fields`. -/
def getFields : ℕ → TranscriptBN128 F → List F × TranscriptBN128 F
  | 0, t => ([], t)
  | k + 1, t =>
    let (fields, t) := getFields k t
    let (field, t) := getFields253 poseidon t
    (fields ++ [field], t)

variable (toMpz : F → ℕ) (NFields : ℕ → ℕ)

/-- `NFields` is what the floating-point expression gives for `totalBits`. -/
def getPermutations (t : TranscriptBN128 F) (n nBits : ℕ) : Option (List ℕ) × TranscriptBN128 F :=
  let totalBits := n * nBits % 2 ^ 64
  let (fields, t) := getFields poseidon (NFields totalBits) t
  (cutIndices (fun field => (toMpz field).testBit) 253 fields nBits n {}, t)

/-! ## Runs -/

/-- The public operations. -/
inductive Op (F G : Type*)
  | putGoldilocks (input : List G)
  | put (input : List F)
  | getField
  | getFields1
  | getFields253
  | getPermutations (n nBits : ℕ)

def exec (t : TranscriptBN128 F) : Op F G → TranscriptBN128 F
  | .putGoldilocks input => putGoldilocks fromGoldilocks poseidon t input
  | .put input => put poseidon t input
  | .getField => (getField poseidon word t).2
  | .getFields1 => (getFields1 poseidon word t).2
  | .getFields253 => (getFields253 poseidon t).2
  | .getPermutations n nBits => (getPermutations poseidon toMpz NFields t n nBits).2

def run (ops : List (Op F G)) : TranscriptBN128 F :=
  ops.foldl (exec fromGoldilocks poseidon word toMpz NFields) init

/-- The operations that look into the buffer of words. -/
def Op.ReadsOut3 : Op F G → Prop
  | .getField => True
  | .getFields1 => True
  | _ => False

/-- No words are left from before the last element, unless a call has come after it. -/
def Drained (t : TranscriptBN128 F) : Prop := t.pending = [] ∨ t.out3 = []

/-- No operation of a run reads a word from before the last element, unless a call has come after it. -/
def RunDrained (ops : List (Op F G)) : Prop :=
  ∀ before op after, ops = before ++ op :: after → op.ReadsOut3 →
    (run fromGoldilocks poseidon word toMpz NFields before).Drained

/-! ## Freshness -/

/-- The calls of a transcript. -/
def scheme : Scheme F (F ⊕ ℕ) where
  hash := hash poseidon
  input := fun block state => state ++ (block ++ List.replicate (16 - block.length) 0)
  next := List.take 1
  start := [0]
  part := fun limb x => limb.elim (.inl x) fun j => .inr (word j x)

/-- The values that are left and may still be handed out. -/
def left (t : TranscriptBN128 F) : List (F ⊕ ℕ) :=
  (if t.pending.isEmpty then t.out3.map .inr else []) ++ t.out.map .inl

omit [Zero F] in
theorem left_of_nil {t : TranscriptBN128 F} (h : t.pending = []) :
    t.left = t.out3.map .inr ++ t.out.map .inl := by
  rw [left, h]
  rfl

/-- The state between two operations; `fresh` tells whether all reads have been right so far. -/
structure Inv (fresh : Prop) (t : TranscriptBN128 F) : Prop where
  absorbed : (scheme poseidon word).Absorbed t.trace t.pending
  lt : t.pending.length < 16
  state : [t.state] = (scheme poseidon word).stateBefore t.trace.calls t.trace.calls.length
  out : t.pending ≠ [] → t.out = []
  drawn : fresh → (scheme poseidon word).Drawn (t.trace.drawAll t.left)
  stale : ¬ fresh → (scheme poseidon word).Stale t.trace

section Steps

variable {fromGoldilocks : G → F} {poseidon : List F → ℕ → F} {word : ℕ → F → ℕ} {toMpz : F → ℕ}
  {NFields : ℕ → ℕ} {fresh fresh' : Prop} {t : TranscriptBN128 F}

theorem inv_init : Inv poseidon word True (init : TranscriptBN128 F) where
  absorbed := absorbed_empty
  lt := Nat.zero_lt_succ 15
  state := rfl
  out := fun h => absurd rfl h
  drawn := fun _ => ⟨[none], .cons ⟨rfl, rfl⟩ .nil, List.pairwise_singleton _ _⟩
  stale := fun h => absurd trivial h

theorem Inv.congr (h : Inv poseidon word fresh t) (hiff : fresh ↔ fresh') : Inv poseidon word fresh' t :=
  propext hiff ▸ h

/-- The outputs start with the next state. -/
theorem take_hash {out : List F} (h : out ≠ []) : [(hash poseidon out).headD 0] = (hash poseidon out).take 1 := by
  cases out with
  | nil => exact absurd rfl h
  | cons x out =>
    rw [hash, List.ofFn_succ]
    rfl

/-- A call of the hash, whether the buffer is full or not. -/
theorem inv_updateState (habsorbed : (scheme poseidon word).Absorbed t.trace t.pending)
    (hstate : [t.state] = (scheme poseidon word).stateBefore t.trace.calls t.trace.calls.length)
    (hout : t.out = []) (hdrawn : fresh → (scheme poseidon word).Drawn t.trace)
    (hstale : ¬ fresh → (scheme poseidon word).Stale t.trace) :
    Inv poseidon word fresh (_updateState poseidon t) where
  absorbed := by
    refine habsorbed.call ?_
    rw [hout, List.nil_append, hstate]
    rfl
  lt := Nat.zero_lt_succ 15
  state := by
    have hinputs : t.out ++ [t.state] ++ (t.pending ++ List.replicate (16 - t.pending.length) 0) ≠ [] := by
      rw [hout]
      exact List.cons_ne_nil _ _
    exact (take_hash hinputs).trans (stateBefore_length_concat (scheme poseidon word) t.trace.calls
      ⟨_, t.trace.elements⟩).symm
  out := fun h => absurd rfl h
  drawn := fun hfresh => (hdrawn hfresh).call habsorbed _
  stale := fun hfresh => (hstale hfresh).call habsorbed _

theorem Inv._updateState (h : Inv poseidon word fresh t) (hout : t.out = []) :
    Inv poseidon word fresh (_updateState poseidon t) :=
  inv_updateState h.absorbed h.state hout (fun hfresh => (h.drawn hfresh).of_drawAll) h.stale

theorem Inv._add1 (h : Inv poseidon word fresh t) (input : F) :
    Inv poseidon word fresh (_add1 poseidon t input) := by
  have habsorbed := h.absorbed.add input
  have hdrawn (hfresh : fresh) : (scheme poseidon word).Drawn (t.trace.add input) :=
    (h.drawn hfresh).of_drawAll
  unfold TranscriptBN128._add1
  dsimp only
  split
  · exact inv_updateState habsorbed h.state rfl hdrawn h.stale
  · next hfull =>
    have hle : (t.pending ++ [input]).length ≤ 16 := by
      rw [List.length_append, List.length_singleton]
      exact h.lt
    refine ⟨habsorbed, lt_of_le_of_ne hle hfull, h.state, fun _ => rfl, fun hfresh => ?_, h.stale⟩
    -- the words that are left do not count any more
    have hleft : left { t with
        pending := t.pending ++ [input]
        out := []
        trace := t.trace.add input } = [] := by
      cases hpending : t.pending <;> rfl
    rw [hleft]
    exact hdrawn hfresh

theorem Inv.put (input : List F) : ∀ {t : TranscriptBN128 F}, Inv poseidon word fresh t →
    Inv poseidon word fresh (put poseidon t input) := by
  induction input with
  | nil => exact fun h => h
  | cons x input ih => exact fun h => ih (h._add1 x)

theorem Inv.pending_of_out (h : Inv poseidon word fresh t) (hout : 0 < t.out.length) : t.pending = [] := by
  by_contra hpending
  rw [h.out hpending] at hout
  exact Nat.lt_irrefl 0 hout

theorem Inv.takeOut (h : Inv poseidon word fresh t) (hout : 0 < t.out.length) :
    Inv poseidon word fresh (takeOut t).2 where
  absorbed := h.absorbed.draw _
  lt := h.lt
  state := h.state
  out := fun hpending => absurd (h.pending_of_out hout) hpending
  drawn := fun hfresh => by
    have hpending := h.pending_of_out hout
    have hdrawn := h.drawn hfresh
    obtain ⟨x, out, hcons⟩ := List.exists_cons_of_length_pos hout
    rw [left_of_nil hpending, hcons] at hdrawn
    rw [left_of_nil (t := (TranscriptBN128.takeOut t).2) hpending, TranscriptBN128.takeOut, hcons]
    exact hdrawn.draw
  stale := fun hfresh => (h.stale hfresh).draw _

theorem updateState_out : 0 < (TranscriptBN128._updateState poseidon t).out.length := by
  show 0 < (hash poseidon _).length
  rw [hash, List.length_ofFn, List.length_append, List.length_append]
  exact Nat.add_pos_left (Nat.succ_pos _) _

theorem Inv.getFields253 (h : Inv poseidon word fresh t) :
    Inv poseidon word fresh (getFields253 poseidon t).2 := by
  unfold TranscriptBN128.getFields253
  split
  · next hout => exact h.takeOut hout
  · next hout =>
    have hnil : t.out = [] := List.length_eq_zero_iff.mp (Nat.eq_zero_of_not_pos hout)
    exact (h._updateState hnil).takeOut updateState_out

theorem Inv.getFields (h : Inv poseidon word fresh t) (k : ℕ) :
    Inv poseidon word fresh (getFields poseidon k t).2 := by
  induction k with
  | zero => exact h
  | succ k ih => exact ih.getFields253

/-- A word that is left is right if no element has come since. -/
theorem Inv.takeOut3 (h : Inv poseidon word fresh t) (hout3 : 0 < t.out3.length) :
    Inv poseidon word (fresh ∧ t.pending = []) (takeOut3 t).2 where
  absorbed := h.absorbed.draw _
  lt := h.lt
  state := h.state
  out := h.out
  drawn := fun ⟨hfresh, hpending⟩ => by
    have hdrawn := h.drawn hfresh
    obtain ⟨x, out3, hcons⟩ := List.exists_cons_of_length_pos hout3
    rw [left_of_nil hpending, hcons] at hdrawn
    rw [left_of_nil (t := (TranscriptBN128.takeOut3 t).2) hpending, TranscriptBN128.takeOut3, hcons]
    exact hdrawn.draw (u := [])
  stale := fun hfresh => by
    by_cases hpending : t.pending = []
    · exact (h.stale fun hall => hfresh ⟨hall, hpending⟩).draw _
    · exact stale_draw h.absorbed hpending _

theorem Inv.splitOut (h : Inv poseidon word fresh t) (hout : 0 < t.out.length) (hout3 : t.out3 = []) :
    Inv poseidon word fresh (splitOut word t) where
  absorbed := h.absorbed
  lt := h.lt
  state := h.state
  out := fun hpending => absurd (h.pending_of_out hout) hpending
  drawn := fun hfresh => by
    have hpending := h.pending_of_out hout
    have hdrawn := h.drawn hfresh
    obtain ⟨x, out, hcons⟩ := List.exists_cons_of_length_pos hout
    rw [left_of_nil hpending, hcons, hout3] at hdrawn
    rw [left_of_nil (t := TranscriptBN128.splitOut word t) hpending, TranscriptBN128.splitOut, hcons, hout3]
    refine hdrawn.split (S := scheme poseidon word) (fun limb y hvalue => ?_) 3
    cases limb with
    | none => exact ⟨rfl, (Sum.inl.inj hvalue).symm⟩
    | some j => exact absurd hvalue Sum.inl_ne_inr
  stale := h.stale

theorem splitOut_out3 : 0 < (TranscriptBN128.splitOut word t).out3.length := by
  show 0 < (t.out3 ++ _).length
  rw [List.length_append]
  exact Nat.add_pos_right _ (Nat.succ_pos 2)

/-- Words are read from the second buffer first, whether they are old or not. -/
theorem Inv.getFields1 (h : Inv poseidon word fresh t) :
    Inv poseidon word (fresh ∧ t.Drained) (getFields1 poseidon word t).2 := by
  unfold TranscriptBN128.getFields1
  split
  · next hout3 =>
    refine (h.takeOut3 hout3).congr (and_congr_right' ?_)
    exact ⟨.inl, fun hdrained => hdrained.resolve_right (List.ne_nil_of_length_pos hout3)⟩
  · next hout3 =>
    have hnil3 : t.out3 = [] := List.length_eq_zero_iff.mp (Nat.eq_zero_of_not_pos hout3)
    split
    · next hout =>
      refine ((h.splitOut hout hnil3).takeOut3 splitOut_out3).congr (and_congr_right' ?_)
      exact ⟨fun _ => .inr hnil3, fun _ => h.pending_of_out hout⟩
    · next hout =>
      have hnil : t.out = [] := List.length_eq_zero_iff.mp (Nat.eq_zero_of_not_pos hout)
      have hupdate := h._updateState hnil
      refine ((hupdate.splitOut updateState_out rfl).takeOut3 splitOut_out3).congr (and_congr_right' ?_)
      exact ⟨fun _ => .inr hnil3, fun _ => rfl⟩

theorem Inv.getFields1_pending (h : Inv poseidon word fresh t) (hdrained : t.Drained) :
    (TranscriptBN128.getFields1 poseidon word t).2.pending = [] := by
  unfold TranscriptBN128.getFields1
  split
  · next hout3 => exact hdrained.resolve_right (List.ne_nil_of_length_pos hout3)
  · split
    · next hout => exact h.pending_of_out hout
    · rfl

theorem Inv.getField (h : Inv poseidon word fresh t) :
    Inv poseidon word (fresh ∧ t.Drained) (getField poseidon word t).2 := by
  have h1 := h.getFields1
  have h2 := h1.getFields1
  refine h2.getFields1.congr ⟨fun hall => hall.1.1, fun hall => ?_⟩
  have hpending := h.getFields1_pending hall.2
  exact ⟨⟨hall, .inl hpending⟩, .inl (h1.getFields1_pending (.inl hpending))⟩

theorem Inv.exec (h : Inv poseidon word fresh t) (op : Op F G) :
    Inv poseidon word (fresh ∧ (op.ReadsOut3 → t.Drained))
      (exec fromGoldilocks poseidon word toMpz NFields t op) := by
  have hno (hreads : ¬ op.ReadsOut3) : fresh ↔ fresh ∧ (op.ReadsOut3 → t.Drained) :=
    ⟨fun hfresh => ⟨hfresh, fun hop => absurd hop hreads⟩, And.left⟩
  have hyes (hreads : op.ReadsOut3) : fresh ∧ t.Drained ↔ fresh ∧ (op.ReadsOut3 → t.Drained) :=
    and_congr_right' ⟨fun hdrained _ => hdrained, fun hdrained => hdrained hreads⟩
  cases op with
  | putGoldilocks input => exact (h.put _).congr (hno id)
  | put input => exact (h.put input).congr (hno id)
  | getField => exact h.getField.congr (hyes trivial)
  | getFields1 => exact h.getFields1.congr (hyes trivial)
  | getFields253 => exact h.getFields253.congr (hno id)
  | getPermutations n nBits => exact (h.getFields _).congr (hno id)

end Steps

section Runs

variable {fromGoldilocks : G → F} {poseidon : List F → ℕ → F} {word : ℕ → F → ℕ} {toMpz : F → ℕ}
  {NFields : ℕ → ℕ}

theorem runDrained_concat {ops : List (Op F G)} {op : Op F G} :
    RunDrained fromGoldilocks poseidon word toMpz NFields (ops ++ [op]) ↔
      RunDrained fromGoldilocks poseidon word toMpz NFields ops ∧
        (op.ReadsOut3 → (run fromGoldilocks poseidon word toMpz NFields ops).Drained) := by
  constructor
  · intro h
    refine ⟨fun before op' after heq => h before op' (after ++ [op]) ?_, h ops op [] rfl⟩
    rw [heq, List.append_assoc, List.cons_append]
  · rintro ⟨hops, hop⟩ before op' after heq
    rcases List.eq_nil_or_concat after with rfl | ⟨after, last, rfl⟩
    · obtain ⟨rfl, hlast⟩ := List.append_inj' heq rfl
      obtain rfl := List.singleton_inj.mp hlast
      exact hop
    · rw [List.concat_eq_append, ← List.cons_append, ← List.append_assoc] at heq
      exact hops before op' after (List.append_inj' heq rfl).1

theorem inv_run (ops : List (Op F G)) :
    Inv poseidon word (RunDrained fromGoldilocks poseidon word toMpz NFields ops)
      (run fromGoldilocks poseidon word toMpz NFields ops) := by
  induction ops using List.reverseRecOn with
  | nil =>
    refine inv_init.congr ⟨fun _ before op after heq => ?_, fun _ => trivial⟩
    exact absurd heq.symm (List.append_ne_nil_of_right_ne_nil _ (List.cons_ne_nil _ _))
  | append_singleton ops op ih =>
    rw [run, List.foldl_append]
    exact (ih.exec op).congr runDrained_concat.symm

theorem fresh_run_iff (ops : List (Op F G)) :
    (scheme poseidon word).Fresh (run fromGoldilocks poseidon word toMpz NFields ops).trace ↔
      RunDrained fromGoldilocks poseidon word toMpz NFields ops := by
  have hinv : Inv poseidon word (RunDrained fromGoldilocks poseidon word toMpz NFields ops)
      (run fromGoldilocks poseidon word toMpz NFields ops) := inv_run ops
  refine ⟨fun hfresh => ?_, fun hdrained => ⟨hinv.absorbed.chained, (hinv.drawn hdrained).of_drawAll⟩⟩
  by_contra hdrained
  exact (hinv.stale hdrained).not_fresh hfresh

end Runs

end TranscriptBN128

/-- The transcript over Goldilocks is always fresh, the one over BN128 as long as no words are left when
elements are put, or a call comes before the next word. -/
theorem transcripts_fresh {F F' G : Type*} [Zero F] [Zero F']
    (hash_full_result : List F → Fin Transcript.TRANSCRIPT_OUT_SIZE → F) (toU64 : F → ℕ)
    (fromGoldilocks : G → F') (poseidon : List F' → ℕ → F') (word : ℕ → F' → ℕ) (toMpz : F' → ℕ)
    (NFields NFields' : ℕ → ℕ) :
    (∀ ops : List (Transcript.Op F), (Transcript.scheme hash_full_result).Fresh
      (Transcript.run hash_full_result toU64 NFields ops).trace) ∧
    ∀ ops : List (TranscriptBN128.Op F' G),
      (TranscriptBN128.scheme poseidon word).Fresh
        (TranscriptBN128.run fromGoldilocks poseidon word toMpz NFields' ops).trace ↔
      ∀ before op after, ops = before ++ op :: after → op.ReadsOut3 →
        (TranscriptBN128.run fromGoldilocks poseidon word toMpz NFields' before).Drained :=
  ⟨Transcript.fresh_run, TranscriptBN128.fresh_run_iff⟩

/-- A word of the first call is handed out after the next put. -/
theorem transcriptBN128_stale :
    ¬ (TranscriptBN128.scheme (F := ℕ) (fun inputs i => inputs.sum + i) fun j x => x / 2 ^ (64 * j)).Fresh
      (TranscriptBN128.run (G := ℕ) id (fun inputs i => inputs.sum + i) (fun j x => x / 2 ^ (64 * j)) id
        (fun totalBits => (totalBits - 1) / 253 + 1)
        [.putGoldilocks [1], .getFields1, .putGoldilocks [2], .getFields1]).trace := by
  refine Scheme.Stale.not_fresh ⟨⟨.inr 0, [1, 2], 1⟩, ?_, ?_⟩
  · exact List.mem_cons_self ..
  · rintro (_ | ⟨call, pos, limb⟩) hs
    · exact absurd hs.1 (List.cons_ne_nil _ _)
    · obtain ⟨hcall, c, hc, helements, -⟩ := hs
      obtain rfl : call = 0 := Nat.lt_one_iff.mp hcall
      obtain rfl := Option.some_inj.mp hc
      exact absurd helements (by decide)

end ZkevmProver
