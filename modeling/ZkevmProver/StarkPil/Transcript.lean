import Mathlib.Algebra.Ring.Nat
import Mathlib.Data.List.GetD
import Mathlib.Data.List.Induction
import ZkevmProver.Lib.Sponge

/-!
# The transcript over Goldilocks

Elements are put into a buffer of eight.  When it is full, or when a value is asked for and none is left,
it is hashed together with the state, and the hash gives the next state and twelve values.

  1. Cutting indices out of field elements.
  2. The transcript.
  3. Its runs.
  4. Every run is fresh.
-/

namespace ZkevmProver

open Sponge

/-! ## Indices -/

/-- `1 << j`, where `1` is an `int`. -/
def shiftOne (j : ℕ) : ℕ := ((1 : BitVec 32) <<< (j % 32)).signExtend 64 |>.toNat

/-- Where the loops of `getPermutations` stand. -/
structure BitCursor where
  curField : ℕ := 0
  curBit : ℕ := 0

/-- The body of the inner loop; reading past the fields gives `none`. -/
def cutBit {F : Type*} (testBit : F → ℕ → Bool) (fieldBits : ℕ) (fields : List F) (s : ℕ × BitCursor)
    (j : ℕ) : Option (ℕ × BitCursor) :=
  fields[s.2.curField]?.map fun field =>
    let a := if testBit field s.2.curBit then (s.1 + shiftOne j) % 2 ^ 64 else s.1
    if s.2.curBit + 1 = fieldBits then (a, ⟨s.2.curField + 1, 0⟩)
    else (a, ⟨s.2.curField, s.2.curBit + 1⟩)

/-- The loops of `getPermutations`, which both transcripts have. -/
def cutIndices {F : Type*} (testBit : F → ℕ → Bool) (fieldBits : ℕ) (fields : List F) (nBits : ℕ) :
    ℕ → BitCursor → Option (List ℕ)
  | 0, _ => some []
  | n + 1, cursor => do
    let (a, cursor) ← (List.range nBits).foldlM (cutBit testBit fieldBits fields) (0, cursor)
    let res ← cutIndices testBit fieldBits fields nBits n cursor
    return a :: res

/-! ## The transcript -/

/-- `trace` is not in the source: it records what happens. -/
structure Transcript (F : Type*) where
  state : List F
  pending : List F
  out : List F
  pending_cursor : ℕ := 0
  out_cursor : ℕ := 0
  trace : Trace F F := {}

namespace Transcript

def TRANSCRIPT_STATE_SIZE : ℕ := 4

def TRANSCRIPT_PENDING_SIZE : ℕ := 8

abbrev TRANSCRIPT_OUT_SIZE : ℕ := 12

variable {F : Type*} [Zero F]

def init : Transcript F where
  state := List.replicate TRANSCRIPT_STATE_SIZE 0
  pending := List.replicate TRANSCRIPT_PENDING_SIZE 0
  out := List.replicate TRANSCRIPT_OUT_SIZE 0

variable (hash_full_result : List F → Fin TRANSCRIPT_OUT_SIZE → F)

/-- The call of the hash, the same in `_add1` and in `getFields1`. -/
def update (t : Transcript F) : Transcript F :=
  let inputs := t.pending ++ t.state
  let out := List.ofFn (hash_full_result inputs)
  { state := out.take TRANSCRIPT_STATE_SIZE
    pending := List.replicate TRANSCRIPT_PENDING_SIZE 0
    out := out
    pending_cursor := 0
    out_cursor := TRANSCRIPT_OUT_SIZE
    trace := t.trace.call inputs }

def _add1 (t : Transcript F) (input : F) : Transcript F :=
  let t := { t with
    pending := t.pending.set t.pending_cursor input
    pending_cursor := t.pending_cursor + 1
    out_cursor := 0
    trace := t.trace.add input }
  if t.pending_cursor = TRANSCRIPT_PENDING_SIZE then update hash_full_result t else t

def put (t : Transcript F) (input : List F) : Transcript F := input.foldl (_add1 hash_full_result) t

def getFields1 (t : Transcript F) : F × Transcript F :=
  let t := if t.out_cursor = 0 then update hash_full_result t else t
  let res := t.out.getD ((TRANSCRIPT_OUT_SIZE - t.out_cursor) % TRANSCRIPT_OUT_SIZE) 0
  (res, { t with out_cursor := t.out_cursor - 1, trace := t.trace.draw res })

/-- A loop of `getFields1`. -/
def getFields : ℕ → Transcript F → List F × Transcript F
  | 0, t => ([], t)
  | k + 1, t =>
    let (fields, t) := getFields k t
    let (field, t) := getFields1 hash_full_result t
    (fields ++ [field], t)

def getField (t : Transcript F) : List F × Transcript F := getFields hash_full_result 3 t

variable (toU64 : F → ℕ) (NFields : ℕ → ℕ)

/-- `NFields` is what the floating-point expression gives for `totalBits`. -/
def getPermutations (t : Transcript F) (n nBits : ℕ) : Option (List ℕ) × Transcript F :=
  let totalBits := n * nBits % 2 ^ 64
  let (fields, t) := getFields hash_full_result (NFields totalBits) t
  (cutIndices (fun field => (toU64 field).testBit) 63 fields nBits n {}, t)

/-! ## Runs -/

/-- The public operations. -/
inductive Op (F : Type*)
  | put (input : List F)
  | getField
  | getFields1
  | getPermutations (n nBits : ℕ)

def exec (t : Transcript F) : Op F → Transcript F
  | .put input => put hash_full_result t input
  | .getField => (getField hash_full_result t).2
  | .getFields1 => (getFields1 hash_full_result t).2
  | .getPermutations n nBits => (getPermutations hash_full_result toU64 NFields t n nBits).2

def run (ops : List (Op F)) : Transcript F := ops.foldl (exec hash_full_result toU64 NFields) init

/-! ## Freshness -/

/-- The calls of a transcript. -/
def scheme : Scheme F F where
  hash := fun input => List.ofFn (hash_full_result input)
  input := fun block state =>
    block ++ List.replicate (TRANSCRIPT_PENDING_SIZE - block.length) 0 ++ state
  next := List.take TRANSCRIPT_STATE_SIZE
  start := List.replicate TRANSCRIPT_STATE_SIZE 0
  part := fun _ x => x

/-- The values that are left. -/
def left (t : Transcript F) : List F := t.out.drop (TRANSCRIPT_OUT_SIZE - t.out_cursor)

/-- The buffer holds the elements that have not been absorbed. -/
structure Inv (t : Transcript F) (xs : List F) : Prop where
  absorbed : (scheme hash_full_result).Absorbed t.trace xs
  drawn : (scheme hash_full_result).Drawn (t.trace.drawAll t.left)
  pending : t.pending = xs ++ List.replicate (TRANSCRIPT_PENDING_SIZE - xs.length) 0
  cursor : t.pending_cursor = xs.length
  lt : xs.length < TRANSCRIPT_PENDING_SIZE
  state : t.state = (scheme hash_full_result).stateBefore t.trace.calls t.trace.calls.length
  out_le : t.out_cursor ≤ TRANSCRIPT_OUT_SIZE
  length : t.out.length = TRANSCRIPT_OUT_SIZE

variable {hash_full_result} {t : Transcript F} {xs : List F}

omit [Zero F] in
theorem left_eq_nil (h : t.out.length = TRANSCRIPT_OUT_SIZE) (hout : t.out_cursor = 0) : t.left = [] := by
  rw [left, hout, Nat.sub_zero]
  exact List.drop_eq_nil_of_le h.le

theorem inv_init : Inv hash_full_result (init : Transcript F) [] where
  absorbed := absorbed_empty
  drawn := drawn_empty
  pending := rfl
  cursor := rfl
  lt := Nat.zero_lt_succ 7
  state := rfl
  out_le := Nat.zero_le _
  length := List.length_replicate

/-- A call of the hash, whether the buffer is full or not. -/
theorem inv_update (habsorbed : (scheme hash_full_result).Absorbed t.trace xs)
    (hdrawn : (scheme hash_full_result).Drawn t.trace)
    (hpending : t.pending = xs ++ List.replicate (TRANSCRIPT_PENDING_SIZE - xs.length) 0)
    (hstate : t.state = (scheme hash_full_result).stateBefore t.trace.calls t.trace.calls.length) :
    Inv hash_full_result (update hash_full_result t) [] where
  absorbed := by
    refine habsorbed.call ?_
    rw [hpending, hstate]
    rfl
  drawn := by
    have hcall := hdrawn.call habsorbed (t.pending ++ t.state)
    rw [show ((scheme hash_full_result).part none : F → F) = id from rfl, List.map_id] at hcall
    exact hcall
  pending := rfl
  cursor := rfl
  lt := Nat.zero_lt_succ 7
  state := (stateBefore_length_concat (scheme hash_full_result) t.trace.calls
    ⟨t.pending ++ t.state, t.trace.elements⟩).symm
  out_le := le_rfl
  length := List.length_ofFn

theorem set_pending {input : F} (h : xs.length < TRANSCRIPT_PENDING_SIZE) :
    (xs ++ List.replicate (TRANSCRIPT_PENDING_SIZE - xs.length) 0).set xs.length input =
      (xs ++ [input]) ++ List.replicate (TRANSCRIPT_PENDING_SIZE - (xs ++ [input]).length) 0 := by
  obtain ⟨k, hk⟩ := Nat.exists_eq_add_of_lt h
  have hlength : TRANSCRIPT_PENDING_SIZE - xs.length = k + 1 := by omega
  have hlength' : TRANSCRIPT_PENDING_SIZE - (xs ++ [input]).length = k := by
    rw [List.length_append, List.length_singleton]
    omega
  rw [hlength, hlength', List.set_append_right _ _ le_rfl, Nat.sub_self, List.replicate_succ,
    List.set_cons_zero, List.append_assoc]
  rfl

/-- No value is left after an element. -/
theorem Inv.drawn_add (h : Inv hash_full_result t xs) (input : F) :
    (scheme hash_full_result).Drawn ((t.trace.add input).drawAll
      { t with out_cursor := 0 }.left) := by
  rw [left_eq_nil (t := { t with out_cursor := 0 }) h.length rfl]
  exact h.drawn.of_drawAll

theorem Inv._add1 (h : Inv hash_full_result t xs) (input : F) :
    ∃ ys, Inv hash_full_result (_add1 hash_full_result t input) ys := by
  have habsorbed := h.absorbed.add input
  have hpending : t.pending.set t.pending_cursor input =
      (xs ++ [input]) ++ List.replicate (TRANSCRIPT_PENDING_SIZE - (xs ++ [input]).length) 0 := by
    rw [h.pending, h.cursor]
    exact set_pending h.lt
  have hcursor : t.pending_cursor + 1 = (xs ++ [input]).length := by
    rw [h.cursor, List.length_append, List.length_singleton]
  have hle : (xs ++ [input]).length ≤ TRANSCRIPT_PENDING_SIZE := by
    rw [List.length_append, List.length_singleton]
    exact h.lt
  unfold Transcript._add1
  dsimp only
  split
  · exact ⟨[], inv_update habsorbed h.drawn.of_drawAll hpending h.state⟩
  · next hfull =>
    rw [hcursor] at hfull
    exact ⟨xs ++ [input], habsorbed, h.drawn_add input, hpending, hcursor, lt_of_le_of_ne hle hfull,
      h.state, Nat.zero_le _, h.length⟩

theorem Inv.put (input : List F) : ∀ {t : Transcript F} {xs : List F}, Inv hash_full_result t xs →
    ∃ ys, Inv hash_full_result (put hash_full_result t input) ys := by
  induction input with
  | nil => exact fun h => ⟨_, h⟩
  | cons x input ih =>
    intro t xs h
    obtain ⟨ys, h⟩ := h._add1 x
    exact ih h

theorem Inv.getFields1_of_left (h : Inv hash_full_result t xs) (hout : t.out_cursor ≠ 0) :
    Inv hash_full_result { t with
      out_cursor := t.out_cursor - 1
      trace := t.trace.draw (t.out.getD
        ((TRANSCRIPT_OUT_SIZE - t.out_cursor) % TRANSCRIPT_OUT_SIZE) 0) } xs where
  absorbed := h.absorbed.draw _
  drawn := by
    have hle := h.out_le
    have hpos : TRANSCRIPT_OUT_SIZE - t.out_cursor < TRANSCRIPT_OUT_SIZE := by omega
    have hnext : TRANSCRIPT_OUT_SIZE - (t.out_cursor - 1) = TRANSCRIPT_OUT_SIZE - t.out_cursor + 1 := by
      omega
    have hdrawn := h.drawn
    rw [left, List.drop_eq_getElem_cons (h.length ▸ hpos)] at hdrawn
    rw [Nat.mod_eq_of_lt hpos, List.getD_eq_getElem _ _ (h.length ▸ hpos), left, hnext]
    exact hdrawn.draw (u := [])
  pending := h.pending
  cursor := h.cursor
  lt := h.lt
  state := h.state
  out_le := (Nat.sub_le _ _).trans h.out_le
  length := h.length

theorem Inv.getFields1 (h : Inv hash_full_result t xs) :
    ∃ ys, Inv hash_full_result (getFields1 hash_full_result t).2 ys := by
  unfold Transcript.getFields1
  dsimp only
  split
  · next hout =>
    have hupdate := inv_update h.absorbed h.drawn.of_drawAll h.pending h.state
    exact ⟨[], hupdate.getFields1_of_left (Nat.succ_ne_zero 11)⟩
  · next hout => exact ⟨xs, h.getFields1_of_left hout⟩

theorem Inv.getFields (h : Inv hash_full_result t xs) (k : ℕ) :
    ∃ ys, Inv hash_full_result (getFields hash_full_result k t).2 ys := by
  induction k with
  | zero => exact ⟨xs, h⟩
  | succ k ih =>
    obtain ⟨ys, ih⟩ := ih
    exact ih.getFields1

variable {toU64 : F → ℕ} {NFields : ℕ → ℕ}

theorem Inv.exec (h : Inv hash_full_result t xs) (op : Op F) :
    ∃ ys, Inv hash_full_result (exec hash_full_result toU64 NFields t op) ys := by
  cases op with
  | put input => exact h.put input
  | getField => exact h.getFields 3
  | getFields1 => exact h.getFields1
  | getPermutations n nBits => exact h.getFields _

theorem inv_run (ops : List (Op F)) :
    ∃ ys, Inv hash_full_result (run hash_full_result toU64 NFields ops) ys := by
  induction ops using List.reverseRecOn with
  | nil => exact ⟨[], inv_init⟩
  | append_singleton ops op ih =>
    obtain ⟨ys, ih⟩ := ih
    rw [run, List.foldl_append]
    exact ih.exec op

theorem fresh_run (ops : List (Op F)) :
    (scheme hash_full_result).Fresh (run hash_full_result toU64 NFields ops).trace := by
  obtain ⟨ys, h⟩ : ∃ ys, Inv hash_full_result (run hash_full_result toU64 NFields ops) ys := inv_run ops
  exact ⟨h.absorbed.chained, h.drawn.of_drawAll⟩

end Transcript

end ZkevmProver
