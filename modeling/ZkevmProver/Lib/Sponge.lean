import Mathlib.Data.List.Forall2
import Mathlib.Data.List.Perm.Basic
import Mathlib.Data.Nat.Basic
import Mathlib.Order.Basic
import Mathlib.Tactic.Common

/-!
# Sponges that are squeezed between absorptions

Elements are absorbed by calls of a hash function: the input of a call is a block of elements and a state
that comes from the outputs of the call before.  Values are drawn from the outputs of the calls.  A trace
records the calls, the elements and the draws, and is fresh when every value comes from a call that was
made after the last element before it, and no output is handed out twice.

  1. Calls.
  2. Draws.
  3. Traces, and what one more event does to them.
-/

namespace Sponge

variable {F V : Type*}

/-- How a call is put together from a block and a state, and which part of an output a value is. -/
structure Scheme (F V : Type*) where
  hash : List F → List F
  input : List F → List F → List F
  next : List F → List F
  start : List F
  part : Option ℕ → F → V

/-! ## Calls -/

/-- A call of the hash function, with all elements that had been given before. -/
structure Call (F : Type*) where
  input : List F
  elements : List F

/-- The elements before call `k`. -/
def elementsBefore (calls : List (Call F)) : ℕ → List F
  | 0 => []
  | k + 1 => calls[k]?.elim [] Call.elements

/-- The state that call `k` starts from. -/
def Scheme.stateBefore (S : Scheme F V) (calls : List (Call F)) : ℕ → List F
  | 0 => S.start
  | k + 1 => calls[k]?.elim S.start fun c => S.next (S.hash c.input)

/-- Every call absorbs the elements since the call before it, in the state that this one left. -/
def Scheme.Chained (S : Scheme F V) (calls : List (Call F)) : Prop :=
  ∀ k c, calls[k]? = some c → ∃ block, c.elements = elementsBefore calls k ++ block ∧
    c.input = S.input block (S.stateBefore calls k)

section Calls

variable {S : Scheme F V} {calls : List (Call F)} {c : Call F} {k : ℕ}

theorem elementsBefore_concat (h : k ≤ calls.length) :
    elementsBefore (calls ++ [c]) k = elementsBefore calls k := by
  cases k with
  | zero => rfl
  | succ k => rw [elementsBefore, elementsBefore, List.getElem?_append_left h]

theorem stateBefore_concat (h : k ≤ calls.length) :
    S.stateBefore (calls ++ [c]) k = S.stateBefore calls k := by
  cases k with
  | zero => rfl
  | succ k => rw [Scheme.stateBefore, Scheme.stateBefore, List.getElem?_append_left h]

theorem elementsBefore_length_concat (calls : List (Call F)) (c : Call F) :
    elementsBefore (calls ++ [c]) (calls ++ [c]).length = c.elements := by
  rw [List.length_append, List.length_singleton, elementsBefore, List.getElem?_concat_length]
  rfl

theorem stateBefore_length_concat (S : Scheme F V) (calls : List (Call F)) (c : Call F) :
    S.stateBefore (calls ++ [c]) (calls ++ [c]).length = S.next (S.hash c.input) := by
  rw [List.length_append, List.length_singleton, Scheme.stateBefore, List.getElem?_concat_length]
  rfl

theorem Scheme.Chained.concat (h : S.Chained calls) {block : List F}
    (helements : c.elements = elementsBefore calls calls.length ++ block)
    (hinput : c.input = S.input block (S.stateBefore calls calls.length)) :
    S.Chained (calls ++ [c]) := by
  intro k d hd
  rcases Nat.lt_or_ge k calls.length with hk | hk
  · rw [List.getElem?_append_left hk] at hd
    rw [elementsBefore_concat hk.le, stateBefore_concat hk.le]
    exact h k d hd
  · have hlt : k < (calls ++ [c]).length := (List.getElem?_eq_some_iff.mp hd).1
    rw [List.length_append, List.length_singleton] at hlt
    obtain rfl : k = calls.length := by omega
    rw [List.getElem?_concat_length] at hd
    obtain rfl := Option.some_inj.mp hd
    rw [elementsBefore_concat le_rfl, stateBefore_concat le_rfl]
    exact ⟨block, helements, hinput⟩

/-- No call has more elements than there are before the next one. -/
theorem Scheme.Chained.length_le (h : S.Chained calls) (hc : calls[k]? = some c) :
    c.elements.length ≤ (elementsBefore calls calls.length).length := by
  have hstep (j : ℕ) (hj : j < calls.length) :
      (elementsBefore calls j).length ≤ (elementsBefore calls (j + 1)).length := by
    have hget : calls[j]? = some calls[j] := List.getElem?_eq_getElem hj
    obtain ⟨block, helements, -⟩ := h j _ hget
    rw [elementsBefore.eq_2, hget]
    show _ ≤ (calls[j]).elements.length
    rw [helements, List.length_append]
    exact Nat.le_add_right _ _
  have hmono (j : ℕ) (hj : j ≤ calls.length) :
      (elementsBefore calls j).length ≤ (elementsBefore calls calls.length).length := by
    induction hj using Nat.decreasingInduction with
    | self => exact le_rfl
    | of_succ j hj ih => exact (hstep j hj).trans ih
  have hk : k < calls.length := (List.getElem?_eq_some_iff.mp hc).1
  have hlast := hmono (k + 1) hk
  rw [elementsBefore.eq_2, hc] at hlast
  exact hlast

end Calls

/-! ## Draws -/

/-- Where a value comes from: an output of a call, or one of its parts. -/
structure Source where
  call : ℕ
  pos : ℕ
  limb : Option ℕ

/-- Not the same output, or different parts of it. -/
def Source.Disjoint (s s' : Source) : Prop :=
  s.call = s'.call → s.pos = s'.pos → ∃ j j', s.limb = some j ∧ s'.limb = some j' ∧ j ≠ j'

/-- Sources of two values, where a value may have none. -/
def Apart (a b : Option Source) : Prop := ∀ s ∈ a, ∀ s' ∈ b, s.Disjoint s'

theorem Apart.symm {a b : Option Source} (h : Apart a b) : Apart b a := by
  intro s hs s' hs' hcall hpos
  obtain ⟨j, j', hj, hj', hne⟩ := h s' hs' s hs hcall.symm hpos.symm
  exact ⟨j', j, hj', hj, hne.symm⟩

/-- A part of a source, in place of all of it. -/
def Source.part (s : Source) (j : ℕ) : Source := { s with limb := some j }

theorem Apart.part {a b : Option Source} (h : Apart a b) (ha : ∀ s ∈ a, s.limb = none) (j : ℕ) :
    Apart (a.map fun s => s.part j) b := by
  intro s hs s' hs' hcall hpos
  obtain ⟨s, hsa, rfl⟩ := Option.map_eq_some_iff.mp hs
  obtain ⟨i, -, hi, -⟩ := h s hsa s' hs' hcall hpos
  exact absurd ((ha s hsa).symm.trans hi) (Option.some_ne_none i).symm

/-- A value that was handed out, with the elements and the number of calls before it. -/
structure Draw (F V : Type*) where
  value : V
  elements : List F
  calls : ℕ

/-- The value comes from a call that was made after the last element before it.  Without any call or
element it may come from nowhere. -/
def Scheme.FreshDraw (S : Scheme F V) (calls : List (Call F)) (d : Draw F V) : Option Source → Prop
  | none => d.elements = [] ∧ d.calls = 0
  | some s => s.call < d.calls ∧ ∃ c, calls[s.call]? = some c ∧ c.elements = d.elements ∧
      ∃ x, (S.hash c.input)[s.pos]? = some x ∧ d.value = S.part s.limb x

/-- More calls do not matter. -/
theorem freshDraw_concat {S : Scheme F V} {calls : List (Call F)} {c : Call F} {d : Draw F V}
    (hcalls : d.calls ≤ calls.length) (s : Option Source) :
    S.FreshDraw (calls ++ [c]) d s ↔ S.FreshDraw calls d s := by
  cases s with
  | none => exact Iff.rfl
  | some s =>
    refine and_congr_right fun hlt => ?_
    rw [List.getElem?_append_left (hlt.trans_le hcalls)]

/-! ## Traces -/

/-- What has happened so far; the last draw comes first. -/
structure Trace (F V : Type*) where
  calls : List (Call F) := []
  elements : List F := []
  draws : List (Draw F V) := []

namespace Trace

def call (T : Trace F V) (input : List F) : Trace F V :=
  { T with calls := T.calls ++ [⟨input, T.elements⟩] }

def add (T : Trace F V) (x : F) : Trace F V := { T with elements := T.elements ++ [x] }

def draw (T : Trace F V) (v : V) : Trace F V :=
  { T with draws := ⟨v, T.elements, T.calls.length⟩ :: T.draws }

/-- All these values are handed out now. -/
def drawAll (T : Trace F V) (vs : List V) : Trace F V :=
  { T with draws := (vs.map fun v => ⟨v, T.elements, T.calls.length⟩) ++ T.draws }

end Trace

/-- Every value comes from a call that was made after the last element before it, and no output is
handed out twice. -/
def Scheme.Drawn (S : Scheme F V) (T : Trace F V) : Prop :=
  ∃ sources, List.Forall₂ (S.FreshDraw T.calls) T.draws sources ∧ sources.Pairwise Apart

def Scheme.Fresh (S : Scheme F V) (T : Trace F V) : Prop := S.Chained T.calls ∧ S.Drawn T

/-- The calls of a trace, and the elements that none of them has absorbed yet. -/
structure Scheme.Absorbed (S : Scheme F V) (T : Trace F V) (pending : List F) : Prop where
  chained : S.Chained T.calls
  elements : T.elements = elementsBefore T.calls T.calls.length ++ pending
  draws : ∀ d ∈ T.draws, d.calls ≤ T.calls.length

/-- A value has been handed out that no call explains. -/
def Scheme.Stale (S : Scheme F V) (T : Trace F V) : Prop :=
  ∃ d ∈ T.draws, ∀ s, ¬ S.FreshDraw T.calls d s

section Traces

variable {S : Scheme F V} {T : Trace F V} {pending : List F} {v : V} {vs : List V}

/-! The calls. -/

theorem absorbed_empty : S.Absorbed {} [] where
  chained _ _ h := nomatch List.getElem?_nil.symm.trans h
  elements := rfl
  draws _ h := nomatch h

theorem Scheme.Absorbed.call (h : S.Absorbed T pending) {input : List F}
    (hinput : input = S.input pending (S.stateBefore T.calls T.calls.length)) :
    S.Absorbed (T.call input) [] where
  chained := h.chained.concat h.elements hinput
  elements := by
    rw [List.append_nil]
    exact (elementsBefore_length_concat T.calls ⟨input, T.elements⟩).symm
  draws d hd := (h.draws d hd).trans (by
    rw [Trace.call, List.length_append]
    exact Nat.le_add_right _ _)

theorem Scheme.Absorbed.add (h : S.Absorbed T pending) (x : F) :
    S.Absorbed (T.add x) (pending ++ [x]) where
  chained := h.chained
  elements := by rw [Trace.add, h.elements, List.append_assoc]
  draws := h.draws

theorem Scheme.Absorbed.draw (h : S.Absorbed T pending) (v : V) : S.Absorbed (T.draw v) pending where
  chained := h.chained
  elements := h.elements
  draws d hd := by
    rcases List.mem_cons.mp hd with rfl | hd
    · exact le_rfl
    · exact h.draws d hd

/-! The draws. -/

theorem drawn_empty : S.Drawn {} := ⟨[], .nil, .nil⟩

/-- The values that are left are the first ones of `drawAll`. -/
theorem Scheme.Drawn.of_drawAll (h : S.Drawn (T.drawAll vs)) : S.Drawn T := by
  obtain ⟨sources, hdraws, hapart⟩ := h
  have hdrop := List.forall₂_drop vs.length hdraws
  rw [Trace.drawAll, List.drop_left' (List.length_map _)] at hdrop
  exact ⟨_, hdrop, hapart.sublist (List.drop_sublist _ _)⟩

/-- The order of the draws does not matter. -/
theorem Scheme.Drawn.perm {T' : Trace F V} (h : S.Drawn T) (hcalls : T'.calls = T.calls)
    (hdraws : T'.draws.Perm T.draws) : S.Drawn T' := by
  obtain ⟨sources, hforall, hapart⟩ := h
  obtain ⟨sources', hforall', hperm⟩ := List.perm_comp_forall₂ hdraws hforall
  refine ⟨sources', hcalls ▸ hforall', ?_⟩
  exact (hperm.pairwise_iff fun h => h.symm).mpr hapart

/-- One of the values that are left is handed out. -/
theorem Scheme.Drawn.draw {u : List V} (h : S.Drawn (T.drawAll (u ++ v :: vs))) :
    S.Drawn ((T.draw v).drawAll (u ++ vs)) := by
  refine h.perm rfl ?_
  rw [Trace.drawAll, Trace.draw, Trace.drawAll, List.map_append, List.map_append, List.map_cons]
  refine List.perm_middle.trans ?_
  rw [List.append_assoc, List.append_assoc]
  exact List.perm_middle.symm

theorem draws_concat {calls : List (Call F)} {c : Call F} {draws : List (Draw F V)}
    {sources : List (Option Source)} (h : List.Forall₂ (S.FreshDraw calls) draws sources)
    (hcalls : ∀ d ∈ draws, d.calls ≤ calls.length) :
    List.Forall₂ (S.FreshDraw (calls ++ [c])) draws sources := by
  induction h with
  | nil => exact .nil
  | @cons d s draws sources hd _ ih =>
    exact .cons ((freshDraw_concat (hcalls d (List.mem_cons_self ..)) s).mpr hd)
      (ih fun d' hd' => hcalls d' (List.mem_cons_of_mem _ hd'))

theorem exists_draw {calls : List (Call F)} {draws : List (Draw F V)} {sources : List (Option Source)}
    (h : List.Forall₂ (S.FreshDraw calls) draws sources) {s : Source} (hs : some s ∈ sources) :
    ∃ d ∈ draws, S.FreshDraw calls d (some s) := by
  induction h with
  | nil => exact absurd hs List.not_mem_nil
  | cons hd _ ih =>
    rcases List.mem_cons.mp hs with rfl | hs
    · exact ⟨_, List.mem_cons_self .., hd⟩
    · obtain ⟨d, hmem, hd⟩ := ih hs
      exact ⟨d, List.mem_cons_of_mem _ hmem, hd⟩

/-- One more call: its outputs are left, and all draws are from the calls before it. -/
theorem Scheme.Drawn.call (h : S.Drawn T) (hT : S.Absorbed T pending) (input : List F) :
    S.Drawn ((T.call input).drawAll ((S.hash input).map (S.part none))) := by
  obtain ⟨sources, hdraws, hapart⟩ := h
  refine ⟨(List.range (S.hash input).length).map (fun p => some ⟨T.calls.length, p, none⟩) ++ sources,
    List.rel_append ?_ (draws_concat hdraws hT.draws), List.pairwise_append.mpr ⟨?_, hapart, ?_⟩⟩
  · rw [List.forall₂_iff_get]
    refine ⟨by simp only [List.length_map, List.length_range], fun p hp hp' => ?_⟩
    have hlt : p < (S.hash input).length := by simpa only [List.length_map, List.length_range] using hp'
    rw [List.get_eq_getElem, List.get_eq_getElem, List.getElem_map, List.getElem_map, List.getElem_map,
      List.getElem_range]
    refine ⟨?_, ⟨input, T.elements⟩, List.getElem?_concat_length, rfl, (S.hash input)[p],
      List.getElem?_eq_getElem hlt, rfl⟩
    show T.calls.length < (T.calls ++ [_]).length
    rw [List.length_append]
    exact Nat.lt_succ_self _
  · refine List.pairwise_map.mpr (List.pairwise_lt_range.imp fun {p q} hpq => ?_)
    intro s hs s' hs' _ hpos
    obtain rfl := Option.some_inj.mp hs
    obtain rfl := Option.some_inj.mp hs'
    exact absurd hpos hpq.ne
  · rintro a ha b hb _ rfl s rfl hcall -
    obtain ⟨p, -, hp⟩ := List.mem_map.mp ha
    obtain rfl := Option.some_inj.mp hp
    obtain ⟨d, hmem, hlt, -⟩ := exists_draw hdraws hb
    exact absurd hcall (hlt.trans_le (hT.draws d hmem)).ne'

/-- An output that is left is cut into parts. -/
theorem Scheme.Drawn.split {x : F} (h : S.Drawn (T.drawAll (S.part none x :: vs)))
    (hpart : ∀ limb y, S.part none x = S.part limb y → limb = none ∧ y = x) (n : ℕ) :
    S.Drawn (T.drawAll ((List.range n).map (fun j => S.part (some j) x) ++ vs)) := by
  obtain ⟨sources, hdraws, hapart⟩ := h
  rw [Trace.drawAll, List.map_cons, List.cons_append] at hdraws
  cases hdraws with
  | @cons _ s _ sources hd hdraws =>
    obtain ⟨hs, hapart⟩ := List.pairwise_cons.mp hapart
    have hlimb : ∀ s' ∈ s, s'.limb = none := by
      rintro s' rfl
      obtain ⟨-, c, -, -, y, -, hvalue⟩ := hd
      exact (hpart _ _ hvalue).1
    refine ⟨(List.range n).map (fun j => s.map fun s => s.part j) ++ sources, ?_,
      List.pairwise_append.mpr ⟨?_, hapart, ?_⟩⟩
    · rw [Trace.drawAll, List.map_append, List.map_map, List.append_assoc]
      refine List.rel_append ?_ hdraws
      rw [List.forall₂_map_left_iff, List.forall₂_map_right_iff, List.forall₂_same]
      intro j _
      cases s with
      | none => exact hd
      | some s =>
        obtain ⟨hlt, c, hc, helements, y, hy, hvalue⟩ := hd
        obtain ⟨-, rfl⟩ := hpart _ _ hvalue
        exact ⟨hlt, c, hc, helements, y, hy, rfl⟩
    · refine List.pairwise_map.mpr (List.pairwise_lt_range.imp fun {i j} hij => ?_)
      intro s hi s' hj _ _
      obtain ⟨_, -, rfl⟩ := Option.map_eq_some_iff.mp hi
      obtain ⟨_, -, rfl⟩ := Option.map_eq_some_iff.mp hj
      exact ⟨i, j, rfl, rfl, hij.ne⟩
    · intro a ha b hb
      obtain ⟨j, -, rfl⟩ := List.mem_map.mp ha
      exact (hs b hb).part hlimb j

/-! Stale values. -/

theorem Scheme.Stale.not_fresh (h : S.Stale T) : ¬ S.Fresh T := by
  rintro ⟨-, sources, hdraws, -⟩
  obtain ⟨d, hmem, hd⟩ := h
  generalize T.draws = draws at hdraws hmem
  induction hdraws with
  | nil => exact List.not_mem_nil hmem
  | cons hfresh _ ih =>
    rcases List.mem_cons.mp hmem with rfl | hmem
    · exact hd _ hfresh
    · exact ih hmem

theorem Scheme.Stale.call (h : S.Stale T) (hT : S.Absorbed T pending) (input : List F) :
    S.Stale (T.call input) := by
  obtain ⟨d, hmem, hd⟩ := h
  exact ⟨d, hmem, fun s hs => hd s ((freshDraw_concat (hT.draws d hmem) s).mp hs)⟩

theorem Scheme.Stale.draw (h : S.Stale T) (v : V) : S.Stale (T.draw v) := by
  obtain ⟨d, hmem, hd⟩ := h
  exact ⟨d, List.mem_cons_of_mem _ hmem, hd⟩

/-- No call explains a value that is handed out while elements wait for a call. -/
theorem stale_draw (hT : S.Absorbed T pending) (hpending : pending ≠ []) (v : V) : S.Stale (T.draw v) := by
  have hlength : (elementsBefore T.calls T.calls.length).length < T.elements.length := by
    rw [hT.elements, List.length_append]
    exact Nat.lt_add_of_pos_right (List.length_pos_iff.mpr hpending)
  refine ⟨_, List.mem_cons_self .., ?_⟩
  rintro (_ | s) hs
  · have helements : T.elements = [] := hs.1
    rw [helements] at hlength
    exact Nat.not_lt_zero _ hlength
  · obtain ⟨-, c, hc, helements, -⟩ := hs
    have hle := hT.chained.length_le hc
    rw [helements] at hle
    exact absurd hlength (Nat.not_lt.mpr hle)

end Traces

end Sponge
