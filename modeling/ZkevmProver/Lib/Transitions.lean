import Mathlib.Tactic.Common
import Mathlib.Data.List.Induction

/-!
# Runs of labelled transition systems

A transition system is a relation between a state, a label and a next state.  A run is a list of
labels together with the states at its ends.

1. `Run` and its composition
2. What every step keeps, every run keeps: `Run.history`, `Run.invariant`
3. Forward simulations: `Run.simulate`
-/

namespace Transitions

variable {σ τ ε δ : Type*}

/-- The labels `es` lead from `s` to `t`. -/
def Run (R : σ → ε → σ → Prop) : σ → List ε → σ → Prop
  | s, [], t => s = t
  | s, e :: es, t => ∃ u, R s e u ∧ Run R u es t

/-- The steps of a function that may refuse a label. -/
def steps (f : σ → ε → Option σ) : σ → ε → σ → Prop := fun s e t => f s e = some t

/-- The steps of `R` that meet the condition `C` where they start. -/
def restrict (R : σ → ε → σ → Prop) (C : σ → ε → Prop) : σ → ε → σ → Prop :=
  fun s e t => C s e ∧ R s e t

section

variable {R : σ → ε → σ → Prop} {s t u : σ} {es es' : List ε} {e : ε}

@[simp] theorem run_nil : Run R s [] t ↔ s = t := Iff.rfl

@[simp] theorem run_cons : Run R s (e :: es) t ↔ ∃ u, R s e u ∧ Run R u es t := Iff.rfl

theorem run_append : Run R s (es ++ es') t ↔ ∃ u, Run R s es u ∧ Run R u es' t := by
  induction es generalizing s with
  | nil => simp
  | cons e es ih =>
    simp only [List.cons_append, run_cons, ih]
    constructor
    · rintro ⟨v, hv, u, hu, ht⟩
      exact ⟨u, ⟨v, hv, hu⟩, ht⟩
    · rintro ⟨u, ⟨v, hv, hu⟩, ht⟩
      exact ⟨v, hv, u, hu, ht⟩

theorem run_concat : Run R s (es ++ [e]) t ↔ ∃ u, Run R s es u ∧ R u e t := by
  simp [run_append]

/-- A property of the labels so far and the state that every step keeps holds after every run. -/
theorem Run.history {P : List ε → σ → Prop} (h : Run R s es t) (h₀ : P [] s)
    (hstep : ∀ es u e v, P es u → R u e v → P (es ++ [e]) v) : P es t := by
  induction es using List.reverseRecOn generalizing t with
  | nil =>
    cases h
    exact h₀
  | append_singleton es e ih =>
    obtain ⟨u, hu, he⟩ := run_concat.mp h
    exact hstep es u e t (ih hu) he

/-- A property of the state that every step keeps holds after every run. -/
theorem Run.invariant {P : σ → Prop} (h : Run R s es t) (h₀ : P s)
    (hstep : ∀ u e v, P u → R u e v → P v) : P t :=
  h.history h₀ fun _ => hstep

/-- A step function takes a run to one state only. -/
theorem Run.unique {f : σ → ε → Option σ} (h : Run (steps f) s es t)
    (h' : Run (steps f) s es u) : t = u := by
  induction es generalizing s with
  | nil => exact h.symm.trans h'
  | cons e es ih =>
    obtain ⟨v, hv, ht⟩ := h
    obtain ⟨w, hw, hu⟩ := h'
    obtain rfl : v = w := Option.some.inj (hv.symm.trans hw)
    exact ih ht hu

/-- Follows a run of a step function. -/
def follow (f : σ → ε → Option σ) : σ → List ε → Option σ
  | s, [] => some s
  | s, e :: es => (f s e).bind fun u => follow f u es

theorem run_steps_iff {f : σ → ε → Option σ} :
    Run (steps f) s es t ↔ follow f s es = some t := by
  induction es generalizing s with
  | nil => simp [follow]
  | cons e es ih => simp [follow, ih, steps, Option.bind_eq_some_iff]

end

/-- A forward simulation: where `I` holds, the view of every step is a step of `R'`, and `I` holds
again after it. -/
theorem Run.simulate {R : σ → ε → σ → Prop} {R' : τ → δ → τ → Prop} {I : σ → Prop}
    {view : σ → τ} {label : ε → δ} {s t : σ} {es : List ε} (h : Run R s es t) (h₀ : I s)
    (hstep : ∀ u e v, I u → R u e v → R' (view u) (label e) (view v) ∧ I v) :
    Run R' (view s) (es.map label) (view t) ∧ I t := by
  induction es generalizing s with
  | nil =>
    cases h
    exact ⟨rfl, h₀⟩
  | cons e es ih =>
    obtain ⟨u, he, hu⟩ := h
    obtain ⟨hR, hI⟩ := hstep s e u h₀ he
    obtain ⟨hrun, ht⟩ := ih hu hI
    exact ⟨⟨view u, hR, hrun⟩, ht⟩

end Transitions
