import ZkevmProver.Lib.Fallible

/-!
# Parsers with a position

A parser reads an input from the position in its state, and leaves the position after what it has read.
It takes fuel, and what is said of it is said for enough fuel.

1. Accepting
2. Parsing
3. Stopping
-/

namespace Parsing

open Fallible

/-- From fuel, the input and a state, a result and a new state. -/
abbrev Parser (ε τ σ α : Type) : Type := ℕ → List τ → σ → ExceptT ε Option (α × σ)

section Parsers

variable {ε τ σ α β : Type} (pos : σ → ℕ) {run : Parser ε τ σ α} {next : α → Parser ε τ σ β}

/-- One parser, and then the one that its result gives. -/
def andThen (run : Parser ε τ σ α) (next : α → Parser ε τ σ β) : Parser ε τ σ β :=
  fun fuel input s => run fuel input s >>= fun x => next x.1 fuel input x.2

/-! ## Accepting -/

/-- Wherever these symbols are in an input that is not too long, they are read, and the result is `a`. -/
def Accepts (limit : ℕ) (run : Parser ε τ σ α) (symbols : List τ) (a : α) : Prop :=
  ∀ before after s, pos s = before.length → (before ++ (symbols ++ after)).length < limit →
    ∃ s', pos s' = (before ++ symbols).length ∧
      Settles (fun fuel => run fuel (before ++ (symbols ++ after)) s) (pure (a, s'))

section Accepts

variable {pos} {limit : ℕ} {xs ys : List τ} {a : α} {b : β}

theorem Accepts.andThen (h : Accepts pos limit run xs a) (hnext : Accepts pos limit (next a) ys b) :
    Accepts pos limit (andThen run next) (xs ++ ys) b := by
  intro before after s hs hsize
  rw [List.append_assoc] at hsize ⊢
  obtain ⟨s₁, hs₁, hrun⟩ := h before (ys ++ after) s hs hsize
  rw [← List.append_assoc] at hsize
  obtain ⟨s₂, hs₂, hrest⟩ := hnext (before ++ xs) after s₁ hs₁ hsize
  rw [List.append_assoc] at hs₂ hrest
  exact ⟨s₂, hs₂, hrun.bind hrest⟩

theorem Accepts.map (f : α → β) (h : Accepts pos limit run xs a) :
    Accepts pos limit (Parsing.andThen run fun a _ _ s => pure (f a, s)) xs (f a) := by
  intro before after s hs hsize
  obtain ⟨s', hs', hrun⟩ := h before after s hs hsize
  exact ⟨s', hs', hrun.bind (.of_eq _)⟩

/-- Nothing is read. -/
theorem Accepts.of_pos {f : σ → α × σ} (hresult : ∀ s, (f s).1 = a) (hpos : ∀ s, pos (f s).2 = pos s) :
    Accepts pos limit (fun _ _ s => pure (f s) : Parser ε τ σ α) [] a := by
  intro before _ s hs _
  refine ⟨(f s).2, by rw [hpos, hs, List.append_nil], ?_⟩
  rw [← hresult s]
  exact .of_eq _

end Accepts

/-! ## Parsing -/

/-- At the start of `rest`, which comes after `before`, the parser fails with an expected error, or
accepts symbols of the format. -/
def Parses (expected : ε → Prop) (run : Parser ε τ σ α) (before rest : List τ)
    (format : List τ → α → Prop) : Prop :=
  ∀ s, pos s = before.length →
    (∃ error, expected error ∧ Settles (fun fuel => run fuel (before ++ rest) s) (throw error)) ∨
    ∃ symbols after a s', rest = symbols ++ after ∧ format symbols a ∧
      pos s' = (before ++ symbols).length ∧
      Settles (fun fuel => run fuel (before ++ rest) s) (pure (a, s'))

section Parses

variable {pos} {expected : ε → Prop} {before rest : List τ} {format : List τ → α → Prop}
  {format' : List τ → β → Prop}

theorem Parses.andThen (h : Parses pos expected run before rest format)
    (hnext : ∀ xs ys a, rest = xs ++ ys → format xs a →
      Parses pos expected (next a) (before ++ xs) ys fun symbols => format' (xs ++ symbols)) :
    Parses pos expected (andThen run next) before rest format' := by
  intro s hs
  obtain ⟨error, herror, hrun⟩ | ⟨xs, rest, a, s₁, rfl, hxs, hs₁, hrun⟩ := h s hs
  · exact Or.inl ⟨error, herror, hrun.bind_throw⟩
  have hafter := hnext xs rest a rfl hxs s₁ hs₁
  rw [List.append_assoc] at hafter
  obtain ⟨error, herror, hrest⟩ | ⟨ys, after, b, s₂, rfl, hys, hs₂, hrest⟩ := hafter
  · exact Or.inl ⟨error, herror, hrun.bind hrest⟩
  · refine Or.inr ⟨xs ++ ys, after, b, s₂, (List.append_assoc _ _ _).symm, hys, ?_, hrun.bind hrest⟩
    rw [hs₂, List.append_assoc]

theorem Parses.imp {format' : List τ → α → Prop} (himp : ∀ symbols a, format symbols a → format' symbols a)
    (h : Parses pos expected run before rest format) : Parses pos expected run before rest format' := by
  intro s hs
  obtain herror | ⟨symbols, after, a, s', hrest, hformat, hs', hrun⟩ := h s hs
  · exact Or.inl herror
  · exact Or.inr ⟨symbols, after, a, s', hrest, himp _ _ hformat, hs', hrun⟩

theorem Parses.map (f : α → β) (h : Parses pos expected run before rest fun symbols a => format' symbols (f a)) :
    Parses pos expected (Parsing.andThen run fun a _ _ s => pure (f a, s)) before rest format' := by
  intro s hs
  obtain ⟨error, herror, hrun⟩ | ⟨symbols, after, a, s', hrest, hformat, hs', hrun⟩ := h s hs
  · exact Or.inl ⟨error, herror, hrun.bind_throw⟩
  · exact Or.inr ⟨symbols, after, f a, s', hrest, hformat, hs', hrun.bind (.of_eq _)⟩

/-- Nothing is read. -/
theorem Parses.of_pos {f : σ → α × σ} {a : α} (hresult : ∀ s, (f s).1 = a)
    (hpos : ∀ s, pos (f s).2 = pos s) (hformat : format [] a) :
    Parses pos expected (fun _ _ s => pure (f s)) before rest format := by
  intro s hs
  refine Or.inr ⟨[], rest, a, (f s).2, rfl, hformat, by rw [hpos, hs, List.append_nil], ?_⟩
  rw [← hresult s]
  exact .of_eq _

theorem Parses.throw {error : ε} (herror : expected error) :
    Parses pos expected (fun _ _ _ => MonadExcept.throw error) before rest format :=
  fun _ _ => Or.inl ⟨error, herror, .of_eq _⟩

end Parses

/-! ## Stopping -/

/-- At the start of `rest`, the parser stops with this error. -/
def Stops (run : Parser ε τ σ α) (before rest : List τ) (error : ε) : Prop :=
  ∀ s, pos s = before.length → Settles (fun fuel => run fuel (before ++ rest) s) (throw error)

section Stops

variable {pos} {limit : ℕ} {before xs ys rest : List τ} {a : α} {error : ε}

theorem Stops.andThen (h : Stops pos run before rest error) :
    Stops pos (andThen run next) before rest error :=
  fun s hs => (h s hs).bind_throw

/-- The first parser accepts, and the next one stops. -/
theorem Accepts.andThen_stops (h : Accepts pos limit run xs a)
    (hsize : (before ++ (xs ++ ys)).length < limit)
    (hnext : Stops pos (next a) (before ++ xs) ys error) :
    Stops pos (Parsing.andThen run next) before (xs ++ ys) error := by
  intro s hs
  obtain ⟨s₁, hs₁, hrun⟩ := h before ys s hs hsize
  have hstops := hnext s₁ hs₁
  rw [List.append_assoc] at hstops
  exact hrun.bind hstops

end Stops

end Parsers

end Parsing
