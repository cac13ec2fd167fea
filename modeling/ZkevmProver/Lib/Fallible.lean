import Mathlib.Tactic.Common

/-!
# Computations that fail or get stuck

A computation returns a value, throws an error, or has no outcome at all.

1. Outcomes
2. Enough fuel
-/

namespace Fallible

variable {ε α β : Type}

/-! ## Outcomes -/

theorem cases (x : ExceptT ε Option α) :
    x = ExceptT.mk none ∨ (∃ error, x = throw error) ∨ ∃ a, x = pure a := by
  match x with
  | none => exact Or.inl rfl
  | some (.error error) => exact Or.inr (Or.inl ⟨error, rfl⟩)
  | some (.ok a) => exact Or.inr (Or.inr ⟨a, rfl⟩)

theorem throw_ne_pure {error : ε} (a : α) : (throw error : ExceptT ε Option α) ≠ pure a := nofun

theorem throw_bind (error : ε) (f : α → ExceptT ε Option β) :
    (throw error : ExceptT ε Option α) >>= f = throw error := rfl

theorem pure_injective {a b : α} (h : (pure a : ExceptT ε Option α) = pure b) : a = b := by
  injection h with h
  injection h

/-- A sequence that returns does so from what its first part returns. -/
theorem bind_eq_pure {x : ExceptT ε Option α} {f : α → ExceptT ε Option β} {b : β}
    (h : x >>= f = pure b) : ∃ a, x = pure a ∧ f a = pure b := by
  obtain rfl | ⟨error, rfl⟩ | ⟨a, rfl⟩ := cases x
  · cases h
  · cases h
  · exact ⟨a, rfl, h⟩

/-! ## Enough fuel -/

/-- A computation that takes fuel ends so, whatever more fuel it is given. -/
def Settles (run : ℕ → ExceptT ε Option α) (outcome : ExceptT ε Option α) : Prop :=
  ∃ enough, ∀ fuel ≥ enough, run fuel = outcome

section Settles

variable {run : ℕ → ExceptT ε Option α} {next : ℕ → α → ExceptT ε Option β}

theorem Settles.of_eq (outcome : ExceptT ε Option α) : Settles (fun _ => outcome) outcome :=
  ⟨0, fun _ _ => rfl⟩

theorem Settles.unique {outcome outcome' : ExceptT ε Option α} (h : Settles run outcome)
    (h' : Settles run outcome') : outcome = outcome' := by
  obtain ⟨enough, henough⟩ := h
  obtain ⟨enough', henough'⟩ := h'
  rw [← henough _ (Nat.le_max_left enough enough'), henough' _ (Nat.le_max_right enough enough')]

theorem Settles.bind {a : α} {outcome : ExceptT ε Option β} (h : Settles run (pure a))
    (hnext : Settles (fun fuel => next fuel a) outcome) :
    Settles (fun fuel => run fuel >>= next fuel) outcome := by
  obtain ⟨enough, henough⟩ := h
  obtain ⟨enough', henough'⟩ := hnext
  refine ⟨max enough enough', fun fuel hfuel => ?_⟩
  calc run fuel >>= next fuel = next fuel a := by
        rw [henough fuel (Nat.le_trans (Nat.le_max_left _ _) hfuel), pure_bind]
    _ = outcome := henough' fuel (Nat.le_trans (Nat.le_max_right _ _) hfuel)

theorem Settles.bind_throw {error : ε} (h : Settles run (throw error)) :
    Settles (fun fuel => run fuel >>= next fuel) (throw error) := by
  obtain ⟨enough, henough⟩ := h
  refine ⟨enough, fun fuel hfuel => ?_⟩
  dsimp only
  rw [henough fuel hfuel, throw_bind]

end Settles

end Fallible
