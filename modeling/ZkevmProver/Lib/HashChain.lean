import Mathlib.Data.List.Basic
import Mathlib.Tactic.Common

/-!
# Chains of entries

Every entry says which one is next, and zero ends a chain, so that entry zero can only be the first of one.

  1. Chains.
  2. Walks along a chain.
-/

namespace HashChain

/-! ## Chains -/

/-- Each entry leads to the next one. -/
def Linked (next : ℕ → ℕ) : List ℕ → Prop
  | [] => True
  | [e] => next e = 0
  | e :: e' :: es => next e = e' ∧ Linked next (e' :: es)

variable {next next' : ℕ → ℕ}

theorem Linked.congr {es : List ℕ} (h : Linked next es) (hnext : ∀ e ∈ es, next' e = next e) :
    Linked next' es := by
  match es with
  | [] => trivial
  | [e] => exact (hnext e List.mem_cons_self).trans h
  | e :: e' :: es =>
    exact ⟨(hnext e List.mem_cons_self).trans h.1,
      h.2.congr fun x hx => hnext x (List.mem_cons_of_mem e hx)⟩

/-- The last entry of a chain is made to lead to a new one. -/
theorem Linked.concat {es : List ℕ} (hne : es ≠ []) (h : Linked next es) (hnodup : es.Nodup) {e : ℕ}
    (he : next' e = 0) (hlast : next' (es.getLast hne) = e)
    (hnext : ∀ x ∈ es, x ≠ es.getLast hne → next' x = next x) : Linked next' (es ++ [e]) := by
  induction es with
  | nil => exact absurd rfl hne
  | cons x es ih =>
    cases es with
    | nil => exact ⟨hlast, he⟩
    | cons y es =>
      obtain ⟨hx, hnodup⟩ := List.nodup_cons.mp hnodup
      have hmem : (y :: es).getLast (List.cons_ne_nil y es) ∈ y :: es := List.getLast_mem _
      refine ⟨(hnext x List.mem_cons_self fun heq => hx ?_).trans h.1,
        ih (List.cons_ne_nil y es) h.2 hnodup hlast fun z hz hzne => hnext z (List.mem_cons_of_mem x hz) hzne⟩
      rw [heq]
      exact hmem

/-! ## Walks along a chain -/

/-- From entry `e` on, either an entry that is looked for, or the last one of the chain. -/
def walk (found : ℕ → Bool) (next : ℕ → ℕ) : (fuel : ℕ) → ℕ → Option (Bool × ℕ)
  | 0, _ => none
  | fuel + 1, e =>
    if found e then some (true, e)
    else if next e ≠ 0 then walk found next fuel (next e)
    else some (false, e)

theorem walk_found {found : ℕ → Bool} {fuel e x : ℕ} {es : List ℕ} (h : Linked next (e :: es))
    (hpos : ∀ y ∈ es, y ≠ 0) (hfuel : es.length < fuel) (hx : x ∈ e :: es)
    (hfound : ∀ y ∈ e :: es, found y = true ↔ y = x) : walk found next fuel e = some (true, x) := by
  induction es generalizing e fuel with
  | nil =>
    obtain ⟨fuel, rfl⟩ := Nat.exists_eq_add_of_lt hfuel
    have hex : x = e := List.mem_singleton.mp hx
    rw [List.length_nil, Nat.zero_add, walk, if_pos ((hfound e List.mem_cons_self).mpr hex.symm), hex]
  | cons e' es ih =>
    obtain ⟨fuel, rfl⟩ : ∃ n, fuel = n + 1 := ⟨fuel - 1, by omega⟩
    unfold walk
    by_cases hex : e = x
    · rw [if_pos ((hfound e List.mem_cons_self).mpr hex), hex]
    · have hnext : next e = e' := h.1
      rw [if_neg fun h' => hex ((hfound e List.mem_cons_self).mp h'), hnext,
        if_pos (hpos e' List.mem_cons_self)]
      refine ih h.2 (fun y hy => hpos y (List.mem_cons_of_mem e' hy)) (Nat.lt_of_succ_lt_succ hfuel) ?_
        fun y hy => hfound y (List.mem_cons_of_mem e hy)
      exact (List.mem_cons.mp hx).resolve_left fun h' => hex h'.symm

theorem walk_not_found {found : ℕ → Bool} {fuel e : ℕ} {es : List ℕ} (h : Linked next (e :: es))
    (hpos : ∀ y ∈ es, y ≠ 0) (hfuel : es.length < fuel) (hfound : ∀ y ∈ e :: es, found y = false) :
    walk found next fuel e = some (false, (e :: es).getLast (List.cons_ne_nil e es)) := by
  induction es generalizing e fuel with
  | nil =>
    obtain ⟨fuel, rfl⟩ : ∃ n, fuel = n + 1 := ⟨fuel - 1, by omega⟩
    have hnext : next e = 0 := h
    rw [walk, hfound e List.mem_cons_self, hnext]
    rfl
  | cons e' es ih =>
    obtain ⟨fuel, rfl⟩ : ∃ n, fuel = n + 1 := ⟨fuel - 1, by omega⟩
    have hnext : next e = e' := h.1
    rw [walk, hfound e List.mem_cons_self, hnext, if_neg Bool.false_ne_true,
      if_pos (hpos e' List.mem_cons_self), ih h.2 (fun y hy => hpos y (List.mem_cons_of_mem e' hy))
        (Nat.lt_of_succ_lt_succ hfuel) fun y hy => hfound y (List.mem_cons_of_mem e hy)]
    rfl

end HashChain
