import Mathlib.Data.List.Count
import ZkevmProver.Lib.Loops

/-!
# Parallel loops

Threads that take turns: each does its rounds in their order, and whose turn it is next is not known.

  1. Schedules.
  2. Runs.
  3. Loops whose rounds write one place each.
-/

namespace Threads

open Loops

/-! ## Schedules -/

/-- Whose turn it is, until each of `n` threads has done `m` rounds. -/
structure Schedule (n m : ℕ) where
  turns : List ℕ
  lt : ∀ t ∈ turns, t < n
  count : ∀ t < n, turns.count t = m

/-- One thread after the other. -/
def Schedule.sequential (n m : ℕ) : Schedule n m where
  turns := (List.range n).flatMap (List.replicate m)
  lt t ht := by
    obtain ⟨i, hi, ht⟩ := List.mem_flatMap.mp ht
    rw [List.eq_of_mem_replicate ht]
    exact List.mem_range.mp hi
  count t ht := by
    induction n with
    | zero => exact absurd ht (Nat.not_lt_zero t)
    | succ n ih =>
      rw [List.range_succ, List.flatMap_append, List.count_append, List.flatMap_singleton]
      rcases Nat.lt_succ_iff_lt_or_eq.mp ht with hlt | rfl
      · rw [ih hlt, List.count_replicate, if_neg (by simpa using Nat.ne_of_gt hlt), Nat.add_zero]
      · have hnot : t ∉ (List.range t).flatMap (List.replicate m) := by
          intro hmem
          obtain ⟨i, hi, ht⟩ := List.mem_flatMap.mp hmem
          rw [List.eq_of_mem_replicate ht] at hi
          exact Nat.lt_irrefl i (List.mem_range.mp hi)
        rw [List.count_eq_zero_of_not_mem hnot, List.count_replicate_self, Nat.zero_add]

/-! ## Runs -/

variable {σ : Type*} {n m : ℕ}

/-- `done` tells how many rounds each thread has done. -/
def interleave (body : ℕ → ℕ → σ → σ) : List ℕ → (ℕ → ℕ) → σ → σ
  | [], _, s => s
  | t :: turns, done, s =>
    interleave body turns (Function.update done t (done t + 1)) (body t (done t) s)

/-- `for (t = 0; t < n; t++) for (j = 0; j < m; j++) s = body t j s`, with a thread for each `t` -/
def Schedule.run (order : Schedule n m) (body : ℕ → ℕ → σ → σ) (s : σ) : σ :=
  interleave body order.turns (fun _ => 0) s

/-- The rule of threads: an invariant that every round of every thread takes one further. -/
theorem interleave_inv {body : ℕ → ℕ → σ → σ} {J : (ℕ → ℕ) → σ → Prop}
    (hstep : ∀ t < n, ∀ done s, done t < m → J done s →
      J (Function.update done t (done t + 1)) (body t (done t) s))
    {turns : List ℕ} {done : ℕ → ℕ} {s : σ} (hlt : ∀ t ∈ turns, t < n)
    (hcount : ∀ t < n, done t + turns.count t = m) (h : J done s) :
    ∃ done', (∀ t < n, done' t = m) ∧ J done' (interleave body turns done s) := by
  induction turns generalizing done s with
  | nil => exact ⟨done, hcount, h⟩
  | cons t turns ih =>
    have ht := hlt t List.mem_cons_self
    have hm := hcount t ht
    rw [List.count_cons_self] at hm
    apply ih (fun t' ht' => hlt t' (List.mem_cons_of_mem t ht'))
    · intro t' ht'
      have hm' := hcount t' ht'
      by_cases heq : t' = t
      · subst heq
        rw [Function.update_self]
        omega
      · rw [List.count_cons_of_ne (Ne.symm heq)] at hm'
        rw [Function.update_of_ne heq, hm']
    · exact hstep t ht done s (by omega) h

theorem Schedule.run_inv (order : Schedule n m) (body : ℕ → ℕ → σ → σ) {J : (ℕ → ℕ) → σ → Prop} {s : σ}
    (h0 : J (fun _ => 0) s) (hstep : ∀ t < n, ∀ done s, done t < m → J done s →
      J (Function.update done t (done t + 1)) (body t (done t) s)) :
    ∃ done, (∀ t < n, done t = m) ∧ J done (order.run body s) :=
  interleave_inv hstep order.lt (fun t ht => (Nat.zero_add _).trans (order.count t ht)) h0

theorem Schedule.run_zero (order : Schedule n 0) (body : ℕ → ℕ → σ → σ) (s : σ) : order.run body s = s := by
  obtain ⟨_, -, h⟩ := order.run_inv body (J := fun _ s' => s' = s) rfl
    fun t _ done _ hlt => absurd hlt (Nat.not_lt_zero (done t))
  exact h

/-! ## Places -/

variable {α β : Type*} [DecidableEq α]

/-- Round `j` of thread `t` writes the place `cell t j`.  What it writes may depend on the places that no
round writes, on those that its thread has written, and on the one that it writes itself. -/
theorem Schedule.written (order : Schedule n m) (cell : ℕ → ℕ → α) (val : ℕ → ℕ → (α → β) → β)
    (g s₀ : α → β)
    (hinj : ∀ t < n, ∀ j < m, ∀ t' < n, ∀ j' < m, cell t j = cell t' j' → t = t' ∧ j = j')
    (hval : ∀ t < n, ∀ j < m, ∀ s : α → β,
      (∀ a, (∀ t' < n, ∀ j' < m, cell t' j' ≠ a) → s a = s₀ a) →
      (∀ i < j, s (cell t i) = g (cell t i)) → s (cell t j) = s₀ (cell t j) →
      val t j s = g (cell t j)) :
    Written {a | ∃ t < n, ∃ j < m, cell t j = a} g s₀
      (order.run (fun t j s => Function.update s (cell t j) (val t j s)) s₀) := by
  let J : (ℕ → ℕ) → (α → β) → Prop := fun done s =>
    (∀ t < n, ∀ j < m, s (cell t j) = if j < done t then g (cell t j) else s₀ (cell t j)) ∧
    ∀ a, (∀ t' < n, ∀ j' < m, cell t' j' ≠ a) → s a = s₀ a
  have h0 : J (fun _ => 0) s₀ := ⟨fun t _ j _ => (if_neg (Nat.not_lt_zero j)).symm, fun _ _ => rfl⟩
  have hstep : ∀ t < n, ∀ done s, done t < m → J done s → J (Function.update done t (done t + 1))
      (Function.update s (cell t (done t)) (val t (done t) s)) := by
    rintro t ht done s hlt ⟨hcells, hrest⟩
    refine ⟨fun t' ht' j' hj' => ?_, fun a ha => ?_⟩
    · by_cases heq : cell t' j' = cell t (done t)
      · obtain ⟨rfl, rfl⟩ := hinj t' ht' j' hj' t ht (done t) hlt heq
        rw [Function.update_self, Function.update_self, if_pos (Nat.lt_succ_self _)]
        apply hval t' ht (done t') hlt s hrest
        · intro i hi
          rw [hcells t' ht i (Nat.lt_trans hi hlt), if_pos hi]
        · rw [hcells t' ht (done t') hlt, if_neg (Nat.lt_irrefl _)]
      · rw [Function.update_of_ne heq, hcells t' ht' j' hj']
        by_cases htt : t' = t
        · subst htt
          have hne : j' ≠ done t' := fun hj => heq (by rw [hj])
          have hiff : j' < done t' + 1 ↔ j' < done t' := by omega
          simp only [Function.update_self, hiff]
        · rw [Function.update_of_ne htt]
    · rw [Function.update_of_ne (Ne.symm (ha t ht (done t) hlt)), hrest a ha]
  obtain ⟨done, hdone, hcells, hrest⟩ :=
    order.run_inv (fun t j s => Function.update s (cell t j) (val t j s)) h0 hstep
  refine ⟨?_, fun a ha => hrest a fun t ht j hj heq => ha ⟨t, ht, j, hj, heq⟩⟩
  rintro a ⟨t, ht, j, hj, rfl⟩
  rw [hcells t ht j hj, hdone t ht, if_pos hj]

end Threads
