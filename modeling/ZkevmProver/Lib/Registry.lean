import Mathlib.Data.Finset.Card
import Mathlib.Data.Finset.Insert
import Mathlib.Data.Finset.Dedup
import Mathlib.Tactic.Common

/-!
# A register with an order

A register keeps a set of live names and, in a second container, the order in which they were
created.  The two are in step when the order lists exactly the live names, each once.  A name that is
forgotten by the set alone leaves a slack that no later operation takes back.

1. The operations
2. `InStep` and `slack`
3. Erasing several names: `Shrinks`
4. Names by age: `Aged`
-/

/-! ## The operations -/

structure Registry (α : Type*) where
  order : List α
  live : Finset α

namespace Registry

variable {α : Type*} [DecidableEq α] {r r' r'' : Registry α} {a : α} {i : ℕ}

/-- A new name, which comes last. -/
def create (r : Registry α) (a : α) : Registry α := ⟨r.order ++ [a], insert a r.live⟩

/-- Takes a name, and position `i`, out of the two containers. -/
def eraseAt (r : Registry α) (i : ℕ) (a : α) : Registry α := ⟨r.order.eraseIdx i, r.live.erase a⟩

structure InStep (r : Registry α) : Prop where
  nodup : r.order.Nodup
  mem_iff : ∀ a, a ∈ r.order ↔ a ∈ r.live

theorem InStep.create (h : r.InStep) (ha : a ∉ r.live) : (r.create a).InStep where
  nodup := by
    have hnot : a ∉ r.order := fun hmem => ha ((h.mem_iff a).mp hmem)
    exact List.nodup_append.mpr ⟨h.nodup, List.nodup_singleton a, by
      rintro b hb c hc rfl
      exact hnot (List.mem_singleton.mp hc ▸ hb)⟩
  mem_iff b := by
    simp [Registry.create, h.mem_iff, or_comm]

theorem InStep.eraseAt (h : r.InStep) (hi : r.order[i]? = some a) : (r.eraseAt i a).InStep := by
  obtain ⟨hlt, hget⟩ := List.getElem?_eq_some_iff.mp hi
  have herase : r.order.eraseIdx i = r.order.erase a := by
    rw [← hget]
    exact (h.nodup.erase_getElem i hlt).symm
  constructor
  case nodup => exact h.nodup.eraseIdx i
  case mem_iff =>
    intro b
    show b ∈ r.order.eraseIdx i ↔ b ∈ r.live.erase a
    rw [herase, h.nodup.mem_erase_iff, Finset.mem_erase, h.mem_iff]

/-- Live names were erased from both containers, one after the other. -/
inductive Shrinks (r : Registry α) : Registry α → Prop
  | refl : Shrinks r r
  | eraseAt {r' : Registry α} {i : ℕ} {a : α} (h : Shrinks r r') (hi : r'.order[i]? = some a)
      (ha : a ∈ r'.live) : Shrinks r (r'.eraseAt i a)

theorem Shrinks.trans (h : r.Shrinks r') (h' : r'.Shrinks r'') : r.Shrinks r'' := by
  induction h' with
  | refl => exact h
  | eraseAt _ hi ha ih => exact ih.eraseAt hi ha

theorem Shrinks.sublist (h : r.Shrinks r') : r'.order.Sublist r.order := by
  induction h with
  | refl => exact .refl _
  | eraseAt _ _ _ ih => exact (List.eraseIdx_sublist ..).trans ih

theorem Shrinks.subset (h : r.Shrinks r') : r'.live ⊆ r.live := by
  induction h with
  | refl => exact Finset.Subset.refl _
  | eraseAt _ _ _ ih => exact (Finset.erase_subset ..).trans ih

/-! ## Names by age -/

/-- Where `born` numbers the events in which names were created, all of them before event `n`, the
order goes by age. -/
structure Aged (r : Registry α) (born : α → ℕ) (n : ℕ) : Prop where
  sorted : r.order.Pairwise fun a b => born a < born b
  lt : ∀ a ∈ r.order, born a < n

theorem Aged.create {born : α → ℕ} {n : ℕ} (h : r.Aged born n) (ha : a ∉ r.order) :
    (r.create a).Aged (Function.update born a n) (n + 1) where
  sorted := by
    have hne {b : α} (hb : b ∈ r.order) : Function.update born a n b = born b :=
      Function.update_of_ne (show b ≠ a by rintro rfl; exact ha hb) ..
    refine List.pairwise_append.mpr ⟨?_, List.pairwise_singleton .., fun b hb c hc => ?_⟩
    · refine h.sorted.imp_of_mem fun hb hc hlt => ?_
      rwa [hne hb, hne hc]
    · rw [List.mem_singleton.mp hc, hne hb, Function.update_self]
      exact h.lt b hb
  lt b hb := by
    by_cases hba : b = a
    · rw [hba, Function.update_self]
      exact Nat.lt_succ_self n
    · rw [Function.update_of_ne hba]
      have hmem : b ∈ r.order := by simpa [Registry.create, hba] using hb
      exact (h.lt b hmem).trans (Nat.lt_succ_self n)

end Registry
