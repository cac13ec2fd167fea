import Mathlib.Data.List.Forall2
import Mathlib.Data.List.Induction
import Mathlib.Data.Set.Basic
import Mathlib.Logic.Function.Basic
import Mathlib.Tactic.Common

/-!
# Loops that fill tables

Counting loops, and tables of rows that such loops write one after the other.

  1. Loops.
  2. Loops that can fail.
  3. Tables.
  4. Places that a loop writes.
-/

namespace Loops

/-! ## Loops -/

section Loops

variable {σ : Type*}

/-- `for (i = 0; i < n; i++) s = f i s` -/
def forUpTo (n : ℕ) (f : ℕ → σ → σ) (s : σ) : σ :=
  match n with
  | 0 => s
  | n + 1 => f n (forUpTo n f s)

@[simp] theorem forUpTo_zero (f : ℕ → σ → σ) (s : σ) : forUpTo 0 f s = s := rfl

theorem forUpTo_succ (n : ℕ) (f : ℕ → σ → σ) (s : σ) :
    forUpTo (n + 1) f s = f n (forUpTo n f s) := rfl

/-- The rule of a loop: an invariant that every round takes one further. -/
theorem forUpTo_inv {n : ℕ} {f : ℕ → σ → σ} {s : σ} {J : ℕ → σ → Prop} (h0 : J 0 s)
    (hf : ∀ i < n, ∀ s, J i s → J (i + 1) (f i s)) : J n (forUpTo n f s) := by
  induction n with
  | zero => exact h0
  | succ n ih => exact hf n (Nat.lt_succ_self n) _ (ih fun i hi => hf i (Nat.lt_succ_of_lt hi))

end Loops

/-! ## Loops that can fail -/

theorem mapM_eq_some {α β : Type*} {f : α → Option β} {xs : List α} {ys : List β} :
    xs.mapM f = some ys ↔ List.Forall₂ (fun x y => f x = some y) xs ys := by
  induction xs generalizing ys with
  | nil => simp [eq_comm]
  | cons x xs ih =>
    simp only [List.mapM_cons, Option.bind_eq_bind, Option.bind_eq_some_iff, Option.pure_def,
      Option.some_inj, List.forall₂_cons_left_iff, ih]
    constructor
    · rintro ⟨y, hy, ys, hys, rfl⟩
      exact ⟨y, ys, hy, hys, rfl⟩
    · rintro ⟨y, ys, hy, hys, rfl⟩
      exact ⟨y, hy, ys, hys, rfl⟩

/-- The rule of a loop over a list with its indices. -/
theorem foldl_zipIdx_inv {α σ : Type*} {f : σ → α × ℕ → σ} {s : σ} {J : List α → σ → Prop} (h0 : J [] s)
    {l : List α} (hf : ∀ pre x, pre ++ [x] <+: l → ∀ s, J pre s → J (pre ++ [x]) (f s (x, pre.length))) :
    J l (l.zipIdx.foldl f s) := by
  suffices h : ∀ pre, pre <+: l → J pre (pre.zipIdx.foldl f s) from h l (List.prefix_refl l)
  intro pre
  induction pre using List.reverseRecOn with
  | nil => exact fun _ => h0
  | append_singleton pre x ih =>
    intro hpre
    rw [List.zipIdx_append, List.foldl_append, Nat.zero_add]
    exact hf pre x hpre _ (ih ((List.prefix_append pre [x]).trans hpre))

section Failing

variable {σ ι : Type} {s : σ}

/-- The rule of a counting loop that can fail: no round of it does. -/
theorem foldlM_range_inv {n : ℕ} {f : σ → ℕ → Option σ} {J : ℕ → σ → Prop} (h0 : J 0 s)
    (hf : ∀ i < n, ∀ s, J i s → ∃ s', f s i = some s' ∧ J (i + 1) s') :
    ∃ s', (List.range n).foldlM f s = some s' ∧ J n s' := by
  induction n with
  | zero => exact ⟨s, rfl, h0⟩
  | succ n ih =>
    obtain ⟨s', hs', hJ⟩ := ih fun i hi => hf i (Nat.lt_succ_of_lt hi)
    obtain ⟨s'', hs'', hJ'⟩ := hf n (Nat.lt_succ_self n) s' hJ
    refine ⟨s'', ?_, hJ'⟩
    rw [List.range_succ, List.foldlM_append, hs']
    simp only [Option.bind_eq_bind, Option.bind_some, List.foldlM_cons, List.foldlM_nil, hs'',
      Option.pure_def]

theorem foldlM_range_of_some {n : ℕ} {f : σ → ℕ → Option σ} {J : ℕ → σ → Prop} {s' : σ}
    (h : (List.range n).foldlM f s = some s') (h0 : J 0 s)
    (hf : ∀ i < n, ∀ s s', J i s → f s i = some s' → J (i + 1) s') : J n s' := by
  induction n generalizing s' with
  | zero => exact Option.some_inj.mp h ▸ h0
  | succ n ih =>
    rw [List.range_succ, List.foldlM_append] at h
    obtain ⟨before, hbefore, h⟩ := Option.bind_eq_some_iff.mp h
    have hlast : f before n = some s' := by simpa using h
    exact hf n (Nat.lt_succ_self n) before s' (ih hbefore fun i hi => hf i (Nat.lt_succ_of_lt hi)) hlast

theorem foldlM_zipIdx_inv {α : Type*} {f : σ → α × ℕ → Option σ} {J : List α → σ → Prop} (h0 : J [] s)
    {l : List α} (hf : ∀ pre x, pre ++ [x] <+: l → ∀ s, J pre s →
      ∃ s', f s (x, pre.length) = some s' ∧ J (pre ++ [x]) s') :
    ∃ s', l.zipIdx.foldlM f s = some s' ∧ J l s' := by
  suffices h : ∀ pre, pre <+: l → ∃ s', pre.zipIdx.foldlM f s = some s' ∧ J pre s' from
    h l (List.prefix_refl l)
  intro pre
  induction pre using List.reverseRecOn with
  | nil => exact fun _ => ⟨s, rfl, h0⟩
  | append_singleton pre x ih =>
    intro hpre
    obtain ⟨s', hs', hJ⟩ := ih ((List.prefix_append pre [x]).trans hpre)
    obtain ⟨s'', hs'', hJ'⟩ := hf pre x hpre s' hJ
    refine ⟨s'', ?_, hJ'⟩
    rw [List.zipIdx_append, List.foldlM_append, hs', Nat.zero_add]
    simp only [Option.bind_eq_bind, Option.bind_some, List.zipIdx_cons, List.zipIdx_nil, List.foldlM_cons,
      List.foldlM_nil, hs'', Option.pure_def]

/-- One round that fails in every state is enough. -/
theorem foldlM_eq_none {l : List ι} {f : σ → ι → Option σ} {i : ι} (hi : i ∈ l) (hf : ∀ s, f s i = none) :
    l.foldlM f s = none := by
  induction l generalizing s with
  | nil => exact absurd hi List.not_mem_nil
  | cons j l ih =>
    rw [List.foldlM_cons]
    rcases List.mem_cons.mp hi with rfl | hi
    · rw [hf]
      rfl
    · cases hj : f s j with
      | none => rfl
      | some s' => exact ih hi

end Failing

/-! ## Tables -/

section Tables

variable {ρ : Type*} (t : ℕ → ρ)

/-- Changes the rows `lo`, …, `lo + n - 1`. -/
def setRows (lo n : ℕ) (f : ρ → ρ) : ℕ → ρ := fun q => if lo ≤ q ∧ q < lo + n then f (t q) else t q

variable {t} {lo n q : ℕ} {f : ρ → ρ}

theorem setRows_in (h : lo ≤ q ∧ q < lo + n) : setRows t lo n f q = f (t q) := if_pos h

theorem setRows_out (h : ¬(lo ≤ q ∧ q < lo + n)) : setRows t lo n f q = t q := if_neg h

/-- From row `base` on, `n` rows are written, the next one in part, and no row after it.  The rows
before are those of `t₀`. -/
structure Filled [Inhabited ρ] (t₀ : ℕ → ρ) (base n : ℕ) (rows : ℕ → ρ) (next : ρ)
    (t : ℕ → ρ) : Prop where
  before : ∀ q < base, t q = t₀ q
  rows : ∀ i < n, t (base + i) = rows i
  next : t (base + n) = next
  fresh : ∀ q, base + n < q → t q = default

section Filled

variable [Inhabited ρ] {t₀ : ℕ → ρ} {base : ℕ} {rows : ℕ → ρ} {next : ρ}

theorem Filled.start (h : ∀ q, base ≤ q → t q = default) : Filled t base 0 rows default t :=
  ⟨fun _ _ => rfl, fun i hi => absurd hi (Nat.not_lt_zero i), h base (Nat.le_refl base),
    fun q hq => h q (Nat.le_of_lt hq)⟩

/-- The next row is completed, and the one after it is begun. -/
theorem Filled.step (h : Filled t₀ base n rows next t) (next' : ρ) :
    Filled t₀ base (n + 1) rows next'
      (Function.update (Function.update t (base + n) (rows n)) (base + n + 1) next') where
  before q hq := by
    rw [Function.update_of_ne (by omega), Function.update_of_ne (by omega), h.before q hq]
  rows i hi := by
    rw [Function.update_of_ne (by omega)]
    rcases Nat.lt_succ_iff_lt_or_eq.mp hi with hi | rfl
    · rw [Function.update_of_ne (by omega), h.rows i hi]
    · exact Function.update_self ..
  next := Function.update_self ..
  fresh q hq := by
    rw [Function.update_of_ne (by omega), Function.update_of_ne (by omega), h.fresh q (by omega)]

/-- The next row is completed. -/
theorem Filled.write (h : Filled t₀ base n rows next t) :
    Filled t₀ base (n + 1) rows default (Function.update t (base + n) (rows n)) := by
  have hstep := h.step default
  have hfresh : Function.update t (base + n) (rows n) (base + n + 1) = default := by
    rw [Function.update_of_ne (by omega), h.fresh _ (by omega)]
  rwa [← hfresh, Function.update_eq_self, hfresh] at hstep

end Filled

end Tables

/-! ## Places that a loop writes -/

section Written

variable {α β : Type*} {S S' : Set α} {g t t' t'' : α → β}

/-- The places of `S` have been set to what `g` has there, and no other place has changed. -/
structure Written (S : Set α) (g t t' : α → β) : Prop where
  inside : ∀ a ∈ S, t' a = g a
  outside : ∀ a ∉ S, t' a = t a

theorem Written.nothing (h : ∀ a, a ∉ S) : Written S g t t :=
  ⟨fun a ha => absurd ha (h a), fun _ _ => rfl⟩

theorem Written.trans (h : Written S g t t') (h' : Written S' g t' t'') : Written (S ∪ S') g t t'' where
  inside a ha := by
    by_cases hS' : a ∈ S'
    · exact h'.inside a hS'
    · rw [h'.outside a hS']
      exact h.inside a (ha.resolve_right hS')
  outside a ha := by
    rw [h'.outside a fun h => ha (.inr h), h.outside a fun h => ha (.inl h)]

/-- What is written determines the table. -/
theorem Written.unique (h : Written S g t t') (h' : Written S g t t'') : t' = t'' := by
  funext a
  by_cases ha : a ∈ S
  · rw [h.inside a ha, h'.inside a ha]
  · rw [h.outside a ha, h'.outside a ha]

/-- A loop whose rounds write different parts of one table `g`. -/
theorem Written.forUpTo {n : ℕ} {f : ℕ → (α → β) → α → β} {S : ℕ → Set α}
    (hf : ∀ i < n, ∀ t, Written (S i) g t (f i t)) :
    Written {a | ∃ i < n, a ∈ S i} g t (forUpTo n f t) := by
  refine forUpTo_inv (J := fun n t' => Written {a | ∃ i < n, a ∈ S i} g t t') (.nothing ?_) ?_
  · rintro a ⟨i, hi, -⟩
    exact absurd hi (Nat.not_lt_zero i)
  · intro i hi t' ih
    have h := ih.trans (hf i hi t')
    have hset : {a | ∃ j < i, a ∈ S j} ∪ S i = {a | ∃ j < i + 1, a ∈ S j} := by
      ext a
      constructor
      · rintro (⟨j, hj, ha⟩ | ha)
        · exact ⟨j, Nat.lt_succ_of_lt hj, ha⟩
        · exact ⟨i, Nat.lt_succ_self i, ha⟩
      · rintro ⟨j, hj, ha⟩
        rcases Nat.lt_succ_iff_lt_or_eq.mp hj with hj | rfl
        · exact .inl ⟨j, hj, ha⟩
        · exact .inr ha
    rwa [hset] at h

/-- The same for rounds in any order. -/
theorem Written.foldl {ι : Type*} {l : List ι} {f : (α → β) → ι → α → β} {S : ι → Set α}
    (hf : ∀ i ∈ l, ∀ t, Written (S i) g t (f t i)) :
    Written {a | ∃ i ∈ l, a ∈ S i} g t (l.foldl f t) := by
  induction l generalizing t with
  | nil => exact .nothing fun a ⟨i, hi, _⟩ => absurd hi List.not_mem_nil
  | cons i l ih =>
    have h := (hf i List.mem_cons_self t).trans
      (ih (t := f t i) fun j hj => hf j (List.mem_cons_of_mem i hj))
    have hset : S i ∪ {a | ∃ j ∈ l, a ∈ S j} = {a | ∃ j ∈ i :: l, a ∈ S j} := by
      ext a
      simp only [Set.mem_union, Set.mem_ofPred_eq, List.exists_mem_cons_iff]
    rwa [hset] at h

end Written

end Loops
