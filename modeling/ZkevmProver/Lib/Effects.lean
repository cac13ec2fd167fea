import Mathlib.Order.Defs.PartialOrder
import Mathlib.Tactic.Common

/-!
# Programs over a store

A program makes requests to a store and may stop with an error.  A handler answers each request,
reading and changing its state; running a program under a handler threads that state.

  1. Programs, their monad, and runs under a handler.
  2. Successful runs (`Runs`) and how they compose.
  3. What no answer lowers, no run lowers.
  4. Programs whose requests return nothing (`plan`), and stores that record them.
  5. Stores that answer alike (`Agree`).
-/

namespace Effects

universe u

/-- A program over requests `Op`, the request `op` being answered by a `Resp op`. -/
inductive Prog (Op : Type) (Resp : Op → Type) (ε : Type) (α : Type u) where
  | pure (a : α)
  | fail (e : ε)
  | request (op : Op) (k : Resp op → Prog Op Resp ε α)

namespace Prog

variable {Op : Type} {Resp : Op → Type} {ε : Type} {α β γ : Type u}

protected def bind : Prog Op Resp ε α → (α → Prog Op Resp ε β) → Prog Op Resp ε β
  | .pure a, f => f a
  | .fail e, _ => .fail e
  | .request op k, f => .request op fun r => (k r).bind f

instance : Monad (Prog Op Resp ε) where
  pure := .pure
  bind := .bind

/-- The program that makes one request. -/
def call (op : Op) : Prog Op Resp ε (Resp op) := .request op .pure

end Prog

section Run

variable {Op : Type} {Resp : Op → Type} {ε σ : Type} {α β : Type u}

/-- How a store answers each request, and the state it is in afterwards. -/
abbrev Handler (Op : Type) (Resp : Op → Type) (ε σ : Type) :=
  (op : Op) → σ → Except ε (Resp op) × σ

/-- The run of a program from a state; an error of the store stops it. -/
def run (h : Handler Op Resp ε σ) : Prog Op Resp ε α → σ → Except ε α × σ
  | .pure a, s => (.ok a, s)
  | .fail e, s => (.error e, s)
  | .request op k, s =>
      match h op s with
      | (.ok r, s') => run h (k r) s'
      | (.error e, s') => (.error e, s')

/-- The program runs from `s` to the result `a` and the state `s'`. -/
def Runs (h : Handler Op Resp ε σ) (m : Prog Op Resp ε α) (s : σ) (a : α) (s' : σ) : Prop :=
  run h m s = (.ok a, s')

variable {h : Handler Op Resp ε σ} {s s' s'' : σ}

@[simp] theorem run_pure (a : α) : run h (pure a : Prog Op Resp ε α) s = (.ok a, s) := rfl

@[simp] theorem run_fail (e : ε) : run h (.fail e : Prog Op Resp ε α) s = (.error e, s) := rfl

theorem run_call (op : Op) : run h (Prog.call op) s = h op s := by
  unfold Prog.call run
  rcases h op s with ⟨_ | r, s'⟩ <;> rfl

/-- A sequence runs its second part from where the first one ended. -/
theorem run_bind (m : Prog Op Resp ε α) (f : α → Prog Op Resp ε β) :
    run h (m >>= f) s =
      match run h m s with
      | (.ok a, s') => run h (f a) s'
      | (.error e, s') => (.error e, s') := by
  show run h (m.bind f) s = _
  induction m generalizing s with
  | pure a => rfl
  | fail e => rfl
  | request op k ih =>
    simp only [Prog.bind, run]
    rcases h op s with ⟨_ | r, s'⟩
    · rfl
    · exact ih r

theorem Runs.pure (a : α) : Runs h (pure a : Prog Op Resp ε α) s a s := rfl

theorem runs_call_iff {op : Op} {r : Resp op} :
    Runs h (Prog.call op) s r s' ↔ h op s = (.ok r, s') := by
  rw [Runs, run_call]

theorem Runs.bind {m : Prog Op Resp ε α} {f : α → Prog Op Resp ε β} {a : α} {b : β}
    (hm : Runs h m s a s') (hf : Runs h (f a) s' b s'') : Runs h (m >>= f) s b s'' := by
  rw [Runs, run_bind, hm]
  exact hf

theorem Runs.eq {m : Prog Op Resp ε α} {a b : α} (h₁ : Runs h m s a s') (h₂ : Runs h m s b s'') :
    a = b ∧ s' = s'' := by
  have := h₁.symm.trans h₂
  simpa using this

/-- What every answer keeps is kept by a run, whether it succeeds or not. -/
theorem run_keeps {P : σ → Prop} (hP : ∀ op s, P s → P (h op s).2) (m : Prog Op Resp ε α) {s : σ} (hs : P s) :
    P (run h m s).2 := by
  induction m generalizing s with
  | pure a => exact hs
  | fail e => exact hs
  | request op k ih =>
    have h1 := hP op s hs
    simp only [run]
    rcases hop : h op s with ⟨_ | r, s'⟩
    · rw [hop] at h1
      exact h1
    · rw [hop] at h1
      exact ih r h1

/-- A quantity that no answer lowers is not lower after a run. -/
theorem run_mono {τ : Type*} [Preorder τ] {ρ : σ → τ} (hρ : ∀ op s, ρ s ≤ ρ (h op s).2)
    (m : Prog Op Resp ε α) (s : σ) : ρ s ≤ ρ (run h m s).2 :=
  run_keeps (P := fun s' => ρ s ≤ ρ s') (fun op s' hs' => le_trans hs' (hρ op s')) m le_rfl

end Run

section Plan

variable {Op ε : Type} {α β : Type u}

/-- The requests of a program whose requests return nothing, and how it ends when all of them are
fulfilled. -/
def Prog.plan : Prog Op (fun _ => Unit) ε α → List Op × Except ε α
  | .pure a => ([], .ok a)
  | .fail e => ([], .error e)
  | .request op k => (op :: (k ()).plan.1, (k ()).plan.2)

/-- A store that keeps a list of the requests it fulfils, and refuses one where `fails` says so. -/
def recorder (fails : List Op → Op → Option ε) : Handler Op (fun _ => Unit) ε (List Op) :=
  fun op log =>
    match fails log op with
    | none => (.ok (), log ++ [op])
    | some e => (.error e, log)

@[simp] theorem plan_pure (a : α) : (pure a : Prog Op (fun _ => Unit) ε α).plan = ([], .ok a) := rfl

@[simp] theorem plan_fail (e : ε) : (.fail e : Prog Op (fun _ => Unit) ε α).plan = ([], .error e) := rfl

@[simp] theorem plan_call (op : Op) :
    (Prog.call op : Prog Op (fun _ => Unit) ε Unit).plan = ([op], .ok ()) := rfl

theorem plan_bind (m : Prog Op (fun _ => Unit) ε α) (f : α → Prog Op (fun _ => Unit) ε β) :
    (m >>= f).plan =
      match m.plan.2 with
      | .ok a => (m.plan.1 ++ (f a).plan.1, (f a).plan.2)
      | .error e => (m.plan.1, .error e) := by
  show (m.bind f).plan = _
  induction m with
  | pure a => rfl
  | fail e => rfl
  | request op k ih =>
    simp only [Prog.bind, Prog.plan, ih ()]
    rcases (k ()).plan.2 with e | a
    · rfl
    · rfl

theorem plan_bind_ok {m : Prog Op (fun _ => Unit) ε α} {f : α → Prog Op (fun _ => Unit) ε β} {a : α}
    {ops : List Op} (hm : m.plan = (ops, .ok a)) :
    (m >>= f).plan = (ops ++ (f a).plan.1, (f a).plan.2) := by
  rw [plan_bind, hm]

/-- A run either fulfils the whole plan, or stops at a request that is refused. -/
theorem run_recorder (fails : List Op → Op → Option ε) (m : Prog Op (fun _ => Unit) ε α) (log : List Op) :
    run (recorder fails) m log = (m.plan.2, log ++ m.plan.1) ∨
      ∃ done op rest e, m.plan.1 = done ++ op :: rest ∧ fails (log ++ done) op = some e ∧
        run (recorder fails) m log = (.error e, log ++ done) := by
  induction m generalizing log with
  | pure a => exact .inl (by rw [run, Prog.plan, List.append_nil])
  | fail e => exact .inl (by rw [run, Prog.plan, List.append_nil])
  | request op k ih =>
    simp only [run, recorder, Prog.plan]
    cases hop : fails log op with
    | some e => exact .inr ⟨[], op, _, e, rfl, by rw [List.append_nil, hop], by rw [List.append_nil]⟩
    | none =>
      rcases ih () (log ++ [op]) with h | ⟨done, op', rest, e, hplan, he, h⟩
      · exact .inl (h.trans (by rw [List.append_assoc]; rfl))
      · refine .inr ⟨op :: done, op', rest, e, by rw [hplan]; rfl, ?_, ?_⟩
        · rw [← he, List.append_assoc]
          rfl
        · exact h.trans (by rw [List.append_assoc]; rfl)

/-- A store that refuses nothing fulfils the plan. -/
theorem run_recorder_none (m : Prog Op (fun _ => Unit) ε α) (log : List Op) :
    run (recorder fun _ _ => none) m log = (m.plan.2, log ++ m.plan.1) := by
  rcases run_recorder (fun _ _ => none) m log with h | ⟨done, op, rest, e, _, he, _⟩
  · exact h
  · cases he

/-- A list of requests, one after the other. -/
def Prog.callAll : List Op → Prog Op (fun _ => Unit) ε Unit
  | [] => pure ()
  | op :: ops => do
    Prog.call op
    callAll ops

@[simp] theorem plan_callAll (ops : List Op) :
    (Prog.callAll ops : Prog Op (fun _ => Unit) ε Unit).plan = (ops, .ok ()) := by
  induction ops with
  | nil => rfl
  | cons op ops ih => rw [Prog.callAll, plan_bind_ok (plan_call op), ih, List.singleton_append]

/-- All requests of the program have `C`, and when they are fulfilled it returns a value that has `Q`. -/
def Prog.Ensures (m : Prog Op (fun _ => Unit) ε α) (C : Op → Prop) (Q : α → Prop) : Prop :=
  ∃ ops a, m.plan = (ops, .ok a) ∧ (∀ op ∈ ops, C op) ∧ Q a

variable {C : Op → Prop} {Q : α → Prop} {R : β → Prop}

theorem ensures_pure {a : α} (h : Q a) : (pure a : Prog Op (fun _ => Unit) ε α).Ensures C Q :=
  ⟨[], a, rfl, fun _ hop => absurd hop List.not_mem_nil, h⟩

theorem ensures_callAll {ops : List Op} (h : ∀ op ∈ ops, C op) :
    (Prog.callAll ops : Prog Op (fun _ => Unit) ε Unit).Ensures C fun _ => True :=
  ⟨ops, (), plan_callAll ops, h, trivial⟩

theorem Prog.Ensures.bind {m : Prog Op (fun _ => Unit) ε α} {f : α → Prog Op (fun _ => Unit) ε β}
    (hm : m.Ensures C Q) (hf : ∀ a, Q a → (f a).Ensures C R) : (m >>= f).Ensures C R := by
  obtain ⟨ops, a, hplan, hops, ha⟩ := hm
  obtain ⟨ops', b, hplan', hops', hb⟩ := hf a ha
  refine ⟨ops ++ ops', b, by rw [plan_bind_ok hplan, hplan'], ?_, hb⟩
  intro op hop
  rcases List.mem_append.mp hop with hop | hop
  · exact hops op hop
  · exact hops' op hop

end Plan

section Agree

variable {Op : Type} {Resp : Op → Type} {ε σ τ : Type} {α β γ : Type u}

theorem Prog.pure_bind (a : α) (f : α → Prog Op Resp ε β) : (pure a : Prog Op Resp ε α) >>= f = f a := rfl

theorem Prog.bind_assoc (m : Prog Op Resp ε α) (f : α → Prog Op Resp ε β) (g : β → Prog Op Resp ε γ) :
    m >>= f >>= g = m >>= fun a => f a >>= g := by
  show (m.bind f).bind g = m.bind fun a => (f a).bind g
  induction m with
  | pure a => rfl
  | fail e => rfl
  | request op k ih =>
    simp only [Prog.bind]
    exact congrArg (Prog.request op) (funext ih)

/-- From states in relation, two programs on two stores return the same, and leave states in relation. -/
def Agree (h : Handler Op Resp ε σ) (h' : Handler Op Resp ε τ) (R : σ → τ → Prop)
    (m m' : Prog Op Resp ε α) : Prop :=
  ∀ s t, R s t → (run h m s).1 = (run h' m' t).1 ∧ R (run h m s).2 (run h' m' t).2

variable {h : Handler Op Resp ε σ} {h' : Handler Op Resp ε τ} {R : σ → τ → Prop}

theorem agree_pure (a : α) : Agree h h' R (pure a) (pure a) := fun _ _ hR => ⟨rfl, hR⟩

theorem agree_fail (e : ε) : Agree h h' R (.fail e : Prog Op Resp ε α) (.fail e) := fun _ _ hR => ⟨rfl, hR⟩

theorem agree_call {op : Op} (hop : ∀ s t, R s t → (h op s).1 = (h' op t).1 ∧ R (h op s).2 (h' op t).2) :
    Agree h h' R (Prog.call op) (Prog.call op) := by
  intro s t hR
  rw [run_call, run_call]
  exact hop s t hR

/-- A request that only the first program makes. -/
theorem agree_call_pure {op : Op} {r : Resp op} (hop : ∀ s t, R s t → (h op s).1 = .ok r ∧ R (h op s).2 t) :
    Agree h h' R (Prog.call op) (pure r) := by
  intro s t hR
  rw [run_call]
  exact hop s t hR

theorem Agree.bind {m m' : Prog Op Resp ε α} {f f' : α → Prog Op Resp ε β} (hm : Agree h h' R m m')
    (hf : ∀ a, Agree h h' R (f a) (f' a)) : Agree h h' R (m >>= f) (m' >>= f') := by
  intro s t hR
  obtain ⟨hres, hR'⟩ := hm s t hR
  rw [run_bind, run_bind]
  rcases hs : run h m s with ⟨e | a, s'⟩
  · rw [hs] at hres hR'
    rcases ht : run h' m' t with ⟨e' | a', t'⟩
    · rw [ht] at hres hR'
      exact ⟨by cases hres; rfl, hR'⟩
    · rw [ht] at hres
      cases hres
  · rw [hs] at hres hR'
    rcases ht : run h' m' t with ⟨e' | a', t'⟩
    · rw [ht] at hres
      cases hres
    · rw [ht] at hres hR'
      cases hres
      exact hf a s' t' hR'

/-- A part that only the first program has, under a condition. -/
theorem Agree.ite_skip {c : Prop} [Decidable c] {m : Prog Op Resp ε α} {a : α} {f : α → Prog Op Resp ε β}
    {m' : Prog Op Resp ε β} (hm : Agree h h' R m (pure a)) (hf : ∀ a, Agree h h' R (f a) m') :
    Agree h h' R (if c then m >>= f else f a) m' := by
  split
  · have hbind : Agree h h' R (m >>= f) (pure a >>= fun _ => m') := hm.bind hf
    exact hbind
  · exact hf a

/-- A program that makes only requests of one kind. -/
def Prog.Only (C : Op → Prop) : Prog Op Resp ε α → Prop
  | .pure _ => True
  | .fail _ => True
  | .request op k => C op ∧ ∀ r, (k r).Only C

/-- A program cannot tell two stores apart whose answers are the same, until the second one is in a state
that is bad and stays so, or the first one refuses a request for an excused reason. -/
theorem run_eq_until {C : Op → Prop} (bad : τ → Prop) (excused : ε → Prop)
    (hbad : ∀ op t, bad t → bad (h' op t).2)
    (hstep : ∀ op s t, C op → R s t → bad (h' op t).2 ∨ (∃ e, excused e ∧ (h op s).1 = .error e) ∨
      (h op s).1 = (h' op t).1 ∧ ∀ r, (h op s).1 = .ok r → R (h op s).2 (h' op t).2)
    (m : Prog Op Resp ε α) (hm : m.Only C) {s : σ} {t : τ} (hR : R s t) :
    bad (run h' m t).2 ∨ (∃ e, excused e ∧ (run h m s).1 = .error e) ∨ (run h m s).1 = (run h' m t).1 := by
  induction m generalizing s t with
  | pure a => exact .inr (.inr rfl)
  | fail e => exact .inr (.inr rfl)
  | request op k ih =>
    have hstays : bad (h' op t).2 → bad (run h' (.request op k) t).2 := by
      intro hb
      simp only [run]
      rcases ht : h' op t with ⟨e | r, t'⟩
      · rw [ht] at hb
        exact hb
      · rw [ht] at hb
        exact run_keeps hbad (k r) hb
    rcases hstep op s t hm.1 hR with hb | ⟨e, he, hs⟩ | ⟨heq, hR'⟩
    · exact .inl (hstays hb)
    · refine .inr (.inl ⟨e, he, ?_⟩)
      simp only [run]
      rcases hs' : h op s with ⟨e' | r, s'⟩
      · rw [hs'] at hs
        exact congrArg Except.error (Except.error.inj hs)
      · rw [hs'] at hs
        cases hs
    · simp only [run]
      rcases hs : h op s with ⟨e | r, s'⟩
      · rw [hs] at heq
        rcases ht : h' op t with ⟨e' | r', t'⟩
        · rw [ht] at heq
          cases heq
          exact .inr (.inr rfl)
        · rw [ht] at heq
          cases heq
      · rw [hs] at heq hR'
        rcases ht : h' op t with ⟨e' | r', t'⟩
        · rw [ht] at heq
          cases heq
        · rw [ht] at heq hR'
          cases heq
          exact ih r (hm.2 r) (hR' r rfl)

end Agree

end Effects
