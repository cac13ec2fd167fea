import ZkevmProver.HashDB64.BatchOrder

/-!
# What is consolidated

Where the batches and their order are in step, `consolidateState` looks for the first batch that ends
at the root, writes the batches that lead to it in the order of their creation, and forgets all
batches up to it.

1. Chains of batches
2. The loops of `consolidateState`, in step
3. `consolidateState`, in step
4. Runs
-/

namespace ZkevmProver

open Transitions

/-! ## Chains of batches -/

section

variable {α : Type} {oldRoot newRoot oldRoot' newRoot' : α → Option Fea}

end

namespace StateManager64

section

variable (s : StateManager64)

end

variable {s s' : StateManager64} {batchUUID : BatchUUID} {b : BatchState64} {root : Option Fea}
  {before rest : List BatchUUID}

section

variable {σ : Type} {db : Database64 σ} {p : Persistence} {newRoot : Fea} {w : σ}

end

/-! ## `consolidateState`, in step -/

end StateManager64

section

variable {σ : Type} {db : Database64 σ} {p : Persistence} {newRoot : Fea} {w w' : σ}
  {e : ConsolidateError}

end

namespace StateManager64

section

variable {σ : Type} (db : Database64 σ) (purge : Bool) (garbage target : Fea) (p : Persistence)
  (s : StateManager64) (w : σ)

end

section

variable {σ : Type} {db : Database64 σ} {purge : Bool} {garbage target : Fea} {p : Persistence}
  {w w' : σ}

end

end StateManager64

/-! ## Runs -/

/-- A state manager with its database, and with the number of the call that created each batch. -/
structure SM64Session (σ : Type) where
  s : StateManager64
  w : σ
  calls : ℕ
  born : BatchUUID → ℕ

namespace SM64Session

open StateManager64

variable {σ : Type} (db : Database64 σ) (purge : Bool)

/-- A new state manager. -/
def start (w : σ) : SM64Session σ := ⟨{}, w, 0, fun _ => 0⟩

def step (t : SM64Session σ) (op : SM64Op) : Option (SM64Session σ) :=
  (StateManager64.step db purge (t.s, t.w) op).map fun r =>
    { s := r.1, w := r.2, calls := t.calls + 1
      born := fun x => if x ∉ t.s.state ∧ x ∈ r.1.state then t.calls else t.born x }

variable {db purge} {t t' : SM64Session σ} {op : SM64Op} {ops : List SM64Op} {w : σ}

end SM64Session

end ZkevmProver
