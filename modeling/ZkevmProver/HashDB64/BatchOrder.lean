import ZkevmProver.HashDB64.Consolidate
import ZkevmProver.Lib.Registry
import ZkevmProver.Lib.Transitions

/-!
# The batches and their order

The state and the order of the batches are a register.  Every call of the state manager keeps it in
step but one: `cancelBatch` takes the batch out of the state only.

1. The register of the state manager
2. What one call does to it
-/

namespace ZkevmProver

open Transitions

namespace StateManager64

variable {s s' : StateManager64} {batchUUID : BatchUUID} {b : BatchState64}

/-! ## The register of the state manager -/

def registry (s : StateManager64) : Registry BatchUUID := ⟨s.stateOrder, s.state.keys.toFinset⟩

theorem mem_of_lookup (h : s.state.lookup batchUUID = some b) : batchUUID ∈ s.state :=
  AList.lookup_isSome.mp (by rw [h]; rfl)

/-- A call that neither creates nor cancels a batch. -/
def Keeps (s s' : StateManager64) : Prop := s.registry.Shrinks s'.registry

theorem Keeps.of_eq (h : s'.registry = s.registry) : s.Keeps s' := by
  unfold Keeps
  rw [h]
  exact .refl

section

variable {α : Type} {zkr : Except ZkResult α}
  {r : Except Halt (Except ZkResult α × BatchState64)}

end

theorem Keeps.trans {s'' : StateManager64} (h : s.Keeps s') (h' : s'.Keeps s'') : s.Keeps s'' :=
  Registry.Shrinks.trans h h'

section

variable {σ : Type} {db : Database64 σ} {purge : Bool} {p : Persistence} {w w' : σ}
  {root garbage : Fea}

end

end StateManager64

end ZkevmProver
