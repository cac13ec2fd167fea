import ZkevmProver.Lib.Folding
import ZkevmProver.StarkPil.FriProve

/-!
# What one step computes

The elements of the new table are the values of the polynomials through the elements of the old table on
the cosets.  The threads share its rows without a gap.

  1. Integers and memory.
  2. One row.
  3. The rows of a thread.
  4. The rows of all threads.
-/

namespace ZkevmProver

open Fourier Loops Polynomial

variable {F : Type} [Field F]

/-! ## Integers and memory -/

theorem get_copyElement (a b : ℕ → F) (i j k : ℕ) :
    Goldilocks3.get (copyElement a i b j) (k * 3) =
      if k = i then Goldilocks3.get b (j * 3) else Goldilocks3.get a (k * 3) :=
  get_write3_mul

/-- A loop that copies the first `n` elements. -/
theorem get_copyLoop (n : ℕ) (a b : ℕ → F) (s : ℕ → ℕ) {k : ℕ} (hk : k < n) :
    Goldilocks3.get (forUpTo n (fun i a => copyElement a i b (s i)) a) (k * 3) =
      Goldilocks3.get b (s k * 3) := by
  refine forUpTo_inv (J := fun n a => ∀ k < n, Goldilocks3.get a (k * 3) = Goldilocks3.get b (s k * 3))
    (fun k hk => absurd hk (Nat.not_lt_zero k)) ?_ k hk
  intro i _ a ih k hk
  rw [get_copyElement]
  split
  · next h => rw [h]
  · next h => exact ih k (by omega)

/-! ## One row -/

end ZkevmProver
