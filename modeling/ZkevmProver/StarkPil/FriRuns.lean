import ZkevmProver.StarkPil.FriFolding

/-!
# Runs of the FRI prover

After every step the table has the values of the polynomial folded so far on the reduced domain, and the
tree of the step has them in groups.

  1. Lists of steps.
  2. Points and polynomials.
  3. One step.
  4. All steps.
-/

namespace ZkevmProver

open Fourier Loops Polynomial

variable {F : Type} [Field F] (G : NTTGoldilocks F)

/-! ## Lists of steps -/

/-- A strictly decreasing list that starts with the size of the table. -/
structure Admissible (steps : List ℕ) (polBits : ℕ) : Prop where
  first : steps.head? = some polBits
  decreasing : steps.Pairwise (· > ·)

/-- The size of the table after `n` steps, in bits. -/
def stepBits (steps : List ℕ) (n : ℕ) : ℕ := steps.getD (n - 1) 0

section Steps

variable {steps : List ℕ} {polBits n : ℕ} (h : Admissible steps polBits)

include h

theorem Admissible.length_pos : 0 < steps.length :=
  List.length_pos_of_ne_nil fun hnil => by
    have hfirst := h.first
    rw [hnil] at hfirst
    cases hfirst

theorem Admissible.stepBits_zero : stepBits steps 0 = polBits := by
  have hfirst := h.first
  rw [stepBits]
  cases steps with
  | nil => cases hfirst
  | cons bits steps => exact Option.some_inj.mp hfirst

theorem Admissible.stepBits_succ_le (hn : n < steps.length) : stepBits steps (n + 1) ≤ stepBits steps n := by
  rw [stepBits, stepBits, Nat.add_sub_cancel, List.getD_eq_getElem _ _ hn,
    List.getD_eq_getElem _ _ (show n - 1 < steps.length by omega)]
  rcases Nat.eq_zero_or_pos n with rfl | hpos
  · exact Nat.le_refl _
  · exact Nat.le_of_lt (List.pairwise_iff_getElem.mp h.decreasing _ _ _ _ (by omega))

theorem Admissible.stepBits_le (hn : n ≤ steps.length) : stepBits steps n ≤ polBits := by
  induction n with
  | zero => exact Nat.le_of_eq h.stepBits_zero
  | succ n ih => exact (h.stepBits_succ_le hn).trans (ih (Nat.le_of_succ_le hn))

end Steps

/-! ## Points and polynomials -/

/-- Point `g` of the domain after `n` steps. -/
def friPoint (steps : List ℕ) (n g : ℕ) : F :=
  G.shift ^ 2 ^ (stepBits steps 0 - stepBits steps n) * G.w (stepBits steps n) ^ g

/-- The bits that step `n` takes away. -/
def reductionBits (steps : List ℕ) (n : ℕ) : ℕ := stepBits steps n - stepBits steps (n + 1)

/-- The polynomial after `n` steps. -/
noncomputable def folded (steps : List ℕ) (special_x : ℕ → ℕ → F) (P : (Goldilocks3 F)[X]) :
    ℕ → (Goldilocks3 F)[X]
  | 0 => P
  | n + 1 =>
    fold (Goldilocks3.get (special_x n) 0) (2 ^ reductionBits steps n) (folded steps special_x P n)

section Points

variable {steps : List ℕ} {polBits n : ℕ} (h : Admissible steps polBits) (hbits : polBits ≤ 32)
  (hn : n < steps.length)

include h hbits hn

omit hbits in
theorem stepBits_add_reductionBits : stepBits steps (n + 1) + reductionBits steps n = stepBits steps n :=
  Nat.add_sub_cancel' (h.stepBits_succ_le hn)

omit hbits in
theorem row_lt {i j : ℕ} (hi : i < 2 ^ reductionBits steps n) (hj : j < 2 ^ stepBits steps (n + 1)) :
    i * 2 ^ stepBits steps (n + 1) + j < 2 ^ stepBits steps n := by
  have hle : (i + 1) * 2 ^ stepBits steps (n + 1) ≤ 2 ^ stepBits steps n := by
    rw [← stepBits_add_reductionBits h hn, Nat.add_comm (stepBits steps (n + 1)), pow_add]
    exact Nat.mul_le_mul_right _ hi
  rw [Nat.succ_mul] at hle
  omega

end Points

/-! ## One step -/

section Step

variable (steps : List ℕ) (special_x : ℕ → ℕ → F) (P : (Goldilocks3 F)[X])

/-- The trees of the first `n` steps have the values after the step before, in groups. -/
structure FriTrees (n : ℕ) (trees : ℕ → GroupTree F) : Prop where
  width : ∀ si, 0 < si → si ≤ n → si < steps.length → (trees si).width = 2 ^ reductionBits steps si * 3
  rows : ∀ si, 0 < si → si ≤ n → si < steps.length → ∀ y < 2 ^ stepBits steps (si + 1),
    ∀ j < 2 ^ reductionBits steps si,
      Goldilocks3.get (trees si).source ((y * 2 ^ reductionBits steps si + j) * 3) =
        (folded steps special_x P si).eval
          (algebraMap F _ (friPoint G steps si (j * 2 ^ stepBits steps (si + 1) + y)))

/-- After `n` steps. -/
structure FriInv (n : ℕ) (st : FriState F) : Prop where
  polBits : st.polBits = stepBits steps n
  polShiftInv : st.polShiftInv = (G.shift ^ 2 ^ (stepBits steps 0 - stepBits steps n))⁻¹
  values : ∀ g < 2 ^ stepBits steps n, Goldilocks3.get st.friPol (g * 3) =
    (folded steps special_x P n).eval (algebraMap F _ (friPoint G steps n g))
  trees : FriTrees G steps special_x P n st.trees

variable {G steps special_x P} {polBits : ℕ} (h : Admissible steps polBits) {n : ℕ} {st : FriState F}

theorem forUpTo_square (n : ℕ) (a : F) : forUpTo n (fun _ s => s * s) a = a ^ 2 ^ n := by
  induction n with
  | zero => rw [forUpTo_zero, pow_zero, pow_one]
  | succ n ih => rw [forUpTo_succ, ih, ← pow_two, ← pow_mul, ← pow_succ]

/-- The state with such a table. -/
theorem FriInv.next (hinv : FriInv G steps special_x P n st) (h : Admissible steps polBits)
    (hn : n < steps.length) {pol2_e : ℕ → F}
    (hvalues : ∀ g < 2 ^ stepBits steps (n + 1), Goldilocks3.get pol2_e (g * 3) =
      (folded steps special_x P (n + 1)).eval (algebraMap F _ (friPoint G steps (n + 1) g)))
    {trees : ℕ → GroupTree F} (htrees : FriTrees G steps special_x P (n + 1) trees) :
    FriInv G steps special_x P (n + 1)
      ⟨forUpTo (2 ^ stepBits steps (n + 1)) (fun i friPol => copyElement friPol i pol2_e i) st.friPol,
        stepBits steps (n + 1), forUpTo (reductionBits steps n) (fun _ s => s * s) st.polShiftInv, trees⟩ := by
  refine ⟨rfl, ?_, fun g hg => ?_, htrees⟩
  · have hexp : stepBits steps 0 - stepBits steps n + reductionBits steps n =
        stepBits steps 0 - stepBits steps (n + 1) := by
      have hsum := stepBits_add_reductionBits h hn
      have hle := h.stepBits_le hn.le
      have hzero := h.stepBits_zero
      omega
    rw [forUpTo_square, hinv.polShiftInv, inv_pow, ← pow_mul, ← pow_add, hexp]
  · exact (get_copyLoop _ _ _ (fun i => i) hg).trans (hvalues g hg)

/-- The tree of a step is added. -/
theorem FriTrees.next {trees : ℕ → GroupTree F} (htrees : FriTrees G steps special_x P n trees)
    (h : Admissible steps polBits) (hn : n + 1 < steps.length) {pol2_e aux : ℕ → F}
    (hvalues : ∀ g < 2 ^ stepBits steps (n + 1), Goldilocks3.get pol2_e (g * 3) =
      (folded steps special_x P (n + 1)).eval (algebraMap F _ (friPoint G steps (n + 1) g)))
    (hgroups : ∀ i < 2 ^ stepBits steps (n + 2), ∀ j < 2 ^ reductionBits steps (n + 1),
      Goldilocks3.get aux ((i * 2 ^ reductionBits steps (n + 1) + j) * 3) =
        Goldilocks3.get pol2_e ((j * 2 ^ stepBits steps (n + 2) + i) * 3)) (nGroups : ℕ) :
    FriTrees G steps special_x P (n + 1)
      (Function.update trees (n + 1) ⟨nGroups, 2 ^ reductionBits steps (n + 1) * 3, aux⟩) where
  width si hpos hsi hlen := by
    rcases Nat.le_succ_iff_eq_or_le.mp hsi with rfl | hsi
    · rw [Function.update_self]
    · rw [Function.update_of_ne (by omega), htrees.width si hpos hsi hlen]
  rows si hpos hsi hlen y hy j hj := by
    rcases Nat.le_succ_iff_eq_or_le.mp hsi with rfl | hsi
    · rw [Function.update_self, ← hvalues _ (row_lt h hn hj hy)]
      exact hgroups y hy j hj
    · rw [Function.update_of_ne (by omega), htrees.rows si hpos hsi hlen y hy j hj]

end Step

end ZkevmProver
