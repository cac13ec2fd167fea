import Mathlib.RingTheory.AdjoinRoot
import Mathlib.Tactic.LinearCombination
import Mathlib.Tactic.NormNum.Prime
import ZkevmProver.Lib.Fourier
import ZkevmProver.Lib.LucasCertificate
import ZkevmProver.Utils.Goldilocks

/-!
# The Goldilocks library

What the prover uses of the library that it takes its field from, with what this library promises.  An
element of the cubic extension is three field elements next to each other.

  1. The cubic extension.
  2. Transforms.
  3. The library over the field itself.
-/

namespace ZkevmProver

open Fourier Polynomial

/-! ## The cubic extension -/

/-- `Goldilocks3` -/
abbrev Goldilocks3 (F : Type*) [Field F] : Type _ := AdjoinRoot (X ^ 3 - X - 1 : F[X])

namespace Goldilocks3

variable {F : Type*} [Field F]

/-- The root that has been adjoined. -/
noncomputable def root : Goldilocks3 F := AdjoinRoot.root _

theorem root_pow_three : (root : Goldilocks3 F) ^ 3 = root + 1 := by
  have hself : AdjoinRoot.mk (X ^ 3 - X - 1 : F[X]) (X ^ 3 - X - 1) = 0 := AdjoinRoot.mk_self
  rw [map_sub, map_sub, map_pow, AdjoinRoot.mk_X, map_one] at hself
  have h : (root : Goldilocks3 F) ^ 3 - root - 1 = 0 := hself
  linear_combination h

/-- The element with these coordinates. -/
noncomputable def of (a0 a1 a2 : F) : Goldilocks3 F := a0 • 1 + a1 • root + a2 • root ^ 2

/-- The element at offset `o`. -/
noncomputable def get (m : ℕ → F) (o : ℕ) : Goldilocks3 F := of (m o) (m (o + 1)) (m (o + 2))

theorem smul_of (c a0 a1 a2 : F) : c • of a0 a1 a2 = of (c * a0) (c * a1) (c * a2) := by
  simp only [of, smul_add, smul_smul]

theorem of_add (a0 a1 a2 b0 b1 b2 : F) :
    of a0 a1 a2 + of b0 b1 b2 = of (a0 + b0) (a1 + b1) (a2 + b2) := by
  simp only [of, add_smul]
  abel

theorem of_zero : of (0 : F) 0 0 = 0 := by simp only [of, zero_smul, add_zero]

theorem of_base (a : F) : of a 0 0 = algebraMap F (Goldilocks3 F) a := by
  simp only [of, zero_smul, add_zero, Algebra.algebraMap_eq_smul_one]

/-- Elements of the field next to each other, as elements of the extension. -/
def table (v : ℕ → F) (a : ℕ) : F := if a % 3 = 0 then v (a / 3) else 0

theorem get_table (v : ℕ → F) (i : ℕ) : get (table v) (i * 3) = algebraMap F (Goldilocks3 F) (v i) := by
  have h1 : (i * 3 + 1) % 3 ≠ 0 := by omega
  have h2 : (i * 3 + 2) % 3 ≠ 0 := by omega
  rw [get, table, table, table, if_pos (Nat.mul_mod_left i 3), if_neg h1, if_neg h2,
    Nat.mul_div_cancel i (by omega), of_base]

/-- The product, with the cube of the root reduced. -/
theorem of_mul (a0 a1 a2 b0 b1 b2 : F) :
    of a0 a1 a2 * of b0 b1 b2 =
      of (a0 * b0 + a1 * b2 + a2 * b1) (a0 * b1 + a1 * b0 + a1 * b2 + a2 * b1 + a2 * b2)
        (a0 * b2 + a1 * b1 + a2 * b0 + a2 * b2) := by
  simp only [of, Algebra.smul_def, map_add, map_mul]
  linear_combination (algebraMap F _ a1 * algebraMap F _ b2 + algebraMap F _ a2 * algebraMap F _ b1 +
    algebraMap F _ a2 * algebraMap F _ b2 * root) * (root_pow_three (F := F))

theorem of_dft (ω : F) (N : ℕ) (u v w : ℕ → F) (i : ℕ) :
    of (dft ω N u i) (dft ω N v i) (dft ω N w i) = dft ω N (fun k => of (u k) (v k) (w k)) i := by
  simp only [of, dft, Finset.sum_smul, smul_add, smul_smul, Finset.sum_add_distrib, smul_eq_mul]

theorem of_idft (ω : F) (N : ℕ) (u v w : ℕ → F) (k : ℕ) :
    of (idft ω N u k) (idft ω N v k) (idft ω N w k) = idft ω N (fun i => of (u i) (v i) (w i)) k := by
  simp only [idft, smul_eq_mul]
  rw [← smul_of]
  congr 1
  simp only [of, Finset.sum_smul, smul_add, smul_smul, Finset.sum_add_distrib]

end Goldilocks3

/-! ## Transforms -/

/-- The library over a field `F`: a table of `size` rows and `ncols` columns is transformed column by
column. -/
structure NTTGoldilocks (F : Type*) [Field F] where
  shift : F
  shift_ne_zero : shift ≠ 0
  w : ℕ → F
  w_primitive : ∀ n ≤ 32, IsPrimitiveRoot (w n) (2 ^ n)
  w_sq : ∀ n < 32, w (n + 1) ^ 2 = w n
  NTT : (src : ℕ → F) → (size ncols : ℕ) → ℕ → F
  INTT : (src : ℕ → F) → (size ncols : ℕ) → ℕ → F
  ntt_eq : ∀ src, ∀ n ≤ 32, ∀ ncols, ∀ i < 2 ^ n, ∀ c < ncols,
    NTT src (2 ^ n) ncols (i * ncols + c) = dft (w n) (2 ^ n) (fun k => src (k * ncols + c)) i
  intt_eq : ∀ src, ∀ n ≤ 32, ∀ ncols, ∀ k < 2 ^ n, ∀ c < ncols,
    INTT src (2 ^ n) ncols (k * ncols + c) = idft (w n) (2 ^ n) (fun i => src (i * ncols + c)) k

namespace NTTGoldilocks

variable {F : Type*} [Field F] (G : NTTGoldilocks F)

/-- Three columns next to each other are one column of the cubic extension. -/
theorem get_ntt (src : ℕ → F) {n ncols i c : ℕ} (hn : n ≤ 32) (hi : i < 2 ^ n) (hc : c + 2 < ncols) :
    Goldilocks3.get (G.NTT src (2 ^ n) ncols) (i * ncols + c) =
      dft (G.w n) (2 ^ n) (fun k => Goldilocks3.get src (k * ncols + c)) i := by
  unfold Goldilocks3.get
  rw [G.ntt_eq src n hn ncols i hi c (by omega), Nat.add_assoc,
    G.ntt_eq src n hn ncols i hi (c + 1) (by omega), Nat.add_assoc,
    G.ntt_eq src n hn ncols i hi (c + 2) (by omega), Goldilocks3.of_dft]
  rfl

theorem get_intt (src : ℕ → F) {n ncols k c : ℕ} (hn : n ≤ 32) (hk : k < 2 ^ n) (hc : c + 2 < ncols) :
    Goldilocks3.get (G.INTT src (2 ^ n) ncols) (k * ncols + c) =
      idft (G.w n) (2 ^ n) (fun i => Goldilocks3.get src (i * ncols + c)) k := by
  unfold Goldilocks3.get
  rw [G.intt_eq src n hn ncols k hk c (by omega), Nat.add_assoc,
    G.intt_eq src n hn ncols k hk (c + 1) (by omega), Nat.add_assoc,
    G.intt_eq src n hn ncols k hk (c + 2) (by omega), Goldilocks3.of_idft]
  rfl

/-- A single column of the cubic extension. -/
theorem get_intt_column (src : ℕ → F) {n k : ℕ} (hn : n ≤ 32) (hk : k < 2 ^ n) :
    Goldilocks3.get (G.INTT src (2 ^ n) 3) (k * 3) =
      idft (G.w n) (2 ^ n) (fun i => Goldilocks3.get src (i * 3)) k := by
  have h := G.get_intt src hn hk (show 0 + 2 < 3 by omega)
  rw [Nat.add_zero] at h
  exact h

/-- The roots of unity fit together. -/
theorem w_pow {n k : ℕ} (h : n + k ≤ 32) : G.w (n + k) ^ 2 ^ k = G.w n := by
  induction k with
  | zero => exact pow_one _
  | succ k ih => rw [pow_succ', pow_mul, ← Nat.add_assoc, G.w_sq (n + k) (by omega), ih (by omega)]

end NTTGoldilocks

/-! ## The field -/

open LucasCertificate

/-- Seven generates the multiplicative group. -/
theorem check_goldilocksPrime :
    check goldilocksPrime 7 64 (List.replicate 32 2 ++ [3, 5, 17, 257, 65537]) = true := by decide

theorem prime_factors : ∀ q ∈ List.replicate 32 2 ++ [3, 5, 17, 257, 65537], q.Prime := by
  intro q hq
  rcases List.mem_append.mp hq with hq | hq
  · rw [List.eq_of_mem_replicate hq]
    exact Nat.prime_two
  · simp only [List.mem_cons, List.not_mem_nil, or_false] at hq
    rcases hq with rfl | rfl | rfl | rfl | rfl <;> norm_num

theorem prime_goldilocksPrime : goldilocksPrime.Prime :=
  prime_of_check _ _ _ _ prime_factors check_goldilocksPrime

instance : Fact goldilocksPrime.Prime := ⟨prime_goldilocksPrime⟩

local instance atLeastTwo_generator : Nat.AtLeastTwo 7 := ⟨by decide⟩

theorem isPrimitiveRoot_seven : IsPrimitiveRoot (7 : ZMod goldilocksPrime) (goldilocksPrime - 1) :=
  isPrimitiveRoot_of_check _ 7 _ _ prime_factors check_goldilocksPrime

theorem two_pow_dvd {n : ℕ} (hn : n ≤ 32) : 2 ^ n ∣ goldilocksPrime - 1 :=
  (pow_dvd_pow 2 hn).trans ⟨4294967295, rfl⟩

/-- The library over the field of the prover, with its transforms computed by their definition. -/
noncomputable def goldilocks : NTTGoldilocks (ZMod goldilocksPrime) where
  shift := 7
  shift_ne_zero := isPrimitiveRoot_seven.ne_zero (by decide)
  w := fun n => 7 ^ ((goldilocksPrime - 1) / 2 ^ n)
  w_primitive := fun n hn => isPrimitiveRoot_seven.pow (by decide) (Nat.div_mul_cancel (two_pow_dvd hn)).symm
  w_sq := fun n hn => by
    obtain ⟨c, hc⟩ := two_pow_dvd (Nat.succ_le_of_lt hn)
    have hhalf : 2 ^ (n + 1) * c = 2 ^ n * (c * 2) := by rw [pow_succ]; ring
    rw [← pow_mul, hc, Nat.mul_div_cancel_left c (Nat.two_pow_pos (n + 1)), hhalf,
      Nat.mul_div_cancel_left (c * 2) (Nat.two_pow_pos n)]
  NTT := fun src size ncols j =>
    dft ((7 : ZMod goldilocksPrime) ^ ((goldilocksPrime - 1) / size)) size
      (fun k => src (k * ncols + j % ncols)) (j / ncols)
  INTT := fun src size ncols j =>
    idft ((7 : ZMod goldilocksPrime) ^ ((goldilocksPrime - 1) / size)) size
      (fun i => src (i * ncols + j % ncols)) (j / ncols)
  ntt_eq := fun src n hn ncols i hi c hc => by
    rw [Nat.mul_comm i, Nat.mul_add_mod, Nat.mod_eq_of_lt hc, Nat.mul_add_div (Nat.zero_lt_of_lt hc),
      Nat.div_eq_of_lt hc, Nat.add_zero]
  intt_eq := fun src n hn ncols k hk c hc => by
    rw [Nat.mul_comm k, Nat.mul_add_mod, Nat.mod_eq_of_lt hc, Nat.mul_add_div (Nat.zero_lt_of_lt hc),
      Nat.div_eq_of_lt hc, Nat.add_zero]

end ZkevmProver
