import Mathlib.Algebra.BigOperators.Intervals
import Mathlib.Data.Nat.Log
import ZkevmProver.Lib.Threads
import ZkevmProver.StarkPil.Polinomial

/-!
# Batch inversion

All elements of a polynomial are inverted with one inversion: the products of the first ones and of the
last ones are computed, and the inverse of the product of all is multiplied by both.  The parallel version
computes the products in parts, one for each thread, and puts the parts together by doubling them.

  1. Elements of dimension three.
  2. The functions of the source.
  3. Products.
  4. The sequential version.
-/

namespace ZkevmProver

open Loops Threads

universe u

/-! ## Elements of dimension three -/

@[ext] structure Element3 (F : Type*) where
  c0 : F
  c1 : F
  c2 : F
  deriving DecidableEq

namespace Element3

variable {F : Type*} [Field F]

instance : Zero (Element3 F) := ⟨⟨0, 0, 0⟩⟩

instance : One (Element3 F) := ⟨⟨1, 0, 0⟩⟩

/-- `Polinomial::mulElement` where all factors have dimension three -/
instance : Mul (Element3 F) where
  mul a b :=
    let c := product3 a.c0 a.c1 a.c2 b.c0 b.c1 b.c2
    ⟨c.1, c.2.1, c.2.2⟩

theorem mul_def (a b : Element3 F) : a * b =
    ⟨a.c0 * b.c0 + a.c1 * b.c2 + a.c2 * b.c1,
      a.c0 * b.c1 + a.c1 * b.c0 + a.c1 * b.c2 + a.c2 * b.c1 + a.c2 * b.c2,
      a.c0 * b.c2 + a.c1 * b.c1 + a.c2 * b.c0 + a.c2 * b.c2⟩ := by
  ext
  · show (product3 ..).1 = _
    unfold product3
    ring
  · show (product3 ..).2.1 = _
    unfold product3
    ring
  · show (product3 ..).2.2 = _
    unfold product3
    ring

theorem one_def : (1 : Element3 F) = ⟨1, 0, 0⟩ := rfl

theorem zero_def : (0 : Element3 F) = ⟨0, 0, 0⟩ := rfl

instance : CommMonoidWithZero (Element3 F) where
  mul_assoc a b c := by
    simp only [mul_def]
    ext <;> dsimp only <;> ring
  one_mul a := by
    simp only [mul_def, one_def]
    ext <;> dsimp only <;> ring
  mul_one a := by
    simp only [mul_def, one_def]
    ext <;> dsimp only <;> ring
  mul_comm a b := by
    simp only [mul_def]
    ext <;> dsimp only <;> ring
  zero_mul a := by
    simp only [mul_def, zero_def]
    ext <;> dsimp only <;> ring
  mul_zero a := by
    simp only [mul_def, zero_def]
    ext <;> dsimp only <;> ring

end Element3

/-! ## The functions of the source -/

section

variable {E ι : Type u} [CommMonoidWithZero E] [DecidableEq ι] (inv : E → E)

/-- The parallel loops of `batchInverseParallel`. -/
inductive ParallelLoop
  | copyTmp
  | mulTmp
  | computeMulsTmp (partitionSize : ℕ)
  | copyZ
  | mulZ
  | computeMulsZ (partitionSize : ℕ)
  | result

/-- How the threads of each loop take turns. -/
abbrev Orders : Type := ParallelLoop → (n m : ℕ) → Schedule n m

/-- `none` stands for a division by zero. -/
def computeMuls (order : ℕ → (n m : ℕ) → Schedule n m) (srcSize nThreads partitionSize : ℕ)
    (src : ℕ → E) : Option (ℕ → E) :=
  if partitionSize > srcSize then some src
  else if partitionSize = 0 then none
  else
    let nPartitions := srcSize / partitionSize
    let nThreadsPartition := nThreads / nPartitions
    if nThreadsPartition = 0 then none
    else
      let offset := fun thread_idx => partitionSize / 2 + thread_idx / nThreadsPartition * partitionSize
      let threadOffset := fun thread_idx =>
        partitionSize / (2 * nThreadsPartition) * (thread_idx % nThreadsPartition) + offset thread_idx
      let src := (order partitionSize nThreads (partitionSize / (2 * nThreadsPartition))).run
        (fun thread_idx j src => Function.update src (threadOffset thread_idx + j)
          (src (threadOffset thread_idx + j) * src (offset thread_idx - 1))) src
      computeMuls order srcSize nThreads (partitionSize * 2) src
termination_by srcSize + 1 - partitionSize

/-- `(1 << (int)floor(log2(omp_get_max_threads()))) / 4` -/
def parallelThreads (maxThreads : ℕ) : ℕ := 2 ^ Nat.log 2 maxThreads / 4

/-- The two loops that multiply within the parts: `b` has the factors, those of `z` from the end of `src`
on. -/
def mulParts (order : (n m : ℕ) → Schedule n m) (nThreads partitionSize : ℕ) (b tmp : ℕ → E) : ℕ → E :=
  (order nThreads (partitionSize - 1)).run
    (fun thread_idx j tmp =>
      let i := j + 1
      Function.update tmp (i + thread_idx * partitionSize)
        (tmp (i - 1 + thread_idx * partitionSize) * b (i + thread_idx * partitionSize))) tmp

/-- `mem` holds the polynomials of the caller, so that `res` may be `src`. -/
def batchInverseParallel (order : Orders) (maxThreads size : ℕ) (mem : ι × ℕ → E) (res src : ι) :
    Option (ι × ℕ → E) :=
  let nThreads := parallelThreads maxThreads
  if nThreads = 0 then none
  else do
    let partitionSize := size / nThreads
    let tmp := (order .copyTmp nThreads 1).run
      (fun thread_idx _ tmp => Function.update tmp (thread_idx * partitionSize)
        (mem (src, thread_idx * partitionSize))) fun _ => 0
    let tmp := mulParts (order .mulTmp) nThreads partitionSize (fun i => mem (src, i)) tmp
    let tmp ← computeMuls (fun partitionSize => order (.computeMulsTmp partitionSize)) size nThreads
      (2 * partitionSize) tmp
    let z : ℕ → E := Function.update (fun _ => 0) 0 (inv (tmp (size - 1)))
    let z := (order .copyZ (nThreads - 1) 1).run
      (fun thread_idx _ z => Function.update z (thread_idx * partitionSize + partitionSize)
        (mem (src, size - thread_idx * partitionSize - partitionSize))) z
    let z := Function.update z 0 (inv (tmp (size - 1)))
    let z := mulParts (order .mulZ) nThreads partitionSize (fun i => mem (src, size - i)) z
    let z ← computeMuls (fun partitionSize => order (.computeMulsZ partitionSize)) size nThreads
      (2 * partitionSize) z
    let mem := (order .result (size - 1) 1).run
      (fun i _ mem => Function.update mem (res, size - 1 - i) (z i * tmp (size - 2 - i))) mem
    return Function.update mem (res, 0) (z (size - 1))

/-- `z` has two elements. -/
def batchInverse (size : ℕ) (mem : ι × ℕ → E) (res src : ι) : ι × ℕ → E :=
  let tmp : ℕ → E := Function.update (fun _ => 0) 0 (mem (src, 0))
  let tmp := forUpTo (size - 1) (fun r tmp =>
    let i := r + 1
    Function.update tmp i (tmp (i - 1) * mem (src, i))) tmp
  let z0 := inv (tmp (size - 1))
  let (z0, mem) := forUpTo (size - 1) (fun r (z0, mem) =>
    let i := size - 1 - r
    let z1 := z0 * mem (src, i)
    let mem := Function.update mem (res, i) (z0 * tmp (i - 1))
    (z1, mem)) (z0, mem)
  Function.update mem (res, 0) z0

end

/-! ## Products -/

section

variable {E : Type u} [CommMonoidWithZero E] {b tbl : ℕ → E} {size partitionSize : ℕ}

/-- The products of the elements from the start of a part on. -/
def PartProducts (b : ℕ → E) (size partitionSize : ℕ) (tbl : ℕ → E) : Prop :=
  ∀ i < size, tbl i = ∏ k ∈ Finset.Ico (i / partitionSize * partitionSize) (i + 1), b k

theorem PartProducts.of_one_part (h : PartProducts b size partitionSize tbl) (hle : size ≤ partitionSize)
    {i : ℕ} (hi : i < size) : tbl i = ∏ k ∈ Finset.Ico 0 (i + 1), b k := by
  rw [h i hi, Nat.div_eq_of_lt (Nat.lt_of_lt_of_le hi hle), Nat.zero_mul]

/-- From a function that inverts, with its inverses. -/
structure Inverts (inv : E → E) : Prop where
  mul_inv : ∀ a, a ≠ 0 → a * inv a = 1
  one_ne : (1 : E) ≠ 0

variable {inv : E → E} (hinv : Inverts inv)

include hinv

theorem Inverts.mul_ne {a b : E} (ha : a ≠ 0) (hb : b ≠ 0) : a * b ≠ 0 := by
  intro h
  apply hinv.one_ne
  calc 1 = (a * inv a) * (b * inv b) := by rw [hinv.mul_inv a ha, hinv.mul_inv b hb, mul_one]
    _ = (a * b) * (inv a * inv b) := mul_mul_mul_comm _ _ _ _
    _ = 0 := by rw [h, zero_mul]

theorem Inverts.prod_ne {s : Finset ℕ} (h : ∀ k ∈ s, b k ≠ 0) : ∏ k ∈ s, b k ≠ 0 :=
  Finset.prod_induction b (· ≠ 0) (fun _ _ => hinv.mul_ne) hinv.one_ne h

/-- Inverses are unique. -/
theorem Inverts.eq_inv {a x : E} (ha : a ≠ 0) (h : a * x = 1) : x = inv a := by
  calc x = (a * inv a) * x := by rw [hinv.mul_inv a ha, one_mul]
    _ = inv a * (a * x) := by rw [mul_comm a, mul_assoc]
    _ = inv a := by rw [h, mul_one]

/-- The product of all elements but one, inverted together with the product of all. -/
theorem Inverts.inv_mul_rest (hne : ∀ k < size, b k ≠ 0) {i : ℕ} (hi : i < size) :
    inv (∏ k ∈ Finset.Ico 0 size, b k) * (∏ k ∈ Finset.Ico (i + 1) size, b k) *
      (∏ k ∈ Finset.Ico 0 i, b k) = inv (b i) := by
  have htotal : ∏ k ∈ Finset.Ico 0 size, b k ≠ 0 :=
    hinv.prod_ne fun k hk => hne k (Finset.mem_Ico.mp hk).2
  apply hinv.eq_inv (hne i hi)
  have hsplit : (∏ k ∈ Finset.Ico 0 i, b k) * b i * (∏ k ∈ Finset.Ico (i + 1) size, b k) =
      ∏ k ∈ Finset.Ico 0 size, b k := by
    rw [← Finset.prod_Ico_succ_top (Nat.zero_le i),
      Finset.prod_Ico_consecutive b (Nat.zero_le (i + 1)) hi]
  calc _ = ((∏ k ∈ Finset.Ico 0 i, b k) * b i * (∏ k ∈ Finset.Ico (i + 1) size, b k)) *
        inv (∏ k ∈ Finset.Ico 0 size, b k) := by ac_rfl
    _ = 1 := by rw [hsplit, hinv.mul_inv _ htotal]

/-! ## The sequential version -/

omit hinv in
theorem forUpTo_products (b : ℕ → E) {n j : ℕ} (hj : j ≤ n) :
    forUpTo n (fun r (tmp : ℕ → E) => Function.update tmp (r + 1) (tmp (r + 1 - 1) * b (r + 1)))
      (Function.update (fun _ => 0) 0 (b 0)) j = ∏ k ∈ Finset.Ico 0 (j + 1), b k := by
  revert j
  refine forUpTo_inv (J := fun n (tmp : ℕ → E) => ∀ {j}, j ≤ n → tmp j = ∏ k ∈ Finset.Ico 0 (j + 1), b k) ?_ ?_
  · intro j hj
    obtain rfl := Nat.le_zero.mp hj
    rw [Function.update_self, Finset.prod_Ico_succ_top (Nat.zero_le 0), Finset.Ico_self,
      Finset.prod_empty, one_mul]
  · intro r _ tmp ih j hj
    rcases Nat.le_succ_iff.mp hj with hle | rfl
    · rw [Function.update_of_ne (by omega), ih hle]
    · rw [Function.update_self, Nat.add_sub_cancel, ih (Nat.le_refl r),
        Finset.prod_Ico_succ_top (Nat.zero_le (r + 1))]

/-- The loop from the end on.  After `r` rounds the last `r` elements are inverted, `z0` has the inverse of
the product of the others, and none of these has been overwritten. -/
theorem forUpTo_inverses {ι : Type u} [DecidableEq ι] {mem : ι × ℕ → E} (res : ι) {src : ι}
    (hsize : 0 < size) (hne : ∀ i < size, mem (src, i) ≠ 0) {tmp : ℕ → E}
    (htmp : ∀ j < size, tmp j = ∏ k ∈ Finset.Ico 0 (j + 1), mem (src, k)) :
    let x := forUpTo (size - 1) (fun r (x : E × (ι × ℕ → E)) =>
      (x.1 * x.2 (src, size - 1 - r),
        Function.update x.2 (res, size - 1 - r) (x.1 * tmp (size - 1 - r - 1))))
      (inv (tmp (size - 1)), mem)
    x.1 = inv (mem (src, 0)) ∧ ∀ i < size, 0 < i → x.2 (res, i) = inv (mem (src, i)) := by
  intro x
  have hinvariant : x.1 = inv (∏ k ∈ Finset.Ico 0 size, mem (src, k)) *
        (∏ k ∈ Finset.Ico (size - (size - 1)) size, mem (src, k)) ∧
      (∀ i < size, size - (size - 1) ≤ i → x.2 (res, i) = inv (mem (src, i))) ∧
      ∀ i < size - (size - 1), x.2 (src, i) = mem (src, i) := by
    refine forUpTo_inv (J := fun r (x : E × (ι × ℕ → E)) =>
      x.1 = inv (∏ k ∈ Finset.Ico 0 size, mem (src, k)) *
        (∏ k ∈ Finset.Ico (size - r) size, mem (src, k)) ∧
      (∀ i < size, size - r ≤ i → x.2 (res, i) = inv (mem (src, i))) ∧
      ∀ i < size - r, x.2 (src, i) = mem (src, i)) ?_ ?_
    · refine ⟨?_, fun i hi hge => absurd hge (by omega), fun _ _ => rfl⟩
      rw [htmp _ (by omega), Nat.sub_add_cancel hsize, Nat.sub_zero, Finset.Ico_self, Finset.prod_empty,
        mul_one]
    · rintro r hr ⟨z0, mem'⟩ ⟨hz0, hdone, hrest⟩
      dsimp only at hz0 hdone hrest ⊢
      have hi : size - (r + 1) + 1 = size - r := by omega
      have hcur : size - 1 - r = size - (r + 1) := by omega
      rw [hcur]
      refine ⟨?_, fun i hi' hge => ?_, fun i hi' => ?_⟩
      · rw [hz0, hrest _ (by omega), mul_assoc, ← hi, mul_comm (∏ k ∈ _, _),
          Finset.prod_eq_prod_Ico_succ_bot (show size - (r + 1) < size by omega)]
      · rcases Nat.eq_or_lt_of_le hge with rfl | hlt
        · rw [Function.update_self, hz0, htmp _ (by omega), Nat.sub_add_cancel (by omega), ← hi]
          exact hinv.inv_mul_rest hne hi'
        · rw [Function.update_of_ne (by simp only [ne_eq, Prod.mk.injEq, not_and]; omega)]
          exact hdone i hi' (by omega)
      · rw [Function.update_of_ne (by simp only [ne_eq, Prod.mk.injEq, not_and]; omega)]
        exact hrest i (by omega)
  obtain ⟨hz0, hdone, -⟩ := hinvariant
  have hone : size - (size - 1) = 0 + 1 := by omega
  rw [hone] at hz0 hdone
  refine ⟨?_, fun i hi hpos => hdone i hi hpos⟩
  have hrest := hinv.inv_mul_rest hne hsize
  rwa [Finset.Ico_self, Finset.prod_empty, mul_one, ← hz0] at hrest

theorem batchInverse_eq {ι : Type u} [DecidableEq ι] {mem : ι × ℕ → E} {src : ι}
    (hne : ∀ i < size, mem (src, i) ≠ 0) (res : ι) {i : ℕ} (hi : i < size) :
    batchInverse inv size mem res src (res, i) = inv (mem (src, i)) := by
  have hsize : 0 < size := by omega
  obtain ⟨hz0, hdone⟩ := forUpTo_inverses hinv res hsize hne fun j hj =>
    forUpTo_products (fun k => mem (src, k)) (show j ≤ size - 1 by omega)
  unfold batchInverse
  dsimp only
  rcases Nat.eq_zero_or_pos i with rfl | hpos
  · rw [Function.update_self]
    exact hz0
  · rw [Function.update_of_ne (by simp only [ne_eq, Prod.mk.injEq, not_and]; omega)]
    exact hdone i hi hpos

end

end ZkevmProver
