import ZkevmProver.StarkPil.Polinomial

/-!
# Step 4 of a proof: the columns of the quotient

The quotient has its values on the shifted extended domain, in three columns `p_q_2ns`.  Its coefficients
are cut into `qDeg` parts of `N`, and each part is evaluated on the same domain.  An element of a table
is in the memory at its index; a table starts out with zeros.

  1. The step.
  2. What the loops write.
  3. The quotient from its parts.
-/

namespace ZkevmProver

open Fourier Loops Polynomial

variable {F : Type*} [Field F] (G : NTTGoldilocks F) (N qDeg : ℕ)

/-! ## The step -/

def shiftIn : F := G.shift⁻¹ ^ N

/-- The rows `lo`, …, `hi - 1` of all parts. -/
def mulRows (qq1 : ℕ → F) (lo hi : ℕ) (qq2 : ℕ → F) : ℕ → F :=
  (forUpTo qDeg
    (fun p s =>
      (s.1 * shiftIn G N,
        forUpTo (hi - lo)
          (fun k qq2 => mulBase qq2 (((lo + k) * qDeg + p) * 3) qq1 ((p * N + (lo + k)) * 3) s.1) s.2))
    ((1 : F), qq2)).2

def stride : ℕ := 2048

/-- The loop of `Starks`: the threads take the blocks in some order. -/
def mulBlocks (order : List ℕ) (qq1 qq2 : ℕ → F) : ℕ → F :=
  order.foldl
    (fun qq2 b => mulRows G N qDeg qq1 (b * stride) (min N (b * stride + stride)) qq2) qq2

/-- The number of blocks that begin before row `N`. -/
def nBlocks : ℕ := (N + stride - 1) / stride

/-- `cm4_2ns` after step 4 of `Starks::genProof` -/
def cm4 (NExtended : ℕ) (order : List ℕ) (p_q_2ns : ℕ → F) : ℕ → F :=
  G.NTT (mulBlocks G N qDeg order (G.INTT p_q_2ns NExtended 3) fun _ => 0) NExtended (3 * qDeg)

/-- `cm4_2ns` after step 4 of `StarkRecursiveF::genProof` -/
def cm4RecursiveF (NExtended : ℕ) (p_q_2ns : ℕ → F) : ℕ → F :=
  G.NTT (mulRows G N qDeg (G.INTT p_q_2ns NExtended 3) 0 N fun _ => 0) NExtended (3 * qDeg)

/-! ## What the loops write -/

section Loops

variable {N qDeg}

/-- What belongs to a place of `qq2`: part and row are read off its index. -/
def scaled (qq1 : ℕ → F) (N qDeg a : ℕ) : F :=
  qq1 ((a / 3 % qDeg * N + a / 3 / qDeg) * 3 + a % 3) * shiftIn G N ^ (a / 3 % qDeg)

/-- The places of a range of rows in the parts before part `p`. -/
def places (qDeg lo hi p : ℕ) : Set ℕ :=
  {a | lo ≤ a / 3 / qDeg ∧ a / 3 / qDeg < hi ∧ a / 3 % qDeg < p}

theorem mulBase_written {g result a : ℕ → F} {e oa : ℕ} {b : F}
    (h : ∀ c < 3, g (e * 3 + c) = a (oa + c) * b) :
    Written {j | j / 3 = e} g result (mulBase result (e * 3) a oa b) :=
  write3_written (h 0 (by omega)) (h 1 (by omega)) (h 2 (by omega))

theorem mulRows_written (N qDeg : ℕ) (qq1 qq2 : ℕ → F) (lo hi : ℕ) :
    Written (places qDeg lo hi qDeg) (scaled G qq1 N qDeg) qq2 (mulRows G N qDeg qq1 lo hi qq2) := by
  unfold mulRows
  refine (forUpTo_inv (J := fun p (s : F × (ℕ → F)) => s.1 = shiftIn G N ^ p ∧
    Written (places qDeg lo hi p) (scaled G qq1 N qDeg) qq2 s.2) ⟨(pow_zero _).symm, .nothing ?_⟩ ?_).2
  · rintro a ⟨-, -, hp⟩
    exact absurd hp (Nat.not_lt_zero _)
  · rintro p hp ⟨curS, qq2'⟩ ⟨hcur, ih⟩
    refine ⟨by rw [hcur, pow_succ], ?_⟩
    have hround (k : ℕ) (t : ℕ → F) :
        Written {j | j / 3 = (lo + k) * qDeg + p} (scaled G qq1 N qDeg) t
          (mulBase t (((lo + k) * qDeg + p) * 3) qq1 ((p * N + (lo + k)) * 3) curS) := by
      refine mulBase_written fun c hc => ?_
      have hdiv : (((lo + k) * qDeg + p) * 3 + c) / 3 = (lo + k) * qDeg + p := by omega
      have hmod : (((lo + k) * qDeg + p) * 3 + c) % 3 = c := by omega
      rw [scaled, hdiv, hmod, Nat.mul_comm (lo + k), Nat.mul_add_mod, Nat.mod_eq_of_lt hp,
        Nat.mul_add_div (Nat.zero_lt_of_lt hp), Nat.div_eq_of_lt hp, Nat.add_zero, ← hcur]
    have h := ih.trans (Written.forUpTo (n := hi - lo) (t := qq2') fun k _ t => hround k t)
    have hset : places qDeg lo hi p ∪ {a | ∃ k < hi - lo, a ∈ {j | j / 3 = (lo + k) * qDeg + p}} =
        places qDeg lo hi (p + 1) := by
      ext a
      simp only [places, Set.mem_union, Set.mem_ofPred_eq]
      constructor
      · rintro (⟨hlo, hhi, hlt⟩ | ⟨k, hk, ha⟩)
        · exact ⟨hlo, hhi, Nat.lt_succ_of_lt hlt⟩
        · rw [ha, Nat.mul_comm (lo + k), Nat.mul_add_mod, Nat.mod_eq_of_lt hp,
            Nat.mul_add_div (Nat.zero_lt_of_lt hp), Nat.div_eq_of_lt hp, Nat.add_zero]
          omega
      · rintro ⟨hlo, hhi, hlt⟩
        rcases Nat.lt_succ_iff_lt_or_eq.mp hlt with hlt | heq
        · exact .inl ⟨hlo, hhi, hlt⟩
        · refine .inr ⟨a / 3 / qDeg - lo, by omega, ?_⟩
          rw [Nat.add_sub_cancel' hlo, ← heq, Nat.div_add_mod']
    rwa [hset] at h

/-- The blocks write what the plain loop writes. -/
theorem mulBlocks_eq {order : List ℕ} (horder : order.Perm (List.range (nBlocks N))) (qq1 qq2 : ℕ → F) :
    mulBlocks G N qDeg order qq1 qq2 = mulRows G N qDeg qq1 0 N qq2 := by
  have hblock (b : ℕ) (t : ℕ → F) := mulRows_written G N qDeg qq1 t (b * stride) (min N (b * stride + stride))
  have hblocks := Written.foldl (l := order) (t := qq2) fun b _ t => hblock b t
  have hset : {a | ∃ b ∈ order, a ∈ places qDeg (b * stride) (min N (b * stride + stride)) qDeg} =
      places qDeg 0 N qDeg := by
    ext a
    simp only [places, Set.mem_ofPred_eq, horder.mem_iff, List.mem_range, nBlocks, stride]
    constructor
    · rintro ⟨b, -, -, hhi, hlt⟩
      exact ⟨Nat.zero_le _, by omega, hlt⟩
    · rintro ⟨-, hhi, hlt⟩
      exact ⟨a / 3 / qDeg / 2048, by omega, by omega, by omega, hlt⟩
  rw [hset] at hblocks
  exact hblocks.unique (mulRows_written G N qDeg qq1 qq2 0 N)

theorem get_mulRows {p : ℕ} (hp : p < qDeg) (qq1 : ℕ → F) (k : ℕ) :
    Goldilocks3.get (mulRows G N qDeg qq1 0 N fun _ => 0) (k * (3 * qDeg) + 3 * p) =
      if k < N then shiftIn G N ^ p • Goldilocks3.get qq1 ((p * N + k) * 3) else 0 := by
  have hw := mulRows_written G N qDeg qq1 (fun _ => 0) 0 N
  have hplace (c : ℕ) (hc : c < 3) :
      (k * (3 * qDeg) + 3 * p + c) / 3 = qDeg * k + p ∧ (k * (3 * qDeg) + 3 * p + c) % 3 = c := by
    have h : k * (3 * qDeg) + 3 * p = 3 * (qDeg * k + p) := by ring
    omega
  have hrow : (qDeg * k + p) / qDeg = k := by
    rw [Nat.mul_add_div (Nat.zero_lt_of_lt hp), Nat.div_eq_of_lt hp, Nat.add_zero]
  have hpart : (qDeg * k + p) % qDeg = p := by rw [Nat.mul_add_mod, Nat.mod_eq_of_lt hp]
  have hvalue (c : ℕ) (hc : c < 3) : mulRows G N qDeg qq1 0 N (fun _ => 0) (k * (3 * qDeg) + 3 * p + c) =
      if k < N then shiftIn G N ^ p * qq1 ((p * N + k) * 3 + c) else 0 := by
    obtain ⟨hdiv, hmod⟩ := hplace c hc
    split
    · next hk =>
      rw [hw.inside, scaled, hdiv, hmod, hrow, hpart, mul_comm]
      simp only [places, Set.mem_ofPred_eq, hdiv, hrow, hpart]
      exact ⟨Nat.zero_le k, hk, hp⟩
    · next hk =>
      refine hw.outside _ fun hmem => hk ?_
      simp only [places, Set.mem_ofPred_eq, hdiv, hrow] at hmem
      exact hmem.2.1
  have h0 := hvalue 0 (by omega)
  rw [Goldilocks3.get, hvalue 1 (by omega), hvalue 2 (by omega), ← Nat.add_zero (k * (3 * qDeg) + 3 * p), h0]
  split
  · exact (Goldilocks3.smul_of ..).symm
  · exact Goldilocks3.of_zero

end Loops

/-! ## The quotient from its parts -/

section Parts

variable {G N qDeg}

theorem shiftIn_pow_mul (p k : ℕ) : shiftIn G N ^ p * G.shift ^ (p * N + k) = G.shift ^ k := by
  rw [shiftIn, pow_add, ← pow_mul, Nat.mul_comm N p, ← mul_assoc, ← mul_pow,
    inv_mul_cancel₀ G.shift_ne_zero, one_pow, one_mul]

variable {nBitsExt : ℕ} (hExt : nBitsExt ≤ 32) {Q : (Goldilocks3 F)[X]} {p_q_2ns : ℕ → F}
  (hsize : qDeg * N ≤ 2 ^ nBitsExt) (hQ : Q.degree < (qDeg * N : ℕ))
  (hvalues : ∀ i < 2 ^ nBitsExt,
    Goldilocks3.get p_q_2ns (i * 3) = Q.eval (algebraMap F _ (G.shift * G.w nBitsExt ^ i)))

include hExt hsize hQ hvalues

/-- The coefficients of the quotient, scaled by the powers of the shift. -/
theorem get_qq1 {m : ℕ} (hm : m < 2 ^ nBitsExt) :
    Goldilocks3.get (G.INTT p_q_2ns (2 ^ nBitsExt) 3) (m * 3) = G.shift ^ m • Q.coeff m := by
  rw [G.get_intt_column p_q_2ns hExt hm,
    smul_coeff_eq_idft (G.w_primitive nBitsExt hExt) (hQ.trans_le (Nat.cast_le.mpr hsize)) _ hm]
  exact idft_congr (fun i hi => hvalues i hi) m

/-- Column `p` has the values of part `p`. -/
theorem get_cm4RecursiveF {i p : ℕ} (hi : i < 2 ^ nBitsExt) (hp : p < qDeg) :
    Goldilocks3.get (cm4RecursiveF G N qDeg (2 ^ nBitsExt) p_q_2ns) (i * (3 * qDeg) + 3 * p) =
      (window Q N p).eval (algebraMap F _ (G.shift * G.w nBitsExt ^ i)) := by
  have hN : N ≤ 2 ^ nBitsExt := (Nat.le_mul_of_pos_left N (Nat.zero_lt_of_lt hp)).trans hsize
  have hdeg : (window Q N p).degree < (2 ^ nBitsExt : ℕ) :=
    (degree_window_lt p).trans_le (Nat.cast_le.mpr hN)
  rw [cm4RecursiveF, G.get_ntt _ hExt hi (by omega), eval_eq_dft (Nat.two_pow_pos nBitsExt) hdeg]
  refine dft_congr (fun k _ => ?_) i
  rw [get_mulRows G hp, coeff_window]
  split
  · next hk =>
    have hm : p * N + k < qDeg * N := by
      have hle : (p + 1) * N ≤ qDeg * N := Nat.mul_le_mul_right N hp
      rw [Nat.succ_mul] at hle
      omega
    rw [get_qq1 hExt hsize hQ hvalues (hm.trans_le hsize), smul_smul, shiftIn_pow_mul]
  · exact (smul_zero _).symm

end Parts

/-- The committed columns are the values of polynomials of degree less than `N` that the quotient is put
together from, and both provers compute the same columns. -/
theorem quotient_split (nBits nBitsExt : ℕ) (hExt : nBitsExt ≤ 32)
    (hsize : qDeg * 2 ^ nBits ≤ 2 ^ nBitsExt) (Q : (Goldilocks3 F)[X])
    (hQ : Q.degree < (qDeg * 2 ^ nBits : ℕ)) (p_q_2ns : ℕ → F)
    (hvalues : ∀ i < 2 ^ nBitsExt,
      Goldilocks3.get p_q_2ns (i * 3) = Q.eval (algebraMap F _ (G.shift * G.w nBitsExt ^ i)))
    (order : List ℕ) (horder : order.Perm (List.range (nBlocks (2 ^ nBits)))) :
    (∃ Qp : ℕ → (Goldilocks3 F)[X], (∀ p < qDeg, (Qp p).degree < (2 ^ nBits : ℕ)) ∧
      Q = ∑ p ∈ Finset.range qDeg, X ^ (p * 2 ^ nBits) * Qp p ∧
      (∀ x, Q.eval x = ∑ p ∈ Finset.range qDeg, x ^ (p * 2 ^ nBits) * (Qp p).eval x) ∧
      ∀ i < 2 ^ nBitsExt, ∀ p < qDeg,
        Goldilocks3.get (cm4 G (2 ^ nBits) qDeg (2 ^ nBitsExt) order p_q_2ns) (i * (3 * qDeg) + 3 * p) =
          (Qp p).eval (algebraMap F _ (G.shift * G.w nBitsExt ^ i))) ∧
    cm4 G (2 ^ nBits) qDeg (2 ^ nBitsExt) order p_q_2ns =
      cm4RecursiveF G (2 ^ nBits) qDeg (2 ^ nBitsExt) p_q_2ns := by
  have hsame : cm4 G (2 ^ nBits) qDeg (2 ^ nBitsExt) order p_q_2ns =
      cm4RecursiveF G (2 ^ nBits) qDeg (2 ^ nBitsExt) p_q_2ns := by
    rw [cm4, cm4RecursiveF, mulBlocks_eq G horder]
  refine ⟨⟨window Q (2 ^ nBits), fun p _ => degree_window_lt p, eq_sum_windows hQ, fun x => ?_, ?_⟩,
    hsame⟩
  · conv_lhs => rw [eq_sum_windows hQ]
    simp only [eval_finsetSum, eval_mul, eval_pow, eval_X]
  · intro i hi p hp
    rw [hsame]
    exact get_cm4RecursiveF hExt hsize hQ hvalues hi hp

/-- The values of `X ^ 3` on the shifted domain of four points. -/
noncomputable def cubes : ℕ → ZMod goldilocksPrime :=
  Goldilocks3.table fun i => (goldilocks.shift * goldilocks.w 2 ^ i) ^ 3

theorem get_cubes (i : ℕ) :
    Goldilocks3.get cubes (i * 3) =
      (X ^ 3 : (Goldilocks3 _)[X]).eval (algebraMap _ _ (goldilocks.shift * goldilocks.w 2 ^ i)) := by
  rw [cubes, Goldilocks3.get_table, eval_pow, eval_X, map_pow]

theorem quotient_split_cubes :
    (∃ Qp : ℕ → (Goldilocks3 (ZMod goldilocksPrime))[X], (∀ p < 2, (Qp p).degree < (2 : ℕ)) ∧
      X ^ 3 = ∑ p ∈ Finset.range 2, X ^ (p * 2) * Qp p ∧
      ∀ i < 4, ∀ p < 2, Goldilocks3.get (cm4 goldilocks 2 2 4 [0] cubes) (i * 6 + 3 * p) =
        (Qp p).eval (algebraMap _ _ (goldilocks.shift * goldilocks.w 2 ^ i))) ∧
    cm4 goldilocks 2 2 4 [0] cubes = cm4RecursiveF goldilocks 2 2 4 cubes := by
  have hdeg : (X ^ 3 : (Goldilocks3 (ZMod goldilocksPrime))[X]).degree < (2 * 2 ^ 1 : ℕ) :=
    (degree_X_pow_le 3).trans_lt (by decide)
  obtain ⟨⟨Qp, hQp, hsum, -, hget⟩, hsame⟩ := quotient_split goldilocks 2 1 2 (by decide) (by decide)
    (X ^ 3) hdeg cubes (fun i _ => get_cubes i) [0] (List.Perm.refl _)
  exact ⟨⟨Qp, hQp, hsum, hget⟩, hsame⟩

end ZkevmProver
