import ZkevmProver.StarkPil.Evmap

/-!
# What the evaluations are

The vectors `LEv` and `LpEv` are the transforms of the powers of `xi` and of the next point, both divided
by the shift.  The sum of the values of a column, each times the element of such a vector, is the value of
the polynomial that the column determines.

  1. The vectors.
  2. The sums.
  3. The evaluations.
-/

namespace ZkevmProver

open Fourier Loops Polynomial

variable {F : Type} [Field F] (G : NTTGoldilocks F)

/-! ## The vectors -/

/-- The loop that fills `LEv` and `LpEv` with powers. -/
def fillPowers (N : ℕ) (xis : ℕ → F) : ℕ → F :=
  forUpTo (N - 1) (fun k LEv => mulElement LEv ((k + 1) * 3) LEv (k * 3) xis 0 3)
    (write3 (fun _ => 0) 0 1 0 0)

def LEv (nBits : ℕ) (challenges : ℕ → F) : ℕ → F :=
  let xis := divElement (fun _ => 0) 0 challenges (7 * 3) G.shift
  G.INTT (fillPowers (2 ^ nBits) xis) (2 ^ nBits) 3

def LpEv (nBits : ℕ) (challenges : ℕ → F) : ℕ → F :=
  let c_w := mulElement (fun _ => 0) 0 challenges (7 * 3) (fun _ => G.w nBits) 0 1
  let wxis := divElement (fun _ => 0) 0 c_w 0 G.shift
  G.INTT (fillPowers (2 ^ nBits) wxis) (2 ^ nBits) 3

/-- The challenge `xi` -/
noncomputable def xi (challenges : ℕ → F) : Goldilocks3 F := Goldilocks3.get challenges (7 * 3)

theorem get_fillPowers (N : ℕ) (xis : ℕ → F) {k : ℕ} (hk : k < N) :
    Goldilocks3.get (fillPowers N xis) (k * 3) = Goldilocks3.get xis 0 ^ k := by
  refine forUpTo_inv (J := fun n LEv => ∀ k ≤ n, Goldilocks3.get LEv (k * 3) = Goldilocks3.get xis 0 ^ k)
    ?_ ?_ k (Nat.le_sub_one_of_lt hk)
  · intro k hk
    rw [Nat.le_zero.mp hk, pow_zero, Nat.zero_mul, get_write3_self, Goldilocks3.of_base, map_one]
  · intro n _ LEv ih k hk
    rcases Nat.le_succ_iff_eq_or_le.mp hk with rfl | hk
    · rw [get_mulElement, ih n (Nat.le_refl n)]
      exact (pow_succ (Goldilocks3.get xis 0) n).symm
    · rw [get_mulElement_of_ne (by omega), ih k hk]

variable {nBits : ℕ} (hBits : nBits ≤ 32) (challenges : ℕ → F) {k : ℕ} (hk : k < 2 ^ nBits)

include hBits hk

theorem get_transform (xis : ℕ → F) :
    Goldilocks3.get (G.INTT (fillPowers (2 ^ nBits) xis) (2 ^ nBits) 3) (k * 3) =
      idft (G.w nBits) (2 ^ nBits) (fun j => Goldilocks3.get xis 0 ^ j) k := by
  rw [G.get_intt_column _ hBits hk]
  exact idft_congr (fun j hj => get_fillPowers _ _ hj) k

theorem get_LEv : Goldilocks3.get (LEv G nBits challenges) (k * 3) =
    idft (G.w nBits) (2 ^ nBits) (fun j => (G.shift⁻¹ • xi challenges) ^ j) k := by
  rw [LEv, get_transform G hBits hk, get_divElement, xi]

theorem get_LpEv : Goldilocks3.get (LpEv G nBits challenges) (k * 3) =
    idft (G.w nBits) (2 ^ nBits) (fun j => (G.shift⁻¹ • G.w nBits • xi challenges) ^ j) k := by
  rw [LpEv, get_transform G hBits hk, get_divElement, get_mulElement, Goldilocks3.element, if_pos rfl, mul_comm,
    ← Algebra.smul_def, xi]

omit hBits hk

/-! ## The sums -/

namespace StarkInfo

variable (info : StarkInfo) (pAddress pConstPols2ns : ℕ)

section Sums

variable (mem LEv LpEv : ℕ → F)

/-- What row `k` adds to the sum for the entry in place `i`. -/
noncomputable def term (i k : ℕ) : Goldilocks3 F :=
  let o := (info.ordPols pAddress pConstPols2ns).getD i {}
  Goldilocks3.get (if o.isPrime then LpEv else LEv) (k * 3) * o.pol.value mem (k <<< info.extendBits)

variable {info pAddress pConstPols2ns mem LEv LpEv}

theorem get_addRow {i : ℕ} (hi : i < info.evMap.length) (acc : ℕ → F) (k : ℕ) :
    Goldilocks3.get (info.addRow pAddress pConstPols2ns mem LEv LpEv acc k) (i * 3) =
      Goldilocks3.get acc (i * 3) + info.term pAddress pConstPols2ns mem LEv LpEv i k := by
  have h := forUpTo_inv (n := info.evMap.length) (s := acc)
    (J := fun n acc' => ∀ i, Goldilocks3.get acc' (i * 3) = Goldilocks3.get acc (i * 3) +
      if i < n then info.term pAddress pConstPols2ns mem LEv LpEv i k else 0)
    (f := fun i acc =>
      let o := (info.ordPols pAddress pConstPols2ns).getD i {}
      mulAddElement_adim3 acc (i * 3) (if o.isPrime then LpEv else LEv) (k * 3) mem
        (o.pol.row (k <<< info.extendBits)) o.pol.dim)
    (fun i => by rw [if_neg (Nat.not_lt_zero i), add_zero]) ?_ i
  · rw [if_pos hi] at h
    exact h
  · intro n _ acc' ih j
    show Goldilocks3.get (mulAddElement_adim3 _ _ _ _ _ _ _) _ = _
    rw [get_mulAddElement_adim3]
    split
    · next hj =>
      rw [hj, ih n, if_neg (Nat.lt_irrefl n), add_zero, if_pos (Nat.lt_succ_self n)]
      rfl
    · next hj =>
      rw [ih j]
      congr 1
      exact if_congr (by omega) rfl rfl

theorem get_foldl_addRow {i : ℕ} (hi : i < info.evMap.length) (rows : List ℕ) (acc : ℕ → F) :
    Goldilocks3.get (rows.foldl (info.addRow pAddress pConstPols2ns mem LEv LpEv) acc) (i * 3) =
      Goldilocks3.get acc (i * 3) + (rows.map (info.term pAddress pConstPols2ns mem LEv LpEv i)).sum := by
  induction rows generalizing acc with
  | nil => exact (add_zero _).symm
  | cons k rows ih =>
    rw [List.foldl_cons, ih, get_addRow hi, List.map_cons, List.sum_cons, add_assoc]

/-- The threads together have the terms of all rows. -/
theorem sum_evals_acc {i : ℕ} (hi : i < info.evMap.length) (threads : List (List ℕ)) :
    ∑ t ∈ Finset.range threads.length,
        Goldilocks3.get (info.evals_acc pAddress pConstPols2ns mem LEv LpEv threads t) (i * 3) =
      (threads.flatten.map (info.term pAddress pConstPols2ns mem LEv LpEv i)).sum := by
  have hthread (t : ℕ) :
      Goldilocks3.get (info.evals_acc pAddress pConstPols2ns mem LEv LpEv threads t) (i * 3) =
        ((threads.getD t []).map (info.term pAddress pConstPols2ns mem LEv LpEv i)).sum := by
    rw [evals_acc, get_foldl_addRow hi]
    exact (congrArg (· + _) Goldilocks3.of_zero).trans (zero_add _)
  simp only [hthread]
  clear hthread
  induction threads with
  | nil => rfl
  | cons rows threads ih =>
    rw [List.length_cons, Finset.sum_range_succ', List.flatten_cons, List.map_append, List.sum_append, ← ih,
      add_comm]
    rfl

/-! ## The evaluations -/

theorem intOffset_eq {i : ℕ} (hi : i * 3 + 2 < 2 ^ 31) : intOffset i = some (i * 3) := by
  have hmod : i * 3 % 2 ^ 32 = i * 3 := Nat.mod_eq_of_lt (by omega)
  simp only [intOffset, hmod, if_pos hi]

/-- The first entry whose last coordinate has no index of type `int`. -/
theorem intOffset_limit : intOffset 715827882 = none := by decide

theorem get_sums (num_threads : ℕ) (acc : ℕ → ℕ → F) (offset : ℕ) :
    let sums := forUpTo num_threads
      (fun k s => (s.1 + acc k offset, s.2.1 + acc k (offset + 1), s.2.2 + acc k (offset + 2)))
      ((0 : F), (0 : F), (0 : F))
    Goldilocks3.of sums.1 sums.2.1 sums.2.2 =
      ∑ t ∈ Finset.range num_threads, Goldilocks3.get (acc t) offset := by
  refine forUpTo_inv (J := fun n (s : F × F × F) => Goldilocks3.of s.1 s.2.1 s.2.2 =
    ∑ t ∈ Finset.range n, Goldilocks3.get (acc t) offset) Goldilocks3.of_zero ?_
  intro n _ s ih
  rw [Finset.sum_range_succ, ← ih, Goldilocks3.get, Goldilocks3.of_add]

/-- The sums of all threads are brought together in the table of the first one. -/
theorem reduce_eq {n : ℕ} (hn : n * 3 ≤ 2 ^ 31) (num_threads : ℕ) (acc : ℕ → ℕ → F) :
    ∃ acc', (List.range n).foldlM (reduceEntry num_threads) acc = some acc' ∧
      ∀ i < n, Goldilocks3.get (acc' 0) (i * 3) =
        ∑ t ∈ Finset.range num_threads, Goldilocks3.get (acc t) (i * 3) := by
  have h := foldlM_range_inv (n := n) (s := acc) (f := reduceEntry num_threads)
    (J := fun n acc' => (∀ i < n, Goldilocks3.get (acc' 0) (i * 3) =
        ∑ t ∈ Finset.range num_threads, Goldilocks3.get (acc t) (i * 3)) ∧
      ∀ t j, n * 3 ≤ j → acc' t j = acc t j)
    ⟨fun i hi => absurd hi (Nat.not_lt_zero i), fun _ _ _ => rfl⟩ ?_
  · obtain ⟨acc', hacc', hsums, -⟩ := h
    exact ⟨acc', hacc', hsums⟩
  · rintro i hi acc' ⟨ih, hrest⟩
    simp only [reduceEntry, intOffset_eq (show i * 3 + 2 < 2 ^ 31 by omega), Option.bind_eq_bind,
      Option.bind_some, Option.pure_def, Option.some_inj, exists_eq_left']
    refine ⟨fun j hj => ?_, fun t j hj => ?_⟩
    · rw [Function.update_self, get_write3_mul]
      split
      · next h =>
        rw [get_sums, h]
        refine Finset.sum_congr rfl fun t _ => ?_
        rw [Goldilocks3.get, hrest t _ (by omega), hrest t _ (by omega), hrest t _ (by omega), Goldilocks3.get]
      · next h => exact ih j (by omega)
    · by_cases ht : t = 0
      · subst ht
        rw [Function.update_self, write3_of_ne (by omega), hrest 0 j (by omega)]
      · rw [Function.update_of_ne ht, hrest t j (by omega)]

theorem reduce_eq_none {n : ℕ} (hn : ¬n * 3 ≤ 2 ^ 31) (num_threads : ℕ) (acc : ℕ → ℕ → F) :
    (List.range n).foldlM (reduceEntry num_threads) acc = none := by
  refine foldlM_eq_none (i := 715827882) (List.mem_range.mpr (by omega)) fun acc => ?_
  rw [reduceEntry, intOffset_limit]
  rfl

variable (pAddress pConstPols2ns) in
theorem write_eq (hsize : info.evMap.length * 3 ≤ 2 ^ 31) {degree : ℕ} (hdegree : info.evMap.length ≤ degree)
    (acc evals : ℕ → F) :
    ∃ evals', (List.range info.evMap.length).foldlM (info.writeEntry pAddress pConstPols2ns degree acc) evals =
        some evals' ∧
      ∀ i < info.evMap.length, Goldilocks3.get evals' (info.indx pAddress pConstPols2ns i * 3) =
        Goldilocks3.get acc (i * 3) := by
  have hsize' : info.evMap.length ≤ 2 ^ 32 := by omega
  refine foldlM_range_inv (f := info.writeEntry pAddress pConstPols2ns degree acc)
    (J := fun n evals' => n ≤ info.evMap.length → ∀ i < n,
      Goldilocks3.get evals' (info.indx pAddress pConstPols2ns i * 3) = Goldilocks3.get acc (i * 3))
    (fun _ i hi => absurd hi (Nat.not_lt_zero i)) ?_ |>.imp fun evals' h => ⟨h.1, h.2 (Nat.le_refl _)⟩
  intro i hi evals' ih
  have hrow : info.indx pAddress pConstPols2ns i < degree :=
    (info.indx_lt pAddress pConstPols2ns hsize' hi).trans_le hdegree
  simp only [writeEntry, intOffset_eq (show i * 3 + 2 < 2 ^ 31 by omega), Option.bind_eq_bind,
    Option.bind_some, if_pos hrow, Option.pure_def, Option.some_inj, exists_eq_left']
  intro _ j hj
  rw [get_write3_mul]
  split
  · next h =>
    rw [info.indx_injective pAddress pConstPols2ns hsize' (by omega) hi h]
    rfl
  · next h =>
    rcases Nat.lt_succ_iff_lt_or_eq.mp hj with hj | rfl
    · exact ih (by omega) j hj
    · exact absurd rfl h

omit [Field F] in
theorem write_eq_none (hsize : info.evMap.length * 3 ≤ 2 ^ 31) {degree : ℕ}
    (hdegree : ¬info.evMap.length ≤ degree) (acc evals : ℕ → F) :
    (List.range info.evMap.length).foldlM (info.writeEntry pAddress pConstPols2ns degree acc) evals = none := by
  obtain ⟨i, hi, hrow⟩ := info.exists_indx pAddress pConstPols2ns (by omega) (Nat.lt_of_not_le hdegree)
  refine foldlM_eq_none (List.mem_range.mpr hi) fun evals => ?_
  simp only [writeEntry, intOffset_eq (show i * 3 + 2 < 2 ^ 31 by omega), Option.bind_eq_bind,
    Option.bind_some, hrow, if_neg (Nat.lt_irrefl degree)]

end Sums

section Opening

variable (mem challenges : ℕ → F) (threads : List (List ℕ)) (evals : ℕ → F)

/-- `P` is the polynomial of degree less than `N` that has the values of the column of entry `i` on the
shifted subdomain. -/
def OnSubdomain (i : ℕ) (P : (Goldilocks3 F)[X]) : Prop :=
  P.degree < (2 ^ info.nBits : ℕ) ∧ ∀ k < 2 ^ info.nBits,
    P.eval (algebraMap F _ (G.shift * G.w info.nBitsExt ^ (k <<< info.extendBits))) =
      (info.evPol pAddress pConstPols2ns (info.ev i)).value mem (k <<< info.extendBits)

/-- Where the column of entry `i` is opened. -/
noncomputable def point (i : ℕ) : Goldilocks3 F :=
  if (info.ev i).prime then G.w info.nBits • xi challenges else xi challenges

/-- The evaluations of step 5 of `Starks::genProof`, whose table `evals` has `N` rows, are the values of the
polynomials; every entry is written once. -/
def Opens : Prop :=
  ((info.ordPols pAddress pConstPols2ns).map OrdPol.indx).Perm (List.range info.evMap.length) ∧
  ∃ evals', info.evmap pAddress pConstPols2ns mem (LEv G info.nBits challenges)
      (LpEv G info.nBits challenges) threads (2 ^ info.nBits) evals = some evals' ∧
    ∀ i < info.evMap.length, ∃ P, info.OnSubdomain G pAddress pConstPols2ns mem i P ∧
      (∀ P', info.OnSubdomain G pAddress pConstPols2ns mem i P' → P' = P) ∧
      Goldilocks3.get evals' (i * 3) = P.eval (info.point G challenges i)

variable {info G pAddress pConstPols2ns mem challenges threads evals}

theorem onSubdomain_iff (hBits : info.nBits ≤ info.nBitsExt) (hExt : info.nBitsExt ≤ 32) (i : ℕ)
    (P : (Goldilocks3 F)[X]) :
    info.OnSubdomain G pAddress pConstPols2ns mem i P ↔
      Interpolates (G.w info.nBits) G.shift (2 ^ info.nBits)
        (fun k => (info.evPol pAddress pConstPols2ns (info.ev i)).value mem (k <<< info.extendBits)) P := by
  have hw : G.w info.nBitsExt ^ 2 ^ info.extendBits = G.w info.nBits := by
    have hsum : info.nBits + info.extendBits = info.nBitsExt := Nat.add_sub_cancel' hBits
    rw [← hsum, G.w_pow (by omega)]
  have hpoint (k : ℕ) : G.w info.nBitsExt ^ (k <<< info.extendBits) = G.w info.nBits ^ k := by
    rw [Nat.shiftLeft_eq, Nat.mul_comm, pow_mul, hw]
  simp only [OnSubdomain, Interpolates, hpoint]

/-- The sum for the entry in place `kk` is the value of its polynomial. -/
theorem sum_term (hBits : info.nBits ≤ 32) (hsize : info.evMap.length ≤ 2 ^ 32)
    (hthreads : threads.flatten.Perm (List.range (2 ^ info.nBits))) {kk : ℕ} (hkk : kk < info.evMap.length) :
    ∑ t ∈ Finset.range threads.length,
        Goldilocks3.get (info.evals_acc pAddress pConstPols2ns mem (LEv G info.nBits challenges)
          (LpEv G info.nBits challenges) threads t) (kk * 3) =
      (interpolate (G.w info.nBits) G.shift (2 ^ info.nBits) fun k =>
        (info.evPol pAddress pConstPols2ns (info.ev (info.indx pAddress pConstPols2ns kk))).value mem
          (k <<< info.extendBits)).eval (info.point G challenges (info.indx pAddress pConstPols2ns kk)) := by
  rw [sum_evals_acc hkk, (hthreads.map _).sum_eq, eval_interpolate_eq_sum]
  show ∑ k ∈ Finset.range (2 ^ info.nBits), info.term pAddress pConstPols2ns mem _ _ kk k = _
  refine Finset.sum_congr rfl fun k hk => ?_
  have hk := Finset.mem_range.mp hk
  have hkk' : kk < (info.ordPols pAddress pConstPols2ns).length := by
    rwa [info.length_ordPols pAddress pConstPols2ns hsize]
  simp only [term, info.getD_ordPols pAddress pConstPols2ns hkk', ordPol, point]
  rw [mul_comm]
  congr 1
  split
  · exact get_LpEv G hBits challenges hk
  · exact get_LEv G hBits challenges hk

theorem opens_of_le (hBits : info.nBits ≤ info.nBitsExt) (hExt : info.nBitsExt ≤ 32)
    (hthreads : threads.flatten.Perm (List.range (2 ^ info.nBits)))
    (hrows : info.evMap.length ≤ 2 ^ info.nBits) (hsize : info.evMap.length * 3 ≤ 2 ^ 31) :
    info.Opens G pAddress pConstPols2ns mem challenges threads evals := by
  have hsize' : info.evMap.length ≤ 2 ^ 32 := by omega
  obtain ⟨acc, hacc, hsums⟩ := reduce_eq hsize threads.length
    (info.evals_acc pAddress pConstPols2ns mem (LEv G info.nBits challenges) (LpEv G info.nBits challenges)
      threads)
  obtain ⟨evals', hevals, hget⟩ := write_eq pAddress pConstPols2ns hsize hrows (acc 0) evals
  refine ⟨info.indices_perm pAddress pConstPols2ns hsize', evals', ?_, fun i hi => ?_⟩
  · simp only [evmap, hacc, Option.bind_eq_bind, Option.bind_some, hevals]
  obtain ⟨kk, hkk, rfl⟩ := info.exists_indx pAddress pConstPols2ns hsize' hi
  have hω := G.w_primitive info.nBits (hBits.trans hExt)
  refine ⟨_, (onSubdomain_iff hBits hExt _ _).mpr (interpolates_interpolate hω G.shift_ne_zero _),
    fun P' hP' => ((onSubdomain_iff hBits hExt _ _).mp hP').eq hω G.shift_ne_zero, ?_⟩
  rw [hget kk hkk, hsums kk hkk, sum_term (hBits.trans hExt) hsize' hthreads hkk]

/-- More entries than rows, or than an `int` can index. -/
theorem not_opens (h : ¬(info.evMap.length ≤ 2 ^ info.nBits ∧ info.evMap.length * 3 ≤ 2 ^ 31)) :
    ¬info.Opens G pAddress pConstPols2ns mem challenges threads evals := by
  rintro ⟨-, evals', hevals, -⟩
  simp only [evmap, Option.bind_eq_bind] at hevals
  by_cases hsize : info.evMap.length * 3 ≤ 2 ^ 31
  · obtain ⟨acc, hacc, -⟩ := reduce_eq hsize threads.length
      (info.evals_acc pAddress pConstPols2ns mem (LEv G info.nBits challenges) (LpEv G info.nBits challenges)
        threads)
    rw [hacc, Option.bind_some, write_eq_none hsize fun hrows => h ⟨hrows, hsize⟩] at hevals
    cases hevals
  · rw [reduce_eq_none hsize, Option.bind_none] at hevals
    cases hevals

end Opening

/-- The evaluations are right when there are no more entries than rows, and every coordinate of an entry
has an index of type `int`. -/
theorem evmap_opens_iff (info : StarkInfo) (hBits : info.nBits ≤ info.nBitsExt) (hExt : info.nBitsExt ≤ 32)
    (pAddress pConstPols2ns : ℕ) (mem challenges : ℕ → F) (threads : List (List ℕ))
    (hthreads : threads.flatten.Perm (List.range (2 ^ info.nBits))) (evals : ℕ → F) :
    info.Opens G pAddress pConstPols2ns mem challenges threads evals ↔
      info.evMap.length ≤ 2 ^ info.nBits ∧ info.evMap.length * 3 ≤ 2 ^ 31 :=
  ⟨fun h => not_not.mp fun h' => not_opens h' h,
    fun h => opens_of_le hBits hExt hthreads h.1 h.2⟩

/-- Two rows, one constant column, and `n` entries that open it. -/
def twoRows (n : ℕ) : StarkInfo where
  nBits := 1
  nBitsExt := 2
  nConstants := 1
  varPolMap := fun _ => ⟨.cm1_2ns, 1, 0⟩
  mapOffsets := fun _ => 0
  mapSectionsN := fun _ => 1
  cm_2ns := fun _ => 0
  qs := fun _ => 0
  evMap := List.replicate n ⟨.const, 0, false⟩

theorem opens_twoRows : (twoRows 2).Opens goldilocks 0 100 (fun a => a) (fun a => a) [[1], [0]] fun _ => 0 :=
  (evmap_opens_iff goldilocks (twoRows 2) (by decide) (by decide) 0 100 _ _ [[1], [0]] (by decide) _).mpr
    ⟨by decide, by decide⟩

/-- The third evaluation is written behind the table of two rows. -/
theorem not_opens_twoRows :
    ¬(twoRows 3).Opens goldilocks 0 100 (fun a => a) (fun a => a) [[1], [0]] fun _ => 0 :=
  not_opens (by decide)

end StarkInfo

end ZkevmProver
