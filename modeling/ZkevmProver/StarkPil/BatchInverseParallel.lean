import Mathlib.Algebra.Field.ZMod
import ZkevmProver.StarkPil.BatchInverse

/-!
# Batch inversion in parallel

With `n` threads there are `n` parts, each of them with the products from its start on.  A level of
`computeMuls` multiplies the second half of each pair of parts by the last product of the first half; it
is cut into pieces of half a part, one for each thread.  A part of one element has no half.

  1. Within the parts.
  2. A level.
  3. All levels.
  4. The inverses.
  5. Parts of one element, and of none.
-/

namespace ZkevmProver

open Loops Threads

universe u

variable {E : Type u} [CommMonoidWithZero E] {b tbl : ℕ → E}

/-! ## Within the parts -/

/-- The digits of a number are unique. -/
theorem mul_add_inj {B q r q' r' : ℕ} (hr : r < B) (hr' : r' < B) (h : B * q + r = B * q' + r') :
    q = q' ∧ r = r' := by
  have hB : 0 < B := Nat.zero_lt_of_lt hr
  have hq : q = q' := by
    calc q = (B * q + r) / B := by rw [Nat.mul_add_div hB, Nat.div_eq_of_lt hr, Nat.add_zero]
      _ = (B * q' + r') / B := by rw [h]
      _ = q' := by rw [Nat.mul_add_div hB, Nat.div_eq_of_lt hr', Nat.add_zero]
  subst hq
  exact ⟨rfl, Nat.add_left_cancel h⟩

/-- The place of a number in the part it lies in. -/
theorem part_of_mul_add {P q r : ℕ} (hr : r < P) : (P * q + r) / P = q := by
  rw [Nat.mul_add_div (Nat.zero_lt_of_lt hr), Nat.div_eq_of_lt hr, Nat.add_zero]

theorem mulParts_products (order : (n m : ℕ) → Schedule n m) {n P : ℕ} (hP : 0 < P) {c : ℕ → E}
    (hstart : ∀ t < n, tbl (t * P) = b (t * P)) (hrest : ∀ i, 0 < i → c i = b i) :
    PartProducts b (n * P) P (mulParts order n P c tbl) := by
  have hwritten : Written {i | ∃ t < n, ∃ j < P - 1, j + 1 + t * P = i}
      (fun i => ∏ k ∈ Finset.Ico (i / P * P) (i + 1), b k) tbl (mulParts order n P c tbl) := by
    refine Schedule.written (order n (P - 1)) _ _ _ _ (fun t _ j hj t' _ j' hj' heq => ?_)
      fun t ht j hj s hs hprev _ => ?_
    · obtain ⟨rfl, hjj⟩ := @mul_add_inj P t (j + 1) t' (j' + 1) (by omega)
        (by omega) (by rw [Nat.mul_comm P, Nat.mul_comm P, Nat.add_comm, heq, Nat.add_comm])
      exact ⟨rfl, by omega⟩
    · have hpart : (j + 1 + t * P) / P = t := by
        rw [Nat.add_comm, Nat.mul_comm]
        exact part_of_mul_add (by omega)
      rw [hpart, Finset.prod_Ico_succ_top (by omega), hrest _ (by omega), Nat.add_sub_cancel]
      congr 1
      rcases Nat.eq_zero_or_pos j with rfl | hpos
      · -- the first element of the part is not written by this loop
        rw [Nat.zero_add, hs, hstart t ht, Nat.zero_add, Nat.add_comm, Finset.prod_Ico_succ_top (Nat.le_refl _),
          Finset.Ico_self, Finset.prod_empty, one_mul]
        intro t' _ j' hj' heq
        have hdigits := @mul_add_inj P t' (j' + 1) t 0 (by omega) hP
          (by rw [Nat.mul_comm P, Nat.mul_comm P, Nat.add_comm, heq, Nat.add_zero])
        exact Nat.succ_ne_zero j' hdigits.2
      · have hlast := hprev (j - 1) (by omega)
        have hpart' : (j + t * P) / P = t := by
          rw [Nat.add_comm, Nat.mul_comm]
          exact part_of_mul_add (by omega)
        rw [Nat.sub_add_cancel hpos] at hlast
        rw [hlast, hpart', Nat.add_right_comm]
  intro i hi
  have hmod := Nat.mod_lt i hP
  have hdiv : i / P < n := Nat.div_lt_of_lt_mul (Nat.mul_comm n P ▸ hi)
  have hi' := Nat.div_add_mod' i P
  rcases Nat.eq_zero_or_pos (i % P) with hzero | hpos
  · rw [hwritten.outside i, ← hi', hzero, Nat.add_zero, hstart _ hdiv, Nat.mul_div_cancel _ hP,
      Finset.prod_Ico_succ_top (Nat.le_refl _), Finset.Ico_self, Finset.prod_empty, one_mul]
    rintro ⟨t, _, j, hj, heq⟩
    have hdigits := @mul_add_inj P t (j + 1) (i / P) 0 (by omega) hP
      (by rw [Nat.mul_comm P, Nat.mul_comm P, Nat.add_comm, heq]; omega)
    exact Nat.succ_ne_zero j hdigits.2
  · exact hwritten.inside i ⟨i / P, hdiv, i % P - 1, by omega, by omega⟩

/-! ## A level -/

/-- A product within the second half of a part, and the last one of the first half. -/
theorem join_products {H p u i last : ℕ} (hH : 0 < H) (hi : i = H * (2 * p + 1) + u) (hu : u < H)
    (hlast : last + 1 = H * (2 * p + 1)) :
    (∏ k ∈ Finset.Ico (i / H * H) (i + 1), b k) * (∏ k ∈ Finset.Ico (last / H * H) (last + 1), b k) =
      ∏ k ∈ Finset.Ico (i / (2 * H) * (2 * H)) (i + 1), b k := by
  have hhalf : i / H = 2 * p + 1 := by
    rw [hi, part_of_mul_add hu]
  have hwhole : i / (2 * H) = p := by
    rw [hi, show H * (2 * p + 1) + u = 2 * H * p + (H + u) by ring, part_of_mul_add (by omega)]
  have hfirst : last / H = 2 * p := by
    have hlast' : last = H * (2 * p) + (H - 1) := by
      rw [Nat.mul_succ] at hlast
      omega
    rw [hlast', part_of_mul_add (by omega)]
  rw [hhalf, hwhole, hfirst, hlast, mul_comm, Nat.mul_comm (2 * p + 1),
    Finset.prod_Ico_consecutive b (by rw [Nat.mul_comm]; exact Nat.mul_le_mul_left H (Nat.le_succ _)) (by omega),
    show 2 * p * H = p * (2 * H) by ring]

/-- Where a thread of a level multiplies: parts of `2 * (T * c)` elements, `T` threads for each, `c` elements
for each thread. -/
theorem level_products (order : (n m : ℕ) → Schedule n m) {N T c : ℕ} (hT : 0 < T) (hc : 0 < c)
    (h : PartProducts b (N * (2 * (T * c))) (T * c) tbl) :
    PartProducts b (N * (2 * (T * c))) (2 * (T * c)) ((order (N * T) c).run
      (fun t j tbl => Function.update tbl (c * (t % T) + (T * c + t / T * (2 * (T * c))) + j)
        (tbl (c * (t % T) + (T * c + t / T * (2 * (T * c))) + j) *
          tbl (T * c + t / T * (2 * (T * c)) - 1))) tbl) := by
  have hH : 0 < T * c := Nat.mul_pos hT hc
  have hu : ∀ t, ∀ j < c, c * (t % T) + j < T * c := by
    intro t j hj
    calc c * (t % T) + j < c * (t % T) + c := Nat.add_lt_add_left hj _
      _ = c * (t % T + 1) := (Nat.mul_succ _ _).symm
      _ ≤ c * T := Nat.mul_le_mul_left c (Nat.mod_lt t hT)
      _ = T * c := Nat.mul_comm c T
  have hcell : ∀ t j, c * (t % T) + (T * c + t / T * (2 * (T * c))) + j =
      2 * (T * c) * (t / T) + (T * c + (c * (t % T) + j)) := by
    intro t j
    ring
  have hoffset : ∀ t, T * c + t / T * (2 * (T * c)) = T * c * (2 * (t / T) + 1) := by
    intro t
    ring
  generalize hdef : T * c = H at *
  have hend : ∀ q < N, 2 * H * q + 2 * H ≤ N * (2 * H) := by
    intro q hq
    rw [← Nat.mul_succ, Nat.mul_comm N]
    exact Nat.mul_le_mul_left _ hq
  have hpart : ∀ t < N * T, t / T < N := fun t ht => Nat.div_lt_of_lt_mul (Nat.mul_comm N T ▸ ht)
  have hwritten : Written {i | ∃ t < N * T, ∃ j < c, c * (t % T) + (H + t / T * (2 * H)) + j = i}
      (fun i => ∏ k ∈ Finset.Ico (i / (2 * H) * (2 * H)) (i + 1), b k) tbl ((order (N * T) c).run
        (fun t j tbl => Function.update tbl (c * (t % T) + (H + t / T * (2 * H)) + j)
          (tbl (c * (t % T) + (H + t / T * (2 * H)) + j) * tbl (H + t / T * (2 * H) - 1))) tbl) := by
    refine Schedule.written (order (N * T) c) _ _ _ _ (fun t _ j hj t' _ j' hj' heq => ?_)
      fun t ht j hj s hs _ hcur => ?_
    · rw [hcell, hcell] at heq
      have hlt := hu t j hj
      have hlt' := hu t' j' hj'
      obtain ⟨hdiv, hrest⟩ := mul_add_inj (by omega) (by omega) heq
      obtain ⟨hmod, rfl⟩ := mul_add_inj hj hj' (Nat.add_left_cancel hrest)
      exact ⟨by rw [← Nat.div_add_mod t T, hdiv, hmod, Nat.div_add_mod], rfl⟩
    · have hlt := hu t j hj
      have hq := hend (t / T) (hpart t ht)
      -- the last product of the first half is not written by this level
      have hlast : H + t / T * (2 * H) - 1 = 2 * H * (t / T) + (H - 1) := by
        rw [Nat.mul_comm (t / T)]
        omega
      rw [hcur, hs]
      · have hsecond : c * (t % T) + (H + t / T * (2 * H)) + j =
            H * (2 * (t / T) + 1) + (c * (t % T) + j) := by
          rw [← hoffset]
          omega
        have hfirst : H + t / T * (2 * H) - 1 = H * (2 * (t / T)) + (H - 1) := by
          rw [hlast, Nat.mul_comm 2, Nat.mul_assoc]
        rw [h _ (by rw [hcell]; omega), h _ (by rw [hlast]; omega)]
        refine join_products hH hsecond hlt ?_
        omega
      · rintro t' - j' hj' heq
        rw [hcell, hlast] at heq
        have hlt' := hu t' j' hj'
        have hdigits := mul_add_inj (by omega) (by omega) heq
        omega
  intro i hi
  have hi' := Nat.div_add_mod i (2 * H)
  have hmod := Nat.mod_lt i (show 0 < 2 * H by omega)
  have hdiv : i / (2 * H) < N := Nat.div_lt_of_lt_mul (Nat.mul_comm N _ ▸ hi)
  rcases Nat.lt_or_ge (i % (2 * H)) H with hfirst | hsecond
  · rw [hwritten.outside i, h i hi]
    · have hhalf : i / H = 2 * (i / (2 * H)) := by
        have hi'' : i = H * (2 * (i / (2 * H))) + i % (2 * H) := by
          rw [← Nat.mul_assoc, Nat.mul_comm H, hi']
        rw [hi'', part_of_mul_add hfirst, ← hi'']
      rw [hhalf, Nat.mul_comm 2, Nat.mul_assoc]
    · rintro ⟨t, _, j, hj, heq⟩
      rw [hcell, ← hi'] at heq
      have hlt := hu t j hj
      have hdigits := mul_add_inj (by omega) hmod heq
      omega
  · -- the piece that `i` lies in, and its thread
    have hpiece := Nat.div_add_mod (i % (2 * H) - H) c
    have hlt : (i % (2 * H) - H) / c < T := by
      apply Nat.div_lt_of_lt_mul
      rw [Nat.mul_comm c, hdef]
      omega
    have htdiv : (T * (i / (2 * H)) + (i % (2 * H) - H) / c) / T = i / (2 * H) := part_of_mul_add hlt
    have htmod : (T * (i / (2 * H)) + (i % (2 * H) - H) / c) % T = (i % (2 * H) - H) / c := by
      rw [Nat.mul_add_mod, Nat.mod_eq_of_lt hlt]
    refine hwritten.inside i ⟨T * (i / (2 * H)) + (i % (2 * H) - H) / c, ?_, (i % (2 * H) - H) % c,
      Nat.mod_lt _ hc, ?_⟩
    · calc T * (i / (2 * H)) + (i % (2 * H) - H) / c < T * (i / (2 * H)) + T := Nat.add_lt_add_left hlt _
        _ = T * (i / (2 * H) + 1) := (Nat.mul_succ _ _).symm
        _ ≤ T * N := Nat.mul_le_mul_left T hdiv
        _ = N * T := Nat.mul_comm T N
    · rw [hcell, htdiv, htmod]
      omega

/-! ## All levels -/

theorem computeMuls_step {order : ℕ → (n m : ℕ) → Schedule n m} {N T Q : ℕ} (hN : 0 < N) (hT : 0 < T)
    (hQ : 0 < Q) :
    computeMuls order (N * Q) (N * T) Q tbl = computeMuls order (N * Q) (N * T) (Q * 2)
      ((order Q (N * T) (Q / (2 * T))).run
        (fun t j tbl => Function.update tbl (Q / (2 * T) * (t % T) + (Q / 2 + t / T * Q) + j)
          (tbl (Q / (2 * T) * (t % T) + (Q / 2 + t / T * Q) + j) * tbl (Q / 2 + t / T * Q - 1))) tbl) := by
  have hle : Q ≤ N * Q := Nat.le_mul_of_pos_left Q hN
  rw [computeMuls, if_neg (Nat.not_lt.mpr hle), if_neg (Nat.ne_of_gt hQ)]
  dsimp only
  rw [Nat.mul_div_cancel N hQ, Nat.mul_div_cancel_left T hN, if_neg (Nat.ne_of_gt hT)]

theorem computeMuls_done {order : ℕ → (n m : ℕ) → Schedule n m} {size n Q : ℕ} (h : size < Q) :
    computeMuls order size n Q tbl = some tbl := by
  rw [computeMuls, if_pos h]

theorem computeMuls_products (order : ℕ → (n m : ℕ) → Schedule n m) (e : ℕ) {T c : ℕ} (hT : 0 < T)
    (hc : 0 < c) (h : PartProducts b (2 ^ e * (2 * (T * c))) (T * c) tbl) :
    ∃ tbl', computeMuls order (2 ^ e * (2 * (T * c))) (2 ^ e * T) (2 * (T * c)) tbl = some tbl' ∧
      PartProducts b (2 ^ e * (2 * (T * c))) (2 ^ e * (2 * (T * c))) tbl' := by
  induction e generalizing T tbl with
  | zero =>
    have hlevel := level_products (order (2 * (T * c))) hT hc h
    rw [computeMuls_step (by omega) hT (by positivity)]
    rw [show 2 * (T * c) / (2 * T) = c by rw [← Nat.mul_assoc]; exact Nat.mul_div_cancel_left c (by omega),
      Nat.mul_div_cancel_left _ Nat.two_pos, computeMuls_done (by have := Nat.mul_pos hT hc; omega)]
    refine ⟨_, rfl, ?_⟩
    simpa using hlevel
  | succ e ih =>
    have hlevel := level_products (order (2 * (T * c))) hT hc h
    rw [computeMuls_step (by positivity) hT (by positivity)]
    rw [show 2 * (T * c) / (2 * T) = c by rw [← Nat.mul_assoc]; exact Nat.mul_div_cancel_left c (by omega),
      Nat.mul_div_cancel_left _ Nat.two_pos]
    have hsize : 2 ^ (e + 1) * (2 * (T * c)) = 2 ^ e * (2 * (2 * T * c)) := by ring
    have hthreads : 2 ^ (e + 1) * T = 2 ^ e * (2 * T) := by ring
    have hpart : 2 * (T * c) * 2 = 2 * (2 * T * c) := by ring
    rw [hsize, hthreads] at hlevel ⊢
    rw [hpart]
    apply ih (by omega)
    rw [← Nat.mul_assoc 2 T c] at hlevel ⊢
    exact hlevel

/-- `computeMuls` as it is called, where there is one part or a part has two halves. -/
theorem products_of_parts (order : ℕ → (n m : ℕ) → Schedule n m) {a P : ℕ} (hP : 0 < P)
    (hhalves : a = 0 ∨ 2 ∣ P) (h : PartProducts b (2 ^ a * P) P tbl) :
    ∃ tbl', computeMuls order (2 ^ a * P) (2 ^ a) (2 * P) tbl = some tbl' ∧
      ∀ i < 2 ^ a * P, tbl' i = ∏ k ∈ Finset.Ico 0 (i + 1), b k := by
  cases a with
  | zero =>
    refine ⟨tbl, computeMuls_done (by omega), fun i hi => h.of_one_part (by omega) hi⟩
  | succ e =>
    obtain ⟨c, rfl⟩ := hhalves.resolve_left (Nat.succ_ne_zero e)
    have hsize : 2 ^ (e + 1) * (2 * c) = 2 ^ e * (2 * (2 * c)) := by ring
    rw [hsize] at h ⊢
    obtain ⟨tbl', heq, hproducts⟩ := computeMuls_products order e Nat.two_pos (by omega) h
    exact ⟨tbl', heq, fun i hi => hproducts.of_one_part (Nat.le_refl _) hi⟩

/-! ## The inverses -/

theorem prod_reversed {size : ℕ} (f : ℕ → E) (x : E) {i : ℕ} (hi : i < size) :
    ∏ k ∈ Finset.Ico 0 (i + 1), (if k = 0 then x else f (size - k)) =
      x * ∏ k ∈ Finset.Ico (size - i) size, f k := by
  induction i with
  | zero =>
    rw [Finset.prod_Ico_succ_top (Nat.le_refl 0), if_pos rfl, Finset.Ico_self, Finset.prod_empty, one_mul,
      Nat.sub_zero, Finset.Ico_self, Finset.prod_empty, mul_one]
  | succ i ih =>
    have hnext : size - (i + 1) + 1 = size - i := by omega
    rw [Finset.prod_Ico_succ_top (Nat.zero_le _), ih (by omega), if_neg (Nat.succ_ne_zero i), mul_assoc,
      ← hnext, mul_comm (∏ k ∈ _, _), Finset.prod_eq_prod_Ico_succ_bot (show size - (i + 1) < size by omega)]

theorem mul_cell_inj {P t t' : ℕ} (hP : 0 < P) (h : t * P = t' * P) : t = t' := Nat.eq_of_mul_eq_mul_right hP h

/-- The parts of `z`: the inverse `x` first, and then the elements from the last one on. -/
theorem reversed_parts (copyZ mulZ : (n m : ℕ) → Schedule n m) {n P : ℕ} (hP : 0 < P) (f : ℕ → E) (x : E) :
    PartProducts (fun k => if k = 0 then x else f (n * P - k)) (n * P) P
      (mulParts mulZ n P (fun i => f (n * P - i))
        (Function.update ((copyZ (n - 1) 1).run
          (fun t _ z => Function.update z (t * P + P) (f (n * P - t * P - P)))
            (Function.update (fun _ => 0) 0 x)) 0 x)) := by
  have hcopy := Schedule.written (copyZ (n - 1) 1) (fun t _ => t * P + P)
    (fun t _ _ => f (n * P - t * P - P)) (fun i => f (n * P - i))
    (Function.update (fun _ => 0) 0 x)
    (fun t _ j hj t' _ j' hj' heq => ⟨mul_cell_inj hP (Nat.add_right_cancel heq), by omega⟩)
    fun t _ _ _ _ _ _ _ => by rw [Nat.sub_sub]
  refine mulParts_products mulZ hP (fun t ht => ?_) fun i hi => ?_
  · cases t with
    | zero => rw [Nat.zero_mul, Function.update_self, if_pos rfl]
    | succ t =>
      have hpos : (t + 1) * P ≠ 0 := Nat.ne_of_gt (Nat.mul_pos (Nat.succ_pos t) hP)
      rw [Function.update_of_ne hpos, if_neg hpos]
      exact hcopy.inside _ ⟨t, by omega, 0, Nat.one_pos, (Nat.succ_mul t P).symm⟩
  · rw [if_neg (Nat.ne_of_gt hi)]

variable {ι : Type u} [DecidableEq ι] {inv : E → E} {order : Orders} {maxThreads a P : ℕ}
  {mem : ι × ℕ → E} {res src : ι}

variable (order res) in
theorem batchInverseParallel_of_parts (hinv : Inverts inv) (hn : parallelThreads maxThreads = 2 ^ a)
    (hP : 0 < P) (hhalves : a = 0 ∨ 2 ∣ P) (hne : ∀ i < 2 ^ a * P, mem (src, i) ≠ 0) :
    ∃ mem', batchInverseParallel inv order maxThreads (2 ^ a * P) mem res src = some mem' ∧
      ∀ i < 2 ^ a * P, mem' (res, i) = inv (mem (src, i)) := by
  have hthreads : 0 < 2 ^ a := Nat.two_pow_pos a
  have hsize : 0 < 2 ^ a * P := Nat.mul_pos hthreads hP
  have hcopy := Schedule.written (order .copyTmp (2 ^ a) 1) (fun t _ => t * P)
    (fun t _ _ => mem (src, t * P)) (fun i => mem (src, i)) (fun _ => 0)
    (fun t _ j hj t' _ j' hj' heq => ⟨mul_cell_inj hP heq, by omega⟩) fun _ _ _ _ _ _ _ _ => rfl
  obtain ⟨tmp, htmpEq, htmp⟩ := products_of_parts (fun Q => order (.computeMulsTmp Q)) hP hhalves
    (mulParts_products (order .mulTmp) (c := fun i => mem (src, i)) hP
      (fun t ht => hcopy.inside _ ⟨t, ht, 0, Nat.one_pos, rfl⟩) fun _ _ => rfl)
  obtain ⟨z, hzEq, hz⟩ := products_of_parts (fun Q => order (.computeMulsZ Q)) hP hhalves
    (reversed_parts (order .copyZ) (order .mulZ) (n := 2 ^ a) hP (fun i => mem (src, i))
      (inv (tmp (2 ^ a * P - 1))))
  have hresult := Schedule.written (order .result (2 ^ a * P - 1) 1) (fun i _ => (res, 2 ^ a * P - 1 - i))
    (fun i _ _ => z i * tmp (2 ^ a * P - 2 - i))
    (fun q => z (2 ^ a * P - 1 - q.2) * tmp (q.2 - 1)) mem
    (fun t ht j hj t' ht' j' hj' heq => by
      have heq' := congrArg Prod.snd heq
      dsimp only at heq'
      omega)
    fun i hi _ _ _ _ _ _ => by
      dsimp only
      congr 2 <;> omega
  refine ⟨Function.update ((order .result (2 ^ a * P - 1) 1).run (fun i _ mem =>
    Function.update mem (res, 2 ^ a * P - 1 - i) (z i * tmp (2 ^ a * P - 2 - i))) mem) (res, 0)
      (z (2 ^ a * P - 1)), ?_, fun i hi => ?_⟩
  · unfold batchInverseParallel
    dsimp only
    rw [hn, if_neg (Nat.ne_of_gt hthreads), Nat.mul_div_cancel_left P hthreads, htmpEq,
      Option.bind_eq_bind, Option.bind_some, hzEq]
    rfl
  · have htotal : tmp (2 ^ a * P - 1) = ∏ k ∈ Finset.Ico 0 (2 ^ a * P), mem (src, k) := by
      rw [htmp _ (by omega), Nat.sub_add_cancel hsize]
    have hrest := hinv.inv_mul_rest hne hi
    rcases Nat.eq_zero_or_pos i with rfl | hpos
    · rw [Function.update_self, hz _ (by omega), prod_reversed (fun k => mem (src, k)) _ (by omega), htotal]
      rwa [Finset.Ico_self, Finset.prod_empty, mul_one,
        show 0 + 1 = 2 ^ a * P - (2 ^ a * P - 1) by omega] at hrest
    · rw [Function.update_of_ne (by simp only [ne_eq, Prod.mk.injEq, not_and]; omega),
        hresult.inside (res, i) ⟨2 ^ a * P - 1 - i, by omega, 0, Nat.one_pos, by
          rw [Nat.sub_sub_self (by omega)]⟩]
      dsimp only
      rw [hz _ (by omega), prod_reversed (fun k => mem (src, k)) _ (by omega), htotal, htmp _ (by omega),
        Nat.sub_add_cancel hpos, show 2 ^ a * P - (2 ^ a * P - 1 - i) = i + 1 by omega]
      exact hrest

/-! ## Parts of one element, and of none -/

/-- A part of one element has no second half, so that nothing is multiplied. -/
theorem computeMuls_one {order : ℕ → (n m : ℕ) → Schedule n m} (e : ℕ) {T : ℕ} (hT : 0 < T) :
    computeMuls order (2 ^ e * T) (2 ^ e * T) T tbl = some tbl := by
  induction e generalizing T with
  | zero =>
    rw [computeMuls_step (by omega) hT hT, Nat.div_eq_of_lt (show T < 2 * T by omega), Schedule.run_zero,
      computeMuls_done (by omega)]
  | succ e ih =>
    have hsize : 2 ^ (e + 1) * T = 2 ^ e * (T * 2) := by ring
    rw [computeMuls_step (by positivity) hT hT, Nat.div_eq_of_lt (show T < 2 * T by omega),
      Schedule.run_zero, hsize]
    exact ih (by omega)

theorem computeMuls_zero {order : ℕ → (n m : ℕ) → Schedule n m} {size n : ℕ} :
    computeMuls order size n 0 tbl = none := by
  rw [computeMuls, if_neg (Nat.not_lt_zero size), if_pos rfl]

/-- There are more threads than elements. -/
theorem batchInverseParallel_of_lt {size : ℕ} (h : size < parallelThreads maxThreads) :
    batchInverseParallel inv order maxThreads size mem res src = none := by
  unfold batchInverseParallel
  dsimp only
  rw [if_neg (Nat.ne_of_gt (Nat.zero_lt_of_lt h)), Nat.div_eq_of_lt h, Nat.mul_zero, computeMuls_zero]
  rfl

theorem batchInverseParallel_of_no_threads {size : ℕ} (h : parallelThreads maxThreads = 0) :
    batchInverseParallel inv order maxThreads size mem res src = none := by
  unfold batchInverseParallel
  dsimp only
  rw [if_pos h]

/-- There are as many threads as elements: the first result is the second element. -/
theorem batchInverseParallel_of_eq {e : ℕ} (hn : parallelThreads maxThreads = 2 ^ (e + 1)) {mem' : ι × ℕ → E}
    (h : batchInverseParallel inv order maxThreads (2 ^ (e + 1)) mem res src = some mem') :
    mem' (res, 0) = mem (src, 1) := by
  have hthreads : 0 < 2 ^ (e + 1) := Nat.two_pow_pos _
  have htwo : 2 ≤ 2 ^ (e + 1) := by
    rw [Nat.pow_succ]
    have := Nat.two_pow_pos e
    omega
  have hone (ord : ℕ → (n m : ℕ) → Schedule n m) (tbl : ℕ → E) :
      computeMuls ord (2 ^ (e + 1)) (2 ^ (e + 1)) (2 * 1) tbl = some tbl :=
    computeMuls_one e Nat.two_pos
  unfold batchInverseParallel at h
  dsimp only at h
  rw [hn, if_neg (Nat.ne_of_gt hthreads), Nat.div_self hthreads, hone, Option.bind_eq_bind,
    Option.bind_some, hone, Option.bind_some] at h
  rw [← Option.some_inj.mp h, Function.update_self]
  have hz := reversed_parts (order .copyZ) (order .mulZ) (n := 2 ^ (e + 1)) Nat.one_pos
    (fun i => mem (src, i)) (inv (mulParts (order .mulTmp) (2 ^ (e + 1)) 1 (fun i => mem (src, i))
      ((order .copyTmp (2 ^ (e + 1)) 1).run
        (fun t _ tmp => Function.update tmp (t * 1) (mem (src, t * 1))) fun _ => 0) (2 ^ (e + 1) - 1)))
  have hlast := hz (2 ^ (e + 1) - 1) (by omega)
  simp only [Nat.mul_one] at hlast ⊢
  rw [hlast, Nat.div_one, Nat.sub_add_cancel (by omega), Nat.Ico_pred_singleton hthreads,
    Finset.prod_singleton, if_neg (by omega), Nat.sub_sub_self (by omega)]

theorem parallelThreads_of_lt (h : maxThreads < 4) : parallelThreads maxThreads = 0 := by
  have hlog : Nat.log 2 maxThreads < 2 := Nat.log_lt_of_lt_pow' (by decide) h
  unfold parallelThreads
  apply Nat.div_eq_of_lt
  exact Nat.pow_lt_pow_right (Nat.lt_succ_self 1) hlog

theorem parallelThreads_of_ge (h : 4 ≤ maxThreads) :
    ∃ a, parallelThreads maxThreads = 2 ^ a ∧ (a = 0 ↔ maxThreads < 8) := by
  have hlog : 2 ≤ Nat.log 2 maxThreads := Nat.le_log_of_pow_le (Nat.lt_succ_self 1) h
  refine ⟨Nat.log 2 maxThreads - 2, ?_, ?_⟩
  · unfold parallelThreads
    exact Nat.pow_div hlog Nat.two_pos
  · have hiff : maxThreads < 2 ^ 3 ↔ Nat.log 2 maxThreads < 3 :=
      (Nat.log_lt_iff_lt_pow (Nat.lt_succ_self 1) (by omega)).symm
    rw [show 2 ^ 3 = 8 from rfl] at hiff
    omega

/-- **The parallel batch inversion inverts every element**, in place or not and in whatever order the threads
take turns, exactly if there are four threads, and each of the parts has two halves if there are more than
one. -/
theorem batchInverseParallel_iff {F ι : Type u} [Field F] [DecidableEq ι] (inv : Element3 F → Element3 F)
    (hinv : ∀ a : Element3 F, a ≠ 0 → a * inv a = 1) (order : Orders) (maxThreads k : ℕ) (res src : ι) :
    (∀ mem : ι × ℕ → Element3 F, (∀ i < 2 ^ k, mem (src, i) ≠ 0) →
      ∃ mem', batchInverseParallel inv order maxThreads (2 ^ k) mem res src = some mem' ∧
        ∀ i < 2 ^ k, mem' (res, i) = inv (mem (src, i)) ∧
          mem' (res, i) = batchInverse inv (2 ^ k) mem res src (res, i)) ↔
    4 ≤ maxThreads ∧ (maxThreads < 8 ∨ 2 * parallelThreads maxThreads ≤ 2 ^ k) := by
  have hone : (1 : Element3 F) ≠ 0 := fun h => one_ne_zero (congrArg Element3.c0 h)
  have hinverts : Inverts inv := ⟨hinv, hone⟩
  constructor
  · intro h
    have hones := h (fun _ => 1) fun _ _ => hone
    rcases Nat.lt_or_ge maxThreads 4 with hlt | hge
    · rw [batchInverseParallel_of_no_threads (parallelThreads_of_lt hlt)] at hones
      obtain ⟨mem', hnone, -⟩ := hones
      cases hnone
    · obtain ⟨a, ha, ha0⟩ := parallelThreads_of_ge hge
      refine ⟨hge, ?_⟩
      by_contra hcon
      rw [not_or, ← ha0, ha, Nat.not_le, ← Nat.pow_succ', Nat.pow_lt_pow_iff_right (Nat.lt_succ_self 1)] at hcon
      obtain ⟨hpos, hle⟩ := hcon
      rcases Nat.lt_or_ge k a with hlt | hge
      · rw [batchInverseParallel_of_lt (ha ▸ Nat.pow_lt_pow_right (Nat.lt_succ_self 1) hlt)] at hones
        obtain ⟨mem', hnone, -⟩ := hones
        cases hnone
      · obtain ⟨e, rfl⟩ := Nat.exists_eq_succ_of_ne_zero hpos
        obtain rfl : k = e + 1 := by omega
        let mem : ι × ℕ → Element3 F := fun q => if q.2 = 1 then ⟨0, 1, 0⟩ else 1
        have hne : ∀ i < 2 ^ (e + 1), mem (src, i) ≠ 0 := by
          intro i _
          by_cases hi : i = 1
          · rw [show mem (src, i) = ⟨0, 1, 0⟩ from if_pos hi]
            exact fun h => one_ne_zero (congrArg Element3.c1 h)
          · rw [show mem (src, i) = 1 from if_neg hi]
            exact hone
        obtain ⟨mem', heq, hres⟩ := h mem hne
        have hfirst := (hres 0 (Nat.two_pow_pos _)).1
        rw [batchInverseParallel_of_eq ha heq, show mem (src, 0) = 1 from rfl,
          ← hinverts.eq_inv hone (one_mul 1)] at hfirst
        exact zero_ne_one (congrArg Element3.c0 hfirst)
  · rintro ⟨hge, hparts⟩ mem hne
    obtain ⟨a, ha, ha0⟩ := parallelThreads_of_ge hge
    rw [← ha0, ha, ← Nat.pow_succ', Nat.pow_le_pow_iff_right (Nat.lt_succ_self 1)] at hparts
    have hk : 2 ^ k = 2 ^ a * 2 ^ (k - a) := by
      rw [← Nat.pow_add, Nat.add_sub_cancel' (by omega)]
    have hhalves : a = 0 ∨ 2 ∣ 2 ^ (k - a) :=
      hparts.imp id fun hle => dvd_pow_self 2 (by omega)
    obtain ⟨mem', heq, hres⟩ := batchInverseParallel_of_parts order res hinverts ha
      (Nat.two_pow_pos (k - a)) hhalves (hk ▸ hne)
    rw [← hk] at heq hres
    refine ⟨mem', heq, fun i hi => ⟨hres i hi, ?_⟩⟩
    rw [hres i hi, batchInverse_eq hinverts hne res hi]

/-- The field of eight elements, sixteen threads available, and a polynomial of eight elements that is
inverted in place. -/
theorem batchInverseParallel_iff_sample :
    (∀ mem : Unit × ℕ → Element3 (ZMod 2), (∀ i < 2 ^ 3, mem ((), i) ≠ 0) →
      ∃ mem', batchInverseParallel (fun a => a ^ 6) (fun _ => Schedule.sequential) 16 (2 ^ 3) mem () () =
          some mem' ∧
        ∀ i < 2 ^ 3, mem' ((), i) = mem ((), i) ^ 6 ∧
          mem' ((), i) = batchInverse (fun a => a ^ 6) (2 ^ 3) mem () () ((), i)) ↔
    4 ≤ 16 ∧ (16 < 8 ∨ 2 * parallelThreads 16 ≤ 2 ^ 3) := by
  have hinv : ∀ a : Element3 (ZMod 2), a ≠ 0 → a * a ^ 6 = 1 := by
    rintro ⟨c0, c1, c2⟩
    revert c0 c1 c2
    decide
  exact batchInverseParallel_iff (fun a => a ^ 6) hinv (fun _ => Schedule.sequential) 16 3 () ()

/-- One thread is available, and a division by zero ends the program; or sixteen are, four of them are used,
and the first of four elements is not inverted. -/
theorem batchInverseParallel_fails :
    batchInverseParallel (fun a => a ^ 6) (fun _ => Schedule.sequential) 1 8
      (fun _ : Unit × ℕ => (1 : Element3 (ZMod 2))) () () = none ∧
    ¬ ∃ mem', batchInverseParallel (fun a => a ^ 6) (fun _ => Schedule.sequential) 16 4
        (fun q : Unit × ℕ => if q.2 = 1 then (⟨0, 1, 0⟩ : Element3 (ZMod 2)) else 1) () () = some mem' ∧
      mem' ((), 0) = 1 ^ 6 := by
  constructor
  · apply batchInverseParallel_of_no_threads
    exact parallelThreads_of_lt (by decide)
  · rintro ⟨mem', heq, hfirst⟩
    have hthreads : parallelThreads 16 = 2 ^ (1 + 1) := by
      rw [parallelThreads, Nat.log_eq_of_pow_le_of_lt_pow (m := 4) (by decide) (by decide)]
      rfl
    rw [batchInverseParallel_of_eq hthreads heq, if_pos rfl] at hfirst
    exact absurd hfirst (by decide)

end ZkevmProver
