import ZkevmProver.SM.MemAlignCheck
import ZkevmProver.SM.Padding
import Mathlib.Algebra.BigOperators.Group.Finset.Piecewise

/-!
# The rows of a `memAlign` operation

Each polynomial is a column that the loops of the executor write on their own.

  1. Bytes and limbs.
  2. The columns of single bytes.
  3. The columns of limbs.
  4. The limbs of the value.
-/

namespace ZkevmProver.MemAlignExecutor

open Function

/-! ## Bytes and limbs -/

theorem getByte_eq (x i : ℕ) : getByte x i = x / 256 ^ i % 256 := by
  unfold getByte
  have h256 : 256 ^ i = 2 ^ (8 * i) := by rw [Nat.pow_mul]
  rw [Nat.shiftRight_eq_div_pow, h256]
  exact Nat.and_two_pow_sub_one_eq_mod _ 8

theorem getByte_lt (x i : ℕ) : getByte x i < 256 := by
  rw [getByte_eq]
  exact Nat.mod_lt _ (by decide)

@[simp] theorem getByte_zero (i : ℕ) : getByte 0 i = 0 := by
  rw [getByte_eq, Nat.zero_div, Nat.zero_mod]

/-- A limb and its four bytes. -/
theorem limb_eq_bytes (x k : ℕ) :
    limb x k = fromU64 (getByte x (4 * k + 3) * 256 ^ 3 + getByte x (4 * k + 2) * 256 ^ 2 +
      getByte x (4 * k + 1) * 256 + getByte x (4 * k)) := by
  unfold limb
  have hbyte (r : ℕ) : getByte x (4 * k + r) = x >>> (32 * k) / 256 ^ r % 256 := by
    rw [getByte_eq, Nat.shiftRight_eq_div_pow, Nat.div_div_eq_div_mul]
    congr 2
    rw [Nat.pow_add, Nat.pow_mul, Nat.pow_mul]
  have hzero := hbyte 0
  rw [Nat.add_zero] at hzero
  rw [hbyte, hbyte, hbyte, hzero]
  congr 1
  omega

/-! ## The columns of single bytes -/

/-- A loop that writes one row after the other. -/
theorem foldl_update (c : ℕ → Fe) (base : ℕ) (x : ℕ → Fe) (n : ℕ) :
    (List.range n).foldl (fun c j => update c (base + j) (x j)) c =
      fun q => if base ≤ q ∧ q < base + n then x (q - base) else c q := by
  induction n with
  | zero =>
    funext q
    rw [List.range_zero, List.foldl_nil, if_neg (by omega)]
  | succ n ih =>
    rw [List.range_succ, List.foldl_append, ih, List.foldl_cons, List.foldl_nil]
    funext q
    by_cases hq : q = base + n
    · subst hq
      rw [update_self, if_pos (by omega), Nat.add_sub_cancel_left]
    · rw [update_of_ne hq]
      by_cases hlt : base ≤ q ∧ q < base + n
      · rw [if_pos hlt, if_pos (by omega)]
      · rw [if_neg hlt, if_neg (by omega)]

/-! ## The columns of limbs -/

/-- A limb with its bytes up to that of row `j`; `b j` is the byte of row `j`. -/
def limbPart (b : ℕ → ℕ) (j : ℕ) : ℕ :=
  ∑ r ∈ Finset.range (j % 4 + 1), b (4 * (j / 4) + r) * factors (3 - r)

theorem limbPart_start (b : ℕ → ℕ) {j : ℕ} (hj : j % 4 = 0) :
    limbPart b j = b j * factors (3 - j % 4) := by
  unfold limbPart
  rw [hj, Finset.sum_range_one, (by omega : 4 * (j / 4) + 0 = j)]

theorem limbPart_succ (b : ℕ → ℕ) {j : ℕ} (hj : (j + 1) % 4 ≠ 0) :
    limbPart b (j + 1) = limbPart b j + b (j + 1) * factors (3 - (j + 1) % 4) := by
  unfold limbPart
  have hmod : (j + 1) % 4 = j % 4 + 1 := by omega
  have hdiv : (j + 1) / 4 = j / 4 := by omega
  rw [hmod, hdiv, Finset.sum_range_succ, (by omega : 4 * (j / 4) + (j % 4 + 1) = j + 1)]

theorem limbPart_lt {b : ℕ → ℕ} (hb : ∀ j, b j < 256) (j : ℕ) : limbPart b j < 2 ^ 32 := by
  unfold limbPart factors
  have h0 := hb (4 * (j / 4) + 0)
  have h1 := hb (4 * (j / 4) + 1)
  have h2 := hb (4 * (j / 4) + 2)
  have h3 := hb (4 * (j / 4) + 3)
  have hmod : j % 4 < 4 := Nat.mod_lt _ (by decide)
  generalize j % 4 = r at hmod
  rcases (by omega : r = 0 ∨ r = 1 ∨ r = 2 ∨ r = 3) with rfl | rfl | rfl | rfl <;>
    simp only [Finset.sum_range_succ, Finset.sum_range_zero] <;> omega

/-- The limb that row `j` is part of. -/
def limbOf (j : ℕ) : ℕ := 7 - j / 4

/-- The bytes of the first `n` rows have been added to their limbs. -/
structure BytesAdded (base : ℕ) (b : ℕ → ℕ) (c₀ : Fin 8 → ℕ → Fe) (n : ℕ)
    (c : Fin 8 → ℕ → Fe) : Prop where
  added : ∀ j < n, ∀ k : Fin 8, k.val = limbOf j → c k (base + 1 + j) = fromU64 (limbPart b j)
  other : ∀ (k : Fin 8) (q : ℕ), (∀ j < n, k.val = limbOf j → q ≠ base + 1 + j) → c k q = c₀ k q

section Limbs

variable {base : ℕ} {b : ℕ → ℕ} {c₀ c : Fin 8 → ℕ → Fe}

theorem BytesAdded.step (hb : ∀ j, b j < 256) (hfresh : ∀ k q, base < q → c₀ k q = 0) {n : ℕ}
    (hn : n < 32) (h : BytesAdded base b c₀ n c) :
    BytesAdded base b c₀ (n + 1) (addByte base n (b n) c) := by
  have hindex : (Fin.ofNat 8 (7 - (n >>> 2))).val = limbOf n := by
    rw [Fin.val_ofNat, Nat.shiftRight_eq_div_pow]
    unfold limbOf
    omega
  generalize hm : Fin.ofNat 8 (7 - (n >>> 2)) = m at hindex
  have hvalue : (if n = 0 then 0 else toU64 (c m (base + n))) + b n * factors (3 - n % 4) =
      limbPart b n := by
    by_cases hstart : n % 4 = 0
    · rw [limbPart_start b hstart]
      by_cases h0 : n = 0
      · rw [if_pos h0, Nat.zero_add]
      · -- the first byte of its limb: nothing has been added to it
        have hzero : c m (base + n) = 0 := by
          rw [h.other m (base + n), hfresh m _ (by omega)]
          intro j hj hlimb heq
          rw [hindex] at hlimb
          unfold limbOf at hlimb
          omega
        rw [if_neg h0, hzero]
        exact Nat.zero_add _
    · obtain ⟨j, rfl⟩ : ∃ j, n = j + 1 := ⟨n - 1, by omega⟩
      have hlimb : m.val = limbOf j := by
        rw [hindex]
        unfold limbOf
        omega
      have hlast := h.added j (Nat.lt_succ_self j) m hlimb
      rw [Nat.add_right_comm, Nat.add_assoc] at hlast
      rw [if_neg (Nat.succ_ne_zero j), hlast, limbPart_succ b hstart,
        toU64_fromU64 ((limbPart_lt hb j).trans (by decide))]
  constructor
  · intro j hj k hk
    unfold addByte
    rw [hm, hvalue]
    by_cases hkm : k = m
    · subst hkm
      rw [update_self]
      by_cases hjn : j = n
      · subst hjn
        rw [update_self]
      · rw [update_of_ne (by omega), h.added j (by omega) k hk]
    · have hjn : j ≠ n := by
        rintro rfl
        exact hkm (Fin.ext (hk.trans hindex.symm))
      rw [update_of_ne hkm, h.added j (by omega) k hk]
  · intro k q hq
    have hold : c k q = c₀ k q := h.other k q fun j hj => hq j (Nat.lt_succ_of_lt hj)
    unfold addByte
    rw [hm]
    by_cases hkm : k = m
    · subst hkm
      rw [update_self, update_of_ne (hq n (Nat.lt_succ_self n) hindex), hold]
    · rw [update_of_ne hkm, hold]

theorem bytesAdded (hb : ∀ j, b j < 256) (hfresh : ∀ k q, base < q → c₀ k q = 0) {n : ℕ}
    (hn : n ≤ 32) :
    BytesAdded base b c₀ n ((List.range n).foldl (fun c j => addByte base j (b j) c) c₀) := by
  induction n with
  | zero => exact ⟨fun j hj => absurd hj (Nat.not_lt_zero j), fun _ _ _ => rfl⟩
  | succ n ih =>
    rw [List.range_succ, List.foldl_append, List.foldl_cons, List.foldl_nil]
    exact (ih (Nat.le_of_succ_le hn)).step hb hfresh hn

/-- The limb `k` goes on from row `start`. -/
theorem foldl_copyLimb (base : ℕ) (k : Fin 8) (start : ℕ) (c : Fin 8 → ℕ → Fe) (n : ℕ) :
    (List.range' start n).foldl (fun c j => copyLimb base k j c) c =
      update c k fun q => if base + start ≤ q ∧ q ≤ base + start + n then c k (base + start)
        else c k q := by
  induction n with
  | zero =>
    rw [List.range'_zero, List.foldl_nil]
    funext k' q
    by_cases hk : k' = k
    · subst hk
      rw [update_self]
      split
      · rw [(by omega : q = base + start)]
      · rfl
    · rw [update_of_ne hk]
  | succ n ih =>
    rw [List.range'_1_concat, List.foldl_append, ih, List.foldl_cons, List.foldl_nil]
    unfold copyLimb
    funext k' q
    by_cases hk : k' = k
    · subst hk
      simp only [update_self]
      by_cases hq : q = base + (start + n) + 1
      · subst hq
        rw [update_self, if_pos (by omega), if_pos (by omega)]
      · rw [update_of_ne hq]
        by_cases hle : base + start ≤ q ∧ q ≤ base + start + n
        · rw [if_pos hle, if_pos (by omega)]
        · rw [if_neg hle, if_neg (by omega)]
    · rw [update_of_ne hk, update_of_ne hk, update_of_ne hk]

/-- The rows to which limb `k` goes on. -/
def copied (base : ℕ) (k : Fin 8) (q : ℕ) : Prop := base + 32 - 4 * k ≤ q ∧ q ≤ base + 32

instance (base : ℕ) (k : Fin 8) (q : ℕ) : Decidable (copied base k q) := by
  unfold copied
  infer_instance

theorem foldl_copyRows (base : ℕ) (c : Fin 8 → ℕ → Fe) {ks : List (Fin 8)} (hks : ks.Nodup) :
    ks.foldl (fun c (k : Fin 8) => (List.range' (32 - k * 4) (k * 4)).foldl
      (fun c j => copyLimb base k j c) c) c =
      fun k q => if k ∈ ks ∧ copied base k q then c k (base + 32 - 4 * k) else c k q := by
  induction ks generalizing c with
  | nil => rfl
  | cons k ks ih =>
    obtain ⟨hk, hks⟩ := List.nodup_cons.mp hks
    rw [List.foldl_cons, foldl_copyLimb, ih _ hks]
    funext k' q
    have hlt : k.val < 8 := k.isLt
    by_cases hkk : k' = k
    · subst hkk
      simp only [update_self, hk, false_and, if_false, List.mem_cons, true_or, true_and]
      have hstart : base + (32 - k'.val * 4) = base + 32 - 4 * k'.val := by omega
      rw [hstart]
      unfold copied
      exact if_congr (by omega) rfl rfl
    · simp only [update_of_ne hkk, List.mem_cons, hkk, false_or]

/-- The last row has the limbs of the bytes, and only the rows of the action have changed. -/
theorem limbs_spec (hb : ∀ j, b j < 256) (hfresh : ∀ k q, base < q → c₀ k q = 0)
    (hc : c = (List.finRange 8).foldl (fun c (k : Fin 8) => (List.range' (32 - k * 4) (k * 4)).foldl
      (fun c j => copyLimb base k j c) c)
      ((List.range 32).foldl (fun c j => addByte base j (b j) c) c₀)) :
    (∀ k : Fin 8, c k (base + 32) = fromU64 (limbPart b (31 - 4 * k))) ∧
      ∀ k q, q ≤ base ∨ base + 32 < q → c k q = c₀ k q := by
  have hadd := bytesAdded hb hfresh le_rfl
  rw [foldl_copyRows base _ (List.nodup_finRange 8)] at hc
  subst hc
  constructor
  · intro k
    have hlt : k.val < 8 := k.isLt
    dsimp only
    rw [if_pos ⟨List.mem_finRange k, by unfold copied; omega⟩]
    have hrow : base + 32 - 4 * k.val = base + 1 + (31 - 4 * k.val) := by omega
    rw [hrow]
    exact hadd.added _ (by omega) k (by unfold limbOf; omega)
  · intro k q hq
    have hlt : k.val < 8 := k.isLt
    have hsame := hadd.other k q fun j hj _ => by omega
    dsimp only
    by_cases hcopied : copied base k q
    · -- only the limb 0 of a row of the action before
      unfold copied at hcopied
      omega
    · rw [if_neg fun h => hcopied h.2, hsame]

end Limbs

/-! ## The limbs of the value -/

/-- A column that sums up what the rows bring. -/
theorem foldl_sum (c : ℕ → Fe) (base : ℕ) (x : ℕ → ℕ) (n : ℕ) :
    let c' := (List.range n).foldl (fun c j =>
      update c (base + 1 + j) ((if j = 0 then 0 else c (base + j)) + fromU64 (x j))) c
    (n ≠ 0 → c' (base + n) = fromU64 (∑ j ∈ Finset.range n, x j)) ∧
      ∀ q, q ≤ base ∨ base + n < q → c' q = c q := by
  induction n with
  | zero => exact ⟨fun h => absurd rfl h, fun _ _ => rfl⟩
  | succ n ih =>
    obtain ⟨hsum, hframe⟩ := ih
    dsimp only
    rw [List.range_succ, List.foldl_append, List.foldl_cons, List.foldl_nil]
    constructor
    · intro _
      rw [(by omega : base + (n + 1) = base + 1 + n), update_self, Finset.sum_range_succ,
        fromU64_add]
      by_cases hn : n = 0
      · subst hn
        rw [if_pos rfl, Finset.sum_range_zero]
        rfl
      · rw [if_neg hn, hsum hn]
    · intro q hq
      rw [update_of_ne (by omega), hframe q (by omega)]

/-- The factors that the rows of an action set. -/
theorem foldl_factors (f : Fin 8 → ℕ → Fe) (base : ℕ) (index : ℕ → Fin 8) (y : ℕ → Fe) (n : ℕ) :
    (List.range n).foldl (fun f j =>
      update f (index j) (update (f (index j)) (base + j) (y j))) f =
      fun k q => if base ≤ q ∧ q < base + n ∧ index (q - base) = k then y (q - base) else f k q := by
  induction n with
  | zero =>
    funext k q
    rw [List.range_zero, List.foldl_nil, if_neg (by omega)]
  | succ n ih =>
    rw [List.range_succ, List.foldl_append, ih, List.foldl_cons, List.foldl_nil]
    funext k q
    by_cases hq : q = base + n
    · subst hq
      rw [Nat.add_sub_cancel_left]
      by_cases hk : index n = k
      · subst hk
        rw [update_self, update_self, if_pos ⟨by omega, by omega, rfl⟩]
      · rw [update_of_ne (Ne.symm hk), if_neg (by omega), if_neg fun h => hk h.2.2]
    · have hiff : base ≤ q ∧ q < base + n ∧ index (q - base) = k ↔
          base ≤ q ∧ q < base + (n + 1) ∧ index (q - base) = k := by
        rw [(by omega : q < base + (n + 1) ↔ q < base + n)]
      by_cases hk : index n = k
      · subst hk
        rw [update_self, update_of_ne hq]
        exact if_congr hiff rfl rfl
      · rw [update_of_ne (Ne.symm hk)]
        exact if_congr hiff rfl rfl

theorem sum_range_four (g : ℕ → ℕ) (m : ℕ) :
    ∑ b ∈ Finset.range (4 * m), g b =
      ∑ i ∈ Finset.range m, (g (4 * i) + g (4 * i + 1) + g (4 * i + 2) + g (4 * i + 3)) := by
  induction m with
  | zero => rfl
  | succ m ih =>
    rw [(by omega : 4 * (m + 1) = 4 * m + 1 + 1 + 1 + 1), Finset.sum_range_succ,
      Finset.sum_range_succ, Finset.sum_range_succ, Finset.sum_range_succ, ih,
      Finset.sum_range_succ]
    omega

/-- The rows go through all bytes of the value, from some byte on downwards; those of limb `k` have
its factors. -/
theorem sum_value (v s : ℕ) (k : Fin 8) :
    fromU64 (∑ j ∈ Finset.range 32, getByte v ((31 + s - j) % 32) *
      (if (31 + s - j) % 32 / 4 = k then factors ((31 + s - j) % 32 % 4) else 0)) =
      limb v k := by
  have hperm : ∑ j ∈ Finset.range 32, getByte v ((31 + s - j) % 32) *
      (if (31 + s - j) % 32 / 4 = k then factors ((31 + s - j) % 32 % 4) else 0) =
      ∑ i ∈ Finset.range (4 * 8), getByte v i * (if i / 4 = k then factors (i % 4) else 0) := by
    refine Finset.sum_nbij' (fun j => (31 + s - j) % 32) (fun j => (31 + s - j) % 32) ?_ ?_ ?_ ?_
      fun _ _ => rfl
    · intro j _
      exact Finset.mem_range.mpr (Nat.mod_lt _ (by decide))
    · intro j _
      exact Finset.mem_range.mpr (Nat.mod_lt _ (by decide))
    · intro j hj
      have := Finset.mem_range.mp hj
      omega
    · intro j hj
      have := Finset.mem_range.mp hj
      omega
  have hlimb (i : ℕ) : getByte v (4 * i) * (if 4 * i / 4 = k then factors (4 * i % 4) else 0) +
      getByte v (4 * i + 1) * (if (4 * i + 1) / 4 = k then factors ((4 * i + 1) % 4) else 0) +
      getByte v (4 * i + 2) * (if (4 * i + 2) / 4 = k then factors ((4 * i + 2) % 4) else 0) +
      getByte v (4 * i + 3) * (if (4 * i + 3) / 4 = k then factors ((4 * i + 3) % 4) else 0) =
      if i = k then getByte v (4 * i + 3) * 256 ^ 3 + getByte v (4 * i + 2) * 256 ^ 2 +
        getByte v (4 * i + 1) * 256 + getByte v (4 * i) else 0 := by
    have h0 : 4 * i / 4 = i ∧ 4 * i % 4 = 0 := by omega
    have h1 : (4 * i + 1) / 4 = i ∧ (4 * i + 1) % 4 = 1 := by omega
    have h2 : (4 * i + 2) / 4 = i ∧ (4 * i + 2) % 4 = 2 := by omega
    have h3 : (4 * i + 3) / 4 = i ∧ (4 * i + 3) % 4 = 3 := by omega
    rw [h0.1, h0.2, h1.1, h1.2, h2.1, h2.2, h3.1, h3.2]
    split
    · unfold factors
      omega
    · rfl
  rw [hperm, sum_range_four, Finset.sum_congr rfl fun i _ => hlimb i,
    Finset.sum_ite_eq', if_pos (Finset.mem_range.mpr k.isLt), limb_eq_bytes]

/-- The limb of bytes that the rows go through from the highest on. -/
theorem limbPart_last {x : ℕ} {b : ℕ → ℕ} (hb : ∀ j < 32, b j = getByte x (31 - j)) (k : Fin 8) :
    fromU64 (limbPart b (31 - 4 * k)) = limb x k := by
  have hlt : k.val < 8 := k.isLt
  have hmod : (31 - 4 * k.val) % 4 = 3 := by omega
  have hdiv : 4 * ((31 - 4 * k.val) / 4) = 28 - 4 * k.val := by omega
  unfold limbPart
  rw [hmod, hdiv, Finset.sum_range_succ, Finset.sum_range_succ, Finset.sum_range_succ,
    Finset.sum_range_one, hb _ (by omega), hb _ (by omega), hb _ (by omega), hb _ (by omega),
    (by omega : 31 - (28 - 4 * k.val + 0) = 4 * k.val + 3),
    (by omega : 31 - (28 - 4 * k.val + 1) = 4 * k.val + 2),
    (by omega : 31 - (28 - 4 * k.val + 2) = 4 * k.val + 1),
    (by omega : 31 - (28 - 4 * k.val + 3) = 4 * k.val), limb_eq_bytes]
  unfold factors
  simp

end ZkevmProver.MemAlignExecutor
