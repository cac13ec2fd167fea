import ZkevmProver.ECRecover.PointEcSpec

/-!
# Double scalar multiplication

All versions walk over the windows of both scalars, from the top.  The accumulator stands for the sum
by what is above the window, and a table holds the sums by one window.

1. Affine coordinates
2. Tables
3. Loops over a table
4. The versions agree
-/

namespace ZkevmProver

open Countdown ShortWeierstrass WeierstrassCurve

variable {P P1 P2 : secp256k1.Point} {k1 k2 : ℕ}

/-! ## Affine coordinates -/

theorem tstbit_lt (n i : ℕ) : tstbit n i < 2 := Nat.mod_lt _ two_pos

/-- The sum by the bits at `i`. -/
theorem window_one (k1 k2 : ℕ) (P1 P2 : secp256k1.Point) (i : ℕ) :
    window 1 k1 k2 P1 P2 i = tstbit k1 i • P1 + tstbit k2 i • P2 := by
  unfold window tstbit
  rw [pow_one]

theorem mulPointEcTable_spec {p1 p2 : PointMpz} (h1 : p1.Is P1) (h2 : p2.Is P2) :
    (mulPointEcTable p1 p2).Denotes (P1 + P2) := by
  unfold mulPointEcTable
  split_ifs with hx hy
  · exact .of_is (addPointEc_spec h1 h2 hx)
  · have heq : p1 = p2 := PointMpz.ext (not_not.mp hx) hy
    obtain rfl : P1 = P2 := h1.determines (heq ▸ h2)
    exact .of_is (dblPointEc_spec h1)
  · exact ⟨fun _ => h1.add_eq_zero h2 (not_not.mp hx) hy, nofun⟩

theorem mulPointEcStep_spec {p1 p2 : PointMpz} (h1 : p1.Is P1) (h2 : p2.Is P2) {p12 p3 : SlotMpz}
    (h12 : p12.Denotes (P1 + P2)) (k1 k2 i : ℕ) (h : p3.Denotes P) :
    (mulPointEcStep p1 k1 p2 k2 p12 i p3).Denotes
      (if i = 0 then P + window 1 k1 k2 P1 P2 i else 2 • (P + window 1 k1 k2 P1 P2 i)) := by
  have hsum : (if tstbit k1 i = 1 ∧ tstbit k2 i = 0 then addContribution p1 p3
      else if tstbit k1 i = 0 ∧ tstbit k2 i = 1 then addContribution p2 p3
      else if tstbit k1 i = 1 ∧ tstbit k2 i = 1 ∧ !p12.empty then addContribution p12.point p3
      else p3).Denotes (P + window 1 k1 k2 P1 P2 i) := by
    rw [window_one]
    have hlt1 := tstbit_lt k1 i
    have hlt2 := tstbit_lt k2 i
    interval_cases tstbit k1 i <;> interval_cases tstbit k2 i
    · simpa using h
    · simpa using addContribution_spec h2 h
    · simpa using addContribution_spec h1 h
    · cases hempty : p12.empty with
      | true => simpa [h12.zero hempty] using h
      | false => simpa using addContribution_spec (h12.point hempty) h
  unfold mulPointEcStep
  dsimp only
  generalize (if tstbit k1 i = 1 ∧ tstbit k2 i = 0 then addContribution p1 p3
      else if tstbit k1 i = 0 ∧ tstbit k2 i = 1 then addContribution p2 p3
      else if tstbit k1 i = 1 ∧ tstbit k2 i = 1 ∧ !p12.empty then addContribution p12.point p3
      else p3) = p3' at hsum ⊢
  by_cases hi : i = 0
  · rw [if_pos hi, if_neg fun h => h.2 hi]
    exact hsum
  · rw [if_neg hi, two_nsmul]
    cases hempty : p3'.empty with
    | true =>
      rw [if_neg (by simp), hsum.zero hempty, add_zero]
      exact hsum.zero hempty ▸ hsum
    | false =>
      rw [if_pos ⟨rfl, hi⟩]
      exact .of_is (dblPointEc_spec (hsum.point hempty))

/-- The loop of `mulPointEc` doubles after each step but the last one. -/
theorem mulPointEc_spec {p1 p2 : PointMpz} (h1 : p1.Is P1) (h2 : p2.Is P2) (hk1 : k1 < 2 ^ 256)
    (hk2 : k2 < 2 ^ 256) (hne : k1 • P1 + k2 • P2 ≠ 0) :
    (mulPointEc p1 k1 p2 k2).Is (k1 • P1 + k2 • P2) := by
  let I (i : ℕ) (p3 : SlotMpz) : Prop :=
    p3.Denotes (if i = 0 then above 1 k1 k2 P1 P2 i else 2 • above 1 k1 k2 P1 P2 i)
  have hstart : I 256 ⟨⟨0, 0⟩, true⟩ := by
    refine ⟨fun _ => ?_, nofun⟩
    rw [if_neg (by norm_num), above_eq_zero P1 P2 (by simpa using hk1) (by simpa using hk2),
      nsmul_zero]
  have hstep : ∀ i < 256, ∀ p3, I (i + 1) p3 →
      I i (mulPointEcStep p1 k1 p2 k2 (mulPointEcTable p1 p2) i p3) := by
    intro i _ p3 hp3
    have h := mulPointEcStep_spec h1 h2 (mulPointEcTable_spec h1 h2) k1 k2 i hp3
    have hsum := above_eq_double_add 1 k1 k2 P1 P2 i
    rw [pow_one] at hsum
    rw [if_neg i.succ_ne_zero, ← hsum] at h
    exact h
  have hend : SlotMpz.Denotes _ (above 1 k1 k2 P1 P2 0) := countdown_induction hstep hstart
  rw [above_zero] at hend
  refine hend.point ?_
  by_contra hempty
  exact hne (hend.zero (Bool.eq_true_of_not_eq_false hempty))

/-! ## Tables -/

/-- The sum by both windows of an index. -/
def tableValue (w : ℕ) (P1 P2 : secp256k1.Point) (t : ℕ) : secp256k1.Point :=
  (t % 2 ^ w) • P1 + (t / 2 ^ w) • P2

/-- The entries of a table that are written already. -/
def Filled (w : ℕ) (P1 P2 : secp256k1.Point) (s : Set ℕ) (p : ℕ → SlotJacobian) : Prop :=
  ∀ t ∈ s, (p t).Denotes (tableValue w P1 P2 t)

section

variable {w a b k : ℕ} {p : ℕ → SlotJacobian}

theorem tableValue_zero (w : ℕ) (P1 P2 : secp256k1.Point) : tableValue w P1 P2 0 = 0 := by
  simp [tableValue]

theorem tableValue_one (hw : 0 < w) (P1 P2 : secp256k1.Point) : tableValue w P1 P2 1 = P1 := by
  have hlt : 1 < 2 ^ w := Nat.one_lt_two_pow hw.ne'
  rw [tableValue, Nat.mod_eq_of_lt hlt, Nat.div_eq_of_lt hlt, one_nsmul, zero_nsmul, add_zero]

theorem tableValue_two_pow (w : ℕ) (P1 P2 : secp256k1.Point) : tableValue w P1 P2 (2 ^ w) = P2 := by
  rw [tableValue, Nat.mod_self, Nat.div_self (by positivity), zero_nsmul, one_nsmul, zero_add]

theorem tableValue_add (P1 P2 : secp256k1.Point)
    (h : k % 2 ^ w = a % 2 ^ w + b % 2 ^ w ∧ k / 2 ^ w = a / 2 ^ w + b / 2 ^ w) :
    tableValue w P1 P2 a + tableValue w P1 P2 b = tableValue w P1 P2 k := by
  rw [tableValue, tableValue, tableValue, h.1, h.2, add_nsmul, add_nsmul, add_add_add_comm]

/-- The entries are written in order. -/
theorem Filled.update (h : Filled w P1 P2 {t | t < k} p) {e : SlotJacobian}
    (he : e.Denotes (tableValue w P1 P2 k)) :
    Filled w P1 P2 {t | t < k + 1} (Function.update p k e) := by
  intro t (ht : t < k + 1)
  rcases Nat.eq_or_lt_of_le (Nat.lt_succ_iff.mp ht) with rfl | hlt
  · rwa [Function.update_self]
  · rw [Function.update_of_ne hlt.ne]
    exact h t hlt

theorem filled_zero (w : ℕ) (P1 P2 : secp256k1.Point) (p : ℕ → SlotJacobian) :
    Filled w P1 P2 {t | t < 1} (Function.update p 0 { p 0 with empty := true }) := by
  intro t (ht : t < 1)
  obtain rfl := Nat.lt_one_iff.mp ht
  rw [Function.update_self, tableValue_zero]
  exact ⟨fun _ => rfl, nofun⟩

theorem Filled.one (h : Filled w P1 P2 {t | t < 1} p) (hw : 0 < w) {q : PointJacobian}
    (hq : q.Is P1) :
    Filled w P1 P2 {t | t < 2} (Function.update p 1 ⟨q, false⟩) :=
  h.update (.of_is ((tableValue_one hw P1 P2).symm ▸ hq) rfl)

theorem Filled.two_pow (h : Filled w P1 P2 {t | t < k} p) {q : PointJacobian} (hq : q.Is P2)
    (hk : k = 2 ^ w) :
    Filled w P1 P2 {t | t < k + 1} (Function.update p k ⟨q, false⟩) := by
  subst hk
  exact h.update (.of_is ((tableValue_two_pow w P1 P2).symm ▸ hq) rfl)

theorem Filled.add (h : Filled w P1 P2 {t | t < k} p) (ha : a < k) (hb : b < k)
    (hk : k % 2 ^ w = a % 2 ^ w + b % 2 ^ w ∧ k / 2 ^ w = a / 2 ^ w + b / 2 ^ w) :
    Filled w P1 P2 {t | t < k + 1}
      (Function.update p k (generalAddPointEcJacobian (p a) (p b) (p k))) := by
  have hsum := generalAddPointEcJacobian_spec (p k) (h a ha) (h b hb)
  rw [tableValue_add P1 P2 hk] at hsum
  exact h.update hsum

/-- The double of an entry that is not empty. -/
theorem Filled.dbl (h : Filled w P1 P2 {t | t < k} p) (ha : a < k) (hempty : (p a).empty = false)
    (hk : k % 2 ^ w = a % 2 ^ w + a % 2 ^ w ∧ k / 2 ^ w = a / 2 ^ w + a / 2 ^ w) :
    Filled w P1 P2 {t | t < k + 1} (Function.update p k ⟨dblPointEcJacobian (p a).point, false⟩) := by
  have hdouble := dblPointEcJacobian_spec ((h a ha).point hempty)
  rw [tableValue_add P1 P2 hk] at hdouble
  exact h.update (.of_is hdouble rfl)

end

theorem MulPointEcJacobianZ.table_spec {p1 p2 : PointMpzJacobian} (h1 : p1.toPoint.Is P1)
    (h2 : p2.toPoint.Is P2) (p : ℕ → SlotJacobian) :
    Filled 2 P1 P2 {t | t < 16} (table p1 p2 p) := by
  have h := (filled_zero 2 P1 P2 p).one two_pos h1
  have h := h.dbl (a := 1) (k := 2) (by decide) rfl (by decide)
  have h := h.add (a := 1) (b := 2) (k := 3) (by decide) (by decide) (by decide)
  have h := h.two_pow h2 (k := 4) rfl
  have h := h.add (a := 1) (b := 4) (k := 5) (by decide) (by decide) (by decide)
  have h := h.add (a := 2) (b := 4) (k := 6) (by decide) (by decide) (by decide)
  have h := h.add (a := 3) (b := 4) (k := 7) (by decide) (by decide) (by decide)
  have h := h.dbl (a := 4) (k := 8) (by decide) rfl (by decide)
  have h := h.add (a := 1) (b := 8) (k := 9) (by decide) (by decide) (by decide)
  have h := h.add (a := 2) (b := 8) (k := 10) (by decide) (by decide) (by decide)
  have h := h.add (a := 3) (b := 8) (k := 11) (by decide) (by decide) (by decide)
  have h := h.add (a := 4) (b := 8) (k := 12) (by decide) (by decide) (by decide)
  have h := h.add (a := 1) (b := 12) (k := 13) (by decide) (by decide) (by decide)
  have h := h.add (a := 2) (b := 12) (k := 14) (by decide) (by decide) (by decide)
  have h := h.add (a := 3) (b := 12) (k := 15) (by decide) (by decide) (by decide)
  exact h

theorem MulPointEcJacobian1bitZ.table_spec {p1 p2 : PointMpzJacobian} (h1 : p1.toPoint.Is P1)
    (h2 : p2.toPoint.Is P2) (p : ℕ → SlotJacobian) :
    Filled 1 P1 P2 {t | t < 4} (table p1 p2 p) := by
  have h := (filled_zero 1 P1 P2 p).one one_pos h1
  have h := h.two_pow h2 (k := 2) rfl
  have h := h.add (a := 1) (b := 2) (k := 3) (by decide) (by decide) (by decide)
  exact h

/-- An entry with the powers of its `z`. -/
structure TableEntry.Holds (e : TableEntry) (P : secp256k1.Point) : Prop where
  denotes : e.toSlotJacobian.Denotes P
  powers : e.empty = false → e.zz = e.point.z * e.point.z ∧ e.zzz = e.zz * e.point.z

theorem PointMpz.Is.holds {q : PointMpz} (h : q.Is P) :
    TableEntry.Holds ⟨⟨⟨fromMpz q.x, fromMpz q.y, 1⟩, false⟩, 1, 1⟩ P := by
  have hone : (1 : Fec) = 1 * 1 := (mul_one 1).symm
  exact ⟨.of_is h.toJacobian rfl, fun _ => ⟨hone, hone⟩⟩

theorem vina_add_vinb {k : ℕ} (hk : 2 ≤ k) (hlt : k < 16) (h4 : k ≠ 4) :
    vina k < k ∧ vinb k < k ∧
      k % 2 ^ 2 = vina k % 2 ^ 2 + vinb k % 2 ^ 2 ∧ k / 2 ^ 2 = vina k / 2 ^ 2 + vinb k / 2 ^ 2 := by
  interval_cases k <;> first | exact absurd rfl h4 | decide

theorem MulPointEcJacobian.table_spec {p1 p2 : PointMpz} (h1 : p1.Is P1) (h2 : p2.Is P2)
    (p : ℕ → TableEntry) {t : ℕ} (ht : t < 16) :
    (table p1 p2 p t).Holds (tableValue 2 P1 P2 t) := by
  let I (k : ℕ) (p : ℕ → TableEntry) : Prop :=
    ∀ t, t < k ∨ t = 4 → (p t).Holds (tableValue 2 P1 P2 t)
  suffices hend : I (2 + 14) (table p1 p2 p) from hend t (Or.inl ht)
  unfold table
  refine foldl_range'_induction (fun k p hk hlt hp => ?_) ?_
  · by_cases h4 : k = 4
    · subst h4
      exact fun t ht => hp t (by omega)
    · obtain ⟨hina, hinb, hsum⟩ := vina_add_vinb hk hlt h4
      rw [if_neg h4]
      intro t ht
      by_cases htk : t = k
      · subst htk
        rw [Function.update_self, ← tableValue_add P1 P2 hsum]
        exact ⟨generalAddPointEcJacobian_spec _ (hp _ (Or.inl hina)).denotes
          (hp _ (Or.inl hinb)).denotes, fun _ => ⟨rfl, rfl⟩⟩
      · rw [Function.update_of_ne htk]
        exact hp t (by omega)
  · intro t ht
    obtain rfl | rfl | rfl : t = 0 ∨ t = 1 ∨ t = 4 := by omega
    · rw [tableValue_zero]
      exact ⟨⟨fun _ => rfl, nofun⟩, nofun⟩
    · rw [tableValue_one two_pos]
      exact h1.holds
    · rw [show (4 : ℕ) = 2 ^ 2 from rfl, tableValue_two_pow]
      exact h2.holds

/-! ## Loops over a table -/

/-- A loop whose steps shift the accumulator by a window and add what is in the window. -/
theorem countdown_denotes {w n : ℕ} {step : ℕ → SlotJacobian → SlotJacobian}
    (hstep : ∀ i < n, ∀ p3 : SlotJacobian, p3.Denotes (above w k1 k2 P1 P2 (i + 1)) →
      (step i p3).Denotes (2 ^ w • above w k1 k2 P1 P2 (i + 1) + window w k1 k2 P1 P2 i))
    (hk1 : k1 < (2 ^ w) ^ n) (hk2 : k2 < (2 ^ w) ^ n) (p3 : PointJacobian) :
    (countdown step n ⟨p3, true⟩).Denotes (k1 • P1 + k2 • P2) := by
  let I (i : ℕ) (p3 : SlotJacobian) : Prop := p3.Denotes (above w k1 k2 P1 P2 i)
  have hstart : I n ⟨p3, true⟩ := ⟨fun _ => above_eq_zero P1 P2 hk1 hk2, nofun⟩
  have hend : SlotJacobian.Denotes _ (above w k1 k2 P1 P2 0) :=
    countdown_induction (I := I) (fun i hi p3 hp3 => by
      show SlotJacobian.Denotes _ _
      rw [above_eq_double_add]
      exact hstep i hi p3 hp3) hstart
  rwa [above_zero] at hend

section

variable {p3 : SlotJacobian}

theorem window1_lt (k1 k2 i : ℕ) : window1 k1 k2 i < 4 := by
  have h1 := tstbit_lt k1 i
  have h2 := tstbit_lt k2 i
  unfold window1
  omega

theorem tableValue_window1 (k1 k2 : ℕ) (P1 P2 : secp256k1.Point) (i : ℕ) :
    tableValue 1 P1 P2 (window1 k1 k2 i) = window 1 k1 k2 P1 P2 i := by
  have h1 := tstbit_lt k1 i
  rw [window_one, tableValue, window1, pow_one, Nat.mul_add_mod, Nat.mod_eq_of_lt h1,
    Nat.mul_add_div two_pos, Nat.div_eq_of_lt h1, add_zero]

theorem two_bits (k j : ℕ) :
    k / (2 ^ 2) ^ j % 2 ^ 2 = 2 * tstbit k (2 * j + 1) + tstbit k (2 * j) := by
  unfold tstbit
  rw [← pow_mul, pow_succ 2 (2 * j), ← Nat.div_div_eq_div_mul]
  omega

theorem window2_eq (k1 k2 j : ℕ) : window2 k1 k2 (2 * j + 1) =
    2 ^ 2 * (k2 / (2 ^ 2) ^ j % 2 ^ 2) + k1 / (2 ^ 2) ^ j % 2 ^ 2 := by
  unfold window2
  rw [two_bits, two_bits, Nat.add_sub_cancel]
  ring

theorem window2_lt (k1 k2 j : ℕ) : window2 k1 k2 (2 * j + 1) < 16 := by
  have h1 := tstbit_lt k1 (2 * j + 1)
  have h2 := tstbit_lt k2 (2 * j + 1)
  have h3 := tstbit_lt k1 (2 * j + 1 - 1)
  have h4 := tstbit_lt k2 (2 * j + 1 - 1)
  unfold window2
  omega

theorem tableValue_window2 (k1 k2 : ℕ) (P1 P2 : secp256k1.Point) (j : ℕ) :
    tableValue 2 P1 P2 (window2 k1 k2 (2 * j + 1)) = window 2 k1 k2 P1 P2 j := by
  have h1 : k1 / (2 ^ 2) ^ j % 2 ^ 2 < 2 ^ 2 := Nat.mod_lt _ (by norm_num)
  rw [window2_eq, tableValue, window, Nat.mul_add_mod, Nat.mod_eq_of_lt h1,
    Nat.mul_add_div (by norm_num), Nat.div_eq_of_lt h1, add_zero]

theorem SlotJacobian.Denotes.dbl_dbl (h : p3.Denotes P) : p3.dbl.dbl.Denotes (2 ^ 2 • P) := by
  have hdouble := h.dbl.dbl
  rwa [← two_nsmul, ← two_nsmul, smul_smul] at hdouble

theorem SlotJacobian.Denotes.dbl_one (h : p3.Denotes P) : p3.dbl.Denotes (2 ^ 1 • P) := by
  have hdouble := h.dbl
  rwa [← two_nsmul] at hdouble

theorem MulPointEcJacobian.step_spec {p : ℕ → TableEntry}
    (hp : ∀ t < 16, (p t).Holds (tableValue 2 P1 P2 t)) (h : p3.Denotes P) (j : ℕ) :
    (step p k1 k2 j p3).Denotes (2 ^ 2 • P + window 2 k1 k2 P1 P2 j) := by
  have hentry := hp _ (window2_lt k1 k2 j)
  rw [← tableValue_window2, add_comm]
  exact generalAddPointEcJacobianPrecomputed_spec hentry.denotes h.dbl_dbl hentry.powers

theorem MulPointEcJacobianZ.step_spec {p : ℕ → SlotJacobian} (hp : Filled 2 P1 P2 {t | t < 16} p)
    (h : p3.Denotes P) (j : ℕ) :
    (step p k1 k2 j p3).Denotes (2 ^ 2 • P + window 2 k1 k2 P1 P2 j) := by
  rw [← tableValue_window2, add_comm]
  exact generalAddPointEcJacobian_spec _ (hp _ (window2_lt k1 k2 j)) h.dbl_dbl

theorem MulPointEcJacobian1bitZ.step_spec {p : ℕ → SlotJacobian} (hp : Filled 1 P1 P2 {t | t < 4} p)
    (h : p3.Denotes P) (i : ℕ) :
    (step p k1 k2 i p3).Denotes (2 ^ 1 • P + window 1 k1 k2 P1 P2 i) := by
  rw [← tableValue_window1, add_comm]
  exact generalAddPointEcJacobian_spec _ (hp _ (window1_lt k1 k2 i)) h.dbl_one

/-- The affine coordinates of a point, from its Jacobian ones. -/
theorem jacobian2Affine_spec {q : PointJacobian} (h : q.Is P) :
    ∃ h', P = .some (jacobian2Affine q).1 (jacobian2Affine q).2 h' := h.affine

theorem SlotJacobian.Denotes.toAffine (h : p3.Denotes P) (hne : P ≠ 0) :
    PointMpz.Is ⟨toMpz (jacobian2Affine p3.point).1, toMpz (jacobian2Affine p3.point).2⟩ P := by
  have hpoint : p3.point.Is P := by
    refine h.point ?_
    by_contra hempty
    exact hne (h.zero (Bool.eq_true_of_not_eq_false hempty))
  obtain ⟨h', rfl⟩ := jacobian2Affine_spec hpoint
  exact .of_some h'

theorem SlotJacobian.Denotes.toMpz (h : p3.Denotes P) (hne : P ≠ 0) :
    p3.point.toMpz.toPoint.Is P := by
  have hpoint : p3.point.toMpz.toPoint = p3.point := by
    simp [PointJacobian.toMpz, PointMpzJacobian.toPoint]
  rw [hpoint]
  refine h.point ?_
  by_contra hempty
  exact hne (h.zero (Bool.eq_true_of_not_eq_false hempty))

/-- A point made affine. -/
theorem SlotJacobian.Denotes.normalize (h : p3.Denotes P) :
    let s : SlotJacobian := if !p3.empty then
      ⟨⟨(jacobian2Affine p3.point).1, (jacobian2Affine p3.point).2, 1⟩, p3.empty⟩ else p3
    s.Denotes P ∧ (s.empty = false → s.point.z = 1) := by
  intro s
  cases hempty : p3.empty with
  | true =>
    have hs : s = p3 := if_neg (by simp [hempty])
    rw [hs]
    exact ⟨h, fun hf => absurd (hempty.symm.trans hf) (by simp)⟩
  | false =>
    have hs : s = ⟨⟨(jacobian2Affine p3.point).1, (jacobian2Affine p3.point).2, 1⟩, p3.empty⟩ :=
      if_pos (by simp [hempty])
    obtain ⟨h', rfl⟩ := jacobian2Affine_spec (h.point hempty)
    rw [hs]
    exact ⟨.of_is (.of_some h') hempty, fun _ => rfl⟩

theorem MulPointEcJacobian1bit.table_spec {p1 p2 : PointMpz} (h1 : p1.Is P1) (h2 : p2.Is P2)
    (p : ℕ → SlotJacobian) : Filled 1 P1 P2 {t | t < 4} (table p1 p2 p) ∧
      ∀ t < 4, (table p1 p2 p t).empty = false → (table p1 p2 p t).point.z = 1 := by
  have h := (filled_zero 1 P1 P2 p).one one_pos h1.toJacobian
  have h := h.two_pow h2.toJacobian (k := 2) rfl
  have hsum := generalAddPointEcJacobianZ2Is1_spec (p 3) (h 1 (by decide)) (h 2 (by decide))
    (fun _ => rfl) fun _ _ _ => rfl
  rw [tableValue_add P1 P2 (k := 3) (by decide)] at hsum
  obtain ⟨hdenotes, hone⟩ := hsum.normalize
  have h := h.update hdenotes
  refine ⟨h, fun t ht => ?_⟩
  interval_cases t
  · exact nofun
  · exact fun _ => rfl
  · exact fun _ => rfl
  · exact hone

/-- The double of what is above a bit is never the sum by this bit, unless the latter is the point at
infinity. -/
def NeverMeets (P1 P2 : secp256k1.Point) (k1 k2 : ℕ) : Prop :=
  ∀ i < 256, window 1 k1 k2 P1 P2 i ≠ 0 →
    2 ^ 1 • above 1 k1 k2 P1 P2 (i + 1) ≠ window 1 k1 k2 P1 P2 i

theorem MulPointEcJacobian1bit.step_spec {p : ℕ → SlotJacobian}
    (hp : Filled 1 P1 P2 {t | t < 4} p) (hz : ∀ t < 4, (p t).empty = false → (p t).point.z = 1)
    (h : p3.Denotes P) {i : ℕ}
    (hmeets : window 1 k1 k2 P1 P2 i ≠ 0 → 2 ^ 1 • P ≠ window 1 k1 k2 P1 P2 i) :
    (step p k1 k2 i p3).Denotes (2 ^ 1 • P + window 1 k1 k2 P1 P2 i) := by
  have hentry := hp _ (window1_lt k1 k2 i)
  rw [tableValue_window1] at hentry
  refine generalAddPointEcJacobianZ2Is1_spec _ h.dbl_one hentry (hz _ (window1_lt k1 k2 i)) ?_
  intro _ hfull heq
  exact absurd heq (hmeets (hentry.point hfull).ne_zero)

end

/-! ## The versions agree -/

section

variable {p1 p2 : PointMpz} {q1 q2 : PointMpzJacobian}

theorem lt_two_pow_one {k : ℕ} (h : k < 2 ^ 256) : k < (2 ^ 1) ^ 256 := by rwa [pow_one]

theorem lt_two_pow_two {k : ℕ} (h : k < 2 ^ 256) : k < (2 ^ 2) ^ 128 := by rwa [← pow_mul]

theorem mulPointEcJacobian_denotes (h1 : p1.Is P1) (h2 : p2.Is P2) (hk1 : k1 < 2 ^ 256)
    (hk2 : k2 < 2 ^ 256) (p : ℕ → TableEntry) (p3 : PointJacobian) :
    (countdown (MulPointEcJacobian.step (MulPointEcJacobian.table p1 p2 p) k1 k2) 128
      ⟨p3, true⟩).Denotes (k1 • P1 + k2 • P2) :=
  countdown_denotes (fun j _ _ h => MulPointEcJacobian.step_spec
    (fun _ ht => MulPointEcJacobian.table_spec h1 h2 p ht) h j)
    (lt_two_pow_two hk1) (lt_two_pow_two hk2) p3

theorem mulPointEcJacobianZ_denotes (h1 : q1.toPoint.Is P1) (h2 : q2.toPoint.Is P2)
    (hk1 : k1 < 2 ^ 256) (hk2 : k2 < 2 ^ 256) (p : ℕ → SlotJacobian) (p3 : PointJacobian) :
    (countdown (MulPointEcJacobianZ.step (MulPointEcJacobianZ.table q1 q2 p) k1 k2) 128
      ⟨p3, true⟩).Denotes (k1 • P1 + k2 • P2) :=
  countdown_denotes (fun j _ _ h => MulPointEcJacobianZ.step_spec
    (MulPointEcJacobianZ.table_spec h1 h2 p) h j) (lt_two_pow_two hk1) (lt_two_pow_two hk2) p3

theorem mulPointEcJacobian1bitZ_denotes (h1 : q1.toPoint.Is P1) (h2 : q2.toPoint.Is P2)
    (hk1 : k1 < 2 ^ 256) (hk2 : k2 < 2 ^ 256) (p : ℕ → SlotJacobian) (p3 : PointJacobian) :
    (countdown (MulPointEcJacobian1bitZ.step (MulPointEcJacobian1bitZ.table q1 q2 p) k1 k2) 256
      ⟨p3, true⟩).Denotes (k1 • P1 + k2 • P2) :=
  countdown_denotes (fun i _ _ h => MulPointEcJacobian1bitZ.step_spec
    (MulPointEcJacobian1bitZ.table_spec h1 h2 p) h i) (lt_two_pow_one hk1) (lt_two_pow_one hk2) p3

theorem mulPointEcJacobian1bit_denotes (h1 : p1.Is P1) (h2 : p2.Is P2) (hk1 : k1 < 2 ^ 256)
    (hk2 : k2 < 2 ^ 256) (hmeets : NeverMeets P1 P2 k1 k2) (p : ℕ → SlotJacobian)
    (p3 : PointJacobian) :
    (countdown (MulPointEcJacobian1bit.step (MulPointEcJacobian1bit.table p1 p2 p) k1 k2) 256
      ⟨p3, true⟩).Denotes (k1 • P1 + k2 • P2) := by
  obtain ⟨htable, hone⟩ := MulPointEcJacobian1bit.table_spec h1 h2 p
  exact countdown_denotes (fun i hi _ h => MulPointEcJacobian1bit.step_spec htable hone h
    (hmeets i hi)) (lt_two_pow_one hk1) (lt_two_pow_one hk2) p3

/-- **All versions compute `k1 P1 + k2 P2`**, the last one as long as its accumulator never meets the
point of the table that it adds. -/
theorem mulPoint_agree (h1 : p1.Is P1) (h2 : p2.Is P2) (hk1 : k1 < 2 ^ 256) (hk2 : k2 < 2 ^ 256)
    (hne : k1 • P1 + k2 • P2 ≠ 0) :
    (mulPointEc p1 k1 p2 k2).Is (k1 • P1 + k2 • P2) ∧
    (∀ p p3, (mulPointEcJacobian p1 k1 p2 k2 p p3).Is (k1 • P1 + k2 • P2)) ∧
    (∀ q1 q2 : PointMpzJacobian, q1.toPoint.Is P1 → q2.toPoint.Is P2 → ∀ p p3,
      (mulPointEcJacobianZ q1 k1 q2 k2 p p3).toPoint.Is (k1 • P1 + k2 • P2) ∧
      (mulPointEcJacobian1bitZ q1 k1 q2 k2 p p3).toPoint.Is (k1 • P1 + k2 • P2)) ∧
    (NeverMeets P1 P2 k1 k2 → ∀ p p3,
      (mulPointEcJacobian1bit p1 k1 p2 k2 p p3).Is (k1 • P1 + k2 • P2)) := by
  refine ⟨mulPointEc_spec h1 h2 hk1 hk2 hne, fun p p3 => ?_, fun q1 q2 hq1 hq2 p p3 => ⟨?_, ?_⟩,
    fun hmeets p p3 => ?_⟩
  · exact (mulPointEcJacobian_denotes h1 h2 hk1 hk2 p p3).toAffine hne
  · exact (mulPointEcJacobianZ_denotes hq1 hq2 hk1 hk2 p p3).toMpz hne
  · exact (mulPointEcJacobian1bitZ_denotes hq1 hq2 hk1 hk2 p p3).toMpz hne
  · exact (mulPointEcJacobian1bit_denotes h1 h2 hk1 hk2 hmeets p p3).toAffine hne

end

/-- The coordinates of the base point. -/
def baseMpz : PointMpz := ⟨ECGX, ECGY⟩

theorem baseMpz_is : baseMpz.Is basePoint :=
  ⟨⟨by decide, by decide⟩, nonsingular_base, rfl⟩

theorem mulPoint_agree_sample : (1 : ℕ) • basePoint + (0 : ℕ) • basePoint ≠ 0 ∧
    (mulPointEc baseMpz 1 baseMpz 0).Is ((1 : ℕ) • basePoint + (0 : ℕ) • basePoint) := by
  have hne : (1 : ℕ) • basePoint + (0 : ℕ) • basePoint ≠ 0 := by
    rw [one_nsmul, zero_nsmul, add_zero]
    exact Affine.Point.some_ne_zero nonsingular_base
  exact ⟨hne, (mulPoint_agree baseMpz_is baseMpz_is (by norm_num) (by norm_num) hne).1⟩

/-- A point of the version with Jacobian arguments. -/
def PointMpz.withOne (p : PointMpz) : PointMpzJacobian := ⟨p.x, p.y, 1⟩

theorem PointMpz.Is.withOne {p : PointMpz} (h : p.Is P) : p.withOne.toPoint.Is P := by
  have hone : p.withOne.toPoint = ⟨fromMpz p.x, fromMpz p.y, 1⟩ := by
    simp [PointMpz.withOne, PointMpzJacobian.toPoint, fromMpz]
  rw [hone]
  exact h.toJacobian

/-- The coordinates of the double of the base point. -/
def doubleMpz : PointMpz :=
  ⟨0xC6047F9441ED7D6D3045406E95C07CD85C778E4B8CEF3CA7ABAC09B95C709EE5,
    0x1AE168FEA63DC339A3C58419466CEAEEF7F632653266D0E1236431A950CFE52A⟩

theorem doubleMpz_is : doubleMpz.Is (basePoint + basePoint) :=
  .of_jacobian ⟨by decide, by decide⟩ (dblPointEcJacobian_spec baseMpz_is.withOne)
    (by decide) (by decide)

/-- The result is that point only if the accumulator is a triple of its. -/
theorem cross_of_mulPointEcJacobian1bit {p1 p2 : PointMpz} {p : ℕ → SlotJacobian}
    {p3 t : PointJacobian} {s : SlotJacobian}
    (hs : countdown (MulPointEcJacobian1bit.step (MulPointEcJacobian1bit.table p1 p2 p) k1 k2) 256
      ⟨p3, true⟩ = s) (hz : s.point.z ≠ 0) (h : (mulPointEcJacobian1bit p1 k1 p2 k2 p p3).Is P)
    (ht : t.Is P) : s.point.x * t.z ^ 2 = t.x * s.point.z ^ 2 := by
  unfold mulPointEcJacobian1bit at h
  dsimp only at h
  rw [hs] at h
  have hcross := (h.jacobian.cross ht).1
  simp only [fromMpz_toMpz, jacobian2Affine] at hcross
  field_simp at hcross
  linear_combination hcross

/-- What the accumulator of the affine version holds at the end for `2 P1 + P2`, where `P2` is the
double of `P1`. -/
def meeting : SlotJacobian :=
  countdown (MulPointEcJacobian1bit.step (MulPointEcJacobian1bit.table baseMpz doubleMpz
    fun _ => ⟨⟨0, 0, 0⟩, true⟩) 2 1) 256 ⟨⟨0, 0, 0⟩, true⟩

/-- What the accumulator of the version with Jacobian arguments holds there. -/
def meetingZ : SlotJacobian :=
  countdown (MulPointEcJacobian1bitZ.step (MulPointEcJacobian1bitZ.table baseMpz.withOne
    doubleMpz.withOne fun _ => ⟨⟨0, 0, 0⟩, true⟩) 2 1) 256 ⟨⟨0, 0, 0⟩, true⟩

theorem meeting_ne : meetingZ.empty = false ∧ meeting.point.z ≠ 0 ∧
    meeting.point.x * meetingZ.point.z ^ 2 ≠ meetingZ.point.x * meeting.point.z ^ 2 := by
  decide +kernel

/-- With the double of the base point as the second point, `2 P1 + P2` meets `P2` at the last bit: the
accumulator is doubled as if its `z` were one. -/
theorem mulPointEcJacobian1bit_meets :
    baseMpz.Is basePoint ∧ doubleMpz.Is (basePoint + basePoint) ∧
    (2 : ℕ) • basePoint + (1 : ℕ) • (basePoint + basePoint) ≠ 0 ∧
    ¬(mulPointEcJacobian1bit baseMpz 2 doubleMpz 1 (fun _ => ⟨⟨0, 0, 0⟩, true⟩) ⟨0, 0, 0⟩).Is
      ((2 : ℕ) • basePoint + (1 : ℕ) • (basePoint + basePoint)) := by
  obtain ⟨hfull, hz, hne⟩ := meeting_ne
  have hright : meetingZ.Denotes ((2 : ℕ) • basePoint + (1 : ℕ) • (basePoint + basePoint)) := by
    unfold meetingZ
    exact mulPointEcJacobian1bitZ_denotes baseMpz_is.withOne doubleMpz_is.withOne (by norm_num)
      (by norm_num) _ _
  have hpoint := hright.point hfull
  refine ⟨baseMpz_is, doubleMpz_is, hpoint.ne_zero, fun hbad => hne ?_⟩
  exact cross_of_mulPointEcJacobian1bit rfl hz hbad hpoint

end ZkevmProver
