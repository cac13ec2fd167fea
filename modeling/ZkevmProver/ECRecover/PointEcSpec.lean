import ZkevmProver.ECRecover.PointEc

/-!
# What the operations on points compute

1. Affine coordinates
2. Jacobian coordinates
3. Slots
-/

namespace ZkevmProver

open ShortWeierstrass WeierstrassCurve

variable {P Q : secp256k1.Point}

@[simp] theorem fromMpz_toMpz (a : Fec) : fromMpz (toMpz a) = a := ZMod.natCast_zmod_val a

theorem toMpz_lt (a : Fec) : toMpz a < FPEC := ZMod.val_lt a

theorem fromMpz_injOn {m n : ℕ} (hm : m < FPEC) (hn : n < FPEC) (h : fromMpz m = fromMpz n) : m = n := by
  have hval := congrArg ZMod.val h
  rwa [fromMpz, fromMpz, ZMod.val_cast_of_lt hm, ZMod.val_cast_of_lt hn] at hval

/-! ## Affine coordinates -/

/-- The coordinates are those of the point, and reduced. -/
structure PointMpz.Is (p : PointMpz) (P : secp256k1.Point) : Prop where
  lt : p.x < FPEC ∧ p.y < FPEC
  eq : ∃ h, P = .some (fromMpz p.x) (fromMpz p.y) h

section

variable {p q : PointMpz}

theorem PointMpz.Is.of_some {x y : Fec} (h : secp256k1.Nonsingular x y) :
    PointMpz.Is ⟨toMpz x, toMpz y⟩ (.some x y h) := by
  refine ⟨⟨toMpz_lt x, toMpz_lt y⟩, ?_⟩
  exact some_eq h (fromMpz_toMpz x).symm (fromMpz_toMpz y).symm

/-- A point has one pair of coordinates. -/
theorem PointMpz.Is.unique (hp : p.Is P) (hq : q.Is P) : p = q := by
  obtain ⟨hp', h, rfl⟩ := hp
  obtain ⟨hq', h', heq⟩ := hq
  rw [Affine.Point.some.injEq] at heq
  exact PointMpz.ext (fromMpz_injOn hp'.1 hq'.1 heq.1) (fromMpz_injOn hp'.2 hq'.2 heq.2)

theorem PointMpz.Is.determines (hp : p.Is P) (hq : p.Is Q) : P = Q := by
  obtain ⟨-, h, rfl⟩ := hp
  obtain ⟨-, h', rfl⟩ := hq
  rfl

theorem PointMpz.Is.jacobian (h : p.Is P) : IsJacobian (fromMpz p.x) (fromMpz p.y) 1 P := by
  obtain ⟨-, h, rfl⟩ := h
  exact .of_affine h

theorem dblPointEc_spec (h : p.Is P) : (dblPointEc p).Is (P + P) := by
  obtain ⟨-, h, rfl⟩ := h
  have hy : fromMpz p.y + fromMpz p.y ≠ 0 := by
    rw [← two_mul]
    exact mul_ne_zero two_ne_zero_fec (y_ne_zero h.1)
  obtain ⟨h', hsum⟩ := add_self_of_ne h two_ne_zero_fec (y_ne_zero h.1)
    (div_mul_cancel₀ (fromMpz p.x * fromMpz p.x * 3) hy)
  rw [hsum]
  exact .of_some h'

theorem addPointEc_spec (hp : p.Is P) (hq : q.Is Q) (hx : p.x ≠ q.x) :
    (addPointEc p q).Is (P + Q) := by
  obtain ⟨hp', h₁, rfl⟩ := hp
  obtain ⟨hq', h₂, rfl⟩ := hq
  have hne : fromMpz p.x ≠ fromMpz q.x := fun h => hx (fromMpz_injOn hp'.1 hq'.1 h)
  obtain ⟨h', hsum⟩ := add_of_ne h₁ h₂ hne
    (div_mul_cancel₀ (fromMpz q.y - fromMpz p.y) (sub_ne_zero.mpr hne.symm))
  rw [hsum]
  exact .of_some h'

/-- Points with equal first coordinates are equal or opposite. -/
theorem PointMpz.Is.add_eq_zero (hp : p.Is P) (hq : q.Is Q) (hx : p.x = q.x) (hy : p.y ≠ q.y) :
    P + Q = 0 := by
  refine hp.jacobian.add_eq_zero hq.jacobian (by rw [hx]) fun h => hy ?_
  rw [one_pow, mul_one, mul_one] at h
  exact fromMpz_injOn hp.lt.2 hq.lt.2 h

end

/-- An empty slot stands for the point at infinity. -/
structure SlotMpz.Denotes (s : SlotMpz) (P : secp256k1.Point) : Prop where
  zero : s.empty = true → P = 0
  point : s.empty = false → s.point.Is P

theorem SlotMpz.Denotes.of_is {p : PointMpz} (h : p.Is P) : SlotMpz.Denotes ⟨p, false⟩ P :=
  ⟨nofun, fun _ => h⟩

theorem addContribution_spec {p : PointMpz} {p3 : SlotMpz} (hp : p.Is Q) (h : p3.Denotes P) :
    (addContribution p p3).Denotes (P + Q) := by
  unfold addContribution
  cases hempty : p3.empty with
  | true =>
    rw [if_pos rfl, h.zero hempty, zero_add]
    exact .of_is hp
  | false =>
    have h3 := h.point hempty
    rw [if_neg Bool.false_ne_true]
    split_ifs with hx hy
    · exact .of_is (addPointEc_spec h3 hp hx)
    · exact ⟨fun _ => h3.add_eq_zero hp (not_not.mp hx) hy, nofun⟩
    · have heq : p3.point = p := PointMpz.ext (not_not.mp hx) (not_not.mp hy)
      obtain rfl : P = Q := h3.determines (heq ▸ hp)
      exact .of_is (dblPointEc_spec h3)

/-! ## Jacobian coordinates -/

def PointJacobian.Is (p : PointJacobian) (P : secp256k1.Point) : Prop := IsJacobian p.x p.y p.z P

theorem PointJacobian.Is.of_some {x y : Fec} (h : secp256k1.Nonsingular x y) :
    PointJacobian.Is ⟨x, y, 1⟩ (.some x y h) := .of_affine h

theorem PointMpz.Is.toJacobian {p : PointMpz} (h : p.Is P) :
    PointJacobian.Is ⟨fromMpz p.x, fromMpz p.y, 1⟩ P := h.jacobian

section

variable {p q : PointJacobian}

theorem PointJacobian.Is.y_ne_zero (h : p.Is P) : p.y ≠ 0 := by
  obtain ⟨hz, px, py, hp, rfl, -, hy⟩ := h
  rw [hy]
  exact mul_ne_zero (ZkevmProver.y_ne_zero hp.1) (pow_ne_zero 3 hz)

theorem dblPointEcJacobian_spec (h : p.Is P) : (dblPointEcJacobian p).Is (P + P) := by
  refine h.dbl two_ne_zero_fec h.y_ne_zero ?_ ?_ ?_ <;> unfold dblPointEcJacobian <;> ring

/-- Where `z1` is one. -/
theorem dblPointEcJacobianZ2Is1_spec (h : p.Is P) (hz : p.z = 1) :
    (dblPointEcJacobianZ2Is1 p).Is (P + P) := by
  refine h.dbl two_ne_zero_fec h.y_ne_zero ?_ ?_ ?_ <;> unfold dblPointEcJacobianZ2Is1
  · ring
  · ring
  · rw [hz]
    ring

theorem PointJacobian.Is.x_ne_zero (h : p.Is P) : p.x ≠ 0 := by
  obtain ⟨hz, px, py, hp, rfl, hx, -⟩ := h
  rw [hx]
  exact mul_ne_zero (ZkevmProver.x_ne_zero hp.1) (pow_ne_zero 2 hz)

/-- Only where `z1` is one. -/
theorem dblPointEcJacobianZ2Is1_iff (h : p.Is P) :
    (dblPointEcJacobianZ2Is1 p).Is (P + P) ↔ p.z = 1 := by
  refine ⟨fun hdouble => ?_, dblPointEcJacobianZ2Is1_spec h⟩
  have hright := dblPointEcJacobian_spec h
  have hy := h.y_ne_zero
  have hx₃ : (dblPointEcJacobianZ2Is1 p).x = (dblPointEcJacobian p).x := by
    unfold dblPointEcJacobianZ2Is1 dblPointEcJacobian
    ring
  have hy₃ : (dblPointEcJacobianZ2Is1 p).y = (dblPointEcJacobian p).y := by
    unfold dblPointEcJacobianZ2Is1 dblPointEcJacobian
    ring
  have hz₃ : (dblPointEcJacobian p).z = (dblPointEcJacobianZ2Is1 p).z * p.z := by
    unfold dblPointEcJacobianZ2Is1 dblPointEcJacobian
    ring
  obtain ⟨hsq, hcube⟩ := hright.cross hdouble
  rw [hx₃] at hsq
  rw [hy₃] at hcube
  have hsq' := mul_left_cancel₀ hright.x_ne_zero hsq
  have hcube' := mul_left_cancel₀ hright.y_ne_zero hcube
  rw [hz₃, mul_pow] at hsq' hcube'
  have hz2 : p.z ^ 2 = 1 := (mul_eq_left₀ (pow_ne_zero 2 hdouble.1)).mp hsq'.symm
  have hz3 : p.z ^ 3 = 1 := (mul_eq_left₀ (pow_ne_zero 3 hdouble.1)).mp hcube'.symm
  rwa [pow_succ, hz2, one_mul] at hz3

theorem addPointEcJacobian_spec (hp : p.Is P) (hq : q.Is Q) (hx : p.x * q.z ^ 2 ≠ q.x * p.z ^ 2) :
    (addPointEcJacobian p q).Is (P + Q) := by
  refine hp.add two_ne_zero_fec hq hx rfl rfl ?_ ?_ ?_ <;> unfold addPointEcJacobian <;> ring

theorem addPointEcJacobianPrecomputed_spec (hp : p.Is P) (hq : q.Is Q)
    (hx : p.x * q.z ^ 2 ≠ q.x * p.z ^ 2) {zz zzz : Fec} (hzz : zz = p.z * p.z)
    (hzzz : zzz = zz * p.z) : (addPointEcJacobianPrecomputed p zz zzz q).Is (P + Q) := by
  refine hp.add two_ne_zero_fec hq hx rfl rfl ?_ ?_ ?_ <;> unfold addPointEcJacobianPrecomputed <;>
    rw [hzzz, hzz] <;> ring

/-- Where `z2` is one. -/
theorem addPointEcJacobianZ2Is1_spec (hp : p.Is P) (hq : q.Is Q)
    (hx : p.x * q.z ^ 2 ≠ q.x * p.z ^ 2) (hz : q.z = 1) :
    (addPointEcJacobianZ2Is1 p q).Is (P + Q) := by
  refine hp.add two_ne_zero_fec hq hx rfl rfl ?_ ?_ ?_ <;> unfold addPointEcJacobianZ2Is1 <;>
    rw [hz] <;> ring

end

/-- Coordinates that agree with Jacobian ones. -/
theorem PointMpz.Is.of_jacobian {p : PointMpz} {q : PointJacobian} (hlt : p.x < FPEC ∧ p.y < FPEC)
    (h : q.Is P) (hx : fromMpz p.x * q.z ^ 2 = q.x) (hy : fromMpz p.y * q.z ^ 3 = q.y) : p.Is P := by
  obtain ⟨hz, px, py, hp, rfl, hpx, hpy⟩ := h
  rw [hpx] at hx
  rw [hpy] at hy
  obtain ⟨h', heq⟩ := some_eq hp (mul_right_cancel₀ (pow_ne_zero 2 hz) hx).symm
    (mul_right_cancel₀ (pow_ne_zero 3 hz) hy).symm
  exact ⟨hlt, h', heq⟩

/-! ## Slots -/

/-- An empty slot stands for the point at infinity. -/
structure SlotJacobian.Denotes (s : SlotJacobian) (P : secp256k1.Point) : Prop where
  zero : s.empty = true → P = 0
  point : s.empty = false → s.point.Is P

section

variable {p1 p2 p3 : SlotJacobian}

theorem SlotJacobian.Denotes.of_is {p : PointJacobian} (h : p.Is P) {empty : Bool}
    (hempty : empty = false) : SlotJacobian.Denotes ⟨p, empty⟩ P :=
  ⟨fun hf => absurd (hempty.symm.trans hf) Bool.false_ne_true, fun _ => h⟩

/-- The three versions add where their addition and their doubling do, for the points they are
applied to. -/
theorem generalAddPoint_spec {add : PointJacobian → PointJacobian → PointJacobian}
    {dbl : PointJacobian → PointJacobian} (h1 : p1.Denotes P) (h2 : p2.Denotes Q)
    (hadd : p1.empty = false → p2.empty = false → p1.point.Is P → p2.point.Is Q →
      p1.point.x * p2.point.z ^ 2 ≠ p2.point.x * p1.point.z ^ 2 →
        (add p1.point p2.point).Is (P + Q))
    (hdbl : p1.empty = false → p2.empty = false → P = Q → p1.point.Is P →
      (dbl p1.point).Is (P + P)) :
    (generalAddPoint add dbl p1 p2 p3).Denotes (P + Q) := by
  unfold generalAddPoint
  cases he1 : p1.empty with
  | true =>
    rw [h1.zero he1, zero_add]
    cases he2 : p2.empty with
    | true => exact ⟨fun _ => h2.zero he2, nofun⟩
    | false => exact h2
  | false =>
    cases he2 : p2.empty with
    | true =>
      rw [h2.zero he2, add_zero]
      exact h1
    | false =>
      have hp := h1.point he1
      have hq := h2.point he2
      simp only [Bool.false_and, Bool.false_eq_true, if_false, ← pow_two, ← pow_succ,
        Nat.reduceAdd]
      split_ifs with hx hy
      · have hsum := hadd he1 he2 hp hq hx
        exact .of_is hsum (decide_eq_false hsum.1)
      · exact ⟨fun _ => hp.add_eq_zero hq (not_not.mp hx) hy, nofun⟩
      · obtain rfl : P = Q := hp.eq hq (not_not.mp hx) (not_not.mp hy)
        have hdouble := hdbl he1 he2 rfl hp
        exact .of_is hdouble (decide_eq_false hdouble.1)

theorem generalAddPointEcJacobian_spec (p3 : SlotJacobian) (h1 : p1.Denotes P) (h2 : p2.Denotes Q) :
    (generalAddPointEcJacobian p1 p2 p3).Denotes (P + Q) :=
  generalAddPoint_spec h1 h2 (fun _ _ => addPointEcJacobian_spec) fun _ _ _ => dblPointEcJacobian_spec

theorem generalAddPointEcJacobianPrecomputed_spec (h1 : p1.Denotes P) (h2 : p2.Denotes Q)
    {zz zzz : Fec} (hz : p1.empty = false → zz = p1.point.z * p1.point.z ∧ zzz = zz * p1.point.z) :
    (generalAddPointEcJacobianPrecomputed p1 zz zzz p2 p3).Denotes (P + Q) :=
  generalAddPoint_spec h1 h2
    (fun he1 _ hp hq hx => addPointEcJacobianPrecomputed_spec hp hq hx (hz he1).1 (hz he1).2)
    fun _ _ _ => dblPointEcJacobian_spec

/-- Where `z2` is one, and `z1` too if the points are equal. -/
theorem generalAddPointEcJacobianZ2Is1_spec (p3 : SlotJacobian) (h1 : p1.Denotes P) (h2 : p2.Denotes Q)
    (hz2 : p2.empty = false → p2.point.z = 1)
    (hz1 : p1.empty = false → p2.empty = false → P = Q → p1.point.z = 1) :
    (generalAddPointEcJacobianZ2Is1 p1 p2 p3).Denotes (P + Q) :=
  generalAddPoint_spec h1 h2
    (fun _ he2 hp hq hx => addPointEcJacobianZ2Is1_spec hp hq hx (hz2 he2))
    fun he1 he2 heq hp => dblPointEcJacobianZ2Is1_spec hp (hz1 he1 he2 heq)

theorem SlotJacobian.Denotes.dbl (h : p3.Denotes P) : p3.dbl.Denotes (P + P) := by
  unfold SlotJacobian.dbl
  cases hempty : p3.empty with
  | true =>
    rw [h.zero hempty, add_zero, if_neg (by simp)]
    exact h.zero hempty ▸ h
  | false =>
    exact .of_is (dblPointEcJacobian_spec (h.point hempty)) rfl

end

end ZkevmProver
