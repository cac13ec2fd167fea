import Mathlib.Data.List.GetD
import ZkevmProver.ECRecover.MulPointEc

/-!
# The points of the ladder, saved on the way

`mulPointEcJacobian1bitSave` walks like `mulPointEcJacobian1bit` and keeps the points of its accumulator
in Jacobian coordinates, which it converts into the buffer of its caller after the loop.

1. The function
2. The ladder
3. One pass
4. The run
5. The buffer
-/

namespace ZkevmProver

open Countdown ShortWeierstrass WeierstrassCurve

/-! ## The function -/

/-- The variables of the loop: the accumulator, and `buffer_` up to `pcont_in`. -/
structure SaveState where
  p3 : SlotJacobian
  saved : List PointJacobian

namespace MulPointEcJacobian1bitSave

/-- The doubling of one pass of the loop. -/
def double (s : SaveState) : SaveState :=
  if !s.p3.empty then
    let p3 := s.p3.dbl
    ⟨p3, s.saved ++ [p3.point]⟩
  else s

/-- The addition of one pass of the loop. -/
def add (e : SlotJacobian) (s : SaveState) : SaveState :=
  let aux := s.p3.empty
  let p3 := generalAddPointEcJacobianZ2Is1 s.p3 e s.p3
  if !aux && !p3.empty && !e.empty then ⟨p3, s.saved ++ [p3.point]⟩ else ⟨p3, s.saved⟩

def step (p : ℕ → SlotJacobian) (k1 k2 i : ℕ) (s : SaveState) : SaveState :=
  add (p (window1 k1 k2 i)) (double s)

/-- `buffer[i] = r.x; buffer[i + 1] = r.y` -/
def write (buffer : ℕ → Fec) (i : ℕ) (r : Fec × Fec) : ℕ → Fec :=
  Function.update (Function.update buffer i r.1) (i + 1) r.2

/-- The loop after which the points are in the buffer. -/
def writeAll (npoint_p11 : ℕ) (saved : List PointJacobian) (buffer : ℕ → Fec) : ℕ → Fec :=
  (List.range saved.length).foldl
    (fun buffer i => write buffer (2 * (i + npoint_p11)) (jacobian2Affine (saved.getD i ⟨0, 0, 0⟩))) buffer

end MulPointEcJacobian1bitSave

/-- The number of components, and the buffer.  `p` and `p3` are what its local variables hold before they
are written. -/
def mulPointEcJacobian1bitSave (p1 : PointMpz) (k1 : ℕ) (p2 : PointMpz) (k2 : ℕ) (buffer : ℕ → Fec)
    (p : ℕ → SlotJacobian) (p3 : PointJacobian) : ℕ × (ℕ → Fec) :=
  let p := MulPointEcJacobian1bit.table p1 p2 p
  let npoint_p11 := if !(p 3).empty then 1 else 0
  let buffer := if !(p 3).empty then MulPointEcJacobian1bitSave.write buffer 0 ((p 3).point.x, (p 3).point.y)
    else buffer
  let s := countdown (MulPointEcJacobian1bitSave.step p k1 k2) 256 ⟨⟨p3, true⟩, []⟩
  let buffer := MulPointEcJacobian1bitSave.writeAll npoint_p11 s.saved buffer
  (2 * (s.saved.length + npoint_p11), buffer)

/-! ## The ladder -/

/-- The accumulator, and the two points of each sum that it went through. -/
structure Ladder where
  acc : secp256k1.Point
  sums : List (secp256k1.Point × secp256k1.Point)

def Ladder.double (l : Ladder) : Ladder :=
  if l.acc = 0 then l else ⟨l.acc + l.acc, l.sums ++ [(l.acc, l.acc)]⟩

/-- Only a sum of points that are not at infinity, and whose result is not, is kept. -/
def Ladder.add (T : secp256k1.Point) (l : Ladder) : Ladder :=
  ⟨l.acc + T, if l.acc ≠ 0 ∧ T ≠ 0 ∧ l.acc + T ≠ 0 then l.sums ++ [(l.acc, T)] else l.sums⟩

section

variable (P1 P2 : secp256k1.Point) (k1 k2 : ℕ)

/-- The ladder after the first `n` of the 256 bits, from the top. -/
def ladder : ℕ → Ladder
  | 0 => ⟨0, []⟩
  | n + 1 => (ladder n).double.add (window 1 k1 k2 P1 P2 (255 - n))

/-- All sums, with that of the table first. -/
def ladderSums : List (secp256k1.Point × secp256k1.Point) :=
  (if P1 + P2 ≠ 0 then [(P1, P2)] else []) ++ (ladder P1 P2 k1 k2 256).sums

end

def xOf : secp256k1.Point → Fec
  | .zero => 0
  | .some x _ _ => x

def yOf : secp256k1.Point → Fec
  | .zero => 0
  | .some _ y _ => y

/-- The `z` of a doubled point. -/
def doubleScale (A : secp256k1.Point) (z : Fec) : Fec := 2 * yOf A * z ^ 4

/-- The `z` of the sum with a point whose `z` is one. -/
def addScale (A T : secp256k1.Point) (z : Fec) : Fec :=
  if A = 0 then 1
  else if T = 0 then z
  else if A = T then 2 * yOf A * z ^ 3
  else 2 * (xOf T - xOf A) * z ^ 3

section

variable (P1 P2 : secp256k1.Point) (k1 k2 : ℕ)

/-- The `z` of the accumulator after the first `n` bits. -/
def scale : ℕ → Fec
  | 0 => 1
  | n + 1 => addScale (ladder P1 P2 k1 k2 n).double.acc (window 1 k1 k2 P1 P2 (255 - n))
      (doubleScale (ladder P1 P2 k1 k2 n).acc (scale n))

/-- Where the doubled accumulator is the point of the table that is added to it, its `z` is one. -/
def MeetsAtScaleOne (n : ℕ) : Prop :=
  (ladder P1 P2 k1 k2 n).double.acc ≠ 0 →
    (ladder P1 P2 k1 k2 n).double.acc = window 1 k1 k2 P1 P2 (255 - n) →
      doubleScale (ladder P1 P2 k1 k2 n).acc (scale P1 P2 k1 k2 n) = 1

end

/-! ## One pass -/

/-- The state stands for the ladder, with the given `z` in its accumulator. -/
structure SaveState.Tracks (s : SaveState) (l : Ladder) (z : Fec) : Prop where
  denotes : s.p3.Denotes l.acc
  scale : s.p3.empty = false → s.p3.point.z = z
  saved : List.Forall₂ (fun q sum => q.Is (sum.1 + sum.2)) s.saved l.sums

/-- A point has been saved that is not the sum at its place. -/
def SaveState.Strays (s : SaveState) (l : Ladder) : Prop :=
  ∃ (i : ℕ) (q : PointJacobian) (P Q : secp256k1.Point),
    s.saved[i]? = some q ∧ l.sums[i]? = some (P, Q) ∧ ¬q.Is (P + Q)

section

variable {P : secp256k1.Point} {e : SlotJacobian} {s : SaveState} {l : Ladder} {z : Fec}

theorem SlotJacobian.Denotes.empty_iff (h : e.Denotes P) : e.empty = true ↔ P = 0 := by
  refine ⟨h.zero, ?_⟩
  rintro rfl
  by_contra hempty
  exact (h.point (Bool.eq_false_of_not_eq_true hempty)).ne_zero rfl

theorem SlotJacobian.Denotes.full_iff (h : e.Denotes P) : e.empty = false ↔ P ≠ 0 := by
  rw [← Bool.not_eq_true, h.empty_iff]

theorem PointJacobian.Is.coordinates {q : PointJacobian} (h : q.Is P) :
    q.x = xOf P * q.z ^ 2 ∧ q.y = yOf P * q.z ^ 3 := by
  obtain ⟨-, px, py, hp, rfl, hx, hy⟩ := h
  exact ⟨hx, hy⟩

/-- The point at the place of a sum. -/
theorem SaveState.Tracks.point (h : s.Tracks l z) {i : ℕ} {A B : secp256k1.Point}
    (hsum : l.sums[i]? = some (A, B)) : ∃ q, s.saved[i]? = some q ∧ q.Is (A + B) := by
  obtain ⟨hi, hget⟩ := List.getElem?_eq_some_iff.mp hsum
  have hi' : i < s.saved.length := h.saved.length_eq ▸ hi
  have hpoint := h.saved.get hi' hi
  simp only [List.get_eq_getElem, hget] at hpoint
  exact ⟨_, List.getElem?_eq_getElem hi', hpoint⟩

theorem SaveState.Tracks.double (h : s.Tracks l z) :
    (MulPointEcJacobian1bitSave.double s).Tracks l.double (doubleScale l.acc z) := by
  unfold MulPointEcJacobian1bitSave.double Ladder.double
  cases hempty : s.p3.empty with
  | true =>
    rw [if_neg (by simp), if_pos (h.denotes.zero hempty)]
    exact ⟨h.denotes, fun hfull => absurd (hempty.symm.trans hfull) (by simp), h.saved⟩
  | false =>
    have hne := h.denotes.full_iff.mp hempty
    have hpoint := h.denotes.point hempty
    have hdbl : s.p3.dbl = { s.p3 with point := dblPointEcJacobian s.p3.point } := by
      unfold SlotJacobian.dbl
      rw [if_pos (by rw [hempty]; rfl)]
    have hdouble := dblPointEcJacobian_spec hpoint
    rw [if_pos (show (!false) = true from rfl), if_neg hne]
    refine ⟨h.denotes.dbl, fun _ => ?_, ?_⟩
    · dsimp only
      rw [hdbl]
      unfold dblPointEcJacobian doubleScale
      dsimp only
      rw [hpoint.coordinates.2, h.scale hempty]
      ring
    · dsimp only
      rw [hdbl]
      exact List.rel_append h.saved (.cons hdouble .nil)

/-- What the addition of two points does, by what they stand for. -/
theorem generalAddPoint_cases {add : PointJacobian → PointJacobian → PointJacobian}
    {dbl : PointJacobian → PointJacobian} {p1 p2 p3 : SlotJacobian} {Q : secp256k1.Point}
    (h1 : p1.point.Is P) (h2 : p2.point.Is Q) (he1 : p1.empty = false) (he2 : p2.empty = false) :
    (p1.point.x * p2.point.z ^ 2 ≠ p2.point.x * p1.point.z ^ 2 ∧ P ≠ Q ∧ generalAddPoint add dbl p1 p2 p3 =
        ⟨add p1.point p2.point, (add p1.point p2.point).z = 0⟩) ∨
      (P + Q = 0 ∧ P ≠ Q ∧ generalAddPoint add dbl p1 p2 p3 = { p3 with empty := true }) ∨
      (P = Q ∧ generalAddPoint add dbl p1 p2 p3 = ⟨dbl p1.point, (dbl p1.point).z = 0⟩) := by
  unfold generalAddPoint
  rw [he1, he2]
  simp only [Bool.false_and, Bool.false_eq_true, if_false, ← pow_two, ← pow_succ, Nat.reduceAdd]
  split_ifs with hx hy
  · refine .inl ⟨hx, ?_, rfl⟩
    rintro rfl
    exact hx (h1.cross h2).1
  · refine .inr (.inl ⟨h1.add_eq_zero h2 (not_not.mp hx) hy, ?_, rfl⟩)
    rintro rfl
    exact hy (h1.cross h2).2
  · exact .inr (.inr ⟨h1.eq h2 (not_not.mp hx) (not_not.mp hy), rfl⟩)

variable {T : secp256k1.Point}

theorem SaveState.Tracks.add (h : s.Tracks l z) (he : e.Denotes T) (hone : e.empty = false → e.point.z = 1)
    (hmeets : l.acc ≠ 0 → l.acc = T → z = 1) :
    (MulPointEcJacobian1bitSave.add e s).Tracks (l.add T) (addScale l.acc T z) := by
  unfold MulPointEcJacobian1bitSave.add Ladder.add generalAddPointEcJacobianZ2Is1
  dsimp only
  cases he1 : s.p3.empty with
  | true =>
    have hacc := h.denotes.zero he1
    rw [Bool.not_true, Bool.false_and, Bool.false_and, if_neg Bool.false_ne_true,
      if_neg fun hne => hne.1 hacc, hacc, zero_add]
    unfold generalAddPoint addScale
    rw [he1, if_pos rfl]
    cases he2 : e.empty with
    | true => exact ⟨⟨fun _ => he.zero he2, nofun⟩, nofun, h.saved⟩
    | false => exact ⟨he, hone, h.saved⟩
  | false =>
    have hne := h.denotes.full_iff.mp he1
    have hpoint := h.denotes.point he1
    cases he2 : e.empty with
    | true =>
      have hT := he.zero he2
      have hkept : generalAddPoint addPointEcJacobianZ2Is1 dblPointEcJacobianZ2Is1 s.p3 e s.p3 = s.p3 := by
        unfold generalAddPoint
        rw [he1, he2]
        rfl
      rw [hkept, he1, if_neg (by simp), if_neg fun hall => hall.2.1 hT, hT, add_zero]
      unfold addScale
      rw [if_neg hne, if_pos rfl]
      exact ⟨h.denotes, h.scale, h.saved⟩
    | false =>
      have hT := he.full_iff.mp he2
      have hentry := he.point he2
      obtain ⟨hx, hother, heq⟩ | ⟨hzero, hother, heq⟩ | ⟨hsame, heq⟩ := @generalAddPoint_cases l.acc
        addPointEcJacobianZ2Is1 dblPointEcJacobianZ2Is1 s.p3 e s.p3 T hpoint hentry he1 he2
      · have hsum := addPointEcJacobianZ2Is1_spec hpoint hentry hx (hone he2)
        rw [heq, if_pos (by simp [hsum.1]), if_pos ⟨hne, hT, hsum.ne_zero⟩]
        refine ⟨.of_is hsum (decide_eq_false hsum.1), fun _ => ?_,
          List.rel_append h.saved (.cons hsum .nil)⟩
        unfold addPointEcJacobianZ2Is1 addScale
        dsimp only
        rw [if_neg hne, if_neg hT, if_neg hother, hpoint.coordinates.1, hentry.coordinates.1, hone he2,
          h.scale he1]
        ring
      · rw [heq, if_neg (by simp), if_neg fun hall => hall.2.2 hzero]
        exact ⟨⟨fun _ => hzero, nofun⟩, nofun, h.saved⟩
      · have hz : s.p3.point.z = 1 := (h.scale he1).trans (hmeets hne hsame)
        have hdouble := dblPointEcJacobianZ2Is1_spec hpoint hz
        rw [heq, if_pos (by simp [hdouble.1]), ← hsame, if_pos ⟨hne, hne, hdouble.ne_zero⟩]
        refine ⟨.of_is hdouble (decide_eq_false hdouble.1), fun _ => ?_,
          List.rel_append h.saved (.cons hdouble .nil)⟩
        unfold dblPointEcJacobianZ2Is1 addScale
        dsimp only
        rw [if_neg hne, if_neg hne, if_pos rfl, hpoint.coordinates.2, h.scale he1]
        ring

/-- A point that is doubled as if its `z` were one is not the double. -/
theorem SaveState.Tracks.strays (h : s.Tracks l z) (he : e.Denotes T) (hne : l.acc ≠ 0) (hsame : l.acc = T)
    (hz : z ≠ 1) : (MulPointEcJacobian1bitSave.add e s).Strays (l.add T) := by
  have he1 := h.denotes.full_iff.mpr hne
  have he2 := he.full_iff.mpr (hsame ▸ hne)
  have hpoint := h.denotes.point he1
  have heq : generalAddPointEcJacobianZ2Is1 s.p3 e s.p3 = ⟨dblPointEcJacobianZ2Is1 s.p3.point,
      (dblPointEcJacobianZ2Is1 s.p3.point).z = 0⟩ := by
    obtain ⟨-, hother, -⟩ | ⟨-, hother, -⟩ | ⟨-, heq⟩ := @generalAddPoint_cases l.acc
      addPointEcJacobianZ2Is1 dblPointEcJacobianZ2Is1 s.p3 e s.p3 T hpoint (he.point he2) he1 he2
    · exact absurd hsame hother
    · exact absurd hsame hother
    · exact heq
  have hfull : (dblPointEcJacobianZ2Is1 s.p3.point).z ≠ 0 := by
    unfold dblPointEcJacobianZ2Is1
    dsimp only
    rw [← two_mul]
    exact mul_ne_zero two_ne_zero_fec hpoint.y_ne_zero
  have hlength := h.saved.length_eq
  have hdouble : l.acc + l.acc ≠ 0 := (dblPointEcJacobian_spec hpoint).ne_zero
  unfold MulPointEcJacobian1bitSave.add Ladder.add
  rw [heq, he1, he2, ← hsame, if_pos (by simp [hfull]), if_pos ⟨hne, hne, hdouble⟩]
  refine ⟨s.saved.length, dblPointEcJacobianZ2Is1 s.p3.point, l.acc, l.acc, by simp, by simp [hlength], ?_⟩
  rw [dblPointEcJacobianZ2Is1_iff hpoint, h.scale he1]
  exact hz

end

/-! ## The run -/

section

variable {s s' : SaveState} {l l' : Ladder}

theorem SaveState.prefix_double (s : SaveState) : s.saved <+: (MulPointEcJacobian1bitSave.double s).saved := by
  unfold MulPointEcJacobian1bitSave.double
  split_ifs
  · exact List.prefix_append _ _
  · exact List.prefix_rfl

theorem SaveState.prefix_add (e : SlotJacobian) (s : SaveState) :
    s.saved <+: (MulPointEcJacobian1bitSave.add e s).saved := by
  unfold MulPointEcJacobian1bitSave.add
  dsimp only
  split_ifs
  · exact List.prefix_append _ _
  · exact List.prefix_rfl

theorem Ladder.prefix_double (l : Ladder) : l.sums <+: l.double.sums := by
  unfold Ladder.double
  split_ifs
  · exact List.prefix_rfl
  · exact List.prefix_append _ _

theorem Ladder.prefix_add (T : secp256k1.Point) (l : Ladder) : l.sums <+: (l.add T).sums := by
  unfold Ladder.add
  dsimp only
  split_ifs
  · exact List.prefix_append _ _
  · exact List.prefix_rfl

/-- A wrong point stays where it is. -/
theorem SaveState.Strays.mono (h : s.Strays l) (hs : s.saved <+: s'.saved) (hl : l.sums <+: l'.sums) :
    s'.Strays l' := by
  obtain ⟨i, q, P, Q, hq, hsum, hwrong⟩ := h
  obtain ⟨his, -⟩ := List.getElem?_eq_some_iff.mp hq
  obtain ⟨hil, -⟩ := List.getElem?_eq_some_iff.mp hsum
  obtain ⟨rest, hrest⟩ := hs
  obtain ⟨rest', hrest'⟩ := hl
  refine ⟨i, q, P, Q, ?_, ?_, hwrong⟩
  · rw [← hrest, List.getElem?_append_left his, hq]
  · rw [← hrest', List.getElem?_append_left hil, hsum]

end

section

variable {P1 P2 : secp256k1.Point} {k1 k2 : ℕ} {p : ℕ → SlotJacobian}

variable (P1 P2 k1 k2) in
/-- After `n` bits the state stands for the ladder, or it has met a point of the table before. -/
def Follows (n : ℕ) (s : SaveState) : Prop :=
  ((∀ m < n, MeetsAtScaleOne P1 P2 k1 k2 m) ∧ s.Tracks (ladder P1 P2 k1 k2 n) (scale P1 P2 k1 k2 n)) ∨
    ((∃ m < n, ¬MeetsAtScaleOne P1 P2 k1 k2 m) ∧ s.Strays (ladder P1 P2 k1 k2 n))

theorem Follows.step (hp : Filled 1 P1 P2 {t | t < 4} p)
    (hz : ∀ t < 4, (p t).empty = false → (p t).point.z = 1) {n : ℕ} {s : SaveState}
    (h : Follows P1 P2 k1 k2 n s) :
    Follows P1 P2 k1 k2 (n + 1) (MulPointEcJacobian1bitSave.step p k1 k2 (255 - n) s) := by
  have hentry := hp _ (window1_lt k1 k2 (255 - n))
  rw [tableValue_window1] at hentry
  have hone := hz _ (window1_lt k1 k2 (255 - n))
  rcases h with ⟨hmeets, htracks⟩ | ⟨⟨m, hm, hmeets⟩, hstrays⟩
  · by_cases hlast : MeetsAtScaleOne P1 P2 k1 k2 n
    · refine .inl ⟨fun m hm => ?_, htracks.double.add hentry hone hlast⟩
      rcases Nat.lt_succ_iff_lt_or_eq.mp hm with hm | rfl
      · exact hmeets m hm
      · exact hlast
    · refine .inr ⟨⟨n, Nat.lt_succ_self n, hlast⟩, ?_⟩
      unfold MeetsAtScaleOne at hlast
      push Not at hlast
      obtain ⟨hne, hsame, hscale⟩ := hlast
      exact htracks.double.strays hentry hne hsame hscale
  · exact .inr ⟨⟨m, by omega, hmeets⟩, hstrays.mono
      (s.prefix_double.trans (SaveState.prefix_add _ _)) ((Ladder.prefix_double _).trans (Ladder.prefix_add _ _))⟩

theorem follows_run (hp : Filled 1 P1 P2 {t | t < 4} p)
    (hz : ∀ t < 4, (p t).empty = false → (p t).point.z = 1) (p3 : PointJacobian) :
    Follows P1 P2 k1 k2 256 (countdown (MulPointEcJacobian1bitSave.step p k1 k2) 256 ⟨⟨p3, true⟩, []⟩) := by
  let I (i : ℕ) (s : SaveState) : Prop := Follows P1 P2 k1 k2 (256 - i) s
  have hstart : I 256 ⟨⟨p3, true⟩, []⟩ := .inl ⟨nofun, ⟨fun _ => rfl, nofun⟩, nofun, .nil⟩
  have hend : I 0 _ := countdown_induction (I := I) (fun i hi s h => by
    have hstep := Follows.step hp hz h
    have hbit : 255 - (256 - (i + 1)) = i := by omega
    have hnext : 256 - (i + 1) + 1 = 256 - i := by omega
    rwa [hbit, hnext] at hstep) hstart
  exact hend

end

/-! ## The buffer -/

namespace MulPointEcJacobian1bitSave

theorem length_double (s : SaveState) :
    (double s).saved.length ≤ s.saved.length + if s.p3.empty then 0 else 1 := by
  unfold double
  cases s.p3.empty <;> simp

theorem length_add (e : SlotJacobian) (s : SaveState) :
    (add e s).saved.length ≤ s.saved.length + if s.p3.empty then 0 else 1 := by
  unfold add
  cases s.p3.empty with
  | true => simp
  | false =>
    dsimp only
    rw [if_neg Bool.false_ne_true]
    split_ifs <;> simp

theorem double_of_empty {s : SaveState} (h : s.p3.empty = true) : double s = s := by
  unfold double
  rw [h]
  rfl

/-- The first bit that reaches a point of the table saves nothing, and each of the others two points. -/
theorem length_saved (p : ℕ → SlotJacobian) (k1 k2 : ℕ) (p3 : PointJacobian) :
    (countdown (step p k1 k2) 256 ⟨⟨p3, true⟩, []⟩).saved.length ≤ 510 := by
  let I (i : ℕ) (s : SaveState) : Prop :=
    s.saved.length ≤ 2 * (255 - i) ∧ (i = 256 → s.p3.empty = true)
  have hstep : ∀ i < 256, ∀ s, I (i + 1) s → I i (step p k1 k2 i s) := by
    intro i hi s ⟨hlength, hfirst⟩
    refine ⟨?_, fun h => absurd h (by omega)⟩
    have hdouble := length_double s
    have hadd := length_add (p (window1 k1 k2 i)) (double s)
    have hstep : step p k1 k2 i s = add (p (window1 k1 k2 i)) (double s) := rfl
    rw [hstep]
    by_cases hlast : i + 1 = 256
    · rw [double_of_empty (hfirst hlast)] at hadd ⊢
      rw [hfirst hlast, if_pos rfl] at hadd
      omega
    · split_ifs at hdouble hadd <;> omega
  have hstart : I 256 ⟨⟨p3, true⟩, []⟩ := ⟨le_rfl, fun _ => rfl⟩
  have hend : I 0 _ := countdown_induction hstep hstart
  exact hend.1

theorem write_apply (buffer : ℕ → Fec) (i : ℕ) (r : Fec × Fec) (j : ℕ) :
    write buffer i r j = if j = i + 1 then r.2 else if j = i then r.1 else buffer j := by
  unfold write
  rw [Function.update_apply, Function.update_apply]

/-- What the last loop writes. -/
theorem writeAll_apply (npoint_p11 : ℕ) (saved : List PointJacobian) (buffer : ℕ → Fec) :
    (∀ j, j < 2 * npoint_p11 ∨ 2 * (saved.length + npoint_p11) ≤ j →
        writeAll npoint_p11 saved buffer j = buffer j) ∧
      ∀ i q, saved[i]? = some q →
        writeAll npoint_p11 saved buffer (2 * (i + npoint_p11)) = (jacobian2Affine q).1 ∧
        writeAll npoint_p11 saved buffer (2 * (i + npoint_p11) + 1) = (jacobian2Affine q).2 := by
  let f (i : ℕ) : Fec × Fec := jacobian2Affine (saved.getD i ⟨0, 0, 0⟩)
  let after (n : ℕ) : ℕ → Fec :=
    (List.range n).foldl (fun buffer i => write buffer (2 * (i + npoint_p11)) (f i)) buffer
  have hafter (n : ℕ) : (∀ j, j < 2 * npoint_p11 ∨ 2 * (n + npoint_p11) ≤ j → after n j = buffer j) ∧
      ∀ i < n, after n (2 * (i + npoint_p11)) = (f i).1 ∧ after n (2 * (i + npoint_p11) + 1) = (f i).2 := by
    induction n with
    | zero => exact ⟨fun _ _ => rfl, nofun⟩
    | succ n ih =>
      have hsucc (j : ℕ) : after (n + 1) j = if j = 2 * (n + npoint_p11) + 1 then (f n).2
          else if j = 2 * (n + npoint_p11) then (f n).1 else after n j := by
        have hrun : after (n + 1) = write (after n) (2 * (n + npoint_p11)) (f n) := by
          show List.foldl _ _ (List.range (n + 1)) = _
          rw [List.range_succ, List.foldl_append]
          rfl
        rw [hrun, write_apply]
      refine ⟨fun j hj => ?_, fun i hi => ?_⟩
      · rw [hsucc, if_neg (by omega), if_neg (by omega)]
        exact ih.1 j (by omega)
      · rw [hsucc, hsucc]
        rcases Nat.lt_succ_iff_lt_or_eq.mp hi with hi | rfl
        · rw [if_neg (by omega), if_neg (by omega), if_neg (by omega), if_neg (by omega)]
          exact ih.2 i hi
        · rw [if_neg (by omega), if_pos rfl, if_pos rfl]
          exact ⟨rfl, rfl⟩
  refine ⟨(hafter saved.length).1, fun i q hq => ?_⟩
  obtain ⟨hi, -⟩ := List.getElem?_eq_some_iff.mp hq
  have hf : f i = jacobian2Affine q := by
    show jacobian2Affine (saved.getD i _) = _
    rw [List.getD_eq_getElem?_getD, hq, Option.getD_some]
  rw [← hf]
  exact (hafter saved.length).2 i hi

end MulPointEcJacobian1bitSave

end ZkevmProver
