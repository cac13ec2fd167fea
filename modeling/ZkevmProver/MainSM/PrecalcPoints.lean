import ZkevmProver.ECRecover.GroupOrder
import ZkevmProver.ECRecover.MulPointEcSave
import ZkevmProver.MainSM.ArithProved

/-!
# The precalculated points

With a filled buffer the main executor takes the sums of points from it, one after the other, without
computing them.  They are those that it would compute unless the ladder meets a point of its table.

  1. The buffer.
  2. What the main executor computes.
  3. The points of the buffer.
  4. When all points are right.
-/

namespace ZkevmProver

open Countdown ShortWeierstrass WeierstrassCurve MainExecutor

/-! ## The buffer -/

/-- Buffer for precalculated points for ECRecover. -/
structure ECRecoverPrecalcBuffer where
  filled : Bool
  pos : ℕ
  posUsed : ℕ
  buffer : ℕ → Fec

namespace MainExecutor

/-- `AddPointEc`, with the check if results are buffered. -/
def AddPointEcPrecalc (ecRecoverPrecalcBuffer : ECRecoverPrecalcBuffer) (lastECAdd : EllipticCurveAddition)
    (dbl : Bool) (x1 y1 x2 y2 : Fec) : Option ((Fec × Fec) × EllipticCurveAddition) :=
  if ecRecoverPrecalcBuffer.filled = true then
    if ecRecoverPrecalcBuffer.pos < 2 then none
    else
      let x3 := ecRecoverPrecalcBuffer.buffer (ecRecoverPrecalcBuffer.pos - 2)
      let y3 := ecRecoverPrecalcBuffer.buffer (ecRecoverPrecalcBuffer.pos - 1)
      some ((x3, y3), lastECAdd)
  else AddPointEc lastECAdd dbl x1 y1 x2 y2

end MainExecutor

/-! ## What the main executor computes -/

section

variable {P Q : secp256k1.Point} {last : EllipticCurveAddition}

/-- The coordinates are those of the point. -/
def IsCoordinates (r : Fec × Fec) (P : secp256k1.Point) : Prop := ∃ h, P = .some r.1 r.2 h

theorem IsCoordinates.eq {r : Fec × Fec} (h : IsCoordinates r P) : r = (xOf P, yOf P) := by
  obtain ⟨h', rfl⟩ := h
  rfl

theorem isCoordinates_of_ne (hP : P ≠ 0) : IsCoordinates (xOf P, yOf P) P := by
  cases P with
  | zero => exact absurd rfl hP
  | some x y h => exact ⟨h, rfl⟩

/-- A sum that was computed from two points has the coordinates of their sum. -/
theorem EllipticCurveAddition.Computed.isCoordinates {x3 y3 : Fec} (hP : P ≠ 0) (hQ : Q ≠ 0)
    (h : EllipticCurveAddition.Computed
      { bDouble := decide (P = Q), x1 := xOf P, y1 := yOf P, x2 := xOf Q, y2 := yOf Q, x3 := x3, y3 := y3 }) :
    IsCoordinates (x3, y3) (P + Q) := by
  cases P with
  | zero => exact absurd rfl hP
  | some x1 y1 h₁ =>
    cases Q with
    | zero => exact absurd rfl hQ
    | some x2 y2 h₂ =>
      have hx3 := h.x3
      have hy3 := h.y3
      have hdefined := h.defined
      unfold EllipticCurveAddition.slope at hx3 hy3
      dsimp only [xOf, yOf] at hx3 hy3 hdefined
      by_cases hsame : Affine.Point.some x1 y1 h₁ = .some x2 y2 h₂
      · rw [decide_eq_true hsame, if_pos rfl] at hx3 hy3
        rw [← hsame]
        have hy := y_ne_zero h₁.1
        have htwo : y1 + y1 ≠ 0 := by
          rw [← two_mul]
          exact mul_ne_zero two_ne_zero_fec hy
        obtain ⟨rfl, rfl⟩ := Affine.Point.some.inj hsame
        obtain ⟨h', hsum⟩ := add_self_of_ne h₁ two_ne_zero_fec hy (div_mul_cancel₀ (x1 * x1 * 3) htwo)
        rw [hsum]
        exact some_eq h' hx3.symm (by rw [hy3, hx3])
      · rw [decide_eq_false hsame, if_neg Bool.false_ne_true] at hx3 hy3 hdefined
        have hne : x1 ≠ x2 := fun heq => hdefined (sub_eq_zero.mpr heq.symm)
        obtain ⟨h', hsum⟩ := add_of_ne h₁ h₂ hne (div_mul_cancel₀ (y2 - y1) (sub_ne_zero.mpr hne.symm))
        rw [hsum]
        exact some_eq h' hx3.symm (by rw [hy3, hx3])

theorem xOf_ne_zero (hP : P ≠ 0) : xOf P ≠ 0 := by
  obtain ⟨h, -⟩ := isCoordinates_of_ne hP
  exact x_ne_zero h.1

theorem yOf_ne_zero (hP : P ≠ 0) : yOf P ≠ 0 := by
  obtain ⟨h, -⟩ := isCoordinates_of_ne hP
  exact y_ne_zero h.1

/-- Points with one first coordinate are equal or opposite. -/
theorem eq_or_add_eq_zero (hP : P ≠ 0) (hQ : Q ≠ 0) (hx : xOf P = xOf Q) : P = Q ∨ P + Q = 0 := by
  obtain ⟨h₁, hPeq⟩ := isCoordinates_of_ne hP
  obtain ⟨h₂, hQeq⟩ := isCoordinates_of_ne hQ
  have hx' : xOf P * 1 ^ 2 = xOf Q * 1 ^ 2 := by rw [hx]
  have hP' : IsJacobian (xOf P) (yOf P) 1 P := by
    rw [hPeq]
    exact .of_affine h₁
  have hQ' : IsJacobian (xOf Q) (yOf Q) 1 Q := by
    rw [hQeq]
    exact .of_affine h₂
  by_cases hy : yOf P * 1 ^ 3 = yOf Q * 1 ^ 3
  · exact .inl (hP'.eq hQ' hx' hy)
  · exact .inr (hP'.add_eq_zero hQ' hx' hy)

/-- What the main executor computes for two points that are not opposite. -/
theorem AddPointEc_sum (hP : P ≠ 0) (hQ : Q ≠ 0) (hsum : P + Q ≠ 0) (hlast : last = {} ∨ last.Computed) :
    ∃ last', AddPointEc last (decide (P = Q)) (xOf P) (yOf P) (xOf Q) (yOf Q) =
      some ((xOf (P + Q), yOf (P + Q)), last') ∧ (last' = {} ∨ last'.Computed) := by
  cases hadd : AddPointEc last (decide (P = Q)) (xOf P) (yOf P) (xOf Q) (yOf Q) with
  | none =>
    unfold AddPointEc at hadd
    split_ifs at hadd with hcached hdbl
    · dsimp only at hadd
      rw [Option.map_eq_none_iff] at hadd
      have hzero : yOf P + yOf P = 0 := by
        by_contra hne
        rw [if_neg hne] at hadd
        exact nomatch hadd
      rw [← two_mul] at hzero
      exact absurd hzero (mul_ne_zero two_ne_zero_fec (yOf_ne_zero hP))
    · dsimp only at hadd
      rw [Option.map_eq_none_iff] at hadd
      have hzero : xOf Q - xOf P = 0 := by
        by_contra hne
        rw [if_neg hne] at hadd
        exact nomatch hadd
      have hother : P ≠ Q := fun heq => hdbl (decide_eq_true heq)
      rcases eq_or_add_eq_zero hP hQ (sub_eq_zero.mp hzero).symm with heq | hopposite
      · exact absurd heq hother
      · exact absurd hopposite hsum
  | some r =>
    obtain ⟨⟨x3, y3⟩, last'⟩ := r
    have hsame : decide (P = Q) = true → xOf Q = xOf P ∧ yOf Q = yOf P := by
      intro heq
      rw [of_decide_eq_true heq]
      exact ⟨rfl, rfl⟩
    obtain ⟨hlast', hzero | hcomputed⟩ := AddPointEc_spec hlast hsame hadd
    · exact absurd hzero.2.1 (xOf_ne_zero hP)
    · rw [← (hcomputed.isCoordinates hP hQ).eq]
      exact ⟨last', rfl, hlast'⟩

end

/-! ## The points of the buffer -/

/-- The buffer holds the points of the ladder, in order, and nothing else has been written: they are what
the main executor computes, with any sum in its cache, from the two points of each sum. -/
structure SavesLadder (P1 P2 : secp256k1.Point) (k1 k2 : ℕ) (before : ℕ → Fec) (result : ℕ × (ℕ → Fec)) :
    Prop where
  count : result.1 = 2 * (ladderSums P1 P2 k1 k2).length
  le : result.1 ≤ 1026
  points : ∀ j P Q, (ladderSums P1 P2 k1 k2)[j]? = some (P, Q) →
    IsCoordinates (result.2 (2 * j), result.2 (2 * j + 1)) (P + Q) ∧
    ∀ buffer : ECRecoverPrecalcBuffer, buffer.filled = false → ∀ last : EllipticCurveAddition,
      last = {} ∨ last.Computed →
        ∃ last', AddPointEcPrecalc buffer last (decide (P = Q)) (xOf P) (yOf P) (xOf Q) (yOf Q) =
          some ((result.2 (2 * j), result.2 (2 * j + 1)), last') ∧ (last' = {} ∨ last'.Computed)
  rest : ∀ i ≥ result.1, result.2 i = before i

section

variable {P P1 P2 : secp256k1.Point} {k1 k2 : ℕ}

/-- A triple stands for the point whose coordinates it is converted to. -/
theorem isCoordinates_jacobian2Affine {q : PointJacobian} :
    IsCoordinates (jacobian2Affine q) P ↔ q.Is P := by
  refine ⟨fun ⟨h, heq⟩ => ?_, fun h => h.affine⟩
  subst heq
  have hz : q.z ≠ 0 := by
    intro hz
    have hy : (jacobian2Affine q).2 = 0 := by
      unfold jacobian2Affine
      dsimp only
      rw [hz, inv_zero, mul_zero, mul_zero]
    exact y_ne_zero h.1 hy
  refine ⟨hz, _, _, h, rfl, ?_, ?_⟩
  · unfold jacobian2Affine
    field_simp
  · unfold jacobian2Affine
    field_simp

/-- Every sum of the ladder is of points that are not at infinity, and its result is not. -/
def Ladder.Proper (l : Ladder) : Prop := ∀ sum ∈ l.sums, sum.1 ≠ 0 ∧ sum.2 ≠ 0 ∧ sum.1 + sum.2 ≠ 0

theorem Ladder.Proper.double {l : Ladder} (h : l.Proper) : l.double.Proper := by
  unfold Ladder.double
  split_ifs with hacc
  · exact h
  · intro sum hmem
    rcases List.mem_append.mp hmem with hmem | hmem
    · exact h sum hmem
    · rw [List.mem_singleton.mp hmem]
      exact ⟨hacc, hacc, add_self_ne_zero hacc⟩

theorem Ladder.Proper.add {l : Ladder} (h : l.Proper) (T : secp256k1.Point) : (l.add T).Proper := by
  unfold Ladder.add Ladder.Proper
  dsimp only
  split_ifs with hall
  · intro sum hmem
    rcases List.mem_append.mp hmem with hmem | hmem
    · exact h sum hmem
    · rw [List.mem_singleton.mp hmem]
      exact hall
  · exact h

theorem proper_ladder (n : ℕ) : (ladder P1 P2 k1 k2 n).Proper := by
  induction n with
  | zero => exact nofun
  | succ n ih => exact ih.double.add _

theorem proper_ladderSums (hP1 : P1 ≠ 0) (hP2 : P2 ≠ 0) {sum : secp256k1.Point × secp256k1.Point}
    (hmem : sum ∈ ladderSums P1 P2 k1 k2) : sum.1 ≠ 0 ∧ sum.2 ≠ 0 ∧ sum.1 + sum.2 ≠ 0 := by
  unfold ladderSums at hmem
  rcases List.mem_append.mp hmem with hmem | hmem
  · split_ifs at hmem with hsum
    · rw [List.mem_singleton.mp hmem]
      exact ⟨hP1, hP2, hsum⟩
    · exact nomatch hmem
  · exact proper_ladder 256 sum hmem

end

/-! ## When all points are right -/

section

variable {P1 P2 : secp256k1.Point} {k1 k2 : ℕ} {p1 p2 : PointMpz} {p : ℕ → SlotJacobian}

variable (P1 P2) in
/-- The number of points before those of the loop. -/
def npointTable : ℕ := if P1 + P2 ≠ 0 then 1 else 0

theorem length_ladderSums :
    (ladderSums P1 P2 k1 k2).length = npointTable P1 P2 + (ladder P1 P2 k1 k2 256).sums.length := by
  unfold ladderSums npointTable
  rw [List.length_append]
  split_ifs <;> rfl

theorem getElem_ladderSums (i : ℕ) :
    (ladderSums P1 P2 k1 k2)[npointTable P1 P2 + i]? = (ladder P1 P2 k1 k2 256).sums[i]? := by
  unfold ladderSums npointTable
  split_ifs
  · rw [List.getElem?_append_right (by simp)]
    simp
  · simp

theorem lt_npointTable {j : ℕ} (h : j < npointTable P1 P2) : j = 0 ∧ P1 + P2 ≠ 0 := by
  unfold npointTable at h
  split_ifs at h with hne
  · exact ⟨Nat.lt_one_iff.mp h, hne⟩
  · exact absurd h (Nat.not_lt_zero j)

theorem getElem_zero_ladderSums (hne : P1 + P2 ≠ 0) : (ladderSums P1 P2 k1 k2)[0]? = some (P1, P2) := by
  unfold ladderSums
  rw [if_pos hne]
  rfl

/-- The table holds the sum of both points, and the buffer too unless they are opposite. -/
theorem table_three (h1 : p1.Is P1) (h2 : p2.Is P2) (p : ℕ → SlotJacobian) :
    ((MulPointEcJacobian1bit.table p1 p2 p 3).empty = true ↔ P1 + P2 = 0) ∧
      (P1 + P2 ≠ 0 → IsCoordinates ((MulPointEcJacobian1bit.table p1 p2 p 3).point.x,
        (MulPointEcJacobian1bit.table p1 p2 p 3).point.y) (P1 + P2)) := by
  obtain ⟨htable, hone⟩ := MulPointEcJacobian1bit.table_spec h1 h2 p
  have hentry := htable 3 (by decide)
  have hvalue : tableValue 1 P1 P2 3 = P1 + P2 := by
    have hone : tableValue 1 P1 P2 3 = 1 • P1 + 1 • P2 := rfl
    rw [hone, one_nsmul, one_nsmul]
  rw [hvalue] at hentry
  refine ⟨hentry.empty_iff, fun hne => ?_⟩
  have hfull := hentry.full_iff.mpr hne
  have haffine := isCoordinates_jacobian2Affine.mpr (hentry.point hfull)
  unfold jacobian2Affine at haffine
  dsimp only at haffine
  rwa [hone 3 (by decide) hfull, inv_one, mul_one, mul_one, mul_one, mul_one] at haffine

variable (P1 P2 k1 k2) in
/-- A run of the loop has left the result in the buffer. -/
structure Saved (before : ℕ → Fec) (result : ℕ × (ℕ → Fec)) (s : SaveState) : Prop where
  follows : Follows P1 P2 k1 k2 256 s
  length : s.saved.length ≤ 510
  count : result.1 = 2 * (s.saved.length + npointTable P1 P2)
  table : P1 + P2 ≠ 0 → IsCoordinates (result.2 0, result.2 1) (P1 + P2)
  points : ∀ i q, s.saved[i]? = some q →
    (result.2 (2 * (i + npointTable P1 P2)), result.2 (2 * (i + npointTable P1 P2) + 1)) = jacobian2Affine q
  rest : ∀ i ≥ result.1, result.2 i = before i

theorem mulPointEcJacobian1bitSave_saved (h1 : p1.Is P1) (h2 : p2.Is P2) (before : ℕ → Fec)
    (p : ℕ → SlotJacobian) (p3 : PointJacobian) :
    ∃ s, Saved P1 P2 k1 k2 before (mulPointEcJacobian1bitSave p1 k1 p2 k2 before p p3) s := by
  obtain ⟨htable, hone⟩ := MulPointEcJacobian1bit.table_spec h1 h2 p
  obtain ⟨hempty, hthree⟩ := table_three h1 h2 p
  unfold mulPointEcJacobian1bitSave
  dsimp only
  generalize MulPointEcJacobian1bit.table p1 p2 p = t at *
  have hfollows : Follows P1 P2 k1 k2 256 _ := follows_run htable hone p3
  have hlength := MulPointEcJacobian1bitSave.length_saved t k1 k2 p3
  generalize countdown (MulPointEcJacobian1bitSave.step t k1 k2) 256 ⟨⟨p3, true⟩, []⟩ = s at *
  have hcount : (if !(t 3).empty then 1 else 0) = npointTable P1 P2 := by
    unfold npointTable
    cases he : (t 3).empty with
    | true => rw [if_neg (by simp), if_neg (not_not.mpr (hempty.mp he))]
    | false => rw [if_pos (by simp), if_pos fun hsum => Bool.false_ne_true (he.symm.trans (hempty.mpr hsum))]
  rw [hcount]
  obtain ⟨hother, hpoints⟩ := MulPointEcJacobian1bitSave.writeAll_apply (npointTable P1 P2) s.saved
    (if !(t 3).empty then MulPointEcJacobian1bitSave.write before 0 ((t 3).point.x, (t 3).point.y) else before)
  refine ⟨s, hfollows, hlength, rfl, fun hne => ?_, fun i q hq => ?_, fun i hi => ?_⟩
  · have hfull : (t 3).empty = false := Bool.eq_false_of_not_eq_true fun he => hne (hempty.mp he)
    have hfirst : npointTable P1 P2 = 1 := if_pos hne
    dsimp only
    rw [hother 0 (.inl (by omega)), hother 1 (.inl (by omega)), if_pos (by simp [hfull]),
      MulPointEcJacobian1bitSave.write_apply, MulPointEcJacobian1bitSave.write_apply]
    exact hthree hne
  · exact Prod.ext (hpoints i q hq).1 (hpoints i q hq).2
  · dsimp only at hi ⊢
    rw [hother i (.inr hi)]
    cases he : (t 3).empty with
    | true => rfl
    | false =>
      have hfirst : npointTable P1 P2 = 1 := if_pos fun hsum => Bool.false_ne_true (he.symm.trans (hempty.mpr hsum))
      rw [if_pos (by simp), MulPointEcJacobian1bitSave.write_apply, if_neg (by omega), if_neg (by omega)]

theorem SavesLadder.meetsAtScaleOne {before : ℕ → Fec} {result : ℕ × (ℕ → Fec)} {s : SaveState}
    (hsaves : SavesLadder P1 P2 k1 k2 before result) (h : Saved P1 P2 k1 k2 before result s) :
    ∀ n < 256, MeetsAtScaleOne P1 P2 k1 k2 n := by
  rcases h.follows with ⟨hmeets, -⟩ | ⟨-, i, q, P, Q, hq, hsum, hwrong⟩
  · exact hmeets
  · have hget := @getElem_ladderSums P1 P2 k1 k2 i
    rw [hsum] at hget
    obtain ⟨hpoint, -⟩ := hsaves.points _ P Q hget
    rw [Nat.add_comm, h.points i q hq] at hpoint
    exact absurd (isCoordinates_jacobian2Affine.mp hpoint) hwrong

theorem Saved.savesLadder {before : ℕ → Fec} {result : ℕ × (ℕ → Fec)} {s : SaveState}
    (h : Saved P1 P2 k1 k2 before result s) (hP1 : P1 ≠ 0) (hP2 : P2 ≠ 0)
    (hmeets : ∀ n < 256, MeetsAtScaleOne P1 P2 k1 k2 n) : SavesLadder P1 P2 k1 k2 before result := by
  rcases h.follows with ⟨-, htracks⟩ | ⟨⟨m, hm, hwrong⟩, -⟩
  · have hlength := htracks.saved.length_eq
    have hpoints : ∀ j P Q, (ladderSums P1 P2 k1 k2)[j]? = some (P, Q) →
        IsCoordinates (result.2 (2 * j), result.2 (2 * j + 1)) (P + Q) := by
      intro j P Q hsum
      rcases Nat.lt_or_ge j (npointTable P1 P2) with hj | hj
      · obtain ⟨rfl, hne⟩ := lt_npointTable hj
        rw [getElem_zero_ladderSums hne] at hsum
        obtain ⟨rfl, rfl⟩ := Prod.mk.inj (Option.some_inj.mp hsum)
        exact h.table hne
      · obtain ⟨i, rfl⟩ := Nat.exists_eq_add_of_le hj
        rw [getElem_ladderSums] at hsum
        obtain ⟨q, hq, hpoint⟩ := htracks.point hsum
        rw [Nat.add_comm, h.points i q hq]
        exact isCoordinates_jacobian2Affine.mpr hpoint
    refine ⟨?_, ?_, fun j P Q hsum => ⟨hpoints j P Q hsum, fun buffer hfilled last hlast => ?_⟩, h.rest⟩
    · rw [h.count, length_ladderSums, hlength, Nat.add_comm]
    · have hcount := h.count
      have hlast := h.length
      have htable : npointTable P1 P2 ≤ 1 := by
        unfold npointTable
        split_ifs <;> decide
      omega
    · obtain ⟨hP, hQ, hne⟩ := proper_ladderSums hP1 hP2 (List.mem_of_getElem? hsum)
      unfold AddPointEcPrecalc
      rw [if_neg (by rw [hfilled]; exact Bool.false_ne_true), (hpoints j P Q hsum).eq]
      exact AddPointEc_sum hP hQ hne hlast
  · exact absurd (hmeets m hm) hwrong

/-- The buffer holds the ladder exactly when the doubled accumulator has `z = 1` wherever it is the point of
the table that is added to it. -/
theorem savesLadder_iff (h1 : p1.Is P1) (h2 : p2.Is P2) (k1 k2 : ℕ) (before : ℕ → Fec)
    (p : ℕ → SlotJacobian) (p3 : PointJacobian) :
    SavesLadder P1 P2 k1 k2 before (mulPointEcJacobian1bitSave p1 k1 p2 k2 before p p3) ↔
      ∀ n < 256, MeetsAtScaleOne P1 P2 k1 k2 n := by
  obtain ⟨s, h⟩ := @mulPointEcJacobian1bitSave_saved P1 P2 k1 k2 p1 p2 h1 h2 before p p3
  exact ⟨fun hsaves => hsaves.meetsAtScaleOne h, h.savesLadder h1.jacobian.ne_zero h2.jacobian.ne_zero⟩

theorem savesLadder_sample : baseMpz.Is basePoint ∧ doubleMpz.Is (basePoint + basePoint) ∧
    (SavesLadder basePoint (basePoint + basePoint) 3 5 (fun _ => 0)
        (mulPointEcJacobian1bitSave baseMpz 3 doubleMpz 5 (fun _ => 0) (fun _ => ⟨⟨0, 0, 0⟩, true⟩) ⟨0, 0, 0⟩) ↔
      ∀ n < 256, MeetsAtScaleOne basePoint (basePoint + basePoint) 3 5 n) :=
  ⟨baseMpz_is, doubleMpz_is, savesLadder_iff baseMpz_is doubleMpz_is 3 5 _ _ _⟩

/-- The accumulator of the ladder is the sum by the bits above. -/
theorem ladder_acc (hk1 : k1 < 2 ^ 256) (hk2 : k2 < 2 ^ 256) {n : ℕ} (hn : n ≤ 256) :
    (ladder P1 P2 k1 k2 n).acc = above 1 k1 k2 P1 P2 (256 - n) := by
  induction n with
  | zero => exact (above_eq_zero P1 P2 (lt_two_pow_one hk1) (lt_two_pow_one hk2)).symm
  | succ n ih =>
    have hsum := above_eq_double_add 1 k1 k2 P1 P2 (255 - n)
    have hnext : 255 - n + 1 = 256 - n := by omega
    have hbit : 256 - (n + 1) = 255 - n := by omega
    rw [hnext, ← ih (by omega)] at hsum
    rw [hbit, hsum, pow_one, two_nsmul]
    show (ladder P1 P2 k1 k2 n).double.acc + _ = _
    unfold Ladder.double
    split_ifs with hzero
    · rw [hzero, add_zero]
    · rfl

/-- With the double of the base point as the second point the last addition of `2 P1 + P2` is of `P2` to
itself, with `z = 2 y`. -/
theorem not_savesLadder : ¬∀ (P1 P2 : secp256k1.Point) (p1 p2 : PointMpz), p1.Is P1 → p2.Is P2 →
    ∀ k1 < 2 ^ 256, ∀ k2 < 2 ^ 256, ∀ before p p3,
      SavesLadder P1 P2 k1 k2 before (mulPointEcJacobian1bitSave p1 k1 p2 k2 before p p3) := by
  intro hall
  obtain ⟨s, h⟩ := @mulPointEcJacobian1bitSave_saved basePoint (basePoint + basePoint) 2 1 baseMpz doubleMpz
    baseMpz_is doubleMpz_is (fun _ => 0) (fun _ => ⟨⟨0, 0, 0⟩, true⟩) ⟨0, 0, 0⟩
  have hsaves := hall _ _ _ _ baseMpz_is doubleMpz_is 2 (by norm_num) 1 (by norm_num)
    (fun _ => 0) (fun _ => ⟨⟨0, 0, 0⟩, true⟩) ⟨0, 0, 0⟩
  have hlast := hsaves.meetsAtScaleOne h 255 (by decide)
  have hbefore := @ladder_acc basePoint (basePoint + basePoint) 2 1 (by norm_num) (by norm_num) 254 (by decide)
  have hacc := @ladder_acc basePoint (basePoint + basePoint) 2 1 (by norm_num) (by norm_num) 255 (by decide)
  have hzero : above 1 2 1 basePoint (basePoint + basePoint) (256 - 254) = 0 := by
    show (0 : ℕ) • basePoint + (0 : ℕ) • (basePoint + basePoint) = 0
    rw [zero_nsmul, zero_nsmul, add_zero]
  have hbase : above 1 2 1 basePoint (basePoint + basePoint) (256 - 255) = basePoint := by
    show (1 : ℕ) • basePoint + (0 : ℕ) • (basePoint + basePoint) = basePoint
    rw [one_nsmul, zero_nsmul, add_zero]
  have hwindow : window 1 2 1 basePoint (basePoint + basePoint) (255 - 255) = basePoint + basePoint := by
    show (0 : ℕ) • basePoint + (1 : ℕ) • (basePoint + basePoint) = basePoint + basePoint
    rw [zero_nsmul, one_nsmul, zero_add]
  have hne : basePoint ≠ 0 := Affine.Point.some_ne_zero nonsingular_base
  have hdouble : (ladder basePoint (basePoint + basePoint) 2 1 255).double.acc = basePoint + basePoint := by
    unfold Ladder.double
    rw [if_neg (by rw [hacc, hbase]; exact hne), hacc, hbase]
  have hscale : scale basePoint (basePoint + basePoint) 2 1 255 = 1 := by
    have hempty : (ladder basePoint (basePoint + basePoint) 2 1 254).double.acc = 0 := by
      unfold Ladder.double
      rw [if_pos (hbefore.trans hzero), hbefore, hzero]
    show addScale (ladder basePoint (basePoint + basePoint) 2 1 254).double.acc _ _ = 1
    rw [hempty]
    exact if_pos rfl
  unfold MeetsAtScaleOne at hlast
  rw [hdouble, hwindow, hacc, hbase, hscale] at hlast
  have hone := hlast (add_self_ne_zero hne) rfl
  have hne_one : 2 * (ECGY : Fec) * 1 ^ 4 ≠ 1 := by decide
  exact hne_one hone

end

end ZkevmProver
