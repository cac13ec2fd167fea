import ZkevmProver.MainSM.MPdiv

/-!
# Multi-precision division is exact

The divisor is shifted by a power of two until its highest limb is at least half of the base.  Then an
estimate from the highest limbs is at most two too large, and the rest of the division is school division.
A partial remainder of zero is kept as one limb, so that the next partial dividend has a leading zero; with a
divisor of one limb it counts as longer than the divisor, and the estimate of a digit zero has no limb.

  1. Normalisation.
  2. Estimates.
  3. Corrections.
  4. A digit.
  5. All digits.
  6. The division.
-/

namespace ZkevmProver.MP

open Limbs

/-- `ScalarTwoTo256 / 2` -/
def half : ℤ := 2 ^ 255

theorem two_mul_half : ScalarTwoTo256 = 2 * half := by
  unfold ScalarTwoTo256 half
  rw [← pow_succ']

theorem half_pos : 0 < half := by
  unfold half
  exact pow_pos two_pos 255

theorem base_tdiv_two : ScalarTwoTo256.tdiv 2 = half := by
  rw [Int.tdiv_eq_ediv_of_nonneg base_pos.le, two_mul_half, Int.mul_ediv_cancel_left _ two_ne_zero]

/-! ## Normalisation -/

theorem val_cons (x : ℤ) (l : List ℤ) : val (x :: l) = x + ScalarTwoTo256 * val l := rfl

theorem val_concat (l : List ℤ) (x : ℤ) : val (l ++ [x]) = val l + ScalarTwoTo256 ^ l.length * x := by
  rw [val, value_append, value_cons, value_nil, mul_zero, add_zero]

/-- Doubling a number whose highest bit is not set doubles its highest limb at least. -/
theorem double_spec {l : List ℤ} {x : ℤ} (h : Number ScalarTwoTo256 (l ++ [x])) (hx : x < half) :
    ∃ l' x', MP_short_mul (l ++ [x]) 2 = l' ++ [x'] ∧ Number ScalarTwoTo256 (l' ++ [x']) ∧
      l'.length = l.length ∧ val (l' ++ [x']) = val (l ++ [x]) * 2 ∧ 2 * x ≤ x' := by
  obtain ⟨hnumber, hval⟩ := MP_short_mul_spec h.inRange (b := 2) two_pos.le
  obtain ⟨hx0, -⟩ := h.last
  have hl := (inRange_append.mp h.inRange).1
  have hl0 : 0 ≤ val l := value_nonneg hl
  have hlt : val l < ScalarTwoTo256 ^ l.length := value_lt hl
  have hP : 0 < ScalarTwoTo256 ^ l.length := pow_pos base_pos _
  have htwo := two_mul_half
  rw [val_concat] at hval
  have hne : MP_short_mul (l ++ [x]) 2 ≠ [] := by
    intro hnil
    rw [hnil] at hval
    have hpos := mul_pos hP hx0
    have hzero : val [] = 0 := rfl
    omega
  obtain ⟨l', x', heq⟩ := (List.eq_nil_or_concat' _).resolve_left hne
  rw [heq] at hnumber hval ⊢
  obtain ⟨hx'0, -⟩ := hnumber.last
  have hl' := (inRange_append.mp hnumber.inRange).1
  have hl'0 : 0 ≤ val l' := value_nonneg hl'
  have hl'lt : val l' < ScalarTwoTo256 ^ l'.length := value_lt hl'
  rw [val_concat] at hval
  -- the number of limbs does not change
  have hlength : l'.length = l.length := by
    have hupper : val l' + ScalarTwoTo256 ^ l'.length * x' < ScalarTwoTo256 ^ (l.length + 1) := by
      rw [hval, pow_succ]
      nlinarith
    have hlower : ScalarTwoTo256 ^ l.length ≤ val l' + ScalarTwoTo256 ^ l'.length * x' := by
      rw [hval]
      nlinarith
    have hP' : 0 < ScalarTwoTo256 ^ l'.length := pow_pos base_pos _
    have h1 : ScalarTwoTo256 ^ l'.length < ScalarTwoTo256 ^ (l.length + 1) :=
      lt_of_le_of_lt (by nlinarith) hupper
    have h2 : ScalarTwoTo256 ^ l.length < ScalarTwoTo256 ^ (l'.length + 1) := by
      refine lt_of_le_of_lt hlower ?_
      have hvalue := value_lt hnumber.inRange
      rwa [List.length_append, List.length_singleton, ← val, val_concat] at hvalue
    rw [pow_lt_pow_iff_right₀ one_lt_base] at h1 h2
    omega
  refine ⟨l', x', rfl, hnumber, hlength, by rw [val_concat, hval, val_concat], ?_⟩
  rw [hlength] at hval hl'lt
  by_contra hlt'
  have hmul : ScalarTwoTo256 ^ l.length * (x' + 1) ≤ ScalarTwoTo256 ^ l.length * (2 * x) :=
    mul_le_mul_of_nonneg_left (by omega) hP.le
  nlinarith

theorem normalizeLoop_spec (n : ℕ) {l : List ℤ} {x : ℤ} (h : Number ScalarTwoTo256 (l ++ [x]))
    (hn : half ≤ x * 2 ^ n) {fuel : ℕ} (hfuel : n < fuel) (shift : ℤ) :
    ∃ k l' x', normalizeLoop fuel (l ++ [x]) shift = some (l' ++ [x'], shift * 2 ^ k) ∧
      Number ScalarTwoTo256 (l' ++ [x']) ∧ l'.length = l.length ∧ half ≤ x' ∧
      val (l' ++ [x']) = val (l ++ [x]) * 2 ^ k := by
  induction n generalizing l x fuel shift with
  | zero =>
    obtain ⟨fuel, rfl⟩ := Nat.exists_eq_succ_of_ne_zero (Nat.ne_of_gt hfuel)
    rw [pow_zero, mul_one] at hn
    refine ⟨0, l, x, ?_, h, rfl, hn, by rw [pow_zero, mul_one]⟩
    rw [normalizeLoop_succ, List.getLast?_concat, Option.bind_eq_bind, Option.bind_some, base_tdiv_two,
      if_neg hn.not_gt, pow_zero, mul_one]
  | succ n ih =>
    obtain ⟨fuel, rfl⟩ := Nat.exists_eq_succ_of_ne_zero (Nat.ne_of_gt (Nat.zero_lt_of_lt hfuel))
    rw [normalizeLoop_succ, List.getLast?_concat, Option.bind_eq_bind, Option.bind_some, base_tdiv_two]
    by_cases hx : x < half
    · obtain ⟨l', x', heq, hnumber, hlength, hval, hx'⟩ := double_spec h hx
      have hn' : half ≤ x' * 2 ^ n := by
        calc half ≤ x * 2 ^ (n + 1) := hn
          _ = 2 * x * 2 ^ n := by ring
          _ ≤ x' * 2 ^ n := mul_le_mul_of_nonneg_right hx' (pow_pos two_pos n).le
      obtain ⟨k, l'', x'', heq', hnumber', hlength', hx'', hval'⟩ :=
        ih hnumber hn' (Nat.lt_of_succ_lt_succ hfuel) (shift * 2)
      refine ⟨k + 1, l'', x'', ?_, hnumber', hlength'.trans hlength, hx'', ?_⟩
      · rw [if_pos hx, heq, heq', pow_succ, mul_assoc, mul_comm (2 ^ k)]
      · rw [hval', hval, pow_succ, mul_assoc, mul_comm (2 ^ k)]
    · refine ⟨0, l, x, ?_, h, rfl, not_lt.mp hx, by rw [pow_zero, mul_one]⟩
      rw [if_neg hx, pow_zero, mul_one]

/-! ## Estimates -/

/-- A divisor as `normalize` leaves it, with its highest limb. -/
structure Normalised (l : List ℤ) (bm : ℤ) : Prop where
  number : Number ScalarTwoTo256 (l ++ [bm])
  half_le : half ≤ bm

/-- A partial dividend: a number, or a limb below a remainder of zero. -/
structure Partial (b an : List ℤ) : Prop where
  inRange : InRange ScalarTwoTo256 an
  shape : Number ScalarTwoTo256 an ∨ ∃ d, an = [d, 0]
  ne_nil : an ≠ []
  lt : val an < ScalarTwoTo256 * val b

section Estimates

variable {l an : List ℤ} {bm : ℤ}

theorem Normalised.pos (h : Normalised l bm) : 0 < bm ∧ bm < ScalarTwoTo256 := h.number.last

theorem Normalised.val_pos (h : Normalised l bm) : 0 < val (l ++ [bm]) :=
  h.number.value_pos base_pos (List.append_ne_nil_of_right_ne_nil l (List.cons_ne_nil bm []))

/-- The limbs of the divisor are below its highest one. -/
theorem Normalised.low (h : Normalised l bm) : 0 ≤ val l ∧ val l < ScalarTwoTo256 ^ l.length :=
  ⟨value_nonneg (inRange_append.mp h.number.inRange).1, value_lt (inRange_append.mp h.number.inRange).1⟩

/-- A divisor, one limb further up. -/
theorem inRange_shift {b : List ℤ} (h : InRange ScalarTwoTo256 b) : InRange ScalarTwoTo256 (0 :: b) :=
  inRange_cons.mpr ⟨⟨le_rfl, base_pos⟩, h⟩

theorem val_shift (b : List ℤ) : val (0 :: b) = ScalarTwoTo256 * val b := by
  rw [val, value_cons, zero_add]

theorem Partial.length_le (h : Partial (l ++ [bm]) an) (hn : Normalised l bm) : an.length ≤ l.length + 2 := by
  rcases h.shape with hnumber | ⟨d, rfl⟩
  · have hlt := h.lt
    rw [← val_shift] at hlt
    have hle := hnumber.length_le one_lt_base (inRange_shift hn.number.inRange) hlt.le
    rw [List.length_cons, List.length_append, List.length_singleton] at hle
    omega
  · exact Nat.le_add_left 2 l.length

theorem val_pair (x y : ℤ) : val [x, y] = x + ScalarTwoTo256 * y := by
  simp only [val, value_cons, value_nil, mul_zero, add_zero]

theorem val_two_high (al : List ℤ) (x y : ℤ) :
    val (al ++ [x, y]) = val al + ScalarTwoTo256 ^ al.length * (x + ScalarTwoTo256 * y) := by
  rw [val, value_append, ← val, ← val, val_pair]

theorem number_singleton {q : ℤ} (h0 : 0 < q) (hlt : q < ScalarTwoTo256) : Number ScalarTwoTo256 [q] :=
  ⟨inRange_cons.mpr ⟨⟨h0.le, hlt⟩, inRange_nil⟩, fun h => h0.ne' (Option.some_inj.mp h)⟩

/-- The quotient of the two highest limbs has one limb, or none. -/
theorem short_two {x y : ℤ} (hx : 0 ≤ x ∧ x < ScalarTwoTo256) (hy0 : 0 ≤ y) (hy : y < bm)
    (hbm : bm < ScalarTwoTo256) :
    ((_MPdiv_short [x, y] bm).bind fun quotient => quotient.1.head?) =
      if (x + ScalarTwoTo256 * y) / bm = 0 then none else some ((x + ScalarTwoTo256 * y) / bm) := by
  have hbm0 : 0 < bm := hy0.trans_lt hy
  have hrange : InRange ScalarTwoTo256 [x, y] :=
    inRange_cons.mpr ⟨hx, inRange_cons.mpr ⟨⟨hy0, hy.trans hbm⟩, inRange_nil⟩⟩
  obtain ⟨quotient, heq, hnumber, hval⟩ := _MPdiv_short_spec hrange hbm0
  have hU : 0 ≤ x + ScalarTwoTo256 * y := add_nonneg hx.1 (mul_nonneg base_pos.le hy0)
  have hlt : (x + ScalarTwoTo256 * y) / bm < ScalarTwoTo256 := by
    apply Int.ediv_lt_of_lt_mul hbm0
    calc x + ScalarTwoTo256 * y < ScalarTwoTo256 + ScalarTwoTo256 * y := add_lt_add_left hx.2 _
      _ = ScalarTwoTo256 * (y + 1) := by ring
      _ ≤ ScalarTwoTo256 * bm := mul_le_mul_of_nonneg_left hy base_pos.le
  rw [heq, Option.bind_some]
  rw [val_pair] at hval
  split
  · next hzero =>
    have hnil : quotient = [] := by
      by_contra hne
      have hpos := hnumber.value_pos base_pos hne
      rw [← val, hval, hzero] at hpos
      exact lt_irrefl 0 hpos
    rw [hnil]
    rfl
  · next hne =>
    have hpos : 0 < (x + ScalarTwoTo256 * y) / bm := lt_of_le_of_ne (Int.ediv_nonneg hU hbm0.le) (Ne.symm hne)
    have hsingle : quotient = [(x + ScalarTwoTo256 * y) / bm] := by
      apply hnumber.eq_of_value one_lt_base (number_singleton hpos hlt)
      rw [← val, hval, value_cons, value_nil, mul_zero, add_zero]
    rw [hsingle]
    rfl

theorem findQn_of_lt (b : List ℤ) {bm : ℤ} (h : compare an (b ++ [bm]) = -1) :
    findQn an (b ++ [bm]) = some 0 := by
  rw [findQn, List.getLast?_concat, Option.bind_eq_bind, Option.bind_some, if_pos h]
  rfl

/-- The dividend has one limb more than the divisor. -/
theorem findQn_longer {al : List ℤ} {x y : ℤ} (hlength : al.length = l.length)
    (hx : 0 ≤ x ∧ x < ScalarTwoTo256) (hy0 : 0 ≤ y) (hbm : bm < ScalarTwoTo256) (hle : y ≤ bm) :
    findQn (al ++ [x, y]) (l ++ [bm]) =
      if y < bm then
        if (x + ScalarTwoTo256 * y) / bm = 0 then none else some ((x + ScalarTwoTo256 * y) / bm)
      else some (ScalarTwoTo256 - 1) := by
  have hcompare : compare (al ++ [x, y]) (l ++ [bm]) = 1 := by
    apply compare_of_length_gt
    simp only [List.length_append, List.length_cons, List.length_nil]
    omega
  have hlast : (al ++ [x, y]).getLast? = some y := by
    rw [List.append_cons, List.getLast?_concat]
  have hn : (al ++ [x, y]).length = al.length + 2 := by
    rw [List.length_append]
    rfl
  have hnext : (al ++ [x, y])[al.length + 2 - 2]? = some x := by
    rw [Nat.add_sub_cancel, List.getElem?_append_right le_rfl, Nat.sub_self]
    rfl
  unfold findQn
  rw [List.getLast?_concat, Option.bind_eq_bind, Option.bind_some, hcompare, if_neg (by decide), hlast,
    Option.bind_some]
  dsimp only
  rw [hn, hnext]
  split
  · next hlt =>
    rw [if_neg (by omega)]
    exact short_two hx hy0 hlt hbm
  · next hge =>
    rw [if_pos (by omega), List.length_append, List.length_singleton, if_pos (by omega)]
    rfl

/-- The dividend has as many limbs as the divisor. -/
theorem findQn_same {al : List ℤ} {y : ℤ} (hlength : al.length = l.length)
    (hcompare : compare (al ++ [y]) (l ++ [bm]) ≠ -1) (hge : bm ≤ y) :
    findQn (al ++ [y]) (l ++ [bm]) = some 1 := by
  unfold findQn
  rw [List.getLast?_concat, Option.bind_eq_bind, Option.bind_some, if_neg hcompare, List.getLast?_concat,
    Option.bind_some]
  dsimp only
  rw [if_neg hge.not_gt]
  split
  · rw [if_neg]
    · rfl
    · simp only [List.length_append, hlength, List.length_singleton]
      omega
  · rfl

/-- A partial dividend that is less than the divisor, but counts as longer. -/
def Stalled (l : List ℤ) (bm : ℤ) (an : List ℤ) : Prop := l = [] ∧ ∃ d, an = [d, 0] ∧ d < bm

theorem findQn_stalled (hn : Normalised l bm) (h : Partial (l ++ [bm]) an) (hstalled : Stalled l bm an) :
    findQn an (l ++ [bm]) = none := by
  obtain ⟨rfl, d, rfl, hlt⟩ := hstalled
  obtain ⟨hd, -⟩ := inRange_cons.mp h.inRange
  have hfind := @findQn_longer [] bm [] d 0 rfl hd le_rfl hn.pos.2 hn.pos.1.le
  rw [if_pos hn.pos.1, mul_zero, add_zero, if_pos (Int.ediv_eq_zero_of_lt hd.1 hlt)] at hfind
  exact hfind

theorem val_single (x : ℤ) : val [x] = x := by
  rw [val, value_cons, value_nil, mul_zero, add_zero]

theorem findQn_small (hn : Normalised l bm) (h : Partial (l ++ [bm]) an) (hlt : val an < val (l ++ [bm]))
    (hnot : ¬ Stalled l bm an) : findQn an (l ++ [bm]) = some 0 := by
  apply findQn_of_lt
  rcases h.shape with hnumber | ⟨d, rfl⟩
  · exact (compare_eq_neg_one_iff hnumber.inRange hn.number.inRange (.inr ⟨hnumber, hn.number⟩)).mpr hlt
  · rcases Nat.lt_or_ge 2 (l ++ [bm]).length with hlong | hshort
    · exact compare_of_length_lt hlong
    · have hl : l ≠ [] := by
        rintro rfl
        rw [List.nil_append, val_single, val_pair, mul_zero, add_zero] at hlt
        exact hnot ⟨rfl, d, rfl, hlt⟩
      have hlength : [d, 0].length = (l ++ [bm]).length := by
        have hpos := List.length_pos_of_ne_nil hl
        rw [List.length_append, List.length_singleton] at hshort ⊢
        show 2 = _
        omega
      exact (compare_eq_neg_one_iff h.inRange hn.number.inRange (.inl hlength)).mpr hlt

/-- The estimate of a digit that is not zero is not too small, and at most two too large. -/
theorem findQn_spec (hn : Normalised l bm) (h : Partial (l ++ [bm]) an) (hge : val (l ++ [bm]) ≤ val an) :
    ∃ qn, findQn an (l ++ [bm]) = some qn ∧ val an / val (l ++ [bm]) ≤ qn ∧
      qn ≤ val an / val (l ++ [bm]) + 2 ∧ qn < ScalarTwoTo256 ∧
      (Number ScalarTwoTo256 an ∨ qn = val an / val (l ++ [bm])) := by
  obtain ⟨hbm0, hbm⟩ := hn.pos
  obtain ⟨hl0, hl⟩ := hn.low
  have hP : 0 < ScalarTwoTo256 ^ l.length := pow_pos base_pos _
  have hD := val_concat l bm
  have hDpos := hn.val_pos
  have hhalf := hn.half_le
  have htwo := two_mul_half
  have hquotient : 1 ≤ val an / val (l ++ [bm]) := Int.le_ediv_of_mul_le hDpos (by rwa [one_mul])
  rcases Nat.lt_or_ge an.length (l.length + 2) with hshort | hlong
  · -- as many limbs as the divisor: the digit is one
    have hnumber : Number ScalarTwoTo256 an := by
      refine h.shape.resolve_right ?_
      rintro ⟨d, rfl⟩
      have hpos : l.length ≠ 0 := by
        rw [List.length_cons, List.length_singleton] at hshort
        omega
      obtain ⟨⟨-, hd⟩, -⟩ := inRange_cons.mp h.inRange
      have hbase : ScalarTwoTo256 ≤ ScalarTwoTo256 ^ l.length := le_self_pow₀ one_lt_base.le hpos
      rw [val_pair, mul_zero, add_zero] at hge
      nlinarith
    have hlen := hn.number.length_le one_lt_base h.inRange hge
    rw [List.length_append, List.length_singleton] at hlen
    obtain ⟨al, y, rfl⟩ := (List.eq_nil_or_concat' an).resolve_left h.ne_nil
    have hlength : al.length = l.length := by
      rw [List.length_append, List.length_singleton] at hshort hlen
      omega
    have hal0 : 0 ≤ val al := value_nonneg (inRange_append.mp h.inRange).1
    have hal : val al < ScalarTwoTo256 ^ al.length := value_lt (inRange_append.mp h.inRange).1
    have hy := hnumber.last
    have hV := val_concat al y
    rw [hlength] at hV hal
    have hcompare : compare (al ++ [y]) (l ++ [bm]) ≠ -1 := fun hlt =>
      ((compare_eq_neg_one_iff hnumber.inRange hn.number.inRange (.inr ⟨hnumber, hn.number⟩)).mp hlt).not_ge
        hge
    have hbmy : bm ≤ y := by
      by_contra hlt
      exact (lt_of_limb_lt hP hal hl0 (not_le.mp hlt)).not_ge (by rw [← hV, ← hD]; exact hge)
    have hone : val (al ++ [y]) / val (l ++ [bm]) = 1 := by
      have hlt : val (al ++ [y]) / val (l ++ [bm]) < 2 := by
        apply Int.ediv_lt_of_lt_mul hDpos
        have hPy : ScalarTwoTo256 ^ l.length * (y + 1) ≤ ScalarTwoTo256 ^ l.length * (2 * bm) :=
          mul_le_mul_of_nonneg_left (by omega) hP.le
        rw [hV, hD]
        linarith
      omega
    rw [hone]
    exact ⟨1, findQn_same hlength hcompare hbmy, le_rfl, by omega, one_lt_base, .inl hnumber⟩
  · -- one limb more
    have hlen : an.length = l.length + 2 := le_antisymm (h.length_le hn) hlong
    obtain ⟨al, y, rfl⟩ := (List.eq_nil_or_concat' an).resolve_left h.ne_nil
    obtain ⟨al, x, rfl⟩ := (List.eq_nil_or_concat' al).resolve_left (by
      rintro rfl
      rw [List.nil_append, List.length_singleton] at hlen
      omega)
    rw [List.append_assoc, List.singleton_append] at *
    have hlength : al.length = l.length := by
      rw [List.length_append] at hlen
      exact Nat.add_right_cancel hlen
    obtain ⟨hal', hxy⟩ := inRange_append.mp h.inRange
    obtain ⟨hx, hy'⟩ := inRange_cons.mp hxy
    obtain ⟨hy, -⟩ := inRange_cons.mp hy'
    have hal0 : 0 ≤ val al := value_nonneg hal'
    have hal : val al < ScalarTwoTo256 ^ al.length := value_lt hal'
    have hV := val_two_high al x y
    rw [hlength] at hV hal
    have hU : 0 ≤ x + ScalarTwoTo256 * y := add_nonneg hx.1 (mul_nonneg base_pos.le hy.1)
    have hlt := h.lt
    have hybm : y ≤ bm := by
      by_contra hgt
      have hmul : ScalarTwoTo256 ^ l.length * (ScalarTwoTo256 * (bm + 1)) ≤
          ScalarTwoTo256 ^ l.length * (x + ScalarTwoTo256 * y) := by
        apply mul_le_mul_of_nonneg_left _ hP.le
        nlinarith [base_pos]
      have hbase := mul_lt_mul_of_pos_left hl base_pos
      rw [hV, hD] at hlt
      nlinarith
    have hdigit : val (al ++ [x, y]) / val (l ++ [bm]) < ScalarTwoTo256 := Int.ediv_lt_of_lt_mul hDpos hlt
    rw [findQn_longer hlength hx hy.1 hbm hybm]
    split
    · next hylt =>
      have hle : val (al ++ [x, y]) / val (l ++ [bm]) ≤ (x + ScalarTwoTo256 * y) / bm := by
        rw [hV]
        exact quotient_le_estimate hbm0 hP hal hl0 hD hU
      have hlt : (x + ScalarTwoTo256 * y) / bm < ScalarTwoTo256 := by
        apply Int.ediv_lt_of_lt_mul hbm0
        nlinarith [base_pos]
      refine ⟨(x + ScalarTwoTo256 * y) / bm, if_neg (by omega), hle, ?_, hlt, ?_⟩
      · rw [hV]
        exact estimate_le_quotient hP hal0 hl0 hl hD hbm0 (by omega)
          (Int.ediv_mul_le _ hbm0.ne') (by omega)
      · refine h.shape.imp id ?_
        rintro ⟨d, hd⟩
        -- the divisor is its highest limb, and the estimate is the quotient
        obtain rfl : al = [] := List.length_eq_zero_iff.mp (by
          have hlengths := congrArg List.length hd
          rw [List.length_append] at hlengths
          exact Nat.add_right_cancel hlengths)
        obtain rfl : l = [] := List.length_eq_zero_iff.mp hlength.symm
        rw [List.nil_append, List.nil_append, val_pair, val_single]
    · next hyge =>
      obtain rfl : y = bm := le_antisymm hybm (not_lt.mp hyge)
      refine ⟨ScalarTwoTo256 - 1, rfl, by omega, ?_, by omega, .inl (h.shape.resolve_right ?_)⟩
      · rw [hV]
        exact estimate_le_quotient hP hal0 hl0 hl hD hbm0 (by have := one_lt_base; omega)
          (by nlinarith [hx.1]) (by omega)
      · rintro ⟨d, hd⟩
        have hlast := congrArg List.getLast? hd
        rw [List.append_cons, List.getLast?_concat] at hlast
        exact hbm0.ne' (Option.some_inj.mp hlast)

end Estimates

/-! ## Corrections -/

section Corrections

variable {l an b : List ℤ} {bm : ℤ}

/-- How a partial dividend compares with a number that is not greater. -/
theorem Partial.compare_spec (h : Partial b an) {t : List ℤ} (ht : Number ScalarTwoTo256 t)
    (hle : val t ≤ val an) : compare an t ≥ 0 ∧ compare t an ≠ 1 := by
  rcases h.shape with hnumber | ⟨d, rfl⟩
  · refine ⟨(compare_nonneg_iff hnumber.inRange ht.inRange (.inr ⟨hnumber, ht⟩)).mpr hle, fun hgt => ?_⟩
    exact ((compare_eq_one_iff ht.inRange hnumber.inRange (.inr ⟨ht, hnumber⟩)).mp hgt).not_ge hle
  · obtain ⟨hd, -⟩ := inRange_cons.mp h.inRange
    rw [val_pair, mul_zero, add_zero, ← val_single d] at hle
    have hlength : t.length < [d, 0].length :=
      Nat.lt_succ_of_le (ht.length_le (m := [d]) one_lt_base (inRange_cons.mpr ⟨hd, inRange_nil⟩) hle)
    rw [compare_of_length_gt hlength, compare_of_length_lt hlength]
    decide

/-- Each round takes the divisor off, until the product is not greater than the dividend. -/
theorem correctQn_spec (hn : Normalised l bm) (h : Partial (l ++ [bm]) an) (n : ℕ) {fuel : ℕ} (hfuel : n < fuel)
    {test : List ℤ} (htest : Number ScalarTwoTo256 test) {q : ℤ} (hq : q = val an / val (l ++ [bm]))
    (hq0 : 0 < q ∨ n = 0) (hlt : q + n ≤ ScalarTwoTo256) (hval : val test = val (l ++ [bm]) * (q + n))
    (hover : Number ScalarTwoTo256 an ∨ n = 0) (rounds : ℕ) :
    ∃ test', correctQn (l ++ [bm]) an fuel (q + n) test rounds = some (q, test', rounds + n) ∧
      Number ScalarTwoTo256 test' ∧ val test' = val (l ++ [bm]) * q := by
  have hDpos := hn.val_pos
  have hqle : val (l ++ [bm]) * q ≤ val an := by
    rw [hq]
    exact Int.mul_ediv_self_le hDpos.ne'
  induction n generalizing fuel test rounds with
  | zero =>
    obtain ⟨fuel, rfl⟩ := Nat.exists_eq_succ_of_ne_zero (Nat.ne_of_gt hfuel)
    rw [Nat.cast_zero, add_zero] at hval ⊢
    refine ⟨test, ?_, htest, hval⟩
    rw [correctQn_succ, if_neg (h.compare_spec htest (hval ▸ hqle)).2]
    rfl
  | succ n ih =>
    obtain ⟨fuel, rfl⟩ := Nat.exists_eq_succ_of_ne_zero (Nat.ne_of_gt (Nat.zero_lt_of_lt hfuel))
    have hnumber := hover.resolve_right (Nat.succ_ne_zero n)
    have hqpos := hq0.resolve_right (Nat.succ_ne_zero n)
    rw [Nat.cast_succ] at hval hlt ⊢
    have hgt : val an < val test := by
      have hnext := Int.lt_ediv_add_one_mul_self (val an) hDpos
      rw [← hq, mul_comm] at hnext
      refine hnext.trans_le ?_
      rw [hval]
      exact mul_le_mul_of_nonneg_left (by omega) hDpos.le
    have hle : val (l ++ [bm]) ≤ val test := by
      rw [hval]
      exact le_mul_of_one_le_right hDpos.le (by omega)
    have hlength := hn.number.length_le one_lt_base htest.inRange hle
    have hlength' : test.length ≤ (l ++ [bm]).length + 1 := by
      apply htest.length_le one_lt_base (inRange_shift hn.number.inRange)
      rw [← val, ← val, val_shift, hval, mul_comm]
      exact mul_le_mul_of_nonneg_right hlt hDpos.le
    have hcompare := (compare_nonneg_iff htest.inRange hn.number.inRange (.inr ⟨htest, hn.number⟩)).mpr hle
    obtain ⟨r, heq, hr, hrval⟩ :=
      MP_sub_spec htest.inRange hn.number.inRange hlength (.inl hlength') hle hcompare
    have hrval' : val r = val (l ++ [bm]) * (q + n) := by
      rw [hrval, hval]
      ring
    have hrne : r.length ≠ 0 := by
      intro hzero
      rw [List.length_eq_zero_iff.mp hzero] at hrval'
      have hpos : 0 < val (l ++ [bm]) * (q + n) := mul_pos hDpos (by omega)
      rw [← hrval'] at hpos
      exact lt_irrefl 0 hpos
    rw [ofVal, if_neg hrne] at heq
    obtain ⟨test', heq', htest', hval'⟩ := ih (Nat.lt_of_succ_lt_succ hfuel) hr (.inl hqpos) (by omega) hrval'
      (.inl hnumber) (rounds + 1)
    refine ⟨test', ?_, htest', hval'⟩
    rw [correctQn_succ, if_pos ((compare_eq_one_iff htest.inRange hnumber.inRange (.inr ⟨htest, hnumber⟩)).mpr hgt),
      heq, Option.bind_eq_bind, Option.bind_some, show q + (n + 1 : ℤ) - 1 = q + n by ring, heq',
      Nat.add_right_comm, Nat.add_assoc]

end Corrections

/-! ## A digit -/

section Digit

variable {l an : List ℤ} {bm : ℤ}

/-- A digit of the quotient, after at most two corrections, and the remainder. -/
theorem digit_spec (hn : Normalised l bm) (h : Partial (l ++ [bm]) an) (hnot : ¬ Stalled l bm an) {fuel : ℕ}
    (hfuel : 2 < fuel) :
    ∃ qn test count r, findQn an (l ++ [bm]) = some qn ∧
      correctQn (l ++ [bm]) an fuel qn (MP_short_mul (l ++ [bm]) qn) 0 =
        some (val an / val (l ++ [bm]), test, count) ∧ count ≤ 2 ∧
      MP_sub an test = some (ofVal r) ∧ Number ScalarTwoTo256 r ∧ val r = val an % val (l ++ [bm]) := by
  have hDpos := hn.val_pos
  have hVpos : 0 ≤ val an := value_nonneg h.inRange
  have hdigit : val an / val (l ++ [bm]) < ScalarTwoTo256 := Int.ediv_lt_of_lt_mul hDpos h.lt
  obtain ⟨qn, n, hfind, hqn, hn2, hover, hpos⟩ : ∃ (qn : ℤ) (n : ℕ), findQn an (l ++ [bm]) = some qn ∧
      qn = val an / val (l ++ [bm]) + n ∧ n ≤ 2 ∧ (Number ScalarTwoTo256 an ∨ n = 0) ∧
      (0 < val an / val (l ++ [bm]) ∨ n = 0) ∧ qn < ScalarTwoTo256 := by
    rcases lt_or_ge (val an) (val (l ++ [bm])) with hlt | hge
    · refine ⟨0, 0, findQn_small hn h hlt hnot, ?_, Nat.zero_le 2, .inr rfl, .inr rfl, base_pos⟩
      rw [Int.ediv_eq_zero_of_lt hVpos hlt]
      rfl
    · obtain ⟨qn, hfind, hle, hle2, hlt, hover⟩ := findQn_spec hn h hge
      have hone : 1 ≤ val an / val (l ++ [bm]) := Int.le_ediv_of_mul_le hDpos (by rwa [one_mul])
      exact ⟨qn, (qn - val an / val (l ++ [bm])).toNat, hfind, by omega, by omega,
        hover.imp id fun heq => by omega, .inl (by omega), hlt⟩
  obtain ⟨hpos, hlt⟩ := hpos
  have hq0 : 0 ≤ qn := by
    have := Int.ediv_nonneg hVpos hDpos.le
    omega
  obtain ⟨htest, htestval⟩ := MP_short_mul_spec hn.number.inRange hq0
  rw [hqn] at htestval
  obtain ⟨test, hcorrect, htest', hval⟩ := correctQn_spec hn h n (hn2.trans_lt hfuel) htest rfl hpos
    (by omega) (hqn ▸ htestval) hover 0
  have hle : val test ≤ val an := by
    rw [hval]
    exact Int.mul_ediv_self_le hDpos.ne'
  have hlength : test.length ≤ an.length := htest'.length_le one_lt_base h.inRange hle
  have hlengths : an.length ≤ test.length + 1 ∨ test = [] := by
    rcases (Int.ediv_nonneg hVpos hDpos.le).eq_or_lt with hzero | hqpos
    · refine .inr ?_
      by_contra hne
      have hvalpos := htest'.value_pos base_pos hne
      rw [← val, hval, ← hzero, mul_zero] at hvalpos
      exact lt_irrefl 0 hvalpos
    · refine .inl ?_
      have hge : val (l ++ [bm]) ≤ val test := by
        rw [hval]
        exact le_mul_of_one_le_right hDpos.le hqpos
      have hlong := hn.number.length_le one_lt_base htest'.inRange hge
      rw [List.length_append, List.length_singleton] at hlong
      have := h.length_le hn
      omega
  obtain ⟨r, hsub, hr, hrval⟩ := MP_sub_spec h.inRange htest'.inRange hlength hlengths hle
    (h.compare_spec htest' hle).1
  refine ⟨qn, test, n, r, hfind, ?_, hn2, hsub, hr, ?_⟩
  · rw [hqn] at hcorrect
    rw [hqn, hcorrect, Nat.zero_add]
  · rw [hrval, hval, ← Int.emod_def]

end Digit

/-! ## All digits -/

section Digits

variable {l a an quotient : List ℤ} {bm : ℤ} {rounds : List ℕ} {fuel : ℕ}

/-- The loop stands at limb `j`, with the digits of the quotient above it. -/
structure AtLimb (l : List ℤ) (bm : ℤ) (a : List ℤ) (j : ℕ) (an quotient : List ℤ) (rounds : List ℕ) :
    Prop where
  dividend : Partial (l ++ [bm]) an
  digits : InRange ScalarTwoTo256 quotient
  few : ∀ c ∈ rounds, c ≤ 2
  above : val an + ScalarTwoTo256 * (val quotient * val (l ++ [bm])) = val (a.drop j)

theorem val_ofVal (r : List ℤ) : val (ofVal r) = val r := by
  unfold ofVal
  split
  · next h =>
    rw [List.length_eq_zero_iff.mp h, val_single]
    rfl
  · rfl

/-- The next partial dividend, and when it is stalled. -/
theorem partial_next {x : ℤ} (hx : 0 ≤ x ∧ x < ScalarTwoTo256) {r : List ℤ}
    (hr : Number ScalarTwoTo256 r) (hlt : val r < val (l ++ [bm])) :
    Partial (l ++ [bm]) (x :: ofVal r) ∧
      (Stalled l bm (x :: ofVal r) ↔ l = [] ∧ val r = 0 ∧ x < bm) := by
  have hvalue : val (x :: ofVal r) < ScalarTwoTo256 * val (l ++ [bm]) := by
    have hmul : ScalarTwoTo256 * (val r + 1) ≤ ScalarTwoTo256 * val (l ++ [bm]) :=
      mul_le_mul_of_nonneg_left hlt base_pos.le
    rw [val, value_cons, ← val, val_ofVal]
    linarith [hx.2]
  unfold Stalled
  by_cases hnil : r = []
  · subst hnil
    have hone : ofVal [] = [0] := rfl
    rw [hone] at hvalue ⊢
    refine ⟨⟨inRange_cons.mpr ⟨hx, inRange_shift inRange_nil⟩, .inr ⟨x, rfl⟩, List.cons_ne_nil _ _, hvalue⟩, ?_⟩
    refine and_congr_right fun _ => ⟨?_, fun h => ⟨x, rfl, h.2⟩⟩
    rintro ⟨d, hd, hdlt⟩
    obtain rfl := (List.cons.inj hd).1
    exact ⟨rfl, hdlt⟩
  · have hsame : ofVal r = r := if_neg fun hzero => hnil (List.length_eq_zero_iff.mp hzero)
    rw [hsame] at hvalue ⊢
    refine ⟨⟨inRange_cons.mpr ⟨hx, hr.inRange⟩, .inl (hr.cons hnil hx), List.cons_ne_nil _ _, hvalue⟩, ?_⟩
    have hpos : 0 < val r := hr.value_pos base_pos hnil
    refine and_congr_right fun _ => iff_of_false ?_ fun h => hpos.ne' h.1
    rintro ⟨d, hd, -⟩
    rw [(List.cons.inj hd).2, val_single] at hpos
    exact lt_irrefl 0 hpos

/-- The remainder above limb `i` is zero, and the limb is less than the divisor. -/
def StallsAt (l : List ℤ) (bm : ℤ) (a : List ℤ) (i : ℕ) : Prop :=
  l = [] ∧ val (l ++ [bm]) ∣ val (a.drop (i + 1)) ∧ a.getD i 0 < bm

/-- What the loop returns. -/
structure Divided (l : List ℤ) (bm : ℤ) (a : List ℤ) (d : Division) (r : List ℤ) : Prop where
  digits : InRange ScalarTwoTo256 d.quotient
  few : ∀ c ∈ d.rounds, c ≤ 2
  remainder : d.remainder = ofVal r
  number : Number ScalarTwoTo256 r
  lt : val r < val (l ++ [bm])
  value : val r + val d.quotient * val (l ++ [bm]) = val a

/-- One more digit, and what is left of the limbs from `j` on. -/
theorem AtLimb.digit (hn : Normalised l bm) {j : ℕ} (h : AtLimb l bm a j an quotient rounds)
    (hnot : ¬ Stalled l bm an) (hfuel : 2 < fuel) :
    ∃ qn q test count r, findQn an (l ++ [bm]) = some qn ∧
      correctQn (l ++ [bm]) an fuel qn (MP_short_mul (l ++ [bm]) qn) 0 = some (q, test, count) ∧
      MP_sub an test = some (ofVal r) ∧
      Divided l bm (a.drop j) ⟨q :: quotient, ofVal r, count :: rounds⟩ r := by
  have hDpos := hn.val_pos
  obtain ⟨qn, test, count, r, hfind, hcorrect, hcount, hsub, hr, hrval⟩ := digit_spec hn h.dividend hnot hfuel
  have hVpos : 0 ≤ val an := value_nonneg h.dividend.inRange
  refine ⟨qn, _, test, count, r, hfind, hcorrect, hsub, ?_, List.forall_mem_cons.mpr ⟨hcount, h.few⟩, rfl, hr,
    hrval ▸ Int.emod_lt_of_pos _ hDpos, ?_⟩
  · exact inRange_cons.mpr
      ⟨⟨Int.ediv_nonneg hVpos hDpos.le, Int.ediv_lt_of_lt_mul hDpos h.dividend.lt⟩, h.digits⟩
  · have hdm := Int.emod_add_mul_ediv (val an) (val (l ++ [bm]))
    dsimp only
    rw [← h.above, hrval, val_cons]
    linear_combination hdm

theorem AtLimb.last (hn : Normalised l bm) (h : AtLimb l bm a 0 an quotient rounds)
    (hnot : ¬ Stalled l bm an) (hfuel : 2 < fuel) :
    ∃ d r, digitLimbs fuel a (l ++ [bm]) 0 an quotient rounds = some d ∧ Divided l bm a d r := by
  obtain ⟨qn, q, test, count, r, hfind, hcorrect, hsub, hdivided⟩ := h.digit hn hnot hfuel
  refine ⟨_, r, ?_, hdivided⟩
  rw [digitLimbs_eq, hfind, Option.bind_eq_bind, Option.bind_some, hcorrect, Option.bind_eq_bind,
    Option.bind_some]
  dsimp only
  rw [hsub]
  rfl

theorem AtLimb.next (hn : Normalised l bm) (ha : InRange ScalarTwoTo256 a) {k : ℕ} (hk : k < a.length)
    (h : AtLimb l bm a (k + 1) an quotient rounds) (hnot : ¬ Stalled l bm an) (hfuel : 2 < fuel) :
    ∃ an' quotient' rounds', digitLimbs fuel a (l ++ [bm]) (k + 1) an quotient rounds =
        digitLimbs fuel a (l ++ [bm]) k an' quotient' rounds' ∧
      AtLimb l bm a k an' quotient' rounds' ∧ (Stalled l bm an' ↔ StallsAt l bm a k) := by
  obtain ⟨qn, q, test, count, r, hfind, hcorrect, hsub, hdivided⟩ := h.digit hn hnot hfuel
  obtain ⟨hrest, hstalled⟩ := partial_next (ha.getD base_pos k) hdivided.number hdivided.lt
  have hget : a[k]? = some (a.getD k 0) := by
    rw [List.getD_eq_getElem _ _ hk, List.getElem?_eq_getElem hk]
  have hvalue := hdivided.value
  dsimp only at hvalue
  refine ⟨a.getD k 0 :: ofVal r, q :: quotient, count :: rounds, ?_,
    ⟨hrest, hdivided.digits, hdivided.few, ?_⟩, hstalled.trans ?_⟩
  · rw [digitLimbs_eq, hfind, Option.bind_eq_bind, Option.bind_some, hcorrect, Option.bind_eq_bind,
      Option.bind_some]
    dsimp only
    rw [hsub, Option.bind_eq_bind, Option.bind_some]
    rw [hget]
    rfl
  · have hdrop : val (a.drop k) = a.getD k 0 + ScalarTwoTo256 * val (a.drop (k + 1)) := value_drop_succ a k
    rw [val_cons, val_ofVal, hdrop, ← hvalue]
    ring
  · unfold StallsAt
    refine and_congr_right fun _ => and_congr_left fun _ => ?_
    rw [← hvalue, Int.dvd_add_left (Int.dvd_mul_left _ _)]
    refine ⟨fun hzero => hzero ▸ dvd_zero _, fun hdvd => ?_⟩
    exact Int.eq_zero_of_dvd_of_nonneg_of_lt (value_nonneg hdivided.number.inRange) hdivided.lt hdvd

/-- The loop ends unless it stalls. -/
theorem AtLimb.run (hn : Normalised l bm) (ha : InRange ScalarTwoTo256 a) {j : ℕ} (hj : j ≤ a.length)
    (h : AtLimb l bm a j an quotient rounds) (hnot : ¬ Stalled l bm an) (hfuel : 2 < fuel) :
    (∃ i < j, StallsAt l bm a i) ∧ digitLimbs fuel a (l ++ [bm]) j an quotient rounds = none ∨
    (¬ ∃ i < j, StallsAt l bm a i) ∧
      ∃ d r, digitLimbs fuel a (l ++ [bm]) j an quotient rounds = some d ∧ Divided l bm a d r := by
  induction j generalizing an quotient rounds with
  | zero => exact .inr ⟨fun ⟨i, hi, _⟩ => Nat.not_lt_zero i hi, h.last hn hnot hfuel⟩
  | succ k ih =>
    obtain ⟨an', quotient', rounds', heq, hnext, hstalled⟩ := h.next hn ha hj hnot hfuel
    rw [heq]
    by_cases hstall : Stalled l bm an'
    · refine .inl ⟨⟨k, Nat.lt_succ_self k, hstalled.mp hstall⟩, ?_⟩
      rw [digitLimbs_eq, findQn_stalled hn hnext.dividend hstall]
      rfl
    · have hsplit : (∃ i < k + 1, StallsAt l bm a i) ↔ ∃ i < k, StallsAt l bm a i := by
        refine ⟨fun ⟨i, hi, hstalls⟩ => ⟨i, ?_, hstalls⟩, fun ⟨i, hi, hstalls⟩ => ⟨i, Nat.lt_succ_of_lt hi, hstalls⟩⟩
        rcases Nat.lt_succ_iff_lt_or_eq.mp hi with hlt | rfl
        · exact hlt
        · exact absurd (hstalled.mpr hstalls) hstall
      rw [hsplit]
      exact ih (Nat.le_of_succ_le hj) hnext hstall

end Digits

/-! ## The division -/

section Returns

/-- More rounds do not change a result. -/
theorem normalizeLoop_mono {fuel : ℕ} {b : List ℤ} {shift : ℤ} {r : List ℤ × ℤ}
    (h : normalizeLoop fuel b shift = some r) : normalizeLoop (fuel + 1) b shift = some r := by
  induction fuel generalizing b shift with
  | zero => cases h
  | succ fuel ih =>
    rw [normalizeLoop_succ] at h ⊢
    obtain ⟨bm, hlast, h⟩ := Option.bind_eq_some_iff.mp h
    apply Option.bind_eq_some_iff.mpr
    refine ⟨bm, hlast, ?_⟩
    split at h
    · next hlt =>
      rw [if_pos hlt]
      exact ih h
    · next hge => rwa [if_neg hge]

theorem correctQn_mono {fuel : ℕ} {b an test : List ℤ} {qn : ℤ} {rounds : ℕ} {r : ℤ × List ℤ × ℕ}
    (h : correctQn b an fuel qn test rounds = some r) : correctQn b an (fuel + 1) qn test rounds = some r := by
  induction fuel generalizing qn test rounds with
  | zero => cases h
  | succ fuel ih =>
    rw [correctQn_succ] at h ⊢
    split at h
    · next hgt =>
      rw [if_pos hgt]
      obtain ⟨test', hsub, h⟩ := Option.bind_eq_some_iff.mp h
      exact Option.bind_eq_some_iff.mpr ⟨test', hsub, ih h⟩
    · next hle => rwa [if_neg hle]

theorem digitLimbs_mono {fuel : ℕ} {a b an quotient : List ℤ} {j : ℕ} {rounds : List ℕ} {d : Division}
    (h : digitLimbs fuel a b j an quotient rounds = some d) :
    digitLimbs (fuel + 1) a b j an quotient rounds = some d := by
  induction j generalizing an quotient rounds with
  | zero =>
    rw [digitLimbs_eq] at h ⊢
    obtain ⟨qn, hfind, h⟩ := Option.bind_eq_some_iff.mp h
    obtain ⟨c, hcorrect, h⟩ := Option.bind_eq_some_iff.mp h
    apply Option.bind_eq_some_iff.mpr
    exact ⟨qn, hfind, Option.bind_eq_some_iff.mpr ⟨c, correctQn_mono hcorrect, h⟩⟩
  | succ j ih =>
    rw [digitLimbs_eq] at h ⊢
    obtain ⟨qn, hfind, h⟩ := Option.bind_eq_some_iff.mp h
    obtain ⟨c, hcorrect, h⟩ := Option.bind_eq_some_iff.mp h
    obtain ⟨remainder, hsub, h⟩ := Option.bind_eq_some_iff.mp h
    obtain ⟨x, hx, h⟩ := Option.bind_eq_some_iff.mp h
    apply Option.bind_eq_some_iff.mpr
    refine ⟨qn, hfind, Option.bind_eq_some_iff.mpr ⟨c, correctQn_mono hcorrect, ?_⟩⟩
    apply Option.bind_eq_some_iff.mpr
    exact ⟨remainder, hsub, Option.bind_eq_some_iff.mpr ⟨x, hx, ih h⟩⟩

theorem _MPdiv_mono {fuel fuel' : ℕ} {a b : List ℤ} {d : Division} (h : _MPdiv fuel a b = some d)
    (hle : fuel ≤ fuel') : _MPdiv fuel' a b = some d := by
  induction fuel', hle using Nat.le_induction with
  | base => exact h
  | succ fuel' _ ih =>
    unfold _MPdiv normalize at ih ⊢
    obtain ⟨abs, hnormalize, ih⟩ := Option.bind_eq_some_iff.mp ih
    obtain ⟨bs, hloop, hnormalize⟩ := Option.bind_eq_some_iff.mp hnormalize
    obtain ⟨start, htake, ih⟩ := Option.bind_eq_some_iff.mp ih
    obtain ⟨e, hdigits, ih⟩ := Option.bind_eq_some_iff.mp ih
    apply Option.bind_eq_some_iff.mpr
    refine ⟨abs, Option.bind_eq_some_iff.mpr ⟨bs, normalizeLoop_mono hloop, hnormalize⟩, ?_⟩
    apply Option.bind_eq_some_iff.mpr
    exact ⟨start, htake, Option.bind_eq_some_iff.mpr ⟨e, digitLimbs_mono hdigits, ih⟩⟩

/-- The call ends with a result. -/
def Returns (a b : List ℤ) (d : Division) : Prop := ∃ fuel₀, ∀ fuel ≥ fuel₀, _MPdiv fuel a b = some d

/-- Limbs without leading zeros, of the quotient and the remainder, and few corrections. -/
structure Exact (a b : List ℤ) (d : Division) : Prop where
  quotient : Number ScalarTwoTo256 d.quotient
  remainder : Number ScalarTwoTo256 d.remainder
  value : val a = val d.quotient * val b + val d.remainder
  lt : val d.remainder < val b
  rounds : ∀ c ∈ d.rounds, c ≤ 2
  short : ∀ x, b = [x] → _MPdiv_short a x = some (d.quotient, val d.remainder)

/-- A remainder of zero above a limb that is less than the divisor. -/
def Stalls (A D : ℤ) : Prop :=
  ∃ i : ℕ, D ≤ A / ScalarTwoTo256 ^ (i + 1) ∧ D ∣ A / ScalarTwoTo256 ^ (i + 1) ∧
    A / ScalarTwoTo256 ^ i % ScalarTwoTo256 < D

variable {l a b : List ℤ} {bm : ℤ}

theorem takeLimbs_spec (hn : Normalised l bm) (ha : Number ScalarTwoTo256 a) (hle : val (l ++ [bm]) ≤ val a)
    {j : ℕ} (hj : j ≤ a.length) (hbelow : ∀ i, j < i → val (a.drop i) < val (l ++ [bm])) :
    ∃ j₀ ≤ j, takeLimbs a (l ++ [bm]) j (a.drop j) = some (j₀, a.drop j₀) ∧
      val (l ++ [bm]) ≤ val (a.drop j₀) ∧ ∀ i, j₀ < i → val (a.drop i) < val (l ++ [bm]) := by
  induction j with
  | zero =>
    refine ⟨0, Nat.le_refl 0, ?_, hle, hbelow⟩
    have hcompare := compare_eq_neg_one_iff ha.inRange hn.number.inRange (.inr ⟨ha, hn.number⟩)
    rw [takeLimbs, List.drop_zero, if_neg (hcompare.not.mpr hle.not_gt)]
  | succ j ih =>
    have hdrop := ha.drop (j + 1)
    have hcompare := compare_eq_neg_one_iff hdrop.inRange hn.number.inRange (.inr ⟨hdrop, hn.number⟩)
    rw [takeLimbs]
    by_cases hlt : val (a.drop (j + 1)) < val (l ++ [bm])
    · obtain ⟨j₀, hj₀, heq, hge, hbelow'⟩ := ih (Nat.le_of_succ_le hj) fun i hi => by
        rcases Nat.eq_or_lt_of_le hi with rfl | hi
        · exact hlt
        · exact hbelow i hi
      refine ⟨j₀, Nat.le_succ_of_le hj₀, ?_, hge, hbelow'⟩
      rw [if_pos (hcompare.mpr hlt), List.getElem?_eq_getElem hj, Option.bind_eq_bind, Option.bind_some,
        ← List.drop_eq_getElem_cons hj, heq]
    · exact ⟨j + 1, Nat.le_refl _, if_neg (hcompare.not.mpr hlt), not_lt.mp hlt, hbelow⟩

/-- Where the first loop stops. -/
theorem atLimb_start (hn : Normalised l bm) (ha : Number ScalarTwoTo256 a) {j : ℕ}
    (hge : val (l ++ [bm]) ≤ val (a.drop j)) (hbelow : ∀ i, j < i → val (a.drop i) < val (l ++ [bm])) :
    AtLimb l bm a j (a.drop j) [] [] ∧ ¬ Stalled l bm (a.drop j) := by
  have hdrop := ha.drop j
  have hDpos := hn.val_pos
  refine ⟨⟨⟨hdrop.inRange, .inl hdrop, ?_, ?_⟩, inRange_nil, fun _ h => absurd h List.not_mem_nil, ?_⟩, ?_⟩
  · intro hnil
    rw [hnil] at hge
    exact hge.not_gt hDpos
  · obtain ⟨-, hx⟩ := ha.inRange.getD base_pos j
    have hsucc : val (a.drop j) = a.getD j 0 + ScalarTwoTo256 * val (a.drop (j + 1)) := value_drop_succ a j
    have hmul : ScalarTwoTo256 * (val (a.drop (j + 1)) + 1) ≤ ScalarTwoTo256 * val (l ++ [bm]) :=
      mul_le_mul_of_nonneg_left (hbelow (j + 1) (Nat.lt_succ_self j)) base_pos.le
    rw [hsucc]
    linarith
  · rw [show val [] = 0 from rfl, zero_mul, mul_zero, add_zero]
  · rintro ⟨-, d, hd, -⟩
    have htrimmed := hdrop.trimmed
    rw [hd] at htrimmed
    exact htrimmed rfl

/-- The limbs at which the loop stalls. -/
theorem stallsAt_iff (ha : InRange ScalarTwoTo256 a) {j : ℕ}
    (hge : val [bm] ≤ val (a.drop j)) (hbelow : ∀ i, j < i → val (a.drop i) < val [bm]) :
    (∃ i < j, StallsAt [] bm a i) ↔ Stalls (val a) (val [bm]) := by
  have hdrop (i : ℕ) : val (a.drop i) = val a / ScalarTwoTo256 ^ i := value_drop base_pos ha i
  have hdigit (i : ℕ) : a.getD i 0 = val (a.drop i) % ScalarTwoTo256 := by
    rw [hdrop]
    exact getD_eq base_pos ha i
  unfold Stalls StallsAt
  simp only [← hdrop, ← hdigit, List.nil_append, true_and]
  constructor
  · rintro ⟨i, hi, hdvd, hlt⟩
    exact ⟨i, hge.trans (value_drop_antitone base_pos ha hi), hdvd, by rwa [val_single]⟩
  · rintro ⟨i, hle, hdvd, hlt⟩
    refine ⟨i, ?_, hdvd, by rwa [val_single] at hlt⟩
    by_contra hij
    exact (hbelow (i + 1) (by omega)).not_ge hle

/-- The results of the loop, with the shift undone. -/
theorem exact_of_divided {a' : List ℤ} {shift : ℤ} (hshift : 0 < shift) (ha : Number ScalarTwoTo256 a)
    (hb : Number ScalarTwoTo256 b) (hne : b ≠ []) (ha' : val a' = val a * shift)
    (hb' : val (l ++ [bm]) = val b * shift) {d : Division} {r : List ℤ} (h : Divided l bm a' d r) :
    ∃ auxQuotient remainder, _MPdiv_short d.remainder shift = some (auxQuotient, remainder) ∧
      Exact a b ⟨trim d.quotient, trim auxQuotient, d.rounds⟩ := by
  have hrange : InRange ScalarTwoTo256 d.remainder := by
    rw [h.remainder, ofVal]
    split
    · exact inRange_shift inRange_nil
    · exact h.number.inRange
  obtain ⟨auxQuotient, heq, hnumber, hval⟩ := _MPdiv_short_spec hrange hshift
  rw [h.remainder, val_ofVal] at hval
  have hbpos : 0 < val b := hb.value_pos base_pos hne
  have hvalue := h.value
  have hlt := h.lt
  rw [ha', hb'] at hvalue
  rw [hb'] at hlt
  -- the remainder is a multiple of the shift
  obtain ⟨r', hr'⟩ : shift ∣ val r := by
    refine ⟨val a - val d.quotient * val b, ?_⟩
    linear_combination hvalue
  rw [hr', Int.mul_ediv_cancel_left _ hshift.ne'] at hval
  rw [hr'] at hvalue hlt
  have hquotient : val a = val d.quotient * val b + r' := by
    apply mul_right_cancel₀ hshift.ne'
    linear_combination -hvalue
  have hr'lt : r' < val b := by
    apply lt_of_mul_lt_mul_left _ hshift.le
    rwa [mul_comm (val b)] at hlt
  have hr'0 : 0 ≤ r' := hval ▸ value_nonneg hnumber.inRange
  refine ⟨auxQuotient, _, heq, number_trim h.digits, number_trim hnumber.inRange, ?_, ?_, h.few, ?_⟩
  · dsimp only
    rw [val_trim, val_trim, hval, hquotient]
  · dsimp only
    rwa [val_trim, hval]
  · rintro x rfl
    rw [val_single] at hquotient hr'lt hbpos
    obtain ⟨quotient, hshort, hq, hqval⟩ := _MPdiv_short_spec ha.inRange hbpos
    obtain ⟨hdiv, hmod⟩ := (Int.ediv_emod_unique (a := val a) (r := r') (q := val d.quotient) hbpos).mpr
      ⟨by linarith, hr'0, hr'lt⟩
    dsimp only
    rw [hshort, hmod, val_trim, hval]
    have hsame : quotient = trim d.quotient := by
      apply hq.eq_of_value one_lt_base (number_trim h.digits)
      rw [← val, ← val, hqval, hdiv, val_trim]
    rw [hsame]

/-- The call with enough rounds, for the shift that it finds. -/
theorem _MPdiv_run (ha : Number ScalarTwoTo256 a) (hb : Number ScalarTwoTo256 b) (hne : b ≠ [])
    (hle : val b ≤ val a) {fuel : ℕ} (hfuel : 255 < fuel) :
    ∃ k : ℕ, (b.length = 1 → half ≤ val b * 2 ^ k ∧ val b * 2 ^ k < ScalarTwoTo256) ∧
      ((b.length = 1 ∧ Stalls (val a * 2 ^ k) (val b * 2 ^ k)) ∧ _MPdiv fuel a b = none ∨
        ¬ (b.length = 1 ∧ Stalls (val a * 2 ^ k) (val b * 2 ^ k)) ∧
          ∃ d, _MPdiv fuel a b = some d ∧ Exact a b d) := by
  obtain ⟨l, x, rfl⟩ := (List.eq_nil_or_concat' b).resolve_left hne
  have hx : half ≤ x * 2 ^ 255 := le_mul_of_one_le_left half_pos.le hb.last.1
  obtain ⟨k, l', bm, hloop, hnumber, hlength, hhalf, hb'⟩ := normalizeLoop_spec 255 hb hx hfuel 1
  rw [one_mul] at hloop
  have hn : Normalised l' bm := ⟨hnumber, hhalf⟩
  have hshift : (0 : ℤ) < 2 ^ k := pow_pos two_pos k
  obtain ⟨ha', haval⟩ := MP_short_mul_spec ha.inRange hshift.le
  have hle' : val (l' ++ [bm]) ≤ val (MP_short_mul a (2 ^ k)) := by
    rw [hb', haval]
    exact mul_le_mul_of_nonneg_right hle hshift.le
  obtain ⟨j, hj, htake, hge, hbelow⟩ := takeLimbs_spec hn ha' hle' (Nat.le_refl _) fun i hi => by
    rw [List.drop_eq_nil_of_le (Nat.le_of_lt hi)]
    exact hn.val_pos
  rw [List.drop_length] at htake
  obtain ⟨hstart, hnot⟩ := atLimb_start hn ha' hge hbelow
  have hcall : _MPdiv fuel a (l ++ [x]) =
      (digitLimbs fuel (MP_short_mul a (2 ^ k)) (l' ++ [bm]) j ((MP_short_mul a (2 ^ k)).drop j) [] []).bind
        fun d => (_MPdiv_short d.remainder (2 ^ k)).bind fun q =>
          some ⟨trim d.quotient, trim q.1, d.rounds⟩ := by
    unfold _MPdiv normalize
    rw [hloop]
    show (takeLimbs (MP_short_mul a (2 ^ k)) (l' ++ [bm]) (MP_short_mul a (2 ^ k)).length []).bind _ = _
    rw [htake]
    rfl
  have hone : (l ++ [x]).length = 1 ↔ l' = [] := by
    rw [List.length_append, List.length_singleton, ← List.length_eq_zero_iff, hlength]
    omega
  have hstalls : (∃ i < j, StallsAt l' bm (MP_short_mul a (2 ^ k)) i) ↔
      (l ++ [x]).length = 1 ∧ Stalls (val a * 2 ^ k) (val (l ++ [x]) * 2 ^ k) := by
    rw [hone, ← hb', ← haval]
    constructor
    · rintro ⟨i, hi, hstallsAt⟩
      obtain rfl := hstallsAt.1
      exact ⟨rfl, (stallsAt_iff ha'.inRange hge hbelow).mp ⟨i, hi, hstallsAt⟩⟩
    · rintro ⟨rfl, hstalls⟩
      exact (stallsAt_iff ha'.inRange hge hbelow).mpr hstalls
  refine ⟨k, fun hlength => ?_, ?_⟩
  · obtain rfl := hone.mp hlength
    rw [← hb', List.nil_append, val_single]
    exact ⟨hhalf, hn.pos.2⟩
  · rcases hstart.run hn ha'.inRange hj hnot (by omega : 2 < fuel) with ⟨hstall, hnone⟩ | ⟨hnostall, d, r, heq, hdivided⟩
    · refine .inl ⟨hstalls.mp hstall, ?_⟩
      rw [hcall, hnone]
      rfl
    · refine .inr ⟨hstalls.not.mp hnostall, ?_⟩
      obtain ⟨auxQuotient, remainder, hshort, hexact⟩ :=
        exact_of_divided hshift ha hb hne haval hb' hdivided
      refine ⟨_, ?_, hexact⟩
      rw [hcall, heq, Option.bind_some, hshort]
      rfl

/-- There is one shift. -/
theorem shift_unique {D : ℤ} {k k' : ℕ} (h : half ≤ D * 2 ^ k) (h' : D * 2 ^ k' < ScalarTwoTo256) : k' ≤ k := by
  by_contra hlt
  obtain ⟨n, rfl⟩ := Nat.exists_eq_add_of_lt (not_le.mp hlt)
  have hmul : half * 2 ≤ D * 2 ^ (k + n + 1) := by
    calc half * 2 ≤ half * 2 * 2 ^ n := le_mul_of_one_le_right (by have := half_pos; omega) (one_le_pow₀ one_le_two)
      _ ≤ D * 2 ^ k * 2 * 2 ^ n := by
        apply mul_le_mul_of_nonneg_right _ (pow_pos two_pos n).le
        exact mul_le_mul_of_nonneg_right h two_pos.le
      _ = D * 2 ^ (k + n + 1) := by ring
  rw [two_mul_half] at h'
  omega

/-- **The division is exact**, unless the divisor has one limb and, after the shift, the remainder above a
limb that is less than the divisor is zero. -/
theorem _MPdiv_iff (a b : List ℤ) (ha : Number ScalarTwoTo256 a) (hb : Number ScalarTwoTo256 b)
    (hne : b ≠ []) (hle : val b ≤ val a) :
    (∃ d, Returns a b d ∧ Exact a b d) ↔
      (2 ≤ b.length ∨ ∀ k : ℕ, half ≤ val b * 2 ^ k → val b * 2 ^ k < ScalarTwoTo256 →
        ¬ Stalls (val a * 2 ^ k) (val b * 2 ^ k)) := by
  have hpos := List.length_pos_of_ne_nil hne
  constructor
  · rintro ⟨d, ⟨fuel₀, hreturns⟩, -⟩
    obtain ⟨k, hk, hrun⟩ := _MPdiv_run ha hb hne hle (show 255 < fuel₀ + 256 by omega)
    rcases hrun with ⟨-, hnone⟩ | ⟨hnot, -⟩
    · rw [hreturns _ (Nat.le_add_right fuel₀ 256)] at hnone
      cases hnone
    · rcases Nat.lt_or_ge 1 b.length with hlong | hshort
      · exact .inl hlong
      · have hone : b.length = 1 := by omega
        obtain ⟨hhalf, hlt⟩ := hk hone
        refine .inr fun k' hhalf' hlt' hstalls => hnot ⟨hone, ?_⟩
        rwa [← le_antisymm (shift_unique hhalf hlt') (shift_unique hhalf' hlt)]
  · intro h
    obtain ⟨k, hk, hrun⟩ := _MPdiv_run ha hb hne hle (Nat.lt_succ_self 255)
    rcases hrun with ⟨⟨hone, hstalls⟩, -⟩ | ⟨-, d, heq, hexact⟩
    · obtain ⟨hhalf, hlt⟩ := hk hone
      exact absurd hstalls (h.resolve_left (by omega) k hhalf hlt)
    · exact ⟨d, ⟨256, fun fuel hfuel => _MPdiv_mono heq hfuel⟩, hexact⟩

end Returns

/-- Two limbs are divided by two limbs. -/
theorem _MPdiv_iff_sample :
    (∃ d, Returns [5, 7] [3, 2] d ∧ Exact [5, 7] [3, 2] d) ↔
      (2 ≤ [3, 2].length ∨ ∀ k : ℕ, half ≤ val [3, 2] * 2 ^ k → val [3, 2] * 2 ^ k < ScalarTwoTo256 →
        ¬ Stalls (val [5, 7] * 2 ^ k) (val [3, 2] * 2 ^ k)) := by
  have hlarge : (8 : ℤ) < ScalarTwoTo256 := by
    unfold ScalarTwoTo256
    norm_num
  have hrange (x y : ℤ) (hx : 0 ≤ x) (hx8 : x < 8) (hy : 0 < y) (hy8 : y < 8) : Number ScalarTwoTo256 [x, y] :=
    ⟨inRange_cons.mpr ⟨⟨hx, hx8.trans hlarge⟩, inRange_cons.mpr ⟨⟨hy.le, hy8.trans hlarge⟩, inRange_nil⟩⟩,
      fun h => hy.ne' (Option.some_inj.mp h)⟩
  have ha := hrange 5 7 (by norm_num) (by norm_num) (by norm_num) (by norm_num)
  have hb := hrange 3 2 (by norm_num) (by norm_num) (by norm_num) (by norm_num)
  have hle : val [3, 2] ≤ val [5, 7] := by
    rw [val_pair, val_pair]
    omega
  exact _MPdiv_iff [5, 7] [3, 2] ha hb (List.cons_ne_nil 3 [2]) hle

/-- The divisor is `2 ^ 255`, and the dividend has five below it. -/
theorem _MPdiv_fails : ¬ ∃ d, Returns [5, half] [half] d := by
  have hlt : half < ScalarTwoTo256 := by
    rw [two_mul_half]
    have := half_pos
    omega
  have hfive : (5 : ℤ) < half := by
    unfold half
    norm_num
  have hb : Number ScalarTwoTo256 [half] := number_singleton half_pos hlt
  have ha : Number ScalarTwoTo256 [5, half] :=
    hb.cons (List.cons_ne_nil half []) ⟨by omega, hfive.trans hlt⟩
  have hle : val [half] ≤ val [5, half] := by
    rw [val_single, val_pair, two_mul_half]
    nlinarith
  rintro ⟨d, fuel₀, hreturns⟩
  obtain ⟨k, hk, hrun⟩ := _MPdiv_run ha hb (List.cons_ne_nil half []) hle (show 255 < fuel₀ + 256 by omega)
  rcases hrun with ⟨-, hnone⟩ | ⟨hnot, -⟩
  · rw [hreturns _ (Nat.le_add_right fuel₀ 256)] at hnone
    cases hnone
  · obtain ⟨-, hklt⟩ := hk rfl
    rw [val_single] at hklt
    obtain rfl : k = 0 := Nat.le_zero.mp (shift_unique (D := half) (by rw [pow_zero, mul_one]) hklt)
    refine hnot ⟨rfl, 0, ?_⟩
    have hdiv : val [5, half] / ScalarTwoTo256 ^ (0 + 1) = half := by
      rw [val_pair, zero_add, pow_one, Int.add_mul_ediv_left _ _ base_pos.ne',
        Int.ediv_eq_zero_of_lt (by omega) (hfive.trans hlt), zero_add]
    rw [pow_zero, mul_one, mul_one, hdiv, val_single, pow_zero, Int.ediv_one, val_pair,
      Int.add_mul_emod_self_left, Int.emod_eq_of_lt (by omega) (hfive.trans hlt)]
    exact ⟨le_rfl, dvd_refl half, hfive⟩

end ZkevmProver.MP
