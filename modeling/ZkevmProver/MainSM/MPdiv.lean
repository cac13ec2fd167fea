import Mathlib.Data.List.GetD
import Mathlib.Tactic.LinearCombination
import ZkevmProver.Lib.Limbs

/-!
# Multi-precision division

The division of numbers of 256-bit limbs for the ROM, by the long division of school: the divisor is
shifted until its highest bit is set, each digit of the quotient is estimated from the highest limbs, and
corrected by subtracting the divisor from its product with the estimate.

  1. The functions of the source.
  2. Rounds of the loops.
  3. Comparison.
  4. Subtraction.
  5. Multiplication by a limb.
  6. Division by a limb.
-/

namespace ZkevmProver.MP

open Limbs

/-! ## The functions of the source

`none` stands for an access outside of a list, a division by zero, an exit of the process, or a loop that
does not end. -/

def ScalarTwoTo256 : ℤ := 2 ^ 256

/-- The loop of `compare`, from limb `i - 1` down. -/
def compareLimbs (a b : List ℤ) : ℕ → ℤ
  | 0 => 0
  | i + 1 =>
    if a.getD i 0 ≠ b.getD i 0 then if a.getD i 0 > b.getD i 0 then 1 else -1
    else compareLimbs a b i

def compare (a b : List ℤ) : ℤ :=
  if a.length ≠ b.length then if a.length ≥ b.length then 1 else -1
  else compareLimbs a b a.length

def trim (a : List ℤ) : List ℤ := a.rdropWhile (· == 0)

/-- The first loop of `_MP_sub`: the limbs of the result, the carry, and the limbs of `a` that are left. -/
def subLimbs : List ℤ → List ℤ → ℤ → Option (List ℤ × ℤ × List ℤ)
  | a, [], carry => some ([], carry, a)
  | [], _ :: _, _ => none
  | x :: a, y :: b, carry => do
    let diff := x - y - carry
    let carry := if diff < 0 then 1 else 0
    let (result, carry', rest) ← subLimbs a b carry
    return ((diff + carry * ScalarTwoTo256) :: result, carry', rest)

/-- The other two loops.  Where a limb borrows, the second one increments its index twice. -/
def borrowLimbs (carry : ℤ) : List ℤ → List ℤ
  | [] => []
  | [x] =>
    let diff := x - carry
    if diff < 0 then [diff + ScalarTwoTo256] else [diff]
  | x :: y :: rest =>
    let diff := x - carry
    if diff < 0 then (diff + ScalarTwoTo256) :: borrowLimbs carry rest else diff :: y :: rest

def _MP_sub (a b : List ℤ) : Option (List ℤ) := do
  let (result, carry, rest) ← subLimbs a b 0
  return trim (result ++ borrowLimbs carry rest)

def MP_sub (a b : List ℤ) : Option (List ℤ) := do
  let result ←
    if compare a b ≥ 0 then _MP_sub a b
    else do
      let result ← _MP_sub b a
      let last ← result.getLast?
      some (result.dropLast ++ [-last])
  return if result.length = 0 then [0] else result

/-- The first loop of `MP_short_mul`. -/
def mulLimbs (b : ℤ) : List ℤ → ℤ → List ℤ × ℤ
  | [], carry => ([], carry)
  | x :: a, carry =>
    let product := x * b + carry
    let carry := product.tdiv ScalarTwoTo256
    let (result, carry') := mulLimbs b a carry
    ((product - carry * ScalarTwoTo256) :: result, carry')

theorem one_lt_base : 1 < ScalarTwoTo256 := by
  unfold ScalarTwoTo256
  exact one_lt_pow₀ one_lt_two (by decide)

theorem base_pos : 0 < ScalarTwoTo256 := zero_lt_one.trans one_lt_base

/-- The second loop. -/
def carryLimbs (carry : ℤ) : List ℤ :=
  if 0 < carry then carry.tmod ScalarTwoTo256 :: carryLimbs (carry.tdiv ScalarTwoTo256) else []
termination_by carry.toNat
decreasing_by
  rename_i hpos
  rw [Int.tdiv_eq_ediv_of_nonneg hpos.le]
  have hlt : carry / ScalarTwoTo256 < carry := Int.ediv_lt_self_of_pos_of_ne_one hpos one_lt_base.ne'
  omega

def MP_short_mul (a : List ℤ) (b : ℤ) : List ℤ :=
  let (result, carry) := mulLimbs b a 0
  trim (result ++ carryLimbs carry)

/-- The loop of `normalize`. -/
def normalizeLoop : ℕ → List ℤ → ℤ → Option (List ℤ × ℤ)
  | 0, _, _ => none
  | fuel + 1, b, shift => do
    let bm ← b.getLast?
    if bm < ScalarTwoTo256.tdiv 2 then normalizeLoop fuel (MP_short_mul b 2) (shift * 2)
    else some (b, shift)

def normalize (fuel : ℕ) (a b : List ℤ) : Option (List ℤ × List ℤ × ℤ) := do
  let (b, shift) ← normalizeLoop fuel b 1
  return (MP_short_mul a shift, b, shift)

/-- The loop of `_MPdiv_short`, on the limbs from the highest on. -/
def shortLimbs (b : ℤ) : List ℤ → ℤ → List ℤ × ℤ
  | [], remainder => ([], remainder)
  | x :: a, remainder =>
    let dividendi := remainder * ScalarTwoTo256 + x
    let qi := dividendi.tdiv b
    let (quotient, remainder) := shortLimbs b a (dividendi - qi * b)
    (qi :: quotient, remainder)

def _MPdiv_short (a : List ℤ) (b : ℤ) : Option (List ℤ × ℤ) :=
  if b = 0 then none
  else
    let (quotient, remainder) := shortLimbs b a.reverse 0
    some (trim quotient.reverse, remainder)

def findQn (an b : List ℤ) : Option ℤ := do
  let bm ← b.getLast?
  if compare an b = -1 then return 0
  let n := an.length
  let high ← an.getLast?
  if high < bm then
    if n < 2 then none
    let next ← an[n - 2]?
    let (quotient, _) ← _MPdiv_short [next, high] bm
    quotient.head?
  else if high = bm then if b.length < n then return ScalarTwoTo256 - 1 else return 1
  else return 1

/-- The first loop of `_MPdiv`: the highest limbs of `a`, until they are not less than `b`. -/
def takeLimbs (a b : List ℤ) : ℕ → List ℤ → Option (ℕ × List ℤ)
  | 0, an => if compare an b = -1 then none else some (0, an)
  | a_l + 1, an =>
    if compare an b = -1 then do
      let x ← a[a_l]?
      takeLimbs a b a_l (x :: an)
    else some (a_l + 1, an)

/-- The loop that corrects an estimate.  The last number is not in the source: it counts the rounds. -/
def correctQn (b an : List ℤ) : ℕ → ℤ → List ℤ → ℕ → Option (ℤ × List ℤ × ℕ)
  | 0, _, _, _ => none
  | fuel + 1, qn, test, rounds =>
    if compare test an = 1 then do
      let test ← MP_sub test b
      correctQn b an fuel (qn - 1) test (rounds + 1)
    else some (qn, test, rounds)

structure Division where
  quotient : List ℤ
  remainder : List ℤ
  /-- Not in the source: the rounds of the loop that corrects each digit. -/
  rounds : List ℕ

/-- The loop over the digits of the quotient. -/
def digitLimbs (fuel : ℕ) (a b : List ℤ) : ℕ → List ℤ → List ℤ → List ℕ → Option Division
  | a_l, an, quotient, rounds => do
    let qn ← findQn an b
    let (qn, test, count) ← correctQn b an fuel qn (MP_short_mul b qn) 0
    let remainder ← MP_sub an test
    match a_l with
    | 0 => return ⟨qn :: quotient, remainder, count :: rounds⟩
    | a_l + 1 =>
      let x ← a[a_l]?
      digitLimbs fuel a b a_l (x :: remainder) (qn :: quotient) (count :: rounds)

def _MPdiv (fuel : ℕ) (a b : List ℤ) : Option Division := do
  let (a, b, shift) ← normalize fuel a b
  let (a_l, an) ← takeLimbs a b a.length []
  let d ← digitLimbs fuel a b a_l an [] []
  let (auxQuotient, _) ← _MPdiv_short d.remainder shift
  return ⟨trim d.quotient, trim auxQuotient, d.rounds⟩

/-! ## Rounds of the loops -/

theorem normalizeLoop_succ (fuel : ℕ) (b : List ℤ) (shift : ℤ) : normalizeLoop (fuel + 1) b shift = (do
    let bm ← b.getLast?
    if bm < ScalarTwoTo256.tdiv 2 then normalizeLoop fuel (MP_short_mul b 2) (shift * 2)
    else some (b, shift)) := rfl

theorem correctQn_succ (b an : List ℤ) (fuel : ℕ) (qn : ℤ) (test : List ℤ) (rounds : ℕ) :
    correctQn b an (fuel + 1) qn test rounds = (if compare test an = 1 then do
      let test ← MP_sub test b
      correctQn b an fuel (qn - 1) test (rounds + 1)
    else some (qn, test, rounds)) := rfl

theorem digitLimbs_eq (fuel : ℕ) (a b : List ℤ) (a_l : ℕ) (an quotient : List ℤ) (rounds : List ℕ) :
    digitLimbs fuel a b a_l an quotient rounds = (do
      let qn ← findQn an b
      let (qn, test, count) ← correctQn b an fuel qn (MP_short_mul b qn) 0
      let remainder ← MP_sub an test
      match a_l with
      | 0 => return ⟨qn :: quotient, remainder, count :: rounds⟩
      | a_l + 1 =>
        let x ← a[a_l]?
        digitLimbs fuel a b a_l (x :: remainder) (qn :: quotient) (count :: rounds)) := by
  cases a_l <;> rfl

/-! ## Comparison -/

/-- The value of a list of 256-bit limbs. -/
abbrev val (a : List ℤ) : ℤ := value ScalarTwoTo256 a

section Comparison

variable {a b : List ℤ}

theorem val_take_succ {i : ℕ} (h : i < a.length) :
    val (a.take (i + 1)) = val (a.take i) + ScalarTwoTo256 ^ i * a.getD i 0 := by
  rw [List.take_succ_eq_append_getElem h, val, value_append, List.length_take_of_le h.le, value_cons,
    value_nil, mul_zero, add_zero, List.getD_eq_getElem _ _ h]

/-- The highest limb that differs decides. -/
theorem lt_of_limb_lt {P x y u v : ℤ} (hP : 0 < P) (hu : u < P) (hv : 0 ≤ v) (h : x < y) :
    u + P * x < v + P * y :=
  calc u + P * x < P + P * x := add_lt_add_left hu _
    _ = P * (x + 1) := by ring
    _ ≤ P * y := mul_le_mul_of_nonneg_left h hP.le
    _ ≤ v + P * y := le_add_of_nonneg_left hv

theorem compareLimbs_cases (ha : InRange ScalarTwoTo256 a) (hb : InRange ScalarTwoTo256 b) {i : ℕ}
    (hia : i ≤ a.length) (hib : i ≤ b.length) :
    (compareLimbs a b i = -1 ∧ val (a.take i) < val (b.take i)) ∨
    (compareLimbs a b i = 0 ∧ val (a.take i) = val (b.take i)) ∨
    (compareLimbs a b i = 1 ∧ val (b.take i) < val (a.take i)) := by
  induction i with
  | zero => exact .inr (.inl ⟨rfl, rfl⟩)
  | succ i ih =>
    have hP : 0 < ScalarTwoTo256 ^ i := pow_pos base_pos i
    have hrange {l : List ℤ} (hl : InRange ScalarTwoTo256 l) (hi : i + 1 ≤ l.length) :
        0 ≤ val (l.take i) ∧ val (l.take i) < ScalarTwoTo256 ^ i := by
      have htake := hl.of_sublist (List.take_sublist i l)
      have hlt := value_lt htake
      rw [List.length_take_of_le (by omega)] at hlt
      exact ⟨value_nonneg htake, hlt⟩
    obtain ⟨ha0, halt⟩ := hrange ha hia
    obtain ⟨hb0, hblt⟩ := hrange hb hib
    rw [compareLimbs, val_take_succ hia, val_take_succ hib]
    by_cases heq : a.getD i 0 = b.getD i 0
    · rw [if_neg (not_not.mpr heq), heq]
      rcases ih (by omega) (by omega) with ⟨h, hlt⟩ | ⟨h, heq⟩ | ⟨h, hgt⟩
      · exact .inl ⟨h, add_lt_add_left hlt _⟩
      · exact .inr (.inl ⟨h, by rw [heq]⟩)
      · exact .inr (.inr ⟨h, add_lt_add_left hgt _⟩)
    · rw [if_pos heq]
      rcases lt_or_gt_of_ne heq with hlt | hgt
      · exact .inl ⟨if_neg hlt.not_gt, lt_of_limb_lt hP halt hb0 hlt⟩
      · exact .inr (.inr ⟨if_pos hgt, lt_of_limb_lt hP hblt ha0 hgt⟩)

/-- Lists of one length, or numbers, are compared by their values. -/
theorem compare_cases (ha : InRange ScalarTwoTo256 a) (hb : InRange ScalarTwoTo256 b)
    (h : a.length = b.length ∨ Number ScalarTwoTo256 a ∧ Number ScalarTwoTo256 b) :
    (compare a b = -1 ∧ val a < val b) ∨ (compare a b = 0 ∧ val a = val b) ∨
      (compare a b = 1 ∧ val b < val a) := by
  unfold compare
  by_cases hlength : a.length = b.length
  · rw [if_neg (not_not.mpr hlength)]
    have hcases := compareLimbs_cases ha hb le_rfl hlength.le
    rwa [List.take_length, hlength, List.take_length, ← hlength] at hcases
  · obtain ⟨hna, hnb⟩ := h.resolve_left hlength
    rw [if_pos hlength]
    by_cases hle : b.length ≤ a.length
    · exact .inr (.inr ⟨if_pos hle, hna.value_lt_of_length one_lt_base hb (by omega)⟩)
    · exact .inl ⟨if_neg hle, hnb.value_lt_of_length one_lt_base ha (by omega)⟩

theorem compare_of_length_lt (h : a.length < b.length) : compare a b = -1 := by
  unfold compare
  rw [if_pos h.ne, if_neg (by omega)]

theorem compare_of_length_gt (h : b.length < a.length) : compare a b = 1 := by
  unfold compare
  rw [if_pos h.ne', if_pos h.le]

theorem compare_eq_neg_one_iff (ha : InRange ScalarTwoTo256 a) (hb : InRange ScalarTwoTo256 b)
    (h : a.length = b.length ∨ Number ScalarTwoTo256 a ∧ Number ScalarTwoTo256 b) :
    compare a b = -1 ↔ val a < val b := by
  rcases compare_cases ha hb h with ⟨h, hlt⟩ | ⟨h, heq⟩ | ⟨h, hgt⟩
  · exact iff_of_true h hlt
  · exact iff_of_false (by rw [h]; decide) heq.not_lt
  · exact iff_of_false (by rw [h]; decide) hgt.not_gt

theorem compare_eq_one_iff (ha : InRange ScalarTwoTo256 a) (hb : InRange ScalarTwoTo256 b)
    (h : a.length = b.length ∨ Number ScalarTwoTo256 a ∧ Number ScalarTwoTo256 b) :
    compare a b = 1 ↔ val b < val a := by
  rcases compare_cases ha hb h with ⟨h, hlt⟩ | ⟨h, heq⟩ | ⟨h, hgt⟩
  · exact iff_of_false (by rw [h]; decide) hlt.not_gt
  · exact iff_of_false (by rw [h]; decide) heq.not_gt
  · exact iff_of_true h hgt

theorem compare_nonneg_iff (ha : InRange ScalarTwoTo256 a) (hb : InRange ScalarTwoTo256 b)
    (h : a.length = b.length ∨ Number ScalarTwoTo256 a ∧ Number ScalarTwoTo256 b) :
    compare a b ≥ 0 ↔ val b ≤ val a := by
  rcases compare_cases ha hb h with ⟨h, hlt⟩ | ⟨h, heq⟩ | ⟨h, hgt⟩
  · exact iff_of_false (by rw [h]; decide) hlt.not_ge
  · exact iff_of_true h.ge heq.ge
  · exact iff_of_true (by rw [h]; decide) hgt.le

end Comparison

/-! ## Subtraction -/

section Subtraction

variable {a b : List ℤ}

theorem val_trim (a : List ℤ) : val (trim a) = val a := by
  unfold trim
  induction a using List.reverseRecOn with
  | nil => rfl
  | append_singleton a x ih =>
    by_cases hx : x = 0
    · rw [List.rdropWhile_concat_pos _ _ _ (by simpa using hx), ih, val, val, value_append, hx, value_cons,
        value_nil, mul_zero, add_zero, mul_zero, add_zero]
    · rw [List.rdropWhile_concat_neg _ _ _ (by simpa using hx)]

theorem number_trim (h : InRange ScalarTwoTo256 a) : Number ScalarTwoTo256 (trim a) := by
  unfold trim
  refine ⟨h.of_sublist (List.rdropWhile_prefix _ _).sublist, fun hlast => ?_⟩
  have hne : a.rdropWhile (· == 0) ≠ [] := by
    intro hnil
    rw [hnil] at hlast
    cases hlast
  have hlast' := List.rdropWhile_last_not (· == 0) a hne
  rw [List.getLast?_eq_some_getLast hne, Option.some_inj] at hlast
  rw [hlast] at hlast'
  exact hlast' rfl

/-- The first loop: the limbs of the result make up the difference up to a carry. -/
theorem subLimbs_spec (ha : InRange ScalarTwoTo256 a) (hb : InRange ScalarTwoTo256 b)
    (h : b.length ≤ a.length) {carry : ℤ} (hcarry : carry = 0 ∨ carry = 1) :
    ∃ result carry', subLimbs a b carry = some (result, carry', a.drop b.length) ∧
      InRange ScalarTwoTo256 result ∧ result.length = b.length ∧ (carry' = 0 ∨ carry' = 1) ∧
      val result + ScalarTwoTo256 ^ b.length * (val (a.drop b.length) - carry') = val a - val b - carry := by
  induction b generalizing a carry with
  | nil => exact ⟨[], carry, by cases a <;> rfl, inRange_nil, rfl, hcarry, by
      simp only [value_nil, List.length_nil, pow_zero, List.drop_zero]; ring⟩
  | cons y b ih =>
    cases a with
    | nil => exact absurd h (Nat.not_succ_le_zero _)
    | cons x a =>
      obtain ⟨⟨hx0, hx⟩, ha⟩ := inRange_cons.mp ha
      obtain ⟨⟨hy0, hy⟩, hb⟩ := inRange_cons.mp hb
      have hcarry' : (if x - y - carry < 0 then 1 else 0 : ℤ) = 0 ∨
          (if x - y - carry < 0 then 1 else 0 : ℤ) = 1 := by
        split
        · exact .inr rfl
        · exact .inl rfl
      obtain ⟨result, carry', heq, hrange, hlength, hbit, hval⟩ := ih ha hb (Nat.le_of_succ_le_succ h) hcarry'
      refine ⟨_, carry', by rw [subLimbs, heq]; rfl, inRange_cons.mpr ⟨?_, hrange⟩, by
        rw [List.length_cons, List.length_cons, hlength], hbit, ?_⟩
      · split <;> omega
      · unfold val at hval ⊢
        rw [List.length_cons, List.drop_succ_cons, value_cons, value_cons, value_cons, pow_succ]
        linear_combination ScalarTwoTo256 * hval

/-- The result of the other loops has limbs, whatever they skip. -/
theorem inRange_borrowLimbs {rest : List ℤ} (hrest : InRange ScalarTwoTo256 rest) {carry : ℤ}
    (hcarry : carry = 0 ∨ carry = 1) : InRange ScalarTwoTo256 (borrowLimbs carry rest) := by
  have hdiff {x : ℤ} (hx : 0 ≤ x ∧ x < ScalarTwoTo256) :
      (x - carry < 0 → 0 ≤ x - carry + ScalarTwoTo256 ∧ x - carry + ScalarTwoTo256 < ScalarTwoTo256) ∧
        (¬x - carry < 0 → 0 ≤ x - carry ∧ x - carry < ScalarTwoTo256) := by
    have := one_lt_base
    omega
  induction rest using borrowLimbs.induct carry with
  | case1 => exact hrest
  | case2 x diff hneg =>
    rw [borrowLimbs, if_pos hneg]
    exact inRange_cons.mpr ⟨(hdiff (inRange_cons.mp hrest).1).1 hneg, inRange_nil⟩
  | case3 x diff hneg =>
    rw [borrowLimbs, if_neg hneg]
    exact inRange_cons.mpr ⟨(hdiff (inRange_cons.mp hrest).1).2 hneg, inRange_nil⟩
  | case4 x y rest diff hneg ih =>
    rw [borrowLimbs, if_pos hneg]
    obtain ⟨hx, hrest⟩ := inRange_cons.mp hrest
    exact inRange_cons.mpr ⟨(hdiff hx).1 hneg, ih (inRange_cons.mp hrest).2⟩
  | case5 x y rest diff hneg =>
    rw [borrowLimbs, if_neg hneg]
    obtain ⟨hx, hrest⟩ := inRange_cons.mp hrest
    exact inRange_cons.mpr ⟨(hdiff hx).2 hneg, hrest⟩

/-- A borrow does not go beyond the first limb, but into a last limb of one, which trimming removes. -/
def Stops (carry : ℤ) (rest : List ℤ) : Prop := carry = 0 ∨ rest.head? ≠ some 0 ∨ rest = [0, 1]

theorem val_borrowLimbs_of_stops {rest : List ℤ} (hrest : InRange ScalarTwoTo256 rest) {carry : ℤ}
    (hcarry : carry = 0 ∨ carry = 1) (hle : carry ≤ val rest) (h : Stops carry rest) :
    val (borrowLimbs carry rest) = val rest - carry := by
  have hfirst {x : ℤ} {l : List ℤ} (hl : InRange ScalarTwoTo256 (x :: l)) (h : carry = 0 ∨ x ≠ 0) :
      ¬x - carry < 0 := by
    have := (inRange_cons.mp hl).1
    omega
  match rest with
  | [] =>
    have hzero : val [] = 0 := value_nil
    rw [hzero] at hle
    rw [borrowLimbs, hzero]
    omega
  | [x] =>
    have hx : carry = 0 ∨ x ≠ 0 := by
      rcases h with h | h | h
      · exact .inl h
      · exact .inr fun hx => h (congrArg some hx)
      · cases h
    rw [borrowLimbs, if_neg (hfirst hrest hx)]
    simp only [val, value_cons, value_nil]
    ring
  | x :: y :: rest =>
    rcases h with h | h | h
    · rw [borrowLimbs, if_neg (hfirst hrest (.inl h)), h, sub_zero, sub_zero]
    · rw [borrowLimbs, if_neg (hfirst hrest (.inr fun hx => h (congrArg some hx)))]
      simp only [val, value_cons]
      ring
    · obtain ⟨rfl, rfl, rfl⟩ : x = 0 ∧ y = 1 ∧ rest = [] := by simpa using h
      rcases hcarry with rfl | rfl
      · rfl
      · simp [borrowLimbs, val]
        ring

/-- The loops skip limbs, so that they never leave more than there was. -/
theorem val_borrowLimbs_le {rest : List ℤ} (hrest : Number ScalarTwoTo256 rest) {carry : ℤ}
    (hcarry : carry = 0 ∨ carry = 1) : val (borrowLimbs carry rest) ≤ val rest := by
  have hB := one_lt_base
  induction rest using borrowLimbs.induct carry with
  | case1 => exact le_rfl
  | case2 x diff hneg =>
    have hx := hrest.trimmed
    have hx0 := (inRange_cons.mp hrest.inRange).1.1
    obtain rfl : x = 0 := by omega
    exact absurd rfl hx
  | case3 x diff hneg =>
    rw [borrowLimbs, if_neg hneg]
    simp only [val, value_cons]
    omega
  | case4 x y rest diff hneg ih =>
    rw [borrowLimbs, if_pos hneg]
    obtain ⟨⟨hx0, -⟩, hy⟩ := inRange_cons.mp hrest.inRange
    have hy0 := (inRange_cons.mp hy).1.1
    have ih := ih hrest.of_cons.of_cons
    simp only [val, value_cons] at ih ⊢
    have hpos : 1 ≤ y + ScalarTwoTo256 * value ScalarTwoTo256 rest :=
      hrest.of_cons.value_pos base_pos (List.cons_ne_nil y rest)
    nlinarith
  | case5 x y rest diff hneg =>
    rw [borrowLimbs, if_neg hneg]
    simp only [val, value_cons]
    omega

/-- Where a borrow goes on, the skipped limb is missing. -/
theorem stops_of_val_borrowLimbs {rest : List ℤ} (hrest : Number ScalarTwoTo256 rest) {carry : ℤ}
    (hcarry : carry = 0 ∨ carry = 1) (h : val (borrowLimbs carry rest) = val rest - carry) :
    Stops carry rest := by
  rcases hcarry with hzero | rfl
  · exact .inl hzero
  match rest with
  | [] => exact .inr (.inl (by simp))
  | [x] =>
    refine .inr (.inl fun hx => hrest.trimmed ?_)
    simpa using hx
  | x :: y :: rest =>
    by_cases hx : x = 0
    · -- the limb above is skipped
      subst hx
      refine .inr (.inr ?_)
      have hrest' := hrest.of_cons.of_cons
      have hle := val_borrowLimbs_le hrest' (.inr rfl)
      rw [borrowLimbs, if_pos (by omega)] at h
      simp only [val, value_cons] at h hle
      have hy0 := (inRange_cons.mp hrest.of_cons.inRange).1.1
      have hmul : ScalarTwoTo256 * (1 + value ScalarTwoTo256 (borrowLimbs 1 rest)) =
          ScalarTwoTo256 * (y + ScalarTwoTo256 * value ScalarTwoTo256 rest) := by linarith
      have heq := mul_left_cancel₀ base_pos.ne' hmul
      have hB : 2 < ScalarTwoTo256 := by
        unfold ScalarTwoTo256
        norm_num
      rcases eq_or_ne rest [] with rfl | hne
      · simp only [borrowLimbs, value_nil, mul_zero, add_zero] at heq
        rw [← heq]
      · have hpos : 0 < value ScalarTwoTo256 rest := hrest'.value_pos base_pos hne
        nlinarith
    · exact .inr (.inl fun hhead => hx (Option.some_inj.mp hhead))

theorem val_take_add_drop {n : ℕ} (h : n ≤ a.length) :
    val a = val (a.take n) + ScalarTwoTo256 ^ n * val (a.drop n) := by
  have happend := value_append (B := ScalarTwoTo256) (a.take n) (a.drop n)
  rwa [List.take_append_drop, List.length_take_of_le h] at happend

/-- Both parts of the result, and the borrow between them. -/
theorem _MP_sub_eq (ha : InRange ScalarTwoTo256 a) (hb : InRange ScalarTwoTo256 b)
    (hlength : b.length ≤ a.length) :
    ∃ result carry, _MP_sub a b = some (trim (result ++ borrowLimbs carry (a.drop b.length))) ∧
      InRange ScalarTwoTo256 result ∧ result.length = b.length ∧ (carry = 0 ∨ carry = 1) ∧
      val result = val (a.take b.length) - val b + ScalarTwoTo256 ^ b.length * carry := by
  obtain ⟨result, carry, heq, hrange, hlen, hbit, hval⟩ := subLimbs_spec ha hb hlength (.inl rfl)
  refine ⟨result, carry, ?_, hrange, hlen, hbit, ?_⟩
  · rw [_MP_sub, heq]
    rfl
  · have hsplit := val_take_add_drop hlength
    linarith

/-- There is a borrow above the limbs of `b` if the limbs below are not enough. -/
theorem carry_eq_zero_iff {low result : List ℤ} (hresult : InRange ScalarTwoTo256 result)
    (hlength : result.length = b.length) {carry : ℤ} (hcarry : carry = 0 ∨ carry = 1)
    (h : val result = val low - val b + ScalarTwoTo256 ^ b.length * carry) :
    carry = 0 ↔ val b ≤ val low := by
  have h0 : 0 ≤ val result := value_nonneg hresult
  have hlt : val result < ScalarTwoTo256 ^ b.length := hlength ▸ value_lt hresult
  rcases hcarry with rfl | rfl
  · refine iff_of_true rfl ?_
    rw [mul_zero] at h
    omega
  · refine iff_of_false one_ne_zero ?_
    rw [mul_one] at h
    omega

/-- The limbs of `a` below the length of `b` are enough, or what is borrowed above them stops at once. -/
def BorrowEnds (a b : List ℤ) : Prop :=
  val b ≤ val (a.take b.length) ∨ a[b.length]? ≠ some 0 ∨ a.drop b.length = [0, 1]

theorem stops_iff_borrowEnds {carry : ℤ} (hcarry : carry = 0 ↔ val b ≤ val (a.take b.length)) :
    Stops carry (a.drop b.length) ↔ BorrowEnds a b := by
  unfold Stops BorrowEnds
  rw [hcarry, List.head?_drop]

theorem borrowEnds_of_length (h : a.length ≤ b.length + 1 ∨ b = []) (hle : val b ≤ val a) :
    BorrowEnds a b := by
  rcases h with h | rfl
  · by_cases hzero : a[b.length]? = some 0
    · refine .inl (hle.trans_eq ?_)
      obtain ⟨hlt, heq⟩ := List.getElem?_eq_some_iff.mp hzero
      have hall : a.take (b.length + 1) = a := List.take_of_length_le h
      have htake := val_take_succ hlt
      rwa [hall, List.getD_eq_getElem _ _ hlt, heq, mul_zero, add_zero] at htake
    · exact .inr (.inl hzero)
  · exact .inl le_rfl

/-- The difference is exact if the borrow ends, and for numbers only then. -/
theorem _MP_sub_spec (ha : InRange ScalarTwoTo256 a) (hb : InRange ScalarTwoTo256 b)
    (hlength : b.length ≤ a.length) (hle : val b ≤ val a) :
    ∃ result, _MP_sub a b = some result ∧ Number ScalarTwoTo256 result ∧
      (BorrowEnds a b → val result = val a - val b) ∧
      (Number ScalarTwoTo256 a → val result = val a - val b → BorrowEnds a b) := by
  obtain ⟨result, carry, heq, hrange, hlen, hbit, hval⟩ := _MP_sub_eq ha hb hlength
  have hcarry := carry_eq_zero_iff hrange hlen hbit hval
  have hrest : InRange ScalarTwoTo256 (a.drop b.length) := ha.of_sublist (List.drop_sublist _ _)
  have hpow : 0 < ScalarTwoTo256 ^ b.length := pow_pos base_pos _
  have hsplit := val_take_add_drop hlength
  have htotal : val (trim (result ++ borrowLimbs carry (a.drop b.length))) =
      val result + ScalarTwoTo256 ^ b.length * val (borrowLimbs carry (a.drop b.length)) := by
    rw [val_trim, val, value_append, hlen]
  refine ⟨_, heq, number_trim (inRange_append.mpr ⟨hrange, inRange_borrowLimbs hrest hbit⟩), ?_, ?_⟩
  · intro hends
    have hlecarry : carry ≤ val (a.drop b.length) := by
      by_contra hlt
      have hresult : val result < _ := value_lt hrange
      rw [hlen] at hresult
      have hneg : ScalarTwoTo256 ^ b.length * (val (a.drop b.length) - carry) ≤
          ScalarTwoTo256 ^ b.length * (-1) := mul_le_mul_of_nonneg_left (by omega) hpow.le
      linarith
    have hborrow := val_borrowLimbs_of_stops hrest hbit hlecarry ((stops_iff_borrowEnds hcarry).mpr hends)
    rw [htotal, hborrow]
    linarith
  · intro hnumber hexact
    refine (stops_iff_borrowEnds hcarry).mp (stops_of_val_borrowLimbs (hnumber.drop _) hbit ?_)
    rw [htotal] at hexact
    refine mul_left_cancel₀ hpow.ne' ?_
    linarith

/-- The list of a number, zero as one limb. -/
def ofVal (r : List ℤ) : List ℤ := if r.length = 0 then [0] else r

theorem MP_sub_of_compare {r : List ℤ} (hcompare : compare a b ≥ 0) (h : _MP_sub a b = some r) :
    MP_sub a b = some (ofVal r) := by
  rw [MP_sub, if_pos hcompare, h]
  rfl

theorem MP_sub_spec (ha : InRange ScalarTwoTo256 a) (hb : InRange ScalarTwoTo256 b)
    (hlength : b.length ≤ a.length) (h : a.length ≤ b.length + 1 ∨ b = []) (hle : val b ≤ val a)
    (hcompare : compare a b ≥ 0) :
    ∃ r, MP_sub a b = some (ofVal r) ∧ Number ScalarTwoTo256 r ∧ val r = val a - val b := by
  obtain ⟨r, heq, hnumber, hexact, -⟩ := _MP_sub_spec ha hb hlength hle
  exact ⟨r, MP_sub_of_compare hcompare heq, hnumber, hexact (borrowEnds_of_length h hle)⟩

/-- `_MP_sub` and `MP_sub` return the limbs of the difference, a difference of zero as `MP_sub` does. -/
def SubtractsExactly (a b : List ℤ) : Prop :=
  ∃ r, _MP_sub a b = some r ∧ MP_sub a b = some (ofVal r) ∧ Number ScalarTwoTo256 r ∧
    val r = val a - val b

/-- **Which differences are exact.**  The limb above one that borrows is skipped, so that the borrow has to
end there. -/
theorem subtractsExactly_iff (a b : List ℤ) (ha : Number ScalarTwoTo256 a) (hb : Number ScalarTwoTo256 b)
    (hle : val b ≤ val a) : SubtractsExactly a b ↔ BorrowEnds a b := by
  have hlength : b.length ≤ a.length := hb.length_le one_lt_base ha.inRange hle
  obtain ⟨r, heq, hnumber, hexact, hends⟩ := _MP_sub_spec ha.inRange hb.inRange hlength hle
  constructor
  · rintro ⟨r', heq', -, -, hval⟩
    obtain rfl : r = r' := Option.some_inj.mp (heq.symm.trans heq')
    exact hends ha hval
  · intro h
    have hcompare := (compare_nonneg_iff ha.inRange hb.inRange (.inr ⟨ha, hb⟩)).mpr hle
    exact ⟨r, heq, MP_sub_of_compare hcompare heq, hnumber, hexact h⟩

theorem number_three {x y z : ℤ} (hx : 0 ≤ x ∧ x < ScalarTwoTo256) (hy : 0 ≤ y ∧ y < ScalarTwoTo256)
    (hz : 0 < z ∧ z < ScalarTwoTo256) : Number ScalarTwoTo256 [x, y, z] := by
  refine ⟨inRange_cons.mpr ⟨hx, inRange_cons.mpr ⟨hy, inRange_cons.mpr ⟨⟨hz.1.le, hz.2⟩, inRange_nil⟩⟩⟩, ?_⟩
  simpa using hz.1.ne'

/-- The borrow ends in a limb of three. -/
theorem subtractsExactly_iff_sample : SubtractsExactly [0, 3, 2] [1] := by
  have hB : 3 < ScalarTwoTo256 := by
    unfold ScalarTwoTo256
    norm_num
  refine (subtractsExactly_iff [0, 3, 2] [1] (number_three (by omega) (by omega) (by omega))
    ⟨inRange_cons.mpr ⟨by omega, inRange_nil⟩, by simp⟩ ?_).mpr (.inr (.inl (by simp)))
  simp only [val, value_cons, value_nil]
  nlinarith

/-- `2 ^ 513 - 1`: its highest limb is lost. -/
theorem not_subtractsExactly : Number ScalarTwoTo256 [0, 0, 2] ∧ Number ScalarTwoTo256 [1] ∧
    val [1] ≤ val [0, 0, 2] ∧ ¬SubtractsExactly [0, 0, 2] [1] := by
  have hB : 2 < ScalarTwoTo256 := by
    unfold ScalarTwoTo256
    norm_num
  refine ⟨number_three (by omega) (by omega) (by omega),
    ⟨inRange_cons.mpr ⟨by omega, inRange_nil⟩, by simp⟩, ?_, ?_⟩
  · simp only [val, value_cons, value_nil]
    nlinarith
  · rintro ⟨r, hr, -, -, hval⟩
    have hresult : _MP_sub [0, 0, 2] [1] = some (trim [ScalarTwoTo256 - 1, ScalarTwoTo256 - 1]) := by
      simp [_MP_sub, subLimbs, borrowLimbs]
      ring_nf
    rw [hr, Option.some_inj] at hresult
    rw [hresult, val_trim] at hval
    simp only [val, value_cons, value_nil] at hval
    nlinarith

end Subtraction

/-! ## Multiplication by a limb -/

section Multiplication

variable {a : List ℤ} {b carry : ℤ}

theorem mulLimbs_spec (ha : InRange ScalarTwoTo256 a) (hb : 0 ≤ b) (hcarry : 0 ≤ carry) :
    InRange ScalarTwoTo256 (mulLimbs b a carry).1 ∧ (mulLimbs b a carry).1.length = a.length ∧
      0 ≤ (mulLimbs b a carry).2 ∧
      val (mulLimbs b a carry).1 + ScalarTwoTo256 ^ a.length * (mulLimbs b a carry).2 =
        val a * b + carry := by
  induction a generalizing carry with
  | nil => exact ⟨inRange_nil, rfl, hcarry, by simp [mulLimbs]⟩
  | cons x a ih =>
    obtain ⟨⟨hx0, -⟩, ha⟩ := inRange_cons.mp ha
    have hproduct : 0 ≤ x * b + carry := add_nonneg (mul_nonneg hx0 hb) hcarry
    have hdiv : (x * b + carry).tdiv ScalarTwoTo256 = (x * b + carry) / ScalarTwoTo256 :=
      Int.tdiv_eq_ediv_of_nonneg hproduct
    have hdigit : x * b + carry - (x * b + carry) / ScalarTwoTo256 * ScalarTwoTo256 =
        (x * b + carry) % ScalarTwoTo256 := by
      rw [mul_comm _ ScalarTwoTo256, ← Int.emod_def]
    obtain ⟨hrange, hlength, hnonneg, hval⟩ := ih ha (Int.ediv_nonneg hproduct base_pos.le)
    rw [mulLimbs]
    dsimp only
    rw [hdiv, hdigit]
    refine ⟨inRange_cons.mpr ⟨⟨Int.emod_nonneg _ base_pos.ne', Int.emod_lt_of_pos _ base_pos⟩, hrange⟩,
      by rw [List.length_cons, List.length_cons, hlength], hnonneg, ?_⟩
    have hmod := Int.emod_add_mul_ediv (x * b + carry) ScalarTwoTo256
    unfold val at hval ⊢
    rw [List.length_cons, value_cons, value_cons, pow_succ]
    linear_combination ScalarTwoTo256 * hval + hmod

theorem carryLimbs_spec (hcarry : 0 ≤ carry) :
    InRange ScalarTwoTo256 (carryLimbs carry) ∧ val (carryLimbs carry) = carry := by
  induction carry using carryLimbs.induct with
  | case1 carry hpos ih =>
    rw [carryLimbs, if_pos hpos]
    rw [Int.tdiv_eq_ediv_of_nonneg hcarry, Int.tmod_eq_emod_of_nonneg hcarry] at *
    obtain ⟨hrange, hval⟩ := ih (Int.ediv_nonneg hcarry base_pos.le)
    refine ⟨inRange_cons.mpr ⟨⟨Int.emod_nonneg _ base_pos.ne', Int.emod_lt_of_pos _ base_pos⟩, hrange⟩, ?_⟩
    unfold val at hval ⊢
    rw [value_cons, hval]
    exact Int.emod_add_mul_ediv carry ScalarTwoTo256
  | case2 carry hpos =>
    rw [carryLimbs, if_neg hpos]
    exact ⟨inRange_nil, by rw [val, value_nil]; omega⟩

theorem MP_short_mul_spec (ha : InRange ScalarTwoTo256 a) (hb : 0 ≤ b) :
    Number ScalarTwoTo256 (MP_short_mul a b) ∧ val (MP_short_mul a b) = val a * b := by
  obtain ⟨hrange, hlength, hnonneg, hval⟩ := mulLimbs_spec ha hb le_rfl
  obtain ⟨hrange', hval'⟩ := carryLimbs_spec hnonneg
  unfold MP_short_mul
  dsimp only
  refine ⟨number_trim (inRange_append.mpr ⟨hrange, hrange'⟩), ?_⟩
  rw [val_trim]
  unfold val at hval hval' ⊢
  rw [value_append, hlength, hval', hval, add_zero]

end Multiplication

/-! ## Division by a limb -/

section Division

variable {a : List ℤ} {b remainder : ℤ}

/-- The quotient of the limbs from the highest on, where `remainder` is left of those before. -/
theorem shortLimbs_spec (ha : InRange ScalarTwoTo256 a) (hb : 0 < b) (h0 : 0 ≤ remainder)
    (hlt : remainder < b) :
    InRange ScalarTwoTo256 (shortLimbs b a remainder).1 ∧
      (shortLimbs b a remainder).1.length = a.length ∧
      0 ≤ (shortLimbs b a remainder).2 ∧ (shortLimbs b a remainder).2 < b ∧
      remainder * ScalarTwoTo256 ^ a.length + val a.reverse =
        val (shortLimbs b a remainder).1.reverse * b + (shortLimbs b a remainder).2 := by
  induction a generalizing remainder with
  | nil => exact ⟨inRange_nil, rfl, h0, hlt, by simp [shortLimbs]⟩
  | cons x a ih =>
    obtain ⟨⟨hx0, hx⟩, ha⟩ := inRange_cons.mp ha
    have hdividend : 0 ≤ remainder * ScalarTwoTo256 + x := add_nonneg (mul_nonneg h0 base_pos.le) hx0
    have hdigit : (remainder * ScalarTwoTo256 + x) / b < ScalarTwoTo256 := by
      apply Int.ediv_lt_of_lt_mul hb
      calc remainder * ScalarTwoTo256 + x < remainder * ScalarTwoTo256 + ScalarTwoTo256 := add_lt_add_right hx _
        _ = (remainder + 1) * ScalarTwoTo256 := by ring
        _ ≤ b * ScalarTwoTo256 := mul_le_mul_of_nonneg_right hlt base_pos.le
        _ = ScalarTwoTo256 * b := mul_comm _ _
    have hmod : remainder * ScalarTwoTo256 + x - (remainder * ScalarTwoTo256 + x) / b * b =
        (remainder * ScalarTwoTo256 + x) % b := by
      rw [mul_comm _ b, ← Int.emod_def]
    obtain ⟨hrange, hlength, hr0, hr, hval⟩ :=
      ih ha (Int.emod_nonneg _ hb.ne') (Int.emod_lt_of_pos (remainder * ScalarTwoTo256 + x) hb)
    rw [shortLimbs]
    dsimp only
    rw [Int.tdiv_eq_ediv_of_nonneg hdividend, hmod]
    refine ⟨inRange_cons.mpr ⟨⟨Int.ediv_nonneg hdividend hb.le, hdigit⟩, hrange⟩,
      by rw [List.length_cons, List.length_cons, hlength], hr0, hr, ?_⟩
    have hdm := Int.emod_add_mul_ediv (remainder * ScalarTwoTo256 + x) b
    unfold val at hval ⊢
    rw [List.reverse_cons, List.reverse_cons, value_append, value_append, List.length_reverse,
      List.length_reverse, hlength, List.length_cons, value_cons, value_cons, value_nil, pow_succ]
    linear_combination hval - ScalarTwoTo256 ^ a.length * hdm

theorem _MPdiv_short_spec (ha : InRange ScalarTwoTo256 a) (hb : 0 < b) :
    ∃ quotient, _MPdiv_short a b = some (quotient, val a % b) ∧ Number ScalarTwoTo256 quotient ∧
      val quotient = val a / b := by
  have harev : InRange ScalarTwoTo256 a.reverse := fun x hx => ha x (List.mem_reverse.mp hx)
  obtain ⟨hrange, hlength, hr0, hr, hval⟩ := shortLimbs_spec harev hb le_rfl hb
  rw [List.reverse_reverse, zero_mul, zero_add] at hval
  have hquotient : InRange ScalarTwoTo256 (shortLimbs b a.reverse 0).1.reverse :=
    fun x hx => hrange x (List.mem_reverse.mp hx)
  obtain ⟨hdiv, hmod⟩ := (Int.ediv_emod_unique (a := val a) (r := (shortLimbs b a.reverse 0).2)
    (q := val (shortLimbs b a.reverse 0).1.reverse) hb).mpr ⟨by linarith, hr0, hr⟩
  refine ⟨trim (shortLimbs b a.reverse 0).1.reverse, ?_, number_trim hquotient, ?_⟩
  · rw [_MPdiv_short, if_neg hb.ne', hmod]
  · rw [val_trim, hdiv]

end Division

end ZkevmProver.MP
