import ZkevmProver.Prover.Input

/-!
# Fields that are written and read

  1. Values in range.
  2. Reading what a line writes.
-/

namespace ZkevmProver.Input

open SortedFields

/-! ## Values in range -/

/-- A scalar of `n` hexadecimal digits. -/
def Fits (n : ℕ) (x : ℤ) : Prop := 0 ≤ x ∧ x < (16 ^ n : ℕ)

/-- Text that is empty or begins with `0x` -/
def IsPrefixed (s : Text) : Prop := s = [] ∨ Has0x s

theorem scalarJson_eq {n : ℕ} (hpos : 0 < n) (hn : n ≤ 64) {x : ℤ} (hx : Fits n x) :
    ∃ s, scalarJson n x = .ok (.string (48 :: 120 :: s)) ∧ IsNumber 16 s ∧ (digitsValue 16 s : ℤ) = x ∧
      s.length = n := by
  obtain ⟨s, hs, hnumber, hvalue, hlen⟩ := normalizeTo0xNFormat_getStr hx.1 hpos hn hx.2
  refine ⟨s, ?_, hnumber, hvalue, hlen⟩
  unfold scalarJson
  rw [hs]
  rfl

theorem getUi_of_lt {n : ℕ} (h : n < 2 ^ 64) : getUi n = n := Nat.mod_eq_of_lt h

/-! ## Reading what a line writes -/

/-- The JSON has what the line writes. -/
def Reads (input : Json) (l : JsonLine) : Prop := input.at? l.key = l.field

variable {input : Json} {key : String}

/-- Whether a string is read. -/
theorem string?_eq {written : Bool} {s : Text} (h : Reads input (line key written (.ok (.string s)))) :
    input.string? key = if written then some s else none := by
  have h : input.at? (ascii key) = if written then some (.string s) else none := h
  unfold Json.string?
  rw [h]
  cases written <;> rfl

theorem unsigned?_eq {written : Bool} {n : ℕ} (h : Reads input (line key written (.ok (.number_unsigned n)))) :
    input.unsigned? key = if written then some n else none := by
  have h : input.at? (ascii key) = if written then some (.number_unsigned n) else none := h
  unfold Json.unsigned?
  rw [h]
  cases written <;> rfl

theorem boolean?_eq {written : Bool} {b : Bool} (h : Reads input (line key written (.ok (.boolean b)))) :
    input.boolean? key = if written then some b else none := by
  have h : input.at? (ascii key) = if written then some (.boolean b) else none := h
  unfold Json.boolean?
  rw [h]
  cases written <;> rfl

/-- A number is no string. -/
theorem string?_of_unsigned {written : Bool} {n : ℕ}
    (h : Reads input (line key written (.ok (.number_unsigned n)))) : input.string? key = none := by
  have h : input.at? (ascii key) = if written then some (.number_unsigned n) else none := h
  unfold Json.string?
  rw [h]
  cases written <;> rfl

section Scalar

variable {n : ℕ} (hpos : 0 < n) (hn : n ≤ 64) {x : ℤ} (hx : Fits n x) (y : ℤ)

include hpos hn hx

theorem loadScalar_line {written : Bool} (h : Reads input (line key written (scalarJson n x))) :
    loadScalar input key y = if written then x else y := by
  obtain ⟨s, hs, hnumber, hvalue, -⟩ := scalarJson_eq hpos hn hx
  rw [hs] at h
  unfold loadScalar
  rw [string?_eq h]
  cases written with
  | false => rfl
  | true =>
    show setStr 16 s y = x
    rw [setStr_eq (Nat.le_refl 16) hnumber, hvalue]

theorem loadScalar_scalarLine (h : Reads input (scalarLine key n x)) :
    loadScalar input key y = if x = 0 then y else x := by
  rw [loadScalar_line hpos hn hx y h]
  by_cases hzero : x = 0
  · rw [if_pos hzero, if_neg (by rw [decide_eq_true_iff]; exact not_not.mpr hzero)]
  · rw [if_neg hzero, if_pos (decide_eq_true hzero)]

theorem loadScalar_zero (h : Reads input (scalarLine key n x)) : loadScalar input key 0 = x := by
  rw [loadScalar_scalarLine hpos hn hx 0 h]
  split
  · next hzero => exact hzero.symm
  · rfl

theorem requireScalar_line {written : Bool} (hwritten : written = true)
    (h : Reads input (line key written (scalarJson n x))) : requireScalar input key y = .ok x := by
  subst hwritten
  obtain ⟨s, hs, hnumber, hvalue, -⟩ := scalarJson_eq hpos hn hx
  rw [hs] at h
  unfold requireScalar
  rw [string?_eq h]
  show Except.ok (setStr 16 s y) = _
  rw [setStr_eq (Nat.le_refl 16) hnumber, hvalue]

end Scalar

theorem loadUnsigned_line {w n : ℕ} (hn : n < 2 ^ w) {written : Bool}
    (h : Reads input (line key written (.ok (.number_unsigned n)))) (m : ℕ) :
    loadUnsigned input key w m = if written then n else m := by
  unfold loadUnsigned
  rw [unsigned?_eq h]
  cases written with
  | false => rfl
  | true => exact Nat.mod_eq_of_lt hn

theorem loadUnsigned_unsignedLine {w n : ℕ} (hn : n < 2 ^ w) (h : Reads input (unsignedLine key n)) :
    loadUnsigned input key w 0 = n := by
  rw [loadUnsigned_line hn h]
  by_cases hzero : n = 0
  · rw [if_neg (by rw [decide_eq_true_iff]; exact not_not.mpr hzero), hzero]
  · rw [if_pos (decide_eq_true hzero)]

theorem requireUnsigned_line {n : ℕ} (hn : n < 2 ^ 64) {written : Bool} (hwritten : written = true)
    (h : Reads input (line key written (.ok (.number_unsigned n)))) : requireUnsigned input key = .ok n := by
  subst hwritten
  unfold requireUnsigned
  rw [unsigned?_eq h]
  exact congrArg _ (Nat.mod_eq_of_lt hn)

theorem loadBoolean_line {written b : Bool} (h : Reads input (line key written (.ok (.boolean b)))) (b' : Bool) :
    loadBoolean input key b' = if written then b else b' := by
  unfold loadBoolean
  rw [boolean?_eq h]
  cases written <;> rfl

theorem loadBoolean_flagLine {b : Bool} (h : Reads input (flagLine key b)) : loadBoolean input key false = b := by
  rw [loadBoolean_line h]
  cases b <;> rfl

theorem loadText_line {written : Bool} {s : Text} (h : Reads input (line key written (.ok (.string s)))) :
    loadText input key [] = if written then add0xIfMissing s else [] := by
  unfold loadText
  rw [string?_eq h]
  cases written <;> rfl

theorem loadBa_baLine {ba : List UInt8} (h : Reads input (baLine key ba)) : loadBa input key [] = .ok ba := by
  unfold loadBa
  rw [string?_eq h]
  cases ba with
  | nil => rfl
  | cons b ba =>
    show string2ba (add0xIfMissing (ba2string (b :: ba))) = _
    rw [add0xIfMissing_ba2string]
    exact string2ba_ba2string (b :: ba)

theorem loadTimestampLimit_line {n : ℕ} (hn : n < 2 ^ 64) {written : Bool} (hwritten : written = true)
    (h : Reads input (line "timestampLimit" written (.ok (.number_unsigned n)))) :
    loadTimestampLimit input = .ok n := by
  subst hwritten
  have h : input.at? (ascii "timestampLimit") = some (.number_unsigned n) := h
  unfold loadTimestampLimit
  rw [h]
  exact congrArg _ (Nat.mod_eq_of_lt hn)

/-- The gas limit is written as a number and read as a string. -/
theorem loadGasLimit_line {n : ℕ} {written : Bool}
    (h : Reads input (line "gasLimit" written (.ok (.number_unsigned n)))) : loadGasLimit input 0 = .ok 0 := by
  unfold loadGasLimit
  rw [string?_of_unsigned h]
  rfl

theorem forForks_eq {α : Type} {forks : Bool} {action : Except Stop α} {value otherwise : α}
    (h : forks = true → action = .ok value) :
    forForks forks action otherwise = .ok (if forks then value else otherwise) := by
  cases forks with
  | true => exact h rfl
  | false => rfl

end ZkevmProver.Input
