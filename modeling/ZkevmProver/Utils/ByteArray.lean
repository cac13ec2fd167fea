import Mathlib.Tactic.Ring
import ZkevmProver.Lib.BigEndian

/-!
# Byte arrays

Byte arrays are strings.  Positions in them are of type `uint64_t`, and numbers are written in them with
the most significant byte first.
-/

namespace ZkevmProver

open BigEndian

/-! ## Positions -/

/-- Addition of `uint64_t`. -/
def add64 (a b : ℕ) : ℕ := (a + b) % 2 ^ 64

/-- Subtraction of `uint64_t`. -/
def sub64 (a b : ℕ) : ℕ := (a + 2 ^ 64 - b % 2 ^ 64) % 2 ^ 64

theorem add64_of_lt {a b : ℕ} (h : a + b < 2 ^ 64) : add64 a b = a + b := Nat.mod_eq_of_lt h

theorem sub64_of_le {a b : ℕ} (ha : a < 2 ^ 64) (h : b ≤ a) : sub64 a b = a - b := by
  rw [sub64]
  omega

/-- `s[p]`, which is the terminator where `p` is the size. -/
def charAt (s : List UInt8) (p : ℕ) : UInt8 := s.getD p 0

@[simp] theorem charAt_append (before rest : List UInt8) (b : UInt8) :
    charAt (before ++ b :: rest) before.length = b := by
  simp [charAt]

/-! ## Scalars -/

def ScalarMask64 : ℕ := 2 ^ 64 - 1

def ScalarMask256 : ℕ := 2 ^ 256 - 1

def ba2scalar (ba : List UInt8) : ℕ := value ba

/-- The loop of `scalar2ba32`, with what it has written so far. -/
def scalar2ba32Loop : ℕ → ℕ → List UInt8 → Option (List UInt8)
  | 0, s, result => if s ≠ 0 then none else some result
  | count + 1, s, result =>
    let result := s.toUInt8 :: result
    let s := s >>> 8
    if s = 0 then some (List.replicate count 0 ++ result) else scalar2ba32Loop count s result

/-- It ends the process for scalars of more than 32 bytes. -/
def scalar2ba32 (s : ℕ) : Option (List UInt8) := scalar2ba32Loop 32 s []

theorem scalar2ba32Loop_eq (count s : ℕ) (result : List UInt8) (h : s < 256 ^ count) :
    scalar2ba32Loop count s result = some (bytes count s ++ result) := by
  induction count generalizing s result with
  | zero =>
    obtain rfl : s = 0 := by simpa using h
    rfl
  | succ count ih =>
    have hdiv : s >>> 8 = s / 256 := Nat.shiftRight_eq_div_pow s 8
    rw [scalar2ba32Loop, hdiv, bytes_succ, List.append_assoc, List.singleton_append]
    by_cases hzero : s / 256 = 0
    · rw [if_pos hzero, hzero, bytes_of_zero]
    · rw [if_neg hzero]
      refine ih _ _ ?_
      rw [Nat.pow_succ] at h
      exact Nat.div_lt_of_lt_mul (by omega)

theorem scalar2ba32_eq {s : ℕ} (h : s ≤ ScalarMask256) : scalar2ba32 s = some (bytes 32 s) := by
  have hlt : s < 256 ^ 32 := by
    rw [ScalarMask256] at h
    omega
  rw [scalar2ba32, scalar2ba32Loop_eq 32 s [] hlt, List.append_nil]

/-! ## Hexadecimal text -/

/-- A hexadecimal digit. -/
def byte2char (b : UInt8) : UInt8 := if b < 10 then 48 + b else 97 + b - 10

def ba2string (ba : List UInt8) : List UInt8 :=
  ba.flatMap fun b : UInt8 => [byte2char (b >>> 4), byte2char (b &&& 0x0F)]

def char2byte (c : UInt8) : Option UInt8 :=
  if 48 ≤ c ∧ c ≤ 57 then some (c - 48)
  else if 65 ≤ c ∧ c ≤ 70 then some (c - 65 + 10)
  else if 97 ≤ c ∧ c ≤ 102 then some (c - 97 + 10)
  else none

/-- The bytes of a text with an even number of hexadecimal digits; `none` when the process exits. -/
def hexBytes : List UInt8 → Option (List UInt8)
  | [] => some []
  | [_] => none
  | c :: d :: text => do
    let high ← char2byte c
    let low ← char2byte d
    let bytes ← hexBytes text
    return (16 * high + low) :: bytes

/-- A hexadecimal digit as `set_str` reads it. -/
def charValue (c : UInt8) : ℕ := if c < 97 then (c - 48).toNat else (c - 97).toNat + 10

/-- `set_str` of a text of hexadecimal digits in lower case. -/
def setStr16 (text : List UInt8) : ℕ := text.foldl (fun n c => n * 16 + charValue c) 0

/-- The two digits of a byte. -/
theorem charValue_byte2char (b : UInt8) :
    charValue (byte2char (b >>> 4)) * 16 + charValue (byte2char (b &&& 0x0F)) = b.toNat := by
  have hall : ∀ n : Fin 256, let b := UInt8.ofFin n
      charValue (byte2char (b >>> 4)) * 16 + charValue (byte2char (b &&& 0x0F)) = b.toNat := by
    decide +kernel
  exact hall b.toFin

theorem setStr16_ba2string (ba : List UInt8) : setStr16 (ba2string ba) = value ba := by
  rw [setStr16, ba2string, value, List.foldl_flatMap]
  congr 1
  funext n b
  rw [List.foldl_cons, List.foldl_cons, List.foldl_nil, ← charValue_byte2char b]
  ring

end ZkevmProver
