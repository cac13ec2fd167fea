import Mathlib.Data.FinEnum
import Mathlib.Data.List.TakeWhile
import Mathlib.Data.Nat.Digits.Lemmas
import ZkevmProver.Utils.ByteArray

/-!
# Numbers as text

  1. Text.
  2. Prefixes and leading zeros.
  3. Numbers.
  4. Byte arrays.
-/

set_option maxRecDepth 4000

namespace ZkevmProver

/-! ## Text -/

/-- `std::string` -/
abbrev Text := List UInt8

/-- A literal. -/
def ascii (s : String) : Text := s.toList.map fun c => c.toNat.toUInt8

/-- How a function ends that does not return. -/
inductive Stop
  | exitProcess (message : String)
  | exception
  deriving DecidableEq

def exitProcess {α : Type} (message : String) : Except Stop α := throw (.exitProcess message)

/-- Text in a message. -/
def messageText (s : Text) : String := String.ofList (s.map fun c => Char.ofNat c.toNat)

/-! ## Prefixes and leading zeros -/

def remove0xIfPresent : Text → Text
  | 48 :: 120 :: s => s
  | s => s

def add0xIfMissing : Text → Text
  | 48 :: 120 :: s => 48 :: 120 :: s
  | s => 48 :: 120 :: s

def prependZeros (s : Text) (n : ℕ) : Except Stop Text :=
  if n > 64 then exitProcess ("PrependZeros() called with an that is too big n=" ++ toString n)
  else if s.length > n ∨ s.length > 64 then
    exitProcess ("PrependZeros() called with a string with too large s.size=" ++ toString s.length ++ " n=" ++
      toString n)
  else return List.replicate (n - s.length) 48 ++ s

def normalizeToNFormat (s : Text) (n : ℕ) : Except Stop Text := prependZeros (remove0xIfPresent s) n

def normalizeTo0xNFormat (s : Text) (n : ℕ) : Except Stop Text := do
  return 48 :: 120 :: (← normalizeToNFormat s n)

/-- A text that begins with `0x` -/
def Has0x (s : Text) : Prop := ∃ s', s = 48 :: 120 :: s'

instance (s : Text) : Decidable (Has0x s) :=
  match s with
  | 48 :: 120 :: s' => .isTrue ⟨s', rfl⟩
  | [] => .isFalse nofun
  | [_] => .isFalse nofun
  | c :: d :: s' =>
    if h : c = 48 ∧ d = 120 then .isTrue ⟨s', by rw [h.1, h.2]⟩
    else .isFalse fun ⟨_, heq⟩ => h (by injection heq with h1 h2; injection h2 with h2; exact ⟨h1, h2⟩)

theorem remove0xIfPresent_of_not {s : Text} (h : ¬Has0x s) : remove0xIfPresent s = s := by
  unfold remove0xIfPresent
  split
  · exact absurd ⟨_, rfl⟩ h
  · rfl

theorem add0xIfMissing_of_has0x {s : Text} (h : Has0x s) : add0xIfMissing s = s := by
  obtain ⟨s', rfl⟩ := h
  rfl

theorem add0xIfMissing_of_not {s : Text} (h : ¬Has0x s) : add0xIfMissing s = 48 :: 120 :: s := by
  unfold add0xIfMissing
  split
  · exact absurd ⟨_, rfl⟩ h
  · rfl

theorem not_has0x {s : Text} (h : ∀ c ∈ s, c ≠ 120) : ¬Has0x s := by
  rintro ⟨s', rfl⟩
  exact h 120 (List.mem_cons_of_mem _ List.mem_cons_self) rfl

theorem prependZeros_eq {s : Text} {n : ℕ} (hn : n ≤ 64) (hs : s.length ≤ n) :
    prependZeros s n = pure (List.replicate (n - s.length) 48 ++ s) := by
  unfold prependZeros
  rw [if_neg (Nat.not_lt.mpr hn), if_neg (by omega)]

/-! ## Numbers -/

def charIsHex (c : UInt8) : Bool := (48 ≤ c && c ≤ 57) || (97 ≤ c && c ≤ 102) || (65 ≤ c && c ≤ 70)

def charIsDec (c : UInt8) : Bool := 48 ≤ c && c ≤ 57

def stringIsHex (s : Text) : Bool := s.all charIsHex

def stringIsDec (s : Text) : Bool := s.all charIsDec

/-- The value of a digit. -/
def digitValue (c : UInt8) : ℕ :=
  if 48 ≤ c ∧ c ≤ 57 then c.toNat - 48
  else if 65 ≤ c ∧ c ≤ 90 then c.toNat - 55
  else if 97 ≤ c ∧ c ≤ 122 then c.toNat - 87
  else 255

/-- The number that a text of digits stands for. -/
def digitsValue (base : ℕ) (s : Text) : ℕ := s.foldl (fun n c => n * base + digitValue c) 0

/-- `mpz_class::get_str` -/
def getStr (base : ℕ) (x : ℤ) : Text :=
  let digits := if x = 0 then [48] else (base.digits x.natAbs).reverse.map fun d => byte2char d.toUInt8
  if x < 0 then 45 :: digits else digits

def isSpace (c : UInt8) : Bool := c = 32 || (9 ≤ c && c ≤ 13)

/-- `mpz_class::set_str`, which ignores white space, and does nothing when the text is no number. -/
def setStr (base : ℕ) (s : Text) (x : ℤ) : ℤ :=
  let s := (s.takeWhile fun c => c ≠ 0).filter fun c => !isSpace c
  let digits := if s.head? = some 45 then s.tail else s
  if digits ≠ [] ∧ ∀ c ∈ digits, digitValue c < base then
    if s.head? = some 45 then -(digitsValue base digits : ℤ) else digitsValue base digits
  else x

/-- `mpz_class::get_ui` -/
def getUi (x : ℤ) : ℕ := x.natAbs % 2 ^ 64

/-- `atoi` of a text of digits, which is `strtol` with its result made an `int`. -/
def atoi (s : Text) : ℤ := Int.bmod (min (digitsValue 10 s) (2 ^ 63 - 1) : ℕ) (2 ^ 32)

/-- The `int` made a `uint64_t`. -/
@[irreducible] def atoiU64 (s : Text) : ℕ := (atoi s % 2 ^ 64).toNat

/-- Text of digits of a base. -/
def IsNumber (base : ℕ) (s : Text) : Prop := s ≠ [] ∧ ∀ c ∈ s, digitValue c < base

theorem forall_uint8 {p : UInt8 → Prop} (h : ∀ n : Fin 256, p (UInt8.ofFin n)) (c : UInt8) : p c := h c.toFin

theorem charIsHex_iff (c : UInt8) : charIsHex c = true ↔ digitValue c < 16 :=
  forall_uint8 (p := fun c => charIsHex c = true ↔ digitValue c < 16) (by decide) c

theorem charIsDec_iff (c : UInt8) : charIsDec c = true ↔ digitValue c < 10 :=
  forall_uint8 (p := fun c => charIsDec c = true ↔ digitValue c < 10) (by decide) c

/-- The characters that are no digits. -/
theorem ne_of_digitValue_lt {c : UInt8} (h : digitValue c < 16) :
    c ≠ 0 ∧ c ≠ 45 ∧ c ≠ 120 ∧ isSpace c = false :=
  forall_uint8 (p := fun c => digitValue c < 16 → c ≠ 0 ∧ c ≠ 45 ∧ c ≠ 120 ∧ isSpace c = false)
    (by decide) c h

theorem digitValue_byte2char {d : ℕ} (h : d < 16) : digitValue (byte2char d.toUInt8) = d := by
  have hall : ∀ d : Fin 16, digitValue (byte2char d.val.toUInt8) = d.val := by decide
  exact hall ⟨d, h⟩

section Base

theorem setStr_eq {base : ℕ} (hbase16 : base ≤ 16) {s : Text} (h : IsNumber base s) (x : ℤ) : setStr base s x = digitsValue base s := by
  have hdigit : ∀ c ∈ s, c ≠ 0 ∧ c ≠ 45 ∧ c ≠ 120 ∧ isSpace c = false :=
    fun c hc => ne_of_digitValue_lt (Nat.lt_of_lt_of_le (h.2 c hc) hbase16)
  have htake : s.takeWhile (fun c => c ≠ 0) = s :=
    List.takeWhile_eq_self_iff.mpr fun c hc => decide_eq_true (hdigit c hc).1
  have hfilter : s.filter (fun c => !isSpace c) = s :=
    List.filter_eq_self.mpr fun c hc => by rw [(hdigit c hc).2.2.2]; rfl
  have hhead : s.head? ≠ some 45 := fun h' => (hdigit 45 (List.mem_of_mem_head? h')).2.1 rfl
  unfold setStr
  rw [htake, hfilter]
  dsimp only
  rw [if_neg hhead, if_neg hhead]
  exact if_pos h

variable (base : ℕ) (hbase : 1 < base) (hbase16 : base ≤ 16)

include hbase hbase16

theorem isNumber_getStr {x : ℤ} (hx : 0 ≤ x) : IsNumber base (getStr base x) := by
  unfold getStr
  dsimp only
  rw [if_neg (Int.not_lt.mpr hx)]
  split
  · refine ⟨List.cons_ne_nil _ _, fun c hc => ?_⟩
    rw [List.mem_singleton.mp hc]
    exact Nat.zero_lt_of_lt hbase
  · next hne =>
    refine ⟨fun h => ?_, fun c hc => ?_⟩
    · rw [List.map_eq_nil_iff, List.reverse_eq_nil_iff, Nat.digits_eq_nil_iff_eq_zero] at h
      omega
    · obtain ⟨d, hd, rfl⟩ := List.mem_map.mp hc
      have hlt := Nat.digits_lt_base hbase (List.mem_reverse.mp hd)
      rw [digitValue_byte2char (by omega)]
      exact hlt

theorem digitsValue_getStr {x : ℤ} (hx : 0 ≤ x) : (digitsValue base (getStr base x) : ℤ) = x := by
  unfold getStr
  dsimp only
  rw [if_neg (Int.not_lt.mpr hx)]
  split
  · next hzero =>
    rw [hzero]
    show ((0 * base + digitValue 48 : ℕ) : ℤ) = 0
    rw [Nat.zero_mul]
    decide
  · have hdigits : ∀ ds : List ℕ, (∀ d ∈ ds, d < base) →
        digitsValue base (ds.reverse.map fun d => byte2char d.toUInt8) = Nat.ofDigits base ds := by
      intro ds hds
      unfold digitsValue
      rw [List.foldl_map, List.foldl_reverse, Nat.ofDigits_eq_foldr]
      induction ds with
      | nil => rfl
      | cons d ds ih =>
        rw [List.foldr_cons, List.foldr_cons, ih fun d' hd' => hds d' (List.mem_cons_of_mem d hd'),
          digitValue_byte2char (by have h := hds d List.mem_cons_self; omega), Nat.mul_comm, Nat.add_comm]
        rfl
    rw [hdigits _ fun d hd => Nat.digits_lt_base hbase hd, Nat.ofDigits_digits]
    omega

omit hbase16 in
theorem length_getStr {x : ℤ} (hx : 0 ≤ x) {k : ℕ} (hk : 0 < k) (hlt : x < (base ^ k : ℕ)) :
    (getStr base x).length ≤ k := by
  unfold getStr
  dsimp only
  rw [if_neg (Int.not_lt.mpr hx)]
  split
  · exact hk
  · rw [List.length_map, List.length_reverse, Nat.digits_length_le_iff hbase]
    omega

end Base

theorem getStr_injective {base : ℕ} (hbase : 1 < base) (hbase16 : base ≤ 16) {n m : ℕ}
    (h : getStr base n = getStr base m) : n = m := by
  have hn := digitsValue_getStr base hbase hbase16 (Int.natCast_nonneg n)
  have hm := digitsValue_getStr base hbase hbase16 (Int.natCast_nonneg m)
  rw [h, hm] at hn
  exact (Int.natCast_inj.mp hn).symm

/-- Zeros in front of a number do not change it. -/
theorem digitsValue_zeros (base n : ℕ) (s : Text) :
    digitsValue base (List.replicate n 48 ++ s) = digitsValue base s := by
  induction n with
  | zero => rfl
  | succ n ih =>
    rw [List.replicate_succ, List.cons_append, ← ih]
    unfold digitsValue
    rw [List.foldl_cons, Nat.zero_mul]
    rfl

theorem IsNumber.zeros {base : ℕ} (hbase : 0 < base) {s : Text} (h : IsNumber base s) (n : ℕ) :
    IsNumber base (List.replicate n 48 ++ s) := by
  refine ⟨List.append_ne_nil_of_right_ne_nil _ h.1, fun c hc => ?_⟩
  rcases List.mem_append.mp hc with hc | hc
  · rw [List.eq_of_mem_replicate hc]
    exact hbase
  · exact h.2 c hc

theorem IsNumber.not_has0x {s : Text} (h : IsNumber 16 s) : ¬Has0x s :=
  ZkevmProver.not_has0x fun c hc => (ne_of_digitValue_lt (h.2 c hc)).2.2.1

theorem IsNumber.stringIsHex {s : Text} (h : IsNumber 16 s) : stringIsHex s = true :=
  List.all_eq_true.mpr fun c hc => (charIsHex_iff c).mpr (h.2 c hc)

theorem IsNumber.stringIsDec {s : Text} (h : IsNumber 10 s) : stringIsDec s = true :=
  List.all_eq_true.mpr fun c hc => (charIsDec_iff c).mpr (h.2 c hc)

/-- A scalar with a fixed number of digits. -/
theorem normalizeTo0xNFormat_getStr {x : ℤ} (hx : 0 ≤ x) {n : ℕ} (hpos : 0 < n) (hn : n ≤ 64)
    (hlt : x < (16 ^ n : ℕ)) : ∃ s, normalizeTo0xNFormat (getStr 16 x) n = pure (48 :: 120 :: s) ∧
      IsNumber 16 s ∧ (digitsValue 16 s : ℤ) = x ∧ s.length = n := by
  have hnumber := isNumber_getStr 16 (by decide) (by decide) hx
  have hlen := length_getStr 16 (by decide) hx hpos hlt
  refine ⟨List.replicate (n - (getStr 16 x).length) 48 ++ getStr 16 x, ?_, hnumber.zeros (by decide) _, ?_, ?_⟩
  · unfold normalizeTo0xNFormat normalizeToNFormat
    rw [remove0xIfPresent_of_not hnumber.not_has0x, prependZeros_eq hn hlen]
    rfl
  · rw [digitsValue_zeros, digitsValue_getStr 16 (by decide) (by decide) hx]
  · rw [List.length_append, List.length_replicate]
    omega

/-! ## Byte arrays -/

/-- `string2ba` -/
def string2ba (text : Text) : Except Stop (List UInt8) :=
  let s := remove0xIfPresent text
  match hexBytes (if s.length % 2 ≠ 0 then 48 :: s else s) with
  | some bytes => return bytes
  | none => exitProcess ("char2byte() called with an invalid, non-hex char: " ++
      toString ((s.find? fun c => !charIsHex c).elim 0 fun c => c.toInt8.toInt))

theorem char2byte_byte2char (b : UInt8) : char2byte (byte2char (b >>> 4)) = some (b >>> 4) ∧
    char2byte (byte2char (b &&& 0x0F)) = some (b &&& 0x0F) ∧
    (16 : UInt8) * (b >>> 4) + (b &&& 0x0F) = b :=
  forall_uint8 (p := fun b => char2byte (byte2char (b >>> 4)) = some (b >>> 4) ∧
    char2byte (byte2char (b &&& 0x0F)) = some (b &&& 0x0F) ∧
    (16 : UInt8) * (b >>> 4) + (b &&& 0x0F) = b) (by decide) b

theorem byte2char_ne (b : UInt8) : byte2char (b >>> 4) ≠ 120 ∧ byte2char (b &&& 0x0F) ≠ 120 :=
  forall_uint8 (p := fun b => byte2char (b >>> 4) ≠ 120 ∧ byte2char (b &&& 0x0F) ≠ 120) (by decide) b

theorem hexBytes_ba2string (ba : List UInt8) : hexBytes (ba2string ba) = some ba := by
  induction ba with
  | nil => rfl
  | cons b ba ih =>
    obtain ⟨hhigh, hlow, hb⟩ := char2byte_byte2char b
    show hexBytes (byte2char (b >>> 4) :: byte2char (b &&& 0x0F) :: ba2string ba) = _
    unfold hexBytes
    rw [hhigh, hlow, ih]
    exact congrArg (fun b => some (b :: ba)) hb

theorem length_ba2string (ba : List UInt8) : (ba2string ba).length = 2 * ba.length := by
  induction ba with
  | nil => rfl
  | cons b ba ih =>
    show (ba2string ba).length + 1 + 1 = _
    rw [ih, List.length_cons]
    omega

/-- What is written of a byte array is read back. -/
theorem string2ba_ba2string (ba : List UInt8) : string2ba (48 :: 120 :: ba2string ba) = pure ba := by
  have hremove : remove0xIfPresent (48 :: 120 :: ba2string ba) = ba2string ba := rfl
  unfold string2ba
  rw [hremove]
  dsimp only
  rw [length_ba2string, if_neg (by omega), hexBytes_ba2string]

theorem add0xIfMissing_ba2string (ba : List UInt8) : add0xIfMissing (ba2string ba) = 48 :: 120 :: ba2string ba := by
  refine add0xIfMissing_of_not (not_has0x fun c hc => ?_)
  obtain ⟨b, -, hc⟩ := List.mem_flatMap.mp hc
  rcases List.mem_cons.mp hc with rfl | hc
  · exact (byte2char_ne b).1
  · rw [List.mem_singleton.mp hc]
    exact (byte2char_ne b).2

/-! ## Indices -/

theorem atoiU64_getStr {n : ℕ} (h : n < 2 ^ 31) : atoiU64 (getStr 10 n) = n := by
  have hvalue := digitsValue_getStr 10 (by decide) (by decide) (Int.natCast_nonneg n)
  have hdigits : digitsValue 10 (getStr 10 n) = n := by omega
  have hatoi : atoi (getStr 10 n) = n := by
    unfold atoi
    rw [hdigits, Nat.min_eq_left (by omega)]
    exact Int.bmod_eq_of_le (by omega) (by omega)
  unfold atoiU64
  rw [hatoi]
  omega

theorem atoiU64_range (s : Text) : atoiU64 s < 2 ^ 31 ∨ 2 ^ 32 ≤ atoiU64 s := by
  have hle := Int.le_bmod (x := (min (digitsValue 10 s) (2 ^ 63 - 1) : ℕ)) (m := 2 ^ 32) (by decide)
  have hlt := Int.bmod_lt (x := (min (digitsValue 10 s) (2 ^ 63 - 1) : ℕ)) (m := 2 ^ 32) (by decide)
  have hatoi : atoi s = Int.bmod (min (digitsValue 10 s) (2 ^ 63 - 1) : ℕ) (2 ^ 32) := rfl
  rw [← hatoi] at hle hlt
  unfold atoiU64
  omega

end ZkevmProver
