import ZkevmProver.Lib.RadixPages
import Mathlib.Data.List.GetD
import Mathlib.Data.Nat.Bitwise

/-!
# The digits of versions and of byte strings

A version of 64 bits is looked up by sets of 6 bits, and a byte string by sets of 9 bits.

  1. `splitKey6` of a version.
  2. `splitKey9`.
-/

namespace ZkevmProver

open RadixPages

/-! ## `splitKey6` of a version -/

/-- The loop that fills the sets of 6 bits from the last one on. -/
def splitKey6U64Loop : ℕ → ℕ → List ℕ → List ℕ
  | 0, _, result => result
  | i + 1, bits, result => splitKey6U64Loop i (bits >>> 6) ((bits &&& 0x3F) :: result)

/-- `splitKey6` of 64 bits: ten sets of 6 bits, and the last 4 bits. -/
def splitKey6U64 (key : UInt64) : List ℕ :=
  splitKey6U64Loop 10 (key.toNat >>> 4) [key.toNat &&& 0x0F]

theorem length_splitKey6U64Loop (n bits : ℕ) (result : List ℕ) :
    (splitKey6U64Loop n bits result).length = n + result.length := by
  induction n generalizing bits result with
  | zero => exact (Nat.zero_add _).symm
  | succ n ih =>
    unfold splitKey6U64Loop
    rw [ih, List.length_cons]
    omega

theorem splitKey6U64Loop_inj {n bits bits' : ℕ} {result result' : List ℕ}
    (h : splitKey6U64Loop n bits result = splitKey6U64Loop n bits' result') :
    bits % 64 ^ n = bits' % 64 ^ n ∧ result = result' := by
  induction n generalizing bits bits' result result' with
  | zero => exact ⟨by rw [pow_zero, Nat.mod_one, Nat.mod_one], h⟩
  | succ n ih =>
    unfold splitKey6U64Loop at h
    obtain ⟨hhigh, hresult⟩ := ih h
    obtain ⟨hlow, hresult⟩ := List.cons_eq_cons.mp hresult
    have hand (m : ℕ) : m &&& 0x3F = m % 64 := Nat.and_two_pow_sub_one_eq_mod m 6
    have hshift (m : ℕ) : m >>> 6 = m / 64 := Nat.shiftRight_eq_div_pow m 6
    rw [hand, hand] at hlow
    rw [hshift, hshift] at hhigh
    refine ⟨?_, hresult⟩
    rw [pow_succ', Nat.mod_mul, Nat.mod_mul, hlow, hhigh]

theorem splitKey6U64_injective : Function.Injective splitKey6U64 := by
  intro key key' h
  obtain ⟨hhigh, hlow⟩ := splitKey6U64Loop_inj h
  have hlow := (List.cons_eq_cons.mp hlow).1
  have hand (m : ℕ) : m &&& 0x0F = m % 16 := Nat.and_two_pow_sub_one_eq_mod m 4
  have hshift (m : ℕ) : m >>> 4 = m / 16 := Nat.shiftRight_eq_div_pow m 4
  rw [hand, hand] at hlow
  rw [hshift, hshift] at hhigh
  have hlt := key.toNat_lt
  have hlt' := key'.toNat_lt
  apply UInt64.toNat.inj
  omega

/-- Versions by their sets of 6 bits. -/
def versionRadix : Radix UInt64 where
  digits := splitKey6U64
  length := 11
  length_digits _ := length_splitKey6U64Loop _ _ _
  injective := splitKey6U64_injective

/-! ## `splitKey9` -/

/-- The 9 bits from a place on, which are in two bytes. -/
def splitKey9Part (baString : List UInt8) (i : ℕ) : ℕ :=
  let firstByte := i >>> 3
  let firstByteBit := i &&& 7
  let resultPart := ((baString.getD firstByte 0).toNat <<< firstByteBit % 256) <<< 1
  if firstByte + 1 < baString.length then
    resultPart ||| (baString.getD (firstByte + 1) 0).toNat >>> (7 - firstByteBit)
  else resultPart

/-- The parts at the multiples of 9 below the number of bits. -/
def splitKey9 (baString : List UInt8) : List ℕ :=
  let numberOfBits := baString.length <<< 3
  (List.range ((numberOfBits + 8) / 9)).map fun j => splitKey9Part baString (9 * j)

/-- A bit of a byte string, the first of a byte the highest. -/
def baBit (ba : List UInt8) (i : ℕ) : Bool := (ba.getD (i / 8) 0).toNat.testBit (7 - i % 8)

theorem testBit_splitKey9Part (ba : List UInt8) (j : ℕ) {t : ℕ} (ht : t < 9)
    (hlt : 9 * j + t < 8 * ba.length) : (splitKey9Part ba (9 * j)).testBit (8 - t) = baBit ba (9 * j + t) := by
  have hand : 9 * j &&& 7 = 9 * j % 8 := Nat.and_two_pow_sub_one_eq_mod _ 3
  have hshift : (9 * j) >>> 3 = 9 * j / 8 := Nat.shiftRight_eq_div_pow _ 3
  unfold splitKey9Part baBit
  dsimp only
  rw [hand, hshift]
  generalize hf : 9 * j / 8 = f
  generalize hb : 9 * j % 8 = b
  have hbyte (n : ℕ) {k : ℕ} (hk : 8 ≤ k) : (ba.getD n 0).toNat.testBit k = false :=
    Nat.testBit_lt_two_pow (lt_of_lt_of_le (ba.getD n 0).toNat_lt (Nat.pow_le_pow_right (by decide) hk))
  have hfirst : (((ba.getD f 0).toNat <<< b % 256) <<< 1).testBit (8 - t) =
      (decide (b + t ≤ 7) && (ba.getD f 0).toNat.testBit (7 - (b + t))) := by
    rw [Nat.testBit_shiftLeft, show (256 : ℕ) = 2 ^ 8 from rfl, Nat.testBit_mod_two_pow,
      Nat.testBit_shiftLeft]
    by_cases hle : b + t ≤ 7
    · have h1 : 8 - t ≥ 1 := by omega
      have h2 : 8 - t - 1 < 8 := by omega
      have h3 : 8 - t - 1 ≥ b := by omega
      have h4 : 8 - t - 1 - b = 7 - (b + t) := by omega
      simp [hle, h1, h2, h3, h4]
    · by_cases h1 : 8 - t ≥ 1
      · have h3 : ¬8 - t - 1 ≥ b := by omega
        simp [hle, h3]
      · simp [hle, h1]
  have hsecond : ((ba.getD (f + 1) 0).toNat >>> (7 - b)).testBit (8 - t) =
      (decide (8 ≤ b + t) && (ba.getD (f + 1) 0).toNat.testBit (15 - (b + t))) := by
    rw [Nat.testBit_shiftRight]
    by_cases hle : 8 ≤ b + t
    · have h : 7 - b + (8 - t) = 15 - (b + t) := by omega
      simp [hle, h]
    · rw [hbyte _ (by omega)]
      simp [hle]
  by_cases hle : b + t ≤ 7
  · have hdiv : (9 * j + t) / 8 = f := by omega
    have hmod : (9 * j + t) % 8 = b + t := by omega
    rw [hdiv, hmod]
    split
    · rw [Nat.testBit_or, hfirst, hsecond]
      simp [hle, show ¬8 ≤ b + t by omega]
    · rw [hfirst]
      simp [hle]
  · have hdiv : (9 * j + t) / 8 = f + 1 := by omega
    have hmod : (9 * j + t) % 8 = b + t - 8 := by omega
    have hsub : 7 - (b + t - 8) = 15 - (b + t) := by omega
    rw [hdiv, hmod, hsub, if_pos (by omega), Nat.testBit_or, hfirst, hsecond]
    simp [hle, show 8 ≤ b + t by omega]

theorem length_splitKey9 (ba : List UInt8) : (splitKey9 ba).length = (ba.length * 8 + 8) / 9 := by
  unfold splitKey9
  rw [List.length_map, List.length_range, Nat.shiftLeft_eq]

theorem splitKey9_inj {ba ba' : List UInt8} (hlength : ba.length = ba'.length)
    (h : splitKey9 ba = splitKey9 ba') : ba = ba' := by
  have hbits : ∀ i < 8 * ba.length, baBit ba i = baBit ba' i := by
    intro i hi
    unfold splitKey9 at h
    dsimp only at h
    rw [← hlength] at h
    have hpart : splitKey9Part ba (9 * (i / 9)) = splitKey9Part ba' (9 * (i / 9)) := by
      refine List.map_inj_left.mp h (i / 9) (List.mem_range.mpr ?_)
      rw [Nat.shiftLeft_eq]
      omega
    have hi' : 9 * (i / 9) + i % 9 = i := Nat.div_add_mod i 9
    have hmod : i % 9 < 9 := Nat.mod_lt _ (by decide)
    rw [← hi', ← testBit_splitKey9Part ba _ hmod (by rw [hi']; exact hi),
      ← testBit_splitKey9Part ba' _ hmod (by rw [hi', ← hlength]; exact hi), hpart]
  refine List.ext_getElem hlength fun n hn hn' => ?_
  apply UInt8.toNat.inj
  apply Nat.eq_of_testBit_eq
  intro e
  by_cases he : e < 8
  · have hbit := hbits (8 * n + (7 - e)) (by omega)
    unfold baBit at hbit
    have hdiv : (8 * n + (7 - e)) / 8 = n := by omega
    have hmod : 7 - (8 * n + (7 - e)) % 8 = e := by omega
    rwa [hdiv, hmod, List.getD_eq_getElem _ _ hn, List.getD_eq_getElem _ _ hn'] at hbit
  · have hbyte (b : UInt8) : b.toNat.testBit e = false :=
      Nat.testBit_lt_two_pow (lt_of_lt_of_le b.toNat_lt (Nat.pow_le_pow_right (by decide) (by omega)))
    rw [hbyte, hbyte]

/-- Byte strings of one length by their sets of 9 bits. -/
def baRadix (n : ℕ) : Radix { ba : List UInt8 // ba.length = n } where
  digits ba := splitKey9 ba
  length := (n * 8 + 8) / 9
  length_digits ba := by rw [length_splitKey9, ba.2]
  injective ba ba' h := Subtype.ext (splitKey9_inj (ba.2.trans ba'.2.symm) h)

end ZkevmProver
