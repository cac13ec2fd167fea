import Mathlib.Data.Nat.Init
import Mathlib.Data.List.GetD
import Mathlib.Tactic.Common
import ZkevmProver.Lib.BigEndian

/-!
# Bits of numbers

Numbers that are put together bit by bit, and the bits of a big-endian number.

  1. Bits put together from the lowest one on.
  2. Bits of bytes.
-/

namespace Bits

/-! ## Bits put together from the lowest one on -/

/-- The number of the bits below `n`. -/
abbrev pack (n : ℕ) (bits : ℕ → Bool) : ℕ := Nat.ofBits fun i : Fin n => bits i

theorem testBit_pack (n : ℕ) (bits : ℕ → Bool) (i : ℕ) :
    (pack n bits).testBit i = (decide (i < n) && bits i) := by
  rw [pack, Nat.testBit_ofBits]
  by_cases h : i < n <;> simp [h]

theorem pack_lt (n : ℕ) (bits : ℕ → Bool) : pack n bits < 2 ^ n := Nat.ofBits_lt_two_pow _

/-- One more bit. -/
theorem pack_succ (n : ℕ) (bits : ℕ → Bool) :
    pack (n + 1) bits = pack n bits + (bits n).toNat <<< n := by
  apply Nat.eq_of_testBit_eq
  intro i
  rw [Nat.add_comm (pack n bits), Nat.shiftLeft_eq, Nat.mul_comm,
    Nat.testBit_two_pow_mul_add _ (pack_lt n bits), testBit_pack, testBit_pack]
  by_cases hlt : i < n
  · simp [hlt, Nat.lt_succ_of_lt hlt]
  · rw [if_neg hlt]
    rcases Nat.eq_or_lt_of_le (Nat.not_lt.mp hlt) with rfl | hgt
    · cases bits n <;> simp
    · obtain ⟨d, hd⟩ : ∃ d, i - n = d + 1 := ⟨i - n - 1, by omega⟩
      have hle : ¬i < n + 1 := by omega
      cases bits n <;> simp [hle, hd, Nat.testBit_add_one]

/-! ## Bits of bytes -/

theorem shiftRight_and_one (n i : ℕ) : (n >>> i) &&& 1 = (n.testBit i).toNat := by
  rw [Nat.toNat_testBit, Nat.shiftRight_eq_div_pow, Nat.and_one_is_mod]

/-- A bit of a big-endian number is one of its bytes'. -/
theorem testBit_value (bytes : List UInt8) {i : ℕ} (hi : i / 8 < bytes.length) :
    (BigEndian.value bytes).testBit i =
      (bytes.getD (bytes.length - 1 - i / 8) 0).toNat.testBit (i % 8) := by
  induction bytes using List.reverseRecOn generalizing i with
  | nil => exact absurd hi (Nat.not_lt_zero _)
  | append_singleton bytes b ih =>
    have hb : b.toNat < 2 ^ 8 := b.toNat_lt
    rw [BigEndian.value_concat, Nat.mul_comm, (by rfl : 256 = 2 ^ 8),
      Nat.testBit_two_pow_mul_add _ hb, List.length_append, List.length_singleton,
      Nat.add_sub_cancel]
    rw [List.length_append, List.length_singleton] at hi
    split
    · next hlt =>
      rw [Nat.div_eq_of_lt hlt, Nat.mod_eq_of_lt hlt, Nat.sub_zero,
        List.getD_append_right _ _ _ _ le_rfl, Nat.sub_self]
      rfl
    · next hge =>
      have hdiv : i / 8 = (i - 8) / 8 + 1 := by omega
      have hmod : i % 8 = (i - 8) % 8 := by omega
      rw [ih (by omega), List.getD_append _ _ _ _ (by omega), hmod, hdiv, Nat.sub_sub,
        Nat.add_comm 1]

end Bits
