import Mathlib.Data.Nat.ModEq
import Mathlib.Data.Nat.GCD.Basic
import Mathlib.Tactic.Common

/-!
# Elements of the BN128 scalar field

An element is four words of 64 bits.  Only what the Merkle tree uses of the field: the words as a number,
and the conversion of any such number to Montgomery form.

  1. Words.
  2. Montgomery form.
-/

namespace ZkevmProver

/-- `RawFr::Element`, given by its words `v`. -/
abbrev RawFr := Fin 4 → BitVec 64

namespace RawFr

/-- `Fr_rawq`. -/
def q : ℕ := 0x30644e72e131a029b85045b68181585d2833e84879b9709143e1f593f0000001

/-! ## Words -/

/-- The words as a number. -/
def value (x : RawFr) : ℕ :=
  (x 0).toNat + 2 ^ 64 * ((x 1).toNat + 2 ^ 64 * ((x 2).toNat + 2 ^ 64 * (x 3).toNat))

/-- The words of a number. -/
def ofNat (n : ℕ) : RawFr := fun k => BitVec.ofNat 64 (n / 2 ^ (64 * k.val))

theorem value_injective {x y : RawFr} (h : x.value = y.value) : x = y := by
  have h0 := (x 0).isLt
  have h1 := (x 1).isLt
  have h2 := (x 2).isLt
  have h0' := (y 0).isLt
  have h1' := (y 1).isLt
  have h2' := (y 2).isLt
  unfold value at h
  funext k
  apply BitVec.eq_of_toNat_eq
  match k with
  | 0 => omega
  | 1 => omega
  | 2 => omega
  | 3 => omega

instance : DecidableEq RawFr := fun _ _ => decidable_of_iff _ ⟨value_injective, congrArg value⟩

theorem value_ofNat {n : ℕ} (h : n < 2 ^ 256) : (ofNat n).value = n := by
  have hdiv (a b : ℕ) : n / 2 ^ (a + b) = n / 2 ^ a / 2 ^ b := by rw [Nat.pow_add, Nat.div_div_eq_div_mul]
  have h1 : n / 2 ^ (64 * (2 : Fin 4).val) = n / 2 ^ 64 / 2 ^ 64 := hdiv 64 64
  have h2 : n / 2 ^ (64 * (3 : Fin 4).val) = n / 2 ^ 64 / 2 ^ 64 / 2 ^ 64 := by
    rw [← hdiv 64 64]
    exact hdiv 128 64
  unfold value ofNat
  simp only [BitVec.toNat_ofNat]
  rw [h1, h2]
  show n / 2 ^ (64 * 0) % 2 ^ 64 + 2 ^ 64 * (n / 2 ^ (64 * 1) % 2 ^ 64 + _) = n
  omega

/-- `v[k] = ws[k]`, for all the words that there are. -/
def storeWords (x : RawFr) (ws : List (BitVec 64)) : RawFr := fun k => ws.getD k (x k)

/-! ## Montgomery form -/

/-- `Fr_rawToMontgomery`: the words need not be reduced. -/
def toMontgomery (x : RawFr) : RawFr := ofNat (x.value * 2 ^ 256 % q)

theorem value_toMontgomery (x : RawFr) : (toMontgomery x).value = x.value * 2 ^ 256 % q :=
  value_ofNat ((Nat.mod_lt _ (by decide)).trans (by decide))

theorem coprime_q : Nat.Coprime (2 ^ 256) q := Nat.Coprime.pow_left 256 (by decide)

/-- Numbers with the same remainder are not told apart. -/
theorem toMontgomery_eq_iff {x y : RawFr} : toMontgomery x = toMontgomery y ↔ x.value % q = y.value % q := by
  constructor
  · intro h
    have hmod : x.value * 2 ^ 256 ≡ y.value * 2 ^ 256 [MOD q] := by
      have hvalue := congrArg value h
      rwa [value_toMontgomery, value_toMontgomery] at hvalue
    exact Nat.ModEq.cancel_right_of_coprime coprime_q.symm hmod
  · intro h
    unfold toMontgomery
    rw [Nat.ModEq.mul_right (2 ^ 256) h]

end RawFr

end ZkevmProver
