import Mathlib.Data.List.Prime
import Mathlib.NumberTheory.LucasPrimality
import Mathlib.RingTheory.RootsOfUnity.PrimitiveRoots

/-!
# Certificates of primality

By Lucas's test `p` is prime where some `a` has order `p - 1`, which takes a few powers of `a` and the
primes that divide `p - 1`.  The powers are taken by squaring, such that the kernel evaluates them.
-/

namespace LucasCertificate

/-- `acc * a ^ n`, modulo `m`, for an exponent of so many bits. -/
def mulPow (m : ℕ) : ℕ → ℕ → ℕ → ℕ → ℕ
  | 0, _, _, acc => acc
  | bits + 1, a, n, acc => mulPow m bits (a * a % m) (n / 2) (if n % 2 = 1 then acc * a % m else acc)

variable {m p a bits n : ℕ}

theorem mulPow_eq (m : ℕ) {bits n : ℕ} (hn : n < 2 ^ bits) (a acc : ℕ) :
    (mulPow m bits a n acc : ZMod m) = acc * a ^ n := by
  induction bits generalizing a n acc with
  | zero =>
    obtain rfl : n = 0 := by simpa using hn
    simp [mulPow]
  | succ bits ih =>
    have hhalf : n / 2 < 2 ^ bits := by
      rw [pow_succ] at hn
      omega
    have hpow : (a : ZMod m) ^ n = (a * a) ^ (n / 2) * a ^ (n % 2) := by
      rw [← pow_two, ← pow_mul, ← pow_add, Nat.div_add_mod]
    rw [mulPow, ih hhalf, hpow]
    rcases Nat.mod_two_eq_zero_or_one n with h | h
    · simp [h]
    · simp [h]
      ring

/-- Whether `a ^ n` is one, modulo `m`. -/
def powIsOne (m bits a n : ℕ) : Bool := mulPow m bits a n 1 % m = 1 % m

theorem powIsOne_iff (m : ℕ) {bits n : ℕ} (hn : n < 2 ^ bits) (a : ℕ) :
    powIsOne m bits a n = true ↔ (a : ZMod m) ^ n = 1 := by
  have h := mulPow_eq m hn a 1
  rw [Nat.cast_one, one_mul] at h
  rw [powIsOne, decide_eq_true_iff, ← h, ← ZMod.natCast_eq_natCast_iff', Nat.cast_one]

/-- Whether `a` has order `p - 1`, where the listed numbers are the primes of `p - 1`. -/
def check (p a bits : ℕ) (factors : List ℕ) : Bool :=
  decide (p - 1 < 2 ^ bits) && decide (factors.prod = p - 1) && powIsOne p bits a (p - 1) &&
    factors.all fun q => !powIsOne p bits a ((p - 1) / q)

theorem pow_of_check (p a bits : ℕ) (factors : List ℕ) (hfactors : ∀ q ∈ factors, q.Prime)
    (h : check p a bits factors = true) :
    (a : ZMod p) ^ (p - 1) = 1 ∧ ∀ q, q.Prime → q ∣ p - 1 → (a : ZMod p) ^ ((p - 1) / q) ≠ 1 := by
  simp only [check, Bool.and_eq_true, decide_eq_true_eq, List.all_eq_true, Bool.not_eq_true',
    ← Bool.not_eq_true] at h
  obtain ⟨⟨⟨hbits, hprod⟩, hfull⟩, hpart⟩ := h
  refine ⟨(powIsOne_iff p hbits a).mp hfull, fun q hq hdvd hone => ?_⟩
  have hmem : q ∈ factors :=
    mem_list_primes_of_dvd_prod hq.prime (fun f hf => (hfactors f hf).prime) (hprod ▸ hdvd)
  exact hpart q hmem ((powIsOne_iff p ((Nat.div_le_self _ _).trans_lt hbits) a).mpr hone)

/-- A number with a certificate is prime. -/
theorem prime_of_check (p a bits : ℕ) (factors : List ℕ) (hfactors : ∀ q ∈ factors, q.Prime)
    (h : check p a bits factors = true) : p.Prime := by
  obtain ⟨hfull, hpart⟩ := pow_of_check p a bits factors hfactors h
  exact lucas_primality p a hfull hpart

/-- A number with a certificate has an element of full order. -/
theorem isPrimitiveRoot_of_check (p a bits : ℕ) (factors : List ℕ) (hfactors : ∀ q ∈ factors, q.Prime)
    (h : check p a bits factors = true) : IsPrimitiveRoot (a : ZMod p) (p - 1) := by
  have hp := prime_of_check p a bits factors hfactors h
  obtain ⟨hfull, hpart⟩ := pow_of_check p a bits factors hfactors h
  rw [IsPrimitiveRoot.iff_orderOf]
  exact orderOf_eq_of_pow_and_pow_div_prime (Nat.sub_pos_of_lt hp.one_lt) hfull hpart

end LucasCertificate
