import ZkevmProver.Utils.Goldilocks

/-!
# Scalars and field elements

A 256-bit value is stored in a tree as eight field elements of 32 bits each.
-/

namespace ZkevmProver

instance neZero_eight : NeZero 8 := ⟨by decide⟩

/-- Bits `32 i` to `32 i + 31` of a scalar, as a field element. -/
def limb (scalar : ℕ) (i : ℕ) : Fe := fromU64 ((scalar >>> (32 * i)) % 2 ^ 32)

/-- `scalar2fea`, to eight field elements. -/
def scalar2fea (scalar : ℕ) : Fea × Fea :=
  (⟨limb scalar 0, limb scalar 1, limb scalar 2, limb scalar 3⟩,
    ⟨limb scalar 4, limb scalar 5, limb scalar 6, limb scalar 7⟩)

/-- Adds two elements to a scalar; `false` when one of them has more than 32 bits. -/
def addPair (scalar : ℕ) (feH feL : Fe) : Bool × ℕ :=
  if toU64 feH ≥ 2 ^ 32 then (false, scalar)
  else if toU64 feL ≥ 2 ^ 32 then (false, scalar)
  else (true, scalar + ((toU64 feH <<< 32) + toU64 feL))

/-- `fea2scalar`, from eight field elements: whether it succeeds, and what it leaves in `scalar`. -/
def fea2scalar (scalar : ℕ) (fea : Fea × Fea) : Bool × ℕ :=
  match addPair 0 fea.2.fe3 fea.2.fe2 with
  | (false, _) => (false, scalar)
  | (true, s) =>
    match addPair (s <<< 64) fea.2.fe1 fea.2.fe0 with
    | (false, s) => (false, s)
    | (true, s) =>
      match addPair (s <<< 64) fea.1.fe3 fea.1.fe2 with
      | (false, s) => (false, s)
      | (true, s) => addPair (s <<< 64) fea.1.fe1 fea.1.fe0

theorem toU64_limb (scalar i : ℕ) : toU64 (limb scalar i) = (scalar >>> (32 * i)) % 2 ^ 32 := by
  refine toU64_fromU64 ((Nat.mod_lt _ (by decide)).trans ?_)
  decide

theorem toU64_limb_lt (scalar i : ℕ) : toU64 (limb scalar i) < 2 ^ 32 := by
  rw [toU64_limb]
  exact Nat.mod_lt _ (by decide)

theorem addPair_limb (s scalar i j : ℕ) :
    addPair s (limb scalar i) (limb scalar j) =
      (true, s + ((toU64 (limb scalar i) <<< 32) + toU64 (limb scalar j))) := by
  rw [addPair, if_neg (Nat.not_le.mpr (toU64_limb_lt _ _)),
    if_neg (Nat.not_le.mpr (toU64_limb_lt _ _))]

/-- The bits from `32 i` on are those from `32 (i + 1)` on and a limb. -/
theorem shiftRight_limb (scalar i : ℕ) :
    scalar >>> (32 * i) = (scalar >>> (32 * (i + 1))) * 2 ^ 32 + toU64 (limb scalar i) := by
  have hnext : scalar >>> (32 * (i + 1)) = scalar >>> (32 * i) / 2 ^ 32 := by
    rw [← Nat.shiftRight_eq_div_pow, ← Nat.shiftRight_add, ← Nat.mul_succ]
  rw [toU64_limb, hnext]
  exact (Nat.div_add_mod' _ _).symm

/-- A 256-bit value comes back from its field elements. -/
theorem fea2scalar_scalar2fea (s : ℕ) {scalar : ℕ} (h : scalar < 2 ^ 256) :
    fea2scalar s (scalar2fea scalar) = (true, scalar) := by
  have h8 : scalar >>> (32 * 8) = 0 := by
    rw [Nat.shiftRight_eq_div_pow]
    exact Nat.div_eq_of_lt h
  have h7 := shiftRight_limb scalar 7
  have h6 := shiftRight_limb scalar 6
  have h5 := shiftRight_limb scalar 5
  have h4 := shiftRight_limb scalar 4
  have h3 := shiftRight_limb scalar 3
  have h2 := shiftRight_limb scalar 2
  have h1 := shiftRight_limb scalar 1
  have h0 := shiftRight_limb scalar 0
  rw [Nat.mul_zero, Nat.shiftRight_zero] at h0
  simp only [fea2scalar, scalar2fea, addPair_limb, Nat.shiftLeft_eq, Prod.mk.injEq, true_and]
  rw [h8] at h7
  omega

theorem addPair_true {s r : ℕ} {feH feL : Fe} (h : addPair s feH feL = (true, r)) :
    r < s + 2 ^ 64 := by
  unfold addPair at h
  split_ifs at h with hH hL
  · exact nomatch (Prod.mk.inj h).1
  · exact nomatch (Prod.mk.inj h).1
  · obtain ⟨-, rfl⟩ := Prod.mk.inj h
    rw [Nat.shiftLeft_eq]
    omega

theorem fea2scalar_lt {s n : ℕ} {fea : Fea × Fea} (h : fea2scalar s fea = (true, n)) :
    n < 2 ^ 256 := by
  unfold fea2scalar at h
  split at h
  · exact nomatch (Prod.mk.inj h).1
  · next s₁ h1 =>
    split at h
    · exact nomatch (Prod.mk.inj h).1
    · next s₂ h2 =>
      split at h
      · exact nomatch (Prod.mk.inj h).1
      · next s₃ h3 =>
        have h1 := addPair_true h1
        have h2 := addPair_true h2
        have h3 := addPair_true h3
        have h4 := addPair_true h
        rw [Nat.shiftLeft_eq] at h2 h3 h4
        omega

theorem scalar2fea_injective {x y : ℕ} (hx : x < 2 ^ 256) (hy : y < 2 ^ 256)
    (h : scalar2fea x = scalar2fea y) : x = y := by
  have hxy := (fea2scalar_scalar2fea 0 hx).symm.trans (h ▸ fea2scalar_scalar2fea 0 hy)
  simpa using hxy

theorem limb_eq_zero {scalar i : ℕ} : limb scalar i = 0 ↔ (scalar >>> (32 * i)) % 2 ^ 32 = 0 := by
  rw [← toU64_limb]
  exact (toU64_injective.eq_iff' rfl).symm

/-- Elements 5, 6 and 7 of an address are zero. -/
theorem high_limbs_eq_zero {scalar : ℕ} (h : scalar < 2 ^ 256) :
    (limb scalar 5 = 0 ∧ limb scalar 6 = 0 ∧ limb scalar 7 = 0) ↔ scalar < 2 ^ 160 := by
  rw [limb_eq_zero, limb_eq_zero, limb_eq_zero]
  simp only [Nat.shiftRight_eq_div_pow]
  omega

/-! ## Hashes as scalars -/

/-- `fea2scalar`, from the four elements of a hash. -/
def hash2scalar (fea : Fea) : ℕ :=
  ((((toU64 fea.fe3 <<< 64) + toU64 fea.fe2) <<< 64 + toU64 fea.fe1) <<< 64) + toU64 fea.fe0

/-- Bits `64 i` to `64 i + 63` of a scalar, as a field element; `none` where they are no less than the
prime. -/
def hashLimb (scalar i : ℕ) : Option Fe :=
  let aux := (scalar >>> (64 * i)) % 2 ^ 64
  if aux ≥ goldilocksPrime then none else some (fromU64 aux)

/-- `scalar2fea`, to the four elements of a hash.  It ends the process where this gives `none`. -/
def scalar2hash (scalar : ℕ) : Option Fea := do
  let fe0 ← hashLimb scalar 0
  let fe1 ← hashLimb scalar 1
  let fe2 ← hashLimb scalar 2
  let fe3 ← hashLimb scalar 3
  some ⟨fe0, fe1, fe2, fe3⟩

theorem hashLimb_eq {scalar i : ℕ} (x : Fe) (h : (scalar >>> (64 * i)) % 2 ^ 64 = toU64 x) :
    hashLimb scalar i = some x := by
  rw [hashLimb, h, fromU64_toU64]
  exact if_neg (Nat.not_le.mpr x.isLt)

theorem hash2scalar_lt (fea : Fea) : hash2scalar fea < 2 ^ 256 := by
  have h3 := toU64_lt fea.fe3
  have h2 := toU64_lt fea.fe2
  have h1 := toU64_lt fea.fe1
  have h0 := toU64_lt fea.fe0
  simp only [hash2scalar, Nat.shiftLeft_eq]
  omega

/-- A hash comes back from its scalar. -/
theorem scalar2hash_hash2scalar (fea : Fea) : scalar2hash (hash2scalar fea) = some fea := by
  have h3 := toU64_lt fea.fe3
  have h2 := toU64_lt fea.fe2
  have h1 := toU64_lt fea.fe1
  have h0 := toU64_lt fea.fe0
  have limb0 : hashLimb (hash2scalar fea) 0 = some fea.fe0 := by
    apply hashLimb_eq
    simp only [hash2scalar, Nat.shiftLeft_eq, Nat.shiftRight_eq_div_pow]
    omega
  have limb1 : hashLimb (hash2scalar fea) 1 = some fea.fe1 := by
    apply hashLimb_eq
    simp only [hash2scalar, Nat.shiftLeft_eq, Nat.shiftRight_eq_div_pow]
    omega
  have limb2 : hashLimb (hash2scalar fea) 2 = some fea.fe2 := by
    apply hashLimb_eq
    simp only [hash2scalar, Nat.shiftLeft_eq, Nat.shiftRight_eq_div_pow]
    omega
  have limb3 : hashLimb (hash2scalar fea) 3 = some fea.fe3 := by
    apply hashLimb_eq
    simp only [hash2scalar, Nat.shiftLeft_eq, Nat.shiftRight_eq_div_pow]
    omega
  simp only [scalar2hash, limb0, limb1, limb2, limb3, Option.bind_eq_bind, Option.bind_some]

theorem hash2scalar_injective : Function.Injective hash2scalar := by
  intro x y h
  have hx := scalar2hash_hash2scalar x
  rw [h, scalar2hash_hash2scalar] at hx
  exact (Option.some.inj hx).symm

/-- A scalar is a hash exactly when each of its four limbs is less than the prime. -/
theorem scalar2hash_isSome {scalar : ℕ} :
    (scalar2hash scalar).isSome ↔ ∀ i < 4, (scalar >>> (64 * i)) % 2 ^ 64 < goldilocksPrime := by
  have hlimb (i : ℕ) : (hashLimb scalar i).isSome ↔ (scalar >>> (64 * i)) % 2 ^ 64 < goldilocksPrime := by
    rw [hashLimb]
    split_ifs with h
    · simpa using h
    · simpa using h
  have hall : (scalar2hash scalar).isSome ↔ (hashLimb scalar 0).isSome ∧ (hashLimb scalar 1).isSome ∧
      (hashLimb scalar 2).isSome ∧ (hashLimb scalar 3).isSome := by
    unfold scalar2hash
    cases hashLimb scalar 0 <;> cases hashLimb scalar 1 <;> cases hashLimb scalar 2 <;>
      cases hashLimb scalar 3 <;> simp
  rw [hall, hlimb, hlimb, hlimb, hlimb]
  constructor
  · rintro ⟨h0, h1, h2, h3⟩ i hi
    obtain rfl | rfl | rfl | rfl : i = 0 ∨ i = 1 ∨ i = 2 ∨ i = 3 := by omega
    · exact h0
    · exact h1
    · exact h2
    · exact h3
  · exact fun h => ⟨h 0 (by decide), h 1 (by decide), h 2 (by decide), h 3 (by decide)⟩

end ZkevmProver
