import Mathlib.Data.Fin.VecNotation
import Mathlib.Data.ZMod.Defs
import Mathlib.Tactic.Common

/-!
# Field elements

Goldilocks field elements, and the groups of four of them (`fea`) that serve as hashes, tree keys
and roots.  Only the parts of the field that the tree uses: equality, zero, one, and the
conversions from and to 64-bit words.
-/

namespace ZkevmProver

/-- The Goldilocks prime. -/
abbrev goldilocksPrime : ℕ := 0xFFFFFFFF00000001

/-- A field element, in canonical form. -/
abbrev Fe := Fin goldilocksPrime

-- One proof for the literals of each type, the field and the indices of its groups.
instance neZero_goldilocksPrime : NeZero goldilocksPrime := ⟨by decide⟩

instance neZero_two : NeZero 2 := ⟨by decide⟩

instance neZero_three : NeZero 3 := ⟨by decide⟩

instance neZero_four : NeZero 4 := ⟨by decide⟩

theorem goldilocksPrime_lt : goldilocksPrime < 2 ^ 64 := by decide

/-- `fr.toU64`. -/
def toU64 (x : Fe) : ℕ := x.val

/-- `fr.fromU64`, of a 64-bit word. -/
def fromU64 (n : ℕ) : Fe := Fin.ofNat goldilocksPrime n

theorem toU64_lt (x : Fe) : toU64 x < 2 ^ 64 := x.isLt.trans goldilocksPrime_lt

@[simp] theorem fromU64_toU64 (x : Fe) : fromU64 (toU64 x) = x := by
  apply Fin.ext
  exact Nat.mod_eq_of_lt x.isLt

theorem toU64_fromU64 {n : ℕ} (h : n < goldilocksPrime) : toU64 (fromU64 n) = n :=
  Nat.mod_eq_of_lt h

theorem toU64_injective : Function.Injective toU64 := Fin.val_injective

/-- Four field elements. -/
@[ext] structure Fea where
  fe0 : Fe
  fe1 : Fe
  fe2 : Fe
  fe3 : Fe
  deriving DecidableEq

namespace Fea

/-- `fea[i]`. -/
def get (a : Fea) (i : Fin 4) : Fe := ![a.fe0, a.fe1, a.fe2, a.fe3] i

/-- The elements `f 0`, …, `f 3`. -/
def ofFn (f : Fin 4 → Fe) : Fea := ⟨f 0, f 1, f 2, f 3⟩

@[simp] theorem get_ofFn (f : Fin 4 → Fe) : ∀ i, (ofFn f).get i = f i
  | 0 => rfl
  | 1 => rfl
  | 2 => rfl
  | 3 => rfl

theorem ext_get {a b : Fea} (h : ∀ i, a.get i = b.get i) : a = b :=
  Fea.ext (h 0) (h 1) (h 2) (h 3)

instance : Zero Fea := ⟨⟨0, 0, 0, 0⟩⟩

instance : One Fea := ⟨⟨1, 0, 0, 0⟩⟩

end Fea

end ZkevmProver
