import Mathlib.Data.Nat.ModEq
import Mathlib.Data.List.Basic

/-!
# A ring of slots behind a counter

Insertion `m` goes to slot `m % C` of a ring of `C` slots, and stays there until insertion `m + C`.
After `n` insertions the ring holds those of a window of length `C`.  A slot is a block of
consecutive cells of an array.

  1. The window, and what one more insertion makes of it.
  2. Blocks of cells.
-/

namespace RingWindow

/-- Insertion `m` is among the last `C` of `n`. -/
def Live (C n m : ℕ) : Prop := m < n ∧ n ≤ m + C

variable {C n m m' : ℕ}

theorem not_live_zero (C m : ℕ) : ¬Live C 0 m := fun h => Nat.not_lt_zero m h.1

/-- The slots of a window are distinct. -/
theorem Live.eq_of_slot (h : Live C n m) (h' : Live C n m') (hslot : m % C = m' % C) : m = m' := by
  have hlt : ∀ {a b : ℕ}, Live C n a → Live C n b → a % C = b % C → a ≤ b → a = b := by
    intro a b ha hb hab hle
    have hdvd : C ∣ b - a := (Nat.modEq_iff_dvd' hle).mp hab
    have hsmall : b - a < C := by
      have := ha.2
      have := hb.1
      omega
    have := Nat.eq_zero_of_dvd_of_lt hdvd hsmall
    omega
  obtain hle | hle := Nat.le_total m m'
  · exact hlt h h' hslot hle
  · exact (hlt h' h hslot.symm hle).symm

theorem live_self (hC : 0 < C) (n : ℕ) : Live C (n + 1) n := ⟨Nat.lt_succ_self n, by omega⟩

/-- What was live stays so, but for the slot that is written again. -/
theorem Live.of_succ (h : Live C (n + 1) m) (hne : m ≠ n) : Live C n m :=
  ⟨Nat.lt_of_le_of_ne (Nat.le_of_lt_succ h.1) hne, by
    have := h.2
    omega⟩

theorem Live.slot_ne (h : Live C (n + 1) m) (hC : 0 < C) (hne : m ≠ n) : m % C ≠ n % C :=
  fun hslot => hne (h.eq_of_slot (live_self hC n) hslot)

/-- When the ring is full every slot is live. -/
theorem exists_live (hC : 0 < C) (hn : C ≤ n) (x : ℕ) : ∃ m, Live C n m ∧ m % C = x % C := by
  have hx : x % C < C := Nat.mod_lt x hC
  have hr : (n - 1 - x % C) % C < C := Nat.mod_lt _ hC
  have hrle : (n - 1 - x % C) % C ≤ n - 1 - x % C := Nat.mod_le _ _
  refine ⟨n - 1 - (n - 1 - x % C) % C, ⟨by omega, by omega⟩, ?_⟩
  have hdiv := Nat.mod_add_div (n - 1 - x % C) C
  have heq : n - 1 - (n - 1 - x % C) % C = x % C + C * ((n - 1 - x % C) / C) := by omega
  rw [heq, Nat.add_mul_mod_self_left, Nat.mod_mod]

/-! ## Blocks -/

section Blocks

variable {α : Type*}

/-- Cells `base` to `base + len - 1` of an array. -/
def readBlock (mem : ℕ → α) (base len : ℕ) : List α := (List.range len).map fun i => mem (base + i)

/-- An array with the cells from `base` on written. -/
def writeBlock (mem : ℕ → α) (base : ℕ) (cells : List α) : ℕ → α :=
  fun x => if base ≤ x then cells[x - base]?.getD (mem x) else mem x

theorem readBlock_writeBlock_self (mem : ℕ → α) (base : ℕ) (cells : List α) :
    readBlock (writeBlock mem base cells) base cells.length = cells := by
  refine List.ext_getElem (by simp [readBlock]) fun i h _ => ?_
  have hi : i < cells.length := by simpa [readBlock] using h
  simp [readBlock, writeBlock, hi]

/-- A block that the written one does not meet. -/
theorem readBlock_writeBlock_of_disjoint (mem : ℕ → α) {base : ℕ} {cells : List α}
    {base' len : ℕ} (h : base' + len ≤ base ∨ base + cells.length ≤ base') :
    readBlock (writeBlock mem base cells) base' len = readBlock mem base' len := by
  refine List.map_congr_left fun i hi => ?_
  have hi := List.mem_range.mp hi
  unfold writeBlock
  by_cases hle : base ≤ base' + i
  · rw [if_pos hle, List.getElem?_eq_none (by omega)]
    rfl
  · rw [if_neg hle]

end Blocks

end RingWindow
