import Mathlib.Data.List.Induction
import Mathlib.Data.Nat.Size
import Mathlib.Tactic.Ring

/-!
# Big-endian numbers

The number that a string of bytes stands for, the bytes of a number at a given width, and the shortest
such bytes.

1. The value of a byte string
2. A fixed width
3. The shortest form
-/

namespace BigEndian

/-! ## The value of a byte string -/

/-- The first byte is the most significant one. -/
def value (bytes : List UInt8) : ℕ := bytes.foldl (fun n b => n * 256 + b.toNat) 0

@[simp] theorem value_nil : value [] = 0 := rfl

theorem foldl_eq (bytes : List UInt8) (n : ℕ) :
    bytes.foldl (fun n b => n * 256 + b.toNat) n = n * 256 ^ bytes.length + value bytes := by
  induction bytes generalizing n with
  | nil => simp
  | cons b bytes ih =>
    have hb : value (b :: bytes) = b.toNat * 256 ^ bytes.length + value bytes := by
      rw [value, List.foldl_cons, ih, Nat.zero_mul, Nat.zero_add]
    rw [List.foldl_cons, ih, hb, List.length_cons]
    ring

theorem value_cons (b : UInt8) (bytes : List UInt8) :
    value (b :: bytes) = b.toNat * 256 ^ bytes.length + value bytes := by
  rw [value, List.foldl_cons, foldl_eq, Nat.zero_mul, Nat.zero_add]

theorem value_append (xs ys : List UInt8) :
    value (xs ++ ys) = value xs * 256 ^ ys.length + value ys := by
  rw [value, List.foldl_append, foldl_eq]
  rfl

theorem value_concat (bytes : List UInt8) (b : UInt8) :
    value (bytes ++ [b]) = value bytes * 256 + b.toNat := by
  rw [value, List.foldl_append]
  rfl

theorem value_lt (bytes : List UInt8) : value bytes < 256 ^ bytes.length := by
  induction bytes with
  | nil => simp
  | cons b bytes ih =>
    have hb : b.toNat + 1 ≤ 256 := b.toNat_lt
    calc value (b :: bytes) = b.toNat * 256 ^ bytes.length + value bytes := value_cons b bytes
      _ < (b.toNat + 1) * 256 ^ bytes.length := by rw [Nat.succ_mul]; omega
      _ ≤ 256 * 256 ^ bytes.length := Nat.mul_le_mul_right _ hb
      _ = 256 ^ (b :: bytes).length := by rw [List.length_cons, Nat.pow_succ, Nat.mul_comm]

theorem value_take (bytes : List UInt8) (k : ℕ) :
    value (bytes.take k) = value bytes / 256 ^ (bytes.length - k) := by
  have hsplit := value_append (bytes.take k) (bytes.drop k)
  have hlt := value_lt (bytes.drop k)
  rw [List.take_append_drop] at hsplit
  rw [List.length_drop] at hsplit hlt
  rw [hsplit, Nat.add_comm, Nat.add_mul_div_right _ _ (Nat.pow_pos (by decide)), Nat.div_eq_of_lt hlt,
    Nat.zero_add]

theorem value_drop (bytes : List UInt8) (k : ℕ) :
    value (bytes.drop k) = value bytes % 256 ^ (bytes.length - k) := by
  have hsplit := value_append (bytes.take k) (bytes.drop k)
  have hlt := value_lt (bytes.drop k)
  rw [List.take_append_drop] at hsplit
  rw [List.length_drop] at hsplit hlt
  rw [hsplit, Nat.mul_add_mod', Nat.mod_eq_of_lt hlt]

/-! ## A fixed width -/

/-- The `width` low bytes of a number. -/
def bytes : ℕ → ℕ → List UInt8
  | 0, _ => []
  | width + 1, n => bytes width (n / 256) ++ [n.toUInt8]

@[simp] theorem bytes_zero (n : ℕ) : bytes 0 n = [] := rfl

theorem bytes_succ (width n : ℕ) : bytes (width + 1) n = bytes width (n / 256) ++ [n.toUInt8] := rfl

@[simp] theorem length_bytes (width n : ℕ) : (bytes width n).length = width := by
  induction width generalizing n with
  | zero => rfl
  | succ width ih => rw [bytes_succ, List.length_append, ih, List.length_singleton]

theorem bytes_of_zero (width : ℕ) : bytes width 0 = List.replicate width 0 := by
  induction width with
  | zero => rfl
  | succ width ih =>
    rw [bytes_succ, Nat.zero_div, ih, List.replicate_succ']
    rfl

/-- The most significant byte first. -/
theorem bytes_cons (width n : ℕ) :
    bytes (width + 1) n = (n / 256 ^ width).toUInt8 :: bytes width n := by
  induction width generalizing n with
  | zero => rw [bytes_succ, bytes_zero, bytes_zero, Nat.pow_zero, Nat.div_one, List.nil_append]
  | succ width ih =>
    rw [bytes_succ, ih, Nat.div_div_eq_div_mul, ← Nat.pow_succ', List.cons_append, ← bytes_succ]

theorem value_bytes (width n : ℕ) : value (bytes width n) = n % 256 ^ width := by
  induction width generalizing n with
  | zero => simp [Nat.mod_one]
  | succ width ih =>
    rw [bytes_succ, value_concat, ih, Nat.pow_succ, Nat.mul_comm (256 ^ width), Nat.mod_mul]
    have hn : n.toUInt8.toNat = n % 256 := by simp
    omega

theorem value_bytes_of_lt {width n : ℕ} (h : n < 256 ^ width) : value (bytes width n) = n := by
  rw [value_bytes, Nat.mod_eq_of_lt h]

/-- A byte string is its value at its own width. -/
theorem bytes_value (xs : List UInt8) : bytes xs.length (value xs) = xs := by
  induction xs using List.reverseRecOn with
  | nil => rfl
  | append_singleton xs b ih =>
    have hb : b.toNat < 256 := b.toNat_lt
    have hdiv : (value xs * 256 + b.toNat) / 256 = value xs := by omega
    have hlow : (value xs * 256 + b.toNat).toUInt8 = b := by
      apply UInt8.toNat_inj.mp
      simp only [Nat.toUInt8_eq, UInt8.toNat_ofNat']
      omega
    rw [List.length_append, List.length_singleton, bytes_succ, value_concat, hdiv, hlow, ih]

/-! ## The shortest form -/

/-- How many bytes a number takes. -/
def width (n : ℕ) : ℕ := (n.size + 7) / 8

theorem width_le {n k : ℕ} : width n ≤ k ↔ n < 256 ^ k := by
  have hpow : 256 ^ k = 2 ^ (8 * k) := by rw [Nat.pow_mul]
  rw [hpow, ← Nat.size_le, width]
  omega

theorem lt_width {n k : ℕ} : k < width n ↔ 256 ^ k ≤ n := by
  rw [← not_le, width_le, not_lt]

theorem width_pos {n : ℕ} : 0 < width n ↔ 0 < n := by
  rw [lt_width, Nat.pow_zero, Nat.succ_le_iff]

theorem lt_pow_width (n : ℕ) : n < 256 ^ width n := width_le.mp le_rfl

/-- The bytes of a number without leading zeros. -/
def shortest (n : ℕ) : List UInt8 := bytes (width n) n

@[simp] theorem length_shortest (n : ℕ) : (shortest n).length = width n := length_bytes _ _

@[simp] theorem value_shortest (n : ℕ) : value (shortest n) = n := value_bytes_of_lt (lt_pow_width n)

/-- No byte string of that value is shorter. -/
theorem width_value_le (bytes : List UInt8) : width (value bytes) ≤ bytes.length :=
  width_le.mpr (value_lt bytes)

theorem width_mono {m n : ℕ} (h : m ≤ n) : width m ≤ width n :=
  width_le.mpr (h.trans_lt (lt_pow_width n))

@[simp] theorem shortest_zero : shortest 0 = [] := rfl

theorem width_of_pos {n : ℕ} (h : 0 < n) : width n = width (n / 256) + 1 := by
  apply le_antisymm
  · have hlt := lt_pow_width (n / 256)
    rw [width_le, Nat.pow_succ]
    exact (Nat.div_lt_iff_lt_mul (by decide)).mp hlt
  · have hpos := width_pos.mpr h
    have hlt := lt_pow_width n
    obtain ⟨k, hk⟩ := Nat.exists_eq_add_of_lt hpos
    rw [Nat.zero_add] at hk
    rw [hk] at hlt ⊢
    rw [Nat.pow_succ] at hlt
    exact Nat.succ_le_succ (width_le.mpr ((Nat.div_lt_iff_lt_mul (by decide)).mpr hlt))

/-- The least significant byte comes last. -/
theorem shortest_of_pos {n : ℕ} (h : 0 < n) : shortest n = shortest (n / 256) ++ [n.toUInt8] := by
  unfold shortest
  rw [width_of_pos h, bytes_succ]

/-- Leading zeros taken off. -/
theorem dropWhile_bytes {width n : ℕ} (h : n < 256 ^ width) :
    (bytes width n).dropWhile (· == 0) = shortest n := by
  induction width with
  | zero =>
    obtain rfl : n = 0 := by simpa using h
    rfl
  | succ k ih =>
    rw [bytes_cons]
    by_cases hn : n < 256 ^ k
    · rw [Nat.div_eq_of_lt hn]
      exact ih hn
    · have hw : BigEndian.width n = k + 1 :=
        le_antisymm (width_le.mpr h) (lt_width.mpr (Nat.not_lt.mp hn))
      have htop : (n / 256 ^ k).toUInt8 ≠ 0 := by
        have hpos : 0 < n / 256 ^ k := Nat.div_pos (Nat.not_lt.mp hn) (Nat.pow_pos (by decide))
        have hlt : n / 256 ^ k < 256 := Nat.div_lt_of_lt_mul (by rwa [← Nat.pow_succ])
        intro hzero
        have hnat := congrArg UInt8.toNat hzero
        simp only [Nat.toUInt8_eq, UInt8.toNat_ofNat'] at hnat
        rw [Nat.mod_eq_of_lt hlt] at hnat
        exact hpos.ne' hnat
      rw [List.dropWhile_cons_of_neg (by simpa using htop), ← bytes_cons, shortest, hw]

end BigEndian
