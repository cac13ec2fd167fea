import ZkevmProver.Lib.BigEndian

/-!
# Concise binary object representation

Data items are written after a head, whose first byte says of which major type the item is and how its
count is written.

1. Heads
2. Data items
3. Coded items
4. Strings of bytes that are an item
-/

namespace Cbor

open BigEndian

/-! ## Heads -/

/-- How a count is written: in the first byte, or in the bytes that follow it. -/
inductive Form where
  | immediate
  | one
  | two
  | four
  | eight
  deriving DecidableEq

namespace Form

/-- How many bytes follow the first one. -/
def width : Form → ℕ
  | immediate => 0
  | one => 1
  | two => 2
  | four => 4
  | eight => 8

/-- The five low bits of the first byte. -/
def info (n : ℕ) : Form → ℕ
  | immediate => n
  | one => 24
  | two => 25
  | four => 26
  | eight => 27

/-- A count that the form has room for.  It may also have room for less. -/
def Fits (n : ℕ) : Form → Prop
  | immediate => n < 24
  | form => n < 256 ^ form.width

theorem info_lt {n : ℕ} {form : Form} (h : form.Fits n) : form.info n < 28 := by
  cases form with
  | immediate => exact (show n < 24 from h).trans (by decide)
  | _ => simp [info]

theorem Fits.lt {n : ℕ} {form : Form} (h : form.Fits n) : n < 256 ^ 8 := by
  cases form with
  | immediate => exact (show n < 24 from h).trans (by decide)
  | _ => exact (show n < _ from h).trans_le (Nat.pow_le_pow_right (by decide) (by decide))

end Form

/-- The head of an item of a major type. -/
def head (major : ℕ) (form : Form) (n : ℕ) : List UInt8 :=
  (32 * major + form.info n).toUInt8 :: bytes form.width n

@[simp] theorem length_head (major : ℕ) (form : Form) (n : ℕ) :
    (head major form n).length = 1 + form.width := by
  rw [head, List.length_cons, length_bytes, Nat.add_comm]

/-! ## Data items -/

/-- An unsigned integer, a byte string, a text string, an array or an item with a tag. -/
inductive Item
  | u64 (n : ℕ)
  | ba (content : List UInt8)
  | text (content : List UInt8)
  | array (items : List Item)
  | tag (count : ℕ) (item : Item)

/-! ## Coded items -/

/-- An item, with the form in which each of its counts is written. -/
inductive Coded
  | u64 (form : Form) (n : ℕ)
  | ba (form : Form) (content : List UInt8)
  | text (form : Form) (content : List UInt8)
  | array (form : Form) (items : List Coded)
  | tag (form : Form) (count : ℕ) (item : Coded)

namespace Coded

mutual

/-- What is coded. -/
def item : Coded → Item
  | .u64 _ n => .u64 n
  | .ba _ content => .ba content
  | .text _ content => .text content
  | .array _ items => .array (itemAll items)
  | .tag _ count inner => .tag count inner.item

def itemAll : List Coded → List Item
  | [] => []
  | c :: cs => c.item :: itemAll cs

end

mutual

/-- How it is written. -/
def encode : Coded → List UInt8
  | .u64 form n => head 0 form n
  | .ba form content => head 2 form content.length ++ content
  | .text form content => head 3 form content.length ++ content
  | .array form items => head 4 form items.length ++ encodeAll items
  | .tag form count inner => head 6 form count ++ inner.encode

def encodeAll : List Coded → List UInt8
  | [] => []
  | c :: cs => c.encode ++ encodeAll cs

end

mutual

/-- Each count fits its form. -/
def Valid : Coded → Prop
  | .u64 form n => form.Fits n
  | .ba form content => form.Fits content.length
  | .text form content => form.Fits content.length
  | .array form items => form.Fits items.length ∧ ValidAll items
  | .tag form count inner => form.Fits count ∧ inner.Valid

def ValidAll : List Coded → Prop
  | [] => True
  | c :: cs => c.Valid ∧ ValidAll cs

end

end Coded

/-! ## Strings of bytes that are an item -/

/-- A string of bytes is an item of a type that is read: integers, simple values and numbers of the types
0, 1 and 7, strings, arrays and tags. -/
inductive WellFormed : List UInt8 → Prop
  | plain {major : ℕ} {form : Form} {n : ℕ} : major = 0 ∨ major = 1 ∨ major = 7 → form.Fits n →
      WellFormed (head major form n)
  | string {major : ℕ} {form : Form} {content : List UInt8} : major = 2 ∨ major = 3 →
      form.Fits content.length → WellFormed (head major form content.length ++ content)
  | array {form : Form} {items : List (List UInt8)} : form.Fits items.length →
      (∀ item ∈ items, WellFormed item) → WellFormed (head 4 form items.length ++ items.flatten)
  | tag {form : Form} {count : ℕ} {item : List UInt8} : form.Fits count → WellFormed item →
      WellFormed (head 6 form count ++ item)

theorem WellFormed.length_pos {bytes : List UInt8} (h : WellFormed bytes) : 0 < bytes.length := by
  cases h with
  | plain => rw [length_head]; exact Nat.lt_add_right _ Nat.one_pos
  | _ =>
    rw [List.length_append, length_head, Nat.add_assoc]
    exact Nat.lt_add_right _ Nat.one_pos

end Cbor
