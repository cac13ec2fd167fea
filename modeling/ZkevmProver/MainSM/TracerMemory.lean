import ZkevmProver.Lib.Rounding
import ZkevmProver.Lib.WordMemory
import ZkevmProver.Utils.Scalar
import ZkevmProver.Utils.Text

/-!
# The memory that the tracer reads

`getFromMemory` gives a range of the memory of a context as hexadecimal text.  It computes the positions
of the range in words, as numbers of type `double`, and these have 53 significant bits.

  1. The functions of the source.
  2. Words.
  3. The range that is read.
  4. Slices of the memory.
-/

namespace ZkevmProver.FullTracer

open BigEndian Rounding WordMemory

/-! ## The functions of the source

A `double` stands here in units of 1/32, the part of a word that a byte is. -/

/-- The memory of all contexts; a word is kept as eight field elements. -/
abbrev Mem := ℕ → Option (Fea × Fea)

/-- How a call ends that does not succeed. -/
inductive Failure
  /-- A `double` that is no `uint64_t` is converted to one. -/
  | conversion
  | stopped (stop : Stop)
  /-- `ZKR_SM_MAIN_FEA2SCALAR`, with the text of the words before. -/
  | fea2scalar (result : Text)

/-- The nearest `double`. -/
def toDouble (n : ℕ) : ℕ := roundEven 53 n

def toUint64 (n : ℕ) : Except Failure ℕ := if n < 2 ^ 64 then pure n else throw .conversion

/-- The 64 digits of a word, which is zero where there is none. -/
def wordText (mem : Mem) (i : ℕ) (result : Text) : Except Failure Text := do
  let memScalar ←
    match mem i with
    | none => pure 0
    | some fea =>
      match fea2scalar 0 fea with
      | (true, memScalar) => pure memScalar
      | (false, _) => throw (.fea2scalar result)
  match prependZeros (getStr 16 memScalar) 64 with
  | .ok text => pure text
  | .error stop => throw (.stopped stop)

/-- The loop over `count` words. -/
def appendWords (mem : Mem) : ℕ → ℕ → Text → Except Failure Text
  | 0, _, result => pure result
  | count + 1, i, result => do
    let text ← wordText mem i result
    appendWords mem count (i + 1) (result ++ text)

/-- Where the memory of a context begins. -/
def addrMem (ctx : ℕ) : ℕ := (ctx * 0x40000 % 2 ^ 64 + 0x20000) % 2 ^ 64

/-- `init` -/
def rangeInit (ctx offset : ℕ) : ℕ := toDouble (toDouble (32 * addrMem ctx) + toDouble (offset % 2 ^ 64))

/-- `end` -/
def rangeEnd (ctx offset length : ℕ) : ℕ :=
  toDouble (toDouble (32 * addrMem ctx) + toDouble ((offset % 2 ^ 64 + length % 2 ^ 64) % 2 ^ 64))

/-- The part of the first word, where the range does not begin with a word.  The difference of a
`double` from its floor is exact. -/
def firstText (mem : Mem) (init initCeil initFloor : ℕ) : Except Failure Text :=
  if init ≠ 32 * initCeil then do
    let hexStringStart ← wordText mem initFloor []
    let bytesToSkip := init - 32 * initFloor
    return (hexStringStart.drop (bytesToSkip * 2)).take 64
  else return []

/-- The part of the last word, where the range does not end with a word. -/
def appendLast (mem : Mem) (finish endFloor : ℕ) (result : Text) : Except Failure Text :=
  if finish ≠ 32 * endFloor then do
    let hexStringEnd ← wordText mem endFloor result
    let bytesToRetrieve := finish - 32 * endFloor
    return result ++ hexStringEnd.take (bytesToRetrieve * 2)
  else return result

def getFromMemory (mem : Mem) (ctx offset length : ℕ) : Except Failure Text := do
  let init := rangeInit ctx offset
  let finish := rangeEnd ctx offset length
  let initCeil ← toUint64 ((init + 31) / 32)
  let initFloor ← toUint64 (init / 32)
  let endFloor ← toUint64 (finish / 32)
  let result ← firstText mem init initCeil initFloor
  let result ← appendWords mem (endFloor - initCeil) initCeil result
  let result ← appendLast mem finish endFloor result
  return result.take (length % 2 ^ 64 * 2 % 2 ^ 64)

/-! ## Words -/

/-- The 32 bytes of a word. -/
def wordBytes (mem : Mem) (i : ℕ) : List UInt8 :=
  bytes 32 ((mem i).elim 0 fun fea => (fea2scalar 0 fea).2)

/-- All elements of the words have 32 bits. -/
def IsWords (mem : Mem) : Prop := ∀ i fea, mem i = some fea → (fea2scalar 0 fea).1 = true

theorem length_wordBytes (mem : Mem) (i : ℕ) : (wordBytes mem i).length = 32 := length_bytes _ _

theorem ba2string_append (xs ys : List UInt8) : ba2string (xs ++ ys) = ba2string xs ++ ba2string ys :=
  List.flatMap_append

theorem ba2string_take (xs : List UInt8) (k : ℕ) : ba2string (xs.take k) = (ba2string xs).take (k * 2) := by
  have hsplit := ba2string_append (xs.take k) (xs.drop k)
  rw [List.take_append_drop] at hsplit
  by_cases hk : k ≤ xs.length
  · have hlength := length_ba2string (xs.take k)
    rw [List.length_take, Nat.min_eq_left hk, Nat.mul_comm] at hlength
    rw [hsplit, List.take_left' hlength]
  · have hlength := length_ba2string xs
    rw [List.take_of_length_le (by omega), List.take_of_length_le (by omega)]

theorem ba2string_drop (xs : List UInt8) (k : ℕ) : ba2string (xs.drop k) = (ba2string xs).drop (k * 2) := by
  have hsplit := ba2string_append (xs.take k) (xs.drop k)
  rw [List.take_append_drop] at hsplit
  have htake := ba2string_take xs k
  have happend := List.take_append_drop (k * 2) (ba2string xs)
  rw [← htake] at happend
  exact List.append_cancel_left (hsplit.symm.trans happend.symm)

/-- A fixed number of digits. -/
def digits16 : ℕ → ℕ → Text
  | 0, _ => []
  | k + 1, n => digits16 k (n / 16) ++ [byte2char (n % 16).toUInt8]

theorem digits16_zero (k : ℕ) : digits16 k 0 = List.replicate k 48 := by
  induction k with
  | zero => rfl
  | succ k ih =>
    have hzero : digits16 (k + 1) 0 = digits16 k 0 ++ [48] := rfl
    rw [hzero, ih, List.replicate_succ']

theorem zeros_append_digits (k n : ℕ) (h : n < 16 ^ k) :
    List.replicate (k - (Nat.digits 16 n).length) 48 ++
      (Nat.digits 16 n).reverse.map (fun d => byte2char d.toUInt8) = digits16 k n := by
  induction k generalizing n with
  | zero =>
    obtain rfl : n = 0 := by simpa using h
    rfl
  | succ k ih =>
    by_cases hzero : n = 0
    · rw [hzero, digits16_zero]
      simp
    · have hlt : n / 16 < 16 ^ k := by
        rw [Nat.pow_succ] at h
        exact Nat.div_lt_of_lt_mul (by omega)
      rw [Nat.digits_def' (by decide) (Nat.pos_of_ne_zero hzero), List.length_cons, Nat.succ_sub_succ,
        List.reverse_cons, List.map_append, ← List.append_assoc, ih _ hlt]
      rfl

theorem ba2string_bytes (k n : ℕ) : ba2string (bytes k n) = digits16 (2 * k) n := by
  induction k generalizing n with
  | zero => rfl
  | succ k ih =>
    have hdigits : ba2string [n.toUInt8] =
        [byte2char (n / 16 % 16).toUInt8, byte2char (n % 16).toUInt8] := by
      have hhigh : n.toUInt8 >>> 4 = (n / 16 % 16).toUInt8 := by
        apply UInt8.toNat_inj.mp
        simp only [UInt8.toNat_shiftRight, Nat.toUInt8_eq, UInt8.toNat_ofNat', Nat.shiftRight_eq_div_pow]
        simp
        omega
      have hlow : n.toUInt8 &&& 0x0F = (n % 16).toUInt8 := by
        apply UInt8.toNat_inj.mp
        have hand := Nat.and_two_pow_sub_one_eq_mod (n % 256) 4
        simp only [UInt8.toNat_and, Nat.toUInt8_eq, UInt8.toNat_ofNat']
        simp at hand ⊢
        omega
      show [byte2char (n.toUInt8 >>> 4), byte2char (n.toUInt8 &&& 0x0F)] = _
      rw [hhigh, hlow]
    have hsucc : digits16 (2 * (k + 1)) n =
        digits16 (2 * k) (n / 16 / 16) ++ [byte2char (n / 16 % 16).toUInt8] ++
          [byte2char (n % 16).toUInt8] := rfl
    rw [bytes_succ, ba2string_append, ih, hdigits, hsucc, Nat.div_div_eq_div_mul, List.append_assoc]
    rfl

theorem zeros_append_getStr {k n : ℕ} (hk : 0 < k) (h : n < 16 ^ k) :
    List.replicate (k - (getStr 16 n).length) 48 ++ getStr 16 n = digits16 k n := by
  have hneg : ¬(n : ℤ) < 0 := Int.not_lt.mpr (Int.natCast_nonneg n)
  unfold getStr
  dsimp only
  rw [if_neg hneg]
  by_cases hzero : n = 0
  · rw [hzero, digits16_zero]
    show List.replicate (k - 1) 48 ++ [48] = _
    rw [← List.replicate_succ', Nat.sub_add_cancel hk]
  · have hne : ¬(n : ℤ) = 0 := fun heq => hzero (Int.natCast_eq_zero.mp heq)
    rw [if_neg hne, List.length_map, List.length_reverse]
    exact zeros_append_digits k n h

/-- The text of a number with zeros in front is that of its bytes. -/
theorem prependZeros_getStr {n : ℕ} (h : n < 16 ^ 64) :
    prependZeros (getStr 16 n) 64 = pure (ba2string (bytes 32 n)) := by
  have hlen := length_getStr 16 (by decide) (Int.natCast_nonneg n) (k := 64) (by decide)
    (Int.ofNat_lt.mpr h)
  rw [prependZeros_eq le_rfl hlen, zeros_append_getStr (by decide) h, ba2string_bytes]

/-- The text of a word is that of its bytes. -/
theorem wordText_eq {mem : Mem} (hmem : IsWords mem) (i : ℕ) (result : Text) :
    wordText mem i result = pure (ba2string (wordBytes mem i)) := by
  have hpow : (16 : ℕ) ^ 64 = 2 ^ 256 := by norm_num
  unfold wordText wordBytes
  cases hi : mem i with
  | none =>
    have htext := prependZeros_getStr (n := 0) (by decide)
    show (match prependZeros (getStr 16 ((0 : ℕ) : ℤ)) 64 with
      | .ok text => pure text
      | .error stop => throw (.stopped stop) : Except Failure Text) = _
    rw [htext]
    rfl
  | some fea =>
    rcases hfea : fea2scalar 0 fea with ⟨ok, memScalar⟩
    have hok := hmem i fea hi
    rw [hfea] at hok
    obtain rfl : ok = true := hok
    have htext := prependZeros_getStr (n := memScalar) (by
      rw [hpow]
      exact fea2scalar_lt hfea)
    dsimp only [Option.elim_some]
    rw [hfea]
    dsimp only
    rw [pure_bind, htext]
    rfl

theorem appendWords_eq {mem : Mem} (hmem : IsWords mem) (count i : ℕ) (read : List UInt8) :
    appendWords mem count i (ba2string read) =
      pure (ba2string (read ++ (List.range' i count).flatMap (wordBytes mem))) := by
  induction count generalizing i read with
  | zero =>
    rw [List.range'_zero, List.flatMap_nil, List.append_nil]
    rfl
  | succ count ih =>
    unfold appendWords
    rw [wordText_eq hmem, pure_bind, ← ba2string_append, ih, List.range'_succ, List.flatMap_cons,
      List.append_assoc]

/-! ## The range that is read -/

section Range

variable {mem : Mem} (hmem : IsWords mem)

include hmem

theorem firstText_eq (init : ℕ) :
    firstText mem init ((init + 31) / 32) (init / 32) =
      pure (ba2string (if init % 32 ≠ 0 then (wordBytes mem (init / 32)).drop (init % 32) else [])) := by
  unfold firstText
  by_cases h : init % 32 = 0
  · rw [if_neg (by omega), if_neg (not_not.mpr h)]
    rfl
  · have hskip : init - 32 * (init / 32) = init % 32 := by omega
    have hlength := length_ba2string ((wordBytes mem (init / 32)).drop (init % 32))
    rw [List.length_drop, length_wordBytes] at hlength
    rw [if_pos (by omega), if_pos h, wordText_eq hmem, pure_bind, hskip]
    dsimp only
    rw [← ba2string_drop,
      List.take_of_length_le (by omega)]

theorem appendLast_eq (finish : ℕ) (read : List UInt8) :
    appendLast mem finish (finish / 32) (ba2string read) =
      pure (ba2string (read ++
        if finish % 32 ≠ 0 then (wordBytes mem (finish / 32)).take (finish % 32) else [])) := by
  unfold appendLast
  by_cases h : finish % 32 = 0
  · rw [if_neg (by omega), if_neg (not_not.mpr h), List.append_nil]
  · have hretrieve : finish - 32 * (finish / 32) = finish % 32 := by omega
    rw [if_pos (by omega), if_pos h, wordText_eq hmem, pure_bind, hretrieve]
    dsimp only
    rw [← ba2string_take, ← ba2string_append]

/-- The text is that of the bytes between the two positions. -/
theorem getFromMemory_eq {ctx offset length : ℕ} (hlength : length < 2 ^ 53)
    (hceil : (rangeInit ctx offset + 31) / 32 < 2 ^ 64)
    (hend : rangeEnd ctx offset length / 32 < 2 ^ 64) :
    getFromMemory mem ctx offset length =
      .ok (ba2string ((cellRange 32 (wordBytes mem) (rangeInit ctx offset)
        (rangeEnd ctx offset length)).take length)) := by
  have hinit : rangeInit ctx offset / 32 < 2 ^ 64 := by omega
  have hcount : length % 2 ^ 64 * 2 % 2 ^ 64 = length * 2 := by omega
  unfold getFromMemory toUint64
  dsimp only
  rw [if_pos hceil, if_pos hinit, if_pos hend, pure_bind, pure_bind, pure_bind, firstText_eq hmem,
    pure_bind, appendWords_eq hmem, pure_bind, appendLast_eq hmem, pure_bind, hcount, ← ba2string_take]
  have hround : rangeInit ctx offset + 32 - 1 = rangeInit ctx offset + 31 := Nat.add_sub_assoc (by decide) _
  unfold cellRange
  rw [hround]
  rfl

omit hmem in
variable (mem) in
/-- Nothing is read where a position is too great. -/
theorem getFromMemory_of_not_lt {ctx offset length : ℕ}
    (h : ¬((rangeInit ctx offset + 31) / 32 < 2 ^ 64 ∧ rangeEnd ctx offset length / 32 < 2 ^ 64)) :
    ∃ failure, getFromMemory mem ctx offset length = .error failure := by
  unfold getFromMemory toUint64
  dsimp only
  by_cases hceil : (rangeInit ctx offset + 31) / 32 < 2 ^ 64
  · have hinit : rangeInit ctx offset / 32 < 2 ^ 64 := by omega
    have hend : ¬rangeEnd ctx offset length / 32 < 2 ^ 64 := fun hend => h ⟨hceil, hend⟩
    rw [if_pos hceil, if_pos hinit, if_neg hend]
    exact ⟨_, rfl⟩
  · rw [if_neg hceil]
    exact ⟨_, rfl⟩

end Range

/-! ## Slices of the memory -/

/-- The bytes of the memory of a context from an offset on. -/
def memorySlice (mem : Mem) (ctx offset length : ℕ) : List UInt8 :=
  cells 32 (wordBytes mem) (32 * addrMem ctx + offset) length

/-- The words of the range have addresses of type `uint64_t`.  Where the range is not empty, its first
position is a `double`, and rounding does not bring its end forward, or the range is inside of a word that
it does not begin with. -/
structure Exact (ctx offset length : ℕ) : Prop where
  ceil_lt : (toDouble (32 * addrMem ctx + offset) + 31) / 32 < 2 ^ 64
  end_lt : toDouble (32 * addrMem ctx + toDouble (offset + length)) / 32 < 2 ^ 64
  exact : length ≠ 0 → toDouble (32 * addrMem ctx + offset) = 32 * addrMem ctx + offset ∧
    (32 * addrMem ctx + offset + length ≤ toDouble (32 * addrMem ctx + toDouble (offset + length)) ∨
      (32 * addrMem ctx + offset) % 32 ≠ 0 ∧ (32 * addrMem ctx + offset) % 32 + length ≤ 32)

theorem addrMem_dvd (ctx : ℕ) : ∃ k < 2 ^ 47, addrMem ctx = k * 2 ^ 17 := by
  unfold addrMem
  refine ⟨(ctx * 0x40000 % 2 ^ 64 + 0x20000) % 2 ^ 64 / 2 ^ 17, by omega, by omega⟩

/-- Where the memory of a context begins is a `double`. -/
theorem toDouble_addrMem (ctx : ℕ) : toDouble (32 * addrMem ctx) = 32 * addrMem ctx := by
  obtain ⟨k, hk, heq⟩ := addrMem_dvd ctx
  have hmul : 32 * (k * 2 ^ 17) = k * 2 ^ 22 := by ring
  rw [heq, hmul]
  exact roundEven_mul_pow (by decide) (hk.trans (by decide))

theorem rangeInit_eq (ctx : ℕ) {offset : ℕ} (h : offset < 2 ^ 53) :
    rangeInit ctx offset = toDouble (32 * addrMem ctx + offset) := by
  have hoffset : toDouble (offset % 2 ^ 64) = offset := by
    rw [Nat.mod_eq_of_lt (by omega)]
    exact roundEven_of_lt (by decide) h
  unfold rangeInit
  rw [toDouble_addrMem, hoffset]

theorem rangeEnd_eq (ctx : ℕ) {offset length : ℕ} (hoffset : offset < 2 ^ 53) (hlength : length < 2 ^ 53) :
    rangeEnd ctx offset length = toDouble (32 * addrMem ctx + toDouble (offset + length)) := by
  unfold rangeEnd
  rw [toDouble_addrMem, Nat.mod_eq_of_lt (a := offset) (by omega), Nat.mod_eq_of_lt (a := length) (by omega),
    Nat.mod_eq_of_lt (by omega)]

theorem rangeInit_le_rangeEnd (ctx : ℕ) {offset length : ℕ} (hoffset : offset < 2 ^ 53)
    (hlength : length < 2 ^ 53) : rangeInit ctx offset ≤ rangeEnd ctx offset length := by
  rw [rangeInit_eq ctx hoffset, rangeEnd_eq ctx hoffset hlength]
  apply roundEven_monotone (by decide)
  apply Nat.add_le_add_left
  have hmono := roundEven_monotone (p := 53) (by decide) (Nat.le_add_right offset length)
  rwa [roundEven_of_lt (by decide) hoffset] at hmono

section Offsets

variable {ctx offset length : ℕ} (hoffset : offset < 2 ^ 53) (hlength : length < 2 ^ 53)

include hoffset hlength

theorem getFromMemory_of_exact (hexact : Exact ctx offset length) {mem : Mem} (hmem : IsWords mem) :
    getFromMemory mem ctx offset length = .ok (ba2string (memorySlice mem ctx offset length)) := by
  have hle := rangeInit_le_rangeEnd ctx hoffset hlength
  have hword := length_wordBytes mem
  have hceil := hexact.ceil_lt
  have hend := hexact.end_lt
  have hexact := hexact.exact
  rw [← rangeInit_eq ctx hoffset] at hceil hexact
  rw [← rangeEnd_eq ctx hoffset hlength] at hend hexact
  rw [getFromMemory_eq hmem hlength hceil hend, memorySlice]
  by_cases hzero : length = 0
  · rw [hzero, List.take_zero, cells_zero]
  · obtain ⟨hinit, hend⟩ := hexact hzero
    rw [hinit] at hle ⊢
    generalize rangeEnd ctx offset length = finish at *
    rcases ceil_le_or_inside (w := 32) (by decide) hle with hceil | ⟨hstart, hinside⟩
    · rw [cellRange_eq_cells (by decide) hword hceil, take_cells]
      omega
    · rw [cellRange_inside (by decide) hword hstart hinside, List.take_append_of_le_length, take_cells]
      · omega
      · rw [length_cells]
        omega

/-- A memory of zeros but for one byte. -/
def oneByte (a : ℕ) : Mem := fun i => if i = a / 32 then some (scalar2fea (256 ^ (31 - a % 32))) else none

omit hoffset hlength in
theorem oneByte_isWords (a : ℕ) : IsWords (oneByte a) := by
  intro i fea hi
  have hlt : 256 ^ (31 - a % 32) < 2 ^ 256 := by
    calc 256 ^ (31 - a % 32) ≤ 256 ^ 31 := Nat.pow_le_pow_right (by decide) (Nat.sub_le _ _)
      _ < 2 ^ 256 := by norm_num
  unfold oneByte at hi
  split_ifs at hi
  obtain rfl := Option.some.inj hi
  rw [fea2scalar_scalar2fea 0 hlt]

omit hoffset hlength in
theorem bytes_pow (k n : ℕ) : bytes (k + (n + 1)) (256 ^ n) = List.replicate k 0 ++ 1 :: List.replicate n 0 := by
  have hzero (n : ℕ) : value (List.replicate n 0) = 0 := by
    rw [← bytes_of_zero, value_bytes, Nat.zero_mod]
  have hvalue : value (List.replicate k 0 ++ 1 :: List.replicate n 0) = 256 ^ n := by
    rw [value_append, value_cons, hzero, hzero]
    simp
  have hbytes := bytes_value (List.replicate k 0 ++ 1 :: List.replicate n 0)
  rw [hvalue] at hbytes
  simpa using hbytes

omit hoffset hlength in
theorem getD_bytes_pow (k n j : ℕ) : (bytes (k + (n + 1)) (256 ^ n)).getD j 0 = if j = k then 1 else 0 := by
  rw [bytes_pow, List.getD_eq_getElem?_getD]
  rcases lt_trichotomy j k with hlt | rfl | hlt
  · rw [List.getElem?_append_left (by simpa using hlt), if_neg (Nat.ne_of_lt hlt)]
    simp [hlt]
  · rw [List.getElem?_append_right (by simp), if_pos rfl]
    simp
  · rw [List.getElem?_append_right (by simpa using hlt.le), if_neg (Nat.ne_of_gt hlt), List.length_replicate,
      List.getElem?_cons, if_neg (by omega), List.getElem?_replicate]
    split <;> rfl

omit hoffset hlength in
theorem cell_oneByte (a b : ℕ) :
    cell 32 (wordBytes (oneByte a)) b = if b = a then 1 else 0 := by
  have hlt : 256 ^ (31 - a % 32) < 2 ^ 256 := by
    calc 256 ^ (31 - a % 32) ≤ 256 ^ 31 := Nat.pow_le_pow_right (by decide) (Nat.sub_le _ _)
      _ < 2 ^ 256 := by norm_num
  unfold cell wordBytes oneByte
  by_cases hword : b / 32 = a / 32
  · have hbyte := getD_bytes_pow (a % 32) (31 - a % 32) (b % 32)
    have hwidth : a % 32 + (31 - a % 32 + 1) = 32 := by omega
    rw [hwidth] at hbyte
    rw [if_pos hword, Option.elim_some, fea2scalar_scalar2fea 0 hlt]
    refine hbyte.trans ?_
    by_cases hab : b = a
    · rw [if_pos hab, if_pos (congrArg (· % 32) hab)]
    · rw [if_neg hab, if_neg fun heq => hab ?_]
      omega
  · have hab : b ≠ a := fun hab => hword (congrArg (· / 32) hab)
    have hzero : ∀ j : Fin 32, (bytes 32 0).getD j.val 0 = 0 := by decide
    rw [if_neg hword, if_neg hab]
    exact hzero ⟨b % 32, by omega⟩

omit hoffset in
theorem range_of_slice {mem : Mem} (hmem : IsWords mem)
    (hslice : getFromMemory mem ctx offset length = .ok (ba2string (memorySlice mem ctx offset length))) :
    (rangeInit ctx offset + 31) / 32 < 2 ^ 64 ∧ rangeEnd ctx offset length / 32 < 2 ^ 64 ∧
      (cellRange 32 (wordBytes mem) (rangeInit ctx offset) (rangeEnd ctx offset length)).take length =
        memorySlice mem ctx offset length := by
  have hdefined : (rangeInit ctx offset + 31) / 32 < 2 ^ 64 ∧
      rangeEnd ctx offset length / 32 < 2 ^ 64 := by
    by_contra hnot
    obtain ⟨failure, hfailure⟩ := getFromMemory_of_not_lt mem hnot
    rw [hfailure] at hslice
    exact nomatch hslice
  refine ⟨hdefined.1, hdefined.2, ?_⟩
  rw [getFromMemory_eq hmem hlength hdefined.1 hdefined.2] at hslice
  have htext := congrArg hexBytes (Except.ok.inj hslice)
  rw [hexBytes_ba2string, hexBytes_ba2string] at htext
  exact Option.some.inj htext

/-- A memory with one byte at the beginning of the range tells where the range begins. -/
theorem init_of_slice (hzero : length ≠ 0)
    (hslice : getFromMemory (oneByte (32 * addrMem ctx + offset)) ctx offset length =
      .ok (ba2string (memorySlice (oneByte (32 * addrMem ctx + offset)) ctx offset length))) :
    rangeInit ctx offset = 32 * addrMem ctx + offset := by
  by_contra hne
  have hword := length_wordBytes (oneByte (32 * addrMem ctx + offset))
  have hle := rangeInit_le_rangeEnd ctx hoffset hlength
  obtain ⟨-, -, heq⟩ := range_of_slice hlength (oneByte_isWords _) hslice
  obtain ⟨count, rfl⟩ := Nat.exists_eq_succ_of_ne_zero hzero
  rw [memorySlice, cells_succ, cell_oneByte, if_pos rfl] at heq
  rcases cellRange_eq_nil_or_cons (w := 32) (by decide) hword hle with hnil | ⟨rest, hcons⟩
  · rw [hnil] at heq
    exact nomatch heq
  · rw [hcons, cell_oneByte, if_neg hne, List.take_succ_cons] at heq
    exact absurd (List.cons.inj heq).1 (by decide)

omit hoffset hlength in
/-- A memory with one byte after the first word tells whether the range is put together from the right
words. -/
theorem end_of_slice {start finish : ℕ} (hle : start ≤ finish)
    (heq : (cellRange 32 (wordBytes (oneByte (32 * (start / 32) + 32))) start finish).take length =
      cells 32 (wordBytes (oneByte (32 * (start / 32) + 32))) start length) :
    start + length ≤ finish ∨ start % 32 ≠ 0 ∧ start % 32 + length ≤ 32 := by
  have hword := length_wordBytes (oneByte (32 * (start / 32) + 32))
  rcases ceil_le_or_inside (w := 32) (by decide) hle with hceil | ⟨hstart, hinside⟩
  · left
    rw [cellRange_eq_cells (by decide) hword hceil] at heq
    have hlen := congrArg List.length heq
    rw [List.length_take, length_cells, length_cells] at hlen
    omega
  · right
    refine ⟨hstart, ?_⟩
    by_contra hlong
    have hget := congrArg (fun bytes : List UInt8 => bytes.getD (32 - start % 32) default) heq
    have hposition : start + (32 - start % 32) = 32 * (start / 32) + 32 := by omega
    rw [getD_cells 32 _ (by omega), cell_oneByte, if_pos hposition,
      cellRange_inside (by decide) hword hstart hinside, List.getD_eq_getElem?_getD,
      List.getElem?_take_of_lt (by omega), List.getElem?_append_right (length_cells _ _ _ _).le,
      length_cells, Nat.sub_self] at hget
    cases hfinish : finish % 32 with
    | zero =>
      rw [hfinish, cells_zero] at hget
      exact absurd hget (by decide)
    | succ count =>
      rw [hfinish, cells_succ, cell_oneByte, if_neg (by omega), List.getElem?_cons_zero,
        Option.getD_some] at hget
      exact absurd hget (by decide)

/-- The text is the slice of every memory exactly when the positions that are computed are good enough. -/
theorem getFromMemory_slice_iff :
    (∀ mem, IsWords mem →
      getFromMemory mem ctx offset length = .ok (ba2string (memorySlice mem ctx offset length))) ↔
      Exact ctx offset length := by
  constructor
  · intro hslice
    obtain ⟨hceil, hend, -⟩ := range_of_slice hlength (show IsWords fun _ => none from nofun) (hslice _ nofun)
    rw [rangeInit_eq ctx hoffset] at hceil
    rw [rangeEnd_eq ctx hoffset hlength] at hend
    refine ⟨hceil, hend, fun hzero => ?_⟩
    have hinit := init_of_slice hoffset hlength hzero (hslice _ (oneByte_isWords _))
    have hle := rangeInit_le_rangeEnd ctx hoffset hlength
    have hmem := oneByte_isWords (32 * ((32 * addrMem ctx + offset) / 32) + 32)
    obtain ⟨-, -, heq⟩ := range_of_slice hlength hmem (hslice _ hmem)
    rw [hinit, rangeEnd_eq ctx hoffset hlength] at hle heq
    rw [rangeInit_eq ctx hoffset] at hinit
    exact ⟨hinit, end_of_slice hle heq⟩
  · intro hexact mem hmem
    exact getFromMemory_of_exact hoffset hlength hexact hmem

omit hoffset hlength in
/-- Ranges that end within the first `2 ^ 53` bytes of all memory. -/
theorem exact_of_le (h : 32 * addrMem ctx + offset + length ≤ 2 ^ 53) : Exact ctx offset length := by
  have hinit : toDouble (32 * addrMem ctx + offset) = 32 * addrMem ctx + offset :=
    roundEven_of_le (by decide) (by omega)
  have hsum : toDouble (offset + length) = offset + length := roundEven_of_le (by decide) (by omega)
  have hend : toDouble (32 * addrMem ctx + (offset + length)) = 32 * addrMem ctx + offset + length := by
    rw [← Nat.add_assoc]
    exact roundEven_of_le (by decide) h
  rw [← hsum] at hend
  refine ⟨?_, ?_, fun _ => ⟨hinit, .inl hend.ge⟩⟩
  · rw [hinit]
    omega
  · rw [hend]
    omega

end Offsets

theorem getFromMemory_slice_sample :
    (∀ mem, IsWords mem → getFromMemory mem 1 5 60 = .ok (ba2string (memorySlice mem 1 5 60))) ↔
      Exact 1 5 60 :=
  getFromMemory_slice_iff (by decide) (by decide)

/-- The last byte below `2 ^ 53` in the memory of the first context is read from the next position. -/
theorem getFromMemory_not_slice :
    ¬∀ (mem : Mem) (ctx offset length : ℕ), IsWords mem → offset < 2 ^ 53 → length < 2 ^ 53 →
      getFromMemory mem ctx offset length = .ok (ba2string (memorySlice mem ctx offset length)) := by
  intro hall
  have hslice := hall (oneByte (32 * addrMem 0 + (2 ^ 53 - 1))) 0 (2 ^ 53 - 1) 1 (oneByte_isWords _)
    (by decide) (by decide)
  have hinit := init_of_slice (by decide) (by decide) (by decide) hslice
  rw [rangeInit_eq 0 (by decide)] at hinit
  exact absurd hinit (by decide)

end ZkevmProver.FullTracer
