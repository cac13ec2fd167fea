import ZkevmProver.Lib.Rlp
import ZkevmProver.Utils.Text

/-!
# The hash of a transaction

The tracer hashes the recursive length prefix of the nine fields of a transaction.  Scalars are written
from their value, the other two fields from hexadecimal text.

  1. The functions of the source.
  2. Scalars.
  3. Hexadecimal text.
  4. The fields of a transaction.
-/

namespace ZkevmProver.FullTracer

open BigEndian Rlp

/-! ## The functions of the source -/

/-- The loop of `coding`: at most `count` more bytes. -/
def codingBytes : ℕ → ℕ → List UInt8 → List UInt8
  | 0, _, blen => blen
  | count + 1, value, blen =>
    if value ≠ 0 then codingBytes count (value >>> 8) (value.toUInt8 :: blen) else blen

/-- It returns the number of bytes, and the data with them at its end. -/
def coding (data : List UInt8) (value : ℕ) (codingBase : UInt8) : ℕ × List UInt8 :=
  let blen := codingBytes 32 value []
  let index := blen.length
  let data := if codingBase ≠ 0 then data ++ [codingBase + index.toUInt8] else data
  (index, data ++ blen)

/-- The length is a `uint32_t`. -/
def encodeLen (data : List UInt8) (len : ℕ) (composed : Bool) : List UInt8 :=
  let encodeType : UInt8 := if composed then 0xc0 else 0x80
  if len ≤ 55 then data ++ [encodeType + len.toUInt8] else (coding data len (encodeType + 55)).2

def encode (data : List UInt8) (value : ℕ) : List UInt8 :=
  if value ≠ 0 ∧ value ≤ 127 then data ++ [value.toUInt8] else (coding data value 0x80).2

/-- The table; `none` for the characters that are negative, which are read outside of it. -/
def ASCIIHexToInt (c : UInt8) : Option ℤ :=
  if c < 128 then some ((char2byte c).elim (-1000) fun d => d.toNat) else none

/-- The loop of `encodeHexValue` where an even number of digits is left. -/
def encodeHexPairs : Text → List UInt8 → Option (Bool × List UInt8)
  | [], data => some (true, data)
  | [_], _ => none
  | c :: d :: hex, data => do
    let value := (← ASCIIHexToInt c) * 16 + (← ASCIIHexToInt d)
    if value < 0 then return (false, data)
    encodeHexPairs hex (data ++ [value.toNat.toUInt8])

/-- A size made an `int`. -/
@[irreducible] def toInt (size : ℕ) : ℤ := Int.bmod size (2 ^ 32)

/-- The length and the digits without the characters `0x`. -/
def skip0x (len : ℤ) (phex : Text) : ℤ × Text :=
  if 2 ≤ len ∧ phex.take 2 = [48, 120] then (len - 2, phex.drop 2) else (len, phex)

/-- The loop of `encodeHexValue`, which reads the first digit alone when their number is odd. -/
def encodeHexDigits (data : List UInt8) (len : ℤ) (phex : Text) : Option (Bool × List UInt8) :=
  let digits := phex.take len.toNat
  if len % 2 = 0 then encodeHexPairs digits data
  else
    match digits with
    | [] => some (true, data)
    | c :: digits => do
      let value ← ASCIIHexToInt c
      if value < 0 then return (false, data)
      encodeHexPairs digits (data ++ [value.toNat.toUInt8])

def encodeHexValue (data : List UInt8) (hex : Text) : Option (Bool × List UInt8) :=
  let p := skip0x (toInt hex.length) hex
  encodeHexDigits data p.1 p.2

def getHexValueLen (hex : Text) : ℤ :=
  let len := (skip0x (toInt hex.length) hex).1
  let len := if len % 2 ≠ 0 then len + 1 else len
  len >>> (1 : ℕ)

/-- The `int` made a `uint32_t`. -/
def toUint32 (len : ℤ) : ℕ := (len % 2 ^ 32).toNat

/-- The characters of a string are signed. -/
def encodeHexData (data : List UInt8) (hex : Text) : Option (Bool × List UInt8) :=
  let len := getHexValueLen hex
  if len = 1 then do
    let (res, edata) ← encodeHexValue [] hex
    let data :=
      if edata.length ≠ 1 ∨ 0x80 ≤ (charAt edata 0).toInt8.toInt then encodeLen data (toUint32 len) false
      else data
    return (res, data ++ edata)
  else encodeHexValue (encodeLen data (toUint32 len) false) hex

/-- The arguments: the scalars are `uint64_t`, or come from field elements of 32 bits each. -/
structure TxParams where
  to' : Text
  value : ℕ
  nonce : ℕ
  gasLimit : ℕ
  gasPrice : ℕ
  data : Text
  r : ℕ
  s : ℕ
  v : ℕ
  value_lt : value < 2 ^ 256
  nonce_lt : nonce < 2 ^ 64
  gasLimit_lt : gasLimit < 2 ^ 64
  gasPrice_lt : gasPrice < 2 ^ 256
  r_lt : r < 2 ^ 256
  s_lt : s < 2 ^ 256
  v_lt : v < 2 ^ 64

/-- The hash of the transaction, and the bytes that are hashed.  A text that is not hexadecimal is
logged, and what was written of it stays. -/
def getTransactionHash {Hash : Type} (keccak256 : List UInt8 → Hash) (tx : TxParams) :
    Option (Hash × List UInt8) := do
  let raw := encode [] tx.nonce
  let raw := encode raw tx.gasPrice
  let raw := encode raw tx.gasLimit
  let (_, raw) ← encodeHexData raw tx.to'
  let raw := encode raw tx.value
  let (_, raw) ← encodeHexData raw tx.data
  let raw := encode raw tx.v
  let raw := encode raw tx.r
  let raw := encode raw tx.s
  let rlpTx := encodeLen [] (raw.length % 2 ^ 32) true ++ raw
  return (keccak256 rlpTx, rlpTx)

/-! ## Scalars -/

theorem codingBytes_eq (count value : ℕ) (blen : List UInt8) (h : value < 256 ^ count) :
    codingBytes count value blen = shortest value ++ blen := by
  induction count generalizing value blen with
  | zero =>
    obtain rfl : value = 0 := by simpa using h
    rfl
  | succ count ih =>
    have hdiv : value >>> 8 = value / 256 := Nat.shiftRight_eq_div_pow value 8
    unfold codingBytes
    rw [hdiv]
    by_cases hzero : value = 0
    · rw [hzero]
      rfl
    · have hlt : value / 256 < 256 ^ count := by
        rw [Nat.pow_succ] at h
        exact Nat.div_lt_of_lt_mul (by omega)
      rw [if_pos hzero, ih _ _ hlt, shortest_of_pos (Nat.pos_of_ne_zero hzero), List.append_assoc,
        List.singleton_append]

theorem coding_eq (data : List UInt8) {value : ℕ} (codingBase : UInt8) (hvalue : value < 256 ^ 32)
    (hbase : codingBase ≠ 0) :
    (coding data value codingBase).2 =
      data ++ (codingBase + (width value).toUInt8) :: shortest value := by
  have hbytes := codingBytes_eq 32 value [] hvalue
  rw [List.append_nil] at hbytes
  unfold coding
  dsimp only
  rw [hbytes, if_pos hbase, length_shortest, List.append_assoc, List.singleton_append]

/-- The header of a length. -/
theorem encodeLen_eq (data : List UInt8) {len : ℕ} (composed : Bool) (h : len < 2 ^ 32) :
    encodeLen data len composed = data ++ header (if composed then 0xc0 else 0x80) len := by
  unfold encodeLen header
  by_cases hlen : len ≤ 55
  · rw [if_pos hlen, if_pos hlen]
    cases composed <;> simp
  · have hvalue : len < 256 ^ 32 := h.trans (by decide)
    rw [if_neg hlen, if_neg hlen, coding_eq data _ hvalue (by cases composed <;> decide)]
    cases composed <;> simp [Nat.toUInt8_eq]

/-- A scalar is written as its shortest bytes. -/
theorem encode_eq (data : List UInt8) {value : ℕ} (h : value < 2 ^ 256) :
    encode data value = data ++ encodeBytes (shortest value) := by
  have hvalue : value < 256 ^ 32 := by omega
  have hcoding := coding_eq data 0x80 hvalue (by decide)
  have hwidth : width value ≤ 32 := width_le.mpr hvalue
  have hheader : header 0x80 (width value) = [(0x80 + (width value).toUInt8 : UInt8)] := by
    rw [header_short (by omega)]
    simp
  unfold encode
  by_cases hzero : value = 0
  · rw [if_neg (fun h => h.1 hzero), hcoding, hzero]
    rfl
  · have hpos := Nat.pos_of_ne_zero hzero
    by_cases hsmall : value < 256
    · have hone : shortest value = [value.toUInt8] := by
        rw [shortest_of_pos hpos, Nat.div_eq_of_lt hsmall]
        rfl
      have hw : width value = 1 := by rw [← length_shortest, hone, List.length_singleton]
      rw [hw] at hheader hcoding
      rw [hcoding, hone, encodeBytes_singleton, hheader]
      have hle : value.toUInt8 ≤ 0x7f ↔ value ≤ 127 := by
        rw [UInt8.le_iff_toNat_le]
        simp only [Nat.toUInt8_eq, UInt8.toNat_ofNat']
        rw [Nat.mod_eq_of_lt hsmall]
        rfl
      by_cases hle127 : value ≤ 127
      · rw [if_pos ⟨hzero, hle127⟩, if_pos (hle.mpr hle127)]
      · rw [if_neg (fun h => hle127 h.2), if_neg (fun h => hle127 (hle.mp h))]
        rfl
    · have hlong : 1 < (shortest value).length := by
        rw [length_shortest, lt_width]
        omega
      rw [if_neg (by omega), hcoding]
      unfold encodeBytes
      split
      · next b hb =>
        rw [hb] at hlong
        exact absurd hlong (by simp)
      · rw [length_shortest, hheader]
        rfl

/-! ## Hexadecimal text -/

/-- The digits of the text, after `0x` where it begins so, are those of the bytes. -/
def HexText (hex : Text) (bytes : List UInt8) : Prop := hexBytes (remove0xIfPresent hex) = some bytes

instance (hex : Text) (bytes : List UInt8) : Decidable (HexText hex bytes) :=
  inferInstanceAs (Decidable (_ = _))

/-- A text whose size is an `int`, and which is not a single byte with its highest bit set. -/
def Encodable (hex : Text) (bytes : List UInt8) : Prop :=
  hex.length < 2 ^ 31 ∧ ∀ b, bytes = [b] → b < 0x80

theorem ASCIIHexToInt_eq {c d : UInt8} (h : char2byte c = some d) :
    ASCIIHexToInt c = some (d.toNat : ℤ) ∧ d < 16 ∧ c ≠ 120 := by
  have hall := forall_uint8 (p := fun c => (char2byte c).all fun d => c < 128 ∧ d < 16 ∧ c ≠ 120)
    (by decide +kernel) c
  rw [h, Option.all_some, decide_eq_true_eq] at hall
  unfold ASCIIHexToInt
  rw [if_pos hall.1, h]
  exact ⟨rfl, hall.2⟩

theorem hexBytes_cons {c d : UInt8} {hex bytes : List UInt8} (h : hexBytes (c :: d :: hex) = some bytes) :
    ∃ high low rest, char2byte c = some high ∧ char2byte d = some low ∧ hexBytes hex = some rest ∧
      bytes = (16 * high + low) :: rest := by
  unfold hexBytes at h
  obtain ⟨high, hhigh, h⟩ := Option.bind_eq_some_iff.mp h
  obtain ⟨low, hlow, h⟩ := Option.bind_eq_some_iff.mp h
  obtain ⟨rest, hrest, h⟩ := Option.bind_eq_some_iff.mp h
  exact ⟨high, low, rest, hhigh, hlow, hrest, (Option.some.inj h).symm⟩

/-- As many bytes are written as there are pairs of digits. -/
theorem encodeHexPairs_take {hex bytes : List UInt8} (h : hexBytes hex = some bytes) (k : ℕ)
    (data : List UInt8) :
    encodeHexPairs (hex.take (2 * k)) data = some (true, data ++ bytes.take k) := by
  induction k generalizing hex bytes data with
  | zero => simp [encodeHexPairs]
  | succ k ih =>
    match hex with
    | [] =>
      obtain rfl : [] = bytes := Option.some.inj h
      simp [encodeHexPairs]
    | [_] => cases h
    | c :: d :: hex =>
      obtain ⟨high, low, rest, hhigh, hlow, hrest, rfl⟩ := hexBytes_cons h
      obtain ⟨hc, hhigh16, -⟩ := ASCIIHexToInt_eq hhigh
      obtain ⟨hd, hlow16, -⟩ := ASCIIHexToInt_eq hlow
      have hbyte : ((high.toNat : ℤ) * 16 + low.toNat).toNat.toUInt8 = 16 * high + low := by
        have hnat : ((high.toNat : ℤ) * 16 + low.toNat).toNat = 16 * high.toNat + low.toNat := by omega
        rw [hnat, Nat.toUInt8_eq, UInt8.ofNat_add, UInt8.ofNat_mul, UInt8.ofNat_toNat, UInt8.ofNat_toNat]
        rfl
      have hnonneg : ¬(high.toNat : ℤ) * 16 + low.toNat < 0 := by omega
      have htake : (c :: d :: hex).take (2 * (k + 1)) = c :: d :: hex.take (2 * k) := rfl
      rw [htake]
      unfold encodeHexPairs
      rw [hc, hd]
      dsimp only [Option.bind_eq_bind, Option.bind_some]
      rw [if_neg hnonneg, hbyte, ih hrest, List.append_assoc]
      rfl

theorem length_hexBytes {hex bytes : List UInt8} (h : hexBytes hex = some bytes) :
    hex.length = 2 * bytes.length := by
  fun_induction hexBytes hex generalizing bytes with
  | case1 =>
    obtain rfl : [] = bytes := Option.some.inj h
    rfl
  | case2 => cases h
  | case3 c d hex ih =>
    obtain ⟨high, low, rest, -, -, hrest, rfl⟩ := hexBytes_cons (c := c) (d := d) (by unfold hexBytes; exact h)
    rw [List.length_cons, List.length_cons, List.length_cons, ih hrest]
    omega

theorem toInt_spec (size : ℕ) :
    ∃ wraps : ℕ, toInt size = size - 2 ^ 32 * wraps ∧ -2 ^ 31 ≤ toInt size ∧ toInt size < 2 ^ 31 := by
  have hbmod := Int.bmod_def (size : ℤ) (2 ^ 32)
  unfold toInt
  refine ⟨(size + 2 ^ 31) / 2 ^ 32, ?_⟩
  split_ifs at hbmod <;> omega

theorem skip0x_cons {len : ℤ} (h : 2 ≤ len) (digits : Text) :
    skip0x len (48 :: 120 :: digits) = (len - 2, digits) := if_pos ⟨h, rfl⟩

theorem skip0x_of_lt {len : ℤ} (h : len < 2) (hex : Text) : skip0x len hex = (len, hex) :=
  if_neg fun hif => Int.not_le.mpr h hif.1

theorem skip0x_of_not {hex : Text} (h : ¬Has0x hex) (len : ℤ) : skip0x len hex = (len, hex) := by
  apply if_neg
  rintro ⟨-, htake⟩
  apply h
  refine ⟨hex.drop 2, ?_⟩
  conv_lhs => rw [← List.take_append_drop 2 hex, htake]
  rfl

/-- What is left of a text of `2 * k` characters by its size: the digits of `k` bytes. -/
theorem skip0x_spec {hex : Text} {bytes : List UInt8} (h : HexText hex bytes) :
    ∃ (k : ℤ) (phex : Text), skip0x (toInt hex.length) hex = (2 * k, phex) ∧
      phex.take (2 * k).toNat = (remove0xIfPresent hex).take (2 * k.toNat) ∧
      -2 ^ 30 ≤ k ∧ k < 2 ^ 30 ∧ (hex.length < 2 ^ 31 → k = bytes.length) ∧
      (2 ^ 31 ≤ hex.length → k < bytes.length ∧ 2 ^ 30 - 1 ≤ bytes.length) := by
  have hdigits := length_hexBytes h
  obtain ⟨wraps, hint, hlow, hhigh⟩ := toInt_spec hex.length
  generalize toInt hex.length = len at *
  by_cases h0x : Has0x hex
  · obtain ⟨digits, rfl⟩ := h0x
    have hremove : remove0xIfPresent (48 :: 120 :: digits) = digits := rfl
    rw [hremove] at hdigits ⊢
    have hlength : (48 :: 120 :: digits : Text).length = 2 * bytes.length + 2 := by
      rw [List.length_cons, List.length_cons, hdigits]
    rw [hlength] at hint ⊢
    by_cases hlen : 2 ≤ len
    · have hk : len - 2 = 2 * (bytes.length - 2 ^ 31 * wraps) := by omega
      refine ⟨bytes.length - 2 ^ 31 * wraps, digits, ?_, ?_, by omega⟩
      · rw [skip0x_cons hlen, hk]
      · congr 1
        omega
    · have hk : len = 2 * (bytes.length + 1 - 2 ^ 31 * wraps) := by omega
      refine ⟨bytes.length + 1 - 2 ^ 31 * wraps, 48 :: 120 :: digits, ?_, ?_, by omega⟩
      · rw [skip0x_of_lt (Int.not_le.mp hlen), hk]
      · have hzero : (2 * ((bytes.length : ℤ) + 1 - 2 ^ 31 * wraps)).toNat = 0 := by omega
        have hzero' : 2 * ((bytes.length : ℤ) + 1 - 2 ^ 31 * wraps).toNat = 0 := by omega
        rw [hzero, hzero', List.take_zero, List.take_zero]
  · rw [remove0xIfPresent_of_not h0x] at hdigits ⊢
    have hk : len = 2 * (bytes.length - 2 ^ 31 * wraps) := by omega
    refine ⟨bytes.length - 2 ^ 31 * wraps, hex, ?_, ?_, by omega⟩
    · rw [skip0x_of_not h0x, hk]
    · congr 1
      omega

theorem getHexValueLen_spec {hex phex : Text} {k : ℤ}
    (h : skip0x (toInt hex.length) hex = (2 * k, phex)) : getHexValueLen hex = k := by
  unfold getHexValueLen
  rw [h]
  dsimp only
  rw [if_neg (by omega), Int.shiftRight_eq_div_pow]
  omega

theorem encodeHexValue_spec {hex phex : Text} {bytes : List UInt8} (h : HexText hex bytes) {k : ℤ}
    (hskip : skip0x (toInt hex.length) hex = (2 * k, phex))
    (htake : phex.take (2 * k).toNat = (remove0xIfPresent hex).take (2 * k.toNat))
    (data : List UInt8) : encodeHexValue data hex = some (true, data ++ bytes.take k.toNat) := by
  unfold encodeHexValue encodeHexDigits
  rw [hskip]
  dsimp only
  rw [if_pos (by omega), htake, encodeHexPairs_take h]

/-- No character is as great as 0x80. -/
theorem char_lt (b : UInt8) : b.toInt8.toInt < 0x80 :=
  forall_uint8 (p := fun b => b.toInt8.toInt < 0x80) (by decide +kernel) b

theorem toUint32_lt (len : ℤ) : toUint32 len < 2 ^ 32 := by
  unfold toUint32
  omega

theorem toUint32_of_nonneg {len : ℤ} (h : 0 ≤ len) (hlt : len < 2 ^ 32) : toUint32 len = len.toNat := by
  unfold toUint32
  rw [Int.emod_eq_of_lt h hlt]

/-- One byte gets no header. -/
theorem encodeHexData_one {hex phex : Text} {bytes : List UInt8} {b : UInt8}
    (hskip : skip0x (toInt hex.length) hex = (2 * 1, phex))
    (hvalue : ∀ data, encodeHexValue data hex = some (true, data ++ bytes.take 1))
    (hb : bytes.take 1 = [b]) (data : List UInt8) : encodeHexData data hex = some (true, data ++ [b]) := by
  have hchar : ¬((([b] : List UInt8).length ≠ 1) ∨ 0x80 ≤ (charAt [b] 0).toInt8.toInt) := by
    rintro (hlen | hge)
    · exact hlen List.length_singleton
    · exact Int.not_le.mpr (char_lt b) hge
  unfold encodeHexData
  rw [getHexValueLen_spec hskip, hvalue, hb]
  dsimp only [List.nil_append, Option.bind_eq_bind, Option.bind_some]
  rw [if_pos rfl, if_neg hchar]
  rfl

theorem encodeHexData_of_ne_one {hex phex : Text} {bytes : List UInt8} {k : ℤ}
    (hskip : skip0x (toInt hex.length) hex = (2 * k, phex))
    (hvalue : ∀ data, encodeHexValue data hex = some (true, data ++ bytes.take k.toNat)) (hone : k ≠ 1)
    (data : List UInt8) :
    encodeHexData data hex = some (true, data ++ (header 0x80 (toUint32 k) ++ bytes.take k.toNat)) := by
  have hheader := encodeLen_eq data false (toUint32_lt k)
  unfold encodeHexData
  rw [getHexValueLen_spec hskip]
  dsimp only
  rw [if_neg hone, hvalue, hheader, List.append_assoc]
  rfl

/-- Where the size is no `int`, what is written is shorter than the bytes with their header. -/
theorem length_piece_lt {bytes : List UInt8} {k : ℤ} (hlow : -2 ^ 30 ≤ k) (hlt : k < bytes.length)
    (hhigh : k < 2 ^ 30) (hlong : 2 ^ 30 - 1 ≤ bytes.length) :
    (header 0x80 (toUint32 k) ++ bytes.take k.toNat).length < (encodeBytes bytes).length := by
  rw [encodeBytes_of_length_ne_one (by omega), List.length_append, List.length_append, List.length_take]
  by_cases hnonneg : 0 ≤ k
  · have hmono := length_header_mono 0x80 (show toUint32 k ≤ bytes.length by
      rw [toUint32_of_nonneg hnonneg (by omega)]
      omega)
    omega
  · have hheader := (header_spec 0x80 ((toUint32_lt k).trans (by decide))).length_le
    omega

/-- What is added for a text: the form of its bytes, or something shorter. -/
theorem encodeHexData_spec {hex : Text} {bytes : List UInt8} (h : HexText hex bytes) :
    ∃ piece, (∀ data, encodeHexData data hex = some (true, data ++ piece)) ∧
      (Encodable hex bytes → piece = encodeBytes bytes) ∧
      (¬Encodable hex bytes → piece.length < (encodeBytes bytes).length) := by
  obtain ⟨k, phex, hskip, htake, hlow, hhigh, hint, hlong⟩ := skip0x_spec h
  have hvalue := encodeHexValue_spec h hskip htake
  by_cases hone : k = 1
  · rw [hone] at hskip hvalue
    have hpos : 1 ≤ bytes.length := by omega
    obtain ⟨b, rest, rfl⟩ := List.exists_cons_of_length_pos hpos
    refine ⟨[b], encodeHexData_one hskip hvalue rfl, fun hok => ?_, fun hfail => ?_⟩
    · obtain rfl : rest = [] := by
        have hlen := hint hok.1
        rw [List.length_cons] at hlen
        exact List.length_eq_zero_iff.mp (by omega)
      have hle : b ≤ 0x7f := by
        have hlt := UInt8.lt_iff_toNat_lt.mp (hok.2 b rfl)
        exact UInt8.le_iff_toNat_le.mpr (Nat.le_of_lt_succ hlt)
      rw [encodeBytes_singleton, if_pos hle]
    · have hle := length_le_encodeBytes (b :: rest)
      by_cases hlen : hex.length < 2 ^ 31
      · obtain rfl : rest = [] := by
          have hlen := hint hlen
          rw [List.length_cons] at hlen
          exact List.length_eq_zero_iff.mp (by omega)
        have hge : ¬b ≤ 0x7f := by
          intro hle
          apply hfail
          refine ⟨hlen, fun b' hb' => ?_⟩
          obtain rfl : b = b' := (List.cons.inj hb').1
          exact UInt8.lt_iff_toNat_lt.mpr (Nat.lt_succ_of_le (UInt8.le_iff_toNat_le.mp hle))
        rw [encodeBytes_singleton, if_neg hge, List.length_append]
        exact Nat.lt_add_of_pos_left (header_length_pos _ _)
      · have hlong := hlong (Nat.not_lt.mp hlen)
        rw [List.length_singleton]
        omega
  · refine ⟨_, encodeHexData_of_ne_one hskip hvalue hone, fun hok => ?_, fun hfail => ?_⟩
    · have hk := hint hok.1
      rw [toUint32_of_nonneg (by omega) (by omega), hk, Int.toNat_natCast, List.take_length,
        encodeBytes_of_length_ne_one (by omega)]
    · by_cases hlen : hex.length < 2 ^ 31
      · exfalso
        apply hfail
        refine ⟨hlen, fun b hb => ?_⟩
        have hk := hint hlen
        rw [hb, List.length_singleton] at hk
        exact absurd hk hone
      · obtain ⟨hlt, hlong⟩ := hlong (Nat.not_lt.mp hlen)
        exact length_piece_lt hlow hlt hhigh hlong

/-! ## The fields of a transaction -/

/-- The fields in the order of the list. -/
def fields (tx : TxParams) (recipient data : List UInt8) : List (List UInt8) :=
  [shortest tx.nonce, shortest tx.gasPrice, shortest tx.gasLimit, recipient, shortest tx.value, data,
    shortest tx.v, shortest tx.r, shortest tx.s]

/-- The shortest form of the list. -/
def canonical (tx : TxParams) (recipient data : List UInt8) : List UInt8 :=
  (Item.list ((fields tx recipient data).map .bytes)).encode

/-- The forms of the fields one after the other, those of the two texts as they were written. -/
def payload (tx : TxParams) (recipientForm dataForm : List UInt8) : List UInt8 :=
  encodeBytes (shortest tx.nonce) ++ encodeBytes (shortest tx.gasPrice) ++
    encodeBytes (shortest tx.gasLimit) ++ recipientForm ++ encodeBytes (shortest tx.value) ++ dataForm ++
    encodeBytes (shortest tx.v) ++ encodeBytes (shortest tx.r) ++ encodeBytes (shortest tx.s)

variable (tx : TxParams)

theorem canonical_eq (recipient data : List UInt8) :
    canonical tx recipient data =
      header 0xc0 (payload tx (encodeBytes recipient) (encodeBytes data)).length ++
        payload tx (encodeBytes recipient) (encodeBytes data) := by
  have hall : encodeAll ((fields tx recipient data).map .bytes) =
      payload tx (encodeBytes recipient) (encodeBytes data) := by
    rw [encodeAll_bytes]
    simp [fields, payload]
  rw [canonical, Item.encode, hall]

theorem getTransactionHash_eq {Hash : Type} (keccak256 : List UInt8 → Hash)
    {recipientForm dataForm : List UInt8}
    (hto : ∀ raw, encodeHexData raw tx.to' = some (true, raw ++ recipientForm))
    (hdata : ∀ raw, encodeHexData raw tx.data = some (true, raw ++ dataForm)) :
    getTransactionHash keccak256 tx =
      let raw := payload tx recipientForm dataForm
      let rlpTx := header 0xc0 (raw.length % 2 ^ 32) ++ raw
      some (keccak256 rlpTx, rlpTx) := by
  have hv : tx.v < 2 ^ 256 := tx.v_lt.trans (by decide)
  have hnonce : tx.nonce < 2 ^ 256 := tx.nonce_lt.trans (by decide)
  have hgasLimit : tx.gasLimit < 2 ^ 256 := tx.gasLimit_lt.trans (by decide)
  have hmod : (payload tx recipientForm dataForm).length % 2 ^ 32 < 2 ^ 32 := Nat.mod_lt _ (by decide)
  unfold getTransactionHash
  simp only [encode_eq _ hnonce, encode_eq _ tx.gasPrice_lt, encode_eq _ hgasLimit, hto,
    encode_eq _ tx.value_lt, hdata, encode_eq _ hv, encode_eq _ tx.r_lt, encode_eq _ tx.s_lt,
    Option.bind_eq_bind, Option.bind_some, List.nil_append]
  rw [show encodeBytes (shortest tx.nonce) ++ encodeBytes (shortest tx.gasPrice) ++
    encodeBytes (shortest tx.gasLimit) ++ recipientForm ++ encodeBytes (shortest tx.value) ++ dataForm ++
    encodeBytes (shortest tx.v) ++ encodeBytes (shortest tx.r) ++ encodeBytes (shortest tx.s) =
      payload tx recipientForm dataForm from rfl, encodeLen_eq [] true hmod, List.nil_append]
  rfl

theorem length_encodeBytes_scalar {n : ℕ} (h : n < 2 ^ 256) : (encodeBytes (shortest n)).length ≤ 41 := by
  have hwidth : width n ≤ 32 := width_le.mpr (by omega)
  have hle := @length_encodeBytes_le (shortest n) (by rw [length_shortest]; omega)
  rw [length_shortest] at hle
  omega

theorem length_payload (recipientForm dataForm : List UInt8) :
    ∃ scalars ≤ 287, (payload tx recipientForm dataForm).length =
      scalars + recipientForm.length + dataForm.length := by
  have hnonce := length_encodeBytes_scalar (tx.nonce_lt.trans (by decide))
  have hgasPrice := length_encodeBytes_scalar tx.gasPrice_lt
  have hgasLimit := length_encodeBytes_scalar (tx.gasLimit_lt.trans (by decide))
  have hvalue := length_encodeBytes_scalar tx.value_lt
  have hv := length_encodeBytes_scalar (tx.v_lt.trans (by decide))
  have hr := length_encodeBytes_scalar tx.r_lt
  have hs := length_encodeBytes_scalar tx.s_lt
  refine ⟨(payload tx [] []).length, ?_, ?_⟩
  · simp only [payload, List.length_append, List.length_nil]
    omega
  · simp only [payload, List.length_append, List.length_nil]
    omega

/-- The bytes that a text gives take at most half of its size. -/
theorem HexText.length_le {hex : Text} {bytes : List UInt8} (h : HexText hex bytes) :
    2 * bytes.length ≤ hex.length := by
  have hdigits := length_hexBytes h
  by_cases h0x : Has0x hex
  · obtain ⟨digits, rfl⟩ := h0x
    rw [show remove0xIfPresent (48 :: 120 :: digits) = digits from rfl] at hdigits
    rw [List.length_cons, List.length_cons]
    omega
  · rw [remove0xIfPresent_of_not h0x] at hdigits
    exact hdigits.ge

section Hashed

variable {Hash : Type} (keccak256 : List UInt8 → Hash) {recipient data : List UInt8}
  (hto : HexText tx.to' recipient) (hdata : HexText tx.data data)

include hto hdata

theorem getTransactionHash_of_encodable (hok : Encodable tx.to' recipient)
    (hok' : Encodable tx.data data) :
    getTransactionHash keccak256 tx =
      some (keccak256 (canonical tx recipient data), canonical tx recipient data) := by
  obtain ⟨recipientForm, htoForm, htoOk, -⟩ := encodeHexData_spec hto
  obtain ⟨dataForm, hdataForm, hdataOk, -⟩ := encodeHexData_spec hdata
  have hsize := hto.length_le
  have hsize' := hdata.length_le
  have hint := hok.1
  have hint' := hok'.1
  have hform := @length_encodeBytes_le recipient (by omega)
  have hform' := @length_encodeBytes_le data (by omega)
  obtain ⟨scalars, hscalars, hlength⟩ := length_payload tx (encodeBytes recipient) (encodeBytes data)
  rw [getTransactionHash_eq tx keccak256 htoForm hdataForm, canonical_eq, htoOk hok, hdataOk hok']
  dsimp only
  rw [Nat.mod_eq_of_lt (by omega)]

/-- One of the two forms is too short, so the whole list is. -/
theorem getTransactionHash_ne_of_not_encodable
    (hnot : ¬(Encodable tx.to' recipient ∧ Encodable tx.data data)) :
    getTransactionHash keccak256 tx ≠
      some (keccak256 (canonical tx recipient data), canonical tx recipient data) := by
  obtain ⟨recipientForm, htoForm, htoOk, htoFail⟩ := encodeHexData_spec hto
  obtain ⟨dataForm, hdataForm, hdataOk, hdataFail⟩ := encodeHexData_spec hdata
  have hlt : recipientForm.length + dataForm.length <
      (encodeBytes recipient).length + (encodeBytes data).length := by
    by_cases hok : Encodable tx.to' recipient
    · have hlt := hdataFail fun hok' => hnot ⟨hok, hok'⟩
      rw [htoOk hok]
      exact Nat.add_lt_add_left hlt _
    · have hlt := htoFail hok
      by_cases hok' : Encodable tx.data data
      · rw [hdataOk hok']
        exact Nat.add_lt_add_right hlt _
      · exact Nat.add_lt_add hlt (hdataFail hok')
  have hpayload : (payload tx recipientForm dataForm).length <
      (payload tx (encodeBytes recipient) (encodeBytes data)).length := by
    simp only [payload, List.length_append]
    omega
  have hheader := length_header_mono 0xc0 ((Nat.mod_le _ (2 ^ 32)).trans hpayload.le)
  rw [getTransactionHash_eq tx keccak256 htoForm hdataForm, canonical_eq]
  intro heq
  have hbytes := congrArg List.length (congrArg Prod.snd (Option.some.inj heq))
  rw [List.length_append, List.length_append] at hbytes
  omega

/-- The bytes that are hashed are the shortest form of the list of the fields exactly when both texts
can be written. -/
theorem getTransactionHash_canonical_iff :
    getTransactionHash keccak256 tx =
        some (keccak256 (canonical tx recipient data), canonical tx recipient data) ↔
      Encodable tx.to' recipient ∧ Encodable tx.data data := by
  constructor
  · intro heq
    by_contra hnot
    exact getTransactionHash_ne_of_not_encodable tx keccak256 hto hdata hnot heq
  · rintro ⟨hok, hok'⟩
    exact getTransactionHash_of_encodable tx keccak256 hto hdata hok hok'

end Hashed

/-- A transaction with a recipient of 20 bytes and the given data. -/
def sample (data : Text) : TxParams where
  to' := ascii "0x00112233445566778899aabbccddeeff00112233"
  value := 128
  nonce := 0
  gasLimit := 21000
  gasPrice := 127
  data := data
  r := 2 ^ 255
  s := 1
  v := 37
  value_lt := by decide
  nonce_lt := by decide
  gasLimit_lt := by decide
  gasPrice_lt := by decide
  r_lt := by decide
  s_lt := by decide
  v_lt := by decide

def sampleTo : List UInt8 :=
  [0x00, 0x11, 0x22, 0x33, 0x44, 0x55, 0x66, 0x77, 0x88, 0x99, 0xaa, 0xbb, 0xcc, 0xdd, 0xee, 0xff, 0x00,
    0x11, 0x22, 0x33]

theorem getTransactionHash_canonical_sample :
    HexText (sample (ascii "a9059cbb")).to' sampleTo ∧
      HexText (sample (ascii "a9059cbb")).data [0xa9, 0x05, 0x9c, 0xbb] ∧
      (getTransactionHash id (sample (ascii "a9059cbb")) =
          some (canonical (sample (ascii "a9059cbb")) sampleTo [0xa9, 0x05, 0x9c, 0xbb],
            canonical (sample (ascii "a9059cbb")) sampleTo [0xa9, 0x05, 0x9c, 0xbb]) ↔
        Encodable (sample (ascii "a9059cbb")).to' sampleTo ∧
          Encodable (sample (ascii "a9059cbb")).data [0xa9, 0x05, 0x9c, 0xbb]) :=
  ⟨by decide, by decide, getTransactionHash_canonical_iff _ id (by decide) (by decide)⟩

/-- The data is one byte with its highest bit set. -/
theorem getTransactionHash_not_canonical :
    ¬∀ (tx : TxParams) (recipient data : List UInt8), HexText tx.to' recipient → HexText tx.data data →
      getTransactionHash id tx = some (canonical tx recipient data, canonical tx recipient data) := by
  intro h
  have hto : HexText (sample (ascii "80")).to' sampleTo := by decide
  have hdata : HexText (sample (ascii "80")).data [0x80] := by decide
  refine getTransactionHash_ne_of_not_encodable _ id hto hdata ?_ (h _ _ _ hto hdata)
  rintro ⟨-, -, hsmall⟩
  exact absurd (hsmall 0x80 rfl) (by decide)

end ZkevmProver.FullTracer
