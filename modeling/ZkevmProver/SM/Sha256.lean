import ZkevmProver.SM.PaddingEmits
import ZkevmProver.Utils.ByteArray
import ZkevmProver.Utils.Text

/-!
# SHA-256

`SHA256` reads a message byte by byte; `SHA256_old` takes it in chunks, as the circuit does, and builds the
last chunk by itself.  Both are compared with the hash of the padded message.

  1. The compression function.
  2. The hash of a padded message.
  3. `SHA256`.
  4. `SHA256_old`.
  5. The compression functions agree.
  6. A message byte by byte.
  7. A message in chunks.
-/

namespace ZkevmProver

open Function BigEndian Loops

/-! ## The compression function -/

/-- Eight variables, from `a` to `h`; also the eight words of a state. -/
structure Sha256State (α : Type) where
  a : α
  b : α
  c : α
  d : α
  e : α
  f : α
  g : α
  h : α
  deriving DecidableEq

def Sha256State.words {α : Type} (s : Sha256State α) : List α := [s.a, s.b, s.c, s.d, s.e, s.f, s.g, s.h]

def Sha256State.zipWith {α β γ : Type} (f : α → β → γ) (s : Sha256State α) (t : Sha256State β) : Sha256State γ :=
  ⟨f s.a t.a, f s.b t.b, f s.c t.c, f s.d t.d, f s.e t.e, f s.f t.f, f s.g t.g, f s.h t.h⟩

namespace Sha256

def hIn : Sha256State (BitVec 32) :=
  ⟨0x6a09e667, 0xbb67ae85, 0x3c6ef372, 0xa54ff53a, 0x510e527f, 0x9b05688c, 0x1f83d9ab, 0x5be0cd19⟩

def k : List (BitVec 32) := [
  0x428a2f98, 0x71374491, 0xb5c0fbcf, 0xe9b5dba5, 0x3956c25b, 0x59f111f1, 0x923f82a4, 0xab1c5ed5,
  0xd807aa98, 0x12835b01, 0x243185be, 0x550c7dc3, 0x72be5d74, 0x80deb1fe, 0x9bdc06a7, 0xc19bf174,
  0xe49b69c1, 0xefbe4786, 0x0fc19dc6, 0x240ca1cc, 0x2de92c6f, 0x4a7484aa, 0x5cb0a9dc, 0x76f988da,
  0x983e5152, 0xa831c66d, 0xb00327c8, 0xbf597fc7, 0xc6e00bf3, 0xd5a79147, 0x06ca6351, 0x14292967,
  0x27b70a85, 0x2e1b2138, 0x4d2c6dfc, 0x53380d13, 0x650a7354, 0x766a0abb, 0x81c2c92e, 0x92722c85,
  0xa2bfe8a1, 0xa81a664b, 0xc24b8b70, 0xc76c51a3, 0xd192e819, 0xd6990624, 0xf40e3585, 0x106aa070,
  0x19a4c116, 0x1e376c08, 0x2748774c, 0x34b0bcb5, 0x391c0cb3, 0x4ed8aa4a, 0x5b9cca4f, 0x682e6ff3,
  0x748f82ee, 0x78a5636f, 0x84c87814, 0x8cc70208, 0x90befffa, 0xa4506ceb, 0xbef9a3f7, 0xc67178f2]

end Sha256

def rotateRight32 (input : BitVec 32) (bits : ℕ) : BitVec 32 := (input >>> bits) ||| (input <<< (32 - bits))

/-- `bytes2u32(pInput, output, true)` -/
def bytes2u32 (pInput : ℕ → UInt8) : BitVec 32 :=
  forUpTo 4 (fun i output =>
    (if i ≠ 0 then output <<< 8 else output) ||| (pInput i).toBitVec.setWidth 32) 0

/-- The message schedule has the words before `w[i]`. -/
def sha256Extend (i : ℕ) (w : List (BitVec 32)) : List (BitVec 32) :=
  let w15 := w.getD (i - 15) 0
  let w2 := w.getD (i - 2) 0
  let s0 := rotateRight32 w15 7 ^^^ rotateRight32 w15 18 ^^^ (w15 >>> 3)
  let s1 := rotateRight32 w2 17 ^^^ rotateRight32 w2 19 ^^^ (w2 >>> 10)
  w ++ [w.getD (i - 16) 0 + s0 + w.getD (i - 7) 0 + s1]

/-- One round of the compression loop. -/
def sha256Round (w : List (BitVec 32)) (i : ℕ) (s : Sha256State (BitVec 32)) : Sha256State (BitVec 32) :=
  let S1 := rotateRight32 s.e 6 ^^^ rotateRight32 s.e 11 ^^^ rotateRight32 s.e 25
  let ch := (s.e &&& s.f) ^^^ (~~~s.e &&& s.g)
  let temp1 := s.h + S1 + ch + Sha256.k.getD i 0 + w.getD i 0
  let S0 := rotateRight32 s.a 2 ^^^ rotateRight32 s.a 13 ^^^ rotateRight32 s.a 22
  let maj := (s.a &&& s.b) ^^^ (s.a &&& s.c) ^^^ (s.b &&& s.c)
  let temp2 := S0 + maj
  { a := temp1 + temp2, b := s.a, c := s.b, d := s.c, e := s.d + temp1, f := s.e, g := s.f, h := s.g }

/-- The 16 words of a chunk. -/
def sha256Words (inR : ℕ → UInt8) : List (BitVec 32) := (List.range 16).map fun i => bytes2u32 fun j => inR (4 * i + j)

/-- The message schedule of a chunk. -/
def sha256Schedule (inR : ℕ → UInt8) : List (BitVec 32) :=
  forUpTo 48 (fun i => sha256Extend (16 + i)) (sha256Words inR)

def SHA256F (inR : ℕ → UInt8) (stIn : Sha256State (BitVec 32)) : Sha256State (BitVec 32) :=
  stIn.zipWith (· + ·) (forUpTo 64 (sha256Round (sha256Schedule inR)) stIn)

/-! ## The hash of a padded message -/

/-- `"0x" + hashScalar.get_str(16)`, of the words of a state. -/
def sha256Text (s : Sha256State (BitVec 32)) : Text :=
  ascii "0x" ++ getStr 16 (s.words.foldl (fun hashScalar word => hashScalar * 2 ^ 32 + word.toNat) 0 : ℕ)

/-- The state after `n` blocks. -/
def sha256Blocks (bytes : List UInt8) (n : ℕ) : Sha256State (BitVec 32) :=
  forUpTo n (fun block => SHA256F fun j => bytes.getD (64 * block + j) 0) Sha256.hIn

/-- The hash of a message. -/
def sha256 (data : List UInt8) : Sha256State (BitVec 32) :=
  let padded := data ++ sha256Padding data.length
  sha256Blocks padded (padded.length / 64)

/-! ## `SHA256` -/

structure SHA256_CTX where
  data : ℕ → UInt8
  datalen : ℕ
  bitlen : ℕ
  state : Sha256State (BitVec 32)

/-- `m[i] = (data[j] << 24) | (data[j + 1] << 16) | (data[j + 2] << 8) | (data[j + 3])` -/
def sha256_word (data : ℕ → UInt8) (j : ℕ) : BitVec 32 :=
  (data j).toBitVec.setWidth 32 <<< 24 ||| (data (j + 1)).toBitVec.setWidth 32 <<< 16 |||
    (data (j + 2)).toBitVec.setWidth 32 <<< 8 ||| (data (j + 3)).toBitVec.setWidth 32

def sha256_extend (i : ℕ) (m : List (BitVec 32)) : List (BitVec 32) :=
  let m15 := m.getD (i - 15) 0
  let m2 := m.getD (i - 2) 0
  let SIG0 := rotateRight32 m15 7 ^^^ rotateRight32 m15 18 ^^^ (m15 >>> 3)
  let SIG1 := rotateRight32 m2 17 ^^^ rotateRight32 m2 19 ^^^ (m2 >>> 10)
  m ++ [SIG1 + m.getD (i - 7) 0 + SIG0 + m.getD (i - 16) 0]

def sha256_round (m : List (BitVec 32)) (i : ℕ) (s : Sha256State (BitVec 32)) : Sha256State (BitVec 32) :=
  let EP1 := rotateRight32 s.e 6 ^^^ rotateRight32 s.e 11 ^^^ rotateRight32 s.e 25
  let CH := (s.e &&& s.f) ^^^ (~~~s.e &&& s.g)
  let t1 := s.h + EP1 + CH + Sha256.k.getD i 0 + m.getD i 0
  let EP0 := rotateRight32 s.a 2 ^^^ rotateRight32 s.a 13 ^^^ rotateRight32 s.a 22
  let MAJ := (s.a &&& s.b) ^^^ (s.a &&& s.c) ^^^ (s.b &&& s.c)
  let t2 := EP0 + MAJ
  { a := t1 + t2, b := s.a, c := s.b, d := s.c, e := s.d + t1, f := s.e, g := s.f, h := s.g }

def sha256_transform (state : Sha256State (BitVec 32)) (data : ℕ → UInt8) : Sha256State (BitVec 32) :=
  let m := (List.range 16).map fun i => sha256_word data (4 * i)
  let m := forUpTo 48 (fun i => sha256_extend (16 + i)) m
  state.zipWith (· + ·) (forUpTo 64 (sha256_round m) state)

/-- The buffer is not set. -/
def sha256_init (data : ℕ → UInt8) : SHA256_CTX := ⟨data, 0, 0, Sha256.hIn⟩

/-- One round of the loop of `sha256_update`. -/
def sha256_update (ctx : SHA256_CTX) (byte : UInt8) : SHA256_CTX :=
  let ctx := { ctx with data := update ctx.data ctx.datalen byte, datalen := ctx.datalen + 1 }
  if ctx.datalen = 64 then
    { ctx with
      state := sha256_transform ctx.state ctx.data
      bitlen := (ctx.bitlen + 512) % 2 ^ 64
      datalen := 0 }
  else ctx

/-- The bytes from `i` on and before `n` are set to zero. -/
def zeroBytes (data : ℕ → UInt8) (i n : ℕ) : ℕ → UInt8 := fun j => if i ≤ j ∧ j < n then 0 else data j

def sha256_final (ctx : SHA256_CTX) : Sha256State (BitVec 32) :=
  let data := update ctx.data ctx.datalen 0x80
  let (data, state) :=
    if ctx.datalen < 56 then (zeroBytes data (ctx.datalen + 1) 56, ctx.state)
    else
      let data := zeroBytes data (ctx.datalen + 1) 64
      (zeroBytes data 0 56, sha256_transform ctx.state data)
  let bitlen := (ctx.bitlen + ctx.datalen * 8) % 2 ^ 64
  sha256_transform state fun j => if 56 ≤ j ∧ j < 64 then (bitlen >>> (8 * (63 - j))).toUInt8 else data j

/-- The hash of the words, from the most significant byte of the first one on. -/
def sha256_bytes (state : Sha256State (BitVec 32)) : List UInt8 :=
  state.words.flatMap fun (word : BitVec 32) => (List.range 4).map fun i => (word >>> (24 - i * 8)).toNat.toUInt8

/-- The index of the loop of `sha256_update` has 32 bits, so that the loop does not end for longer data. -/
def SHA256 (buffer : ℕ → UInt8) (data : List UInt8) : Option Text :=
  if data.length < 2 ^ 32 then
    some (ascii "0x" ++ getStr 16 (ba2scalar (sha256_bytes (sha256_final (data.foldl sha256_update (sha256_init buffer))))))
  else none

/-! ## `SHA256_old` -/

/-- The array `padding`: the length in bits, a one bit, and what is left of the message. -/
def sha256LastChunk (data : List UInt8) (onePosition : ℕ) : ℕ → UInt8 :=
  let dataSize := data.length
  let padding : ℕ → UInt8 := fun i => if 56 ≤ i then (bytes 8 (dataSize * 8)).getD (i - 56) 0 else 0
  let padding := update padding onePosition 0x80
  fun i => if i < dataSize % 64 then data.getD (dataSize / 64 * 64 + i) 0 else padding i

/-- The loop over the chunks of `SHA256_old` and `SHA256Gate`, with the function of a chunk.  The byte
`0x80` has to be in the last chunk, of 64 bytes. -/
def sha256Chunks (F : Sha256State (BitVec 32) → (ℕ → UInt8) → Option (Sha256State (BitVec 32)))
    (data : List UInt8) : Option (Sha256State (BitVec 32)) :=
  let dataSize := data.length
  let paddedSizeInBitsMin := (dataSize * 8 + 1 + 64) % 2 ^ 64
  let paddedSizeInBits := (paddedSizeInBitsMin / 512 + 1) * 512 % 2 ^ 64
  let paddedSize := paddedSizeInBits / 8
  let paddedZeros := sub64 paddedSizeInBits paddedSizeInBitsMin / 8
  let onePosition := sub64 (64 - 8) (paddedZeros + 1)
  if onePosition < 64 then
    let padding := sha256LastChunk data onePosition
    (List.range (paddedSize / 64)).foldlM (fun h chunk =>
      F h (if chunk = paddedSize / 64 - 1 then padding else fun j => data.getD (chunk * 64 + j) 0)) Sha256.hIn
  else none

def SHA256_old (data : List UInt8) : Option Text :=
  (sha256Chunks (fun h chunk => some (SHA256F chunk h)) data).map sha256Text

/-! ## The compression functions agree -/

theorem rotateRight32_eq {bits : ℕ} (h : bits < 32) (x : BitVec 32) : rotateRight32 x bits = x.rotateRight bits := by
  unfold rotateRight32 BitVec.rotateRight BitVec.rotateRightAux
  rw [Nat.mod_eq_of_lt h]

theorem sha256_word_eq (data : ℕ → UInt8) (j : ℕ) : sha256_word data j = bytes2u32 fun i => data (j + i) := by
  unfold sha256_word bytes2u32
  simp [forUpTo_succ, BitVec.shiftLeft_or_distrib]

theorem sha256_extend_eq (i : ℕ) (w : List (BitVec 32)) : sha256_extend i w = sha256Extend i w := by
  unfold sha256_extend sha256Extend
  dsimp only
  congr 2
  ac_rfl

/-- Both functions of a chunk are the same. -/
theorem sha256_transform_eq (state : Sha256State (BitVec 32)) (data : ℕ → UInt8) :
    sha256_transform state data = SHA256F data state := by
  have hextend : (fun i => sha256_extend (16 + i)) = fun i => sha256Extend (16 + i) :=
    funext fun i => funext fun w => sha256_extend_eq (16 + i) w
  have hwords : (List.range 16).map (fun i => sha256_word data (4 * i)) = sha256Words data :=
    List.map_congr_left fun i _ => sha256_word_eq data (4 * i)
  unfold sha256_transform
  dsimp only
  rw [hextend, hwords]
  rfl

/-- Only the 64 bytes of a chunk are read. -/
theorem SHA256F_congr {inR inR' : ℕ → UInt8} (h : ∀ j < 64, inR j = inR' j) : SHA256F inR = SHA256F inR' := by
  have hwords : sha256Words inR = sha256Words inR' := by
    refine List.map_congr_left fun i hi => ?_
    have hi := List.mem_range.mp hi
    simp [bytes2u32, forUpTo_succ, h (4 * i) (by omega), h (4 * i + 1) (by omega), h (4 * i + 2) (by omega),
      h (4 * i + 3) (by omega)]
  funext stIn
  unfold SHA256F sha256Schedule
  rw [hwords]

/-! ## Blocks -/

theorem sha256Blocks_zero (bytes : List UInt8) : sha256Blocks bytes 0 = Sha256.hIn := forUpTo_zero _ _

theorem sha256Blocks_succ (bytes : List UInt8) (n : ℕ) : sha256Blocks bytes (n + 1) =
    SHA256F (fun j => bytes.getD (64 * n + j) 0) (sha256Blocks bytes n) := rfl

theorem sha256Blocks_congr {xs ys : List UInt8} {n : ℕ} (h : ∀ i < 64 * n, xs.getD i 0 = ys.getD i 0) :
    sha256Blocks xs n = sha256Blocks ys n := by
  induction n with
  | zero => rw [sha256Blocks_zero, sha256Blocks_zero]
  | succ n ih =>
    have hblock : SHA256F (fun j => xs.getD (64 * n + j) 0) = SHA256F fun j => ys.getD (64 * n + j) 0 :=
      SHA256F_congr fun j hj => h (64 * n + j) (by omega)
    rw [sha256Blocks_succ, sha256Blocks_succ, ih fun i hi => h i (by omega), hblock]

/-- The blocks of a message with its padding. -/
def sha256BlockCount (length : ℕ) : ℕ := (length + 72) / 64

section Padded

variable (data : List UInt8)

theorem length_padded_sha256 : (data ++ sha256Padding data.length).length = 64 * sha256BlockCount data.length := by
  unfold sha256Padding sha256BlockCount
  simp only [List.length_append, List.length_cons, List.length_replicate, length_bytes]
  omega

theorem sha256_eq : sha256 data = sha256Blocks (data ++ sha256Padding data.length) (sha256BlockCount data.length) := by
  unfold sha256
  dsimp only
  rw [length_padded_sha256, Nat.mul_div_cancel_left _ (by decide)]

variable {data} {i : ℕ}

/-- A byte of a padded message. -/
theorem getD_padded_sha256 (hi : i < 64 * sha256BlockCount data.length) :
    (data ++ sha256Padding data.length).getD i 0 =
      if i < data.length then data.getD i 0
      else if i = data.length then 0x80
      else if i < 64 * sha256BlockCount data.length - 8 then 0
      else (bytes 8 (8 * data.length)).getD (i + 8 - 64 * sha256BlockCount data.length) 0 := by
  have hz : (119 - data.length % 64) % 64 = 64 * sha256BlockCount data.length - 9 - data.length := by
    unfold sha256BlockCount
    omega
  have hcount : data.length + 9 ≤ 64 * sha256BlockCount data.length := by
    unfold sha256BlockCount
    omega
  unfold sha256Padding
  rw [hz]
  generalize 64 * sha256BlockCount data.length = B at *
  by_cases hdata : i < data.length
  · rw [if_pos hdata, List.getD_append _ _ _ _ hdata]
  · rw [if_neg hdata, List.getD_append_right _ _ _ _ (Nat.not_lt.mp hdata)]
    by_cases hone : i = data.length
    · rw [if_pos hone, hone, Nat.sub_self]
      rfl
    · obtain ⟨t, ht⟩ : ∃ t, i - data.length = t + 1 := ⟨i - data.length - 1, by omega⟩
      rw [if_neg hone, ht, List.getD_cons_succ]
      by_cases hzero : i < B - 8
      · rw [if_pos hzero, List.getD_append _ _ _ _ (by rw [List.length_replicate]; omega),
          List.getD_replicate _ (by omega)]
      · rw [if_neg hzero, List.getD_append_right _ _ _ _ (by rw [List.length_replicate]; omega),
          List.length_replicate]
        congr 1
        omega

/-- The block where the padding begins. -/
theorem getD_restBlock {j : ℕ} (hj : j < 64) :
    (data ++ sha256Padding data.length).getD (64 * (data.length / 64) + j) 0 =
      if j < data.length % 64 then data.getD (64 * (data.length / 64) + j) 0
      else if j = data.length % 64 then 0x80
      else if data.length % 64 < 56 ∧ 56 ≤ j then (bytes 8 (8 * data.length)).getD (j - 56) 0
      else 0 := by
  have hdata := Nat.div_add_mod data.length 64
  have hcount : 64 * sha256BlockCount data.length =
      64 * (data.length / 64) + if data.length % 64 < 56 then 64 else 128 := by
    unfold sha256BlockCount
    split <;> omega
  rw [getD_padded_sha256 (by split at hcount <;> omega), hcount]
  refine if_congr (by omega) rfl (if_congr (by omega) rfl ?_)
  by_cases hrest : data.length % 64 < 56
  · rw [if_pos hrest]
    by_cases hlow : j < 56
    · rw [if_pos (by omega), if_neg (by omega)]
    · rw [if_neg (by omega), if_pos (by omega)]
      congr 1
      omega
  · rw [if_neg hrest, if_pos (by omega), if_neg (by omega)]

/-- The block of the length, where it does not fit in the one where the padding begins. -/
theorem getD_lengthBlock (hrest : ¬data.length % 64 < 56) {j : ℕ} (hj : j < 64) :
    (data ++ sha256Padding data.length).getD (64 * (data.length / 64 + 1) + j) 0 =
      if 56 ≤ j then (bytes 8 (8 * data.length)).getD (j - 56) 0 else 0 := by
  have hcount : 64 * sha256BlockCount data.length = 64 * (data.length / 64) + 128 := by
    unfold sha256BlockCount
    omega
  rw [getD_padded_sha256 (by omega), hcount, if_neg (by omega), if_neg (by omega)]
  by_cases hlow : j < 56
  · rw [if_pos (by omega), if_neg (by omega)]
  · rw [if_neg (by omega), if_pos (by omega),
      show 64 * (data.length / 64 + 1) + j + 8 - (64 * (data.length / 64) + 128) = j - 56 by omega]

end Padded

/-! ## A message byte by byte -/

/-- After a part of a message: its whole blocks are in the state, and the rest of it is in the buffer. -/
structure Sha256Read (data : List UInt8) (ctx : SHA256_CTX) : Prop where
  datalen : ctx.datalen = data.length % 64
  bitlen : ctx.bitlen = 512 * (data.length / 64) % 2 ^ 64
  state : ctx.state = sha256Blocks data (data.length / 64)
  data : ∀ j < data.length % 64, ctx.data j = data.getD (64 * (data.length / 64) + j) 0

theorem sha256Read_init (buffer : ℕ → UInt8) : Sha256Read [] (sha256_init buffer) :=
  ⟨rfl, rfl, rfl, fun j hj => absurd hj (Nat.not_lt_zero j)⟩

/-- One more byte. -/
theorem Sha256Read.update {data : List UInt8} {ctx : SHA256_CTX} (h : Sha256Read data ctx) (byte : UInt8) :
    Sha256Read (data ++ [byte]) (sha256_update ctx byte) := by
  have hlength : (data ++ [byte]).length = data.length + 1 := by rw [List.length_append, List.length_singleton]
  have hblocks : sha256Blocks (data ++ [byte]) (data.length / 64) = ctx.state := by
    rw [h.state]
    exact sha256Blocks_congr fun i hi => List.getD_append _ _ _ _ (by omega)
  have hbuffer (j : ℕ) (hj : j < data.length % 64 + 1) : Function.update ctx.data ctx.datalen byte j =
      (data ++ [byte]).getD (64 * (data.length / 64) + j) 0 := by
    rcases Nat.eq_or_lt_of_le (Nat.lt_succ_iff.mp hj) with rfl | hlt
    · rw [h.datalen, update_self, Nat.div_add_mod, List.getD_append_right _ _ _ _ le_rfl, Nat.sub_self]
      rfl
    · rw [h.datalen, update_of_ne (Nat.ne_of_lt hlt), h.data j hlt, List.getD_append _ _ _ _ (by omega)]
  unfold sha256_update
  dsimp only
  split
  · next hfull =>
    rw [h.datalen] at hfull
    have hdiv : (data ++ [byte]).length / 64 = data.length / 64 + 1 := by omega
    have hmod : (data ++ [byte]).length % 64 = 0 := by omega
    refine ⟨hmod.symm, ?_, ?_, fun j hj => absurd hj (by omega)⟩
    · show (ctx.bitlen + 512) % 2 ^ 64 = _
      rw [hdiv, h.bitlen]
      omega
    · rw [hdiv, sha256Blocks_succ, hblocks, sha256_transform_eq]
      exact congrFun (SHA256F_congr fun j hj => hbuffer j (by omega)) _
  · next hrest =>
    rw [h.datalen] at hrest
    have hdiv : (data ++ [byte]).length / 64 = data.length / 64 := by omega
    have hmod : (data ++ [byte]).length % 64 = data.length % 64 + 1 := by omega
    refine ⟨?_, ?_, ?_, ?_⟩
    · rw [hmod, ← h.datalen]
    · rw [hdiv, h.bitlen]
    · rw [hdiv, hblocks]
    · rw [hdiv, hmod]
      exact hbuffer

theorem sha256Read_foldl (buffer : ℕ → UInt8) (data : List UInt8) :
    Sha256Read data (data.foldl sha256_update (sha256_init buffer)) := by
  induction data using List.reverseRecOn with
  | nil => exact sha256Read_init buffer
  | append_singleton data byte ih =>
    rw [List.foldl_append]
    exact ih.update byte

theorem getD_bytes {width i : ℕ} (hi : i < width) (n : ℕ) :
    (bytes width n).getD i 0 = (n / 256 ^ (width - 1 - i)).toUInt8 := by
  induction width generalizing i with
  | zero => exact absurd hi (Nat.not_lt_zero i)
  | succ width ih =>
    rw [bytes_cons]
    cases i with
    | zero => rfl
    | succ i =>
      rw [List.getD_cons_succ, ih (Nat.lt_of_succ_lt_succ hi)]
      congr 3
      omega

/-- A byte of a length in bits, as `sha256_final` writes it. -/
theorem toUInt8_shiftRight (n : ℕ) {j : ℕ} (hj : j < 8) :
    ((n % 2 ^ 64) >>> (8 * (7 - j))).toUInt8 = (bytes 8 n).getD j 0 := by
  have hpow : 2 ^ (8 * (7 - j)) = 256 ^ (7 - j) := by rw [Nat.pow_mul]
  rw [getD_bytes hj, Nat.shiftRight_eq_div_pow, hpow]
  apply UInt8.toNat_inj.mp
  simp only [Nat.toUInt8_eq, UInt8.toNat_ofNat']
  interval_cases j <;> omega

/-- The last one or two blocks are those of the padded message. -/
theorem Sha256Read.final {data : List UInt8} {ctx : SHA256_CTX} (h : Sha256Read data ctx) :
    sha256_final ctx = sha256 data := by
  have hstate : ctx.state = sha256Blocks (data ++ sha256Padding data.length) (data.length / 64) := by
    rw [h.state]
    exact sha256Blocks_congr fun i hi => (List.getD_append _ _ _ _ (by omega)).symm
  have hlength (j : ℕ) (hj : 56 ≤ j ∧ j < 64) :
      (((ctx.bitlen + ctx.datalen * 8) % 2 ^ 64) >>> (8 * (63 - j))).toUInt8 =
        (bytes 8 (8 * data.length)).getD (j - 56) 0 := by
    have hbits : (ctx.bitlen + ctx.datalen * 8) % 2 ^ 64 = 8 * data.length % 2 ^ 64 := by
      rw [h.bitlen, h.datalen]
      omega
    rw [hbits, ← toUInt8_shiftRight _ (by omega), show 7 - (j - 56) = 63 - j by omega]
  have hfirst (j : ℕ) (hj : j ≤ data.length % 64) : Function.update ctx.data ctx.datalen 0x80 j =
      if j = data.length % 64 then 0x80 else data.getD (64 * (data.length / 64) + j) 0 := by
    rw [h.datalen]
    split
    · next heq => rw [heq, update_self]
    · next hne => rw [update_of_ne hne, h.data j (by omega)]
  unfold sha256_final zeroBytes
  dsimp only
  rw [sha256_eq]
  by_cases hrest : ctx.datalen < 56
  · rw [if_pos hrest]
    rw [h.datalen] at hrest hfirst hlength ⊢
    have hcount : sha256BlockCount data.length = data.length / 64 + 1 := by
      unfold sha256BlockCount
      omega
    rw [hcount, sha256Blocks_succ, ← hstate, sha256_transform_eq]
    refine congrFun (SHA256F_congr fun j hj => ?_) _
    dsimp only
    rw [getD_restBlock hj]
    by_cases hlow : j ≤ data.length % 64
    · rw [if_neg (by omega : ¬(56 ≤ j ∧ j < 64)), if_neg (by omega : ¬(data.length % 64 + 1 ≤ j ∧ j < 56)),
        hfirst j hlow]
      rcases Nat.eq_or_lt_of_le hlow with rfl | hlt
      · rw [if_pos rfl, if_neg (Nat.lt_irrefl _), if_pos rfl]
      · rw [if_neg (Nat.ne_of_lt hlt), if_pos hlt]
    · rw [if_neg (by omega : ¬j < _), if_neg (by omega : ¬j = _)]
      by_cases hlen : 56 ≤ j
      · rw [if_pos ⟨hlen, hj⟩, if_pos ⟨hrest, hlen⟩, hlength j ⟨hlen, hj⟩]
      · rw [if_neg (by omega : ¬(56 ≤ j ∧ j < 64)), if_pos (by omega : data.length % 64 + 1 ≤ j ∧ j < 56),
          if_neg (by omega : ¬(data.length % 64 < 56 ∧ 56 ≤ j))]
  · rw [if_neg hrest]
    rw [h.datalen] at hrest hfirst hlength ⊢
    have hcount : sha256BlockCount data.length = data.length / 64 + 1 + 1 := by
      unfold sha256BlockCount
      omega
    rw [hcount, sha256Blocks_succ, sha256Blocks_succ, ← hstate, sha256_transform_eq, sha256_transform_eq]
    have hrestBlock : SHA256F (fun j => if data.length % 64 + 1 ≤ j ∧ j < 64 then 0
        else Function.update ctx.data (data.length % 64) 0x80 j) =
        SHA256F fun j => (data ++ sha256Padding data.length).getD (64 * (data.length / 64) + j) 0 := by
      refine SHA256F_congr fun j hj => ?_
      rw [getD_restBlock hj]
      by_cases hlow : j ≤ data.length % 64
      · rw [if_neg (by omega), hfirst j hlow]
        rcases Nat.eq_or_lt_of_le hlow with rfl | hlt
        · rw [if_pos rfl, if_neg (Nat.lt_irrefl _), if_pos rfl]
        · rw [if_neg (Nat.ne_of_lt hlt), if_pos hlt]
      · rw [if_pos (by omega), if_neg (by omega : ¬j < _), if_neg (by omega : ¬j = _), if_neg (by omega)]
    rw [hrestBlock]
    refine congrFun (SHA256F_congr fun j hj => ?_) _
    dsimp only
    rw [getD_lengthBlock hrest hj]
    by_cases hlen : 56 ≤ j
    · rw [if_pos ⟨hlen, hj⟩, if_pos hlen, hlength j ⟨hlen, hj⟩]
    · rw [if_neg (by omega), if_neg hlen, if_pos (by omega)]

/-- The number of the bytes is that of the words. -/
theorem ba2scalar_sha256_bytes (state : Sha256State (BitVec 32)) : ba2scalar (sha256_bytes state) =
    state.words.foldl (fun hashScalar word => hashScalar * 2 ^ 32 + word.toNat) 0 := by
  unfold sha256_bytes ba2scalar
  generalize state.words = words
  induction words using List.reverseRecOn with
  | nil => rfl
  | append_singleton words word ih =>
    have hbytes : (List.range 4).map (fun i => (word >>> (24 - i * 8)).toNat.toUInt8) = bytes 4 word.toNat := by
      simp [List.range_succ, bytes_cons, Nat.shiftRight_eq_div_pow]
    rw [List.flatMap_append, value_append, ih, List.foldl_append, List.flatMap_singleton, hbytes, length_bytes,
      value_bytes_of_lt word.isLt]
    rfl

theorem SHA256_eq {data : List UInt8} (hlength : data.length < 2 ^ 32) (buffer : ℕ → UInt8) :
    SHA256 buffer data = some (sha256Text (sha256 data)) := by
  unfold SHA256 sha256Text
  rw [if_pos hlength, (sha256Read_foldl buffer data).final, ba2scalar_sha256_bytes]

/-! ## A message in chunks -/

section Chunks

variable {F : Sha256State (BitVec 32) → (ℕ → UInt8) → Option (Sha256State (BitVec 32))} {data : List UInt8}

/-- The loop over chunks that are the blocks of a padded message. -/
theorem foldlM_chunks (hF : ∀ h chunk, F h chunk = some (SHA256F chunk h)) {bytes : List UInt8}
    {chunks : ℕ → ℕ → UInt8} {n : ℕ} (h : ∀ k < n, ∀ j < 64, chunks k j = bytes.getD (64 * k + j) 0) :
    (List.range n).foldlM (fun h k => F h (chunks k)) Sha256.hIn = some (sha256Blocks bytes n) := by
  obtain ⟨s, hloop, rfl⟩ := Loops.foldlM_range_inv (n := n) (f := fun h k => F h (chunks k))
    (J := fun n s => s = sha256Blocks bytes n) (sha256Blocks_zero bytes).symm fun k hk s hs => by
      refine ⟨_, hF s (chunks k), ?_⟩
      rw [hs, sha256Blocks_succ, SHA256F_congr (h k hk)]
  exact hloop

theorem getD_lastChunk (hrest : data.length % 64 < 56) {j : ℕ} (hj : j < 64) :
    sha256LastChunk data (data.length % 64) j =
      (data ++ sha256Padding data.length).getD (64 * (data.length / 64) + j) 0 := by
  unfold sha256LastChunk
  rw [getD_restBlock hj, Nat.mul_comm (data.length / 64), Nat.mul_comm data.length]
  refine if_congr Iff.rfl rfl ?_
  by_cases hone : j = data.length % 64
  · rw [hone, update_self, if_pos rfl]
  · rw [update_of_ne hone, if_neg hone]
    exact if_congr (and_iff_right hrest).symm rfl rfl

/-- The last chunk has the rest of the message, and the padding. -/
theorem sha256Chunks_eq (hF : ∀ h chunk, F h chunk = some (SHA256F chunk h)) (hlength : data.length < 2 ^ 60)
    (hrest : data.length % 64 < 56) : sha256Chunks F data = some (sha256 data) := by
  have hcount : sha256BlockCount data.length = data.length / 64 + 1 := by
    unfold sha256BlockCount
    omega
  have hmin : (data.length * 8 + 1 + 64) % 2 ^ 64 = 8 * data.length + 65 := by omega
  have hbits : ((8 * data.length + 65) / 512 + 1) * 512 % 2 ^ 64 = 512 * (data.length / 64 + 1) := by omega
  have hchunks : 512 * (data.length / 64 + 1) / 8 / 64 = data.length / 64 + 1 := by omega
  have hzeros : sub64 (512 * (data.length / 64 + 1)) (8 * data.length + 65) / 8 = 55 - data.length % 64 := by
    unfold sub64
    omega
  have hone : sub64 (64 - 8) (55 - data.length % 64 + 1) = data.length % 64 := by
    unfold sub64
    omega
  unfold sha256Chunks
  dsimp only
  rw [hmin, hbits, hchunks, hzeros, hone, if_pos (by omega), sha256_eq, hcount]
  refine foldlM_chunks hF fun k hk j hj => ?_
  split
  · next hlast =>
    rw [getD_lastChunk hrest hj, hlast, Nat.add_sub_cancel]
  · next hnot =>
    rw [List.getD_append _ _ _ _ (by omega), Nat.mul_comm]

/-- A length that does not fit after the rest of the message: the byte `0x80` would be before the array. -/
theorem sha256Chunks_eq_none (hlength : data.length < 2 ^ 60) (hrest : 56 ≤ data.length % 64) :
    sha256Chunks F data = none := by
  have hmin : (data.length * 8 + 1 + 64) % 2 ^ 64 = 8 * data.length + 65 := by omega
  have hbits : ((8 * data.length + 65) / 512 + 1) * 512 % 2 ^ 64 = 512 * (data.length / 64 + 2) := by omega
  have hzeros : sub64 (512 * (data.length / 64 + 2)) (8 * data.length + 65) / 8 = 119 - data.length % 64 := by
    unfold sub64
    omega
  have hone : 64 ≤ sub64 (64 - 8) (119 - data.length % 64 + 1) := by
    unfold sub64
    omega
  unfold sha256Chunks
  dsimp only
  rw [hmin, hbits, hzeros, if_neg (Nat.not_lt.mpr hone)]

end Chunks

end ZkevmProver
