import ZkevmProver.SM.PaddingEmits
import ZkevmProver.Utils.ByteArray

/-!
# The Keccak sponge

`Keccak` absorbs a message block by block as it reads it, and pads the last block in the state.  This
is the same as absorbing the blocks of the padded message.  The permutation is a parameter.

  1. The sponge.
  2. Absorbing a padded message.
-/

namespace ZkevmProver

open BigEndian

/-! ## The sponge -/

/-- `u8 s[200]` -/
abbrev KeccakState := Fin 200 → UInt8

instance neZero_keccakState : NeZero 200 := ⟨by decide⟩

/-- `FOR(i,b) s[i]^=in[i]` -/
def xorBytes (s : KeccakState) (bytes : List UInt8) : KeccakState :=
  fun i => s i ^^^ bytes.getD i 0

/-- `FOR(i,b) out[i]=s[i]` -/
def firstBytes (b : ℕ) (s : KeccakState) : List UInt8 :=
  (List.range b).map fun i => s (Fin.ofNat 200 i)

/-- The bytes of a block, `R`. -/
abbrev keccakRate : ℕ := 136

section Keccak

variable (KeccakF1600 : KeccakState → KeccakState)

/-- The state after all whole blocks and what is left of the message, and how many bytes are left. -/
def absorb (data : List UInt8) (s : KeccakState) : KeccakState × ℕ :=
  if data.length < keccakRate then (xorBytes s data, data.length)
  else absorb (data.drop keccakRate) (KeccakF1600 (xorBytes s (data.take keccakRate)))
termination_by data.length
decreasing_by
  next h =>
    rw [List.length_drop]
    exact Nat.sub_lt ((by decide : 0 < keccakRate).trans_le (Nat.not_lt.mp h)) (by decide)

def squeeze (outLen : ℕ) (s : KeccakState) : List UInt8 :=
  if outLen ≤ keccakRate then firstBytes outLen s
  else firstBytes keccakRate s ++ squeeze (outLen - keccakRate) (KeccakF1600 s)
termination_by outLen

/-- `Keccak(1088, 512, in, inLen, sfx, out, outLen)` -/
def Keccak (data : List UInt8) (sfx : UInt8) (outLen : ℕ) : List UInt8 :=
  let (s, b) := absorb KeccakF1600 data fun _ => 0
  let s := Function.update s (Fin.ofNat 200 b) (s (Fin.ofNat 200 b) ^^^ sfx)
  let s := if sfx &&& 0x80 ≠ 0 ∧ b = keccakRate - 1 then KeccakF1600 s else s
  let s := Function.update s 135 (s 135 ^^^ 0x80)
  squeeze KeccakF1600 outLen (KeccakF1600 s)

/-- The hash of a message as a number. -/
def keccak256 (data : List UInt8) : ℕ := ba2scalar (Keccak KeccakF1600 data 0x01 32)

/-! ## Absorbing a padded message -/

/-- The state after `n` blocks. -/
def absorbBlocks (bytes : List UInt8) (s : KeccakState) : ℕ → KeccakState
  | 0 => s
  | n + 1 => KeccakF1600
      (xorBytes (absorbBlocks bytes s n) (slice bytes (keccakRate * n) (keccakRate * (n + 1))))

variable {KeccakF1600}

theorem slice_drop (bytes : List UInt8) (k i j : ℕ) :
    slice (bytes.drop k) i j = slice bytes (k + i) (k + j) := by
  rw [slice, slice, List.take_drop, List.drop_drop]

/-- The first block and the others. -/
theorem absorbBlocks_succ (bytes : List UInt8) (s : KeccakState) (n : ℕ) :
    absorbBlocks KeccakF1600 bytes s (n + 1) =
      absorbBlocks KeccakF1600 (bytes.drop keccakRate)
        (KeccakF1600 (xorBytes s (bytes.take keccakRate))) n := by
  induction n with
  | zero => rfl
  | succ n ih =>
    rw [absorbBlocks, ih, absorbBlocks, slice_drop, Nat.add_comm keccakRate,
      Nat.add_comm keccakRate]
    rfl

theorem getD_multiRatePadding {length : ℕ} (h : length < keccakRate) (t : ℕ) :
    (multiRatePadding keccakRate length).getD t 0 =
      (if t = 0 then 1 else 0) ^^^ (if length + t = 135 then 0x80 else 0) := by
  have hmod : length % keccakRate = length := Nat.mod_eq_of_lt h
  have hlt : length < 136 := h
  unfold multiRatePadding
  rw [hmod]
  dsimp only
  split
  · next hrest =>
    have hrest : 136 - length = 1 := hrest
    obtain rfl : length = 135 := by omega
    rcases t with _ | t
    · rfl
    · rw [if_neg (Nat.succ_ne_zero t), if_neg (by omega)]
      rfl
  · next hrest =>
    have hrest : 136 - length ≠ 1 := hrest
    rcases t with _ | t
    · rw [if_pos rfl, if_neg (by omega)]
      rfl
    · have hsize : keccakRate - length - 2 = 134 - length := Nat.sub_right_comm 136 length 2
      rw [if_neg (Nat.succ_ne_zero t), List.getD_cons_succ, hsize]
      rcases Nat.lt_trichotomy t (134 - length) with hlt | rfl | hgt
      · rw [List.getD_append _ _ _ _ (by rwa [List.length_replicate]),
          List.getD_replicate _ hlt, if_neg (by omega)]
        rfl
      · rw [List.getD_append_right _ _ _ _ (by rw [List.length_replicate]),
          List.length_replicate, Nat.sub_self, if_pos (by omega)]
        rfl
      · rw [List.getD_eq_default _ _ (by
          rw [List.length_append, List.length_replicate, List.length_singleton]
          omega), if_neg (by omega)]
        rfl

/-- The last block of a message with its padding, as the state takes it in. -/
theorem xorBytes_padded {data : List UInt8} (h : data.length < keccakRate) (s : KeccakState) :
    let s' := xorBytes s data
    let s' := Function.update s' (Fin.ofNat 200 data.length) (s' (Fin.ofNat 200 data.length) ^^^ 1)
    Function.update s' 135 (s' 135 ^^^ 0x80) =
      xorBytes s (data ++ multiRatePadding keccakRate data.length) := by
  intro s' s''
  funext i
  have hlt : data.length < 136 := h
  have hone : s'' i = xorBytes s data i ^^^ (if (i : ℕ) = data.length then 1 else 0) := by
    have hval : (Fin.ofNat 200 data.length).val = data.length := Nat.mod_eq_of_lt (by omega)
    by_cases hi : (i : ℕ) = data.length
    · obtain rfl : i = Fin.ofNat 200 data.length := Fin.ext (hi.trans hval.symm)
      rw [if_pos hi]
      exact Function.update_self ..
    · rw [if_neg hi, UInt8.xor_zero]
      exact Function.update_of_ne (fun heq => hi ((congrArg Fin.val heq).trans hval)) ..
  have htwo : Function.update s'' 135 (s'' 135 ^^^ 0x80) i =
      s'' i ^^^ (if (i : ℕ) = 135 then 0x80 else 0) := by
    by_cases hi : (i : ℕ) = 135
    · obtain rfl : i = 135 := Fin.ext hi
      rw [if_pos hi]
      exact Function.update_self ..
    · rw [if_neg hi, UInt8.xor_zero]
      exact Function.update_of_ne (fun heq => hi (congrArg Fin.val heq)) ..
  rw [htwo, hone, xorBytes, xorBytes, UInt8.xor_assoc, UInt8.xor_assoc]
  congr 1
  rcases Nat.lt_or_ge i data.length with hi | hi
  · rw [List.getD_append _ _ _ _ hi, if_neg hi.ne, if_neg (by omega)]
    simp
  · rw [List.getD_append_right _ _ _ _ hi, List.getD_eq_default _ _ hi,
      getD_multiRatePadding h, UInt8.zero_xor]
    congr 1
    · exact if_congr (by omega) rfl rfl
    · exact if_congr (by omega) rfl rfl

/-- A message of a block or more is padded behind its first block. -/
theorem pad10_drop {data : List UInt8} (h : keccakRate ≤ data.length) :
    pad10 keccakRate data = data.take keccakRate ++ pad10 keccakRate (data.drop keccakRate) := by
  have hmod : (data.length - keccakRate) % keccakRate = data.length % keccakRate :=
    (Nat.mod_eq_sub_mod h).symm
  rw [pad10_eq (by decide), pad10_eq (by decide), List.length_drop, ← List.append_assoc,
    List.take_append_drop, multiRatePadding, multiRatePadding, hmod]

/-- Absorbing a message and padding the state is absorbing the padded message. -/
theorem absorb_pad (KeccakF1600 : KeccakState → KeccakState) (data : List UInt8) (s : KeccakState)
    {n : ℕ}
    (hn : (pad10 keccakRate data).length = keccakRate * n) :
    let (s', b) := absorb KeccakF1600 data s
    let s' := Function.update s' (Fin.ofNat 200 b) (s' (Fin.ofNat 200 b) ^^^ 1)
    KeccakF1600 (Function.update s' 135 (s' 135 ^^^ 0x80)) =
      absorbBlocks KeccakF1600 (pad10 keccakRate data) s n := by
  induction data, s using absorb.induct KeccakF1600 generalizing n with
  | case1 data s h =>
    obtain ⟨m, hm, hle, hlt⟩ := pad10_blocks keccakRate (by decide) data
    obtain rfl : n = m + 1 := Nat.eq_of_mul_eq_mul_left (by decide) (hn.symm.trans hm)
    obtain rfl : m = 0 := by
      have hone : keccakRate * m < keccakRate * 1 := hle.trans_lt h
      exact Nat.lt_one_iff.mp (Nat.lt_of_mul_lt_mul_left hone)
    rw [absorb, if_pos h]
    have hpad := xorBytes_padded h s
    dsimp only at hpad ⊢
    rw [hpad, ← pad10_eq (by decide), absorbBlocks, absorbBlocks, slice, Nat.mul_zero,
      List.drop_zero, ← hn, List.take_length]
  | case2 data s h ih =>
    have hle := Nat.not_lt.mp h
    have hpad := pad10_drop hle
    have hlen : (data.take keccakRate).length = keccakRate := List.length_take_of_le hle
    obtain ⟨m, rfl⟩ : ∃ m, n = m + 1 := by
      rcases n with _ | m
      · rw [hpad, List.length_append, hlen, Nat.mul_zero] at hn
        exact absurd (Nat.eq_zero_of_add_eq_zero_right hn) (by decide)
      · exact ⟨m, rfl⟩
    rw [absorb, if_neg h, absorbBlocks_succ, hpad, List.take_left' hlen, List.drop_left' hlen]
    refine ih ?_
    rw [hpad, List.length_append, hlen, Nat.mul_succ, Nat.add_comm] at hn
    exact Nat.add_right_cancel hn

/-- The hash is read off the state after the blocks of the padded message. -/
theorem keccak256_eq (KeccakF1600 : KeccakState → KeccakState) (data : List UInt8) {n : ℕ}
    (hn : (pad10 keccakRate data).length = keccakRate * n) :
    keccak256 KeccakF1600 data = value (firstBytes 32
      (absorbBlocks KeccakF1600 (pad10 keccakRate data) (fun _ => 0) n)) := by
  have hpad := absorb_pad KeccakF1600 data (fun _ => 0) hn
  rw [keccak256, Keccak, ba2scalar, ← hpad]
  dsimp only
  rw [if_neg (fun h => h.1 (by decide)), squeeze, if_pos (by decide)]

end Keccak

/-- The hash has 32 bytes. -/
theorem keccak256_lt (KeccakF1600 : KeccakState → KeccakState) (data : List UInt8) :
    keccak256 KeccakF1600 data < 2 ^ 256 := by
  rw [keccak256, Keccak, ba2scalar]
  dsimp only
  rw [squeeze, if_pos (by decide)]
  refine (value_lt _).trans_eq ?_
  rw [firstBytes, List.length_map, List.length_range]
  decide

end ZkevmProver
