import Mathlib.Data.Nat.Size
import Mathlib.NumberTheory.LegendreSymbol.Basic
import ZkevmProver.ECRecover.GroupOrder
import ZkevmProver.Utils.ByteArray

/-!
# `ECRecover`

The public key that signed a message is recovered where `r ^ 3 + 7` has a square root.  Where it has
none, `sqrtF3mod4` answers with `ScalarMask256` while `ECRecover` looks for zero, and the assertion that
the root is below `FPEC` ends the process.

1. The function
2. The square root
3. The point that is recovered
4. The bytes that are hashed
5. What `ECRecover` returns
-/

namespace ZkevmProver

open ShortWeierstrass WeierstrassCurve LucasCertificate

/-! ## The function -/

inductive ECRecoverResult where
  | noError
  | rIsZero
  | rIsTooBig
  | sIsZero
  | sIsTooBig
  | vInvalid
  | noSqrtY
  deriving DecidableEq

def FNEC_MINUS_ONE : ℕ := FNEC - 1

def FNEC_DIV_TWO : ℕ := 0x7FFFFFFFFFFFFFFFFFFFFFFFFFFFFFFF5D576E7357A4501DDFE92F46681B20A0

def ADDRESS_MASK : ℕ := 0xFFFFFFFFFFFFFFFFFFFFFFFFFFFFFFFFFFFFFFFF

/-- It ends the process for zero. -/
def invFnEc (value : ℕ) : Option ℕ :=
  let a : ZMod FNEC := value
  if a = 0 then none else some (a⁻¹).val

def mulFpEc (a b : ℕ) : ℕ := a * b % FPEC

def mulFnEc (a b : ℕ) : ℕ := a * b % FNEC

def addFpEc (a b : ℕ) : ℕ := (a + b) % FPEC

/-- `mpz_powm` -/
def powm (base exp m : ℕ) : ℕ := mulPow m exp.size base exp 1 % m

def sqrtF3mod4 (a : ℕ) : ℕ :=
  let n := 0x3fffffffffffffffffffffffffffffffffffffffffffffffffffffffbfffff0c
  let r := powm a n FPEC
  if r * r % FPEC ≠ a then ScalarMask256 else r

/-- `mpz_export` of bytes, the most significant one first, as few as the number takes, over what the
memory holds. -/
def mpzExport (n : ℕ) (mem : ℕ → UInt8) (i : ℕ) : UInt8 :=
  let count := (n.size + 7) / 8
  if i < count then (n >>> (8 * (count - 1 - i))).toUInt8 else mem i

/-- `mpz_import` of bytes, the most significant one first. -/
def mpzImport (bytes : List UInt8) : ℕ := bytes.foldl (fun n b => n * 2 ^ 8 + b.toNat) 0

/-- What the local variables hold before they are written. -/
structure Stack where
  p : ℕ → TableEntry
  p3 : PointJacobian
  inputHash : ℕ → UInt8

/-- The 64 bytes that are hashed. -/
def inputHash (p3 : PointMpz) (mem : ℕ → UInt8) : List UInt8 :=
  List.ofFn (n := 32) (fun i => mpzExport p3.x mem i) ++
    List.ofFn (n := 32) (fun i => mpzExport p3.y (fun i => mem (32 + i)) i)

/-- `none` where the process ends. -/
def ecRecover (keccak : List UInt8 → List UInt8) (stack : Stack) (signature r s v : ℕ)
    (bPrecompiled : Bool) (address : ℕ) : Option (ECRecoverResult × ℕ) := do
  let ecrecover_s_upperlimit := if bPrecompiled then FNEC_MINUS_ONE else FNEC_DIV_TWO
  if r = 0 then return (.rIsZero, address)
  if r > FNEC_MINUS_ONE then return (.rIsTooBig, address)
  if s = 0 then return (.sIsZero, address)
  if s > ecrecover_s_upperlimit then return (.sIsTooBig, address)
  let ecrecover_r_inv ← invFnEc r
  if v ≠ 0x1b ∧ v ≠ 0x1c then return (.vInvalid, address)
  let ecrecover_v_parity := if v = 0x1b then 0 else 1
  let aux1 := mulFpEc r r
  let aux2 := mulFpEc aux1 r
  let aux3 := addFpEc aux2 7
  let ecrecover_y := if aux3 = 0 then 0 else sqrtF3mod4 aux3
  if aux3 ≠ 0 ∧ ecrecover_y = 0 then return (.noSqrtY, address)
  -- assert(ecrecover_y < FPEC)
  if ¬ecrecover_y < FPEC then failure
  let ecrecover_y :=
    if tstbit ecrecover_y 0 + ecrecover_v_parity = 1 then FPEC - ecrecover_y else ecrecover_y
  let k1 := FNEC - mulFnEc signature ecrecover_r_inv
  let k2 := mulFnEc s ecrecover_r_inv
  let p3 := mulPointEcJacobian ⟨ECGX, ECGY⟩ k1 ⟨r, ecrecover_y⟩ k2 stack.p stack.p3
  if ¬(p3.x < FPEC ∧ p3.y < FPEC) then failure
  let keccakHash := mpzImport (keccak (inputHash p3 stack.inputHash))
  return (.noError, keccakHash &&& ADDRESS_MASK)

/-! ## The square root -/

theorem cast_mulFpEc (a b : ℕ) : (mulFpEc a b : Fec) = a * b := by
  rw [mulFpEc, ZMod.natCast_mod, Nat.cast_mul]

theorem cast_addFpEc (a b : ℕ) : (addFpEc a b : Fec) = a + b := by
  rw [addFpEc, ZMod.natCast_mod, Nat.cast_add]

theorem cast_powm (base exp m : ℕ) : (powm base exp m : ZMod m) = base ^ exp := by
  rw [powm, ZMod.natCast_mod, mulPow_eq m (Nat.lt_size_self exp), Nat.cast_one, one_mul]

/-- The right side of the equation of the curve, as computed. -/
def cubeAddSeven (r : ℕ) : ℕ := addFpEc (mulFpEc (mulFpEc r r) r) 7

theorem cubeAddSeven_lt (r : ℕ) : cubeAddSeven r < FPEC := Nat.mod_lt _ (by decide)

theorem cast_cubeAddSeven (r : ℕ) : (cubeAddSeven r : Fec) = (r : Fec) ^ 3 + 7 := by
  rw [cubeAddSeven, cast_addFpEc, cast_mulFpEc, cast_mulFpEc]
  push_cast
  ring

theorem cubeAddSeven_ne_zero (r : ℕ) : cubeAddSeven r ≠ 0 := by
  intro h
  have hcast := cast_cubeAddSeven r
  rw [h, Nat.cast_zero] at hcast
  exact cube_add_seven_ne_zero r hcast.symm

/-- The root of a square, and `ScalarMask256` for the others. -/
theorem sqrtF3mod4_spec {a : ℕ} (ha : a < FPEC) (hne : (a : Fec) ≠ 0) :
    (IsSquare (a : Fec) → sqrtF3mod4 a < FPEC ∧ (sqrtF3mod4 a : Fec) ^ 2 = a) ∧
      (¬IsSquare (a : Fec) → sqrtF3mod4 a = ScalarMask256) := by
  let n := 0x3fffffffffffffffffffffffffffffffffffffffffffffffffffffffbfffff0c
  have hiff : powm a n FPEC * powm a n FPEC % FPEC = a ↔ (powm a n FPEC : Fec) ^ 2 = a := by
    rw [pow_two, ← Nat.cast_mul, ZMod.natCast_eq_natCast_iff', Nat.mod_eq_of_lt ha]
  have hsq : (powm a n FPEC : Fec) ^ 2 = a ↔ IsSquare (a : Fec) := by
    constructor
    · exact fun h => ⟨_, by rw [← h, pow_two]⟩
    · intro h
      have hpow := (ZMod.euler_criterion FPEC hne).mp h
      rw [cast_powm, ← pow_mul, show n * 2 = FPEC / 2 + 1 by decide, pow_succ, hpow, one_mul]
  have hlt : powm a n FPEC < FPEC := Nat.mod_lt _ (by decide)
  unfold sqrtF3mod4
  dsimp only
  constructor
  · intro h
    rw [if_neg (not_not.mpr (hiff.mpr (hsq.mpr h)))]
    exact ⟨hlt, hsq.mpr h⟩
  · exact fun h => if_pos fun heq => h (hsq.mp (hiff.mp heq))

/-! ## The point that is recovered -/

section

variable {r s v : ℕ} {bPrecompiled : Bool} {R : secp256k1.Point}

/-- The range checks on `r`, `s` and `v` pass. -/
structure InRange (r s v : ℕ) (bPrecompiled : Bool) : Prop where
  r_ne_zero : r ≠ 0
  r_le : r ≤ FNEC_MINUS_ONE
  s_ne_zero : s ≠ 0
  s_le : s ≤ if bPrecompiled then FNEC_MINUS_ONE else FNEC_DIV_TWO
  v_valid : v = 0x1b ∨ v = 0x1c

/-- The point with the first coordinate `r` whose second one has the parity of `v`. -/
def IsNonce (r v : ℕ) (R : secp256k1.Point) : Prop :=
  ∃ y h, R = .some (r : Fec) y h ∧ y.val % 2 = if v = 0x1b then 0 else 1

/-- `r⁻¹ (s R - z G)` -/
def publicKey (z r s : ℕ) (R : secp256k1.Point) : secp256k1.Point :=
  ((r : ZMod FNEC)⁻¹).val • (s • R - z • basePoint)

theorem IsNonce.unique {R' : secp256k1.Point} (h : IsNonce r v R) (h' : IsNonce r v R') : R = R' := by
  obtain ⟨y, hy, rfl, hparity⟩ := h
  obtain ⟨y', hy', rfl, hparity'⟩ := h'
  obtain rfl := eq_of_parity hy hy' (hparity.trans hparity'.symm)
  rfl

theorem IsNonce.isSquare (h : IsNonce r v R) : IsSquare ((r : Fec) ^ 3 + 7) := by
  obtain ⟨y, hy, -, -⟩ := h
  exact ⟨y, by rw [← nonsingular_iff.mp hy, pow_two]⟩

/-- The root with the parity that is looked for. -/
def withParity (y parity : ℕ) : ℕ := if tstbit y 0 + parity = 1 then FPEC - y else y

theorem withParity_spec {y parity : ℕ} (hy : y ≠ 0) (hlt : y < FPEC) (hparity : parity < 2) :
    withParity y parity < FPEC ∧ withParity y parity % 2 = parity ∧
      (withParity y parity : Fec) ^ 2 = (y : Fec) ^ 2 := by
  have hodd : FPEC % 2 = 1 := by decide
  have hbit : tstbit y 0 = y % 2 := by rw [tstbit, pow_zero, Nat.div_one]
  unfold withParity
  rw [hbit]
  split_ifs with h
  · refine ⟨by omega, by omega, ?_⟩
    rw [Nat.cast_sub hlt.le, ZMod.natCast_self, zero_sub, neg_sq]
  · exact ⟨hlt, by omega, rfl⟩

theorem mod_fnec_nsmul (k : ℕ) (P : secp256k1.Point) : (k % FNEC) • P = k • P := by
  conv_rhs => rw [← Nat.div_add_mod k FNEC, add_nsmul, mul_nsmul, fnec_nsmul, nsmul_zero, zero_add]

/-- The scalars of the multiplication, which are taken modulo `FNEC`. -/
theorem scalars_spec (z s r_inv : ℕ) (R : secp256k1.Point) :
    (FNEC - mulFnEc z r_inv) • basePoint + mulFnEc s r_inv • R =
      r_inv • (s • R - z • basePoint) := by
  have hle : mulFnEc z r_inv ≤ FNEC := (Nat.mod_lt _ (by decide)).le
  have hk1 : (FNEC - mulFnEc z r_inv) • basePoint = -((z * r_inv) • basePoint) := by
    rw [eq_neg_iff_add_eq_zero, ← mod_fnec_nsmul (z * r_inv), ← add_nsmul]
    exact (congrArg (· • basePoint) (Nat.sub_add_cancel hle)).trans (fnec_nsmul basePoint)
  rw [hk1, mulFnEc, mod_fnec_nsmul, nsmul_sub, smul_smul, smul_smul, mul_comm s, mul_comm z,
    neg_add_eq_sub]

end

/-! ## The bytes that are hashed -/

/-- The 32 bytes of a number, the most significant one first. -/
def toBytes32 (n : ℕ) : List UInt8 := .ofFn fun i : Fin 32 => (n >>> (8 * (31 - i.val))).toUInt8

section

variable {n : ℕ} {mem : ℕ → UInt8}

theorem mpzExport_full (h : 2 ^ 248 ≤ n) (hlt : n < 2 ^ 256) (mem : ℕ → UInt8) :
    List.ofFn (n := 32) (fun i => mpzExport n mem i) = toBytes32 n := by
  have hle : n.size ≤ 256 := Nat.size_le.mpr hlt
  have hsize : 248 < n.size := Nat.lt_size.mpr h
  have hcount : (n.size + 7) / 8 = 32 := by omega
  unfold toBytes32 mpzExport
  rw [hcount]
  exact congrArg List.ofFn (funext fun i => if_pos i.isLt)

/-- A shorter number leaves the last byte as it was. -/
theorem mpzExport_short (h : n < 2 ^ 248) : mpzExport n mem 31 = mem 31 := by
  have hle : n.size ≤ 248 := Nat.size_le.mpr h
  unfold mpzExport
  exact if_neg (by omega)

theorem inputHash_full {p3 : PointMpz} (hx : 2 ^ 248 ≤ p3.x ∧ p3.x < 2 ^ 256)
    (hy : 2 ^ 248 ≤ p3.y ∧ p3.y < 2 ^ 256) :
    inputHash p3 mem = toBytes32 p3.x ++ toBytes32 p3.y := by
  rw [inputHash, mpzExport_full hx.1 hx.2, mpzExport_full hy.1 hy.2]

theorem inputHash_getD (p3 : PointMpz) (mem : ℕ → UInt8) :
    (inputHash p3 mem).getD 31 0 = mpzExport p3.x mem 31 ∧
      (inputHash p3 mem).getD 63 0 = mpzExport p3.y (fun i => mem (32 + i)) 31 := by
  simp [inputHash]

theorem exists_other_byte (b : UInt8) : ∃ c, c ≠ b := by
  by_cases hb : b = 0
  · exact ⟨1, by rw [hb]; decide⟩
  · exact ⟨0, Ne.symm hb⟩

/-- With a short coordinate the hashed bytes depend on what the memory holds. -/
theorem inputHash_short {p3 : PointMpz} (h : p3.x < 2 ^ 248 ∨ p3.y < 2 ^ 248) (bytes : List UInt8) :
    ∃ mem, inputHash p3 mem ≠ bytes := by
  rcases h with hx | hy
  · obtain ⟨c, hc⟩ := exists_other_byte (bytes.getD 31 0)
    refine ⟨fun _ => c, fun heq => hc ?_⟩
    rw [← heq, (inputHash_getD p3 _).1, mpzExport_short hx]
  · obtain ⟨c, hc⟩ := exists_other_byte (bytes.getD 63 0)
    refine ⟨fun _ => c, fun heq => hc ?_⟩
    rw [← heq, (inputHash_getD p3 _).2, mpzExport_short hy]

end

/-! ## What `ECRecover` returns -/

section

variable {keccak : List UInt8 → List UInt8} {stack : Stack} {z r s v address : ℕ}
  {bPrecompiled : Bool}

/-- The point that is hashed. -/
def recovered (stack : Stack) (z r s v y : ℕ) : PointMpz :=
  let r_inv := ((r : ZMod FNEC)⁻¹).val
  mulPointEcJacobian ⟨ECGX, ECGY⟩ (FNEC - mulFnEc z r_inv)
    ⟨r, withParity y (if v = 0x1b then 0 else 1)⟩ (mulFnEc s r_inv) stack.p stack.p3

theorem invFnEc_eq (h : r ≠ 0) (hle : r ≤ FNEC_MINUS_ONE) :
    invFnEc r = some ((r : ZMod FNEC)⁻¹).val := by
  have hlt : r < FNEC := Nat.lt_of_le_pred (by decide) hle
  have hcast : (r : ZMod FNEC) ≠ 0 := by
    rw [Ne, ZMod.natCast_eq_zero_iff]
    exact Nat.not_dvd_of_pos_of_lt (Nat.pos_of_ne_zero h) hlt
  exact if_neg hcast

theorem ecRecover_of_not_inRange (keccak : List UInt8 → List UInt8) (stack : Stack) (z address : ℕ)
    (h : ¬InRange r s v bPrecompiled) :
    ∃ result, ecRecover keccak stack z r s v bPrecompiled address = some (result, address) ∧
      result ≠ .noError ∧ result ≠ .noSqrtY := by
  unfold ecRecover
  by_cases h1 : r = 0
  · exact ⟨.rIsZero, by rw [if_pos h1]; rfl, nofun, nofun⟩
  by_cases h2 : r > FNEC_MINUS_ONE
  · exact ⟨.rIsTooBig, by rw [if_neg h1, if_pos h2]; rfl, nofun, nofun⟩
  by_cases h3 : s = 0
  · exact ⟨.sIsZero, by rw [if_neg h1, if_neg h2, if_pos h3]; rfl, nofun, nofun⟩
  by_cases h4 : s > if bPrecompiled then FNEC_MINUS_ONE else FNEC_DIV_TWO
  · exact ⟨.sIsTooBig, by rw [if_neg h1, if_neg h2, if_neg h3, if_pos h4]; rfl, nofun, nofun⟩
  have h5 : v ≠ 0x1b ∧ v ≠ 0x1c := by
    rw [← not_or]
    exact fun h5 => h ⟨h1, not_lt.mp h2, h3, not_lt.mp h4, h5⟩
  refine ⟨.vInvalid, ?_, nofun, nofun⟩
  rw [if_neg h1, if_neg h2, if_neg h3, if_neg h4, invFnEc_eq h1 (not_lt.mp h2)]
  exact if_pos h5

theorem mulPointEcJacobian_lt (p1 : PointMpz) (k1 : ℕ) (p2 : PointMpz) (k2 : ℕ) (p : ℕ → TableEntry)
    (p3 : PointJacobian) : (mulPointEcJacobian p1 k1 p2 k2 p p3).x < FPEC ∧
      (mulPointEcJacobian p1 k1 p2 k2 p p3).y < FPEC := ⟨toMpz_lt _, toMpz_lt _⟩

theorem ecRecover_of_inRange (h : InRange r s v bPrecompiled) :
    ecRecover keccak stack z r s v bPrecompiled address =
      if sqrtF3mod4 (cubeAddSeven r) = 0 then some (.noSqrtY, address)
      else if sqrtF3mod4 (cubeAddSeven r) < FPEC then
        some (.noError, mpzImport (keccak (inputHash
          (recovered stack z r s v (sqrtF3mod4 (cubeAddSeven r))) stack.inputHash)) &&& ADDRESS_MASK)
      else none := by
  unfold ecRecover
  have hv : ¬(v ≠ 0x1b ∧ v ≠ 0x1c) := by
    rw [← not_or, not_not]
    exact h.v_valid
  have hcube : addFpEc (mulFpEc (mulFpEc r r) r) 7 = cubeAddSeven r := rfl
  rw [if_neg h.r_ne_zero, if_neg (not_lt.mpr h.r_le), if_neg h.s_ne_zero, if_neg (not_lt.mpr h.s_le),
    invFnEc_eq h.r_ne_zero h.r_le]
  simp only [Option.bind_eq_bind, Option.bind_some, if_neg hv, hcube, if_neg (cubeAddSeven_ne_zero r)]
  by_cases hzero : sqrtF3mod4 (cubeAddSeven r) = 0
  · rw [if_pos ⟨cubeAddSeven_ne_zero r, hzero⟩, if_pos hzero]
    rfl
  rw [if_neg (not_and_of_not_right _ hzero), if_neg hzero]
  by_cases hlt : sqrtF3mod4 (cubeAddSeven r) < FPEC
  · rw [if_neg (not_not.mpr hlt), if_pos hlt,
      if_neg (not_not.mpr (mulPointEcJacobian_lt _ _ _ _ _ _))]
    rfl
  · rw [if_pos hlt, if_neg hlt]
    rfl

/-- Without a root the process ends. -/
theorem ecRecover_of_not_isSquare (h : InRange r s v bPrecompiled)
    (hsq : ¬IsSquare ((r : Fec) ^ 3 + 7)) :
    ecRecover keccak stack z r s v bPrecompiled address = none := by
  rw [← cast_cubeAddSeven] at hsq
  have hne : (cubeAddSeven r : Fec) ≠ 0 := by
    rw [cast_cubeAddSeven]
    exact cube_add_seven_ne_zero r
  rw [ecRecover_of_inRange h, (sqrtF3mod4_spec (cubeAddSeven_lt r) hne).2 hsq,
    if_neg (by decide), if_neg (by decide)]

/-- With a root the multiplication is that of the public key. -/
theorem ecRecover_of_isSquare (stack : Stack) (z address : ℕ) (h : InRange r s v bPrecompiled)
    (hsq : IsSquare ((r : Fec) ^ 3 + 7)) :
    ∃ R p3, IsNonce r v R ∧ (publicKey z r s R ≠ 0 → p3.Is (publicKey z r s R)) ∧
      ∀ keccak mem, ecRecover keccak { stack with inputHash := mem } z r s v bPrecompiled address =
        some (.noError, mpzImport (keccak (inputHash p3 mem)) &&& ADDRESS_MASK) := by
  have hsq' := hsq
  rw [← cast_cubeAddSeven] at hsq'
  have hne : (cubeAddSeven r : Fec) ≠ 0 := by
    rw [cast_cubeAddSeven]
    exact cube_add_seven_ne_zero r
  obtain ⟨hlt, hroot⟩ := (sqrtF3mod4_spec (cubeAddSeven_lt r) hne).1 hsq'
  rw [cast_cubeAddSeven] at hroot
  have hzero : sqrtF3mod4 (cubeAddSeven r) ≠ 0 := by
    intro hzero
    rw [hzero, Nat.cast_zero, zero_pow two_ne_zero] at hroot
    exact cube_add_seven_ne_zero r hroot.symm
  have hparity : (if v = 0x1b then 0 else 1) < 2 := by split_ifs <;> decide
  obtain ⟨hlt', hmod, hpow⟩ := withParity_spec hzero hlt hparity
  let y := withParity (sqrtF3mod4 (cubeAddSeven r)) (if v = 0x1b then 0 else 1)
  have hR : secp256k1.Nonsingular (r : Fec) (y : Fec) := nonsingular_iff.mpr (hpow.trans hroot)
  have hr : r < FPEC := h.r_le.trans_lt (by decide)
  have hR' : PointMpz.Is ⟨r, y⟩ (.some _ _ hR) := ⟨⟨hr, hlt'⟩, hR, rfl⟩
  have hval : (y : Fec).val = y := ZMod.val_cast_of_lt hlt'
  refine ⟨.some _ _ hR, recovered stack z r s v (sqrtF3mod4 (cubeAddSeven r)),
    ⟨y, hR, rfl, by rw [hval, hmod]⟩, fun hQ => ?_, fun keccak mem => ?_⟩
  · have hk1 : FNEC - mulFnEc z ((r : ZMod FNEC)⁻¹).val < 2 ^ 256 :=
      (Nat.sub_le _ _).trans_lt (by decide)
    have hk2 : mulFnEc s ((r : ZMod FNEC)⁻¹).val < 2 ^ 256 :=
      (Nat.mod_lt _ (by decide)).trans (by decide)
    have hdenotes := mulPointEcJacobian_denotes baseMpz_is hR' hk1 hk2 stack.p stack.p3
    rw [scalars_spec] at hdenotes
    exact hdenotes.toAffine hQ
  · rw [ecRecover_of_inRange h, if_neg hzero, if_pos hlt]
    rfl

/-- The result is what the public key asks for: it ends, the missing root is reported exactly where
there is none, and without an error the address is that of the public key. -/
def Recovers (keccak : List UInt8 → List UInt8) (stack : Stack) (z r s v : ℕ) (bPrecompiled : Bool)
    (address : ℕ) : Prop :=
  ∃ result address', ecRecover keccak stack z r s v bPrecompiled address = some (result, address') ∧
    (result = .noSqrtY ↔ InRange r s v bPrecompiled ∧ ¬IsSquare ((r : Fec) ^ 3 + 7)) ∧
    (result = .noError → ∃ R, IsNonce r v R ∧ ∃ x y h, publicKey z r s R = .some x y h ∧
      address' = mpzImport (keccak (toBytes32 x.val ++ toBytes32 y.val)) % 2 ^ 160)

theorem and_addressMask (n : ℕ) : n &&& ADDRESS_MASK = n % 2 ^ 160 :=
  Nat.and_two_pow_sub_one_eq_mod n 160

/-- The public key is a point whose coordinates both take 32 bytes. -/
def FullKey (z r s v : ℕ) : Prop :=
  ∃ R, IsNonce r v R ∧ ∃ x y h, publicKey z r s R = .some x y h ∧ 2 ^ 248 ≤ x.val ∧ 2 ^ 248 ≤ y.val

theorem recovers_of_fullKey (h : InRange r s v bPrecompiled) (hkey : FullKey z r s v) :
    Recovers keccak stack z r s v bPrecompiled address := by
  obtain ⟨R, hR, x, y, hQ, hkey, hx, hy⟩ := hkey
  obtain ⟨R', p3, hR', hp3, hrun⟩ := ecRecover_of_isSquare stack z address h hR.isSquare
  obtain rfl := hR.unique hR'
  have hne : publicKey z r s R ≠ 0 := hkey ▸ Affine.Point.some_ne_zero hQ
  have hp3' := hp3 hne
  rw [hkey] at hp3'
  obtain rfl : p3 = ⟨toMpz x, toMpz y⟩ := hp3'.unique (.of_some hQ)
  have hbytes : inputHash ⟨toMpz x, toMpz y⟩ stack.inputHash = toBytes32 x.val ++ toBytes32 y.val :=
    inputHash_full ⟨hx, (toMpz_lt x).trans (by decide)⟩
      ⟨hy, (toMpz_lt y).trans (by decide)⟩
  refine ⟨.noError, _, hrun keccak stack.inputHash, ⟨nofun, fun hno => absurd hR.isSquare hno.2⟩,
    fun _ => ⟨R, hR, x, y, hQ, hkey, ?_⟩⟩
  rw [hbytes, and_addressMask]

/-- Some memory. -/
def emptyStack : Stack := ⟨fun _ => ⟨⟨⟨0, 0, 0⟩, true⟩, 0, 0⟩, ⟨0, 0, 0⟩, fun _ => 0⟩

/-- Bytes that depend on the memory are not those of the public key, for some memory, and a hash may
tell them apart. -/
theorem fullKey_of_recovers (h : InRange r s v bPrecompiled)
    (hall : ∀ keccak stack, Recovers keccak stack z r s v bPrecompiled address) :
    FullKey z r s v := by
  have hsq : IsSquare ((r : Fec) ^ 3 + 7) := by
    by_contra hsq
    obtain ⟨_, _, hsome, -⟩ := hall id emptyStack
    rw [ecRecover_of_not_isSquare h hsq] at hsome
    cases hsome
  obtain ⟨R, p3, hR, hp3, hrun⟩ := ecRecover_of_isSquare emptyStack z address h hsq
  have hkey : ∀ (keccak : List UInt8 → List UInt8) mem, ∃ x y hQ, publicKey z r s R = .some x y hQ ∧
      mpzImport (keccak (inputHash p3 mem)) % 2 ^ 160 =
        mpzImport (keccak (toBytes32 x.val ++ toBytes32 y.val)) % 2 ^ 160 := by
    intro keccak mem
    obtain ⟨result, address', hrun', -, hnoError⟩ := hall keccak { emptyStack with inputHash := mem }
    rw [hrun, Option.some.injEq, Prod.mk.injEq, and_addressMask] at hrun'
    obtain ⟨rfl, rfl⟩ := hrun'
    obtain ⟨R', hR', x, y, hQ, hkey, haddress⟩ := hnoError rfl
    obtain rfl := hR.unique hR'
    exact ⟨x, y, hQ, hkey, haddress⟩
  obtain ⟨x, y, hQ, hkey₀, -⟩ := hkey id fun _ => 0
  refine ⟨R, hR, x, y, hQ, hkey₀, ?_⟩
  have hpoint : p3 = ⟨toMpz x, toMpz y⟩ := by
    refine PointMpz.Is.unique (hp3 ?_) (hkey₀ ▸ .of_some hQ)
    rw [hkey₀]
    exact Affine.Point.some_ne_zero hQ
  by_contra hshort
  have hshort' : p3.x < 2 ^ 248 ∨ p3.y < 2 ^ 248 := by
    rw [hpoint]
    exact (not_and_or.mp hshort).imp not_le.mp not_le.mp
  obtain ⟨mem, hmem⟩ := inputHash_short hshort' (toBytes32 x.val ++ toBytes32 y.val)
  let keccak (bytes : List UInt8) : List UInt8 :=
    if bytes = toBytes32 x.val ++ toBytes32 y.val then [] else [1]
  obtain ⟨x', y', hQ', hkey', haddress⟩ := hkey keccak mem
  rw [hkey₀, Affine.Point.some.injEq] at hkey'
  obtain ⟨rfl, rfl⟩ := hkey'
  rw [show keccak (inputHash p3 mem) = [1] from if_neg hmem,
    show keccak (toBytes32 x.val ++ toBytes32 y.val) = [] from if_pos rfl] at haddress
  exact absurd haddress (by decide)

/-- **`ECRecover` recovers the public key exactly where the range checks fail or there is a root and a
public key whose coordinates both take 32 bytes.** -/
theorem ecRecover_recovers_iff (z r s v : ℕ) (bPrecompiled : Bool) (address : ℕ) :
    (∀ keccak stack, Recovers keccak stack z r s v bPrecompiled address) ↔
      (InRange r s v bPrecompiled → FullKey z r s v) := by
  refine ⟨fun hall h => fullKey_of_recovers h hall, fun hkey keccak stack => ?_⟩
  by_cases h : InRange r s v bPrecompiled
  · exact recovers_of_fullKey h (hkey h)
  · obtain ⟨result, hrun, hnoError, hnoSqrtY⟩ := ecRecover_of_not_inRange keccak stack z address h
    exact ⟨result, address, hrun, ⟨fun heq => absurd heq hnoSqrtY, fun hno => absurd hno.1 h⟩,
      fun heq => absurd heq hnoError⟩

/-- The last `r` that passes the checks has no point on the curve. -/
theorem ecRecover_no_root :
    InRange FNEC_MINUS_ONE 0x4f8ae3bd7535248d0bd448298cc2e2071e56992d0774dc340c368ae950852ada 0x1c
      false ∧
    ∀ keccak stack, ecRecover keccak stack
      0x456e9aea5e197a1f1af7a3e85a3212fa4049a3ba34c2289b4c860fc0b0c64ef3 FNEC_MINUS_ONE
      0x4f8ae3bd7535248d0bd448298cc2e2071e56992d0774dc340c368ae950852ada 0x1c false 0 = none := by
  have hrange : InRange FNEC_MINUS_ONE
      0x4f8ae3bd7535248d0bd448298cc2e2071e56992d0774dc340c368ae950852ada 0x1c false :=
    ⟨by decide, le_rfl, by norm_num, by decide, .inr rfl⟩
  refine ⟨hrange, fun keccak stack => ecRecover_of_not_isSquare hrange ?_⟩
  have hne : (cubeAddSeven FNEC_MINUS_ONE : Fec) ≠ 0 := by
    rw [cast_cubeAddSeven]
    exact cube_add_seven_ne_zero _
  have hnot : powIsOne FPEC 256 (cubeAddSeven FNEC_MINUS_ONE) (FPEC / 2) = false := by decide +kernel
  rw [← cast_cubeAddSeven, ZMod.euler_criterion FPEC hne,
    ← powIsOne_iff FPEC (by decide : FPEC / 2 < 2 ^ 256), hnot]
  exact Bool.false_ne_true

end

end ZkevmProver
