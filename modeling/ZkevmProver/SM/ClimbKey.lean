import ZkevmProver.Lib.DigitCarry
import ZkevmProver.Lib.Loops
import ZkevmProver.Utils.KeyUtils

/-!
# Climbing a key

When the storage state machine climbs a level, the element of the remaining key whose turn it is gets one
more bit.  `ClimbKeyExecutor` writes four rows for that, which double the element in chunks and compare the
result with the prime.

  1. The executor.
  2. `ClimbKeyHelper`.
  3. Doubling and comparing in chunks.
  4. The rows of the actions.
  5. What an action shows.
-/

namespace ZkevmProver

open DigitCarry Function

/-! ## The executor -/

structure ClimbKeyAction where
  key : Fea
  /-- A `uint16_t`. -/
  level : ℕ
  /-- A `uint8_t` that holds a bit. -/
  bit : Bool

/-- The values of the committed polynomials at one index. -/
structure ClimbKeyRow where
  /-- `key0`, …, `key3` -/
  key : Fin 4 → Fe
  level : Fe
  keyIn : Fe
  keyInChunk : Fe
  result : Fe
  bit : Fe
  /-- `keySel0`, …, `keySel3` -/
  keySel : Fin 4 → Fe
  carryLt : Fe

/-- The committed polynomials, by index. -/
abbrev ClimbKeyCommitPols := ℕ → ClimbKeyRow

namespace ClimbKeyExecutor

abbrev CLIMB_KEY_CLOCKS : ℕ := 4
abbrev CLIMB_KEY_LAST_CLOCK : ℕ := CLIMB_KEY_CLOCKS - 1
abbrev CLIMB_KEY_RESULT_CLOCK : ℕ := CLIMB_KEY_CLOCKS - 2

def GL_CHUNKS (clock : ℕ) : ℕ := [0x00001, 0x3C000, 0x3FFFF, 0x003FF].getD clock 0

def CHUNK_MASKS (clock : ℕ) : ℕ := [0x3FFFF, 0x3FFFF, 0x3FFFF, 0x003FF].getD clock 0

def CHUNK_FACTORS (clock : ℕ) : ℕ := [1, 1 <<< 18, 1 <<< 36, 1 <<< 54].getD clock 0

/-- The variables that an action keeps from one clock to the next. -/
structure ClimbVars where
  value : ℕ
  carry : ℕ
  lt : ℕ
  deriving DecidableEq

namespace ClimbVars

def start (a : ClimbKeyAction) : ClimbVars := ⟨toU64 (a.key.get (lane a.level)), a.bit.toNat, 0⟩

def chunkValue (v : ClimbVars) : ℕ := v.value &&& 0x3FFFF

def chunkValueClimbed (v : ClimbVars) : ℕ := v.chunkValue * 2 + v.carry

def next (v : ClimbVars) (clock : ℕ) : ClimbVars :=
  let croppedChunkValueClimbed := v.chunkValueClimbed &&& CHUNK_MASKS clock
  { value := v.value >>> 18
    carry := if v.chunkValueClimbed > CHUNK_MASKS clock then 1 else 0
    lt :=
      if croppedChunkValueClimbed < GL_CHUNKS clock then 1
      else if croppedChunkValueClimbed = GL_CHUNKS clock then v.lt else 0 }

/-- The variables before clock `n`. -/
def before (a : ClimbKeyAction) (n : ℕ) : ClimbVars := Loops.forUpTo n (fun clock v => v.next clock) (start a)

/-- The climbed element fits in 64 bits and is less than the prime. -/
def Accepts (v : ClimbVars) : Prop := v.carry = 0 ∧ v.lt = 1

instance : DecidablePred Accepts := fun v => inferInstanceAs (Decidable (v.carry = 0 ∧ v.lt = 1))

end ClimbVars

/-- The row of a clock; `keyIn` is that of the row before. -/
def climbRow (a : ClimbKeyAction) (v : ClimbVars) (clock : ℕ) (keyIn : Fe) : ClimbKeyRow :=
  let zlevel := a.level % 4
  let keyInChunkShifted := fromU64 (v.chunkValue * CHUNK_FACTORS clock)
  -- a `uint8_t`
  let keySelLevel := if clock = CLIMB_KEY_LAST_CLOCK then zlevel else 0xFFFF % 256
  { key := fun l =>
      if clock = CLIMB_KEY_LAST_CLOCK ∧ zlevel = l then a.key.get l * fromU64 2 + fromU64 a.bit.toNat
      else a.key.get l
    level := fromU64 a.level
    keyInChunk := fromU64 v.chunkValue
    keyIn := if clock = 0 then keyInChunkShifted else keyIn + keyInChunkShifted
    bit := fromU64 a.bit.toNat
    carryLt := fromU64 (v.carry + 2 * v.lt)
    keySel := fun l => if keySelLevel = l then 1 else 0
    result := if clock = CLIMB_KEY_RESULT_CLOCK then 1 else 0 }

/-- The loop over the clocks of action `i`. -/
def climb (a : ClimbKeyAction) (i : ℕ) (pols : ClimbKeyCommitPols) : ClimbVars × ClimbKeyCommitPols :=
  Loops.forUpTo CLIMB_KEY_CLOCKS
    (fun clock s =>
      let row := i * CLIMB_KEY_CLOCKS + clock
      (s.1.next clock, update s.2 row (climbRow a s.1 clock (s.2 (row - 1)).keyIn)))
    (.start a, pols)

/-- Four rows after the last action. -/
def fillRows (row : ℕ) (pols : ClimbKeyCommitPols) : ClimbKeyCommitPols := fun q =>
  if q = row + 1 ∨ q = row + 2 then { pols q with carryLt := fromU64 2 }
  else if q = row + 3 then { pols q with keySel := update (pols q).keySel 0 1, carryLt := fromU64 2 }
  else pols q

/-- `ClimbKeyExecutor::execute`; `none` when the process exits. -/
def execute (N : ℕ) (input : List ClimbKeyAction) (pols : ClimbKeyCommitPols) : Option ClimbKeyCommitPols :=
  if input.length * CLIMB_KEY_CLOCKS > N then none
  else
    let pols := input.zipIdx.foldl (fun pols (a, i) => (climb a i pols).2) pols
    let usedRows := input.length * CLIMB_KEY_CLOCKS
    some (Loops.forUpTo ((N - usedRows + 3) / 4) (fun k => fillRows (usedRows + k * 4)) pols)

end ClimbKeyExecutor

/-! ## `ClimbKeyHelper` -/

namespace ClimbKeyHelper

def LIMIT_BEFORE_CLIMB_UP : ℕ := goldilocksPrime >>> 1

/-- The climbed element, unless it is not less than the prime. -/
def calculate (current : Fe) (bit : Bool) : Option Fe :=
  if toU64 current > LIMIT_BEFORE_CLIMB_UP - bit.toNat then none
  else some (fromU64 (toU64 current * 2 + bit.toNat))

end ClimbKeyHelper

namespace ClimbKeyAction

/-- The element whose turn it is. -/
def limb (a : ClimbKeyAction) : ℕ := toU64 (a.key.get (lane a.level))

def climbed (a : ClimbKeyAction) : ℕ := 2 * a.limb + a.bit.toNat

end ClimbKeyAction

namespace ClimbKeyExecutor

variable {a : ClimbKeyAction} {v : ClimbVars}

theorem limb_lt (a : ClimbKeyAction) : a.limb < 0xFFFFFFFF00000001 := (a.key.get (lane a.level)).isLt

theorem prime_eq : goldilocksPrime = 0xFFFFFFFF00000001 := rfl

theorem bit_le_one (a : ClimbKeyAction) : a.bit.toNat ≤ 1 := Bool.toNat_le a.bit

/-- The limit leaves just the elements whose climbed element is less than the prime. -/
theorem calculate_eq (a : ClimbKeyAction) :
    ClimbKeyHelper.calculate (a.key.get (lane a.level)) a.bit =
      if a.climbed < goldilocksPrime then some (fromU64 a.climbed) else none := by
  have hlimb := limb_lt a
  have hbit := bit_le_one a
  have hlimit : ClimbKeyHelper.LIMIT_BEFORE_CLIMB_UP = 9223372034707292160 := by decide
  have hcases : a.limb > ClimbKeyHelper.LIMIT_BEFORE_CLIMB_UP - a.bit.toNat ↔
      ¬a.climbed < goldilocksPrime := by
    rw [hlimit, ClimbKeyAction.climbed, prime_eq]
    omega
  have hvalue : a.limb * 2 + a.bit.toNat = a.climbed := by
    rw [ClimbKeyAction.climbed, Nat.mul_comm]
  unfold ClimbKeyHelper.calculate
  change (if a.limb > _ then none else some (fromU64 (a.limb * 2 + a.bit.toNat))) = _
  rw [hvalue]
  by_cases h : a.climbed < goldilocksPrime
  · rw [if_pos h, if_neg (hcases.not.mpr (not_not.mpr h))]
  · rw [if_neg h, if_pos (hcases.mpr h)]

/-! ## Doubling and comparing in chunks -/

namespace ClimbVars

/-- What is known of the element and of the climbed element below `W`. -/
structure Tracks (a : ClimbKeyAction) (W : ℕ) (v : ClimbVars) : Prop where
  value : v.value = a.limb / W
  carry : v.carry = doubleCarry W a.limb a.bit.toNat
  lt : v.lt = if a.climbed % W < goldilocksPrime % W then 1 else 0

theorem tracks_start (a : ClimbKeyAction) : Tracks a 1 (start a) where
  value := (Nat.div_one _).symm
  carry := by simp [doubleCarry, start, Nat.mod_one]
  lt := by simp [start, Nat.mod_one]

/-- One more chunk, of `k` bits. -/
theorem Tracks.next {W clock k : ℕ} (h : Tracks a W v) (hW : 0 < W) (hmask : CHUNK_MASKS clock = 2 ^ k - 1)
    (hprime : GL_CHUNKS clock = goldilocksPrime / W % 2 ^ k)
    (hchunk : a.limb / W % 2 ^ 18 = a.limb / W % 2 ^ k)
    (hvalue : a.limb / W / 2 ^ 18 = a.limb / (W * 2 ^ k)) : Tracks a (W * 2 ^ k) (v.next clock) := by
  have hk : 0 < 2 ^ k := Nat.two_pow_pos k
  have hcarry := doubleCarry_le_one hW (bit_le_one a) a.limb
  have hclimbed : v.chunkValueClimbed = 2 * (a.limb / W % 2 ^ k) + doubleCarry W a.limb a.bit.toNat := by
    rw [chunkValueClimbed, chunkValue, h.value, h.carry, ← hchunk, Nat.mul_comm]
    exact congrArg (2 * · + _) (Nat.and_two_pow_sub_one_eq_mod _ 18)
  have hcropped : v.chunkValueClimbed &&& CHUNK_MASKS clock = a.climbed / W % 2 ^ k := by
    rw [hmask, Nat.and_two_pow_sub_one_eq_mod, hclimbed, ClimbKeyAction.climbed, double_div hW,
      Nat.add_mod, Nat.mul_mod, Nat.mod_mod, ← Nat.mul_mod, ← Nat.add_mod]
  have hchunk_lt := Nat.mod_lt (a.limb / W) hk
  refine ⟨?_, ?_, ?_⟩
  · change v.value >>> 18 = _
    rw [h.value, Nat.shiftRight_eq_div_pow, hvalue]
  · change (if v.chunkValueClimbed > CHUNK_MASKS clock then 1 else 0) = _
    rw [doubleCarry_mul hW, ← hclimbed, hmask]
    split
    · exact (Nat.div_eq_of_lt_le (by omega) (by omega)).symm
    · exact (Nat.div_eq_of_lt (by omega)).symm
  · change (if v.chunkValueClimbed &&& CHUNK_MASKS clock < GL_CHUNKS clock then 1
      else if v.chunkValueClimbed &&& CHUNK_MASKS clock = GL_CHUNKS clock then v.lt else 0) = _
    rw [hcropped, hprime, h.lt]
    simp only [mod_mul_lt_iff hW]
    split
    · next hlt => rw [if_pos (.inl hlt)]
    · next hlt =>
      by_cases heq : a.climbed / W % 2 ^ k = goldilocksPrime / W % 2 ^ k
      · simp [heq]
      · simp [hlt, heq]

theorem before_succ (a : ClimbKeyAction) (n : ℕ) : before a (n + 1) = (before a n).next n := rfl

/-- The first three chunks have 18 bits. -/
theorem tracks_before {n : ℕ} (hn : n ≤ 3) : Tracks a (2 ^ (18 * n)) (before a n) := by
  induction n with
  | zero => exact tracks_start a
  | succ n ih =>
    have hchunks : ∀ n < 3, CHUNK_MASKS n = 2 ^ 18 - 1 ∧
        GL_CHUNKS n = goldilocksPrime / 2 ^ (18 * n) % 2 ^ 18 := by decide
    obtain ⟨hmask, hprime⟩ := hchunks n hn
    rw [before_succ, Nat.mul_succ, Nat.pow_add]
    exact (ih (Nat.le_of_succ_le hn)).next (Nat.two_pow_pos _) hmask hprime rfl (Nat.div_div_eq_div_mul _ _ _)

/-- The last chunk has the other 10 bits. -/
theorem tracks_all (a : ClimbKeyAction) : Tracks a (2 ^ 64) (before a 4) := by
  have hlimb := limb_lt a
  have hhigh : a.limb / 2 ^ 54 < 2 ^ 10 := by omega
  have hlast : Tracks a (2 ^ 54 * 2 ^ 10) (before a 4) := by
    refine (tracks_before le_rfl).next (Nat.two_pow_pos _) (by decide) (by decide) ?_ ?_
    · exact (Nat.mod_eq_of_lt (by omega)).trans (Nat.mod_eq_of_lt hhigh).symm
    · omega
  exact hlast

theorem accepts_before (a : ClimbKeyAction) : (before a 4).Accepts ↔ a.climbed < goldilocksPrime := by
  have h := tracks_all a
  have hlimb := limb_lt a
  have hcarry : (before a 4).carry = a.climbed / 2 ^ 64 := by
    rw [h.carry, doubleCarry, Nat.mod_eq_of_lt (by omega)]
    rfl
  unfold Accepts
  rw [hcarry, h.lt, prime_eq]
  by_cases hlt : a.climbed % 2 ^ 64 < 0xFFFFFFFF00000001 % 2 ^ 64
  · rw [if_pos hlt]
    omega
  · rw [if_neg hlt]
    omega

end ClimbVars

/-! ## The rows of the actions -/

/-- The row of a clock of an action. -/
def rowAt (a : ClimbKeyAction) : ℕ → ClimbKeyRow
  | 0 => climbRow a (.before a 0) 0 0
  | clock + 1 => climbRow a (.before a (clock + 1)) (clock + 1) (rowAt a clock).keyIn

theorem climb_spec (a : ClimbKeyAction) (i : ℕ) (pols : ClimbKeyCommitPols) :
    (climb a i pols).1 = .before a 4 ∧ (∀ c < 4, (climb a i pols).2 (i * 4 + c) = rowAt a c) ∧
      ∀ q, q < i * 4 ∨ i * 4 + 4 ≤ q → (climb a i pols).2 q = pols q := by
  unfold climb CLIMB_KEY_CLOCKS
  refine Loops.forUpTo_inv (J := fun n (s : ClimbVars × ClimbKeyCommitPols) => s.1 = .before a n ∧
    (∀ c < n, s.2 (i * 4 + c) = rowAt a c) ∧ ∀ q, q < i * 4 ∨ i * 4 + n ≤ q → s.2 q = pols q)
    ⟨rfl, nofun, fun _ _ => rfl⟩ ?_
  rintro n - ⟨v, rows⟩ ⟨rfl, hrows, hother⟩
  refine ⟨rfl, fun c hc => ?_, fun q hq => ?_⟩
  · rcases Nat.lt_succ_iff_lt_or_eq.mp hc with hlt | rfl
    · exact (update_of_ne (by omega) _ _).trans (hrows c hlt)
    · refine (update_self _ _ _).trans ?_
      cases c with
      | zero => rfl
      | succ c => exact congrArg (climbRow a _ _ ·.keyIn) (hrows c (Nat.lt_succ_self c))
  · exact (update_of_ne (by omega) _ _).trans (hother q (by omega))

/-- The rows after the last action are not those of an action. -/
theorem fillRows_of_lt {row q : ℕ} {pols : ClimbKeyCommitPols} (h : q < row) : fillRows row pols q = pols q := by
  unfold fillRows
  rw [if_neg (by omega), if_neg (by omega)]

theorem execute_fills {N : ℕ} {input : List ClimbKeyAction} (pols : ClimbKeyCommitPols)
    (hsize : input.length * 4 ≤ N) :
    ∃ pols', execute N input pols = some pols' ∧
      ∀ i (h : i < input.length), ∀ c < 4, pols' (i * 4 + c) = rowAt input[i] c := by
  have hactions := Loops.foldl_zipIdx_inv (s := pols) (l := input)
    (f := fun pols x => (climb x.1 x.2 pols).2)
    (J := fun pre pols => ∀ i (h : i < pre.length), ∀ c < 4, pols (i * 4 + c) = rowAt pre[i] c)
    (fun i h => absurd h (Nat.not_lt_zero i)) (by
      intro pre x _ pols hpre i hi c hc
      obtain ⟨-, hrows, hother⟩ := climb_spec x pre.length pols
      rw [List.length_append, List.length_singleton] at hi
      rcases Nat.lt_succ_iff_lt_or_eq.mp hi with hlt | rfl
      · rw [hother _ (by omega), List.getElem_append_left hlt]
        exact hpre i hlt c hc
      · rw [List.getElem_concat_length rfl]
        exact hrows c hc)
  unfold execute CLIMB_KEY_CLOCKS
  rw [if_neg (Nat.not_lt.mpr hsize)]
  refine ⟨_, rfl, fun i hi c hc => ?_⟩
  refine Eq.trans ?_ (hactions i hi c hc)
  refine Loops.forUpTo_inv (J := fun _ (rows : ClimbKeyCommitPols) => rows (i * 4 + c) = _) rfl ?_
  intro k _ rows hrows
  rw [fillRows_of_lt (by omega)]
  exact hrows

theorem fromU64_add (x y : ℕ) : fromU64 x + fromU64 y = fromU64 (x + y) := by
  apply Fin.ext
  simp [fromU64, Fin.val_add]

theorem fromU64_mul (x y : ℕ) : fromU64 x * fromU64 y = fromU64 (x * y) := by
  apply Fin.ext
  simp [fromU64, Fin.val_mul, Nat.mul_mod]

/-- The chunks add up to the element. -/
theorem keyIn_rowAt (a : ClimbKeyAction) {n : ℕ} (hn : n ≤ 3) :
    (rowAt a n).keyIn = fromU64 (a.limb % 2 ^ (18 * (n + 1))) := by
  have hfactor : ∀ n ≤ 3, CHUNK_FACTORS n = 2 ^ (18 * n) := by decide
  have hchunk {n : ℕ} (hn : n ≤ 3) : (ClimbVars.before a n).chunkValue * CHUNK_FACTORS n =
      2 ^ (18 * n) * (a.limb / 2 ^ (18 * n) % 2 ^ 18) := by
    rw [ClimbVars.chunkValue, (ClimbVars.tracks_before hn).value, hfactor n hn, Nat.mul_comm]
    exact congrArg (2 ^ (18 * n) * ·) (Nat.and_two_pow_sub_one_eq_mod _ 18)
  induction n with
  | zero =>
    change fromU64 ((ClimbVars.before a 0).chunkValue * CHUNK_FACTORS 0) = _
    rw [hchunk (Nat.zero_le 3)]
    simp
  | succ n ih =>
    change (rowAt a n).keyIn + fromU64 ((ClimbVars.before a (n + 1)).chunkValue * CHUNK_FACTORS (n + 1)) = _
    rw [ih (Nat.le_of_succ_le hn), hchunk hn, fromU64_add, ← Nat.mod_mul, ← Nat.pow_add]
    rfl

/-! ## What an action shows -/

/-- The last row of an action has the climbed key, which is valid just if the outcome says so, as for
`ClimbKeyHelper` and `joinKey`. -/
structure Climbs (w : WordShift) (a : ClimbKeyAction) (row : ClimbKeyRow) : Prop where
  key : ∀ l, row.key l = if l = lane a.level then fromU64 a.climbed else a.key.get l
  keyIn : row.keyIn = a.key.get (lane a.level)
  accepts : ∀ i pols, (climb a i pols).1.Accepts ↔ a.climbed < goldilocksPrime
  calculate : ClimbKeyHelper.calculate (a.key.get (lane a.level)) a.bit =
    if a.climbed < goldilocksPrime then some (row.key (lane a.level)) else none
  /-- `joinKey` is not defined where it shifts a word by 64, but for a word of zero. -/
  joined : a.climbed < goldilocksPrime → ∀ bits : List Bool, bits.length % 4 = a.level % 4 →
    bits.length < 252 ∨ bits.length < 256 ∧ a.limb = 0 →
    joinKey w (bits ++ [a.bit]) a.key = joinKey w bits (.ofFn row.key)

theorem key_rowAt (a : ClimbKeyAction) (l : Fin 4) :
    (rowAt a 3).key l = if l = lane a.level then fromU64 a.climbed else a.key.get l := by
  change (if 3 = 3 ∧ a.level % 4 = l then a.key.get l * fromU64 2 + fromU64 a.bit.toNat else a.key.get l) = _
  by_cases h : l = lane a.level
  · have hl : a.level % 4 = l := (congrArg Fin.val h).symm
    rw [if_pos ⟨rfl, hl⟩, if_pos h, ← fromU64_toU64 (a.key.get l), fromU64_mul, fromU64_add, Nat.mul_comm, h]
    rfl
  · have hl : ¬a.level % 4 = l := fun hl => h (Fin.ext hl.symm)
    rw [if_neg fun hc => hl hc.2, if_neg h]

theorem climbs_rowAt (w : WordShift) (a : ClimbKeyAction) : Climbs w a (rowAt a 3) where
  key := key_rowAt a
  keyIn := by
    have hlimb := limb_lt a
    rw [keyIn_rowAt a le_rfl, Nat.mod_eq_of_lt (by omega)]
    exact fromU64_toU64 _
  accepts i pols := by
    rw [(climb_spec a i pols).1]
    exact ClimbVars.accepts_before a
  calculate := by rw [calculate_eq, key_rowAt, if_pos rfl]
  joined hvalid bits hlevel hlength := by
    have hlane : lane bits.length = lane a.level := Fin.ext hlevel
    apply joinKey_concat
    · rwa [hlane]
    · intro i hi
      rw [Fea.get_ofFn, key_rowAt, if_neg (hlane ▸ hi)]
    · rw [Fea.get_ofFn, hlane, key_rowAt, if_pos rfl, toU64_fromU64 hvalid]
      rfl

/-- **Every action climbs its key.** -/
theorem execute_climbs (w : WordShift) (N : ℕ) (input : List ClimbKeyAction) (pols : ClimbKeyCommitPols)
    (hsize : input.length * CLIMB_KEY_CLOCKS ≤ N) :
    ∃ pols', execute N input pols = some pols' ∧
      ∀ i (h : i < input.length), Climbs w input[i] (pols' (i * CLIMB_KEY_CLOCKS + CLIMB_KEY_LAST_CLOCK)) := by
  obtain ⟨pols', heq, hrows⟩ := execute_fills pols hsize
  refine ⟨pols', heq, fun i hi => ?_⟩
  have hlast : pols' (i * CLIMB_KEY_CLOCKS + CLIMB_KEY_LAST_CLOCK) = rowAt input[i] 3 := hrows i hi 3 (by decide)
  rw [hlast]
  exact climbs_rowAt w input[i]

/-- An element of one climbs to three, and the largest one is refused. -/
theorem execute_climbs_two : ∃ pols', execute 8 [⟨1, 4, true⟩, ⟨⟨0, -1, 0, 0⟩, 253, false⟩]
    (fun _ => ⟨0, 0, 0, 0, 0, 0, 0, 0⟩) = some pols' ∧ ∀ i (h : i < 2),
      Climbs ⟨true, false⟩ [(⟨1, 4, true⟩ : ClimbKeyAction), ⟨⟨0, -1, 0, 0⟩, 253, false⟩][i]
        (pols' (i * CLIMB_KEY_CLOCKS + CLIMB_KEY_LAST_CLOCK)) :=
  execute_climbs ⟨true, false⟩ 8 [⟨1, 4, true⟩, ⟨⟨0, -1, 0, 0⟩, 253, false⟩] _ (by decide)

end ClimbKeyExecutor

end ZkevmProver
