import ZkevmProver.SM.MemAlignRows

/-!
# `memAlign` in the two executors

The operations that the main executor accepts, and what their rows show.

  1. The bytes of an operation.
  2. The rows of an action.
  3. A step.
  4. A run: the operations that the main executor has accepted are executed one after the other.
-/

namespace ZkevmProver

open BigEndian MemAlignExecutor Function

/-! ## The bytes of an operation -/

theorem getElem?_bytes {n i : ℕ} (x : ℕ) (hi : i < n) :
    (bytes n x)[i]? = some (x / 256 ^ (n - 1 - i)).toUInt8 := by
  induction n generalizing x with
  | zero => exact absurd hi (Nat.not_lt_zero i)
  | succ n ih =>
    rw [bytes_succ]
    rcases Nat.lt_succ_iff_lt_or_eq.mp hi with hi | rfl
    · rw [List.getElem?_append_left (by rw [length_bytes]; exact hi), ih _ hi,
        Nat.div_div_eq_div_mul, ← Nat.pow_succ', (by omega : (n - 1 - i).succ = n + 1 - 1 - i)]
    · rw [List.getElem?_append_right (by rw [length_bytes]), length_bytes, Nat.sub_self]
      simp

/-- Byte `i` of a word, from the most significant one on. -/
theorem getElem?_word (x : ℕ) {i : ℕ} (hi : i < 32) :
    (bytes 32 x)[i]? = some (getByte x (31 - i)).toUInt8 := by
  rw [getElem?_bytes x hi, getByte_eq]
  congr 1
  apply UInt8.toNat_inj.mp
  simp

theorem toUInt8_inj {a b : ℕ} (ha : a < 256) (hb : b < 256) (h : a.toUInt8 = b.toUInt8) : a = b := by
  have := congrArg UInt8.toNat h
  simpa [Nat.mod_eq_of_lt ha, Nat.mod_eq_of_lt hb] using this

namespace MemAlignOp

variable {op : MemAlignOp}

/-- Byte `i` of the two words. -/
def memoryByte (op : MemAlignOp) (i : ℕ) : ℕ :=
  if i < 32 then getByte op.action.m0 (31 - i) else getByte op.action.m1 (63 - i)

theorem memoryByte_lt (op : MemAlignOp) (i : ℕ) : op.memoryByte i < 256 := by
  unfold memoryByte
  split <;> exact getByte_lt _ _

theorem getElem?_words (x y : ℕ) {i : ℕ} (hi : i < 64) :
    (bytes 32 x ++ bytes 32 y)[i]? =
      some (if i < 32 then getByte x (31 - i) else getByte y (63 - i)).toUInt8 := by
  by_cases h : i < 32
  · rw [List.getElem?_append_left (by rw [length_bytes]; exact h), getElem?_word x h, if_pos h]
  · rw [List.getElem?_append_right (by rw [length_bytes]; omega), length_bytes,
      getElem?_word y (by omega), if_neg h, (by omega : 31 - (i - 32) = 63 - i)]

theorem getElem?_memory {i : ℕ} (hi : i < 64) :
    op.memory[i]? = some (op.memoryByte i).toUInt8 := getElem?_words _ _ hi

theorem length_memory : op.memory.length = 64 := by
  unfold memory
  simp

theorem read_byte (hmode : op.mode = .read) (ho : op.offset.val ≤ 32) (h : op.Spliced) {i : ℕ}
    (hi : i < 32) : getByte op.v (31 - i) = op.memoryByte (op.offset + i) := by
  unfold Spliced at h
  rw [hmode] at h
  have hbyte := congrArg (fun l : List UInt8 => l[i]?) h
  rw [getElem?_word _ hi, List.getElem?_take_of_lt hi, List.getElem?_drop,
    getElem?_memory (by omega)] at hbyte
  exact toUInt8_inj (getByte_lt _ _) (memoryByte_lt _ _) (Option.some.inj hbyte)

theorem write_byte (hmode : op.mode = .write) (ho : op.offset.val ≤ 32) (h : op.Spliced) {i : ℕ}
    (hi : i < 64) :
    (if i < 32 then getByte op.w0 (31 - i) else getByte op.w1 (63 - i)) =
      if i < op.offset.val then op.memoryByte i
      else if i < op.offset + 32 then getByte op.v (31 + op.offset - i) else op.memoryByte i := by
  unfold Spliced at h
  rw [hmode] at h
  have hbyte := congrArg (fun l : List UInt8 => l[i]?) h
  have hlen : (op.memory.take op.offset).length = op.offset.val := by
    rw [List.length_take, length_memory]
    omega
  have hlen' : (op.memory.take op.offset ++ bytes 32 op.v).length = op.offset + 32 := by
    rw [List.length_append, hlen, length_bytes]
  rw [getElem?_words _ _ hi] at hbyte
  by_cases h1 : i < op.offset.val
  · rw [List.getElem?_append_left (by omega), List.getElem?_append_left (by omega),
      List.getElem?_take_of_lt h1, getElem?_memory hi] at hbyte
    rw [if_pos h1]
    exact toUInt8_inj (by split <;> exact getByte_lt _ _) (memoryByte_lt _ _)
      (Option.some.inj hbyte)
  · by_cases h2 : i < op.offset + 32
    · rw [List.getElem?_append_left (by omega), List.getElem?_append_right (by omega), hlen,
        getElem?_word _ (by omega)] at hbyte
      rw [if_neg h1, if_pos h2, (by omega : 31 + op.offset.val - i = 31 - (i - op.offset.val))]
      exact toUInt8_inj (by split <;> exact getByte_lt _ _) (getByte_lt _ _)
        (Option.some.inj hbyte)
    · rw [List.getElem?_append_right (by omega), hlen', List.getElem?_drop,
        (by omega : op.offset + 32 + (i - (op.offset + 32)) = i), getElem?_memory hi] at hbyte
      rw [if_neg h1, if_neg h2]
      exact toUInt8_inj (by split <;> exact getByte_lt _ _) (memoryByte_lt _ _)
        (Option.some.inj hbyte)

theorem write8_byte (hmode : op.mode = .write8) (ho : op.offset.val ≤ 32) (h : op.Spliced) {i : ℕ}
    (hi : i < 32) :
    getByte op.w0 (31 - i) = if i = op.offset.val then getByte op.v 0 else op.memoryByte i := by
  unfold Spliced at h
  rw [hmode] at h
  have hbyte := congrArg (fun l : List UInt8 => l[i]?) h
  have hlen : (op.memory.take op.offset).length = op.offset.val := by
    rw [List.length_take, length_memory]
    omega
  have hlen' : (op.memory.take op.offset ++ [op.v.val.toUInt8]).length = op.offset + 1 := by
    rw [List.length_append, hlen, List.length_singleton]
  rw [getElem?_words _ _ (by omega), if_pos hi] at hbyte
  rcases Nat.lt_trichotomy i op.offset.val with h1 | h1 | h1
  · rw [List.getElem?_append_left (by omega), List.getElem?_append_left (by omega),
      List.getElem?_take_of_lt h1, getElem?_memory (by omega)] at hbyte
    rw [if_neg h1.ne]
    exact toUInt8_inj (getByte_lt _ _) (memoryByte_lt _ _) (Option.some.inj hbyte)
  · rw [List.getElem?_append_left (by omega), List.getElem?_append_right (by omega), hlen, h1,
      Nat.sub_self, List.getElem?_cons_zero] at hbyte
    rw [if_pos h1, h1, getByte_eq op.v 0, Nat.pow_zero, Nat.div_one]
    apply toUInt8_inj (getByte_lt _ _) (Nat.mod_lt _ (by decide))
    rw [Option.some.inj hbyte]
    apply UInt8.toNat_inj.mp
    simp
  · rw [List.getElem?_append_right (by omega), hlen', List.getElem?_drop,
      (by omega : op.offset + 1 + (i - (op.offset + 1)) = i), getElem?_memory (by omega)] at hbyte
    rw [if_neg (Nat.ne_of_gt h1)]
    exact toUInt8_inj (getByte_lt _ _) (memoryByte_lt _ _) (Option.some.inj hbyte)

/-- The byte of row `j` of the first word that is written. -/
theorem inW0_eq (ho : op.offset.val ≤ 32) (h : op.Spliced) {j : ℕ} (hj : j < 32) :
    MemAlignAction.inW0 op.action j = getByte op.action.w0 (31 - j) := by
  have hm0 : MemAlignAction.inM0 op.action j = op.memoryByte j := by
    unfold MemAlignAction.inM0 memoryByte
    rw [if_pos hj]
  have hlt := memoryByte_lt op j
  unfold MemAlignAction.inW0 MemAlignAction.selM1
  rw [hm0]
  cases hmode : op.mode with
  | read => simp [action, hmode]
  | write =>
    have hbyte := write_byte hmode ho h (by omega : j < 64)
    rw [if_pos hj] at hbyte
    simp only [action, hmode, reduceCtorEq, if_false, if_true]
    rw [hbyte]
    by_cases hsel : j < op.offset.val
    · simp [hsel, Nat.mod_eq_of_lt hlt]
    · have hv : (31 + op.offset.val - j) % 32 = 31 + op.offset.val - j := by omega
      have hin : j < op.offset.val + 32 := by omega
      unfold MemAlignAction.inV MemAlignAction.vByte
      simp [hsel, hin, hv]
  | write8 =>
    have hbyte := write8_byte hmode ho h hj
    simp only [action, hmode, reduceCtorEq, if_false, if_true]
    rw [hbyte]
    by_cases hsel : j = op.offset.val
    · unfold MemAlignAction.inV MemAlignAction.vByte
      simp [hsel, (by omega : (31 + (op.offset.val + 1) - op.offset.val) % 32 = 0)]
    · simp [hsel, Nat.mod_eq_of_lt hlt]

/-- The byte of row `j` of the second word that is written. -/
theorem inW1_eq (ho : op.offset.val ≤ 32) (h : op.Spliced) {j : ℕ} (hj : j < 32) :
    MemAlignAction.inW1 op.action j = getByte op.action.w1 (31 - j) := by
  have hm1 : MemAlignAction.inM1 op.action j = op.memoryByte (32 + j) := by
    unfold MemAlignAction.inM1 memoryByte
    rw [if_neg (by omega), (by omega : 63 - (32 + j) = 31 - j)]
  have hlt := memoryByte_lt op (32 + j)
  unfold MemAlignAction.inW1 MemAlignAction.selM1
  cases hmode : op.mode with
  | read => simp [action, hmode]
  | write =>
    have hbyte := write_byte hmode ho h (by omega : 32 + j < 64)
    rw [if_neg (by omega), (by omega : 63 - (32 + j) = 31 - j), if_neg (by omega)] at hbyte
    rw [hm1]
    simp only [action, hmode, reduceCtorEq, if_false, if_true]
    rw [hbyte]
    by_cases hsel : j < op.offset.val
    · rw [if_pos (by omega : 32 + j < op.offset.val + 32)]
      unfold MemAlignAction.inV MemAlignAction.vByte
      simp [hsel, (by omega : (31 + op.offset.val - j) % 32 = 31 + op.offset.val - (32 + j))]
    · rw [if_neg (by omega : ¬32 + j < op.offset.val + 32)]
      simp [hsel, Nat.mod_eq_of_lt hlt]
  | write8 => simp [action, hmode, MemAlignAction.inM1]

/-- In a read, the byte that row `j` selects is that of the value. -/
theorem selected_eq (hmode : op.mode = .read) (ho : op.offset.val ≤ 32) (h : op.Spliced) {j : ℕ}
    (hj : j < 32) :
    (if MemAlignAction.selM1 op.action j = 1 then MemAlignAction.inM1 op.action j
      else MemAlignAction.inM0 op.action j) = MemAlignAction.inV op.action j := by
  have hsel : MemAlignAction.selM1 op.action j = if op.offset.val > j then 1 else 0 := by
    simp [MemAlignAction.selM1, action, hmode]
  have hv : MemAlignAction.inV op.action j = getByte op.v ((31 + op.offset.val - j) % 32) := by
    simp [MemAlignAction.inV, MemAlignAction.vByte, action, hmode]
  rw [hsel, hv]
  by_cases hlt : op.offset.val > j
  · have hbyte := read_byte hmode ho h (by omega : 32 + j - op.offset.val < 32)
    rw [(by omega : op.offset.val + (32 + j - op.offset.val) = 32 + j)] at hbyte
    have hm1 : MemAlignAction.inM1 op.action j = op.memoryByte (32 + j) := by
      unfold MemAlignAction.inM1 memoryByte
      rw [if_neg (by omega), (by omega : 63 - (32 + j) = 31 - j)]
    rw [if_pos (by rw [if_pos hlt]), hm1, ← hbyte]
    congr 1
    omega
  · have hbyte := read_byte hmode ho h (by omega : j - op.offset.val < 32)
    rw [(by omega : op.offset.val + (j - op.offset.val) = j)] at hbyte
    have hm0 : MemAlignAction.inM0 op.action j = op.memoryByte j := by
      unfold MemAlignAction.inM0 memoryByte
      rw [if_pos hj]
    rw [if_neg (by rw [if_neg hlt]; decide), hm0, ← hbyte]
    congr 1
    omega

end MemAlignOp

/-! ## The rows of an action -/

namespace MemAlignExecutor

variable {N base : ℕ} {input : MemAlignAction} {p : MemAlignCommitPols}

theorem foldlM_guarded (f : ℕ → MemAlignCommitPols → MemAlignCommitPols) {l : List ℕ}
    (h : ∀ j ∈ l, base + j + 1 < N) :
    l.foldlM (fun pols j => guarded N base j (f j) pols) p =
      some (l.foldl (fun pols j => f j pols) p) := by
  induction l generalizing p with
  | nil => rfl
  | cons j l ih =>
    have hj : guarded N base j (f j) p = some (f j p) := if_pos (h j List.mem_cons_self)
    rw [List.foldlM_cons, hj]
    exact ih fun i hi => h i (List.mem_cons_of_mem j hi)

/-- The three loops of an action, without the bound. -/
def bytesDone (input : MemAlignAction) (base : ℕ) (p : MemAlignCommitPols) : MemAlignCommitPols :=
  (List.range 32).foldl (fun p j => byteRow input base j p) p

def valueDone (base : ℕ) (p : MemAlignCommitPols) : MemAlignCommitPols :=
  (List.range 32).foldl (fun p j => valueRow base j p) p

def copyDone (base : ℕ) (p : MemAlignCommitPols) : MemAlignCommitPols :=
  (List.finRange 8).foldl (fun p (k : Fin 8) =>
    (List.range' (32 - k * 4) (k * 4)).foldl (fun p j => copyRow base k j p) p) p

def actionRows (input : MemAlignAction) (base : ℕ) (p : MemAlignCommitPols) : MemAlignCommitPols :=
  copyDone base (valueDone base (bytesDone input base p))

theorem foldlM_copyRows (h : base + 32 < N) (ks : List (Fin 8)) :
    ks.foldlM (fun pols (k : Fin 8) => (List.range' (32 - k * 4) (k * 4)).foldlM
      (fun pols j => guarded N base j (copyRow base k j) pols) pols) p =
      some (ks.foldl (fun p (k : Fin 8) => (List.range' (32 - k * 4) (k * 4)).foldl
        (fun p j => copyRow base k j p) p) p) := by
  induction ks generalizing p with
  | nil => rfl
  | cons k ks ih =>
    have hlt : k.val < 8 := k.isLt
    rw [List.foldlM_cons, foldlM_guarded (copyRow base k) fun j hj => by
      have := List.mem_range'_1.mp hj
      omega]
    exact ih

theorem execAction_eq {i : ℕ} (h : i * 32 + 32 < N) :
    execAction N p (input, i) =
      some (actionRows input (i * 32) (setResult input (((i + 1) * 32) % N) p)) := by
  have hrange : ∀ j ∈ List.range 32, i * 32 + j + 1 < N := fun j hj => by
    have := List.mem_range.mp hj
    omega
  unfold execAction
  dsimp only
  rw [foldlM_guarded (byteRow input (i * 32)) hrange]
  dsimp only [bind, Option.bind]
  rw [foldlM_guarded (valueRow (i * 32)) hrange]
  exact foldlM_copyRows h _

/-- The last row of the action is not one of the polynomials. -/
theorem execAction_eq_none {i : ℕ} (h : N ≤ i * 32 + 32) : execAction N p (input, i) = none := by
  unfold execAction
  dsimp only
  rw [Loops.foldlM_eq_none (List.mem_range.mpr (by decide : 31 < 32)) fun s => if_neg (by omega)]
  rfl

section Columns

variable {α γ δ : Type} (π : α → γ) {f : α → δ → α} {a : α}

/-- A loop that one field sees as a loop of its own. -/
theorem foldl_field {g : γ → δ → γ} (h : ∀ a x, π (f a x) = g (π a) x) (l : List δ) :
    π (l.foldl f a) = l.foldl g (π a) :=
  (List.foldl_hom π fun a x => (h a x).symm).symm

/-- A loop that does not write the field. -/
theorem foldl_keeps (h : ∀ a x, π (f a x) = π a) (l : List δ) : π (l.foldl f a) = π a := by
  induction l generalizing a with
  | nil => rfl
  | cons x l ih => rw [List.foldl_cons, ih, h]

end Columns

section Keeps

variable {γ : Type} (π : MemAlignCommitPols → γ)

theorem bytesDone_keeps (h : ∀ p j, π (byteRow input base j p) = π p) :
    π (bytesDone input base p) = π p :=
  foldl_keeps π h _

theorem valueDone_keeps (h : ∀ p j, π (valueRow base j p) = π p) :
    π (valueDone base p) = π p :=
  foldl_keeps π h _

theorem copyDone_keeps (h : ∀ p k j, π (copyRow base k j p) = π p) :
    π (copyDone base p) = π p :=
  foldl_keeps π (fun _ k => foldl_keeps π (fun p j => h p k j) _) _

end Keeps

/-- What the loops of an action do to a column of limbs. -/
structure LimbColumn (input : MemAlignAction) (base : ℕ) (b : ℕ → ℕ)
    (π : MemAlignCommitPols → Fin 8 → ℕ → Fe) : Prop where
  byte : ∀ p j, π (byteRow input base j p) = addByte base j (b j) (π p)
  value : ∀ p j, π (valueRow base j p) = π p
  copy : ∀ p k j, π (copyRow base k j p) = copyLimb base k j (π p)

/-- What an action leaves in such a column: the limbs in its last row. -/
structure LimbsLeft (input : MemAlignAction) (base : ℕ) (b : ℕ → ℕ)
    (π : MemAlignCommitPols → Fin 8 → ℕ → Fe) (p : MemAlignCommitPols) : Prop where
  last : ∀ k : Fin 8,
    π (actionRows input base p) k (base + 32) = fromU64 (limbPart b (31 - 4 * k))
  outside : ∀ k q, q ≤ base ∨ base + 32 < q → π (actionRows input base p) k q = π p k q

theorem LimbColumn.actionRows {b : ℕ → ℕ} {π : MemAlignCommitPols → Fin 8 → ℕ → Fe}
    (h : LimbColumn input base b π) (hb : ∀ j, b j < 256)
    (hfresh : ∀ k q, base < q → π p k q = 0) : LimbsLeft input base b π p := by
  have hbytes : π (bytesDone input base p) =
      (List.range 32).foldl (fun c j => addByte base j (b j) c) (π p) :=
    foldl_field π (g := fun c j => addByte base j (b j) c) h.byte _
  have hcopy (p : MemAlignCommitPols) : π (copyDone base p) =
      (List.finRange 8).foldl (fun c (k : Fin 8) => (List.range' (32 - k * 4) (k * 4)).foldl
        (fun c j => copyLimb base k j c) c) (π p) :=
    foldl_field π (g := fun c (k : Fin 8) => (List.range' (32 - k * 4) (k * 4)).foldl
      (fun c j => copyLimb base k j c) c)
      (fun p k => foldl_field π (g := fun c j => copyLimb base k j c) (fun p j => h.copy p k j) _) _
  have hrows : π (MemAlignExecutor.actionRows input base p) =
      (List.finRange 8).foldl (fun c (k : Fin 8) => (List.range' (32 - k * 4) (k * 4)).foldl
        (fun c j => copyLimb base k j c) c)
        ((List.range 32).foldl (fun c j => addByte base j (b j) c) (π p)) := by
    unfold MemAlignExecutor.actionRows
    rw [hcopy, valueDone_keeps π h.value, hbytes]
  obtain ⟨hlast, houtside⟩ := limbs_spec hb hfresh hrows
  exact ⟨hlast, houtside⟩

/-- What the loops of an action do to a column of single bytes. -/
structure ByteColumn (input : MemAlignAction) (base : ℕ) (x : ℕ → Fe)
    (π : MemAlignCommitPols → ℕ → Fe) : Prop where
  byte : ∀ p j, π (byteRow input base j p) = update (π p) (base + j) (x j)
  value : ∀ p j, π (valueRow base j p) = π p
  copy : ∀ p k j, π (copyRow base k j p) = π p

theorem ByteColumn.bytesDone {x : ℕ → Fe} {π : MemAlignCommitPols → ℕ → Fe}
    (h : ByteColumn input base x π) (p : MemAlignCommitPols) :
    π (bytesDone input base p) =
      fun q => if base ≤ q ∧ q < base + 32 then x (q - base) else π p q :=
  (foldl_field π (g := fun c j => update c (base + j) (x j)) h.byte _).trans (foldl_update _ _ _ _)

theorem ByteColumn.actionRows {x : ℕ → Fe} {π : MemAlignCommitPols → ℕ → Fe}
    (h : ByteColumn input base x π) (p : MemAlignCommitPols) :
    π (actionRows input base p) =
      fun q => if base ≤ q ∧ q < base + 32 then x (q - base) else π p q := by
  unfold MemAlignExecutor.actionRows
  rw [copyDone_keeps π h.copy, valueDone_keeps π h.value, h.bytesDone]

theorem byteColumn_inV (input : MemAlignAction) (base : ℕ) :
    ByteColumn input base (fun j => fromU64 (MemAlignAction.inV input j)) (·.inV) :=
  ⟨fun _ _ => rfl, fun _ _ => rfl, fun _ _ _ => rfl⟩

theorem byteColumn_selM1 (input : MemAlignAction) (base : ℕ) :
    ByteColumn input base (fun j => fromU64 (MemAlignAction.selM1 input j)) (·.selM1) :=
  ⟨fun _ _ => rfl, fun _ _ => rfl, fun _ _ _ => rfl⟩

theorem byteColumn_inM0 (input : MemAlignAction) (base : ℕ) :
    ByteColumn input base (fun j => fromU64 (MemAlignAction.inM0 input j)) (·.inM 0) :=
  ⟨fun _ _ => rfl, fun _ _ => rfl, fun _ _ _ => rfl⟩

theorem byteColumn_inM1 (input : MemAlignAction) (base : ℕ) :
    ByteColumn input base (fun j => fromU64 (MemAlignAction.inM1 input j)) (·.inM 1) :=
  ⟨fun _ _ => rfl, fun _ _ => rfl, fun _ _ _ => rfl⟩

theorem factorV_bytesDone :
    (bytesDone input base p).factorV = fun k q =>
      if base ≤ q ∧ q < base + 32 ∧
          Fin.ofNat 8 (MemAlignAction.vByte input (q - base) >>> 2) = k then
        fromU64 (factors (MemAlignAction.vByte input (q - base) % 4))
      else p.factorV k q :=
  (foldl_field (fun p : MemAlignCommitPols => p.factorV)
    (g := fun f j => update f (Fin.ofNat 8 (MemAlignAction.vByte input j >>> 2))
      (update (f (Fin.ofNat 8 (MemAlignAction.vByte input j >>> 2))) (base + j)
        (fromU64 (factors (MemAlignAction.vByte input j % 4))))) (fun _ _ => rfl) _).trans
    (foldl_factors p.factorV base (fun j => Fin.ofNat 8 (MemAlignAction.vByte input j >>> 2))
      (fun j => fromU64 (factors (MemAlignAction.vByte input j % 4))) 32)

theorem factorV_actionRows :
    (actionRows input base p).factorV = (bytesDone input base p).factorV := by
  unfold actionRows
  let π (p : MemAlignCommitPols) := p.factorV
  exact (copyDone_keeps π fun _ _ _ => rfl).trans (valueDone_keeps π fun _ _ => rfl)

/-- The value loop, for one limb. -/
theorem v_valueDone (x : Fin 8 → ℕ → ℕ)
    (hx : ∀ k, ∀ j < 32, p.inV (base + j) * p.factorV k (base + j) = fromU64 (x k j)) (k : Fin 8) :
    (valueDone base p).v k = (List.range 32).foldl (fun c j =>
      update c (base + 1 + j) ((if j = 0 then 0 else c (base + j)) + fromU64 (x k j)))
      (p.v k) := by
  have hloop (n : ℕ) (hn : n ≤ 32) : (List.range n).foldl (fun p j => valueRow base j p) p =
      { p with
        v := fun k => (List.range n).foldl (fun c j => update c (base + 1 + j)
          ((if j = 0 then 0 else c (base + j)) + fromU64 (x k j))) (p.v k) } := by
    induction n with
    | zero => rfl
    | succ n ih =>
      simp only [List.range_succ, List.foldl_append, ih (Nat.le_of_succ_le hn), List.foldl_cons,
        List.foldl_nil]
      unfold valueRow
      simp only [hx _ n hn]
  unfold valueDone
  rw [hloop 32 le_rfl]

/-- The limbs of the value in the last row. -/
theorem v_actionRows (hfresh : ∀ k q, base ≤ q → p.factorV k q = 0) :
    (∀ k : Fin 8, (actionRows input base p).v k (base + 32) = limb input.v k) ∧
      ∀ k q, q ≤ base → (actionRows input base p).v k q = p.v k q := by
  let s := input.offset + input.wr8
  let x (k : Fin 8) (j : ℕ) : ℕ := getByte input.v ((31 + s - j) % 32) *
    (if (31 + s - j) % 32 / 4 = k then factors ((31 + s - j) % 32 % 4) else 0)
  have hx (k : Fin 8) (j : ℕ) (hj : j < 32) : (bytesDone input base p).inV (base + j) *
      (bytesDone input base p).factorV k (base + j) = fromU64 (x k j) := by
    have hinV : (bytesDone input base p).inV (base + j) =
        fromU64 (MemAlignAction.inV input j) := by
      have h := congrFun ((byteColumn_inV input base).bytesDone p) (base + j)
      rwa [if_pos (by omega), Nat.add_sub_cancel_left] at h
    have hindex : Fin.ofNat 8 (MemAlignAction.vByte input j >>> 2) = k ↔
        (31 + s - j) % 32 / 4 = k := by
      rw [Fin.ext_iff, Fin.val_ofNat, Nat.shiftRight_eq_div_pow]
      unfold MemAlignAction.vByte
      omega
    rw [hinV, factorV_bytesDone]
    dsimp only [x]
    rw [Nat.add_sub_cancel_left, fromU64_mul]
    congr 1
    by_cases hk : (31 + s - j) % 32 / 4 = k
    · rw [if_pos ⟨by omega, by omega, hindex.mpr hk⟩, if_pos hk]
      rfl
    · rw [if_neg fun h => hk (hindex.mp h.2.2), if_neg hk, hfresh k _ (by omega)]
      rfl
  have hcopy (p : MemAlignCommitPols) : (copyDone base p).v = p.v :=
    copyDone_keeps (fun p => p.v) fun _ _ _ => rfl
  have hkeep : (bytesDone input base p).v = p.v := bytesDone_keeps (fun p => p.v) fun _ _ => rfl
  have hv (k : Fin 8) : (actionRows input base p).v k = (List.range 32).foldl (fun c j =>
      update c (base + 1 + j) ((if j = 0 then 0 else c (base + j)) + fromU64 (x k j)))
      (p.v k) := by
    unfold actionRows
    rw [hcopy, v_valueDone x hx k, hkeep]
  constructor
  · intro k
    rw [hv k, (foldl_sum _ base (x k) 32).1 (by decide)]
    exact sum_value input.v s k
  · intro k q hq
    rw [hv k, (foldl_sum _ base (x k) 32).2 q (.inl hq)]

/-! ## A run -/

/-- Nothing has been written from action `n` on. -/
structure Fresh (n : ℕ) (p : MemAlignCommitPols) : Prop where
  m0 : ∀ k q, n * 32 < q → p.m0 k q = 0
  m1 : ∀ k q, n * 32 < q → p.m1 k q = 0
  w0 : ∀ k q, n * 32 < q → p.w0 k q = 0
  w1 : ∀ k q, n * 32 < q → p.w1 k q = 0
  factorV : ∀ k q, n * 32 ≤ q → p.factorV k q = 0

/-- What the rows of an action show, from `base` on and in the row `last`. -/
structure Shown (input : MemAlignAction) (base last : ℕ) (p : MemAlignCommitPols) : Prop where
  m0 : ∀ k : Fin 8, p.m0 k last = limb input.m0 k
  m1 : ∀ k : Fin 8, p.m1 k last = limb input.m1 k
  v : ∀ k : Fin 8, p.v k last = limb input.v k
  w0 : ∀ k : Fin 8, p.w0 k last = limb input.w0 k
  w1 : ∀ k : Fin 8, p.w1 k last = limb input.w1 k
  /-- The byte that each row of a read selects. -/
  selected : input.wr8 = 0 → input.wr256 = 0 → ∀ j < 32,
    (if p.selM1 (base + j) = 1 then p.inM 1 (base + j) else p.inM 0 (base + j)) =
      fromU64 (getByte input.v ((31 + input.offset - j) % 32)) ∧
      p.inV (base + j) = fromU64 (getByte input.v ((31 + input.offset - j) % 32))

theorem selM1_le_one (input : MemAlignAction) (j : ℕ) : MemAlignAction.selM1 input j ≤ 1 := by
  unfold MemAlignAction.selM1
  split <;> split <;> omega

theorem inW0_lt (input : MemAlignAction) (j : ℕ) : MemAlignAction.inW0 input j < 256 := by
  unfold MemAlignAction.inW0
  split
  · exact getByte_lt _ _
  · exact Nat.mod_lt _ (by decide)

theorem inW1_lt (input : MemAlignAction) (j : ℕ) : MemAlignAction.inW1 input j < 256 := by
  unfold MemAlignAction.inW1
  split
  · exact getByte_lt _ _
  · exact Nat.mod_lt _ (by decide)

theorem limbColumn_m0 (input : MemAlignAction) (base : ℕ) :
    LimbColumn input base (MemAlignAction.inM0 input) (·.m0) :=
  ⟨fun _ _ => rfl, fun _ _ => rfl, fun _ _ _ => rfl⟩

theorem limbColumn_m1 (input : MemAlignAction) (base : ℕ) :
    LimbColumn input base (MemAlignAction.inM1 input) (·.m1) :=
  ⟨fun _ _ => rfl, fun _ _ => rfl, fun _ _ _ => rfl⟩

theorem limbColumn_w0 (input : MemAlignAction) (base : ℕ) :
    LimbColumn input base (MemAlignAction.inW0 input) (·.w0) :=
  ⟨fun _ _ => rfl, fun _ _ => rfl, fun _ _ _ => rfl⟩

theorem limbColumn_w1 (input : MemAlignAction) (base : ℕ) :
    LimbColumn input base (MemAlignAction.inW1 input) (·.w1) :=
  ⟨fun _ _ => rfl, fun _ _ => rfl, fun _ _ _ => rfl⟩

section Step

variable {n : ℕ}

theorem Fresh.m0_spec (h : Fresh n p) (input : MemAlignAction) :
    LimbsLeft input (n * 32) (MemAlignAction.inM0 input) (·.m0) p :=
  (limbColumn_m0 input (n * 32)).actionRows (fun _ => getByte_lt _ _) h.m0

theorem Fresh.m1_spec (h : Fresh n p) (input : MemAlignAction) :
    LimbsLeft input (n * 32) (MemAlignAction.inM1 input) (·.m1) p :=
  (limbColumn_m1 input (n * 32)).actionRows (fun _ => getByte_lt _ _) h.m1

theorem Fresh.w0_spec (h : Fresh n p) (input : MemAlignAction) :
    LimbsLeft input (n * 32) (MemAlignAction.inW0 input) (·.w0) p :=
  (limbColumn_w0 input (n * 32)).actionRows (inW0_lt input) h.w0

theorem Fresh.w1_spec (h : Fresh n p) (input : MemAlignAction) :
    LimbsLeft input (n * 32) (MemAlignAction.inW1 input) (·.w1) p :=
  (limbColumn_w1 input (n * 32)).actionRows (inW1_lt input) h.w1

/-- The next action starts on fresh rows. -/
theorem Fresh.step (h : Fresh n p) : Fresh (n + 1) (actionRows input (n * 32) p) where
  m0 k q hq := by rw [(h.m0_spec input).outside k q (by omega), h.m0 k q (by omega)]
  m1 k q hq := by rw [(h.m1_spec input).outside k q (by omega), h.m1 k q (by omega)]
  w0 k q hq := by rw [(h.w0_spec input).outside k q (by omega), h.w0 k q (by omega)]
  w1 k q hq := by rw [(h.w1_spec input).outside k q (by omega), h.w1 k q (by omega)]
  factorV k q hq := by
    rw [factorV_actionRows, factorV_bytesDone]
    dsimp only
    rw [if_neg (by omega), h.factorV k q (by omega)]

/-- The rows of an accepted operation show it. -/
theorem Fresh.shown {op : MemAlignOp} (h : Fresh n p) (ho : op.offset.val ≤ 32)
    (hs : op.Spliced) :
    Shown op.action (n * 32) (n * 32 + 32) (actionRows op.action (n * 32) p) where
  m0 k := ((h.m0_spec op.action).last k).trans (limbPart_last (fun _ _ => rfl) k)
  m1 k := ((h.m1_spec op.action).last k).trans (limbPart_last (fun _ _ => rfl) k)
  w0 k := ((h.w0_spec op.action).last k).trans (limbPart_last (fun _ hj => MemAlignOp.inW0_eq ho hs hj) k)
  w1 k := ((h.w1_spec op.action).last k).trans (limbPart_last (fun _ hj => MemAlignOp.inW1_eq ho hs hj) k)
  v k := (v_actionRows h.factorV).1 k
  selected h8 h256 j hj := by
    have hmode : op.mode = .read := by
      cases hmode : op.mode with
      | read => rfl
      | write => simp [MemAlignOp.action, hmode] at h256
      | write8 => simp [MemAlignOp.action, hmode] at h8
    have hrow {x : ℕ → Fe} {π : MemAlignCommitPols → ℕ → Fe}
        (hc : ByteColumn op.action (n * 32) x π) :
        π (actionRows op.action (n * 32) p) (n * 32 + j) = x j := by
      have hcol := congrFun (hc.actionRows p) (n * 32 + j)
      rwa [if_pos (by omega), Nat.add_sub_cancel_left] at hcol
    have hv : MemAlignAction.inV op.action j =
        getByte op.action.v ((31 + op.action.offset - j) % 32) := by
      unfold MemAlignAction.inV MemAlignAction.vByte
      rw [h8, Nat.add_zero]
    have hsel : fromU64 (MemAlignAction.selM1 op.action j) = 1 ↔
        MemAlignAction.selM1 op.action j = 1 := by
      have := selM1_le_one op.action j
      generalize MemAlignAction.selM1 op.action j = x at this
      rcases (by omega : x = 0 ∨ x = 1) with rfl | rfl <;> decide
    rw [← hv, hrow (byteColumn_inV _ _), hrow (byteColumn_selM1 _ _),
      hrow (byteColumn_inM0 _ _), hrow (byteColumn_inM1 _ _),
      ← MemAlignOp.selected_eq hmode ho hs hj]
    refine ⟨?_, rfl⟩
    by_cases h1 : MemAlignAction.selM1 op.action j = 1
    · rw [if_pos (hsel.mpr h1), if_pos h1]
    · rw [if_neg (mt hsel.mp h1), if_neg h1]

/-- What the actions before show is kept. -/
theorem Shown.step {a : MemAlignAction} {i : ℕ} (h : Shown a (i * 32) (i * 32 + 32) p)
    (hfresh : Fresh n p) (hi : i < n) :
    Shown a (i * 32) (i * 32 + 32) (actionRows input (n * 32) p) where
  m0 k := ((hfresh.m0_spec input).outside k _ (.inl (by omega))).trans (h.m0 k)
  m1 k := ((hfresh.m1_spec input).outside k _ (.inl (by omega))).trans (h.m1 k)
  w0 k := ((hfresh.w0_spec input).outside k _ (.inl (by omega))).trans (h.w0 k)
  w1 k := ((hfresh.w1_spec input).outside k _ (.inl (by omega))).trans (h.w1 k)
  v k := ((v_actionRows hfresh.factorV).2 k _ (by omega)).trans (h.v k)
  selected h8 h256 j hj := by
    have hrow {x : ℕ → Fe} {π : MemAlignCommitPols → ℕ → Fe}
        (hc : ByteColumn input (n * 32) x π) :
        π (actionRows input (n * 32) p) (i * 32 + j) = π p (i * 32 + j) := by
      have hcol := congrFun (hc.actionRows p) (i * 32 + j)
      rwa [if_neg (by omega)] at hcol
    rw [hrow (byteColumn_inV _ _), hrow (byteColumn_selM1 _ _), hrow (byteColumn_inM0 _ _),
      hrow (byteColumn_inM1 _ _)]
    exact h.selected h8 h256 j hj

end Step

end MemAlignExecutor

end ZkevmProver

/-! ## A run -/

namespace ZkevmProver.MemAlignExecutor

open MemAlignOp

variable {N n : ℕ} {p : MemAlignCommitPols} {a input : MemAlignAction}

theorem Fresh.setResult (h : Fresh n p) (i : ℕ) : Fresh n (setResult input i p) :=
  ⟨h.m0, h.m1, h.w0, h.w1, h.factorV⟩

theorem Shown.setResult {base last : ℕ} (h : Shown a base last p) (i : ℕ) :
    Shown a base last (setResult input i p) :=
  ⟨h.m0, h.m1, h.v, h.w0, h.w1, h.selected⟩

/-- The rows after the last action are of no importance. -/
theorem Shown.fill {base last : ℕ} (h : Shown a base last p) (l : List ℕ) :
    Shown a base last (l.foldl (fun p i => fillRow i p) p) := by
  induction l generalizing p with
  | nil => exact h
  | cons i l ih => exact ih ⟨h.m0, h.m1, h.v, h.w0, h.w1, h.selected⟩

theorem fresh_zeroPols : Fresh 0 zeroPols :=
  ⟨fun _ _ _ => rfl, fun _ _ _ => rfl, fun _ _ _ => rfl, fun _ _ _ => rfl, fun _ _ _ => rfl⟩

/-- An action of the main executor. -/
def Accepted (a : MemAlignAction) : Prop :=
  ∃ op : MemAlignOp, op.offset.val ≤ 32 ∧ op.Spliced ∧ a = op.action

/-- The actions so far show in their rows. -/
structure ShownAll (as : List MemAlignAction) (p : MemAlignCommitPols) : Prop where
  fresh : Fresh as.length p
  shown : ∀ i (h : i < as.length), Shown as[i] (i * 32) (i * 32 + 32) p

theorem ShownAll.step {as : List MemAlignAction} (h : ShownAll as p) (ha : Accepted a)
    (hN : as.length * 32 + 32 < N) :
    ∃ p', execAction N p (a, as.length) = some p' ∧ ShownAll (as ++ [a]) p' := by
  obtain ⟨op, ho, hs, rfl⟩ := ha
  refine ⟨_, execAction_eq hN, ?_, ?_⟩
  · rw [List.length_append, List.length_singleton]
    exact (h.fresh.setResult _).step
  · intro i hi
    rw [List.length_append, List.length_singleton] at hi
    rcases Nat.lt_succ_iff_lt_or_eq.mp hi with hlt | rfl
    · rw [List.getElem_append_left hlt]
      exact ((h.shown i hlt).setResult _).step (h.fresh.setResult _) hlt
    · rw [List.getElem_concat_length rfl]
      exact (h.fresh.setResult _).shown ho hs

/-- All actions are executed when their rows are fewer than those of the polynomials. -/
theorem execute_spec {as : List MemAlignAction} (has : ∀ a ∈ as, Accepted a)
    (hN : as.length * 32 < N) :
    ∃ p, execute N as zeroPols = some p ∧
      ∀ i (h : i < as.length), Shown as[i] (i * 32) ((i + 1) * 32 % N) p := by
  obtain ⟨p, hp, hshown⟩ := Loops.foldlM_zipIdx_inv (J := ShownAll) (f := execAction N)
    (s := zeroPols) (l := as) ⟨fresh_zeroPols, fun i hi => absurd hi (Nat.not_lt_zero i)⟩
    fun pre a hpre p h => h.step (has a (hpre.subset (by simp))) (by
      have hlen := hpre.length_le
      rw [List.length_append, List.length_singleton] at hlen
      omega)
  refine ⟨(List.range' (as.length * 32) (N - as.length * 32)).foldl (fun p i => fillRow i p) p,
    ?_, fun i hi => ?_⟩
  · unfold execute
    rw [if_neg (by omega), hp]
    rfl
  · rw [Nat.mod_eq_of_lt (by omega), (by omega : (i + 1) * 32 = i * 32 + 32)]
    exact (hshown.shown i hi).fill _

/-- The last row of the last action is outside of the polynomials. -/
theorem execute_eq_none {as : List MemAlignAction} (hN : N ≤ as.length * 32) (hpos : 0 < N)
    (p : MemAlignCommitPols) : execute N as p = none := by
  unfold execute
  split
  · rfl
  · have hlen : as.length - 1 < as.length := by omega
    have hmem : (as[as.length - 1], as.length - 1) ∈ as.zipIdx := by
      rw [List.mk_mem_zipIdx_iff_getElem?]
      exact List.getElem?_eq_getElem hlen
    rw [Loops.foldlM_eq_none hmem fun p => execAction_eq_none (by omega)]
    rfl

/-- The check never aborts and accepts what the operations mean, and for a list that it accepts
the rows of `MemAlignExecutor` show the operations. -/
structure Agrees (N : ℕ) (ops : List MemAlignOp) : Prop where
  check : ∀ op ∈ ops, op.check ≠ .error .abort ∧
    ((∃ a, op.check = .ok a) ↔ op.offset.val ≤ 32 ∧ op.Spliced)
  rows : ∀ as, List.Forall₂ (fun op a => op.check = .ok a) ops as →
    ∃ p, execute N as zeroPols = some p ∧
      ∀ i (h : i < as.length), Shown as[i] (i * 32) ((i + 1) * 32 % N) p

theorem accepted_of_check {op : MemAlignOp} (h : op.check = .ok a) :
    op.offset.val ≤ 32 ∧ op.Spliced ∧ a = op.action := by
  rcases check_cases op with ⟨-, hc⟩ | ⟨-, hs, hc⟩ | ⟨-, -, e, hc, -⟩
  · rw [hc] at h
    cases h
  · rw [hc] at h
    exact ⟨hs.1, hs.2, (Except.ok.inj h).symm⟩
  · rw [hc] at h
    cases h

theorem accepted_of_forall₂ {ops : List MemAlignOp} {as : List MemAlignAction}
    (h : List.Forall₂ (fun op a => op.check = .ok a) ops as) :
    (∀ op ∈ ops, op.offset.val ≤ 32 ∧ op.Spliced) ∧ ∀ a ∈ as, Accepted a := by
  induction h with
  | nil => exact ⟨fun op hop => absurd hop List.not_mem_nil, fun a ha => absurd ha List.not_mem_nil⟩
  | cons hop _ ih =>
    obtain ⟨ho, hs, rfl⟩ := accepted_of_check hop
    constructor
    · intro op hop
      rcases List.mem_cons.mp hop with rfl | hop
      · exact ⟨ho, hs⟩
      · exact ih.1 op hop
    · intro a ha
      rcases List.mem_cons.mp ha with rfl | ha
      · exact ⟨_, ho, hs, rfl⟩
      · exact ih.2 a ha

theorem check_iff {op : MemAlignOp} :
    (op.check ≠ .error .abort ∧ ((∃ a, op.check = .ok a) ↔ op.offset.val ≤ 32 ∧ op.Spliced)) ↔
      ¬op.Aborts := by
  rcases check_cases op with ⟨hab, hc⟩ | ⟨hab, hs, hc⟩ | ⟨hab, hs, e, hc, he⟩
  · exact ⟨fun h => absurd hc h.1, fun h => absurd hab h⟩
  · refine ⟨fun _ => hab, fun _ => ⟨by rw [hc]; nofun, fun _ => hs, fun _ => ⟨_, hc⟩⟩⟩
  · refine ⟨fun _ => hab, fun _ => ⟨?_, fun ⟨a, ha⟩ => ?_, fun h => absurd h hs⟩⟩
    · rw [hc]
      exact fun h => he (Except.error.inj h)
    · rw [hc] at ha
      cases ha

/-- The two executors agree unless a write of one byte has the offset 32 and a byte that is not
zero, or the accepted operations take all rows. -/
theorem memAlign_agrees (ops : List MemAlignOp) :
    Agrees pilDegree ops ↔ (∀ op ∈ ops, ¬op.Aborts) ∧
      ((∀ op ∈ ops, op.offset.val ≤ 32 ∧ op.Spliced) → ops.length * 32 < pilDegree) := by
  constructor
  · intro h
    have hno : ∀ op ∈ ops, ¬op.Aborts := fun op hop => check_iff.mp (h.check op hop)
    refine ⟨hno, fun hall => ?_⟩
    have hacc : List.Forall₂ (fun op a => op.check = .ok a) ops (ops.map MemAlignOp.action) := by
      rw [List.forall₂_map_right_iff, List.forall₂_same]
      intro op hop
      obtain ⟨a, ha⟩ := (h.check op hop).2.mpr (hall op hop)
      rwa [← (accepted_of_check ha).2.2]
    obtain ⟨p, hp, -⟩ := h.rows _ hacc
    by_contra hN
    rw [execute_eq_none (by rw [List.length_map]; omega) (by decide)] at hp
    cases hp
  · rintro ⟨hno, hlen⟩
    refine ⟨fun op hop => check_iff.mpr (hno op hop), fun as has => ?_⟩
    obtain ⟨hops, hacc⟩ := accepted_of_forall₂ has
    refine execute_spec hacc ?_
    rw [← has.length_eq]
    exact hlen hops

/-- The byte 1 is written to the offset 32. -/
theorem not_memAlign_agrees :
    let op : MemAlignOp := ⟨.write8, 0, 0, 1, 32, 0, 0⟩
    op.check = .error .abort ∧ ¬Agrees pilDegree [op] := by
  intro op
  have hab : op.Aborts := ⟨rfl, rfl, by decide⟩
  refine ⟨?_, fun h => check_iff.mp (h.check op List.mem_cons_self) hab⟩
  rcases check_cases op with ⟨-, hc⟩ | ⟨hno, -⟩ | ⟨hno, -⟩
  · exact hc
  · exact absurd hab hno
  · exact absurd hab hno

end ZkevmProver.MemAlignExecutor
