import ZkevmProver.Lib.RunLength
import ZkevmProver.StarkPil.CalculateH1H2

/-!
# The sorted rows

All versions write every row of the table as often as its counter says: once, and where a row stands for the
last time in the table once more for every such row of `f`.

  1. The comparison.
  2. The counters.
  3. Writing the rows.
  4. The multimaps.
-/

namespace ZkevmProver.Plookup

open Fallible Loops OrderedMap RunLength

/-! ## The comparison -/

theorem compareFe_irrefl (a : Row) : compareFe a a = false := by
  unfold compareFe
  split
  · exact decide_eq_false (Nat.lt_irrefl _)
  · rw [if_neg (not_not.mpr rfl), if_neg (not_not.mpr rfl)]
    exact decide_eq_false (Nat.lt_irrefl _)

theorem eq_of_not_lt {x y : Fe} (h : decide (toU64 x < toU64 y) = false)
    (h' : decide (toU64 y < toU64 x) = false) : x = y :=
  toU64_injective (Nat.le_antisymm (Nat.le_of_not_lt (of_decide_eq_false h'))
    (Nat.le_of_not_lt (of_decide_eq_false h)))

/-- One level of the comparison. -/
theorem eq_of_not_lt_or {x y : Fe} {r r' : Bool}
    (h : (if toU64 x ≠ toU64 y then decide (toU64 x < toU64 y) else r) = false)
    (h' : (if toU64 y ≠ toU64 x then decide (toU64 y < toU64 x) else r') = false) :
    x = y ∧ r = false ∧ r' = false := by
  by_cases heq : toU64 x = toU64 y
  · rw [if_neg (not_not.mpr heq)] at h
    rw [if_neg (not_not.mpr heq.symm)] at h'
    exact ⟨toU64_injective heq, h, h'⟩
  · rw [if_pos heq] at h
    rw [if_pos fun h => heq h.symm] at h'
    exact absurd (congrArg toU64 (eq_of_not_lt h h')) heq

/-- Rows of one column, or of three. -/
def IsRow (d : ℕ) (row : Row) : Prop := row.length = d

theorem equivalent_iff {d : ℕ} (hd : d = 1 ∨ d = 3) {a b : Row} (ha : IsRow d a) (hb : IsRow d b) :
    equivalent compareFe a b = true ↔ a = b := by
  constructor
  · intro h
    obtain ⟨hab, hba⟩ := equivalent_eq_true.mp h
    rcases hd with rfl | rfl
    · obtain ⟨x, rfl⟩ := List.length_eq_one_iff.mp ha
      obtain ⟨y, rfl⟩ := List.length_eq_one_iff.mp hb
      rw [eq_of_not_lt (x := x) (y := y) hab hba]
    · obtain ⟨x0, x1, x2, rfl⟩ := List.length_eq_three.mp ha
      obtain ⟨y0, y1, y2, rfl⟩ := List.length_eq_three.mp hb
      obtain ⟨rfl, hab, hba⟩ := eq_of_not_lt_or (x := x0) (y := y0) hab hba
      obtain ⟨rfl, hab, hba⟩ := eq_of_not_lt_or (x := x1) (y := y1) hab hba
      rw [eq_of_not_lt (x := x2) (y := y2) hab hba]
  · rintro rfl
    exact equivalent_eq_true.mpr ⟨compareFe_irrefl a, compareFe_irrefl a⟩

/-! ## The counters -/

/-- How often row `i` of the table is written. -/
def copies (t f : List Row) (i : ℕ) : ℕ := 1 + f.countP fun row => decide (lastIndex t row = some i)

/-- The first row of `f` that is not in the table. -/
def notIncluded (t f : List Row) : Option Row := f.find? fun row => decide (row ∉ t)

theorem copies_cons (t : List Row) (row : Row) (f : List Row) {k : ℕ} (h : lastIndex t row = some k) (i : ℕ) :
    copies t (row :: f) i = if i = k then copies t f i + 1 else copies t f i := by
  unfold copies
  rw [List.countP_cons, h]
  by_cases hi : i = k
  · rw [if_pos hi, if_pos (decide_eq_true (congrArg some hi.symm)), Nat.add_assoc]
  · rw [if_neg hi, if_neg fun h' => hi (Option.some_inj.mp (of_decide_eq_true h')).symm, Nat.add_zero]

/-- Rows are looked up by the index of their last occurrence. -/
def LooksUp (t : List Row) (look : Row → ExceptT Row Option ℕ) (row : Row) : Prop :=
  look row = match lastIndex t row with
    | some i => pure i
    | none => throw row

theorem countRows_eq {t f : List Row} {look : Row → ExceptT Row Option ℕ} (hlook : ∀ row ∈ f, LooksUp t look row)
    (hlen : f.length + 1 < 2 ^ 31) :
    countRows look f = match notIncluded t f with
      | some row => throw row
      | none => pure fun i => (copies t f i : ℤ) := by
  suffices h : ∀ (c : ℕ → ℤ), (∀ i, c i + f.length < 2 ^ 31) → f.foldlM (fun counter key => do
      let indx ← look key
      increment counter indx) c = match notIncluded t f with
        | some row => throw row
        | none => pure fun i => c i + (f.countP fun row => decide (lastIndex t row = some i) : ℕ) by
    unfold countRows
    rw [h (fun _ => 1) fun _ => by omega]
    cases notIncluded t f with
    | some row => rfl
    | none =>
      show pure _ = pure _
      congr 1
  clear hlen
  induction f with
  | nil =>
    intro c _
    show pure c = pure _
    congr 1
    funext i
    exact (Int.add_zero _).symm
  | cons row f ih =>
    intro c hc
    have hrow := hlook row List.mem_cons_self
    have ih := ih fun row' hrow' => hlook row' (List.mem_cons_of_mem row hrow')
    unfold LooksUp at hrow
    rw [List.foldlM_cons, hrow]
    unfold notIncluded at ih ⊢
    rw [List.find?_cons]
    cases hlast : lastIndex t row with
    | none =>
      rw [decide_eq_true (lastIndex_eq_none.mp hlast)]
      rfl
    | some k =>
      have hmem : row ∈ t := List.mem_of_getElem? (getElem?_of_lastIndex hlast)
      have hck := hc k
      rw [List.length_cons] at hck
      have hstep : (do
          let indx ← (pure k : ExceptT Row Option ℕ)
          increment c indx) = pure (Function.update c k (c k + 1)) := by
        rw [pure_bind, increment, if_pos (by omega)]
      rw [decide_eq_false (not_not.mpr hmem)]
      show ((do
        let indx ← (pure k : ExceptT Row Option ℕ)
        increment c indx) >>= _) = _
      rw [hstep, pure_bind, ih _ fun i => ?_]
      · cases f.find? fun row => decide (row ∉ t) with
        | some bad => rfl
        | none =>
          show pure _ = pure _
          congr 1
          funext i
          rw [List.countP_cons, hlast]
          by_cases hi : i = k
          · rw [hi, Function.update_self, if_pos (decide_eq_true rfl)]
            omega
          · rw [Function.update_of_ne hi,
              if_neg fun h' => hi (Option.some_inj.mp (of_decide_eq_true h')).symm, Nat.add_zero]
      · have hci := hc i
        rw [List.length_cons] at hci
        by_cases hi : i = k
        · rw [hi, Function.update_self]
          omega
        · rw [Function.update_of_ne hi]
          omega

/-- The rows in the order of the table. -/
def sorted (t f : List Row) : List Row := runs (copies t f) (fun i => t.getD i []) 0 t.length

/-- The same with the index of each row. -/
def sortedPairs (t f : List Row) : List (ℕ × Row) :=
  runs (copies t f) (fun i => (i, t.getD i [])) 0 t.length

theorem map_snd_sortedPairs (t f : List Row) : (sortedPairs t f).map Prod.snd = sorted t f := map_runs Prod.snd

theorem sortedPairs_nil (t : List Row) : sortedPairs t [] = t.zipIdx.map Prod.swap := by
  unfold sortedPairs runs
  show (List.range' 0 (t.length - 0)).flatMap (fun i => [(i, t.getD i [])]) = _
  rw [← List.map_eq_flatMap, Nat.sub_zero]
  refine List.ext_getElem (by rw [List.length_map, List.length_map, List.length_range', List.length_zipIdx])
    fun i hi hi' => ?_
  rw [List.length_map, List.length_range'] at hi
  rw [List.getElem_map, List.getElem_map, List.getElem_range', List.getElem_zipIdx, Nat.zero_add, Nat.one_mul,
    List.getD_eq_getElem _ _ hi, Nat.zero_add]
  rfl

/-- The rows of the table with their indices, and those of `f` with the index of their last occurrence. -/
theorem sortedPairs_perm {t f : List Row} (hf : ∀ row ∈ f, row ∈ t) :
    (sortedPairs t f).Perm (f.map (fun row => ((lastIndex t row).getD 0, row)) ++ t.zipIdx.map Prod.swap) := by
  induction f with
  | nil =>
    rw [sortedPairs_nil]
    exact .refl _
  | cons row f ih =>
    have hmem := hf row List.mem_cons_self
    have ih := ih fun row' hrow' => hf row' (List.mem_cons_of_mem row hrow')
    cases hlast : lastIndex t row with
    | none => exact absurd hmem (lastIndex_eq_none.mp hlast)
    | some k =>
      have hget := getElem?_of_lastIndex hlast
      obtain ⟨hk, hrow⟩ := List.getElem?_eq_some_iff.mp hget
      have hcopies : sortedPairs t (row :: f) = runs (fun i => if i = k then copies t f i + 1 else copies t f i)
          (fun i => (i, t.getD i [])) 0 t.length :=
        runs_congr fun i _ _ => copies_cons t row f hlast i
      rw [hcopies, List.map_cons, hlast, Option.getD_some]
      refine (runs_increment_perm hk).trans ?_
      rw [List.getD_eq_getElem _ _ hk, hrow]
      exact ih.cons _

theorem sorted_perm {t f : List Row} (hf : ∀ row ∈ f, row ∈ t) : (sorted t f).Perm (f ++ t) := by
  have hfst : (f.map fun row => ((lastIndex t row).getD 0, row)).map Prod.snd = f := by
    rw [List.map_map]
    exact List.map_id' f
  have hsnd : (t.zipIdx.map Prod.swap).map Prod.snd = t := by
    rw [List.map_map]
    exact List.zipIdx_map_fst 0 t
  have h := (sortedPairs_perm hf).map Prod.snd
  rwa [map_snd_sortedPairs, List.map_append, hfst, hsnd] at h

theorem length_sorted {t f : List Row} (hf : ∀ row ∈ f, row ∈ t) (hlen : f.length = t.length) :
    (sorted t f).length = 2 * t.length := by
  rw [(sorted_perm hf).length_eq, List.length_append, hlen, Nat.two_mul]

/-! ## Writing the rows -/

section WriteOut

variable {t : List Row}

/-- What is still to be written. -/
def remaining (t : List Row) (s : ℕ × (ℕ → ℤ)) : List Row :=
  runs (fun i => (s.2 i).toNat) (fun i => t.getD i []) s.1 t.length

/-- No count is negative, and those behind the current row have not been touched. -/
def Counts (t : List Row) (s : ℕ × (ℕ → ℤ)) : Prop :=
  s.1 ≤ t.length ∧ 0 ≤ s.2 s.1 ∧ ∀ i, s.1 < i → i < t.length → 1 ≤ s.2 i

/-- One row of those that remain is taken from the row of the table with a count. -/
theorem remaining_update {s : ℕ × (ℕ → ℤ)} (hlt : s.1 < t.length) (hpos : 1 ≤ s.2 s.1) :
    remaining t s = t.getD s.1 [] :: remaining t (s.1, Function.update s.2 s.1 (s.2 s.1 - 1)) := by
  have hcount : (s.2 s.1).toNat = (s.2 s.1 - 1).toNat + 1 := by omega
  unfold remaining
  rw [runs_cons hlt, runs_cons hlt, hcount, List.replicate_succ]
  show t.getD s.1 [] :: (List.replicate (s.2 s.1 - 1).toNat _ ++ _) =
    t.getD s.1 [] :: (List.replicate (Function.update s.2 s.1 (s.2 s.1 - 1) s.1).toNat _ ++ _)
  rw [Function.update_self]
  refine congrArg (fun l => t.getD s.1 [] :: (List.replicate _ _ ++ l)) (runs_congr fun i hi _ => ?_)
  show (s.2 i).toNat = (Function.update s.2 s.1 (s.2 s.1 - 1) i).toNat
  rw [Function.update_of_ne (by omega)]

theorem takeRow_eq {s : ℕ × (ℕ → ℤ)} (hs : Counts t s) (hne : remaining t s ≠ []) :
    ∃ s' row, takeRow t s = some (s', row) ∧ remaining t s = row :: remaining t s' ∧ Counts t s' := by
  obtain ⟨hle, hnonneg, hbehind⟩ := hs
  have hlt : s.1 < t.length := by
    refine Nat.lt_of_le_of_ne hle fun heq => hne ?_
    unfold remaining
    rw [heq, runs_self]
  unfold takeRow
  rw [List.getElem?_eq_getElem hlt]
  by_cases hzero : s.2 s.1 = 0
  · -- nothing remains of this row, so that the next one is taken
    have hskip : remaining t s = remaining t (s.1 + 1, s.2) := by
      unfold remaining
      rw [runs_cons hlt, hzero]
      rfl
    have hlt' : s.1 + 1 < t.length := by
      refine Nat.lt_of_le_of_ne hlt fun heq => hne ?_
      rw [hskip]
      unfold remaining
      rw [heq, runs_self]
    have hpos := hbehind (s.1 + 1) (Nat.lt_succ_self _) hlt'
    refine ⟨(s.1 + 1, Function.update s.2 (s.1 + 1) (s.2 (s.1 + 1) - 1)), t.getD (s.1 + 1) [], ?_, ?_, ?_⟩
    · rw [if_pos hzero]
      show (t[s.1 + 1]?).bind _ = _
      rw [List.getElem?_eq_getElem hlt', List.getD_eq_getElem _ _ hlt']
      rfl
    · rw [hskip]
      exact remaining_update (s := (s.1 + 1, s.2)) hlt' hpos
    · refine ⟨hlt, ?_, fun i hi hilt => ?_⟩
      · show 0 ≤ Function.update s.2 (s.1 + 1) (s.2 (s.1 + 1) - 1) (s.1 + 1)
        rw [Function.update_self]
        omega
      · have hi : s.1 + 1 < i := hi
        show 1 ≤ Function.update s.2 (s.1 + 1) (s.2 (s.1 + 1) - 1) i
        rw [Function.update_of_ne (by omega)]
        exact hbehind i (by omega) hilt
  · refine ⟨(s.1, Function.update s.2 s.1 (s.2 s.1 - 1)), t.getD s.1 [], ?_, ?_, ?_⟩
    · rw [if_neg hzero]
      show (t[s.1]?).bind _ = _
      rw [List.getElem?_eq_getElem hlt, List.getD_eq_getElem _ _ hlt]
      rfl
    · exact remaining_update hlt (by omega)
    · refine ⟨hle, ?_, fun i hi hilt => ?_⟩
      · show 0 ≤ Function.update s.2 s.1 (s.2 s.1 - 1) s.1
        rw [Function.update_self]
        omega
      · have hi : s.1 < i := hi
        show 1 ≤ Function.update s.2 s.1 (s.2 s.1 - 1) i
        rw [Function.update_of_ne (by omega)]
        exact hbehind i hi hilt

/-- The loop writes the rows in turn. -/
theorem writeOut_eq {c : ℕ → ℤ} (hc : ∀ i < t.length, 1 ≤ c i)
    (hlen : (remaining t (0, c)).length = 2 * t.length) :
    ∃ h1 h2, writeOut t c = some (h1, h2) ∧ h1.length = t.length ∧ h2.length = t.length ∧
      interleave h1 h2 = remaining t (0, c) := by
  have hstart : t ≠ [] → 0 ≤ c 0 := fun hne => by
    have h := hc 0 (List.length_pos_of_ne_nil hne)
    omega
  have h := foldlM_range_inv (n := t.length) (s := (((0, c), [], []) : (ℕ × (ℕ → ℤ)) × List Row × List Row))
    (f := fun (s : (ℕ × (ℕ → ℤ)) × List Row × List Row) _ =>
      (takeRow t s.1).bind fun next1 => (takeRow t next1.1).bind fun next2 =>
        some (next2.1, s.2.1 ++ [next1.2], s.2.2 ++ [next2.2]))
    (J := fun n s => (t ≠ [] → Counts t s.1) ∧ s.2.1.length = n ∧ s.2.2.length = n ∧
      remaining t (0, c) = interleave s.2.1 s.2.2 ++ remaining t s.1)
    ⟨fun hne => ⟨Nat.zero_le _, hstart hne, fun i _ hi => hc i hi⟩, rfl, rfl, rfl⟩ ?_
  · obtain ⟨⟨s, h1, h2⟩, hs, -, hlen1, hlen2, hrest⟩ := h
    have hlen1 : h1.length = t.length := hlen1
    have hlen2 : h2.length = t.length := hlen2
    refine ⟨h1, h2, ?_, hlen1, hlen2, ?_⟩
    · exact congrArg (fun s => s.bind fun s => some (s.2.1, s.2.2)) hs
    · have hrest : remaining t (0, c) = interleave h1 h2 ++ remaining t s := hrest
      have hnil : (remaining t s).length = 0 := by
        have h := congrArg List.length hrest
        rw [List.length_append, hlen, length_interleave (hlen1.trans hlen2.symm), hlen1] at h
        omega
      rw [hrest, List.eq_nil_of_length_eq_zero hnil, List.append_nil]
  · rintro n hn ⟨s, h1, h2⟩ ⟨hs, hlen1, hlen2, hrest⟩
    have hne : t ≠ [] := List.ne_nil_of_length_pos (Nat.zero_lt_of_lt hn)
    have hlen1 : h1.length = n := hlen1
    have hlen2 : h2.length = n := hlen2
    have heq : h1.length = h2.length := hlen1.trans hlen2.symm
    have hrest : remaining t (0, c) = interleave h1 h2 ++ remaining t s := hrest
    have htwo : 2 ≤ (remaining t s).length := by
      have h := congrArg List.length hrest
      rw [List.length_append, hlen, length_interleave heq] at h
      omega
    obtain ⟨s1, row1, htake1, hrow1, hs1⟩ := takeRow_eq (hs hne)
      (List.ne_nil_of_length_pos (Nat.zero_lt_of_lt htwo))
    have hone : 1 ≤ (remaining t s1).length := by
      rw [hrow1, List.length_cons] at htwo
      omega
    obtain ⟨s2, row2, htake2, hrow2, hs2⟩ := takeRow_eq hs1 (List.ne_nil_of_length_pos hone)
    refine ⟨(s2, h1 ++ [row1], h2 ++ [row2]), ?_, fun _ => hs2, ?_, ?_, ?_⟩
    · show (takeRow t s).bind _ = _
      rw [htake1]
      show (takeRow t s1).bind _ = _
      rw [htake2]
      rfl
    · show (h1 ++ [row1]).length = n + 1
      rw [List.length_append, List.length_singleton, hlen1]
    · show (h2 ++ [row2]).length = n + 1
      rw [List.length_append, List.length_singleton, hlen2]
    · show remaining t (0, c) = interleave (h1 ++ [row1]) (h2 ++ [row2]) ++ remaining t s2
      rw [interleave_concat heq, hrest, hrow1, hrow2, List.append_assoc]
      rfl

end WriteOut

end ZkevmProver.Plookup
