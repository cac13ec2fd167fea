import ZkevmProver.StarkPil.PlookupSorted

/-!
# Sorting with maps

The multimap of `calculateH1H2` and the counters of `calculateH1H2_` give the same rows.

  1. What a sorter is to return.
  2. Sorting with the multimaps.
  3. Sorting with counters.
-/

namespace ZkevmProver.Plookup

open Fallible Loops OrderedMap RunLength

/-! ## What a sorter is to return -/

/-- The error for the first row that is not in the table, or the sorted rows. -/
def Sorts (t f : List Row) (result : Sorter) : Prop :=
  match notIncluded t f with
  | some row => result = throw row
  | none => ∃ h1 h2, result = pure (h1, h2) ∧ h1.length = t.length ∧ h2.length = t.length ∧
    interleave h1 h2 = sorted t f

variable {t f : List Row}

theorem Sorts.unique {result result' : Sorter} (h : Sorts t f result) (h' : Sorts t f result') :
    result = result' := by
  unfold Sorts at h h'
  cases hbad : notIncluded t f with
  | some row =>
    rw [hbad] at h h'
    exact h.trans h'.symm
  | none =>
    rw [hbad] at h h'
    obtain ⟨h1, h2, rfl, hlen1, hlen2, hrows⟩ := h
    obtain ⟨h1', h2', rfl, hlen1', hlen2', hrows'⟩ := h'
    obtain ⟨rfl, rfl⟩ := interleave_injective (hlen1.trans hlen2.symm) (hlen1'.trans hlen2'.symm)
      (hrows.trans hrows'.symm)
    rfl

theorem notIncluded_eq_none : notIncluded t f = none ↔ ∀ row ∈ f, row ∈ t := by
  unfold notIncluded
  rw [List.find?_eq_none]
  exact forall₂_congr fun row _ => by rw [decide_eq_true_iff, not_not]

theorem exists_of_notIncluded {row : Row} (h : notIncluded t f = some row) : row ∈ f ∧ row ∉ t := by
  have hbad : decide (row ∉ t) = true := @List.find?_some _ (fun row => decide (row ∉ t)) _ _ h
  exact ⟨List.mem_of_find?_eq_some h, of_decide_eq_true hbad⟩

/-! ## Sorting with the multimaps -/

section Multimaps

variable {d : ℕ} (hd : d = 1 ∨ d = 3)

include hd

/-- The keys of the maps are rows of `d` columns. -/
theorem equivalent_rows : ∀ a ∈ {row : Row | IsRow d row}, ∀ b ∈ {row : Row | IsRow d row},
    equivalent compareFe a b = true ↔ a = b :=
  fun _ ha _ hb => equivalent_iff hd ha hb

/-- The map knows the index of the last occurrence, of which it keeps `g`. -/
theorem find_foldl_assign (ht : ∀ row ∈ t, IsRow d row) (g : ℕ → ℕ) {row : Row} (hrow : IsRow d row) :
    find compareFe (t.zipIdx.foldl (fun m p => assign compareFe p.1 (g p.2) m) []) row =
      (lastIndex t row).map g := by
  have h := foldl_zipIdx_inv (l := t) (s := ([] : List (Row × ℕ)))
    (f := fun m p => assign compareFe p.1 (g p.2) m)
    (J := fun pre m => (∀ p ∈ m, p.1 ∈ {row : Row | IsRow d row}) ∧
      ∀ row, IsRow d row → find compareFe m row = (lastIndex pre row).map g)
    ⟨nofun, fun _ _ => rfl⟩ ?_
  · exact h.2 row hrow
  · rintro pre x hpre m ⟨hkeys, hfind⟩
    have hx : IsRow d x := ht x (hpre.subset (List.mem_append_right pre (List.mem_singleton_self x)))
    refine ⟨mem_assign hkeys hx _, fun row hrow => ?_⟩
    rw [find_assign (equivalent_rows hd) hkeys hx hrow, lastIndex_concat, hfind row hrow]
    by_cases heq : row = x
    · rw [if_pos heq, if_pos heq.symm]
      rfl
    · rw [if_neg heq, if_neg fun h' => heq h'.symm]

omit hd in
/-- The two maps do not depend on each other. -/
theorem foldl_insertT (l : List (Row × ℕ)) (s : List (Row × ℕ) × List (Row × ℕ)) :
    l.foldl insertT s = (l.foldl (fun m p => assign compareFe p.1 p.2 m) s.1,
      l.foldl (fun m p => OrderedMap.insert compareFe p m) s.2) := by
  induction l generalizing s with
  | nil => rfl
  | cons p l ih => exact ih _

omit hd in
theorem foldlM_insertF {idx_t : List (Row × ℕ)} (hidx : ∀ row ∈ f, find compareFe idx_t row = lastIndex t row)
    (s : List (Row × ℕ)) :
    match notIncluded t f with
    | some row => f.foldlM (insertF idx_t) s = throw row
    | none => ∃ s', f.foldlM (insertF idx_t) s = pure s' ∧
        s'.Perm (f.map (fun row => (row, (lastIndex t row).getD 0)) ++ s) := by
  induction f generalizing s with
  | nil => exact ⟨s, rfl, .refl _⟩
  | cons row f ih =>
    have hrow := hidx row List.mem_cons_self
    have ih := fun s => ih (fun row' hrow' => hidx row' (List.mem_cons_of_mem row hrow')) s
    unfold notIncluded at ih ⊢
    rw [List.find?_cons, List.foldlM_cons]
    cases hlast : lastIndex t row with
    | none =>
      rw [decide_eq_true (lastIndex_eq_none.mp hlast)]
      have hstep : insertF idx_t s row = throw row := by
        unfold insertF
        rw [hrow, hlast]
      show insertF idx_t s row >>= _ = throw row
      rw [hstep]
      rfl
    | some k =>
      have hmem : row ∈ t := List.mem_of_getElem? (getElem?_of_lastIndex hlast)
      have hstep : insertF idx_t s row = pure (OrderedMap.insert compareFe (row, k) s) := by
        unfold insertF
        rw [hrow, hlast]
      have ih := ih (OrderedMap.insert compareFe (row, k) s)
      rw [decide_eq_false (not_not.mpr hmem), hstep, pure_bind]
      cases hbad : f.find? fun row => decide (row ∉ t) with
      | some bad =>
        rw [hbad] at ih
        exact ih
      | none =>
        rw [hbad] at ih
        obtain ⟨s', hs', hperm⟩ := ih
        refine ⟨s', hs', hperm.trans ?_⟩
        rw [List.map_cons, hlast]
        exact ((insert_perm compareFe (row, k) s).append_left _).trans List.perm_middle

omit hd in
/-- The order of the indices determines the pairs. -/
theorem eq_sortedPairs {s : List (ℕ × Row)} (hs : s.Pairwise fun p q => p.1 ≤ q.1)
    (hperm : s.Perm (sortedPairs t f)) : s = sortedPairs t f := by
  refine hperm.eq_of_pairwise (fun p q hp hq hpq hqp => ?_) hs pairwise_runs
  obtain ⟨i, -, -, -, rfl⟩ := mem_runs.mp (hperm.mem_iff.mp hp)
  obtain ⟨j, -, -, -, rfl⟩ := mem_runs.mp hq
  have hij : i = j := Nat.le_antisymm hpq hqp
  rw [hij]

omit hd in
theorem takeTurns_eq {rows : List Row} {n : ℕ} (hlen : rows.length = 2 * n) :
    (takeTurns rows).1.length = n ∧ (takeTurns rows).2.length = n ∧
      interleave (takeTurns rows).1 (takeTurns rows).2 = rows := by
  suffices h : ∀ (n : ℕ) (rows : List Row) (s : ℕ × List Row × List Row), rows.length = 2 * n →
      s.1 % 2 = 0 → s.2.1.length = s.2.2.length →
      let s' := (rows.foldl (fun (s : ℕ × List Row × List Row) row =>
        if s.1 % 2 = 0 then (s.1 + 1, s.2.1 ++ [row], s.2.2) else (s.1 + 1, s.2.1, s.2.2 ++ [row])) s).2
      s'.1.length = s.2.1.length + n ∧ s'.2.length = s.2.2.length + n ∧
        interleave s'.1 s'.2 = interleave s.2.1 s.2.2 ++ rows by
    obtain ⟨hlen1, hlen2, hrows⟩ := h n rows (0, [], []) hlen rfl rfl
    exact ⟨hlen1.trans (Nat.zero_add n), hlen2.trans (Nat.zero_add n), hrows⟩
  intro n
  induction n with
  | zero =>
    intro rows s hlen _ _
    rw [List.eq_nil_of_length_eq_zero hlen]
    exact ⟨rfl, rfl, (List.append_nil _).symm⟩
  | succ n ih =>
    rintro rows ⟨i, h1, h2⟩ hlen heven heq
    have heq : h1.length = h2.length := heq
    match rows, hlen with
    | [], hlen => exact absurd hlen (by rw [List.length_nil]; omega)
    | [_], hlen => exact absurd hlen (by rw [List.length_singleton]; omega)
    | a :: b :: rows, hlen =>
      rw [List.length_cons, List.length_cons] at hlen
      have heven : i % 2 = 0 := heven
      have hodd : ¬(i + 1) % 2 = 0 := by omega
      have hnext := ih rows (i + 2, h1 ++ [a], h2 ++ [b]) (by omega) (by show (i + 2) % 2 = 0; omega) (by
        show (h1 ++ [a]).length = (h2 ++ [b]).length
        rw [List.length_append, List.length_append, heq]
        rfl)
      simp only [List.foldl_cons, if_pos heven, if_neg hodd]
      obtain ⟨hlen1, hlen2, hrows⟩ := hnext
      refine ⟨hlen1.trans ?_, hlen2.trans ?_, hrows.trans ?_⟩
      · show (h1 ++ [a]).length + n = h1.length + (n + 1)
        rw [List.length_append, List.length_singleton]
        omega
      · show (h2 ++ [b]).length + n = h2.length + (n + 1)
        rw [List.length_append, List.length_singleton]
        omega
      · show interleave (h1 ++ [a]) (h2 ++ [b]) ++ rows = _
        rw [interleave_concat heq, List.append_assoc]
        rfl

theorem calculateH1H2_sorts (ht : ∀ row ∈ t, IsRow d row) (hf : ∀ row ∈ f, IsRow d row)
    (hlen : f.length = t.length) : Sorts t f (calculateH1H2 f t) := by
  have hidx : ∀ row ∈ f, find compareFe (t.zipIdx.foldl (fun m p => assign compareFe p.1 p.2 m) []) row =
      lastIndex t row := fun row hrow =>
    (find_foldl_assign hd ht (fun i => i) (hf row hrow)).trans Option.map_id'
  have hinsert := foldlM_insertF hidx (t.zipIdx.foldl (fun m p => OrderedMap.insert compareFe p m) [])
  unfold Sorts calculateH1H2
  rw [foldl_insertT]
  cases hbad : notIncluded t f with
  | some row =>
    rw [hbad] at hinsert
    show (f.foldlM (insertF _) _ >>= _ : Sorter) = throw row
    rw [hinsert]
    rfl
  | none =>
    rw [hbad] at hinsert
    obtain ⟨s, hs, hperm⟩ := hinsert
    have hmem := notIncluded_eq_none.mp hbad
    -- the multimap by indices is a sorted permutation of the rows with their indices
    have hsorted : s.foldl (fun m p => OrderedMap.insert (fun i j => decide (i < j)) (p.2, p.1) m)
        ([] : List (ℕ × Row)) = sortedPairs t f := by
      have hmap : s.foldl (fun m p => OrderedMap.insert (fun i j => decide (i < j)) (p.2, p.1) m)
          ([] : List (ℕ × Row)) = (s.map Prod.swap).foldl
            (fun m p => OrderedMap.insert (fun i j => decide (i < j)) p m) [] := by
        rw [List.foldl_map]
        rfl
      rw [hmap]
      refine eq_sortedPairs (foldl_insert_sorted _ .nil) ?_
      refine (foldl_insert_perm _ _ []).trans ?_
      rw [List.append_nil]
      refine (hperm.map Prod.swap).trans (List.Perm.symm ((sortedPairs_perm hmem).trans ?_))
      rw [List.map_append, List.map_map]
      refine List.Perm.append_left _ (List.Perm.map _ ?_)
      have hzip := foldl_insert_perm compareFe t.zipIdx []
      rw [List.append_nil] at hzip
      exact hzip.symm
    obtain ⟨hlen1, hlen2, hrows⟩ := takeTurns_eq (length_sorted hmem hlen)
    refine ⟨_, _, ?_, hlen1, hlen2, hrows⟩
    show (f.foldlM (insertF _) _ >>= _ : Sorter) = _
    rw [hs, pure_bind]
    show pure (takeTurns _) = _
    rw [hsorted, map_snd_sortedPairs]

end Multimaps

/-! ## Sorting with counters -/

/-- However the rows are looked up. -/
theorem countRows_sorts {look : Row → ExceptT Row Option ℕ} (hlook : ∀ row ∈ f, LooksUp t look row)
    (hlen : f.length = t.length) (hint : f.length + 1 < 2 ^ 31) :
    Sorts t f (do
      let counter ← countRows look f
      writeOut t counter) := by
  unfold Sorts
  rw [countRows_eq hlook hint]
  cases hbad : notIncluded t f with
  | some row => rfl
  | none =>
    have hmem := notIncluded_eq_none.mp hbad
    have hremaining : remaining t (0, fun i => (copies t f i : ℤ)) = sorted t f :=
      runs_congr fun i _ _ => Int.toNat_natCast _
    obtain ⟨h1, h2, hwrite, hlen1, hlen2, hrows⟩ := writeOut_eq (t := t) (c := fun i => (copies t f i : ℤ))
      (fun i _ => by unfold copies; omega) (by rw [hremaining, length_sorted hmem hlen])
    refine ⟨h1, h2, ?_, hlen1, hlen2, hrows.trans hremaining⟩
    dsimp only
    rw [pure_bind, hwrite]
    rfl

theorem withCounters_sorts {d : ℕ} (hd : d = 1 ∨ d = 3) (ht : ∀ row ∈ t, IsRow d row)
    (hf : ∀ row ∈ f, IsRow d row) (hlen : f.length = t.length) (hint : f.length + 1 < 2 ^ 31) :
    Sorts t f (calculateH1H2_ f t) := by
  refine countRows_sorts (fun row hrow => ?_) hlen hint
  unfold LooksUp look_
  rw [find_foldl_assign hd ht (fun i => i + 1) (hf row hrow)]
  cases lastIndex t row with
  | none => rfl
  | some i => rfl

end ZkevmProver.Plookup
