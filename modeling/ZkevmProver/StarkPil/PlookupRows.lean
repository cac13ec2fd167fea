import ZkevmProver.StarkPil.PlookupTable

/-!
# Filling the hash table

Every row of the table leaves the hash table in order: it updates the entry of its key, or adds one at the end
of a chain.  Sorting with the hash table is sorting as all the other versions do.

  1. A key that is in the table.
  2. A new key.
  3. All rows of the table.
  4. Looking up a row.
  5. Sorting with a hash table.
  6. The keys of the prover.
  7. All versions together.
-/

namespace ZkevmProver.Plookup

open Fallible Loops HashChain RunLength

section Row

variable {d size_keys n : ℕ} {pre : List Row} {ks : List (List ℕ)} {st : HashTable} {row : Row}

/-! ## A key that is in the table -/

/-- The entry gets the index of the row. -/
theorem TableInv.update (hinv : TableInv d size_keys pre ks st) (h : Admitted d size_keys n)
    (hn : ks.length ≤ n) {e : ℕ} (he : e < ks.length) (hkey : ks.getD e [] = toVectorU64 row) :
    TableInv d size_keys (pre ++ [row]) ks
      { st with buffer := Function.update st.buffer (slot d size_keys e d) pre.length } := by
  have hother : ∀ e' < ks.length, ∀ c < d + 2, c ≠ d →
      Function.update st.buffer (slot d size_keys e d) pre.length (slot d size_keys e' c) =
        st.buffer (slot d size_keys e' c) := by
    intro e' he' c hc hcd
    refine Function.update_of_ne (fun heq => hcd ?_) _ _
    exact (slot_injective h (by omega) (by omega) hc (by omega) heq).2
  refine ⟨hinv.pos, ?_, hinv.nodup, ?_, ?_, ?_, hinv.touched, ?_, ?_⟩
  · rw [List.length_append]
    exact Nat.le_add_right_of_le hinv.le
  · intro key
    rw [hinv.mem, List.map_append, List.map_singleton, List.mem_append, List.mem_singleton]
    constructor
    · exact .inl
    · rintro (hmem | rfl)
      · exact hmem
      · rw [← hkey, ← hinv.mem, List.getD_eq_getElem _ _ he]
        exact List.getElem_mem he
  · intro e' he'
    rw [← hinv.key e' he']
    exact readKey_congr fun c hc => hother e' he' c (by omega) (Nat.ne_of_lt hc)
  · intro e' he'
    rw [List.map_append, List.map_singleton, lastIndex_concat, List.length_map]
    dsimp only
    by_cases heq : e' = e
    · rw [heq, if_pos hkey.symm, Function.update_self]
    · rw [if_neg fun hkey' => heq (hinv.getD_injective he' he (hkey'.symm.trans hkey.symm)),
        Function.update_of_ne fun hslot =>
          heq (slot_injective h (by omega) (by omega) (by omega) (by omega) hslot).1]
      exact hinv.index e' he'
  · intro ind e' es hbucket
    have hmem : e' ∈ bucket size_keys ks ind := hbucket ▸ List.mem_cons_self
    show Function.update st.buffer _ _ ind = e'
    rw [Function.update_of_ne (slot_ne_head h (by omega) (by omega) (lt_of_mem_bucket h.pos hmem)).symm]
    exact hinv.head ind e' es hbucket
  · intro ind
    refine (hinv.linked ind).congr fun e' he' => ?_
    exact hother e' (mem_bucket.mp he').1 (d + 1) (by omega) (by omega)

/-! ## A new key -/

/-- The buffer `b` has the number of the new entry at the end of its chain; then the entry is written. -/
theorem TableInv.concat (hinv : TableInv d size_keys pre ks st) (h : Admitted d size_keys n)
    (hn : ks.length < n) (hlen : row.length = d) (hnew : toVectorU64 row ∉ ks) {b : ℕ → ℕ} {touched : ℕ → Bool}
    (hcells : ∀ e < ks.length, ∀ c ≤ d, b (slot d size_keys e c) = st.buffer (slot d size_keys e c))
    (hheads : ∀ ind < size_keys, ind ≠ hash size_keys (toVectorU64 row) → b ind = st.buffer ind)
    (hhead : ∀ e es, bucket size_keys ks (hash size_keys (toVectorU64 row)) ++ [ks.length] = e :: es →
      b (hash size_keys (toVectorU64 row)) = e)
    (hlinks : ∀ e < ks.length, e ∉ bucket size_keys ks (hash size_keys (toVectorU64 row)) →
      b (slot d size_keys e (d + 1)) = st.buffer (slot d size_keys e (d + 1)))
    (hlink : ∀ next : ℕ → ℕ, next ks.length = 0 →
      (∀ e ∈ bucket size_keys ks (hash size_keys (toVectorU64 row)), next e = b (slot d size_keys e (d + 1))) →
      Linked next (bucket size_keys ks (hash size_keys (toVectorU64 row)) ++ [ks.length]))
    (htouched : ∀ ind, touched ind = true ↔ st.touched ind = true ∨ ind = hash size_keys (toVectorU64 row)) :
    TableInv d size_keys (pre ++ [row]) (ks ++ [toVectorU64 row])
      ⟨writeEntry d size_keys b st.pos (toVectorU64 row) pre.length, touched, (st.pos + 1) % 2 ^ 32⟩ := by
  have hkeylen : (toVectorU64 row).length = d := by rw [toVectorU64, List.length_map, hlen]
  -- the cells of the entries before it, and those of the new entry
  have hold : ∀ e < ks.length, ∀ c < d + 2,
      writeEntry d size_keys b ks.length (toVectorU64 row) pre.length (slot d size_keys e c) =
        b (slot d size_keys e c) := fun e he c hc =>
    writeEntry_of_ne b _ _ fun c' hc' heq =>
      absurd (slot_injective h (by omega) (by omega) hc hc' heq).1 (Nat.ne_of_lt he)
  have hnewcell : ∀ c < d + 2,
      writeEntry d size_keys b ks.length (toVectorU64 row) pre.length (slot d size_keys ks.length c) =
        (toVectorU64 row ++ [pre.length, 0]).getD c 0 :=
    fun c hc => writeEntry_slot h b hn _ _ hc
  have hwords : ∀ ind < size_keys,
      writeEntry d size_keys b ks.length (toVectorU64 row) pre.length ind = b ind := fun ind hind =>
    writeEntry_of_ne b _ _ fun c hc => (slot_ne_head h hn hc hind).symm
  rw [hinv.pos]
  refine ⟨?_, ?_, ?_, ?_, ?_, ?_, ?_, ?_, ?_⟩
  · have hfits := h.fits
    have hpos := h.pos
    have hle : n ≤ (d + 2) * n := Nat.le_mul_of_pos_left n (by omega)
    rw [List.length_append, List.length_singleton]
    exact Nat.mod_eq_of_lt (by omega)
  · rw [List.length_append, List.length_append]
    exact Nat.add_le_add_right hinv.le 1
  · rw [List.nodup_append]
    refine ⟨hinv.nodup, List.nodup_singleton _, fun k hk k' hk' heq => hnew ?_⟩
    rw [← List.mem_singleton.mp hk', ← heq]
    exact hk
  · intro key
    rw [List.map_append, List.map_singleton, List.mem_append, List.mem_append, hinv.mem]
  · intro e he
    rw [List.length_append, List.length_singleton] at he
    rcases Nat.lt_succ_iff_lt_or_eq.mp he with he | rfl
    · rw [List.getD_append _ _ _ _ he, ← hinv.key e he]
      exact readKey_congr fun c hc => (hold e he c (by omega)).trans (hcells e he c (Nat.le_of_lt hc))
    · rw [List.getD_append_right _ _ _ _ (Nat.le_refl _), Nat.sub_self, List.getD_cons_zero]
      exact readKey_writeEntry h b hn hkeylen _
  · intro e he
    rw [List.length_append, List.length_singleton] at he
    rw [List.map_append, List.map_singleton, lastIndex_concat, List.length_map]
    dsimp only
    rcases Nat.lt_succ_iff_lt_or_eq.mp he with he | rfl
    · have hne : toVectorU64 row ≠ ks.getD e [] := fun heq => hnew (by
        rw [heq, List.getD_eq_getElem _ _ he]
        exact List.getElem_mem he)
      rw [List.getD_append _ _ _ _ he, if_neg hne, hold e he d (by omega), hcells e he d (Nat.le_refl d)]
      exact hinv.index e he
    · rw [List.getD_append_right _ _ _ _ (Nat.le_refl _), Nat.sub_self, List.getD_cons_zero, if_pos rfl,
        hnewcell d (by omega), List.getD_append_right _ _ _ _ (Nat.le_of_eq hkeylen), hkeylen, Nat.sub_self,
        List.getD_cons_zero]
  · intro ind
    rw [htouched, bucket_concat, hinv.touched, eq_comm (a := ind)]
    by_cases hind : hash size_keys (toVectorU64 row) = ind
    · rw [if_pos hind]
      exact ⟨fun _ => List.append_ne_nil_of_right_ne_nil _ (List.cons_ne_nil _ _), fun _ => .inr hind⟩
    · rw [if_neg hind, List.append_nil]
      exact ⟨fun h' => h'.resolve_right hind, .inl⟩
  · intro ind e es hbucket
    have hmem : e ∈ bucket size_keys (ks ++ [toVectorU64 row]) ind := hbucket ▸ List.mem_cons_self
    have hind := lt_of_mem_bucket h.pos hmem
    show writeEntry d size_keys b ks.length (toVectorU64 row) pre.length ind = e
    rw [hwords ind hind]
    rw [bucket_concat] at hbucket
    by_cases heq : hash size_keys (toVectorU64 row) = ind
    · rw [if_pos heq, ← heq] at hbucket
      rw [← heq]
      exact hhead e es hbucket
    · rw [if_neg heq, List.append_nil] at hbucket
      rw [hheads ind hind fun h' => heq h'.symm]
      exact hinv.head ind e es hbucket
  · intro ind
    rw [bucket_concat]
    by_cases heq : hash size_keys (toVectorU64 row) = ind
    · rw [if_pos heq, ← heq]
      refine hlink _ ?_ fun e he => hold e (mem_bucket.mp he).1 (d + 1) (by omega)
      show writeEntry d size_keys b ks.length _ _ (slot d size_keys ks.length (d + 1)) = 0
      rw [hnewcell (d + 1) (by omega), List.getD_append_right _ _ _ _ (by omega), hkeylen, Nat.add_sub_cancel_left]
      rfl
    · rw [if_neg heq, List.append_nil]
      refine (hinv.linked ind).congr fun e he => ?_
      obtain ⟨hlt, hhash⟩ := mem_bucket.mp he
      exact (hold e hlt (d + 1) (by omega)).trans
        (hlinks e hlt fun he' => heq ((mem_bucket.mp he').2.symm.trans hhash))

/-! ## All rows of the table -/

/-- One row. -/
theorem TableInv.step (hinv : TableInv d size_keys pre ks st) (h : Admitted d size_keys n)
    (hn : pre.length < n) {fuel : ℕ} (hfuel : pre.length ≤ fuel) (hlen : row.length = d) :
    ∃ st', insertRow d size_keys fuel st (row, pre.length) = some st' ∧
      ∃ ks', TableInv d size_keys (pre ++ [row]) ks' st' := by
  have hlt : ks.length < n := Nat.lt_of_le_of_lt hinv.le hn
  have hind : hash size_keys (toVectorU64 row) < size_keys := Nat.mod_lt _ h.pos
  unfold insertRow
  change ∃ st', (if st.touched (hash size_keys (toVectorU64 row)) = false then _ else _) = some st' ∧ _
  by_cases hkey : toVectorU64 row ∈ ks
  · obtain ⟨e, he, hget, hsearch⟩ := hinv.search_of_mem hfuel hkey
    rw [if_neg (by rw [hinv.touched_of_mem hkey]; exact nofun)]
    change ∃ st', (search d size_keys fuel st.buffer _ (hash size_keys (toVectorU64 row)) >>= _) = some st' ∧ _
    rw [hsearch]
    exact ⟨_, rfl, ks, hinv.update h (Nat.le_of_lt hlt) he hget⟩
  · by_cases hne : bucket size_keys ks (hash size_keys (toVectorU64 row)) = []
    · -- the first entry of its chain
      have huntouched : st.touched (hash size_keys (toVectorU64 row)) = false :=
        Bool.eq_false_iff.mpr fun h' => (hinv.touched _).mp h' hne
      rw [if_pos huntouched]
      refine ⟨_, rfl, _, hinv.concat h hlt hlen hkey ?_ ?_ ?_ ?_ ?_ ?_⟩
      · intro e he c hc
        exact Function.update_of_ne (slot_ne_head h (by omega) (by omega) hind) _ _
      · intro ind _ hne'
        exact Function.update_of_ne hne' _ _
      · intro e es hes
        rw [hne, List.nil_append] at hes
        injection hes with hes
        show Function.update st.buffer (hash size_keys (toVectorU64 row)) st.pos _ = e
        rw [Function.update_self, hinv.pos]
        exact hes
      · intro e he _
        exact Function.update_of_ne (slot_ne_head h (by omega) (by omega) hind) _ _
      · intro next hnext _
        rw [hne]
        exact hnext
      · intro ind
        show Function.update st.touched (hash size_keys (toVectorU64 row)) true ind = true ↔ _
        by_cases hind' : ind = hash size_keys (toVectorU64 row)
        · rw [hind', Function.update_self]
          exact ⟨fun _ => .inr rfl, fun _ => rfl⟩
        · rw [Function.update_of_ne hind']
          exact ⟨.inl, fun h' => h'.resolve_right hind'⟩
    · have htouched : st.touched (hash size_keys (toVectorU64 row)) = true := (hinv.touched _).mpr hne
      rw [if_neg (by rw [htouched]; exact nofun)]
      change ∃ st', (search d size_keys fuel st.buffer _ (hash size_keys (toVectorU64 row)) >>= _) = some st' ∧ _
      rw [hinv.search_of_not_mem hfuel hkey hne]
      obtain ⟨hlast, -⟩ := mem_bucket.mp (List.getLast_mem hne)
      refine ⟨_, rfl, _, hinv.concat h hlt hlen hkey ?_ ?_ ?_ ?_ ?_ ?_⟩
      · intro e he c hc
        refine Function.update_of_ne (fun heq => ?_) _ _
        have hc' := (slot_injective h (by omega) (by omega) (by omega) (by omega) heq).2
        omega
      · intro ind hind' _
        exact Function.update_of_ne (slot_ne_head h (by omega) (by omega) hind').symm _ _
      · intro e es hes
        rw [Function.update_of_ne (slot_ne_head h (by omega) (by omega) hind).symm]
        obtain ⟨x, xs, hx⟩ := List.exists_cons_of_ne_nil hne
        rw [hx, List.cons_append] at hes
        injection hes with hes
        rw [← hes]
        exact hinv.head _ x xs hx
      · intro e he hmem
        refine Function.update_of_ne (fun heq => hmem ?_) _ _
        rw [(slot_injective h (by omega) (by omega) (by omega) (by omega) heq).1]
        exact List.getLast_mem hne
      · intro next hnext hlink
        refine (hinv.linked _).concat hne (pairwise_bucket.imp Nat.ne_of_lt) hnext ?_ fun x hx hxne => ?_
        · rw [hlink _ (List.getLast_mem hne), Function.update_self, hinv.pos]
        · rw [hlink x hx]
          refine Function.update_of_ne (fun heq => hxne ?_) _ _
          have hxlt := (mem_bucket.mp hx).1
          exact (slot_injective h (by omega) (by omega) (by omega) (by omega) heq).1
      · intro ind
        refine ⟨.inl, fun h' => h'.elim (fun h'' => h'') fun h'' => ?_⟩
        rw [h'']
        exact htouched

end Row

variable {d size_keys fuel : ℕ} {t : List Row}

/-- The loop over the table does not depend on what was in the buffer. -/
theorem exists_tableInv (h : Admitted d size_keys t.length) (hfuel : t.length ≤ fuel)
    (ht : ∀ row ∈ t, IsRow d row) (buffer : ℕ → ℕ) :
    ∃ st, t.zipIdx.foldlM (insertRow d size_keys fuel) ⟨buffer, fun _ => false, 0⟩ = some st ∧
      ∃ ks, TableInv d size_keys t ks st := by
  refine foldlM_zipIdx_inv (J := fun pre st => ∃ ks, TableInv d size_keys pre ks st) ⟨[], ?_⟩ ?_
  · exact ⟨rfl, Nat.le_refl 0, List.nodup_nil, fun _ => Iff.rfl, nofun, nofun,
      fun _ => ⟨nofun, fun h' => absurd rfl h'⟩, nofun, fun _ => trivial⟩
  · rintro pre row hpre st ⟨ks, hinv⟩
    have hlen := hpre.length_le
    rw [List.length_append, List.length_singleton] at hlen
    refine hinv.step h hlen (by omega) (ht row (hpre.subset ?_))
    exact List.mem_append_right pre (List.mem_singleton_self row)

/-! ## Looking up a row -/

theorem toVectorU64_injective : Function.Injective toVectorU64 := List.map_injective_iff.mpr toU64_injective

/-- The lookup finds the index of the last occurrence. -/
theorem TableInv.looksUp {ks : List (List ℕ)} {st : HashTable} (hinv : TableInv d size_keys t ks st)
    (hfuel : t.length ≤ fuel) (row : Row) : LooksUp t (findRow d size_keys fuel st) row := by
  have hmem : toVectorU64 row ∈ ks ↔ row ∈ t := by
    rw [hinv.mem, List.mem_map_of_injective toVectorU64_injective]
  unfold LooksUp findRow
  change (if st.touched (hash size_keys (toVectorU64 row)) = false then _ else _) = _
  by_cases hrow : row ∈ t
  · have hkey := hmem.mpr hrow
    obtain ⟨e, he, hget, hsearch⟩ := hinv.search_of_mem hfuel hkey
    have hindex := hinv.index e he
    rw [hget, lastIndex_map toVectorU64_injective] at hindex
    rw [if_neg (by rw [hinv.touched_of_mem hkey]; exact nofun), hindex]
    change ((search d size_keys fuel st.buffer _ (hash size_keys (toVectorU64 row)) : Option _) >>= _ :
      ExceptT Row Option ℕ) = _
    rw [hsearch]
    rfl
  · have hkey : toVectorU64 row ∉ ks := fun h' => hrow (hmem.mp h')
    rw [lastIndex_eq_none.mpr hrow]
    by_cases hne : bucket size_keys ks (hash size_keys (toVectorU64 row)) = []
    · rw [if_pos (Bool.eq_false_iff.mpr fun h' => (hinv.touched _).mp h' hne)]
    · rw [if_neg (by rw [(hinv.touched _).mpr hne]; exact nofun)]
      change ((search d size_keys fuel st.buffer _ (hash size_keys (toVectorU64 row)) : Option _) >>= _ :
        ExceptT Row Option ℕ) = _
      rw [hinv.search_of_not_mem hfuel hkey hne]
      rfl

section Agree

variable {d size_keys fuel : ℕ} {t f : List Row}

/-! ## Sorting with a hash table -/

/-- The counters are far below the largest `int`. -/
theorem Admitted.counter_lt {n : ℕ} (h : Admitted d size_keys n) (hd : 0 < d) : n + 1 < 2 ^ 31 := by
  have hfits := h.fits
  have hle : 3 * n ≤ (d + 2) * n := Nat.mul_le_mul_right n (by omega)
  omega

theorem calculateH1H2_opt_sorts (hd : 0 < d) (ht : ∀ row ∈ t, IsRow d row) (hlen : f.length = t.length)
    (h : Admitted d size_keys t.length) (hfuel : t.length ≤ fuel) (buffer : ℕ → ℕ) :
    Sorts t f (calculateH1H2_opt d size_keys f t buffer fuel) := by
  obtain ⟨st, hst, ks, hinv⟩ := exists_tableInv h hfuel ht buffer
  have hsorts := countRows_sorts (f := f) (fun row _ => hinv.looksUp hfuel row) hlen
    (by rw [hlen]; exact h.counter_lt hd)
  unfold calculateH1H2_opt
  rw [hst]
  exact hsorts

/-! ## The keys of the prover -/

/-- `genProof` gives `8 * N` words to a pair of polynomials, and what the entries do not need is for the
keys. -/
def buffSizeThreadKeys (d N : ℕ) : ℕ := 8 * N - (d + 2) * N

theorem admitted_buffSizeThreadKeys (hd : d = 1 ∨ d = 3) {N : ℕ} (hpos : 0 < N) (hN : 8 * N ≤ 2 ^ 32) :
    Admitted d (buffSizeThreadKeys d N) N := by
  unfold buffSizeThreadKeys
  rcases hd with rfl | rfl
  · exact ⟨by omega, by omega⟩
  · exact ⟨by omega, by omega⟩

/-! ## All versions together -/

/-- The version with a hash table for a number of columns. -/
inductive Optimized : (d : ℕ) → (ℕ → List Row → List Row → (ℕ → ℕ) → ℕ → Sorter) → Prop
  | opt1 : Optimized 1 calculateH1H2_opt1
  | opt3 : Optimized 3 calculateH1H2_opt3

/-- Either all versions stop with the same row of `f`, which is not in the table, or there is no such row and
all return the same `h1` and `h2`.  Their rows in turn are those of `f` and of the table, in the order of
the table, where the rows of `f` stand behind their last occurrence. -/
theorem sorters_agree {opt : ℕ → List Row → List Row → (ℕ → ℕ) → ℕ → Sorter} (hopt : Optimized d opt)
    (ht : ∀ row ∈ t, IsRow d row) (hf : ∀ row ∈ f, IsRow d row) (hlen : f.length = t.length)
    (hkeys : Admitted d size_keys t.length) (buffer : ℕ → ℕ) (hfuel : t.length ≤ fuel) :
    (∃ row ∈ f, row ∉ t ∧ calculateH1H2 f t = throw row ∧ calculateH1H2_ f t = throw row ∧
      opt size_keys f t buffer fuel = throw row) ∨
    ((∀ row ∈ f, row ∈ t) ∧ ∃ h1 h2, calculateH1H2 f t = pure (h1, h2) ∧ calculateH1H2_ f t = pure (h1, h2) ∧
      opt size_keys f t buffer fuel = pure (h1, h2) ∧ h1.length = t.length ∧ h2.length = t.length ∧
      (interleave h1 h2).Perm (f ++ t) ∧ interleave h1 h2 = sorted t f) := by
  have hd : d = 1 ∨ d = 3 := by
    cases hopt with
    | opt1 => exact .inl rfl
    | opt3 => exact .inr rfl
  have heq : opt = calculateH1H2_opt d := by
    cases hopt with
    | opt1 => rfl
    | opt3 => rfl
  have hpos : 0 < d := by omega
  have hint : f.length + 1 < 2 ^ 31 := hlen ▸ hkeys.counter_lt hpos
  have hmaps := calculateH1H2_sorts hd ht hf hlen
  have hcounters := withCounters_sorts hd ht hf hlen hint
  have htable : Sorts t f (opt size_keys f t buffer fuel) := by
    rw [heq]
    exact calculateH1H2_opt_sorts hpos ht hlen hkeys hfuel buffer
  rw [hcounters.unique hmaps, htable.unique hmaps]
  unfold Sorts at hmaps
  cases hbad : notIncluded t f with
  | some row =>
    rw [hbad] at hmaps
    obtain ⟨hmem, hnot⟩ := exists_of_notIncluded hbad
    exact .inl ⟨row, hmem, hnot, hmaps, hmaps, hmaps⟩
  | none =>
    rw [hbad] at hmaps
    have hmem := notIncluded_eq_none.mp hbad
    obtain ⟨h1, h2, hresult, hlen1, hlen2, hrows⟩ := hmaps
    refine .inr ⟨hmem, h1, h2, hresult, hresult, hresult, hlen1, hlen2, ?_, hrows⟩
    rw [hrows]
    exact sorted_perm hmem

/-- A table with a repeated row, where two keys have the same hash. -/
theorem agree_repeated : ∃ h1 h2, calculateH1H2 [[1], [6], [6]] [[1], [6], [1]] = pure (h1, h2) ∧
    calculateH1H2_ [[1], [6], [6]] [[1], [6], [1]] = pure (h1, h2) ∧
    calculateH1H2_opt1 5 [[1], [6], [6]] [[1], [6], [1]] (fun a => a) 3 = pure (h1, h2) ∧
    interleave h1 h2 = [[1], [6], [6], [6], [1], [1]] := by
  have hrow : ∀ x y z : Fe, ∀ row ∈ ([[x], [y], [z]] : List Row), IsRow 1 row := by
    intro x y z row hrow
    simp only [List.mem_cons, List.not_mem_nil, or_false] at hrow
    rcases hrow with rfl | rfl | rfl <;> rfl
  have hkeys : Admitted 1 5 3 := ⟨by decide, by decide⟩
  rcases sorters_agree (f := [[1], [6], [6]]) .opt1 (hrow 1 6 1) (hrow 1 6 6) rfl hkeys (fun a => a)
    (Nat.le_refl 3) with
    ⟨row, hmem, hnot, -⟩ | ⟨-, h1, h2, hmaps, hcounters, htable, -, -, -, hrows⟩
  · refine absurd ?_ hnot
    simp only [List.mem_cons, List.not_mem_nil, or_false] at hmem ⊢
    rcases hmem with rfl | rfl | rfl
    · exact .inl rfl
    · exact .inr (.inl rfl)
    · exact .inr (.inl rfl)
  · refine ⟨h1, h2, hmaps, hcounters, htable, hrows.trans ?_⟩
    decide

end Agree

end ZkevmProver.Plookup
