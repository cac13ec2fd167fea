import ZkevmProver.StarkPil.PlookupMaps

/-!
# Sorting with a hash table in a buffer

The buffer has a word for every hash, with the first entry of its chain, and then the entries.  What it had
in it before is never read.

  1. Entries in the buffer.
  2. The table.
  3. Searching.
-/

namespace ZkevmProver.Plookup

open Fallible Loops HashChain RunLength

/-! ## Entries in the buffer -/

/-- A number of keys is admitted when there is one, and when the buffer for the keys and `n` entries is no
larger than what an offset of type `uint32_t` can reach. -/
structure Admitted (d size_keys n : ℕ) : Prop where
  pos : 0 < size_keys
  fits : size_keys + (d + 2) * n ≤ 2 ^ 32

section Slots

variable {d size_keys n e e' c c' : ℕ} (h : Admitted d size_keys n)

include h

theorem slot_eq (he : e < n) (hc : c < d + 2) : slot d size_keys e c = size_keys + (d + 2) * e + c := by
  have hle : (d + 2) * (e + 1) ≤ (d + 2) * n := Nat.mul_le_mul_left _ he
  have hfits := h.fits
  rw [Nat.mul_succ] at hle
  unfold slot
  rw [Nat.mod_eq_of_lt (show size_keys + (d + 2) * e < 2 ^ 32 by omega), Nat.mod_eq_of_lt (by omega)]

theorem slot_ne_head (he : e < n) (hc : c < d + 2) {ind : ℕ} (hind : ind < size_keys) :
    slot d size_keys e c ≠ ind := by
  rw [slot_eq h he hc]
  omega

theorem slot_injective (he : e < n) (he' : e' < n) (hc : c < d + 2) (hc' : c' < d + 2)
    (heq : slot d size_keys e c = slot d size_keys e' c') : e = e' ∧ c = c' := by
  rw [slot_eq h he hc, slot_eq h he' hc'] at heq
  have hdiv : ((d + 2) * e + c) / (d + 2) = ((d + 2) * e' + c') / (d + 2) := by
    congr 1
    omega
  rw [Nat.mul_add_div (by omega), Nat.mul_add_div (by omega), Nat.div_eq_of_lt hc, Nat.div_eq_of_lt hc',
    Nat.add_zero, Nat.add_zero] at hdiv
  subst hdiv
  exact ⟨rfl, by omega⟩

theorem writeEntry_slot (buffer : ℕ → ℕ) (he : e < n) (key : List ℕ) (i : ℕ) (hc : c < d + 2) :
    writeEntry d size_keys buffer e key i (slot d size_keys e c) = (key ++ [i, 0]).getD c 0 := by
  refine forUpTo_inv (n := d + 2) (J := fun m (b : ℕ → ℕ) => m ≤ d + 2 → ∀ c < m,
    b (slot d size_keys e c) = (key ++ [i, 0]).getD c 0) (fun _ c hc => absurd hc (Nat.not_lt_zero c)) ?_
    (Nat.le_refl _) c hc
  intro m hm b ih _ c hc
  rcases Nat.lt_succ_iff_lt_or_eq.mp hc with hlt | rfl
  · have hne : slot d size_keys e c ≠ slot d size_keys e m := fun heq =>
      absurd (slot_injective h he he (by omega) hm heq).2 (by omega)
    rw [Function.update_of_ne hne]
    exact ih (by omega) c hlt
  · rw [Function.update_self]

omit h in
theorem writeEntry_of_ne (buffer : ℕ → ℕ) (key : List ℕ) (i : ℕ) {a : ℕ}
    (ha : ∀ c < d + 2, a ≠ slot d size_keys e c) : writeEntry d size_keys buffer e key i a = buffer a := by
  refine forUpTo_inv (n := d + 2) (J := fun m (b : ℕ → ℕ) => m ≤ d + 2 → b a = buffer a) (fun _ => rfl) ?_
    (Nat.le_refl _)
  intro m hm b ih _
  rw [Function.update_of_ne (ha m hm)]
  exact ih (by omega)

theorem readKey_writeEntry (buffer : ℕ → ℕ) (he : e < n) {key : List ℕ} (hkey : key.length = d) (i : ℕ) :
    readKey d size_keys (writeEntry d size_keys buffer e key i) e = key := by
  unfold readKey
  refine List.ext_getElem (by rw [List.length_map, List.length_range, hkey]) fun c hc hc' => ?_
  rw [List.length_map, List.length_range] at hc
  rw [List.getElem_map, List.getElem_range, writeEntry_slot h buffer he key i (by omega),
    List.getD_append _ _ _ _ hc', List.getD_eq_getElem _ _ hc']

omit h in
theorem readKey_congr {buffer buffer' : ℕ → ℕ}
    (hbuffer : ∀ c < d, buffer' (slot d size_keys e c) = buffer (slot d size_keys e c)) :
    readKey d size_keys buffer' e = readKey d size_keys buffer e :=
  List.map_congr_left fun c hc => hbuffer c (List.mem_range.mp hc)

end Slots

/-! ## The table -/

/-- The hash of a key -/
def hash (size_keys : ℕ) (key : List ℕ) : ℕ := key.getD 0 0 % size_keys

/-- The entries with hash `ind`, where entry `e` has key `ks[e]`. -/
def bucket (size_keys : ℕ) (ks : List (List ℕ)) (ind : ℕ) : List ℕ :=
  (List.range ks.length).filter fun e => decide (hash size_keys (ks.getD e []) = ind)

section Buckets

variable {size_keys : ℕ} {ks : List (List ℕ)} {ind e : ℕ}

theorem mem_bucket : e ∈ bucket size_keys ks ind ↔ e < ks.length ∧ hash size_keys (ks.getD e []) = ind := by
  unfold bucket
  rw [List.mem_filter, List.mem_range, decide_eq_true_iff]

theorem lt_of_mem_bucket (hpos : 0 < size_keys) (he : e ∈ bucket size_keys ks ind) : ind < size_keys := by
  obtain ⟨-, rfl⟩ := mem_bucket.mp he
  exact Nat.mod_lt _ hpos

theorem bucket_concat (key : List ℕ) : bucket size_keys (ks ++ [key]) ind =
    bucket size_keys ks ind ++ if hash size_keys key = ind then [ks.length] else [] := by
  unfold bucket
  rw [List.length_append, List.length_singleton, List.range_succ, List.filter_append]
  congr 1
  · refine List.filter_congr fun e he => ?_
    rw [List.getD_append _ _ _ _ (List.mem_range.mp he)]
  · rw [List.filter_singleton, List.getD_append_right _ _ _ _ (Nat.le_refl _), Nat.sub_self, List.getD_cons_zero]
    by_cases hkey : hash size_keys key = ind
    · rw [if_pos hkey, decide_eq_true hkey]
      rfl
    · rw [if_neg hkey, decide_eq_false hkey]
      rfl

theorem pairwise_bucket : (bucket size_keys ks ind).Pairwise (· < ·) :=
  List.Pairwise.filter _ List.pairwise_lt_range

/-- Zero is no entry behind another one. -/
theorem ne_zero_of_bucket {es : List ℕ} (hbucket : bucket size_keys ks ind = e :: es) : ∀ y ∈ es, y ≠ 0 := by
  intro y hy
  have h : (bucket size_keys ks ind).Pairwise (· < ·) := pairwise_bucket
  rw [hbucket] at h
  exact Nat.ne_of_gt (Nat.zero_lt_of_lt ((List.pairwise_cons.mp h).1 y hy))

theorem length_bucket_le : (bucket size_keys ks ind).length ≤ ks.length := by
  unfold bucket
  exact (List.length_filter_le _ _).trans_eq List.length_range

end Buckets

/-- The table after the rows `pre`: entry `e` has key `ks[e]`. -/
structure TableInv (d size_keys : ℕ) (pre : List Row) (ks : List (List ℕ)) (st : HashTable) : Prop where
  pos : st.pos = ks.length
  le : ks.length ≤ pre.length
  nodup : ks.Nodup
  mem : ∀ key, key ∈ ks ↔ key ∈ pre.map toVectorU64
  key : ∀ e < ks.length, readKey d size_keys st.buffer e = ks.getD e []
  index : ∀ e < ks.length,
    lastIndex (pre.map toVectorU64) (ks.getD e []) = some (st.buffer (slot d size_keys e d))
  touched : ∀ ind, st.touched ind = true ↔ bucket size_keys ks ind ≠ []
  head : ∀ ind e es, bucket size_keys ks ind = e :: es → st.buffer ind = e
  linked : ∀ ind, Linked (fun e => st.buffer (slot d size_keys e (d + 1))) (bucket size_keys ks ind)

/-! ## Searching -/

section Searching

variable {d size_keys fuel : ℕ} {pre : List Row} {ks : List (List ℕ)} {st : HashTable} {key : List ℕ}

theorem TableInv.touched_of_mem (hinv : TableInv d size_keys pre ks st) (hkey : key ∈ ks) :
    st.touched (hash size_keys key) = true := by
  obtain ⟨e, he, hget⟩ := List.getElem_of_mem hkey
  refine (hinv.touched _).mpr (List.ne_nil_of_mem (mem_bucket.mpr ⟨he, ?_⟩))
  rw [List.getD_eq_getElem _ _ he, hget]

theorem TableInv.getD_injective (hinv : TableInv d size_keys pre ks st) {e e' : ℕ} (he : e < ks.length)
    (he' : e' < ks.length) (h : ks.getD e [] = ks.getD e' []) : e = e' := by
  rw [List.getD_eq_getElem _ _ he, List.getD_eq_getElem _ _ he'] at h
  exact hinv.nodup.getElem_inj_iff.mp h

/-- A search finds the entry with the key. -/
theorem TableInv.search_of_mem (hinv : TableInv d size_keys pre ks st) (hfuel : pre.length ≤ fuel)
    (hkey : key ∈ ks) :
    ∃ e < ks.length, ks.getD e [] = key ∧
      search d size_keys fuel st.buffer key (hash size_keys key) = some (true, e) := by
  obtain ⟨x, hx, hget⟩ := List.getElem_of_mem hkey
  have hgetD : ks.getD x [] = key := by rw [List.getD_eq_getElem _ _ hx, hget]
  have hmem : x ∈ bucket size_keys ks (hash size_keys key) := mem_bucket.mpr ⟨hx, by rw [hgetD]⟩
  refine ⟨x, hx, hgetD, ?_⟩
  cases hbucket : bucket size_keys ks (hash size_keys key) with
  | nil =>
    rw [hbucket] at hmem
    exact absurd hmem List.not_mem_nil
  | cons e es =>
    have hlinked := hinv.linked (hash size_keys key)
    have hlength : (e :: es).length ≤ ks.length := hbucket ▸ length_bucket_le
    have hle := hinv.le
    rw [hbucket] at hlinked hmem
    rw [List.length_cons] at hlength
    unfold search
    rw [hinv.head _ e es hbucket]
    refine walk_found hlinked (ne_zero_of_bucket hbucket) (by omega) hmem fun y hy => ?_
    have hy : y < ks.length := (mem_bucket.mp (hbucket ▸ hy)).1
    rw [decide_eq_true_iff, hinv.key y hy, ← hgetD]
    exact ⟨fun h => hinv.getD_injective hy hx h, fun h => by rw [h]⟩

/-- Otherwise it ends with the last entry of the chain. -/
theorem TableInv.search_of_not_mem (hinv : TableInv d size_keys pre ks st) (hfuel : pre.length ≤ fuel)
    (hkey : key ∉ ks) (hne : bucket size_keys ks (hash size_keys key) ≠ []) :
    search d size_keys fuel st.buffer key (hash size_keys key) =
      some (false, (bucket size_keys ks (hash size_keys key)).getLast hne) := by
  have hlinked := hinv.linked (hash size_keys key)
  have hlength : (bucket size_keys ks (hash size_keys key)).length ≤ ks.length := length_bucket_le
  have hhead := hinv.head (hash size_keys key)
  have hpos : ∀ e es, bucket size_keys ks (hash size_keys key) = e :: es → ∀ y ∈ es, y ≠ 0 :=
    fun _ _ => ne_zero_of_bucket
  have hentries : ∀ y ∈ bucket size_keys ks (hash size_keys key), y < ks.length :=
    fun y hy => (mem_bucket.mp hy).1
  have hle := hinv.le
  generalize bucket size_keys ks (hash size_keys key) = es at hne hlinked hlength hhead hpos hentries
  cases es with
  | nil => exact absurd rfl hne
  | cons e es =>
    rw [List.length_cons] at hlength
    unfold search
    rw [hhead e es rfl]
    refine walk_not_found hlinked (hpos e es rfl) (by omega) fun y hy => ?_
    have hy := hentries y hy
    refine decide_eq_false fun heq => hkey ?_
    rw [hinv.key y hy] at heq
    rw [← heq, List.getD_eq_getElem _ _ hy]
    exact List.getElem_mem hy

end Searching

end ZkevmProver.Plookup
