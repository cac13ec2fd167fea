import Mathlib.Order.Bounds.Basic
import ZkevmProver.HashDB.AssociativeCacheRuns

/-!
# When the associative cache exits

A key without an empty entry takes the entry with the smallest number, and the number that was there is
given an entry of its own key in the same way.  This walk from key to key is a matter of the cache
before it: the entries that it has changed hold numbers that it has visited.

  1. The walk.
  2. What `findVictim` finds.
  3. `forcedInsertion` and the walk.
  4. Runs.
-/

namespace ZkevmProver

namespace AssociativeCache

open RingWindow

/-! ## The walk -/

namespace Cache

/-- The numbers in the entries of the key that has number `raw`. -/
def entries (c : Cache) (raw : ℕ) : List ℕ :=
  (readBlock c.keys ((raw &&& c.cacheMask) * 4) 4).map fun fe => c.indexes (c.tableIndex fe)

/-- The numbers that the key of `raw` can displace. -/
def candidates (c : Cache) (visited : List ℕ) (raw : ℕ) : Set ℕ :=
  {m | m ∈ c.entries raw ∧ m ∉ visited ∧ m < UINT32_MAX}

/-- From number `raw`, always to the smallest number of the key that has not been visited, a key with an
empty entry is among the first `n`. -/
inductive Settles (c : Cache) : ℕ → ℕ → List ℕ → Prop
  | empty {n raw m : ℕ} {visited : List ℕ} (hm : m ∈ c.entries raw)
      (hempty : c.emptyCacheSlot m = true) : Settles c (n + 1) raw visited
  | displace {n raw m : ℕ} {visited : List ℕ} (hm : IsLeast (c.candidates (raw :: visited) raw) m)
      (h : Settles c n m (raw :: visited)) : Settles c (n + 1) raw visited

/-- No entry of the key is empty, and none has the key. -/
def Full (c : Cache) (key : CacheKey) : Prop :=
  ∀ fe ∈ key.toList, c.emptyCacheSlot (c.indexes (c.tableIndex fe)) = false ∧
    readBlock c.keys ((c.indexes (c.tableIndex fe) &&& c.cacheMask) * 4) 4 ≠ key.toList

/-- The cache with the key in the next slot. -/
def written (c : Cache) (key : CacheKey) : Cache :=
  { c.advance with
    keys := writeBlock c.keys ((c.currentCacheIndex &&& c.cacheMask) * 4) key.toList }

/-- The value can be stored in slot `cacheIndex`: the arrays are written within their bounds. -/
def Stores (c : Cache) (cacheIndex : ℕ) (value : List Fe) : Prop :=
  storedValue value ≠ none ∧ u32 (cacheIndex * 4) + 4 ≤ c.keysLength ∧
    u32 (cacheIndex * 12) + 12 ≤ c.valuesLength

/-- A key that is stored while its entries are taken starts a walk that finds an empty entry. -/
def CanAdd (c : Cache) (key : CacheKey) (value : List Fe) : Prop :=
  c.Full key → c.Stores (c.currentCacheIndex &&& c.cacheMask) value →
    (c.written key).Settles 9 c.currentCacheIndex []

/-! ## What `findVictim` finds -/

variable {c : Cache} {used fes : List ℕ}

theorem findVictim_empty (h : ∃ fe ∈ fes, c.emptyCacheSlot (c.indexes (c.tableIndex fe)) = true)
    (best : Option (ℕ × ℕ)) : ∃ t, c.findVictim used fes best = .empty t := by
  induction fes generalizing best with
  | nil =>
    obtain ⟨fe, hfe, -⟩ := h
    exact absurd hfe List.not_mem_nil
  | cons fe fes ih =>
    unfold findVictim
    dsimp only
    by_cases hfe : c.emptyCacheSlot (c.indexes (c.tableIndex fe)) = true
    · rw [if_pos hfe]
      exact ⟨_, rfl⟩
    · rw [if_neg hfe]
      obtain ⟨fe', hfe', hempty⟩ := h
      rcases List.mem_cons.mp hfe' with rfl | hfe'
      · exact absurd hempty hfe
      · split
        · exact ih ⟨fe', hfe', hempty⟩ _
        · exact ih ⟨fe', hfe', hempty⟩ _

/-- Without an empty entry it finds the smallest number below what it has. -/
theorem findVictim_displace
    (h : ∀ fe ∈ fes, c.emptyCacheSlot (c.indexes (c.tableIndex fe)) = false)
    (best : Option (ℕ × ℕ)) : ∃ best', c.findVictim used fes best = .displace best' ∧
      ((best' = best ∧ ∀ fe ∈ fes, c.indexes (c.tableIndex fe) ∉ used →
          (best.map Prod.fst).getD UINT32_MAX ≤ c.indexes (c.tableIndex fe)) ∨
        ∃ fe ∈ fes, best' = some (c.indexes (c.tableIndex fe), c.tableIndex fe) ∧
          c.indexes (c.tableIndex fe) ∉ used ∧
          c.indexes (c.tableIndex fe) < (best.map Prod.fst).getD UINT32_MAX ∧
          ∀ fe' ∈ fes, c.indexes (c.tableIndex fe') ∉ used →
            c.indexes (c.tableIndex fe) ≤ c.indexes (c.tableIndex fe')) := by
  induction fes generalizing best with
  | nil => exact ⟨best, rfl, .inl ⟨rfl, fun fe hfe => absurd hfe List.not_mem_nil⟩⟩
  | cons fe fes ih =>
    have hrest : ∀ fe' ∈ fes, c.emptyCacheSlot (c.indexes (c.tableIndex fe')) = false :=
      fun fe' hfe' => h fe' (List.mem_cons_of_mem _ hfe')
    have hhead : ¬c.emptyCacheSlot (c.indexes (c.tableIndex fe)) = true := by
      rw [h fe (List.mem_cons_self ..)]
      exact Bool.false_ne_true
    unfold findVictim
    dsimp only
    rw [if_neg hhead]
    by_cases hless : c.indexes (c.tableIndex fe) ∉ used ∧
        c.indexes (c.tableIndex fe) < (best.map Prod.fst).getD UINT32_MAX
    · rw [if_pos hless]
      obtain ⟨best', hvictim, ⟨rfl, hle⟩ | ⟨fe', hfe', hbest, hused, hlt, hle⟩⟩ :=
        ih hrest (some (c.indexes (c.tableIndex fe), c.tableIndex fe))
      · refine ⟨_, hvictim, .inr ⟨fe, List.mem_cons_self .., rfl, hless.1, hless.2, fun fe' hfe' hused => ?_⟩⟩
        rcases List.mem_cons.mp hfe' with rfl | hfe'
        · exact le_rfl
        · exact hle fe' hfe' hused
      · have hlt : c.indexes (c.tableIndex fe') < c.indexes (c.tableIndex fe) := hlt
        refine ⟨best', hvictim, .inr ⟨fe', List.mem_cons_of_mem _ hfe', hbest, hused,
          hlt.trans hless.2, fun fe'' hfe'' hused'' => ?_⟩⟩
        rcases List.mem_cons.mp hfe'' with rfl | hfe''
        · exact hlt.le
        · exact hle fe'' hfe'' hused''
    · rw [if_neg hless]
      have hhead' (hused : c.indexes (c.tableIndex fe) ∉ used) :
          (best.map Prod.fst).getD UINT32_MAX ≤ c.indexes (c.tableIndex fe) :=
        Nat.le_of_not_lt fun hlt => hless ⟨hused, hlt⟩
      obtain ⟨best', hvictim, ⟨rfl, hle⟩ | ⟨fe', hfe', hbest, hused, hlt, hle⟩⟩ := ih hrest best
      · refine ⟨_, hvictim, .inl ⟨rfl, fun fe' hfe' hused => ?_⟩⟩
        rcases List.mem_cons.mp hfe' with rfl | hfe'
        · exact hhead' hused
        · exact hle fe' hfe' hused
      · refine ⟨best', hvictim, .inr ⟨fe', List.mem_cons_of_mem _ hfe', hbest, hused, hlt,
          fun fe'' hfe'' hused'' => ?_⟩⟩
        rcases List.mem_cons.mp hfe'' with rfl | hfe''
        · exact hlt.le.trans (hhead' hused'')
        · exact hle fe'' hfe'' hused''

/-! ## `forcedInsertion` and the walk -/

/-- Entries that were changed on a walk. -/
def Moved (c : Cache) (indexes : ℕ → ℕ) (visited : List ℕ) : Prop :=
  ∀ t, indexes t = c.indexes t ∨ (indexes t ∈ visited ∧ c.indexes t ∈ visited ∧
    c.emptyCacheSlot (indexes t) = false ∧ c.emptyCacheSlot (c.indexes t) = false)

/-- The cells of every key are in the array. -/
def KeysFit (c : Cache) : Prop := ∀ raw, (raw &&& c.cacheMask) * 4 + 4 ≤ c.keysLength

section Unfold

variable {n raw : ℕ} {visited : List ℕ} (hfit : (raw &&& c.cacheMask) * 4 + 4 ≤ c.keysLength)
include hfit

theorem forcedInsertion_empty {t : ℕ} (h : c.findVictim (raw :: visited)
    (readBlock c.keys ((raw &&& c.cacheMask) * 4) 4) none = .empty t) :
    c.forcedInsertion (n + 1) raw visited = .ok (c.setIndex t raw) := by
  unfold forcedInsertion
  dsimp only
  rw [if_neg (Nat.not_lt.mpr hfit), h]

theorem forcedInsertion_none (h : c.findVictim (raw :: visited)
    (readBlock c.keys ((raw &&& c.cacheMask) * 4) 4) none = .displace none) :
    c.forcedInsertion (n + 1) raw visited = .error .exitProcess := by
  unfold forcedInsertion
  dsimp only
  rw [if_neg (Nat.not_lt.mpr hfit), h]

theorem forcedInsertion_some {m t : ℕ} (h : c.findVictim (raw :: visited)
    (readBlock c.keys ((raw &&& c.cacheMask) * 4) 4) none = .displace (some (m, t))) :
    c.forcedInsertion (n + 1) raw visited =
      (c.setIndex t raw).forcedInsertion n m (raw :: visited) := by
  rw [forcedInsertion, if_neg (Nat.not_lt.mpr hfit), h]

end Unfold

/-- A walk succeeds if and only if it settles, whatever has been changed on it so far. -/
theorem forcedInsertion_iff (hkeys : c.KeysFit) (n : ℕ) : ∀ {indexes : ℕ → ℕ} {values : ℕ → Fe}
    {raw : ℕ} {visited : List ℕ}, c.Moved indexes (raw :: visited) → c.emptyCacheSlot raw = false →
      (forcedInsertion { c with indexes := indexes, values := values } n raw visited ≠
        .error .exitProcess ↔ c.Settles n raw visited) := by
  induction n with
  | zero =>
    intro indexes values raw visited _ _
    exact iff_of_false (fun h => h rfl) nofun
  | succ n ih =>
    intro indexes values raw visited hmoved hraw
    generalize hfes : readBlock c.keys ((raw &&& c.cacheMask) * 4) 4 = fes
    have hentries {fe : ℕ} (hfe : fe ∈ fes) : c.indexes (c.tableIndex fe) ∈ c.entries raw :=
      List.mem_map_of_mem (hfes ▸ hfe)
    have hsame (t : ℕ) : c.emptyCacheSlot (indexes t) = c.emptyCacheSlot (c.indexes t) := by
      rcases hmoved t with h | ⟨-, -, h, h'⟩
      · rw [h]
      · rw [h, h']
    by_cases hex : ∃ fe ∈ fes, c.emptyCacheSlot (indexes (c.tableIndex fe)) = true
    · obtain ⟨t, ht⟩ : ∃ t, findVictim { c with indexes := indexes, values := values } (raw :: visited) fes
          none = .empty t := findVictim_empty hex none
      rw [← hfes] at ht
      rw [forcedInsertion_empty (c := { c with indexes := indexes, values := values }) (hkeys raw)
         ht]
      obtain ⟨fe, hfe, hempty⟩ := hex
      exact iff_of_true nofun (.empty (hentries hfe) ((hsame _).symm.trans hempty))
    · have hno : ∀ fe ∈ fes, c.emptyCacheSlot (indexes (c.tableIndex fe)) = false := fun fe hfe =>
        Bool.eq_false_iff.mpr fun hempty => hex ⟨fe, hfe, hempty⟩
      have hmem {m : ℕ} (hm : m ∈ c.entries raw) :
          ∃ fe ∈ fes, c.indexes (c.tableIndex fe) = m := by
        rw [entries, hfes] at hm
        exact List.mem_map.mp hm
      have hnot {m : ℕ} (hm : m ∈ c.entries raw) : ¬c.emptyCacheSlot m = true := by
        obtain ⟨fe, hfe, rfl⟩ := hmem hm
        rw [← hsame, hno fe hfe]
        exact Bool.false_ne_true
      obtain ⟨best, hvictim, hbest⟩ := @findVictim_displace
        { c with indexes := indexes, values := values } (raw :: visited) fes hno none
      rw [← hfes] at hvictim
      rcases hbest with ⟨rfl, hle⟩ | ⟨fe, hfe, rfl, hused, hlt, hle⟩
      · rw [forcedInsertion_none (c := { c with indexes := indexes, values := values }) (hkeys raw)
           hvictim]
        refine iff_of_false (fun h => h rfl) fun hsettles => ?_
        cases hsettles with
        | empty hm hempty => exact hnot hm hempty
        | displace hm _ =>
          obtain ⟨hmem', hused, hlt⟩ := hm.1
          obtain ⟨fe, hfe, rfl⟩ := hmem hmem'
          have heq := (hmoved (c.tableIndex fe)).resolve_right fun h => hused h.2.1
          have hmax : UINT32_MAX ≤ indexes (c.tableIndex fe) := hle fe hfe fun h => hused (heq ▸ h)
          rw [heq] at hmax
          exact absurd hlt (Nat.not_lt.mpr hmax)
      · have heq : indexes (c.tableIndex fe) = c.indexes (c.tableIndex fe) :=
          (hmoved (c.tableIndex fe)).resolve_right fun h => hused h.1
        have hleast : IsLeast (c.candidates (raw :: visited) raw) (indexes (c.tableIndex fe)) := by
          refine ⟨⟨heq ▸ hentries hfe, hused, hlt⟩, ?_⟩
          rintro m ⟨hm, hused', -⟩
          obtain ⟨fe', hfe', rfl⟩ := hmem hm
          have heq' := (hmoved (c.tableIndex fe')).resolve_right fun h => hused' h.2.1
          rw [← heq']
          exact hle fe' hfe' fun h => hused' (heq' ▸ h)
        have hmoved' : c.Moved (Function.update indexes (c.tableIndex fe) raw)
            (indexes (c.tableIndex fe) :: raw :: visited) := by
          intro t
          by_cases ht : t = c.tableIndex fe
          · subst ht
            rw [Function.update_self]
            refine .inr ⟨by simp, heq ▸ List.mem_cons_self .., hraw, ?_⟩
            rw [← heq]
            exact hno fe hfe
          · rw [Function.update_of_ne ht]
            rcases hmoved t with h | ⟨h, h', hrest⟩
            · exact .inl h
            · exact .inr ⟨List.mem_cons_of_mem _ h, List.mem_cons_of_mem _ h', hrest⟩
        rw [forcedInsertion_some (c := { c with indexes := indexes, values := values }) (hkeys raw)
         hvictim]
        refine (@ih _ values _ _ hmoved' (hno fe hfe)).trans ⟨.displace hleast, fun hsettles => ?_⟩
        cases hsettles with
        | empty hm hempty => exact absurd hempty (hnot hm)
        | displace hm h =>
          rw [hleast.unique hm]
          exact h

/-! ## Runs -/

/-- What every cache in a run is like. -/
structure Counted (c : Cache) : Prop where
  size : ∃ k < 32, c.cacheSize = 2 ^ k
  current : c.currentCacheIndex < 2 ^ 32

theorem Counted.keysFit (h : c.Counted) (hlen : 4 ≤ c.keysLength) : c.KeysFit := by
  intro raw
  obtain ⟨k, hk, hsize⟩ := h.size
  rw [cacheMask, hsize, Nat.and_two_pow_sub_one_eq_mod]
  have hlt : raw % 2 ^ k < 2 ^ k := Nat.mod_lt raw (Nat.two_pow_pos k)
  unfold keysLength u32 at hlen ⊢
  rw [hsize] at hlen ⊢
  have hk' : k ≤ 29 := by
    refine Nat.le_of_not_lt fun h => ?_
    obtain rfl | rfl : k = 30 ∨ k = 31 := by omega
    · exact absurd hlen (by decide)
    · exact absurd hlen (by decide)
  have hpow : 2 ^ k ≤ 2 ^ 29 := Nat.pow_le_pow_right (by decide) hk'
  omega

theorem u32_of_fit {s : ℕ} (h : s * 4 + 4 ≤ c.keysLength) : u32 (s * 4) = s * 4 := by
  have hlt : c.keysLength < 2 ^ 32 := Nat.mod_lt _ (by decide)
  exact Nat.mod_eq_of_lt (by omega)

theorem keyAt_of_fit {s : ℕ} (h : s * 4 + 4 ≤ c.keysLength) :
    c.keyAt s = .ok (readBlock c.keys (s * 4) 4) := by
  unfold keyAt
  dsimp only
  rw [u32_of_fit h, if_pos h]

variable {key : CacheKey} {value : List Fe}

theorem keyAt_ne_exit (s : ℕ) : c.keyAt s ≠ .error .exitProcess := by
  unfold keyAt
  dsimp only
  split
  · exact nofun
  · exact nofun

theorem scan_ne_exit (empty : Option ℕ) : c.scan key fes empty ≠ .error .exitProcess := by
  induction fes generalizing empty with
  | nil => simp [scan]
  | cons fe fes ih =>
    unfold scan
    dsimp only
    split
    · exact ih _
    · rcases hkey : c.keyAt (c.indexes (c.tableIndex fe) &&& c.cacheMask) with e | found
      · intro h
        have he : e = .exitProcess := Except.error.inj h
        exact keyAt_ne_exit _ (he ▸ hkey)
      · show (if found = key.toList then _ else _) ≠ _
        split
        · intro h
          cases h
        · exact ih _

theorem scan_some_ne (t : ℕ) : c.scan key fes (some t) ≠ .ok (.absent none) := by
  induction fes with
  | nil => simp [scan]
  | cons fe fes ih =>
    unfold scan
    dsimp only
    split
    · exact ih
    · rcases c.keyAt (c.indexes (c.tableIndex fe) &&& c.cacheMask) with e | found
      · intro h
        cases h
      · show (if found = key.toList then _ else _) ≠ _
        split
        · intro h
          cases h
        · exact ih

/-- The scan finds neither the key nor an empty entry. -/
theorem scan_none_iff (hkeys : c.KeysFit) : c.scan key fes none = .ok (.absent none) ↔
    ∀ fe ∈ fes, c.emptyCacheSlot (c.indexes (c.tableIndex fe)) = false ∧
      readBlock c.keys ((c.indexes (c.tableIndex fe) &&& c.cacheMask) * 4) 4 ≠ key.toList := by
  induction fes with
  | nil => exact iff_of_true rfl fun fe hfe => absurd hfe List.not_mem_nil
  | cons fe fes ih =>
    rw [List.forall_mem_cons, ← ih, scan]
    by_cases hempty : c.emptyCacheSlot (c.indexes (c.tableIndex fe)) = true
    · rw [if_pos hempty, hempty]
      exact iff_of_false (scan_some_ne _) fun h => Bool.noConfusion h.1.1
    · rw [if_neg hempty, keyAt_of_fit (hkeys _)]
      show (if _ = key.toList then _ else _) = _ ↔ _
      by_cases hkey : readBlock c.keys ((c.indexes (c.tableIndex fe) &&& c.cacheMask) * 4) 4 =
          key.toList
      · rw [if_pos hkey]
        exact iff_of_false nofun fun h => h.1.2 hkey
      · rw [if_neg hkey]
        exact ⟨fun h => ⟨⟨Bool.eq_false_iff.mpr hempty, hkey⟩, h⟩, fun h => h.2⟩

theorem store_of_stores {s : ℕ} (h : c.Stores s value) : ∃ values, c.store s key value =
    .ok { c with keys := writeBlock c.keys (u32 (s * 4)) key.toList, values := values } := by
  obtain ⟨hvalue, hbounds⟩ := h
  obtain ⟨elements, helements⟩ := Option.ne_none_iff_exists'.mp hvalue
  unfold store
  dsimp only
  rw [helements]
  dsimp only
  rw [if_pos hbounds]
  exact ⟨_, rfl⟩

theorem store_ne_exit (s : ℕ) : c.store s key value ≠ .error .exitProcess := by
  unfold store
  dsimp only
  split
  · exact nofun
  · split
    · exact nofun
    · exact nofun

theorem store_of_not_stores {s : ℕ} (h : ¬c.Stores s value) (c' : Cache) :
    c.store s key value ≠ .ok c' := by
  unfold store
  dsimp only
  split
  · exact nofun
  · next elements helements =>
    rw [if_neg fun hbounds => h ⟨by rw [helements]; exact nofun, hbounds⟩]
    exact nofun

/-- The number of the key that has just been written counts as taken. -/
theorem written_not_empty (h : c.Counted) :
    (c.written key).emptyCacheSlot c.currentCacheIndex = false := by
  obtain ⟨k, -, hsize⟩ := h.size
  have hpos : 0 < c.cacheSize := hsize ▸ Nat.two_pow_pos k
  have hlt := h.current
  refine Bool.eq_false_iff.mpr fun hempty => ?_
  have hempty := of_decide_eq_true hempty
  unfold written advance UINT32_MAX at hempty
  dsimp only at hempty
  split at hempty
  · omega
  · omega

theorem advance_pred (h : c.currentCacheIndex < 2 ^ 32) :
    u32 (c.advance.currentCacheIndex + 2 ^ 32 - 1) = c.currentCacheIndex := by
  unfold advance u32 UINT32_MAX
  dsimp only
  split
  · omega
  · omega

theorem addKeyValue_absent (update : Bool) {c₂ : Cache}
    (hscan : c.scan key key.toList none = .ok (.absent none))
    (hstore : c.advance.store (u32 (c.currentCacheIndex &&& c.cacheMask)) key value = .ok c₂) :
    c.addKeyValue key value update =
      c₂.forcedInsertion 9 (u32 (c₂.currentCacheIndex + 2 ^ 32 - 1)) [] := by
  simp only [addKeyValue, hscan, bind, Except.bind, hstore]

theorem addKeyValue_iff (h : c.Counted) (update : Bool) :
    c.addKeyValue key value update ≠ .error .exitProcess ↔ c.CanAdd key value := by
  have hslot : u32 (c.currentCacheIndex &&& c.cacheMask) = c.currentCacheIndex &&& c.cacheMask :=
    Nat.mod_eq_of_lt (Nat.and_le_left.trans_lt h.current)
  by_cases hstart : c.Full key ∧ c.Stores (c.currentCacheIndex &&& c.cacheMask) value
  · obtain ⟨hfull, hstores⟩ := hstart
    have hkeys : c.KeysFit := h.keysFit (by have := hstores.2.1; omega)
    obtain ⟨values, hstore⟩ : ∃ values, c.advance.store (c.currentCacheIndex &&& c.cacheMask) key value = .ok
        { c.advance with
          keys := writeBlock c.keys (u32 ((c.currentCacheIndex &&& c.cacheMask) * 4)) key.toList
          values := values } := store_of_stores hstores
    have hkey : u32 ((c.currentCacheIndex &&& c.cacheMask) * 4) =
      (c.currentCacheIndex &&& c.cacheMask) * 4 := u32_of_fit (hkeys _)
    rw [hkey] at hstore
    have hadd : c.addKeyValue key value update = forcedInsertion { c.written key with values := values }
        9 c.currentCacheIndex [] := by
      have hcurrent := advance_pred h.current
      rw [addKeyValue_absent update ((scan_none_iff hkeys).mpr hfull) (by rw [hslot]; exact hstore),
        hcurrent]
      rfl
    rw [hadd]
    refine (@forcedInsertion_iff (c.written key) hkeys 9 (c.written key).indexes values _ _
      (fun t => .inl rfl) (written_not_empty h)).trans ?_
    exact ⟨fun hsettles _ _ => hsettles, fun hcan => hcan hfull hstores⟩
  · refine iff_of_true ?_ fun hfull hstores => absurd ⟨hfull, hstores⟩ hstart
    unfold addKeyValue
    rcases hscan : c.scan key key.toList none with e | found
    · intro he
      have he : e = .exitProcess := Except.error.inj he
      exact scan_ne_exit none (he ▸ hscan)
    · rcases found with s | empty
      · show (if update = true then c.store s key value else .ok c) ≠ _
        split
        · exact store_ne_exit s
        · exact nofun
      · rcases empty with _ | t
        · show (c.advance.store (u32 (c.currentCacheIndex &&& c.cacheMask)) key value >>= _) ≠ _
          rw [hslot]
          rcases hstore : c.advance.store (c.currentCacheIndex &&& c.cacheMask) key value with e | c₂
          · intro he
            have he : e = .exitProcess := Except.error.inj he
            exact store_ne_exit _ (he ▸ hstore)
          · have hstores : c.Stores (c.currentCacheIndex &&& c.cacheMask) value := by
              by_contra hno
              exact store_of_not_stores (c := c.advance) hno c₂ hstore
            have hkeys : c.KeysFit := h.keysFit (by have := hstores.2.1; omega)
            exact absurd ⟨(scan_none_iff hkeys).mp hscan, hstores⟩ hstart
        · show ((c.setIndex t c.currentCacheIndex).advance.store
            (u32 (c.currentCacheIndex &&& c.cacheMask)) key value >>= fun c₂ => .ok c₂) ≠ _
          rcases hstore : (c.setIndex t c.currentCacheIndex).advance.store
            (u32 (c.currentCacheIndex &&& c.cacheMask)) key value with e | c₂
          · intro he
            have he : e = .exitProcess := Except.error.inj he
            exact store_ne_exit _ (he ▸ hstore)
          · exact nofun

theorem advance_lt (h : c.currentCacheIndex < 2 ^ 32) : c.advance.currentCacheIndex < 2 ^ 32 := by
  unfold advance UINT32_MAX
  dsimp only
  split
  · exact Nat.two_pow_pos 32
  · omega

theorem Counted.addKeyValue (h : c.Counted) {update : Bool} {c' : Cache}
    (hadd : c.addKeyValue key value update = .ok c') : c'.Counted := by
  refine ⟨addKeyValue_cacheSize hadd ▸ h.size, ?_⟩
  obtain ⟨found, -, hadd⟩ := bind_eq_ok hadd
  cases found with
  | present s =>
    cases update with
    | false =>
      obtain rfl := Except.ok.inj hadd
      exact h.current
    | true => exact (store_frame hadd).2 ▸ h.current
  | absent empty =>
    obtain ⟨c₂, hstore, hadd⟩ := bind_eq_ok hadd
    have hcurrent := (store_frame hstore).2
    cases empty with
    | some t =>
      obtain rfl := Except.ok.inj hadd
      rw [hcurrent]
      exact advance_lt (c := c.setIndex t c.currentCacheIndex) h.current
    | none =>
      rw [(forcedInsertion_frame 9 hadd).2, hcurrent]
      exact advance_lt h.current

theorem Counted.call (h : c.Counted) {call : Call} {c' : Cache} (hcall : c.call call = .ok c') :
    c'.Counted := by
  cases call with
  | addKeyValue key value update => exact h.addKeyValue hcall
  | findKey key =>
    change (c.findKey key).map (fun _ => c) = .ok c' at hcall
    rcases hfind : c.findKey key with e | found
    · rw [hfind] at hcall
      exact nomatch hcall
    · rw [hfind] at hcall
      obtain rfl := Except.ok.inj hcall
      exact h

theorem Counted.calls (h : c.Counted) {calls : List Call} : ∀ {c' : Cache},
    c.calls calls = .ok c' → c'.Counted := by
  induction calls with
  | nil =>
    intro c' hcalls
    obtain rfl := Except.ok.inj hcalls
    exact h
  | cons call before ih =>
    intro c' hcalls
    obtain ⟨c₁, hbefore, hcall⟩ := bind_eq_ok hcalls
    exact (ih hbefore).call hcall

theorem findKey_ne_exit : c.call (.findKey key) ≠ .error .exitProcess := by
  show (c.findKey key).map (fun _ => c) ≠ _
  unfold findKey
  rcases hscan : c.scan key key.toList none with e | found
  · intro he
    have he : e = .exitProcess := Except.error.inj he
    exact scan_ne_exit none (he ▸ hscan)
  · cases found with
    | present s =>
      show Except.map _ (if _ then _ else _) ≠ _
      split
      · exact nofun
      · exact nofun
    | absent empty => exact nofun

/-- What a call has to meet. -/
def CallOk (c : Cache) : Call → Prop
  | .addKeyValue key value _ => c.CanAdd key value
  | .findKey _ => True

theorem call_iff (h : c.Counted) (call : Call) : c.call call ≠ .error .exitProcess ↔ c.CallOk call := by
  cases call with
  | addKeyValue key value update => exact addKeyValue_iff h update
  | findKey key => exact iff_of_true findKey_ne_exit trivial

theorem counted_postConstruct {log2IndexesSize log2CacheSize : ℕ} {keys : ℕ → ℕ} {values : ℕ → Fe}
    {c₀ : Cache} (h : postConstruct log2IndexesSize log2CacheSize keys values = .ok c₀) :
    c₀.Counted := by
  unfold postConstruct at h
  split_ifs at h with hindexes hcache
  · obtain ⟨indexesSize, -, h⟩ := bind_eq_ok h
    exact nomatch h
  · obtain ⟨indexesSize, -, h⟩ := bind_eq_ok h
    obtain ⟨cacheSize, hcache, h⟩ := bind_eq_ok h
    obtain rfl := Except.ok.inj h
    unfold shiftOne at hcache
    split_ifs at hcache with hlt
    exact ⟨⟨log2CacheSize, Nat.not_le.mp hlt, (Except.ok.inj hcache).symm⟩, Nat.two_pow_pos 32⟩

end Cache

/-- No call of a run exits exactly when every key that is stored while its entries are taken starts a
walk that finds an empty entry. -/
theorem calls_exit_iff {log2IndexesSize log2CacheSize : ℕ} {keys : ℕ → ℕ} {values : ℕ → Fe}
    {c₀ : Cache} (h : postConstruct log2IndexesSize log2CacheSize keys values = .ok c₀)
    (calls : List Call) : c₀.calls calls ≠ .error .exitProcess ↔
      ∀ call before, call :: before <:+ calls → ∀ c, c₀.calls before = .ok c → c.CallOk call := by
  have hcounted := Cache.counted_postConstruct h
  induction calls with
  | nil => exact iff_of_true nofun fun call before hsuffix => nomatch List.suffix_nil.mp hsuffix
  | cons call before ih =>
    have hsplit : (∀ call' before', call' :: before' <:+ call :: before →
        ∀ c, c₀.calls before' = .ok c → c.CallOk call') ↔
          (∀ c, c₀.calls before = .ok c → c.CallOk call) ∧
            ∀ call' before', call' :: before' <:+ before →
              ∀ c, c₀.calls before' = .ok c → c.CallOk call' := by
      constructor
      · intro hall
        exact ⟨hall call before (List.suffix_refl _), fun call' before' hsuffix =>
          hall call' before' (hsuffix.trans (List.suffix_cons ..))⟩
      · rintro ⟨hhead, htail⟩ call' before' hsuffix
        rcases List.suffix_cons_iff.mp hsuffix with heq | hsuffix
        · obtain ⟨rfl, rfl⟩ := List.cons.inj heq
          exact hhead
        · exact htail call' before' hsuffix
    rw [hsplit]
    refine Iff.trans ?_ (and_congr_right' ih)
    show (c₀.calls before >>= fun c => c.call call) ≠ _ ↔ _
    rcases hbefore : c₀.calls before with e | c
    · constructor
      · exact fun hne => ⟨nofun, hne⟩
      · exact fun hne => hne.2
    · have hstep := Cache.call_iff (hcounted.calls hbefore) call
      constructor
      · intro hne
        refine ⟨fun c' hc' => ?_, nofun⟩
        obtain rfl := Except.ok.inj hc'
        exact hstep.mp hne
      · exact fun hok => hstep.mpr (hok.1 c rfl)

/-- A key added to a fresh cache. -/
theorem calls_exit_iff_single : ∃ c₀, postConstruct 2 4 (fun _ => 0) (fun _ => 0) = .ok c₀ ∧
    c₀.calls [.addKeyValue ⟨0, 1, 2, 3⟩ (List.replicate 12 0) false] ≠ .error .exitProcess := by
  refine ⟨_, rfl, (calls_exit_iff
    (show postConstruct 2 4 (fun _ => 0) (fun _ => 0) = .ok _ from rfl) _).mpr ?_⟩
  intro call before hsuffix c hc
  rcases List.suffix_cons_iff.mp hsuffix with heq | hsuffix
  · obtain ⟨rfl, rfl⟩ := List.cons.inj heq
    obtain rfl := Except.ok.inj hc
    intro hfull
    exact absurd (hfull 0 (by decide)).1 (by decide)
  · exact nomatch List.suffix_nil.mp hsuffix

/-- The key of the state root selects the same entry four times.  Once it is displaced from there, it has
nowhere to go. -/
theorem calls_exit_stateRoot : (postConstruct 2 4 (fun _ => 0) (fun _ => 0) >>= fun c₀ => c₀.calls
    [.addKeyValue ⟨0, 1, 2, 3⟩ (List.replicate 12 0) false,
      .addKeyValue ⟨2, 2, 2, 2⟩ (List.replicate 12 0) false,
      .addKeyValue ⟨1, 1, 1, 1⟩ (List.replicate 12 0) false,
      .addKeyValue ⟨0, 0, 0, 0⟩ (List.replicate 12 0) false,
      .addKeyValue ⟨2 ^ 64 - 1, 2 ^ 64 - 1, 2 ^ 64 - 1, 2 ^ 64 - 1⟩ (List.replicate 12 0) true]) =
    .error .exitProcess := by
  have hexit {run : Except Failure Cache}
      (h : (match run with | .error .exitProcess => true | _ => false) = true) :
      run = .error .exitProcess := by
    rcases run with e | c
    · cases e with
      | exitProcess => rfl
      | undefinedBehaviour => exact nomatch h
    · exact nomatch h
  exact hexit (by decide)

end AssociativeCache

end ZkevmProver
