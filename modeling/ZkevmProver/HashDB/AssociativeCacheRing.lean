import ZkevmProver.HashDB.AssociativeCache

/-!
# The ring behind the associative cache

`Inv c n E` relates the cache to the list `E` of everything inserted: after `n` insertions the last
`cacheSize` of them are in the ring, each found through one of the entries of its key, and no key
twice.  The counter is 32 bits wide and `n` is not.

  1. The invariant, and when an entry counts as empty.
  2. The scan of the entries, and `findKey`.
  3. `store`, and `forcedInsertion`.
  4. `addKeyValue`.
-/

namespace ZkevmProver

namespace AssociativeCache

open RingWindow

/-! ## The invariant -/

/-- What an entry holds before it is first written. -/
def initValue (cacheSize : ℕ) : ℕ := u32 (UINT32_MAX + 2 ^ 32 - cacheSize - 1)

namespace Cache

/-- Slot `s` lies inside both arrays. -/
def Fits (c : Cache) (s : ℕ) : Prop := s * 4 + 4 ≤ c.keysLength ∧ s * 12 + 12 ≤ c.valuesLength

/-- Both sizes are powers of two of 32 bits. -/
structure Sized (c : Cache) : Prop where
  indexes : ∃ k < 32, c.indexesSize = 2 ^ k
  cache : ∃ k < 32, c.cacheSize = 2 ^ k

/-- The last `cacheSize` of the insertions `E 0`, …, `E (n - 1)` are in the ring, but the entry of
number `missing` may be lost. -/
structure InvBut (missing : Option ℕ) (c : Cache) (n : ℕ) (E : ℕ → CacheKey × List Fe) : Prop where
  sized : c.Sized
  current : c.currentCacheIndex = n % 2 ^ 32
  fits : ∀ m, Live c.cacheSize n m → c.Fits (m % c.cacheSize)
  key : ∀ m, Live c.cacheSize n m →
    readBlock c.keys (m % c.cacheSize * 4) 4 = (E m).1.toList
  value : ∀ m, Live c.cacheSize n m → readBlock c.values (m % c.cacheSize * 12) 12 = (E m).2
  index : ∀ m, Live c.cacheSize n m → some (m % 2 ^ 32) = missing ∨
    ∃ fe ∈ (E m).1.toList, c.indexes (c.tableIndex fe) = m % 2 ^ 32
  entry : ∀ t, c.indexes t = initValue c.cacheSize ∨ ∃ m < n, c.indexes t = m % 2 ^ 32
  distinct : ∀ m m', Live c.cacheSize n m → Live c.cacheSize n m' → (E m).1 = (E m').1 → m = m'

/-- The last `cacheSize` of the insertions `E 0`, …, `E (n - 1)` are in the ring. -/
abbrev Inv := InvBut none

variable {c : Cache} {n : ℕ} {E : ℕ → CacheKey × List Fe} {missing : Option ℕ}

theorem Sized.pos (h : c.Sized) : 0 < c.cacheSize := by
  obtain ⟨k, -, hk⟩ := h.cache
  rw [hk]
  exact Nat.two_pow_pos k

theorem Sized.le (h : c.Sized) : c.cacheSize ≤ 2 ^ 31 := by
  obtain ⟨k, hk, heq⟩ := h.cache
  rw [heq]
  exact Nat.pow_le_pow_right (by decide) (by omega)

theorem Sized.dvd (h : c.Sized) : c.cacheSize ∣ 2 ^ 32 := by
  obtain ⟨k, hk, heq⟩ := h.cache
  rw [heq]
  exact Nat.pow_dvd_pow 2 hk.le

theorem Sized.and_cacheMask (h : c.Sized) (x : ℕ) : x &&& c.cacheMask = x % c.cacheSize := by
  obtain ⟨k, -, heq⟩ := h.cache
  rw [cacheMask, heq]
  exact Nat.and_two_pow_sub_one_eq_mod x k

theorem Sized.slot_mod (h : c.Sized) (m : ℕ) : m % 2 ^ 32 % c.cacheSize = m % c.cacheSize :=
  Nat.mod_mod_of_dvd m h.dvd

/-- With room for one key in the array, the ring has at most `2 ^ 29` slots. -/
theorem Sized.le_of_fits (h : c.Sized) {s : ℕ} (hfits : c.Fits s) : c.cacheSize ≤ 2 ^ 29 := by
  obtain ⟨k, hk, heq⟩ := h.cache
  have hkeys := hfits.1
  unfold keysLength u32 at hkeys
  rw [heq] at hkeys ⊢
  refine Nat.pow_le_pow_right (by decide) (Nat.le_of_not_lt fun hlt => ?_)
  obtain rfl | rfl : k = 30 ∨ k = 31 := by omega
  · omega
  · omega

theorem Fits.u32_key {s : ℕ} (h : c.Fits s) : u32 (s * 4) = s * 4 := by
  have hkeys := h.1
  unfold keysLength u32 at hkeys
  refine Nat.mod_eq_of_lt ?_
  have := Nat.mod_lt (4 * c.cacheSize) (show 0 < 2 ^ 32 by decide)
  omega

theorem Fits.u32_value {s : ℕ} (h : c.Fits s) : u32 (s * 12) = s * 12 := by
  have hvalues := h.2
  unfold valuesLength u32 at hvalues
  refine Nat.mod_eq_of_lt ?_
  have := Nat.mod_lt (12 * c.cacheSize) (show 0 < 2 ^ 32 by decide)
  omega

/-! ## Empty entries -/

/-- The number of a live insertion never counts as empty, wherever the counter wraps. -/
theorem InvBut.not_empty (h : InvBut missing c n E) {m : ℕ} (hm : Live c.cacheSize n m) :
    c.emptyCacheSlot (m % 2 ^ 32) = false := by
  have hle := h.sized.le
  obtain ⟨hlt, hwin⟩ := hm
  unfold emptyCacheSlot UINT32_MAX
  rw [h.current]
  simp only [decide_eq_false_iff_not]
  omega

/-- An entry that does not count as empty selects the slot of a live insertion. -/
theorem InvBut.exists_live (h : InvBut missing c n E) {t : ℕ}
    (ht : c.emptyCacheSlot (c.indexes t) = false) :
    ∃ m, Live c.cacheSize n m ∧ c.indexes t % c.cacheSize = m % c.cacheSize := by
  have hle := h.sized.le
  have hpos := h.sized.pos
  by_cases hfull : c.cacheSize ≤ n
  · obtain ⟨m, hm, hslot⟩ := RingWindow.exists_live hpos hfull (c.indexes t)
    exact ⟨m, hm, hslot.symm⟩
  · obtain hinit | ⟨m, hm, hraw⟩ := h.entry t
    · exfalso
      have hsmall : n = 0 ∨ c.cacheSize ≤ 2 ^ 29 := by
        obtain rfl | hn := Nat.eq_zero_or_pos n
        · exact Or.inl rfl
        · exact Or.inr (h.sized.le_of_fits (h.fits (n - 1) ⟨by omega, by omega⟩))
      rw [hinit] at ht
      unfold emptyCacheSlot initValue UINT32_MAX u32 at ht
      rw [h.current] at ht
      simp only [decide_eq_false_iff_not] at ht
      omega
    · refine ⟨m, ⟨hm, by omega⟩, ?_⟩
      rw [hraw, h.sized.slot_mod]

/-! ## The scan -/

theorem InvBut.keyAt (h : InvBut missing c n E) {m : ℕ} (hm : Live c.cacheSize n m) :
    c.keyAt (m % c.cacheSize) = .ok (E m).1.toList := by
  have hfits := h.fits m hm
  unfold Cache.keyAt
  rw [hfits.u32_key, if_pos hfits.1, h.key m hm]

theorem toList_injective : Function.Injective CacheKey.toList := by
  intro key key' h
  cases key
  cases key'
  simpa [CacheKey.toList] using h

/-- What the scan of some of the entries of a key returns. -/
def ScanSpec (c : Cache) (n : ℕ) (E : ℕ → CacheKey × List Fe) (key : CacheKey) (fes : List ℕ)
    (empty : Option ℕ) : Scan → Prop
  | .present s => ∃ m, Live c.cacheSize n m ∧ s = m % c.cacheSize ∧ (E m).1 = key
  | .absent empty' =>
    (∀ m, Live c.cacheSize n m → (E m).1 = key → ∀ fe ∈ fes,
      c.indexes (c.tableIndex fe) ≠ m % 2 ^ 32) ∧
    (∀ t, empty' = some t → empty = some t ∨
      ∃ fe ∈ fes, t = c.tableIndex fe ∧ c.emptyCacheSlot (c.indexes t) = true)

theorem InvBut.scan (h : InvBut missing c n E) (key : CacheKey) (fes : List ℕ) :
    ∀ empty, ∃ r, c.scan key fes empty = .ok r ∧ ScanSpec c n E key fes empty r := by
  induction fes with
  | nil =>
    intro empty
    exact ⟨.absent empty, rfl, by simp, fun t ht => Or.inl ht⟩
  | cons fe fes ih =>
    intro empty
    unfold Cache.scan
    cases hempty : c.emptyCacheSlot (c.indexes (c.tableIndex fe)) with
    | true =>
      obtain ⟨r, hr, hspec⟩ := ih (empty <|> some (c.tableIndex fe))
      refine ⟨r, by simpa [hempty] using hr, ?_⟩
      cases r with
      | present s => exact hspec
      | absent empty' =>
        refine ⟨fun m hm hkey fe' hfe' => ?_, fun t ht => ?_⟩
        · obtain rfl | hfe' := List.mem_cons.mp hfe'
          · intro heq
            rw [heq, h.not_empty hm] at hempty
            exact Bool.noConfusion hempty
          · exact hspec.1 m hm hkey fe' hfe'
        · obtain hor | ⟨fe', hfe', hrest⟩ := hspec.2 t ht
          · cases empty with
            | some t' => exact Or.inl hor
            | none =>
              obtain rfl : c.tableIndex fe = t := by simpa using hor
              exact Or.inr ⟨fe, by simp, rfl, hempty⟩
          · exact Or.inr ⟨fe', by simp [hfe'], hrest⟩
    | false =>
      obtain ⟨m₀, hm₀, hslot⟩ := h.exists_live hempty
      have hcell : c.indexes (c.tableIndex fe) &&& c.cacheMask = m₀ % c.cacheSize := by
        rw [h.sized.and_cacheMask, hslot]
      by_cases hkey : (E m₀).1 = key
      · refine ⟨.present (m₀ % c.cacheSize), ?_, m₀, hm₀, rfl, hkey⟩
        simp [hempty, hcell, h.keyAt hm₀, hkey, bind, Except.bind]
      · have hne : (E m₀).1.toList ≠ key.toList := fun heq => hkey (toList_injective heq)
        obtain ⟨r, hr, hspec⟩ := ih empty
        refine ⟨r, by simp [hempty, hcell, h.keyAt hm₀, hne, hr, bind, Except.bind], ?_⟩
        cases r with
        | present s => exact hspec
        | absent empty' =>
          refine ⟨fun m hm hm' fe' hfe' => ?_, fun t ht => ?_⟩
          · obtain rfl | hfe' := List.mem_cons.mp hfe'
            · intro heq
              rw [heq, h.sized.slot_mod] at hslot
              exact hkey (hm.eq_of_slot hm₀ hslot ▸ hm')
            · exact hspec.1 m hm hm' fe' hfe'
          · obtain hor | ⟨fe', hfe', hrest⟩ := hspec.2 t ht
            · exact Or.inl hor
            · exact Or.inr ⟨fe', by simp [hfe'], hrest⟩

/-- A key is present exactly when it is in the ring. -/
theorem Inv.scan_key (h : Inv c n E) (key : CacheKey) :
    (∃ m, Live c.cacheSize n m ∧ (E m).1 = key ∧
      c.scan key key.toList none = .ok (.present (m % c.cacheSize))) ∨
    (∀ m, Live c.cacheSize n m → (E m).1 ≠ key) ∧ ∃ empty,
      c.scan key key.toList none = .ok (.absent empty) ∧ ∀ t, empty = some t →
        ∃ fe ∈ key.toList, t = c.tableIndex fe ∧ c.emptyCacheSlot (c.indexes t) = true := by
  obtain ⟨r, hr, hspec⟩ := h.scan key key.toList none
  cases r with
  | present s =>
    obtain ⟨m, hm, rfl, hkey⟩ := hspec
    exact Or.inl ⟨m, hm, hkey, hr⟩
  | absent empty =>
    refine Or.inr ⟨fun m hm hkey => ?_, empty, hr, fun t ht => ?_⟩
    · obtain hmissing | ⟨fe, hfe, hindex⟩ := h.index m hm
      · exact absurd hmissing (by simp)
      · exact hspec.1 m hm hkey fe (hkey ▸ hfe) hindex
    · exact (hspec.2 t ht).resolve_left (by simp)

/-- `findKey` returns what the ring holds for the key. -/
theorem Inv.findKey (h : Inv c n E) (key : CacheKey) :
    (∃ m, Live c.cacheSize n m ∧ (E m).1 = key ∧ c.findKey key = .ok (some (E m).2)) ∨
    (∀ m, Live c.cacheSize n m → (E m).1 ≠ key) ∧ c.findKey key = .ok none := by
  unfold Cache.findKey
  obtain ⟨m, hm, hkey, hscan⟩ | ⟨habsent, empty, hscan, -⟩ := h.scan_key key
  · have hfits := h.fits m hm
    refine Or.inl ⟨m, hm, hkey, ?_⟩
    rw [hscan]
    simp only [bind, Except.bind]
    rw [hfits.u32_value, if_pos hfits.2, h.value m hm]
  · refine Or.inr ⟨habsent, ?_⟩
    rw [hscan]
    rfl

/-! ## Lost entries -/

@[simp] theorem setIndex_tableIndex (t raw fe : ℕ) :
    (c.setIndex t raw).tableIndex fe = c.tableIndex fe := rfl

/-- An entry is written for the lost number; what it held is lost, unless no number needs it. -/
theorem InvBut.setIndex {raw : ℕ} (h : InvBut (some raw) c n E) {m₀ : ℕ}
    (hm₀ : Live c.cacheSize n m₀) (hslot : raw % c.cacheSize = m₀ % c.cacheSize)
    (hraw : raw = initValue c.cacheSize ∨ ∃ m < n, raw = m % 2 ^ 32) {fe : ℕ}
    (hfe : fe ∈ (E m₀).1.toList)
    (hmissing : (missing = none ∧ ∀ m, Live c.cacheSize n m → m % 2 ^ 32 ≠ raw →
        c.indexes (c.tableIndex fe) ≠ m % 2 ^ 32) ∨
      missing = some (c.indexes (c.tableIndex fe))) :
    InvBut missing (c.setIndex (c.tableIndex fe) raw) n E := by
  refine ⟨⟨h.sized.indexes, h.sized.cache⟩, h.current, h.fits, h.key, h.value, fun m hm => ?_,
    fun t => ?_, h.distinct⟩
  · obtain hlost | ⟨fe', hfe', hindex⟩ := h.index m hm
    · obtain rfl : m % 2 ^ 32 = raw := by simpa using hlost
      rw [h.sized.slot_mod] at hslot
      obtain rfl := Live.eq_of_slot hm hm₀ hslot
      exact Or.inr ⟨fe, hfe, Function.update_self ..⟩
    · by_cases ht : c.tableIndex fe' = c.tableIndex fe
      · rw [ht] at hindex
        obtain ⟨-, hfree⟩ | hmissing := hmissing
        · obtain rfl : m % 2 ^ 32 = raw := by
            by_contra hne
            exact hfree m hm hne hindex
          exact Or.inr ⟨fe', hfe', ht ▸ Function.update_self ..⟩
        · left
          rw [hmissing, hindex]
      · exact Or.inr ⟨fe', hfe', (Function.update_of_ne ht ..).trans hindex⟩
  · by_cases ht : t = c.tableIndex fe
    · subst ht
      rw [show (c.setIndex (c.tableIndex fe) raw).indexes (c.tableIndex fe) = raw from
        Function.update_self ..]
      exact hraw
    · rw [show (c.setIndex (c.tableIndex fe) raw).indexes t = c.indexes t from
        Function.update_of_ne ht ..]
      exact h.entry t

/-- What `forcedInsertion` finds: an empty entry of the key, or one that is not. -/
def VictimSpec (c : Cache) (fes : List ℕ) : Victim → Prop
  | .empty t => ∃ fe ∈ fes, t = c.tableIndex fe ∧ c.emptyCacheSlot (c.indexes t) = true
  | .displace none => True
  | .displace (some (raw, t)) => ∃ fe ∈ fes, t = c.tableIndex fe ∧ c.indexes t = raw ∧
      c.emptyCacheSlot raw = false

theorem findVictim_spec (c : Cache) (used all : List ℕ) : ∀ (fes : List ℕ)
    (best : Option (ℕ × ℕ)), (∀ fe ∈ fes, fe ∈ all) → VictimSpec c all (.displace best) →
      VictimSpec c all (c.findVictim used fes best) := by
  intro fes
  induction fes with
  | nil => exact fun best _ hbest => hbest
  | cons fe fes ih =>
    intro best hall hbest
    have hfe := hall fe (by simp)
    have hrest : ∀ fe ∈ fes, fe ∈ all := fun fe' hfe' => hall fe' (by simp [hfe'])
    unfold Cache.findVictim
    cases hempty : c.emptyCacheSlot (c.indexes (c.tableIndex fe)) with
    | true =>
      simp only [hempty, if_true]
      exact ⟨fe, hfe, rfl, hempty⟩
    | false =>
      simp only [hempty, Bool.false_eq_true, if_false]
      split_ifs
      · exact ih _ hrest ⟨fe, hfe, rfl, rfl, hempty⟩
      · exact ih _ hrest hbest

/-- `forcedInsertion` finds an entry for the lost number and for each one that it displaces, or the
process exits. -/
theorem InvBut.forcedInsertion (iters : ℕ) : ∀ {c : Cache} {raw : ℕ} {m₀ : ℕ} (used : List ℕ),
    InvBut (some raw) c n E → Live c.cacheSize n m₀ → raw % c.cacheSize = m₀ % c.cacheSize →
      (raw = initValue c.cacheSize ∨ ∃ m < n, raw = m % 2 ^ 32) →
        c.forcedInsertion iters raw used = .error .exitProcess ∨
          ∃ c', c.forcedInsertion iters raw used = .ok c' ∧ Inv c' n E ∧
            c'.cacheSize = c.cacheSize := by
  induction iters with
  | zero => exact fun _ _ _ _ _ => Or.inl rfl
  | succ iters ih =>
    intro c raw m₀ used h hm₀ hslot hraw
    have hfits := h.fits m₀ hm₀
    have hcell : raw &&& c.cacheMask = m₀ % c.cacheSize := by rw [h.sized.and_cacheMask, hslot]
    have hspec := findVictim_spec c (raw :: used) (E m₀).1.toList (E m₀).1.toList none
      (fun _ h => h) trivial
    unfold Cache.forcedInsertion
    simp only [hcell]
    rw [if_neg (Nat.not_lt.mpr hfits.1), h.key m₀ hm₀]
    generalize c.findVictim (raw :: used) (E m₀).1.toList none = victim at hspec ⊢
    match victim, hspec with
    | .empty t, ⟨fe, hfe, ht, hempty⟩ =>
      subst ht
      refine Or.inr ⟨_, rfl, h.setIndex hm₀ hslot hraw hfe (Or.inl ⟨rfl, fun m hm _ heq => ?_⟩), rfl⟩
      rw [heq, h.not_empty hm] at hempty
      exact Bool.noConfusion hempty
    | .displace none, _ => exact Or.inl rfl
    | .displace (some (raw', t)), ⟨fe, hfe, ht, hraw', hempty⟩ =>
      subst ht
      subst hraw'
      obtain ⟨m₁, hm₁, hslot₁⟩ := h.exists_live hempty
      exact ih (raw :: used) (h.setIndex hm₀ hslot hraw hfe (Or.inr rfl)) hm₁ hslot₁
        (h.entry (c.tableIndex fe))

/-! ## Stores -/

/-- The cache with a key and the elements of a value written in slot `s`. -/
def put (c : Cache) (s : ℕ) (key : CacheKey) (elements : List Fe) : Cache :=
  { c with
    keys := writeBlock c.keys (s * 4) key.toList
    values := writeBlock c.values (s * 12) elements }

theorem store_eq {s : ℕ} (hfits : c.Fits s) (key : CacheKey) {value elements : List Fe}
    (hvalue : storedValue value = some elements) :
    c.store s key value = .ok (c.put s key elements) := by
  unfold store
  simp only [hvalue, hfits.u32_key, hfits.u32_value]
  exact if_pos hfits

theorem length_storedValue {value elements : List Fe} (h : storedValue value = some elements) :
    elements.length = 12 := by
  unfold storedValue at h
  split_ifs at h with h12 h8
  · obtain rfl := Option.some.inj h
    rw [List.length_take]
    omega
  · obtain rfl := Option.some.inj h
    simp [h8]

theorem put_key_self (s : ℕ) (key : CacheKey) (elements : List Fe) :
    readBlock (c.put s key elements).keys (s * 4) 4 = key.toList :=
  readBlock_writeBlock_self c.keys (s * 4) key.toList

theorem put_value_self (s : ℕ) (key : CacheKey) {elements : List Fe}
    (hlen : elements.length = 12) :
    readBlock (c.put s key elements).values (s * 12) 12 = elements := by
  have h := readBlock_writeBlock_self c.values (s * 12) elements
  rwa [hlen] at h

theorem put_key_of_ne {s s' : ℕ} (hs : s' ≠ s) (key : CacheKey) (elements : List Fe) :
    readBlock (c.put s key elements).keys (s' * 4) 4 = readBlock c.keys (s' * 4) 4 := by
  refine readBlock_writeBlock_of_disjoint c.keys ?_
  show s' * 4 + 4 ≤ s * 4 ∨ s * 4 + 4 ≤ s' * 4
  omega

theorem put_value_of_ne {s s' : ℕ} (hs : s' ≠ s) (key : CacheKey) {elements : List Fe}
    (hlen : elements.length = 12) :
    readBlock (c.put s key elements).values (s' * 12) 12 = readBlock c.values (s' * 12) 12 := by
  refine readBlock_writeBlock_of_disjoint c.values ?_
  rw [hlen]
  omega

/-- A present key takes a new value in its slot. -/
theorem Inv.put (h : Inv c n E) {m : ℕ} (hm : Live c.cacheSize n m) {elements : List Fe}
    (hlen : elements.length = 12) :
    Inv (c.put (m % c.cacheSize) (E m).1 elements) n
      (Function.update E m ((E m).1, elements)) := by
  have hkey (m' : ℕ) : (Function.update E m ((E m).1, elements) m').1 = (E m').1 := by
    by_cases hm' : m' = m
    · rw [hm', Function.update_self]
    · rw [Function.update_of_ne hm']
  have hslot {m' : ℕ} (hm' : Live c.cacheSize n m') (hne : m' ≠ m) :
      m' % c.cacheSize ≠ m % c.cacheSize := fun heq => hne (hm'.eq_of_slot hm heq)
  refine ⟨⟨h.sized.indexes, h.sized.cache⟩, h.current, h.fits, fun m' hm' => ?_, fun m' hm' => ?_,
    fun m' hm' => ?_, h.entry, fun m' m'' hm' hm'' heq => ?_⟩
  · rw [hkey]
    by_cases hne : m' = m
    · subst hne
      exact put_key_self ..
    · exact (put_key_of_ne (hslot hm' hne) ..).trans (h.key m' hm')
  · by_cases hne : m' = m
    · subst hne
      rw [Function.update_self]
      exact put_value_self _ _ hlen
    · rw [Function.update_of_ne hne]
      exact (put_value_of_ne (hslot hm' hne) _ hlen).trans (h.value m' hm')
  · rw [hkey]
    exact h.index m' hm'
  · rw [hkey, hkey] at heq
    exact h.distinct m' m'' hm' hm'' heq

/-! ## Insertions -/

theorem advance_current (h : c.currentCacheIndex = n % 2 ^ 32) :
    c.advance.currentCacheIndex = (n + 1) % 2 ^ 32 := by
  show (if c.currentCacheIndex = UINT32_MAX then 0 else c.currentCacheIndex + 1) = _
  unfold UINT32_MAX
  rw [h]
  split <;> omega

/-- A new key takes the next slot; its number has no entry yet. -/
theorem InvBut.push (h : InvBut none c n E) {key : CacheKey}
    (habsent : ∀ m, Live c.cacheSize n m → (E m).1 ≠ key) (hfits : c.Fits (n % c.cacheSize))
    {elements : List Fe} (hlen : elements.length = 12) :
    InvBut (some (n % 2 ^ 32)) (c.advance.put (n % c.cacheSize) key elements) (n + 1)
      (Function.update E n (key, elements)) := by
  have hpos := h.sized.pos
  have hold {m : ℕ} (hm : Live c.cacheSize (n + 1) m) (hne : m ≠ n) : Live c.cacheSize n m :=
    hm.of_succ hne
  refine ⟨⟨h.sized.indexes, h.sized.cache⟩, advance_current h.current, fun m hm => ?_,
    fun m hm => ?_, fun m hm => ?_, fun m hm => ?_, fun t => ?_, fun m m' hm hm' heq => ?_⟩
  · by_cases hne : m = n
    · subst hne
      exact hfits
    · exact h.fits m (hold hm hne)
  · by_cases hne : m = n
    · subst hne
      rw [Function.update_self]
      exact put_key_self ..
    · rw [Function.update_of_ne hne]
      exact (put_key_of_ne (hm.slot_ne hpos hne) ..).trans (h.key m (hold hm hne))
  · by_cases hne : m = n
    · subst hne
      rw [Function.update_self]
      exact put_value_self _ _ hlen
    · rw [Function.update_of_ne hne]
      exact (put_value_of_ne (hm.slot_ne hpos hne) _ hlen).trans (h.value m (hold hm hne))
  · by_cases hne : m = n
    · subst hne
      exact Or.inl rfl
    · rw [Function.update_of_ne hne]
      exact Or.inr ((h.index m (hold hm hne)).resolve_left (by simp))
  · obtain hinit | ⟨m, hm, hraw⟩ := h.entry t
    · exact Or.inl hinit
    · exact Or.inr ⟨m, hm.trans (Nat.lt_succ_self n), hraw⟩
  · by_cases hne : m = n
    · by_cases hne' : m' = n
      · rw [hne, hne']
      · subst hne
        rw [Function.update_self, Function.update_of_ne hne'] at heq
        exact absurd heq.symm (habsent m' (hold hm' hne'))
    · by_cases hne' : m' = n
      · subst hne'
        rw [Function.update_self, Function.update_of_ne hne] at heq
        exact absurd heq (habsent m (hold hm hne))
      · rw [Function.update_of_ne hne, Function.update_of_ne hne'] at heq
        exact h.distinct m m' (hold hm hne) (hold hm' hne') heq

/-- What a call of `addKeyValue` makes of the list of insertions: nothing, a new value, or a new
insertion. -/
inductive Added (c : Cache) (n : ℕ) (E : ℕ → CacheKey × List Fe) (key : CacheKey)
    (elements : List Fe) (update : Bool) : Cache → ℕ → (ℕ → CacheKey × List Fe) → Prop
  | kept (m : ℕ) (hm : Live c.cacheSize n m) (hkey : (E m).1 = key) (hupdate : update = false) :
    Added c n E key elements update c n E
  | updated (m : ℕ) (hm : Live c.cacheSize n m) (hkey : (E m).1 = key) (hupdate : update = true)
    (c' : Cache) : Added c n E key elements update c' n (Function.update E m (key, elements))
  | inserted (habsent : ∀ m, Live c.cacheSize n m → (E m).1 ≠ key) (c' : Cache) :
    Added c n E key elements update c' (n + 1) (Function.update E n (key, elements))

/-- `addKeyValue` keeps the invariant, or the process exits. -/
theorem Inv.addKeyValue (h : Inv c n E) {key : CacheKey} {value elements : List Fe}
    (hvalue : storedValue value = some elements) (update : Bool)
    (hroom : (∀ m, Live c.cacheSize n m → (E m).1 ≠ key) → c.Fits (n % c.cacheSize)) :
    c.addKeyValue key value update = .error .exitProcess ∨
      ∃ c' n' E', c.addKeyValue key value update = .ok c' ∧ Inv c' n' E' ∧
        c'.cacheSize = c.cacheSize ∧ Added c n E key elements update c' n' E' := by
  have hlen := length_storedValue hvalue
  unfold Cache.addKeyValue
  obtain ⟨m, hm, hkey, hscan⟩ | ⟨habsent, empty, hscan, hempty⟩ := h.scan_key key
  · rw [hscan]
    right
    cases update with
    | false => exact ⟨c, n, E, rfl, h, rfl, .kept m hm hkey rfl⟩
    | true =>
      refine ⟨c.put (m % c.cacheSize) key elements, n, _, ?_, ?_, rfl, .updated m hm hkey rfl _⟩
      · exact store_eq (h.fits m hm) key hvalue
      · exact hkey ▸ h.put hm hlen
  · have hfits := hroom habsent
    have hpos := h.sized.pos
    have hcell : u32 (c.currentCacheIndex &&& c.cacheMask) = n % c.cacheSize := by
      rw [h.sized.and_cacheMask, h.current, h.sized.slot_mod]
      have := Nat.mod_lt n hpos
      have := h.sized.le
      exact Nat.mod_eq_of_lt (by omega)
    have hpush := h.push habsent hfits hlen
    have hlive : Live c.cacheSize (n + 1) n := live_self hpos n
    rw [hscan]
    cases empty with
    | some t =>
      obtain ⟨fe, hfe, rfl, hentry⟩ := hempty t rfl
      right
      refine ⟨(c.advance.put (n % c.cacheSize) key elements).setIndex (c.tableIndex fe)
        (n % 2 ^ 32), n + 1, _, ?_, ?_, rfl, .inserted habsent _⟩
      · simp only [bind, Except.bind, hcell]
        rw [store_eq (c := (c.setIndex (c.tableIndex fe) c.currentCacheIndex).advance) hfits key
          hvalue, h.current]
        rfl
      · refine hpush.setIndex hlive (h.sized.slot_mod n) (Or.inr ⟨n, Nat.lt_succ_self n, rfl⟩)
          (by rwa [Function.update_self]) (Or.inl ⟨rfl, fun m hm hne heq => ?_⟩)
        have hold : Live c.cacheSize n m := hm.of_succ fun hmn => hne (by rw [hmn])
        change c.indexes (c.tableIndex fe) = m % 2 ^ 32 at heq
        rw [heq, h.not_empty hold] at hentry
        exact Bool.noConfusion hentry
    | none =>
      have hraw : u32 ((c.advance.put (n % c.cacheSize) key elements).currentCacheIndex +
          2 ^ 32 - 1) = n % 2 ^ 32 := by
        rw [hpush.current]
        unfold u32
        omega
      have hforced := hpush.forcedInsertion 9 [] hlive (h.sized.slot_mod n)
        (Or.inr ⟨n, Nat.lt_succ_self n, rfl⟩)
      simp only [bind, Except.bind, hcell]
      rw [store_eq (c := c.advance) hfits key hvalue]
      simp only [hraw]
      obtain hexit | ⟨c', hok, hinv, hsize⟩ := hforced
      · exact Or.inl hexit
      · exact Or.inr ⟨c', n + 1, _, hok, hinv, hsize, .inserted habsent c'⟩

end Cache

end AssociativeCache

end ZkevmProver
