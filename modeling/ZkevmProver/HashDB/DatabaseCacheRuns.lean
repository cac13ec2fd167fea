import ZkevmProver.HashDB.DatabaseCacheSpec

/-!
# Runs of the database cache

What holds of the cache after any sequence of calls, and which calls make its current size wrong.

  1. The values that were added, and the order of use.
  2. What a call keeps of the records.
  3. The current size, and the updates that fit in place.
  4. Every sequence of calls: `keeps_iff`.
-/

namespace ZkevmProver.DatabaseCache

open LinkedRecords Transitions

variable {α : Type}

/-! ## What is kept -/

/-- The key that a call uses. -/
def Call.key : Call α → Option Text
  | .addKeyValue key _ _ => some key
  | .findKey key => some key
  | .clear => none

/-- Among these calls, `k'` has been used after the last use of `k`. -/
def UsedSince (calls : List (Call α)) (k k' : Text) : Prop :=
  ∃ earlier later, calls = earlier ++ later ∧ (∃ call ∈ later, call.key = some k') ∧
    ∀ call ∈ later, call.key ≠ some k

/-- A cache, and the value that was added last for each key. -/
structure Observed (α : Type) where
  cache : DatabaseCache α
  lastAdded : Text → Option (List α)

/-- A key that is held gets a value by an update only. -/
def Observed.addedAfter (s : Observed α) : Call α → Text → Option (List α)
  | .addKeyValue key value update =>
    if update ∨ s.cache.cacheMap key = none then Function.update s.lastAdded key (some value)
    else s.lastAdded
  | _ => s.lastAdded

def observe (s : Observed α) (call : Call α) : Option (Observed α) :=
  (s.cache.step call).map fun c => ⟨c, s.addedAfter call⟩

def start (kind : DatabaseCacheKind) (maxSize : ℕ) : Observed α := ⟨new kind maxSize, fun _ => none⟩

/-- The sizes of the records, as they are. -/
def actualSize (kind : DatabaseCacheKind) (es : Entries α) : ℕ :=
  (es.map fun e => recordSize kind e.2.key e.2.value).sum

/-- The list holds what the map holds, the current size is that of its records and at most the maximum
for more than one, and `find` returns what was added last. -/
structure Upholds (s : Observed α) : Prop where
  list : ∃ es, Listed s.cache.heap s.cache.head s.cache.last es ∧ (keysOf es).Nodup ∧
    (∀ key a, s.cache.cacheMap key = some a ↔ ∃ e ∈ es, e.1 = a ∧ e.2.key = key) ∧
    s.cache.currentSize = actualSize s.cache.kind es ∧
    (2 ≤ es.length → s.cache.currentSize ≤ s.cache.maxSize)
  find : ∀ key, ∃ c', s.cache.find key =
    some (c', if s.cache.cacheMap key = none then none else s.lastAdded key)

/-- A key is dropped by `clear` or by the addition of a new key.  The added key stays, and what is
dropped then was used before everything that stays. -/
structure Evicts (calls : List (Call α)) (c : DatabaseCache α) (call : Call α)
    (c' : DatabaseCache α) : Prop where
  least : ∀ k k', c.cacheMap k ≠ none → c'.cacheMap k = none → call ≠ .clear →
    c'.cacheMap k' ≠ none → UsedSince (calls ++ [call]) k k'
  only : ∀ k, c.cacheMap k ≠ none → c'.cacheMap k = none → call = .clear ∨
    ∃ key value update, call = .addKeyValue key value update ∧ c.cacheMap key = none
  holds : ∀ key value update, c.maxSize ≠ 0 → call = .addKeyValue key value update →
    c'.cacheMap key ≠ none

/-- Every call of the sequence returns, every state it reaches is as `Upholds` says, and every call
drops what `Evicts` says. -/
def Keeps (kind : DatabaseCacheKind) (maxSize : ℕ) (calls : List (Call α)) : Prop :=
  ∀ pre, pre <+: calls → ∃ s, Run (steps observe) (start kind maxSize) pre s ∧ Upholds s ∧
    ∀ call s', pre ++ [call] <+: calls → observe s call = some s' →
      Evicts pre s.cache call s'.cache

/-- A value that replaces another has room where that one is. -/
def FitsInPlace (c : DatabaseCache α) : Call α → Prop
  | .addKeyValue key value true => ∀ a record, c.cacheMap key = some a → c.heap a = some record →
      value.length ≤ record.data.value.capacity
  | _ => True

/-- Every update of the sequence fits in place when it is made. -/
def UpdatesFit (kind : DatabaseCacheKind) (maxSize : ℕ) (calls : List (Call α)) : Prop :=
  ∀ pre call s, pre ++ [call] <+: calls → Run (steps observe) (start kind maxSize) pre s →
    FitsInPlace s.cache call

/-! ## The order of use -/

section

variable {calls : List (Call α)} {call : Call α} {k k' : Text}

theorem usedSince_concat_self (hk' : call.key = some k') (hne : k ≠ k') :
    UsedSince (calls ++ [call]) k k' := by
  refine ⟨calls, [call], rfl, ⟨call, List.mem_singleton_self _, hk'⟩, ?_⟩
  intro call' hmem
  rw [List.mem_singleton.mp hmem, hk']
  exact fun heq => hne (Option.some.inj heq).symm

theorem UsedSince.concat (h : UsedSince calls k k') (hk : call.key ≠ some k) :
    UsedSince (calls ++ [call]) k k' := by
  obtain ⟨earlier, later, rfl, ⟨used, hmem, hused⟩, hlater⟩ := h
  refine ⟨earlier, later ++ [call], by simp, ⟨used, List.mem_append_left _ hmem, hused⟩, ?_⟩
  intro call' hmem'
  rcases List.mem_append.mp hmem' with hmem' | hmem'
  · exact hlater call' hmem'
  · rw [List.mem_singleton.mp hmem']
    exact hk

end

/-- The records stand in the order of their use, the last used first. -/
def Recent (calls : List (Call α)) (es : Entries α) : Prop :=
  es.Pairwise fun e e' => UsedSince calls e'.2.key e.2.key

section

variable {kind : DatabaseCacheKind} {maxSize : ℕ} {es es' xs pre post : Entries α}
  {calls : List (Call α)} {call : Call α} {e : ℕ × RecordData α}

theorem ne_key (hkey : e.2.key ∉ keysOf es) {x : ℕ × RecordData α} (hx : x ∈ es) :
    x.2.key ≠ e.2.key := fun heq => hkey (mem_keysOf.mpr ⟨x, hx, heq⟩)

/-- The record that a call uses comes first, before others that were there. -/
theorem Recent.front (h : Recent calls es) (hsub : xs.Sublist es) (hkey : e.2.key ∉ keysOf xs)
    (hcall : call.key = some e.2.key) : Recent (calls ++ [call]) (e :: xs) := by
  refine List.pairwise_cons.mpr ⟨fun x hx => usedSince_concat_self hcall (ne_key hkey hx), ?_⟩
  refine (h.sublist hsub).imp_of_mem ?_
  intro x y _ hy hxy
  refine hxy.concat ?_
  rw [hcall]
  exact fun heq => ne_key hkey hy (Option.some.inj heq).symm

theorem key_not_mem (h : (keysOf (pre ++ e :: post)).Nodup) : e.2.key ∉ keysOf (pre ++ post) := by
  rw [keysOf_append, keysOf_cons] at h
  rw [keysOf_append]
  exact (List.nodup_middle.mp h).notMem

theorem front_subset : e :: pre ++ post ⊆ pre ++ e :: post := List.perm_middle.symm.subset

theorem sublist_middle : (pre ++ post).Sublist (pre ++ e :: post) :=
  List.Sublist.append_left (List.sublist_cons_self _ _) _

theorem Effect.recent (heff : Effect kind maxSize es call es') (hnd : (keysOf es).Nodup)
    (hzero : maxSize = 0 → es = []) (h : Recent calls es) : Recent (calls ++ [call]) es' := by
  cases heff with
  | disabled _ key value update hmax =>
    rw [hzero hmax]
    exact List.Pairwise.nil
  | absent _ key hkey =>
    refine h.imp_of_mem ?_
    intro x y _ hy hxy
    refine hxy.concat fun heq => hkey ?_
    exact mem_keysOf.mpr ⟨y, hy, (Option.some.inj heq).symm⟩
  | found pre e post => exact h.front sublist_middle (key_not_mem hnd) rfl
  | held pre e post value hmax => exact h.front sublist_middle (key_not_mem hnd) rfl
  | updated pre e post value hmax =>
    exact h.front (e := (e.1, updateRecord e.2 value)) sublist_middle
      (key_not_mem (e := e) hnd) rfl
  | added kept dropped a key value update hmax hkey hle =>
    refine h.front (List.sublist_append_left _ _) ?_ rfl
    rw [keysOf_append, List.mem_append, not_or] at hkey
    exact hkey.1
  | cleared => exact List.Pairwise.nil

/-! ## The bound and the values -/

theorem Effect.bounded (heff : Effect kind maxSize es call es')
    (h : 2 ≤ es.length → charged es ≤ maxSize) : 2 ≤ es'.length → charged es' ≤ maxSize := by
  have hmove : ∀ {pre post : Entries α} (e e' : ℕ × RecordData α), e'.2.size = e.2.size →
      (2 ≤ (pre ++ e :: post).length → charged (pre ++ e :: post) ≤ maxSize) →
      2 ≤ (e' :: pre ++ post).length → charged (e' :: pre ++ post) ≤ maxSize := by
    intro pre post e e' hsize h hlen
    have := h (by simpa [Nat.add_assoc] using hlen)
    simp only [List.cons_append, charged_append, charged_cons] at this ⊢
    omega
  cases heff with
  | disabled _ key value update hmax => exact h
  | absent _ key hkey => exact h
  | found pre e post => exact hmove e e rfl h
  | held pre e post value hmax => exact hmove e e rfl h
  | updated pre e post value hmax => exact hmove e (e.1, updateRecord e.2 value) rfl h
  | added kept dropped a key value update hmax hkey hle =>
    intro hlen
    refine hle ?_
    rintro rfl
    exact absurd hlen (by simp)
  | cleared => exact fun hlen => absurd hlen (by simp)

theorem Effect.enabled (heff : Effect kind maxSize es call es') (h : maxSize = 0 → es = [])
    (hzero : maxSize = 0) : es' = [] := by
  have hes := h hzero
  cases heff with
  | disabled _ key value update hmax => exact hes
  | absent _ key hkey => exact hes
  | found pre e post => exact absurd hes (by simp)
  | held pre e post value hmax => exact absurd hzero hmax
  | updated pre e post value hmax => exact absurd hzero hmax
  | added kept dropped a key value update hmax hkey hle => exact absurd hzero hmax
  | cleared => rfl

/-- The records hold what was added last for their keys. -/
def Valued (lastAdded : Text → Option (List α)) (es : Entries α) : Prop :=
  ∀ e ∈ es, lastAdded e.2.key = some e.2.value.elems

theorem Valued.subset {lastAdded : Text → Option (List α)} (h : Valued lastAdded es)
    (hsub : xs ⊆ es) : Valued lastAdded xs := fun e he => h e (hsub he)

/-- The record of the key comes first with the value that was added, before others. -/
theorem Valued.front {lastAdded : Text → Option (List α)} (h : Valued lastAdded es)
    (hsub : xs ⊆ es) (hkey : e.2.key ∉ keysOf xs) :
    Valued (Function.update lastAdded e.2.key (some e.2.value.elems)) (e :: xs) := by
  intro x hx
  rcases List.mem_cons.mp hx with rfl | hx
  · exact Function.update_self _ _ _
  · rw [Function.update_of_ne (ne_key hkey hx)]
    exact h x (hsub hx)

theorem Effect.valued {s : Observed α} (heff : Effect kind maxSize es call es')
    (hrep : Represents s.cache es) (hzero : maxSize = 0 → es = []) (h : Valued s.lastAdded es) :
    Valued (s.addedAfter call) es' := by
  cases heff with
  | disabled _ key value update hmax =>
    rw [hzero hmax]
    exact fun e he => absurd he List.not_mem_nil
  | absent _ key hkey => exact h
  | found pre e post => exact h.subset front_subset
  | held pre e post value hmax =>
    have hmap : s.cache.cacheMap e.2.key ≠ none := by
      rw [Ne, hrep.absent_iff, not_not]
      exact mem_keysOf.mpr ⟨e, by simp, rfl⟩
    unfold Observed.addedAfter
    dsimp only
    rw [if_neg (by simp [hmap])]
    exact h.subset front_subset
  | updated pre e post value hmax =>
    unfold Observed.addedAfter
    dsimp only
    rw [if_pos (Or.inl rfl)]
    exact h.front (e := (e.1, updateRecord e.2 value)) sublist_middle.subset
      (key_not_mem (e := e) hrep.keys)
  | added kept dropped a key value update hmax hkey hle =>
    unfold Observed.addedAfter
    dsimp only
    rw [if_pos (Or.inr (hrep.absent_iff.mpr hkey))]
    rw [keysOf_append, List.mem_append, not_or] at hkey
    exact h.front (e := (a, allocRecord kind key value)) (List.subset_append_left _ _) hkey.1
  | cleared => exact fun e he => absurd he List.not_mem_nil

end

/-! ## Every reachable state -/

/-- What every call keeps, whether its value fits in place or not. -/
structure Reached (calls : List (Call α)) (s : Observed α) (es : Entries α) : Prop where
  rep : Represents s.cache es
  bounded : 2 ≤ es.length → charged es ≤ s.cache.maxSize
  enabled : s.cache.maxSize = 0 → es = []
  valued : Valued s.lastAdded es
  recent : Recent calls es

section

variable {kind : DatabaseCacheKind} {maxSize : ℕ} {es es' : Entries α} {calls : List (Call α)}
  {call : Call α} {s s' : Observed α}

theorem reached_start : Reached [] (start kind maxSize : Observed α) [] where
  rep := by
    refine ⟨⟨rfl, rfl, List.nodup_nil, trivial, fun _ _ => rfl⟩, List.nodup_nil, ?_, rfl, ?_, ?_⟩
    · simp [start, new]
    · exact fun e he => absurd he List.not_mem_nil
    · exact fun e he => absurd he List.not_mem_nil
  bounded hlen := absurd hlen (by simp)
  enabled _ := rfl
  valued e he := absurd he List.not_mem_nil
  recent := List.Pairwise.nil

theorem Reached.observe (h : Reached calls s es) (call : Call α) :
    ∃ s' es', observe s call = some s' ∧ Effect s.cache.kind s.cache.maxSize es call es' ∧
      Reached (calls ++ [call]) s' es' ∧ s'.cache.kind = s.cache.kind ∧
      s'.cache.maxSize = s.cache.maxSize := by
  obtain ⟨c', es', hstep, heff, hrep, hkind, hmax⟩ := step_effect h.rep call
  refine ⟨⟨c', s.addedAfter call⟩, es', ?_, heff, ⟨hrep, ?_, ?_, ?_, ?_⟩, hkind, hmax⟩
  · unfold DatabaseCache.observe
    rw [hstep, Option.map_some]
  · rw [hmax]
    exact heff.bounded h.bounded
  · rw [hmax]
    exact heff.enabled h.enabled
  · exact heff.valued h.rep h.enabled h.valued
  · exact heff.recent h.rep.keys h.enabled h.recent

theorem reached (kind : DatabaseCacheKind) (maxSize : ℕ) (calls : List (Call α)) :
    ∃ s es, Run (steps observe) (start kind maxSize) calls s ∧ Reached calls s es ∧
      s.cache.kind = kind ∧ s.cache.maxSize = maxSize := by
  induction calls using List.reverseRecOn with
  | nil => exact ⟨start kind maxSize, [], rfl, reached_start, rfl, rfl⟩
  | append_singleton calls call ih =>
    obtain ⟨s, es, hrun, hreached, hkind, hmax⟩ := ih
    obtain ⟨s', es', hstep, -, hreached', hkind', hmax'⟩ := hreached.observe call
    exact ⟨s', es', run_concat.mpr ⟨s, hrun, hstep⟩, hreached', hkind'.trans hkind,
      hmax'.trans hmax⟩

/-- A call that drops a key clears the cache, or adds a key that was not held. -/
theorem Effect.dropped (heff : Effect kind maxSize es call es') {k : Text} (hk : k ∈ keysOf es)
    (hnot : k ∉ keysOf es') : call = .clear ∨ ∃ kept dropped e value update,
      call = .addKeyValue e.2.key value update ∧ e.2.key ∉ keysOf es ∧ es = kept ++ dropped ∧
      es' = e :: kept := by
  have hmove : ∀ {pre post : Entries α} (e e' : ℕ × RecordData α), e'.2.key = e.2.key →
      k ∈ keysOf (pre ++ e :: post) → k ∈ keysOf (e' :: pre ++ post) := by
    intro pre post e e' hkey hmem
    simp only [List.cons_append, keysOf_cons, keysOf_append, List.mem_cons, List.mem_append,
      hkey] at hmem ⊢
    tauto
  cases heff with
  | disabled _ key value update hmax => exact absurd hk hnot
  | absent _ key hkey => exact absurd hk hnot
  | found pre e post => exact absurd (hmove e e rfl hk) hnot
  | held pre e post value hmax => exact absurd (hmove e e rfl hk) hnot
  | updated pre e post value hmax =>
    exact absurd (hmove e (e.1, updateRecord e.2 value) rfl hk) hnot
  | added kept dropped a key value update hmax hkey hle =>
    exact Or.inr ⟨kept, dropped, (a, allocRecord kind key value), value, update, rfl, hkey, rfl, rfl⟩
  | cleared => exact Or.inl rfl

/-- The keys that a new one drops were used before those that stay. -/
theorem Recent.dropped {kept dropped : Entries α} (h : Recent calls (kept ++ dropped))
    (hcall : call.key = some e.2.key) (hkey : e.2.key ∉ keysOf (kept ++ dropped)) {k k' : Text}
    (hk : k ∈ keysOf (kept ++ dropped)) (hnot : k ∉ keysOf (e :: kept))
    (hk' : k' ∈ keysOf (e :: kept)) : UsedSince (calls ++ [call]) k k' := by
  have hne : k ≠ e.2.key := fun heq => hkey (heq ▸ hk)
  rw [keysOf_cons, List.mem_cons, not_or] at hnot
  rw [keysOf_append, List.mem_append] at hk
  obtain ⟨x, hx, rfl⟩ := mem_keysOf.mp (hk.resolve_left hnot.2)
  rw [keysOf_cons, List.mem_cons] at hk'
  rcases hk' with rfl | hk'
  · exact usedSince_concat_self hcall hne
  · obtain ⟨y, hy, rfl⟩ := mem_keysOf.mp hk'
    refine ((List.pairwise_append.mp h).2.2 y hy x hx).concat ?_
    rw [hcall]
    exact fun heq => hne (Option.some.inj heq).symm

theorem Reached.evicts (h : Reached calls s es)
    (hstep : DatabaseCache.observe s call = some s') : Evicts calls s.cache call s'.cache := by
  obtain ⟨s₁, es', hstep', heff, h', -, -⟩ := h.observe call
  obtain rfl : s' = s₁ := Option.some.inj (hstep.symm.trans hstep')
  have hin : ∀ k, s.cache.cacheMap k ≠ none ↔ k ∈ keysOf es := fun k => by
    rw [Ne, h.rep.absent_iff, not_not]
  have hin' : ∀ k, s'.cache.cacheMap k ≠ none ↔ k ∈ keysOf es' := fun k => by
    rw [Ne, h'.rep.absent_iff, not_not]
  refine ⟨?_, ?_, ?_⟩
  · intro k k' hk hnot hclear hk'
    rw [hin] at hk
    rw [h'.rep.absent_iff] at hnot
    rw [hin'] at hk'
    obtain hcall | ⟨kept, dropped, e, value, update, rfl, hkey, rfl, rfl⟩ := heff.dropped hk hnot
    · exact absurd hcall hclear
    · exact h.recent.dropped rfl hkey hk hnot hk'
  · intro k hk hnot
    rw [hin] at hk
    rw [h'.rep.absent_iff] at hnot
    obtain hcall | ⟨kept, dropped, e, value, update, rfl, hkey, rfl, rfl⟩ := heff.dropped hk hnot
    · exact Or.inl hcall
    · exact Or.inr ⟨e.2.key, value, update, rfl, h.rep.absent_iff.mpr hkey⟩
  · rintro key value update hmax rfl
    rw [hin']
    cases heff with
    | disabled _ key value update hzero => exact absurd hzero hmax
    | held pre e post value hmax => exact List.mem_cons_self
    | updated pre e post value hmax => exact List.mem_cons_self
    | added kept dropped a key value update hmax hkey hle => exact List.mem_cons_self

/-- `find` returns what was added last for a key that is held. -/
theorem Reached.find (h : Reached calls s es) (key : Text) : ∃ c', s.cache.find key =
    some (c', if s.cache.cacheMap key = none then none else s.lastAdded key) := by
  unfold DatabaseCache.find
  by_cases hzero : s.cache.maxSize = 0
  · have hmap : s.cache.cacheMap key = none := by
      rw [h.rep.absent_iff, h.enabled hzero]
      exact List.not_mem_nil
    rw [if_pos hzero, if_pos hmap]
    exact ⟨_, rfl⟩
  rw [if_neg hzero]
  cases hmap : s.cache.cacheMap key with
  | none =>
    obtain ⟨c', hfind, -⟩ := findKey_absent h.rep (h.rep.absent_iff.mp hmap)
    rw [hfind]
    exact ⟨c', rfl⟩
  | some a =>
    have hrep := h.rep
    obtain ⟨pre, e, post, rfl, -, rfl⟩ := h.rep.split hmap
    obtain ⟨c', hfind, hrep', -⟩ := findKey_found hrep
    have hvalue := h.valued e (by simp)
    rw [hfind, Option.bind_eq_bind, Option.bind_some]
    refine ⟨c', ?_⟩
    simp only [Heap.node_some, hrep'.listed.chain.1, Option.bind_eq_bind, Option.bind_some, hvalue,
      reduceCtorEq, if_false]

end

/-! ## The current size -/

/-- The records have been charged with the sizes that they have. -/
def Exact (kind : DatabaseCacheKind) (es : Entries α) : Prop :=
  ∀ e ∈ es, e.2.size = recordSize kind e.2.key e.2.value

/-- `FitsInPlace`, of the records. -/
def UpdateFits (es : Entries α) (call : Call α) : Prop :=
  ∀ e ∈ es, ∀ value, call = .addKeyValue e.2.key value true → value.length ≤ e.2.value.capacity

section

variable {kind : DatabaseCacheKind} {maxSize : ℕ} {es es' : Entries α} {calls : List (Call α)}
  {call : Call α} {s s' : Observed α} {c : DatabaseCache α}

theorem fitsInPlace_iff (h : Represents c es) : FitsInPlace c call ↔ UpdateFits es call := by
  unfold FitsInPlace UpdateFits
  constructor
  · rintro hfit e he value rfl
    obtain ⟨next, prev, hnode⟩ := h.listed.chain.data he
    exact hfit e.1 _ ((h.map _ _).mpr ⟨e, he, rfl, rfl⟩) hnode
  · intro hfit
    split
    · rintro a record hmap hnode
      obtain ⟨e, he, rfl, rfl⟩ := (h.map _ _).mp hmap
      obtain ⟨next, prev, hnode'⟩ := h.listed.chain.data he
      obtain rfl := Option.some.inj (hnode.symm.trans hnode')
      exact hfit e he _ rfl
    · trivial

/-- An assigned vector has the capacity it had just when the elements fit. -/
theorem recordSize_assign (key : Text) (v : CacheVector α) (value : List α) :
    recordSize kind key (v.assign value) = recordSize kind key v ↔ value.length ≤ v.capacity := by
  unfold recordSize CacheVector.assign
  dsimp only
  have hpos : 0 < kind.sizeofElement := by cases kind <;> decide
  split
  · rename_i hlt
    have := Nat.mul_lt_mul_of_pos_left hlt hpos
    omega
  · rename_i hge
    simpa using Nat.le_of_not_lt hge

theorem Effect.exact (heff : Effect kind maxSize es call es') (h : Exact kind es)
    (hfit : UpdateFits es call) : Exact kind es' := by
  cases heff with
  | disabled _ key value update hmax => exact h
  | absent _ key hkey => exact h
  | found pre e post => exact fun x hx => h x (front_subset hx)
  | held pre e post value hmax => exact fun x hx => h x (front_subset hx)
  | updated pre e post value hmax =>
    intro x hx
    rcases List.mem_cons.mp hx with rfl | hx
    · refine (h e (by simp)).trans ?_
      exact ((recordSize_assign _ _ _).mpr (hfit e (by simp) value rfl)).symm
    · exact h x (front_subset (List.mem_cons_of_mem _ hx))
  | added kept dropped a key value update hmax hkey hle =>
    intro x hx
    rcases List.mem_cons.mp hx with rfl | hx
    · rfl
    · exact h x (List.mem_append_left _ hx)
  | cleared => exact fun x hx => absurd hx List.not_mem_nil

theorem Exact.charged_eq (h : Exact kind es) : charged es = actualSize kind es := by
  unfold charged actualSize
  exact congrArg List.sum (List.map_congr_left h)

theorem actualSize_cons {e : ℕ × RecordData α} :
    actualSize kind (e :: es) = recordSize kind e.2.key e.2.value + actualSize kind es := by
  unfold actualSize
  simp

theorem actualSize_append {pre post : Entries α} :
    actualSize kind (pre ++ post) = actualSize kind pre + actualSize kind post := by
  unfold actualSize
  simp

/-- An update without room for its value changes the size of a record, but not what it was charged
with. -/
theorem Effect.fits (heff : Effect kind maxSize es call es') (hnd : (keysOf es).Nodup)
    (hzero : maxSize = 0 → es = []) (h : charged es = actualSize kind es)
    (h' : charged es' = actualSize kind es') : UpdateFits es call := by
  intro e he value hcall
  cases heff with
  | disabled _ key value' update hmax =>
    rw [hzero hmax] at he
    exact absurd he List.not_mem_nil
  | absent _ key hkey => cases hcall
  | found pre e' post => cases hcall
  | held pre e' post value' hmax => injection hcall with _ _ hupdate; cases hupdate
  | updated pre e' post value' hmax =>
    injection hcall with hkey hvalue
    obtain rfl : e = e' := List.inj_on_of_nodup_map hnd he (by simp) hkey.symm
    subst hvalue
    refine (@recordSize_assign α kind e.2.key _ _).mp ?_
    simp only [List.cons_append, charged_append, charged_cons, actualSize_append, actualSize_cons,
      updateRecord] at h h'
    omega
  | added kept dropped a key value' update hmax hkey hle =>
    injection hcall with heq
    exact absurd (mem_keysOf.mpr ⟨e, he, heq.symm⟩) hkey
  | cleared => cases hcall

/-! ## Every sequence of calls -/

theorem Reached.upholds (h : Reached calls s es) (hexact : Exact s.cache.kind es) : Upholds s where
  list := ⟨es, h.rep.listed, h.rep.keys, h.rep.map, h.rep.size.trans hexact.charged_eq, fun hlen => by
    rw [h.rep.size]
    exact h.bounded hlen⟩
  find := h.find

/-- The list of a state is the only one that its pointers give. -/
theorem Reached.charged_eq (h : Reached calls s es) (hup : Upholds s) :
    charged es = actualSize s.cache.kind es := by
  obtain ⟨es₁, hlisted, -, -, hsize, -⟩ := hup.list
  obtain rfl := h.rep.listed.unique hlisted
  exact h.rep.size.symm.trans hsize

theorem reached_exact (hfit : UpdatesFit kind maxSize calls) :
    ∃ s es, Run (steps observe) (start kind maxSize) calls s ∧ Reached calls s es ∧
      s.cache.kind = kind ∧ Exact kind es := by
  induction calls using List.reverseRecOn with
  | nil => exact ⟨start kind maxSize, [], rfl, reached_start, rfl, fun e he => absurd he List.not_mem_nil⟩
  | append_singleton calls call ih =>
    obtain ⟨s, es, hrun, hreached, hkind, hexact⟩ :=
      ih fun pre call' s hpre => hfit pre call' s (hpre.trans (List.prefix_append _ _))
    obtain ⟨s', es', hstep, heff, hreached', hkind', -⟩ := hreached.observe call
    have hfits := (fitsInPlace_iff hreached.rep).mp (hfit calls call s (List.prefix_refl _) hrun)
    rw [hkind] at heff
    exact ⟨s', es', run_concat.mpr ⟨s, hrun, hstep⟩, hreached', hkind'.trans hkind,
      heff.exact hexact hfits⟩

theorem keeps_of_updatesFit (hfit : UpdatesFit kind maxSize calls) : Keeps kind maxSize calls := by
  intro pre hpre
  obtain ⟨s, es, hrun, hreached, hkind, hexact⟩ :=
    reached_exact fun pre' call s hpre' => hfit pre' call s (hpre'.trans hpre)
  refine ⟨s, hrun, hreached.upholds (by rw [hkind]; exact hexact), ?_⟩
  intro call s' _ hstep
  exact hreached.evicts hstep

theorem updatesFit_of_keeps (h : Keeps kind maxSize calls) : UpdatesFit kind maxSize calls := by
  intro pre call s hpre hrun
  obtain ⟨s₁, es, hrun₁, hreached, -⟩ := reached kind maxSize pre
  obtain rfl := hrun.unique hrun₁
  obtain ⟨s', es', hstep, heff, hreached', hkind', -⟩ := hreached.observe call
  obtain ⟨s₂, hrun₂, hup, -⟩ := h pre ((List.prefix_append _ _).trans hpre)
  obtain rfl := hrun.unique hrun₂
  obtain ⟨s₃, hrun₃, hup', -⟩ := h (pre ++ [call]) hpre
  obtain rfl := hrun₃.unique (run_concat.mpr ⟨s, hrun, hstep⟩)
  have hcharged' := hreached'.charged_eq hup'
  rw [hkind'] at hcharged'
  exact (fitsInPlace_iff hreached.rep).mpr
    (heff.fits hreached.rep.keys hreached.enabled (hreached.charged_eq hup) hcharged')

end

/-- The cache is right in all states of a sequence of calls if and only if every update of a held key
fits where the value before it is. -/
theorem keeps_iff (kind : DatabaseCacheKind) (maxSize : ℕ) (calls : List (Call α)) :
    Keeps kind maxSize calls ↔ UpdatesFit kind maxSize calls :=
  ⟨updatesFit_of_keeps, keeps_of_updatesFit⟩

/-- An update by a longer value, after which the current size is too small. -/
theorem not_keeps : ¬ ∀ (kind : DatabaseCacheKind) (maxSize : ℕ) (calls : List (Call ℕ)),
    Keeps kind maxSize calls := by
  intro h
  have hfit := updatesFit_of_keeps
    (h .mt 1000 [.addKeyValue [49] [7] false, .addKeyValue [49] [7, 8] true])
  have hfits := hfit [.addKeyValue [49] [7] false] (.addKeyValue [49] [7, 8] true) _
    (List.prefix_refl _) (run_steps_iff.mpr rfl)
  exact absurd (hfits 0 ⟨⟨[49], ⟨[7], 1⟩, 224⟩, none, none⟩ rfl rfl) (by decide)

end ZkevmProver.DatabaseCache
