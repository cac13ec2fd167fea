import ZkevmProver.HashDB.AssociativeCacheRing

/-!
# Runs of the associative cache

What the calls so far say about a key (`valueOf`), and what the cache returns for it.  The sizes
that `postConstruct` admits go further than its 32-bit arithmetic: from 2^29 slots on the arrays
are shorter than the ring.

  1. The value of a key, and the calls that the cache is made for.
  2. The arrays hold 2^28 slots, and not 2^30.
  3. `findKey_run`: every run.
-/

namespace ZkevmProver

namespace AssociativeCache

open RingWindow

/-! ## The calls so far -/

/-- The value that a key was last added with update set; the last call comes first. -/
def lastUpdate (key : CacheKey) : List Call → Option (List Fe)
  | [] => none
  | .findKey _ :: before => lastUpdate key before
  | .addKeyValue key' value update :: before =>
    if key' = key ∧ update = true then some value else lastUpdate key before

/-- The value that a key was last added with. -/
def lastAdded (key : CacheKey) : List Call → Option (List Fe)
  | [] => none
  | .findKey _ :: before => lastAdded key before
  | .addKeyValue key' value _ :: before => if key' = key then some value else lastAdded key before

/-- The most recent value added with update set, or the only one. -/
def valueOf (key : CacheKey) (calls : List Call) : Option (List Fe) :=
  (lastUpdate key calls).or (lastAdded key calls)

/-- The keys that took a new slot, the last one first. -/
def insertions (c₀ : Cache) : List Call → List CacheKey
  | [] => []
  | .findKey _ :: before => insertions c₀ before
  | .addKeyValue key _ _ :: before =>
    match c₀.calls before >>= fun c => c.findKey key with
    | .ok none => key :: insertions c₀ before
    | _ => insertions c₀ before

/-- A node is added: a new key finds room in the arrays, and without update the value is the one
that the key has already. -/
structure AddOk (c : Cache) (before : List Call) (key : CacheKey) (value : List Fe)
    (update : Bool) : Prop where
  node : ∃ elements, Cache.storedValue value = some elements
  room : c.findKey key = .ok none → c.Fits (c.currentCacheIndex % c.cacheSize)
  same : update = false → ∀ v, valueOf key before = some v → v = value

/-- Every call of a run meets its condition. -/
def RunOk (c₀ : Cache) : List Call → Prop
  | [] => True
  | .findKey _ :: before => RunOk c₀ before
  | .addKeyValue key value update :: before =>
    RunOk c₀ before ∧ ∀ c, c₀.calls before = .ok c → AddOk c before key value update

section ValueOf

variable {key key' : CacheKey} {value : List Fe} {update : Bool} {before : List Call}

theorem valueOf_of_ne (h : key' ≠ key) :
    valueOf key (.addKeyValue key' value update :: before) = valueOf key before := by
  simp [valueOf, lastUpdate, lastAdded, h]

/-- An added value is the value of its key. -/
theorem valueOf_self (h : update = false → ∀ v, valueOf key before = some v → v = value) :
    valueOf key (.addKeyValue key value update :: before) = some value := by
  cases update with
  | true => simp [valueOf, lastUpdate]
  | false =>
    have hsame := h rfl
    simp only [valueOf, lastUpdate, lastAdded, if_true] at hsame ⊢
    cases hlast : lastUpdate key before with
    | none => simp
    | some v =>
      rw [hlast] at hsame
      simpa using hsame v rfl

end ValueOf

/-! ## Room in the arrays -/

/-- Up to 2^28 slots every slot has its cells. -/
theorem fits_of_le {c : Cache} {k : ℕ} (hsize : c.cacheSize = 2 ^ k) (hk : k ≤ 28) {s : ℕ}
    (hs : s < c.cacheSize) : c.Fits s := by
  have hle : c.cacheSize ≤ 2 ^ 28 := hsize ▸ Nat.pow_le_pow_right (by decide) hk
  unfold Cache.Fits Cache.keysLength Cache.valuesLength u32
  omega

/-- A store changes neither the size of the ring nor the next number. -/
theorem store_frame {c c' : Cache} {s : ℕ} {key : CacheKey} {value : List Fe}
    (h : c.store s key value = .ok c') :
    c'.cacheSize = c.cacheSize ∧ c'.currentCacheIndex = c.currentCacheIndex := by
  unfold Cache.store at h
  cases hvalue : Cache.storedValue value with
  | none =>
    rw [hvalue] at h
    cases h
  | some elements =>
    simp only [hvalue] at h
    split_ifs at h
    obtain rfl := Except.ok.inj h
    exact ⟨rfl, rfl⟩

theorem forcedInsertion_frame (iters : ℕ) : ∀ {c c' : Cache} {raw : ℕ} {used : List ℕ},
    c.forcedInsertion iters raw used = .ok c' →
      c'.cacheSize = c.cacheSize ∧ c'.currentCacheIndex = c.currentCacheIndex := by
  induction iters with
  | zero =>
    intro c c' raw used h
    cases h
  | succ iters ih =>
    intro c c' raw used h
    unfold Cache.forcedInsertion at h
    dsimp only at h
    split_ifs at h
    split at h
    · obtain rfl := Except.ok.inj h
      exact ⟨rfl, rfl⟩
    · cases h
    · obtain ⟨hsize, hcurrent⟩ := ih h
      exact ⟨hsize, hcurrent⟩

theorem bind_eq_ok {α β : Type} {x : Except Failure α} {f : α → Except Failure β} {b : β}
    (h : x >>= f = .ok b) : ∃ a, x = .ok a ∧ f a = .ok b := by
  cases x with
  | error e => cases h
  | ok a => exact ⟨a, rfl, h⟩

theorem addKeyValue_cacheSize {c c' : Cache} {key : CacheKey} {value : List Fe} {update : Bool}
    (h : c.addKeyValue key value update = .ok c') : c'.cacheSize = c.cacheSize := by
  obtain ⟨r, -, h⟩ := bind_eq_ok h
  cases r with
  | present s =>
    cases update with
    | false =>
      obtain rfl := Except.ok.inj h
      rfl
    | true => exact (store_frame h).1
  | absent empty =>
    obtain ⟨c₂, hstore, h⟩ := bind_eq_ok h
    cases empty with
    | some t =>
      obtain rfl := Except.ok.inj h
      exact (store_frame hstore).1
    | none => exact (forcedInsertion_frame 9 h).1.trans (store_frame hstore).1

theorem calls_cacheSize {c₀ : Cache} : ∀ {calls : List Call} {c : Cache},
    c₀.calls calls = .ok c → c.cacheSize = c₀.cacheSize := by
  intro calls
  induction calls with
  | nil =>
    intro c h
    obtain rfl := Except.ok.inj h
    rfl
  | cons call before ih =>
    intro c h
    obtain ⟨c₁, hbefore, h⟩ := bind_eq_ok h
    cases call with
    | findKey key =>
      change (c₁.findKey key).map (fun _ => c₁) = .ok c at h
      cases hfind : c₁.findKey key with
      | error e =>
        rw [hfind] at h
        cases h
      | ok r =>
        rw [hfind] at h
        obtain rfl := Except.ok.inj h
        exact ih hbefore
    | addKeyValue key value update => exact (addKeyValue_cacheSize h).trans (ih hbefore)

/-- Nodes are added, and without update only with the value that their key has already. -/
def NodesOk : List Call → Prop
  | [] => True
  | .findKey _ :: before => NodesOk before
  | .addKeyValue key value update :: before =>
    NodesOk before ∧ (∃ elements, Cache.storedValue value = some elements) ∧
      (update = false → ∀ v, valueOf key before = some v → v = value)

/-- Up to 2^28 slots there is nothing else to ask for. -/
theorem runOk_of_le {c₀ : Cache} {k : ℕ} (hsize : c₀.cacheSize = 2 ^ k) (hk : k ≤ 28) :
    ∀ {calls : List Call}, NodesOk calls → RunOk c₀ calls := by
  intro calls
  induction calls with
  | nil => exact fun _ => trivial
  | cons call before ih =>
    cases call with
    | findKey key => exact ih
    | addKeyValue key value update =>
      rintro ⟨hbefore, hnode, hsame⟩
      refine ⟨ih hbefore, fun c hc => ⟨hnode, fun _ => ?_, hsame⟩⟩
      have hcache := (calls_cacheSize hc).trans hsize
      exact fits_of_le hcache hk (Nat.mod_lt _ (hcache ▸ Nat.two_pow_pos k))

/-- A ring of 2^30 slots has no room for a key: its array has no cells. -/
theorem addKeyValue_out_of_bounds :
    (postConstruct 10 30 (fun _ => 0) (fun _ => 0) >>= fun c =>
      c.calls [.addKeyValue ⟨1, 2, 3, 4⟩ [0, 0, 0, 0, 0, 0, 0, 0] false]) =
        .error .undefinedBehaviour := by
  rfl

/-! ## Every run -/

/-- The keys of the insertions, the last one first. -/
def keysOf (E : ℕ → CacheKey × List Fe) : ℕ → List CacheKey
  | 0 => []
  | n + 1 => (E n).1 :: keysOf E n

theorem mem_take_keysOf {E : ℕ → CacheKey × List Fe} {key : CacheKey} :
    ∀ {n C : ℕ}, key ∈ (keysOf E n).take C → ∃ m, Live C n m ∧ (E m).1 = key := by
  intro n
  induction n with
  | zero =>
    intro C h
    simp [keysOf] at h
  | succ n ih =>
    intro C h
    cases C with
    | zero => simp at h
    | succ C =>
      rw [keysOf, List.take_succ_cons] at h
      obtain rfl | h := List.mem_cons.mp h
      · exact ⟨n, ⟨Nat.lt_succ_self n, by omega⟩, rfl⟩
      · obtain ⟨m, ⟨hlt, hwin⟩, hkey⟩ := ih h
        exact ⟨m, ⟨hlt.trans (Nat.lt_succ_self n), by omega⟩, hkey⟩

theorem keysOf_congr {E E' : ℕ → CacheKey × List Fe} {n : ℕ} (h : ∀ m < n, (E' m).1 = (E m).1) :
    keysOf E' n = keysOf E n := by
  induction n with
  | zero => rfl
  | succ n ih =>
    rw [keysOf, keysOf, h n (Nat.lt_succ_self n), ih fun m hm => h m (hm.trans (Nat.lt_succ_self n))]

/-- The cache holds what a run of calls says. -/
structure Holds (c₀ : Cache) (calls : List Call) (c : Cache) (n : ℕ)
    (E : ℕ → CacheKey × List Fe) : Prop where
  inv : Cache.Inv c n E
  size : c.cacheSize = c₀.cacheSize
  value : ∀ m, Live c.cacheSize n m →
    ∃ v, valueOf (E m).1 calls = some v ∧ Cache.storedValue v = some (E m).2
  keys : insertions c₀ calls = keysOf E n

section Steps

variable {c₀ c : Cache} {calls : List Call} {n : ℕ} {E : ℕ → CacheKey × List Fe}

theorem Holds.findKey (h : Holds c₀ calls c n E) (key : CacheKey) :
    Holds c₀ (.findKey key :: calls) c n E :=
  ⟨h.inv, h.size, h.value, h.keys⟩

/-- `findKey` misses exactly when no live insertion has the key. -/
theorem Holds.findKey_none (h : Holds c₀ calls c n E) (key : CacheKey) :
    c.findKey key = .ok none ↔ ∀ m, Live c.cacheSize n m → (E m).1 ≠ key := by
  obtain ⟨m, hm, hkey, hfind⟩ | ⟨habsent, hfind⟩ := h.inv.findKey key
  · rw [hfind]
    exact iff_of_false (by simp) fun habsent => habsent m hm hkey
  · exact iff_of_true hfind habsent

/-- A call of `addKeyValue` keeps what the cache holds. -/
theorem Holds.addKeyValue (h : Holds c₀ calls c n E) (hcalls : c₀.calls calls = .ok c)
    {key : CacheKey} {value : List Fe} {update : Bool}
    (hok : AddOk c calls key value update) :
    c.addKeyValue key value update = .error .exitProcess ∨
      ∃ c' n' E', c.addKeyValue key value update = .ok c' ∧
        Holds c₀ (.addKeyValue key value update :: calls) c' n' E' := by
  obtain ⟨elements, helements⟩ := hok.node
  have hself := valueOf_self hok.same
  have hroom : (∀ m, Live c.cacheSize n m → (E m).1 ≠ key) → c.Fits (n % c.cacheSize) := by
    intro habsent
    have hfits := hok.room ((h.findKey_none key).mpr habsent)
    rwa [h.inv.current, h.inv.sized.slot_mod] at hfits
  -- every other live key keeps its value
  have hother {m : ℕ} (hm : Live c.cacheSize n m) (hne : (E m).1 ≠ key) :
      ∃ v, valueOf (E m).1 (.addKeyValue key value update :: calls) = some v ∧
        Cache.storedValue v = some (E m).2 := by
    rw [valueOf_of_ne hne.symm]
    exact h.value m hm
  have hlog : insertions c₀ (.addKeyValue key value update :: calls) =
      if c.findKey key = .ok none then key :: insertions c₀ calls else insertions c₀ calls := by
    show (match c₀.calls calls >>= fun c => c.findKey key with
      | .ok none => key :: insertions c₀ calls
      | _ => insertions c₀ calls) = _
    rw [hcalls]
    show (match c.findKey key with
      | .ok none => key :: insertions c₀ calls
      | _ => insertions c₀ calls) = _
    split
    · rename_i heq
      rw [if_pos heq]
    · rename_i hne
      rw [if_neg fun heq => hne heq]
  obtain hexit | ⟨c', n', E', hadd, hinv, hsize, hadded⟩ := h.inv.addKeyValue helements update hroom
  · exact Or.inl hexit
  · refine Or.inr ⟨c', n', E', hadd, hinv, hsize.trans h.size, ?_, ?_⟩
    · rw [hsize]
      cases hadded with
      | kept m₀ hm₀ hkey₀ hupdate =>
        intro m hm
        by_cases hne : (E m).1 = key
        · obtain ⟨v, hv, hstored⟩ := h.value m hm
          rw [hne] at hv ⊢
          obtain rfl := hok.same hupdate v hv
          exact ⟨v, hself, hstored⟩
        · exact hother hm hne
      | updated m₀ hm₀ hkey₀ hupdate =>
        intro m hm
        by_cases hmm : m = m₀
        · subst hmm
          rw [Function.update_self]
          exact ⟨value, hself, helements⟩
        · rw [Function.update_of_ne hmm]
          exact hother hm fun heq => hmm (h.inv.distinct m m₀ hm hm₀ (heq.trans hkey₀.symm))
      | inserted habsent =>
        intro m hm
        by_cases hmn : m = n
        · subst hmn
          rw [Function.update_self]
          exact ⟨value, hself, helements⟩
        · rw [Function.update_of_ne hmn]
          exact hother (hm.of_succ hmn) (habsent m (hm.of_succ hmn))
    · rw [hlog, h.keys]
      have hmiss := h.findKey_none key
      cases hadded with
      | kept m₀ hm₀ hkey₀ hupdate =>
        rw [if_neg fun heq => hmiss.mp heq m₀ hm₀ hkey₀]
      | updated m₀ hm₀ hkey₀ hupdate =>
        rw [if_neg fun heq => hmiss.mp heq m₀ hm₀ hkey₀]
        refine (keysOf_congr fun m _ => ?_).symm
        by_cases hmm : m = m₀
        · rw [hmm, Function.update_self, hkey₀]
        · rw [Function.update_of_ne hmm]
      | inserted habsent =>
        rw [if_pos (hmiss.mpr habsent), keysOf, Function.update_self]
        congr 1
        exact (keysOf_congr fun m hm => by rw [Function.update_of_ne hm.ne]).symm

end Steps

/-- A fresh cache holds nothing. -/
theorem holds_postConstruct {log2IndexesSize log2CacheSize : ℕ} {keys : ℕ → ℕ} {values : ℕ → Fe}
    {c₀ : Cache} (h : postConstruct log2IndexesSize log2CacheSize keys values = .ok c₀) :
    Holds c₀ [] c₀ 0 fun _ => (⟨0, 0, 0, 0⟩, []) := by
  have hshift {n m : ℕ} (h : shiftOne n = .ok m) : n < 32 ∧ m = 2 ^ n := by
    unfold shiftOne at h
    split_ifs at h with hn
    exact ⟨Nat.lt_of_not_le hn, (Except.ok.inj h).symm⟩
  unfold postConstruct at h
  split_ifs at h with hindexes hcache
  · cases hI : shiftOne log2IndexesSize with
    | error e =>
      rw [hI] at h
      cases h
    | ok indexesSize =>
      rw [hI] at h
      cases h
  · cases hI : shiftOne log2IndexesSize with
    | error e =>
      rw [hI] at h
      cases h
    | ok indexesSize =>
      cases hC : shiftOne log2CacheSize with
      | error e =>
        rw [hI, hC] at h
        cases h
      | ok cacheSize =>
        rw [hI, hC] at h
        obtain rfl := Except.ok.inj h
        obtain ⟨hk, rfl⟩ := hshift hI
        obtain ⟨hk', rfl⟩ := hshift hC
        refine ⟨⟨⟨⟨log2IndexesSize, hk, rfl⟩, ⟨log2CacheSize, hk', rfl⟩⟩, rfl, ?_, ?_, ?_, ?_,
          fun t => Or.inl rfl, ?_⟩, rfl, ?_, rfl⟩
        all_goals first
          | exact fun m hm => absurd hm (not_live_zero _ m)
          | exact fun m _ hm _ _ => absurd hm (not_live_zero _ m)

/-- **Every run.**  A run of calls that meet their conditions goes on until the process exits; a key
that is looked for then is missed, or its value is returned, and it is not missed when it is among
the last `cacheSize` keys that took a slot. -/
theorem findKey_run {log2IndexesSize log2CacheSize : ℕ} {keys : ℕ → ℕ} {values : ℕ → Fe}
    {c₀ : Cache} (hpost : postConstruct log2IndexesSize log2CacheSize keys values = .ok c₀)
    {calls : List Call} (hcalls : RunOk c₀ calls) :
    c₀.calls calls = .error .exitProcess ∨ ∃ c, c₀.calls calls = .ok c ∧ ∀ key,
      (c.findKey key = .ok none ∨ ∃ v elements, valueOf key calls = some v ∧
        Cache.storedValue v = some elements ∧ c.findKey key = .ok (some elements)) ∧
      (key ∈ (insertions c₀ calls).take c.cacheSize → c.findKey key ≠ .ok none) := by
  have hrun : c₀.calls calls = .error .exitProcess ∨ ∃ c n E, c₀.calls calls = .ok c ∧
      Holds c₀ calls c n E := by
    induction calls with
    | nil => exact Or.inr ⟨c₀, 0, _, rfl, holds_postConstruct hpost⟩
    | cons call before ih =>
      cases call with
      | findKey key =>
        obtain hexit | ⟨c, n, E, hc, hholds⟩ := ih hcalls
        · left
          rw [Cache.calls, hexit]
          rfl
        · refine Or.inr ⟨c, n, E, ?_, hholds.findKey key⟩
          rw [Cache.calls, hc]
          show (c.findKey key).map (fun _ => c) = .ok c
          obtain ⟨m, -, -, hfind⟩ | ⟨-, hfind⟩ := hholds.inv.findKey key
          all_goals
            rw [hfind]
            rfl
      | addKeyValue key value update =>
        obtain hexit | ⟨c, n, E, hc, hholds⟩ := ih hcalls.1
        · left
          rw [Cache.calls, hexit]
          rfl
        · rw [Cache.calls, hc]
          obtain hexit | ⟨c', n', E', hadd, hholds'⟩ := hholds.addKeyValue hc (hcalls.2 c hc)
          · exact Or.inl hexit
          · exact Or.inr ⟨c', n', E', hadd, hholds'⟩
  obtain hexit | ⟨c, n, E, hc, hholds⟩ := hrun
  · exact Or.inl hexit
  · refine Or.inr ⟨c, hc, fun key => ⟨?_, fun hkey hmiss => ?_⟩⟩
    · obtain ⟨m, hm, rfl, hfind⟩ | ⟨-, hfind⟩ := hholds.inv.findKey key
      · obtain ⟨v, hv, hstored⟩ := hholds.value m hm
        exact Or.inr ⟨v, (E m).2, hv, hstored, hfind⟩
      · exact Or.inl hfind
    · rw [hholds.keys] at hkey
      obtain ⟨m, hm, hkey⟩ := mem_take_keysOf hkey
      exact (hholds.findKey_none key).mp hmiss m hm hkey

/-- A ring of sixteen slots, and the key of the state root. -/
theorem findKey_run_sample :
    let root : CacheKey := ⟨2 ^ 64 - 1, 2 ^ 64 - 1, 2 ^ 64 - 1, 2 ^ 64 - 1⟩
    let value : List Fe := [1, 0, 0, 0, 0, 0, 0, 0]
    ∃ c₀ c, postConstruct 4 4 (fun _ => 0) (fun _ => 0) = .ok c₀ ∧
      c₀.calls [.addKeyValue root value true] = .ok c ∧
        c.findKey root = .ok (some (value ++ [0, 0, 0, 0])) := by
  intro root value
  have hnodes : NodesOk [.addKeyValue root value true] := ⟨trivial, ⟨_, rfl⟩, by simp⟩
  obtain ⟨c₀, hpost, hsize, c, hc, hkeys⟩ : ∃ c₀, postConstruct 4 4 (fun _ => 0) (fun _ => 0) =
      .ok c₀ ∧ c₀.cacheSize = 2 ^ 4 ∧ ∃ c, c₀.calls [.addKeyValue root value true] = .ok c ∧
        insertions c₀ [.addKeyValue root value true] = [root] :=
    ⟨_, rfl, rfl, _, rfl, rfl⟩
  refine ⟨c₀, c, hpost, hc, ?_⟩
  obtain hexit | ⟨c', hc', hfind⟩ := findKey_run hpost (runOk_of_le hsize (by decide) hnodes)
  · rw [hc] at hexit
    cases hexit
  · obtain rfl := Except.ok.inj (hc.symm.trans hc')
    obtain ⟨hvalue, hrecent⟩ := hfind root
    have hfound : c.findKey root ≠ .ok none := by
      refine hrecent ?_
      rw [hkeys, calls_cacheSize hc, hsize]
      simp
    obtain hmiss | ⟨v, elements, hv, hstored, hfind⟩ := hvalue
    · exact absurd hmiss hfound
    · obtain rfl : value = v := Option.some.inj hv
      rw [hfind, ← Option.some.inj hstored]

end AssociativeCache

end ZkevmProver
