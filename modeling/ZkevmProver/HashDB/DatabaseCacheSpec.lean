import ZkevmProver.HashDB.DatabaseCacheList
import Mathlib.Algebra.BigOperators.Group.List.Basic
import Mathlib.Algebra.Order.BigOperators.Group.List

/-!
# What the calls of the database cache do

The records of a cache, in the order of its list, and what each call does to them.

  1. The records that a cache holds: `Represents`.
  2. `findKey`: the record moves to the head.
  3. `removeLast`: what stays is the start of the list.
  4. Every call returns, and has one of the effects of `Effect`: `step_effect`.
-/

namespace ZkevmProver.DatabaseCache

open LinkedRecords

variable {α : Type}

/-! ## The records of a cache -/

abbrev Entries (α : Type) := List (ℕ × RecordData α)

def keysOf (es : Entries α) : List Text := es.map fun e => e.2.key

/-- What the records have been charged with. -/
def charged (es : Entries α) : ℕ := (es.map fun e => e.2.size).sum

/-- The records of the list, from the head to the last, are those of the map, each once. -/
structure Represents (c : DatabaseCache α) (es : Entries α) : Prop where
  listed : Listed c.heap c.head c.last es
  keys : (keysOf es).Nodup
  map : ∀ key a, c.cacheMap key = some a ↔ ∃ e ∈ es, e.1 = a ∧ e.2.key = key
  size : c.currentSize = charged es
  fresh : ∀ e ∈ es, e.1 < c.fresh
  positive : ∀ e ∈ es, 0 < e.2.size

section

variable {c : DatabaseCache α} {es pre post : Entries α} {e : ℕ × RecordData α} {key : Text}

@[simp] theorem keysOf_cons : keysOf (e :: es) = e.2.key :: keysOf es := rfl

@[simp] theorem keysOf_append : keysOf (pre ++ post) = keysOf pre ++ keysOf post := by
  unfold keysOf
  exact List.map_append

@[simp] theorem charged_nil : charged ([] : Entries α) = 0 := rfl

@[simp] theorem charged_cons : charged (e :: es) = e.2.size + charged es := by
  unfold charged
  simp

@[simp] theorem charged_append : charged (pre ++ post) = charged pre + charged post := by
  unfold charged
  simp

theorem mem_keysOf : key ∈ keysOf es ↔ ∃ e ∈ es, e.2.key = key := by
  unfold keysOf
  exact List.mem_map

theorem length_le_charged (h : ∀ e ∈ es, 0 < e.2.size) : es.length ≤ charged es := by
  unfold charged
  have hle := List.length_le_sum_of_one_le (es.map fun e => e.2.size) (by
    intro n hn
    obtain ⟨e, he, rfl⟩ := List.mem_map.mp hn
    exact h e he)
  rwa [List.length_map] at hle

/-- The key is in the map when it is in the list. -/
theorem Represents.absent_iff (h : Represents c es) : c.cacheMap key = none ↔ key ∉ keysOf es := by
  constructor
  · intro hnone hmem
    obtain ⟨e, he, hkey⟩ := mem_keysOf.mp hmem
    rw [(h.map key e.1).mpr ⟨e, he, rfl, hkey⟩] at hnone
    cases hnone
  · intro hnot
    cases hmap : c.cacheMap key with
    | none => rfl
    | some a =>
      obtain ⟨e, he, -, hkey⟩ := (h.map key a).mp hmap
      exact absurd (mem_keysOf.mpr ⟨e, he, hkey⟩) hnot

theorem Represents.split (h : Represents c es) {a : ℕ} (hmap : c.cacheMap key = some a) :
    ∃ pre e post, es = pre ++ e :: post ∧ e.1 = a ∧ e.2.key = key := by
  obtain ⟨e, he, ha, hkey⟩ := (h.map key a).mp hmap
  obtain ⟨pre, post, rfl⟩ := List.append_of_mem he
  exact ⟨pre, e, post, rfl, ha, hkey⟩

/-! ## `findKey` -/

/-- The same records in another order of the list. -/
theorem Represents.perm (h : Represents c es) {es' : Entries α} (hperm : es'.Perm es)
    {heap : Heap (RecordData α)} {head last : Option ℕ} (hlisted : Listed heap head last es')
    (attempts hits : ℕ) :
    Represents { c with heap := heap, head := head, last := last, attempts := attempts, hits := hits }
      es' where
  listed := hlisted
  keys := (hperm.map _).nodup_iff.mpr h.keys
  map key a := by
    rw [h.map key a]
    simp only [hperm.mem_iff]
  size := by
    rw [h.size]
    exact ((hperm.map _).sum_eq).symm
  fresh e he := h.fresh e (hperm.mem_iff.mp he)
  positive e he := h.positive e (hperm.mem_iff.mp he)

theorem findKey_absent (h : Represents c es) (hkey : key ∉ keysOf es) :
    ∃ c', c.findKey key = some (c', none) ∧ Represents c' es ∧ c'.kind = c.kind ∧
      c'.maxSize = c.maxSize := by
  refine ⟨{ c with attempts := c.attempts + 1 }, ?_, h.perm (List.Perm.refl _) h.listed _ _, rfl, rfl⟩
  unfold findKey
  simp only [h.absent_iff.mpr hkey]

/-- The record that is found moves to the head. -/
theorem findKey_found (h : Represents c (pre ++ e :: post)) :
    ∃ c', c.findKey e.2.key = some (c', some e.1) ∧ Represents c' (e :: pre ++ post) ∧
      c'.kind = c.kind ∧ c'.maxSize = c.maxSize := by
  have hmap : c.cacheMap e.2.key = some e.1 := (h.map _ _).mpr ⟨e, by simp, rfl, rfl⟩
  have hperm : (e :: pre ++ post).Perm (pre ++ e :: post) := List.perm_middle.symm
  unfold findKey
  simp only [hmap]
  by_cases hhead : c.head = some e.1
  · have hpre : pre = [] := by
      cases pre with
      | nil => rfl
      | cons x pre =>
        have hx : some x.1 = some e.1 := h.listed.head_eq.symm.trans hhead
        have hnd : (addresses ((x :: pre) ++ e :: post)).Nodup := h.listed.nodup
        exact absurd (Option.some.inj hx)
          (addresses_ne hnd List.mem_cons_self List.mem_cons_self)
    subst hpre
    rw [if_pos hhead]
    exact ⟨_, rfl, h.perm hperm h.listed _ _, rfl, rfl⟩
  · have hpre : pre ≠ [] := by
      rintro rfl
      exact hhead h.listed.head_eq
    obtain ⟨heap₁, heap₂, last', hremove, hput, hlisted⟩ := move_listed h.listed hpre
    rw [if_neg hhead, hremove, Option.bind_eq_bind, Option.bind_some, hput, Option.bind_eq_bind,
      Option.bind_some]
    exact ⟨_, rfl, h.perm hperm hlisted _ _, rfl, rfl⟩

/-! ## New records, and the records at the end -/

theorem addRecord_spec (h : Represents c es) (hkey : key ∉ keysOf es) (value : List α) :
    ∃ c' a, c.addRecord key value = some c' ∧
      Represents c' ((a, allocRecord c.kind key value) :: es) ∧ c'.kind = c.kind ∧
      c'.maxSize = c.maxSize := by
  have hfresh : c.fresh ∉ addresses es := by
    intro hmem
    obtain ⟨e, he, heq⟩ := List.mem_map.mp hmem
    exact absurd heq (Nat.ne_of_lt (h.fresh e he))
  obtain ⟨heap', last', hlink, hlisted⟩ :=
    linkRecord_listed h.listed hfresh (allocRecord c.kind key value)
  unfold addRecord
  simp only [hlink, Option.bind_eq_bind, Option.bind_some]
  refine ⟨_, c.fresh, rfl, ?_, rfl, rfl⟩
  refine ⟨hlisted, List.nodup_cons.mpr ⟨hkey, h.keys⟩, ?_, ?_, ?_, ?_⟩
  · intro k a
    by_cases hk : k = key
    · subst hk
      simp only [Function.update_self, List.exists_mem_cons_iff]
      constructor
      · intro ha
        exact Or.inl ⟨Option.some.inj ha, rfl⟩
      · rintro (⟨ha, -⟩ | ⟨e, he, -, heq⟩)
        · exact congrArg some ha
        · exact absurd (mem_keysOf.mpr ⟨e, he, heq⟩) hkey
    · simp only [Function.update_of_ne hk, List.exists_mem_cons_iff, h.map k a]
      constructor
      · exact Or.inr
      · rintro (⟨-, heq⟩ | he)
        · exact absurd heq.symm hk
        · exact he
  · change c.currentSize + _ = _
    rw [charged_cons, h.size, Nat.add_comm]
  · intro e he
    rcases List.mem_cons.mp he with rfl | he
    · exact Nat.lt_succ_self _
    · exact Nat.lt_succ_of_lt (h.fresh e he)
  · intro e he
    rcases List.mem_cons.mp he with rfl | he
    · unfold allocRecord recordSize sizeofVector
      dsimp only
      omega
    · exact h.positive e he

/-- The list without its last record. -/
theorem Represents.dropLast (h : Represents c (es ++ [e])) {heap : Heap (RecordData α)}
    {last : Option ℕ} (hlisted : Listed heap c.head last es) :
    Represents { c with
      last := last
      cacheMap := Function.update c.cacheMap e.2.key none
      currentSize := c.currentSize - e.2.size
      heap := heap } es where
  listed := hlisted
  keys := by
    have hkeys := h.keys
    rw [keysOf_append] at hkeys
    exact (List.nodup_append.mp hkeys).1
  map key a := by
    have hkeys := h.keys
    rw [keysOf_append] at hkeys
    change Function.update c.cacheMap e.2.key none key = some a ↔ _
    by_cases hk : key = e.2.key
    · subst hk
      rw [Function.update_self]
      constructor
      · rintro ⟨⟩
      · rintro ⟨e', he', -, heq⟩
        exact absurd rfl ((List.nodup_append.mp hkeys).2.2 _ (mem_keysOf.mpr ⟨e', he', heq⟩) _
          List.mem_cons_self)
    · rw [Function.update_of_ne hk, h.map key a]
      constructor
      · rintro ⟨e', he', ha, heq⟩
        rcases List.mem_append.mp he' with he' | he'
        · exact ⟨e', he', ha, heq⟩
        · rw [List.mem_singleton.mp he'] at heq
          exact absurd heq.symm hk
      · rintro ⟨e', he', ha, heq⟩
        exact ⟨e', List.mem_append_left _ he', ha, heq⟩
  size := by
    change c.currentSize - e.2.size = charged es
    rw [h.size, charged_append, charged_cons, charged_nil, Nat.add_zero, Nat.add_sub_cancel]
  fresh e' he' := h.fresh e' (List.mem_append_left _ he')
  positive e' he' := h.positive e' (List.mem_append_left _ he')

/-- The start of the list stays, of which the head is a part, and no more than one record of it is
above the maximum size. -/
theorem removeLast_spec (h : Represents c es) (hes : es ≠ []) {fuel : ℕ} (hfuel : es.length ≤ fuel) :
    ∃ c' kept dropped, removeLast fuel c = some c' ∧ es = kept ++ dropped ∧ kept ≠ [] ∧
      Represents c' kept ∧ (2 ≤ kept.length → charged kept ≤ c.maxSize) ∧
      c'.kind = c.kind ∧ c'.maxSize = c.maxSize := by
  induction fuel generalizing c es with
  | zero => exact absurd (List.length_eq_zero_iff.mp (Nat.le_zero.mp hfuel)) hes
  | succ fuel ih =>
    unfold removeLast
    by_cases hfull : c.maxSize < c.currentSize
    · rw [if_pos hfull]
      obtain rfl | ⟨es, e, rfl⟩ := List.eq_nil_or_concat' es
      · exact absurd rfl hes
      by_cases hone : es = []
      · subst hone
        have hnode : c.heap.node c.last = some ⟨e.2, none, none⟩ := by
          rw [h.listed.last_eq]
          exact h.listed.chain.1
        rw [hnode]
        exact ⟨c, [e], [], rfl, rfl, hes, h, fun hlen => absurd hlen (by simp), rfl, rfl⟩
      · obtain ⟨q, heap₁, heap₂, hnode, hset, hnode₁, hfree, hlisted⟩ :=
          unlinkLast_listed h.listed hone
        have hsize : e.2.size ≤ c.currentSize := by
          rw [h.size, charged_append, charged_cons, charged_nil]
          omega
        obtain ⟨c', kept, dropped, hrun, rfl, hkept, hrep, hle, hkind, hmax⟩ :=
          ih (h.dropLast hlisted) hone (by simpa using hfuel)
        refine ⟨c', kept, dropped ++ [e], ?_, by simp, hkept, hrep, hle, hkind, hmax⟩
        rw [hnode, Option.bind_eq_bind, Option.bind_some]
        simp only [hset, hnode₁, hfree, guard, if_pos hsize, Option.bind_eq_bind, Option.bind_some,
          Option.pure_def]
        exact hrun
    · rw [if_neg hfull]
      refine ⟨c, es, [], rfl, by simp, hes, h, fun _ => ?_, rfl, rfl⟩
      rw [← h.size]
      exact Nat.le_of_not_lt hfull

/-! ## The effects of the calls -/

/-- What a call does to the records, in the order of the list. -/
inductive Effect (kind : DatabaseCacheKind) (maxSize : ℕ) :
    Entries α → Call α → Entries α → Prop
  | disabled (es : Entries α) (key : Text) (value : List α) (update : Bool) (hmax : maxSize = 0) :
    Effect kind maxSize es (.addKeyValue key value update) es
  | absent (es : Entries α) (key : Text) (hkey : key ∉ keysOf es) :
    Effect kind maxSize es (.findKey key) es
  | found (pre : Entries α) (e : ℕ × RecordData α) (post : Entries α) :
    Effect kind maxSize (pre ++ e :: post) (.findKey e.2.key) (e :: pre ++ post)
  | held (pre : Entries α) (e : ℕ × RecordData α) (post : Entries α) (value : List α)
      (hmax : maxSize ≠ 0) :
    Effect kind maxSize (pre ++ e :: post) (.addKeyValue e.2.key value false) (e :: pre ++ post)
  | updated (pre : Entries α) (e : ℕ × RecordData α) (post : Entries α) (value : List α)
      (hmax : maxSize ≠ 0) :
    Effect kind maxSize (pre ++ e :: post) (.addKeyValue e.2.key value true)
      ((e.1, updateRecord e.2 value) :: pre ++ post)
  | added (kept dropped : Entries α) (a : ℕ) (key : Text) (value : List α) (update : Bool)
      (hmax : maxSize ≠ 0) (hkey : key ∉ keysOf (kept ++ dropped))
      (hle : kept ≠ [] → charged ((a, allocRecord kind key value) :: kept) ≤ maxSize) :
    Effect kind maxSize (kept ++ dropped) (.addKeyValue key value update)
      ((a, allocRecord kind key value) :: kept)
  | cleared (es : Entries α) : Effect kind maxSize es .clear []

/-- The data of the head is replaced, and its key and its charge stay. -/
theorem Represents.setData (h : Represents c (e :: es)) {f : RecordData α → RecordData α}
    (hkey : (f e.2).key = e.2.key) (hsize : (f e.2).size = e.2.size) :
    ∃ heap', c.heap.setData (some e.1) f = some heap' ∧
      Represents { c with heap := heap' } ((e.1, f e.2) :: es) := by
  obtain ⟨heap', hset, hchain, hout⟩ := h.listed.chain.setData h.listed.nodup f
  refine ⟨heap', hset, ⟨h.listed.head_eq, h.listed.last_eq, h.listed.nodup, hchain, ?_⟩, ?_, ?_, ?_,
    ?_, ?_⟩
  · intro a ha
    change heap' a = none
    rw [hout a fun heq => ha (heq ▸ List.mem_cons_self)]
    exact h.listed.rest a ha
  · rw [keysOf_cons, hkey]
    exact h.keys
  · intro key a
    have hmap := h.map key a
    rw [List.exists_mem_cons_iff] at hmap ⊢
    rw [hkey]
    exact hmap
  · rw [charged_cons, hsize, ← charged_cons]
    exact h.size
  · intro e' he'
    rcases List.mem_cons.mp he' with rfl | he'
    · exact h.fresh e List.mem_cons_self
    · exact h.fresh e' (List.mem_cons_of_mem _ he')
  · intro e' he'
    rcases List.mem_cons.mp he' with rfl | he'
    · rw [hsize]
      exact h.positive e List.mem_cons_self
    · exact h.positive e' (List.mem_cons_of_mem _ he')

/-- Every call returns, and does one of these to the records. -/
theorem step_effect (h : Represents c es) (call : Call α) :
    ∃ c' es', c.step call = some c' ∧ Effect c.kind c.maxSize es call es' ∧ Represents c' es' ∧
      c'.kind = c.kind ∧ c'.maxSize = c.maxSize := by
  cases call with
  | findKey key =>
    change ∃ c' es', (c.findKey key).map Prod.fst = some c' ∧ _
    cases hmap : c.cacheMap key with
    | none =>
      have hkey := h.absent_iff.mp hmap
      obtain ⟨c', hfind, hrep, hkind, hmax⟩ := findKey_absent h hkey
      exact ⟨c', es, by rw [hfind]; rfl, .absent es key hkey, hrep, hkind, hmax⟩
    | some a =>
      obtain ⟨pre, e, post, rfl, -, rfl⟩ := h.split hmap
      obtain ⟨c', hfind, hrep, hkind, hmax⟩ := findKey_found h
      exact ⟨c', _, by rw [hfind]; rfl, .found pre e post, hrep, hkind, hmax⟩
  | addKeyValue key value update =>
    change ∃ c' es', (c.addKeyValue key value update).map Prod.fst = some c' ∧ _
    unfold addKeyValue
    by_cases hzero : c.maxSize = 0
    · rw [if_pos hzero]
      exact ⟨c, es, rfl, .disabled es key value update hzero, h, rfl, rfl⟩
    rw [if_neg hzero]
    cases hmap : c.cacheMap key with
    | none =>
      have hkey := h.absent_iff.mp hmap
      obtain ⟨c₁, hfind, hrep₁, hkind₁, hmax₁⟩ := findKey_absent h hkey
      obtain ⟨c₂, a, hadd, hrep₂, hkind₂, hmax₂⟩ := addRecord_spec hrep₁ hkey value
      have hlen := length_le_charged hrep₂.positive
      rw [← hrep₂.size] at hlen
      obtain ⟨c₃, kept, dropped, hrun, heq, hkept, hrep₃, hle, hkind₃, hmax₃⟩ :=
        removeLast_spec hrep₂ (List.cons_ne_nil _ _) (Nat.le_succ_of_le hlen)
      obtain ⟨x, kept, rfl⟩ := List.exists_cons_of_ne_nil hkept
      obtain ⟨rfl, rfl⟩ := List.cons_eq_cons.mp heq
      rw [hkind₁] at hrep₃ hle
      rw [hmax₂, hmax₁] at hle
      refine ⟨c₃, _, ?_, .added kept dropped a key value update hzero hkey ?_, hrep₃,
        hkind₃.trans (hkind₂.trans hkind₁), hmax₃.trans (hmax₂.trans hmax₁)⟩
      · simp only [hfind, hadd, hrun, Option.bind_eq_bind, Option.bind_some, Option.map_some]
      · intro hne
        refine hle ?_
        rw [List.length_cons]
        exact Nat.succ_le_succ (List.length_pos_iff.mpr hne)
    | some a =>
      obtain ⟨pre, e, post, rfl, -, rfl⟩ := h.split hmap
      obtain ⟨c₁, hfind, hrep₁, hkind₁, hmax₁⟩ := findKey_found h
      rw [hfind, Option.bind_eq_bind, Option.bind_some]
      cases update with
      | false => exact ⟨c₁, _, rfl, .held pre e post value hzero, hrep₁, hkind₁, hmax₁⟩
      | true =>
        obtain ⟨heap', hset, hrep₂⟩ := hrep₁.setData (f := fun r => updateRecord r value) rfl rfl
        refine ⟨_, _, ?_, .updated pre e post value hzero, hrep₂, hkind₁, hmax₁⟩
        simp only [hset, if_true, Option.bind_eq_bind, Option.bind_some, Option.map_some]
  | clear =>
    change ∃ c' es', c.clear = some c' ∧ _
    have hlen := length_le_charged h.positive
    rw [← h.size] at hlen
    obtain ⟨heap', hfree, hlisted⟩ := freeRecords_listed h.listed (Nat.lt_succ_of_le hlen)
    unfold clear
    rw [hfree]
    refine ⟨_, [], rfl, .cleared es, ⟨hlisted, List.nodup_nil, ?_, rfl, ?_, ?_⟩, rfl, rfl⟩
    · intro key a
      simp
    · intro e he
      cases he
    · intro e he
      cases he

end

end ZkevmProver.DatabaseCache
