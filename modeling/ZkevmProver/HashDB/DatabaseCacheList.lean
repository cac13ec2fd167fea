import ZkevmProver.HashDB.DatabaseCache

/-!
# The list of the database cache

What the pointer operations of the cache do to the list of its records.

  1. A record that moves to the head: `removeFromPosition_chain`, `putOnTop_chain`, `moveToHead`.
  2. A new record, and the record at the end.
  3. Freeing all records.
-/

namespace ZkevmProver.DatabaseCache

open LinkedRecords

variable {α : Type} {heap : Heap (RecordData α)} {head last : Option ℕ}
  {es pre post : List (ℕ × RecordData α)} {e x : ℕ × RecordData α}

/-! ## A record that moves to the head -/

/-- Without the record, the list is linked as before. -/
theorem removeFromPosition_chain (h : Listed heap head last (pre ++ e :: post)) (hpre : pre ≠ []) :
    ∃ heap' last', removeFromPosition heap last (some e.1) = some (heap', last') ∧
      last' = final none (pre ++ post) ∧ Chain heap' none (pre ++ post) none ∧
      (∃ next prev, heap' e.1 = some ⟨e.2, next, prev⟩) ∧
      ∀ a, a ∉ addresses (pre ++ post) → heap' a = heap a := by
  obtain rfl | ⟨pre, q, rfl⟩ := List.eq_nil_or_concat' pre
  · exact absurd rfl hpre
  have hnd := h.nodup
  obtain ⟨hchain, he, hpost⟩ := chain_append.mp h.chain
  rw [final_concat] at he
  have hq : q.1 ∈ addresses (pre ++ [q]) := mem_addresses (by simp)
  have hqpost : ∀ a ∈ addresses (e :: post), a ≠ q.1 := fun a ha => (addresses_ne hnd hq ha).symm
  have hndpre : (addresses (pre ++ [q])).Nodup := by
    rw [addresses_append] at hnd
    exact (List.nodup_append.mp hnd).1
  -- `record->prev->next = record->next`
  obtain ⟨heap₁, hset₁, hchain₁, hframe₁⟩ := hchain.setNext hndpre (first post none)
  have he₁ : heap₁ e.1 = some ⟨e.2, first post none, some q.1⟩ :=
    (hframe₁ _ (hqpost _ List.mem_cons_self)).trans he
  have hpost₁ : Chain heap₁ (some e.1) post none :=
    hpost.congr fun a ha => hframe₁ a (hqpost a (List.mem_cons_of_mem _ ha))
  have hout₁ : ∀ a, a ∉ addresses (pre ++ [q] ++ post) → heap₁ a = heap a := by
    intro a ha
    refine hframe₁ a ?_
    rintro rfl
    exact ha (by rw [addresses_append]; exact List.mem_append_left _ hq)
  unfold removeFromPosition
  simp only [Heap.node_some, he, he₁, hset₁, Option.bind_eq_bind, Option.bind_some]
  cases post with
  | nil =>
    have hlast : last = some e.1 := by rw [h.last_eq, final_concat]
    rw [if_pos hlast]
    refine ⟨heap₁, some q.1, rfl, ?_, ?_, ⟨_, _, he₁⟩, hout₁⟩
    · rw [List.append_nil, final_concat]
    · rw [List.append_nil]
      exact hchain₁
  | cons s post =>
    have hnds : (addresses (e :: s :: post)).Nodup := by
      rw [addresses_append] at hnd
      exact (List.nodup_append.mp hnd).2.1
    have hes : ∀ a ∈ addresses (s :: post), a ≠ e.1 := fun a ha =>
      ne_of_mem_of_not_mem ha (List.nodup_cons.mp hnds).1
    have hlast : last ≠ some e.1 := by
      rw [h.last_eq, final_append, final_cons]
      obtain ⟨a, ha, hfinal⟩ := final_mem (some e.1) (List.cons_ne_nil s post)
      rw [hfinal]
      exact fun heq => hes a ha (Option.some.inj heq)
    rw [if_neg hlast]
    -- `record->next->prev = record->prev`
    obtain ⟨heap₂, hset₂, hchain₂, hframe₂⟩ :=
      hpost₁.setPrev (List.nodup_cons.mp hnds).2 (some q.1)
    have hs : s.1 ∈ addresses (s :: post) := List.mem_cons_self
    have hspre : ∀ a ∈ addresses (pre ++ [q]), a ≠ s.1 := fun a ha =>
      addresses_ne hnd ha (List.mem_cons_of_mem _ hs)
    refine ⟨heap₂, last, ?_, ?_, ?_, ⟨first (s :: post) none, some q.1, ?_⟩, ?_⟩
    · rw [first_cons, hset₂]
      rfl
    · rw [h.last_eq]
      simp only [final_append, final_cons]
    · rw [chain_append, final_concat]
      exact ⟨hchain₁.congr fun a ha => hframe₂ a (hspre a ha), hchain₂⟩
    · rw [hframe₂ _ (hes _ hs).symm, he₁]
    · intro a ha
      rw [hframe₂ a, hout₁ a ha]
      rintro rfl
      exact ha (by rw [addresses_append]; exact List.mem_append_right _ hs)

/-- A record beside a list becomes its head. -/
theorem putOnTop_chain (hc : Chain heap none (x :: es) none)
    (hnd : (addresses (e :: x :: es)).Nodup)
    (he : ∃ next prev, heap e.1 = some ⟨e.2, next, prev⟩) :
    ∃ heap', putOnTop heap (some x.1) (some e.1) = some heap' ∧
      Chain heap' none (e :: x :: es) none ∧
      ∀ a, a ∉ addresses (e :: x :: es) → heap' a = heap a := by
  obtain ⟨next, prev, he⟩ := he
  obtain ⟨hnot, hnd⟩ := List.nodup_cons.mp hnd
  obtain ⟨heap₁, hset₁, hchain₁, hframe₁⟩ := hc.setPrev hnd (some e.1)
  have hex : e.1 ≠ x.1 := fun heq => hnot (heq ▸ List.mem_cons_self)
  have he₁ : heap₁ e.1 = some ⟨e.2, next, prev⟩ := (hframe₁ _ hex).trans he
  unfold putOnTop
  rw [hset₁, Option.bind_eq_bind, Option.bind_some, Heap.setPrev, Heap.modify_eq he₁,
    Option.bind_some, Heap.setNext, Heap.modify_eq (Function.update_self _ _ _)]
  refine ⟨_, rfl, ⟨Function.update_self _ _ _, (hchain₁.update hnot _).update hnot _⟩, ?_⟩
  intro a ha
  have hae : a ≠ e.1 := fun heq => ha (heq ▸ List.mem_cons_self)
  have hax : a ≠ x.1 := fun heq => ha (heq ▸ List.mem_cons_of_mem _ List.mem_cons_self)
  rw [Function.update_of_ne hae, Function.update_of_ne hae, hframe₁ a hax]

theorem move_listed (h : Listed heap head last (pre ++ e :: post)) (hpre : pre ≠ []) :
    ∃ heap₁ heap₂ last', removeFromPosition heap last (some e.1) = some (heap₁, last') ∧
      putOnTop heap₁ head (some e.1) = some heap₂ ∧
      Listed heap₂ (some e.1) last' (e :: pre ++ post) := by
  obtain ⟨heap₁, last', hremove, hlast, hchain, he, hout₁⟩ := removeFromPosition_chain h hpre
  obtain ⟨x, pre, rfl⟩ := List.exists_cons_of_ne_nil hpre
  have hperm : (addresses (e :: (x :: pre ++ post))).Perm (addresses (x :: pre ++ e :: post)) :=
    (List.perm_middle.symm).map _
  have hnd := hperm.nodup_iff.mpr h.nodup
  obtain ⟨heap₂, hput, hchain₂, hout₂⟩ := putOnTop_chain hchain hnd he
  refine ⟨heap₁, heap₂, last', hremove, ?_, rfl, ?_, hnd, hchain₂, ?_⟩
  · rw [h.head_eq]
    exact hput
  · rw [hlast]
    rfl
  · intro a ha
    rw [hout₂ a ha, hout₁ a fun hmem => ha (List.mem_cons_of_mem _ hmem)]
    exact h.rest a fun hmem => ha (hperm.mem_iff.mpr hmem)

/-! ## A new record, and the record at the end -/

/-- A record at a new address becomes the head. -/
theorem linkRecord_listed (h : Listed heap head last es) {a : ℕ} (ha : a ∉ addresses es)
    (data : RecordData α) :
    ∃ heap' last', linkRecord (Function.update heap a (some ⟨data, none, none⟩)) head last (some a) =
      some (heap', last') ∧ Listed heap' (some a) last' ((a, data) :: es) := by
  have hnew : (Function.update heap a (some (⟨data, none, none⟩ : LinkedRecords.Node (RecordData α)))) a =
    some ⟨data, none, none⟩ := Function.update_self _ _ _
  unfold linkRecord
  cases es with
  | nil =>
    have hhead : head = none := h.head_eq
    rw [if_pos hhead, Heap.setNext, Heap.modify_eq hnew]
    refine ⟨_, _, rfl, rfl, rfl, List.nodup_singleton _, ⟨Function.update_self _ _ _, trivial⟩, ?_⟩
    intro b hb
    have hba : b ≠ a := fun heq => hb (heq ▸ List.mem_cons_self)
    rw [Function.update_of_ne hba, Function.update_of_ne hba]
    exact h.rest b (List.not_mem_nil)
  | cons x es =>
    have hhead : head ≠ none := by rw [h.head_eq]; exact Option.some_ne_none _
    rw [if_neg hhead, Heap.setNext, Heap.modify_eq hnew, Option.bind_eq_bind, Option.bind_some,
      Function.update_idem, h.head_eq, first_cons]
    obtain ⟨heap', hset, hchain, hout⟩ := (h.chain.update ha _).setPrev h.nodup (some a)
    rw [hset]
    have hax : a ≠ x.1 := fun heq => ha (heq ▸ List.mem_cons_self)
    refine ⟨heap', last, rfl, rfl, h.last_eq, List.nodup_cons.mpr ⟨ha, h.nodup⟩, ⟨?_, hchain⟩, ?_⟩
    · rw [hout a hax, Function.update_self]
      rfl
    · intro b hb
      have hba : b ≠ a := fun heq => hb (heq ▸ List.mem_cons_self)
      have hbx : b ≠ x.1 := fun heq => hb (heq ▸ List.mem_cons_of_mem _ List.mem_cons_self)
      rw [hout b hbx, Function.update_of_ne hba]
      exact h.rest b fun hmem => hb (List.mem_cons_of_mem _ hmem)

/-- The record at the end, and the list without it. -/
theorem unlinkLast_listed (h : Listed heap head last (es ++ [e])) (hes : es ≠ []) :
    ∃ q heap₁ heap₂, heap.node last = some ⟨e.2, none, some q⟩ ∧
      heap.setNext (some q) none = some heap₁ ∧ heap₁.node last = some ⟨e.2, none, some q⟩ ∧
      heap₁.free last = some heap₂ ∧ Listed heap₂ head (some q) es := by
  obtain rfl | ⟨es, q, rfl⟩ := List.eq_nil_or_concat' es
  · exact absurd rfl hes
  have hnd := h.nodup
  obtain ⟨hchain, he, -⟩ := chain_append.mp h.chain
  rw [final_concat] at he
  have hlast : last = some e.1 := by rw [h.last_eq, final_concat]
  have hq : q.1 ∈ addresses (es ++ [q]) := mem_addresses (by simp)
  have heq : e.1 ≠ q.1 := (addresses_ne hnd hq List.mem_cons_self).symm
  have hnot : e.1 ∉ addresses (es ++ [q]) := fun hmem =>
    addresses_ne hnd hmem List.mem_cons_self rfl
  have hndes : (addresses (es ++ [q])).Nodup := by
    rw [addresses_append] at hnd
    exact (List.nodup_append.mp hnd).1
  obtain ⟨heap₁, hset, hchain₁, hout⟩ := hchain.setNext hndes none
  have he₁ := (hout _ heq).trans he
  subst hlast
  refine ⟨q.1, heap₁, _, he, hset, he₁, Heap.free_eq he₁, ?_, ?_, hndes, hchain₁.update hnot _, ?_⟩
  · rw [h.head_eq]
    cases es with
    | nil => rfl
    | cons x es => rfl
  · rw [final_concat]
  · intro a ha
    by_cases hae : a = e.1
    · rw [hae, Function.update_self]
    · have haq : a ≠ q.1 := fun heq => ha (heq ▸ hq)
      rw [Function.update_of_ne hae, hout a haq]
      refine h.rest a ?_
      rw [addresses_append, List.mem_append, not_or]
      exact ⟨ha, by simpa using hae⟩

/-! ## All records -/

theorem freeRecords_eq {before : Option ℕ} (hc : Chain heap before es none)
    (hnd : (addresses es).Nodup) {fuel : ℕ} (hfuel : es.length < fuel) :
    ∃ heap', freeRecords fuel heap (first es none) = some heap' ∧
      (∀ a ∈ addresses es, heap' a = none) ∧ ∀ a, a ∉ addresses es → heap' a = heap a := by
  induction es generalizing heap before fuel with
  | nil =>
    obtain ⟨fuel, rfl⟩ := Nat.exists_eq_succ_of_ne_zero (Nat.ne_zero_of_lt hfuel)
    exact ⟨heap, rfl, by simp, fun _ _ => rfl⟩
  | cons e es ih =>
    obtain ⟨fuel, rfl⟩ := Nat.exists_eq_succ_of_ne_zero (Nat.ne_zero_of_lt hfuel)
    obtain ⟨he, hes⟩ := hc
    obtain ⟨hnot, hnd⟩ := List.nodup_cons.mp hnd
    obtain ⟨heap', hfree, hin, hout⟩ :=
      ih (hes.update hnot none) hnd (Nat.lt_of_succ_lt_succ hfuel)
    refine ⟨heap', ?_, ?_, ?_⟩
    · rw [first_cons, freeRecords, Heap.node_some, he, Option.bind_eq_bind, Option.bind_some,
        Heap.free_eq he, Option.bind_eq_bind, Option.bind_some]
      exact hfree
    · intro a ha
      rcases List.mem_cons.mp ha with rfl | ha
      · rw [hout _ hnot, Function.update_self]
      · exact hin a ha
    · intro a ha
      have hae : a ≠ e.1 := fun heq => ha (heq ▸ List.mem_cons_self)
      rw [hout a fun hmem => ha (List.mem_cons_of_mem _ hmem), Function.update_of_ne hae]

/-- After all records are freed the heap is empty. -/
theorem freeRecords_listed (h : Listed heap head last es) {fuel : ℕ} (hfuel : es.length < fuel) :
    ∃ heap', freeRecords fuel heap head = some heap' ∧
      Listed heap' none none ([] : List (ℕ × RecordData α)) := by
  obtain ⟨heap', hfree, hin, hout⟩ := freeRecords_eq h.chain h.nodup hfuel
  rw [← h.head_eq] at hfree
  refine ⟨heap', hfree, rfl, rfl, List.nodup_nil, trivial, ?_⟩
  intro a _
  by_cases ha : a ∈ addresses es
  · exact hin a ha
  · rw [hout a ha]
    exact h.rest a ha

end ZkevmProver.DatabaseCache
