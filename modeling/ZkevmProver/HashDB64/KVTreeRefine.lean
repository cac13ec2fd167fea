import Mathlib.Data.BitVec
import Mathlib.Data.List.Perm.Basic
import ZkevmProver.HashDB64.KVTree
import ZkevmProver.Lib.Transitions

/-!
# The tree of keys and values refines a log of values

From any sequence of calls the tree holds the log of the values that were written and not extracted,
and it reads the log back where the slot of a key is clear.

1. Cells: `Linked`, `ofKey`
2. The invariant: `KVInv`
3. `write_spec`, `extract_spec` and `read_spec`
4. One call: `step_spec`
5. Runs: `follow_spec`
6. What is read after a run
-/

namespace ZkevmProver

namespace KVTree

/-! ## Cells -/

/-- An entry of the log and the number of its value. -/
structure Cell where
  key : KeyWords
  value : ℤ
  idx : ℕ

variable {kv kv' : KVTree} {es : List Cell} {stored : Set ℕ} {key : KeyWords} {value : ℤ}
  {i k n : ℕ} {pv : ℕ → ListedValue} {log log' : ValueLog}

/-- The cells of a key, the top of its stack first. -/
def ofKey (es : List Cell) (key : KeyWords) : List Cell := es.filter fun e => e.key = key

/-- The stack of cells that starts with value number `i`. -/
def Linked (pv : ℕ → ListedValue) : ℕ → List Cell → Prop
  | _, [] => True
  | i, e :: es => e.idx = i ∧ (pv i).value = e.value ∧ Linked pv (pv i).prev es

/-- A stack does not depend on the cells of others. -/
theorem Linked.update (h : Linked pv i es) {j : ℕ} (hj : ∀ e ∈ es, e.idx ≠ j) (v : ListedValue) :
    Linked (Function.update pv j v) i es := by
  induction es generalizing i with
  | nil => trivial
  | cons e es ih =>
    obtain ⟨rfl, hv, hl⟩ := h
    unfold Linked
    rw [Function.update_of_ne (hj e List.mem_cons_self)]
    exact ⟨rfl, hv, ih hl fun e he => hj e (List.mem_cons_of_mem _ he)⟩

/-- A new cell is put on a stack. -/
theorem Linked.push (h : Linked pv i es) {j : ℕ} (hj : ∀ e ∈ es, e.idx ≠ j) (key : KeyWords)
    (value : ℤ) : Linked (Function.update pv j ⟨value, i⟩) j (⟨key, value, j⟩ :: es) := by
  unfold Linked
  rw [Function.update_self]
  exact ⟨rfl, rfl, h.update hj _⟩

theorem mem_ofKey {e : Cell} : e ∈ ofKey es key ↔ e ∈ es ∧ e.key = key := by simp [ofKey]

theorem ofKey_cons_self (e : Cell) : ofKey (e :: es) e.key = e :: ofKey es e.key := by
  simp [ofKey]

theorem ofKey_cons_ne {e : Cell} (h : e.key ≠ key) : ofKey (e :: es) key = ofKey es key := by
  simp [ofKey, h]

def toLog (es : List Cell) : ValueLog := es.map fun e => (e.key, e.value)

theorem last_toLog : (toLog es).last key = (ofKey es key).head?.map Cell.value := by
  unfold ValueLog.last toLog ofKey
  rw [List.find?_map, List.head?_filter, Option.map_map]
  rfl

/-! ## The invariant -/

/-- The cells `es` are in the tree, under the keys of the pile with numbers `stored`. -/
structure KVInvAt (kv : KVTree) (es : List Cell) (stored : Set ℕ) : Prop where
  tree : kv.tree.Inv stored
  counters : kv.tree.useInsertCounters = true
  nBitsStep_le : kv.tree.nBitsStep ≤ 16
  cells : (es.map Cell.idx ++ kv.emptyValues).Perm (List.range kv.nValues)
  nValues_le : kv.nValues ≤ 2 ^ 31
  exists_cell : ∀ k ∈ stored, ∃ e ∈ es, (kv.tree.pile k).key = mixKey e.key
  exists_key : ∀ e ∈ es, ∃ k ∈ stored, (kv.tree.pile k).key = mixKey e.key
  linked : ∀ k ∈ stored, ∀ key, (kv.tree.pile k).key = mixKey key →
    (kv.tree.pile k).counter = (ofKey es key).length ∧
      Linked kv.pileValues (kv.tree.pile k).value (ofKey es key)

def KVInv (kv : KVTree) (es : List Cell) : Prop := ∃ stored, KVInvAt kv es stored

theorem KVInvAt.idx_lt (h : KVInvAt kv es stored) {e : Cell} (he : e ∈ es) : e.idx < kv.nValues := by
  have hmem : e.idx ∈ es.map Cell.idx ++ kv.emptyValues :=
    List.mem_append_left _ (List.mem_map_of_mem he)
  exact List.mem_range.mp (h.cells.subset hmem)

theorem inv_new (hn : n ∣ 256) (hn' : n ≤ 16) : ∃ kv, new n = some kv ∧ KVInv kv [] := by
  obtain ⟨t, ht⟩ := LevelTree.exists_new hn hn' true
  obtain ⟨hinv, hbits, hcount, -, -⟩ := LevelTree.inv_new ht
  refine ⟨_, congrArg _ ht, ∅, hinv, hcount, hbits ▸ hn', List.Perm.refl _, Nat.zero_le _, ?_, ?_, ?_⟩
  · simp
  · simp
  · simp

/-! ## `write` -/

/-- A number for a value is free, and it fits an `int` while less than `2 ^ 31` values are stored. -/
theorem allocValue_spec {used : List ℕ} (h : (used ++ kv.emptyValues).Perm (List.range kv.nValues))
    (hle : kv.nValues ≤ 2 ^ 31) : ∃ free n idx,
      (∀ t, ({ kv with tree := t } : KVTree).allocValue =
        ({ kv with tree := t, emptyValues := free, nValues := n }, idx)) ∧ idx ∉ used ∧
      (idx :: used ++ free).Perm (List.range n) ∧ (idx < 2 ^ 31 ↔ used.length < 2 ^ 31) ∧
      (idx < 2 ^ 31 → n ≤ 2 ^ 31) := by
  have hlen := h.length_eq
  rw [List.length_append, List.length_range] at hlen
  unfold allocValue
  cases he : kv.emptyValues with
  | nil =>
    rw [he, List.append_nil] at h
    rw [he] at hlen
    simp only [List.length_nil, Nat.add_zero] at hlen
    refine ⟨[], kv.nValues + 1, kv.nValues, fun _ => rfl, ?_, ?_, by rw [hlen], fun h => h⟩
    · intro hmem
      exact lt_irrefl _ (List.mem_range.mp (h.subset hmem))
    · rw [List.append_nil, List.range_succ]
      exact (h.cons _).trans (List.perm_append_singleton _ _).symm
  | cons idx rest =>
    rw [he] at h hlen
    simp only [List.length_cons] at hlen
    have hperm : (idx :: used ++ rest).Perm (List.range kv.nValues) := List.perm_middle.symm.trans h
    have hnodup : (idx :: used ++ rest).Nodup := hperm.nodup_iff.mpr List.nodup_range
    have hlt : idx < kv.nValues := List.mem_range.mp (hperm.subset (by simp))
    refine ⟨rest, kv.nValues, idx, fun _ => rfl, ?_, hperm, iff_of_true (by omega) (by omega), fun _ => hle⟩
    rw [List.cons_append, List.nodup_cons] at hnodup
    exact fun hmem => hnodup.1 (List.mem_append_left _ hmem)

end KVTree

namespace LevelTree

variable {t : LevelTree} {stored : Set ℕ} {k k' : ℕ}

/-- The tree does not depend on the values. -/
theorem inv_setValue (h : Inv t stored) (k v : ℕ) :
    Inv (t.setPile k { t.pile k with value := v }) stored := by
  have hkey : ∀ k', ((t.setPile k { t.pile k with value := v }).pile k').key = (t.pile k').key ∧
      ((t.setPile k { t.pile k with value := v }).pile k').counter = (t.pile k').counter := by
    intro k'
    by_cases hkk : k' = k
    · rw [hkk, pile_setPile_self]
      exact ⟨rfl, rfl⟩
    · rw [pile_setPile_ne _ _ hkk]
      exact ⟨rfl, rfl⟩
  obtain ⟨⟨live, path, htree⟩, hpile⟩ := h
  refine ⟨⟨live, path, htree.of_sameNodes ⟨rfl, rfl, rfl, rfl, rfl⟩ fun k' _ => (hkey k').1⟩,
    hpile.nKeys_pos, hpile.stored_lt, hpile.free, hpile.free_nodup, fun hcount => ?_⟩
  obtain ⟨h₁, h₂⟩ := hpile.counted hcount
  refine ⟨fun k' hk' => ?_, fun k' hk' => ?_⟩
  · rw [(hkey k').2]
    exact h₁ k' hk'
  · rw [(hkey k').2]
    exact h₂ k' hk'

end LevelTree

namespace KVTree

variable {kv kv' : KVTree} {es : List Cell} {stored : Set ℕ} {key : KeyWords} {value : ℤ}
  {i k n : ℕ} {pv : ℕ → ListedValue} {log log' : ValueLog}

/-- No other key of the pile is the key that was inserted. -/
theorem key_ne_of_inserted {t : LevelTree} {r : LevelTree.InsertResult} (h : t.Inv stored)
    (hr : LevelTree.Inserted t stored key r) (hk : k ∈ stored) (hne : k ≠ r.pileIdx) :
    (t.pile k).key ≠ mixKey key := by
  rcases hr.stored_or_new with ⟨hmem, hkey⟩ | ⟨-, hnew⟩
  · intro heq
    exact hne (h.key_inj hk hmem (heq.trans hkey.symm))
  · exact hnew k hk

/-- The stack of the key that was inserted, before. -/
theorem KVInvAt.old_stack (h : KVInvAt kv es stored) {r : LevelTree.InsertResult}
    (hr : LevelTree.Inserted kv.tree stored key r) :
    (kv.tree.pile r.pileIdx).counter = (ofKey es key).length ∧
      Linked kv.pileValues ((kv.tree.pile r.pileIdx).value % 2 ^ 32) (ofKey es key) := by
  rcases hr.stored_or_new with ⟨hmem, hkey⟩ | ⟨hnot, hnew⟩
  · obtain ⟨hlen, hlink⟩ := h.linked _ hmem key hkey
    refine ⟨hlen, ?_⟩
    cases hof : ofKey es key with
    | nil => trivial
    | cons e rest =>
      rw [hof] at hlink
      have hlt := h.idx_lt (mem_ofKey.mp (hof ▸ List.mem_cons_self : e ∈ ofKey es key)).1
      have := h.nValues_le
      rw [Nat.mod_eq_of_lt (by rw [← hlink.1]; omega)]
      exact hlink
  · have hof : ofKey es key = [] := by
      refine List.filter_eq_nil_iff.mpr fun e he hkey => ?_
      obtain ⟨k, hk, hke⟩ := h.exists_key e he
      exact hnew k hk (by rw [hke, of_decide_eq_true hkey])
    rw [hof]
    exact ⟨(h.tree.pile.counted h.counters).2 _ hnot, trivial⟩

/-- After a value has been put on the stack of its key. -/
theorem KVInvAt.push (h : KVInvAt kv es stored) {r : LevelTree.InsertResult}
    (hr : LevelTree.Inserted kv.tree stored key r) {free : List ℕ} {idx : ℕ}
    (hidx : idx ∉ es.map Cell.idx) (hperm : (idx :: es.map Cell.idx ++ free).Perm (List.range n))
    (hn : n ≤ 2 ^ 31) : KVInvAt (KVTree.setTop
      { tree := r.tree
        pileValues := Function.update kv.pileValues idx
          ⟨value, (r.tree.pile r.pileIdx).value % 2 ^ 32⟩
        nValues := n
        emptyValues := free } r.pileIdx idx) (⟨key, value, idx⟩ :: es) (insert r.pileIdx stored) := by
  have hinv : r.tree.Inv (insert r.pileIdx stored) := by
    obtain ⟨live, path, -, -, htree, -⟩ := hr.at_slot
    exact ⟨⟨live, path, htree⟩, hr.pileInv⟩
  have hpile : r.tree.pile r.pileIdx = kv.tree.inserted r.pileIdx (mixKey key) := by
    rw [hr.pile, Function.update_self]
  have hself : (r.tree.setPile r.pileIdx { r.tree.pile r.pileIdx with value := idx }).pile
      r.pileIdx = ⟨mixKey key, (kv.tree.pile r.pileIdx).counter + 1, idx⟩ := by
    rw [LevelTree.pile_setPile_self, hpile, LevelTree.inserted, if_pos h.counters]
  have hother : ∀ k ≠ r.pileIdx, (r.tree.setPile r.pileIdx
      { r.tree.pile r.pileIdx with value := idx }).pile k = kv.tree.pile k := by
    intro k hk
    rw [LevelTree.pile_setPile_ne _ _ hk, hr.pile, Function.update_of_ne hk]
  have hfresh : ∀ key', ∀ e ∈ ofKey es key', e.idx ≠ idx := by
    rintro key' e he rfl
    exact hidx (List.mem_map_of_mem (mem_ofKey.mp he).1)
  refine ⟨LevelTree.inv_setValue hinv _ _, hr.useInsertCounters.trans h.counters,
    hr.nBitsStep.le.trans h.nBitsStep_le, hperm, hn, ?_, ?_, ?_⟩
  · intro k hk
    by_cases hkk : k = r.pileIdx
    · exact ⟨_, List.mem_cons_self, by rw [hkk]; exact congrArg _ hself⟩
    · obtain ⟨e, he, hkey⟩ := h.exists_cell k (hk.resolve_left hkk)
      exact ⟨e, List.mem_cons_of_mem _ he, (congrArg _ (hother k hkk)).trans hkey⟩
  · intro e he
    rcases List.mem_cons.mp he with rfl | he
    · exact ⟨_, Set.mem_insert _ _, congrArg _ hself⟩
    · obtain ⟨k, hk, hkey⟩ := h.exists_key e he
      by_cases hkk : k = r.pileIdx
      · refine ⟨_, Set.mem_insert _ _, (congrArg _ hself).trans ?_⟩
        subst hkk
        rcases hr.stored_or_new with ⟨-, hkey'⟩ | ⟨hnot, -⟩
        · exact hkey'.symm.trans hkey
        · exact absurd hk hnot
      · exact ⟨k, Set.mem_insert_of_mem _ hk, (congrArg _ (hother k hkk)).trans hkey⟩
  · intro k hk key' hkey'
    by_cases hkk : k = r.pileIdx
    · subst hkk
      obtain rfl := mixKey_injective ((congrArg PileSlot.key hself).symm.trans hkey')
      obtain ⟨hlen, hlink⟩ := h.old_stack hr
      rw [ofKey_cons_self ⟨key, value, idx⟩]
      refine ⟨?_, ?_⟩
      · refine (congrArg PileSlot.counter hself).trans ?_
        rw [hlen]
        rfl
      · have hprev : (r.tree.pile r.pileIdx).value = (kv.tree.pile r.pileIdx).value := by
          rw [hpile]
          rfl
        have hlink' := hlink.push (hfresh key) key value
        rw [← hprev] at hlink'
        exact (congrArg PileSlot.value hself) ▸ hlink'
    · have hk' := hk.resolve_left hkk
      have hold : (kv.tree.pile k).key = mixKey key' := (congrArg _ (hother k hkk)).symm.trans hkey'
      obtain ⟨hlen, hlink⟩ := h.linked k hk' key' hold
      have hne : key ≠ key' := by
        rintro rfl
        exact key_ne_of_inserted h.tree hr hk' hkk hold
      rw [ofKey_cons_ne hne]
      refine ⟨(congrArg PileSlot.counter (hother k hkk)).trans hlen, ?_⟩
      have hlink' := hlink.update (hfresh key')
        ⟨value, (r.tree.pile r.pileIdx).value % 2 ^ 32⟩
      exact (congrArg PileSlot.value (hother k hkk)) ▸ hlink'

theorem write_spec (h : KVInv kv es) (key : KeyWords) (value : ℤ) :
    (es.length < 2 ^ 31 → ∃ kv' l idx, kv.write key value = some (kv', l) ∧
      KVInv kv' (⟨key, value, idx⟩ :: es)) ∧
    (¬es.length < 2 ^ 31 → kv.write key value = none) := by
  obtain ⟨stored, h⟩ := h
  obtain ⟨r, hins, hr⟩ := LevelTree.insert_spec h.tree key
  obtain ⟨free, n, idx, halloc, hidx, hperm, hlt, hn⟩ := allocValue_spec h.cells h.nValues_le
  rw [List.length_map] at hlt
  simp only [write, hins, Option.bind_eq_bind, Option.bind_some, addValue, halloc]
  refine ⟨fun hlen => ?_, fun hlen => ?_⟩
  · rw [if_pos (hlt.mpr hlen)]
    exact ⟨_, _, idx, rfl, _, h.push hr hidx hperm (hn (hlt.mpr hlen))⟩
  · rw [if_neg fun hi => hlen (hlt.mp hi)]
    rfl

/-! ## `extract` -/

theorem ofKey_append {l₁ l₂ : List Cell} : ofKey (l₁ ++ l₂) key = ofKey l₁ key ++ ofKey l₂ key :=
  List.filter_append ..

/-- After the value has been taken from the top of the stack of its key. -/
theorem KVInvAt.pop {l₁ l₂ : List Cell} {e : Cell} (h : KVInvAt kv (l₁ ++ e :: l₂) stored)
    (hl₁ : ofKey l₁ e.key = []) (hk : k ∈ stored) (hkey : (kv.tree.pile k).key = mixKey e.key)
    {t' : LevelTree} (ht' : LevelTree.Extracted kv.tree stored k t') :
    (kv.tree.pile k).value = e.idx ∧ (kv.pileValues e.idx).value = e.value ∧
      KVInv { KVTree.setTop { kv with tree := t' } k (kv.pileValues e.idx).prev with
        emptyValues := e.idx :: kv.emptyValues } (l₁ ++ l₂) := by
  have hof : ofKey (l₁ ++ e :: l₂) e.key = e :: ofKey l₂ e.key := by
    rw [ofKey_append, hl₁, ofKey_cons_self, List.nil_append]
  have hother : ∀ key' ≠ e.key, ofKey (l₁ ++ e :: l₂) key' = ofKey (l₁ ++ l₂) key' := by
    intro key' hne
    rw [ofKey_append, ofKey_append, ofKey_cons_ne hne.symm]
  obtain ⟨hlen, hlink⟩ := h.linked k hk e.key hkey
  rw [hof] at hlen hlink
  obtain ⟨htop, hvalue, hlink⟩ := hlink
  rw [← htop] at hvalue hlink
  refine ⟨htop.symm, hvalue, ?_⟩
  have hperm : ((l₁ ++ l₂).map Cell.idx ++ e.idx :: kv.emptyValues).Perm
      (List.range kv.nValues) := by
    refine List.Perm.trans ?_ h.cells
    simp only [List.map_append, List.map_cons, List.append_assoc, List.cons_append]
    exact List.Perm.append_left _ List.perm_middle
  have hlast : kv.tree.lastOne k ↔ ofKey l₂ e.key = [] := by
    unfold LevelTree.lastOne
    rw [h.counters, hlen]
    simp
  -- the key stays when there is a value below
  obtain ⟨stored', hinv', hsub, hsup, hstay, hgone⟩ : ∃ stored', t'.Inv stored' ∧
      stored' ⊆ stored ∧ (∀ k' ∈ stored, k' ≠ k → k' ∈ stored') ∧
      (k ∈ stored' → ofKey l₂ e.key ≠ [] ∧ (t'.pile k).key = mixKey e.key ∧
        (t'.pile k).counter = (ofKey l₂ e.key).length) ∧ (k ∉ stored' → ofKey l₂ e.key = []) := by
    by_cases hl₂ : ofKey l₂ e.key = []
    · exact ⟨_, ht'.last (hlast.mpr hl₂), Set.sdiff_subset, fun k' hk' hne => ⟨hk', hne⟩,
        fun hm => absurd rfl hm.2, fun _ => hl₂⟩
    · obtain ⟨hinv', hpile⟩ := ht'.not_last (mt hlast.mp hl₂)
      refine ⟨stored, hinv', subset_rfl, fun _ hk' _ => hk', fun _ => ⟨hl₂, ?_, ?_⟩,
        fun hm => absurd hk hm⟩
      · rw [hpile]
        exact hkey
      · rw [hpile, hlen]
        rfl
  have hself := LevelTree.pile_setPile_self t' k
    { t'.pile k with value := (kv.pileValues e.idx).prev }
  have hne : ∀ k' ≠ k, (t'.setPile k
      { t'.pile k with value := (kv.pileValues e.idx).prev }).pile k' = kv.tree.pile k' := by
    intro k' hk'
    rw [LevelTree.pile_setPile_ne _ _ hk', ht'.other k' hk']
  have hkey_ne : ∀ k' ∈ stored, k' ≠ k → (kv.tree.pile k').key ≠ mixKey e.key :=
    fun k' hk' hkk heq => hkk (h.tree.key_inj hk' hk (heq.trans hkey.symm))
  refine ⟨stored', LevelTree.inv_setValue hinv' _ _, ht'.useInsertCounters.trans h.counters,
    ht'.nBitsStep.le.trans h.nBitsStep_le, hperm, h.nValues_le, ?_, ?_, ?_⟩
  · intro k' hk'
    by_cases hkk : k' = k
    · subst hkk
      obtain ⟨hl₂, hkey', -⟩ := hstay hk'
      obtain ⟨e', he'⟩ := List.exists_mem_of_ne_nil _ hl₂
      obtain ⟨hmem, hke⟩ := mem_ofKey.mp he'
      refine ⟨e', List.mem_append_right _ hmem, (congrArg _ hself).trans ?_⟩
      rw [hke]
      exact hkey'
    · obtain ⟨e', he', hkey'⟩ := h.exists_cell k' (hsub hk')
      refine ⟨e', ?_, (congrArg _ (hne k' hkk)).trans hkey'⟩
      rw [List.mem_append, List.mem_cons] at he'
      rw [List.mem_append]
      rcases he' with he' | rfl | he'
      · exact .inl he'
      · exact absurd hkey' (hkey_ne k' (hsub hk') hkk)
      · exact .inr he'
  · intro e' he'
    have he : e' ∈ l₁ ++ e :: l₂ := by
      rw [List.mem_append] at he' ⊢
      exact he'.imp_right (List.mem_cons_of_mem _)
    obtain ⟨k', hk', hkey'⟩ := h.exists_key e' he
    by_cases hkk : k' = k
    · subst hkk
      have hee : e'.key = e.key := mixKey_injective (hkey'.symm.trans hkey)
      have hmem : e' ∈ ofKey l₂ e.key := by
        have hall : e' ∈ ofKey (l₁ ++ l₂) e.key := mem_ofKey.mpr ⟨he', hee⟩
        rwa [ofKey_append, hl₁, List.nil_append] at hall
      have hin : k' ∈ stored' := by
        by_contra hnot
        rw [hgone hnot] at hmem
        cases hmem
      refine ⟨k', hin, (congrArg _ hself).trans ?_⟩
      rw [hee]
      exact (hstay hin).2.1
    · exact ⟨k', hsup k' hk' hkk, (congrArg _ (hne k' hkk)).trans hkey'⟩
  · intro k' hk' key' hkey'
    by_cases hkk : k' = k
    · subst hkk
      obtain ⟨-, hkey'', hcount⟩ := hstay hk'
      have hself' : (t'.pile k').key = mixKey key' := (congrArg PileSlot.key hself).symm.trans hkey'
      obtain rfl : key' = e.key := mixKey_injective (hself'.symm.trans hkey'')
      rw [ofKey_append, hl₁, List.nil_append]
      exact ⟨(congrArg PileSlot.counter hself).trans hcount,
        (congrArg PileSlot.value hself) ▸ hlink⟩
    · have hold := (congrArg PileSlot.key (hne k' hkk)).symm.trans hkey'
      have hke : key' ≠ e.key := by
        rintro rfl
        exact hkey_ne k' (hsub hk') hkk hold
      obtain ⟨hlen', hlink'⟩ := h.linked k' (hsub hk') key' hold
      rw [hother key' hke] at hlen' hlink'
      exact ⟨(congrArg PileSlot.counter (hne k' hkk)).trans hlen',
        (congrArg PileSlot.value (hne k' hkk)) ▸ hlink'⟩

theorem extract_spec (h : KVInv kv es) (key : KeyWords) (value : ℤ)
    (htop : ∀ v ∈ (toLog es).last key, v = value) : ∃ kv' res,
      kv.extract key value = some (kv', res) ∧ KVInv kv' (es.eraseP fun e => e.key = key) ∧
        ((toLog es).last key ≠ none → res = .success) := by
  obtain ⟨stored, h⟩ := h
  rcases LevelTree.extract_spec h.tree key with ⟨k, hk, hkey, t', hext, ht'⟩ | ⟨hnew, hext⟩
  · obtain ⟨e₀, he₀, hkey₀⟩ := h.exists_cell k hk
    have hkk : e₀.key = key := mixKey_injective (hkey₀.symm.trans hkey)
    obtain ⟨e, l₁, l₂, hl₁, hek, rfl, herase⟩ :=
      List.exists_of_eraseP (p := fun e => decide (e.key = key)) he₀ (decide_eq_true hkk)
    obtain rfl : e.key = key := of_decide_eq_true hek
    have hof : ofKey l₁ e.key = [] := List.filter_eq_nil_iff.mpr hl₁
    obtain ⟨hidx, hvalue, hinv⟩ := h.pop hof hk hkey ht'
    have hlast : (toLog (l₁ ++ e :: l₂)).last e.key = some e.value := by
      rw [last_toLog, ofKey_append, hof, ofKey_cons_self]
      rfl
    have htop' : (kv.pileValues e.idx).value = value := hvalue.trans (htop _ hlast)
    rw [herase]
    refine ⟨_, .success, ?_, hinv, fun _ => rfl⟩
    simp only [extract, hext, Option.bind_eq_bind, Option.bind_some, removeValue, ht'.value, hidx]
    rw [if_neg (not_not.mpr htop')]
    rfl
  · have hnone : ∀ e ∈ es, ¬decide (e.key = key) = true := by
      intro e he hek
      obtain ⟨k, hk, hke⟩ := h.exists_key e he
      exact hnew k hk (by rw [hke, of_decide_eq_true hek])
    have hlast : (toLog es).last key = none := by
      rw [last_toLog, show ofKey es key = [] from List.filter_eq_nil_iff.mpr hnone]
      rfl
    rw [List.eraseP_of_forall_not hnone]
    refine ⟨kv, .keyNotFound, ?_, ⟨stored, h⟩, fun hne => absurd hlast hne⟩
    simp only [extract, hext, Option.bind_eq_bind, Option.bind_some]
    rfl

/-! ## `read` -/

/-- The last value of the key, and its level among the keys of the log. -/
structure RightRead (log : ValueLog) (key : KeyWords) (r : ReadResult) : Prop where
  value : r.value = log.last key
  level : IsLevel (mixKey '' log.keys) (mixKey key) r.level

theorem KVInvAt.keys_eq (h : KVInvAt kv es stored) :
    kv.tree.keys stored = mixKey '' (toLog es).keys := by
  ext K
  constructor
  · rintro ⟨k, hk, rfl⟩
    obtain ⟨e, he, hkey⟩ := h.exists_cell k hk
    exact ⟨e.key, ⟨_, List.mem_map_of_mem he, rfl⟩, hkey.symm⟩
  · rintro ⟨key, ⟨_, hmem, rfl⟩, rfl⟩
    obtain ⟨e, he, rfl⟩ := List.mem_map.mp hmem
    obtain ⟨k, hk, hkey⟩ := h.exists_key e he
    exact ⟨k, hk, hkey⟩

/-- The stack of a key that is not stored is empty. -/
theorem KVInvAt.last_eq_none (h : KVInvAt kv es stored)
    (hkey : ∀ k ∈ stored, (kv.tree.pile k).key ≠ mixKey key) : (toLog es).last key = none := by
  have hof : ofKey es key = [] := by
    refine List.filter_eq_nil_iff.mpr fun e he hek => ?_
    obtain ⟨k, hk, hke⟩ := h.exists_key e he
    exact hkey k hk (by rw [hke, of_decide_eq_true hek])
  rw [last_toLog, hof]
  rfl

/-- The top of the stack of a key that is stored is its last value. -/
theorem KVInvAt.last_eq_some (h : KVInvAt kv es stored) (hk : k ∈ stored)
    (hkey : (kv.tree.pile k).key = mixKey key) :
    (toLog es).last key = some (kv.pileValues (kv.tree.pile k).value).value := by
  obtain ⟨e, he, hke⟩ := h.exists_cell k hk
  obtain rfl := mixKey_injective (hkey.symm.trans hke)
  obtain ⟨-, hlink⟩ := h.linked k hk e.key hkey
  rw [last_toLog]
  cases hof : ofKey es e.key with
  | nil =>
    have hmem := mem_ofKey.mpr ⟨he, rfl⟩
    rw [hof] at hmem
    cases hmem
  | cons e' rest =>
    rw [hof] at hlink
    exact congrArg some hlink.2.1.symm

theorem read_spec (h : KVInv kv es) (key : KeyWords) : ∃ r, kv.read key = some r ∧
    (RightRead (toLog es) key r ↔ kv.tree.Clear (mixKey key)) := by
  obtain ⟨stored, h⟩ := h
  obtain ⟨r, hlevel, hright, hwrong⟩ := LevelTree.level_spec h.tree h.nBitsStep_le key
  refine ⟨_, by simp only [read, hlevel, Option.bind_eq_bind, Option.bind_some]; rfl, ?_⟩
  by_cases hclear : kv.tree.Clear (mixKey key)
  · refine iff_of_true ?_ hclear
    obtain ⟨hl, hidx⟩ := hright hclear
    refine ⟨?_, h.keys_eq ▸ hl⟩
    cases hr : r.pileIdx with
    | none =>
      refine (h.last_eq_none fun k hk hkey => ?_).symm
      exact Option.some_ne_none k (((hidx k).mpr ⟨hk, hkey⟩).symm.trans hr)
    | some k =>
      obtain ⟨hk, hkey⟩ := (hidx k).mp hr
      exact (h.last_eq_some hk hkey).symm
  · refine iff_of_false (fun hread => ?_) hclear
    obtain ⟨hv, hl⟩ := hread
    rcases hwrong hclear with hl' | ⟨habsent, hsome⟩
    · exact hl' (h.keys_eq.symm ▸ hl)
    · rw [h.last_eq_none fun k hk hkey => habsent ⟨k, hk, hkey⟩] at hv
      exact hsome (Option.map_eq_none_iff.mp hv)

end KVTree

end ZkevmProver

namespace ZkevmProver

open Transitions

namespace ValueLog

theorem Step.unique {log log' log'' : ValueLog} {op : KVTree.Op} (h : log.Step op log')
    (h' : log.Step op log'') : log' = log'' := by
  cases op with
  | write => exact h.trans h'.symm
  | read => exact h.trans h'.symm
  | extract => exact h.trans h'.symm

end ValueLog

namespace KVTree

variable {kv kv' : KVTree} {es : List Cell} {key : KeyWords} {value : ℤ} {n : ℕ}
  {log log' : ValueLog} {ops : List Op}

/-! ## One call -/

theorem toLog_eraseP : toLog (es.eraseP fun e => e.key = key) =
    (toLog es).eraseP fun e => e.1 = key := by
  unfold toLog
  rw [List.eraseP_map]
  rfl

/-- Every call keeps the invariant, unless it writes a value that does not fit. -/
theorem step_spec (h : KVInv kv es) {op : Op} (htop : (toLog es).Extracts op)
    (hstep : (toLog es).Step op log) :
    ((toLog es).Fits op → ∃ kv' es', kv.step op = some kv' ∧ KVInv kv' es' ∧ toLog es' = log) ∧
      (¬(toLog es).Fits op → kv.step op = none) := by
  cases op with
  | write key value =>
    cases hstep
    obtain ⟨hok, hfail⟩ := write_spec h key value
    have hfits : (toLog es).Fits (.write key value) ↔ es.length < 2 ^ 31 := by
      simp [ValueLog.Fits, toLog]
    rw [hfits]
    refine ⟨fun hlen => ?_, fun hlen => ?_⟩
    · obtain ⟨kv', l, idx, hw, hinv⟩ := hok hlen
      exact ⟨kv', _, by rw [step, hw]; rfl, hinv, rfl⟩
    · rw [step, hfail hlen]
      rfl
  | read key =>
    cases hstep
    obtain ⟨r, hr, -⟩ := read_spec h key
    exact ⟨fun _ => ⟨kv, es, by rw [step, hr]; rfl, h, rfl⟩, fun hn => absurd trivial hn⟩
  | extract key value =>
    cases hstep
    obtain ⟨kv', res, hext, hinv, -⟩ := extract_spec h key value htop
    exact ⟨fun _ => ⟨kv', _, by rw [step, hext]; rfl, hinv, toLog_eraseP⟩,
      fun hn => absurd trivial hn⟩

/-! ## Runs -/

theorem follow_spec (h : KVInv kv es)
    (hrun : Run (restrict ValueLog.Step ValueLog.Extracts) (toLog es) ops log) :
    (Run (restrict ValueLog.Step ValueLog.Fits) (toLog es) ops log →
      ∃ kv' es', follow step kv ops = some kv' ∧ KVInv kv' es' ∧ toLog es' = log) ∧
    (¬Run (restrict ValueLog.Step ValueLog.Fits) (toLog es) ops log → follow step kv ops = none) := by
  induction ops generalizing kv es with
  | nil => exact ⟨fun _ => ⟨kv, es, rfl, h, hrun⟩, fun hn => absurd hrun hn⟩
  | cons op ops ih =>
    obtain ⟨log₁, ⟨htop, hstep⟩, hrest⟩ := hrun
    obtain ⟨hok, hfail⟩ := step_spec h htop hstep
    by_cases hfits : (toLog es).Fits op
    · obtain ⟨kv₁, es₁, hkv₁, hinv₁, rfl⟩ := hok hfits
      have hiff : Run (restrict ValueLog.Step ValueLog.Fits) (toLog es) (op :: ops) log ↔
          Run (restrict ValueLog.Step ValueLog.Fits) (toLog es₁) ops log := by
        constructor
        · rintro ⟨log₂, ⟨-, hstep₂⟩, hrest₂⟩
          rwa [hstep.unique hstep₂]
        · exact fun hr => ⟨_, ⟨hfits, hstep⟩, hr⟩
      have hfollow : follow step kv (op :: ops) = follow step kv₁ ops := by
        simp only [follow, hkv₁, Option.bind_some]
      rw [hiff, hfollow]
      exact ih hinv₁ hrest
    · refine ⟨fun hr => ?_, fun _ => ?_⟩
      · obtain ⟨_, ⟨hf, -⟩, -⟩ := hr
        exact absurd hf hfits
      · simp only [follow, hfail hfits, Option.bind_none]

/-! ## What is read after a run -/

/-- After the calls the key is read as in the log. -/
def ReadsRight (n : ℕ) (ops : List Op) (log : ValueLog) (key : KeyWords) : Prop :=
  ∃ kv₀ kv r, new n = some kv₀ ∧ follow step kv₀ ops = some kv ∧ kv.read key = some r ∧
    RightRead log key r

theorem le_of_new {kv₀ : KVTree} (hn : n ∣ 256) (hn' : n ≤ 32) (h : new n = some kv₀) : n ≤ 16 := by
  obtain ⟨t, ht, -⟩ := Option.map_eq_some_iff.mp h
  exact LevelTree.le_of_new hn hn' ht

theorem readsRight_iff (hn : n ∣ 256) (hn' : n ≤ 32)
    (hrun : Run (restrict ValueLog.Step ValueLog.Extracts) [] ops log) (key : KeyWords) :
    ReadsRight n ops log key ↔ n ≤ 16 ∧ Run (restrict ValueLog.Step ValueLog.Fits) [] ops log ∧
      ∀ kv₀ kv, new n = some kv₀ → follow step kv₀ ops = some kv →
        kv.tree.Clear (mixKey key) := by
  constructor
  · rintro ⟨kv₀, kv, r, hnew, hfollow, hread, hright⟩
    have hle := le_of_new hn hn' hnew
    obtain ⟨kv₀', hnew', hinv⟩ := inv_new hn hle
    obtain rfl : kv₀' = kv₀ := Option.some.inj (hnew'.symm.trans hnew)
    obtain ⟨hok, hfail⟩ := follow_spec hinv hrun
    have hfits : Run (restrict ValueLog.Step ValueLog.Fits) [] ops log := by
      by_contra hnot
      exact Option.some_ne_none kv (hfollow.symm.trans (hfail hnot))
    refine ⟨hle, hfits, fun kv₁ kv' hnew₁ hfollow' => ?_⟩
    obtain rfl : kv₁ = kv₀' := Option.some.inj (hnew₁.symm.trans hnew')
    obtain rfl : kv' = kv := Option.some.inj (hfollow'.symm.trans hfollow)
    obtain ⟨kv₂, es, hfollow₂, hinv₂, rfl⟩ := hok hfits
    obtain rfl : kv₂ = kv' := Option.some.inj (hfollow₂.symm.trans hfollow')
    obtain ⟨r', hread', hiff⟩ := read_spec hinv₂ key
    obtain rfl : r' = r := Option.some.inj (hread'.symm.trans hread)
    exact hiff.mp hright
  · rintro ⟨hle, hfits, hclear⟩
    obtain ⟨kv₀, hnew, hinv⟩ := inv_new hn hle
    obtain ⟨kv, es, hfollow, hinv', rfl⟩ := (follow_spec hinv hrun).1 hfits
    obtain ⟨r, hread, hiff⟩ := read_spec hinv' key
    exact ⟨kv₀, kv, r, hnew, hfollow, hread, hiff.mpr (hclear kv₀ kv hnew hfollow)⟩

/-- One value for one key fits, and the slot of the key is clear. -/
theorem readsRight_iff_sample :
    ReadsRight 16 [.write ⟨0, 0, 0, 0⟩ 5] [(⟨0, 0, 0, 0⟩, 5)] ⟨0, 0, 0, 0⟩ ↔ 16 ≤ 16 ∧ Run (restrict ValueLog.Step ValueLog.Fits) [] [.write ⟨0, 0, 0, 0⟩ 5]
      [(⟨0, 0, 0, 0⟩, 5)] ∧
      ∀ kv₀ kv, new 16 = some kv₀ → follow step kv₀ [.write ⟨0, 0, 0, 0⟩ 5] = some kv →
        kv.tree.Clear (mixKey ⟨0, 0, 0, 0⟩) := by
  have hrun : Run (restrict ValueLog.Step ValueLog.Extracts) [] [.write ⟨0, 0, 0, 0⟩ 5]
      [(⟨0, 0, 0, 0⟩, 5)] := ⟨_, ⟨trivial, rfl⟩, rfl⟩
  exact readsRight_iff (by norm_num) (by norm_num) hrun _

/-- Two keys that share their first 16 bits are stored in node 1, from slot number `2 ^ 16` on.  A
third key, never written, that shares 32 bits with the first one is read as the first one. -/
theorem read_of_another_key :
    ((new 16).bind fun kv => (follow step kv
      [.write ⟨0, 0, 0, 0⟩ 5, .write ⟨2 ^ 59, 0, 0, 0⟩ 7]).bind fun kv =>
        kv.read ⟨2 ^ 55, 0, 0, 0⟩) = some ⟨some 5, 32⟩ ∧
    ¬ReadsRight 16 [.write ⟨0, 0, 0, 0⟩ 5, .write ⟨2 ^ 59, 0, 0, 0⟩ 7]
      [(⟨2 ^ 59, 0, 0, 0⟩, 7), (⟨0, 0, 0, 0⟩, 5)] ⟨2 ^ 55, 0, 0, 0⟩ := by
  have hread : ((new 16).bind fun kv => (follow step kv
      [.write ⟨0, 0, 0, 0⟩ 5, .write ⟨2 ^ 59, 0, 0, 0⟩ 7]).bind fun kv =>
        kv.read ⟨2 ^ 55, 0, 0, 0⟩) = some ⟨some 5, 32⟩ := by decide +kernel
  refine ⟨hread, ?_⟩
  rintro ⟨kv₀, kv, r, hnew, hfollow, hr, hvalue, -⟩
  rw [hnew, Option.bind_some, hfollow, Option.bind_some, hr] at hread
  obtain rfl := Option.some.inj hread
  exact absurd hvalue (by decide +kernel)

end KVTree

end ZkevmProver
