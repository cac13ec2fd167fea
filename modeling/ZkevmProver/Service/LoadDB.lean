import ZkevmProver.HashDB.SmtMap

/-!
# Loading a tree from its nodes

For the trees of 64-way pages, `HashDB::loadDB` takes the nodes of a state tree apart into keys and values,
and writes these.

  1. `hashValue2keyValue`.
  2. On the nodes of a tree.
  3. Trees that are taken apart and built again.
-/

namespace ZkevmProver

open Effects PrefixTrie PrefixTrie.Trie

/-! ## `hashValue2keyValue` -/

structure KeyValue where
  key : Fea
  value : ℕ
  deriving DecidableEq

/-- The keys and values below a node, with a bound on the depth of the recursion; `none` where it is not
enough.  What the source has appended when it fails is not looked at. -/
def hashValue2keyValue (shift : WordShift) (input : NodeTable) :
    ℕ → Fea → List KeyValue → List Bool → Option (Except Fault (List KeyValue))
  | 0, _, _, _ => none
  | depth + 1, stateRoot, keyValues, bits =>
    match input.lookup stateRoot with
    | none => some (.error (.zkr .dbKeyNotFound))
    | some value =>
      if value.capacity = capacityZero then
        let left := if value.left ≠ 0 then
            hashValue2keyValue shift input depth value.left keyValues (bits ++ [false])
          else some (.ok keyValues)
        match left with
        | some (.ok keyValues) =>
          if value.right ≠ 0 then
            hashValue2keyValue shift input depth value.right keyValues (bits ++ [true])
          else some (.ok keyValues)
        | _ => left
      else if value.capacity = capacityOne then
        match input.lookup value.right with
        | none => some (.error (.zkr .dbKeyNotFound))
        | some v =>
          if v.capacity ≠ capacityZero then some (.error (.zkr .dbError))
          else some (.ok (keyValues ++ [{
            key := joinKey shift bits value.left
            value := (fea2scalar 0 (v.left, v.right)).2 }]))
      else some (.error (.zkr .dbError))

/-! ## On the nodes of a tree -/

namespace Smt

variable {smt : Smt} {input : NodeTable} {R : Set (Fea × Node)}

/-- The keys and values of a tree, left to right. -/
def keyValues (t : Tree) : List KeyValue := t.entries.map fun e => ⟨e.1, e.2⟩

theorem lookup_of_row (hR : CollisionFree {r | r ∈ input}) {n : Node} (h : smt.row n ∈ input) :
    input.lookup (smt.poseidon n) = some n := by
  obtain ⟨n', hl, hmem⟩ := lookup_of_mem h
  rw [hl, hR.unique hmem h]

/-- The keys of a subtree begin with the bits of its position. -/
def Below (bits : List Bool) (t : Tree) : Prop := ∀ k ∈ t.keys, (splitKey k).take bits.length = bits

theorem below_nil (t : Tree) : Below [] t := fun _ _ => rfl

variable {bits : List Bool} {t l r : Tree}

/-- A node has two keys, and they differ in a bit. -/
theorem Below.lt (h : Below bits (node l r)) (hlen : bits.length ≤ 256) (hwf : WF keyBit bits.length (node l r)) :
    bits.length < 256 := by
  obtain ⟨k, hk⟩ := List.exists_mem_of_length_pos (l := (node l r).keys)
    (Nat.lt_of_lt_of_le (by decide) hwf.two_le_size)
  obtain ⟨k', hk', hne⟩ := hwf.exists_other k
  obtain ⟨i, hi, hbit⟩ := exists_keyBit_ne hne
  refine Nat.lt_of_le_of_ne hlen fun heq => hbit ?_
  have htake := (h k' hk').trans (h k hk).symm
  rw [heq, take_splitKey k' le_rfl, take_splitKey k le_rfl] at htake
  exact List.map_inj_left.mp htake i (List.mem_range.mpr hi)

/-- The keys below a child have one more bit in common. -/
theorem Below.concat (h : Below bits t) (hlen : bits.length < 256) {b : Bool}
    (hb : ∀ k ∈ t.keys, keyBit k bits.length = b) : Below (bits ++ [b]) t := by
  intro k hk
  have htake := h k hk
  rw [take_splitKey k hlen.le] at htake
  rw [List.length_append, List.length_singleton, take_splitKey k hlen, List.range_succ, List.map_append, htake,
    List.map_singleton, hb k hk]

/-- One child of a node: nothing is read when it is empty. -/
theorem child_of_holds (hR : CollisionFree {r | r ∈ input}) (bits : List Bool) (depth : ℕ) {ℓ : ℕ} (hold : smt.Holds {r | r ∈ input} ℓ t)
    (kvs : List KeyValue) (hrec : t ≠ empty →
      hashValue2keyValue smt.shift input depth (smt.digest ℓ t) kvs bits = some (.ok (kvs ++ keyValues t))) :
    (if smt.digest ℓ t ≠ 0 then hashValue2keyValue smt.shift input depth (smt.digest ℓ t) kvs bits
      else some (.ok kvs)) = some (.ok (kvs ++ keyValues t)) := by
  by_cases ht : t = empty
  · subst ht
    simp [keyValues, Trie.entries]
  · rw [if_pos (hold.digest_ne_zero hR ht), hrec ht]

/-- The walk finds the keys and values of a tree, and is never deeper than 257 calls. -/
theorem hashValue2keyValue_of_holds (hR : CollisionFree {r | r ∈ input}) (ht : t ≠ empty)
    (hlen : bits.length ≤ 256) (hbelow : Below bits t) (hwf : WF keyBit bits.length t)
    (hold : smt.Holds {r | r ∈ input} bits.length t) {depth : ℕ} (hdepth : 257 ≤ depth + bits.length)
    (kvs : List KeyValue) :
    hashValue2keyValue smt.shift input depth (smt.digest bits.length t) kvs bits =
      some (.ok (kvs ++ keyValues t)) := by
  induction t generalizing bits depth kvs with
  | empty => exact absurd rfl ht
  | leaf k v =>
    obtain ⟨depth, rfl⟩ : ∃ d, depth = d + 1 := ⟨depth - 1, by omega⟩
    have hkey : joinKey smt.shift bits (removeKeyBits smt.shift k bits.length) = k := by
      have hjoin := joinKey_removeKeyBits smt.shift k hlen
      rwa [hbelow k (List.mem_singleton_self k)] at hjoin
    unfold hashValue2keyValue
    rw [digest_leaf, lookup_of_row hR hold.2.2]
    dsimp only [leafNode]
    rw [if_neg (by decide), if_pos rfl, lookup_of_row hR hold.2.1]
    dsimp only [valueNode]
    rw [if_neg (not_not_intro rfl), hkey, Prod.mk.eta, fea2scalar_scalar2fea 0 hold.1.2]
    rfl
  | node l r ihl ihr =>
    have hlt := hbelow.lt hlen hwf
    obtain ⟨depth, rfl⟩ : ∃ d, depth = d + 1 := ⟨depth - 1, by omega⟩
    obtain ⟨⟨hl, hr⟩, -, wl, wr⟩ := hwf
    have hbl : Below bits l := fun k hk => hbelow k (List.mem_append_left _ hk)
    have hbr : Below bits r := fun k hk => hbelow k (List.mem_append_right _ hk)
    have hlength (b : Bool) : (bits ++ [b]).length = bits.length + 1 := by simp
    have hleft := child_of_holds hR (bits ++ [false]) depth hold.2.1 kvs fun hne => by
      have ih : hashValue2keyValue smt.shift input depth (smt.digest (bits ++ [false]).length l) kvs (bits ++ [false]) = _ :=
        ihl hne (by rw [hlength]; omega) (hbl.concat hlt hl) (by rw [hlength]; exact wl)
          (by rw [hlength]; exact hold.2.1) (by rw [hlength]; omega) kvs
      rwa [hlength] at ih
    have hright := child_of_holds hR (bits ++ [true]) depth hold.2.2 (kvs ++ keyValues l) fun hne => by
      have ih : hashValue2keyValue smt.shift input depth (smt.digest (bits ++ [true]).length r) (kvs ++ keyValues l)
          (bits ++ [true]) = _ :=
        ihr hne (by rw [hlength]; omega) (hbr.concat hlt hr) (by rw [hlength]; exact wr)
          (by rw [hlength]; exact hold.2.2) (by rw [hlength]; omega) (kvs ++ keyValues l)
      rwa [hlength] at ih
    unfold hashValue2keyValue
    rw [show smt.digest bits.length (node l r) = smt.poseidon ⟨smt.digest (bits.length + 1) l,
      smt.digest (bits.length + 1) r, capacityZero⟩ from rfl, lookup_of_row hR hold.1]
    dsimp only
    rw [if_pos rfl, hleft]
    dsimp only
    rw [hright, List.append_assoc]
    simp [keyValues, Trie.entries]

/-! ## Trees that are taken apart and built again -/

theorem written_of_not_mem {ops : List (Fea × ℕ)} {k : Fea} (h : k ∉ ops.map Prod.fst) (m : Fea → ℕ) :
    written m ops k = m k := by
  induction ops generalizing m with
  | nil => rfl
  | cons op ops ih =>
    rw [List.map_cons, List.mem_cons, not_or] at h
    exact (ih h.2 _).trans (Function.update_of_ne h.1 _ _)

theorem written_of_mem {ops : List (Fea × ℕ)} (hnodup : (ops.map Prod.fst).Nodup) {k : Fea} {v : ℕ}
    (h : (k, v) ∈ ops) (m : Fea → ℕ) : written m ops k = v := by
  induction ops generalizing m with
  | nil => exact absurd h List.not_mem_nil
  | cons op ops ih =>
    obtain ⟨hop, hnodup⟩ := List.nodup_cons.mp hnodup
    rcases List.mem_cons.mp h with rfl | h
    · exact (written_of_not_mem hop _).trans (Function.update_self _ _ _)
    · exact ih hnodup h _

/-- Writing the entries of a tree to the empty map gives its values. -/
theorem written_entries (hwf : WF keyBit 0 t) : written (fun _ => 0) t.entries = t.value := by
  funext k
  have hnodup : (t.entries.map Prod.fst).Nodup := by
    rw [map_fst_entries]
    exact hwf.nodup
  unfold Tree.value
  cases hget : Trie.get keyBit 0 t k with
  | some v => exact written_of_mem hnodup (hwf.mem_entries_iff.mpr hget) _
  | none =>
    refine written_of_not_mem (fun hk => ?_) _
    rw [map_fst_entries] at hk
    exact absurd (hwf.get_isSome hk) (by rw [hget]; decide)

theorem mem_keyValues_iff (hwf : WF keyBit 0 t) (hold : smt.Holds R 0 t) (k : Fea) (v : ℕ) :
    ⟨k, v⟩ ∈ keyValues t ↔ v ≠ 0 ∧ t.value k = v := by
  have hmem : ⟨k, v⟩ ∈ keyValues t ↔ (k, v) ∈ t.entries := by
    unfold keyValues
    constructor
    · intro h
      obtain ⟨e, he, heq⟩ := List.mem_map.mp h
      injection heq with hk hv
      subst hk hv
      exact he
    · exact fun h => List.mem_map.mpr ⟨_, h, rfl⟩
  rw [hmem, hwf.mem_entries_iff, hold.get_eq]
  split
  · rename_i h0
    refine iff_of_false (by simp) fun h => h.1 (h.2.symm.trans h0)
  · rename_i h0
    constructor
    · intro h
      obtain rfl := Option.some.inj h
      exact ⟨h0, rfl⟩
    · exact fun h => congrArg some h.2

/-- What `loadDB` writes. -/
def writesOf (kvs : List KeyValue) : List (Fea × ℕ) := kvs.map fun e => (e.key, e.value)

section RoundTrip

variable {σ σ' : Type} {h : SmtHandler σ} {h' : SmtHandler σ'} {ctx ctx' : SmtContext} {S : NodeStore h ctx}

/-- **A tree is taken apart and built again.**  From the nodes of a tree that is not empty,
`hashValue2keyValue` gives every key that has a value, once, with its value; writing these one by one to any
store gives the root again. -/
theorem hashValue2keyValue_roundTrip {s : σ} {root : Fea} (hreach : Reached smt S s root) (hroot : root ≠ 0)
    (hrows : ∀ r ∈ S.rows s, r ∈ input) (hinput : CollisionFree {r | r ∈ input}) {depth : ℕ} (hdepth : 257 ≤ depth) :
    ∃ kvs, hashValue2keyValue smt.shift input depth root [] [] = some (.ok kvs) ∧ (kvs.map KeyValue.key).Nodup ∧
      (∀ k v, ⟨k, v⟩ ∈ kvs ↔ v ≠ 0 ∧ smt.valueAt h s root k = .ok v) ∧
      ∀ (S' : NodeStore h' ctx') (s' : σ'), S'.idle s' →
        CollisionFree (S'.rows (run h' (smt.setAll ctx' (writesOf kvs) 0) s').2) →
        (run h' (smt.setAll ctx' (writesOf kvs) 0) s').1 = .ok root := by
  have hR : CollisionFree (S.rows s) := hinput.mono hrows
  obtain ⟨-, m, hm⟩ := hreach.represents hR
  obtain ⟨t, hwf, hold, rfl, htm⟩ := hm
  have hne : t ≠ empty := by
    rintro rfl
    exact hroot rfl
  have hwalk : hashValue2keyValue smt.shift input depth (smt.digest ([] : List Bool).length t) [] [] = _ :=
    hashValue2keyValue_of_holds hinput hne (Nat.zero_le _) (below_nil t) hwf (hold.mono hrows) hdepth []
  refine ⟨keyValues t, hwalk, ?_, fun k v => ?_, fun S' s' hidle hR' => ?_⟩
  · unfold keyValues
    rw [List.map_map]
    exact (map_fst_entries t).symm ▸ hwf.nodup
  · rw [mem_keyValues_iff hwf hold, valueAt_of_represents hR ⟨t, hwf, hold, rfl, htm⟩, Except.ok.injEq, htm]
  · have hwrites : writesOf (keyValues t) = t.entries := by
      unfold writesOf keyValues
      rw [List.map_map]
      exact List.map_id _
    rw [hwrites] at hR' ⊢
    have hv : ∀ op ∈ t.entries, op.2 < 2 ^ 256 := fun op hop =>
      (hold.leafValue (hwf.mem_entries_iff.mp hop)).2
    obtain ⟨root', s'', hrun, hm'⟩ := runs_setAll hidle hv hR' (represents_zero smt _)
    rw [written_entries hwf] at hm'
    have heq := hm'.root_unique ⟨t, hwf, hold, rfl, fun _ => rfl⟩
    rw [← heq]
    exact congrArg Prod.fst hrun

end RoundTrip

theorem hashValue2keyValue_roundTrip_sample :
    ∃ kvs, hashValue2keyValue sampleSmt.shift sampleState 257 sampleRoot [] [] = some (.ok kvs) ∧
      (kvs.map KeyValue.key).Nodup ∧
      (∀ k v, ⟨k, v⟩ ∈ kvs ↔ v ≠ 0 ∧ sampleSmt.valueAt dbHandler sampleState sampleRoot k = .ok v) ∧
      ∀ (S' : NodeStore dbHandler directContext) (s' : NodeTable), S'.idle s' →
        CollisionFree (S'.rows (run dbHandler (sampleSmt.setAll directContext (writesOf kvs) 0) s').2) →
        (run dbHandler (sampleSmt.setAll directContext (writesOf kvs) 0) s').1 = .ok sampleRoot :=
  hashValue2keyValue_roundTrip reached_sample (by decide) (fun _ hr => hr)
    (NodeTable.collisionFree (by decide)) le_rfl

end Smt

end ZkevmProver
