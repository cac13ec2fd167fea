import ZkevmProver.HashDB.SmtMap
import ZkevmProver.Storage.SmtActionContext

/-!
# Merkle paths

The results of `Smt::get` and `Smt::set` are witnesses: folding the siblings they return, from the
last level up along the bits of the key, gives the roots.

  1. Folding siblings.
  2. The path of `get`.
  3. The two paths of `set`, from the leaves that its mode denotes.
-/

namespace ZkevmProver

open Effects PrefixTrie PrefixTrie.Trie

namespace Smt

variable {σ : Type} {h : SmtHandler σ} {ctx : SmtContext} {S : NodeStore h ctx} {smt : Smt}

/-! ## Folding siblings -/

/-- Folds the siblings of level 0, 1, … from the last one up: at each level the hash from below goes
on the side of the key bit, beside the other child of the sibling. -/
def foldSiblings (smt : Smt) (bits : List Bool) (siblings : List Node) (hash : Fea) : Fea :=
  (bits.zip siblings).foldr (fun s hash => smt.poseidon (branchNode s.1 hash (s.2.child (!s.1)))) hash

/-- Two leaves that part at the last of the bits, and the levels above them with nothing beside the
path. -/
def foldPair (smt : Smt) : List Bool → Fea → Fea → Fea
  | [], hash, _ => hash
  | [b], hash, hash' => smt.poseidon (branchNode b hash hash')
  | b :: bits, hash, hash' => smt.poseidon (branchNode b (foldPair smt bits hash hash') 0)

theorem take_length_zip {α β : Type*} (l : List α) (l' : List β) :
    (l.take l'.length).zip l' = l.zip l' := by
  induction l generalizing l' with
  | nil => simp
  | cons a l ih => cases l' <;> simp [ih]

@[simp] theorem length_siblingsOf (sp : TreeSpine) (x : Tree) :
    (smt.siblingsOf sp x).length = sp.length := by
  simp [siblingsOf]

/-- The siblings of a position fold to the root, whatever they had at the position. -/
theorem foldSiblings_siblingsOf (smt : Smt) {sp : TreeSpine} {bits : List Bool}
    (hbits : bits.take sp.length = (sp.map Prod.fst).reverse) (x x' : Tree) :
    smt.foldSiblings bits (smt.siblingsOf sp x) (smt.digest sp.length x') =
      smt.digest 0 (plug sp x') := by
  unfold foldSiblings
  rw [← take_length_zip, length_siblingsOf, hbits]
  clear hbits bits
  induction sp generalizing x x' with
  | nil => rfl
  | cons f sp ih =>
    obtain ⟨b, s⟩ := f
    rw [siblingsOf_cons, plug, ← ih (join b x s) (join b x' s), List.map_cons, List.reverse_cons,
      List.zip_append (by simp), List.foldr_append, digest_join]
    simp

/-- The bits of a position on the path of a key. -/
theorem take_range_keyBit {k : Fea} {sp : TreeSpine} (hk : OnPath keyBit k sp)
    (hlen : sp.length ≤ 256) {n : ℕ} (hn : sp.length ≤ n) :
    ((List.range n).map (keyBit k)).take sp.length = (sp.map Prod.fst).reverse := by
  rw [bits_of_onPath hk hlen, take_splitKey k hlen, ← List.map_take, List.take_range,
    Nat.min_eq_left hn]

/-! ## The path of `get` -/

/-- The leaf that the result of `get` shows at the end of the path: the one of the key, the one of
another key, or none. -/
def getLeafState (smt : Smt) (r : SmtGetResult) : Fea :=
  let level := r.siblings.length
  if r.value ≠ 0 then smt.poseidon (smt.leafNode level r.key r.value)
  else if r.isOld0 then 0
  else smt.poseidon (smt.leafNode level r.insKey r.insValue)

/-- **The path of `get`.**  Folding the siblings of the result, from the leaf it shows, gives the
root; a leaf of another key agrees with the key on all bits of the path. -/
theorem get_path {s : σ} {root : Fea} (hreach : Reached smt S s root)
    (hR : CollisionFree (S.rows s)) (k : Fea) :
    ∃ r, Runs h (smt.get root k) s r s ∧
      (SmtActionContext.init (.get r)).keys.bits = (splitKey k).take r.siblings.length ∧
      smt.foldSiblings (SmtActionContext.init (.get r)).keys.bits r.siblings
        (smt.getLeafState r) = root ∧
      (r.isOld0 = false → r.value = 0 ∧ r.insKey ≠ k ∧
        ∀ i < r.siblings.length, keyBit r.insKey i = keyBit k i) := by
  obtain ⟨-, m, t, hwf, hold, rfl, -⟩ := hreach.represents hR
  have hrun := reads_get (S := S) hR hwf hold k s rfl
  have loc := located_locate k hwf
  have hplug := plug_locate_root k t
  generalize locate keyBit k 0 t [] = p at hrun loc hplug
  obtain ⟨sp, e⟩ := p
  obtain rfl : plug sp e = t := hplug
  have hfold := foldSiblings_siblingsOf smt (take_range_keyBit loc.onPath loc.length_le le_rfl) e e
  rcases loc.ends with rfl | ⟨k', v', rfl⟩
  · refine ⟨_, hrun, ?_, ?_, by simp [getResultOf]⟩
    · simp [SmtActionContext.init, getResultOf, foldl_take, takenBits,
        take_splitKey k loc.length_le]
    · simpa [SmtActionContext.init, getResultOf, foldl_take, takenBits, getLeafState] using hfold
  · obtain ⟨-, ⟨hv', -⟩, -⟩ := holds_plug_iff.mp hold
    by_cases hk : k = k'
    · refine ⟨_, hrun, ?_, ?_, by simp [getResultOf, hk]⟩
      · simp [SmtActionContext.init, getResultOf, hk, foldl_take, takenBits,
          take_splitKey k' loc.length_le]
      · simpa [SmtActionContext.init, getResultOf, hk, foldl_take, takenBits, getLeafState,
          hv'.1.ne'] using hfold
    · refine ⟨_, hrun, ?_, ?_, fun _ => ?_⟩
      · simp [SmtActionContext.init, getResultOf, hk, foldl_take, takenBits,
          take_splitKey k loc.length_le]
      · simpa [SmtActionContext.init, getResultOf, hk, foldl_take, takenBits, getLeafState]
          using hfold
      · simp only [getResultOf, hk, if_false, length_siblingsOf]
        exact ⟨trivial, Ne.symm hk, (loc.keys_onPath k' (by simp)).bit_eq loc.onPath⟩

/-- The path of a key that meets the leaf of another one. -/
theorem get_path_sample :
    ∃ r, Runs dbHandler (sampleSmt.get sampleRoot ⟨5, 0, 0, 0⟩) sampleState r sampleState ∧
      (SmtActionContext.init (.get r)).keys.bits =
        (splitKey ⟨5, 0, 0, 0⟩).take r.siblings.length ∧
      sampleSmt.foldSiblings (SmtActionContext.init (.get r)).keys.bits r.siblings
        (sampleSmt.getLeafState r) = sampleRoot ∧
      (r.isOld0 = false → r.value = 0 ∧ r.insKey ≠ ⟨5, 0, 0, 0⟩ ∧
        ∀ i < r.siblings.length, keyBit r.insKey i = keyBit ⟨5, 0, 0, 0⟩ i) :=
  get_path reached_sample (NodeTable.collisionFree (by decide)) ⟨5, 0, 0, 0⟩

/-! ## The paths of `set` -/

/-- What the mode of a result says was at the end of the path before the call: the leaf of the key,
the leaf of another key, both at the level where they part, or nothing. -/
def oldLeafState (smt : Smt) (r : SmtSetResult) : Fea :=
  let level := r.siblings.length
  let c := SmtActionContext.init (.set r)
  match r.mode with
  | .update | .deleteNotFound | .deleteLast => smt.poseidon (smt.leafNode level r.key r.oldValue)
  | .insertNotFound => 0
  | .insertFound => smt.poseidon (smt.leafNode level r.insKey r.insValue)
  | .deleteFound =>
    smt.foldPair (c.keys.bits.drop level) (smt.poseidon (smt.leafNode c.level r.key r.oldValue))
      (smt.poseidon (smt.leafNode c.level r.insKey r.insValue))
  | .zeroToZero =>
    if r.isOld0 then 0 else smt.poseidon (smt.leafNode level r.insKey r.insValue)

/-- What the mode of a result says is at the end of the path after the call. -/
def newLeafState (smt : Smt) (r : SmtSetResult) : Fea :=
  let level := r.siblings.length
  let c := SmtActionContext.init (.set r)
  match r.mode with
  | .update | .insertNotFound => smt.poseidon (smt.leafNode level r.key r.newValue)
  | .insertFound =>
    smt.foldPair (c.keys.bits.drop level) (smt.poseidon (smt.leafNode c.level r.key r.newValue))
      (smt.poseidon (smt.leafNode c.level r.insKey r.insValue))
  | .deleteFound => smt.poseidon (smt.leafNode level r.insKey r.insValue)
  | .deleteNotFound | .deleteLast => 0
  | .zeroToZero =>
    if r.isOld0 then 0 else smt.poseidon (smt.leafNode level r.insKey r.insValue)

theorem digest_fork (k k' : Fea) (v v' ℓ n : ℕ) :
    smt.digest ℓ (fork keyBit k v k' v' ℓ n) =
      smt.foldPair ((List.range (n + 1)).map fun i => keyBit k (ℓ + i))
        (smt.poseidon (smt.leafNode (ℓ + n + 1) k v))
        (smt.poseidon (smt.leafNode (ℓ + n + 1) k' v')) := by
  induction n generalizing ℓ with
  | zero => exact smt.digest_join _ _ _ _
  | succ n ih =>
    have hbits : (List.range (n + 1 + 1)).map (fun i => keyBit k (ℓ + i)) =
        keyBit k ℓ :: keyBit k (ℓ + 1) :: ((List.range n).map fun i => keyBit k (ℓ + 1 + (i + 1))) := by
      rw [List.range_succ_eq_map, List.range_succ_eq_map]
      simp [Nat.add_comm, Nat.add_left_comm]
    have hbits' : (List.range (n + 1)).map (fun i => keyBit k (ℓ + 1 + i)) =
        keyBit k (ℓ + 1) :: ((List.range n).map fun i => keyBit k (ℓ + 1 + (i + 1))) := by
      rw [List.range_succ_eq_map]
      simp
    rw [fork_succ, digest_join, ih, hbits, hbits',
      show ℓ + 1 + n + 1 = ℓ + (n + 1) + 1 by omega]
    rfl

theorem drop_range_keyBit (k : Fea) (ℓ n : ℕ) :
    ((List.range (ℓ + n)).map (keyBit k)).drop ℓ =
      (List.range n).map fun i => keyBit k (ℓ + i) := by
  rw [List.range_add, List.map_append, List.drop_left' (by simp), List.map_map]
  rfl

/-- In the modes with a found sibling the context takes the bits down to where the keys part. -/
theorem init_found {r : SmtSetResult} (hmode : r.mode = .insertFound ∨ r.mode = .deleteFound)
    {d : ℕ} (hd : d < 256) (heq : ∀ i < d, keyBit r.insKey i = keyBit r.key i)
    (hne : keyBit r.insKey d = !keyBit r.key d) :
    SmtActionContext.init (.set r) = ⟨d + 1, d + 1, takenBits r.key r.insKey (d + 1)⟩ := by
  have hkeys := takeUntilDiffer_takenBits heq hne (Nat.zero_le d) (show d < 0 + 256 by omega)
  rw [takenBits_zero] at hkeys
  rcases hmode with hmode | hmode <;>
    simp [SmtActionContext.init, hmode, hkeys, takenBits]

/-- In the other modes it takes as many bits as there are siblings. -/
theorem init_level {r : SmtSetResult} (hmode : r.mode = .update ∨ r.mode = .deleteNotFound ∨
      r.mode = .zeroToZero ∨ r.mode = .insertNotFound) :
    SmtActionContext.init (.set r) =
      ⟨r.siblings.length, r.siblings.length, takenBits r.key r.insKey r.siblings.length⟩ := by
  rcases hmode with hmode | hmode | hmode | hmode <;>
    simp [SmtActionContext.init, hmode, foldl_take]

/-- A result is a witness for two trees: its siblings fold to their roots, from what the mode says
was and is at the end of the path. -/
def Witnesses (smt : Smt) (r : SmtSetResult) (t t' : Tree) : Prop :=
  let bits := (SmtActionContext.init (.set r)).keys.bits
  smt.foldSiblings bits r.siblings (smt.oldLeafState r) = smt.digest 0 t ∧
    smt.foldSiblings bits r.siblings (smt.newLeafState r) = smt.digest 0 t'

variable {k : Fea} {v : ℕ} {sp : TreeSpine} {e : Tree}

/-- The siblings of a plan fold to the root of the tree with any subtree at its position. -/
theorem foldSiblings_plan {p : Plan} (hpath : OnPath keyBit k p.spine)
    (hlen : p.spine.length ≤ 256) {n : ℕ} (hn : p.spine.length ≤ n) (root : Fea) (x : Tree) :
    smt.foldSiblings (takenBits k (resultOf smt root k v p).insKey n).bits
        (resultOf smt root k v p).siblings (smt.digest p.spine.length x) =
      smt.digest 0 (plug p.spine x) :=
  foldSiblings_siblingsOf smt (take_range_keyBit hpath hlen hn) p.sub x

theorem witnesses_level {p : Plan} (hmode : p.mode = .update ∨ p.mode = .deleteNotFound ∨
      p.mode = .zeroToZero ∨ p.mode = .insertNotFound)
    (hpath : OnPath keyBit k p.spine) (hlen : p.spine.length ≤ 256) (root : Fea) {x : Tree}
    (hold : smt.oldLeafState (resultOf smt root k v p) = smt.digest p.spine.length x)
    (hnew : smt.newLeafState (resultOf smt root k v p) = smt.digest p.spine.length p.sub) :
    smt.Witnesses (resultOf smt root k v p) (plug p.spine x) p.tree := by
  have hinit := init_level (r := resultOf smt root k v p) hmode
  rw [show (resultOf smt root k v p).siblings.length = p.spine.length from
    length_siblingsOf _ _] at hinit
  refine ⟨?_, ?_⟩
  · rw [hold, hinit]
    exact foldSiblings_plan hpath hlen le_rfl root x
  · rw [hnew, hinit]
    exact foldSiblings_plan hpath hlen le_rfl root p.sub

/-- Where two keys part is the level of the last bit of the context. -/
theorem parting_lt {k k' : Fea} {d : ℕ} (hne : keyBit k' d = !keyBit k d) : d < 256 := by
  by_contra hge
  rw [keyBit_of_le (by omega), keyBit_of_le (by omega)] at hne
  simp at hne

/-- The pair of leaves that the context describes is a fork. -/
theorem foldPair_takenBits (k k' : Fea) (v v' ℓ n : ℕ) :
    smt.foldPair ((takenBits k k' (ℓ + n + 1)).bits.drop ℓ)
        (smt.poseidon (smt.leafNode (ℓ + n + 1) k v))
        (smt.poseidon (smt.leafNode (ℓ + n + 1) k' v')) =
      smt.digest ℓ (fork keyBit k v k' v' ℓ n) := by
  rw [takenBits, Nat.add_assoc, drop_range_keyBit, digest_fork, Nat.add_assoc]

/-- Two keys on the path to a position that part `n` levels below it. -/
structure PartsAt (k k' : Fea) (sp : TreeSpine) (n : ℕ) : Prop where
  onPath : OnPath keyBit k sp
  onPath' : OnPath keyBit k' sp
  bit_eq : ∀ i < n, keyBit k' (sp.length + i) = keyBit k (sp.length + i)
  bit_ne : keyBit k' (sp.length + n) = !keyBit k (sp.length + n)

theorem PartsAt.bit_eq_above {k' : Fea} {n : ℕ} (h : PartsAt k k' sp n) :
    ∀ i < sp.length + n, keyBit k' i = keyBit k i := by
  intro i hi
  rcases Nat.lt_or_ge i sp.length with hlt | hge
  · exact h.onPath'.bit_eq h.onPath i hlt
  · obtain ⟨j, rfl⟩ := Nat.exists_eq_add_of_le hge
    exact h.bit_eq j (by omega)

theorem PartsAt.length_le {k' : Fea} {n : ℕ} (h : PartsAt k k' sp n) : sp.length ≤ 256 := by
  have := parting_lt h.bit_ne
  omega

theorem witnesses_insertFound {k' : Fea} {v' n : ℕ} (hpart : PartsAt k k' sp n) (root : Fea)
    (counter : ℕ) :
    smt.Witnesses
      (resultOf smt root k v
        { mode := .insertFound, spine := sp, sub := fork keyBit k v k' v' sp.length n
          ins := some (k', v'), proofHashCounter := counter })
      (plug sp (leaf k' v')) (plug sp (fork keyBit k v k' v' sp.length n)) := by
  set p : Plan :=
    { mode := .insertFound, spine := sp, sub := fork keyBit k v k' v' sp.length n
      ins := some (k', v'), proofHashCounter := counter }
  have hinit := init_found (r := resultOf smt root k v p) (Or.inl rfl)
    (parting_lt hpart.bit_ne) hpart.bit_eq_above hpart.bit_ne
  have hlevel : (resultOf smt root k v p).siblings.length = sp.length := length_siblingsOf _ _
  have hold : smt.oldLeafState (resultOf smt root k v p) = smt.digest sp.length (leaf k' v') := by
    rw [← hlevel]
    rfl
  have hnew : smt.newLeafState (resultOf smt root k v p) = smt.digest sp.length p.sub := by
    refine Eq.trans ?_ (foldPair_takenBits k k' v v' sp.length n)
    simp only [newLeafState, hinit, hlevel]
    rfl
  have hle : sp.length ≤ sp.length + n + 1 := by omega
  unfold Witnesses
  rw [hold, hnew, hinit]
  exact ⟨foldSiblings_plan (p := p) hpart.onPath hpart.length_le hle root (leaf k' v'),
    foldSiblings_plan (p := p) hpart.onPath hpart.length_le hle root p.sub⟩

theorem witnesses_deleteFound {k' : Fea} {v' v₀ n : ℕ} (hpart : PartsAt k k' sp n) (root : Fea)
    (counter : ℕ) :
    smt.Witnesses
      (resultOf smt root k v
        { mode := .deleteFound, spine := sp, sub := leaf k' v', ins := some (k', v')
          oldValue := v₀, proofHashCounter := counter })
      (plug sp (fork keyBit k v₀ k' v' sp.length n)) (plug sp (leaf k' v')) := by
  set p : Plan :=
    { mode := .deleteFound, spine := sp, sub := leaf k' v', ins := some (k', v')
      oldValue := v₀, proofHashCounter := counter }
  have hinit := init_found (r := resultOf smt root k v p) (Or.inr rfl)
    (parting_lt hpart.bit_ne) hpart.bit_eq_above hpart.bit_ne
  have hlevel : (resultOf smt root k v p).siblings.length = sp.length := length_siblingsOf _ _
  have hold : smt.oldLeafState (resultOf smt root k v p) =
      smt.digest sp.length (fork keyBit k v₀ k' v' sp.length n) := by
    refine Eq.trans ?_ (foldPair_takenBits k k' v₀ v' sp.length n)
    simp only [oldLeafState, hinit, hlevel]
    rfl
  have hnew : smt.newLeafState (resultOf smt root k v p) = smt.digest sp.length p.sub := by
    rw [← hlevel]
    rfl
  have hle : sp.length ≤ sp.length + n + 1 := by omega
  unfold Witnesses
  rw [hold, hnew, hinit]
  exact ⟨foldSiblings_plan (p := p) hpart.onPath hpart.length_le hle root _,
    foldSiblings_plan (p := p) hpart.onPath hpart.length_le hle root p.sub⟩

/-- The plan of a deletion is a witness. -/
theorem witnesses_planDelete {v₀ : ℕ} (loc : Located k sp (leaf k v₀)) (root : Fea)
    (counter : ℕ) :
    smt.Witnesses (resultOf smt root k v (planDelete smt v₀ counter sp)) (plug sp (leaf k v₀))
      (planDelete smt v₀ counter sp).tree := by
  have hlen := loc.length_le
  cases sp with
  | nil =>
    exact witnesses_level (p := planDelete smt v₀ counter []) (Or.inr (Or.inl rfl)) trivial
      (Nat.zero_le _) root (x := leaf k v₀) rfl rfl
  | cons f above =>
    obtain ⟨b, s⟩ := f
    cases s with
    | empty => exact absurd loc.full.1 (by simp)
    | leaf k' v' =>
      obtain ⟨⟨⟨-, hoff⟩, -⟩, -⟩ := wf_plug_iff.mp loc.wf
      obtain ⟨hbit', hpath'⟩ := hoff k' (by simp)
      obtain ⟨hbit, hpath⟩ := loc.onPath
      obtain ⟨m, hm, hplug⟩ := plug_fork hpath k' v₀ v' 0
      have hpart : PartsAt k k' (above.dropWhile fun f => f.2.isEmpty) m := by
        refine ⟨hpath.dropWhile _, hpath'.dropWhile _, fun i hi => ?_, ?_⟩
        · exact hpath'.bit_eq hpath _ (by omega)
        · rw [hm, Nat.add_zero, hbit, hbit']
      have hold : plug ((b, leaf k' v') :: above) (leaf k v₀) =
          plug above (fork keyBit k v₀ k' v' above.length 0) := by
        rw [plug, fork, hbit]
      rw [hold, hplug]
      exact witnesses_deleteFound hpart root (counter + 3)
    | node l r =>
      refine witnesses_level (p := planDelete smt v₀ counter ((b, node l r) :: above))
        (Or.inr (Or.inl rfl)) loc.onPath hlen root (x := leaf k v₀) ?_ rfl
      have hlevel : (resultOf smt root k v
          (planDelete smt v₀ counter ((b, node l r) :: above))).siblings.length =
            ((b, node l r) :: above).length := length_siblingsOf _ _
      simp only [oldLeafState, hlevel]
      rfl

/-- The result of a plan is a witness for the tree before and the tree after. -/
theorem witnesses_plan (loc : Located k sp e) (root : Fea) :
    smt.Witnesses (resultOf smt root k v (plan smt k v (sp, e))) (plug sp e)
      (plan smt k v (sp, e)).tree := by
  have hlevel : ∀ v p, (resultOf smt root k v p).siblings.length = p.spine.length :=
    fun _ _ => length_siblingsOf _ _
  rcases eq_or_ne v 0 with rfl | hv
  · rcases loc.ends with rfl | ⟨k', v', rfl⟩
    · simp only [plan, ne_eq, not_true_eq_false, if_false]
      exact witnesses_level (Or.inr (Or.inr (Or.inl rfl))) loc.onPath loc.length_le root
        (x := empty) rfl rfl
    · by_cases hk : k = k'
      · subst hk
        simp only [plan, ne_eq, not_true_eq_false, if_false, if_true]
        exact witnesses_planDelete loc root _
      · simp only [plan, ne_eq, not_true_eq_false, if_false, hk]
        refine witnesses_level (Or.inr (Or.inr (Or.inl rfl))) loc.onPath loc.length_le root
          (x := leaf k' v') ?_ ?_
        · simp only [oldLeafState, hlevel]
          rfl
        · simp only [newLeafState, hlevel]
          rfl
  · rcases loc.ends with rfl | ⟨k', v', rfl⟩
    · simp only [plan, hv, ne_eq, not_false_eq_true, if_true]
      refine witnesses_level (Or.inr (Or.inr (Or.inr rfl))) loc.onPath loc.length_le root
        (x := empty) rfl ?_
      simp only [newLeafState, hlevel]
      rfl
    · by_cases hk : k = k'
      · subst hk
        simp only [plan, hv, ne_eq, not_false_eq_true, if_true]
        refine witnesses_level (Or.inl rfl) loc.onPath loc.length_le root (x := leaf k v') ?_ ?_
        · simp only [oldLeafState, hlevel]
          rfl
        · simp only [newLeafState, hlevel]
          rfl
      · obtain ⟨heq, hne, -⟩ := loc.commonLevels_spec hk
        simp only [plan, hv, ne_eq, not_false_eq_true, if_true, hk, if_false]
        exact witnesses_insertFound
          ⟨loc.onPath, loc.keys_onPath k' (by simp), heq, hne⟩ root _

/-- The value of the key before the call is the one that the plan reports. -/
theorem oldValue_plan (loc : Located k sp e) :
    (plan smt k v (sp, e)).oldValue = Tree.value (plug sp e) k := by
  have hdelete : ∀ v' counter, (planDelete smt v' counter sp).oldValue = v' := by
    intro v' counter
    rcases sp with - | ⟨⟨b, s⟩, above⟩
    · rfl
    · cases s <;> rfl
  rw [Tree.value, get_plug loc.onPath]
  rcases loc.ends with rfl | ⟨k', v', rfl⟩
  · by_cases hv : v = 0 <;> simp [plan, hv]
  · by_cases hv : v = 0 <;> by_cases hk : k = k' <;> simp [plan, hv, hk, hdelete]

/-- The children that a deletion reports are those of the sibling that stays. -/
theorem siblingChildren_plan (loc : Located k sp e)
    (hmode : (plan smt k v (sp, e)).mode = .deleteNotFound) {n : Node}
    (hn : (smt.siblingsOf (plan smt k v (sp, e)).spine (plan smt k v (sp, e)).sub).getLast? =
      some n) :
    n.child (!keyBit k ((plan smt k v (sp, e)).spine.length - 1)) =
      smt.poseidon ⟨(plan smt k v (sp, e)).siblingChildren.1,
        (plan smt k v (sp, e)).siblingChildren.2, capacityZero⟩ := by
  obtain ⟨v₀, counter, rfl, hplan⟩ : ∃ v₀ counter, e = leaf k v₀ ∧
      plan smt k v (sp, e) = planDelete smt v₀ counter sp := by
    rcases loc.ends with rfl | ⟨k', v', rfl⟩
    · by_cases hv : v = 0 <;> simp [plan, hv] at hmode
    · by_cases hdel : v = 0 ∧ k = k'
      · obtain ⟨rfl, rfl⟩ := hdel
        exact ⟨v', walkHashes (sp, leaf k v'), rfl, by simp [plan]⟩
      · by_cases hv : v = 0 <;> by_cases hk : k = k' <;> simp_all [plan]
  rw [hplan] at hmode hn ⊢
  rcases sp with - | ⟨⟨b, s⟩, above⟩
  · simp [planDelete, siblingsOf, pathOf] at hn
  · cases s with
    | empty => exact absurd loc.full.1 (by simp)
    | leaf k' v' => simp [planDelete] at hmode
    | node l r =>
      simp only [planDelete, siblingsOf_cons, List.getLast?_append, List.getLast?_singleton,
        Option.some_or, Option.some.injEq] at hn
      rw [← hn]
      simp only [planDelete, List.length_cons, Nat.add_sub_cancel, loc.onPath.1,
        child_not_branchNode]
      rfl

/-- **The paths of `set`.**  The siblings that `set` returns fold to the old root from what its mode
says was at the end of the path, and to the new root from what it says is there now; the old value
is the one that the old root has, and the children reported by a deletion hash to the sibling. -/
theorem set_paths {s : σ} {root : Fea} (hreach : Reached smt S s root) (k : Fea) {v : ℕ}
    (hv : v < 2 ^ 256) (hR : CollisionFree (S.rows (run h (smt.set ctx root k v) s).2)) :
    ∃ r s', Runs h (smt.set ctx root k v) s r s' ∧
      smt.foldSiblings (SmtActionContext.init (.set r)).keys.bits r.siblings
        (smt.oldLeafState r) = root ∧
      smt.foldSiblings (SmtActionContext.init (.set r)).keys.bits r.siblings
        (smt.newLeafState r) = r.newRoot ∧
      r.key = k ∧ r.newValue = v ∧ smt.valueAt h s root k = .ok r.oldValue ∧
      (r.mode = .deleteNotFound → ∀ n, r.siblings.getLast? = some n →
        n.child (!keyBit k (r.siblings.length - 1)) =
          smt.poseidon ⟨r.siblingLeftChild, r.siblingRightChild, capacityZero⟩) := by
  have hR₀ := hR.mono (NodeStore.rows_subset_run (S := S) _ _)
  obtain ⟨hidle, m, t, hwf, hold, rfl, hm⟩ := hreach.represents hR₀
  obtain ⟨s', hrun, -⟩ := runs_set S hidle hR₀ hwf hold k hv
  have loc := located_locate k hwf
  have hplug := plug_locate_root k t
  generalize locate keyBit k 0 t [] = p at hrun loc hplug
  obtain ⟨sp, e⟩ := p
  obtain rfl : plug sp e = t := hplug
  have hpaths := @witnesses_plan smt k v sp e loc (smt.digest 0 (plug sp e))
  refine ⟨_, s', hrun, hpaths.1, hpaths.2, rfl, rfl, ?_, fun hmode n hn => ?_⟩
  · rw [valueAt_of_represents hR₀ ⟨_, hwf, hold, rfl, hm⟩, ← hm]
    exact congrArg Except.ok (oldValue_plan loc).symm
  · rw [show (resultOf smt _ k v (plan smt k v (sp, e))).siblings.length = _ from
      length_siblingsOf _ _]
    exact siblingChildren_plan loc hmode hn

/-- The insertion of a key beside the leaf of another one. -/
theorem set_paths_sample :
    ∃ r s', Runs dbHandler (sampleSmt.set directContext sampleRoot ⟨5, 0, 0, 0⟩ 4) sampleState
        r s' ∧
      sampleSmt.foldSiblings (SmtActionContext.init (.set r)).keys.bits r.siblings
        (sampleSmt.oldLeafState r) = sampleRoot ∧
      sampleSmt.foldSiblings (SmtActionContext.init (.set r)).keys.bits r.siblings
        (sampleSmt.newLeafState r) = r.newRoot ∧
      r.key = ⟨5, 0, 0, 0⟩ ∧ r.newValue = 4 ∧
      sampleSmt.valueAt dbHandler sampleState sampleRoot ⟨5, 0, 0, 0⟩ = .ok r.oldValue ∧
      (r.mode = .deleteNotFound → ∀ n, r.siblings.getLast? = some n →
        n.child (!keyBit ⟨5, 0, 0, 0⟩ (r.siblings.length - 1)) =
          sampleSmt.poseidon ⟨r.siblingLeftChild, r.siblingRightChild, capacityZero⟩) :=
  set_paths reached_sample ⟨5, 0, 0, 0⟩ (by decide) (NodeTable.collisionFree (by decide))

end Smt

end ZkevmProver
