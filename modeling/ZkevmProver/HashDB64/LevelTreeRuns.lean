import Mathlib.Data.BitVec
import ZkevmProver.HashDB64.LevelTreeLevel
import ZkevmProver.Lib.Transitions

/-!
# The levels after any insertions and extractions

The level of a slot is the greatest number of bits in common with another key, or one step more when the
slot cannot be told from the others by its 16-bit number.

1. The level of a slot
2. The level that `level` returns
3. The slot that `insert` takes, and the level it returns
4. Runs
5. The levels after a run
-/

namespace ZkevmProver

open RadixArray Transitions

namespace LevelTree

variable {t t' : LevelTree} {stored live : Set ℕ} {path : ℕ → List ℕ} {loose : Set ℕ}
  {key : KeyWords} {x y i j k l : ℕ} {p : Spot}

/-! ## The level of a slot -/

/-- The slots nearest to a slot, without the slot itself. -/
theorem exists_levelIn (hi : i < t.nodeSize) (hpos : 0 < t.nBitsStep) : ∃ l < t.nBitsStep, ∀ r, 0 < r →
    r ≤ t.nBitsStep → (r ≤ l ↔ ∃ j < t.nodeSize, t.slot x j ≠ 0 ∧ j ≠ i ∧
      j / 2 ^ (t.nBitsStep - r) = i / 2 ^ (t.nBitsStep - r)) := by
  obtain ⟨l, hl, -, hspec⟩ := levelLoop_spec (g := x * t.nodeSize + i) (x := x) hi 0 (le_refl t.nBitsStep)
  have hnear : ∀ r, 0 < r → r ≤ t.nBitsStep → (r ≤ l ↔ ∃ j < t.nodeSize, t.slot x j ≠ 0 ∧ j ≠ i ∧
      j / 2 ^ (t.nBitsStep - r) = i / 2 ^ (t.nBitsStep - r)) := by
    intro r hr hrn
    rw [hspec r hr hrn]
    unfold TakenNear
    simp only [ne_eq, Nat.add_left_cancel_iff]
  refine ⟨l, lt_of_le_of_ne hl ?_, hnear⟩
  rintro rfl
  obtain ⟨j, -, -, hji, hdiv⟩ := (hnear t.nBitsStep hpos le_rfl).mp le_rfl
  rw [Nat.sub_self, Nat.pow_zero, Nat.div_one, Nat.div_one] at hdiv
  exact hji hdiv

/-- The number of a slot. -/
def slotNumber (t : LevelTree) (x i : ℕ) : ℕ := x * t.nodeSize + i

/-- The level of a slot is right, or it ends with the step. -/
theorem slot_level (h : TreeInv t stored live path ∅) (hn : t.nBitsStep ≤ 16) (hx : x ∈ live)
    (hway : path x ++ [i] <+: stepsOf t.nBitsStep key) (hi : i < t.nodeSize) (hs : t.slot x i ≤ 0)
    (halone : ∀ key' ∈ t.keys stored, key' ≠ key → ¬path x ++ [i] <+: stepsOf t.nBitsStep key') :
    ∃ l, IsLevel (t.keys stored) key l ∧ l / t.nBitsStep = (path x).length ∧
      (t.slot x i = 0 ∨ t.slotNumber x i < 2 ^ 16 →
        (path x).length * t.nBitsStep + t.levelInNode x i = l) ∧
      (t.slot x i ≠ 0 → 2 ^ 16 ≤ t.slotNumber x i →
        (path x).length * t.nBitsStep + t.levelInNode x i = ((path x).length + 1) * t.nBitsStep) := by
  have hpos : 0 < t.nBitsStep := Nat.pos_of_dvd_of_pos h.dvd (by norm_num)
  obtain ⟨l, hl, hnear⟩ := exists_levelIn hi hpos
  refine ⟨(path x).length * t.nBitsStep + l, isLevel_of_alone h hx hway hi hs halone hl.le hnear, ?_,
    fun hclear => ?_, fun hne hge => ?_⟩
  · rw [Nat.mul_comm, Nat.mul_add_div hpos, Nat.div_eq_of_lt hl, Nat.add_zero]
  · have hright := isLevel_of_alone h hx hway hi hs halone (levelInNode_spec t x hi).1 fun r hr hrn =>
      near_of_clear hn hi hclear hr hrn
    exact hright.unique (isLevel_of_alone h hx hway hi hs halone hl.le hnear)
  · rw [levelInNode_of_not_clear hn hpos hi hne hge, Nat.succ_mul]

/-! ## The level that `level` returns -/

/-- The slot of the key itself, when it is stored, can be told from the others by its 16-bit number. -/
def Plain (t : LevelTree) (key : KeyWords) : Prop :=
  ∀ step node, t.OnWay key step node → t.slot node (t.stepIndex key step) < 0 →
    t.keyAt (t.slot node (t.stepIndex key step)) = key → t.slotNumber node (t.stepIndex key step) < 2 ^ 16

/-- The level `r` is the level `l` of the key, or that of the next step. -/
def LevelIs (t : LevelTree) (condition : Prop) (l r : ℕ) : Prop :=
  (condition → r = l) ∧ (¬condition → r = (l / t.nBitsStep + 1) * t.nBitsStep)

/-- Only the slot where the descent ends matters for `Plain`. -/
theorem plain_iff (h : TreeInv t stored live path loose) (hp : AtSpot t live path key p)
    (hw : t.OnWay key p.step p.node) : t.Plain key ↔
      (p.next < 0 → t.keyAt p.next = key → t.slotNumber p.node p.index < 2 ^ 16) := by
  have hle := hp.next_le
  rw [hp.next, hp.index] at hle ⊢
  constructor
  · exact fun hc => hc p.step p.node hw
  · intro hc step node hw' hneg
    obtain ⟨rfl, rfl⟩ := OnWay.unique h hw hw' hle hneg.le
    exact hc hneg

theorem level_value (h : Inv t stored) (hn : t.nBitsStep ≤ 16) (key : KeyWords) :
    ∃ r l, t.level key = some r ∧ IsLevel (t.keys stored) (mixKey key) l ∧
      t.LevelIs (t.Plain (mixKey key)) l r.level := by
  obtain ⟨⟨live, path, hinv⟩, -⟩ := h
  obtain ⟨p, hfind, hp⟩ := find_spec hinv (mixKey key)
  have hplain := plain_iff hinv hp (descend_onWay .root hfind)
  have hi : p.index < t.nodeSize := hp.index ▸ stepIndex_lt t _ p.step
  have hle : t.slot p.node p.index ≤ 0 := hp.next ▸ hp.next_le
  have hlen := hp.length
  simp only [level, hfind, Option.bind_eq_bind, Option.bind_some, Option.pure_def]
  generalize mixKey key = K at *
  rw [← hlen]
  by_cases h0 : p.next = 0
  · -- an empty slot
    rw [if_pos h0]
    have hnone := not_way_of_empty hinv hp h0
    obtain ⟨l, hl, -, hright, -⟩ := slot_level hinv hn hp.mem hp.way hi hle fun key' hk _ => hnone key' hk
    refine ⟨_, l, rfl, hl, fun _ => hright (.inl (hp.next ▸ h0)), fun hnot => absurd ?_ hnot⟩
    exact hplain.mpr fun hneg => absurd h0 hneg.ne
  · rw [if_neg h0]
    obtain ⟨hneg, hmem⟩ := hp.mem_stored hinv h0
    obtain ⟨hstored, hkway⟩ := keyAt_way hinv hp h0
    have hagree := (way_iff_agree hinv hp.mem hp.way).mp hkway
    have hs0 : t.slot p.node p.index ≠ 0 := hp.next ▸ h0
    have hin := (levelInNode_spec t p.node hi).1
    have hnbits : (path p.node).length * t.nBitsStep + t.levelInNode p.node p.index ≤
        ((path p.node).length + 1) * t.nBitsStep := by
      rw [Nat.succ_mul]
      omega
    by_cases hkey : t.keyAt p.next = K
    · -- the slot of the key itself
      have h256 : ((path p.node).length + 1) * t.nBitsStep ≤ 256 :=
        (Nat.mul_le_mul_right _ (hinv.shape.path_lt _ hp.mem)).trans (Nat.div_mul_le_self 256 _)
      obtain ⟨l, hl, hdiv, hright, hwrong⟩ := slot_level hinv hn hp.mem hp.way hi hle
        fun key' hk hne hpre => hne ((eq_keyAt_of_way hinv hp h0 hk hpre).trans hkey)
      rw [hkey, commonBits_self K (hnbits.trans h256)]
      refine ⟨_, l, rfl, hl, fun hc => hright (.inr (hplain.mp hc hneg hkey)), fun hnot => ?_⟩
      rw [hdiv]
      refine hwrong hs0 (Nat.le_of_not_lt fun hlt => hnot (hplain.mpr fun _ _ => hlt))
    · -- the slot of another key
      have hcommon := agree_iff_le_commonBits (fun h => hkey h.symm) (hagree.mono hnbits)
      refine ⟨_, commonBits K (t.keyAt p.next) ((path p.node).length * t.nBitsStep +
        t.levelInNode p.node p.index), rfl, fun b => ?_, fun _ => rfl, fun hnot => absurd ?_ hnot⟩
      · rw [← hcommon b]
        refine ⟨fun hag => .inr ⟨_, hstored, hkey, hag⟩, ?_⟩
        rintro (rfl | ⟨key', hk, hne, hag⟩)
        · exact KeyWords.agree_zero
        · rcases le_total b (((path p.node).length + 1) * t.nBitsStep) with hb | hb
          · exact hagree.mono hb
          · have hpre := (way_iff_agree hinv hp.mem hp.way).mpr (hag.mono hb)
            rwa [← eq_keyAt_of_way hinv hp h0 hk hpre]
      · exact hplain.mpr fun _ hto => absurd hto hkey

/-! ## The slot that `insert` takes, and the level it returns -/

/-- A key has one slot. -/
theorem slot_unique (h : TreeInv t stored live path loose) (hin : InSlot t live path k x i) (hk : 0 < k)
    (hj : j < t.nodeSize) (hs : t.slot y j = -(k : ℤ)) : x = y ∧ i = j := by
  have hy : y ∈ live := by
    by_contra hnot
    have hdead := h.shape.dead y hnot j hj
    omega
  have hto : (-t.slot y j).toNat = k := by omega
  obtain ⟨hmem, hway⟩ := h.shape.leaf y hy j hj (by omega)
  rw [hto] at hmem hway
  -- no key goes further down than a slot of its own
  have hle {x y i j : ℕ} (hx : x ∈ live) (hs : t.slot x i = -(k : ℤ)) (hy : y ∈ live)
      (hwx : path x ++ [i] <+: stepsOf t.nBitsStep (t.pile k).key)
      (hwy : path y ++ [j] <+: stepsOf t.nBitsStep (t.pile k).key) : (path y).length ≤ (path x).length := by
    by_contra hlt
    have hpre : path x ++ [i] <+: path y :=
      List.prefix_of_prefix_length_le hwx ((List.prefix_append _ _).trans hwy) (by simp; omega)
    obtain ⟨z, hz, hpz⟩ := h.shape.exists_of_prefix hy hpre
    obtain ⟨-, hsz⟩ := h.shape.slot_of_path hx hz hpz
    omega
  have hlen := le_antisymm (hle hy hs hin.mem hway hin.way) (hle hin.mem hin.slot hy hin.way hway)
  have hpath : path x ++ [i] = path y ++ [j] :=
    (List.prefix_of_prefix_length_le hin.way hway (by simp [hlen])).eq_of_length (by simp [hlen])
  obtain ⟨hxy, hij⟩ := List.append_inj' hpath rfl
  exact ⟨h.shape.path_inj x hin.mem y hy hxy, List.singleton_inj.mp hij⟩

theorem slot_setSlot_setSlot {v w : ℤ} (hi : i < t.nodeSize) (hj : j < t.nodeSize) (hne : i ≠ j) :
    ((t.setSlot x i v).setSlot x j w).slot x i = v := by
  have hother : ((t.setSlot x i v).setSlot x j w).slot x i = put (t.setSlot x i v).slot x j w x i :=
    slot_setSlot hj hi
  rw [hother, put_ne fun h => hne h.2, slot_setSlot hi hi, put_self]

/-- The new nodes are numbered one after the other, and the new key is in the last one of them. -/
theorem insertSplit_at {mixedKey pileKey : KeyWords} {kv pv : ℤ} {m step level : ℕ} (hempty : t.emptyNodes = [])
    (h : insertSplit mixedKey pileKey kv pv m t step x i = some (t', level)) :
    ∃ s, step < s ∧ t'.slot (t.nNodes + (s - (step + 1))) (t.stepIndex mixedKey s) = kv ∧
      level = s * t.nBitsStep + t'.levelInNode (t.nNodes + (s - (step + 1))) (t.stepIndex mixedKey s) := by
  induction m generalizing t step x i with
  | zero => cases h
  | succ m ih =>
    rw [insertSplit] at h
    simp only [addNode, hempty] at h
    split at h
    case isTrue hne =>
      simp only [Option.some.injEq, Prod.mk.injEq] at h
      obtain ⟨rfl, rfl⟩ := h
      refine ⟨step + 1, Nat.lt_succ_self _, ?_, ?_⟩
      · rw [Nat.sub_self, Nat.add_zero]
        exact slot_setSlot_setSlot (stepIndex_lt _ _ _) (stepIndex_lt _ _ _) hne
      · rw [Nat.sub_self, Nat.add_zero]
        rfl
    case isFalse hsame =>
      obtain ⟨s, hs, hslot, hlevel⟩ := ih rfl h
      have hnode : t.nNodes + 1 + (s - (step + 1 + 1)) = t.nNodes + (s - (step + 1)) := by omega
      refine ⟨s, Nat.lt_of_succ_lt hs, ?_, ?_⟩
      · rw [← hnode]
        exact hslot
      · rw [← hnode]
        exact hlevel

/-- The number of the slot that `insert` gives to a key whose level is `l`.  Where the slot at the end of its
descent holds another key, it gets a slot of the last of the new nodes. -/
def insertSlot (t : LevelTree) (key : KeyWords) (l : ℕ) : Option ℕ :=
  (t.find key).map fun p =>
    if p.next = 0 ∨ t.keyAt p.next = key then t.slotNumber p.node p.index
    else t.slotNumber (t.nNodes + (l / t.nBitsStep - (p.step + 1))) (t.stepIndex key (l / t.nBitsStep))

theorem insert_at (h : Inv t stored) {r : InsertResult} (hr : t.insert key = some r) :
    ∃ s y j, j < t.nodeSize ∧ r.tree.slot y j = -(r.pileIdx : ℤ) ∧
      r.level = s * t.nBitsStep + r.tree.levelInNode y j ∧
      ∀ l, l / t.nBitsStep = s → t.insertSlot (mixKey key) l = some (t.slotNumber y j) := by
  obtain ⟨⟨live, path, hinv⟩, hpile⟩ := h
  obtain ⟨p, hfind, hp⟩ := find_spec hinv (mixKey key)
  obtain ⟨t₁, k, hadd, -, -, hsame, -⟩ := addKey_spec hpile (mixKey key)
  have hi : p.index < t.nodeSize := hp.index ▸ stepIndex_lt t _ p.step
  have hi₁ : p.index < t₁.nodeSize := by
    unfold nodeSize
    rwa [hsame.nBitsStep]
  simp only [LevelTree.insert, hfind, hadd, Option.bind_eq_bind, Option.bind_some, Option.pure_def] at hr
  simp only [insertSlot, hfind, Option.map_some, Option.some.injEq]
  by_cases h0 : p.next = 0
  · -- an empty slot
    rw [if_pos h0] at hr
    obtain rfl := Option.some.inj hr
    refine ⟨p.step, p.node, p.index, hi, ?_, ?_, fun l _ => if_pos (.inl h0)⟩
    · exact (slot_setSlot hi₁ hi₁).trans (put_self _ _ _ _)
    · rw [← hsame.nBitsStep]
      rfl
  · rw [if_neg h0] at hr
    obtain ⟨hneg, hmem⟩ := hp.mem_stored hinv h0
    by_cases hkey : t.keyAt p.next = mixKey key
    · -- the slot of the key itself
      rw [if_neg (not_not.mpr hkey)] at hr
      obtain rfl := Option.some.inj hr
      have hcount := (recount_spec hpile hmem hkey).1
      refine ⟨p.step, p.node, p.index, hi, ?_, ?_, fun l _ => if_pos (.inr hkey)⟩
      · show (t.recount (-p.next).toNat).slot p.node p.index = -((-p.next).toNat : ℤ)
        rw [hcount.slot, ← hp.next]
        omega
      · rw [← hcount.nBitsStep]
    · -- the slot of another key
      rw [if_pos hkey] at hr
      obtain ⟨⟨t₂, level⟩, hsplit, hr⟩ := Option.bind_eq_some_iff.mp hr
      obtain rfl := Option.some.inj hr
      obtain ⟨s, -, hslot, hlevel⟩ := insertSplit_at (hsame.emptyNodes.trans hinv.emptyNodes) hsplit
      rw [hsame.nNodes] at hslot hlevel
      have hindex : t₁.stepIndex (mixKey key) s = t.stepIndex (mixKey key) s := by
        unfold stepIndex
        rw [hsame.nBitsStep]
      rw [hindex] at hslot hlevel
      refine ⟨s, _, _, stepIndex_lt t _ _, hslot, hsame.nBitsStep ▸ hlevel, fun l hl => ?_⟩
      rw [if_neg (not_or.mpr ⟨h0, hkey⟩), hl]

/-- The slot that `insert` gives to the key can be told from the others by its 16-bit number. -/
def PlainInsert (t : LevelTree) (key : KeyWords) (l : ℕ) : Prop := ∀ g ∈ t.insertSlot key l, g < 2 ^ 16

/-- The other keys are those that were there before. -/
theorem Inserted.mem_keys {r : InsertResult} {K : KeyWords} (h : Inserted t stored key r) (hK : K ≠ mixKey key) :
    K ∈ r.tree.keys (insert r.pileIdx stored) ↔ K ∈ t.keys stored := by
  constructor
  · rintro ⟨k, hk, rfl⟩
    dsimp only at hK ⊢
    rw [h.pile] at hK ⊢
    have hne : k ≠ r.pileIdx := by
      rintro rfl
      rw [Function.update_self] at hK
      exact hK rfl
    rw [Function.update_of_ne hne]
    exact ⟨k, hk.resolve_left hne, rfl⟩
  · rintro ⟨k, hk, rfl⟩
    have hne : k ≠ r.pileIdx := by
      rintro rfl
      obtain ⟨-, hkey⟩ | ⟨hnot, -⟩ := h.stored_or_new
      · exact hK hkey
      · exact hnot hk
    refine ⟨k, .inr hk, ?_⟩
    dsimp only
    rw [h.pile, Function.update_of_ne hne]

theorem Inserted.key_eq {r : InsertResult} (h : Inserted t stored key r) :
    (r.tree.pile r.pileIdx).key = mixKey key := by
  rw [h.pile, Function.update_self]
  rfl

theorem insert_value (h : Inv t stored) (hn : t.nBitsStep ≤ 16) (key : KeyWords) :
    ∃ r l, t.insert key = some r ∧ IsLevel (t.keys stored) (mixKey key) l ∧
      t.LevelIs (t.PlainInsert (mixKey key) l) l r.level := by
  obtain ⟨r, hr, hins⟩ := insert_spec h key
  obtain ⟨live, path, x, i, htree, hin, hlevel⟩ := hins.at_slot
  obtain ⟨s, y, j, hj, hslot, hlevel', hnumber⟩ := insert_at h hr
  have hpos : 0 < t.nBitsStep := hins.nBitsStep ▸ Nat.pos_of_dvd_of_pos htree.dvd (by norm_num)
  have hsize : r.tree.nodeSize = t.nodeSize := by
    unfold nodeSize
    rw [hins.nBitsStep]
  have hkpos := htree.shape.stored_pos _ (Set.mem_insert r.pileIdx stored)
  obtain ⟨rfl, rfl⟩ := slot_unique htree hin hkpos (hsize ▸ hj) hslot
  have hkey := hins.key_eq
  have halone : ∀ key' ∈ r.tree.keys (insert r.pileIdx stored), key' ≠ mixKey key →
      ¬path x ++ [i] <+: stepsOf r.tree.nBitsStep key' := by
    rintro _ ⟨k, hk, rfl⟩ hne hpre
    have hs := (htree.shape.on_way hin.mem hk hpre).2
    rw [hin.slot] at hs
    obtain rfl : k = r.pileIdx := by omega
    exact hne hkey
  obtain ⟨l, hl, hdiv, hright, hwrong⟩ := slot_level htree (hins.nBitsStep ▸ hn) hin.mem (hkey ▸ hin.way) hin.lt
    (by rw [hin.slot]; omega) halone
  rw [hins.nBitsStep] at hlevel hdiv hright hwrong
  have hs : (path x).length = s := by
    rw [hlevel] at hlevel'
    exact Nat.eq_of_mul_eq_mul_right hpos (Nat.add_right_cancel hlevel')
  have hplain : t.PlainInsert (mixKey key) l ↔ r.tree.slotNumber x i < 2 ^ 16 := by
    unfold PlainInsert slotNumber
    rw [hnumber l (hdiv.trans hs), hsize]
    simp [slotNumber]
  refine ⟨r, l, hr, hl.congr fun _ => hins.mem_keys, ?_, ?_⟩
  · rw [hplain, hlevel]
    exact fun hlt => hright (.inr hlt)
  · rw [hplain, hlevel, hdiv]
    refine fun hge => hwrong ?_ (Nat.le_of_not_lt hge)
    rw [hin.slot]
    omega

/-! ## Runs -/

/-- A call of `insert` or `extract`; `level` changes nothing. -/
inductive Op
  | insert (key : KeyWords)
  | extract (key : KeyWords)

def step (t : LevelTree) : Op → Option LevelTree
  | .insert key => (t.insert key).map InsertResult.tree
  | .extract key => (t.extract key).map ExtractResult.tree

/-- How often each key is in the tree after a call; without counters, once at most. -/
def count (counted : Bool) (c : KeyWords → ℕ) : Op → KeyWords → ℕ
  | .insert key => Function.update c key (if counted then c key + 1 else 1)
  | .extract key => Function.update c key (if counted then c key - 1 else 0)

def counts (counted : Bool) (ops : List Op) : KeyWords → ℕ := ops.foldl (count counted) fun _ => 0

/-- The mixed keys that have been inserted and not extracted. -/
def storedKeys (counted : Bool) (ops : List Op) : Set KeyWords := mixKey '' {key | 0 < counts counted ops key}

/-- The keys of the tree, with the number of their insertions. -/
structure Counts (t : LevelTree) (stored : Set ℕ) (c : KeyWords → ℕ) : Prop where
  inv : t.Inv stored
  mixed : ∀ k ∈ stored, ∃ key, (t.pile k).key = mixKey key
  pos_iff : ∀ key, 0 < c key ↔ mixKey key ∈ t.keys stored
  counter : t.useInsertCounters = true → ∀ k ∈ stored, ∀ key, (t.pile k).key = mixKey key →
    (t.pile k).counter = c key

theorem counts_new {n : ℕ} {b : Bool} (h : new n b = some t) : Counts t ∅ fun _ => 0 where
  inv := (inv_new h).1
  mixed := by simp
  pos_iff := by simp [keys]
  counter := by simp

variable {c : KeyWords → ℕ}

theorem Counts.keys_eq (h : Counts t stored c) : t.keys stored = mixKey '' {key | 0 < c key} := by
  ext K
  constructor
  · rintro ⟨k, hk, rfl⟩
    obtain ⟨key, hkey⟩ := h.mixed k hk
    exact ⟨key, (h.pos_iff key).mpr ⟨k, hk, hkey⟩, hkey.symm⟩
  · rintro ⟨key, hpos, rfl⟩
    exact (h.pos_iff key).mp hpos

theorem counts_insert (h : Counts t stored c) (key : KeyWords) :
    ∃ t' stored', t.step (.insert key) = some t' ∧
      Counts t' stored' (count t.useInsertCounters c (.insert key)) ∧ t'.nBitsStep = t.nBitsStep ∧
      t'.useInsertCounters = t.useInsertCounters := by
  obtain ⟨r, hr, hins⟩ := insert_spec h.inv key
  have hkey := hins.key_eq
  have hinv : r.tree.Inv (insert r.pileIdx stored) := by
    obtain ⟨live, path, -, -, htree, -⟩ := hins.at_slot
    exact ⟨⟨live, path, htree⟩, hins.pileInv⟩
  have hother : ∀ k ∈ insert r.pileIdx stored, k ≠ r.pileIdx → k ∈ stored ∧ r.tree.pile k = t.pile k := by
    intro k hk hne
    refine ⟨hk.resolve_left hne, ?_⟩
    rw [hins.pile, Function.update_of_ne hne]
  refine ⟨r.tree, _, by rw [step, hr]; rfl, ⟨hinv, ?_, ?_, ?_⟩, hins.nBitsStep, hins.useInsertCounters⟩
  · intro k hk
    by_cases hne : k = r.pileIdx
    · exact ⟨key, hne ▸ hkey⟩
    · obtain ⟨hk, hpile⟩ := hother k hk hne
      rw [hpile]
      exact h.mixed k hk
  · intro key'
    by_cases hne : key' = key
    · subst hne
      refine iff_of_true ?_ ⟨_, Set.mem_insert _ _, hkey⟩
      rw [count, Function.update_self]
      split <;> omega
    · rw [count, Function.update_of_ne hne, h.pos_iff,
        hins.mem_keys fun heq => hne (mixKey_injective heq)]
  · rw [hins.useInsertCounters]
    intro hcounted k hk key' hkey'
    by_cases hne : k = r.pileIdx
    · subst hne
      obtain rfl : key' = key := mixKey_injective (hkey'.symm.trans hkey)
      rw [count, Function.update_self, if_pos hcounted, hins.pile, Function.update_self]
      have hold : (t.pile r.pileIdx).counter = c key' := by
        obtain ⟨hmem, hold⟩ | ⟨hnot, hnew⟩ := hins.stored_or_new
        · exact h.counter hcounted _ hmem _ hold
        · have hzero : ¬0 < c key' := fun hpos => by
            obtain ⟨k, hk, hk'⟩ := (h.pos_iff key').mp hpos
            exact hnew k hk hk'
          rw [(h.inv.pile.counted hcounted).2 _ hnot]
          omega
      simp [inserted, hcounted, hold]
    · obtain ⟨hmem, hpile⟩ := hother k hk hne
      have hkeys : key' ≠ key := by
        rintro rfl
        exact hne (hinv.key_inj hk (Set.mem_insert _ _) (hkey'.trans hkey.symm))
      rw [count, Function.update_of_ne hkeys, hpile]
      exact h.counter hcounted k hmem key' (hpile ▸ hkey')

/-- No other key of the pile is the key. -/
theorem Counts.key_ne (h : Counts t stored c) (hk : k ∈ stored) (hkey : (t.pile k).key = mixKey key) {k' : ℕ}
    (hk' : k' ∈ stored) (hne : k' ≠ k) : (t.pile k').key ≠ mixKey key := fun heq =>
  hne (h.inv.key_inj hk' hk (heq.trans hkey.symm))

/-- The key goes. -/
theorem Counts.remove (h : Counts t stored c) (hk : k ∈ stored) (hkey : (t.pile k).key = mixKey key)
    (hspec : Extracted t stored k t') (hlast : t.lastOne k) :
    Counts t' (stored \ {k}) (Function.update c key 0) := by
  refine ⟨hspec.last hlast, ?_, ?_, ?_⟩
  · rintro k' ⟨hk', hne⟩
    rw [hspec.other k' hne]
    exact h.mixed k' hk'
  · intro key'
    by_cases hne : key' = key
    · subst hne
      rw [Function.update_self]
      refine iff_of_false (Nat.lt_irrefl 0) ?_
      rintro ⟨k', ⟨hk', hne⟩, heq⟩
      dsimp only at heq
      rw [hspec.other k' hne] at heq
      exact h.key_ne hk hkey hk' hne heq
    · rw [Function.update_of_ne hne, h.pos_iff]
      constructor
      · rintro ⟨k', hk', heq⟩
        have hkk : k' ≠ k := by
          rintro rfl
          exact hne (mixKey_injective (heq.symm.trans hkey))
        refine ⟨k', ⟨hk', hkk⟩, ?_⟩
        dsimp only
        rw [hspec.other k' hkk]
        exact heq
      · rintro ⟨k', ⟨hk', hkk⟩, heq⟩
        dsimp only at heq
        rw [hspec.other k' hkk] at heq
        exact ⟨k', hk', heq⟩
  · rw [hspec.useInsertCounters]
    rintro hcounted k' ⟨hk', hkk⟩ key' hkey'
    rw [hspec.other k' hkk] at hkey' ⊢
    have hne : key' ≠ key := by
      rintro rfl
      exact h.key_ne hk hkey hk' hkk hkey'
    rw [Function.update_of_ne hne]
    exact h.counter hcounted k' hk' key' hkey'

/-- The key is counted once less. -/
theorem Counts.less (h : Counts t stored c) (hk : k ∈ stored) (hkey : (t.pile k).key = mixKey key)
    (hspec : Extracted t stored k t') (hlast : ¬t.lastOne k) (hcounter : (t.pile k).counter = c key) :
    Counts t' stored (Function.update c key (c key - 1)) := by
  obtain ⟨hinv, hpile⟩ := hspec.not_last hlast
  have hone : c key ≠ 1 := fun hone => hlast (.inr (hcounter.trans hone))
  have hpos := (h.pos_iff key).mpr ⟨k, hk, hkey⟩
  have hkeys : ∀ k' ∈ stored, (t'.pile k').key = (t.pile k').key := by
    intro k' _
    by_cases hkk : k' = k
    · rw [hkk, hpile]
    · rw [hspec.other k' hkk]
  have hsame : t'.keys stored = t.keys stored := Set.image_congr hkeys
  refine ⟨hinv, ?_, ?_, ?_⟩
  · intro k' hk'
    rw [hkeys k' hk']
    exact h.mixed k' hk'
  · intro key'
    rw [hsame, ← h.pos_iff]
    by_cases hne : key' = key
    · subst hne
      rw [Function.update_self]
      omega
    · rw [Function.update_of_ne hne]
  · rw [hspec.useInsertCounters]
    intro hcounted k' hk' key' hkey'
    rw [hkeys k' hk'] at hkey'
    by_cases hkk : k' = k
    · subst hkk
      obtain rfl : key' = key := mixKey_injective (hkey'.symm.trans hkey)
      rw [Function.update_self, hpile, ← hcounter]
    · have hne : key' ≠ key := by
        rintro rfl
        exact h.key_ne hk hkey hk' hkk hkey'
      rw [Function.update_of_ne hne, hspec.other k' hkk]
      exact h.counter hcounted k' hk' key' hkey'

theorem counts_extract (h : Counts t stored c) (key : KeyWords) :
    ∃ t' stored', t.step (.extract key) = some t' ∧
      Counts t' stored' (count t.useInsertCounters c (.extract key)) ∧ t'.nBitsStep = t.nBitsStep ∧
      t'.useInsertCounters = t.useInsertCounters := by
  dsimp only [step, count]
  obtain ⟨k, hk, hkey, t', hext, hspec⟩ | ⟨hnone, hext⟩ := extract_spec h.inv key
  · rw [hext]
    by_cases hlast : t.lastOne k
    · have hzero : (if t.useInsertCounters then c key - 1 else 0) = 0 := by
        split
        case isTrue hcounted =>
          have hone : (t.pile k).counter = 1 := hlast.resolve_left (by simp [hcounted])
          rw [← h.counter hcounted k hk key hkey, hone]
        case isFalse => rfl
      rw [hzero]
      exact ⟨t', _, rfl, h.remove hk hkey hspec hlast, hspec.nBitsStep, hspec.useInsertCounters⟩
    · have hcounted : t.useInsertCounters = true := by
        by_contra hnot
        exact hlast (.inl (Bool.eq_false_iff.mpr hnot))
      rw [if_pos hcounted]
      exact ⟨t', _, rfl, h.less hk hkey hspec hlast (h.counter hcounted k hk key hkey), hspec.nBitsStep,
        hspec.useInsertCounters⟩
  · have hzero : c key = 0 := by
      by_contra hne
      obtain ⟨k, hk, hkey⟩ := (h.pos_iff key).mp (Nat.pos_of_ne_zero hne)
      exact hnone k hk hkey
    rw [hext, hzero, Nat.zero_sub, ite_self, ← hzero, Function.update_eq_self]
    exact ⟨t, stored, rfl, h, rfl, rfl⟩

theorem follow_counts (h : Counts t stored c) (ops : List Op) :
    ∃ t' stored', follow step t ops = some t' ∧
      Counts t' stored' (ops.foldl (count t.useInsertCounters) c) ∧ t'.nBitsStep = t.nBitsStep := by
  induction ops generalizing t stored c with
  | nil => exact ⟨t, stored, rfl, h, rfl⟩
  | cons op ops ih =>
    obtain ⟨t₁, stored₁, hstep, h₁, hn, hb⟩ : ∃ t' stored', t.step op = some t' ∧
        Counts t' stored' (count t.useInsertCounters c op) ∧ t'.nBitsStep = t.nBitsStep ∧
        t'.useInsertCounters = t.useInsertCounters := by
      cases op with
      | insert key => exact counts_insert h key
      | extract key => exact counts_extract h key
    obtain ⟨t', stored', hfollow, h', hn'⟩ := ih h₁
    rw [hb] at h'
    refine ⟨t', stored', ?_, h', hn'.trans hn⟩
    rw [follow, hstep]
    exact hfollow

/-! ## The levels after a run -/

variable {n r r' : ℕ} {b : Bool} {C C' : Prop} {ops : List Op}

theorem LevelIs.eq_iff (h : t.LevelIs C l r) (hpos : 0 < t.nBitsStep) : r = l ↔ C := by
  by_cases hC : C
  · exact iff_of_true (h.1 hC) hC
  · refine iff_of_false ?_ hC
    rw [h.2 hC, Nat.succ_mul]
    exact (Nat.lt_div_mul_add hpos).ne'

/-- Two levels of a key are the same when both are right or both are wrong. -/
theorem LevelIs.eq_iff_iff (h : t.LevelIs C l r) (h' : t'.LevelIs C' l r') (hpos : 0 < t.nBitsStep)
    (hn : t'.nBitsStep = t.nBitsStep) : r = r' ↔ (C ↔ C') := by
  have hl := h.eq_iff hpos
  have hl' := h'.eq_iff (hn ▸ hpos)
  constructor
  · rintro rfl
    exact hl.symm.trans hl'
  · intro hiff
    by_cases hC : C
    · exact (hl.mpr hC).trans (hl'.mpr (hiff.mp hC)).symm
    · rw [h.2 hC, h'.2 (mt hiff.mpr hC), hn]

/-- What `level` and `insert` return for a key after the calls. -/
def levelsAfter (n : ℕ) (b : Bool) (ops : List Op) (key : KeyWords) : Option (ℕ × ℕ) := do
  let t ← new n b
  let t ← follow step t ops
  let level ← t.level key
  let inserted ← t.insert key
  return (level.level, inserted.level)

theorem levelsAfter_spec {t₀ : LevelTree} (hnew : new n b = some t₀) (hn : n ≤ 16) (ops : List Op)
    (key : KeyWords) : ∃ t l r r', follow step t₀ ops = some t ∧ IsLevel (storedKeys b ops) (mixKey key) l ∧
      levelsAfter n b ops key = some (r, r') ∧ t.LevelIs (t.Plain (mixKey key)) l r ∧
      t.LevelIs (t.PlainInsert (mixKey key) l) l r' ∧ t.nBitsStep = n := by
  obtain ⟨-, hn₀, hb₀, -⟩ := inv_new hnew
  obtain ⟨t, stored, hfollow, hcounts, hnt⟩ := follow_counts (counts_new hnew) ops
  have hle : t.nBitsStep ≤ 16 := by rwa [hnt, hn₀]
  have hkeys : t.keys stored = storedKeys b ops := by
    rw [hcounts.keys_eq, hb₀]
    rfl
  obtain ⟨r, l, hr, hl, hlevel⟩ := level_value hcounts.inv hle key
  obtain ⟨r', l', hr', hl', hinsert⟩ := insert_value hcounts.inv hle key
  obtain rfl := hl'.unique hl
  refine ⟨t, _, r.level, r'.level, hfollow, hkeys ▸ hl, ?_, hlevel, hinsert, hnt.trans hn₀⟩
  unfold levelsAfter
  simp only [hnew, hfollow, hr, hr', Option.bind_eq_bind, Option.bind_some, Option.pure_def]

/-- After the calls both levels of a key are the length of the longest common prefix with another key. -/
def LevelsRight (n : ℕ) (b : Bool) (ops : List Op) (key : KeyWords) : Prop :=
  ∃ l, IsLevel (storedKeys b ops) (mixKey key) l ∧ levelsAfter n b ops key = some (l, l)

/-- Where `key` has a slot, and the slot that `insert` gives to it, can be told from the others by their
16-bit numbers. -/
def Told (n : ℕ) (b : Bool) (ops : List Op) (key : KeyWords) : Prop :=
  ∀ t₀ t l, new n b = some t₀ → follow step t₀ ops = some t → IsLevel (storedKeys b ops) (mixKey key) l →
    t.Plain (mixKey key) ∧ t.PlainInsert (mixKey key) l

theorem levelsRight_iff (hn : n ∣ 256) (hn' : n ≤ 32) (b : Bool) (ops : List Op) (key : KeyWords) :
    LevelsRight n b ops key ↔ n ≤ 16 ∧ Told n b ops key := by
  have hpos : 0 < n := Nat.pos_of_dvd_of_pos hn (by norm_num)
  constructor
  · rintro ⟨l, hl, hafter⟩
    obtain ⟨t₀, hnew, -⟩ := Option.bind_eq_some_iff.mp hafter
    have hle := le_of_new hn hn' hnew
    refine ⟨hle, fun t₀' t' l' hnew' hfollow' hl' => ?_⟩
    obtain rfl : t₀ = t₀' := Option.some.inj (hnew.symm.trans hnew')
    obtain ⟨t, l₁, r, r', hfollow, hl₁, hafter', hlevel, hinsert, hnt⟩ := levelsAfter_spec hnew hle ops key
    obtain rfl : t = t' := Option.some.inj (hfollow.symm.trans hfollow')
    obtain rfl := hl₁.unique hl'
    obtain rfl := hl.unique hl'
    obtain ⟨rfl, rfl⟩ := Prod.mk.inj (Option.some.inj (hafter'.symm.trans hafter))
    exact ⟨(hlevel.eq_iff (hnt ▸ hpos)).mp rfl, (hinsert.eq_iff (hnt ▸ hpos)).mp rfl⟩
  · rintro ⟨hle, htold⟩
    obtain ⟨t₀, hnew⟩ := exists_new hn hle b
    obtain ⟨t, l, r, r', hfollow, hl, hafter, hlevel, hinsert, hnt⟩ := levelsAfter_spec hnew hle ops key
    obtain ⟨hplain, hplain'⟩ := htold t₀ t l hnew hfollow hl
    obtain rfl := hlevel.1 hplain
    obtain rfl := hinsert.1 hplain'
    exact ⟨_, hl, hafter⟩

theorem count_update {op : Op} {k : KeyWords} {v : ℕ} (hop : op ≠ .insert k ∧ op ≠ .extract k) :
    count b (Function.update c k v) op = Function.update (count b c op) k v := by
  cases op with
  | insert key =>
    have hne : key ≠ k := fun h => hop.1 (congrArg _ h)
    rw [count, count, Function.update_of_ne hne, Function.update_comm hne]
  | extract key =>
    have hne : key ≠ k := fun h => hop.2 (congrArg _ h)
    rw [count, count, Function.update_of_ne hne, Function.update_comm hne]

/-- Calls for other keys commute with the number of insertions of a key. -/
theorem foldl_count_update {ops : List Op} {k : KeyWords} (v : ℕ)
    (hops : ∀ op ∈ ops, op ≠ .insert k ∧ op ≠ .extract k) (c : KeyWords → ℕ) :
    ops.foldl (count b) (Function.update c k v) = Function.update (ops.foldl (count b) c) k v := by
  induction ops generalizing c with
  | nil => rfl
  | cons op ops ih =>
    rw [List.foldl_cons, List.foldl_cons, count_update (hops op List.mem_cons_self),
      ih fun op hop => hops op (List.mem_cons_of_mem _ hop)]

/-- The extraction of a key leaves the other keys as they would be if it had never been inserted. -/
theorem counts_restored {ops ops' : List Op} {k : KeyWords}
    (hops : ∀ op ∈ ops', op ≠ .insert k ∧ op ≠ .extract k) (hfirst : b = true ∨ counts b ops k = 0) :
    counts b (ops ++ .insert k :: (ops' ++ [.extract k])) = counts b (ops ++ ops') := by
  unfold counts at hfirst ⊢
  simp only [List.foldl_append, List.foldl_cons, List.foldl_nil]
  generalize ops.foldl (count b) (fun _ => 0) = c at hfirst ⊢
  have hkeep := foldl_count_update (b := b) (c k) hops c
  rw [Function.update_eq_self] at hkeep
  have hk : ops'.foldl (count b) c k = c k := by
    rw [hkeep, Function.update_self]
  rw [count, foldl_count_update _ hops, count, Function.update_self, Function.update_idem]
  refine Function.update_eq_iff.mpr ⟨?_, fun _ _ => rfl⟩
  rw [hk]
  obtain rfl | hzero := hfirst
  · simp
  · rw [hzero]
    split <;> rfl

/-- After the key `k` has been extracted both levels of `key` are what they would be if it had not been inserted. -/
def Restored (n : ℕ) (b : Bool) (ops : List Op) (k : KeyWords) (ops' : List Op) (key : KeyWords) : Prop :=
  ∃ levels, levelsAfter n b (ops ++ .insert k :: (ops' ++ [.extract k])) key = some levels ∧
    levelsAfter n b (ops ++ ops') key = some levels

/-- The slots of `key` are told from the others in both runs, or in none of them. -/
def SameTold (n : ℕ) (b : Bool) (ops ops' : List Op) (key : KeyWords) : Prop :=
  ∀ t₀ t t' l, new n b = some t₀ → follow step t₀ ops = some t → follow step t₀ ops' = some t' →
    IsLevel (storedKeys b ops') (mixKey key) l →
      (t.Plain (mixKey key) ↔ t'.Plain (mixKey key)) ∧
        (t.PlainInsert (mixKey key) l ↔ t'.PlainInsert (mixKey key) l)

theorem restored_iff (hn : n ∣ 256) (hn' : n ≤ 32) {ops ops' : List Op} {k : KeyWords}
    (hops : ∀ op ∈ ops', op ≠ .insert k ∧ op ≠ .extract k) (hfirst : b = true ∨ counts b ops k = 0)
    (key : KeyWords) : Restored n b ops k ops' key ↔
      n ≤ 16 ∧ SameTold n b (ops ++ .insert k :: (ops' ++ [.extract k])) (ops ++ ops') key := by
  have hpos : 0 < n := Nat.pos_of_dvd_of_pos hn (by norm_num)
  have hkeys : storedKeys b (ops ++ .insert k :: (ops' ++ [.extract k])) = storedKeys b (ops ++ ops') := by
    unfold storedKeys
    rw [counts_restored hops hfirst]
  unfold Restored
  generalize ops ++ .insert k :: (ops' ++ [.extract k]) = ops₁ at *
  generalize ops ++ ops' = ops₂ at *
  constructor
  · rintro ⟨⟨v, v'⟩, h₁, h₂⟩
    obtain ⟨t₀, hnew, -⟩ := Option.bind_eq_some_iff.mp h₁
    have hle := le_of_new hn hn' hnew
    refine ⟨hle, fun t₀' u u' l hnew' hu hu' hl => ?_⟩
    obtain rfl : t₀ = t₀' := Option.some.inj (hnew.symm.trans hnew')
    obtain ⟨t, l₁, r, r', hfollow, hl₁, hafter, hlevel, hinsert, hnt⟩ := levelsAfter_spec hnew hle ops₁ key
    obtain ⟨t', l₂, s, s', hfollow', hl₂, hafter', hlevel', hinsert', hnt'⟩ :=
      levelsAfter_spec hnew hle ops₂ key
    obtain rfl : t = u := Option.some.inj (hfollow.symm.trans hu)
    obtain rfl : t' = u' := Option.some.inj (hfollow'.symm.trans hu')
    obtain rfl := hl₁.unique (hkeys ▸ hl)
    obtain rfl := hl₂.unique hl
    obtain ⟨rfl, rfl⟩ := Prod.mk.inj (Option.some.inj (hafter.symm.trans h₁))
    obtain ⟨rfl, rfl⟩ := Prod.mk.inj (Option.some.inj (hafter'.symm.trans h₂))
    have hsame := hnt'.trans hnt.symm
    exact ⟨(hlevel.eq_iff_iff hlevel' (hnt ▸ hpos) hsame).mp rfl,
      (hinsert.eq_iff_iff hinsert' (hnt ▸ hpos) hsame).mp rfl⟩
  · rintro ⟨hle, htold⟩
    obtain ⟨t₀, hnew⟩ := exists_new hn hle b
    obtain ⟨t, l₁, r, r', hfollow, hl₁, hafter, hlevel, hinsert, hnt⟩ := levelsAfter_spec hnew hle ops₁ key
    obtain ⟨t', l₂, s, s', hfollow', hl₂, hafter', hlevel', hinsert', hnt'⟩ :=
      levelsAfter_spec hnew hle ops₂ key
    obtain rfl := hl₁.unique (hkeys ▸ hl₂)
    obtain ⟨hplain, hplain'⟩ := htold t₀ t t' _ hnew hfollow hfollow' hl₂
    have hsame := hnt'.trans hnt.symm
    obtain rfl := (hlevel.eq_iff_iff hlevel' (hnt ▸ hpos) hsame).mpr hplain
    obtain rfl := (hinsert.eq_iff_iff hinsert' (hnt ▸ hpos) hsame).mpr hplain'
    exact ⟨_, hafter, hafter'⟩

/-- The levels are right exactly if the slots of the key are told from the others by their 16-bit numbers, and an
extraction restores them exactly if this is so in both runs or in none. -/
theorem levels_iff (hn : n ∣ 256) (hn' : n ≤ 32) (b : Bool) :
    (∀ ops key, LevelsRight n b ops key ↔ n ≤ 16 ∧ Told n b ops key) ∧
    ∀ ops k ops', (∀ op ∈ ops', op ≠ .insert k ∧ op ≠ .extract k) → (b = true ∨ counts b ops k = 0) →
      ∀ key, Restored n b ops k ops' key ↔
        n ≤ 16 ∧ SameTold n b (ops ++ .insert k :: (ops' ++ [.extract k])) (ops ++ ops') key :=
  ⟨levelsRight_iff hn hn' b, fun _ _ _ hops hfirst => restored_iff hn hn' hops hfirst⟩

/-- One key in a tree of 4 bits a step, and another one that is inserted and extracted. -/
theorem levels_iff_sample : (LevelsRight 4 true [.insert ⟨1, 0, 0, 0⟩] ⟨2, 0, 0, 0⟩ ↔
      4 ≤ 16 ∧ Told 4 true [.insert ⟨1, 0, 0, 0⟩] ⟨2, 0, 0, 0⟩) ∧
    (Restored 4 true [] ⟨1, 0, 0, 0⟩ [.insert ⟨2, 0, 0, 0⟩] ⟨3, 0, 0, 0⟩ ↔
      4 ≤ 16 ∧ SameTold 4 true [.insert ⟨1, 0, 0, 0⟩, .insert ⟨2, 0, 0, 0⟩, .extract ⟨1, 0, 0, 0⟩]
        [.insert ⟨2, 0, 0, 0⟩] ⟨3, 0, 0, 0⟩) := by
  obtain ⟨hright, hrestored⟩ := levels_iff (n := 4) (by decide) (by decide) true
  refine ⟨hright _ _, hrestored [] ⟨1, 0, 0, 0⟩ [.insert ⟨2, 0, 0, 0⟩] ?_ (.inl rfl) _⟩
  simp

/-- Keys that share their first 16 bits are in node 1, whose slots are numbered from `2 ^ 16` on. -/
theorem not_levels :
    ¬LevelsRight 16 false [.insert ⟨2 ^ 60, 0, 0, 0⟩, .insert ⟨0, 0, 0, 0⟩] ⟨2 ^ 59, 0, 0, 0⟩ := by
  have hafter : levelsAfter 16 false [.insert ⟨2 ^ 60, 0, 0, 0⟩, .insert ⟨0, 0, 0, 0⟩] ⟨2 ^ 59, 0, 0, 0⟩ =
      some (16, 32) := by decide +kernel
  rintro ⟨l, -, hl⟩
  obtain ⟨h₁, h₂⟩ := Prod.mk.inj (Option.some.inj (hafter.symm.trans hl))
  exact absurd (h₁.trans h₂.symm) (by decide)

end LevelTree

end ZkevmProver
