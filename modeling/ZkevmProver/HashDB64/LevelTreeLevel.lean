import ZkevmProver.HashDB64.LevelTreeSpec

/-!
# The level of a key

The level of a key is the greatest number of first bits that it has in common with another key of
the tree.  `level` returns it where the slot of the key can be told from the other slots of its node.

1. `levelInNode_spec`
2. The level: `IsLevel`
3. Where the descent ends: `OnWay`, `Clear`
4. `level_spec`
-/

namespace ZkevmProver

open RadixArray

namespace LevelTree

variable {t t' : LevelTree} {stored live : Set ℕ} {path : ℕ → List ℕ} {loose : Set ℕ}
  {key : KeyWords} {x y i j k m g : ℕ} {p : Spot}

/-! ## Levels in a node -/

/-- In the `2 ^ m` slots around slot `i` there is one that is taken, apart from slot `g` of all. -/
def TakenNear (t : LevelTree) (g x i m : ℕ) : Prop :=
  ∃ j < t.nodeSize, t.slot x j ≠ 0 ∧ x * t.nodeSize + j ≠ g ∧ j / 2 ^ m = i / 2 ^ m

theorem TakenNear.mono {m' : ℕ} (h : t.TakenNear g x i m) (hm : m ≤ m') : t.TakenNear g x i m' := by
  obtain ⟨j, hj, hs, hg, hji⟩ := h
  refine ⟨j, hj, hs, hg, ?_⟩
  obtain ⟨d, rfl⟩ := Nat.exists_eq_add_of_le hm
  rw [Nat.pow_add, ← Nat.div_div_eq_div_mul, ← Nat.div_div_eq_div_mul, hji]

/-- One round looks at the half of the slots where slot `i` is. -/
theorem someTaken_iff (hi : i < t.nodeSize) (hm : m ≤ t.nBitsStep) :
    t.someTaken g (x * t.nodeSize + i / 2 ^ m * 2 ^ m) (2 ^ m) = true ↔ t.TakenNear g x i m := by
  have hpos : 0 < 2 ^ m := by positivity
  have hdvd : 2 ^ m ∣ t.nodeSize := Nat.pow_dvd_pow 2 hm
  unfold someTaken TakenNear
  simp only [List.any_eq_true, List.mem_range'_1, Bool.and_eq_true, decide_eq_true_eq]
  constructor
  · rintro ⟨a, ⟨hle, hlt⟩, hs, hg⟩
    obtain ⟨j, rfl⟩ := Nat.exists_eq_add_of_le (show x * t.nodeSize ≤ a by omega)
    have hji : j / 2 ^ m = i / 2 ^ m := by
      rw [Nat.div_eq_iff hpos]
      omega
    refine ⟨j, ?_, hs, hg, hji⟩
    obtain ⟨q, hq⟩ := hdvd
    rw [hq, Nat.mul_comm] at hi ⊢
    rw [← Nat.div_lt_iff_lt_mul hpos] at hi ⊢
    exact hji ▸ hi
  · rintro ⟨j, hj, hs, hg, hji⟩
    refine ⟨x * t.nodeSize + j, ?_, hs, hg⟩
    rw [Nat.div_eq_iff hpos] at hji
    omega

theorem levelLoop_spec (hi : i < t.nodeSize) (nbits : ℕ) (hm : m ≤ t.nBitsStep) :
    ∃ c ≤ m, t.levelLoop g m (i % 2 ^ m) (x * t.nodeSize + i / 2 ^ m * 2 ^ m) nbits = nbits + c ∧
      ∀ r, 0 < r → r ≤ m → (r ≤ c ↔ t.TakenNear g x i (m - r)) := by
  induction m generalizing nbits with
  | zero => exact ⟨0, le_rfl, rfl, fun r h₁ h₂ => absurd h₁ (by omega)⟩
  | succ m ih =>
    have hlt : i % 2 ^ (m + 1) < 2 ^ (m + 1) := Nat.mod_lt _ (by positivity)
    have hmod : i % 2 ^ (m + 1) = i % 2 ^ m + 2 ^ m * (i / 2 ^ m % 2) := Nat.mod_pow_succ
    have hdiv : i / 2 ^ (m + 1) = i / 2 ^ m / 2 := by
      rw [Nat.pow_succ, Nat.div_div_eq_div_mul]
    have hmlt : i % 2 ^ m < 2 ^ m := Nat.mod_lt _ (by positivity)
    have hround : (if 2 ^ m ≤ i % 2 ^ (m + 1) then i % 2 ^ (m + 1) - 2 ^ m else i % 2 ^ (m + 1)) =
          i % 2 ^ m ∧
        (if 2 ^ m ≤ i % 2 ^ (m + 1) then x * t.nodeSize + i / 2 ^ (m + 1) * 2 ^ (m + 1) + 2 ^ m
          else x * t.nodeSize + i / 2 ^ (m + 1) * 2 ^ (m + 1)) =
          x * t.nodeSize + i / 2 ^ m * 2 ^ m := by
      have hq := Nat.div_add_mod (i / 2 ^ m) 2
      have hi₁ := Nat.div_add_mod i (2 ^ (m + 1))
      have hi₂ := Nat.div_add_mod i (2 ^ m)
      rcases Nat.mod_two_eq_zero_or_one (i / 2 ^ m) with h | h
      · have hmod' : i % 2 ^ (m + 1) = i % 2 ^ m := by rw [hmod, h, Nat.mul_zero]; rfl
        rw [hmod', if_neg (not_le.mpr hmlt), if_neg (not_le.mpr hmlt), Nat.mul_comm _ (2 ^ (m + 1)),
          Nat.mul_comm _ (2 ^ m)]
        omega
      · have hmod' : i % 2 ^ (m + 1) = i % 2 ^ m + 2 ^ m := by rw [hmod, h, Nat.mul_one]
        rw [hmod', if_pos (Nat.le_add_left _ _), if_pos (Nat.le_add_left _ _),
          Nat.mul_comm _ (2 ^ (m + 1)), Nat.mul_comm _ (2 ^ m)]
        omega
    unfold levelLoop
    simp only [hround.1, hround.2]
    by_cases hnear : t.TakenNear g x i m
    · rw [if_pos ((someTaken_iff hi (by omega)).mpr hnear)]
      obtain ⟨c, hc, hloop, hspec⟩ := ih (nbits + 1) (by omega)
      refine ⟨c + 1, by omega, by rw [hloop]; omega, ?_⟩
      intro r h₁ h₂
      cases r with
      | zero => omega
      | succ r =>
        rcases Nat.eq_zero_or_pos r with rfl | hr
        · simpa using hnear
        · rw [Nat.add_le_add_iff_right, hspec r hr (by omega), Nat.add_sub_add_right]
    · rw [if_neg fun h => hnear ((someTaken_iff hi (by omega)).mp h)]
      refine ⟨0, Nat.zero_le _, rfl, ?_⟩
      intro r h₁ h₂
      constructor
      · intro h
        omega
      · intro h
        exact absurd (h.mono (by omega)) hnear

/-- Levels in a node count the bits in common with the nearest slot that is taken. -/
theorem levelInNode_spec (t : LevelTree) (x : ℕ) (hi : i < t.nodeSize) :
    t.levelInNode x i ≤ t.nBitsStep ∧ ∀ r, 0 < r → r ≤ t.nBitsStep →
      (r ≤ t.levelInNode x i ↔
        t.TakenNear ((i + x * t.nodeSize) % 2 ^ 16) x i (t.nBitsStep - r)) := by
  have hi' : i < 2 ^ t.nBitsStep := hi
  obtain ⟨c, hc, hloop, hspec⟩ := levelLoop_spec (g := (i + x * t.nodeSize) % 2 ^ 16) (x := x) hi 0
    (le_refl t.nBitsStep)
  rw [Nat.mod_eq_of_lt hi', Nat.div_eq_of_lt hi', Nat.zero_mul, Nat.add_zero, Nat.zero_add] at hloop
  have heq : t.levelInNode x i = c := hloop
  rw [heq]
  exact ⟨hc, hspec⟩

end LevelTree

/-! ## The level of a key -/

/-- `l` is the greatest number of first bits that the key has in common with another key. -/
def IsLevel (keys : Set KeyWords) (key : KeyWords) (l : ℕ) : Prop :=
  ∀ b, b ≤ l ↔ b = 0 ∨ ∃ key' ∈ keys, key' ≠ key ∧ key.Agree key' b

theorem IsLevel.unique {keys : Set KeyWords} {key : KeyWords} {l l' : ℕ} (h : IsLevel keys key l)
    (h' : IsLevel keys key l') : l = l' :=
  le_antisymm ((h' l).mpr ((h l).mp le_rfl)) ((h l').mpr ((h' l').mp le_rfl))

/-- The key itself does not matter for its level. -/
theorem IsLevel.congr {keys keys' : Set KeyWords} {key : KeyWords} {l : ℕ} (h : IsLevel keys key l)
    (hkeys : ∀ key' ≠ key, key' ∈ keys ↔ key' ∈ keys') : IsLevel keys' key l := by
  intro b
  rw [h b]
  refine or_congr_right (exists_congr fun key' => ?_)
  constructor
  · rintro ⟨hmem, hne, hagree⟩
    exact ⟨(hkeys key' hne).mp hmem, hne, hagree⟩
  · rintro ⟨hmem, hne, hagree⟩
    exact ⟨(hkeys key' hne).mpr hmem, hne, hagree⟩

namespace LevelTree

variable {t t' : LevelTree} {stored live : Set ℕ} {path : ℕ → List ℕ} {loose : Set ℕ}
  {key : KeyWords} {x y i j k m g : ℕ} {p : Spot}

/-- The mixed keys of the tree. -/
def keys (t : LevelTree) (stored : Set ℕ) : Set KeyWords := (fun k => (t.pile k).key) '' stored

/-- A key that starts with the bits that lead to a node has the node on its way. -/
theorem agree_iff_way (key' : KeyWords) {n r : ℕ} {w : List ℕ} (hn : n ∣ 64) (hr : r ≤ n)
    (hlen : w.length ≤ 256 / n) (hw : w <+: stepsOf n key) :
    key.Agree key' (w.length * n + r) ↔ w <+: stepsOf n key' ∧
      getStepIndex n key' w.length / 2 ^ (n - r) = getStepIndex n key w.length / 2 ^ (n - r) := by
  rw [KeyWords.agree_add, ← take_stepsOf_eq_iff hn hlen, ← getStepIndex_div_eq_iff hn hr,
    ← List.prefix_iff_eq_take.mp hw, eq_comm (a := getStepIndex n key' _ / _)]
  exact and_congr_left' List.prefix_iff_eq_take.symm

section

variable (h : TreeInv t stored live path ∅) (hx : x ∈ live)
  (hway : path x ++ [i] <+: stepsOf t.nBitsStep key)

include h hx hway

theorem stepIndex_eq_of_way : getStepIndex t.nBitsStep key (path x).length = i :=
  eq_of_prefixes (step_on_way h hx ((List.prefix_append _ _).trans hway)) hway

/-- The slots near slot `i` are taken by keys that start with the same bits. -/
theorem takenNear_iff {r : ℕ} (hr : r ≤ t.nBitsStep) :
    (∃ j < t.nodeSize, t.slot x j ≠ 0 ∧ j ≠ i ∧
        j / 2 ^ (t.nBitsStep - r) = i / 2 ^ (t.nBitsStep - r)) ↔
      ∃ key' ∈ t.keys stored, ¬path x ++ [i] <+: stepsOf t.nBitsStep key' ∧
        key.Agree key' ((path x).length * t.nBitsStep + r) := by
  have hp := (List.prefix_append (path x) [i]).trans hway
  have hi := stepIndex_eq_of_way h hx hway
  have hagree := fun key' => agree_iff_way key' h.dvd hr (h.shape.path_lt x hx).le hp
  constructor
  · rintro ⟨j, hj, hs, hji, hdiv⟩
    obtain ⟨k, hk, hpk⟩ := h.shape.exists_stored rfl hx hj hs
    refine ⟨_, ⟨k, hk, rfl⟩, fun hpi => hji (eq_of_prefixes hpk hpi), (hagree _).mpr ⟨?_, ?_⟩⟩
    · exact (List.prefix_append _ _).trans hpk
    · rw [hi, stepIndex_eq_of_way h hx hpk]
      exact hdiv
  · rintro ⟨_, ⟨k, hk, rfl⟩, hne, hag⟩
    obtain ⟨hpk, hdiv⟩ := (hagree _).mp hag
    have hway' := step_on_way h hx hpk
    obtain ⟨hj, hs⟩ := h.shape.on_way hx hk hway'
    refine ⟨_, hj, ?_, ?_, ?_⟩
    · have := h.shape.stored_pos k hk
      omega
    · rintro rfl
      exact hne hway'
    · rw [hi] at hdiv
      exact hdiv

/-- A key that starts with the bits that lead to a slot has the slot on its way. -/
theorem way_iff_agree {key' : KeyWords} : path x ++ [i] <+: stepsOf t.nBitsStep key' ↔
    key.Agree key' (((path x).length + 1) * t.nBitsStep) := by
  have hp := (List.prefix_append (path x) [i]).trans hway
  have hi := stepIndex_eq_of_way h hx hway
  rw [Nat.succ_mul, agree_iff_way key' h.dvd le_rfl (h.shape.path_lt x hx).le hp]
  simp only [Nat.sub_self, Nat.pow_zero, Nat.div_one, hi]
  constructor
  · intro hpre
    exact ⟨(List.prefix_append _ _).trans hpre, stepIndex_eq_of_way h hx hpre⟩
  · rintro ⟨hpre, hj⟩
    have hway' := step_on_way h hx hpre
    exact (congrArg (fun j => path x ++ [j]) hj) ▸ hway'

/-- The level of a key that no other key follows to its slot. -/
theorem isLevel_of_alone (hi : i < t.nodeSize) (hs : t.slot x i ≤ 0)
    (halone : ∀ key' ∈ t.keys stored, key' ≠ key → ¬path x ++ [i] <+: stepsOf t.nBitsStep key')
    {l : ℕ} (hl : l ≤ t.nBitsStep) (hnear : ∀ r, 0 < r → r ≤ t.nBitsStep → (r ≤ l ↔
      ∃ j < t.nodeSize, t.slot x j ≠ 0 ∧ j ≠ i ∧
        j / 2 ^ (t.nBitsStep - r) = i / 2 ^ (t.nBitsStep - r))) :
    IsLevel (t.keys stored) key ((path x).length * t.nBitsStep + l) := by
  have hother : ∀ key' ∈ t.keys stored,
      (¬path x ++ [i] <+: stepsOf t.nBitsStep key' ↔ key' ≠ key) := by
    intro key' hmem
    refine ⟨?_, halone key' hmem⟩
    rintro hne rfl
    exact hne hway
  intro b
  rcases Nat.lt_or_ge ((path x).length * t.nBitsStep) b with hb | hb
  · obtain ⟨r, rfl⟩ := Nat.exists_eq_add_of_le hb.le
    have hr : 0 < r := by omega
    rw [Nat.add_le_add_iff_left]
    rcases le_or_gt r t.nBitsStep with hrn | hrn
    · rw [hnear r hr hrn, takenNear_iff h hx hway hrn]
      constructor
      · rintro ⟨key', hmem, hne, hag⟩
        exact .inr ⟨key', hmem, (hother key' hmem).mp hne, hag⟩
      · rintro (h0 | ⟨key', hmem, hne, hag⟩)
        · omega
        · exact ⟨key', hmem, (hother key' hmem).mpr hne, hag⟩
    · refine ⟨fun hle => absurd (hle.trans hl) (not_le.mpr hrn), ?_⟩
      rintro (h0 | ⟨key', hmem, hne, hag⟩)
      · omega
      · refine absurd ((way_iff_agree h hx hway).mpr (hag.mono ?_)) (halone key' hmem hne)
        rw [Nat.succ_mul]
        omega
  · refine ⟨fun _ => ?_, fun _ => hb.trans (Nat.le_add_right _ _)⟩
    -- the node has another slot that is taken
    by_cases hx0 : x = 0
    · rw [hx0, h.shape.path_root, List.length_nil, Nat.zero_mul] at hb
      exact .inl (Nat.le_zero.mp hb)
    · have hj : ∃ j < t.nodeSize, t.slot x j ≠ 0 ∧ j ≠ i := by
        rcases h.shape.branching x hx hx0 (Set.notMem_empty x) with
          ⟨j, hj, hsj⟩ | ⟨j, hj, j', hj', hne, hsj, hsj'⟩
        · refine ⟨j, hj, hsj.ne', ?_⟩
          rintro rfl
          omega
        · by_cases hji : j = i
          · exact ⟨j', hj', hsj', hji ▸ hne.symm⟩
          · exact ⟨j, hj, hsj, hji⟩
      obtain ⟨j, hj, hsj, hji⟩ := hj
      have hdiv : j / 2 ^ (t.nBitsStep - 0) = i / 2 ^ (t.nBitsStep - 0) := by
        have hzero : ∀ a < t.nodeSize, a / 2 ^ (t.nBitsStep - 0) = 0 := fun a => Nat.div_eq_of_lt
        rw [hzero j hj, hzero i hi]
      obtain ⟨key', hmem, hne, hag⟩ :=
        (takenNear_iff h hx hway (Nat.zero_le _)).mp ⟨j, hj, hsj, hji, hdiv⟩
      exact .inr ⟨key', hmem, (hother key' hmem).mp hne, hag.mono hb⟩

end

/-! ## Where the descent ends -/

/-- The nodes on the way of a mixed key, with their steps. -/
inductive OnWay (t : LevelTree) (key : KeyWords) : ℕ → ℕ → Prop
  | root : OnWay t key 0 0
  | down {step node : ℕ} (h : OnWay t key step node)
      (hpos : 0 < t.slot node (t.stepIndex key step)) :
      OnWay t key (step + 1) (t.slot node (t.stepIndex key step)).toNat

/-- A slot of a key on the way of a mixed key can be told from the others by its 16-bit number, or
it holds another key that shares one bit more than those that lead to the slot. -/
def Clear (t : LevelTree) (key : KeyWords) : Prop :=
  ∀ step node, t.OnWay key step node → t.slot node (t.stepIndex key step) < 0 →
    node * t.nodeSize + t.stepIndex key step < 2 ^ 16 ∨
      t.keyAt (t.slot node (t.stepIndex key step)) ≠ key ∧
        key.bit ((step + 1) * t.nBitsStep) =
          (t.keyAt (t.slot node (t.stepIndex key step))).bit ((step + 1) * t.nBitsStep)

theorem OnWay.spec (h : TreeInv t stored live path loose) {step node : ℕ}
    (hw : t.OnWay key step node) :
    node ∈ live ∧ (path node).length = step ∧ path node <+: stepsOf t.nBitsStep key := by
  induction hw with
  | root =>
    rw [h.shape.path_root]
    exact ⟨h.shape.root_mem, rfl, List.nil_prefix⟩
  | @down step node _ hpos ih =>
    obtain ⟨hx, hlen, hp⟩ := ih
    obtain ⟨hy, hpath⟩ := h.shape.child node hx _ (stepIndex_lt t key step) hpos
    refine ⟨hy, ?_, ?_⟩
    · rw [hpath, List.length_append, hlen]
      rfl
    · rw [hpath, ← hlen]
      exact step_on_way h hx hp

theorem descend_onWay {step above} (hw : t.OnWay key step x)
    (hd : t.descend key m step x above = some p) : t.OnWay key p.step p.node := by
  induction m generalizing step x above with
  | zero => cases hd
  | succ m ih =>
    unfold descend at hd
    simp only at hd
    split at hd
    · rename_i hpos
      exact ih (hw.down hpos) hd
    · cases hd
      exact hw

/-- There is one slot only on the way of a key that does not lead to a node. -/
theorem OnWay.unique (h : TreeInv t stored live path loose) {step node step' node' : ℕ}
    (hw : t.OnWay key step node) (hw' : t.OnWay key step' node')
    (hs : t.slot node (t.stepIndex key step) ≤ 0) (hs' : t.slot node' (t.stepIndex key step') ≤ 0) :
    step = step' ∧ node = node' := by
  have key_lt : ∀ {a x b y}, t.OnWay key a x → t.OnWay key b y →
      t.slot x (t.stepIndex key a) ≤ 0 → b ≤ a := by
    intro a x b y ha hb hle
    obtain ⟨hx, hlenx, hpx⟩ := ha.spec h
    obtain ⟨hy, hleny, hpy⟩ := hb.spec h
    by_contra hlt
    have hway := step_on_way h hx hpx
    rw [hlenx] at hway
    have hpre : path x ++ [t.stepIndex key a] <+: path y :=
      List.prefix_of_prefix_length_le hway hpy (by simp [hlenx, hleny]; omega)
    obtain ⟨z, hz, hpz⟩ := h.shape.exists_of_prefix hy hpre
    obtain ⟨-, hsz⟩ := h.shape.slot_of_path hx hz hpz
    have hz0 : z ≠ 0 := by
      rintro rfl
      simp [h.shape.path_root] at hpz
    omega
  have heq : step = step' := le_antisymm (key_lt hw' hw hs') (key_lt hw hw' hs)
  obtain ⟨hx, hlen, hp⟩ := hw.spec h
  obtain ⟨hx', hlen', hp'⟩ := hw'.spec h
  refine ⟨heq, h.shape.path_inj node hx node' hx' ?_⟩
  refine (List.prefix_of_prefix_length_le hp hp' ?_).eq_of_length ?_
  · omega
  · omega

/-- Only the slot where the descent ends matters for `Clear`. -/
theorem clear_iff (h : TreeInv t stored live path loose) (hp : AtSpot t live path key p)
    (hw : t.OnWay key p.step p.node) : t.Clear key ↔ p.next < 0 →
      p.node * t.nodeSize + p.index < 2 ^ 16 ∨ t.keyAt p.next ≠ key ∧
        key.bit ((p.step + 1) * t.nBitsStep) =
          (t.keyAt p.next).bit ((p.step + 1) * t.nBitsStep) := by
  have hle := hp.next_le
  rw [hp.next, hp.index] at hle ⊢
  constructor
  · exact fun hc => hc p.step p.node hw
  · intro hc step node hw' hneg
    obtain ⟨rfl, rfl⟩ := OnWay.unique h hw hw' hle hneg.le
    exact hc hneg

/-! ## `level` -/

/-- The 16-bit number of a slot excludes the slot itself, or no slot at all. -/
theorem takenNear_word_iff (hn : t.nBitsStep ≤ 16) (hi : i < t.nodeSize) :
    t.TakenNear ((i + x * t.nodeSize) % 2 ^ 16) x i m ↔ ∃ j < t.nodeSize, t.slot x j ≠ 0 ∧
      (j ≠ i ∨ 2 ^ 16 ≤ x * t.nodeSize + i) ∧ j / 2 ^ m = i / 2 ^ m := by
  obtain ⟨q, hq⟩ : t.nodeSize ∣ 2 ^ 16 := Nat.pow_dvd_pow 2 hn
  have hexcl : ∀ j < t.nodeSize, (x * t.nodeSize + j ≠ (i + x * t.nodeSize) % 2 ^ 16 ↔
      (j ≠ i ∨ 2 ^ 16 ≤ x * t.nodeSize + i)) := by
    intro j hj
    rcases Nat.lt_or_ge (x * t.nodeSize + i) (2 ^ 16) with hlt | hge
    · rw [Nat.mod_eq_of_lt (by omega)]
      omega
    · refine iff_of_true ?_ (.inr hge)
      intro heq
      -- modulo the size of a node both numbers are local
      have hmod := congrArg (· % t.nodeSize) heq
      simp only [hq, Nat.mod_mul_right_mod, Nat.add_mul_mod_self_right,
        Nat.mul_add_mod_self_right, Nat.mod_eq_of_lt hj, Nat.mod_eq_of_lt hi] at hmod
      have hlt : (i + x * t.nodeSize) % 2 ^ 16 < 2 ^ 16 := Nat.mod_lt _ (by norm_num)
      omega
  unfold TakenNear
  constructor
  · rintro ⟨j, hj, hs, hg, hdiv⟩
    exact ⟨j, hj, hs, (hexcl j hj).mp hg, hdiv⟩
  · rintro ⟨j, hj, hs, hg, hdiv⟩
    exact ⟨j, hj, hs, (hexcl j hj).mpr hg, hdiv⟩

/-- Where the slot is told from the others, its level in the node is that of the others. -/
theorem near_of_clear (hn : t.nBitsStep ≤ 16) (hi : i < t.nodeSize)
    (hclear : t.slot x i = 0 ∨ x * t.nodeSize + i < 2 ^ 16) {r : ℕ} (hr : 0 < r)
    (hrn : r ≤ t.nBitsStep) : r ≤ t.levelInNode x i ↔ ∃ j < t.nodeSize, t.slot x j ≠ 0 ∧ j ≠ i ∧
      j / 2 ^ (t.nBitsStep - r) = i / 2 ^ (t.nBitsStep - r) := by
  rw [(levelInNode_spec t x hi).2 r hr hrn, takenNear_word_iff hn hi]
  constructor
  · rintro ⟨j, hj, hs, hji, hdiv⟩
    refine ⟨j, hj, hs, ?_, hdiv⟩
    rintro rfl
    rcases hclear with h0 | hlt
    · exact hs h0
    · exact hji.elim (fun h => h rfl) (not_le.mpr hlt)
  · rintro ⟨j, hj, hs, hji, hdiv⟩
    exact ⟨j, hj, hs, .inl hji, hdiv⟩

theorem levelInNode_lt (hn : t.nBitsStep ≤ 16) (hpos : 0 < t.nBitsStep) (hi : i < t.nodeSize)
    (hclear : x * t.nodeSize + i < 2 ^ 16) : t.levelInNode x i < t.nBitsStep := by
  by_contra hge
  obtain ⟨j, -, -, hji, hdiv⟩ := (near_of_clear hn hi (.inr hclear) hpos le_rfl).mp (not_lt.mp hge)
  rw [Nat.sub_self, Nat.pow_zero, Nat.div_one, Nat.div_one] at hdiv
  exact hji hdiv

/-- A slot that cannot be told from the others counts itself. -/
theorem levelInNode_of_not_clear (hn : t.nBitsStep ≤ 16) (hpos : 0 < t.nBitsStep)
    (hi : i < t.nodeSize) (hs : t.slot x i ≠ 0) (hge : 2 ^ 16 ≤ x * t.nodeSize + i) :
    t.levelInNode x i = t.nBitsStep := by
  obtain ⟨hle, hspec⟩ := levelInNode_spec t x hi
  refine le_antisymm hle ((hspec _ hpos le_rfl).mpr ((takenNear_word_iff hn hi).mpr ?_))
  exact ⟨i, hi, hs, .inr hge, rfl⟩

/-- The level of the key, and the number of the key in the pile when it is stored. -/
structure Right (t : LevelTree) (stored : Set ℕ) (key : KeyWords) (r : LevelResult) : Prop where
  level : IsLevel (t.keys stored) key r.level
  pileIdx : ∀ k, r.pileIdx = some k ↔ k ∈ stored ∧ (t.pile k).key = key

/-- A level that is not right, or a key found that is not stored. -/
def Wrong (t : LevelTree) (stored : Set ℕ) (key : KeyWords) (r : LevelResult) : Prop :=
  ¬IsLevel (t.keys stored) key r.level ∨ key ∉ t.keys stored ∧ r.pileIdx ≠ none

section

variable (h : TreeInv t stored live path ∅) (hp : AtSpot t live path key p)

include h hp

/-- No key that is stored follows another key to an empty slot. -/
theorem not_way_of_empty (h0 : p.next = 0) :
    ∀ key' ∈ t.keys stored, ¬path p.node ++ [p.index] <+: stepsOf t.nBitsStep key' := by
  rintro _ ⟨k, hk, rfl⟩ hpre
  have hon := (h.shape.on_way hp.mem hk hpre).2
  have hpos := h.shape.stored_pos k hk
  rw [← hp.next, h0] at hon
  omega

/-- Only the key in a slot follows another key there. -/
theorem eq_keyAt_of_way (h0 : p.next ≠ 0) {key' : KeyWords} (hk : key' ∈ t.keys stored)
    (hpre : path p.node ++ [p.index] <+: stepsOf t.nBitsStep key') : key' = t.keyAt p.next := by
  obtain ⟨k, hk, rfl⟩ := hk
  have hneg := (hp.mem_stored h h0).1
  have hslot := (h.shape.on_way hp.mem hk hpre).2
  rw [← hp.next] at hslot
  rw [hslot.resolve_right (by omega), keyAt, neg_neg, Int.toNat_natCast]

theorem keyAt_way (h0 : p.next ≠ 0) :
    t.keyAt p.next ∈ t.keys stored ∧
      path p.node ++ [p.index] <+: stepsOf t.nBitsStep (t.keyAt p.next) := by
  obtain ⟨hneg, hmem⟩ := hp.mem_stored h h0
  have hi : p.index < t.nodeSize := hp.index ▸ stepIndex_lt t key p.step
  refine ⟨⟨_, hmem, rfl⟩, ?_⟩
  rw [hp.next] at hneg ⊢
  exact (h.shape.leaf _ hp.mem _ hi hneg).2

end

theorem level_spec (h : Inv t stored) (hn : t.nBitsStep ≤ 16) (key : KeyWords) :
    ∃ r, t.level key = some r ∧ (t.Clear (mixKey key) → Right t stored (mixKey key) r) ∧
      (¬t.Clear (mixKey key) → Wrong t stored (mixKey key) r) := by
  obtain ⟨⟨live, path, hinv⟩, -⟩ := h
  obtain ⟨p, hfind, hp⟩ := find_spec hinv (mixKey key)
  have hclear := clear_iff hinv hp (descend_onWay .root hfind)
  have hi : p.index < t.nodeSize := hp.index ▸ stepIndex_lt t _ p.step
  have hpos : 0 < t.nBitsStep := Nat.pos_of_dvd_of_pos hinv.dvd (by norm_num)
  have hle : t.slot p.node p.index ≤ 0 := hp.next ▸ hp.next_le
  have hlen := hp.length
  simp only [level, hfind, Option.bind_eq_bind, Option.bind_some, Option.pure_def]
  generalize mixKey key = K at *
  rw [← hlen] at hclear ⊢
  by_cases h0 : p.next = 0
  · -- an empty slot
    rw [if_pos h0]
    have hnone := not_way_of_empty hinv hp h0
    refine ⟨_, rfl, fun _ => ⟨?_, ?_⟩, fun hn => absurd (hclear.mpr fun hneg => by omega) hn⟩
    · exact isLevel_of_alone hinv hp.mem hp.way hi hle (fun key' hk _ => hnone key' hk)
        (levelInNode_spec t p.node hi).1 fun r hr hrn =>
          near_of_clear hn hi (.inl (hp.next ▸ h0)) hr hrn
    · rintro k
      refine ⟨fun h => (Option.some_ne_none k h.symm).elim, ?_⟩
      rintro ⟨hk, rfl⟩
      exact absurd hp.way (hnone _ ⟨k, hk, rfl⟩)
  · rw [if_neg h0]
    obtain ⟨hneg, hmem⟩ := hp.mem_stored hinv h0
    obtain ⟨hstored, hkway⟩ := keyAt_way hinv hp h0
    have hagree := (way_iff_agree hinv hp.mem hp.way).mp hkway
    have hl := (levelInNode_spec t p.node hi).1
    have hs0 : t.slot p.node p.index ≠ 0 := hp.next ▸ h0
    have hsucc : (path p.node).length * t.nBitsStep + t.nBitsStep =
        ((path p.node).length + 1) * t.nBitsStep := (Nat.succ_mul _ _).symm
    have hnbits : (path p.node).length * t.nBitsStep + t.levelInNode p.node p.index ≤
        ((path p.node).length + 1) * t.nBitsStep := by omega
    have h256 : ((path p.node).length + 1) * t.nBitsStep ≤ 256 :=
      (Nat.mul_le_mul_right _ (hinv.shape.path_lt _ hp.mem)).trans (Nat.div_mul_le_self 256 _)
    by_cases hkey : t.keyAt p.next = K
    · -- the slot of the key itself
      have hto : (t.pile (-p.next).toNat).key = K := hkey
      have halone : ∀ key' ∈ t.keys stored, key' ≠ K →
          ¬path p.node ++ [p.index] <+: stepsOf t.nBitsStep key' :=
        fun key' hk hne hpre => hne ((eq_keyAt_of_way hinv hp h0 hk hpre).trans hkey)
      rw [hkey, commonBits_self K (hnbits.trans h256)]
      refine ⟨_, rfl, fun hc => ⟨?_, ?_⟩, fun hc => .inl ?_⟩
      · have hlt := (hclear.mp hc hneg).resolve_right fun h => h.1 hkey
        exact isLevel_of_alone hinv hp.mem hp.way hi hle halone hl fun r hr hrn =>
          near_of_clear hn hi (.inr hlt) hr hrn
      · intro k
        simp only [if_true, Option.some.injEq]
        constructor
        · rintro rfl
          exact ⟨hmem, hto⟩
        · rintro ⟨hk, hkk⟩
          rw [hp.next_eq hinv hk hkk]
          omega
      · have hge : 2 ^ 16 ≤ p.node * t.nodeSize + p.index := by
          by_contra hlt
          exact hc (hclear.mpr fun _ => .inl (not_le.mp hlt))
        rw [levelInNode_of_not_clear hn hpos hi hs0 hge, hsucc]
        intro hlevel
        rcases (hlevel _).mp le_rfl with hzero | ⟨key', hk, hne, hag⟩
        · rcases Nat.mul_eq_zero.mp hzero with h | h <;> omega
        · exact halone key' hk hne ((way_iff_agree hinv hp.mem hp.way).mpr hag)
    · -- the slot of another key
      have hcommon := agree_iff_le_commonBits (fun h => hkey h.symm) (hagree.mono hnbits)
      have hlevel : IsLevel (t.keys stored) K (commonBits K (t.keyAt p.next)
          ((path p.node).length * t.nBitsStep + t.levelInNode p.node p.index)) := by
        intro b
        rw [← hcommon b]
        refine ⟨fun hag => .inr ⟨_, hstored, hkey, hag⟩, ?_⟩
        rintro (rfl | ⟨key', hk, hne, hag⟩)
        · exact KeyWords.agree_zero
        · rcases le_total b (((path p.node).length + 1) * t.nBitsStep) with hb | hb
          · exact hagree.mono hb
          · have hpre := (way_iff_agree hinv hp.mem hp.way).mpr (hag.mono hb)
            rwa [← eq_keyAt_of_way hinv hp h0 hk hpre]
      have habsent : K ∉ t.keys stored := fun hK =>
        hkey (eq_keyAt_of_way hinv hp h0 hK hp.way).symm
      have hbit := hcommon (((path p.node).length + 1) * t.nBitsStep + 1)
      rw [KeyWords.agree_add] at hbit
      simp only [Nat.lt_one_iff, forall_eq, Nat.add_zero, hagree, true_and] at hbit
      have hge := (hcommon _).mp hagree
      refine ⟨_, rfl, fun hc => ⟨hlevel, ?_⟩, fun hc => .inr ⟨habsent, ?_⟩⟩
      · have hne : commonBits K (t.keyAt p.next) ((path p.node).length * t.nBitsStep +
            t.levelInNode p.node p.index) ≠
            (path p.node).length * t.nBitsStep + t.levelInNode p.node p.index := by
          rcases hclear.mp hc hneg with hlt | ⟨-, heq⟩
          · have := levelInNode_lt hn hpos hi hlt
            rw [Nat.succ_mul] at hge
            omega
          · have := hbit.mp heq
            omega
        intro k
        rw [if_neg hne]
        refine ⟨fun h => (Option.some_ne_none k h.symm).elim, ?_⟩
        rintro ⟨hk, rfl⟩
        exact absurd ⟨k, hk, rfl⟩ habsent
      · have hnot : ¬(p.node * t.nodeSize + p.index < 2 ^ 16 ∨ t.keyAt p.next ≠ K ∧
            K.bit (((path p.node).length + 1) * t.nBitsStep) =
              (t.keyAt p.next).bit (((path p.node).length + 1) * t.nBitsStep)) :=
          fun h => hc (hclear.mpr fun _ => h)
        rw [not_or, not_and] at hnot
        have hfull := levelInNode_of_not_clear hn hpos hi hs0 (not_lt.mp hnot.1)
        have hlt := mt hbit.mpr (hnot.2 hkey)
        rw [hfull, hsucc] at hlt hge ⊢
        rw [if_pos (by omega)]
        exact Option.some_ne_none _

end LevelTree

end ZkevmProver
