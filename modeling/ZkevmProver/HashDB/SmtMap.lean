import ZkevmProver.HashDB.SmtSet

/-!
# The state tree is a map

The root is a function of the map it represents, whatever the calls that built it; `set` writes one
key of the map and `get` reads it, on the latest root and on every earlier one.

  1. Roots that represent a map.
  2. `get` reads the map.
  3. Sequences of calls of `set`, and their history independence.
  4. The roots reached from zero, and what calls on them return.
-/

namespace ZkevmProver

open Effects PrefixTrie PrefixTrie.Trie

namespace Smt

variable {σ : Type} {h : SmtHandler σ} {ctx : SmtContext} {S : NodeStore h ctx} {smt : Smt}
variable {R : Set (Fea × Node)}

/-! ## Roots and maps -/

/-- With the rows `R`, the root represents the map `m`, zero standing for no value. -/
def Represents (smt : Smt) (R : Set (Fea × Node)) (root : Fea) (m : Fea → ℕ) : Prop :=
  ∃ t : Tree, WF keyBit 0 t ∧ smt.Holds R 0 t ∧ smt.digest 0 t = root ∧ ∀ k, t.value k = m k

theorem represents_zero (smt : Smt) (R : Set (Fea × Node)) :
    smt.Represents R 0 fun _ => 0 :=
  ⟨empty, trivial, trivial, rfl, fun _ => rfl⟩

theorem Represents.mono {R' : Set (Fea × Node)} {root : Fea} {m : Fea → ℕ}
    (h : smt.Represents R root m) (hR : R ⊆ R') : smt.Represents R' root m := by
  obtain ⟨t, hwf, hold, hd, hm⟩ := h
  exact ⟨t, hwf, hold.mono hR, hd, hm⟩

/-- The lookups of a held tree are its values. -/
theorem Holds.get_eq {t : Tree} (hold : smt.Holds R 0 t) (k : Fea) :
    Trie.get keyBit 0 t k = if t.value k = 0 then none else some (t.value k) := by
  unfold Tree.value
  cases hg : Trie.get keyBit 0 t k with
  | none => rfl
  | some v => simp [(hold.leafValue hg).1.ne']

/-- **Canonical roots.**  A map has one root. -/
theorem Represents.root_unique {R' : Set (Fea × Node)} {root root' : Fea} {m : Fea → ℕ}
    (h : smt.Represents R root m) (h' : smt.Represents R' root' m) : root = root' := by
  obtain ⟨t, hwf, hold, rfl, hm⟩ := h
  obtain ⟨t', hwf', hold', rfl, hm'⟩ := h'
  have ht : t = t' := hwf.ext hwf' fun k => by
    rw [hold.get_eq, hold'.get_eq, hm, hm']
  rw [ht]

theorem Represents.root_eq_zero_iff (hR : CollisionFree R) {root : Fea} {m : Fea → ℕ}
    (h : smt.Represents R root m) : root = 0 ↔ ∀ k, m k = 0 := by
  obtain ⟨t, hwf, hold, rfl, hm⟩ := h
  constructor
  · intro h0 k
    have ht : t = empty := by
      by_contra hne
      exact hold.digest_ne_zero hR hne h0
    rw [← hm, ht]
    rfl
  · intro h0
    have ht : t = empty := hwf.ext (wf_empty _ _) fun k => by
      rw [hold.get_eq, hm, if_pos (h0 k), get_empty]
    rw [ht]
    rfl

/-- `set` on a root that represents a map gives a root that represents the map with one key
written. -/
theorem runs_set_of_represents {s : σ} (hidle : S.idle s) (hR : CollisionFree (S.rows s))
    {root : Fea} {m : Fea → ℕ} (hm : smt.Represents (S.rows s) root m) (k : Fea) {v : ℕ}
    (hv : v < 2 ^ 256) :
    ∃ res s', Runs h (smt.set ctx root k v) s res s' ∧ S.idle s' ∧ S.rows s ⊆ S.rows s' ∧
      smt.Represents (S.rows s') res.newRoot (Function.update m k v) := by
  obtain ⟨t, hwf, hold, rfl, hm⟩ := hm
  obtain ⟨s', hrun, hidle', hrows, htree⟩ := runs_set S hidle hR hwf hold k hv
  refine ⟨_, s', hrun, hidle', hrows, _, plan_wf (located_locate k hwf) v, htree, rfl, ?_⟩
  intro k'
  unfold Tree.value
  rw [plan_get (located_locate k hwf) v k', plug_locate_root, Function.update_apply, ← hm]
  by_cases hk : k' = k
  · rw [if_pos hk, if_pos hk]
    by_cases hv0 : v = 0 <;> simp [hv0]
  · rw [if_neg hk, if_neg hk]
    rfl

/-! ## Reading -/

/-- The result of `get`, for the end of its walk. -/
def getResultOf (smt : Smt) (root key : Fea) (sp : TreeSpine) (e : Tree) : SmtGetResult :=
  let siblings := smt.siblingsOf sp e
  match e with
  | leaf k' v' =>
    if key = k' then
      { root, key, siblings, insKey := 0, insValue := 0, isOld0 := true, value := v'
        proofHashCounter := siblings.length + 2 }
    else
      { root, key, siblings, insKey := k', insValue := v', isOld0 := false, value := 0
        proofHashCounter := siblings.length + 2 }
  | _ =>
    { root, key, siblings, insKey := 0, insValue := 0, isOld0 := true, value := 0
      proofHashCounter := siblings.length }

/-- `get` on the root of a held tree returns what is at the end of the walk. -/
theorem reads_get (hR : CollisionFree R) {t : Tree} (hwf : WF keyBit 0 t)
    (hold : smt.Holds R 0 t) (k : Fea) :
    S.Reads R (smt.get (smt.digest 0 t) k)
      (smt.getResultOf (smt.digest 0 t) k (locate keyBit k 0 t []).1
        (locate keyBit k 0 t []).2) := by
  have loc := located_locate k hwf
  have hplug := plug_locate_root k t
  have hwalk := reads_descend_root (S := S) hR k hwf hold
  generalize locate keyBit k 0 t [] = p at loc hplug hwalk ⊢
  obtain ⟨sp, e⟩ := p
  obtain rfl : plug sp e = t := hplug
  refine hwalk.bind (NodeStore.reads_pure_of_eq ?_)
  rcases loc.ends with rfl | ⟨k', v', rfl⟩
  · by_cases hroot : smt.digest 0 (plug sp empty) = 0
    · have hnil : sp = [] := by
        cases sp with
        | nil => rfl
        | cons f sp =>
          exact absurd hroot (hold.digest_ne_zero hR
            (plug_ne_empty (t := join f.1 empty f.2) sp (join_ne_empty _ _ _)))
      subst hnil
      rfl
    · simp [endOf, foundAt, getResultOf, siblingsOf, hroot]
  · have hroot := hold.digest_ne_zero hR (plug_ne_empty sp (by simp))
    obtain ⟨-, ⟨hv', -⟩, -⟩ := holds_plug_iff.mp hold
    by_cases hk : k = k'
    · simp [endOf, foundAt, getResultOf, siblingsOf, hk, hroot, hv'.1.ne']
    · simp [endOf, foundAt, getResultOf, siblingsOf, hk, hroot]

/-- The value that `get` returns is the one of the tree. -/
theorem value_getResultOf (smt : Smt) {k : Fea} {sp : TreeSpine} {e : Tree} (loc : Located k sp e)
    (root : Fea) : (smt.getResultOf root k sp e).value = Tree.value (plug sp e) k := by
  rw [Tree.value, get_plug loc.onPath]
  rcases loc.ends with rfl | ⟨k', v', rfl⟩
  · rfl
  · by_cases hk : k = k' <;> simp [getResultOf, hk]

/-- What a call of `get` returns as the value. -/
def valueAt (smt : Smt) (h : SmtHandler σ) (s : σ) (root key : Fea) : Except Fault ℕ :=
  (run h (smt.get root key) s).1.map SmtGetResult.value

/-- `get` on a root that represents a map reads the map. -/
theorem valueAt_of_represents {s : σ} (hR : CollisionFree (S.rows s)) {root : Fea} {m : Fea → ℕ}
    (hm : smt.Represents (S.rows s) root m) (k : Fea) : smt.valueAt h s root k = .ok (m k) := by
  obtain ⟨t, hwf, hold, rfl, hm⟩ := hm
  have hrun := reads_get (S := S) hR hwf hold k s rfl
  have hval := value_getResultOf smt (located_locate k hwf) (smt.digest 0 t)
  rw [plug_locate_root, hm] at hval
  rw [valueAt, show run h _ s = _ from hrun]
  exact congrArg Except.ok hval

/-! ## Sequences of calls -/

/-- Calls `set` for each key and value in turn, each on the new root of the call before. -/
def setAll (smt : Smt) (ctx : SmtContext) : List (Fea × ℕ) → Fea → SmtM Fea
  | [], root => return root
  | (key, value) :: ops, root => do
    let r ← smt.set ctx root key value
    setAll smt ctx ops r.newRoot

/-- The map that a sequence of writes leaves, starting from a map. -/
def written (m : Fea → ℕ) : List (Fea × ℕ) → Fea → ℕ
  | [] => m
  | (key, value) :: ops => written (Function.update m key value) ops

/-- A sequence of calls of `set` succeeds, and its root represents the map it leaves. -/
theorem runs_setAll {s : σ} (hidle : S.idle s) {ops : List (Fea × ℕ)}
    (hv : ∀ op ∈ ops, op.2 < 2 ^ 256) {root : Fea} {m : Fea → ℕ}
    (hR : CollisionFree (S.rows (run h (smt.setAll ctx ops root) s).2))
    (hm : smt.Represents (S.rows s) root m) :
    ∃ root' s', Runs h (smt.setAll ctx ops root) s root' s' ∧
      smt.Represents (S.rows s') root' (written m ops) := by
  induction ops generalizing s root m with
  | nil => exact ⟨root, s, Runs.pure _, hm⟩
  | cons op ops ih =>
    obtain ⟨k, v⟩ := op
    rw [List.forall_mem_cons] at hv
    obtain ⟨res, s₁, hrun, hidle₁, -, hm₁⟩ := runs_set_of_represents hidle
      (hR.mono (NodeStore.rows_subset_run _ _)) hm k hv.1
    have hrest : run h (smt.setAll ctx ((k, v) :: ops) root) s =
        run h (smt.setAll ctx ops res.newRoot) s₁ := by
      rw [setAll, run_bind, show run h (smt.set ctx root k v) s = _ from hrun]
    rw [hrest] at hR
    obtain ⟨root', s', hrun', hm'⟩ := ih hidle₁ hv.2 hR hm₁
    exact ⟨root', s', hrest.trans hrun', hm'⟩

/-- **History independence.**  Two sequences of calls of `set` from the zero root that leave the
same map return the same root, zero exactly when the map is empty. -/
theorem setAll_history_independent {σ' : Type} {h' : SmtHandler σ'} {ctx' : SmtContext}
    (S : NodeStore h ctx) (S' : NodeStore h' ctx') {s : σ} {s' : σ'} (hidle : S.idle s)
    (hidle' : S'.idle s') {ops ops' : List (Fea × ℕ)} (hv : ∀ op ∈ ops, op.2 < 2 ^ 256)
    (hv' : ∀ op ∈ ops', op.2 < 2 ^ 256)
    (hR : CollisionFree (S.rows (run h (smt.setAll ctx ops 0) s).2))
    (hR' : CollisionFree (S'.rows (run h' (smt.setAll ctx' ops' 0) s').2))
    (hmap : written (fun _ => 0) ops = written (fun _ => 0) ops') :
    ∃ root, (run h (smt.setAll ctx ops 0) s).1 = .ok root ∧
      (run h' (smt.setAll ctx' ops' 0) s').1 = .ok root ∧
      (root = 0 ↔ ∀ k, written (fun _ => 0) ops k = 0) := by
  obtain ⟨root, s₁, hrun, hm⟩ := runs_setAll hidle hv hR (represents_zero smt _)
  obtain ⟨root', s₁', hrun', hm'⟩ := runs_setAll hidle' hv' hR' (represents_zero smt _)
  rw [← hmap] at hm'
  obtain rfl := hm.root_unique hm'
  rw [show run h _ s = _ from hrun] at hR
  exact ⟨root, congrArg Prod.fst hrun, congrArg Prod.fst hrun', hm.root_eq_zero_iff hR⟩

/-- A hash for runs on a few nodes, where it has no collisions. -/
def sampleHash (n : Node) : Fea :=
  let mix (a : Fea) (c : ℕ) : ℕ :=
    toU64 a.fe0 * c + toU64 a.fe1 * (c + 7) + toU64 a.fe2 * (c * 31) + toU64 a.fe3 * (c * 1001)
  ⟨fromU64 (mix n.left 1000003 + mix n.right 777767777 + mix n.capacity 999999937 + 12345), 1, 0, 0⟩

/-- The tree over the sample hash. -/
def sampleSmt : Smt := ⟨sampleHash, ⟨true, true⟩⟩

/-- Calls straight to the database. -/
def directContext : SmtContext := ⟨false, .database⟩

/-- Keys `(1,0,0,0)`, `(5,0,0,0)` and `(7,0,0,0)` in two orders, one with an overwrite and a
deletion. -/
theorem setAll_history_independent_sample :
    ∃ root, (run dbHandler (sampleSmt.setAll directContext
        [(⟨1, 0, 0, 0⟩, 3), (⟨5, 0, 0, 0⟩, 4), (⟨7, 0, 0, 0⟩, 6), (⟨7, 0, 0, 0⟩, 0)] 0) []).1 =
          .ok root ∧
      (run dbHandler (sampleSmt.setAll directContext
        [(⟨5, 0, 0, 0⟩, 9), (⟨1, 0, 0, 0⟩, 3), (⟨5, 0, 0, 0⟩, 4)] 0) []).1 = .ok root ∧
      (root = 0 ↔ ∀ k, written (fun _ => 0)
        [(⟨1, 0, 0, 0⟩, 3), (⟨5, 0, 0, 0⟩, 4), (⟨7, 0, 0, 0⟩, 6), (⟨7, 0, 0, 0⟩, 0)] k = 0) :=
  setAll_history_independent (dbStore directContext) (dbStore directContext) trivial trivial
    (by decide) (by decide) (NodeTable.collisionFree (by decide +kernel))
    (NodeTable.collisionFree (by decide +kernel))
    (by
      funext k
      simp only [written, Function.update_apply]
      by_cases h5 : k = ⟨5, 0, 0, 0⟩
      · simp [h5]
      · by_cases h1 : k = ⟨1, 0, 0, 0⟩ <;> simp [h1, h5])

/-! ## The roots reached from zero -/

/-- In state `s`, the root has been reached from the zero root by calls of `set`, each on a root
reached before. -/
inductive Reached (smt : Smt) (S : NodeStore h ctx) : σ → Fea → Prop
  | zero {s} (hidle : S.idle s) : Reached smt S s 0
  | set {s s' root k v res} (hroot : Reached smt S s root) (hv : v < 2 ^ 256)
      (hrun : Runs h (smt.set ctx root k v) s res s') : Reached smt S s' res.newRoot
  | keep {s s' root root' k v res} (hroot : Reached smt S s root) (hroot' : Reached smt S s root')
      (hv : v < 2 ^ 256) (hrun : Runs h (smt.set ctx root k v) s res s') : Reached smt S s' root'

/-- A reached root represents a map. -/
theorem Reached.represents {s : σ} {root : Fea} (hreach : Reached smt S s root)
    (hR : CollisionFree (S.rows s)) : S.idle s ∧ ∃ m, smt.Represents (S.rows s) root m := by
  induction hreach with
  | zero hidle => exact ⟨hidle, _, represents_zero smt _⟩
  | @set s s' root k v res _ hv hrun ih =>
    have hrows : S.rows s ⊆ S.rows (run h (smt.set ctx root k v) s).2 :=
      NodeStore.rows_subset_run _ s
    rw [show run h (smt.set ctx root k v) s = _ from hrun] at hrows
    obtain ⟨hidle, m, hm⟩ := ih (hR.mono hrows)
    obtain ⟨res', s'', hrun', hidle', -, hm'⟩ :=
      runs_set_of_represents hidle (hR.mono hrows) hm k hv
    obtain ⟨rfl, rfl⟩ := hrun.eq hrun'
    exact ⟨hidle', _, hm'⟩
  | @keep s s' root root' k v res _ _ hv hrun ih ih' =>
    have hrows : S.rows s ⊆ S.rows (run h (smt.set ctx root k v) s).2 :=
      NodeStore.rows_subset_run _ s
    rw [show run h (smt.set ctx root k v) s = _ from hrun] at hrows
    obtain ⟨hidle, m, hm⟩ := ih (hR.mono hrows)
    obtain ⟨-, m', hm'⟩ := ih' (hR.mono hrows)
    obtain ⟨res', s'', hrun', hidle', -, -⟩ :=
      runs_set_of_represents hidle (hR.mono hrows) hm k hv
    obtain ⟨rfl, rfl⟩ := hrun.eq hrun'
    exact ⟨hidle', m', hm'.mono hrows⟩

/-- **The tree is a map.**  On a root reached from zero, `set` succeeds; the new root has the new
value at its key and the old values elsewhere, and the old root keeps its values. -/
theorem set_get {s : σ} {root : Fea} (hreach : Reached smt S s root) (k : Fea) {v : ℕ}
    (hv : v < 2 ^ 256) (hR : CollisionFree (S.rows (run h (smt.set ctx root k v) s).2)) :
    ∃ res s', Runs h (smt.set ctx root k v) s res s' ∧
      smt.valueAt h s' res.newRoot k = .ok v ∧
      ∃ m : Fea → ℕ, ∀ k', smt.valueAt h s root k' = .ok (m k') ∧
        smt.valueAt h s' root k' = .ok (m k') ∧
        (k' ≠ k → smt.valueAt h s' res.newRoot k' = .ok (m k')) := by
  have hrows : S.rows s ⊆ S.rows (run h (smt.set ctx root k v) s).2 :=
    NodeStore.rows_subset_run _ s
  obtain ⟨hidle, m, hm⟩ := hreach.represents (hR.mono hrows)
  obtain ⟨res, s', hrun, -, hsub, hm'⟩ :=
    runs_set_of_represents hidle (hR.mono hrows) hm k hv
  rw [show run h (smt.set ctx root k v) s = _ from hrun] at hR
  refine ⟨res, s', hrun, ?_, m, fun k' => ⟨?_, ?_, fun hk => ?_⟩⟩
  · rw [valueAt_of_represents hR hm', Function.update_self]
  · exact valueAt_of_represents (hR.mono hsub) hm k'
  · exact valueAt_of_represents hR (hm.mono hsub) k'
  · rw [valueAt_of_represents hR hm', Function.update_of_ne hk]

/-- The database after one write to it, and the root. -/
def sampleState : NodeTable := (run dbHandler (sampleSmt.set directContext 0 ⟨1, 0, 0, 0⟩ 3) []).2

def sampleRoot : Fea := sampleSmt.digest 0 (leaf ⟨1, 0, 0, 0⟩ 3)

theorem reached_sample : Reached sampleSmt (dbStore directContext) sampleState sampleRoot := by
  have hrun : Runs dbHandler (sampleSmt.set directContext 0 ⟨1, 0, 0, 0⟩ 3) []
      (resultOf sampleSmt 0 ⟨1, 0, 0, 0⟩ 3 (plan sampleSmt ⟨1, 0, 0, 0⟩ 3 ([], empty)))
      sampleState := by
    unfold sampleState
    rfl
  have hset := Reached.set (S := dbStore directContext) (.zero trivial) (by decide) hrun
  exact hset

/-- A second key beside the first. -/
theorem set_get_sample :
    ∃ res s', Runs dbHandler (sampleSmt.set directContext sampleRoot ⟨5, 0, 0, 0⟩ 4) sampleState
        res s' ∧
      sampleSmt.valueAt dbHandler s' res.newRoot ⟨5, 0, 0, 0⟩ = .ok 4 ∧
      ∃ m : Fea → ℕ, ∀ k', sampleSmt.valueAt dbHandler sampleState sampleRoot k' = .ok (m k') ∧
        sampleSmt.valueAt dbHandler s' sampleRoot k' = .ok (m k') ∧
        (k' ≠ ⟨5, 0, 0, 0⟩ → sampleSmt.valueAt dbHandler s' res.newRoot k' = .ok (m k')) :=
  set_get reached_sample ⟨5, 0, 0, 0⟩ (by decide) (NodeTable.collisionFree (by decide))

end Smt

end ZkevmProver
