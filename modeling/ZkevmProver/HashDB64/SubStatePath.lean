import ZkevmProver.HashDB64.StateManager64
import ZkevmProver.HashDB64.KVTreeRefine

/-!
# Reads on the path to a root

The tree of a batch holds the values that were written on the path of sub-states to the current
root, the last one first, as long as every revert takes out of it what the abandoned sub-states
wrote.  A revert extracts the values of the sub-states that come after the root, from the first one
on, while the last one is on top.

1. The values in the tree: `Holds`
2. Extracting the values of sub-states: `extractAll_spec`
3. Transactions of a batch
4. One call, in a batch
-/

namespace ZkevmProver

open Transitions

/-! ## The values in the tree -/

theorem Fea.toKeyWords_injective : Function.Injective Fea.toKeyWords := by
  intro a b h
  have hword {x y : Fe} (h : BitVec.ofNat 64 (toU64 x) = BitVec.ofNat 64 (toU64 y)) : x = y := by
    apply toU64_injective
    have hnat := congrArg BitVec.toNat h
    rwa [BitVec.toNat_ofNat, BitVec.toNat_ofNat, Nat.mod_eq_of_lt (toU64_lt x),
      Nat.mod_eq_of_lt (toU64_lt y)] at hnat
  obtain ⟨h0, h1, h2, h3⟩ := KeyWords.mk.inj h
  exact Fea.ext (hword h0) (hword h1) (hword h2) (hword h3)

/-- Values that were written, the last one first. -/
abbrev WriteLog := List (Fea × ℤ)

namespace WriteLog

/-- The value written last under a key. -/
def last (log : WriteLog) (key : Fea) : Option ℤ := (log.find? fun e => e.1 = key).map Prod.snd

/-- The values of each key are the same, in the same order. -/
def SameStacks (log log' : WriteLog) : Prop :=
  ∀ key, log.filter (fun e => e.1 = key) = log'.filter fun e => e.1 = key

variable {log log' : WriteLog} {key : Fea} {value : ℤ}

theorem SameStacks.last_eq (h : SameStacks ((key, value) :: log) log') (rest : WriteLog) :
    last (log' ++ rest) key = some value := by
  have hkey := h key
  rw [List.filter_cons_of_pos (by simp)] at hkey
  unfold last
  rw [List.find?_append, ← List.head?_filter, ← hkey]
  rfl

theorem SameStacks.eraseP (h : SameStacks ((key, value) :: log) log') (rest : WriteLog) :
    ∃ log'', (log' ++ rest).eraseP (fun e => e.1 = key) = log'' ++ rest ∧ SameStacks log log'' := by
  have hmem : (key, value) ∈ log' := by
    have hfilter : (key, value) ∈ log'.filter fun e => e.1 = key := by
      rw [← h key]
      simp
    exact List.mem_of_mem_filter hfilter
  obtain ⟨a, l₁, l₂, hl₁, ha, rfl, herase⟩ :=
    List.exists_of_eraseP (p := fun e : Fea × ℤ => e.1 = key) hmem (by simp)
  have happend := List.eraseP_append_left (p := fun e : Fea × ℤ => e.1 = key) ha rest
    (show a ∈ l₁ ++ a :: l₂ by simp)
  refine ⟨l₁ ++ l₂, by rw [happend, herase], fun k => ?_⟩
  obtain rfl := of_decide_eq_true ha
  have hk := h k
  rw [List.filter_append] at hk ⊢
  by_cases hak : a.1 = k
  · subst hak
    have hnil : l₁.filter (fun e => e.1 = a.1) = [] := List.filter_eq_nil_iff.mpr hl₁
    rw [hnil, List.nil_append, List.filter_cons_of_pos (by simp),
      List.filter_cons_of_pos (by simp)] at hk
    rw [hnil, List.nil_append]
    exact (List.cons.inj hk).2
  · rwa [List.filter_cons_of_neg (by simpa using hak), List.filter_cons_of_neg (by simpa using hak)]
      at hk

end WriteLog

namespace KVTree

/-- The tree holds the values of a log. -/
def Holds (kv : KVTree) (log : WriteLog) : Prop :=
  ∃ es, KVInv kv es ∧ toLog es = log.map fun e => (e.1.toKeyWords, e.2)

variable {kv : KVTree} {log base : WriteLog} {key : Fea} {value : ℤ}

theorem last_map (log : WriteLog) (key : Fea) :
    ValueLog.last (log.map fun e => (e.1.toKeyWords, e.2)) key.toKeyWords = log.last key := by
  unfold ValueLog.last WriteLog.last
  rw [List.find?_map, Option.map_map]
  have hpred : ((fun e : KeyWords × ℤ => decide (e.1 = key.toKeyWords)) ∘
      fun e : Fea × ℤ => (e.1.toKeyWords, e.2)) = fun e => decide (e.1 = key) := by
    funext e
    simp [Fea.toKeyWords_injective.eq_iff]
  rw [hpred]
  rfl

theorem Holds.write (h : kv.Holds log) (hlen : log.length < 2 ^ 31) (key : Fea) (value : ℤ) :
    ∃ kv' level, kv.write key.toKeyWords value = some (kv', level) ∧
      kv'.Holds ((key, value) :: log) := by
  obtain ⟨es, hinv, hlog⟩ := h
  have hes : es.length = log.length := by
    have := congrArg List.length hlog
    rwa [toLog, List.length_map, List.length_map] at this
  obtain ⟨kv', level, idx, hwrite, hinv'⟩ := (write_spec hinv key.toKeyWords value).1 (hes ▸ hlen)
  exact ⟨kv', level, hwrite, _, hinv', by simp [toLog, ← hlog]⟩

theorem Holds.extract (h : kv.Holds log) (hlast : log.last key = some value) : ∃ kv',
    kv.extract key.toKeyWords value = some (kv', .success) ∧
      kv'.Holds (log.eraseP fun e => e.1 = key) := by
  obtain ⟨es, hinv, hlog⟩ := h
  have hlast' : (toLog es).last key.toKeyWords = some value := by rw [hlog, last_map, hlast]
  obtain ⟨kv', res, hext, hinv', hres⟩ := extract_spec hinv key.toKeyWords value (by simp [hlast'])
  rw [hres (by simp [hlast'])] at hext
  refine ⟨kv', hext, _, hinv', ?_⟩
  rw [toLog_eraseP, hlog, List.eraseP_map]
  congr 2
  funext e
  simp [Fea.toKeyWords_injective.eq_iff]

theorem Holds.read (h : kv.Holds log) (key : Fea) : ∃ r, kv.read key.toKeyWords = some r ∧
    (kv.tree.Clear (mixKey key.toKeyWords) → r.value = log.last key) := by
  obtain ⟨es, hinv, hlog⟩ := h
  obtain ⟨r, hread, hright⟩ := read_spec hinv key.toKeyWords
  refine ⟨r, hread, fun hclear => ?_⟩
  rw [(hright.mpr hclear).value, hlog, last_map]

/-! ## Extracting the values of sub-states -/

theorem extractAll_spec {written log : WriteLog} (h : kv.Holds (log ++ base))
    (hsame : WriteLog.SameStacks written log) :
    ∃ kv', kv.extractAll written = .ok (true, kv') ∧ kv'.Holds base := by
  induction written generalizing kv log with
  | nil =>
    have hnil : log = [] := by
      refine List.eq_nil_iff_forall_not_mem.mpr fun e he => ?_
      have hmem : e ∈ log.filter fun e' => e'.1 = e.1 := by simp [he]
      rw [← hsame e.1] at hmem
      cases hmem
    rw [hnil] at h
    exact ⟨kv, rfl, h⟩
  | cons e written ih =>
    obtain ⟨key, value⟩ := e
    obtain ⟨kv₁, hext, h₁⟩ := h.extract (hsame.last_eq base)
    obtain ⟨log₁, herase, hsame₁⟩ := hsame.eraseP base
    rw [herase] at h₁
    obtain ⟨kv', hall, h'⟩ := ih h₁ hsame₁
    refine ⟨kv', ?_, h'⟩
    rw [extractAll]
    simp only [hext]
    exact hall

end KVTree

/-! ## Transactions of a batch -/

namespace BatchState64

variable (b : BatchState64) (block tx : ℕ) (p : Persistence)

/-- The transactions of a block. -/
def txsAt : List TxState64 := (b.blockState[block]?.map BlockState64.txState).getD []

theorem getPersistence_eq :
    b.getPersistence block tx p = ((b.txsAt block)[tx]?).map fun t => t.persistence p := by
  unfold getPersistence txsAt
  cases b.blockState[block]? <;> rfl

/-- The state of a transaction, which is new when there is none. -/
def persistenceAt : TxPersistenceState64 := (b.getPersistence block tx p).getD {}

variable {b block tx p} {block' tx' : ℕ} {q : Persistence} {stateRoot : Fea} {old : Bool}

theorem txsAt_modifyBlock (f : BlockState64 → BlockState64) (g : List TxState64 → List TxState64)
    (hf : ∀ bl, (f bl).txState = g bl.txState) :
    (b.modifyBlock block f).txsAt block' =
      if block = block' ∧ block < b.blockState.length then g (b.txsAt block)
      else b.txsAt block' := by
  unfold txsAt modifyBlock
  dsimp only
  rw [List.getElem?_modify]
  by_cases hb : block = block'
  · subst hb
    by_cases hlt : block < b.blockState.length
    · rw [List.getElem?_eq_getElem hlt, if_pos ⟨rfl, hlt⟩]
      simp [hf]
    · rw [List.getElem?_eq_none (Nat.le_of_not_lt hlt), if_neg fun h => hlt h.2]
      rfl
  · rw [if_neg fun h => hb h.1]
    simp [hb]

theorem txsAt_ensureBlock : (b.ensureBlock block).txsAt block' = b.txsAt block' := by
  unfold ensureBlock
  split_ifs with hlen
  · unfold txsAt
    dsimp only
    by_cases hlt : block' < b.blockState.length
    · rw [List.getElem?_append_left hlt]
    · rw [List.getElem?_append_right (Nat.le_of_not_lt hlt), List.getElem?_replicate,
        List.getElem?_eq_none (Nat.le_of_not_lt hlt)]
      split_ifs <;> rfl
  · rfl

@[simp] theorem txsAt_recordRoot :
    (b.recordRoot block stateRoot old p).txsAt block' = b.txsAt block' := by
  unfold recordRoot
  rw [txsAt_modifyBlock (fun bl => bl.recordRoot stateRoot old p) id fun bl => rfl, id_eq, txsAt_ensureBlock, txsAt_ensureBlock]
  split_ifs with h
  · exact congrArg b.txsAt h.1
  · rfl

@[simp] theorem persistenceAt_recordRoot :
    (b.recordRoot block stateRoot old p).persistenceAt block' tx' q =
      b.persistenceAt block' tx' q := by
  unfold persistenceAt
  rw [getPersistence_eq, txsAt_recordRoot, getPersistence_eq]

@[simp] theorem keyValueTree_recordRoot :
    (b.recordRoot block stateRoot old p).keyValueTree = b.keyValueTree := by
  unfold recordRoot modifyBlock ensureBlock
  split_ifs <;> rfl

/-- A block exists once its root is recorded. -/
theorem lt_length_recordRoot : block < (b.recordRoot block stateRoot old p).blockState.length := by
  unfold recordRoot modifyBlock ensureBlock
  dsimp only
  rw [List.length_modify]
  split_ifs with hlen
  · rw [List.length_append, List.length_replicate]
    omega
  · exact Nat.lt_of_not_le hlen

@[simp] theorem keyValueTree_ensureTx : (b.ensureTx block tx).keyValueTree = b.keyValueTree := rfl

theorem txsAt_ensureTx : (b.ensureTx block tx).txsAt block' =
    if block = block' ∧ block < b.blockState.length then
      if (b.txsAt block).length ≤ tx then
        b.txsAt block ++ List.replicate (tx - (b.txsAt block).length + 1) ({} : TxState64)
      else b.txsAt block
    else b.txsAt block' := by
  unfold ensureTx
  refine txsAt_modifyBlock _ (fun l =>
    if l.length ≤ tx then l ++ List.replicate (tx - l.length + 1) ({} : TxState64) else l) fun bl => ?_
  split_ifs <;> rfl

@[simp] theorem persistenceAt_ensureTx :
    (b.ensureTx block tx).persistenceAt block' tx' q = b.persistenceAt block' tx' q := by
  unfold persistenceAt
  rw [getPersistence_eq, getPersistence_eq, txsAt_ensureTx]
  split_ifs with h hlen
  · obtain ⟨rfl, -⟩ := h
    by_cases hlt : tx' < (b.txsAt block).length
    · rw [List.getElem?_append_left hlt]
    · rw [List.getElem?_append_right (Nat.le_of_not_lt hlt), List.getElem?_replicate,
        List.getElem?_eq_none (Nat.le_of_not_lt hlt)]
      split_ifs <;> rfl
  · rw [h.1]
  · rfl

/-- A transaction exists once it is ensured. -/
theorem lt_length_ensureTx (h : block < b.blockState.length) :
    tx < ((b.ensureTx block tx).txsAt block).length := by
  rw [txsAt_ensureTx, if_pos ⟨rfl, h⟩]
  split_ifs with hlen
  · rw [List.length_append, List.length_replicate]
    omega
  · exact Nat.lt_of_not_le hlen

/-! ## Changing a transaction -/

@[simp] theorem keyValueTree_modifyPersistence (f : TxPersistenceState64 → TxPersistenceState64) :
    (b.modifyPersistence block tx p f).keyValueTree = b.keyValueTree := rfl

theorem txsAt_modifyPersistence (f : TxPersistenceState64 → TxPersistenceState64) :
    (b.modifyPersistence block tx p f).txsAt block' =
      if block = block' then (b.txsAt block).modify tx fun t => t.modify p f
      else b.txsAt block' := by
  unfold modifyPersistence
  rw [txsAt_modifyBlock _ (fun l => l.modify tx fun t => t.modify p f) fun bl => rfl]
  by_cases hb : block = block'
  · subst hb
    by_cases hlt : block < b.blockState.length
    · rw [if_pos ⟨rfl, hlt⟩, if_pos rfl]
    · have hnil : b.txsAt block = [] := by
        unfold txsAt
        rw [List.getElem?_eq_none (Nat.le_of_not_lt hlt)]
        rfl
      rw [if_neg fun h => hlt h.2, if_pos rfl, hnil]
      exact (List.modify_nil ..).symm
  · rw [if_neg fun h => hb h.1, if_neg hb]

@[simp] theorem length_txsAt_modifyPersistence (f : TxPersistenceState64 → TxPersistenceState64) :
    ((b.modifyPersistence block tx p f).txsAt block').length = (b.txsAt block').length := by
  rw [txsAt_modifyPersistence]
  split_ifs with h
  · rw [List.length_modify, h]
  · rfl

theorem persistenceAt_modifyPersistence (f : TxPersistenceState64 → TxPersistenceState64) :
    (b.modifyPersistence block tx p f).persistenceAt block' tx' q =
      if block = block' ∧ tx = tx' ∧ p = q ∧ tx < (b.txsAt block).length then
        f (b.persistenceAt block tx p)
      else b.persistenceAt block' tx' q := by
  unfold persistenceAt
  rw [getPersistence_eq, getPersistence_eq, getPersistence_eq, txsAt_modifyPersistence]
  by_cases hb : block = block'
  · subst hb
    rw [if_pos rfl, List.getElem?_modify]
    by_cases ht : tx = tx'
    · subst ht
      by_cases hlt : tx < (b.txsAt block).length
      · rw [List.getElem?_eq_getElem hlt]
        by_cases hp : p = q
        · subst hp
          simp [hlt, TxState64.modify]
        · rw [if_neg fun h => hp h.2.2.1]
          simp [TxState64.modify, Function.update_of_ne (Ne.symm hp)]
      · rw [List.getElem?_eq_none (Nat.le_of_not_lt hlt), if_neg fun h => hlt h.2.2.2]
        rfl
    · rw [if_neg fun h => ht h.2.1]
      simp [ht]
  · rw [if_neg hb, if_neg fun h => hb h.1]

end BatchState64

/-! ## One call, in a batch -/

/-- The current sub-state exists, unless there is none. -/
def TxPersistenceState64.WF (ps : TxPersistenceState64) : Prop :=
  ps.currentSubState < ps.subState.length ∨ ps.subState = [] ∧ ps.currentSubState = 0

namespace TxPersistenceState64

variable {ps ps' : TxPersistenceState64} {stateRoot : Fea}

theorem wf_pushSubState : (ps.pushSubState stateRoot).WF := by
  refine Or.inl ?_
  unfold pushSubState
  rw [List.length_append]
  exact Nat.lt_succ_self _

theorem WF.modifyCurrent (h : ps.WF) (f : TxSubState64 → TxSubState64) : (ps.modifyCurrent f).WF := by
  unfold TxPersistenceState64.modifyCurrent
  rcases h with hlt | ⟨hnil, hcur⟩
  · exact Or.inl (by rwa [List.length_modify])
  · exact Or.inr ⟨by rw [hnil, List.modify_nil], hcur⟩

theorem WF.setNew (h : ps.WF) (hnew : ps.setNew stateRoot = some ps') : ps'.WF := by
  unfold TxPersistenceState64.setNew at hnew
  split at hnew
  · cases hnew
  · split_ifs at hnew
    cases hnew
    exact h.modifyCurrent _

theorem WF.finish (h : ps.WF) (purge : Bool) (stateRoot : Fea) : (ps.finish purge stateRoot).WF := by
  unfold TxPersistenceState64.finish
  split_ifs
  · exact h
  · exact Or.inr ⟨rfl, rfl⟩
  · exact h
  · split
    case h_1 i hi =>
      obtain ⟨hlt, -⟩ := List.findIdx?_eq_some_iff_getElem.mp hi
      cases i with
      | zero => exact Or.inr ⟨rfl, rfl⟩
      | succ i =>
        refine Or.inl ?_
        rw [List.length_take_of_le hlt.le]
        exact Nat.lt_succ_self i
    case h_2 => exact h
  · exact h

theorem lt_of_not_canStart (h : ps.WF) (hcan : ps.canStart = false) :
    ps.currentSubState < ps.subState.length := by
  refine h.resolve_right fun ⟨hnil, hcur⟩ => ?_
  unfold canStart at hcan
  rw [hnil, hcur] at hcan
  exact absurd hcan (by decide)

end TxPersistenceState64

namespace BatchState64

/-- In every transaction the current sub-state exists, unless there is none. -/
def Sound (b : BatchState64) : Prop := ∀ block tx p, (b.persistenceAt block tx p).WF

/-- The values that a call with an old state root extracts from the tree. -/
def extracted (b : BatchState64) (block tx : ℕ) (stateRoot : Fea) (p : Persistence) : WriteLog :=
  let ps := b.persistenceAt block tx p
  if ps.canStart then TxPersistenceState64.writtenAfter stateRoot ps.subState else []

variable {b b' : BatchState64} {block tx : ℕ} {p : Persistence} {stateRoot : Fea} {old : Bool}
  {log base : WriteLog}

theorem Sound.modifyPersistence (h : b.Sound) {f : TxPersistenceState64 → TxPersistenceState64}
    (hf : (f (b.persistenceAt block tx p)).WF) : (b.modifyPersistence block tx p f).Sound := by
  intro block' tx' q
  rw [persistenceAt_modifyPersistence]
  split_ifs
  · exact hf
  · exact h block' tx' q

theorem Sound.recordRoot (h : b.Sound) : (b.recordRoot block stateRoot old p).Sound := by
  intro block' tx' q
  rw [persistenceAt_recordRoot]
  exact h block' tx' q

theorem Sound.ensureTx (h : b.Sound) : (b.ensureTx block tx).Sound := by
  intro block' tx' q
  rw [persistenceAt_ensureTx]
  exact h block' tx' q

/-- A transaction has a current sub-state, so that a value can be written. -/
structure Ready (b : BatchState64) (block tx : ℕ) (p : Persistence) : Prop where
  block_lt : block < b.blockState.length
  tx_lt : tx < (b.txsAt block).length
  current_lt : (b.persistenceAt block tx p).currentSubState <
    (b.persistenceAt block tx p).subState.length

theorem ready_modifyPersistence {f : TxPersistenceState64 → TxPersistenceState64}
    (hblock : block < b.blockState.length) (htx : tx < (b.txsAt block).length)
    (hf : (f (b.persistenceAt block tx p)).currentSubState <
      (f (b.persistenceAt block tx p)).subState.length) :
    (b.modifyPersistence block tx p f).Ready block tx p where
  block_lt := by rwa [modifyPersistence, modifyBlock, List.length_modify]
  tx_lt := by rwa [length_txsAt_modifyPersistence]
  current_lt := by rwa [persistenceAt_modifyPersistence, if_pos ⟨rfl, rfl, rfl, htx⟩]

theorem setOld_spec (hsound : b.Sound) (hblock : block < b.blockState.length)
    (htx : tx < (b.txsAt block).length)
    (hlog : b.keyValueTree.Holds ((b.extracted block tx stateRoot p).reverse ++ base))
    (hstacks : WriteLog.SameStacks (b.extracted block tx stateRoot p)
      (b.extracted block tx stateRoot p).reverse) :
    ∃ zkr b', b.setOld block tx stateRoot p = .ok (zkr, b') ∧ b'.keyValueTree.Holds base ∧
      b'.Sound ∧ b'.Ready block tx p := by
  have hps := hsound block tx p
  unfold extracted at hlog hstacks
  unfold setOld
  rw [show (b.getPersistence block tx p).getD {} = b.persistenceAt block tx p from rfl]
  by_cases hcan : (b.persistenceAt block tx p).canStart = true
  · -- a new sub-state starts at the root
    rw [if_pos hcan] at hlog hstacks
    have hsub : ((b.persistenceAt block tx p).recordOld stateRoot).subState =
        (b.persistenceAt block tx p).subState := by
      unfold TxPersistenceState64.recordOld
      split_ifs <;> rfl
    obtain ⟨kv, hext, hkv⟩ := KVTree.extractAll_spec hlog hstacks
    simp only [hcan, hsub, hext, Bool.not_true, Bool.false_eq_true, if_false]
    have hsound' : ({ b with keyValueTree := kv } : BatchState64).Sound := hsound
    refine ⟨_, _, rfl, hkv, hsound'.modifyPersistence TxPersistenceState64.wf_pushSubState, ?_⟩
    refine ready_modifyPersistence hblock htx ?_
    exact TxPersistenceState64.wf_pushSubState.resolve_right fun h => by
      simp [TxPersistenceState64.pushSubState] at h
  · -- the sub-state that started last is not complete yet
    rw [if_neg hcan] at hlog
    have hcan' : (b.persistenceAt block tx p).canStart = false := by simpa using hcan
    simp only [hcan', Bool.not_false, if_true]
    exact ⟨_, b, rfl, hlog, hsound, hblock, htx, TxPersistenceState64.lt_of_not_canStart hps hcan'⟩

/-- A call with an old state root leaves in the tree the values on the path to it. -/
theorem setStateRoot_old_spec (hsound : b.Sound)
    (hlog : b.keyValueTree.Holds ((b.extracted block tx stateRoot p).reverse ++ base))
    (hstacks : WriteLog.SameStacks (b.extracted block tx stateRoot p)
      (b.extracted block tx stateRoot p).reverse) :
    ∃ zkr b', b.setStateRoot block tx stateRoot true p = .ok (zkr, b') ∧
      b'.keyValueTree.Holds base ∧ b'.Sound ∧ b'.Ready block tx p := by
  have hext : ((b.recordRoot block stateRoot true p).ensureTx block tx).extracted block tx stateRoot p =
      b.extracted block tx stateRoot p := by
    unfold extracted
    rw [persistenceAt_ensureTx, persistenceAt_recordRoot]
  have hlt : block < ((b.recordRoot block stateRoot true p).ensureTx block tx).blockState.length := by
    rw [ensureTx, modifyBlock, List.length_modify]
    exact lt_length_recordRoot
  rw [← hext] at hlog hstacks
  have hlog' : ((b.recordRoot block stateRoot true p).ensureTx block tx).keyValueTree.Holds
      ((((b.recordRoot block stateRoot true p).ensureTx block tx).extracted block tx stateRoot
        p).reverse ++ base) := by
    rwa [keyValueTree_ensureTx, keyValueTree_recordRoot]
  have hspec := setOld_spec hsound.recordRoot.ensureTx hlt (lt_length_ensureTx lt_length_recordRoot)
    hlog' hstacks
  unfold setStateRoot
  simpa using hspec

/-- A call with a new state root leaves the tree as it is. -/
theorem setStateRoot_new_spec (hsound : b.Sound) :
    ∃ zkr b', b.setStateRoot block tx stateRoot false p = .ok (zkr, b') ∧
      b'.keyValueTree = b.keyValueTree ∧ b'.Sound := by
  unfold setStateRoot
  simp only [Bool.false_eq_true, if_false]
  split_ifs
  · exact ⟨_, _, rfl, keyValueTree_recordRoot, hsound.recordRoot⟩
  · split
    case h_1 =>
      exact ⟨_, _, rfl, by rw [keyValueTree_ensureTx, keyValueTree_recordRoot],
        hsound.recordRoot.ensureTx⟩
    case h_2 ps hnew =>
      refine ⟨_, _, rfl, by
        rw [keyValueTree_modifyPersistence, keyValueTree_ensureTx, keyValueTree_recordRoot], ?_⟩
      refine hsound.recordRoot.ensureTx.modifyPersistence ?_
      exact TxPersistenceState64.WF.setNew (hsound.recordRoot.ensureTx block tx p) hnew

theorem persistenceAt_addTx (htx : tx < (b.txsAt block).length) {block' tx' : ℕ} {q : Persistence} :
    (b.addTx block tx p).persistenceAt block' tx' q = b.persistenceAt block' tx' q := by
  have htxs : (b.addTx block tx p).txsAt block' = b.txsAt block' := by
    unfold addTx
    rw [txsAt_modifyBlock _ (fun l => if tx = l.length then
      l ++ [({} : TxState64).modify p fun ps => { ps with oldStateRoot := b.currentStateRoot }] else l)
      fun bl => by split_ifs <;> rfl]
    split_ifs with h hlen
    · exact absurd hlen htx.ne
    · rw [h.1]
    · rfl
  unfold persistenceAt
  rw [getPersistence_eq, getPersistence_eq, htxs]

/-- The current sub-state exists, so that none is created. -/
theorem persistenceAt_addSubState (hready : b.Ready block tx p) {block' tx' : ℕ} {q : Persistence} :
    ((b.addTx block tx p).addSubState block tx p).persistenceAt block' tx' q =
      b.persistenceAt block' tx' q := by
  have hlen : (b.persistenceAt block tx p).subState.length ≠ 0 :=
    (Nat.zero_lt_of_lt hready.current_lt).ne'
  unfold addSubState
  rw [persistenceAt_modifyPersistence, persistenceAt_addTx hready.tx_lt, if_neg hlen]
  split_ifs with h
  · rw [h.1, h.2.1, h.2.2.1]
  · exact persistenceAt_addTx hready.tx_lt

theorem write_spec (hsound : b.Sound) (hready : b.Ready block tx p) (hlog : b.keyValueTree.Holds log)
    (hlen : log.length < 2 ^ 31) (key : Fea) (value : ℤ) :
    ∃ level b', b.write block tx key value p = .ok (.ok level, b') ∧
      b'.keyValueTree.Holds ((key, value) :: log) ∧ b'.Sound := by
  obtain ⟨kv, level, hwrite, hkv⟩ := hlog.write hlen key value
  obtain ⟨bl, hbl⟩ : ∃ bl, b.blockState[block]? = some bl :=
    ⟨_, List.getElem?_eq_getElem hready.block_lt⟩
  have htx : ¬bl.txState.length < tx := by
    have htx := hready.tx_lt
    unfold txsAt at htx
    rw [hbl] at htx
    exact Nat.not_lt_of_lt htx
  obtain ⟨ss, hss⟩ : ∃ ss, (b.persistenceAt block tx p).subState[
      (b.persistenceAt block tx p).currentSubState]? = some ss :=
    ⟨_, List.getElem?_eq_getElem hready.current_lt⟩
  have hps : (((b.addTx block tx p).addSubState block tx p).getPersistence block tx p).getD {} =
      b.persistenceAt block tx p := persistenceAt_addSubState hready
  have htree : ((b.addTx block tx p).addSubState block tx p).keyValueTree = b.keyValueTree := rfl
  have hsound' : ({ (b.addTx block tx p).addSubState block tx p with keyValueTree := kv } :
      BatchState64).Sound := by
    intro block' tx' q
    show (((b.addTx block tx p).addSubState block tx p).persistenceAt block' tx' q).WF
    rw [persistenceAt_addSubState hready]
    exact hsound block' tx' q
  unfold write
  simp only [hbl, htx, if_false, hps, hss, htree, hwrite]
  exact ⟨level, _, rfl, hkv, hsound'.modifyPersistence ((hsound' block tx p).modifyCurrent _)⟩

end BatchState64

end ZkevmProver
