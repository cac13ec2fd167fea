import ZkevmProver.Prover.InputSections

/-!
# Saving an input and loading it

  1. Inputs that can be saved.
  2. What is saved.
  3. What is loaded.
  4. When nothing is lost.
-/

namespace ZkevmProver.Input

open SortedFields

/-! ## Inputs that can be saved -/

/-- 64 hexadecimal digits in lower case -/
def IsHexKey (key : Text) : Prop := key.length = 64 ∧ ∀ c ∈ key, (48 ≤ c ∧ c ≤ 57) ∨ (97 ≤ c ∧ c ≤ 102)

theorem IsHexKey.isKey {key : Text} (h : IsHexKey key) : IsKey key := by
  refine ⟨h.1, not_has0x fun c hc heq => ?_⟩
  have hrange := h.2 c hc
  rw [heq] at hrange
  exact absurd hrange (by decide)

/-- The fields are in the ranges that `load` accepts. -/
structure Accepted (x : Input) : Prop where
  forkID_pos : 1 ≤ x.publicInputsExtended.publicInputs.forkID
  forkID : x.publicInputsExtended.publicInputs.forkID < 2 ^ 64
  oldStateRoot : Fits 64 x.publicInputsExtended.publicInputs.oldStateRoot
  oldAccInputHash : Fits 64 x.publicInputsExtended.publicInputs.oldAccInputHash
  oldBatchNum : x.publicInputsExtended.publicInputs.oldBatchNum < 2 ^ 32
  chainID : x.publicInputsExtended.publicInputs.chainID < 2 ^ 64
  batchL2Data : x.publicInputsExtended.publicInputs.batchL2Data.length ≤ MAX_BATCH_L2_DATA_SIZE
  globalExitRoot : Fits 64 x.publicInputsExtended.publicInputs.globalExitRoot
  l1InfoRoot : Fits 64 x.publicInputsExtended.publicInputs.l1InfoRoot
  timestamp : x.publicInputsExtended.publicInputs.timestamp < 2 ^ 64
  timestampLimit : x.publicInputsExtended.publicInputs.timestampLimit < 2 ^ 64
  forcedBlockHashL1 : Fits 64 x.publicInputsExtended.publicInputs.forcedBlockHashL1
  sequencerAddr : Fits 40 x.publicInputsExtended.publicInputs.sequencerAddr
  aggregatorAddress : Fits 40 x.publicInputsExtended.publicInputs.aggregatorAddress
  newStateRoot : Fits 64 x.publicInputsExtended.newStateRoot
  newAccInputHash : Fits 64 x.publicInputsExtended.newAccInputHash
  newLocalExitRoot : Fits 64 x.publicInputsExtended.newLocalExitRoot
  newBatchNum : x.publicInputsExtended.newBatchNum < 2 ^ 32
  from_ : IsPrefixed x.from_
  stepsN : x.stepsN < 2 ^ 64
  gasLimit : x.debug.gasLimit < 2 ^ 64
  txHash : IsPrefixed x.traceConfig.txHashToGenerateFullTrace
  l1InfoTreeData : ∀ e ∈ x.l1InfoTreeData.entries, e.1 < 2 ^ 32 ∧ ValidEntry e.2
  db : ∀ e ∈ x.db.entries, IsHexKey e.1 ∧ e.2.length = 12

/-! ## What is saved -/

/-- The keys of the lines. -/
def globalKeys : List Text :=
  ["forkID", "oldStateRoot", "oldAccInputHash", "oldNumBatch", "chainID", "batchL2Data", "sequencerAddr",
    "aggregatorAddress", "globalExitRoot", "timestamp", "l1InfoRoot", "forcedBlockHashL1", "timestampLimit",
    "witness", "dataStream", "newStateRoot", "newAccInputHash", "newLocalExitRoot", "newNumBatch", "from",
    "updateMerkleTree", "noCounters", "getKeys", "skipVerifyL1InfoRoot", "skipFirstChangeL2Block",
    "skipWriteBlockInfoRoot", "stepsN", "gasLimit", "l1InfoTree", "disableStorage", "disableStack",
    "enableMemory", "enableReturnData", "txHashToGenerateFullTrace"].map ascii

theorem nodup_globalKeys : globalKeys.Nodup := by decide

theorem section_not_mem_globalKeys : ascii "db" ∉ globalKeys ∧ ascii "contractsBytecode" ∉ globalKeys := by
  decide

variable {x : Input} {tree : List (Text × Json)}

/-- The value of every line that is written comes to be. -/
theorem Accepted.line_ok (hx : Accepted x) :
    ∀ l ∈ globalLines x tree, l.written = true → ∃ value, l.value = .ok value := by
  have hscalar : ∀ {n : ℕ} {z : ℤ}, 0 < n → n ≤ 64 → Fits n z → ∃ value, scalarJson n z = .ok value :=
    fun hpos hn hz => ⟨_, (scalarJson_eq hpos hn hz).choose_spec.1⟩
  have hscalar64 : ∀ {z : ℤ}, Fits 64 z → ∃ value, scalarJson 64 z = .ok value := hscalar (by decide) (by decide)
  have hscalar40 : ∀ {z : ℤ}, Fits 40 z → ∃ value, scalarJson 40 z = .ok value := hscalar (by decide) (by decide)
  intro l hl _
  simp only [globalLines, List.mem_cons, List.not_mem_nil, or_false] at hl
  rcases hl with rfl | rfl | rfl | rfl | rfl | rfl | rfl | rfl | rfl | rfl | rfl | rfl | rfl | rfl | rfl | rfl |
    rfl | rfl | rfl | rfl | rfl | rfl | rfl | rfl | rfl | rfl | rfl | rfl | rfl | rfl | rfl | rfl | rfl | rfl
  all_goals first
    | exact ⟨_, rfl⟩
    | exact hscalar64 hx.oldStateRoot
    | exact hscalar64 hx.oldAccInputHash
    | exact hscalar40 hx.sequencerAddr
    | exact hscalar40 hx.aggregatorAddress
    | exact hscalar64 hx.globalExitRoot
    | exact hscalar64 hx.l1InfoRoot
    | exact hscalar64 hx.forcedBlockHashL1
    | exact hscalar64 hx.newStateRoot
    | exact hscalar64 hx.newAccInputHash
    | exact hscalar64 hx.newLocalExitRoot

/-- Every key of the bytecode can be normalized. -/
def KeysFit (x : Input) : Prop := ∀ e ∈ x.contractsBytecode.entries, ∃ key, normalizeTo0xNFormat e.1 64 = .ok key

/-- What is written for the bytecode. -/
def bytecodeFields (x : Input) : List (Text × Json) :=
  (x.contractsBytecode.entries.map bytecodeItem).foldl (fun fields p => SortedFields.set Json.keyLt p.1 p.2 fields) []

/-- What is read in a JSON that has been saved. -/
structure Saved (fr : FrText) (x : Input) (input : Json) (tree dbFields : List (Text × Json)) : Prop where
  l1InfoTree : 7 ≤ x.publicInputsExtended.publicInputs.forkID → tree.Perm (x.l1InfoTreeData.entries.map l1Item)
  reads : ∀ l ∈ globalLines x tree, Reads input l
  db : input.at? (ascii "db") = some (.object dbFields)
  dbItems : dbFields.Perm (x.db.entries.map (dbItem fr))
  contractsBytecode : input.at? (ascii "contractsBytecode") = some (.object (bytecodeFields x))

theorem Accepted.save_eq (fr : FrText) (hx : Accepted x) (hcode : KeysFit x) :
    ∃ input tree dbFields, save fr x = .ok input ∧ Saved fr x input tree dbFields := by
  obtain ⟨tree, htree, hperm⟩ := l1InfoTreeJson_eq fun e he => (hx.l1InfoTreeData e he).2
  have hdbJson : ∃ dbFields, db2json fr x.db = .ok (.object dbFields) ∧
      dbFields.Perm (x.db.entries.map (dbItem fr)) :=
    db2json_eq fun e he => ⟨(hx.db e he).1.isKey, (hx.db e he).2⟩
  obtain ⟨dbFields, hdb, hdbFields⟩ := hdbJson
  have hfork : forForks (7 ≤ x.publicInputsExtended.publicInputs.forkID) (l1InfoTreeJson x.l1InfoTreeData) [] =
      .ok (if decide (7 ≤ x.publicInputsExtended.publicInputs.forkID) = true then tree else []) :=
    forForks_eq fun _ => htree
  generalize hsaved : (if decide (7 ≤ x.publicInputsExtended.publicInputs.forkID) = true then tree else []) = tree'
    at hfork
  have hkeys : (globalLines x tree').map Line.key = globalKeys := rfl
  obtain ⟨fields, hfields, hlookup, hnot⟩ :=
    writeLines_eq Json.keyLt (hkeys ▸ nodup_globalKeys) hx.line_ok []
  refine ⟨.object (SortedFields.set Json.keyLt (ascii "contractsBytecode") (.object (bytecodeFields x))
    (SortedFields.set Json.keyLt (ascii "db") (.object dbFields) fields)), tree', dbFields, ?_,
    ⟨fun h7 => ?_, fun l hl => ?_, ?_, hdbFields, ?_⟩⟩
  · unfold save saveGlobals
    rw [hfork]
    show (writeLines Json.keyLt (globalLines x tree') [] >>= _) = _
    rw [hfields, hdb, contractsBytecode2json_eq hcode]
    rfl
  · rw [← hsaved, if_pos (decide_eq_true h7)]
    exact hperm
  · have hmem : l.key ∈ globalKeys := by
      rw [← hkeys]
      exact List.mem_map_of_mem hl
    have hcodeKey : l.key ≠ ascii "contractsBytecode" := fun heq => section_not_mem_globalKeys.2 (heq ▸ hmem)
    have hdbKey : l.key ≠ ascii "db" := fun heq => section_not_mem_globalKeys.1 (heq ▸ hmem)
    unfold Reads
    show (SortedFields.set _ _ _ _).lookup l.key = _
    rw [lookup_set, if_neg hcodeKey, lookup_set, if_neg hdbKey, hlookup l hl]
    exact Option.or_none
  · show (SortedFields.set _ _ _ _).lookup (ascii "db") = _
    rw [lookup_set, if_neg (by decide), lookup_set, if_pos rfl]
  · show (SortedFields.set _ _ _ _).lookup (ascii "contractsBytecode") = _
    rw [lookup_set, if_pos rfl]

variable {fr : FrText}

/-- Nothing is saved when a key of the bytecode is too long. -/
theorem keysFit_of_save {input : Json} (h : save fr x = .ok input) : KeysFit x := by
  unfold save at h
  cases hglobals : saveGlobals x with
  | error stop =>
    rw [hglobals] at h
    cases h
  | ok fields =>
    cases hdb : db2json fr x.db with
    | error stop =>
      rw [hglobals, hdb] at h
      cases h
    | ok dbValue =>
      cases hcode : contractsBytecode2json x.contractsBytecode with
      | error stop =>
        rw [hglobals, hdb, hcode] at h
        cases h
      | ok value => exact exists_of_contractsBytecode2json hcode

/-! ## What is loaded -/

section Loaded

variable {input : Json} {dbFields : List (Text × Json)}

/-- The public inputs as they are loaded, before the witness. -/
def loadedPublicInputs (p : PublicInputs) : PublicInputs :=
  { p with
    aggregatorAddress := if p.aggregatorAddress = 0 then ({} : PublicInputs).aggregatorAddress else p.aggregatorAddress
    globalExitRoot := if p.forkID ≤ 6 then p.globalExitRoot else 0
    timestamp := if p.forkID ≤ 6 then p.timestamp else 0
    l1InfoRoot := if 7 ≤ p.forkID then p.l1InfoRoot else 0
    forcedBlockHashL1 := if 7 ≤ p.forkID then p.forcedBlockHashL1 else 0
    timestampLimit := if 7 ≤ p.forkID then p.timestampLimit else 0
    witness := [] }

theorem Saved.loadPublicInputs_eq (hx : Accepted x) (h : Saved fr x input tree dbFields) :
    loadPublicInputs input {} = .ok (loadedPublicInputs x.publicInputsExtended.publicInputs) := by
  have hreads : ∀ (i : ℕ) (l : JsonLine), (globalLines x tree)[i]? = some l → Reads input l :=
    fun i l hl => h.reads l (List.mem_of_getElem? hl)
  have hold : (decide (1 ≤ x.publicInputsExtended.publicInputs.forkID) &&
      decide (x.publicInputsExtended.publicInputs.forkID ≤ 6)) =
      decide (x.publicInputsExtended.publicInputs.forkID ≤ 6) := by
    rw [decide_eq_true hx.forkID_pos, Bool.true_and]
  have hforkID := loadUnsigned_unsignedLine hx.forkID (hreads 0 _ rfl)
  have hoverflow := Nat.not_lt.mpr hx.batchL2Data
  unfold loadPublicInputs
  dsimp only
  rw [loadBa_baLine (hreads 14 _ rfl), hforkID, hold,
    loadScalar_zero (by decide) (by decide) hx.oldStateRoot (hreads 1 _ rfl),
    loadScalar_zero (by decide) (by decide) hx.oldAccInputHash (hreads 2 _ rfl),
    loadUnsigned_unsignedLine hx.oldBatchNum (hreads 3 _ rfl),
    requireUnsigned_line hx.chainID rfl (hreads 4 _ rfl),
    loadBa_baLine (hreads 5 _ rfl),
    forForks_eq fun h6 => requireScalar_line (by decide) (by decide) hx.globalExitRoot 0 h6 (hreads 8 _ rfl),
    forForks_eq fun h7 => requireScalar_line (by decide) (by decide) hx.l1InfoRoot 0 h7 (hreads 10 _ rfl),
    forForks_eq fun h7 => requireScalar_line (by decide) (by decide) hx.forcedBlockHashL1 0 h7 (hreads 11 _ rfl),
    forForks_eq fun h6 => requireUnsigned_line hx.timestamp h6 (hreads 9 _ rfl),
    forForks_eq fun h7 => loadTimestampLimit_line hx.timestampLimit h7 (hreads 12 _ rfl),
    requireScalar_line (by decide) (by decide) hx.sequencerAddr 0 rfl (hreads 6 _ rfl),
    loadScalar_scalarLine (by decide) (by decide) hx.aggregatorAddress _ (hreads 7 _ rfl)]
  simp only [decide_eq_true_eq]
  show (if x.publicInputsExtended.publicInputs.batchL2Data.length > MAX_BATCH_L2_DATA_SIZE then _ else _) = _
  rw [if_neg hoverflow]
  rfl

/-- The trace configuration as it is loaded. -/
def loadedTraceConfig (c : TraceConfig) : TraceConfig :=
  if c.bEnabled then
    { bEnabled := true
      bDisableStorage := c.bDisableStorage
      bDisableStack := c.bDisableStack
      bEnableMemory := c.bEnableMemory
      bEnableReturnData := c.bEnableReturnData
      txHashToGenerateFullTrace := add0xIfMissing c.txHashToGenerateFullTrace }
  else {}

theorem Saved.loadTraceConfig_eq (h : Saved fr x input tree dbFields) :
    loadTraceConfig input {} = loadedTraceConfig x.traceConfig := by
  have hreads : ∀ (i : ℕ) (l : JsonLine), (globalLines x tree)[i]? = some l → Reads input l :=
    fun i l hl => h.reads l (List.mem_of_getElem? hl)
  unfold loadTraceConfig loadedTraceConfig
  dsimp only
  rw [loadBoolean_line (hreads 29 _ rfl), loadBoolean_line (hreads 30 _ rfl), loadBoolean_line (hreads 31 _ rfl),
    loadBoolean_line (hreads 32 _ rfl), loadText_line (hreads 33 _ rfl), boolean?_eq (hreads 29 _ rfl),
    boolean?_eq (hreads 30 _ rfl), boolean?_eq (hreads 31 _ rfl), boolean?_eq (hreads 32 _ rfl),
    string?_eq (hreads 33 _ rfl)]
  cases x.traceConfig.bEnabled with
  | true => rfl
  | false => rfl

/-- Text is loaded unless it is only a prefix. -/
def loadedFrom (s : Text) : Text := if s = ascii "0x" then [] else s

theorem Saved.loadFrom_eq (hx : Accepted x) (h : Saved fr x input tree dbFields) :
    loadText input "from" [] = loadedFrom x.from_ := by
  rw [loadText_line (h.reads _ (List.mem_of_getElem? (i := 19) rfl))]
  unfold loadedFrom
  by_cases hmarked : x.from_ = ascii "0x"
  · rw [if_pos hmarked, if_neg (by rw [hmarked]; decide)]
  · rw [if_neg hmarked]
    rcases hx.from_ with hempty | h0x
    · rw [hempty]
      rfl
    · obtain ⟨s, hs⟩ := h0x
      rw [if_pos (by rw [decide_eq_true hmarked, hs]; rfl), add0xIfMissing_of_has0x ⟨s, hs⟩]

theorem Saved.loadL1InfoTree_eq (h : Saved fr x input tree dbFields)
    (h7 : 7 ≤ x.publicInputsExtended.publicInputs.forkID) (y : Input) :
    loadL1InfoTree input y = tree.foldlM loadL1Entry y := by
  have hline : input.at? (ascii "l1InfoTree") =
      if (decide (7 ≤ x.publicInputsExtended.publicInputs.forkID) && !tree.isEmpty) = true then some (.object tree)
      else none := h.reads _ (List.mem_of_getElem? (i := 28) rfl)
  unfold loadL1InfoTree
  rw [hline, decide_eq_true h7]
  cases tree with
  | nil => rfl
  | cons item tree => rfl

/-- The input as it is loaded, apart from the witness and the last two maps. -/
def loadedGlobals (x : Input) (tree : List (Text × Json)) : Input :=
  { x with
    publicInputsExtended := { x.publicInputsExtended with
      publicInputs := loadedPublicInputs x.publicInputsExtended.publicInputs }
    from_ := loadedFrom x.from_
    stepsN := if 7 ≤ x.publicInputsExtended.publicInputs.forkID then x.stepsN else 0
    debug := { gasLimit := 0 }
    l1InfoTreeData :=
      if 7 ≤ x.publicInputsExtended.publicInputs.forkID then insertAll (tree.map ofL1Item) ∅ else ∅
    traceConfig := (loadedTraceConfig x.traceConfig).calculateFlags
    db := ∅
    contractsBytecode := ∅ }

theorem Saved.loadGlobals_eq (hx : Accepted x) (h : Saved fr x input tree dbFields) :
    loadGlobals input {} = .ok (loadedGlobals x tree) := by
  have hreads : ∀ (i : ℕ) (l : JsonLine), (globalLines x tree)[i]? = some l → Reads input l :=
    fun i l hl => h.reads l (List.mem_of_getElem? hl)
  have hforkID : (loadedPublicInputs x.publicInputsExtended.publicInputs).forkID =
      x.publicInputsExtended.publicInputs.forkID := rfl
  unfold loadGlobals
  dsimp only
  rw [h.loadPublicInputs_eq hx]
  show (forForks (decide (7 ≤ (loadedPublicInputs x.publicInputsExtended.publicInputs).forkID)) _ _ >>= _) = _
  rw [hforkID, loadScalar_zero (by decide) (by decide) hx.newStateRoot (hreads 15 _ rfl),
    loadScalar_zero (by decide) (by decide) hx.newAccInputHash (hreads 16 _ rfl),
    loadScalar_zero (by decide) (by decide) hx.newLocalExitRoot (hreads 17 _ rfl),
    loadUnsigned_unsignedLine hx.newBatchNum (hreads 18 _ rfl),
    forForks_eq fun _ => loadGasLimit_line (hreads 27 _ rfl), ite_self, h.loadFrom_eq hx,
    loadBoolean_line (hreads 20 _ rfl), loadBoolean_flagLine (hreads 21 _ rfl),
    loadBoolean_flagLine (hreads 22 _ rfl), loadBoolean_flagLine (hreads 23 _ rfl),
    loadBoolean_flagLine (hreads 24 _ rfl), loadBoolean_flagLine (hreads 25 _ rfl),
    loadUnsigned_line hx.stepsN (hreads 26 _ rfl)]
  have hsteps : (if (decide (7 ≤ x.publicInputsExtended.publicInputs.forkID) && decide (x.stepsN ≠ 0)) = true
      then x.stepsN else 0) = if 7 ≤ x.publicInputsExtended.publicInputs.forkID then x.stepsN else 0 := by
    by_cases hzero : x.stepsN = 0
    · rw [hzero, ite_self, ite_self]
    · rw [decide_eq_true hzero, Bool.and_true]
      exact if_congr decide_eq_true_iff rfl rfl
  rw [hsteps]
  by_cases h7 : 7 ≤ x.publicInputsExtended.publicInputs.forkID
  · rw [decide_eq_true h7]
    have hitems : ∀ item ∈ tree, ∃ e ∈ x.l1InfoTreeData.entries, item = l1Item e := by
      intro item hitem
      obtain ⟨e, he, rfl⟩ := List.mem_map.mp ((h.l1InfoTree h7).mem_iff.mp hitem)
      exact ⟨e, he, rfl⟩
    show (loadL1InfoTree input _ >>= _) = _
    rw [h.loadL1InfoTree_eq h7, foldlM_loadL1Entry (fun e he => (hx.l1InfoTreeData e he).2) hitems,
      if_pos h7, loadedGlobals, if_pos h7, if_pos h7]
    show Except.ok _ = _
    dsimp only
    rw [h.loadTraceConfig_eq]
    rfl
  · rw [decide_eq_false h7, if_neg h7, loadedGlobals, if_neg h7, if_neg h7]
    show Except.ok _ = _
    dsimp only
    rw [h.loadTraceConfig_eq]
    rfl

theorem Saved.load_eq (hx : Accepted x) (hcode : KeysFit x) (h : Saved fr x input tree dbFields) :
    ∃ db contractsBytecode, load fr input {} = .ok { loadedGlobals x tree with
        publicInputsExtended := { (loadedGlobals x tree).publicInputsExtended with
          publicInputs := { (loadedGlobals x tree).publicInputsExtended.publicInputs with
            witness := x.publicInputsExtended.publicInputs.witness } }
        db, contractsBytecode } ∧
      (∀ key, db.lookup key = x.db.lookup key) ∧ (∀ key ∈ contractsBytecode, IsKey key) ∧
      ((∀ e ∈ x.contractsBytecode.entries, IsKey e.1) →
        ∀ key, contractsBytecode.lookup key = x.contractsBytecode.lookup key) := by
  obtain ⟨db, hdb, hdbSame⟩ := foldlM_loadDbEntry (fun e he => ⟨(hx.db e he).1.isKey, (hx.db e he).2⟩) h.dbItems
  obtain ⟨code, hload, hkeys, hcodeSame⟩ := foldlM_loadBytecode hcode
  refine ⟨db, code, ?_, hdbSame, hkeys, hcodeSame⟩
  have hdbSection : section? input "db" = .ok dbFields := by
    unfold section?
    rw [h.db]
    rfl
  have hcodeSection : section? input "contractsBytecode" = .ok (bytecodeFields x) := by
    unfold section?
    rw [h.contractsBytecode]
    rfl
  unfold load
  rw [h.loadGlobals_eq hx]
  show loadDatabase fr input (loadedGlobals x tree) = _
  unfold loadDatabase
  rw [hdbSection, hcodeSection]
  show (loadBa input "witness" [] >>= _) = _
  rw [loadBa_baLine (h.reads _ (List.mem_of_getElem? (i := 13) rfl))]
  show (dbFields.foldlM (loadDbEntry fr) ∅ >>= _) = _
  rw [hdb]
  show ((bytecodeFields x).foldlM loadBytecode ∅ >>= _) = _
  unfold bytecodeFields
  rw [hload]
  rfl

end Loaded

/-! ## When nothing is lost -/

/-- The two inputs agree in every field that is saved for the fork. -/
structure Same (x y : Input) : Prop where
  forkID : y.publicInputsExtended.publicInputs.forkID = x.publicInputsExtended.publicInputs.forkID
  oldStateRoot : y.publicInputsExtended.publicInputs.oldStateRoot = x.publicInputsExtended.publicInputs.oldStateRoot
  oldAccInputHash :
    y.publicInputsExtended.publicInputs.oldAccInputHash = x.publicInputsExtended.publicInputs.oldAccInputHash
  oldBatchNum : y.publicInputsExtended.publicInputs.oldBatchNum = x.publicInputsExtended.publicInputs.oldBatchNum
  chainID : y.publicInputsExtended.publicInputs.chainID = x.publicInputsExtended.publicInputs.chainID
  batchL2Data : y.publicInputsExtended.publicInputs.batchL2Data = x.publicInputsExtended.publicInputs.batchL2Data
  globalExitRoot : x.publicInputsExtended.publicInputs.forkID ≤ 6 →
    y.publicInputsExtended.publicInputs.globalExitRoot = x.publicInputsExtended.publicInputs.globalExitRoot
  timestamp : x.publicInputsExtended.publicInputs.forkID ≤ 6 →
    y.publicInputsExtended.publicInputs.timestamp = x.publicInputsExtended.publicInputs.timestamp
  l1InfoRoot : 7 ≤ x.publicInputsExtended.publicInputs.forkID →
    y.publicInputsExtended.publicInputs.l1InfoRoot = x.publicInputsExtended.publicInputs.l1InfoRoot
  forcedBlockHashL1 : 7 ≤ x.publicInputsExtended.publicInputs.forkID →
    y.publicInputsExtended.publicInputs.forcedBlockHashL1 = x.publicInputsExtended.publicInputs.forcedBlockHashL1
  timestampLimit : 7 ≤ x.publicInputsExtended.publicInputs.forkID →
    y.publicInputsExtended.publicInputs.timestampLimit = x.publicInputsExtended.publicInputs.timestampLimit
  sequencerAddr :
    y.publicInputsExtended.publicInputs.sequencerAddr = x.publicInputsExtended.publicInputs.sequencerAddr
  aggregatorAddress :
    y.publicInputsExtended.publicInputs.aggregatorAddress = x.publicInputsExtended.publicInputs.aggregatorAddress
  witness : y.publicInputsExtended.publicInputs.witness = x.publicInputsExtended.publicInputs.witness
  dataStream : y.publicInputsExtended.publicInputs.dataStream = x.publicInputsExtended.publicInputs.dataStream
  newStateRoot : y.publicInputsExtended.newStateRoot = x.publicInputsExtended.newStateRoot
  newAccInputHash : y.publicInputsExtended.newAccInputHash = x.publicInputsExtended.newAccInputHash
  newLocalExitRoot : y.publicInputsExtended.newLocalExitRoot = x.publicInputsExtended.newLocalExitRoot
  newBatchNum : y.publicInputsExtended.newBatchNum = x.publicInputsExtended.newBatchNum
  from_ : y.from_ = x.from_
  bUpdateMerkleTree : y.bUpdateMerkleTree = x.bUpdateMerkleTree
  bNoCounters : y.bNoCounters = x.bNoCounters
  bGetKeys : y.bGetKeys = x.bGetKeys
  bSkipVerifyL1InfoRoot : y.bSkipVerifyL1InfoRoot = x.bSkipVerifyL1InfoRoot
  bSkipFirstChangeL2Block : y.bSkipFirstChangeL2Block = x.bSkipFirstChangeL2Block
  bSkipWriteBlockInfoRoot : y.bSkipWriteBlockInfoRoot = x.bSkipWriteBlockInfoRoot
  stepsN : 7 ≤ x.publicInputsExtended.publicInputs.forkID → y.stepsN = x.stepsN
  gasLimit : 7 ≤ x.publicInputsExtended.publicInputs.forkID → y.debug.gasLimit = x.debug.gasLimit
  l1InfoTreeData : 7 ≤ x.publicInputsExtended.publicInputs.forkID →
    ∀ index, y.l1InfoTreeData.lookup index = x.l1InfoTreeData.lookup index
  bEnabled : y.traceConfig.bEnabled = x.traceConfig.bEnabled
  bDisableStorage : y.traceConfig.bDisableStorage = x.traceConfig.bDisableStorage
  bDisableStack : y.traceConfig.bDisableStack = x.traceConfig.bDisableStack
  bEnableMemory : y.traceConfig.bEnableMemory = x.traceConfig.bEnableMemory
  bEnableReturnData : y.traceConfig.bEnableReturnData = x.traceConfig.bEnableReturnData
  txHash : y.traceConfig.txHashToGenerateFullTrace = x.traceConfig.txHashToGenerateFullTrace
  db : ∀ key, y.db.lookup key = x.db.lookup key
  contractsBytecode : ∀ key, y.contractsBytecode.lookup key = x.contractsBytecode.lookup key

/-- The input can be saved and loaded again. -/
def Lossless (fr : FrText) (x : Input) : Prop :=
  ∃ input y, save fr x = .ok input ∧ load fr input {} = .ok y ∧ Same x y

/-- The trace configuration is enabled for a transaction, or is as it is at first. -/
def TraceKept (c : TraceConfig) : Prop :=
  if c.bEnabled then c.txHashToGenerateFullTrace ≠ []
  else c.bDisableStorage = false ∧ c.bDisableStack = false ∧ c.bEnableMemory = false ∧
    c.bEnableReturnData = false ∧ c.txHashToGenerateFullTrace = []

/-- What gets lost otherwise: the gas limit, which is written as a number and read from a string; indices that do
not fit in an `int`; an aggregator address of zero, where a new input has another one; a text or a trace
configuration that looks like one that is missing; and keys of the bytecode that are not normalized. -/
structure Kept (x : Input) : Prop where
  gasLimit : 7 ≤ x.publicInputsExtended.publicInputs.forkID → x.debug.gasLimit = 0
  l1InfoTreeData : 7 ≤ x.publicInputsExtended.publicInputs.forkID → ∀ e ∈ x.l1InfoTreeData.entries, e.1 < 2 ^ 31
  aggregatorAddress : x.publicInputsExtended.publicInputs.aggregatorAddress ≠ 0
  from_ : x.from_ ≠ ascii "0x"
  traceConfig : TraceKept x.traceConfig
  contractsBytecode : ∀ e ∈ x.contractsBytecode.entries, IsKey e.1

theorem loadedFrom_eq_iff {s : Text} : loadedFrom s = s ↔ s ≠ ascii "0x" := by
  unfold loadedFrom
  split
  · next h =>
    rw [h]
    exact ⟨fun h' => absurd h' (by decide), fun h' => absurd rfl h'⟩
  · next h => exact ⟨fun _ => h, fun _ => rfl⟩

theorem TraceKept.loadedTraceConfig_eq {c : TraceConfig} (h : TraceKept c)
    (hmarked : IsPrefixed c.txHashToGenerateFullTrace) :
    (loadedTraceConfig c).bEnabled = c.bEnabled ∧ (loadedTraceConfig c).bDisableStorage = c.bDisableStorage ∧
    (loadedTraceConfig c).bDisableStack = c.bDisableStack ∧ (loadedTraceConfig c).bEnableMemory = c.bEnableMemory ∧
    (loadedTraceConfig c).bEnableReturnData = c.bEnableReturnData ∧
    (loadedTraceConfig c).txHashToGenerateFullTrace = c.txHashToGenerateFullTrace := by
  unfold TraceKept at h
  unfold loadedTraceConfig
  cases hc : c.bEnabled with
  | true =>
    rw [hc, if_pos rfl] at h
    exact ⟨rfl, rfl, rfl, rfl, rfl, add0xIfMissing_of_has0x (hmarked.resolve_left h)⟩
  | false =>
    rw [hc, if_neg (by decide)] at h
    obtain ⟨h1, h2, h3, h4, h5⟩ := h
    exact ⟨rfl, h1.symm, h2.symm, h3.symm, h4.symm, h5.symm⟩

/-- An empty text is loaded as a prefix. -/
theorem traceKept_of_loadedTraceConfig {c : TraceConfig}
    (hstorage : (loadedTraceConfig c).bDisableStorage = c.bDisableStorage)
    (hstack : (loadedTraceConfig c).bDisableStack = c.bDisableStack)
    (hmemory : (loadedTraceConfig c).bEnableMemory = c.bEnableMemory)
    (hreturn : (loadedTraceConfig c).bEnableReturnData = c.bEnableReturnData)
    (hhash : (loadedTraceConfig c).txHashToGenerateFullTrace = c.txHashToGenerateFullTrace) : TraceKept c := by
  unfold loadedTraceConfig at *
  unfold TraceKept
  cases hc : c.bEnabled with
  | true =>
    rw [hc] at hhash
    rw [if_pos rfl]
    intro hempty
    have hhash : add0xIfMissing c.txHashToGenerateFullTrace = c.txHashToGenerateFullTrace := hhash
    rw [hempty] at hhash
    exact absurd hhash (by decide)
  | false =>
    rw [hc] at hstorage hstack hmemory hreturn hhash
    rw [if_neg (by decide)]
    exact ⟨hstorage.symm, hstack.symm, hmemory.symm, hreturn.symm, hhash.symm⟩

theorem mem_of_lookup {κ ν : Type} [DecidableEq κ] {map map' : UnorderedMap κ ν}
    (h : ∀ key, map'.lookup key = map.lookup key) {e : Σ _ : κ, ν} (he : e ∈ map.entries) : e.1 ∈ map' := by
  have hlookup : e.2 ∈ map.lookup e.1 := AList.mem_lookup_iff.mpr he
  refine AList.lookup_isSome.mp ?_
  rw [h, hlookup]
  rfl

/-- An index of 32 bits that is loaded fits in an `int`. -/
theorem lt_of_mem_insertAll {index : ℕ} (hindex : index < 2 ^ 32)
    (h : index ∈ insertAll (tree.map ofL1Item) ∅) : index < 2 ^ 31 := by
  rcases mem_keys_insertAll h with hmem | hmem
  · rw [List.map_map] at hmem
    obtain ⟨item, -, heq⟩ := List.mem_map.mp hmem
    rw [Function.comp_apply, ofL1Item_fst] at heq
    rcases atoiU64_range item.1 with hlt | hge
    · rw [← heq]
      exact hlt
    · rw [heq] at hge
      exact absurd hindex (Nat.not_lt.mpr hge)
  · exact absurd hmem (AList.notMem_empty index)

theorem Lossless.kept (hx : Accepted x) (h : Lossless fr x) : Kept x := by
  obtain ⟨input, y, hsave, hload, hsame⟩ := h
  have hcode := keysFit_of_save hsave
  obtain ⟨input', tree, dbFields, hsave', hsaved⟩ := hx.save_eq fr hcode
  obtain rfl : input' = input := by
    rw [hsave'] at hsave
    exact Except.ok.inj hsave
  obtain ⟨db, code, hload', -, hkeys, -⟩ := hsaved.load_eq hx hcode
  rw [hload'] at hload
  have hy := Except.ok.inj hload
  subst hy
  refine ⟨fun h7 => (hsame.gasLimit h7).symm, fun h7 e he => ?_, fun hzero => ?_, ?_, ?_, fun e he => ?_⟩
  · have hmem := mem_of_lookup (hsame.l1InfoTreeData h7) he
    unfold loadedGlobals at hmem
    rw [if_pos h7] at hmem
    exact lt_of_mem_insertAll (hx.l1InfoTreeData e he).1 hmem
  · have hagg : (if x.publicInputsExtended.publicInputs.aggregatorAddress = 0 then
        ({} : PublicInputs).aggregatorAddress else x.publicInputsExtended.publicInputs.aggregatorAddress) =
        x.publicInputsExtended.publicInputs.aggregatorAddress := hsame.aggregatorAddress
    rw [if_pos hzero, hzero] at hagg
    exact absurd hagg (by decide)
  · exact loadedFrom_eq_iff.mp hsame.from_
  · exact traceKept_of_loadedTraceConfig hsame.bDisableStorage hsame.bDisableStack hsame.bEnableMemory
      hsame.bEnableReturnData hsame.txHash
  · exact hkeys e.1 (mem_of_lookup hsame.contractsBytecode he)

theorem Kept.lossless (fr : FrText) (hx : Accepted x) (hkept : Kept x) : Lossless fr x := by
  have hcode : KeysFit x := fun e he => ⟨_, normalizeTo0xNFormat_eq (hkept.contractsBytecode e he)⟩
  obtain ⟨input, tree, dbFields, hsave, hsaved⟩ := hx.save_eq fr hcode
  obtain ⟨db, code, hload, hdb, -, hcodeSame⟩ := hsaved.load_eq hx hcode
  obtain ⟨htrace1, htrace2, htrace3, htrace4, htrace5, htrace6⟩ :=
    hkept.traceConfig.loadedTraceConfig_eq hx.txHash
  have hloadedL1 : 7 ≤ x.publicInputsExtended.publicInputs.forkID → ∀ index,
      (loadedGlobals x tree).l1InfoTreeData.lookup index = x.l1InfoTreeData.lookup index := by
    intro h7 index
    unfold loadedGlobals
    rw [if_pos h7]
    exact lookup_written (hsaved.l1InfoTree h7)
      (fun e he => ofL1Item_l1Item (fun e he => (hx.l1InfoTreeData e he).2) he (hkept.l1InfoTreeData h7 e he)) index
  refine ⟨input, _, hsave, hload, ?_⟩
  exact {
    forkID := rfl
    oldStateRoot := rfl
    oldAccInputHash := rfl
    oldBatchNum := rfl
    chainID := rfl
    batchL2Data := rfl
    globalExitRoot := fun h6 => if_pos h6
    timestamp := fun h6 => if_pos h6
    l1InfoRoot := fun h7 => if_pos h7
    forcedBlockHashL1 := fun h7 => if_pos h7
    timestampLimit := fun h7 => if_pos h7
    sequencerAddr := rfl
    aggregatorAddress := if_neg hkept.aggregatorAddress
    witness := rfl
    dataStream := rfl
    newStateRoot := rfl
    newAccInputHash := rfl
    newLocalExitRoot := rfl
    newBatchNum := rfl
    from_ := loadedFrom_eq_iff.mpr hkept.from_
    bUpdateMerkleTree := rfl
    bNoCounters := rfl
    bGetKeys := rfl
    bSkipVerifyL1InfoRoot := rfl
    bSkipFirstChangeL2Block := rfl
    bSkipWriteBlockInfoRoot := rfl
    stepsN := fun h7 => if_pos h7
    gasLimit := fun h7 => (hkept.gasLimit h7).symm
    l1InfoTreeData := hloadedL1
    bEnabled := htrace1
    bDisableStorage := htrace2
    bDisableStack := htrace3
    bEnableMemory := htrace4
    bEnableReturnData := htrace5
    txHash := htrace6
    db := hdb
    contractsBytecode := hcodeSame hkept.contractsBytecode }

/-- Exactly which inputs can be saved and loaded again. -/
theorem lossless_iff (fr : FrText) (hx : Accepted x) : Lossless fr x ↔ Kept x :=
  ⟨fun h => h.kept hx, fun h => h.lossless fr hx⟩

/-- The conversions through numbers. -/
def frText : FrText where
  toString fe := getStr 16 (toU64 fe)
  fromString s :=
    if s ≠ [] ∧ ∀ c ∈ s, digitValue c < 16 then .ok (fromU64 (digitsValue 16 s)) else .error .exception
  isNumber_toString fe := isNumber_getStr 16 (by decide) (by decide) (Int.natCast_nonneg _)
  length_toString fe := length_getStr 16 (by decide) (Int.natCast_nonneg _) (by decide) (by
    have h := toU64_lt fe
    omega)
  fromString_toString fe n := by
    have hnumber := isNumber_getStr 16 (by decide) (by decide) (Int.natCast_nonneg (toU64 fe))
    have hvalue := digitsValue_getStr 16 (by decide) (by decide) (Int.natCast_nonneg (toU64 fe))
    rw [digitsValue_zeros, Int.natCast_inj.mp hvalue, fromU64_toU64]
    exact if_pos (hnumber.zeros (by decide) n)

/-- A batch of fork 9 with an entry in each map. -/
def batchInput (gasLimit : ℕ) : Input where
  publicInputsExtended := {
    publicInputs := { forkID := 9, oldStateRoot := 5, chainID := 1101, batchL2Data := [0x0b, 0, 0, 0, 1] }
    newBatchNum := 2 }
  from_ := ascii "0x12"
  debug := { gasLimit }
  l1InfoTreeData := AList.singleton 3 { blockHashL1 := 7, minTimestamp := 1700000000, smtProof := [0, 9] }
  db := AList.singleton (List.replicate 64 97) [1, 2, 3, 4, 5, 6, 7, 8, 0, 0, 0, 0]
  contractsBytecode := AList.singleton (List.replicate 64 98) [0x60, 0]

theorem accepted_batchInput : Accepted (batchInput 0) where
  forkID_pos := by decide
  forkID := by decide
  oldStateRoot := ⟨by decide, by decide⟩
  oldAccInputHash := ⟨by decide, by decide⟩
  oldBatchNum := by decide
  chainID := by decide
  batchL2Data := by decide
  globalExitRoot := ⟨by decide, by decide⟩
  l1InfoRoot := ⟨by decide, by decide⟩
  timestamp := by decide
  timestampLimit := by decide
  forcedBlockHashL1 := ⟨by decide, by decide⟩
  sequencerAddr := ⟨by decide, by decide⟩
  aggregatorAddress := ⟨by decide, by decide⟩
  newStateRoot := ⟨by decide, by decide⟩
  newAccInputHash := ⟨by decide, by decide⟩
  newLocalExitRoot := ⟨by decide, by decide⟩
  newBatchNum := by decide
  from_ := .inr ⟨[49, 50], rfl⟩
  stepsN := by decide
  gasLimit := by decide
  txHash := .inl rfl
  l1InfoTreeData e he := by
    rw [List.mem_singleton.mp he]
    refine ⟨by decide, ⟨⟨by decide, by decide⟩, ⟨by decide, by decide⟩, by decide, fun x hx => ?_,
      .inr (.inl (by decide))⟩⟩
    rcases List.mem_cons.mp hx with rfl | hx
    · exact ⟨by decide, by decide⟩
    · rw [List.mem_singleton.mp hx]
      exact ⟨by decide, by decide⟩
  db e he := by
    rw [List.mem_singleton.mp he]
    refine ⟨⟨List.length_replicate, fun c hc => ?_⟩, by decide⟩
    rw [List.eq_of_mem_replicate hc]
    decide

theorem kept_batchInput : Kept (batchInput 0) where
  gasLimit _ := rfl
  l1InfoTreeData _ e he := by
    rw [List.mem_singleton.mp he]
    decide
  aggregatorAddress := by decide
  from_ := by decide
  traceConfig := ⟨rfl, rfl, rfl, rfl, rfl⟩
  contractsBytecode e he := by
    rw [List.mem_singleton.mp he]
    exact ⟨by decide, by decide⟩

theorem lossless_batchInput : Lossless frText (batchInput 0) :=
  (lossless_iff frText accepted_batchInput).mpr kept_batchInput

/-- The gas limit is lost. -/
theorem not_lossless_batchInput : Accepted (batchInput 30000000) ∧ ¬Lossless frText (batchInput 30000000) := by
  have haccepted : Accepted (batchInput 30000000) := { accepted_batchInput with gasLimit := by decide }
  exact ⟨haccepted, fun h => absurd ((h.kept haccepted).gasLimit (by decide)) (by decide)⟩

end ZkevmProver.Input
