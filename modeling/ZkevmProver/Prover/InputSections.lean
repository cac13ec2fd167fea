import ZkevmProver.Prover.InputFields

/-!
# The maps of an input

Each of the three maps is written as an object and read back item by item.

  1. The L1 info tree.
  2. The database.
  3. The bytecode of the contracts.
-/

namespace ZkevmProver.Input

open SortedFields

/-! ## The L1 info tree -/

/-- An entry that can be loaded, with some content. -/
structure ValidEntry (d : L1Data) : Prop where
  globalExitRoot : Fits 64 d.globalExitRoot
  blockHashL1 : Fits 64 d.blockHashL1
  minTimestamp : d.minTimestamp < 2 ^ 64
  smtProof : ∀ h ∈ d.smtProof, Fits 64 h
  content : d.globalExitRoot ≠ 0 ∨ d.blockHashL1 ≠ 0 ∨ d.minTimestamp ≠ 0 ∨ d.smtProof ≠ []

theorem ascii_l1 : (["globalExitRoot", "blockHash", "timestamp", "smtProof"].map ascii).Nodup := by decide

variable {d : L1Data}

theorem mapM_scalarJson {hs : List ℤ} (h : ∀ x ∈ hs, Fits 64 x) :
    ∃ values, hs.mapM (scalarJson 64) = .ok values ∧ values.mapM loadSmtProof = .ok hs := by
  induction hs with
  | nil => exact ⟨[], rfl, rfl⟩
  | cons x hs ih =>
    obtain ⟨values, hvalues, hload⟩ := ih fun x' hx' => h x' (List.mem_cons_of_mem x hx')
    obtain ⟨s, hs', hnumber, hvalue, -⟩ := scalarJson_eq (by decide) (by decide) (h x List.mem_cons_self)
    refine ⟨.string (48 :: 120 :: s) :: values, ?_, ?_⟩
    · rw [List.mapM_cons, hs', hvalues]
      rfl
    · have hproof : loadSmtProof (.string (48 :: 120 :: s)) = .ok x := by
        show (if (!stringIsHex s) = true then _ else Except.ok (setStr 16 s 0)) = _
        rw [hnumber.stringIsHex, setStr_eq (Nat.le_refl 16) hnumber, hvalue]
        rfl
      rw [List.mapM_cons, hproof, hload]
      rfl

theorem loadL1Scalar_scalarLine {entry : Json} {key : String} {x : ℤ} (hx : Fits 64 x)
    (h : Reads entry (scalarLine key 64 x)) : loadL1Scalar entry key = .ok x := by
  obtain ⟨s, hs, hnumber, hvalue, hlen⟩ := scalarJson_eq (by decide) (by decide) hx
  unfold scalarLine at h
  rw [hs] at h
  unfold loadL1Scalar
  rw [string?_eq h]
  by_cases hzero : x = 0
  · rw [if_neg (by rw [decide_eq_true_iff]; exact not_not.mpr hzero), hzero]
    rfl
  · rw [if_pos (decide_eq_true hzero)]
    show (if (!stringIsHex s) = true then _ else if s.length > 64 then _ else Except.ok (setStr 16 s 0)) = _
    rw [hnumber.stringIsHex, if_neg (by decide), if_neg (by omega), setStr_eq (Nat.le_refl 16) hnumber, hvalue]

theorem loadL1Timestamp_line {entry : Json} {n : ℕ} (hn : n < 2 ^ 64)
    (h : Reads entry (line "timestamp" (n ≠ 0) (.ok (.string (getStr 10 n))))) :
    loadL1Timestamp entry = .ok n := by
  have hnumber := isNumber_getStr 10 (by decide) (by decide) (Int.natCast_nonneg n)
  have hvalue := digitsValue_getStr 10 (by decide) (by decide) (Int.natCast_nonneg n)
  unfold loadL1Timestamp
  rw [string?_eq h]
  by_cases hzero : n = 0
  · rw [if_neg (by rw [decide_eq_true_iff]; exact not_not.mpr hzero), hzero]
    rfl
  · rw [if_pos (decide_eq_true hzero)]
    show (if (!stringIsDec (getStr 10 n)) = true then _ else
      if setStr 10 (getStr 10 n) 0 > ScalarMask64 then _ else Except.ok (getUi (setStr 10 (getStr 10 n) 0))) = _
    have hle : ¬(n : ℤ) > ScalarMask64 := by
      unfold ScalarMask64
      omega
    rw [hnumber.stringIsDec, if_neg (by decide), setStr_eq (by decide) hnumber, hvalue, if_neg hle, getUi_of_lt hn]

theorem forall_l1DataLines {p : JsonLine → Prop} (hger : p (scalarLine "globalExitRoot" 64 d.globalExitRoot))
    (hhash : p (scalarLine "blockHash" 64 d.blockHashL1))
    (htime : p (line "timestamp" (d.minTimestamp ≠ 0) (.ok (.string (getStr 10 d.minTimestamp)))))
    (hproof : p (line "smtProof" (!d.smtProof.isEmpty) (Json.array <$> d.smtProof.mapM (scalarJson 64)))) :
    ∀ l ∈ l1DataLines d, p l := by
  intro l hl
  simp only [l1DataLines, List.mem_cons, List.not_mem_nil, or_false] at hl
  rcases hl with rfl | rfl | rfl | rfl
  · exact hger
  · exact hhash
  · exact htime
  · exact hproof

/-- An entry is written with at least one field, and read back. -/
theorem ValidEntry.writeLines_eq (hd : ValidEntry d) : ∃ fields,
    writeLines Json.keyLt (l1DataLines d) [] = .ok fields ∧ fields ≠ [] ∧ loadL1Data (.object fields) = .ok d := by
  obtain ⟨values, hvalues, hload⟩ := mapM_scalarJson hd.smtProof
  obtain ⟨s, hs, -⟩ := scalarJson_eq (by decide) (by decide) hd.globalExitRoot
  obtain ⟨s', hs', -⟩ := scalarJson_eq (by decide) (by decide) hd.blockHashL1
  have hkeys : ((l1DataLines d).map Line.key).Nodup := ascii_l1
  obtain ⟨fields, hfields, hlookup, -⟩ := SortedFields.writeLines_eq Json.keyLt hkeys (forall_l1DataLines (fun _ => ⟨_, hs⟩) (fun _ => ⟨_, hs'⟩) (fun _ => ⟨_, rfl⟩)
      fun _ => ⟨_, by show Json.array <$> _ = _; rw [hvalues]; rfl⟩) []
  have hreads : ∀ (i : ℕ) (l : JsonLine), (l1DataLines d)[i]? = some l → Reads (.object fields) l := fun i l hl =>
    (hlookup l (List.mem_of_getElem? hl)).trans Option.or_none
  have hger := hreads 0 _ rfl
  have hhash := hreads 1 _ rfl
  have htime := hreads 2 _ rfl
  have hproof := hreads 3 _ rfl
  rw [hvalues] at hproof
  have hproof : (Json.object fields).at? (ascii "smtProof") =
      if (!d.smtProof.isEmpty) = true then some (.array values) else none := hproof
  refine ⟨fields, hfields, ?_, ?_⟩
  · rintro rfl
    have hnone : ∀ (i : ℕ) (l : JsonLine), (l1DataLines d)[i]? = some l → ∀ value, l.value = .ok value →
        l.written = false := by
      intro i l hl value hvalue
      have h : none = if l.written then l.value.toOption else none := hreads i l hl
      rw [hvalue] at h
      cases hwritten : l.written with
      | false => rfl
      | true =>
        rw [hwritten] at h
        cases h
    rcases hd.content with hne | hne | hne | hne
    · exact absurd (decide_eq_true hne) (Bool.eq_false_iff.mp (hnone 0 _ rfl _ hs))
    · exact absurd (decide_eq_true hne) (Bool.eq_false_iff.mp (hnone 1 _ rfl _ hs'))
    · exact absurd (decide_eq_true hne) (Bool.eq_false_iff.mp (hnone 2 _ rfl _ rfl))
    · refine hne (List.isEmpty_iff.mp ?_)
      have h : (!d.smtProof.isEmpty) = false := hnone 3 _ rfl (.array values) (by
        show Json.array <$> _ = _
        rw [hvalues]
        rfl)
      rwa [Bool.not_eq_false'] at h
  · have hsmt : loadSmtProofs (.object fields) = .ok d.smtProof := by
      unfold loadSmtProofs
      rw [hproof]
      cases hempty : d.smtProof with
      | nil => rfl
      | cons x hs =>
        rw [hempty] at hload
        exact hload
    unfold loadL1Data
    rw [loadL1Scalar_scalarLine hd.globalExitRoot hger, loadL1Scalar_scalarLine hd.blockHashL1 hhash,
      loadL1Timestamp_line hd.minTimestamp htime, hsmt]
    rfl

/-- The item of an entry. -/
def l1Item (entry : Σ _ : ℕ, L1Data) : Text × Json :=
  (getStr 10 entry.1, .object ((writeLines Json.keyLt (l1DataLines entry.2) []).toOption.getD []))

/-- The entry of an item. -/
def ofL1Item (item : Text × Json) : ℕ × L1Data :=
  (atoiU64 item.1, (loadL1Data item.2).toOption.getD {})

theorem ofL1Item_fst (item : Text × Json) : (ofL1Item item).1 = atoiU64 item.1 := rfl

theorem saveL1Entry_eq {entry : Σ _ : ℕ, L1Data} (h : ValidEntry entry.2) (fields : List (Text × Json)) :
    saveL1Entry fields entry = .ok (SortedFields.set Json.keyLt (l1Item entry).1 (l1Item entry).2 fields) := by
  obtain ⟨entryFields, hfields, hne, -⟩ := h.writeLines_eq
  unfold saveL1Entry l1Item
  rw [hfields]
  show Except.ok (if entryFields.isEmpty = true then _ else _) = _
  rw [if_neg fun h => hne (List.isEmpty_iff.mp h)]
  rfl

theorem loadL1Entry_eq {entry : Σ _ : ℕ, L1Data} (h : ValidEntry entry.2) (x : Input) :
    loadL1Entry x (l1Item entry) = .ok { x with
      l1InfoTreeData := x.l1InfoTreeData.insert (ofL1Item (l1Item entry)).1 (ofL1Item (l1Item entry)).2 } := by
  obtain ⟨entryFields, hfields, -, hload⟩ := h.writeLines_eq
  have hnumber := isNumber_getStr 10 (by decide) (by decide) (Int.natCast_nonneg entry.1)
  have hflag : getStr 10 entry.1 ≠ ascii "skipVerifyL1InfoRoot" := by
    intro heq
    have h' := hnumber.2 115
    rw [heq] at h'
    exact absurd (h' (by decide)) (by decide)
  have hitem : (l1Item entry).2 = .object entryFields := by
    unfold l1Item
    rw [hfields]
    rfl
  have hkey : (l1Item entry).1 = getStr 10 entry.1 := rfl
  have hentry : ofL1Item (l1Item entry) = (atoiU64 (getStr 10 entry.1), entry.2) := by
    unfold ofL1Item
    rw [hitem, hkey, hload]
    rfl
  rw [hentry]
  unfold loadL1Entry
  rw [hitem, hkey, if_neg hflag, hnumber.stringIsDec, hload]
  rfl

variable {tree : UnorderedMap ℕ L1Data} (htree : ∀ e ∈ tree.entries, ValidEntry e.2)

include htree

theorem l1InfoTreeJson_eq : ∃ fields, l1InfoTreeJson tree = .ok fields ∧ fields.Perm (tree.entries.map l1Item) :=
  ⟨_, foldlM_eq_foldl_set Json.keyLt saveL1Entry (f := l1Item) (fun e he => saveL1Entry_eq (htree e he)) [],
    foldl_set_entries_perm Json.keyLt fun _ _ _ _ heq => getStr_injective (by decide) (by decide) heq⟩

/-- Every entry is read back, at the index that `atoi` gives it. -/
theorem foldlM_loadL1Entry {fields : List (Text × Json)}
    (hfields : ∀ item ∈ fields, ∃ e ∈ tree.entries, item = l1Item e) (x : Input) : fields.foldlM loadL1Entry x =
      .ok { x with l1InfoTreeData := insertAll (fields.map ofL1Item) x.l1InfoTreeData } := by
  induction fields generalizing x with
  | nil => rfl
  | cons item fields ih =>
    obtain ⟨e, he, rfl⟩ := hfields item List.mem_cons_self
    rw [List.foldlM_cons, loadL1Entry_eq (htree e he)]
    exact ih (fun item' hitem' => hfields item' (List.mem_cons_of_mem _ hitem')) _

/-- The index of an entry is kept if it fits in an `int`. -/
theorem ofL1Item_l1Item {e : Σ _ : ℕ, L1Data} (he : e ∈ tree.entries) (hindex : e.1 < 2 ^ 31) :
    ofL1Item (l1Item e) = (e.1, e.2) := by
  obtain ⟨entryFields, hfields, -, hload⟩ := (htree e he).writeLines_eq
  unfold ofL1Item l1Item
  rw [hfields]
  show (atoiU64 (getStr 10 e.1), (loadL1Data (.object entryFields)).toOption.getD {}) = _
  rw [hload, atoiU64_getStr hindex]
  rfl

omit htree

/-! ## The database -/

/-- A key as it is loaded. -/
def IsKey (key : Text) : Prop := key.length = 64 ∧ ¬Has0x key

theorem normalizeTo0xNFormat_eq {key : Text} (h : IsKey key) :
    normalizeTo0xNFormat key 64 = .ok (48 :: 120 :: key) := by
  unfold normalizeTo0xNFormat normalizeToNFormat
  rw [remove0xIfPresent_of_not h.2, prependZeros_eq (Nat.le_refl 64) (Nat.le_of_eq h.1), h.1]
  rfl

/-- A key that has been written is loaded; a second prefix is removed. -/
theorem loadKey_eq {m : Text} (hlen : m.length = 64) :
    ∃ key, loadKey (48 :: 120 :: m) = .ok key ∧ IsKey key ∧ (¬Has0x m → key = m) := by
  have hload : loadKey (48 :: 120 :: m) = normalizeToNFormat m 64 := by
    unfold loadKey
    show (if m.length > 64 then _ else normalizeToNFormat m 64) = _
    rw [if_neg (by omega)]
  rw [hload]
  unfold normalizeToNFormat
  by_cases h : Has0x m
  · obtain ⟨m', rfl⟩ := h
    have hlen' : m'.length = 62 := by
      rw [List.length_cons, List.length_cons] at hlen
      omega
    refine ⟨48 :: 48 :: m', ?_, ⟨?_, ?_⟩, fun h' => absurd ⟨m', rfl⟩ h'⟩
    · show prependZeros m' 64 = _
      rw [prependZeros_eq (Nat.le_refl 64) (by omega), hlen']
      rfl
    · rw [List.length_cons, List.length_cons, hlen']
    · rintro ⟨s, hs⟩
      injection hs with _ hs
      injection hs with hs _
      exact absurd hs (by decide)
  · rw [remove0xIfPresent_of_not h, prependZeros_eq (Nat.le_refl 64) (Nat.le_of_eq hlen), hlen]
    exact ⟨m, rfl, ⟨hlen, h⟩, fun _ => rfl⟩

section Database

variable (fr : FrText)

/-- The text of an element. -/
def feText (fe : Fe) : Text := List.replicate (16 - (fr.toString fe).length) 48 ++ fr.toString fe

def dbItem (entry : Σ _ : Text, List Fe) : Text × Json :=
  (48 :: 120 :: entry.1, .array (entry.2.map fun fe => .string (feText fr fe)))

/-- The key and the elements of an item. -/
def ofDbItem (item : Text × Json) : Text × List Fe :=
  (item.1.drop 2, (item.2.elements.toOption.getD []).map fun value =>
    ((value.toText >>= fun s => fr.fromString (remove0xIfPresent s)).toOption.getD 0))

variable {fr}

theorem fromString_feText (fe : Fe) : fr.fromString (remove0xIfPresent (feText fr fe)) = .ok fe := by
  have hnumber := (fr.isNumber_toString fe).zeros (by decide) (16 - (fr.toString fe).length)
  unfold feText
  rw [remove0xIfPresent_of_not hnumber.not_has0x]
  exact fr.fromString_toString fe _

theorem mapM_prependZeros (elements : List Fe) :
    elements.mapM (fun fe => prependZeros (fr.toString fe) 16) = .ok (elements.map (feText fr)) := by
  induction elements with
  | nil => rfl
  | cons fe elements ih =>
    rw [List.mapM_cons, prependZeros_eq (by decide) (fr.length_toString fe), ih]
    rfl

theorem mapM_fromString (elements : List Fe) :
    (elements.map fun fe => Json.string (feText fr fe)).mapM
      (fun value => do fr.fromString (remove0xIfPresent (← value.toText))) = .ok elements := by
  induction elements with
  | nil => rfl
  | cons fe elements ih =>
    rw [List.map_cons, List.mapM_cons, ih]
    show (fr.fromString (remove0xIfPresent (feText fr fe)) >>= _) = _
    rw [fromString_feText]
    rfl

theorem ofDbItem_dbItem (entry : Σ _ : Text, List Fe) : ofDbItem fr (dbItem fr entry) = (entry.1, entry.2) := by
  unfold ofDbItem dbItem
  refine Prod.ext rfl ?_
  show (entry.2.map fun fe => Json.string (feText fr fe)).map _ = entry.2
  rw [List.map_map]
  refine (List.map_congr_left fun fe _ => ?_).trans (List.map_id _)
  show (fr.fromString (remove0xIfPresent (feText fr fe))).toOption.getD 0 = fe
  rw [fromString_feText]
  rfl

variable {db : UnorderedMap Text (List Fe)} (hdb : ∀ e ∈ db.entries, IsKey e.1 ∧ e.2.length = 12)

include hdb

theorem db2json_eq : ∃ fields, db2json fr db = .ok (.object fields) ∧ fields.Perm (db.entries.map (dbItem fr)) := by
  refine ⟨_, ?_, foldl_set_entries_perm Json.keyLt fun e _ e' _ heq => ?_⟩
  · have hsave := foldlM_eq_foldl_set Json.keyLt (saveDbEntry fr) (f := dbItem fr)
      (l := db.entries) (fun e he fields => ?_) []
    · unfold db2json
      rw [hsave]
      rfl
    · obtain ⟨hkey, hlen⟩ := hdb e he
      unfold saveDbEntry
      rw [normalizeTo0xNFormat_eq hkey, mapM_prependZeros]
      show Except.ok (SortedFields.set Json.keyLt _ (if (e.2.map (feText fr)).isEmpty then _ else _) fields) = _
      rw [if_neg fun h => by
        rw [List.isEmpty_iff, List.map_eq_nil_iff] at h
        rw [h] at hlen
        cases hlen]
      unfold dbItem
      rw [List.map_map]
      rfl
  · injection heq with _ heq
    injection heq with _ heq

theorem foldlM_loadDbEntry {fields : List (Text × Json)} (hfields : fields.Perm (db.entries.map (dbItem fr))) :
    ∃ db', fields.foldlM (loadDbEntry fr) ∅ = .ok db' ∧ ∀ key, db'.lookup key = db.lookup key := by
  refine ⟨_, foldlM_eq_insertAll (g := ofDbItem fr) (fun item hitem map => ?_) ∅,
    lookup_written hfields fun e _ => ofDbItem_dbItem e⟩
  obtain ⟨e, he, rfl⟩ := List.mem_map.mp (hfields.mem_iff.mp hitem)
  obtain ⟨hkey, hlen⟩ := hdb e he
  obtain ⟨key, hload, -, heq⟩ := loadKey_eq hkey.1
  rw [ofDbItem_dbItem]
  unfold loadDbEntry dbItem
  change ((e.2.map fun fe => Json.string (feText fr fe)).mapM
    (fun value => do fr.fromString (remove0xIfPresent (← value.toText))) >>= _ : Except Stop _) = _
  rw [mapM_fromString]
  show (loadKey (48 :: 120 :: e.1) >>= fun key => Except.ok (map.insert key
    (if e.2.length = 8 then e.2 ++ [0, 0, 0, 0] else e.2))) = _
  rw [hload, heq hkey.2, if_neg (by omega)]
  rfl

end Database

/-! ## The bytecode of the contracts -/

def bytecodeItem (entry : Σ _ : Text, List UInt8) : Text × Json :=
  ((normalizeTo0xNFormat entry.1 64).toOption.getD [], .string (48 :: 120 :: ba2string entry.2))

/-- The entry of an item. -/
def ofBytecodeItem (item : Text × Json) : Text × List UInt8 :=
  ((loadKey item.1).toOption.getD [], (item.2.toText >>= string2ba).toOption.getD [])

/-- A key is normalized to one of 64 characters. -/
theorem exists_of_normalizeTo0xNFormat {s key : Text} (h : normalizeTo0xNFormat s 64 = .ok key) :
    ∃ m, key = 48 :: 120 :: m ∧ m.length = 64 := by
  unfold normalizeTo0xNFormat normalizeToNFormat prependZeros at h
  rw [if_neg (by decide)] at h
  split at h
  · cases h
  · next hlen =>
    injection h with h
    refine ⟨_, h.symm, ?_⟩
    rw [List.length_append, List.length_replicate]
    omega

section Bytecode

variable {code : UnorderedMap Text (List UInt8)} {e : Σ _ : Text, List UInt8}

theorem loadBytecode_eq {key : Text} (h : normalizeTo0xNFormat e.1 64 = .ok key)
    (map : UnorderedMap Text (List UInt8)) :
    ∃ key', ofBytecodeItem (bytecodeItem e) = (key', e.2) ∧ IsKey key' ∧ (IsKey e.1 → key' = e.1) ∧
      loadBytecode map (bytecodeItem e) = .ok (map.insert key' e.2) := by
  obtain ⟨m, rfl, hlen⟩ := exists_of_normalizeTo0xNFormat h
  obtain ⟨key', hload, hkey, heq⟩ := loadKey_eq hlen
  have hitem : bytecodeItem e = (48 :: 120 :: m, .string (48 :: 120 :: ba2string e.2)) := by
    unfold bytecodeItem
    rw [h]
    rfl
  refine ⟨key', ?_, hkey, fun he => ?_, ?_⟩
  · rw [hitem]
    unfold ofBytecodeItem
    rw [hload]
    refine Prod.ext rfl ?_
    show (string2ba (48 :: 120 :: ba2string e.2)).toOption.getD [] = e.2
    rw [string2ba_ba2string]
    rfl
  · rw [normalizeTo0xNFormat_eq he] at h
    injection h with h
    injection h with _ h
    injection h with _ h
    rw [h]
    exact heq (h ▸ he.2)
  · rw [hitem]
    unfold loadBytecode
    show (string2ba (48 :: 120 :: ba2string e.2) >>= _) = _
    rw [string2ba_ba2string]
    show (loadKey (48 :: 120 :: m) >>= _) = _
    rw [hload]
    rfl

theorem saveBytecode_eq {key : Text} (h : normalizeTo0xNFormat e.1 64 = .ok key) (fields : List (Text × Json)) :
    saveBytecode fields e = .ok (SortedFields.set Json.keyLt (bytecodeItem e).1 (bytecodeItem e).2 fields) := by
  unfold saveBytecode bytecodeItem
  rw [h]
  rfl

theorem exists_of_saveBytecode {fields fields' : List (Text × Json)} (h : saveBytecode fields e = .ok fields') :
    ∃ key, normalizeTo0xNFormat e.1 64 = .ok key := by
  unfold saveBytecode at h
  cases hkey : normalizeTo0xNFormat e.1 64 with
  | ok key => exact ⟨key, rfl⟩
  | error stop =>
    rw [hkey] at h
    cases h

theorem contractsBytecode2json_eq (h : ∀ e ∈ code.entries, ∃ key, normalizeTo0xNFormat e.1 64 = .ok key) :
    contractsBytecode2json code = .ok (.object ((code.entries.map bytecodeItem).foldl
      (fun fields p => SortedFields.set Json.keyLt p.1 p.2 fields) [])) := by
  have hsave := foldlM_eq_foldl_set Json.keyLt saveBytecode (f := bytecodeItem)
    (l := code.entries) (fun e he fields => by
      obtain ⟨key, hkey⟩ := h e he
      exact saveBytecode_eq hkey fields) []
  unfold contractsBytecode2json
  rw [hsave]
  rfl

theorem exists_of_contractsBytecode2json {value : Json} (h : contractsBytecode2json code = .ok value) :
    ∀ e ∈ code.entries, ∃ key, normalizeTo0xNFormat e.1 64 = .ok key := by
  intro e he
  unfold contractsBytecode2json at h
  cases hsave : code.entries.foldlM saveBytecode [] with
  | error stop =>
    rw [hsave] at h
    cases h
  | ok fields =>
    obtain ⟨s₁, s₂, hstep⟩ := exists_of_foldlM_ok hsave e he
    exact exists_of_saveBytecode hstep

/-- All keys are loaded as keys of 64 characters; if they are so at first then nothing is changed. -/
theorem foldlM_loadBytecode (h : ∀ e ∈ code.entries, ∃ key, normalizeTo0xNFormat e.1 64 = .ok key) :
    ∃ code', ((code.entries.map bytecodeItem).foldl
        (fun fields p => SortedFields.set Json.keyLt p.1 p.2 fields) []).foldlM loadBytecode ∅ = .ok code' ∧
      (∀ key ∈ code', IsKey key) ∧
      ((∀ e ∈ code.entries, IsKey e.1) → ∀ key, code'.lookup key = code.lookup key) := by
  have hitem : ∀ item ∈ (code.entries.map bytecodeItem).foldl
      (fun fields p => SortedFields.set Json.keyLt p.1 p.2 fields) [], ∃ e ∈ code.entries, item = bytecodeItem e := by
    intro item hitem
    obtain ⟨e, he, rfl⟩ := List.mem_map.mp ((mem_foldl_set hitem).resolve_right List.not_mem_nil)
    exact ⟨e, he, rfl⟩
  refine ⟨_, foldlM_eq_insertAll (g := ofBytecodeItem) (fun item hmem map => ?_) ∅, ?_, fun hkeys => ?_⟩
  · obtain ⟨e, he, rfl⟩ := hitem item hmem
    obtain ⟨key, hkey⟩ := h e he
    obtain ⟨key', heq, -, -, hload⟩ := loadBytecode_eq hkey map
    rw [heq, hload]
  · intro key hmem
    rcases mem_keys_insertAll hmem with hmem | hmem
    · rw [List.map_map] at hmem
      obtain ⟨item, hitem', rfl⟩ := List.mem_map.mp hmem
      obtain ⟨e, he, rfl⟩ := hitem item hitem'
      obtain ⟨key, hkey⟩ := h e he
      obtain ⟨key', heq, hkey', -⟩ := loadBytecode_eq hkey ∅
      show IsKey (ofBytecodeItem (bytecodeItem e)).1
      rw [heq]
      exact hkey'
    · exact absurd hmem (AList.notMem_empty key)
  · have hback : ∀ e ∈ code.entries, ofBytecodeItem (bytecodeItem e) = (e.1, e.2) := by
      intro e he
      obtain ⟨key, hkey⟩ := h e he
      obtain ⟨key', heq, -, hsame, -⟩ := loadBytecode_eq hkey ∅
      rw [heq, hsame (hkeys e he)]
    refine lookup_written (foldl_set_entries_perm Json.keyLt fun e he e' he' heq => ?_) hback
    have heq : (normalizeTo0xNFormat e.1 64).toOption.getD [] = (normalizeTo0xNFormat e'.1 64).toOption.getD [] := heq
    rw [normalizeTo0xNFormat_eq (hkeys e he), normalizeTo0xNFormat_eq (hkeys e' he')] at heq
    injection heq with _ heq
    injection heq with _ heq

end Bytecode

end ZkevmProver.Input
