import ZkevmProver.Lib.SortedFields
import ZkevmProver.Utils.Goldilocks
import ZkevmProver.Utils.Text

/-!
# Prover inputs

A prover input is written to and read from JSON.

  1. JSON.
  2. Inputs.
  3. Loading the public inputs.
  4. Loading the L1 info tree.
  5. Loading the rest.
  6. Saving.
-/

namespace ZkevmProver

open SortedFields

/-! ## JSON -/

/-- Values; numbers with a fraction are not told apart from those with a sign. -/
inductive Json
  | null
  | boolean (b : Bool)
  | number_unsigned (n : ℕ)
  | number (z : ℤ)
  | string (s : Text)
  | array (values : List Json)
  | object (fields : List (Text × Json))

namespace Json

/-- The order of keys. -/
def keyLt (a b : Text) : Bool := decide (a < b)

/-- `input[key]`, when `input.contains(key)` -/
def at? (input : Json) (key : Text) : Option Json :=
  match input with
  | object fields => fields.lookup key
  | _ => none

/-- The field is there, and a string. -/
def string? (input : Json) (key : String) : Option Text :=
  match input.at? (ascii key) with
  | some (string s) => some s
  | _ => none

/-- The field is there, and an unsigned number. -/
def unsigned? (input : Json) (key : String) : Option ℕ :=
  match input.at? (ascii key) with
  | some (number_unsigned n) => some n
  | _ => none

/-- The field is there, and a boolean. -/
def boolean? (input : Json) (key : String) : Option Bool :=
  match input.at? (ascii key) with
  | some (boolean b) => some b
  | _ => none

/-- A conversion to `std::string`. -/
def toText : Json → Except Stop Text
  | string s => return s
  | _ => throw .exception

/-- The values `v[i]` for `i < v.size()`. -/
def elements : Json → Except Stop (List Json)
  | array values => return values
  | null => return []
  | object [] => return []
  | _ => throw .exception

/-- The pairs of `it.key()` and `it.value()`, for an object or an array. -/
def items : Json → Except Stop (List (Text × Json))
  | object fields => return fields
  | array (_ :: _) => throw .exception
  | _ => return []

end Json

/-! ## Inputs -/

structure PublicInputs where
  forkID : ℕ := 0
  oldStateRoot : ℤ := 0
  oldAccInputHash : ℤ := 0
  oldBatchNum : ℕ := 0
  chainID : ℕ := 0
  batchL2Data : List UInt8 := []
  globalExitRoot : ℤ := 0
  l1InfoRoot : ℤ := 0
  timestamp : ℕ := 0
  timestampLimit : ℕ := 0
  forcedBlockHashL1 : ℤ := 0
  sequencerAddr : ℤ := 0
  aggregatorAddress : ℤ := 0xf39fd6e51aad88f6f4ce6ab8827279cfffb92266
  witness : List UInt8 := []
  dataStream : List UInt8 := []

structure PublicInputsExtended where
  publicInputs : PublicInputs := {}
  newAccInputHash : ℤ := 0
  newBatchNum : ℕ := 0
  newLocalExitRoot : ℤ := 0
  newStateRoot : ℤ := 0

structure TraceConfig where
  bEnabled : Bool := false
  bDisableStorage : Bool := false
  bDisableStack : Bool := false
  bEnableMemory : Bool := false
  bEnableReturnData : Bool := false
  txHashToGenerateFullTrace : Text := []
  bGenerateStorage : Bool := false
  bGenerateStack : Bool := false
  bGenerateMemory : Bool := false
  bGenerateReturnData : Bool := false

def TraceConfig.calculateFlags (c : TraceConfig) : TraceConfig :=
  { c with
    bGenerateStorage := c.bEnabled && !c.bDisableStorage
    bGenerateStack := c.bEnabled && !c.bDisableStack
    bGenerateMemory := c.bEnabled && c.bEnableMemory
    bGenerateReturnData := c.bEnabled && c.bEnableReturnData }

structure L1Data where
  globalExitRoot : ℤ := 0
  blockHashL1 : ℤ := 0
  minTimestamp : ℕ := 0
  smtProof : List ℤ := []

/-- `std::unordered_map` -/
abbrev UnorderedMap (κ ν : Type) := AList fun _ : κ => ν

structure InputDebug where
  gasLimit : ℕ := 0

structure Input where
  publicInputsExtended : PublicInputsExtended := {}
  from_ : Text := []
  bUpdateMerkleTree : Bool := false
  bNoCounters : Bool := false
  bGetKeys : Bool := false
  bSkipVerifyL1InfoRoot : Bool := false
  bSkipFirstChangeL2Block : Bool := false
  bSkipWriteBlockInfoRoot : Bool := false
  traceConfig : TraceConfig := {}
  l1InfoTreeData : UnorderedMap ℕ L1Data := ∅
  stepsN : ℕ := 0
  debug : InputDebug := {}
  db : UnorderedMap Text (List Fe) := ∅
  contractsBytecode : UnorderedMap Text (List UInt8) := ∅

/-- The conversions of the field: `toString` and `fromString` in base 16.  Zeros in front of a text do not change
what is read. -/
structure FrText where
  toString : Fe → Text
  fromString : Text → Except Stop Fe
  isNumber_toString : ∀ x, IsNumber 16 (toString x)
  length_toString : ∀ x, (toString x).length ≤ 16
  fromString_toString : ∀ x n, fromString (List.replicate n 48 ++ toString x) = pure x

def MAX_BATCH_L2_DATA_SIZE : ℕ := 120000

namespace Input

/-! ## Loading the public inputs -/

section Fields

variable (input : Json) (key : String)

def notFound {α : Type} : Except Stop α :=
  exitProcess ("Input::loadGlobals() " ++ key ++ " key not found in input JSON file")

/-- A scalar that may be there. -/
def loadScalar (x : ℤ) : ℤ :=
  match input.string? key with
  | some s => setStr 16 (remove0xIfPresent s) x
  | none => x

/-- A scalar that must be there. -/
def requireScalar (x : ℤ) : Except Stop ℤ :=
  match input.string? key with
  | some s => return setStr 16 (remove0xIfPresent s) x
  | none => notFound key

/-- A number of `w` bits that may be there. -/
def loadUnsigned (w n : ℕ) : ℕ :=
  match input.unsigned? key with
  | some m => m % 2 ^ w
  | none => n

/-- A number of 64 bits that must be there. -/
def requireUnsigned : Except Stop ℕ :=
  match input.unsigned? key with
  | some m => return m % 2 ^ 64
  | none => notFound key

def loadBoolean (b : Bool) : Bool := (input.boolean? key).getD b

/-- Text with a prefix. -/
def loadText (s : Text) : Text :=
  match input.string? key with
  | some s => add0xIfMissing s
  | none => s

def loadBa (ba : List UInt8) : Except Stop (List UInt8) :=
  match input.string? key with
  | some s => string2ba s
  | none => return ba

end Fields

/-- Some fields are only for some forks. -/
def forForks {α : Type} (forks : Bool) (action : Except Stop α) (otherwise : α) : Except Stop α :=
  if forks then action else return otherwise

def loadTimestampLimit (input : Json) : Except Stop ℕ :=
  let tooBig (s : Text) : Except Stop ℕ :=
    exitProcess ("Input::loadGlobals() timestampLimit key found in input JSON file is too big value=" ++
      messageText s)
  match input.at? (ascii "timestampLimit") with
  | none => notFound "timestampLimit"
  | some (.number_unsigned n) => return n % 2 ^ 64
  | some (.string s) =>
    if stringIsDec s then
      let scalar := setStr 10 s 0
      if scalar > ScalarMask64 then tooBig s else return getUi scalar
    else
      let s := remove0xIfPresent s
      if stringIsHex s then
        let scalar := setStr 16 s 0
        if scalar > ScalarMask64 then tooBig s else return getUi scalar
      else
        exitProcess ("Input::loadGlobals() timestampLimit key found in input JSON file is not decimal nor hexa value=" ++
          messageText s)
  | some _ => exitProcess "Input::loadGlobals() timestampLimit invalid type"

def loadPublicInputs (input : Json) (p : PublicInputs) : Except Stop PublicInputs := do
  let dataStream ← loadBa input "dataStream" p.dataStream
  let forkID := loadUnsigned input "forkID" 64 p.forkID
  let oldStateRoot := loadScalar input "oldStateRoot" p.oldStateRoot
  let oldAccInputHash := loadScalar input "oldAccInputHash" p.oldAccInputHash
  let oldBatchNum := loadUnsigned input "oldNumBatch" 32 p.oldBatchNum
  let chainID ← requireUnsigned input "chainID"
  let batchL2Data ← loadBa input "batchL2Data" p.batchL2Data
  if batchL2Data.length > MAX_BATCH_L2_DATA_SIZE then
    exitProcess ("Input::loadGlobals() found batchL2Data.size()=" ++ toString batchL2Data.length ++
      " > MAX_BATCH_L2_DATA_SIZE=" ++ toString MAX_BATCH_L2_DATA_SIZE)
  let globalExitRoot ← forForks (1 ≤ forkID && forkID ≤ 6) (requireScalar input "globalExitRoot" p.globalExitRoot)
    p.globalExitRoot
  let l1InfoRoot ← forForks (7 ≤ forkID) (requireScalar input "l1InfoRoot" p.l1InfoRoot) p.l1InfoRoot
  let forcedBlockHashL1 ← forForks (7 ≤ forkID)
    (requireScalar input "forcedBlockHashL1" p.forcedBlockHashL1) p.forcedBlockHashL1
  let timestamp ← forForks (1 ≤ forkID && forkID ≤ 6) (requireUnsigned input "timestamp") p.timestamp
  let timestampLimit ← forForks (7 ≤ forkID) (loadTimestampLimit input) p.timestampLimit
  let sequencerAddr ← requireScalar input "sequencerAddr" p.sequencerAddr
  let aggregatorAddress := loadScalar input "aggregatorAddress" p.aggregatorAddress
  return { p with
    dataStream, forkID, oldStateRoot, oldAccInputHash, oldBatchNum, chainID, batchL2Data
    globalExitRoot, l1InfoRoot, forcedBlockHashL1, timestamp, timestampLimit, sequencerAddr, aggregatorAddress }

/-! ## Loading the L1 info tree -/

/-- A root or a hash of an entry. -/
def loadL1Scalar (entry : Json) (key : String) : Except Stop ℤ :=
  match entry.string? key with
  | none => return 0
  | some s => do
    let s := remove0xIfPresent s
    if !stringIsHex s then
      exitProcess ("Input::loadGlobals() l1InfoTree " ++ key ++ " found in input JSON file but not an hex string")
    if s.length > 64 then
      exitProcess ("Input::loadGlobals() l1InfoTree " ++ key ++ " found in input JSON file is too long")
    return setStr 16 s 0

def loadL1Timestamp (entry : Json) : Except Stop ℕ :=
  match entry.string? "timestamp" with
  | none => return 0
  | some s => do
    if !stringIsDec s then
      exitProcess "Input::loadGlobals() l1InfoTree timestamp found in input JSON file but not a decimal string"
    let scalar := setStr 10 s 0
    if scalar > ScalarMask64 then
      exitProcess "Input::loadGlobals() l1InfoTree timestamp found in input JSON file is too big"
    return getUi scalar

def loadSmtProof (value : Json) : Except Stop ℤ := do
  let s := remove0xIfPresent (← value.toText)
  if !stringIsHex s then
    exitProcess "Input::loadGlobals() l1InfoTree smtProof found in input JSON file is not an hexa string"
  return setStr 16 s 0

def loadSmtProofs (entry : Json) : Except Stop (List ℤ) :=
  match entry.at? (ascii "smtProof") with
  | some (.array values) => values.mapM loadSmtProof
  | _ => return []

def loadL1Data (entry : Json) : Except Stop L1Data := do
  let globalExitRoot ← loadL1Scalar entry "globalExitRoot"
  let blockHashL1 ← loadL1Scalar entry "blockHash"
  let minTimestamp ← loadL1Timestamp entry
  let smtProof ← loadSmtProofs entry
  return { globalExitRoot, blockHashL1, minTimestamp, smtProof }

/-- An entry, or the flag among the entries. -/
def loadL1Entry (x : Input) (item : Text × Json) : Except Stop Input :=
  if item.1 = ascii "skipVerifyL1InfoRoot" then
    match item.2 with
    | .boolean b => return { x with bSkipVerifyL1InfoRoot := b }
    | _ => exitProcess
      "Input::loadGlobals() l1InfoTree skipVerifyL1InfoRoot found in input JSON file but with invalid type"
  else if !stringIsDec item.1 then return x
  else do
    let index := atoiU64 item.1
    let l1Data ← loadL1Data item.2
    return { x with l1InfoTreeData := x.l1InfoTreeData.insert index l1Data }

def loadL1InfoTree (input : Json) (x : Input) : Except Stop Input :=
  match input.at? (ascii "l1InfoTree") with
  | some (.object fields) => fields.foldlM loadL1Entry x
  | _ => return x

/-! ## Loading the rest -/

def loadGasLimit (input : Json) (gasLimit : ℕ) : Except Stop ℕ :=
  match input.string? "gasLimit" with
  | none => return gasLimit
  | some s =>
    let scalar := setStr 10 s 0
    if scalar > ScalarMask64 then
      exitProcess ("Input::loadGlobals() gasLimit key value is too high value=" ++ messageText s)
    else return getUi scalar

def loadTraceConfig (input : Json) (c : TraceConfig) : TraceConfig :=
  { c with
    bEnabled := c.bEnabled || (input.boolean? "disableStorage").isSome || (input.boolean? "disableStack").isSome ||
      (input.boolean? "enableMemory").isSome || (input.boolean? "enableReturnData").isSome ||
      (input.string? "txHashToGenerateFullTrace").isSome
    bDisableStorage := loadBoolean input "disableStorage" c.bDisableStorage
    bDisableStack := loadBoolean input "disableStack" c.bDisableStack
    bEnableMemory := loadBoolean input "enableMemory" c.bEnableMemory
    bEnableReturnData := loadBoolean input "enableReturnData" c.bEnableReturnData
    txHashToGenerateFullTrace := loadText input "txHashToGenerateFullTrace" c.txHashToGenerateFullTrace }

def loadGlobals (input : Json) (x : Input) : Except Stop Input := do
  let publicInputs ← loadPublicInputs input x.publicInputsExtended.publicInputs
  let forkID := publicInputs.forkID
  let newStateRoot := loadScalar input "newStateRoot" x.publicInputsExtended.newStateRoot
  let newAccInputHash := loadScalar input "newAccInputHash" x.publicInputsExtended.newAccInputHash
  let newLocalExitRoot := loadScalar input "newLocalExitRoot" x.publicInputsExtended.newLocalExitRoot
  let newBatchNum := loadUnsigned input "newNumBatch" 32 x.publicInputsExtended.newBatchNum
  let gasLimit ← forForks (7 ≤ forkID) (loadGasLimit input x.debug.gasLimit) x.debug.gasLimit
  let x := { x with
    publicInputsExtended := { publicInputs, newStateRoot, newAccInputHash, newLocalExitRoot, newBatchNum }
    from_ := loadText input "from" x.from_
    bUpdateMerkleTree := loadBoolean input "updateMerkleTree" x.bUpdateMerkleTree
    bNoCounters := loadBoolean input "noCounters" x.bNoCounters
    stepsN := if 7 ≤ forkID then loadUnsigned input "stepsN" 64 x.stepsN else x.stepsN
    debug := { gasLimit }
    bGetKeys := loadBoolean input "getKeys" x.bGetKeys
    bSkipVerifyL1InfoRoot := loadBoolean input "skipVerifyL1InfoRoot" x.bSkipVerifyL1InfoRoot
    bSkipFirstChangeL2Block := loadBoolean input "skipFirstChangeL2Block" x.bSkipFirstChangeL2Block
    bSkipWriteBlockInfoRoot := loadBoolean input "skipWriteBlockInfoRoot" x.bSkipWriteBlockInfoRoot }
  let x ← forForks (7 ≤ forkID) (loadL1InfoTree input x) x
  return { x with traceConfig := (loadTraceConfig input x.traceConfig).calculateFlags }

/-- The key of an entry of a map. -/
def loadKey (key : Text) : Except Stop Text := do
  let key := remove0xIfPresent key
  if key.length > 64 then
    exitProcess ("Input::loadDatabase() found too big key size=" ++ toString key.length)
  normalizeToNFormat key 64

def loadDbEntry (fr : FrText) (db : UnorderedMap Text (List Fe)) (item : Text × Json) :
    Except Stop (UnorderedMap Text (List Fe)) := do
  let elements ← item.2.elements
  let dbValue ← elements.mapM fun value => do fr.fromString (remove0xIfPresent (← value.toText))
  let dbValue := if dbValue.length = 8 then dbValue ++ [0, 0, 0, 0] else dbValue
  let key ← loadKey item.1
  return db.insert key dbValue

def loadBytecode (contractsBytecode : UnorderedMap Text (List UInt8)) (item : Text × Json) :
    Except Stop (UnorderedMap Text (List UInt8)) := do
  let dbValue ← string2ba (← item.2.toText)
  let key ← loadKey item.1
  return contractsBytecode.insert key dbValue

/-- The items of a section, which may be missing. -/
def section? (input : Json) (key : String) : Except Stop (List (Text × Json)) :=
  match input.at? (ascii key) with
  | some value => value.items
  | none => return []

def loadDatabase (fr : FrText) (input : Json) (x : Input) : Except Stop Input := do
  let witness ← loadBa input "witness" x.publicInputsExtended.publicInputs.witness
  let db ← (← section? input "db").foldlM (loadDbEntry fr) x.db
  let contractsBytecode ← (← section? input "contractsBytecode").foldlM loadBytecode x.contractsBytecode
  return { x with
    publicInputsExtended := { x.publicInputsExtended with
      publicInputs := { x.publicInputsExtended.publicInputs with witness } }
    db
    contractsBytecode }

def load (fr : FrText) (input : Json) (x : Input) : Except Stop Input := do
  loadDatabase fr input (← loadGlobals input x)

/-! ## Saving -/

/-- A scalar with `n` digits. -/
def scalarJson (n : ℕ) (x : ℤ) : Except Stop Json := do
  return .string (← normalizeTo0xNFormat (getStr 16 x) n)

abbrev JsonLine := Line Stop Text Json

/-- `if (written) input[key] = value` -/
def line (key : String) (written : Bool) (value : Except Stop Json) : JsonLine := ⟨ascii key, written, value⟩

/-- A byte array, which is written unless it is empty. -/
def baLine (key : String) (ba : List UInt8) : JsonLine :=
  line key (!ba.isEmpty) (.ok (.string (add0xIfMissing (ba2string ba))))

/-- A scalar that is written unless it is zero. -/
def scalarLine (key : String) (n : ℕ) (x : ℤ) : JsonLine := line key (x ≠ 0) (scalarJson n x)

/-- A number that is written unless it is zero. -/
def unsignedLine (key : String) (n : ℕ) : JsonLine := line key (n ≠ 0) (.ok (.number_unsigned n))

/-- A flag that is written when it is set. -/
def flagLine (key : String) (b : Bool) : JsonLine := line key b (.ok (.boolean b))

/-- The fields of an entry of the L1 info tree. -/
def l1DataLines (d : L1Data) : List JsonLine := [
  scalarLine "globalExitRoot" 64 d.globalExitRoot,
  scalarLine "blockHash" 64 d.blockHashL1,
  line "timestamp" (d.minTimestamp ≠ 0) (.ok (.string (getStr 10 d.minTimestamp))),
  line "smtProof" (!d.smtProof.isEmpty) (Json.array <$> d.smtProof.mapM (scalarJson 64))]

/-- An entry without any field is not written. -/
def saveL1Entry (fields : List (Text × Json)) (entry : Σ _ : ℕ, L1Data) : Except Stop (List (Text × Json)) := do
  let entryFields ← writeLines Json.keyLt (l1DataLines entry.2) []
  return if entryFields.isEmpty then fields
    else SortedFields.set Json.keyLt (getStr 10 entry.1) (.object entryFields) fields

def l1InfoTreeJson (l1InfoTreeData : UnorderedMap ℕ L1Data) : Except Stop (List (Text × Json)) :=
  l1InfoTreeData.entries.foldlM saveL1Entry []

def globalLines (x : Input) (l1InfoTree : List (Text × Json)) : List JsonLine :=
  let e := x.publicInputsExtended
  let p := e.publicInputs
  let c := x.traceConfig
  [ unsignedLine "forkID" p.forkID,
    scalarLine "oldStateRoot" 64 p.oldStateRoot,
    scalarLine "oldAccInputHash" 64 p.oldAccInputHash,
    unsignedLine "oldNumBatch" p.oldBatchNum,
    line "chainID" true (.ok (.number_unsigned p.chainID)),
    baLine "batchL2Data" p.batchL2Data,
    line "sequencerAddr" true (scalarJson 40 p.sequencerAddr),
    scalarLine "aggregatorAddress" 40 p.aggregatorAddress,
    line "globalExitRoot" (p.forkID ≤ 6) (scalarJson 64 p.globalExitRoot),
    line "timestamp" (p.forkID ≤ 6) (.ok (.number_unsigned p.timestamp)),
    line "l1InfoRoot" (7 ≤ p.forkID) (scalarJson 64 p.l1InfoRoot),
    line "forcedBlockHashL1" (7 ≤ p.forkID) (scalarJson 64 p.forcedBlockHashL1),
    line "timestampLimit" (7 ≤ p.forkID) (.ok (.number_unsigned p.timestampLimit)),
    baLine "witness" p.witness,
    baLine "dataStream" p.dataStream,
    scalarLine "newStateRoot" 64 e.newStateRoot,
    scalarLine "newAccInputHash" 64 e.newAccInputHash,
    scalarLine "newLocalExitRoot" 64 e.newLocalExitRoot,
    unsignedLine "newNumBatch" e.newBatchNum,
    line "from" (!x.from_.isEmpty && x.from_ ≠ ascii "0x") (.ok (.string x.from_)),
    line "updateMerkleTree" true (.ok (.boolean x.bUpdateMerkleTree)),
    flagLine "noCounters" x.bNoCounters,
    flagLine "getKeys" x.bGetKeys,
    flagLine "skipVerifyL1InfoRoot" x.bSkipVerifyL1InfoRoot,
    flagLine "skipFirstChangeL2Block" x.bSkipFirstChangeL2Block,
    flagLine "skipWriteBlockInfoRoot" x.bSkipWriteBlockInfoRoot,
    line "stepsN" (7 ≤ p.forkID && x.stepsN ≠ 0) (.ok (.number_unsigned x.stepsN)),
    line "gasLimit" (7 ≤ p.forkID && x.debug.gasLimit ≠ 0) (.ok (.number_unsigned x.debug.gasLimit)),
    line "l1InfoTree" (7 ≤ p.forkID && !l1InfoTree.isEmpty) (.ok (.object l1InfoTree)),
    line "disableStorage" c.bEnabled (.ok (.boolean c.bDisableStorage)),
    line "disableStack" c.bEnabled (.ok (.boolean c.bDisableStack)),
    line "enableMemory" c.bEnabled (.ok (.boolean c.bEnableMemory)),
    line "enableReturnData" c.bEnabled (.ok (.boolean c.bEnableReturnData)),
    line "txHashToGenerateFullTrace" c.bEnabled (.ok (.string c.txHashToGenerateFullTrace))]

def saveGlobals (x : Input) : Except Stop (List (Text × Json)) := do
  let l1InfoTree ← forForks (7 ≤ x.publicInputsExtended.publicInputs.forkID) (l1InfoTreeJson x.l1InfoTreeData) []
  writeLines Json.keyLt (globalLines x l1InfoTree) []

def saveDbEntry (fr : FrText) (fields : List (Text × Json)) (entry : Σ _ : Text, List Fe) :
    Except Stop (List (Text × Json)) := do
  let key ← normalizeTo0xNFormat entry.1 64
  let value ← entry.2.mapM fun fe => prependZeros (fr.toString fe) 16
  return SortedFields.set Json.keyLt key (if value.isEmpty then .null else .array (value.map .string)) fields

def db2json (fr : FrText) (db : UnorderedMap Text (List Fe)) : Except Stop Json :=
  Json.object <$> db.entries.foldlM (saveDbEntry fr) []

def saveBytecode (fields : List (Text × Json)) (entry : Σ _ : Text, List UInt8) :
    Except Stop (List (Text × Json)) := do
  let key ← normalizeTo0xNFormat entry.1 64
  return SortedFields.set Json.keyLt key (.string (48 :: 120 :: ba2string entry.2)) fields

def contractsBytecode2json (contractsBytecode : UnorderedMap Text (List UInt8)) : Except Stop Json :=
  Json.object <$> contractsBytecode.entries.foldlM saveBytecode []

def save (fr : FrText) (x : Input) : Except Stop Json := do
  let input ← saveGlobals x
  let input := SortedFields.set Json.keyLt (ascii "db") (← db2json fr x.db) input
  return .object (SortedFields.set Json.keyLt (ascii "contractsBytecode")
    (← contractsBytecode2json x.contractsBytecode) input)

end Input

end ZkevmProver
