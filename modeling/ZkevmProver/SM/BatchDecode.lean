import ZkevmProver.SM.RlpDecode

/-!
# `batch_decode.cpp` of fork 8

The transactions of a batch, each a list of nine strings and the signature after it.

1. The decoder
2. Transactions and their bytes
3. Short transactions
4. How far a run gets
5. Which batches are decoded
-/

namespace ZkevmProver

open BigEndian Rlp Fallible

namespace fork_8

/-! ## The decoder -/

structure TXData where
  rlpData : List UInt8
  nonce : ℕ
  gasPrice : ℕ
  gasLimit : ℕ
  toAddress : ℕ
  value : ℕ
  data : List UInt8
  chainId : ℕ
  r : ℕ
  s : ℕ
  v : UInt8
  gasPercentage : UInt8
  deriving DecidableEq

/-- The data of an element that has to be a string. -/
def stringData (rlpData : RLPData) : Decoding (List UInt8) :=
  if rlpData.type ≠ .string then throw .unspecified else pure rlpData.data

/-- An element that has to be an empty string. -/
def emptyString (rlpData : RLPData) : Decoding Unit := do
  let data ← stringData rlpData
  if data.length ≠ 0 then throw .unspecified else pure ()

/-- `"0x"` -/
def hexMark : List UInt8 := [0x30, 0x78]

/-- The transaction of a decoded list, whose signature begins at `p`. -/
def decodeTransaction (input : List UInt8) (p : ℕ) (rlpData : List RLPData) : Decoding TXData :=
  match rlpData with
  | [list] =>
    if list.type ≠ .list then throw .unspecified
    else
      match list.rlpData with
      | [nonce, gasPrice, gasLimit, toAddress, value, data, chainId, empty1, empty2] => do
        let nonce ← stringData nonce >>= RLPStringToU64
        let gasPrice ← stringData gasPrice >>= RLPStringToU256
        let gasLimit ← stringData gasLimit >>= RLPStringToU64
        let toAddress ← stringData toAddress >>= RLPStringToU160
        let value ← stringData value >>= RLPStringToU256
        let data ← stringData data
        let chainId ← stringData chainId >>= RLPStringToU64
        emptyString empty1
        emptyString empty2
        let r ← substr input p 32
        let s ← substr input (add64 p 32) 32
        pure
          { rlpData := list.dataWithLength, nonce, gasPrice, gasLimit, toAddress, value,
            data := hexMark ++ data, chainId, r := setStr16 (ba2string r), s := setStr16 (ba2string s),
            v := charAt input (add64 p 64), gasPercentage := charAt input (add64 p 65) }
      | _ => throw .unspecified
  | _ => throw .unspecified

/-- The loop: the bytes consumed and the transactions.  It has not ended after as many rounds as the
second number says where it gives `none`. -/
def decodeTransactions (depth : ℕ) (input : List UInt8) :
    ℕ → ℕ → List TXData → Decoding (ℕ × List TXData)
  | 0, _, _ => ExceptT.mk none
  | rounds + 1, totalConsumedBytes, tx =>
    if totalConsumedBytes < input.length then do
      let tail ← substrFrom input totalConsumedBytes
      let (rlpData, consumedBytes) ← RLPDecode depth tail .list [] 0
      let totalConsumedBytes := add64 totalConsumedBytes consumedBytes
      if input.length < add64 totalConsumedBytes 66 then throw .unspecified
      else
        let txData ← decodeTransaction input totalConsumedBytes rlpData
        decodeTransactions depth input rounds (add64 totalConsumedBytes 66) (tx ++ [txData])
    else pure (totalConsumedBytes, tx)

def BatchDecode (fuel : ℕ) (input : List UInt8) : Decoding (ℕ × List TXData) :=
  decodeTransactions fuel input fuel 0 []

/-! ## Transactions and their bytes -/

/-- A transaction; the receiver is empty where a contract is created. -/
structure Transaction where
  nonce : UInt64
  gasPrice : ℕ
  gasLimit : UInt64
  toAddress : List UInt8
  value : ℕ
  data : List UInt8
  chainId : UInt64
  r : ℕ
  s : ℕ
  v : UInt8
  gasPercentage : UInt8
  gasPrice_lt : gasPrice < 256 ^ 32
  length_toAddress : toAddress.length ≤ 20
  value_lt : value < 256 ^ 32
  r_lt : r < 256 ^ 32
  s_lt : s < 256 ^ 32

namespace Transaction

/-- The strings of the list. -/
def strings (t : Transaction) : List Item :=
  [.bytes (shortest t.nonce.toNat), .bytes (shortest t.gasPrice), .bytes (shortest t.gasLimit.toNat),
    .bytes t.toAddress, .bytes (shortest t.value), .bytes t.data, .bytes (shortest t.chainId.toNat), .bytes [],
    .bytes []]

def rlp (t : Transaction) : List UInt8 := (Item.list t.strings).encode

/-- The bytes after the list. -/
def trailer (t : Transaction) : List UInt8 :=
  bytes 32 t.r ++ (bytes 32 t.s ++ [t.v, t.gasPercentage])

def encode (t : Transaction) : List UInt8 := t.rlp ++ t.trailer

/-- The transaction as the decoder represents it; it marks the data by `0x`. -/
def txData (t : Transaction) : TXData where
  rlpData := t.rlp
  nonce := t.nonce.toNat
  gasPrice := t.gasPrice
  gasLimit := t.gasLimit.toNat
  toAddress := BigEndian.value t.toAddress
  value := t.value
  data := hexMark ++ t.data
  chainId := t.chainId.toNat
  r := t.r
  s := t.s
  v := t.v
  gasPercentage := t.gasPercentage

/-- The length of its list does not need bytes of its own. -/
def Short (t : Transaction) : Prop := (encodeAll t.strings).length ≤ 55

instance (t : Transaction) : Decidable t.Short := inferInstanceAs (Decidable (_ ≤ _))

@[simp] theorem length_trailer (t : Transaction) : t.trailer.length = 66 := by
  simp [trailer]

theorem length_rlp (t : Transaction) :
    t.rlp.length = (header 0xc0 (encodeAll t.strings).length).length + (encodeAll t.strings).length :=
  Item.length_encode _

theorem length_encode (t : Transaction) : t.encode.length = t.rlp.length + 66 := by
  rw [encode, List.length_append, length_trailer]

theorem length_shortest_u64 (n : UInt64) : (shortest n.toNat).length ≤ 8 := by
  rw [length_shortest]
  exact width_le.mpr n.toNat_lt

theorem length_shortest_u256 {n : ℕ} (h : n < 256 ^ 32) : (shortest n).length ≤ 32 := by
  rw [length_shortest]
  exact width_le.mpr h

/-- The decoded list and the trailer at `p` give the transaction. -/
theorem decodeTransaction_eq (t : Transaction) (before rest : List UInt8)
    (hlen : before.length + 66 < 2 ^ 64) :
    decodeTransaction (before ++ (t.trailer ++ rest)) before.length [itemData (.list t.strings)] =
      pure t.txData := by
  have hread (before content rest : List UInt8) :
      substr (before ++ (content ++ rest)) before.length content.length = pure content := by
    rw [substr_eq (by simp), List.drop_left, List.take_left]
  have hr : substr (before ++ (t.trailer ++ rest)) before.length 32 = pure (bytes 32 t.r) := by
    have h := hread before (bytes 32 t.r) (bytes 32 t.s ++ (t.v :: t.gasPercentage :: rest))
    simpa [trailer] using h
  have hs : substr (before ++ (t.trailer ++ rest)) (add64 before.length 32) 32 =
      pure (bytes 32 t.s) := by
    have h := hread (before ++ bytes 32 t.r) (bytes 32 t.s) (t.v :: t.gasPercentage :: rest)
    rw [add64_of_lt (by omega)]
    simpa [trailer] using h
  have hv : charAt (before ++ (t.trailer ++ rest)) (add64 before.length 64) = t.v := by
    have h := charAt_append (before ++ bytes 32 t.r ++ bytes 32 t.s) (t.gasPercentage :: rest) t.v
    rw [add64_of_lt (by omega)]
    simpa [trailer] using h
  have hpercentage : charAt (before ++ (t.trailer ++ rest)) (add64 before.length 65) =
      t.gasPercentage := by
    have h := charAt_append (before ++ bytes 32 t.r ++ bytes 32 t.s ++ [t.v]) rest t.gasPercentage
    rw [add64_of_lt (by omega)]
    simpa [trailer] using h
  have hu64 (n : UInt64) : RLPStringToU64 (shortest n.toNat) = pure n.toNat := by
    rw [RLPStringToU64_eq (length_shortest_u64 n), value_shortest]
  have hu256 {n : ℕ} (h : n < 256 ^ 32) : RLPStringToU256 (shortest n) = pure n := by
    rw [RLPStringToU256, RLPStringToMpz_eq (length_shortest_u256 h), value_shortest]
  have hstring (content : List UInt8) : stringData (itemData (.bytes content)) = pure content := by
    rw [itemData, stringData, if_neg (not_not.mpr rfl)]
  have hempty : emptyString (itemData (.bytes [])) = pure () := by
    rw [emptyString, hstring, pure_bind, if_neg (by simp)]
  have hto : RLPStringToU160 t.toAddress = pure (BigEndian.value t.toAddress) := RLPStringToMpz_eq t.length_toAddress
  rw [decodeTransaction, itemData, if_neg (not_not.mpr rfl), strings]
  simp only [itemsData, hstring, hempty, pure_bind, hu64, hu256 t.gasPrice_lt, hu256 t.value_lt, hto, hr,
    hs, hv, hpercentage]
  rw [setStr16_ba2string, setStr16_ba2string, value_bytes_of_lt t.r_lt, value_bytes_of_lt t.s_lt]
  rfl

end Transaction

/-! ## Short transactions -/

section Runs

variable {depth rounds total : ℕ} {input : List UInt8} {tx : List TXData}

/-- A round over a short transaction. -/
theorem decodeTransactions_short (t : Transaction) (before rest : List UInt8) (tx : List TXData)
    (hshort : t.Short) (hlen : (before ++ (t.encode ++ rest)).length < 2 ^ 63)
    (hdepth : t.rlp.length < depth) :
    decodeTransactions depth (before ++ (t.encode ++ rest)) (rounds + 1) before.length tx =
      decodeTransactions depth (before ++ (t.encode ++ rest)) rounds (before ++ t.encode).length
        (tx ++ [t.txData]) := by
  have hrlp := t.length_rlp
  rw [length_header, if_pos (show _ ≤ 55 from hshort)] at hrlp
  have hsize := hlen
  rw [List.length_append, List.length_append, t.length_encode] at hsize
  have htail : substrFrom (before ++ (t.encode ++ rest)) before.length = pure (t.encode ++ rest) := by
    rw [substrFrom, if_neg (by simp), List.drop_left]
  have hinput : before ++ (t.encode ++ rest) = (before ++ t.rlp) ++ (t.trailer ++ rest) := by
    rw [Transaction.encode, List.append_assoc, List.append_assoc]
  have hlist : RLPDecode depth (t.encode ++ rest) .list [] 0 =
      pure ([itemData (.list t.strings)], (encodeAll t.strings).length + 1) := by
    obtain ⟨depth, rfl⟩ : ∃ d, depth = d + 1 := ⟨depth - 1, by omega⟩
    have hinner (items : List Item) (hitems : Item.list t.strings = .list items) :
        ∃ c, RLPDecode depth (encodeAll items) .unknown [] 0 = pure (itemsData items, c) := by
      obtain rfl := Item.list.inj hitems
      exact RLPDecode_items depth t.strings [] 0 (by omega) (by omega)
    have hwhole : ((Item.list t.strings).encode ++ (t.trailer ++ rest)).length < 2 ^ 63 := by
      change (t.rlp ++ (t.trailer ++ rest)).length < _
      rw [List.length_append, List.length_append, t.length_trailer]
      omega
    have hadmits : Admits .list (.list t.strings) := Or.inr rfl
    rw [Transaction.encode, List.append_assoc, Transaction.rlp, RLPDecode_item [] 0 hwhole hadmits hinner,
      if_pos (by decide), List.nil_append, Item.content, add64_of_lt (by omega)]
  have hp : add64 before.length ((encodeAll t.strings).length + 1) = (before ++ t.rlp).length := by
    rw [add64_of_lt (by omega), List.length_append]
    omega
  have hnext : add64 (before ++ t.rlp).length 66 = (before ++ t.encode).length := by
    rw [List.length_append, add64_of_lt (by omega), List.length_append, t.length_encode]
    omega
  rw [decodeTransactions, if_pos (by simp [t.length_encode]), htail, pure_bind, hlist, pure_bind]
  dsimp only
  rw [hp, hnext, if_neg (by simp)]
  have htx := t.decodeTransaction_eq (before ++ t.rlp) rest (by rw [List.length_append]; omega)
  rw [← hinput] at htx
  rw [htx, pure_bind]

/-- The rounds over short transactions. -/
theorem decodeTransactions_all_short (txs : List Transaction) (before : List UInt8) (tx : List TXData)
    (hshort : ∀ t ∈ txs, t.Short) (hrounds : txs.length < rounds)
    (hlen : (before ++ txs.flatMap Transaction.encode).length < 2 ^ 63)
    (hdepth : (before ++ txs.flatMap Transaction.encode).length < depth) :
    decodeTransactions depth (before ++ txs.flatMap Transaction.encode) rounds before.length tx =
      pure ((before ++ txs.flatMap Transaction.encode).length, tx ++ txs.map Transaction.txData) := by
  induction txs generalizing before tx rounds with
  | nil =>
    obtain ⟨rounds, rfl⟩ := Nat.exists_eq_add_of_lt hrounds
    rw [List.flatMap_nil, List.append_nil, List.map_nil, List.append_nil, decodeTransactions,
      if_neg (Nat.lt_irrefl _)]
  | cons t txs ih =>
    obtain ⟨rounds, rfl⟩ : ∃ r, rounds = r + 1 := ⟨rounds - 1, by omega⟩
    have hassoc : before ++ (t :: txs).flatMap Transaction.encode =
        (before ++ t.encode) ++ txs.flatMap Transaction.encode := by
      rw [List.flatMap_cons, List.append_assoc]
    have hdepth' : t.rlp.length < depth := by
      have hencode := t.length_encode
      rw [List.flatMap_cons, List.length_append, List.length_append] at hdepth
      omega
    rw [List.flatMap_cons, decodeTransactions_short t before (txs.flatMap Transaction.encode) tx
      (hshort t List.mem_cons_self) hlen hdepth', ← List.flatMap_cons, hassoc]
    rw [hassoc] at hlen hdepth
    rw [ih (before ++ t.encode) (tx ++ [t.txData]) (fun t ht => hshort t (List.mem_cons_of_mem _ ht))
      (by simpa using hrounds) hlen hdepth, List.map_cons, List.append_assoc tx, List.singleton_append]

/-! ## How far a run gets -/

theorem rlpData_of_decodeTransaction {p : ℕ} {list : RLPData} {txData : TXData}
    (h : decodeTransaction input p [list] = pure txData) :
    txData.rlpData = list.dataWithLength ∧ p ≤ input.length := by
  unfold decodeTransaction at h
  dsimp only at h
  split_ifs at h
  · exact absurd h (throw_ne_pure _)
  split at h
  · obtain ⟨nonce, -, h⟩ := bind_eq_pure h
    obtain ⟨gasPrice, -, h⟩ := bind_eq_pure h
    obtain ⟨gasLimit, -, h⟩ := bind_eq_pure h
    obtain ⟨toAddress, -, h⟩ := bind_eq_pure h
    obtain ⟨value, -, h⟩ := bind_eq_pure h
    obtain ⟨data, -, h⟩ := bind_eq_pure h
    obtain ⟨chainId, -, h⟩ := bind_eq_pure h
    obtain ⟨-, -, h⟩ := bind_eq_pure h
    obtain ⟨-, -, h⟩ := bind_eq_pure h
    obtain ⟨r, hr, h⟩ := bind_eq_pure h
    obtain ⟨s, -, h⟩ := bind_eq_pure h
    refine ⟨by rw [← pure_injective h], ?_⟩
    by_contra hbeyond
    rw [substr, substrFrom, if_pos (Nat.not_le.mp hbeyond), throw_bind] at hr
    exact throw_ne_pure _ hr
  · exact absurd h (throw_ne_pure _)

/-- A round gets at most over the list that it returns and the signature. -/
theorem decodeTransactions_succ_eq_pure {result : ℕ × List TXData} (hlen : input.length < 2 ^ 63)
    (hmore : total < input.length)
    (h : decodeTransactions depth input (rounds + 1) total tx = pure result) :
    ∃ dataLength offset txData next,
      RLPDecodeLength (input.drop total) = pure (offset, dataLength, .list) ∧
      next = add64 (add64 total (add64 dataLength 1)) 66 ∧ next ≤ total + txData.rlpData.length + 66 ∧
      decodeTransactions depth input rounds next (tx ++ [txData]) = pure result := by
  rw [decodeTransactions, if_pos hmore, substrFrom, if_neg (by omega), pure_bind] at h
  obtain ⟨⟨output, consumedBytes⟩, hlist, h⟩ := bind_eq_pure h
  have htail : (input.drop total).length = input.length - total := List.length_drop
  obtain ⟨offset, dataLength, list, hlength, rfl, hwhole, rfl⟩ :=
    RLPDecode_eq_pure_list (by omega) hlist
  dsimp only at h
  split_ifs at h with hshort
  · exact absurd h (throw_ne_pure _)
  obtain ⟨txData, htx, h⟩ := bind_eq_pure h
  obtain ⟨hrlp, hp⟩ := rlpData_of_decodeTransaction htx
  refine ⟨dataLength, offset, txData, _, hlength, rfl, ?_, h⟩
  obtain hsmall | ⟨w, dataLen, type, hw, hlt, hannounce, hthere⟩ :=
    announces_of_RLPDecodeLength (by omega) hlength
  · cases hsmall
  · obtain ⟨rfl, rfl, rfl⟩ : offset = 1 + w ∧ dataLength = dataLen ∧ RLPType.list = type := by
      simpa using hannounce
    rw [hrlp, hwhole, List.length_take, htail]
    rw [htail] at hthere
    simp only [add64] at *
    omega

/-- The bytes of what a run returns reach to the end. -/
theorem length_le_of_decodeTransactions {n : ℕ} {result : List TXData} (hlen : input.length < 2 ^ 63)
    (h : decodeTransactions depth input rounds total tx = pure (n, result)) :
    ∃ new, result = tx ++ new ∧
      input.length ≤ total + (new.map fun txData => txData.rlpData.length + 66).sum := by
  induction rounds generalizing total tx with
  | zero => cases h
  | succ rounds ih =>
    by_cases hmore : total < input.length
    · obtain ⟨-, -, txData, next, -, -, hnext, hrest⟩ := decodeTransactions_succ_eq_pure hlen hmore h
      obtain ⟨new, hnew, hbound⟩ := ih hrest
      refine ⟨txData :: new, by rw [hnew, List.append_assoc, List.singleton_append], ?_⟩
      rw [List.map_cons, List.sum_cons]
      omega
    · rw [decodeTransactions, if_neg hmore] at h
      obtain ⟨rfl, rfl⟩ := Prod.mk.inj (pure_injective h)
      exact ⟨[], (List.append_nil tx).symm, by simpa using hmore⟩

theorem length_flatMap_encode (txs : List Transaction) :
    (txs.flatMap Transaction.encode).length =
      ((txs.map Transaction.txData).map fun txData => txData.rlpData.length + 66).sum := by
  induction txs with
  | nil => rfl
  | cons t txs ih =>
    rw [List.flatMap_cons, List.length_append, ih, t.length_encode, List.map_cons, List.map_cons,
      List.sum_cons]
    rfl

/-- A run that returns the transactions met short ones only. -/
theorem short_of_decodeTransactions {n : ℕ} (txs : List Transaction) (before : List UInt8)
    (hlen : (before ++ txs.flatMap Transaction.encode).length < 2 ^ 63)
    (h : decodeTransactions depth (before ++ txs.flatMap Transaction.encode) rounds before.length tx =
      pure (n, tx ++ txs.map Transaction.txData)) : ∀ t ∈ txs, t.Short := by
  induction txs generalizing before rounds tx with
  | nil => exact fun t ht => absurd ht List.not_mem_nil
  | cons t txs ih =>
    have hassoc : before ++ (t :: txs).flatMap Transaction.encode =
        (before ++ t.encode) ++ txs.flatMap Transaction.encode := by
      rw [List.flatMap_cons, List.append_assoc]
    have hrlp := t.length_rlp
    have hencode := t.length_encode
    have hsize := hlen
    rw [hassoc, List.length_append, List.length_append] at hsize
    have hmore : before.length < (before ++ (t :: txs).flatMap Transaction.encode).length := by
      rw [hassoc, List.length_append, List.length_append]
      omega
    cases rounds with
    | zero => cases h
    | succ rounds =>
      obtain ⟨dataLength, offset, txData, next, hlength, rfl, -, hrest⟩ :=
        decodeTransactions_succ_eq_pure hlen hmore h
      have hlist : RLPDecodeLength (t.rlp ++ (t.trailer ++ txs.flatMap Transaction.encode)) =
          pure ((header 0xc0 (encodeAll t.strings).length).length, (encodeAll t.strings).length, .list) :=
        RLPDecodeLength_item (.list t.strings) (by
          change (t.rlp ++ _).length < _
          rw [List.length_append, List.length_append, t.length_trailer]
          omega)
      rw [List.drop_left, List.flatMap_cons, Transaction.encode, List.append_assoc, hlist] at hlength
      obtain ⟨-, hdata⟩ := Prod.mk.inj (pure_injective hlength)
      obtain ⟨rfl, -⟩ := Prod.mk.inj hdata
      obtain ⟨new, hnew, hbound⟩ := length_le_of_decodeTransactions hlen hrest
      rw [List.map_cons, List.append_assoc, List.singleton_append] at hnew
      obtain ⟨htx, rfl⟩ := List.cons.inj (List.append_cancel_left hnew)
      have hnext : add64 (add64 before.length (add64 (encodeAll t.strings).length 1)) 66 =
          before.length + (encodeAll t.strings).length + 67 := by
        simp only [add64]
        omega
      have hshort : t.Short := by
        rw [hnext, ← length_flatMap_encode, hassoc, List.length_append, List.length_append] at hbound
        rw [length_header] at hrlp
        by_contra hlong
        rw [if_neg (show ¬_ ≤ 55 from hlong)] at hrlp
        have hwidth : 0 < width (encodeAll t.strings).length := by
          rw [width_pos]
          exact (Nat.zero_le 55).trans_lt (Nat.not_le.mp hlong)
        omega
      rw [length_header, if_pos (show _ ≤ 55 from hshort)] at hrlp
      have hnext' : before.length + (encodeAll t.strings).length + 67 = (before ++ t.encode).length := by
        rw [List.length_append]
        omega
      have hresult : tx ++ (t :: txs).map Transaction.txData =
          (tx ++ [t.txData]) ++ txs.map Transaction.txData := by
        rw [List.map_cons, List.append_assoc, List.singleton_append]
      rw [hnext, hnext', hassoc, ← htx, hresult] at hrest
      exact List.forall_mem_cons.mpr ⟨hshort, ih (before ++ t.encode) (hassoc ▸ hlen) hrest⟩

end Runs

/-! ## Which batches are decoded -/

theorem length_le_flatMap_encode (txs : List Transaction) :
    txs.length ≤ (txs.flatMap Transaction.encode).length := by
  induction txs with
  | nil => exact Nat.zero_le _
  | cons t txs ih =>
    rw [List.flatMap_cons, List.length_append, List.length_cons, t.length_encode]
    omega

/-- The transactions of a batch are returned, all bytes consumed, if and only if they are short. -/
theorem BatchDecode_eq_iff (txs : List Transaction)
    (hlen : (txs.flatMap Transaction.encode).length < 2 ^ 63) :
    (∃ fuel, BatchDecode fuel (txs.flatMap Transaction.encode) =
      pure ((txs.flatMap Transaction.encode).length, txs.map Transaction.txData)) ↔
      ∀ t ∈ txs, t.Short := by
  constructor
  · rintro ⟨fuel, h⟩
    exact short_of_decodeTransactions txs [] hlen h
  · intro hshort
    have hcount := length_le_flatMap_encode txs
    exact ⟨(txs.flatMap Transaction.encode).length + 1,
      decodeTransactions_all_short txs [] [] hshort (Nat.lt_succ_of_le hcount) hlen (Nat.lt_succ_self _)⟩

theorem encodeAll_eq_nil {items : List Item} : (encodeAll items).length = 0 ↔ items = [] := by
  cases items with
  | nil => exact iff_of_true (by rw [encodeAll, List.length_nil]) rfl
  | cons item items =>
    have hpos := item.length_encode_pos
    rw [encodeAll, List.length_append]
    exact iff_of_false (by omega) (List.cons_ne_nil _ _)

/-- Which batches are decoded, for which lists the count is the number of their bytes, and which cut lists
are refused. -/
theorem BatchDecode_exact_iff (txs : List Transaction)
    (hbatch : (txs.flatMap Transaction.encode).length < 2 ^ 63) (items : List Item)
    (hlist : (Item.list items).encode.length < 2 ^ 63) {rlpType : RLPType} (htype : rlpType ≠ .string)
    (c : ℕ) {depth : ℕ} (hdepth : (Item.list items).encode.length < depth) :
    ((∃ fuel, BatchDecode fuel (txs.flatMap Transaction.encode) =
      pure ((txs.flatMap Transaction.encode).length, txs.map Transaction.txData)) ↔
      ∀ t ∈ txs, t.Short) ∧
    (∃ consumedBytes, RLPDecode depth (Item.list items).encode rlpType [] c =
        pure ([itemData (.list items)], consumedBytes) ∧
      (consumedBytes = (Item.list items).encode.length ↔
        if rlpType = .unknown then items = [] else (encodeAll items).length ≤ 55)) ∧
    ∀ k < (Item.list items).encode.length,
      (RLPDecode depth ((Item.list items).encode.take k) rlpType [] c = throw .unspecified ↔
        0 < k ∧ ((encodeAll items).length ≠ 55 ∨ rlpType = .unknown ∧ ¬AtBoundary items (k - 1))) := by
  refine ⟨BatchDecode_eq_iff txs hbatch, ⟨_, RLPDecode_list c hlist hdepth htype, ?_⟩,
    fun k hk => RLPDecode_list_cut c hlist hdepth htype hk⟩
  have hsplit := (Item.list items).length_encode
  rw [Item.header, Item.content, length_header] at hsplit
  rw [hsplit]
  have hwidth : 55 < (encodeAll items).length → 0 < width (encodeAll items).length := fun h =>
    width_pos.mpr ((Nat.zero_le 55).trans_lt h)
  have hwidth' : width (encodeAll items).length ≤ 8 := width_le.mpr (by omega)
  split_ifs with hunknown hshort hshort
  · rw [← encodeAll_eq_nil]
    omega
  · rw [← encodeAll_eq_nil]
    omega
  · exact iff_of_true (Nat.add_comm _ _) hshort
  · have hpos := hwidth (Nat.not_le.mp hshort)
    exact iff_of_false (by omega) hshort

/-- A transfer with as many data bytes. -/
def sampleTransaction (dataLength : ℕ) : Transaction where
  nonce := 1
  gasPrice := 1000
  gasLimit := 21000
  toAddress := List.replicate 20 0x11
  value := 0
  data := List.replicate dataLength 0
  chainId := 1001
  r := 5
  s := 7
  v := 27
  gasPercentage := 255
  gasPrice_lt := by decide
  length_toAddress := by decide
  value_lt := by decide
  r_lt := by decide
  s_lt := by decide

theorem BatchDecode_exact_iff_sample :
    (∃ fuel, BatchDecode fuel ([sampleTransaction 4].flatMap Transaction.encode) =
      pure (([sampleTransaction 4].flatMap Transaction.encode).length,
        [sampleTransaction 4].map Transaction.txData)) ∧
    RLPDecode 100 ((Item.list [.bytes [0x11]]).encode.take 1) .list [] 0 = throw .unspecified := by
  have hshort : (sampleTransaction 4).Short := by decide
  have hlen : (Item.list [.bytes [0x11]]).encode.length = 2 := by decide
  obtain ⟨hbatch, -, hcut⟩ := BatchDecode_exact_iff [sampleTransaction 4] (by decide)
    [.bytes [0x11]] (by rw [hlen]; decide) (show RLPType.list ≠ .string by decide) 0
    (show _ < 100 by rw [hlen]; decide)
  exact ⟨hbatch.mpr (by simpa using hshort), (hcut 1 (by rw [hlen]; decide)).mpr
    ⟨Nat.one_pos, Or.inl (by decide)⟩⟩

/-- A transaction whose list takes more than 55 bytes. -/
theorem BatchDecode_long :
    ¬∃ fuel, BatchDecode fuel ([sampleTransaction 60].flatMap Transaction.encode) =
      pure (([sampleTransaction 60].flatMap Transaction.encode).length,
        [sampleTransaction 60].map Transaction.txData) := by
  have hlong : ¬(sampleTransaction 60).Short := by decide
  rw [BatchDecode_eq_iff _ (by decide +kernel)]
  exact fun h => hlong (h _ List.mem_cons_self)

end fork_8

end ZkevmProver
