import Mathlib.Data.List.GetD
import ZkevmProver.Utils.Rlp

/-!
# `transcodeTx`

A transaction as Ethereum writes it, `RLP(fields, v, r, s)`, becomes one as the ROM reads it,
`RLP(fields, chainId, 0, 0) | r | s | v`.

1. The function
2. The chain id
3. Lists that are signed for a chain
4. What `transcodeTx` returns
-/

namespace ZkevmProver

open BigEndian Rlp

/-! ## The function -/

/-- The one error code of the functions on data streams. -/
inductive DataStreamError where
  | invalidData
  deriving DecidableEq

/-- The bytes of the chain id from the first one that is not zero. -/
def chainIdField (batchChainId : ℕ) : List UInt8 :=
  ([3, 2, 1, 0].foldl (fun (writing, field) i =>
    let d := (batchChainId >>> (8 * i)).toUInt8
    if writing || d != 0 then (true, field ++ [d]) else (writing, field)) (false, [])).2

/-- `none` where `decodeList` does not end in that many rounds, or the process ends. -/
def transcodeTx (rounds : ℕ) (tx : List UInt8) (batchChainId : ℕ) (transcodedTx : List UInt8) :
    Option (Except DataStreamError (List UInt8)) :=
  match rlp.decodeList rounds tx [] with
  | none => none
  | some (false, _) => some (.error .invalidData)
  | some (true, fields) =>
    if fields.length ≠ 9 then some (.error .invalidData)
    else
      let vScalar := ba2scalar (fields.getD 6 [])
      if vScalar > ScalarMask64 then some (.error .invalidData)
      else
        let txv := vScalar
        let chainId := sub64 txv 35 / 2
        if chainId ≠ batchChainId then some (.error .invalidData)
        else
          let v := add64 (sub64 (sub64 txv (chainId * 2)) 35) 27
          let r := ba2scalar (fields.getD 7 [])
          if r > ScalarMask256 then some (.error .invalidData)
          else
            let s := ba2scalar (fields.getD 8 [])
            if s > ScalarMask256 then some (.error .invalidData)
            else
              let fields := ((fields.set 6 (chainIdField batchChainId)).set 7 []).set 8 []
              match rlp.encodeList fields transcodedTx with
              | none => some (.error .invalidData)
              | some transcodedTx => do
                let rBa ← scalar2ba32 r
                let sBa ← scalar2ba32 s
                some (.ok (transcodedTx ++ rBa ++ sBa ++ [v.toUInt8]))

/-! ## The chain id -/

section Writing

variable (d : ℕ → UInt8)

/-- One round of the loop over the bytes of the chain id. -/
def writeByte (state : Bool × List UInt8) (i : ℕ) : Bool × List UInt8 :=
  if state.1 || d i != 0 then (true, state.2 ++ [d i]) else state

theorem foldl_writeByte_true (is : List ℕ) (field : List UInt8) :
    is.foldl (writeByte d) (true, field) = (true, field ++ is.map d) := by
  induction is generalizing field with
  | nil => simp
  | cons i is ih =>
    have hstep : writeByte d (true, field) i = (true, field ++ [d i]) := rfl
    rw [List.foldl_cons, hstep, ih, List.append_assoc]
    rfl

theorem foldl_writeByte_false (is : List ℕ) :
    (is.foldl (writeByte d) (false, [])).2 = (is.map d).dropWhile (· == 0) := by
  induction is with
  | nil => rfl
  | cons i is ih =>
    rw [List.foldl_cons, List.map_cons]
    by_cases hzero : d i = 0
    · have hstep : writeByte d (false, []) i = (false, []) := by simp [writeByte, hzero]
      rw [hstep, ih, List.dropWhile_cons_of_pos (by simpa using hzero)]
    · have hstep : writeByte d (false, []) i = (true, [d i]) := by simp [writeByte, hzero]
      rw [hstep, foldl_writeByte_true, List.dropWhile_cons_of_neg (by simpa using hzero)]
      rfl

end Writing

theorem chainIdField_eq {batchChainId : ℕ} (h : batchChainId < 2 ^ 32) :
    chainIdField batchChainId = shortest batchChainId := by
  have hbytes : bytes 4 batchChainId =
      [3, 2, 1, 0].map (fun i => (batchChainId >>> (8 * i)).toUInt8) := by
    simp only [bytes_cons, bytes_zero, List.map_cons, List.map_nil, Nat.shiftRight_eq_div_pow]
    rfl
  rw [← @dropWhile_bytes 4 _ h, hbytes, ← foldl_writeByte_false]
  rfl

/-! ## Lists that are signed for a chain -/

/-- The list is `head` and `v`, `r` and `s` of a transaction that is signed for a chain. -/
structure SignedFor (chainId : ℕ) (fields head : List (List UInt8)) (parity r s : ℕ) : Prop where
  fields_eq : ∃ v rBa sBa, fields = head ++ [v, rBa, sBa] ∧
    ba2scalar v = 2 * chainId + 35 + parity ∧ ba2scalar rBa = r ∧ ba2scalar sBa = s
  head_length : head.length = 6
  parity_le : parity ≤ 1
  r_lt : r < 2 ^ 256
  s_lt : s < 2 ^ 256

/-- The list of the ROM, followed by the signature. -/
def romTx (chainId : ℕ) (head : List (List UInt8)) (parity r s : ℕ) : List UInt8 :=
  (Item.list ((head ++ [shortest chainId, [], []]).map .bytes)).encode ++ bytes 32 r ++ bytes 32 s ++
    [(27 + parity).toUInt8]

theorem encodeAll_append (xs ys : List Item) :
    encodeAll (xs ++ ys) = encodeAll xs ++ encodeAll ys := by
  induction xs with
  | nil => simp only [List.nil_append, encodeAll]
  | cons x xs ih => simp only [List.cons_append, encodeAll, ih, List.append_assoc]

/-- The list of the ROM is not longer. -/
theorem length_romList_le {chainId : ℕ} {v rBa sBa : List UInt8} (head : List (List UInt8))
    (hv : chainId ≤ value v) :
    (encodeAll ((head ++ [shortest chainId, [], []]).map .bytes)).length ≤
      (encodeAll ((head ++ [v, rBa, sBa]).map .bytes)).length := by
  have hchain : (encodeBytes (shortest chainId)).length ≤ (encodeBytes v).length := by
    apply length_encodeBytes_mono
    · rw [length_shortest]
      exact (width_mono hv).trans (width_value_le v)
    · rwa [value_shortest]
  have hr : (encodeBytes []).length ≤ (encodeBytes rBa).length :=
    length_encodeBytes_mono (Nat.zero_le _) (Nat.zero_le _)
  have hs : (encodeBytes []).length ≤ (encodeBytes sBa).length :=
    length_encodeBytes_mono (Nat.zero_le _) (Nat.zero_le _)
  simp only [List.map_append, encodeAll_append, List.map_cons, List.map_nil, encodeAll, Item.encode,
    List.length_append]
  omega

/-! ## What `transcodeTx` returns -/

section Returns

variable {tx : List UInt8} {fields : List (List UInt8)} {rounds : ℕ} {chainId : ℕ}

theorem transcodeTx_of_signedFor (hdecode : rlp.decodeList rounds tx [] = some (true, fields))
    (hchain : chainId < 2 ^ 32) (hsize : (encodeAll (fields.map .bytes)).length < 256 ^ 3)
    {head : List (List UInt8)} {parity r s : ℕ} (h : SignedFor chainId fields head parity r s) :
    transcodeTx rounds tx chainId [] = some (.ok (romTx chainId head parity r s)) := by
  obtain ⟨⟨v, rBa, sBa, rfl, hv, rfl, rfl⟩, hhead, hparity, hr, hs⟩ := h
  have hlen : (head ++ [v, rBa, sBa]).length = 9 := by
    rw [List.length_append, hhead]
    rfl
  have hfield (i : ℕ) : (head ++ [v, rBa, sBa]).getD (6 + i) [] = [v, rBa, sBa].getD i [] := by
    rw [← hhead, List.getD_append_right _ _ _ _ (Nat.le_add_right _ _), Nat.add_sub_cancel_left]
  have hset (x y z : List UInt8) :
      (((head ++ [v, rBa, sBa]).set 6 x).set 7 y).set 8 z = head ++ [x, y, z] := by
    simp [hhead]
  have h6 : (head ++ [v, rBa, sBa]).getD 6 [] = v := hfield 0
  have h7 : (head ++ [v, rBa, sBa]).getD 7 [] = rBa := hfield 1
  have h8 : (head ++ [v, rBa, sBa]).getD 8 [] = sBa := hfield 2
  have hmask : ba2scalar v ≤ ScalarMask64 := by
    rw [ScalarMask64]
    omega
  have hsub : sub64 (ba2scalar v) 35 = 2 * chainId + parity := by
    rw [sub64_of_le (by omega) (by omega)]
    omega
  have hid : sub64 (ba2scalar v) 35 / 2 = chainId := by omega
  have hrom : add64 (sub64 (sub64 (ba2scalar v) (chainId * 2)) 35) 27 = 27 + parity := by
    have hparity : sub64 (ba2scalar v) (chainId * 2) = 35 + parity := by
      rw [sub64_of_le (by omega) (by omega)]
      omega
    rw [hparity, sub64_of_le (by omega) (by omega), add64_of_lt (by omega)]
    omega
  have hr' : ba2scalar rBa ≤ ScalarMask256 := Nat.le_pred_of_lt hr
  have hs' : ba2scalar sBa ≤ ScalarMask256 := Nat.le_pred_of_lt hs
  have hle : chainId ≤ value v := by
    rw [ba2scalar] at hv
    omega
  have hshort := (@length_romList_le _ _ rBa sBa head hle).trans_lt hsize
  simp only [transcodeTx, hdecode, hlen, h6, h7, h8, hset, hid, hrom, ne_eq, not_true_eq_false,
    if_false, if_neg (Nat.not_lt.mpr hmask), if_neg (Nat.not_lt.mpr hr'),
    if_neg (Nat.not_lt.mpr hs'), chainIdField_eq hchain, rlp.encodeList_eq, if_pos hshort,
    scalar2ba32_eq hr', scalar2ba32_eq hs', Option.bind_eq_bind, Option.bind_some, List.nil_append]
  rfl

/-- What the checks let through is signed for the chain. -/
theorem signedFor_of_checks (hlen : fields.length = 9)
    (hv : ba2scalar (fields.getD 6 []) ≤ ScalarMask64) (hchain : chainId < 2 ^ 32)
    (hid : sub64 (ba2scalar (fields.getD 6 [])) 35 / 2 = chainId)
    (hr : ba2scalar (fields.getD 7 []) ≤ ScalarMask256)
    (hs : ba2scalar (fields.getD 8 []) ≤ ScalarMask256) :
    ∃ head parity r s, SignedFor chainId fields head parity r s := by
  obtain ⟨head, v, rBa, sBa, hhead, rfl⟩ : ∃ head v rBa sBa, head.length = 6 ∧
      fields = head ++ [v, rBa, sBa] := by
    refine ⟨fields.take 6, fields.getD 6 [], fields.getD 7 [], fields.getD 8 [], by simp [hlen], ?_⟩
    have hdrop (i : ℕ) (hi : i < 9) : fields.drop i = fields.getD i [] :: fields.drop (i + 1) := by
      rw [List.getD_eq_getElem _ _ (by omega), List.getElem_cons_drop]
    have hend : fields.drop 9 = [] := List.drop_eq_nil_of_le hlen.le
    calc fields = fields.take 6 ++ fields.drop 6 := (List.take_append_drop 6 fields).symm
      _ = _ := by rw [hdrop 6 (by decide), hdrop 7 (by decide), hdrop 8 (by decide), hend]
  have hfield (i : ℕ) : (head ++ [v, rBa, sBa]).getD (6 + i) [] = [v, rBa, sBa].getD i [] := by
    rw [← hhead, List.getD_append_right _ _ _ _ (Nat.le_add_right _ _), Nat.add_sub_cancel_left]
  rw [hfield 0] at hv hid
  rw [hfield 1] at hr
  rw [hfield 2] at hs
  change ba2scalar v ≤ ScalarMask64 at hv
  change sub64 (ba2scalar v) 35 / 2 = chainId at hid
  rw [ScalarMask64] at hv
  rw [sub64] at hid
  have hle : 35 ≤ ba2scalar v := by omega
  refine ⟨head, ba2scalar v - 35 - 2 * chainId, ba2scalar rBa, ba2scalar sBa,
    ⟨v, rBa, sBa, rfl, by omega, rfl, rfl⟩, hhead, by omega, ?_, ?_⟩
  · exact Nat.lt_of_le_pred (by decide) hr
  · exact Nat.lt_of_le_pred (by decide) hs

theorem transcodeTx_of_not_signedFor
    (hdecode : rlp.decodeList rounds tx [] = some (true, fields)) (hchain : chainId < 2 ^ 32)
    (h : ¬∃ head parity r s, SignedFor chainId fields head parity r s) :
    transcodeTx rounds tx chainId [] = some (.error .invalidData) := by
  rw [transcodeTx, hdecode]
  simp only
  split_ifs with hlen hv hid hr hs
  · rfl
  · rfl
  · rfl
  · rfl
  · rfl
  · exact absurd (signedFor_of_checks (not_not.mp hlen) (Nat.not_lt.mp hv) hchain (not_not.mp hid)
      (Nat.not_lt.mp hr) (Nat.not_lt.mp hs)) h

end Returns

/-- `transcodeTx` of a list that the encoder wrote: it changes the signature of a transaction that is
signed for the chain, and rejects every other list. -/
theorem transcodeTx_encodeList {fields : List (List UInt8)} {tx : List UInt8} {chainId : ℕ}
    (hchain : chainId < 2 ^ 32) (henc : rlp.encodeList fields [] = some tx) :
    (∀ head parity r s, SignedFor chainId fields head parity r s →
      ∃ rounds, transcodeTx rounds tx chainId [] = some (.ok (romTx chainId head parity r s))) ∧
    ((¬∃ head parity r s, SignedFor chainId fields head parity r s) →
      ∃ rounds, transcodeTx rounds tx chainId [] = some (.error .invalidData)) := by
  obtain ⟨-, rounds, hdecode⟩ := rlp.decodeList_encodeList fields tx henc
  constructor
  · intro head parity r s h
    have hsize : (encodeAll (fields.map .bytes)).length < 256 ^ 3 := by
      rw [rlp.encodeList_eq] at henc
      by_contra hlong
      rw [if_neg hlong] at henc
      cases henc
    exact ⟨rounds, transcodeTx_of_signedFor hdecode hchain hsize h⟩
  · intro h
    exact ⟨rounds, transcodeTx_of_not_signedFor hdecode hchain h⟩

theorem transcodeTx_encodeList_sample :
    1 < 2 ^ 32 ∧
      rlp.encodeList (List.replicate 6 [] ++ [[37], [1], [2]]) [] =
        some [0xc9, 0x80, 0x80, 0x80, 0x80, 0x80, 0x80, 37, 1, 2] ∧
      ∃ rounds, transcodeTx rounds [0xc9, 0x80, 0x80, 0x80, 0x80, 0x80, 0x80, 37, 1, 2] 1 [] =
        some (.ok (romTx 1 (List.replicate 6 []) 0 1 2)) :=
  ⟨by decide, rfl, (transcodeTx_encodeList (by decide) rfl).1 _ 0 1 2
    ⟨⟨[37], [1], [2], rfl, rfl, rfl, rfl⟩, rfl, by decide, by decide, by decide⟩⟩

end ZkevmProver
