import ZkevmProver.MainSM.HashK

/-!
# What the Keccak operations leave behind

After a run, the entry of an address is known from the operations of the run.

  1. Operations as events, and the message that they write.
  2. A read.
  3. The entry of an address after a run.
-/

namespace ZkevmProver

open BigEndian

/-! ## Operations as events, and the message that they write -/

/-- What an accepted operation claims about the message of its address. -/
inductive HashKEvent where
  | read (addr pos size value : ℕ)
  | len (addr length : ℕ)
  | digest (addr digest : ℕ)
deriving DecidableEq

/-- What an operation claims. -/
def HashKOp.event : HashKOp → HashKEvent
  | .hashK addr D0 HASHPOS op => .read addr (toS64 HASHPOS).toNat (toU64 D0) (fea2scalar 0 op).2
  | .hashK1 addr HASHPOS op => .read addr (toS64 HASHPOS).toNat 1 (fea2scalar 0 op).2
  | .hashKLen addr op0 => .len addr (toU64 op0)
  | .hashKDigest addr op => .digest addr (fea2scalar 0 op).2

namespace HashKEvent

def addr : HashKEvent → ℕ
  | .read addr _ _ _ => addr
  | .len addr _ => addr
  | .digest addr _ => addr

/-- A read is not empty. -/
def Sized : HashKEvent → Prop
  | .read _ _ size _ => 0 < size
  | _ => True

instance : DecidablePred Sized
  | .read _ _ size _ => inferInstanceAs (Decidable (0 < size))
  | .len _ _ => isTrue trivial
  | .digest _ _ => isTrue trivial

/-- The bytes of a read that go beyond a message come behind it. -/
def extend (a : ℕ) (data : List UInt8) : HashKEvent → List UInt8
  | .read addr pos size value =>
    if addr = a then data ++ (bytes size value).drop (data.length - pos) else data
  | _ => data

/-- The message that events write at an address. -/
def message (events : List HashKEvent) (a : ℕ) : List UInt8 := events.foldl (extend a) []

theorem message_concat (events : List HashKEvent) (e : HashKEvent) (a : ℕ) :
    message (events ++ [e]) a = extend a (message events a) e := by
  rw [message, List.foldl_append]
  rfl

end HashKEvent

/-! ## A read -/

namespace MainExecutor

/-- Byte `j` of a read is a byte of its value. -/
theorem byte_eq {size j : ℕ} (hj : j < size) (a : ℕ) :
    ((a >>> ((size - j - 1) * 8)) &&& 0xFF).toUInt8 = (bytes size a).getD j 0 := by
  induction size generalizing j with
  | zero => exact absurd hj (Nat.not_lt_zero j)
  | succ size ih =>
    rw [bytes_cons]
    obtain _ | j := j
    · have hpow : 2 ^ (size * 8) = 256 ^ size := by rw [Nat.mul_comm, Nat.pow_mul]
      have hlow (n : ℕ) : (n &&& 0xFF).toUInt8 = n.toUInt8 := by
        apply UInt8.toNat_inj.mp
        rw [(by rfl : (0xFF : ℕ) = 2 ^ 8 - 1), Nat.and_two_pow_sub_one_eq_mod]
        simp
      rw [hlow, List.getD_cons_zero, Nat.shiftRight_eq_div_pow, Nat.sub_zero,
        Nat.add_sub_cancel, hpow]
    · have hsub : size + 1 - (j + 1) - 1 = size - j - 1 := by omega
      rw [hsub, ih (Nat.lt_of_succ_lt_succ hj), List.getD_cons_succ]

theorem drop_take_succ {bs : List UInt8} {n d : ℕ} (hn : n < bs.length) (hd : d ≤ n) :
    (bs.take (n + 1)).drop d = (bs.take n).drop d ++ [bs.getD n 0] := by
  rw [List.take_succ_eq_append_getElem hn, List.drop_append_of_le_length (by
    rw [List.length_take]
    omega), List.getD_eq_getElem _ _ hn]

/-- The first `n` bytes of a read. -/
theorem setData_prefix {pos size a : ℕ} {data data' : List UInt8} {n : ℕ} (hn : n ≤ size)
    (h : (List.range n).foldlM (setByte pos size a) data = some data') :
    data' = data ++ ((bytes size a).take n).drop (data.length - pos) ∧
      (0 < n → pos ≤ data.length) ∧ slice data' pos (pos + n) = (bytes size a).take n := by
  have hlen : (bytes size a).length = size := length_bytes size a
  induction n generalizing data' with
  | zero =>
    obtain rfl : data = data' := Option.some_inj.mp h
    rw [List.take_zero, List.drop_nil, List.append_nil, Nat.add_zero, slice_self]
    exact ⟨rfl, fun h => absurd h (Nat.lt_irrefl 0), rfl⟩
  | succ n ih =>
    rw [List.range_succ, List.foldlM_append] at h
    obtain ⟨before, hbefore, h⟩ := Option.bind_eq_some_iff.mp h
    obtain ⟨hdata, hpos, hslice⟩ := ih (Nat.le_of_succ_le hn) hbefore
    have hblen : before.length = data.length + (n - (data.length - pos)) := by
      rw [hdata, List.length_append, List.length_drop, List.length_take, hlen,
        Nat.min_eq_left (Nat.le_of_succ_le hn)]
    have htake : (bytes size a).take (n + 1) = (bytes size a).take n ++ [(bytes size a).getD n 0] :=
      drop_take_succ (d := 0) (by omega) (Nat.zero_le n)
    have h : setByte pos size a before n = some data' := by
      rw [List.foldlM_cons] at h
      obtain ⟨last, hlast, h⟩ := Option.bind_eq_some_iff.mp h
      rw [hlast]
      exact h
    unfold setByte at h
    rw [byte_eq hn] at h
    dsimp only at h
    split_ifs at h with heq hlt hne
    · obtain rfl := Option.some_inj.mp h
      have hle : pos ≤ data.length := by
        rcases Nat.eq_zero_or_pos n with rfl | hn0
        · omega
        · exact hpos hn0
      refine ⟨?_, fun _ => hle, ?_⟩
      · rw [drop_take_succ (by omega) (by omega), ← List.append_assoc, ← hdata]
      · rw [← Nat.add_assoc, slice_succ (Nat.le_add_right _ _) (by
          rw [List.length_append, heq]
          exact Nat.lt_succ_self _), htake, ← hslice]
        congr 1
        · rw [slice, slice, List.take_append_of_le_length heq.ge]
        · rw [← heq, List.getD_append_right _ _ _ _ le_rfl, Nat.sub_self]
          rfl
    · obtain rfl := Option.some_inj.mp h
      have hgt : pos + n < before.length := by omega
      have hle : pos ≤ data.length := by
        rcases Nat.eq_zero_or_pos n with rfl | hn0
        · omega
        · exact hpos hn0
      refine ⟨?_, fun _ => hle, ?_⟩
      · have hnil : ((bytes size a).take (n + 1)).drop (data.length - pos) = [] := by
          rw [List.drop_eq_nil_iff, List.length_take]
          omega
        have hnil' : ((bytes size a).take n).drop (data.length - pos) = [] := by
          rw [List.drop_eq_nil_iff, List.length_take]
          omega
        rw [hnil]
        rwa [hnil'] at hdata
      · rw [← Nat.add_assoc, slice_succ (Nat.le_add_right _ _) hgt, hslice, htake,
          not_ne_iff.mp hne]

theorem setData_spec {pos size a : ℕ} {data data' : List UInt8} (hsize : 0 < size)
    (h : setData pos size a data = some data') :
    data' = data ++ (bytes size a).drop (data.length - pos) ∧ pos ≤ data.length ∧
      slice data' pos (pos + size) = bytes size a := by
  obtain ⟨hdata, hpos, hslice⟩ := setData_prefix le_rfl h
  rw [List.take_of_length_le (length_bytes size a).le] at hdata hslice
  exact ⟨hdata, hpos hsize, hslice⟩

/-! ## The entry of an address after a run -/

/-- What the executor checks in a read, and what it writes. -/
structure ReadDone (pos size v : ℕ) (value value' : HashValue) : Prop where
  small : size ≤ 32
  rest : v >>> (size * 8) = 0
  data : setData pos size v value.data = some value'.data
  reads : value.reads pos = some size ∧ value'.reads = value.reads ∨
    value.reads pos = none ∧ value'.reads = Function.update value.reads pos (some size)
  digest : value'.digest = value.digest
  digestCalled : value'.digestCalled = value.digestCalled
  lenCalled : value'.lenCalled = value.lenCalled

/-- What an operation does to the entry of its address. -/
def Done (keccak256 : List UInt8 → ℕ) (value value' : HashValue) : HashKEvent → Prop
  | .read _ pos size v => ReadDone pos size v value value'
  | .len _ length => value.lenCalled = false ∧ value.data.length = length ∧
      value' = { value with
        lenCalled := true
        digest := if value.digestCalled then value.digest else keccak256 value.data }
  | .digest _ digest => value.digestCalled = false ∧ value.digest = digest ∧
      value' = { value with digestCalled := true }

section Exec

variable {keccak256 : List UInt8 → ℕ} {S S' : HashValues}

theorem hashK_done {addr size : ℕ} {HASHPOS : Fe} {op : Fea × Fea} (hsize : size ≤ 32)
    (h : hashK S addr size HASHPOS op = some S') : ∃ value', S' = S.set addr value' ∧
      ReadDone (toS64 HASHPOS).toNat size (fea2scalar 0 op).2 (S.get addr) value' := by
  unfold hashK at h
  dsimp only at h
  obtain ⟨-, h⟩ := Option.ite_none_left_eq_some.mp h
  obtain ⟨-, h⟩ := Option.ite_none_left_eq_some.mp h
  obtain ⟨data, hdata, h⟩ := Option.bind_eq_some_iff.mp h
  obtain ⟨hrest, h⟩ := Option.ite_none_left_eq_some.mp h
  have hrest := not_ne_iff.mp hrest
  split at h
  · next size' hread =>
    obtain ⟨hsame, h⟩ := Option.ite_none_left_eq_some.mp h
    obtain rfl := Option.some_inj.mp h
    have hread := hread.trans (congrArg some (not_ne_iff.mp hsame))
    exact ⟨_, rfl, hsize, hrest, hdata, .inl ⟨hread, rfl⟩, rfl, rfl, rfl⟩
  · next hread =>
    obtain rfl := Option.some_inj.mp h
    exact ⟨_, rfl, hsize, hrest, hdata, .inr ⟨hread, rfl⟩, rfl, rfl, rfl⟩

theorem exec_done {op : HashKOp} (h : exec keccak256 S op = some S') :
    ∃ value', S' = S.set op.event.addr value' ∧
      Done keccak256 (S.get op.event.addr) value' op.event := by
  cases op with
  | hashK addr D0 HASHPOS op =>
    unfold exec at h
    dsimp only at h
    split_ifs at h with hsize
    exact hashK_done (Nat.not_lt.mp hsize) h
  | hashK1 addr HASHPOS op => exact hashK_done (by decide) h
  | hashKLen addr op0 =>
    unfold exec hashKLen at h
    dsimp only at h
    obtain ⟨-, h⟩ := Option.ite_none_left_eq_some.mp h
    obtain ⟨hcalled, h⟩ := Option.ite_none_left_eq_some.mp h
    obtain ⟨hlen, h⟩ := Option.ite_none_left_eq_some.mp h
    obtain rfl := Option.some_inj.mp h
    exact ⟨_, rfl, Bool.eq_false_of_not_eq_true hcalled, (not_ne_iff.mp hlen).symm, rfl⟩
  | hashKDigest addr op =>
    unfold exec hashKDigest at h
    dsimp only at h
    split_ifs at h with hkey hok hdigest hcalled
    obtain rfl := Option.some_inj.mp h
    exact ⟨_, rfl, Bool.eq_false_of_not_eq_true hcalled, (not_ne_iff.mp hdigest).symm, rfl⟩

end Exec

end MainExecutor

open MainExecutor HashKEvent

/-- What the events of a run say about the entry of address `a`. -/
structure AddrHistory (keccak256 : List UInt8 → ℕ) (events : List HashKEvent) (a : ℕ)
    (value : HashValue) : Prop where
  data : value.data = message events a
  read : ∀ pos size v, .read a pos size v ∈ events → pos + size ≤ value.data.length ∧
    BigEndian.value (slice value.data pos (pos + size)) = v ∧ value.reads pos = some size
  reads : ∀ pos size, value.reads pos = some size →
    0 < size ∧ size ≤ 32 ∧ ∃ v, .read a pos size v ∈ events
  lenCalled : ∀ length, .len a length ∈ events → value.lenCalled = true
  len : ∀ before length after, events = before ++ .len a length :: after →
    (message before a).length = length
  digestCalled : ∀ dg, .digest a dg ∈ events → value.digestCalled = true
  /-- A digest was computed by an operation for the length before it, or there was none. -/
  digest : ∀ before dg after, events = before ++ .digest a dg :: after →
    (∃ before' length after', before = before' ++ .len a length :: after' ∧
      dg = keccak256 (message before' a)) ∨
    (∀ length, .len a length ∉ before) ∧ dg = 0
  pending : value.digestCalled = false →
    (∃ before length after, events = before ++ .len a length :: after ∧
      value.digest = keccak256 (message before a)) ∨
    (∀ length, .len a length ∉ events) ∧ value.digest = 0

theorem split_concat {α : Type*} {xs before after : List α} {x e : α}
    (h : xs ++ [e] = before ++ x :: after) :
    (∃ after', after = after' ++ [e] ∧ xs = before ++ x :: after') ∨
      after = [] ∧ before = xs ∧ x = e := by
  induction after using List.reverseRecOn with
  | nil =>
    obtain ⟨hxs, he⟩ := List.append_inj' h rfl
    exact .inr ⟨rfl, hxs.symm, (List.cons_eq_cons.mp he).1.symm⟩
  | append_singleton after' y _ =>
    rw [← List.cons_append, ← List.append_assoc] at h
    obtain ⟨hxs, he⟩ := List.append_inj' h rfl
    exact .inl ⟨after', by rw [(List.cons_eq_cons.mp he).1], hxs⟩

section History

variable {keccak256 : List UInt8 → ℕ} {events : List HashKEvent} {a : ℕ} {value value' : HashValue}
  {e : HashKEvent}

theorem addrHistory_nil : AddrHistory keccak256 [] a {} where
  data := rfl
  read _ _ _ h := absurd h List.not_mem_nil
  reads _ _ h := nomatch h
  lenCalled _ h := absurd h List.not_mem_nil
  len _ _ _ h := by simp at h
  digestCalled _ h := absurd h List.not_mem_nil
  digest _ _ _ h := by simp at h
  pending _ := .inr ⟨fun _ => List.not_mem_nil, rfl⟩

/-- An event at another address. -/
theorem AddrHistory.other (h : AddrHistory keccak256 events a value) (he : e.addr ≠ a) :
    AddrHistory keccak256 (events ++ [e]) a value := by
  have hmem {e' : HashKEvent} (he' : e'.addr = a) : e' ∈ events ++ [e] ↔ e' ∈ events := by
    rw [List.mem_append, List.mem_singleton, or_iff_left]
    rintro rfl
    exact he he'
  have hsplit {e' : HashKEvent} (he' : e'.addr = a) {before after : List HashKEvent}
      (h' : events ++ [e] = before ++ e' :: after) :
      ∃ after', after = after' ++ [e] ∧ events = before ++ e' :: after' := by
    rcases split_concat h' with h' | ⟨-, -, rfl⟩
    · exact h'
    · exact absurd he' he
  refine ⟨?_, fun pos size v hv => h.read pos size v ((hmem rfl).mp hv), fun pos size hr => ?_,
    fun length hl => h.lenCalled length ((hmem rfl).mp hl), fun before length after h' => ?_,
    fun dg hd => h.digestCalled dg ((hmem rfl).mp hd), fun before dg after h' => ?_,
    fun hcalled => ?_⟩
  · rw [message_concat, h.data]
    cases e with
    | read addr pos size v => exact (if_neg he).symm
    | len addr length => rfl
    | digest addr dg => rfl
  · obtain ⟨hpos, hle, v, hv⟩ := h.reads pos size hr
    exact ⟨hpos, hle, v, List.mem_append_left _ hv⟩
  · obtain ⟨after', -, h'⟩ := hsplit rfl h'
    exact h.len before length after' h'
  · obtain ⟨after', -, h'⟩ := hsplit rfl h'
    exact h.digest before dg after' h'
  · rcases h.pending hcalled with ⟨before, length, after, hevents, hdigest⟩ | ⟨hnone, hdigest⟩
    · exact .inl ⟨before, length, after ++ [e], by rw [hevents]; simp, hdigest⟩
    · exact .inr ⟨fun length hl => hnone length ((hmem rfl).mp hl), hdigest⟩

/-- A read is not lost when bytes come behind the message. -/
theorem slice_append {data more : List UInt8} {i j : ℕ} (hj : j ≤ data.length) :
    slice (data ++ more) i j = slice data i j := by
  rw [slice, slice, List.take_append_of_le_length hj]

/-- A read. -/
theorem AddrHistory.readDone {pos size v : ℕ} (h : AddrHistory keccak256 events a value)
    (hsize : 0 < size) (hdone : ReadDone pos size v value value') :
    AddrHistory keccak256 (events ++ [.read a pos size v]) a value' := by
  obtain ⟨hdata, hpos, hslice⟩ := setData_spec hsize hdone.data
  have hv : BigEndian.value (bytes size v) = v := by
    refine value_bytes_of_lt ?_
    have hrest := hdone.rest
    rw [Nat.shiftRight_eq_div_pow, Nat.div_eq_zero_iff, Nat.mul_comm, Nat.pow_mul] at hrest
    exact hrest.resolve_left (Nat.pow_pos (by decide)).ne'
  have hend : pos + size ≤ value'.data.length := by
    rw [hdata, List.length_append, List.length_drop, length_bytes]
    omega
  have hread : value'.reads pos = some size := by
    rcases hdone.reads with ⟨hread, hsame⟩ | ⟨-, hnew⟩
    · rw [hsame, hread]
    · rw [hnew, Function.update_self]
  have hkept {p s : ℕ} (hp : value.reads p = some s) : value'.reads p = some s := by
    rcases hdone.reads with ⟨-, hsame⟩ | ⟨hfree, hnew⟩
    · rw [hsame, hp]
    · have hne : p ≠ pos := by
        rintro rfl
        rw [hp] at hfree
        exact nomatch hfree
      rw [hnew, Function.update_of_ne hne, hp]
  have hlen (l : ℕ) : ∀ p s w, HashKEvent.len a l ≠ .read a p s w := fun _ _ _ => nofun
  have hdig (d : ℕ) : ∀ p s w, HashKEvent.digest a d ≠ .read a p s w := fun _ _ _ => nofun
  have hmem {e : HashKEvent} (he : ∀ p s w, e ≠ .read a p s w) :
      e ∈ events ++ [.read a pos size v] ↔ e ∈ events := by
    rw [List.mem_append, List.mem_singleton, or_iff_left (he pos size v)]
  have hsplit {e : HashKEvent} (he : ∀ p s w, e ≠ .read a p s w) {before after : List HashKEvent}
      (h' : events ++ [.read a pos size v] = before ++ e :: after) :
      ∃ after', events = before ++ e :: after' := by
    rcases split_concat h' with ⟨after', -, h'⟩ | ⟨-, -, rfl⟩
    · exact ⟨after', h'⟩
    · exact absurd rfl (he pos size v)
  refine ⟨?_, fun p s w hw => ?_, fun p s hp => ?_, fun length hl => ?_,
    fun before length after h' => ?_, fun dg hd => ?_, fun before dg after h' => ?_,
    fun hcalled => ?_⟩
  · rw [message_concat, ← h.data, hdata]
    exact (if_pos rfl).symm
  · rcases List.mem_append.mp hw with hw | hw
    · obtain ⟨hle, hval, hreads⟩ := h.read p s w hw
      refine ⟨hle.trans ?_, ?_, hkept hreads⟩
      · rw [hdata, List.length_append]
        exact Nat.le_add_right _ _
      · rw [hdata, slice_append hle, hval]
    · obtain ⟨-, rfl, rfl, rfl⟩ := HashKEvent.read.inj (List.mem_singleton.mp hw)
      exact ⟨hend, by rw [hslice, hv], hread⟩
  · by_cases hp' : p = pos
    · subst hp'
      obtain rfl := Option.some_inj.mp (hread.symm.trans hp)
      exact ⟨hsize, hdone.small, v, List.mem_append_right _ (List.mem_singleton_self _)⟩
    · have hold : value.reads p = some s := by
        rcases hdone.reads with ⟨-, hsame⟩ | ⟨-, hnew⟩
        · rwa [hsame] at hp
        · rwa [hnew, Function.update_of_ne hp'] at hp
      obtain ⟨h0, hle, w, hw⟩ := h.reads p s hold
      exact ⟨h0, hle, w, List.mem_append_left _ hw⟩
  · rw [hdone.lenCalled]
    exact h.lenCalled length ((hmem (hlen length)).mp hl)
  · obtain ⟨after', h'⟩ := hsplit (hlen length) h'
    exact h.len before length after' h'
  · rw [hdone.digestCalled]
    exact h.digestCalled dg ((hmem (hdig dg)).mp hd)
  · obtain ⟨after', h'⟩ := hsplit (hdig dg) h'
    exact h.digest before dg after' h'
  · rw [hdone.digest]
    rw [hdone.digestCalled] at hcalled
    rcases h.pending hcalled with ⟨before, length, after, hevents, hdigest⟩ | ⟨hnone, hdigest⟩
    · exact .inl ⟨before, length, after ++ [.read a pos size v], by rw [hevents]; simp, hdigest⟩
    · exact .inr ⟨fun length hl => hnone length ((hmem (hlen length)).mp hl), hdigest⟩

/-- An operation for the length. -/
theorem AddrHistory.lenDone {length : ℕ} (h : AddrHistory keccak256 events a value)
    (hdone : Done keccak256 value value' (.len a length)) :
    AddrHistory keccak256 (events ++ [.len a length]) a value' := by
  obtain ⟨hcalled, hlen, rfl⟩ := hdone
  refine ⟨?_, fun p s w hw => ?_, fun p s hp => ?_, fun _ _ => rfl,
    fun before length' after h' => ?_, fun dg hd => ?_, fun before dg after h' => ?_,
    fun hcalled => ?_⟩
  · rw [message_concat]
    exact h.data
  · refine h.read p s w ?_
    rcases List.mem_append.mp hw with hw | hw
    · exact hw
    · exact nomatch List.mem_singleton.mp hw
  · obtain ⟨h0, hle, w, hw⟩ := h.reads p s hp
    exact ⟨h0, hle, w, List.mem_append_left _ hw⟩
  · rcases split_concat h' with ⟨after', -, h'⟩ | ⟨-, rfl, hlast⟩
    · exact h.len before length' after' h'
    · obtain ⟨-, rfl⟩ := HashKEvent.len.inj hlast
      rw [← h.data, hlen]
  · refine h.digestCalled dg ?_
    rcases List.mem_append.mp hd with hd | hd
    · exact hd
    · exact nomatch List.mem_singleton.mp hd
  · rcases split_concat h' with ⟨after', -, h'⟩ | ⟨-, -, hlast⟩
    · exact h.digest before dg after' h'
    · exact nomatch hlast
  · have hcalled : value.digestCalled = false := hcalled
    refine .inl ⟨events, length, [], rfl, ?_⟩
    dsimp only
    rw [if_neg (by rw [hcalled]; exact Bool.false_ne_true), h.data]

/-- An operation for the digest. -/
theorem AddrHistory.digestDone {dg : ℕ} (h : AddrHistory keccak256 events a value)
    (hdone : Done keccak256 value value' (.digest a dg)) :
    AddrHistory keccak256 (events ++ [.digest a dg]) a value' := by
  obtain ⟨hcalled, hdigest, rfl⟩ := hdone
  refine ⟨?_, fun p s w hw => ?_, fun p s hp => ?_, fun length hl => ?_,
    fun before length after h' => ?_, fun _ _ => rfl, fun before dg' after h' => ?_, nofun⟩
  · rw [message_concat]
    exact h.data
  · refine h.read p s w ?_
    rcases List.mem_append.mp hw with hw | hw
    · exact hw
    · exact nomatch List.mem_singleton.mp hw
  · obtain ⟨h0, hle, w, hw⟩ := h.reads p s hp
    exact ⟨h0, hle, w, List.mem_append_left _ hw⟩
  · refine h.lenCalled length ?_
    rcases List.mem_append.mp hl with hl | hl
    · exact hl
    · exact nomatch List.mem_singleton.mp hl
  · rcases split_concat h' with ⟨after', -, h'⟩ | ⟨-, -, hlast⟩
    · exact h.len before length after' h'
    · exact nomatch hlast
  · rcases split_concat h' with ⟨after', -, h'⟩ | ⟨-, rfl, hlast⟩
    · exact h.digest before dg' after' h'
    · obtain ⟨-, rfl⟩ := HashKEvent.digest.inj hlast
      rw [← hdigest]
      exact h.pending hcalled

/-- An operation, at whatever address. -/
theorem AddrHistory.step {S S' : HashValues} {op : HashKOp}
    (h : AddrHistory keccak256 events a (S.get a)) (hexec : exec keccak256 S op = some S')
    (hsized : op.event.Sized) : AddrHistory keccak256 (events ++ [op.event]) a (S'.get a) := by
  obtain ⟨value', rfl, hdone⟩ := exec_done hexec
  rw [HashValues.get_set]
  split
  · next ha =>
    subst ha
    generalize op.event = e at *
    cases e with
    | read addr pos size v => exact h.readDone hsized hdone
    | len addr length => exact h.lenDone hdone
    | digest addr dg => exact h.digestDone hdone
  · next ha => exact h.other (Ne.symm ha)

/-- The entries after a run, and the addresses that it used. -/
theorem history_run {ops : List HashKOp} {S : HashValues} (hrun : execAll keccak256 ops = some S)
    (hsized : ∀ op ∈ ops, op.event.Sized) :
    (∀ a, AddrHistory keccak256 (ops.map HashKOp.event) a (S.get a)) ∧
      S.keys = (ops.map fun op => op.event.addr).toFinset := by
  have hrun := Transitions.run_steps_iff.mpr hrun
  refine hrun.history (P := fun ops S => (∀ op ∈ ops, op.event.Sized) →
    (∀ a, AddrHistory keccak256 (ops.map HashKOp.event) a (S.get a)) ∧
      S.keys = (ops.map fun op => op.event.addr).toFinset) ?_ ?_ hsized
  · exact fun _ => ⟨fun a => addrHistory_nil, rfl⟩
  · intro ops S op S' ih hstep hsized
    have hstep : exec keccak256 S op = some S' := hstep
    obtain ⟨hhistory, hkeys⟩ := ih fun op hop => hsized op (List.mem_append_left _ hop)
    refine ⟨fun a => ?_, ?_⟩
    · rw [List.map_append]
      exact (hhistory a).step hstep
        (hsized op (List.mem_append_right _ (List.mem_singleton_self _)))
    · obtain ⟨value', rfl, -⟩ := exec_done hstep
      show insert op.event.addr S.keys = _
      rw [hkeys]
      ext k
      simp

end History

end ZkevmProver
