import ZkevmProver.MainSM.HashKTable
import ZkevmProver.XKCP.Keccak

/-!
# Which Keccak operations are proved

Every operation that the main executor accepts should have its counterpart in the table of
`PaddingKKExecutor`.  It has, as long as reads do not overlap, messages do not grow behind an
operation for their length, digests are asked for after it, and the table has room.

  1. How a message grows.
  2. The table after a run.
  3. When all operations are proved.
-/

namespace ZkevmProver

open BigEndian MainExecutor HashKEvent HashMessageInput

/-! ## How a message grows -/

namespace HashKEvent

theorem message_append (before after : List HashKEvent) (a : ℕ) :
    ∃ more, message (before ++ after) a = message before a ++ more := by
  induction after using List.reverseRecOn with
  | nil => exact ⟨[], by rw [List.append_nil, List.append_nil]⟩
  | append_singleton after e ih =>
    obtain ⟨more, hmore⟩ := ih
    rw [← List.append_assoc, message_concat, hmore]
    cases e with
    | read addr pos size v =>
      show ∃ more', (if addr = a then _ else _) = _
      split
      · exact ⟨_, List.append_assoc _ _ _⟩
      · exact ⟨more, rfl⟩
    | len addr length => exact ⟨more, rfl⟩
    | digest addr dg => exact ⟨more, rfl⟩

/-- Reads of bytes that are there do not change a message. -/
theorem message_eq {before after : List HashKEvent} {a : ℕ}
    (h : ∀ pos size v, .read a pos size v ∈ after → pos + size ≤ (message before a).length) :
    message (before ++ after) a = message before a := by
  induction after using List.reverseRecOn with
  | nil => rw [List.append_nil]
  | append_singleton after e ih =>
    rw [← List.append_assoc, message_concat,
      ih fun pos size v hv => h pos size v (List.mem_append_left _ hv)]
    cases e with
    | read addr pos size v =>
      show (if addr = a then _ else _) = _
      split
      · next haddr =>
        subst haddr
        have hend := h pos size v (List.mem_append_right _ (List.mem_singleton_self _))
        rw [List.drop_eq_nil_iff.mpr (by rw [length_bytes]; omega), List.append_nil]
      · rfl
    | len addr length => rfl
    | digest addr dg => rfl

end HashKEvent

/-! ## The table after a run -/

/-- The rows that a message takes. -/
def paddedLength (bytes : List UInt8) : ℕ := 136 * (bytes.length / 136 + 1)

/-- One behind the last address that is used. -/
def HashKEvent.addressCount (events : List HashKEvent) : ℕ :=
  (events.map HashKEvent.addr).toFinset.sup Nat.succ

/-- The messages of addresses, as they are handed over. -/
def messageInputs (S : HashValues) : List HashMessageInput :=
  (List.range (addresses S)).map fun a => messageInput (S.get a)

section Run

variable {keccak256 : List UInt8 → ℕ} {events : List HashKEvent} {S : HashValues}
  {messages : List HashMessageInput} {SK : HashPadder.State Unit}

/-- Messages that are not refused have room. -/
theorem total_le_of_execute
    (h : PaddingKKExecutor.execute keccak256 (messages.map input) = some SK) :
    total (multiRatePadding 136) messages ≤ 2376 * 136 := by
  have hprepare : (PaddingKKExecutor.padder keccak256).prepareInput (messages.map input) =
      some (messages.map (prepared (multiRatePadding 136) keccak256)) := by
    refine mapM_prepared fun m _ => ?_
    show some _ = some _
    rw [prepared, padded, ← pad10_eq (by decide)]
    rfl
  obtain ⟨all, hall, h⟩ := Option.bind_eq_some_iff.mp h
  obtain rfl := Option.some_inj.mp (hprepare.symm.trans hall)
  obtain ⟨hroom, -⟩ := Option.ite_none_left_eq_some.mp h
  have hroom : ¬decide (totalInputBytes
    (messages.map (prepared (multiRatePadding 136) keccak256)) > 2376 * 136) = true := hroom
  rw [decide_eq_true_iff, totalInputBytes_prepared] at hroom
  omega

/-- Messages that have room are not refused, and their rows are in the table. -/
theorem table_of_total_le (keccak256 : List UInt8 → ℕ)
    (htile : ∀ m ∈ messages, Tiling m.reads m.bytes.length)
    (h : total (multiRatePadding 136) messages ≤ 2376 * 136) :
    ∃ n SK, PaddingKKExecutor.execute keccak256 (messages.map input) = some SK ∧
      HashKTable keccak256 (messages ++ List.replicate n HashMessageInput.empty) SK.pols := by
  obtain ⟨n, SK, hSK, htotal, -, hmsg, hrows⟩ :=
    HashPadder.execute_messages (PaddingKKExecutor.lawful keccak256)
      (fun m _ => PaddingKKExecutor.pad_eq keccak256 m.bytes)
      (PaddingKKExecutor.pad_eq keccak256 []) (PaddingKKExecutor.closing_prepared keccak256 h) htile
      (decide_eq_false (Nat.not_lt.mpr h)) h
  refine ⟨n, SK, hSK, htotal, hmsg, fun q hq hN => (hrows q ?_ hN).addr⟩
  rw [htotal]
  exact hq

variable (hhistory : ∀ a, AddrHistory keccak256 events a (S.get a))
include hhistory

theorem total_messageInputs : total (multiRatePadding 136) (messageInputs S) =
    ((List.range (addresses S)).map fun a => paddedLength (message events a)).sum := by
  rw [total, messageInputs, List.map_map]
  congr 1
  refine List.map_congr_left fun a _ => ?_
  show ((messageInput (S.get a)).padded (multiRatePadding 136)).length = _
  rw [length_padded, paddedLength, ← (hhistory a).data]
  rfl

/-- The reads of a message have at most 32 bytes. -/
theorem tiling_messageInput {a : ℕ}
    (hsum : (messageInput (S.get a)).reads.sum = (S.get a).data.length) :
    Tiling (messageInput (S.get a)).reads (messageInput (S.get a)).bytes.length :=
  ⟨tileReads_sizes (fun pos size hp => ((hhistory a).reads pos size hp).2.1) 0, hsum⟩

end Run

/-- A run with the table that its messages give. -/
structure HashKRun (keccak256 : List UInt8 → ℕ) (events : List HashKEvent) (S : HashValues)
    (all : List HashMessageInput) (pols : ℕ → PaddingHashRow Unit) : Prop where
  history : ∀ a, AddrHistory keccak256 events a (S.get a)
  table : HashKTable keccak256 all pols
  used : ∀ e ∈ events, e.addr < addresses S
  messages : ∀ a < addresses S, ∃ ha : a < all.length, all[a] = messageInput (S.get a)
  tiled : ∀ a < addresses S, (messageInput (S.get a)).reads.sum = (S.get a).data.length

/-! ## When all operations are proved -/

/-- Reads of a message do not overlap, unless they start at the same byte; after an operation for the
length, reads stay within the message; an operation for the length comes before one for the digest,
unless the digest is zero; and the padded messages fit in the table. -/
structure HashKProvable (keccak256 : List UInt8 → ℕ) (events : List HashKEvent) : Prop where
  disjoint : ∀ a pos size v pos' size' v', .read a pos size v ∈ events →
    .read a pos' size' v' ∈ events → pos < pos' → pos + size ≤ pos'
  len : ∀ before a length after, events = before ++ .len a length :: after →
    ∀ pos size v, .read a pos size v ∈ after → pos + size ≤ length
  digest : ∀ before a dg after, events = before ++ .digest a dg :: after →
    (∃ length, .len a length ∈ before) ∨ keccak256 (message events a) = 0
  fits : ((List.range (addressCount events)).map fun a => paddedLength (message events a)).sum ≤
    2376 * 136

section Proved

variable {keccak256 : List UInt8 → ℕ} {events : List HashKEvent} {S : HashValues}
  {all : List HashMessageInput} {pols : ℕ → PaddingHashRow Unit}
  (h : HashKRun keccak256 events S all pols)
include h

theorem HashKRun.read_iff {a pos size v : ℕ} (he : .read a pos size v ∈ events) :
    Emitted pols (.read a pos size v) ↔
      ∃ c, readStart (messageInput (S.get a)).reads c = pos ∧
        readSize (messageInput (S.get a)).reads c = size := by
  have hused : a < addresses S := h.used _ he
  obtain ⟨ha, hmessage⟩ := h.messages a hused
  obtain ⟨hend, hv, hread⟩ := (h.history a).read pos size v he
  have hsize := ((h.history a).reads pos size hread).1
  have htile := tiling_messageInput h.history (h.tiled a hused)
  have hend : pos + size ≤ (messageInput (S.get a)).bytes.length := hend
  have hv : value (slice (messageInput (S.get a)).bytes pos (pos + size)) = v := hv
  rw [← hmessage] at htile hend hv ⊢
  exact h.table.read_iff ha htile hsize hend hv

/-- A message is shorter than the table. -/
theorem HashKRun.length_lt {a : ℕ} (ha : a < addresses S) :
    (message events a).length < 2 ^ 61 := by
  obtain ⟨ha, hmessage⟩ := h.messages a ha
  obtain ⟨hend, hlt⟩ := h.table.row_lt ha
  have hdata : (message events a).length = all[a].bytes.length := by
    rw [hmessage, ← (h.history a).data]
    rfl
  omega

theorem HashKRun.len_iff {a length : ℕ} (he : .len a length ∈ events) :
    Emitted pols (.len a length) ↔ (message events a).length = length := by
  have hused : a < addresses S := h.used _ he
  obtain ⟨ha, hmessage⟩ := h.messages a hused
  obtain ⟨before, after, hsplit⟩ := List.append_of_mem he
  have hlength := (h.history a).len before length after hsplit
  have hsmall : length < 2 ^ 61 := by
    obtain ⟨more, hmore⟩ := message_append before (.len a length :: after) a
    have hlt := h.length_lt hused
    rw [hsplit, hmore, List.length_append] at hlt
    omega
  have hiff := h.table.len_iff ha hsmall
  rw [hmessage] at hiff
  rw [hiff, ← (h.history a).data]
  exact and_iff_right ((h.history a).lenCalled length he)

theorem HashKRun.digest_iff (hlt : ∀ bytes, keccak256 bytes < 2 ^ 256) {a dg : ℕ}
    (he : .digest a dg ∈ events) :
    Emitted pols (.digest a dg) ↔ keccak256 (message events a) = dg := by
  obtain ⟨ha, hmessage⟩ := h.messages a (h.used _ he)
  obtain ⟨before, after, hsplit⟩ := List.append_of_mem he
  have hdg : dg < 2 ^ 256 := by
    rcases (h.history a).digest before dg after hsplit with ⟨_, _, _, -, rfl⟩ | ⟨-, rfl⟩
    · exact hlt _
    · decide
  have hiff := h.table.digest_iff ha (hlt _) hdg
  rw [hmessage] at hiff
  rw [hiff, ← (h.history a).data]
  exact and_iff_right ((h.history a).digestCalled dg he)

/-- A message is complete where its length is asked for. -/
theorem HashKRun.message_eq_of_provable (hp : HashKProvable keccak256 events)
    {before after : List HashKEvent} {a length : ℕ}
    (hsplit : events = before ++ .len a length :: after) :
    message events a = message before a := by
  rw [hsplit]
  refine message_eq fun pos size v hv => ?_
  rw [(h.history a).len before length after hsplit]
  rcases List.mem_cons.mp hv with hv | hv
  · exact nomatch hv
  · exact hp.len before a length after hsplit pos size v hv

/-- All operations have their counterparts. -/
theorem HashKRun.emitted (hlt : ∀ bytes, keccak256 bytes < 2 ^ 256)
    (hp : HashKProvable keccak256 events) {e : HashKEvent} (he : e ∈ events) : e.Emitted pols := by
  cases e with
  | read a pos size v =>
    obtain ⟨hend, -, hread⟩ := (h.history a).read pos size v he
    have hsize := ((h.history a).reads pos size hread).1
    have hdisj (p n p' n' : ℕ) (hp' : (S.get a).reads p = some n)
        (hp'' : (S.get a).reads p' = some n') (hlt : p < p') : p + n ≤ p' := by
      obtain ⟨-, -, v, hv⟩ := (h.history a).reads p n hp'
      obtain ⟨-, -, v', hv'⟩ := (h.history a).reads p' n' hp''
      exact hp.disjoint a p n v p' n' v' hv hv' hlt
    obtain ⟨c, hc, hsum, hget⟩ :=
      tileReads_found (fun p n hp' => ((h.history a).reads p n hp').1) hdisj hread
        (by omega : pos < (S.get a).data.length) 0
        (fun _ _ _ hq => absurd hq (Nat.not_lt_zero _)) (Nat.zero_le _)
    rw [h.read_iff he]
    refine ⟨c, ?_, ?_⟩
    · rw [← hsum, Nat.zero_add]
      exact readStart_eq_sum (Nat.le_of_lt hc)
    · exact (List.getD_eq_getElem _ _ hc).trans hget
  | len a length =>
    obtain ⟨before, after, hsplit⟩ := List.append_of_mem he
    rw [h.len_iff he, h.message_eq_of_provable hp hsplit]
    exact (h.history a).len before length after hsplit
  | digest a dg =>
    obtain ⟨before, after, hsplit⟩ := List.append_of_mem he
    rw [h.digest_iff hlt he]
    rcases (h.history a).digest before dg after hsplit with
      ⟨before', length, after', hbefore, hdg⟩ | ⟨hnone, rfl⟩
    · have hsplit' : events = before' ++ .len a length :: (after' ++ .digest a dg :: after) := by
        rw [hsplit, hbefore, List.append_assoc]
        rfl
      rw [h.message_eq_of_provable hp hsplit', hdg]
    · refine (hp.digest before a 0 after hsplit).resolve_left ?_
      rintro ⟨length, hlen⟩
      exact hnone length hlen

/-- Reads that have their counterparts tile the message. -/
theorem HashKRun.disjoint (hall : ∀ e ∈ events, e.Emitted pols) {a pos size v pos' size' v' : ℕ}
    (he : .read a pos size v ∈ events) (he' : .read a pos' size' v' ∈ events) (hlt : pos < pos') :
    pos + size ≤ pos' := by
  obtain ⟨c, hstart, hsize⟩ := (h.read_iff he).mp (hall _ he)
  obtain ⟨c', hstart', -⟩ := (h.read_iff he').mp (hall _ he')
  have hcc : c < c' := by
    by_contra hle
    have hmono := readStart_mono (messageInput (S.get a)).reads (Nat.not_lt.mp hle)
    omega
  have hmono := readStart_mono (messageInput (S.get a)).reads (c := c + 1) hcc
  rwa [readStart_succ, hstart, hsize, hstart'] at hmono

/-- The message is complete where its length is asked for, as the table has one length only. -/
theorem HashKRun.len (hall : ∀ e ∈ events, e.Emitted pols) {before after : List HashKEvent}
    {a length : ℕ} (hsplit : events = before ++ .len a length :: after) {pos size v : ℕ}
    (he : .read a pos size v ∈ after) : pos + size ≤ length := by
  have hlen : .len a length ∈ events := by
    rw [hsplit]
    exact List.mem_append_right _ (List.mem_cons_self ..)
  have hread : .read a pos size v ∈ events := by
    rw [hsplit]
    exact List.mem_append_right _ (List.mem_cons_of_mem _ he)
  have hend := ((h.history a).read pos size v hread).1
  rwa [(h.history a).data, (h.len_iff hlen).mp (hall _ hlen)] at hend

/-- A digest that was not computed is zero. -/
theorem HashKRun.digest (hlt : ∀ bytes, keccak256 bytes < 2 ^ 256)
    (hall : ∀ e ∈ events, e.Emitted pols) {before after : List HashKEvent} {a dg : ℕ}
    (hsplit : events = before ++ .digest a dg :: after) :
    (∃ length, .len a length ∈ before) ∨ keccak256 (message events a) = 0 := by
  have he : .digest a dg ∈ events := by
    rw [hsplit]
    exact List.mem_append_right _ (List.mem_cons_self ..)
  have hdigest := (h.digest_iff hlt he).mp (hall _ he)
  rcases (h.history a).digest before dg after hsplit with
    ⟨before', length, after', rfl, -⟩ | ⟨-, rfl⟩
  · exact .inl ⟨length, List.mem_append_right _ (List.mem_cons_self ..)⟩
  · exact .inr hdigest

end Proved

section Accepted

variable {keccak256 : List UInt8 → ℕ} {ops : List HashKOp} {S : HashValues}
  {messages : List PaddingExecutorInput}

theorem fits_iff (hrun : execAll keccak256 ops = some S) (hsized : ∀ op ∈ ops, op.event.Sized) :
    total (multiRatePadding 136) (messageInputs S) ≤ 2376 * 136 ↔
      ((List.range (addressCount (ops.map HashKOp.event))).map fun a =>
        paddedLength (message (ops.map HashKOp.event) a)).sum ≤ 2376 * 136 := by
  obtain ⟨hhistory, hkeys⟩ := history_run hrun hsized
  have hcount : addressCount (ops.map HashKOp.event) = addresses S := by
    rw [addressCount, List.map_map, addresses, hkeys]
    rfl
  rw [total_messageInputs hhistory, hcount]

variable (hrun : execAll keccak256 ops = some S) (hpadding : paddingKK S = some messages)
  (hsized : ∀ op ∈ ops, op.event.Sized)
include hrun hpadding hsized

/-- The table of the messages that are handed over. -/
theorem hashKRun {SK : HashPadder.State Unit}
    (hSK : PaddingKKExecutor.execute keccak256 messages = some SK) :
    ∃ all, HashKRun keccak256 (ops.map HashKOp.event) S all SK.pols := by
  obtain ⟨hhistory, hkeys⟩ := history_run hrun hsized
  obtain ⟨hmessages, htiled⟩ := paddingKK_some hpadding
  have hmessages : messages = (messageInputs S).map input := hmessages
  subst hmessages
  have htile : ∀ m ∈ messageInputs S, Tiling m.reads m.bytes.length := by
    intro m hm
    obtain ⟨a, ha, rfl⟩ := List.mem_map.mp hm
    exact tiling_messageInput hhistory (htiled a (List.mem_range.mp ha))
  obtain ⟨n, SK', hSK', htable⟩ :=
    table_of_total_le keccak256 htile (total_le_of_execute hSK)
  obtain rfl := Option.some_inj.mp (hSK.symm.trans hSK')
  refine ⟨_, hhistory, htable, fun e he => ?_, fun a ha => ?_, htiled⟩
  · obtain ⟨op, hop, rfl⟩ := List.mem_map.mp he
    refine Finset.le_sup (f := Nat.succ) ?_
    rw [hkeys, List.mem_toFinset]
    exact List.mem_map_of_mem hop
  · have hlen : a < (messageInputs S).length := by
      rwa [messageInputs, List.length_map, List.length_range]
    refine ⟨by rw [List.length_append]; omega, ?_⟩
    rw [List.getElem_append_left hlen]
    simp [messageInputs]

/-- What is missing where not all operations are proved. -/
theorem hashKProvable_of_emitted (hlt : ∀ bytes, keccak256 bytes < 2 ^ 256)
    {SK : HashPadder.State Unit} (hSK : PaddingKKExecutor.execute keccak256 messages = some SK)
    (hall : ∀ op ∈ ops, op.event.Emitted SK.pols) :
    HashKProvable keccak256 (ops.map HashKOp.event) := by
  obtain ⟨all, h⟩ := hashKRun hrun hpadding hsized hSK
  have hall : ∀ e ∈ ops.map HashKOp.event, e.Emitted SK.pols := List.forall_mem_map.mpr hall
  refine ⟨fun a pos size v pos' size' v' he he' => h.disjoint hall he he',
    fun before a length after hsplit pos size v he => h.len hall hsplit he,
    fun before a dg after hsplit => h.digest hlt hall hsplit, ?_⟩
  rw [← fits_iff hrun hsized]
  obtain ⟨rfl, -⟩ := paddingKK_some hpadding
  exact total_le_of_execute hSK

/-- All operations are proved where nothing is missing. -/
theorem emitted_of_hashKProvable (hlt : ∀ bytes, keccak256 bytes < 2 ^ 256)
    (hp : HashKProvable keccak256 (ops.map HashKOp.event)) :
    ∃ SK, PaddingKKExecutor.execute keccak256 messages = some SK ∧
      ∀ op ∈ ops, op.event.Emitted SK.pols := by
  have hfits := (fits_iff hrun hsized).mpr hp.fits
  have hhistory := (history_run hrun hsized).1
  obtain ⟨hmessages, htiled⟩ := paddingKK_some hpadding
  have htile : ∀ m ∈ messageInputs S, Tiling m.reads m.bytes.length := by
    intro m hm
    obtain ⟨a, ha, rfl⟩ := List.mem_map.mp hm
    exact tiling_messageInput hhistory (htiled a (List.mem_range.mp ha))
  obtain ⟨n, SK, hSK, -⟩ := table_of_total_le keccak256 htile hfits
  have hSK : PaddingKKExecutor.execute keccak256 messages = some SK := by rwa [hmessages]
  obtain ⟨all, h⟩ := hashKRun hrun hpadding hsized hSK
  exact ⟨SK, hSK, fun op hop => h.emitted hlt hp (List.mem_map_of_mem hop)⟩

end Accepted

/-- A message at address 0 whose first read is as long as the message. -/
theorem paddingKK_single {S : HashValues} {size : ℕ} (hkeys : S.keys = {0}) (hsize : 0 < size)
    (hlength : (S.get 0).data.length = size) (hread : (S.get 0).reads 0 = some size) :
    ∃ messages, paddingKK S = some messages := by
  have hcount : addresses S = 1 := by
    rw [addresses, hkeys]
    rfl
  have htile : tileReads size (S.get 0).reads 0 = ([size], size) := by
    have hfirst : tileSize (S.get 0).reads 0 = size := by
      rw [tileSize, hread]
      exact if_pos hsize.ne'
    rw [tileReads_lt hsize, hfirst, Nat.zero_add, tileReads, if_neg (Nat.lt_irrefl size)]
  rw [paddingKK_eq, hcount]
  show ∃ messages, ((paddingKKMessage (S.get 0)).bind fun h => some [h]) = some messages
  rw [paddingKKMessage, hlength, htile]
  dsimp only
  rw [if_neg (not_not_intro rfl)]
  exact ⟨_, rfl⟩

/-- Which runs are proved: those where reads do not overlap, messages do not grow after an operation
for their length, digests are asked for after it, and the table has room. -/
theorem hashK_proved_iff (KeccakF1600 : KeccakState → KeccakState) {ops : List HashKOp}
    {S : HashValues} {messages : List PaddingExecutorInput}
    (hrun : execAll (keccak256 KeccakF1600) ops = some S) (hpadding : paddingKK S = some messages)
    (hsized : ∀ op ∈ ops, op.event.Sized) :
    (∃ SK, PaddingKKExecutor.execute (keccak256 KeccakF1600) messages = some SK ∧
      ∀ op ∈ ops, op.event.Emitted SK.pols) ↔
      HashKProvable (keccak256 KeccakF1600) (ops.map HashKOp.event) := by
  have hlt := keccak256_lt KeccakF1600
  constructor
  · rintro ⟨SK, hSK, hall⟩
    exact hashKProvable_of_emitted hrun hpadding hsized hlt hSK hall
  · exact emitted_of_hashKProvable hrun hpadding hsized hlt

/-- Two bytes that are read at once, and then their length. -/
theorem hashK_proved_iff_two :
    let ops : List HashKOp := [.hashK 0 2 0 (scalar2fea 0x0102), .hashKLen 0 2]
    ∃ S messages, execAll (keccak256 id) ops = some S ∧ paddingKK S = some messages ∧
      ∃ SK, PaddingKKExecutor.execute (keccak256 id) messages = some SK ∧
        ∀ op ∈ ops, op.event.Emitted SK.pols := by
  intro ops
  obtain ⟨S, hS⟩ : ∃ S, execAll (keccak256 id) ops = some S := ⟨_, rfl⟩
  have hsized : ∀ op ∈ ops, op.event.Sized := by decide
  obtain ⟨hhistory, hkeys⟩ := history_run hS hsized
  have hread := (hhistory 0).read 0 2 0x0102 (by decide)
  obtain ⟨messages, hmessages⟩ := paddingKK_single hkeys (by decide : 0 < 2)
    (by rw [(hhistory 0).data]; decide) hread.2.2
  refine ⟨S, messages, hS, hmessages, (hashK_proved_iff id hS hmessages hsized).mpr ?_⟩
  have hevents : ops.map HashKOp.event = [.read 0 0 2 0x0102, .len 0 2] := by decide
  rw [hevents]
  refine ⟨?_, ?_, ?_, by decide⟩
  · intro a pos size v pos' size' v' he he' hlt
    simp only [List.mem_cons, HashKEvent.read.injEq, reduceCtorEq, List.not_mem_nil,
      or_false] at he he'
    omega
  · intro before a length after hsplit pos size v he
    have hsplit : [HashKEvent.read 0 0 2 0x0102] ++ [.len 0 2] = before ++ .len a length :: after :=
      hsplit
    rcases split_concat hsplit with ⟨after', -, hbefore⟩ | ⟨rfl, -, -⟩
    · have hmem : HashKEvent.len a length ∈ [HashKEvent.read 0 0 2 0x0102] := by
        rw [hbefore]
        exact List.mem_append_right _ (List.mem_cons_self ..)
      simp at hmem
    · exact absurd he List.not_mem_nil
  · intro before a dg after hsplit
    have hmem : HashKEvent.digest a dg ∈ [HashKEvent.read 0 0 2 0x0102, .len 0 2] := by
      rw [hsplit]
      exact List.mem_append_right _ (List.mem_cons_self ..)
    simp at hmem

/-- A read within an earlier one has no counterpart, as only the first one is handed over. -/
theorem hashK_overlapping_not_proved : ¬∀ (KeccakF1600 : KeccakState → KeccakState)
    (ops : List HashKOp) (S : HashValues) (messages : List PaddingExecutorInput),
    execAll (keccak256 KeccakF1600) ops = some S → paddingKK S = some messages →
      (∀ op ∈ ops, op.event.Sized) →
      ∃ SK, PaddingKKExecutor.execute (keccak256 KeccakF1600) messages = some SK ∧
        ∀ op ∈ ops, op.event.Emitted SK.pols := by
  intro hall
  obtain ⟨S, hS⟩ : ∃ S, execAll (keccak256 id)
      [.hashK 0 2 0 (scalar2fea 0x0102), .hashK1 0 1 (scalar2fea 0x02)] = some S := ⟨_, rfl⟩
  have hsized : ∀ op ∈ [HashKOp.hashK 0 2 0 (scalar2fea 0x0102), .hashK1 0 1 (scalar2fea 0x02)],
    op.event.Sized := by decide
  obtain ⟨messages, hmessages⟩ : ∃ messages, paddingKK S = some messages := by
    obtain ⟨hhistory, hkeys⟩ := history_run hS hsized
    exact paddingKK_single hkeys (by decide : 0 < 2) (by rw [(hhistory 0).data]; decide)
      ((hhistory 0).read 0 2 0x0102 (by decide)).2.2
  obtain ⟨SK, hSK, hemitted⟩ := hall id _ S messages hS hmessages hsized
  have hp := hashKProvable_of_emitted hS hmessages hsized (keccak256_lt id) hSK hemitted
  have hdisj := hp.disjoint 0 0 2 0x0102 1 1 0x02 (by decide) (by decide) (by decide)
  exact absurd hdisj (by decide)

end ZkevmProver
