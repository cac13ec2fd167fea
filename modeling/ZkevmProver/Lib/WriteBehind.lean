import ZkevmProver.Lib.Transitions
import Mathlib.Data.Set.Insert
import Mathlib.Data.List.Count

/-!
# Write-behind pipelines

Clients hand entries and the values of one register to a pipeline that stores them later.  What is
accepted waits in a pending buffer; a sender turns the pending buffer into the storing buffer, and
delivers the storing buffer to the store in any number of moves.  A flush gives the client a number;
the pipeline publishes the number up to which it claims that everything is stored.

1. States and steps
2. Where an accepted entry is: `Located` and its step lemma
3. The numbers: `Ordered`
4. Where the last register value is, and what a stored number says about it
5. Runs
-/

namespace WriteBehind

open Transitions

variable {ι ρ : Type*}

/-- A pipeline of entries `ι` with a register of values `ρ`. -/
@[ext] structure State (ι ρ : Type*) where
  pending : Set ι
  pendingReg : Option ρ
  storing : Set ι
  storingReg : Option ρ
  store : Set ι
  storeReg : ρ
  /-- The sender still has to deliver (part of) the storing buffer. -/
  busy : Prop
  lastId : ℕ
  storingId : ℕ
  storedId : ℕ

/-- What a client sees of a step. -/
inductive Label (ι ρ : Type*) where
  | accept (i : ι)
  | put (r : ρ)
  | flush
  | silent

/-- The steps of a pipeline, whose flushes number themselves by `next`. -/
inductive Step (next : ℕ → ℕ → Prop) : State ι ρ → Label ι ρ → State ι ρ → Prop
  | accept (s : State ι ρ) (i : ι) :
      Step next s (.accept i) { s with pending := insert i s.pending }
  | put (s : State ι ρ) (r : ρ) : Step next s (.put r) { s with pendingReg := some r }
  | flush (s : State ι ρ) (n : ℕ) (hn : next s.lastId n) : Step next s .flush { s with lastId := n }
  | stutter (s : State ι ρ) : Step next s .silent s
  /-- There is nothing to send. -/
  | idle (s : State ι ρ) (hb : ¬s.busy) (hp : s.pending = ∅) (hr : s.pendingReg = none) :
      Step next s .silent { s with storedId := s.lastId }
  /-- The pending buffer becomes the storing buffer. -/
  | rotate (s : State ι ρ) (hb : ¬s.busy) :
      Step next s .silent { s with
        pending := ∅, pendingReg := none, storing := s.pending, storingReg := s.pendingReg,
        busy := True, storingId := s.lastId }
  /-- A part of the storing buffer reaches the store. -/
  | progress (s : State ι ρ) (store : Set ι) (storeReg : ρ) (hb : s.busy)
      (hs : s.store ⊆ store) (hr : storeReg = s.storeReg ∨ s.storingReg = some storeReg) :
      Step next s .silent { s with store := store, storeReg := storeReg }
  /-- All of the storing buffer has reached the store. -/
  | deliver (s : State ι ρ) (hb : s.busy) (hs : s.storing ⊆ s.store)
      (hr : ∀ r, s.storingReg = some r → s.storeReg = r) :
      Step next s .silent { s with busy := False, storedId := s.storingId }

variable {next : ℕ → ℕ → Prop} {s t u : State ι ρ} {l : Label ι ρ} {i : ι}

/-! ## Where an accepted entry is -/

/-- The entry is in the store; or in the storing buffer, not yet delivered, while `A` holds; or in
the pending buffer while `B` holds. -/
def Located (A B : State ι ρ → Prop) (i : ι) (s : State ι ρ) : Prop :=
  i ∈ s.store ∨ (A s ∧ s.busy ∧ i ∈ s.storing) ∨ (B s ∧ i ∈ s.pending)

/-- The steps that turn the pending buffer into the storing buffer. -/
def Rotates (s t : State ι ρ) : Prop := ¬s.busy ∧ t.busy

/-- An entry stays located when `A` outlives the steps during a delivery, `B` the steps during which
the entry is pending, and a rotation turns `B` into `A` unless the entry is already stored. -/
theorem Located.step {A B : State ι ρ → Prop} (h : Located A B i s) (hs : Step next s l t)
    (hA : s.busy → t.busy → A s → A t) (hB : i ∈ s.pending → i ∈ t.pending → B s → B t)
    (hrot : Rotates s t → i ∈ s.pending → B s → i ∈ s.store ∨ A t) : Located A B i t := by
  unfold Located Rotates at *
  cases hs with
  | accept j =>
    rcases h with h | ⟨ha, hb, h⟩ | ⟨hb, h⟩
    · exact .inl h
    · exact .inr (.inl ⟨hA hb hb ha, hb, h⟩)
    · have h' : i ∈ insert j s.pending := Set.mem_insert_of_mem _ h
      exact .inr (.inr ⟨hB h h' hb, h'⟩)
  | put | stutter | flush =>
    rcases h with h | ⟨ha, hb, h⟩ | ⟨hb, h⟩
    · exact .inl h
    · exact .inr (.inl ⟨hA hb hb ha, hb, h⟩)
    · exact .inr (.inr ⟨hB h h hb, h⟩)
  | idle hidle hp =>
    rcases h with h | ⟨-, hb, -⟩ | ⟨-, h⟩
    · exact .inl h
    · exact absurd hb hidle
    · simp [hp] at h
  | rotate hidle =>
    rcases h with h | ⟨-, hb, -⟩ | ⟨hb, h⟩
    · exact .inl h
    · exact absurd hb hidle
    · rcases hrot ⟨hidle, trivial⟩ h hb with h' | h'
      · exact .inl h'
      · exact .inr (.inl ⟨h', trivial, h⟩)
  | progress store storeReg hbusy hsub =>
    rcases h with h | ⟨ha, hb, h⟩ | ⟨hb, h⟩
    · exact .inl (hsub h)
    · exact .inr (.inl ⟨hA hb hb ha, hb, h⟩)
    · exact .inr (.inr ⟨hB h h hb, h⟩)
  | deliver hbusy hsub =>
    rcases h with h | ⟨-, -, h⟩ | ⟨hb, h⟩
    · exact .inl h
    · exact .inl (hsub h)
    · exact .inr (.inr ⟨hB h h hb, h⟩)

/-! ## The numbers -/

/-- The order of the three numbers. -/
structure Ordered (s : State ι ρ) : Prop where
  stored_le : s.storedId ≤ s.lastId
  storing_le : s.storingId ≤ s.lastId
  stored_le_storing : s.busy → s.storedId ≤ s.storingId

theorem Ordered.step (h : Ordered s) (hs : Step (· < ·) s l t) : Ordered t := by
  obtain ⟨h₁, h₂, h₃⟩ := h
  cases hs with
  | accept | put | stutter | progress => exact ⟨h₁, h₂, h₃⟩
  | flush n hn => exact ⟨h₁.trans hn.le, h₂.trans hn.le, h₃⟩
  | idle hb => exact ⟨le_rfl, h₂, fun h => absurd h hb⟩
  | rotate => exact ⟨h₁, le_rfl, fun _ => h₁⟩
  | deliver => exact ⟨h₂, h₂, False.elim⟩

theorem Step.lastId_le (hs : Step (· < ·) s l t) : s.lastId ≤ t.lastId := by
  cases hs with
  | flush n hn => exact hn.le
  | _ => exact le_rfl

theorem Step.lastId_eq (hs : Step next s l t) (hl : l ≠ .flush) : t.lastId = s.lastId := by
  cases hs with
  | flush => exact absurd rfl hl
  | _ => rfl

theorem Step.storedId_le (h : Ordered s) (hs : Step next s l t) : s.storedId ≤ t.storedId := by
  cases hs with
  | idle => exact h.stored_le
  | deliver hb => exact h.stored_le_storing hb
  | _ => exact le_rfl

/-- During a delivery the two numbers of the sender stand still. -/
theorem Step.ids_of_busy (hs : Step next s l t) (hb : s.busy) (hb' : t.busy) :
    t.storingId = s.storingId ∧ t.storedId = s.storedId := by
  cases hs with
  | idle h => exact absurd hb h
  | rotate h => exact absurd hb h
  | deliver => exact hb'.elim
  | _ => exact ⟨rfl, rfl⟩

/-- A rotation takes the last number as the storing number. -/
theorem Step.ids_of_rotates (hs : Step next s l t) (h : Rotates s t) :
    t.storingId = s.lastId ∧ t.storedId = s.storedId := by
  obtain ⟨hb, hb'⟩ := h
  cases hs with
  | rotate => exact ⟨rfl, rfl⟩
  | deliver => exact hb'.elim
  | _ => exact absurd hb' hb

/-! ## What the number `f` of a flush waits for -/

/-- An entry accepted before the flush number `f`: while it is not stored, the stored number is
below `f`. -/
abbrev Awaited (f : ℕ) : ι → State ι ρ → Prop :=
  Located (fun s => s.storedId < f) fun s => s.storedId < f ∧ (s.busy → s.storingId < f)

theorem Awaited.step {f : ℕ} (h : Awaited f i s) (hs : Step next s l t) : Awaited f i t := by
  refine Located.step h hs ?_ ?_ ?_
  · intro hb hb' hlt
    rw [(hs.ids_of_busy hb hb').2]
    exact hlt
  · intro hi hi' hlt
    cases hs with
    | idle _ hp => simp [hp] at hi
    | rotate => simp at hi'
    | deliver hb => exact ⟨hlt.2 hb, False.elim⟩
    | _ => exact hlt
  · intro hrot _ hlt
    right
    rw [(hs.ids_of_rotates hrot).2]
    exact hlt.1

/-- Where a register value of the set `G` is on its way to the store, and that no value outside `G`
is behind it, while the stored number is below `f`. -/
def AwaitedReg (G : Set ρ) (f : ℕ) (s : State ι ρ) : Prop :=
  (∀ r, s.pendingReg = some r → r ∈ G) ∧
    ((s.storeReg ∈ G ∧ (s.busy → ∀ r, s.storingReg = some r → r ∈ G)) ∨
      (s.storedId < f ∧ s.busy ∧ ∃ r ∈ G, s.storingReg = some r) ∨
      (s.storedId < f ∧ (s.busy → s.storingId < f) ∧ s.pendingReg.isSome))

theorem AwaitedReg.step {G : Set ρ} {f : ℕ} (h : AwaitedReg G f s) (hs : Step next s l t)
    (hl : ∀ r, l = .put r → r ∈ G) : AwaitedReg G f t := by
  obtain ⟨hp, h⟩ := h
  cases hs with
  | accept | flush | stutter => exact ⟨hp, h⟩
  | put r =>
    refine ⟨?_, ?_⟩
    · rintro r' ⟨⟩
      exact hl r rfl
    · rcases h with h | h | ⟨h₁, h₂, -⟩
      · exact .inl h
      · exact .inr (.inl h)
      · exact .inr (.inr ⟨h₁, h₂, rfl⟩)
  | idle hb _ hr =>
    refine ⟨hp, ?_⟩
    rcases h with h | ⟨-, hb', -⟩ | ⟨-, -, h⟩
    · exact .inl h
    · exact absurd hb' hb
    · simp [hr] at h
  | rotate hb =>
    refine ⟨by simp, ?_⟩
    rcases h with ⟨h, -⟩ | ⟨-, hb', -⟩ | ⟨h₁, -, h⟩
    · exact .inl ⟨h, fun _ => hp⟩
    · exact absurd hb' hb
    · obtain ⟨r, hr⟩ := Option.isSome_iff_exists.mp h
      exact .inr (.inl ⟨h₁, trivial, r, hp r hr, hr⟩)
  | progress store storeReg hb _ hr =>
    refine ⟨hp, ?_⟩
    rcases h with ⟨h₁, h₂⟩ | h | h
    · refine .inl ⟨?_, h₂⟩
      rcases hr with rfl | hr
      · exact h₁
      · exact h₂ hb _ hr
    · exact .inr (.inl h)
    · exact .inr (.inr h)
  | deliver hb _ hr =>
    refine ⟨hp, ?_⟩
    rcases h with ⟨h, -⟩ | ⟨-, -, r, hG, h⟩ | ⟨-, h₂, h₃⟩
    · exact .inl ⟨h, False.elim⟩
    · refine .inl ⟨?_, False.elim⟩
      rw [hr r h]
      exact hG
    · exact .inr (.inr ⟨h₂ hb, False.elim, h₃⟩)

/-! ## Where the last register value is -/

/-- The last value handed over, if there was one, is the newest of the pending buffer, the storing
buffer and the store. -/
def LatestReg (last : Option ρ) (s : State ι ρ) : Prop :=
  ∀ r, last = some r →
    s.pendingReg = some r ∨
      (s.pendingReg = none ∧ s.busy ∧ s.storingReg = some r) ∨
      (s.pendingReg = none ∧ (s.busy → s.storingReg = none) ∧ s.storeReg = r)

/-- The last value of the register after one more step. -/
def Label.lastReg (last : Option ρ) : Label ι ρ → Option ρ
  | .put r => some r
  | _ => last

theorem LatestReg.step {last : Option ρ} (h : LatestReg last s) (hs : Step next s l t) :
    LatestReg (l.lastReg last) t := by
  intro r hr
  cases hs with
  | put => exact .inl hr
  | accept | flush | stutter => exact h r hr
  | idle => exact h r hr
  | rotate hb =>
    rcases h r hr with h | ⟨-, hb', -⟩ | ⟨h, -, hr⟩
    · exact .inr (.inl ⟨rfl, trivial, h⟩)
    · exact absurd hb' hb
    · exact .inr (.inr ⟨rfl, fun _ => h, hr⟩)
  | progress store storeReg hb _ hstore =>
    rcases h r hr with h | h | ⟨h, hnone, hr⟩
    · exact .inl h
    · exact .inr (.inl h)
    · refine .inr (.inr ⟨h, hnone, ?_⟩)
      rcases hstore with rfl | hstore
      · exact hr
      · rw [hnone hb] at hstore
        cases hstore
  | deliver hb _ hstore =>
    rcases h r hr with h | ⟨h, -, hr⟩ | ⟨h, hnone, hr⟩
    · exact .inl h
    · exact .inr (.inr ⟨h, False.elim, hstore r hr⟩)
    · exact .inr (.inr ⟨h, False.elim, hr⟩)

/-! ## Runs -/

/-- A pipeline that has accepted nothing. -/
structure Fresh (s : State ι ρ) : Prop where
  pending : s.pending = ∅
  pendingReg : s.pendingReg = none
  busy : ¬s.busy
  lastId : s.lastId = 0
  storingId : s.storingId = 0
  storedId : s.storedId = 0

/-- The last register value of a list of labels. -/
def lastReg (ls : List (Label ι ρ)) : Option ρ := ls.foldl Label.lastReg none

variable {s₀ : State ι ρ} {ls ls₁ ls₂ : List (Label ι ρ)}

theorem ordered_of_run (h : Run (Step (· < ·)) s₀ ls s) (h₀ : Fresh s₀) : Ordered s := by
  refine h.invariant ?_ fun _ _ _ hu hs => hu.step hs
  constructor
  · exact (h₀.storedId.trans h₀.lastId.symm).le
  · exact (h₀.storingId.trans h₀.lastId.symm).le
  · exact fun hb => absurd hb h₀.busy

/-- The last number and the stored number never decrease. -/
theorem ids_mono (h : Run (Step (· < ·)) s ls t) (hs : Ordered s) :
    s.lastId ≤ t.lastId ∧ s.storedId ≤ t.storedId := by
  have key : Ordered t ∧ s.lastId ≤ t.lastId ∧ s.storedId ≤ t.storedId := by
    refine h.invariant (P := fun v => Ordered v ∧ s.lastId ≤ v.lastId ∧ s.storedId ≤ v.storedId)
      ⟨hs, le_rfl, le_rfl⟩ ?_
    rintro u l v ⟨hu, h₁, h₂⟩ hstep
    exact ⟨hu.step hstep, h₁.trans hstep.lastId_le, h₂.trans (hstep.storedId_le hu)⟩
  exact key.2

/-- Entries stay located from the step that accepts them on. -/
theorem located_of_run {R : State ι ρ → Label ι ρ → State ι ρ → Prop}
    {A B : State ι ρ → Prop} (hR : ∀ s l t, R s l t → Step next s l t)
    (hacc : ∀ s l t, R s l t → l = .accept i → B t)
    (hstep : ∀ s l t, R s l t → Located A B i s → Located A B i t)
    (h : Run R s₀ ls s) (hi : .accept i ∈ ls) : Located A B i s := by
  refine h.history (P := fun ls s => .accept i ∈ ls → Located A B i s) (by simp) ?_ hi
  intro ls u l v ih hs hmem
  rcases List.mem_append.mp hmem with hmem | hmem
  · exact hstep u l v hs (ih hmem)
  · obtain rfl : .accept i = l := by simpa using hmem
    have hB := hacc u _ v hs rfl
    have hs := hR u _ v hs
    cases hs
    exact .inr (.inr ⟨hB, Set.mem_insert _ _⟩)

/-- No accepted entry is ever dropped. -/
theorem kept (h : Run (Step next) s₀ ls s) (hi : .accept i ∈ ls) :
    Located (fun _ => True) (fun _ => True) i s := by
  refine located_of_run (R := Step next) (fun _ _ _ hs => hs) (fun _ _ _ _ _ => trivial) ?_ h hi
  intro u l v hs hu
  exact hu.step hs (fun _ _ _ => trivial) (fun _ _ _ => trivial) fun _ _ _ => .inr trivial

/-- The last register value handed over is never lost. -/
theorem latestReg_of_run (h : Run (Step next) s₀ ls s) : LatestReg (lastReg ls) s := by
  refine h.history (P := fun ls s => LatestReg (lastReg ls) s) ?_ ?_
  · intro r hr
    cases hr
  · intro ls u l v hu hs
    have := hu.step hs
    rwa [show l.lastReg (lastReg ls) = lastReg (ls ++ [l]) by simp [lastReg]] at this

section

variable {r : ρ} (h₁ : Run (Step (· < ·)) s₀ ls₁ s) (h₀ : Fresh s₀) (hs : Step (· < ·) s .flush u)
  (h₂ : Run (Step (· < ·)) u ls₂ t) (hid : u.lastId ≤ t.storedId)

include h₁ h₀ hs

/-- The numbers in use are below the one that a flush gives. -/
theorem lt_flush : s.storedId < u.lastId ∧ s.storingId < u.lastId := by
  have hord := ordered_of_run h₁ h₀
  cases hs with
  | flush n hn => exact ⟨hord.stored_le.trans_lt hn, hord.storing_le.trans_lt hn⟩

include h₂ hid

/-- When the stored number has reached the number of a flush, everything accepted before the flush
is in the store. -/
theorem stored_of_flushed (hi : .accept i ∈ ls₁) : i ∈ t.store := by
  obtain ⟨hlt, hlt'⟩ := lt_flush h₁ h₀ hs
  have hawait : Awaited u.lastId i s := by
    rcases kept h₁ hi with h | ⟨-, hb, h⟩ | ⟨-, h⟩
    · exact .inl h
    · exact .inr (.inl ⟨hlt, hb, h⟩)
    · exact .inr (.inr ⟨⟨hlt, fun _ => hlt'⟩, h⟩)
  have ht : Awaited u.lastId i t :=
    h₂.invariant (hawait.step hs) fun _ _ _ hu hstep => Awaited.step hu hstep
  rcases ht with h | ⟨hlt, -⟩ | ⟨⟨hlt, -⟩, -⟩
  · exact h
  · exact absurd hid hlt.not_ge
  · exact absurd hid hlt.not_ge

/-- When the stored number has reached the number of a flush, the register in the store holds the
last value handed over before the flush, or one handed over later. -/
theorem reg_of_flushed (hr : lastReg ls₁ = some r) : t.storeReg = r ∨ .put t.storeReg ∈ ls₂ := by
  obtain ⟨hlt, hlt'⟩ := lt_flush h₁ h₀ hs
  let G : Set ρ := {r' | r' = r ∨ .put r' ∈ ls₂}
  have hG : r ∈ G := .inl rfl
  have hawait : AwaitedReg G u.lastId s := by
    rcases latestReg_of_run h₁ r hr with h | ⟨h, hb, hst⟩ | ⟨h, hnone, hst⟩
    · refine ⟨?_, .inr (.inr ⟨hlt, fun _ => hlt', by simp [h]⟩)⟩
      intro r' hr'
      rwa [← Option.some.inj (h.symm.trans hr')]
    · exact ⟨by simp [h], .inr (.inl ⟨hlt, hb, r, hG, hst⟩)⟩
    · refine ⟨by simp [h], .inl ⟨hst ▸ hG, ?_⟩⟩
      intro hb r' hr'
      rw [hnone hb] at hr'
      cases hr'
  have ht : (∀ r', .put r' ∈ ls₂ → r' ∈ G) → AwaitedReg G u.lastId t := by
    refine h₂.history (P := fun ls v => (∀ r', .put r' ∈ ls → r' ∈ G) → AwaitedReg G u.lastId v)
      (fun _ => hawait.step hs (by simp)) ?_
    intro ls v l w ih hstep hls
    refine (ih fun r' h => hls r' (by simp [h])).step hstep ?_
    rintro r' rfl
    exact hls r' (by simp)
  rcases (ht fun r' h => .inr h).2 with ⟨h, -⟩ | ⟨hlt, -⟩ | ⟨hlt, -⟩
  · exact h
  · exact absurd hid hlt.not_ge
  · exact absurd hid hlt.not_ge

end

end WriteBehind
