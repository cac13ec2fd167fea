import Mathlib.Data.List.Perm.Subperm
import Mathlib.Tactic.Common

/-!
# Canonical binary prefix tries

A trie over keys read bit by bit.  A leaf keeps its full key, and sits at the highest level at which
no other key shares its prefix.  Such a trie is determined by the map it represents (`WF.ext`).

  1. The trie, its keys, lookup and well-formedness.
  2. Uniqueness of the well-formed trie of a map.
  3. Spines: a position in a trie and the subtries hanging off the path to it.
  4. Replacing the subtrie at a position, and lifting a lone leaf towards the root.
-/

namespace PrefixTrie

/-- A binary trie whose leaves carry their full key. -/
inductive Trie (κ α : Type*) where
  | empty
  | leaf (k : κ) (a : α)
  | node (l r : Trie κ α)
  deriving DecidableEq

namespace Trie

variable {κ α : Type*}

/-- The node with `t` on side `b` and `s` on the other. -/
def join (b : Bool) (t s : Trie κ α) : Trie κ α :=
  if b then node s t else node t s

/-- The keys of the leaves, left to right. -/
def keys : Trie κ α → List κ
  | empty => []
  | leaf k _ => [k]
  | node l r => l.keys ++ r.keys

/-- The number of leaves. -/
def size (t : Trie κ α) : ℕ := t.keys.length

/-- The keys and values of the leaves, left to right. -/
def entries : Trie κ α → List (κ × α)
  | empty => []
  | leaf k a => [(k, a)]
  | node l r => l.entries ++ r.entries

def isEmpty : Trie κ α → Bool
  | empty => true
  | _ => false

@[simp] theorem keys_empty : (empty : Trie κ α).keys = [] := rfl
@[simp] theorem keys_leaf (k : κ) (a : α) : (leaf k a).keys = [k] := rfl
@[simp] theorem keys_node (l r : Trie κ α) : (node l r).keys = l.keys ++ r.keys := rfl
@[simp] theorem size_empty : (empty : Trie κ α).size = 0 := rfl
@[simp] theorem size_leaf (k : κ) (a : α) : (leaf k a).size = 1 := rfl
@[simp] theorem size_node (l r : Trie κ α) : (node l r).size = l.size + r.size := by
  simp [size]

theorem size_join (b : Bool) (t s : Trie κ α) : (join b t s).size = t.size + s.size := by
  cases b <;> simp [join, Nat.add_comm]

theorem mem_keys_join {b : Bool} {t s : Trie κ α} {k : κ} :
    k ∈ (join b t s).keys ↔ k ∈ t.keys ∨ k ∈ s.keys := by
  cases b <;> simp [join, or_comm]

theorem map_fst_entries (t : Trie κ α) : t.entries.map Prod.fst = t.keys := by
  induction t with
  | empty => rfl
  | leaf k a => rfl
  | node l r ihl ihr => rw [entries, List.map_append, ihl, ihr, keys_node]

theorem join_ne_empty (b : Bool) (t s : Trie κ α) : join b t s ≠ empty := by
  cases b <;> simp [join]

section Lookup

variable [DecidableEq κ] (bit : κ → ℕ → Bool)

/-- Lookup in a subtrie whose root is at level `ℓ`. -/
def get : ℕ → Trie κ α → κ → Option α
  | _, empty, _ => none
  | _, leaf k' a, k => if k = k' then some a else none
  | ℓ, node l r, k => if bit k ℓ then get (ℓ + 1) r k else get (ℓ + 1) l k

@[simp] theorem get_empty (ℓ : ℕ) (k : κ) : get bit ℓ (empty : Trie κ α) k = none := rfl

@[simp] theorem get_leaf (ℓ : ℕ) (k' k : κ) (a : α) :
    get bit ℓ (leaf k' a) k = if k = k' then some a else none := rfl

theorem get_node (ℓ : ℕ) (l r : Trie κ α) (k : κ) :
    get bit ℓ (node l r) k = if bit k ℓ then get bit (ℓ + 1) r k else get bit (ℓ + 1) l k := rfl

theorem get_join (ℓ : ℕ) (b : Bool) (t s : Trie κ α) (k : κ) :
    get bit ℓ (join b t s) k =
      if bit k ℓ = b then get bit (ℓ + 1) t k else get bit (ℓ + 1) s k := by
  cases b <;> cases h : bit k ℓ <;> simp [join, get_node, h]

theorem mem_keys_of_get {bit} {t : Trie κ α} {ℓ : ℕ} {k : κ} {a : α}
    (h : get bit ℓ t k = some a) : k ∈ t.keys := by
  induction t generalizing ℓ with
  | empty => simp at h
  | leaf k' a' =>
    by_cases hk : k = k'
    · simp [hk]
    · simp [hk] at h
  | node l r ihl ihr =>
    rw [get_node] at h
    rw [keys_node, List.mem_append]
    split at h
    · exact Or.inr (ihr h)
    · exact Or.inl (ihl h)

theorem get_eq_none {bit} {t : Trie κ α} {ℓ : ℕ} {k : κ} (h : k ∉ t.keys) :
    get bit ℓ t k = none := by
  by_contra hne
  obtain ⟨a, ha⟩ := Option.ne_none_iff_exists'.mp hne
  exact h (mem_keys_of_get ha)

end Lookup

/-! ## Well-formed tries -/

section WellFormed

variable (bit : κ → ℕ → Bool)

/-- A well-formed subtrie at level `ℓ`: each key is on the side its bit says, and a node holds at
least two keys. -/
def WF : ℕ → Trie κ α → Prop
  | _, empty => True
  | _, leaf _ _ => True
  | ℓ, node l r =>
      ((∀ k ∈ l.keys, bit k ℓ = false) ∧ ∀ k ∈ r.keys, bit k ℓ = true) ∧
        2 ≤ l.size + r.size ∧ WF (ℓ + 1) l ∧ WF (ℓ + 1) r

@[simp] theorem wf_empty (ℓ : ℕ) : WF bit ℓ (empty : Trie κ α) := trivial
@[simp] theorem wf_leaf (ℓ : ℕ) (k : κ) (a : α) : WF bit ℓ (leaf k a) := trivial

theorem wf_join {bit} {ℓ : ℕ} {b : Bool} {t s : Trie κ α} :
    WF bit ℓ (join b t s) ↔ ((∀ k ∈ t.keys, bit k ℓ = b) ∧ ∀ k ∈ s.keys, bit k ℓ = !b) ∧
      2 ≤ t.size + s.size ∧ WF bit (ℓ + 1) t ∧ WF bit (ℓ + 1) s := by
  cases b
  · simp [join, WF]
  · simp only [join, WF, if_true, Bool.not_true]
    rw [Nat.add_comm s.size]
    tauto

theorem WF.two_le_size {bit} {ℓ : ℕ} {l r : Trie κ α} (h : WF bit ℓ (node l r)) :
    2 ≤ (node l r).size := by
  rw [size_node]
  exact h.2.1

/-- A well-formed trie without keys is empty. -/
theorem WF.eq_empty {bit} {ℓ : ℕ} {t : Trie κ α} (h : WF bit ℓ t) (h0 : t.size = 0) :
    t = empty := by
  cases t with
  | empty => rfl
  | leaf k a => simp at h0
  | node l r => have := h.two_le_size; omega

variable [DecidableEq κ]

theorem WF.get_isSome {bit} {t : Trie κ α} {ℓ : ℕ} {k : κ} (h : WF bit ℓ t) (hk : k ∈ t.keys) :
    (get bit ℓ t k).isSome := by
  induction t generalizing ℓ with
  | empty => simp at hk
  | leaf k' a =>
    rw [keys_leaf, List.mem_singleton] at hk
    simp [hk]
  | node l r ihl ihr =>
    obtain ⟨⟨hl, hr⟩, -, wl, wr⟩ := h
    rw [get_node]
    rcases List.mem_append.mp hk with hk | hk
    · rw [if_neg (by simp [hl k hk])]
      exact ihl wl hk
    · rw [if_pos (hr k hk)]
      exact ihr wr hk

/-- The entries of a well-formed trie are its lookups. -/
theorem WF.mem_entries_iff {bit} {t : Trie κ α} {ℓ : ℕ} (h : WF bit ℓ t) {k : κ} {a : α} :
    (k, a) ∈ t.entries ↔ get bit ℓ t k = some a := by
  induction t generalizing ℓ with
  | empty => simp [entries]
  | leaf k' a' =>
    by_cases hk : k = k'
    · simp [entries, hk, eq_comm]
    · simp [entries, hk]
  | node l r ihl ihr =>
    obtain ⟨⟨hl, hr⟩, -, wl, wr⟩ := h
    rw [entries, List.mem_append, ihl wl, ihr wr, get_node]
    cases hb : bit k ℓ with
    | true =>
      have hno : get bit (ℓ + 1) l k = none :=
        get_eq_none fun hk => absurd (hb.symm.trans (hl k hk)) (by decide)
      simp [hno]
    | false =>
      have hno : get bit (ℓ + 1) r k = none :=
        get_eq_none fun hk => absurd (hb.symm.trans (hr k hk)) (by decide)
      simp [hno]

/-- Two well-formed tries with the same lookups have the same keys. -/
theorem WF.mem_keys_congr {bit} {t t' : Trie κ α} {ℓ : ℕ} (h : WF bit ℓ t)
    (hg : ∀ k, get bit ℓ t k = get bit ℓ t' k) {k : κ} (hk : k ∈ t.keys) : k ∈ t'.keys := by
  obtain ⟨a, ha⟩ := Option.isSome_iff_exists.mp (h.get_isSome hk)
  exact mem_keys_of_get ((hg k).symm.trans ha)

omit [DecidableEq κ] in
theorem WF.nodup {bit} {t : Trie κ α} {ℓ : ℕ} (h : WF bit ℓ t) : t.keys.Nodup := by
  induction t generalizing ℓ with
  | empty => simp
  | leaf k a => simp
  | node l r ihl ihr =>
    obtain ⟨⟨hl, hr⟩, -, wl, wr⟩ := h
    refine List.nodup_append.mpr ⟨ihl wl, ihr wr, ?_⟩
    rintro k hk k' hk' rfl
    exact absurd ((hl k hk).symm.trans (hr k hk')) (by decide)

omit [DecidableEq κ] in
/-- A node holds two different keys, so it represents no single-entry map. -/
theorem WF.exists_other {bit} {l r : Trie κ α} {ℓ : ℕ} (h : WF bit ℓ (node l r)) (k : κ) :
    ∃ k' ∈ (node l r).keys, k' ≠ k := by
  by_contra hall
  push Not at hall
  have hsub : (node l r).keys ⊆ [k] := fun x hx => by simpa using hall x hx
  have hle := (List.subperm_of_subset h.nodup hsub).length_le
  have h2 := h.two_le_size
  simp only [size, List.length_singleton] at hle h2
  omega

/-- **Canonicity.**  A well-formed trie is determined by its lookups. -/
theorem WF.ext {bit} {t t' : Trie κ α} {ℓ : ℕ} (h : WF bit ℓ t) (h' : WF bit ℓ t')
    (hg : ∀ k, get bit ℓ t k = get bit ℓ t' k) : t = t' := by
  induction t generalizing t' ℓ with
  | empty =>
    refine (h'.eq_empty ?_).symm
    by_contra hne
    obtain ⟨k, hk⟩ := List.exists_mem_of_length_pos (Nat.pos_of_ne_zero hne)
    simpa using h'.mem_keys_congr (fun k => (hg k).symm) hk
  | leaf k a =>
    cases t' with
    | empty => simpa using hg k
    | leaf k' a' =>
      have hk := hg k
      by_cases hkk : k = k'
      · subst hkk
        simpa using hk
      · simp [hkk] at hk
    | node l' r' =>
      obtain ⟨k', hk', hne⟩ := h'.exists_other k
      have hmem := h'.mem_keys_congr (fun k => (hg k).symm) hk'
      exact absurd (by simpa using hmem) hne
  | node l r ihl ihr =>
    cases t' with
    | empty =>
      obtain ⟨k, hk⟩ := List.exists_mem_of_length_pos (l := (node l r).keys)
        (Nat.lt_of_lt_of_le (by decide) h.two_le_size)
      simpa using h.mem_keys_congr hg hk
    | leaf k' a' =>
      obtain ⟨k, hk, hne⟩ := h.exists_other k'
      exact absurd (by simpa using h.mem_keys_congr hg hk) hne
    | node l' r' =>
      obtain ⟨⟨hl, hr⟩, -, wl, wr⟩ := h
      obtain ⟨⟨hl', hr'⟩, -, wl', wr'⟩ := h'
      have gl : ∀ k, get bit (ℓ + 1) l k = get bit (ℓ + 1) l' k := by
        intro k
        cases hb : bit k ℓ with
        | false => simpa [get_node, hb] using hg k
        | true =>
          rw [get_eq_none (fun hk => by simpa [hb] using hl k hk),
            get_eq_none (fun hk => by simpa [hb] using hl' k hk)]
      have gr : ∀ k, get bit (ℓ + 1) r k = get bit (ℓ + 1) r' k := by
        intro k
        cases hb : bit k ℓ with
        | true => simpa [get_node, hb] using hg k
        | false =>
          rw [get_eq_none (fun hk => by simpa [hb] using hr k hk),
            get_eq_none (fun hk => by simpa [hb] using hr' k hk)]
      rw [ihl wl wl' gl, ihr wr wr' gr]

end WellFormed

end Trie

/-! ## Spines -/

open Trie

variable {κ α : Type*}

/-- The path from a position up to the root: at each level the side taken and the subtrie on the
other side, deepest level first. -/
abbrev Spine (κ α : Type*) := List (Bool × Trie κ α)

/-- The trie with `t` at the position. -/
def plug : Spine κ α → Trie κ α → Trie κ α
  | [], t => t
  | (b, s) :: sp, t => plug sp (join b t s)

/-- The trie with `t` at the position, a lone leaf floating up to the next occupied level. -/
def lift : Spine κ α → Trie κ α → Trie κ α
  | [], t => t
  | (b, s) :: sp, t => lift sp (collapse b t s)
where
  /-- The join of two subtries, unless together they hold fewer than two keys. -/
  collapse (b : Bool) : Trie κ α → Trie κ α → Trie κ α
    | empty, empty => empty
    | empty, leaf k a => leaf k a
    | leaf k a, empty => leaf k a
    | t, s => join b t s

@[simp] theorem collapse_empty_empty (b : Bool) :
    lift.collapse b (empty : Trie κ α) empty = empty := rfl

@[simp] theorem collapse_empty_leaf (b : Bool) (k : κ) (a : α) :
    lift.collapse b empty (leaf k a) = leaf k a := rfl

@[simp] theorem collapse_leaf_empty (b : Bool) (k : κ) (a : α) :
    lift.collapse b (leaf k a) empty = leaf k a := rfl

theorem plug_ne_empty (sp : Spine κ α) {t : Trie κ α} (h : t ≠ empty) : plug sp t ≠ empty := by
  induction sp generalizing t with
  | nil => exact h
  | cons f sp ih => exact ih (join_ne_empty _ _ _)

section Spine

variable (bit : κ → ℕ → Bool)

/-- The walk along the bits of `k` from a subtrie at level `ℓ`, to a leaf or an empty subtrie. -/
def locate (k : κ) : ℕ → Trie κ α → Spine κ α → Spine κ α × Trie κ α
  | ℓ, node l r, sp =>
      if bit k ℓ then locate k (ℓ + 1) r ((true, l) :: sp) else locate k (ℓ + 1) l ((false, r) :: sp)
  | _, empty, sp => (sp, empty)
  | _, leaf k' a, sp => (sp, leaf k' a)

/-- The key `k` passes through the position of the spine. -/
def OnPath (k : κ) : Spine κ α → Prop
  | [] => True
  | (b, _) :: sp => bit k sp.length = b ∧ OnPath k sp

/-- The subtries off the path are well formed, and at their place. -/
def SpineWF : Spine κ α → Prop
  | [] => True
  | (b, s) :: sp =>
      (WF bit (sp.length + 1) s ∧ ∀ k ∈ s.keys, bit k sp.length = !b ∧ OnPath bit k sp) ∧ SpineWF sp

/-- With `n` keys at the position, each node of the path holds at least two keys. -/
def Full : Spine κ α → ℕ → Prop
  | [], _ => True
  | (_, s) :: sp, n => 2 ≤ n + s.size ∧ Full sp (n + s.size)

theorem Full.mono {sp : Spine κ α} {n m : ℕ} (h : Full sp n) (hnm : n ≤ m) : Full sp m := by
  induction sp generalizing n m with
  | nil => trivial
  | cons f sp ih => exact ⟨by have := h.1; omega, ih h.2 (by omega)⟩

variable {bit}

theorem OnPath.bit_eq {k k' : κ} {sp : Spine κ α} (h : OnPath bit k sp) (h' : OnPath bit k' sp) :
    ∀ i < sp.length, bit k i = bit k' i := by
  induction sp with
  | nil => simp
  | cons f sp ih =>
    intro i hi
    rcases Nat.lt_succ_iff_lt_or_eq.mp hi with hi | rfl
    · exact ih h.2 h'.2 i hi
    · exact h.1.trans h'.1.symm

theorem OnPath.dropWhile {k : κ} {sp : Spine κ α} (h : OnPath bit k sp)
    (q : Bool × Trie κ α → Bool) : OnPath bit k (sp.dropWhile q) := by
  induction sp with
  | nil => exact h
  | cons f sp ih =>
    rw [List.dropWhile_cons]
    split
    · exact ih h.2
    · exact h

theorem locate_node (k : κ) (ℓ : ℕ) (l r : Trie κ α) (sp : Spine κ α) :
    locate bit k ℓ (node l r) sp =
      if bit k ℓ then locate bit k (ℓ + 1) r ((true, l) :: sp)
      else locate bit k (ℓ + 1) l ((false, r) :: sp) := rfl

theorem plug_locate (k : κ) (ℓ : ℕ) (t : Trie κ α) (sp : Spine κ α) :
    plug (locate bit k ℓ t sp).1 (locate bit k ℓ t sp).2 = plug sp t := by
  induction t generalizing ℓ sp with
  | empty => rfl
  | leaf k' a => rfl
  | node l r ihl ihr =>
    rw [locate_node]
    split
    · rw [ihr]; rfl
    · rw [ihl]; rfl

theorem onPath_locate (k : κ) {ℓ : ℕ} (t : Trie κ α) {sp : Spine κ α} (hℓ : sp.length = ℓ)
    (h : OnPath bit k sp) : OnPath bit k (locate bit k ℓ t sp).1 := by
  induction t generalizing ℓ sp with
  | empty => exact h
  | leaf k' a => exact h
  | node l r ihl ihr =>
    subst hℓ
    rw [locate_node]
    by_cases hb : bit k sp.length = true
    · rw [if_pos hb]
      exact ihr rfl ⟨hb, h⟩
    · rw [if_neg hb]
      exact ihl rfl ⟨by simpa using hb, h⟩

/-- The walk ends at an empty subtrie or at a leaf. -/
theorem locate_cases (k : κ) (ℓ : ℕ) (t : Trie κ α) (sp : Spine κ α) :
    (locate bit k ℓ t sp).2 = empty ∨ ∃ k' a, (locate bit k ℓ t sp).2 = leaf k' a := by
  induction t generalizing ℓ sp with
  | empty => exact Or.inl rfl
  | leaf k' a => exact Or.inr ⟨k', a, rfl⟩
  | node l r ihl ihr =>
    rw [locate_node]
    split
    · exact ihr _ _
    · exact ihl _ _

/-- A trie is well formed when the spine and the subtrie at the position are, and fit together. -/
theorem wf_plug_iff {sp : Spine κ α} {t : Trie κ α} :
    WF bit 0 (plug sp t) ↔
      SpineWF bit sp ∧ WF bit sp.length t ∧ (∀ k ∈ t.keys, OnPath bit k sp) ∧ Full sp t.size := by
  induction sp generalizing t with
  | nil => simp [plug, SpineWF, OnPath, Full]
  | cons f sp ih =>
    obtain ⟨b, s⟩ := f
    rw [plug, ih, wf_join, size_join]
    simp only [mem_keys_join, SpineWF, OnPath, Full, List.length_cons]
    constructor
    · rintro ⟨hsp, ⟨⟨ht, hs⟩, h2, wt, ws⟩, hp, hf⟩
      exact ⟨⟨⟨ws, fun k hk => ⟨hs k hk, hp k (Or.inr hk)⟩⟩, hsp⟩, wt,
        fun k hk => ⟨ht k hk, hp k (Or.inl hk)⟩, h2, hf⟩
    · rintro ⟨⟨⟨ws, hs⟩, hsp⟩, wt, ht, h2, hf⟩
      refine ⟨hsp, ⟨⟨fun k hk => (ht k hk).1, fun k hk => (hs k hk).1⟩, h2, wt, ws⟩, ?_, hf⟩
      rintro k (hk | hk)
      · exact (ht k hk).2
      · exact (hs k hk).2

/-! ## Replacing the subtrie at a position -/

variable [DecidableEq κ]

/-- The lookup of a key on the path goes to the position. -/
theorem get_plug {k : κ} {sp : Spine κ α} (h : OnPath bit k sp) (t : Trie κ α) :
    get bit 0 (plug sp t) k = get bit sp.length t k := by
  induction sp generalizing t with
  | nil => rfl
  | cons f sp ih => rw [plug, ih h.2, get_join, if_pos h.1, List.length_cons]

/-- A lookup that does not tell two subtries apart does not tell apart the tries around them. -/
theorem get_plug_congr {k : κ} {sp : Spine κ α} {t t' : Trie κ α}
    (h : get bit sp.length t k = get bit sp.length t' k) :
    get bit 0 (plug sp t) k = get bit 0 (plug sp t') k := by
  induction sp generalizing t t' with
  | nil => exact h
  | cons f sp ih =>
    refine ih ?_
    rw [get_join, get_join]
    rw [List.length_cons] at h
    rw [h]

omit [DecidableEq κ] in
/-- Putting another subtrie at a position keeps a trie well formed, if the new one is, belongs there
and holds no fewer keys. -/
theorem wf_replace {sp : Spine κ α} {t t' : Trie κ α} (h : WF bit 0 (plug sp t))
    (wt : WF bit sp.length t') (ht : ∀ k ∈ t'.keys, OnPath bit k sp) (hsize : t.size ≤ t'.size) :
    WF bit 0 (plug sp t') := by
  obtain ⟨hsp, -, -, hf⟩ := wf_plug_iff.mp h
  exact wf_plug_iff.mpr ⟨hsp, wt, ht, hf.mono hsize⟩

/-- Putting another subtrie at a position of the path of `k`, which differs from the old one only
at `k`. -/
theorem get_replace {k : κ} {sp : Spine κ α} (h : OnPath bit k sp) {t t' : Trie κ α}
    (hne : ∀ k', k' ≠ k → get bit sp.length t' k' = get bit sp.length t k') (k' : κ) :
    get bit 0 (plug sp t') k' =
      if k' = k then get bit sp.length t' k else get bit 0 (plug sp t) k' := by
  split
  · next hk => rw [hk, get_plug h]
  · next hk => exact get_plug_congr (hne k' hk)

omit [DecidableEq κ] in
theorem wf_collapse {ℓ : ℕ} {b : Bool} {t s : Trie κ α} (wt : WF bit (ℓ + 1) t)
    (ws : WF bit (ℓ + 1) s) (ht : ∀ k ∈ t.keys, bit k ℓ = b) (hs : ∀ k ∈ s.keys, bit k ℓ = !b) :
    WF bit ℓ (lift.collapse b t s) := by
  have hnode : 2 ≤ t.size + s.size → WF bit ℓ (join b t s) :=
    fun h2 => wf_join.mpr ⟨⟨ht, hs⟩, h2, wt, ws⟩
  cases t with
  | empty =>
    cases s with
    | empty => exact trivial
    | leaf k a => exact trivial
    | node l r => exact hnode (by have := ws.two_le_size; omega)
  | leaf k a =>
    cases s with
    | empty => exact trivial
    | leaf k' a' => exact hnode (by simp)
    | node l r => exact hnode (by have := ws.two_le_size; omega)
  | node l r =>
    cases s <;> exact hnode (by have := wt.two_le_size; omega)

omit [DecidableEq κ] in
theorem mem_keys_collapse {b : Bool} {t s : Trie κ α} {k : κ} :
    k ∈ (lift.collapse b t s).keys ↔ k ∈ t.keys ∨ k ∈ s.keys := by
  cases t <;> cases s <;> first | exact mem_keys_join | simp

theorem get_collapse {ℓ : ℕ} {b : Bool} {t s : Trie κ α} (ht : ∀ k ∈ t.keys, bit k ℓ = b)
    (hs : ∀ k ∈ s.keys, bit k ℓ = !b) (k : κ) :
    get bit ℓ (lift.collapse b t s) k = get bit ℓ (join b t s) k := by
  rw [get_join]
  cases t with
  | empty =>
    cases s with
    | empty => simp
    | leaf k' a =>
      by_cases hk : k = k'
      · subst hk
        have := hs k (by simp)
        simp [this]
      · simp [hk]
    | node l r => exact get_join ..
  | leaf k' a =>
    cases s with
    | empty =>
      by_cases hk : k = k'
      · subst hk
        have := ht k (by simp)
        simp [this]
      · simp [hk]
    | leaf k'' a' => exact get_join ..
    | node l r => exact get_join ..
  | node l r => cases s <;> exact get_join ..

/-- Lifting keeps the trie well formed, and keeps every lookup. -/
theorem lift_spec {sp : Spine κ α} {t : Trie κ α} (hsp : SpineWF bit sp)
    (wt : WF bit sp.length t) (ht : ∀ k ∈ t.keys, OnPath bit k sp) :
    WF bit 0 (lift sp t) ∧ ∀ k, get bit 0 (lift sp t) k = get bit 0 (plug sp t) k := by
  induction sp generalizing t with
  | nil => exact ⟨wt, fun _ => rfl⟩
  | cons f sp ih =>
    obtain ⟨b, s⟩ := f
    obtain ⟨⟨ws, hs⟩, hsp⟩ := hsp
    have htb : ∀ k ∈ t.keys, bit k sp.length = b := fun k hk => (ht k hk).1
    have hsb : ∀ k ∈ s.keys, bit k sp.length = !b := fun k hk => (hs k hk).1
    obtain ⟨hwf, hget⟩ := ih (t := lift.collapse b t s) hsp (wf_collapse wt ws htb hsb) (by
      intro k hk
      rcases mem_keys_collapse.mp hk with hk | hk
      · exact (ht k hk).2
      · exact (hs k hk).2)
    exact ⟨hwf, fun k => (hget k).trans (get_plug_congr (get_collapse htb hsb k))⟩

omit [DecidableEq κ] in
/-- A node stays where it is. -/
theorem lift_join (sp : Spine κ α) (b : Bool) (t s : Trie κ α) :
    lift sp (join b t s) = plug sp (join b t s) := by
  induction sp generalizing b t s with
  | nil => rfl
  | cons f sp ih =>
    obtain ⟨b', s'⟩ := f
    have hc : lift.collapse b' (join b t s) s' = join b' (join b t s) s' := by
      cases b <;> cases s' <;> rfl
    rw [lift, plug, hc, ih]

omit [DecidableEq κ] in
/-- A leaf moves up to the first level with something beside it. -/
theorem lift_leaf (sp : Spine κ α) (k : κ) (a : α) :
    lift sp (leaf k a) = plug (sp.dropWhile fun f => f.2.isEmpty) (leaf k a) := by
  induction sp with
  | nil => rfl
  | cons f sp ih =>
    obtain ⟨b, s⟩ := f
    cases s with
    | empty => exact ih
    | leaf k' a' => exact lift_join sp b _ _
    | node l r => exact lift_join sp b _ _

/-! ## Forks -/

/-- The subtrie at level `ℓ` of two keys that part `n` levels below. -/
def fork (bit : κ → ℕ → Bool) (k : κ) (a : α) (k' : κ) (a' : α) : ℕ → ℕ → Trie κ α
  | ℓ, 0 => join (bit k ℓ) (leaf k a) (leaf k' a')
  | ℓ, n + 1 => join (bit k ℓ) (fork bit k a k' a' (ℓ + 1) n) empty

variable {k k' : κ} {a a' : α} {ℓ n : ℕ}

omit [DecidableEq κ] in
theorem fork_zero :
    fork bit k a k' a' ℓ 0 = join (bit k ℓ) (leaf k a) (leaf k' a') := rfl

omit [DecidableEq κ] in
theorem fork_succ : fork bit k a k' a' ℓ (n + 1) =
    join (bit k ℓ) (fork bit k a k' a' (ℓ + 1) n) empty := rfl

omit [DecidableEq κ] in
theorem mem_keys_fork {x : κ} : x ∈ (fork bit k a k' a' ℓ n).keys ↔ x = k ∨ x = k' := by
  induction n generalizing ℓ with
  | zero => simp [fork_zero, mem_keys_join]
  | succ n ih => simp [fork_succ, mem_keys_join, ih]

omit [DecidableEq κ] in
theorem size_fork : (fork bit k a k' a' ℓ n).size = 2 := by
  induction n generalizing ℓ with
  | zero => simp [fork_zero, size_join]
  | succ n ih => simp [fork_succ, size_join, ih]

omit [DecidableEq κ] in
theorem wf_fork (a a' : α) (heq : ∀ i < n, bit k' (ℓ + i) = bit k (ℓ + i))
    (hne : bit k' (ℓ + n) = !bit k (ℓ + n)) : WF bit ℓ (fork bit k a k' a' ℓ n) := by
  induction n generalizing ℓ with
  | zero => simpa [fork_zero, wf_join] using hne
  | succ n ih =>
    rw [fork_succ, wf_join]
    refine ⟨⟨fun x hx => ?_, by simp⟩, by simp [size_fork], ih ?_ ?_, trivial⟩
    · rcases mem_keys_fork.mp hx with rfl | rfl
      · rfl
      · exact heq 0 (Nat.succ_pos n)
    · intro i hi
      rw [Nat.add_right_comm]
      exact heq (i + 1) (by omega)
    · rw [Nat.add_right_comm]
      exact hne

theorem get_fork (a a' : α) (hne' : k ≠ k') (heq : ∀ i < n, bit k' (ℓ + i) = bit k (ℓ + i))
    (hne : bit k' (ℓ + n) = !bit k (ℓ + n)) (x : κ) :
    get bit ℓ (fork bit k a k' a' ℓ n) x =
      if x = k then some a else if x = k' then some a' else none := by
  by_cases hx : x = k ∨ x = k'
  · induction n generalizing ℓ with
    | zero =>
      rw [fork_zero, get_join]
      rcases hx with rfl | rfl
      · simp
      · simp at hne
        simp [hne, hne'.symm]
    | succ n ih =>
      have hb : bit x ℓ = bit k ℓ := by
        rcases hx with rfl | rfl
        · rfl
        · exact heq 0 (Nat.succ_pos n)
      rw [fork_succ, get_join, if_pos hb]
      have heq' : ∀ i < n, bit k' (ℓ + 1 + i) = bit k (ℓ + 1 + i) := by
        intro i hi
        rw [Nat.add_right_comm]
        exact heq (i + 1) (by omega)
      have hne'' : bit k' (ℓ + 1 + n) = !bit k (ℓ + 1 + n) := by
        rw [Nat.add_right_comm]
        exact hne
      exact ih heq' hne''
  · rw [get_eq_none (fun h => hx (mem_keys_fork.mp h))]
    push Not at hx
    rw [if_neg hx.1, if_neg hx.2]

omit [DecidableEq κ] in
/-- A fork below levels with nothing beside the path is a longer fork above them. -/
theorem plug_fork {sp : Spine κ α} (h : OnPath bit k sp) (k' : κ) (a a' : α) (n : ℕ) :
    ∃ m, (sp.dropWhile fun f => f.2.isEmpty).length + m = sp.length + n ∧
      plug sp (fork bit k a k' a' sp.length n) =
        plug (sp.dropWhile fun f => f.2.isEmpty)
          (fork bit k a k' a' (sp.dropWhile fun f => f.2.isEmpty).length m) := by
  induction sp generalizing n with
  | nil => exact ⟨n, rfl, rfl⟩
  | cons f sp ih =>
    obtain ⟨b, s⟩ := f
    by_cases hs : s = empty
    · subst hs
      obtain ⟨m, hm, hplug⟩ := ih h.2 (n + 1)
      refine ⟨m, ?_, ?_⟩
      · rw [List.dropWhile_cons_of_pos rfl, hm, List.length_cons]
        omega
      · rw [List.dropWhile_cons_of_pos rfl, ← hplug, plug, fork_succ, h.1, List.length_cons]
    · refine ⟨n, ?_, ?_⟩ <;> rw [List.dropWhile_cons_of_neg (by cases s <;> simp_all [isEmpty])]

end Spine

end PrefixTrie
