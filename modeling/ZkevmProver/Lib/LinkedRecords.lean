import Mathlib.Data.List.Basic
import Mathlib.Data.List.Nodup
import Mathlib.Logic.Function.Basic
import Mathlib.Tactic.Common

/-!
# Doubly linked records

Records on a heap, each with a pointer to the next and to the previous one.  A pointer is an address or
null, and following a pointer fails on null and on an address where nothing is.

  1. The heap, and what is written through a pointer.
  2. Chains: records linked from a first to a last one.
  3. What a write of one pointer does to a chain.
-/

namespace LinkedRecords

variable {ρ : Type*}

/-! ## The heap -/

structure Node (ρ : Type*) where
  data : ρ
  next : Option ℕ
  prev : Option ℕ
  deriving DecidableEq

abbrev Heap (ρ : Type*) := ℕ → Option (Node ρ)

namespace Heap

variable (h : Heap ρ)

/-- The node that a pointer leads to. -/
def node (p : Option ℕ) : Option (Node ρ) := p.bind h

/-- Writes a node where there is one. -/
def modify (p : Option ℕ) (f : Node ρ → Node ρ) : Option (Heap ρ) :=
  p.bind fun a => (h a).map fun n => Function.update h a (some (f n))

def setNext (p q : Option ℕ) : Option (Heap ρ) := h.modify p fun n => { n with next := q }

def setPrev (p q : Option ℕ) : Option (Heap ρ) := h.modify p fun n => { n with prev := q }

def setData (p : Option ℕ) (f : ρ → ρ) : Option (Heap ρ) := h.modify p fun n => { n with data := f n.data }

/-- Frees the node that a pointer leads to. -/
def free (p : Option ℕ) : Option (Heap ρ) :=
  p.bind fun a => (h a).map fun _ => Function.update h a none

variable {h}

@[simp] theorem node_some (a : ℕ) : h.node (some a) = h a := rfl

@[simp] theorem node_none : h.node none = none := rfl

theorem modify_eq {a : ℕ} {n : Node ρ} (hn : h a = some n) (f : Node ρ → Node ρ) :
    h.modify (some a) f = some (Function.update h a (some (f n))) := by
  unfold modify
  rw [Option.bind_some, hn, Option.map_some]

theorem free_eq {a : ℕ} {n : Node ρ} (hn : h a = some n) :
    h.free (some a) = some (Function.update h a none) := by
  unfold free
  rw [Option.bind_some, hn, Option.map_some]

end Heap

/-! ## Chains -/

/-- The address of the first entry, or else where the chain leads to. -/
def first : List (ℕ × ρ) → Option ℕ → Option ℕ
  | [], after => after
  | e :: _, _ => some e.1

/-- The address of the last entry, or else where the chain comes from. -/
def final : Option ℕ → List (ℕ × ρ) → Option ℕ
  | before, [] => before
  | _, e :: es => final (some e.1) es

/-- The entries stand on the heap, linked in their order between `before` and `after`. -/
def Chain (h : Heap ρ) : Option ℕ → List (ℕ × ρ) → Option ℕ → Prop
  | _, [], _ => True
  | before, e :: es, after => h e.1 = some ⟨e.2, first es after, before⟩ ∧ Chain h (some e.1) es after

/-- The addresses of the entries. -/
def addresses (es : List (ℕ × ρ)) : List ℕ := es.map Prod.fst

section

variable {h h' : Heap ρ} {before after : Option ℕ} {e : ℕ × ρ} {es xs ys : List (ℕ × ρ)} {a : ℕ}

@[simp] theorem first_nil : first ([] : List (ℕ × ρ)) after = after := rfl

@[simp] theorem first_cons : first (e :: es) after = some e.1 := rfl

@[simp] theorem final_nil : final before ([] : List (ℕ × ρ)) = before := rfl

@[simp] theorem final_cons : final before (e :: es) = final (some e.1) es := rfl

theorem final_append : final before (xs ++ ys) = final (final before xs) ys := by
  induction xs generalizing before with
  | nil => rfl
  | cons x xs ih => exact ih

@[simp] theorem final_concat : final before (es ++ [e]) = some e.1 := final_append

@[simp] theorem addresses_nil : addresses ([] : List (ℕ × ρ)) = [] := rfl

@[simp] theorem addresses_cons : addresses (e :: es) = e.1 :: addresses es := rfl

@[simp] theorem addresses_append : addresses (xs ++ ys) = addresses xs ++ addresses ys := by
  unfold addresses
  exact List.map_append

/-- A list with entries ends at one of them. -/
theorem final_mem (before : Option ℕ) (hes : es ≠ []) : ∃ a ∈ addresses es, final before es = some a := by
  induction es generalizing before with
  | nil => exact absurd rfl hes
  | cons e es ih =>
    by_cases hnil : es = []
    · exact ⟨e.1, List.mem_cons_self, by rw [hnil]; rfl⟩
    · obtain ⟨a, ha, hfinal⟩ := ih (some e.1) hnil
      exact ⟨a, List.mem_cons_of_mem _ ha, hfinal⟩

theorem addresses_ne {a b : ℕ} (h : (addresses (xs ++ ys)).Nodup) (ha : a ∈ addresses xs)
    (hb : b ∈ addresses ys) : a ≠ b := by
  rw [addresses_append] at h
  exact (List.nodup_append.mp h).2.2 a ha b hb

theorem mem_addresses (he : e ∈ es) : e.1 ∈ addresses es := List.mem_map_of_mem he

@[simp] theorem chain_nil : Chain h before ([] : List (ℕ × ρ)) after := trivial

@[simp] theorem chain_cons : Chain h before (e :: es) after ↔
    h e.1 = some ⟨e.2, first es after, before⟩ ∧ Chain h (some e.1) es after := Iff.rfl

theorem chain_append : Chain h before (xs ++ ys) after ↔
    Chain h before xs (first ys after) ∧ Chain h (final before xs) ys after := by
  induction xs generalizing before with
  | nil => simp
  | cons x xs ih =>
    have hfirst : first (xs ++ ys) after = first xs (first ys after) := by
      cases xs with
      | nil => rfl
      | cons x' xs => rfl
    rw [List.cons_append, chain_cons, chain_cons, ih, hfirst, final_cons, and_assoc]

/-- A chain is on every heap that has the same at its addresses. -/
theorem Chain.congr (hc : Chain h before es after) (heq : ∀ a ∈ addresses es, h' a = h a) :
    Chain h' before es after := by
  induction es generalizing before with
  | nil => trivial
  | cons e es ih =>
    obtain ⟨he, hes⟩ := hc
    refine ⟨?_, ih hes fun a ha => heq a (List.mem_cons_of_mem _ ha)⟩
    rw [heq e.1 List.mem_cons_self]
    exact he

theorem Chain.update (hc : Chain h before es after) (ha : a ∉ addresses es)
    (n : Option (Node ρ)) : Chain (Function.update h a n) before es after :=
  hc.congr fun _ hb => Function.update_of_ne (ne_of_mem_of_not_mem hb ha) _ _

/-- Every entry of a chain is on the heap. -/
theorem Chain.data (hc : Chain h before es after) (he : e ∈ es) :
    ∃ next prev, h e.1 = some ⟨e.2, next, prev⟩ := by
  induction es generalizing before with
  | nil => cases he
  | cons e' es ih =>
    obtain ⟨he', hes⟩ := hc
    rcases List.mem_cons.mp he with rfl | he
    · exact ⟨_, _, he'⟩
    · exact ih hes he

/-! ## Writes of one pointer -/

/-- The last entry is made to lead elsewhere. -/
theorem Chain.setNext (hc : Chain h before (es ++ [e]) after) (hnd : (addresses (es ++ [e])).Nodup)
    (q : Option ℕ) : ∃ h', h.setNext (some e.1) q = some h' ∧ Chain h' before (es ++ [e]) q ∧
      ∀ a ≠ e.1, h' a = h a := by
  obtain ⟨hes, he, -⟩ := chain_append.mp hc
  have hnot : e.1 ∉ addresses es := by
    exact fun hmem => addresses_ne hnd hmem List.mem_cons_self rfl
  refine ⟨_, Heap.modify_eq he _, ?_, fun a ha => Function.update_of_ne ha _ _⟩
  rw [chain_append]
  exact ⟨hes.update hnot _, Function.update_self _ _ _, trivial⟩

/-- The first entry is made to come from elsewhere. -/
theorem Chain.setPrev (hc : Chain h before (e :: es) after) (hnd : (addresses (e :: es)).Nodup)
    (q : Option ℕ) : ∃ h', h.setPrev (some e.1) q = some h' ∧ Chain h' q (e :: es) after ∧
      ∀ a ≠ e.1, h' a = h a := by
  obtain ⟨he, hes⟩ := hc
  have hnot : e.1 ∉ addresses es := (List.nodup_cons.mp hnd).1
  exact ⟨_, Heap.modify_eq he _, ⟨Function.update_self _ _ _, hes.update hnot _⟩,
    fun a ha => Function.update_of_ne ha _ _⟩

/-- The data of the first entry is changed. -/
theorem Chain.setData (hc : Chain h before (e :: es) after) (hnd : (addresses (e :: es)).Nodup)
    (f : ρ → ρ) : ∃ h', h.setData (some e.1) f = some h' ∧ Chain h' before ((e.1, f e.2) :: es) after ∧
      ∀ a ≠ e.1, h' a = h a := by
  obtain ⟨he, hes⟩ := hc
  have hnot : e.1 ∉ addresses es := (List.nodup_cons.mp hnd).1
  exact ⟨_, Heap.modify_eq he _, ⟨Function.update_self _ _ _, hes.update hnot _⟩,
    fun a ha => Function.update_of_ne ha _ _⟩

end

/-- A heap that holds one chain and nothing else, from `head` to `last`. -/
structure Listed (h : Heap ρ) (head last : Option ℕ) (es : List (ℕ × ρ)) : Prop where
  head_eq : head = first es none
  last_eq : last = final none es
  nodup : (addresses es).Nodup
  chain : Chain h none es none
  rest : ∀ a, a ∉ addresses es → h a = none

/-- The pointers of the records give their list. -/
theorem Chain.unique {h : Heap ρ} {before before' : Option ℕ} {es es' : List (ℕ × ρ)}
    (hc : Chain h before es none) (hc' : Chain h before' es' none)
    (hfirst : first es none = first es' none) : es = es' := by
  induction es generalizing before before' es' with
  | nil =>
    cases es' with
    | nil => rfl
    | cons e' es' => cases hfirst
  | cons e es ih =>
    cases es' with
    | nil => cases hfirst
    | cons e' es' =>
      obtain ⟨he, hes⟩ := hc
      obtain ⟨he', hes'⟩ := hc'
      have haddr : e.1 = e'.1 := Option.some.inj hfirst
      rw [haddr, he'] at he
      injection he with hnode
      injection hnode with hdata hnext
      rw [ih hes hes' hnext.symm, Prod.ext haddr hdata.symm]

theorem Listed.unique {h : Heap ρ} {head last : Option ℕ} {es es' : List (ℕ × ρ)}
    (hl : Listed h head last es) (hl' : Listed h head last es') : es = es' :=
  hl.chain.unique hl'.chain (hl.head_eq.symm.trans hl'.head_eq)

end LinkedRecords
