import Mathlib.Data.List.Basic
import Mathlib.Data.List.Nodup
import Mathlib.Data.List.Perm.Basic
import Mathlib.Order.Basic

/-!
# Memory accesses in two orders

A list of accesses in the order of time, and the same accesses sorted by address and then by time.  Each
access sees the same latest write in both.

  1. The latest write to an address.
  2. Accesses of one address.
  3. The latest write in both orders.
-/

namespace SortedAccesses

variable {ι α ν : Type*} [DecidableEq α] (addr : ι → α) (time : ι → ℕ) (written : ι → Option ν)

/-! ## The latest write to an address -/

/-- The accesses of the address `a`. -/
def ofAddr (a : α) (l : List ι) : List ι := l.filter fun x => addr x = a

/-- What the last write to the address `a` has written. -/
def latest (a : α) (l : List ι) : Option ν := ((ofAddr addr a l).filterMap written).getLast?

@[simp] theorem latest_nil (a : α) : latest addr written a [] = none := rfl

theorem latest_concat (a : α) (l : List ι) (x : ι) :
    latest addr written a (l ++ [x]) =
      if addr x = a then (written x).or (latest addr written a l) else latest addr written a l := by
  unfold latest ofAddr
  rw [List.filter_append, List.filterMap_append]
  by_cases h : addr x = a
  · rw [if_pos h]
    cases hx : written x with
    | none => simp [h, hx]
    | some v => simp [h, hx]
  · simp [h]

/-! ## Accesses of one address -/

/-- Sorted by address and then by time. -/
def Sorted [LT α] (l : List ι) : Prop :=
  l.Pairwise fun x y => addr x < addr y ∨ addr x = addr y ∧ time x < time y

variable {addr time} {l l' : List ι}

theorem ofAddr_pairwise (h : l.Pairwise fun x y => time x < time y) (a : α) :
    (ofAddr addr a l).Pairwise fun x y => time x < time y := h.filter _

theorem Sorted.ofAddr_pairwise [Preorder α] (h : Sorted addr time l) (a : α) :
    (ofAddr addr a l).Pairwise fun x y => time x < time y := by
  refine (h.filter _).imp_of_mem ?_
  intro x y hx hy hxy
  have hx := of_decide_eq_true (List.mem_filter.mp hx).2
  have hy := of_decide_eq_true (List.mem_filter.mp hy).2
  rcases hxy with hlt | ⟨-, hlt⟩
  · rw [hx, hy] at hlt
    exact absurd hlt (lt_irrefl a)
  · exact hlt

/-- Both orders have the accesses of one address in the order of time. -/
theorem ofAddr_eq [Preorder α] (h : l.Pairwise fun x y => time x < time y)
    (h' : Sorted addr time l') (hperm : l'.Perm l) (a : α) :
    ofAddr addr a l' = ofAddr addr a l := by
  refine List.Perm.eq_of_pairwise ?_ (h'.ofAddr_pairwise a) (ofAddr_pairwise h a)
    (hperm.filter _)
  intro x y _ _ hxy hyx
  exact absurd hxy (Nat.lt_asymm hyx)

/-! ## The latest write in both orders -/

theorem ofAddr_split (x : ι) (pre post : List ι) :
    ofAddr addr (addr x) (pre ++ x :: post) =
      ofAddr addr (addr x) pre ++ x :: ofAddr addr (addr x) post := by
  unfold ofAddr
  rw [List.filter_append, List.filter_cons, if_pos (by simp)]

theorem latest_eq [Preorder α] {x : ι} {pre post pre' post' : List ι}
    (h : (pre ++ x :: post).Pairwise fun x y => time x < time y)
    (h' : Sorted addr time (pre' ++ x :: post'))
    (hperm : (pre' ++ x :: post').Perm (pre ++ x :: post)) :
    latest addr written (addr x) pre' = latest addr written (addr x) pre := by
  have heq := ofAddr_eq h h' hperm (addr x)
  have hnodup : (ofAddr addr (addr x) (pre ++ x :: post)).Nodup :=
    (ofAddr_pairwise h (addr x)).imp fun hlt heq => by rw [heq] at hlt; exact Nat.lt_irrefl _ hlt
  have hnodup' := hnodup
  rw [← heq] at hnodup'
  rw [ofAddr_split] at heq hnodup'
  rw [ofAddr_split] at heq hnodup
  have hx : x ∉ ofAddr addr (addr x) pre' :=
    fun hmem => (List.nodup_append.mp hnodup').2.2 x hmem x List.mem_cons_self rfl
  have hx' : x ∉ ofAddr addr (addr x) post' :=
    (List.nodup_cons.mp (List.nodup_append.mp hnodup').2.1).1
  have hpre := (List.append_cons_inj_of_notMem hx hx').mp heq
  unfold latest
  rw [hpre.1]

end SortedAccesses
