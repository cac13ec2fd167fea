import Mathlib.Data.List.AList
import Mathlib.Tactic.Common

/-!
# Objects with sorted fields

An object is the list of its fields, in the order of their keys.

  1. Writing a field.
  2. Writing fields in turn.
  3. Maps without an order.
-/

namespace SortedFields

variable {κ ν μ : Type*} [DecidableEq κ] [BEq κ] [LawfulBEq κ] {lt : κ → κ → Bool}

/-! ## Writing a field -/

/-- `object[key] = value` -/
def set (lt : κ → κ → Bool) (key : κ) (value : ν) : List (κ × ν) → List (κ × ν)
  | [] => [(key, value)]
  | p :: fields =>
    if p.1 = key then (key, value) :: fields
    else if lt key p.1 then (key, value) :: p :: fields
    else p :: set lt key value fields

theorem lookup_cons_ite (key : κ) (p : κ × ν) (fields : List (κ × ν)) :
    (p :: fields).lookup key = if key = p.1 then some p.2 else fields.lookup key := by
  rw [List.lookup_cons]
  by_cases h : key = p.1
  · rw [if_pos h, beq_iff_eq.mpr h]
  · rw [if_neg h, beq_eq_false_iff_ne.mpr h]

theorem lookup_eq_some_iff_mem {fields : List (κ × ν)} (h : (fields.map Prod.fst).Nodup) {key : κ} {value : ν} :
    fields.lookup key = some value ↔ (key, value) ∈ fields := by
  induction fields with
  | nil => exact ⟨nofun, nofun⟩
  | cons p fields ih =>
    rw [List.map_cons, List.nodup_cons] at h
    rw [lookup_cons_ite, List.mem_cons]
    by_cases heq : key = p.1
    · rw [if_pos heq]
      constructor
      · intro hvalue
        injection hvalue with hvalue
        exact .inl (Prod.ext heq hvalue.symm)
      · rintro (rfl | hmem)
        · rfl
        · exact absurd (heq ▸ List.mem_map_of_mem hmem) h.1
    · rw [if_neg heq, ih h.2]
      constructor
      · exact .inr
      · rintro (rfl | hmem)
        · exact absurd rfl heq
        · exact hmem

theorem lookup_set (key key' : κ) (value : ν) (fields : List (κ × ν)) :
    (set lt key value fields).lookup key' = if key' = key then some value else fields.lookup key' := by
  induction fields with
  | nil => exact lookup_cons_ite key' (key, value) []
  | cons p fields ih =>
    unfold set
    split
    · next hp =>
      rw [lookup_cons_ite, lookup_cons_ite, hp]
      split
      · rfl
      · rfl
    · next hp =>
      split
      · rw [lookup_cons_ite]
      · rw [lookup_cons_ite, lookup_cons_ite, ih]
        by_cases h : key' = p.1
        · rw [if_pos h, if_pos h, if_neg fun h' => hp (h.symm.trans h')]
        · rw [if_neg h, if_neg h]

omit [BEq κ] [LawfulBEq κ] in
theorem set_perm {key : κ} {fields : List (κ × ν)} (h : key ∉ fields.map Prod.fst) (value : ν) :
    (set lt key value fields).Perm ((key, value) :: fields) := by
  induction fields with
  | nil => exact .refl _
  | cons p fields ih =>
    rw [List.map_cons, List.mem_cons, not_or] at h
    unfold set
    rw [if_neg fun h' => h.1 h'.symm]
    split
    · exact .refl _
    · exact ((ih h.2).cons p).trans (.swap _ _ _)

/-! ## Writing fields in turn -/

omit [BEq κ] [LawfulBEq κ] in
theorem foldl_set_perm {l fields : List (κ × ν)} (h : ((l ++ fields).map Prod.fst).Nodup) :
    (l.foldl (fun fields p => set lt p.1 p.2 fields) fields).Perm (l ++ fields) := by
  induction l generalizing fields with
  | nil => exact .refl _
  | cons p l ih =>
    have hperm : (l ++ set lt p.1 p.2 fields).Perm (p :: (l ++ fields)) := by
      refine (List.Perm.append_left l (set_perm (fun hmem => ?_) p.2)).trans List.perm_middle
      rw [List.cons_append, List.map_cons, List.nodup_cons, List.map_append, List.mem_append, not_or] at h
      exact h.1.2 hmem
    exact (ih ((hperm.map Prod.fst).nodup_iff.mpr h)).trans hperm

omit [BEq κ] [LawfulBEq κ] in
/-- Every field has been written. -/
theorem mem_foldl_set {l fields : List (κ × ν)} {p : κ × ν}
    (h : p ∈ l.foldl (fun fields p => set lt p.1 p.2 fields) fields) : p ∈ l ∨ p ∈ fields := by
  have hset : ∀ (q : κ × ν) (fields : List (κ × ν)), p ∈ set lt q.1 q.2 fields → p = q ∨ p ∈ fields := by
    intro q fields hp
    induction fields with
    | nil => exact .inl (List.mem_singleton.mp hp)
    | cons r fields ih =>
      unfold set at hp
      split at hp
      · rcases List.mem_cons.mp hp with rfl | hp
        · exact .inl rfl
        · exact .inr (List.mem_cons_of_mem r hp)
      · split at hp
        · rcases List.mem_cons.mp hp with rfl | hp
          · exact .inl rfl
          · exact .inr hp
        · rcases List.mem_cons.mp hp with rfl | hp
          · exact .inr List.mem_cons_self
          · exact (ih hp).imp_right (List.mem_cons_of_mem r)
  induction l generalizing fields with
  | nil => exact .inr h
  | cons q l ih =>
    rcases ih h with hmem | hmem
    · exact .inl (List.mem_cons_of_mem q hmem)
    · rcases hset q fields hmem with rfl | hmem
      · exact .inl List.mem_cons_self
      · exact .inr hmem

omit [BEq κ] [LawfulBEq κ] in
/-- Fields that are written in a loop in which a round may fail. -/
theorem foldlM_eq_foldl_set (lt : κ → κ → Bool) {ε α : Type}
    (write : List (κ × ν) → α → Except ε (List (κ × ν))) {f : α → κ × ν} {l : List α} (h : ∀ a ∈ l, ∀ fields, write fields a = .ok (set lt (f a).1 (f a).2 fields))
    (fields : List (κ × ν)) :
    l.foldlM write fields = .ok ((l.map f).foldl (fun fields p => set lt p.1 p.2 fields) fields) := by
  induction l generalizing fields with
  | nil => rfl
  | cons a l ih =>
    rw [List.foldlM_cons, h a List.mem_cons_self, List.map_cons, List.foldl_cons]
    exact ih (fun a' ha' => h a' (List.mem_cons_of_mem a ha')) _

omit [DecidableEq κ] [BEq κ] [LawfulBEq κ] in
/-- No round of a loop that returns has failed. -/
theorem exists_of_foldlM_ok {ε σ α : Type} {f : σ → α → Except ε σ} {l : List α} {s s' : σ}
    (h : l.foldlM f s = .ok s') : ∀ a ∈ l, ∃ s₁ s₂, f s₁ a = .ok s₂ := by
  induction l generalizing s with
  | nil => exact nofun
  | cons a l ih =>
    rw [List.foldlM_cons] at h
    cases hstep : f s a with
    | error e =>
      rw [hstep] at h
      cases h
    | ok s₁ =>
      rw [hstep] at h
      intro a' ha'
      rcases List.mem_cons.mp ha' with rfl | ha'
      · exact ⟨s, s₁, hstep⟩
      · exact ih h a' ha'

/-- A line of code that writes a field if a condition holds; its value may not come to be. -/
structure Line (ε κ ν : Type*) where
  key : κ
  written : Bool
  value : Except ε ν

section Lines

variable {ε : Type*}

def writeLine (lt : κ → κ → Bool) (fields : List (κ × ν)) (line : Line ε κ ν) :
    Except ε (List (κ × ν)) :=
  if line.written then line.value.map fun value => set lt line.key value fields else .ok fields

def writeLines (lt : κ → κ → Bool) (lines : List (Line ε κ ν)) (fields : List (κ × ν)) :
    Except ε (List (κ × ν)) :=
  lines.foldlM (writeLine lt) fields

/-- What a line writes. -/
def Line.field (line : Line ε κ ν) : Option ν := if line.written then line.value.toOption else none

theorem writeLine_eq (lt : κ → κ → Bool) {line : Line ε κ ν}
    (h : line.written = true → ∃ value, line.value = .ok value) (fields : List (κ × ν)) : ∃ fields', writeLine lt fields line = .ok fields' ∧
      ∀ key, fields'.lookup key = if key = line.key then line.field.or (fields.lookup key) else
        fields.lookup key := by
  unfold writeLine Line.field
  by_cases hwritten : line.written = true
  · obtain ⟨value, hvalue⟩ := h hwritten
    refine ⟨set lt line.key value fields, ?_, fun key => ?_⟩
    · rw [if_pos hwritten, hvalue]
      rfl
    · rw [lookup_set, if_pos hwritten, hvalue]
      rfl
  · refine ⟨fields, if_neg hwritten, fun key => ?_⟩
    rw [if_neg hwritten]
    split
    · rfl
    · rfl

/-- Every line has a key of its own. -/
theorem writeLines_eq (lt : κ → κ → Bool) {lines : List (Line ε κ ν)} (hkeys : (lines.map Line.key).Nodup)
    (h : ∀ line ∈ lines, line.written = true → ∃ value, line.value = .ok value) (fields : List (κ × ν)) :
    ∃ fields', writeLines lt lines fields = .ok fields' ∧
      (∀ line ∈ lines, fields'.lookup line.key = line.field.or (fields.lookup line.key)) ∧
      ∀ key ∉ lines.map Line.key, fields'.lookup key = fields.lookup key := by
  induction lines generalizing fields with
  | nil => exact ⟨fields, rfl, nofun, fun _ _ => rfl⟩
  | cons line lines ih =>
    rw [List.map_cons, List.nodup_cons] at hkeys
    obtain ⟨fields', hline, hlookup⟩ := writeLine_eq lt (h line List.mem_cons_self) fields
    obtain ⟨fields'', hlines, hmem, hnot⟩ :=
      ih hkeys.2 (fun line' hline' => h line' (List.mem_cons_of_mem line hline')) fields'
    refine ⟨fields'', ?_, ?_, ?_⟩
    · unfold writeLines
      rw [List.foldlM_cons, hline]
      exact hlines
    · intro line' hline'
      rcases List.mem_cons.mp hline' with rfl | hline'
      · rw [hnot _ hkeys.1, hlookup, if_pos rfl]
      · have hne : line'.key ≠ line.key := fun heq => hkeys.1 (heq ▸ List.mem_map_of_mem hline')
        rw [hmem line' hline', hlookup, if_neg hne]
    · intro key hkey
      rw [List.map_cons, List.mem_cons, not_or] at hkey
      rw [hnot key hkey.2, hlookup, if_neg hkey.1]

end Lines

/-! ## Maps without an order -/

/-- `map[key] = value` for every field in turn. -/
def insertAll (fields : List (κ × μ)) (map : AList fun _ : κ => μ) : AList fun _ : κ => μ :=
  fields.foldl (fun map p => map.insert p.1 p.2) map

theorem lookup_insertAll {fields : List (κ × μ)} (h : (fields.map Prod.fst).Nodup) (map : AList fun _ : κ => μ)
    (key : κ) : (insertAll fields map).lookup key = (fields.lookup key).or (map.lookup key) := by
  induction fields generalizing map with
  | nil => rfl
  | cons p fields ih =>
    rw [List.map_cons, List.nodup_cons] at h
    show (insertAll fields _).lookup key = _
    rw [ih h.2, lookup_cons_ite]
    by_cases heq : key = p.1
    · have hnone : fields.lookup key = none := by
        rw [List.lookup_eq_none_iff]
        intro q hq
        rw [bne_iff_ne]
        intro hkey
        exact h.1 (heq ▸ hkey ▸ List.mem_map_of_mem hq)
      rw [hnone, if_pos heq, heq, AList.lookup_insert]
      rfl
    · rw [if_neg heq, AList.lookup_insert_ne heq]

omit [BEq κ] [LawfulBEq κ] in
/-- A loop in which a round may fail. -/
theorem foldlM_eq_insertAll {ε α : Type}
    {read : (AList fun _ : κ => μ) → α → Except ε (AList fun _ : κ => μ)} {g : α → κ × μ} {l : List α} (h : ∀ a ∈ l, ∀ map, read map a = .ok (map.insert (g a).1 (g a).2))
    (map : AList fun _ : κ => μ) : l.foldlM read map = .ok (insertAll (l.map g) map) := by
  induction l generalizing map with
  | nil => rfl
  | cons a l ih =>
    rw [List.foldlM_cons, h a List.mem_cons_self]
    exact ih (fun a' ha' => h a' (List.mem_cons_of_mem a ha')) _

/-- What is written of a map, in whatever order, and read back entry by entry is the map. -/
theorem lookup_written {α : Type*} {map : AList fun _ : κ => μ} {f : (Σ _ : κ, μ) → α} {g : α → κ × μ}
    {l : List α} (hperm : l.Perm (map.entries.map f)) (hg : ∀ e ∈ map.entries, g (f e) = (e.1, e.2)) (key : κ) :
    (insertAll (l.map g) ∅).lookup key = map.lookup key := by
  have hentries : (l.map g).Perm (map.entries.map fun e => (e.1, e.2)) := by
    refine (hperm.map g).trans (List.Perm.of_eq ?_)
    rw [List.map_map]
    exact List.map_congr_left hg
  have hkeys : ((l.map g).map Prod.fst).Nodup := by
    refine (hentries.map Prod.fst).nodup_iff.mpr ?_
    rw [List.map_map]
    exact map.nodupKeys
  rw [lookup_insertAll hkeys, AList.lookup_empty, Option.or_none]
  refine Option.ext fun value => ?_
  rw [lookup_eq_some_iff_mem hkeys, hentries.mem_iff, List.mem_map]
  show _ ↔ value ∈ map.lookup key
  rw [AList.mem_lookup_iff]
  constructor
  · rintro ⟨⟨key', value'⟩, hmem, heq⟩
    injection heq with hkey hvalue
    rw [← hkey, ← hvalue]
    exact hmem
  · intro hmem
    exact ⟨⟨key, value⟩, hmem, rfl⟩

omit [BEq κ] [LawfulBEq κ] in
/-- The entries of a map are written to fields of their own. -/
theorem foldl_set_entries_perm (lt : κ → κ → Bool) {κ' : Type*} {map : AList fun _ : κ' => μ} {f : (Σ _ : κ', μ) → κ × ν}
    (hf : ∀ e ∈ map.entries, ∀ e' ∈ map.entries, (f e).1 = (f e').1 → e.1 = e'.1) :
    ((map.entries.map f).foldl (fun fields p => set lt p.1 p.2 fields) []).Perm (map.entries.map f) := by
  have hkeys : ((map.entries.map f).map Prod.fst).Nodup := by
    rw [List.map_map]
    refine List.Nodup.map_on (fun e he e' he' heq => ?_) map.nodupKeys.nodup
    exact map.nodupKeys.eq_of_fst_eq he he' (hf e he e' he' heq)
  rw [← List.append_nil (map.entries.map f)] at hkeys
  exact (foldl_set_perm hkeys).trans (.of_eq (List.append_nil _))

omit [BEq κ] [LawfulBEq κ] in
theorem mem_keys_insertAll {fields : List (κ × μ)} {map : AList fun _ : κ => μ} {key : κ}
    (h : key ∈ insertAll fields map) : key ∈ fields.map Prod.fst ∨ key ∈ map := by
  induction fields generalizing map with
  | nil => exact .inr h
  | cons p fields ih =>
    rcases ih h with hmem | hmem
    · exact .inl (List.mem_cons_of_mem _ hmem)
    · rcases (AList.mem_insert _).mp hmem with rfl | hmem
      · exact .inl List.mem_cons_self
      · exact .inr hmem

end SortedFields
