import Mathlib.Data.List.GetD
import ZkevmProver.StarkPil.Polinomial

/-!
# The evaluations of step 5

Every entry of the evaluation map asks for the value of a column at `xi` or at the next point.  The columns
are in one memory `mem`, the constant ones from `pConstPols2ns` on, the others from `pAddress` on.  The
entries are taken in the order of their addresses, and the rows are split between threads.

  1. The evaluation map.
  2. The columns in the order of their addresses.
  3. The sums of the threads.
-/

namespace ZkevmProver

open Fourier Loops Polynomial

/-! ## The evaluation map -/

/-- `eSection` -/
inductive ESection
  | cm1_n | cm1_2ns | cm2_n | cm2_2ns | cm3_n | cm3_2ns | cm4_n | cm4_2ns | tmpExp_n | q_2ns | f_2ns

structure VarPolMap where
  polSection : ESection
  dim : ℕ
  sectionPos : ℕ

/-- `EvMap::eType` -/
inductive EvMapType
  | cm | const | q

structure EvMap where
  type : EvMapType
  id : ℕ
  prime : Bool

/-- What the evaluations need of `StarkInfo`. -/
structure StarkInfo where
  nBits : ℕ
  nBitsExt : ℕ
  nConstants : ℕ
  varPolMap : ℕ → VarPolMap
  mapOffsets : ESection → ℕ
  mapSectionsN : ESection → ℕ
  cm_2ns : ℕ → ℕ
  qs : ℕ → ℕ
  evMap : List EvMap

/-- A polynomial in the memory; row `i` is `offset` places after row `i - 1`. -/
structure Polinomial where
  pAddress : ℕ := 0
  dim : ℕ := 0
  offset : ℕ := 0

/-- `operator[]` -/
def Polinomial.row (p : Polinomial) (i : ℕ) : ℕ := p.pAddress + i * p.offset

/-- What is in row `i`. -/
noncomputable def Polinomial.value {F : Type*} [Field F] (p : Polinomial) (mem : ℕ → F) (i : ℕ) :
    Goldilocks3 F :=
  Goldilocks3.element mem (p.row i) p.dim

namespace StarkInfo

variable (info : StarkInfo) (pAddress pConstPols2ns : ℕ)

def getPolinomial (idPol : ℕ) : Polinomial :=
  let polInfo := info.varPolMap idPol
  { pAddress := pAddress + (info.mapOffsets polInfo.polSection + polInfo.sectionPos)
    dim := polInfo.dim
    offset := info.mapSectionsN polInfo.polSection }

/-- The column that an entry is about. -/
def evPol (ev : EvMap) : Polinomial :=
  match ev.type with
  | .const => ⟨pConstPols2ns + ev.id, 1, info.nConstants⟩
  | .cm => info.getPolinomial pAddress (info.cm_2ns ev.id)
  | .q => info.getPolinomial pAddress (info.qs ev.id)

/-- `starkInfo.evMap[i]` -/
def ev (i : ℕ) : EvMap := info.evMap.getD i ⟨.cm, 0, false⟩

/-! ## The columns in the order of their addresses -/

/-- `map_offsets[address].push_back(i)`: a map is the list of its pairs, in the order of their keys. -/
def pushBack (address i : ℕ) : List (ℕ × List ℕ) → List (ℕ × List ℕ)
  | [] => [(address, [i])]
  | (key, indices) :: rest =>
    if address < key then (address, [i]) :: (key, indices) :: rest
    else if address = key then (key, indices ++ [i]) :: rest
    else (key, indices) :: pushBack address i rest

/-- The indices are of type `uint`. -/
def map_offsets : List (ℕ × List ℕ) :=
  (List.range info.evMap.length).foldl
    (fun m i => pushBack (info.evPol pAddress pConstPols2ns (info.ev i)).pAddress (i % 2 ^ 32) m) []

/-- `ordPols[kk]`, `isPrime[kk]` and `indx[kk]` -/
structure OrdPol where
  pol : Polinomial := {}
  isPrime : Bool := false
  indx : ℕ := 0

def ordPol (i : ℕ) : OrdPol :=
  ⟨info.evPol pAddress pConstPols2ns (info.ev i), (info.ev i).prime, i⟩

def ordPols : List OrdPol :=
  (info.map_offsets pAddress pConstPols2ns).flatMap fun it =>
    it.2.map (info.ordPol pAddress pConstPols2ns)

theorem pushBack_perm (address i : ℕ) (m : List (ℕ × List ℕ)) :
    ((pushBack address i m).flatMap Prod.snd).Perm (m.flatMap Prod.snd ++ [i]) := by
  induction m with
  | nil => exact .refl _
  | cons p rest ih =>
    obtain ⟨key, indices⟩ := p
    unfold pushBack
    split
    · exact @List.perm_append_comm _ [i] _
    · split
      · simp only [List.flatMap_cons, List.append_assoc]
        exact (@List.perm_append_comm _ [i] _).append_left indices
      · simp only [List.flatMap_cons, List.append_assoc]
        exact ih.append_left indices

theorem map_offsets_perm (hsize : info.evMap.length ≤ 2 ^ 32) :
    ((info.map_offsets pAddress pConstPols2ns).flatMap Prod.snd).Perm (List.range info.evMap.length) := by
  suffices h : ∀ n ≤ 2 ^ 32, (((List.range n).foldl (fun m i =>
      pushBack (info.evPol pAddress pConstPols2ns (info.ev i)).pAddress (i % 2 ^ 32) m) []).flatMap
        Prod.snd).Perm (List.range n) from h _ hsize
  intro n hn
  induction n with
  | zero => exact .refl _
  | succ n ih =>
    rw [List.range_succ, List.foldl_append, List.foldl_cons, List.foldl_nil, Nat.mod_eq_of_lt hn]
    exact (pushBack_perm _ _ _).trans ((ih (Nat.le_of_succ_le hn)).append_right [n])

/-- The entry that is in place `kk`. -/
def indx (kk : ℕ) : ℕ := ((info.ordPols pAddress pConstPols2ns).getD kk {}).indx

theorem ordPols_eq : info.ordPols pAddress pConstPols2ns =
    ((info.map_offsets pAddress pConstPols2ns).flatMap Prod.snd).map
      (info.ordPol pAddress pConstPols2ns) := by
  rw [ordPols, List.map_flatMap]

theorem indices_perm (hsize : info.evMap.length ≤ 2 ^ 32) :
    ((info.ordPols pAddress pConstPols2ns).map OrdPol.indx).Perm (List.range info.evMap.length) := by
  have hid : (fun i => (info.ordPol pAddress pConstPols2ns i).indx) = fun i => i := rfl
  rw [ordPols_eq, List.map_map]
  show (List.map (fun i => (info.ordPol pAddress pConstPols2ns i).indx) _).Perm _
  rw [hid, List.map_id']
  exact info.map_offsets_perm pAddress pConstPols2ns hsize

theorem length_ordPols (hsize : info.evMap.length ≤ 2 ^ 32) :
    (info.ordPols pAddress pConstPols2ns).length = info.evMap.length := by
  have h := (info.indices_perm pAddress pConstPols2ns hsize).length_eq
  rwa [List.length_map, List.length_range] at h

theorem getD_ordPols {kk : ℕ} (hkk : kk < (info.ordPols pAddress pConstPols2ns).length) :
    (info.ordPols pAddress pConstPols2ns).getD kk {} =
      info.ordPol pAddress pConstPols2ns (info.indx pAddress pConstPols2ns kk) := by
  have hmem := List.getElem_mem hkk
  rw [indx, List.getD_eq_getElem _ _ hkk]
  generalize (info.ordPols pAddress pConstPols2ns)[kk] = o at hmem
  rw [ordPols_eq] at hmem
  obtain ⟨i, -, rfl⟩ := List.mem_map.mp hmem
  rfl

/-- Every entry has one place. -/
theorem exists_indx (hsize : info.evMap.length ≤ 2 ^ 32) {i : ℕ} (hi : i < info.evMap.length) :
    ∃ kk < info.evMap.length, info.indx pAddress pConstPols2ns kk = i := by
  have hmem := (info.indices_perm pAddress pConstPols2ns hsize).mem_iff.mpr (List.mem_range.mpr hi)
  obtain ⟨kk, hkk, hget⟩ := List.getElem_of_mem hmem
  rw [List.length_map] at hkk
  rw [List.getElem_map] at hget
  refine ⟨kk, by rwa [info.length_ordPols pAddress pConstPols2ns hsize] at hkk, ?_⟩
  rw [indx, List.getD_eq_getElem _ _ hkk, hget]

theorem indx_lt (hsize : info.evMap.length ≤ 2 ^ 32) {kk : ℕ} (hkk : kk < info.evMap.length) :
    info.indx pAddress pConstPols2ns kk < info.evMap.length := by
  rw [← info.length_ordPols pAddress pConstPols2ns hsize] at hkk
  rw [indx, List.getD_eq_getElem _ _ hkk]
  exact List.mem_range.mp ((info.indices_perm pAddress pConstPols2ns hsize).mem_iff.mp
    (List.mem_map_of_mem (List.getElem_mem hkk)))

theorem indx_injective (hsize : info.evMap.length ≤ 2 ^ 32) {kk kk' : ℕ} (hkk : kk < info.evMap.length)
    (hkk' : kk' < info.evMap.length)
    (h : info.indx pAddress pConstPols2ns kk = info.indx pAddress pConstPols2ns kk') : kk = kk' := by
  have hnodup := (info.indices_perm pAddress pConstPols2ns hsize).nodup_iff.mpr List.nodup_range
  rw [← info.length_ordPols pAddress pConstPols2ns hsize] at hkk hkk'
  rw [indx, indx, List.getD_eq_getElem _ _ hkk, List.getD_eq_getElem _ _ hkk'] at h
  refine (@List.Nodup.getElem_inj_iff _ _ hnodup kk (by rwa [List.length_map]) kk'
    (by rwa [List.length_map])).mp ?_
  rw [List.getElem_map, List.getElem_map, h]

/-! ## The sums of the threads -/

section Sums

variable {F : Type} [Field F] (mem LEv LpEv : ℕ → F)

/-- `starkStruct.nBitsExt - starkStruct.nBits` -/
def extendBits : ℕ := info.nBitsExt - info.nBits

/-- The inner loop: row `k` is added to the sums of a thread. -/
def addRow (acc : ℕ → F) (k : ℕ) : ℕ → F :=
  let ordPols := info.ordPols pAddress pConstPols2ns
  forUpTo info.evMap.length
    (fun i acc =>
      let o := ordPols.getD i {}
      mulAddElement_adim3 acc (i * 3) (if o.isPrime then LpEv else LEv) (k * 3) mem
        (o.pol.row (k <<< info.extendBits)) o.pol.dim) acc

/-- `evals_acc` after the loop over the rows, of which `threads` says who takes which. -/
def evals_acc (threads : List (List ℕ)) (t : ℕ) : ℕ → F :=
  (threads.getD t []).foldl (info.addRow pAddress pConstPols2ns mem LEv LpEv) fun _ => 0

/-- `int offset = i * FIELD_EXTENSION`, where it can be used with `offset + 2`. -/
def intOffset (i : ℕ) : Option ℕ :=
  let offset := i * 3 % 2 ^ 32
  if offset + 2 < 2 ^ 31 then some offset else none

/-- The sums of all threads for one entry. -/
def reduceEntry (num_threads : ℕ) (acc : ℕ → ℕ → F) (i : ℕ) : Option (ℕ → ℕ → F) := do
  let offset ← intOffset i
  let sums := forUpTo num_threads
    (fun k s => (s.1 + acc k offset, s.2.1 + acc k (offset + 1), s.2.2 + acc k (offset + 2)))
    ((0 : F), (0 : F), (0 : F))
  return Function.update acc 0 (write3 (acc 0) offset sums.1 sums.2.1 sums.2.2)

/-- Writes one entry to the `degree` rows of `evals`. -/
def writeEntry (degree : ℕ) (acc : ℕ → F) (evals : ℕ → F) (i : ℕ) : Option (ℕ → F) := do
  let offset ← intOffset i
  let row := info.indx pAddress pConstPols2ns i
  if row < degree then
    return write3 evals (row * 3) (acc offset) (acc (offset + 1)) (acc (offset + 2))
  else none

/-- `Starks::evmap` -/
def evmap (threads : List (List ℕ)) (degree : ℕ) (evals : ℕ → F) : Option (ℕ → F) := do
  let size_eval := info.evMap.length
  let acc := info.evals_acc pAddress pConstPols2ns mem LEv LpEv threads
  let acc ← (List.range size_eval).foldlM (reduceEntry threads.length) acc
  (List.range size_eval).foldlM (info.writeEntry pAddress pConstPols2ns degree (acc 0)) evals

end Sums

end StarkInfo

end ZkevmProver
