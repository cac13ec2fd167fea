import ZkevmProver.StarkPil.Polinomial
import ZkevmProver.StarkPil.Transcript

/-!
# Proving that a table is close to a polynomial

`FRIProve::prove` and `FRIProveC12::prove` halve a table of values again and again.  What they get from the
transcript is given: the challenge `special_x si` of every step and the indices `ys` of the queries.  A tree
is known by the rows that it opens.

  1. Integers and memory.
  2. One row of a table.
  3. One step.
  4. The queries.
  5. The provers.
-/

namespace ZkevmProver

open Loops

variable {F : Type} [Field F] (G : NTTGoldilocks F)

/-! ## Integers and memory -/

/-- `1 << n`, where `1` is an `int`: there is no such shift from 32 on. -/
def intShift (n : ℕ) : Option ℕ := if n < 32 then some (shiftOne n) else none

/-- A new polynomial of dimension three.  It is an error when no such memory exists. -/
def allocate (degree : ℕ) : Option (ℕ → F) :=
  if degree * 3 % 2 ^ 64 * 8 < 2 ^ 64 then some fun _ => 0 else none

def copyElement (a : ℕ → F) (idx_a : ℕ) (b : ℕ → F) (idx_b : ℕ) : ℕ → F :=
  write3 a (idx_a * 3) (b (idx_b * 3)) (b (idx_b * 3 + 1)) (b (idx_b * 3 + 2))

def addElement (out : ℕ → F) (idx_out : ℕ) (a : ℕ → F) (idx_a : ℕ) (b : ℕ → F) (idx_b : ℕ) : ℕ → F :=
  write3 out (idx_out * 3) (a (idx_a * 3) + b (idx_b * 3)) (a (idx_a * 3 + 1) + b (idx_b * 3 + 1))
    (a (idx_a * 3 + 2) + b (idx_b * 3 + 2))

/-! ## One row of a table -/

def polMulAxi (degree : ℕ) (pol : ℕ → F) (init acc : F) : ℕ → F :=
  (forUpTo degree
    (fun i s => (mulElement s.1 (i * 3) s.1 (i * 3) (fun _ => s.2) 0 1, s.2 * acc)) (pol, init)).1

def evalPol (res : ℕ → F) (res_idx degree : ℕ) (p x : ℕ → F) : ℕ → F :=
  if degree = 0 then write3 res (res_idx * 3) 0 0 0
  else
    forUpTo (degree - 1)
      (fun n res =>
        let i := degree - 2 - n
        let aux := mulElement (fun _ => 0) 0 res (res_idx * 3) x 0 3
        addElement res res_idx aux 0 p i) (copyElement res res_idx p (degree - 1))

/-- The values at `nX` points are folded to one. -/
def foldRow (friPol : ℕ → F) (nX pol2N g : ℕ) (sinv_ : F) (special_x pol2_e : ℕ → F) : ℕ → F :=
  let ppar := forUpTo nX (fun i ppar => copyElement ppar i friPol (i * pol2N + g)) fun _ => 0
  let ppar_c := G.INTT ppar nX 3
  let ppar_c := polMulAxi nX ppar_c 1 sinv_
  evalPol pol2_e g nX ppar_c special_x

/-! ## One step -/

/-- What a tree has in its rows. -/
structure GroupTree (F : Type) where
  nGroups : ℕ := 0
  width : ℕ := 0
  source : ℕ → F

/-- What the steps change. -/
structure FriState (F : Type) where
  friPol : ℕ → F
  polBits : ℕ
  polShiftInv : F
  trees : ℕ → GroupTree F

/-- The rows of thread `thid`, one of `nth`. -/
def friThread (si nX pol2N nn nth : ℕ) (friPol special_x : ℕ → F) (sinv wi : F) (pol2_e : ℕ → F)
    (thid : ℕ) : ℕ → F :=
  let chunk := nn / nth
  let res := nn - nth * chunk
  let first := if thid < res then chunk * thid + thid else chunk * thid + res
  let last := if thid < res then first + chunk + 1 else first + chunk
  let aux := forUpTo (chunk - 1) (fun _ aux => aux * wi) wi
  let sinv_ := forUpTo thid (fun _ s => s * aux) sinv
  let ncor := if thid < res then thid else res
  let sinv_ := forUpTo ncor (fun _ s => s * wi) sinv_
  (forUpTo (last - first)
    (fun d s =>
      let g := first + d
      if si = 0 then (copyElement s.1 g friPol g, s.2)
      else (foldRow G friPol nX pol2N g s.2 special_x s.1, s.2 * wi)) (pol2_e, sinv_)).1

def getTransposed (aux pol : ℕ → F) (degree trasposeBits : ℕ) : Option (ℕ → F) := do
  let w ← intShift trasposeBits
  let h := degree / w
  return forUpTo w (fun i aux => forUpTo h (fun j aux => copyElement aux (i * h + j) pol (j * w + i)) aux) aux

/-- `nGroups` and `groupSize * FIELD_EXTENSION` of the tree after step `si` -/
def treeShape (steps : List ℕ) (si : ℕ) : Option (ℕ × ℕ) := do
  let nGroups ← intShift (steps.getD (si + 1) 0)
  let groupSize := (← intShift (steps.getD si 0)) / nGroups
  return (nGroups, groupSize * 3)

/-- The body of the loop over the steps. -/
def friStep (shape : ℕ → Option (ℕ × ℕ)) (steps : List ℕ) (maxth : ℕ → ℕ) (special_x : ℕ → ℕ → F)
    (st : FriState F) (si : ℕ) : Option (FriState F) := do
  let reductionBits := st.polBits - steps.getD si 0
  let pol2N ← intShift (st.polBits - reductionBits)
  let nX := (← intShift st.polBits) / pol2N
  let pol2_e ← allocate pol2N
  let nn := (← intShift st.polBits) / nX
  let nth := min (maxth si) nn
  let pol2_e := (List.range nth).foldl
    (friThread G si nX pol2N nn nth st.friPol (special_x si) st.polShiftInv (G.w st.polBits)⁻¹) pol2_e
  let trees ←
    if si < steps.length - 1 then do
      let (nGroups, width) ← shape si
      let aux ← allocate pol2N
      let aux ← getTransposed aux pol2_e pol2N (steps.getD (si + 1) 0)
      pure (Function.update st.trees (si + 1) ⟨nGroups, width, aux⟩)
    else pure st.trees
  return {
    friPol := forUpTo pol2N (fun i friPol => copyElement friPol i pol2_e i) st.friPol
    polBits := st.polBits - reductionBits
    polShiftInv := forUpTo reductionBits (fun _ s => s * s) st.polShiftInv
    trees := trees }

/-- The state before the first step. -/
def friStart (friPol : ℕ → F) (polBits : ℕ) : FriState F where
  friPol := friPol
  polBits := polBits
  polShiftInv := G.shift⁻¹
  trees := fun _ => { source := fun _ => 0 }

/-! ## The queries -/

/-- `fproof.proofs.fri` -/
structure FriProof (F : Type) where
  pol : ℕ → F
  polQueries : List (List (List (List F)))

namespace FRIProve

/-- The first `n` steps. -/
def run (steps : List ℕ) (maxth : ℕ → ℕ) (special_x : ℕ → ℕ → F) (friPol : ℕ → F) (polBits n : ℕ) :
    Option (FriState F) :=
  (List.range n).foldlM (friStep G (treeShape steps) steps maxth special_x) (friStart G friPol polBits)

end FRIProve

namespace FRIProveC12

/-- The first `n` steps.  All trees are made before them. -/
def run (steps : List ℕ) (maxth : ℕ → ℕ) (special_x : ℕ → ℕ → F) (friPol : ℕ → F) (polBits n : ℕ) :
    Option (FriState F) := do
  let shapes ← (List.range (steps.length - 1)).mapM (treeShape steps)
  (List.range n).foldlM (friStep G (fun si => shapes[si]?) steps maxth special_x) (friStart G friPol polBits)

end FRIProveC12

end ZkevmProver
