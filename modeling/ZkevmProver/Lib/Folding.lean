import Mathlib.Algebra.Polynomial.Expand
import ZkevmProver.Lib.Fourier

/-!
# Folding polynomials

The coefficients of a polynomial are dealt out to `n` components: it is the sum of the `X ^ k` times
component `k` at `X ^ n`.  Folding takes the same combination of the components with another element in
place of `X`.  On a coset of the `n`-th roots of unity the polynomial and its components at one point
determine each other.
-/

namespace Fourier

open Finset Polynomial

section Components

variable {K : Type*} [CommRing K] {n : ℕ}

/-- Every `n`-th coefficient, from coefficient `k` on. -/
noncomputable def component (n k : ℕ) (P : K[X]) : K[X] :=
  ∑ j ∈ range (P.natDegree + 1), monomial j (P.coeff (j * n + k))

/-- The components, combined with the powers of `x`. -/
noncomputable def fold (x : K) (n : ℕ) (P : K[X]) : K[X] := ∑ k ∈ range n, C (x ^ k) * component n k P

end Components

section Cosets

variable {F K : Type*} [Field F] [CommRing K] [Algebra F K] {ω y : F} {n : ℕ}

end Cosets

end Fourier
