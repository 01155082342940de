import Mathlib.LinearAlgebra.Matrix.NonsingularInverse

/-!
# Schur complements of selected rows

Of the rows of a matrix some are eliminated and some are kept; both are selected by functions, so that
a permuted matrix and its parts need no reordering.

* `Schur.complement` — the Schur complement.
* `Schur.complement_congr` — the complement depends only on the selected entries.
-/

namespace Espreso

namespace Schur

open Matrix

variable {ι κ m n : Type} [Fintype ι] [DecidableEq ι] {𝕜 : Type} [CommRing 𝕜]

/-- The Schur complement after the elimination of the rows `r`, on the rows `s`. -/
noncomputable def complement (M : Matrix n n 𝕜) (r : ι → n) (s : κ → n) : Matrix κ κ 𝕜 :=
  M.submatrix s s - M.submatrix s r * (M.submatrix r r)⁻¹ * M.submatrix r s

/-- **The complement depends only on the selected entries**: so it may be taken of a permuted matrix. -/
lemma complement_congr {M : Matrix n n 𝕜} {M' : Matrix m m 𝕜} {r : ι → n} {s : κ → n} {r' : ι → m}
    {s' : κ → m} (h : M.submatrix (Sum.elim r s) (Sum.elim r s)
      = M'.submatrix (Sum.elim r' s') (Sum.elim r' s')) :
    complement M r s = complement M' r' s' := by
  have hss : M.submatrix s s = M'.submatrix s' s' := congrArg (·.submatrix Sum.inr Sum.inr) h
  have hsr : M.submatrix s r = M'.submatrix s' r' := congrArg (·.submatrix Sum.inr Sum.inl) h
  have hrs : M.submatrix r s = M'.submatrix r' s' := congrArg (·.submatrix Sum.inl Sum.inr) h
  have hrr : M.submatrix r r = M'.submatrix r' r' := congrArg (·.submatrix Sum.inl Sum.inl) h
  rw [complement, complement, hss, hsr, hrs, hrr]

lemma complement_of_isEmpty [IsEmpty ι] (M : Matrix n n 𝕜) (r : ι → n) (s : κ → n) :
    complement M r s = M.submatrix s s := by
  ext i j
  rw [complement, Matrix.sub_apply, mul_apply, Finset.univ_eq_empty, Finset.sum_empty, sub_zero]

lemma transpose_complement {M : Matrix n n 𝕜} (h : Mᵀ = M) (r : ι → n) (s : κ → n) :
    (complement M r s)ᵀ = complement M r s := by
  rw [complement, transpose_sub, transpose_mul, transpose_mul, transpose_nonsing_inv,
    transpose_submatrix, transpose_submatrix, transpose_submatrix, transpose_submatrix, h,
    Matrix.mul_assoc]

end Schur

end Espreso
