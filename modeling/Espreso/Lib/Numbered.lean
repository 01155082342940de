import Mathlib.LinearAlgebra.Matrix.NonsingularInverse
import Mathlib.LinearAlgebra.Matrix.ToLin

/-!
# Matrices with numbered rows and columns

Programs number rows and columns from 0 and keep the sizes apart.  `Numbered.mat` and `Numbered.vec`
read such data as a matrix and a vector; a product is then a sum over the numbers below the size.
-/

namespace Numbered

open Matrix Finset

variable {𝕜 : Type} [CommRing 𝕜] {m n : ℕ}

/-- The `m × n` matrix with the given entries. -/
def mat (m n : ℕ) (A : ℕ → ℕ → 𝕜) : Matrix (Fin m) (Fin n) 𝕜 := Matrix.of fun i j => A i j

/-- The first `n` values. -/
def vec (n : ℕ) (x : ℕ → 𝕜) : Fin n → 𝕜 := fun i => x i

omit [CommRing 𝕜] in
@[simp] lemma mat_apply (A : ℕ → ℕ → 𝕜) (i : Fin m) (j : Fin n) : mat m n A i j = A i j := rfl

omit [CommRing 𝕜] in
@[simp] lemma vec_apply (x : ℕ → 𝕜) (i : Fin n) : vec n x i = x i := rfl

omit [CommRing 𝕜] in
lemma vec_eq_iff {x y : ℕ → 𝕜} : vec n x = vec n y ↔ ∀ i < n, x i = y i :=
  ⟨fun h i hi => congrFun h ⟨i, hi⟩, fun h => funext fun i => h i i.isLt⟩

omit [CommRing 𝕜] in
lemma mat_congr {A A' : ℕ → ℕ → 𝕜} (h : ∀ i < m, ∀ j < n, A i j = A' i j) :
    mat m n A = mat m n A' := by
  ext i j
  exact h i i.isLt j j.isLt

lemma mat_mulVec (A : ℕ → ℕ → 𝕜) (x : ℕ → 𝕜) :
    mat m n A *ᵥ vec n x = vec m fun i => ∑ j ∈ range n, A i j * x j := by
  funext i
  rw [vec_apply, Finset.sum_range]
  rfl

omit [CommRing 𝕜] in
lemma mat_transpose (A : ℕ → ℕ → 𝕜) : (mat m n A)ᵀ = mat n m fun i j => A j i := rfl

lemma mat_mul {k : ℕ} (A A' : ℕ → ℕ → 𝕜) :
    mat m k A * mat k n A' = mat m n fun i j => ∑ l ∈ range k, A i l * A' l j := by
  ext i j
  rw [Matrix.mul_apply, mat_apply, Finset.sum_range]
  rfl

lemma vec_sub (x y : ℕ → 𝕜) : vec n (fun i => x i - y i) = vec n x - vec n y := rfl

lemma vec_add (x y : ℕ → 𝕜) : vec n (fun i => x i + y i) = vec n x + vec n y := rfl

lemma vec_neg (x : ℕ → 𝕜) : vec n (fun i => -x i) = -vec n x := rfl

lemma exists_vec (x : Fin n → 𝕜) : ∃ y : ℕ → 𝕜, vec n y = x :=
  ⟨fun i => if h : i < n then x ⟨i, h⟩ else 0, funext fun i => dif_pos i.isLt⟩

lemma solve_eq_inv {A : Matrix (Fin n) (Fin n) 𝕜} {solve : (ℕ → 𝕜) → ℕ → 𝕜}
    (h : ∀ b, A *ᵥ vec n (solve b) = vec n b) :
    A * A⁻¹ = 1 ∧ A⁻¹ * A = 1 ∧ ∀ b, vec n (solve b) = A⁻¹ *ᵥ vec n b := by
  have hsurj : Function.Surjective A.mulVec := by
    intro y
    obtain ⟨b, rfl⟩ := exists_vec y
    exact ⟨_, h b⟩
  have hdet : IsUnit A.det := (isUnit_iff_isUnit_det A).mp (mulVec_surjective_iff_isUnit.mp hsurj)
  refine ⟨mul_nonsing_inv A hdet, nonsing_inv_mul A hdet, fun b => ?_⟩
  rw [← h b, mulVec_mulVec, nonsing_inv_mul A hdet, one_mulVec]

end Numbered
