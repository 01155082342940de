import Mathlib.Data.Matrix.Mul

/-!
# Directions of the projected conjugate gradient method

One iteration of the method takes the projected residual `P r`, preconditions it, and adds a multiple of
the last direction `p`, to which the residual is orthogonal.

* `ConjugateGradient.dot_direction` — the new direction and the residual.
* **`ConjugateGradient.direction_eq_zero_iff`** — the direction vanishes only with the preconditioned
  residual.
-/

namespace Espreso

namespace ConjugateGradient

open Matrix

variable {ι 𝕜 : Type*} [Fintype ι] [Field 𝕜]
variable {P F : Matrix ι ι 𝕜} {r p y : ι → 𝕜} {beta : 𝕜}

lemma dot_projected (hP : Pᵀ = P) (hy : P *ᵥ y = y) : y ⬝ᵥ r = y ⬝ᵥ P *ᵥ r := by
  rw [dotProduct_mulVec, ← mulVec_transpose, hP, hy]

lemma dot_direction (hP : Pᵀ = P) (hy : P *ᵥ y = y) (horth : p ⬝ᵥ r = 0) :
    (y + beta • p) ⬝ᵥ r = y ⬝ᵥ P *ᵥ r := by
  rw [add_dotProduct, smul_dotProduct, horth, smul_zero, add_zero, dot_projected hP hy]

/-- **The next residual** is orthogonal to the direction of the iteration. -/
lemma dot_next {w : ι → 𝕜} (hdot : p ⬝ᵥ r = y ⬝ᵥ w) (hne : p ⬝ᵥ F *ᵥ p ≠ 0) :
    p ⬝ᵥ (r - (y ⬝ᵥ w / (p ⬝ᵥ F *ᵥ p)) • F *ᵥ p) = 0 := by
  rw [dotProduct_sub, dotProduct_smul, smul_eq_mul, div_mul_cancel₀ _ hne, hdot, sub_self]

/-- **The direction** vanishes exactly if the preconditioned residual does. -/
theorem direction_eq_zero_iff (hP : Pᵀ = P) (hy : P *ᵥ y = y) (horth : p ⬝ᵥ r = 0)
    (hbeta : y ⬝ᵥ P *ᵥ r = 0 → beta = 0) : y + beta • p = 0 ↔ y = 0 := by
  constructor
  · intro hzero
    have hdot : (y + beta • p) ⬝ᵥ r = y ⬝ᵥ P *ᵥ r := dot_direction hP hy horth
    rw [hzero, zero_dotProduct] at hdot
    rwa [hbeta hdot.symm, zero_smul, add_zero] at hzero
  · intro hzero
    rw [hbeta (by rw [hzero, zero_dotProduct]), zero_smul, add_zero, hzero]

end ConjugateGradient

end Espreso
