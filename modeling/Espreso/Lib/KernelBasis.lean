import Mathlib.Algebra.BigOperators.Field
import Mathlib.Data.Matrix.ColumnRowPartitioned
import Mathlib.LinearAlgebra.Dimension.OrzechProperty
import Mathlib.LinearAlgebra.Matrix.NonsingularInverse
import Mathlib.LinearAlgebra.Matrix.ToLin
import Mathlib.Tactic.Linarith
import Mathlib.Tactic.LinearCombination

/-!
# Bases of kernels

The columns of a matrix form a basis of the kernel of another one.

* `KernelBasis` — the property.
* **`KernelBasis.of_schur`** — from the Schur complement to the whole matrix.
-/

namespace Espreso

open Matrix

variable {𝕜 : Type} [Field 𝕜]

/-- The columns of `R` are a basis of the kernel of `K`. -/
structure KernelBasis {l m a : Type} [Fintype m] [Fintype a] (K : Matrix l m 𝕜) (R : Matrix m a 𝕜) :
    Prop where
  mulVec_eq_zero : ∀ v, K *ᵥ R *ᵥ v = 0
  injective : ∀ v, R *ᵥ v = 0 → v = 0
  spans : ∀ x, K *ᵥ x = 0 → ∃ v, R *ᵥ v = x

namespace KernelBasis

section

variable {l m a : Type} [Fintype m] [Fintype a] {K : Matrix l m 𝕜} {R : Matrix m a 𝕜}

/-- **The defect** is the number of columns. -/
theorem finrank_eq (h : KernelBasis K R) :
    Module.finrank 𝕜 (LinearMap.ker K.mulVecLin) = Fintype.card a := by
  have hrange : LinearMap.ker K.mulVecLin = LinearMap.range R.mulVecLin := by
    ext x
    rw [LinearMap.mem_ker, LinearMap.mem_range]
    simp only [mulVecLin_apply]
    exact ⟨h.spans x, fun ⟨v, hv⟩ => hv ▸ h.mulVec_eq_zero v⟩
  have hinj : Function.Injective R.mulVecLin :=
    (injective_iff_map_eq_zero _).mpr fun v hv => h.injective v hv
  rw [hrange, LinearMap.finrank_range_of_inj hinj, Module.finrank_fintype_fun_eq_card]

lemma linearIndependent (h : KernelBasis K R) : LinearIndependent 𝕜 R.col := by
  refine mulVec_injective_iff.mp fun v w hvw => ?_
  have hzero : R *ᵥ (v - w) = 0 := by rw [mulVec_sub, hvw, sub_self]
  exact sub_eq_zero.mp (h.injective _ hzero)

end

/-- **From the Schur complement**: the kernel is extended to the eliminated unknowns. -/
theorem of_schur {ι κ a : Type} [Fintype ι] [DecidableEq ι] [Fintype κ] [Fintype a]
    {A : Matrix ι ι 𝕜} {B : Matrix ι κ 𝕜} {C : Matrix κ ι 𝕜} {D : Matrix κ κ 𝕜} {R : Matrix κ a 𝕜}
    (hA : IsUnit A.det) (h : KernelBasis (D - C * A⁻¹ * B) R) :
    KernelBasis (fromBlocks A B C D) (fromRows (A⁻¹ * B * R) (-R)) := by
  have hinv : A * A⁻¹ = 1 := mul_nonsing_inv A hA
  have hinv' : A⁻¹ * A = 1 := nonsing_inv_mul A hA
  have hcolumns : ∀ v, fromRows (A⁻¹ * B * R) (-R) *ᵥ v
      = Sum.elim (A⁻¹ *ᵥ B *ᵥ R *ᵥ v) (-(R *ᵥ v)) := by
    intro v
    rw [fromRows_mulVec, neg_mulVec, mulVec_mulVec, mulVec_mulVec, Matrix.mul_assoc]
  have hproduct : ∀ x y, fromBlocks A B C D *ᵥ Sum.elim x y
      = Sum.elim (A *ᵥ x + B *ᵥ y) (C *ᵥ x + D *ᵥ y) := by
    intro x y
    rw [fromBlocks_mulVec, Sum.elim_comp_inl, Sum.elim_comp_inr]
  have hcomplement : ∀ y, (D - C * A⁻¹ * B) *ᵥ y = D *ᵥ y - C *ᵥ A⁻¹ *ᵥ B *ᵥ y := by
    intro y
    rw [sub_mulVec, mulVec_mulVec, mulVec_mulVec, Matrix.mul_assoc]
  have hcancel : ∀ z, A *ᵥ A⁻¹ *ᵥ z = z := fun z => by rw [mulVec_mulVec, hinv, one_mulVec]
  refine ⟨fun v => ?_, fun v hv => ?_, fun x hx => ?_⟩
  · have hker := h.mulVec_eq_zero v
    rw [hcomplement] at hker
    rw [hcolumns, hproduct, hcancel, mulVec_neg, mulVec_neg, add_neg_cancel, ← sub_eq_add_neg,
      ← neg_sub, hker, neg_zero]
    exact Sum.elim_zero_zero
  · rw [hcolumns] at hv
    have hsecond : -(R *ᵥ v) = 0 := funext fun k => congrFun hv (Sum.inr k)
    exact h.injective v (neg_eq_zero.mp hsecond)
  · obtain ⟨y, z, rfl⟩ : ∃ y z, x = Sum.elim y z :=
      ⟨x ∘ Sum.inl, x ∘ Sum.inr, (Sum.elim_comp_inl_inr x).symm⟩
    rw [hproduct] at hx
    have hfirst : A *ᵥ y + B *ᵥ z = 0 := funext fun i => congrFun hx (Sum.inl i)
    have hsecond : C *ᵥ y + D *ᵥ z = 0 := funext fun k => congrFun hx (Sum.inr k)
    -- the eliminated unknowns follow from the kept ones
    have hy : y = -(A⁻¹ *ᵥ B *ᵥ z) := by
      have hsolved : A⁻¹ *ᵥ A *ᵥ y = y := by rw [mulVec_mulVec, hinv', one_mulVec]
      rw [← hsolved, eq_neg_of_add_eq_zero_left hfirst, mulVec_neg]
    have hker : (D - C * A⁻¹ * B) *ᵥ z = 0 := by
      rw [hcomplement, ← hsecond, hy, mulVec_neg]
      abel
    obtain ⟨v, hv⟩ := h.spans z hker
    refine ⟨-v, ?_⟩
    rw [hcolumns, mulVec_neg, hv, neg_neg, mulVec_neg, mulVec_neg, hy]

/-- **From a permuted and scaled matrix**: the columns are moved back and scaled. -/
theorem of_scaled {m m' a : Type} [Fintype m] [Fintype m'] [Fintype a] {K : Matrix m m 𝕜}
    {K' : Matrix m' m' 𝕜} {R : Matrix m a 𝕜} {R' : Matrix m' a 𝕜} (e : m' ≃ m) {d : m → 𝕜}
    (hd : ∀ i, d i ≠ 0) (hK : ∀ i j, K' i j = K (e i) (e j) / (d (e i) * d (e j)))
    (hR : ∀ i c, R (e i) c = R' i c / d (e i)) (h : KernelBasis K' R') : KernelBasis K R := by
  have hproduct : ∀ x i, (K' *ᵥ fun k => d (e k) * x (e k)) i = (K *ᵥ x) (e i) / d (e i) := by
    intro x i
    rw [mulVec, mulVec, dotProduct, dotProduct, Finset.sum_div, ← e.sum_comp]
    refine Finset.sum_congr rfl fun k _ => ?_
    rw [hK]
    have := hd (e i)
    have := hd (e k)
    field_simp
  have hcolumns : ∀ v i, (R' *ᵥ v) i = d (e i) * (R *ᵥ v) (e i) := by
    intro v i
    rw [mulVec, mulVec, dotProduct, dotProduct, Finset.mul_sum]
    refine Finset.sum_congr rfl fun c _ => ?_
    rw [hR]
    have := hd (e i)
    field_simp
  have hzero : ∀ x, (K' *ᵥ fun k => d (e k) * x (e k)) = 0 ↔ K *ᵥ x = 0 := by
    intro x
    constructor
    · intro hx
      funext j
      have hj := (hproduct x (e.symm j)).symm.trans (congrFun hx (e.symm j))
      rw [e.apply_symm_apply] at hj
      exact (div_eq_zero_iff.mp hj).resolve_right (hd j)
    · intro hx
      funext i
      rw [hproduct, hx, Pi.zero_apply, zero_div, Pi.zero_apply]
  refine ⟨fun v => ?_, fun v hv => ?_, fun x hx => ?_⟩
  · rw [← hzero, ← funext (hcolumns v)]
    exact h.mulVec_eq_zero v
  · refine h.injective v (funext fun i => ?_)
    rw [hcolumns, hv, Pi.zero_apply, mul_zero, Pi.zero_apply]
  · obtain ⟨v, hv⟩ := h.spans _ ((hzero x).mpr hx)
    refine ⟨v, funext fun j => ?_⟩
    have hj := (hcolumns v (e.symm j)).symm.trans (congrFun hv (e.symm j))
    rw [e.apply_symm_apply] at hj
    exact mul_left_cancel₀ (hd j) hj

/-- **A change of basis**: as many columns that span the same space. -/
theorem of_span_eq {l m a : Type} [Fintype m] [Fintype a] {K : Matrix l m 𝕜} {R Q : Matrix m a 𝕜}
    (hspan : Submodule.span 𝕜 (Set.range Q.col) = Submodule.span 𝕜 (Set.range R.col))
    (h : KernelBasis K R) : KernelBasis K Q := by
  have hcard : Fintype.card a = (Set.range Q.col).finrank 𝕜 := by
    rw [Set.finrank, hspan]
    exact (finrank_span_eq_card h.linearIndependent).symm
  have hinjective : Function.Injective Q.mulVec :=
    mulVec_injective_iff.mpr (linearIndependent_iff_card_eq_finrank_span.mpr hcard)
  have hrange : LinearMap.range Q.mulVecLin = LinearMap.range R.mulVecLin := by
    rw [range_mulVecLin, range_mulVecLin, hspan]
  refine ⟨fun v => ?_, fun v hv => hinjective (hv.trans (mulVec_zero Q).symm), fun x hx => ?_⟩
  · obtain ⟨w, hw⟩ : Q *ᵥ v ∈ LinearMap.range R.mulVecLin := hrange ▸ ⟨v, rfl⟩
    rw [← hw]
    exact h.mulVec_eq_zero w
  · obtain ⟨v, rfl⟩ := h.spans x hx
    obtain ⟨w, hw⟩ : R *ᵥ v ∈ LinearMap.range Q.mulVecLin := hrange ▸ ⟨v, rfl⟩
    exact ⟨w, hw⟩

end KernelBasis

/-! ## Semidefinite matrices -/

def Semidefinite {m : Type} [Fintype m] [LE 𝕜] (K : Matrix m m 𝕜) : Prop := ∀ x, 0 ≤ x ⬝ᵥ K *ᵥ x

namespace Semidefinite

variable [LinearOrder 𝕜] [IsStrictOrderedRing 𝕜] {m : Type} [Fintype m] [DecidableEq m]
  {K : Matrix m m 𝕜}

omit [IsStrictOrderedRing 𝕜] in
lemma diagonal_nonneg (h : Semidefinite K) (i : m) : 0 ≤ K i i := by
  have hi := h (Pi.single i 1)
  rwa [single_one_dotProduct, mulVec_single_one] at hi

/-- **A zero on the diagonal** has zeros in its row. -/
theorem apply_eq_zero (h : Semidefinite K) (hsymm : ∀ i j, K i j = K j i) {i : m} (hi : K i i = 0)
    (j : m) : K i j = 0 := by
  -- along the coordinate `i` the quadratic form is affine
  have hline : ∀ t : 𝕜, 0 ≤ K j j + t * (2 * K i j) := by
    intro t
    have hx := h (Pi.single j 1 + t • Pi.single i 1)
    rw [add_dotProduct, smul_dotProduct, single_one_dotProduct, single_one_dotProduct, mulVec_add,
      mulVec_smul, mulVec_single_one, mulVec_single_one] at hx
    simp only [Pi.add_apply, Pi.smul_apply, col_apply, smul_eq_mul, hi, hsymm j i] at hx
    linear_combination hx
  by_contra hne
  have hneg := hline (-(K j j + 1) / (2 * K i j))
  rw [div_mul_cancel₀ _ (mul_ne_zero two_ne_zero hne)] at hneg
  linarith

end Semidefinite

end Espreso
