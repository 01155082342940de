import Mathlib.LinearAlgebra.Matrix.NonsingularInverse
import Mathlib.Tactic.Abel

/-!
# Elimination in saddle point systems

A block system `K i x i + (B i)ᵀ lam = f i`, `∑ i, B i x i = 0` with singular symmetric blocks `K i`
is solved through generalized inverses of the blocks and bases of their kernels.

* `Saddle.Block` — a symmetric matrix, a symmetric generalized inverse and a basis of its kernel.
* **`Saddle.solves_iff_reduced`** — the elimination is exact in both directions.
* **`Saddle.reduced_of_schur`** — the reduced system from a solution of the Schur complement, which
  may be singular.
-/

namespace Saddle

open Matrix Finset

variable {𝕜 : Type} [CommRing 𝕜]

lemma dotProduct_mulVec_of_symm {P : Type} [Fintype P] {K : Matrix P P 𝕜} (h : Kᵀ = K)
    (x y : P → 𝕜) : x ⬝ᵥ (K *ᵥ y) = (K *ᵥ x) ⬝ᵥ y := by
  rw [dotProduct_mulVec, ← mulVec_transpose, h]

lemma dotProduct_transpose_mulVec {P A : Type} [Fintype P] [Fintype A] (R : Matrix P A 𝕜)
    (a : A → 𝕜) (x : P → 𝕜) : a ⬝ᵥ (Rᵀ *ᵥ x) = (R *ᵥ a) ⬝ᵥ x := by
  rw [dotProduct_mulVec, vecMul_transpose]

/-! ## One block -/

/-- A symmetric matrix `K` with a symmetric generalized inverse `Kp`; the columns of `R` span the
kernel. -/
structure Block (P A : Type) [Fintype P] [Fintype A] (𝕜 : Type) [CommRing 𝕜] where
  K : Matrix P P 𝕜
  Kp : Matrix P P 𝕜
  R : Matrix P A 𝕜
  symm : Kᵀ = K
  symm_inv : Kpᵀ = Kp
  inv : K * Kp * K = K
  ker : ∀ x : P → 𝕜, K *ᵥ x = 0 ↔ ∃ a : A → 𝕜, R *ᵥ a = x

namespace Block

variable {P A : Type} [Fintype P] [Fintype A] (b : Block P A 𝕜)

lemma mul_R_mulVec (a : A → 𝕜) : b.K *ᵥ (b.R *ᵥ a) = 0 := (b.ker _).mpr ⟨a, rfl⟩

lemma Rt_mulVec_K (x : P → 𝕜) : (b.R)ᵀ *ᵥ (b.K *ᵥ x) = 0 := by
  classical
  funext a
  have hker : b.K *ᵥ (b.R *ᵥ Pi.single a 1) = 0 := b.mul_R_mulVec _
  calc ((b.R)ᵀ *ᵥ (b.K *ᵥ x)) a
      = (Pi.single a 1) ⬝ᵥ ((b.R)ᵀ *ᵥ (b.K *ᵥ x)) := by rw [single_one_dotProduct]
    _ = (b.R *ᵥ Pi.single a 1) ⬝ᵥ (b.K *ᵥ x) := dotProduct_transpose_mulVec _ _ _
    _ = (b.K *ᵥ (b.R *ᵥ Pi.single a 1)) ⬝ᵥ x := dotProduct_mulVec_of_symm b.symm _ _
    _ = 0 := by rw [hker, zero_dotProduct]

lemma K_mulVec_Kp {f : P → 𝕜} (hf : (b.R)ᵀ *ᵥ f = 0) : b.K *ᵥ (b.Kp *ᵥ f) = f := by
  classical
  -- `(1 - Kp K) y` is in the kernel for every `y`
  have hker : ∀ y : P → 𝕜, b.K *ᵥ (y - b.Kp *ᵥ (b.K *ᵥ y)) = 0 := by
    intro y
    rw [mulVec_sub, mulVec_mulVec, mulVec_mulVec, b.inv, sub_self]
  funext i
  obtain ⟨a, ha⟩ := (b.ker _).mp (hker (Pi.single i 1))
  have horth : (Pi.single i 1 - b.Kp *ᵥ (b.K *ᵥ Pi.single i 1)) ⬝ᵥ f = 0 := by
    rw [← ha, ← dotProduct_transpose_mulVec, hf, dotProduct_zero]
  have hmove : (b.Kp *ᵥ (b.K *ᵥ Pi.single i 1)) ⬝ᵥ f
      = Pi.single i 1 ⬝ᵥ (b.K *ᵥ (b.Kp *ᵥ f)) := by
    rw [← dotProduct_mulVec_of_symm b.symm_inv, ← dotProduct_mulVec_of_symm b.symm]
  rw [sub_dotProduct, hmove, single_one_dotProduct, single_one_dotProduct, sub_eq_zero] at horth
  exact horth.symm

lemma exists_of_K_mulVec {x f : P → 𝕜} (h : b.K *ᵥ x = f) : ∃ a, x = b.Kp *ᵥ f + b.R *ᵥ a := by
  have hker : b.K *ᵥ (x - b.Kp *ᵥ f) = 0 := by
    rw [← h, mulVec_sub, mulVec_mulVec, mulVec_mulVec, b.inv, sub_self]
  obtain ⟨a, ha⟩ := (b.ker _).mp hker
  exact ⟨a, by rw [ha]; abel⟩

end Block

/-! ## The system -/

section System

variable {ι M : Type} [Fintype ι] [Fintype M] {P A : ι → Type} [∀ i, Fintype (P i)]
  [∀ i, Fintype (A i)] (b : ∀ i, Block (P i) (A i) 𝕜) (B : ∀ i, Matrix M (P i) 𝕜)

/-- **The saddle point system**, without a right-hand side for the constraints. -/
def Solves (f x : ∀ i, P i → 𝕜) (lam : M → 𝕜) : Prop :=
  (∑ i, B i *ᵥ x i = 0) ∧ ∀ i, (b i).K *ᵥ x i = f i - (B i)ᵀ *ᵥ lam

def F : Matrix M M 𝕜 := ∑ i, B i * (b i).Kp * (B i)ᵀ

/-- The constraints on the kernels, with the sign that makes `G lam = e`. -/
def G (i : ι) : Matrix (A i) M 𝕜 := -(B i * (b i).R)ᵀ

def g (f : ∀ i, P i → 𝕜) : M → 𝕜 := ∑ i, B i *ᵥ ((b i).Kp *ᵥ f i)

def e (f : ∀ i, P i → 𝕜) (i : ι) : A i → 𝕜 := -((b i).R)ᵀ *ᵥ f i

/-- The primal solution from the multipliers and the amplitudes of the kernels. -/
def primal (f : ∀ i, P i → 𝕜) (lam : M → 𝕜) (α : ∀ i, A i → 𝕜) (i : ι) : P i → 𝕜 :=
  (b i).Kp *ᵥ (f i - (B i)ᵀ *ᵥ lam) + (b i).R *ᵥ α i

/-- **The system that is left** for the multipliers and the amplitudes. -/
def Reduced (f : ∀ i, P i → 𝕜) (lam : M → 𝕜) (α : ∀ i, A i → 𝕜) : Prop :=
  (F b B *ᵥ lam = g b B f - ∑ i, (G b B i)ᵀ *ᵥ α i) ∧ ∀ i, G b B i *ᵥ lam = e b f i

omit [Fintype ι] in
lemma Rt_mulVec_eq_zero_iff (f : ∀ i, P i → 𝕜) (lam : M → 𝕜) (i : ι) :
    ((b i).R)ᵀ *ᵥ (f i - (B i)ᵀ *ᵥ lam) = 0 ↔ G b B i *ᵥ lam = e b f i := by
  rw [G, e, mulVec_sub, mulVec_mulVec, ← transpose_mul, neg_mulVec, neg_mulVec, sub_eq_zero, neg_inj]
  exact eq_comm

lemma sum_B_primal (f : ∀ i, P i → 𝕜) (lam : M → 𝕜) (α : ∀ i, A i → 𝕜) :
    ∑ i, B i *ᵥ primal b B f lam α i
      = g b B f - ∑ i, (G b B i)ᵀ *ᵥ α i - F b B *ᵥ lam := by
  have hF : F b B *ᵥ lam = ∑ i, B i *ᵥ ((b i).Kp *ᵥ ((B i)ᵀ *ᵥ lam)) := by
    rw [F, sum_mulVec]
    exact sum_congr rfl fun i _ => by rw [mulVec_mulVec, mulVec_mulVec]
  rw [hF, g, ← sum_sub_distrib, ← sum_sub_distrib]
  refine sum_congr rfl fun i _ => ?_
  rw [primal, mulVec_add, mulVec_sub, mulVec_sub, G, transpose_neg, transpose_transpose, neg_mulVec,
    mulVec_mulVec (N := (b i).R)]
  abel

/-- **The elimination**: the solutions of the system are the primal solutions of the reduced one. -/
theorem solves_iff_reduced (f x : ∀ i, P i → 𝕜) (lam : M → 𝕜) :
    Solves b B f x lam ↔ ∃ α, Reduced b B f lam α ∧ x = primal b B f lam α := by
  constructor
  · rintro ⟨hB, hK⟩
    have hα : ∀ i, ∃ a, x i = (b i).Kp *ᵥ (f i - (B i)ᵀ *ᵥ lam) + (b i).R *ᵥ a := fun i =>
      (b i).exists_of_K_mulVec (hK i)
    choose α hα using hα
    have hx : x = primal b B f lam α := funext hα
    refine ⟨α, ⟨?_, fun i => ?_⟩, hx⟩
    · rw [hx, sum_B_primal, sub_eq_zero] at hB
      exact hB.symm
    · rw [← Rt_mulVec_eq_zero_iff, ← hK i]
      exact (b i).Rt_mulVec_K _
  · rintro ⟨α, ⟨hF, hG⟩, rfl⟩
    refine ⟨?_, fun i => ?_⟩
    · rw [sum_B_primal, hF, sub_self]
    · rw [primal, mulVec_add, (b i).mul_R_mulVec, add_zero]
      exact (b i).K_mulVec_Kp ((Rt_mulVec_eq_zero_iff b B f lam i).mpr (hG i))

/-! ## The Schur complement -/

/-- The Schur complement on the amplitudes, with `Fi` for the inverse of `F`. -/
def schur (Fi : Matrix M M 𝕜) (α : ∀ i, A i → 𝕜) (i : ι) : A i → 𝕜 :=
  G b B i *ᵥ (Fi *ᵥ ∑ j, (G b B j)ᵀ *ᵥ α j)

def schurRhs (Fi : Matrix M M 𝕜) (f : ∀ i, P i → 𝕜) (i : ι) : A i → 𝕜 :=
  G b B i *ᵥ (Fi *ᵥ g b B f) - e b f i

variable [DecidableEq M] {Fi : Matrix M M 𝕜}

lemma schur_of_reduced (hFi : Fi * F b B = 1) {f : ∀ i, P i → 𝕜} {lam : M → 𝕜}
    {α : ∀ i, A i → 𝕜} (h : Reduced b B f lam α) : schur b B Fi α = schurRhs b B Fi f := by
  funext i
  have hlam : lam = Fi *ᵥ (g b B f - ∑ j, (G b B j)ᵀ *ᵥ α j) := by
    rw [← h.1, mulVec_mulVec, hFi, one_mulVec]
  have hG := h.2 i
  rw [hlam, mulVec_sub, mulVec_sub] at hG
  rw [schur, schurRhs, ← hG]
  abel

/-- **The reduced system from the Schur complement.** -/
theorem reduced_of_schur (hFi : F b B * Fi = 1) {f : ∀ i, P i → 𝕜} {α : ∀ i, A i → 𝕜}
    (h : schur b B Fi α = schurRhs b B Fi f) :
    Reduced b B f (Fi *ᵥ (g b B f - ∑ j, (G b B j)ᵀ *ᵥ α j)) α := by
  refine ⟨by rw [mulVec_mulVec, hFi, one_mulVec], fun i => ?_⟩
  have hi := congrFun h i
  rw [schur, schurRhs] at hi
  rw [mulVec_sub, mulVec_sub, hi]
  abel

end System

end Saddle
