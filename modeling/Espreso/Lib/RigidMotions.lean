import Mathlib.LinearAlgebra.AffineSpace.FiniteDimensional
import Mathlib.LinearAlgebra.CrossProduct
import Mathlib.Tactic.FinCases
import Mathlib.Tactic.LinearCombination

/-!
# Infinitesimal rigid motions of points

Points are moved by a translation and turned about the origin; to first order a point `p` moves by
`t + ω × p`.

* `RigidMotions.displacement`, `RigidMotions.modes` — the displacements of all points.
* **`RigidMotions.linearIndependent_basis`**, **`RigidMotions.span_basis`** — it is a basis of the
  modes if the points are not on a line.
-/

namespace RigidMotions

open Matrix Submodule

variable {𝕜 ι : Type} [Field 𝕜]

/-- There are axes. -/
theorem neZero_three : NeZero 3 := ⟨by decide⟩

/-- There are modes. -/
theorem neZero_six : NeZero 6 := ⟨by decide⟩

attribute [local instance] neZero_three neZero_six

def displacement (p : ι → Fin 3 → 𝕜) (t ω : Fin 3 → 𝕜) : ι × Fin 3 → 𝕜 :=
  fun q => (t + ω ⨯₃ p q.1) q.2

/-- **The rigid body modes** of points. -/
def modes (p : ι → Fin 3 → 𝕜) : Submodule 𝕜 (ι × Fin 3 → 𝕜) where
  carrier := {u | ∃ t ω, u = displacement p t ω}
  zero_mem' := ⟨0, 0, by
    funext q
    simp only [displacement, map_zero, LinearMap.zero_apply, add_zero, Pi.zero_apply]⟩
  add_mem' := by
    rintro _ _ ⟨t, ω, rfl⟩ ⟨t', ω', rfl⟩
    refine ⟨t + t', ω + ω', ?_⟩
    funext q
    simp only [displacement, map_add, LinearMap.add_apply, Pi.add_apply]
    ring
  smul_mem' := by
    rintro c _ ⟨t, ω, rfl⟩
    refine ⟨c • t, c • ω, ?_⟩
    funext q
    simp only [displacement, map_smul, LinearMap.smul_apply, Pi.add_apply, Pi.smul_apply, smul_add]

lemma mem_modes {p : ι → Fin 3 → 𝕜} {u : ι × Fin 3 → 𝕜} :
    u ∈ modes p ↔ ∃ t ω, u = displacement p t ω := Iff.rfl

lemma displacement_sub (p : ι → Fin 3 → 𝕜) (center t ω : Fin 3 → 𝕜) :
    displacement (fun i => p i - center) t ω = displacement p (t - ω ⨯₃ center) ω := by
  funext q
  simp only [displacement, map_sub, Pi.add_apply, Pi.sub_apply]
  ring

/-- **The modes** do not depend on the origin. -/
theorem modes_sub (p : ι → Fin 3 → 𝕜) (center : Fin 3 → 𝕜) :
    modes (fun i => p i - center) = modes p := by
  ext u
  rw [mem_modes, mem_modes]
  constructor
  · rintro ⟨t, ω, rfl⟩
    exact ⟨_, _, displacement_sub p center t ω⟩
  · rintro ⟨t, ω, rfl⟩
    refine ⟨t + ω ⨯₃ center, ω, ?_⟩
    rw [displacement_sub, add_sub_cancel_right]

lemma collinear_sub {p : ι → Fin 3 → 𝕜} {center : Fin 3 → 𝕜}
    (h : Collinear 𝕜 (Set.range fun i => p i - center)) : Collinear 𝕜 (Set.range p) := by
  rw [collinear_iff_exists_forall_eq_smul_vadd] at h ⊢
  obtain ⟨p₀, v, hv⟩ := h
  refine ⟨p₀ + center, v, ?_⟩
  rintro _ ⟨i, rfl⟩
  obtain ⟨r, hr⟩ := hv _ ⟨i, rfl⟩
  refine ⟨r, ?_⟩
  rw [vadd_eq_add] at hr ⊢
  rw [← add_assoc, ← hr, sub_add_cancel]

lemma collinear_of_cross {p : ι → Fin 3 → 𝕜} {ω : Fin 3 → 𝕜} (hω : ω ≠ 0)
    (h : ∀ i j, ω ⨯₃ p i = ω ⨯₃ p j) : Collinear 𝕜 (Set.range p) := by
  rw [collinear_iff_exists_forall_eq_smul_vadd]
  rcases isEmpty_or_nonempty ι with hempty | ⟨⟨j⟩⟩
  · exact ⟨0, 0, by rintro _ ⟨i, rfl⟩; exact hempty.elim i⟩
  refine ⟨p j, ω, ?_⟩
  rintro _ ⟨i, rfl⟩
  have hcross : ω ⨯₃ (p i - p j) = 0 := by rw [map_sub, h i j, sub_self]
  have hdependent : ¬LinearIndependent 𝕜 ![ω, p i - p j] :=
    fun hind => crossProduct_ne_zero_iff_linearIndependent.mpr hind hcross
  rw [LinearIndependent.pair_iff' hω] at hdependent
  push Not at hdependent
  obtain ⟨r, hr⟩ := hdependent
  exact ⟨r, by rw [hr, vadd_eq_add, sub_add_cancel]⟩

/-- **Only the motion that moves nothing** has no displacements. -/
theorem displacement_eq_zero {p : ι → Fin 3 → 𝕜} (hp : ¬Collinear 𝕜 (Set.range p))
    {t ω : Fin 3 → 𝕜} (h : displacement p t ω = 0) : t = 0 ∧ ω = 0 := by
  have hat : ∀ i, t + ω ⨯₃ p i = 0 := fun i => funext fun c => congrFun h (i, c)
  have hω : ω = 0 := by
    by_contra hne
    exact hp (collinear_of_cross hne fun i j => add_left_cancel ((hat i).trans (hat j).symm))
  subst hω
  rcases isEmpty_or_nonempty ι with hempty | ⟨⟨i⟩⟩
  · exact absurd (Set.range_eq_empty p ▸ collinear_empty 𝕜 _) hp
  · refine ⟨?_, rfl⟩
    have := hat i
    rwa [map_zero, LinearMap.zero_apply, add_zero] at this

/-! ## The basis -/

def translation (𝕜 ι : Type) [Field 𝕜] (c : Fin 3) : ι × Fin 3 → 𝕜 :=
  fun q => if q.2 = c then 1 else 0

def turnXY (p : ι → Fin 3 → 𝕜) : ι × Fin 3 → 𝕜 := fun q => ![-p q.1 1, p q.1 0, 0] q.2

def turnXZ (p : ι → Fin 3 → 𝕜) : ι × Fin 3 → 𝕜 := fun q => ![-p q.1 2, 0, p q.1 0] q.2

def turnYZ (p : ι → Fin 3 → 𝕜) : ι × Fin 3 → 𝕜 := fun q => ![0, -p q.1 2, p q.1 1] q.2

def basis (p : ι → Fin 3 → 𝕜) : Fin 6 → ι × Fin 3 → 𝕜 :=
  ![translation 𝕜 ι 0, translation 𝕜 ι 1, translation 𝕜 ι 2, turnXY p, turnXZ p, turnYZ p]

lemma sum_basis (p : ι → Fin 3 → 𝕜) (g : Fin 6 → 𝕜) :
    ∑ i, g i • basis p i = displacement p ![g 0, g 1, g 2] ![g 5, -g 4, g 3] := by
  funext ⟨i, c⟩
  rw [Fin.sum_univ_six]
  fin_cases c <;>
    simp [basis, displacement, translation, turnXY, turnXZ, turnYZ, cross_apply] <;> ring

/-- **The basis** is independent if the points are not on a line. -/
theorem linearIndependent_basis {p : ι → Fin 3 → 𝕜} (hp : ¬Collinear 𝕜 (Set.range p)) :
    LinearIndependent 𝕜 (basis p) := by
  refine Fintype.linearIndependent_iff.mpr fun g hg => ?_
  rw [sum_basis] at hg
  obtain ⟨ht, hω⟩ := displacement_eq_zero hp hg
  have h5 : g 5 = 0 := congrFun hω 0
  have h4 : -g 4 = 0 := congrFun hω 1
  have h3 : g 3 = 0 := congrFun hω 2
  intro i
  fin_cases i
  exacts [congrFun ht 0, congrFun ht 1, congrFun ht 2, h3, neg_eq_zero.mp h4, h5]

/-- **The basis** spans the modes. -/
theorem span_basis (p : ι → Fin 3 → 𝕜) : span 𝕜 (Set.range (basis p)) = modes p := by
  ext u
  rw [mem_span_range_iff_exists_fun, mem_modes]
  constructor
  · rintro ⟨g, rfl⟩
    exact ⟨_, _, sum_basis p g⟩
  · rintro ⟨t, ω, rfl⟩
    refine ⟨![t 0, t 1, t 2, ω 2, -ω 1, ω 0], (sum_basis p _).trans ?_⟩
    refine congrArg₂ (displacement p) ?_ ?_
    · funext c
      fin_cases c <;> rfl
    · funext c
      fin_cases c
      exacts [rfl, neg_neg (ω 1), rfl]

end RigidMotions
