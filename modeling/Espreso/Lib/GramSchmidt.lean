import Mathlib.Data.Matrix.Mul
import Mathlib.LinearAlgebra.LinearIndependent.Lemmas
import Mathlib.LinearAlgebra.Matrix.DotProduct

/-!
# The Gram-Schmidt process

From every vector the projections to the ones before it are subtracted, one after the other, and
what is left is divided by its length.

* `GramSchmidt.subtractProjections`, `GramSchmidt.process` — the process; it fails where a length is
  zero.
* **`GramSchmidt.exists_process`** — independent vectors are replaced by as many that span the same
  space.
* **`GramSchmidt.Orthogonalizes.append`** — one step of it.
-/

namespace GramSchmidt

open Submodule

variable {𝕜 ι : Type} [Field 𝕜] [Fintype ι]

/-- The projections to `qs` are subtracted. -/
def subtractProjections (qs : List (ι → 𝕜)) (w : ι → 𝕜) : ι → 𝕜 :=
  qs.foldl (fun w q => w - (w ⬝ᵥ q) • q) w

def step [DecidableEq 𝕜] (sqrt : 𝕜 → 𝕜) (qs : List (ι → 𝕜)) (a : ι → 𝕜) : Option (List (ι → 𝕜)) :=
  let w := subtractProjections qs a
  if sqrt (w ⬝ᵥ w) = 0 then none else some (qs ++ [(sqrt (w ⬝ᵥ w))⁻¹ • w])

def process [DecidableEq 𝕜] (sqrt : 𝕜 → 𝕜) (as : List (ι → 𝕜)) : Option (List (ι → 𝕜)) :=
  as.foldlM (step sqrt) []

lemma sub_subtractProjections (qs : List (ι → 𝕜)) (w : ι → 𝕜) :
    w - subtractProjections qs w ∈ span 𝕜 {q | q ∈ qs} := by
  induction qs generalizing w with
  | nil =>
      change w - w ∈ _
      rw [sub_self]
      exact zero_mem _
  | cons q qs ih =>
      have hmono : span 𝕜 {p | p ∈ qs} ≤ span 𝕜 {p | p ∈ q :: qs} :=
        span_mono fun p hp => List.mem_cons_of_mem q hp
      have hq : (w ⬝ᵥ q) • q ∈ span 𝕜 {p | p ∈ q :: qs} :=
        smul_mem _ _ (subset_span List.mem_cons_self)
      have hsplit : w - subtractProjections (q :: qs) w
          = (w ⬝ᵥ q) • q + (w - (w ⬝ᵥ q) • q - subtractProjections qs (w - (w ⬝ᵥ q) • q)) := by
        rw [subtractProjections, List.foldl_cons, ← subtractProjections]
        abel
      rw [hsplit]
      exact add_mem hq (hmono (ih _))

omit [Fintype ι] in
lemma span_append_smul {qs as : List (ι → 𝕜)} {a w : ι → 𝕜} {c : 𝕜} (hc : c ≠ 0)
    (hspan : span 𝕜 {q | q ∈ qs} = span 𝕜 {q | q ∈ as}) (hw : a - w ∈ span 𝕜 {q | q ∈ qs}) :
    span 𝕜 {q | q ∈ qs ++ [c • w]} = span 𝕜 {q | q ∈ as ++ [a]} := by
  have hset : ∀ (l : List (ι → 𝕜)) x, {q | q ∈ l ++ [x]} = insert x {q | q ∈ l} := by
    intro l x
    ext q
    simp only [List.mem_append, List.mem_singleton, Set.mem_ofPred_eq, Set.mem_insert_iff, or_comm]
  rw [hset, hset, span_insert, span_insert, ← hspan,
    span_singleton_smul_eq (isUnit_iff_ne_zero.mpr hc), sup_comm, sup_comm (span 𝕜 {a})]
  refine le_antisymm (sup_le le_sup_left ?_) (sup_le le_sup_left ?_)
  · rw [span_singleton_le_iff_mem]
    have heq : w = a - (a - w) := by abel
    rw [heq]
    exact sub_mem (mem_sup_right (mem_span_singleton_self a)) (mem_sup_left hw)
  · rw [span_singleton_le_iff_mem]
    have heq : a = (a - w) + w := by abel
    rw [heq]
    exact add_mem (mem_sup_left hw) (mem_sup_right (mem_span_singleton_self w))

omit [Fintype ι] in
lemma notMem_span_of_linearIndependent {n : ℕ} {f : Fin n → ι → 𝕜} (hf : LinearIndependent 𝕜 f)
    {done rest : List (ι → 𝕜)} {a : ι → 𝕜} (h : List.ofFn f = done ++ a :: rest) :
    a ∉ span 𝕜 {q | q ∈ done} := by
  have hlength : done.length < n := by
    have := congrArg List.length h
    rw [List.length_ofFn, List.length_append, List.length_cons] at this
    omega
  have hat : ∀ (i : ℕ) (hi : i < n), some (f ⟨i, hi⟩) = (done ++ a :: rest)[i]? := by
    intro i hi
    rw [← h, List.getElem?_ofFn, dif_pos hi]
  have ha : f ⟨done.length, hlength⟩ = a := by
    refine Option.some.inj ((hat _ _).trans ?_)
    rw [List.getElem?_append_right le_rfl, Nat.sub_self, List.getElem?_cons_zero]
  have hsubset : {q | q ∈ done} ⊆ f '' {i | i ≠ ⟨done.length, hlength⟩} := by
    intro q hq
    obtain ⟨i, hi, rfl⟩ := List.mem_iff_getElem.mp hq
    refine ⟨⟨i, hi.trans hlength⟩, fun heq => hi.ne (Fin.mk.inj heq), ?_⟩
    refine Option.some.inj ((hat _ _).trans ?_)
    rw [List.getElem?_append_left hi, List.getElem?_eq_getElem hi]
  rw [← ha]
  have hself : (⟨done.length, hlength⟩ : Fin n) ∉ {i | i ≠ ⟨done.length, hlength⟩} := fun h => h rfl
  exact fun hmem => hf.notMem_span_image hself (span_mono hsubset hmem)

/-! ## Without lengths -/

/-- What is left of a vector without its projections to some vectors. -/
def orthogonalPart (qs : List (ι → 𝕜)) (w : ι → 𝕜) : ι → 𝕜 :=
  w - (qs.map fun q => (q ⬝ᵥ w / (q ⬝ᵥ q)) • q).sum

/-- The vectors `qs` are orthogonal and span the same space as the vectors `as`. -/
structure Orthogonalizes (as qs : List (ι → 𝕜)) : Prop where
  pairwise : qs.Pairwise fun p q => p ⬝ᵥ q = 0
  nonzero : ∀ q ∈ qs, q ⬝ᵥ q ≠ 0
  span_eq : span 𝕜 {q | q ∈ qs} = span 𝕜 {a | a ∈ as}

lemma sub_orthogonalPart (qs : List (ι → 𝕜)) (w : ι → 𝕜) :
    w - orthogonalPart qs w ∈ span 𝕜 {q | q ∈ qs} := by
  rw [orthogonalPart, sub_sub_cancel]
  refine list_sum_mem fun x hx => ?_
  obtain ⟨q, hq, rfl⟩ := List.mem_map.mp hx
  exact smul_mem _ _ (subset_span hq)

lemma dotProduct_sum_smul {qs : List (ι → 𝕜)} {p : ι → 𝕜} (h : ∀ q ∈ qs, p ⬝ᵥ q = 0)
    (c : (ι → 𝕜) → 𝕜) : p ⬝ᵥ (qs.map fun q => c q • q).sum = 0 := by
  induction qs with
  | nil => exact dotProduct_zero p
  | cons q qs ih =>
      rw [List.map_cons, List.sum_cons, dotProduct_add, dotProduct_smul, h q List.mem_cons_self,
        smul_zero, zero_add, ih fun r hr => h r (List.mem_cons_of_mem q hr)]

lemma orthogonalPart_eq_self {qs : List (ι → 𝕜)} {w : ι → 𝕜} (h : ∀ q ∈ qs, q ⬝ᵥ w = 0) :
    orthogonalPart qs w = w := by
  have hzero : (qs.map fun q => (q ⬝ᵥ w / (q ⬝ᵥ q)) • q).sum = 0 := by
    refine List.sum_eq_zero fun x hx => ?_
    obtain ⟨q, hq, rfl⟩ := List.mem_map.mp hx
    rw [h q hq, zero_div, zero_smul]
  rw [orthogonalPart, hzero, sub_zero]

namespace Orthogonalizes

variable {as qs : List (ι → 𝕜)}

lemma nil : Orthogonalizes ([] : List (ι → 𝕜)) [] :=
  ⟨List.Pairwise.nil, fun _ hq => absurd hq List.not_mem_nil, rfl⟩

lemma dotProduct_orthogonalPart (h : Orthogonalizes as qs) (w : ι → 𝕜) {q : ι → 𝕜} (hq : q ∈ qs) :
    q ⬝ᵥ orthogonalPart qs w = 0 := by
  suffices hsum : q ⬝ᵥ (qs.map fun p => (p ⬝ᵥ w / (p ⬝ᵥ p)) • p).sum = q ⬝ᵥ w by
    rw [orthogonalPart, dotProduct_sub, hsum, sub_self]
  have hself := h.nonzero q hq
  have hpairwise := h.pairwise
  clear h
  induction qs with
  | nil => exact absurd hq List.not_mem_nil
  | cons p qs ih =>
      obtain ⟨hp, hrest⟩ := List.pairwise_cons.mp hpairwise
      rw [List.map_cons, List.sum_cons, dotProduct_add, dotProduct_smul, smul_eq_mul]
      rcases List.mem_cons.mp hq with rfl | hq
      · rw [dotProduct_sum_smul hp, div_mul_cancel₀ _ hself, add_zero]
      · rw [dotProduct_comm q p, hp q hq, mul_zero, zero_add, ih hq hrest]

end Orthogonalizes

/-! ## Over ordered fields -/

variable [LinearOrder 𝕜] [IsStrictOrderedRing 𝕜]

/-- **The process** does not fail on vectors none of which is in the span of the ones before it. -/
theorem exists_process {sqrt : 𝕜 → 𝕜} (hsqrt : ∀ x, 0 < x → sqrt x ≠ 0) {as : List (ι → 𝕜)}
    (hindependent : ∀ done a rest, as = done ++ a :: rest → a ∉ span 𝕜 {q | q ∈ done}) :
    ∃ qs, process sqrt as = some qs ∧ qs.length = as.length ∧
      span 𝕜 {q | q ∈ qs} = span 𝕜 {q | q ∈ as} := by
  -- the vectors that are done already span the same space as their replacements
  have hrun : ∀ (rest done qs : List (ι → 𝕜)), as = done ++ rest → qs.length = done.length →
      span 𝕜 {q | q ∈ qs} = span 𝕜 {q | q ∈ done} →
      ∃ qs', rest.foldlM (step sqrt) qs = some qs' ∧ qs'.length = as.length ∧
        span 𝕜 {q | q ∈ qs'} = span 𝕜 {q | q ∈ as} := by
    intro rest
    induction rest with
    | nil =>
        rintro done qs rfl hlength hspan
        exact ⟨qs, rfl, by rw [hlength, List.append_nil], by rw [hspan, List.append_nil]⟩
    | cons a rest ih =>
        rintro done qs has hlength hspan
        have hsub := sub_subtractProjections qs a
        have hne : subtractProjections qs a ≠ 0 := by
          intro hzero
          rw [hzero, sub_zero, hspan] at hsub
          exact hindependent done a rest has hsub
        have hroot : sqrt (subtractProjections qs a ⬝ᵥ subtractProjections qs a) ≠ 0 := by
          refine hsqrt _ (lt_of_le_of_ne ?_ fun h => hne (dotProduct_self_eq_zero.mp h.symm))
          exact Finset.sum_nonneg fun i _ => mul_self_nonneg _
        have hstep : step sqrt qs a = some (qs ++
            [(sqrt (subtractProjections qs a ⬝ᵥ subtractProjections qs a))⁻¹
              • subtractProjections qs a]) := if_neg hroot
        rw [List.foldlM_cons, hstep, Option.bind_eq_bind, Option.bind_some]
        refine ih (done ++ [a]) _ (by rw [has, List.append_assoc]; rfl) ?_
          (span_append_smul (inv_ne_zero hroot) hspan hsub)
        rw [List.length_append, List.length_append, hlength]
        rfl
  exact hrun as [] [] rfl rfl rfl

namespace Orthogonalizes

variable {as qs : List (ι → 𝕜)}

lemma orthogonalPart_dot_pos (h : Orthogonalizes as qs) {a : ι → 𝕜}
    (ha : a ∉ span 𝕜 {a | a ∈ as}) : 0 < orthogonalPart qs a ⬝ᵥ orthogonalPart qs a := by
  refine lt_of_le_of_ne (Finset.sum_nonneg fun i _ => mul_self_nonneg _) fun hzero => ha ?_
  have hsub := sub_orthogonalPart qs a
  rwa [dotProduct_self_eq_zero.mp hzero.symm, sub_zero, h.span_eq] at hsub

/-- **A step of the process**: what is left of the next vector is added, with any factor. -/
theorem append (h : Orthogonalizes as qs) {a : ι → 𝕜} (ha : a ∉ span 𝕜 {a | a ∈ as}) {c : 𝕜}
    (hc : c ≠ 0) : Orthogonalizes (as ++ [a]) (qs ++ [c • orthogonalPart qs a]) where
  pairwise := by
    refine List.pairwise_append.mpr ⟨h.pairwise, List.pairwise_singleton _ _, fun q hq p hp => ?_⟩
    rw [List.mem_singleton.mp hp, dotProduct_smul, h.dotProduct_orthogonalPart a hq, smul_zero]
  nonzero q hq := by
    rcases List.mem_append.mp hq with hq | hq
    · exact h.nonzero q hq
    · rw [List.mem_singleton.mp hq, dotProduct_smul, smul_dotProduct]
      exact mul_ne_zero hc (mul_ne_zero hc (h.orthogonalPart_dot_pos ha).ne')
  span_eq := span_append_smul hc h.span_eq (sub_orthogonalPart qs a)

lemma append_of_orthogonal (h : Orthogonalizes as qs) {a : ι → 𝕜} (ha : a ∉ span 𝕜 {a | a ∈ as})
    {c : 𝕜} (hc : c ≠ 0) (horthogonal : ∀ q ∈ qs, q ⬝ᵥ a = 0) :
    Orthogonalizes (as ++ [a]) (qs ++ [c • a]) := by
  have hstep := h.append ha hc
  rwa [orthogonalPart_eq_self horthogonal] at hstep

lemma append_root {sqrt : 𝕜 → 𝕜} (hsqrt : ∀ x, 0 < x → sqrt x ≠ 0) (h : Orthogonalizes as qs)
    {a w : ι → 𝕜} (ha : a ∉ span 𝕜 {a | a ∈ as}) (hw : orthogonalPart qs a = w) :
    Orthogonalizes (as ++ [a]) (qs ++ [(1 / sqrt (w ⬝ᵥ w)) • w]) := by
  subst hw
  exact h.append ha (one_div_ne_zero (hsqrt _ (h.orthogonalPart_dot_pos ha)))

end Orthogonalizes

end GramSchmidt
