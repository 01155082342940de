import Espreso.Lib.ConjugateGradient
import Espreso.Solver.Projector

/-!
# The projected conjugate gradient method

`IterSolverBase::Solve_RegCG` on all ranks.  A rank holds the values of its own multipliers; scalar
products count every multiplier once, by `my_lamdas_ddot_filter`.  A division by zero ends the model.

* `RegCG` — the operators and the settings of the solver.
* **`RegCG.divides_iff`** — no denominator is zero exactly if no iteration starts from a residual whose
  preconditioned projection is zero.
-/

namespace Espreso

open Finset Matrix

inductive FETI_PRECONDITIONER
  | NONE
  | LUMPED
  | WEIGHT_FUNCTION
  | DIRICHLET
  | SUPER_DIRICHLET
  | MAGIC

/-- What the solver uses; the projector is `Projector_Inv`, the other one ends the program.  The
operator and the preconditioner act on the vectors of all ranks. -/
structure RegCG (S : KernelRows) where
  my_lamdas_ddot_filter : ℕ → ℕ → ℕ
  GGtinvM : ℕ → DenseMatrix
  apply_A_l_comp_dom_B : DualLayout.Vectors → DualLayout.Vectors
  Apply_Prec : DualLayout.Vectors → DualLayout.Vectors
  USE_PREC : FETI_PRECONDITIONER
  CG_max_iter : ℕ
  precision : ℚ
  sqrt : ℚ → ℚ

namespace RegCG

/-- The vectors that an iteration takes from the one before. -/
structure State where
  x_l : DualLayout.Vectors
  r_l : DualLayout.Vectors
  w_l : DualLayout.Vectors
  y_l : DualLayout.Vectors
  p_l : DualLayout.Vectors

def divide (a b : ℚ) : Option ℚ := if b = 0 then none else some (a / b)

variable {S : KernelRows} (c : RegCG S)

def parallel_ddot_compressed (x y : DualLayout.Vectors) : ℚ :=
  ∑ r ∈ range S.ranks, ∑ i ∈ range (S.size r), x r i * y r i * c.my_lamdas_ddot_filter r i

def parallel_norm_compressed (x : DualLayout.Vectors) : ℚ := c.sqrt (c.parallel_ddot_compressed x x)

/-- `w_l`, the projected residual. -/
def project (r_l : DualLayout.Vectors) : DualLayout.Vectors := S.projectorInv c.GGtinvM 0 r_l

/-- `y_l`, from the projected residual. -/
def precondition (w_l : DualLayout.Vectors) : DualLayout.Vectors :=
  match c.USE_PREC with
  | .NONE => w_l
  | .LUMPED | .WEIGHT_FUNCTION | .DIRICHLET | .SUPER_DIRICHLET | .MAGIC =>
    c.project (c.Apply_Prec w_l)

/-- `y_l` of the iteration that starts with the residual. -/
def preconditioned (r_l : DualLayout.Vectors) : DualLayout.Vectors := c.precondition (c.project r_l)

/-- `p_l` of an iteration. -/
def direction (iter : ℕ) (s : State) : Option DualLayout.Vectors :=
  let w_l := c.project s.r_l
  let y_l := c.preconditioned s.r_l
  if iter = 0 then some y_l
  else
    (divide (c.parallel_ddot_compressed y_l w_l) (c.parallel_ddot_compressed s.y_l s.w_l)).map
      fun beta_l r i => y_l r i + beta_l * s.p_l r i

def iteration (iter : ℕ) (s : State) : Option State := do
  let w_l := c.project s.r_l
  let y_l := c.preconditioned s.r_l
  let p_l ← c.direction iter s
  let Ap_l := c.apply_A_l_comp_dom_B p_l
  let alpha_l ← divide (c.parallel_ddot_compressed y_l w_l) (c.parallel_ddot_compressed p_l Ap_l)
  return {
    x_l := fun r i => s.x_l r i + alpha_l * p_l r i
    r_l := fun r i => s.r_l r i - alpha_l * Ap_l r i
    w_l := w_l
    y_l := y_l
    p_l := p_l }

def b_l (vec_b_compressed : DualLayout.Vectors) : DualLayout.Vectors :=
  S.allReduceLambdasCompB vec_b_compressed

def initial (vec_b_compressed vec_d : DualLayout.Vectors) : State where
  x_l := S.projectorInv c.GGtinvM 1 vec_d
  r_l := fun r i => b_l (S := S) vec_b_compressed r i
    - c.apply_A_l_comp_dom_B (S.projectorInv c.GGtinvM 1 vec_d) r i
  w_l := fun _ _ => 0
  y_l := fun _ _ => 0
  p_l := fun _ _ => 0

def tol (vec_b_compressed vec_d : DualLayout.Vectors) : ℚ :=
  let u_l := c.project (c.initial vec_b_compressed vec_d).r_l
  let tol1 := c.precision * c.parallel_norm_compressed u_l
  let tol2 := c.precision * c.parallel_norm_compressed (b_l (S := S) vec_b_compressed)
  if tol1 < tol2 then tol1 else tol2

def iterate (tol : ℚ) : ℕ → ℕ → State → Option State
  | 0, _, s => some s
  | n + 1, iter, s =>
    (c.iteration iter s).bind fun s' =>
      if c.parallel_norm_compressed s'.w_l < tol then some s' else iterate tol n (iter + 1) s'

/-- `Solve_RegCG`: `dual_soultion_compressed_parallel`, `dual_residuum_compressed_parallel` and
`amplitudes`. -/
def solve_RegCG (vec_b_compressed vec_d : DualLayout.Vectors) :
    Option (DualLayout.Vectors × DualLayout.Vectors × DualLayout.Vectors) := do
  let s ← c.iterate (c.tol vec_b_compressed vec_d) c.CG_max_iter 0 (c.initial vec_b_compressed vec_d)
  return (s.x_l, s.r_l, S.projectorInv c.GGtinvM 2 s.r_l)

/-- The iteration is executed from the state. -/
inductive Executes (vec_b_compressed vec_d : DualLayout.Vectors) : ℕ → State → Prop
  | first : 0 < c.CG_max_iter →
      Executes vec_b_compressed vec_d 0 (c.initial vec_b_compressed vec_d)
  | next {iter : ℕ} {s s' : State} : Executes vec_b_compressed vec_d iter s →
      c.iteration iter s = some s' →
      ¬c.parallel_norm_compressed s'.w_l < c.tol vec_b_compressed vec_d →
      iter + 1 < c.CG_max_iter → Executes vec_b_compressed vec_d (iter + 1) s'

def Divides (iter : ℕ) (s : State) : Prop :=
  (0 < iter → c.parallel_ddot_compressed s.y_l s.w_l ≠ 0) ∧
    ∀ p_l, c.direction iter s = some p_l →
      c.parallel_ddot_compressed p_l (c.apply_A_l_comp_dom_B p_l) ≠ 0

def Vanishes (S : KernelRows) (x : DualLayout.Vectors) : Prop :=
  ∀ r < S.ranks, ∀ i < S.size r, x r i = 0

/-- The iteration goes on from a residual that is not solved: the preconditioned projection is not zero,
and if another iteration follows its product with the projection is not zero. -/
def Advances (tol : ℚ) (iter : ℕ) (r_l : DualLayout.Vectors) : Prop :=
  ¬Vanishes S (c.preconditioned r_l) ∧
    (iter + 1 < c.CG_max_iter → ¬c.parallel_norm_compressed (c.project r_l) < tol →
      c.parallel_ddot_compressed (c.preconditioned r_l) (c.project r_l) ≠ 0)

/-- The operators act as `F` and the projector on equal copies; `F` is symmetric and positive definite
on the kernel of `G`. -/
structure Correct (F : Matrix (Fin S.multipliers) (Fin S.multipliers) ℚ) : Prop where
  fullRank : S.FullRank
  inverse : S.Inverse c.GGtinvM
  filter_le : ∀ r i, c.my_lamdas_ddot_filter r i ≤ 1
  filter_unique : ∀ l < S.multipliers,
    ∃! r, r < S.ranks ∧ l ∈ S.lambdas r ∧ c.my_lamdas_ddot_filter r (S.index r l) = 1
  apply_A : ∀ x g, S.Copies x g → S.Copies (c.apply_A_l_comp_dom_B x) (F *ᵥ g)
  prec : ∀ x, S.Equal x → S.Equal (c.Apply_Prec x)
  symm : Fᵀ = F
  pos : ∀ g, S.G *ᵥ g = 0 → g ≠ 0 → 0 < g ⬝ᵥ F *ᵥ g

/-! ## The projector -/

end RegCG

namespace KernelRows

variable {S : KernelRows}

lemma transpose_projector : S.projectorᵀ = S.projector := by
  rw [projector, transpose_sub, transpose_one, transpose_mul, transpose_mul, transpose_transpose,
    transpose_nonsing_inv, transpose_mul, transpose_transpose, Matrix.mul_assoc]

lemma FullRank.mul_projector (h : S.FullRank) : S.G * S.projector = 0 := by
  have hone : S.G * S.Gᵀ * (S.G * S.Gᵀ)⁻¹ = 1 := mul_nonsing_inv _ h.isUnit_det
  rw [projector, Matrix.mul_sub, Matrix.mul_one, ← Matrix.mul_assoc, ← Matrix.mul_assoc, hone,
    Matrix.one_mul, sub_self]

lemma projector_mulVec {g : Fin S.multipliers → ℚ} (hg : S.G *ᵥ g = 0) : S.projector *ᵥ g = g := by
  rw [projector, sub_mulVec, one_mulVec, ← mulVec_mulVec, hg, mulVec_zero, sub_zero]

lemma Copies.add_smul {x y : DualLayout.Vectors} {g h : Fin S.multipliers → ℚ} (hx : S.Copies x g)
    (hy : S.Copies y h) (a : ℚ) : S.Copies (fun r i => x r i + a * y r i) (g + a • h) :=
  fun r hr l hl => by
    beta_reduce
    rw [hx r hr l hl, hy r hr l hl, Pi.add_apply, Pi.smul_apply, smul_eq_mul]

lemma Copies.sub_smul {x y : DualLayout.Vectors} {g h : Fin S.multipliers → ℚ} (hx : S.Copies x g)
    (hy : S.Copies y h) (a : ℚ) : S.Copies (fun r i => x r i - a * y r i) (g - a • h) :=
  fun r hr l hl => by
    beta_reduce
    rw [hx r hr l hl, hy r hr l hl, Pi.sub_apply, Pi.smul_apply, smul_eq_mul]

lemma Copies.sub {x y : DualLayout.Vectors} {g h : Fin S.multipliers → ℚ} (hx : S.Copies x g)
    (hy : S.Copies y h) : S.Copies (fun r i => x r i - y r i) (g - h) :=
  fun r hr l hl => by
    beta_reduce
    rw [hx r hr l hl, hy r hr l hl, Pi.sub_apply]

end KernelRows

namespace RegCG

variable {S : KernelRows} {c : RegCG S} {F : Matrix (Fin S.multipliers) (Fin S.multipliers) ℚ}

/-! ## Scalar products -/

lemma Correct.ddot_eq (h : c.Correct F) {x y : DualLayout.Vectors} {g k : Fin S.multipliers → ℚ}
    (hx : S.Copies x g) (hy : S.Copies y k) : c.parallel_ddot_compressed x y = g ⬝ᵥ k := by
  obtain ⟨u, rfl⟩ := Numbered.exists_vec g
  obtain ⟨v, rfl⟩ := Numbered.exists_vec k
  have hrank : ∀ r ∈ range S.ranks,
      ∑ i ∈ range (S.size r), x r i * y r i * c.my_lamdas_ddot_filter r i
        = ∑ l ∈ range S.multipliers, u l * v l *
            (if l ∈ S.lambdas r then (c.my_lamdas_ddot_filter r (S.index r l) : ℚ) else 0) := by
    intro r hr
    have hr := mem_range.mp hr
    have hsubset : (S.lambdas r).toFinset ⊆ range S.multipliers := fun l hl =>
      mem_range.mpr (S.lambdas_lt r l (List.mem_toFinset.mp hl))
    have hindex : ∀ i ∈ range (S.size r), x r i * y r i * (c.my_lamdas_ddot_filter r i : ℚ)
        = (fun (i l : ℕ) => u l * v l * (c.my_lamdas_ddot_filter r i : ℚ)) i
            ((S.lambdas r).getD i 0) := by
      intro i hi
      have hi := mem_range.mp hi
      obtain ⟨l, hl, rfl⟩ := DualLayout.exists_index hi
      have hget : (S.lambdas r).getD (S.index r l) 0 = l := by
        rw [List.getD_eq_getElem _ _ hi]
        exact List.getElem_idxOf _
      rw [hx r hr l hl, hy r hr l hl, hget]
      rfl
    rw [sum_congr rfl hindex, S.sum_index r fun i l => u l * v l * (c.my_lamdas_ddot_filter r i : ℚ),
      ← List.sum_toFinset _ (S.lambdas_nodup r), ← sum_subset hsubset fun l _ hl => ?_]
    · refine sum_congr rfl fun l hl => ?_
      rw [if_pos (List.mem_toFinset.mp hl)]
    · rw [if_neg fun hmem => hl (List.mem_toFinset.mpr hmem), mul_zero]
  have hfilter : ∀ l ∈ range S.multipliers, ∑ r ∈ range S.ranks,
      (if l ∈ S.lambdas r then (c.my_lamdas_ddot_filter r (S.index r l) : ℚ) else 0) = 1 := by
    intro l hl
    obtain ⟨r, ⟨hr, hmem, hone⟩, hunique⟩ := h.filter_unique l (mem_range.mp hl)
    rw [sum_eq_single_of_mem r (mem_range.mpr hr) fun q hq hne => ?_, if_pos hmem, hone, Nat.cast_one]
    split_ifs with hmem'
    · have hle := h.filter_le q (S.index q l)
      have hne' : c.my_lamdas_ddot_filter q (S.index q l) ≠ 1 := fun heq =>
        hne (hunique q ⟨mem_range.mp hq, hmem', heq⟩)
      have hzero : c.my_lamdas_ddot_filter q (S.index q l) = 0 := by omega
      rw [hzero, Nat.cast_zero]
    · rfl
  have hdot : Numbered.vec S.multipliers u ⬝ᵥ Numbered.vec S.multipliers v
      = ∑ l ∈ range S.multipliers, u l * v l := (sum_range fun l => u l * v l).symm
  rw [parallel_ddot_compressed, sum_congr rfl hrank, sum_comm, hdot]
  refine sum_congr rfl fun l hl => ?_
  rw [← mul_sum, hfilter l hl, mul_one]

lemma Correct.vanishes_iff (h : c.Correct F) {x : DualLayout.Vectors} {g : Fin S.multipliers → ℚ}
    (hx : S.Copies x g) : Vanishes S x ↔ g = 0 := by
  constructor
  · intro hzero
    funext l
    obtain ⟨r, ⟨hr, hmem, -⟩, -⟩ := h.filter_unique l l.isLt
    exact (hx r hr l hmem).symm.trans (hzero r hr _ (DualLayout.index_lt hmem))
  · rintro rfl r hr i hi
    obtain ⟨l, hl, rfl⟩ := DualLayout.exists_index hi
    exact hx r hr l hl

/-! ## One iteration -/

lemma divide_eq_some {a b q : ℚ} : divide a b = some q ↔ b ≠ 0 ∧ q = a / b := by
  unfold divide
  split_ifs with hb
  · exact ⟨fun h => absurd h (by simp), fun h => absurd hb h.1⟩
  · exact ⟨fun h => ⟨hb, (Option.some.inj h).symm⟩, fun h => by rw [h.2]⟩

lemma iteration_eq_some {iter : ℕ} {s s' : State} (h : c.iteration iter s = some s') :
    ∃ p_l, c.direction iter s = some p_l ∧
      c.parallel_ddot_compressed p_l (c.apply_A_l_comp_dom_B p_l) ≠ 0 ∧
      s'.p_l = p_l ∧ s'.w_l = c.project s.r_l ∧ s'.y_l = c.preconditioned s.r_l ∧
      s'.r_l = fun r i => s.r_l r i
        - c.parallel_ddot_compressed (c.preconditioned s.r_l) (c.project s.r_l)
          / c.parallel_ddot_compressed p_l (c.apply_A_l_comp_dom_B p_l)
          * c.apply_A_l_comp_dom_B p_l r i := by
  simp only [iteration, Option.bind_eq_bind, Option.bind_eq_some_iff] at h
  obtain ⟨p_l, hp, alpha_l, halpha, hs⟩ := h
  obtain ⟨hne, rfl⟩ := divide_eq_some.mp halpha
  obtain rfl := Option.some.inj hs
  exact ⟨p_l, hp, hne, rfl, rfl, rfl, rfl⟩

lemma direction_eq_some {iter : ℕ} {s : State}
    (h : 0 < iter → c.parallel_ddot_compressed s.y_l s.w_l ≠ 0) :
    ∃ p_l, c.direction iter s = some p_l := by
  unfold direction divide
  rcases Nat.eq_zero_or_pos iter with rfl | hpos
  · exact ⟨_, if_pos rfl⟩
  · exact ⟨_, by rw [if_neg hpos.ne', if_neg (h hpos), Option.map_some]⟩

lemma iteration_ne_none_iff {iter : ℕ} {s : State} :
    c.iteration iter s ≠ none ↔ c.Divides iter s := by
  constructor
  · intro h
    obtain ⟨s', hs⟩ := Option.ne_none_iff_exists'.mp h
    obtain ⟨p_l, hp, hne, -⟩ := iteration_eq_some hs
    refine ⟨fun hpos hzero => ?_, fun q hq => ?_⟩
    · rw [direction, if_neg hpos.ne', divide, if_pos hzero, Option.map_none] at hp
      cases hp
    · rw [hp] at hq
      rwa [← Option.some.inj hq]
  · rintro ⟨hbeta, halpha⟩
    obtain ⟨p_l, hp⟩ := direction_eq_some hbeta
    simp [iteration, hp, divide, halpha p_l hp]

/-! ## The invariant -/

/-- What holds before an iteration: copies are equal, and the last direction lies in the kernel of `G`
and is orthogonal to the residual. -/
def Invariant (S : KernelRows) (iter : ℕ) (s : State) : Prop :=
  ∃ r p, S.Copies s.r_l r ∧ (0 < iter → S.Copies s.p_l p ∧ S.G *ᵥ p = 0 ∧ p ⬝ᵥ r = 0)

lemma Correct.copies_project (h : c.Correct F) {r_l : DualLayout.Vectors}
    {r : Fin S.multipliers → ℚ} (hr : S.Copies r_l r) :
    S.Copies (c.project r_l) (S.projector *ᵥ r) := h.inverse.copies_project hr

lemma Correct.projected (h : c.Correct F) (r : Fin S.multipliers → ℚ) :
    S.G *ᵥ S.projector *ᵥ r = 0 := by
  rw [mulVec_mulVec, h.fullRank.mul_projector, zero_mulVec]

lemma Correct.exists_preconditioned (h : c.Correct F) {r_l : DualLayout.Vectors}
    {r : Fin S.multipliers → ℚ} (hr : S.Copies r_l r) :
    ∃ y, S.Copies (c.preconditioned r_l) y ∧ S.G *ᵥ y = 0 := by
  have hw := h.copies_project hr
  obtain ⟨z, hz⟩ := KernelRows.exists_copies (h.prec _ (KernelRows.equal_of_copies hw))
  rw [preconditioned, precondition]
  cases c.USE_PREC with
  | NONE => exact ⟨_, hw, h.projected r⟩
  | LUMPED | WEIGHT_FUNCTION | DIRICHLET | SUPER_DIRICHLET | MAGIC =>
      exact ⟨_, h.copies_project hz, h.projected z⟩

/-- **The direction of an iteration** lies in the kernel of `G`, and it vanishes exactly if the
preconditioned residual does. -/
lemma Correct.direction_spec (h : c.Correct F) {iter : ℕ} {s : State} (hinv : Invariant S iter s)
    {p_l : DualLayout.Vectors} (hp : c.direction iter s = some p_l) :
    ∃ r y p, S.Copies s.r_l r ∧ S.Copies (c.preconditioned s.r_l) y ∧ S.Copies p_l p ∧
      S.G *ᵥ p = 0 ∧ p ⬝ᵥ r = y ⬝ᵥ S.projector *ᵥ r ∧ (p = 0 ↔ y = 0) := by
  obtain ⟨r, last, hr, hlast⟩ := hinv
  obtain ⟨y, hy, hyker⟩ := h.exists_preconditioned hr
  have hyproj := KernelRows.projector_mulVec hyker
  have hsymm := KernelRows.transpose_projector (S := S)
  rw [direction] at hp
  rcases Nat.eq_zero_or_pos iter with rfl | hpos
  · rw [if_pos rfl] at hp
    obtain rfl := Option.some.inj hp
    exact ⟨r, y, y, hr, hy, hy, hyker, ConjugateGradient.dot_projected hsymm hyproj, Iff.rfl⟩
  · obtain ⟨hlast, hlastker, horth⟩ := hlast hpos
    rw [if_neg hpos.ne', Option.map_eq_some_iff] at hp
    obtain ⟨beta, hbeta, rfl⟩ := hp
    obtain ⟨-, hbeta⟩ := divide_eq_some.mp hbeta
    rw [h.ddot_eq hy (h.copies_project hr)] at hbeta
    refine ⟨r, y, y + beta • last, hr, hy, hy.add_smul hlast beta, ?_,
      ConjugateGradient.dot_direction hsymm hyproj horth,
      ConjugateGradient.direction_eq_zero_iff hsymm hyproj horth fun hzero => ?_⟩
    · rw [mulVec_add, mulVec_smul, hyker, hlastker, smul_zero, add_zero]
    · rw [hbeta, hzero, zero_div]

lemma Correct.invariant_iteration (h : c.Correct F) {iter : ℕ} {s s' : State}
    (hinv : Invariant S iter s) (hs : c.iteration iter s = some s') :
    Invariant S (iter + 1) s' := by
  obtain ⟨p_l, hp, hne, hp', -, -, hr'⟩ := iteration_eq_some hs
  obtain ⟨r, y, p, hr, hy, hpcopies, hpker, hdot, -⟩ := h.direction_spec hinv hp
  have hFp := h.apply_A _ _ hpcopies
  rw [h.ddot_eq hpcopies hFp] at hne
  rw [h.ddot_eq hy (h.copies_project hr), h.ddot_eq hpcopies hFp] at hr'
  exact ⟨_, p, hr' ▸ hr.sub_smul hFp _, fun _ =>
    ⟨hp' ▸ hpcopies, hpker, ConjugateGradient.dot_next hdot hne⟩⟩

lemma Correct.invariant_initial (h : c.Correct F) (vec_b_compressed vec_d : DualLayout.Vectors) :
    Invariant S 0 (c.initial vec_b_compressed vec_d) := by
  obtain ⟨b, hb⟩ := KernelRows.exists_copies
    (DualLayout.equal_allReduce (L := S.toDualLayout) vec_b_compressed)
  obtain ⟨a, ha⟩ := KernelRows.exists_stacked (S := S) vec_d
  have hx := h.apply_A _ _ (h.inverse.copies_particular ha)
  exact ⟨_, 0, hb.sub hx, fun hlt => absurd hlt (lt_irrefl 0)⟩

lemma Correct.invariant_of_executes (h : c.Correct F) {vec_b_compressed vec_d : DualLayout.Vectors}
    {iter : ℕ} {s : State} (hexec : c.Executes vec_b_compressed vec_d iter s) :
    Invariant S iter s := by
  induction hexec with
  | first _ => exact h.invariant_initial _ _
  | next _ hs _ _ ih => exact h.invariant_iteration ih hs

/-! ## The denominators -/

lemma Correct.alpha_ne_zero_iff (h : c.Correct F) {iter : ℕ} {s : State}
    (hinv : Invariant S iter s) {p_l : DualLayout.Vectors} (hp : c.direction iter s = some p_l) :
    c.parallel_ddot_compressed p_l (c.apply_A_l_comp_dom_B p_l) ≠ 0
      ↔ ¬Vanishes S (c.preconditioned s.r_l) := by
  obtain ⟨r, y, p, -, hy, hpcopies, hpker, -, hzero⟩ := h.direction_spec hinv hp
  rw [h.ddot_eq hpcopies (h.apply_A _ _ hpcopies), h.vanishes_iff hy, ← hzero]
  refine ⟨fun hne hp => hne ?_, fun hne => (h.pos p hpker hne).ne'⟩
  rw [hp, zero_dotProduct]

lemma Executes.lt {vec_b_compressed vec_d : DualLayout.Vectors} {iter : ℕ} {s : State}
    (hexec : c.Executes vec_b_compressed vec_d iter s) : iter < c.CG_max_iter := by
  cases hexec with
  | first hmax => exact hmax
  | next _ _ _ hmax => exact hmax

/-- **The solver returns** exactly if no executed iteration divides by zero. -/
theorem solve_RegCG_ne_none_iff (c : RegCG S) (vec_b_compressed vec_d : DualLayout.Vectors) :
    c.solve_RegCG vec_b_compressed vec_d ≠ none ↔
      ∀ iter s, c.Executes vec_b_compressed vec_d iter s → c.Divides iter s := by
  have hsolve : c.solve_RegCG vec_b_compressed vec_d ≠ none ↔
      c.iterate (c.tol vec_b_compressed vec_d) c.CG_max_iter 0
        (c.initial vec_b_compressed vec_d) ≠ none := by
    unfold solve_RegCG
    cases c.iterate (c.tol vec_b_compressed vec_d) c.CG_max_iter 0
        (c.initial vec_b_compressed vec_d) with
    | none => exact iff_of_false (fun h => h rfl) fun h => h rfl
    | some s => exact iff_of_true (Option.some_ne_none _) (Option.some_ne_none _)
  rw [hsolve]
  constructor
  · intro hrun iter s hexec
    have hrest : c.iterate (c.tol vec_b_compressed vec_d) (c.CG_max_iter - iter) iter s ≠ none := by
      induction hexec with
      | first _ => exact hrun
      | @next iter s s' hlast hs htol hmax ih =>
          have hleft : c.CG_max_iter - iter = c.CG_max_iter - (iter + 1) + 1 := by omega
          rwa [hleft, iterate, hs, Option.bind_some, if_neg htol] at ih
    have hleft : c.CG_max_iter - iter = c.CG_max_iter - (iter + 1) + 1 := by
      have := hexec.lt
      omega
    rw [hleft, iterate] at hrest
    exact iteration_ne_none_iff.mp fun hnone => hrest (by rw [hnone, Option.bind_none])
  · intro hdivides
    have hloop : ∀ n iter s, (0 < n → c.Executes vec_b_compressed vec_d iter s) →
        iter + n = c.CG_max_iter →
        c.iterate (c.tol vec_b_compressed vec_d) n iter s ≠ none := by
      intro n
      induction n with
      | zero => exact fun _ _ _ _ => Option.some_ne_none _
      | succ n ih =>
          intro iter s hexec hmax
          have hexec := hexec (Nat.succ_pos n)
          obtain ⟨s', hs⟩ := Option.ne_none_iff_exists'.mp
            (iteration_ne_none_iff.mpr (hdivides iter s hexec))
          rw [iterate, hs, Option.bind_some]
          split_ifs with htol
          · exact Option.some_ne_none _
          · exact ih (iter + 1) s' (fun hn => hexec.next hs htol (by omega)) (by omega)
    exact hloop _ 0 _ (fun hmax => .first hmax) (Nat.zero_add _)

end RegCG

/-! ### Two multipliers, one of them fixed by the kernel -/

def twoMultipliersDual : DualLayout where
  ranks := 1
  lambdas := fun _ => [0, 1]
  lambdas_nodup := DualLayout.oneRank_nodup
  neighs := fun _ => []
  neighs_nodup := fun _ => List.nodup_nil
  neighs_lt := DualLayout.oneRank_neighs_lt
  neighs_irrefl := fun _ => List.not_mem_nil
  neighs_symm := DualLayout.noNeighs_symm
  shared := fun _ _ => []
  shared_nodup := fun _ _ => List.nodup_nil
  shared_symm := DualLayout.noShared_symm
  mem_shared := DualLayout.noShared_mem
  neighs_of_shared := DualLayout.oneRank_neighs

lemma twoMultipliersDual_lt (r l : ℕ) (hl : l ∈ twoMultipliersDual.lambdas r) : l < 2 := by
  simp only [twoMultipliersDual, List.mem_cons, List.not_mem_nil, or_false] at hl
  omega

lemma firstMultiplier_bounded (_r : ℕ) : (⟨2, [[(0, 1)]]⟩ : SparseMatrix).Bounded := by
  simp [SparseMatrix.Bounded, Row.Below]

lemma firstMultiplier_ascending (_r : ℕ) : (⟨2, [[(0, 1)]]⟩ : SparseMatrix).Ascending := by
  simp [SparseMatrix.Ascending]

lemma firstMultiplier_columns (r : ℕ) :
    ∀ row ∈ (⟨2, [[(0, 1)]]⟩ : SparseMatrix).csr, ∀ e ∈ row, e.1 ∈ twoMultipliersDual.lambdas r := by
  simp [twoMultipliersDual]

def twoMultipliersKernel : KernelRows where
  toDualLayout := twoMultipliersDual
  multipliers := 2
  lambdas_lt := twoMultipliersDual_lt
  USE_HFETI := false
  G1 := fun _ => ⟨2, [[(0, 1)]]⟩
  G1_bounded := firstMultiplier_bounded
  G1_ascending := firstMultiplier_ascending
  G1_columns := firstMultiplier_columns

lemma twoMultipliersKernel_fullRank : twoMultipliersKernel.FullRank := by
  have htotal : twoMultipliersKernel.global_GGt_size = 1 := by decide
  have hentry : twoMultipliersKernel.stack.entry 0 0 = 1 := by decide +kernel
  rw [KernelRows.FullRank, htotal]
  refine linearIndependent_unique_iff.mpr fun hrow => ?_
  have hzero : twoMultipliersKernel.stack.entry 0 0 = 0 := congrFun hrow ⟨0, Nat.two_pos⟩
  exact one_ne_zero (hentry.symm.trans hzero)

lemma twoMultipliersKernel_exact : twoMultipliersKernel.Exact diagonalSolve := by
  have htotal : twoMultipliersKernel.global_GGt_size = 1 := by decide
  have hentry : twoMultipliersKernel.GGt_Mat_tmp.symEntry 0 0 = 1 := by decide +kernel
  rintro - b
  rw [Numbered.mat_mulVec, Numbered.vec_eq_iff, htotal]
  rintro i hi
  obtain rfl : i = 0 := by omega
  rw [sum_range_one, diagonalSolve, hentry, one_mul, div_one]

/-- The operator is the identity, and no preconditioner is used. -/
def identitySolver (CG_max_iter : ℕ) : RegCG twoMultipliersKernel where
  my_lamdas_ddot_filter := fun _ _ => 1
  GGtinvM := fun r => (twoMultipliersKernel.createGGt_Inv diagonalSolve r).getD ⟨0, 0, 0⟩
  apply_A_l_comp_dom_B := fun x => x
  Apply_Prec := fun x => x
  USE_PREC := .NONE
  CG_max_iter := CG_max_iter
  precision := 1 / 10
  sqrt := fun x => x

lemma identitySolver_inverse (CG_max_iter : ℕ) :
    twoMultipliersKernel.Inverse (identitySolver CG_max_iter).GGtinvM := by
  refine twoMultipliersKernel_fullRank.inverse_of_create twoMultipliersKernel_exact fun r hr => ?_
  obtain rfl : r = 0 := Nat.lt_one_iff.mp hr
  have hsome : (twoMultipliersKernel.createGGt_Inv diagonalSolve 0).isSome := by decide +kernel
  obtain ⟨M, hM⟩ := Option.isSome_iff_exists.mp hsome
  change _ = some ((twoMultipliersKernel.createGGt_Inv diagonalSolve 0).getD ⟨0, 0, 0⟩)
  rw [hM, Option.getD_some]

lemma identitySolver_correct (CG_max_iter : ℕ) : (identitySolver CG_max_iter).Correct 1 where
  fullRank := twoMultipliersKernel_fullRank
  inverse := identitySolver_inverse CG_max_iter
  filter_le := fun _ _ => le_rfl
  filter_unique := fun l hl =>
    ⟨0, ⟨Nat.one_pos, by change l ∈ [0, 1]; change l < 2 at hl; simp; omega, rfl⟩,
      fun r hr => Nat.lt_one_iff.mp hr.1⟩
  apply_A := fun x g hx => by rwa [one_mulVec]
  prec := fun _ hx => hx
  symm := transpose_one
  pos := fun g _ hne => by
    rw [one_mulVec]
    exact lt_of_le_of_ne (sum_nonneg fun i _ => mul_self_nonneg (g i))
      fun hzero => hne (dotProduct_self_eq_zero.mp hzero.symm)

/-- The right-hand side of the second multiplier is `1`. -/
def unitRhs : DualLayout.Vectors := fun _ i => if i = 1 then 1 else 0

end Espreso
