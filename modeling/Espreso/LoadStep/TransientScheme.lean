import Espreso.LoadStep.Transient
import Mathlib.Tactic.FieldSimp
import Mathlib.Tactic.FinCases
import Mathlib.Tactic.LinearCombination

/-!
# The generalized trapezoidal scheme

What the accepted time steps of a linear problem with constant matrices satisfy.

* `Constraints` — the equality constraints of the linear solver; the unconstrained directions.
* **`run_keeps_scheme`** — the accepted steps of a run follow the scheme and no attempt divides by
  zero, if every attempt meets `AttemptRegular`.
-/

namespace Espreso.LoadStep

open Matrix Finset Assembler

variable {D : ℕ} {n : Fin D → ℕ} {m : ℕ}

/-! ## Exact linear solvers -/

/-- The equality constraints `∑ B1 x = c`, gluing and Dirichlet rows together. -/
structure Constraints {D : ℕ} (n : Fin D → ℕ) (m : ℕ) where
  B1 : (d : Fin D) → Matrix (Fin m) (Fin (n d)) ℚ
  B1c : Fin m → ℚ

namespace Constraints

variable (C : Constraints n m)

def apply (x : Vectors n) : Fin m → ℚ := ∑ d, C.B1 d *ᵥ x d

def Free (w : Vectors n) : Prop := C.apply w = 0

/-- `u` satisfies the constraints, and the system in all free directions. -/
def Solves (A : Matrices n) (b u : Vectors n) : Prop :=
  C.apply u = C.B1c ∧ ∀ w, C.Free w → dot w (multiply A u) = dot w b

/-- **Equilibrium.**  `M V + K U = f` in all free directions. -/
def Balanced (P : LinearProblem n) (U V : Vectors n) : Prop :=
  ∀ w, C.Free w → dot w (sum 1 (multiply P.M V) 1 (multiply P.K U)) = dot w P.f

end Constraints

/-- **An exact linear solver** of the effective systems of a linear problem. -/
def ExactSolver (P : LinearProblem n) (C : Constraints n m)
    (linearSolver : Matrices n → Vectors n → Vectors n) : Prop :=
  ∀ τ b, 0 < τ →
    C.Solves (addMatrices P.K τ P.M) b (linearSolver (addMatrices P.K τ P.M) b)

/-! ## Runs -/

/-- What an accepted time step leaves behind. -/
structure AcceptedStep {D : ℕ} (n : Fin D → ℕ) where
  timeStep : ℚ
  U : Vectors n
  V : Vectors n

/-- **A run.**  Attempts of any positive lengths that meet `Q`; the accepted steps are listed, the
last one first. -/
inductive Run (c : TransientSolverConfiguration) (timeStepSolver : TimeStepSolver n)
    (Q : TransientState n → ℚ → ℚ → Prop) (s₀ : TransientState n) :
    List (AcceptedStep n) → TransientState n → Prop
  | start : Run c timeStepSolver Q s₀ [] s₀
  | accepted {hist s s'} {dt t : ℚ} : Run c timeStepSolver Q s₀ hist s → 0 < dt → Q s dt t →
      (s.attempt dt t).processTimeStep c timeStepSolver = some s' → s'.Accepted →
      Run c timeStepSolver Q s₀ (⟨dt, s'.solver.U, s'.solver.V⟩ :: hist) s'
  | rejected {hist s s'} {dt t : ℚ} : Run c timeStepSolver Q s₀ hist s → 0 < dt → Q s dt t →
      (s.attempt dt t).processTimeStep c timeStepSolver = some s' → ¬ s'.Accepted →
      Run c timeStepSolver Q s₀ hist s'

/-- `U` and `V` of the last accepted step. -/
def lastUV (U₀ V₀ : Vectors n) : List (AcceptedStep n) → Vectors n × Vectors n
  | [] => (U₀, V₀)
  | a :: _ => (a.U, a.V)

/-- **The scheme.**  Every accepted step is in equilibrium and is the trapezoidal update of the
accepted step before it. -/
def Follows (P : LinearProblem n) (C : Constraints n m) (α : ℚ) (U₀ V₀ : Vectors n) :
    List (AcceptedStep n) → Prop
  | [] => True
  | a :: hist =>
      C.Balanced P a.U a.V ∧
      a.U = sum 1 (lastUV U₀ V₀ hist).1 a.timeStep
        (sum α a.V (1 - α) (lastUV U₀ V₀ hist).2) ∧
      Follows P C α U₀ V₀ hist

def TransientSolverConfiguration.methodAlpha (c : TransientSolverConfiguration) : Option ℚ :=
  match c.method with
  | .CrankNicolson => some (1 / 2)
  | .ForwardDiff => none
  | .Galerkin => some (2 / 3)
  | .BackwardDiff => some 1
  | .User => if 0 < c.alpha ∧ c.alpha ≤ 1 then some c.alpha else none

/-- **What is expected of a load step** that starts in `s₀`: in every run whose attempts meet `Q` the
accepted steps follow the scheme, the state holds the last of them, and the next attempt does not
divide by zero. -/
def KeepsScheme (c : TransientSolverConfiguration) (P : LinearProblem n) (C : Constraints n m)
    (linearSolver : Matrices n → Vectors n → Vectors n) (α : ℚ)
    (Q : TransientState n → ℚ → ℚ → Prop) (s₀ : TransientState n) : Prop :=
  ∀ hist s, Run c (linearTimeStep P linearSolver) Q s₀ hist s →
    Follows P C α s₀.solver.U s₀.solver.V hist ∧
    (s.solver.U, s.solver.V) = lastUV s₀.solver.U s₀.solver.V hist ∧
    ∀ dt t, 0 < dt → Q s dt t →
      (s.attempt dt t).processTimeStep c (linearTimeStep P linearSolver) ≠ none

/-- `w` leads to a solution of the effective system of an attempt of length `dt`. -/
def IsIncrement (P : LinearProblem n) (C : Constraints n m) (α dt : ℚ) (U V w : Vectors n) : Prop :=
  C.Solves (addMatrices P.K (1 / (α * dt)) P.M) (TransientState.effectiveRhs P α dt U V)
    (sum 1 U 1 w)

/-- **The condition on an attempt.**  The method is not `GALERKIN`, and where the automatic time
stepping is on and the attempt does not end the load step, the quotients of the automatic time
stepping exist. -/
def AttemptRegular (c : TransientSolverConfiguration) (P : LinearProblem n) (C : Constraints n m)
    (α : ℚ) (s : TransientState n) (dt t : ℚ) : Prop :=
  c.method ≠ .Galerkin ∧
  (c.auto_time_stepping.allowed → t < s.solver._startTime + s.solver._duration →
    s.solver.U ≠ 0 ∧
    ∀ w, IsIncrement P C α dt s.solver.U s.solver.V w →
      (1 / 100000) ^ 2 ≤ sumSquares w / sumSquares s.solver.U →
      dot (multiply P.K w) w ≠ 0 ∧ dot (multiply P.M w) w ≠ 0 ∧
      (c.auto_time_stepping.oscilation_limit /
          (dot (multiply P.K w) w / dot (multiply P.M w) w) < dt →
        c.auto_time_stepping.IDFactor ≠ 0))

/-! ## One attempt -/

lemma sumSquares_ne_zero {x : Vectors n} (h : x ≠ 0) : sumSquares x ≠ 0 := by
  intro hzero
  refine h (funext fun d => funext fun i => ?_)
  have hd := (sum_eq_zero_iff_of_nonneg fun d _ =>
    sum_nonneg fun i _ => mul_self_nonneg (x d i)).mp hzero d (mem_univ d)
  have hi := (sum_eq_zero_iff_of_nonneg fun i _ => mul_self_nonneg (x d i)).mp hd i (mem_univ i)
  exact mul_self_eq_zero.mp hi

lemma TransientSolverConfiguration.initAlpha_eq {c : TransientSolverConfiguration} {α : ℚ}
    (hα : c.methodAlpha = some α) (hc : c.method ≠ .Galerkin) :
    c.initAlpha = some α ∧ 0 < α := by
  simp only [methodAlpha] at hα
  simp only [initAlpha]
  cases hm : c.method with
  | CrankNicolson =>
    simp only [hm, Option.some.injEq] at hα ⊢
    subst hα
    exact ⟨rfl, by norm_num⟩
  | ForwardDiff => simp only [hm, reduceCtorEq] at hα
  | Galerkin => exact absurd hm hc
  | BackwardDiff =>
    simp only [hm, Option.some.injEq] at hα ⊢
    subst hα
    exact ⟨rfl, by norm_num⟩
  | User =>
    simp only [hm] at hα ⊢
    split_ifs at hα with hrange
    cases hα
    refine ⟨if_neg ?_, hrange.1⟩
    rintro (hle | hgt)
    · exact absurd hrange.1 (not_lt.mpr hle)
    · exact absurd hrange.2 (not_le.mpr hgt)

namespace TransientState

variable (P : LinearProblem n) (C : Constraints n m)
  (linearSolver : Matrices n → Vectors n → Vectors n) (s : TransientState n)

def solution : Vectors n := (s.solved P linearSolver).inst.primalSolution

lemma sum_U_dU : sum 1 s.solver.U 1 (s.solved P linearSolver).solver.dU =
    s.solution P linearSolver := by
  funext d i
  simp only [solution, solved, sum]
  ring

variable {P C linearSolver s}

lemma solves_solution (hx : ExactSolver P C linearSolver) (hα : 0 < s.solver._alpha)
    (hdt : 0 < s.step.timeStep) :
    C.Solves (addMatrices P.K (1 / (s.solver._alpha * s.step.timeStep)) P.M)
      (effectiveRhs P s.solver._alpha s.step.timeStep s.solver.U s.solver.V)
      (s.solution P linearSolver) :=
  hx _ _ (one_div_pos.mpr (mul_pos hα hdt))

lemma autoTimeStepping_ne_none {c : TransientSolverConfiguration} {dt t : ℚ}
    (hx : ExactSolver P C linearSolver) (hα : 0 < s.solver._alpha) (hdt : 0 < dt)
    (hreg : AttemptRegular c P C s.solver._alpha s dt t) :
    ((s.attempt dt t).solved P linearSolver).autoTimeStepping c.auto_time_stepping ≠ none := by
  set u := (s.attempt dt t).solved P linearSolver with hu
  simp only [autoTimeStepping]
  split_ifs with hauto
  swap
  · exact Option.some_ne_none _
  obtain ⟨hU, hquot⟩ := hreg.2 hauto.1 hauto.2
  have hinc : IsIncrement P C s.solver._alpha dt s.solver.U s.solver.V u.solver.dU := by
    have hsolves := solves_solution (s := s.attempt dt t) hx hα hdt
    rw [← sum_U_dU] at hsolves
    exact hsolves
  rw [divide_eq_some (sumSquares_ne_zero (x := u.solver.U) hU)]
  simp only [Option.bind_eq_bind, Option.bind_some]
  split_ifs with hnorm
  · exact Option.some_ne_none _
  obtain ⟨hK, hM, hID⟩ := hquot _ hinc (not_lt.mp hnorm)
  have horigK : u.inst.origK = P.K := rfl
  have hinstM : u.inst.M = P.M := rfl
  rw [horigK, hinstM, divide_eq_some hM, Option.bind_some, divide_eq_some (div_ne_zero hK hM),
    Option.bind_some]
  split_ifs with heq hlt
  · exact Option.some_ne_none _
  · exact Option.some_ne_none _
  · exact Option.some_ne_none _
  · rw [divide_eq_some (hID (lt_of_le_of_ne (not_lt.mp hlt) (Ne.symm heq))), Option.bind_some]
    split_ifs
    · exact Option.some_ne_none _
    · exact Option.some_ne_none _

lemma processTimeStep_ne_none {c : TransientSolverConfiguration} {dt t : ℚ}
    (hx : ExactSolver P C linearSolver) (hα : 0 < s.solver._alpha) (hdt : 0 < dt)
    (hreg : AttemptRegular c P C s.solver._alpha s dt t) :
    (s.attempt dt t).processTimeStep c (linearTimeStep P linearSolver) ≠ none := by
  have hα₀ : (s.attempt dt t).solver._alpha ≠ 0 := hα.ne'
  have hdt₀ : (s.attempt dt t).step.timeStep ≠ 0 := hdt.ne'
  rw [processTimeStep_eq c P linearSolver _ hα₀ hdt₀]
  obtain ⟨k, hk⟩ := Option.ne_none_iff_exists'.mp (autoTimeStepping_ne_none hx hα hdt hreg)
  rw [hk, Option.bind_some]
  exact finishTimeStep_ne_none _ hα₀ hdt₀

lemma processTimeStep_spec {c : TransientSolverConfiguration} {dt t : ℚ} {s' : TransientState n}
    (hα : 0 < s.solver._alpha) (hdt : 0 < dt)
    (h : (s.attempt dt t).processTimeStep c (linearTimeStep P linearSolver) = some s') :
    s'.solver._alpha = s.solver._alpha ∧
    (s'.Accepted →
      s'.solver.U = (s.attempt dt t).solution P linearSolver ∧
      s'.solver.V = sum (1 / (s.solver._alpha * dt))
        (sum 1 ((s.attempt dt t).solution P linearSolver) (-1) s.solver.U)
        (-(1 - s.solver._alpha) / s.solver._alpha) s.solver.V) ∧
    (¬ s'.Accepted → s'.solver.U = s.solver.U ∧ s'.solver.V = s.solver.V) := by
  have hα₀ : (s.attempt dt t).solver._alpha ≠ 0 := hα.ne'
  have hdt₀ : (s.attempt dt t).step.timeStep ≠ 0 := hdt.ne'
  rw [processTimeStep_eq c P linearSolver _ hα₀ hdt₀, Option.bind_eq_some_iff] at h
  obtain ⟨k, -, h⟩ := h
  -- neither end of the step changes its length or the next length: `Accepted` can be read off
  rw [finishTimeStep, accept_eq (((s.attempt dt t).solved P linearSolver).setNTimeStep k) hα₀ hdt₀] at h
  split_ifs at h with hacc
  · cases h
    exact ⟨rfl, fun _ => ⟨rfl, rfl⟩, fun hrej => absurd hacc hrej⟩
  · cases h
    exact ⟨rfl, fun h => absurd ((reject_accepted _).mp h) hacc, fun _ => ⟨rfl, rfl⟩⟩

/-- **One accepted step.**  The new velocity is the trapezoidal one, and the solution of the effective
system is in equilibrium with it. -/
lemma accepted_step {α dt : ℚ} (hα : 0 < α) (hdt : 0 < dt) {U V u : Vectors n}
    (hu : C.Solves (addMatrices P.K (1 / (α * dt)) P.M) (effectiveRhs P α dt U V) u) :
    C.Balanced P u (sum (1 / (α * dt)) (sum 1 u (-1) U) (-(1 - α) / α) V) ∧
    u = sum 1 U dt
      (sum α (sum (1 / (α * dt)) (sum 1 u (-1) U) (-(1 - α) / α) V) (1 - α) V) := by
  have hα₀ := hα.ne'
  have hdt₀ := hdt.ne'
  constructor
  · intro w hw
    have heff := hu.2 w hw
    rw [multiply_addMatrices, dot_sum, effectiveRhs, dot_sum, multiply_sum, dot_sum] at heff
    rw [dot_sum, multiply_sum, dot_sum, multiply_sum, dot_sum]
    linear_combination heff
  · funext d i
    simp only [sum]
    field_simp
    ring

end TransientState

/-! ## Runs -/

/-- **The scheme over a run.**  For every method but `GALERKIN` and every sequence of accepted and
rejected time steps of any positive lengths. -/
theorem run_keeps_scheme (c : TransientSolverConfiguration) (P : LinearProblem n)
    (C : Constraints n m) (linearSolver : Matrices n → Vectors n → Vectors n)
    (hx : ExactSolver P C linearSolver) {α : ℚ} (hα : c.methodAlpha = some α)
    (s₀ : TransientState n) (hinit : c.initAlpha = some s₀.solver._alpha) :
    KeepsScheme c P C linearSolver α (AttemptRegular c P C α) s₀ := by
  -- the parameter is the one that the method stands for, at the start and after every attempt
  have hstart : c.method ≠ .Galerkin → s₀.solver._alpha = α ∧ 0 < α := by
    intro hc
    obtain ⟨heq, hpos⟩ := TransientSolverConfiguration.initAlpha_eq hα hc
    exact ⟨Option.some.inj (hinit.symm.trans heq), hpos⟩
  intro hist s hrun
  suffices hinv : (c.method ≠ .Galerkin → s.solver._alpha = α) ∧
      Follows P C α s₀.solver.U s₀.solver.V hist ∧
      (s.solver.U, s.solver.V) = lastUV s₀.solver.U s₀.solver.V hist by
    refine ⟨hinv.2.1, hinv.2.2, fun dt t hdt hreg => ?_⟩
    have hpos := (hstart hreg.1).2
    have halpha := hinv.1 hreg.1
    subst halpha
    exact TransientState.processTimeStep_ne_none hx hpos hdt hreg
  induction hrun with
  | start => exact ⟨fun hc => (hstart hc).1, trivial, rfl⟩
  | @accepted hist s s' dt t _ hdt hreg hstep hacc ih =>
    have hpos := (hstart hreg.1).2
    have halpha := ih.1 hreg.1
    subst halpha
    obtain ⟨hkeep, haccepted, -⟩ := TransientState.processTimeStep_spec hpos hdt hstep
    obtain ⟨hU, hV⟩ := haccepted hacc
    obtain ⟨hbal, hupd⟩ := TransientState.accepted_step hpos hdt
      (TransientState.solves_solution (s := s.attempt dt t) hx hpos hdt)
    refine ⟨fun _ => hkeep, ⟨?_, ?_, ih.2.1⟩, rfl⟩
    · rw [hU, hV]
      exact hbal
    · rw [← ih.2.2, hU, hV]
      exact hupd
  | rejected _ hdt hreg hstep hrej ih =>
    have hpos := (hstart hreg.1).2
    have halpha := ih.1 hreg.1
    obtain ⟨hkeep, -, hrejected⟩ :=
      TransientState.processTimeStep_spec (by rw [halpha]; exact hpos) hdt hstep
    obtain ⟨hU, hV⟩ := hrejected hrej
    refine ⟨fun hc => hkeep.trans (ih.1 hc), ih.2.1, ?_⟩
    rw [hU, hV]
    exact ih.2.2

/-! ## One unknown -/

/-- One unknown with `K = M = 1` and without heat sources. -/
def oneUnknownProblem : LinearProblem (fun _ : Fin 1 => 1) where
  K := fun _ => 1
  M := fun _ => 1
  f := fun _ _ => 0

def noConstraints : Constraints (fun _ : Fin 1 => 1) 0 where
  B1 := fun _ => 0
  B1c := Fin.elim0

def oneUnknownSolver (K : Matrices (fun _ : Fin 1 => 1)) (f : Vectors (fun _ : Fin 1 => 1)) :
    Vectors (fun _ : Fin 1 => 1) := fun d i => f d i / K d i i

def fixedTimeStep (method : TransientMethod) : TransientSolverConfiguration where
  method := method
  alpha := 1 / 2
  time_step := 1 / 10
  auto_time_stepping := ⟨false, 1 / 1000, 1, 1 / 2, 3⟩

/-- Its state in front of the first time step, with `U = 1` and `V = 0`. -/
def oneUnknownState (α : ℚ) : TransientState (fun _ : Fin 1 => 1) where
  inst := ⟨0, 0, 0, 0, 1⟩
  step := ⟨0, 0, 0, 0⟩
  solver := ⟨0, 1, α, 1 / 10, 1, 0, 0, 0, 0⟩

lemma oneUnknownSolver_exact : ExactSolver oneUnknownProblem noConstraints oneUnknownSolver := by
  rintro τ b hτ
  refine ⟨funext fun r => r.elim0, ?_⟩
  rintro w -
  have hsolve : multiply (addMatrices oneUnknownProblem.K τ oneUnknownProblem.M)
      (oneUnknownSolver (addMatrices oneUnknownProblem.K τ oneUnknownProblem.M) b) = b := by
    funext d i
    have hne : (1 : ℚ) + τ ≠ 0 := by linarith
    fin_cases i
    simp [multiply, addMatrices, oneUnknownProblem, oneUnknownSolver, mulVec, dotProduct]
    field_simp
  rw [hsolve]

theorem run_keeps_scheme_crankNicolson :
    KeepsScheme (fixedTimeStep .CrankNicolson) oneUnknownProblem noConstraints oneUnknownSolver
      (1 / 2)
      (AttemptRegular (fixedTimeStep .CrankNicolson) oneUnknownProblem noConstraints (1 / 2))
      (oneUnknownState (1 / 2)) :=
  run_keeps_scheme _ _ _ _ oneUnknownSolver_exact rfl _ rfl

/-- **`GALERKIN` divides by zero** in its first attempt. -/
theorem galerkin_fails :
    ExactSolver oneUnknownProblem noConstraints oneUnknownSolver ∧
    (fixedTimeStep .Galerkin).methodAlpha = some (2 / 3) ∧
    (fixedTimeStep .Galerkin).initAlpha = some (oneUnknownState 0).solver._alpha ∧
    ¬ KeepsScheme (fixedTimeStep .Galerkin) oneUnknownProblem noConstraints oneUnknownSolver
      (2 / 3) (fun _ _ _ => True) (oneUnknownState 0) := by
  refine ⟨oneUnknownSolver_exact, rfl, rfl, fun hkeeps => ?_⟩
  obtain ⟨-, -, hdefined⟩ := hkeeps [] _ Run.start
  exact hdefined (1 / 10) (1 / 10) (by norm_num) trivial
    (TransientState.processTimeStep_eq_none _ _ _ rfl)

end Espreso.LoadStep
