import Mathlib.Data.Matrix.Mul
import Mathlib.Data.Rat.Defs
import Mathlib.Algebra.Order.Ring.Rat
import Mathlib.Tactic.Linarith
import Mathlib.Tactic.NormNum

/-!
# The first order implicit load step

`TransientFirstOrderImplicit` and the time step it drives.

* `State.reassembleStructuralMatrices` — the effective matrix and the effective right-hand side.
* `TimeStepSolver` — what a load step asks of the solver of one time step; `linearTimeStep` is
  `LinearTimeStep::solve`.
* `State.autoTimeStepping`, `State.processTimeStep`, `State.runNextTimeStep`.
* `processTimeStep_eq` — all that one attempt does, accepted or rejected.

The vectors of all domains of all ranks are one family of vectors, and a sum over the ranks is a sum
over all domains.  Every division is checked: `none` is a division by zero or an error exit.
-/

namespace Espreso.LoadStep

open Matrix Finset

/-! ## Vectors and matrices of the domains -/

/-- `std::vector<std::vector<double> >`, one vector for each domain. -/
abbrev Vectors {D : ℕ} (n : Fin D → ℕ) := (d : Fin D) → Fin (n d) → ℚ

/-- `std::vector<SparseMatrix>`, one square matrix for each domain. -/
abbrev Matrices {D : ℕ} (n : Fin D → ℕ) := (d : Fin D) → Matrix (Fin (n d)) (Fin (n d)) ℚ

namespace Assembler

variable {D : ℕ} {n : Fin D → ℕ}

/-- `Assembler::sum` of vectors: `z = a * x + b * y`. -/
def sum (a : ℚ) (x : Vectors n) (b : ℚ) (y : Vectors n) : Vectors n :=
  fun d i => a * x d i + b * y d i

/-- `Assembler::sum` of matrices: `A += beta * B`. -/
def addMatrices (A : Matrices n) (beta : ℚ) (B : Matrices n) : Matrices n :=
  fun d => A d + beta • B d

/-- `Assembler::multiply` of matrices and vectors: `y = A * x`. -/
def multiply (A : Matrices n) (x : Vectors n) : Vectors n := fun d => A d *ᵥ x d

/-- `Assembler::multiply` of two vectors. -/
def dot (x y : Vectors n) : ℚ := ∑ d, x d ⬝ᵥ y d

/-- `Assembler::sumSquares` without a restriction. -/
def sumSquares (x : Vectors n) : ℚ := ∑ d, ∑ i, x d i * x d i

lemma dot_sum (w : Vectors n) (a : ℚ) (x : Vectors n) (b : ℚ) (y : Vectors n) :
    dot w (sum a x b y) = a * dot w x + b * dot w y := by
  simp only [dot, mul_sum, ← sum_add_distrib]
  refine sum_congr rfl fun d _ => ?_
  have hsum : sum a x b y d = a • x d + b • y d := rfl
  rw [hsum, dotProduct_add, dotProduct_smul, dotProduct_smul, smul_eq_mul, smul_eq_mul]

lemma multiply_sum (A : Matrices n) (a : ℚ) (x : Vectors n) (b : ℚ) (y : Vectors n) :
    multiply A (sum a x b y) = sum a (multiply A x) b (multiply A y) := by
  funext d i
  have hsum : sum a x b y d = a • x d + b • y d := rfl
  simp only [multiply, hsum, mulVec_add, mulVec_smul]
  rfl

lemma multiply_addMatrices (A : Matrices n) (beta : ℚ) (B : Matrices n) (x : Vectors n) :
    multiply (addMatrices A beta B) x = sum 1 (multiply A x) beta (multiply B x) := by
  funext d i
  simp only [multiply, addMatrices, add_mulVec, smul_mulVec, sum, Pi.add_apply, Pi.smul_apply,
    smul_eq_mul, one_mul]

end Assembler

/-! ## Configuration and state -/

/-- `TransientSolverConfiguration::METHOD` -/
inductive TransientMethod where
  | CrankNicolson
  | ForwardDiff
  | Galerkin
  | BackwardDiff
  | User
  deriving DecidableEq

structure AutoTimeSteppingConfiguration where
  allowed : Bool
  min_time_step : ℚ
  max_time_step : ℚ
  oscilation_limit : ℚ
  IDFactor : ℚ

structure TransientSolverConfiguration where
  method : TransientMethod
  alpha : ℚ
  time_step : ℚ
  auto_time_stepping : AutoTimeSteppingConfiguration

/-- What the load steps use of `Instance`. -/
structure Instance.Transient {D : ℕ} (n : Fin D → ℕ) where
  K : Matrices n
  origK : Matrices n
  M : Matrices n
  f : Vectors n
  primalSolution : Vectors n

/-- What the load steps use of `Step`. -/
structure Step where
  step : ℕ
  substep : UInt64
  currentTime : ℚ
  timeStep : ℚ

/-- The members of `TransientFirstOrderImplicit` and of its base `LoadStepSolver`. -/
structure TransientFirstOrderImplicit {D : ℕ} (n : Fin D → ℕ) where
  _startTime : ℚ
  _duration : ℚ
  _alpha : ℚ
  _nTimeStep : ℚ
  U : Vectors n
  dU : Vectors n
  V : Vectors n
  X : Vectors n
  Y : Vectors n

/-- What a transient load step works on: the instance, the step and its own members. -/
structure TransientState {D : ℕ} (n : Fin D → ℕ) where
  inst : Instance.Transient n
  step : Step
  solver : TransientFirstOrderImplicit n

/-- The physics of a linear problem: what `Physics::updateMatrix` assembles at every step. -/
structure LinearProblem {D : ℕ} (n : Fin D → ℕ) where
  K : Matrices n
  M : Matrices n
  f : Vectors n

/-- `_precision` of `LoadStepSolver`. -/
def loadStepPrecision : ℚ := 1 / 100000000

def divide (a b : ℚ) : Option ℚ := if b = 0 then none else some (a / b)

lemma divide_eq_some {a b : ℚ} (h : b ≠ 0) : divide a b = some (a / b) := if_neg h

/-- The switch over the methods in `initLoadStep`; the quotient of `GALERKIN` is one of integers. -/
def TransientSolverConfiguration.initAlpha (c : TransientSolverConfiguration) : Option ℚ :=
  match c.method with
  | .CrankNicolson => some (1 / 2)
  | .ForwardDiff => none
  | .Galerkin => some ((2 / 3 : ℤ) : ℚ)
  | .BackwardDiff => some 1
  | .User => if c.alpha ≤ 0 ∨ 1 < c.alpha then none else some c.alpha

/-! ## One time step -/

namespace TransientState

variable {D : ℕ} {n : Fin D → ℕ}

/-- `updateStructuralMatrices` with all matrices: `updateMatrix` and
`reassembleStructuralMatrices`. -/
def reassembleStructuralMatrices (P : LinearProblem n) (s : TransientState n) :
    Option (TransientState n) := do
  let c ← divide 1 (s.solver._alpha * s.step.timeStep)
  let r ← divide (1 - s.solver._alpha) s.solver._alpha
  let X := Assembler.sum c s.solver.U r s.solver.V
  let Y := Assembler.multiply P.M X
  some
    { s with
      inst :=
        { s.inst with
          K := Assembler.addMatrices P.K c P.M
          origK := P.K
          M := P.M
          f := Assembler.sum 1 P.f 1 Y }
      solver := { s.solver with X := X, Y := Y } }

end TransientState

/-- The solver of one time step.  It may change the instance; of the members of the load step it
changes only the work vectors. -/
structure TimeStepSolver {D : ℕ} (n : Fin D → ℕ) where
  solve : TransientState n → Option (TransientState n)
  keeps_step : ∀ s t, solve s = some t → t.step = s.step
  keeps_solver : ∀ s t, solve s = some t →
    t.solver = { s.solver with X := t.solver.X, Y := t.solver.Y }

/-- `LinearTimeStep::solve`: the linear solver gets the effective system. -/
def linearTimeStep {D : ℕ} {n : Fin D → ℕ} (P : LinearProblem n)
    (linearSolver : Matrices n → Vectors n → Vectors n) : TimeStepSolver n where
  solve s := do
    let t ← s.reassembleStructuralMatrices P
    some { t with inst := { t.inst with primalSolution := linearSolver t.inst.K t.inst.f } }
  keeps_step s t h := by
    simp only [TransientState.reassembleStructuralMatrices, Option.bind_eq_bind,
      Option.bind_eq_some_iff, Option.some.injEq] at h
    obtain ⟨_, ⟨_, _, _, _, rfl⟩, rfl⟩ := h
    rfl
  keeps_solver s t h := by
    simp only [TransientState.reassembleStructuralMatrices, Option.bind_eq_bind,
      Option.bind_eq_some_iff, Option.some.injEq] at h
    obtain ⟨_, ⟨_, _, _, _, rfl⟩, rfl⟩ := h
    rfl

namespace TransientState

variable {D : ℕ} {n : Fin D → ℕ}

/-- The automatic time stepping of `processTimeStep`: the length of the next time step.  The quotient
of the norms is compared through its square. -/
def autoTimeStepping (c : AutoTimeSteppingConfiguration) (s : TransientState n) : Option ℚ :=
  let dt := s.step.timeStep
  if c.allowed ∧ s.step.currentTime < s.solver._startTime + s.solver._duration then do
    let norm ← divide (Assembler.sumSquares s.solver.dU) (Assembler.sumSquares s.solver.U)
    if norm < (1 / 100000) ^ 2 then
      some (min c.max_time_step (c.IDFactor * dt))
    else
      let TKT := Assembler.dot (Assembler.multiply s.inst.origK s.solver.dU) s.solver.dU
      let TMT := Assembler.dot (Assembler.multiply s.inst.M s.solver.dU) s.solver.dU
      let resFreq ← divide TKT TMT
      let t1 ← divide c.oscilation_limit resFreq
      if dt = t1 then some dt
      else if dt < t1 then
        if c.IDFactor * dt < t1 then some (min c.max_time_step (c.IDFactor * dt)) else some dt
      else
        let q ← divide dt c.IDFactor
        if t1 < q then some (max c.min_time_step q) else some dt
  else some dt

/-- The end of `processTimeStep` for an accepted time step. -/
def accept (s : TransientState n) : Option (TransientState n) := do
  let c ← divide 1 (s.solver._alpha * s.step.timeStep)
  let r ← divide (-(1 - s.solver._alpha)) s.solver._alpha
  some
    { s with
      solver :=
        { s.solver with
          V := Assembler.sum c s.solver.dU r s.solver.V
          U := s.inst.primalSolution } }

/-- The end of `processTimeStep` for a rejected time step; `substep` is of type `size_t`. -/
def reject (s : TransientState n) : TransientState n :=
  { s with
    step :=
      { s.step with
        currentTime := s.step.currentTime - s.step.timeStep
        substep := s.step.substep - 1 } }

def Accepted (s : TransientState n) : Prop :=
  s.step.timeStep - loadStepPrecision < s.solver._nTimeStep

instance (s : TransientState n) : Decidable s.Accepted :=
  inferInstanceAs (Decidable (_ < _))

lemma reject_accepted (s : TransientState n) : s.reject.Accepted ↔ s.Accepted := Iff.rfl

/-- `_nTimeStep = dt` -/
def setNTimeStep (s : TransientState n) (dt : ℚ) : TransientState n :=
  { s with solver := { s.solver with _nTimeStep := dt } }

/-- The last branch of `processTimeStep`. -/
def finishTimeStep (s : TransientState n) : Option (TransientState n) :=
  if s.Accepted then s.accept else some s.reject

/-- `processTimeStep`; the first division is the one of `timeIntegrationConstantM`. -/
def processTimeStep (c : TransientSolverConfiguration) (timeStepSolver : TimeStepSolver n)
    (s : TransientState n) : Option (TransientState n) := do
  let _ ← divide 1 (s.solver._alpha * s.step.timeStep)
  let s ← timeStepSolver.solve s
  let dU := Assembler.sum 1 s.inst.primalSolution (-1) s.solver.U
  let s := { s with solver := { s.solver with dU := dU } }
  let nTimeStep ← s.autoTimeStepping c.auto_time_stepping
  (s.setNTimeStep nTimeStep).finishTimeStep

def hasNextTimeStep (s : TransientState n) : Prop :=
  s.step.currentTime + loadStepPrecision < s.solver._startTime + s.solver._duration

/-- An attempt of length `dt` that ends at time `t`. -/
def attempt (s : TransientState n) (dt t : ℚ) : TransientState n :=
  { s with step := { s.step with timeStep := dt, currentTime := t } }

def runNextTimeStep (c : TransientSolverConfiguration) (timeStepSolver : TimeStepSolver n)
    (s : TransientState n) : Option (TransientState n) :=
  let last := s.step.currentTime
  let next := last + s.solver._nTimeStep
  let finish := s.solver._startTime + s.solver._duration
  let currentTime := if finish ≤ next + loadStepPrecision then finish else next
  (s.attempt (currentTime - last) currentTime).processTimeStep c timeStepSolver

/-- **All that one time step can do**, with any solver of the time step: it is accepted and `U` is the
primal solution, or it is rejected and the time is set back. -/
lemma processTimeStep_cases {c : TransientSolverConfiguration} {timeStepSolver : TimeStepSolver n}
    {s t : TransientState n} (h : s.processTimeStep c timeStepSolver = some t) :
    t.solver.U = t.inst.primalSolution ∨
    (t.step.currentTime = s.step.currentTime - s.step.timeStep ∧
      t.solver._startTime = s.solver._startTime ∧ t.solver._duration = s.solver._duration) := by
  simp only [processTimeStep, Option.bind_eq_bind, Option.bind_eq_some_iff] at h
  obtain ⟨_, -, r, hr, _, -, h⟩ := h
  have hstep := timeStepSolver.keeps_step _ _ hr
  have hstart : r.solver._startTime = s.solver._startTime := by
    rw [timeStepSolver.keeps_solver _ _ hr]
  have hduration : r.solver._duration = s.solver._duration := by
    rw [timeStepSolver.keeps_solver _ _ hr]
  rw [finishTimeStep] at h
  split_ifs at h with hacc
  · simp only [accept, Option.bind_eq_bind, Option.bind_eq_some_iff, Option.some.injEq] at h
    obtain ⟨_, -, _, -, rfl⟩ := h
    exact Or.inl rfl
  · rw [Option.some.injEq] at h
    subst h
    refine Or.inr ⟨?_, hstart, hduration⟩
    simp only [reject, setNTimeStep, hstep]

/-! ## What an attempt does -/

def effectiveRhs (P : LinearProblem n) (α dt : ℚ) (U V : Vectors n) : Vectors n :=
  Assembler.sum 1 P.f 1
    (Assembler.multiply P.M (Assembler.sum (1 / (α * dt)) U ((1 - α) / α) V))

def solved (P : LinearProblem n) (linearSolver : Matrices n → Vectors n → Vectors n)
    (s : TransientState n) : TransientState n :=
  let α := s.solver._alpha
  let dt := s.step.timeStep
  let X := Assembler.sum (1 / (α * dt)) s.solver.U ((1 - α) / α) s.solver.V
  let K := Assembler.addMatrices P.K (1 / (α * dt)) P.M
  let f := effectiveRhs P α dt s.solver.U s.solver.V
  { s with
    inst := ⟨K, P.K, P.M, f, linearSolver K f⟩
    solver :=
      { s.solver with
        X := X
        Y := Assembler.multiply P.M X
        dU := Assembler.sum 1 (linearSolver K f) (-1) s.solver.U } }

lemma processTimeStep_eq (c : TransientSolverConfiguration) (P : LinearProblem n)
    (linearSolver : Matrices n → Vectors n → Vectors n) (s : TransientState n)
    (hα : s.solver._alpha ≠ 0) (hdt : s.step.timeStep ≠ 0) :
    s.processTimeStep c (linearTimeStep P linearSolver) =
      ((s.solved P linearSolver).autoTimeStepping c.auto_time_stepping).bind fun nTimeStep =>
        ((s.solved P linearSolver).setNTimeStep nTimeStep).finishTimeStep := by
  have hmul : s.solver._alpha * s.step.timeStep ≠ 0 := mul_ne_zero hα hdt
  simp only [processTimeStep, linearTimeStep, reassembleStructuralMatrices,
    divide_eq_some hα, divide_eq_some hmul, Option.bind_eq_bind, Option.bind_some]
  rfl

lemma accept_eq (s : TransientState n) (hα : s.solver._alpha ≠ 0) (hdt : s.step.timeStep ≠ 0) :
    s.accept = some
      { s with
        solver :=
          { s.solver with
            V := Assembler.sum (1 / (s.solver._alpha * s.step.timeStep)) s.solver.dU
              (-(1 - s.solver._alpha) / s.solver._alpha) s.solver.V
            U := s.inst.primalSolution } } := by
  simp only [accept, divide_eq_some (mul_ne_zero hα hdt), divide_eq_some hα, Option.bind_eq_bind,
    Option.bind_some]

lemma finishTimeStep_ne_none (s : TransientState n) (hα : s.solver._alpha ≠ 0)
    (hdt : s.step.timeStep ≠ 0) : s.finishTimeStep ≠ none := by
  rw [finishTimeStep, accept_eq s hα hdt]
  split_ifs
  · exact Option.some_ne_none _
  · exact Option.some_ne_none _

lemma processTimeStep_eq_none (c : TransientSolverConfiguration)
    (timeStepSolver : TimeStepSolver n) (s : TransientState n) (hα : s.solver._alpha = 0) :
    s.processTimeStep c timeStepSolver = none := by
  simp only [processTimeStep, divide, hα, zero_mul, if_true, Option.bind_eq_bind,
    Option.bind_none]

end TransientState

end Espreso.LoadStep
