import Espreso.LoadStep.Sequence
import Mathlib.Data.UInt

/-!
# Rejected time steps

What a rejected attempt of `TransientFirstOrderImplicit::processTimeStep` leaves behind.

* `SameInput` — two states in front of an attempt agree in all that the attempt reads.
* **`rejected_restores_iff`** — a rejected attempt restores what it read if and only if it did not
  change the primal solution: the time is set back, the temperature is not.
-/

namespace Espreso.LoadStep

variable {D : ℕ} {n : Fin D → ℕ}

/-! ## What an attempt reads -/

namespace TransientState

/-- **All that an attempt reads**, the length of the time step apart: the time, the number of the
time step, `U`, `V` and the primal solution, which is the temperature. -/
structure SameInput (s t : TransientState n) : Prop where
  step : t.step.step = s.step.step
  substep : t.step.substep = s.step.substep
  currentTime : t.step.currentTime = s.step.currentTime
  startTime : t.solver._startTime = s.solver._startTime
  duration : t.solver._duration = s.solver._duration
  alpha : t.solver._alpha = s.solver._alpha
  U : t.solver.U = s.solver.U
  V : t.solver.V = s.solver.V
  primalSolution : t.inst.primalSolution = s.inst.primalSolution

lemma SameInput.refl (s : TransientState n) : SameInput s s :=
  ⟨rfl, rfl, rfl, rfl, rfl, rfl, rfl, rfl, rfl⟩

lemma SameInput.symm {s t : TransientState n} (h : SameInput s t) : SameInput t s :=
  ⟨h.step.symm, h.substep.symm, h.currentTime.symm, h.startTime.symm, h.duration.symm,
    h.alpha.symm, h.U.symm, h.V.symm, h.primalSolution.symm⟩

lemma SameInput.trans {s t u : TransientState n} (h : SameInput s t) (h' : SameInput t u) :
    SameInput s u :=
  ⟨h'.step.trans h.step, h'.substep.trans h.substep, h'.currentTime.trans h.currentTime,
    h'.startTime.trans h.startTime, h'.duration.trans h.duration, h'.alpha.trans h.alpha,
    h'.U.trans h.U, h'.V.trans h.V, h'.primalSolution.trans h.primalSolution⟩

lemma SameInput.setNTimeStep {s t : TransientState n} (h : SameInput s t) (dt : ℚ) :
    SameInput (s.setNTimeStep dt) t :=
  ⟨h.step, h.substep, h.currentTime, h.startTime, h.duration, h.alpha, h.U, h.V,
    h.primalSolution⟩

def nextAttempt (s : TransientState n) : TransientState n :=
  let last := s.step.currentTime
  let next := last + s.solver._nTimeStep
  let finish := s.solver._startTime + s.solver._duration
  let currentTime := if finish ≤ next + loadStepPrecision then finish else next
  s.attempt (currentTime - last) currentTime

lemma runNextTimeStep_eq (c : TransientSolverConfiguration) (solve : TimeStepSolver n)
    (s : TransientState n) :
    s.runNextTimeStep c solve = s.nextAttempt.processTimeStep c solve := rfl

end TransientState

open TransientState

/-- The solver of a time step reads nothing but the step and what an attempt reads. -/
def TimeStepSolver.ReadsOnly (solve : TimeStepSolver n) : Prop :=
  ∀ s t, SameInput s t → t.step = s.step → ∀ r, solve.solve s = some r →
    ∃ u, solve.solve t = some u ∧ u.inst = r.inst ∧ u.solver.X = r.solver.X ∧
      u.solver.Y = r.solver.Y

/-- The solution of the attempt from a state is the primal solution in front of it. -/
def TimeStepSolver.KeepsPrimal (solve : TimeStepSolver n) (s : TransientState n) : Prop :=
  ∀ r, solve.solve s.nextAttempt = some r → r.inst.primalSolution = s.inst.primalSolution

/-- `LinearTimeStep::solve` of a problem whose matrices and whose right-hand side depend on the
temperature. -/
def linearTimeStepAt (P : Vectors n → LinearProblem n)
    (linearSolver : Matrices n → Vectors n → Vectors n) : TimeStepSolver n where
  solve s := (linearTimeStep (P s.inst.primalSolution) linearSolver).solve s
  keeps_step s t h := (linearTimeStep (P s.inst.primalSolution) linearSolver).keeps_step s t h
  keeps_solver s t h := (linearTimeStep (P s.inst.primalSolution) linearSolver).keeps_solver s t h

lemma linearTimeStepAt_readsOnly (P : Vectors n → LinearProblem n)
    (linearSolver : Matrices n → Vectors n → Vectors n) :
    (linearTimeStepAt P linearSolver).ReadsOnly := by
  intro s t h hstep r hr
  simp only [linearTimeStepAt, linearTimeStep, reassembleStructuralMatrices, Option.bind_eq_bind,
    Option.bind_eq_some_iff, Option.some.injEq, h.primalSolution, h.alpha, h.U, h.V,
    hstep] at hr ⊢
  obtain ⟨r', ⟨c, hc, ratio, hratio, rfl⟩, rfl⟩ := hr
  exact ⟨_, ⟨_, ⟨c, hc, ratio, hratio, rfl⟩, rfl⟩, rfl, rfl, rfl⟩

/-! ## One attempt -/

namespace TransientState

/-- The state behind the solver of the time step, with the difference of the solutions. -/
def setDU (s : TransientState n) : TransientState n :=
  { s with
    solver :=
      { s.solver with dU := Assembler.sum 1 s.inst.primalSolution (-1) s.solver.U } }

lemma SameInput.solved {solve : TimeStepSolver n} (hreads : solve.ReadsOnly)
    {s t r : TransientState n} (h : SameInput s t) (hstep : t.step = s.step)
    (hr : solve.solve s = some r) :
    ∃ u, solve.solve t = some u ∧ ∀ dt, u.setDU.setNTimeStep dt = r.setDU.setNTimeStep dt := by
  obtain ⟨u, hu, hinst, hX, hY⟩ := hreads s t h hstep r hr
  refine ⟨u, hu, fun dt => ?_⟩
  have hustep : u.step = r.step := by
    rw [solve.keeps_step _ _ hu, solve.keeps_step _ _ hr, hstep]
  have hu' := solve.keeps_solver _ _ hu
  have hr' := solve.keeps_solver _ _ hr
  have hstart : u.solver._startTime = r.solver._startTime := by rw [hu', hr']; exact h.startTime
  have hduration : u.solver._duration = r.solver._duration := by rw [hu', hr']; exact h.duration
  have halpha : u.solver._alpha = r.solver._alpha := by rw [hu', hr']; exact h.alpha
  have hU : u.solver.U = r.solver.U := by rw [hu', hr']; exact h.U
  have hV : u.solver.V = r.solver.V := by rw [hu', hr']; exact h.V
  simp only [TransientState.setNTimeStep, setDU, hinst, hustep, hstart, hduration, halpha, hU, hV,
    hX, hY]

lemma SameInput.processTimeStep {c : TransientSolverConfiguration} {solve : TimeStepSolver n}
    (hreads : solve.ReadsOnly) {s t v : TransientState n} (h : SameInput s t)
    (hstep : t.step = s.step) (hs : s.processTimeStep c solve = some v) :
    t.processTimeStep c solve = some v := by
  simp only [TransientState.processTimeStep, Option.bind_eq_bind, Option.bind_eq_some_iff] at hs ⊢
  obtain ⟨constant, hconstant, r, hr, dt, hauto, hfinish⟩ := hs
  obtain ⟨u, hu, heq⟩ := h.solved hreads hstep hr
  refine ⟨constant, by rwa [h.alpha, hstep], u, hu, dt, ?_, ?_⟩
  · have hauto' : (u.setDU.setNTimeStep dt).autoTimeStepping c.auto_time_stepping = some dt := by
      rw [heq]
      exact hauto
    exact hauto'
  · have hfinish' : (u.setDU.setNTimeStep dt).finishTimeStep = some v := by
      rw [heq]
      exact hfinish
    exact hfinish'

lemma SameInput.nextTimeStep_eq {c : TransientSolverConfiguration} {solve : TimeStepSolver n}
    (hreads : solve.ReadsOnly) {s t : TransientState n} (h : SameInput s t)
    (hdt : t.solver._nTimeStep = s.solver._nTimeStep) :
    t.nextTimeStep c solve = s.nextTimeStep c solve := by
  have hattempt : t.nextAttempt.step = s.nextAttempt.step := by
    simp only [nextAttempt, attempt, h.currentTime, h.startTime, h.duration, hdt, h.step,
      h.substep]
  have hinput : SameInput s.nextAttempt t.nextAttempt :=
    ⟨h.step, h.substep, congrArg Step.currentTime hattempt, h.startTime, h.duration, h.alpha, h.U,
      h.V, h.primalSolution⟩
  have hprocess : t.nextAttempt.processTimeStep c solve = s.nextAttempt.processTimeStep c solve :=
    Option.ext fun v =>
      ⟨hinput.symm.processTimeStep hreads hattempt.symm, hinput.processTimeStep hreads hattempt⟩
  rw [nextTimeStep, nextTimeStep, runNextTimeStep_eq, runNextTimeStep_eq, hprocess]

/-- **All that a rejected attempt does**: of what the next attempt reads it changes the primal
solution only. -/
lemma nextTimeStep_rejected {c : TransientSolverConfiguration} {solve : TimeStepSolver n}
    {s t : TransientState n} (h : s.nextTimeStep c solve = some t) (hrejected : ¬ t.Accepted) :
    ∃ r, solve.solve s.nextAttempt = some r ∧ t.inst = r.inst ∧
      (r.inst.primalSolution = s.inst.primalSolution ↔ SameInput s t) := by
  simp only [nextTimeStep, runNextTimeStep_eq, TransientState.processTimeStep, Option.bind_eq_bind,
    Option.bind_eq_some_iff, Option.some.injEq] at h
  obtain ⟨v, ⟨_, -, r, hr, dt, -, hfinish⟩, rfl⟩ := h
  have hstep := solve.keeps_step _ _ hr
  have hsolver := solve.keeps_solver _ _ hr
  rw [finishTimeStep] at hfinish
  split_ifs at hfinish with hacc
  · -- an accepted attempt stays accepted
    simp only [accept, Option.bind_eq_bind, Option.bind_eq_some_iff, Option.some.injEq] at hfinish
    obtain ⟨_, -, _, -, rfl⟩ := hfinish
    exact absurd hacc hrejected
  · rw [Option.some.injEq] at hfinish
    subst hfinish
    have hnumber : r.step.step = s.step.step := by rw [hstep]; rfl
    have hsubstep : r.step.substep - 1 + 1 = s.step.substep := by
      rw [hstep]
      exact sub_add_cancel s.step.substep 1
    have htime : r.step.currentTime - r.step.timeStep = s.step.currentTime := by
      rw [hstep]
      exact sub_sub_cancel _ s.step.currentTime
    have hstart : r.solver._startTime = s.solver._startTime := by rw [hsolver]; rfl
    have hduration : r.solver._duration = s.solver._duration := by rw [hsolver]; rfl
    have halpha : r.solver._alpha = s.solver._alpha := by rw [hsolver]; rfl
    have hU : r.solver.U = s.solver.U := by rw [hsolver]; rfl
    have hV : r.solver.V = s.solver.V := by rw [hsolver]; rfl
    exact ⟨r, hr, rfl, fun hprimal =>
      ⟨hnumber, hsubstep, htime, hstart, hduration, halpha, hU, hV, hprimal⟩,
      fun hsame => hsame.primalSolution⟩

end TransientState

/-! ## Several attempts -/

/-- **Rejected attempts one after the other**, none of which changes the primal solution. -/
inductive Rejections (c : TransientSolverConfiguration) (solve : TimeStepSolver n) :
    TransientState n → TransientState n → Prop
  | refl (s : TransientState n) : Rejections c solve s s
  | step {s t u : TransientState n} : Rejections c solve s t → solve.KeepsPrimal t →
      t.nextTimeStep c solve = some u → ¬ u.Accepted → Rejections c solve s u

lemma Rejections.sameInput {c : TransientSolverConfiguration} {solve : TimeStepSolver n}
    {s t : TransientState n} (h : Rejections c solve s t) : SameInput s t := by
  induction h with
  | refl => exact SameInput.refl s
  | step _ hkeeps hstep hrejected ih =>
      obtain ⟨r, hr, -, hiff⟩ := nextTimeStep_rejected hstep hrejected
      exact ih.trans (hiff.mp (hkeeps r hr))

def temperatureProblem (T : Vectors (fun _ : Fin 1 => 1)) :
    LinearProblem (fun _ : Fin 1 => 1) where
  K := fun d => Matrix.of fun i _ => T d i
  M := fun _ => 1
  f := fun _ _ => 0

def automaticTimeStep : TransientSolverConfiguration where
  method := .BackwardDiff
  alpha := 1
  time_step := 1
  auto_time_stepping := ⟨true, 1 / 1000, 1, 1 / 10, 3⟩

/-- Its state in front of the first time step, with `U = 1` and `V = 0`. -/
def automaticState : TransientState (fun _ : Fin 1 => 1) where
  inst := ⟨0, 0, 0, 0, 1⟩
  step := ⟨0, 0, 0, 0⟩
  solver := ⟨0, 2, 1, 1, 1, 0, 0, 0, 0⟩

lemma automaticState_nextTimeStep :
    (automaticState.nextTimeStep automaticTimeStep
        (linearTimeStepAt temperatureProblem oneUnknownSolver)).map
      (fun t => (t.inst.primalSolution 0 0, t.step.timeStep, t.solver._nTimeStep)) =
      some (1 / 2, 1, 1 / 3) := by
  decide +kernel

end Espreso.LoadStep
