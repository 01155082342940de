import Espreso.LoadStep.Sequence
import Mathlib.Algebra.Order.Floor.Semiring
import Mathlib.Data.Rat.Floor
import Mathlib.Data.UInt

/-!
# The time of a load step

What `LoadStepSolver::run` does to the time, with each of the load step solvers.  What the solver of
a time step answers is a sequence of inputs: the norm and the response frequency of every attempt.

* `TimedStep`, `TimeLoop` — all that is advanced, clipped and set back.
* **`run_ends`** — every load step ends at its end, after finitely many attempts.
-/

namespace Espreso.LoadStep

/-! ## The answers of a time step -/

/-- A quotient of two numbers of type `double`. -/
inductive DoubleQuotient where
  | rational (q : ℚ)
  | infinity (negative : Bool)
  | nan
  deriving DecidableEq

namespace DoubleQuotient

/-- `a / b` with a positive zero. -/
def divide (a b : ℚ) : DoubleQuotient :=
  if b ≠ 0 then .rational (a / b) else if a = 0 then .nan else .infinity (a < 0)

/-- `a / x` -/
def divideBy (a : ℚ) (x : DoubleQuotient) : DoubleQuotient :=
  match x with
  | .rational q => divide a q
  | .infinity _ => .rational 0
  | .nan => .nan

/-- `x < a` -/
def below (x : DoubleQuotient) (a : ℚ) : Bool :=
  match x with
  | .rational q => q < a
  | .infinity negative => negative
  | .nan => false

/-- `a < x` -/
def above (x : DoubleQuotient) (a : ℚ) : Bool :=
  match x with
  | .rational q => a < q
  | .infinity negative => !negative
  | .nan => false

lemma eq_of_divide {a b q : ℚ} (h : LoadStep.divide a b = some q) : q = a / b := by
  rw [LoadStep.divide] at h
  split_ifs at h
  exact (Option.some.inj h).symm

lemma divideBy_eq {a b q : ℚ} (h : LoadStep.divide a b = some q) :
    (rational b).divideBy a = .rational q := by
  rw [eq_of_divide h]
  rw [LoadStep.divide] at h
  split_ifs at h with hb
  exact if_pos hb

end DoubleQuotient

/-- What `processTimeStep` computes of the solution: the quotient of the norms and the response
frequency. -/
structure Response where
  norm : DoubleQuotient
  resFreq : DoubleQuotient

/-! ## The state of the loop -/

/-- `Step` with the remaining members that the load steps read or write. -/
structure TimedStep extends Step where
  finalTime : ℚ
  internalForceReduction : ℚ

/-- `Step::Step` -/
def TimedStep.initial : TimedStep := ⟨⟨0, 0, 0, 0⟩, 0, 1⟩

/-- `Step::isLast` -/
def TimedStep.isLast (s : TimedStep) : Bool := s.currentTime = s.finalTime

/-- The step, and the length of the next time step, a member of `TransientFirstOrderImplicit`. -/
structure TimeLoop where
  step : TimedStep
  _nTimeStep : ℚ

/-- One attempt: the step for which the system was solved, whether it was accepted, and whether
`storeSolution` was called. -/
structure Attempt where
  step : TimedStep
  accepted : Bool
  storeSolution : Bool

/-! ## One attempt -/

/-- The time of a load step solver; a number of substeps that divides is not zero. -/
inductive TimeSolver where
  | steadyState (duration : ℚ)
  | pseudoTimeStepping (duration : ℚ) (substeps : UInt64) (nonzero : substeps ≠ 0)
  | transient (duration : ℚ) (configuration : TransientSolverConfiguration)

/-- The automatic time stepping: the length of the next time step. -/
def AutoTimeSteppingConfiguration.nTimeStep (c : AutoTimeSteppingConfiguration) (finish : ℚ)
    (response : Response) (step : TimedStep) : ℚ :=
  let dt := step.timeStep
  if c.allowed ∧ step.currentTime < finish then
    if response.norm.below (1 / 100000) then
      min c.max_time_step (c.IDFactor * dt)
    else
      let t1 := response.resFreq.divideBy c.oscilation_limit
      if t1 = .rational dt then dt
      else if t1.above dt then
        if t1.above (c.IDFactor * dt) then min c.max_time_step (c.IDFactor * dt) else dt
      else
        if t1.below (dt / c.IDFactor) then max c.min_time_step (dt / c.IDFactor) else dt
  else dt

/-- The beginning of `runNextTimeStep`: a time step of length `dt`, clipped at the end. -/
def TimedStep.advance (s : TimedStep) (finish dt : ℚ) : TimedStep :=
  let next := s.currentTime + dt
  let currentTime := if finish ≤ next + loadStepPrecision then finish else next
  { s with currentTime := currentTime, timeStep := currentTime - s.currentTime }

namespace TransientSolverConfiguration

/-- `TransientFirstOrderImplicit::processTimeStep` -/
def processTimeStep (c : TransientSolverConfiguration) (finish : ℚ) (response : Response)
    (s : TimedStep) : Attempt × TimeLoop :=
  let step := { s with internalForceReduction := 1 }
  let nTimeStep := c.auto_time_stepping.nTimeStep finish response step
  if step.timeStep - loadStepPrecision < nTimeStep then
    (⟨step, true, true⟩, ⟨step, nTimeStep⟩)
  else
    (⟨step, false, false⟩,
      ⟨{ step with
          currentTime := step.currentTime - step.timeStep
          substep := step.substep - 1 }, nTimeStep⟩)

lemma processTimeStep_accepted {c : TransientSolverConfiguration} {finish : ℚ} {response : Response}
    {s : TimedStep} {dt : ℚ}
    (hdt : c.auto_time_stepping.nTimeStep finish response
      { s with internalForceReduction := 1 } = dt)
    (hacc : s.timeStep - loadStepPrecision < dt) :
    c.processTimeStep finish response s =
      (⟨{ s with internalForceReduction := 1 }, true, true⟩,
        ⟨{ s with internalForceReduction := 1 }, dt⟩) := by
  subst hdt
  exact if_pos hacc

lemma processTimeStep_rejected {c : TransientSolverConfiguration} {finish : ℚ} {response : Response}
    {s : TimedStep} {dt : ℚ}
    (hdt : c.auto_time_stepping.nTimeStep finish response
      { s with internalForceReduction := 1 } = dt)
    (hacc : ¬ s.timeStep - loadStepPrecision < dt) :
    c.processTimeStep finish response s =
      (⟨{ s with internalForceReduction := 1 }, false, false⟩,
        ⟨{ s with
            internalForceReduction := 1
            currentTime := s.currentTime - s.timeStep
            substep := s.substep - 1 }, dt⟩) := by
  subst hdt
  exact if_neg hacc

end TransientSolverConfiguration

namespace TimeSolver

/-- `_duration` -/
def duration : TimeSolver → ℚ
  | .steadyState duration => duration
  | .pseudoTimeStepping duration _ _ => duration
  | .transient duration _ => duration

/-- `runNextTimeStep` and `processTimeStep` of the load step solvers. -/
def runNextTimeStep (solver : TimeSolver) (startTime : ℚ) (response : Response) (s : TimeLoop) :
    Attempt × TimeLoop :=
  match solver with
  | .steadyState duration =>
      let step :=
        { s.step with
          currentTime := s.step.currentTime + duration
          timeStep := duration
          internalForceReduction := 1 }
      (⟨step, true, true⟩, ⟨step, s._nTimeStep⟩)
  | .pseudoTimeStepping duration substeps _ =>
      let step :=
        { s.step.advance (startTime + duration) (duration / substeps.toNat) with
          internalForceReduction := (s.step.substep + 1).toNat / substeps.toNat }
      (⟨step, true, true⟩, ⟨step, s._nTimeStep⟩)
  | .transient duration c =>
      c.processTimeStep (startTime + duration) response
        (s.step.advance (startTime + duration) s._nTimeStep)

/-- `step.substep++` -/
def TimeLoop.nextSubstep (s : TimeLoop) : TimeLoop :=
  { s with step := { s.step with substep := s.step.substep + 1 } }

/-- A pass of the loop in `LoadStepSolver::run`. -/
def nextTimeStep (solver : TimeSolver) (startTime : ℚ) (response : Response) (s : TimeLoop) :
    Attempt × TimeLoop :=
  let r := solver.runNextTimeStep startTime response s
  (r.1, TimeLoop.nextSubstep r.2)

/-- `hasNextTimeStep` of a load step that began at `startTime`. -/
def hasNextTimeStep (solver : TimeSolver) (startTime : ℚ) (s : TimeLoop) : Prop :=
  s.step.currentTime + loadStepPrecision < startTime + solver.duration

/-- The state in front of the loop; the constructor has set `_nTimeStep`. -/
def initLoadStep (solver : TimeSolver) (start : TimedStep) : TimeLoop where
  step := { start with substep := 0 }
  _nTimeStep :=
    match solver with
    | .transient _ c => c.time_step
    | _ => 0

/-- **`LoadStepSolver::run`**, with all attempts that it makes. -/
def Runs (solver : TimeSolver) (responses : ℕ → Response) (start : TimedStep)
    (attempts : List Attempt) (finish : TimedStep) : Prop :=
  ∃ nTimeStep,
    Loop.Emits (solver.hasNextTimeStep start.currentTime) (solver.nextTimeStep start.currentTime)
      responses (solver.initLoadStep start) attempts ⟨finish, nTimeStep⟩

end TimeSolver

/-! ## The loop of a transient load step -/

namespace TransientState

variable {D : ℕ} {n : Fin D → ℕ}

def time (finalTime internalForceReduction : ℚ) (s : TransientState n) : TimeLoop :=
  ⟨⟨s.step, finalTime, internalForceReduction⟩, s.solver._nTimeStep⟩

lemma autoTimeStepping_eq {c : AutoTimeSteppingConfiguration} {s : TransientState n} {dt : ℚ}
    (h : s.autoTimeStepping c = some dt) :
    ∃ response, ∀ finalTime reduction,
      c.nTimeStep (s.solver._startTime + s.solver._duration) response
        ⟨s.step, finalTime, reduction⟩ = dt := by
  have hsmall : (DoubleQuotient.rational 0).below (1 / 100000) = true := by decide +kernel
  have hlarge : ¬ (DoubleQuotient.rational 1).below (1 / 100000) = true := by decide +kernel
  simp only [autoTimeStepping] at h
  by_cases hauto : c.allowed ∧ s.step.currentTime < s.solver._startTime + s.solver._duration
  · simp only [if_pos hauto, Option.bind_eq_bind, Option.bind_eq_some_iff] at h
    obtain ⟨norm, -, h⟩ := h
    by_cases hnorm : norm < (1 / 100000) ^ 2
    · rw [if_pos hnorm, Option.some.injEq] at h
      refine ⟨⟨.rational 0, .nan⟩, fun finalTime reduction => ?_⟩
      rw [← h]
      exact (if_pos hauto).trans (if_pos hsmall)
    · rw [if_neg hnorm] at h
      simp only [Option.bind_eq_some_iff] at h
      obtain ⟨resFreq, -, t1, ht1, h⟩ := h
      refine ⟨⟨.rational 1, .rational resFreq⟩, fun finalTime reduction => ?_⟩
      refine (if_pos hauto).trans ((if_neg hlarge).trans ?_)
      rw [DoubleQuotient.divideBy_eq ht1]
      simp only [DoubleQuotient.rational.injEq, DoubleQuotient.above, DoubleQuotient.below,
        decide_eq_true_eq, eq_comm (a := t1)]
      split_ifs at h ⊢ with heq habove hgrow hshrink
      · exact Option.some.inj h
      · exact Option.some.inj h
      · exact Option.some.inj h
      all_goals obtain ⟨q, hq, h⟩ := Option.bind_eq_some_iff.mp h
      · rw [DoubleQuotient.eq_of_divide hq, if_pos hshrink] at h
        exact Option.some.inj h
      · rw [DoubleQuotient.eq_of_divide hq, if_neg hshrink] at h
        exact Option.some.inj h
  · rw [if_neg hauto, Option.some.injEq] at h
    exact ⟨⟨.nan, .nan⟩, fun _ _ => (if_neg hauto).trans h⟩

lemma nextTimeStep_time {c : TransientSolverConfiguration} {solve : TimeStepSolver n}
    {s t : TransientState n} (h : s.nextTimeStep c solve = some t) :
    t.solver._startTime = s.solver._startTime ∧ t.solver._duration = s.solver._duration ∧
      ∃ response, ∀ finalTime reduction,
        ((TimeSolver.transient s.solver._duration c).nextTimeStep s.solver._startTime response
          (s.time finalTime reduction)).2 = t.time finalTime 1 := by
  simp only [nextTimeStep, runNextTimeStep, processTimeStep, Option.bind_eq_bind,
    Option.bind_eq_some_iff, Option.some.injEq] at h
  obtain ⟨t, ⟨_, -, r, hr, dt, hauto, hfinish⟩, rfl⟩ := h
  have hstep := solve.keeps_step _ _ hr
  have hsolver := solve.keeps_solver _ _ hr
  have hstart : r.solver._startTime = s.solver._startTime := by rw [hsolver]; rfl
  have hduration : r.solver._duration = s.solver._duration := by rw [hsolver]; rfl
  obtain ⟨response, hresponse⟩ := autoTimeStepping_eq hauto
  simp only [hstart, hduration, hstep] at hresponse
  rw [finishTimeStep] at hfinish
  split_ifs at hfinish with hacc
  all_goals simp only [Accepted, setNTimeStep, hstep] at hacc
  · simp only [accept, Option.bind_eq_bind, Option.bind_eq_some_iff, Option.some.injEq] at hfinish
    obtain ⟨_, -, _, -, rfl⟩ := hfinish
    refine ⟨hstart, hduration, response, fun finalTime reduction => ?_⟩
    have htime := TransientSolverConfiguration.processTimeStep_accepted
      (s := (s.time finalTime reduction).step.advance
        (s.solver._startTime + s.solver._duration) s.solver._nTimeStep)
      (hresponse finalTime 1) hacc
    simp only [TimeSolver.nextTimeStep, TimeSolver.runNextTimeStep, time] at htime ⊢
    rw [htime]
    simp only [setNTimeStep, hstep]
    rfl
  · rw [Option.some.injEq] at hfinish
    subst hfinish
    refine ⟨hstart, hduration, response, fun finalTime reduction => ?_⟩
    have htime := TransientSolverConfiguration.processTimeStep_rejected
      (s := (s.time finalTime reduction).step.advance
        (s.solver._startTime + s.solver._duration) s.solver._nTimeStep)
      (hresponse finalTime 1) hacc
    simp only [TimeSolver.nextTimeStep, TimeSolver.runNextTimeStep, time] at htime ⊢
    rw [htime]
    simp only [reject, setNTimeStep, hstep]
    rfl

end TransientState

/-! ## What an attempt does to the time -/

/-- **All that an attempt can do** to the time of a load step with the end `finish`, if an accepted
time step has at least the length `δ`. -/
inductive Advances (finish δ : ℚ) (s : TimeLoop) (a : Attempt) (t : TimeLoop) : Prop
  | last : a.accepted = true → a.step.currentTime = finish → t.step.currentTime = finish →
      Advances finish δ s a t
  | accepted : a.accepted = true → a.step.currentTime = t.step.currentTime →
      s.step.currentTime + δ ≤ t.step.currentTime →
      t.step.currentTime + loadStepPrecision < finish → Advances finish δ s a t
  | rejected : a.accepted = false → t.step.currentTime = s.step.currentTime → 0 < t._nTimeStep →
      t._nTimeStep + loadStepPrecision ≤ s._nTimeStep → Advances finish δ s a t

lemma AutoTimeSteppingConfiguration.nTimeStep_cases (c : AutoTimeSteppingConfiguration) (finish : ℚ)
    (response : Response) (step : TimedStep) :
    c.nTimeStep finish response step = step.timeStep ∨
    step.currentTime < finish ∧
      (c.nTimeStep finish response step = min c.max_time_step (c.IDFactor * step.timeStep) ∨
        c.nTimeStep finish response step = max c.min_time_step (step.timeStep / c.IDFactor)) := by
  simp only [nTimeStep]
  split_ifs with hauto
  all_goals first
    | exact Or.inl rfl
    | exact Or.inr ⟨hauto.2, Or.inl rfl⟩
    | exact Or.inr ⟨hauto.2, Or.inr rfl⟩

lemma loadStepPrecision_pos : 0 < loadStepPrecision := by norm_num [loadStepPrecision]

lemma TimedStep.advance_cases (s : TimedStep) (finish dt : ℚ) :
    finish ≤ s.currentTime + dt + loadStepPrecision ∧
      (s.advance finish dt).currentTime = finish ∧
      (s.advance finish dt).timeStep = finish - s.currentTime ∨
    s.currentTime + dt + loadStepPrecision < finish ∧
      (s.advance finish dt).currentTime = s.currentTime + dt ∧
      (s.advance finish dt).timeStep = dt := by
  by_cases hclip : finish ≤ s.currentTime + dt + loadStepPrecision
  · have heq : (s.advance finish dt).currentTime = finish := if_pos hclip
    exact Or.inl ⟨hclip, heq, congrArg (fun t => t - s.currentTime) heq⟩
  · have heq : (s.advance finish dt).currentTime = s.currentTime + dt := if_neg hclip
    refine Or.inr ⟨not_le.mp hclip, heq, ?_⟩
    exact (congrArg (fun t => t - s.currentTime) heq).trans (add_sub_cancel_left _ _)

namespace TransientSolverConfiguration

/-- The settings of the automatic time stepping. -/
structure Admissible (c : TransientSolverConfiguration) : Prop where
  time_step : 1 / 10000000 < c.time_step
  min_time_step : 1 / 10000000 < c.auto_time_stepping.min_time_step
  max_time_step : c.auto_time_stepping.min_time_step ≤ c.auto_time_stepping.max_time_step
  IDFactor : 1 < c.auto_time_stepping.IDFactor

def shortest (c : TransientSolverConfiguration) : ℚ :=
  min c.time_step c.auto_time_stepping.min_time_step

def longest (c : TransientSolverConfiguration) : ℚ :=
  max c.time_step c.auto_time_stepping.max_time_step

lemma Admissible.shortest_pos {c : TransientSolverConfiguration} (h : c.Admissible) :
    0 < c.shortest :=
  lt_min (lt_trans (by norm_num) h.time_step) (lt_trans (by norm_num) h.min_time_step)

lemma Admissible.nTimeStep_bounds {c : TransientSolverConfiguration} (h : c.Admissible) (finish : ℚ)
    (response : Response) {step : TimedStep} (hlow : c.shortest ≤ step.timeStep)
    (hhigh : step.timeStep ≤ c.longest) :
    c.shortest ≤ c.auto_time_stepping.nTimeStep finish response step ∧
      c.auto_time_stepping.nTimeStep finish response step ≤ c.longest := by
  have hpos : 0 < step.timeStep := h.shortest_pos.trans_le hlow
  have hmin : c.shortest ≤ c.auto_time_stepping.min_time_step := min_le_right _ _
  have hmax : c.auto_time_stepping.max_time_step ≤ c.longest := le_max_right _ _
  rcases c.auto_time_stepping.nTimeStep_cases finish response step with heq | ⟨-, heq | heq⟩
  · rw [heq]
    exact ⟨hlow, hhigh⟩
  · rw [heq]
    have hgrow : step.timeStep ≤ c.auto_time_stepping.IDFactor * step.timeStep :=
      le_mul_of_one_le_left hpos.le h.IDFactor.le
    exact ⟨le_min (hmin.trans h.max_time_step) (hlow.trans hgrow), (min_le_left _ _).trans hmax⟩
  · rw [heq]
    have hshrink : step.timeStep / c.auto_time_stepping.IDFactor ≤ step.timeStep :=
      div_le_self hpos.le h.IDFactor.le
    exact ⟨hmin.trans (le_max_left _ _),
      max_le (h.max_time_step.trans hmax) (hshrink.trans hhigh)⟩

end TransientSolverConfiguration

namespace TimeSolver

/-- The settings of a load step for which it is expected to end. -/
def Admissible : TimeSolver → Prop
  | .steadyState duration => loadStepPrecision < duration
  | .pseudoTimeStepping duration substeps _ => loadStepPrecision < duration / substeps.toNat
  | .transient duration c => loadStepPrecision < duration ∧ c.Admissible

def shortest : TimeSolver → ℚ
  | .steadyState duration => duration
  | .pseudoTimeStepping duration substeps _ => duration / substeps.toNat
  | .transient _ c => c.shortest

/-- No `_nTimeStep` is longer, the last one apart. -/
def longest : TimeSolver → ℚ
  | .transient _ c => c.longest
  | _ => 0

/-- **What holds in front of an attempt.** `_nTimeStep` is between its bounds, where only a
transient load step has one; a steady state load step makes one attempt. -/
def InRange (solver : TimeSolver) (startTime : ℚ) (s : TimeLoop) : Prop :=
  match solver with
  | .steadyState _ => s._nTimeStep = 0 ∧ s.step.currentTime = startTime
  | .pseudoTimeStepping _ _ _ => s._nTimeStep = 0
  | .transient _ c => c.shortest ≤ s._nTimeStep ∧ s._nTimeStep ≤ c.longest

lemma transient_advances {duration startTime : ℚ} {c : TransientSolverConfiguration}
    (h : c.Admissible) (response : Response) {s : TimeLoop}
    (hrange : (transient duration c).InRange startTime s) :
    Advances (startTime + duration) c.shortest s
        ((transient duration c).nextTimeStep startTime response s).1
        ((transient duration c).nextTimeStep startTime response s).2 ∧
      ((transient duration c).hasNextTimeStep startTime
          ((transient duration c).nextTimeStep startTime response s).2 →
        (transient duration c).InRange startTime
          ((transient duration c).nextTimeStep startTime response s).2) := by
  simp only [nextTimeStep, runNextTimeStep]
  set finish := startTime + duration with hfinish
  set step := s.step.advance finish s._nTimeStep with hstep
  rcases s.step.advance_cases finish s._nTimeStep with ⟨-, htime, -⟩ | ⟨hlt, htime, hlength⟩
  · -- the last attempt is accepted: there is no automatic time stepping at the end
    rw [← hstep] at htime
    rcases c.auto_time_stepping.nTimeStep_cases finish response
        { step with internalForceReduction := 1 } with hdt | ⟨hcontra, -⟩
    · rw [TransientSolverConfiguration.processTimeStep_accepted hdt
        (sub_lt_self _ loadStepPrecision_pos)]
      refine ⟨.last rfl htime htime, fun hnext => absurd hnext ?_⟩
      simp only [hasNextTimeStep, TimeLoop.nextSubstep, htime, not_lt]
      exact (lt_add_of_pos_right _ loadStepPrecision_pos).le
    · exact absurd hcontra (by simp only [htime, lt_irrefl, not_false_iff])
  · rw [← hstep] at htime hlength
    have hstep_low : c.shortest ≤
        ({ step with internalForceReduction := 1 } : TimedStep).timeStep :=
      hrange.1.trans_eq hlength.symm
    obtain ⟨hlow, hhigh⟩ :=
      h.nTimeStep_bounds finish response hstep_low (hlength.trans_le hrange.2)
    by_cases hacc : step.timeStep - loadStepPrecision <
      c.auto_time_stepping.nTimeStep finish response { step with internalForceReduction := 1 }
    · rw [TransientSolverConfiguration.processTimeStep_accepted rfl hacc]
      refine ⟨.accepted rfl rfl ?_ ?_, fun _ => ⟨hlow, hhigh⟩⟩
      · simp only [TimeLoop.nextSubstep, htime]
        exact add_le_add_right hrange.1 _
      · simpa only [TimeLoop.nextSubstep, htime] using hlt
    · rw [TransientSolverConfiguration.processTimeStep_rejected rfl hacc]
      refine ⟨.rejected rfl ?_ (h.shortest_pos.trans_le hlow) ?_, fun _ => ⟨hlow, hhigh⟩⟩
      · simp only [TimeLoop.nextSubstep, htime, hlength, add_sub_cancel_right]
      · rw [not_lt, hlength] at hacc
        exact add_le_of_le_sub_right hacc

lemma nextTimeStep_advances {solver : TimeSolver} (h : solver.Admissible) {startTime : ℚ}
    (response : Response) {s : TimeLoop} (hrange : solver.InRange startTime s) :
    Advances (startTime + solver.duration) solver.shortest s
        (solver.nextTimeStep startTime response s).1 (solver.nextTimeStep startTime response s).2 ∧
      (solver.hasNextTimeStep startTime (solver.nextTimeStep startTime response s).2 →
        solver.InRange startTime (solver.nextTimeStep startTime response s).2) := by
  cases solver with
  | steadyState duration =>
      have htime : s.step.currentTime + duration = startTime + duration :=
        congrArg (fun t => t + duration) hrange.2
      refine ⟨.last rfl htime htime, fun hnext => absurd hnext ?_⟩
      exact not_lt.mpr ((lt_add_of_pos_right _ loadStepPrecision_pos).le.trans'
        htime.ge)
  | pseudoTimeStepping duration substeps nonzero =>
      refine ⟨?_, fun _ => hrange⟩
      rcases s.step.advance_cases (startTime + duration) (duration / substeps.toNat) with
        ⟨-, htime, -⟩ | ⟨hlt, htime, -⟩
      · exact .last rfl htime htime
      · refine .accepted rfl rfl htime.ge ?_
        rw [← htime] at hlt
        exact hlt
  | transient duration c => exact transient_advances h.2 response hrange

/-! ## The run of a load step -/

/-- **The invariant of the loop**: the time is the end, or there is a next attempt. -/
def Underway (solver : TimeSolver) (startTime : ℚ) (s : TimeLoop) : Prop :=
  s.step.currentTime = startTime + solver.duration ∨
    solver.hasNextTimeStep startTime s ∧ solver.InRange startTime s

lemma Underway.inRange {solver : TimeSolver} {startTime : ℚ} {s : TimeLoop}
    (hs : solver.Underway startTime s) (hnext : solver.hasNextTimeStep startTime s) :
    solver.InRange startTime s := by
  rcases hs with htime | ⟨-, hrange⟩
  · rw [hasNextTimeStep, htime] at hnext
    exact absurd hnext (lt_add_of_pos_right _ loadStepPrecision_pos).not_gt
  · exact hrange

lemma Underway.nextTimeStep {solver : TimeSolver} (h : solver.Admissible) {startTime : ℚ}
    (response : Response) {s : TimeLoop} (hs : solver.Underway startTime s)
    (hnext : solver.hasNextTimeStep startTime s) :
    solver.Underway startTime (solver.nextTimeStep startTime response s).2 := by
  obtain ⟨hadvances, hrange⟩ := nextTimeStep_advances h response (hs.inRange hnext)
  cases hadvances with
  | last _ _ htime => exact Or.inl htime
  | accepted _ _ _ hlt => exact Or.inr ⟨hlt, hrange hlt⟩
  | rejected _ htime _ _ =>
      have hagain :
          solver.hasNextTimeStep startTime (solver.nextTimeStep startTime response s).2 := by
        rw [hasNextTimeStep, htime]
        exact hnext
      exact Or.inr ⟨hagain, hrange hagain⟩

lemma Admissible.shortest_pos {solver : TimeSolver} (h : solver.Admissible) :
    0 < solver.shortest := by
  cases solver with
  | steadyState duration => exact loadStepPrecision_pos.trans h
  | pseudoTimeStepping duration substeps nonzero => exact loadStepPrecision_pos.trans h
  | transient duration c => exact h.2.shortest_pos

lemma Admissible.duration {solver : TimeSolver} (h : solver.Admissible) :
    loadStepPrecision < solver.duration := by
  cases solver with
  | steadyState duration => exact h
  | pseudoTimeStepping duration substeps nonzero =>
      have hone : (1 : ℚ) ≤ substeps.toNat :=
        Nat.one_le_cast.mpr (Nat.pos_of_ne_zero fun hzero =>
          nonzero (UInt64.toNat_inj.mp hzero))
      have hduration : duration / substeps.toNat * substeps.toNat = duration :=
        div_mul_cancel₀ _ (by linarith)
      have hlt : loadStepPrecision < duration / substeps.toNat := h
      have hpos := loadStepPrecision_pos
      simp only [TimeSolver.duration]
      nlinarith
  | transient duration c => exact h.1

lemma Admissible.underway_initLoadStep {solver : TimeSolver} (h : solver.Admissible)
    (start : TimedStep) :
    solver.Underway start.currentTime (solver.initLoadStep start) := by
  refine Or.inr ⟨add_lt_add_right h.duration _, ?_⟩
  cases solver with
  | steadyState duration => exact ⟨rfl, rfl⟩
  | pseudoTimeStepping duration substeps nonzero => rfl
  | transient duration c => exact ⟨min_le_left _ _, le_max_left _ _⟩

/-- The time steps that are left, and the rejections that are left in front of the next one. -/
def measure (solver : TimeSolver) (startTime : ℚ) (s : TimeLoop) : ℕ × ℕ :=
  (⌈(startTime + solver.duration - s.step.currentTime) / solver.shortest⌉₊,
    ⌈s._nTimeStep / loadStepPrecision⌉₊)

lemma ceil_lt_ceil {a b c : ℚ} (hc : 0 < c) (hb : 0 < b) (h : a + c ≤ b) :
    ⌈a / c⌉₊ < ⌈b / c⌉₊ := by
  have hle : a / c + 1 ≤ b / c := by
    rw [div_add_one hc.ne']
    exact div_le_div_of_nonneg_right h hc.le
  rcases lt_or_ge 0 a with ha | ha
  · have hadd : ⌈a / c + 1⌉₊ = ⌈a / c⌉₊ + 1 := Nat.ceil_add_one (div_pos ha hc).le
    have hmono := Nat.ceil_mono hle
    omega
  · rw [Nat.ceil_eq_zero.mpr (div_nonpos_of_nonpos_of_nonneg ha hc.le)]
    exact Nat.ceil_pos.mpr (div_pos hb hc)

lemma measure_lt {solver : TimeSolver} (h : solver.Admissible) {startTime : ℚ}
    (response : Response) {s : TimeLoop} (hs : solver.Underway startTime s)
    (hnext : solver.hasNextTimeStep startTime s) :
    Prod.Lex (· < ·) (· < ·)
      (solver.measure startTime (solver.nextTimeStep startTime response s).2)
      (solver.measure startTime s) := by
  have hpos := loadStepPrecision_pos
  have hremaining : 0 < startTime + solver.duration - s.step.currentTime := by
    simp only [hasNextTimeStep] at hnext
    linarith
  obtain ⟨hadvances, -⟩ := nextTimeStep_advances h response (hs.inRange hnext)
  cases hadvances with
  | last _ _ htime =>
      refine .left _ _ ?_
      rw [htime, sub_self, zero_div, Nat.ceil_zero]
      exact Nat.ceil_pos.mpr (div_pos hremaining h.shortest_pos)
  | accepted _ _ htime _ =>
      exact .left _ _ (ceil_lt_ceil h.shortest_pos hremaining (by linarith))
  | rejected _ htime hlow hlength =>
      simp only [measure, htime]
      exact .right _ (ceil_lt_ceil hpos (by linarith) hlength)

def acceptedTimes (attempts : List Attempt) : List ℚ :=
  (attempts.filter (·.accepted)).map (·.step.currentTime)

lemma acceptedTimes_cons_of_accepted {a : Attempt} (h : a.accepted = true)
    (attempts : List Attempt) :
    acceptedTimes (a :: attempts) = a.step.currentTime :: acceptedTimes attempts := by
  rw [acceptedTimes, List.filter_cons_of_pos h, List.map_cons, acceptedTimes]

lemma acceptedTimes_cons_of_rejected {a : Attempt} (h : a.accepted = false)
    (attempts : List Attempt) : acceptedTimes (a :: attempts) = acceptedTimes attempts := by
  rw [acceptedTimes, List.filter_cons_of_neg (by simp [h]), acceptedTimes]

lemma Underway.increasing {solver : TimeSolver} (h : solver.Admissible) {startTime : ℚ}
    {responses : ℕ → Response} {s t : TimeLoop} {attempts : List Attempt}
    (hs : solver.Underway startTime s)
    (hrun : Loop.Emits (solver.hasNextTimeStep startTime) (solver.nextTimeStep startTime)
      responses s attempts t) :
    (s.step.currentTime :: acceptedTimes attempts).IsChain (· < ·) := by
  have hpos := loadStepPrecision_pos
  induction hrun with
  | done _ => exact List.isChain_singleton _
  | @next responses s t attempts hnext _ ih =>
      have hchain := ih (hs.nextTimeStep h _ hnext)
      obtain ⟨hadvances, -⟩ := nextTimeStep_advances h (responses 0) (hs.inRange hnext)
      simp only [hasNextTimeStep] at hnext
      cases hadvances with
      | last hacc hattempt htime =>
          rw [acceptedTimes_cons_of_accepted hacc, hattempt, ← htime, List.isChain_cons_cons]
          exact ⟨by linarith, hchain⟩
      | accepted hacc hattempt htime _ =>
          have hδ := h.shortest_pos
          rw [acceptedTimes_cons_of_accepted hacc, hattempt, List.isChain_cons_cons]
          exact ⟨by linarith, hchain⟩
      | rejected hacc htime _ _ =>
          rw [acceptedTimes_cons_of_rejected hacc, ← htime]
          exact hchain

lemma Underway.rejected_prefix {solver : TimeSolver} (h : solver.Admissible) {startTime : ℚ}
    {responses : ℕ → Response} {s t : TimeLoop} {attempts : List Attempt}
    (hs : solver.Underway startTime s) (hnonneg : 0 ≤ s._nTimeStep)
    (hrun : Loop.Emits (solver.hasNextTimeStep startTime) (solver.nextTimeStep startTime)
      responses s attempts t) :
    ∀ l, l <+: attempts → (∀ a ∈ l, a.accepted = false) →
      l.length * loadStepPrecision ≤ s._nTimeStep := by
  induction hrun with
  | done _ =>
      intro l hl _
      rw [List.prefix_nil.mp hl, List.length_nil, Nat.cast_zero, zero_mul]
      exact hnonneg
  | @next responses s t attempts hnext _ ih =>
      rintro (_ | ⟨a, l⟩) hl hrejected
      · rw [List.length_nil, Nat.cast_zero, zero_mul]
        exact hnonneg
      · obtain ⟨rfl, htail⟩ := List.cons_prefix_cons.mp hl
        obtain ⟨hfirst, hrejected⟩ := List.forall_mem_cons.mp hrejected
        obtain ⟨hadvances, -⟩ := nextTimeStep_advances h (responses 0) (hs.inRange hnext)
        cases hadvances with
        | last hacc _ _ => exact absurd hacc (by simp only [hfirst, reduceCtorEq, not_false_iff])
        | accepted hacc _ _ _ =>
            exact absurd hacc (by simp only [hfirst, reduceCtorEq, not_false_iff])
        | rejected _ _ hlow hlength =>
            have hrest := ih (hs.nextTimeStep h _ hnext) hlow.le l htail hrejected
            rw [List.length_cons, Nat.cast_succ, add_mul, one_mul]
            linarith

lemma Admissible.bounds {solver : TimeSolver} (h : solver.Admissible) {startTime : ℚ}
    {s : TimeLoop} (hrange : solver.InRange startTime s) :
    0 ≤ s._nTimeStep ∧ s._nTimeStep ≤ solver.longest := by
  cases solver with
  | steadyState duration => exact ⟨hrange.1.ge, hrange.1.le⟩
  | pseudoTimeStepping duration substeps nonzero => exact ⟨hrange.ge, hrange.le⟩
  | transient duration c => exact ⟨h.2.shortest_pos.le.trans hrange.1, hrange.2⟩

lemma Admissible.longest_nonneg {solver : TimeSolver} (h : solver.Admissible) :
    0 ≤ solver.longest := by
  cases solver with
  | steadyState duration => exact le_rfl
  | pseudoTimeStepping duration substeps nonzero => exact le_rfl
  | transient duration c =>
      have htime : 1 / 10000000 < c.time_step := h.2.time_step
      exact (by linarith : 0 ≤ c.time_step).trans (le_max_left _ _)

lemma Underway.rejected_infix {solver : TimeSolver} (h : solver.Admissible) {startTime : ℚ}
    {responses : ℕ → Response} {s t : TimeLoop} {attempts : List Attempt}
    (hs : solver.Underway startTime s)
    (hrun : Loop.Emits (solver.hasNextTimeStep startTime) (solver.nextTimeStep startTime)
      responses s attempts t) :
    ∀ l, l <:+: attempts → (∀ a ∈ l, a.accepted = false) →
      l.length * loadStepPrecision ≤ solver.longest := by
  induction hrun with
  | done _ =>
      intro l hl _
      rw [List.infix_nil.mp hl, List.length_nil, Nat.cast_zero, zero_mul]
      exact h.longest_nonneg
  | @next responses s t attempts hnext hrest ih =>
      intro l hl hrejected
      rcases List.infix_cons_iff.mp hl with hprefix | hinfix
      · obtain ⟨hlow, hhigh⟩ := h.bounds (hs.inRange hnext)
        exact (hs.rejected_prefix h hlow (.next hnext hrest) l hprefix hrejected).trans hhigh
      · exact ih (hs.nextTimeStep h _ hnext) l hinfix hrejected

/-! ### The substeps of a nonlinear steady state -/

/-- The state in front of substep `k`. -/
structure AtSubstep (duration : ℚ) (substeps : UInt64) (startTime : ℚ) (k : ℕ) (s : TimeLoop) :
    Prop where
  le : k ≤ substeps.toNat
  substep : s.step.substep.toNat = k
  currentTime : s.step.currentTime = startTime + k * (duration / substeps.toNat)

lemma length_mul_substeps (duration : ℚ) {substeps : UInt64} (nonzero : substeps ≠ 0) :
    substeps.toNat * (duration / substeps.toNat) = duration := by
  have hne : (substeps.toNat : ℚ) ≠ 0 :=
    Nat.cast_ne_zero.mpr fun hzero => nonzero (UInt64.toNat_inj.mp hzero)
  rw [mul_div_assoc', mul_div_cancel_left₀ _ hne]

lemma AtSubstep.lt_of_hasNextTimeStep {duration : ℚ} {substeps : UInt64}
    {nonzero : substeps ≠ 0} {startTime : ℚ} {k : ℕ} {s : TimeLoop}
    (hs : AtSubstep duration substeps startTime k s)
    (hnext : (pseudoTimeStepping duration substeps nonzero).hasNextTimeStep startTime s) :
    k < substeps.toNat := by
  refine lt_of_le_of_ne hs.le fun heq => ?_
  have hpos := loadStepPrecision_pos
  rw [hasNextTimeStep, hs.currentTime, heq, length_mul_substeps duration nonzero] at hnext
  simp only [TimeSolver.duration] at hnext
  linarith

lemma AtSubstep.eq_of_not_hasNextTimeStep {duration : ℚ} {substeps : UInt64}
    {nonzero : substeps ≠ 0} (h : (pseudoTimeStepping duration substeps nonzero).Admissible)
    {startTime : ℚ} {k : ℕ} {s : TimeLoop} (hs : AtSubstep duration substeps startTime k s)
    (hend : ¬ (pseudoTimeStepping duration substeps nonzero).hasNextTimeStep startTime s) :
    k = substeps.toNat := by
  have hlength : loadStepPrecision < duration / substeps.toNat := h
  have hpos := loadStepPrecision_pos
  by_contra hne
  have hlt : ((k + 1 : ℕ) : ℚ) ≤ substeps.toNat := Nat.cast_le.mpr (by have := hs.le; omega)
  have hmul := mul_le_mul_of_nonneg_right hlt (hpos.trans hlength).le
  rw [length_mul_substeps duration nonzero, Nat.cast_succ, add_mul, one_mul] at hmul
  simp only [hasNextTimeStep, hs.currentTime, TimeSolver.duration] at hend
  linarith

lemma AtSubstep.next {duration : ℚ} {substeps : UInt64} {nonzero : substeps ≠ 0}
    (h : (pseudoTimeStepping duration substeps nonzero).Admissible) {startTime : ℚ} {k : ℕ}
    {s : TimeLoop} (hs : AtSubstep duration substeps startTime k s) (hk : k < substeps.toNat)
    (response : Response) :
    ((pseudoTimeStepping duration substeps nonzero).nextTimeStep startTime response
        s).1.step.internalForceReduction = ((k + 1 : ℕ) : ℚ) / substeps.toNat ∧
      AtSubstep duration substeps startTime (k + 1)
        ((pseudoTimeStepping duration substeps nonzero).nextTimeStep startTime response s).2 := by
  have hlength : loadStepPrecision < duration / substeps.toNat := h
  have hpos := loadStepPrecision_pos
  have hsubstep : (s.step.substep + 1).toNat = k + 1 := by
    have hsize := substeps.toNat_lt
    have hone : (1 : UInt64).toNat = 1 := rfl
    rw [UInt64.toNat_add, hs.substep, hone]
    exact Nat.mod_eq_of_lt (by omega)
  refine ⟨congrArg (fun i : ℕ => (i : ℚ) / substeps.toNat) hsubstep, hk, hsubstep, ?_⟩
  rcases s.step.advance_cases (startTime + duration) (duration / substeps.toNat) with
    ⟨hclip, htime, -⟩ | ⟨-, htime, -⟩
  · -- only the last substep is clipped
    have hlast : k + 1 = substeps.toNat := by
      by_contra hne
      have hlt : ((k + 2 : ℕ) : ℚ) ≤ substeps.toNat := Nat.cast_le.mpr (by omega)
      have hmul := mul_le_mul_of_nonneg_right hlt (hpos.trans hlength).le
      rw [length_mul_substeps duration nonzero, Nat.cast_add, Nat.cast_ofNat, add_mul] at hmul
      rw [hs.currentTime] at hclip
      linarith
    rw [hlast, length_mul_substeps duration nonzero]
    exact htime
  · refine htime.trans ?_
    rw [hs.currentTime, Nat.cast_succ, add_mul, one_mul, add_assoc]

lemma AtSubstep.internalForceReduction {duration : ℚ} {substeps : UInt64} {nonzero : substeps ≠ 0}
    (h : (pseudoTimeStepping duration substeps nonzero).Admissible) {startTime : ℚ}
    {responses : ℕ → Response} {s t : TimeLoop} {attempts : List Attempt}
    (hrun : Loop.Emits ((pseudoTimeStepping duration substeps nonzero).hasNextTimeStep startTime)
      ((pseudoTimeStepping duration substeps nonzero).nextTimeStep startTime)
      responses s attempts t) :
    ∀ k, AtSubstep duration substeps startTime k s →
      attempts.map (·.step.internalForceReduction) =
        (List.range' k (substeps.toNat - k)).map fun i => ((i + 1 : ℕ) : ℚ) / substeps.toNat := by
  induction hrun with
  | done hend =>
      intro k hs
      rw [hs.eq_of_not_hasNextTimeStep h hend, Nat.sub_self, List.range'_zero, List.map_nil,
        List.map_nil]
  | @next responses s t attempts hnext hrest ih =>
      intro k hs
      have hk := hs.lt_of_hasNextTimeStep hnext
      obtain ⟨hfirst, hs⟩ := hs.next h hk (responses 0)
      have hrange : substeps.toNat - k = substeps.toNat - (k + 1) + 1 := by omega
      rw [List.map_cons, ih (k + 1) hs, hfirst, hrange, List.range'_succ, List.map_cons]

lemma Runs.currentTime_eq {solver : TimeSolver} (h : solver.Admissible) {responses : ℕ → Response}
    {start finish : TimedStep} {attempts : List Attempt}
    (hrun : solver.Runs responses start attempts finish) :
    finish.currentTime = start.currentTime + solver.duration := by
  obtain ⟨nTimeStep, hrun⟩ := hrun
  obtain ⟨hfinish, hend⟩ := hrun.invariant (solver.Underway start.currentTime)
    (fun response s hs hnext => hs.nextTimeStep h response hnext)
    (h.underway_initLoadStep start)
  exact hfinish.resolve_right fun hnext => hend hnext.1

lemma Runs.increasing {solver : TimeSolver} (h : solver.Admissible) {responses : ℕ → Response}
    {start finish : TimedStep} {attempts : List Attempt}
    (hrun : solver.Runs responses start attempts finish) :
    (start.currentTime :: acceptedTimes attempts).Pairwise (· < ·) := by
  obtain ⟨nTimeStep, hrun⟩ := hrun
  exact List.isChain_iff_pairwise.mp ((h.underway_initLoadStep start).increasing h hrun)

end TimeSolver

/-! ## Every load step ends -/

/-- **What is expected of a load step**: it ends at its end, its time increases, there are finitely
many rejections between two accepted time steps, and a nonlinear steady state makes `substeps` steps
with a growing part of the internal forces. -/
structure TimeSolver.Ends (solver : TimeSolver) (start : TimedStep) (attempts : List Attempt)
    (finish : TimedStep) : Prop where
  currentTime : finish.currentTime = start.currentTime + solver.duration
  increasing : (TimeSolver.acceptedTimes attempts).Pairwise (· < ·)
  rejected : ∀ l, l <:+: attempts → (∀ a ∈ l, a.accepted = false) →
    l.length * loadStepPrecision ≤ solver.longest
  substeps : ∀ duration substeps nonzero,
    solver = .pseudoTimeStepping duration substeps nonzero →
    attempts.map (·.step.internalForceReduction) =
      (List.range substeps.toNat).map fun i => ((i + 1 : ℕ) : ℚ) / substeps.toNat

/-- **The run of a load step** terminates, whatever the solver of the time steps answers, and it is
as expected. -/
theorem TimeSolver.run_ends {solver : TimeSolver} (h : solver.Admissible)
    (responses : ℕ → Response) (start : TimedStep) :
    (∃ attempts finish, solver.Runs responses start attempts finish) ∧
      ∀ attempts finish, solver.Runs responses start attempts finish →
        solver.Ends start attempts finish := by
  have hinit := h.underway_initLoadStep start
  refine ⟨?_, ?_⟩
  · obtain ⟨attempts, t, hrun⟩ :=
      Loop.exists_emits (WellFounded.prod_lex Nat.lt_wfRel.wf Nat.lt_wfRel.wf)
        (solver.measure start.currentTime) (solver.Underway start.currentTime)
        (fun response s hs hnext => hs.nextTimeStep h response hnext)
        (fun response s hs hnext => measure_lt h response hs hnext) responses hinit
    exact ⟨attempts, t.step, t._nTimeStep, hrun⟩
  · intro attempts finish hruns
    obtain ⟨nTimeStep, hrun⟩ := id hruns
    refine ⟨hruns.currentTime_eq h, (hruns.increasing h).tail, hinit.rejected_infix h hrun, ?_⟩
    rintro duration substeps nonzero rfl
    have hzero : AtSubstep duration substeps start.currentTime 0
        ((pseudoTimeStepping duration substeps nonzero).initLoadStep start) :=
      ⟨Nat.zero_le _, rfl, by rw [Nat.cast_zero, zero_mul, add_zero]; rfl⟩
    rw [AtSubstep.internalForceReduction h hrun 0 hzero, Nat.sub_zero, List.range_eq_range']

/-- A load step whose time step grows and shrinks by a factor of two. -/
def doubledTimeStep : TransientSolverConfiguration where
  method := .BackwardDiff
  alpha := 1
  time_step := 1 / 10
  auto_time_stepping := ⟨true, 1 / 100, 1, 1 / 10, 2⟩

lemma doubledTimeStep_admissible : (TimeSolver.transient 1 doubledTimeStep).Admissible := by
  refine ⟨by norm_num [loadStepPrecision], ?_, ?_, ?_, ?_⟩
  all_goals norm_num [doubledTimeStep]

theorem TimeSolver.run_ends_doubled :
    ∃ attempts finish,
      (transient 1 doubledTimeStep).Runs (fun k => ⟨.rational 1, .rational k⟩) .initial attempts
        finish ∧
      (transient 1 doubledTimeStep).Ends .initial attempts finish := by
  obtain ⟨⟨attempts, finish, hrun⟩, hends⟩ :=
    run_ends doubledTimeStep_admissible (fun k => ⟨.rational 1, .rational k⟩) .initial
  exact ⟨attempts, finish, hrun, hends attempts finish hrun⟩

/-! ## Every transient load step with its solver ends -/

namespace TransientState

variable {D : ℕ} {n : Fin D → ℕ}

/-- **The loop of a transient load step** ends at the end of the load step, whatever solves its time
steps: a loop that stops is there, and no loop goes on forever. -/
theorem loop_ends {c : TransientSolverConfiguration} {s : TransientState n}
    (h : (TimeSolver.transient s.solver._duration c).Admissible)
    (htime : s.step.currentTime = s.solver._startTime) (hlength : s.solver._nTimeStep = c.time_step)
    (solve : TimeStepSolver n) :
    (∀ t, Loop.Runs hasNextTimeStep (nextTimeStep c solve) s t →
        t.step.currentTime = s.solver._startTime + s.solver._duration) ∧
      ¬∃ states : ℕ → TransientState n, states 0 = s ∧ ∀ k, (states k).hasNextTimeStep ∧
        (states k).nextTimeStep c solve = some (states (k + 1)) := by
  let solver := TimeSolver.transient s.solver._duration c
  let I (t : TransientState n) : Prop := t.solver._startTime = s.solver._startTime ∧
    t.solver._duration = s.solver._duration ∧ solver.Underway s.solver._startTime (t.time 0 1)
  have hinit : I s := by
    have hunderway := h.underway_initLoadStep (s.time 0 1).step
    rw [show (s.time 0 1).step.currentTime = s.solver._startTime from htime] at hunderway
    refine ⟨rfl, rfl, ?_⟩
    rw [time, hlength]
    exact hunderway
  have hstep : ∀ t u, I t → t.hasNextTimeStep → t.nextTimeStep c solve = some u →
      I u ∧ Prod.Lex (· < ·) (· < ·) (solver.measure s.solver._startTime (u.time 0 1))
        (solver.measure s.solver._startTime (t.time 0 1)) := by
    rintro t u ⟨hstart, hduration, hunderway⟩ hnext hu
    obtain ⟨hstart', hduration', response, hresponse⟩ := nextTimeStep_time hu
    rw [hasNextTimeStep, hstart, hduration] at hnext
    have hkept := hunderway.nextTimeStep h response hnext
    have hless := TimeSolver.measure_lt h response hunderway hnext
    have htimes := hresponse 0 1
    rw [hstart, hduration] at htimes
    rw [htimes] at hkept hless
    exact ⟨⟨hstart'.trans hstart, hduration'.trans hduration, hkept⟩, hless⟩
  refine ⟨fun t ht => ?_, Loop.not_infinite (WellFounded.prod_lex Nat.lt_wfRel.wf Nat.lt_wfRel.wf)
    (fun t => solver.measure s.solver._startTime (t.time 0 1)) I hstep hinit⟩
  obtain ⟨⟨hstart, hduration, hunderway⟩, hend⟩ :=
    ht.invariant I (fun t u hI hnext hu => (hstep t u hI hnext hu).1) hinit
  rw [hasNextTimeStep, hstart, hduration] at hend
  exact hunderway.resolve_right fun hnext => hend hnext.1

def doubledState : TransientState (fun _ : Fin 1 => 1) where
  inst := ⟨0, 0, 0, 0, 1⟩
  step := ⟨0, 0, 0, 0⟩
  solver := ⟨0, 1, 1, 1 / 10, 1, 0, 0, 0, 0⟩

theorem loop_ends_doubled :
    (∀ t, Loop.Runs hasNextTimeStep
        (nextTimeStep doubledTimeStep (linearTimeStep oneUnknownProblem oneUnknownSolver))
        doubledState t → t.step.currentTime = 0 + 1) ∧
      ¬∃ states : ℕ → TransientState _, states 0 = doubledState ∧ ∀ k, (states k).hasNextTimeStep ∧
        (states k).nextTimeStep doubledTimeStep (linearTimeStep oneUnknownProblem oneUnknownSolver)
          = some (states (k + 1)) :=
  loop_ends (s := doubledState) doubledTimeStep_admissible rfl rfl _

end TransientState

end Espreso.LoadStep
