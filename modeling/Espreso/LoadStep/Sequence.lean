import Espreso.Lib.Fallible
import Espreso.Lib.Loop
import Espreso.LoadStep.TransientScheme

/-!
# Sequences of load steps

`Factory` constructs the solvers of all load steps and runs them in order.

* `LoadStepSettings.getLoadStepSolver` — `HeatTransferFactory::getLoadStepSolver`; each transient
  solver owns its `U` and `V`.
* **`continues_iff`** — a transient load step continues the transient one before it if and only if
  that one ends with `V = 0`; the other starts are always as expected.
-/

namespace Espreso.LoadStep

variable {D : ℕ} {n : Fin D → ℕ}

/-! ## Load step solvers -/

/-- `LoadStepConfiguration::TYPE` -/
inductive LoadStepType where
  | SteadyState
  | Transient

/-- `LoadStepConfiguration::MODE` -/
inductive LoadStepMode where
  | Linear
  | Nonlinear

/-- What the solver of one time step does to the instance in a load step without time derivatives. -/
abbrev InstanceSolver {D : ℕ} (n : Fin D → ℕ) :=
  Instance.Transient n → Step → Option (Instance.Transient n)

/-- The settings of a load step, with the solvers of its time steps. -/
structure LoadStepSettings {D : ℕ} (n : Fin D → ℕ) where
  type : LoadStepType
  mode : LoadStepMode
  duration_time : ℚ
  substeps : ℕ
  transient_solver : TransientSolverConfiguration
  instanceSolver : InstanceSolver n
  timeStepSolver : TimeStepSolver n

/-- The load step solvers: `SteadyStateSolver`, `PseudoTimeStepping` and
`TransientFirstOrderImplicit`. -/
inductive LoadStepSolver {D : ℕ} (n : Fin D → ℕ) where
  | steadyState (duration : ℚ) (solve : InstanceSolver n)
  | pseudoTimeStepping (duration : ℚ) (substeps : ℕ) (solve : InstanceSolver n)
  | transient (configuration : TransientSolverConfiguration) (solve : TimeStepSolver n)
      (members : TransientFirstOrderImplicit n)

/-- The members that the constructor of `TransientFirstOrderImplicit` sets up: `appendData` gives
zero vectors. -/
def TransientFirstOrderImplicit.construct (c : TransientSolverConfiguration) (duration : ℚ) :
    TransientFirstOrderImplicit n where
  _startTime := 0
  _duration := duration
  _alpha := 0
  _nTimeStep := c.time_step
  U := 0
  dU := 0
  V := 0
  X := 0
  Y := 0

/-- `HeatTransferFactory::getLoadStepSolver` -/
def LoadStepSettings.getLoadStepSolver (settings : LoadStepSettings n) :
    Option (LoadStepSolver n) :=
  match settings.type, settings.mode with
  | .SteadyState, .Nonlinear =>
      some (.pseudoTimeStepping settings.duration_time settings.substeps settings.instanceSolver)
  | .SteadyState, .Linear => some (.steadyState settings.duration_time settings.instanceSolver)
  | .Transient, _ =>
      if settings.transient_solver.time_step < 1 / 10000000 then none
      else some (.transient settings.transient_solver settings.timeStepSolver
        (TransientFirstOrderImplicit.construct settings.transient_solver settings.duration_time))

/-! ## Running a load step -/

/-- `step.substep++` -/
def Step.nextSubstep (s : Step) : Step := { s with substep := s.substep + 1 }

/-- The instance and the step, which all load steps share. -/
structure SteadyLoop {D : ℕ} (n : Fin D → ℕ) where
  inst : Instance.Transient n
  step : Step

/-- `hasNextTimeStep` of a load step that began at `startTime`. -/
def SteadyLoop.hasNextTimeStep (startTime duration : ℚ) (s : SteadyLoop n) : Prop :=
  s.step.currentTime + loadStepPrecision < startTime + duration

/-- `SteadyStateSolver::runNextTimeStep` -/
def SteadyLoop.runSteadyState (duration : ℚ) (solve : InstanceSolver n) (s : SteadyLoop n) :
    Option (SteadyLoop n) := do
  let step :=
    { s.step with currentTime := s.step.currentTime + duration, timeStep := duration }
  let inst ← solve s.inst step
  some ⟨inst, step.nextSubstep⟩

/-- `PseudoTimeStepping::runNextTimeStep` -/
def SteadyLoop.runPseudoTimeStepping (startTime duration : ℚ) (substeps : ℕ)
    (solve : InstanceSolver n) (s : SteadyLoop n) : Option (SteadyLoop n) := do
  let dt ← divide duration substeps
  let next := s.step.currentTime + dt
  let finish := startTime + duration
  let currentTime := if finish ≤ next + loadStepPrecision then finish else next
  let step :=
    { s.step with currentTime := currentTime, timeStep := currentTime - s.step.currentTime }
  let inst ← solve s.inst step
  some ⟨inst, step.nextSubstep⟩

namespace TransientState

/-- `TransientFirstOrderImplicit::initLoadStep`, with the static `loadStep`. -/
def initLoadStep (c : TransientSolverConfiguration) (loadStep : ℕ) (s : TransientState n) :
    Option (TransientState n) := do
  let α ← c.initAlpha
  some
    { s with
      solver :=
        { s.solver with
          _alpha := α
          V := if loadStep + 1 ≠ s.step.step then 0 else s.solver.V
          U := s.inst.primalSolution } }

/-- A pass of the loop in `LoadStepSolver::run`. -/
def nextTimeStep (c : TransientSolverConfiguration) (solve : TimeStepSolver n)
    (s : TransientState n) : Option (TransientState n) := do
  let t ← s.runNextTimeStep c solve
  some { t with step := t.step.nextSubstep }

end TransientState

/-! ## All load steps -/

/-- `Factory` with the instance, the step and the static `TransientFirstOrderImplicit::loadStep`. -/
structure Factory {D : ℕ} (n : Fin D → ℕ) where
  inst : Instance.Transient n
  step : Step
  loadStep : ℕ
  loadSteps : List (LoadStepSolver n)

namespace Factory

/-- `Factory::Factory`: all solvers are constructed in front of the first load step. -/
def construct (inst : Instance.Transient n) (settings : List (LoadStepSettings n)) :
    Option (Factory n) := do
  let loadSteps ← settings.mapM LoadStepSettings.getLoadStepSolver
  some ⟨inst, ⟨0, 0, 0, 0⟩, 0, loadSteps⟩

/-- The base `initLoadStep`: `preprocessData` sets the initial temperature in the first load step. -/
def preprocessData (initial : Vectors n) (F : Factory n) : Instance.Transient n :=
  if F.step.step = 0 then { F.inst with primalSolution := initial } else F.inst

/-- The state of a transient load step behind `initLoadStep`. -/
def startTransient (initial : Vectors n) (F : Factory n) : Option (TransientState n) :=
  match F.loadSteps[F.step.step]? with
  | some (.transient c _ members) =>
      TransientState.initLoadStep c F.loadStep
        ⟨F.preprocessData initial, { F.step with substep := 0 },
          { members with _startTime := F.step.currentTime }⟩
  | _ => none

/-- **`LoadStepSolver::run`** of the load step `step.step`, and the increment in `Factory::solve`. -/
inductive RunsLoadStep (initial : Vectors n) (F : Factory n) : Factory n → Prop
  | steadyState {duration solve s} :
      F.loadSteps[F.step.step]? = some (.steadyState duration solve) →
      Loop.Runs (SteadyLoop.hasNextTimeStep F.step.currentTime duration)
        (SteadyLoop.runSteadyState duration solve)
        ⟨F.preprocessData initial, { F.step with substep := 0 }⟩ s →
      RunsLoadStep initial F
        { F with inst := s.inst, step := { s.step with step := F.step.step + 1 } }
  | pseudoTimeStepping {duration substeps solve s} :
      F.loadSteps[F.step.step]? = some (.pseudoTimeStepping duration substeps solve) →
      Loop.Runs (SteadyLoop.hasNextTimeStep F.step.currentTime duration)
        (SteadyLoop.runPseudoTimeStepping F.step.currentTime duration substeps solve)
        ⟨F.preprocessData initial, { F.step with substep := 0 }⟩ s →
      RunsLoadStep initial F
        { F with inst := s.inst, step := { s.step with step := F.step.step + 1 } }
  | transient {c solve members s t} :
      F.loadSteps[F.step.step]? = some (.transient c solve members) →
      F.startTransient initial = some s →
      Loop.Runs TransientState.hasNextTimeStep (TransientState.nextTimeStep c solve) s t →
      RunsLoadStep initial F
        { inst := t.inst
          step := { t.step with step := F.step.step + 1 }
          loadStep := F.step.step
          loadSteps := F.loadSteps.set F.step.step (.transient c solve t.solver) }

/-- **`Factory::solve`**: the factories in front of each load step. -/
inductive Reaches (initial : Vectors n) : Factory n → Factory n → Prop
  | refl (F : Factory n) : Reaches initial F F
  | step {F G H : Factory n} : Reaches initial F G → RunsLoadStep initial G H → Reaches initial F H

/-- The members of the solver of the previous load step, if that is transient. -/
def previous (F : Factory n) : Option (TransientFirstOrderImplicit n) :=
  match F.step.step with
  | 0 => none
  | k + 1 =>
      match F.loadSteps[k]? with
      | some (.transient _ _ members) => some members
      | _ => none

/-- **What is expected of the start of a transient load step.**  It continues a transient load step
with its `U` and `V`; else it starts with `V = 0` and the current primal solution. -/
def Continues (F : Factory n) (s : TransientState n) : Prop :=
  match F.previous with
  | some p => s.solver.U = p.U ∧ s.solver.V = p.V
  | none => s.solver.V = 0 ∧ s.solver.U = s.inst.primalSolution

end Factory

/-! ## The end of a transient load step -/

namespace TransientState

lemma initLoadStep_eq_some {c : TransientSolverConfiguration} {loadStep : ℕ}
    {s t : TransientState n} (h : s.initLoadStep c loadStep = some t) :
    t.inst = s.inst ∧ t.solver.U = s.inst.primalSolution ∧
      t.solver.V = if loadStep + 1 ≠ s.step.step then 0 else s.solver.V := by
  simp only [initLoadStep, Option.bind_eq_bind, Option.bind_eq_some_iff, Option.some.injEq] at h
  obtain ⟨_, -, rfl⟩ := h
  exact ⟨rfl, rfl, rfl⟩

/-- Between two time steps `U` is the primal solution, or there is a next time step. -/
def Settled (s : TransientState n) : Prop :=
  s.solver.U = s.inst.primalSolution ∨ s.hasNextTimeStep

lemma nextTimeStep_settled {c : TransientSolverConfiguration} {solve : TimeStepSolver n}
    {s t : TransientState n} (hnext : s.hasNextTimeStep) (h : s.nextTimeStep c solve = some t) :
    t.Settled := by
  simp only [nextTimeStep, Option.bind_eq_bind, Option.bind_eq_some_iff, Option.some.injEq] at h
  obtain ⟨r, hr, rfl⟩ := h
  rcases processTimeStep_cases hr with hU | ⟨htime, hstart, hduration⟩
  · exact Or.inl hU
  · refine Or.inr ?_
    have hback : r.step.currentTime = s.step.currentTime := by
      rw [htime]
      exact sub_sub_cancel _ _
    simp only [hasNextTimeStep, attempt] at hnext hstart hduration ⊢
    rw [hstart, hduration]
    simpa only [Step.nextSubstep, hback] using hnext

lemma loop_U_eq {c : TransientSolverConfiguration} {solve : TimeStepSolver n}
    {s t : TransientState n} (hs : s.solver.U = s.inst.primalSolution)
    (h : Loop.Runs hasNextTimeStep (nextTimeStep c solve) s t) :
    t.solver.U = t.inst.primalSolution := by
  obtain ⟨hsettled, hend⟩ :=
    h.invariant Settled (fun _ _ _ hnext hstep => nextTimeStep_settled hnext hstep) (Or.inl hs)
  exact hsettled.resolve_right hend

end TransientState

/-! ## Between the load steps -/

namespace Factory

/-- **What holds in front of a load step.**  The solvers of this and of the later load steps are as
constructed, and a transient load step before it has left `U` equal to the primal solution. -/
structure Ready (F : Factory n) : Prop where
  fresh : ∀ k c solve members, F.step.step ≤ k →
    F.loadSteps[k]? = some (.transient c solve members) → members.V = 0
  finished : ∀ p, F.previous = some p → p.U = F.inst.primalSolution

lemma getLoadStepSolver_fresh {settings : LoadStepSettings n} {c solve members}
    (h : settings.getLoadStepSolver = some (.transient c solve members)) : members.V = 0 := by
  rw [LoadStepSettings.getLoadStepSolver] at h
  split at h
  · cases h
  · cases h
  · split_ifs at h
    cases h
    rfl

lemma construct_ready {inst : Instance.Transient n} {settings : List (LoadStepSettings n)}
    {F : Factory n} (h : construct inst settings = some F) : F.Ready := by
  simp only [construct, Option.bind_eq_bind, Option.bind_eq_some_iff, Option.some.injEq] at h
  obtain ⟨loadSteps, hmap, rfl⟩ := h
  refine ⟨fun k c solve members _ hk => ?_, fun p hp => absurd hp (Option.not_mem_none p)⟩
  have hmem := List.mem_of_getElem? hk
  obtain ⟨setting, -, hsetting⟩ := (Fallible.mem_mapM hmap).mp hmem
  exact getLoadStepSolver_fresh hsetting

lemma startTransient_eq_some {initial : Vectors n} {F : Factory n} {s : TransientState n}
    (h : F.startTransient initial = some s) :
    ∃ c solve members, F.loadSteps[F.step.step]? = some (.transient c solve members) ∧
      s.solver.U = s.inst.primalSolution ∧ s.inst = F.preprocessData initial ∧
      s.solver.V = if F.loadStep + 1 ≠ F.step.step then 0 else members.V := by
  rw [startTransient] at h
  split at h
  · next c solve members hk =>
    obtain ⟨hinst, hU, hV⟩ := TransientState.initLoadStep_eq_some h
    exact ⟨c, solve, members, hk, by rw [hU, hinst], hinst, hV⟩
  · cases h

lemma RunsLoadStep.ready {initial : Vectors n} {F G : Factory n} (h : RunsLoadStep initial F G)
    (hF : F.Ready) : G.Ready := by
  cases h with
  | steadyState hk _ =>
    refine ⟨fun k c solve members hle hget => hF.fresh k c solve members (Nat.le_of_succ_le hle) hget, ?_⟩
    rintro p hp
    simp only [previous, hk, reduceCtorEq] at hp
  | pseudoTimeStepping hk _ =>
    refine ⟨fun k c solve members hle hget => hF.fresh k c solve members (Nat.le_of_succ_le hle) hget, ?_⟩
    rintro p hp
    simp only [previous, hk, reduceCtorEq] at hp
  | transient hk hs hloop =>
    refine ⟨fun k c solve members hle hget => ?_, ?_⟩
    · rw [List.getElem?_set_ne (Nat.ne_of_lt hle)] at hget
      exact hF.fresh k c solve members (Nat.le_of_succ_le hle) hget
    · rintro p hp
      have hlt := (List.getElem?_eq_some_iff.mp hk).1
      simp only [previous, List.getElem?_set_self hlt, Option.some.injEq] at hp
      subst hp
      obtain ⟨_, _, _, _, hU, -, -⟩ := startTransient_eq_some hs
      exact TransientState.loop_U_eq hU hloop

lemma Reaches.ready {initial : Vectors n} {F G : Factory n} (h : Reaches initial F G)
    (hF : F.Ready) : G.Ready := by
  induction h with
  | refl => exact hF
  | step _ hrun ih => exact hrun.ready ih

lemma Ready.start_V {initial : Vectors n} {F : Factory n} {s : TransientState n} (hF : F.Ready)
    (hstart : F.startTransient initial = some s) : s.solver.V = 0 := by
  obtain ⟨c, solve, members, hk, -, -, hV⟩ := startTransient_eq_some hstart
  rw [hV, hF.fresh _ _ _ _ le_rfl hk, ite_self]

/-- **The start of a transient load step** in a sequence of load steps of any types. -/
theorem continues_iff {initial : Vectors n} {inst : Instance.Transient n}
    {settings : List (LoadStepSettings n)} {F₀ F : Factory n} {s : TransientState n}
    (hconstruct : construct inst settings = some F₀) (hreach : Reaches initial F₀ F)
    (hstart : F.startTransient initial = some s) :
    F.Continues s ↔ ∀ p, F.previous = some p → p.V = 0 := by
  have hready := hreach.ready (construct_ready hconstruct)
  have hzero := hready.start_V hstart
  obtain ⟨c, solve, members, hk, hU, hinst, -⟩ := startTransient_eq_some hstart
  rw [Continues]
  cases hprev : F.previous with
  | none =>
    simp only [hzero, hU, reduceCtorEq, false_imp_iff, implies_true, and_self]
  | some p =>
    have hne : F.step.step ≠ 0 := by
      intro h0
      simp only [previous, h0, reduceCtorEq] at hprev
    have hpU : s.solver.U = p.U := by
      rw [hU, hinst, preprocessData, if_neg hne, hready.finished p hprev]
    simp only [hpU, hzero, true_and, Option.some.injEq, forall_eq']
    exact eq_comm

end Factory

/-! ## Two transient load steps -/

def oneTimeStep : LoadStepSettings (fun _ : Fin 1 => 1) where
  type := .Transient
  mode := .Linear
  duration_time := 1 / 10
  substeps := 1
  transient_solver := fixedTimeStep .BackwardDiff
  instanceSolver := fun inst _ => some inst
  timeStepSolver := linearTimeStep oneUnknownProblem oneUnknownSolver

def twoLoadSteps : Factory (fun _ : Fin 1 => 1) where
  inst := ⟨0, 0, 0, 0, 0⟩
  step := ⟨0, 0, 0, 0⟩
  loadStep := 0
  loadSteps :=
    List.replicate 2 (.transient oneTimeStep.transient_solver oneTimeStep.timeStepSolver
      (.construct oneTimeStep.transient_solver oneTimeStep.duration_time))

def firstLoadStep : Option (TransientState (fun _ : Fin 1 => 1)) :=
  (twoLoadSteps.startTransient fun _ _ => 1).bind
    (TransientState.nextTimeStep oneTimeStep.transient_solver oneTimeStep.timeStepSolver)

lemma firstLoadStep_eq :
    firstLoadStep.map (fun t =>
      (t.solver.V 0 0, t.step.currentTime, t.solver._startTime + t.solver._duration)) =
      some (-10 / 11, 1 / 10, 1 / 10) := by
  decide +kernel

lemma construct_twoLoadSteps :
    Factory.construct ⟨0, 0, 0, 0, 0⟩ [oneTimeStep, oneTimeStep] = some twoLoadSteps := by
  have hsolver : oneTimeStep.getLoadStepSolver =
      some (.transient oneTimeStep.transient_solver oneTimeStep.timeStepSolver
        (.construct oneTimeStep.transient_solver oneTimeStep.duration_time)) :=
    if_neg (by norm_num [oneTimeStep, fixedTimeStep])
  simp only [Factory.construct, List.mapM_cons, List.mapM_nil, hsolver, Option.bind_eq_bind,
    Option.bind_some, Option.pure_def]
  rfl

theorem Factory.continues_iff_first :
    ∃ s, twoLoadSteps.startTransient (fun _ _ => 1) = some s ∧
      (twoLoadSteps.Continues s ↔ ∀ p, twoLoadSteps.previous = some p → p.V = 0) :=
  ⟨_, rfl, Factory.continues_iff construct_twoLoadSteps (.refl _) rfl⟩

/-- **The second of two transient load steps does not continue the first one.** -/
theorem not_continues :
    Factory.construct ⟨0, 0, 0, 0, 0⟩ [oneTimeStep, oneTimeStep] = some twoLoadSteps ∧
    ∃ F s, Factory.Reaches (fun _ _ => 1) twoLoadSteps F ∧
      F.startTransient (fun _ _ => 1) = some s ∧ ¬ F.Continues s := by
  refine ⟨construct_twoLoadSteps, ?_⟩
  have hstep := firstLoadStep_eq
  rw [Option.map_eq_some_iff] at hstep
  obtain ⟨t, ht, hvalues⟩ := hstep
  simp only [Prod.mk.injEq] at hvalues
  obtain ⟨hV, htime, hfinish⟩ := hvalues
  -- the first load step is one pass of the loop
  obtain ⟨s, hs, hst⟩ := Option.bind_eq_some_iff.mp ht
  have hnext : s.hasNextTimeStep := by
    cases hs
    norm_num [TransientState.hasNextTimeStep, twoLoadSteps, oneTimeStep, loadStepPrecision,
      TransientFirstOrderImplicit.construct]
  have hend : ¬ t.hasNextTimeStep := by
    rw [TransientState.hasNextTimeStep, htime, hfinish]
    norm_num [loadStepPrecision]
  have hrun :=
    Factory.RunsLoadStep.transient (F := twoLoadSteps) rfl hs (.next hnext hst (.done hend))
  have hready := (Factory.Reaches.refl twoLoadSteps).step hrun |>.ready
    (Factory.construct_ready construct_twoLoadSteps)
  refine ⟨_, _, (Factory.Reaches.refl twoLoadSteps).step hrun, rfl, ?_⟩
  rintro ⟨-, hcontinues⟩
  have hzero := hready.start_V (rfl : Factory.startTransient (fun _ _ => 1) _ = some _)
  rw [hcontinues] at hzero
  have hcontra := congrFun (congrFun hzero 0) 0
  rw [hV] at hcontra
  norm_num at hcontra

end Espreso.LoadStep
