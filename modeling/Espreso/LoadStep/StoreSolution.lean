import Espreso.LoadStep.TimeControl

/-!
# What is stored of a sequence of load steps

`Assembler::storeSolution` asks `ResultStoreExecutor::storeStep`, for which the results and the
monitors have a frequency each.

* `Visualization.storeStep`, `Monitoring.storeStep`, `ResultStoreExecutor.storeStep`.
* **`storedAsConfigured_iff`** — when the stored time steps are the configured ones.
  `Step::finalTime` keeps its initial value, so `LAST_TIMESTEP` stores what ends at the time zero.
-/

namespace Espreso.LoadStep

/-! ## The frequencies -/

/-- `OutputConfiguration::STORE_FREQUENCY` -/
inductive StoreFrequency where
  | Never
  | EveryTimestep
  | EveryNthTimestep
  | LastTimestep
  | Debug
  deriving DecidableEq

/-- What the frequencies use of `OutputConfiguration`. -/
structure OutputConfiguration where
  results_store_frequency : StoreFrequency
  monitors_store_frequency : StoreFrequency
  results_nth_stepping : UInt64
  monitors_nth_stepping : UInt64

/-- The switch over the frequencies; `none` is a division by zero. -/
def StoreFrequency.storeStep (frequency : StoreFrequency) (nth_stepping : UInt64)
    (step : TimedStep) : Option Bool :=
  match frequency with
  | .Never => some false
  | .EveryTimestep => some true
  | .EveryNthTimestep =>
      if nth_stepping = 0 then none else some (step.substep % nth_stepping == 0)
  | .LastTimestep => some step.isLast
  | .Debug => some false

/-- `Visualization::storeStep` -/
def Visualization.storeStep (c : OutputConfiguration) (step : TimedStep) : Option Bool :=
  c.results_store_frequency.storeStep c.results_nth_stepping step

/-- `Monitoring::storeStep` -/
def Monitoring.storeStep (c : OutputConfiguration) (step : TimedStep) : Option Bool :=
  c.monitors_store_frequency.storeStep c.monitors_nth_stepping step

/-- `ResultStoreExecutor::storeStep` -/
def ResultStoreExecutor.storeStep (c : OutputConfiguration) (step : TimedStep) : Option Bool := do
  let monitors ← Monitoring.storeStep c step
  if monitors then some true else Visualization.storeStep c step

/-- **An attempt hands its state to the result stores**: it calls `Assembler::storeSolution`, and
that asks `storeStep`. -/
def Attempt.handed (c : OutputConfiguration) (a : Attempt) : Option Bool :=
  if a.storeSolution then ResultStoreExecutor.storeStep c a.step else some false

/-- The monitors have the frequency of the results, or there are none. -/
def OutputConfiguration.Uniform (c : OutputConfiguration) : Prop :=
  c.monitors_store_frequency = .Never ∨
    c.monitors_store_frequency = c.results_store_frequency ∧
      c.monitors_nth_stepping = c.results_nth_stepping

lemma OutputConfiguration.Uniform.storeStep_eq {c : OutputConfiguration} (hc : c.Uniform)
    (step : TimedStep) : ResultStoreExecutor.storeStep c step = Visualization.storeStep c step := by
  rw [ResultStoreExecutor.storeStep, Monitoring.storeStep]
  rcases hc with hnever | ⟨hfrequency, hnth⟩
  · rw [hnever]
    rfl
  · rw [hfrequency, hnth]
    change (Visualization.storeStep c step).bind _ = Visualization.storeStep c step
    rcases hstore : Visualization.storeStep c step with - | (- | -)
    · rfl
    · rfl
    · rfl

/-- **`Factory::solve`**: the load steps in order, with the attempts of each. -/
inductive RunsLoadSteps :
    List TimeSolver → TimedStep → List (List Attempt) → TimedStep → Prop
  | nil {step : TimedStep} : RunsLoadSteps [] step [] step
  | cons {solver : TimeSolver} {solvers : List TimeSolver} {responses : ℕ → Response}
      {start finish last : TimedStep} {attempts : List Attempt} {runs : List (List Attempt)} :
      solver.Runs responses start attempts finish →
      RunsLoadSteps solvers { finish with step := finish.step.succ } runs last →
      RunsLoadSteps (solver :: solvers) start (attempts :: runs) last

def accepted (attempts : List Attempt) : List Attempt := attempts.filter (·.accepted)

def HasLast (runs : List (List Attempt)) : Prop :=
  ∃ attempts a, runs.getLast? = some attempts ∧ (accepted attempts).getLast? = some a

/-! ## The numbers of the time steps -/

/-- **What one attempt does** to the number of the time step, and what it never changes. -/
structure KeepsNumber (time : ℚ) (number : UInt64) (a : Attempt) (t : TimeLoop) : Prop where
  storeSolution : a.storeSolution = a.accepted
  substep : a.step.substep = number
  finalTime : a.step.finalTime = time
  kept : t.step.finalTime = time
  next : t.step.substep = if a.accepted then number + 1 else number

lemma TransientSolverConfiguration.processTimeStep_substep (c : TransientSolverConfiguration)
    (finish : ℚ) (response : Response) (s : TimedStep) :
    KeepsNumber s.finalTime s.substep (c.processTimeStep finish response s).1
      (TimeSolver.TimeLoop.nextSubstep (c.processTimeStep finish response s).2) := by
  by_cases hacc : s.timeStep - loadStepPrecision <
    c.auto_time_stepping.nTimeStep finish response { s with internalForceReduction := 1 }
  · rw [processTimeStep_accepted rfl hacc]
    exact ⟨rfl, rfl, rfl, rfl, (if_pos rfl).symm⟩
  · rw [processTimeStep_rejected rfl hacc]
    have hback : s.substep - 1 + 1 = s.substep := sub_add_cancel _ _
    exact ⟨rfl, rfl, rfl, rfl, hback.trans (if_neg Bool.false_ne_true).symm⟩

lemma TimeSolver.nextTimeStep_substep (solver : TimeSolver) (startTime : ℚ) (response : Response)
    (s : TimeLoop) :
    KeepsNumber s.step.finalTime s.step.substep (solver.nextTimeStep startTime response s).1
      (solver.nextTimeStep startTime response s).2 := by
  cases solver with
  | steadyState duration => exact ⟨rfl, rfl, rfl, rfl, (if_pos rfl).symm⟩
  | pseudoTimeStepping duration substeps nonzero =>
      exact ⟨rfl, rfl, rfl, rfl, (if_pos rfl).symm⟩
  | transient duration c => exact c.processTimeStep_substep _ response (s.step.advance _ _)

/-- **What is seen of a load step** that begins with the number `number`. -/
structure Numbered (time : ℚ) (number : UInt64) (attempts : List Attempt) : Prop where
  storeSolution : ∀ a ∈ attempts, a.storeSolution = a.accepted
  finalTime : ∀ a ∈ attempts, a.step.finalTime = time
  substep : ∀ i a, (accepted attempts)[i]? = some a →
    a.step.substep = number + UInt64.ofNat i

lemma TimeSolver.numbered {solver : TimeSolver} {startTime : ℚ} {responses : ℕ → Response}
    {s t : TimeLoop} {attempts : List Attempt}
    (h : Loop.Emits (solver.hasNextTimeStep startTime) (solver.nextTimeStep startTime) responses s
      attempts t) :
    Numbered s.step.finalTime s.step.substep attempts ∧ t.step.finalTime = s.step.finalTime := by
  induction h with
  | done _ => exact ⟨⟨by simp, by simp, by simp [accepted]⟩, rfl⟩
  | @next responses s t attempts hnext _ ih =>
      obtain ⟨hstore, hsubstep, hfinal, hkept, hcount⟩ :=
        solver.nextTimeStep_substep startTime (responses 0) s
      obtain ⟨ih, hend⟩ := ih
      rw [hkept] at ih hend
      refine ⟨⟨List.forall_mem_cons.mpr ⟨hstore, ih.storeSolution⟩,
        List.forall_mem_cons.mpr ⟨hfinal, ih.finalTime⟩, ?_⟩, hend⟩
      intro i a hget
      by_cases hacc : (solver.nextTimeStep startTime (responses 0) s).1.accepted = true
      · rw [if_pos hacc] at hcount
        rw [accepted, List.filter_cons_of_pos hacc] at hget
        cases i with
        | zero =>
            obtain rfl := Option.some.inj hget
            rw [hsubstep]
            exact (add_zero _).symm
        | succ i =>
            rw [ih.substep i a hget, hcount, Nat.succ_eq_add_one, UInt64.ofNat_add, add_assoc,
              add_comm (UInt64.ofNat i)]
            rfl
      · rw [if_neg hacc] at hcount
        rw [accepted, List.filter_cons_of_neg hacc] at hget
        rw [ih.substep i a hget, hcount]

lemma RunsLoadSteps.numbered {solvers : List TimeSolver} {start last : TimedStep}
    {runs : List (List Attempt)} (h : RunsLoadSteps solvers start runs last) :
    ∀ attempts ∈ runs, Numbered start.finalTime 0 attempts := by
  induction h with
  | nil => exact List.forall_mem_nil _
  | cons hrun _ ih =>
      obtain ⟨nTimeStep, hrun⟩ := hrun
      obtain ⟨hnumbered, hfinal⟩ := TimeSolver.numbered hrun
      refine List.forall_mem_cons.mpr ⟨hnumbered, fun attempts hmem => ?_⟩
      have hrest := ih attempts hmem
      rwa [show _ = _ from hfinal] at hrest

/-! ## What is configured -/

/-- The accepted time step `i` of the load step `j` is to be stored. -/
def OutputConfiguration.Wanted (c : OutputConfiguration) (runs : List (List Attempt))
    (attempts : List Attempt) (j i : ℕ) : Prop :=
  match c.results_store_frequency with
  | .Never => False
  | .EveryTimestep => True
  | .EveryNthTimestep => c.results_nth_stepping.toNat ∣ i
  | .LastTimestep => j + 1 = runs.length ∧ i + 1 = (accepted attempts).length
  | .Debug => False

/-- **What is expected of `storeSolution`**: of the accepted time steps exactly the wanted ones are
handed to the result stores, and no rejected attempt; with `LAST_TIMESTEP` there is one. -/
structure StoredAsConfigured (c : OutputConfiguration) (runs : List (List Attempt)) : Prop where
  accepted : ∀ j i attempts a, runs[j]? = some attempts → (accepted attempts)[i]? = some a →
    ∃ stored, a.handed c = some stored ∧ (stored = true ↔ c.Wanted runs attempts j i)
  rejected : ∀ attempts ∈ runs, ∀ a ∈ attempts, a.accepted = false → a.handed c = some false
  last : c.results_store_frequency = .LastTimestep → HasLast runs

/-- **When it is so.**  A division by zero is not reached, and no load step has more than `2 ^ 64`
accepted time steps; with `LAST_TIMESTEP`, the last time step and no other one ends at the time
zero. -/
def OutputConfiguration.Stores (c : OutputConfiguration) (runs : List (List Attempt)) : Prop :=
  match c.results_store_frequency with
  | .EveryNthTimestep =>
      (∀ attempts ∈ runs, accepted attempts = []) ∨
        c.results_nth_stepping ≠ 0 ∧
          (c.results_nth_stepping.toNat ∣ 2 ^ 64 ∨
            ∀ attempts ∈ runs, (accepted attempts).length ≤ 2 ^ 64)
  | .LastTimestep =>
      HasLast runs ∧
        ∀ j i attempts a, runs[j]? = some attempts → (accepted attempts)[i]? = some a →
          (a.step.currentTime = 0 ↔ j + 1 = runs.length ∧ i + 1 = (accepted attempts).length)
  | _ => True

/-! ## What is stored -/

lemma Numbered.handed_rejected {time : ℚ} {number : UInt64} {attempts : List Attempt}
    (h : Numbered time number attempts) (c : OutputConfiguration) {a : Attempt}
    (hmem : a ∈ attempts) (hrejected : a.accepted = false) : a.handed c = some false := by
  have hstore : ¬ a.storeSolution = true := by simp [h.storeSolution a hmem, hrejected]
  exact if_neg hstore

lemma Numbered.handed_accepted {time : ℚ} {number : UInt64} {attempts : List Attempt}
    (h : Numbered time number attempts) {c : OutputConfiguration} (hc : c.Uniform) {i : ℕ}
    {a : Attempt} (hget : (accepted attempts)[i]? = some a) :
    a.handed c = c.results_store_frequency.storeStep c.results_nth_stepping a.step ∧
      a.step.finalTime = time := by
  obtain ⟨hmem, hacc⟩ := List.mem_filter.mp (List.mem_of_getElem? hget)
  refine ⟨?_, h.finalTime a hmem⟩
  rw [Attempt.handed, if_pos ((h.storeSolution a hmem).trans hacc), hc.storeStep_eq]
  rfl

lemma mod_beq_zero_iff (i : ℕ) (n : UInt64) :
    (UInt64.ofNat i % n == 0) = true ↔ n.toNat ∣ i % 2 ^ 64 := by
  rw [beq_iff_eq, ← UInt64.toNat_inj, UInt64.toNat_mod, UInt64.toNat_ofNat',
    Nat.dvd_iff_mod_eq_zero]
  rfl

lemma handed_everyNth {c : OutputConfiguration} (hc : c.Uniform) {attempts : List Attempt}
    (hnumbered : Numbered 0 0 attempts)
    (hfrequency : c.results_store_frequency = .EveryNthTimestep) {i : ℕ} {a : Attempt}
    (hi : (accepted attempts)[i]? = some a) :
    a.handed c = if c.results_nth_stepping = 0 then none
      else some (UInt64.ofNat i % c.results_nth_stepping == 0) := by
  rw [(hnumbered.handed_accepted hc hi).1, hfrequency, StoreFrequency.storeStep,
    hnumbered.substep i a hi, zero_add]

lemma stores_everyNth {c : OutputConfiguration} (hc : c.Uniform) {runs : List (List Attempt)}
    (hnumbered : ∀ attempts ∈ runs, Numbered 0 0 attempts)
    (hfrequency : c.results_store_frequency = .EveryNthTimestep) :
    StoredAsConfigured c runs ↔ c.Stores runs := by
  have hwanted : ∀ attempts j i, c.Wanted runs attempts j i ↔ c.results_nth_stepping.toNat ∣ i := by
    intro attempts j i
    rw [OutputConfiguration.Wanted, hfrequency]
  rw [OutputConfiguration.Stores, hfrequency]
  refine ⟨fun h => or_iff_not_imp_left.mpr fun hsome => ?_, fun h => ?_⟩
  · push Not at hsome
    obtain ⟨attempts, hmem, hne⟩ := hsome
    have hnonzero : c.results_nth_stepping ≠ 0 := by
      intro hzero
      obtain ⟨a, ha⟩ : ∃ a, (accepted attempts)[0]? = some a :=
        ⟨_, List.getElem?_eq_getElem (List.length_pos_iff.mpr hne)⟩
      obtain ⟨j, hj⟩ := List.mem_iff_getElem?.mp hmem
      obtain ⟨stored, hstored, -⟩ := h.accepted j 0 attempts a hj ha
      rw [handed_everyNth hc (hnumbered attempts hmem) hfrequency ha, if_pos hzero] at hstored
      cases hstored
    refine ⟨hnonzero, or_iff_not_imp_right.mpr fun hlong => ?_⟩
    -- the time step number `2 ^ 64` has the number zero
    push Not at hlong
    obtain ⟨attempts, hmem, hlt⟩ := hlong
    obtain ⟨j, hj⟩ := List.mem_iff_getElem?.mp hmem
    have ha := List.getElem?_eq_getElem hlt
    obtain ⟨stored, hstored, hiff⟩ := h.accepted j (2 ^ 64) attempts _ hj ha
    rw [handed_everyNth hc (hnumbered attempts hmem) hfrequency ha, if_neg hnonzero,
      Option.some.injEq] at hstored
    rw [hwanted, ← hstored, mod_beq_zero_iff, Nat.mod_self] at hiff
    exact hiff.mp (dvd_zero _)
  · refine ⟨fun j i attempts a hj hi => ?_, fun attempts hmem a ha hrejected =>
      (hnumbered attempts hmem).handed_rejected c ha hrejected, ?_⟩
    · have hmem := List.mem_of_getElem? hj
      rcases h with hnone | ⟨hnonzero, hnumber⟩
      · rw [hnone attempts hmem] at hi
        cases hi
      · refine ⟨_, (handed_everyNth hc (hnumbered attempts hmem) hfrequency hi).trans
          (if_neg hnonzero), ?_⟩
        rw [mod_beq_zero_iff, hwanted]
        rcases hnumber with hdvd | hshort
        · exact Nat.dvd_mod_iff hdvd
        · have hlt := (List.getElem?_eq_some_iff.mp hi).1
          rw [Nat.mod_eq_of_lt (hlt.trans_le (hshort attempts hmem))]
    · intro hlast
      rw [hfrequency] at hlast
      cases hlast

lemma stores_last {c : OutputConfiguration} (hc : c.Uniform) {runs : List (List Attempt)}
    (hnumbered : ∀ attempts ∈ runs, Numbered 0 0 attempts)
    (hfrequency : c.results_store_frequency = .LastTimestep) :
    StoredAsConfigured c runs ↔ c.Stores runs := by
  have hhanded : ∀ {j i : ℕ} {attempts : List Attempt} {a : Attempt}, runs[j]? = some attempts →
      (accepted attempts)[i]? = some a → a.handed c = some (decide (a.step.currentTime = 0)) := by
    intro j i attempts a hj hi
    obtain ⟨heq, hfinal⟩ := (hnumbered attempts (List.mem_of_getElem? hj)).handed_accepted hc hi
    rw [heq, hfrequency, ← hfinal]
    rfl
  have hwanted : ∀ attempts j i, c.Wanted runs attempts j i ↔
      j + 1 = runs.length ∧ i + 1 = (accepted attempts).length := by
    intro attempts j i
    rw [OutputConfiguration.Wanted, hfrequency]
  rw [OutputConfiguration.Stores, hfrequency]
  refine ⟨fun h => ⟨h.last hfrequency, fun j i attempts a hj hi => ?_⟩, fun h => ?_⟩
  · obtain ⟨stored, hstored, hiff⟩ := h.accepted j i attempts a hj hi
    rw [hhanded hj hi, Option.some.injEq] at hstored
    rw [← hwanted, ← hiff, ← hstored, decide_eq_true_iff]
  · refine ⟨fun j i attempts a hj hi => ⟨_, hhanded hj hi, ?_⟩, fun attempts hmem a ha hrejected =>
      (hnumbered attempts hmem).handed_rejected c ha hrejected, fun _ => h.1⟩
    rw [decide_eq_true_iff, hwanted]
    exact h.2 j i attempts a hj hi

lemma stores_always {c : OutputConfiguration} (hc : c.Uniform) {runs : List (List Attempt)}
    (hnumbered : ∀ attempts ∈ runs, Numbered 0 0 attempts)
    (hnth : c.results_store_frequency ≠ .EveryNthTimestep)
    (hlast : c.results_store_frequency ≠ .LastTimestep) : StoredAsConfigured c runs := by
  refine ⟨fun j i attempts a hj hi => ?_, fun attempts hmem a ha hrejected =>
    (hnumbered attempts hmem).handed_rejected c ha hrejected, fun h => absurd h hlast⟩
  obtain ⟨heq, -⟩ := (hnumbered attempts (List.mem_of_getElem? hj)).handed_accepted hc hi
  rw [heq, OutputConfiguration.Wanted]
  cases hfrequency : c.results_store_frequency with
  | Never => exact ⟨false, rfl, by simp⟩
  | EveryTimestep => exact ⟨true, rfl, by simp⟩
  | EveryNthTimestep => exact absurd hfrequency hnth
  | LastTimestep => exact absurd hfrequency hlast
  | Debug => exact ⟨false, rfl, by simp⟩

lemma stores_iff {c : OutputConfiguration} (hc : c.Uniform) {runs : List (List Attempt)}
    (hnumbered : ∀ attempts ∈ runs, Numbered 0 0 attempts) :
    StoredAsConfigured c runs ↔ c.Stores runs := by
  by_cases hnth : c.results_store_frequency = .EveryNthTimestep
  · exact stores_everyNth hc hnumbered hnth
  by_cases hlast : c.results_store_frequency = .LastTimestep
  · exact stores_last hc hnumbered hlast
  have hstores : c.Stores runs := by
    rw [OutputConfiguration.Stores]
    split
    · next h => exact absurd h hnth
    · next h => exact absurd h hlast
    · exact trivial
  exact iff_of_true (stores_always hc hnumbered hnth hlast) hstores

/-! ## The time is positive -/

/-- The settings of a load step that ends, or of one that has no time step. -/
def TimeSolver.Sound (solver : TimeSolver) : Prop :=
  solver.Admissible ∨ solver.duration ≤ loadStepPrecision

lemma TimeSolver.Runs.pos {solver : TimeSolver} (h : solver.Sound) {responses : ℕ → Response}
    {start finish : TimedStep} {attempts : List Attempt}
    (hrun : solver.Runs responses start attempts finish) (hstart : 0 ≤ start.currentTime) :
    (∀ a ∈ accepted attempts, 0 < a.step.currentTime) ∧ 0 ≤ finish.currentTime := by
  rcases h with h | hshort
  · refine ⟨fun a ha => ?_, ?_⟩
    · have hlt := List.rel_of_pairwise_cons (hrun.increasing h)
        (List.mem_map_of_mem (f := fun a => a.step.currentTime) ha)
      exact hstart.trans_lt hlt
    · rw [hrun.currentTime_eq h]
      exact add_nonneg hstart (loadStepPrecision_pos.trans h.duration).le
  · obtain ⟨nTimeStep, hrun⟩ := hrun
    have hend : ¬ solver.hasNextTimeStep start.currentTime (solver.initLoadStep start) := by
      rw [TimeSolver.hasNextTimeStep, not_lt]
      exact add_le_add_right hshort _
    cases hrun with
    | done _ => exact ⟨List.forall_mem_nil _, hstart⟩
    | next hnext _ => exact absurd hnext hend

lemma RunsLoadSteps.pos {solvers : List TimeSolver} {start last : TimedStep}
    {runs : List (List Attempt)} (h : RunsLoadSteps solvers start runs last)
    (hsound : ∀ solver ∈ solvers, solver.Sound) (hstart : 0 ≤ start.currentTime) :
    ∀ attempts ∈ runs, ∀ a ∈ accepted attempts, 0 < a.step.currentTime := by
  induction h with
  | nil => exact List.forall_mem_nil _
  | cons hrun _ ih =>
      obtain ⟨hfirst, hrest⟩ := List.forall_mem_cons.mp hsound
      obtain ⟨hpos, hfinish⟩ := hrun.pos hfirst hstart
      exact List.forall_mem_cons.mpr ⟨hpos, ih hrest hfinish⟩

lemma RunsLoadSteps.handed_last {solvers : List TimeSolver} {last : TimedStep}
    {runs : List (List Attempt)} (h : RunsLoadSteps solvers .initial runs last)
    (hsound : ∀ solver ∈ solvers, solver.Sound) {c : OutputConfiguration} (hc : c.Uniform)
    (hfrequency : c.results_store_frequency = .LastTimestep) :
    ∀ attempts ∈ runs, ∀ a ∈ attempts, a.handed c = some false := by
  intro attempts hmem a ha
  have hnumbered : Numbered 0 0 attempts := h.numbered attempts hmem
  cases hacc : a.accepted with
  | false => exact hnumbered.handed_rejected c ha hacc
  | true =>
      have haccepted : a ∈ accepted attempts := List.mem_filter.mpr ⟨ha, hacc⟩
      obtain ⟨i, hi⟩ := List.mem_iff_getElem?.mp haccepted
      obtain ⟨heq, hfinal⟩ := hnumbered.handed_accepted hc hi
      have hpos := h.pos hsound le_rfl attempts hmem a haccepted
      rw [heq, hfrequency, StoreFrequency.storeStep, TimedStep.isLast, hfinal,
        decide_eq_false hpos.ne']

/-- **What is stored of a sequence of load steps** is what is configured, if and only if no number
is divided by zero or too large and the frequency is not `LAST_TIMESTEP`: with that one the last
time step would have to end at the time zero, and nothing is stored. -/
theorem storedAsConfigured_iff {c : OutputConfiguration} (hc : c.Uniform)
    {solvers : List TimeSolver} {runs : List (List Attempt)} {last : TimedStep}
    (hrun : RunsLoadSteps solvers .initial runs last) :
    (StoredAsConfigured c runs ↔ c.Stores runs) ∧
      ((∀ solver ∈ solvers, solver.Sound) → c.results_store_frequency = .LastTimestep →
        ∀ attempts ∈ runs, ∀ a ∈ attempts, a.handed c = some false) :=
  ⟨stores_iff hc hrun.numbered, fun hsound hfrequency => hrun.handed_last hsound hc hfrequency⟩

/-! ## One steady state load step -/

/-- The attempt of a steady state load step of the duration one. -/
def steadyAttempt : Attempt := ⟨⟨⟨0, 0, 1, 1⟩, 0, 1⟩, true, true⟩

lemma nextTimeStep_steadyState (response : Response) :
    (TimeSolver.steadyState 1).nextTimeStep 0 response
        ((TimeSolver.steadyState 1).initLoadStep .initial) =
      (steadyAttempt, ⟨⟨⟨0, 1, 1, 1⟩, 0, 1⟩, 0⟩) := by
  simp [TimeSolver.nextTimeStep, TimeSolver.runNextTimeStep, TimeSolver.initLoadStep,
    TimeSolver.TimeLoop.nextSubstep, steadyAttempt, TimedStep.initial]

lemma runsLoadSteps_steadyState :
    RunsLoadSteps [.steadyState 1] .initial [[steadyAttempt]] ⟨⟨1, 1, 1, 1⟩, 0, 1⟩ := by
  have hnext : (TimeSolver.steadyState 1).hasNextTimeStep 0
      ((TimeSolver.steadyState 1).initLoadStep .initial) := by
    norm_num [TimeSolver.hasNextTimeStep, TimeSolver.initLoadStep, TimeSolver.duration,
      TimedStep.initial, loadStepPrecision]
  have hend : ¬ (TimeSolver.steadyState 1).hasNextTimeStep 0
      ⟨⟨⟨0, 1, 1, 1⟩, 0, 1⟩, 0⟩ := by
    norm_num [TimeSolver.hasNextTimeStep, TimeSolver.duration, loadStepPrecision]
  let responses : ℕ → Response := fun _ => ⟨.nan, .nan⟩
  have hemits : Loop.Emits ((TimeSolver.steadyState 1).hasNextTimeStep 0)
      ((TimeSolver.steadyState 1).nextTimeStep 0) responses
      ((TimeSolver.steadyState 1).initLoadStep .initial) [steadyAttempt]
      ⟨⟨⟨0, 1, 1, 1⟩, 0, 1⟩, 0⟩ := by
    have hpass := nextTimeStep_steadyState (responses 0)
    have hemits : Loop.Emits _ ((TimeSolver.steadyState 1).nextTimeStep 0) responses _ _ _ :=
      .next hnext (.done (by rwa [hpass]))
    rwa [hpass] at hemits
  exact .cons ⟨0, hemits⟩ .nil

theorem storedAsConfigured_iff_everyNth :
    StoredAsConfigured ⟨.EveryNthTimestep, .Never, 2, 0⟩ [[steadyAttempt]] ↔
      OutputConfiguration.Stores ⟨.EveryNthTimestep, .Never, 2, 0⟩ [[steadyAttempt]] :=
  (storedAsConfigured_iff (Or.inl rfl) runsLoadSteps_steadyState).1

/-- **`LAST_TIMESTEP` does not store the only time step.** -/
theorem last_not_stored :
    RunsLoadSteps [.steadyState 1] .initial [[steadyAttempt]] ⟨⟨1, 1, 1, 1⟩, 0, 1⟩ ∧
      ¬ StoredAsConfigured ⟨.LastTimestep, .Never, 0, 0⟩ [[steadyAttempt]] := by
  refine ⟨runsLoadSteps_steadyState, fun h => ?_⟩
  obtain ⟨stored, hstored, hiff⟩ := h.accepted 0 0 [steadyAttempt] steadyAttempt rfl rfl
  have hfalse : steadyAttempt.handed ⟨.LastTimestep, .Never, 0, 0⟩ = some false := by
    decide +kernel
  rw [hfalse, Option.some.injEq] at hstored
  subst hstored
  exact absurd (hiff.mpr ⟨rfl, rfl⟩) Bool.false_ne_true

end Espreso.LoadStep
