import Espreso.Constraints.Duplicity

/-!
# Runs with changing Dirichlet conditions

Between two load steps `Constraints::update` replaces the Dirichlet condition, the arrays of `B1`
are cleared and assembled again, and in between the weights are updated to new stiffness matrices.
The member `_domainDirichletSize` of `Constraints` is neither cleared, nor refreshed by an assembly
without Dirichlet nodes.

* `DirichletSet`, `GluingCall`, `GluingState` — the calls of the program, on all ranks.
* **`GluingCall.correct_iff`** — a run is correct if and only if its calls meet the condition.
* **`GluingCall.not_correct_fixedDOF_noDirichlet`** — a Dirichlet condition that disappears.
-/

namespace Espreso

open Layout

/-! ## Runs with changing Dirichlet sets -/

/-- A Dirichlet condition on a mesh: the regions of every interval and degree of freedom. -/
structure DirichletSet (sys : System) where
  regions : ℕ → ℕ → List Region
  region_sorted : ∀ g dof, ∀ r ∈ regions g dof, r.nodes.Pairwise (· < ·)
  region_lt : ∀ g dof, ∀ r ∈ regions g dof, ∀ n ∈ r.nodes, n < (sys.interval g).size
  region_disjoint : ∀ g dof, ((regions g dof).flatMap Region.nodes).Nodup

namespace System

variable (sys : System)

def prescribe (D : DirichletSet sys) : System :=
  { sys with
    interval := fun g =>
      { sys.interval g with
        regions := D.regions g
        region_sorted := D.region_sorted g
        region_lt := D.region_lt g
        region_disjoint := D.region_disjoint g }
    domains_lt := sys.domains_lt
    neighbours_of_shared := sys.neighbours_of_shared }

end System

/-- The calls that change the equality constraints, with redundant multipliers and scaling. -/
inductive GluingCall (sys : System)
  /-- `Constraints::update` for a load step, and `Assembler::updateGluingMatrices` with `B1`. -/
  | assembleB1 (dirichlet : DirichletSet sys) (internalForceReduction : ℚ) (K : ℕ → ℕ → ℚ)
  /-- `Assembler::updateGluingMatrices` with `B1duplicity`: the stiffness matrices have changed. -/
  | updateDuplicity (K : ℕ → ℕ → ℚ)

/-- The ranks between two calls: the Dirichlet condition of the last `update`, and what every rank
holds. -/
structure GluingState (sys : System) where
  dirichlet : DirichletSet sys
  constraints : ℕ → Constraints
  inst : ℕ → Instance

namespace GluingCall

variable {sys : System}

/-- `updateGluingMatrices` with `B1` on one rank, after `update`: `assembleB1` on cleared arrays. -/
def assembleRank (D : DirichletSet sys) (reduction : ℚ) (K : ℕ → ℕ → ℚ) (rank : ℕ)
    (inst : Instance) : Option (Constraints × Instance) :=
  let mesh := (sys.prescribe D).mesh
  (update mesh sys.ranks sys.DOFs true rank).bind fun constraints =>
    (B1DuplicityUpdate mesh sys.ranks sys.DOFs K rank constraints
      (B1GlueElements sys.DOFs true (mesh rank) constraints
        (B1DirichletInsert sys.DOFs true reduction (mesh rank) constraints inst.resetB1))).map
      fun inst => (constraints, inst)

def onRank (st : GluingState sys) (rank : ℕ) : GluingCall sys → Option (Constraints × Instance)
  | assembleB1 D reduction K => assembleRank D reduction K rank (st.inst rank)
  | updateDuplicity K =>
    (B1DuplicityUpdate (sys.prescribe st.dirichlet).mesh sys.ranks sys.DOFs K rank
      (st.constraints rank) (st.inst rank)).map fun inst => (st.constraints rank, inst)

def dirichlet (st : GluingState sys) : GluingCall sys → DirichletSet sys
  | assembleB1 D _ _ => D
  | updateDuplicity _ => st.dirichlet

def K : GluingCall sys → ℕ → ℕ → ℚ
  | assembleB1 _ _ K => K
  | updateDuplicity K => K

def step (st : GluingState sys) (call : GluingCall sys) : Option (GluingState sys) :=
  if ∀ r < sys.ranks, (call.onRank st r).isSome then
    some ⟨call.dirichlet st, fun r => ((call.onRank st r).getD (st.constraints r, st.inst r)).1,
      fun r => ((call.onRank st r).getD (st.constraints r, st.inst r)).2⟩
  else none

/-- **The condition**: at an assembly without Dirichlet nodes, `_domainDirichletSize` is `0` for
every domain with gluing rows. -/
def Fits (st : GluingState sys) : GluingCall sys → Prop
  | assembleB1 D _ _ => ∀ r < sys.ranks, ∀ d < (sys.mesh r).ndomains,
      (sys.prescribe D).Starts r d (st.inst r)
  | updateDuplicity _ => True

def AllFit : GluingState sys → List (GluingCall sys) → Prop
  | _, [] => True
  | st, call :: calls => call.Fits st ∧ ∀ st', call.step st = some st' → AllFit st' calls

/-- Every call of a run succeeds, and leaves the right weights on every rank. -/
def Correct : GluingState sys → List (GluingCall sys) → Prop
  | _, [] => True
  | st, call :: calls => ∃ st', call.step st = some st' ∧
      (∀ r < sys.ranks, (sys.prescribe st'.dirichlet).Scaled call.K r (st'.inst r)) ∧
      Correct st' calls

end GluingCall

def GluingState.start {sys : System} (D : DirichletSet sys) : GluingState sys :=
  ⟨D, fun _ => ⟨0, 0, []⟩, fun _ => Instance.clear⟩

/-- The ranks hold the rows for the Dirichlet condition of the last `update`. -/
structure GluingState.Ready {sys : System} (st : GluingState sys) : Prop where
  constraints : ∀ r < sys.ranks,
    st.constraints r = (sys.prescribe st.dirichlet).constraints true r
  inst : ∀ r < sys.ranks, (sys.prescribe st.dirichlet).Ready r (st.inst r)

namespace GluingCall

variable {sys : System}

lemma dirichlet_of_step {st st' : GluingState sys} {call : GluingCall sys}
    (h : call.step st = some st') : st'.dirichlet = call.dirichlet st := by
  rw [step] at h
  split_ifs at h
  rw [← Option.some.inj h]

lemma step_of_onRank {st : GluingState sys} (call : GluingCall sys)
    (h : ∀ r < sys.ranks, ∃ i, call.onRank st r
        = some ((sys.prescribe (call.dirichlet st)).constraints true r, i) ∧
      (sys.prescribe (call.dirichlet st)).Scaled call.K r i ∧
      (sys.prescribe (call.dirichlet st)).Ready r i) :
    ∃ st', call.step st = some st' ∧
      (∀ r < sys.ranks, (sys.prescribe st'.dirichlet).Scaled call.K r (st'.inst r)) ∧
      st'.Ready := by
  refine ⟨_, if_pos fun r hr => ?_, fun r hr => ?_, ⟨fun r hr => ?_, fun r hr => ?_⟩⟩
  · obtain ⟨i, hi, -⟩ := h r hr
    rw [hi]
    rfl
  · obtain ⟨i, hi, hscaled, -⟩ := h r hr
    simp only [hi, Option.getD_some]
    exact hscaled
  · obtain ⟨i, hi, -⟩ := h r hr
    simp only [hi, Option.getD_some]
  · obtain ⟨i, hi, -, hready⟩ := h r hr
    simp only [hi, Option.getD_some]
    exact hready

lemma assembleRank_eq (D : DirichletSet sys) (reduction : ℚ) (K : ℕ → ℕ → ℚ) {r : ℕ}
    (hr : r < sys.ranks) (inst : Instance) :
    assembleRank D reduction K r inst
      = (B1DuplicityUpdate (sys.prescribe D).mesh sys.ranks sys.DOFs K r
          ((sys.prescribe D).constraints true r)
          ((sys.prescribe D).assembledFrom reduction r inst)).map
        fun inst => ((sys.prescribe D).constraints true r, inst) :=
  (congrArg (Option.bind · _) (System.update_eq (sys.prescribe D) true hr)).trans
    (Option.bind_some _ _)

lemma step_assembleB1 (harr : sys.Arranged) (hfit : sys.Sendable) {st : GluingState sys}
    {D : DirichletSet sys} {reduction : ℚ} {K : ℕ → ℕ → ℚ}
    (h : (assembleB1 D reduction K).Fits st) :
    ∃ st', (assembleB1 D reduction K).step st = some st' ∧
      (∀ r < sys.ranks, (sys.prescribe st'.dirichlet).Scaled K r (st'.inst r)) ∧ st'.Ready := by
  refine step_of_onRank (assembleB1 D reduction K) fun r hr => ?_
  have hready : (sys.prescribe D).Ready r ((sys.prescribe D).assembledFrom reduction r
      (st.inst r)) :=
    System.assembledFrom_ready (show r < (sys.prescribe D).ranks from hr) reduction (h r hr)
  have harr' : (sys.prescribe D).Arranged := harr
  obtain ⟨i, hi, hscaled, hready'⟩ := hready.update harr' hfit hr K
  exact ⟨i, (assembleRank_eq D reduction K hr _).trans (congrArg (Option.map _) hi), hscaled,
    hready'⟩

lemma step_assembleB1_eq_none (harr : sys.Arranged) (hfit : sys.Sendable) {st : GluingState sys}
    {D : DirichletSet sys} {reduction : ℚ} {K : ℕ → ℕ → ℚ}
    (h : ¬(assembleB1 D reduction K).Fits st) : (assembleB1 D reduction K).step st = none := by
  simp only [Fits, not_forall] at h
  obtain ⟨r, hr, d, hd, hstart⟩ := h
  refine if_neg fun hall => ?_
  have harr' : (sys.prescribe D).Arranged := harr
  have hnone : (assembleB1 D reduction K).onRank st r = none :=
    (assembleRank_eq D reduction K hr _).trans (congrArg (Option.map _)
      (System.assembledFrom_fails harr' hfit hr hd reduction K hstart))
  have hsome := hall r hr
  rw [hnone] at hsome
  exact absurd hsome (by simp)

lemma step_updateDuplicity (harr : sys.Arranged) (hfit : sys.Sendable) {st : GluingState sys}
    (hst : st.Ready) (K : ℕ → ℕ → ℚ) :
    ∃ st', (updateDuplicity K).step st = some st' ∧
      (∀ r < sys.ranks, (sys.prescribe st'.dirichlet).Scaled K r (st'.inst r)) ∧ st'.Ready := by
  refine step_of_onRank (updateDuplicity K) fun r hr => ?_
  have harr' : (sys.prescribe st.dirichlet).Arranged := harr
  obtain ⟨i, hi, hscaled, hready⟩ := (hst.inst r hr).update harr' hfit hr K
  refine ⟨i, ?_, hscaled, hready⟩
  rw [onRank, hst.constraints r hr]
  exact congrArg (Option.map _) hi

lemma correct_cons_iff {st st' : GluingState sys} {call : GluingCall sys}
    {calls : List (GluingCall sys)} (hstep : call.step st = some st')
    (hscaled : ∀ r < sys.ranks, (sys.prescribe st'.dirichlet).Scaled call.K r (st'.inst r))
    (hfits : call.Fits st) (hrest : Correct st' calls ↔ AllFit st' calls) :
    Correct st (call :: calls) ↔ AllFit st (call :: calls) := by
  constructor
  · rintro ⟨st₂, hstep₂, -, hcorrect⟩
    refine ⟨hfits, fun st₃ hst₃ => ?_⟩
    obtain rfl : st' = st₂ := Option.some.inj (hstep.symm.trans hstep₂)
    obtain rfl : st' = st₃ := Option.some.inj (hstep.symm.trans hst₃)
    exact hrest.mp hcorrect
  · exact fun h => ⟨st', hstep, hscaled, hrest.mpr (h.2 st' hstep)⟩

lemma correct_assembleB1_iff (harr : sys.Arranged) (hfit : sys.Sendable) (st : GluingState sys)
    (D : DirichletSet sys) (reduction : ℚ) (K : ℕ → ℕ → ℚ) {calls : List (GluingCall sys)}
    (hrest : ∀ {st' : GluingState sys}, st'.Ready → (Correct st' calls ↔ AllFit st' calls)) :
    Correct st (assembleB1 D reduction K :: calls)
      ↔ AllFit st (assembleB1 D reduction K :: calls) := by
  by_cases h : (assembleB1 D reduction K).Fits st
  · obtain ⟨st', hstep, hscaled, hready⟩ := step_assembleB1 harr hfit h
    exact correct_cons_iff hstep hscaled h (hrest hready)
  · have hnone := step_assembleB1_eq_none harr hfit h
    refine iff_of_false ?_ fun hall => h hall.1
    rintro ⟨st', hstep, -⟩
    exact absurd (hnone.symm.trans hstep) (by simp)

lemma correct_iff_of_ready (harr : sys.Arranged) (hfit : sys.Sendable) :
    ∀ (calls : List (GluingCall sys)) {st : GluingState sys}, st.Ready →
      (Correct st calls ↔ AllFit st calls) := by
  intro calls
  induction calls with
  | nil => exact fun _ => Iff.rfl
  | cons call calls ih =>
      intro st hst
      cases call with
      | assembleB1 D reduction K => exact correct_assembleB1_iff harr hfit st D reduction K ih
      | updateDuplicity K =>
          obtain ⟨st', hstep, hscaled, hready⟩ := step_updateDuplicity harr hfit hst K
          exact correct_cons_iff hstep hscaled trivial (ih hready)

/-- **Every run** that begins with an assembly leaves the right weights after each of its calls if
and only if at every assembly without Dirichlet nodes the member `_domainDirichletSize` is `0` for
the domains with gluing rows. -/
theorem correct_iff (harr : sys.Arranged) (hfit : sys.Sendable) (D : DirichletSet sys)
    (reduction : ℚ) (K : ℕ → ℕ → ℚ) (calls : List (GluingCall sys)) :
    Correct (GluingState.start D) (assembleB1 D reduction K :: calls)
      ↔ AllFit (GluingState.start D) (assembleB1 D reduction K :: calls) :=
  correct_assembleB1_iff harr hfit _ D reduction K (correct_iff_of_ready harr hfit calls)

end GluingCall

/-! ## The Dirichlet condition that disappears -/

lemma twoDomains_arranged : twoDomains.Arranged := by
  intro g h hgh hh
  have hh' : h < 1 := hh
  omega

lemma twoDomains_sendable : twoDomains.Sendable := fun _ _ _ hq => absurd hq List.not_mem_nil

def noDirichlet : DirichletSet twoDomains where
  regions _ _ := []
  region_sorted _ := Interval.noRegions_sorted
  region_lt _ _ := by simp
  region_disjoint _ := Interval.noRegions_disjoint

/-- The first degree of freedom of the shared node is prescribed. -/
def fixedDOF : DirichletSet twoDomains where
  regions _ dof := if dof = 0 then [⟨[0], fun _ => 0⟩] else []
  region_sorted := by
    intro g dof r hr
    split_ifs at hr with h
    · rw [List.mem_singleton.mp hr]
      exact List.pairwise_singleton _ _
    · simp at hr
  region_lt := by
    intro g dof r hr n hn
    split_ifs at hr with h
    · rw [List.mem_singleton.mp hr, List.mem_singleton] at hn
      rw [hn]
      exact Nat.zero_lt_one
    · simp at hr
  region_disjoint := by
    intro g dof
    split_ifs <;> simp

/-- A run without a Dirichlet condition is correct. -/
theorem GluingCall.correct_noDirichlet : GluingCall.Correct (GluingState.start noDirichlet)
    [.assembleB1 noDirichlet 1 fun _ _ => 1, .updateDuplicity fun _ _ => 2] :=
  (GluingCall.correct_iff twoDomains_arranged twoDomains_sendable noDirichlet 1 _ _).mpr
    ⟨fun _ _ _ _ _ _ => rfl, fun _ _ => ⟨trivial, fun _ _ => trivial⟩⟩

lemma glued_mem {D : DirichletSet twoDomains} (h : ∀ r ∈ D.regions 0 1, r.nodes = []) :
    (0, (1, 0), (0, 1)) ∈ (twoDomains.prescribe D).domainMultipliers true 0 := by
  have hnone : 0 ∉ (twoDomains.prescribe D).dirichlet 0 1 := by
    intro hmem
    obtain ⟨r, hr, hr0⟩ := List.mem_flatMap.mp (System.mem_regionNodes.mpr hmem)
    rw [h r hr] at hr0
    exact absurd hr0 List.not_mem_nil
  refine System.mem_domainMultipliers.mpr ⟨⟨Nat.zero_lt_one, Nat.one_lt_two, Nat.zero_lt_one,
    fun _ => hnone, Nat.zero_lt_one, Nat.one_lt_two, fun h => absurd h (by simp)⟩, Or.inl rfl⟩

/-- **After an assembly with a Dirichlet node** and one without, the weights are written behind the
array. -/
theorem GluingCall.not_correct_fixedDOF_noDirichlet : ¬GluingCall.Correct
    (GluingState.start fixedDOF)
    [.assembleB1 fixedDOF 1 fun _ _ => 1, .assembleB1 noDirichlet 1 fun _ _ => 1] := by
  rintro ⟨st, hstep, -, hcorrect⟩
  have hfirst : (GluingCall.assembleB1 fixedDOF 1 fun _ _ => 1).Fits
      (GluingState.start fixedDOF) := fun _ _ _ _ _ _ => rfl
  obtain ⟨st', hstep', -, hready⟩ :=
    GluingCall.step_assembleB1 twoDomains_arranged twoDomains_sendable hfirst
  obtain rfl : st = st' := Option.some.inj (hstep.symm.trans hstep')
  have hdirichlet : st.dirichlet = fixedDOF := dirichlet_of_step hstep
  have hinst := hready.inst 0 Nat.zero_lt_one
  rw [hdirichlet] at hinst
  have hcond : ((0, 0, (0, 0)) : System.Condition)
      ∈ (twoDomains.prescribe fixedDOF).domainConditions true 0 :=
    System.mem_domainConditions.mpr ⟨⟨Nat.zero_lt_one, Nat.zero_lt_two, Nat.zero_lt_two,
      List.mem_singleton_self 0⟩, rfl⟩
  have hsize : ((st.inst 0).domains 0).domainDirichletSize
      = ((twoDomains.prescribe fixedDOF).domainConditions true 0).length :=
    hinst.size 0 Nat.zero_lt_two (List.ne_nil_of_mem (glued_mem (D := fixedDOF)
    (by simp [fixedDOF])))
  have hpos := List.length_pos_of_mem hcond
  have hfree : (twoDomains.prescribe noDirichlet).dirichletSize true = 0 := by
    have hnone : ∀ dof, (twoDomains.prescribe noDirichlet).dirichlet 0 dof = [] := fun dof =>
      List.eq_nil_of_length_eq_zero ((System.length_regionNodes 0 dof).symm.trans rfl)
    have hrows : (twoDomains.prescribe noDirichlet).dirichletRows true 0 = 0 := by
      simp [System.dirichletRows, System.dsize, hnone, start]
    exact (Finset.sum_range_one _).trans hrows
  have hfits : ¬(GluingCall.assembleB1 noDirichlet 1 fun _ _ => 1).Fits st := by
    intro hfits
    have hstart := hfits 0 Nat.zero_lt_one 0 Nat.zero_lt_two hfree
      (List.ne_nil_of_mem (glued_mem (D := noDirichlet) (by simp [noDirichlet])))
    omega
  obtain ⟨st'', hstep'', -⟩ := hcorrect
  exact absurd ((step_assembleB1_eq_none twoDomains_arranged twoDomains_sendable hfits).symm.trans
    hstep'') (by simp)

end Espreso
