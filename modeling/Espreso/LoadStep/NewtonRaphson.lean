import Espreso.Assembler.SumSquares
import Espreso.LoadStep.Decomposition
import Espreso.LoadStep.LineSearch

/-!
# The Newton-Raphson method

`NewtonRaphson::solve` solves for increments: the Dirichlet values are written again in every
iteration and the current solution is subtracted from them, up to the first gluing row.

* `B1DirichletUpdate`, `addToDirichletInB1` — what is written to `B1c`.
* **`rhs_shifted`** — what is left of the right-hand side.
* **`keepsConstraints`** — it is kept if the numbers of Dirichlet rows are those of Dirichlet rows.
-/

namespace Espreso

namespace LoadStep

open Finset Assembler SumSquares Espreso.System

/-! ## The right-hand side of the constraints -/

section Gluing

variable {sys : System}

/-- `Constraints::B1DirichletUpdate` on all domains. -/
def B1DirichletUpdate (redundant : Bool) (reduction : ℚ) (B1 : Gluing sys) : Gluing sys := fun d =>
  { B1 d with
    B1c := updateDomain sys.DOFs redundant reduction
      (gintervals ConstrainedInterval.pinterval d 0
        (sys.constraints redundant (sys.rankOf d)).intervals) (B1 d).B1c }

/-- The loop over the entries in `addToDirichletInB1`. -/
def addToDirichlet (dirichlet : ℕ) (a : ℚ) (x : ℕ → ℚ) : List ℕ → List ℕ → List ℚ → List ℚ
  | row :: rows, column :: columns, c :: B1c =>
    if dirichlet < row then c :: B1c
    else (c + a * x column) :: addToDirichlet dirichlet a x rows columns B1c
  | _, _, B1c => B1c

/-- **`Assembler::addToDirichletInB1`** -/
def addToDirichletInB1 (redundant : Bool) (reduction a : ℚ) (x : Primal sys) (B1 : Gluing sys) :
    Gluing sys := fun d =>
  { B1 d with
    B1c := addToDirichlet (sys.assembled redundant reduction (sys.rankOf d)).blockDirichlet a
      (valueAt (x d)) (B1 d).I_row_indices (B1 d).J_col_indices (B1 d).B1c }

end Gluing

/-! ## The code -/

/-- The physics of a nonlinear problem: what `updateMatrix` assembles for a primal solution in the
first iteration and in the others. -/
structure NonlinearPhysics {D : ℕ} (n : Fin D → ℕ) where
  (K M : Bool → Vectors n → Matrices n)
  (f R : Bool → Vectors n → Vectors n)
  sumSquares : SumRestriction → Vectors n → ℚ

/-- `NonLinearSolverConfiguration`; `modified` is `MODIFIED_NEWTON_RAPHSON`. -/
structure NonLinearSolverConfiguration where
  (modified check_first_residual check_second_residual line_search : Bool)
  (requested_first_residual requested_second_residual : ℚ)
  max_iterations : ℕ

/-- A nonlinear problem with its solvers.  A transient load step adds a multiple of `M` to `K`, and
`M X` to `f`. -/
structure NonlinearProblem where
  sys : System
  redundant : Bool
  internalForceReduction : ℚ
  physics : NonlinearPhysics (domainDOFCount sys)
  transient : Option (ℚ × Primal sys)
  configuration : NonLinearSolverConfiguration
  linearSolver : ExactLinearSolver sys
  sqrt : ℚ → ℚ

/-- What is used of the instance and the step, with the residual of the last iteration. -/
structure NonlinearState (sys : System) where
  (K M : Matrices (domainDOFCount sys))
  (f R primalSolution dualSolution : Primal sys)
  B1 : Gluing sys
  iteration : ℕ
  temperatureResidual : ℚ

namespace NonlinearProblem

variable (P : NonlinearProblem)

/-- `updateStructuralMatrices` of the load step solvers, for `f` and some of `K` (with `M`) and
`R`. -/
def updateStructuralMatrices (K R : Bool) (s : NonlinearState P.sys) : NonlinearState P.sys :=
  let later : Bool := s.iteration ≠ 0
  let s := { s with
    K := if K then P.physics.K later s.primalSolution else s.K
    f := P.physics.f later s.primalSolution
    R := if R then P.physics.R later s.primalSolution else s.R }
  match P.transient with
  | none => s
  | some (c, X) =>
    let M := if K then P.physics.M later s.primalSolution else s.M
    { s with
      K := if K then addMatrices s.K c M else s.K
      M := M
      f := sum 1 s.f 1 (multiply M X) }

/-- `B1` of the initial solve. -/
def B1 : Gluing P.sys := assembledB1 P.sys P.redundant P.internalForceReduction

def solveSystem (s : NonlinearState P.sys) : Option (NonlinearState P.sys) :=
  (P.linearSolver.solve s.K s.B1 s.f).map fun p =>
    { s with primalSolution := p.1, dualSolution := p.2 }

def initialSolve (s : NonlinearState P.sys) : Option (NonlinearState P.sys) :=
  let s := P.updateStructuralMatrices true false { s with iteration := 0 }
  P.solveSystem
    { s with
      B1 := P.B1
      temperatureResidual := 10 * P.configuration.requested_first_residual }

def update (s : NonlinearState P.sys) : NonlinearState P.sys :=
  P.updateStructuralMatrices (!P.configuration.modified) true
    { s with iteration := s.iteration + 1 }

/-- A norm that is at least `1e-3`. -/
def clippedNorm (squares : ℚ) : ℚ :=
  if P.sqrt squares < 1 / 1000 then 1 / 1000 else P.sqrt squares

/-- The loop ends in front of the linear solver; `s.f` is `f - R` already. -/
def secondConverged (f : Primal P.sys) (s : NonlinearState P.sys) : Bool :=
  let c := P.configuration
  let second := P.clippedNorm
    (P.physics.sumSquares .NonDirichlet f + P.physics.sumSquares .Dirichlet s.R)
  let first := P.sqrt (P.physics.sumSquares .None (sum 1 s.f (-1) s.dualSolution))
  c.check_second_residual && first / second < c.requested_second_residual && 1 < s.iteration
    && (!c.check_first_residual || s.temperatureResidual < c.requested_first_residual)

def search (solution f_ext : Primal P.sys) (s : NonlinearState P.sys) :
    Option (NonlinearState P.sys) :=
  if P.configuration.line_search then
    (lineSearch ⟨P.physics.R true, s.f, solution, true⟩
      ⟨s.primalSolution, s.R, s.primalSolution, f_ext⟩).map fun p =>
        { s with primalSolution := p.2.primalSolution, R := p.2.R }
  else some s

/-- The end of an iteration: `U = delta U + U`, with the test of the first residual. -/
def addSolution (solution : Primal P.sys) (s : NonlinearState P.sys) :
    NonlinearState P.sys × Bool :=
  let c := P.configuration
  let first := P.sqrt (P.physics.sumSquares .None s.primalSolution)
  let s := { s with primalSolution := sum 1 s.primalSolution 1 solution }
  if c.check_first_residual then
    let s := { s with
      temperatureResidual := first / P.clippedNorm (P.physics.sumSquares .None s.primalSolution) }
    (s, s.temperatureResidual ≤ c.requested_first_residual && !c.check_second_residual)
  else (s, false)

/-- **One iteration** of `NewtonRaphson::solve`, with whether the loop ends. -/
def iteration (s : NonlinearState P.sys) : Option (NonlinearState P.sys × Bool) :=
  let solution := s.primalSolution
  let s := P.update s
  let f_ext := s.f
  let s := { s with f := sum 1 s.f (-1) s.R }
  if P.secondConverged f_ext s then some (s, true)
  else do
    let B1 := B1DirichletUpdate P.redundant P.internalForceReduction s.B1
    let B1 := addToDirichletInB1 P.redundant P.internalForceReduction (-1) s.primalSolution B1
    let s ← P.solveSystem { s with B1 := B1 }
    let s ← P.search solution f_ext s
    some (P.addSolution solution s)

def loop : ℕ → NonlinearState P.sys → Option (NonlinearState P.sys)
  | 0, s => some s
  | k + 1, s => do
    let next ← P.iteration s
    if next.2 then some next.1 else loop k next.1

/-- **`NewtonRaphson::solve`** -/
def solve (s : NonlinearState P.sys) : Option (NonlinearState P.sys) :=
  if !P.configuration.check_first_residual && !P.configuration.check_second_residual then none
  else do
    let s ← P.initialSolve s
    P.loop P.configuration.max_iterations s

/-! ## What is expected -/

/-- The states after the initial solve and after the iterations. -/
inductive Visited (s₀ : NonlinearState P.sys) : NonlinearState P.sys → Prop
  | initial {s} : P.initialSolve s₀ = some s → Visited s₀ s
  | next {s p} : Visited s₀ s → P.iteration s = some p → Visited s₀ p.1

/-- `f(U) - R(U) - Bᵀ lambda = 0` on every domain. -/
def Balanced (s : NonlinearState P.sys) : Prop :=
  sum 1 (P.update s).f (-1) (P.update s).R = s.dualSolution

/-- **The prescribed constraints hold** in all states that are visited, and an iteration changes
nothing in a balanced state. -/
def KeepsConstraints : Prop :=
  ∀ s₀ s, P.Visited s₀ s →
    apply P.B1 s.primalSolution = rhs P.B1 ∧
      ∀ p, P.iteration s = some p → P.Balanced s →
        p.1.primalSolution = s.primalSolution ∧ P.Balanced p.1

lemma loop_visited {s₀ : NonlinearState P.sys} : ∀ (k : ℕ) {s t : NonlinearState P.sys},
    P.Visited s₀ s → P.loop k s = some t → P.Visited s₀ t := by
  intro k
  induction k with
  | zero =>
      rintro s t hs h
      exact Option.some.inj h ▸ hs
  | succ k ih =>
      intro s t hs h
      rw [loop, Option.bind_eq_bind, Option.bind_eq_some_iff] at h
      obtain ⟨next, hnext, h⟩ := h
      have hvisited := hs.next hnext
      split_ifs at h with hstop
      · exact Option.some.inj h ▸ hvisited
      · exact ih hvisited h

lemma solve_visited {s₀ t : NonlinearState P.sys} (h : P.solve s₀ = some t) : P.Visited s₀ t := by
  rw [solve] at h
  split_ifs at h
  rw [Option.bind_eq_bind, Option.bind_eq_some_iff] at h
  obtain ⟨s, hs, h⟩ := h
  exact P.loop_visited _ (.initial hs) h

end NonlinearProblem

/-! ## What is left of the right-hand side -/

section Assembled

variable {sys : System} {redundant : Bool} {reduction : ℚ} {k : ℕ}

lemma addToDirichlet_eq {dirichlet : ℕ} {gs : List Entry} (hgs : ∀ e ∈ gs, dirichlet < e.row)
    (a : ℚ) (x : ℕ → ℚ) (tail : List ℚ) : ∀ (ds : List Entry) (values : List ℚ),
    (∀ e ∈ ds, e.row ≤ dirichlet) → values.length = ds.length →
      addToDirichlet dirichlet a x ((ds ++ gs).map Entry.row) ((ds ++ gs).map Entry.col)
          (values ++ tail)
        = List.zipWith (fun e c => c + a * x e.col) ds values ++ tail := by
  intro ds
  induction ds with
  | nil =>
      intro values _ hlength
      obtain rfl := List.length_eq_zero_iff.mp hlength
      cases gs with
      | nil => rfl
      | cons e gs =>
          cases tail with
          | nil => rfl
          | cons c tail => exact if_pos (hgs e List.mem_cons_self)
  | cons e ds ih =>
      intro values hds hlength
      obtain ⟨c, values, rfl⟩ := List.exists_cons_of_length_eq_add_one hlength
      have hrest := ih values (fun e he => hds e (List.mem_cons_of_mem _ he))
        (Nat.succ.inj hlength)
      exact (if_neg (hds e List.mem_cons_self).not_gt).trans (congrArg _ hrest)

lemma rowValues_shifted (x : Fin k → ℚ) (r : ℕ) : ∀ (ds : List Entry) (values : List ℚ),
    (∀ e ∈ ds, e.value = 1) → values.length = ds.length →
      rowValues (ds.map Entry.row)
          (List.zipWith (fun e c => c + -1 * valueAt x e.col) ds values) r
        = rowValues (ds.map Entry.row) values r - rowProduct ds x r := by
  intro ds
  induction ds with
  | nil => exact fun _ _ _ => (sub_zero _).symm
  | cons e ds ih =>
      intro values hds hlength
      obtain ⟨c, values, rfl⟩ := List.exists_cons_of_length_eq_add_one hlength
      have hrest := ih values (fun e he => hds e (List.mem_cons_of_mem _ he))
        (Nat.succ.inj hlength)
      simp only [rowValues, rowProduct] at hrest
      simp only [rowValues, rowProduct, List.map_cons, List.zipWith_cons_cons, List.zip_cons_cons,
        List.sum_cons, hrest, hds e List.mem_cons_self]
      split_ifs
      · ring
      · ring

/-- **The numbers of the Dirichlet rows** are not larger than the number of these rows. -/
def RowsInside (sys : System) (redundant : Bool) : Prop :=
  ∀ m ∈ sys.conditions redundant, sys.insertedRow redundant m ≤ sys.dirichletSize redundant

lemma rowsInside (h : redundant = false → ∀ g < sys.count, 2 ≤ sys.ndomains g → ∀ dof < sys.DOFs,
    ∀ dof' < sys.DOFs, sys.dirichlet g dof ≠ [] → sys.dirichlet g dof' ≠ [] → dof = dof') :
    RowsInside sys redundant := fun m hm => by
  rw [← insertedRow_eqOn h hm]
  exact ((dirichletRow_bijOn sys redundant).mapsTo hm).2

lemma dirichlet_inside (h : RowsInside sys redundant) {d : ℕ} :
    ∀ e ∈ dirichletEntries sys redundant d, e.row ≤ sys.dirichletSize redundant := by
  intro e he
  obtain ⟨m, hm, rfl⟩ := List.mem_map.mp he
  exact h m (mem_domainConditions.mp hm).1

/-- The arrays of `B1` with other values of the Dirichlet rows. -/
def Rewritten (redundant : Bool) (reduction : ℚ) (B1 : Gluing sys) : Prop :=
  ∀ d : Fin sys.domains, ∃ values : List ℚ,
    values.length = (dirichletEntries sys redundant d).length ∧
    B1 d = { assembledB1 sys redundant reduction d with
      B1c := values ++ (assembledB1 sys redundant reduction d).B1c.drop
        (dirichletEntries sys redundant d).length }

lemma length_dirichletEntries (d : ℕ) : (dirichletEntries sys redundant d).length
    = (sys.domainConditions redundant d).length := List.length_map _

lemma Arrays.drop_B1c {d : Fin sys.domains} {i : DomainInstance} {values : List ℚ}
    (h : Arrays redundant d i values) :
    i.B1c = values ++ i.B1c.drop (dirichletEntries sys redundant d).length ∧
      ∀ c ∈ i.B1c.drop (dirichletEntries sys redundant d).length, c = 0 := by
  obtain ⟨tail, hzero, htail⟩ := h.B1c
  rw [htail, ← h.length, List.drop_left]
  exact ⟨rfl, hzero⟩

lemma rewritten_assembledB1 (redundant : Bool) (reduction : ℚ) :
    Rewritten redundant reduction (assembledB1 sys redundant reduction) := by
  intro d
  have harrays := arrays_assembled redundant reduction d
  exact ⟨_, harrays.length, by rw [← harrays.drop_B1c.1]⟩

lemma B1DirichletUpdate_eq {B1 : Gluing sys} (h : Rewritten redundant reduction B1) :
    B1DirichletUpdate redundant reduction B1 = assembledB1 sys redundant reduction := by
  funext d
  obtain ⟨values, hlength, heq⟩ := h d
  obtain ⟨hr, hle, hlt⟩ := rankOf_spec d.isLt
  have hd : d - sys.distribution.border (sys.rankOf d) < (sys.mesh (sys.rankOf d)).ndomains := by
    simp only [mesh]
    omega
  have hgintervals : gintervals ConstrainedInterval.pinterval _ 0
      (sys.constraints redundant (sys.rankOf d)).intervals = _ := gintervals_gluing hr hd
  rw [Nat.add_sub_cancel' hle] at hgintervals
  rw [B1DirichletUpdate, hgintervals, updateDomain_eq, heq, ← length_dirichletEntries, ← hlength,
    List.drop_left, hlength, ← (arrays_assembled redundant reduction d).drop_B1c.1]

section Shifted

variable (hrows : RowsInside sys redundant) (x : Primal sys)

include hrows

lemma shifted_B1c (d : Fin sys.domains) :
    (addToDirichletInB1 redundant reduction (-1) x (assembledB1 sys redundant reduction) d).B1c
      = List.zipWith (fun e c => c + -1 * valueAt (x d) e.col) (dirichletEntries sys redundant d)
          ((sys.domainConditions redundant d).map (sys.conditionValue reduction))
        ++ (assembledB1 sys redundant reduction d).B1c.drop
          (dirichletEntries sys redundant d).length := by
  have harrays := arrays_assembled redundant reduction d
  have hJ : (assembledB1 sys redundant reduction d).J_col_indices
      = (dirichletEntries sys redundant d ++ gluingEntries sys redundant d).map Entry.col :=
    harrays.grows.cols
  rw [addToDirichletInB1, blockDirichlet_eq, rows_assembled, hJ, harrays.drop_B1c.1,
    addToDirichlet_eq gluing_behind _ _ _ _ _ (dirichlet_inside hrows) harrays.length,
    ← harrays.drop_B1c.1]

lemma rewritten_shifted : Rewritten redundant reduction
    (addToDirichletInB1 redundant reduction (-1) x (assembledB1 sys redundant reduction)) := by
  intro d
  refine ⟨_, ?_, congrArg (fun c => { assembledB1 sys redundant reduction d with B1c := c })
    (shifted_B1c hrows x d)⟩
  rw [List.length_zipWith, (arrays_assembled redundant reduction d).length, min_self]

/-- **Nothing is left of the right-hand side** if the current solution meets the constraints. -/
theorem rhs_shifted
    (hx : apply (assembledB1 sys redundant reduction) x = rhs (assembledB1 sys redundant reduction)) :
    rhs (addToDirichletInB1 redundant reduction (-1) x (assembledB1 sys redundant reduction)) = 0 := by
  have hvalues : ∀ (d : Fin sys.domains) r,
      rowValues (assembledB1 sys redundant reduction d).I_row_indices
          (addToDirichletInB1 redundant reduction (-1) x (assembledB1 sys redundant reduction) d).B1c r
        = rowValues (assembledB1 sys redundant reduction d).I_row_indices
            (assembledB1 sys redundant reduction d).B1c r
          - rowProduct (dirichletEntries sys redundant d) (x d) r := by
    intro d r
    have harrays := arrays_assembled redundant reduction d
    obtain ⟨htail, hzero⟩ := harrays.drop_B1c
    have hlength := harrays.length
    rw [shifted_B1c hrows, rows_assembled, List.map_append, rowValues_append _ _ hzero,
      rowValues_shifted _ _ _ _ dirichlet_one hlength, htail, rowValues_append _ _ hzero]
    · rw [hlength, List.length_map]
    · rw [List.length_zipWith, hlength, min_self, List.length_map]
  funext r
  refine (sum_congr rfl fun d _ => hvalues d r).trans ?_
  by_cases hr : r ≤ sys.dirichletSize redundant
  · -- the gluing rows are behind this row
    have hproduct : ∀ d : Fin sys.domains,
        rowProduct (dirichletEntries sys redundant d) (x d) r
          = rowProduct (entries (assembledB1 sys redundant reduction d)) (x d) r := by
      intro d
      rw [entries_eq (arrays_assembled redundant reduction d).grows, rowProduct_append,
        rowProduct_eq_zero (fun e he => (hr.trans_lt (gluing_behind e he)).ne'), add_zero]
    simp only [hproduct, sum_sub_distrib]
    exact sub_eq_zero.mpr (congrFun hx r).symm
  · -- the row is a gluing row
    refine sum_eq_zero fun d _ => ?_
    have hbehind : ∀ e ∈ dirichletEntries sys redundant d, e.row ≠ r := fun e he =>
      ((dirichlet_inside hrows e he).trans_lt (not_le.mp hr)).ne
    have harrays := arrays_assembled redundant reduction d
    obtain ⟨htail, hzero⟩ := harrays.drop_B1c
    rw [rowProduct_eq_zero hbehind, rows_assembled, List.map_append, htail, rowValues_append _ _ hzero,
      rowValues_eq_zero, sub_zero]
    · intro row hrow
      obtain ⟨e, he, rfl⟩ := List.mem_map.mp hrow
      exact hbehind e he
    · rw [harrays.length, List.length_map]

end Shifted

end Assembled

/-! ## The run -/

namespace NonlinearProblem

variable {P : NonlinearProblem}

lemma update_B1 (s : NonlinearState P.sys) : (P.update s).B1 = s.B1 := by
  rw [update, updateStructuralMatrices]
  cases P.transient <;> rfl

lemma update_dualSolution (s : NonlinearState P.sys) :
    (P.update s).dualSolution = s.dualSolution := by
  rw [update, updateStructuralMatrices]
  cases P.transient <;> rfl

lemma update_primalSolution (s : NonlinearState P.sys) :
    (P.update s).primalSolution = s.primalSolution := by
  rw [update, updateStructuralMatrices]
  cases P.transient <;> rfl

lemma update_R (s : NonlinearState P.sys) :
    (P.update s).R = P.physics.R true s.primalSolution := by
  rw [update, updateStructuralMatrices]
  cases P.transient <;> simp

/-- **The residual** is a function of the primal solution and, in a transient load step, `M`. -/
lemma update_f_congr {s t : NonlinearState P.sys} (hprimal : t.primalSolution = s.primalSolution)
    (hM : t.M = (P.update s).M) : (P.update t).f = (P.update s).f := by
  rw [update, updateStructuralMatrices] at hM
  rw [update, update, updateStructuralMatrices, updateStructuralMatrices]
  cases htransient : P.transient with
  | none => simp [hprimal]
  | some q => cases hmodified : P.configuration.modified <;> simp_all

lemma search_spec {solution f_ext : Primal P.sys} {s s' : NonlinearState P.sys}
    (hf : s.f = sum 1 f_ext (-1) (P.physics.R true solution))
    (h : P.search solution f_ext s = some s') :
    (∃ factor : ℚ, s'.primalSolution = fun d i => factor * s.primalSolution d i) ∧
      s'.M = s.M ∧ s'.dualSolution = s.dualSolution ∧ s'.B1 = s.B1 := by
  rw [search] at h
  split_ifs at h
  · obtain ⟨factor, m, hsearch, hreturned⟩ := lineSearch_returns
      (show LineSearch.Prepared ⟨P.physics.R true, s.f, solution, true⟩
        ⟨s.primalSolution, s.R, s.primalSolution, f_ext⟩ from hf)
    rw [hsearch] at h
    obtain rfl := Option.some.inj h
    exact ⟨⟨factor, hreturned.deltaU⟩, rfl, rfl, rfl⟩
  · obtain rfl := Option.some.inj h
    exact ⟨⟨1, by simp only [one_mul]⟩, rfl, rfl, rfl⟩

lemma addSolution_spec (solution : Primal P.sys) (s : NonlinearState P.sys) :
    (P.addSolution solution s).1.primalSolution = sum 1 s.primalSolution 1 solution ∧
      (P.addSolution solution s).1.M = s.M ∧
      (P.addSolution solution s).1.dualSolution = s.dualSolution ∧
      (P.addSolution solution s).1.B1 = s.B1 := by
  rw [addSolution]
  dsimp only
  split_ifs <;> exact ⟨rfl, rfl, rfl, rfl⟩

variable (P) in
/-- `B1` of the system for the increment. -/
def shiftedB1 (s : NonlinearState P.sys) : Gluing P.sys :=
  addToDirichletInB1 P.redundant P.internalForceReduction (-1) s.primalSolution P.B1

/-- **What one iteration does**: it ends the loop, or it adds a multiple of an increment. -/
lemma iteration_spec {s : NonlinearState P.sys} {p : NonlinearState P.sys × Bool}
    (hB1 : Rewritten P.redundant P.internalForceReduction s.B1) (h : P.iteration s = some p) :
    p.1.M = (P.update s).M ∧
    ((p.1.primalSolution = s.primalSolution ∧ p.1.dualSolution = s.dualSolution ∧
        p.1.B1 = s.B1) ∨
      ∃ t factor, P.linearSolver.solve (P.update s).K (P.shiftedB1 s)
          (sum 1 (P.update s).f (-1) (P.update s).R) = some t ∧
        p.1.primalSolution = sum factor t.1 1 s.primalSolution ∧ p.1.dualSolution = t.2 ∧
        p.1.B1 = P.shiftedB1 s) := by
  rw [iteration] at h
  dsimp only at h
  split_ifs at h
  · obtain rfl := Option.some.inj h
    exact ⟨rfl, Or.inl ⟨update_primalSolution s, update_dualSolution s, update_B1 s⟩⟩
  · rw [update_B1, update_primalSolution, B1DirichletUpdate_eq hB1, Option.bind_eq_bind,
      Option.bind_eq_some_iff] at h
    obtain ⟨solved, hsolved, h⟩ := h
    rw [Option.bind_eq_some_iff] at h
    obtain ⟨searched, hsearched, h⟩ := h
    obtain ⟨t, ht, rfl⟩ := Option.map_eq_some_iff.mp hsolved
    obtain ⟨⟨factor, hfactor⟩, hM, hdual, hsearchedB1⟩ := search_spec
      (congrArg (sum 1 (P.update s).f (-1)) (update_R s)) hsearched
    obtain ⟨hprimal', hM', hdual', hB1'⟩ := addSolution_spec s.primalSolution searched
    obtain rfl := Option.some.inj h
    refine ⟨hM'.trans hM, Or.inr ⟨t, factor, ht, ?_, hdual'.trans hdual, hB1'.trans hsearchedB1⟩⟩
    rw [hprimal', hfactor]
    funext d i
    simp only [sum, one_mul]

/-- **What holds in all states that are visited.** -/
structure Invariant (s : NonlinearState P.sys) : Prop where
  constraints : apply P.B1 s.primalSolution = rhs P.B1
  dual : ∃ lambda, s.dualSolution = applyTransposed P.B1 lambda
  rewritten : Rewritten P.redundant P.internalForceReduction s.B1

lemma initial_invariant {s₀ s : NonlinearState P.sys} (h : P.initialSolve s₀ = some s) :
    Invariant s := by
  obtain ⟨t, ht, rfl⟩ := Option.map_eq_some_iff.mp h
  obtain ⟨⟨hconstraints, hdual, -⟩, -⟩ := P.linearSolver.solves ht
  exact ⟨hconstraints, hdual, rewritten_assembledB1 _ _⟩

section Step

variable (hrows : RowsInside P.sys P.redundant)

include hrows

lemma increment_spec {s : NonlinearState P.sys} (hs : Invariant s)
    {K : Matrices (domainDOFCount P.sys)} {f : Primal P.sys} {t : Primal P.sys × Primal P.sys}
    (ht : IsSolution K (P.shiftedB1 s) f t) : apply P.B1 t.1 = 0 :=
  ht.1.trans (rhs_shifted hrows s.primalSolution hs.constraints)

lemma Invariant.step {s : NonlinearState P.sys} (hs : Invariant s)
    {p : NonlinearState P.sys × Bool} (h : P.iteration s = some p) : Invariant p.1 := by
  obtain ⟨-, ⟨hprimal, hdual, hB1⟩ | ⟨t, factor, ht, hprimal, hdual, hB1⟩⟩ :=
    iteration_spec hs.rewritten h
  · exact ⟨hprimal ▸ hs.constraints, hdual ▸ hs.dual, hB1 ▸ hs.rewritten⟩
  · have hsolution := (P.linearSolver.solves ht).1
    refine ⟨?_, hdual ▸ hsolution.2.1, hB1 ▸ rewritten_shifted hrows s.primalSolution⟩
    funext r
    rw [hprimal, apply_sum, increment_spec hrows hs hsolution, hs.constraints, Pi.zero_apply,
      mul_zero, zero_add, one_mul]

lemma Visited.invariant {s₀ s : NonlinearState P.sys} (h : P.Visited s₀ s) : Invariant s := by
  induction h with
  | initial h => exact initial_invariant h
  | next _ h ih => exact ih.step hrows h

lemma Invariant.balanced {s : NonlinearState P.sys} (hs : Invariant s)
    {p : NonlinearState P.sys × Bool} (h : P.iteration s = some p) (hbalanced : P.Balanced s) :
    p.1.primalSolution = s.primalSolution ∧ P.Balanced p.1 := by
  obtain ⟨hM, hcases⟩ := iteration_spec hs.rewritten h
  have hresidual (hprimal : p.1.primalSolution = s.primalSolution) :
      sum 1 (P.update p.1).f (-1) (P.update p.1).R = s.dualSolution := by
    rw [update_f_congr hprimal hM, update_R, hprimal, ← update_R]
    exact hbalanced
  obtain ⟨hprimal, hdual, -⟩ | ⟨t, factor, ht, hprimal, hdual, -⟩ := hcases
  · exact ⟨hprimal, (hresidual hprimal).trans hdual.symm⟩
  · rw [hbalanced] at ht
    obtain ⟨hsolution, hunique⟩ := P.linearSolver.solves ht
    obtain ⟨lambda, hlambda⟩ := hs.dual
    have hzero : (0 : Primal P.sys) = t.1 := by
      refine hunique (0, s.dualSolution) ⟨?_, ⟨lambda, hlambda⟩, ?_⟩
      · exact (apply_zero _).trans (rhs_shifted hrows s.primalSolution hs.constraints).symm
      · funext d i
        simp [sum, multiply]
    have hsame : p.1.primalSolution = s.primalSolution := by
      rw [hprimal, ← hzero]
      funext d i
      simp [sum]
    refine ⟨hsame, (hresidual hsame).trans ?_⟩
    rw [hdual, ← hsolution.2.2, ← hzero]
    funext d i
    simp [sum, multiply]

end Step

section Linear

variable {P : NonlinearProblem}

/-- A stationary problem with a constant matrix and constant forces. -/
structure Linear (P : NonlinearProblem) (K : Matrices (domainDOFCount P.sys)) (f : Primal P.sys) :
    Prop where
  stationary : P.transient = none
  K_eq : ∀ tangent U, P.physics.K tangent U = K
  f_eq : ∀ tangent U, P.physics.f tangent U = f
  R_eq : ∀ tangent U, P.physics.R tangent U = multiply K U

/-- **Every state is a solution** of the linear system, with the multipliers of its residual. -/
lemma Linear.isSolution {K : Matrices (domainDOFCount P.sys)} {f : Primal P.sys} (h : P.Linear K f)
    (hrows : RowsInside P.sys P.redundant) {s₀ s : NonlinearState P.sys} (hs : P.Visited s₀ s) :
    IsSolution K P.B1 f (s.primalSolution, s.dualSolution) := by
  have hupdate : ∀ t : NonlinearState P.sys, sum 1 (P.update t).f (-1) (P.update t).R
      = sum 1 f (-1) (multiply K t.primalSolution) := fun t => by
    rw [update_R, h.R_eq, update, updateStructuralMatrices, h.stationary, ← h.f_eq]
  have hbalanced : ∀ t : NonlinearState P.sys, P.Balanced t ↔
      sum 1 (multiply K t.primalSolution) 1 t.dualSolution = f := fun t => by
    rw [Balanced, hupdate]
    exact residual_iff
  refine ⟨(Visited.invariant hrows hs).constraints, (Visited.invariant hrows hs).dual, ?_⟩
  induction hs with
  | initial hinit =>
      obtain ⟨t, ht, rfl⟩ := Option.map_eq_some_iff.mp hinit
      have hsum := (P.linearSolver.solves ht).1.2.2
      rwa [updateStructuralMatrices, h.stationary, if_pos rfl, h.K_eq, h.f_eq] at hsum
  | next hs hnext ih =>
      exact (hbalanced _).mp
        ((Visited.invariant hrows hs).balanced hrows hnext ((hbalanced _).mpr ih)).2

/-- **On a linear problem** with redundant multipliers, `NewtonRaphson::solve` visits nothing but
the solution of the global problem, and returns it. -/
theorem solves_global {K : Matrices (domainDOFCount P.sys)} {f : Primal P.sys} (h : P.Linear K f)
    (hredundant : P.redundant = true) (s₀ : NonlinearState P.sys) :
    (∀ s, P.Visited s₀ s → ∃ X,
        SolvesGlobal K f (scaledValue P.sys P.internalForceReduction) X s.primalSolution) ∧
      ∀ s, P.solve s₀ = some s → ∃ X,
        SolvesGlobal K f (scaledValue P.sys P.internalForceReduction) X s.primalSolution := by
  have hvisited : ∀ s, P.Visited s₀ s → ∃ X,
      SolvesGlobal K f (scaledValue P.sys P.internalForceReduction) X s.primalSolution := by
    intro s hs
    have hrows : RowsInside P.sys P.redundant := rowsInside fun hfalse =>
      absurd (hredundant.symm.trans hfalse) Bool.true_eq_false.mp
    have hsolution := h.isSolution hrows hs
    rw [B1, hredundant] at hsolution
    exact hsolution.solvesGlobal
  exact ⟨hvisited, fun s hs => hvisited s (P.solve_visited hs)⟩

end Linear

end NonlinearProblem

/-! ## Two prescribed degrees of freedom -/

open Classical in
/-- The exact linear solver that solves all systems with one primal solution. -/
noncomputable def ExactLinearSolver.classical (sys : System) : ExactLinearSolver sys where
  solve K B1 f :=
    if h : ∃ s, IsSolution K B1 f s ∧ ∀ t, IsSolution K B1 f t → t.1 = s.1 then some h.choose
    else none
  solves {K B1 f s} h := by
    split_ifs at h with hexists
    exact Option.some.inj h ▸ hexists.choose_spec

lemma ExactLinearSolver.classical_solve {sys : System} {K : Matrices (domainDOFCount sys)}
    {B1 : Gluing sys} {f : Primal sys} {s : Primal sys × Primal sys} (hs : IsSolution K B1 f s)
    (hunique : ∀ t t', IsSolution K B1 f t → IsSolution K B1 f t' → t.1 = t'.1) :
    ∃ t, (classical sys).solve K B1 f = some t ∧ t.1 = s.1 := by
  have hexists : ∃ s, IsSolution K B1 f s ∧ ∀ t, IsSolution K B1 f t → t.1 = s.1 :=
    ⟨s, hs, fun t ht => hunique t s ht hs⟩
  exact ⟨_, dif_pos hexists, hunique _ _ hexists.choose_spec.1 hs⟩

namespace TwoValues

/-- A node of two domains; both degrees of freedom are prescribed to be one. -/
def sys : System :=
  { twoDomains with
    interval := fun _ =>
      { twoDomains.interval 0 with
        regions := fun _ => [⟨[0], fun _ => 1⟩]
        region_sorted := by simp
        region_lt := by simp [twoDomains]
        region_disjoint := by simp } }

def vector (a b c e : ℚ) : Primal sys := fun d i =>
  if d.val = 0 then if i.val = 0 then a else b else if i.val = 0 then c else e

/-- `K` is the identity, `R` is `K U` and there are no forces. -/
noncomputable def problem (redundant : Bool) : NonlinearProblem where
  sys := sys
  redundant := redundant
  internalForceReduction := 1
  physics := ⟨fun _ _ => 1, fun _ _ => 0, fun _ _ => 0, fun _ U => U, fun _ _ => 0⟩
  transient := none
  configuration := ⟨false, true, false, false, 0, 0, 1⟩
  linearSolver := ExactLinearSolver.classical sys
  sqrt := fun _ => 0

def first : Fin sys.domains := ⟨0, by decide⟩

def second : Fin sys.domains := ⟨1, by decide⟩

lemma entries_first : entries (assembledB1 sys false 1 first)
    = [⟨1, 1, 1⟩, ⟨3, 2, 1⟩, ⟨3, 1, 1⟩, ⟨4, 2, 1⟩] := by decide +kernel

lemma entries_second : entries (assembledB1 sys false 1 second) = [⟨3, 1, -1⟩, ⟨4, 2, -1⟩] := by
  decide +kernel

lemma sum_domains (g : Fin sys.domains → ℚ) : ∑ d, g d = g first + g second :=
  Fin.sum_univ_two (fun d : Fin 2 => g d)

lemma domainDOFCount_eq : ∀ d, domainDOFCount sys d = 2 := by decide

lemma ext {x y : Primal sys} (h₁ : valueAt (x first) 1 = valueAt (y first) 1)
    (h₂ : valueAt (x first) 2 = valueAt (y first) 2)
    (h₃ : valueAt (x second) 1 = valueAt (y second) 1)
    (h₄ : valueAt (x second) 2 = valueAt (y second) 2) : x = y := by
  funext d i
  have hvalue : ∀ z : Primal sys, z d i = valueAt (z d) (i + 1) := fun z => by
    rw [valueAt, dif_pos (show i.val + 1 - 1 < _ from i.isLt)]
    rfl
  have hi : i.val = 0 ∨ i.val = 1 := by
    have := i.isLt
    have := domainDOFCount_eq d
    omega
  have hd : d = first ∨ d = second := (by decide : ∀ d, d = first ∨ d = second) d
  rw [hvalue x, hvalue y]
  rcases hd with rfl | rfl <;> rcases hi with hi | hi <;> rw [hi]
  · exact h₁
  · exact h₂
  · exact h₃
  · exact h₄

section System

variable {B1 : Gluing sys} (hB1 : ∀ d, entries (B1 d) = entries (assembledB1 sys false 1 d))

include hB1

lemma apply_eq (x : Primal sys) (r : ℕ) :
    apply B1 x r = (if r = 1 then valueAt (x first) 1 else 0)
      + (if r = 3 then valueAt (x first) 2 + valueAt (x first) 1 - valueAt (x second) 1 else 0)
      + (if r = 4 then valueAt (x first) 2 - valueAt (x second) 2 else 0) := by
  rw [apply, sum_domains, hB1, hB1, entries_first, entries_second]
  simp only [rowProduct, List.map_cons, List.map_nil, List.sum_cons, List.sum_nil, eq_comm]
  split_ifs <;> first | omega | ring

lemma residual_eq (x : Primal sys) (lambda : ℕ → ℚ) :
    let y := sum 1 (multiply (fun _ => 1) x) 1 (applyTransposed B1 lambda)
    valueAt (y first) 1 = valueAt (x first) 1 + (lambda 1 + lambda 3) ∧
      valueAt (y first) 2 = valueAt (x first) 2 + (lambda 3 + lambda 4) ∧
      valueAt (y second) 1 = valueAt (x second) 1 - lambda 3 ∧
      valueAt (y second) 2 = valueAt (x second) 2 - lambda 4 := by
  intro y
  have hsum : ∀ d column, 0 < column → column ≤ 2 →
      valueAt (y d) column = valueAt (x d) column
        + ((entries (assembledB1 sys false 1 d)).map fun e =>
          if e.col - 1 = column - 1 then e.value * lambda e.row else 0).sum := by
    intro d column hpos hle
    have hlt : column - 1 < domainDOFCount sys d := by
      rw [domainDOFCount_eq]
      omega
    simp only [valueAt, dif_pos hlt, y, sum, multiply, Matrix.one_mulVec, one_mul, applyTransposed,
      hB1]
  refine ⟨?_, ?_, ?_, ?_⟩ <;>
    rw [hsum _ _ (by decide) (by decide)] <;>
    simp [entries_first, entries_second] <;> ring

lemma unique {f : Primal sys} (s t : Primal sys × Primal sys)
    (hs : IsSolution (fun _ => 1) B1 f s) (ht : IsSolution (fun _ => 1) B1 f t) : s.1 = t.1 := by
  obtain ⟨hsrows, ⟨lambda, hlambda⟩, hsf⟩ := hs
  obtain ⟨htrows, ⟨mu, hmu⟩, htf⟩ := ht
  obtain ⟨hs₁, hs₂, hs₃, hs₄⟩ := residual_eq hB1 s.1 lambda
  obtain ⟨ht₁, ht₂, ht₃, ht₄⟩ := residual_eq hB1 t.1 mu
  rw [← hlambda, hsf] at hs₁ hs₂ hs₃ hs₄
  rw [← hmu, htf] at ht₁ ht₂ ht₃ ht₄
  have hrow : ∀ r, apply B1 s.1 r = apply B1 t.1 r := fun r =>
    (congrFun hsrows r).trans (congrFun htrows r).symm
  have h₁ := hrow 1
  have h₃ := hrow 3
  have h₄ := hrow 4
  simp only [apply_eq hB1] at h₁ h₃ h₄
  norm_num at h₁ h₃ h₄
  exact ext (by linarith) (by linarith) (by linarith) (by linarith)

lemma solve_eq (hI : ∀ d, (B1 d).I_row_indices = (assembledB1 sys false 1 d).I_row_indices) {c : ℚ}
    (hfirst : (B1 first).B1c = [c, 1, 0, 0]) (hsecond : (B1 second).B1c = [0, 0]) {f x : Primal sys}
    (lambda : ℕ → ℚ) (h₁ : valueAt (x first) 1 + (lambda 1 + lambda 3) = valueAt (f first) 1)
    (h₂ : valueAt (x first) 2 + (lambda 3 + lambda 4) = valueAt (f first) 2)
    (h₃ : valueAt (x second) 1 - lambda 3 = valueAt (f second) 1)
    (h₄ : valueAt (x second) 2 - lambda 4 = valueAt (f second) 2)
    (hrow₁ : valueAt (x first) 1 = c)
    (hrow₃ : valueAt (x first) 2 + valueAt (x first) 1 - valueAt (x second) 1 = 1)
    (hrow₄ : valueAt (x first) 2 - valueAt (x second) 2 = 0) :
    ∃ t, (ExactLinearSolver.classical sys).solve (fun _ => 1) B1 f = some t ∧ t.1 = x := by
  have hrows : (assembledB1 sys false 1 first).I_row_indices = [1, 3, 3, 4] := by decide +kernel
  have hrows' : (assembledB1 sys false 1 second).I_row_indices = [3, 4] := by decide +kernel
  have hrhs : apply B1 x = rhs B1 := by
    funext r
    rw [apply_eq hB1, hrow₃, hrow₄, hrow₁, ite_self, add_zero, rhs, sum_domains, hI, hI, hrows,
      hrows', hfirst, hsecond]
    simp [rowValues, eq_comm]
  obtain ⟨hr₁, hr₂, hr₃, hr₄⟩ := residual_eq hB1 x lambda
  exact ExactLinearSolver.classical_solve
    (show IsSolution _ B1 f (x, applyTransposed B1 lambda) from
      ⟨hrhs, ⟨lambda, rfl⟩, ext (hr₁.trans h₁) (hr₂.trans h₂) (hr₃.trans h₃) (hr₄.trans h₄)⟩)
    (unique hB1)

end System

def start : NonlinearState sys := ⟨0, 0, 0, 0, 0, 0, fun _ => DomainInstance.clear, 0, 0⟩

lemma B1c_first : (assembledB1 sys false 1 first).B1c = [1, 1, 0, 0] := by decide +kernel

lemma B1c_second : (assembledB1 sys false 1 second).B1c = [0, 0] := by decide +kernel

lemma initialSolve_eq : ∃ s, (problem false).initialSolve start = some s ∧
    s.primalSolution = vector 1 0 0 0 ∧ s.B1 = assembledB1 sys false 1 := by
  obtain ⟨t, ht, hx⟩ : ∃ t, (ExactLinearSolver.classical sys).solve (fun _ => 1)
      (assembledB1 sys false 1) 0 = some t ∧ t.1 = vector 1 0 0 0 := by
    refine solve_eq (fun _ => rfl) (fun _ => rfl) B1c_first B1c_second
      (fun r => if r = 1 then -1 else 0) ?_ ?_ ?_ ?_ rfl ?_ ?_ <;>
      decide +kernel
  exact ⟨_, congrArg (Option.map _) ht, hx, rfl⟩

/-- `B1` in the first iteration. -/
def shifted : Gluing sys :=
  addToDirichletInB1 false 1 (-1) (vector 1 0 0 0) (assembledB1 sys false 1)

lemma entries_shifted (d : Fin sys.domains) :
    entries (shifted d) = entries (assembledB1 sys false 1 d) := rfl

lemma iteration_eq {s : NonlinearState sys} (hx : s.primalSolution = vector 1 0 0 0)
    (hB1 : s.B1 = assembledB1 sys false 1) : ∃ p, (problem false).iteration s = some p ∧
      p.1.primalSolution = sum 1 (vector 0 (1 / 3) (-2 / 3) (1 / 3)) 1 (vector 1 0 0 0) := by
  obtain ⟨t, ht, hincrement⟩ : ∃ t, (ExactLinearSolver.classical sys).solve (fun _ => 1) shifted
      (sum 1 0 (-1) (vector 1 0 0 0)) = some t ∧ t.1 = vector 0 (1 / 3) (-2 / 3) (1 / 3) := by
    refine solve_eq entries_shifted (fun _ => rfl) (by decide +kernel) (by decide +kernel)
      (fun r => if r = 1 then -1 / 3 else if r = 3 then -2 / 3 else 1 / 3) ?_ ?_ ?_ ?_ rfl ?_ ?_ <;>
      decide +kernel
  have hsolve : (ExactLinearSolver.classical sys).solve (fun _ => 1)
      (addToDirichletInB1 false 1 (-1) s.primalSolution (B1DirichletUpdate false 1 s.B1))
      (sum 1 0 (-1) s.primalSolution) = some t := by
    rw [hx, hB1, B1DirichletUpdate_eq (rewritten_assembledB1 _ _)]
    exact ht
  refine ⟨_, congrArg (fun o => Option.bind (Option.map _ o) _) hsolve, ?_⟩
  rw [← hincrement, ← hx]
  rfl

lemma unknown_prescribed {u : Unknown} (hu : u ∈ unknowns sys) :
    Prescribed sys u ∧ scaledValue sys 1 u = 1 := by
  obtain ⟨g, dof, k⟩ := u
  obtain rfl : k = 0 := Nat.lt_one_iff.mp (mem_unknowns.mp hu).2.2
  exact ⟨List.mem_singleton_self 0, by norm_num [scaledValue, sys, prescribed]⟩

lemma ones_solvesGlobal :
    SolvesGlobal (fun _ => 1) (0 : Primal sys) (scaledValue sys 1) (fun _ => 1) (fun _ _ => 1) where
  restriction u hu d hd := by
    rw [copyOf_eq, valueAt, dif_pos (mem_range.mp ((columns_bijOn d).mapsTo ⟨hu, hd⟩))]
  prescribed u hu _ := (unknown_prescribed hu).2.symm
  balanced u hu hfree := absurd (unknown_prescribed hu).1 hfree

lemma problem_linear : (problem true).Linear (fun _ => 1) 0 where
  stationary := rfl
  K_eq _ _ := rfl
  f_eq _ _ := rfl
  R_eq _ U := funext fun d => (Matrix.one_mulVec (U d)).symm

theorem problem_solves_global : ∃ s, (problem true).initialSolve start = some s ∧
    ∃ X, SolvesGlobal (fun _ => 1) 0 (scaledValue sys 1) X s.primalSolution := by
  obtain ⟨t, ht, -⟩ := ExactLinearSolver.classical_solve ones_solvesGlobal.isSolution
    fun t t' ht ht' => by
      obtain ⟨X, hX⟩ := ht.solvesGlobal
      obtain ⟨Y, hY⟩ := ht'.solvesGlobal
      refine hX.restriction.ext hY.restriction fun u hu => ?_
      have hp := (unknown_prescribed hu).1
      exact (hX.prescribed u hu hp).trans (hY.prescribed u hu hp).symm
  have hinitial : (problem true).initialSolve start = some _ := congrArg (Option.map _) ht
  exact ⟨_, hinitial, (NonlinearProblem.solves_global problem_linear rfl start).1 _
    (.initial hinitial)⟩

end TwoValues

end LoadStep

end Espreso
