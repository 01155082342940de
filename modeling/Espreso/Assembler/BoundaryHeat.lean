import Espreso.Assembler.Physics
import Mathlib.Algebra.Polynomial.Derivative
import Mathlib.Tactic.Ring

/-!
# Heat through the boundary

`HeatTransfer3D::processFace` adds convection, radiation, heat flow and heat flux of a face to the
matrix and the right-hand side of the Newton method.  In iteration 0 the unknown is the temperature,
later it is the increment.

* `Evaluator`, `Conditions`, `Face` — expressions, the conditions of a region, a face.
* **`linearizes_iff`** — when a face linearizes its heat flow: the arguments of the expressions must
  be exchangeable, and radiation is not linearized in iteration 0.
-/

namespace Espreso.Assembling

open Finset Polynomial

/-! ## Expressions and conditions -/

structure Point where
  (x y z : ℚ)

/-- `Evaluator`: the value at a point for a temperature and a time. -/
structure Evaluator where
  value : Point → ℚ → ℚ → ℚ

/-- `Evaluator::evaluate` at one point -/
def Evaluator.evaluate (e : Evaluator) (p : Point) (time temperature : ℚ) : ℚ :=
  e.value p temperature time

/-- `ConvectionConfiguration` of the type `USER`. -/
structure Convection (α : Type) where
  (heat_transfer_coefficient external_temperature : α)

/-- `RadiationConfiguration` -/
structure Radiation (α : Type) where
  (emissivity external_temperature : α)

/-- The conditions that are given on a region. -/
structure Conditions (α : Type) where
  convection : Option (Convection α)
  radiation : Option (Radiation α)
  heatFlow : Option α
  heatFlux : Option α

namespace Conditions

variable {α β : Type} (c : Conditions α)

def map (f : α → β) : Conditions β where
  convection := c.convection.map fun v =>
    ⟨f v.heat_transfer_coefficient, f v.external_temperature⟩
  radiation := c.radiation.map fun r => ⟨f r.emissivity, f r.external_temperature⟩
  heatFlow := c.heatFlow.map f
  heatFlux := c.heatFlux.map f

def expressions : List α :=
  (c.convection.elim [] fun v => [v.heat_transfer_coefficient, v.external_temperature])
    ++ (c.radiation.elim [] fun r => [r.emissivity, r.external_temperature])
    ++ c.heatFlow.toList ++ c.heatFlux.toList

def any : Bool :=
  c.convection.isSome || c.heatFlow.isSome || c.heatFlux.isSome || c.radiation.isSome

def hasMatrix : Bool := c.convection.isSome || c.radiation.isSome

lemma map_eq_map_iff {f g : α → β} : c.map f = c.map g ↔ ∀ e ∈ c.expressions, f e = g e := by
  rcases c with ⟨- | v, - | r, - | flow, - | flux⟩ <;>
    simp [map, expressions, and_assoc]

end Conditions

/-! ## Faces -/

/-- A Gauss point of a face; `J` is the norm of the cross product. -/
structure FacePoint where
  N : ℕ → ℚ
  weighFactor : ℚ
  J : ℚ

/-- A face of a boundary region: its nodes with their coordinates and temperatures, the area and the
conditions of the region, and the Gauss points of its type. -/
structure Face where
  nodes : List ℕ
  nonempty : nodes ≠ []
  point : ℕ → Point
  temperature : ℕ → ℚ
  area : ℚ
  conditions : Conditions Evaluator
  points : List FacePoint
  points_nonempty : points ≠ []

abbrev Face.size (F : Face) : ℕ := F.nodes.length

lemma Face.size_pos (F : Face) : 0 < F.size := List.length_pos_iff.mpr F.nonempty

/-- What is read of `Step`. -/
structure Step where
  iteration : ℕ
  currentTime : ℚ

/-! ## The code -/

namespace DenseMatrix

/-- `resize(0, 0)` -/
def empty : DenseMatrix := ⟨0, 0, fun _ _ => 0⟩

/-- `resize(rows, columns)` of an empty matrix. -/
def zeros (rows columns : ℕ) : DenseMatrix := ⟨rows, columns, fun _ _ => 0⟩

/-- Values are added to those of the matrix; `none` is a write to a matrix that is not sized. -/
def add (A : DenseMatrix) (values : ℕ → ℕ → ℚ) : Option DenseMatrix :=
  if A.rows = 0 then none else some { A with value := fun i j => A.value i j + values i j }

lemma add_eq {A : DenseMatrix} (hA : A.rows ≠ 0) (values : ℕ → ℕ → ℚ) :
    A.add values = some { A with value := fun i j => A.value i j + values i j } :=
  if_neg hA

lemma empty_add (values : ℕ → ℕ → ℚ) : empty.add values = none := rfl

end DenseMatrix

/-- `CONST_Stefan_Boltzmann` -/
def stefanBoltzmann : ℚ := 56703 / 10 ^ 12

section Code

variable (step : Step) (F : Face)

/-- What the calls of `evaluate` return at a node. -/
def evaluated (n : ℕ) : Conditions ℚ :=
  F.conditions.map fun e => e.evaluate (F.point n) (F.temperature n) step.currentTime

/-- `q`, `htc` and `emiss` of a node. -/
structure NodeHeat where
  (q htc emiss : ℚ)

/-- The body of the loop over the nodes, with the values of the expressions. -/
def nodeHeatOf (area temp : ℚ) (c : Conditions ℚ) : NodeHeat :=
  let s : NodeHeat := ⟨0, 0, 0⟩
  let s := c.convection.elim s fun v =>
    { s with
      htc := v.heat_transfer_coefficient
      q := s.q + if step.iteration ≠ 0 then
          v.heat_transfer_coefficient * (v.external_temperature - temp)
        else v.heat_transfer_coefficient * v.external_temperature }
  let s := c.radiation.elim s fun r =>
    let emiss := stefanBoltzmann * r.emissivity
    { s with
      q := s.q + emiss * (r.external_temperature ^ 4 - temp ^ 4)
      emiss := emiss * (4 * temp * temp * temp) }
  let s := c.heatFlow.elim s fun flow => { s with q := s.q + flow / area }
  c.heatFlux.elim s fun flux => { s with q := s.q + flux }

def nodeHeat (n : ℕ) : NodeHeat :=
  nodeHeatOf step F.area (F.temperature n) (evaluated step F n)

/-- The product of the shape functions at a Gauss point with values at the nodes. -/
def Face.atPoint (F : Face) (g : FacePoint) (values : ℕ → ℚ) : ℚ :=
  ∑ n ∈ range F.size, g.N n * values n

def pointHeat (s : DenseMatrix × DenseMatrix) (g : FacePoint) :
    Option (DenseMatrix × DenseMatrix) := do
  let (Ke, fe) := s
  let gpQ := F.atPoint g fun n => (nodeHeat step F n).q
  let Ke ←
    if F.conditions.convection.isSome then
      let gpHtc := F.atPoint g fun n => (nodeHeat step F n).htc
      Ke.add fun i j => g.weighFactor * g.J * gpHtc * (g.N i * g.N j)
    else some Ke
  let Ke ←
    if F.conditions.radiation.isSome then
      let gpEmiss := F.atPoint g fun n => (nodeHeat step F n).emiss
      Ke.add fun i j => g.weighFactor * g.J * gpEmiss * (g.N i * g.N j)
    else some Ke
  let fe ← fe.add fun i _ => g.J * g.weighFactor * g.N i * gpQ
  some (Ke, fe)

/-- **`HeatTransfer3D::processFace`** -/
def processFace (matrices : Matrices) : Option Contribution := do
  if ¬F.conditions.any then
    return ⟨F.nodes, .empty, .empty, .empty, .empty⟩
  if ¬(matrices.K || matrices.f) then
    return ⟨F.nodes, .empty, .empty, .empty, .empty⟩
  let fe := if matrices.f then .zeros F.size 1 else .empty
  let Ke := if F.conditions.hasMatrix then .zeros F.size F.size else .empty
  let (Ke, fe) ← F.points.foldlM (pointHeat step F) (Ke, fe)
  return ⟨F.nodes, Ke, .empty, .empty, fe⟩

end Code

/-! ## Closed forms -/

section ClosedForm

variable (step : Step) (F : Face)

def pointStiffness (g : FacePoint) : ℚ :=
  (if F.conditions.convection.isSome then F.atPoint g fun n => (nodeHeat step F n).htc else 0)
    + if F.conditions.radiation.isSome then F.atPoint g fun n => (nodeHeat step F n).emiss else 0

/-- `Ke` after some Gauss points. -/
def addedStiffness (gs : List FacePoint) (Ke : DenseMatrix) : DenseMatrix :=
  { Ke with
    value := fun i j => Ke.value i j
      + (gs.map fun g => g.weighFactor * g.J * pointStiffness step F g * (g.N i * g.N j)).sum }

/-- `fe` after some Gauss points. -/
def addedHeat (gs : List FacePoint) (fe : DenseMatrix) : DenseMatrix :=
  { fe with
    value := fun i j => fe.value i j + (gs.map fun g =>
      g.J * g.weighFactor * g.N i * F.atPoint g fun n => (nodeHeat step F n).q).sum }

variable {step F}

lemma pointHeat_eq {Ke fe : DenseMatrix} (hKe : F.conditions.hasMatrix → Ke.rows ≠ 0)
    (hfe : fe.rows ≠ 0) (g : FacePoint) :
    pointHeat step F (Ke, fe) g = some (addedStiffness step F [g] Ke, addedHeat step F [g] fe) := by
  simp only [pointHeat, addedStiffness, addedHeat, pointStiffness, DenseMatrix.add_eq hfe,
    List.map_singleton, List.sum_singleton, Option.bind_eq_bind]
  simp only [Conditions.hasMatrix, Bool.or_eq_true] at hKe
  by_cases hconvection : F.conditions.convection.isSome <;>
    by_cases hradiation : F.conditions.radiation.isSome
  · have hrows := hKe (.inl hconvection)
    simp only [if_pos hconvection, if_pos hradiation, DenseMatrix.add, if_neg hrows,
      Option.bind_some, Option.some.injEq, Prod.mk.injEq, DenseMatrix.mk.injEq, and_true, true_and]
    funext i j
    ring
  · have hrows := hKe (.inl hconvection)
    simp only [if_pos hconvection, if_neg hradiation, DenseMatrix.add_eq hrows, Option.bind_some,
      add_zero]
  · have hrows := hKe (.inr hradiation)
    simp only [if_neg hconvection, if_pos hradiation, DenseMatrix.add_eq hrows, Option.bind_some,
      zero_add]
  · simp only [if_neg hconvection, if_neg hradiation, Option.bind_some, add_zero, mul_zero,
      zero_mul]

lemma foldlM_pointHeat (gs : List FacePoint) {Ke fe : DenseMatrix}
    (hKe : F.conditions.hasMatrix → Ke.rows ≠ 0) (hfe : fe.rows ≠ 0) :
    gs.foldlM (pointHeat step F) (Ke, fe)
      = some (addedStiffness step F gs Ke, addedHeat step F gs fe) := by
  induction gs generalizing Ke fe with
  | nil =>
      simp only [addedStiffness, addedHeat, List.map_nil, List.sum_nil, add_zero, List.foldlM_nil]
      rfl
  | cons g gs ih =>
      rw [List.foldlM_cons, pointHeat_eq hKe hfe, Option.bind_eq_bind, Option.bind_some]
      rw [ih]
      · simp only [addedStiffness, addedHeat, List.map_cons, List.sum_cons, List.map_nil,
          List.sum_nil, add_zero, add_assoc]
      · exact hKe
      · exact hfe

variable (step F) in
/-- What a face contributes to a system with a right-hand side. -/
def faceContribution : Contribution :=
  if F.conditions.any then
    { nodes := F.nodes
      Ke := addedStiffness step F F.points
        (if F.conditions.hasMatrix then .zeros F.size F.size else .empty)
      Me := .empty
      Re := .empty
      fe := addedHeat step F F.points (.zeros F.size 1) }
  else ⟨F.nodes, .empty, .empty, .empty, .empty⟩

/-- **The matrices of a face**, if the right-hand side is requested. -/
theorem processFace_eq (K M R : Bool) :
    processFace step F ⟨K, M, R, true⟩ = some (faceContribution step F) := by
  rw [processFace, faceContribution]
  by_cases hany : F.conditions.any
  · have hrows : F.conditions.hasMatrix →
        (if F.conditions.hasMatrix then DenseMatrix.zeros F.size F.size else .empty).rows ≠ 0 :=
      fun h => by
        rw [if_pos h]
        exact F.size_pos.ne'
    have hfe : (DenseMatrix.zeros F.size 1).rows ≠ 0 := F.size_pos.ne'
    simp only [hany, not_true_eq_false, if_false, Bool.or_true, if_true,
      foldlM_pointHeat F.points hrows hfe, Option.bind_eq_bind, Option.bind_some, Option.pure_def]
  · rw [if_pos hany, if_neg hany]
    rfl

lemma pointStiffness_eq_zero (hmatrix : ¬F.conditions.hasMatrix) (g : FacePoint) :
    pointStiffness step F g = 0 := by
  rw [Conditions.hasMatrix, Bool.or_eq_true, not_or] at hmatrix
  rw [pointStiffness, if_neg hmatrix.1, if_neg hmatrix.2, add_zero]

lemma Ke_eq_empty (hmatrix : ¬F.conditions.hasMatrix) :
    (faceContribution step F).Ke = .empty := by
  rw [faceContribution]
  split_ifs
  · simp [addedStiffness, pointStiffness_eq_zero hmatrix, DenseMatrix.empty]
  · rfl

lemma any_of_hasMatrix (hmatrix : F.conditions.hasMatrix) : F.conditions.any := by
  rw [Conditions.hasMatrix, Bool.or_eq_true] at hmatrix
  simp only [Conditions.any, Bool.or_eq_true]
  tauto

lemma value_Ke (i j : ℕ) : (faceContribution step F).Ke.value i j = (F.points.map fun g =>
    g.weighFactor * g.J * pointStiffness step F g * (g.N i * g.N j)).sum := by
  by_cases hmatrix : F.conditions.hasMatrix
  · rw [faceContribution, if_pos (any_of_hasMatrix hmatrix), if_pos hmatrix]
    exact zero_add _
  · simp [Ke_eq_empty hmatrix, DenseMatrix.empty, pointStiffness_eq_zero hmatrix]

lemma value_fe (i j : ℕ) : (faceContribution step F).fe.value i j = (F.points.map fun g =>
    g.J * g.weighFactor * g.N i * F.atPoint g fun n => (nodeHeat step F n).q).sum := by
  rw [faceContribution]
  by_cases hany : F.conditions.any
  · rw [if_pos hany]
    exact zero_add _
  · have hnone := hany
    simp only [Conditions.any, Bool.or_eq_true, not_or, Option.not_isSome_iff_eq_none] at hnone
    obtain ⟨⟨⟨hconvection, hflow⟩, hflux⟩, hradiation⟩ := hnone
    have hq : ∀ n, (nodeHeat step F n).q = 0 := fun n => by
      simp only [nodeHeat, nodeHeatOf, evaluated, Conditions.map, hconvection, hflow, hflux,
        hradiation, Option.map_none, Option.elim_none]
    simp [hany, DenseMatrix.empty, Face.atPoint, hq]

end ClosedForm

/-! ## The linearization -/

noncomputable def Convection.heat (v : Convection ℚ) : ℚ[X] :=
  C v.heat_transfer_coefficient * (C v.external_temperature - X)

noncomputable def Radiation.heat (r : Radiation ℚ) : ℚ[X] :=
  C (stefanBoltzmann * r.emissivity) * (C (r.external_temperature ^ 4) - X ^ 4)

/-- **The heat flow** as a polynomial in the temperature. -/
noncomputable def Conditions.heat (area : ℚ) (c : Conditions ℚ) : ℚ[X] :=
  c.convection.elim 0 Convection.heat + c.radiation.elim 0 Radiation.heat
    + C (c.heatFlow.elim 0 (· / area)) + C (c.heatFlux.elim 0 id)

lemma Convection.eval_heat (v : Convection ℚ) (T₀ : ℚ) : v.heat.eval T₀
    = v.heat_transfer_coefficient * (v.external_temperature - T₀) := by
  simp only [heat, eval_mul, eval_sub, eval_C, eval_X]

lemma Convection.eval_derivative_heat (v : Convection ℚ) (T₀ : ℚ) :
    v.heat.derivative.eval T₀ = -v.heat_transfer_coefficient := by
  simp only [heat, derivative_C_mul, derivative_sub, derivative_C, derivative_X, zero_sub, eval_neg,
    eval_C, mul_neg, mul_one]

lemma Radiation.eval_heat (r : Radiation ℚ) (T₀ : ℚ) : r.heat.eval T₀
    = stefanBoltzmann * r.emissivity * (r.external_temperature ^ 4 - T₀ ^ 4) := by
  simp only [heat, eval_mul, eval_sub, eval_C, eval_pow, eval_X]

lemma Radiation.eval_derivative_heat (r : Radiation ℚ) (T₀ : ℚ) :
    r.heat.derivative.eval T₀ = -(stefanBoltzmann * r.emissivity * (4 * T₀ ^ 3)) := by
  simp only [heat, derivative_C_mul, derivative_sub, derivative_C, derivative_X_pow, zero_sub,
    eval_mul, eval_neg, eval_C, eval_pow, eval_X, mul_neg]
  norm_num

/-- The values of the expressions at the point, the time and the temperature of a node. -/
def expected (step : Step) (F : Face) (n : ℕ) : Conditions ℚ :=
  F.conditions.map fun e => e.evaluate (F.point n) step.currentTime (F.temperature n)

/-- A face with the same temperature and the same values of the expressions at all its nodes.  The
heat transfer coefficient does not depend on the temperature. -/
structure UniformFace (step : Step) extends Face where
  sum_N : ∀ g ∈ points, ∑ n ∈ range toFace.size, g.N n = 1
  T₀ : ℚ
  temperature_eq : ∀ n < toFace.size, temperature n = T₀
  values : Conditions ℚ
  expected_eq : ∀ n < toFace.size, expected step toFace n = values
  independent : ∀ v, conditions.convection = some v →
    ∀ p T T' t, v.heat_transfer_coefficient.value p T t = v.heat_transfer_coefficient.value p T' t

def Face.integral (F : Face) (f : FacePoint → ℚ) : ℚ :=
  (F.points.map fun g => g.weighFactor * g.J * f g).sum

lemma sum_sum_map {α : Type} (s : Finset ℕ) (l : List α) (f : ℕ → α → ℚ) :
    ∑ j ∈ s, (l.map (f j)).sum = (l.map fun a => ∑ j ∈ s, f j a).sum := by
  induction l with
  | nil => simp only [List.map_nil, List.sum_nil, sum_const_zero]
  | cons a l ih => simp only [List.map_cons, List.sum_cons, sum_add_distrib, ih]

namespace UniformFace

variable {step : Step} (F : UniformFace step)

/-- The unknown: the temperature in iteration 0, the increment in the later ones. -/
def unknown (T : ℕ → ℚ) (n : ℕ) : ℚ := if step.iteration ≠ 0 then T n - F.T₀ else T n

/-- **A face linearizes its heat flow**: all expressions are evaluated at the point, the time and
the temperature, and the matrices are those of the linearization. -/
structure Linearizes (M R : Bool) : Prop where
  evaluated : ∀ n < F.size, evaluated step F.toFace n = expected step F.toFace n
  linear : ∃ e, processFace step F.toFace ⟨true, M, R, true⟩ = some e ∧
    ∀ (T : ℕ → ℚ) (i : ℕ), i < F.size →
      e.fe.value i 0 - ∑ j ∈ range F.size, e.Ke.value i j * F.unknown T j
        = F.integral fun g => g.N i * ((F.values.heat F.area).eval F.T₀
            + (F.values.heat F.area).derivative.eval F.T₀ * (F.atPoint g T - F.T₀))

def missing : ℚ :=
  if step.iteration ≠ 0 then 0
  else F.values.radiation.elim 0 fun r => 4 * stefanBoltzmann * r.emissivity * F.T₀ ^ 4

variable {F}

lemma atPoint_const {g : FacePoint} (hg : g ∈ F.points) {values : ℕ → ℚ} {v : ℚ}
    (h : ∀ n < F.size, values n = v) : F.atPoint g values = v := by
  have hsum := F.sum_N g hg
  calc F.atPoint g values = ∑ n ∈ range F.size, g.N n * v :=
        sum_congr rfl fun n hn => by rw [h n (mem_range.mp hn)]
    _ = v := by rw [← sum_mul, hsum, one_mul]

lemma eval_derivative_heat (area : ℚ) (c : Conditions ℚ) (T₀ : ℚ) :
    (c.heat area).derivative.eval T₀
      = -((c.convection.elim 0 fun v => v.heat_transfer_coefficient)
        + c.radiation.elim 0 fun r => stefanBoltzmann * r.emissivity * (4 * T₀ ^ 3)) := by
  rcases c with ⟨- | v, - | r, flow, flux⟩ <;>
    simp [Conditions.heat, Convection.eval_derivative_heat, Radiation.eval_derivative_heat]
  ring

lemma q_nodeHeatOf (area : ℚ) (c : Conditions ℚ) (T₀ : ℚ) :
    (nodeHeatOf step area T₀ c).q = (c.heat area).eval T₀
      + if step.iteration ≠ 0 then 0
        else c.convection.elim 0 fun v => v.heat_transfer_coefficient * T₀ := by
  rcases c with ⟨- | v, - | r, - | flow, - | flux⟩ <;>
    simp only [Conditions.heat, nodeHeatOf, Option.elim_none, Option.elim_some, eval_add, eval_C,
      eval_zero, Convection.eval_heat, Radiation.eval_heat, id] <;>
    split_ifs <;> ring

lemma htc_nodeHeatOf (area : ℚ) (c : Conditions ℚ) (T₀ : ℚ) : (nodeHeatOf step area T₀ c).htc
    = c.convection.elim 0 fun v => v.heat_transfer_coefficient := by
  rcases c with ⟨- | v, - | r, - | flow, - | flux⟩ <;> rfl

lemma emiss_nodeHeatOf (area : ℚ) (c : Conditions ℚ) (T₀ : ℚ) : (nodeHeatOf step area T₀ c).emiss
    = c.radiation.elim 0 fun r => stefanBoltzmann * r.emissivity * (4 * T₀ ^ 3) := by
  rcases c with ⟨- | v, - | r, - | flow, - | flux⟩ <;>
    simp only [nodeHeatOf, Option.elim_none, Option.elim_some] <;> ring

variable (hevaluated : ∀ n < F.size, evaluated step F.toFace n = expected step F.toFace n)

include hevaluated

lemma nodeHeat_eq {n : ℕ} (hn : n < F.size) :
    nodeHeat step F.toFace n = nodeHeatOf step F.area F.T₀ F.values := by
  rw [nodeHeat, hevaluated n hn, F.expected_eq n hn, F.temperature_eq n hn]

lemma pointStiffness_eq {g : FacePoint} (hg : g ∈ F.points) :
    pointStiffness step F.toFace g = -(F.values.heat F.area).derivative.eval F.T₀ := by
  have hvalues := F.expected_eq 0 F.size_pos
  have hconvection : F.conditions.convection.isSome = F.values.convection.isSome := by
    rw [← hvalues]
    exact Option.isSome_map.symm
  have hradiation : F.conditions.radiation.isSome = F.values.radiation.isSome := by
    rw [← hvalues]
    exact Option.isSome_map.symm
  have hhtc := atPoint_const hg fun n hn =>
    (congrArg NodeHeat.htc (nodeHeat_eq hevaluated hn)).trans
      (htc_nodeHeatOf F.area F.values F.T₀)
  have hemiss := atPoint_const hg fun n hn =>
    (congrArg NodeHeat.emiss (nodeHeat_eq hevaluated hn)).trans
      (emiss_nodeHeatOf F.area F.values F.T₀)
  rw [pointStiffness, hhtc, hemiss, hconvection, hradiation, eval_derivative_heat, neg_neg]
  rcases F.values.convection with - | v <;> rcases F.values.radiation with - | r <;> simp

lemma linear_up_to_missing (T : ℕ → ℚ) (i : ℕ) :
    (faceContribution step F.toFace).fe.value i 0
        - ∑ j ∈ range F.size, (faceContribution step F.toFace).Ke.value i j * F.unknown T j
      = (F.integral fun g => g.N i * ((F.values.heat F.area).eval F.T₀
            + (F.values.heat F.area).derivative.eval F.T₀ * (F.atPoint g T - F.T₀)))
        - F.missing * F.integral fun g => g.N i := by
  have hcolumn : ∑ j ∈ range F.size, (faceContribution step F.toFace).Ke.value i j * F.unknown T j
      = (F.points.map fun g => g.weighFactor * g.J * pointStiffness step F.toFace g * g.N i
          * F.atPoint g (F.unknown T)).sum := by
    simp only [value_Ke, ← List.sum_map_mul_right]
    rw [sum_sum_map]
    refine congrArg List.sum (List.map_congr_left fun g _ => ?_)
    rw [Face.atPoint, mul_sum]
    exact sum_congr rfl fun j _ => by ring
  rw [sub_eq_sub_iff_add_eq_add, value_fe, hcolumn]
  simp only [Face.integral, ← List.sum_map_mul_left, ← List.sum_map_add]
  refine congrArg List.sum (List.map_congr_left fun g hg => ?_)
  have hq := atPoint_const hg fun n hn =>
    (congrArg NodeHeat.q (nodeHeat_eq hevaluated hn)).trans (q_nodeHeatOf F.area F.values F.T₀)
  rw [hq, pointStiffness_eq hevaluated hg, eval_derivative_heat, missing]
  by_cases hiteration : step.iteration ≠ 0
  · have hunknown : F.atPoint g (F.unknown T) = F.atPoint g T - F.T₀ := by
      have hconst := atPoint_const hg fun (n : ℕ) (_ : n < F.size) => (rfl : F.T₀ = F.T₀)
      calc F.atPoint g (F.unknown T) = F.atPoint g T - F.atPoint g fun _ => F.T₀ := by
            simp only [Face.atPoint, unknown, if_pos hiteration, mul_sub, sum_sub_distrib]
        _ = F.atPoint g T - F.T₀ := by rw [hconst]
    rw [hunknown, if_pos hiteration, if_pos hiteration]
    ring
  · have hunknown : F.atPoint g (F.unknown T) = F.atPoint g T := by
      simp only [Face.atPoint, unknown, if_neg hiteration]
    rw [hunknown, if_neg hiteration, if_neg hiteration]
    rcases F.values.convection with - | v <;> rcases F.values.radiation with - | r <;>
      simp only [Option.elim_none, Option.elim_some] <;> ring

omit hevaluated in
lemma missing_eq_zero_iff : F.missing = 0 ↔ step.iteration ≠ 0 ∨
    ∀ r, F.values.radiation = some r → r.emissivity = 0 ∨ F.T₀ = 0 := by
  have hconst : stefanBoltzmann ≠ 0 := by norm_num [stefanBoltzmann]
  rw [missing]
  split_ifs with hiteration
  · exact iff_of_true rfl (.inl hiteration)
  · rcases F.values.radiation with - | r
    · exact iff_of_true rfl (.inr fun r h => absurd h (Option.some_ne_none r).symm)
    · simp only [Option.elim_some, mul_eq_zero, OfNat.ofNat_ne_zero, hconst, false_or,
        pow_eq_zero_iff, ne_eq, not_false_eq_true, hiteration, Option.some.injEq, forall_eq']

lemma linear_iff (M R : Bool) :
    (∃ e, processFace step F.toFace ⟨true, M, R, true⟩ = some e ∧
      ∀ (T : ℕ → ℚ) (i : ℕ), i < F.size →
        e.fe.value i 0 - ∑ j ∈ range F.size, e.Ke.value i j * F.unknown T j
          = F.integral fun g => g.N i * ((F.values.heat F.area).eval F.T₀
              + (F.values.heat F.area).derivative.eval F.T₀ * (F.atPoint g T - F.T₀))) ↔
      ∀ i < F.size, F.missing * (F.integral fun g => g.N i) = 0 := by
  have hlinear := linear_up_to_missing hevaluated
  refine ⟨?_, fun h => ⟨_, processFace_eq true M R, fun T i hi => ?_⟩⟩
  · rintro ⟨e, he, h⟩ i hi
    obtain rfl := Option.some.inj ((processFace_eq true M R).symm.trans he)
    have heq := (hlinear 0 i).symm.trans (h 0 i hi)
    linarith
  · rw [hlinear T i, h i hi, sub_zero]

end UniformFace

open UniformFace in
/-- **`HeatTransfer3D::processFace` linearizes the heat flow of a face** if and only if its
expressions take the same values with the time and the temperature exchanged, and, in iteration 0,
it has no radiation or a face on which the shape functions integrate to zero. -/
theorem linearizes_iff {step : Step} (F : UniformFace step) (M R : Bool) :
    F.Linearizes M R ↔
      (∀ n < F.size, ∀ e ∈ F.conditions.expressions,
        e.evaluate (F.point n) F.T₀ step.currentTime
          = e.evaluate (F.point n) step.currentTime F.T₀) ∧
      (step.iteration ≠ 0 ∨ (∀ r, F.values.radiation = some r → r.emissivity = 0 ∨ F.T₀ = 0) ∨
        ∀ i < F.size, (F.integral fun g => g.N i) = 0) := by
  have hevaluated : (∀ n < F.size, evaluated step F.toFace n = expected step F.toFace n) ↔
      ∀ n < F.size, ∀ e ∈ F.conditions.expressions, e.evaluate (F.point n) F.T₀ step.currentTime
        = e.evaluate (F.point n) step.currentTime F.T₀ := by
    refine forall₂_congr fun n hn => ?_
    rw [evaluated, expected, F.temperature_eq n hn, Conditions.map_eq_map_iff]
  have hmissing : (∀ i < F.size, F.missing * (F.integral fun g => g.N i) = 0) ↔
      step.iteration ≠ 0 ∨ (∀ r, F.values.radiation = some r → r.emissivity = 0 ∨ F.T₀ = 0) ∨
        ∀ i < F.size, (F.integral fun g => g.N i) = 0 := by
    rw [← or_assoc, ← missing_eq_zero_iff]
    by_cases hzero : F.missing = 0
    · simp only [hzero, zero_mul, implies_true, true_or]
    · simp only [mul_eq_zero, hzero, false_or]
  rw [← hevaluated, ← hmissing]
  refine ⟨fun h => ⟨h.evaluated, (linear_iff h.evaluated M R).mp h.linear⟩, fun h => ?_⟩
  exact ⟨h.1, (linear_iff h.1 M R).mpr h.2⟩

/-! ## Two faces -/

section OneNode

variable (step : Step) (radiation : Option (Radiation Evaluator)) (heatFlux : Option Evaluator)
  (T₀ : ℚ)

def wholePoint : FacePoint := ⟨fun _ => 1, 1, 1⟩

lemma nodes_nonempty : [0] ≠ [] := List.cons_ne_nil _ _

lemma points_nonempty : [wholePoint] ≠ [] := List.cons_ne_nil _ _

def oneNodeFace : Face where
  nodes := [0]
  nonempty := nodes_nonempty
  point _ := ⟨0, 0, 0⟩
  temperature _ := T₀
  area := 1
  conditions := ⟨none, radiation, none, heatFlux⟩
  points := [wholePoint]
  points_nonempty := points_nonempty

lemma sum_oneNode (g : FacePoint) (hg : g ∈ (oneNodeFace radiation heatFlux T₀).points) :
    ∑ n ∈ range (oneNodeFace radiation heatFlux T₀).size, g.N n = 1 := by
  rw [List.mem_singleton.mp hg]
  exact sum_range_one _

lemma no_convection (v : Convection Evaluator) (h : none = some v) (p : Point) (T T' t : ℚ) :
    v.heat_transfer_coefficient.value p T t = v.heat_transfer_coefficient.value p T' t :=
  absurd h.symm (Option.some_ne_none v)

def oneNode : UniformFace step where
  toFace := oneNodeFace radiation heatFlux T₀
  sum_N := sum_oneNode radiation heatFlux T₀
  T₀ := T₀
  temperature_eq _ _ := rfl
  values := expected step (oneNodeFace radiation heatFlux T₀) 0
  expected_eq _ _ := rfl
  independent := no_convection

end OneNode

/-- Radiation in iteration 0, and a heat flux that depends on the time. -/
theorem faces_not_linearized :
    ¬(oneNode ⟨0, 0⟩ (some ⟨⟨fun _ _ _ => 1⟩, ⟨fun _ _ _ => 0⟩⟩) none 1).Linearizes false false ∧
      ¬(oneNode ⟨1, 0⟩ none (some ⟨fun _ _ t => t⟩) 1).Linearizes false false := by
  constructor
  · intro h
    have hzero := (UniformFace.linear_iff h.evaluated false false).mp h.linear 0 Nat.zero_lt_one
    norm_num [UniformFace.missing, oneNode, oneNodeFace, wholePoint, expected, Conditions.map,
      Evaluator.evaluate, Face.integral, stefanBoltzmann] at hzero
  · intro h
    have hflux := congrArg Conditions.heatFlux (h.evaluated 0 Nat.zero_lt_one)
    norm_num [oneNode, oneNodeFace, evaluated, expected, Conditions.map, Evaluator.evaluate]
      at hflux

end Espreso.Assembling
