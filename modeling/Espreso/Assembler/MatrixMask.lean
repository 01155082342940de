import Espreso.Assembler.BoundaryHeat
import Espreso.Assembler.MassInsertion

/-!
# Updating some of the matrices

`Physics::updateMatrix` is asked for some of `K`, `M`, `R` and `f`.  For heat transfer without
diffusion split and tangent correction, the elements and the faces decide by this mask which of
their matrices they size, which ones they write and which ones they keep.

* `Element`, `processElement` — the elements; what does not depend on the mask is data of them.
* **`respectsMask_iff`** — when a mask gives what the full mask gives and changes nothing else.
-/

namespace Espreso.Assembling

open Finset

/-! ## Elements -/

/-- What `processElement` computes at a Gauss point without looking at the mask. -/
structure ElementPoint where
  (N b_e : ℕ → ℚ)
  (Ce dND : ℕ → ℕ → ℚ)
  (detJ weighFactor gpM konst C_e h_e tau_e norm_u_e : ℚ)

/-- An element with its temperatures and heat sources. -/
structure Element where
  nodes : List ℕ
  nonempty : nodes ≠ []
  (T f : ℕ → ℚ)
  CAU : Bool
  points : List ElementPoint
  points_nonempty : points ≠ []

/-- What is read of `Step`. -/
structure MatrixStep extends Step where
  (internalForceReduction timeIntegrationConstantM timeIntegrationConstantK : ℚ)

def DenseMatrix.addIf (A : DenseMatrix) (condition : Bool) (values : ℕ → ℕ → ℚ) :
    Option DenseMatrix :=
  if condition then A.add values else some A

section Code

variable (E : Element) (step : MatrixStep) (m : Matrices)

/-- The products that are added to `Ke` at a Gauss point. -/
def stiffnessPoint (Ke : DenseMatrix) (g : ElementPoint) : Option DenseMatrix := do
  let Ke ← Ke.add fun i j => g.detJ * g.weighFactor *
    ∑ k ∈ range 3, g.dND k i * ∑ l ∈ range 3, g.Ce k l * g.dND l j
  let Ke ← Ke.add fun i j => g.detJ * g.weighFactor * (g.N i * g.b_e j)
  let Ke ← Ke.addIf (g.konst * g.weighFactor * g.detJ ≠ 0) fun i j =>
    g.konst * g.weighFactor * g.detJ * (g.b_e i * g.b_e j)
  Ke.addIf E.CAU fun i j =>
    g.C_e * g.weighFactor * g.detJ * ∑ k ∈ range 3, g.dND k i * g.dND k j

/-- The product that is added to `Me`. -/
def massPoint (Me : DenseMatrix) (g : ElementPoint) : Option DenseMatrix :=
  Me.add fun i j => g.detJ * g.gpM * g.weighFactor * (g.N i * g.N j)

/-- What is added to `fe`. -/
def sourcePoint (fe : DenseMatrix) (g : ElementPoint) : Option DenseMatrix := do
  let fe ← fe.add fun i _ => g.detJ * g.weighFactor * g.N i * E.f i
  fe.addIf (g.norm_u_e ≠ 0) fun i _ =>
    g.detJ * g.weighFactor * g.h_e * g.tau_e * g.b_e i * E.f i / (2 * g.norm_u_e)

def masked (requested : Bool) (step : DenseMatrix → ElementPoint → Option DenseMatrix)
    (A : DenseMatrix) (g : ElementPoint) : Option DenseMatrix :=
  if requested then step A g else some A

def elementPoint (s : DenseMatrix × DenseMatrix × DenseMatrix) (g : ElementPoint) :
    Option (DenseMatrix × DenseMatrix × DenseMatrix) := do
  let (Me, Ke, fe) := s
  let Me ← masked (m.M || m.R) massPoint Me g
  let Ke ← masked (m.K || m.R) (stiffnessPoint E) Ke g
  let fe ← masked m.f (sourcePoint E) fe g
  some (Me, Ke, fe)

/-- `Re` -/
def residual (Ke Me : DenseMatrix) : DenseMatrix where
  rows := E.nodes.length
  columns := 1
  value i _ :=
    step.timeIntegrationConstantK * ∑ j ∈ range E.nodes.length, Ke.value i j * E.T j
      + step.timeIntegrationConstantM * ∑ j ∈ range E.nodes.length, Me.value i j * E.T j

def sizedIf (condition : Bool) (rows columns : ℕ) : DenseMatrix :=
  if condition then .zeros rows columns else .empty

/-- **`HeatTransfer3D::processElement`** -/
def processElement : Option Contribution := do
  let Ksize := E.nodes.length
  let Ke := sizedIf (m.K || (m.R && step.timeIntegrationConstantK ≠ 0)) Ksize Ksize
  let Me := sizedIf (m.M || (m.R && step.timeIntegrationConstantM ≠ 0)) Ksize Ksize
  let fe := sizedIf m.f Ksize 1
  let (Me, Ke, fe) ← E.points.foldlM (elementPoint E m) (Me, Ke, fe)
  let Re := if m.R then residual E step Ke Me else .empty
  let Ke := if m.R && !m.K then .empty else Ke
  let Me := if m.R && !m.M then .empty else Me
  some ⟨E.nodes, Ke, Me, Re, fe⟩

end Code

/-! ## The domain -/

/-- A face or an edge of a boundary region. -/
inductive BoundaryElement where
  | face (F : Face)
  | edge (nodes : List ℕ)

def BoundaryElement.nodes : BoundaryElement → List ℕ
  | .face F => F.nodes
  | .edge nodes => nodes

/-- The boundary elements one after the other.  `processEdge` does nothing, so an edge gets what is
left of the last face. -/
def processBoundary (step : MatrixStep) (m : Matrices) :
    Contribution → List BoundaryElement → Option (List Contribution)
  | _, [] => some []
  | left, b :: bs => do
    let e ←
      match b with
      | .face F => processFace step.toStep F m
      | .edge nodes => some { left with nodes := nodes }
    let es ← processBoundary step m e bs
    some (e :: es)

/-- A domain of heat transfer with its elements, the faces and edges of its boundary regions in
their order, and the step. -/
structure HeatDomain where
  D : Domain
  DOFs_eq : D.DOFs = 1
  elements : List Element
  elements_nodes : ∀ E ∈ elements, ∀ n ∈ E.nodes, n ∈ D.nodes
  boundary : List BoundaryElement
  boundary_nodes : ∀ b ∈ boundary, ∀ n ∈ b.nodes, n ∈ D.nodes
  sorting : Sorting
  matrixType : MatrixType
  step : MatrixStep

def Contribution.within (m : Matrices) (e : Contribution) : Bool :=
  (e.Ke.rows = 0 || m.K) && (e.Me.rows = 0 || m.M) && (e.Re.rows = 0 || m.R)
    && (e.fe.rows = 0 || m.f)

/-- **`Physics::updateMatrix`** for a mask; `none` is a write to a matrix that has not been sized,
or the end of the program. -/
def HeatDomain.updateMatrix (P : HeatDomain) (m : Matrices) (i : DomainInstance) :
    Option DomainInstance := do
  let elements ← P.elements.mapM fun E => processElement E P.step m
  let boundary ← processBoundary P.step m ⟨[], .empty, .empty, .empty, .empty⟩ P.boundary
  if (elements ++ boundary).all (Contribution.within m) then
    Assembling.updateMatrix P.sorting P.D P.matrixType P.step.internalForceReduction m elements
      [⟨2, boundary⟩] i
  else none

def allMatrices : Matrices := ⟨true, true, true, true⟩

/-- The requested matrices are taken of one instance, the others of another one. -/
def select (m : Matrices) (full i : DomainInstance) : DomainInstance where
  K := if m.K then full.K else i.K
  M := if m.M then full.M else i.M
  R := if m.R then full.R else i.R
  f := if m.f then full.f else i.f

/-- **A mask is respected**: requested matrices are those of the full mask, the others stay. -/
def HeatDomain.RespectsMask (P : HeatDomain) (m : Matrices) (i : DomainInstance) : Prop :=
  ∃ full, P.updateMatrix allMatrices i = some full ∧ P.updateMatrix m i = some (select m full i)

/-! ## The loops over the Gauss points -/

def KeepsSize (p : DenseMatrix → ElementPoint → Option DenseMatrix) : Prop :=
  ∀ A g, A.rows ≠ 0 → ∃ A', p A g = some A' ∧ A'.Sized A.rows A.columns

/-- A step that writes to the matrix, which has to be sized. -/
structure Writes (p : DenseMatrix → ElementPoint → Option DenseMatrix) : Prop where
  unsized : ∀ A g, A.rows = 0 → p A g = none
  keepsSize : KeepsSize p

lemma writes_add (v : ElementPoint → ℕ → ℕ → ℚ) : Writes fun A g => A.add (v g) where
  unsized _ _ hA := if_pos hA
  keepsSize _ g hA := ⟨_, DenseMatrix.add_eq hA (v g), rfl, rfl⟩

lemma keepsSize_addIf (c : ElementPoint → Bool) (v : ElementPoint → ℕ → ℕ → ℚ) :
    KeepsSize fun A g => A.addIf (c g) (v g) := by
  intro A g hA
  simp only [DenseMatrix.addIf]
  split_ifs
  · exact (writes_add v).keepsSize A g hA
  · exact ⟨A, rfl, rfl, rfl⟩

lemma KeepsSize.bind {p q : DenseMatrix → ElementPoint → Option DenseMatrix} (hp : KeepsSize p)
    (hq : KeepsSize q) : KeepsSize fun A g => (p A g).bind fun A => q A g := by
  intro A g hA
  obtain ⟨B, hB, hrows, hcolumns⟩ := hp A g hA
  obtain ⟨C, hC, hrows', hcolumns'⟩ := hq B g (hrows ▸ hA)
  refine ⟨C, ?_, hrows'.trans hrows, hcolumns'.trans hcolumns⟩
  simp only [hB, Option.bind_some, hC]

lemma Writes.bind {p q : DenseMatrix → ElementPoint → Option DenseMatrix} (hp : Writes p)
    (hq : KeepsSize q) : Writes fun A g => (p A g).bind fun A => q A g where
  unsized A g hA := by simp only [hp.unsized A g hA, Option.bind_none]
  keepsSize := hp.keepsSize.bind hq

lemma writes_stiffnessPoint (E : Element) : Writes (stiffnessPoint E) :=
  (writes_add _).bind <| (writes_add _).keepsSize.bind <|
    (keepsSize_addIf _ _).bind (keepsSize_addIf (fun _ => E.CAU) _)

lemma writes_massPoint : Writes massPoint := writes_add _

lemma writes_sourcePoint (E : Element) : Writes (sourcePoint E) :=
  (writes_add _).bind (keepsSize_addIf _ _)

lemma KeepsSize.foldlM {p : DenseMatrix → ElementPoint → Option DenseMatrix} (hp : KeepsSize p)
    (gs : List ElementPoint) {A : DenseMatrix} (hA : A.rows ≠ 0) :
    ∃ A', gs.foldlM p A = some A' ∧ A'.Sized A.rows A.columns := by
  induction gs generalizing A with
  | nil => exact ⟨A, rfl, rfl, rfl⟩
  | cons g gs ih =>
      obtain ⟨B, hB, hrows, hcolumns⟩ := hp A g hA
      obtain ⟨C, hC, hsized⟩ := ih (hrows ▸ hA)
      rw [hrows, hcolumns] at hsized
      exact ⟨C, by rw [List.foldlM_cons, hB]; exact hC, hsized⟩

section Loops

variable (E : Element)

def Element.loop (p : DenseMatrix → ElementPoint → Option DenseMatrix) (columns : ℕ) :
    DenseMatrix :=
  (E.points.foldlM p (.zeros E.nodes.length columns)).getD .empty

variable {E} {p : DenseMatrix → ElementPoint → Option DenseMatrix} (hp : Writes p)

include hp

lemma Element.foldlM_loop (columns : ℕ) :
    E.points.foldlM p (.zeros E.nodes.length columns) = some (E.loop p columns) ∧
      (E.loop p columns).Sized E.nodes.length columns := by
  have hrows : (DenseMatrix.zeros E.nodes.length columns).rows ≠ 0 :=
    (List.length_pos_iff.mpr E.nonempty).ne'
  obtain ⟨A, hA, hsized⟩ := hp.keepsSize.foldlM E.points hrows
  rw [Element.loop, hA]
  exact ⟨rfl, hsized⟩

lemma Element.foldlM_masked (columns : ℕ) {requested sized : Bool} (h : sized → requested) :
    E.points.foldlM (masked requested p) (sizedIf sized E.nodes.length columns)
      = if requested && !sized then none
        else some (if requested then E.loop p columns else .empty) := by
  cases requested with
  | false =>
      have hskip : ∀ (gs : List ElementPoint) A, gs.foldlM (masked false p) A = some A := by
        intro gs
        induction gs with
        | nil => exact fun A => rfl
        | cons g gs ih => exact fun A => ih A
      rw [hskip, sizedIf, if_neg fun hs => Bool.false_ne_true (h hs)]
      rfl
  | true =>
      cases sized with
      | true => exact (E.foldlM_loop hp columns).1
      | false =>
          obtain ⟨g, gs, hgs⟩ := List.exists_cons_of_ne_nil E.points_nonempty
          rw [hgs, List.foldlM_cons, masked, if_pos rfl, sizedIf, if_neg Bool.false_ne_true,
            hp.unsized _ g rfl]
          rfl

end Loops

/-! ## What the mask leaves of a contribution -/

def Contribution.restrict (m : Matrices) (e : Contribution) : Contribution where
  nodes := e.nodes
  Ke := if m.K then e.Ke else .empty
  Me := if m.M then e.Me else .empty
  Re := if m.R then e.Re else .empty
  fe := if m.f then e.fe else .empty

def elementContribution (E : Element) (step : MatrixStep) : Contribution :=
  let Ke := E.loop (stiffnessPoint E) E.nodes.length
  let Me := E.loop massPoint E.nodes.length
  ⟨E.nodes, Ke, Me, residual E step Ke Me, E.loop (sourcePoint E) 1⟩

def Matrices.misses (m : Matrices) (step : MatrixStep) : Bool :=
  m.R && ((!m.K && step.timeIntegrationConstantK = 0)
    || (!m.M && step.timeIntegrationConstantM = 0))

lemma foldlM_elementPoint (E : Element) (m : Matrices) (Me Ke fe : DenseMatrix) :
    E.points.foldlM (elementPoint E m) (Me, Ke, fe)
      = (E.points.foldlM (masked (m.M || m.R) massPoint) Me).bind fun Me =>
        ((E.points.foldlM (masked (m.K || m.R) (stiffnessPoint E)) Ke).bind fun Ke =>
          (E.points.foldlM (masked m.f (sourcePoint E)) fe).map fun fe => (Ke, fe)).map
            fun s => (Me, s) := by
  have hlast := Fallible.foldlM_prod (f := masked (m.K || m.R) (stiffnessPoint E))
    (g := masked m.f (sourcePoint E)) (fun _ _ => rfl) E.points (Ke, fe)
  rw [← hlast]
  refine Fallible.foldlM_prod (fun s g => ?_) E.points (Me, Ke, fe)
  rw [elementPoint, Option.bind_eq_bind]
  refine congrArg (Option.bind _) (funext fun Me => ?_)
  cases masked (m.K || m.R) (stiffnessPoint E) s.2.1 g with
  | none => rfl
  | some Ke => cases masked m.f (sourcePoint E) s.2.2 g <;> rfl

/-- **An element under a mask.** -/
theorem processElement_eq (E : Element) (step : MatrixStep) (m : Matrices) :
    processElement E step m = if m.misses step then none
      else some ((elementContribution E step).restrict m) := by
  have hM : (m.M || (m.R && step.timeIntegrationConstantM ≠ 0)) → (m.M || m.R) := by
    simp only [Bool.or_eq_true, Bool.and_eq_true]
    tauto
  have hK : (m.K || (m.R && step.timeIntegrationConstantK ≠ 0)) → (m.K || m.R) := by
    simp only [Bool.or_eq_true, Bool.and_eq_true]
    tauto
  rw [processElement, foldlM_elementPoint, E.foldlM_masked writes_massPoint _ hM,
    E.foldlM_masked (writes_stiffnessPoint E) _ hK,
    E.foldlM_masked (writes_sourcePoint E) 1 (id : m.f → m.f)]
  rcases m with ⟨K, M, R, f⟩
  by_cases hzeroK : step.timeIntegrationConstantK = 0 <;>
    by_cases hzeroM : step.timeIntegrationConstantM = 0 <;>
    cases R <;> cases K <;> cases M <;> cases f <;>
    simp [Matrices.misses, Contribution.restrict, elementContribution, hzeroK, hzeroM]

section Faces

variable (step : Step) (F : Face)

lemma nodes_faceContribution : (faceContribution step F).nodes = F.nodes := by
  rw [faceContribution]
  split_ifs <;> rfl

lemma Me_faceContribution : (faceContribution step F).Me = .empty := by
  rw [faceContribution]
  split_ifs <;> rfl

lemma Re_faceContribution : (faceContribution step F).Re = .empty := by
  rw [faceContribution]
  split_ifs <;> rfl

lemma sized_fe (hany : F.conditions.any) : (faceContribution step F).fe.Sized F.size 1 := by
  rw [faceContribution, if_pos hany]
  exact ⟨rfl, rfl⟩

lemma sized_Ke (hmatrix : F.conditions.hasMatrix) :
    (faceContribution step F).Ke.Sized F.size F.size := by
  rw [faceContribution, if_pos (any_of_hasMatrix hmatrix), if_pos hmatrix]
  exact ⟨rfl, rfl⟩

end Faces

/-- **A face under a mask** that fits its conditions. -/
theorem processFace_masked {F : Face} {step : Step} {m : Matrices}
    (hf : F.conditions.any → m.K → m.f) (hK : F.conditions.hasMatrix → m.f → m.K) :
    processFace step F m = some ((faceContribution step F).restrict m) := by
  have hMe := Me_faceContribution step F
  have hRe := Re_faceContribution step F
  rcases m with ⟨K, M, R, f⟩
  cases f with
  | true =>
      have hKe : (if K then (faceContribution step F).Ke else .empty)
          = (faceContribution step F).Ke := by
        by_cases hmatrix : F.conditions.hasMatrix
        · exact if_pos (hK hmatrix rfl)
        · rw [Ke_eq_empty hmatrix, ite_self]
      rw [processFace_eq]
      rcases hcontribution : faceContribution step F with ⟨nodes, Ke, Me, Re, fe⟩
      rw [hcontribution] at hMe hRe hKe
      simp only at hMe hRe hKe
      simp only [Contribution.restrict, hKe, hMe, hRe, ite_self, if_true]
  | false =>
      rw [processFace, Contribution.restrict, hMe, hRe, nodes_faceContribution, ite_self, ite_self]
      by_cases hany : F.conditions.any
      · have hnoK : K = false := Bool.eq_false_iff.mpr fun h => Bool.false_ne_true (hf hany h)
        subst hnoK
        simp [hany]
      · have hmatrix : ¬F.conditions.hasMatrix := fun h => hany (any_of_hasMatrix h)
        simp [hany, Ke_eq_empty hmatrix]

/-! ## Assembling the matrices apart -/

section Insert

variable {D : Domain} {internalForceReduction : ℚ} {isBoundaryCondition : Bool}

variable (D internalForceReduction isBoundaryCondition) in
/-- The insertions of contributions to the four matrices. -/
structure Inserts (es : List Contribution) (s s' : Assembly) : Prop where
  K : es.foldlM (fun K e => insertStiffness (D.dofs e.nodes)
    (if isBoundaryCondition then internalForceReduction else 1) K e.Ke) s.K = some s'.K
  M : es.foldlM (fun M e => insertMass (D.dofs e.nodes) M e.Me) s.M = some s'.M
  R : es.foldlM (fun R e => insertColumn (D.dofs e.nodes) 1 R e.Re) s.R = some s'.R
  f : es.foldlM (fun f e => insertColumn (D.dofs e.nodes) internalForceReduction f e.fe) s.f
    = some s'.f

/-- **The four matrices are assembled apart.** -/
theorem foldlM_insert_iff {es : List Contribution} (hes : ∀ e ∈ es, ∀ n ∈ e.nodes, n ∈ D.nodes)
    {s s' : Assembly} :
    es.foldlM (insertContribution D internalForceReduction isBoundaryCondition) s = some s' ↔
      Inserts D internalForceReduction isBoundaryCondition es s s' := by
  induction es generalizing s with
  | nil =>
      refine ⟨fun h => ?_, fun ⟨hK, hM, hR, hf⟩ => ?_⟩
      · obtain rfl := Option.some.inj h
        exact ⟨rfl, rfl, rfl, rfl⟩
      · cases s
        cases s'
        cases hK
        cases hM
        cases hR
        cases hf
        rfl
  | cons e es ih =>
      have hdofs := D.fillDOFsIndices_eq (hes e List.mem_cons_self)
      have hrest := fun e' he' => hes e' (List.mem_cons_of_mem _ he')
      rw [List.foldlM_cons, insertContribution, hdofs]
      simp only [insertElementToDomain, Option.bind_eq_bind, Option.bind_some,
        Option.bind_eq_some_iff, Option.some.injEq]
      constructor
      · rintro ⟨_, ⟨K, hK, M, hM, R, hR, f, hf, rfl⟩, h⟩
        obtain ⟨hK', hM', hR', hf'⟩ := (ih hrest).mp h
        constructor <;> rw [List.foldlM_cons]
        · rw [hK]; exact hK'
        · rw [hM]; exact hM'
        · rw [hR]; exact hR'
        · rw [hf]; exact hf'
      · rintro ⟨hK, hM, hR, hf⟩
        rw [List.foldlM_cons] at hK hM hR hf
        obtain ⟨K, hK, hK'⟩ := Option.bind_eq_some_iff.mp hK
        obtain ⟨M, hM, hM'⟩ := Option.bind_eq_some_iff.mp hM
        obtain ⟨R, hR, hR'⟩ := Option.bind_eq_some_iff.mp hR
        obtain ⟨f, hf, hf'⟩ := Option.bind_eq_some_iff.mp hf
        exact ⟨⟨K, M, R, f⟩, ⟨K, hK, M, hM, R, hR, f, hf, rfl⟩,
          (ih hrest).mpr ⟨hK', hM', hR', hf'⟩⟩

lemma foldlM_restrict {β : Type} {p : List ℕ → β → DenseMatrix → Option β}
    (hempty : ∀ DOFs v, p DOFs v .empty = some v) {m : Matrices}
    {matrix : Contribution → DenseMatrix} {requested : Bool}
    (hmatrix : ∀ e : Contribution,
      matrix (e.restrict m) = if requested then matrix e else .empty) {es : List Contribution}
    {v v' w : β} (h : es.foldlM (fun v e => p (D.dofs e.nodes) v (matrix e)) v = some v') :
    (es.map (Contribution.restrict m)).foldlM
        (fun v e => p (D.dofs e.nodes) v (matrix e)) (if requested then v else w)
      = some (if requested then v' else w) := by
  rw [List.foldlM_map]
  simp only [hmatrix]
  cases requested with
  | true => exact h
  | false =>
      clear h
      induction es with
      | nil => rfl
      | cons e es ih => exact (congrArg (Option.bind · _) (hempty _ _)).trans ih

lemma insertStiffness_empty (DOFs : List ℕ) (reduction : ℚ) (K : SparseVVPMatrix) :
    insertStiffness DOFs reduction K .empty = some K := by
  cases DOFs <;> rfl

lemma insertColumn_empty (DOFs : List ℕ) (reduction : ℚ) (v : List ℚ) :
    insertColumn DOFs reduction v .empty = some v := by
  cases DOFs <;> rfl

lemma Inserts.restrict {es : List Contribution} {s s' : Assembly} (m : Matrices)
    (i : DomainInstance)
    (h : Inserts D internalForceReduction isBoundaryCondition es s s') :
    Inserts D internalForceReduction isBoundaryCondition (es.map (Contribution.restrict m))
      ⟨if m.K then s.K else .empty, if m.M then s.M else .empty, if m.R then s.R else i.R,
        if m.f then s.f else i.f⟩
      ⟨if m.K then s'.K else .empty, if m.M then s'.M else .empty, if m.R then s'.R else i.R,
        if m.f then s'.f else i.f⟩ where
  K := foldlM_restrict (p := fun DOFs => insertStiffness DOFs _)
    (fun DOFs => insertStiffness_empty DOFs _) (fun _ => rfl) h.K
  M := foldlM_restrict (fun _ _ => rfl) (fun _ => rfl) h.M
  R := foldlM_restrict (p := fun DOFs => insertColumn DOFs _)
    (fun DOFs => insertColumn_empty DOFs _) (fun _ => rfl) h.R
  f := foldlM_restrict (p := fun DOFs => insertColumn DOFs _)
    (fun DOFs => insertColumn_empty DOFs _) (fun _ => rfl) h.f

end Insert

/-! ## The boundary -/

/-- The boundary elements with the last faces in front of them. -/
def preceded : Option Face → List BoundaryElement → List (Option Face × BoundaryElement)
  | _, [] => []
  | last, .face F :: bs => (last, .face F) :: preceded (some F) bs
  | last, .edge nodes :: bs => (last, .edge nodes) :: preceded last bs

lemma mem_of_mem_preceded {bs : List BoundaryElement} {last : Option Face}
    {p : Option Face × BoundaryElement} (hp : p ∈ preceded last bs) : p.2 ∈ bs := by
  induction bs generalizing last with
  | nil => exact absurd hp List.not_mem_nil
  | cons b bs ih =>
      cases b <;> rcases List.mem_cons.mp hp with rfl | hp <;>
        first
          | exact List.mem_cons_self
          | exact List.mem_cons_of_mem _ (ih hp)

def leftOver (step : Step) (last : Option Face) : Contribution :=
  last.elim ⟨[], .empty, .empty, .empty, .empty⟩ (faceContribution step)

def boundaryContribution (step : Step) (p : Option Face × BoundaryElement) : Contribution :=
  match p.2 with
  | .face F => faceContribution step F
  | .edge nodes => { leftOver step p.1 with nodes := nodes }

def Face.Allows (F : Face) (m : Matrices) : Prop :=
  (F.conditions.any → m.K → m.f) ∧ (F.conditions.hasMatrix → m.f → m.K)

lemma processBoundary_masked (step : MatrixStep) {m : Matrices} (bs : List BoundaryElement)
    (hbs : ∀ F, .face F ∈ bs → F.Allows m) (last : Option Face) (nodes : List ℕ) :
    processBoundary step m { (leftOver step.toStep last).restrict m with nodes := nodes } bs
      = some ((preceded last bs).map fun p =>
          (boundaryContribution step.toStep p).restrict m) := by
  induction bs generalizing last nodes with
  | nil => rfl
  | cons b bs ih =>
      have ih := ih fun F hF => hbs F (List.mem_cons_of_mem _ hF)
      cases b with
      | face F =>
          obtain ⟨hf, hK⟩ := hbs F List.mem_cons_self
          rw [processBoundary, processFace_masked hf hK]
          exact congrArg (Option.bind · _) (ih (some F) (faceContribution step.toStep F).nodes)
      | edge es => exact congrArg (Option.bind · _) (ih last es)

lemma Face.allows_of_processFace {F : Face} {step : Step} {m : Matrices} {e : Contribution}
    (h : processFace step F m = some e) (hwithin : e.within m) : F.Allows m := by
  rcases m with ⟨K, M, R, f⟩
  cases f with
  | true =>
      refine ⟨fun _ _ => rfl, fun hmatrix _ => ?_⟩
      obtain rfl := Option.some.inj ((processFace_eq K M R).symm.trans h)
      simp only [Contribution.within, Bool.and_eq_true, Bool.or_eq_true, decide_eq_true_eq,
        (sized_Ke step F hmatrix).1] at hwithin
      exact hwithin.1.1.1.resolve_left F.size_pos.ne'
  | false =>
      refine ⟨fun hany hK => ?_, fun _ hf => absurd hf Bool.false_ne_true⟩
      obtain rfl : K = true := hK
      obtain ⟨g, gs, hgs⟩ := List.exists_cons_of_ne_nil F.points_nonempty
      have hnone : ∀ Ke, pointHeat step F (Ke, .empty) g = none := fun Ke => by
        simp only [pointHeat, DenseMatrix.empty_add, Option.bind_eq_bind, Option.bind_none,
          Option.bind_fun_none]
        split_ifs <;> simp
      simp [processFace, hany, hgs, hnone] at h

lemma allows_of_processBoundary {step : MatrixStep} {m : Matrices} {bs : List BoundaryElement}
    {left : Contribution} {es : List Contribution} (h : processBoundary step m left bs = some es)
    (hwithin : ∀ e ∈ es, e.within m) {F : Face} (hF : .face F ∈ bs) : F.Allows m := by
  induction bs generalizing left es with
  | nil => exact absurd hF List.not_mem_nil
  | cons b bs ih =>
      cases b with
      | face F' =>
          simp only [processBoundary, Option.bind_eq_bind, Option.bind_eq_some_iff,
            Option.some.injEq] at h
          obtain ⟨e, he, es, hes, rfl⟩ := h
          rcases List.mem_cons.mp hF with heq | hF
          · obtain rfl := BoundaryElement.face.inj heq
            exact Face.allows_of_processFace he (hwithin e List.mem_cons_self)
          · exact ih hes (fun e' he' => hwithin e' (List.mem_cons_of_mem _ he')) hF
      | edge nodes =>
          simp only [processBoundary, Option.bind_eq_bind, Option.bind_some,
            Option.bind_eq_some_iff, Option.some.injEq] at h
          obtain ⟨es, hes, rfl⟩ := h
          have hF := (List.mem_cons.mp hF).resolve_left BoundaryElement.noConfusion
          exact ih hes (fun e' he' => hwithin e' (List.mem_cons_of_mem _ he')) hF

/-! ## The domain under a mask -/

section Sizes

variable {D : Domain} {e : Contribution} (hD : D.DOFs = 1) (hnodes : ∀ n ∈ e.nodes, n ∈ D.nodes)

include hD

lemma length_dofs_eq (nodes : List ℕ) : (D.dofs nodes).length = nodes.length := by
  rw [length_dofs, hD, Nat.one_mul]

include hnodes in
lemma fits_element {E : Element} {step : MatrixStep} (he : e = elementContribution E step) :
    e.Fits D allMatrices := by
  have hlength := length_dofs_eq hD e.nodes
  subst he
  have hpos : 0 < E.nodes.length := List.length_pos_iff.mpr E.nonempty
  refine ⟨hnodes, .inl ⟨rfl, ?_⟩, .inl ⟨rfl, E.nodes.length, hpos, ?_, ?_⟩, .inl ⟨rfl, ?_⟩,
    .inl ⟨rfl, ?_⟩⟩
  · rw [hlength]
    exact (E.foldlM_loop (writes_stiffnessPoint E) _).2
  · exact (E.foldlM_loop writes_massPoint _).2
  · rw [hlength]
    rfl
  · rw [hlength]
    exact ⟨rfl, rfl⟩
  · rw [hlength]
    exact (E.foldlM_loop (writes_sourcePoint E) 1).2

lemma fits_face {step : Step} {F : Face} {nodes : List ℕ} (hnodes : ∀ n ∈ nodes, n ∈ D.nodes)
    (hsize : F.conditions.any → nodes.length = F.size) :
    Contribution.Fits { faceContribution step F with nodes := nodes } D allMatrices := by
  have hlength := length_dofs_eq hD nodes
  refine ⟨hnodes, ?_, .inr ?_, .inr ?_, ?_⟩
  · by_cases hmatrix : F.conditions.hasMatrix
    · refine .inl ⟨rfl, ?_⟩
      rw [hlength, hsize (any_of_hasMatrix hmatrix)]
      exact sized_Ke step F hmatrix
    · refine .inr ?_
      rw [Ke_eq_empty hmatrix]
      exact ⟨rfl, rfl⟩
  · rw [Me_faceContribution]
    exact ⟨rfl, rfl⟩
  · rw [Re_faceContribution]
    exact ⟨rfl, rfl⟩
  · by_cases hany : F.conditions.any
    · refine .inl ⟨rfl, ?_⟩
      rw [hlength, hsize hany]
      exact sized_fe step F hany
    · refine .inr ?_
      rw [faceContribution, if_neg hany]
      exact ⟨rfl, rfl⟩

lemma length_of_insert {step : Step} {F : Face} {nodes : List ℕ}
    (hnodes : ∀ n ∈ nodes, n ∈ D.nodes) (hany : F.conditions.any) {reduction : ℚ} {s s' : Assembly}
    (h : insertContribution D reduction true s { faceContribution step F with nodes := nodes }
      = some s') : nodes.length = F.size := by
  rw [insertContribution, D.fillDOFsIndices_eq hnodes] at h
  simp only [insertElementToDomain, Option.bind_eq_bind, Option.bind_some,
    Option.bind_eq_some_iff] at h
  obtain ⟨_, -, _, -, _, -, f, hf, -⟩ := h
  obtain ⟨hrows, hcolumns⟩ := sized_fe step F hany
  rw [insertColumn, hrows, hcolumns, length_dofs_eq hD] at hf
  by_contra hne
  rw [if_neg fun h => hne h.1.symm, if_pos (.inl F.size_pos.ne')] at hf
  exact absurd hf.symm (Option.some_ne_none f)

end Sizes

namespace HeatDomain

variable (P : HeatDomain) {m : Matrices} {i : DomainInstance}

def contributions : List Contribution × List Contribution :=
  (P.elements.map fun E => elementContribution E P.step,
    (preceded none P.boundary).map (boundaryContribution P.step.toStep))

/-- **The conditions on a mask**: no residual without its matrices, no condition of a face without
the right-hand side or without its matrix, and no edge behind a face of another size. -/
structure Allows (m : Matrices) : Prop where
  residual : P.elements ≠ [] → ¬m.misses P.step
  faces : ∀ F, .face F ∈ P.boundary → F.Allows m
  edges : ∀ F nodes, (some F, .edge nodes) ∈ preceded none P.boundary →
    F.conditions.any → nodes.length = F.size

variable {P}

lemma updateMatrix_eq (hresidual : P.elements ≠ [] → ¬m.misses P.step)
    (hfaces : ∀ F, .face F ∈ P.boundary → F.Allows m) :
    P.updateMatrix m i = Assembling.updateMatrix P.sorting P.D P.matrixType
      P.step.internalForceReduction m (P.contributions.1.map (Contribution.restrict m))
      [⟨2, P.contributions.2.map (Contribution.restrict m)⟩] i := by
  have helements : (P.elements.mapM fun E => processElement E P.step m)
      = some (P.contributions.1.map (Contribution.restrict m)) := by
    rw [contributions, List.map_map]
    refine Fallible.mapM_eq_some fun E hE => ?_
    rw [processElement_eq, if_neg (hresidual (List.ne_nil_of_mem hE))]
    rfl
  have hboundary : processBoundary P.step m ⟨[], .empty, .empty, .empty, .empty⟩ P.boundary
      = some (P.contributions.2.map (Contribution.restrict m)) := by
    have h := processBoundary_masked P.step P.boundary hfaces none []
    simp only [leftOver, Option.elim_none, Contribution.restrict, ite_self] at h
    rw [h, contributions, List.map_map]
    rfl
  simp only [HeatDomain.updateMatrix, helements, hboundary, Option.bind_eq_bind, Option.bind_some]
  refine if_pos (List.all_eq_true.mpr fun e he => ?_)
  rw [← List.map_append] at he
  obtain ⟨e, -, rfl⟩ := List.mem_map.mp he
  rcases m with ⟨K, M, R, f⟩
  cases K <;> cases M <;> cases R <;> cases f <;>
    simp [Contribution.within, Contribution.restrict, DenseMatrix.empty]

lemma updateMatrix_all : P.updateMatrix allMatrices i = Assembling.updateMatrix P.sorting P.D
    P.matrixType P.step.internalForceReduction allMatrices P.contributions.1
    [⟨2, P.contributions.2⟩] i := by
  have hrestrict : ∀ es : List Contribution, es.map (Contribution.restrict allMatrices) = es :=
    fun es => List.map_id es
  rw [updateMatrix_eq (fun _ => by simp [Matrices.misses, allMatrices])
    fun F _ => ⟨fun _ _ => rfl, fun _ _ => rfl⟩, hrestrict, hrestrict]

lemma assembling_eq_some_iff {reduction : ℚ} {es bs : List Contribution} {out : DomainInstance} :
    Assembling.updateMatrix P.sorting P.D P.matrixType reduction m es [⟨2, bs⟩] i = some out ↔
      ∃ s s',
        es.foldlM (insertContribution P.D reduction false) (initialAssembly P.D m i) = some s ∧
        bs.foldlM (insertContribution P.D reduction true) s = some s' ∧
        storeAssembly P.sorting P.matrixType m i s' = out := by
  simp only [Assembling.updateMatrix, assembleBoundaryConditions, List.foldlM_cons, List.foldlM_nil,
    assembleRegion_eq, BoundaryRegion.processed, true_or, if_true, Option.bind_eq_bind,
    Option.bind_eq_some_iff, Option.some.injEq, Option.pure_def, exists_eq_right]
  exact exists_congr fun s => exists_and_left.symm

lemma storeAssembly_restrict (s : Assembly) :
    storeAssembly P.sorting P.matrixType m i
        ⟨if m.K then s.K else .empty, if m.M then s.M else .empty, if m.R then s.R else i.R,
          if m.f then s.f else i.f⟩
      = select m (storeAssembly P.sorting P.matrixType allMatrices i s) i := by
  rcases m with ⟨K, M, R, f⟩
  cases K <;> cases M <;> cases R <;> cases f <;> rfl

lemma RespectsMask.allows (h : P.RespectsMask m i) : P.Allows m := by
  obtain ⟨full, hfull, hout⟩ := h
  rw [HeatDomain.updateMatrix] at hout
  obtain ⟨elements, helements, hout⟩ := Option.bind_eq_some_iff.mp hout
  obtain ⟨boundary, hboundary, hout⟩ := Option.bind_eq_some_iff.mp hout
  by_cases hwithin : (elements ++ boundary).all (Contribution.within m)
  · have hwithin := List.all_eq_true.mp hwithin
    refine ⟨fun hne hmisses => ?_, fun F => ?_, fun F nodes hp hany => ?_⟩
    · obtain ⟨E, hE⟩ := List.exists_mem_of_ne_nil P.elements hne
      obtain ⟨e, he⟩ := Fallible.exists_of_mapM helements hE
      rw [processElement_eq, if_pos hmisses] at he
      exact absurd he.symm (Option.some_ne_none e)
    · exact allows_of_processBoundary hboundary fun e he =>
        hwithin e (List.mem_append_right _ he)
    · rw [updateMatrix_all, assembling_eq_some_iff] at hfull
      obtain ⟨s, s', -, hs', -⟩ := hfull
      obtain ⟨_, _, hinsert⟩ := Fallible.exists_of_foldlM hs' (List.mem_map_of_mem hp)
      exact length_of_insert P.DOFs_eq (P.boundary_nodes _ (mem_of_mem_preceded hp)) hany hinsert
  · exact absurd ((if_neg hwithin).symm.trans hout) (Option.some_ne_none _).symm

lemma fits_boundary (hedges : ∀ F nodes, (some F, .edge nodes) ∈ preceded none P.boundary →
    F.conditions.any → nodes.length = F.size) :
    ∀ e ∈ P.contributions.2, e.Fits P.D allMatrices := by
  intro e he
  obtain ⟨⟨last, b⟩, hp, rfl⟩ := List.mem_map.mp he
  have hnodes := P.boundary_nodes b (mem_of_mem_preceded hp)
  cases b with
  | face F =>
      have hfits : Contribution.Fits { faceContribution P.step.toStep F with nodes := F.nodes } P.D
          allMatrices := fits_face P.DOFs_eq hnodes fun _ => rfl
      rwa [← nodes_faceContribution P.step.toStep F] at hfits
  | edge nodes =>
      cases last with
      | none => exact ⟨hnodes, .inr ⟨rfl, rfl⟩, .inr ⟨rfl, rfl⟩, .inr ⟨rfl, rfl⟩, .inr ⟨rfl, rfl⟩⟩
      | some F => exact fits_face P.DOFs_eq hnodes (hedges F nodes hp)

/-- **A mask is respected** if and only if it is allowed. -/
theorem respectsMask_iff (P : HeatDomain) (m : Matrices) (i : DomainInstance) :
    P.RespectsMask m i ↔ P.Allows m := by
  refine ⟨RespectsMask.allows, fun hallows => ?_⟩
  have helements : ∀ e ∈ P.contributions.1, e.Fits P.D allMatrices := by
    intro e he
    obtain ⟨E, hE, rfl⟩ := List.mem_map.mp he
    exact fits_element P.DOFs_eq (P.elements_nodes E hE) rfl
  have hboundary : ∀ e ∈ P.contributions.2, e.Fits P.D allMatrices :=
    fits_boundary hallows.edges
  have hallocated := allocated_initialAssembly (D := P.D) allMatrices i
  obtain ⟨s, hs, hadds⟩ : ∃ s, P.contributions.1.foldlM
      (insertContribution P.D P.step.internalForceReduction false) _ = some s ∧ Adds _ _ _ _ s :=
    insertContributions_eq false P.contributions.1 helements hallocated
  obtain ⟨s', hs', -⟩ : ∃ s', P.contributions.2.foldlM
      (insertContribution P.D P.step.internalForceReduction true) _ = some s' ∧ Adds _ _ _ _ s' :=
    insertContributions_eq true P.contributions.2 hboundary (hadds.allocated hallocated)
  refine ⟨storeAssembly P.sorting P.matrixType allMatrices i s', ?_, ?_⟩
  · rw [updateMatrix_all, assembling_eq_some_iff]
    exact ⟨s, s', hs, hs', rfl⟩
  · rw [updateMatrix_eq hallows.residual hallows.faces, assembling_eq_some_iff,
      ← storeAssembly_restrict]
    have hnodes : ∀ {es : List Contribution}, (∀ e ∈ es, e.Fits P.D allMatrices) →
        ∀ e ∈ es.map (Contribution.restrict m), ∀ n ∈ e.nodes, n ∈ P.D.nodes := by
      intro es hes e he
      obtain ⟨e', he', rfl⟩ := List.mem_map.mp he
      exact (hes e' he').nodes
    have hfirst := ((foldlM_insert_iff fun e he => (helements e he).nodes).mp hs).restrict m i
    have hlast := ((foldlM_insert_iff fun e he => (hboundary e he).nodes).mp hs').restrict m i
    exact ⟨_, _, (foldlM_insert_iff (hnodes helements)).mpr hfirst,
      (foldlM_insert_iff (hnodes hboundary)).mpr hlast, rfl⟩

end HeatDomain

/-! ## Convection without a stiffness matrix -/

def convectionFace : Face where
  nodes := [0]
  nonempty := nodes_nonempty
  point _ := ⟨0, 0, 0⟩
  temperature _ := 0
  area := 1
  conditions := ⟨some ⟨⟨fun _ _ _ => 1⟩, ⟨fun _ _ _ => 0⟩⟩, none, none, none⟩
  points := [wholePoint]
  points_nonempty := points_nonempty

lemma convectionFace_nodes : ∀ b ∈ [BoundaryElement.face convectionFace], ∀ n ∈ b.nodes,
    n ∈ (twoNodesDomain 1).nodes := by
  simp [BoundaryElement.nodes, convectionFace, Domain.nodes, twoNodesDomain]

def convectionDomain : HeatDomain where
  D := twoNodesDomain 1
  DOFs_eq := rfl
  elements := []
  elements_nodes _ h := absurd h List.not_mem_nil
  boundary := [.face convectionFace]
  boundary_nodes := convectionFace_nodes
  sorting := .stable
  matrixType := .REAL_SYMMETRIC_POSITIVE_DEFINITE
  step := ⟨⟨1, 0⟩, 1, 0, 1⟩

/-- The residual and the right-hand side: the matrix of the face is written to `K`. -/
theorem convection_not_respected :
    ¬convectionDomain.RespectsMask ⟨false, false, true, true⟩ noMatrices := by
  intro h
  exact Bool.false_ne_true ((h.allows.faces convectionFace List.mem_cons_self).2 rfl rfl)

end Espreso.Assembling
