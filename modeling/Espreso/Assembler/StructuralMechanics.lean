import Espreso.Assembler.Physics
import Espreso.Lib.GramSchmidt
import Espreso.Lib.RigidMotions
import Espreso.Solver.SparseMatrix

/-!
# The kernels of the domains of a solid

`StructuralMechanics::prepare` goes through the nodes five times and collects what is needed to
make the rigid body modes orthogonal, for every domain and, through buffers, for every cluster.
`StructuralMechanics3D::analyticRegularization` writes the modes to `N1`.

* `Coefficients.Fits` — the coefficients belong to some points.
* **`Coefficients.Fits.orthogonalizes`** — the columns orthogonalize the modes of the points.
* **`fits_domain`**, **`fits_cluster`** — the coefficients belong to the nodes of a domain, and to
  the nodes of all domains of a cluster.
-/

namespace Espreso.StructuralMechanics

open Assembling Finset

attribute [local instance] RigidMotions.neZero_three RigidMotions.neZero_six

/-! ## The code -/

@[ext]
structure Point where
  (x y z : ℚ)

namespace Point

instance : Add Point := ⟨fun p q => ⟨p.x + q.x, p.y + q.y, p.z + q.z⟩⟩

instance : Sub Point := ⟨fun p q => ⟨p.x - q.x, p.y - q.y, p.z - q.z⟩⟩

/-- `Point::operator/` -/
def div (p : Point) (scalar : ℚ) : Point :=
  let xscalar := 1 / scalar
  ⟨p.x * xscalar, p.y * xscalar, p.z * xscalar⟩

/-- `Point::operator/=` -/
def divideBy (p : Point) (scalar : ℚ) : Point := ⟨p.x / scalar, p.y / scalar, p.z / scalar⟩

end Point

/-- What is read of the mesh: the intervals of the domains with three unknowns at a node, their
clusters, and the coordinates of the nodes. -/
structure Solid where
  ndomains : ℕ
  domain : ℕ → Domain
  DOFs : ∀ p, (domain p).DOFs = 3
  clusters : ℕ → ℕ
  coordinates : ℕ → Point

/-- What is collected for a domain (`_dNp[p]`, `_dCenter[p]`, ...) or a cluster (`_cNp[c]`, ...). -/
structure Coefficients where
  np : ℕ
  (center norm : Point)
  (r44 r45 r46 r55 r56 : ℚ)

def Coefficients.zero : Coefficients := ⟨0, ⟨0, 0, 0⟩, ⟨0, 0, 0⟩, 0, 0, 0, 0, 0⟩

namespace Coefficients

variable (k : Coefficients) (p : Point)

/-! What a node adds to the sums; the source spells it out for the domain and for the cluster. -/

/-- The summand of `norm.x`. -/
def addNorm4 : ℚ := p.x * p.x + p.y * p.y

/-- The summand of `r44`. -/
def add44 : ℚ :=
  (-p.y / k.norm.x) * (-p.y / k.norm.x) + (p.x / k.norm.x) * (p.x / k.norm.x)

/-- The summand of `r45`. -/
def add45 : ℚ := (-p.y / k.norm.x) * (-p.z)

/-- The summands of `norm.y`. -/
def addNorm5 : ℚ :=
  (-p.z - k.r45 / k.r44 * (-p.y / k.norm.x)) * (-p.z - k.r45 / k.r44 * (-p.y / k.norm.x))
    + (0 - k.r45 / k.r44 * (p.x / k.norm.x)) * (0 - k.r45 / k.r44 * (p.x / k.norm.x))
    + p.x * p.x

/-- The three values of `c5`. -/
def c5 : Fin 3 → ℚ :=
  ![(-p.z - k.r45 / k.r44 * (-p.y / k.norm.x)) / k.norm.y,
    (0 - k.r45 / k.r44 * (p.x / k.norm.x)) / k.norm.y,
    (p.x - 0) / k.norm.y]

/-- The summand of `r46`. -/
def add46 : ℚ := (p.x / k.norm.x) * (-p.z)

/-- The summands of `r55`. -/
def add55 : ℚ := k.c5 p 0 * k.c5 p 0 + k.c5 p 1 * k.c5 p 1 + k.c5 p 2 * k.c5 p 2

/-- The summands of `r56`. -/
def add56 : ℚ := k.c5 p 0 * 0 + k.c5 p 1 * (-p.z) + k.c5 p 2 * p.y

/-- The three values of `c6`. -/
def c6 : Fin 3 → ℚ :=
  ![0 - k.r56 / k.r55 * (-p.z - k.r45 / k.r44 * (-p.y / k.norm.x)) / k.norm.y
      - k.r46 / k.r44 * (-p.y / k.norm.x),
    -p.z - k.r56 / k.r55 * (0 - k.r45 / k.r44 * (p.x / k.norm.x)) / k.norm.y
      - k.r46 / k.r44 * (p.x / k.norm.x),
    p.y - k.r56 / k.r55 * (p.x - 0) / k.norm.y - k.r46 / k.r44 * (0 / k.norm.x)]

/-- The summands of `norm.z`. -/
def addNorm6 : ℚ := k.c6 p 0 * k.c6 p 0 + k.c6 p 1 * k.c6 p 1 + k.c6 p 2 * k.c6 p 2

end Coefficients

/-- What is collected for the domains and the clusters. -/
structure Collected where
  (domain cluster : ℕ → Coefficients)

section Code

variable (sqrt : ℚ → ℚ) (m : Solid)

def addNodes {α : Type} [Add α] (p : ℕ) (f : ℕ → α) (sum : α) : α :=
  (m.domain p).nodes.foldl (fun sum n => sum + f n) sum

/-- The loop over the domains that adds a buffer to the sums of their clusters. -/
def addToClusters {α : Type} [Add α] (buffer sums : ℕ → α) : ℕ → α :=
  (List.range m.ndomains).foldl
    (fun sums p => Function.update sums (m.clusters p) (sums (m.clusters p) + buffer p)) sums

def domainSum (s : Collected) (f : Coefficients → Point → ℚ) (sum : ℚ) (p : ℕ) : ℚ :=
  addNodes m p (fun n => f (s.domain p) (m.coordinates n - (s.domain p).center)) sum

/-- A sum over the nodes of a cluster, by way of a buffer that is reset before. -/
def clusterSum (s : Collected) (f : Coefficients → Point → ℚ) (sums : ℕ → ℚ) : ℕ → ℚ :=
  let cbuffer p := addNodes m p (fun n =>
    f (s.cluster (m.clusters p)) (m.coordinates n - (s.cluster (m.clusters p)).center)) 0
  addToClusters m cbuffer sums

/-- `_dNp[p]` -/
def dNp (p : ℕ) : ℕ :=
  let back := (m.domain p).intervals.getLast (m.domain p).nonempty
  back.DOFOffset + back.end' - back.begin'

def getCenter : Collected where
  domain p := { Coefficients.zero with
    np := dNp m p
    center := (addNodes m p m.coordinates ⟨0, 0, 0⟩).div (dNp m p) }
  cluster c :=
    let np := addToClusters m (dNp m) (fun _ => 0) c
    { Coefficients.zero with
      np := np
      center := (addToClusters m (fun p => addNodes m p m.coordinates ⟨0, 0, 0⟩)
        (fun _ => ⟨0, 0, 0⟩) c).divideBy np }

def computeNorm4 (s : Collected) : Collected where
  domain p :=
    let pnorm := domainSum m s (fun _ => Coefficients.addNorm4) 0 p
    { s.domain p with norm := { (s.domain p).norm with x := sqrt pnorm } }
  cluster c :=
    let norm := clusterSum m s (fun _ => Coefficients.addNorm4) (fun c => (s.cluster c).norm.x) c
    { s.cluster c with norm := { (s.cluster c).norm with x := sqrt norm } }

def computeCoefficients4 (s : Collected) : Collected where
  domain p := { s.domain p with
    r44 := domainSum m s Coefficients.add44 (s.domain p).r44 p
    r45 := domainSum m s Coefficients.add45 (s.domain p).r45 p }
  cluster c := { s.cluster c with
    r44 := clusterSum m s Coefficients.add44 (fun c => (s.cluster c).r44) c
    r45 := clusterSum m s Coefficients.add45 (fun c => (s.cluster c).r45) c }

def computeNorm5 (s : Collected) : Collected where
  domain p :=
    let dnorm := domainSum m s Coefficients.addNorm5 0 p
    { s.domain p with norm := { (s.domain p).norm with y := sqrt dnorm } }
  cluster c :=
    let norm := clusterSum m s Coefficients.addNorm5 (fun c => (s.cluster c).norm.y) c
    { s.cluster c with norm := { (s.cluster c).norm with y := sqrt norm } }

def computeCoefficients5 (s : Collected) : Collected where
  domain p := { s.domain p with
    r46 := domainSum m s Coefficients.add46 (s.domain p).r46 p
    r55 := domainSum m s Coefficients.add55 (s.domain p).r55 p
    r56 := domainSum m s Coefficients.add56 (s.domain p).r56 p }
  cluster c := { s.cluster c with
    r46 := clusterSum m s Coefficients.add46 (fun c => (s.cluster c).r46) c
    r55 := clusterSum m s Coefficients.add55 (fun c => (s.cluster c).r55) c
    r56 := clusterSum m s Coefficients.add56 (fun c => (s.cluster c).r56) c }

def computeNorm6 (s : Collected) : Collected where
  domain p :=
    let dnorm := domainSum m s Coefficients.addNorm6 0 p
    { s.domain p with norm := { (s.domain p).norm with z := sqrt dnorm } }
  cluster c :=
    let norm := clusterSum m s Coefficients.addNorm6 (fun c => (s.cluster c).norm.z) c
    { s.cluster c with norm := { (s.cluster c).norm with z := sqrt norm } }

/-- `StructuralMechanics::prepare` -/
def prepare : Collected :=
  computeNorm6 sqrt m (computeCoefficients5 m (computeNorm5 sqrt m (computeCoefficients4 m
    (computeNorm4 sqrt m (getCenter m)))))

namespace Coefficients

variable (k : Coefficients) (p : Point)

def column4 : Fin 3 → ℚ := ![-p.y / k.norm.x, p.x / k.norm.x, 0]

def column5 : Fin 3 → ℚ :=
  ![(-p.z - k.r45 / k.r44 * (-p.y / k.norm.x)) / k.norm.y,
    (0 - k.r45 / k.r44 * (p.x / k.norm.x)) / k.norm.y,
    (p.x - k.r45 / k.r44 * (0 / k.norm.x)) / k.norm.y]

def column6 : Fin 3 → ℚ :=
  ![(0 - k.r56 / k.r55 * ((-p.z - k.r45 / k.r44 * (-p.y / k.norm.x)) / k.norm.y)
      - k.r46 / k.r44 * (-p.y / k.norm.x)) / k.norm.z,
    (-p.z - k.r56 / k.r55 * ((0 - k.r45 / k.r44 * (p.x / k.norm.x)) / k.norm.y)
      - k.r46 / k.r44 * (p.x / k.norm.x)) / k.norm.z,
    (p.y - k.r56 / k.r55 * ((p.x - k.r45 / k.r44 * (0 / k.norm.x)) / k.norm.y)
      - k.r46 / k.r44 * (0 / k.norm.x)) / k.norm.z]

/-- The column of a translation: the same three values for every node. -/
def kernel (c : Fin 3) : Fin 3 → ℚ := Function.update (fun _ => 0) c (1 / sqrt k.np)

end Coefficients

/-- The loop over the nodes that writes one of the last three columns. -/
def nodeColumn (d : ℕ) (center : Point) (f : Point → Fin 3 → ℚ) : List ℚ :=
  (m.domain d).nodes.flatMap fun n => List.ofFn (f (m.coordinates n - center))

/-- `StructuralMechanics3D::analyticRegularization`, as far as it writes `N1`; it ends the program
on a matrix of another type. -/
def analyticRegularization (mtype : ℕ → Assembling.MatrixType) (domain : ℕ)
    (ortogonalCluster : Bool) : Option DenseMatrix :=
  if mtype domain ≠ .REAL_SYMMETRIC_POSITIVE_DEFINITE then none else
  let k := if ortogonalCluster then (prepare sqrt m).cluster (m.clusters domain)
    else (prepare sqrt m).domain domain
  let domainDOFCount := (m.domain domain).domainDOFCount
  let translations := (List.finRange 3).flatMap fun c =>
    (List.range (domainDOFCount / 3)).flatMap fun _ => List.ofFn (k.kernel sqrt c)
  let dense_values := translations ++ nodeColumn m domain k.center k.column4
    ++ nodeColumn m domain k.center k.column5 ++ nodeColumn m domain k.center k.column6
  some { rows := domainDOFCount, cols := 6, dense_values := fun i => dense_values.getD i 0 }

end Code

/-! ## The modes of some points -/

section Fits

variable (sqrt : ℚ → ℚ) {ι : Type}

def vectors (p : ι → Point) : ι → Fin 3 → ℚ := fun i => ![(p i).x, (p i).y, (p i).z]

def atPoints (f : Point → Fin 3 → ℚ) (p : ι → Point) : ι × Fin 3 → ℚ := fun q => f (p q.1) q.2

def Coefficients.column (k : Coefficients) : Fin 6 → Point → Fin 3 → ℚ :=
  ![fun _ => k.kernel sqrt 0, fun _ => k.kernel sqrt 1, fun _ => k.kernel sqrt 2, k.column4,
    k.column5, k.column6]

def Coefficients.columns (k : Coefficients) (q : ι → Point) : Fin 6 → ι × Fin 3 → ℚ :=
  fun j => atPoints (k.column sqrt j) q

/-- **The coefficients belong to points**: each is the sum over the points that its name stands
for. -/
structure Coefficients.Fits [Fintype ι] (k : Coefficients) (p : ι → Point) : Prop where
  np : k.np = Fintype.card ι
  center_x : k.center.x = (∑ i, (p i).x) / k.np
  center_y : k.center.y = (∑ i, (p i).y) / k.np
  center_z : k.center.z = (∑ i, (p i).z) / k.np
  norm_x : k.norm.x = sqrt (∑ i, Coefficients.addNorm4 (p i - k.center))
  r44 : k.r44 = ∑ i, k.add44 (p i - k.center)
  r45 : k.r45 = ∑ i, k.add45 (p i - k.center)
  norm_y : k.norm.y = sqrt (∑ i, k.addNorm5 (p i - k.center))
  r46 : k.r46 = ∑ i, k.add46 (p i - k.center)
  r55 : k.r55 = ∑ i, k.add55 (p i - k.center)
  r56 : k.r56 = ∑ i, k.add56 (p i - k.center)
  norm_z : k.norm.z = sqrt (∑ i, k.addNorm6 (p i - k.center))

lemma dotProduct_eq [Fintype ι] (u w : ι × Fin 3 → ℚ) :
    u ⬝ᵥ w = ∑ i, (u (i, 0) * w (i, 0) + u (i, 1) * w (i, 1) + u (i, 2) * w (i, 2)) := by
  rw [dotProduct, Fintype.sum_prod_type]
  exact sum_congr rfl fun i _ => Fin.sum_univ_three _

lemma vectors_sub (p : ι → Point) (center : Point) : vectors (fun i => p i - center)
    = fun i => vectors p i - ![center.x, center.y, center.z] := by
  funext i c
  fin_cases c <;> rfl

namespace Coefficients

variable {sqrt} {k : Coefficients} {q : ι → Point}

lemma kernel_eq (c : Fin 3) : atPoints (fun _ => k.kernel sqrt c) q
    = (1 / sqrt k.np) • RigidMotions.translation ℚ ι c := by
  funext ⟨i, e⟩
  by_cases h : e = c
  · subst h
    simp [atPoints, kernel, RigidMotions.translation]
  · simp [atPoints, kernel, RigidMotions.translation, h]

lemma column4_eq :
    atPoints k.column4 q = (1 / k.norm.x) • RigidMotions.turnXY (vectors q) := by
  funext ⟨i, e⟩
  fin_cases e <;> simp [atPoints, column4, RigidMotions.turnXY, vectors] <;> ring

lemma column5_eq : atPoints k.column5 q = (1 / k.norm.y) •
    (RigidMotions.turnXZ (vectors q) - (k.r45 / k.r44) • atPoints k.column4 q) := by
  funext ⟨i, e⟩
  fin_cases e <;>
    simp [atPoints, column4, column5, RigidMotions.turnXZ, vectors] <;> ring

lemma column6_eq : atPoints k.column6 q = (1 / k.norm.z) •
    (RigidMotions.turnYZ (vectors q) - (k.r56 / k.r55) • atPoints k.column5 q
      - (k.r46 / k.r44) • atPoints k.column4 q) := by
  funext ⟨i, e⟩
  fin_cases e <;>
    simp [atPoints, column4, column5, column6, RigidMotions.turnYZ, vectors] <;> ring

variable [Fintype ι]

/-! The sums of the code are the products of the columns. -/

lemma sum_addNorm4 : ∑ i, addNorm4 (q i) = RigidMotions.turnXY (vectors q)
    ⬝ᵥ RigidMotions.turnXY (vectors q) := by
  rw [dotProduct_eq]
  refine sum_congr rfl fun i _ => ?_
  simp [addNorm4, RigidMotions.turnXY, vectors]
  ring

lemma sum_add44 : ∑ i, k.add44 (q i) = atPoints k.column4 q ⬝ᵥ atPoints k.column4 q := by
  rw [dotProduct_eq]
  refine sum_congr rfl fun i _ => ?_
  simp [add44, atPoints, column4]

lemma sum_add45 : ∑ i, k.add45 (q i)
    = atPoints k.column4 q ⬝ᵥ RigidMotions.turnXZ (vectors q) := by
  rw [dotProduct_eq]
  refine sum_congr rfl fun i _ => ?_
  simp [add45, atPoints, column4, RigidMotions.turnXZ, vectors]

lemma sum_addNorm5 : ∑ i, k.addNorm5 (q i)
    = (RigidMotions.turnXZ (vectors q) - (k.r45 / k.r44) • atPoints k.column4 q)
      ⬝ᵥ (RigidMotions.turnXZ (vectors q)
        - (k.r45 / k.r44) • atPoints k.column4 q) := by
  rw [dotProduct_eq]
  refine sum_congr rfl fun i _ => ?_
  simp [addNorm5, atPoints, column4, RigidMotions.turnXZ, vectors]

lemma c5_eq (p : Point) : k.c5 p = k.column5 p := by
  rw [c5, column5, zero_div, mul_zero]

lemma sum_add46 : ∑ i, k.add46 (q i)
    = atPoints k.column4 q ⬝ᵥ RigidMotions.turnYZ (vectors q) := by
  rw [dotProduct_eq]
  refine sum_congr rfl fun i _ => ?_
  simp [add46, atPoints, column4, RigidMotions.turnYZ, vectors]

lemma sum_add55 : ∑ i, k.add55 (q i) = atPoints k.column5 q ⬝ᵥ atPoints k.column5 q := by
  rw [dotProduct_eq]
  exact sum_congr rfl fun i _ => by rw [add55, c5_eq]; rfl

lemma sum_add56 : ∑ i, k.add56 (q i)
    = atPoints k.column5 q ⬝ᵥ RigidMotions.turnYZ (vectors q) := by
  rw [dotProduct_eq]
  exact sum_congr rfl fun i _ => by rw [add56, c5_eq]; rfl

lemma sum_addNorm6 : ∑ i, k.addNorm6 (q i)
    = (RigidMotions.turnYZ (vectors q) - (k.r56 / k.r55) • atPoints k.column5 q
        - (k.r46 / k.r44) • atPoints k.column4 q)
      ⬝ᵥ (RigidMotions.turnYZ (vectors q) - (k.r56 / k.r55) • atPoints k.column5 q
        - (k.r46 / k.r44) • atPoints k.column4 q) := by
  rw [dotProduct_eq]
  refine sum_congr rfl fun i _ => ?_
  simp [addNorm6, c6, atPoints, column4, column5, RigidMotions.turnYZ, vectors]
  ring

/-! ### Translations and turns -/

lemma translation_dotProduct (c : Fin 3) (x : ℚ) (u : ι × Fin 3 → ℚ) :
    (x • RigidMotions.translation ℚ ι c) ⬝ᵥ u = x * ∑ i, u (i, c) := by
  rw [smul_dotProduct, dotProduct, Fintype.sum_prod_type, smul_eq_mul]
  refine congrArg (x * ·) (sum_congr rfl fun i _ => ?_)
  rw [Fintype.sum_eq_single c fun e he => by rw [RigidMotions.translation, if_neg he, zero_mul],
    RigidMotions.translation, if_pos rfl, one_mul]

lemma translation_dot_translation {c e : Fin 3} (h : c ≠ e) (x : ℚ) :
    (x • RigidMotions.translation ℚ ι c) ⬝ᵥ RigidMotions.translation ℚ ι e = 0 := by
  have hzero : ∀ i : ι, RigidMotions.translation ℚ ι e (i, c) = 0 := fun _ => if_neg h
  rw [translation_dotProduct, sum_eq_zero fun i _ => hzero i, mul_zero]

end Coefficients

namespace Coefficients.Fits

variable {sqrt} {k : Coefficients} {p : ι → Point} [Fintype ι]

lemma sum_sub_mean (f : ι → ℚ) {np : ℕ} (hnp : np = Fintype.card ι) {center : ℚ}
    (h : center = (∑ i, f i) / np) : ∑ i, (f i - center) = 0 := by
  rcases isEmpty_or_nonempty ι with hempty | hne
  · exact Fintype.sum_empty _
  · have hcard : (np : ℚ) ≠ 0 := by
      rw [hnp]
      exact Nat.cast_ne_zero.mpr Fintype.card_ne_zero
    rw [sum_sub_distrib, sum_const, card_univ, ← hnp, nsmul_eq_mul, h, mul_div_cancel₀ _ hcard,
      sub_self]

lemma translation_dot_turn (h : k.Fits sqrt p) (c : Fin 3) (x : ℚ) :
    (x • RigidMotions.translation ℚ ι c)
        ⬝ᵥ RigidMotions.turnXY (vectors fun i => p i - k.center) = 0 ∧
      (x • RigidMotions.translation ℚ ι c)
        ⬝ᵥ RigidMotions.turnXZ (vectors fun i => p i - k.center) = 0 ∧
      (x • RigidMotions.translation ℚ ι c)
        ⬝ᵥ RigidMotions.turnYZ (vectors fun i => p i - k.center) = 0 := by
  have hx : ∑ i, (p i - k.center).x = 0 := sum_sub_mean _ h.np h.center_x
  have hy : ∑ i, (p i - k.center).y = 0 := sum_sub_mean _ h.np h.center_y
  have hz : ∑ i, (p i - k.center).z = 0 := sum_sub_mean _ h.np h.center_z
  simp only [translation_dotProduct, RigidMotions.turnXY, RigidMotions.turnXZ,
    RigidMotions.turnYZ, vectors]
  fin_cases c <;> simp [sum_neg_distrib, hx, hy, hz]

lemma orthogonalizes_translations {v : ι → Fin 3 → ℚ} (hv : ¬Collinear ℚ (Set.range v)) {x : ℚ}
    (hx : x ≠ 0) : GramSchmidt.Orthogonalizes
      [RigidMotions.translation ℚ ι 0, RigidMotions.translation ℚ ι 1,
        RigidMotions.translation ℚ ι 2]
      [x • RigidMotions.translation ℚ ι 0, x • RigidMotions.translation ℚ ι 1,
        x • RigidMotions.translation ℚ ι 2] := by
  have hindependent := RigidMotions.linearIndependent_basis hv
  have h0 := GramSchmidt.Orthogonalizes.nil.append_of_orthogonal
    (GramSchmidt.notMem_span_of_linearIndependent hindependent rfl) hx
    fun q hq => absurd hq List.not_mem_nil
  have h1 := h0.append_of_orthogonal
    (GramSchmidt.notMem_span_of_linearIndependent hindependent rfl) hx fun q hq => by
      rw [List.mem_singleton.mp hq]
      exact translation_dot_translation zero_ne_one x
  refine h1.append_of_orthogonal
    (GramSchmidt.notMem_span_of_linearIndependent hindependent rfl) hx fun q hq => ?_
  rcases List.mem_pair.mp hq with rfl | rfl
  · exact translation_dot_translation (by decide) x
  · exact translation_dot_translation (by decide) x

/-- **The columns orthogonalize the modes** of the points, if these are not on a line. -/
theorem orthogonalizes (hsqrt : ∀ x, 0 < x → sqrt x ≠ 0) (h : k.Fits sqrt p)
    (hp : ¬Collinear ℚ (Set.range (vectors p))) :
    GramSchmidt.Orthogonalizes (List.ofFn (RigidMotions.basis (vectors fun i => p i - k.center)))
      (List.ofFn (k.columns sqrt fun i => p i - k.center)) := by
  have hv : ¬Collinear ℚ (Set.range (vectors fun i => p i - k.center)) := by
    rw [vectors_sub]
    exact fun hc => hp (RigidMotions.collinear_sub hc)
  have hindependent := RigidMotions.linearIndependent_basis hv
  have hnp : 1 / sqrt k.np ≠ 0 := by
    refine one_div_ne_zero (hsqrt _ ?_)
    rw [h.np, Nat.cast_pos, Fintype.card_pos_iff]
    by_contra hempty
    rw [not_nonempty_iff] at hempty
    exact hp (Set.range_eq_empty (vectors p) ▸ collinear_empty ℚ _)
  have h3 := orthogonalizes_translations hv hnp
  -- the turns are orthogonal to the translations, so only the projections to turns are subtracted
  have hw4 : GramSchmidt.orthogonalPart
      [(1 / sqrt k.np) • RigidMotions.translation ℚ ι 0,
        (1 / sqrt k.np) • RigidMotions.translation ℚ ι 1,
        (1 / sqrt k.np) • RigidMotions.translation ℚ ι 2]
      (RigidMotions.turnXY (vectors fun i => p i - k.center))
        = RigidMotions.turnXY (vectors fun i => p i - k.center) := by
    refine GramSchmidt.orthogonalPart_eq_self fun q hq => ?_
    simp only [List.mem_cons, List.not_mem_nil, or_false] at hq
    rcases hq with rfl | rfl | rfl <;> exact (h.translation_dot_turn _ _).1
  have h4 := h3.append_root hsqrt
    (GramSchmidt.notMem_span_of_linearIndependent hindependent rfl) hw4
  rw [← sum_addNorm4, ← h.norm_x, ← column4_eq] at h4
  have hw5 : GramSchmidt.orthogonalPart
      ([(1 / sqrt k.np) • RigidMotions.translation ℚ ι 0,
        (1 / sqrt k.np) • RigidMotions.translation ℚ ι 1,
        (1 / sqrt k.np) • RigidMotions.translation ℚ ι 2]
        ++ [atPoints k.column4 fun i => p i - k.center])
      (RigidMotions.turnXZ (vectors fun i => p i - k.center))
        = RigidMotions.turnXZ (vectors fun i => p i - k.center)
          - (k.r45 / k.r44) • atPoints k.column4 fun i => p i - k.center := by
    simp only [GramSchmidt.orthogonalPart, List.cons_append, List.nil_append, List.map_cons,
      List.map_nil, List.sum_cons, List.sum_nil, (h.translation_dot_turn _ _).2.1, zero_div,
      zero_smul, zero_add, add_zero, ← sum_add45, ← sum_add44, ← h.r45, ← h.r44]
  have h5 := h4.append_root hsqrt
    (GramSchmidt.notMem_span_of_linearIndependent hindependent rfl) hw5
  rw [← sum_addNorm5, ← h.norm_y, ← column5_eq] at h5
  have hw6 : GramSchmidt.orthogonalPart
      ([(1 / sqrt k.np) • RigidMotions.translation ℚ ι 0,
        (1 / sqrt k.np) • RigidMotions.translation ℚ ι 1,
        (1 / sqrt k.np) • RigidMotions.translation ℚ ι 2]
        ++ [atPoints k.column4 fun i => p i - k.center]
        ++ [atPoints k.column5 fun i => p i - k.center])
      (RigidMotions.turnYZ (vectors fun i => p i - k.center))
        = RigidMotions.turnYZ (vectors fun i => p i - k.center)
          - (k.r56 / k.r55) • (atPoints k.column5 fun i => p i - k.center)
          - (k.r46 / k.r44) • atPoints k.column4 fun i => p i - k.center := by
    simp only [GramSchmidt.orthogonalPart, List.cons_append, List.nil_append, List.map_cons,
      List.map_nil, List.sum_cons, List.sum_nil, (h.translation_dot_turn _ _).2.2, zero_div,
      zero_smul, zero_add, add_zero, ← sum_add46, ← sum_add44, ← sum_add56, ← sum_add55, ← h.r46,
      ← h.r44, ← h.r56, ← h.r55]
    abel
  have h6 := h5.append_root hsqrt
    (GramSchmidt.notMem_span_of_linearIndependent hindependent rfl) hw6
  rw [← sum_addNorm6, ← h.norm_z, ← column6_eq] at h6
  have hcolumns : List.ofFn (k.columns sqrt fun i => p i - k.center)
      = [atPoints (fun _ => k.kernel sqrt 0) fun i => p i - k.center,
        atPoints (fun _ => k.kernel sqrt 1) fun i => p i - k.center,
        atPoints (fun _ => k.kernel sqrt 2) fun i => p i - k.center,
        atPoints k.column4 fun i => p i - k.center, atPoints k.column5 fun i => p i - k.center,
        atPoints k.column6 fun i => p i - k.center] := rfl
  rw [hcolumns, kernel_eq, kernel_eq, kernel_eq]
  exact h6

/-- The columns are pairwise orthogonal. -/
theorem columns_orthogonal (hsqrt : ∀ x, 0 < x → sqrt x ≠ 0) (h : k.Fits sqrt p)
    (hp : ¬Collinear ℚ (Set.range (vectors p))) {j l : Fin 6} (hjl : j ≠ l) :
    k.columns sqrt (fun i => p i - k.center) j
      ⬝ᵥ k.columns sqrt (fun i => p i - k.center) l = 0 := by
  have hpairwise := List.pairwise_ofFn.mp (h.orthogonalizes hsqrt hp).pairwise
  rcases lt_or_gt_of_ne hjl with hlt | hlt
  · exact hpairwise hlt
  · rw [dotProduct_comm]
    exact hpairwise hlt

/-- The columns span the modes. -/
theorem span_columns (hsqrt : ∀ x, 0 < x → sqrt x ≠ 0) (h : k.Fits sqrt p)
    (hp : ¬Collinear ℚ (Set.range (vectors p))) :
    Submodule.span ℚ (Set.range (k.columns sqrt fun i => p i - k.center))
      = RigidMotions.modes (vectors p) := by
  have hspan := (h.orthogonalizes hsqrt hp).span_eq
  simp only [List.mem_ofFn] at hspan
  refine hspan.trans ((RigidMotions.span_basis _).trans ?_)
  rw [vectors_sub, RigidMotions.modes_sub]

end Coefficients.Fits

end Fits

/-! ## The sums of the code -/

namespace Solid

variable (m : Solid)

def points (p : ℕ) : Fin (m.domain p).nodes.length → Point :=
  fun i => m.coordinates ((m.domain p).nodes.get i)

def clusterDomains (c : ℕ) : Finset ℕ := (range m.ndomains).filter fun p => m.clusters p = c

def clusterPoints (c : ℕ) :
    (Σ p : m.clusterDomains c, Fin (m.domain p).nodes.length) → Point :=
  fun i => m.points i.1 i.2

end Solid

section Sums

variable {sqrt : ℚ → ℚ} (m : Solid)

lemma foldl_add {α β : Type} [AddCommMonoid β] (f : α → β) (l : List α) (sum : β) :
    l.foldl (fun sum n => sum + f n) sum = sum + (l.map f).sum := by
  induction l generalizing sum with
  | nil => exact (add_zero sum).symm
  | cons n l ih => rw [List.foldl_cons, ih, List.map_cons, List.sum_cons, add_assoc]

lemma addNodes_eq {α : Type} [AddCommMonoid α] (p : ℕ) (f : ℕ → α) (sum : α) :
    addNodes m p f sum = sum + ∑ i, f ((m.domain p).nodes.get i) := by
  rw [addNodes, foldl_add]
  exact congrArg (sum + ·) (Fin.sum_univ_fun_getElem _ f).symm

lemma addToClusters_eq {α : Type} [AddCommMonoid α] (buffer sums : ℕ → α) (c : ℕ) :
    addToClusters m buffer sums c = sums c + ∑ p ∈ m.clusterDomains c, buffer p := by
  rw [addToClusters, Solid.clusterDomains, sum_filter]
  induction m.ndomains with
  | zero => exact (add_zero _).symm
  | succ n ih =>
      rw [List.range_succ, List.foldl_append, List.foldl_cons, List.foldl_nil, sum_range_succ,
        ← add_assoc, ← ih]
      by_cases h : m.clusters n = c
      · rw [if_pos h, h, Function.update_self]
      · rw [if_neg h, Function.update_of_ne (Ne.symm h), add_zero]

lemma domainSum_eq (s : Collected) (f : Coefficients → Point → ℚ) (sum : ℚ) (p : ℕ) :
    domainSum m s f sum p
      = sum + ∑ i, f (s.domain p) (m.points p i - (s.domain p).center) :=
  addNodes_eq m p _ sum

lemma sum_clusterPoints (c : ℕ) (f : Point → ℚ) :
    ∑ p ∈ m.clusterDomains c, ∑ i, f (m.points p i) = ∑ i, f (m.clusterPoints c i) := by
  rw [Fintype.sum_sigma, ← sum_coe_sort]
  rfl

lemma clusterSum_eq (s : Collected) (f : Coefficients → Point → ℚ) (sums : ℕ → ℚ) (c : ℕ) :
    clusterSum m s f sums c
      = sums c + ∑ i, f (s.cluster c) (m.clusterPoints c i - (s.cluster c).center) := by
  rw [← sum_clusterPoints m c fun q => f (s.cluster c) (q - (s.cluster c).center)]
  refine (addToClusters_eq m _ sums c).trans (congrArg (sums c + ·) (sum_congr rfl fun p hp => ?_))
  rw [(mem_filter.mp hp).2, addNodes_eq, zero_add]
  rfl

lemma apply_addNodes {g : Point → ℚ} (hg : ∀ p q, g (p + q) = g p + g q) (p : ℕ) (f : ℕ → Point)
    (sum : Point) : g (addNodes m p f sum) = addNodes m p (fun n => g (f n)) (g sum) := by
  rw [addNodes, addNodes]
  induction (m.domain p).nodes generalizing sum with
  | nil => rfl
  | cons n l ih => rw [List.foldl_cons, List.foldl_cons, ih, hg]

lemma apply_addToClusters {g : Point → ℚ} (hg : ∀ p q, g (p + q) = g p + g q)
    (buffer sums : ℕ → Point) (c : ℕ) : g (addToClusters m buffer sums c)
      = addToClusters m (fun p => g (buffer p)) (fun c => g (sums c)) c := by
  rw [addToClusters, addToClusters]
  induction List.range m.ndomains generalizing sums with
  | nil => rfl
  | cons p l ih =>
      have hupdate : (fun e => g (Function.update sums (m.clusters p)
          (sums (m.clusters p) + buffer p) e)) = Function.update (fun e => g (sums e))
            (m.clusters p) (g (sums (m.clusters p)) + g (buffer p)) := by
        funext e
        by_cases h : e = m.clusters p
        · rw [h, Function.update_self, Function.update_self, hg]
        · rw [Function.update_of_ne h, Function.update_of_ne h]
      rw [List.foldl_cons, List.foldl_cons, ih, hupdate]

lemma dNp_eq (p : ℕ) : dNp m p = (m.domain p).nodes.length :=
  ((m.domain p).cumulative.length (m.domain p).nonempty).trans (Nat.zero_add _)

lemma apply_domainCenter {g : Point → ℚ} (hg : ∀ p q, g (p + q) = g p + g q)
    (hzero : g ⟨0, 0, 0⟩ = 0) (p : ℕ) :
    g (addNodes m p m.coordinates ⟨0, 0, 0⟩) * (1 / dNp m p)
      = (∑ i, g (m.points p i)) / dNp m p := by
  rw [apply_addNodes m hg, addNodes_eq, hzero, zero_add, mul_one_div]
  rfl

lemma apply_clusterCenter {g : Point → ℚ} (hg : ∀ p q, g (p + q) = g p + g q)
    (hzero : g ⟨0, 0, 0⟩ = 0) (c : ℕ) :
    g (addToClusters m (fun p => addNodes m p m.coordinates ⟨0, 0, 0⟩) (fun _ => ⟨0, 0, 0⟩) c)
      = ∑ i, g (m.clusterPoints c i) := by
  rw [apply_addToClusters m hg, addToClusters_eq, hzero, zero_add, ← sum_clusterPoints]
  refine sum_congr rfl fun p _ => ?_
  rw [apply_addNodes m hg, addNodes_eq, hzero, zero_add]
  rfl

/-- **The coefficients of a domain** belong to its nodes. -/
theorem fits_domain (p : ℕ) : ((prepare sqrt m).domain p).Fits sqrt (m.points p) where
  np := (dNp_eq m p).trans (Fintype.card_fin _).symm
  center_x := apply_domainCenter m (fun _ _ => rfl) rfl p
  center_y := apply_domainCenter m (fun _ _ => rfl) rfl p
  center_z := apply_domainCenter m (fun _ _ => rfl) rfl p
  norm_x := congrArg sqrt ((domainSum_eq m _ _ 0 p).trans (zero_add _))
  r44 := (domainSum_eq m _ _ 0 p).trans (zero_add _)
  r45 := (domainSum_eq m _ _ 0 p).trans (zero_add _)
  norm_y := congrArg sqrt ((domainSum_eq m _ _ 0 p).trans (zero_add _))
  r46 := (domainSum_eq m _ _ 0 p).trans (zero_add _)
  r55 := (domainSum_eq m _ _ 0 p).trans (zero_add _)
  r56 := (domainSum_eq m _ _ 0 p).trans (zero_add _)
  norm_z := congrArg sqrt ((domainSum_eq m _ _ 0 p).trans (zero_add _))

/-- **The coefficients of a cluster** belong to the nodes of its domains. -/
theorem fits_cluster (c : ℕ) : ((prepare sqrt m).cluster c).Fits sqrt (m.clusterPoints c) where
  np := by
    refine (addToClusters_eq m (dNp m) _ c).trans ?_
    rw [zero_add, Fintype.card_sigma, ← sum_coe_sort]
    exact sum_congr rfl fun p _ => (dNp_eq m p).trans (Fintype.card_fin _).symm
  center_x := congrArg (· / _) (apply_clusterCenter m (fun _ _ => rfl) rfl c)
  center_y := congrArg (· / _) (apply_clusterCenter m (fun _ _ => rfl) rfl c)
  center_z := congrArg (· / _) (apply_clusterCenter m (fun _ _ => rfl) rfl c)
  norm_x := congrArg sqrt ((clusterSum_eq m _ _ _ c).trans (zero_add _))
  r44 := (clusterSum_eq m _ _ _ c).trans (zero_add _)
  r45 := (clusterSum_eq m _ _ _ c).trans (zero_add _)
  norm_y := congrArg sqrt ((clusterSum_eq m _ _ _ c).trans (zero_add _))
  r46 := (clusterSum_eq m _ _ _ c).trans (zero_add _)
  r55 := (clusterSum_eq m _ _ _ c).trans (zero_add _)
  r56 := (clusterSum_eq m _ _ _ c).trans (zero_add _)
  norm_z := congrArg sqrt ((clusterSum_eq m _ _ _ c).trans (zero_add _))

end Sums

/-! ## The columns of a domain -/

lemma getElem?_flatMap_finRange {α : Type} {n k : ℕ} (f : Fin n → List α)
    (hf : ∀ a, (f a).length = k) (a : Fin n) {c : ℕ} (hc : c < k) :
    ((List.finRange n).flatMap f)[k * a + c]? = (f a)[c]? := by
  have hrange : (List.finRange n).flatMap f
      = (List.range n).flatMap fun b => if h : b < n then f ⟨b, h⟩ else [] := by
    rw [← List.map_coe_finRange_eq_range, List.flatMap_map]
    exact List.flatMap_congr fun b _ => by rw [dif_pos b.2]
  have hstart : Layout.start (fun b => (if h : b < n then f ⟨b, h⟩ else []).length) a = k * a := by
    rw [Layout.start, sum_congr rfl fun b hb => ?_, sum_const, card_range, smul_eq_mul, mul_comm]
    rw [dif_pos ((mem_range.mp hb).trans a.2), hf]
  have h := Layout.getElem?_flatMap_range (fun b => if h : b < n then f ⟨b, h⟩ else []) a.2
    (j := c) (by rw [dif_pos a.2, hf]; exact hc)
  rw [hstart] at h
  rw [hrange, h, dif_pos a.2]

section Columns

variable {sqrt : ℚ → ℚ} (m : Solid)

lemma length_nodes (d : ℕ) : (m.domain d).domainDOFCount = 3 * (m.domain d).nodes.length := by
  rw [Domain.domainDOFCount_eq, m.DOFs]

lemma nodeColumn_eq (d : ℕ) (center : Point) (f : Point → Fin 3 → ℚ) :
    nodeColumn m d center f
      = (List.finRange _).flatMap fun a => List.ofFn (f (m.points d a - center)) := by
  conv_lhs => rw [nodeColumn, ← List.map_get_finRange (m.domain d).nodes, List.flatMap_map]
  rfl

def columnValues (sqrt : ℚ → ℚ) (m : Solid) (k : Coefficients) (d : ℕ) (j : Fin 6) : List ℚ :=
  (List.finRange (m.domain d).nodes.length).flatMap fun a =>
    List.ofFn (k.column sqrt j (m.points d a - k.center))

lemma translationColumn_eq (k : Coefficients) (d : ℕ) (c : Fin 3) :
    ((List.range ((m.domain d).domainDOFCount / 3)).flatMap fun _ => List.ofFn (k.kernel sqrt c))
      = (List.finRange (m.domain d).nodes.length).flatMap fun _ => List.ofFn (k.kernel sqrt c) := by
  rw [length_nodes, Nat.mul_div_cancel_left _ (by decide), ← List.map_coe_finRange_eq_range,
    List.flatMap_map]

/-- The coefficients that `analyticRegularization` uses. -/
def used (sqrt : ℚ → ℚ) (d : ℕ) (ortogonalCluster : Bool) : Coefficients :=
  if ortogonalCluster then (prepare sqrt m).cluster (m.clusters d)
  else (prepare sqrt m).domain d

lemma analyticRegularization_eq_some {mtype : ℕ → Assembling.MatrixType} {d : ℕ}
    {ortogonalCluster : Bool} {N1 : DenseMatrix}
    (h : analyticRegularization sqrt m mtype d ortogonalCluster = some N1) :
    N1 = { rows := (m.domain d).domainDOFCount, cols := 6, dense_values := fun i =>
      ((List.finRange 6).flatMap fun j =>
        columnValues sqrt m (used m sqrt d ortogonalCluster) d j).getD i 0 } := by
  rw [analyticRegularization] at h
  by_cases htype : mtype d ≠ .REAL_SYMMETRIC_POSITIVE_DEFINITE
  · rw [if_pos htype] at h
    exact absurd h (Option.some_ne_none N1).symm
  · rw [if_neg htype] at h
    refine (Option.some.inj h).symm.trans ?_
    have h3 : List.finRange 3 = [0, 1, 2] := rfl
    have h6 : List.finRange 6 = [0, 1, 2, 3, 4, 5] := rfl
    rw [h3, h6]
    simp only [List.flatMap_cons, List.flatMap_nil, List.append_nil, List.append_assoc,
      translationColumn_eq, nodeColumn_eq]
    rfl

lemma entry_N1 {mtype : ℕ → Assembling.MatrixType} {d : ℕ} {ortogonalCluster : Bool}
    {N1 : DenseMatrix} (h : analyticRegularization sqrt m mtype d ortogonalCluster = some N1)
    (a : Fin (m.domain d).nodes.length) (c : Fin 3) (j : Fin 6) :
    N1.entry (3 * a + c) j = (used m sqrt d ortogonalCluster).column sqrt j
      (m.points d a - (used m sqrt d ortogonalCluster).center) c := by
  have hlength : ∀ j, (columnValues sqrt m (used m sqrt d ortogonalCluster) d j).length
      = 3 * (m.domain d).nodes.length := by
    intro j
    rw [columnValues, List.length_flatMap, List.map_congr_left fun a _ => List.length_ofFn,
      List.map_const', List.sum_replicate, List.length_finRange, smul_eq_mul, mul_comm]
  have hrow : 3 * (a : ℕ) + c < 3 * (m.domain d).nodes.length := by omega
  rw [analyticRegularization_eq_some m h, DenseMatrix.entry, length_nodes, mul_comm (j : ℕ)]
  dsimp only
  rw [List.getD_eq_getElem?_getD, getElem?_flatMap_finRange _ hlength j hrow, columnValues,
    getElem?_flatMap_finRange _ (fun a => List.length_ofFn) a c.2, List.getElem?_ofFn,
    dif_pos c.2]
  rfl

def unknowns (d : ℕ) :
    Fin (m.domain d).nodes.length × Fin 3 ≃ Fin (m.domain d).domainDOFCount :=
  finProdFinEquiv.trans (finCongr ((mul_comm _ _).trans (length_nodes m d).symm))

lemma unknowns_apply (d : ℕ) (a : Fin (m.domain d).nodes.length) (c : Fin 3) :
    (unknowns m d (a, c) : ℕ) = 3 * a + c := Nat.add_comm _ _

lemma entry_unknowns {mtype : ℕ → Assembling.MatrixType} {d : ℕ} {ortogonalCluster : Bool}
    {N1 : DenseMatrix} (h : analyticRegularization sqrt m mtype d ortogonalCluster = some N1)
    (j : Fin 6) : (fun q => N1.entry (unknowns m d q) j) = (used m sqrt d ortogonalCluster).columns
      sqrt (fun i => m.points d i - (used m sqrt d ortogonalCluster).center) j := by
  funext q
  rw [← Prod.eta q, unknowns_apply, entry_N1 m h]
  rfl

lemma sum_entries {mtype : ℕ → Assembling.MatrixType} {d : ℕ} {ortogonalCluster : Bool}
    {N1 : DenseMatrix} (h : analyticRegularization sqrt m mtype d ortogonalCluster = some N1)
    (j l : Fin 6) : ∑ i ∈ range N1.rows, N1.entry i j * N1.entry i l
      = ∑ a, ∑ c, (used m sqrt d ortogonalCluster).column sqrt j
          (m.points d a - (used m sqrt d ortogonalCluster).center) c
        * (used m sqrt d ortogonalCluster).column sqrt l
          (m.points d a - (used m sqrt d ortogonalCluster).center) c := by
  have hrows : N1.rows = (m.domain d).domainDOFCount := by
    rw [analyticRegularization_eq_some m h]
  rw [hrows, ← Fin.sum_univ_eq_sum_range fun i => N1.entry i j * N1.entry i l,
    ← (unknowns m d).sum_comp, Fintype.sum_prod_type]
  refine sum_congr rfl fun a _ => sum_congr rfl fun c _ => ?_
  rw [unknowns_apply, entry_N1 m h, entry_N1 m h]

/-- A vector of the unknowns of a domain is a **rigid body mode**: a translation and a turn. -/
def IsRigidBodyMode (d : ℕ) (u : Fin (m.domain d).domainDOFCount → ℚ) : Prop :=
  ∃ t ω : Fin 3 → ℚ, ∀ n ∈ (m.domain d).nodes, ∀ (c : Fin 3) (i : Fin _),
    (i : ℕ) = (m.domain d).DOF n c → u i = RigidMotions.displacement
      (vectors m.coordinates) t ω (n, c)

lemma isRigidBodyMode_iff {d : ℕ} {u : Fin (m.domain d).domainDOFCount → ℚ} :
    IsRigidBodyMode m d u ↔
      (fun q => u (unknowns m d q)) ∈ RigidMotions.modes (vectors (m.points d)) := by
  have hDOF : ∀ (a : Fin (m.domain d).nodes.length) (c : Fin 3),
      (unknowns m d (a, c) : ℕ) = (m.domain d).DOF ((m.domain d).nodes.get a) c := by
    intro a c
    rw [unknowns_apply, Domain.DOF, m.DOFs, List.get_eq_getElem,
      (m.domain d).nodup_nodes.idxOf_getElem]
  rw [RigidMotions.mem_modes]
  refine exists_congr fun t => exists_congr fun ω => ⟨fun h => ?_, fun h n hn c i hi => ?_⟩
  · funext q
    exact h _ (List.get_mem _ q.1) q.2 _ (hDOF q.1 q.2)
  · obtain ⟨a, rfl⟩ := List.get_of_mem hn
    have hat : unknowns m d (a, c) = i := Fin.ext ((hDOF a c).trans hi.symm)
    rw [← hat]
    exact congrFun h (a, c)

lemma not_collinear_clusterPoints {d : ℕ} (hd : d < m.ndomains)
    (h : ¬Collinear ℚ (Set.range (vectors (m.points d)))) :
    ¬Collinear ℚ (Set.range (vectors (m.clusterPoints (m.clusters d)))) := by
  refine fun hc => h (hc.subset ?_)
  rintro _ ⟨i, rfl⟩
  exact ⟨⟨⟨d, mem_filter.mpr ⟨mem_range.mpr hd, rfl⟩⟩, i⟩, rfl⟩

lemma threeNodes_cumulative : Cumulative 0 0 [⟨0, 3, 0, 0⟩] :=
  ⟨le_rfl, Nat.zero_le 3, rfl, trivial⟩

def threeNodesDomain : Domain where
  DOFs := 3
  intervals := [⟨0, 3, 0, 0⟩]
  nonempty := List.cons_ne_nil _ _
  cumulative := threeNodes_cumulative

def threeNodes : Solid where
  ndomains := 1
  domain _ := threeNodesDomain
  DOFs _ := rfl
  clusters _ := 0
  coordinates n := if n = 0 then ⟨0, 0, 0⟩ else if n = 1 then ⟨1, 0, 0⟩ else ⟨0, 1, 0⟩

lemma threeNodes_not_collinear : ¬Collinear ℚ (Set.range (vectors (threeNodes.points 0))) := by
  have hmem : ∀ i : Fin 3, vectors threeNodes.coordinates i
      ∈ Set.range (vectors (threeNodes.points 0)) := by
    intro i
    fin_cases i
    exacts [⟨(0 : Fin 3), rfl⟩, ⟨(1 : Fin 3), rfl⟩, ⟨(2 : Fin 3), rfl⟩]
  rw [collinear_iff_of_mem (hmem 0)]
  rintro ⟨v, hv⟩
  obtain ⟨r, hr⟩ := hv _ (hmem 1)
  obtain ⟨s, hs⟩ := hv _ (hmem 2)
  have hr0 : (1 : ℚ) = r * v 0 + 0 := congrFun hr 0
  have hr1 : (0 : ℚ) = r * v 1 + 0 := congrFun hr 1
  have hs1 : (1 : ℚ) = s * v 1 + 0 := congrFun hs 1
  rcases eq_or_ne r 0 with rfl | hne
  · rw [zero_mul, add_zero] at hr0
    exact one_ne_zero hr0
  · have hv1 : v 1 = 0 := (mul_eq_zero.mp (by rw [← add_zero (r * v 1), ← hr1])).resolve_left hne
    rw [hv1, mul_zero, add_zero] at hs1
    exact one_ne_zero hs1

end Columns

end Espreso.StructuralMechanics
