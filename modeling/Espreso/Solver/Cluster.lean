import Espreso.Lib.Layout
import Espreso.Lib.Tree
import Espreso.Solver.SparseMatrix

/-!
# The hybrid FETI operator of a cluster

The preprocessing of a cluster and the two copies of its operator.

* `Domain.B0_comp`, `Domain.B0Kplus_comp` — `ClusterBase::CompressB0` and the local part of `CreateF0`.
* `Cluster.createG0`, `Cluster.createF0` — `ClusterBase::CreateG0`, `CreateF0`.
* `Cluster.multKplusGlobal_l`, `Cluster.multKplusGlobal_Kinv` — the operator and its accelerated
  correction.

Vectors are given by their values; where the code writes by a computed index the size is checked, and
`none` stands for an access out of bounds.
-/

namespace Espreso

open Finset

/-- `v[i] = a` for a list of pairs `(i, a)`, into a vector of the given size. -/
def storeAll (size : ℕ) (v : ℕ → ℚ) (ws : List (ℕ × ℚ)) : Option (ℕ → ℚ) :=
  if ∀ w ∈ ws, w.1 < size then some (ws.foldl (fun v w => Function.update v w.1 w.2) v) else none

/-- `v[i] += a` for a list of pairs `(i, a)`, into a vector of the given size. -/
def addAll (size : ℕ) (v : ℕ → ℚ) (ws : List (ℕ × ℚ)) : Option (ℕ → ℚ) :=
  if ∀ w ∈ ws, w.1 < size then
    some (ws.foldl (fun v w => Function.update v w.1 (v w.1 + w.2)) v)
  else none

/-! ## Domains -/

/-- What the operator of a cluster uses of a domain.  `K` is the matrix without regularization and
`Kplus` the matrix that the direct solver applies. -/
structure Domain where
  domain_prim_size : ℕ
  K : ℕ → ℕ → ℚ
  Kplus : ℕ → ℕ → ℚ
  Kplus_R : DenseMatrix
  B0 : SparseMatrix

namespace Domain

variable (d : Domain)

def multKplusLocal (x : ℕ → ℚ) (i : ℕ) : ℚ := ∑ j ∈ range d.domain_prim_size, d.Kplus i j * x j

/-- The rows of `B0` that store something. -/
def B0_rows : List ℕ := (List.range d.B0.rows).filter fun i => d.B0.rowAt i ≠ []

/-- `B0_comp_map_vec`, numbered from 1. -/
def B0_comp_map_vec : List ℕ := d.B0_rows.map (· + 1)

/-- `B0_comp`: the row pointers that occur twice are dropped. -/
def B0_comp : SparseMatrix := { d.B0 with csr := d.B0.csr.filter (· ≠ []) }

/-- `Kplus.SolveMat_Dense`: all columns are solved, and what is not zero is stored. -/
def solveMat_Dense (A : SparseMatrix) : SparseMatrix :=
  DenseMatrix.convertDenseToCSR
    { rows := A.rows
      cols := A.cols
      dense_values := fun k => d.multKplusLocal (fun i => A.entry i (k / A.rows)) (k % A.rows) }

/-- `B0Kplus_comp` after `MatTranspose` and `ConvertCSRToDense`. -/
def B0Kplus_comp : DenseMatrix :=
  DenseMatrix.ofSparse (d.solveMat_Dense d.B0_comp.matTranspose).matTranspose

/-- `B0Kplus`: the columns are numbered as the rows of `B0`. -/
def B0Kplus : SparseMatrix where
  cols := d.B0.rows
  csr := (d.solveMat_Dense d.B0_comp.matTranspose).csr.map fun row =>
    row.map fun e => (d.B0_comp_map_vec.getD e.1 0 - 1, e.2)

def G0LocalTemp : SparseMatrix :=
  (d.B0.matMat d.Kplus_R.convertDenseToCSR).matTranspose.matScale (-1)

/-- The size of the work vectors `tm1`, `tm2` and `tm3`. -/
def max_tmp_vec_size : ℕ := if d.B0.rows > d.B0.cols then d.B0.rows else d.B0.cols

end Domain

/-! ## Clusters -/

/-- A cluster: its domains and its direct solvers, which are not part of the source. -/
structure Cluster where
  domains_size : ℕ
  domains : ℕ → Domain
  F0_Solve : (ℕ → ℚ) → ℕ → ℚ
  Sa_Solve : (ℕ → ℚ) → ℕ → ℚ

namespace Cluster

variable (c : Cluster)

/-- `ClusterBase::CreateG0` -/
def createG0 : SparseMatrix :=
  (List.range c.domains_size).foldl (fun G0 d => G0.matAppend (c.domains d).G0LocalTemp)
    SparseMatrix.empty

/-- `ClusterBase::CreateF0`: the products of the domains are added along a binary tree. -/
def createF0 : SparseMatrix :=
  (Tree.reduce SparseMatrix.matAddInPlace c.domains_size (Nat.clog 2 c.domains_size)
    (fun d => (c.domains d).B0.matMat (c.domains d).B0Kplus) 0).removeLower

def kerindices (d : ℕ) : ℕ := Layout.start (fun d => (c.domains d).Kplus_R.cols) d

/-- What the loop over the domains stores in `vec_e0`, with the block of a domain from `e0_start`. -/
def e0Writes (e0_start : ℕ → ℕ) (x_in : ℕ → ℕ → ℚ) : List (ℕ × ℚ) :=
  (List.range c.domains_size).flatMap fun d =>
    (List.range (c.domains d).Kplus_R.cols).map fun i =>
      (e0_start d + i, -(c.domains d).Kplus_R.denseMatVecT (x_in d) i)

/-- What the loop over the domains adds to `vec_g0`. -/
def g0Writes (x_in : ℕ → ℕ → ℚ) : List (ℕ × ℚ) :=
  (List.range c.domains_size).flatMap fun d =>
    (List.range (c.domains d).B0Kplus_comp.rows).map fun i =>
      ((c.domains d).B0_comp_map_vec.getD i 0 - 1,
        (c.domains d).B0Kplus_comp.denseMatVec (x_in d) 0 i)

/-- The coarse problem of the cluster: `vec_alfa` and `vec_lambda`. -/
def coarseProblem (e0_start : ℕ → ℕ) (x_in : ℕ → ℕ → ℚ) : Option ((ℕ → ℚ) × (ℕ → ℚ)) := do
  let vec_e0 ← storeAll c.createG0.rows 0 (c.e0Writes e0_start x_in)
  let vec_g0 ← addAll c.createG0.cols 0 (c.g0Writes x_in)
  let tm1 := c.F0_Solve vec_g0
  guard (c.createG0.rows ≤ (c.domains 0).max_tmp_vec_size)
  let tm2 := fun i => c.createG0.matVec tm1 i - vec_e0 i
  let vec_alfa := c.Sa_Solve tm2
  let tm1 := fun i => vec_g0 i - c.createG0.matVecT vec_alfa i
  return (vec_alfa, c.F0_Solve tm1)

/-- The last loop uses the work vectors of each domain for primal vectors. -/
def PrimalFits : Prop :=
  ∀ d < c.domains_size, (c.domains d).domain_prim_size ≤ (c.domains d).max_tmp_vec_size

instance : Decidable c.PrimalFits := inferInstanceAs (Decidable (∀ d < _, _ ≤ _))

/-- The values of `vec_lambda` on the rows of a domain. -/
def gatherLambda (d : ℕ) (vec_lambda : ℕ → ℚ) (i : ℕ) : ℚ :=
  vec_lambda ((c.domains d).B0_comp_map_vec.getD i 0 - 1)

/-- The last loop of `multKplusGlobal_l`. -/
def primalSolution (x_in : ℕ → ℕ → ℚ) (vec_alfa vec_lambda : ℕ → ℚ) (d i : ℕ) : ℚ :=
  let tm1 := fun i => x_in d i - (c.domains d).B0_comp.matVecT (c.gatherLambda d vec_lambda) i
  (c.domains d).multKplusLocal tm1 i + (c.domains d).Kplus_R.denseMatVec vec_alfa (c.kerindices d) i

/-- `ClusterBase::multKplusGlobal_l` -/
def multKplusGlobal_l (x_in : ℕ → ℕ → ℚ) : Option (ℕ → ℕ → ℚ) := do
  let (vec_alfa, vec_lambda) ← c.coarseProblem c.kerindices x_in
  guard c.PrimalFits
  return c.primalSolution x_in vec_alfa vec_lambda

/-- Where a block of `vec_e0` starts in `multKplusGlobal_Kinv`. -/
def e0_start_Kinv (d : ℕ) : ℕ := d * (c.domains d).Kplus_R.cols

/-- The last loop of `multKplusGlobal_Kinv`. -/
def primalCorrection (vec_alfa vec_lambda : ℕ → ℚ) (d i : ℕ) : ℚ :=
  let tmp_vec := fun i => -1 * c.gatherLambda d vec_lambda i
  (c.domains d).B0Kplus_comp.denseMatVecT tmp_vec i
    + (c.domains d).Kplus_R.denseMatVec vec_alfa (c.e0_start_Kinv d) i

/-- `ClusterBase::multKplusGlobal_Kinv`: the part `Kplus x` is left to the caller. -/
def multKplusGlobal_Kinv (x_in : ℕ → ℕ → ℚ) : Option (ℕ → ℕ → ℚ) := do
  let (vec_alfa, vec_lambda) ← c.coarseProblem c.e0_start_Kinv x_in
  guard c.PrimalFits
  return c.primalCorrection vec_alfa vec_lambda

end Cluster

end Espreso
