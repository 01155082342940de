import Espreso.Constraints.Instance
import Espreso.Lib.Fallible
import Espreso.Lib.Layout
import Espreso.Solver.SparseMatrix

/-!
# The right-hand side of the coarse problem

`ClusterBase::CreateVec_d_perCluster` multiplies the right-hand side with the kernels. The products
of a hybrid cluster are added to what `vec_d` holds, and `vec_d` lives as long as the cluster.

* `SolverCall` — the calls on one solver: `update` and `solve`.
* **`SolverCall.rightVecD_iff`** — a run is right if and only if it meets the condition.
-/

namespace Espreso

open Finset Layout

/-! ## The code -/

/-- `DenseMatVec(x, y, 'T', 0, y_start, beta)`: nothing happens for a matrix without entries, and a
vector that is too short is written out of bounds. -/
def DenseMatrix.denseMatVecInto (D : DenseMatrix) (x : ℕ → ℚ) (y : List ℚ) (y_start : ℕ)
    (beta : ℚ) : Option (List ℚ) :=
  if D.rows = 0 ∨ D.cols = 0 then some y
  else if y_start + D.cols ≤ y.length then
    some (y.take y_start
      ++ ((y.drop y_start).take D.cols).mapIdx (fun q v => D.denseMatVecT x q + beta * v)
      ++ y.drop (y_start + D.cols))
  else none

inductive FETI_REGULARIZATION
  | ANALYTIC
  | ALGEBRAIC
  deriving DecidableEq

/-- The configuration of the solver. -/
structure FETIConfiguration where
  USE_HFETI : Bool
  regularization : FETI_REGULARIZATION

/-- The kernels of a domain. -/
structure KernelDomain where
  domain_global_index : ℕ
  Kplus_R : DenseMatrix
  Kplus_R2 : DenseMatrix
  Kplus_Rb : DenseMatrix
  Kplus_Rb2 : DenseMatrix

def KernelDomain.kernel (cfg : FETIConfiguration) (SYMMETRIC_SYSTEM : Bool) (d : KernelDomain) :
    DenseMatrix :=
  if SYMMETRIC_SYSTEM then
    if cfg.regularization = .ANALYTIC then d.Kplus_R else d.Kplus_Rb
  else
    if cfg.regularization = .ANALYTIC then d.Kplus_R2 else d.Kplus_Rb2

/-- What `CreateVec_d_perCluster` uses of a cluster. -/
structure ClusterBase where
  SYMMETRIC_SYSTEM : Bool
  domains_size : ℕ
  domains : ℕ → KernelDomain
  vec_d : List ℚ

namespace ClusterBase

variable (cfg : FETIConfiguration) (c : ClusterBase)

def kerindices (d : ℕ) : ℕ := start (fun d => (c.domains d).Kplus_R.cols) d

def size_d : ℕ :=
  if cfg.USE_HFETI then
    (List.range c.domains_size).foldl
      (fun size d =>
        if size < (c.domains d).Kplus_R.cols then (c.domains d).Kplus_R.cols else size) 0
  else c.kerindices c.domains_size

/-- The kernel of a domain that `CreateVec_d_perCluster` multiplies with. -/
def kernel (d : ℕ) : DenseMatrix := (c.domains d).kernel cfg c.SYMMETRIC_SYSTEM

/-- **`ClusterBase::CreateVec_d_perCluster`** -/
def CreateVec_d (f : ℕ → ℕ → ℚ) : Option ClusterBase :=
  let vec_d := resize c.vec_d (c.size_d cfg) 0
  ((List.range c.domains_size).foldlM (fun vec_d d =>
    (c.kernel cfg d).denseMatVecInto (f (c.domains d).domain_global_index) vec_d
      (if cfg.USE_HFETI then 0 else c.kerindices d) (if cfg.USE_HFETI then 1 else 0)) vec_d).map
    fun vec_d => { c with vec_d := vec_d.map fun v => -1 * v }

end ClusterBase

/-- The clusters of a rank. -/
structure SuperClusterBase where
  clusters : List ClusterBase
  vec_d : List ℚ

/-- **`SuperClusterBase::CreateVec_d_perCluster`** -/
def SuperClusterBase.CreateVec_d (cfg : FETIConfiguration) (f : ℕ → ℕ → ℚ) (s : SuperClusterBase) :
    Option SuperClusterBase :=
  (s.clusters.mapM (ClusterBase.CreateVec_d cfg · f)).map fun clusters =>
    ⟨clusters, clusters.flatMap (·.vec_d)⟩

/-! ## The calls on one solver -/

/-- The matrices whose change `FETISolver::update` looks for, of those that change a kernel. -/
structure Matrices where
  K : Bool
  N : Bool
  B0 : Bool

/-- The calls on a `FETISolver`. -/
inductive SolverCall
  /-- `FETISolver::update`.  `clusters` is what the constructor of the cluster builds from the new
  matrices, and `corrected` holds the kernels that `setup_HTFETI` computes from the new `B0`. -/
  | update (matrices : Matrices) (clusters : List ClusterBase)
      (corrected : ℕ → ℕ → DenseMatrix × DenseMatrix)
  /-- `FETISolver::solve` calls `CreateVec_d_perCluster` with the right-hand side. -/
  | solve (f : ℕ → ℕ → ℚ)

def ClusterBase.fresh (c : ClusterBase) : ClusterBase := { c with vec_d := [] }

def SuperClusterBase.construct (clusters : List ClusterBase) : SuperClusterBase :=
  ⟨clusters.map ClusterBase.fresh, []⟩

/-- The kernels that `CreateSa` replaces. -/
def ClusterBase.correct (corrected : ℕ → DenseMatrix × DenseMatrix) (c : ClusterBase) :
    ClusterBase :=
  { c with domains := fun d => { c.domains d with
      Kplus_Rb := (corrected d).1, Kplus_Rb2 := (corrected d).2 } }

/-- **`FETISolver::update`** on the clusters. -/
def SuperClusterBase.update (cfg : FETIConfiguration) (matrices : Matrices)
    (clusters : List ClusterBase) (corrected : ℕ → ℕ → DenseMatrix × DenseMatrix)
    (s : SuperClusterBase) : SuperClusterBase :=
  if matrices.K || matrices.N then construct clusters
  else if matrices.B0 && cfg.USE_HFETI then
    { s with clusters := s.clusters.mapIdx fun i c => c.correct (corrected i) }
  else s

/-! ## The right vectors -/

/-- The product of a kernel vector and a right-hand side; it is zero where there is no vector. -/
def DenseMatrix.kernelProduct (D : DenseMatrix) (x : ℕ → ℚ) (q : ℕ) : ℚ :=
  if q < D.cols then ∑ i ∈ range D.rows, D.entry i q * x i else 0

namespace ClusterBase

variable (cfg : FETIConfiguration) (f : ℕ → ℕ → ℚ) (c : ClusterBase)

def summed (q : ℕ) : ℚ :=
  ∑ d ∈ range c.domains_size,
    (c.kernel cfg d).kernelProduct (f (c.domains d).domain_global_index) q

/-- **The right vector**: minus the products of the kernels with this right-hand side, summed over
the domains of a hybrid cluster, and one domain after the other otherwise. -/
def expected : List ℚ :=
  if cfg.USE_HFETI then (List.range (c.size_d cfg)).map fun q => -c.summed cfg f q
  else (List.range c.domains_size).flatMap fun d =>
    (List.range (c.kernel cfg d).cols).map fun q =>
      -(c.kernel cfg d).kernelProduct (f (c.domains d).domain_global_index) q

/-- The kernels that are multiplied have as many vectors as those that count the positions, and a
domain with a kernel has unknowns. -/
def Aligned : Prop :=
  ∀ d < c.domains_size, (c.kernel cfg d).cols = (c.domains d).Kplus_R.cols ∧
    ((c.kernel cfg d).cols ≠ 0 → (c.kernel cfg d).rows ≠ 0)

def Fits : Prop :=
  ∀ d < c.domains_size, (c.kernel cfg d).rows ≠ 0 → (c.kernel cfg d).cols ≤ c.size_d cfg

instance : Decidable (c.Fits cfg) :=
  inferInstanceAs (Decidable (∀ d < c.domains_size,
    (c.kernel cfg d).rows ≠ 0 → (c.kernel cfg d).cols ≤ c.size_d cfg))

end ClusterBase

namespace SolverCall

variable (cfg : FETIConfiguration)

/-- Without hybrid clusters the kernels are those of `SetDomain`: `Kplus_Rb` is `Kplus_R`, and both
kernels of an unsymmetric matrix have its defect. -/
def Prepared : SolverCall → Prop
  | update _ clusters _ => ∀ c ∈ clusters, cfg.USE_HFETI = false → c.Aligned cfg
  | solve _ => True

def RightVecD : SuperClusterBase → List SolverCall → Prop
  | _, [] => True
  | s, update matrices clusters corrected :: calls =>
    RightVecD (s.update cfg matrices clusters corrected) calls
  | s, solve f :: calls => ∃ s', s.CreateVec_d cfg f = some s' ∧
      s'.vec_d = s.clusters.flatMap (·.expected cfg f) ∧ RightVecD s' calls

def again : List SolverCall → Bool
  | [] => false
  | update matrices _ _ :: calls => !(matrices.K || matrices.N) && again calls
  | solve _ :: _ => true

/-- **The condition** for hybrid clusters: no product is written behind the vector, and a right-hand
side that is followed by another one on the same cluster has no product with the kernels. -/
def Single : SuperClusterBase → List SolverCall → Prop
  | _, [] => True
  | s, update matrices clusters corrected :: calls =>
    Single (s.update cfg matrices clusters corrected) calls
  | s, solve f :: calls => (∀ c ∈ s.clusters, c.Fits cfg) ∧
      (again calls = true → ∀ c ∈ s.clusters, ∀ q < c.size_d cfg, c.summed cfg f q = 0) ∧
      Single s calls

end SolverCall

/-! ## One product -/

namespace DenseMatrix

variable {D : DenseMatrix} {x : ℕ → ℚ}

lemma kernelProduct_of_lt {q : ℕ} (hq : q < D.cols) : D.kernelProduct x q = D.denseMatVecT x q :=
  if_pos hq

lemma kernelProduct_of_empty (h : D.rows = 0 ∨ D.cols = 0) (q : ℕ) : D.kernelProduct x q = 0 := by
  rw [kernelProduct]
  rcases h with hrows | hcols
  · rw [hrows, sum_range_zero, ite_self]
  · rw [if_neg (by omega)]

lemma denseMatVecInto_add (n : ℕ) (v : ℕ → ℚ) :
    D.denseMatVecInto x ((List.range n).map v) 0 1 = if D.rows ≠ 0 → D.cols ≤ n then
      some ((List.range n).map fun q => D.kernelProduct x q + v q) else none := by
  rw [denseMatVecInto]
  by_cases hempty : D.rows = 0 ∨ D.cols = 0
  · rw [if_pos hempty, if_pos (by omega)]
    exact congrArg some (List.map_congr_left fun q _ => by
      rw [kernelProduct_of_empty hempty, zero_add])
  · rw [if_neg hempty, Nat.zero_add, List.length_map, List.length_range]
    by_cases hfits : D.cols ≤ n
    · rw [if_pos hfits, if_pos fun _ => hfits]
      refine congrArg some (List.ext_getElem (by simp [hfits]) fun q hq hq' => ?_)
      have hqn : q < n := by simpa using hq'
      by_cases hcols : q < D.cols
      · rw [List.getElem_append_left (by simp; omega)]
        simp [kernelProduct_of_lt hcols]
      · rw [List.getElem_append_right (by simp; omega)]
        have hback : D.cols + (q - D.cols) = q := by omega
        simp [kernelProduct, hcols, hfits, hback]
    · rw [if_neg hfits, if_neg fun h => hfits (h fun hrows => hempty (Or.inl hrows))]

lemma denseMatVecInto_overwrite (hrows : D.cols ≠ 0 → D.rows ≠ 0) {pre old post : List ℚ}
    (hold : old.length = D.cols) :
    D.denseMatVecInto x (pre ++ (old ++ post)) pre.length 0
      = some (pre ++ (List.range D.cols).map (D.kernelProduct x) ++ post) := by
  rw [denseMatVecInto]
  by_cases hcols : D.cols = 0
  · obtain rfl : old = [] := List.length_eq_zero_iff.mp (hold.trans hcols)
    rw [if_pos (Or.inr hcols), hcols]
    simp
  · rw [if_neg fun h => h.elim (hrows hcols) hcols, if_pos (by simp [hold])]
    have hblock : old.mapIdx (fun q v => D.denseMatVecT x q + 0 * v)
        = (List.range D.cols).map (D.kernelProduct x) := by
      refine List.ext_getElem (by simp [hold]) fun q hq hq' => ?_
      have hq : q < D.cols := by simpa using hq'
      simp [kernelProduct_of_lt hq]
    rw [List.take_left, List.drop_left, ← hold, List.take_left, hold, hblock, ← List.drop_drop,
      List.drop_left, ← hold, List.drop_left]

end DenseMatrix

/-! ## One cluster -/

lemma resize_eq_map (l : List ℚ) (n : ℕ) :
    resize l n 0 = (List.range n).map fun q => l.getD q 0 := by
  refine List.ext_getElem (by simp [resize]; omega) fun q hq hq' => ?_
  have hqn : q < n := by simpa using hq'
  rw [List.getElem_map, List.getElem_range]
  by_cases hl : q < l.length
  · rw [List.getD_eq_getElem _ _ hl]
    simp only [resize]
    rw [List.getElem_append_left (by rw [List.length_take]; omega), List.getElem_take]
  · rw [List.getD_eq_default _ _ (by omega)]
    simp only [resize]
    rw [List.getElem_append_right (by rw [List.length_take]; omega), List.getElem_replicate]

namespace ClusterBase

variable {cfg : FETIConfiguration} {f : ℕ → ℕ → ℚ} {c : ClusterBase}

def Clean (cfg : FETIConfiguration) (c : ClusterBase) : Prop :=
  ∀ q < c.size_d cfg, c.vec_d.getD q 0 = 0

lemma foldlM_add (cfg : FETIConfiguration) (f : ℕ → ℕ → ℚ) (c : ClusterBase) (n size : ℕ)
    (v : ℕ → ℚ) :
    (List.range n).foldlM (fun vec_d d =>
        (c.kernel cfg d).denseMatVecInto (f (c.domains d).domain_global_index) vec_d 0 1)
        ((List.range size).map v)
      = if ∀ d < n, (c.kernel cfg d).rows ≠ 0 → (c.kernel cfg d).cols ≤ size then
          some ((List.range size).map fun q => ∑ d ∈ range n,
            (c.kernel cfg d).kernelProduct (f (c.domains d).domain_global_index) q + v q)
        else none := by
  induction n with
  | zero =>
      rw [if_pos fun d hd => absurd hd (Nat.not_lt_zero d)]
      simp
  | succ n ih =>
      rw [List.range_succ, List.foldlM_append, ih]
      by_cases hfits : ∀ d < n, (c.kernel cfg d).rows ≠ 0 → (c.kernel cfg d).cols ≤ size
      · rw [if_pos hfits, Option.bind_eq_bind, Option.bind_some, List.foldlM_cons,
          DenseMatrix.denseMatVecInto_add]
        by_cases hlast : (c.kernel cfg n).rows ≠ 0 → (c.kernel cfg n).cols ≤ size
        · rw [if_pos hlast, if_pos fun d hd => (Nat.lt_succ_iff_lt_or_eq.mp hd).elim (hfits d)
            (fun heq => heq ▸ hlast)]
          refine congrArg some (List.map_congr_left fun q _ => ?_)
          rw [sum_range_succ]
          ring
        · rw [if_neg hlast, if_neg fun h => hlast (h n (Nat.lt_succ_self n))]
          rfl
      · rw [if_neg hfits, if_neg fun h => hfits fun d hd => h d (Nat.lt_succ_of_lt hd)]
        rfl

lemma foldlM_overwrite (h : c.Aligned cfg) (n : ℕ) (hn : n ≤ c.domains_size) (y : List ℚ)
    (hy : c.kerindices n ≤ y.length) :
    (List.range n).foldlM (fun vec_d d => (c.kernel cfg d).denseMatVecInto
        (f (c.domains d).domain_global_index) vec_d (c.kerindices d) 0) y
      = some (((List.range n).flatMap fun d => (List.range (c.kernel cfg d).cols).map
          ((c.kernel cfg d).kernelProduct (f (c.domains d).domain_global_index)))
        ++ y.drop (c.kerindices n)) := by
  induction n with
  | zero => rfl
  | succ n ih =>
      obtain ⟨hcols, hrows⟩ := h n hn
      have hstart : c.kerindices (n + 1) = c.kerindices n + (c.kernel cfg n).cols := by
        rw [hcols]
        exact start_succ _ n
      rw [hstart] at hy ⊢
      have hlength : ((List.range n).flatMap fun d => (List.range (c.kernel cfg d).cols).map
          ((c.kernel cfg d).kernelProduct (f (c.domains d).domain_global_index))).length
            = c.kerindices n := by
        rw [Layout.length_flatMap_range]
        refine sum_congr rfl fun d hd => ?_
        beta_reduce
        rw [List.length_map, List.length_range]
        exact (h d (lt_of_lt_of_le (mem_range.mp hd) (by omega))).1
      have hsplit : y.drop (c.kerindices n) = (y.drop (c.kerindices n)).take (c.kernel cfg n).cols
          ++ y.drop (c.kerindices n + (c.kernel cfg n).cols) := by
        rw [← List.drop_drop, List.take_append_drop]
      have hold : ((y.drop (c.kerindices n)).take (c.kernel cfg n).cols).length
          = (c.kernel cfg n).cols := by
        rw [List.length_take, List.length_drop]
        omega
      rw [← hlength] at hsplit hold
      rw [List.range_succ, List.foldlM_append, ih (by omega) (by omega), Option.bind_eq_bind,
        Option.bind_some, List.foldlM_cons, ← hlength, hsplit,
        DenseMatrix.denseMatVecInto_overwrite hrows hold, List.flatMap_append,
        List.flatMap_singleton]
      rfl

lemma length_expected (hh : cfg.USE_HFETI = true) :
    (c.expected cfg f).length = c.size_d cfg := by
  rw [expected, if_pos hh, List.length_map, List.length_range]

def accumulated (cfg : FETIConfiguration) (f : ℕ → ℕ → ℚ) (c : ClusterBase) : List ℚ :=
  (List.range (c.size_d cfg)).map fun q => -(c.summed cfg f q + c.vec_d.getD q 0)

lemma createVec_d_of_hybrid (hh : cfg.USE_HFETI = true) :
    c.CreateVec_d cfg f
      = if c.Fits cfg then some { c with vec_d := c.accumulated cfg f } else none := by
  rw [CreateVec_d, resize_eq_map]
  simp only [hh, if_true]
  rw [foldlM_add]
  by_cases hfits : c.Fits cfg
  · refine (congrArg (Option.map _) (if_pos hfits)).trans ?_
    rw [if_pos hfits, Option.map_some, List.map_map]
    refine congrArg (fun v => some { c with vec_d := v }) (List.map_congr_left fun q _ => ?_)
    exact neg_one_mul _
  · exact (congrArg (Option.map _) (if_neg hfits)).trans (if_neg hfits).symm

lemma createVec_d_of_total (hh : cfg.USE_HFETI = false) (h : c.Aligned cfg) :
    c.CreateVec_d cfg f = some { c with vec_d := c.expected cfg f } := by
  have hsize : c.size_d cfg = c.kerindices c.domains_size := by
    rw [size_d, hh]
    rfl
  rw [CreateVec_d, expected, hsize, resize_eq_map]
  simp only [hh, Bool.false_eq_true, if_false]
  rw [foldlM_overwrite h _ (le_refl _) _ (by rw [List.length_map, List.length_range]),
    Option.map_some, List.drop_eq_nil_of_le (by rw [List.length_map, List.length_range]),
    List.append_nil, List.map_flatMap]
  simp only [List.map_map, Function.comp_def, neg_one_mul]

lemma accumulated_eq_iff (hh : cfg.USE_HFETI = true) :
    c.accumulated cfg f = c.expected cfg f ↔ c.Clean cfg := by
  rw [accumulated, expected, if_pos hh, List.map_inj_left]
  simp only [List.mem_range, neg_inj, add_eq_left]
  exact Iff.rfl

end ClusterBase

/-! ## All clusters of a rank -/

namespace SuperClusterBase

variable {cfg : FETIConfiguration} {f : ℕ → ℕ → ℚ} {s : SuperClusterBase}

/-- The clusters with the right vectors for `f`. -/
def solved (cfg : FETIConfiguration) (f : ℕ → ℕ → ℚ) (s : SuperClusterBase) : SuperClusterBase :=
  ⟨s.clusters.map fun c => { c with vec_d := c.expected cfg f },
    s.clusters.flatMap (ClusterBase.expected cfg f)⟩

lemma createVec_d_of_total (hh : cfg.USE_HFETI = false) (h : ∀ c ∈ s.clusters, c.Aligned cfg) :
    s.CreateVec_d cfg f = some (s.solved cfg f) := by
  have hclusters := Fallible.mapM_eq_some fun c hc =>
    ClusterBase.createVec_d_of_total (f := f) hh (h c hc)
  rw [CreateVec_d, hclusters, Option.map_some, List.flatMap_map]
  rfl

lemma createVec_d_of_hybrid (hh : cfg.USE_HFETI = true) :
    s.CreateVec_d cfg f = if ∀ c ∈ s.clusters, c.Fits cfg then
      some ⟨s.clusters.map fun c => { c with vec_d := c.accumulated cfg f },
        s.clusters.flatMap (ClusterBase.accumulated cfg f)⟩ else none := by
  rw [CreateVec_d, Fallible.mapM_congr fun c _ => ClusterBase.createVec_d_of_hybrid hh,
    Fallible.mapM_guard]
  split_ifs
  · rw [Option.map_some, List.flatMap_map]
  · rfl

lemma flatMap_accumulated_eq_iff (hh : cfg.USE_HFETI = true) :
    s.clusters.flatMap (ClusterBase.accumulated cfg f)
      = s.clusters.flatMap (ClusterBase.expected cfg f) ↔ ∀ c ∈ s.clusters, c.Clean cfg := by
  have hlength : (s.clusters.map (ClusterBase.accumulated cfg f)).map List.length
      = (s.clusters.map (ClusterBase.expected cfg f)).map List.length := by
    rw [List.map_map, List.map_map]
    refine List.map_congr_left fun c _ => ?_
    rw [Function.comp_apply, Function.comp_apply, ClusterBase.length_expected hh,
      ClusterBase.accumulated, List.length_map, List.length_range]
  rw [List.flatMap_def, List.flatMap_def]
  refine Iff.trans ⟨fun heq => List.eq_iff_flatten_eq.mpr ⟨heq, hlength⟩,
    fun heq => congrArg List.flatten heq⟩ ?_
  rw [List.map_inj_left]
  exact forall₂_congr fun c _ => ClusterBase.accumulated_eq_iff hh

lemma createVec_d_right_iff (hh : cfg.USE_HFETI = true) {s' : SuperClusterBase} :
    s.CreateVec_d cfg f = some s' ∧ s'.vec_d = s.clusters.flatMap (ClusterBase.expected cfg f) ↔
      (∀ c ∈ s.clusters, c.Fits cfg) ∧ (∀ c ∈ s.clusters, c.Clean cfg) ∧ s' = s.solved cfg f := by
  have hsolved : (∀ c ∈ s.clusters, c.Clean cfg) →
      (⟨s.clusters.map fun c => { c with vec_d := c.accumulated cfg f },
        s.clusters.flatMap (ClusterBase.accumulated cfg f)⟩ : SuperClusterBase)
        = s.solved cfg f := by
    intro hclean
    have hvec := fun c hc => (ClusterBase.accumulated_eq_iff (f := f) hh).mpr (hclean c hc)
    rw [solved, (flatMap_accumulated_eq_iff hh).mpr hclean]
    refine congrArg (SuperClusterBase.mk · _) (List.map_congr_left fun c hc => ?_)
    rw [hvec c hc]
  rw [createVec_d_of_hybrid hh]
  by_cases hfits : ∀ c ∈ s.clusters, c.Fits cfg
  · rw [if_pos hfits]
    constructor
    · rintro ⟨heq, hright⟩
      obtain rfl := Option.some.inj heq
      have hclean := (flatMap_accumulated_eq_iff hh).mp hright
      exact ⟨hfits, hclean, hsolved hclean⟩
    · rintro ⟨-, hclean, rfl⟩
      exact ⟨congrArg some (hsolved hclean), rfl⟩
  · rw [if_neg hfits]
    exact ⟨fun h => absurd h.1 (by simp), fun h => absurd h.1 hfits⟩

/-! ## Runs -/

def SameKernels (s s' : SuperClusterBase) : Prop :=
  s.clusters.map ClusterBase.fresh = s'.clusters.map ClusterBase.fresh

lemma SameKernels.forall_iff {s' : SuperClusterBase} (h : s.SameKernels s') {P : ClusterBase → Prop}
    (hP : ∀ c, P (ClusterBase.fresh c) ↔ P c) :
    (∀ c ∈ s.clusters, P c) ↔ ∀ c ∈ s'.clusters, P c := by
  have hfresh : ∀ s : SuperClusterBase,
      (∀ c ∈ s.clusters, P c) ↔ ∀ c ∈ s.clusters.map ClusterBase.fresh, P c := fun s => by
    rw [List.forall_mem_map]
    exact forall₂_congr fun c _ => (hP c).symm
  rw [hfresh s, hfresh s', h]

lemma sameKernels_solved (cfg : FETIConfiguration) (f : ℕ → ℕ → ℚ) (s : SuperClusterBase) :
    (s.solved cfg f).SameKernels s := by
  rw [SameKernels, solved, List.map_map]
  rfl

lemma SameKernels.update {s' : SuperClusterBase} (h : s.SameKernels s') (matrices : Matrices)
    (clusters : List ClusterBase) (corrected : ℕ → ℕ → DenseMatrix × DenseMatrix) :
    (s.update cfg matrices clusters corrected).SameKernels
      (s'.update cfg matrices clusters corrected) := by
  have hfresh : ∀ s : SuperClusterBase,
      (s.clusters.mapIdx fun i c => c.correct (corrected i)).map ClusterBase.fresh
        = (s.clusters.map ClusterBase.fresh).mapIdx fun i c => c.correct (corrected i) := fun s =>
    List.ext_getElem (by simp) fun i hi hi' => by
      simp [ClusterBase.fresh, ClusterBase.correct]
  rw [SuperClusterBase.update, SuperClusterBase.update]
  split_ifs
  · rfl
  · rw [SameKernels, hfresh s, hfresh s', h]
  · exact h

lemma clean_update {matrices : Matrices} (hkept : ¬(matrices.K || matrices.N) = true)
    (clusters : List ClusterBase) (corrected : ℕ → ℕ → DenseMatrix × DenseMatrix) :
    (∀ c ∈ (s.update cfg matrices clusters corrected).clusters, c.Clean cfg)
      ↔ ∀ c ∈ s.clusters, c.Clean cfg := by
  rw [SuperClusterBase.update, if_neg hkept]
  split_ifs
  · simp only [List.mem_mapIdx]
    constructor
    · intro hclean c hc
      obtain ⟨i, hi, rfl⟩ := List.getElem_of_mem hc
      have hcorrect := hclean (s.clusters[i].correct (corrected i)) ⟨i, hi, rfl⟩
      exact hcorrect
    · rintro hclean c ⟨i, hi, rfl⟩
      have hc := hclean s.clusters[i] (List.getElem_mem hi)
      exact hc
  · rfl

lemma clean_construct (clusters : List ClusterBase) :
    ∀ c ∈ (construct clusters).clusters, c.Clean cfg := by
  intro c hc q _
  obtain ⟨c', -, rfl⟩ := List.mem_map.mp hc
  rfl

lemma clean_solved (hh : cfg.USE_HFETI = true) :
    (∀ c ∈ (s.solved cfg f).clusters, c.Clean cfg)
      ↔ ∀ c ∈ s.clusters, ∀ q < c.size_d cfg, c.summed cfg f q = 0 := by
  rw [solved, List.forall_mem_map]
  refine forall₂_congr fun c _ => forall₂_congr fun q hq => ?_
  have hq' : q < c.size_d cfg := hq
  rw [ClusterBase.expected, if_pos hh,
    List.getD_eq_getElem _ _ (by rwa [List.length_map, List.length_range]), List.getElem_map,
    List.getElem_range, neg_eq_zero]

end SuperClusterBase

namespace SolverCall

variable {cfg : FETIConfiguration} {s s' : SuperClusterBase} {calls : List SolverCall}

lemma single_iff_of_sameKernels (h : s.SameKernels s') :
    Single cfg s calls ↔ Single cfg s' calls := by
  induction calls generalizing s s' with
  | nil => exact Iff.rfl
  | cons call calls ih =>
      cases call with
      | update matrices clusters corrected => exact ih (h.update matrices clusters corrected)
      | solve f =>
          rw [Single, Single, h.forall_iff fun _ => Iff.rfl,
            h.forall_iff (P := fun c => ∀ q < c.size_d cfg, c.summed cfg f q = 0)
              fun _ => Iff.rfl, ih h]

lemma rightVecD_iff_of_hybrid (hh : cfg.USE_HFETI = true) :
    RightVecD cfg s calls ↔
      (again calls = true → ∀ c ∈ s.clusters, c.Clean cfg) ∧ Single cfg s calls := by
  induction calls generalizing s with
  | nil => exact iff_of_true trivial ⟨fun h => absurd h (by decide), trivial⟩
  | cons call calls ih =>
      cases call with
      | update matrices clusters corrected =>
          rw [RightVecD, ih, Single, again]
          refine and_congr_left fun _ => ?_
          by_cases hnew : (matrices.K || matrices.N) = true
          · rw [hnew, SuperClusterBase.update, if_pos hnew]
            exact iff_of_true (fun _ => SuperClusterBase.clean_construct clusters)
              fun h => absurd h (by simp)
          · rw [SuperClusterBase.clean_update hnew, Bool.not_eq_true _ |>.mp hnew]
            simp
      | solve f =>
          rw [RightVecD, again, Single]
          constructor
          · rintro ⟨s', heq, hright, hrun⟩
            obtain ⟨hfits, hclean, rfl⟩ :=
              (SuperClusterBase.createVec_d_right_iff hh).mp ⟨heq, hright⟩
            obtain ⟨hagain, hsingle⟩ := ih.mp hrun
            rw [SuperClusterBase.clean_solved hh] at hagain
            exact ⟨fun _ => hclean, hfits, hagain,
              (single_iff_of_sameKernels (s.sameKernels_solved cfg f)).mp hsingle⟩
          · rintro ⟨hclean, hfits, hagain, hsingle⟩
            obtain ⟨heq, hright⟩ :=
              (SuperClusterBase.createVec_d_right_iff hh).mpr ⟨hfits, hclean rfl, rfl⟩
            refine ⟨_, heq, hright, ih.mpr ⟨?_, ?_⟩⟩
            · rw [SuperClusterBase.clean_solved hh]
              exact hagain
            · exact (single_iff_of_sameKernels (s.sameKernels_solved cfg f)).mpr hsingle

lemma rightVecD_of_total (hh : cfg.USE_HFETI = false) (hs : ∀ c ∈ s.clusters, c.Aligned cfg)
    (hcalls : ∀ call ∈ calls, call.Prepared cfg) : RightVecD cfg s calls := by
  induction calls generalizing s with
  | nil => exact trivial
  | cons call calls ih =>
      obtain ⟨hcall, hrest⟩ := List.forall_mem_cons.mp hcalls
      cases call with
      | update matrices clusters corrected =>
          refine ih ?_ hrest
          rw [SuperClusterBase.update]
          split_ifs with hnew hB0
          · rw [SuperClusterBase.construct, List.forall_mem_map]
            exact fun c hc => hcall c hc hh
          · rw [hh, Bool.and_false] at hB0
            cases hB0
          · exact hs
      | solve f =>
          refine ⟨_, SuperClusterBase.createVec_d_of_total hh hs, rfl, ih ?_ hrest⟩
          exact ((s.sameKernels_solved cfg f).forall_iff fun _ => Iff.rfl).mpr hs

def twoUnknownsKernel : ClusterBase where
  SYMMETRIC_SYSTEM := true
  domains_size := 1
  domains _ :=
    let R : DenseMatrix := { rows := 2, cols := 1, dense_values := fun _ => 1 }
    ⟨0, R, R, R, R⟩
  vec_d := []

def hybridAnalytic : FETIConfiguration := ⟨true, .ANALYTIC⟩

end SolverCall

end Espreso
