import Espreso.Lib.Fallible
import Espreso.Solver.ClusterSolves
import Espreso.Solver.Dual

/-!
# The dual operator of a rank

A rank holds several clusters.  The dual operator applies the transposed gluing, the generalized
inverse of every cluster and the gluing.  With local Schur complements the part of the domains is
precomputed, and a hybrid cluster only adds a correction.

* `SuperCluster` — the clusters of a rank and the gluing of its domains.
* **`SuperCluster.compressedTmp_eq`**, **`applyALCompDomB_eq`** — then both ways agree.
* **`applyALCompDomB_differs`** — otherwise they need not.
-/

namespace Espreso

open Finset

/-- What the dual operator uses of a domain besides its cluster. -/
structure DualDomain extends Domain where
  B1_comp_dom : SparseMatrix
  lambda_map_sub_local : List ℕ

namespace DualDomain

variable (d : DualDomain)

/-- `B1Kplus`, the dense matrix `B1 K⁺ B1ᵀ`. -/
def B1Kplus : DenseMatrix where
  rows := d.B1_comp_dom.rows
  cols := d.B1_comp_dom.rows
  dense_values := fun k => d.B1_comp_dom.matVec
    (d.multKplusLocal fun j => d.B1_comp_dom.entry (k / d.B1_comp_dom.rows) j)
    (k % d.B1_comp_dom.rows)

/-- The values of a dual vector on the multipliers of the domain. -/
def gather (x_in : ℕ → ℚ) (i : ℕ) : ℚ := x_in (d.lambda_map_sub_local.getD i 0)

/-- The loop that adds the values of a domain to `compressed_tmp`. -/
def scatter (y : ℕ → ℚ) (v : ℕ → ℚ) : ℕ → ℚ :=
  (List.range d.lambda_map_sub_local.length).foldl
    (fun y i => Function.update y (d.lambda_map_sub_local.getD i 0)
      (y (d.lambda_map_sub_local.getD i 0) + v i)) y

end DualDomain

/-- The clusters of a rank.  `domains` are all domains of the rank, `domains_in_global_index` those of
each cluster, and the direct solvers of the clusters are not part of the source. -/
structure SuperCluster where
  number_of_subdomains : ℕ
  domains : ℕ → DualDomain
  numClusters : ℕ
  domains_in_global_index : ℕ → List ℕ
  F0_Solve : ℕ → (ℕ → ℚ) → ℕ → ℚ
  Sa_Solve : ℕ → (ℕ → ℚ) → ℕ → ℚ

namespace SuperCluster

variable (s : SuperCluster)

def cluster (c : ℕ) : Cluster where
  domains_size := (s.domains_in_global_index c).length
  domains := fun d => (s.domains ((s.domains_in_global_index c).getD d 0)).toDomain
  F0_Solve := s.F0_Solve c
  Sa_Solve := s.Sa_Solve c

/-- `USE_HFETI` of a cluster after `SetClusterHFETI`: a cluster with one domain is left out of the
hybrid preprocessing. -/
def hybrid (c : ℕ) : Bool := (s.domains_in_global_index c).length ≠ 1

/-- `x_prim_cluster`: the vectors of the domains of a cluster, and empty vectors behind them. -/
def primCluster (c : ℕ) (x_in : ℕ → ℕ → ℚ) (d : ℕ) : ℕ → ℚ :=
  match (s.domains_in_global_index c)[d]? with
  | some g => x_in g
  | none => 0

/-- The vectors of the domains of a cluster are swapped out, and in again after `f`. -/
def onCluster (f : Cluster → (ℕ → ℕ → ℚ) → Option (ℕ → ℕ → ℚ)) (c : ℕ) (x_in : ℕ → ℕ → ℚ) :
    Option (ℕ → ℕ → ℚ) :=
  (f (s.cluster c) (s.primCluster c x_in)).map fun y g =>
    if g ∈ s.domains_in_global_index c then y ((s.domains_in_global_index c).idxOf g) else x_in g

/-- `multKplusGlobal_l`: a cluster with one domain has no coarse problem. -/
def multKplusGlobal_l (x_in : ℕ → ℕ → ℚ) : Option (ℕ → ℕ → ℚ) :=
  (List.range s.numClusters).foldlM (fun x c =>
    s.onCluster (fun cl x =>
      if s.hybrid c then cl.multKplusGlobal_l x
      else some fun d => if d = 0 then (cl.domains 0).multKplusLocal (x 0) else x d) c x) x_in

/-- `ClusterBase::multKplusGlobal_Kinv` of a cluster that was left out of the preprocessing:
`vec_e0` has no entry, and the solver of `F0` has no matrix, which it reports as an error. -/
def kinvUnprepared (cl : Cluster) (x : ℕ → ℕ → ℚ) : Option (ℕ → ℕ → ℚ) := do
  let _vec_e0 ← storeAll 0 0 (cl.e0Writes cl.e0_start_Kinv x)
  none

def multKplusGlobal_Kinv (x_in : ℕ → ℕ → ℚ) : Option (ℕ → ℕ → ℚ) :=
  (List.range s.numClusters).foldlM (fun x c =>
    s.onCluster (fun cl x =>
      if s.hybrid c then cl.multKplusGlobal_Kinv x else kinvUnprepared cl x) c x) x_in

def multKplusFETI (x_in : ℕ → ℕ → ℚ) (g : ℕ) : ℕ → ℚ := (s.domains g).multKplusLocal (x_in g)

def primal (x_in : ℕ → ℚ) (g : ℕ) : ℕ → ℚ :=
  (s.domains g).B1_comp_dom.matVecT ((s.domains g).gather x_in)

/-- The values that every domain adds to `compressed_tmp`. -/
def addDomains (v : ℕ → ℕ → ℚ) (y : ℕ → ℚ) : ℕ → ℚ :=
  (List.range s.number_of_subdomains).foldl (fun y g => (s.domains g).scatter y (v g)) y

def addGluing (x : ℕ → ℕ → ℚ) : (ℕ → ℚ) → ℕ → ℚ :=
  s.addDomains fun g => (s.domains g).B1_comp_dom.matVec (x g)

def addSchur (x_in : ℕ → ℚ) : (ℕ → ℚ) → ℕ → ℚ :=
  s.addDomains fun g => (s.domains g).B1Kplus.denseMatVec ((s.domains g).gather x_in) 0

/-- `apply_A_l_comp_dom_B` up to the exchange with the neighbours: `compressed_tmp`. -/
def compressedTmp (USE_KINV USE_HFETI : Bool) (x_in : ℕ → ℚ) : Option (ℕ → ℚ) :=
  match USE_KINV, USE_HFETI with
  | true, true => (s.multKplusGlobal_Kinv (s.primal x_in)).map fun x =>
      s.addGluing x (s.addSchur x_in 0)
  | true, false => some (s.addSchur x_in 0)
  | false, true => (s.multKplusGlobal_l (s.primal x_in)).map fun x => s.addGluing x 0
  | false, false => some (s.addGluing (s.multKplusFETI (s.primal x_in)) 0)

end SuperCluster

/-- `IterSolverCPU::apply_A_l_comp_dom_B` on all ranks. -/
def applyALCompDomB (L : DualLayout) (cluster : ℕ → SuperCluster) (USE_KINV USE_HFETI : Bool)
    (x_in : DualLayout.Vectors) : Option DualLayout.Vectors :=
  ((List.range L.ranks).mapM fun r => (cluster r).compressedTmp USE_KINV USE_HFETI (x_in r)).map
    fun compressed_tmp => L.allReduceLambdasCompB fun r => compressed_tmp.getD r 0

/-! ## The correction of one cluster -/

namespace Cluster

variable {c : Cluster} {r : ℕ}

/-- The kernels of the domains start where `multKplusGlobal_Kinv` looks for them. -/
def Aligned (c : Cluster) : Prop :=
  ∀ d < c.domains_size, (c.domains d).Kplus_R.cols ≠ 0 → c.e0_start_Kinv d = c.kerindices d

instance (c : Cluster) : Decidable c.Aligned :=
  inferInstanceAs (Decidable (∀ d < _, _ → _))

lemma Aligned.e0Writes_eq (h : c.Aligned) (x : ℕ → ℕ → ℚ) :
    c.e0Writes c.e0_start_Kinv x = c.e0Writes c.kerindices x := by
  refine List.flatMap_congr fun d hd => ?_
  by_cases hcols : (c.domains d).Kplus_R.cols = 0
  · rw [hcols]
    rfl
  · rw [h d (List.mem_range.mp hd) hcols]

lemma Aligned.coarseProblem_eq (h : c.Aligned) (x : ℕ → ℕ → ℚ) :
    c.coarseProblem c.e0_start_Kinv x = c.coarseProblem c.kerindices x := by
  rw [coarseProblem, coarseProblem, h.e0Writes_eq]

lemma Aligned.kernel_eq (h : c.Aligned) {d : ℕ} (hd : d < c.domains_size) (alfa : ℕ → ℚ) (i : ℕ) :
    (c.domains d).Kplus_R.denseMatVec alfa (c.e0_start_Kinv d) i
      = (c.domains d).Kplus_R.denseMatVec alfa (c.kerindices d) i := by
  by_cases hcols : (c.domains d).Kplus_R.cols = 0
  · rw [DenseMatrix.denseMatVec, DenseMatrix.denseMatVec, hcols, sum_range_zero, sum_range_zero]
  · rw [h d hd hcols]

lemma Sized.primalSolution_eq (h : c.Sized r) (haligned : c.Aligned) (x : ℕ → ℕ → ℚ)
    (alfa lambda : ℕ → ℚ) {d i : ℕ} (hd : d < c.domains_size)
    (hi : i < (c.domains d).domain_prim_size) :
    c.primalSolution x alfa lambda d i
      = (c.domains d).multKplusLocal (x d) i + c.primalCorrection alfa lambda d i := by
  have hsized := h.domain d hd
  have hB0t : ∀ j, (c.domains d).B0_comp.matVecT (c.gatherLambda d lambda) j
      = ∑ l ∈ range r, (c.domains d).B0.entry l j * lambda l := by
    intro j
    rw [← hsized.B0_rows]
    exact Domain.matVecT_B0_comp lambda j
  have hcorrection : (c.domains d).B0Kplus_comp.denseMatVecT
      (fun i => -1 * c.gatherLambda d lambda i) i
        = -∑ l ∈ range r, (c.domains d).KplusB0t i l * lambda l := by
    refine (hsized.denseMatVecT_B0Kplus_comp (fun l => -1 * lambda l) hi).trans ?_
    rw [← sum_neg_distrib]
    exact sum_congr rfl fun l _ => by ring
  have hlocal : (c.domains d).multKplusLocal
      (fun j => x d j - (c.domains d).B0_comp.matVecT (c.gatherLambda d lambda) j) i
        = (c.domains d).multKplusLocal (x d) i
          - ∑ l ∈ range r, (c.domains d).KplusB0t i l * lambda l := by
    simp only [Domain.KplusB0t, Domain.multKplusLocal, hB0t, mul_sub, sum_sub_distrib, mul_sum,
      sum_mul]
    rw [sum_comm (s := range r)]
    refine congrArg _ (sum_congr rfl fun j _ => sum_congr rfl fun l _ => by ring)
  rw [primalSolution, primalCorrection, hlocal, hcorrection, haligned.kernel_eq hd]
  ring

lemma Aligned.operators_eq (h : c.Aligned) (x : ℕ → ℕ → ℚ) :
    ∃ coarse : Option ((ℕ → ℚ) × (ℕ → ℚ)),
      c.multKplusGlobal_l x = coarse.map (fun p => c.primalSolution x p.1 p.2) ∧
      c.multKplusGlobal_Kinv x = coarse.map fun p => c.primalCorrection p.1 p.2 := by
  refine ⟨if c.PrimalFits then c.coarseProblem c.kerindices x else none, ?_, ?_⟩
  · rw [multKplusGlobal_l]
    cases c.coarseProblem c.kerindices x <;> by_cases hfits : c.PrimalFits <;> simp [hfits, guard]
  · rw [multKplusGlobal_Kinv, h.coarseProblem_eq]
    cases c.coarseProblem c.kerindices x <;> by_cases hfits : c.PrimalFits <;> simp [hfits, guard]

end Cluster

/-! ## All clusters of a rank -/

namespace SuperCluster

variable {s : SuperCluster} {r : ℕ → ℕ}

/-- The matrices of all domains fit, and every domain belongs to one cluster; the `B0` of cluster `c`
have `r c` rows. -/
structure Sized (s : SuperCluster) (r : ℕ → ℕ) : Prop where
  cluster : ∀ c < s.numClusters, (s.cluster c).Sized (r c)
  nodup : ∀ c < s.numClusters, (s.domains_in_global_index c).Nodup
  disjoint : ∀ c < s.numClusters, ∀ c' < s.numClusters, ∀ g ∈ s.domains_in_global_index c,
    g ∈ s.domains_in_global_index c' → c = c'
  cover : ∀ g < s.number_of_subdomains, ∃ c < s.numClusters, g ∈ s.domains_in_global_index c
  B1_bounded : ∀ g < s.number_of_subdomains, (s.domains g).B1_comp_dom.Bounded
  B1_cols : ∀ g < s.number_of_subdomains,
    (s.domains g).B1_comp_dom.cols = (s.domains g).domain_prim_size
  B1_rows : ∀ g < s.number_of_subdomains,
    (s.domains g).B1_comp_dom.rows = (s.domains g).lambda_map_sub_local.length

/-- **The condition of the accelerated operator**: no cluster has one domain only, and the kernels of
every cluster start where `multKplusGlobal_Kinv` looks for them. -/
def Aligned (s : SuperCluster) : Prop :=
  ∀ c < s.numClusters, s.hybrid c ∧ (s.cluster c).Aligned

/-- The vectors after the operator and after its correction, as far as the clusters of `done` are
done. -/
def Corrected (s : SuperCluster) (done : ℕ → Prop) (x₀ x x' : ℕ → ℕ → ℚ) : Prop :=
  ∀ c < s.numClusters, ∀ g ∈ s.domains_in_global_index c,
    (done c → ∀ i < (s.domains g).domain_prim_size,
      x g i = (s.domains g).multKplusLocal (x₀ g) i + x' g i) ∧
    (¬done c → x g = x₀ g ∧ x' g = x₀ g)

lemma Sized.onCluster_corrected (h : s.Sized r) (haligned : s.Aligned) {n : ℕ}
    (hn : n < s.numClusters) {x₀ x x' : ℕ → ℕ → ℚ} (hx : s.Corrected (· < n) x₀ x x') :
    (∃ y y', s.onCluster (fun cl x => cl.multKplusGlobal_l x) n x = some y ∧
      s.onCluster (fun cl x => cl.multKplusGlobal_Kinv x) n x' = some y' ∧
      s.Corrected (· < n + 1) x₀ y y') ∨
    (s.onCluster (fun cl x => cl.multKplusGlobal_l x) n x = none ∧
      s.onCluster (fun cl x => cl.multKplusGlobal_Kinv x) n x' = none) := by
  -- the cluster has not been touched, so both get the same vectors
  have hgetElem : ∀ d g, (s.domains_in_global_index n)[d]? = some g →
      g ∈ s.domains_in_global_index n := fun d g hg => List.mem_of_getElem? hg
  have hprim : s.primCluster n x = s.primCluster n x₀ ∧
      s.primCluster n x' = s.primCluster n x₀ := by
    constructor <;> funext d <;> rw [primCluster, primCluster] <;>
      cases hg : (s.domains_in_global_index n)[d]? with
      | none => rfl
      | some g =>
          have hstays := (hx n hn g (hgetElem d g hg)).2 (lt_irrefl n)
          simp only [hstays.1, hstays.2]
  obtain ⟨coarse, hl, hk⟩ := (haligned n hn).2.operators_eq (s.primCluster n x₀)
  rw [onCluster, onCluster, hprim.1, hprim.2, hl, hk]
  cases coarse with
  | none => exact Or.inr ⟨rfl, rfl⟩
  | some p =>
      refine Or.inl ⟨_, _, rfl, rfl, fun c hc g hg => ⟨fun hlt i hi => ?_, fun hge => ?_⟩⟩
      · by_cases hmem : g ∈ s.domains_in_global_index n
        · have hidx : (s.domains_in_global_index n).idxOf g < (s.cluster n).domains_size :=
            List.idxOf_lt_length_of_mem hmem
          have hget : (s.domains_in_global_index n)[(s.domains_in_global_index n).idxOf g]?
              = some g := List.getElem?_idxOf hmem
          have hdomain : (s.cluster n).domains ((s.domains_in_global_index n).idxOf g)
              = (s.domains g).toDomain := by
            simp only [SuperCluster.cluster, List.getD_eq_getElem?_getD, hget, Option.getD_some]
          simp only [if_pos hmem]
          rw [(h.cluster n hn).primalSolution_eq (haligned n hn).2 _ _ _ hidx (hdomain ▸ hi), hdomain,
            primCluster, hget]
        · have hne : c ≠ n := fun heq => hmem (heq ▸ hg)
          simp only [if_neg hmem]
          exact (hx c hc g hg).1 (by omega) i hi
      · have hmem : g ∉ s.domains_in_global_index n := fun hmem => by
          have := h.disjoint c hc n hn g hg hmem
          omega
        simp only [if_neg hmem]
        exact (hx c hc g hg).2 (by omega)

lemma Sized.operators_corrected (h : s.Sized r) (haligned : s.Aligned) (x₀ : ℕ → ℕ → ℚ) :
    (∃ y y', s.multKplusGlobal_l x₀ = some y ∧ s.multKplusGlobal_Kinv x₀ = some y' ∧
      s.Corrected (· < s.numClusters) x₀ y y') ∨
    (s.multKplusGlobal_l x₀ = none ∧ s.multKplusGlobal_Kinv x₀ = none) := by
  rw [multKplusGlobal_l, multKplusGlobal_Kinv]
  have hrun : ∀ n ≤ s.numClusters, ∀ step step' : (ℕ → ℕ → ℚ) → ℕ → Option (ℕ → ℕ → ℚ),
      (∀ x, ∀ c < n, step x c = s.onCluster (fun cl x => cl.multKplusGlobal_l x) c x) →
      (∀ x, ∀ c < n, step' x c = s.onCluster (fun cl x => cl.multKplusGlobal_Kinv x) c x) →
      (∃ y y', (List.range n).foldlM step x₀ = some y ∧ (List.range n).foldlM step' x₀ = some y' ∧
        s.Corrected (· < n) x₀ y y') ∨
      ((List.range n).foldlM step x₀ = none ∧ (List.range n).foldlM step' x₀ = none) := by
    intro n
    induction n with
    | zero =>
        intro _ step step' _ _
        exact Or.inl ⟨x₀, x₀, rfl, rfl, fun c _ g _ =>
          ⟨fun hc => absurd hc (Nat.not_lt_zero c), fun _ => ⟨rfl, rfl⟩⟩⟩
    | succ n ih =>
        intro hn step step' hstep hstep'
        simp only [List.range_succ, List.foldlM_append, List.foldlM_cons, List.foldlM_nil,
          bind_pure]
        rcases ih (by omega) step step' (fun x c hc => hstep x c (by omega))
          (fun x c hc => hstep' x c (by omega)) with ⟨y, y', hy, hy', hcorrected⟩ | ⟨hy, hy'⟩
        · simp only [hy, hy', Option.bind_eq_bind, Option.bind_some]
          rw [hstep y n (by omega), hstep' y' n (by omega)]
          exact h.onCluster_corrected haligned (by omega) hcorrected
        · rw [hy, hy']
          exact Or.inr ⟨rfl, rfl⟩
  refine hrun _ le_rfl _ _ (fun x c hc => ?_) fun x c hc => ?_
  · simp only [(haligned c hc).1, if_true]
  · simp only [(haligned c hc).1, if_true]

end SuperCluster

/-! ## The gluing -/

namespace DualDomain

variable (d : DualDomain)

/-- What `scatter` adds to an entry. -/
def scattered (v : ℕ → ℚ) (k : ℕ) : ℚ :=
  ∑ i ∈ range d.lambda_map_sub_local.length,
    if d.lambda_map_sub_local.getD i 0 = k then v i else 0

lemma scatter_eq (y v : ℕ → ℚ) (k : ℕ) : d.scatter y v k = y k + d.scattered v k := by
  have hfold : ∀ n, (List.range n).foldl
      (fun y i => Function.update y (d.lambda_map_sub_local.getD i 0)
        (y (d.lambda_map_sub_local.getD i 0) + v i)) y k
        = y k + ∑ i ∈ range n, if d.lambda_map_sub_local.getD i 0 = k then v i else 0 := by
    intro n
    induction n with
    | zero => simp
    | succ n ih =>
        rw [List.range_succ, List.foldl_append, List.foldl_cons, List.foldl_nil, sum_range_succ,
          ← add_assoc, ← ih]
        by_cases hk : d.lambda_map_sub_local.getD n 0 = k
        · rw [if_pos hk, hk, Function.update_self]
        · rw [if_neg hk, Function.update_of_ne (Ne.symm hk), add_zero]
  exact hfold _

lemma scattered_congr {v w : ℕ → ℚ} (hvw : ∀ i < d.lambda_map_sub_local.length, v i = w i) (k : ℕ) :
    d.scattered v k = d.scattered w k :=
  sum_congr rfl fun i hi => by rw [hvw i (mem_range.mp hi)]

lemma scattered_add (v w : ℕ → ℚ) (k : ℕ) :
    d.scattered (fun i => v i + w i) k = d.scattered v k + d.scattered w k := by
  rw [scattered, scattered, scattered, ← sum_add_distrib]
  exact sum_congr rfl fun i _ => by split_ifs <;> simp

variable {d}

lemma denseMatVec_B1Kplus (hbounded : d.B1_comp_dom.Bounded)
    (hcols : d.B1_comp_dom.cols = d.domain_prim_size) (x : ℕ → ℚ) {i : ℕ}
    (hi : i < d.B1_comp_dom.rows) :
    d.B1Kplus.denseMatVec x 0 i
      = d.B1_comp_dom.matVec (d.multKplusLocal (d.B1_comp_dom.matVecT x)) i := by
  have hentry : ∀ k, d.B1Kplus.entry i k
      = d.B1_comp_dom.matVec (d.multKplusLocal fun j => d.B1_comp_dom.entry k j) i := by
    intro k
    simp only [DenseMatrix.entry, B1Kplus]
    rw [Nat.mul_comm, Nat.mul_add_mod, Nat.mod_eq_of_lt hi, Nat.mul_add_div (by omega),
      Nat.div_eq_of_lt hi, Nat.add_zero]
  rw [DenseMatrix.denseMatVec, hbounded.matVec_eq, hcols]
  simp only [hentry, hbounded.matVec_eq, hcols, Nat.zero_add, Domain.multKplusLocal,
    SparseMatrix.matVecT, sum_mul, mul_sum]
  change ∑ k ∈ range d.B1_comp_dom.rows, _ = _
  rw [sum_comm]
  refine sum_congr rfl fun j _ => ?_
  rw [sum_comm]
  exact sum_congr rfl fun l _ => sum_congr rfl fun k _ => by ring

end DualDomain

namespace SuperCluster

variable {s : SuperCluster} {r : ℕ → ℕ}

lemma addDomains_eq (s : SuperCluster) (v : ℕ → ℕ → ℚ) (y : ℕ → ℚ) (k : ℕ) :
    s.addDomains v y k
      = y k + ∑ g ∈ range s.number_of_subdomains, (s.domains g).scattered (v g) k := by
  rw [addDomains]
  induction s.number_of_subdomains with
  | zero => simp
  | succ n ih =>
      rw [List.range_succ, List.foldl_append, List.foldl_cons, List.foldl_nil,
        DualDomain.scatter_eq, ih, sum_range_succ, add_assoc]

lemma Sized.schur_eq (h : s.Sized r) (x_in : ℕ → ℚ) {g : ℕ} (hg : g < s.number_of_subdomains)
    {i : ℕ} (hi : i < (s.domains g).lambda_map_sub_local.length) :
    (s.domains g).B1Kplus.denseMatVec ((s.domains g).gather x_in) 0 i
      = (s.domains g).B1_comp_dom.matVec ((s.domains g).multKplusLocal (s.primal x_in g)) i :=
  DualDomain.denseMatVec_B1Kplus (h.B1_bounded g hg) (h.B1_cols g hg) _ ((h.B1_rows g hg).symm ▸ hi)

/-- **With and without local Schur complements** the domains add the same values, if the clusters of
a hybrid solver are aligned. -/
theorem Sized.compressedTmp_eq (h : s.Sized r) (USE_HFETI : Bool)
    (haligned : USE_HFETI → s.Aligned) (x_in : ℕ → ℚ) :
    s.compressedTmp true USE_HFETI x_in = s.compressedTmp false USE_HFETI x_in := by
  cases USE_HFETI with
  | false =>
      simp only [compressedTmp, addSchur, addGluing]
      refine congrArg some (funext fun k => ?_)
      rw [addDomains_eq, addDomains_eq]
      refine congrArg _ (sum_congr rfl fun g hg => DualDomain.scattered_congr _ (fun i hi => ?_) k)
      exact h.schur_eq x_in (mem_range.mp hg) hi
  | true =>
      simp only [compressedTmp]
      rcases h.operators_corrected (haligned rfl) (s.primal x_in) with
        ⟨y, y', hy, hy', hcorrected⟩ | ⟨hy, hy'⟩
      · rw [hy, hy', Option.map_some, Option.map_some]
        refine congrArg some (funext fun k => ?_)
        simp only [addSchur, addGluing]
        rw [addDomains_eq, addDomains_eq, addDomains_eq, add_assoc, ← sum_add_distrib]
        refine congrArg _ (sum_congr rfl fun g hg => ?_)
        have hg := mem_range.mp hg
        obtain ⟨c, hc, hgc⟩ := h.cover g hg
        rw [← DualDomain.scattered_add]
        refine DualDomain.scattered_congr _ (fun i hi => ?_) k
        rw [h.schur_eq x_in hg hi, (h.B1_bounded g hg).matVec_eq, (h.B1_bounded g hg).matVec_eq,
          (h.B1_bounded g hg).matVec_eq, h.B1_cols g hg, ← sum_add_distrib]
        refine sum_congr rfl fun j hj => ?_
        rw [(hcorrected c hc g hgc).1 hc j (mem_range.mp hj)]
        ring
      · rw [hy, hy']
        rfl

end SuperCluster

/-- Two domains in one cluster, each with one unknown and one multiplier, with kernels of dimension 0
or 1. -/
def twoKernelDomains (floating : ℕ → Bool) : SuperCluster where
  number_of_subdomains := 2
  domains := fun g =>
    { toDomain := oneUnknown (floating g) (if g = 0 then 1 else -1)
      B1_comp_dom := { cols := 1, csr := [[(0, 1)]] }
      lambda_map_sub_local := [g] }
  numClusters := 1
  domains_in_global_index := fun _ => [0, 1]
  F0_Solve := fun _ b i => b i / 2
  Sa_Solve := fun _ b i => 2 * b i

def mixedKernels : SuperCluster := twoKernelDomains fun g => g = 1

def oneRank : DualLayout where
  ranks := 1
  lambdas := fun _ => [0, 1]
  lambdas_nodup := DualLayout.oneRank_nodup
  neighs := fun _ => []
  neighs_nodup := fun _ => List.nodup_nil
  neighs_lt := DualLayout.oneRank_neighs_lt
  neighs_irrefl := fun _ => List.not_mem_nil
  neighs_symm := DualLayout.noNeighs_symm
  shared := fun _ _ => []
  shared_nodup := fun _ _ => List.nodup_nil
  shared_symm := DualLayout.noShared_symm
  mem_shared := DualLayout.noShared_mem
  neighs_of_shared := DualLayout.oneRank_neighs

lemma twoKernelDomains_sized (floating : ℕ → Bool) : (twoKernelDomains floating).Sized fun _ => 1 where
  cluster := fun _ _ => ⟨Nat.two_pos, fun d hd => by
    have hlt : d < 2 := hd
    obtain rfl | rfl : d = 0 ∨ d = 1 := by omega
    · exact (oneUnknown_exact _ _).toSized
    · exact (oneUnknown_exact _ _).toSized⟩
  nodup := fun _ _ => (by decide : [0, 1].Nodup)
  disjoint := fun c hc c' hc' _ _ _ => by
    simp only [twoKernelDomains] at hc hc'
    omega
  cover := fun g hg => ⟨0, Nat.one_pos, by
    simp only [twoKernelDomains] at hg ⊢
    rcases (by omega : g = 0 ∨ g = 1) with rfl | rfl <;> decide⟩
  B1_bounded := fun g _ row hrow e he => by
    simp only [twoKernelDomains, List.mem_singleton] at hrow
    subst hrow
    obtain rfl := List.mem_singleton.mp he
    exact Nat.one_pos
  B1_cols := fun _ _ => rfl
  B1_rows := fun _ _ => rfl

lemma mixedKernels_exact : (mixedKernels.cluster 0).Exact 1 where
  domains_pos := Nat.two_pos
  domain := fun d hd => by
    obtain rfl | rfl : d = 0 ∨ d = 1 := by
      simp only [SuperCluster.cluster, mixedKernels, twoKernelDomains, List.length_cons,
        List.length_nil] at hd
      omega
    · exact oneUnknown_exact _ _
    · exact oneUnknown_exact _ _
  F0_exact := by
    intro b
    have hF0 : (mixedKernels.cluster 0).createF0.symEntry 0 0 = 2 := by decide +kernel
    rw [Numbered.mat_mulVec, Numbered.vec_eq_iff]
    intro i hi
    obtain rfl : i = 0 := by omega
    rw [sum_range_one, hF0]
    exact mul_div_cancel₀ (b 0) two_ne_zero
  Sa_exact := by
    have hF0 : (mixedKernels.cluster 0).createF0.symEntry 0 0 = 2 := by decide +kernel
    have hrows : (mixedKernels.cluster 0).createG0.rows = 1 := by decide +kernel
    have hG0 : (mixedKernels.cluster 0).createG0.entry 0 0 = 1 := by decide +kernel
    have hinv : (Numbered.mat 1 1 (mixedKernels.cluster 0).createF0.symEntry)⁻¹
        = Numbered.mat 1 1 fun _ _ => 1 / 2 := by
      refine Matrix.inv_eq_right_inv ?_
      rw [Numbered.mat_mul]
      ext i j
      rw [Fin.fin_one_eq_zero i, Fin.fin_one_eq_zero j]
      simp [hF0]
    refine ⟨0, fun b => ?_, fun u v huv => by rw [huv, Matrix.zero_mulVec]⟩
    rw [add_zero, Cluster.Sa, hinv, Numbered.mat_transpose, Numbered.mat_mul, Numbered.mat_mul,
      Numbered.mat_mulVec, Numbered.vec_eq_iff, hrows]
    intro i hi
    obtain rfl : i = 0 := by omega
    have hSa : (mixedKernels.cluster 0).Sa_Solve b 0 = 2 * b 0 := rfl
    simp [hG0, hSa]

end Espreso
