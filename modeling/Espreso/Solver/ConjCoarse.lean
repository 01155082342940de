import Espreso.Solver.CoarseProblem
import Espreso.Solver.SuperCluster

/-!
# The coarse matrix of the conjugate projector

The conjugate projector needs `G F Gᵀ` with the dual operator `F`.  A rank applies its part of `F` to
its kernel rows and to those of its neighbours, the results are exchanged, and the products with the
kernel rows of the neighbours of neighbours are collected on rank 0.

* `ConjSystem` — the domains of all ranks with their gluing, and the kernel rows.
* **`ConjSystem.createConjGGt_Inv_iff`** — the matrix is the upper triangle of `G F Gᵀ` exactly then.
* **`ConjSystem.createConjGGt_Inv_isolated`** — two ranks without neighbours are dropped.
-/

namespace Espreso

open Finset

/-! ## The system -/

/-- All ranks of a TFETI system with symmetric matrices: `domains r d` is domain `d` of rank `r`, and
`lambda_map_sub r d` are the multipliers in which it takes part. -/
structure ConjSystem extends KernelRows where
  ranks_pos : 0 < ranks
  tfeti : USE_HFETI = false
  lambdas_sorted : ∀ r, (lambdas r).Pairwise (· < ·)
  G1_cols : ∀ r, 0 < (G1 r).rows → (G1 r).cols = multipliers
  number_of_subdomains : ℕ → ℕ
  domains : ℕ → ℕ → DualDomain
  Kplus_symm : ∀ r d i j, (domains r d).Kplus i j = (domains r d).Kplus j i
  lambda_map_sub : ℕ → ℕ → List ℕ
  lambda_map_sub_sorted : ∀ r d, (lambda_map_sub r d).Pairwise (· < ·)
  lambda_map_sub_mem : ∀ r d, ∀ l ∈ lambda_map_sub r d, l ∈ lambdas r
  lambda_map_sub_local : ∀ r d, (domains r d).lambda_map_sub_local
    = (lambda_map_sub r d).map fun l => (lambdas r).idxOf l
  B1_rows : ∀ r d, (domains r d).B1_comp_dom.rows = (lambda_map_sub r d).length
  B1_cols : ∀ r d, (domains r d).B1_comp_dom.cols = (domains r d).domain_prim_size
  B1_bounded : ∀ r d, (domains r d).B1_comp_dom.Bounded

/-- The loop over `lambda_map_sub` and `in_indices`: `x_in_tmp` and `is_empty`. -/
def mergeValues : List ℕ → Row → List ℚ × Bool
  | lambda :: lambda_map_sub, (in_index, in_value) :: in_row =>
    if lambda = in_index then
      (in_value :: (mergeValues lambda_map_sub in_row).1, false)
    else if lambda > in_index then mergeValues (lambda :: lambda_map_sub) in_row
    else
      (0 :: (mergeValues lambda_map_sub ((in_index, in_value) :: in_row)).1,
        (mergeValues lambda_map_sub ((in_index, in_value) :: in_row)).2)
  | lambda_map_sub, _ => (lambda_map_sub.map fun _ => 0, true)
termination_by lambda_map_sub in_row => lambda_map_sub.length + in_row.length

namespace ConjSystem

variable (S : ConjSystem)

/-! ## The code -/

/-- What domain `d` adds to `compressed_tmp`. -/
def addDomain (r : ℕ) (in_row : Row) (compressed_tmp : ℕ → ℚ) (d : ℕ) : ℕ → ℚ :=
  let x_in_tmp := (mergeValues (S.lambda_map_sub r d) in_row).1
  if (mergeValues (S.lambda_map_sub r d) in_row).2 then compressed_tmp
  else
    (S.domains r d).scatter compressed_tmp ((S.domains r d).B1_comp_dom.matVec
      ((S.domains r d).multKplusLocal
        ((S.domains r d).B1_comp_dom.matVecT fun i => x_in_tmp.getD i 0)))

def compressed_tmp (r : ℕ) (in_row : Row) : ℕ → ℚ :=
  (List.range (S.number_of_subdomains r)).foldl (S.addDomain r in_row) 0

/-- `apply_A_l_comp_dom_B_P_local_sparse` on a row.  The loop reads the first multiplier of every
domain and the first entry of the row before it tests whether there is one. -/
def applyRow (r : ℕ) (in_row : Row) : Option (ℕ → ℚ) :=
  if ∀ d < S.number_of_subdomains r, S.lambda_map_sub r d ≠ [] ∧ in_row ≠ [] then
    some (S.compressed_tmp r in_row)
  else none

def storeRow (r : ℕ) (out_values : ℕ → ℚ) : Row :=
  (List.range (S.size r)).filterMap fun j =>
    if out_values j ≠ 0 then some ((S.lambdas r).getD j 0, out_values j) else none

/-- `apply_A_l_Mat_local_sparse` -/
def applyMat (r : ℕ) (X_in : SparseMatrix) : Option SparseMatrix :=
  (X_in.csr.mapM fun row => (S.applyRow r row).map (S.storeRow r)).map fun csr => ⟨X_in.cols, csr⟩

/-- `GA_l`: what the rank itself and its neighbours computed for its kernel rows. -/
def GA_l (r : ℕ) : Option SparseMatrix := do
  let own ← S.applyMat r (S.G1 r)
  let GA_from_neighs ← (S.neighs r).mapM fun q => S.applyMat q (S.G1 r)
  return GA_from_neighs.foldl SparseMatrix.matAddInPlace own

/-- `neighs_of_neighs`: the neighbours of a rank and their neighbours, sorted and without
repetitions. -/
def neighs_of_neighs (r : ℕ) : List ℕ :=
  (((S.neighs r).foldl (fun list q => S.neighs q ++ list) (S.neighs r)).mergeSort (· ≤ ·)).dedup

/-- `GKpluGt_l`: the rows of the coarse matrix that belong to the rank. -/
def GKpluGt_l (r : ℕ) (GA : SparseMatrix) : SparseMatrix :=
  (S.neighs_of_neighs r).foldl (fun GKpluGt_l q => GKpluGt_l.matAddInPlace (S.crossBlock q GA))
    SparseMatrix.empty

/-- `GGt_Mat_tmp` on rank 0 before its lower triangle is removed: the collected pieces, or for one rank
the product of its kernel rows, unless a factor stores nothing. -/
def coarseMatrix (GA : ℕ → SparseMatrix) : SparseMatrix :=
  let GGt_Mat_tmp := collect S.ranks fun r => S.GKpluGt_l r (GA r)
  if S.ranks = 1 then
    if (S.G1 0).nnz = 0 ∨ (GA 0).nnz = 0 then GGt_Mat_tmp else (S.G1 0).matMatT (GA 0)
  else GGt_Mat_tmp

/-- `CreateConjGGt_Inv`: the matrix that every rank factorizes; `none` stands for a read out of
bounds. -/
def createConjGGt_Inv : Option SparseMatrix := do
  let GA ← (List.range S.ranks).mapM S.GA_l
  return (S.coarseMatrix fun r => GA.getD r SparseMatrix.empty).removeLower

/-! ## What it should compute -/

def gluing (r d l j : ℕ) : ℚ :=
  if l ∈ S.lambda_map_sub r d then
    (S.domains r d).B1_comp_dom.entry ((S.lambda_map_sub r d).idxOf l) j
  else 0

/-- `B K⁺ Bᵀ` of a domain. -/
def domainF (r d l l' : ℕ) : ℚ :=
  ∑ i ∈ range (S.domains r d).domain_prim_size,
    S.gluing r d l i * ∑ j ∈ range (S.domains r d).domain_prim_size,
      (S.domains r d).Kplus i j * S.gluing r d l' j

def rankF (r l l' : ℕ) : ℚ := ∑ d ∈ range (S.number_of_subdomains r), S.domainF r d l l'

/-- **The dual operator** `F`, the sum over the domains of all ranks. -/
def F (l l' : ℕ) : ℚ := ∑ r ∈ range S.ranks, S.rankF r l l'

/-- `G F` -/
def GF (k l : ℕ) : ℚ := ∑ l' ∈ range S.multipliers, S.stack.entry k l' * S.F l' l

/-- `G F Gᵀ` -/
def GFGt (k k' : ℕ) : ℚ := ∑ l ∈ range S.multipliers, S.GF k l * S.stack.entry k' l

/-- No loop reads behind a row: where a rank applies its operator to a kernel row, the row stores
something and every domain has a multiplier. -/
def Readable : Prop :=
  ∀ r < S.ranks, ∀ q, (q = r ∨ q ∈ S.neighs r) → ∀ row ∈ (S.G1 q).csr,
    ∀ d < S.number_of_subdomains r, S.lambda_map_sub r d ≠ [] ∧ row ≠ []

/-- **The condition of the coarse matrix.**  No loop reads behind a row.  A single rank has no kernel
rows, or one of them is not in the kernel of `F`; of several ranks each that has kernel rows has a
neighbour, and `g F hᵀ ≠ 0` for one of its rows `g` and a kernel row `h` of any rank. -/
def Covered : Prop :=
  S.Readable ∧
    if S.ranks = 1 then
      S.ker_size 0 = 0 ∨ ∃ i < S.ker_size 0, ∃ l < S.multipliers, S.GF i l ≠ 0
    else
      ∀ r < S.ranks, S.ker_size r ≠ 0 →
        S.neighs r ≠ [] ∧
          ∃ i < S.ker_size r, ∃ k < S.global_GGt_size, S.GFGt (S.global_ker_size r + i) k ≠ 0

end ConjSystem

/-- The upper triangle of an `n × n` matrix. -/
structure IsUpperTriangle (A : SparseMatrix) (n : ℕ) (M : ℕ → ℕ → ℚ) : Prop where
  rows : A.rows = n
  cols : A.cols = n
  upper : ∀ i < n, ∀ j < n, i ≤ j → A.entry i j = M i j
  lower : ∀ i < n, ∀ e ∈ A.rowAt i, i ≤ e.1

/-! ## One row -/

lemma mergeValues_spec {ls : List ℕ} {es : Row} (hls : ls.Pairwise (· < ·))
    (hes : es.Pairwise (·.1 < ·.1)) :
    (mergeValues ls es).1 = ls.map es.entry ∧
      ((mergeValues ls es).2 = true → ∀ l ∈ ls, es.entry l = 0) := by
  induction ls, es using mergeValues.induct with
  | case1 ls l v es ih =>
      obtain ⟨ih, -⟩ := ih (List.pairwise_cons.mp hls).2 (List.pairwise_cons.mp hes).2
      have hrest : ∀ l' ∈ ls, Row.entry ((l, v) :: es) l' = Row.entry es l' := by
        intro l' hl'
        rw [Row.entry_cons, if_neg (ne_of_lt ((List.pairwise_cons.mp hls).1 l' hl')), zero_add]
      have hfirst : Row.entry ((l, v) :: es) l = v := by
        rw [Row.entry_cons, if_pos rfl, Row.entry_of_lt (List.pairwise_cons.mp hes).1, add_zero]
      rw [mergeValues, if_pos rfl]
      refine ⟨?_, fun h => absurd h Bool.false_ne_true⟩
      rw [ih, List.map_cons, hfirst, List.map_congr_left hrest]
  | case2 l ls k v es hne hgt ih =>
      obtain ⟨ih, ihempty⟩ := ih hls (List.pairwise_cons.mp hes).2
      have hskip : ∀ l' ∈ l :: ls, Row.entry ((k, v) :: es) l' = Row.entry es l' := by
        intro l' hl'
        have hlt : k < l' := by
          rcases List.mem_cons.mp hl' with rfl | hl'
          · exact hgt
          · exact lt_trans hgt ((List.pairwise_cons.mp hls).1 l' hl')
        rw [Row.entry_cons, if_neg (ne_of_lt hlt), zero_add]
      rw [mergeValues, if_neg hne, if_pos hgt, ih, List.map_congr_left hskip]
      exact ⟨rfl, fun h l' hl' => (hskip l' hl').trans (ihempty h l' hl')⟩
  | case3 l ls k v es hne hngt ih =>
      obtain ⟨ih, ihempty⟩ := ih (List.pairwise_cons.mp hls).2 hes
      have hzero : Row.entry ((k, v) :: es) l = 0 := by
        refine Row.entry_of_lt fun e he => ?_
        rcases List.mem_cons.mp he with rfl | he
        · omega
        · have := (List.pairwise_cons.mp hes).1 e he
          omega
      rw [mergeValues, if_neg hne, if_neg hngt]
      refine ⟨?_, fun h l' hl' => ?_⟩
      · rw [ih, List.map_cons, hzero]
      · rcases List.mem_cons.mp hl' with rfl | hl'
        · exact hzero
        · exact ihempty h l' hl'
  | case4 ls es h =>
      match ls, es, h with
      | [], es, _ => simp [mergeValues]
      | l :: ls, [], _ => simp [mergeValues, Function.const_def]
      | l :: ls, (k, v) :: es, h => exact absurd rfl (h l ls k v es rfl)

namespace ConjSystem

variable {S : ConjSystem}

lemma gluing_of_notMem {r d l : ℕ} (h : l ∉ S.lambda_map_sub r d) (j : ℕ) : S.gluing r d l j = 0 :=
  if_neg h

lemma nodup_lambda_map_sub (r d : ℕ) : (S.lambda_map_sub r d).Nodup :=
  (S.lambda_map_sub_sorted r d).imp fun h => ne_of_lt h

lemma matVecT_gluing (r d : ℕ) (g : ℕ → ℚ) (j : ℕ) :
    (S.domains r d).B1_comp_dom.matVecT
        (fun i => ((S.lambda_map_sub r d).map g).getD i 0) j
      = ∑ l ∈ range S.multipliers, S.gluing r d l j * g l := by
  have hsub : (S.lambda_map_sub r d).toFinset ⊆ range S.multipliers := fun l hl =>
    mem_range.mpr (S.lambdas_lt r l (S.lambda_map_sub_mem r d l (List.mem_toFinset.mp hl)))
  have hrow : ∀ i ∈ range (S.lambda_map_sub r d).length,
      (S.domains r d).B1_comp_dom.entry i j * ((S.lambda_map_sub r d).map g).getD i 0
        = S.gluing r d ((S.lambda_map_sub r d).getD i 0) j * g ((S.lambda_map_sub r d).getD i 0) := by
    intro i hi
    have hi := mem_range.mp hi
    have hi' : i < ((S.lambda_map_sub r d).map g).length := by rwa [List.length_map]
    rw [List.getD_eq_getElem _ _ hi, List.getD_eq_getElem _ _ hi', List.getElem_map, gluing,
      if_pos (List.getElem_mem hi), (nodup_lambda_map_sub r d).idxOf_getElem i hi]
  rw [SparseMatrix.matVecT, S.B1_rows, sum_congr rfl hrow,
    sum_range_getD _ fun l => S.gluing r d l j * g l,
    ← List.sum_toFinset _ (nodup_lambda_map_sub r d)]
  refine sum_subset hsub fun l _ hl => ?_
  rw [gluing_of_notMem (fun h => hl (List.mem_toFinset.mpr h)), zero_mul]

lemma scattered_index (r d : ℕ) (v : ℕ → ℚ) {l : ℕ} (hl : l ∈ S.lambdas r) :
    (S.domains r d).scattered v (S.index r l)
      = if l ∈ S.lambda_map_sub r d then v ((S.lambda_map_sub r d).idxOf l) else 0 := by
  have hterm : ∀ i ∈ range (S.lambda_map_sub r d).length,
      (if (S.domains r d).lambda_map_sub_local.getD i 0 = S.index r l then v i else 0)
        = if (S.lambda_map_sub r d).getD i 0 = l then
            v ((S.lambda_map_sub r d).idxOf ((S.lambda_map_sub r d).getD i 0)) else 0 := by
    intro i hi
    have hi := mem_range.mp hi
    have hi' : i < ((S.lambda_map_sub r d).map fun l => (S.lambdas r).idxOf l).length := by
      rwa [List.length_map]
    have hmem := S.lambda_map_sub_mem r d _ (List.getElem_mem hi)
    have hiff : (S.lambdas r).idxOf (S.lambda_map_sub r d)[i] = S.index r l
        ↔ (S.lambda_map_sub r d)[i] = l :=
      ⟨fun h => DualLayout.index_inj hmem h, fun h => by rw [h]; rfl⟩
    rw [S.lambda_map_sub_local, List.getD_eq_getElem _ _ hi', List.getElem_map,
      List.getD_eq_getElem _ _ hi, (nodup_lambda_map_sub r d).idxOf_getElem i hi]
    simp only [hiff]
  rw [DualDomain.scattered, S.lambda_map_sub_local, List.length_map, ← S.lambda_map_sub_local,
    sum_congr rfl hterm, sum_range_getD _ fun l' => if l' = l then
      v ((S.lambda_map_sub r d).idxOf l') else 0,
    ← List.sum_toFinset _ (nodup_lambda_map_sub r d), sum_ite_eq']
  simp only [List.mem_toFinset]

lemma addDomain_eq (r d : ℕ) {row : Row} (hrow : row.Pairwise (·.1 < ·.1)) (y : ℕ → ℚ) {l : ℕ}
    (hl : l ∈ S.lambdas r) :
    S.addDomain r row y d (S.index r l)
      = y (S.index r l) + ∑ l' ∈ range S.multipliers, S.domainF r d l l' * row.entry l' := by
  obtain ⟨hvalues, hempty⟩ := mergeValues_spec (S.lambda_map_sub_sorted r d) hrow
  have hF : ∑ l' ∈ range S.multipliers, S.domainF r d l l' * row.entry l'
      = ∑ i ∈ range (S.domains r d).domain_prim_size, S.gluing r d l i *
          ∑ j ∈ range (S.domains r d).domain_prim_size, (S.domains r d).Kplus i j *
            ∑ l' ∈ range S.multipliers, S.gluing r d l' j * row.entry l' := by
    simp only [domainF, sum_mul, mul_sum]
    rw [sum_comm]
    refine sum_congr rfl fun i _ => ?_
    rw [sum_comm]
    exact sum_congr rfl fun j _ => sum_congr rfl fun l' _ => by ring
  rw [addDomain]
  split_ifs with hskip
  · have hzero : ∀ l' ∈ range S.multipliers, S.domainF r d l l' * row.entry l' = 0 := by
      intro l' _
      by_cases hmem : l' ∈ S.lambda_map_sub r d
      · rw [hempty hskip l' hmem, mul_zero]
      · simp only [domainF, gluing_of_notMem hmem, mul_zero, sum_const_zero, zero_mul]
    rw [sum_eq_zero hzero, add_zero]
  · rw [DualDomain.scatter_eq, scattered_index r d _ hl, hF]
    refine congrArg _ ?_
    split_ifs with hmem
    · rw [(S.B1_bounded r d).matVec_eq, S.B1_cols]
      simp only [gluing, if_pos hmem, Domain.multKplusLocal, hvalues, matVecT_gluing]
    · simp only [gluing_of_notMem hmem, zero_mul, sum_const_zero]

lemma compressed_tmp_eq (r : ℕ) {row : Row} (hrow : row.Pairwise (·.1 < ·.1)) {l : ℕ}
    (hl : l ∈ S.lambdas r) :
    S.compressed_tmp r row (S.index r l)
      = ∑ l' ∈ range S.multipliers, S.rankF r l l' * row.entry l' := by
  have hfold : ∀ n, (List.range n).foldl (S.addDomain r row) 0 (S.index r l)
      = ∑ d ∈ range n, ∑ l' ∈ range S.multipliers, S.domainF r d l l' * row.entry l' := by
    intro n
    induction n with
    | zero => simp
    | succ n ih =>
        rw [List.range_succ, List.foldl_append, List.foldl_cons, List.foldl_nil,
          addDomain_eq r n hrow _ hl, ih, sum_range_succ]
  rw [compressed_tmp, hfold, sum_comm]
  simp only [rankF, sum_mul]

lemma rankF_of_notMem {r l : ℕ} (hl : l ∉ S.lambdas r) (l' : ℕ) : S.rankF r l l' = 0 := by
  refine sum_eq_zero fun d _ => ?_
  simp only [domainF, gluing_of_notMem fun h => hl (S.lambda_map_sub_mem r d l h), zero_mul,
    sum_const_zero]

lemma domainF_comm (r d l l' : ℕ) : S.domainF r d l l' = S.domainF r d l' l := by
  simp only [domainF, mul_sum]
  rw [sum_comm]
  refine sum_congr rfl fun i _ => sum_congr rfl fun j _ => ?_
  rw [S.Kplus_symm]
  ring

lemma rankF_comm (r l l' : ℕ) : S.rankF r l l' = S.rankF r l' l :=
  sum_congr rfl fun d _ => domainF_comm r d l l'

/-! ## Matrices of rows -/

lemma map_getD_range (l : List ℕ) : (List.range l.length).map (l.getD · 0) = l := by
  refine List.ext_getElem (by simp) fun i hi hi' => ?_
  rw [List.getElem_map, List.getElem_range, List.getD_eq_getElem _ _ hi']

lemma storeRow_eq (r : ℕ) (y : ℕ → ℚ) :
    S.storeRow r y = (S.lambdas r).filterMap fun l =>
      if y (S.index r l) ≠ 0 then some (l, y (S.index r l)) else none := by
  have hcongr : ∀ j ∈ List.range (S.size r),
      (if y j ≠ 0 then some ((S.lambdas r).getD j 0, y j) else none)
        = ((fun l => if y (S.index r l) ≠ 0 then some (l, y (S.index r l)) else none) ∘
            ((S.lambdas r).getD · 0)) j := by
    intro j hj
    have hj : j < (S.lambdas r).length := List.mem_range.mp hj
    simp only [Function.comp_apply]
    rw [List.getD_eq_getElem _ _ hj, DualLayout.index, (S.lambdas_nodup r).idxOf_getElem j hj]
  calc S.storeRow r y
      = ((List.range (S.size r)).map ((S.lambdas r).getD · 0)).filterMap fun l =>
          if y (S.index r l) ≠ 0 then some (l, y (S.index r l)) else none := by
        rw [storeRow, List.filterMap_congr hcongr, List.filterMap_map]
    _ = _ := congrArg (List.filterMap _) (map_getD_range (S.lambdas r))

lemma entry_storeRow (r : ℕ) (y : ℕ → ℚ) (l : ℕ) :
    Row.entry (S.storeRow r y) l = if l ∈ S.lambdas r then y (S.index r l) else 0 := by
  rw [storeRow_eq]
  have hnodup := S.lambdas_nodup r
  generalize S.lambdas r = ls at hnodup
  induction ls with
  | nil => simp
  | cons k ls ih =>
      rw [List.nodup_cons] at hnodup
      rw [List.filterMap_cons]
      by_cases hk : y (S.index r k) = 0
      · rw [if_neg (not_not.mpr hk), ih hnodup.2]
        by_cases hl : l = k
        · rw [hl, if_neg hnodup.1, if_pos List.mem_cons_self, hk]
        · simp only [List.mem_cons, hl, false_or]
      · rw [if_pos hk, Row.entry_cons, ih hnodup.2]
        by_cases hl : k = l
        · rw [← hl, if_pos rfl, if_neg hnodup.1, if_pos List.mem_cons_self, add_zero]
        · simp only [List.mem_cons, Ne.symm hl, false_or, if_neg hl, zero_add]

lemma storeRow_ascending (r : ℕ) (y : ℕ → ℚ) : (S.storeRow r y).Pairwise (·.1 < ·.1) := by
  rw [storeRow_eq]
  refine (S.lambdas_sorted r).filterMap _ fun l l' hlt e he e' he' => ?_
  split_ifs at he he'
  cases he
  cases he'
  exact hlt

lemma storeRow_below (r : ℕ) (y : ℕ → ℚ) : Row.Below (S.storeRow r y) S.multipliers := by
  rw [storeRow_eq]
  rintro e he
  obtain ⟨l, hl, hle⟩ := List.mem_filterMap.mp he
  split_ifs at hle
  cases hle
  exact S.lambdas_lt r l hl

/-- The result of `applyMat` where all reads stay within bounds. -/
def localProduct (S : ConjSystem) (r : ℕ) (X_in : SparseMatrix) : SparseMatrix where
  cols := X_in.cols
  csr := X_in.csr.map fun row => S.storeRow r (S.compressed_tmp r row)

lemma applyMat_eq (r : ℕ) (X_in : SparseMatrix) :
    S.applyMat r X_in
      = if ∀ row ∈ X_in.csr, ∀ d < S.number_of_subdomains r, S.lambda_map_sub r d ≠ [] ∧ row ≠ []
        then some (S.localProduct r X_in) else none := by
  have hrow : ∀ row, (S.applyRow r row).map (S.storeRow r)
      = if ∀ d < S.number_of_subdomains r, S.lambda_map_sub r d ≠ [] ∧ row ≠ []
        then some (S.storeRow r (S.compressed_tmp r row)) else none := by
    intro row
    rw [applyRow]
    split_ifs <;> rfl
  simp only [applyMat, hrow]
  rw [Fallible.mapM_guard]
  split_ifs <;> rfl

lemma localProduct_spec (r q : ℕ) :
    (S.localProduct r (S.G1 q)).Fits (S.ker_size q) S.multipliers ∧
      (S.localProduct r (S.G1 q)).Ascending ∧
      ∀ i l, (S.localProduct r (S.G1 q)).entry i l
        = ∑ l' ∈ range S.multipliers, S.rankF r l l' * (S.G1 q).entry i l' := by
  have hrows : (S.localProduct r (S.G1 q)).rows = S.ker_size q := by
    simp [SparseMatrix.rows, localProduct, KernelRows.ker_size]
  have hcols : 0 < (S.G1 q).rows → (S.localProduct r (S.G1 q)).cols = S.multipliers := S.G1_cols q
  refine ⟨⟨?_, fun hnnz => ⟨hrows, hcols ?_⟩⟩, ?_, fun i l => ?_⟩
  · rintro row hrow
    obtain ⟨row', hrow', rfl⟩ := List.mem_map.mp hrow
    rw [hcols (List.length_pos_of_mem hrow')]
    exact storeRow_below r _
  · have hpos := SparseMatrix.rows_pos_of_nnz hnnz
    rwa [hrows] at hpos
  · rintro row hrow
    obtain ⟨row', -, rfl⟩ := List.mem_map.mp hrow
    exact storeRow_ascending r _
  · rcases lt_or_ge i (S.G1 q).rows with hi | hi
    · have hrowAt : (S.localProduct r (S.G1 q)).rowAt i
          = S.storeRow r (S.compressed_tmp r ((S.G1 q).rowAt i)) := by
        have hi' : i < (S.localProduct r (S.G1 q)).csr.length := lt_of_lt_of_eq hi hrows.symm
        rw [SparseMatrix.rowAt, SparseMatrix.rowAt, List.getD_eq_getElem _ _ hi',
          List.getD_eq_getElem _ _ hi]
        exact List.getElem_map _
      rw [SparseMatrix.entry, hrowAt, entry_storeRow]
      split_ifs with hl
      · exact compressed_tmp_eq r ((S.G1_ascending q).rowAt i) hl
      · simp only [rankF_of_notMem hl, zero_mul, sum_const_zero]
    · rw [SparseMatrix.entry_eq_zero_of_rows (hrows.le.trans hi)]
      simp only [SparseMatrix.entry_eq_zero_of_rows hi, mul_zero, sum_const_zero]

/-- `GA_l` where all reads stay within bounds. -/
def GA (S : ConjSystem) (r : ℕ) : SparseMatrix :=
  (S.neighs r).foldl (fun A q => A.matAddInPlace (S.localProduct q (S.G1 r)))
    (S.localProduct r (S.G1 r))

def ReadableAt (S : ConjSystem) (r : ℕ) : Prop :=
  ∀ q, (q = r ∨ q ∈ S.neighs r) → ∀ row ∈ (S.G1 r).csr, ∀ d < S.number_of_subdomains q,
    S.lambda_map_sub q d ≠ [] ∧ row ≠ []

lemma readable_iff : S.Readable ↔ ∀ r < S.ranks, S.ReadableAt r := by
  constructor
  · rintro h r hr q hq
    rcases hq with rfl | hq
    · exact h q hr q (Or.inl rfl)
    · exact h q (S.neighs_lt r q hq) r (Or.inr (S.neighs_symm r q hq))
  · rintro h r hr q hq
    rcases hq with rfl | hq
    · exact h q hr q (Or.inl rfl)
    · exact h q (S.neighs_lt r q hq) r (Or.inr (S.neighs_symm r q hq))

open Classical in
lemma GA_l_eq (r : ℕ) : S.GA_l r = if S.ReadableAt r then some (S.GA r) else none := by
  have hneighs : ((S.neighs r).mapM fun q => S.applyMat q (S.G1 r))
      = if ∀ q ∈ S.neighs r, ∀ row ∈ (S.G1 r).csr, ∀ d < S.number_of_subdomains q,
          S.lambda_map_sub q d ≠ [] ∧ row ≠ []
        then some ((S.neighs r).map fun q => S.localProduct q (S.G1 r)) else none := by
    simp only [applyMat_eq]
    rw [Fallible.mapM_guard]
  have hiff : S.ReadableAt r ↔
      (∀ row ∈ (S.G1 r).csr, ∀ d < S.number_of_subdomains r, S.lambda_map_sub r d ≠ [] ∧ row ≠ []) ∧
        ∀ q ∈ S.neighs r, ∀ row ∈ (S.G1 r).csr, ∀ d < S.number_of_subdomains q,
          S.lambda_map_sub q d ≠ [] ∧ row ≠ [] :=
    ⟨fun h => ⟨h r (Or.inl rfl), fun q hq => h q (Or.inr hq)⟩, fun h q hq => hq.elim
      (fun heq => heq ▸ h.1) fun hq => h.2 q hq⟩
  rw [GA_l, applyMat_eq, hneighs]
  by_cases hown : ∀ row ∈ (S.G1 r).csr, ∀ d < S.number_of_subdomains r,
      S.lambda_map_sub r d ≠ [] ∧ row ≠ []
  · by_cases hrest : ∀ q ∈ S.neighs r, ∀ row ∈ (S.G1 r).csr, ∀ d < S.number_of_subdomains q,
        S.lambda_map_sub q d ≠ [] ∧ row ≠ []
    · rw [if_pos hown, if_pos hrest, if_pos (hiff.mpr ⟨hown, hrest⟩)]
      exact congrArg some List.foldl_map
    · rw [if_pos hown, if_neg hrest, if_neg fun h => hrest (hiff.mp h).2]
      rfl
  · rw [if_neg hown, if_neg fun h => hown (hiff.mp h).1]
    rfl

lemma GA_spec {r : ℕ} (hr : r < S.ranks) :
    (S.GA r).Fits (S.ker_size r) S.multipliers ∧ (S.GA r).Ascending ∧
      ∀ i < S.ker_size r, ∀ l, (S.GA r).entry i l = S.GF (S.global_ker_size r + i) l := by
  obtain ⟨hfits, hentry⟩ := (localProduct_spec r r).1.foldl_matAddInPlace
    (l := S.neighs r) fun q _ => (localProduct_spec q r).1
  refine ⟨hfits, (localProduct_spec r r).2.1.foldl_matAddInPlace fun q _ =>
    (localProduct_spec q r).2.1, fun i hi l => ?_⟩
  have hzero : ∀ q < S.ranks, r ≠ q → q ∉ S.neighs r →
      ∑ l' ∈ range S.multipliers, S.rankF q l l' * (S.G1 r).entry i l' = 0 := by
    intro q hq hne hnot
    refine sum_eq_zero fun l' _ => ?_
    by_cases hl' : l' ∈ S.lambdas r
    · have hlq : l' ∉ S.lambdas q := fun h => hnot (S.neighs_of_shared r hr q hq hne l' hl' h)
      rw [rankF_comm, rankF_of_notMem hlq, zero_mul]
    · rw [KernelRows.entry_G1_of_notMem hl', mul_zero]
  rw [GA, hentry, (localProduct_spec r r).2.2,
    List.map_congr_left fun q _ => (localProduct_spec q r).2.2 i l,
    S.sum_neighs hr hzero, sum_comm, GF]
  refine sum_congr rfl fun l' _ => ?_
  rw [F, KernelRows.entry_stack hr hi, mul_sum]
  exact sum_congr rfl fun q _ => by rw [rankF_comm, mul_comm]

/-! ## Neighbours of neighbours -/

lemma F_comm (l l' : ℕ) : S.F l l' = S.F l' l := sum_congr rfl fun r _ => rankF_comm r l l'

lemma GFGt_comm (k k' : ℕ) : S.GFGt k k' = S.GFGt k' k := by
  simp only [GFGt, GF, sum_mul]
  rw [sum_comm]
  exact sum_congr rfl fun l _ => sum_congr rfl fun l' _ => by rw [F_comm]; ring

lemma mem_neighs_of_neighs {r q : ℕ} :
    q ∈ S.neighs_of_neighs r ↔ q ∈ S.neighs r ∨ ∃ p ∈ S.neighs r, q ∈ S.neighs p := by
  have hfold : ∀ ps list : List ℕ, q ∈ ps.foldl (fun list q => S.neighs q ++ list) list
      ↔ q ∈ list ∨ ∃ p ∈ ps, q ∈ S.neighs p := by
    intro ps
    induction ps with
    | nil => simp
    | cons p ps ih =>
        intro list
        rw [List.foldl_cons, ih, List.mem_append]
        simp only [List.mem_cons, exists_eq_or_imp]
        tauto
  rw [neighs_of_neighs, List.mem_dedup, List.mem_mergeSort, hfold]

lemma nodup_neighs_of_neighs {r : ℕ} : (S.neighs_of_neighs r).Nodup := List.nodup_dedup _

lemma neighs_of_neighs_lt {r q : ℕ} (hq : q ∈ S.neighs_of_neighs r) : q < S.ranks := by
  rcases mem_neighs_of_neighs.mp hq with hq | ⟨p, -, hq⟩
  · exact S.neighs_lt r q hq
  · exact S.neighs_lt p q hq

lemma GF_eq_zero {r i l : ℕ} (hr : r < S.ranks) (hi : i < S.ker_size r)
    (hl : ∀ q, (q = r ∨ q ∈ S.neighs r) → l ∉ S.lambdas q) :
    S.GF (S.global_ker_size r + i) l = 0 := by
  refine sum_eq_zero fun l' _ => ?_
  rw [KernelRows.entry_stack hr hi, F, mul_sum]
  refine sum_eq_zero fun q hq => ?_
  by_cases hl' : l' ∈ S.lambdas r
  · by_cases hlq : l' ∈ S.lambdas q
    · have hnear : q = r ∨ q ∈ S.neighs r := by
        by_cases hqr : q = r
        · exact Or.inl hqr
        · exact Or.inr (S.neighs_of_shared r hr q (mem_range.mp hq) (Ne.symm hqr) l' hl' hlq)
      rw [rankF_comm, rankF_of_notMem (hl q hnear), mul_zero]
    · rw [rankF_of_notMem hlq, mul_zero]
  · rw [KernelRows.entry_G1_of_notMem hl', zero_mul]

lemma GFGt_eq_zero {r i p b : ℕ} (hr : r < S.ranks) (hi : i < S.ker_size r) (hp : p < S.ranks)
    (hb : b < S.ker_size p) (hneighs : S.neighs r ≠ []) (hnot : p ∉ S.neighs_of_neighs r) :
    S.GFGt (S.global_ker_size r + i) (S.global_ker_size p + b) = 0 := by
  rw [mem_neighs_of_neighs, not_or] at hnot
  refine sum_eq_zero fun l _ => ?_
  by_cases hlp : l ∈ S.lambdas p
  · rw [GF_eq_zero hr hi, zero_mul]
    rintro q hq hlq
    rcases hq with rfl | hq
    · by_cases hpq : p = q
      · -- a neighbour of the rank has the rank as its neighbour
        subst hpq
        obtain ⟨q, hq⟩ := List.exists_mem_of_ne_nil _ hneighs
        exact hnot.2 ⟨q, hq, S.neighs_symm p q hq⟩
      · exact hnot.1 (S.neighs_of_shared q hr p hp (Ne.symm hpq) l hlq hlp)
    · by_cases hpq : p = q
      · exact hnot.1 (hpq ▸ hq)
      · exact hnot.2 ⟨q, hq, S.neighs_of_shared q (S.neighs_lt r q hq) p hp (Ne.symm hpq) l hlq hlp⟩
  · rw [KernelRows.entry_stack hp hb, KernelRows.entry_G1_of_notMem hlp, mul_zero]

lemma sum_GA {r i p b : ℕ} (hr : r < S.ranks) (hi : i < S.ker_size r) (hp : p < S.ranks)
    (hb : b < S.ker_size p) :
    ∑ l ∈ range S.multipliers, (S.G1 p).entry b l * (S.GA r).entry i l
      = S.GFGt (S.global_ker_size r + i) (S.global_ker_size p + b) :=
  sum_congr rfl fun l _ => by
    rw [(GA_spec hr).2.2 i hi, KernelRows.entry_stack hp hb, mul_comm]

lemma GKpluGt_l_spec {r : ℕ} (hr : r < S.ranks) :
    (S.GKpluGt_l r (S.GA r)).Fits (S.ker_size r) S.global_GGt_size ∧
      (S.neighs r = [] → S.GKpluGt_l r (S.GA r) = SparseMatrix.empty) ∧
      (S.neighs r ≠ [] → ∀ i < S.ker_size r, ∀ p < S.ranks, ∀ b < S.ker_size p,
        (S.GKpluGt_l r (S.GA r)).entry i (S.global_ker_size p + b)
          = S.GFGt (S.global_ker_size r + i) (S.global_ker_size p + b)) := by
  have hGA := GA_spec hr
  have hblock := fun q (hq : q ∈ S.neighs_of_neighs r) =>
    KernelRows.crossBlock_spec hGA.2.1 (fun hnnz => (hGA.1.2 hnnz).1)
      (neighs_of_neighs_lt hq)
  have hempty : SparseMatrix.empty.Fits (S.ker_size r) S.global_GGt_size :=
    ⟨fun row hrow => absurd hrow List.not_mem_nil, fun h => absurd rfl h⟩
  obtain ⟨hfits, hentry⟩ := hempty.foldl_matAddInPlace fun q hq => (hblock q hq).1
  refine ⟨hfits, fun hnil => ?_, fun hneighs i hi p hp b hb => ?_⟩
  · have hnn : S.neighs_of_neighs r = [] := by
      refine List.eq_nil_iff_forall_not_mem.mpr fun q hq => ?_
      rw [mem_neighs_of_neighs, hnil] at hq
      simp at hq
    rw [GKpluGt_l, hnn]
    rfl
  · have hpieces : ((S.neighs_of_neighs r).map fun q =>
        (S.crossBlock q (S.GA r)).entry i (S.global_ker_size p + b)).sum
          = if p ∈ S.neighs_of_neighs r then
              S.GFGt (S.global_ker_size r + i) (S.global_ker_size p + b) else 0 := by
      rw [List.map_congr_left fun q hq => (hblock q hq).2 i p hp b hb, sum_GA hr hi hp hb,
        ← List.sum_toFinset _ nodup_neighs_of_neighs, sum_ite_eq']
      simp only [List.mem_toFinset]
    rw [GKpluGt_l, hentry, SparseMatrix.entry_empty, zero_add, hpieces]
    split_ifs with hmem
    · rfl
    · exact (GFGt_eq_zero hr hi hp hb hneighs hmem).symm

lemma nnz_GKpluGt_l {r : ℕ} (hr : r < S.ranks) :
    (S.GKpluGt_l r (S.GA r)).nnz ≠ 0 ↔ S.neighs r ≠ [] ∧
      ∃ i < S.ker_size r, ∃ k < S.global_GGt_size, S.GFGt (S.global_ker_size r + i) k ≠ 0 := by
  obtain ⟨-, hempty, hentry⟩ := GKpluGt_l_spec hr
  constructor
  · intro hnnz
    refine ⟨fun hnil => hnnz (by rw [hempty hnil]; rfl), ?_⟩
    by_contra hzero
    push Not at hzero
    refine hnnz ?_
    have hblocks : ∀ q ∈ S.neighs_of_neighs r, (S.crossBlock q (S.GA r)).nnz = 0 := by
      intro q hq
      have hqr := neighs_of_neighs_lt hq
      rw [KernelRows.crossBlock, SparseMatrix.nnz_shiftColumns]
      refine SparseMatrix.nnz_matTranspose_of_nnz ?_
      by_cases hGA : (S.GA r).nnz = 0
      · rw [SparseMatrix.matMatT, if_pos (Or.inr hGA)]
        rfl
      · refine (S.G1_ascending q).nnz_matMatT (GA_spec hr).2.1
          (fun i => KernelRows.G1_below (S := S.toKernelRows) q i) fun b hb i hi => ?_
        rw [((GA_spec hr).1.2 hGA).1] at hi
        rw [sum_GA hr hi hqr hb]
        exact hzero i hi _ (KernelRows.index_lt_total hqr hb)
    rw [GKpluGt_l, SparseMatrix.foldl_matAddInPlace_of_nnz hblocks]
    rfl
  · rintro ⟨hneighs, i, hi, k, hk, hne⟩ hnnz
    obtain ⟨p, hp, b, hb, rfl⟩ := KernelRows.exists_rank hk
    rw [← hentry hneighs i hi p hp b hb, SparseMatrix.entry_of_nnz hnnz] at hne
    exact hne rfl

/-! ## The coarse matrix -/

lemma isUpperTriangle_of_entries {A : SparseMatrix} {M : ℕ → ℕ → ℚ} {n : ℕ} (hrows : A.rows = n)
    (hcols : A.cols = n) (hentry : ∀ i < n, ∀ j < n, A.entry i j = M i j) :
    IsUpperTriangle A.removeLower n M where
  rows := by rw [SparseMatrix.rows_removeLower, hrows]
  cols := by rw [SparseMatrix.cols_removeLower, hcols]
  upper := fun i hi j hj hij => by rw [SparseMatrix.entry_removeLower hij, hentry i hi j hj]
  lower := fun i hi _ he => SparseMatrix.le_of_mem_removeLower (by omega) (by omega) he

lemma coarseMatrix_iff {GA : ℕ → SparseMatrix} (hGA : ∀ r < S.ranks, GA r = S.GA r)
    (hranks : S.ranks ≠ 1) :
    IsUpperTriangle (S.coarseMatrix GA).removeLower S.global_GGt_size S.GFGt ↔
      ∀ r < S.ranks, S.ker_size r ≠ 0 → S.neighs r ≠ [] ∧
        ∃ i < S.ker_size r, ∃ k < S.global_GGt_size, S.GFGt (S.global_ker_size r + i) k ≠ 0 := by
  have hpiece : ∀ r < S.ranks, S.GKpluGt_l r (GA r) = S.GKpluGt_l r (S.GA r) :=
    fun r hr => by rw [hGA r hr]
  have hfits : ∀ r < S.ranks, (S.GKpluGt_l r (GA r)).Fits (S.ker_size r) S.global_GGt_size :=
    fun r hr => by rw [hpiece r hr]; exact (GKpluGt_l_spec hr).1
  have hstored : (∀ r < S.ranks, (S.GKpluGt_l r (GA r)).stored.rows = S.ker_size r) ↔
      ∀ r < S.ranks, S.ker_size r ≠ 0 → S.neighs r ≠ [] ∧
        ∃ i < S.ker_size r, ∃ k < S.global_GGt_size, S.GFGt (S.global_ker_size r + i) k ≠ 0 := by
    refine forall₂_congr fun r hr => ?_
    rw [(hfits r hr).rows_stored_iff, hpiece r hr, nnz_GKpluGt_l hr]
    exact or_iff_not_imp_left
  have hcollect := collect_eq S.ranks_pos fun r hr hnnz => ((hfits r hr).2 hnnz).2
  simp only [coarseMatrix, if_neg hranks]
  rw [← hstored, ← KernelRows.rows_collect_iff S.ranks_pos hfits]
  refine ⟨fun h => by rw [← h.rows, SparseMatrix.rows_removeLower], fun hrows => ?_⟩
  refine isUpperTriangle_of_entries hrows ?_ fun k hk k' hk' => ?_
  · by_cases hnnz : (collect S.ranks fun r => S.GKpluGt_l r (GA r)).nnz = 0
    · rw [← hrows, hcollect.none hnnz]
      rfl
    · exact hcollect.cols hnnz
  · obtain ⟨r, hr, i, hi, rfl⟩ := KernelRows.exists_rank hk
    obtain ⟨p, hp, b, hb, rfl⟩ := KernelRows.exists_rank hk'
    have hall := (KernelRows.rows_collect_iff S.ranks_pos hfits).mp hrows
    rw [KernelRows.entry_collect_of_stored hfits hall hr hi, hpiece r hr]
    exact (GKpluGt_l_spec hr).2.2 (hstored.mp hall r hr (by omega)).1 i hi p hp b hb

lemma single_rank (hranks : S.ranks = 1) :
    S.neighs 0 = [] ∧ S.global_ker_size 0 = 0 ∧ S.global_GGt_size = S.ker_size 0 := by
  refine ⟨List.eq_nil_iff_forall_not_mem.mpr fun q hq => ?_, Layout.start_zero _, ?_⟩
  · have hlt := S.neighs_lt 0 q hq
    obtain rfl : q = 0 := by omega
    exact S.neighs_irrefl 0 hq
  · rw [KernelRows.global_GGt_size, hranks, Layout.start_succ, Layout.start_zero, zero_add]

lemma coarseMatrix_single_iff {GA : ℕ → SparseMatrix} (hall : ∀ r < S.ranks, GA r = S.GA r)
    (hranks : S.ranks = 1) :
    IsUpperTriangle (S.coarseMatrix GA).removeLower S.global_GGt_size S.GFGt ↔
      S.ker_size 0 = 0 ∨ ∃ i < S.ker_size 0, ∃ l < S.multipliers, S.GF i l ≠ 0 := by
  have hr : 0 < S.ranks := S.ranks_pos
  have hGA := hall 0 hr
  obtain ⟨hneighs, hoffset, htotal⟩ := single_rank hranks
  obtain ⟨hfits, hascending, hentry⟩ := GA_spec hr
  simp only [hoffset, zero_add] at hentry
  have hstack : ∀ i < S.ker_size 0, ∀ l, S.stack.entry i l = (S.G1 0).entry i l := by
    intro i hi l
    rw [← KernelRows.entry_stack hr hi, hoffset, zero_add]
  simp only [coarseMatrix, if_pos hranks, hGA]
  split_ifs with hnnz
  · -- a factor stores nothing, and the matrix stays as it was collected
    have hcollect : SparseMatrix.Represents (fun r => S.GKpluGt_l r (GA r)) S.global_GGt_size
        (collect S.ranks fun r => S.GKpluGt_l r (GA r)) (List.range S.ranks) :=
      collect_eq hr fun r hr' hstored => by
        obtain rfl : r = 0 := by omega
        rw [hGA, (GKpluGt_l_spec hr).2.1 hneighs] at hstored
        exact absurd rfl hstored
    have hempty : collect S.ranks (fun r => S.GKpluGt_l r (GA r)) = SparseMatrix.empty := by
      refine hcollect.none (SparseMatrix.nnz_eq_zero_iff.mpr fun row hrow => ?_)
      rw [hcollect.csr, hranks, List.range_one, List.flatMap_singleton, hGA,
        (GKpluGt_l_spec hr).2.1 hneighs] at hrow
      exact absurd hrow List.not_mem_nil
    have hzero : ∀ i < S.ker_size 0, ∀ l, S.GF i l = 0 := by
      intro i hi l
      rcases hnnz with hG1 | hGA
      · refine sum_eq_zero fun l' _ => ?_
        rw [hstack i hi, SparseMatrix.entry_of_nnz hG1, zero_mul]
      · rw [← hentry i hi, SparseMatrix.entry_of_nnz hGA]
    rw [hempty, htotal]
    refine ⟨fun h => Or.inl ?_, fun h => ?_⟩
    · rw [← h.rows]
      rfl
    · rcases h with h | ⟨i, hi, l, -, hne⟩
      · rw [h]
        exact isUpperTriangle_of_entries rfl rfl fun i hi => absurd hi (Nat.not_lt_zero i)
      · exact absurd (hzero i hi l) hne
  · rw [not_or] at hnnz
    have hproduct : ∀ i < S.global_GGt_size, ∀ j < S.global_GGt_size,
        ((S.G1 0).matMatT (S.GA 0)).entry i j = S.GFGt i j := by
      intro i hi j hj
      rw [htotal] at hi hj
      rw [(S.G1_ascending 0).entry_matMatT hascending
        (fun i => KernelRows.G1_below (S := S.toKernelRows) 0 i), GFGt_comm]
      exact sum_congr rfl fun l _ => by rw [hentry j hj, ← hstack i hi, mul_comm]
    have hsize : ((S.G1 0).matMatT (S.GA 0)).rows = S.ker_size 0 ∧
        ((S.G1 0).matMatT (S.GA 0)).cols = S.ker_size 0 := by
      rw [SparseMatrix.matMatT, if_neg (not_or.mpr hnnz)]
      exact ⟨by simp [SparseMatrix.rows, KernelRows.ker_size], (hfits.2 hnnz.2).1⟩
    refine ⟨fun _ => Or.inr ?_, fun _ => isUpperTriangle_of_entries (hsize.1.trans htotal.symm)
      (hsize.2.trans htotal.symm) hproduct⟩
    -- the product with `F` stores something, so it is not zero
    by_contra hzero
    push Not at hzero
    refine hnnz.2 (SparseMatrix.nnz_eq_zero_iff.mpr fun row hrow => ?_)
    rw [ConjSystem.GA, hneighs, List.foldl_nil] at hrow
    obtain ⟨row', hrow', rfl⟩ := List.mem_map.mp hrow
    obtain ⟨i, hi, rfl⟩ := List.mem_iff_getElem.mp hrow'
    rw [storeRow_eq]
    refine List.filterMap_eq_nil_iff.mpr fun l hl => if_neg (not_not.mpr ?_)
    have hrowAt : (S.G1 0).rowAt i = (S.G1 0).csr[i] := List.getD_eq_getElem _ _ hi
    have hlocal := (localProduct_spec (S := S) 0 0).2.2 i l
    rw [← hrowAt, compressed_tmp_eq 0 ((S.G1_ascending 0).rowAt i) hl]
    refine hlocal.symm.trans ?_
    have hGA0 : S.GA 0 = S.localProduct 0 (S.G1 0) := by
      rw [ConjSystem.GA, hneighs, List.foldl_nil]
    rw [← hGA0, hentry i hi, hzero i hi l (S.lambdas_lt 0 l hl)]

/-- **The matrix that every rank factorizes** is the upper triangle of `G F Gᵀ` if and only if no loop
reads behind a row, a single rank has a kernel row that `F` does not map to zero (or none at all), and
each of several ranks that has kernel rows has a neighbour and rows of `G F Gᵀ` that do not vanish. -/
theorem createConjGGt_Inv_iff (S : ConjSystem) :
    (∃ A, S.createConjGGt_Inv = some A ∧ IsUpperTriangle A S.global_GGt_size S.GFGt) ↔ S.Covered := by
  classical
  have hGA_l : S.GA_l = fun r => if S.ReadableAt r then some (S.GA r) else none :=
    funext fun r => GA_l_eq r
  rw [createConjGGt_Inv, Covered, readable_iff, hGA_l, Fallible.mapM_guard]
  simp only [List.mem_range]
  by_cases hread : ∀ r < S.ranks, S.ReadableAt r
  · have hGA : ∀ r < S.ranks, ((List.range S.ranks).map S.GA).getD r SparseMatrix.empty = S.GA r := by
      intro r hr
      have hr' : r < ((List.range S.ranks).map S.GA).length := by simpa using hr
      rw [List.getD_eq_getElem _ _ hr', List.getElem_map, List.getElem_range]
    rw [if_pos hread, and_iff_right hread]
    simp only [Option.bind_eq_bind, Option.bind_some, Option.pure_def, Option.some.injEq,
      exists_eq_left']
    split_ifs with hranks
    · exact coarseMatrix_single_iff hGA hranks
    · exact coarseMatrix_iff hGA hranks
  · rw [if_neg hread]
    exact ⟨fun ⟨A, hA, _⟩ => absurd hA (by simp), fun h => absurd h.1 hread⟩

end ConjSystem

/-! ### Two ranks without neighbours -/

def isolatedRanks : DualLayout where
  ranks := 2
  lambdas := fun r => [r % 2]
  lambdas_nodup := fun _ => List.nodup_singleton _
  neighs := fun _ => []
  neighs_nodup := fun _ => List.nodup_nil
  neighs_lt := fun _ _ hq => absurd hq List.not_mem_nil
  neighs_irrefl := fun _ => List.not_mem_nil
  neighs_symm := DualLayout.noNeighs_symm
  shared := fun _ _ => []
  shared_nodup := fun _ _ => List.nodup_nil
  shared_symm := DualLayout.noShared_symm
  mem_shared := fun _ _ hq => absurd hq List.not_mem_nil
  neighs_of_shared := fun r hr q hq hne l hl hlq => by
    simp only [List.mem_singleton] at hl hlq
    omega

/-- Each rank has one floating domain with one unknown and one multiplier. -/
def isolatedSystem : ConjSystem where
  toDualLayout := isolatedRanks
  multipliers := 2
  lambdas_lt := fun r l hl => by
    obtain rfl : l = r % 2 := List.mem_singleton.mp hl
    omega
  USE_HFETI := false
  G1 := fun r => ⟨2, [[(r % 2, 1)]]⟩
  G1_bounded := fun r => by
    simp only [SparseMatrix.Bounded, Row.Below, List.mem_singleton, forall_eq]
    omega
  G1_ascending := fun r => by simp [SparseMatrix.Ascending]
  G1_columns := fun r => by simp [isolatedRanks]
  ranks_pos := Nat.two_pos
  tfeti := rfl
  lambdas_sorted := fun _ => List.pairwise_singleton _ _
  G1_cols := fun _ _ => rfl
  number_of_subdomains := fun _ => 1
  domains := fun _ _ =>
    { toDomain := oneUnknown true 1
      B1_comp_dom := { cols := 1, csr := [[(0, 1)]] }
      lambda_map_sub_local := [0] }
  Kplus_symm := fun _ _ _ _ => rfl
  lambda_map_sub := fun r _ => [r % 2]
  lambda_map_sub_sorted := fun _ _ => List.pairwise_singleton _ _
  lambda_map_sub_mem := fun _ _ _ hl => hl
  lambda_map_sub_local := fun r _ => by simp [isolatedRanks]
  B1_rows := fun _ _ => rfl
  B1_cols := fun _ _ => rfl
  B1_bounded := fun _ _ => by simp [SparseMatrix.Bounded, Row.Below]

/-- **Both ranks are dropped**: the coarse matrix has no row, and `G F Gᵀ` has two. -/
theorem createConjGGt_Inv_isolated :
    ¬∃ A, isolatedSystem.createConjGGt_Inv = some A ∧
      IsUpperTriangle A isolatedSystem.global_GGt_size isolatedSystem.GFGt := by
  have hcreate : isolatedSystem.createConjGGt_Inv = some SparseMatrix.empty := by decide +kernel
  have htotal : isolatedSystem.global_GGt_size = 2 := by decide +kernel
  rintro ⟨A, hA, hupper⟩
  obtain rfl : SparseMatrix.empty = A := Option.some.inj (hcreate.symm.trans hA)
  have hrows := hupper.rows
  rw [htotal] at hrows
  exact absurd hrows (by decide)

end Espreso
