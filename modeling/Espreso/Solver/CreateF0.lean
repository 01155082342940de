import Espreso.Solver.CsrArrays
import Espreso.Solver.ClusterSolves

/-!
# `F0` on the arrays

`ClusterBase::CompressB0` and `ClusterBase::CreateF0` with the settings of the solver. With
`mp_pseudoinverse` the solutions are projected, and the arrays of the projected matrix have no
element behind the last row: the loop that renumbers the columns leaves out an entry.

* `Domain.KplusF0` — what the solver applies; `Domain.misplaced` — the entry that is left out.
* **`Cluster.Sized.F0Right_iff`** — `F0` is right exactly where the entries left out cancel.
-/

namespace Espreso

open Finset

/-! ## The code -/

/-- The settings that `CreateF0` reads. `F0_double` stands for `F0` in double precision with a
solver in single precision. -/
structure F0Settings where
  SYMMETRIC_SYSTEM : Bool
  mp_pseudoinverse : Bool
  F0_double : Bool

/-- The branch of `mp_pseudoinverse`. -/
def F0Settings.projects (s : F0Settings) : Bool :=
  !s.F0_double && (s.SYMMETRIC_SYSTEM && s.mp_pseudoinverse)

namespace Domain

variable (d : Domain) (s : F0Settings)

def tmR2 (A : SparseMatrix) : SparseMatrix :=
  d.Kplus_R.convertDenseToCSR.matMat (d.Kplus_R.convertDenseToCSR.matTranspose.matMat A)

/-- `B0tm`: a copy of `A` after `MatAddInPlace(tmR2, 'N', -1.0)`. -/
def B0tm (A : SparseMatrix) : SparseMatrix := A.matAddInPlace ((d.tmR2 A).matScale (-1))

/-- `B0Kplus` before its columns are renumbered. -/
def solvedArrays (B0t_comp : SparseMatrix) : CsrArrays :=
  if s.projects then
    let B0Kplus_comp := d.solveMat_Dense (d.B0tm B0t_comp)
    -- an empty product leaves the copy of `B0Kplus_comp` as it is
    if (d.tmR2 B0Kplus_comp).nnz = 0 then (CsrArrays.ofMatrix B0Kplus_comp).withSurplus
    else CsrArrays.ofMatrix (d.B0tm B0Kplus_comp)
  else (CsrArrays.ofMatrix (d.solveMat_Dense B0t_comp)).withSurplus

/-- `tmpF0v[d]` -/
def tmpF0v : SparseMatrix :=
  let B0 := CsrArrays.ofMatrix d.B0
  let B0Kplus := (d.solvedArrays s B0.compress.matrix.matTranspose).decompress B0.B0_comp_map_vec
    B0.rows
  if 0 < B0.nnz ∧ 0 < B0Kplus.nnz then B0.matrix.product B0Kplus.matrix else SparseMatrix.empty

end Domain

/-- **`ClusterBase::CreateF0`** after `CompressB0`: `F0_Mat`. -/
def Cluster.createF0With (c : Cluster) (s : F0Settings) : SparseMatrix :=
  let F0_Mat := Tree.reduce SparseMatrix.matAddInPlace c.domains_size (Nat.clog 2 c.domains_size)
    (fun d => (c.domains d).tmpF0v s) 0
  if s.SYMMETRIC_SYSTEM then F0_Mat.removeLower else F0_Mat

/-! ## What it has to compute -/

namespace Domain

variable (d : Domain) (s : F0Settings)

def project (x : ℕ → ℚ) (i : ℕ) : ℚ :=
  x i - ∑ q ∈ range d.Kplus_R.cols, d.Kplus_R.entry i q
    * ∑ k ∈ range d.domain_prim_size, d.Kplus_R.entry k q * x k

/-- What the solver applies to a row of `B0`. -/
def KplusF0 (x : ℕ → ℚ) : ℕ → ℚ :=
  if s.projects then d.project (d.multKplusLocal (d.project x)) else d.multKplusLocal x

/-- The list names, in ascending order and from 1 on, the rows of `B0` that store something. -/
structure ListsRows (map_vec : List ℕ) : Prop where
  ascending : map_vec.Pairwise (· < ·)
  mem_iff : ∀ i, i ∈ map_vec ↔ ∃ l < d.B0.rows, i = l + 1 ∧ d.B0.rowAt l ≠ []

def projected : SparseMatrix :=
  d.B0tm (d.solveMat_Dense (d.B0tm d.B0_comp.matTranspose))

/-- The entry of the projected solutions whose column is not renumbered. -/
def lastProjected : Option (ℕ × ℕ × ℚ) :=
  if s.projects ∧ (d.tmR2 (d.solveMat_Dense (d.B0tm d.B0_comp.matTranspose))).nnz ≠ 0 then
    RowPointers.lastEntry d.projected.csr
  else none

/-- **The misplaced entry** `(p, q, v)`: `v` stands in column `q`, not in that of the `q`-th row of
`B0` that stores something. -/
def misplaced (l l' : ℕ) : ℚ :=
  match d.lastProjected s with
  | some e => d.B0.entry l e.1
      * ((if e.2.1 = l' then e.2.2 else 0) - if d.B0_rows.getD e.2.1 0 = l' then e.2.2 else 0)
  | none => 0

end Domain

/-- `CompressB0` and `CreateF0` are right: the maps, and `F0` or its upper triangle. -/
def Cluster.F0Right (c : Cluster) (s : F0Settings) (r : ℕ) : Prop :=
  (∀ d < c.domains_size,
    (c.domains d).ListsRows (CsrArrays.ofMatrix (c.domains d).B0).B0_comp_map_vec) ∧
  ∀ l < r, ∀ l' < r, (c.createF0With s).entry l l' =
    if s.SYMMETRIC_SYSTEM ∧ l' < l then 0
    else ∑ d ∈ range c.domains_size, ∑ k ∈ range (c.domains d).domain_prim_size,
      (c.domains d).B0.entry l k
        * (c.domains d).KplusF0 s (fun j => (c.domains d).B0.entry l' j) k

/-! ## The projection -/

namespace Domain

variable {d : Domain} {r : ℕ} {A : SparseMatrix}

lemma tmR2_bounded : (d.tmR2 A).Bounded := SparseMatrix.matMat_bounded

lemma Sized.size_tmR2 (h : d.Sized r) (hnnz : (d.tmR2 A).nnz ≠ 0) :
    (d.tmR2 A).rows = d.domain_prim_size ∧ (d.tmR2 A).cols = A.cols ∧ A.nnz ≠ 0 := by
  obtain ⟨hrows, hcols⟩ := SparseMatrix.size_matMat hnnz
  rw [DenseMatrix.rows_convertDenseToCSR] at hrows
  have hinner : (d.Kplus_R.convertDenseToCSR.matTranspose.matMat A).nnz ≠ 0 := by
    intro hzero
    exact hnnz (by rw [tmR2, SparseMatrix.matMat_of_nnz hzero]; rfl)
  have hA : A.nnz ≠ 0 := by
    intro hzero
    exact hinner (by rw [SparseMatrix.matMat_of_nnz hzero]; rfl)
  have hR : d.Kplus_R.cols ≠ 0 := by
    intro hzero
    have hpos := SparseMatrix.rows_pos_of_nnz hinner
    rw [(SparseMatrix.size_matMat hinner).1, SparseMatrix.rows_matTranspose,
      DenseMatrix.cols_convertDenseToCSR] at hpos
    omega
  exact ⟨hrows.trans (h.R_rows hR), hcols.trans (SparseMatrix.size_matMat hinner).2, hA⟩

lemma Sized.size_B0tm (h : d.Sized r) :
    (d.B0tm A).rows = A.rows ∧ (d.B0tm A).cols = A.cols := by
  rw [B0tm, SparseMatrix.matAddInPlace]
  split_ifs with hzero hA
  · exact ⟨rfl, rfl⟩
  · rw [SparseMatrix.nnz_matScale] at hzero
    exact absurd hA (h.size_tmR2 hzero).2.2
  · exact ⟨by simp [SparseMatrix.rows], rfl⟩

lemma B0tm_bounded (hA : A.Bounded) : (d.B0tm A).Bounded :=
  hA.matAddInPlace (tmR2_bounded.matScale (-1))

lemma Sized.entry_tmR2 (h : d.Sized r) (hA : A.Bounded) {k : ℕ} (hk : k < d.domain_prim_size)
    (j : ℕ) : (d.tmR2 A).entry k j = ∑ q ∈ range d.Kplus_R.cols, d.Kplus_R.entry k q
      * ∑ i ∈ range d.domain_prim_size, d.Kplus_R.entry i q * A.entry i j := by
  rw [tmR2, DenseMatrix.convertDenseToCSR_bounded.entry_matMat SparseMatrix.matMat_bounded,
    DenseMatrix.cols_convertDenseToCSR]
  refine sum_congr rfl fun q hq => ?_
  have hq' := mem_range.mp hq
  have hrows := h.R_rows (by omega)
  rw [DenseMatrix.entry_convertDenseToCSR (by omega) hq',
    SparseMatrix.matTranspose_bounded.entry_matMat hA, SparseMatrix.cols_matTranspose,
    DenseMatrix.rows_convertDenseToCSR, hrows]
  refine congrArg _ (sum_congr rfl fun i hi => ?_)
  rw [DenseMatrix.convertDenseToCSR_bounded.entry_matTranspose,
    DenseMatrix.entry_convertDenseToCSR (by rw [hrows]; exact mem_range.mp hi) hq']

lemma Sized.entry_B0tm (h : d.Sized r) (hA : A.Bounded) (hrows : A.rows = d.domain_prim_size)
    {k : ℕ} (hk : k < d.domain_prim_size) (j : ℕ) :
    (d.B0tm A).entry k j = d.project (fun i => A.entry i j) k := by
  rw [B0tm, hA.entry_matAddInPlace (tmR2_bounded.matScale (-1)) ?_, SparseMatrix.entry_matScale,
    h.entry_tmR2 hA hk, project]
  · ring
  · intro _ hnnz
    rw [SparseMatrix.nnz_matScale] at hnnz
    obtain ⟨hr, hc, -⟩ := h.size_tmR2 hnnz
    rw [SparseMatrix.rows_matScale, SparseMatrix.cols_matScale, hr, hc]
    exact ⟨hrows, rfl⟩

lemma project_congr {x y : ℕ → ℚ} (hxy : ∀ i < d.domain_prim_size, x i = y i) {k : ℕ}
    (hk : k < d.domain_prim_size) : d.project x k = d.project y k := by
  rw [project, project, hxy k hk]
  refine congrArg _ (sum_congr rfl fun q _ => congrArg _ (sum_congr rfl fun i hi => ?_))
  rw [hxy i (mem_range.mp hi)]

lemma multKplusLocal_congr {x y : ℕ → ℚ} (hxy : ∀ i < d.domain_prim_size, x i = y i) (k : ℕ) :
    d.multKplusLocal x k = d.multKplusLocal y k :=
  sum_congr rfl fun i hi => by rw [hxy i (mem_range.mp hi)]

lemma KplusF0_zero (s : F0Settings) (k : ℕ) : d.KplusF0 s (fun _ => 0) k = 0 := by
  rw [KplusF0]
  split_ifs <;> simp [project, multKplusLocal]

/-! ## One domain -/

lemma Sized.B0t_comp (h : d.Sized r) :
    d.B0_comp.matTranspose.rows = d.domain_prim_size ∧
      d.B0_comp.matTranspose.cols = d.B0_rows.length ∧
      ∀ i < d.B0_rows.length, ∀ k,
        d.B0_comp.matTranspose.entry k i = d.B0.entry (d.B0_rows.getD i 0) k := by
  refine ⟨SparseMatrix.rows_matTranspose.trans h.B0_cols, ?_, fun i hi k => ?_⟩
  · rw [SparseMatrix.cols_matTranspose, rows_B0_comp]
  · rw [h.B0_comp_bounded.entry_matTranspose, entry_B0_comp hi]

/-- What a matrix of solutions has to hold in the compressed columns. -/
structure Solution (d : Domain) (f : (ℕ → ℚ) → ℕ → ℚ) (S : SparseMatrix) : Prop where
  rows : S.rows = d.domain_prim_size
  cols : S.cols = d.B0_rows.length
  bounded : S.Bounded
  entry : ∀ i < d.B0_rows.length, ∀ k < d.domain_prim_size,
    S.entry k i = f (fun j => d.B0.entry (d.B0_rows.getD i 0) j) k

lemma Sized.solution (h : d.Sized r) :
    Solution d d.multKplusLocal (d.solveMat_Dense d.B0_comp.matTranspose) := by
  obtain ⟨hrows, hcols, hentry⟩ := h.B0t_comp
  refine ⟨(rows_solveMat_Dense _).trans hrows, (cols_solveMat_Dense _).trans hcols,
    solveMat_Dense_bounded _, fun i hi k hk => ?_⟩
  rw [entry_solveMat_Dense (by omega) (by omega)]
  exact multKplusLocal_congr (fun j _ => hentry i hi j) k

lemma Sized.solution_B0tm (h : d.Sized r) :
    Solution d (fun x => d.multKplusLocal (d.project x))
      (d.solveMat_Dense (d.B0tm d.B0_comp.matTranspose)) := by
  obtain ⟨hrows, hcols, hentry⟩ := h.B0t_comp
  obtain ⟨hrows', hcols'⟩ := h.size_B0tm (A := d.B0_comp.matTranspose)
  refine ⟨(rows_solveMat_Dense _).trans (hrows'.trans hrows),
    (cols_solveMat_Dense _).trans (hcols'.trans hcols), solveMat_Dense_bounded _,
    fun i hi k hk => ?_⟩
  rw [entry_solveMat_Dense (by omega) (by omega)]
  refine multKplusLocal_congr (fun j hj => ?_) k
  rw [h.entry_B0tm SparseMatrix.matTranspose_bounded hrows hj]
  exact project_congr (fun i' _ => hentry i hi i') hj

lemma Sized.solution_projected (h : d.Sized r) :
    Solution d (fun x => d.project (d.multKplusLocal (d.project x))) d.projected := by
  have hS := h.solution_B0tm
  obtain ⟨hrows, hcols⟩ := h.size_B0tm (A := d.solveMat_Dense (d.B0tm d.B0_comp.matTranspose))
  refine ⟨hrows.trans hS.rows, hcols.trans hS.cols, B0tm_bounded hS.bounded, fun i hi k hk => ?_⟩
  rw [projected, h.entry_B0tm hS.bounded hS.rows hk]
  exact project_congr (fun j hj => hS.entry i hi j hj) hk

lemma getD_B0_comp_map_vec (i : ℕ) : d.B0_comp_map_vec.getD i 0 - 1 = d.B0_rows.getD i 0 := by
  rcases lt_or_ge i d.B0_rows.length with hi | hi
  · exact B0_comp_map_vec_getD hi
  · rw [List.getD_eq_default _ _ hi,
      List.getD_eq_default _ _ (by rw [B0_comp_map_vec, List.length_map]; exact hi)]

lemma Solution.entry_renumbered {f : (ℕ → ℚ) → ℕ → ℚ} {S : SparseMatrix} (hS : Solution d f S)
    (hf : ∀ k, f (fun _ => 0) k = 0) {k : ℕ} (hk : k < d.domain_prim_size) (l : ℕ) :
    Row.entry ((S.rowAt k).map fun e => (d.B0_comp_map_vec.getD e.1 0 - 1, e.2)) l
      = f (fun j => d.B0.entry l j) k := by
  have hzero : ∀ l, d.B0.rowAt l = [] → f (fun j => d.B0.entry l j) k = 0 := by
    intro l hl
    simp only [entry_of_rowAt hl, hf]
  have hbelow := hS.bounded.rowAt_below k
  rw [hS.cols] at hbelow
  rw [Row.entry_map_columns hbelow fun i => d.B0_comp_map_vec.getD i 0 - 1]
  have hrename : ∀ i ∈ range d.B0_rows.length,
      (if d.B0_comp_map_vec.getD i 0 - 1 = l then Row.entry (S.rowAt k) i else 0)
        = if d.B0_rows.getD i 0 = l then f (fun j => d.B0.entry (d.B0_rows.getD i 0) j) k
          else 0 := by
    intro i hi
    rw [getD_B0_comp_map_vec, ← hS.entry i (mem_range.mp hi) k hk]
    rfl
  rw [sum_congr rfl hrename,
    sum_B0_rows (fun l' => if l' = l then f (fun j => d.B0.entry l' j) k else 0), sum_ite_eq']
  · split_ifs with hl
    · rfl
    · exact (hzero l (SparseMatrix.rowAt_eq_nil (by simpa using hl))).symm
  · intro l' hl'
    rw [hzero l' hl', ite_self]

/-- The matrix `B0Kplus` in the columns of `B0`. -/
def renumbered (d : Domain) (s : F0Settings) : SparseMatrix :=
  ((d.solvedArrays s d.B0_comp.matTranspose).decompress d.B0_comp_map_vec d.B0.rows).matrix

abbrev rename (d : Domain) (e : ℕ × ℚ) : ℕ × ℚ := (d.B0_comp_map_vec.getD e.1 0 - 1, e.2)

lemma Sized.projected_ne_nil (h : d.Sized r)
    (hnnz : (d.tmR2 (d.solveMat_Dense (d.B0tm d.B0_comp.matTranspose))).nnz ≠ 0) :
    d.projected.csr.flatten ≠ [] := by
  have hS := h.solution_B0tm
  obtain ⟨hrows, hcols, -⟩ := h.size_tmR2 hnnz
  have hstored : d.projected.nnz ≠ 0 := by
    refine hS.bounded.nnz_matAddInPlace (tmR2_bounded.matScale (-1)) ?_ fun _ => ?_
    · rw [SparseMatrix.nnz_matScale]
      exact hnnz
    · rw [SparseMatrix.rows_matScale, SparseMatrix.cols_matScale, hrows, hcols]
      exact ⟨hS.rows, rfl⟩
  intro hnil
  rw [SparseMatrix.nnz_eq_length_flatten, hnil] at hstored
  exact hstored rfl

lemma Sized.renumbered_eq (h : d.Sized r) (s : F0Settings) :
    ∃ S : SparseMatrix, Solution d (d.KplusF0 s) S ∧
      (d.lastProjected s = none ∧ d.renumbered s = ⟨d.B0.rows, S.csr.map (List.map d.rename)⟩ ∨
        d.lastProjected s = RowPointers.lastEntry S.csr ∧
          d.renumbered s = ⟨d.B0.rows, RowPointers.mapButLast d.rename id S.csr⟩) := by
  by_cases hs : s.projects = true
  · have hKplus : d.KplusF0 s = fun x => d.project (d.multKplusLocal (d.project x)) := by
      funext x
      rw [KplusF0, if_pos hs]
    rw [hKplus]
    by_cases hnnz : (d.tmR2 (d.solveMat_Dense (d.B0tm d.B0_comp.matTranspose))).nnz = 0
    · -- the projection has nothing to subtract
      have hkept : d.projected = d.solveMat_Dense (d.B0tm d.B0_comp.matTranspose) := by
        rw [projected, B0tm, SparseMatrix.matAddInPlace,
          if_pos (by rw [SparseMatrix.nnz_matScale]; exact hnnz)]
      refine ⟨d.projected, h.solution_projected, Or.inl ⟨?_, ?_⟩⟩
      · rw [lastProjected, if_neg fun h' => h'.2 hnnz]
      · rw [renumbered, solvedArrays, if_pos hs, hkept]
        simp only [hnnz, if_true]
        exact CsrArrays.matrix_decompress_withSurplus _ _ _
    · refine ⟨d.projected, h.solution_projected, Or.inr ⟨?_, ?_⟩⟩
      · rw [lastProjected, if_pos ⟨hs, hnnz⟩]
      · rw [renumbered, solvedArrays, if_pos hs]
        simp only [hnnz, if_false]
        exact CsrArrays.matrix_decompress (h.projected_ne_nil hnnz) _ _
  · have hKplus : d.KplusF0 s = d.multKplusLocal := by
      funext x
      rw [KplusF0, if_neg hs]
    rw [hKplus]
    refine ⟨_, h.solution, Or.inl ⟨?_, ?_⟩⟩
    · rw [lastProjected, if_neg fun h' => hs h'.1]
    · rw [renumbered, solvedArrays, if_neg hs]
      exact CsrArrays.matrix_decompress_withSurplus _ _ _

lemma rename_eq (e : ℕ × ℚ) : d.rename e = (d.B0_rows.getD e.1 0, e.2) :=
  congrArg (fun j => (j, e.2)) (getD_B0_comp_map_vec e.1)

lemma length_B0_rows_le : d.B0_rows.length ≤ d.B0.rows :=
  (List.length_filter_le _ _).trans_eq List.length_range

lemma Sized.renumbered_bounded (h : d.Sized r) (s : F0Settings) : (d.renumbered s).Bounded := by
  obtain ⟨S, hS, ⟨-, heq⟩ | ⟨-, heq⟩⟩ := h.renumbered_eq s
  · rw [heq]
    intro row hrow e he
    obtain ⟨row', hrow', rfl⟩ := List.mem_map.mp hrow
    obtain ⟨e', he', rfl⟩ := List.mem_map.mp he
    have hlt := hS.bounded row' hrow' e' he'
    rw [hS.cols] at hlt
    rw [rename_eq]
    exact lt_of_mem_B0_rows (getD_mem_B0_rows hlt)
  · rw [heq]
    intro row hrow e he
    obtain ⟨e', he', hcase⟩ := RowPointers.mem_of_mem_mapButLast hrow he
    obtain ⟨row', hrow', he'⟩ := List.mem_flatten.mp he'
    have hlt := hS.bounded row' hrow' e' he'
    rw [hS.cols] at hlt
    rcases hcase with rfl | rfl
    · rw [rename_eq]
      exact lt_of_mem_B0_rows (getD_mem_B0_rows hlt)
    · exact lt_of_lt_of_le hlt length_B0_rows_le

lemma Sized.entry_renumbered (h : d.Sized r) (s : F0Settings) {k : ℕ} (hk : k < d.domain_prim_size)
    (l : ℕ) : (d.renumbered s).entry k l
      = d.KplusF0 s (fun j => d.B0.entry l j) k + lastError d.rename (d.lastProjected s) k l := by
  obtain ⟨S, hS, ⟨hnone, heq⟩ | ⟨hlast, heq⟩⟩ := h.renumbered_eq s
  · rw [heq, hnone, SparseMatrix.entry, SparseMatrix.rowAt_map rfl]
    exact (hS.entry_renumbered (KplusF0_zero s) hk l).trans (add_zero _).symm
  · rw [heq, hlast, ← hS.entry_renumbered (KplusF0_zero s) hk l]
    exact entry_mapButLast d.rename S.csr k l

lemma Sized.sum_lastError (h : d.Sized r) (s : F0Settings) (l l' : ℕ) :
    ∑ k ∈ range d.domain_prim_size,
      d.B0.entry l k * lastError d.rename (d.lastProjected s) k l' = d.misplaced s l l' := by
  rw [misplaced]
  cases hlast : d.lastProjected s with
  | none => exact sum_eq_zero fun k _ => mul_zero _
  | some e =>
      have hterm : ∀ k ∈ range d.domain_prim_size,
          d.B0.entry l k * lastError d.rename (some e) k l'
            = if k = e.1 then d.B0.entry l e.1 * ((if e.2.1 = l' then e.2.2 else 0)
              - if d.B0_rows.getD e.2.1 0 = l' then e.2.2 else 0) else 0 := by
        intro k _
        rw [lastError, rename_eq]
        by_cases hk : k = e.1
        · rw [if_pos hk, if_pos hk, hk, Row.entry_cons, Row.entry_cons, Row.entry_nil, add_zero,
            add_zero]
        · rw [if_neg hk, if_neg hk, mul_zero]
      rw [sum_congr rfl hterm, sum_ite_eq']
      by_cases he : e.1 ∈ range d.domain_prim_size
      · rw [if_pos he]
      · rw [mem_range, not_lt, ← h.B0_cols] at he
        rw [if_neg (by rw [mem_range, ← h.B0_cols]; omega)]
        simp only [h.B0_bounded.entry_eq_zero l he, zero_mul]

/-- **What a domain adds to `F0`.** -/
theorem Sized.entry_tmpF0v (h : d.Sized r) (s : F0Settings) (l l' : ℕ) :
    (d.tmpF0v s).entry l l' = ∑ k ∈ range d.domain_prim_size,
      d.B0.entry l k * d.KplusF0 s (fun j => d.B0.entry l' j) k + d.misplaced s l l' := by
  have htmp : d.tmpF0v s
      = if 0 < d.B0.nnz ∧ 0 < (d.solvedArrays s d.B0_comp.matTranspose).nnz
        then d.B0.product (d.renumbered s) else SparseMatrix.empty := by
    rw [tmpF0v]
    simp only [CsrArrays.compress_ofMatrix, CsrArrays.matrix_ofMatrix,
      CsrArrays.B0_comp_map_vec_ofMatrix]
    rfl
  have hpos : 0 < (d.solvedArrays s d.B0_comp.matTranspose).nnz := by
    rw [solvedArrays]
    simp only
    split_ifs with hs hnnz
    · exact Nat.succ_pos _
    · exact lt_of_lt_of_eq (List.length_pos_of_ne_nil (h.projected_ne_nil hnnz))
        (SparseMatrix.nnz_eq_length_flatten _).symm
    · exact Nat.succ_pos _
  rw [htmp, ← h.sum_lastError s l l', ← sum_add_distrib]
  by_cases hnnz : d.B0.nnz = 0
  · rw [if_neg fun h' => by omega, SparseMatrix.entry_empty, eq_comm]
    exact sum_eq_zero fun k _ => by
      rw [SparseMatrix.entry_of_nnz hnnz, zero_mul, zero_mul, add_zero]
  · rw [if_pos ⟨by omega, hpos⟩, h.B0_bounded.entry_product (h.renumbered_bounded s), h.B0_cols]
    refine sum_congr rfl fun k hk => ?_
    rw [h.entry_renumbered s (mem_range.mp hk), mul_add]

end Domain

/-! ## The cluster -/

namespace Domain

variable {d : Domain} {r : ℕ}

lemma listsRows (d : Domain) : d.ListsRows (CsrArrays.ofMatrix d.B0).B0_comp_map_vec := by
  rw [CsrArrays.B0_comp_map_vec_ofMatrix]
  refine ⟨?_, fun i => ?_⟩
  · exact (List.pairwise_lt_range.filter _).map _ fun a b hab => Nat.succ_lt_succ hab
  · simp only [B0_comp_map_vec, B0_rows, List.mem_map, List.mem_filter, List.mem_range,
      decide_eq_true_eq]
    constructor
    · rintro ⟨l, ⟨hl, hrow⟩, heq⟩
      exact ⟨l, hl, heq.symm, hrow⟩
    · rintro ⟨l, hl, heq, hrow⟩
      exact ⟨l, ⟨hl, hrow⟩, heq.symm⟩

lemma tmpF0v_bounded (s : F0Settings) : (d.tmpF0v s).Bounded := by
  rw [tmpF0v]
  split_ifs
  · exact SparseMatrix.product_bounded
  · exact fun row hrow => absurd hrow List.not_mem_nil

lemma Sized.size_tmpF0v (h : d.Sized r) (s : F0Settings) (hnnz : (d.tmpF0v s).nnz ≠ 0) :
    (d.tmpF0v s).rows = r ∧ (d.tmpF0v s).cols = r := by
  rw [tmpF0v] at hnnz ⊢
  split_ifs at hnnz ⊢ with hstored
  · refine ⟨?_, h.B0_rows⟩
    rw [CsrArrays.matrix_ofMatrix, ← h.B0_rows]
    exact List.length_map _
  · exact absurd rfl hnnz

lemma Sized.misplaced_of_first (h : d.Sized r) (s : F0Settings)
    (hfirst : d.B0_rows = List.range d.B0_rows.length) (l l' : ℕ) : d.misplaced s l l' = 0 := by
  rw [misplaced]
  cases hlast : d.lastProjected s with
  | none => rfl
  | some e =>
      rw [lastProjected] at hlast
      split_ifs at hlast
      · obtain ⟨row, hrow, he⟩ := List.mem_flatten.mp (RowPointers.mem_of_lastEntry hlast)
        have hlt : e.2.1 < d.B0_rows.length :=
          lt_of_lt_of_eq (h.solution_projected.bounded row hrow e.2 he) h.solution_projected.cols
        have hgetD : d.B0_rows.getD e.2.1 0 = e.2.1 := by
          rw [hfirst, List.getD_eq_getElem _ _ (by rwa [List.length_range]), List.getElem_range]
        simp only [hgetD, sub_self, mul_zero]

end Domain

namespace Cluster

variable {c : Cluster} {r : ℕ}

lemma Sized.entry_reduce_tmpF0v (h : c.Sized r) (s : F0Settings) :
    (Tree.reduce SparseMatrix.matAddInPlace c.domains_size (Nat.clog 2 c.domains_size)
        (fun d => (c.domains d).tmpF0v s) 0).Bounded ∧
      ∀ l l', (Tree.reduce SparseMatrix.matAddInPlace c.domains_size (Nat.clog 2 c.domains_size)
          (fun d => (c.domains d).tmpF0v s) 0).entry l l'
        = ∑ d ∈ range c.domains_size, ∑ k ∈ range (c.domains d).domain_prim_size,
            (c.domains d).B0.entry l k
              * (c.domains d).KplusF0 s (fun j => (c.domains d).B0.entry l' j) k
          + ∑ d ∈ range c.domains_size, (c.domains d).misplaced s l l' := by
  have hleaf : ∀ d < c.domains_size, SumOf r (fun d => (c.domains d).tmpF0v s)
      ((c.domains d).tmpF0v s) [d] := fun d hd =>
    ⟨Domain.tmpF0v_bounded s, (h.domain d hd).size_tmpF0v s, fun l l' => by simp⟩
  have htree := Tree.reduce_all SumOf.matAddInPlace h.domains_pos hleaf
    (Nat.le_pow_clog (by omega) c.domains_size)
  refine ⟨htree.1, fun l l' => ?_⟩
  rw [htree.2.2, sum_map_range, ← sum_add_distrib]
  exact sum_congr rfl fun d hd => (h.domain d (mem_range.mp hd)).entry_tmpF0v s l l'

end Cluster

/-! ### Bars of four nodes -/

def pseudoinverse : F0Settings := ⟨true, true, false⟩

/-- A bar of four nodes, with its first node held by the regularization. -/
def bar (B0 : List Row) : Domain where
  domain_prim_size := 4
  K i j := if i = j then (if i = 0 ∨ i = 3 then 1 else 2)
    else if i + 1 = j ∨ j + 1 = i then -1 else 0
  Kplus i j := min i j + 1
  Kplus_R := { rows := 4, cols := 1, dense_values := fun _ => 1 / 2 }
  B0 := { cols := 4, csr := B0 }

/-- Three bars in a row; the second and the third one are glued by their last nodes. -/
def threeBars : Cluster where
  domains_size := 3
  domains d := bar (if d = 0 then [[(3, 1)], []] else if d = 1 then [[(0, -1)], [(3, 1)]]
    else [[], [(3, -1)]])
  F0_Solve b := b
  Sa_Solve b := b

end Espreso
