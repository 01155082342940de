import Espreso.Basis.Utils
import Espreso.Lib.SchurComplement
import Espreso.Solver.CsrArrays
import Espreso.Solver.PermutedMatrix
import Mathlib.Tactic.Linarith

/-!
# The Dirichlet preconditioner

`ClusterCPU::CreateDirichletPrec` takes the regularization out of the matrix of a domain, moves the
unknowns of the interface behind the inner ones and computes the Schur complement.  A domain without
inner unknowns takes its matrix as it is.

* `PackedMatrix` — a symmetric dense matrix after `RemoveLowerDense`.
* **`DirichletDomain.rightPrec_iff`** — the preconditioner is right exactly if the domain has an inner
  unknown or its regularization is zero.
-/

namespace Espreso

open Finset

/-- A symmetric dense matrix: the columns of the upper triangle, one after the other. -/
structure PackedMatrix where
  rows : ℕ
  dense_values : List ℚ

namespace PackedMatrix

/-- `RemoveLowerDense` -/
def removeLowerDense (D : DenseMatrix) : PackedMatrix where
  rows := D.rows
  dense_values := (List.range D.rows).flatMap fun j => (List.range (j + 1)).map fun i => D.entry i j

def entry (P : PackedMatrix) (i j : ℕ) : ℚ :=
  P.dense_values.getD (max i j * (max i j + 1) / 2 + min i j) 0

lemma start_packed (j : ℕ) : Layout.start (fun j => j + 1) j = j * (j + 1) / 2 := by
  have htwice : Layout.start (fun j => j + 1) j * 2 = j * (j + 1) := by
    induction j with
    | zero => rfl
    | succ j ih => rw [Layout.start_succ, add_mul, ih]; ring
  rw [← htwice, Nat.mul_div_cancel _ Nat.two_pos]

lemma entry_removeLowerDense (D : DenseMatrix) {i j : ℕ} (hi : i < D.rows) (hj : j < D.rows) :
    (removeLowerDense D).entry i j = D.entry (min i j) (max i j) := by
  have hmax : max i j < D.rows := max_lt hi hj
  have hlt : min i j < ((List.range (max i j + 1)).map fun k => D.entry k (max i j)).length := by
    rw [List.length_map, List.length_range]
    exact Nat.lt_succ_of_le min_le_max
  have hget := Layout.getElem?_flatMap_range
    (fun l => (List.range (l + 1)).map fun k => D.entry k l) hmax hlt
  have hstart : Layout.start (fun l => ((List.range (l + 1)).map fun k => D.entry k l).length)
      (max i j) = max i j * (max i j + 1) / 2 := by
    simp only [List.length_map, List.length_range]
    exact start_packed _
  rw [hstart] at hget
  rw [entry, removeLowerDense, List.getD_eq_getElem?_getD, hget, List.getElem?_map,
    List.getElem?_range (Nat.lt_succ_of_le min_le_max)]
  rfl

end PackedMatrix

/-- What the preconditioner is made of; `RegMat` is in the coordinate format, and `B1_comp_dom` is the
gluing of the domain. -/
structure DirichletDomain where
  K : SparseMatrix
  RegMat : CooMatrix
  B1_comp_dom : SparseMatrix

namespace DirichletDomain

variable (d : DirichletDomain)

/-- `B1t_Dir_perm_vec` from `ClusterBase::InitClusterPC`: the columns of the gluing. -/
def B1t_Dir_perm_vec : List ℕ :=
  removeDuplicity ((d.B1_comp_dom.csr.flatten.map Prod.fst).insertionSort (· ≤ ·))

/-- `B1t_DirPr`: the transposed gluing without repeated row pointers. -/
def B1t_DirPr : CsrArrays :=
  let B1t := CsrArrays.ofMatrix d.B1_comp_dom.matTranspose
  let CSR_I_row_indices := removeDuplicity B1t.CSR_I_row_indices
  { B1t with rows := CSR_I_row_indices.length - 1, CSR_I_row_indices := CSR_I_row_indices }

/-- `perm_vec_diff`: the inner unknowns. -/
def perm_vec_diff : List ℕ := setDifference (List.range d.K.rows) d.B1t_Dir_perm_vec

def perm_vec_full : List ℕ := d.perm_vec_diff ++ d.B1t_Dir_perm_vec

def RegMatCRS : SparseMatrix := d.RegMat.convertToCSRwithSort

/-- `K_modif` after the permutation; the arrays of the permuted positions have the size of `K`. -/
def K_modif : Option SparseMatrix := do
  let K_modif ← d.K.matAddInPlaceBy d.RegMatCRS (-1)
  if K_modif.nnz ≤ d.K.nnz then some (K_modif.permuted d.perm_vec_full) else none

/-- `Create_SC`; `PARDISO` computes the values of the dense matrix. -/
def create_SC (PARDISO : SparseMatrix → ℕ → ℕ → ℚ) (K_modif : SparseMatrix) (sc_size : ℕ) :
    SparseMatrix :=
  (DenseMatrix.convertDenseToCSR ⟨sc_size, sc_size, PARDISO K_modif sc_size⟩).removeLower

/-- **`ClusterCPU::CreateDirichletPrec`** for the preconditioner `DIRICHLET` and a symmetric system:
`Prec`. -/
def createDirichletPrec (PARDISO : SparseMatrix → ℕ → ℕ → ℚ) : Option PackedMatrix := do
  let K_modif ← d.K_modif
  let sc_size := d.B1t_Dir_perm_vec.length
  if sc_size = d.K.rows then
    -- the domain does not contain an inner unknown
    return PackedMatrix.removeLowerDense (DenseMatrix.ofSparse d.K)
  else
    return PackedMatrix.removeLowerDense (DenseMatrix.ofSparse (create_SC PARDISO K_modif sc_size))

/-! ## What the preconditioner has to be -/

def unregularized : Matrix ℕ ℕ ℚ :=
  Matrix.of fun i j => d.K.symEntry i j - d.RegMatCRS.symEntry i j

def inner (i : Fin d.perm_vec_diff.length) : ℕ := d.perm_vec_diff.get i

def interface (i : Fin d.B1t_Dir_perm_vec.length) : ℕ := d.B1t_Dir_perm_vec.get i

/-- `Prec` is the Schur complement on the interface, in the order of the rows of `B1t_DirPr`. -/
structure RightPrec (Prec : PackedMatrix) : Prop where
  rows : Prec.rows = d.B1t_Dir_perm_vec.length
  entry : ∀ i j : Fin d.B1t_Dir_perm_vec.length,
    Prec.entry i j = Schur.complement d.unregularized d.inner d.interface i j
  order : d.B1t_DirPr.matrix.csr = d.B1t_Dir_perm_vec.map d.B1_comp_dom.matTranspose.rowAt

/-- The exact routine: the upper triangle of the Schur complement of a symmetric matrix with a regular
leading block. -/
def ExactSchur (PARDISO : SparseMatrix → ℕ → ℕ → ℚ) : Prop :=
  ∀ A m sc_size, 0 < m → 0 < sc_size → A.Upper (m + sc_size) →
    IsUnit ((Matrix.of A.symEntry).submatrix (Fin.val : Fin m → ℕ) Fin.val).det →
    ∀ i j : Fin sc_size, i ≤ j → PARDISO A sc_size (j * sc_size + i)
      = Schur.complement (Matrix.of A.symEntry) (Fin.val : Fin m → ℕ) (fun k => m + k.val) i j

/-- A domain with `n` unknowns; the regularization is stored in positions of `K`. -/
structure Sized (n : ℕ) : Prop where
  upper : d.K.Upper n
  rows : d.RegMat.rows = n
  cols : d.RegMat.cols = n
  contained : ∀ e ∈ d.RegMat.entries, ∃ i < n, ∃ e' ∈ d.K.rowAt i,
    e.1 = i + 1 ∧ e.2.1 = e'.1 + 1
  gluing : d.B1_comp_dom.Bounded
  gluing_cols : d.B1_comp_dom.cols = n

lemma transpose_unregularized : d.unregularized.transpose = d.unregularized := by
  ext i j
  rw [Matrix.transpose_apply, unregularized, Matrix.of_apply, Matrix.of_apply,
    SparseMatrix.symEntry_comm, SparseMatrix.symEntry_comm d.RegMatCRS]

/-! ## The permutation -/

variable {d} {n : ℕ}

lemma mem_perm_vec {j : ℕ} :
    j ∈ d.B1t_Dir_perm_vec ↔ ∃ row ∈ d.B1_comp_dom.csr, ∃ e ∈ row, e.1 = j := by
  rw [B1t_Dir_perm_vec, mem_removeDuplicity (List.pairwise_insertionSort _ _),
    (List.perm_insertionSort _ _).mem_iff]
  simp only [List.mem_map, List.mem_flatten]
  constructor
  · rintro ⟨e, ⟨row, hrow, he⟩, rfl⟩
    exact ⟨row, hrow, e, he, rfl⟩
  · rintro ⟨row, hrow, e, he, rfl⟩
    exact ⟨e, ⟨row, hrow, he⟩, rfl⟩

lemma perm_vec_sorted (d : DirichletDomain) : d.B1t_Dir_perm_vec.Pairwise (· < ·) :=
  removeDuplicity_sorted (List.pairwise_insertionSort _ _)

lemma Sized.perm_vec_lt (h : d.Sized n) {j : ℕ} (hj : j ∈ d.B1t_Dir_perm_vec) : j < n := by
  obtain ⟨row, hrow, e, he, rfl⟩ := mem_perm_vec.mp hj
  exact h.gluing_cols ▸ h.gluing row hrow e he

lemma Sized.perm_vec_diff_eq (h : d.Sized n) :
    d.perm_vec_diff = (List.range n).filter (· ∉ d.B1t_Dir_perm_vec) := by
  rw [perm_vec_diff, h.upper.rows_eq]
  exact setDifference_eq List.pairwise_lt_range ((perm_vec_sorted d).imp fun h => h.le)

lemma Sized.filter_mem (h : d.Sized n) :
    (List.range n).filter (· ∈ d.B1t_Dir_perm_vec) = d.B1t_Dir_perm_vec := by
  have hperm : ((List.range n).filter (· ∈ d.B1t_Dir_perm_vec)).Perm d.B1t_Dir_perm_vec := by
    refine (List.perm_ext_iff_of_nodup (List.nodup_range.filter _)
      ((perm_vec_sorted d).imp fun h => h.ne)).mpr fun j => ?_
    rw [List.mem_filter, List.mem_range, decide_eq_true_eq]
    exact and_iff_right_of_imp h.perm_vec_lt
  exact hperm.eq_of_pairwise' ((List.pairwise_lt_range.filter _).imp fun h => h.le)
    ((perm_vec_sorted d).imp fun h => h.le)

lemma Sized.perm_vec_full_perm (h : d.Sized n) : d.perm_vec_full.Perm (List.range n) := by
  have hsame : d.B1t_Dir_perm_vec.Perm ((List.range n).filter (· ∈ d.B1t_Dir_perm_vec)) :=
    List.Perm.of_eq h.filter_mem.symm
  have hsplit := List.filter_append_perm (fun j => decide (j ∈ d.B1t_Dir_perm_vec)) (List.range n)
  rw [perm_vec_full, h.perm_vec_diff_eq]
  refine ((List.Perm.append_left _ hsame).trans List.perm_append_comm).trans ?_
  simpa only [decide_not] using hsplit

lemma Sized.length_perm_vec (h : d.Sized n) :
    d.perm_vec_diff.length + d.B1t_Dir_perm_vec.length = n := by
  rw [← List.length_append, ← perm_vec_full, h.perm_vec_full_perm.length_eq, List.length_range]

/-! ## The matrix without regularization -/

lemma Sized.regMat_row (h : d.Sized n) {i : ℕ} {e : ℕ × ℚ} (he : e ∈ d.RegMatCRS.rowAt i) :
    ∃ e' ∈ d.K.rowAt i, e'.1 = e.1 := by
  obtain ⟨-, m, hm, hmi, rfl⟩ := CooMatrix.mem_convertToCSRwithSort.mp he
  obtain ⟨q, -, e', he', hrow, hcol⟩ := h.contained m hm
  obtain rfl : q = i := by omega
  exact ⟨e', he', by rw [hcol, Nat.add_sub_cancel]⟩

lemma Sized.rows_regMat (h : d.Sized n) : d.RegMatCRS.rows = n :=
  CooMatrix.rows_convertToCSRwithSort.trans h.rows

lemma Sized.regMat_bounded (h : d.Sized n) : d.RegMatCRS.Bounded := by
  intro row hrow e he
  obtain ⟨i, hi, hrowi⟩ := List.mem_iff_getElem.mp hrow
  have hat : d.RegMatCRS.rowAt i = row := by
    rw [SparseMatrix.rowAt, List.getD_eq_getElem _ _ hi, hrowi]
  obtain ⟨e', he', heq⟩ := h.regMat_row (hat ▸ he)
  have hlt := h.upper.bounded.rowAt_below i e' he'
  rw [h.upper.cols_eq, heq] at hlt
  exact lt_of_lt_of_eq hlt h.cols.symm

lemma Sized.nnz_K (h : d.Sized n) (hnnz : d.RegMatCRS.nnz ≠ 0) : d.K.nnz ≠ 0 := by
  intro hzero
  refine hnnz (SparseMatrix.nnz_eq_zero_iff.mpr fun row hrow => ?_)
  obtain ⟨i, hi, hrowi⟩ := List.mem_iff_getElem.mp hrow
  have hat : d.RegMatCRS.rowAt i = row := by
    rw [SparseMatrix.rowAt, List.getD_eq_getElem _ _ hi, hrowi]
  refine List.eq_nil_iff_forall_not_mem.mpr fun e he => ?_
  obtain ⟨e', he', -⟩ := h.regMat_row (hat ▸ he)
  rw [SparseMatrix.rowAt_of_nnz hzero] at he'
  exact absurd he' List.not_mem_nil

lemma Sized.K_modif_eq (h : d.Sized n) :
    ∃ A, d.K_modif = some A ∧ A.Upper n ∧ ∀ i < n, ∀ j < n,
      A.symEntry i j
        = d.unregularized (d.perm_vec_full.getD i 0) (d.perm_vec_full.getD j 0) := by
  obtain ⟨C, hC, hrows, hcols, hbounded, hentry⟩ := h.upper.bounded.matAddInPlaceBy_eq
    h.regMat_bounded h.nnz_K (fun _ => ⟨h.upper.rows_eq.trans h.rows_regMat.symm,
      h.upper.cols_eq.trans h.cols.symm⟩) (-1)
  have hupper : C.Upper n := by
    refine ⟨hrows.trans h.upper.rows_eq, hcols.trans h.upper.cols_eq, hbounded, fun i e he => ?_⟩
    rcases SparseMatrix.mem_of_matAddInPlaceBy hC h.nnz_K he with ⟨e', he', heq⟩ | ⟨e', he', heq⟩
    · exact heq ▸ h.upper.upper i e' he'
    · obtain ⟨e₁, he₁, heq₁⟩ := h.regMat_row he'
      exact heq ▸ heq₁ ▸ h.upper.upper i e₁ he₁
  have hroom : C.nnz ≤ d.K.nnz :=
    SparseMatrix.nnz_matAddInPlaceBy_le (fun i e he => h.regMat_row he) hC h.nnz_K
  have hsym : ∀ i j, C.symEntry i j = d.unregularized i j := by
    intro i j
    rw [unregularized, Matrix.of_apply, SparseMatrix.symEntry, SparseMatrix.symEntry,
      SparseMatrix.symEntry]
    split_ifs
    · rw [hentry]
      ring
    · rw [hentry]
      ring
  refine ⟨C.permuted d.perm_vec_full, ?_, hupper.permuted h.perm_vec_full_perm, fun i hi j hj => ?_⟩
  · rw [K_modif, hC]
    exact if_pos hroom
  · rw [hupper.symEntry_permuted h.perm_vec_full_perm hi hj, hsym]

lemma Sized.complement_eq (h : d.Sized n) {A : SparseMatrix}
    (hA : ∀ i < n, ∀ j < n, A.symEntry i j
      = d.unregularized (d.perm_vec_full.getD i 0) (d.perm_vec_full.getD j 0)) :
    Schur.complement (Matrix.of A.symEntry) (Fin.val : Fin d.perm_vec_diff.length → ℕ)
        (fun k : Fin d.B1t_Dir_perm_vec.length => d.perm_vec_diff.length + k.val)
      = Schur.complement d.unregularized d.inner d.interface ∧
    (Matrix.of A.symEntry).submatrix (Fin.val : Fin d.perm_vec_diff.length → ℕ) Fin.val
      = d.unregularized.submatrix d.inner d.inner := by
  have hlength := h.length_perm_vec
  have hinner : ∀ i : Fin d.perm_vec_diff.length, d.perm_vec_full.getD i 0 = d.inner i := by
    intro i
    rw [perm_vec_full, List.getD_append _ _ _ _ i.isLt, List.getD_eq_getElem _ _ i.isLt]
    rfl
  have hinterface : ∀ k : Fin d.B1t_Dir_perm_vec.length,
      d.perm_vec_full.getD (d.perm_vec_diff.length + k) 0 = d.interface k := by
    intro k
    rw [perm_vec_full, List.getD_append_right _ _ _ _ (Nat.le_add_right _ _), Nat.add_sub_cancel_left,
      List.getD_eq_getElem _ _ k.isLt]
    rfl
  have hselected : (Matrix.of A.symEntry).submatrix
      (Sum.elim Fin.val fun k : Fin d.B1t_Dir_perm_vec.length => d.perm_vec_diff.length + k.val)
      (Sum.elim Fin.val fun k : Fin d.B1t_Dir_perm_vec.length => d.perm_vec_diff.length + k.val)
        = d.unregularized.submatrix (Sum.elim d.inner d.interface) (Sum.elim d.inner d.interface) := by
    ext a b
    rw [Matrix.submatrix_apply, Matrix.submatrix_apply, Matrix.of_apply]
    rcases a with i | i <;> rcases b with j | j <;>
      have := i.isLt <;> have := j.isLt <;>
      simp only [Sum.elim_inl, Sum.elim_inr] <;>
      rw [hA _ (by omega) _ (by omega)] <;>
      simp only [hinner, hinterface]
  exact ⟨Schur.complement_congr hselected, congrArg (·.submatrix Sum.inl Sum.inl) hselected⟩

/-! ## The rows of the transposed gluing -/

lemma rowAt_transposed_ne_nil {j : ℕ} (hj : j < d.B1_comp_dom.cols) :
    d.B1_comp_dom.matTranspose.rowAt j ≠ [] ↔ j ∈ d.B1t_Dir_perm_vec := by
  rw [SparseMatrix.matTranspose, SparseMatrix.rowAt_map_range, if_pos hj, mem_perm_vec, ne_eq,
    List.flatMap_eq_nil_iff]
  constructor
  · intro hne
    by_contra hnone
    refine hne fun i _ => ?_
    rw [List.map_eq_nil_iff, List.filter_eq_nil_iff]
    intro e he heq
    have hi : i < d.B1_comp_dom.rows := by
      by_contra hge
      rw [SparseMatrix.rowAt_eq_nil (not_lt.mp hge)] at he
      exact absurd he List.not_mem_nil
    exact hnone ⟨_, SparseMatrix.rowAt_mem hi, e, he, of_decide_eq_true heq⟩
  · rintro ⟨row, hrow, e, he, rfl⟩ hnil
    obtain ⟨i, hi, hrowi⟩ := List.mem_iff_getElem.mp hrow
    have hat : d.B1_comp_dom.rowAt i = row := by
      rw [SparseMatrix.rowAt, List.getD_eq_getElem _ _ hi, hrowi]
    have hempty := hnil i (List.mem_range.mpr hi)
    rw [List.map_eq_nil_iff, List.filter_eq_nil_iff, hat] at hempty
    exact hempty e he (decide_eq_true rfl)

lemma Sized.order (h : d.Sized n) :
    d.B1t_DirPr.matrix.csr = d.B1t_Dir_perm_vec.map d.B1_comp_dom.matTranspose.rowAt := by
  have hpointers : removeDuplicity (CsrArrays.ofMatrix d.B1_comp_dom.matTranspose).CSR_I_row_indices
      = RowPointers.pointers 1 (d.B1_comp_dom.matTranspose.csr.filter (· ≠ [])) :=
    RowPointers.destutter_pointers 1 _
  have hflatten : (d.B1_comp_dom.matTranspose.csr.filter (· ≠ [])).flatten
      = d.B1_comp_dom.matTranspose.csr.flatten := List.flatten_filter_ne_nil
  have harrays : d.B1t_DirPr.matrix
      = (CsrArrays.ofMatrix ⟨d.B1_comp_dom.rows,
          d.B1_comp_dom.matTranspose.csr.filter (· ≠ [])⟩).matrix := by
    rw [CsrArrays.matrix, CsrArrays.matrix, B1t_DirPr]
    dsimp only
    rw [hpointers]
    simp only [CsrArrays.ofMatrix, hflatten, SparseMatrix.cols_matTranspose]
  have hcsr : d.B1_comp_dom.matTranspose.csr
      = (List.range n).map d.B1_comp_dom.matTranspose.rowAt := by
    refine List.ext_getElem ?_ fun i hi _ => ?_
    · rw [List.length_map, List.length_range, ← h.gluing_cols]
      exact SparseMatrix.rows_matTranspose
    · rw [List.getElem_map, List.getElem_range, SparseMatrix.rowAt, List.getD_eq_getElem _ _ hi]
  rw [harrays, CsrArrays.matrix_ofMatrix, hcsr, List.filter_map, ← h.filter_mem]
  refine congrArg (List.map _) (List.filter_congr fun j hj => ?_)
  have hiff := rowAt_transposed_ne_nil (d := d) (h.gluing_cols.symm ▸ List.mem_range.mp hj)
  simp only [Function.comp_apply, decide_eq_decide]
  exact hiff

/-! ## The preconditioner -/

lemma Sized.right_of_inner (h : d.Sized n) {PARDISO : SparseMatrix → ℕ → ℕ → ℚ}
    (hexact : ExactSchur PARDISO) (hregular : IsUnit (d.unregularized.submatrix d.inner d.inner).det)
    (hne : d.B1t_Dir_perm_vec ≠ []) (hinner : d.B1t_Dir_perm_vec.length < n) :
    ∃ Prec, d.createDirichletPrec PARDISO = some Prec ∧ d.RightPrec Prec := by
  obtain ⟨A, hA, hupper, hsym⟩ := h.K_modif_eq
  obtain ⟨hcomplement, hrr⟩ := h.complement_eq hsym
  have hlength := h.length_perm_vec
  have hrows : d.B1t_Dir_perm_vec.length ≠ d.K.rows := by
    rw [h.upper.rows_eq]
    omega
  refine ⟨_, by rw [createDirichletPrec, hA]; exact if_neg hrows, ?_⟩
  have hschur := hexact A d.perm_vec_diff.length d.B1t_Dir_perm_vec.length (by omega)
    (List.length_pos_iff.mpr hne) (hlength.symm ▸ hupper) (hrr ▸ hregular)
  have hsize : (DenseMatrix.ofSparse (create_SC PARDISO A d.B1t_Dir_perm_vec.length)).rows
      = d.B1t_Dir_perm_vec.length := by
    change (create_SC PARDISO A _).rows = _
    rw [create_SC, SparseMatrix.rows_removeLower, DenseMatrix.rows_convertDenseToCSR]
  refine ⟨hsize, fun i j => ?_, h.order⟩
  have hi := i.isLt
  have hj := j.isLt
  have hentry : ∀ i j : Fin d.B1t_Dir_perm_vec.length, i ≤ j →
      (DenseMatrix.ofSparse (create_SC PARDISO A d.B1t_Dir_perm_vec.length)).entry i j
        = Schur.complement d.unregularized d.inner d.interface i j := by
    intro i j hij
    rw [DenseMatrix.entry_ofSparse _ (lt_of_lt_of_eq i.isLt hsize.symm), create_SC,
      SparseMatrix.entry_removeLower hij, DenseMatrix.entry_convertDenseToCSR i.isLt j.isLt,
      ← hcomplement]
    exact hschur i j hij
  rw [PackedMatrix.entry_removeLowerDense _ (hsize.symm ▸ hi) (hsize.symm ▸ hj)]
  rcases le_total i j with hij | hij
  · rw [min_eq_left (Fin.le_def.mp hij), max_eq_right (Fin.le_def.mp hij), hentry i j hij]
  · rw [min_eq_right (Fin.le_def.mp hij), max_eq_left (Fin.le_def.mp hij), hentry j i hij]
    exact congrFun (congrFun (Schur.transpose_complement d.transpose_unregularized _ _) i) j

lemma Sized.entry_of_interface (h : d.Sized n) (PARDISO : SparseMatrix → ℕ → ℕ → ℚ)
    (hall : d.B1t_Dir_perm_vec.length = n) :
    ∃ Prec, d.createDirichletPrec PARDISO = some Prec ∧
      Prec.rows = d.B1t_Dir_perm_vec.length ∧
      ∀ i < n, ∀ j < n, Prec.entry i j = d.K.symEntry i j := by
  obtain ⟨A, hA, -⟩ := h.K_modif_eq
  have hrows : d.B1t_Dir_perm_vec.length = d.K.rows := hall.trans h.upper.rows_eq.symm
  refine ⟨_, by rw [createDirichletPrec, hA]; exact if_pos hrows, hrows.symm, fun i hi j hj => ?_⟩
  have hi : i < d.K.rows := h.upper.rows_eq.symm ▸ hi
  have hj : j < d.K.rows := h.upper.rows_eq.symm ▸ hj
  rw [PackedMatrix.entry_removeLowerDense _ hi hj, DenseMatrix.entry_ofSparse _ (min_lt_of_left_lt hi),
    SparseMatrix.symEntry_eq_min_max]

lemma Sized.complement_of_interface (h : d.Sized n) (hall : d.B1t_Dir_perm_vec.length = n)
    (i j : Fin d.B1t_Dir_perm_vec.length) :
    Schur.complement d.unregularized d.inner d.interface i j = d.unregularized i j := by
  have hlength := h.length_perm_vec
  have hnone : IsEmpty (Fin d.perm_vec_diff.length) := ⟨fun i => absurd i.isLt (by omega)⟩
  have hrange : d.B1t_Dir_perm_vec = List.range n := by
    have hnil : d.perm_vec_diff = [] := List.length_eq_zero_iff.mp (by omega)
    have hperm := h.perm_vec_full_perm
    rw [perm_vec_full, hnil, List.nil_append] at hperm
    exact hperm.eq_of_pairwise' ((perm_vec_sorted d).imp fun h => h.le)
      (List.pairwise_lt_range.imp fun h => h.le)
  have hself : ∀ i, d.interface i = i := by
    intro i
    have hget : d.B1t_Dir_perm_vec[i.val]? = some i.val :=
      (congrArg (·[i.val]?) hrange).trans (List.getElem?_range (hall ▸ i.isLt))
    exact (List.getElem?_eq_some_iff.mp hget).2
  rw [Schur.complement_of_isEmpty, Matrix.submatrix_apply, hself, hself]

/-- **The Dirichlet preconditioner.**  With an exact routine for Schur complements and a regular inner
block, `Prec` is the Schur complement of the matrix without regularization on the unknowns of the
interface exactly if the domain has an inner unknown or its regularization is zero. -/
theorem rightPrec_iff (h : d.Sized n) {PARDISO : SparseMatrix → ℕ → ℕ → ℚ}
    (hexact : ExactSchur PARDISO) (hregular : IsUnit (d.unregularized.submatrix d.inner d.inner).det)
    (hne : d.B1t_Dir_perm_vec ≠ []) :
    (∃ Prec, d.createDirichletPrec PARDISO = some Prec ∧ d.RightPrec Prec) ↔
      d.B1t_Dir_perm_vec.length < n ∨ ∀ i < n, ∀ j < n, d.RegMatCRS.symEntry i j = 0 := by
  have hlength := h.length_perm_vec
  rcases lt_or_ge d.B1t_Dir_perm_vec.length n with hinner | hge
  · exact iff_of_true (h.right_of_inner hexact hregular hne hinner) (Or.inl hinner)
  · have hall : d.B1t_Dir_perm_vec.length = n := by omega
    obtain ⟨Prec, hPrec, hrows, hentry⟩ := h.entry_of_interface PARDISO hall
    have hright : d.RightPrec Prec ↔ ∀ i < n, ∀ j < n, d.RegMatCRS.symEntry i j = 0 := by
      constructor
      · intro hright i hi j hj
        have hij := hright.entry ⟨i, hall.symm ▸ hi⟩ ⟨j, hall.symm ▸ hj⟩
        rw [h.complement_of_interface hall, hentry i hi j hj, unregularized, Matrix.of_apply] at hij
        linarith
      · intro hzero
        refine ⟨hrows, fun i j => ?_, h.order⟩
        have hi : i.val < n := hall ▸ i.isLt
        have hj : j.val < n := hall ▸ j.isLt
        rw [h.complement_of_interface hall, hentry i hi j hj, unregularized, Matrix.of_apply,
          hzero i hi j hj, sub_zero]
    constructor
    · rintro ⟨Prec', hPrec', hright'⟩
      rw [hPrec] at hPrec'
      rw [← Option.some.inj hPrec'] at hright'
      exact Or.inr (hright.mp hright')
    · rintro (hlt | hzero)
      · omega
      · exact ⟨Prec, hPrec, hright.mpr hzero⟩

end DirichletDomain

/-! ### A bar of two unknowns -/

noncomputable def exactSchur (A : SparseMatrix) (sc_size k : ℕ) : ℚ :=
  if h : 0 < sc_size then
    Schur.complement (Matrix.of A.symEntry) (Fin.val : Fin (A.rows - sc_size) → ℕ)
      (fun k : Fin sc_size => A.rows - sc_size + k.val)
      ⟨k % sc_size, Nat.mod_lt _ h⟩ ⟨k / sc_size % sc_size, Nat.mod_lt _ h⟩
  else 0

lemma exactSchur_exact : DirichletDomain.ExactSchur exactSchur := by
  rintro A m sc_size - hpos hA - i j -
  have hrows : A.rows - sc_size = m := by
    rw [hA.rows_eq, Nat.add_sub_cancel]
  subst hrows
  have hi : (j * sc_size + i) % sc_size = (i : ℕ) := by
    rw [Nat.mul_comm, Nat.mul_add_mod, Nat.mod_eq_of_lt i.isLt]
  have hj : (j * sc_size + i) / sc_size % sc_size = (j : ℕ) := by
    rw [Nat.mul_comm, Nat.mul_add_div hpos, Nat.div_eq_of_lt i.isLt, Nat.add_zero,
      Nat.mod_eq_of_lt j.isLt]
  rw [exactSchur, dif_pos hpos]
  simp only [hi, hj]

/-- A bar with two unknowns and its regularization; the gluing meets the given unknowns. -/
def barDomain (glued : List ℕ) : DirichletDomain where
  K := ⟨2, [[(0, 2), (1, -1)], [(1, 1)]]⟩
  RegMat := ⟨2, 2, [(1, 1, 1)]⟩
  B1_comp_dom := ⟨2, glued.map fun j => [(j, 1)]⟩

lemma barDomain_sized {glued : List ℕ} (h : ∀ j ∈ glued, j < 2) : (barDomain glued).Sized 2 where
  upper := {
    rows_eq := rfl
    cols_eq := rfl
    bounded := by
      change ∀ row ∈ [[(0, (2 : ℚ)), (1, -1)], [(1, 1)]], ∀ e ∈ row, e.1 < 2
      decide
    upper := fun i e he => by
      match i, he with
      | 0, _ => exact Nat.zero_le _
      | 1, he => simp_all [barDomain, SparseMatrix.rowAt]
      | i + 2, he => simp_all [barDomain, SparseMatrix.rowAt] }
  rows := rfl
  cols := rfl
  contained := by
    intro e he
    obtain rfl : e = (1, 1, 1) := List.mem_singleton.mp he
    exact ⟨0, by decide, (0, 2), List.mem_cons_self, rfl, rfl⟩
  gluing := by
    intro row hrow e he
    obtain ⟨j, hj, rfl⟩ := List.mem_map.mp hrow
    obtain rfl := List.mem_singleton.mp he
    exact h j hj
  gluing_cols := rfl

/-- With an inner unknown the preconditioner of the bar is right. -/
theorem rightPrec_bar :
    ∃ Prec, (barDomain [1]).createDirichletPrec exactSchur = some Prec ∧
      (barDomain [1]).RightPrec Prec := by
  have hsized : (barDomain [1]).Sized 2 := barDomain_sized (by decide)
  have hvec : (barDomain [1]).B1t_Dir_perm_vec = [1] := by decide
  have hdiff : (barDomain [1]).perm_vec_diff = [0] := by
    rw [hsized.perm_vec_diff_eq, hvec]
    decide
  have hlength : (barDomain [1]).perm_vec_diff.length = 1 := by rw [hdiff]; rfl
  have hinner : ∀ i, (barDomain [1]).inner i = 0 := fun i =>
    List.mem_singleton.mp (hdiff ▸ List.get_mem (barDomain [1]).perm_vec_diff i)
  have hvalue : (barDomain [1]).unregularized 0 0 = 1 := by decide +kernel
  refine (DirichletDomain.rightPrec_iff hsized exactSchur_exact ?_ ?_).mpr (Or.inl ?_)
  · have hunique : Unique (Fin (barDomain [1]).perm_vec_diff.length) := (finCongr hlength).unique
    rw [Matrix.det_unique, Matrix.submatrix_apply, hinner, hvalue]
    exact isUnit_one
  · rw [hvec]
    decide
  · rw [hvec]
    decide

/-- Without an inner unknown the regularization stays in the preconditioner of the bar. -/
theorem not_rightPrec_bar :
    ¬∃ Prec, (barDomain [0, 1]).createDirichletPrec exactSchur = some Prec ∧
      (barDomain [0, 1]).RightPrec Prec := by
  have hsized : (barDomain [0, 1]).Sized 2 := barDomain_sized (by decide)
  have hvec : (barDomain [0, 1]).B1t_Dir_perm_vec = [0, 1] := by decide
  have hall : (barDomain [0, 1]).B1t_Dir_perm_vec.length = 2 := by rw [hvec]; rfl
  rintro ⟨Prec, hPrec, hright⟩
  obtain ⟨Prec', hPrec', -, hentry⟩ := hsized.entry_of_interface _ hall
  obtain rfl := Option.some.inj (hPrec.symm.trans hPrec')
  have hzero := hright.entry ⟨0, by omega⟩ ⟨0, by omega⟩
  rw [hsized.complement_of_interface hall, hentry 0 (by decide) 0 (by decide)] at hzero
  have hvalue : (barDomain [0, 1]).K.symEntry 0 0 ≠ (barDomain [0, 1]).unregularized 0 0 := by
    decide +kernel
  exact hvalue hzero

end Espreso
