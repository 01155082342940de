import Espreso.Lib.Fallible
import Espreso.Lib.GramSchmidt
import Espreso.Lib.Writes
import Espreso.Solver.Cluster
import Espreso.Solver.DiagonalScaling
import Espreso.Solver.DirichletPrec

/-!
# The kernel of a matrix from its Schur complement

`SparseMatrix::get_kernel_from_K` scales a singular matrix, moves some unknowns to the end, computes
the Schur complement on them and its kernel, extends the kernel to the other unknowns, and moves the
rows back.

* `SparseMatrix.getSubDiagBlockmatrix`, `SparseMatrix.getSubBlockmatrix_rs` — the blocks.
* **`BasedMatrix.rightKernel_iff`** — when the code finds the kernel.
-/

namespace Espreso

open Finset Matrix

/-! ## The code -/

namespace SparseMatrix

variable (A : SparseMatrix)

def subBlock (i_start i_size j_start j_size : ℕ) : SparseMatrix where
  cols := j_size
  csr := (List.range i_size).map fun i =>
    ((A.rowAt (i + i_start)).filter fun e => j_start ≤ e.1 ∧ e.1 < j_start + j_size).map fun e =>
      (e.1 - j_start, e.2)

def getSubDiagBlockmatrix (i_start size_rr : ℕ) : SparseMatrix :=
  A.subBlock i_start size_rr i_start size_rr

def getSubBlockmatrix_rs (i_start i_size j_start j_size : ℕ) : SparseMatrix :=
  A.subBlock i_start i_size j_start j_size

end SparseMatrix

def DenseMatrix.columnAt (D : DenseMatrix) (j : ℕ) (i : Fin D.rows) : ℚ := D.entry i j

def DenseMatrix.joinColumns {rows : ℕ} (w : List (Fin rows → ℚ)) (k : ℕ) : ℚ :=
  if h : k % rows < rows then w.getD (k / rows) 0 ⟨k % rows, h⟩ else 0

/-- `GramSchmidtOrtho` -/
def DenseMatrix.gramSchmidtOrtho (sqrt : ℚ → ℚ) (D : DenseMatrix) : Option DenseMatrix :=
  (GramSchmidt.process sqrt ((List.range D.cols).map D.columnAt)).map fun w =>
    { D with dense_values := joinColumns w }

/-- The routines that the code calls: the square root, the shuffle of the standard library, the
direct solver, and the eigenvalues and eigenvectors of a packed matrix. -/
structure KernelRoutines where
  sqrt : ℚ → ℚ
  random_shuffle : List ℕ → List ℕ
  solve : SparseMatrix → (ℕ → ℚ) → ℕ → ℚ
  LAPACKE_dspev : PackedMatrix → (ℕ → ℚ) × (ℕ → ℚ)

namespace KernelRoutines

variable (lib : KernelRoutines)

/-- `SolveMat_Dense`: the columns of `B` are replaced by solutions. -/
def solveMat_Dense (A B : SparseMatrix) : SparseMatrix :=
  DenseMatrix.convertDenseToCSR {
    rows := B.rows
    cols := B.cols
    dense_values := fun k => lib.solve A (fun i => B.entry i (k / B.rows)) (k % B.rows) }

/-- The Schur complement `S` of the last `sc_size` unknowns. -/
def schurComplement (K_modif : SparseMatrix) (nonsing_size sc_size : ℕ) : Option PackedMatrix := do
  let K_rr := K_modif.getSubDiagBlockmatrix 0 nonsing_size
  let K_rs := K_modif.getSubBlockmatrix_rs 0 nonsing_size nonsing_size sc_size
  let S := K_modif.getSubDiagBlockmatrix nonsing_size sc_size
  if K_rr.cols = 0 then
    some (PackedMatrix.removeLowerDense (DenseMatrix.ofSparse S.removeLower))
  else
    let invKrrKrs := lib.solveMat_Dense K_rr K_rs
    let S ← S.matAddInPlaceBy (K_rs.matTranspose.matMat invKrrKrs) (-1)
    some (PackedMatrix.removeLowerDense (DenseMatrix.ofSparse S.removeLower))

/-- `defect_K_in`: from behind, the first of 20 eigenvalues that is large against the one before. -/
def defect_K_in (W : ℕ → ℚ) (rows : ℕ) : ℕ :=
  ((List.range' 1 (min 20 rows - 1)).reverse.find? fun i =>
    W i ≠ 0 ∧ |W (i - 1) / W i| < 1 / 100000).getD 0

/-- `R_s`: the first columns of the eigenvectors. -/
def R_s (S : PackedMatrix) : DenseMatrix where
  rows := S.rows
  cols := defect_K_in (lib.LAPACKE_dspev S).1 S.rows
  dense_values := (lib.LAPACKE_dspev S).2

/-- `R_r`: the columns of `R_s` extended to the eliminated unknowns. -/
def R_r (K_modif : SparseMatrix) (nonsing_size sc_size : ℕ) (R_s : DenseMatrix) : DenseMatrix :=
  let K_rr := K_modif.getSubDiagBlockmatrix 0 nonsing_size
  let K_rs := K_modif.getSubBlockmatrix_rs 0 nonsing_size nonsing_size sc_size
  if K_rr.cols = 0 then ⟨0, 0, fun _ => 0⟩
  else DenseMatrix.ofSparse (lib.solveMat_Dense K_rr (K_rs.matMat R_s.convertDenseToCSR))

/-- `permVec`: both parts of the shuffled unknowns are sorted. -/
def permVec (rows nonsing_size : ℕ) : List ℕ :=
  let permVec := lib.random_shuffle (List.range rows)
  (permVec.take nonsing_size).insertionSort (· ≤ ·) ++
    (permVec.drop nonsing_size).insertionSort (· ≤ ·)

/-- One value of `Kplus_R` with its position; `[R_r; -R_s]` is scaled back. -/
def kplusWrite (K : SparseMatrix) (permVec : List ℕ) (R_r R_s : DenseMatrix) (j i : ℕ) :
    Option (ℕ × ℚ) := do
  let di ← SparseMatrix.firstValue K.csr (permVec.getD i 0)
  if lib.sqrt di = 0 then none
  else
    some (j * (R_r.rows + R_s.rows) + permVec.getD i 0,
      (if i < R_r.rows then R_r.entry i j else -R_s.entry (i - R_r.rows) j) / lib.sqrt di)

/-- `Kplus_R` before the orthogonalization. -/
def kplus (K : SparseMatrix) (permVec : List ℕ) (R_r R_s : DenseMatrix) : Option DenseMatrix := do
  let rows := R_r.rows + R_s.rows
  let writes ← ((List.range R_s.cols).flatMap fun j => (List.range rows).map fun i => (j, i)).mapM
    fun ji => lib.kplusWrite K permVec R_r R_s ji.1 ji.2
  let dense_values ← storeAll (R_s.cols * rows) 0 writes
  some ⟨rows, R_s.cols, dense_values⟩

end KernelRoutines

/-- A matrix in the format CSR, the arrays of which count from 0 or from 1. -/
structure BasedMatrix where
  matrix : SparseMatrix
  oneBased : Bool

namespace BasedMatrix

variable (lib : KernelRoutines) (K : BasedMatrix) (sc_size : ℕ)

/-- `nonsing_size`; the split size is at most the number of rows. -/
def nonsing_size : ℕ := K.matrix.rows - min sc_size K.matrix.rows

def permVec : List ℕ := lib.permVec K.matrix.rows (K.nonsing_size sc_size)

/-- `K_modif`: scaled and permuted.  The conversion to the coordinate format reads arrays that count
from 1. -/
def K_modif : Option SparseMatrix := do
  let K_modif ← K.matrix.diagonalScaling lib.sqrt
  if K.oneBased ∨ K.matrix.nnz = 0 then some (K_modif.permuted (K.permVec lib sc_size)) else none

/-- **`get_kernel_from_K`**: `Kplus_R`. The split size is the local variable of the code, which is
50 whatever the argument is. -/
def get_kernel_from_K : Option DenseMatrix := do
  let K_modif ← K.K_modif lib sc_size
  let nonsing_size := K.nonsing_size sc_size
  let sc_size' := min sc_size K.matrix.rows
  let S ← lib.schurComplement K_modif nonsing_size sc_size'
  let R_s := lib.R_s S
  if R_s.cols = 0 then some ⟨0, 0, fun _ => 0⟩
  else
    let Kplus_R ← lib.kplus K.matrix (K.permVec lib sc_size)
      (lib.R_r K_modif nonsing_size sc_size' R_s) R_s
    Kplus_R.gramSchmidtOrtho lib.sqrt

end BasedMatrix

/-! ## Blocks -/

namespace SparseMatrix

variable {A : SparseMatrix} {i_start i_size j_start j_size : ℕ}

@[simp] lemma rows_subBlock : (A.subBlock i_start i_size j_start j_size).rows = i_size := by
  rw [rows, subBlock, List.length_map, List.length_range]

lemma subBlock_bounded : (A.subBlock i_start i_size j_start j_size).Bounded := by
  intro row hrow e he
  obtain ⟨i, -, rfl⟩ := List.mem_map.mp hrow
  obtain ⟨e', he', rfl⟩ := List.mem_map.mp he
  have hrange := of_decide_eq_true (List.mem_filter.mp he').2
  change e'.1 - j_start < j_size
  omega

lemma entry_subBlock {i j : ℕ} (hi : i < i_size) (hj : j < j_size) :
    (A.subBlock i_start i_size j_start j_size).entry i j = A.entry (i + i_start) (j + j_start) := by
  rw [entry, subBlock, rowAt_map_range, if_pos hi, entry, Row.entry, Row.entry, List.filter_map,
    List.map_map, List.filter_filter]
  refine congrArg (fun es => (List.map Prod.snd es).sum) (List.filter_congr fun e _ => ?_)
  simp only [Function.comp_apply, ← Bool.decide_and, decide_eq_decide]
  omega

lemma nnz_subBlock_ne_zero_iff : (A.subBlock i_start i_size j_start j_size).nnz ≠ 0 ↔
    ∃ i < i_size, ∃ e ∈ A.rowAt (i + i_start), j_start ≤ e.1 ∧ e.1 < j_start + j_size := by
  rw [ne_eq, nnz_eq_zero_iff, subBlock]
  simp only [List.forall_mem_map, List.mem_range, List.map_eq_nil_iff, List.filter_eq_nil_iff,
    decide_eq_true_eq]
  push Not
  rfl

lemma symEntry_getSubDiagBlockmatrix {i j : ℕ} (hi : i < i_size) (hj : j < i_size) :
    (A.getSubDiagBlockmatrix i_start i_size).symEntry i j
      = A.symEntry (i + i_start) (j + i_start) := by
  rw [symEntry, symEntry, getSubDiagBlockmatrix, entry_subBlock hi hj, entry_subBlock hj hi]
  exact if_congr (Nat.add_le_add_iff_right).symm rfl rfl

end SparseMatrix

/-! ## Orthogonalization -/

namespace DenseMatrix

variable (D : DenseMatrix)

def columns : Matrix (Fin D.rows) (Fin D.cols) ℚ := Matrix.of fun i c => D.entry i c

lemma map_columnAt : (List.range D.cols).map D.columnAt = List.ofFn D.columns.col := by
  refine List.ext_getElem (by simp) fun j hj hj' => ?_
  rw [List.getElem_map, List.getElem_range, List.getElem_ofFn]
  rfl

/-- **The orthogonalization** of a basis of a kernel does not fail and is a basis again. -/
theorem exists_gramSchmidtOrtho {sqrt : ℚ → ℚ} (hsqrt : ∀ x, 0 < x → sqrt x ≠ 0) {l : Type}
    {M : Matrix l (Fin D.rows) ℚ} (h : KernelBasis M D.columns) :
    ∃ values, D.gramSchmidtOrtho sqrt = some { D with dense_values := values } ∧
      KernelBasis M (columns { D with dense_values := values }) := by
  have hindependent : ∀ done a rest, List.ofFn D.columns.col = done ++ a :: rest →
      a ∉ Submodule.span ℚ {q | q ∈ done} := fun done a rest has =>
    GramSchmidt.notMem_span_of_linearIndependent h.linearIndependent has
  obtain ⟨qs, hqs, hlength, hspan⟩ := GramSchmidt.exists_process hsqrt hindependent
  refine ⟨joinColumns qs, ?_, h.of_span_eq ?_⟩
  · rw [gramSchmidtOrtho, map_columnAt, hqs, Option.map_some]
  rw [List.length_ofFn] at hlength
  have hcol : ∀ c : Fin D.cols, (columns { D with dense_values := joinColumns qs }).col c
      = qs.get ⟨c, hlength.symm ▸ c.isLt⟩ := by
    intro c
    funext i
    have hpos : 0 < D.rows := lt_of_le_of_lt (Nat.zero_le _) i.isLt
    have hmod : (c * D.rows + i) % D.rows = i := by
      rw [mul_comm, Nat.mul_add_mod, Nat.mod_eq_of_lt i.isLt]
    have hdiv : (c * D.rows + i) / D.rows = c := by
      rw [mul_comm, Nat.mul_add_div hpos, Nat.div_eq_of_lt i.isLt, Nat.add_zero]
    change joinColumns qs (c * D.rows + i) = _
    rw [joinColumns, dif_pos (hmod.symm ▸ i.isLt), hdiv,
      List.getD_eq_getElem _ _ (hlength.symm ▸ c.isLt)]
    exact congrArg _ (Fin.ext hmod)
  have hrange : Set.range (columns { D with dense_values := joinColumns qs }).col
      = {q | q ∈ qs} := by
    ext q
    constructor
    · rintro ⟨c, rfl⟩
      rw [hcol]
      exact List.get_mem _ _
    · intro hq
      obtain ⟨c, hc, rfl⟩ := List.mem_iff_getElem.mp hq
      exact ⟨⟨c, hlength ▸ hc⟩, hcol _⟩
  rw [hrange, hspan]
  congr 1
  ext q
  exact List.mem_ofFn' _ _

end DenseMatrix

lemma KernelRoutines.permVec_perm {lib : KernelRoutines}
    (hshuffle : ∀ l, (lib.random_shuffle l).Perm l) (rows nonsing_size : ℕ) :
    (lib.permVec rows nonsing_size).Perm (List.range rows) := by
  refine ((List.perm_insertionSort _ _).append (List.perm_insertionSort _ _)).trans ?_
  rw [List.take_append_drop]
  exact hshuffle _

noncomputable def permEquiv {permVec : List ℕ} {n : ℕ} (h : permVec.Perm (List.range n)) :
    Fin n ≃ Fin n :=
  Equiv.ofBijective (fun i => ⟨permVec.getD i 0, getD_perm_lt h i.isLt⟩) <|
    Finite.injective_iff_bijective.mp fun i j hij => by
      have hi := (idxOf_eq_iff h (getD_perm_lt h i.isLt) i.isLt).mpr rfl
      have hj := (idxOf_eq_iff h (getD_perm_lt h j.isLt) j.isLt).mpr rfl
      rw [Fin.mk.injEq] at hij
      rw [hij] at hi
      exact Fin.ext (hi.symm.trans hj)

/-! ## The Schur complement -/

def SparseMatrix.toMatrix (A : SparseMatrix) (m k : ℕ) : Matrix (Fin m) (Fin k) ℚ :=
  Matrix.of fun i c => A.entry i c

def PackedMatrix.toMatrix (P : PackedMatrix) : Matrix (Fin P.rows) (Fin P.rows) ℚ :=
  Matrix.of fun i j => P.entry i j

lemma DenseMatrix.nnz_convertDenseToCSR_eq_zero_iff {D : DenseMatrix} :
    D.convertDenseToCSR.nnz = 0 ↔ ∀ i < D.rows, ∀ j < D.cols, D.entry i j = 0 := by
  rw [SparseMatrix.nnz_eq_zero_iff, convertDenseToCSR]
  simp only [List.forall_mem_map, List.mem_range, List.filterMap_eq_nil_iff, ite_eq_right_iff]
  refine forall₄_congr fun i _ j _ => ⟨fun h => ?_, fun h hne => absurd h hne⟩
  by_contra hne
  cases h hne

lemma PackedMatrix.entry_removeLower {S : SparseMatrix} {k l : ℕ} (hk : k < S.rows)
    (hl : l < S.rows) :
    (removeLowerDense (DenseMatrix.ofSparse S.removeLower)).entry k l = S.symEntry k l := by
  have hrows : (DenseMatrix.ofSparse S.removeLower).rows = S.rows := S.rows_removeLower
  rw [entry_removeLowerDense _ (hrows.symm ▸ hk) (hrows.symm ▸ hl),
    DenseMatrix.entry_ofSparse _ (S.rows_removeLower.symm ▸ lt_of_le_of_lt (min_le_left k l) hk),
    SparseMatrix.entry_removeLower min_le_max, SparseMatrix.symEntry_eq_min_max]

namespace KernelRoutines

open Matrix

variable {lib : KernelRoutines} {A B : SparseMatrix} {m s : ℕ}

def SolvesExactly (lib : KernelRoutines) (A : SparseMatrix) : Prop :=
  ∀ b : ℕ → ℚ, ∀ i < A.rows, ∑ j ∈ range A.rows, A.symEntry i j * lib.solve A b j = b i

lemma SolvesExactly.mulVec_solve (h : lib.SolvesExactly A) (hA : A.rows = m) (b : ℕ → ℚ) :
    A.symMatrix m *ᵥ (fun j : Fin m => lib.solve A b j) = fun i : Fin m => b i := by
  funext i
  have hi := h b i (hA.symm ▸ i.isLt)
  rw [hA] at hi
  exact (Fin.sum_univ_eq_sum_range (fun j => A.symEntry i j * lib.solve A b j) m).trans hi

lemma SolvesExactly.isUnit_det (h : lib.SolvesExactly A) (hA : A.rows = m) :
    IsUnit (A.symMatrix m).det := by
  refine isUnit_det_of_right_inverse (B := Matrix.of fun i j : Fin m =>
    lib.solve A (fun k => if k = j then 1 else 0) i) ?_
  ext i j
  refine (congrFun (h.mulVec_solve hA fun k => if k = j then 1 else 0) i).trans ?_
  rw [one_apply]
  exact if_congr Fin.ext_iff.symm rfl rfl

lemma SolvesExactly.solve_eq (h : lib.SolvesExactly A) (hA : A.rows = m) (b : ℕ → ℚ) :
    (fun j : Fin m => lib.solve A b j) = (A.symMatrix m)⁻¹ *ᵥ fun i : Fin m => b i := by
  rw [← h.mulVec_solve hA b, mulVec_mulVec, nonsing_inv_mul _ (h.isUnit_det hA), one_mulVec]

lemma SolvesExactly.toMatrix_solveMat_Dense (h : lib.SolvesExactly A) (hA : A.rows = m)
    (hB : B.rows = m) (hcols : B.cols = s) :
    (lib.solveMat_Dense A B).toMatrix m s = (A.symMatrix m)⁻¹ * B.toMatrix m s := by
  ext i c
  have hi : i.val < B.rows := hB.symm ▸ i.isLt
  have hmod : (c * B.rows + i) % B.rows = i := by
    rw [mul_comm, Nat.mul_add_mod, Nat.mod_eq_of_lt hi]
  have hdiv : (c * B.rows + i) / B.rows = c := by
    rw [mul_comm, Nat.mul_add_div (lt_of_le_of_lt (Nat.zero_le _) hi), Nat.div_eq_of_lt hi,
      Nat.add_zero]
  refine (DenseMatrix.entry_convertDenseToCSR hi (hcols.symm ▸ c.isLt)).trans ?_
  rw [DenseMatrix.entry]
  dsimp only
  rw [hdiv, hmod]
  exact congrFun (h.solve_eq hA fun k => B.entry k c) i

lemma SolvesExactly.entry_product (h : lib.SolvesExactly A) (hA : A.rows = m) (hB : B.rows = m)
    (hcols : B.cols = s) (hbounded : B.Bounded) (k l : Fin s) :
    (B.matTranspose.matMat (lib.solveMat_Dense A B)).entry k l
      = ((B.toMatrix m s)ᵀ * (A.symMatrix m)⁻¹ * B.toMatrix m s) k l := by
  have hsolved : (lib.solveMat_Dense A B).Bounded := DenseMatrix.convertDenseToCSR_bounded
  rw [SparseMatrix.matTranspose_bounded.entry_matMat hsolved, SparseMatrix.cols_matTranspose, hB,
    Matrix.mul_assoc, mul_apply,
    ← h.toMatrix_solveMat_Dense hA hB hcols,
    ← Fin.sum_univ_eq_sum_range (fun i => B.matTranspose.entry k i *
      (lib.solveMat_Dense A B).entry i l) m]
  refine Finset.sum_congr rfl fun i _ => ?_
  rw [hbounded.entry_matTranspose]
  rfl

/-- `K_rr`, `K_rs` and `K_ss` as matrices. -/
def rr (A : SparseMatrix) (m : ℕ) : Matrix (Fin m) (Fin m) ℚ :=
  (A.getSubDiagBlockmatrix 0 m).symMatrix m

/-- `K_rs` as a matrix. -/
def rs (A : SparseMatrix) (m s : ℕ) : Matrix (Fin m) (Fin s) ℚ :=
  (A.getSubBlockmatrix_rs 0 m m s).toMatrix m s

/-- `K_ss` as a matrix. -/
def ss (A : SparseMatrix) (m s : ℕ) : Matrix (Fin s) (Fin s) ℚ :=
  (A.getSubDiagBlockmatrix m s).symMatrix s

lemma transpose_rs_mul (A : SparseMatrix) (m s : ℕ) :
    ((rs A m s)ᵀ * (rr A m)⁻¹ * rs A m s)ᵀ = (rs A m s)ᵀ * (rr A m)⁻¹ * rs A m s := by
  have hrr : (rr A m)ᵀ = rr A m := by
    ext i j
    exact SparseMatrix.symMatrix_comm _ _ _ _
  rw [transpose_mul, transpose_mul, transpose_transpose, transpose_nonsing_inv, hrr,
    Matrix.mul_assoc]

lemma ss_sub_of_empty (A : SparseMatrix) (s : ℕ) :
    ss A 0 s - (rs A 0 s)ᵀ * (rr A 0)⁻¹ * rs A 0 s = ss A 0 s := by
  ext k l
  rw [Matrix.mul_assoc, Matrix.sub_apply, mul_apply, Finset.univ_eq_empty, Finset.sum_empty,
    sub_zero]

/-- **The Schur complement** that the code computes. -/
theorem schurComplement_eq (hsolve : lib.SolvesExactly (A.getSubDiagBlockmatrix 0 m))
    (hzero : (A.getSubDiagBlockmatrix m s).nnz = 0 → rs A m s = 0) :
    ∃ S, lib.schurComplement A m s = some S ∧ S.rows = s ∧
      ∀ k l : Fin s, S.entry k l = (ss A m s - (rs A m s)ᵀ * (rr A m)⁻¹ * rs A m s) k l := by
  have hrows : (A.getSubDiagBlockmatrix m s).rows = s := SparseMatrix.rows_subBlock
  by_cases hm : m = 0
  · subst hm
    refine ⟨PackedMatrix.removeLowerDense (DenseMatrix.ofSparse
      (A.getSubDiagBlockmatrix 0 s).removeLower), ?_, SparseMatrix.rows_removeLower.trans hrows,
      fun k l => ?_⟩
    · unfold schurComplement
      exact if_pos rfl
    rw [PackedMatrix.entry_removeLower (hrows.symm ▸ k.isLt) (hrows.symm ▸ l.isLt),
      ss_sub_of_empty]
    rfl
  · have hprod : ∀ k l : Fin s, ((A.getSubBlockmatrix_rs 0 m m s).matTranspose.matMat
        (lib.solveMat_Dense (A.getSubDiagBlockmatrix 0 m) (A.getSubBlockmatrix_rs 0 m m s))).entry
          k l = ((rs A m s)ᵀ * (rr A m)⁻¹ * rs A m s) k l :=
      hsolve.entry_product SparseMatrix.rows_subBlock SparseMatrix.rows_subBlock rfl
        SparseMatrix.subBlock_bounded
    obtain ⟨KsrInvKrrKrs, hKsr⟩ : ∃ X, X = (A.getSubBlockmatrix_rs 0 m m s).matTranspose.matMat
        (lib.solveMat_Dense (A.getSubDiagBlockmatrix 0 m) (A.getSubBlockmatrix_rs 0 m m s)) :=
      ⟨_, rfl⟩
    have hne : KsrInvKrrKrs.nnz ≠ 0 → (A.getSubDiagBlockmatrix m s).nnz ≠ 0 := by
      intro hnnz hss
      refine hnnz ?_
      have hsolved : (lib.solveMat_Dense (A.getSubDiagBlockmatrix 0 m)
          (A.getSubBlockmatrix_rs 0 m m s)).nnz = 0 := by
        refine DenseMatrix.nnz_convertDenseToCSR_eq_zero_iff.mpr fun i hi j hj => ?_
        have hinverse : (lib.solveMat_Dense (A.getSubDiagBlockmatrix 0 m)
            (A.getSubBlockmatrix_rs 0 m m s)).toMatrix m s = (rr A m)⁻¹ * rs A m s :=
          hsolve.toMatrix_solveMat_Dense SparseMatrix.rows_subBlock SparseMatrix.rows_subBlock rfl
        rw [hzero hss, Matrix.mul_zero] at hinverse
        have hi' : i < m := lt_of_lt_of_eq hi SparseMatrix.rows_subBlock
        exact (DenseMatrix.entry_convertDenseToCSR hi hj).symm.trans
          (congrFun (congrFun hinverse ⟨i, hi'⟩) ⟨j, hj⟩)
      rw [hKsr, SparseMatrix.matMat_of_nnz hsolved]
      rfl
    have hsize : KsrInvKrrKrs.nnz ≠ 0 → (A.getSubDiagBlockmatrix m s).rows = KsrInvKrrKrs.rows ∧
        (A.getSubDiagBlockmatrix m s).cols = KsrInvKrrKrs.cols := by
      intro hnnz
      rw [hKsr] at hnnz ⊢
      obtain ⟨hr, hc⟩ := SparseMatrix.size_matMat hnnz
      exact ⟨by rw [hr, hrows, SparseMatrix.rows_matTranspose]; rfl, hc.symm⟩
    have hbounded : (A.getSubDiagBlockmatrix m s).Bounded := SparseMatrix.subBlock_bounded
    obtain ⟨C, hC, hCrows, -, -, hentry⟩ := hbounded.matAddInPlaceBy_eq
      (hKsr ▸ SparseMatrix.matMat_bounded) hne hsize (-1)
    have hCs : C.rows = s := hCrows.trans hrows
    refine ⟨PackedMatrix.removeLowerDense (DenseMatrix.ofSparse C.removeLower), ?_,
      SparseMatrix.rows_removeLower.trans hCs, fun k l => ?_⟩
    · unfold schurComplement
      refine (if_neg hm).trans ?_
      dsimp only
      rw [← hKsr, hC]
      rfl
    · have hsymm := congrFun (congrFun (transpose_rs_mul A m s) k) l
      rw [transpose_apply] at hsymm
      have hss : ss A m s k l = (A.getSubDiagBlockmatrix m s).symEntry k l := rfl
      rw [PackedMatrix.entry_removeLower (hCs.symm ▸ k.isLt) (hCs.symm ▸ l.isLt), Matrix.sub_apply,
        hss, SparseMatrix.symEntry, SparseMatrix.symEntry]
      split_ifs with hkl
      · rw [hentry, hKsr, hprod, neg_one_mul, ← sub_eq_add_neg]
      · rw [hentry, hKsr, hprod, neg_one_mul, ← sub_eq_add_neg, hsymm]

/-- The columns of `R_s`. -/
def lastRows (lib : KernelRoutines) (S : PackedMatrix) (s : ℕ) :
    Matrix (Fin s) (Fin (lib.R_s S).cols) ℚ :=
  Matrix.of fun k c => (lib.R_s S).entry k c

/-- The kernel of the Schur complement, extended to the eliminated unknowns. -/
noncomputable def extended (lib : KernelRoutines) (A : SparseMatrix) (S : PackedMatrix) (m s : ℕ) :
    Matrix (Fin m ⊕ Fin s) (Fin (lib.R_s S).cols) ℚ :=
  fromRows ((rr A m)⁻¹ * (rs A m s * lib.lastRows S s)) (-lib.lastRows S s)

lemma kernelBasis_lastRows {S : PackedMatrix} {M : Matrix (Fin s) (Fin s) ℚ} (hrows : S.rows = s)
    (hM : ∀ k l : Fin s, S.entry k l = M k l)
    (h : KernelBasis S.toMatrix (lib.R_s S).columns) : KernelBasis M (lib.lastRows S s) := by
  subst hrows
  obtain rfl : M = S.toMatrix := by
    ext k l
    exact (hM k l).symm
  exact h

/-! ## The assembly of the kernel -/

lemma R_r_of_ne (hm : m ≠ 0) {R_s : DenseMatrix} : lib.R_r A m s R_s
    = DenseMatrix.ofSparse (lib.solveMat_Dense (A.getSubDiagBlockmatrix 0 m)
      ((A.getSubBlockmatrix_rs 0 m m s).matMat R_s.convertDenseToCSR)) := by
  rw [R_r]
  exact if_neg hm

lemma rows_R_r (R_s : DenseMatrix) : (lib.R_r A m s R_s).rows =
    if m = 0 ∨ (A.getSubBlockmatrix_rs 0 m m s).nnz = 0 ∨ R_s.convertDenseToCSR.nnz = 0 then 0
    else m := by
  by_cases hm : m = 0
  · rw [if_pos (Or.inl hm), R_r]
    exact congrArg DenseMatrix.rows (if_pos hm)
  · rw [R_r_of_ne hm]
    change (lib.solveMat_Dense _ _).rows = _
    rw [solveMat_Dense, DenseMatrix.rows_convertDenseToCSR]
    dsimp only
    split_ifs with hnnz
    · rcases hnnz with h | h | h
      · exact absurd h hm
      · rw [SparseMatrix.matMat, if_neg fun hpos => hpos.1.ne' h]
        rfl
      · rw [SparseMatrix.matMat_of_nnz h]
        rfl
    · push Not at hnnz
      rw [SparseMatrix.matMat, if_pos ⟨Nat.pos_of_ne_zero hnnz.2.1, Nat.pos_of_ne_zero hnnz.2.2⟩]
      exact (List.length_map _).trans SparseMatrix.rows_subBlock

lemma entry_R_r (hsolve : lib.SolvesExactly (A.getSubDiagBlockmatrix 0 m)) {R_s : DenseMatrix}
    (hrows : R_s.rows = s) (hm : m ≠ 0) (hrs : (A.getSubBlockmatrix_rs 0 m m s).nnz ≠ 0)
    (hnnz : R_s.convertDenseToCSR.nnz ≠ 0) (i : Fin m) (c : Fin R_s.cols) :
    (lib.R_r A m s R_s).entry i c = ((rr A m)⁻¹ * (rs A m s *
      Matrix.of fun (k : Fin s) (c : Fin R_s.cols) => R_s.entry k c)) i c := by
  obtain ⟨X, hX⟩ : ∃ X, X = (A.getSubBlockmatrix_rs 0 m m s).matMat R_s.convertDenseToCSR :=
    ⟨_, rfl⟩
  have hsize : X.rows = m ∧ X.cols = R_s.cols := by
    rw [hX, SparseMatrix.matMat, if_pos ⟨Nat.pos_of_ne_zero hrs, Nat.pos_of_ne_zero hnnz⟩]
    exact ⟨(List.length_map _).trans SparseMatrix.rows_subBlock, rfl⟩
  have hproduct : X.toMatrix m R_s.cols
      = rs A m s * Matrix.of fun (k : Fin s) (c : Fin R_s.cols) => R_s.entry k c := by
    ext i c
    have hbounded : (A.getSubBlockmatrix_rs 0 m m s).Bounded := SparseMatrix.subBlock_bounded
    refine ((congrArg (·.entry i c) hX).trans
      (hbounded.entry_matMat DenseMatrix.convertDenseToCSR_bounded i c)).trans ?_
    rw [mul_apply, ← Fin.sum_univ_eq_sum_range (fun k =>
      (A.getSubBlockmatrix_rs 0 m m s).entry i k * R_s.convertDenseToCSR.entry k c)]
    refine Finset.sum_congr rfl fun k _ => congrArg _ ?_
    exact DenseMatrix.entry_convertDenseToCSR (hrows.symm ▸ k.isLt) c.isLt
  have hrow : i.val < (lib.solveMat_Dense (A.getSubDiagBlockmatrix 0 m) X).rows := by
    rw [solveMat_Dense, DenseMatrix.rows_convertDenseToCSR]
    exact hsize.1.symm ▸ i.isLt
  rw [R_r_of_ne hm, ← hX, DenseMatrix.entry_ofSparse _ hrow, ← hproduct]
  exact congrFun (congrFun (hsolve.toMatrix_solveMat_Dense SparseMatrix.rows_subBlock hsize.1
    hsize.2) i) c

/-- A value of `Kplus_R` and its position, if nothing is divided by zero. -/
def kplusCell (lib : KernelRoutines) (K : SparseMatrix) (permVec : List ℕ) (R_r R_s : DenseMatrix)
    (ji : ℕ × ℕ) : ℕ × ℚ :=
  (ji.1 * (R_r.rows + R_s.rows) + permVec.getD ji.2 0,
    (if ji.2 < R_r.rows then R_r.entry ji.2 ji.1 else -R_s.entry (ji.2 - R_r.rows) ji.1)
      / lib.sqrt (K.leadingValue (permVec.getD ji.2 0)))

section

variable {K : SparseMatrix} {n : ℕ} {permVec : List ℕ} {R_r R_s : DenseMatrix}

lemma kplusWrite_eq {j i : ℕ} {v : ℚ}
    (hv : SparseMatrix.firstValue K.csr (permVec.getD i 0) = some v) (hne : lib.sqrt v ≠ 0) :
    lib.kplusWrite K permVec R_r R_s j i = some (lib.kplusCell K permVec R_r R_s (j, i)) := by
  have hdiagonal : K.leadingValue (permVec.getD i 0) = v := by
    rw [SparseMatrix.leadingValue, hv, Option.getD_some]
  rw [kplusWrite, hv, Option.bind_eq_bind, Option.bind_some, if_neg hne, kplusCell, hdiagonal]

lemma mem_cells {cols n : ℕ} {ji : ℕ × ℕ} :
    ji ∈ ((List.range cols).flatMap fun j => (List.range n).map fun i => (j, i)) ↔
      ji.1 < cols ∧ ji.2 < n := by
  simp only [List.mem_flatMap, List.mem_range, List.mem_map]
  constructor
  · rintro ⟨j, hj, i, hi, rfl⟩
    exact ⟨hj, hi⟩
  · rintro ⟨hj, hi⟩
    exact ⟨ji.1, hj, ji.2, hi, rfl⟩

lemma kplusCell_injective (hperm : permVec.Perm (List.range n)) (hrows : R_r.rows + R_s.rows = n)
    {ji ji' : ℕ × ℕ} (hi : ji.2 < n) (hi' : ji'.2 < n)
    (heq : (lib.kplusCell K permVec R_r R_s ji').1 = (lib.kplusCell K permVec R_r R_s ji).1) :
    ji' = ji := by
  have hlt := getD_perm_lt hperm hi
  have hlt' := getD_perm_lt hperm hi'
  have hpos := lt_of_le_of_lt (Nat.zero_le _) hi
  rw [kplusCell, kplusCell, hrows] at heq
  change ji'.1 * n + permVec.getD ji'.2 0 = ji.1 * n + permVec.getD ji.2 0 at heq
  have hj : ji'.1 = ji.1 := by
    have hdiv : (ji'.1 * n + permVec.getD ji'.2 0) / n = (ji.1 * n + permVec.getD ji.2 0) / n :=
      congrArg (· / n) heq
    rwa [mul_comm, Nat.mul_add_div hpos, Nat.div_eq_of_lt hlt', mul_comm ji.1, Nat.mul_add_div hpos,
      Nat.div_eq_of_lt hlt] at hdiv
  rw [hj, Nat.add_left_cancel_iff] at heq
  have hidx := (idxOf_eq_iff hperm hlt' hi').mpr rfl
  rw [heq, (idxOf_eq_iff hperm hlt hi).mpr rfl] at hidx
  exact Prod.ext hj hidx.symm

/-- **`Kplus_R` before the orthogonalization**: the rows are back at their places and scaled. -/
theorem kplus_eq (hperm : permVec.Perm (List.range n))
    (hfirst : ∀ i < n, ∃ v, SparseMatrix.firstValue K.csr i = some v ∧ lib.sqrt v ≠ 0)
    (hrows : R_r.rows + R_s.rows = n) :
    ∃ D, lib.kplus K permVec R_r R_s = some D ∧ D.rows = n ∧ D.cols = R_s.cols ∧
      ∀ i < n, ∀ j < R_s.cols, D.entry (permVec.getD i 0) j
        = (if i < R_r.rows then R_r.entry i j else -R_s.entry (i - R_r.rows) j)
          / lib.sqrt (K.leadingValue (permVec.getD i 0)) := by
  obtain ⟨cells, hcells⟩ : ∃ cells, cells = (List.range R_s.cols).flatMap fun j =>
    (List.range n).map fun i => (j, i) := ⟨_, rfl⟩
  have hmem : ∀ ji, ji ∈ cells ↔ ji.1 < R_s.cols ∧ ji.2 < n := fun ji => hcells ▸ mem_cells
  have hwrites : cells.mapM (fun ji => lib.kplusWrite K permVec R_r R_s ji.1 ji.2)
      = some (cells.map (lib.kplusCell K permVec R_r R_s)) := by
    refine Fallible.mapM_eq_some fun ji hji => ?_
    obtain ⟨v, hv, hne⟩ := hfirst _ (getD_perm_lt hperm ((hmem ji).mp hji).2)
    exact kplusWrite_eq hv hne
  have hsize : ∀ w ∈ cells.map (lib.kplusCell K permVec R_r R_s), w.1 < R_s.cols * n := by
    intro w hw
    obtain ⟨ji, hji, rfl⟩ := List.mem_map.mp hw
    obtain ⟨hj, hi⟩ := (hmem ji).mp hji
    rw [kplusCell, hrows]
    refine lt_of_lt_of_le (Nat.add_lt_add_left (getD_perm_lt hperm hi) _) ?_
    rw [← Nat.succ_mul]
    exact Nat.mul_le_mul_right n hj
  refine ⟨⟨n, R_s.cols, (cells.map (lib.kplusCell K permVec R_r R_s)).foldl
    (fun v w => Function.update v w.1 w.2) 0⟩, ?_, rfl, rfl, fun i hi j hj => ?_⟩
  · rw [kplus, hrows, ← hcells, hwrites, Option.bind_eq_bind, Option.bind_some, storeAll,
      if_pos hsize]
    rfl
  · have hcell : (j, i) ∈ cells := (hmem (j, i)).mpr ⟨hj, hi⟩
    have hvalue := Writes.foldl_update_of_mem Prod.fst Prod.snd
      (cells.map (lib.kplusCell K permVec R_r R_s)) 0 (a := lib.kplusCell K permVec R_r R_s (j, i))
      (fun w hw heq => by
        obtain ⟨ji, hji, rfl⟩ := List.mem_map.mp hw
        rw [kplusCell_injective hperm hrows hi ((hmem ji).mp hji).2 heq])
      (List.mem_map_of_mem hcell)
    have hat : (lib.kplusCell K permVec R_r R_s (j, i)).1 = j * n + permVec.getD i 0 := by
      rw [kplusCell, hrows]
    rw [hat] at hvalue
    exact hvalue

end

end KernelRoutines

/-! ## The kernel -/

/-- What the routines of the standard library do. -/
structure KernelRoutines.Sound (lib : KernelRoutines) : Prop where
  sqrt : SparseMatrix.SquareRoot lib.sqrt
  shuffle : ∀ l, (lib.random_shuffle l).Perm l

namespace BasedMatrix

open Matrix

variable (lib : KernelRoutines) (K : BasedMatrix) (sc_size n : ℕ)

/-- The upper triangle of a positive semidefinite matrix with `n` rows. -/
structure Stored : Prop where
  upper : K.matrix.Upper n
  ascending : K.matrix.Ascending
  semidefinite : Semidefinite (K.matrix.symMatrix n)

/-- The inner solver is exact, and the eigenvalues and eigenvectors give the kernel of the Schur
complement. -/
structure Exact : Prop where
  solve : ∀ A, K.K_modif lib sc_size = some A →
    lib.SolvesExactly (A.getSubDiagBlockmatrix 0 (K.nonsing_size sc_size))
  kernel : ∀ A S, K.K_modif lib sc_size = some A →
    lib.schurComplement A (K.nonsing_size sc_size) (min sc_size K.matrix.rows) = some S →
      KernelBasis S.toMatrix (lib.R_s S).columns

/-- `Kplus_R` has as many columns as the defect of `K`, and they are in the kernel. -/
structure RightKernel (Kplus_R : DenseMatrix) : Prop where
  cols : Kplus_R.cols = Module.finrank ℚ (LinearMap.ker (K.matrix.symMatrix n).mulVecLin)
  rows : Kplus_R.cols ≠ 0 → Kplus_R.rows = n
  product : ∀ c < Kplus_R.cols,
    K.matrix.symMatrix n *ᵥ (fun i : Fin n => Kplus_R.entry i c) = 0

/-- An entry couples an unknown that is eliminated with one that is kept. -/
def Coupled : Prop := ∃ r < n, ∃ e ∈ K.matrix.rowAt r,
  ¬((K.permVec lib sc_size).idxOf r < K.nonsing_size sc_size ↔
    (K.permVec lib sc_size).idxOf e.1 < K.nonsing_size sc_size)

variable {lib K sc_size n}

lemma Stored.rows_eq (h : K.Stored n) : K.matrix.rows = n := h.upper.rows_eq

lemma Stored.permVec_perm (h : K.Stored n) (hlib : lib.Sound) (sc_size : ℕ) :
    (K.permVec lib sc_size).Perm (List.range n) :=
  h.rows_eq ▸ KernelRoutines.permVec_perm hlib.shuffle _ _

lemma Stored.nonsing_add (h : K.Stored n) (sc_size : ℕ) :
    K.nonsing_size sc_size + min sc_size K.matrix.rows = n := by
  rw [nonsing_size, Nat.sub_add_cancel (min_le_right _ _), h.rows_eq]

lemma Stored.K_modif_eq_some_iff (h : K.Stored n) (hlib : lib.Sound) {A : SparseMatrix} :
    K.K_modif lib sc_size = some A ↔
      A = (K.matrix.scaled lib.sqrt).permuted (K.permVec lib sc_size) ∧ (K.oneBased ∨ n = 0) ∧
        ∀ i < n, ∃ v, SparseMatrix.firstValue K.matrix.csr i = some v ∧ v ≠ 0 := by
  have hscalable := SparseMatrix.scalable_iff h.upper h.ascending h.semidefinite hlib.sqrt
  have hscaling : ∀ B, K.matrix.diagonalScaling lib.sqrt = some B ↔ _ := fun B =>
    h.upper.diagonalScaling_eq_some_iff h.ascending
  have hempty : (∀ i < n, ∃ v, SparseMatrix.firstValue K.matrix.csr i = some v ∧ v ≠ 0) →
      (K.matrix.nnz = 0 ↔ n = 0) := by
    intro hfirst
    constructor
    · intro hnnz
      by_contra hn
      obtain ⟨v, hv, -⟩ := hfirst 0 (Nat.pos_of_ne_zero hn)
      have hflat : K.matrix.csr.flatten = [] :=
        List.flatten_eq_nil_iff.mpr (SparseMatrix.nnz_eq_zero_iff.mp hnnz)
      rw [SparseMatrix.firstValue, List.drop_zero, hflat] at hv
      cases hv
    · rintro rfl
      rw [SparseMatrix.nnz, List.length_eq_zero_iff.mp h.rows_eq]
      rfl
  rw [K_modif, Option.bind_eq_bind, Option.bind_eq_some_iff]
  constructor
  · rintro ⟨B, hB, hA⟩
    obtain ⟨rfl, hall⟩ := (hscaling B).mp hB
    have hfirst := hscalable.mp hall
    by_cases hread : K.oneBased ∨ K.matrix.nnz = 0
    · rw [if_pos hread] at hA
      exact ⟨(Option.some.inj hA).symm, by rwa [hempty hfirst] at hread, hfirst⟩
    · rw [if_neg hread] at hA
      cases hA
  · rintro ⟨rfl, hread, hfirst⟩
    refine ⟨_, (hscaling _).mpr ⟨rfl, hscalable.mpr hfirst⟩, if_pos ?_⟩
    rwa [hempty hfirst]

/-! ### The permuted matrix -/

lemma Stored.symEntry_K_modif (h : K.Stored n) (hlib : lib.Sound) {i j : ℕ} (hi : i < n)
    (hj : j < n) :
    ((K.matrix.scaled lib.sqrt).permuted (K.permVec lib sc_size)).symEntry i j
      = K.matrix.symEntry ((K.permVec lib sc_size).getD i 0) ((K.permVec lib sc_size).getD j 0)
        / (lib.sqrt (K.matrix.leadingValue ((K.permVec lib sc_size).getD i 0))
          * lib.sqrt (K.matrix.leadingValue ((K.permVec lib sc_size).getD j 0))) := by
  rw [h.upper.scaled.symEntry_permuted (h.permVec_perm hlib sc_size) hi hj,
    h.upper.symEntry_scaled h.ascending h.semidefinite hlib.sqrt]

lemma Stored.sqrt_ne_zero (h : K.Stored n) (hlib : lib.Sound)
    (hfirst : ∀ i < n, ∃ v, SparseMatrix.firstValue K.matrix.csr i = some v ∧ v ≠ 0) {i : ℕ}
    (hi : i < n) :
    ∃ v, SparseMatrix.firstValue K.matrix.csr i = some v ∧ lib.sqrt v ≠ 0 := by
  obtain ⟨v, hv, hne⟩ := hfirst i hi
  have hnonneg := h.upper.firstValue_nonneg h.ascending h.semidefinite hv
  exact ⟨v, hv, fun hzero => hne ((hlib.sqrt.eq_zero_iff v hnonneg).mp hzero)⟩

lemma Stored.nnz_rs_ne_zero_iff (h : K.Stored n) (hlib : lib.Sound) :
    (((K.matrix.scaled lib.sqrt).permuted (K.permVec lib sc_size)).getSubBlockmatrix_rs 0
      (K.nonsing_size sc_size) (K.nonsing_size sc_size) (min sc_size K.matrix.rows)).nnz ≠ 0 ↔
        K.Coupled lib sc_size n := by
  have hperm := h.permVec_perm hlib sc_size
  have hupper : (K.matrix.scaled lib.sqrt).Upper n := h.upper.scaled
  have hsize := h.nonsing_add sc_size
  have hidx : ∀ k < n, (K.permVec lib sc_size).idxOf k < n := fun k hk => by
    rw [← (by rw [hperm.length_eq, List.length_range] : (K.permVec lib sc_size).length = n)]
    exact List.idxOf_lt_length_of_mem (hperm.mem_iff.mpr (List.mem_range.mpr hk))
  have hcol : ∀ r, ∀ e ∈ K.matrix.rowAt r, e.1 < n := fun r e he =>
    h.upper.cols_eq ▸ h.upper.bounded.rowAt_below r e he
  rw [SparseMatrix.getSubBlockmatrix_rs, SparseMatrix.nnz_subBlock_ne_zero_iff]
  constructor
  · rintro ⟨i, hi, e, he, hle, -⟩
    obtain ⟨r, hr, e', he', hmin, hmax, -⟩ := (hupper.mem_rowAt_permuted hperm).mp he
    rw [SparseMatrix.rowAt_scaled] at he'
    obtain ⟨e'', he'', rfl⟩ := List.mem_map.mp he'
    refine ⟨r, hr, e'', he'', ?_⟩
    change min _ ((K.permVec lib sc_size).idxOf e''.1) = _ at hmin
    change max _ ((K.permVec lib sc_size).idxOf e''.1) = _ at hmax
    omega
  · rintro ⟨r, hr, e, he, hne⟩
    have hir := hidx r hr
    have hik := hidx e.1 (hcol r e he)
    have hmem : K.matrix.scaledEntry lib.sqrt r e ∈ (K.matrix.scaled lib.sqrt).rowAt r := by
      rw [SparseMatrix.rowAt_scaled]
      exact List.mem_map_of_mem he
    refine ⟨min ((K.permVec lib sc_size).idxOf r) ((K.permVec lib sc_size).idxOf e.1), by omega,
      (max ((K.permVec lib sc_size).idxOf r) ((K.permVec lib sc_size).idxOf e.1), _),
      (hupper.mem_rowAt_permuted hperm).mpr ⟨r, hr, _, hmem, rfl, rfl, rfl⟩, ?_, ?_⟩
    · dsimp only
      omega
    · dsimp only
      omega

/-- The rows of `[R_r; -R_s]` and the unknowns they belong to. -/
noncomputable def Stored.rowEquiv (h : K.Stored n) (hlib : lib.Sound) (sc_size : ℕ) :
    Fin (K.nonsing_size sc_size) ⊕ Fin (min sc_size K.matrix.rows) ≃ Fin n :=
  (finSumFinEquiv.trans (finCongr (h.nonsing_add sc_size))).trans
    (permEquiv (h.permVec_perm hlib sc_size))

lemma Stored.rowEquiv_inl (h : K.Stored n) (hlib : lib.Sound)
    (i : Fin (K.nonsing_size sc_size)) :
    (h.rowEquiv hlib sc_size (Sum.inl i)).val = (K.permVec lib sc_size).getD i 0 := rfl

lemma Stored.rowEquiv_inr (h : K.Stored n) (hlib : lib.Sound)
    (k : Fin (min sc_size K.matrix.rows)) : (h.rowEquiv hlib sc_size (Sum.inr k)).val
      = (K.permVec lib sc_size).getD (K.nonsing_size sc_size + k) 0 := rfl

lemma Stored.fromBlocks_eq (h : K.Stored n) (hlib : lib.Sound) {A : SparseMatrix}
    (hA : K.K_modif lib sc_size = some A)
    (a b : Fin (K.nonsing_size sc_size) ⊕ Fin (min sc_size K.matrix.rows)) :
    fromBlocks (KernelRoutines.rr A (K.nonsing_size sc_size))
        (KernelRoutines.rs A (K.nonsing_size sc_size) (min sc_size K.matrix.rows))
        (KernelRoutines.rs A (K.nonsing_size sc_size) (min sc_size K.matrix.rows))ᵀ
        (KernelRoutines.ss A (K.nonsing_size sc_size) (min sc_size K.matrix.rows)) a b
      = K.matrix.symMatrix n (h.rowEquiv hlib sc_size a) (h.rowEquiv hlib sc_size b)
        / (lib.sqrt (K.matrix.leadingValue (h.rowEquiv hlib sc_size a))
          * lib.sqrt (K.matrix.leadingValue (h.rowEquiv hlib sc_size b))) := by
  obtain ⟨hAeq, -⟩ := (h.K_modif_eq_some_iff hlib).mp hA
  have hsize := h.nonsing_add sc_size
  -- the position of an unknown in `K_modif`
  have hentry : ∀ i < n, ∀ j < n, A.symEntry i j
      = K.matrix.symEntry ((K.permVec lib sc_size).getD i 0) ((K.permVec lib sc_size).getD j 0)
        / (lib.sqrt (K.matrix.leadingValue ((K.permVec lib sc_size).getD i 0))
          * lib.sqrt (K.matrix.leadingValue ((K.permVec lib sc_size).getD j 0))) := by
    intro i hi j hj
    rw [hAeq]
    exact h.symEntry_K_modif hlib hi hj
  have hrs : ∀ (i : Fin (K.nonsing_size sc_size)) (k : Fin (min sc_size K.matrix.rows)),
      KernelRoutines.rs A (K.nonsing_size sc_size) (min sc_size K.matrix.rows) i k
        = A.symEntry i (K.nonsing_size sc_size + k) := by
    intro i k
    have hik : i.val ≤ K.nonsing_size sc_size + k := i.isLt.le.trans (Nat.le_add_right _ _)
    rw [SparseMatrix.symEntry, if_pos hik, add_comm]
    exact SparseMatrix.entry_subBlock i.isLt k.isLt
  have hfirst : ∀ i : Fin (K.nonsing_size sc_size), i.val < n := fun i => by omega
  have hlast : ∀ k : Fin (min sc_size K.matrix.rows), K.nonsing_size sc_size + k.val < n :=
    fun k => by omega
  rw [SparseMatrix.symMatrix_apply]
  rcases a with i | k <;> rcases b with j | l
  · rw [fromBlocks_apply₁₁, h.rowEquiv_inl, h.rowEquiv_inl, ← hentry i (hfirst i) j (hfirst j)]
    exact SparseMatrix.symEntry_getSubDiagBlockmatrix i.isLt j.isLt
  · rw [fromBlocks_apply₁₂, h.rowEquiv_inl, h.rowEquiv_inr, ← hentry i (hfirst i) _ (hlast l)]
    exact hrs i l
  · rw [fromBlocks_apply₂₁, h.rowEquiv_inr, h.rowEquiv_inl, ← hentry _ (hlast k) j (hfirst j),
      A.symEntry_comm]
    exact hrs j k
  · rw [fromBlocks_apply₂₂, h.rowEquiv_inr, h.rowEquiv_inr, ← hentry _ (hlast k) _ (hlast l),
      add_comm _ k.val, add_comm _ l.val]
    exact SparseMatrix.symEntry_getSubDiagBlockmatrix k.isLt l.isLt

lemma Stored.rs_eq_zero (h : K.Stored n) (hlib : lib.Sound) {A : SparseMatrix}
    (hA : K.K_modif lib sc_size = some A)
    (hnnz : (A.getSubDiagBlockmatrix (K.nonsing_size sc_size)
      (min sc_size K.matrix.rows)).nnz = 0) :
    KernelRoutines.rs A (K.nonsing_size sc_size) (min sc_size K.matrix.rows) = 0 := by
  obtain ⟨-, -, hfirst⟩ := (h.K_modif_eq_some_iff hlib).mp hA
  have hroot : ∀ j : Fin n, lib.sqrt (K.matrix.leadingValue j) ≠ 0 := by
    intro j
    obtain ⟨v, hv, hne⟩ := h.sqrt_ne_zero hlib hfirst j.isLt
    rwa [SparseMatrix.leadingValue, hv]
  ext i k
  have hdiagonal := h.fromBlocks_eq hlib hA (Sum.inr k) (Sum.inr k)
  have hzero :
      KernelRoutines.ss A (K.nonsing_size sc_size) (min sc_size K.matrix.rows) k k = 0 := by
    change SparseMatrix.symEntry _ _ _ = 0
    rw [SparseMatrix.symEntry, if_pos le_rfl, SparseMatrix.entry_of_nnz hnnz]
  rw [fromBlocks_apply₂₂, hzero, eq_comm, div_eq_zero_iff] at hdiagonal
  have hK := hdiagonal.resolve_right (mul_ne_zero (hroot _) (hroot _))
  have hcoupled := h.fromBlocks_eq hlib hA (Sum.inr k) (Sum.inl i)
  rw [h.semidefinite.apply_eq_zero (K.matrix.symMatrix_comm n) hK, zero_div] at hcoupled
  exact hcoupled

/-- **The extended kernel**, put back and scaled, is a basis of the kernel of the matrix. -/
theorem Stored.exists_basis (h : K.Stored n) (hlib : lib.Sound) (hexact : K.Exact lib sc_size)
    {A : SparseMatrix} (hA : K.K_modif lib sc_size = some A) :
    ∃ S, lib.schurComplement A (K.nonsing_size sc_size) (min sc_size K.matrix.rows) = some S ∧
      S.rows = min sc_size K.matrix.rows ∧
      KernelBasis (K.matrix.symMatrix n) (Matrix.of fun (j : Fin n) (c : Fin (lib.R_s S).cols) =>
        lib.extended A S _ _ ((h.rowEquiv hlib sc_size).symm j) c
          / lib.sqrt (K.matrix.leadingValue j)) := by
  obtain ⟨-, -, hfirst⟩ := (h.K_modif_eq_some_iff hlib).mp hA
  have hsolve := hexact.solve A hA
  obtain ⟨S, hS, hrows, hentry⟩ := KernelRoutines.schurComplement_eq hsolve (h.rs_eq_zero hlib hA)
  have hkernel := KernelRoutines.kernelBasis_lastRows hrows hentry (hexact.kernel A S hA hS)
  have hextended := KernelBasis.of_schur
    (hsolve.isUnit_det SparseMatrix.rows_subBlock) hkernel
  rw [Matrix.mul_assoc] at hextended
  refine ⟨S, hS, hrows, KernelBasis.of_scaled (h.rowEquiv hlib sc_size)
    (d := fun j => lib.sqrt (K.matrix.leadingValue j)) (fun j => ?_) (h.fromBlocks_eq hlib hA) ?_
    hextended⟩
  · obtain ⟨v, hv, hne⟩ := h.sqrt_ne_zero hlib hfirst j.isLt
    rwa [SparseMatrix.leadingValue, hv]
  · intro a c
    rw [of_apply, Equiv.symm_apply_apply]
    rfl

lemma nnz_R_s_ne_zero {S : PackedMatrix} (h : KernelBasis S.toMatrix (lib.R_s S).columns)
    (hcols : (lib.R_s S).cols ≠ 0) : (lib.R_s S).convertDenseToCSR.nnz ≠ 0 := by
  intro hnnz
  have hzero := DenseMatrix.nnz_convertDenseToCSR_eq_zero_iff.mp hnnz
  obtain ⟨v, hv⟩ : ∃ v : Fin (lib.R_s S).cols → ℚ,
      v = Pi.single ⟨0, Nat.pos_of_ne_zero hcols⟩ 1 := ⟨_, rfl⟩
  have hv0 : v = 0 := by
    refine h.injective v (funext fun i => ?_)
    change ∑ c, (lib.R_s S).columns i c * v c = 0
    refine Finset.sum_eq_zero fun c _ => ?_
    have hentry : (lib.R_s S).columns i c = 0 := hzero i i.isLt c c.isLt
    rw [hentry, zero_mul]
  have hone := congrFun hv0 ⟨0, Nat.pos_of_ne_zero hcols⟩
  rw [hv, Pi.single_eq_same] at hone
  exact one_ne_zero hone

lemma Stored.columns_kplus (h : K.Stored n) (hlib : lib.Sound) {A : SparseMatrix} {S : PackedMatrix}
    (hsolve : lib.SolvesExactly (A.getSubDiagBlockmatrix 0 (K.nonsing_size sc_size)))
    (hrows : S.rows = min sc_size K.matrix.rows) (hnnz : (lib.R_s S).convertDenseToCSR.nnz ≠ 0)
    (hrest : K.nonsing_size sc_size = 0 ∨ (A.getSubBlockmatrix_rs 0 (K.nonsing_size sc_size)
      (K.nonsing_size sc_size) (min sc_size K.matrix.rows)).nnz ≠ 0)
    (hfirst : ∀ i < n, ∃ v, SparseMatrix.firstValue K.matrix.csr i = some v ∧ lib.sqrt v ≠ 0) :
    ∃ values, lib.kplus K.matrix (K.permVec lib sc_size)
        (lib.R_r A (K.nonsing_size sc_size) (min sc_size K.matrix.rows) (lib.R_s S)) (lib.R_s S)
          = some ⟨n, (lib.R_s S).cols, values⟩ ∧
      DenseMatrix.columns ⟨n, (lib.R_s S).cols, values⟩
        = Matrix.of fun (j : Fin n) (c : Fin (lib.R_s S).cols) =>
          lib.extended A S _ _ ((h.rowEquiv hlib sc_size).symm j) c
            / lib.sqrt (K.matrix.leadingValue j) := by
  have hsize := h.nonsing_add sc_size
  have hR_r : (lib.R_r A (K.nonsing_size sc_size) (min sc_size K.matrix.rows) (lib.R_s S)).rows
      = K.nonsing_size sc_size := by
    rw [KernelRoutines.rows_R_r]
    split_ifs with hnone
    · rcases hnone with hm | hrs | hnone
      · exact hm.symm
      · exact (hrest.resolve_right fun hne => hne hrs).symm
      · exact absurd hnone hnnz
    · rfl
  have hheight : (lib.R_r A (K.nonsing_size sc_size) (min sc_size K.matrix.rows) (lib.R_s S)).rows
      + (lib.R_s S).rows = n := by
    rw [hR_r]
    exact (congrArg (_ + ·) hrows).trans hsize
  obtain ⟨⟨rows, cols, values⟩, hkplus, hDrows, hDcols, hentry⟩ := KernelRoutines.kplus_eq
    (h.permVec_perm hlib sc_size) hfirst hheight
  obtain rfl : rows = n := hDrows
  obtain rfl : cols = (lib.R_s S).cols := hDcols
  refine ⟨values, hkplus, ?_⟩
  ext j c
  obtain ⟨a, rfl⟩ := (h.rowEquiv hlib sc_size).surjective j
  rw [of_apply, Equiv.symm_apply_apply]
  rcases a with i | k
  · refine (hentry i (by omega) c c.isLt).trans (congrArg (· / _) ?_)
    rw [hR_r, if_pos i.isLt]
    have hm : K.nonsing_size sc_size ≠ 0 := fun hm => absurd i.isLt (by omega)
    exact KernelRoutines.entry_R_r hsolve hrows hm (hrest.resolve_left hm) hnnz i c
  · refine (hentry (K.nonsing_size sc_size + k) (by omega) c c.isLt).trans (congrArg (· / _) ?_)
    rw [hR_r, if_neg (Nat.not_lt.mpr (Nat.le_add_right _ _)), Nat.add_sub_cancel_left]
    rfl

lemma RightKernel.of_basis {values : ℕ → ℚ} {q : ℕ}
    (h : KernelBasis (K.matrix.symMatrix n) (DenseMatrix.columns ⟨n, q, values⟩)) :
    K.RightKernel n ⟨n, q, values⟩ := by
  refine ⟨(h.finrank_eq.trans (Fintype.card_fin q)).symm, fun _ => rfl, fun c hc => ?_⟩
  have hcol := h.mulVec_eq_zero (Pi.single ⟨c, hc⟩ 1)
  rwa [mulVec_single_one] at hcol

lemma get_kernel_from_K_eq {A : SparseMatrix} {S : PackedMatrix}
    (hA : K.K_modif lib sc_size = some A)
    (hS : lib.schurComplement A (K.nonsing_size sc_size) (min sc_size K.matrix.rows) = some S) :
    K.get_kernel_from_K lib sc_size = if (lib.R_s S).cols = 0 then some ⟨0, 0, fun _ => 0⟩
      else (lib.kplus K.matrix (K.permVec lib sc_size)
        (lib.R_r A (K.nonsing_size sc_size) (min sc_size K.matrix.rows) (lib.R_s S))
        (lib.R_s S)).bind (DenseMatrix.gramSchmidtOrtho lib.sqrt) := by
  rw [get_kernel_from_K, hA, Option.bind_eq_bind, Option.bind_some]
  dsimp only
  rw [hS, Option.bind_eq_bind, Option.bind_some]
  rfl

lemma size_of_kplus {K : SparseMatrix} {permVec : List ℕ} {R_r R_s D : DenseMatrix}
    (h : (lib.kplus K permVec R_r R_s).bind (DenseMatrix.gramSchmidtOrtho lib.sqrt) = some D) :
    D.rows = R_r.rows + R_s.rows ∧ D.cols = R_s.cols := by
  obtain ⟨D₀, hD₀, hD⟩ := Option.bind_eq_some_iff.mp h
  rw [DenseMatrix.gramSchmidtOrtho, Option.map_eq_some_iff] at hD
  obtain ⟨qs, -, rfl⟩ := hD
  rw [KernelRoutines.kplus, Option.bind_eq_bind, Option.bind_eq_some_iff] at hD₀
  obtain ⟨writes, -, hD₀⟩ := hD₀
  obtain ⟨values, -, hD₀⟩ := Option.bind_eq_some_iff.mp hD₀
  obtain rfl := Option.some.inj hD₀
  exact ⟨rfl, rfl⟩

/-- **Where the code is right**: the columns are a basis of the kernel. -/
theorem Stored.exists_rightKernel (h : K.Stored n) (hlib : lib.Sound)
    (hexact : K.Exact lib sc_size) {A : SparseMatrix} (hA : K.K_modif lib sc_size = some A)
    (hrest : n ≤ sc_size ∨ K.Coupled lib sc_size n ∨
      Module.finrank ℚ (LinearMap.ker (K.matrix.symMatrix n).mulVecLin) = 0) :
    ∃ Kplus_R, K.get_kernel_from_K lib sc_size = some Kplus_R ∧ K.RightKernel n Kplus_R ∧
      LinearIndependent ℚ Kplus_R.columns.col := by
  obtain ⟨hAeq, -, hfirst⟩ := (h.K_modif_eq_some_iff hlib).mp hA
  obtain ⟨S, hS, hrows, hbasis⟩ := h.exists_basis hlib hexact hA
  have hdefect : Module.finrank ℚ (LinearMap.ker (K.matrix.symMatrix n).mulVecLin)
      = (lib.R_s S).cols := hbasis.finrank_eq.trans (Fintype.card_fin _)
  have hsize := h.nonsing_add sc_size
  rw [get_kernel_from_K_eq hA hS]
  by_cases hcols : (lib.R_s S).cols = 0
  · rw [if_pos hcols]
    exact ⟨_, rfl, ⟨(hdefect.trans hcols).symm, fun hne => absurd rfl hne,
      fun c hc => absurd hc (Nat.not_lt_zero c)⟩, linearIndependent_empty_type⟩
  · rw [if_neg hcols]
    have hcoupled : K.nonsing_size sc_size = 0 ∨ (A.getSubBlockmatrix_rs 0 (K.nonsing_size sc_size)
        (K.nonsing_size sc_size) (min sc_size K.matrix.rows)).nnz ≠ 0 := by
      rcases hrest with hle | hcoupled | hzero
      · exact Or.inl (by rw [nonsing_size, h.rows_eq, min_eq_right hle, Nat.sub_self])
      · exact Or.inr (hAeq ▸ (h.nnz_rs_ne_zero_iff hlib).mpr hcoupled)
      · exact absurd (hdefect.symm.trans hzero) hcols
    obtain ⟨values, hkplus, hcolumns⟩ := h.columns_kplus hlib (hexact.solve A hA) hrows
      (nnz_R_s_ne_zero (hexact.kernel A S hA hS) hcols) hcoupled
      (fun i hi => h.sqrt_ne_zero hlib hfirst hi)
    have hsqrt : ∀ x, 0 < x → lib.sqrt x ≠ 0 := fun x hx hzero =>
      hx.ne' ((hlib.sqrt.eq_zero_iff x hx.le).mp hzero)
    have hcode_basis : KernelBasis (K.matrix.symMatrix n)
        (DenseMatrix.columns ⟨n, (lib.R_s S).cols, values⟩) := hcolumns.symm ▸ hbasis
    obtain ⟨values', hortho, hbasis'⟩ := DenseMatrix.exists_gramSchmidtOrtho
      ⟨n, (lib.R_s S).cols, values⟩ hsqrt hcode_basis
    rw [hkplus, Option.bind_some, hortho]
    exact ⟨_, rfl, RightKernel.of_basis hbasis', hbasis'.linearIndependent⟩

/-- **When the code finds the kernel**: the arrays count from 1, no value at the beginning of a row
is missing or zero, and an entry couples the two parts, if there are two and the matrix is singular.
-/
theorem rightKernel_iff (h : K.Stored n) (hlib : lib.Sound) (hexact : K.Exact lib sc_size) :
    (∃ Kplus_R, K.get_kernel_from_K lib sc_size = some Kplus_R ∧ K.RightKernel n Kplus_R) ↔
      (K.oneBased ∨ n = 0) ∧
        (∀ i < n, ∃ v, SparseMatrix.firstValue K.matrix.csr i = some v ∧ v ≠ 0) ∧
        (n ≤ sc_size ∨ K.Coupled lib sc_size n ∨
          Module.finrank ℚ (LinearMap.ker (K.matrix.symMatrix n).mulVecLin) = 0) := by
  constructor
  · rintro ⟨Kplus_R, hget, hright⟩
    obtain ⟨A, hA, -⟩ := Option.bind_eq_some_iff.mp hget
    obtain ⟨hAeq, hread, hfirst⟩ := (h.K_modif_eq_some_iff hlib).mp hA
    refine ⟨hread, hfirst, ?_⟩
    by_contra hnone
    rw [not_or, not_or, not_le] at hnone
    obtain ⟨hlt, huncoupled, hsingular⟩ := hnone
    obtain ⟨S, hS, hrows, hbasis⟩ := h.exists_basis hlib hexact hA
    have hcols : (lib.R_s S).cols ≠ 0 := by
      rwa [← hbasis.finrank_eq.trans (Fintype.card_fin _)]
    rw [get_kernel_from_K_eq hA hS, if_neg hcols] at hget
    obtain ⟨hheight, hwidth⟩ := size_of_kplus hget
    -- the product of the columns with an empty block has no rows
    have hempty : (A.getSubBlockmatrix_rs 0 (K.nonsing_size sc_size) (K.nonsing_size sc_size)
        (min sc_size K.matrix.rows)).nnz = 0 := by
      by_contra hne
      exact huncoupled ((h.nnz_rs_ne_zero_iff hlib).mp (hAeq ▸ hne))
    rw [KernelRoutines.rows_R_r, if_pos (Or.inr (Or.inl hempty)), Nat.zero_add] at hheight
    have hheight' : Kplus_R.rows = min sc_size K.matrix.rows := hheight.trans hrows
    rw [hright.rows (hwidth.symm ▸ hcols), h.rows_eq] at hheight'
    omega
  · rintro ⟨hread, hfirst, hrest⟩
    obtain ⟨Kplus_R, hget, hright, -⟩ := h.exists_rightKernel hlib hexact
      ((h.K_modif_eq_some_iff hlib).mpr ⟨rfl, hread, hfirst⟩) hrest
    exact ⟨Kplus_R, hget, hright⟩

end BasedMatrix

/-! ## A small matrix -/

/-- Three unknowns with the kernel `(1, 2, 2)`. -/
def threeUnknowns : SparseMatrix :=
  ⟨3, [[(0, 1), (1, -1 / 4), (2, -1 / 4)], [(1, 1), (2, -7 / 8)], [(2, 1)]]⟩

/-- Routines for this matrix, the unknowns of which all belong to the Schur complement: the matrix
has the eigenvalues `0`, `9 / 8` and `15 / 8`, and of the lengths zero and one the roots are needed.
-/
def threeRoutines : KernelRoutines where
  sqrt := id
  random_shuffle := id
  solve := fun _ b => b
  LAPACKE_dspev := fun _ =>
    (fun i => [0, 9 / 8, 15 / 8].getD i 0, fun k => [1 / 3, 2 / 3, 2 / 3].getD k 0)

lemma threeRoutines_sound : threeRoutines.Sound :=
  ⟨⟨fun _ _ => Iff.rfl, fun _ _ _ _ => rfl⟩, fun _ => List.Perm.refl _⟩

lemma threeUnknowns_upper : threeUnknowns.Upper 3 := by
  have hrows : ∀ i < 3, ∀ e ∈ threeUnknowns.rowAt i, i ≤ e.1 := by decide
  refine ⟨rfl, rfl, ?_, fun i e he => ?_⟩
  · change ∀ row ∈ threeUnknowns.csr, ∀ e ∈ row, e.1 < 3
    decide
  · rcases lt_or_ge i 3 with hi | hi
    · exact hrows i hi e he
    · rw [SparseMatrix.rowAt_eq_nil hi] at he
      cases he

lemma threeUnknowns_ascending : threeUnknowns.Ascending := by
  unfold SparseMatrix.Ascending
  decide

lemma threeUnknowns_symMatrix : threeUnknowns.symMatrix 3
    = !![1, -1 / 4, -1 / 4; -1 / 4, 1, -7 / 8; -1 / 4, -7 / 8, 1] := by
  have hentries : ∀ i j : Fin 3, threeUnknowns.symEntry i j
      = ![![1, -1 / 4, -1 / 4], ![-1 / 4, 1, -7 / 8], ![-1 / 4, -7 / 8, 1]] i j := by
    decide +kernel
  ext i j
  exact hentries i j

lemma threeUnknowns_mulVec (x : Fin 3 → ℚ) : threeUnknowns.symMatrix 3 *ᵥ x
    = ![x 0 - x 1 / 4 - x 2 / 4, -x 0 / 4 + x 1 - 7 / 8 * x 2, -x 0 / 4 - 7 / 8 * x 1 + x 2] := by
  rw [threeUnknowns_symMatrix]
  ext i
  fin_cases i <;> simp [Matrix.mulVec, dotProduct, Fin.sum_univ_three] <;> ring

lemma threeUnknowns_stored (oneBased : Bool) : BasedMatrix.Stored ⟨threeUnknowns, oneBased⟩ 3 := by
  refine ⟨threeUnknowns_upper, threeUnknowns_ascending, fun x => ?_⟩
  rw [threeUnknowns_mulVec, dotProduct, Fin.sum_univ_three]
  simp only [Matrix.cons_val_zero, Matrix.cons_val_one, Matrix.cons_val]
  nlinarith [sq_nonneg (x 1 + x 2 - 4 * x 0), sq_nonneg (x 1 - x 2)]

lemma threeUnknowns_kernelBasis {q : ℕ} (hq : q = 1) {R : Matrix (Fin 3) (Fin q) ℚ}
    (hR : ∀ i c, R i c = ![1 / 3, 2 / 3, 2 / 3] i) :
    KernelBasis (threeUnknowns.symMatrix 3) R := by
  subst hq
  have hcolumn : ∀ v, R *ᵥ v = ![1 / 3 * v 0, 2 / 3 * v 0, 2 / 3 * v 0] := by
    intro v
    ext i
    rw [mulVec, dotProduct, Fin.sum_univ_one, hR]
    fin_cases i <;> rfl
  refine ⟨fun v => ?_, fun v hv => ?_, fun x hx => ?_⟩
  · rw [hcolumn, threeUnknowns_mulVec]
    ext i
    fin_cases i <;> simp <;> ring
  · rw [hcolumn] at hv
    have hfirst : 1 / 3 * v 0 = 0 := congrFun hv 0
    ext c
    obtain rfl := Subsingleton.elim c 0
    rw [Pi.zero_apply]
    linarith
  · rw [threeUnknowns_mulVec] at hx
    have hx0 : x 0 - x 1 / 4 - x 2 / 4 = 0 := congrFun hx 0
    have hx1 : -x 0 / 4 + x 1 - 7 / 8 * x 2 = 0 := congrFun hx 1
    refine ⟨fun _ => 3 * x 0, ?_⟩
    rw [hcolumn]
    ext i
    fin_cases i
    · change 1 / 3 * (3 * x 0) = x 0
      ring
    · change 2 / 3 * (3 * x 0) = x 1
      linarith
    · change 2 / 3 * (3 * x 0) = x 2
      linarith

lemma threeRoutines_kernel {S : PackedMatrix} (hrows : S.rows = 3)
    (hentry : ∀ k l : Fin 3, S.entry k l = threeUnknowns.symMatrix 3 k l) :
    KernelBasis S.toMatrix (threeRoutines.R_s S).columns := by
  obtain ⟨rows, dense_values⟩ := S
  obtain rfl : rows = 3 := hrows
  obtain ⟨q, hq⟩ : ∃ q, q = (threeRoutines.R_s ⟨3, dense_values⟩).cols := ⟨_, rfl⟩
  have hcols : (threeRoutines.R_s ⟨3, dense_values⟩).cols = 1 := by
    change KernelRoutines.defect_K_in (fun i => [0, 9 / 8, 15 / 8].getD i 0) 3 = 1
    decide +kernel
  have hS : PackedMatrix.toMatrix ⟨3, dense_values⟩ = threeUnknowns.symMatrix 3 := by
    ext k l
    exact hentry k l
  rw [hS]
  refine threeUnknowns_kernelBasis hcols fun i c => ?_
  have hc : c.val = 0 := by omega
  change [(1 : ℚ) / 3, 2 / 3, 2 / 3].getD (c * 3 + i) 0 = _
  rw [hc]
  fin_cases i <;> rfl

lemma threeUnknowns_exact (oneBased : Bool) :
    BasedMatrix.Exact threeRoutines ⟨threeUnknowns, oneBased⟩ 50 := by
  have h := threeUnknowns_stored oneBased
  have hsolve : ∀ A : SparseMatrix, threeRoutines.SolvesExactly (A.getSubDiagBlockmatrix 0 0) :=
    fun A b i hi => absurd (lt_of_lt_of_eq hi SparseMatrix.rows_subBlock) (Nat.not_lt_zero i)
  refine ⟨fun A _ => hsolve A, fun A S hA hS => ?_⟩
  obtain ⟨S', hS', hrows, hentry⟩ := KernelRoutines.schurComplement_eq (hsolve A)
    (h.rs_eq_zero threeRoutines_sound hA)
  obtain rfl : S' = S := Option.some.inj (hS'.symm.trans hS)
  have hdiagonal : ∀ i : Fin 3, threeRoutines.sqrt (threeUnknowns.leadingValue i) = 1 := by
    decide +kernel
  have hvalue : ∀ i j : Fin 3, threeUnknowns.symMatrix 3 i j
      / (threeRoutines.sqrt (threeUnknowns.leadingValue i)
        * threeRoutines.sqrt (threeUnknowns.leadingValue j)) = threeUnknowns.symMatrix 3 i j := by
    intro i j
    rw [hdiagonal, hdiagonal, one_mul, div_one]
  have hrow : ∀ k : Fin 3, h.rowEquiv threeRoutines_sound 50 (Sum.inr k) = k := by
    intro k
    ext
    change (BasedMatrix.permVec threeRoutines ⟨threeUnknowns, oneBased⟩ 50).getD (0 + k) 0 = k
    cases oneBased <;> fin_cases k <;> decide
  have hss : ∀ k l : Fin 3, KernelRoutines.ss A 0 3 k l = threeUnknowns.symMatrix 3 k l := by
    intro k l
    refine (h.fromBlocks_eq threeRoutines_sound hA (Sum.inr k) (Sum.inr l)).trans
      ((hvalue _ _).trans ?_)
    exact congrArg₂ _ (hrow k) (hrow l)
  exact threeRoutines_kernel hrows fun k l => (hentry k l).trans
    ((congrFun (congrFun (KernelRoutines.ss_sub_of_empty A 3) k) l).trans (hss k l))

namespace BasedMatrix

/-- The three unknowns with arrays that count from 1. -/
theorem rightKernel_threeUnknowns :
    ∃ Kplus_R, get_kernel_from_K threeRoutines ⟨threeUnknowns, true⟩ 50 = some Kplus_R ∧
      RightKernel ⟨threeUnknowns, true⟩ 3 Kplus_R :=
  (rightKernel_iff (threeUnknowns_stored true) threeRoutines_sound (threeUnknowns_exact true)).mpr
    ⟨Or.inl rfl, by
      have hfirst : ∀ i < 3, (SparseMatrix.firstValue threeUnknowns.csr i) = some 1 := by
        decide +kernel
      exact fun i hi => ⟨1, hfirst i hi, one_ne_zero⟩, Or.inl (by decide)⟩

/-- **The same matrix with arrays that count from 0**: the conversion to the coordinate format reads
in front of the arrays. -/
theorem not_rightKernel_threeUnknowns :
    Stored ⟨threeUnknowns, false⟩ 3 ∧ threeRoutines.Sound ∧
      Exact threeRoutines ⟨threeUnknowns, false⟩ 50 ∧
      ¬∃ Kplus_R, get_kernel_from_K threeRoutines ⟨threeUnknowns, false⟩ 50 = some Kplus_R ∧
        RightKernel ⟨threeUnknowns, false⟩ 3 Kplus_R := by
  refine ⟨threeUnknowns_stored false, threeRoutines_sound, threeUnknowns_exact false, ?_⟩
  rintro ⟨Kplus_R, hget, -⟩
  obtain ⟨A, hA, -⟩ := Option.bind_eq_some_iff.mp hget
  obtain ⟨-, hread, -⟩ :=
    ((threeUnknowns_stored false).K_modif_eq_some_iff threeRoutines_sound).mp hA
  rcases hread with h | h
  · cases h
  · cases h

end BasedMatrix

end Espreso
