import Espreso.Lib.Fallible
import Espreso.Solver.ClusterSolves

/-!
# The kernel correction of the hybrid FETI method

`ClusterBase::CreateSa` multiplies the kernel of every domain with rows of the kernel of the Schur
complement.  It takes the rows of a domain as if all domains had as many kernel vectors as the Schur
complement; the operator itself counts them by `kerindices`.

* `Cluster.CorrectsKernel` — what the kernels have to be; `Cluster.Uniform`, when the rows agree.
* **`Cluster.correctsKernel_iff`** — the correction is right exactly for uniform kernels.
-/

namespace Espreso

open Finset

/-! ## The code -/

namespace SparseMatrix

/-- `CreateMatFromRowsFromMatrix_NewSize` into a new matrix; rows are numbered from 1. -/
def createMatFromRows (A : SparseMatrix) (rows_to_add : List ℕ) : Option SparseMatrix :=
  if 0 < A.nnz then (rows_to_add.mapM fun row => A.csr[row - 1]?).map (SparseMatrix.mk A.cols)
  else some empty

/-- `MatMat(A, 'N', B)` into a new matrix; a column of `A` without a row of `B` reads out of
bounds. -/
def matMatRead (A B : SparseMatrix) : Option SparseMatrix :=
  if 0 < A.nnz ∧ 0 < B.nnz ∧ ¬∀ row ∈ A.csr, ∀ e ∈ row, e.1 < B.rows then none
  else some (A.matMat B)

end SparseMatrix

namespace Cluster

variable (c : Cluster) (r : ℕ) (Kernel_Sa : SparseMatrix)

def rows_inds (d : ℕ) : List ℕ :=
  (List.range Kernel_Sa.cols).map fun i => 1 + d * Kernel_Sa.cols + i

/-- **The kernel correction** of a symmetric system in `ClusterBase::CreateSa`: `Kplus_Rb` of a
domain, which was `Kplus_R` before. -/
def correctKernel (d : ℕ) : Option DenseMatrix :=
  (Kernel_Sa.createMatFromRows (rows_inds Kernel_Sa d)).bind fun tR =>
  ((c.domains d).Kplus_R.convertDenseToCSR.matMatRead tR).map fun TmpR =>
    if TmpR.nnz = 0 then (c.domains d).Kplus_R else DenseMatrix.ofSparse TmpR

/-! ## What it has to do -/

/-- The columns of `Kernel_Sa` lie in the kernel of `G0ᵀ`. -/
def IsKernel : Prop :=
  ∀ l < r, ∀ j < Kernel_Sa.cols,
    ∑ q ∈ range c.createG0.rows, c.createG0.entry q l * Kernel_Sa.entry q j = 0

/-- `Rb` is the kernel of a domain times the rows of `Kernel_Sa` from `kerindices` on. -/
structure Corrected (d : ℕ) (Rb : DenseMatrix) : Prop where
  rows : Rb.rows = (c.domains d).Kplus_R.rows
  cols : Rb.cols = Kernel_Sa.cols
  entry : ∀ i < (c.domains d).Kplus_R.rows, ∀ j < Kernel_Sa.cols,
    Rb.entry i j = ∑ q ∈ range (c.domains d).Kplus_R.cols,
      (c.domains d).Kplus_R.entry i q * Kernel_Sa.entry (c.kerindices d + q) j

/-- The correction gives every domain its kernel, and the corrected kernels glue. -/
def CorrectsKernel : Prop :=
  ∃ Rb : ℕ → DenseMatrix,
    (∀ d < c.domains_size, c.correctKernel Kernel_Sa d = some (Rb d) ∧
      c.Corrected Kernel_Sa d (Rb d)) ∧
    (c.IsKernel r Kernel_Sa → ∀ l < r, ∀ j < Kernel_Sa.cols,
      ∑ d ∈ range c.domains_size, ∑ i ∈ range (c.domains d).domain_prim_size,
        (c.domains d).B0.entry l i * (Rb d).entry i j = 0)

/-- All domains have as many kernel vectors as the Schur complement; if there are any, every domain
has rows in `G0` and its rows of `Kernel_Sa` store something. -/
def Uniform : Prop :=
  ∀ d < c.domains_size, (c.domains d).Kplus_R.cols = Kernel_Sa.cols ∧
    (Kernel_Sa.cols ≠ 0 → (c.domains d).G0LocalTemp.nnz ≠ 0 ∧
      ∃ q < Kernel_Sa.cols, Kernel_Sa.rowAt (d * Kernel_Sa.cols + q) ≠ [])

def NonzeroKernels : Prop :=
  ∀ d < c.domains_size, ∀ j < (c.domains d).Kplus_R.cols,
    ∃ i < (c.domains d).Kplus_R.rows, (c.domains d).Kplus_R.entry i j ≠ 0

end Cluster

/-! ## The selected rows -/

namespace SparseMatrix

variable {A B : SparseMatrix}

lemma Bounded.cols_pos (hA : A.Bounded) (hnnz : A.nnz ≠ 0) : 0 < A.cols := by
  by_contra hcols
  refine hnnz (nnz_eq_zero_iff.mpr fun row hrow => ?_)
  refine List.eq_nil_iff_forall_not_mem.mpr fun e he => ?_
  have := hA row hrow e he
  omega

lemma createMatFromRows_eq {d : ℕ} (hnnz : A.nnz ≠ 0) (hrows : d * A.cols + A.cols ≤ A.rows) :
    A.createMatFromRows (Cluster.rows_inds A d)
      = some ⟨A.cols, (List.range A.cols).map fun q => A.rowAt (d * A.cols + q)⟩ := by
  rw [createMatFromRows, if_pos (by omega), Cluster.rows_inds, List.mapM_map]
  refine congrArg (Option.map _) (Fallible.mapM_eq_some fun q hq => ?_)
  have hlt : d * A.cols + q < A.csr.length :=
    lt_of_lt_of_le (Nat.add_lt_add_left (List.mem_range.mp hq) _) hrows
  rw [Function.comp_apply, show 1 + d * A.cols + q - 1 = d * A.cols + q by omega,
    List.getElem?_eq_getElem hlt, rowAt, List.getD_eq_getElem _ _ hlt]

lemma le_rows_of_createMatFromRows {d : ℕ} (hnnz : A.nnz ≠ 0) (hcols : 0 < A.cols)
    (h : A.createMatFromRows (Cluster.rows_inds A d) = some B) :
    d * A.cols + A.cols ≤ A.rows := by
  rw [createMatFromRows, if_pos (by omega)] at h
  obtain ⟨csr, hcsr, -⟩ := Option.map_eq_some_iff.mp h
  have hmem : 1 + d * A.cols + (A.cols - 1) ∈ Cluster.rows_inds A d :=
    List.mem_map.mpr ⟨A.cols - 1, List.mem_range.mpr (by omega), rfl⟩
  obtain ⟨row, hrow⟩ := Fallible.exists_of_mapM hcsr hmem
  have hlt : 1 + d * A.cols + (A.cols - 1) - 1 < A.rows := (List.getElem?_eq_some_iff.mp hrow).1
  omega

lemma entry_selected {cols k start : ℕ} {q : ℕ} (hq : q < k) (j : ℕ) :
    entry ⟨cols, (List.range k).map fun q => A.rowAt (start + q)⟩ q j = A.entry (start + q) j := by
  rw [entry, rowAt_map_range, if_pos hq, entry]

lemma selected_bounded (hA : A.Bounded) {k start : ℕ} :
    Bounded ⟨A.cols, (List.range k).map fun q => A.rowAt (start + q)⟩ := by
  intro row hrow
  obtain ⟨q, -, rfl⟩ := List.mem_map.mp hrow
  exact hA.rowAt_below _

lemma nnz_matMat {i q : ℕ} (hB : B.Bounded) (hA : ∃ e ∈ A.rowAt i, e.1 = q)
    (hq : B.rowAt q ≠ []) : (A.matMat B).nnz ≠ 0 := by
  obtain ⟨e, he, rfl⟩ := hA
  have hA0 : A.nnz ≠ 0 := fun h => by
    rw [rowAt_of_nnz h] at he
    exact absurd he List.not_mem_nil
  have hB0 : B.nnz ≠ 0 := fun h => hq (rowAt_of_nnz h _)
  have hi : i < A.rows := by
    by_contra hge
    rw [rowAt_eq_nil (by omega)] at he
    exact absurd he List.not_mem_nil
  rw [matMat, if_pos ⟨by omega, by omega⟩]
  intro h
  have hnil := nnz_eq_zero_iff.mp h _ (List.mem_map_of_mem (rowAt_mem hi))
  rw [Row.collect_eq_nil_iff] at hnil
  · exact hq (List.map_eq_nil_iff.mp (List.flatMap_eq_nil_iff.mp hnil e he))
  · intro e' he'
    obtain ⟨e₁, -, he₁⟩ := List.mem_flatMap.mp he'
    obtain ⟨e₂, he₂, rfl⟩ := List.mem_map.mp he₁
    exact hB.rowAt_below _ e₂ he₂

lemma lt_rows_of_matMatRead {C : SparseMatrix} (h : A.matMatRead B = some C) (hC : C.nnz ≠ 0)
    {i : ℕ} {e : ℕ × ℚ} (he : e ∈ A.rowAt i) : e.1 < B.rows := by
  have hi : i < A.rows := by
    by_contra hge
    rw [rowAt_eq_nil (by omega)] at he
    exact absurd he List.not_mem_nil
  rw [matMatRead] at h
  split_ifs at h with hread
  obtain rfl := Option.some.inj h
  rw [matMat] at hC
  split_ifs at hC with hnnz
  · by_contra hge
    exact hread ⟨hnnz.1, hnnz.2, fun hall => hge (hall _ (rowAt_mem hi) e he)⟩
  · exact absurd rfl hC

lemma matMatRead_eq_some {C : SparseMatrix} (h : A.matMatRead B = some C) : C = A.matMat B := by
  rw [matMatRead] at h
  split_ifs at h
  exact (Option.some.inj h).symm

end SparseMatrix

namespace DenseMatrix

variable {D : DenseMatrix}

lemma mem_convertDenseToCSR {i j : ℕ} (hi : i < D.rows) (hj : j < D.cols) (h : D.entry i j ≠ 0) :
    (j, D.entry i j) ∈ D.convertDenseToCSR.rowAt i := by
  rw [convertDenseToCSR, SparseMatrix.rowAt_map_range, if_pos hi]
  exact List.mem_filterMap.mpr ⟨j, List.mem_range.mpr hj, if_pos h⟩

end DenseMatrix

/-! ## One domain -/

namespace Cluster

variable {c : Cluster} {r : ℕ} {Kernel_Sa : SparseMatrix}

lemma correctKernel_of_nnz (h : Kernel_Sa.nnz = 0) (d : ℕ) :
    c.correctKernel Kernel_Sa d = some (c.domains d).Kplus_R := by
  rw [correctKernel, SparseMatrix.createMatFromRows, if_neg (by omega), Option.bind_some,
    SparseMatrix.matMatRead, if_neg fun h => absurd h.2.1 (lt_irrefl 0), Option.map_some,
    SparseMatrix.matMat_of_nnz rfl]
  rfl

lemma cols_le_of_correctKernel (hbounded : Kernel_Sa.Bounded) (hnnz : Kernel_Sa.nnz ≠ 0) {d : ℕ}
    {Rb : DenseMatrix} (hR : ∀ j < (c.domains d).Kplus_R.cols,
      ∃ i < (c.domains d).Kplus_R.rows, (c.domains d).Kplus_R.entry i j ≠ 0)
    (h : c.correctKernel Kernel_Sa d = some Rb) (hRb : c.Corrected Kernel_Sa d Rb) :
    (c.domains d).Kplus_R.cols ≤ Kernel_Sa.cols ∧
      d * Kernel_Sa.cols + Kernel_Sa.cols ≤ Kernel_Sa.rows := by
  obtain ⟨tR, htR, h⟩ := Option.bind_eq_some_iff.mp h
  obtain ⟨TmpR, hTmpR, rfl⟩ := Option.map_eq_some_iff.mp h
  have hrows := SparseMatrix.le_rows_of_createMatFromRows hnnz (hbounded.cols_pos hnnz) htR
  refine ⟨?_, hrows⟩
  by_cases hzero : TmpR.nnz = 0
  · rw [if_pos hzero] at hRb
    exact hRb.cols.le
  · by_contra hlt
    obtain ⟨i, hi, hne⟩ := hR Kernel_Sa.cols (by omega)
    have hread := SparseMatrix.lt_rows_of_matMatRead hTmpR hzero
      (DenseMatrix.mem_convertDenseToCSR hi (by omega) hne)
    rw [SparseMatrix.createMatFromRows_eq hnnz hrows] at htR
    obtain rfl := Option.some.inj htR
    simp [SparseMatrix.rows] at hread

lemma corrected_of_cols (hbounded : Kernel_Sa.Bounded) {d : ℕ}
    (hR : ∀ j < (c.domains d).Kplus_R.cols,
      ∃ i < (c.domains d).Kplus_R.rows, (c.domains d).Kplus_R.entry i j ≠ 0)
    (hcols : (c.domains d).Kplus_R.cols = Kernel_Sa.cols)
    (hker : c.kerindices d = d * Kernel_Sa.cols)
    (hrows : d * Kernel_Sa.cols + Kernel_Sa.cols ≤ Kernel_Sa.rows) {q : ℕ} (hq : q < Kernel_Sa.cols)
    (hstored : Kernel_Sa.rowAt (d * Kernel_Sa.cols + q) ≠ []) :
    ∃ Rb, c.correctKernel Kernel_Sa d = some Rb ∧ c.Corrected Kernel_Sa d Rb := by
  have hnnz : Kernel_Sa.nnz ≠ 0 := fun h => hstored (SparseMatrix.rowAt_of_nnz h _)
  set tR : SparseMatrix := ⟨Kernel_Sa.cols, (List.range Kernel_Sa.cols).map fun q =>
    Kernel_Sa.rowAt (d * Kernel_Sa.cols + q)⟩ with htR
  have htRb : tR.Bounded := SparseMatrix.selected_bounded hbounded
  have htRrow : tR.rowAt q = Kernel_Sa.rowAt (d * Kernel_Sa.cols + q) := by
    rw [htR, SparseMatrix.rowAt_map_range, if_pos hq]
  have hread : (c.domains d).Kplus_R.convertDenseToCSR.matMatRead tR
      = some ((c.domains d).Kplus_R.convertDenseToCSR.matMat tR) := by
    refine if_neg fun h => h.2.2 fun row hrow e he => ?_
    have hlt := DenseMatrix.convertDenseToCSR_bounded row hrow e he
    rw [DenseMatrix.cols_convertDenseToCSR, hcols] at hlt
    rw [htR]
    simpa [SparseMatrix.rows] using hlt
  obtain ⟨i, hi, hne⟩ := hR q (by omega)
  have hstore := SparseMatrix.nnz_matMat htRb
    ⟨_, DenseMatrix.mem_convertDenseToCSR hi (by omega) hne, rfl⟩ (by rw [htRrow]; exact hstored)
  obtain ⟨hsize, hsize'⟩ := SparseMatrix.size_matMat hstore
  rw [DenseMatrix.rows_convertDenseToCSR] at hsize
  refine ⟨DenseMatrix.ofSparse _, ?_, ⟨hsize, hsize', fun i hi j _ => ?_⟩⟩
  · rw [correctKernel, SparseMatrix.createMatFromRows_eq hnnz hrows, Option.bind_some, hread,
      Option.map_some, if_neg hstore]
  · rw [DenseMatrix.entry_ofSparse _ (by omega),
      DenseMatrix.convertDenseToCSR_bounded.entry_matMat htRb, DenseMatrix.cols_convertDenseToCSR]
    refine sum_congr rfl fun q hq => ?_
    have hq' := mem_range.mp hq
    rw [DenseMatrix.entry_convertDenseToCSR hi hq', hker, htR,
      SparseMatrix.entry_selected (by omega)]

lemma exists_row_of_corrected (hbounded : Kernel_Sa.Bounded) {d : ℕ}
    (hR : ∀ j < (c.domains d).Kplus_R.cols,
      ∃ i < (c.domains d).Kplus_R.rows, (c.domains d).Kplus_R.entry i j ≠ 0)
    (hcols : (c.domains d).Kplus_R.cols = Kernel_Sa.cols) (hpos : Kernel_Sa.cols ≠ 0)
    (hker : c.kerindices d = d * Kernel_Sa.cols) {Rb : DenseMatrix}
    (h : c.correctKernel Kernel_Sa d = some Rb) (hRb : c.Corrected Kernel_Sa d Rb) :
    ∃ q < Kernel_Sa.cols, Kernel_Sa.rowAt (d * Kernel_Sa.cols + q) ≠ [] := by
  by_contra hall
  have hnil : ∀ q < Kernel_Sa.cols, Kernel_Sa.rowAt (d * Kernel_Sa.cols + q) = [] := by
    intro q hq
    by_contra hne
    exact hall ⟨q, hq, hne⟩
  have hkept : Rb = (c.domains d).Kplus_R := by
    by_cases hnnz : Kernel_Sa.nnz = 0
    · exact Option.some.inj (h.symm.trans (correctKernel_of_nnz hnnz d))
    · have hrows := (cols_le_of_correctKernel hbounded hnnz hR h hRb).2
      have htR : SparseMatrix.nnz ⟨Kernel_Sa.cols, (List.range Kernel_Sa.cols).map fun q =>
          Kernel_Sa.rowAt (d * Kernel_Sa.cols + q)⟩ = 0 := by
        refine SparseMatrix.nnz_eq_zero_iff.mpr fun row hrow => ?_
        obtain ⟨q, hq, rfl⟩ := List.mem_map.mp hrow
        exact hnil q (List.mem_range.mp hq)
      rw [correctKernel, SparseMatrix.createMatFromRows_eq hnnz hrows, Option.bind_some] at h
      obtain ⟨TmpR, hTmpR, rfl⟩ := Option.map_eq_some_iff.mp h
      rw [SparseMatrix.matMatRead_eq_some hTmpR, SparseMatrix.matMat_of_nnz htR]
      rfl
  obtain ⟨i, hi, hne⟩ := hR 0 (by omega)
  refine hne ?_
  rw [← hkept, hRb.entry i hi 0 (by omega)]
  refine sum_eq_zero fun q hq => ?_
  have hq' := mem_range.mp hq
  rw [SparseMatrix.entry, hker, hnil q (by omega), Row.entry_nil, mul_zero]

/-! ## The cluster -/

lemma kerindices_eq {k : ℕ} (hcols : ∀ d < c.domains_size, (c.domains d).Kplus_R.cols = k) {d : ℕ}
    (hd : d ≤ c.domains_size) : c.kerindices d = d * k := by
  rw [kerindices, Layout.start, sum_congr rfl fun d' hd' =>
    hcols d' (lt_of_lt_of_le (mem_range.mp hd') hd), sum_const, card_range, smul_eq_mul]

/-- A correction that is right only meets uniform kernels. -/
theorem uniform_of_correctsKernel (h : c.Sized r) (hR : c.NonzeroKernels)
    (hbounded : Kernel_Sa.Bounded)
    (hrows : Kernel_Sa.cols ≠ 0 → Kernel_Sa.rows = c.createG0.rows)
    (hright : c.CorrectsKernel r Kernel_Sa) : c.Uniform Kernel_Sa := by
  obtain ⟨Rb, hRb, -⟩ := hright
  by_cases hnnz : Kernel_Sa.nnz = 0
  · have hcols : ∀ d < c.domains_size, (c.domains d).Kplus_R.cols = Kernel_Sa.cols := by
      intro d hd
      obtain ⟨hsome, hcorrected⟩ := hRb d hd
      obtain heq := Option.some.inj (hsome.symm.trans (correctKernel_of_nnz hnnz d))
      rw [← heq, hcorrected.cols]
    refine fun d hd => ⟨hcols d hd, fun hpos => ?_⟩
    obtain ⟨q, -, hne⟩ := exists_row_of_corrected hbounded (hR d hd) (hcols d hd) hpos
      (kerindices_eq hcols hd.le) (hRb d hd).1 (hRb d hd).2
    exact absurd (SparseMatrix.rowAt_of_nnz hnnz _) hne
  · -- no kernel is larger than that of the Schur complement, and there are rows for all of them
    have hpos := hbounded.cols_pos hnnz
    have hle := fun d hd =>
      cols_le_of_correctKernel hbounded hnnz (hR d hd) (hRb d hd).1 (hRb d hd).2
    have hdomains := h.domains_pos
    have hlast := (hle (c.domains_size - 1) (by omega)).2
    have hrow : ∀ d < c.domains_size, c.G0_rows d = Kernel_Sa.cols := by
      have hbelow : ∀ d ∈ range c.domains_size, c.G0_rows d ≤ Kernel_Sa.cols := fun d hd =>
        (c.G0_rows_le d).trans (hle d (mem_range.mp hd)).1
      have htotal : ∑ d ∈ range c.domains_size, c.G0_rows d
          = ∑ _d ∈ range c.domains_size, Kernel_Sa.cols := by
        refine le_antisymm (sum_le_sum hbelow) ?_
        have hG0 : ∑ d ∈ range c.domains_size, c.G0_rows d = Kernel_Sa.rows :=
          h.rows_createG0.symm.trans (hrows (by omega)).symm
        rw [hG0, sum_const, card_range, smul_eq_mul]
        rw [← Nat.succ_mul, Nat.succ_eq_add_one, Nat.sub_add_cancel hdomains] at hlast
        exact hlast
      exact fun d hd => (sum_eq_sum_iff_of_le hbelow).mp htotal d (mem_range.mpr hd)
    have hcols : ∀ d < c.domains_size, (c.domains d).Kplus_R.cols = Kernel_Sa.cols := fun d hd =>
      le_antisymm (hle d hd).1 ((hrow d hd).symm.le.trans (c.G0_rows_le d))
    refine fun d hd => ⟨hcols d hd, fun _ => ⟨fun hzero => ?_, ?_⟩⟩
    · have hd' := hrow d hd
      rw [G0_rows, if_pos hzero] at hd'
      omega
    · exact exists_row_of_corrected hbounded (hR d hd) (hcols d hd) (by omega)
        (kerindices_eq hcols hd.le) (hRb d hd).1 (hRb d hd).2

lemma Uniform.G0_rows_eq (huniform : c.Uniform Kernel_Sa) (hpos : Kernel_Sa.cols ≠ 0) {d : ℕ}
    (hd : d < c.domains_size) : c.G0_rows d = (c.domains d).Kplus_R.cols :=
  if_neg ((huniform d hd).2 hpos).1

lemma glue_of_uniform (h : c.Sized r) (huniform : c.Uniform Kernel_Sa)
    (hkernel : c.IsKernel r Kernel_Sa) {Rb : ℕ → DenseMatrix}
    (hRb : ∀ d < c.domains_size, c.Corrected Kernel_Sa d (Rb d)) {l j : ℕ} (hl : l < r)
    (hj : j < Kernel_Sa.cols) :
    ∑ d ∈ range c.domains_size, ∑ i ∈ range (c.domains d).domain_prim_size,
      (c.domains d).B0.entry l i * (Rb d).entry i j = 0 := by
  have hG0 : ∀ d < c.domains_size, c.G0_rows d = (c.domains d).Kplus_R.cols := fun d hd =>
    huniform.G0_rows_eq (by omega) hd
  have hstart : ∀ d ∈ range c.domains_size, Layout.start c.G0_rows d = c.kerindices d := fun d hd =>
    sum_congr rfl fun d' hd' => hG0 d' (lt_trans (mem_range.mp hd') (mem_range.mp hd))
  have hdomain : ∀ d ∈ range c.domains_size,
      ∑ i ∈ range (c.domains d).domain_prim_size, (c.domains d).B0.entry l i * (Rb d).entry i j
        = -∑ q ∈ range (c.G0_rows d), c.createG0.entry (Layout.start c.G0_rows d + q) l
            * Kernel_Sa.entry (Layout.start c.G0_rows d + q) j := by
    intro d hd
    have hd' := mem_range.mp hd
    have hrows : (c.domains d).Kplus_R.rows = (c.domains d).domain_prim_size :=
      (h.domain d hd').R_rows (by rw [(huniform d hd').1]; omega)
    have hblock : ∀ q ∈ range (c.G0_rows d),
        c.createG0.entry (Layout.start c.G0_rows d + q) l
            * Kernel_Sa.entry (Layout.start c.G0_rows d + q) j
          = -∑ i ∈ range (c.domains d).domain_prim_size, (c.domains d).B0.entry l i
              * ((c.domains d).Kplus_R.entry i q * Kernel_Sa.entry (c.kerindices d + q) j) := by
      intro q hq
      rw [h.entry_createG0 hd' (mem_range.mp hq), neg_mul, sum_mul, hstart d hd]
      simp only [mul_assoc]
    rw [sum_congr rfl hblock, sum_neg_distrib, neg_neg, sum_comm]
    refine sum_congr rfl fun i hi => ?_
    rw [(hRb d hd').entry i (by rw [hrows]; exact mem_range.mp hi) j hj, mul_sum, hG0 d hd']
  rw [sum_congr rfl hdomain, sum_neg_distrib, neg_eq_zero,
    ← Layout.sum_range_start c.G0_rows (fun q => c.createG0.entry q l * Kernel_Sa.entry q j),
    ← h.rows_createG0]
  exact hkernel l hl j hj

/-- **The kernel correction** is right exactly for uniform kernels. -/
theorem correctsKernel_iff (h : c.Sized r) (hR : c.NonzeroKernels) (hbounded : Kernel_Sa.Bounded)
    (hrows : Kernel_Sa.cols ≠ 0 → Kernel_Sa.rows = c.createG0.rows) :
    c.CorrectsKernel r Kernel_Sa ↔ c.Uniform Kernel_Sa := by
  refine ⟨uniform_of_correctsKernel h hR hbounded hrows, fun huniform => ?_⟩
  have hcols := fun d hd => (huniform d hd).1
  have hdomain : ∀ d < c.domains_size,
      ∃ Rb, c.correctKernel Kernel_Sa d = some Rb ∧ c.Corrected Kernel_Sa d Rb := by
    intro d hd
    by_cases hzero : Kernel_Sa.cols = 0
    · -- no kernel at all
      have hnnz : Kernel_Sa.nnz = 0 := by
        by_contra hne
        have := hbounded.cols_pos hne
        omega
      exact ⟨_, correctKernel_of_nnz hnnz d, rfl, hcols d hd, fun i _ j hj => by omega⟩
    · obtain ⟨-, q, hq, hstored⟩ := (huniform d hd).2 hzero
      have htotal : c.createG0.rows = c.domains_size * Kernel_Sa.cols := by
        rw [h.rows_createG0, Layout.start, sum_congr rfl fun d' hd' =>
          (huniform.G0_rows_eq hzero (mem_range.mp hd')).trans (hcols d' (mem_range.mp hd')),
          sum_const, card_range, smul_eq_mul]
      refine corrected_of_cols hbounded (hR d hd) (hcols d hd) (kerindices_eq hcols hd.le) ?_ hq
        hstored
      rw [hrows hzero, htotal, ← Nat.succ_mul]
      exact Nat.mul_le_mul_right _ hd
  have hRb : ∀ d < c.domains_size,
      c.correctKernel Kernel_Sa d
          = some ((c.correctKernel Kernel_Sa d).getD (c.domains d).Kplus_R) ∧
        c.Corrected Kernel_Sa d ((c.correctKernel Kernel_Sa d).getD (c.domains d).Kplus_R) := by
    intro d hd
    obtain ⟨Rb, hsome, hcorrected⟩ := hdomain d hd
    rw [hsome, Option.getD_some]
    exact ⟨rfl, hcorrected⟩
  exact ⟨_, hRb, fun hkernel l hl j hj =>
    glue_of_uniform h huniform hkernel (fun d hd => (hRb d hd).2) hl hj⟩

end Cluster

/-! ### Two domains with one unknown each -/

/-- The kernel of the Schur complement of two floating domains. -/
def rigidMotion : SparseMatrix := ⟨1, [[(0, 1)], [(0, 1)]]⟩

theorem correctsKernel_twoUnknowns : (twoUnknowns true).CorrectsKernel 1 rigidMotion := by
  refine (Cluster.correctsKernel_iff twoUnknowns_true_exact.sized ?_ ?_ fun _ => ?_).mpr ?_
  · exact fun d _ j _ => ⟨0, Nat.zero_lt_one, one_ne_zero⟩
  · intro row hrow e he
    obtain rfl : row = [(0, 1)] := by simpa [rigidMotion] using hrow
    rw [List.mem_singleton.mp he]
    exact Nat.zero_lt_one
  · decide +kernel
  · intro d hd
    refine ⟨rfl, fun _ => ⟨?_, 0, Nat.zero_lt_one, ?_⟩⟩
    · obtain rfl | rfl : d = 0 ∨ d = 1 := by simp only [twoUnknowns] at hd; omega
      · decide +kernel
      · decide +kernel
    · obtain rfl | rfl : d = 0 ∨ d = 1 := by simp only [twoUnknowns] at hd; omega
      · decide
      · decide

def fixedAndFloating : Cluster where
  domains_size := 2
  domains := fun d => if d = 0 then oneUnknown false 1 else oneUnknown true (-1)
  F0_Solve := fun b i => b i / 2
  Sa_Solve := fun b => b

/-- **A fixed domain**: the Schur complement has no kernel, but the floating domain keeps its own.
-/
theorem not_correctsKernel_fixedAndFloating :
    ¬fixedAndFloating.CorrectsKernel 1 SparseMatrix.empty := by
  rintro ⟨Rb, hRb, -⟩
  obtain ⟨hsome, hcorrected⟩ := hRb 1 Nat.one_lt_two
  have heq := Option.some.inj (hsome.symm.trans (Cluster.correctKernel_of_nnz rfl 1))
  have hcols := hcorrected.cols
  rw [heq] at hcols
  exact absurd hcols Nat.one_ne_zero

end Espreso
