import Espreso.Solver.Cluster
import Espreso.Lib.Writes

/-!
# The matrices of the hybrid FETI preprocessing

What the preprocessing of a cluster computes, entry by entry.

* `Domain.Sized` — the sizes of the matrices of a domain.
* **`Domain.denseMatVec_B0Kplus_comp`**, **`Domain.matVecT_B0_comp`** — the compressed products.
* **`Cluster.entry_createF0`**, **`Cluster.entry_createG0`** — the coarse matrices.
-/

namespace Espreso

open Finset

lemma foldl_add_eq (ws : List (ℕ × ℚ)) (v : ℕ → ℚ) (i : ℕ) :
    ws.foldl (fun v w => Function.update v w.1 (v w.1 + w.2)) v i = v i + Row.entry ws i := by
  induction ws generalizing v with
  | nil => simp
  | cons w ws ih =>
      rw [List.foldl_cons, ih, Row.entry_cons]
      by_cases h : w.1 = i
      · rw [h, Function.update_self, if_pos rfl, add_assoc]
      · rw [Function.update_of_ne (fun h' => h h'.symm), if_neg h, zero_add]

/-! ## Rows that store something -/

namespace SparseMatrix

lemma csr_eq (A : SparseMatrix) : A.csr = (List.range A.rows).map A.rowAt := by
  refine List.ext_getElem (by simp [rows]) fun i h _ => ?_
  rw [List.getElem_map, List.getElem_range, rowAt, List.getD_eq_getElem _ _ h]

end SparseMatrix

lemma sum_map_filter_range (n : ℕ) (p : ℕ → Prop) [DecidablePred p] (h : ℕ → ℚ)
    (h0 : ∀ l, ¬p l → h l = 0) : (((List.range n).filter p).map h).sum = ∑ l ∈ range n, h l := by
  induction n with
  | zero => simp
  | succ n ih =>
      rw [List.range_succ, List.filter_append, List.map_append, List.sum_append, ih, sum_range_succ]
      by_cases hp : p n
      · simp [hp]
      · simp [hp, h0 n hp]

lemma sum_range_getD (l : List ℕ) (h : ℕ → ℚ) :
    ∑ i ∈ range l.length, h (l.getD i 0) = (l.map h).sum := by
  rw [← sum_map_range]
  refine congrArg List.sum (List.ext_getElem (by simp) fun i hi hi' => ?_)
  rw [List.length_map] at hi'
  rw [List.getElem_map, List.getElem_range, List.getElem_map, List.getD_eq_getElem _ _ hi']

namespace Row

lemma entry_map_columns {es : Row} {m : ℕ} (h : es.Below m) (ρ : ℕ → ℕ) (j : ℕ) :
    entry (es.map fun e => (ρ e.1, e.2)) j
      = ∑ i ∈ range m, if ρ i = j then entry es i else 0 := by
  induction es with
  | nil => simp
  | cons e es ih =>
      have hes : Row.Below es m := fun e' he' => h e' (List.mem_cons_of_mem _ he')
      have he : e.1 ∈ range m := mem_range.mpr (h e List.mem_cons_self)
      have hsplit : ∀ i, (if ρ i = j then entry (e :: es) i else 0)
          = (if e.1 = i then (if ρ i = j then e.2 else 0) else 0)
            + if ρ i = j then entry es i else 0 := by
        intro i
        rw [entry_cons]
        by_cases hi : ρ i = j <;> simp [hi]
      simp only [hsplit, sum_add_distrib, sum_ite_eq, if_pos he]
      rw [List.map_cons, entry_cons, ih hes]

lemma entry_map_nodup {l : List ℕ} (hl : l.Nodup) (v : ℕ → ℚ) (j : ℕ) :
    entry (l.map fun i => (i, v i)) j = if j ∈ l then v j else 0 := by
  induction l with
  | nil => simp
  | cons i l ih =>
      rw [List.nodup_cons] at hl
      rw [List.map_cons, entry_cons, ih hl.2]
      by_cases hj : i = j
      · subst hj
        simp [hl.1]
      · simp [hj, Ne.symm hj]

end Row

/-! ## Domains -/

namespace Domain

variable {d : Domain} {r : ℕ}

/-- The sizes of the matrices of a domain; `B0` has the `r` rows of the cluster. -/
structure Sized (d : Domain) (r : ℕ) : Prop where
  B0_rows : d.B0.rows = r
  B0_cols : d.B0.cols = d.domain_prim_size
  B0_bounded : d.B0.Bounded
  R_rows : d.Kplus_R.cols ≠ 0 → d.Kplus_R.rows = d.domain_prim_size
  R_cols : d.Kplus_R.cols ≤ d.domain_prim_size

lemma nodup_B0_rows : d.B0_rows.Nodup := List.nodup_range.filter _

lemma B0_comp_csr : d.B0_comp.csr = d.B0_rows.map d.B0.rowAt := by
  have hfilter : d.B0_comp.csr = ((List.range d.B0.rows).map d.B0.rowAt).filter (· ≠ []) :=
    congrArg _ d.B0.csr_eq
  rw [hfilter, List.filter_map]
  rfl

lemma rows_B0_comp : d.B0_comp.rows = d.B0_rows.length := by
  rw [SparseMatrix.rows, B0_comp_csr, List.length_map]

lemma entry_B0_comp {i : ℕ} (hi : i < d.B0_rows.length) (j : ℕ) :
    d.B0_comp.entry i j = d.B0.entry (d.B0_rows.getD i 0) j := by
  have hi' : i < (d.B0_rows.map d.B0.rowAt).length := by rwa [List.length_map]
  rw [SparseMatrix.entry, SparseMatrix.rowAt, B0_comp_csr, List.getD_eq_getElem _ _ hi',
    List.getElem_map, List.getD_eq_getElem _ _ hi]
  rfl

lemma B0_comp_map_vec_getD {i : ℕ} (hi : i < d.B0_rows.length) :
    d.B0_comp_map_vec.getD i 0 - 1 = d.B0_rows.getD i 0 := by
  have hi' : i < d.B0_comp_map_vec.length := by rwa [B0_comp_map_vec, List.length_map]
  rw [List.getD_eq_getElem _ _ hi', List.getD_eq_getElem _ _ hi]
  simp [B0_comp_map_vec]

lemma sum_B0_rows (h : ℕ → ℚ) (h0 : ∀ l, d.B0.rowAt l = [] → h l = 0) :
    ∑ i ∈ range d.B0_rows.length, h (d.B0_rows.getD i 0) = ∑ l ∈ range d.B0.rows, h l := by
  rw [sum_range_getD, B0_rows]
  exact sum_map_filter_range _ _ h fun l hl => h0 l (not_not.mp hl)

lemma entry_of_rowAt {l : ℕ} (hl : d.B0.rowAt l = []) (j : ℕ) : d.B0.entry l j = 0 := by
  rw [SparseMatrix.entry, hl, Row.entry_nil]

lemma matVecT_B0_comp (x : ℕ → ℚ) (j : ℕ) :
    d.B0_comp.matVecT (fun i => x (d.B0_comp_map_vec.getD i 0 - 1)) j
      = ∑ l ∈ range d.B0.rows, d.B0.entry l j * x l := by
  rw [SparseMatrix.matVecT, rows_B0_comp,
    ← sum_B0_rows (fun l => d.B0.entry l j * x l) fun l hl => by rw [entry_of_rowAt hl, zero_mul]]
  refine sum_congr rfl fun i hi => ?_
  rw [entry_B0_comp (mem_range.mp hi), B0_comp_map_vec_getD (mem_range.mp hi)]

lemma Sized.B0_comp_bounded (h : d.Sized r) : d.B0_comp.Bounded := fun row hrow =>
  h.B0_bounded row (List.mem_filter.mp hrow).1

/-- The column of `B0Kplus` that belongs to row `l` of `B0`. -/
def KplusB0t (d : Domain) (k l : ℕ) : ℚ := d.multKplusLocal (fun j => d.B0.entry l j) k

lemma KplusB0t_of_rowAt {l : ℕ} (hl : d.B0.rowAt l = []) (k : ℕ) : d.KplusB0t k l = 0 := by
  rw [KplusB0t, multKplusLocal]
  exact sum_eq_zero fun j _ => by rw [entry_of_rowAt hl, mul_zero]

lemma rows_solveMat_Dense (A : SparseMatrix) : (d.solveMat_Dense A).rows = A.rows :=
  DenseMatrix.rows_convertDenseToCSR

lemma cols_solveMat_Dense (A : SparseMatrix) : (d.solveMat_Dense A).cols = A.cols := rfl

lemma solveMat_Dense_bounded (A : SparseMatrix) : (d.solveMat_Dense A).Bounded :=
  DenseMatrix.convertDenseToCSR_bounded

lemma entry_solveMat_Dense {A : SparseMatrix} {i j : ℕ} (hi : i < A.rows) (hj : j < A.cols) :
    (d.solveMat_Dense A).entry i j = d.multKplusLocal (fun i => A.entry i j) i := by
  rw [solveMat_Dense, DenseMatrix.entry_convertDenseToCSR hi hj]
  simp only [DenseMatrix.entry]
  rw [Nat.mul_comm, Nat.mul_add_mod, Nat.mod_eq_of_lt hi, Nat.mul_add_div (by omega),
    Nat.div_eq_of_lt hi, Nat.add_zero]

lemma Sized.entry_solve (h : d.Sized r) {k i : ℕ} (hk : k < d.domain_prim_size)
    (hi : i < d.B0_rows.length) :
    (d.solveMat_Dense d.B0_comp.matTranspose).entry k i = d.KplusB0t k (d.B0_rows.getD i 0) := by
  have hk' : k < d.B0_comp.matTranspose.rows := by
    rw [SparseMatrix.rows_matTranspose]
    exact lt_of_lt_of_eq hk h.B0_cols.symm
  have hi' : i < d.B0_comp.matTranspose.cols := by
    rw [SparseMatrix.cols_matTranspose, rows_B0_comp]
    exact hi
  rw [entry_solveMat_Dense hk' hi', KplusB0t, multKplusLocal, multKplusLocal]
  refine sum_congr rfl fun j _ => ?_
  rw [h.B0_comp_bounded.entry_matTranspose, entry_B0_comp hi]

lemma rows_B0Kplus_comp : d.B0Kplus_comp.rows = d.B0_rows.length := by
  rw [← rows_B0_comp]
  exact SparseMatrix.rows_matTranspose

lemma Sized.cols_B0Kplus_comp (h : d.Sized r) : d.B0Kplus_comp.cols = d.domain_prim_size := by
  rw [← h.B0_cols]
  refine (rows_solveMat_Dense _).trans SparseMatrix.rows_matTranspose

lemma Sized.entry_B0Kplus_comp (h : d.Sized r) {i k : ℕ} (hi : i < d.B0_rows.length)
    (hk : k < d.domain_prim_size) :
    d.B0Kplus_comp.entry i k = d.KplusB0t k (d.B0_rows.getD i 0) := by
  have hi' : i < (d.solveMat_Dense d.B0_comp.matTranspose).matTranspose.rows := by
    rw [SparseMatrix.rows_matTranspose, cols_solveMat_Dense, SparseMatrix.cols_matTranspose,
      rows_B0_comp]
    exact hi
  rw [B0Kplus_comp, DenseMatrix.entry_ofSparse _ hi',
    (solveMat_Dense_bounded _).entry_matTranspose, h.entry_solve hk hi]

lemma Sized.denseMatVec_B0Kplus_comp (h : d.Sized r) (x : ℕ → ℚ) {i : ℕ}
    (hi : i < d.B0_rows.length) :
    d.B0Kplus_comp.denseMatVec x 0 i
      = ∑ k ∈ range d.domain_prim_size, d.KplusB0t k (d.B0_rows.getD i 0) * x k := by
  rw [DenseMatrix.denseMatVec, h.cols_B0Kplus_comp]
  refine sum_congr rfl fun k hk => ?_
  rw [h.entry_B0Kplus_comp hi (mem_range.mp hk), Nat.zero_add]

lemma Sized.denseMatVecT_B0Kplus_comp (h : d.Sized r) (x : ℕ → ℚ) {k : ℕ}
    (hk : k < d.domain_prim_size) :
    d.B0Kplus_comp.denseMatVecT (fun i => x (d.B0_comp_map_vec.getD i 0 - 1)) k
      = ∑ l ∈ range r, d.KplusB0t k l * x l := by
  rw [DenseMatrix.denseMatVecT, rows_B0Kplus_comp, ← h.B0_rows,
    ← sum_B0_rows (fun l => d.KplusB0t k l * x l) fun l hl => by rw [KplusB0t_of_rowAt hl, zero_mul]]
  refine sum_congr rfl fun i hi => ?_
  rw [h.entry_B0Kplus_comp (mem_range.mp hi) hk, B0_comp_map_vec_getD (mem_range.mp hi)]

lemma lt_of_mem_B0_rows {l : ℕ} (hl : l ∈ d.B0_rows) : l < d.B0.rows :=
  List.mem_range.mp (List.mem_filter.mp hl).1

lemma getD_mem_B0_rows {i : ℕ} (hi : i < d.B0_rows.length) : d.B0_rows.getD i 0 ∈ d.B0_rows := by
  rw [List.getD_eq_getElem _ _ hi]
  exact List.getElem_mem hi

lemma Sized.entry_B0Kplus (h : d.Sized r) {k : ℕ} (hk : k < d.domain_prim_size) (l : ℕ) :
    d.B0Kplus.entry k l = d.KplusB0t k l := by
  have hbelow := (solveMat_Dense_bounded (d := d) d.B0_comp.matTranspose).rowAt_below k
  rw [cols_solveMat_Dense, SparseMatrix.cols_matTranspose, rows_B0_comp] at hbelow
  have hrename : d.B0Kplus.entry k l = ∑ i ∈ range d.B0_rows.length,
      if d.B0_rows.getD i 0 = l then d.KplusB0t k (d.B0_rows.getD i 0) else 0 := by
    rw [SparseMatrix.entry, B0Kplus, SparseMatrix.rowAt_map (by rfl),
      Row.entry_map_columns hbelow fun i => d.B0_comp_map_vec.getD i 0 - 1]
    refine sum_congr rfl fun i hi => ?_
    rw [B0_comp_map_vec_getD (mem_range.mp hi), ← h.entry_solve hk (mem_range.mp hi)]
    rfl
  rw [hrename, sum_B0_rows (fun l' => if l' = l then d.KplusB0t k l' else 0), sum_ite_eq']
  · split_ifs with hl
    · rfl
    · exact (KplusB0t_of_rowAt (SparseMatrix.rowAt_eq_nil (by simpa using hl)) k).symm
  · intro l' hl'
    rw [KplusB0t_of_rowAt hl', ite_self]

lemma B0Kplus_bounded : d.B0Kplus.Bounded := by
  intro row hrow e he
  obtain ⟨row', hrow', rfl⟩ := List.mem_map.mp hrow
  obtain ⟨e', he', rfl⟩ := List.mem_map.mp he
  have hcol := solveMat_Dense_bounded (d := d) d.B0_comp.matTranspose row' hrow' e' he'
  rw [cols_solveMat_Dense, SparseMatrix.cols_matTranspose, rows_B0_comp] at hcol
  simp only [B0Kplus]
  rw [B0_comp_map_vec_getD hcol]
  exact lt_of_mem_B0_rows (getD_mem_B0_rows hcol)

lemma Sized.entry_matMat_B0Kplus (h : d.Sized r) (l l' : ℕ) :
    (d.B0.matMat d.B0Kplus).entry l l'
      = ∑ k ∈ range d.domain_prim_size, d.B0.entry l k * d.KplusB0t k l' := by
  rw [h.B0_bounded.entry_matMat B0Kplus_bounded, h.B0_cols]
  exact sum_congr rfl fun k hk => by rw [h.entry_B0Kplus (mem_range.mp hk)]

lemma Sized.entry_G0LocalTemp (h : d.Sized r) {i : ℕ} (hi : i < d.Kplus_R.cols) (l : ℕ) :
    d.G0LocalTemp.entry i l
      = -∑ k ∈ range d.domain_prim_size, d.B0.entry l k * d.Kplus_R.entry k i := by
  have hrows := h.R_rows (by omega)
  rw [G0LocalTemp, SparseMatrix.entry_matScale, SparseMatrix.matMat_bounded.entry_matTranspose,
    h.B0_bounded.entry_matMat DenseMatrix.convertDenseToCSR_bounded, h.B0_cols, neg_one_mul]
  refine congrArg _ (sum_congr rfl fun k hk => ?_)
  rw [DenseMatrix.entry_convertDenseToCSR (by rw [hrows]; exact mem_range.mp hk) hi]

lemma nnz_matTranspose {A : SparseMatrix} (h : A.matTranspose.nnz ≠ 0) : A.nnz ≠ 0 := by
  refine fun hnnz => h (SparseMatrix.nnz_eq_zero_iff.mpr fun row hrow => ?_)
  obtain ⟨j, -, rfl⟩ := List.mem_map.mp hrow
  exact List.flatMap_eq_nil_iff.mpr fun i _ => by rw [SparseMatrix.rowAt_of_nnz hnnz]; rfl

lemma Sized.size_G0LocalTemp (h : d.Sized r) (hnnz : d.G0LocalTemp.nnz ≠ 0) :
    d.G0LocalTemp.rows = d.Kplus_R.cols ∧ d.G0LocalTemp.cols = r ∧ d.Kplus_R.cols ≠ 0 := by
  have hrows := SparseMatrix.rows_pos_of_nnz hnnz
  rw [G0LocalTemp, SparseMatrix.nnz_matScale] at hnnz
  obtain ⟨hr, hc⟩ := SparseMatrix.size_matMat (nnz_matTranspose hnnz)
  have hsize : d.G0LocalTemp.rows = d.Kplus_R.cols := by
    rw [G0LocalTemp, SparseMatrix.rows_matScale, SparseMatrix.rows_matTranspose, hc]
    rfl
  refine ⟨hsize, ?_, by omega⟩
  rw [G0LocalTemp, SparseMatrix.cols_matScale, SparseMatrix.cols_matTranspose, hr, h.B0_rows]

lemma G0LocalTemp_bounded : d.G0LocalTemp.Bounded := SparseMatrix.matTranspose_bounded.matScale _

end Domain

namespace Cluster

variable {c : Cluster} {r : ℕ}

/-- The matrices of all domains fit; `B0` has `r` rows. -/
structure Sized (c : Cluster) (r : ℕ) : Prop where
  domains_pos : 0 < c.domains_size
  domain : ∀ d < c.domains_size, (c.domains d).Sized r

/-! ### `F0` -/

/-- `A` is the sum of the matrices `v k`, as far as it stores anything. -/
def SumOf (r : ℕ) (v : ℕ → SparseMatrix) (A : SparseMatrix) (ks : List ℕ) : Prop :=
  A.Bounded ∧ (A.nnz ≠ 0 → A.rows = r ∧ A.cols = r) ∧
    ∀ l l', A.entry l l' = (ks.map fun k => (v k).entry l l').sum

lemma SumOf.matAddInPlace {v : ℕ → SparseMatrix} (A B : SparseMatrix) (ks ks' : List ℕ)
    (hA : SumOf r v A ks) (hB : SumOf r v B ks') : SumOf r v (A.matAddInPlace B) (ks ++ ks') := by
  refine ⟨hA.1.matAddInPlace hB.1, SparseMatrix.size_matAddInPlace hA.2.1 hB.2.1, fun l l' => ?_⟩
  rw [hA.1.entry_matAddInPlace hB.1 (fun h h' => ?_), hA.2.2, hB.2.2, List.map_append,
    List.sum_append]
  obtain ⟨hr, hc⟩ := hA.2.1 h
  obtain ⟨hr', hc'⟩ := hB.2.1 h'
  exact ⟨hr.trans hr'.symm, hc.trans hc'.symm⟩

/-- **The entries of `F0`**: `∑ d, B0 K⁺ B0ᵀ`. -/
theorem Sized.entry_createF0 (h : c.Sized r)
    (hsymm : ∀ d < c.domains_size, ∀ i < (c.domains d).domain_prim_size,
      ∀ j < (c.domains d).domain_prim_size, (c.domains d).Kplus i j = (c.domains d).Kplus j i)
    (l l' : ℕ) :
    c.createF0.symEntry l l' = ∑ d ∈ range c.domains_size,
      ∑ k ∈ range (c.domains d).domain_prim_size,
        (c.domains d).B0.entry l k * (c.domains d).KplusB0t k l' := by
  have hleaf : ∀ d < c.domains_size, SumOf r
      (fun d => (c.domains d).B0.matMat (c.domains d).B0Kplus)
      ((c.domains d).B0.matMat (c.domains d).B0Kplus) [d] := by
    intro d hd
    refine ⟨SparseMatrix.matMat_bounded, fun hnnz => ?_, fun l l' => by simp⟩
    obtain ⟨hrows, hcols⟩ := SparseMatrix.size_matMat hnnz
    exact ⟨hrows.trans (h.domain d hd).B0_rows, hcols.trans (h.domain d hd).B0_rows⟩
  have htree := Tree.reduce_all SumOf.matAddInPlace h.domains_pos hleaf
    (Nat.le_pow_clog (by omega) c.domains_size)
  have hentry : ∀ l l', (Tree.reduce SparseMatrix.matAddInPlace c.domains_size
      (Nat.clog 2 c.domains_size) (fun d => (c.domains d).B0.matMat (c.domains d).B0Kplus) 0).entry l l'
        = ∑ d ∈ range c.domains_size, ∑ k ∈ range (c.domains d).domain_prim_size,
            (c.domains d).B0.entry l k * (c.domains d).KplusB0t k l' := by
    intro l l'
    rw [htree.2.2, sum_map_range]
    exact sum_congr rfl fun d hd => (h.domain d (mem_range.mp hd)).entry_matMat_B0Kplus l l'
  rw [createF0, SparseMatrix.symEntry_removeLower fun l l' => ?_, hentry]
  rw [hentry, hentry]
  refine sum_congr rfl fun d hd => ?_
  simp only [Domain.KplusB0t, Domain.multKplusLocal, mul_sum]
  rw [sum_comm]
  refine sum_congr rfl fun i hi => sum_congr rfl fun j hj => ?_
  rw [hsymm d (mem_range.mp hd) j (mem_range.mp hj) i (mem_range.mp hi)]
  ring

/-! ### `G0` -/

/-- The number of rows that a domain adds to `G0`. -/
def G0_rows (c : Cluster) (d : ℕ) : ℕ :=
  if (c.domains d).G0LocalTemp.nnz = 0 then 0 else (c.domains d).Kplus_R.cols

/-- The rows that a domain adds to `G0`. -/
def G0_block (c : Cluster) (d : ℕ) : List Row :=
  if (c.domains d).G0LocalTemp.nnz = 0 then [] else (c.domains d).G0LocalTemp.csr

lemma Sized.length_G0_block (h : c.Sized r) {d : ℕ} (hd : d < c.domains_size) :
    (c.G0_block d).length = c.G0_rows d := by
  rw [G0_block, G0_rows]
  split_ifs with hnnz
  · rfl
  · exact ((h.domain d hd).size_G0LocalTemp hnnz).1

/-- **The blocks of `G0` stand one after the other**; blocks that store nothing are left out. -/
theorem Sized.createG0_eq (h : c.Sized r) :
    c.createG0 = ⟨if (List.range c.domains_size).flatMap c.G0_block = [] then 0 else r,
      (List.range c.domains_size).flatMap c.G0_block⟩ := by
  have hfold : ∀ n ≤ c.domains_size,
      (List.range n).foldl (fun G0 d => G0.matAppend (c.domains d).G0LocalTemp) SparseMatrix.empty
        = ⟨if (List.range n).flatMap c.G0_block = [] then 0 else r,
            (List.range n).flatMap c.G0_block⟩ := by
    intro n
    induction n with
    | zero => exact fun _ => rfl
    | succ n ih =>
        intro hn
        rw [List.range_succ, List.foldl_append, ih (by omega), List.flatMap_append,
          List.flatMap_singleton, List.foldl_cons, List.foldl_nil, SparseMatrix.matAppend, G0_block]
        by_cases hnnz : (c.domains n).G0LocalTemp.nnz = 0
        · simp [hnnz]
        · obtain ⟨-, hcols, -⟩ := (h.domain n (by omega)).size_G0LocalTemp hnnz
          have hpos := SparseMatrix.rows_pos_of_nnz hnnz
          have hcsr : (c.domains n).G0LocalTemp.csr ≠ [] := List.ne_nil_of_length_pos hpos
          rw [if_pos hnnz, if_neg hnnz]
          by_cases hblocks : (List.range n).flatMap c.G0_block = []
          · rw [hblocks, if_pos ⟨rfl, rfl, rfl⟩, List.nil_append, if_neg hcsr, ← hcols]
          · have hrows : ¬(SparseMatrix.rows ⟨if (List.range n).flatMap c.G0_block = [] then 0 else r,
                (List.range n).flatMap c.G0_block⟩ = 0) :=
              fun hzero => hblocks (List.length_eq_zero_iff.mp hzero)
            rw [if_neg fun hempty => hrows hempty.2.1, if_neg hblocks,
              if_neg fun happ => hblocks (List.append_eq_nil_iff.mp happ).1]
  exact hfold _ le_rfl

lemma Sized.start_G0_block (h : c.Sized r) {n : ℕ} (hn : n ≤ c.domains_size) :
    Layout.start (fun d => (c.G0_block d).length) n = Layout.start c.G0_rows n :=
  sum_congr rfl fun _ hd => h.length_G0_block (lt_of_lt_of_le (mem_range.mp hd) hn)

lemma Sized.rows_createG0 (h : c.Sized r) : c.createG0.rows = Layout.start c.G0_rows c.domains_size := by
  rw [h.createG0_eq, SparseMatrix.rows, Layout.length_flatMap_range, h.start_G0_block le_rfl]

lemma Sized.cols_createG0 (h : c.Sized r) : c.createG0.cols = if c.createG0.rows = 0 then 0 else r := by
  have hrows : c.createG0.rows = 0 ↔ (List.range c.domains_size).flatMap c.G0_block = [] := by
    rw [h.createG0_eq]
    exact List.length_eq_zero_iff
  simp only [hrows]
  rw [h.createG0_eq]

lemma Sized.createG0_bounded (h : c.Sized r) : c.createG0.Bounded := by
  rw [h.createG0_eq]
  intro row hrow
  obtain ⟨d, hd, hrow'⟩ := List.mem_flatMap.mp hrow
  rw [if_neg (List.ne_nil_of_mem hrow)]
  rw [G0_block] at hrow'
  split_ifs at hrow' with hnnz
  · exact absurd hrow' List.not_mem_nil
  · obtain ⟨-, hcols, -⟩ := (h.domain d (List.mem_range.mp hd)).size_G0LocalTemp hnnz
    rw [← hcols]
    exact Domain.G0LocalTemp_bounded row hrow'

/-- **The entries of `G0`**: `-(B0 R)ᵀ`, in blocks. -/
theorem Sized.entry_createG0 (h : c.Sized r) {d i : ℕ} (hd : d < c.domains_size)
    (hi : i < c.G0_rows d) (l : ℕ) :
    c.createG0.entry (Layout.start c.G0_rows d + i) l
      = -∑ k ∈ range (c.domains d).domain_prim_size,
          (c.domains d).B0.entry l k * (c.domains d).Kplus_R.entry k i := by
  have hlen := h.length_G0_block hd
  have hnnz : (c.domains d).G0LocalTemp.nnz ≠ 0 := by
    intro hnnz
    rw [G0_rows, if_pos hnnz] at hi
    omega
  have hrow : c.createG0.rowAt (Layout.start c.G0_rows d + i) = (c.domains d).G0LocalTemp.rowAt i := by
    have hget := Layout.getElem?_flatMap_range c.G0_block hd (j := i) (by omega)
    rw [h.start_G0_block hd.le] at hget
    rw [h.createG0_eq, SparseMatrix.rowAt, SparseMatrix.rowAt, List.getD_eq_getElem?_getD, hget,
      G0_block, if_neg hnnz, List.getD_eq_getElem?_getD]
  rw [G0_rows, if_neg hnnz] at hi
  rw [SparseMatrix.entry, hrow, ← (h.domain d hd).entry_G0LocalTemp hi l]
  rfl

end Cluster

end Espreso
