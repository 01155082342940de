import Mathlib.Algebra.BigOperators.Ring.Finset
import Mathlib.Algebra.Order.Ring.Nat
import Mathlib.Data.List.GetD
import Mathlib.Data.Rat.Defs
import Mathlib.Tactic.Ring

/-!
# Sparse and dense matrices of the solver

A matrix in the CSR format is kept as the list of its rows, each the list of its stored entries;
rows and columns are numbered from 0.  A stored entry may be zero: `nnz` counts what is stored.  The
operations that the source hands to the BLAS library follow the documented result of the routine.

* `Row` — the stored entries of one row; `Row.entry`, `Row.dot`, `Row.collect`.
* `SparseMatrix` — `matVec`, `matTranspose`, `matMat`, `matAppend`, `matAddInPlace`, `removeLower`.
* `DenseMatrix` — column by column, with the conversions from and to CSR.
-/

namespace Espreso

open Finset

lemma sum_map_range {𝕜 : Type} [AddCommMonoid 𝕜] (n : ℕ) (f : ℕ → 𝕜) :
    ((List.range n).map f).sum = ∑ i ∈ range n, f i := by
  induction n with
  | zero => simp
  | succ n ih => simp [List.range_succ, sum_range_succ, ih]

/-! ## Rows -/

abbrev Row := List (ℕ × ℚ)

namespace Row

/-- The value in column `j`. -/
def entry (es : Row) (j : ℕ) : ℚ := ((es.filter fun e => e.1 = j).map Prod.snd).sum

def dot (es : Row) (x : ℕ → ℚ) : ℚ := (es.map fun e => e.2 * x e.1).sum

/-- One stored entry for each column that occurs, in ascending order. -/
def collect (cols : ℕ) (es : Row) : Row :=
  (List.range cols).filterMap fun j => if ∃ e ∈ es, e.1 = j then some (j, entry es j) else none

/-- The columns are below `n`. -/
def Below (es : Row) (n : ℕ) : Prop := ∀ e ∈ es, e.1 < n

@[simp] lemma entry_nil (j : ℕ) : entry [] j = 0 := rfl

lemma entry_cons (e : ℕ × ℚ) (es : Row) (j : ℕ) :
    entry (e :: es) j = (if e.1 = j then e.2 else 0) + entry es j := by
  by_cases h : e.1 = j <;> simp [entry, h]

lemma entry_append (es es' : Row) (j : ℕ) : entry (es ++ es') j = entry es j + entry es' j := by
  simp [entry]

lemma entry_flatMap {α : Type} (l : List α) (f : α → Row) (j : ℕ) :
    entry (l.flatMap f) j = (l.map fun a => entry (f a) j).sum := by
  induction l with
  | nil => rfl
  | cons a l ih => rw [List.flatMap_cons, entry_append, ih, List.map_cons, List.sum_cons]

lemma entry_eq_zero {es : Row} {j : ℕ} (h : ¬∃ e ∈ es, e.1 = j) : entry es j = 0 := by
  have hnil : es.filter (fun e => e.1 = j) = [] :=
    List.filter_eq_nil_iff.mpr fun e he hj => h ⟨e, he, by simpa using hj⟩
  rw [entry, hnil]
  rfl

lemma entry_map_mul (c : ℚ) (es : Row) (j : ℕ) :
    entry (es.map fun e => (e.1, c * e.2)) j = c * entry es j := by
  induction es with
  | nil => simp
  | cons e es ih =>
      rw [List.map_cons, entry_cons, entry_cons, ih]
      by_cases h : e.1 = j <;> simp [h, mul_add]

lemma Below.entry_eq_zero {es : Row} {n j : ℕ} (h : es.Below n) (hj : n ≤ j) : entry es j = 0 :=
  Row.entry_eq_zero fun ⟨e, he, hej⟩ => by
    have := h e he
    omega

lemma dot_eq_sum {es : Row} {n : ℕ} (h : es.Below n) (x : ℕ → ℚ) :
    dot es x = ∑ j ∈ range n, entry es j * x j := by
  induction es with
  | nil => simp [dot]
  | cons e es ih =>
      have hes : Row.Below es n := fun e' he' => h e' (List.mem_cons_of_mem _ he')
      have he : e.1 ∈ range n := mem_range.mpr (h e List.mem_cons_self)
      have hsplit : ∀ j, entry (e :: es) j * x j
          = (if e.1 = j then e.2 * x j else 0) + entry es j * x j := by
        intro j
        rw [entry_cons]
        by_cases hj : e.1 = j <;> simp [hj, add_mul]
      simp only [hsplit, sum_add_distrib, sum_ite_eq, if_pos he]
      rw [← ih hes]
      simp [dot]

lemma entry_flatMap_mul {es : Row} {n : ℕ} (h : es.Below n) (f : ℕ → Row) (j : ℕ) :
    entry (es.flatMap fun e => (f e.1).map fun e' => (e'.1, e.2 * e'.2)) j
      = ∑ k ∈ range n, entry es k * entry (f k) j := by
  rw [entry_flatMap, ← dot_eq_sum h]
  exact congrArg List.sum (List.map_congr_left fun e _ => entry_map_mul _ _ _)

lemma collect_below (cols : ℕ) (es : Row) : (collect cols es).Below cols := by
  intro e he
  obtain ⟨j, hj, hej⟩ := List.mem_filterMap.mp he
  split_ifs at hej with hex
  cases hej
  exact List.mem_range.mp hj

lemma entry_filterMap_range (n : ℕ) (c : ℕ → Prop) [DecidablePred c] (v : ℕ → ℚ) (j : ℕ) :
    entry ((List.range n).filterMap fun j => if c j then some (j, v j) else none) j
      = if j < n ∧ c j then v j else 0 := by
  induction n with
  | zero => simp
  | succ n ih =>
      rw [List.range_succ, List.filterMap_append, entry_append, ih, List.filterMap_cons,
        List.filterMap_nil]
      by_cases hn : c n
      · simp only [if_pos hn, entry_cons, entry_nil, add_zero]
        grind
      · simp only [if_neg hn, entry_nil, add_zero]
        grind

lemma entry_collect (cols : ℕ) (es : Row) (j : ℕ) :
    entry (collect cols es) j = if j < cols then entry es j else 0 := by
  rw [collect, entry_filterMap_range]
  by_cases hex : ∃ e ∈ es, e.1 = j
  · simp [hex]
  · simp [hex, entry_eq_zero hex]

lemma collect_eq_nil_iff {cols : ℕ} {es : Row} (h : es.Below cols) : collect cols es = [] ↔ es = [] := by
  constructor
  · intro hnil
    refine List.eq_nil_iff_forall_not_mem.mpr fun e he => ?_
    have hmem : (e.1, entry es e.1) ∈ collect cols es :=
      List.mem_filterMap.mpr ⟨e.1, List.mem_range.mpr (h e he), if_pos ⟨e, he, rfl⟩⟩
    rw [hnil] at hmem
    exact absurd hmem List.not_mem_nil
  · rintro rfl
    simp [collect]

end Row

/-! ## Sparse matrices -/

/-- A matrix in the CSR format, row by row. -/
structure SparseMatrix where
  cols : ℕ
  csr : List Row
deriving DecidableEq

namespace SparseMatrix

variable (A B : SparseMatrix)

def empty : SparseMatrix := ⟨0, []⟩

def rows : ℕ := A.csr.length

def nnz : ℕ := (A.csr.map List.length).sum

def rowAt (i : ℕ) : Row := A.csr.getD i []

def entry (i j : ℕ) : ℚ := (A.rowAt i).entry j

/-- The column indices are below `cols`. -/
def Bounded : Prop := ∀ row ∈ A.csr, row.Below A.cols

/-- `MatVec(x, y, 'N')` -/
def matVec (x : ℕ → ℚ) (i : ℕ) : ℚ := (A.rowAt i).dot x

/-- `MatVec(x, y, 'T')` -/
def matVecT (x : ℕ → ℚ) (j : ℕ) : ℚ := ∑ i ∈ range A.rows, A.entry i j * x i

/-- `MatTranspose` -/
def matTranspose : SparseMatrix where
  cols := A.rows
  csr := (List.range A.cols).map fun j => (List.range A.rows).flatMap fun i =>
    ((A.rowAt i).filter fun e => e.1 = j).map fun e => (i, e.2)

/-- `MatScale` -/
def matScale (alpha : ℚ) : SparseMatrix :=
  { A with csr := A.csr.map fun row => row.map fun e => (e.1, alpha * e.2) }

/-- `MatMat(A, 'N', B)` into a new matrix, which stays empty if a factor stores nothing. -/
def matMat : SparseMatrix :=
  if 0 < A.nnz ∧ 0 < B.nnz then
    { cols := B.cols
      csr := A.csr.map fun row => Row.collect B.cols
        (row.flatMap fun e => (B.rowAt e.1).map fun e' => (e'.1, e.2 * e'.2)) }
  else empty

def product : SparseMatrix where
  cols := B.cols
  csr := A.csr.map fun row => Row.collect B.cols
    (row.flatMap fun e => (B.rowAt e.1).map fun e' => (e'.1, e.2 * e'.2))

/-- `MatAppend`: a matrix that stores nothing is not appended. -/
def matAppend : SparseMatrix :=
  if B.nnz ≠ 0 then
    if A.nnz = 0 ∧ A.rows = 0 ∧ A.cols = 0 then B
    else { cols := A.cols, csr := A.csr ++ B.csr }
  else A

/-- `MatAddInPlace(B, 'N', 1.0)` -/
def matAddInPlace : SparseMatrix :=
  if B.nnz = 0 then A
  else if A.nnz = 0 then B
  else
    { cols := A.cols
      csr := (List.range A.rows).map fun i => Row.collect A.cols (A.rowAt i ++ B.rowAt i) }

/-- `RemoveLower` -/
def removeLower : SparseMatrix :=
  if A.rows = 0 ∨ A.cols = 0 then A
  else
    { A with csr := (List.range A.rows).map fun i => (A.rowAt i).filter fun e => i ≤ e.1 }

/-- The entry of the symmetric matrix of which the upper triangle is stored. -/
def symEntry (i j : ℕ) : ℚ := if i ≤ j then A.entry i j else A.entry j i

/-! ### Their entries -/

variable {A B}

lemma rowAt_eq_nil {i : ℕ} (h : A.rows ≤ i) : A.rowAt i = [] := List.getD_eq_default _ _ h

lemma entry_eq_zero_of_rows {i : ℕ} (h : A.rows ≤ i) (j : ℕ) : A.entry i j = 0 := by
  rw [entry, rowAt_eq_nil h, Row.entry_nil]

lemma rowAt_mem {i : ℕ} (h : i < A.rows) : A.rowAt i ∈ A.csr := by
  rw [rowAt, List.getD_eq_getElem?_getD, List.getElem?_eq_getElem h, Option.getD_some]
  exact List.getElem_mem h

lemma Bounded.rowAt_below (hA : A.Bounded) (i : ℕ) : (A.rowAt i).Below A.cols := by
  rcases lt_or_ge i A.rows with h | h
  · exact hA _ (rowAt_mem h)
  · rw [rowAt_eq_nil h]
    exact fun e he => absurd he List.not_mem_nil

lemma Bounded.entry_eq_zero (hA : A.Bounded) (i : ℕ) {j : ℕ} (hj : A.cols ≤ j) : A.entry i j = 0 :=
  (hA.rowAt_below i).entry_eq_zero hj

lemma Bounded.matVec_eq (hA : A.Bounded) (x : ℕ → ℚ) (i : ℕ) :
    A.matVec x i = ∑ j ∈ range A.cols, A.entry i j * x j :=
  Row.dot_eq_sum (hA.rowAt_below i) x

lemma rowAt_map {cols : ℕ} {f : Row → Row} (hf : f [] = []) (i : ℕ) :
    rowAt ⟨cols, A.csr.map f⟩ i = f (A.rowAt i) := by
  rw [rowAt, rowAt, List.getD_eq_getElem?_getD, List.getD_eq_getElem?_getD, List.getElem?_map]
  cases A.csr[i]? <;> simp [hf]

lemma rowAt_map_range {cols n : ℕ} {f : ℕ → Row} (i : ℕ) :
    rowAt ⟨cols, (List.range n).map f⟩ i = if i < n then f i else [] := by
  rw [rowAt, List.getD_eq_getElem?_getD, List.getElem?_map]
  split_ifs with h
  · rw [List.getElem?_range h]
    rfl
  · rw [List.getElem?_eq_none (by simpa using h)]
    rfl

lemma nnz_eq_zero_iff : A.nnz = 0 ↔ ∀ row ∈ A.csr, row = [] := by
  simp [nnz, List.sum_eq_zero_iff_forall_eq_nat]

lemma rowAt_of_nnz (h : A.nnz = 0) (i : ℕ) : A.rowAt i = [] := by
  rcases lt_or_ge i A.rows with hi | hi
  · exact nnz_eq_zero_iff.mp h _ (rowAt_mem hi)
  · exact rowAt_eq_nil hi

lemma entry_of_nnz (h : A.nnz = 0) (i j : ℕ) : A.entry i j = 0 := by
  rw [entry, rowAt_of_nnz h, Row.entry_nil]

@[simp] lemma entry_empty (i j : ℕ) : empty.entry i j = 0 := entry_of_nnz rfl i j

@[simp] lemma rows_matTranspose : A.matTranspose.rows = A.cols := by simp [rows, matTranspose]

@[simp] lemma cols_matTranspose : A.matTranspose.cols = A.rows := rfl

lemma matTranspose_bounded : A.matTranspose.Bounded := by
  intro row hrow e he
  obtain ⟨j, -, rfl⟩ := List.mem_map.mp hrow
  obtain ⟨i, hi, he⟩ := List.mem_flatMap.mp he
  obtain ⟨e', -, rfl⟩ := List.mem_map.mp he
  exact List.mem_range.mp hi

lemma Bounded.entry_matTranspose (hA : A.Bounded) (i j : ℕ) :
    A.matTranspose.entry j i = A.entry i j := by
  have hcolumn : ∀ i' i, Row.entry (((A.rowAt i').filter fun e => e.1 = j).map fun e => (i', e.2)) i
      = if i' = i then A.entry i' j else 0 := by
    intro i' i
    by_cases h : i' = i <;> simp [Row.entry, entry, List.filter_map, Function.comp_def, h]
  rw [entry, matTranspose, rowAt_map_range]
  split_ifs with hj
  · rw [Row.entry_flatMap, List.map_congr_left fun i' _ => hcolumn i' i, sum_map_range, sum_ite_eq']
    split_ifs with hi
    · rfl
    · exact (entry_eq_zero_of_rows (by simpa using hi) j).symm
  · rw [Row.entry_nil, hA.entry_eq_zero i (by omega)]

@[simp] lemma rows_matScale (alpha : ℚ) : (A.matScale alpha).rows = A.rows := by
  simp [rows, matScale]

@[simp] lemma cols_matScale (alpha : ℚ) : (A.matScale alpha).cols = A.cols := rfl

@[simp] lemma nnz_matScale (alpha : ℚ) : (A.matScale alpha).nnz = A.nnz := by
  simp [nnz, matScale, Function.comp_def]

lemma entry_matScale (alpha : ℚ) (i j : ℕ) :
    (A.matScale alpha).entry i j = alpha * A.entry i j := by
  rw [entry, matScale, rowAt_map rfl, Row.entry_map_mul, entry]

lemma Bounded.matScale (hA : A.Bounded) (alpha : ℚ) : (A.matScale alpha).Bounded := by
  intro row hrow e he
  obtain ⟨row', hrow', rfl⟩ := List.mem_map.mp hrow
  obtain ⟨e', he', rfl⟩ := List.mem_map.mp he
  exact hA row' hrow' e' he'

lemma matMat_bounded : (A.matMat B).Bounded := by
  rw [matMat]
  split_ifs with h
  · intro row hrow
    obtain ⟨row', -, rfl⟩ := List.mem_map.mp hrow
    exact Row.collect_below _ _
  · exact fun row hrow => absurd hrow List.not_mem_nil

lemma product_bounded : (A.product B).Bounded := by
  intro row hrow
  obtain ⟨row', -, rfl⟩ := List.mem_map.mp hrow
  exact Row.collect_below _ _

lemma Bounded.entry_product (hA : A.Bounded) (hB : B.Bounded) (i j : ℕ) :
    (A.product B).entry i j = ∑ k ∈ range A.cols, A.entry i k * B.entry k j := by
  rw [entry, product, rowAt_map (by simp [Row.collect]), Row.entry_collect,
    Row.entry_flatMap_mul (hA.rowAt_below i)]
  split_ifs with hj
  · rfl
  · refine (sum_eq_zero fun k _ => ?_).symm
    rw [hB.entry_eq_zero k (by omega), mul_zero]

lemma Bounded.entry_matMat (hA : A.Bounded) (hB : B.Bounded) (i j : ℕ) :
    (A.matMat B).entry i j = ∑ k ∈ range A.cols, A.entry i k * B.entry k j := by
  rw [matMat]
  split_ifs with h
  · exact hA.entry_product hB i j
  · rw [entry_empty, eq_comm]
    refine sum_eq_zero fun k _ => ?_
    by_cases hnnz : A.nnz = 0
    · rw [entry_of_nnz hnnz, zero_mul]
    · rw [entry_of_nnz (A := B) (by omega), mul_zero]

lemma matMat_of_nnz (h : B.nnz = 0) : A.matMat B = empty := by
  rw [matMat, if_neg fun h' => by omega]

lemma size_matMat (h : (A.matMat B).nnz ≠ 0) :
    (A.matMat B).rows = A.rows ∧ (A.matMat B).cols = B.cols := by
  rw [matMat] at h ⊢
  split_ifs with hnnz
  · exact ⟨by simp [rows], rfl⟩
  · rw [if_neg hnnz] at h
    exact absurd rfl h

lemma rows_pos_of_nnz (h : A.nnz ≠ 0) : 0 < A.rows := by
  refine Nat.pos_of_ne_zero fun hrows => h ?_
  rw [nnz, List.length_eq_zero_iff.mp hrows]
  rfl

lemma Bounded.matAddInPlace (hA : A.Bounded) (hB : B.Bounded) : (A.matAddInPlace B).Bounded := by
  rw [SparseMatrix.matAddInPlace]
  split_ifs with h h'
  · exact hA
  · exact hB
  · intro row hrow
    obtain ⟨i, -, rfl⟩ := List.mem_map.mp hrow
    exact Row.collect_below _ _

lemma size_matAddInPlace {m n : ℕ} (hA : A.nnz ≠ 0 → A.rows = m ∧ A.cols = n)
    (hB : B.nnz ≠ 0 → B.rows = m ∧ B.cols = n) (h : (A.matAddInPlace B).nnz ≠ 0) :
    (A.matAddInPlace B).rows = m ∧ (A.matAddInPlace B).cols = n := by
  rw [SparseMatrix.matAddInPlace] at h ⊢
  split_ifs with hB0 hA0
  · rw [if_pos hB0] at h
    exact hA h
  · exact hB hB0
  · obtain ⟨hrows, hcols⟩ := hA hA0
    exact ⟨by simpa [rows] using hrows, hcols⟩

lemma nnz_eq_length_flatten (A : SparseMatrix) : A.nnz = A.csr.flatten.length :=
  List.length_flatten.symm

lemma Bounded.nnz_matAddInPlace (hA : A.Bounded) (hB : B.Bounded) (hnnz : B.nnz ≠ 0)
    (hsize : A.nnz ≠ 0 → A.rows = B.rows ∧ A.cols = B.cols) : (A.matAddInPlace B).nnz ≠ 0 := by
  rw [SparseMatrix.matAddInPlace, if_neg hnnz]
  split_ifs with hzero
  · exact hnnz
  · obtain ⟨hrows, hcols⟩ := hsize hzero
    intro hall
    refine hnnz (nnz_eq_zero_iff.mpr fun row hrow => ?_)
    obtain ⟨i, hi⟩ := List.mem_iff_getElem?.mp hrow
    have hlt : i < A.rows := by
      rw [hrows]
      exact (List.getElem?_eq_some_iff.mp hi).1
    have hrow' : B.rowAt i = row := by rw [rowAt, List.getD_eq_getElem?_getD, hi, Option.getD_some]
    have hnil := nnz_eq_zero_iff.mp hall _
      (List.mem_map_of_mem (List.mem_range.mpr hlt))
    rw [Row.collect_eq_nil_iff, List.append_eq_nil_iff, hrow'] at hnil
    · exact hnil.2
    · intro e he
      rcases List.mem_append.mp he with he | he
      · exact hA.rowAt_below i e he
      · rw [hcols]
        exact hB.rowAt_below i e he

lemma Bounded.entry_matAddInPlace (hA : A.Bounded) (hB : B.Bounded)
    (hsize : A.nnz ≠ 0 → B.nnz ≠ 0 → A.rows = B.rows ∧ A.cols = B.cols) (i j : ℕ) :
    (A.matAddInPlace B).entry i j = A.entry i j + B.entry i j := by
  rw [SparseMatrix.matAddInPlace]
  split_ifs with h h'
  · rw [entry_of_nnz h, add_zero]
  · rw [entry_of_nnz h', zero_add]
  · have hs := hsize h' h
    rw [entry, rowAt_map_range]
    split_ifs with hi
    · rw [Row.entry_collect, Row.entry_append]
      split_ifs with hj
      · rfl
      · rw [hA.entry_eq_zero i (by omega), hB.entry_eq_zero i (by omega), add_zero]
    · rw [Row.entry_nil, entry_eq_zero_of_rows (by omega), entry_eq_zero_of_rows (by omega), add_zero]

@[simp] lemma rows_removeLower : A.removeLower.rows = A.rows := by
  rw [removeLower]
  split_ifs with h
  · rfl
  · simp [rows]

@[simp] lemma cols_removeLower : A.removeLower.cols = A.cols := by
  rw [removeLower]
  split_ifs <;> rfl

lemma entry_removeLower {i j : ℕ} (hij : i ≤ j) : A.removeLower.entry i j = A.entry i j := by
  rw [removeLower]
  split_ifs with h
  · rfl
  · rw [entry, rowAt_map_range]
    split_ifs with hi
    · rw [Row.entry, List.filter_filter, entry, Row.entry]
      refine congrArg List.sum (congrArg _ (List.filter_congr fun e _ => ?_))
      by_cases hej : e.1 = j <;> simp [hej, hij]
    · rw [Row.entry_nil, entry_eq_zero_of_rows (by omega)]

lemma Bounded.entry_removeLower_of_lt (hA : A.Bounded) {i j : ℕ} (hij : j < i) :
    A.removeLower.entry i j = 0 := by
  rw [removeLower]
  split_ifs with h
  · rcases h with h | h
    · exact entry_eq_zero_of_rows (by omega) j
    · exact hA.entry_eq_zero i (by omega)
  · rw [entry, rowAt_map_range]
    split_ifs with hi
    · refine Row.entry_eq_zero fun ⟨e, he, hej⟩ => ?_
      have hle := of_decide_eq_true (List.mem_filter.mp he).2
      omega
    · rfl

lemma symEntry_removeLower (hsymm : ∀ i j, A.entry i j = A.entry j i) (i j : ℕ) :
    A.removeLower.symEntry i j = A.entry i j := by
  rw [symEntry]
  split_ifs with h
  · exact entry_removeLower h
  · rw [entry_removeLower (by omega), hsymm]

end SparseMatrix

/-! ## Dense matrices -/

/-- A dense matrix, column by column. -/
structure DenseMatrix where
  rows : ℕ
  cols : ℕ
  dense_values : ℕ → ℚ

namespace DenseMatrix

variable (D : DenseMatrix)

def entry (i j : ℕ) : ℚ := D.dense_values (j * D.rows + i)

/-- `DenseMatVec(x, y, 'N', x_start)` -/
def denseMatVec (x : ℕ → ℚ) (x_start : ℕ) (i : ℕ) : ℚ :=
  ∑ j ∈ range D.cols, D.entry i j * x (x_start + j)

/-- `DenseMatVec(x, y, 'T')` -/
def denseMatVecT (x : ℕ → ℚ) (j : ℕ) : ℚ := ∑ i ∈ range D.rows, D.entry i j * x i

/-- `ConvertDenseToCSR`: the entries that are not zero. -/
def convertDenseToCSR : SparseMatrix where
  cols := D.cols
  csr := (List.range D.rows).map fun i => (List.range D.cols).filterMap fun j =>
    if D.entry i j ≠ 0 then some (j, D.entry i j) else none

/-- `ConvertCSRToDense` -/
def ofSparse (A : SparseMatrix) : DenseMatrix where
  rows := A.rows
  cols := A.cols
  dense_values k := A.entry (k % A.rows) (k / A.rows)

variable {D}

lemma entry_ofSparse (A : SparseMatrix) {i : ℕ} (hi : i < A.rows) (j : ℕ) :
    (ofSparse A).entry i j = A.entry i j := by
  simp only [entry, ofSparse]
  rw [Nat.mul_comm, Nat.mul_add_mod, Nat.mod_eq_of_lt hi, Nat.mul_add_div (by omega),
    Nat.div_eq_of_lt hi, Nat.add_zero]

lemma convertDenseToCSR_bounded : D.convertDenseToCSR.Bounded := by
  intro row hrow e he
  obtain ⟨i, -, rfl⟩ := List.mem_map.mp hrow
  obtain ⟨j, hj, he⟩ := List.mem_filterMap.mp he
  split_ifs at he
  cases he
  exact List.mem_range.mp hj

@[simp] lemma rows_convertDenseToCSR : D.convertDenseToCSR.rows = D.rows := by
  simp [SparseMatrix.rows, convertDenseToCSR]

@[simp] lemma cols_convertDenseToCSR : D.convertDenseToCSR.cols = D.cols := rfl

lemma entry_convertDenseToCSR {i j : ℕ} (hi : i < D.rows) (hj : j < D.cols) :
    D.convertDenseToCSR.entry i j = D.entry i j := by
  rw [SparseMatrix.entry, convertDenseToCSR, SparseMatrix.rowAt_map_range, if_pos hi,
    Row.entry_filterMap_range]
  by_cases h : D.entry i j = 0 <;> simp [h, hj]

end DenseMatrix

end Espreso
