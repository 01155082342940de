import Espreso.Solver.SparseProducts

/-!
# Matrices in the coordinate format

* `CooMatrix` — row, column and value of every entry; `CooMatrix.convertToCSRwithSort`.
* `SparseMatrix.convertToCOO` — and back.
* **`CooMatrix.entry_convertToCSRwithSort`**, **`SparseMatrix.entry_convertToCOO`** — the conversions
  keep the entries.
-/

namespace Espreso

open Finset

/-- A matrix in the coordinate format: row, column and value of every entry, numbered from 1. -/
structure CooMatrix where
  rows : ℕ
  cols : ℕ
  entries : List (ℕ × ℕ × ℚ)

namespace CooMatrix

variable (A : CooMatrix)

def nnz : ℕ := A.entries.length

/-- The value in row `l` and column `i`, numbered from 0. -/
def entry (l i : ℕ) : ℚ :=
  ((A.entries.filter fun e => e.1 = l + 1 ∧ e.2.1 = i + 1).map fun e => e.2.2).sum

/-- `ConvertToCSRwithSort` -/
def convertToCSRwithSort : SparseMatrix where
  cols := A.cols
  csr := (List.range A.rows).map fun q =>
    ((A.entries.filter fun e => e.1 = q + 1).map fun e => (e.2.1 - 1, e.2.2)).insertionSort
      fun e e' => e.1 ≤ e'.1

variable {A}

lemma sum_row {A : CooMatrix} {n : ℕ} (hcol : ∀ e ∈ A.entries, 0 < e.2.1 ∧ e.2.1 ≤ n)
    (l : ℕ) (x : ℕ → ℚ) :
    ((A.entries.filter fun e => e.1 = l + 1).map fun e => e.2.2 * x (e.2.1 - 1)).sum
      = ∑ i ∈ range n, A.entry l i * x i := by
  have hbelow : Row.Below ((A.entries.filter fun e => e.1 = l + 1).map fun e => (e.2.1 - 1, e.2.2))
      n := by
    intro e he
    obtain ⟨e', he', rfl⟩ := List.mem_map.mp he
    have hrange := hcol e' (List.mem_of_mem_filter he')
    have hlt : e'.2.1 - 1 < n := by omega
    exact hlt
  have hdot := Row.dot_eq_sum hbelow x
  rw [Row.dot, List.map_map] at hdot
  refine hdot.trans (sum_congr rfl fun i _ => congrArg (· * x i) ?_)
  rw [Row.entry, entry, List.filter_map, List.map_map, List.filter_filter]
  refine congrArg (fun es => (List.map _ es).sum) (List.filter_congr fun e he => ?_)
  have hrange := hcol e he
  simp only [Function.comp_apply, ← Bool.decide_and, decide_eq_decide]
  omega

lemma rows_convertToCSRwithSort : A.convertToCSRwithSort.rows = A.rows := by
  rw [SparseMatrix.rows, convertToCSRwithSort, List.length_map, List.length_range]

lemma mem_convertToCSRwithSort {q : ℕ} {e : ℕ × ℚ} :
    e ∈ A.convertToCSRwithSort.rowAt q ↔
      q < A.rows ∧ ∃ m ∈ A.entries, m.1 = q + 1 ∧ (m.2.1 - 1, m.2.2) = e := by
  rw [convertToCSRwithSort, SparseMatrix.rowAt_map_range]
  split_ifs with hq
  · rw [(List.perm_insertionSort _ _).mem_iff, List.mem_map]
    simp only [List.mem_filter, decide_eq_true_eq, hq, true_and, and_assoc]
  · simp only [hq, false_and, List.not_mem_nil]

lemma entry_convertToCSRwithSort (hcol : ∀ e ∈ A.entries, 0 < e.2.1) {q : ℕ} (hq : q < A.rows)
    (j : ℕ) : A.convertToCSRwithSort.entry q j = A.entry q j := by
  rw [SparseMatrix.entry, convertToCSRwithSort, SparseMatrix.rowAt_map_range, if_pos hq,
    Row.entry_perm (List.perm_insertionSort _ _), Row.entry, entry, List.filter_map, List.map_map,
    List.filter_filter]
  refine congrArg (fun es => (List.map _ es).sum) (List.filter_congr fun e he => ?_)
  have hpos := hcol e he
  simp only [Function.comp_apply, ← Bool.decide_and, decide_eq_decide]
  omega

end CooMatrix

namespace SparseMatrix

variable (A : SparseMatrix)

/-- `ConvertToCOO` -/
def convertToCOO : CooMatrix where
  rows := A.rows
  cols := A.cols
  entries := (List.range A.rows).flatMap fun i =>
    (A.rowAt i).map fun e => (i + 1, e.1 + 1, e.2)

variable {A}

lemma mem_convertToCOO {e : ℕ × ℕ × ℚ} :
    e ∈ A.convertToCOO.entries ↔ ∃ i < A.rows, ∃ e' ∈ A.rowAt i, (i + 1, e'.1 + 1, e'.2) = e := by
  simp only [convertToCOO, List.mem_flatMap, List.mem_range, List.mem_map]

lemma entry_convertToCOO (i j : ℕ) : A.convertToCOO.entry i j = A.entry i j := by
  have hrow : ∀ q, (((A.rowAt q).map fun e : ℕ × ℚ => (q + 1, e.1 + 1, e.2)).filter
      fun e => e.1 = i + 1 ∧ e.2.1 = j + 1).map (fun e => e.2.2)
        = if q = i then ((A.rowAt q).filter fun e => e.1 = j).map Prod.snd else [] := by
    intro q
    rw [List.filter_map, List.map_map]
    split_ifs with hq
    · refine congrArg (List.map _) (List.filter_congr fun e _ => ?_)
      simp [hq]
    · rw [List.filter_eq_nil_iff.mpr fun e _ => by simp [hq], List.map_nil]
  rw [CooMatrix.entry, convertToCOO, List.filter_flatMap, List.map_flatMap]
  simp only [hrow]
  rw [List.flatMap_def, List.sum_flatten, List.map_map, sum_map_range]
  have hsum : ∀ q ∈ range A.rows, (List.sum ∘ fun q => if q = i then
      ((A.rowAt q).filter fun e => e.1 = j).map Prod.snd else []) q
        = if q = i then A.entry i j else 0 := by
    intro q _
    rw [Function.comp_apply]
    split_ifs with hq
    · rw [hq]
      rfl
    · rfl
  rw [sum_congr rfl hsum, sum_ite_eq']
  split_ifs with hi
  · rfl
  · exact (entry_eq_zero_of_rows (not_lt.mp fun hlt => hi (mem_range.mpr hlt)) j).symm

end SparseMatrix

end Espreso
