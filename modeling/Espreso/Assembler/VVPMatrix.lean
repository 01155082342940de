import Espreso.Solver.SparseMatrix
import Mathlib.Algebra.BigOperators.Group.List.Lemmas
import Mathlib.Algebra.Order.BigOperators.Group.List
import Mathlib.Tactic.Linarith

/-!
# Collecting the entries of a sparse matrix

`SparseVVPMatrix` keeps for each row a list of pairs of a column and a value.  A write appends a
pair; `shrink` sorts every row and adds up the pairs of one column in place, and the constructor of
`SparseCSRMatrix` moves the rows behind each other and numbers rows and columns from 1.

* `Sorting` — `std::sort` of a row: pairs with the same column come in any order.
* **`shrinkRow_spec`** — a row after `shrink`: ascending columns, the same columns, the same sums.
* **`ofVVP_row`** — the rows of the result.
-/

namespace Espreso.Assembling

open Finset

/-- What `std::sort` with `compare` may do to a row. -/
structure Sorting where
  sort : Row → Row
  perm : ∀ es, (sort es).Perm es
  ascending : ∀ es, (sort es).Pairwise fun a b => a.1 ≤ b.1

/-- A sort that keeps the order of the pairs with the same column. -/
def Sorting.stable : Sorting where
  sort := fun es => es.mergeSort fun a b => a.1 ≤ b.1
  perm := fun es => List.mergeSort_perm es _
  ascending := fun es => by
    refine (List.pairwise_mergeSort (fun a b c hab hbc => ?_) (fun a b => ?_) es).imp fun hab => ?_
    · simpa using le_trans (of_decide_eq_true hab) (of_decide_eq_true hbc)
    · simpa using le_total a.1 b.1
    · exact of_decide_eq_true hab

/-! ## The matrix of pairs -/

structure SparseVVPMatrix where
  rows : ℕ
  columns : ℕ
  values : List Row

namespace SparseVVPMatrix

def empty : SparseVVPMatrix := ⟨0, 0, []⟩

/-- `resize` of a matrix without rows -/
def resize (rows columns : ℕ) : SparseVVPMatrix := ⟨rows, columns, List.replicate rows []⟩

/-- `A(row, column) = value`: a pair is appended, and the matrix grows if it has no such row or
column. -/
def write (A : SparseVVPMatrix) (row column : ℕ) (value : ℚ) : SparseVVPMatrix where
  rows := if A.values.length ≤ row then row + 1 else A.rows
  columns := if A.columns ≤ column then column + 1 else A.columns
  values := (A.values ++ List.replicate (row + 1 - A.values.length) []).modify row
    (· ++ [(column, value)])

def writeAll (A : SparseVVPMatrix) (l : List (ℕ × ℕ × ℚ)) : SparseVVPMatrix :=
  l.foldl (fun A e => A.write e.1 e.2.1 e.2.2) A

/-- An `n × n` matrix with all its rows. -/
def Square (A : SparseVVPMatrix) (n : ℕ) : Prop :=
  A.rows = n ∧ A.columns = n ∧ A.values.length = n

lemma square_resize (n : ℕ) : (resize n n).Square n := ⟨rfl, rfl, List.length_replicate⟩

lemma Square.write {A : SparseVVPMatrix} {n row column : ℕ} (h : A.Square n) (hrow : row < n)
    (hcolumn : column < n) (value : ℚ) : (A.write row column value).Square n := by
  obtain ⟨hrows, hcolumns, hvalues⟩ := h
  refine ⟨?_, ?_, ?_⟩ <;> simp only [SparseVVPMatrix.write]
  · rw [if_neg (by omega), hrows]
  · rw [if_neg (by omega), hcolumns]
  · rw [List.length_modify, List.length_append, List.length_replicate]
    omega

lemma Square.getD_write {A : SparseVVPMatrix} {n row column : ℕ} (h : A.Square n) (hrow : row < n)
    (value : ℚ) (i : ℕ) : (A.write row column value).values.getD i []
      = A.values.getD i [] ++ if row = i then [(column, value)] else [] := by
  have hgrow : row + 1 - A.values.length = 0 := by
    have := h.2.2
    omega
  simp only [SparseVVPMatrix.write, hgrow, List.replicate_zero, List.append_nil]
  rw [List.getD_eq_getElem?_getD, List.getD_eq_getElem?_getD, List.getElem?_modify]
  by_cases hi : row = i
  · subst hi
    have hlt : row < A.values.length := h.2.2 ▸ hrow
    simp [hlt]
  · simp [hi]

lemma Square.writeAll {n : ℕ} (l : List (ℕ × ℕ × ℚ)) (hl : ∀ e ∈ l, e.1 < n ∧ e.2.1 < n)
    {A : SparseVVPMatrix} (h : A.Square n) :
    (A.writeAll l).Square n ∧ ∀ i, (A.writeAll l).values.getD i []
      = A.values.getD i [] ++ (l.filter fun e => e.1 = i).map Prod.snd := by
  induction l generalizing A with
  | nil => exact ⟨h, fun i => (List.append_nil _).symm⟩
  | cons e l ih =>
      have he := hl e List.mem_cons_self
      obtain ⟨hsquare, hvalues⟩ :=
        ih (fun e' he' => hl e' (List.mem_cons_of_mem _ he')) (h.write he.1 he.2 e.2.2)
      refine ⟨hsquare, fun i => ?_⟩
      rw [SparseVVPMatrix.writeAll, List.foldl_cons]
      refine (hvalues i).trans ?_
      rw [h.getD_write he.1, List.append_assoc]
      by_cases hi : e.1 = i <;> simp [hi]

end SparseVVPMatrix

/-! ## `shrink` -/

/-- One step of the loop of `shrink` over a sorted row; `unique` is the last position that is used. -/
def shrinkStep (s : Row × ℕ) (j : ℕ) : Row × ℕ :=
  let values := s.1
  let unique := s.2
  if (values.getD (j - 1) (0, 0)).1 = (values.getD j (0, 0)).1 then
    (values.modify unique fun e => (e.1, e.2 + (values.getD j (0, 0)).2), unique)
  else (values.set (unique + 1) (values.getD j (0, 0)), unique + 1)

/-- `values.resize(size)` -/
def resizeRow (values : Row) (size : ℕ) : Row :=
  values.take size ++ List.replicate (size - values.length) (0, 0)

/-- `shrink` of one row -/
def shrinkRow (sorting : Sorting) (values : Row) : Row :=
  let sorted := sorting.sort values
  let s := (List.range' 1 (sorted.length - 1)).foldl shrinkStep (sorted, 0)
  resizeRow s.1 (s.2 + 1)

/-- What the loop makes of a sorted row, without its positions: `last` is the pair to which the
values of one column are added. -/
def addUp (last : ℕ × ℚ) : Row → Row
  | [] => [last]
  | e :: rest => if last.1 = e.1 then addUp (last.1, last.2 + e.2) rest else last :: addUp e rest

lemma modify_length_append {α : Type} (f : α → α) (l m : List α) (a : α) :
    (l ++ a :: m).modify l.length f = l ++ f a :: m := by
  induction l with
  | nil => rfl
  | cons b l ih => rw [List.cons_append, List.length_cons, List.modify_succ_cons, ih, List.cons_append]

lemma shrinkStep_eq {done gap rest : Row} {last e : ℕ × ℚ}
    (hgap : ((last :: gap).getLast (List.cons_ne_nil _ _)).1 = last.1) :
    shrinkStep (done ++ last :: gap ++ e :: rest, done.length) (done ++ last :: gap).length
      = if last.1 = e.1 then
          (done ++ (last.1, last.2 + e.2) :: (gap ++ [e]) ++ rest, done.length)
        else (done ++ [last] ++ e :: (gap ++ [e]).tail ++ rest, (done ++ [last]).length) := by
  have hread : (done ++ last :: gap ++ e :: rest).getD (done ++ last :: gap).length (0, 0) = e := by
    simp
  have hbefore : ((done ++ last :: gap ++ e :: rest).getD
      ((done ++ last :: gap).length - 1) (0, 0)).1 = last.1 := by
    rw [← hgap, List.getD_append _ _ _ _ (by simp), List.getLast_eq_getElem]
    simp [List.getD_eq_getElem?_getD]
  simp only [shrinkStep, hread, hbefore]
  split_ifs with h
  · rw [List.append_assoc, List.cons_append, modify_length_append]
    simp
  · cases gap with
    | nil => simp
    | cons g gap => simp

lemma shrink_loop (rest : Row) : ∀ (done gap : Row) (last : ℕ × ℚ),
    ((last :: gap).getLast (List.cons_ne_nil _ _)).1 = last.1 →
    let s := (List.range' (done ++ last :: gap).length rest.length).foldl shrinkStep
      (done ++ last :: gap ++ rest, done.length)
    resizeRow s.1 (s.2 + 1) = done ++ addUp last rest := by
  induction rest with
  | nil =>
      intro done gap last _
      have htake : (done ++ last :: gap).take (done.length + 1) = done ++ [last] := by
        rw [List.take_append, List.take_of_length_le (by omega)]
        simp
      simp [resizeRow, addUp, htake]
  | cons e rest ih =>
      intro done gap last hgap
      simp only [List.length_cons, List.range'_succ, List.foldl_cons, shrinkStep_eq hgap, addUp]
      split_ifs with h
      · have hlength : (done ++ last :: gap).length + 1
            = (done ++ (last.1, last.2 + e.2) :: (gap ++ [e])).length := by
          simp only [List.length_append, List.length_cons, List.length_nil]
          omega
        rw [hlength]
        exact ih done (gap ++ [e]) (last.1, last.2 + e.2) (by simp [h])
      · have hlength : (done ++ last :: gap).length + 1
            = (done ++ [last] ++ e :: (gap ++ [e]).tail).length := by
          simp only [List.length_append, List.length_cons, List.length_nil, List.length_tail]
          omega
        rw [hlength]
        refine (ih (done ++ [last]) (gap ++ [e]).tail e ?_).trans (by simp)
        cases gap <;> simp

lemma shrinkRow_eq (sorting : Sorting) {values rest : Row} {last : ℕ × ℚ}
    (h : sorting.sort values = last :: rest) : shrinkRow sorting values = addUp last rest := by
  simp only [shrinkRow, h]
  exact shrink_loop rest [] [] last rfl

lemma addUp_columns (last : ℕ × ℚ) (rest : Row) (c : ℕ) :
    (∃ e ∈ addUp last rest, e.1 = c) ↔ ∃ e ∈ last :: rest, e.1 = c := by
  induction rest generalizing last with
  | nil => rfl
  | cons e rest ih =>
      rw [addUp]
      split_ifs with h
      · rw [ih]
        simp only [List.exists_mem_cons_iff, h]
        tauto
      · simp only [List.exists_mem_cons_iff, ih]

lemma addUp_entry (last : ℕ × ℚ) (rest : Row) (c : ℕ) :
    Row.entry (addUp last rest) c = Row.entry (last :: rest) c := by
  induction rest generalizing last with
  | nil => rfl
  | cons e rest ih =>
      rw [addUp]
      split_ifs with h
      · rw [ih, Row.entry_cons, Row.entry_cons, Row.entry_cons, ← h]
        split_ifs <;> ring
      · rw [Row.entry_cons, ih, ← Row.entry_cons]

lemma addUp_ascending {last : ℕ × ℚ} {rest : Row}
    (h : (last :: rest).Pairwise fun a b => a.1 ≤ b.1) :
    (addUp last rest).Pairwise fun a b => a.1 < b.1 := by
  induction rest generalizing last with
  | nil => exact List.pairwise_singleton _ _
  | cons e rest ih =>
      obtain ⟨hlast, hrest⟩ := List.pairwise_cons.mp h
      rw [addUp]
      split_ifs with heq
      · refine ih (List.pairwise_cons.mpr ⟨fun e' he' => ?_, (List.pairwise_cons.mp hrest).2⟩)
        exact hlast e' (List.mem_cons_of_mem _ he')
      · refine List.pairwise_cons.mpr ⟨fun e' he' => ?_, ih hrest⟩
        obtain ⟨e'', he'', hc⟩ := (addUp_columns e rest e'.1).mp ⟨e', he', rfl⟩
        have hlt : last.1 < e.1 := lt_of_le_of_ne (hlast e List.mem_cons_self) heq
        rw [← hc]
        rcases List.mem_cons.mp he'' with rfl | he''
        · exact hlt
        · exact lt_of_lt_of_le hlt ((List.pairwise_cons.mp hrest).1 e'' he'')

/-- **A row after `shrink`**, if it holds a pair at all: its columns ascend, they are the columns
that were written, and each value is the sum of what was written there. -/
theorem shrinkRow_spec (sorting : Sorting) {values : Row} (h : values ≠ []) :
    (shrinkRow sorting values).Pairwise (fun a b => a.1 < b.1) ∧
      (∀ c, (∃ e ∈ shrinkRow sorting values, e.1 = c) ↔ ∃ e ∈ values, e.1 = c) ∧
      ∀ c, Row.entry (shrinkRow sorting values) c = Row.entry values c := by
  have hperm := sorting.perm values
  cases hsort : sorting.sort values with
  | nil => exact absurd (List.nil_perm.mp (hsort ▸ hperm)) h
  | cons last rest =>
      have hascending := sorting.ascending values
      rw [hsort] at hperm hascending
      rw [shrinkRow_eq sorting hsort]
      refine ⟨addUp_ascending hascending, fun c => ?_, fun c => ?_⟩
      · rw [addUp_columns]
        simp only [hperm.mem_iff]
      · rw [addUp_entry]
        exact ((hperm.filter _).map _).sum_eq

/-! ## The CSR matrix -/

/-- `SparseCSRMatrix` with `_indexing` 1: the row pointers, the columns and the values. -/
structure SparseCSRMatrix where
  rows : ℕ
  columns : ℕ
  rowPtrs : List ℕ
  columnIndices : List ℕ
  values : List ℚ

namespace SparseCSRMatrix

def pushRow (A : SparseCSRMatrix) (row : Row) : SparseCSRMatrix :=
  let columnIndices := A.columnIndices ++ row.map fun e => e.1 + 1
  let values := A.values ++ row.map Prod.snd
  { A with
    columnIndices := columnIndices, values := values
    rowPtrs := A.rowPtrs ++ [values.length + 1] }

/-- The constructor from a `SparseVVPMatrix`, which is shrunk first. -/
def ofVVP (sorting : Sorting) (other : SparseVVPMatrix) : SparseCSRMatrix :=
  let values := other.values.map (shrinkRow sorting)
  values.foldl pushRow ⟨other.rows, other.columns, [1], [], []⟩

/-- The matrix has the given rows, whose columns are numbered from 0. -/
def Holds (A : SparseCSRMatrix) (n columns : ℕ) (l : List Row) : Prop :=
  A.rows = n ∧ A.columns = columns ∧
    A.rowPtrs = (List.range (l.length + 1)).map (fun i => ((l.map List.length).take i).sum + 1) ∧
    A.columnIndices = l.flatten.map (fun e => e.1 + 1) ∧ A.values = l.flatten.map Prod.snd

lemma Holds.pushRow {A : SparseCSRMatrix} {n columns : ℕ} {l : List Row} (h : A.Holds n columns l)
    (row : Row) : (A.pushRow row).Holds n columns (l ++ [row]) := by
  obtain ⟨hrows, hcolumns, hptrs, hindices, hvalues⟩ := h
  refine ⟨hrows, hcolumns, ?_, ?_, ?_⟩ <;>
    simp only [SparseCSRMatrix.pushRow, hptrs, hindices, hvalues, List.flatten_append,
      List.flatten_singleton, List.map_append]
  have hlength : (l ++ [row]).length + 1 = l.length + 1 + 1 := by simp
  rw [hlength, List.range_succ (n := l.length + 1), List.map_append]
  refine congrArg₂ _ (List.map_congr_left fun i hi => ?_) ?_
  · rw [List.take_append_of_le_length]
    simpa using Nat.lt_succ_iff.mp (List.mem_range.mp hi)
  · rw [List.map_singleton, List.take_of_length_le (by simp), List.sum_append, List.length_append,
      List.length_map, List.length_map, List.length_flatten]
    rfl

lemma holds_foldl {A : SparseCSRMatrix} {n columns : ℕ} {l : List Row} (l' : List Row)
    (h : A.Holds n columns l) : (l'.foldl SparseCSRMatrix.pushRow A).Holds n columns (l ++ l') := by
  induction l' generalizing A l with
  | nil => rwa [List.append_nil]
  | cons row l' ih =>
      rw [List.append_cons]
      exact ih (h.pushRow row)

lemma holds_ofVVP (sorting : Sorting) (other : SparseVVPMatrix) :
    (ofVVP sorting other).Holds other.rows other.columns
      (other.values.map (shrinkRow sorting)) :=
  holds_foldl (l := []) _ ⟨rfl, rfl, rfl, rfl, rfl⟩

end SparseCSRMatrix

inductive MatrixType
  | REAL_SYMMETRIC_POSITIVE_DEFINITE
  | REAL_SYMMETRIC_INDEFINITE
  | REAL_UNSYMMETRIC
deriving DecidableEq

/-- What `SparseMatrix` of the solver keeps of a matrix in the CSR format. -/
structure SparseMatrix where
  rows : ℕ
  cols : ℕ
  nnz : ℕ
  type : Char
  mtype : MatrixType
  CSR_I_row_indices : List ℕ
  CSR_J_col_indices : List ℕ
  CSR_V_values : List ℚ

namespace SparseMatrix

/-- The assignment of a `SparseCSRMatrix`. -/
def ofCSR (A : SparseCSRMatrix) : SparseMatrix :=
  let offset := if A.rowPtrs.getD 0 0 ≠ 0 then 0 else 1
  let nnz := A.rowPtrs.getD A.rows 0 - A.rowPtrs.getD 0 0
  { rows := A.rows, cols := A.columns, nnz := nnz, type := 'G', mtype := .REAL_UNSYMMETRIC
    CSR_I_row_indices := (List.range (A.rows + 1)).map fun i => A.rowPtrs.getD i 0 + offset
    CSR_J_col_indices := (List.range nnz).map fun i => A.columnIndices.getD i 0 + offset
    CSR_V_values := A.values.take nnz }

/-- The stored entries of row `i`, between two row pointers. -/
def row (A : SparseMatrix) (i : ℕ) : Row :=
  let first := A.CSR_I_row_indices.getD i 0 - 1
  let last := A.CSR_I_row_indices.getD (i + 1) 0 - 1
  ((A.CSR_J_col_indices.zip A.CSR_V_values).take last).drop first

/-- **An `n × n` matrix in the CSR format numbered from 1**: the row pointers begin with 1, end behind
the last entry and do not fall, each row has ascending columns, exactly the positions of `touched`
are stored, and the values are those of `value`, which numbers rows and columns from 0. -/
structure Assembled (A : SparseMatrix) (n : ℕ) (touched : ℕ → ℕ → Prop) (value : ℕ → ℕ → ℚ) :
    Prop where
  rows : A.rows = n
  cols : A.cols = n
  pointers : A.CSR_I_row_indices.length = n + 1
  first : A.CSR_I_row_indices.getD 0 0 = 1
  last : A.CSR_I_row_indices.getD n 0 = A.nnz + 1
  climb : A.CSR_I_row_indices.Pairwise (· ≤ ·)
  columns : A.CSR_J_col_indices.length = A.nnz
  values : A.CSR_V_values.length = A.nnz
  ascending : ∀ i < n, (A.row i).Pairwise fun a b => a.1 < b.1
  stored : ∀ i < n, ∀ c, (∃ e ∈ A.row i, e.1 = c) ↔ ∃ j, touched i j ∧ c = j + 1
  entry : ∀ i < n, ∀ j, Row.entry (A.row i) (j + 1) = value i j

lemma getD_map_range {α : Type} (f : ℕ → α) {n i : ℕ} (hi : i < n) (a : α) :
    ((List.range n).map f).getD i a = f i := by
  rw [List.getD_eq_getElem _ _ (by simpa using hi)]
  simp

lemma ofCSR_spec {A : SparseCSRMatrix} {columns : ℕ} {l : List Row}
    (h : A.Holds l.length columns l) :
    (ofCSR A).rows = l.length ∧ (ofCSR A).cols = columns ∧
      (ofCSR A).nnz = l.flatten.length ∧
      (ofCSR A).CSR_I_row_indices
        = (List.range (l.length + 1)).map (fun i => ((l.map List.length).take i).sum + 1) ∧
      (ofCSR A).CSR_J_col_indices = l.flatten.map (fun e => e.1 + 1) ∧
      (ofCSR A).CSR_V_values = l.flatten.map Prod.snd := by
  obtain ⟨hrows, hcolumns, hptrs, hindices, hvalues⟩ := h
  have hptr : ∀ i ≤ l.length, A.rowPtrs.getD i 0 = ((l.map List.length).take i).sum + 1 :=
    fun i hi => hptrs ▸ getD_map_range _ (by omega) 0
  have hnnz : A.rowPtrs.getD A.rows 0 - A.rowPtrs.getD 0 0 = l.flatten.length := by
    rw [hrows, hptr _ le_rfl, hptr 0 (Nat.zero_le _), List.length_flatten,
      List.take_of_length_le (by simp)]
    simp
  have hoffset : A.rowPtrs.getD 0 0 ≠ 0 := by
    rw [hptr 0 (Nat.zero_le _)]
    exact Nat.succ_ne_zero _
  refine ⟨hrows, hcolumns, hnnz, ?_, ?_, ?_⟩ <;>
    simp only [ofCSR, hnnz, if_pos hoffset, Nat.add_zero]
  · rw [hrows]
    exact List.map_congr_left fun i hi =>
      hptr i (Nat.lt_succ_iff.mp (List.mem_range.mp hi))
  · rw [hindices]
    refine List.ext_getElem (by simp only [List.length_map, List.length_range]) fun i hi hi' => ?_
    rw [List.getElem_map, List.getElem_range, List.getD_eq_getElem _ _ hi']
  · rw [hvalues, List.take_of_length_le (List.length_map _).le]

lemma row_ofCSR {A : SparseCSRMatrix} {columns : ℕ} {l : List Row}
    (h : A.Holds l.length columns l) {i : ℕ} (hi : i < l.length) :
    (ofCSR A).row i = (l.getD i []).map fun e => (e.1 + 1, e.2) := by
  obtain ⟨-, -, -, hptrs, hindices, hvalues⟩ := ofCSR_spec h
  have hzip : (l.flatten.map fun e => e.1 + 1).zip (l.flatten.map Prod.snd)
      = l.flatten.map fun e => (e.1 + 1, e.2) := by
    rw [List.zip_map']
  simp only [row, hptrs, hindices, hvalues, hzip]
  rw [getD_map_range _ (by omega), getD_map_range _ (by omega), Nat.add_sub_cancel,
    Nat.add_sub_cancel, ← List.map_take (f := fun e : ℕ × ℚ => (e.1 + 1, e.2)), ← List.map_drop,
    List.drop_take_succ_flatten_eq_getElem l i hi, List.getD_eq_getElem _ _ hi]

lemma assembled_ofCSR {A : SparseCSRMatrix} {l : List Row} (h : A.Holds l.length l.length l)
    (hascending : ∀ i < l.length, (l.getD i []).Pairwise fun a b => a.1 < b.1) :
    (ofCSR A).Assembled l.length (fun i j => ∃ e ∈ l.getD i [], e.1 = j)
      fun i j => Row.entry (l.getD i []) j := by
  obtain ⟨hrows, hcols, hnnz, hI, hJ, hV⟩ := ofCSR_spec h
  refine ⟨hrows, hcols, ?_, ?_, ?_, ?_, ?_, ?_, fun i hi => ?_, fun i hi c => ?_, fun i hi j => ?_⟩
  · rw [hI, List.length_map, List.length_range]
  · rw [hI, getD_map_range _ (Nat.succ_pos _)]
    rfl
  · rw [hI, hnnz, getD_map_range _ (Nat.lt_succ_self _), List.length_flatten,
      List.take_of_length_le (List.length_map _).le]
  · rw [hI, List.pairwise_map]
    refine List.pairwise_lt_range.imp fun hij => Nat.succ_le_succ ?_
    exact List.monotone_sum_take _ hij.le
  · rw [hJ, hnnz, List.length_map]
  · rw [hV, hnnz, List.length_map]
  · rw [row_ofCSR h hi, List.pairwise_map]
    exact (hascending i hi).imp Nat.succ_lt_succ
  · rw [row_ofCSR h hi]
    constructor
    · rintro ⟨e', he', rfl⟩
      obtain ⟨e, he, rfl⟩ := List.mem_map.mp he'
      exact ⟨e.1, ⟨e, he, rfl⟩, rfl⟩
    · rintro ⟨j, ⟨e, he, rfl⟩, rfl⟩
      exact ⟨_, List.mem_map_of_mem he, rfl⟩
  · rw [row_ofCSR h hi, Row.entry, Row.entry, List.filter_map, List.map_map]
    simp [Function.comp_def]

/-- **The matrix that is assembled** from writes, if every row is written. -/
theorem assembled_writeAll (sorting : Sorting) {n : ℕ} {l : List (ℕ × ℕ × ℚ)}
    (hl : ∀ e ∈ l, e.1 < n ∧ e.2.1 < n) (hrow : ∀ i < n, ∃ e ∈ l, e.1 = i) :
    (ofCSR (.ofVVP sorting ((SparseVVPMatrix.resize n n).writeAll l))).Assembled n
      (fun i j => ∃ e ∈ l, e.1 = i ∧ e.2.1 = j)
      fun i j => ((l.filter fun e => e.1 = i ∧ e.2.1 = j).map fun e => e.2.2).sum := by
  obtain ⟨⟨hrows, hcolumns, hlength⟩, hvalues⟩ := (SparseVVPMatrix.square_resize n).writeAll l hl
  set A := (SparseVVPMatrix.resize n n).writeAll l
  have hcount : (A.values.map (shrinkRow sorting)).length = n := by rw [List.length_map, hlength]
  have hholds := SparseCSRMatrix.holds_ofVVP sorting A
  rw [hrows, hcolumns] at hholds
  have hrowAt : ∀ i < n, (A.values.map (shrinkRow sorting)).getD i []
      = shrinkRow sorting ((l.filter fun e => e.1 = i).map Prod.snd) := by
    intro i hi
    have hwritten := hvalues i
    rw [List.getD_eq_getElem _ _ (hlength.symm ▸ hi)] at hwritten
    rw [List.getD_eq_getElem _ _ (hcount.symm ▸ hi), List.getElem_map, hwritten]
    simp [SparseVVPMatrix.resize]
  have hne : ∀ i < n, (l.filter fun e => e.1 = i).map Prod.snd ≠ [] := by
    intro i hi
    obtain ⟨e, he, hei⟩ := hrow i hi
    exact List.ne_nil_of_mem (List.mem_map_of_mem (List.mem_filter.mpr ⟨he, by simpa using hei⟩))
  have hassembled := assembled_ofCSR (l := A.values.map (shrinkRow sorting)) (hcount.symm ▸ hholds)
    fun i hi => by
      rw [hrowAt i (hcount ▸ hi)]
      exact (shrinkRow_spec sorting (hne i (hcount ▸ hi))).1
  rw [hcount] at hassembled
  refine { hassembled with stored := fun i hi c => ?_, entry := fun i hi j => ?_ }
  · rw [hassembled.stored i hi]
    simp only [hrowAt i hi, (shrinkRow_spec sorting (hne i hi)).2.1, List.mem_map, List.mem_filter]
    grind
  · rw [hassembled.entry i hi, hrowAt i hi, (shrinkRow_spec sorting (hne i hi)).2.2, Row.entry,
      List.filter_map, List.filter_filter, List.map_map]
    simp [Function.comp_def, Bool.and_comm]

end SparseMatrix

end Espreso.Assembling
