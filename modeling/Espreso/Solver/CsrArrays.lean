import Espreso.Lib.RowPointers
import Espreso.Solver.ClusterMatrices

/-!
# Compression on the arrays

`ClusterBase::CompressB0` and the renumbering in `ClusterBase::CreateF0` work on the arrays of the
CSR format: row pointers, column indices and values.

* `CsrArrays` — the arrays; `CsrArrays.ofMatrix` and `CsrArrays.matrix` lead from the rows and back.
* **`compress_ofMatrix`** — compression drops the rows that store nothing.
* **`matrix_decompress_withSurplus`**, **`matrix_decompress`** — the loop leaves out the last
  element.
-/

namespace Espreso

open Finset

/-! ## The code -/

/-- The arrays of a matrix in the CSR format; pointers, rows and columns count from 1. -/
structure CsrArrays where
  rows : ℕ
  cols : ℕ
  nnz : ℕ
  CSR_I_row_indices : List ℕ
  CSR_J_col_indices : List ℕ
  CSR_V_values : List ℚ

namespace CsrArrays

variable (A : CsrArrays)

def matrix : SparseMatrix where
  cols := A.cols
  csr := (RowPointers.rowsOf A.CSR_I_row_indices (A.CSR_J_col_indices.zip A.CSR_V_values)).map
    fun row => row.map fun e => (e.1 - 1, e.2)

def ofMatrix (A : SparseMatrix) : CsrArrays where
  rows := A.rows
  cols := A.cols
  nnz := A.nnz
  CSR_I_row_indices := RowPointers.pointers 1 A.csr
  CSR_J_col_indices := A.csr.flatten.map fun e => e.1 + 1
  CSR_V_values := A.csr.flatten.map Prod.snd

/-- The arrays of `SolveMat_Dense` have an element behind the last row. -/
def withSurplus : CsrArrays :=
  { A with
    nnz := A.nnz + 1
    CSR_J_col_indices := A.CSR_J_col_indices ++ [0]
    CSR_V_values := A.CSR_V_values ++ [0] }

/-- The first loop of `CompressB0`: `B0_comp_map_vec`. -/
def B0_comp_map_vec : List ℕ :=
  ((List.range A.rows).filter fun i =>
    A.CSR_I_row_indices.getD i 0 ≠ A.CSR_I_row_indices.getD (i + 1) 0).map (· + 1)

/-- The second loop of `CompressB0`: `B0_comp`. -/
def compress : CsrArrays :=
  let st := RowPointers.unique A.CSR_I_row_indices
  { A with rows := st.2, CSR_I_row_indices := st.1.take (st.2 + 1) }

/-- The loop in `CreateF0` that renumbers the columns of `B0Kplus`, up to `size() - 1`. -/
def decompress (map_vec : List ℕ) (rows : ℕ) : CsrArrays :=
  { A with
    cols := rows
    CSR_J_col_indices :=
      (A.CSR_J_col_indices.take (A.CSR_J_col_indices.length - 1)).map
          (fun j => map_vec.getD (j - 1) 0)
        ++ A.CSR_J_col_indices.drop (A.CSR_J_col_indices.length - 1) }

/-! ## Rows and arrays -/

lemma matrix_eq {A : CsrArrays} {rows : List (List (ℕ × ℚ))} {extra : List (ℕ × ℚ)}
    (hI : A.CSR_I_row_indices = RowPointers.pointers 1 rows)
    (hdata : A.CSR_J_col_indices.zip A.CSR_V_values = rows.flatten ++ extra) :
    A.matrix = ⟨A.cols, rows.map fun row => row.map fun e => (e.1 - 1, e.2)⟩ := by
  rw [matrix, hI, hdata, RowPointers.rowsOf_pointers]

lemma zip_map_fst_snd {α : Type} (f : α → ℕ) (g : α → ℚ) (l : List α) :
    (l.map f).zip (l.map g) = l.map fun e => (f e, g e) := by
  rw [List.zip_map']

lemma matrix_ofMatrix (A : SparseMatrix) : (ofMatrix A).matrix = A := by
  have hI : (ofMatrix A).CSR_I_row_indices
      = RowPointers.pointers 1 (A.csr.map fun row => row.map fun e => (e.1 + 1, e.2)) :=
    (RowPointers.pointers_map _ (fun row => List.length_map _) 1 A.csr).symm
  have hdata : (ofMatrix A).CSR_J_col_indices.zip (ofMatrix A).CSR_V_values
      = (A.csr.map fun row => row.map fun e => (e.1 + 1, e.2)).flatten ++ [] := by
    rw [List.append_nil, ← List.map_flatten]
    exact zip_map_fst_snd _ _ _
  rw [matrix_eq hI hdata, List.map_map]
  have hid : ∀ row : Row, ((fun row : Row => row.map fun e => (e.1 - 1, e.2)) ∘
      fun row : Row => row.map fun e => (e.1 + 1, e.2)) row = row := by
    intro row
    rw [Function.comp_apply, List.map_map]
    exact List.map_id _
  rw [List.map_congr_left fun row _ => hid row, List.map_id']
  rfl

lemma getElem?_flatten_rowAt {A : SparseMatrix} {i : ℕ} (hi : i < A.rows) {k : ℕ} {e : ℕ × ℚ}
    (hk : (A.rowAt i)[k]? = some e) :
    A.csr.flatten[(RowPointers.pointers 1 A.csr).getD i 0 - 1 + k]? = some e := by
  have hrow : A.csr.drop i = A.rowAt i :: A.csr.drop (i + 1) := by
    rw [List.drop_eq_getElem_cons hi, SparseMatrix.rowAt, List.getD_eq_getElem _ _ hi]
  obtain ⟨hlt, -⟩ := List.getElem?_eq_some_iff.mp hk
  rw [← List.getElem?_drop, RowPointers.drop_pointers _ (le_of_lt hi), hrow, List.flatten_cons,
    List.getElem?_append_left hlt, hk]

lemma B0_comp_map_vec_ofMatrix (d : Domain) :
    (ofMatrix d.B0).B0_comp_map_vec = d.B0_comp_map_vec := by
  refine congrArg (List.map (· + 1)) (List.filter_congr fun i hi => decide_eq_decide.mpr ?_)
  have hlt : i < d.B0.csr.length := List.mem_range.mp hi
  have hnext := RowPointers.getD_pointers 1 d.B0.csr hlt
  change (RowPointers.pointers 1 d.B0.csr).getD i 0
    ≠ (RowPointers.pointers 1 d.B0.csr).getD (i + 1) 0 ↔ d.B0.csr.getD i [] ≠ []
  rw [hnext, ← List.length_pos_iff]
  omega

/-- **Compression** drops the rows that store nothing. -/
theorem compress_ofMatrix (d : Domain) : (ofMatrix d.B0).compress = ofMatrix d.B0_comp := by
  have hne : RowPointers.pointers 1 d.B0.csr ≠ [] := by
    obtain ⟨I, hI⟩ := RowPointers.pointers_eq_cons 1 d.B0.csr
    rw [hI]
    exact List.cons_ne_nil _ _
  obtain ⟨htake, hlen⟩ := RowPointers.unique_eq hne
  rw [RowPointers.destutter_pointers] at htake hlen
  rw [RowPointers.length_pointers] at hlen
  have hflatten : (d.B0.csr.filter (· ≠ [])).flatten = d.B0.csr.flatten :=
    List.flatten_filter_ne_nil
  have hnnz : d.B0_comp.nnz = d.B0.nnz := by
    rw [SparseMatrix.nnz, SparseMatrix.nnz, ← List.length_flatten, ← List.length_flatten]
    exact congrArg List.length hflatten
  have hrows : (RowPointers.unique (RowPointers.pointers 1 d.B0.csr)).2 = d.B0_comp.rows := by
    change _ = (d.B0.csr.filter (· ≠ [])).length
    omega
  rw [hrows] at htake
  rw [compress, ofMatrix, ofMatrix, hnnz]
  simp only [hrows, htake]
  change CsrArrays.mk _ _ _ _ _ _ = CsrArrays.mk d.B0_comp.rows d.B0.cols d.B0.nnz
    (RowPointers.pointers 1 (d.B0.csr.filter (· ≠ [])))
    ((d.B0.csr.filter (· ≠ [])).flatten.map fun e => e.1 + 1)
    ((d.B0.csr.filter (· ≠ [])).flatten.map Prod.snd)
  rw [hflatten]

/-! ## The renumbered columns -/

lemma zip_map_append {α : Type} (f : α → ℕ) (g : α → ℚ) (l : List α) (x : ℕ) (y : ℚ) :
    (l.map f ++ [x]).zip (l.map g ++ [y]) = l.map (fun e => (f e, g e)) ++ [(x, y)] := by
  rw [List.zip_append (by simp), List.zip_map']
  rfl

/-- **With an element behind the last row** all columns are renumbered. -/
theorem matrix_decompress_withSurplus (A : SparseMatrix) (map_vec : List ℕ) (rows : ℕ) :
    ((ofMatrix A).withSurplus.decompress map_vec rows).matrix
      = ⟨rows, A.csr.map fun row => row.map fun e => (map_vec.getD e.1 0 - 1, e.2)⟩ := by
  have hI : ((ofMatrix A).withSurplus.decompress map_vec rows).CSR_I_row_indices
      = RowPointers.pointers 1 (A.csr.map fun row => row.map fun e => (map_vec.getD e.1 0, e.2)) :=
    (RowPointers.pointers_map _ (fun row => List.length_map _) 1 A.csr).symm
  have hJ : ((ofMatrix A).withSurplus.decompress map_vec rows).CSR_J_col_indices
      = A.csr.flatten.map (fun e => map_vec.getD e.1 0) ++ [0] := by
    simp only [decompress, withSurplus, ofMatrix, List.length_append, List.length_singleton,
      Nat.add_sub_cancel, List.take_left', List.drop_left', List.map_map]
    rfl
  have hdata : ((ofMatrix A).withSurplus.decompress map_vec rows).CSR_J_col_indices.zip
      ((ofMatrix A).withSurplus.decompress map_vec rows).CSR_V_values
      = (A.csr.map fun row => row.map fun e => (map_vec.getD e.1 0, e.2)).flatten ++ [(0, 0)] := by
    rw [hJ, ← List.map_flatten]
    exact zip_map_append _ _ _ 0 0
  rw [matrix_eq hI hdata, List.map_map]
  refine congrArg (SparseMatrix.mk rows) (List.map_congr_left fun row _ => ?_)
  rw [Function.comp_apply, List.map_map]
  rfl

/-- **Without it** the last entry keeps its compressed column. -/
theorem matrix_decompress {A : SparseMatrix} (hA : A.csr.flatten ≠ []) (map_vec : List ℕ)
    (rows : ℕ) : ((ofMatrix A).decompress map_vec rows).matrix
      = ⟨rows, RowPointers.mapButLast (fun e => (map_vec.getD e.1 0 - 1, e.2)) id A.csr⟩ := by
  obtain ⟨init, last, hsplit⟩ := (List.eq_nil_or_concat A.csr.flatten).resolve_left hA
  have hI : ((ofMatrix A).decompress map_vec rows).CSR_I_row_indices
      = RowPointers.pointers 1 (RowPointers.mapButLast (fun e : ℕ × ℚ => (map_vec.getD e.1 0, e.2))
          (fun e => (e.1 + 1, e.2)) A.csr) := (RowPointers.pointers_mapButLast _ _ 1 A.csr).symm
  have hdata : ((ofMatrix A).decompress map_vec rows).CSR_J_col_indices.zip
      ((ofMatrix A).decompress map_vec rows).CSR_V_values
      = (RowPointers.mapButLast (fun e : ℕ × ℚ => (map_vec.getD e.1 0, e.2))
          (fun e => (e.1 + 1, e.2)) A.csr).flatten ++ [] := by
    rw [RowPointers.flatten_mapButLast, List.append_nil]
    simp only [decompress, ofMatrix, hsplit, List.concat_eq_append, List.map_append,
      List.length_append, List.length_map, List.map_cons, List.map_nil, List.length_singleton,
      Nat.add_sub_cancel, List.dropLast_concat, List.getLast?_concat, Option.map_some,
      Option.toList_some]
    rw [List.take_left' (List.length_map _), List.drop_left' (List.length_map _), List.map_map]
    exact zip_map_append _ _ _ _ _
  rw [matrix_eq hI hdata, RowPointers.map_mapButLast]
  rfl

end CsrArrays

def lastError (f : ℕ × ℚ → ℕ × ℚ) (last : Option (ℕ × ℕ × ℚ)) (k l : ℕ) : ℚ :=
  match last with
  | some e => if k = e.1 then Row.entry [e.2] l - Row.entry [f e.2] l else 0
  | none => 0

lemma entry_mapButLast (f : ℕ × ℚ → ℕ × ℚ) (rows : List Row) (k l : ℕ) :
    Row.entry ((RowPointers.mapButLast f id rows).getD k []) l
      = Row.entry ((rows.getD k []).map f) l + lastError f (RowPointers.lastEntry rows) k l := by
  induction rows generalizing k with
  | nil => simp [RowPointers.mapButLast, RowPointers.lastEntry, lastError]
  | cons row rows ih =>
      rw [RowPointers.mapButLast, RowPointers.lastEntry]
      split_ifs with h
      · -- the last entry stands in the first row
        have hnone : RowPointers.lastEntry rows = none := RowPointers.lastEntry_eq_none.mpr h
        have hempty : ∀ k, rows.getD k [] = [] := fun k => by
          rcases lt_or_ge k rows.length with hk | hk
          · exact List.flatten_eq_nil_iff.mp h _ (by
              rw [List.getD_eq_getElem _ _ hk]
              exact List.getElem_mem hk)
          · exact List.getD_eq_default _ _ hk
        rw [hnone]
        cases k with
        | zero =>
            rcases List.eq_nil_or_concat row with rfl | ⟨init, last, rfl⟩
            · simp [lastError]
            · simp [lastError, Row.entry_append, List.concat_eq_append]
        | succ k =>
            have hlast : lastError f (row.getLast?.map (Prod.mk 0)) (k + 1) l = 0 := by
              cases row.getLast? with
              | none => rfl
              | some e =>
                  rw [Option.map_some, lastError]
                  exact if_neg (Nat.succ_ne_zero k)
            have hrow : (rows.map fun _ => ([] : Row)).getD k [] = [] := by
              rw [List.getD_eq_getElem?_getD, List.getElem?_map]
              cases rows[k]? <;> rfl
            simp only [List.getD_cons_succ, hempty, hrow, hlast, List.map_nil, add_zero]
      · obtain ⟨e, he⟩ := Option.ne_none_iff_exists'.mp fun hnone =>
          h (RowPointers.lastEntry_eq_none.mp hnone)
        rw [he] at ih ⊢
        cases k with
        | zero => simp [lastError]
        | succ k =>
            have hk := ih k
            simp only [lastError, List.getD_cons_succ, Nat.add_right_cancel_iff] at hk ⊢
            exact hk

end Espreso
