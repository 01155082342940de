import Espreso.Basis.Distribution
import Espreso.Lib.Fallible
import Espreso.Solver.CsrArrays
import Espreso.Solver.SparseProducts

/-!
# The diagonal of a sparse matrix

`SparseMatrix::getDiagonal` looks up the diagonal entry of every row by a binary search in the
columns of the row.  A search that finds nothing ends behind the row, and its position is read.

* `CsrArrays.getDiagonal`, `CsrArrays.getDiagonalMaximum`, `CsrArrays.getDiagonalAbsMaximum` — the
  code; a read behind the last column has no value.
* **`Row.search`** — the search in a row that stores a column from the diagonal on.
* **`rightDiagonal_iff`** — the functions are right exactly if every row stores such a column and
  some diagonal entry is not below the first value of the maximum.
-/

namespace Espreso

/-! ## The code -/

namespace CsrArrays

variable (A : CsrArrays)

/-- The position that `std::lower_bound` returns for the diagonal of row `i`. -/
def diagonalPosition (i : ℕ) : ℕ :=
  A.CSR_I_row_indices.getD i 0 - 1
    + lowerBound ((A.CSR_J_col_indices.drop (A.CSR_I_row_indices.getD i 0 - 1)).take
        (A.CSR_I_row_indices.getD (i + 1) 0 - A.CSR_I_row_indices.getD i 0)) (i + 1)

/-- The value of row `i`: the column at the position decides. -/
def diagonalValue (i : ℕ) : Option ℚ := do
  let column ← A.CSR_J_col_indices[A.diagonalPosition i]?
  if column = i + 1 then A.CSR_V_values[A.diagonalPosition i]? else some 0

def getDiagonal : Option (List ℚ) := (List.range A.rows).mapM A.diagonalValue

/-- The loop of the two maxima, with the function that is applied to the entries. -/
def maximumLoop (f : ℚ → ℚ) (max : ℚ) : Option ℚ :=
  (List.range A.rows).foldlM
    (fun max i => (A.diagonalValue i).map fun tmp => if max < f tmp then f tmp else max) max

def getDiagonalMaximum : Option ℚ := A.maximumLoop id (-10 ^ 10)

def getDiagonalAbsMaximum : Option ℚ := A.maximumLoop abs 0

/-- The position that is read for row `i` belongs to the row. -/
def ReadsInside (i : ℕ) : Prop :=
  A.CSR_I_row_indices.getD i 0 - 1 ≤ A.diagonalPosition i
    ∧ A.diagonalPosition i < A.CSR_I_row_indices.getD (i + 1) 0 - 1

end CsrArrays

/-- The diagonal: stored entries, and 0 where nothing is stored. -/
def SparseMatrix.diagonal (A : SparseMatrix) : List ℚ :=
  (List.range A.rows).map fun i => A.entry i i

def IsMaximum (values : List ℚ) (m : ℚ) : Prop :=
  values ≠ [] → m ∈ values ∧ ∀ v ∈ values, v ≤ m

open CsrArrays in
/-- The three functions return what they have to, and read nothing outside the rows. -/
structure RightDiagonal (A : SparseMatrix) : Prop where
  inside : ∀ i < A.rows, (ofMatrix A).ReadsInside i
  diagonal : (ofMatrix A).getDiagonal = some A.diagonal
  maximum : ∃ m, (ofMatrix A).getDiagonalMaximum = some m ∧ IsMaximum A.diagonal m
  absMaximum : ∃ m, (ofMatrix A).getDiagonalAbsMaximum = some m
    ∧ IsMaximum (A.diagonal.map abs) m

/-! ## The search in a row -/

lemma Row.search {es : Row} (hes : es.Pairwise (·.1 < ·.1)) {i : ℕ} (h : ∃ e ∈ es, i ≤ e.1) :
    ∃ e, es[lowerBound (es.map fun e => e.1 + 1) (i + 1)]? = some e
      ∧ Row.entry es i = if e.1 = i then e.2 else 0 := by
  induction es with
  | nil => simp at h
  | cons e es ih =>
      obtain ⟨hlt, hrest⟩ := List.pairwise_cons.mp hes
      rw [List.map_cons, lowerBound_cons]
      by_cases hle : i + 1 ≤ e.1 + 1
      · have hzero : Row.entry es i = 0 := Row.entry_of_lt fun e' he' => by
          have := hlt e' he'
          omega
        rw [if_pos hle, Row.entry_cons, hzero, add_zero]
        exact ⟨e, rfl, rfl⟩
      · have htail : ∃ e' ∈ es, i ≤ e'.1 := by
          obtain ⟨e', he', hie'⟩ := h
          rcases List.mem_cons.mp he' with rfl | he'
          · omega
          · exact ⟨e', he', hie'⟩
        obtain ⟨e', hget, hentry⟩ := ih hrest htail
        refine ⟨e', ?_, ?_⟩
        · rw [if_neg hle, List.getElem?_cons_succ]
          exact hget
        · rw [Row.entry_cons, if_neg (by omega), zero_add, hentry]

lemma Row.search_end {es : Row} {i : ℕ} :
    lowerBound (es.map fun e => e.1 + 1) (i + 1) < es.length ↔ ∃ e ∈ es, i ≤ e.1 := by
  rw [lowerBound]
  conv_lhs => rw [← List.length_map (fun e : ℕ × ℚ => e.1 + 1), List.findIdx_lt_length]
  simp

/-! ## Arrays of rows -/

section Arrays

variable {A : SparseMatrix} {i : ℕ}

namespace CsrArrays

lemma diagonalPosition_ofMatrix (hi : i < A.rows) :
    (ofMatrix A).diagonalPosition i = (RowPointers.pointers 1 A.csr).getD i 0 - 1
      + lowerBound ((A.rowAt i).map fun e => e.1 + 1) (i + 1) := by
  rw [diagonalPosition, ofMatrix]
  dsimp only
  rw [← List.map_drop, ← List.map_take, RowPointers.window_pointers _ hi]
  rfl

lemma readsInside_ofMatrix (hi : i < A.rows) :
    (ofMatrix A).ReadsInside i ↔ ∃ e ∈ A.rowAt i, i ≤ e.1 := by
  have hnext : (RowPointers.pointers 1 A.csr).getD (i + 1) 0
      = (RowPointers.pointers 1 A.csr).getD i 0 + (A.rowAt i).length :=
    RowPointers.getD_pointers 1 A.csr hi
  have hstart := RowPointers.getD_pointers_eq 1 A.csr (le_of_lt hi)
  have hI : (ofMatrix A).CSR_I_row_indices = RowPointers.pointers 1 A.csr := rfl
  rw [← Row.search_end, ReadsInside, diagonalPosition_ofMatrix hi, hI]
  omega

lemma diagonalValue_ofMatrix (hA : A.Ascending) (hi : i < A.rows) (h : ∃ e ∈ A.rowAt i, i ≤ e.1) :
    (ofMatrix A).diagonalValue i = some (A.entry i i) := by
  obtain ⟨e, hget, hentry⟩ := Row.search (hA.rowAt i) h
  have hflat := getElem?_flatten_rowAt hi hget
  rw [← diagonalPosition_ofMatrix hi] at hflat
  have hJ : (ofMatrix A).CSR_J_col_indices[(ofMatrix A).diagonalPosition i]? = some (e.1 + 1) := by
    change (A.csr.flatten.map fun e => e.1 + 1)[_]? = _
    rw [List.getElem?_map, hflat, Option.map_some]
  have hV : (ofMatrix A).CSR_V_values[(ofMatrix A).diagonalPosition i]? = some e.2 := by
    change (A.csr.flatten.map Prod.snd)[_]? = _
    rw [List.getElem?_map, hflat, Option.map_some]
  rw [diagonalValue, hJ, hV, SparseMatrix.entry, hentry]
  by_cases he : e.1 = i
  · simp [he]
  · simp [he]

end CsrArrays

end Arrays

/-! ## The maxima -/

lemma foldlM_map {f : ℚ → ℚ} {value : ℕ → Option ℚ} {g : ℕ → ℚ} {l : List ℕ}
    (h : ∀ i ∈ l, value i = some (g i)) (m : ℚ) :
    l.foldlM (fun max i => (value i).map fun tmp => if max < f tmp then f tmp else max) m
      = some ((l.map fun i => f (g i)).foldl max m) := by
  induction l generalizing m with
  | nil => rfl
  | cons i l ih =>
      have hmax : (if m < f (g i) then f (g i) else m) = max m (f (g i)) := by
        split_ifs with hlt
        · exact (max_eq_right hlt.le).symm
        · exact (max_eq_left (not_lt.mp hlt)).symm
      rw [List.foldlM_cons, h i List.mem_cons_self, Option.map_some, hmax, List.map_cons,
        List.foldl_cons, ← ih fun j hj => h j (List.mem_cons_of_mem _ hj)]
      rfl

lemma foldl_max_spec (l : List ℚ) (m : ℚ) :
    (l.foldl max m = m ∨ l.foldl max m ∈ l) ∧ m ≤ l.foldl max m ∧ ∀ v ∈ l, v ≤ l.foldl max m := by
  induction l generalizing m with
  | nil => simp
  | cons x l ih =>
      obtain ⟨hmem, hle, hall⟩ := ih (max m x)
      rw [List.foldl_cons]
      refine ⟨?_, (le_max_left m x).trans hle, fun v hv => ?_⟩
      · rcases hmem with heq | hmem
        · rcases max_choice m x with hm | hx
          · exact Or.inl (heq.trans hm)
          · exact Or.inr (List.mem_cons.mpr (Or.inl (heq.trans hx)))
        · exact Or.inr (List.mem_cons_of_mem _ hmem)
      · rcases List.mem_cons.mp hv with rfl | hv
        · exact (le_max_right m v).trans hle
        · exact hall v hv

lemma isMaximum_foldl_max {l : List ℚ} {m : ℚ} :
    IsMaximum l (l.foldl max m) ↔ (l = [] ∨ ∃ v ∈ l, m ≤ v) := by
  obtain ⟨hmem, hle, hall⟩ := foldl_max_spec l m
  constructor
  · intro hmax
    refine or_iff_not_imp_left.mpr fun hne => ?_
    exact ⟨_, (hmax hne).1, hle⟩
  · rintro (rfl | ⟨v, hv, hmv⟩) hne
    · exact absurd rfl hne
    · refine ⟨?_, hall⟩
      rcases hmem with heq | hmem
      · -- the first value is one of the values then
        have hvm : v = m := le_antisymm ((hall v hv).trans heq.le) hmv
        rw [heq, ← hvm]
        exact hv
      · exact hmem

/-! ## The result -/

section Result

open CsrArrays

variable {A : SparseMatrix}

def SparseMatrix.ReachesDiagonal (A : SparseMatrix) : Prop :=
  ∀ i < A.rows, ∃ e ∈ A.rowAt i, i ≤ e.1

lemma getDiagonal_ofMatrix (hA : A.Ascending) (h : A.ReachesDiagonal) :
    (ofMatrix A).getDiagonal = some A.diagonal :=
  Fallible.mapM_eq_some fun i hi =>
    diagonalValue_ofMatrix hA (List.mem_range.mp hi) (h i (List.mem_range.mp hi))

lemma maximumLoop_ofMatrix (hA : A.Ascending) (h : A.ReachesDiagonal) (f : ℚ → ℚ) (m : ℚ) :
    (ofMatrix A).maximumLoop f m = some ((A.diagonal.map f).foldl max m) := by
  have hvalue : ∀ i ∈ List.range A.rows, (ofMatrix A).diagonalValue i = some (A.entry i i) :=
    fun i hi => diagonalValue_ofMatrix hA (List.mem_range.mp hi) (h i (List.mem_range.mp hi))
  rw [SparseMatrix.diagonal, List.map_map]
  exact foldlM_map hvalue m

/-- **The functions are right** exactly if every row reaches the diagonal, and some value of a
diagonal that is not empty is at least `-1e10`. -/
theorem rightDiagonal_iff (A : SparseMatrix) (hA : A.Ascending) :
    RightDiagonal A ↔
      (∀ i < A.rows, ∃ e ∈ A.rowAt i, i ≤ e.1)
        ∧ (A.rows = 0 ∨ ∃ i < A.rows, -10 ^ 10 ≤ A.entry i i) := by
  have hreads : A.ReachesDiagonal ↔ ∀ i < A.rows, (ofMatrix A).ReadsInside i :=
    forall₂_congr fun i hi => (readsInside_ofMatrix hi).symm
  have hvalues : (A.diagonal = [] ∨ ∃ v ∈ A.diagonal, -10 ^ 10 ≤ v)
      ↔ (A.rows = 0 ∨ ∃ i < A.rows, -10 ^ 10 ≤ A.entry i i) := by
    simp [SparseMatrix.diagonal]
  constructor
  · intro hright
    have hreach := hreads.mpr hright.inside
    obtain ⟨m, hm, hmax⟩ := hright.maximum
    rw [getDiagonalMaximum, maximumLoop_ofMatrix hA hreach, List.map_id, Option.some_inj] at hm
    rw [← hm] at hmax
    exact ⟨hreach, hvalues.mp (isMaximum_foldl_max.mp hmax)⟩
  · rintro ⟨hreach, hlow⟩
    have hmaximum : (ofMatrix A).getDiagonalMaximum = some (A.diagonal.foldl max (-10 ^ 10)) := by
      rw [getDiagonalMaximum, maximumLoop_ofMatrix hA hreach, List.map_id]
    refine ⟨hreads.mp hreach, getDiagonal_ofMatrix hA hreach,
      ⟨_, hmaximum, isMaximum_foldl_max.mpr (hvalues.mpr hlow)⟩,
      ⟨_, maximumLoop_ofMatrix hA hreach abs 0, ?_⟩⟩
    · -- absolute values are never below the first value
      refine isMaximum_foldl_max.mpr (or_iff_not_imp_left.mpr fun hne => ?_)
      obtain ⟨v, hv⟩ := List.exists_mem_of_ne_nil _ hne
      obtain ⟨x, -, rfl⟩ := List.mem_map.mp hv
      exact ⟨_, hv, abs_nonneg x⟩

def laplacian : SparseMatrix := ⟨2, [[(0, 1), (1, -1)], [(0, -1), (1, 1)]]⟩

lemma laplacian_ascending : laplacian.Ascending := by
  unfold SparseMatrix.Ascending
  decide

/-- A matrix whose rows reach the diagonal. -/
theorem rightDiagonal_laplacian : RightDiagonal laplacian :=
  (rightDiagonal_iff laplacian laplacian_ascending).mpr
    ⟨by decide, Or.inr ⟨0, by decide, by decide +kernel⟩⟩

def rowless : SparseMatrix := ⟨2, [[], [(0, 5), (1, 7)]]⟩

/-- **The entry of the next row** is taken for the diagonal of an empty row. -/
theorem getDiagonal_rowless : (ofMatrix rowless).getDiagonal = some [5, 7]
    ∧ rowless.diagonal = [0, 7] ∧ ¬∀ A : SparseMatrix, A.Ascending → RightDiagonal A := by
  have hcode : (ofMatrix rowless).getDiagonal = some [5, 7] := by decide
  have hvalues : rowless.diagonal = [0, 7] := by decide +kernel
  have hascending : rowless.Ascending := by
    unfold SparseMatrix.Ascending
    decide
  refine ⟨hcode, hvalues, fun hall => ?_⟩
  have hright := (hall rowless hascending).diagonal
  rw [hcode, hvalues] at hright
  exact absurd hright (by decide)

end Result

end Espreso
