import Espreso.Solver.CsrArrays
import Espreso.Solver.SparseProducts

/-!
# The product with a transposed matrix, on the arrays

`SparseMatrix::MatMatT` merges every row of one matrix with every row of the other one, and builds
the row pointers of the product on the way. It returns at once if one of the matrices stores
nothing.

* `CsrArrays.mergeLoop`, `CsrArrays.matMatT` — the code; reads outside the arrays and a loop that
  does not end have no value.
* **`CsrArrays.mergeLoop_eq`** — the loop ends, stays inside both rows and multiplies them.
* **`CsrArrays.matMatT_ofMatrix`** — the arrays hold the product, or what they held before.
* **`isProduct_matMatT_iff`** — when the result is the product.
-/

namespace Espreso

open Finset

/-! ## The code -/

namespace CsrArrays

/-- The body of the `do` loop; the state holds `A_ind`, `B_ind` and `C_v`. -/
def mergeStep (A_in B_in : CsrArrays) (st : ℕ × ℕ × ℚ) : Option (ℕ × ℕ × ℚ) := do
  let A_j ← A_in.CSR_J_col_indices[st.1]?
  let B_j ← B_in.CSR_J_col_indices[st.2.1]?
  let A_ind := if A_j < B_j then st.1 + 1 else st.1
  let B_ind := if B_j < A_j then st.2.1 + 1 else st.2.1
  if A_j = B_j then do
    let a ← A_in.CSR_V_values[A_ind]?
    let b ← B_in.CSR_V_values[B_ind]?
    pure (A_ind + 1, B_ind + 1, st.2.2 + a * b)
  else pure (A_ind, B_ind, st.2.2)

/-- The `do` loop, with a bound on the number of steps. -/
def mergeLoop (A_in B_in : CsrArrays) (A_row_end B_row_end : ℕ) :
    ℕ → ℕ × ℕ × ℚ → Option ℚ
  | 0, _ => none
  | steps + 1, st => do
    let st ← mergeStep A_in B_in st
    if st.1 < A_row_end ∧ st.2.1 < B_row_end then
      mergeLoop A_in B_in A_row_end B_row_end steps st
    else pure st.2.2

/-- The arrays of the product, and `glob_row_index`. -/
structure Product where
  CSR_I_row_indices : List ℕ
  CSR_J_col_indices : List ℕ
  CSR_V_values : List ℚ
  glob_row_index : ℕ

def mergeRow (A_in B_in : CsrArrays) (A_row_start A_row_end : ℕ) (C : Product) (ii : ℕ) :
    Option Product :=
  let B_row_start := B_in.CSR_I_row_indices.getD ii 0 - 1
  let B_row_end := B_in.CSR_I_row_indices.getD (ii + 1) 0 - 1
  if B_row_start ≠ B_row_end then do
    let C_v ← mergeLoop A_in B_in A_row_end B_row_end
      ((A_row_end - A_row_start) + (B_row_end - B_row_start)) (A_row_start, B_row_start, 0)
    if C_v ≠ 0 then
      pure { C with
        CSR_J_col_indices := C.CSR_J_col_indices ++ [ii + 1]
        CSR_V_values := C.CSR_V_values ++ [C_v]
        glob_row_index := C.glob_row_index + 1 }
    else pure C
  else pure C

def productRow (A_in B_in : CsrArrays) (C : Product) (i : ℕ) : Option Product := do
  let A_row_start := A_in.CSR_I_row_indices.getD i 0 - 1
  let A_row_end := A_in.CSR_I_row_indices.getD (i + 1) 0 - 1
  let C ← if A_row_start ≠ A_row_end then
      (List.range (B_in.CSR_I_row_indices.length - 1)).foldlM
        (mergeRow A_in B_in A_row_start A_row_end) C
    else pure C
  pure { C with CSR_I_row_indices := C.CSR_I_row_indices ++ [C.glob_row_index] }

/-- `MatMatT`: what `*this` is afterwards. -/
def matMatT (self A_in B_in : CsrArrays) : Option CsrArrays :=
  if A_in.nnz = 0 ∨ B_in.nnz = 0 then some self
  else do
    let C ← (List.range (A_in.CSR_I_row_indices.length - 1)).foldlM (productRow A_in B_in)
      ⟨[1], [], [], 1⟩
    pure
      { rows := A_in.rows
        cols := B_in.rows
        nnz := C.CSR_V_values.length
        CSR_I_row_indices := C.CSR_I_row_indices
        CSR_J_col_indices := C.CSR_J_col_indices
        CSR_V_values := C.CSR_V_values }

end CsrArrays

/-- The arrays hold the product of `A` with the transposed `B`: all rows, the exact entries,
ascending columns, no explicit zeros, and the pointers of the rows. -/
def IsProduct (A B : SparseMatrix) (C : CsrArrays) : Prop :=
  ∃ P : SparseMatrix, C = CsrArrays.ofMatrix P ∧ P.rows = A.rows ∧ P.cols = B.rows ∧ P.Ascending
    ∧ P.Bounded ∧ (∀ row ∈ P.csr, ∀ e ∈ row, e.2 ≠ 0)
    ∧ ∀ i j, P.entry i j = ∑ k ∈ range A.cols, A.entry i k * B.entry j k

/-! ## Merging two rows -/

namespace CsrArrays

/-- The arrays hold the row from position `p` on. -/
def Holds (A : CsrArrays) (es : Row) (p : ℕ) : Prop :=
  ∀ (k : ℕ) (e : ℕ × ℚ), es[k]? = some e →
    A.CSR_J_col_indices[p + k]? = some (e.1 + 1) ∧ A.CSR_V_values[p + k]? = some e.2

lemma Holds.tail {A : CsrArrays} {e : ℕ × ℚ} {es : Row} {p : ℕ} (h : A.Holds (e :: es) p) :
    A.Holds es (p + 1) := fun k e' hk => by
  have hnext := h (k + 1) e' (by rw [List.getElem?_cons_succ, hk])
  rwa [← Nat.add_assoc, Nat.add_right_comm] at hnext

lemma Holds.head {A : CsrArrays} {e : ℕ × ℚ} {es : Row} {p : ℕ} (h : A.Holds (e :: es) p) :
    A.CSR_J_col_indices[p]? = some (e.1 + 1) ∧ A.CSR_V_values[p]? = some e.2 := h 0 e rfl

lemma holds_ofMatrix {A : SparseMatrix} {i : ℕ} (hi : i < A.rows) :
    (ofMatrix A).Holds (A.rowAt i) ((RowPointers.pointers 1 A.csr).getD i 0 - 1) := by
  intro k e hk
  have hflat := getElem?_flatten_rowAt hi hk
  constructor
  · change (A.csr.flatten.map fun e => e.1 + 1)[_]? = _
    rw [List.getElem?_map, hflat, Option.map_some]
  · change (A.csr.flatten.map Prod.snd)[_]? = _
    rw [List.getElem?_map, hflat, Option.map_some]

lemma mergeLoop_eq {A B : CsrArrays} {steps : ℕ} {es fs : Row} {p q : ℕ} {c : ℚ}
    (hes : es ≠ []) (hfs : fs ≠ []) (hA : A.Holds es p) (hB : B.Holds fs q)
    (hsteps : es.length + fs.length ≤ steps) :
    mergeLoop A B (p + es.length) (q + fs.length) steps (p, q, c)
      = some (c + Row.mergeDot es fs) := by
  induction steps generalizing es fs p q c with
  | zero =>
      have := List.length_pos_of_ne_nil hes
      omega
  | succ steps ih =>
      match es, fs with
      | (A_j, a) :: es, (B_j, b) :: fs =>
        have hAhead := hA.head
        have hBhead := hB.head
        have hA' := hA.tail
        have hB' := hB.tail
        simp only [List.length_cons] at hsteps ⊢
        rw [mergeLoop, Row.mergeDot]
        rcases lt_trichotomy A_j B_j with hlt | rfl | hgt
        · -- the column of `A` comes first
          have hstep : mergeStep A B (p, q, c) = some (p + 1, q, c) := by
            simp [mergeStep, hAhead, hBhead, hlt, hlt.ne, hlt.not_gt]
          rw [hstep, Option.bind_eq_bind, Option.bind_some, if_pos hlt]
          rcases eq_or_ne es [] with rfl | hne
          · rw [if_neg (by simp), Row.mergeDot_nil_left, add_zero]
            rfl
          · have hpos := List.length_pos_of_ne_nil hne
            rw [if_pos ⟨by dsimp only; omega, by dsimp only; omega⟩, ← Nat.add_assoc,
              Nat.add_right_comm]
            exact ih hne hfs hA' hB (by rw [List.length_cons]; omega)
        · have hstep : mergeStep A B (p, q, c) = some (p + 1, q + 1, c + a * b) := by
            simp [mergeStep, hAhead, hBhead]
          rw [hstep, Option.bind_eq_bind, Option.bind_some, if_neg (lt_irrefl _),
            if_neg (lt_irrefl _), ← add_assoc c]
          by_cases hne : es ≠ [] ∧ fs ≠ []
          · have hpos := List.length_pos_of_ne_nil hne.1
            have hpos' := List.length_pos_of_ne_nil hne.2
            rw [if_pos ⟨by dsimp only; omega, by dsimp only; omega⟩,
              show p + (es.length + 1) = p + 1 + es.length by omega,
              show q + (fs.length + 1) = q + 1 + fs.length by omega]
            exact ih hne.1 hne.2 hA' hB' (by omega)
          · rw [if_neg fun h => hne ⟨by rintro rfl; simp at h, by rintro rfl; simp at h⟩]
            have hzero : Row.mergeDot es fs = 0 := by
              rcases not_and_or.mp hne with h | h
              · rw [not_not.mp h, Row.mergeDot_nil_left]
              · rw [not_not.mp h, Row.mergeDot_nil_right]
            rw [hzero, add_zero]
            rfl
        · have hstep : mergeStep A B (p, q, c) = some (p, q + 1, c) := by
            simp [mergeStep, hAhead, hBhead, hgt, hgt.ne', hgt.not_gt]
          rw [hstep, Option.bind_eq_bind, Option.bind_some, if_neg hgt.not_gt, if_pos hgt]
          rcases eq_or_ne fs [] with rfl | hne
          · rw [if_neg (by simp), Row.mergeDot_nil_right, add_zero]
            rfl
          · have hpos := List.length_pos_of_ne_nil hne
            rw [if_pos ⟨by dsimp only; omega, by dsimp only; omega⟩,
              show q + (fs.length + 1) = q + 1 + fs.length by omega]
            exact ih hes hne hA hB' (by rw [List.length_cons]; omega)

/-! ## The rows of the product -/

def Product.append (C : Product) (row : Row) : Product where
  CSR_I_row_indices := C.CSR_I_row_indices
  CSR_J_col_indices := C.CSR_J_col_indices ++ row.map fun e => e.1 + 1
  CSR_V_values := C.CSR_V_values ++ row.map Prod.snd
  glob_row_index := C.glob_row_index + row.length

def Product.close (C : Product) : Product :=
  { C with CSR_I_row_indices := C.CSR_I_row_indices ++ [C.glob_row_index] }

@[simp] lemma Product.append_nil (C : Product) : C.append [] = C := by
  simp [Product.append]

lemma Product.append_append (C : Product) (row row' : Row) :
    (C.append row).append row' = C.append (row ++ row') := by
  simp [Product.append, Nat.add_assoc]

lemma foldl_close (C : Product) (rows : List Row) :
    rows.foldl (fun C row => (C.append row).close) C =
      { (C.append rows.flatten) with
        CSR_I_row_indices :=
          C.CSR_I_row_indices ++ (RowPointers.pointers C.glob_row_index rows).tail } := by
  induction rows generalizing C with
  | nil => simp [Product.append, RowPointers.pointers]
  | cons row rows ih =>
      obtain ⟨I, hI⟩ := RowPointers.pointers_eq_cons (C.glob_row_index + row.length) rows
      rw [List.foldl_cons, ih, RowPointers.pointers]
      simp [Product.append, Product.close, hI, Nat.add_assoc]

section Rows

variable {A B : SparseMatrix}

lemma row_end {i : ℕ} (hi : i < A.rows) :
    (ofMatrix A).CSR_I_row_indices.getD (i + 1) 0 - 1
      = (RowPointers.pointers 1 A.csr).getD i 0 - 1 + (A.rowAt i).length := by
  have hnext : (RowPointers.pointers 1 A.csr).getD (i + 1) 0
      = (RowPointers.pointers 1 A.csr).getD i 0 + (A.rowAt i).length :=
    RowPointers.getD_pointers 1 A.csr hi
  have hstart := RowPointers.getD_pointers_eq 1 A.csr (le_of_lt hi)
  change (RowPointers.pointers 1 A.csr).getD (i + 1) 0 - 1 = _
  omega

def cell (B : SparseMatrix) (es : Row) (ii : ℕ) : Option (ℕ × ℚ) :=
  if B.rowAt ii ≠ [] ∧ Row.mergeDot es (B.rowAt ii) ≠ 0 then
    some (ii, Row.mergeDot es (B.rowAt ii))
  else none

lemma mergeRow_ofMatrix {i ii : ℕ} (hi : i < A.rows) (hii : ii < B.rows) (hes : A.rowAt i ≠ [])
    (C : Product) :
    mergeRow (ofMatrix A) (ofMatrix B) ((RowPointers.pointers 1 A.csr).getD i 0 - 1)
        ((RowPointers.pointers 1 A.csr).getD i 0 - 1 + (A.rowAt i).length) C ii
      = some (C.append (cell B (A.rowAt i) ii).toList) := by
  have hstart : (ofMatrix B).CSR_I_row_indices.getD ii 0 - 1
      = (RowPointers.pointers 1 B.csr).getD ii 0 - 1 := rfl
  rw [mergeRow, row_end hii, hstart, cell]
  rcases eq_or_ne (B.rowAt ii) [] with hfs | hfs
  · rw [if_neg (by simp [hfs]), if_neg (by simp [hfs])]
    simp
  · have hpos := List.length_pos_of_ne_nil hfs
    have hloop := mergeLoop_eq (c := 0) hes hfs (holds_ofMatrix hi) (holds_ofMatrix hii) le_rfl
    rw [if_pos (by omega), Nat.add_sub_cancel_left, Nat.add_sub_cancel_left, hloop, zero_add,
      Option.bind_eq_bind, Option.bind_some]
    by_cases hzero : Row.mergeDot (A.rowAt i) (B.rowAt ii) = 0
    · rw [if_neg (not_not.mpr hzero), if_neg fun h => h.2 hzero]
      simp
    · rw [if_pos hzero, if_pos ⟨hfs, hzero⟩]
      rfl

lemma foldlM_append_cell {f : Product → ℕ → Option Product} {g : ℕ → Option (ℕ × ℚ)} {l : List ℕ}
    (h : ∀ ii ∈ l, ∀ C, f C ii = some (C.append (g ii).toList)) (C : Product) :
    l.foldlM f C = some (C.append (l.filterMap g)) := by
  induction l generalizing C with
  | nil => simp
  | cons ii l ih =>
      rw [List.foldlM_cons, h ii List.mem_cons_self, Option.bind_eq_bind, Option.bind_some,
        ih (fun jj hjj => h jj (List.mem_cons_of_mem _ hjj)), Product.append_append]
      cases hg : g ii with
      | none => rw [List.filterMap_cons_none hg, Option.toList_none, List.nil_append]
      | some e => rw [List.filterMap_cons_some hg, Option.toList_some, List.singleton_append]

def productOf (B : SparseMatrix) (es : Row) : Row :=
  if es = [] then [] else (List.range B.rows).filterMap (cell B es)

lemma productRow_ofMatrix {i : ℕ} (hi : i < A.rows) (C : Product) :
    productRow (ofMatrix A) (ofMatrix B) C i = some (C.append (productOf B (A.rowAt i))).close := by
  have hstart : (ofMatrix A).CSR_I_row_indices.getD i 0 - 1
      = (RowPointers.pointers 1 A.csr).getD i 0 - 1 := rfl
  have hrows : (ofMatrix B).CSR_I_row_indices.length - 1 = B.rows := by
    change (RowPointers.pointers 1 B.csr).length - 1 = B.rows
    rw [RowPointers.length_pointers, Nat.add_sub_cancel, SparseMatrix.rows]
  rw [productRow, row_end hi, hstart, hrows, productOf]
  rcases eq_or_ne (A.rowAt i) [] with hes | hes
  · rw [if_neg (by simp [hes]), if_pos hes]
    simp [Product.close]
  · have hpos := List.length_pos_of_ne_nil hes
    rw [if_pos (by omega), if_neg hes,
      foldlM_append_cell fun ii hii C => mergeRow_ofMatrix hi (List.mem_range.mp hii) hes C]
    rfl

/-- **The arrays hold the product**, or what they held before. -/
theorem matMatT_ofMatrix (self : CsrArrays) (A B : SparseMatrix) :
    self.matMatT (ofMatrix A) (ofMatrix B)
      = some (if A.nnz = 0 ∨ B.nnz = 0 then self else ofMatrix (A.matMatT B)) := by
  have hnnz : (ofMatrix A).nnz = A.nnz ∧ (ofMatrix B).nnz = B.nnz := ⟨rfl, rfl⟩
  rw [matMatT, hnnz.1, hnnz.2]
  split_ifs with h
  · rfl
  · have hrows : (ofMatrix A).CSR_I_row_indices.length - 1 = A.rows := by
      change (RowPointers.pointers 1 A.csr).length - 1 = A.rows
      rw [RowPointers.length_pointers, Nat.add_sub_cancel, SparseMatrix.rows]
    have hloop : ∀ (l : List ℕ), (∀ i ∈ l, i < A.rows) → ∀ C : Product,
        l.foldlM (productRow (ofMatrix A) (ofMatrix B)) C
          = some ((l.map fun i => productOf B (A.rowAt i)).foldl
              (fun C row => (C.append row).close) C) := by
      intro l hl
      induction l with
      | nil => exact fun C => rfl
      | cons i l ih =>
          intro C
          rw [List.foldlM_cons, productRow_ofMatrix (hl i List.mem_cons_self),
            Option.bind_eq_bind, Option.bind_some, ih fun j hj => hl j (List.mem_cons_of_mem _ hj)]
          rfl
    have hcsr : (List.range A.rows).map (fun i => productOf B (A.rowAt i)) = (A.matMatT B).csr := by
      calc (List.range A.rows).map (fun i => productOf B (A.rowAt i))
          = ((List.range A.rows).map A.rowAt).map (productOf B) := by
            rw [List.map_map]
            rfl
        _ = A.csr.map (productOf B) := by rw [← SparseMatrix.csr_eq]
        _ = (A.matMatT B).csr := by
            rw [SparseMatrix.matMatT, if_neg h]
            rfl
    have hproduct : ofMatrix (A.matMatT B) =
        { rows := A.rows
          cols := B.rows
          nnz := ((A.matMatT B).csr.flatten.map Prod.snd).length
          CSR_I_row_indices := RowPointers.pointers 1 (A.matMatT B).csr
          CSR_J_col_indices := (A.matMatT B).csr.flatten.map fun e => e.1 + 1
          CSR_V_values := (A.matMatT B).csr.flatten.map Prod.snd } := by
      have hr : (A.matMatT B).rows = A.rows := by
        rw [SparseMatrix.rows, ← hcsr, List.length_map, List.length_range]
      have hc : (A.matMatT B).cols = B.rows := by
        rw [SparseMatrix.matMatT, if_neg h]
      rw [ofMatrix, hr, hc, List.length_map, List.length_flatten]
      rfl
    obtain ⟨I, hI⟩ := RowPointers.pointers_eq_cons 1 (A.matMatT B).csr
    rw [hrows, hloop _ fun i hi => List.mem_range.mp hi, foldl_close, hcsr, hproduct, hI]
    rfl

end Rows

end CsrArrays

/-! ## The result -/

namespace SparseMatrix

variable {A B : SparseMatrix}

lemma matMatT_ascending : (A.matMatT B).Ascending := by
  rw [matMatT]
  split_ifs with h
  · exact fun row hrow => absurd hrow List.not_mem_nil
  · rintro row hrow
    obtain ⟨row', -, rfl⟩ := List.mem_map.mp hrow
    split_ifs
    · exact List.Pairwise.nil
    · refine List.pairwise_lt_range.filterMap _ fun j j' hlt e he e' he' => ?_
      split_ifs at he he'
      cases he
      cases he'
      exact hlt

lemma ne_zero_of_mem_matMatT {row : Row} (hrow : row ∈ (A.matMatT B).csr) {e : ℕ × ℚ}
    (he : e ∈ row) : e.2 ≠ 0 := by
  rw [matMatT] at hrow
  split_ifs at hrow with h
  · exact absurd hrow List.not_mem_nil
  · obtain ⟨row', -, rfl⟩ := List.mem_map.mp hrow
    split_ifs at he with hnil
    · exact absurd he List.not_mem_nil
    · obtain ⟨j, -, hej⟩ := List.mem_filterMap.mp he
      split_ifs at hej with hstored
      cases hej
      exact hstored.2

end SparseMatrix

lemma Row.eq_nil_of_entry {es : Row} (hes : es.Pairwise (·.1 < ·.1)) (hne : ∀ e ∈ es, e.2 ≠ 0)
    (hzero : ∀ j, Row.entry es j = 0) : es = [] := by
  cases es with
  | nil => rfl
  | cons e es =>
      have hfirst := hzero e.1
      rw [Row.entry_cons, if_pos rfl, Row.entry_of_lt (List.pairwise_cons.mp hes).1,
        add_zero] at hfirst
      exact absurd hfirst (hne e List.mem_cons_self)

/-- **The result is the product** exactly if both matrices store something, or the matrix was the
product before. -/
theorem isProduct_matMatT_iff (self : CsrArrays) (A B : SparseMatrix) (hA : A.Ascending)
    (hB : B.Ascending) (hbounded : A.Bounded) :
    (∃ C, self.matMatT (CsrArrays.ofMatrix A) (CsrArrays.ofMatrix B) = some C ∧ IsProduct A B C) ↔
      (A.nnz ≠ 0 ∧ B.nnz ≠ 0)
        ∨ self = CsrArrays.ofMatrix ⟨B.rows, List.replicate A.rows []⟩ := by
  have hentry := fun i j => hA.entry_matMatT hB hbounded.rowAt_below i j
  simp only [CsrArrays.matMatT_ofMatrix, Option.some_inj, exists_eq_left']
  by_cases h : A.nnz = 0 ∨ B.nnz = 0
  · rw [if_pos h]
    have hzero : ∀ i j, ∑ k ∈ range A.cols, A.entry i k * B.entry j k = 0 := by
      intro i j
      rw [← hentry i j, SparseMatrix.matMatT, if_pos h, SparseMatrix.entry_empty]
    constructor
    · rintro ⟨P, rfl, hrows, hcols, hascending, -, hne, hP⟩
      refine Or.inr (congrArg CsrArrays.ofMatrix ?_)
      have hcsr : P.csr = List.replicate A.rows [] := by
        refine List.eq_replicate_iff.mpr ⟨hrows, fun row hrow => ?_⟩
        obtain ⟨i, hi, rfl⟩ := List.mem_iff_getElem.mp hrow
        refine Row.eq_nil_of_entry (hascending _ hrow) (hne _ hrow) fun j => ?_
        rw [← List.getD_eq_getElem _ [] hi]
        exact (hP i j).trans (hzero i j)
      rw [← hcsr, ← hcols]
    · rintro (hboth | rfl)
      · exact absurd h (not_or.mpr hboth)
      · refine ⟨_, rfl, ?_, rfl, ?_, ?_, ?_, fun i j => ?_⟩
        · rw [SparseMatrix.rows, List.length_replicate]
        · rintro row hrow
          rw [List.eq_of_mem_replicate hrow]
          exact List.Pairwise.nil
        · rintro row hrow e he
          rw [List.eq_of_mem_replicate hrow] at he
          exact absurd he List.not_mem_nil
        · rintro row hrow e he
          rw [List.eq_of_mem_replicate hrow] at he
          exact absurd he List.not_mem_nil
        · rw [hzero i j]
          refine SparseMatrix.entry_of_nnz (SparseMatrix.nnz_eq_zero_iff.mpr fun row hrow => ?_) i j
          exact List.eq_of_mem_replicate hrow
  · rw [if_neg h]
    refine iff_of_true ⟨A.matMatT B, rfl, ?_, ?_, SparseMatrix.matMatT_ascending, ?_,
      fun row hrow e he => SparseMatrix.ne_zero_of_mem_matMatT hrow he, hentry⟩
      (Or.inl (not_or.mp h))
    · rw [SparseMatrix.matMatT, if_neg h, SparseMatrix.rows, List.length_map, SparseMatrix.rows]
    · rw [SparseMatrix.matMatT, if_neg h]
    · exact SparseMatrix.matMatT_bounded

def single : SparseMatrix := ⟨1, [[(0, 2)]]⟩

def emptyRow : SparseMatrix := ⟨1, [[]]⟩

lemma single_ascending : single.Ascending := by
  unfold SparseMatrix.Ascending
  decide

lemma emptyRow_ascending : emptyRow.Ascending := by
  unfold SparseMatrix.Ascending
  decide

/-- The square of a matrix with one entry, into a matrix that held something else. -/
theorem isProduct_single : ∃ C, (CsrArrays.ofMatrix single).matMatT (CsrArrays.ofMatrix single)
    (CsrArrays.ofMatrix single) = some C ∧ IsProduct single single C :=
  (isProduct_matMatT_iff (CsrArrays.ofMatrix single) single single single_ascending
    single_ascending (by unfold SparseMatrix.Bounded Row.Below; decide)).mpr
    (Or.inl ⟨by decide, by decide⟩)

/-- **What the matrix held before** remains if a factor stores nothing. -/
theorem matMatT_emptyRow :
    (CsrArrays.ofMatrix single).matMatT (CsrArrays.ofMatrix emptyRow) (CsrArrays.ofMatrix single)
        = some (CsrArrays.ofMatrix single)
      ∧ ¬∀ (self : CsrArrays) (A B : SparseMatrix), A.Ascending → B.Ascending → A.Bounded →
        B.Bounded → A.cols = B.cols →
        ∃ C, self.matMatT (CsrArrays.ofMatrix A) (CsrArrays.ofMatrix B) = some C
          ∧ IsProduct A B C := by
  have hcode : (CsrArrays.ofMatrix single).matMatT (CsrArrays.ofMatrix emptyRow)
      (CsrArrays.ofMatrix single) = some (CsrArrays.ofMatrix single) := rfl
  refine ⟨hcode, fun hall => ?_⟩
  obtain ⟨C, hC, P, hP, -, -, -, -, -, hentry⟩ := hall (CsrArrays.ofMatrix single) emptyRow single
    emptyRow_ascending single_ascending (by unfold SparseMatrix.Bounded Row.Below; decide)
    (by unfold SparseMatrix.Bounded Row.Below; decide) rfl
  obtain rfl : CsrArrays.ofMatrix single = C := Option.some_inj.mp (hcode.symm.trans hC)
  have hsame : single = P := by
    rw [← CsrArrays.matrix_ofMatrix single, hP, CsrArrays.matrix_ofMatrix]
  have hfirst := hentry 0 0
  rw [← hsame] at hfirst
  exact absurd hfirst (by decide +kernel)

end Espreso
