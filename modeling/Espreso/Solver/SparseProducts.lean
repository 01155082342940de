import Espreso.Solver.ClusterMatrices

/-!
# Products with a transposed matrix, and blocks of a larger matrix

The coarse matrices couple the kernel rows of all ranks.  A rank multiplies rows, moves the columns of
the product to the numbers of the rank they belong to, and adds up the pieces.

* `SparseMatrix.matMatT` — `MatMatT`, the product `A Bᵀ` by merging rows.
* **`SparseMatrix.Ascending.entry_matMatT`** — the entries of the product, for ascending rows.
* **`SparseMatrix.Fits.foldl_matAddInPlace`** — the entries of a sum of pieces.
-/

namespace Espreso

open Finset

/-! ## Merging two rows -/

namespace Row

/-- The `do` loop of `MatMatT` over two rows. -/
def mergeDot : Row → Row → ℚ
  | (A_j, a) :: A, (B_j, b) :: B =>
    if A_j < B_j then mergeDot A ((B_j, b) :: B)
    else if B_j < A_j then mergeDot ((A_j, a) :: A) B
    else a * b + mergeDot A B
  | _, _ => 0
termination_by A B => A.length + B.length

lemma mergeDot_nil_left (B : Row) : mergeDot [] B = 0 := by
  simp [mergeDot]

lemma mergeDot_nil_right (A : Row) : mergeDot A [] = 0 := by
  cases A <;> simp [mergeDot]

lemma entry_of_lt {j : ℕ} {es : Row} (h : ∀ e ∈ es, j < e.1) : entry es j = 0 :=
  entry_eq_zero fun ⟨e, he, hej⟩ => by
    have := h e he
    omega

lemma dot_cons (e : ℕ × ℚ) (es : Row) (x : ℕ → ℚ) : dot (e :: es) x = e.2 * x e.1 + dot es x := by
  simp [dot]

lemma dot_congr {es : Row} {x y : ℕ → ℚ} (h : ∀ e ∈ es, x e.1 = y e.1) : dot es x = dot es y :=
  congrArg List.sum (List.map_congr_left fun e he => by rw [h e he])

/-- **Merging** multiplies the entries of common columns. -/
lemma mergeDot_eq {A B : Row} (hA : A.Pairwise (·.1 < ·.1)) (hB : B.Pairwise (·.1 < ·.1)) :
    mergeDot A B = dot A (entry B) := by
  induction A, B using mergeDot.induct with
  | case1 A_j a A B_j b B hlt ih =>
      have hzero : entry ((B_j, b) :: B) A_j = 0 := by
        refine entry_of_lt fun e he => ?_
        rcases List.mem_cons.mp he with rfl | he
        · exact hlt
        · exact hlt.trans ((List.pairwise_cons.mp hB).1 e he)
      rw [mergeDot, if_pos hlt, ih (List.pairwise_cons.mp hA).2 hB, dot_cons, hzero, mul_zero,
        zero_add]
  | case2 A_j a A B_j b B hlt hgt ih =>
      rw [mergeDot, if_neg hlt, if_pos hgt, ih hA (List.pairwise_cons.mp hB).2]
      refine dot_congr fun e he => ?_
      have hne : B_j ≠ e.1 := by
        rcases List.mem_cons.mp he with rfl | he
        · exact ne_of_lt hgt
        · exact ne_of_lt (hgt.trans ((List.pairwise_cons.mp hA).1 e he))
      rw [entry_cons, if_neg hne, zero_add]
  | case3 A_j a A B_j b B hlt hgt ih =>
      obtain rfl : A_j = B_j := by omega
      rw [mergeDot, if_neg hlt, if_neg hgt,
        ih (List.pairwise_cons.mp hA).2 (List.pairwise_cons.mp hB).2, dot_cons, entry_cons,
        if_pos rfl, entry_of_lt (List.pairwise_cons.mp hB).1, add_zero]
      refine congrArg _ (dot_congr fun e he => ?_)
      have hne : A_j ≠ e.1 := ne_of_lt ((List.pairwise_cons.mp hA).1 e he)
      rw [entry_cons, if_neg hne, zero_add]
  | case4 A B h =>
      match A, B, h with
      | [], B, _ => simp [mergeDot, dot]
      | a :: A, [], _ => simp [mergeDot, dot]
      | (A_j, a) :: A, (B_j, b) :: B, h => exact absurd rfl (h A_j a A B_j b B rfl)

lemma entry_perm {es es' : Row} (h : es.Perm es') (j : ℕ) : entry es j = entry es' j :=
  ((h.filter _).map _).sum_eq

end Row

/-! ## Matrices -/

namespace SparseMatrix

variable (A B : SparseMatrix)

def Ascending : Prop := ∀ row ∈ A.csr, row.Pairwise (·.1 < ·.1)

/-- `MatMatT` into a new matrix, which stays empty if a factor stores nothing; rows that store nothing
are left out, and so are products that vanish. -/
def matMatT : SparseMatrix :=
  if A.nnz = 0 ∨ B.nnz = 0 then empty
  else
    { cols := B.rows
      csr := A.csr.map fun row =>
        if row = [] then [] else
          (List.range B.rows).filterMap fun ii =>
            if B.rowAt ii ≠ [] ∧ Row.mergeDot row (B.rowAt ii) ≠ 0 then
              some (ii, Row.mergeDot row (B.rowAt ii))
            else none }

/-- The columns are moved by `inc`, and the matrix has `cols` columns then. -/
def shiftColumns (inc cols : ℕ) : SparseMatrix where
  cols := cols
  csr := A.csr.map fun row => row.map fun e => (e.1 + inc, e.2)

/-- `Compress_G`: the columns become positions on the rank, and the rows are sorted again. -/
def compress (my_lamdas_map_indices : ℕ → ℕ) (cols : ℕ) : SparseMatrix where
  cols := cols
  csr := A.csr.map fun row =>
    (row.map fun e => (my_lamdas_map_indices e.1, e.2)).mergeSort fun e e' => e.1 ≤ e'.1

variable {A B}

lemma Ascending.rowAt (h : A.Ascending) (i : ℕ) : (A.rowAt i).Pairwise (·.1 < ·.1) := by
  rcases lt_or_ge i A.rows with hi | hi
  · exact h _ (rowAt_mem hi)
  · rw [rowAt_eq_nil hi]
    exact List.Pairwise.nil

lemma matMatT_bounded : (A.matMatT B).Bounded := by
  rw [matMatT]
  split_ifs with h
  · exact fun row hrow => absurd hrow List.not_mem_nil
  · rintro row hrow e he
    obtain ⟨row', -, rfl⟩ := List.mem_map.mp hrow
    split_ifs at he with hnil
    · exact absurd he List.not_mem_nil
    · obtain ⟨j, hj, hej⟩ := List.mem_filterMap.mp he
      split_ifs at hej
      cases hej
      exact List.mem_range.mp hj

/-- **The entries of `A Bᵀ`**, also where the product is left empty. -/
lemma Ascending.entry_matMatT (hA : A.Ascending) (hB : B.Ascending) {n : ℕ}
    (hn : ∀ i, (A.rowAt i).Below n) (i j : ℕ) :
    (A.matMatT B).entry i j = ∑ k ∈ range n, A.entry i k * B.entry j k := by
  have hdot : Row.mergeDot (A.rowAt i) (B.rowAt j) = ∑ k ∈ range n, A.entry i k * B.entry j k := by
    rw [Row.mergeDot_eq (hA.rowAt i) (hB.rowAt j), Row.dot_eq_sum (hn i)]
    rfl
  rw [matMatT]
  split_ifs with h
  · rw [entry_empty, eq_comm]
    refine sum_eq_zero fun k _ => ?_
    rcases h with h | h
    · rw [entry_of_nnz h, zero_mul]
    · rw [entry_of_nnz h, mul_zero]
  · rw [entry, rowAt_map (by simp)]
    split_ifs with hrow
    · rw [Row.entry_nil, ← hdot, hrow]
      simp [Row.mergeDot]
    · rw [Row.entry_filterMap_range, ← hdot]
      rcases lt_or_ge j B.rows with hj | hj
      · by_cases hempty : B.rowAt j = []
        · simp [hempty, Row.mergeDot]
        · by_cases hzero : Row.mergeDot (A.rowAt i) (B.rowAt j) = 0
          · simp [hzero]
          · simp [hj, hempty, hzero]
      · rw [if_neg (by omega), rowAt_eq_nil hj]
        simp [Row.mergeDot]

lemma Ascending.nnz_matMatT (hA : A.Ascending) (hB : B.Ascending) {n : ℕ}
    (hn : ∀ i, (A.rowAt i).Below n)
    (h : ∀ i < A.rows, ∀ j < B.rows, ∑ k ∈ range n, A.entry i k * B.entry j k = 0) :
    (A.matMatT B).nnz = 0 := by
  rw [matMatT]
  split_ifs with hnnz
  · rfl
  · refine nnz_eq_zero_iff.mpr fun row hrow => ?_
    obtain ⟨row', hrow', rfl⟩ := List.mem_map.mp hrow
    obtain ⟨i, hi, rfl⟩ := List.mem_iff_getElem.mp hrow'
    split_ifs with hnil
    · rfl
    · refine List.filterMap_eq_nil_iff.mpr fun j hj => if_neg fun hstored => hstored.2 ?_
      have hrowAt : A.rowAt i = A.csr[i] := List.getD_eq_getElem _ _ hi
      rw [← h i hi j (List.mem_range.mp hj), ← hrowAt, Row.mergeDot_eq (hA.rowAt i) (hB.rowAt j),
        Row.dot_eq_sum (hn i)]
      rfl

lemma size_matMatT (h : (A.matMatT B).nnz ≠ 0) :
    (A.matMatT B).rows = A.rows ∧ (A.matMatT B).cols = B.rows := by
  rw [matMatT] at h ⊢
  split_ifs with hnnz
  · rw [if_pos hnnz] at h
    exact absurd rfl h
  · exact ⟨by simp [rows], rfl⟩

lemma nnz_of_matMatT (h : (A.matMatT B).nnz ≠ 0) : A.nnz ≠ 0 ∧ B.nnz ≠ 0 := by
  rw [matMatT] at h
  split_ifs at h with hnnz
  · exact absurd rfl h
  · exact not_or.mp hnnz

lemma rows_matMatT_le : (A.matMatT B).rows ≤ A.rows := by
  rw [matMatT]
  split_ifs with h
  · exact Nat.zero_le _
  · simp [rows]

lemma cols_matMatT_le : (A.matMatT B).cols ≤ B.rows := by
  rw [matMatT]
  split_ifs with h
  · exact Nat.zero_le _
  · exact le_rfl

lemma nnz_matTranspose_of_nnz (h : A.nnz = 0) : A.matTranspose.nnz = 0 := by
  rw [nnz_eq_zero_iff]
  rintro row hrow
  obtain ⟨j, -, rfl⟩ := List.mem_map.mp hrow
  simp [rowAt_of_nnz h]

@[simp] lemma rows_shiftColumns (inc cols : ℕ) : (A.shiftColumns inc cols).rows = A.rows := by
  simp [rows, shiftColumns]

@[simp] lemma cols_shiftColumns (inc cols : ℕ) : (A.shiftColumns inc cols).cols = cols := rfl

@[simp] lemma nnz_shiftColumns (inc cols : ℕ) : (A.shiftColumns inc cols).nnz = A.nnz := by
  simp [nnz, shiftColumns, Function.comp_def]

lemma shiftColumns_bounded (hA : A.Bounded) {inc cols : ℕ} (h : inc + A.cols ≤ cols) :
    (A.shiftColumns inc cols).Bounded := by
  rintro row hrow e he
  obtain ⟨row', hrow', rfl⟩ := List.mem_map.mp hrow
  obtain ⟨e', he', rfl⟩ := List.mem_map.mp he
  have := hA row' hrow' e' he'
  simp only [cols_shiftColumns]
  omega

lemma entry_shiftColumns (inc cols i j : ℕ) :
    (A.shiftColumns inc cols).entry i j = if inc ≤ j then A.entry i (j - inc) else 0 := by
  rw [entry, shiftColumns, rowAt_map (by simp), entry]
  induction A.rowAt i with
  | nil => simp
  | cons e es ih =>
      rw [List.map_cons, Row.entry_cons, Row.entry_cons, ih]
      by_cases hj : inc ≤ j
      · have hiff : e.1 + inc = j ↔ e.1 = j - inc := by omega
        simp only [if_pos hj, hiff]
      · rw [if_neg hj, if_neg hj, if_neg (by omega), zero_add]

@[simp] lemma rows_compress (f : ℕ → ℕ) (n : ℕ) : (A.compress f n).rows = A.rows := by
  simp [rows, compress]

@[simp] lemma nnz_compress (f : ℕ → ℕ) (n : ℕ) : (A.compress f n).nnz = A.nnz := by
  simp [nnz, compress, Function.comp_def]

lemma compress_bounded {f : ℕ → ℕ} {n : ℕ} (h : ∀ row ∈ A.csr, ∀ e ∈ row, f e.1 < n) :
    (A.compress f n).Bounded := by
  rintro row hrow e he
  obtain ⟨row', hrow', rfl⟩ := List.mem_map.mp hrow
  obtain ⟨e', he', rfl⟩ := List.mem_map.mp (List.mem_mergeSort.mp he)
  exact h row' hrow' e' he'

lemma entry_compress {f : ℕ → ℕ} {n i j : ℕ}
    (hf : ∀ row ∈ A.csr, ∀ e ∈ row, f e.1 = f j → e.1 = j) :
    (A.compress f n).entry i (f j) = A.entry i j := by
  rw [entry, compress, rowAt_map (by simp), Row.entry_perm (List.mergeSort_perm _ _), entry]
  rcases lt_or_ge i A.rows with hi | hi
  · have hrow := hf _ (rowAt_mem hi)
    generalize A.rowAt i = es at hrow
    induction es with
    | nil => simp
    | cons e es ih =>
        have hiff : f e.1 = f j ↔ e.1 = j :=
          ⟨hrow e List.mem_cons_self, fun h => by rw [h]⟩
        rw [List.map_cons, Row.entry_cons, Row.entry_cons,
          ih fun e' he' => hrow e' (List.mem_cons_of_mem _ he')]
        simp only [hiff]
  · rw [rowAt_eq_nil hi]
    rfl

/-- Pieces that are bounded and have one size, unless they store nothing. -/
def Fits (A : SparseMatrix) (m n : ℕ) : Prop :=
  A.Bounded ∧ (A.nnz ≠ 0 → A.rows = m ∧ A.cols = n)

lemma Fits.matAddInPlace {m n : ℕ} (hA : A.Fits m n) (hB : B.Fits m n) :
    (A.matAddInPlace B).Fits m n :=
  ⟨hA.1.matAddInPlace hB.1, size_matAddInPlace hA.2 hB.2⟩

lemma Fits.entry_matAddInPlace {m n : ℕ} (hA : A.Fits m n) (hB : B.Fits m n) (i j : ℕ) :
    (A.matAddInPlace B).entry i j = A.entry i j + B.entry i j :=
  hA.1.entry_matAddInPlace hB.1 (fun ha hb => by
    rw [(hA.2 ha).1, (hA.2 ha).2, (hB.2 hb).1, (hB.2 hb).2]
    exact ⟨rfl, rfl⟩) i j

lemma Fits.foldl_matAddInPlace {ι : Type} {m n : ℕ} {piece : ι → SparseMatrix} {l : List ι}
    (hA : A.Fits m n) (h : ∀ a ∈ l, (piece a).Fits m n) :
    (l.foldl (fun A a => A.matAddInPlace (piece a)) A).Fits m n ∧
      ∀ i j, (l.foldl (fun A a => A.matAddInPlace (piece a)) A).entry i j
        = A.entry i j + (l.map fun a => (piece a).entry i j).sum := by
  induction l generalizing A with
  | nil => exact ⟨hA, fun i j => by simp⟩
  | cons a l ih =>
      have ha := h a List.mem_cons_self
      have hrest := ih (hA.matAddInPlace ha) fun a' ha' => h a' (List.mem_cons_of_mem _ ha')
      refine ⟨hrest.1, fun i j => ?_⟩
      rw [List.foldl_cons, hrest.2 i j, hA.entry_matAddInPlace ha, List.map_cons, List.sum_cons,
        add_assoc]

lemma le_of_mem_removeLower {i : ℕ} (hi : i < A.rows) (hcols : A.cols ≠ 0) {e : ℕ × ℚ}
    (he : e ∈ A.removeLower.rowAt i) : i ≤ e.1 := by
  rw [removeLower, if_neg (not_or.mpr ⟨by omega, hcols⟩), rowAt_map_range, if_pos hi] at he
  simpa using (List.mem_filter.mp he).2

lemma collect_ascending (cols : ℕ) (es : Row) : (Row.collect cols es).Pairwise (·.1 < ·.1) := by
  refine List.pairwise_lt_range.filterMap _ fun j j' hlt e he e' he' => ?_
  split_ifs at he he'
  cases he
  cases he'
  exact hlt

lemma Ascending.matAddInPlace (hA : A.Ascending) (hB : B.Ascending) :
    (A.matAddInPlace B).Ascending := by
  rw [SparseMatrix.matAddInPlace]
  split_ifs with h h'
  · exact hA
  · exact hB
  · rintro row hrow
    obtain ⟨i, -, rfl⟩ := List.mem_map.mp hrow
    exact collect_ascending _ _

lemma Ascending.foldl_matAddInPlace {ι : Type} {piece : ι → SparseMatrix} {l : List ι}
    (hA : A.Ascending) (h : ∀ a ∈ l, (piece a).Ascending) :
    (l.foldl (fun A a => A.matAddInPlace (piece a)) A).Ascending := by
  induction l generalizing A with
  | nil => exact hA
  | cons a l ih =>
      exact ih (hA.matAddInPlace (h a List.mem_cons_self)) fun a' ha' =>
        h a' (List.mem_cons_of_mem _ ha')

lemma foldl_matAddInPlace_of_nnz {ι : Type} {piece : ι → SparseMatrix} {l : List ι}
    (h : ∀ a ∈ l, (piece a).nnz = 0) : l.foldl (fun A a => A.matAddInPlace (piece a)) A = A := by
  induction l with
  | nil => rfl
  | cons a l ih =>
      rw [List.foldl_cons, SparseMatrix.matAddInPlace, if_pos (h a List.mem_cons_self)]
      exact ih fun a' ha' => h a' (List.mem_cons_of_mem _ ha')

/-! ### Sums with a factor -/

/-- `MatAddInPlace(B, 'N', beta)`: the program ends if a factor other than one is asked for and the
matrix stores nothing. -/
def matAddInPlaceBy (A B : SparseMatrix) (beta : ℚ) : Option SparseMatrix :=
  if B.nnz = 0 then some A
  else if A.nnz = 0 then if beta = 1 then some B else none
  else
    some {
      cols := A.cols
      csr := (List.range A.rows).map fun i => Row.collect A.cols
        (A.rowAt i ++ (B.rowAt i).map fun e => (e.1, beta * e.2)) }

/-- **The sum with a factor**, for a first matrix that stores something if the second one does. -/
lemma Bounded.matAddInPlaceBy_eq (hA : A.Bounded) (hB : B.Bounded) (hne : B.nnz ≠ 0 → A.nnz ≠ 0)
    (hsize : B.nnz ≠ 0 → A.rows = B.rows ∧ A.cols = B.cols) (beta : ℚ) :
    ∃ C, A.matAddInPlaceBy B beta = some C ∧ C.rows = A.rows ∧ C.cols = A.cols ∧ C.Bounded ∧
      ∀ i j, C.entry i j = A.entry i j + beta * B.entry i j := by
  unfold SparseMatrix.matAddInPlaceBy
  by_cases hnnz : B.nnz = 0
  · rw [if_pos hnnz]
    refine ⟨A, rfl, rfl, rfl, hA, fun i j => ?_⟩
    rw [entry_of_nnz hnnz, mul_zero, add_zero]
  · rw [if_neg hnnz, if_neg (hne hnnz)]
    obtain ⟨hrows, hcols⟩ := hsize hnnz
    refine ⟨_, rfl, by simp [rows], rfl, ?_, fun i j => ?_⟩
    · intro row hrow
      obtain ⟨i, -, rfl⟩ := List.mem_map.mp hrow
      exact Row.collect_below _ _
    · rw [entry, rowAt_map_range]
      split_ifs with hi
      · rw [Row.entry_collect, Row.entry_append, Row.entry_map_mul]
        split_ifs with hj
        · rfl
        · rw [hA.entry_eq_zero i (by omega), hB.entry_eq_zero i (by omega), mul_zero, add_zero]
      · rw [Row.entry_nil, entry_eq_zero_of_rows (by omega), entry_eq_zero_of_rows (by omega),
          mul_zero, add_zero]

lemma mem_of_matAddInPlaceBy {beta : ℚ} {C : SparseMatrix} (hsum : A.matAddInPlaceBy B beta = some C)
    (hne : B.nnz ≠ 0 → A.nnz ≠ 0) {i : ℕ} {e : ℕ × ℚ} (he : e ∈ C.rowAt i) :
    (∃ e' ∈ A.rowAt i, e'.1 = e.1) ∨ ∃ e' ∈ B.rowAt i, e'.1 = e.1 := by
  unfold SparseMatrix.matAddInPlaceBy at hsum
  by_cases hnnz : B.nnz = 0
  · rw [if_pos hnnz] at hsum
    rw [← Option.some.inj hsum] at he
    exact Or.inl ⟨e, he, rfl⟩
  · rw [if_neg hnnz, if_neg (hne hnnz)] at hsum
    rw [← Option.some.inj hsum, rowAt_map_range] at he
    split_ifs at he with hi
    · obtain ⟨k, -, hk⟩ := List.mem_filterMap.mp he
      split_ifs at hk with hex
      obtain ⟨e₁, he₁, rfl⟩ := hex
      cases hk
      rcases List.mem_append.mp he₁ with he₁ | he₁
      · exact Or.inl ⟨e₁, he₁, rfl⟩
      · obtain ⟨e₂, he₂, rfl⟩ := List.mem_map.mp he₁
        exact Or.inr ⟨e₂, he₂, rfl⟩
    · exact absurd he List.not_mem_nil

lemma length_collect_le {cols : ℕ} {es row : Row} (h : ∀ e ∈ es, ∃ e' ∈ row, e'.1 = e.1) :
    (Row.collect cols es).length ≤ row.length := by
  have hnodup : ((Row.collect cols es).map Prod.fst).Nodup :=
    (List.pairwise_map.mpr (collect_ascending cols es)).imp fun h => h.ne
  have hsub : (Row.collect cols es).map Prod.fst ⊆ row.map Prod.fst := by
    intro j hj
    obtain ⟨e, he, rfl⟩ := List.mem_map.mp hj
    obtain ⟨k, -, hk⟩ := List.mem_filterMap.mp he
    split_ifs at hk with hex
    obtain ⟨e₁, he₁, rfl⟩ := hex
    obtain ⟨e₂, he₂, heq⟩ := h e₁ he₁
    cases hk
    exact List.mem_map.mpr ⟨e₂, he₂, heq⟩
  have hle := (hnodup.subperm hsub).length_le
  rwa [List.length_map, List.length_map] at hle

lemma nnz_matAddInPlaceBy_le {beta : ℚ} {C : SparseMatrix}
    (hsub : ∀ i, ∀ e ∈ B.rowAt i, ∃ e' ∈ A.rowAt i, e'.1 = e.1)
    (hsum : A.matAddInPlaceBy B beta = some C) (hne : B.nnz ≠ 0 → A.nnz ≠ 0) : C.nnz ≤ A.nnz := by
  unfold SparseMatrix.matAddInPlaceBy at hsum
  by_cases hnnz : B.nnz = 0
  · rw [if_pos hnnz] at hsum
    rw [Option.some.inj hsum]
  · rw [if_neg hnnz, if_neg (hne hnnz)] at hsum
    rw [← Option.some.inj hsum, nnz, nnz, List.map_map]
    have hcsr : A.csr = (List.range A.rows).map A.rowAt :=
      List.ext_getElem (by simp [rows]) fun i hi _ => by
        rw [List.getElem_map, List.getElem_range, rowAt, List.getD_eq_getElem _ _ hi]
    conv_rhs => rw [hcsr, List.map_map]
    refine List.sum_le_sum fun i _ => length_collect_le fun e he => ?_
    rcases List.mem_append.mp he with he | he
    · exact ⟨e, he, rfl⟩
    · obtain ⟨e₁, he₁, rfl⟩ := List.mem_map.mp he
      exact hsub i e₁ he₁

end SparseMatrix

end Espreso
