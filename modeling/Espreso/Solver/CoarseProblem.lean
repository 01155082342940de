import Espreso.Lib.Numbered
import Espreso.Solver.Dual
import Espreso.Solver.SparseProducts

/-!
# The coarse matrix of all ranks

Every rank holds the kernel rows `G1` of its domains over the multipliers.  A rank computes its rows of
`G Gᵀ`, and the rows of all ranks are collected on rank 0 along a binary tree.

* `KernelRows` — the kernel rows of the ranks; `stack` is the global `G`.
* **`collect_eq`** — rank 0 gets the pieces of all ranks in the order of the ranks.
* **`KernelRows.entry_collect`** — the collected matrix is `G Gᵀ`.
-/

namespace Espreso

open Finset

/-! ## The pieces of all ranks -/

/-- Matrices of all ranks while their pieces are collected: what a rank computed, and what it gathered
so far. -/
structure Collected where
  GGt_l : ℕ → SparseMatrix
  GGt_Mat_tmp : ℕ → SparseMatrix

/-- One round of the tree; `li` is the size of a block after the round. -/
def collectLevel (mpi_size li : ℕ) (s : Collected) : Collected where
  GGt_Mat_tmp mpi_rank :=
    if mpi_rank % li = 0 then
      let tmp := if li = 2 then (s.GGt_Mat_tmp mpi_rank).matAppend (s.GGt_l mpi_rank)
        else s.GGt_Mat_tmp mpi_rank
      if mpi_rank + li / 2 < mpi_size then
        -- the partner sends its own piece in the first round, and what it gathered later
        tmp.matAppend (if li = 2 then s.GGt_l (mpi_rank + li / 2)
          else s.GGt_Mat_tmp (mpi_rank + li / 2))
      else tmp
    else s.GGt_Mat_tmp mpi_rank
  GGt_l _ := SparseMatrix.empty

/-- The loop `for (li = 2; li <= 2 * mpi_size; li = li * 2)`, from the pieces of the ranks. -/
def collect (mpi_size : ℕ) (GGt_l : ℕ → SparseMatrix) : SparseMatrix :=
  ((List.range (Nat.log 2 mpi_size + 1)).foldl (fun s l => collectLevel mpi_size (2 ^ (l + 1)) s)
    ⟨GGt_l, fun _ => SparseMatrix.empty⟩).GGt_Mat_tmp 0

/-! ## Kernel rows -/

/-- The kernel rows `G1` of all ranks.  They are CSR matrices, and their columns are multipliers of the
rank; `multipliers` is the number of all multipliers. -/
structure KernelRows extends DualLayout where
  multipliers : ℕ
  lambdas_lt : ∀ r, ∀ l ∈ lambdas r, l < multipliers
  USE_HFETI : Bool
  G1 : ℕ → SparseMatrix
  G1_bounded : ∀ r, (G1 r).Bounded
  G1_ascending : ∀ r, (G1 r).Ascending
  G1_columns : ∀ r, ∀ row ∈ (G1 r).csr, ∀ e ∈ row, e.1 ∈ lambdas r

namespace KernelRows

variable (S : KernelRows)

/-- `local_ker_size` -/
def ker_size (r : ℕ) : ℕ := (S.G1 r).rows

/-- `global_ker_sizes`, the exclusive scan of `local_ker_size`. -/
def global_ker_size (r : ℕ) : ℕ := Layout.start S.ker_size r

def global_GGt_size : ℕ := Layout.start S.ker_size S.ranks

/-- The global matrix `G`: the kernel rows of all ranks in the order of the ranks. -/
def stack : SparseMatrix where
  cols := S.multipliers
  csr := (List.range S.ranks).flatMap fun r => (S.G1 r).csr

/-- `GGt_l` before the pieces of the neighbours are added. -/
def ownBlock (r : ℕ) : SparseMatrix :=
  (if S.USE_HFETI then (S.G1 r).matMatT (S.G1 r) else (S.G1 r).matMat (S.G1 r).matTranspose).shiftColumns
    (S.global_ker_size r) S.global_GGt_size

/-- The product with the kernel rows of rank `q`, which were received, as columns of that rank. -/
def crossBlock (q : ℕ) (B : SparseMatrix) : SparseMatrix :=
  ((S.G1 q).matMatT B).matTranspose.shiftColumns (S.global_ker_size q) S.global_GGt_size

/-- `GGt_neighs` for the neighbour `q`. -/
def neighBlock (r q : ℕ) : SparseMatrix := S.crossBlock q (S.G1 r)

/-- `GGt_l`: the rows of the coarse matrix that belong to the rank. -/
def blockRow (r : ℕ) : SparseMatrix :=
  (S.neighs r).foldl (fun GGt_l q => GGt_l.matAddInPlace (S.neighBlock r q)) (S.ownBlock r)

/-- `GGt_Mat_tmp` after it was collected and broadcast: the upper triangle. -/
def GGt_Mat_tmp : SparseMatrix := (collect S.ranks S.blockRow).removeLower

end KernelRows

/-! ## Collecting -/

namespace SparseMatrix

def stored (A : SparseMatrix) : SparseMatrix := if A.nnz = 0 then empty else A

variable {A B : SparseMatrix}

lemma empty_matAppend : empty.matAppend A = A.stored := by
  rw [matAppend, stored]
  by_cases h : A.nnz = 0
  · rw [if_neg (not_not.mpr h), if_pos h]
  · rw [if_pos h, if_pos ⟨rfl, rfl, rfl⟩, if_neg h]

lemma matAppend_stored : A.matAppend B.stored = A.matAppend B := by
  rw [stored]
  split_ifs with h
  · have hempty : ¬empty.nnz ≠ 0 := not_not.mpr rfl
    rw [matAppend, matAppend, if_neg hempty, if_neg (not_not.mpr h)]
  · rfl

lemma Fits.rows_stored_le {m n : ℕ} (h : A.Fits m n) : A.stored.rows ≤ m := by
  rw [stored]
  split_ifs with hnnz
  · exact Nat.zero_le _
  · exact (h.2 hnnz).1.le

lemma Fits.rows_stored_iff {m n : ℕ} (h : A.Fits m n) : A.stored.rows = m ↔ m = 0 ∨ A.nnz ≠ 0 := by
  rw [stored]
  split_ifs with hnnz
  · simp only [hnnz, ne_eq, not_true, or_false]
    exact eq_comm
  · simp only [hnnz, ne_eq, not_false_eq_true, or_true, iff_true]
    exact (h.2 hnnz).1

/-- Rows of several matrices one after the other; each of them has `n` columns or stores nothing. -/
structure Represents (piece : ℕ → SparseMatrix) (n : ℕ) (A : SparseMatrix) (ks : List ℕ) : Prop where
  csr : A.csr = ks.flatMap fun k => (piece k).stored.csr
  cols : A.nnz ≠ 0 → A.cols = n
  none : A.nnz = 0 → A = empty

lemma Represents.stored {piece : ℕ → SparseMatrix} {n k : ℕ}
    (h : (piece k).nnz ≠ 0 → (piece k).cols = n) : Represents piece n (piece k).stored [k] where
  csr := by simp
  cols := by
    rw [SparseMatrix.stored]
    split_ifs with hnnz
    · exact fun h0 => absurd rfl h0
    · exact h
  none := by
    rw [SparseMatrix.stored]
    split_ifs with hnnz
    · exact fun _ => rfl
    · exact fun h0 => absurd h0 hnnz

lemma Represents.matAppend {piece : ℕ → SparseMatrix} {n : ℕ} {ks ks' : List ℕ}
    (hA : Represents piece n A ks) (hB : Represents piece n B ks') :
    Represents piece n (A.matAppend B) (ks ++ ks') := by
  rw [SparseMatrix.matAppend]
  by_cases hB0 : B.nnz = 0
  · have hnil : (ks'.flatMap fun k => (piece k).stored.csr) = [] := by
      rw [← hB.csr, hB.none hB0]
      rfl
    rw [if_neg (not_not.mpr hB0)]
    exact ⟨by rw [hA.csr, List.flatMap_append, hnil, List.append_nil], hA.cols, hA.none⟩
  · rw [if_pos hB0]
    by_cases hA0 : A.nnz = 0
    · have hempty := hA.none hA0
      have hnil : (ks.flatMap fun k => (piece k).stored.csr) = [] := by
        rw [← hA.csr, hempty]
        rfl
      rw [if_pos ⟨hA0, by rw [hempty]; rfl, by rw [hempty]; rfl⟩]
      exact ⟨by rw [hB.csr, List.flatMap_append, hnil, List.nil_append], hB.cols, hB.none⟩
    · rw [if_neg fun h => hA0 h.1]
      refine ⟨by rw [hA.csr, hB.csr, List.flatMap_append], fun _ => hA.cols hA0, fun h0 => ?_⟩
      refine absurd h0 ?_
      rw [nnz, List.map_append, List.sum_append]
      exact fun h => hA0 (by rw [nnz]; omega)

end SparseMatrix

lemma collect_tree (mpi_size : ℕ) (piece : ℕ → SparseMatrix) (l k : ℕ) (hk : k % 2 ^ (l + 1) = 0) :
    ((List.range (l + 1)).foldl (fun s l => collectLevel mpi_size (2 ^ (l + 1)) s)
        ⟨piece, fun _ => SparseMatrix.empty⟩).GGt_Mat_tmp k
      = Tree.reduce SparseMatrix.matAppend mpi_size (l + 1) (fun k => (piece k).stored) k := by
  induction l generalizing k with
  | zero =>
      have hk' : k % 2 = 0 := by simpa using hk
      rw [Tree.reduce_succ, Tree.reduce_zero, Tree.level]
      simp only [zero_add, List.range_one, List.foldl_cons, List.foldl_nil, collectLevel, pow_one,
        pow_zero, mul_one, hk', if_true, true_and, Nat.div_self two_pos,
        SparseMatrix.empty_matAppend, SparseMatrix.matAppend_stored]
  | succ l ih =>
      have hpow : 2 ^ (l + 1 + 1) = 2 * 2 ^ (l + 1) := by ring
      have hpos : 0 < 2 ^ (l + 1) := Nat.two_pow_pos _
      have hne : 2 ^ (l + 1 + 1) ≠ 2 := by
        have : 1 < 2 ^ (l + 1) := Nat.one_lt_two_pow (by omega)
        omega
      have hdvd : k % 2 ^ (l + 1) = 0 := by
        rw [hpow] at hk
        exact Nat.mod_eq_zero_of_dvd
          (dvd_trans (Dvd.intro_left 2 rfl) (Nat.dvd_of_mod_eq_zero hk))
      have hhalf : 2 ^ (l + 1 + 1) / 2 = 2 ^ (l + 1) := by omega
      have hdvd' : (k + 2 ^ (l + 1)) % 2 ^ (l + 1) = 0 := by rw [Nat.add_mod_right, hdvd]
      rw [Tree.reduce_succ, Tree.level, List.range_succ, List.foldl_append, List.foldl_cons,
        List.foldl_nil, ← ih k hdvd, ← ih _ hdvd']
      simp only [collectLevel, hk, hne, hhalf, if_true, if_false, ← hpow, true_and]

/-- **Collecting** puts the rows of all ranks one after the other on rank 0. -/
theorem collect_eq {mpi_size n : ℕ} (hsize : 0 < mpi_size) {piece : ℕ → SparseMatrix}
    (h : ∀ k < mpi_size, (piece k).nnz ≠ 0 → (piece k).cols = n) :
    SparseMatrix.Represents piece n (collect mpi_size piece) (List.range mpi_size) := by
  have hle : mpi_size ≤ 2 ^ (Nat.log 2 mpi_size + 1) := le_of_lt (Nat.lt_pow_succ_log_self one_lt_two _)
  rw [collect, collect_tree mpi_size piece _ 0 (Nat.zero_mod _)]
  exact Tree.reduce_all (fun _ _ _ _ ha hb => ha.matAppend hb) hsize
    (fun k hk => SparseMatrix.Represents.stored (h k hk)) hle

namespace KernelRows

variable {S : KernelRows}

/-! ## The coarse matrix -/

lemma global_ker_size_add_le {r q : ℕ} (h : r < q) :
    S.global_ker_size r + S.ker_size r ≤ S.global_ker_size q := Layout.start_add_le _ h

lemma global_ker_size_le {r : ℕ} (hr : r < S.ranks) :
    S.global_ker_size r + S.ker_size r ≤ S.global_GGt_size := Layout.start_add_le _ hr

lemma index_lt_total {r i : ℕ} (hr : r < S.ranks) (hi : i < S.ker_size r) :
    S.global_ker_size r + i < S.global_GGt_size := by
  have := global_ker_size_le hr
  omega

lemma exists_rank {k : ℕ} (hk : k < S.global_GGt_size) :
    ∃ r < S.ranks, ∃ i < S.ker_size r, S.global_ker_size r + i = k := by
  obtain ⟨⟨r, i⟩, ⟨hr, hi⟩, hri⟩ := (Layout.prefixes_bijOn S.ranks S.ker_size).surjOn hk
  exact ⟨r, hr, i, hi, hri⟩

@[simp] lemma rows_stack : S.stack.rows = S.global_GGt_size := Layout.length_flatMap_range _ _

lemma entry_stack {r i : ℕ} (hr : r < S.ranks) (hi : i < S.ker_size r) (l : ℕ) :
    S.stack.entry (S.global_ker_size r + i) l = (S.G1 r).entry i l := by
  have hrow : S.stack.rowAt (S.global_ker_size r + i) = (S.G1 r).rowAt i := by
    rw [SparseMatrix.rowAt, SparseMatrix.rowAt, List.getD_eq_getElem?_getD,
      List.getD_eq_getElem?_getD]
    exact congrArg (·.getD []) (Layout.getElem?_flatMap_range (fun r => (S.G1 r).csr) hr hi)
  rw [SparseMatrix.entry, hrow, SparseMatrix.entry]

lemma G1_below (r i : ℕ) : ((S.G1 r).rowAt i).Below S.multipliers := by
  rcases lt_or_ge i (S.G1 r).rows with hi | hi
  · exact fun e he => S.lambdas_lt r _ (S.G1_columns r _ (SparseMatrix.rowAt_mem hi) e he)
  · rw [SparseMatrix.rowAt_eq_nil hi]
    exact fun e he => absurd he List.not_mem_nil

lemma entry_G1_of_notMem {r l : ℕ} (hl : l ∉ S.lambdas r) (i : ℕ) : (S.G1 r).entry i l = 0 := by
  rcases lt_or_ge i (S.G1 r).rows with hi | hi
  · refine Row.entry_eq_zero ?_
    rintro ⟨e, he, rfl⟩
    exact hl (S.G1_columns r _ (SparseMatrix.rowAt_mem hi) e he)
  · exact SparseMatrix.entry_eq_zero_of_rows hi l

def rowProduct (S : KernelRows) (r i q j : ℕ) : ℚ :=
  ∑ l ∈ range S.multipliers, (S.G1 r).entry i l * (S.G1 q).entry j l

lemma rowProduct_of_notMem {r q : ℕ} (hr : r < S.ranks) (hq : q < S.ranks) (hne : r ≠ q)
    (hnot : q ∉ S.neighs r) (i j : ℕ) : S.rowProduct r i q j = 0 := by
  refine sum_eq_zero fun l _ => ?_
  by_cases hl : l ∈ S.lambdas r
  · have hlq : l ∉ S.lambdas q := fun h => hnot (S.neighs_of_shared r hr q hq hne l hl h)
    rw [entry_G1_of_notMem hlq, mul_zero]
  · rw [entry_G1_of_notMem hl, zero_mul]

lemma fits_shift {A : SparseMatrix} (hA : A.Bounded) {m q : ℕ} (hq : q < S.ranks)
    (hsize : A.nnz ≠ 0 → A.rows = m ∧ A.cols = S.ker_size q) (hcols : A.cols ≤ S.ker_size q) :
    (A.shiftColumns (S.global_ker_size q) S.global_GGt_size).Fits m S.global_GGt_size := by
  have hle := global_ker_size_le hq
  refine ⟨SparseMatrix.shiftColumns_bounded hA (by omega), fun h => ⟨?_, rfl⟩⟩
  rw [SparseMatrix.nnz_shiftColumns] at h
  rw [SparseMatrix.rows_shiftColumns, (hsize h).1]

lemma entry_shift {A : SparseMatrix} (hA : A.Bounded) {p q : ℕ} (hcols : A.cols ≤ S.ker_size q)
    {b : ℕ} (hb : b < S.ker_size p) (i : ℕ) :
    (A.shiftColumns (S.global_ker_size q) S.global_GGt_size).entry i (S.global_ker_size p + b)
      = if q = p then A.entry i b else 0 := by
  rw [SparseMatrix.entry_shiftColumns]
  rcases lt_trichotomy q p with hlt | rfl | hgt
  · have hle := global_ker_size_add_le (S := S) hlt
    rw [if_pos (by omega), if_neg (ne_of_lt hlt), hA.entry_eq_zero i (by omega)]
  · rw [if_pos (by omega), if_pos rfl, Nat.add_sub_cancel_left]
  · have hle := global_ker_size_add_le (S := S) hgt
    rw [if_neg (by omega), if_neg (ne_of_gt hgt)]

lemma ownBlock_spec {r : ℕ} (hr : r < S.ranks) :
    (S.ownBlock r).Fits (S.ker_size r) S.global_GGt_size ∧
      ∀ i, ∀ p < S.ranks, ∀ b < S.ker_size p,
        (S.ownBlock r).entry i (S.global_ker_size p + b)
          = if r = p then S.rowProduct r i p b else 0 := by
  have hbelow := fun i => G1_below (S := S) r i
  by_cases hfeti : S.USE_HFETI
  · rw [ownBlock, if_pos hfeti]
    refine ⟨fits_shift SparseMatrix.matMatT_bounded hr SparseMatrix.size_matMatT
      SparseMatrix.cols_matMatT_le, fun i p _ b hb => ?_⟩
    rw [entry_shift SparseMatrix.matMatT_bounded SparseMatrix.cols_matMatT_le hb,
      (S.G1_ascending r).entry_matMatT (S.G1_ascending r) hbelow]
    split_ifs with h
    · rw [rowProduct, h]
    · rfl
  · have hcols : ((S.G1 r).matMat (S.G1 r).matTranspose).cols ≤ S.ker_size r := by
      rw [SparseMatrix.matMat]
      split_ifs with h
      · exact le_rfl
      · exact Nat.zero_le _
    rw [ownBlock, if_neg hfeti]
    refine ⟨fits_shift SparseMatrix.matMat_bounded hr SparseMatrix.size_matMat hcols,
      fun i p _ b hb => ?_⟩
    rw [entry_shift SparseMatrix.matMat_bounded hcols hb,
      (S.G1_bounded r).entry_matMat SparseMatrix.matTranspose_bounded]
    split_ifs with h
    · subst h
      have hdot := Row.dot_eq_sum (hbelow i) fun l => (S.G1 r).entry b l
      refine Eq.trans ?_ ((Row.dot_eq_sum ((S.G1_bounded r).rowAt_below i) _).symm.trans hdot)
      refine sum_congr rfl fun l _ => ?_
      rw [(S.G1_bounded r).entry_matTranspose]
      rfl
    · rfl

lemma crossBlock_spec {B : SparseMatrix} (hB : B.Ascending) {m : ℕ} (hrows : B.nnz ≠ 0 → B.rows = m)
    {q : ℕ} (hq : q < S.ranks) :
    (S.crossBlock q B).Fits m S.global_GGt_size ∧
      ∀ i, ∀ p < S.ranks, ∀ b < S.ker_size p,
        (S.crossBlock q B).entry i (S.global_ker_size p + b)
          = if q = p then ∑ l ∈ range S.multipliers, (S.G1 p).entry b l * B.entry i l else 0 := by
  have hcols : ((S.G1 q).matMatT B).matTranspose.cols ≤ S.ker_size q := SparseMatrix.rows_matMatT_le
  have hsize : ((S.G1 q).matMatT B).matTranspose.nnz ≠ 0 →
      ((S.G1 q).matMatT B).matTranspose.rows = m ∧
        ((S.G1 q).matMatT B).matTranspose.cols = S.ker_size q := by
    intro h
    have hnnz : ((S.G1 q).matMatT B).nnz ≠ 0 := fun h0 => h (SparseMatrix.nnz_matTranspose_of_nnz h0)
    have hsize := SparseMatrix.size_matMatT hnnz
    rw [SparseMatrix.rows_matTranspose, SparseMatrix.cols_matTranspose, hsize.1, hsize.2,
      hrows (SparseMatrix.nnz_of_matMatT hnnz).2]
    exact ⟨rfl, rfl⟩
  rw [crossBlock]
  refine ⟨fits_shift SparseMatrix.matTranspose_bounded hq hsize hcols, fun i p _ b hb => ?_⟩
  rw [entry_shift SparseMatrix.matTranspose_bounded hcols hb,
    SparseMatrix.matMatT_bounded.entry_matTranspose,
    (S.G1_ascending q).entry_matMatT hB fun i => G1_below (S := S) q i]
  split_ifs with h
  · rw [h]
  · rfl

lemma neighBlock_spec (r : ℕ) {q : ℕ} (hq : q < S.ranks) :
    (S.neighBlock r q).Fits (S.ker_size r) S.global_GGt_size ∧
      ∀ i, ∀ p < S.ranks, ∀ b < S.ker_size p,
        (S.neighBlock r q).entry i (S.global_ker_size p + b)
          = if q = p then S.rowProduct r i p b else 0 := by
  obtain ⟨hfits, hentry⟩ := crossBlock_spec (S.G1_ascending r) (m := S.ker_size r) (fun _ => rfl) hq
  refine ⟨hfits, fun i p hp b hb => (hentry i p hp b hb).trans ?_⟩
  split_ifs with h
  · exact sum_congr rfl fun l _ => mul_comm _ _
  · rfl

lemma blockRow_spec {r : ℕ} (hr : r < S.ranks) :
    (S.blockRow r).Fits (S.ker_size r) S.global_GGt_size ∧
      ∀ i, ∀ p < S.ranks, ∀ b < S.ker_size p,
        (S.blockRow r).entry i (S.global_ker_size p + b) = S.rowProduct r i p b := by
  have hneighs : ∀ q ∈ S.neighs r, q < S.ranks := S.neighs_lt r
  obtain ⟨hfits, hentry⟩ := (ownBlock_spec hr).1.foldl_matAddInPlace
    fun q hq => (neighBlock_spec r (hneighs q hq)).1
  refine ⟨hfits, fun i p hp b hb => ?_⟩
  have hpieces : ((S.neighs r).map fun q => (S.neighBlock r q).entry i (S.global_ker_size p + b)).sum
      = if p ∈ S.neighs r then S.rowProduct r i p b else 0 := by
    rw [List.map_congr_left fun q hq => (neighBlock_spec r (hneighs q hq)).2 i p hp b hb,
      ← List.sum_toFinset _ (S.neighs_nodup r), sum_ite_eq']
    simp only [List.mem_toFinset]
  rw [blockRow, hentry, (ownBlock_spec hr).2 i p hp b hb, hpieces]
  by_cases hrp : r = p
  · subst hrp
    rw [if_pos rfl, if_neg (S.neighs_irrefl r), add_zero]
  · rw [if_neg hrp, zero_add]
    split_ifs with hmem
    · rfl
    · rw [rowProduct_of_notMem hr hp hrp hmem]

/-! ### The collected pieces -/

variable {piece : ℕ → SparseMatrix}

lemma rows_collect_iff (hranks : 0 < S.ranks)
    (hfits : ∀ r < S.ranks, (piece r).Fits (S.ker_size r) S.global_GGt_size) :
    (collect S.ranks piece).rows = S.global_GGt_size ↔
      ∀ r < S.ranks, (piece r).stored.rows = S.ker_size r := by
  have hcollect := collect_eq hranks fun r hr hnnz => ((hfits r hr).2 hnnz).2
  have hrows : (collect S.ranks piece).rows = ∑ r ∈ range S.ranks, (piece r).stored.rows := by
    rw [SparseMatrix.rows, hcollect.csr, Layout.length_flatMap_range]
    rfl
  rw [hrows, global_GGt_size, Layout.start,
    sum_eq_sum_iff_of_le fun r hr => (hfits r (mem_range.mp hr)).rows_stored_le]
  simp only [mem_range]

lemma entry_collect_of_stored (hfits : ∀ r < S.ranks, (piece r).Fits (S.ker_size r) S.global_GGt_size)
    (hstored : ∀ r < S.ranks, (piece r).stored.rows = S.ker_size r) {r i : ℕ} (hr : r < S.ranks)
    (hi : i < S.ker_size r) (j : ℕ) :
    (collect S.ranks piece).entry (S.global_ker_size r + i) j = (piece r).entry i j := by
  have hcollect := collect_eq (Nat.zero_lt_of_lt hr) fun r hr hnnz => ((hfits r hr).2 hnnz).2
  have hstart : Layout.start (fun r => (piece r).stored.csr.length) r = S.global_ker_size r :=
    sum_congr rfl fun q hq => hstored q ((mem_range.mp hq).trans hr)
  have hi' : i < (piece r).stored.csr.length := lt_of_lt_of_eq hi (hstored r hr).symm
  have hnnz : (piece r).nnz ≠ 0 := by
    intro hnnz
    rw [SparseMatrix.stored, if_pos hnnz] at hi'
    exact absurd hi' (Nat.not_lt_zero _)
  have hrow : (collect S.ranks piece).rowAt (S.global_ker_size r + i) = (piece r).rowAt i := by
    rw [SparseMatrix.rowAt, hcollect.csr, ← hstart, List.getD_eq_getElem?_getD,
      Layout.getElem?_flatMap_range (fun r => (piece r).stored.csr) hr hi',
      SparseMatrix.rowAt, List.getD_eq_getElem?_getD, SparseMatrix.stored, if_neg hnnz]
  rw [SparseMatrix.entry, hrow, SparseMatrix.entry]

/-! ### Full rank -/

def FullRank (S : KernelRows) : Prop :=
  LinearIndependent ℚ (Numbered.mat S.global_GGt_size S.multipliers S.stack.entry).row

lemma FullRank.rowProduct_ne (h : S.FullRank) {r i : ℕ} (hr : r < S.ranks) (hi : i < S.ker_size r) :
    S.rowProduct r i r i ≠ 0 := by
  have hlt := index_lt_total hr hi
  have hrow := h.ne_zero ⟨S.global_ker_size r + i, hlt⟩
  refine fun hzero => hrow (funext fun l => ?_)
  have hnonneg : ∀ l ∈ range S.multipliers, 0 ≤ (S.G1 r).entry i l * (S.G1 r).entry i l :=
    fun l _ => mul_self_nonneg _
  have hl := (sum_eq_zero_iff_of_nonneg hnonneg).mp hzero l (mem_range.mpr l.isLt)
  exact (entry_stack hr hi l).trans (mul_self_eq_zero.mp hl)

lemma FullRank.rows_stored (h : S.FullRank) {r : ℕ} (hr : r < S.ranks) :
    (S.blockRow r).stored.rows = S.ker_size r := by
  obtain ⟨hfits, hentry⟩ := blockRow_spec hr
  refine hfits.rows_stored_iff.mpr ?_
  rcases Nat.eq_zero_or_pos (S.ker_size r) with hzero | hpos
  · exact Or.inl hzero
  · refine Or.inr fun hnnz => h.rowProduct_ne hr hpos ?_
    rw [← hentry 0 r hr 0 hpos, SparseMatrix.entry_of_nnz hnnz]

lemma FullRank.rows_collect (h : S.FullRank) (hranks : 0 < S.ranks) :
    (collect S.ranks S.blockRow).rows = S.global_GGt_size :=
  (rows_collect_iff hranks fun _ hr => (blockRow_spec hr).1).mpr fun _ hr => h.rows_stored hr

/-- **The collected matrix** is `G Gᵀ`. -/
theorem FullRank.entry_collect (h : S.FullRank) {r i p b : ℕ} (hr : r < S.ranks)
    (hi : i < S.ker_size r) (hp : p < S.ranks) (hb : b < S.ker_size p) :
    (collect S.ranks S.blockRow).entry (S.global_ker_size r + i) (S.global_ker_size p + b)
      = S.rowProduct r i p b := by
  rw [entry_collect_of_stored (fun _ hr => (blockRow_spec hr).1) (fun _ hr => h.rows_stored hr) hr hi,
    (blockRow_spec hr).2 i p hp b hb]

end KernelRows

end Espreso
