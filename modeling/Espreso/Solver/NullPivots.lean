import Espreso.Solver.CsrArrays
import Espreso.Solver.SparseProducts
import Mathlib.LinearAlgebra.Matrix.ToLinearEquiv
import Mathlib.Tactic

/-!
# Null pivots

`SparseMatrix::getNullPivots` chooses as many rows of a kernel basis as it has columns. It
eliminates backwards from the last row and column, with the entry of greatest absolute value as
pivot.

* `DenseMatrix.Elimination`, `DenseMatrix.eliminationStep`, `DenseMatrix.getNullPivots` — the code.
* **`DenseMatrix.Invariant.pivot_ne_zero`**, **`DenseMatrix.Invariant.step`** — the pivot, and one
  step.
* **`DenseMatrix.getNullPivots_spec`** — the rows and the regularized matrices.
-/

namespace Espreso

open Finset

namespace DenseMatrix

/-! ## The code -/

/-- The array `N` and the numbers of its rows. -/
structure Elimination where
  N : ℕ → ℚ
  nul_piv : ℕ → ℕ

def ij (rows ii jj : ℕ) : ℕ := ii + rows * jj

/-- `std::max_element` with `compareDouble`: equal values count as greater. -/
def maxElement (N : ℕ → ℚ) (n : ℕ) : ℕ :=
  (List.range' 1 (n - 1)).foldl (fun result k => if |N result| ≤ |N k| then k else result) 0

/-- The loop that exchanges two rows in the first `count` columns. -/
def swapRows (rows r s count : ℕ) (N : ℕ → ℚ) : ℕ → ℚ :=
  (List.range count).foldl (fun N k =>
    let tmpV := N (ij rows r k)
    Function.update (Function.update N (ij rows r k) (N (ij rows s k))) (ij rows s k) tmpV) N

/-- `memcpy` of `count` numbers. -/
def memcpy (destination : ℕ → ℚ) (start count : ℕ) (source : ℕ → ℚ) : ℕ → ℚ := fun k =>
  if start ≤ k ∧ k < start + count then source (k - start) else destination k

def swapCols (rows c d : ℕ) (N : ℕ → ℚ) : ℕ → ℚ :=
  let tmpV := fun k => N (ij rows 0 c + k)
  let N := memcpy N (ij rows 0 c) rows fun k => N (ij rows 0 d + k)
  memcpy N (ij rows 0 d) rows tmpV

/-- The loops that subtract the pivot column; `p` is the pivot row, `q` the pivot column. -/
def subtract (rows p q Jend Iend : ℕ) (pivot : ℚ) (N : ℕ → ℚ) : ℕ → ℚ :=
  (List.range Jend).foldl (fun N J =>
    (List.range Iend).foldl (fun N I =>
      Function.update N (ij rows I J)
        (N (ij rows I J) - N (ij rows I q) * N (ij rows p J) / pivot)) N) N

variable (R : DenseMatrix)

def start : Elimination where
  N := R.dense_values
  nul_piv i := i

/-- The state with the greatest entry of the active columns moved to the last active row and column.
-/
def exchange (j : ℕ) (st : Elimination) : Elimination :=
  let I := maxElement st.N (R.rows * R.cols - j * R.rows)
  let colInd := I / R.rows
  let rowInd := I - colInd * R.rows
  let N := swapRows R.rows (R.rows - 1 - j) rowInd (R.cols - j) st.N
  let tmp_int := st.nul_piv rowInd
  { nul_piv := Function.update (Function.update st.nul_piv rowInd (st.nul_piv (R.rows - 1 - j)))
      (R.rows - 1 - j) tmp_int
    N := if R.cols - 1 - j ≠ colInd then swapCols R.rows (R.cols - 1 - j) colInd N else N }

/-- The pivot of step `j`. -/
def pivot (j : ℕ) (st : Elimination) : ℚ :=
  (R.exchange j st).N (ij R.rows (R.rows - 1 - j) (R.cols - 1 - j))

def eliminationStep (st : Elimination) (j : ℕ) : Elimination where
  nul_piv := (R.exchange j st).nul_piv
  N := subtract R.rows (R.rows - 1 - j) (R.cols - 1 - j) (R.cols - j - 1) (R.rows - j)
    (R.pivot j st) (R.exchange j st).N

/-- The state after `j` steps. -/
def eliminated (j : ℕ) : Elimination := (List.range j).foldl R.eliminationStep R.start

def getNullPivots (null_pivots : List ℕ) : List ℕ :=
  (null_pivots ++ (List.range R.cols).map fun i =>
    (R.eliminated R.cols).nul_piv (R.rows - 1 - i) + 1).insertionSort (· ≤ ·)

/-! ## The greatest entry -/

lemma maxElement_spec (N : ℕ → ℚ) {n : ℕ} (hn : 0 < n) :
    maxElement N n < n ∧ ∀ k < n, |N k| ≤ |N (maxElement N n)| := by
  induction n with
  | zero => exact absurd hn (lt_irrefl 0)
  | succ n ih =>
      rcases Nat.eq_zero_or_pos n with rfl | hpos
      · refine ⟨Nat.zero_lt_one, fun k hk => ?_⟩
        obtain rfl : k = 0 := by omega
        exact le_rfl
      · obtain ⟨hlt, hmax⟩ := ih hpos
        have hnext : maxElement N (n + 1)
            = if |N (maxElement N n)| ≤ |N n| then n else maxElement N n := by
          obtain ⟨m, rfl⟩ := Nat.exists_eq_succ_of_ne_zero hpos.ne'
          simp only [maxElement, Nat.succ_eq_add_one, Nat.add_sub_cancel, List.range'_1_concat,
            List.foldl_append, List.foldl_cons, List.foldl_nil, Nat.add_comm 1 m]
        rw [hnext]
        split_ifs with hle
        · refine ⟨Nat.lt_succ_self n, fun k hk => ?_⟩
          rcases Nat.lt_succ_iff_lt_or_eq.mp hk with hk | rfl
          · exact (hmax k hk).trans hle
          · exact le_rfl
        · refine ⟨hlt.trans (Nat.lt_succ_self n), fun k hk => ?_⟩
          rcases Nat.lt_succ_iff_lt_or_eq.mp hk with hk | rfl
          · exact hmax k hk
          · exact (not_le.mp hle).le

/-! ## Positions -/

lemma ij_inj {rows a b c d : ℕ} (ha : a < rows) (hb : b < rows) (h : ij rows a c = ij rows b d) :
    a = b ∧ c = d := by
  have hmod : a = b := by
    have hm := congrArg (· % rows) h
    simpa only [ij, Nat.add_mul_mod_self_left, Nat.mod_eq_of_lt ha, Nat.mod_eq_of_lt hb] using hm
  have hdiv : c = d := by
    have hd := congrArg (· / rows) h
    simpa only [ij, Nat.add_mul_div_left _ _ (Nat.zero_lt_of_lt ha), Nat.div_eq_of_lt ha,
      Nat.div_eq_of_lt hb, Nat.zero_add] using hd
  exact ⟨hmod, hdiv⟩

lemma swap_lt_iff {a b c n : ℕ} (ha : a < n) (hb : b < n) : Equiv.swap a b c < n ↔ c < n := by
  rw [Equiv.swap_apply_def]
  split_ifs with hca hcb
  · exact iff_of_true hb (hca ▸ ha)
  · exact iff_of_true ha (hcb ▸ hb)
  · rfl

lemma ij_div_mod (rows k : ℕ) : ij rows (k - k / rows * rows) (k / rows) = k := by
  have h := Nat.div_add_mod k rows
  have hle := Nat.div_mul_le_self k rows
  rw [ij, Nat.mul_comm rows]
  omega

/-! ## What the loops do to the entries -/

section Loops

variable {rows : ℕ} {N : ℕ → ℚ}

lemma swapRows_ij {r s : ℕ} (hr : r < rows) (hs : s < rows) (count : ℕ) :
    ∀ a < rows, ∀ c, swapRows rows r s count N (ij rows a c)
      = if c < count then N (ij rows (Equiv.swap r s a) c) else N (ij rows a c) := by
  induction count with
  | zero => simp [swapRows]
  | succ count ih =>
      intro a ha c
      have hcol : ∀ b < rows, swapRows rows r s count N (ij rows b count)
          = N (ij rows b count) := fun b hb => by
        rw [ih b hb count, if_neg (lt_irrefl count)]
      have hstep : swapRows rows r s (count + 1) N = Function.update
          (Function.update (swapRows rows r s count N) (ij rows r count) (N (ij rows s count)))
          (ij rows s count) (N (ij rows r count)) := by
        rw [← hcol r hr, ← hcol s hs, swapRows, List.range_succ, List.foldl_append]
        rfl
      rw [hstep]
      rcases eq_or_ne c count with rfl | hc
      · rw [if_pos (Nat.lt_succ_self c)]
        rcases eq_or_ne a s with rfl | has
        · rw [Function.update_self, Equiv.swap_apply_right]
        · rw [Function.update_of_ne fun h => has (ij_inj ha hs h).1]
          rcases eq_or_ne a r with rfl | har
          · rw [Function.update_self, Equiv.swap_apply_left]
          · rw [Function.update_of_ne fun h => har (ij_inj ha hr h).1, hcol a ha,
              Equiv.swap_apply_of_ne_of_ne har has]
      · rw [Function.update_of_ne fun h => hc (ij_inj ha hs h).2,
          Function.update_of_ne fun h => hc (ij_inj ha hr h).2, ih a ha c]
        exact if_congr (by omega) rfl rfl

lemma memcpy_ij {a : ℕ} (ha : a < rows) (d e : ℕ) (source : ℕ → ℚ) :
    memcpy N (ij rows 0 d) rows source (ij rows a e)
      = if e = d then source a else N (ij rows a e) := by
  rw [memcpy]
  simp only [ij, Nat.zero_add]
  rcases lt_trichotomy e d with hlt | rfl | hgt
  · have hle : rows * (e + 1) ≤ rows * d := Nat.mul_le_mul_left _ hlt
    rw [Nat.mul_add] at hle
    rw [if_neg (by omega), if_neg hlt.ne]
  · rw [if_pos (by omega), if_pos rfl, Nat.add_sub_cancel]
  · have hle : rows * (d + 1) ≤ rows * e := Nat.mul_le_mul_left _ hgt
    rw [Nat.mul_add] at hle
    rw [if_neg (by omega), if_neg hgt.ne']

lemma swapCols_ij {a : ℕ} (ha : a < rows) (c d e : ℕ) :
    swapCols rows c d N (ij rows a e) = N (ij rows a (Equiv.swap c d e)) := by
  have hcolumn : ∀ c, ij rows 0 c + a = ij rows a c := fun c => by
    simp only [ij]
    omega
  rw [swapCols, memcpy_ij ha, memcpy_ij ha, hcolumn, hcolumn]
  rcases eq_or_ne e d with rfl | hd
  · rw [if_pos rfl, Equiv.swap_apply_right]
  · rw [if_neg hd]
    rcases eq_or_ne e c with rfl | hc
    · rw [if_pos rfl, Equiv.swap_apply_left]
    · rw [if_neg hc, Equiv.swap_apply_of_ne_of_ne hc hd]

lemma subtract_column {p q J : ℕ} (hp : p < rows) (hq : J ≠ q) (pivot : ℚ) {Iend : ℕ}
    (hIend : Iend ≤ p + 1) : ∀ a < rows, ∀ c,
    (List.range Iend).foldl (fun N I => Function.update N (ij rows I J)
        (N (ij rows I J) - N (ij rows I q) * N (ij rows p J) / pivot)) N (ij rows a c)
      = if c = J ∧ a < Iend then
          N (ij rows a c) - N (ij rows a q) * N (ij rows p c) / pivot
        else N (ij rows a c) := by
  induction Iend with
  | zero => simp
  | succ I ih =>
      intro a ha c
      have ih := ih (by omega)
      have hI : I < rows := by omega
      rw [List.range_succ, List.foldl_append, List.foldl_cons, List.foldl_nil]
      by_cases hac : a = I ∧ c = J
      · obtain ⟨rfl, rfl⟩ := hac
        rw [Function.update_self, ih a ha, ih a ha, ih p hp, if_neg (by omega), if_neg (by omega),
          if_neg (by omega), if_pos ⟨rfl, Nat.lt_succ_self a⟩]
      · have hne : ij rows a c ≠ ij rows I J := fun h => hac (ij_inj ha hI h)
        rw [Function.update_of_ne hne, ih a ha]
        exact if_congr (by omega) rfl rfl

lemma subtract_ij {p q Iend : ℕ} (hp : p < rows) (hIend : Iend ≤ p + 1) (pivot : ℚ) {Jend : ℕ}
    (hq : Jend ≤ q) : ∀ a < rows, ∀ c,
    subtract rows p q Jend Iend pivot N (ij rows a c)
      = if c < Jend ∧ a < Iend then
          N (ij rows a c) - N (ij rows a q) * N (ij rows p c) / pivot
        else N (ij rows a c) := by
  induction Jend with
  | zero => simp [subtract]
  | succ J ih =>
      intro a ha c
      have ih := ih (by omega)
      rw [subtract, List.range_succ, List.foldl_append, List.foldl_cons, List.foldl_nil]
      rw [subtract_column hp (by omega) pivot hIend a ha c]
      change (if c = J ∧ a < Iend then subtract rows p q J Iend pivot N (ij rows a c)
        - subtract rows p q J Iend pivot N (ij rows a q)
          * subtract rows p q J Iend pivot N (ij rows p c) / pivot
        else subtract rows p q J Iend pivot N (ij rows a c)) = _
      rw [ih a ha c, ih a ha q, ih p hp c]
      rcases eq_or_ne c J with rfl | hc
      · have hcol : ¬(c < c ∧ a < Iend) := fun h => lt_irrefl c h.1
        have hpivot : ¬(q < c ∧ a < Iend) := fun h => absurd h.1 (by omega)
        have hrow : ¬(c < c ∧ p < Iend) := fun h => lt_irrefl c h.1
        rw [if_neg hcol, if_neg hpivot, if_neg hrow]
        exact if_congr (by omega) rfl rfl
      · rw [if_neg fun h => hc h.1]
        exact if_congr (by omega) rfl rfl

end Loops

/-! ## Combinations of the columns -/

/-- The combination of the columns with the coefficients `x`, in row `i`. -/
def combine (R : DenseMatrix) (x : ℕ → ℚ) (i : ℕ) : ℚ := ∑ c ∈ range R.cols, R.entry i c * x c

def FullColumnRank (R : DenseMatrix) : Prop :=
  ∀ x : ℕ → ℚ, (∀ i < R.rows, R.combine x i = 0) → ∀ c < R.cols, x c = 0

lemma exists_solution {k n : ℕ} (hkn : k < n) (A : ℕ → ℕ → ℚ) :
    ∃ x : ℕ → ℚ, (∃ c < n, x c ≠ 0) ∧ ∀ i < k, ∑ c ∈ range n, A i c * x c = 0 := by
  let f : (Fin n → ℚ) →ₗ[ℚ] (Fin k → ℚ) :=
    Matrix.mulVecLin (Matrix.of fun (i : Fin k) (c : Fin n) => A i.val c.val)
  have hker : LinearMap.ker f ≠ ⊥ := LinearMap.ker_ne_bot_of_finrank_lt (by simpa using hkn)
  obtain ⟨v, hv, hne⟩ := Submodule.exists_mem_ne_zero_of_ne_bot hker
  obtain ⟨c, hc⟩ := Function.ne_iff.mp hne
  refine ⟨fun c => if h : c < n then v ⟨c, h⟩ else 0, ⟨c.val, c.isLt, ?_⟩, fun i hi => ?_⟩
  · beta_reduce
    rw [dif_pos c.isLt]
    exact hc
  · have hrow := congrFun (LinearMap.mem_ker.mp hv) ⟨i, hi⟩
    rw [← Fin.sum_univ_eq_sum_range fun c => A i c * if h : c < n then v ⟨c, h⟩ else 0]
    refine Eq.trans (sum_congr rfl fun c _ => ?_) hrow
    rw [dif_pos c.isLt]
    rfl

lemma FullColumnRank.cols_le_rows {R : DenseMatrix} (h : R.FullColumnRank) : R.cols ≤ R.rows := by
  by_contra hlt
  obtain ⟨x, ⟨c, hc, hx⟩, hzero⟩ := exists_solution (not_le.mp hlt) R.entry
  exact hx (h x hzero c hc)

/-! ## The invariant -/

/-- What holds in front of step `j`. -/
structure Invariant (R : DenseMatrix) (j : ℕ) (st : Elimination) : Prop where
  maps : ∀ r < R.rows, st.nul_piv r < R.rows
  inj : ∀ r < R.rows, ∀ s < R.rows, st.nul_piv r = st.nul_piv s → r = s
  /-- The rows chosen so far are 0 in the active columns. -/
  zero : ∀ r < R.rows, R.rows - j ≤ r → ∀ c < R.cols - j, st.N (ij R.rows r c) = 0
  /-- What vanishes in the rows chosen so far is a combination of the active columns. -/
  span : ∀ x : ℕ → ℚ, (∀ i < j, R.combine x (st.nul_piv (R.rows - 1 - i)) = 0) →
    ∃ a : ℕ → ℚ, ∀ r < R.rows,
      R.combine x (st.nul_piv r) = ∑ c ∈ range (R.cols - j), st.N (ij R.rows r c) * a c

lemma invariant_start (R : DenseMatrix) : R.Invariant 0 R.start where
  maps _ hr := hr
  inj _ _ _ _ h := h
  zero r hr hle := absurd hr (by omega)
  span x _ := ⟨x, fun r _ => sum_congr rfl fun c _ => by
    rw [entry, start, ij, Nat.mul_comm, Nat.add_comm]⟩

section Step

variable {R : DenseMatrix} {j : ℕ} {st : Elimination}

lemma Invariant.surj (h : R.Invariant j st) {i : ℕ} (hi : i < R.rows) :
    ∃ r < R.rows, st.nul_piv r = i := by
  have himage : (range R.rows).image st.nul_piv = range R.rows := by
    refine Finset.eq_of_subset_of_card_le (fun k hk => ?_) ?_
    · obtain ⟨r, hr, rfl⟩ := mem_image.mp hk
      exact mem_range.mpr (h.maps r (mem_range.mp hr))
    · rw [card_image_of_injOn fun r hr s hs heq =>
        h.inj r (mem_range.mp (mem_coe.mp hr)) s (mem_range.mp (mem_coe.mp hs)) heq]
  obtain ⟨r, hr, hri⟩ := mem_image.mp (himage.symm ▸ mem_range.mpr hi)
  exact ⟨r, mem_range.mp hr, hri⟩

lemma Invariant.exists_ne_zero (h : R.Invariant j st) (hR : R.FullColumnRank) (hj : j < R.cols) :
    ∃ r < R.rows, ∃ c < R.cols - j, st.N (ij R.rows r c) ≠ 0 := by
  by_contra hnone
  have hall : ∀ r < R.rows, ∀ c < R.cols - j, st.N (ij R.rows r c) = 0 := fun r hr c hc => by
    by_contra hne
    exact hnone ⟨r, hr, c, hc, hne⟩
  obtain ⟨x, ⟨c, hc, hx⟩, hzero⟩ :=
    exists_solution hj fun i c => R.entry (st.nul_piv (R.rows - 1 - i)) c
  obtain ⟨a, ha⟩ := h.span x hzero
  refine hx (hR x (fun i hi => ?_) c hc)
  obtain ⟨r, hr, rfl⟩ := h.surj hi
  rw [ha r hr]
  exact sum_eq_zero fun c hc => by rw [hall r hr c (mem_range.mp hc), zero_mul]

lemma Invariant.maxElement_spec (h : R.Invariant j st) (hR : R.FullColumnRank) (hj : j < R.cols) :
    ∃ rowInd colInd, maxElement st.N (R.rows * R.cols - j * R.rows) = ij R.rows rowInd colInd
      ∧ rowInd < R.rows - j ∧ colInd < R.cols - j ∧ st.N (ij R.rows rowInd colInd) ≠ 0 := by
  obtain ⟨r, hr, c, hc, hne⟩ := h.exists_ne_zero hR hj
  have hsize : R.rows * R.cols - j * R.rows = R.rows * (R.cols - j) := by
    rw [Nat.mul_sub, Nat.mul_comm j]
  have hpos : ij R.rows r c < R.rows * (R.cols - j) := by
    have hle : R.rows * (c + 1) ≤ R.rows * (R.cols - j) := Nat.mul_le_mul_left _ hc
    rw [Nat.mul_add, Nat.mul_one] at hle
    rw [ij]
    omega
  obtain ⟨hlt, hmax⟩ := DenseMatrix.maxElement_spec st.N (Nat.zero_lt_of_lt hpos)
  rw [hsize]
  generalize maxElement st.N (R.rows * (R.cols - j)) = I at hlt hmax
  have hcol : I / R.rows < R.cols - j := Nat.div_lt_of_lt_mul hlt
  have hrow : I - I / R.rows * R.rows < R.rows := by
    have hmod := Nat.mod_lt I (Nat.zero_lt_of_lt hr)
    have hdiv := Nat.div_add_mod' I R.rows
    omega
  have hI := ij_div_mod R.rows I
  have hmain : st.N I ≠ 0 := fun hzero => by
    have hle := hmax _ hpos
    rw [hzero, abs_zero] at hle
    exact hne (abs_nonpos_iff.mp hle)
  refine ⟨I - I / R.rows * R.rows, I / R.rows, hI.symm, ?_, hcol, by rwa [hI]⟩
  by_contra hle
  refine hmain ?_
  rw [← hI]
  exact h.zero _ hrow (not_lt.mp hle) _ hcol

lemma Invariant.exchange_eq (h : R.Invariant j st) (hR : R.FullColumnRank) (hj : j < R.cols) :
    ∃ rowInd colInd, rowInd < R.rows - j ∧ colInd < R.cols - j
      ∧ st.N (ij R.rows rowInd colInd) ≠ 0
      ∧ (∀ a, (R.exchange j st).nul_piv a = st.nul_piv (Equiv.swap (R.rows - 1 - j) rowInd a))
      ∧ ∀ a < R.rows, ∀ c < R.cols - j, (R.exchange j st).N (ij R.rows a c)
        = st.N (ij R.rows (Equiv.swap (R.rows - 1 - j) rowInd a)
          (Equiv.swap (R.cols - 1 - j) colInd c)) := by
  obtain ⟨rowInd, colInd, hmax, hrow, hcol, hne⟩ := h.maxElement_spec hR hj
  have hlt : rowInd < R.rows := by omega
  have hdiv : ij R.rows rowInd colInd / R.rows = colInd := by
    rw [ij, Nat.add_mul_div_left _ _ (Nat.zero_lt_of_lt hlt), Nat.div_eq_of_lt hlt, Nat.zero_add]
  have hsub : ij R.rows rowInd colInd - colInd * R.rows = rowInd := by
    rw [ij, Nat.mul_comm, Nat.add_sub_cancel]
  refine ⟨rowInd, colInd, hrow, hcol, hne, fun a => ?_, fun a ha c hc => ?_⟩
  · simp only [exchange, hmax, hdiv, hsub]
    rcases eq_or_ne a (R.rows - 1 - j) with rfl | hlast
    · rw [Function.update_self, Equiv.swap_apply_left]
    · rw [Function.update_of_ne hlast]
      rcases eq_or_ne a rowInd with rfl | hind
      · rw [Function.update_self, Equiv.swap_apply_right]
      · rw [Function.update_of_ne hind, Equiv.swap_apply_of_ne_of_ne hlast hind]
  · simp only [exchange, hmax, hdiv, hsub]
    have hrows := fun c => swapRows_ij (N := st.N) (show R.rows - 1 - j < R.rows by omega) hlt
      (R.cols - j) a ha c
    split_ifs with hq
    · have hswap : Equiv.swap (R.cols - 1 - j) colInd c < R.cols - j :=
        (swap_lt_iff (by omega) hcol).mpr hc
      rw [swapCols_ij ha, hrows, if_pos hswap]
    · rw [hrows, if_pos hc, not_not.mp hq, Equiv.swap_self]
      rfl

lemma Invariant.exchange (h : R.Invariant j st) (hR : R.FullColumnRank) (hj : j < R.cols) :
    R.Invariant j (R.exchange j st) ∧ R.pivot j st ≠ 0 := by
  obtain ⟨rowInd, colInd, hrow, hcol, hne, hpiv, hN⟩ := h.exchange_eq hR hj
  have hcols := hR.cols_le_rows
  have hlast : R.rows - 1 - j < R.rows - j := by omega
  have hq : R.cols - 1 - j < R.cols - j := by omega
  have hfix : ∀ r, R.rows - j ≤ r → Equiv.swap (R.rows - 1 - j) rowInd r = r := fun r hr =>
    Equiv.swap_apply_of_ne_of_ne (by omega) (by omega)
  have hbound : ∀ a < R.rows, Equiv.swap (R.rows - 1 - j) rowInd a < R.rows := fun a ha =>
    (swap_lt_iff (by omega) (by omega)).mpr ha
  refine ⟨⟨fun r hr => ?_, fun r hr s hs heq => ?_, fun r hr hle c hc => ?_, fun x hx => ?_⟩, ?_⟩
  · rw [hpiv]
    exact h.maps _ (hbound r hr)
  · rw [hpiv, hpiv] at heq
    exact (Equiv.swap _ _).injective (h.inj _ (hbound r hr) _ (hbound s hs) heq)
  · rw [hN r hr c hc, hfix r hle]
    exact h.zero r hr hle _ ((swap_lt_iff hq hcol).mpr hc)
  · have hx' : ∀ i < j, R.combine x (st.nul_piv (R.rows - 1 - i)) = 0 := fun i hi => by
      have hi' := hx i hi
      rwa [hpiv, hfix _ (by omega)] at hi'
    obtain ⟨a, ha⟩ := h.span x hx'
    refine ⟨fun c => a (Equiv.swap (R.cols - 1 - j) colInd c), fun r hr => ?_⟩
    rw [hpiv, ha _ (hbound r hr)]
    refine (sum_equiv (Equiv.swap (R.cols - 1 - j) colInd) (fun c => ?_) fun c hc => ?_).symm
    · rw [mem_range, mem_range]
      exact (swap_lt_iff hq hcol).symm
    · rw [hN r hr c (mem_range.mp hc)]
  · rw [pivot, hN _ (by omega) _ hq, Equiv.swap_apply_left, Equiv.swap_apply_left]
    exact hne

/-- **One step** keeps the invariant. -/
theorem Invariant.step (h : R.Invariant j st) (hR : R.FullColumnRank) (hj : j < R.cols) :
    R.Invariant (j + 1) (R.eliminationStep st j) := by
  obtain ⟨hex, hpivot⟩ := h.exchange hR hj
  have hcols := hR.cols_le_rows
  have hp : R.rows - 1 - j < R.rows := by omega
  -- the rows below the last active one are 0, so the formula holds for all rows
  have hN : ∀ a < R.rows, ∀ c < R.cols - (j + 1), (R.eliminationStep st j).N (ij R.rows a c)
      = (R.exchange j st).N (ij R.rows a c)
        - (R.exchange j st).N (ij R.rows a (R.cols - 1 - j))
          * (R.exchange j st).N (ij R.rows (R.rows - 1 - j) c) / R.pivot j st := by
    intro a ha c hc
    have hsub := subtract_ij (N := (R.exchange j st).N) hp
      (show R.rows - j ≤ R.rows - 1 - j + 1 by omega) (R.pivot j st)
      (show R.cols - j - 1 ≤ R.cols - 1 - j by omega) a ha c
    refine hsub.trans ?_
    split_ifs with hcond
    · rfl
    · rw [hex.zero a ha (by omega) c (by omega), hex.zero a ha (by omega) _ (by omega)]
      simp
  refine ⟨hex.maps, hex.inj, fun r hr hle c hc => ?_, fun x hx => ?_⟩
  · rw [hN r hr c hc]
    rcases Nat.lt_or_ge r (R.rows - j) with hlast | hbelow
    · obtain rfl : r = R.rows - 1 - j := by omega
      change _ - R.pivot j st * _ / R.pivot j st = 0
      rw [mul_div_cancel_left₀ _ hpivot, sub_self]
    · rw [hex.zero r hr hbelow c (by omega), hex.zero r hr hbelow _ (by omega)]
      simp
  · obtain ⟨a, ha⟩ := hex.span x fun i hi => hx i (by omega)
    obtain ⟨q, hq⟩ : ∃ q, R.cols - j = q + 1 := ⟨R.cols - j - 1, by omega⟩
    have hq' : R.cols - 1 - j = q := by omega
    have hq'' : R.cols - (j + 1) = q := by omega
    have hlast := (ha _ hp).symm.trans (hx j (Nat.lt_succ_self j))
    have hpivot_eq : (R.exchange j st).N (ij R.rows (R.rows - 1 - j) q) = R.pivot j st := by
      rw [pivot, hq']
    rw [hq, sum_range_succ, hpivot_eq] at hlast
    rw [hq''] at hN ⊢
    rw [hq'] at hN
    refine ⟨a, fun r hr => ?_⟩
    have hsum : ∑ c ∈ range q, (R.eliminationStep st j).N (ij R.rows r c) * a c
        = ∑ c ∈ range q, (R.exchange j st).N (ij R.rows r c) * a c
          - (R.exchange j st).N (ij R.rows r q) / R.pivot j st
            * ∑ c ∈ range q, (R.exchange j st).N (ij R.rows (R.rows - 1 - j) c) * a c := by
      rw [mul_sum, ← sum_sub_distrib]
      refine sum_congr rfl fun c hc => ?_
      rw [hN r hr c (mem_range.mp hc)]
      ring
    have hr' := ha r hr
    rw [hq, sum_range_succ] at hr'
    change R.combine x ((R.exchange j st).nul_piv r) = _
    rw [hr', hsum, eq_neg_of_add_eq_zero_left hlast]
    field_simp
    ring

lemma invariant_eliminated (hR : R.FullColumnRank) (hj : j ≤ R.cols) :
    R.Invariant j (R.eliminated j) := by
  induction j with
  | zero => exact R.invariant_start
  | succ j ih =>
      have hstep := (ih (by omega)).step hR hj
      rwa [eliminated, List.range_succ, List.foldl_append]

end Step

/-! ## The chosen rows -/

def nullRows (R : DenseMatrix) : List ℕ :=
  (List.range R.cols).map fun i => (R.eliminated R.cols).nul_piv (R.rows - 1 - i) + 1

section Rows

variable {R : DenseMatrix} (hR : R.FullColumnRank)

include hR

lemma nullRows_nodup : R.nullRows.Nodup := by
  have hcols := hR.cols_le_rows
  have hinv := invariant_eliminated hR le_rfl
  refine List.Nodup.map_on (fun i hi j hj heq => ?_) List.nodup_range
  have hi := List.mem_range.mp hi
  have hj := List.mem_range.mp hj
  have hsame := hinv.inj (R.rows - 1 - i) (by omega) (R.rows - 1 - j) (by omega)
    (Nat.add_right_cancel heq)
  omega

lemma mem_nullRows {p : ℕ} (hp : p ∈ R.nullRows) : 1 ≤ p ∧ p ≤ R.rows := by
  have hcols := hR.cols_le_rows
  have hinv := invariant_eliminated hR le_rfl
  obtain ⟨i, hi, rfl⟩ := List.mem_map.mp hp
  have hi := List.mem_range.mp hi
  have hlt := hinv.maps (R.rows - 1 - i) (by omega)
  omega

/-- **The chosen rows determine a combination** of the columns. -/
theorem eq_zero_of_nullRows {x : ℕ → ℚ} (hx : ∀ p ∈ R.nullRows, R.combine x (p - 1) = 0) {c : ℕ}
    (hc : c < R.cols) : x c = 0 := by
  have hinv := invariant_eliminated hR le_rfl
  obtain ⟨a, ha⟩ := hinv.span x fun i hi =>
    hx _ (List.mem_map.mpr ⟨i, List.mem_range.mpr hi, rfl⟩)
  refine hR x (fun i hi => ?_) c hc
  obtain ⟨r, hr, rfl⟩ := hinv.surj hi
  rw [ha r hr, Nat.sub_self, sum_range_zero]

end Rows

def rowsAt (R : DenseMatrix) (ps : List ℕ) : Matrix (Fin R.cols) (Fin R.cols) ℚ :=
  Matrix.of fun i j => R.entry (ps.getD i.val 0 - 1) j.val

def SpansKernel (R : DenseMatrix) (K : Matrix (Fin R.rows) (Fin R.rows) ℚ) : Prop :=
  ∀ x, K.mulVec x = 0 ↔ ∃ a : ℕ → ℚ, ∀ i : Fin R.rows, x i = R.combine a i.val

/-- `K` with `rho` added on the diagonal in the given rows. -/
def regularized {n : ℕ} (K : Matrix (Fin n) (Fin n) ℚ) (rho : ℚ) (ps : List ℕ) :
    Matrix (Fin n) (Fin n) ℚ :=
  K + Matrix.diagonal fun i => if i.val + 1 ∈ ps then rho else 0

lemma sum_fin_eq_combine (R : DenseMatrix) (v : Fin R.cols → ℚ) (i : ℕ) :
    ∑ c : Fin R.cols, R.entry i c.val * v c
      = R.combine (fun c => if h : c < R.cols then v ⟨c, h⟩ else 0) i := by
  rw [combine, ← Fin.sum_univ_eq_sum_range fun c =>
    R.entry i c * if h : c < R.cols then v ⟨c, h⟩ else 0]
  refine sum_congr rfl fun c _ => ?_
  rw [dif_pos c.isLt]

lemma det_rowsAt_ne_zero {R : DenseMatrix} (hR : R.FullColumnRank) {ps : List ℕ}
    (hps : ps.Perm R.nullRows) : (R.rowsAt ps).det ≠ 0 := by
  intro hdet
  obtain ⟨v, hne, hv⟩ := Matrix.exists_mulVec_eq_zero_iff.mpr hdet
  obtain ⟨c, hc⟩ := Function.ne_iff.mp hne
  refine hc ?_
  have hlen : ps.length = R.cols := by
    rw [hps.length_eq, nullRows, List.length_map, List.length_range]
  have hzero := eq_zero_of_nullRows hR
    (x := fun c => if h : c < R.cols then v ⟨c, h⟩ else 0) (fun p hp => ?_) c.isLt
  · rwa [dif_pos c.isLt] at hzero
  · obtain ⟨k, hk, rfl⟩ := List.mem_iff_getElem.mp (hps.mem_iff.mpr hp)
    have hrow := congrFun hv ⟨k, hlen ▸ hk⟩
    rw [← sum_fin_eq_combine]
    refine Eq.trans (sum_congr rfl fun c _ => ?_) hrow
    change R.entry (ps[k] - 1) c.val * v c = R.entry (ps.getD k 0 - 1) c.val * v c
    rw [List.getD_eq_getElem _ _ hk]

lemma det_regularized_ne_zero {R : DenseMatrix} (hR : R.FullColumnRank) {ps : List ℕ}
    (hps : ps.Perm R.nullRows) {K : Matrix (Fin R.rows) (Fin R.rows) ℚ}
    (hK : ∀ x, 0 ≤ x ⬝ᵥ K.mulVec x) (hker : R.SpansKernel K) {rho : ℚ} (hrho : 0 < rho) :
    (regularized K rho ps).det ≠ 0 := by
  intro hdet
  obtain ⟨v, hne, hv⟩ := Matrix.exists_mulVec_eq_zero_iff.mpr hdet
  have hrow : ∀ i, K.mulVec v i + (if i.val + 1 ∈ ps then rho else 0) * v i = 0 := fun i => by
    have h := congrFun hv i
    rwa [regularized, Matrix.add_mulVec, Pi.add_apply, Matrix.mulVec_diagonal] at h
  -- both parts of the quadratic form vanish
  have hnonneg : ∀ i : Fin R.rows, 0 ≤ v i * ((if i.val + 1 ∈ ps then rho else 0) * v i) :=
    fun i => by
      split_ifs
      · nlinarith [mul_nonneg hrho.le (mul_self_nonneg (v i))]
      · simp
  have hsum : v ⬝ᵥ K.mulVec v
      + ∑ i, v i * ((if i.val + 1 ∈ ps then rho else 0) * v i) = 0 := by
    rw [dotProduct, ← sum_add_distrib]
    exact sum_eq_zero fun i _ => by rw [← mul_add, hrow i, mul_zero]
  have hparts := (sum_eq_zero_iff_of_nonneg fun i _ => hnonneg i).mp
    (le_antisymm (by linarith [hK v]) (sum_nonneg fun i _ => hnonneg i))
  have hpivots : ∀ i : Fin R.rows, i.val + 1 ∈ ps → v i = 0 := fun i hi => by
    have hpart := hparts i (mem_univ i)
    rw [if_pos hi] at hpart
    simpa [hrho.ne'] using hpart
  have hKv : K.mulVec v = 0 := funext fun i => by
    have h := hrow i
    by_cases hi : i.val + 1 ∈ ps
    · rwa [hpivots i hi, mul_zero, add_zero] at h
    · rwa [if_neg hi, zero_mul, add_zero] at h
  obtain ⟨a, ha⟩ := (hker v).mp hKv
  have ha0 : ∀ c < R.cols, a c = 0 := fun c hc => eq_zero_of_nullRows hR (fun p hp => by
    obtain ⟨hp1, hprows⟩ := mem_nullRows hR hp
    have hlt : p - 1 < R.rows := by omega
    rw [← ha ⟨p - 1, hlt⟩]
    refine hpivots ⟨p - 1, hlt⟩ ?_
    rw [show p - 1 + 1 = p by omega]
    exact hps.mem_iff.mpr hp) hc
  obtain ⟨i, hi⟩ := Function.ne_iff.mp hne
  refine hi ?_
  rw [ha i, combine]
  exact sum_eq_zero fun c hc => by rw [ha0 c (mem_range.mp hc), mul_zero]

/-! ## The result -/

/-- **The null pivots.** No division by zero; rows that are different, ascend, and are appended (all
of the list is sorted then); the square matrix of the rows is regular, and adding a positive number
in these rows makes every positive semidefinite matrix with this kernel regular. -/
theorem getNullPivots_spec (R : DenseMatrix) (hR : R.FullColumnRank) :
    (∀ j < R.cols, R.pivot j (R.eliminated j) ≠ 0) ∧
      ∃ ps : List ℕ, R.getNullPivots [] = ps ∧ ps.length = R.cols ∧ ps.Pairwise (· < ·)
        ∧ (∀ p ∈ ps, 1 ≤ p ∧ p ≤ R.rows)
        ∧ (∀ null_pivots, (R.getNullPivots null_pivots).Perm (null_pivots ++ ps)
          ∧ (R.getNullPivots null_pivots).Pairwise (· ≤ ·))
        ∧ (R.rowsAt ps).det ≠ 0
        ∧ ∀ K : Matrix (Fin R.rows) (Fin R.rows) ℚ, K.IsSymm → (∀ x, 0 ≤ x ⬝ᵥ K.mulVec x) →
          R.SpansKernel K → ∀ rho > 0, (regularized K rho ps).det ≠ 0 := by
  have hperm : (R.getNullPivots []).Perm R.nullRows := List.perm_insertionSort _ _
  refine ⟨fun j hj => ((invariant_eliminated hR hj.le).exchange hR hj).2, R.getNullPivots [], rfl,
    ?_, ?_, fun p hp => mem_nullRows hR (hperm.mem_iff.mp hp), fun null_pivots => ⟨?_, ?_⟩,
    det_rowsAt_ne_zero hR hperm, fun K _ hK hker rho hrho =>
      det_regularized_ne_zero hR hperm hK hker hrho⟩
  · rw [hperm.length_eq, nullRows, List.length_map, List.length_range]
  · have hsorted : (R.getNullPivots []).Pairwise (· ≤ ·) := List.pairwise_insertionSort _ _
    have hnodup : (R.getNullPivots []).Nodup := hperm.nodup_iff.mpr (nullRows_nodup hR)
    exact hsorted.imp₂ (fun _ _ hle hne => lt_of_le_of_ne hle hne) hnodup
  · exact (List.perm_insertionSort _ _).trans (hperm.symm.append_left null_pivots)
  · exact List.pairwise_insertionSort _ _

def column : DenseMatrix := ⟨2, 1, fun k => k⟩

lemma column_fullColumnRank : column.FullColumnRank := by
  intro x hx c hc
  have hrow := hx 1 (by decide)
  obtain rfl : c = 0 := Nat.lt_one_iff.mp hc
  simpa [combine, column, entry] using hrow

/-- The second row is chosen. -/
theorem getNullPivots_column : column.getNullPivots [] = [2]
    ∧ (column.rowsAt (column.getNullPivots [])).det ≠ 0 := by
  obtain ⟨-, ps, rfl, -, -, -, -, hdet, -⟩ := getNullPivots_spec column column_fullColumnRank
  exact ⟨by decide +kernel, hdet⟩

end DenseMatrix

/-! ## Regularization on the arrays -/

/-- The loop of `get_kernel_from_K` that adds `rho` to the first entry of the rows. -/
def CsrArrays.addRho (K : CsrArrays) (rho : ℚ) (null_pivots : List ℕ) : CsrArrays :=
  null_pivots.foldl (fun K p =>
    let tmp_int0 := K.CSR_I_row_indices.getD (p - 1) 0 - 1
    { K with CSR_V_values := K.CSR_V_values.modify tmp_int0 (· + rho) }) K

namespace SparseMatrix

/-- `rho` added to the first entry of row `i`. -/
def addHead (A : SparseMatrix) (rho : ℚ) (i : ℕ) : SparseMatrix where
  cols := A.cols
  csr := A.csr.modify i (List.modifyHead fun e => (e.1, e.2 + rho))

/-- Every row starts with its diagonal entry, and nothing is left of it. -/
def UpperTriangular (A : SparseMatrix) : Prop :=
  ∀ i < A.rows, ∃ v es, A.rowAt i = (i, v) :: es ∧ ∀ e ∈ es, i < e.1

variable {A : SparseMatrix} {rho : ℚ} {i : ℕ}

@[simp] lemma rows_addHead : (A.addHead rho i).rows = A.rows := List.length_modify _ _ _

lemma rowAt_addHead (k : ℕ) : (A.addHead rho i).rowAt k
    = if k = i then (A.rowAt k).modifyHead fun e => (e.1, e.2 + rho) else A.rowAt k := by
  rw [rowAt, rowAt, addHead, List.getD_eq_getElem?_getD, List.getD_eq_getElem?_getD]
  rcases eq_or_ne k i with rfl | hk
  · rw [if_pos rfl, List.getElem?_modify_eq]
    cases A.csr[k]? <;> rfl
  · rw [if_neg hk, List.getElem?_modify_ne _ _ hk.symm]

lemma UpperTriangular.addHead (h : A.UpperTriangular) : (A.addHead rho i).UpperTriangular := by
  intro k hk
  obtain ⟨v, es, hrow, hes⟩ := h k (by rwa [rows_addHead] at hk)
  rw [rowAt_addHead, hrow]
  split_ifs
  · exact ⟨v + rho, es, rfl, hes⟩
  · exact ⟨v, es, rfl, hes⟩

lemma UpperTriangular.symEntry_addHead (h : A.UpperTriangular) (hi : i < A.rows) (k l : ℕ) :
    (A.addHead rho i).symEntry k l = A.symEntry k l + if k = l ∧ k = i then rho else 0 := by
  have hentry : ∀ k l, (A.addHead rho i).entry k l
      = A.entry k l + if k = l ∧ k = i then rho else 0 := by
    intro k l
    rw [entry, entry, rowAt_addHead]
    rcases eq_or_ne k i with rfl | hk
    · obtain ⟨v, es, hrow, -⟩ := h k hi
      rw [if_pos rfl, hrow, List.modifyHead_cons, Row.entry_cons, Row.entry_cons]
      by_cases hkl : k = l
      · rw [if_pos hkl, if_pos hkl, if_pos ⟨hkl, rfl⟩]
        ring
      · rw [if_neg hkl, if_neg hkl, if_neg fun h => hkl h.1, add_zero]
    · rw [if_neg hk, if_neg fun h => hk h.2, add_zero]
  rw [symEntry, symEntry]
  split_ifs with hle hcond hcond
  · rw [hentry, if_pos hcond]
  · rw [hentry, if_neg hcond]
  · omega
  · rw [hentry, if_neg fun h => hle (le_of_eq h.1.symm)]

end SparseMatrix

namespace CsrArrays

lemma addRho_ofMatrix_single {A : SparseMatrix} {rho : ℚ} {p : ℕ} (h : A.UpperTriangular)
    (hp : p - 1 < A.rows) :
    { ofMatrix A with
        CSR_V_values := (ofMatrix A).CSR_V_values.modify
          ((ofMatrix A).CSR_I_row_indices.getD (p - 1) 0 - 1) (· + rho) }
      = ofMatrix (A.addHead rho (p - 1)) := by
  obtain ⟨v, es, hrow, -⟩ := h _ hp
  have hne : A.csr.getD (p - 1) [] ≠ [] := by
    change A.rowAt (p - 1) ≠ []
    rw [hrow]
    exact List.cons_ne_nil _ _
  have hflatten := RowPointers.flatten_modify (fun e : ℕ × ℚ => (e.1, e.2 + rho)) A.csr hp hne
  have hI : RowPointers.pointers 1 (A.addHead rho (p - 1)).csr = RowPointers.pointers 1 A.csr :=
    RowPointers.pointers_modify _ (fun row => List.length_modifyHead) 1 A.csr (p - 1)
  have hJ : (A.addHead rho (p - 1)).csr.flatten.map (fun e => e.1 + 1)
      = A.csr.flatten.map fun e => e.1 + 1 := by
    rw [SparseMatrix.addHead, ← hflatten]
    refine (RowPointers.map_modify (fun e : ℕ × ℚ => e.1 + 1) (fun e => (e.1, e.2 + rho)) id
      (fun e => rfl) _ _).trans ?_
    exact List.modify_id _ _
  have hV : (A.addHead rho (p - 1)).csr.flatten.map Prod.snd
      = (A.csr.flatten.map Prod.snd).modify
        ((RowPointers.pointers 1 A.csr).getD (p - 1) 0 - 1) (· + rho) := by
    rw [SparseMatrix.addHead, ← hflatten]
    exact RowPointers.map_modify Prod.snd _ (· + rho) (fun e => rfl) _ _
  have hnnz : (A.addHead rho (p - 1)).nnz = A.nnz := by
    have hlen := congrArg List.length hJ
    rwa [List.length_map, List.length_map, List.length_flatten, List.length_flatten] at hlen
  rw [ofMatrix, ofMatrix, hI, hJ, hV, hnnz, SparseMatrix.rows_addHead]
  rfl

/-- **Regularization** of an upper triangle adds `rho` on the diagonal in the given rows. -/
theorem symEntry_addRho {A : SparseMatrix} (h : A.UpperTriangular) (rho : ℚ) {ps : List ℕ}
    (hps : ps.Nodup) (hbound : ∀ p ∈ ps, 1 ≤ p ∧ p ≤ A.rows) :
    ∃ A' : SparseMatrix, (ofMatrix A).addRho rho ps = ofMatrix A' ∧ A'.rows = A.rows
      ∧ ∀ i j, A'.symEntry i j = A.symEntry i j + if i = j ∧ i + 1 ∈ ps then rho else 0 := by
  induction ps generalizing A with
  | nil => exact ⟨A, rfl, rfl, fun i j => by simp⟩
  | cons p ps ih =>
      obtain ⟨hp, hps⟩ := List.nodup_cons.mp hps
      obtain ⟨hp1, hprows⟩ := hbound p List.mem_cons_self
      have hlt : p - 1 < A.rows := by omega
      have hhead : (A.addHead rho (p - 1)).UpperTriangular := h.addHead
      obtain ⟨A', hA', hrows, hentry⟩ := ih hhead hps fun q hq => by
        rw [SparseMatrix.rows_addHead]
        exact hbound q (List.mem_cons_of_mem _ hq)
      refine ⟨A', ?_, hrows.trans SparseMatrix.rows_addHead, fun i j => ?_⟩
      · rw [← hA', ← addRho_ofMatrix_single h hlt]
        rfl
      · rw [hentry, h.symEntry_addHead hlt, add_assoc]
        refine congrArg (A.symEntry i j + ·) ?_
        rcases eq_or_ne i j with rfl | hij
        · rcases eq_or_ne (i + 1) p with rfl | hip
          · rw [if_pos ⟨rfl, rfl⟩, if_neg fun hmem => hp hmem.2, add_zero,
              if_pos ⟨rfl, List.mem_cons_self⟩]
          · rw [if_neg fun hpos => hip (by omega), zero_add]
            refine if_congr (and_congr_right fun _ => ?_) rfl rfl
            rw [List.mem_cons]
            exact (or_iff_right hip).symm
        · rw [if_neg fun hpos => hij hpos.1, if_neg fun hpos => hij hpos.1, add_zero,
            if_neg fun hpos => hij hpos.1]

/-- **The regularized arrays** hold a regular matrix. -/
theorem det_addRho_ne_zero {R : DenseMatrix} (hR : R.FullColumnRank) {A : SparseMatrix}
    (h : A.UpperTriangular) (hrows : A.rows = R.rows)
    (hA : ∀ x : Fin R.rows → ℚ,
      0 ≤ x ⬝ᵥ (Matrix.of fun i j : Fin R.rows => A.symEntry i.val j.val).mulVec x)
    (hker : R.SpansKernel (Matrix.of fun i j => A.symEntry i.val j.val)) {rho : ℚ}
    (hrho : 0 < rho) :
    ∃ A' : SparseMatrix, (ofMatrix A).addRho rho (R.getNullPivots []) = ofMatrix A'
      ∧ (Matrix.of fun i j : Fin R.rows => A'.symEntry i.val j.val).det ≠ 0 := by
  have hperm : (R.getNullPivots []).Perm R.nullRows := List.perm_insertionSort _ _
  obtain ⟨A', hA', -, hentry⟩ := symEntry_addRho h rho
    (hperm.nodup_iff.mpr (DenseMatrix.nullRows_nodup hR)) fun p hp => by
      rw [hrows]
      exact DenseMatrix.mem_nullRows hR (hperm.mem_iff.mp hp)
  have hmatrix : (Matrix.of fun i j : Fin R.rows => A'.symEntry i.val j.val)
      = DenseMatrix.regularized (Matrix.of fun i j => A.symEntry i.val j.val) rho
        (R.getNullPivots []) := by
    ext i j
    rw [DenseMatrix.regularized, Matrix.add_apply, Matrix.of_apply, Matrix.of_apply, hentry,
      Matrix.diagonal_apply]
    refine congrArg (A.symEntry i.val j.val + ·) ?_
    by_cases hij : i = j
    · subst hij
      rw [if_pos rfl]
      exact if_congr (and_iff_right rfl) rfl rfl
    · rw [if_neg hij, if_neg fun hpos => hij (Fin.ext hpos.1)]
  exact ⟨A', hA', hmatrix ▸ DenseMatrix.det_regularized_ne_zero hR hperm hA hker hrho⟩

/-- A matrix with the kernel that `column` spans. -/
def cornerMatrix : SparseMatrix := ⟨2, [[(0, 1)], [(1, 0)]]⟩

lemma mulVec_cornerMatrix (x : Fin 2 → ℚ) :
    (Matrix.of fun i j : Fin 2 => cornerMatrix.symEntry i.val j.val).mulVec x
      = fun i => if i = 0 then x 0 else 0 := by
  have hentry : ∀ i j : Fin 2, cornerMatrix.symEntry i.val j.val
      = if i = 0 ∧ j = 0 then 1 else 0 := by decide +kernel
  ext i
  simp [Matrix.mulVec, dotProduct, hentry, ite_and, Finset.sum_ite_eq']

lemma spansKernel_column : DenseMatrix.column.SpansKernel
    (Matrix.of fun i j => cornerMatrix.symEntry i.val j.val) := by
  have hcombine : ∀ a i, DenseMatrix.column.combine a i = i * a 0 := fun a i => by
    simp [DenseMatrix.combine, DenseMatrix.column, DenseMatrix.entry]
  intro (x : Fin 2 → ℚ)
  simp only [hcombine]
  refine (Eq.congr_left (mulVec_cornerMatrix x)).trans ⟨fun h => ⟨fun _ => x 1, ?_⟩, ?_⟩
  · have hzero : x 0 = 0 := congrFun h 0
    exact Fin.forall_fin_two.mpr ⟨by simpa using hzero, by simp⟩
  · rintro ⟨a, ha⟩
    have hzero : x 0 = 0 := (ha (0 : Fin 2)).trans (by simp)
    exact funext fun i => ite_eq_right_iff.mpr fun _ => hzero

theorem det_addRho_column :
    ∃ A', (ofMatrix cornerMatrix).addRho 1 (DenseMatrix.column.getNullPivots []) = ofMatrix A'
      ∧ (Matrix.of fun i j : Fin 2 => A'.symEntry i.val j.val).det ≠ 0 := by
  refine det_addRho_ne_zero DenseMatrix.column_fullColumnRank ?_ rfl (fun x => ?_)
    spansKernel_column one_pos
  · intro i hi
    obtain rfl | rfl : i = 0 ∨ i = 1 := Nat.le_one_iff_eq_zero_or_eq_one.mp (Nat.lt_succ_iff.mp hi)
    · exact ⟨1, [], rfl, nofun⟩
    · exact ⟨0, [], rfl, nofun⟩
  · have hproduct : ∀ x : Fin 2 → ℚ, 0 ≤ x ⬝ᵥ fun i => if i = 0 then x 0 else 0 := fun x => by
      simpa [dotProduct] using mul_self_nonneg (x 0)
    exact (hproduct x).trans_eq (congrArg _ (mulVec_cornerMatrix x)).symm

end CsrArrays

end Espreso
