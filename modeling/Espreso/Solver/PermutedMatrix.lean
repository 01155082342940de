import Espreso.Solver.CooMatrix

/-!
# Permuted symmetric matrices

Of a symmetric matrix the upper triangle is stored.  The matrix is permuted in the coordinate format
through the inverse permutation, and entries that come below the diagonal change to the other side.

* **`SparseMatrix.Upper.symEntry_permuted`** — the permuted matrix is symmetric and has the
  entries of the permuted rows and columns.
-/

namespace Espreso

open Finset

/-- `vec_I1_i2`: the permutation with its positions, sorted by the first component. -/
def vec_I1_i2 (permVec : List ℕ) : List (ℕ × ℕ) :=
  permVec.zipIdx.insertionSort fun a b => a.1 ≤ b.1

namespace SparseMatrix

variable (A : SparseMatrix)

def movedEntry (permVec : List ℕ) (e : ℕ × ℕ × ℚ) : ℕ × ℕ × ℚ :=
  let I_index := ((vec_I1_i2 permVec).getD (e.1 - 1) (0, 0)).2 + 1
  let J_index := ((vec_I1_i2 permVec).getD (e.2.1 - 1) (0, 0)).2 + 1
  if I_index ≤ J_index then (I_index, J_index, e.2.2) else (J_index, I_index, e.2.2)

/-- `K_modif` after the permutation. -/
def permuted (permVec : List ℕ) : SparseMatrix :=
  CooMatrix.convertToCSRwithSort {
    rows := A.rows
    cols := A.cols
    entries := A.convertToCOO.entries.map (movedEntry permVec) }

/-- The upper triangle of a symmetric matrix. -/
structure Upper (n : ℕ) : Prop where
  rows_eq : A.rows = n
  cols_eq : A.cols = n
  bounded : A.Bounded
  upper : ∀ i, ∀ e ∈ A.rowAt i, i ≤ e.1

end SparseMatrix

/-! ## The inverse permutation -/

lemma getElem?_vec_I1_i2 {permVec : List ℕ} {n k : ℕ} (hperm : permVec.Perm (List.range n))
    (hk : k < n) : (vec_I1_i2 permVec)[k]? = some (k, permVec.idxOf k) := by
  have hfst : (vec_I1_i2 permVec).map Prod.fst = List.range n := by
    have hsorted : ((vec_I1_i2 permVec).map Prod.fst).Pairwise (· ≤ ·) :=
      List.pairwise_map.mpr (List.pairwise_insertionSort _ _)
    have hperm' : ((vec_I1_i2 permVec).map Prod.fst).Perm (List.range n) := by
      refine ((List.perm_insertionSort _ _).map _).trans ?_
      rw [List.zipIdx_map_fst]
      exact hperm
    exact hperm'.eq_of_pairwise' hsorted (List.pairwise_lt_range.imp fun h => h.le)
  have hlength : (vec_I1_i2 permVec).length = n := by
    rw [← List.length_map (f := Prod.fst), hfst, List.length_range]
  obtain ⟨e, he⟩ : ∃ e, (vec_I1_i2 permVec)[k]? = some e :=
    ⟨_, List.getElem?_eq_getElem (hlength.symm ▸ hk)⟩
  have hkey : e.1 = k := by
    have hget := congrArg (·[k]?) hfst
    simp only [List.getElem?_map, he, Option.map_some, List.getElem?_range hk] at hget
    exact Option.some.inj hget
  have hmem : e ∈ permVec.zipIdx :=
    (List.perm_insertionSort _ _).mem_iff.mp (List.mem_of_getElem? he)
  have hat : permVec[e.2]? = some e.1 := List.mk_mem_zipIdx_iff_getElem?.mp hmem
  have hnodup : permVec.Nodup := hperm.nodup_iff.mpr List.nodup_range
  obtain ⟨hlt, hval⟩ := List.getElem?_eq_some_iff.mp hat
  rw [he, ← hkey, ← hval, hnodup.idxOf_getElem e.2 hlt, hval]

lemma idxOf_eq_iff {permVec : List ℕ} {n k i : ℕ} (hperm : permVec.Perm (List.range n)) (hk : k < n)
    (hi : i < n) : permVec.idxOf k = i ↔ k = permVec.getD i 0 := by
  have hlength : permVec.length = n := by rw [hperm.length_eq, List.length_range]
  have hnodup : permVec.Nodup := hperm.nodup_iff.mpr List.nodup_range
  have hmem : k ∈ permVec := hperm.mem_iff.mpr (List.mem_range.mpr hk)
  constructor
  · rintro rfl
    rw [List.getD_eq_getElem _ _ (List.idxOf_lt_length_of_mem hmem), List.getElem_idxOf]
  · rintro rfl
    rw [List.getD_eq_getElem _ _ (hlength.symm ▸ hi), hnodup.idxOf_getElem i (hlength.symm ▸ hi)]

lemma getD_perm_lt {permVec : List ℕ} {n i : ℕ} (hperm : permVec.Perm (List.range n)) (hi : i < n) :
    permVec.getD i 0 < n := by
  have hlength : permVec.length = n := by rw [hperm.length_eq, List.length_range]
  rw [List.getD_eq_getElem _ _ (hlength.symm ▸ hi)]
  exact List.mem_range.mp (hperm.mem_iff.mp (List.getElem_mem _))

/-! ## The permuted matrix -/

namespace SparseMatrix

variable {A : SparseMatrix} {n : ℕ} {permVec : List ℕ}

lemma movedEntry_val (permVec : List ℕ) (e : ℕ × ℕ × ℚ) :
    (movedEntry permVec e).2.2 = e.2.2 := by
  unfold movedEntry
  dsimp only
  split_ifs <;> rfl

lemma movedEntry_ordered (permVec : List ℕ) (e : ℕ × ℕ × ℚ) :
    0 < (movedEntry permVec e).1 ∧ (movedEntry permVec e).1 ≤ (movedEntry permVec e).2.1 := by
  unfold movedEntry
  dsimp only
  split_ifs with hle
  · exact ⟨Nat.succ_pos _, hle⟩
  · exact ⟨Nat.succ_pos _, (not_le.mp hle).le⟩

/-- **Where an entry goes**: to the positions of its row and column, the smaller one first. -/
lemma movedEntry_eq (hperm : permVec.Perm (List.range n)) {r k : ℕ} (hr : r < n) (hk : k < n)
    (v : ℚ) : movedEntry permVec (r + 1, k + 1, v)
      = (min (permVec.idxOf r) (permVec.idxOf k) + 1,
        max (permVec.idxOf r) (permVec.idxOf k) + 1, v) := by
  have hget : ∀ q < n, (vec_I1_i2 permVec).getD (q + 1 - 1) (0, 0) = (q, permVec.idxOf q) := by
    intro q hq
    rw [Nat.add_sub_cancel, List.getD_eq_getElem?_getD, getElem?_vec_I1_i2 hperm hq,
      Option.getD_some]
  unfold movedEntry
  dsimp only
  rw [hget r hr, hget k hk]
  dsimp only
  split_ifs with hle
  · rw [min_eq_left (Nat.le_of_succ_le_succ hle), max_eq_right (Nat.le_of_succ_le_succ hle)]
  · have hlt : permVec.idxOf k ≤ permVec.idxOf r := by omega
    rw [min_eq_right hlt, max_eq_left hlt]

lemma movedEntry_at_iff (hperm : permVec.Perm (List.range n)) {i j r k : ℕ} (hij : i ≤ j)
    (hj : j < n) (hrk : r ≤ k) (hk : k < n) :
    min (permVec.idxOf r) (permVec.idxOf k) = i ∧ max (permVec.idxOf r) (permVec.idxOf k) = j ↔
      r = min (permVec.getD i 0) (permVec.getD j 0) ∧
        k = max (permVec.getD i 0) (permVec.getD j 0) := by
  have hi := lt_of_le_of_lt hij hj
  have hr := lt_of_le_of_lt hrk hk
  have hri := idxOf_eq_iff hperm hr hi
  have hrj := idxOf_eq_iff hperm hr hj
  have hki := idxOf_eq_iff hperm hk hi
  have hkj := idxOf_eq_iff hperm hk hj
  constructor
  · rintro ⟨hmin, hmax⟩
    rcases le_total (permVec.idxOf r) (permVec.idxOf k) with hle | hle
    · rw [min_eq_left hle] at hmin
      rw [max_eq_right hle] at hmax
      rw [← hri.mp hmin, ← hkj.mp hmax, min_eq_left hrk, max_eq_right hrk]
      exact ⟨rfl, rfl⟩
    · rw [min_eq_right hle] at hmin
      rw [max_eq_left hle] at hmax
      rw [← hki.mp hmin, ← hrj.mp hmax, min_eq_right hrk, max_eq_left hrk]
      exact ⟨rfl, rfl⟩
  · rintro ⟨hmin, hmax⟩
    rcases le_total (permVec.getD i 0) (permVec.getD j 0) with hle | hle
    · rw [min_eq_left hle] at hmin
      rw [max_eq_right hle] at hmax
      rw [hri.mpr hmin, hkj.mpr hmax, min_eq_left hij, max_eq_right hij]
      exact ⟨rfl, rfl⟩
    · rw [min_eq_right hle] at hmin
      rw [max_eq_left hle] at hmax
      rw [hki.mpr hmax, hrj.mpr hmin, min_eq_right hij, max_eq_left hij]
      exact ⟨rfl, rfl⟩

lemma symEntry_eq_min_max (A : SparseMatrix) (r k : ℕ) :
    A.symEntry r k = A.entry (min r k) (max r k) := by
  rw [symEntry]
  split_ifs with hle
  · rw [min_eq_left hle, max_eq_right hle]
  · rw [min_eq_right (not_le.mp hle).le, max_eq_left (not_le.mp hle).le]

lemma symEntry_comm (A : SparseMatrix) (r k : ℕ) : A.symEntry r k = A.symEntry k r := by
  rw [symEntry_eq_min_max, symEntry_eq_min_max, min_comm, max_comm]

lemma rows_permuted (A : SparseMatrix) (permVec : List ℕ) : (A.permuted permVec).rows = A.rows :=
  CooMatrix.rows_convertToCSRwithSort

lemma cols_permuted (A : SparseMatrix) (permVec : List ℕ) : (A.permuted permVec).cols = A.cols :=
  rfl

lemma Upper.entry_permuted (hA : A.Upper n) (hperm : permVec.Perm (List.range n)) {i j : ℕ}
    (hij : i ≤ j) (hj : j < n) :
    (A.permuted permVec).entry i j = A.symEntry (permVec.getD i 0) (permVec.getD j 0) := by
  rw [permuted, CooMatrix.entry_convertToCSRwithSort, symEntry_eq_min_max, ← entry_convertToCOO,
    CooMatrix.entry, CooMatrix.entry, List.filter_map, List.map_map]
  · have hval : ((fun e : ℕ × ℕ × ℚ => e.2.2) ∘ movedEntry permVec) = fun e => e.2.2 :=
      funext fun e => movedEntry_val permVec e
    rw [hval]
    refine congrArg (fun es => (List.map _ es).sum) (List.filter_congr fun e he => ?_)
    obtain ⟨r, hr, e', he', rfl⟩ := mem_convertToCOO.mp he
    have hr : r < n := hA.rows_eq ▸ hr
    have hk : e'.1 < n := hA.cols_eq ▸ hA.bounded.rowAt_below r e' he'
    have hiff := movedEntry_at_iff hperm hij hj (hA.upper r e' he') hk
    simp only [Function.comp_apply, movedEntry_eq hperm hr hk, decide_eq_decide,
      Nat.add_right_cancel_iff]
    exact hiff
  · intro e he
    obtain ⟨e', -, rfl⟩ := List.mem_map.mp he
    obtain ⟨hpos, hle⟩ := movedEntry_ordered permVec e'
    exact lt_of_lt_of_le hpos hle
  · exact hA.rows_eq.symm ▸ lt_of_le_of_lt hij hj

lemma Upper.mem_rowAt_permuted (hA : A.Upper n) (hperm : permVec.Perm (List.range n)) {i : ℕ}
    {e : ℕ × ℚ} : e ∈ (A.permuted permVec).rowAt i ↔ ∃ r < n, ∃ e' ∈ A.rowAt r,
      min (permVec.idxOf r) (permVec.idxOf e'.1) = i ∧
        max (permVec.idxOf r) (permVec.idxOf e'.1) = e.1 ∧ e'.2 = e.2 := by
  have hcol : ∀ r, ∀ e' ∈ A.rowAt r, e'.1 < n := fun r e' he' =>
    hA.cols_eq ▸ hA.bounded.rowAt_below r e' he'
  constructor
  · intro he
    obtain ⟨-, m, hm, hmi, rfl⟩ := CooMatrix.mem_convertToCSRwithSort.mp he
    obtain ⟨e₀, he₀, rfl⟩ := List.mem_map.mp hm
    obtain ⟨r, hr, e', he', rfl⟩ := mem_convertToCOO.mp he₀
    have hr : r < n := hA.rows_eq ▸ hr
    rw [movedEntry_eq hperm hr (hcol r e' he')] at hmi ⊢
    exact ⟨r, hr, e', he', Nat.succ_injective hmi, (Nat.add_sub_cancel _ _).symm, rfl⟩
  · rintro ⟨r, hr, e', he', rfl, hmax, hval⟩
    have hlt : permVec.idxOf r < n := by
      rw [← (by rw [hperm.length_eq, List.length_range] : permVec.length = n)]
      exact List.idxOf_lt_length_of_mem (hperm.mem_iff.mpr (List.mem_range.mpr hr))
    refine CooMatrix.mem_convertToCSRwithSort.mpr ⟨?_, movedEntry permVec (r + 1, e'.1 + 1, e'.2),
      List.mem_map_of_mem (mem_convertToCOO.mpr ⟨r, hA.rows_eq.symm ▸ hr, e', he', rfl⟩), ?_, ?_⟩
    · exact lt_of_le_of_lt (min_le_left _ _) (lt_of_lt_of_eq hlt hA.rows_eq.symm)
    · rw [movedEntry_eq hperm hr (hcol r e' he')]
    · rw [movedEntry_eq hperm hr (hcol r e' he')]
      exact Prod.ext ((Nat.add_sub_cancel _ _).trans hmax) hval

lemma Upper.permuted (hA : A.Upper n) (hperm : permVec.Perm (List.range n)) :
    (A.permuted permVec).Upper n := by
  have hrow : ∀ q, ∀ e ∈ (A.permuted permVec).rowAt q, q ≤ e.1 ∧ e.1 < n := by
    intro q e he
    obtain ⟨r, hr, e', he', hmin, hmax, -⟩ := (hA.mem_rowAt_permuted hperm).mp he
    have hk : e'.1 < n := hA.cols_eq ▸ hA.bounded.rowAt_below r e' he'
    have hpos : ∀ k < n, permVec.idxOf k < n := fun k hk => by
      rw [← (by rw [hperm.length_eq, List.length_range] : permVec.length = n)]
      exact List.idxOf_lt_length_of_mem (hperm.mem_iff.mpr (List.mem_range.mpr hk))
    exact ⟨hmin ▸ hmax ▸ min_le_max, hmax ▸ max_lt (hpos r hr) (hpos _ hk)⟩
  refine ⟨(rows_permuted _ _).trans hA.rows_eq, (cols_permuted _ _).trans hA.cols_eq, ?_, ?_⟩
  · intro row hrow' e he
    obtain ⟨q, hq, hrowq⟩ := List.mem_iff_getElem.mp hrow'
    have hat : (A.permuted permVec).rowAt q = row := by
      rw [rowAt, List.getD_eq_getElem _ _ hq, hrowq]
    rw [← hat] at he
    exact ((cols_permuted _ _).trans hA.cols_eq).symm ▸ (hrow q e he).2
  · exact fun q e he => (hrow q e he).1

/-- **The permuted matrix** has the entries of the permuted rows and columns. -/
theorem Upper.symEntry_permuted (hA : A.Upper n) (hperm : permVec.Perm (List.range n)) {i j : ℕ}
    (hi : i < n) (hj : j < n) :
    (A.permuted permVec).symEntry i j = A.symEntry (permVec.getD i 0) (permVec.getD j 0) := by
  rw [symEntry]
  split_ifs with hle
  · exact hA.entry_permuted hperm hle hj
  · rw [hA.entry_permuted hperm (not_le.mp hle).le hi, symEntry_comm]

end SparseMatrix

end Espreso
