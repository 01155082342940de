import Espreso.Solver.CoarseProblem
import Mathlib.LinearAlgebra.Matrix.Rank

/-!
# The projector onto the kernel of the coarse constraints

After the coarse matrix `G Gᵀ` was collected every rank computes its stripe of the inverse, and the
projector is applied by products with the local kernel rows, a gather and an exchange between
neighbours.

* `KernelRows.createGGt_Inv` — `IterSolverBase::CreateGGt_Inv` after the coarse matrix was broadcast.
* **`KernelRows.projectorInv_projects`** — the code applies it.
-/

namespace Espreso

open Finset Matrix

/-! ## Vectors of the ranks and global vectors -/

lemma DualLayout.sum_index (L : DualLayout) (r : ℕ) (h : ℕ → ℕ → ℚ) :
    ∑ j ∈ range (L.size r), h j ((L.lambdas r).getD j 0)
      = ((L.lambdas r).map fun l => h (L.index r l) l).sum := by
  rw [← sum_range_getD]
  refine sum_congr rfl fun j hj => ?_
  have hj := mem_range.mp hj
  rw [List.getD_eq_getElem _ _ hj, index, (L.lambdas_nodup r).idxOf_getElem j hj]

namespace KernelRows

variable (S : KernelRows)

/-- The vector of the ranks holds the values of a global vector. -/
def Copies (x : DualLayout.Vectors) (g : Fin S.multipliers → ℚ) : Prop :=
  ∀ r < S.ranks, ∀ l (hl : l ∈ S.lambdas r), x r (S.index r l) = g ⟨l, S.lambdas_lt r l hl⟩

/-- The global matrix `G`. -/
def G : Matrix (Fin S.global_GGt_size) (Fin S.multipliers) ℚ := Numbered.mat _ _ S.stack.entry

/-- **The orthogonal projector** onto the kernel of `G`. -/
noncomputable def projector : Matrix (Fin S.multipliers) (Fin S.multipliers) ℚ :=
  1 - S.Gᵀ * (S.G * S.Gᵀ)⁻¹ * S.G

/-! ## The code -/

def G1_comp (r : ℕ) : SparseMatrix := (S.G1 r).compress (S.index r) (S.size r)

/-- What is stored in `rhs`. -/
def rhsWrites (r : ℕ) : List (ℕ × ℚ) :=
  (List.range (S.G1 r).rows).map fun i =>
    (S.GGt_Mat_tmp.rows * i + i + S.global_ker_size r, 1)

/-- `GGtinvM`, the stripe of the inverse that belongs to the rank.  `Solve` is the direct solver, which
is not part of the source: it solves for one right-hand side after the other. -/
def createGGt_Inv (Solve : SparseMatrix → (ℕ → ℚ) → ℕ → ℚ) (r : ℕ) : Option DenseMatrix := do
  let rhs ← storeAll ((S.G1 r).rows * S.GGt_Mat_tmp.rows) 0 (S.rhsWrites r)
  return {
    rows := S.GGt_Mat_tmp.rows
    cols := (S.G1 r).rows
    dense_values := fun k =>
      Solve S.GGt_Mat_tmp (fun i => rhs (k / S.GGt_Mat_tmp.rows * S.GGt_Mat_tmp.rows + i))
        (k % S.GGt_Mat_tmp.rows) }

/-- `d_local` before it is gathered. -/
def dLocalIn (mode : ℕ) (x_in : DualLayout.Vectors) (r i : ℕ) : ℚ :=
  if mode = 1 ∨ mode = 3 then x_in r i
  else if 0 < (S.G1_comp r).nnz then (S.G1_comp r).matVec (x_in r) i
  else 0

/-- `d_mpi`: the vectors `d_local` of all ranks. -/
def dMpi (d_local : DualLayout.Vectors) (k : ℕ) : ℚ :=
  ((List.range S.ranks).flatMap fun r =>
    (List.range (S.G1_comp r).rows).map (d_local r)).getD k 0

/-- `d_local` after the product with the inverse. -/
def dLocal (GGtinvM : ℕ → DenseMatrix) (mode : ℕ) (x_in : DualLayout.Vectors) (r j : ℕ) : ℚ :=
  if (GGtinvM r).cols ≠ 0 then (GGtinvM r).denseMatVecT (S.dMpi (S.dLocalIn mode x_in)) j
  else S.dLocalIn mode x_in r j

/-- `compressed_tmp` before the exchange. -/
def compressedTmp (d_local : DualLayout.Vectors) (r j : ℕ) : ℚ :=
  if 0 < (S.G1_comp r).nnz then (S.G1_comp r).matVecT (d_local r) j else 0

/-- `Projector_Inv`; `mode` is its last argument. -/
def projectorInv (GGtinvM : ℕ → DenseMatrix) (mode : ℕ) (x_in : DualLayout.Vectors) :
    DualLayout.Vectors :=
  if mode = 2 ∨ mode = 3 then S.dLocal GGtinvM mode x_in
  else
    let y_out := S.allReduceLambdasCompB (S.compressedTmp (S.dLocal GGtinvM mode x_in))
    if mode = 0 then fun r i => x_in r i - y_out r i else y_out

/-- The solver is exact on the coarse matrix, if this is regular. -/
def Exact (Solve : SparseMatrix → (ℕ → ℚ) → ℕ → ℚ) : Prop :=
  let A := Numbered.mat S.global_GGt_size S.global_GGt_size S.GGt_Mat_tmp.symEntry
  IsUnit A.det → ∀ b, A *ᵥ Numbered.vec _ (Solve S.GGt_Mat_tmp b) = Numbered.vec _ b

/-! ## Local and global products -/

variable {S}

lemma equal_of_copies {x : DualLayout.Vectors} {g : Fin S.multipliers → ℚ} (h : S.Copies x g) :
    S.Equal x :=
  fun r hr q hq l hl hlq => by rw [h r hr l hl, h q hq l hlq]

lemma exists_copies {x : DualLayout.Vectors} (h : S.Equal x) : ∃ g, S.Copies x g := by
  classical
  refine ⟨fun l => if hex : ∃ r < S.ranks, (l : ℕ) ∈ S.lambdas r
    then x hex.choose (S.index hex.choose l) else 0, fun r hr l hl => ?_⟩
  have hex : ∃ r < S.ranks, l ∈ S.lambdas r := ⟨r, hr, hl⟩
  beta_reduce
  rw [dif_pos hex]
  exact h r hr _ hex.choose_spec.1 l hl hex.choose_spec.2

lemma rows_G1_comp (r : ℕ) : (S.G1_comp r).rows = S.ker_size r := SparseMatrix.rows_compress _ _

lemma entry_G1_comp {r l : ℕ} (i : ℕ) :
    (S.G1_comp r).entry i (S.index r l) = (S.G1 r).entry i l :=
  SparseMatrix.entry_compress fun row hrow e he heq =>
    DualLayout.index_inj (S.G1_columns r row hrow e he) heq

lemma G1_comp_bounded (r : ℕ) : (S.G1_comp r).Bounded :=
  SparseMatrix.compress_bounded fun row hrow e he =>
    DualLayout.index_lt (S.G1_columns r row hrow e he)

lemma Copies.matVec_eq {x : DualLayout.Vectors} {g : Fin S.multipliers → ℚ} (h : S.Copies x g)
    {r i : ℕ} (hr : r < S.ranks) (hi : i < S.ker_size r) :
    (S.G1_comp r).matVec (x r) i = (S.G *ᵥ g) ⟨S.global_ker_size r + i, index_lt_total hr hi⟩ := by
  obtain ⟨y, rfl⟩ := Numbered.exists_vec g
  have hindex : ∀ j ∈ range (S.size r), (S.G1_comp r).entry i j * x r j
      = (S.G1_comp r).entry i j * x r (S.index r ((S.lambdas r).getD j 0)) := by
    intro j hj
    have hj := mem_range.mp hj
    rw [List.getD_eq_getElem _ _ hj, DualLayout.index, (S.lambdas_nodup r).idxOf_getElem j hj]
  have hlocal : (S.G1_comp r).matVec (x r) i
      = ((S.lambdas r).map fun l => (S.G1 r).entry i l * y l).sum := by
    rw [(G1_comp_bounded r).matVec_eq]
    refine (sum_congr rfl hindex).trans ((S.sum_index r fun j l =>
      (S.G1_comp r).entry i j * x r (S.index r l)).trans ?_)
    refine congrArg List.sum (List.map_congr_left fun l hl => ?_)
    rw [entry_G1_comp, h r hr l hl, Numbered.vec_apply]
  have hsubset : (S.lambdas r).toFinset ⊆ range S.multipliers := fun l hl =>
    mem_range.mpr (S.lambdas_lt r l (List.mem_toFinset.mp hl))
  rw [hlocal, ← List.sum_toFinset _ (S.lambdas_nodup r), G, Numbered.mat_mulVec, Numbered.vec_apply,
    sum_subset hsubset fun l _ hl => ?_]
  · exact sum_congr rfl fun l _ => by rw [entry_stack hr hi]
  · rw [entry_G1_of_notMem (fun hmem => hl (List.mem_toFinset.mpr hmem)), zero_mul]

lemma dMpi_at (d : DualLayout.Vectors) {r i : ℕ} (hr : r < S.ranks) (hi : i < S.ker_size r) :
    S.dMpi d (S.global_ker_size r + i) = d r i := by
  have hlen : ∀ q, ((List.range (S.G1_comp q).rows).map (d q)).length = S.ker_size q := by
    intro q
    rw [List.length_map, List.length_range, rows_G1_comp]
  have hi' : i < ((List.range (S.G1_comp r).rows).map (d r)).length := (hlen r).symm ▸ hi
  have hstart : Layout.start (fun q => ((List.range (S.G1_comp q).rows).map (d q)).length) r
      = S.global_ker_size r := sum_congr rfl fun q _ => hlen q
  rw [dMpi, ← hstart, List.getD_eq_getElem?_getD,
    Layout.getElem?_flatMap_range (fun q => (List.range (S.G1_comp q).rows).map (d q)) hr hi',
    List.getElem?_map, List.getElem?_range (by rwa [rows_G1_comp])]
  rfl

lemma copies_allReduce {d : DualLayout.Vectors} {a : Fin S.global_GGt_size → ℚ}
    (h : ∀ r (hr : r < S.ranks) i (hi : i < S.ker_size r),
      d r i = a ⟨S.global_ker_size r + i, index_lt_total hr hi⟩) :
    S.Copies (S.allReduceLambdasCompB (S.compressedTmp d)) (S.Gᵀ *ᵥ a) := by
  obtain ⟨b, rfl⟩ := Numbered.exists_vec a
  rintro r hr l hl
  have htmp : ∀ q ∈ range S.ranks,
      (if l ∈ S.lambdas q then S.compressedTmp d q (S.index q l) else 0)
        = ∑ i ∈ range (S.ker_size q),
            S.stack.entry (S.global_ker_size q + i) l * b (S.global_ker_size q + i) := by
    intro q hq
    have hq := mem_range.mp hq
    have hrows : ∀ i ∈ range (S.ker_size q), (S.G1 q).entry i l * d q i
        = S.stack.entry (S.global_ker_size q + i) l * b (S.global_ker_size q + i) := by
      intro i hi
      rw [entry_stack hq (mem_range.mp hi), h q hq i (mem_range.mp hi), Numbered.vec_apply]
    rw [← sum_congr rfl hrows]
    split_ifs with hmem
    · rw [compressedTmp]
      split_ifs with hnnz
      · rw [SparseMatrix.matVecT, rows_G1_comp]
        exact sum_congr rfl fun i _ => by rw [entry_G1_comp]
      · rw [G1_comp, SparseMatrix.nnz_compress] at hnnz
        refine (sum_eq_zero fun i _ => ?_).symm
        rw [SparseMatrix.entry_of_nnz (by omega), zero_mul]
    · exact (sum_eq_zero fun i _ => by rw [entry_G1_of_notMem hmem, zero_mul]).symm
  rw [DualLayout.allReduce_at hr hl, sum_congr rfl htmp, G, Numbered.mat_transpose,
    Numbered.mat_mulVec, Numbered.vec_apply]
  exact (Layout.sum_range_start S.ker_size (fun k => S.stack.entry k l * b k) S.ranks).symm

/-! ## The inverse of the coarse matrix -/

lemma rows_GGt_Mat_tmp (h : S.FullRank) (hranks : 0 < S.ranks) :
    S.GGt_Mat_tmp.rows = S.global_GGt_size := by
  rw [GGt_Mat_tmp, SparseMatrix.rows_removeLower, h.rows_collect hranks]

lemma rowProduct_comm (r i q j : ℕ) : S.rowProduct r i q j = S.rowProduct q j r i :=
  sum_congr rfl fun _ _ => mul_comm _ _

lemma FullRank.coarse_eq (h : S.FullRank) :
    Numbered.mat S.global_GGt_size S.global_GGt_size S.GGt_Mat_tmp.symEntry = S.G * S.Gᵀ := by
  rw [G, Numbered.mat_transpose, Numbered.mat_mul]
  refine Numbered.mat_congr fun k hk k' hk' => ?_
  obtain ⟨r, hr, i, hi, rfl⟩ := exists_rank hk
  obtain ⟨q, hq, j, hj, rfl⟩ := exists_rank hk'
  have hsum : ∑ l ∈ range S.multipliers, S.stack.entry (S.global_ker_size r + i) l
      * S.stack.entry (S.global_ker_size q + j) l = S.rowProduct r i q j :=
    sum_congr rfl fun l _ => by rw [entry_stack hr hi, entry_stack hq hj]
  rw [hsum, SparseMatrix.symEntry, GGt_Mat_tmp]
  split_ifs with hle
  · rw [SparseMatrix.entry_removeLower hle, h.entry_collect hr hi hq hj]
  · rw [SparseMatrix.entry_removeLower (by omega), h.entry_collect hq hj hr hi, rowProduct_comm]

lemma FullRank.isUnit_det (h : S.FullRank) : IsUnit (S.G * S.Gᵀ).det := by
  have hrank : (S.G * S.Gᵀ).rank = Fintype.card (Fin S.global_GGt_size) := by
    rw [rank_self_mul_transpose]
    exact LinearIndependent.rank_matrix h
  have hrows : LinearIndependent ℚ (S.G * S.Gᵀ).row := by
    rw [linearIndependent_iff_card_eq_finrank_span, ← hrank, rank_eq_finrank_span_row, Set.finrank]
  exact (isUnit_iff_isUnit_det _).mp (linearIndependent_rows_iff_isUnit.mp hrows)

lemma FullRank.solve_eq (h : S.FullRank) {Solve : SparseMatrix → (ℕ → ℚ) → ℕ → ℚ}
    (hexact : S.Exact Solve) (b : ℕ → ℚ) :
    Numbered.vec S.global_GGt_size (Solve S.GGt_Mat_tmp b)
      = (S.G * S.Gᵀ)⁻¹ *ᵥ Numbered.vec S.global_GGt_size b := by
  have hsolve := hexact (h.coarse_eq ▸ h.isUnit_det)
  rw [h.coarse_eq] at hsolve
  exact (Numbered.solve_eq_inv hsolve).2.2 b

lemma FullRank.rhs_eq (h : S.FullRank) {r : ℕ} (hr : r < S.ranks) :
    ∃ rhs, storeAll ((S.G1 r).rows * S.GGt_Mat_tmp.rows) 0 (S.rhsWrites r) = some rhs ∧
      ∀ j < S.ker_size r, ∀ k < S.global_GGt_size,
        rhs (j * S.global_GGt_size + k) = if k = S.global_ker_size r + j then 1 else 0 := by
  have hrows := rows_GGt_Mat_tmp h (Nat.zero_lt_of_lt hr)
  have hbound : ∀ w ∈ S.rhsWrites r, w.1 < (S.G1 r).rows * S.GGt_Mat_tmp.rows := by
    rintro w hw
    obtain ⟨i, hi, rfl⟩ := List.mem_map.mp hw
    have hi := List.mem_range.mp hi
    have hlt := index_lt_total hr hi
    calc S.GGt_Mat_tmp.rows * i + i + S.global_ker_size r
        < S.GGt_Mat_tmp.rows * i + S.GGt_Mat_tmp.rows := by omega
      _ = (i + 1) * S.GGt_Mat_tmp.rows := by ring
      _ ≤ (S.G1 r).rows * S.GGt_Mat_tmp.rows := Nat.mul_le_mul_right _ hi
  refine ⟨_, if_pos hbound, fun j hj k hk => ?_⟩
  split_ifs with hkj
  · have hmem : (S.GGt_Mat_tmp.rows * j + j + S.global_ker_size r, (1 : ℚ)) ∈ S.rhsWrites r :=
      List.mem_map.mpr ⟨j, List.mem_range.mpr hj, rfl⟩
    have hnodup : ((S.rhsWrites r).map Prod.fst).Nodup := by
      rw [rhsWrites, List.map_map]
      refine List.nodup_range.map fun i i' heq => ?_
      have heq : S.GGt_Mat_tmp.rows * i + i + S.global_ker_size r
          = S.GGt_Mat_tmp.rows * i' + i' + S.global_ker_size r := heq
      rcases lt_trichotomy i i' with hlt | heq' | hlt
      · have := Nat.mul_le_mul_left S.GGt_Mat_tmp.rows hlt.le
        omega
      · exact heq'
      · have := Nat.mul_le_mul_left S.GGt_Mat_tmp.rows hlt.le
        omega
    have hindex : j * S.global_GGt_size + k
        = S.GGt_Mat_tmp.rows * j + j + S.global_ker_size r := by
      rw [hrows, hkj, Nat.mul_comm]
      omega
    rw [hindex]
    exact Writes.foldl_update_of_nodup hnodup 0 hmem
  · refine Writes.foldl_update_of_ne Prod.fst Prod.snd _ _ fun w hw => ?_
    obtain ⟨i, hi, rfl⟩ := List.mem_map.mp hw
    have hi := List.mem_range.mp hi
    have hlt := index_lt_total hr hi
    intro heq
    have heq : S.global_GGt_size * i + (i + S.global_ker_size r) = S.global_GGt_size * j + k := by
      rw [← add_assoc, Nat.mul_comm _ j, ← heq, hrows]
    have hi' : i + S.global_ker_size r < S.global_GGt_size := by omega
    have hdiv := congrArg (· / S.global_GGt_size) heq
    have hmod := congrArg (· % S.global_GGt_size) heq
    simp only [Nat.mul_add_mod, Nat.mod_eq_of_lt hi', Nat.mod_eq_of_lt hk] at hmod
    simp only [Nat.mul_add_div (Nat.zero_lt_of_lt hk), Nat.div_eq_of_lt hi', Nat.div_eq_of_lt hk,
      Nat.add_zero] at hdiv
    omega

lemma createGGt_Inv_eq (Solve : SparseMatrix → (ℕ → ℚ) → ℕ → ℚ) {r : ℕ} {rhs : ℕ → ℚ}
    (hrhs : storeAll ((S.G1 r).rows * S.GGt_Mat_tmp.rows) 0 (S.rhsWrites r) = some rhs) :
    ∃ M, S.createGGt_Inv Solve r = some M ∧ M.cols = S.ker_size r ∧ M.rows = S.GGt_Mat_tmp.rows ∧
      ∀ i < M.rows, ∀ j,
        M.entry i j = Solve S.GGt_Mat_tmp (fun i => rhs (j * S.GGt_Mat_tmp.rows + i)) i := by
  refine ⟨_, by rw [createGGt_Inv, hrhs]; rfl, rfl, rfl, fun i hi j => ?_⟩
  have hpos : 0 < S.GGt_Mat_tmp.rows := Nat.zero_lt_of_lt hi
  have hdiv : (j * S.GGt_Mat_tmp.rows + i) / S.GGt_Mat_tmp.rows = j := by
    rw [Nat.mul_comm, Nat.mul_add_div hpos, Nat.div_eq_of_lt hi, Nat.add_zero]
  have hmod : (j * S.GGt_Mat_tmp.rows + i) % S.GGt_Mat_tmp.rows = i := by
    rw [Nat.mul_comm, Nat.mul_add_mod, Nat.mod_eq_of_lt hi]
  simp only [DenseMatrix.entry, hdiv, hmod]

lemma FullRank.denseMatVecT_eq (h : S.FullRank) {Solve : SparseMatrix → (ℕ → ℚ) → ℕ → ℚ}
    (hexact : S.Exact Solve) {r : ℕ} (hr : r < S.ranks) :
    ∃ M, S.createGGt_Inv Solve r = some M ∧ M.cols = S.ker_size r ∧
      ∀ d j (hj : j < S.ker_size r), M.denseMatVecT d j
        = ((S.G * S.Gᵀ)⁻¹ *ᵥ Numbered.vec S.global_GGt_size d)
            ⟨S.global_ker_size r + j, index_lt_total hr hj⟩ := by
  obtain ⟨rhs, hrhs, hunit⟩ := h.rhs_eq hr
  obtain ⟨M, hM, hcols, hrows, hentry⟩ := createGGt_Inv_eq Solve hrhs
  have htotal := rows_GGt_Mat_tmp h (Nat.zero_lt_of_lt hr)
  refine ⟨M, hM, hcols, fun d j hj => ?_⟩
  have hlt := index_lt_total hr hj
  have hcolumn : Numbered.vec S.global_GGt_size (fun i => rhs (j * S.GGt_Mat_tmp.rows + i))
      = Pi.single ⟨S.global_ker_size r + j, hlt⟩ 1 := by
    funext k
    rw [Numbered.vec_apply, htotal, hunit j hj k k.isLt, Pi.single_apply]
    simp only [Fin.ext_iff]
  have hsymm : (S.G * S.Gᵀ)⁻¹ᵀ = (S.G * S.Gᵀ)⁻¹ := by
    rw [transpose_nonsing_inv, transpose_mul, transpose_transpose]
  have hterm : ∀ i : Fin S.global_GGt_size,
      M.entry i j = (S.G * S.Gᵀ)⁻¹ ⟨S.global_ker_size r + j, hlt⟩ i := by
    intro i
    have hsolve := congrFun (h.solve_eq hexact fun i => rhs (j * S.GGt_Mat_tmp.rows + i)) i
    rw [hcolumn, mulVec_single_one, Numbered.vec_apply] at hsolve
    have hi : (i : ℕ) < M.rows := lt_of_lt_of_eq i.isLt (hrows.trans htotal).symm
    rw [hentry i hi j, hsolve, col_apply, ← transpose_apply (S.G * S.Gᵀ)⁻¹, hsymm]
  rw [DenseMatrix.denseMatVecT, hrows, htotal, sum_range]
  exact sum_congr rfl fun i _ => by rw [hterm, Numbered.vec_apply]

/-! ## The projector -/

/-- What the code holds after `CreateGGt_Inv` with an exact solver: the product of a stripe of the
inverse with a vector is the part of the global product that belongs to the rank. -/
def Inverse (S : KernelRows) (GGtinvM : ℕ → DenseMatrix) : Prop :=
  ∀ r (hr : r < S.ranks), (GGtinvM r).cols = S.ker_size r ∧
    ∀ d j (hj : j < S.ker_size r), (GGtinvM r).denseMatVecT d j
      = ((S.G * S.Gᵀ)⁻¹ *ᵥ Numbered.vec S.global_GGt_size d)
          ⟨S.global_ker_size r + j, index_lt_total hr hj⟩

variable {GGtinvM : ℕ → DenseMatrix}

lemma Inverse.dLocal_eq (h : S.Inverse GGtinvM) {mode : ℕ} {x : DualLayout.Vectors}
    {a : Fin S.global_GGt_size → ℚ}
    (hin : ∀ r (hr : r < S.ranks) i (hi : i < S.ker_size r),
      S.dLocalIn mode x r i = a ⟨S.global_ker_size r + i, index_lt_total hr hi⟩)
    {r j : ℕ} (hr : r < S.ranks) (hj : j < S.ker_size r) :
    S.dLocal GGtinvM mode x r j
      = ((S.G * S.Gᵀ)⁻¹ *ᵥ a) ⟨S.global_ker_size r + j, index_lt_total hr hj⟩ := by
  have hgather : Numbered.vec S.global_GGt_size (S.dMpi (S.dLocalIn mode x)) = a := by
    funext k
    obtain ⟨q, hq, i, hi, hk⟩ := exists_rank k.isLt
    rw [Numbered.vec_apply, ← hk, dMpi_at _ hq hi, hin q hq i hi]
    simp only [hk]
  rw [dLocal, if_pos (by rw [(h r hr).1]; omega), (h r hr).2 _ j hj, hgather]

lemma Copies.dLocalIn_eq {x : DualLayout.Vectors} {g : Fin S.multipliers → ℚ} (h : S.Copies x g)
    {r i : ℕ} (hr : r < S.ranks) (hi : i < S.ker_size r) :
    S.dLocalIn 0 x r i = (S.G *ᵥ g) ⟨S.global_ker_size r + i, index_lt_total hr hi⟩ := by
  rw [← h.matVec_eq hr hi, dLocalIn, if_neg (by omega)]
  split_ifs with hnnz
  · rfl
  · rw [SparseMatrix.matVec, SparseMatrix.rowAt_of_nnz (by omega)]
    rfl

/-- **Mode 0** applies the projector. -/
theorem Inverse.copies_project (h : S.Inverse GGtinvM) {x : DualLayout.Vectors}
    {g : Fin S.multipliers → ℚ} (hx : S.Copies x g) :
    S.Copies (S.projectorInv GGtinvM 0 x) (S.projector *ᵥ g) := by
  have hsum := copies_allReduce fun r hr j hj =>
    h.dLocal_eq (fun r hr i hi => hx.dLocalIn_eq hr hi) (r := r) (j := j) hr hj
  rintro r hr l hl
  rw [projectorInv, if_neg (by omega), if_pos rfl, hx r hr l hl, hsum r hr l hl, projector, sub_mulVec,
    one_mulVec, Pi.sub_apply, mulVec_mulVec, mulVec_mulVec]

/-- **Mode 1** finds a vector with the given products. -/
theorem Inverse.copies_particular (h : S.Inverse GGtinvM) {d : DualLayout.Vectors}
    {a : Fin S.global_GGt_size → ℚ}
    (hd : ∀ r (hr : r < S.ranks) i (hi : i < S.ker_size r),
      d r i = a ⟨S.global_ker_size r + i, index_lt_total hr hi⟩) :
    S.Copies (S.projectorInv GGtinvM 1 d) (S.Gᵀ *ᵥ (S.G * S.Gᵀ)⁻¹ *ᵥ a) := by
  have hin : ∀ r (hr : r < S.ranks) i (hi : i < S.ker_size r),
      S.dLocalIn 1 d r i = a ⟨S.global_ker_size r + i, index_lt_total hr hi⟩ := by
    intro r hr i hi
    rw [dLocalIn, if_pos (Or.inl rfl), hd r hr i hi]
  have hsum := copies_allReduce fun r hr j hj => h.dLocal_eq hin (r := r) (j := j) hr hj
  rintro r hr l hl
  rw [projectorInv, if_neg (by omega), if_neg (by omega), hsum r hr l hl]

lemma exists_stacked (d : DualLayout.Vectors) :
    ∃ a : Fin S.global_GGt_size → ℚ, ∀ r (hr : r < S.ranks) i (hi : i < S.ker_size r),
      d r i = a ⟨S.global_ker_size r + i, index_lt_total hr hi⟩ :=
  ⟨Numbered.vec _ (S.dMpi d), fun r hr i hi => (dMpi_at d hr hi).symm⟩

lemma FullRank.inverse_of_create (h : S.FullRank) {Solve : SparseMatrix → (ℕ → ℚ) → ℕ → ℚ}
    (hexact : S.Exact Solve) (hcreate : ∀ r < S.ranks, S.createGGt_Inv Solve r = some (GGtinvM r)) :
    S.Inverse GGtinvM := by
  intro r hr
  obtain ⟨M, hM, hspec⟩ := h.denseMatVecT_eq hexact hr
  rw [hcreate r hr] at hM
  rw [Option.some.inj hM]
  exact hspec

lemma FullRank.inverse (h : S.FullRank) {Solve : SparseMatrix → (ℕ → ℚ) → ℕ → ℚ}
    (hexact : S.Exact Solve) :
    ∃ GGtinvM : ℕ → DenseMatrix,
      (∀ r < S.ranks, S.createGGt_Inv Solve r = some (GGtinvM r)) ∧ S.Inverse GGtinvM := by
  choose M hM using fun r : Fin S.ranks => h.denseMatVecT_eq hexact r.isLt
  have hcreate : ∀ r < S.ranks, S.createGGt_Inv Solve r
      = some (if hr : r < S.ranks then M ⟨r, hr⟩ else ⟨0, 0, 0⟩) := by
    intro r hr
    rw [dif_pos hr]
    exact (hM ⟨r, hr⟩).1
  exact ⟨_, hcreate, h.inverse_of_create hexact hcreate⟩

/-- **The projector.**  With an exact solver the stripes of the inverse are found within their
vectors; then mode 0 applies the orthogonal projector to every vector with equal copies, the result has
equal copies and no product with a kernel row, and a vector without such products is unchanged; mode 1
gives a vector with the given products. -/
theorem projectorInv_projects (h : S.FullRank) {Solve : SparseMatrix → (ℕ → ℚ) → ℕ → ℚ}
    (hexact : S.Exact Solve) :
    ∃ GGtinvM : ℕ → DenseMatrix,
      (∀ r < S.ranks, S.createGGt_Inv Solve r = some (GGtinvM r)) ∧
      (∀ x, S.Equal x → (∃ g, S.Copies x g) ∧
        (∀ g, S.Copies x g → S.Copies (S.projectorInv GGtinvM 0 x) (S.projector *ᵥ g)) ∧
        S.Equal (S.projectorInv GGtinvM 0 x) ∧
        (∀ r < S.ranks, ∀ i < S.ker_size r,
          (S.G1_comp r).matVec (S.projectorInv GGtinvM 0 x r) i = 0) ∧
        ((∀ r < S.ranks, ∀ i < S.ker_size r, (S.G1_comp r).matVec (x r) i = 0) →
          ∀ r < S.ranks, ∀ j < S.size r, S.projectorInv GGtinvM 0 x r j = x r j)) ∧
      ∀ d, S.Equal (S.projectorInv GGtinvM 1 d) ∧
        ∀ r < S.ranks, ∀ i < S.ker_size r,
          (S.G1_comp r).matVec (S.projectorInv GGtinvM 1 d r) i = d r i := by
  obtain ⟨GGtinvM, hcreate, hinv⟩ := h.inverse hexact
  have hone : S.G * S.Gᵀ * (S.G * S.Gᵀ)⁻¹ = 1 := mul_nonsing_inv _ h.isUnit_det
  have hkernel : S.G * S.projector = 0 := by
    rw [projector, Matrix.mul_sub, Matrix.mul_one, ← Matrix.mul_assoc, ← Matrix.mul_assoc, hone,
      Matrix.one_mul, sub_self]
  refine ⟨GGtinvM, hcreate, fun x hx => ?_, fun d => ?_⟩
  · obtain ⟨g, hg⟩ := exists_copies hx
    have hproject := hinv.copies_project hg
    refine ⟨⟨g, hg⟩, fun g hg => hinv.copies_project hg, equal_of_copies hproject, ?_, ?_⟩
    · rintro r hr i hi
      rw [hproject.matVec_eq hr hi, mulVec_mulVec, hkernel, zero_mulVec, Pi.zero_apply]
    · rintro hzero r hr j hj
      obtain ⟨l, hl, rfl⟩ := DualLayout.exists_index hj
      have hG : S.G *ᵥ g = 0 := by
        funext k
        obtain ⟨q, hq, i, hi, hk⟩ := exists_rank k.isLt
        have hindex : (⟨S.global_ker_size q + i, index_lt_total hq hi⟩ : Fin _) = k := Fin.ext hk
        rw [← hindex]
        exact (hg.matVec_eq hq hi).symm.trans (hzero q hq i hi)
      rw [hproject r hr l hl, hg r hr l hl, projector, sub_mulVec, one_mulVec, ← mulVec_mulVec, hG,
        mulVec_zero, sub_zero]
  · obtain ⟨a, ha⟩ := exists_stacked (S := S) d
    have hparticular := hinv.copies_particular ha
    refine ⟨equal_of_copies hparticular, fun r hr i hi => ?_⟩
    rw [hparticular.matVec_eq hr hi, mulVec_mulVec, mulVec_mulVec, hone, one_mulVec, ha r hr i hi]

end KernelRows

/-! ### Two ranks, one of them without kernel rows -/

lemma twoRanksDual_neighs_nodup (r : ℕ) :
    (if r = 0 then [1] else if r = 1 then [0] else [] : List ℕ).Nodup := by
  split_ifs <;> decide

lemma twoRanksDual_neighs_irrefl (r : ℕ) :
    r ∉ (if r = 0 then [1] else if r = 1 then [0] else [] : List ℕ) := by
  split_ifs <;> simp <;> omega

lemma twoRanksDual_neighs_lt (r q : ℕ)
    (hq : q ∈ if r = 0 then [1] else if r = 1 then [0] else []) : q < 2 := by
  split_ifs at hq <;> simp at hq <;> omega

lemma twoRanksDual_neighs_symm (r q : ℕ)
    (hq : q ∈ if r = 0 then [1] else if r = 1 then [0] else []) :
    r ∈ if q = 0 then [1] else if q = 1 then [0] else [] := by
  split_ifs at hq with h₀ h₁
  · simp_all
  · simp_all
  · exact absurd hq List.not_mem_nil

def twoRanksDual : DualLayout where
  ranks := 2
  lambdas := fun _ => [0]
  lambdas_nodup := fun _ => List.nodup_singleton 0
  neighs := fun r => if r = 0 then [1] else if r = 1 then [0] else []
  neighs_nodup := twoRanksDual_neighs_nodup
  neighs_lt := twoRanksDual_neighs_lt
  neighs_irrefl := twoRanksDual_neighs_irrefl
  neighs_symm := twoRanksDual_neighs_symm
  shared := fun _ _ => [0]
  shared_nodup := fun _ _ => List.nodup_singleton 0
  shared_symm := fun _ _ => rfl
  mem_shared := fun _ _ _ _ => (and_self_iff).symm
  neighs_of_shared := fun r hr q hq hne _ _ _ => by
    split_ifs with h₀ h₁ <;> simp <;> omega

/-- The first rank has the kernel row `1`. -/
def twoRanksKernel : KernelRows where
  toDualLayout := twoRanksDual
  multipliers := 1
  lambdas_lt := fun _ _ hl => by simp_all [twoRanksDual]
  USE_HFETI := false
  G1 := fun r => if r = 0 then ⟨1, [[(0, 1)]]⟩ else SparseMatrix.empty
  G1_bounded := fun r => by split_ifs <;> simp [SparseMatrix.Bounded, Row.Below, SparseMatrix.empty]
  G1_ascending := fun r => by split_ifs <;> simp [SparseMatrix.Ascending, SparseMatrix.empty]
  G1_columns := fun r => by split_ifs <;> simp [SparseMatrix.empty, twoRanksDual]

lemma twoRanksKernel_fullRank : twoRanksKernel.FullRank := by
  have htotal : twoRanksKernel.global_GGt_size = 1 := by decide
  have hentry : twoRanksKernel.stack.entry 0 0 = 1 := by decide +kernel
  rw [KernelRows.FullRank, htotal]
  refine linearIndependent_unique_iff.mpr fun hrow => ?_
  have hzero : twoRanksKernel.stack.entry 0 0 = 0 := congrFun hrow ⟨0, Nat.one_pos⟩
  exact one_ne_zero (hentry.symm.trans hzero)

def diagonalSolve (A : SparseMatrix) (b : ℕ → ℚ) (i : ℕ) : ℚ := b i / A.symEntry i i

lemma twoRanksKernel_exact : twoRanksKernel.Exact diagonalSolve := by
  have htotal : twoRanksKernel.global_GGt_size = 1 := by decide
  have hentry : twoRanksKernel.GGt_Mat_tmp.symEntry 0 0 = 1 := by decide +kernel
  rintro - b
  rw [Numbered.mat_mulVec, Numbered.vec_eq_iff, htotal]
  rintro i hi
  obtain rfl : i = 0 := by omega
  rw [sum_range_one, diagonalSolve, hentry, one_mul, div_one]

/-- The projector of two ranks, one of them without kernel rows. -/
theorem projectorInv_projects_twoRanks :
    ∃ GGtinvM : ℕ → DenseMatrix,
      (∀ r < 2, twoRanksKernel.createGGt_Inv diagonalSolve r = some (GGtinvM r)) ∧
      twoRanksKernel.Equal (twoRanksKernel.projectorInv GGtinvM 0 fun _ _ => 3) ∧
      (twoRanksKernel.G1_comp 0).matVec
        (twoRanksKernel.projectorInv GGtinvM 0 (fun _ _ => 3) 0) 0 = 0 := by
  obtain ⟨GGtinvM, hcreate, hproject, -⟩ :=
    KernelRows.projectorInv_projects twoRanksKernel_fullRank twoRanksKernel_exact
  have hx : twoRanksKernel.Equal fun _ _ => 3 := fun _ _ _ _ _ _ _ => rfl
  obtain ⟨-, -, hequal, hzero, -⟩ := hproject _ hx
  exact ⟨GGtinvM, hcreate, hequal, hzero 0 (by decide) 0 (by decide)⟩

end Espreso
