import Espreso.Lib.Numbered
import Espreso.Lib.Saddle
import Espreso.Solver.ClusterMatrices
import Mathlib.Tactic.IntervalCases
import Mathlib.Tactic.Linarith

/-!
# The hybrid FETI operator solves the system of the cluster

* `Domain.Exact`, `Cluster.Exact` — exact kernels, generalized inverses and direct solvers.
* **`Cluster.coarseProblem_eq_some_iff`** — when all writes of the coarse problem are in bounds.
* **`Cluster.Exact.multKplusGlobal_l_solves_iff`** — the operator returns a solution exactly then.
-/

namespace Espreso

open Finset Matrix Numbered

/-! ## Exactness -/

/-- A domain with a symmetric matrix, a symmetric generalized inverse and a kernel spanned by the
columns of `Kplus_R`. -/
structure Domain.Exact (d : Domain) (r : ℕ) : Prop extends d.Sized r where
  symm : (mat d.domain_prim_size d.domain_prim_size d.K)ᵀ
    = mat d.domain_prim_size d.domain_prim_size d.K
  symm_inv : (mat d.domain_prim_size d.domain_prim_size d.Kplus)ᵀ
    = mat d.domain_prim_size d.domain_prim_size d.Kplus
  inv : mat d.domain_prim_size d.domain_prim_size d.K
      * mat d.domain_prim_size d.domain_prim_size d.Kplus
      * mat d.domain_prim_size d.domain_prim_size d.K
    = mat d.domain_prim_size d.domain_prim_size d.K
  ker : ∀ x : Fin d.domain_prim_size → ℚ, mat d.domain_prim_size d.domain_prim_size d.K *ᵥ x = 0 ↔
    ∃ a : Fin d.Kplus_R.cols → ℚ, mat d.domain_prim_size d.Kplus_R.cols d.Kplus_R.entry *ᵥ a = x

def Domain.Exact.block {d : Domain} {r : ℕ} (h : d.Exact r) :
    Saddle.Block (Fin d.domain_prim_size) (Fin d.Kplus_R.cols) ℚ where
  K := mat d.domain_prim_size d.domain_prim_size d.K
  Kp := mat d.domain_prim_size d.domain_prim_size d.Kplus
  R := mat d.domain_prim_size d.Kplus_R.cols d.Kplus_R.entry
  symm := h.symm
  symm_inv := h.symm_inv
  inv := h.inv
  ker := h.ker

namespace Cluster

variable {c : Cluster} {r : ℕ}

/-- `Sa`: the Schur complement `G0 F0⁻¹ G0ᵀ`, before its regularization. -/
noncomputable def Sa (c : Cluster) (r : ℕ) : Matrix (Fin c.createG0.rows) (Fin c.createG0.rows) ℚ :=
  mat c.createG0.rows r c.createG0.entry * (mat r r c.createF0.symEntry)⁻¹
    * (mat c.createG0.rows r c.createG0.entry)ᵀ

/-- **Exact preprocessing.**  The solver of `Sa` is exact for `Sa` with a regularization, a matrix
whose range has only zero in common with that of `Sa`. -/
structure Exact (c : Cluster) (r : ℕ) : Prop where
  domains_pos : 0 < c.domains_size
  domain : ∀ d < c.domains_size, (c.domains d).Exact r
  F0_exact : ∀ b, mat r r c.createF0.symEntry *ᵥ Numbered.vec r (c.F0_Solve b) = Numbered.vec r b
  Sa_exact : ∃ T : Matrix (Fin c.createG0.rows) (Fin c.createG0.rows) ℚ,
    (∀ b, (c.Sa r + T) *ᵥ Numbered.vec _ (c.Sa_Solve b) = Numbered.vec _ b) ∧
      ∀ u v, c.Sa r *ᵥ u = T *ᵥ v → c.Sa r *ᵥ u = 0

/-- **The system of the cluster**: `∑ d, B0 x = 0` and `K x = f - B0ᵀ lambda` on every domain. -/
def Solves (c : Cluster) (r : ℕ) (f x : ℕ → ℕ → ℚ) (lambda : ℕ → ℚ) : Prop :=
  (∀ l < r, ∑ d ∈ range c.domains_size, ∑ i ∈ range (c.domains d).domain_prim_size,
    (c.domains d).B0.entry l i * x d i = 0) ∧
  ∀ d < c.domains_size, ∀ i < (c.domains d).domain_prim_size,
    ∑ j ∈ range (c.domains d).domain_prim_size, (c.domains d).K i j * x d j
      = f d i - ∑ l ∈ range r, (c.domains d).B0.entry l i * lambda l

/-- **What the coarse problem needs**: every kernel has a block of `G0`, there is a kernel unless
there is no row of `B0`, and all kernels fit in the work vector of the first domain. -/
structure Fits (c : Cluster) (r : ℕ) : Prop where
  stored : ∀ d < c.domains_size, (c.domains d).Kplus_R.cols ≠ 0 → (c.domains d).G0LocalTemp.nnz ≠ 0
  kernel : r = 0 ∨ ∃ d < c.domains_size, (c.domains d).Kplus_R.cols ≠ 0
  work : c.kerindices c.domains_size ≤ (c.domains 0).max_tmp_vec_size

lemma Exact.sized (h : c.Exact r) : c.Sized r :=
  ⟨h.domains_pos, fun d hd => (h.domain d hd).toSized⟩

/-! ## The system as a saddle point system -/

section Saddle

variable (x_in : ℕ → ℕ → ℚ)

def Exact.blocks (h : c.Exact r) (d : Fin c.domains_size) :
    Saddle.Block (Fin (c.domains d).domain_prim_size) (Fin (c.domains d).Kplus_R.cols) ℚ :=
  (h.domain d d.isLt).block

def constraints (c : Cluster) (r : ℕ) (d : Fin c.domains_size) :
    Matrix (Fin r) (Fin (c.domains d).domain_prim_size) ℚ :=
  mat r (c.domains d).domain_prim_size (c.domains d).B0.entry

def primals (c : Cluster) (x : ℕ → ℕ → ℚ) (d : Fin c.domains_size) :
    Fin (c.domains d).domain_prim_size → ℚ := Numbered.vec (c.domains d).domain_prim_size (x d)

/-- The amplitudes of the kernels of the domains, with the block of a domain from `kerindices`. -/
def amplitudes (c : Cluster) (α : ℕ → ℚ) (d : Fin c.domains_size) :
    Fin (c.domains d).Kplus_R.cols → ℚ :=
  Numbered.vec (c.domains d).Kplus_R.cols fun i => α (c.kerindices d + i)

lemma Exact.solves_iff (h : c.Exact r) (f x : ℕ → ℕ → ℚ) (lambda : ℕ → ℚ) :
    c.Solves r f x lambda ↔
      Saddle.Solves h.blocks (c.constraints r) (c.primals f) (c.primals x) (Numbered.vec r lambda) := by
  refine and_congr ?_ ⟨fun hK d => ?_, fun hK d hd => ?_⟩
  · have hsum : ∑ d, c.constraints r d *ᵥ c.primals x d = Numbered.vec r fun l =>
        ∑ d ∈ range c.domains_size, ∑ i ∈ range (c.domains d).domain_prim_size,
          (c.domains d).B0.entry l i * x d i := by
      funext l
      rw [Finset.sum_apply, vec_apply, Finset.sum_range]
      exact sum_congr rfl fun d _ => congrFun (mat_mulVec _ _) l
    rw [hsum]
    exact vec_eq_iff.symm
  · change mat _ _ _ *ᵥ Numbered.vec _ _ = Numbered.vec _ _ - (mat _ _ _)ᵀ *ᵥ Numbered.vec _ _
    rw [mat_mulVec, mat_transpose, mat_mulVec, ← Numbered.vec_sub, vec_eq_iff]
    exact hK d d.isLt
  · have hd' := hK ⟨d, hd⟩
    change mat _ _ _ *ᵥ Numbered.vec _ _ = Numbered.vec _ _ - (mat _ _ _)ᵀ *ᵥ Numbered.vec _ _ at hd'
    rw [mat_mulVec, mat_transpose, mat_mulVec, ← Numbered.vec_sub, vec_eq_iff] at hd'
    exact hd'

lemma Exact.Kplus_symm (h : c.Exact r) {d : ℕ} (hd : d < c.domains_size) {i j : ℕ}
    (hi : i < (c.domains d).domain_prim_size) (hj : j < (c.domains d).domain_prim_size) :
    (c.domains d).Kplus i j = (c.domains d).Kplus j i :=
  congrFun (congrFun (h.domain d hd).symm_inv ⟨j, hj⟩) ⟨i, hi⟩

lemma Exact.F_eq (h : c.Exact r) :
    Saddle.F h.blocks (c.constraints r) = mat r r c.createF0.symEntry := by
  ext l l'
  rw [mat_apply, h.sized.entry_createF0 fun d hd i hi j hj => h.Kplus_symm hd hi hj, Saddle.F,
    Matrix.sum_apply, Finset.sum_range]
  refine sum_congr rfl fun d _ => ?_
  have hKp : (h.blocks d).Kp = mat _ _ (c.domains d).Kplus := rfl
  rw [Matrix.mul_assoc, constraints, hKp, mat_transpose, mat_mul, mat_mul, mat_apply]
  rfl

/-- The values that the domains add to `vec_g0`. -/
def g0 (c : Cluster) (x_in : ℕ → ℕ → ℚ) (l : ℕ) : ℚ :=
  ∑ d ∈ range c.domains_size, ∑ k ∈ range (c.domains d).domain_prim_size,
    (c.domains d).KplusB0t k l * x_in d k

lemma Exact.g_eq (h : c.Exact r) :
    Saddle.g h.blocks (c.constraints r) (c.primals x_in) = Numbered.vec r (c.g0 x_in) := by
  funext l
  rw [Saddle.g, Finset.sum_apply, vec_apply, g0, Finset.sum_range]
  refine sum_congr rfl fun d _ => ?_
  change (mat _ _ _ *ᵥ (mat _ _ _ *ᵥ Numbered.vec _ _)) l = _
  rw [mat_mulVec, mat_mulVec, vec_apply]
  simp only [Domain.KplusB0t, Domain.multKplusLocal, mul_sum, sum_mul]
  rw [sum_comm]
  refine sum_congr rfl fun k hk => sum_congr rfl fun j hj => ?_
  rw [h.Kplus_symm d.isLt (mem_range.mp hj) (mem_range.mp hk)]
  ring

end Saddle

/-! ## The coarse problem -/

section Coarse

variable (x_in : ℕ → ℕ → ℚ)

lemma G0_rows_le (c : Cluster) (d : ℕ) : c.G0_rows d ≤ (c.domains d).Kplus_R.cols := by
  rw [G0_rows]
  split_ifs <;> omega

lemma Sized.kerindices_le_iff (h : c.Sized r) : c.kerindices c.domains_size ≤ c.createG0.rows ↔
    ∀ d < c.domains_size, (c.domains d).Kplus_R.cols ≠ 0 → (c.domains d).G0LocalTemp.nnz ≠ 0 := by
  have hle : ∀ d ∈ range c.domains_size, c.G0_rows d ≤ (c.domains d).Kplus_R.cols := fun d _ =>
    c.G0_rows_le d
  have heq := sum_eq_sum_iff_of_le hle
  rw [h.rows_createG0]
  constructor
  · intro hge d hd hcols hnnz
    have hd' := heq.mp (le_antisymm (sum_le_sum hle) hge) d (mem_range.mpr hd)
    rw [G0_rows, if_pos hnnz] at hd'
    exact hcols hd'.symm
  · intro hstored
    refine (heq.mpr fun d hd => ?_).ge
    rw [G0_rows]
    split_ifs with hnnz
    · exact (not_not.mp fun hcols => hstored d (mem_range.mp hd) hcols hnnz).symm
    · rfl

lemma fst_e0Writes : (c.e0Writes c.kerindices x_in).map Prod.fst
    = List.range (c.kerindices c.domains_size) := by
  rw [kerindices, ← Layout.flatMap_range_start, e0Writes, List.map_flatMap]
  simp only [List.map_map]
  rfl

lemma e0Writes_lt_iff (size : ℕ) : (∀ w ∈ c.e0Writes c.kerindices x_in, w.1 < size) ↔
    c.kerindices c.domains_size ≤ size := by
  have hmem : (∀ w ∈ c.e0Writes c.kerindices x_in, w.1 < size) ↔
      ∀ k ∈ (c.e0Writes c.kerindices x_in).map Prod.fst, k < size := by simp
  rw [hmem, fst_e0Writes]
  simp only [List.mem_range]
  exact ⟨fun hall => le_of_not_gt fun hlt => absurd (hall size hlt) (lt_irrefl _),
    fun hle k hk => lt_of_lt_of_le hk hle⟩

/-- `vec_e0` after the loop. -/
def e0 (c : Cluster) (x_in : ℕ → ℕ → ℚ) : ℕ → ℚ :=
  (c.e0Writes c.kerindices x_in).foldl (fun v w => Function.update v w.1 w.2) 0

lemma e0_eq {d i : ℕ} (hd : d < c.domains_size) (hi : i < (c.domains d).Kplus_R.cols) :
    c.e0 x_in (c.kerindices d + i) = -(c.domains d).Kplus_R.denseMatVecT (x_in d) i := by
  refine Writes.foldl_update_of_nodup
    (w := (c.kerindices d + i, -(c.domains d).Kplus_R.denseMatVecT (x_in d) i)) ?_ 0 ?_
  · rw [fst_e0Writes]
    exact List.nodup_range
  · exact List.mem_flatMap.mpr ⟨d, List.mem_range.mpr hd,
      List.mem_map.mpr ⟨i, List.mem_range.mpr hi, rfl⟩⟩

lemma Sized.g0Writes_eq (h : c.Sized r) : c.g0Writes x_in = (List.range c.domains_size).flatMap fun d =>
    (c.domains d).B0_rows.map fun l =>
      (l, ∑ k ∈ range (c.domains d).domain_prim_size, (c.domains d).KplusB0t k l * x_in d k) := by
  refine List.flatMap_congr fun d hd => ?_
  refine List.ext_getElem (by simp [Domain.rows_B0Kplus_comp]) fun i hi hi' => ?_
  rw [List.length_map] at hi'
  rw [List.getElem_map, List.getElem_range, List.getElem_map, Domain.B0_comp_map_vec_getD hi',
    (h.domain d (List.mem_range.mp hd)).denseMatVec_B0Kplus_comp _ hi', List.getD_eq_getElem _ _ hi']

lemma Sized.g0_eq (h : c.Sized r) (l : ℕ) :
    (c.g0Writes x_in).foldl (fun v w => Function.update v w.1 (v w.1 + w.2)) (0 : ℕ → ℚ) l
      = c.g0 x_in l := by
  rw [foldl_add_eq, h.g0Writes_eq, Row.entry_flatMap, sum_map_range, Pi.zero_apply, zero_add]
  refine sum_congr rfl fun d _ => ?_
  rw [Row.entry_map_nodup Domain.nodup_B0_rows]
  split_ifs with hl
  · rfl
  · have hrow : (c.domains d).B0.rowAt l = [] := by
      by_contra hne
      have hlt := lt_of_not_ge fun hge => hne (SparseMatrix.rowAt_eq_nil hge)
      exact hl (List.mem_filter.mpr ⟨List.mem_range.mpr hlt, by simpa using hne⟩)
    exact (sum_eq_zero fun k _ => by rw [Domain.KplusB0t_of_rowAt hrow, zero_mul]).symm

lemma Sized.g0Writes_lt_iff (h : c.Sized r) (size : ℕ) : (∀ w ∈ c.g0Writes x_in, w.1 < size) ↔
    ∀ d < c.domains_size, ∀ l ∈ (c.domains d).B0_rows, l < size := by
  rw [h.g0Writes_eq]
  simp only [List.mem_flatMap, List.mem_range, List.mem_map]
  constructor
  · exact fun hall d hd l hl => hall _ ⟨d, hd, l, hl, rfl⟩
  · rintro hall w ⟨d, hd, l, hl, rfl⟩
    exact hall d hd l hl

/-- **The coarse problem** is computed exactly when all its writes are in bounds. -/
lemma Sized.coarseProblem_eq (h : c.Sized r)
    (hlt : (∀ d < c.domains_size, ∀ l ∈ (c.domains d).B0_rows, l < c.createG0.cols) ↔
      (r = 0 ∨ c.createG0.rows ≠ 0)) :
    c.coarseProblem c.kerindices x_in =
      if c.kerindices c.domains_size ≤ c.createG0.rows ∧ (r = 0 ∨ c.createG0.rows ≠ 0) ∧
          c.createG0.rows ≤ (c.domains 0).max_tmp_vec_size then
        let tm2 := fun i => c.createG0.matVec (c.F0_Solve (c.g0 x_in)) i - c.e0 x_in i
        let tm1 := fun i => c.g0 x_in i - c.createG0.matVecT (c.Sa_Solve tm2) i
        some (c.Sa_Solve tm2, c.F0_Solve tm1)
      else none := by
  have hg0 := funext (h.g0_eq x_in)
  rw [coarseProblem, storeAll, addAll]
  simp only [e0Writes_lt_iff, h.g0Writes_lt_iff, hlt, hg0]
  by_cases h₁ : c.kerindices c.domains_size ≤ c.createG0.rows
  · by_cases h₂ : r = 0 ∨ c.createG0.rows ≠ 0
    · by_cases h₃ : c.createG0.rows ≤ (c.domains 0).max_tmp_vec_size <;>
        simp [h₁, h₂, h₃, guard, e0]
    · simp [h₁, h₂]
  · simp [h₁]

lemma Exact.B0_rows_lt_iff (h : c.Exact r) :
    (∀ d < c.domains_size, ∀ l ∈ (c.domains d).B0_rows, l < c.createG0.cols) ↔
      (r = 0 ∨ c.createG0.rows ≠ 0) := by
  have hcols := h.sized.cols_createG0
  constructor
  · intro hall
    by_contra hnot
    push Not at hnot
    rw [if_pos hnot.2] at hcols
    -- otherwise no row of `B0` stores anything and `F0` is zero
    have hrow : ∀ d < c.domains_size, (c.domains d).B0.rowAt 0 = [] := by
      intro d hd
      by_contra hne
      have hlt := lt_of_not_ge fun hge => hne (SparseMatrix.rowAt_eq_nil hge)
      have hmem := hall d hd 0 (List.mem_filter.mpr ⟨List.mem_range.mpr hlt, by simpa using hne⟩)
      omega
    have hzero : ∀ l, c.createF0.symEntry 0 l = 0 := by
      intro l
      rw [h.sized.entry_createF0 fun d hd i hi j hj => h.Kplus_symm hd hi hj]
      refine sum_eq_zero fun d hd => sum_eq_zero fun k _ => ?_
      rw [Domain.entry_of_rowAt (hrow d (mem_range.mp hd)), zero_mul]
    have hexact := congrFun (h.F0_exact fun _ => 1) ⟨0, Nat.pos_of_ne_zero hnot.1⟩
    rw [mat_mulVec] at hexact
    simp [hzero] at hexact
  · rintro hr d hd l hl
    have hlt := Domain.lt_of_mem_B0_rows hl
    rw [(h.domain d hd).B0_rows] at hlt
    rcases hr with hr | hr
    · omega
    · rwa [hcols, if_neg hr]

lemma Sized.rows_createG0_le (h : c.Sized r) : c.createG0.rows ≤ c.kerindices c.domains_size := by
  rw [h.rows_createG0]
  exact sum_le_sum fun d _ => c.G0_rows_le d

lemma Sized.fits_iff (h : c.Sized r) : c.Fits r ↔
    c.kerindices c.domains_size ≤ c.createG0.rows ∧ (r = 0 ∨ c.createG0.rows ≠ 0) ∧
      c.createG0.rows ≤ (c.domains 0).max_tmp_vec_size := by
  have hle := h.rows_createG0_le
  have hker : c.kerindices c.domains_size = 0 ↔
      ∀ d < c.domains_size, (c.domains d).Kplus_R.cols = 0 := by
    rw [kerindices, Layout.start, sum_eq_zero_iff]
    simp only [mem_range]
  constructor
  · rintro ⟨hstored, hkernel, hwork⟩
    have hge := h.kerindices_le_iff.mpr hstored
    refine ⟨hge, hkernel.imp_right ?_, by omega⟩
    rintro ⟨d, hd, hcols⟩ hrows
    exact hcols (hker.mp (by omega) d hd)
  · rintro ⟨hge, hkernel, hwork⟩
    refine ⟨h.kerindices_le_iff.mp hge, hkernel.imp_right fun hrows => ?_, by omega⟩
    by_contra hnone
    push Not at hnone
    have := hker.mpr hnone
    omega

end Coarse

/-! ## The operator -/

section Operator

variable (x_in : ℕ → ℕ → ℚ)

lemma primalFits (h : c.Sized r) : c.PrimalFits := by
  intro d hd
  rw [← (h.domain d hd).B0_cols, Domain.max_tmp_vec_size]
  split_ifs <;> omega

lemma exists_amplitudes (α : ∀ d : Fin c.domains_size, Fin (c.domains d).Kplus_R.cols → ℚ) :
    ∃ α₀ : ℕ → ℚ, c.amplitudes α₀ = α := by
  have hbij := Layout.prefixes_bijOn c.domains_size fun d => (c.domains d).Kplus_R.cols
  let pos : (Σ d : Fin c.domains_size, Fin (c.domains d).Kplus_R.cols) → ℕ := fun p =>
    c.kerindices p.1 + p.2
  have hinj : Function.Injective pos := by
    rintro ⟨d, i⟩ ⟨d', i'⟩ heq
    have hpair : ((d : ℕ), (i : ℕ)) = ((d' : ℕ), (i' : ℕ)) :=
      hbij.injOn ⟨d.isLt, i.isLt⟩ ⟨d'.isLt, i'.isLt⟩ heq
    obtain rfl : d = d' := Fin.ext (congrArg Prod.fst hpair)
    obtain rfl : i = i' := Fin.ext (congrArg Prod.snd hpair)
    rfl
  refine ⟨Function.extend pos (fun p => α p.1 p.2) 0, funext fun d => funext fun i => ?_⟩
  exact hinj.extend_apply (fun p => α p.1 p.2) 0 ⟨d, i⟩

lemma eq_of_blocks {N : ℕ} (hN : N = c.kerindices c.domains_size) {u v : Fin N → ℚ}
    (huv : ∀ d < c.domains_size, ∀ i < (c.domains d).Kplus_R.cols,
      ∀ hlt : c.kerindices d + i < N, u ⟨c.kerindices d + i, hlt⟩ = v ⟨c.kerindices d + i, hlt⟩) :
    u = v := by
  subst hN
  funext j
  have hbij := Layout.prefixes_bijOn c.domains_size fun d => (c.domains d).Kplus_R.cols
  obtain ⟨⟨d, i⟩, ⟨hd, hi⟩, heq⟩ := hbij.surjOn j.isLt
  change c.kerindices d + i = j at heq
  have hj : j = ⟨c.kerindices d + i, heq ▸ j.isLt⟩ := Fin.ext heq.symm
  rw [hj]
  exact huv d hd i hi _

variable {x_in}

lemma Fits.G0_rows_eq (hfit : c.Fits r) {d : ℕ} (hd : d < c.domains_size) :
    c.G0_rows d = (c.domains d).Kplus_R.cols := by
  rw [G0_rows]
  split_ifs with hnnz
  · exact (not_not.mp fun hcols => hfit.stored d hd hcols hnnz).symm
  · rfl

lemma Fits.start_G0_rows (hfit : c.Fits r) {d : ℕ} (hd : d ≤ c.domains_size) :
    Layout.start c.G0_rows d = c.kerindices d :=
  sum_congr rfl fun _ hk => hfit.G0_rows_eq (lt_of_lt_of_le (mem_range.mp hk) hd)

lemma Fits.rows_createG0 (hfit : c.Fits r) (h : c.Sized r) :
    c.createG0.rows = c.kerindices c.domains_size := by
  rw [h.rows_createG0, hfit.start_G0_rows le_rfl]

lemma Fits.G_eq (hfit : c.Fits r) (h : c.Exact r) (d : Fin c.domains_size) :
    Saddle.G h.blocks (c.constraints r) d
      = mat (c.domains d).Kplus_R.cols r fun i l => c.createG0.entry (c.kerindices d + i) l := by
  have hR : (h.blocks d).R = mat _ _ (c.domains d).Kplus_R.entry := rfl
  ext i l
  rw [Saddle.G, constraints, hR, mat_mul, mat_transpose, Matrix.neg_apply, mat_apply, mat_apply,
    ← hfit.start_G0_rows d.isLt.le,
    h.sized.entry_createG0 d.isLt (by rw [hfit.G0_rows_eq d.isLt]; exact i.isLt)]

lemma Fits.sum_Gt (hfit : c.Fits r) (h : c.Exact r) (α : ℕ → ℚ) :
    ∑ d, (Saddle.G h.blocks (c.constraints r) d)ᵀ *ᵥ c.amplitudes α d
      = Numbered.vec r (c.createG0.matVecT α) := by
  funext l
  rw [Finset.sum_apply, vec_apply, SparseMatrix.matVecT, hfit.rows_createG0 h.sized, kerindices,
    Layout.sum_range_start, Finset.sum_range]
  refine sum_congr rfl fun d _ => ?_
  rw [hfit.G_eq h d, mat_transpose]
  exact congrFun (mat_mulVec _ _) l

lemma Fits.Sa_apply (hfit : c.Fits r) (h : c.Exact r) (α : ℕ → ℚ) (d : Fin c.domains_size)
    (i : Fin (c.domains d).Kplus_R.cols) (hlt : c.kerindices d + i < c.createG0.rows) :
    (c.Sa r *ᵥ Numbered.vec _ α) ⟨c.kerindices d + i, hlt⟩
      = Saddle.schur h.blocks (c.constraints r) (mat r r c.createF0.symEntry)⁻¹
          (c.amplitudes α) d i := by
  have hGt : (mat c.createG0.rows r c.createG0.entry)ᵀ *ᵥ Numbered.vec c.createG0.rows α
      = Numbered.vec r (c.createG0.matVecT α) := by
    rw [mat_transpose, mat_mulVec]
    rfl
  rw [Sa, ← mulVec_mulVec, ← mulVec_mulVec, hGt, Saddle.schur, hfit.sum_Gt h, hfit.G_eq h d]
  rfl

lemma Fits.rhs_apply (hfit : c.Fits r) (h : c.Exact r) (d : Fin c.domains_size)
    (i : Fin (c.domains d).Kplus_R.cols) :
    c.createG0.matVec (c.F0_Solve (c.g0 x_in)) (c.kerindices d + i) - c.e0 x_in (c.kerindices d + i)
      = Saddle.schurRhs h.blocks (c.constraints r) (mat r r c.createF0.symEntry)⁻¹
          (c.primals x_in) d i := by
  have hrows := hfit.rows_createG0 h.sized
  have hle := Layout.start_add_le (fun d => (c.domains d).Kplus_R.cols) d.isLt
  have hcols : c.createG0.cols = r := by
    rw [h.sized.cols_createG0, if_neg]
    have := i.isLt
    rw [kerindices] at hrows
    omega
  have hR : (h.blocks d).R = mat _ _ (c.domains d).Kplus_R.entry := rfl
  have hsized := (h.domain d d.isLt).toSized
  rw [Saddle.schurRhs, Saddle.e, h.g_eq, ← (solve_eq_inv h.F0_exact).2.2, hfit.G_eq h d, mat_mulVec,
    Pi.sub_apply, vec_apply, h.sized.createG0_bounded.matVec_eq, hcols, c.e0_eq x_in d.isLt i.isLt, hR,
    mat_transpose, neg_mulVec, primals, mat_mulVec, Pi.neg_apply, vec_apply,
    DenseMatrix.denseMatVecT, hsized.R_rows (by have := i.isLt; omega)]

/-- **The coarse problem solves the reduced system** if the system of the cluster is solvable. -/
lemma Fits.reduced (hfit : c.Fits r) (h : c.Exact r)
    (hsolvable : ∃ x lambda, c.Solves r x_in x lambda) :
    ∃ alfa lambda : ℕ → ℚ, c.coarseProblem c.kerindices x_in = some (alfa, lambda) ∧
      Saddle.Reduced h.blocks (c.constraints r) (c.primals x_in) (Numbered.vec r lambda)
        (c.amplitudes alfa) := by
  obtain ⟨x, lambda', hsol⟩ := hsolvable
  obtain ⟨α, hred, -⟩ := (Saddle.solves_iff_reduced _ _ _ _ _).mp ((h.solves_iff _ _ _).mp hsol)
  obtain ⟨α₀, rfl⟩ := c.exists_amplitudes α
  obtain ⟨hmul, hinv, hsolve⟩ := solve_eq_inv h.F0_exact
  have hrows := hfit.rows_createG0 h.sized
  -- the right-hand side is in the range of `Sa`
  let tm2 := fun i => c.createG0.matVec (c.F0_Solve (c.g0 x_in)) i - c.e0 x_in i
  have hschur := Saddle.schur_of_reduced h.blocks (c.constraints r) (by rw [h.F_eq]; exact hinv) hred
  have hrange : c.Sa r *ᵥ Numbered.vec _ α₀ = Numbered.vec _ tm2 := by
    refine c.eq_of_blocks hrows fun d hd i hi hlt => ?_
    rw [hfit.Sa_apply h α₀ ⟨d, hd⟩ ⟨i, hi⟩ hlt, hschur]
    exact (hfit.rhs_apply h ⟨d, hd⟩ ⟨i, hi⟩).symm
  -- so the regularization does not change the solution
  have hSa : c.Sa r *ᵥ Numbered.vec _ (c.Sa_Solve tm2) = Numbered.vec _ tm2 := by
    obtain ⟨T, hT, hsep⟩ := h.Sa_exact
    have heq := hT tm2
    rw [add_mulVec, ← hrange] at heq
    have hzero := hsep (Numbered.vec _ α₀ - Numbered.vec _ (c.Sa_Solve tm2)) (Numbered.vec _ (c.Sa_Solve tm2))
      (by rw [mulVec_sub, ← heq]; abel)
    rw [mulVec_sub, sub_eq_zero] at hzero
    rw [← hzero, hrange]
  have hschur' : Saddle.schur h.blocks (c.constraints r) (mat r r c.createF0.symEntry)⁻¹
      (c.amplitudes (c.Sa_Solve tm2)) = Saddle.schurRhs h.blocks (c.constraints r)
        (mat r r c.createF0.symEntry)⁻¹ (c.primals x_in) := by
    funext d i
    have hlt : c.kerindices d + i < c.createG0.rows := by
      have hle := Layout.start_add_le (fun d => (c.domains d).Kplus_R.cols) d.isLt
      have := i.isLt
      rw [hrows, kerindices, kerindices]
      omega
    rw [← hfit.Sa_apply h _ d i hlt, hSa]
    exact hfit.rhs_apply h d i
  have hcoarse := h.sized.coarseProblem_eq x_in h.B0_rows_lt_iff
  rw [if_pos (h.sized.fits_iff.mp hfit)] at hcoarse
  refine ⟨_, _, hcoarse, ?_⟩
  rw [hsolve, Numbered.vec_sub, ← h.g_eq, ← hfit.sum_Gt h]
  exact Saddle.reduced_of_schur _ _ (by rw [h.F_eq]; exact hmul) hschur'

lemma Exact.primals_eq (h : c.Exact r) (alfa lambda : ℕ → ℚ) :
    c.primals (c.primalSolution x_in alfa lambda)
      = Saddle.primal h.blocks (c.constraints r) (c.primals x_in) (Numbered.vec r lambda)
          (c.amplitudes alfa) := by
  funext d i
  have hKp : (h.blocks d).Kp = mat _ _ (c.domains d).Kplus := rfl
  have hR : (h.blocks d).R = mat _ _ (c.domains d).Kplus_R.entry := rfl
  have hB0t : ∀ i, (c.domains d).B0_comp.matVecT (c.gatherLambda d lambda) i
      = ∑ l ∈ range r, (c.domains d).B0.entry l i * lambda l := by
    intro i
    rw [← (h.domain d d.isLt).B0_rows]
    exact Domain.matVecT_B0_comp lambda i
  have hf : c.primals x_in d - Numbered.vec _ (fun i => ∑ l ∈ range r, (c.domains d).B0.entry l i * lambda l)
      = Numbered.vec _ fun i => x_in d i - (c.domains d).B0_comp.matVecT (c.gatherLambda d lambda) i := by
    simp only [hB0t]
    rfl
  rw [Saddle.primal, hKp, hR, constraints, mat_transpose, mat_mulVec, hf, mat_mulVec, amplitudes,
    mat_mulVec]
  rfl

/-- **The operator of the cluster solves its system**, if there is a solution, exactly when the
coarse problem fits. Otherwise the code writes out of bounds. -/
theorem Exact.multKplusGlobal_l_solves_iff (h : c.Exact r) (f : ℕ → ℕ → ℚ)
    (hsolvable : ∃ x lambda, c.Solves r f x lambda) :
    (∃ x lambda, c.multKplusGlobal_l f = some x ∧ c.Solves r f x lambda) ↔ c.Fits r := by
  constructor
  · rintro ⟨x, lambda, hsome, -⟩
    by_contra hfit
    rw [multKplusGlobal_l, h.sized.coarseProblem_eq f h.B0_rows_lt_iff,
      if_neg (fun hall => hfit (h.sized.fits_iff.mpr hall))] at hsome
    exact absurd hsome (by simp)
  · intro hfit
    obtain ⟨alfa, lambda, hcoarse, hred⟩ := hfit.reduced h hsolvable
    refine ⟨c.primalSolution f alfa lambda, lambda, ?_, ?_⟩
    · rw [multKplusGlobal_l, hcoarse]
      simp only [Option.bind_eq_bind, Option.bind_some, guard, if_pos (primalFits h.sized)]
      rfl
    · rw [h.solves_iff, Saddle.solves_iff_reduced]
      exact ⟨_, hred, h.primals_eq alfa lambda⟩

end Operator

end Cluster

/-! ### Two domains with one unknown each -/

/-- A domain with one unknown: floating (`K = 0`) or not (`K = 1`). -/
def oneUnknown (floating : Bool) (sign : ℚ) : Domain where
  domain_prim_size := 1
  K := fun _ _ => if floating then 0 else 1
  Kplus := fun _ _ => 1
  Kplus_R := { rows := 1, cols := if floating then 1 else 0, dense_values := fun _ => 1 }
  B0 := { cols := 1, csr := [[(0, sign)]] }

def twoUnknowns (floating : Bool) : Cluster where
  domains_size := 2
  domains := fun d => oneUnknown floating (if d = 0 then 1 else -1)
  F0_Solve := fun b i => b i / 2
  Sa_Solve := fun b => b

lemma oneUnknown_exact (floating : Bool) (sign : ℚ) : (oneUnknown floating sign).Exact 1 where
  B0_rows := rfl
  B0_cols := rfl
  B0_bounded := by
    intro row hrow e he
    rw [List.mem_singleton.mp hrow] at he
    rw [List.mem_singleton.mp he]
    exact Nat.one_pos
  R_rows := fun _ => rfl
  R_cols := by
    cases floating
    · exact Nat.zero_le 1
    · exact Nat.le_refl 1
  symm := rfl
  symm_inv := rfl
  inv := by
    rw [mat_mul, mat_mul]
    refine mat_congr fun i _ j _ => ?_
    cases floating <;> simp [oneUnknown]
  ker := by
    intro x
    obtain ⟨y, rfl⟩ := exists_vec x
    rw [mat_mulVec, show (0 : Fin (oneUnknown floating sign).domain_prim_size → ℚ) = Numbered.vec _ 0 from rfl,
      vec_eq_iff]
    cases floating with
    | false =>
        -- no kernel: the only vector is zero
        constructor
        · intro hy
          refine ⟨0, (mulVec_zero _).trans (vec_eq_iff (x := 0).mpr fun i hi => ?_)⟩
          obtain rfl : i = 0 := Nat.lt_one_iff.mp hi
          simpa [oneUnknown] using (hy 0 hi).symm
        · rintro ⟨a, ha⟩ i hi
          obtain ⟨a, rfl⟩ := exists_vec a
          rw [mat_mulVec, vec_eq_iff] at ha
          obtain rfl : i = 0 := Nat.lt_one_iff.mp hi
          simpa [oneUnknown] using (ha 0 hi).symm
    | true =>
        refine iff_of_true (fun i _ => by simp [oneUnknown]) ⟨Numbered.vec _ y, ?_⟩
        rw [mat_mulVec, vec_eq_iff]
        intro i hi
        obtain rfl : i = 0 := Nat.lt_one_iff.mp hi
        simp [oneUnknown, DenseMatrix.entry]

lemma twoUnknowns_F0_exact (floating : Bool) (b : ℕ → ℚ) :
    mat 1 1 (twoUnknowns floating).createF0.symEntry *ᵥ Numbered.vec 1 ((twoUnknowns floating).F0_Solve b)
      = Numbered.vec 1 b := by
  have hF0 : (twoUnknowns floating).createF0.symEntry 0 0 = 2 := by
    cases floating <;> decide +kernel
  rw [mat_mulVec, vec_eq_iff]
  intro i hi
  obtain rfl : i = 0 := by omega
  rw [sum_range_one, hF0]
  exact mul_div_cancel₀ (b 0) two_ne_zero

lemma twoUnknowns_false_exact : (twoUnknowns false).Exact 1 where
  domains_pos := Nat.two_pos
  domain := fun _ _ => oneUnknown_exact _ _
  F0_exact := twoUnknowns_F0_exact false
  Sa_exact := ⟨0, fun _ => funext fun i => i.elim0, fun _ _ _ => funext fun i => i.elim0⟩

/-- **Without kernels the operator writes out of bounds**: `vec_g0` has the size of a `G0` to which
nothing was appended. -/
theorem twoUnknowns_false_fails : (twoUnknowns false).Exact 1 ∧
    (∀ d < 2, ((twoUnknowns false).domains d).Kplus_R.cols ≠ 0 →
      ((twoUnknowns false).domains d).B0.nnz ≠ 0) ∧
    (∃ x lambda, (twoUnknowns false).Solves 1 (fun d _ => if d = 0 then 1 else 0) x lambda) ∧
    ¬∃ x lambda, (twoUnknowns false).multKplusGlobal_l (fun d _ => if d = 0 then 1 else 0) = some x ∧
      (twoUnknowns false).Solves 1 (fun d _ => if d = 0 then 1 else 0) x lambda := by
  refine ⟨twoUnknowns_false_exact, fun d _ hcols => absurd rfl hcols,
    ⟨fun _ _ => 1 / 2, fun _ => 1 / 2, ?_, ?_⟩, ?_⟩
  · intro l hl
    obtain rfl : l = 0 := by omega
    decide +kernel
  · intro d hd i hi
    obtain rfl : i = 0 := Nat.lt_one_iff.mp hi
    obtain rfl | rfl : d = 0 ∨ d = 1 := by simp only [twoUnknowns] at hd; omega
    · decide +kernel
    · decide +kernel
  · rintro ⟨x, lambda, hsome, -⟩
    have hnone : (twoUnknowns false).multKplusGlobal_l (fun d _ => if d = 0 then 1 else 0) = none := rfl
    rw [hnone] at hsome
    cases hsome

lemma twoUnknowns_true_Sa : (twoUnknowns true).Sa 1
    = mat _ _ fun i j => if i = j then 1 / 2 else -1 / 2 := by
  have hF0 : (twoUnknowns true).createF0.symEntry 0 0 = 2 := by decide +kernel
  have hinv : (mat 1 1 (twoUnknowns true).createF0.symEntry)⁻¹ = mat 1 1 fun _ _ => 1 / 2 := by
    refine inv_eq_right_inv ?_
    rw [mat_mul]
    ext i j
    rw [Fin.fin_one_eq_zero i, Fin.fin_one_eq_zero j]
    simp [hF0]
  rw [Cluster.Sa, hinv, mat_transpose, mat_mul, mat_mul]
  refine mat_congr fun i hi j hj => ?_
  simp only [sum_range_one]
  have hrows : (twoUnknowns true).createG0.rows = 2 := by decide +kernel
  rw [hrows] at hi hj
  have h₀ : (twoUnknowns true).createG0.entry 0 0 = -1 := by decide +kernel
  have h₁ : (twoUnknowns true).createG0.entry 1 0 = 1 := by decide +kernel
  interval_cases i <;> interval_cases j <;> simp [h₀, h₁] <;> norm_num

lemma twoUnknowns_true_exact : (twoUnknowns true).Exact 1 where
  domains_pos := Nat.two_pos
  domain := fun _ _ => oneUnknown_exact _ _
  F0_exact := twoUnknowns_F0_exact true
  Sa_exact := by
    have hrows : (twoUnknowns true).createG0.rows = 2 := by decide +kernel
    refine ⟨mat _ _ fun _ _ => 1 / 2, fun b => ?_, fun u v huv => ?_⟩
    · rw [twoUnknowns_true_Sa, add_mulVec, mat_mulVec, mat_mulVec, ← Numbered.vec_add, vec_eq_iff, hrows]
      intro i hi
      interval_cases i <;> simp [sum_range_succ, twoUnknowns] <;> ring
    · obtain ⟨u, rfl⟩ := exists_vec u
      obtain ⟨v, rfl⟩ := exists_vec v
      rw [twoUnknowns_true_Sa, mat_mulVec, mat_mulVec, vec_eq_iff, hrows] at huv
      rw [twoUnknowns_true_Sa, mat_mulVec]
      refine vec_eq_iff (y := 0) |>.mpr ?_
      rw [hrows]
      have h₀ := huv 0 (by omega)
      have h₁ := huv 1 (by omega)
      simp only [sum_range_succ, sum_range_zero] at h₀ h₁
      norm_num at h₀ h₁
      intro i hi
      interval_cases i <;> simp only [sum_range_succ, sum_range_zero] <;> norm_num <;> linarith

theorem multKplusGlobal_l_solves_iff_two :
    (∃ x lambda, (twoUnknowns true).multKplusGlobal_l (fun d _ => if d = 0 then 1 else -1) = some x ∧
      (twoUnknowns true).Solves 1 (fun d _ => if d = 0 then 1 else -1) x lambda) ↔
    (twoUnknowns true).Fits 1 := by
  refine twoUnknowns_true_exact.multKplusGlobal_l_solves_iff _ ⟨0, 1, ?_, ?_⟩
  · intro l hl
    simp
  · intro d hd i hi
    obtain rfl : i = 0 := Nat.lt_one_iff.mp hi
    obtain rfl | rfl : d = 0 ∨ d = 1 := by simp only [twoUnknowns] at hd; omega
    · decide +kernel
    · decide +kernel

end Espreso
