import Espreso.Lib.Tree
import Espreso.Solver.CooMatrix
import Espreso.Solver.VecD

/-!
# The matrix of the coarse problem

`ClusterBase::Create_G_perCluster` multiplies the transposed kernel of every domain with its gluing
and collects the products by a binary tree. `MatAppend` leaves a matrix that stores nothing out,
with its rows; `CreateVec_d_perCluster` counts them.

* `GluedCluster.G1Right`, `GluedCluster.StoresRows` — the right matrix, and the condition.
* **`GluedCluster.Sized.g1Right_iff`** — `G1` is right if and only if the condition holds.
-/

namespace Espreso

open Finset Layout

/-! ## The code -/

/-- The loop over the entries of `B_in`: `tmpG`, the last row first, every row with its index. -/
def addEntry (R_in : DenseMatrix) (tmpG : List (ℕ × (ℕ → ℚ))) (e : ℕ × ℕ × ℚ) :
    List (ℕ × (ℕ → ℚ)) :=
  match tmpG with
  | [] => [(e.1, fun r => e.2.2 * R_in.entry r (e.2.1 - 1))]
  | g :: done =>
    if g.1 = e.1 then (g.1, fun r => g.2 r + e.2.2 * R_in.entry r (e.2.1 - 1)) :: done
    else (e.1, fun r => e.2.2 * R_in.entry r (e.2.1 - 1)) :: g :: done

/-- The entries of `G_out`. -/
def storedEntries (rows : ℕ) (tmpG : List (ℕ × (ℕ → ℚ))) : List (ℕ × ℕ × ℚ) :=
  tmpG.flatMap fun g => (List.range rows).filterMap fun j =>
    if g.2 j ≠ 0 then some (j + 1, g.1, g.2 j) else none

/-- **`ClusterBase::Create_G_perSubdomain`** -/
def createG_perSubdomain (R_in : DenseMatrix) (B_in : CooMatrix) : SparseMatrix :=
  CooMatrix.convertToCSRwithSort {
    rows := R_in.rows
    cols := B_in.rows
    entries :=
      if 0 < B_in.nnz then
        storedEntries R_in.rows (B_in.entries.foldl (addEntry R_in) []).reverse
      else [] }

inductive FETI_CONJ_PROJECTOR
  | NONE
  | GENEO
  | CONJ_R
  | CONJ_K
  deriving DecidableEq

/-- The configuration that `Create_G_perCluster` reads. -/
structure GluingConfiguration extends FETIConfiguration where
  conjugate_projector : FETI_CONJ_PROJECTOR

/-- The kernels and the gluing of a domain. -/
structure GluedDomain extends KernelDomain where
  Kplus_origR : DenseMatrix
  B1 : CooMatrix

namespace GluedDomain

variable (cfg : GluingConfiguration) (d : GluedDomain)

/-- `Kplus_R.swap(Kplus_origR)` for the conjugate projectors. -/
def swapped : GluedDomain :=
  if cfg.conjugate_projector = .CONJ_R ∨ cfg.conjugate_projector = .CONJ_K then
    { d with Kplus_R := d.Kplus_origR, Kplus_origR := d.Kplus_R }
  else d

/-- `R_d`: the kernel of `G1`, and of `G2` for `symmetric = false`. -/
def used (symmetric : Bool) : DenseMatrix :=
  (d.swapped cfg).kernel cfg.toFETIConfiguration symmetric

/-- `tmp_Mat[d]` and `tmp_Mat2[d]`.  A kernel has `rows * cols` values. -/
def tmp_Mat (symmetric : Bool) : SparseMatrix :=
  if (d.swapped cfg).Kplus_R.rows * (d.swapped cfg).Kplus_R.cols ≠ 0 then
    createG_perSubdomain
      (DenseMatrix.ofSparse (d.used cfg symmetric).convertDenseToCSR.matTranspose) d.B1
  else SparseMatrix.empty

end GluedDomain

/-- What `Create_G_perCluster` uses of a cluster. -/
structure GluedCluster where
  SYMMETRIC_SYSTEM : Bool
  domains_size : ℕ
  domains : ℕ → GluedDomain

namespace GluedCluster

variable (cfg : GluingConfiguration) (c : GluedCluster)

/-- The reduction, and the factor `-1`. -/
def collectG (symmetric : Bool) : SparseMatrix :=
  (Tree.reduce (if cfg.USE_HFETI then SparseMatrix.matAddInPlace else SparseMatrix.matAppend)
    c.domains_size (Nat.clog 2 c.domains_size) (fun d => (c.domains d).tmp_Mat cfg symmetric)
    0).matScale (-1)

/-- **`ClusterBase::Create_G_perCluster`**: `G1`. -/
def G1 : SparseMatrix := c.collectG cfg true

end GluedCluster

/-! ## What it has to compute -/

namespace GluedDomain

variable (cfg : GluingConfiguration) (m : ℕ) (d : GluedDomain)

/-- The entry of `R_dᵀ B1_dᵀ`. -/
def product (q l : ℕ) : ℚ := (d.used cfg true).kernelProduct (fun i => d.B1.entry l i) q

/-- `B1` is sorted by rows, has `m` rows and as many columns as the kernel has rows, and `Kplus_R`
is empty only if the kernel is. -/
structure Sized : Prop where
  B1_rows : d.B1.rows = m
  B1_sorted : (d.B1.entries.map Prod.fst).Pairwise (· ≤ ·)
  B1_row : ∀ e ∈ d.B1.entries, 0 < e.1 ∧ e.1 ≤ m
  B1_col : ∀ e ∈ d.B1.entries, 0 < e.2.1 ∧ ((d.used cfg true).cols ≠ 0 →
    e.2.1 ≤ (d.used cfg true).rows)
  kernel : (d.swapped cfg).Kplus_R.rows * (d.swapped cfg).Kplus_R.cols = 0 →
    (d.used cfg true).cols = 0

end GluedDomain

namespace GluedCluster

variable (cfg : GluingConfiguration) (m : ℕ) (c : GluedCluster)

/-- The number of rows of `R_dᵀ B1_dᵀ`. -/
def height (d : ℕ) : ℕ := ((c.domains d).used cfg true).cols

def sumHeight : ℕ := (range c.domains_size).sup (c.height cfg)

/-- **The right `G1`**: minus the products one after the other, and minus their sum for a hybrid
cluster. -/
def G1Right : Prop :=
  if cfg.USE_HFETI then
    (c.G1 cfg).rows = c.sumHeight cfg ∧
      ∀ q l, (c.G1 cfg).entry q l = -∑ d ∈ range c.domains_size, (c.domains d).product cfg q l
  else
    (c.G1 cfg).rows = start (c.height cfg) c.domains_size ∧
      ∀ d < c.domains_size, ∀ q < c.height cfg d, ∀ l,
        (c.G1 cfg).entry (start (c.height cfg) d + q) l = -(c.domains d).product cfg q l

/-- The domains fit; in a hybrid cluster all kernels that are not empty have as many vectors. -/
structure Sized : Prop where
  domains_pos : 0 < c.domains_size
  domain : ∀ d < c.domains_size, (c.domains d).Sized cfg m
  uniform : cfg.USE_HFETI = true → ∀ d < c.domains_size,
    c.height cfg d = 0 ∨ c.height cfg d = c.sumHeight cfg

def Stores (d : ℕ) : Prop := ∃ q l, (c.domains d).product cfg q l ≠ 0

/-- **The condition**. Wherever a domain with a kernel is in a right block of the tree, a product of
the block is not zero; in a hybrid cluster a product is not zero, or the first domain has a kernel.
-/
def StoresRows : Prop :=
  if cfg.USE_HFETI then
    (∃ d < c.domains_size, c.Stores cfg d) ∨ c.height cfg 0 = c.sumHeight cfg
  else
    ∀ d < c.domains_size, c.height cfg d ≠ 0 → ∀ l, (d / 2 ^ l) % 2 = 1 →
      ∃ e < c.domains_size, e / 2 ^ l = d / 2 ^ l ∧ c.Stores cfg e

end GluedCluster

/-! ## One domain -/

section Rows

variable {R_in : DenseMatrix} {tmpG : List (ℕ × (ℕ → ℚ))}

/-- The values of row `l` in `tmpG`. -/
def groupValue (tmpG : List (ℕ × (ℕ → ℚ))) (l r : ℕ) : ℚ :=
  ((tmpG.filter fun g => g.1 = l).map fun g => g.2 r).sum

lemma groupValue_cons (g : ℕ × (ℕ → ℚ)) (l r : ℕ) :
    groupValue (g :: tmpG) l r = (if g.1 = l then g.2 r else 0) + groupValue tmpG l r := by
  by_cases h : g.1 = l <;> simp [groupValue, h]

lemma groupValue_addEntry (e : ℕ × ℕ × ℚ) (l r : ℕ) :
    groupValue (addEntry R_in tmpG e) l r = groupValue tmpG l r
      + if e.1 = l then e.2.2 * R_in.entry r (e.2.1 - 1) else 0 := by
  cases tmpG with
  | nil => rw [addEntry, groupValue_cons, add_comm]
  | cons g done =>
      rw [addEntry]
      split_ifs with hrow hl hl
      · rw [groupValue_cons, groupValue_cons, if_pos (hrow.trans hl), if_pos (hrow.trans hl)]
        ring
      · rw [groupValue_cons, groupValue_cons, if_neg fun h => hl (hrow.symm.trans h),
          if_neg fun h => hl (hrow.symm.trans h), add_zero]
      · rw [groupValue_cons, if_pos hl, add_comm]
      · rw [groupValue_cons, if_neg hl, zero_add, add_zero]

lemma groupValue_foldl (es : List (ℕ × ℕ × ℚ)) (tmpG : List (ℕ × (ℕ → ℚ))) (l r : ℕ) :
    groupValue (es.foldl (addEntry R_in) tmpG) l r = groupValue tmpG l r
      + ((es.filter fun e => e.1 = l).map fun e => e.2.2 * R_in.entry r (e.2.1 - 1)).sum := by
  induction es generalizing tmpG with
  | nil => simp
  | cons e es ih =>
      rw [List.foldl_cons, ih, groupValue_addEntry]
      by_cases he : e.1 = l <;> simp [he, add_assoc]

lemma pairwise_foldl (es : List (ℕ × ℕ × ℚ)) (tmpG : List (ℕ × (ℕ → ℚ)))
    (hes : (es.map Prod.fst).Pairwise (· ≤ ·)) (hG : (tmpG.map Prod.fst).Pairwise (· > ·))
    (hle : ∀ g ∈ tmpG, ∀ e ∈ es, g.1 ≤ e.1) :
    ((es.foldl (addEntry R_in) tmpG).map Prod.fst).Pairwise (· > ·) := by
  induction es generalizing tmpG with
  | nil => exact hG
  | cons e es ih =>
      rw [List.map_cons, List.pairwise_cons] at hes
      have hnext : ∀ e' ∈ es, e.1 ≤ e'.1 := fun e' he' => hes.1 _ (List.mem_map_of_mem he')
      have hstep : ((addEntry R_in tmpG e).map Prod.fst).Pairwise (· > ·) ∧
          ∀ g ∈ addEntry R_in tmpG e, g.1 ≤ e.1 := by
        cases tmpG with
        | nil => exact ⟨List.pairwise_singleton _ _, fun g hg => by
            rw [List.mem_singleton.mp hg]⟩
        | cons g done =>
            have hbefore : ∀ g' ∈ g :: done, g'.1 ≤ e.1 := fun g' hg' =>
              hle g' hg' e List.mem_cons_self
            rw [addEntry]
            split_ifs with hrow
            · refine ⟨hG, fun g' hg' => ?_⟩
              rcases List.mem_cons.mp hg' with rfl | hg'
              · exact hrow.le
              · exact hbefore g' (List.mem_cons_of_mem _ hg')
            · have hlt : g.1 < e.1 := lt_of_le_of_ne (hbefore g List.mem_cons_self) hrow
              refine ⟨?_, fun g' hg' => ?_⟩
              · rw [List.map_cons, List.pairwise_cons]
                refine ⟨fun l hl => ?_, hG⟩
                obtain ⟨g', hg', rfl⟩ := List.mem_map.mp hl
                rcases List.mem_cons.mp hg' with rfl | hdone
                · exact hlt
                · exact lt_trans ((List.pairwise_cons.mp hG).1 _ (List.mem_map_of_mem hdone)) hlt
              · rcases List.mem_cons.mp hg' with rfl | hg'
                · exact le_refl _
                · exact hbefore g' hg'
      rw [List.foldl_cons]
      exact ih _ hes.2 hstep.1 fun g hg e' he' => (hstep.2 g hg).trans (hnext e' he')

lemma mem_addEntry {e : ℕ × ℕ × ℚ} {g : ℕ × (ℕ → ℚ)} (hg : g ∈ addEntry R_in tmpG e) :
    g.1 ∈ tmpG.map Prod.fst ∨ g.1 = e.1 := by
  cases tmpG with
  | nil => exact Or.inr (congrArg Prod.fst (List.mem_singleton.mp hg))
  | cons g' done =>
      rw [addEntry] at hg
      split_ifs at hg
      · rcases List.mem_cons.mp hg with rfl | hdone
        · exact Or.inl List.mem_cons_self
        · exact Or.inl (List.mem_cons_of_mem _ (List.mem_map_of_mem hdone))
      · rcases List.mem_cons.mp hg with rfl | hdone
        · exact Or.inr rfl
        · exact Or.inl (List.mem_map_of_mem hdone)

lemma mem_foldl_addEntry {es : List (ℕ × ℕ × ℚ)} {g : ℕ × (ℕ → ℚ)}
    (hg : g ∈ es.foldl (addEntry R_in) tmpG) : g.1 ∈ tmpG.map Prod.fst ∨ g.1 ∈ es.map Prod.fst := by
  induction es generalizing tmpG with
  | nil => exact Or.inl (List.mem_map_of_mem hg)
  | cons e es ih =>
      rcases ih hg with hmem | hmem
      · obtain ⟨g', hg', heq⟩ := List.mem_map.mp hmem
        rw [← heq]
        rcases mem_addEntry hg' with hbefore | hnew
        · exact Or.inl hbefore
        · exact Or.inr (hnew ▸ List.mem_cons_self)
      · exact Or.inr (List.mem_cons_of_mem _ hmem)

lemma groupValue_eq_sum (tmpG : List (ℕ × (ℕ → ℚ))) (l r : ℕ) :
    groupValue tmpG l r = (tmpG.map fun g => if g.1 = l then g.2 r else 0).sum := by
  induction tmpG with
  | nil => rfl
  | cons g tmpG ih => rw [groupValue_cons, ih, List.map_cons, List.sum_cons]

lemma groupValue_of_notMem {l : ℕ} (hl : l ∉ tmpG.map Prod.fst) (r : ℕ) :
    groupValue tmpG l r = 0 := by
  have hfilter : (tmpG.filter fun g => g.1 = l) = [] := by
    refine List.filter_eq_nil_iff.mpr fun g hg hrow => hl ?_
    exact List.mem_map.mpr ⟨g, hg, of_decide_eq_true hrow⟩
  rw [groupValue, hfilter]
  rfl

lemma groupValue_reverse (l r : ℕ) : groupValue tmpG.reverse l r = groupValue tmpG l r := by
  rw [groupValue_eq_sum, groupValue_eq_sum, List.map_reverse, List.sum_reverse]

lemma groupValue_of_mem (hG : (tmpG.map Prod.fst).Nodup) {g : ℕ × (ℕ → ℚ)} (hg : g ∈ tmpG) (r : ℕ) :
    groupValue tmpG g.1 r = g.2 r := by
  induction tmpG with
  | nil => exact absurd hg List.not_mem_nil
  | cons g' tmpG ih =>
      rw [List.map_cons, List.nodup_cons] at hG
      rw [groupValue_cons]
      rcases List.mem_cons.mp hg with rfl | hmem
      · rw [if_pos rfl, groupValue_of_notMem hG.1, add_zero]
      · have hne : g'.1 ≠ g.1 := fun heq => hG.1 (heq ▸ List.mem_map_of_mem hmem)
        rw [if_neg hne, zero_add, ih hG.2 hmem]

lemma filter_storedEntries {rows q : ℕ} (hq : q < rows) :
    (storedEntries rows tmpG).filter (fun e => e.1 = q + 1)
      = tmpG.flatMap fun g => if g.2 q ≠ 0 then [(q + 1, g.1, g.2 q)] else [] := by
  have hrow : ∀ (g : ℕ × (ℕ → ℚ)) (n : ℕ), ((List.range n).filterMap fun j =>
      if g.2 j ≠ 0 then some (j + 1, g.1, g.2 j) else none).filter (fun e => e.1 = q + 1)
        = if q < n ∧ g.2 q ≠ 0 then [(q + 1, g.1, g.2 q)] else [] := by
    intro g n
    induction n with
    | zero => simp
    | succ n ih =>
        rw [List.range_succ, List.filterMap_append, List.filter_append, ih]
        rcases lt_trichotomy q n with hlt | rfl | hlt
        · by_cases hn : g.2 n = 0 <;> simp [hn, hlt, hlt.ne', Nat.lt_succ_of_lt hlt]
        · by_cases hn : g.2 q = 0 <;> simp [hn]
        · by_cases hn : g.2 n = 0 <;>
            simp [hn, hlt.ne, not_lt.mpr hlt.le, not_lt.mpr (Nat.succ_le_of_lt hlt)]
  rw [storedEntries, List.filter_flatMap]
  refine List.flatMap_congr fun g _ => ?_
  rw [hrow]
  simp [hq]

end Rows

section Subdomain

variable {R_in : DenseMatrix} {B_in : CooMatrix}

/-- `tmpG` after the loop. -/
def groups (R_in : DenseMatrix) (B_in : CooMatrix) : List (ℕ × (ℕ → ℚ)) :=
  (B_in.entries.foldl (addEntry R_in) []).reverse

lemma createG_perSubdomain_eq (R_in : DenseMatrix) (B_in : CooMatrix) :
    createG_perSubdomain R_in B_in = CooMatrix.convertToCSRwithSort
      ⟨R_in.rows, B_in.rows, storedEntries R_in.rows (groups R_in B_in)⟩ := by
  rw [createG_perSubdomain, groups]
  by_cases hnnz : 0 < B_in.nnz
  · rw [if_pos hnnz]
  · have hnil : B_in.entries = [] := List.length_eq_zero_iff.mp (Nat.eq_zero_of_not_pos hnnz)
    rw [if_neg hnnz, hnil]
    rfl

@[simp] lemma rows_createG_perSubdomain : (createG_perSubdomain R_in B_in).rows = R_in.rows := by
  rw [createG_perSubdomain_eq, SparseMatrix.rows, CooMatrix.convertToCSRwithSort, List.length_map,
    List.length_range]

@[simp] lemma cols_createG_perSubdomain : (createG_perSubdomain R_in B_in).cols = B_in.rows := by
  rw [createG_perSubdomain_eq]
  rfl

lemma rowAt_createG {q : ℕ} (hq : q < R_in.rows) :
    ((createG_perSubdomain R_in B_in).rowAt q).Perm ((groups R_in B_in).flatMap fun g =>
      if g.2 q ≠ 0 then [(g.1 - 1, g.2 q)] else []) := by
  rw [createG_perSubdomain_eq, CooMatrix.convertToCSRwithSort, SparseMatrix.rowAt_map_range,
    if_pos hq]
  refine (List.perm_insertionSort _ _).trans (List.Perm.of_eq ?_)
  rw [filter_storedEntries hq, List.map_flatMap]
  refine List.flatMap_congr fun g _ => ?_
  split_ifs <;> rfl

lemma mem_groups {g : ℕ × (ℕ → ℚ)} (hg : g ∈ groups R_in B_in) :
    g.1 ∈ B_in.entries.map Prod.fst :=
  (mem_foldl_addEntry (List.mem_reverse.mp hg)).resolve_left List.not_mem_nil

lemma entry_createG (hrow : ∀ e ∈ B_in.entries, 0 < e.1) {q : ℕ} (hq : q < R_in.rows) (l : ℕ) :
    (createG_perSubdomain R_in B_in).entry q l
      = ((B_in.entries.filter fun e => e.1 = l + 1).map fun e =>
          e.2.2 * R_in.entry q (e.2.1 - 1)).sum := by
  have hterm : ∀ g ∈ groups R_in B_in,
      Row.entry (if g.2 q ≠ 0 then [(g.1 - 1, g.2 q)] else []) l
        = if g.1 = l + 1 then g.2 q else 0 := by
    intro g hg
    obtain ⟨e, he, heq⟩ := List.mem_map.mp (mem_groups hg)
    have hpos := hrow e he
    have hiff : g.1 - 1 = l ↔ g.1 = l + 1 := by omega
    split_ifs with hzero hl hl
    · rw [Row.entry_cons, Row.entry_nil, add_zero, if_pos (hiff.mpr hl)]
    · rw [Row.entry_cons, Row.entry_nil, add_zero, if_neg fun h => hl (hiff.mp h)]
    · rw [Row.entry_nil, not_not.mp hzero]
    · rw [Row.entry_nil]
  rw [SparseMatrix.entry, Row.entry_perm (rowAt_createG hq), Row.entry_flatMap,
    List.map_congr_left hterm, ← groupValue_eq_sum, groups, groupValue_reverse, groupValue_foldl]
  exact zero_add _

lemma createG_bounded (hrow : ∀ e ∈ B_in.entries, 0 < e.1 ∧ e.1 ≤ B_in.rows) :
    (createG_perSubdomain R_in B_in).Bounded := by
  intro row hmem e he
  obtain ⟨q, hq, rfl⟩ := List.getElem_of_mem hmem
  have hq' : q < R_in.rows := lt_of_lt_of_eq hq rows_createG_perSubdomain
  have hrowAt : (createG_perSubdomain R_in B_in).csr[q]
      = (createG_perSubdomain R_in B_in).rowAt q := (List.getD_eq_getElem _ _ hq).symm
  rw [hrowAt, (rowAt_createG hq').mem_iff] at he
  obtain ⟨g, hg, he⟩ := List.mem_flatMap.mp he
  obtain ⟨e', he', heq⟩ := List.mem_map.mp (mem_groups hg)
  have hpos := hrow e' he'
  rw [cols_createG_perSubdomain]
  split_ifs at he
  · rw [List.mem_singleton.mp he]
    have hlt : g.1 - 1 < B_in.rows := by omega
    exact hlt
  · exact absurd he List.not_mem_nil

lemma nnz_createG_eq_zero_iff (hrow : ∀ e ∈ B_in.entries, 0 < e.1)
    (hsorted : (B_in.entries.map Prod.fst).Pairwise (· ≤ ·)) :
    (createG_perSubdomain R_in B_in).nnz = 0 ↔
      ∀ q < R_in.rows, ∀ l, (createG_perSubdomain R_in B_in).entry q l = 0 := by
  refine ⟨fun h q _ l => SparseMatrix.entry_of_nnz h q l, fun hzero => ?_⟩
  refine SparseMatrix.nnz_eq_zero_iff.mpr fun row hmem => ?_
  obtain ⟨q, hq, rfl⟩ := List.getElem_of_mem hmem
  have hq' : q < R_in.rows := lt_of_lt_of_eq hq rows_createG_perSubdomain
  have hrowAt : (createG_perSubdomain R_in B_in).csr[q]
      = (createG_perSubdomain R_in B_in).rowAt q := (List.getD_eq_getElem _ _ hq).symm
  rw [hrowAt]
  refine List.eq_nil_iff_forall_not_mem.mpr fun e he => ?_
  obtain ⟨g, hg, he⟩ := List.mem_flatMap.mp ((rowAt_createG hq').mem_iff.mp he)
  split_ifs at he with hvalue
  · -- the value of a row of `B_in` is the entry in its column
    refine hvalue ?_
    have hdistinct : ((groups R_in B_in).map Prod.fst).Nodup := by
      rw [groups, List.map_reverse, List.nodup_reverse]
      exact (pairwise_foldl B_in.entries [] hsorted List.Pairwise.nil
        fun _ h => absurd h List.not_mem_nil).imp fun h => h.ne'
    obtain ⟨e', he', heq⟩ := List.mem_map.mp (mem_groups hg)
    have hpos := hrow e' he'
    rw [← groupValue_of_mem hdistinct hg q, groups, groupValue_reverse, groupValue_foldl]
    have hentry := hzero q hq' (g.1 - 1)
    rw [entry_createG hrow hq', show g.1 - 1 + 1 = g.1 by omega] at hentry
    exact (zero_add _).trans hentry
  · exact absurd he List.not_mem_nil

end Subdomain

lemma DenseMatrix.rows_transposed (D : DenseMatrix) :
    (DenseMatrix.ofSparse D.convertDenseToCSR.matTranspose).rows = D.cols :=
  SparseMatrix.rows_matTranspose

lemma DenseMatrix.entry_transposed {D : DenseMatrix} {q i : ℕ} (hq : q < D.cols) (hi : i < D.rows) :
    (DenseMatrix.ofSparse D.convertDenseToCSR.matTranspose).entry q i = D.entry i q := by
  rw [DenseMatrix.entry_ofSparse _ (by simpa using hq),
    DenseMatrix.convertDenseToCSR_bounded.entry_matTranspose,
    DenseMatrix.entry_convertDenseToCSR hi hq]

namespace GluedDomain

variable {cfg : GluingConfiguration} {m : ℕ} {d : GluedDomain}

lemma Sized.rows_tmp_Mat (h : d.Sized cfg m) :
    (d.tmp_Mat cfg true).rows = (d.used cfg true).cols := by
  rw [tmp_Mat]
  split_ifs with hnnz
  · rw [rows_createG_perSubdomain, DenseMatrix.rows_transposed]
  · rw [h.kernel (not_not.mp hnnz)]
    rfl

lemma Sized.entry_tmp_Mat (h : d.Sized cfg m) (q l : ℕ) :
    (d.tmp_Mat cfg true).entry q l = d.product cfg q l := by
  by_cases hq : q < (d.used cfg true).cols
  · have hnnz : (d.swapped cfg).Kplus_R.rows * (d.swapped cfg).Kplus_R.cols ≠ 0 := by
      intro hzero
      have := h.kernel hzero
      omega
    have hcol : ∀ e ∈ d.B1.entries, 0 < e.2.1 ∧ e.2.1 ≤ (d.used cfg true).rows := fun e he =>
      ⟨(h.B1_col e he).1, (h.B1_col e he).2 (by omega)⟩
    have hterm : ∀ e ∈ d.B1.entries.filter (fun e => e.1 = l + 1),
        e.2.2 * (DenseMatrix.ofSparse (d.used cfg true).convertDenseToCSR.matTranspose).entry q
            (e.2.1 - 1)
          = e.2.2 * (d.used cfg true).entry (e.2.1 - 1) q := by
      intro e he
      have hrange := hcol e (List.mem_of_mem_filter he)
      rw [DenseMatrix.entry_transposed hq (by omega)]
    rw [tmp_Mat, if_pos hnnz, entry_createG (fun e he => (h.B1_row e he).1)
      (lt_of_lt_of_eq hq (DenseMatrix.rows_transposed _).symm), List.map_congr_left hterm,
      CooMatrix.sum_row hcol l fun i => (d.used cfg true).entry i q, product,
      DenseMatrix.kernelProduct, if_pos hq]
    exact sum_congr rfl fun i _ => mul_comm _ _
  · rw [SparseMatrix.entry_eq_zero_of_rows (by rw [h.rows_tmp_Mat]; omega), product,
      DenseMatrix.kernelProduct, if_neg hq]

lemma Sized.tmp_Mat_bounded (h : d.Sized cfg m) : (d.tmp_Mat cfg true).Bounded := by
  rw [tmp_Mat]
  split_ifs
  · exact createG_bounded fun e he => ⟨(h.B1_row e he).1, h.B1_rows.symm ▸ (h.B1_row e he).2⟩
  · exact fun row hrow => absurd hrow List.not_mem_nil

lemma Sized.cols_tmp_Mat (h : d.Sized cfg m) (hnnz : (d.tmp_Mat cfg true).nnz ≠ 0) :
    (d.tmp_Mat cfg true).cols = m := by
  rw [tmp_Mat] at hnnz ⊢
  split_ifs at hnnz ⊢
  · rw [cols_createG_perSubdomain, h.B1_rows]
  · exact absurd rfl hnnz

lemma Sized.nnz_tmp_Mat (h : d.Sized cfg m) :
    (d.tmp_Mat cfg true).nnz ≠ 0 ↔ ∃ q l, d.product cfg q l ≠ 0 := by
  have hzero : (d.tmp_Mat cfg true).nnz = 0 ↔ ∀ q l, (d.tmp_Mat cfg true).entry q l = 0 := by
    refine ⟨fun hnnz => SparseMatrix.entry_of_nnz hnnz, fun hentry => ?_⟩
    rw [tmp_Mat] at hentry ⊢
    split_ifs at hentry ⊢
    · exact (nnz_createG_eq_zero_iff (fun e he => (h.B1_row e he).1) h.B1_sorted).mpr
        fun q _ l => hentry q l
    · rfl
  rw [ne_eq, hzero]
  simp only [h.entry_tmp_Mat, not_forall]

end GluedDomain

/-! ## The cluster -/

namespace SparseMatrix

variable {A B : SparseMatrix}

lemma nnz_matAppend (A B : SparseMatrix) : (A.matAppend B).nnz = A.nnz + B.nnz := by
  rw [matAppend]
  split_ifs with hB hA
  · rw [hA.1, Nat.zero_add]
  · simp [nnz]
  · omega

lemma csr_matAppend (A B : SparseMatrix) :
    (A.matAppend B).csr = A.csr ++ if B.nnz = 0 then [] else B.csr := by
  by_cases hB : B.nnz = 0
  · rw [matAppend, if_neg (not_not.mpr hB), if_pos hB, List.append_nil]
  · rw [matAppend, if_pos hB, if_neg hB]
    split_ifs with hA
    · have hnil : A.csr = [] := List.length_eq_zero_iff.mp hA.2.1
      rw [hnil, List.nil_append]
    · rfl

end SparseMatrix

namespace GluedCluster

variable {cfg : GluingConfiguration} {m : ℕ} {c : GluedCluster}

lemma Sized.kept_iff (h : c.Sized cfg m) {d : ℕ} (hd : d < c.domains_size) :
    Tree.Kept SparseMatrix.nnz c.domains_size (fun d => (c.domains d).tmp_Mat cfg true)
        (Nat.clog 2 c.domains_size) d
      ↔ ∀ l, (d / 2 ^ l) % 2 = 1 →
        ∃ e < c.domains_size, e / 2 ^ l = d / 2 ^ l ∧ c.Stores cfg e := by
  have hstores : ∀ l, (∃ e < c.domains_size, e / 2 ^ l = d / 2 ^ l ∧
      ((c.domains e).tmp_Mat cfg true).nnz ≠ 0)
        ↔ ∃ e < c.domains_size, e / 2 ^ l = d / 2 ^ l ∧ c.Stores cfg e := fun l =>
    exists_congr fun e => and_congr_right fun he => and_congr_right fun _ =>
      (h.domain e he).nnz_tmp_Mat
  refine ⟨fun hkept l hodd => ?_, fun hall l _ hodd => (hstores l).mpr (hall l hodd)⟩
  rcases lt_or_ge l (Nat.clog 2 c.domains_size) with hl | hl
  · exact (hstores l).mp (hkept l hl hodd)
  · -- above the last level there is no right block
    have hlt : d < 2 ^ l := lt_of_lt_of_le hd ((Nat.le_pow_clog Nat.one_lt_two _).trans
      (Nat.pow_le_pow_right Nat.two_pos hl))
    rw [Nat.div_eq_of_lt hlt] at hodd
    exact absurd hodd (by decide)

open Classical in
lemma Sized.csr_reduce (h : c.Sized cfg m) :
    (Tree.reduce SparseMatrix.matAppend c.domains_size (Nat.clog 2 c.domains_size)
        (fun d => (c.domains d).tmp_Mat cfg true) 0).csr
      = (List.range c.domains_size).flatMap fun d =>
          if ∀ l, (d / 2 ^ l) % 2 = 1 →
            ∃ e < c.domains_size, e / 2 ^ l = d / 2 ^ l ∧ c.Stores cfg e
          then ((c.domains d).tmp_Mat cfg true).csr else [] := by
  have hreduce := Tree.items_reduce (n := c.domains_size)
    (v := fun d => (c.domains d).tmp_Mat cfg true) SparseMatrix.nnz_matAppend
    SparseMatrix.csr_matAppend (Nat.clog 2 c.domains_size) 0 h.domains_pos (Nat.zero_mod _)
  rw [hreduce, Nat.sub_zero, min_eq_right (Nat.le_pow_clog Nat.one_lt_two _),
    ← List.range_eq_range']
  refine List.flatMap_congr fun d hd => ?_
  simp only [h.kept_iff (List.mem_range.mp hd)]

lemma Sized.length_tmp_Mat (h : c.Sized cfg m) {d : ℕ} (hd : d < c.domains_size) :
    ((c.domains d).tmp_Mat cfg true).csr.length = c.height cfg d :=
  (h.domain d hd).rows_tmp_Mat

lemma Sized.entry_reduce (h : c.Sized cfg m)
    (hcond : ∀ d < c.domains_size, c.height cfg d ≠ 0 → ∀ l, (d / 2 ^ l) % 2 = 1 →
      ∃ e < c.domains_size, e / 2 ^ l = d / 2 ^ l ∧ c.Stores cfg e)
    {d q : ℕ} (hd : d < c.domains_size) (hq : q < c.height cfg d) (l : ℕ) :
    (Tree.reduce SparseMatrix.matAppend c.domains_size (Nat.clog 2 c.domains_size)
        (fun d => (c.domains d).tmp_Mat cfg true) 0).entry (start (c.height cfg) d + q) l
      = (c.domains d).product cfg q l := by
  have hcsr : (Tree.reduce SparseMatrix.matAppend c.domains_size (Nat.clog 2 c.domains_size)
      (fun d => (c.domains d).tmp_Mat cfg true) 0).csr
        = (List.range c.domains_size).flatMap fun d => ((c.domains d).tmp_Mat cfg true).csr := by
    rw [h.csr_reduce]
    refine List.flatMap_congr fun d hd => ?_
    split_ifs with hkept
    · rfl
    · have hzero : c.height cfg d = 0 := by
        by_contra hne
        exact hkept (hcond d (List.mem_range.mp hd) hne)
      rw [eq_comm, ← List.length_eq_zero_iff, h.length_tmp_Mat (List.mem_range.mp hd), hzero]
  have hstart : start (fun d => ((c.domains d).tmp_Mat cfg true).csr.length) d
      = start (c.height cfg) d :=
    sum_congr rfl fun e he => h.length_tmp_Mat (lt_trans (mem_range.mp he) hd)
  have hget := Layout.getElem?_flatMap_range
    (fun d => ((c.domains d).tmp_Mat cfg true).csr) hd (j := q)
    (lt_of_lt_of_eq hq (h.length_tmp_Mat hd).symm)
  rw [hstart] at hget
  rw [SparseMatrix.entry, SparseMatrix.rowAt, hcsr, List.getD_eq_getElem?_getD, hget,
    ← List.getD_eq_getElem?_getD]
  exact (h.domain d hd).entry_tmp_Mat q l

open Classical in
lemma Sized.g1Right_iff_of_total (h : c.Sized cfg m) (hh : cfg.USE_HFETI = false) :
    c.G1Right cfg ↔ c.StoresRows cfg := by
  have hG1 : c.G1 cfg = (Tree.reduce SparseMatrix.matAppend c.domains_size
      (Nat.clog 2 c.domains_size) (fun d => (c.domains d).tmp_Mat cfg true) 0).matScale (-1) := by
    rw [G1, collectG, hh]
    rfl
  rw [G1Right, StoresRows, hh, hG1]
  simp only [Bool.false_eq_true, if_false]
  have hrows : (Tree.reduce SparseMatrix.matAppend c.domains_size (Nat.clog 2 c.domains_size)
      (fun d => (c.domains d).tmp_Mat cfg true) 0).rows
        = ∑ d ∈ range c.domains_size, if ∀ l, (d / 2 ^ l) % 2 = 1 →
            ∃ e < c.domains_size, e / 2 ^ l = d / 2 ^ l ∧ c.Stores cfg e
          then c.height cfg d else 0 := by
    rw [SparseMatrix.rows, h.csr_reduce, Layout.length_flatMap_range]
    refine sum_congr rfl fun d hd => ?_
    beta_reduce
    split_ifs
    · exact h.length_tmp_Mat (mem_range.mp hd)
    · rfl
  have hall : (∑ d ∈ range c.domains_size, if ∀ l, (d / 2 ^ l) % 2 = 1 →
      ∃ e < c.domains_size, e / 2 ^ l = d / 2 ^ l ∧ c.Stores cfg e then c.height cfg d else 0)
        = start (c.height cfg) c.domains_size ↔ ∀ d < c.domains_size, c.height cfg d ≠ 0 → ∀ l,
          (d / 2 ^ l) % 2 = 1 → ∃ e < c.domains_size, e / 2 ^ l = d / 2 ^ l ∧ c.Stores cfg e := by
    rw [start, sum_eq_sum_iff_of_le fun d _ => by split_ifs <;> omega]
    simp only [mem_range, ite_eq_left_iff]
    refine forall₂_congr fun d _ => ⟨fun hd hne => ?_, fun hd hnot => ?_⟩
    · by_contra hnot
      exact hne (hd hnot).symm
    · by_contra hne
      exact hnot (hd fun hzero => hne hzero.symm)
  rw [SparseMatrix.rows_matScale, hrows, hall]
  refine ⟨fun hright => hright.1, fun hcond => ⟨hcond, fun d hd q hq l => ?_⟩⟩
  rw [SparseMatrix.entry_matScale, h.entry_reduce hcond hd hq, neg_one_mul]

/-! ### Hybrid clusters -/

/-- `A` is the sum of the products of the domains `ks`; without entries it has the rows of the
first. -/
structure SumOfProducts (cfg : GluingConfiguration) (m : ℕ) (c : GluedCluster) (A : SparseMatrix)
    (ks : List ℕ) : Prop where
  fits : A.Fits (c.sumHeight cfg) m
  entry : ∀ q l, A.entry q l = (ks.map fun d => (c.domains d).product cfg q l).sum
  nnz : A.nnz ≠ 0 ↔ ∃ d ∈ ks, c.Stores cfg d
  rows : A.nnz = 0 → ∃ d, ks.head? = some d ∧ A.rows = c.height cfg d

lemma SumOfProducts.matAddInPlace (A B : SparseMatrix) (ks ks' : List ℕ)
    (hA : SumOfProducts cfg m c A ks) (hB : SumOfProducts cfg m c B ks') :
    SumOfProducts cfg m c (A.matAddInPlace B) (ks ++ ks') := by
  have hnnz : (A.matAddInPlace B).nnz ≠ 0 ↔ A.nnz ≠ 0 ∨ B.nnz ≠ 0 := by
    by_cases hzero : B.nnz = 0
    · rw [SparseMatrix.matAddInPlace, if_pos hzero]
      simp [hzero]
    · have hsize : A.nnz ≠ 0 → A.rows = B.rows ∧ A.cols = B.cols := fun hne => by
        obtain ⟨hr, hc⟩ := hA.fits.2 hne
        obtain ⟨hr', hc'⟩ := hB.fits.2 hzero
        exact ⟨hr.trans hr'.symm, hc.trans hc'.symm⟩
      exact iff_of_true (hA.fits.1.nnz_matAddInPlace hB.fits.1 hzero hsize) (Or.inr hzero)
  refine ⟨hA.fits.matAddInPlace hB.fits, fun q l => ?_, ?_, fun hzero => ?_⟩
  · rw [hA.fits.entry_matAddInPlace hB.fits, hA.entry, hB.entry, List.map_append, List.sum_append]
  · rw [hnnz, hA.nnz, hB.nnz]
    simp only [List.mem_append, or_and_right, exists_or]
  · have hAB : A.nnz = 0 ∧ B.nnz = 0 := by
      by_contra hne
      exact hnnz.mpr (by tauto) hzero
    obtain ⟨d, hhead, hrows⟩ := hA.rows hAB.1
    refine ⟨d, by rw [List.head?_append, hhead, Option.some_or], ?_⟩
    rw [SparseMatrix.matAddInPlace, if_pos hAB.2, hrows]

lemma Sized.sumOfProducts (h : c.Sized cfg m) (hh : cfg.USE_HFETI = true) {d : ℕ}
    (hd : d < c.domains_size) : SumOfProducts cfg m c ((c.domains d).tmp_Mat cfg true) [d] := by
  have hsized := h.domain d hd
  refine ⟨⟨hsized.tmp_Mat_bounded, fun hnnz => ⟨?_, hsized.cols_tmp_Mat hnnz⟩⟩, fun q l => ?_, ?_,
    fun _ => ⟨d, rfl, hsized.rows_tmp_Mat⟩⟩
  · have hpos := SparseMatrix.rows_pos_of_nnz hnnz
    rw [hsized.rows_tmp_Mat] at hpos ⊢
    exact (h.uniform hh d hd).resolve_left (Nat.ne_of_gt hpos)
  · rw [hsized.entry_tmp_Mat, List.map_singleton, List.sum_singleton]
  · rw [hsized.nnz_tmp_Mat]
    simp [Stores]

lemma Sized.g1Right_iff_of_hybrid (h : c.Sized cfg m) (hh : cfg.USE_HFETI = true) :
    c.G1Right cfg ↔ c.StoresRows cfg := by
  have hG1 : c.G1 cfg = (Tree.reduce SparseMatrix.matAddInPlace c.domains_size
      (Nat.clog 2 c.domains_size) (fun d => (c.domains d).tmp_Mat cfg true) 0).matScale (-1) := by
    rw [G1, collectG, hh]
    rfl
  have hsum := Tree.reduce_all SumOfProducts.matAddInPlace h.domains_pos
    (fun d hd => h.sumOfProducts hh hd) (Nat.le_pow_clog Nat.one_lt_two c.domains_size)
  rw [G1Right, StoresRows, hG1]
  simp only [hh, if_true]
  have hentry : ∀ q l, ((Tree.reduce SparseMatrix.matAddInPlace c.domains_size
      (Nat.clog 2 c.domains_size) (fun d => (c.domains d).tmp_Mat cfg true) 0).matScale (-1)).entry
        q l = -∑ d ∈ range c.domains_size, (c.domains d).product cfg q l := fun q l => by
    rw [SparseMatrix.entry_matScale, hsum.entry, sum_map_range, neg_one_mul]
  rw [and_iff_left hentry, SparseMatrix.rows_matScale]
  by_cases hstores : ∃ d < c.domains_size, c.Stores cfg d
  · have hnnz := hsum.nnz.mpr (by simpa using hstores)
    exact iff_of_true (hsum.fits.2 hnnz).1 (Or.inl hstores)
  · have hzero := not_not.mp (mt hsum.nnz.mp (by simpa using hstores))
    obtain ⟨d, hhead, hrows⟩ := hsum.rows hzero
    have hfirst : d = 0 := by
      rw [List.head?_range, if_neg (Nat.ne_of_gt h.domains_pos)] at hhead
      exact (Option.some.inj hhead).symm
    rw [hrows, hfirst, or_iff_right hstores]

/-- **`Create_G_perCluster`** gives the right `G1` if and only if the condition holds. -/
theorem Sized.g1Right_iff (h : c.Sized cfg m) : c.G1Right cfg ↔ c.StoresRows cfg := by
  by_cases hh : cfg.USE_HFETI = true
  · exact h.g1Right_iff_of_hybrid hh
  · exact h.g1Right_iff_of_total (Bool.not_eq_true _ |>.mp hh)

/-! ### Bars of two nodes -/

def totalAnalytic : GluingConfiguration where
  USE_HFETI := false
  regularization := .ANALYTIC
  conjugate_projector := .NONE

def gluedBar (entries : List (ℕ × ℕ × ℚ)) : GluedDomain :=
  let R : DenseMatrix := { rows := 2, cols := 1, dense_values := fun _ => 1 }
  { domain_global_index := 0
    Kplus_R := R
    Kplus_R2 := R
    Kplus_Rb := R
    Kplus_Rb2 := R
    Kplus_origR := R
    B1 := { rows := 1, cols := 2, entries := entries } }

/-- Two bars that are glued, and in between one without gluing, or two bars only. -/
def gluedBars (separate : Bool) : GluedCluster where
  SYMMETRIC_SYSTEM := true
  domains_size := if separate then 3 else 2
  domains d := gluedBar (if d = 0 then [(1, 2, 1)]
    else if separate ∧ d = 1 then [] else [(1, 1, -1)])

lemma sized_gluedBars : (gluedBars false).Sized totalAnalytic 1 where
  domains_pos := by decide
  domain d hd := by
    have hcases : d = 0 ∨ d = 1 := by
      have hlt : d < 2 := hd
      omega
    rcases hcases with rfl | rfl <;> exact ⟨rfl, by decide, by decide, by decide, by decide⟩
  uniform h := absurd h (by decide)

theorem g1Right_gluedBars : (gluedBars false).G1Right totalAnalytic := by
  refine (sized_gluedBars.g1Right_iff).mpr ?_
  rw [StoresRows, if_neg (by decide)]
  intro d hd _ l _
  have hcases : d = 0 ∨ d = 1 := by
    have hlt : d < 2 := hd
    omega
  refine ⟨d, hd, rfl, 0, 0, ?_⟩
  rcases hcases with rfl | rfl <;> decide +kernel

/-- The rows of the bar in between are missing. -/
theorem not_g1Right_gluedBars : ¬(gluedBars true).G1Right totalAnalytic := by
  intro h
  rw [G1Right, if_neg (by decide)] at h
  exact absurd h.1 (by decide +kernel)

end GluedCluster

end Espreso
