import Espreso.Constraints.Assemble
import Espreso.Constraints.Duplicity
import Espreso.LoadStep.Transient

/-!
# The system of the domains

The linear systems that a load step hands to the linear solver: the matrices of all domains and the
rows of `B1` with their right-hand side `B1c`.

* `Gluing`, `apply`, `rhs`, `applyTransposed` — the arrays of all domains as a system.
* **`arrays_assembled`** — what `B1DirichletInsert` and `B1GlueElements` leave.
-/

namespace Espreso

namespace LoadStep

open Finset Assembler Espreso.System

/-! ## The gluing matrices -/

section Gluing

variable (sys : System)

/-- `domainDOFCount` of the instance. -/
def domainDOFCount (d : Fin sys.domains) : ℕ := sys.DOFs * sys.dofOffset d sys.count

abbrev Primal := Vectors (domainDOFCount sys)

/-- `B1` and `B1c` of all domains of all ranks. -/
abbrev Gluing := Fin sys.domains → DomainInstance

def valueAt {k : ℕ} (x : Fin k → ℚ) (column : ℕ) : ℚ :=
  if h : column - 1 < k then x ⟨column - 1, h⟩ else 0

/-- The entries of `B1`. -/
def entries (i : DomainInstance) : List Entry :=
  (i.I_row_indices.zip (i.J_col_indices.zip i.V_values)).map fun p => ⟨p.1, p.2.1, p.2.2⟩

def rowProduct {k : ℕ} (es : List Entry) (x : Fin k → ℚ) (r : ℕ) : ℚ :=
  (es.map fun e => if e.row = r then e.value * valueAt x e.col else 0).sum

def rowValues (rows : List ℕ) (values : List ℚ) (r : ℕ) : ℚ :=
  ((rows.zip values).map fun p => if p.1 = r then p.2 else 0).sum

variable {sys}

/-- `∑ B1 x`, row by row. -/
def apply (B1 : Gluing sys) (x : Primal sys) (r : ℕ) : ℚ :=
  ∑ d, rowProduct (entries (B1 d)) (x d) r

def rhs (B1 : Gluing sys) (r : ℕ) : ℚ := ∑ d, rowValues (B1 d).I_row_indices (B1 d).B1c r

/-- `B1ᵀ lambda`, the `dualSolution` of the instance. -/
def applyTransposed (B1 : Gluing sys) (lambda : ℕ → ℚ) : Primal sys := fun d i =>
  ((entries (B1 d)).map fun e => if e.col - 1 = i.val then e.value * lambda e.row else 0).sum

/-- **A primal and a dual solution** of a system. -/
def IsSolution (K : Matrices (domainDOFCount sys)) (B1 : Gluing sys) (f : Primal sys)
    (s : Primal sys × Primal sys) : Prop :=
  apply B1 s.1 = rhs B1 ∧ (∃ lambda, s.2 = applyTransposed B1 lambda) ∧
    sum 1 (multiply K s.1) 1 s.2 = f

variable (sys) in
/-- **An exact linear solver** returns the primal solution of a system that has exactly one. -/
structure ExactLinearSolver where
  solve : Matrices (domainDOFCount sys) → Gluing sys → Primal sys →
    Option (Primal sys × Primal sys)
  solves : ∀ {K B1 f s}, solve K B1 f = some s →
    IsSolution K B1 f s ∧ ∀ t, IsSolution K B1 f t → t.1 = s.1

/-! ## Assembling `B1` -/

variable (sys) in
/-- `B1` after `Assembler::updateGluingMatrices` with `B1`. -/
def assembledB1 (redundant : Bool) (reduction : ℚ) : Gluing sys := fun d =>
  (sys.assembled redundant reduction (sys.rankOf d)).domains
    (d - sys.distribution.border (sys.rankOf d))

end Gluing

/-! ## The entries of a domain -/

section Arrays

lemma entries_eq {i : DomainInstance} {es : List Entry} (h : DomainInstance.clear.Grows i es) :
    entries i = es := by
  have hrows : i.I_row_indices = es.map Entry.row := h.rows
  have hcols : i.J_col_indices = es.map Entry.col := h.cols
  have hvalues : i.V_values = es.map Entry.value := h.values
  rw [entries, hrows, hcols, hvalues, List.zip_map', List.zip_map', List.map_map]
  exact List.map_id es

variable {k : ℕ}

lemma rowProduct_append (es fs : List Entry) (x : Fin k → ℚ) (r : ℕ) :
    rowProduct (es ++ fs) x r = rowProduct es x r + rowProduct fs x r := by
  rw [rowProduct, List.map_append, List.sum_append]
  rfl

lemma rowProduct_eq_zero {es : List Entry} {r : ℕ} (h : ∀ e ∈ es, e.row ≠ r) (x : Fin k → ℚ) :
    rowProduct es x r = 0 :=
  List.sum_eq_zero fun v hv => by
    obtain ⟨e, he, rfl⟩ := List.mem_map.mp hv
    exact if_neg (h e he)

lemma valueAt_sum (a b : ℚ) (x y : Fin k → ℚ) (column : ℕ) :
    valueAt (fun i => a * x i + b * y i) column = a * valueAt x column + b * valueAt y column := by
  simp only [valueAt]
  split_ifs
  · rfl
  · ring

lemma rowProduct_sum (es : List Entry) (a b : ℚ) (x y : Fin k → ℚ) (r : ℕ) :
    rowProduct es (fun i => a * x i + b * y i) r
      = a * rowProduct es x r + b * rowProduct es y r := by
  rw [rowProduct, rowProduct, rowProduct, ← List.sum_map_mul_left, ← List.sum_map_mul_left,
    ← List.sum_map_add]
  refine congrArg List.sum (List.map_congr_left fun e _ => ?_)
  rw [valueAt_sum]
  split_ifs
  · ring
  · ring

lemma rowValues_append {rows : List ℕ} {values tail : List ℚ} (rows' : List ℕ)
    (hlength : values.length = rows.length) (htail : ∀ c ∈ tail, c = 0) (r : ℕ) :
    rowValues (rows ++ rows') (values ++ tail) r = rowValues rows values r := by
  rw [rowValues, List.zip_append hlength.symm, List.map_append, List.sum_append, rowValues]
  refine add_eq_left.mpr (List.sum_eq_zero fun v hv => ?_)
  obtain ⟨q, hq, rfl⟩ := List.mem_map.mp hv
  rw [htail q.2 (List.of_mem_zip hq).2, ite_self]

lemma rowValues_eq_zero {rows : List ℕ} {r : ℕ} (h : ∀ row ∈ rows, row ≠ r) (values : List ℚ) :
    rowValues rows values r = 0 :=
  List.sum_eq_zero fun v hv => by
    obtain ⟨q, hq, rfl⟩ := List.mem_map.mp hv
    exact if_neg (h q.1 (List.of_mem_zip hq).1)

end Arrays

section Linear

variable {sys : System}

lemma apply_sum (B1 : Gluing sys) (a b : ℚ) (x y : Primal sys) (r : ℕ) :
    apply B1 (sum a x b y) r = a * apply B1 x r + b * apply B1 y r := by
  rw [apply, apply, apply, mul_sum, mul_sum, ← sum_add_distrib]
  exact sum_congr rfl fun d _ => rowProduct_sum _ a b (x d) (y d) r

lemma residual_iff {f x y : Primal sys} : sum 1 f (-1) x = y ↔ sum 1 x 1 y = f := by
  constructor
  all_goals
    rintro rfl
    funext d i
    simp only [sum]
    ring

lemma apply_zero (B1 : Gluing sys) : apply B1 0 = 0 := by
  have h := apply_sum B1 0 0 0 0
  simp only [zero_mul, add_zero] at h
  refine funext fun r => Eq.trans (congrArg (apply B1 · r) ?_) (h r)
  funext d i
  exact (by simp [sum])

end Linear

/-! ## What is assembled -/

section Assembled

variable {sys : System} {redundant : Bool} {reduction : ℚ}

variable (sys redundant) in
def dirichletEntries (d : ℕ) : List Entry :=
  (sys.domainConditions redundant d).map (sys.conditionEntry (sys.insertedRow redundant) d)

variable (sys redundant) in
def gluingEntries (d : ℕ) : List Entry :=
  (sys.domainMultipliers redundant d).map (sys.entry (sys.generatedRow redundant) d)

/-- **The arrays of a domain**: the Dirichlet rows with their values, then the gluing rows with
zeros. -/
structure Arrays (redundant : Bool) (d : Fin sys.domains) (i : DomainInstance) (values : List ℚ) :
    Prop where
  grows : DomainInstance.clear.Grows i (dirichletEntries sys redundant d
    ++ gluingEntries sys redundant d)
  length : values.length = (dirichletEntries sys redundant d).length
  B1c : ∃ tail : List ℚ, (∀ c ∈ tail, c = 0) ∧ i.B1c = values ++ tail

lemma blockDirichlet_eq (r : ℕ) :
    (sys.assembled redundant reduction r).blockDirichlet = sys.dirichletSize redundant := by
  by_cases hzero : (sys.constraints redundant r).dirichletSize = 0
  · simp only [System.assembled, B1GlueElements, B1DirichletInsert, if_pos hzero]
    exact hzero.symm
  · simp only [System.assembled, B1GlueElements, B1DirichletInsert, if_neg hzero]
    rfl

lemma inserted_ones {r d : ℕ} (hd : d < (sys.mesh r).ndomains) :
    ((B1DirichletInsert sys.DOFs redundant reduction (sys.mesh r) (sys.constraints redundant r)
      Instance.clear).domains d).Ones := by
  by_cases hzero : (sys.constraints redundant r).dirichletSize = 0
  · simp only [B1DirichletInsert, if_pos hzero]
    rfl
  · simp only [B1DirichletInsert, if_neg hzero, if_pos hd]
    exact DomainInstance.Ones.insertIntervals sys.DOFs redundant _ _
      (show DomainInstance.clear.Ones from rfl)

lemma arrays_assembled (redundant : Bool) (reduction : ℚ) (d : Fin sys.domains) :
    Arrays redundant d (assembledB1 sys redundant reduction d)
      ((sys.domainConditions redundant d).map (sys.conditionValue reduction)) := by
  obtain ⟨hr, hle, hlt⟩ := rankOf_spec d.isLt
  obtain ⟨e, he⟩ := Nat.exists_eq_add_of_le hle
  have hd : e < (sys.mesh (sys.rankOf d)).ndomains := by
    simp only [mesh]
    omega
  have hsub : d - sys.distribution.border (sys.rankOf d) = e := by omega
  obtain ⟨hinserted, -, hvalues⟩ := B1DirichletInsert_inserts redundant hr hd reduction
  have hglued := B1GlueElements_grows redundant hr hd (B1DirichletInsert sys.DOFs redundant reduction
    (sys.mesh (sys.rankOf d)) (sys.constraints redundant (sys.rankOf d)) Instance.clear)
  have hones : ((B1DirichletInsert sys.DOFs redundant reduction (sys.mesh (sys.rankOf d))
    (sys.constraints redundant (sys.rankOf d)) Instance.clear).domains e).Ones := inserted_ones hd
  rw [← he] at hinserted hvalues hglued
  rw [assembledB1, hsub]
  set inserted := (B1DirichletInsert sys.DOFs redundant reduction (sys.mesh (sys.rankOf d))
    (sys.constraints redundant (sys.rankOf d)) Instance.clear).domains e with hi
  have hB1c : ((sys.assembled redundant reduction (sys.rankOf d)).domains e).B1c
      = resize inserted.B1c
        ((sys.assembled redundant reduction (sys.rankOf d)).domains e).B1duplicity.length 0 := by
    simp only [System.assembled, B1GlueElements, if_pos hd]
    rfl
  have hlong : inserted.B1c.length
      ≤ ((sys.assembled redundant reduction (sys.rankOf d)).domains e).B1duplicity.length := by
    have hlength : inserted.B1duplicity.length = inserted.B1c.length := by
      rw [hones, List.length_replicate, hinserted.rows, hvalues, List.length_append,
        List.length_map, List.length_map, List.length_map]
      exact Nat.zero_add _
    simp only [System.assembled, B1GlueElements, if_pos hd]
    rw [← hlength]
    exact (List.prefix_append _ _).length_le
  refine ⟨⟨?_, ?_, ?_⟩, ?_, ?_⟩
  · rw [List.map_append, ← List.append_assoc]
    exact hglued.rows.trans (congrArg (· ++ _) hinserted.rows)
  · rw [List.map_append, ← List.append_assoc]
    exact hglued.cols.trans (congrArg (· ++ _) hinserted.cols)
  · rw [List.map_append, ← List.append_assoc]
    exact hglued.values.trans (congrArg (· ++ _) hinserted.values)
  · rw [dirichletEntries, List.length_map, List.length_map]
  · rw [hB1c, resize, List.take_of_length_le hlong, hvalues]
    refine ⟨_, fun c hc => ?_, rfl⟩
    exact (List.mem_replicate.mp hc).2

lemma rows_assembled (redundant : Bool) (reduction : ℚ) (d : Fin sys.domains) :
    (assembledB1 sys redundant reduction d).I_row_indices
      = (dirichletEntries sys redundant d ++ gluingEntries sys redundant d).map Entry.row :=
  (arrays_assembled redundant reduction d).grows.rows

lemma gluing_behind {d : ℕ} : ∀ e ∈ gluingEntries sys redundant d,
    sys.dirichletSize redundant < e.row := by
  intro e he
  obtain ⟨m, -, rfl⟩ := List.mem_map.mp he
  simp only [System.entry, System.generatedRow]
  cases redundant with
  | true =>
      simp only [if_true, System.gluingRow]
      omega
  | false =>
      simp only [Bool.false_eq_true, if_false]
      omega

lemma dirichlet_one {d : ℕ} : ∀ e ∈ dirichletEntries sys redundant d, e.value = 1 := by
  intro e he
  obtain ⟨m, -, rfl⟩ := List.mem_map.mp he
  rfl

end Assembled

end LoadStep

end Espreso
