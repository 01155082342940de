import Espreso.Constraints.ClustersMap

/-!
# Dirichlet rows

`Constraints::B1DirichletInsert` gives every prescribed degree of freedom of a node a row of its
own: with redundant multipliers one for each domain of the node, otherwise one for the first domain.
The rows, the columns, the two maps and the prescribed values come from different loops.

* `System.conditions`, `System.dirichletRow` — what the rows are for, and the intended numbering.
* **`dirichletRow_bijOn`** — the intended numbering takes every row once.
-/

namespace Espreso

open Layout

/-! ## The code -/

section Code

variable (DOFs : ℕ) (redundant : Bool)

/-- The body of the loop over the degrees of freedom in `B1DirichletInsert`. -/
def insertDOF (dirichletSize : ℕ) (interval : GluingInterval ConstrainedInterval)
    (dof LMoffset : ℕ) (inst : DomainInstance) : DomainInstance :=
  let pinterval := interval.interval.pinterval
  let size := (intervalDirichletNodes pinterval dof).length
  let first := interval.interval.intervalDirichletOffset + interval.dindex * size + LMoffset
  let I_row_indices := inst.I_row_indices ++ List.range' (first + 1) size
  { rows := dirichletSize
    nnz := I_row_indices.length
    I_row_indices := I_row_indices
    J_col_indices := inst.J_col_indices ++ (pinterval.regions dof).flatMap fun r =>
      r.nodes.map fun n => DOFs * (interval.DOFOffset + n - pinterval.begin') + dof + 1
    V_values := inst.V_values ++ List.replicate size 1
    B1duplicity := inst.B1duplicity ++ List.replicate size 1
    B1c := inst.B1c
    LB := resize inst.LB I_row_indices.length ⊥
    B1subdomainsMap := inst.B1subdomainsMap ++ List.range' first size
    domainDirichletSize := I_row_indices.length }

/-- The loop over the degrees of freedom of one interval in `B1DirichletInsert`. -/
def insertDOFs (dirichletSize : ℕ) (interval : GluingInterval ConstrainedInterval) :
    List ℕ → ℕ → DomainInstance → DomainInstance
  | [], _, inst => inst
  | dof :: dofs, LMoffset, inst =>
    if redundant ∨ interval.dindex = 0 then
      insertDOFs dirichletSize interval dofs
        (LMoffset + interval.ndomains
          * (intervalDirichletNodes interval.interval.pinterval dof).length)
        (insertDOF DOFs dirichletSize interval dof LMoffset inst)
    else insertDOFs dirichletSize interval dofs LMoffset inst

/-- The loop over the intervals of one domain in `B1DirichletInsert`. -/
def insertDomain (dirichletSize : ℕ) (gintervals : List (GluingInterval ConstrainedInterval))
    (inst : DomainInstance) : DomainInstance :=
  let inserted := gintervals.foldl
    (fun inst i => insertDOFs DOFs redundant dirichletSize i (List.range DOFs) 0 inst) inst
  { inserted with B1c := resize inserted.B1c inserted.V_values.length 0 }

/-- Writing values over an array from an offset on; the offset moves behind them. -/
def overwrite (values : List ℚ) (st : List ℚ × ℕ) : List ℚ × ℕ :=
  (st.1.take st.2 ++ values ++ st.1.drop (st.2 + values.length), st.2 + values.length)

/-- What the body of the loop over regions in `B1DirichletUpdate` writes. -/
def evaluate (internalForceReduction : ℚ) (r : Region) : List ℚ :=
  if internalForceReduction ≠ 1 then (r.nodes.map r.value).map (· * internalForceReduction)
  else r.nodes.map r.value

/-- `Constraints::B1DirichletUpdate` on one domain. -/
def updateDomain (internalForceReduction : ℚ)
    (gintervals : List (GluingInterval ConstrainedInterval)) (B1c : List ℚ) : List ℚ :=
  (gintervals.foldl (fun st interval => (List.range DOFs).foldl (fun st dof =>
    if redundant ∨ interval.dindex = 0 then
      (interval.interval.pinterval.regions dof).foldl
        (fun st r => overwrite (evaluate internalForceReduction r) st) st
    else st) st) (B1c, 0)).1

/-- The loop over the ranks of an interval in `B1DirichletInsert`. -/
def dirichletRanks (rank size : ℕ) : ℕ → List ℕ → List (List ℕ) × ℕ
  | LMoffset, [] => ([], LMoffset)
  | LMoffset, r :: rs =>
    let pushed := if r = rank
      then (List.range size).map fun n => [n + LMoffset, rank] else []
    if redundant then
      let rest := dirichletRanks rank size (LMoffset + size) rs
      (pushed ++ rest.1, rest.2)
    else (pushed, LMoffset + size)

/-- The loop over the degrees of freedom of an interval that fills `B1clustersMap`. -/
def dirichletClusters (rank : ℕ) (pinterval : ProcessInterval) : ℕ → List ℕ → List (List ℕ)
  | _, [] => []
  | LMoffset, dof :: dofs =>
    let pushed := dirichletRanks redundant rank (intervalDirichletNodes pinterval dof).length
      LMoffset pinterval.ranks
    pushed.1 ++ dirichletClusters rank pinterval pushed.2 dofs

end Code

/-- `Constraints::B1DirichletInsert` on one rank. -/
def B1DirichletInsert (DOFs : ℕ) (redundant : Bool) (internalForceReduction : ℚ) (mesh : Mesh)
    (constraints : Constraints) (inst : Instance) : Instance :=
  if constraints.dirichletSize = 0 then inst else
  { domains := fun d => if d < mesh.ndomains
      then
        let gintervals := gintervals ConstrainedInterval.pinterval (mesh.firstDomain + d) 0
          constraints.intervals
        let inserted := insertDomain DOFs redundant constraints.dirichletSize gintervals
          (inst.domains d)
        { inserted with
          B1c := updateDomain DOFs redundant internalForceReduction gintervals inserted.B1c }
      else inst.domains d
    B1clustersMap := inst.B1clustersMap ++ constraints.intervals.flatMap fun i =>
      dirichletClusters redundant mesh.rank i.pinterval i.intervalDirichletOffset (List.range DOFs)
    blockDirichlet := constraints.dirichletSize
    blockEqualityConstraints := inst.blockEqualityConstraints }

/-! ## The intended numbering -/

def prescribed (regions : List Region) (n : ℕ) : ℚ :=
  match regions.find? fun r => n ∈ r.nodes with
  | some r => r.value n
  | none => 0

lemma map_prescribed {regions : List Region} (h : (regions.flatMap Region.nodes).Nodup) :
    (regions.flatMap Region.nodes).map (prescribed regions)
      = regions.flatMap fun r => r.nodes.map r.value := by
  induction regions with
  | nil => rfl
  | cons r rs ih =>
      rw [List.flatMap_cons] at h
      obtain ⟨-, hrs, hdisj⟩ := List.nodup_append'.mp h
      rw [List.flatMap_cons, List.flatMap_cons, List.map_append, ← ih hrs]
      congr 1
      · refine List.map_congr_left fun n hn => ?_
        rw [prescribed, List.find?_cons_of_pos (by simpa using hn)]
      · refine List.map_congr_left fun n hn => ?_
        have hnr : n ∉ r.nodes := fun h => hdisj h hn
        rw [prescribed, List.find?_cons_of_neg (by simpa using hnr)]
        rfl

namespace System

variable (sys : System) (redundant : Bool)

/-- What a Dirichlet row is for: an interval, a degree of freedom, the position of a domain, and a
node of the interval. -/
abbrev Condition := ℕ × ℕ × (ℕ × ℕ)

/-- The prescribed nodes of an interval in the order of the regions. -/
def regionNodes (g dof : ℕ) : List ℕ := ((sys.interval g).regions dof).flatMap Region.nodes

/-- The number of domains of an interval with rows for its conditions. -/
def copies (g : ℕ) : ℕ := if redundant then sys.ndomains g else 1

/-- **What Dirichlet rows are for**: each prescribed degree of freedom of each node, for each domain
of the node (without redundant multipliers: for the first one). -/
def conditions : Set Condition :=
  {m | m.1 < sys.count ∧ m.2.1 < sys.DOFs ∧ m.2.2.1 < sys.copies redundant m.1 ∧
    m.2.2.2 ∈ sys.regionNodes m.1 m.2.1}

/-- The position of a row within the interval, if earlier degrees of freedom leave out `stride` rows
for each of their nodes. -/
def conditionPosition (stride : ℕ) (m : Condition) : ℕ :=
  stride * start (fun dof => (sys.dirichlet m.1 dof).length) m.2.1
    + (m.2.2.1 * (sys.dirichlet m.1 m.2.1).length + (sys.regionNodes m.1 m.2.1).idxOf m.2.2.2)

def dirichletRow (m : Condition) : ℕ :=
  sys.offset (sys.dirichletRows redundant) m.1
    + sys.conditionPosition (sys.copies redundant m.1) m + 1

/-- The number that the loops of `B1DirichletInsert` give to a row. -/
def insertedRow (m : Condition) : ℕ :=
  sys.offset (sys.dirichletRows redundant) m.1 + sys.conditionPosition (sys.ndomains m.1) m + 1

/-- The value of a condition, scaled as `B1DirichletUpdate` does. -/
def conditionValue (internalForceReduction : ℚ) (m : Condition) : ℚ :=
  prescribed ((sys.interval m.1).regions m.2.1) m.2.2.2 * internalForceReduction

/-- The entry of domain `d` in a row. -/
def conditionEntry (row : Condition → ℕ) (d : ℕ) (m : Condition) : Entry :=
  ⟨row m, sys.column d m.1 (m.2.1, m.2.2.2), 1⟩

variable {sys redundant}

lemma regionNodes_nodup (sys : System) (g dof : ℕ) : (sys.regionNodes g dof).Nodup :=
  (sys.interval g).region_disjoint dof

lemma mem_regionNodes {g dof k : ℕ} : k ∈ sys.regionNodes g dof ↔ k ∈ sys.dirichlet g dof :=
  (dirichlet_perm g dof).mem_iff.symm

lemma length_regionNodes (g dof : ℕ) :
    (sys.regionNodes g dof).length = (sys.dirichlet g dof).length :=
  (dirichlet_perm g dof).length_eq.symm

lemma copies_le (sys : System) (redundant : Bool) (g : ℕ) : sys.copies redundant g ≤ sys.ndomains g := by
  have := ndomains_pos sys g
  rw [copies]
  split_ifs <;> omega

lemma start_copies (c g n : ℕ) :
    start (fun dof => c * (sys.dirichlet g dof).length) n
      = c * start (fun dof => (sys.dirichlet g dof).length) n := by
  rw [start, start, Finset.mul_sum]

lemma conditionPosition_bijOn (sys : System) (redundant : Bool) (g : ℕ) :
    Set.BijOn (fun x : ℕ × (ℕ × ℕ) => sys.conditionPosition (sys.copies redundant g) (g, x))
      {x | x.1 < sys.DOFs ∧
        x.2 ∈ Set.Iio (sys.copies redundant g) ×ˢ {k | k ∈ sys.regionNodes g x.1}}
      (Set.Iio (sys.dirichletRows redundant g)) := by
  have hdof : ∀ dof, Set.BijOn
      (fun x : ℕ × ℕ => x.1 * (sys.dirichlet g dof).length + (sys.regionNodes g dof).idxOf x.2)
      (Set.Iio (sys.copies redundant g) ×ˢ {k | k ∈ sys.regionNodes g dof})
      (Set.Iio (sys.copies redundant g * (sys.dirichlet g dof).length)) := by
    intro dof
    have h := mul_add_bijOn_comp (Set.bijOn_id (Set.Iio (sys.copies redundant g)))
      (idxOf_bijOn (regionNodes_nodup sys g dof))
    simpa only [id, length_regionNodes] using h
  have hrows : sys.dirichletRows redundant g
      = start (fun dof => sys.copies redundant g * (sys.dirichlet g dof).length) sys.DOFs := by
    rw [start_copies, dirichletRows, copies, dsize]
    cases redundant <;> simp
  have h := blocks_comp_bijOn (prefixes_bijOn sys.DOFs
    fun dof => sys.copies redundant g * (sys.dirichlet g dof).length) fun dof _ => hdof dof
  rw [hrows]
  simpa only [start_copies, conditionPosition] using h

/-- **The intended numbering** takes every Dirichlet row once. -/
theorem dirichletRow_bijOn (sys : System) (redundant : Bool) :
    Set.BijOn (sys.dirichletRow redundant) (sys.conditions redundant)
      (Set.Icc 1 (sys.dirichletSize redundant)) := by
  have h := shift_bijOn (blocks_comp_bijOn (offset_bijOn sys _)
    fun g _ => conditionPosition_bijOn sys redundant g) 0
  have hsize : start (sys.dirichletRows redundant) sys.count = sys.dirichletSize redundant := rfl
  simp only [Nat.zero_add, hsize] at h
  exact h

end System

end Espreso
