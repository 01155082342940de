import Espreso.Constraints.Instance

/-!
# Gluing rows

`Constraints::B1GlueElements` glues the copies of a node that belong to different domains.  Every
domain generates its entries of the gluing rows alone, from the offset of the interval, a counter of
the nodes and its position among the domains of the interval.

* `System.multipliers`, `System.gluingRow` — what the rows are for, and the intended numbering.
* **`gluingRow_bijOn`** — the intended numbering takes every row once.
-/

namespace Espreso

open Layout

/-! ## The code -/

section Code

variable (DOFs : ℕ) (redundant : Bool) (interval : GluingInterval ConstrainedInterval)

/-- One pass of the loop over the nodes in the lambda `redundantglue`, with the next `LMindex`. -/
def redundantNode (dof LMindex DOFindex : ℕ) : Piece × ℕ :=
  let lower := List.range interval.dindex
  let lowerRows := accumulate (fun lm => interval.ndomains - (lm + 1))
    (fun LMindex lm => LMindex + interval.dindex - lm) LMindex lower
  let LMindex₁ := LMindex + (lower.map fun lm => interval.ndomains - (lm + 1)).sum
  let upper := List.range' (interval.dindex + 1) (interval.ndomains - (interval.dindex + 1))
  let upperRows := accumulate (fun _ => 1) (fun LMindex _ => LMindex + 1) LMindex₁ upper
  let LMindex₂ := LMindex₁ + (upper.map fun _ => 1).sum
  (⟨lowerRows ++ upperRows, (lower ++ upper).map fun _ => DOFs * DOFindex + dof + 1,
      List.replicate interval.dindex (-1)
        ++ List.replicate (interval.ndomains - interval.dindex - 1) 1, []⟩,
    LMindex₂
      + (interval.ndomains - interval.dindex - 1) * (interval.ndomains - interval.dindex - 2) / 2)

/-- The loop over the nodes in the lambda `redundantglue`; the first argument after the degree of
freedom counts the nodes that are left. -/
def redundantNodes (dof : ℕ) : ℕ → ℕ → ℕ → ℕ → Piece × ℕ
  | 0, _, _, LMcounter => (∅, LMcounter)
  | nodes + 1, LMindex, DOFindex, LMcounter =>
    let node := redundantNode DOFs interval dof LMindex DOFindex
    let rest := redundantNodes dof nodes node.2 (DOFindex + 1) (LMcounter + 1)
    (node.1 ++ rest.1, rest.2)

/-- The lambda `redundantglue`. -/
def redundantglue (begin' end' LMcounter dof : ℕ) : Piece × ℕ :=
  let glued := redundantNodes DOFs interval dof (end' - begin')
    (interval.interval.intervalGluingOffset
      + LMcounter * (interval.ndomains * (interval.ndomains - 1) / 2))
    (interval.DOFOffset + (begin' - interval.interval.pinterval.begin')) LMcounter
  (glued.1 ++ ⟨[], [], [],
    List.replicate ((end' - begin') * (interval.ndomains - 1)) (1 / interval.ndomains)⟩, glued.2)

/-- One pass of the loop over the nodes in the lambda `nonredundantglue`. -/
def nonredundantNode (dof LMindex lm DOFindex : ℕ) : Piece :=
  let column := DOFs * DOFindex + dof + 1
  let lower : Piece := if interval.dindex ≠ 0
    then ⟨[LMindex + interval.dindex + lm], [column], [-1], []⟩ else ∅
  let upper : Piece := if interval.dindex + 1 < interval.ndomains
    then ⟨[LMindex + interval.dindex + 1 + lm], [column], [1], []⟩ else ∅
  lower ++ upper

/-- The loop over the nodes in the lambda `nonredundantglue`. -/
def nonredundantNodes (dof LMindex : ℕ) : ℕ → ℕ → ℕ → ℕ → Piece × ℕ
  | 0, _, _, LMcounter => (∅, LMcounter)
  | nodes + 1, lm, DOFindex, LMcounter =>
    let rest := nonredundantNodes dof LMindex nodes (lm + 1) (DOFindex + 1) (LMcounter + 1)
    (nonredundantNode DOFs interval dof LMindex lm DOFindex ++ rest.1, rest.2)

/-- The lambda `nonredundantglue`. -/
def nonredundantglue (begin' end' LMcounter dof : ℕ) : Piece × ℕ :=
  let glued := nonredundantNodes DOFs interval dof
    (interval.interval.intervalGluingOffset + LMcounter * (interval.ndomains - 1))
    (end' - begin') 0 (interval.DOFOffset + (begin' - interval.interval.pinterval.begin')) LMcounter
  let duplicity : Piece := ⟨[], [], [], List.replicate (end' - begin') (1 / interval.ndomains)⟩
  (glued.1 ++ (if interval.dindex ≠ 0 then duplicity else ∅)
    ++ (if interval.dindex + 1 < interval.ndomains then duplicity else ∅), glued.2)

def glueBetween (dof : ℕ) : List ℕ → ℕ → ℕ → Piece × ℕ
  | [], current, LMcounter =>
    redundantglue DOFs interval current interval.interval.pinterval.end' LMcounter dof
  | end' :: ends, current, LMcounter =>
    let glued := redundantglue DOFs interval current end' LMcounter dof
    let rest := glueBetween dof ends (end' + 1) glued.2
    (glued.1 ++ rest.1, rest.2)

def glueInterval : List ℕ → ℕ → Piece
  | [], _ => ∅
  | dof :: dofs, LMcounter =>
    let pinterval := interval.interval.pinterval
    let glued := if redundant
      then glueBetween DOFs interval dof (intervalDirichletNodes pinterval dof) pinterval.begin'
        LMcounter
      else nonredundantglue DOFs interval pinterval.begin' pinterval.end' LMcounter dof
    glued.1 ++ glueInterval dofs glued.2

/-- The loop over the intervals of one domain, and what follows it. -/
def glueDomain (gluingSize : ℕ) (gintervals : List (GluingInterval ConstrainedInterval))
    (inst : DomainInstance) : DomainInstance :=
  let glued := inst.push
    (gintervals.foldr (fun i piece => glueInterval DOFs redundant i (List.range DOFs) 0 ++ piece) ∅)
  { glued with
    rows := glued.rows + gluingSize
    nnz := glued.I_row_indices.length
    B1c := resize glued.B1c glued.B1duplicity.length 0
    B1subdomainsMap := glued.B1subdomainsMap
      ++ (glued.I_row_indices.drop glued.B1subdomainsMap.length).map (· - 1)
    LB := resize glued.LB glued.I_row_indices.length ⊥ }

/-- What the body of the loop over pairs of ranks pushes to `nmap`. -/
def nmapEntry (rank LMindex r₁ r₂ : ℕ) : List (List ℕ) :=
  if r₁ = rank then [if r₂ ≠ rank then [LMindex, rank, r₂] else [LMindex, rank]]
  else if r₂ = rank then [if r₁ ≠ rank then [LMindex, rank, r₁] else [LMindex, rank]]
  else []

def nmapInner (rank r₁ : ℕ) : ℕ → List ℕ → List (List ℕ) × ℕ
  | LMindex, [] => ([], LMindex)
  | LMindex, r₂ :: rs =>
    let entry := nmapEntry rank LMindex r₁ r₂
    if redundant then
      let rest := nmapInner rank r₁ (LMindex + 1) rs
      (entry ++ rest.1, rest.2)
    else (entry, LMindex + 1)

def nmap (rank : ℕ) : ℕ → List ℕ → List (List ℕ)
  | _, [] => []
  | LMindex, r₁ :: rs =>
    let inner := nmapInner redundant rank r₁ LMindex rs
    inner.1 ++ nmap rank inner.2 rs

/-- `map->front() += LMoffset` -/
def addFront (LMoffset : ℕ) : List ℕ → List ℕ
  | [] => []
  | LMindex :: ranks => (LMindex + LMoffset) :: ranks

/-- The loop over the nodes and degrees of freedom of one interval; the list holds the number of
nodes for each degree of freedom. -/
def clustersRows (nmap : List (List ℕ)) (noffset : ℕ) : ℕ → List ℕ → List (List ℕ)
  | _, [] => []
  | LMoffset, isize :: isizes =>
    (accumulate (fun _ => noffset) (fun LMoffset _ => nmap.map (addFront LMoffset)) LMoffset
        (List.range isize)).flatten
      ++ clustersRows nmap noffset
        (LMoffset + ((List.range isize).map fun _ => noffset).sum) isizes

/-- The entries of `B1clustersMap` for one interval. -/
def clustersInterval (rank : ℕ) (i : ConstrainedInterval) : List (List ℕ) :=
  let iranks := i.pinterval.ranks
  let noffset := if redundant then iranks.length * (iranks.length - 1) / 2 else iranks.length - 1
  let isize := fun dof => if redundant
    then (i.pinterval.end' - i.pinterval.begin') - (intervalDirichletNodes i.pinterval dof).length
    else i.pinterval.end' - i.pinterval.begin'
  clustersRows (nmap redundant rank 0 iranks) noffset i.intervalGluingOffset
    ((List.range DOFs).map isize)

end Code

/-- `Constraints::B1GlueElements` on one rank, without scaling. -/
def B1GlueElements (DOFs : ℕ) (redundant : Bool) (mesh : Mesh) (constraints : Constraints)
    (inst : Instance) : Instance where
  domains d := if d < mesh.ndomains
    then glueDomain DOFs redundant constraints.gluingSize
      (gintervals ConstrainedInterval.pinterval (mesh.firstDomain + d) 0 constraints.intervals)
      (inst.domains d)
    else inst.domains d
  B1clustersMap := inst.B1clustersMap
    ++ constraints.intervals.flatMap (clustersInterval DOFs redundant mesh.rank)
  blockDirichlet := inst.blockDirichlet
  blockEqualityConstraints := constraints.dirichletSize + constraints.gluingSize

/-! ## The intended numbering -/

/-- The positions of the domains with which the domain at `δ` is glued on a node. -/
def gluePartners (redundant : Bool) (n δ : ℕ) : List ℕ :=
  if redundant then List.range δ ++ List.range' (δ + 1) (n - (δ + 1))
  else (if δ ≠ 0 then [δ - 1] else []) ++ (if δ + 1 < n then [δ + 1] else [])

def noffset (redundant : Bool) (n : ℕ) : ℕ := if redundant then n * (n - 1) / 2 else n - 1

/-- The position of a pair of domains among the rows of a degree of freedom. -/
def pairPosition (redundant : Bool) (n : ℕ) (p : ℕ × ℕ) : ℕ :=
  if redundant then pairIndex n p.1 p.2 else p.1

def gluedPairs (redundant : Bool) (n : ℕ) : Set (ℕ × ℕ) :=
  {p | p.1 < p.2 ∧ p.2 < n ∧ (redundant = false → p.2 = p.1 + 1)}

namespace System

variable (sys : System) (redundant : Bool)

def gluedNodes (g dof : ℕ) : List ℕ :=
  (List.range (sys.interval g).size).filter fun k => ¬(redundant ∧ k ∈ sys.dirichlet g dof)

/-- The degrees of freedom and nodes of an interval that are glued, in the order of the counter. -/
def gluedDOFs (g : ℕ) : List (ℕ × ℕ) :=
  (List.range sys.DOFs).flatMap fun dof => (sys.gluedNodes redundant g dof).map (dof, ·)

/-- **What gluing rows are for**: each degree of freedom of each node on which it is not prescribed
(without redundant multipliers: of each node), for each pair of the domains that share the node
(without redundant multipliers: for domains next to each other). -/
def multipliers : Set Multiplier :=
  {m | m.1 < sys.count ∧ m.2.1.1 < sys.DOFs ∧ m.2.1.2 < (sys.interval m.1).size ∧
    (redundant → m.2.1.2 ∉ sys.dirichlet m.1 m.2.1.1) ∧ m.2.2 ∈ gluedPairs redundant (sys.ndomains m.1)}

def gluingPosition (m : Multiplier) : ℕ :=
  (sys.gluedDOFs redundant m.1).idxOf m.2.1 * noffset redundant (sys.ndomains m.1)
    + pairPosition redundant (sys.ndomains m.1) m.2.2

def gluingRow (m : Multiplier) : ℕ :=
  sys.dirichletSize redundant + sys.offset (sys.gluingRows redundant) m.1
    + sys.gluingPosition redundant m + 1

variable {sys redundant}

lemma mem_gluedNodes {g dof k : ℕ} :
    k ∈ sys.gluedNodes redundant g dof ↔
      k < (sys.interval g).size ∧ (redundant → k ∉ sys.dirichlet g dof) := by
  simp only [gluedNodes, List.mem_filter, List.mem_range, decide_eq_true_eq, not_and]

lemma mem_gluedDOFs {g : ℕ} {x : ℕ × ℕ} :
    x ∈ sys.gluedDOFs redundant g ↔ x.1 < sys.DOFs ∧ x.2 < (sys.interval g).size ∧
      (redundant → x.2 ∉ sys.dirichlet g x.1) := by
  obtain ⟨dof, k⟩ := x
  simp only [gluedDOFs, List.mem_flatMap, List.mem_range, List.mem_map, mem_gluedNodes,
    Prod.mk.injEq]
  constructor
  · rintro ⟨dof', hdof, k', hk, rfl, rfl⟩
    exact ⟨hdof, hk⟩
  · rintro ⟨hdof, hk⟩
    exact ⟨dof, hdof, k, hk, rfl, rfl⟩

lemma gluedNodes_nodup (g dof : ℕ) : (sys.gluedNodes redundant g dof).Nodup :=
  List.nodup_range.filter _

lemma gluedDOFs_nodup (g : ℕ) : (sys.gluedDOFs redundant g).Nodup := by
  refine List.nodup_flatMap.mpr ⟨fun dof _ => ?_, List.nodup_range.imp fun {a b} hab => ?_⟩
  · exact (gluedNodes_nodup g dof).map (Prod.mk_right_injective dof)
  · intro x hx hy
    obtain ⟨_, -, rfl⟩ := List.mem_map.mp hx
    obtain ⟨_, -, h⟩ := List.mem_map.mp hy
    exact hab (Prod.mk.inj h).1.symm

lemma length_gluedNodes (g dof : ℕ) :
    (sys.gluedNodes redundant g dof).length
      = (sys.interval g).size - (if redundant then (sys.dirichlet g dof).length else 0) := by
  cases redundant with
  | false => simp [gluedNodes]
  | true =>
      have hnodup : (sys.dirichlet g dof).Nodup := (dirichlet_sorted g dof).imp fun h => ne_of_lt h
      have hperm : ((List.range (sys.interval g).size).filter
          fun k => k ∈ sys.dirichlet g dof).Perm (sys.dirichlet g dof) := by
        refine (List.perm_ext_iff_of_nodup (List.nodup_range.filter _) hnodup).mpr fun k => ?_
        simp only [List.mem_filter, List.mem_range, decide_eq_true_eq, and_iff_right_iff_imp]
        exact dirichlet_lt
      have hsplit := List.length_eq_length_filter_add (l := List.range (sys.interval g).size)
        fun k => decide (k ∈ sys.dirichlet g dof)
      rw [hperm.length_eq, List.length_range] at hsplit
      simp only [gluedNodes, true_and, decide_not, if_true]
      omega

lemma length_gluedDOFs (g : ℕ) :
    (sys.gluedDOFs redundant g).length
      = sys.DOFs * (sys.interval g).size - (if redundant then sys.dsize g else 0) := by
  have hle : ∀ dof, (sys.dirichlet g dof).length ≤ (sys.interval g).size := by
    intro dof
    have hsub : sys.dirichlet g dof ⊆ List.range (sys.interval g).size :=
      fun k hk => List.mem_range.mpr (dirichlet_lt hk)
    have hnodup : (sys.dirichlet g dof).Nodup := (dirichlet_sorted g dof).imp fun h => ne_of_lt h
    simpa using (hnodup.subperm hsub).length_le
  have hsum : ∀ n, ((List.range n).map fun dof => (sys.gluedNodes redundant g dof).length).sum
      + (if redundant then start (fun dof => (sys.dirichlet g dof).length) n else 0)
        = n * (sys.interval g).size := by
    intro n
    induction n with
    | zero => simp
    | succ n ih =>
        have := hle n
        rw [List.range_succ, List.map_append, List.sum_append, Nat.succ_mul, ← ih]
        simp only [List.map_cons, List.map_nil, List.sum_singleton, length_gluedNodes, start_succ]
        split_ifs <;> omega
  have := hsum sys.DOFs
  simp only [gluedDOFs, List.length_flatMap, List.length_map, dsize]
  omega

lemma pairPosition_bijOn (n : ℕ) :
    Set.BijOn (pairPosition redundant n) (gluedPairs redundant n) (Set.Iio (noffset redundant n)) := by
  cases redundant with
  | true =>
      have hpairs : gluedPairs true n = {p | p.1 < p.2 ∧ p.2 < n} := by simp [gluedPairs]
      rw [hpairs]
      exact pairIndex_bijOn n
  | false =>
      refine ⟨?_, ?_, ?_⟩
      · rintro ⟨a, b⟩ ⟨h₁, h₂, h₃⟩
        simp only [pairPosition, noffset, Bool.false_eq_true, if_false, Set.mem_Iio] at *
        omega
      · rintro ⟨a, b⟩ ⟨h₁, h₂, h₃⟩ ⟨c, d⟩ ⟨h₄, h₅, h₆⟩ heq
        have h₃ := h₃ rfl
        have h₆ := h₆ rfl
        simp only [pairPosition, Bool.false_eq_true, if_false] at heq h₃ h₆
        rw [h₃, h₆, heq]
      · intro a ha
        simp only [noffset, Bool.false_eq_true, if_false, Set.mem_Iio] at ha
        refine ⟨(a, a + 1), ⟨?_, ?_, fun _ => rfl⟩, rfl⟩
        · simp
        · simp only
          omega

lemma gluingRows_eq (g : ℕ) :
    sys.gluingRows redundant g
      = (sys.gluedDOFs redundant g).length * noffset redundant (sys.ndomains g) := by
  rw [gluingRows, length_gluedDOFs, noffset]
  by_cases h : sys.ndomains g = 1
  · simp [h]
  · rw [if_neg h]
    cases redundant <;> simp

lemma gluingPosition_bijOn (sys : System) (redundant : Bool) (g : ℕ) :
    Set.BijOn (fun x => sys.gluingPosition redundant (g, x))
      ({x | x ∈ sys.gluedDOFs redundant g} ×ˢ gluedPairs redundant (sys.ndomains g))
      (Set.Iio (sys.gluingRows redundant g)) := by
  rw [gluingRows_eq]
  exact mul_add_bijOn_comp (idxOf_bijOn (gluedDOFs_nodup g)) (pairPosition_bijOn _)

lemma multipliers_eq (sys : System) (redundant : Bool) :
    sys.multipliers redundant = {p : ℕ × ((ℕ × ℕ) × (ℕ × ℕ)) | p.1 < sys.count ∧ p.2 ∈
      {x | x ∈ sys.gluedDOFs redundant p.1} ×ˢ gluedPairs redundant (sys.ndomains p.1)} := by
  ext m
  simp only [multipliers, Set.mem_ofPred_eq, Set.mem_prod, mem_gluedDOFs]
  tauto

/-- **The intended numbering** takes every row after the Dirichlet rows once. -/
theorem gluingRow_bijOn (sys : System) (redundant : Bool) :
    Set.BijOn (sys.gluingRow redundant) (sys.multipliers redundant)
      (Set.Icc (sys.dirichletSize redundant + 1)
        (sys.dirichletSize redundant + sys.gluingSize redundant)) := by
  rw [multipliers_eq]
  exact numbering_bijOn (offset_bijOn sys _) fun g _ => gluingPosition_bijOn sys redundant g

end System

end Espreso
