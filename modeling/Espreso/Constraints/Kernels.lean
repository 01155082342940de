import Espreso.Constraints.Scaling
import Espreso.Solver.SparseMatrix
import Mathlib.Data.List.TakeWhile

/-!
# Gluing within a cluster

`B0` glues the domains of a cluster.  `Constraints::B0Kernels` gives an interface of two domains a
row for each kernel vector of the one with the larger kernel; `Constraints::B0Corners` gives each
corner rows of its own.  Both walk through the intervals of a domain to find the columns of nodes.

* **`position_advance`** — the walk finds the number of a node in its domain.
* **`kernels_right_iff`** — the rows glue, but their numbers in `B0subdomainsMap` are too large.
-/

namespace Espreso

open Layout

/-! ## The code -/

/-- A member of `inodesDomains`, with its nodes. -/
structure SharedNodes where
  first : ℕ
  second : ℕ
  nodes : List ℕ

/-- `B0[d]` and `B0subdomainsMap[d]`; an entry stands for an element of each of the three arrays in
coordinate format. -/
structure B0Matrix where
  rows : ℕ
  cols : ℕ
  nnz : ℕ
  entries : List Entry
  B0subdomainsMap : List ℕ

/-- The loop `while (dit->end < n) { ++dit; }`. -/
def advance (dit : List (GluingInterval ProcessInterval)) (n : ℕ) :
    List (GluingInterval ProcessInterval) :=
  dit.dropWhile fun i => i.interval.end' < n

/-- `dit->DOFOffset + n - dit->begin`; behind the last interval there is nothing to read. -/
def position (dit : List (GluingInterval ProcessInterval)) (n : ℕ) : Option ℕ :=
  dit.head?.map fun i => i.DOFOffset + n - i.interval.begin'

section Code

variable (DOFs : ℕ) (m : Mesh) (clusters : ℕ → ℕ) (kernels : ℕ → DenseMatrix)

def interfaceRows (s : SharedNodes) : ℕ :=
  max (kernels s.first).cols (max (kernels s.second).cols 1)

/-- The loop that fills `rowIndex` and `rCounters`. -/
def rowIndices : (ℕ → ℕ) → List SharedNodes → List ℕ × (ℕ → ℕ)
  | rCounters, [] => ([], rCounters)
  | rCounters, s :: ss =>
    let cluster := clusters s.first
    let rest := rowIndices
      (Function.update rCounters cluster (rCounters cluster + interfaceRows kernels s)) ss
    (rCounters cluster :: rest.1, rest.2)

/-- The loop over the nodes of an interface for column `c` of the kernel of the master. -/
def kernelNodes (sign : ℚ) (master rowIndex c : ℕ) :
    List (GluingInterval ProcessInterval) → List (GluingInterval ProcessInterval) → List ℕ →
      Option (List Entry)
  | _, _, [] => some []
  | dit, masterit, n :: ns =>
    let dit := advance dit n
    let masterit := advance masterit n
    (position dit n).bind fun col => (position masterit n).bind fun row =>
    (kernelNodes sign master rowIndex c dit masterit ns).map fun rest =>
      ((List.range DOFs).map fun dof => ⟨rowIndex + c + 1, DOFs * col + dof + 1, sign
        * (kernels master).dense_values ((kernels master).rows * c + DOFs * row + dof)⟩) ++ rest

/-- The loop over the nodes of an interface of domains without kernels. -/
def plainNodes (sign : ℚ) (rowIndex : ℕ) :
    List (GluingInterval ProcessInterval) → List ℕ → Option (List Entry)
  | _, [] => some []
  | dit, n :: ns =>
    let dit := advance dit n
    (position dit n).bind fun col => (plainNodes sign rowIndex dit ns).map fun rest =>
      ((List.range DOFs).map fun dof => ⟨rowIndex + 1, DOFs * col + dof + 1, sign⟩) ++ rest

def interfaceSign (d : ℕ) (s : SharedNodes) : ℚ :=
  if s.second = d then -1 else if s.first = d then 1 else 0

def interfaceMaster (s : SharedNodes) : ℕ :=
  if (kernels s.first).cols < (kernels s.second).cols then s.second else s.first

def interfaceEntries (d : ℕ) (s : SharedNodes) (rowIndex : ℕ) : Option (List Entry) :=
  if interfaceSign d s ≠ 0 then
    let master := interfaceMaster kernels s
    if (kernels master).cols ≠ 0 then
      ((List.range (kernels master).cols).mapM fun c =>
        kernelNodes DOFs kernels (interfaceSign d s) master rowIndex c (m.dintervals d)
          (m.dintervals master) s.nodes).map List.flatten
    else plainNodes DOFs (interfaceSign d s) rowIndex (m.dintervals d) s.nodes
  else some []

/-- **`Constraints::B0Kernels`** on cleared arrays: what it leaves in domain `d`. -/
def B0Kernels (domainDOFCount : ℕ → ℕ) (interfaces : List SharedNodes) (d : ℕ) : Option B0Matrix :=
  let indices := rowIndices clusters kernels (fun _ => 0) interfaces
  ((interfaces.zip indices.1).mapM fun p => interfaceEntries DOFs m kernels d p.1 p.2).map
    fun pieces =>
      { rows := indices.2 (clusters d)
        cols := domainDOFCount d
        nnz := pieces.flatten.length
        entries := pieces.flatten
        B0subdomainsMap := pieces.flatten.map Entry.row }

/-- `I_row_indices.push_back`, and the same for the other arrays. -/
def pushEntry (B0 : ℕ → List Entry) (d : ℕ) (e : Entry) : ℕ → List Entry :=
  Function.update B0 d (B0 d ++ [e])

/-- The body of the loop over the pairs of domains of a corner, with `lambdas`. -/
def cornerPair (n d1 d2 : ℕ) (st : (ℕ → List Entry) × ℕ) : Option ((ℕ → List Entry) × ℕ) :=
  (position (advance (m.dintervals d1) n) n).bind fun col1 =>
  (position (advance (m.dintervals d2) n) n).map fun col2 =>
    (List.range DOFs).foldl (fun st dof =>
      (pushEntry (pushEntry st.1 d1 ⟨st.2, DOFs * col1 + dof + 1, 1⟩) d2
        ⟨st.2, DOFs * col2 + dof + 1, -1⟩, st.2 + 1)) st

def cornerPairs (n : ℕ) : List ℕ → (ℕ → List Entry) × ℕ → Option ((ℕ → List Entry) × ℕ)
  | d1 :: d2 :: ds, st => (cornerPair DOFs m n d1 d2 st).bind (cornerPairs n (d2 :: ds))
  | _, st => some st

/-- **`Constraints::B0Corners`** on cleared arrays: what it leaves in all domains. -/
def B0Corners (domainDOFCount : ℕ → ℕ) (corners : List (ℕ × List ℕ)) : Option (ℕ → B0Matrix) :=
  (corners.foldlM (fun st c => cornerPairs DOFs m c.1 c.2 st) (fun _ => [], 1)).map fun st d =>
    { rows := st.2 - 1
      cols := domainDOFCount d
      nnz := (st.1 d).length
      entries := st.1 d
      B0subdomainsMap := (st.1 d).map fun e => e.row - 1 }

end Code

/-! ## The walk through the intervals -/

lemma advance_advance (dit : List (GluingInterval ProcessInterval)) {n n' : ℕ} (h : n ≤ n') :
    advance (advance dit n) n' = advance dit n' := by
  induction dit with
  | nil => rfl
  | cons i dit ih =>
      by_cases hi : i.interval.end' < n
      · have hi' : i.interval.end' < n' := by omega
        rw [advance, advance, advance, List.dropWhile_cons_of_pos (by simpa using hi),
          List.dropWhile_cons_of_pos (by simpa using hi')]
        exact ih
      · rw [advance, advance, List.dropWhile_cons_of_neg (by simpa using hi)]
        rfl

namespace System

variable {sys : System}

lemma dofOffset_add_le {r d : ℕ} (hrank : sys.rankOf d = r) {h : ℕ} :
    ∀ g, h ≤ g →
      sys.dofOffset d g + sys.nodeOffset r h ≤ sys.dofOffset d h + sys.nodeOffset r g := by
  intro g hg
  induction g, hg using Nat.le_induction with
  | base => exact le_refl _
  | succ g _ ih =>
      have hd : sys.dofOffset d (g + 1) = sys.dofOffset d g
          + if d ∈ (sys.interval g).domains then (sys.interval g).size else 0 := start_succ _ _
      have hr : sys.nodeOffset r (g + 1) = sys.nodeOffset r g
          + if r ∈ sys.iranks g then (sys.interval g).size else 0 := start_succ _ _
      rw [hd, hr]
      by_cases hmem : d ∈ (sys.interval g).domains
      · have hmem' : r ∈ sys.iranks g := List.mem_map.mpr ⟨d, hmem, hrank⟩
        rw [if_pos hmem, if_pos hmem']
        omega
      · rw [if_neg hmem]
        omega

lemma nodeOffset_add_le {r g h : ℕ} (hgh : g < h) (hr : r ∈ sys.iranks g) :
    sys.nodeOffset r g + (sys.interval g).size ≤ sys.nodeOffset r h := by
  have hle := start_add_le (fun h => if r ∈ sys.iranks h then (sys.interval h).size else 0) hgh
  simp only [if_pos hr] at hle
  exact hle

lemma dofOffset_add_le_of_lt {d g h : ℕ} (hgh : g < h) (hd : d ∈ (sys.interval g).domains) :
    sys.dofOffset d g + (sys.interval g).size ≤ sys.dofOffset d h := by
  have hle := start_add_le
    (fun h => if d ∈ (sys.interval h).domains then (sys.interval h).size else 0) hgh
  simp only [if_pos hd] at hle
  exact hle

lemma head?_advance {r d n h : ℕ} (hr : r < sys.ranks) (hd : d < (sys.mesh r).ndomains)
    (hfind : (sys.domainIds (sys.distribution.border r + d)).find?
      (fun h => !decide (sys.nodeOffset r h + (sys.interval h).size < n)) = some h) :
    (advance ((sys.mesh r).dintervals d) n).head?
      = some ⟨sys.view (sys.nodeOffset r h) h, sys.dofOffset (sys.distribution.border r + d) h,
          lowerBound (sys.interval h).domains (sys.distribution.border r + d),
          (sys.interval h).domains.length⟩ := by
  rw [advance, ← List.find?_not_eq_head?_dropWhile, dintervals_eq hr hd, List.find?_map]
  exact congrArg (Option.map _) hfind

/-- **The walk** finds the number of a node in a domain, also from the end of the interval
before. -/
theorem position_advance {r d g k : ℕ} (hr : r < sys.ranks) (hd : d < (sys.mesh r).ndomains)
    (hg : g < sys.count) (hmem : sys.distribution.border r + d ∈ (sys.interval g).domains)
    (hk : k < (sys.interval g).size) :
    position (advance ((sys.mesh r).dintervals d) (sys.nodeOffset r g + k)) (sys.nodeOffset r g + k)
      = some (sys.dofOffset (sys.distribution.border r + d) g + k) := by
  have hrank := rankOf_local hr hd
  obtain ⟨h, hfind⟩ : ∃ h, (sys.domainIds (sys.distribution.border r + d)).find? (fun h =>
      !decide (sys.nodeOffset r h + (sys.interval h).size < sys.nodeOffset r g + k)) = some h := by
    refine Option.isSome_iff_exists.mp (List.find?_isSome.mpr ⟨g, mem_domainIds.mpr ⟨hg, hmem⟩, ?_⟩)
    simp only [Bool.not_eq_true', decide_eq_false_iff_not]
    omega
  rw [position, head?_advance hr hd hfind, Option.map_some]
  obtain ⟨hstop, as, bs, hsplit, hbefore⟩ := List.find?_eq_some_iff_append.mp hfind
  have hascending : (sys.domainIds (sys.distribution.border r + d)).Pairwise (· < ·) :=
    List.pairwise_lt_range.filter _
  have hin : g ∈ as ++ h :: bs := hsplit ▸ mem_domainIds.mpr ⟨hg, hmem⟩
  rw [hsplit] at hascending
  simp only [Bool.not_eq_true', decide_eq_false_iff_not, Bool.not_not, decide_eq_true_eq]
    at hstop hbefore
  change some (sys.dofOffset (sys.distribution.border r + d) h + (sys.nodeOffset r g + k)
    - sys.nodeOffset r h) = _
  rcases List.mem_append.mp hin with has | hbs
  · have := hbefore g has
    omega
  rcases List.mem_cons.mp hbs with rfl | hbs
  · exact congrArg some (by omega)
  · -- the walk stops at the end of an earlier interval
    have hlt : h < g := List.rel_of_pairwise_cons (List.pairwise_append.mp hascending).2.1 hbs
    have hmem' : sys.distribution.border r + d ∈ (sys.interval h).domains :=
      (mem_domainIds.mp (hsplit ▸ List.mem_append_right as List.mem_cons_self)).2
    have hnodes := sys.nodeOffset_add_le hlt (List.mem_map.mpr ⟨_, hmem', hrank⟩)
    have hdofs := sys.dofOffset_add_le_of_lt hlt hmem'
    have hle := sys.dofOffset_add_le hrank g hlt.le
    exact congrArg some (by omega)

end System

/-! ## The numbers of the rows -/

section Rows

variable (clusters : ℕ → ℕ) (kernels : ℕ → DenseMatrix)

/-- The rows that the `j`-th interface gets in cluster `C`. -/
def clusterRows (interfaces : List SharedNodes) (C j : ℕ) : ℕ :=
  match interfaces[j]? with
  | some s => if clusters s.first = C then interfaceRows kernels s else 0
  | none => 0

variable {clusters kernels}

lemma start_clusterRows_cons (s : SharedNodes) (ss : List SharedNodes) (C n : ℕ) :
    start (clusterRows clusters kernels (s :: ss) C) (n + 1)
      = (if clusters s.first = C then interfaceRows kernels s else 0)
        + start (clusterRows clusters kernels ss C) n := by
  rw [start, Finset.sum_range_succ', Nat.add_comm]
  rfl

lemma rowIndices_snd (C : ℕ) (ss : List SharedNodes) (rCounters : ℕ → ℕ) :
    (rowIndices clusters kernels rCounters ss).2 C
      = rCounters C + start (clusterRows clusters kernels ss C) ss.length := by
  induction ss generalizing rCounters with
  | nil => rfl
  | cons s ss ih =>
      rw [rowIndices, List.length_cons, start_clusterRows_cons, ih]
      by_cases h : clusters s.first = C
      · rw [if_pos h, h, Function.update_self]
        omega
      · rw [if_neg h, Function.update_of_ne (Ne.symm h)]
        omega

lemma rowIndices_fst (ss : List SharedNodes) (rCounters : ℕ → ℕ) (j : ℕ) :
    (rowIndices clusters kernels rCounters ss).1[j]? = ss[j]?.map fun s =>
      rCounters (clusters s.first)
        + start (clusterRows clusters kernels ss (clusters s.first)) j := by
  induction ss generalizing rCounters j with
  | nil => rfl
  | cons s ss ih =>
      cases j with
      | zero => rfl
      | succ j =>
          rw [rowIndices, List.getElem?_cons_succ, List.getElem?_cons_succ, ih]
          refine Option.map_congr fun t _ => ?_
          rw [start_clusterRows_cons]
          by_cases h : clusters s.first = clusters t.first
          · rw [if_pos h, h, Function.update_self]
            omega
          · rw [if_neg h, Function.update_of_ne (Ne.symm h)]
            omega

variable (clusters kernels)

/-- The row of column `p.2` of the `p.1`-th interface, from 1 on. -/
def kernelRow (ss : List SharedNodes) (p : ℕ × ℕ) : ℕ :=
  (rowIndices clusters kernels (fun _ => 0) ss).1.getD p.1 0 + p.2 + 1

/-- **The rows of a cluster** are numbered from 1 on. -/
theorem kernelRow_bijOn (ss : List SharedNodes) (C : ℕ) :
    Set.BijOn (kernelRow clusters kernels ss)
      {p | ∃ s, ss[p.1]? = some s ∧ clusters s.first = C ∧ p.2 < interfaceRows kernels s}
      (Set.Icc 1 ((rowIndices clusters kernels (fun _ => 0) ss).2 C)) := by
  have hset : {p : ℕ × ℕ | p.1 < ss.length ∧ p.2 < clusterRows clusters kernels ss C p.1}
      = {p | ∃ s, ss[p.1]? = some s ∧ clusters s.first = C ∧ p.2 < interfaceRows kernels s} := by
    ext ⟨j, c⟩
    simp only [Set.mem_ofPred_eq, clusterRows]
    cases h : ss[j]? with
    | none => simp
    | some s =>
        by_cases hC : clusters s.first = C
        · simp [hC, (List.getElem?_eq_some_iff.mp h).1]
        · simp [hC]
  have hbij := shift_bijOn (prefixes_bijOn ss.length (clusterRows clusters kernels ss C)) 0
  rw [hset] at hbij
  rw [rowIndices_snd]
  refine hbij.congr ?_
  rintro ⟨j, c⟩ ⟨s, hs, hC, -⟩
  simp only at hs
  simp only [kernelRow, List.getD_eq_getElem?_getD, rowIndices_fst, hs, Option.map_some,
    Option.getD_some, hC]
  omega

end Rows

/-! ## The interfaces -/

/-- Nodes that two domains of a rank share, in the order of their numbers on the rank.  A node is
given by its interval and its position there. -/
structure Interface (sys : System) (r : ℕ) where
  first : ℕ
  second : ℕ
  lt : first < second
  second_lt : second < (sys.mesh r).ndomains
  places : List (ℕ × ℕ)
  nonempty : places ≠ []
  ascending : (places.map fun x => sys.nodeOffset r x.1 + x.2).Pairwise (· < ·)
  mem : ∀ x ∈ places, x.1 < sys.count ∧ x.2 < (sys.interval x.1).size ∧
    sys.distribution.border r + first ∈ (sys.interval x.1).domains ∧
    sys.distribution.border r + second ∈ (sys.interval x.1).domains

namespace Interface

variable {sys : System} {r : ℕ} (i : Interface sys r)

def numbers : List ℕ := i.places.map fun x => sys.nodeOffset r x.1 + x.2

/-- The interface in `inodesDomains`. -/
def shared : SharedNodes := ⟨i.first, i.second, i.numbers⟩

/-- What stands in the rows of the interface for a degree of freedom of a node: the kernel of the
master, or 1. -/
def value (kernels : ℕ → DenseMatrix) (c : ℕ) (x : ℕ × ℕ) (dof : ℕ) : ℚ :=
  let master := interfaceMaster kernels i.shared
  if (kernels master).cols = 0 then 1
  else (kernels master).entry
    (sys.column (sys.distribution.border r + master) x.1 (dof, x.2) - 1) c

def cells : List ((ℕ × ℕ) × ℕ) := i.places ×ˢ List.range sys.DOFs

/-- `d` is one of the two domains. -/
def Joins (d : ℕ) : Prop := i.first = d ∨ i.second = d

variable {i}

lemma column_mem {d : ℕ} (hd : i.Joins d) {x : ℕ × ℕ} (hx : x ∈ i.places) :
    x.1 < sys.count ∧ x.2 < (sys.interval x.1).size ∧
      sys.distribution.border r + d ∈ (sys.interval x.1).domains := by
  obtain ⟨hcount, hsize, hfirst, hsecond⟩ := i.mem x hx
  rcases hd with rfl | rfl
  · exact ⟨hcount, hsize, hfirst⟩
  · exact ⟨hcount, hsize, hsecond⟩

lemma lt_of_joins {d : ℕ} (hd : i.Joins d) : d < (sys.mesh r).ndomains := by
  have h₁ := i.lt
  have h₂ := i.second_lt
  rcases hd with rfl | rfl <;> omega

lemma joins_master (kernels : ℕ → DenseMatrix) : i.Joins (interfaceMaster kernels i.shared) := by
  rw [interfaceMaster]
  split_ifs
  · exact Or.inr rfl
  · exact Or.inl rfl

lemma position_advance (hr : r < sys.ranks) {d : ℕ} (hd : i.Joins d) {x : ℕ × ℕ}
    (hx : x ∈ i.places) :
    position (advance ((sys.mesh r).dintervals d) (sys.nodeOffset r x.1 + x.2))
        (sys.nodeOffset r x.1 + x.2)
      = some (sys.dofOffset (sys.distribution.border r + d) x.1 + x.2) := by
  obtain ⟨hcount, hsize, hmem⟩ := column_mem hd hx
  exact System.position_advance hr (lt_of_joins hd) hcount hmem hsize

lemma advance_tail {dit whole : List (GluingInterval ProcessInterval)} {n : ℕ} {ns : List ℕ}
    (hascending : (n :: ns).Pairwise (· < ·))
    (hdit : ∀ k ∈ n :: ns, advance dit k = advance whole k) :
    ∀ k ∈ ns, advance (advance dit n) k = advance whole k := by
  intro k hk
  rw [hdit n List.mem_cons_self]
  exact advance_advance whole (List.rel_of_pairwise_cons hascending hk).le

lemma plainNodes_eq (hr : r < sys.ranks) {d : ℕ} (hd : i.Joins d) (sign : ℚ) (rowIndex : ℕ)
    {xs : List (ℕ × ℕ)} (dit : List (GluingInterval ProcessInterval)) (hxs : ∀ x ∈ xs, x ∈ i.places)
    (hascending : (xs.map fun x => sys.nodeOffset r x.1 + x.2).Pairwise (· < ·))
    (hdit : ∀ n ∈ xs.map fun x => sys.nodeOffset r x.1 + x.2,
      advance dit n = advance ((sys.mesh r).dintervals d) n) :
    plainNodes sys.DOFs sign rowIndex dit (xs.map fun x => sys.nodeOffset r x.1 + x.2)
      = some ((xs ×ˢ List.range sys.DOFs).map fun y => ⟨rowIndex + 1,
          sys.column (sys.distribution.border r + d) y.1.1 (y.2, y.1.2), sign⟩) := by
  induction xs generalizing dit with
  | nil => rfl
  | cons x xs ih =>
      have hrest := ih (advance dit (sys.nodeOffset r x.1 + x.2))
        (fun y hy => hxs y (List.mem_cons_of_mem x hy)) (List.pairwise_cons.mp hascending).2
        (advance_tail hascending hdit)
      have hn := hdit _ List.mem_cons_self
      rw [hn] at hrest
      rw [List.map_cons, plainNodes]
      simp only [hn, hrest, position_advance hr hd (hxs x List.mem_cons_self),
        Option.bind_some, Option.map_some, List.product_cons, List.map_append, List.map_map]
      rfl

lemma kernelNodes_eq (hr : r < sys.ranks) (kernels : ℕ → DenseMatrix) {d master : ℕ}
    (hd : i.Joins d) (hmaster : i.Joins master) (sign : ℚ) (rowIndex c : ℕ) {xs : List (ℕ × ℕ)}
    (dit masterit : List (GluingInterval ProcessInterval)) (hxs : ∀ x ∈ xs, x ∈ i.places)
    (hascending : (xs.map fun x => sys.nodeOffset r x.1 + x.2).Pairwise (· < ·))
    (hdit : ∀ n ∈ xs.map fun x => sys.nodeOffset r x.1 + x.2,
      advance dit n = advance ((sys.mesh r).dintervals d) n)
    (hmasterit : ∀ n ∈ xs.map fun x => sys.nodeOffset r x.1 + x.2,
      advance masterit n = advance ((sys.mesh r).dintervals master) n) :
    kernelNodes sys.DOFs kernels sign master rowIndex c dit masterit
        (xs.map fun x => sys.nodeOffset r x.1 + x.2)
      = some ((xs ×ˢ List.range sys.DOFs).map fun y => ⟨rowIndex + c + 1,
          sys.column (sys.distribution.border r + d) y.1.1 (y.2, y.1.2),
          sign * (kernels master).entry
            (sys.column (sys.distribution.border r + master) y.1.1 (y.2, y.1.2) - 1) c⟩) := by
  induction xs generalizing dit masterit with
  | nil => rfl
  | cons x xs ih =>
      have hrest := ih (advance dit (sys.nodeOffset r x.1 + x.2))
        (advance masterit (sys.nodeOffset r x.1 + x.2))
        (fun y hy => hxs y (List.mem_cons_of_mem x hy)) (List.pairwise_cons.mp hascending).2
        (advance_tail hascending hdit) (advance_tail hascending hmasterit)
      have hn := hdit _ List.mem_cons_self
      have hm := hmasterit _ List.mem_cons_self
      rw [hn, hm] at hrest
      rw [List.map_cons, kernelNodes]
      simp only [hn, hm, hrest, position_advance hr hd (hxs x List.mem_cons_self),
        position_advance hr hmaster (hxs x List.mem_cons_self),
        Option.bind_some, Option.map_some, List.product_cons, List.map_append, List.map_map]
      refine congrArg (fun l => some (l ++ _)) (List.map_congr_left fun dof _ => ?_)
      simp only [Function.comp_apply, DenseMatrix.entry, System.column, Nat.add_sub_cancel,
        Nat.mul_comm c]
      simp only [Nat.add_assoc]

lemma interfaceRows_eq (kernels : ℕ → DenseMatrix) (i : Interface sys r) :
    interfaceRows kernels i.shared
      = max (kernels (interfaceMaster kernels i.shared)).cols 1 := by
  rw [interfaceRows, interfaceMaster]
  split_ifs with h <;> omega

lemma interfaceSign_eq {d : ℕ} (hd : i.Joins d) :
    interfaceSign d i.shared = if i.first = d then 1 else -1 := by
  have hlt := i.lt
  change (if i.second = d then (-1 : ℚ) else if i.first = d then 1 else 0) = _
  rcases hd with rfl | rfl
  · rw [if_neg (by omega), if_pos rfl, if_pos rfl]
  · rw [if_pos rfl, if_neg (by omega)]

/-- The entries of a domain in the rows of an interface that start at `rowIndex`. -/
def entriesOf (kernels : ℕ → DenseMatrix) (i : Interface sys r) (d rowIndex : ℕ) : List Entry :=
  (List.range (interfaceRows kernels i.shared)).flatMap fun c => i.cells.map fun y =>
    ⟨rowIndex + c + 1, sys.column (sys.distribution.border r + d) y.1.1 (y.2, y.1.2),
      (if i.first = d then 1 else -1) * i.value kernels c y.1 y.2⟩

/-- **One interface**: the domains that it joins get its entries. -/
theorem interfaceEntries_eq (hr : r < sys.ranks) (kernels : ℕ → DenseMatrix)
    (i : Interface sys r) {d : ℕ} (hd : i.Joins d) (rowIndex : ℕ) :
    interfaceEntries sys.DOFs (sys.mesh r) kernels d i.shared rowIndex
      = some (entriesOf kernels i d rowIndex) := by
  have hsign := interfaceSign_eq hd
  have hne : interfaceSign d i.shared ≠ 0 := by
    rw [hsign]
    split_ifs <;> norm_num
  have hplain := plainNodes_eq hr hd (interfaceSign d i.shared) rowIndex
    ((sys.mesh r).dintervals d) (fun x hx => hx) i.ascending fun _ _ => rfl
  have hkernel := fun c => kernelNodes_eq hr kernels hd (joins_master kernels)
    (interfaceSign d i.shared) rowIndex c ((sys.mesh r).dintervals d)
    ((sys.mesh r).dintervals (interfaceMaster kernels i.shared)) (fun x hx => hx) i.ascending
    (fun _ _ => rfl) fun _ _ => rfl
  rw [interfaceEntries, if_pos hne, entriesOf, interfaceRows_eq]
  by_cases hcols : (kernels (interfaceMaster kernels i.shared)).cols = 0
  · simp only [hcols, ne_eq, not_true_eq_false, if_false]
    refine hplain.trans ?_
    simp only [hsign, value, hcols, if_true, mul_one]
    rw [show List.range (max 0 1) = [0] from rfl, List.flatMap_singleton]
    rfl
  · simp only [hcols, ne_eq, not_false_eq_true, if_true, value, if_false]
    rw [show max (kernels (interfaceMaster kernels i.shared)).cols 1
      = (kernels (interfaceMaster kernels i.shared)).cols by omega, ← hsign]
    exact congrArg (Option.map List.flatten) (Fallible.mapM_eq_some fun c _ => hkernel c)

instance (i : Interface sys r) (d : ℕ) : Decidable (i.Joins d) :=
  inferInstanceAs (Decidable (_ ∨ _))

lemma interfaceEntries_of_not_joins (kernels : ℕ → DenseMatrix) (i : Interface sys r) {d : ℕ}
    (hd : ¬i.Joins d) (rowIndex : ℕ) :
    interfaceEntries sys.DOFs (sys.mesh r) kernels d i.shared rowIndex = some [] := by
  obtain ⟨hfirst, hsecond⟩ := not_or.mp hd
  have hsign : interfaceSign d i.shared = 0 := (if_neg hsecond).trans (if_neg hfirst)
  rw [interfaceEntries, hsign]
  rfl

lemma mem_entriesOf {kernels : ℕ → DenseMatrix} {i : Interface sys r} {d rowIndex : ℕ} {e : Entry} :
    e ∈ entriesOf kernels i d rowIndex ↔ ∃ c < interfaceRows kernels i.shared,
      ∃ x ∈ i.places, ∃ dof < sys.DOFs,
        e = ⟨rowIndex + c + 1, sys.column (sys.distribution.border r + d) x.1 (dof, x.2),
          (if i.first = d then 1 else -1) * i.value kernels c x dof⟩ := by
  simp only [entriesOf, cells, List.mem_flatMap, List.mem_map, List.mem_range, List.mem_product,
    Prod.exists]
  refine ⟨?_, ?_⟩
  · rintro ⟨c, hc, g, k, dof, ⟨hx, hdof⟩, rfl⟩
    exact ⟨c, hc, g, k, hx, dof, hdof, rfl⟩
  · rintro ⟨c, hc, g, k, hx, dof, hdof, rfl⟩
    exact ⟨c, hc, g, k, dof, ⟨hx, hdof⟩, rfl⟩

lemma nodup_entriesOf (kernels : ℕ → DenseMatrix) {i : Interface sys r} {d : ℕ} (hd : i.Joins d)
    (rowIndex : ℕ) : ((entriesOf kernels i d rowIndex).map fun e => (e.row, e.col)).Nodup := by
  have hplaces : i.places.Nodup := List.Nodup.of_map _ (i.ascending.imp fun h => ne_of_lt h)
  have hcells : i.cells.Nodup := hplaces.product List.nodup_range
  rw [entriesOf, List.map_flatMap, List.nodup_flatMap]
  refine ⟨fun c _ => ?_, ?_⟩
  · rw [List.map_map]
    refine hcells.map_on ?_
    rintro ⟨x, dof⟩ hy ⟨x', dof'⟩ hy' heq
    obtain ⟨hx, hdof⟩ := List.mem_product.mp hy
    obtain ⟨hx', hdof'⟩ := List.mem_product.mp hy'
    obtain ⟨-, hsize, hmem⟩ := column_mem hd hx
    obtain ⟨-, hsize', hmem'⟩ := column_mem hd hx'
    have hcol : sys.column (sys.distribution.border r + d) x.1 (dof, x.2)
        = sys.column (sys.distribution.border r + d) x'.1 (dof', x'.2) := (Prod.mk.inj heq).2
    obtain ⟨hg, hcell⟩ := System.column_injOn (x := (dof, x.2)) (y := (dof', x'.2)) hmem hmem'
      (List.mem_range.mp hdof) (List.mem_range.mp hdof') hsize hsize' hcol
    obtain ⟨rfl, hk⟩ := Prod.mk.inj hcell
    exact Prod.ext (Prod.ext hg hk) rfl
  · refine List.nodup_range.imp fun hne p hp hq => hne ?_
    obtain ⟨e, he, rfl⟩ := List.mem_map.mp hp
    obtain ⟨e', he', heq⟩ := List.mem_map.mp hq
    obtain ⟨y, -, rfl⟩ := List.mem_map.mp he
    obtain ⟨y', -, rfl⟩ := List.mem_map.mp he'
    have hrow := (Prod.mk.inj heq).1
    simp only at hrow
    omega

end Interface

/-! ## All interfaces of a rank -/

section Cluster

variable {sys : System} {r : ℕ} (clusters : ℕ → ℕ) (kernels : ℕ → DenseMatrix)

/-- `rowIndex` and `rCounters` for the interfaces of a rank. -/
def rowIndex (is : List (Interface sys r)) : List ℕ × (ℕ → ℕ) :=
  rowIndices clusters kernels (fun _ => 0) (is.map Interface.shared)

def domainEntries (is : List (Interface sys r)) (d : ℕ) : List Entry :=
  (is.zip (rowIndex clusters kernels is).1).flatMap fun p =>
    if p.1.Joins d then Interface.entriesOf kernels p.1 d p.2 else []

/-- **`B0Kernels` for one domain.** -/
theorem B0Kernels_eq (hr : r < sys.ranks) (domainDOFCount : ℕ → ℕ) (is : List (Interface sys r))
    (d : ℕ) :
    B0Kernels sys.DOFs (sys.mesh r) clusters kernels domainDOFCount (is.map Interface.shared) d
      = some ⟨(rowIndex clusters kernels is).2 (clusters d), domainDOFCount d,
          (domainEntries clusters kernels is d).length, domainEntries clusters kernels is d,
          (domainEntries clusters kernels is d).map Entry.row⟩ := by
  have hpieces : ((is.map Interface.shared).zip (rowIndex clusters kernels is).1).mapM
      (fun p => interfaceEntries sys.DOFs (sys.mesh r) kernels d p.1 p.2)
      = some ((is.zip (rowIndex clusters kernels is).1).map fun p =>
          if p.1.Joins d then Interface.entriesOf kernels p.1 d p.2 else []) := by
    rw [List.zip_map_left, List.mapM_map]
    refine Fallible.mapM_eq_some fun p _ => ?_
    split_ifs with hd
    · exact Interface.interfaceEntries_eq hr kernels p.1 hd p.2
    · exact Interface.interfaceEntries_of_not_joins kernels p.1 hd p.2
  rw [B0Kernels]
  exact congrArg (Option.map _) hpieces

/-- `B0` glues the domains of the clusters of a rank: row `row (j, c)` belongs to column `c` of the
kernel of the `j`-th interface. -/
structure Glues (is : List (Interface sys r)) (B0 : ℕ → B0Matrix) (row : ℕ × ℕ → ℕ) : Prop where
  dense : ∀ d < (sys.mesh r).ndomains, Set.BijOn row
    {p | ∃ i, is[p.1]? = some i ∧ clusters i.first = clusters d ∧
      p.2 < interfaceRows kernels i.shared}
    (Set.Icc 1 (B0 d).rows)
  entries : ∀ d < (sys.mesh r).ndomains, ∀ e, e ∈ (B0 d).entries ↔
    ∃ p i, is[Prod.fst p]? = some i ∧ p.2 < interfaceRows kernels i.shared ∧ i.Joins d ∧
      ∃ x ∈ i.places, ∃ dof < sys.DOFs,
        e = ⟨row p, sys.column (sys.distribution.border r + d) x.1 (dof, x.2),
          (if i.first = d then 1 else -1) * i.value kernels p.2 x dof⟩
  once : ∀ d < (sys.mesh r).ndomains, ((B0 d).entries.map fun e => (e.row, e.col)).Nodup
  nnz : ∀ d < (sys.mesh r).ndomains, (B0 d).nnz = (B0 d).entries.length

/-- `B0subdomainsMap` holds the row of every entry, from 0 on. -/
def B0Matrix.ZeroBased (B : B0Matrix) : Prop := B.B0subdomainsMap = B.entries.map fun e => e.row - 1

lemma B0Corners_zeroBased {DOFs : ℕ} {m : Mesh} {domainDOFCount : ℕ → ℕ}
    {corners : List (ℕ × List ℕ)} {B0 : ℕ → B0Matrix}
    (h : B0Corners DOFs m domainDOFCount corners = some B0) (d : ℕ) : (B0 d).ZeroBased := by
  obtain ⟨st, -, rfl⟩ := Option.map_eq_some_iff.mp h
  rfl

/-- `B0Kernels` returns matrices that glue the domains, with rows from 0 on in the map. -/
def KernelsRight (domainDOFCount : ℕ → ℕ) (is : List (Interface sys r)) : Prop :=
  ∃ B0 : ℕ → B0Matrix,
    (∀ d < (sys.mesh r).ndomains, B0Kernels sys.DOFs (sys.mesh r) clusters kernels domainDOFCount
      (is.map Interface.shared) d = some (B0 d)) ∧
    (∃ row, Glues clusters kernels is B0 row) ∧ ∀ d < (sys.mesh r).ndomains, (B0 d).ZeroBased

variable {clusters kernels}

lemma mem_zip_rowIndex {is : List (Interface sys r)} {i : Interface sys r} {start' : ℕ} :
    (i, start') ∈ is.zip (rowIndex clusters kernels is).1 ↔
      ∃ j, is[j]? = some i ∧ start' = (rowIndex clusters kernels is).1.getD j 0 := by
  have hstarts : ∀ j, is[j]? = some i → (rowIndex clusters kernels is).1[j]?
      = some ((rowIndex clusters kernels is).1.getD j 0) := by
    intro j hj
    rw [List.getD_eq_getElem?_getD, rowIndex, rowIndices_fst, List.getElem?_map, hj]
    rfl
  rw [List.mem_iff_getElem?]
  refine ⟨?_, ?_⟩
  · rintro ⟨j, hj⟩
    obtain ⟨hi, hstart⟩ := List.getElem?_zip_eq_some.mp hj
    exact ⟨j, hi, Option.some.inj (hstart.symm.trans (hstarts j hi))⟩
  · rintro ⟨j, hi, rfl⟩
    exact ⟨j, List.getElem?_zip_eq_some.mpr ⟨hi, hstarts j hi⟩⟩

lemma mem_domainEntries {is : List (Interface sys r)} {d : ℕ} {e : Entry} :
    e ∈ domainEntries clusters kernels is d ↔
      ∃ p i, is[Prod.fst p]? = some i ∧ p.2 < interfaceRows kernels i.shared ∧ i.Joins d ∧
        ∃ x ∈ i.places, ∃ dof < sys.DOFs,
          e = ⟨kernelRow clusters kernels (is.map Interface.shared) p,
            sys.column (sys.distribution.border r + d) x.1 (dof, x.2),
            (if i.first = d then 1 else -1) * i.value kernels p.2 x dof⟩ := by
  rw [domainEntries, List.mem_flatMap]
  refine ⟨?_, ?_⟩
  · rintro ⟨⟨i, start'⟩, hp, he⟩
    obtain ⟨j, hj, rfl⟩ := mem_zip_rowIndex.mp hp
    split_ifs at he with hd
    · obtain ⟨c, hc, x, hx, dof, hdof, rfl⟩ := Interface.mem_entriesOf.mp he
      exact ⟨(j, c), i, hj, hc, hd, x, hx, dof, hdof, rfl⟩
    · exact absurd he List.not_mem_nil
  · rintro ⟨⟨j, c⟩, i, hj, hc, hd, x, hx, dof, hdof, rfl⟩
    refine ⟨(i, _), mem_zip_rowIndex.mpr ⟨j, hj, rfl⟩, ?_⟩
    simp only [if_pos hd]
    exact Interface.mem_entriesOf.mpr ⟨c, hc, x, hx, dof, hdof, rfl⟩

lemma rows_eq (is : List (Interface sys r)) (C : ℕ) :
    {p : ℕ × ℕ | ∃ s, (is.map Interface.shared)[p.1]? = some s ∧ clusters s.first = C ∧
        p.2 < interfaceRows kernels s}
      = {p | ∃ i, is[p.1]? = some i ∧ clusters i.first = C ∧
          p.2 < interfaceRows kernels i.shared} := by
  ext p
  simp only [Set.mem_ofPred_eq, List.getElem?_map, Option.map_eq_some_iff]
  refine ⟨?_, ?_⟩
  · rintro ⟨_, ⟨i, hi, rfl⟩, h⟩
    exact ⟨i, hi, h⟩
  · rintro ⟨i, hi, h⟩
    exact ⟨i.shared, ⟨i, hi, rfl⟩, h⟩

lemma row_of_mem {is : List (Interface sys r)}
    (hwithin : ∀ i ∈ is, clusters (Interface.first i) = clusters i.second) {d j : ℕ}
    {p : Interface sys r × ℕ} (hp : (is.zip (rowIndex clusters kernels is).1)[j]? = some p)
    {e : Entry} (he : e ∈ if p.1.Joins d then Interface.entriesOf kernels p.1 d p.2 else []) :
    ∃ c, (∃ i, is[j]? = some i ∧ clusters i.first = clusters d ∧
        c < interfaceRows kernels i.shared) ∧
      e.row = kernelRow clusters kernels (is.map Interface.shared) (j, c) := by
  obtain ⟨hi, hstart⟩ := List.getElem?_zip_eq_some.mp hp
  split_ifs at he with hd
  · obtain ⟨c, hc, x, -, dof, -, rfl⟩ := Interface.mem_entriesOf.mp he
    refine ⟨c, ⟨p.1, hi, ?_, hc⟩, ?_⟩
    · rcases hd with h | h
      · rw [h]
      · rw [hwithin p.1 (List.mem_of_getElem? hi), h]
    · rw [rowIndex] at hstart
      rw [kernelRow, List.getD_eq_getElem?_getD, hstart, Option.getD_some]
  · exact absurd he List.not_mem_nil

lemma nodup_domainEntries {is : List (Interface sys r)}
    (hwithin : ∀ i ∈ is, clusters (Interface.first i) = clusters i.second) (d : ℕ) :
    ((domainEntries clusters kernels is d).map fun e => (e.row, e.col)).Nodup := by
  have hinj := (kernelRow_bijOn clusters kernels (is.map Interface.shared) (clusters d)).injOn
  rw [rows_eq] at hinj
  rw [domainEntries, List.map_flatMap, List.nodup_flatMap]
  refine ⟨fun p _ => ?_, List.pairwise_iff_getElem.mpr fun a b ha hb hab => ?_⟩
  · split_ifs with hd
    · exact Interface.nodup_entriesOf kernels hd p.2
    · exact List.nodup_nil
  · intro q hqa hqb
    obtain ⟨e, he, rfl⟩ := List.mem_map.mp hqa
    obtain ⟨e', he', heq⟩ := List.mem_map.mp hqb
    obtain ⟨c, hc, hrow⟩ := row_of_mem hwithin (List.getElem?_eq_getElem ha) he
    obtain ⟨c', hc', hrow'⟩ := row_of_mem hwithin (List.getElem?_eq_getElem hb) he'
    have hsame : (a, c) = (b, c') :=
      hinj hc hc' (hrow.symm.trans ((Prod.mk.inj heq).1.symm.trans hrow'))
    have := (Prod.mk.inj hsame).1
    omega

/-- **The rows of `B0Kernels` glue** the domains when every interface lies in one cluster. -/
theorem kernels_glue (clusters : ℕ → ℕ) (kernels : ℕ → DenseMatrix) (hr : r < sys.ranks)
    {is : List (Interface sys r)}
    (hwithin : ∀ i ∈ is, clusters (Interface.first i) = clusters i.second)
    (domainDOFCount : ℕ → ℕ) :
    ∃ B0 : ℕ → B0Matrix,
      (∀ d, B0Kernels sys.DOFs (sys.mesh r) clusters kernels domainDOFCount
        (is.map Interface.shared) d = some (B0 d)) ∧
      Glues clusters kernels is B0 (kernelRow clusters kernels (is.map Interface.shared)) := by
  refine ⟨_, B0Kernels_eq clusters kernels hr domainDOFCount is, ⟨fun d _ => ?_,
    fun d _ e => mem_domainEntries, fun d _ => nodup_domainEntries hwithin d, fun d _ => rfl⟩⟩
  have hrows := kernelRow_bijOn clusters kernels (is.map Interface.shared) (clusters d)
  rw [rows_eq] at hrows
  exact hrows

lemma not_zeroBased {domainDOFCount : ℕ → ℕ} (hr : r < sys.ranks) {is : List (Interface sys r)}
    {i : Interface sys r} (hi : i ∈ is) {B : B0Matrix}
    (hB : B0Kernels sys.DOFs (sys.mesh r) clusters kernels domainDOFCount
      (is.map Interface.shared) i.first = some B) : ¬B.ZeroBased := by
  rw [B0Kernels_eq clusters kernels hr] at hB
  obtain rfl := Option.some.inj hB
  intro hzero
  obtain ⟨j, hj⟩ := List.mem_iff_getElem?.mp hi
  obtain ⟨x, hx⟩ := List.exists_mem_of_ne_nil _ i.nonempty
  have hrow := List.map_inj_left.mp hzero _ (mem_domainEntries.mpr ⟨(j, 0), i, hj,
    by simp only [interfaceRows]; omega, Or.inl rfl, x, hx, 0, sys.DOFs_pos, rfl⟩)
  simp only [kernelRow] at hrow
  omega

/-- **`B0Kernels` and its map**: the map is right only on a rank without interfaces; the rows glue
whenever every interface lies in one cluster. -/
theorem kernels_right_iff (clusters : ℕ → ℕ) (kernels : ℕ → DenseMatrix) (hr : r < sys.ranks)
    (domainDOFCount : ℕ → ℕ) (is : List (Interface sys r)) :
    (KernelsRight clusters kernels domainDOFCount is ↔ is = []) ∧
      ((∀ i ∈ is, clusters (Interface.first i) = clusters i.second) → ∃ B0 : ℕ → B0Matrix,
        (∀ d < (sys.mesh r).ndomains, B0Kernels sys.DOFs (sys.mesh r) clusters kernels
          domainDOFCount (is.map Interface.shared) d = some (B0 d)) ∧
        ∃ row, Glues clusters kernels is B0 row) := by
  refine ⟨⟨?_, ?_⟩, fun hwithin => ?_⟩
  · rintro ⟨B0, hB0, -, hzero⟩
    by_contra hne
    obtain ⟨i, hi⟩ := List.exists_mem_of_ne_nil _ hne
    have hd : i.first < (sys.mesh r).ndomains := Interface.lt_of_joins (Or.inl rfl)
    exact not_zeroBased hr hi (hB0 i.first hd) (hzero i.first hd)
  · rintro rfl
    have hnone : ∀ i ∈ ([] : List (Interface sys r)), clusters i.first = clusters i.second :=
      fun i hi => absurd hi List.not_mem_nil
    obtain ⟨B0, hB0, hglues⟩ := kernels_glue clusters kernels hr hnone domainDOFCount
    refine ⟨B0, fun d _ => hB0 d, ⟨_, hglues⟩, fun d _ => ?_⟩
    have h := (hB0 d).symm.trans (B0Kernels_eq clusters kernels hr domainDOFCount [] d)
    rw [Option.some.inj h]
    rfl
  · obtain ⟨B0, hB0, hglues⟩ := kernels_glue clusters kernels hr hwithin domainDOFCount
    exact ⟨B0, fun d _ => hB0 d, _, hglues⟩

end Cluster

def sharedNode : Interface twoDomains 0 where
  first := 0
  second := 1
  lt := Nat.zero_lt_one
  second_lt := Nat.one_lt_two
  places := [(0, 0)]
  nonempty := List.cons_ne_nil _ _
  ascending := List.pairwise_singleton _ _
  mem x hx := by
    obtain rfl := List.mem_singleton.mp hx
    exact ⟨Nat.zero_lt_one, Nat.zero_lt_one, List.mem_cons_self,
      List.mem_cons_of_mem 0 List.mem_cons_self⟩

def noKernels (_ : ℕ) : DenseMatrix := ⟨2, 0, fun _ => 0⟩

theorem kernels_right_twoDomains :
    KernelsRight (fun _ => 0) noKernels (fun _ => 2) ([] : List (Interface twoDomains 0)) ∧
      ∃ B0 : ℕ → B0Matrix,
        (∀ d < (twoDomains.mesh 0).ndomains, B0Kernels twoDomains.DOFs (twoDomains.mesh 0)
          (fun _ => 0) noKernels (fun _ => 2) ([sharedNode].map Interface.shared) d
            = some (B0 d)) ∧
        ∃ row, Glues (fun _ => 0) noKernels [sharedNode] B0 row :=
  ⟨(kernels_right_iff (fun _ => 0) noKernels Nat.zero_lt_one (fun _ => 2) []).1.mpr rfl,
    (kernels_right_iff (fun _ => 0) noKernels Nat.zero_lt_one (fun _ => 2) [sharedNode]).2
      fun _ _ => rfl⟩

/-- One node of two domains without kernels already gets row 1 in the map. -/
theorem not_kernels_right_sharedNode :
    ¬KernelsRight (fun _ => 0) noKernels (fun _ => 2) [sharedNode] := by
  rintro ⟨B0, hB0, -, hzero⟩
  exact not_zeroBased Nat.zero_lt_one List.mem_cons_self (hB0 0 Nat.zero_lt_two)
    (hzero 0 Nat.zero_lt_two)

end Espreso
