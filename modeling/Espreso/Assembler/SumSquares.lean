import Espreso.Lib.Fallible
import Espreso.Mesh.Intervals
import Mathlib.Data.Rat.Defs

/-!
# Sums of squares over nodes

`HeatTransfer::sumSquares` sums the squares of data of all domains, over all nodes, over the nodes
of the Dirichlet regions, or over the others.

* `Decomposition` — a mesh of all ranks with its node intervals, the threads of each rank, and data
  with one value for each node of each domain.
* **`splits_iff`** — the sum is split if and only if the data vanish on the nodes of two regions.
-/

namespace Espreso

namespace SumSquares

open Layout Finset

/-! ## Decompositions and data -/

/-- A decomposed mesh.  Every rank has a domain, every domain has a node, and the domains of a rank
are distributed to its threads. -/
structure Decomposition extends System where
  ndomains_pos : ∀ r < ranks, distribution.border r < distribution.border (r + 1)
  nodes_pos : ∀ d < domains,
    0 < ∑ g ∈ (range count).filter fun g => d ∈ (interval g).domains, (interval g).size
  threads : ℕ
  domainDistribution : (r : ℕ) →
    Distribution threads (distribution.border (r + 1) - distribution.border r)

namespace Decomposition

variable (D : Decomposition)

def nodes (d : ℕ) : ℕ :=
  ∑ g ∈ (range D.count).filter fun g => d ∈ (D.interval g).domains, (D.interval g).size

end Decomposition

/-- Data with one DOF per node, for all domains of all ranks. -/
structure DomainData (D : Decomposition) where
  values : ℕ → List ℚ
  sized : ∀ d, (values d).length = D.nodes d

/-- The nodes of a boundary region, as their positions in the intervals. -/
structure NodeSet (D : Decomposition) where
  positions : ℕ → List ℕ
  ascending : ∀ g, (positions g).Pairwise (· < ·)
  lt : ∀ g, ∀ k ∈ positions g, k < (D.interval g).size

namespace NodeSet

variable {D : Decomposition}

/-- `ALL_NODES` -/
def allNodes (D : Decomposition) : NodeSet D where
  positions g := List.range (D.interval g).size
  ascending _ := List.pairwise_lt_range
  lt _ _ hk := List.mem_range.mp hk

/-- `region->nodes` of a rank. -/
def nodes (R : NodeSet D) (r : ℕ) : List ℕ :=
  (D.ids r).flatMap fun g => (R.positions g).map (D.nodeOffset r g + ·)

/-- `region->nintervals` of a rank. -/
def nintervals (R : NodeSet D) (r : ℕ) : List (ℕ × ℕ) :=
  (D.mesh r).pintervals.map fun p =>
    (lowerBound (R.nodes r) p.begin', lowerBound (R.nodes r) p.end')

end NodeSet

/-! ## The code -/

def intervalSquares (nodes : List ℕ) (dimension : ℕ) (data : List ℚ)
    (di : GluingInterval (ProcessInterval × ℕ × ℕ)) : ℚ :=
  let offset := dimension * di.interval.1.begin'
  let first := dimension * di.interval.2.1
  let last := dimension * di.interval.2.2
  ((List.range' first (last - first)).map fun i =>
    let value := data.getD (di.DOFOffset + nodes.getD i 0 - offset) 0
    value * value).sum

/-- The sum of a domain; `pindex` is the common index of the intervals of the rank and of the
region. -/
def domainSquares (m : Mesh) (nodes : List ℕ) (nintervals : List (ℕ × ℕ)) (dimension d : ℕ)
    (data : List ℚ) : ℚ :=
  ((gintervals Prod.fst (m.firstDomain + d) 0 (m.pintervals.zip nintervals)).map
    (intervalSquares nodes dimension data)).sum

/-- `dimension` in `Mesh::sumSquares`; `none` is a division by zero. -/
def dimension (m : Mesh) (data : ℕ → List ℚ) : Option ℕ := do
  let last ← (gintervals id m.firstDomain 0 m.pintervals).getLast?
  let nodes := last.DOFOffset + (last.interval.end' - last.interval.begin')
  if nodes = 0 then none else some ((data 0).length / nodes)

/-- `csum` in `Mesh::sumSquares`, the part of a rank. -/
def rankSquares {D : Decomposition} (R : NodeSet D) (data : DomainData D) (r : ℕ) : Option ℚ := do
  let m := D.mesh r
  let local' := fun d => data.values (m.firstDomain + d)
  let dimension ← dimension m local'
  some ((List.range D.threads).map fun t =>
    let begin' := (D.domainDistribution r).border t
    let end' := (D.domainDistribution r).border (t + 1)
    ((List.range' begin' (end' - begin')).map fun d =>
      domainSquares m (R.nodes r) (R.nintervals r) dimension d (local' d)).sum).sum

/-- **`Mesh::sumSquares`**: the sum over the ranks. -/
def meshSquares {D : Decomposition} (R : NodeSet D) (data : DomainData D) : Option ℚ := do
  let sums ← (List.range D.ranks).mapM (rankSquares R data)
  some sums.sum

inductive SumRestriction where
  | None
  | Dirichlet
  | NonDirichlet

/-- **`HeatTransfer::sumSquares`**, with the regions of the temperature of the load step. -/
def sumSquares {D : Decomposition} (regions : List (NodeSet D)) (data : DomainData D) :
    SumRestriction → Option ℚ
  | .None => meshSquares (NodeSet.allNodes D) data
  | .Dirichlet => do
      let sums ← regions.mapM fun R => meshSquares R data
      some sums.sum
  | .NonDirichlet => do
      let none ← meshSquares (NodeSet.allNodes D) data
      let sums ← regions.mapM fun R => meshSquares R data
      some (none - sums.sum)

/-! ## The nodes of an interval -/

section Slices

lemma lowerBound_append {A L : List ℕ} {v : ℕ} (hA : ∀ y ∈ A, y < v) (hL : ∀ y ∈ L, v ≤ y) :
    lowerBound (A ++ L) v = A.length := by
  cases L with
  | nil => rw [List.append_nil, lowerBound_eq_length hA]
  | cons x L => exact lowerBound_eq_of_append hA (hL x List.mem_cons_self)

lemma map_getD_range' (A B C : List ℕ) :
    (List.range' A.length B.length).map (fun i => (A ++ B ++ C).getD i 0) = B := by
  refine List.ext_getElem? fun i => ?_
  rw [List.getElem?_map]
  by_cases hi : i < B.length
  · have hget : (A ++ B ++ C)[A.length + i]? = B[i]? := by
      rw [List.append_assoc, List.getElem?_append_right (Nat.le_add_right _ _),
        Nat.add_sub_cancel_left, List.getElem?_append_left hi]
    rw [List.getElem?_range' hi, Option.map_some, Nat.one_mul, List.getD_eq_getElem?_getD, hget,
      List.getElem?_eq_getElem hi, Option.getD_some]
  · have hle := not_lt.mp hi
    rw [List.getElem?_eq_none hle, List.getElem?_eq_none (by rwa [List.length_range']),
      Option.map_none]

variable {D : Decomposition} {r : ℕ}

lemma nodeOffset_add_le {g h : ℕ} (hg : r ∈ D.iranks g) (hgh : g < h) :
    D.nodeOffset r g + (D.interval g).size ≤ D.nodeOffset r h := by
  have hle := start_add_le (fun i => if r ∈ D.iranks i then (D.interval i).size else 0) hgh
  simp only [if_pos hg] at hle
  exact hle

lemma NodeSet.map_nodes (R : NodeSet D) {g : ℕ} (hg : g ∈ D.ids r) :
    (List.range' (lowerBound (R.nodes r) (D.nodeOffset r g))
      (lowerBound (R.nodes r) (D.nodeOffset r g + (D.interval g).size)
        - lowerBound (R.nodes r) (D.nodeOffset r g))).map (fun i => (R.nodes r).getD i 0)
      = (R.positions g).map (D.nodeOffset r g + ·) := by
  obtain ⟨before, after, hids⟩ := List.append_of_mem hg
  have hsorted : (D.ids r).Pairwise (· < ·) := List.pairwise_lt_range.filter _
  rw [hids, List.pairwise_append, List.pairwise_cons] at hsorted
  obtain ⟨-, ⟨hafter, -⟩, hbefore⟩ := hsorted
  have hmem : ∀ h ∈ D.ids r, r ∈ D.iranks h := fun h hh => (System.mem_ids.mp hh).2
  set block := fun g => (R.positions g).map (D.nodeOffset r g + ·) with hblock
  have hnodes : R.nodes r = before.flatMap block ++ block g ++ after.flatMap block := by
    rw [NodeSet.nodes, hids, List.flatMap_append, List.flatMap_cons, List.append_assoc]
  have hlt : ∀ y ∈ before.flatMap block, y < D.nodeOffset r g := by
    intro y hy
    obtain ⟨h, hh, hy⟩ := List.mem_flatMap.mp hy
    obtain ⟨k, hk, rfl⟩ := List.mem_map.mp hy
    have hh' : h ∈ D.ids r := hids ▸ List.mem_append_left _ hh
    have hle := nodeOffset_add_le (hmem h hh') (hbefore h hh g List.mem_cons_self)
    have hsize := R.lt h k hk
    omega
  have hmid : ∀ y ∈ block g, D.nodeOffset r g ≤ y ∧ y < D.nodeOffset r g + (D.interval g).size := by
    intro y hy
    obtain ⟨k, hk, rfl⟩ := List.mem_map.mp hy
    have hsize := R.lt g k hk
    omega
  have hge : ∀ y ∈ after.flatMap block, D.nodeOffset r g + (D.interval g).size ≤ y := by
    intro y hy
    obtain ⟨h, hh, hy⟩ := List.mem_flatMap.mp hy
    obtain ⟨k, hk, rfl⟩ := List.mem_map.mp hy
    have hle := nodeOffset_add_le (hmem g hg) (hafter h hh)
    omega
  have hfirst : lowerBound (R.nodes r) (D.nodeOffset r g) = (before.flatMap block).length := by
    rw [hnodes, List.append_assoc]
    refine lowerBound_append hlt fun y hy => ?_
    rcases List.mem_append.mp hy with hy | hy
    · exact (hmid y hy).1
    · have hle := hge y hy
      omega
  have hlast : lowerBound (R.nodes r) (D.nodeOffset r g + (D.interval g).size)
      = (before.flatMap block).length + (block g).length := by
    rw [hnodes, ← List.length_append]
    refine lowerBound_append (fun y hy => ?_) hge
    rcases List.mem_append.mp hy with hy | hy
    · have hle := hlt y hy
      omega
    · exact (hmid y hy).2
  rw [hfirst, hlast, Nat.add_sub_cancel_left, hnodes]
  exact map_getD_range' _ _ _

end Slices

/-! ## Sums over pairs -/

section Pairs

variable {D : Decomposition}

/-- The data of a domain at a node, which is given by its interval and its position there. -/
def DomainData.value (data : DomainData D) (d g k : ℕ) : ℚ :=
  (data.values d).getD (D.dofOffset d g + k) 0

def overPairs (D : Decomposition) (f : ℕ → ℕ → ℕ → ℚ) : ℚ :=
  ((List.range D.domains).map fun d => ((D.domainIds d).map fun g =>
    ∑ k ∈ range (D.interval g).size, f d g k).sum).sum

lemma NodeSet.sum_positions (R : NodeSet D) (g : ℕ) (f : ℕ → ℚ) :
    ((R.positions g).map f).sum
      = ∑ k ∈ range (D.interval g).size, if k ∈ R.positions g then f k else 0 := by
  have hnodup : (R.positions g).Nodup := (R.ascending g).imp ne_of_lt
  rw [← sum_filter, ← List.sum_toFinset f hnodup]
  refine sum_congr (Finset.ext fun k => ?_) fun _ _ => rfl
  rw [List.mem_toFinset, mem_filter, mem_range]
  exact ⟨fun hk => ⟨R.lt g k hk, hk⟩, fun hk => hk.2⟩

lemma intervalSquares_eq (R : NodeSet D) (data : DomainData D) {r d g : ℕ} (hg : g ∈ D.ids r)
    (dindex ndomains : ℕ) :
    intervalSquares (R.nodes r) 1 (data.values d)
        ⟨(D.view (D.nodeOffset r g) g, lowerBound (R.nodes r) (D.nodeOffset r g),
          lowerBound (R.nodes r) (D.nodeOffset r g + (D.interval g).size)),
          D.dofOffset d g, dindex, ndomains⟩
      = ∑ k ∈ range (D.interval g).size,
          if k ∈ R.positions g then data.value d g k * data.value d g k else 0 := by
  rw [← R.sum_positions g fun k => data.value d g k * data.value d g k]
  simp only [intervalSquares, System.view, Nat.one_mul]
  have hmap := congrArg (List.map fun n =>
    (data.values d).getD (D.dofOffset d g + n - D.nodeOffset r g) 0 *
      (data.values d).getD (D.dofOffset d g + n - D.nodeOffset r g) 0) (R.map_nodes hg)
  rw [List.map_map, List.map_map] at hmap
  refine congrArg List.sum (hmap.trans (List.map_congr_left fun k _ => ?_))
  have hindex : D.dofOffset d g + (D.nodeOffset r g + k) - D.nodeOffset r g
      = D.dofOffset d g + k := by omega
  simp only [Function.comp, hindex, DomainData.value]

lemma NodeSet.zip_nintervals (R : NodeSet D) (r : ℕ) :
    (D.mesh r).pintervals.zip (R.nintervals r) = (D.ids r).map fun g =>
      (D.view (D.nodeOffset r g) g, lowerBound (R.nodes r) (D.nodeOffset r g),
        lowerBound (R.nodes r) (D.nodeOffset r g + (D.interval g).size)) := by
  rw [NodeSet.nintervals, System.pintervals_eq, List.map_map, List.zip_map']
  rfl

lemma domainSquares_eq (R : NodeSet D) (data : DomainData D) {r d : ℕ} (hr : r < D.ranks)
    (hd : d < (D.mesh r).ndomains) :
    domainSquares (D.mesh r) (R.nodes r) (R.nintervals r) 1 d
        (data.values ((D.mesh r).firstDomain + d))
      = ((D.domainIds ((D.mesh r).firstDomain + d)).map fun g =>
          ∑ k ∈ range (D.interval g).size, if k ∈ R.positions g then
            data.value ((D.mesh r).firstDomain + d) g k
              * data.value ((D.mesh r).firstDomain + d) g k
          else 0).sum := by
  set e := (D.mesh r).firstDomain + d with he
  have hrank : D.rankOf e = r := by
    simp only [System.mesh] at hd he
    exact System.rankOf_eq hr (by omega) (by omega)
  rw [domainSquares, R.zip_nintervals, ← he]
  have hids : D.ids r = D.ids (D.rankOf e) := by rw [hrank]
  rw [hids, System.gintervals_eq D.toSystem Prod.fst _ e (fun g => by rw [hrank]), List.map_map]
  refine congrArg List.sum (List.map_congr_left fun g hg => ?_)
  have hmem : g ∈ D.ids r := by
    obtain ⟨hcount, hdomain⟩ := System.mem_domainIds.mp hg
    exact System.mem_ids.mpr ⟨hcount, hrank ▸ List.mem_map_of_mem hdomain⟩
  exact intervalSquares_eq R data hmem _ _

/-! ### The dimension -/

lemma nodes_eq_start (D : Decomposition) (d : ℕ) :
    D.nodes d
      = start (fun h => if d ∈ (D.interval h).domains then (D.interval h).size else 0) D.count :=
  sum_filter _ _

lemma dofOffset_last {d g : ℕ} (hlast : (D.domainIds d).getLast? = some g) :
    D.dofOffset d g + (D.interval g).size = D.nodes d := by
  obtain ⟨hcount, hdomain⟩ := System.mem_domainIds.mp (List.mem_of_getLast? hlast)
  have hle : ∀ h ∈ D.domainIds d, h ≤ g := by
    intro h hh
    obtain ⟨init, hinit⟩ := List.getLast?_eq_some_iff.mp hlast
    have hsorted : (D.domainIds d).Pairwise (· < ·) := List.pairwise_lt_range.filter _
    rw [hinit] at hsorted hh
    rcases List.mem_append.mp hh with hh | hh
    · exact ((List.pairwise_append.mp hsorted).2.2 h hh g List.mem_cons_self).le
    · exact (List.mem_singleton.mp hh).le
  rw [nodes_eq_start]
  set f := fun h => if d ∈ (D.interval h).domains then (D.interval h).size else 0 with hf
  have hstep : start f (g + 1) = D.dofOffset d g + (D.interval g).size := by
    rw [start_succ]
    simp only [hf, if_pos hdomain]
    rfl
  rw [← hstep]
  refine sum_subset (range_mono hcount) fun h hh hnot => if_neg fun hmem => ?_
  have hbelow := hle h (System.mem_domainIds.mpr ⟨mem_range.mp hh, hmem⟩)
  exact hnot (mem_range.mpr (Nat.lt_succ_of_le hbelow))

lemma dimension_eq_one (data : DomainData D) {r : ℕ} (hr : r < D.ranks) :
    dimension (D.mesh r) (fun d => data.values ((D.mesh r).firstDomain + d)) = some 1 := by
  set d := (D.mesh r).firstDomain with hd
  have hd' : D.distribution.border r = d := rfl
  have hlt := D.ndomains_pos r hr
  have hle : D.distribution.border (r + 1) ≤ D.domains := D.distribution.border_le_total hr
  have hrank : D.rankOf d = r := System.rankOf_eq hr (by omega) (by omega)
  have hpos : 0 < D.nodes d := D.nodes_pos d (by omega)
  have hintervals : gintervals id d 0 (D.mesh r).pintervals
      = (D.domainIds d).map fun g => ⟨D.view (D.nodeOffset r g) g, D.dofOffset d g,
          lowerBound (D.interval g).domains d, (D.interval g).domains.length⟩ := by
    rw [System.pintervals_eq]
    have hids : D.ids r = D.ids (D.rankOf d) := by rw [hrank]
    rw [hids]
    exact System.gintervals_eq D.toSystem id _ d fun g => by rw [hrank]; rfl
  obtain ⟨g, hg⟩ : ∃ g, (D.domainIds d).getLast? = some g := by
    rw [← Option.isSome_iff_exists, List.getLast?_isSome]
    rintro hnil
    have hzero : D.nodes d = 0 := by
      refine sum_eq_zero fun h hh => ?_
      obtain ⟨hcount, hmem⟩ := mem_filter.mp hh
      have hcontra := System.mem_domainIds.mpr ⟨mem_range.mp hcount, hmem⟩
      rw [hnil] at hcontra
      exact absurd hcontra List.not_mem_nil
    omega
  have hlast : D.dofOffset d g + (D.interval g).size = D.nodes d := dofOffset_last hg
  rw [dimension, hintervals, List.getLast?_map, hg]
  simp only [Option.map_some, Option.bind_eq_bind, Option.bind_some, System.view,
    Nat.add_sub_cancel_left, hlast, if_neg hpos.ne', Nat.add_zero, data.sized,
    Nat.div_self hpos]

/-! ### All ranks -/

/-- The square of the data at a pair, where its node is in a set of nodes. -/
def NodeSet.square (R : NodeSet D) (data : DomainData D) (d g k : ℕ) : ℚ :=
  if k ∈ R.positions g then data.value d g k * data.value d g k else 0

lemma sum_ranges {size total : ℕ} (d : Distribution size total) (f : ℕ → ℚ) :
    ((List.range size).map fun t =>
      ((List.range' (d.border t) (d.border (t + 1) - d.border t)).map f).sum).sum
      = ((List.range total).map f).sum := by
  rw [← d.flatMap_ranges, List.map_flatMap, List.flatMap_def, List.sum_flatten, List.map_map]
  rfl

lemma rankSquares_eq (R : NodeSet D) (data : DomainData D) {r : ℕ} (hr : r < D.ranks) :
    rankSquares R data r
      = some ((List.range' (D.distribution.border r)
          (D.distribution.border (r + 1) - D.distribution.border r)).map fun d =>
            ((D.domainIds d).map fun g =>
              ∑ k ∈ range (D.interval g).size, R.square data d g k).sum).sum := by
  rw [rankSquares]
  simp only [dimension_eq_one data hr, Option.bind_eq_bind, Option.bind_some, Option.some.injEq]
  rw [sum_ranges (D.domainDistribution r) fun d => domainSquares (D.mesh r) (R.nodes r)
    (R.nintervals r) 1 d (data.values ((D.mesh r).firstDomain + d)), List.range'_eq_map_range,
    List.map_map]
  refine congrArg List.sum (List.map_congr_left fun d hd => ?_)
  exact domainSquares_eq R data hr (List.mem_range.mp hd)

/-- **`Mesh::sumSquares`** counts every pair of a domain and a node of the region once. -/
theorem meshSquares_eq (R : NodeSet D) (data : DomainData D) :
    meshSquares R data = some (overPairs D (R.square data)) := by
  rw [meshSquares, Fallible.mapM_eq_some fun r hr => rankSquares_eq R data (List.mem_range.mp hr)]
  simp only [Option.bind_eq_bind, Option.bind_some, Option.some.injEq]
  exact sum_ranges D.distribution _

end Pairs

/-! ## What is expected -/

/-- **The pairs of a domain and one of its nodes**; a node is given by its interval and its position
there. -/
def Decomposition.pairs (D : Decomposition) : Finset (Σ _ : ℕ, Σ _ : ℕ, ℕ) :=
  (range D.domains).sigma fun d =>
    ((range D.count).filter fun g => d ∈ (D.interval g).domains).sigma fun g =>
      range (D.interval g).size

section Split

variable {D : Decomposition} (regions : List (NodeSet D)) (data : DomainData D)

def regionsOf (p : Σ _ : ℕ, Σ _ : ℕ, ℕ) : List (NodeSet D) :=
  regions.filter fun R => p.2.2 ∈ R.positions p.2.1

def square (p : Σ _ : ℕ, Σ _ : ℕ, ℕ) : ℚ :=
  data.value p.1 p.2.1 p.2.2 * data.value p.1 p.2.1 p.2.2

/-- **What is expected of the three sums**: those over all pairs, over the pairs whose node is in a
region, and over the other pairs. -/
structure Splits : Prop where
  none : sumSquares regions data .None = some (∑ p ∈ D.pairs, square data p)
  dirichlet : sumSquares regions data .Dirichlet
    = some (∑ p ∈ D.pairs with regionsOf regions p ≠ [], square data p)
  nonDirichlet : sumSquares regions data .NonDirichlet
    = some (∑ p ∈ D.pairs with regionsOf regions p = [], square data p)

variable {regions data}

lemma overPairs_eq (f : ℕ → ℕ → ℕ → ℚ) :
    overPairs D f = ∑ p ∈ D.pairs, f p.1 p.2.1 p.2.2 := by
  have hids : ∀ d, (D.domainIds d).toFinset
      = (range D.count).filter fun g => d ∈ (D.interval g).domains := by
    intro d
    ext g
    rw [List.mem_toFinset, System.mem_domainIds, mem_filter, mem_range]
  have hnodup : ∀ d, (D.domainIds d).Nodup := fun d => List.nodup_range.filter _
  rw [overPairs, ← List.sum_toFinset _ List.nodup_range, List.toFinset_range, Decomposition.pairs,
    sum_sigma]
  refine sum_congr rfl fun d _ => ?_
  rw [← List.sum_toFinset _ (hnodup d), hids, sum_sigma]

lemma sum_allNodes :
    overPairs D ((NodeSet.allNodes D).square data) = ∑ p ∈ D.pairs, square data p := by
  rw [overPairs_eq]
  refine sum_congr rfl fun p hp => if_pos ?_
  exact List.mem_range.mpr (mem_range.mp (mem_sigma.mp (mem_sigma.mp hp).2).2)

lemma sum_regions :
    (regions.map fun R => overPairs D (R.square data)).sum
      = ∑ p ∈ D.pairs, (regionsOf regions p).length * square data p := by
  induction regions with
  | nil => simp [regionsOf]
  | cons R regions ih =>
      rw [List.map_cons, List.sum_cons, ih, overPairs_eq, ← sum_add_distrib]
      refine sum_congr rfl fun p _ => ?_
      simp only [regionsOf, NodeSet.square, List.filter_cons, decide_eq_true_eq]
      split_ifs with hmem
      · rw [List.length_cons, Nat.cast_succ, add_mul, one_mul, add_comm]
        rfl
      · rw [zero_add]

lemma square_nonneg (p : Σ _ : ℕ, Σ _ : ℕ, ℕ) : 0 ≤ square data p := mul_self_nonneg _

lemma counted_iff (p : Σ _ : ℕ, Σ _ : ℕ, ℕ) :
    (if regionsOf regions p ≠ [] then square data p else 0)
        = (regionsOf regions p).length * square data p ↔
      (2 ≤ (regionsOf regions p).length → data.value p.1 p.2.1 p.2.2 = 0) := by
  have hzero : square data p = 0 ↔ data.value p.1 p.2.1 p.2.2 = 0 := mul_self_eq_zero
  rcases hregions : regionsOf regions p with - | ⟨R, - | ⟨R', rest⟩⟩
  · simp
  · simp
  · rw [if_pos (List.cons_ne_nil _ _), ← hzero]
    refine ⟨fun heq _ => ?_, fun h => ?_⟩
    · have hlength : (1 : ℚ) < (R :: R' :: rest).length := by
        rw [List.length_cons, List.length_cons]
        exact_mod_cast (by omega : 1 < rest.length + 1 + 1)
      by_contra hne
      exact hlength.ne' (mul_right_cancel₀ hne (heq.symm.trans (one_mul _).symm))
    · rw [h (by rw [List.length_cons, List.length_cons]; omega), mul_zero]

lemma counted_le (p : Σ _ : ℕ, Σ _ : ℕ, ℕ) :
    (if regionsOf regions p ≠ [] then square data p else 0)
      ≤ (regionsOf regions p).length * square data p := by
  split_ifs with hne
  · have hlength : (1 : ℚ) ≤ (regionsOf regions p).length :=
      Nat.one_le_cast.mpr (List.length_pos_iff.mpr hne)
    exact le_mul_of_one_le_left (square_nonneg p) hlength
  · exact mul_nonneg (Nat.cast_nonneg _) (square_nonneg p)

lemma mapM_meshSquares : (regions.mapM fun R => meshSquares R data)
    = some (regions.map fun R => overPairs D (R.square data)) :=
  Fallible.mapM_eq_some fun R _ => meshSquares_eq R data

lemma dirichlet_eq : sumSquares regions data .Dirichlet
    = some (∑ p ∈ D.pairs, (regionsOf regions p).length * square data p) := by
  simp only [sumSquares, mapM_meshSquares, Option.bind_eq_bind, Option.bind_some, sum_regions]

/-- The pairs in the regions are counted once if and only if the data vanish where regions overlap.
-/
lemma sum_counted_iff :
    ∑ p ∈ D.pairs with regionsOf regions p ≠ [], square data p
        = ∑ p ∈ D.pairs, (regionsOf regions p).length * square data p ↔
      ∀ p ∈ D.pairs, 2 ≤ (regionsOf regions p).length → data.value p.1 p.2.1 p.2.2 = 0 := by
  rw [sum_filter, sum_eq_sum_iff_of_le fun p _ => counted_le p]
  exact forall₂_congr fun p _ => counted_iff p

lemma Splits.eq_zero (h : Splits regions data) {p : Σ _ : ℕ, Σ _ : ℕ, ℕ} (hp : p ∈ D.pairs)
    (htwo : 2 ≤ (regionsOf regions p).length) : data.value p.1 p.2.1 p.2.2 = 0 :=
  sum_counted_iff.mp (Option.some.inj (h.dirichlet.symm.trans dirichlet_eq)) p hp htwo

/-- **`HeatTransfer::sumSquares` splits the sum** if and only if the data vanish on all nodes that
lie in two of the regions: each region counts its nodes again. -/
theorem splits_iff (regions : List (NodeSet D)) (data : DomainData D) :
    Splits regions data ↔
      ∀ p ∈ D.pairs, 2 ≤ (regionsOf regions p).length → data.value p.1 p.2.1 p.2.2 = 0 := by
  refine ⟨fun h p hp => h.eq_zero hp, fun h => ?_⟩
  have hnone : meshSquares (NodeSet.allNodes D) data = some (∑ p ∈ D.pairs, square data p) := by
    rw [meshSquares_eq, sum_allNodes]
  have hcounted := sum_counted_iff.mpr h
  refine ⟨hnone, dirichlet_eq.trans (congrArg some hcounted.symm), ?_⟩
  have hnon : sumSquares regions data .NonDirichlet
      = some (∑ p ∈ D.pairs, square data p
        - ∑ p ∈ D.pairs, (regionsOf regions p).length * square data p) := by
    simp only [sumSquares, hnone, mapM_meshSquares, Option.bind_eq_bind, Option.bind_some,
      sum_regions]
  refine hnon.trans (congrArg some ?_)
  rw [← hcounted, sub_eq_iff_eq_add,
    ← sum_filter_add_sum_filter_not D.pairs fun p => regionsOf regions p = []]

end Split

/-! ## Two equal regions -/

def oneDistribution : Distribution 1 1 := ⟨[0, 1], by decide, by decide, by decide, by decide⟩

lemma one_domains_lt : ∀ g < 1, ∀ d ∈ [0], d < 1 := by decide

lemma one_neighbours : ∀ g < 1, ∀ d ∈ [0], ∀ e ∈ [0],
    ∀ r q, oneDistribution.border r ≤ d → d < oneDistribution.border (r + 1) →
      oneDistribution.border q ≤ e → e < oneDistribution.border (q + 1) → r ≠ q →
        q ∈ ([] : List ℕ) := by
  intro g _ d hd e he r q h₁ _ h₃ _ hne
  have hfirst : ∀ r x : ℕ, x ∈ [0] → oneDistribution.border r ≤ x → r = 0 := by
    intro r x hx h
    match r with
    | 0 => rfl
    | 1 | r + 2 =>
      have hzero := List.mem_singleton.mp hx
      simp [oneDistribution, Distribution.border] at h
      omega
  exact absurd ((hfirst r d hd h₁).trans (hfirst q e he h₃).symm) hne

def oneInterval : Interval where
  domains := [0]
  nonempty := List.cons_ne_nil _ _
  ascending := List.pairwise_singleton _ _
  size := 1
  regions := fun _ => []
  region_sorted := Interval.noRegions_sorted
  region_lt _ _ hr := absurd hr List.not_mem_nil
  region_disjoint := Interval.noRegions_disjoint

def oneNode : Decomposition where
  ranks := 1
  domains := 1
  distribution := oneDistribution
  DOFs := 1
  DOFs_pos := Nat.zero_lt_one
  count := 1
  interval _ := oneInterval
  domains_lt := one_domains_lt
  neighbours _ := []
  neighbours_sorted := System.noNeighbours_sorted
  neighbours_lt := System.noNeighbours_lt
  neighbours_irrefl := System.noNeighbours_irrefl
  neighbours_symm := System.noNeighbours_symm
  neighbours_of_shared := one_neighbours
  count_le := System.one_le_limit
  ndomains_pos := by decide
  nodes_pos := by decide
  threads := 1
  domainDistribution _ := Distribution.uniform Nat.zero_lt_one _

def ones (D : Decomposition) : DomainData D where
  values d := List.replicate (D.nodes d) 1
  sized _ := List.length_replicate

/-- With two equal regions the nodes are counted twice. -/
theorem equal_regions_not_split :
    ¬Splits [NodeSet.allNodes oneNode, NodeSet.allNodes oneNode] (ones oneNode) := by
  intro h
  have hzero := h.eq_zero (p := ⟨0, 0, 0⟩) (by decide) (by decide)
  exact absurd hzero (by decide)

end SumSquares

end Espreso
