import Espreso.Mesh.DomainMesh

/-!
# Meshes on one rank

A list of elements makes a mesh on one rank: all nodes belong to the rank, and the links of a node
are the elements that list it.

* `OneRank` — the elements, each with its class and its nodes.
* `OneRank.mesh` — the mesh, with the elements distributed by `tarray::distribute`.
* `OneRank.domainMesh` — the mesh with domains.
-/

namespace Espreso

/-- The elements of a single rank, with the neighbors of each face and the elements of regions. -/
structure OneRank where
  threads : ℕ
  nnodes : ℕ
  elements : List (ElementCode × List ℕ)
  neighbors : List (List ℤ)
  regions : List (List ℕ)
  threads_pos : 0 < threads
  nonempty : 0 < elements.length
  valid : ∀ e ∈ elements, ((eclass e.1).type = .PLANE ∨ (eclass e.1).type = .VOLUME) ∧
    e.2.length = (eclass e.1).nodes ∧ ∀ n ∈ e.2, n < nnodes
  neighbors_length : neighbors.length = elements.length
  neighbors_valid : ∀ i < elements.length, (neighbors.getD i []).length
      = (eclass ((elements.map Prod.fst).getD i .POINT1)).faces.length ∧
    ∀ v ∈ neighbors.getD i [], v = -1 ∨ ∃ e < elements.length, v = e ∧
      ∃ n ∈ (elements.map Prod.snd).getD i [], n ∈ (elements.map Prod.snd).getD e []
  regions_valid : ∀ region ∈ regions, ∀ e ∈ region, e < elements.length

namespace OneRank

variable (O : OneRank)

def nodesOf (e : ℕ) : List ℕ := (O.elements.map Prod.snd).getD e []

def elementsOf (x : ℕ) : List ℕ := (List.range O.elements.length).filter fun e => x ∈ O.nodesOf e

def part : ElementPart where
  rank := 0
  threads := O.threads
  neighbours := []
  nIDs := List.range O.nnodes
  ranks := List.replicate O.nnodes [0]
  links := Serialized.ofRows ((List.range O.nnodes).map fun x => (O.elementsOf x).map Nat.cast)
  IDs := List.range O.elements.length
  nodes := Serialized.ofRows (O.elements.map Prod.snd)
  body := List.replicate O.elements.length 0
  material := List.replicate O.elements.length 0
  neighbors := some (Serialized.ofRows O.neighbors)
  regions := O.regions

lemma length_IDs : O.part.IDs.length = O.elements.length := List.length_range

lemma nodes_row {i : ℕ} (hi : i < O.elements.length) : O.part.nodes.row i = O.nodesOf i := by
  rw [nodesOf, List.getD_eq_getElem _ _ (by rwa [List.length_map])]
  exact Serialized.row_ofRows (by rwa [List.length_map])

lemma nIDs_iff {n x : ℕ} : O.part.nIDs[n]? = some x ↔ n < O.nnodes ∧ x = n := by
  rw [part, List.getElem?_eq_some_iff]
  simp only [List.length_range, List.getElem_range, exists_prop, eq_comm]

lemma mem_nodesOf {i : ℕ} (hi : i < O.elements.length) :
    (O.elements[i].1, O.nodesOf i) ∈ O.elements := by
  rw [nodesOf, List.getD_eq_getElem _ _ (by rwa [List.length_map]), List.getElem_map]
  exact List.getElem_mem hi

lemma contains_iff {x e : ℕ} : ContainsNode 1 (fun _ => O.part) x e ↔
    e < O.elements.length ∧ x ∈ O.nodesOf e := by
  constructor
  · rintro ⟨q, -, i, n, hi, hn, hx⟩
    obtain ⟨-, rfl⟩ := O.nIDs_iff.mp hx
    obtain ⟨hlt, rfl⟩ := List.getElem?_eq_some_iff.mp hi
    rw [length_IDs] at hlt
    rw [O.nodes_row hlt] at hn
    exact ⟨by simpa [part] using hlt, by simpa [part] using hn⟩
  · rintro ⟨he, hx⟩
    refine ⟨0, Nat.one_pos, e, x, List.getElem?_range he, (O.nodes_row he).symm ▸ hx,
      O.nIDs_iff.mpr ⟨?_, rfl⟩⟩
    exact (O.valid _ (O.mem_nodesOf he)).2.2 x hx

lemma rank_eq (r : ℕ) (hr : r < 1) : O.part.rank = r := (Nat.lt_one_iff.mp hr).symm

lemma neighbours_symm (r : ℕ) (_ : r < 1) (q : ℕ) (hq : q ∈ O.part.neighbours) :
    q < 1 ∧ q ≠ r ∧ r ∈ O.part.neighbours := by
  cases hq

lemma neighbours_of_shared (r : ℕ) (hr : r < 1) (q : ℕ) (hq : q < 1) (hne : q ≠ r)
    (_ : ∃ x ∈ O.part.nIDs, x ∈ O.part.nIDs) : q ∈ O.part.neighbours := by
  omega

lemma ranks_exact (r : ℕ) (_ : r < 1) (n x : ℕ) (h : O.part.nIDs[n]? = some x) :
    O.part.ranks[n]? = some ((List.range 1).filter fun _ => x ∈ O.part.nIDs) := by
  rw [List.filter_eq_self.mpr fun _ _ => decide_eq_true (List.mem_of_getElem? h)]
  exact List.getElem?_replicate_of_lt (O.nIDs_iff.mp h).1

lemma IDs_eq (r : ℕ) (hr : r < 1) : O.part.IDs = List.range'
    (((List.range r).map fun _ => O.part.IDs.length).sum) O.part.IDs.length := by
  obtain rfl := Nat.lt_one_iff.mp hr
  rw [length_IDs]
  exact List.range_eq_range'

lemma part_nonempty (r : ℕ) (_ : r < 1) : 0 < O.part.IDs.length := by
  rw [length_IDs]
  exact O.nonempty

lemma nodes_rows (r : ℕ) (_ : r < 1) : ∃ rows, O.part.nodes = Serialized.ofRows rows ∧
    rows.length = O.part.IDs.length :=
  ⟨_, rfl, by rw [length_IDs, List.length_map]⟩

lemma body_length (r : ℕ) (_ : r < 1) : O.part.body.length = O.part.IDs.length := by
  rw [length_IDs]
  exact List.length_replicate

lemma material_length (r : ℕ) (_ : r < 1) : O.part.material.length = O.part.IDs.length := by
  rw [length_IDs]
  exact List.length_replicate

lemma links_rows (r : ℕ) (_ : r < 1) : ∃ rows, O.part.links = Serialized.ofRows rows ∧
    rows.length = O.part.nIDs.length :=
  ⟨_, rfl, List.length_map _⟩

lemma links_exact (r : ℕ) (_ : r < 1) (n x : ℕ) (h : O.part.nIDs[n]? = some x) :
    (O.part.links.row n).Pairwise (· < ·) ∧ ∀ v, v ∈ O.part.links.row n ↔
      ∃ e : ℕ, v = e ∧ ContainsNode 1 (fun _ => O.part) x e := by
  obtain ⟨hn, rfl⟩ := O.nIDs_iff.mp h
  have hrow : O.part.links.row x = (O.elementsOf x).map Nat.cast := by
    rw [part, Serialized.row_ofRows (by rwa [List.length_map, List.length_range]), List.getElem_map,
      List.getElem_range]
  rw [hrow]
  constructor
  · refine List.pairwise_map.mpr ((List.pairwise_lt_range.filter _).imp fun h => ?_)
    exact Int.ofNat_lt.mpr h
  · intro v
    rw [List.mem_map]
    refine exists_congr fun e => ?_
    rw [contains_iff, elementsOf, List.mem_filter, List.mem_range, decide_eq_true_eq, and_comm,
      eq_comm]

lemma neighbors_rows (r : ℕ) (_ : r < 1) (N : Serialized ℤ) (h : O.part.neighbors = some N) :
    ∃ rows, N = Serialized.ofRows rows ∧ rows.length = O.part.IDs.length :=
  ⟨O.neighbors, (Option.some.inj h).symm, by rw [length_IDs, O.neighbors_length]⟩

lemma neighbors_row {i : ℕ} (hi : i < O.elements.length) :
    (Serialized.ofRows O.neighbors).row i = O.neighbors.getD i [] := by
  rw [← O.neighbors_length] at hi
  rw [Serialized.row_ofRows hi, List.getD_eq_getElem _ _ hi]

lemma neighbors_shared (r : ℕ) (_ : r < 1) (N : Serialized ℤ) (h : O.part.neighbors = some N)
    (i : ℕ) (hi : i < O.part.IDs.length) (v : ℤ) (hv : v ∈ N.row i) : v = -1 ∨ ∃ e : ℕ, v = e ∧
      ∃ n ∈ O.part.nodes.row i, ∃ x, O.part.nIDs[n]? = some x ∧
        ContainsNode 1 (fun _ => O.part) x e := by
  obtain rfl := Option.some.inj h
  rw [length_IDs] at hi
  rw [O.neighbors_row hi] at hv
  refine ((O.neighbors_valid i hi).2 v hv).imp_right ?_
  rintro ⟨e, he, rfl, n, hn, hne⟩
  rw [O.nodes_row hi]
  exact ⟨e, rfl, n, hn, n, O.nIDs_iff.mpr ⟨(O.valid _ (O.mem_nodesOf hi)).2.2 n hn, rfl⟩,
    O.contains_iff.mpr ⟨he, hne⟩⟩

lemma part_threads_pos (r : ℕ) (_ : r < 1) : 0 < O.part.threads := O.threads_pos

lemma neighbours_ascending (r : ℕ) (_ : r < 1) : O.part.neighbours.Pairwise (· < ·) :=
  List.Pairwise.nil

lemma regions_lt (r : ℕ) (_ : r < 1) : ∀ region ∈ O.part.regions, ∀ i ∈ region,
    i < O.part.IDs.length := by
  rw [length_IDs]
  exact O.regions_valid

def elementMesh : ElementMesh where
  size := 1
  part := fun _ => O.part
  rank_eq := O.rank_eq
  threads_pos := O.part_threads_pos
  neighbours_ascending := O.neighbours_ascending
  neighbours_symm := O.neighbours_symm
  neighbours_of_shared := O.neighbours_of_shared
  ranks_exact := O.ranks_exact
  IDs_eq := O.IDs_eq
  nonempty := O.part_nonempty
  nodes_rows := O.nodes_rows
  body_length := O.body_length
  material_length := O.material_length
  links_rows := O.links_rows
  links_exact := O.links_exact
  neighbors_rows := O.neighbors_rows
  neighbors_shared := O.neighbors_shared
  regions_lt := O.regions_lt

lemma epointers_length (r : ℕ) (_ : r < 1) :
    (O.elements.map Prod.fst).length = O.part.IDs.length := by
  rw [length_IDs, List.length_map]

lemma types (r : ℕ) (_ : r < 1) : ∀ c ∈ O.elements.map Prod.fst,
    (eclass c).type = .PLANE ∨ (eclass c).type = .VOLUME := by
  intro c hc
  obtain ⟨e, he, rfl⟩ := List.mem_map.mp hc
  exact (O.valid e he).1

lemma element_nodes (r : ℕ) (_ : r < 1) (i : ℕ) (hi : i < O.part.IDs.length) :
    (O.part.nodes.row i).length = (ElementPart.epointer (O.elements.map Prod.fst) i).nodes ∧
      ∀ n ∈ O.part.nodes.row i, n < O.part.nIDs.length := by
  rw [length_IDs] at hi
  obtain ⟨-, hlength, hnodes⟩ := O.valid _ (O.mem_nodesOf hi)
  have hcode : (O.elements.map Prod.fst).getD i .POINT1 = O.elements[i].1 := by
    rw [List.getD_eq_getElem _ _ (by rwa [List.length_map]), List.getElem_map]
  rw [O.nodes_row hi, ElementPart.epointer, hcode]
  exact ⟨hlength, fun n hn => (hnodes n hn).trans_eq List.length_range.symm⟩

/-- **The mesh** of the elements. -/
def mesh : FaceMesh where
  toElementMesh := O.elementMesh
  epointers := fun _ => O.elements.map Prod.fst
  distribution := fun _ => Distribution.uniform O.threads_pos O.part.IDs.length
  epointers_length := O.epointers_length
  types := O.types
  element_nodes := O.element_nodes

lemma nIDs_nodup (r : ℕ) (_ : r < 1) : O.part.nIDs.Nodup := List.nodup_range

lemma neighbors_fit : O.mesh.NeighborsFit := by
  intro r _ N h i hi
  obtain rfl := Option.some.inj h
  rw [show (O.mesh.part r).IDs.length = O.elements.length from O.length_IDs] at hi
  rw [O.neighbors_row hi]
  exact (O.neighbors_valid i hi).1

def domainMesh {ndomains : ℕ} (domains : Distribution O.threads ndomains)
    (elements : Distribution ndomains O.part.IDs.length) : DomainMesh where
  toFaceMesh := O.mesh
  ndomains := fun _ => ndomains
  domainDistribution := fun _ => domains
  elementsDistribution := fun _ => elements
  nodeDistribution := fun _ => Distribution.uniform O.threads_pos O.part.nIDs.length
  nIDs_nodup := O.nIDs_nodup
  neighbors_fit := O.neighbors_fit

end OneRank

end Espreso
