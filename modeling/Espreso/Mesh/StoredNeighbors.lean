import Espreso.Mesh.ElementNeighbors

/-!
# Stored neighbors

Functions of the preprocessing use `elements->neighbors` if they are stored, and compute them
otherwise. Either way an element has an entry for each of its faces.

* `FaceMesh.elementsNeighbors` — the neighbors that are used.
* `FaceMesh.FaceEntry` — a face with its entry.
* **`elementsNeighbors_cases`** — entries are elements with a common node, or `-1`.
-/

namespace Espreso

namespace FaceMesh

variable (M : FaceMesh)

def NeighborsFit : Prop :=
  ∀ r < M.size, ∀ N, (M.part r).neighbors = some N → ∀ i < (M.part r).IDs.length,
    (N.row i).length = (M.faces r i).length

def elementsNeighbors (r : ℕ) : Serialized ℤ := (M.part r).neighbors.getD (M.neighbors r)

/-- **A face of element `i`** and its entry among the neighbors. -/
def FaceEntry (r i : ℕ) (face : List ℕ) (v : ℤ) : Prop :=
  ∃ j : ℕ, (M.faces r i)[j]? = some face ∧ ((M.elementsNeighbors r).row i)[j]? = some v

variable {M} {r : ℕ} (hr : r < M.size)

include hr

lemma length_elementsNeighbors (h : M.NeighborsFit) {i : ℕ} (hi : i < (M.part r).IDs.length) :
    ((M.elementsNeighbors r).row i).length = (M.faces r i).length := by
  rw [elementsNeighbors]
  rcases hstored : (M.part r).neighbors with _ | N
  · rw [Option.getD_none, neighbors_row hr hi, List.length_map]
  · exact h r hr N hstored i hi

lemma structures_elementsNeighbors :
    (M.elementsNeighbors r).structures = (M.part r).IDs.length := by
  rw [elementsNeighbors]
  rcases hstored : (M.part r).neighbors with _ | N
  · rw [Option.getD_none, neighbors_eq hr, Serialized.structures_ofRows, List.length_map,
      List.length_range]
  · obtain ⟨rows, rfl, hlength⟩ := M.neighbors_rows r hr N hstored
    rw [Option.getD_some, Serialized.structures_ofRows, hlength]

lemma faceNodes_lt {i n : ℕ} (hi : i < (M.part r).IDs.length) {face : List ℕ}
    (hface : face ∈ M.faces r i) (hn : n ∈ (M.part r).faceNodes i face) :
    n ∈ (M.part r).nodes.row i ∧ n < (M.part r).nIDs.length := by
  obtain ⟨hlength, hnodes⟩ := M.element_nodes r hr i hi
  obtain ⟨k, hk, rfl⟩ := List.mem_map.mp hn
  have hlt : k < ((M.part r).nodes.row i).length := by
    rw [hlength]
    exact (ElementCode.face_valid _ hface).2 k hk
  rw [List.getD_eq_getElem _ _ hlt]
  exact ⟨List.getElem_mem hlt, hnodes _ (List.getElem_mem hlt)⟩

lemma elementsNeighbors_cases {i : ℕ} (hi : i < (M.part r).IDs.length) {v : ℤ}
    (hv : v ∈ (M.elementsNeighbors r).row i) : v = -1 ∨ ∃ e : ℕ, v = e ∧
      ∃ x, ContainsNode M.size M.part x (M.begine r + i) ∧ ContainsNode M.size M.part x e := by
  have hID := (ElementMesh.getElem?_IDs hr).mpr ⟨hi, rfl⟩
  rw [elementsNeighbors] at hv
  rcases hstored : (M.part r).neighbors with _ | N
  · rw [hstored, Option.getD_none, neighbors_row hr hi, List.mem_map] at hv
    obtain ⟨face, hface, rfl⟩ := hv
    obtain ⟨hsome, hnone⟩ := faceNeighbor_spec hr hID hface
    by_cases hother : ∃ a ≠ M.begine r + i, M.Contains (M.faceIDs r i face) a
    · obtain ⟨a, -, hcontains, ha⟩ := hsome hother
      obtain ⟨n, hn⟩ := List.exists_mem_of_ne_nil face (ElementCode.face_valid _ hface).1
      have hx := List.mem_map_of_mem (f := fun n => (M.part r).nIDs.getD n 0)
        (List.mem_map_of_mem (f := fun n => ((M.part r).nodes.row i).getD n 0) hn)
      exact Or.inr ⟨a, ha, _, (hasFace_self hr hID hface).contains _ hx, hcontains _ hx⟩
    · exact Or.inl (hnone hother)
  · rw [hstored, Option.getD_some] at hv
    rcases M.neighbors_shared r hr N hstored i hi v hv with hv | ⟨e, rfl, n, hn, x, hx, he⟩
    · exact Or.inl hv
    · exact Or.inr ⟨e, rfl, x, ⟨r, hr, i, n, hID, hn, hx⟩, he⟩

end FaceMesh

end Espreso
