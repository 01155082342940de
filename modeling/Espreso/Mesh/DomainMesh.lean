import Espreso.Mesh.StoredNeighbors

/-!
# Domains of a rank

The elements of a rank are split into domains and the domains into threads. A thread visits the
elements of its domains one after the other: the data of an element are read through iterators that
are set once and only advance.

* `Visit`, `visits` — what a thread visits, and where its iterators stand.
* **`mem_visits`** — iterators that start at the first domain stand at the visited elements.
-/

namespace Espreso

/-- An element of a domain, with the position of the iterators. -/
structure Visit where
  domain : ℕ
  element : ℕ
  position : ℕ

/-- The elements that thread `t` visits, where its iterators start at `start`. The distributions are
`domainDistribution` and `elementsDistribution`. -/
def visits (domains elements : ℕ → ℕ) (start t : ℕ) : List Visit :=
  (List.range' (domains t) (domains (t + 1) - domains t)).flatMap fun d =>
    (List.range' (elements d) (elements (d + 1) - elements d)).map fun e =>
      ⟨d, e, start + (e - elements (domains t))⟩

namespace ElementPart

variable (P : ElementPart) (epointers : List ElementCode) (neighbors : Serialized ℤ)

/-- The faces of a visited element: their nodes, their classes and their neighbors. -/
def visitedFaces (v : Visit) : List (List ℕ × ElementCode × ℤ) :=
  let epointer := epointer epointers v.element
  ((epointer.faces.zip epointer.facepointers).zip (neighbors.row v.position)).map fun p =>
    (P.faceNodes v.position p.1.1, p.1.2, p.2)

end ElementPart

/-! ## The mesh -/

/-- A mesh with domains. Stored neighbors have an entry for each face. -/
structure DomainMesh extends FaceMesh where
  ndomains : ℕ → ℕ
  domainDistribution : ∀ r, Distribution (part r).threads (ndomains r)
  elementsDistribution : ∀ r, Distribution (ndomains r) (part r).IDs.length
  nodeDistribution : ∀ r, Distribution (part r).threads (part r).nIDs.length
  nIDs_nodup : ∀ r < size, (part r).nIDs.Nodup
  neighbors_fit : toFaceMesh.NeighborsFit

namespace DomainMesh

variable (M : DomainMesh)

section Rank

variable {M} {r : ℕ}

lemma mem_visitedFaces {v : Visit} (hv : v.position = v.element) {nodes : List ℕ} {n : ℤ} :
    (∃ c, (nodes, c, n) ∈ (M.part r).visitedFaces (M.epointers r) (M.elementsNeighbors r) v) ↔
      ∃ face, M.FaceEntry r v.element face n ∧ (M.part r).faceNodes v.element face = nodes := by
  have hlength := ElementCode.length_facepointers ((M.epointers r).getD v.element .POINT1)
  simp only [ElementPart.visitedFaces, hv, List.mem_map, Prod.mk.injEq]
  constructor
  · rintro ⟨c, ⟨⟨face, c'⟩, n'⟩, hmem, hnodes, -, rfl⟩
    obtain ⟨j, hj⟩ := List.mem_iff_getElem?.mp hmem
    obtain ⟨hface, hn⟩ := List.getElem?_zip_eq_some.mp hj
    exact ⟨face, ⟨j, (List.getElem?_zip_eq_some.mp hface).1, hn⟩, hnodes⟩
  · rintro ⟨face, ⟨j, hface, hn⟩, hnodes⟩
    have hj : j < (eclass ((M.epointers r).getD v.element .POINT1)).facepointers.length := by
      rw [hlength]
      exact (List.getElem?_eq_some_iff.mp hface).1
    refine ⟨_, ((face, _), n), List.mem_iff_getElem?.mpr ⟨j, List.getElem?_zip_eq_some.mpr
      ⟨List.getElem?_zip_eq_some.mpr ⟨hface, List.getElem?_eq_getElem hj⟩, hn⟩⟩, hnodes, rfl, rfl⟩

lemma mem_visits {v : Visit} : (∃ t < (M.part r).threads, v ∈
    visits (M.domainDistribution r).border (M.elementsDistribution r).border
      ((M.elementsDistribution r).border ((M.domainDistribution r).border t)) t) ↔
      v.domain < M.ndomains r ∧ (M.elementsDistribution r).border v.domain ≤ v.element ∧
        v.element < (M.elementsDistribution r).border (v.domain + 1) ∧ v.position = v.element := by
  constructor
  · rintro ⟨t, ht, hv⟩
    simp only [visits, List.mem_flatMap, List.mem_map, List.mem_range'_1] at hv
    obtain ⟨d, hd, e, he, rfl⟩ := hv
    have hlast : (M.domainDistribution r).border (t + 1) ≤ M.ndomains r :=
      (M.domainDistribution r).border_le_total (Nat.succ_le_of_lt ht)
    have hmono := (M.elementsDistribution r).border_mono hd.1 (show d ≤ M.ndomains r by omega)
    dsimp only
    omega
  · obtain ⟨d, e, p⟩ := v
    dsimp only
    rintro ⟨hd, hlow, hhigh, rfl⟩
    obtain ⟨t, ht, hfirst, hlast⟩ := (M.domainDistribution r).exists_range hd
    have hmono := (M.elementsDistribution r).border_mono hfirst hd.le
    refine ⟨t, ht, ?_⟩
    simp only [visits, List.mem_flatMap, List.mem_map, List.mem_range'_1]
    refine ⟨d, by omega, p, by omega, ?_⟩
    rw [Nat.add_sub_cancel' (hmono.trans hlow)]

end Rank

end DomainMesh

end Espreso
