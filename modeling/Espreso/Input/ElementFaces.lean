import Mathlib.Data.List.GetD
import Espreso.Lib.Polyhedron

/-!
# Elements and their faces

* `Code.faces` — the faces of an element, seen from outside: `Tetrahedron4`, `Pyramid5`, `Prisma6`
  and `Hexahedron8`.
* `IsCell` — the faces of a cell are those of an element.
* **`IsCell.exists_turn`** — a tetrahedron or a hexahedron can be numbered from any of its faces on.
* **`IsCell.not_isCell`** — an element with a face in the other orientation is another one.
-/

namespace Espreso

namespace OpenFOAM

/-- `Element::CODE`, of the elements that are found. -/
inductive Code
  | TETRA4
  | PYRAMID5
  | PRISMA6
  | HEXA8
  deriving DecidableEq

/-- **The faces of an element**, seen from outside: `Tetrahedron4::fill`, `Pyramid5::fill`,
`Prisma6::fill` and `Hexahedron8::fill`. -/
def Code.faces : Code → List (List ℕ)
  | TETRA4 => [[0, 1, 3], [1, 2, 3], [2, 0, 3], [2, 1, 0]]
  | PYRAMID5 => [[3, 2, 1, 0], [0, 1, 4], [1, 2, 4], [2, 3, 4], [3, 0, 4]]
  | PRISMA6 => [[0, 1, 4, 3], [1, 2, 5, 4], [2, 0, 3, 5], [2, 1, 0], [3, 4, 5]]
  | HEXA8 => [[0, 1, 5, 4], [3, 2, 1, 0], [4, 5, 6, 7], [7, 6, 2, 3], [1, 2, 6, 5], [3, 0, 4, 7]]

def Code.size : Code → ℕ
  | TETRA4 => 4
  | PYRAMID5 => 5
  | PRISMA6 => 6
  | HEXA8 => 8

/-! ## Cells -/

/-- **A cell with the nodes of an element**: its faces are those of the element, also in their
orientation. -/
structure IsCell (code : Code) (faces : Multiset (Cycle ℤ)) (nodes : List ℤ) : Prop where
  length_eq : nodes.length = code.size
  nodup : nodes.Nodup
  faces_eq : faces = Polyhedron.faces code.faces (nodes.getD · (-1))

set_option maxRecDepth 4000 in
lemma edgesOnce (code : Code) : Polyhedron.EdgesOnce code.faces := by
  unfold Polyhedron.EdgesOnce
  cases code <;> decide

lemma nodesOnce (code : Code) : Polyhedron.NodesOnce code.faces := by
  unfold Polyhedron.NodesOnce
  cases code <;> decide

lemma faces_lt (code : Code) : ∀ t ∈ code.faces, ∀ i ∈ t, i < code.size := by
  cases code <;> decide

lemma faces_nodup (code : Code) : ∀ t ∈ code.faces, t.Nodup := by
  cases code <;> decide

namespace IsCell

variable {code : Code} {faces : Multiset (Cycle ℤ)} {nodes : List ℤ}

lemma distinct (h : IsCell code faces nodes) :
    Polyhedron.Distinct code.faces (nodes.getD · (-1)) := by
  rintro i ⟨t, ht, hi⟩ j ⟨t', ht', hj⟩ hij
  have hi' := (faces_lt code t ht i hi).trans_eq h.length_eq.symm
  have hj' := (faces_lt code t' ht' j hj).trans_eq h.length_eq.symm
  simp only [List.getD_eq_getElem _ _ hi', List.getD_eq_getElem _ _ hj'] at hij
  exact (h.nodup.getElem_inj_iff).mp hij

lemma nodup_of_mem (h : IsCell code faces nodes) {l : List ℤ} (hl : (l : Cycle ℤ) ∈ faces) :
    l.Nodup := by
  rw [h.faces_eq, Polyhedron.mem_faces] at hl
  obtain ⟨t, ht, heq⟩ := hl
  refine (Cycle.coe_eq_coe.mp heq).nodup_iff.mp ?_
  exact (faces_nodup code t ht).map_on fun i hi j hj hij =>
    h.distinct ⟨t, ht, hi⟩ ⟨t, ht, hj⟩ hij

lemma turn (h : IsCell code faces nodes) {σ : ℕ → ℕ}
    (hσ : ((List.range code.size).map σ).Perm (List.range code.size))
    (hfaces : Polyhedron.faces code.faces ((nodes.getD · (-1)) ∘ σ)
      = Polyhedron.faces code.faces (nodes.getD · (-1))) :
    IsCell code faces ((List.range code.size).map ((nodes.getD · (-1)) ∘ σ)) := by
  refine ⟨by rw [List.length_map, List.length_range], ?_, ?_⟩
  · have hnodes : (List.range code.size).map (nodes.getD · (-1)) = nodes := by
      rw [← h.length_eq]
      exact List.ext_getElem (by simp) fun i hi hi' => by
        simp [List.getElem?_eq_getElem hi']
    have hperm := hσ.map (nodes.getD · (-1))
    rw [List.map_map, hnodes] at hperm
    exact hperm.nodup_iff.mpr h.nodup
  · rw [h.faces_eq, ← hfaces, Polyhedron.faces, Polyhedron.faces]
    refine congrArg _ (List.map_congr_left fun t ht =>
      congrArg _ (List.map_congr_left fun i hi => ?_))
    have hlt := faces_lt code t ht i hi
    rw [List.getD_eq_getElem _ _ (by rwa [List.length_map, List.length_range]), List.getElem_map,
      List.getElem_range]

lemma exists_turn (h : IsCell code faces nodes) {turns : List (List ℕ)} {base : List ℕ}
    (hturns : ∀ σ ∈ turns, ((List.range code.size).map (σ.getD · 0)).Perm (List.range code.size)
      ∧ Polyhedron.faces code.faces (σ.getD · 0) = Polyhedron.faces code.faces id)
    (hall : ∀ t ∈ code.faces, ∀ r ∈ t.cyclicPermutations, ∃ σ ∈ turns, base.map (σ.getD · 0) = r)
    {l : List ℤ} (hl : (l : Cycle ℤ) ∈ faces) :
    ∃ m : ℕ → ℤ, IsCell code faces ((List.range code.size).map m)
      ∧ faces = Polyhedron.faces code.faces m ∧ base.map m = l := by
  rw [h.faces_eq] at hl
  have hall' : ∀ t ∈ code.faces, ∀ r ∈ t.cyclicPermutations,
      ∃ σ ∈ turns.map fun (σ : List ℕ) (i : ℕ) => σ.getD i 0, base.map σ = r := fun t ht r hr => by
    obtain ⟨σ, hσ, heq⟩ := hall t ht r hr
    exact ⟨_, List.mem_map_of_mem hσ, heq⟩
  obtain ⟨σ', hσ', hfaces, hbase⟩ := Polyhedron.exists_turn
    (List.forall_mem_map.mpr fun σ hσ => (hturns σ hσ).2) hall' hl
  obtain ⟨σ, hσ, rfl⟩ := List.mem_map.mp hσ'
  exact ⟨_, h.turn (hturns σ hσ).1 hfaces, h.faces_eq.trans hfaces.symm, hbase⟩

lemma length_of_mem (h : IsCell code faces nodes) {l : List ℤ} (hl : (l : Cycle ℤ) ∈ faces) :
    ∃ t ∈ code.faces, t.length = l.length := by
  rw [h.faces_eq, Polyhedron.mem_faces] at hl
  obtain ⟨t, ht, heq⟩ := hl
  have hlength := (Cycle.coe_eq_coe.mp heq).perm.length_eq
  exact ⟨t, ht, by rwa [List.length_map] at hlength⟩

/-- **A face with another orientation** than a face of the cell is not one of the element. -/
lemma not_isCell (h : IsCell code faces nodes) {l : List ℤ} (hl : (l : Cycle ℤ) ∈ faces)
    {nodes' : List ℤ} {t : List ℕ} (ht : t ∈ code.faces)
    (hperm : (t.map (nodes'.getD · (-1))).Perm l) {a b c : ℤ}
    (hb : Polyhedron.Follows ((t.map (nodes'.getD · (-1)) : List ℤ) : Cycle ℤ) a b)
    (hc : Polyhedron.Follows (l : Cycle ℤ) a c) (hne : b ≠ c) : ¬ IsCell code faces nodes' := by
  intro h'
  have hmem : ((t.map (nodes'.getD · (-1)) : List ℤ) : Cycle ℤ) ∈ faces := by
    rw [h'.faces_eq, Polyhedron.mem_faces]
    exact ⟨t, ht, rfl⟩
  have hnodup := h.nodup_of_mem hl
  rw [h.faces_eq] at hl hmem
  rw [Polyhedron.eq_of_perm h.distinct (nodesOnce code) hmem hl hperm] at hb
  exact hne (Polyhedron.follows_unique hnodup hb hc)

lemma code_eq {code' : Code} {nodes' : List ℤ}
    (h : IsCell code faces nodes) (h' : IsCell code' faces nodes') : code = code' := by
  have hcount : ∀ size, (code.faces.map List.length).count size
      = (code'.faces.map List.length).count size := fun size => by
    have heq := congrArg (fun faces => (faces.map Cycle.length).count size)
      (h.faces_eq.symm.trans h'.faces_eq)
    simpa [Polyhedron.faces, Function.comp_def] using heq
  have hdistinct : ∀ code code' : Code,
      (code.faces.map List.length).count 3 = (code'.faces.map List.length).count 3 →
      (code.faces.map List.length).count 4 = (code'.faces.map List.length).count 4 →
      code = code' := by
    intro code code'
    cases code <;> cases code' <;> decide
  exact hdistinct code code' (hcount 3) (hcount 4)

end IsCell

def tetraTurns : List (List ℕ) :=
  [[0, 1, 2, 3], [1, 2, 0, 3], [2, 0, 1, 3], [0, 3, 1, 2], [3, 1, 0, 2], [1, 0, 3, 2],
    [1, 3, 2, 0], [3, 2, 1, 0], [2, 1, 3, 0], [0, 2, 3, 1], [2, 3, 0, 1], [3, 0, 2, 1]]

def hexaTurns : List (List ℕ) :=
  [[0, 1, 2, 3, 4, 5, 6, 7], [2, 1, 5, 6, 3, 0, 4, 7], [5, 1, 0, 4, 6, 2, 3, 7],
    [7, 6, 5, 4, 3, 2, 1, 0], [5, 6, 2, 1, 4, 7, 3, 0], [2, 6, 7, 3, 1, 5, 4, 0],
    [3, 0, 1, 2, 7, 4, 5, 6], [4, 0, 3, 7, 5, 1, 2, 6], [1, 0, 4, 5, 2, 3, 7, 6],
    [4, 7, 6, 5, 0, 3, 2, 1], [3, 7, 4, 0, 2, 6, 5, 1], [6, 7, 3, 2, 5, 4, 0, 1],
    [2, 3, 0, 1, 6, 7, 4, 5], [7, 3, 2, 6, 4, 0, 1, 5], [0, 3, 7, 4, 1, 2, 6, 5],
    [5, 4, 7, 6, 1, 0, 3, 2], [0, 4, 5, 1, 3, 7, 6, 2], [7, 4, 0, 3, 6, 5, 1, 2],
    [6, 2, 1, 5, 7, 3, 0, 4], [1, 2, 3, 0, 5, 6, 7, 4], [3, 2, 6, 7, 0, 1, 5, 4],
    [1, 5, 6, 2, 0, 4, 7, 3], [6, 5, 4, 7, 2, 1, 0, 3], [4, 5, 1, 0, 7, 6, 2, 3]]

set_option maxRecDepth 8000 in
lemma tetraTurns_spec : ∀ σ ∈ tetraTurns,
    ((List.range Code.TETRA4.size).map (σ.getD · 0)).Perm (List.range Code.TETRA4.size)
      ∧ Polyhedron.faces Code.TETRA4.faces (σ.getD · 0)
        = Polyhedron.faces Code.TETRA4.faces id := by
  decide

lemma tetraTurns_all : ∀ t ∈ Code.TETRA4.faces, ∀ r ∈ t.cyclicPermutations,
    ∃ σ ∈ tetraTurns, [0, 2, 1].map (σ.getD · 0) = r := by
  decide

set_option maxRecDepth 8000 in
lemma hexaTurns_spec : ∀ σ ∈ hexaTurns,
    ((List.range Code.HEXA8.size).map (σ.getD · 0)).Perm (List.range Code.HEXA8.size)
      ∧ Polyhedron.faces Code.HEXA8.faces (σ.getD · 0)
        = Polyhedron.faces Code.HEXA8.faces id := by
  decide

lemma hexaTurns_all : ∀ t ∈ Code.HEXA8.faces, ∀ r ∈ t.cyclicPermutations,
    ∃ σ ∈ hexaTurns, [0, 1, 5, 4].map (σ.getD · 0) = r := by
  decide

end OpenFOAM

end Espreso
