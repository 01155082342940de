import Mathlib.Data.List.Basic
import Mathlib.Tactic

/-!
# Classes of elements

Elements of a mesh point to their class, which lists the nodes of each face.  The faces of a plane
element are its lines.

* `ElementType`, `ElementCode` — `Element::TYPE` and `Element::CODE`.
* `eclass` — the table of classes.
* **`face_valid`**, `facepointers_nodes` — faces have nodes of the element, as many as their class.
-/

namespace Espreso

/-- `Element::TYPE` -/
inductive ElementType
  | POINT
  | LINE
  | PLANE
  | VOLUME
deriving DecidableEq

/-- `Element::CODE` -/
inductive ElementCode
  | POINT1
  | LINE2
  | TRIANGLE3
  | SQUARE4
  | TETRA4
  | PYRAMID5
  | PRISMA6
  | HEXA8
  | LINE3
  | TRIANGLE6
  | SQUARE8
  | TETRA10
  | PYRAMID13
  | PRISMA15
  | HEXA20
deriving DecidableEq

/-- `Element`, with the classes of its faces. -/
structure Element where
  type : ElementType
  nodes : ℕ
  faces : List (List ℕ)
  facepointers : List ElementCode

open ElementType ElementCode in
/-- **The classes**, by their code. Points and lines have no faces. -/
def eclass : ElementCode → Element
  | POINT1 => ⟨POINT, 1, [], []⟩
  | LINE2 => ⟨LINE, 2, [], []⟩
  | LINE3 => ⟨LINE, 3, [], []⟩
  | TRIANGLE3 => ⟨PLANE, 3, [[0, 1], [1, 2], [2, 0]], List.replicate 3 LINE2⟩
  | TRIANGLE6 => ⟨PLANE, 6, [[0, 1, 3], [1, 2, 4], [2, 0, 5]], List.replicate 3 LINE3⟩
  | SQUARE4 => ⟨PLANE, 4, [[0, 1], [1, 2], [2, 3], [3, 0]], List.replicate 4 LINE2⟩
  | SQUARE8 => ⟨PLANE, 8, [[0, 1, 4], [1, 2, 5], [2, 3, 6], [3, 0, 7]], List.replicate 4 LINE3⟩
  | TETRA4 => ⟨VOLUME, 4, [[0, 1, 3], [1, 2, 3], [2, 0, 3], [2, 1, 0]],
      List.replicate 4 TRIANGLE3⟩
  | TETRA10 => ⟨VOLUME, 10,
      [[0, 1, 3, 4, 8, 7], [1, 2, 3, 5, 9, 8], [2, 0, 3, 6, 7, 9], [2, 1, 0, 5, 4, 6]],
      List.replicate 4 TRIANGLE6⟩
  | PYRAMID5 => ⟨VOLUME, 5, [[3, 2, 1, 0], [0, 1, 4], [1, 2, 4], [2, 3, 4], [3, 0, 4]],
      SQUARE4 :: List.replicate 4 TRIANGLE3⟩
  | PYRAMID13 => ⟨VOLUME, 13,
      [[3, 2, 1, 0, 7, 6, 5, 8], [0, 1, 4, 5, 10, 9], [1, 2, 4, 6, 11, 10], [2, 3, 4, 7, 12, 11],
        [3, 0, 4, 8, 9, 12]],
      SQUARE8 :: List.replicate 4 TRIANGLE6⟩
  | PRISMA6 => ⟨VOLUME, 6, [[0, 1, 4, 3], [1, 2, 5, 4], [2, 0, 3, 5], [2, 1, 0], [3, 4, 5]],
      List.replicate 3 SQUARE4 ++ List.replicate 2 TRIANGLE3⟩
  | PRISMA15 => ⟨VOLUME, 15,
      [[0, 1, 4, 3, 6, 13, 9, 12], [1, 2, 5, 4, 7, 14, 10, 13], [2, 0, 3, 5, 8, 12, 11, 14],
        [2, 1, 0, 7, 6, 8], [3, 4, 5, 9, 10, 11]],
      List.replicate 3 SQUARE8 ++ List.replicate 2 TRIANGLE6⟩
  | HEXA8 => ⟨VOLUME, 8,
      [[0, 1, 5, 4], [3, 2, 1, 0], [4, 5, 6, 7], [7, 6, 2, 3], [1, 2, 6, 5], [3, 0, 4, 7]],
      List.replicate 6 SQUARE4⟩
  | HEXA20 => ⟨VOLUME, 20,
      [[0, 1, 5, 4, 8, 17, 12, 16], [3, 2, 1, 0, 10, 9, 8, 11], [4, 5, 6, 7, 12, 13, 14, 15],
        [7, 6, 2, 3, 14, 18, 10, 19], [1, 2, 6, 5, 9, 18, 13, 17], [3, 0, 4, 7, 11, 16, 15, 19]],
      List.replicate 6 SQUARE8⟩

namespace ElementCode

def codes : List ElementCode :=
  [POINT1, LINE2, TRIANGLE3, SQUARE4, TETRA4, PYRAMID5, PRISMA6, HEXA8, LINE3, TRIANGLE6, SQUARE8,
    TETRA10, PYRAMID13, PRISMA15, HEXA20]

def number (c : ElementCode) : ℕ := codes.idxOf c

def ofNumber (n : ℕ) : ElementCode := codes.getD n POINT1

@[simp] lemma ofNumber_number (c : ElementCode) : ofNumber c.number = c := by
  cases c <;> rfl

variable (c : ElementCode)

lemma face_valid {face : List ℕ} (h : face ∈ (eclass c).faces) :
    face ≠ [] ∧ ∀ n ∈ face, n < (eclass c).nodes := by
  have hall : ∀ face ∈ (eclass c).faces, face ≠ [] ∧ ∀ n ∈ face, n < (eclass c).nodes := by
    cases c <;> decide
  exact hall face h

lemma facepointers_nodes : (eclass c).facepointers.map (fun c => (eclass c).nodes)
    = (eclass c).faces.map List.length := by
  cases c <;> rfl

lemma length_of_mem_zip {face : List ℕ} {code : ElementCode}
    (h : (face, code) ∈ (eclass c).faces.zip (eclass c).facepointers) :
    face.length = (eclass code).nodes := by
  obtain ⟨j, hj⟩ := List.mem_iff_getElem?.mp h
  obtain ⟨hface, hcode⟩ := List.getElem?_zip_eq_some.mp hj
  have hget := congrArg (·[j]?) c.facepointers_nodes
  simp only [List.getElem?_map, hface, hcode] at hget
  exact (Option.some.inj hget).symm

lemma face_eq {f g : List ℕ} (hf : f ∈ (eclass c).faces) (hg : g ∈ (eclass c).faces)
    (h : ∀ n ∈ f, n ∈ g) : f = g := by
  have hall : ∀ f ∈ (eclass c).faces, ∀ g ∈ (eclass c).faces, (∀ n ∈ f, n ∈ g) → f = g := by
    cases c <;> decide
  exact hall f hf g hg h

lemma faces_nodup : (eclass c).faces.Nodup ∧ ∀ face ∈ (eclass c).faces, face.Nodup := by
  cases c <;> decide

lemma length_facepointers : (eclass c).facepointers.length = (eclass c).faces.length := by
  have h := congrArg List.length c.facepointers_nodes
  rwa [List.length_map, List.length_map] at h

end ElementCode

end Espreso
