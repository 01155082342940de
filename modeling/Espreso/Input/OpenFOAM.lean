import Espreso.Lib.Reorder
import Espreso.Lib.Fallible
import Espreso.Basis.Distribution
import Espreso.Input.ElementFaces

/-!
# Elements of an OpenFOAM mesh

An OpenFOAM mesh lists its faces, each with the cell that owns it and at most one neighbour. The
loader finds out the elements: the nodes of a face are listed in such an order that the face is seen
from outside of the owner.

* `PlainOpenFOAMData.buildElements` — `OpenFOAMLoader::buildElements`, with one function for each
  kind of element.
* **`getFace_eq`**, **`across_eq`** — which face is found, and the nodes behind an edge.
-/

namespace Espreso

namespace OpenFOAM

open Reorder

/-- **The faces of a process**: `fsize` and `fnodes`, the owners of all of them and the neighbours
of the first ones. -/
structure PlainOpenFOAMData where
  faces : List (List ℤ)
  owner : List ℕ
  neighbour : List ℕ
  length_owner : owner.length = faces.length
  length_neighbour : neighbour.length ≤ faces.length

/-- `esize`, `enodes` and `etype`. -/
structure Elements where
  esize : List ℕ
  enodes : List ℤ
  etype : List Code

namespace Elements

def empty : Elements := ⟨[], [], []⟩

def push (s : Elements) (element : Code × List ℤ) : Elements :=
  ⟨s.esize ++ [element.2.length], s.enodes ++ element.2, s.etype ++ [element.1]⟩

def append (s s' : Elements) : Elements :=
  ⟨s.esize ++ s'.esize, s.enodes ++ s'.enodes, s.etype ++ s'.etype⟩

def ofList (elements : List (Code × List ℤ)) : Elements :=
  ⟨elements.map fun element => element.2.length, elements.flatMap (·.2), elements.map (·.1)⟩

end Elements

/-- The faces of one cell in the two permutations: `obegin`, `oindex`, `nbegin` and `nindex`. -/
structure Ranges where
  element : ℕ
  obegin : ℕ
  oindex : ℕ
  nbegin : ℕ
  nindex : ℕ

def sortIDs (data : List ℕ) : List ℕ :=
  positions (fun i j => if data.getD i 0 = data.getD j 0 then i ≤ j
    else data.getD i 0 < data.getD j 0) data.length

def getThreadBegin (data perm : List ℕ) (eindex : ℕ) : ℕ :=
  lowerBound (perm.map (data.getD · 0)) eindex

def getUnknown (known unknown : List ℤ) : ℤ := (unknown.find? (· ∉ known)).getD (-1)

/-- The switch over `fsize` in `addFaces`. -/
def countFace : ℕ → ℕ × ℕ × ℕ → ℕ × ℕ × ℕ
  | 3, (triangles, squares, index) => (triangles + 1, squares, index + 1)
  | 4, (triangles, squares, index) => (triangles, squares + 1, index + 1)
  | _, (triangles, squares, index) => (triangles, squares, index + 1)

namespace PlainOpenFOAMData

variable (mesh : PlainOpenFOAMData)

/-- The face `perm[index]`, if there is one. -/
def face (perm : List ℕ) (index : ℕ) : Option (List ℤ) := do mesh.faces[← perm[index]?]?

/-- `fnodes[_fdist[perm[index]] + f]` -/
def node (perm : List ℕ) (index f : ℕ) : Option ℤ := do (← mesh.face perm index)[f]?

/-- `fnodes[_fdist[perm[index.first]] + (index.second + shift) % fsize[perm[index.first]]]` -/
def nodeAfter (perm : List ℕ) (index : ℕ × ℤ) (shift : ℕ) : Option ℤ := do
  let face ← mesh.face perm index.1
  face[((index.2 + shift) % face.length).toNat]?

def nodesAfter (perm : List ℕ) (index : ℕ × ℤ) (shift shift' : ℕ) : Option (ℤ × ℤ) := do
  return (← mesh.nodeAfter perm index shift, ← mesh.nodeAfter perm index shift')

/-- The first face in the ranges, an owned one if there is one. -/
def firstFace (c : Ranges) : Option (List ℤ) :=
  if c.obegin < c.oindex then mesh.face (sortIDs mesh.owner) c.obegin
  else mesh.face (sortIDs mesh.neighbour) c.nbegin

/-- `addFaces`, with the faces from `index` on. The result is `triangles`, `squares` and `index`. -/
def addFaces (data : List ℕ) (element : ℕ) : List ℕ → ℕ × ℕ × ℕ → ℕ × ℕ × ℕ
  | [], s => s
  | p :: perm, (triangles, squares, index) =>
    if data[p]? = some element then
      addFaces data element perm
        (countFace (mesh.faces.getD p []).length (triangles, squares, index))
    else (triangles, squares, index)

def findEdge (face : List ℤ) (n1 n2 : ℤ) : Option ℕ :=
  (List.range face.length).find? fun f =>
    face[f]? = some n1 ∧ face[(f + 1) % face.length]? = some n2

/-- `getFace`, with the faces from `index` on. -/
def getFace (data : List ℕ) (element : ℕ) (n1 n2 : ℤ) : List ℕ → ℕ → ℕ × ℤ
  | [], index => (index, -1)
  | p :: perm, index =>
    if data[p]? = some element then
      match findEdge (mesh.faces.getD p []) n1 n2 with
      | some f => (index, f)
      | none => getFace data element n1 n2 perm (index + 1)
    else (index, -1)

def findElementWithSize (perm : List ℕ) (index max size : ℕ) : ℕ :=
  index + (window perm index max).findIdx fun p => (mesh.faces.getD p []).length = size

/-- The two nodes behind the edge from `n1` to `n2`, on an owned face with this edge or else on a
face of a neighbour with the opposite one. -/
def across (c : Ranges) (n1 n2 : ℤ) : Option (ℤ × ℤ) :=
  let owner := sortIDs mesh.owner
  let neighbour := sortIDs mesh.neighbour
  let index := mesh.getFace mesh.owner c.element n1 n2 (owner.drop c.obegin) c.obegin
  if index.1 < c.oindex then mesh.nodesAfter owner index 2 3
  else
    let index := mesh.getFace mesh.neighbour c.element n2 n1 (neighbour.drop c.nbegin) c.nbegin
    mesh.nodesAfter neighbour index 3 2

/-- The branch for `HEXA8`. -/
def hexa8 (c : Ranges) : Option (List ℤ) := do
  let owner := sortIDs mesh.owner
  let neighbour := sortIDs mesh.neighbour
  let owned := c.obegin < c.oindex
  let n0 ← if owned then mesh.node owner c.obegin 0 else mesh.node neighbour c.nbegin 0
  let n1 ← if owned then mesh.node owner c.obegin 1 else mesh.node neighbour c.nbegin 3
  let n4 ← if owned then mesh.node owner c.obegin 3 else mesh.node neighbour c.nbegin 2
  let n5 ← if owned then mesh.node owner c.obegin 2 else mesh.node neighbour c.nbegin 1
  let c := if owned then { c with obegin := c.obegin + 1 } else { c with nbegin := c.nbegin + 1 }
  let (n3, n2) ← mesh.across c n1 n0
  let (n6, n7) ← mesh.across c n4 n5
  return [n0, n1, n2, n3, n4, n5, n6, n7]

/-- The branch for `TETRA4`. -/
def tetra4 (c : Ranges) : Option (List ℤ) := do
  let owner := sortIDs mesh.owner
  let neighbour := sortIDs mesh.neighbour
  let owned := c.obegin < c.oindex
  let n0 ← if owned then mesh.node owner c.obegin 0 else mesh.node neighbour c.nbegin 0
  let n1 ← if owned then mesh.node owner c.obegin 2 else mesh.node neighbour c.nbegin 1
  let n2 ← if owned then mesh.node owner c.obegin 1 else mesh.node neighbour c.nbegin 2
  let c := if owned then { c with obegin := c.obegin + 1 } else { c with nbegin := c.nbegin + 1 }
  return [n0, n1, n2, getUnknown [n0, n1, n2] (← mesh.firstFace c)]

/-- `getFace` in the branch for `PRISMA6`: if a triangle is found, the search begins once more
behind the first face. -/
def getSquare (data : List ℕ) (element : ℕ) (n1 n2 : ℤ) (begin : ℕ) : Option (ℕ × ℤ) := do
  let perm := sortIDs data
  let index := mesh.getFace data element n1 n2 (perm.drop begin) begin
  if (← mesh.face perm index.1).length = 3 then
    return mesh.getFace data element n1 n2 (perm.drop (begin + 1)) (begin + 1)
  else return index

/-- The nodes of a prism over those of an edge of the first triangle. -/
def prismaEdge (c : Ranges) (n0 n1 : ℤ) : Option (ℤ × ℤ) := do
  let index ← mesh.getSquare mesh.owner c.element n1 n0 c.obegin
  if index.1 < c.oindex then mesh.nodesAfter (sortIDs mesh.owner) index 2 3
  else
    let index ← mesh.getSquare mesh.neighbour c.element n0 n1 c.nbegin
    mesh.nodesAfter (sortIDs mesh.neighbour) index 3 2

/-- The branch for `PRISMA6`. -/
def prisma6 (c : Ranges) : Option (List ℤ) := do
  let owner := sortIDs mesh.owner
  let neighbour := sortIDs mesh.neighbour
  let otria := mesh.findElementWithSize owner c.obegin c.oindex 3
  let ntria := mesh.findElementWithSize neighbour c.nbegin c.nindex 3
  let owned := otria < c.oindex
  let n0 ← if owned then mesh.node owner otria 0 else mesh.node neighbour ntria 0
  let n1 ← if owned then mesh.node owner otria 1 else mesh.node neighbour ntria 2
  let n2 ← if owned then mesh.node owner otria 2 else mesh.node neighbour ntria 1
  let otria' := if owned then mesh.findElementWithSize owner (otria + 1) c.oindex 3 else otria
  let ntria' := if owned then ntria
    else mesh.findElementWithSize neighbour (ntria + 1) c.nindex 3
  let (n3, n4) ← mesh.prismaEdge c n0 n1
  let last ← mesh.firstFace { c with obegin := otria', nbegin := ntria' }
  return [n0, n1, n2, n3, n4, getUnknown [n0, n1, n2, n3, n4] last]

/-- The branch for `PYRAMID5`. -/
def pyramid5 (c : Ranges) : Option (List ℤ) := do
  let owner := sortIDs mesh.owner
  let neighbour := sortIDs mesh.neighbour
  let osquare := mesh.findElementWithSize owner c.obegin c.oindex 4
  let nsquare := mesh.findElementWithSize neighbour c.nbegin c.nindex 4
  let otria := mesh.findElementWithSize owner c.obegin c.oindex 3
  let ntria := mesh.findElementWithSize neighbour c.nbegin c.nindex 3
  let owned := osquare < c.oindex
  let n0 ← if owned then mesh.node owner osquare 0 else mesh.node neighbour nsquare 0
  let n1 ← if owned then mesh.node owner osquare 1 else mesh.node neighbour nsquare 3
  let n2 ← if owned then mesh.node owner osquare 2 else mesh.node neighbour nsquare 2
  let n3 ← if owned then mesh.node owner osquare 3 else mesh.node neighbour nsquare 1
  let last ← mesh.firstFace { c with obegin := otria, nbegin := ntria }
  return [n0, n1, n2, n3, getUnknown [n0, n1, n2, n3] last]

/-- The element of a cell, by the numbers of its triangles and squares. Without one, the loader
reports "an unknown element type". -/
def element (c : Ranges) (triangles squares : ℕ) : Option (Code × List ℤ) :=
  if squares = 6 ∧ triangles = 0 then (mesh.hexa8 c).map (.HEXA8, ·)
  else if squares = 0 ∧ triangles = 4 then (mesh.tetra4 c).map (.TETRA4, ·)
  else if squares = 3 ∧ triangles = 2 then (mesh.prisma6 c).map (.PRISMA6, ·)
  else if squares = 1 ∧ triangles = 4 then (mesh.pyramid5 c).map (.PYRAMID5, ·)
  else none

def step (s : ℕ × ℕ × Elements) (e : ℕ) : Option (ℕ × ℕ × Elements) := do
  let (obegin, nbegin, elements) := s
  let (triangles, squares, oindex) :=
    mesh.addFaces mesh.owner e ((sortIDs mesh.owner).drop obegin) (0, 0, obegin)
  let (triangles, squares, nindex) :=
    mesh.addFaces mesh.neighbour e ((sortIDs mesh.neighbour).drop nbegin)
      (triangles, squares, nbegin)
  let element ← mesh.element ⟨e, obegin, oindex, nbegin, nindex⟩ triangles squares
  return (oindex, nindex, elements.push element)

def thread (begin fin : ℕ) : Option Elements := do
  let oindex := getThreadBegin mesh.owner (sortIDs mesh.owner) begin
  let nindex := getThreadBegin mesh.neighbour (sortIDs mesh.neighbour) begin
  let s ← (List.range' begin (fin - begin)).foldlM mesh.step (oindex, nindex, Elements.empty)
  return s.2.2

/-- **`OpenFOAMLoader::buildElements`**, for the cells `eoffset`, ..., `eoffset + count - 1` of the
process. -/
def buildElements (threads eoffset count : ℕ) : Option Elements := do
  let tdistribution := distribute threads count
  let parts ← (List.range threads).mapM fun t =>
    mesh.thread (tdistribution.getD t 0 + eoffset) (tdistribution.getD (t + 1) 0 + eoffset)
  return parts.foldl Elements.append Elements.empty

/-- **The faces of a cell, seen from outside**: those that it owns as they are listed, and those of
its neighbours reversed. -/
def cellFaces (e : ℕ) : Multiset (Cycle ℤ) :=
  (((mesh.faces.zip mesh.owner).filter fun p => p.2 = e).map fun p => (p.1 : Cycle ℤ) :
      Multiset (Cycle ℤ))
    + (((mesh.faces.zip mesh.neighbour).filter fun p => p.2 = e).map
      fun p => (p.1 : Cycle ℤ).reverse : Multiset (Cycle ℤ))

end PlainOpenFOAMData

/-! ## The faces of a cell in a permutation -/

section Permutation

variable {data : List ℕ}

lemma sortIDs_perm (data : List ℕ) : (sortIDs data).Perm (List.range data.length) :=
  positions_perm _ _

lemma sortIDs_sorted (data : List ℕ) : ((sortIDs data).map (data.getD · 0)).Pairwise (· ≤ ·) := by
  rw [List.pairwise_map]
  refine (positions_sorted (fun a b c hab hbc => ?_) (fun a b => ?_) data.length).imp
    fun {a b} hab => ?_
  · split_ifs at hab hbc ⊢ <;> simp only [decide_eq_true_eq] at hab hbc ⊢ <;> omega
  · split_ifs <;> simp only [Bool.or_eq_true, decide_eq_true_eq] <;> omega
  · split_ifs at hab <;> simp only [decide_eq_true_eq] at hab <;> omega

/-- The positions of the entries `e`, in ascending order. -/
def chosen (data : List ℕ) (e : ℕ) : List ℕ := (sortIDs data).filter fun p => data.getD p 0 = e

lemma drop_getThreadBegin (data : List ℕ) (e : ℕ) :
    ∃ rest, (sortIDs data).drop (getThreadBegin data (sortIDs data) e) = chosen data e ++ rest
      ∧ (∀ p ∈ rest, data[p]? ≠ some e)
      ∧ getThreadBegin data (sortIDs data) (e + 1)
        = getThreadBegin data (sortIDs data) e + (chosen data e).length := by
  have hsorted := sortIDs_sorted data
  have hmono := lowerBound_mono ((sortIDs data).map (data.getD · 0)) (Nat.le_add_right e 1)
  have hwindow := window_lowerBound_map hsorted (Nat.le_add_right e 1)
  have hfilter : ((sortIDs data).filter fun x => e ≤ data.getD x 0 ∧ data.getD x 0 < e + 1)
      = chosen data e := List.filter_congr fun p _ => decide_eq_decide.mpr (by omega)
  have hle := lowerBound_le_length ((sortIDs data).map (data.getD · 0)) (e + 1)
  rw [List.length_map] at hle
  refine ⟨(sortIDs data).drop (getThreadBegin data (sortIDs data) (e + 1)), ?_, ?_, ?_⟩
  · rw [← hfilter, ← hwindow, window, getThreadBegin, getThreadBegin]
    nth_rewrite 1 [← List.take_append_drop
      (lowerBound ((sortIDs data).map (data.getD · 0)) (e + 1)
        - lowerBound ((sortIDs data).map (data.getD · 0)) e)
      ((sortIDs data).drop (lowerBound ((sortIDs data).map (data.getD · 0)) e))]
    rw [List.drop_drop, Nat.add_sub_cancel' hmono]
  · intro p hp hdata
    rw [getThreadBegin, (take_lowerBound_map hsorted (e + 1)).2, List.mem_filter] at hp
    have hlow := of_decide_eq_true hp.2
    rw [List.getD_eq_getElem?_getD, hdata, Option.getD_some] at hlow
    omega
  · rw [← hfilter, ← hwindow, length_window _ hle, getThreadBegin, getThreadBegin]
    omega

lemma mem_chosen {e p : ℕ} : p ∈ chosen data e ↔ data[p]? = some e := by
  rw [chosen, List.mem_filter, (sortIDs_perm data).mem_iff, List.mem_range, decide_eq_true_eq,
    List.getD_eq_getElem?_getD]
  constructor
  · rintro ⟨hp, hdata⟩
    rw [List.getElem?_eq_getElem hp] at hdata ⊢
    exact congrArg some hdata
  · intro hdata
    exact ⟨(List.getElem?_eq_some_iff.mp hdata).1, by rw [hdata, Option.getD_some]⟩

end Permutation

namespace PlainOpenFOAMData

variable {mesh : PlainOpenFOAMData}

/-- **The faces `ps` stand at `begin`, ..., `fin - 1`** of a permutation, and no other faces of the
cell behind them. -/
structure Listed (mesh : PlainOpenFOAMData) (data : List ℕ) (e begin fin : ℕ) (ps : List ℕ) :
    Prop where
  length_le : data.length ≤ mesh.faces.length
  fin_eq : fin = begin + ps.length
  own : ∀ p ∈ ps, data[p]? = some e
  drop : ∃ rest, (sortIDs data).drop begin = ps ++ rest ∧ ∀ p ∈ rest, data[p]? ≠ some e

namespace Listed

variable {data : List ℕ} {e begin fin : ℕ} {ps : List ℕ}

lemma tail {p : ℕ} (h : Listed mesh data e begin fin (p :: ps)) :
    Listed mesh data e (begin + 1) fin ps := by
  obtain ⟨rest, hdrop, hrest⟩ := h.drop
  refine ⟨h.length_le, ?_, fun q hq => h.own q (List.mem_cons_of_mem p hq), rest, ?_, hrest⟩
  · rw [h.fin_eq, List.length_cons]
    omega
  · rw [← List.drop_drop, hdrop]
    rfl

lemma getElem?_faces (h : Listed mesh data e begin fin ps) {p : ℕ} (hp : p ∈ ps) :
    mesh.faces[p]? = some (mesh.faces.getD p []) := by
  have hlt := (List.getElem?_eq_some_iff.mp (h.own p hp)).1.trans_le h.length_le
  rw [List.getD_eq_getElem?_getD, List.getElem?_eq_getElem hlt, Option.getD_some]

lemma face_eq (h : Listed mesh data e begin fin ps) {k p : ℕ} (hp : ps[k]? = some p) :
    mesh.face (sortIDs data) (begin + k) = some (mesh.faces.getD p []) := by
  obtain ⟨rest, hdrop, -⟩ := h.drop
  have hk := (List.getElem?_eq_some_iff.mp hp).1
  have hperm : (sortIDs data)[begin + k]? = some p := by
    rw [← List.getElem?_drop, hdrop, List.getElem?_append_left hk, hp]
  rw [face, hperm]
  exact h.getElem?_faces (List.mem_of_getElem? hp)

lemma lt_iff (h : Listed mesh data e begin fin ps) : begin < fin ↔ ps ≠ [] := by
  rw [h.fin_eq, ← List.length_pos_iff]
  omega

end Listed

lemma listed_chosen {data : List ℕ} (hlength : data.length ≤ mesh.faces.length) (e : ℕ) :
    Listed mesh data e (getThreadBegin data (sortIDs data) e)
      (getThreadBegin data (sortIDs data) (e + 1)) (chosen data e) := by
  obtain ⟨rest, hdrop, hrest, hfin⟩ := drop_getThreadBegin data e
  exact ⟨hlength, hfin, fun p hp => mem_chosen.mp hp, rest, hdrop, hrest⟩

lemma countFace_eq (fsize triangles squares index : ℕ) :
    countFace fsize (triangles, squares, index)
      = (triangles + (if fsize = 3 then 1 else 0), squares + (if fsize = 4 then 1 else 0),
        index + 1) := by
  rw [countFace.eq_def]
  split <;> simp_all

lemma addFaces_eq {data : List ℕ} {e : ℕ} {ps rest : List ℕ} (hps : ∀ p ∈ ps, data[p]? = some e)
    (hrest : ∀ p ∈ rest, data[p]? ≠ some e) (triangles squares index : ℕ) :
    mesh.addFaces data e (ps ++ rest) (triangles, squares, index)
      = (triangles + ps.countP fun p => (mesh.faces.getD p []).length = 3,
        squares + ps.countP fun p => (mesh.faces.getD p []).length = 4, index + ps.length) := by
  induction ps generalizing triangles squares index with
  | nil =>
      cases rest with
      | nil => rfl
      | cons p rest =>
          rw [List.nil_append, addFaces, if_neg (hrest p List.mem_cons_self)]
          rfl
  | cons p ps ih =>
      have ih := ih fun q hq => hps q (List.mem_cons_of_mem p hq)
      rw [List.cons_append, addFaces, if_pos (hps p List.mem_cons_self)]
      rw [countFace_eq, ih]
      simp only [List.countP_cons, List.length_cons, decide_eq_true_eq, Prod.mk.injEq]
      omega

lemma findEdge_eq_some {face : List ℤ} {n1 n2 : ℤ} {f : ℕ} (h : findEdge face n1 n2 = some f) :
    face[f]? = some n1 ∧ face[(f + 1) % face.length]? = some n2 := by
  have hfound := List.find?_some h
  exact of_decide_eq_true hfound

lemma follows_of_findEdge {face : List ℤ} {n1 n2 : ℤ} (hne : n1 ≠ n2) {f : ℕ}
    (h : findEdge face n1 n2 = some f) : Polyhedron.Follows (face : Cycle ℤ) n1 n2 := by
  obtain ⟨hfirst, hsecond⟩ := findEdge_eq_some h
  have hlt := (List.getElem?_eq_some_iff.mp hfirst).1
  refine Polyhedron.follows_of_getElem? ?_ hfirst hsecond
  by_contra hlength
  have hone : face.length = 1 := by omega
  rw [hone, Nat.mod_one] at hsecond
  rw [show f = 0 by omega, hsecond] at hfirst
  exact hne (Option.some.inj hfirst).symm

lemma findEdge_isSome (face : List ℤ) {n1 n2 : ℤ}
    (h : Polyhedron.Follows (face : Cycle ℤ) n1 n2) : ∃ f, findEdge face n1 n2 = some f := by
  obtain ⟨f, hf, hedge⟩ := Polyhedron.exists_getElem?_of_follows h
  refine Option.isSome_iff_exists.mp (List.find?_isSome.mpr ⟨f, List.mem_range.mpr hf, ?_⟩)
  exact decide_eq_true hedge

variable (mesh) in
lemma getFace_eq {data : List ℕ} {e : ℕ} {ps rest : List ℕ} (hps : ∀ p ∈ ps, data[p]? = some e)
    (hrest : ∀ p ∈ rest, data[p]? ≠ some e) (n1 n2 : ℤ) (index : ℕ) :
    (∃ k p, ∃ f : ℕ, ps[k]? = some p ∧ findEdge (mesh.faces.getD p []) n1 n2 = some f
        ∧ mesh.getFace data e n1 n2 (ps ++ rest) index = (index + k, (f : ℤ)))
      ∨ (∀ p ∈ ps, findEdge (mesh.faces.getD p []) n1 n2 = none)
        ∧ mesh.getFace data e n1 n2 (ps ++ rest) index = (index + ps.length, -1) := by
  induction ps generalizing index with
  | nil =>
      refine Or.inr ⟨fun p hp => absurd hp List.not_mem_nil, ?_⟩
      cases rest with
      | nil => rfl
      | cons p rest =>
          rw [List.nil_append, getFace, if_neg (hrest p List.mem_cons_self)]
          rfl
  | cons p ps ih =>
      rw [List.cons_append, getFace, if_pos (hps p List.mem_cons_self)]
      cases hfound : findEdge (mesh.faces.getD p []) n1 n2 with
      | some f => exact Or.inl ⟨0, p, f, rfl, hfound, rfl⟩
      | none =>
          rcases ih (fun q hq => hps q (List.mem_cons_of_mem p hq)) (index + 1) with
            ⟨k, q, f, hk, hf, hget⟩ | ⟨hnone, hget⟩
          · refine Or.inl ⟨k + 1, q, f, hk, hf, ?_⟩
            rw [hget, Nat.add_assoc, Nat.add_comm 1]
          · refine Or.inr ⟨List.forall_mem_cons.mpr ⟨hfound, hnone⟩, ?_⟩
            rw [hget, List.length_cons, Nat.add_assoc, Nat.add_comm 1]

lemma Listed.getFace_eq {data : List ℕ} {e begin fin : ℕ} {ps : List ℕ}
    (h : Listed mesh data e begin fin ps) (n1 n2 : ℤ) :
    (∃ k p, ∃ f : ℕ, ps[k]? = some p ∧ findEdge (mesh.faces.getD p []) n1 n2 = some f
        ∧ mesh.getFace data e n1 n2 ((sortIDs data).drop begin) begin = (begin + k, (f : ℤ)))
      ∨ (∀ p ∈ ps, findEdge (mesh.faces.getD p []) n1 n2 = none)
        ∧ mesh.getFace data e n1 n2 ((sortIDs data).drop begin) begin = (fin, -1) := by
  obtain ⟨rest, hdrop, hrest⟩ := h.drop
  rw [hdrop, h.fin_eq]
  exact PlainOpenFOAMData.getFace_eq mesh h.own hrest n1 n2 begin

/-! ## Faces in a permutation -/

abbrev nodesOf (mesh : PlainOpenFOAMData) (p : ℕ) : List ℤ := mesh.faces.getD p []

/-- **The faces seen from outside**, of those that are owned and of those of neighbours. -/
def seen (mesh : PlainOpenFOAMData) (os ns : List ℕ) : Multiset (Cycle ℤ) :=
  (os.map fun p => (mesh.nodesOf p : Cycle ℤ) : Multiset (Cycle ℤ))
    + (ns.map fun p => (mesh.nodesOf p : Cycle ℤ).reverse : Multiset (Cycle ℤ))

lemma mem_seen {os ns : List ℕ} {face : Cycle ℤ} :
    face ∈ seen mesh os ns ↔ (∃ p ∈ os, (mesh.nodesOf p : Cycle ℤ) = face)
      ∨ ∃ p ∈ ns, (mesh.nodesOf p : Cycle ℤ).reverse = face := by
  rw [seen, Multiset.mem_add, Multiset.mem_coe, Multiset.mem_coe, List.mem_map, List.mem_map]

lemma nodeAfter_eq {perm : List ℕ} {index f shift : ℕ} {l rest : List ℤ} {a : ℤ}
    (hface : mesh.face perm index = some l) (hl : l.Nodup)
    (hcycle : (l : Cycle ℤ) = ((a :: rest : List ℤ) : Cycle ℤ)) (hf : l[f]? = some a)
    (hshift : shift < l.length) :
    mesh.nodeAfter perm (index, (f : ℤ)) shift = (a :: rest)[shift]? := by
  rw [nodeAfter, hface, ← Polyhedron.getElem?_of_coe_eq hl hcycle hf hshift]
  simp only [Option.bind_eq_bind, Option.bind_some]
  rw [← Nat.cast_add, ← Int.natCast_mod, Int.toNat_natCast]

lemma nodesAfter_eq {perm : List ℕ} {index f : ℕ} {l : List ℤ} {a b x y : ℤ}
    (hface : mesh.face perm index = some l) (hnodup : [a, b, x, y].Nodup)
    (hcycle : (l : Cycle ℤ) = (([a, b, x, y] : List ℤ) : Cycle ℤ)) (hf : l[f]? = some a) :
    mesh.nodesAfter perm (index, (f : ℤ)) 2 3 = some (x, y)
      ∧ mesh.nodesAfter perm (index, (f : ℤ)) 3 2 = some (y, x) := by
  have hrotated := Cycle.coe_eq_coe.mp hcycle
  have hl : l.Nodup := hrotated.nodup_iff.mpr hnodup
  have hlength : l.length = 4 := hrotated.perm.length_eq
  rw [nodesAfter, nodesAfter, nodeAfter_eq hface hl hcycle hf (by omega),
    nodeAfter_eq hface hl hcycle hf (by omega)]
  exact ⟨rfl, rfl⟩

section Cell

variable {c : Ranges} {os ns : List ℕ}

lemma across_eq (hos : Listed mesh mesh.owner c.element c.obegin c.oindex os)
    (hns : Listed mesh mesh.neighbour c.element c.nbegin c.nindex ns) {a b x y : ℤ}
    (hnodup : [a, b, x, y].Nodup) (hmem : (([a, b, x, y] : List ℤ) : Cycle ℤ) ∈ seen mesh os ns)
    (hunique : ∀ face ∈ seen mesh os ns, Polyhedron.Follows face a b →
      face = (([a, b, x, y] : List ℤ) : Cycle ℤ)) : mesh.across c a b = some (x, y) := by
  have hab : a ≠ b := fun h => (List.nodup_cons.mp hnodup).1 (h ▸ List.mem_cons_self)
  rw [across]
  dsimp only
  rcases hos.getFace_eq a b with ⟨k, p, f, hk, hf, hget⟩ | ⟨hnone, hget⟩
  · -- the face with this edge is owned
    have hp := List.mem_of_getElem? hk
    have hcycle := hunique _ (mem_seen.mpr (Or.inl ⟨p, hp, rfl⟩)) (follows_of_findEdge hab hf)
    have hlt := (List.getElem?_eq_some_iff.mp hk).1
    rw [hget, if_pos (by rw [hos.fin_eq]; omega)]
    exact (nodesAfter_eq (hos.face_eq hk) hnodup hcycle (findEdge_eq_some hf).1).1
  · -- it is one of a neighbour, whose edge is the opposite one
    rw [hget, if_neg (lt_irrefl _)]
    have hreverse : ∀ p, (mesh.nodesOf p : Cycle ℤ).reverse = (([a, b, x, y] : List ℤ) : Cycle ℤ) →
        (mesh.nodesOf p : Cycle ℤ) = (([b, a, y, x] : List ℤ) : Cycle ℤ) := fun p h => by
      rw [← Cycle.reverse_reverse (mesh.nodesOf p : Cycle ℤ), h]
      exact Cycle.coe_eq_coe.mpr ⟨2, rfl⟩
    rcases hns.getFace_eq b a with ⟨k, p, f, hk, hf, hget⟩ | ⟨hnone', hget⟩
    · have hp := List.mem_of_getElem? hk
      have hcycle := hreverse p (hunique _ (mem_seen.mpr (Or.inr ⟨p, hp, rfl⟩))
        (Polyhedron.follows_reverse (follows_of_findEdge hab.symm hf)))
      have hnodup' : [b, a, y, x].Nodup :=
        (List.nodup_reverse.mpr hnodup).perm (List.IsRotated.perm ⟨2, rfl⟩)
      rw [hget]
      exact (nodesAfter_eq (hns.face_eq hk) hnodup' hcycle (findEdge_eq_some hf).1).2
    · rcases mem_seen.mp hmem with ⟨p, hp, hcycle⟩ | ⟨p, hp, hcycle⟩
      · obtain ⟨f, hf⟩ := findEdge_isSome (mesh.nodesOf p) ⟨[x, y], hcycle⟩
        rw [hnone p hp] at hf
        cases hf
      · obtain ⟨f, hf⟩ := findEdge_isSome (mesh.nodesOf p) ⟨[y, x], hreverse p hcycle⟩
        rw [hnone' p hp] at hf
        cases hf

end Cell
end PlainOpenFOAMData

end OpenFOAM

end Espreso
