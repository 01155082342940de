import Espreso.Mesh.ElementClasses
import Espreso.Mesh.ElementMesh
import Mathlib.Data.List.TakeWhile

/-!
# Neighbours of elements

`MeshPreprocessing::computeElementsNeighbors` looks for the other element of each face: it counts
how often an element occurs in the links of the nodes of the face. `computeDecomposedDual` keeps the
neighbours on the same rank that need not be separated.

* `FaceMesh` — a mesh with classes of elements; `HasFace`, the nodes of a face.
* **`neighbors_exact`** — neighbours have a common face, on all ranks, and the dual is symmetric.
-/

namespace Espreso

namespace ElementPart

/-! ## The functions -/

section Neighbors

variable (P : ElementPart) (epointers : List ElementCode)

/-- `epointers[e]` -/
def epointer (e : ℕ) : Element := eclass (epointers.getD e .POINT1)

/-- The nodes of a face of element `e`. -/
def faceNodes (e : ℕ) (face : List ℕ) : List ℕ := face.map fun n => (P.nodes.row e).getD n 0

/-- `ndist` and `ndata`: the links of all nodes of an element. -/
def elementLinks (e : ℕ) : Serialized ℤ := Serialized.ofRows ((P.nodes.row e).map P.links.row)

/-- The search in the sorted links of a face with `size` nodes, for at most `fuel` entries: the
first element other than `ID` that occurs `size` times, or `-1`. -/
def search (ID : ℤ) (size : ℕ) : ℕ → List ℤ → ℤ
  | fuel + 1, begin' :: rest =>
    if begin' ≠ ID ∧ (rest.takeWhile (· = begin')).length + 1 = size then begin'
    else search ID size fuel (rest.dropWhile (· = begin'))
  | _, _ => -1

/-- The neighbour of element `e` at a face. -/
def faceNeighbor (e : ℕ) (face : List ℕ) : ℤ :=
  let fdata := (face.flatMap (P.elementLinks e).row).mergeSort
  search (P.IDs.getD e 0) face.length fdata.length fdata

/-- **`MeshPreprocessing::computeElementsNeighbors`** on a rank, where thread `t` has the elements
from `border t` to `border (t + 1)`. -/
def computeElementsNeighbors (border : ℕ → ℕ) : Serialized ℤ :=
  Serialized.ofThreads ((List.range P.threads).map fun t => Serialized.ofThread t
    ((List.range' (border t) (border (t + 1) - border t)).map fun e =>
      (epointer epointers e).faces.map (P.faceNeighbor e)))

end Neighbors

/-- The options of the decomposition. -/
structure DualOptions where
  separateRegions : Bool
  separateMaterials : Bool
  separateEtypes : Bool

section Dual

variable (P : ElementPart) (epointers : List ElementCode) (options : DualOptions) {w : ℕ}
  (rsize : ℕ) (regions : List (BitVec w))

def Joined (e n : ℕ) : Prop :=
  (options.separateMaterials = true → P.material.getD e 0 = P.material.getD n 0) ∧
    (options.separateRegions = true → window regions (e * rsize) (e * rsize + rsize)
      = window regions (n * rsize) (n * rsize + rsize)) ∧
    (options.separateEtypes = true → (epointer epointers e).type = (epointer epointers n).type)

instance (e n : ℕ) : Decidable (P.Joined epointers options rsize regions e n) :=
  inferInstanceAs (Decidable (_ ∧ _ ∧ _))

/-- The row of element `e` in the dual graph. -/
def dualRow (neighbors : Serialized ℤ) (eBegin e : ℕ) : List ℕ :=
  ((neighbors.row e).filter fun n : ℤ => n ≠ -1 ∧ (eBegin : ℤ) ≤ n ∧ n < eBegin + P.IDs.length ∧
    P.Joined epointers options rsize regions e (n - eBegin).toNat).map
      fun n : ℤ => (n - eBegin).toNat

/-- **`MeshPreprocessing::computeDecomposedDual`** on a rank. -/
def computeDecomposedDual (border : ℕ → ℕ) (neighbors : Serialized ℤ) (eBegin : ℕ) :
    Serialized ℕ :=
  let row := P.dualRow epointers options rsize regions neighbors eBegin
  let elements (t : ℕ) := List.range' (border t) (border (t + 1) - border t)
  { boundaries := Serialized.fullDistribution P.threads
      (0 :: (List.range P.threads).flatMap fun t =>
        (offsets ((elements t).map fun e => (row e).length)).tail) border
    data := (List.range P.threads).flatMap fun t => (elements t).flatMap row }

end Dual

end ElementPart

/-! ## The search -/

namespace ElementPart

lemma dropWhile_spec {a : ℤ} {l : List ℤ} (h : (a :: l).Pairwise (· ≤ ·)) :
    (l.dropWhile (· = a)).Pairwise (· ≤ ·) ∧ a ∉ l.dropWhile (· = a) ∧
      (l.takeWhile (· = a)).length + 1 = (a :: l).count a ∧
      ∀ v ≠ a, (l.dropWhile (· = a)).count v = (a :: l).count v := by
  have hsplit : l.takeWhile (· = a) ++ l.dropWhile (· = a) = l := List.takeWhile_append_dropWhile
  have hsorted : (l.dropWhile (· = a)).Pairwise (· ≤ ·) :=
    h.of_cons.sublist (List.dropWhile_sublist _)
  have hnot : a ∉ l.dropWhile (· = a) := by
    intro hmem
    rcases hdrop : l.dropWhile (· = a) with _ | ⟨b, rest⟩
    · rw [hdrop] at hmem
      cases hmem
    · have hne : ¬(b = a) := by
        have hhead := List.head?_dropWhile_not (p := (· = a)) (l := l)
        rw [hdrop] at hhead
        simpa using hhead
      have hb : b ∈ l := (List.dropWhile_sublist _).subset (hdrop ▸ List.mem_cons_self)
      have hab := (List.pairwise_cons.mp h).1 b hb
      rw [hdrop] at hmem hsorted
      rcases List.mem_cons.mp hmem with rfl | hrest
      · exact hne rfl
      · have hba := (List.pairwise_cons.mp hsorted).1 a hrest
        exact hne (le_antisymm hba hab)
  have hsame : ∀ b ∈ l.takeWhile (· = a), b = a := by
    intro b hb
    simpa using List.mem_takeWhile_imp hb
  have htake : ∀ v, (l.takeWhile (· = a)).count v
      = if v = a then (l.takeWhile (· = a)).length else 0 := by
    intro v
    split_ifs with hv
    · subst hv
      exact List.count_eq_length.mpr fun b hb => (hsame b hb).symm
    · exact List.count_eq_zero.mpr fun hmem => hv (hsame v hmem)
  refine ⟨hsorted, hnot, ?_, fun v hv => ?_⟩
  · rw [List.count_cons_self, ← hsplit, List.count_append, htake, if_pos rfl,
      List.count_eq_zero.mpr hnot, hsplit]
  · rw [List.count_cons_of_ne hv.symm, ← hsplit, List.count_append, htake, if_neg hv, Nat.zero_add,
      hsplit]

lemma search_spec {ID : ℤ} {size : ℕ} (hsize : 0 < size) {fuel : ℕ} {l : List ℤ}
    (hl : l.Pairwise (· ≤ ·)) (hfuel : l.length ≤ fuel) :
    ((∃ v, v ≠ ID ∧ l.count v = size) → search ID size fuel l ≠ ID ∧
      l.count (search ID size fuel l) = size) ∧
    ((¬∃ v, v ≠ ID ∧ l.count v = size) → search ID size fuel l = -1) := by
  induction fuel generalizing l with
  | zero =>
      obtain rfl := List.length_eq_zero_iff.mp (Nat.le_zero.mp hfuel)
      refine ⟨fun ⟨v, _, hv⟩ => ?_, fun _ => rfl⟩
      rw [List.count_nil] at hv
      omega
  | succ fuel ih =>
      cases l with
      | nil =>
          refine ⟨fun ⟨v, _, hv⟩ => ?_, fun _ => rfl⟩
          rw [List.count_nil] at hv
          omega
      | cons a l =>
          obtain ⟨hsorted, hnot, hcount, hrest⟩ := dropWhile_spec hl
          rw [search]
          split_ifs with hfound
          · rw [hcount] at hfound
            exact ⟨fun _ => hfound, fun hnone => absurd ⟨a, hfound⟩ hnone⟩
          · have hle : (l.dropWhile (· = a)).length ≤ fuel := by
              have := (List.dropWhile_sublist (p := (· = a)) (l := l)).length_le
              rw [List.length_cons] at hfuel
              omega
            obtain ⟨hsome, hnone⟩ := ih hsorted hle
            rw [hcount] at hfound
            have hsame : ∀ v, (v ≠ ID ∧ (a :: l).count v = size) ↔
                (v ≠ ID ∧ (l.dropWhile (· = a)).count v = size) := by
              intro v
              refine and_congr_right fun hv => ?_
              rcases eq_or_ne v a with rfl | hne
              · rw [List.count_eq_zero.mpr hnot]
                exact ⟨fun h => absurd ⟨hv, h⟩ hfound, fun h => by omega⟩
              · rw [hrest v hne]
            simp only [hsame]
            exact ⟨hsome, hnone⟩

lemma count_flatMap_eq_length {f : ℕ → List ℤ} {v : ℤ} {face : List ℕ}
    (h : ∀ n ∈ face, (f n).Nodup) :
    (face.flatMap f).count v = face.length ↔ ∀ n ∈ face, v ∈ f n := by
  have hle : ∀ l : List ℕ, (∀ n ∈ l, (f n).Nodup) → (l.flatMap f).count v ≤ l.length := by
    intro l hl
    induction l with
    | nil => exact le_rfl
    | cons n l ih =>
        have hone := List.nodup_iff_count_le_one.mp (hl n List.mem_cons_self) v
        have hrest := ih fun m hm => hl m (List.mem_cons_of_mem n hm)
        rw [List.flatMap_cons, List.count_append, List.length_cons]
        omega
  induction face with
  | nil => simp
  | cons n face ih =>
      have hone := List.nodup_iff_count_le_one.mp (h n List.mem_cons_self) v
      have hrest := hle face fun m hm => h m (List.mem_cons_of_mem n hm)
      have hiff := ih fun m hm => h m (List.mem_cons_of_mem n hm)
      rw [List.forall_mem_cons, ← List.count_pos_iff]
      refine Iff.trans ?_ (and_congr_right fun _ => hiff)
      rw [List.flatMap_cons, List.count_append, List.length_cons]
      omega

end ElementPart

/-! ## The mesh -/

/-- A mesh with classes of elements. Elements are planes or volumes, and have as many nodes as their
class; thread `t` of rank `r` has a range of the elements. -/
structure FaceMesh extends ElementMesh where
  epointers : ℕ → List ElementCode
  distribution : ∀ r, Distribution (part r).threads (part r).IDs.length
  epointers_length : ∀ r < size, (epointers r).length = (part r).IDs.length
  types : ∀ r < size, ∀ c ∈ epointers r, (eclass c).type = .PLANE ∨ (eclass c).type = .VOLUME
  element_nodes : ∀ r < size, ∀ i < (part r).IDs.length,
    ((part r).nodes.row i).length = (ElementPart.epointer (epointers r) i).nodes ∧
      ∀ n ∈ (part r).nodes.row i, n < (part r).nIDs.length

namespace FaceMesh

variable (M : FaceMesh)

def faces (r i : ℕ) : List (List ℕ) := (ElementPart.epointer (M.epointers r) i).faces

def faceIDs (r i : ℕ) (face : List ℕ) : List ℕ :=
  ((M.part r).faceNodes i face).map fun n => (M.part r).nIDs.getD n 0

def Contains (F : List ℕ) (a : ℕ) : Prop := ∀ x ∈ F, ContainsNode M.size M.part x a

def HasFace (F : List ℕ) (a : ℕ) : Prop :=
  ∃ r < M.size, ∃ i, (M.part r).IDs[i]? = some a ∧
    ∃ face ∈ M.faces r i, ∀ x, x ∈ M.faceIDs r i face ↔ x ∈ F

/-- **Conforming elements**: the nodes of a face are contained in at most two elements, and if in
two, then it is a face of both. -/
structure Conforming : Prop where
  two : ∀ F a, M.HasFace F a → ∀ b c, b ≠ a → c ≠ a → M.Contains F b → M.Contains F c → b = c
  both : ∀ F a, M.HasFace F a → ∀ b, M.Contains F b → M.HasFace F b

/-- The neighbors on rank `r`. -/
def neighbors (r : ℕ) : Serialized ℤ :=
  (M.part r).computeElementsNeighbors (M.epointers r) (M.distribution r).border

section Rank

variable {M} {r : ℕ} (hr : r < M.size)

include hr

lemma neighbors_eq : M.neighbors r = Serialized.ofRows ((List.range (M.part r).IDs.length).map
    fun e => (M.faces r e).map ((M.part r).faceNeighbor e)) := by
  rw [neighbors, ElementPart.computeElementsNeighbors,
    Serialized.ofThreads_ofThread (M.threads_pos r hr), ← List.map_flatMap,
    (M.distribution r).flatMap_ranges]
  rfl

lemma neighbors_row {i : ℕ} (hi : i < (M.part r).IDs.length) :
    (M.neighbors r).row i = (M.faces r i).map ((M.part r).faceNeighbor i) := by
  rw [neighbors_eq hr, Serialized.row_ofRows (by rwa [List.length_map, List.length_range]),
    List.getElem_map, List.getElem_range]

lemma elementLinks_row {i n : ℕ} (hi : i < (M.part r).IDs.length)
    (hn : n < (ElementPart.epointer (M.epointers r) i).nodes) :
    (((M.part r).elementLinks i).row n).Nodup ∧
      ∀ v, v ∈ ((M.part r).elementLinks i).row n ↔ ∃ a : ℕ, v = a ∧ ContainsNode M.size M.part
        ((M.part r).nIDs.getD (((M.part r).nodes.row i).getD n 0) 0) a := by
  obtain ⟨hlength, hnodes⟩ := M.element_nodes r hr i hi
  rw [← hlength] at hn
  have hnode := hnodes _ (List.getElem_mem hn)
  have hlinks := M.links_exact r hr _ _ (List.getElem?_eq_getElem hnode)
  rw [ElementPart.elementLinks, Serialized.row_ofRows (by rwa [List.length_map]), List.getElem_map,
    List.getD_eq_getElem _ _ hn, List.getD_eq_getElem _ _ hnode]
  exact ⟨hlinks.1.imp ne_of_lt, hlinks.2⟩

lemma count_links {i : ℕ} (hi : i < (M.part r).IDs.length) {face : List ℕ}
    (hface : face ∈ M.faces r i) (v : ℤ) :
    (face.flatMap ((M.part r).elementLinks i).row).count v = face.length ↔
      ∃ a : ℕ, v = a ∧ M.Contains (M.faceIDs r i face) a := by
  obtain ⟨hne, hnodes⟩ := ElementCode.face_valid _ hface
  rw [ElementPart.count_flatMap_eq_length fun n hn => (elementLinks_row hr hi (hnodes n hn)).1]
  have hiff : (∀ n ∈ face, v ∈ ((M.part r).elementLinks i).row n) ↔ ∀ n ∈ face, ∃ a : ℕ, v = a ∧
      ContainsNode M.size M.part ((M.part r).nIDs.getD (((M.part r).nodes.row i).getD n 0) 0) a :=
    forall₂_congr fun n hn => (elementLinks_row hr hi (hnodes n hn)).2 v
  rw [hiff]
  constructor
  · intro h
    obtain ⟨m, hm⟩ := List.exists_mem_of_ne_nil face hne
    obtain ⟨a, rfl, -⟩ := h m hm
    refine ⟨a, rfl, fun x hx => ?_⟩
    simp only [faceIDs, ElementPart.faceNodes, List.map_map, List.mem_map,
      Function.comp_apply] at hx
    obtain ⟨n, hn, rfl⟩ := hx
    obtain ⟨b, hb, hcontains⟩ := h n hn
    rwa [Int.ofNat_inj.mp hb]
  · rintro ⟨a, rfl, h⟩ n hn
    refine ⟨a, rfl, h _ ?_⟩
    rw [faceIDs, ElementPart.faceNodes, List.map_map]
    exact List.mem_map_of_mem hn

/-- **The neighbour at a face** is another element that contains its nodes, or `-1` if there is
none. -/
lemma faceNeighbor_spec {i ID : ℕ} (hID : (M.part r).IDs[i]? = some ID) {face : List ℕ}
    (hface : face ∈ M.faces r i) :
    ((∃ a ≠ ID, M.Contains (M.faceIDs r i face) a) → ∃ a ≠ ID,
      M.Contains (M.faceIDs r i face) a ∧ (M.part r).faceNeighbor i face = a) ∧
    ((¬∃ a ≠ ID, M.Contains (M.faceIDs r i face) a) → (M.part r).faceNeighbor i face = -1) := by
  have hi := (List.getElem?_eq_some_iff.mp hID).1
  have hsize : 0 < face.length := List.length_pos_iff.mpr (ElementCode.face_valid _ hface).1
  have hget : (M.part r).IDs.getD i 0 = ID := by
    rw [List.getD_eq_getElem?_getD, hID, Option.getD_some]
  have hsorted := List.pairwise_mergeSort' (· ≤ ·) (face.flatMap ((M.part r).elementLinks i).row)
  have hfound := @ElementPart.search_spec ID face.length hsize _ _ hsorted le_rfl
  obtain ⟨hsome, hnone⟩ := hfound
  have hgood : ∀ v : ℤ, (v ≠ ID ∧ (face.flatMap ((M.part r).elementLinks i).row).mergeSort.count v
      = face.length) ↔ ∃ a : ℕ, v = a ∧ a ≠ ID ∧ M.Contains (M.faceIDs r i face) a := by
    intro v
    rw [(List.mergeSort_perm _ _).count_eq, count_links hr hi hface]
    constructor
    · rintro ⟨hne, a, rfl, h⟩
      exact ⟨a, rfl, fun heq => hne (by rw [heq]), h⟩
    · rintro ⟨a, rfl, hne, h⟩
      exact ⟨fun heq => hne (Int.ofNat_inj.mp heq), a, rfl, h⟩
  rw [ElementPart.faceNeighbor, hget]
  constructor
  · rintro ⟨a, hne, h⟩
    obtain ⟨b, hb, hbne, hcontains⟩ := (hgood _).mp (hsome ⟨a, (hgood a).mpr ⟨a, rfl, hne, h⟩⟩)
    exact ⟨b, hbne, hcontains, hb⟩
  · intro h
    refine hnone ?_
    rintro ⟨v, hv⟩
    obtain ⟨a, -, hne, hcontains⟩ := (hgood v).mp hv
    exact h ⟨a, hne, hcontains⟩

lemma hasFace_self {i ID : ℕ} (hID : (M.part r).IDs[i]? = some ID) {face : List ℕ}
    (hface : face ∈ M.faces r i) : M.HasFace (M.faceIDs r i face) ID :=
  ⟨r, hr, i, hID, face, hface, fun _ => Iff.rfl⟩

end Rank

/-! ## Common faces -/

lemma HasFace.congr {M : FaceMesh} {F F' : List ℕ} {a : ℕ} (h : M.HasFace F a)
    (hF : ∀ x, x ∈ F ↔ x ∈ F') : M.HasFace F' a := by
  obtain ⟨r, hr, i, hID, face, hface, hnodes⟩ := h
  exact ⟨r, hr, i, hID, face, hface, fun x => (hnodes x).trans (hF x)⟩

lemma HasFace.contains {M : FaceMesh} {F : List ℕ} {a : ℕ} (h : M.HasFace F a) :
    M.Contains F a := by
  obtain ⟨r, hr, i, hID, face, hface, hnodes⟩ := h
  obtain ⟨hlength, hlt⟩ := M.element_nodes r hr i (List.getElem?_eq_some_iff.mp hID).1
  intro x hx
  have hmem := (hnodes x).mpr hx
  simp only [faceIDs, ElementPart.faceNodes, List.map_map, List.mem_map,
    Function.comp_apply] at hmem
  obtain ⟨n, hn, rfl⟩ := hmem
  have hrow : n < ((M.part r).nodes.row i).length := by
    rw [hlength]
    exact (ElementCode.face_valid _ hface).2 n hn
  have hnode := hlt _ (List.getElem_mem hrow)
  refine ⟨r, hr, i, _, hID, List.getElem_mem hrow, ?_⟩
  rw [List.getD_eq_getElem _ _ hrow, List.getD_eq_getElem _ _ hnode, List.getElem?_eq_getElem hnode]

/-- **The entry for a face**: the only other element that has it, or `-1` if there is none. -/
def Opposite (F : List ℕ) (a : ℕ) (v : ℤ) : Prop :=
  (v = -1 ∧ ¬∃ b ≠ a, M.HasFace F b) ∨
    ∃ b : ℕ, v = b ∧ b ≠ a ∧ M.HasFace F b ∧ ∀ c ≠ a, M.HasFace F c → c = b

/-- Element `b` is a neighbour of element `a`. -/
def Linked (a b : ℕ) : Prop :=
  ∃ r < M.size, ∃ i : ℕ, (M.part r).IDs[i]? = some a ∧ (b : ℤ) ∈ (M.neighbors r).row i

section Conforming

variable {M} (h : M.Conforming)

include h

lemma faceNeighbor_opposite {r i ID : ℕ} (hr : r < M.size) (hID : (M.part r).IDs[i]? = some ID)
    {face : List ℕ} (hface : face ∈ M.faces r i) :
    M.Opposite (M.faceIDs r i face) ID ((M.part r).faceNeighbor i face) := by
  have hself := hasFace_self hr hID hface
  obtain ⟨hsome, hnone⟩ := faceNeighbor_spec hr hID hface
  by_cases hother : ∃ a ≠ ID, M.Contains (M.faceIDs r i face) a
  · obtain ⟨a, hne, hcontains, ha⟩ := hsome hother
    exact Or.inr ⟨a, ha, hne, h.both _ _ hself _ hcontains,
      fun c hc hface' => h.two _ _ hself c a hc hne hface'.contains hcontains⟩
  · exact Or.inl ⟨hnone hother, fun ⟨b, hne, hface'⟩ => hother ⟨b, hne, hface'.contains⟩⟩

lemma linked_iff {a b : ℕ} : M.Linked a b ↔ a ≠ b ∧ ∃ F, M.HasFace F a ∧ M.HasFace F b := by
  constructor
  · rintro ⟨r, hr, i, hID, hmem⟩
    rw [neighbors_row hr (List.getElem?_eq_some_iff.mp hID).1, List.mem_map] at hmem
    obtain ⟨face, hface, hneighbor⟩ := hmem
    have hopposite := faceNeighbor_opposite h hr hID hface
    rw [hneighbor] at hopposite
    rcases hopposite with ⟨hminus, -⟩ | ⟨c, hc, hne, hc', -⟩
    · exact absurd hminus (by omega)
    · obtain rfl := Int.ofNat_inj.mp hc
      exact ⟨hne.symm, _, hasFace_self hr hID hface, hc'⟩
  · rintro ⟨hne, F, ⟨r, hr, i, hID, face, hface, hnodes⟩, hb⟩
    refine ⟨r, hr, i, hID, ?_⟩
    rw [neighbors_row hr (List.getElem?_eq_some_iff.mp hID).1, List.mem_map]
    have hb' : M.HasFace (M.faceIDs r i face) b := hb.congr fun x => (hnodes x).symm
    rcases faceNeighbor_opposite h hr hID hface with ⟨-, hnone⟩ | ⟨c, hc, -, -, honly⟩
    · exact absurd ⟨b, hne.symm, hb'⟩ hnone
    · rw [honly b hne.symm hb']
      exact ⟨face, hface, hc⟩

lemma linked_symm {a b : ℕ} : M.Linked a b ↔ M.Linked b a := by
  rw [linked_iff h, linked_iff h, ne_comm]
  simp only [and_comm]

end Conforming

/-! ## The dual graph -/

section Dual

variable {w : ℕ} (options : ElementPart.DualOptions) (rsize : ℕ) (regions : List (BitVec w))

/-- The dual graph of rank `r`. -/
def decomposedDual (r : ℕ) : Serialized ℕ :=
  (M.part r).computeDecomposedDual (M.epointers r) options rsize regions (M.distribution r).border
    (M.neighbors r) (M.begine r)

variable {M}

lemma decomposedDual_eq (r : ℕ) : M.decomposedDual options rsize regions r
    = Serialized.ofRows ((List.range (M.part r).IDs.length).map ((M.part r).dualRow (M.epointers r)
        options rsize regions (M.neighbors r) (M.begine r))) := by
  have hsizes : ∀ t < (M.part r).threads, (M.distribution r).border t
      + ((List.range' ((M.distribution r).border t) ((M.distribution r).border (t + 1)
        - (M.distribution r).border t)).map fun e => ((M.part r).dualRow (M.epointers r) options
          rsize regions (M.neighbors r) (M.begine r) e).length).length
      = (M.distribution r).border (t + 1) := by
    intro t ht
    have := (M.distribution r).border_mono (Nat.le_succ t) ht
    rw [List.length_map, List.length_range']
    exact Nat.add_sub_cancel' this
  have hfull := Serialized.fullDistribution_eq (M.distribution r) _ hsizes
  rw [decomposedDual, ElementPart.computeDecomposedDual]
  dsimp only
  rw [hfull, ← List.map_flatMap, ← List.flatMap_assoc,
    (M.distribution r).flatMap_ranges, Serialized.ofRows,
    List.map_map, ← List.flatMap_def]
  rfl

lemma mem_dualRow {r i j : ℕ} (hr : r < M.size) (hi : i < (M.part r).IDs.length) :
    j ∈ (M.part r).dualRow (M.epointers r) options rsize regions (M.neighbors r) (M.begine r) i ↔
      j < (M.part r).IDs.length ∧ M.Linked (M.begine r + i) (M.begine r + j) ∧
        (M.part r).Joined (M.epointers r) options rsize regions i j := by
  have hlinked : ∀ n : ℕ, M.Linked (M.begine r + i) n ↔ (n : ℤ) ∈ (M.neighbors r).row i := by
    intro n
    constructor
    · rintro ⟨q, hq, k, hk, hmem⟩
      obtain ⟨rfl, rfl⟩ := ElementMesh.position_inj hr hq
        ((ElementMesh.getElem?_IDs hr).mpr ⟨hi, rfl⟩) hk
      exact hmem
    · intro hmem
      exact ⟨r, hr, i, (ElementMesh.getElem?_IDs hr).mpr ⟨hi, rfl⟩, hmem⟩
  rw [ElementPart.dualRow, List.mem_map, hlinked]
  constructor
  · rintro ⟨v, hv, rfl⟩
    obtain ⟨hmem, htest⟩ := List.mem_filter.mp hv
    obtain ⟨hne, hlow, hhigh, hjoined⟩ := of_decide_eq_true htest
    refine ⟨by omega, ?_, hjoined⟩
    rwa [show ((M.begine r + (v - M.begine r).toNat : ℕ) : ℤ) = v by omega]
  · rintro ⟨hj, hmem, hjoined⟩
    refine ⟨_, List.mem_filter.mpr ⟨hmem, decide_eq_true ⟨by omega, by omega, by omega, ?_⟩⟩, ?_⟩
    · simpa using hjoined
    · simp

lemma joined_symm {r i j : ℕ} : (M.part r).Joined (M.epointers r) options rsize regions i j ↔
    (M.part r).Joined (M.epointers r) options rsize regions j i := by
  simp only [ElementPart.Joined, eq_comm]

lemma decomposedDual_symm (h : M.Conforming) {r i j : ℕ} (hr : r < M.size)
    (hi : i < (M.part r).IDs.length) (hj : j < (M.part r).IDs.length) :
    j ∈ (M.decomposedDual options rsize regions r).row i ↔
      i ∈ (M.decomposedDual options rsize regions r).row j := by
  have hrow : ∀ i < (M.part r).IDs.length, (M.decomposedDual options rsize regions r).row i
      = (M.part r).dualRow (M.epointers r) options rsize regions (M.neighbors r)
        (M.begine r) i := by
    intro i hi
    rw [decomposedDual_eq, Serialized.row_ofRows (by rwa [List.length_map, List.length_range]),
      List.getElem_map, List.getElem_range]
  rw [hrow i hi, hrow j hj, mem_dualRow options rsize regions hr hi,
    mem_dualRow options rsize regions hr hj, linked_symm h, joined_symm options rsize regions]
  simp only [hi, hj, true_and]

end Dual

/-- **What the neighbors are**: each rank has a row for each element with an entry for each face,
the relation is symmetric over all ranks, and so are the dual graphs. -/
structure NeighborsExact : Prop where
  rows : ∀ r < M.size, ∃ rows, M.neighbors r = Serialized.ofRows rows ∧
    List.Forall₂ (fun i row => List.Forall₂ (fun face v =>
      M.Opposite (M.faceIDs r i face) (M.begine r + i) v) (M.faces r i) row)
      (List.range (M.part r).IDs.length) rows
  symmetric : ∀ a b, M.Linked a b ↔ M.Linked b a
  dual : ∀ r < M.size, ∀ (options : ElementPart.DualOptions) (w rsize : ℕ)
    (regions : List (BitVec w)), ∃ rows, M.decomposedDual options rsize regions r
      = Serialized.ofRows rows ∧ rows.length = (M.part r).IDs.length ∧
      ∀ i < rows.length, ∀ j < rows.length, j ∈ rows.getD i [] ↔ i ∈ rows.getD j []

/-- **`MeshPreprocessing::computeElementsNeighbors` finds the other element of each face**, and the
dual graph of `computeDecomposedDual` is symmetric. -/
theorem neighbors_exact (h : M.Conforming) : M.NeighborsExact := by
  refine ⟨fun r hr => ?_, fun a b => linked_symm h, fun r hr options w rsize regions => ?_⟩
  · refine ⟨_, neighbors_eq hr, ?_⟩
    rw [List.forall₂_map_right_iff, List.forall₂_same]
    intro i hi
    rw [List.forall₂_map_right_iff, List.forall₂_same]
    exact fun face hface => faceNeighbor_opposite h hr
      ((ElementMesh.getElem?_IDs hr).mpr ⟨List.mem_range.mp hi, rfl⟩) hface
  · have hlength : ((List.range (M.part r).IDs.length).map ((M.part r).dualRow (M.epointers r)
        options rsize regions (M.neighbors r) (M.begine r))).length = (M.part r).IDs.length := by
      rw [List.length_map, List.length_range]
    refine ⟨_, decomposedDual_eq options rsize regions r, hlength, fun i hi j hj => ?_⟩
    have hsymm := decomposedDual_symm options rsize regions h hr (hlength ▸ hi) (hlength ▸ hj)
    rwa [decomposedDual_eq, Serialized.row_ofRows hi, Serialized.row_ofRows hj,
      ← List.getD_eq_getElem _ [] hi, ← List.getD_eq_getElem _ [] hj] at hsymm

end FaceMesh

/-! ## Two elements with a common face -/

/-- Two tetrahedrons on one rank, with the common nodes 1, 2 and 3; the first one is also in a
region of its own. -/
def twoTetrasPart : ElementPart where
  rank := 0
  threads := 1
  neighbours := []
  nIDs := [0, 1, 2, 3, 4]
  ranks := [[0], [0], [0], [0], [0]]
  links := Serialized.ofRows [[0], [0, 1], [0, 1], [0, 1], [1]]
  IDs := [0, 1]
  nodes := Serialized.ofRows [[0, 1, 2, 3], [4, 1, 2, 3]]
  body := [0, 0]
  material := [0, 0]
  neighbors := none
  regions := [[0, 1], [0, 1], [0]]

namespace TwoTetras

lemma rank_eq (r : ℕ) (hr : r < 1) : twoTetrasPart.rank = r := (Nat.lt_one_iff.mp hr).symm

lemma contains_iff {x e : ℕ} : ContainsNode 1 (fun _ => twoTetrasPart) x e ↔
    (e = 0 ∧ x ∈ [0, 1, 2, 3]) ∨ (e = 1 ∧ x ∈ [4, 1, 2, 3]) := by
  have hID : ∀ n x : ℕ, twoTetrasPart.nIDs[n]? = some x ↔ n < 5 ∧ x = n := by
    intro n x
    match n with
    | 0 | 1 | 2 | 3 | 4 => simp [twoTetrasPart, eq_comm]
    | n + 5 => simp [twoTetrasPart]
  have hrow₀ : twoTetrasPart.nodes.row 0 = [0, 1, 2, 3] := by decide
  have hrow₁ : twoTetrasPart.nodes.row 1 = [4, 1, 2, 3] := by decide
  constructor
  · rintro ⟨q, -, i, n, he, hn, hx⟩
    obtain ⟨-, rfl⟩ := (hID n x).mp hx
    match i with
    | 0 => exact Or.inl ⟨(Option.some.inj he).symm, hrow₀ ▸ hn⟩
    | 1 => exact Or.inr ⟨(Option.some.inj he).symm, hrow₁ ▸ hn⟩
    | i + 2 => exact absurd he (by simp [twoTetrasPart])
  · rintro (⟨rfl, hx⟩ | ⟨rfl, hx⟩)
    · refine ⟨0, Nat.one_pos, 0, x, rfl, hrow₀ ▸ hx, (hID x x).mpr ⟨?_, rfl⟩⟩
      simp only [List.mem_cons, List.not_mem_nil, or_false] at hx
      omega
    · refine ⟨0, Nat.one_pos, 1, x, rfl, hrow₁ ▸ hx, (hID x x).mpr ⟨?_, rfl⟩⟩
      simp only [List.mem_cons, List.not_mem_nil, or_false] at hx
      omega

lemma threads_pos (r : ℕ) (_ : r < 1) : 0 < twoTetrasPart.threads := Nat.one_pos

lemma neighbours_ascending (r : ℕ) (_ : r < 1) : twoTetrasPart.neighbours.Pairwise (· < ·) :=
  List.Pairwise.nil

lemma neighbours_symm (r : ℕ) (_ : r < 1) (q : ℕ) (hq : q ∈ twoTetrasPart.neighbours) :
    q < 1 ∧ q ≠ r ∧ r ∈ twoTetrasPart.neighbours := by
  cases hq

lemma neighbours_of_shared (r : ℕ) (hr : r < 1) (q : ℕ) (hq : q < 1) (hne : q ≠ r)
    (_ : ∃ x ∈ twoTetrasPart.nIDs, x ∈ twoTetrasPart.nIDs) : q ∈ twoTetrasPart.neighbours := by
  omega

lemma ranks_exact (r : ℕ) (_ : r < 1) (n x : ℕ) (h : twoTetrasPart.nIDs[n]? = some x) :
    twoTetrasPart.ranks[n]? = some ((List.range 1).filter fun _ => x ∈ twoTetrasPart.nIDs) := by
  rw [List.filter_eq_self.mpr fun _ _ => decide_eq_true (List.mem_of_getElem? h)]
  match n with
  | 0 | 1 | 2 | 3 | 4 => rfl
  | n + 5 => exact absurd h (by simp [twoTetrasPart])

lemma IDs_eq (r : ℕ) (hr : r < 1) : twoTetrasPart.IDs = List.range'
    (((List.range r).map fun _ => twoTetrasPart.IDs.length).sum) twoTetrasPart.IDs.length := by
  obtain rfl := Nat.lt_one_iff.mp hr
  rfl

lemma nonempty (r : ℕ) (_ : r < 1) : 0 < twoTetrasPart.IDs.length := Nat.two_pos

lemma nodes_rows (r : ℕ) (_ : r < 1) : ∃ rows, twoTetrasPart.nodes = Serialized.ofRows rows ∧
    rows.length = twoTetrasPart.IDs.length := ⟨_, rfl, rfl⟩

lemma body_length (r : ℕ) (_ : r < 1) : twoTetrasPart.body.length = twoTetrasPart.IDs.length := rfl

lemma material_length (r : ℕ) (_ : r < 1) :
    twoTetrasPart.material.length = twoTetrasPart.IDs.length := rfl

lemma links_rows (r : ℕ) (_ : r < 1) : ∃ rows, twoTetrasPart.links = Serialized.ofRows rows ∧
    rows.length = twoTetrasPart.nIDs.length := ⟨_, rfl, rfl⟩

lemma links_exact (r : ℕ) (_ : r < 1) (n x : ℕ) (h : twoTetrasPart.nIDs[n]? = some x) :
    (twoTetrasPart.links.row n).Pairwise (· < ·) ∧ ∀ v, v ∈ twoTetrasPart.links.row n ↔
      ∃ e : ℕ, v = e ∧ ContainsNode 1 (fun _ => twoTetrasPart) x e := by
  have hrow : ∀ (row : List ℕ) (v : ℤ), (∀ e : ℕ, e ∈ row ↔ (e = 0 ∧ x ∈ [0, 1, 2, 3]) ∨
      (e = 1 ∧ x ∈ [4, 1, 2, 3])) → (v ∈ row.map (fun e : ℕ => (e : ℤ)) ↔
      ∃ e : ℕ, v = e ∧ ContainsNode 1 (fun _ => twoTetrasPart) x e) := by
    intro row v hrow
    simp only [List.mem_map, contains_iff, hrow]
    exact exists_congr fun e => by rw [and_comm, eq_comm]
  match n with
  | 0 =>
      obtain rfl := Option.some.inj h
      exact ⟨by decide, fun v => hrow [0] v (by simp)⟩
  | 1 =>
      obtain rfl := Option.some.inj h
      exact ⟨by decide, fun v => hrow [0, 1] v (by simp)⟩
  | 2 =>
      obtain rfl := Option.some.inj h
      exact ⟨by decide, fun v => hrow [0, 1] v (by simp)⟩
  | 3 =>
      obtain rfl := Option.some.inj h
      exact ⟨by decide, fun v => hrow [0, 1] v (by simp)⟩
  | 4 =>
      obtain rfl := Option.some.inj h
      exact ⟨by decide, fun v => hrow [1] v (by simp)⟩
  | n + 5 => exact absurd h (by simp [twoTetrasPart])

lemma neighbors_none (N : Serialized ℤ) : twoTetrasPart.neighbors ≠ some N := by
  simp [twoTetrasPart]

lemma neighbors_rows (r : ℕ) (_ : r < 1) (N : Serialized ℤ) (h : twoTetrasPart.neighbors = some N) :
    ∃ rows, N = Serialized.ofRows rows ∧ rows.length = twoTetrasPart.IDs.length :=
  absurd h (neighbors_none N)

lemma neighbors_shared (r : ℕ) (_ : r < 1) (N : Serialized ℤ)
    (h : twoTetrasPart.neighbors = some N) (i : ℕ) (_ : i < twoTetrasPart.IDs.length) (v : ℤ)
    (_ : v ∈ N.row i) : v = -1 ∨ ∃ e : ℕ, v = e ∧ ∃ n ∈ twoTetrasPart.nodes.row i, ∃ x,
      twoTetrasPart.nIDs[n]? = some x ∧ ContainsNode 1 (fun _ => twoTetrasPart) x e :=
  absurd h (neighbors_none N)

lemma regions_lt (r : ℕ) (_ : r < 1) : ∀ region ∈ twoTetrasPart.regions, ∀ i ∈ region,
    i < twoTetrasPart.IDs.length := by decide

def elementMesh : ElementMesh where
  size := 1
  part := fun _ => twoTetrasPart
  rank_eq := rank_eq
  threads_pos := threads_pos
  neighbours_ascending := neighbours_ascending
  neighbours_symm := neighbours_symm
  neighbours_of_shared := neighbours_of_shared
  ranks_exact := ranks_exact
  IDs_eq := IDs_eq
  nonempty := nonempty
  nodes_rows := nodes_rows
  body_length := body_length
  material_length := material_length
  links_rows := links_rows
  links_exact := links_exact
  neighbors_rows := neighbors_rows
  neighbors_shared := neighbors_shared
  regions_lt := regions_lt

lemma epointers_length (r : ℕ) (_ : r < 1) :
    [ElementCode.TETRA4, .TETRA4].length = twoTetrasPart.IDs.length := rfl

lemma types (r : ℕ) (_ : r < 1) : ∀ c ∈ [ElementCode.TETRA4, .TETRA4],
    (eclass c).type = .PLANE ∨ (eclass c).type = .VOLUME := by decide

lemma element_nodes (r : ℕ) (_ : r < 1) (i : ℕ) (hi : i < twoTetrasPart.IDs.length) :
    (twoTetrasPart.nodes.row i).length
      = (ElementPart.epointer [ElementCode.TETRA4, .TETRA4] i).nodes ∧
      ∀ n ∈ twoTetrasPart.nodes.row i, n < twoTetrasPart.nIDs.length :=
  match i with
  | 0 => by decide
  | 1 => by decide
  | i + 2 => absurd hi (by simp [twoTetrasPart])

/-- **The two tetrahedrons**, with one thread. -/
def mesh : FaceMesh where
  toElementMesh := elementMesh
  epointers := fun _ => [.TETRA4, .TETRA4]
  distribution := fun _ => Distribution.uniform Nat.one_pos 2
  epointers_length := epointers_length
  types := types
  element_nodes := element_nodes

lemma faceIDs_eq :
    (mesh.faces 0 0).map (mesh.faceIDs 0 0) = [[0, 1, 3], [1, 2, 3], [2, 0, 3], [2, 1, 0]] ∧
      (mesh.faces 0 1).map (mesh.faceIDs 0 1) = [[4, 1, 3], [1, 2, 3], [2, 4, 3], [2, 1, 4]] := by
  decide

lemma hasFace_iff {F : List ℕ} {a : ℕ} : mesh.HasFace F a ↔
    (a = 0 ∧ ∃ l ∈ [[0, 1, 3], [1, 2, 3], [2, 0, 3], [2, 1, 0]], ∀ x, x ∈ l ↔ x ∈ F) ∨
      (a = 1 ∧ ∃ l ∈ [[4, 1, 3], [1, 2, 3], [2, 4, 3], [2, 1, 4]], ∀ x, x ∈ l ↔ x ∈ F) := by
  constructor
  · rintro ⟨r, hr, i, hID, face, hface, hF⟩
    obtain rfl := Nat.lt_one_iff.mp hr
    match i with
    | 0 => exact Or.inl ⟨(Option.some.inj hID).symm, _,
        faceIDs_eq.1 ▸ List.mem_map_of_mem hface, hF⟩
    | 1 => exact Or.inr ⟨(Option.some.inj hID).symm, _,
        faceIDs_eq.2 ▸ List.mem_map_of_mem hface, hF⟩
    | i + 2 => exact absurd hID (by simp [mesh, elementMesh, twoTetrasPart])
  · rintro (⟨rfl, l, hl, hF⟩ | ⟨rfl, l, hl, hF⟩)
    · rw [← faceIDs_eq.1, List.mem_map] at hl
      obtain ⟨face, hface, rfl⟩ := hl
      exact ⟨0, Nat.one_pos, 0, rfl, face, hface, hF⟩
    · rw [← faceIDs_eq.2, List.mem_map] at hl
      obtain ⟨face, hface, rfl⟩ := hl
      exact ⟨0, Nat.one_pos, 1, rfl, face, hface, hF⟩

lemma conforming : mesh.Conforming := by
  have hcontains : ∀ {F : List ℕ} {a b : ℕ}, mesh.HasFace F a → mesh.Contains F b →
      (a = 0 ∨ a = 1) ∧ ((b = 0 ∧ ∀ x ∈ F, x ∈ [0, 1, 2, 3]) ∨
        (b = 1 ∧ ∀ x ∈ F, x ∈ [4, 1, 2, 3])) := by
    intro F a b hface hb
    have hone : ∃ x, x ∈ F := by
      rcases hasFace_iff.mp hface with ⟨-, l, hl, hF⟩ | ⟨-, l, hl, hF⟩
      · fin_cases hl <;> exact ⟨_, (hF _).mp List.mem_cons_self⟩
      · fin_cases hl <;> exact ⟨_, (hF _).mp List.mem_cons_self⟩
    have hall : ∀ x ∈ F, (b = 0 ∧ x ∈ [0, 1, 2, 3]) ∨ (b = 1 ∧ x ∈ [4, 1, 2, 3]) :=
      fun x hx => contains_iff.mp (hb x hx)
    refine ⟨(hasFace_iff.mp hface).imp And.left And.left, ?_⟩
    obtain ⟨x, hx⟩ := hone
    rcases hall x hx with ⟨rfl, -⟩ | ⟨rfl, -⟩
    · exact Or.inl ⟨rfl, fun y hy => ((hall y hy).resolve_right fun h => by omega).2⟩
    · exact Or.inr ⟨rfl, fun y hy => ((hall y hy).resolve_left fun h => by omega).2⟩
  constructor
  · intro F a hface b c hb hc hFb hFc
    obtain ⟨ha, hb'⟩ := hcontains hface hFb
    obtain ⟨-, hc'⟩ := hcontains hface hFc
    omega
  · intro F a hface b hFb
    obtain ⟨-, hb⟩ := hcontains hface hFb
    have honly₀ : ∀ l ∈ [[0, 1, 3], [1, 2, 3], [2, 0, 3], [2, 1, 0]],
        (∀ x ∈ l, x ∈ [4, 1, 2, 3]) → l = [1, 2, 3] := by decide
    have honly₁ : ∀ l ∈ [[4, 1, 3], [1, 2, 3], [2, 4, 3], [2, 1, 4]],
        (∀ x ∈ l, x ∈ [0, 1, 2, 3]) → l = [1, 2, 3] := by decide
    rw [hasFace_iff]
    rcases hasFace_iff.mp hface with ⟨-, l, hl, hF⟩ | ⟨-, l, hl, hF⟩
    · rcases hb with ⟨rfl, -⟩ | ⟨rfl, hin⟩
      · exact Or.inl ⟨rfl, l, hl, hF⟩
      · obtain rfl := honly₀ l hl fun x hx => hin x ((hF x).mp hx)
        exact Or.inr ⟨rfl, [1, 2, 3], by decide, hF⟩
    · rcases hb with ⟨rfl, hin⟩ | ⟨rfl, -⟩
      · obtain rfl := honly₁ l hl fun x hx => hin x ((hF x).mp hx)
        exact Or.inl ⟨rfl, [1, 2, 3], by decide, hF⟩
      · exact Or.inr ⟨rfl, l, hl, hF⟩

/-- The neighbours of the two tetrahedrons. -/
theorem neighbors_exact_mesh : mesh.Conforming ∧ mesh.NeighborsExact :=
  ⟨conforming, mesh.neighbors_exact conforming⟩

end TwoTetras

end Espreso
