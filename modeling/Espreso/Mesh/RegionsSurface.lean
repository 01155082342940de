import Espreso.Mesh.ElementRegions
import Espreso.Mesh.Halo
import Espreso.Mesh.OneRank
import Espreso.Mesh.Surface

/-!
# The surface of regions

`MeshPreprocessing::computeRegionsSurface` collects faces between elements with different rows of
bits. The rows of elements on other ranks are found in the halo.

* `RegionMesh` — a mesh with regions of elements, whose rows are those of `fillRegionMask`.
* **`regionsSurface_right_iff`** — when the surface of a region is right.
-/

namespace Espreso

def regionRow (rsize : ℕ) (regions : List ℤ) (e : ℕ) : List ℤ :=
  window regions (rsize * e) (rsize * (e + 1))

namespace ElementPart

section RegionsSurface

variable (P : ElementPart) (epointers : List ElementCode) (neighbors : Serialized ℤ) (eBegin : ℕ)
  (rsize : ℕ) (regions : List ℤ) (halo : Halo) (k : ℕ)

/-- `addFace` for a neighbour of element `e` in region `k`. -/
def addFace (e : ℕ) (v : ℤ) : Bool :=
  if v ≠ -1 ∧ k ≠ 0 then
    if v < eBegin ∨ eBegin + P.IDs.length ≤ v then
      regionRow rsize regions e
        ≠ regionRow rsize halo.regions (lowerBound (halo.IDs.map Nat.cast) v)
    else regionRow rsize regions e ≠ regionRow rsize regions (v - eBegin).toNat
  else v = -1

/-- The faces of element `e` that are added. -/
def addedFaces (e : ℕ) : List SurfaceFace :=
  ((((epointer epointers e).faces.zip (epointer epointers e).facepointers).zip
    (neighbors.row e)).filter fun p => P.addFace eBegin rsize regions halo k e p.2).map fun p =>
      ⟨P.faceNodes e p.1.1, p.1.2⟩

/-- `elementsRegions[k]->surface`, where thread `t` has elements from `border t` on. -/
def regionSurface (border : ℕ → ℕ) (elements : List ℕ) : SurfaceStore :=
  let faces (t : ℕ) := (window elements (border t) (border (t + 1))).flatMap
    (P.addedFaces epointers neighbors eBegin rsize regions halo k)
  SurfaceStore.ofFaces true P.threads faces
    (distribute P.threads ((List.range P.threads).flatMap faces).length)

end RegionsSurface

end ElementPart

/-! ## All ranks -/

/-- A mesh with regions of elements: each rank has a part of each region, and the rows of bits. -/
structure RegionMesh extends HaloMesh where
  nregions : ℕ
  store : ℕ → Elements
  regionLists : ∀ r, Regions (store r)
  regionDistribution : ∀ r k,
    Distribution (part r).threads ((regionLists r).region k).length
  neighbors_fit : toFaceMesh.NeighborsFit
  store_size : ∀ r < size, (store r).size = (part r).IDs.length
  lists_length : ∀ r < size, (regionLists r).lists.length = nregions
  lists_eq : ∀ r < size, (part r).regions = (regionLists r).lists
  regionMaskSize_eq : ∀ r < size, regionMaskSize = maskSize (regionLists r).lists
  masks_eq : ∀ r < size, masks r
    = (fillRegionMask (store r) (regionLists r).lists).map BitVec.toInt

namespace RegionMesh

variable (M : RegionMesh)

/-- The surface of region `k` on rank `r`. -/
def storedSurface (r k : ℕ) (halo : Halo) : SurfaceStore :=
  (M.part r).regionSurface (M.epointers r) (M.elementsNeighbors r)
    (M.boundaries.getD (M.part r).rank 0) M.regionMaskSize (M.masks r) halo k
    (M.regionDistribution r k).border ((M.regionLists r).region k)

/-- **`MeshPreprocessing::computeRegionsSurface`** on all ranks. -/
def computeRegionsSurface : Option (List (List SurfaceStore)) := do
  let halos ← M.exchangeHalo
  pure (halos.mapIdx fun r halo => (List.range M.nregions).map fun k => M.storedSurface r k halo)

/-- Element `a` of some rank is in region `k`. -/
def InRegion (k a : ℕ) : Prop :=
  ∃ q < M.size, ∃ j ∈ (M.regionLists q).region k, a = M.begine q + j

open Classical in
/-- **The surface of region `k`** on rank `r`: the nodes of those faces of elements of the region
that have no neighbour in the region. -/
noncomputable def surface (r k : ℕ) : List (List ℕ) :=
  ((M.regionLists r).region k).flatMap fun e =>
    (((M.faces r e).zip ((M.elementsNeighbors r).row e)).filter fun p =>
      p.2 = -1 ∨ ¬∃ b : ℕ, (b : ℤ) = p.2 ∧ M.InRegion k b).map fun p => (M.part r).faceNodes e p.1

def SameRegions (a b : ℕ) : Prop := ∀ c < M.nregions, M.InRegion c a ↔ M.InRegion c b

/-- **Neighbours in a region** are in the same other regions. -/
def Uniform (r k : ℕ) : Prop :=
  ∀ e ∈ (M.regionLists r).region k, ∀ b : ℕ, (b : ℤ) ∈ (M.elementsNeighbors r).row e →
    M.InRegion k b → M.SameRegions (M.begine r + e) b

/-! ## Rows and regions -/

section Rank

variable {M} {r : ℕ} (hr : r < M.size)

include hr

lemma region_lt {k e : ℕ} (he : e ∈ (M.regionLists r).region k) : e < (M.part r).IDs.length :=
  ((M.regionLists r).region_within he).trans_eq (M.store_size r hr)

lemma inRegion_iff {k j : ℕ} (hj : j < (M.part r).IDs.length) :
    M.InRegion k (M.begine r + j) ↔ j ∈ (M.regionLists r).region k := by
  constructor
  · rintro ⟨q, hq, i, hi, heq⟩
    obtain ⟨rfl, rfl⟩ := ElementMesh.position_inj hr hq
      ((ElementMesh.getElem?_IDs hr).mpr ⟨hj, rfl⟩)
      ((ElementMesh.getElem?_IDs hq).mpr ⟨region_lt hq hi, heq⟩)
    exact hi
  · exact fun h => ⟨r, hr, j, h, rfl⟩

lemma regionRow_masks {e : ℕ} : regionRow M.regionMaskSize (M.masks r) e
    = ((M.regionLists r).row e).map BitVec.toInt := by
  rw [regionRow, M.masks_eq r hr, M.regionMaskSize_eq r hr, Regions.row, window, window,
    List.map_take, List.map_drop, Nat.mul_succ]

lemma regionRow_eq_iff {q e j : ℕ} (hq : q < M.size) (he : e < (M.part r).IDs.length)
    (hj : j < (M.part q).IDs.length) : regionRow M.regionMaskSize (M.masks r) e
      = regionRow M.regionMaskSize (M.masks q) j ↔
        M.SameRegions (M.begine r + e) (M.begine q + j) := by
  have hinj : Function.Injective (BitVec.toInt : Bits → ℤ) := fun _ _ => BitVec.eq_of_toInt_eq
  rw [regionRow_masks hr, regionRow_masks hq, (List.map_injective_iff.mpr hinj).eq_iff,
    Regions.row_eq_row _ ((M.lists_length r hr).trans (M.lists_length q hq).symm)
      (he.trans_eq (M.store_size r hr).symm) (hj.trans_eq (M.store_size q hq).symm),
    M.lists_length r hr]
  exact forall₂_congr fun c _ => by rw [inRegion_iff hr he, inRegion_iff hq hj]

lemma addFace_iff {halo : Halo} (hhalo : M.HaloExact r halo) {k e : ℕ} (hk : k ≠ 0)
    (he : e < (M.part r).IDs.length) {v : ℤ} (hv : v ∈ (M.elementsNeighbors r).row e) :
    (M.part r).addFace (M.begine r) M.regionMaskSize (M.masks r) halo k e v = true ↔
      v = -1 ∨ ∃ b : ℕ, (b : ℤ) = v ∧ ¬M.SameRegions (M.begine r + e) b := by
  rw [ElementPart.addFace]
  rcases FaceMesh.elementsNeighbors_cases hr he hv with rfl | ⟨b, rfl, x, hxe, hxb⟩
  · simp
  have hne : ¬((b : ℤ) = -1) := by omega
  have hb : (∃ c : ℕ, (c : ℤ) = b ∧ ¬M.SameRegions (M.begine r + e) c) ↔
      ¬M.SameRegions (M.begine r + e) b :=
    ⟨fun ⟨c, hc, h⟩ => by rwa [Int.ofNat_inj.mp hc] at h, fun h => ⟨b, rfl, h⟩⟩
  rw [if_pos ⟨hne, hk⟩, hb, or_iff_right hne]
  obtain ⟨q, hq, j, n, hID, hn, hx⟩ := hxb
  obtain ⟨hj, rfl⟩ := (ElementMesh.getElem?_IDs hq).mp hID
  by_cases hown : q = r
  · -- the neighbour is on this rank
    subst hown
    have hin : ¬(((M.begine q + j : ℕ) : ℤ) < M.begine q ∨
        (M.begine q : ℤ) + (M.part q).IDs.length ≤ (M.begine q + j : ℕ)) := by
      push_cast
      omega
    rw [if_neg hin, decide_eq_true_eq, ← regionRow_eq_iff hr hr he hj,
      show (((M.begine q + j : ℕ) : ℤ) - M.begine q).toNat = j by omega]
  · -- the neighbour is in the halo
    have hout : ((M.begine q + j : ℕ) : ℤ) < M.begine r ∨
        (M.begine r : ℤ) + (M.part r).IDs.length ≤ (M.begine q + j : ℕ) := by
      have hother := mt (ElementMesh.own_iff hr hq hj).mp hown
      rw [ElementMesh.begine_succ] at hother
      omega
    have hin := HaloMesh.inHalo_of_shared hr hq hown he hj hxe ⟨q, hq, j, n, hID, hn, hx⟩
    rw [if_pos hout, decide_eq_true_eq, ← regionRow_eq_iff hr hq he hj]
    exact not_congr (by rw [regionRow, regionRow, hhalo.row hq hID hin]; rfl)

lemma elements_storedSurface {halo : Halo} {k : ℕ} :
    (M.storedSurface r k halo).elements.rows = ((M.regionLists r).region k).flatMap fun e =>
      (((M.faces r e).zip ((M.elementsNeighbors r).row e)).filter fun p =>
        (M.part r).addFace (M.begine r) M.regionMaskSize (M.masks r) halo k e p.2).map fun p =>
          (M.part r).faceNodes e p.1 := by
  have hsplit := flatMap_window (M.regionDistribution r k) ((M.regionLists r).region k)
    (M.part r).threads le_rfl
  rw [Distribution.border_size, window, List.drop_zero, Nat.sub_zero, List.take_length] at hsplit
  rw [storedSurface, M.rank_eq r hr, ElementMesh.boundaries_getD hr.le, ElementPart.regionSurface]
  rw [SurfaceStore.elements_ofFaces (M.threads_pos r hr), Serialized.rows_ofRows,
    ← List.flatMap_assoc, hsplit, List.map_flatMap]
  · refine List.flatMap_congr fun e _ => ?_
    have hcodes : (M.faces r e).length
        ≤ (ElementPart.epointer (M.epointers r) e).facepointers.length :=
      (ElementCode.length_facepointers _).ge
    have hfaces : (M.faces r e).zip ((M.elementsNeighbors r).row e)
        = (((M.faces r e).zip (ElementPart.epointer (M.epointers r) e).facepointers).zip
          ((M.elementsNeighbors r).row e)).map (Prod.map Prod.fst id) := by
      rw [← List.zip_map_left, List.map_fst_zip hcodes]
    rw [hfaces, List.filter_map, List.map_map, ElementPart.addedFaces, List.map_map]
    rfl
  · intro t _ face hface
    obtain ⟨e, -, hface⟩ := List.mem_flatMap.mp hface
    obtain ⟨⟨⟨nodes, code⟩, v⟩, hmem, rfl⟩ := List.mem_map.mp hface
    have hzip := (List.of_mem_zip (List.mem_filter.mp hmem).1).1
    exact (List.length_map _).trans (ElementCode.length_of_mem_zip _ hzip)
  · rw [distribute, List.getLastD_concat]

lemma inRegion_zero {j : ℕ} (hj : j < (M.part r).IDs.length) : M.InRegion 0 (M.begine r + j) :=
  (inRegion_iff hr hj).mpr
    ((M.regionLists r).mem_region_zero (hj.trans_eq (M.store_size r hr).symm))

lemma addFace_of_outer {halo : Halo} (hhalo : M.HaloExact r halo) {k e : ℕ}
    (hk : k < M.nregions) (he : e ∈ (M.regionLists r).region k) {v : ℤ}
    (hv : v ∈ (M.elementsNeighbors r).row e)
    (h : v = -1 ∨ ¬∃ b : ℕ, (b : ℤ) = v ∧ M.InRegion k b) :
    (M.part r).addFace (M.begine r) M.regionMaskSize (M.masks r) halo k e v = true := by
  have hlt := region_lt hr he
  rcases FaceMesh.elementsNeighbors_cases hr hlt hv with rfl | ⟨b, rfl, x, hxe, hxb⟩
  · simp [ElementPart.addFace]
  have hnot := h.resolve_left (by omega)
  rcases Nat.eq_zero_or_pos k with rfl | hpos
  · obtain ⟨q, hq, j, n, hID, -, -⟩ := hxb
    obtain ⟨hj, rfl⟩ := (ElementMesh.getElem?_IDs hq).mp hID
    exact absurd ⟨_, rfl, inRegion_zero hq hj⟩ hnot
  · rw [addFace_iff hr hhalo hpos.ne' hlt hv]
    exact Or.inr ⟨b, rfl, fun hsame =>
      hnot ⟨b, rfl, (hsame k hk).mp ((inRegion_iff hr hlt).mpr he)⟩⟩

lemma storedSurface_iff {halo : Halo} (hhalo : M.HaloExact r halo) {k : ℕ} (hk : k < M.nregions) :
    (M.storedSurface r k halo).elements.rows.Perm (M.surface r k) ↔ k = 0 ∨ M.Uniform r k := by
  rw [elements_storedSurface hr, surface, selection_perm_iff]
  · simp only [decide_eq_true_eq]
    constructor
    · intro h
      rcases Nat.eq_zero_or_pos k with hzero | hpos
      · exact Or.inl hzero
      refine Or.inr fun e he b hb hin => ?_
      have hlt := region_lt hr he
      by_contra hsame
      obtain ⟨j, hj⟩ := List.mem_iff_getElem?.mp hb
      have hface : j < (M.faces r e).length := by
        rw [← FaceMesh.length_elementsNeighbors hr M.neighbors_fit hlt]
        exact (List.getElem?_eq_some_iff.mp hj).1
      have hmem : ((M.faces r e)[j], (b : ℤ))
          ∈ (M.faces r e).zip ((M.elementsNeighbors r).row e) :=
        List.mem_of_getElem? (List.getElem?_zip_eq_some.mpr ⟨List.getElem?_eq_getElem hface, hj⟩)
      rcases h e he _ hmem ((addFace_iff hr hhalo hpos.ne' hlt hb).mpr (Or.inr ⟨b, rfl, hsame⟩))
        with hminus | hnot
      · dsimp only at hminus
        omega
      · exact hnot ⟨b, rfl, hin⟩
    · rintro (rfl | huniform) e he p hp hadd
      · exact Or.inl (by simpa [ElementPart.addFace] using hadd)
      have hv := (List.of_mem_zip hp).2
      rcases Nat.eq_zero_or_pos k with rfl | hpos
      · exact Or.inl (by simpa [ElementPart.addFace] using hadd)
      · refine ((addFace_iff hr hhalo hpos.ne' (region_lt hr he) hv).mp hadd).imp_right ?_
        rintro ⟨b, hb, hsame⟩ ⟨c, hc, hin⟩
        obtain rfl : c = b := by omega
        exact hsame (huniform e he c (hb ▸ hv) hin)
  · intro e he p hp h
    simp only [decide_eq_true_eq] at h
    exact addFace_of_outer hr hhalo hk he (List.of_mem_zip hp).2 h

end Rank

lemma computeRegionsSurface_eq : M.computeRegionsSurface = if ∀ r < M.size,
      ∀ n < (M.part r).neighbours.length,
        4 * ((4 + M.regionMaskSize) * (M.sent r n).length) ≤ limit then
    some ((List.range M.size).map fun r => (List.range M.nregions).map fun k =>
      M.storedSurface r k ((M.part r).halo M.regionMaskSize (M.rBuffer r)))
    else none := by
  rw [computeRegionsSurface, HaloMesh.exchangeHalo_eq]
  split_ifs
  · rw [Option.bind_eq_bind, Option.bind_some, Option.pure_def]
    refine congrArg some (List.ext_getElem (by simp) fun r hr hr' => ?_)
    simp
  · rfl

lemma getElem?_result {out : List (List SurfaceStore)} (h : M.computeRegionsSurface = some out)
    {r k : ℕ} (hr : r < M.size) (hk : k < M.nregions) :
    ∃ halo, M.HaloExact r halo ∧ (out.getD r [])[k]? = some (M.storedSurface r k halo) := by
  rw [computeRegionsSurface_eq] at h
  obtain ⟨-, h⟩ := Option.ite_none_right_eq_some.mp h
  obtain rfl := Option.some.inj h
  refine ⟨_, HaloMesh.haloExact hr, ?_⟩
  rw [List.getD_eq_getElem _ _ (by rwa [List.length_map, List.length_range]), List.getElem_map,
    List.getElem_range, List.getElem?_map, List.getElem?_range hk, Option.map_some]

/-- **`MeshPreprocessing::computeRegionsSurface` is right** for a region on a rank if and only if it
is the region of all elements, or neighbours in the region are in the same other regions. -/
theorem regionsSurface_right_iff {out : List (List SurfaceStore)}
    (h : M.computeRegionsSurface = some out) {r k : ℕ} (hr : r < M.size) (hk : k < M.nregions) :
    (∃ S, (out.getD r [])[k]? = some S ∧ S.elements.rows.Perm (M.surface r k)) ↔
      k = 0 ∨ M.Uniform r k := by
  obtain ⟨halo, hhalo, hstored⟩ := M.getElem?_result h hr hk
  rw [hstored, ← storedSurface_iff hr hhalo hk]
  simp only [Option.some.injEq, exists_eq_left']

end RegionMesh

/-! ## Regions on one rank -/

namespace OneRank

variable (O : OneRank) {E : Elements} (R : Regions E)

lemma length_masks (hsize : E.size = O.part.IDs.length) (r : ℕ) (_ : r < 1) :
    ((fillRegionMask E R.lists).map BitVec.toInt).length
      = maskSize R.lists * O.part.IDs.length := by
  rw [List.length_map, R.length_fillRegionMask, hsize]

def Used : Prop := ∀ n < O.nnodes, ∃ i < O.elements.length, n ∈ O.nodesOf i

lemma used_nodes (h : O.Used) (r : ℕ) (_ : r < 1) : ∀ n < O.part.nIDs.length,
    ∃ i < O.part.IDs.length, n ∈ O.part.nodes.row i := by
  intro n hn
  obtain ⟨i, hi, hmem⟩ := h n (hn.trans_eq List.length_range)
  exact ⟨i, hi.trans_eq O.length_IDs.symm, (O.nodes_row hi).symm ▸ hmem⟩

lemma const_eq {α : Type} {a b : α} (h : a = b) (r : ℕ) (_ : r < 1) : a = b := h

/-- **The mesh with regions**, whose elements are distributed by `tarray::distribute`. -/
def regionMesh (hsize : E.size = O.part.IDs.length) (hlists : O.part.regions = R.lists)
    (hused : O.Used) : RegionMesh where
  toFaceMesh := O.mesh
  nodeDistribution := fun _ => Distribution.uniform O.threads_pos O.part.nIDs.length
  regionMaskSize := maskSize R.lists
  masks := fun _ => (fillRegionMask E R.lists).map BitVec.toInt
  masks_length := O.length_masks R hsize
  used := O.used_nodes hused
  nregions := R.lists.length
  store := fun _ => E
  regionLists := fun _ => R
  regionDistribution := fun _ k => Distribution.uniform O.threads_pos (R.region k).length
  neighbors_fit := O.neighbors_fit
  store_size := const_eq hsize
  lists_length := const_eq rfl
  lists_eq := const_eq hlists
  regionMaskSize_eq := const_eq rfl
  masks_eq := const_eq rfl

end OneRank

namespace TwoTriangles

def elements : List (ElementCode × List ℕ) := [(.TRIANGLE3, [0, 1, 2]), (.TRIANGLE3, [1, 3, 2])]

def neighbors : List (List ℤ) := [[-1, 1, -1], [-1, -1, 0]]

/-- Besides the region of all elements, there is one with both triangles, and one with the first. -/
def lists : List (List ℕ) := [[0, 1], [0, 1], [0]]

lemma nonempty : 0 < elements.length := by decide

lemma valid : ∀ e ∈ elements, ((eclass e.1).type = .PLANE ∨ (eclass e.1).type = .VOLUME) ∧
    e.2.length = (eclass e.1).nodes ∧ ∀ n ∈ e.2, n < 4 := by decide

lemma neighbors_length : neighbors.length = elements.length := rfl

lemma neighbors_valid : ∀ i < elements.length, (neighbors.getD i []).length
      = (eclass ((elements.map Prod.fst).getD i .POINT1)).faces.length ∧
    ∀ v ∈ neighbors.getD i [], v = -1 ∨ ∃ e < elements.length, v = e ∧
      ∃ n ∈ (elements.map Prod.snd).getD i [], n ∈ (elements.map Prod.snd).getD e [] := by
  decide

lemma regions_valid : ∀ region ∈ lists, ∀ e ∈ region, e < elements.length := by decide

def square : OneRank where
  threads := 1
  nnodes := 4
  elements := elements
  neighbors := neighbors
  regions := lists
  threads_pos := Nat.one_pos
  nonempty := nonempty
  valid := valid
  neighbors_length := neighbors_length
  neighbors_valid := neighbors_valid
  regions_valid := regions_valid

lemma ascending : ∀ l ∈ lists, l.Pairwise (· < ·) := by decide

lemma within : ∀ l ∈ lists, ∀ e ∈ l, e < 2 := by decide

lemma all : lists[0]? = some (List.range 2) := rfl

def regions : Regions twoElements where
  lists := lists
  ascending := ascending
  within := within
  all := all

lemma used : square.Used := by
  unfold OneRank.Used
  decide

lemma size_eq : twoElements.size = square.part.IDs.length := rfl

lemma lists_eq : square.part.regions = regions.lists := rfl

/-- **Overlapping regions** of two triangles. -/
def mesh : RegionMesh := square.regionMesh regions size_eq lists_eq used

lemma computeRegionsSurface_isSome : ∃ out, mesh.computeRegionsSurface = some out := by
  refine ⟨_, (RegionMesh.computeRegionsSurface_eq mesh).trans (if_pos fun r _ n hn => ?_)⟩
  exact absurd hn (Nat.not_lt_zero n)

lemma inRegion {k j : ℕ} (hj : j < 2) : mesh.InRegion k j ↔ j ∈ regions.region k := by
  have h := RegionMesh.inRegion_iff (M := mesh) (r := 0) (k := k) Nat.one_pos hj
  rwa [show mesh.begine 0 + j = j from Nat.zero_add j] at h

/-- The common line of the triangles is added to the surface of their region. -/
theorem regionSurface_not_right : ∃ out, mesh.computeRegionsSurface = some out ∧
    ¬∃ S, (out.getD 0 [])[1]? = some S ∧ S.elements.rows.Perm (mesh.surface 0 1) := by
  obtain ⟨out, hout⟩ := computeRegionsSurface_isSome
  obtain ⟨halo, hhalo, hstored⟩ := mesh.getElem?_result (k := 1) hout Nat.one_pos (by decide)
  refine ⟨out, hout, ?_⟩
  rintro ⟨S, hS, hperm⟩
  obtain rfl := Option.some.inj (hstored.symm.trans hS)
  rcases (RegionMesh.storedSurface_iff Nat.one_pos hhalo (by decide)).mp hperm with hzero | huniform
  · exact absurd hzero (by decide)
  · have hboth : mesh.InRegion 1 1 := (inRegion (by decide)).mpr (by decide)
    have hsame := huniform 0 (by decide) 1 (by decide) hboth 2 (by decide)
    have hfirst : mesh.InRegion 2 (mesh.begine 0 + 0) := (inRegion (by decide)).mpr (by decide)
    exact absurd ((inRegion (by decide)).mp (hsame.mp hfirst)) (by decide)

/-- The condition for the region of all elements. -/
theorem regionSurface_right_iff : ∃ out, mesh.computeRegionsSurface = some out ∧
    ((∃ S, (out.getD 0 [])[0]? = some S ∧ S.elements.rows.Perm (mesh.surface 0 0)) ↔
      0 = 0 ∨ mesh.Uniform 0 0) := by
  obtain ⟨out, hout⟩ := computeRegionsSurface_isSome
  exact ⟨out, hout, mesh.regionsSurface_right_iff hout Nat.one_pos (by decide)⟩

end TwoTriangles

end Espreso
