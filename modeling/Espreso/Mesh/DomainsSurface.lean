import Espreso.Mesh.OneRank
import Espreso.Mesh.Surface

/-!
# The surface of domains

`MeshPreprocessing::computeDomainsSurface` collects the outer faces of each domain. A thread visits
the elements of its domains, but its iterators start at the first element of the thread.

* `computeDomainsSurface` — the function of the source; there is no result if it reads data that do
  not exist.
* **`domainsSurface_right_iff`** — when it is right.
-/

namespace Espreso

namespace ElementPart

/-! ## The function -/

section Surface

variable (P : ElementPart) (epointers : List ElementCode) (neighbors : Serialized ℤ)
  (domains elements start : ℕ → ℕ) (eoffset : ℕ)

def isOuter (d : ℕ) (n : ℤ) : Bool :=
  n < (elements d + eoffset : ℕ) ∨ (elements (d + 1) + eoffset : ℕ) ≤ n

/-- The nodes of a face, for an iterator that stands at `position`. -/
def readNodes (position : ℕ) (face : List ℕ) : Option (List ℕ) :=
  face.mapM fun f => P.nodes.data[P.nodes.boundaries.getD position 0 + f]?

/-- The outer faces of a visited element. The faces and their classes are those of the element, the
neighbors and the nodes are read by the iterators. -/
def readFaces (v : Visit) : Option (List SurfaceFace) :=
  if v.position ≤ neighbors.structures then
    ((neighbors.row v.position).zipIdx.filter fun n => isOuter elements eoffset v.domain n.1).mapM
      fun n => do
        let face ← (epointer epointers v.element).faces[n.2]?
        let code ← (epointer epointers v.element).facepointers[n.2]?
        let nodes ← P.readNodes v.position face
        pure ⟨nodes, code⟩
  else none

/-- The faces that thread `t` collects for domain `d`. -/
def domainFaces (t d : ℕ) : Option (List SurfaceFace) :=
  ((List.range' (elements d) (elements (d + 1) - elements d)).mapM fun e =>
    P.readFaces epointers neighbors elements eoffset
      ⟨d, e, start t + (e - elements (domains t))⟩).map List.flatten

/-- The faces that thread `t` collects, for each of its domains. -/
def threadFaces (t : ℕ) : Option (List (List SurfaceFace)) :=
  (List.range' (domains t) (domains (t + 1) - domains t)).mapM
    (P.domainFaces epointers neighbors domains elements start eoffset t)

end Surface

/-- `tintervals`: the size of `tfacesDistribution` behind each domain. Those of the first thread
begin with `0`. -/
def tintervals (t : ℕ) (sizes : List ℕ) : List ℕ :=
  if t = 0 then 0 :: (offsets sizes).tail.map (· + 1) else (offsets sizes).tail

/-- `intervals[t]`, where `sizes` are the faces of the domains of each thread. -/
def intervals (sizes : ℕ → List ℕ) (t : ℕ) : List ℕ :=
  if t = 0 then
    match tintervals 0 (sizes 0) with
    | [] => []
    | first :: rest => first :: rest.map (· - 1)
  else (tintervals t (sizes t)).map (· + ((List.range t).map fun s => (sizes s).sum).sum)

/-- `edistribution` -/
def surfaceDistribution (threads : ℕ) (sizes : ℕ → List ℕ) : List ℕ :=
  sortAndRemoveDuplicity (sortAndRemoveDuplicity ((List.range threads).flatMap (intervals sizes)))

/-! ## The borders of the surface -/

lemma intervals_eq (sizes : ℕ → List ℕ) (t : ℕ) : intervals sizes t
    = (Serialized.ends t (sizes t)).map (· + ((List.range t).map fun s => (sizes s).sum).sum) := by
  rw [intervals, Serialized.ends]
  rcases Nat.eq_zero_or_pos t with rfl | ht
  · have hcons : offsets (sizes 0) = 0 :: (offsets (sizes 0)).tail := by
      cases sizes 0 <;> simp [offsets, List.scanl_cons]
    have hid : (fun x : ℕ => x - 1) ∘ (fun x => x + 1) = id := by
      funext x
      exact Nat.add_sub_cancel x 1
    rw [if_pos rfl, if_pos rfl, tintervals, if_pos rfl, hcons]
    simp [hid]
  · rw [if_neg ht.ne', if_neg ht.ne', tintervals, if_neg ht.ne', List.drop_one]

lemma surfaceDistribution_eq {threads : ℕ} (h : 0 < threads) (sizes : ℕ → List ℕ) :
    surfaceDistribution threads sizes
      = sortAndRemoveDuplicity (offsets ((List.range threads).flatMap sizes)) := by
  have hintervals : (List.range threads).flatMap (intervals sizes)
      = offsets ((List.range threads).flatMap sizes) := by
    rw [← Serialized.flatMap_ends sizes h]
    exact List.flatMap_congr fun t _ => intervals_eq sizes t
  rw [surfaceDistribution, hintervals,
    sortAndRemoveDuplicity_of_sorted (sortAndRemoveDuplicity_sorted _)]

lemma surfaceDistribution_spec {threads : ℕ} (h : 0 < threads) (sizes : ℕ → List ℕ) :
    ((∀ n ∈ (List.range threads).flatMap sizes, 0 < n) →
      surfaceDistribution threads sizes = offsets ((List.range threads).flatMap sizes)) ∧
    (((List.range threads).flatMap sizes).length < (surfaceDistribution threads sizes).length →
      ∀ n ∈ (List.range threads).flatMap sizes, 0 < n) := by
  rw [surfaceDistribution_eq h]
  constructor
  · intro hpos
    have hne : (offsets ((List.range threads).flatMap sizes)).Nodup := offsets_nodup_iff.mpr hpos
    refine sortAndRemoveDuplicity_of_sorted (((offsets_sorted _).and hne).imp fun h => ?_)
    exact lt_of_le_of_ne h.1 h.2
  · intro hlength
    refine offsets_nodup_iff.mp (nodup_of_length_le ?_)
    rwa [length_offsets]

end ElementPart

namespace DomainMesh

variable (M : DomainMesh)

/-- **`MeshPreprocessing::computeDomainsSurface`** on rank `r`. -/
def computeDomainsSurface (r : ℕ) : Option SurfaceStore := do
  let P := M.part r
  let domains := (M.domainDistribution r).border
  let faces ← (List.range P.threads).mapM
    (P.threadFaces (M.epointers r) (M.elementsNeighbors r) domains
      (M.elementsDistribution r).border (M.distribution r).border (M.boundaries.getD P.rank 0))
  let edistribution := ElementPart.surfaceDistribution P.threads fun t =>
    (faces.getD t []).map List.length
  let _tdistribution ← (List.range P.threads).mapM fun t => edistribution[domains (t + 1)]?
  pure (SurfaceStore.ofFaces false P.threads (fun t => (faces.getD t []).flatten) edistribution)

/-- **The outer faces of domain `d`**: the nodes of those faces of its elements that have no
neighbour in the domain. -/
def outerFaces (r d : ℕ) : List (List ℕ) :=
  (List.range' ((M.elementsDistribution r).border d) ((M.elementsDistribution r).border (d + 1)
    - (M.elementsDistribution r).border d)).flatMap fun e =>
      (((M.faces r e).zip ((M.elementsNeighbors r).row e)).filter fun p =>
        ElementPart.isOuter (M.elementsDistribution r).border (M.begine r) d p.2).map fun p =>
          (M.part r).faceNodes e p.1

/-- **The surface is right**: it has the outer faces of each domain, between its borders. -/
structure DomainsSurfaceRight (r : ℕ) (S : SurfaceStore) : Prop where
  length_eq : S.edistribution.length = M.ndomains r + 1
  first : S.edistribution[0]? = some 0
  last : S.edistribution[M.ndomains r]? = some S.elements.structures
  faces : ∀ d < M.ndomains r, ∃ a b, S.edistribution[d]? = some a ∧
    S.edistribution[d + 1]? = some b ∧
      ((List.range' a (b - a)).map S.elements.row).Perm (M.outerFaces r d)

def threadOf (r d : ℕ) : ℕ := lowerBound (M.domainDistribution r).borders (d + 1) - 1

/-- The thread of domain `d` has the elements from the first one of its first domain on. -/
def Aligned (r d : ℕ) : Prop :=
  (M.distribution r).border (M.threadOf r d)
    = (M.elementsDistribution r).border ((M.domainDistribution r).border (M.threadOf r d))

/-- The faces that are read for domain `d`. -/
def readDomain (r d : ℕ) : Option (List SurfaceFace) :=
  (M.part r).domainFaces (M.epointers r) (M.elementsNeighbors r) (M.domainDistribution r).border
    (M.elementsDistribution r).border (M.distribution r).border (M.begine r) (M.threadOf r d) d

/-- Elsewhere, too, there are such elements that the outer faces are the same. -/
def SameFaces (r d : ℕ) : Prop :=
  ∃ faces, M.readDomain r d = some faces ∧
    (faces.map SurfaceFace.nodes).Perm (M.outerFaces r d)

/-! ## Reading at the right elements -/

section Rank

variable {M} {r : ℕ}

lemma threadOf_eq {t d : ℕ} (ht : t < (M.part r).threads)
    (hlow : (M.domainDistribution r).border t ≤ d)
    (hhigh : d < (M.domainDistribution r).border (t + 1)) : M.threadOf r d = t := by
  rw [threadOf, lowerBound_eq _ ht hlow hhigh, Nat.add_sub_cancel]

lemma threadOf_spec {d : ℕ} (hd : d < M.ndomains r) : M.threadOf r d < (M.part r).threads ∧
    (M.domainDistribution r).border (M.threadOf r d) ≤ d ∧
      d < (M.domainDistribution r).border (M.threadOf r d + 1) := by
  obtain ⟨t, ht, hlow, hhigh⟩ := (M.domainDistribution r).exists_range hd
  rw [threadOf_eq ht hlow hhigh]
  exact ⟨ht, hlow, hhigh⟩

lemma readNodes_eq (hr : r < M.size) {i : ℕ} (hi : i < (M.part r).IDs.length) {face : List ℕ}
    (hface : face ∈ M.faces r i) :
    (M.part r).readNodes i face = some ((M.part r).faceNodes i face) := by
  refine Fallible.mapM_eq_some fun f hf => ?_
  have hlt : f < ((M.part r).nodes.row i).length := by
    rw [(M.element_nodes r hr i hi).1]
    exact (ElementCode.face_valid _ hface).2 f hf
  rw [List.getD_eq_getElem _ _ hlt, ← List.getElem?_eq_getElem hlt, Serialized.row, window,
    List.getElem?_take_of_lt, List.getElem?_drop]
  rw [Serialized.row, window, List.length_take] at hlt
  exact hlt.trans_le (min_le_left _ _)

lemma readFaces_aligned (hr : r < M.size) {d e : ℕ} (he : e < (M.part r).IDs.length) :
    ∃ faces, (M.part r).readFaces (M.epointers r) (M.elementsNeighbors r)
        (M.elementsDistribution r).border (M.begine r) ⟨d, e, e⟩ = some faces ∧
      faces.map SurfaceFace.nodes = (((M.faces r e).zip ((M.elementsNeighbors r).row e)).filter
        fun p => ElementPart.isOuter (M.elementsDistribution r).border (M.begine r) d p.2).map
          fun p => (M.part r).faceNodes e p.1 := by
  have hlength := FaceMesh.length_elementsNeighbors hr M.neighbors_fit he
  have hcodes := ElementCode.length_facepointers ((M.epointers r).getD e .POINT1)
  set row := (M.elementsNeighbors r).row e with hrow
  have hzip : (M.faces r e).zip row = row.zipIdx.map fun n => ((M.faces r e).getD n.2 [], n.1) := by
    refine List.ext_getElem (by simp [hlength]) fun k hk hk' => ?_
    have hlt : k < (M.faces r e).length := by
      rw [List.length_zip] at hk
      omega
    rw [List.getElem_zip, List.getElem_map, List.getElem_zipIdx, Nat.zero_add,
      List.getD_eq_getElem _ _ hlt]
  refine ⟨(row.zipIdx.filter fun n => ElementPart.isOuter (M.elementsDistribution r).border
    (M.begine r) d n.1).map fun n => ⟨(M.part r).faceNodes e ((M.faces r e).getD n.2 []),
      (ElementPart.epointer (M.epointers r) e).facepointers.getD n.2 .POINT1⟩, ?_, ?_⟩
  · rw [ElementPart.readFaces]
    dsimp only
    rw [if_pos (by rw [FaceMesh.structures_elementsNeighbors hr]; exact he.le)]
    refine Fallible.mapM_eq_some fun n hn => ?_
    obtain ⟨hn, -⟩ := List.mem_filter.mp hn
    have hlt : n.2 < (M.faces r e).length := by
      have hrange : n.2 < row.length := by simpa using List.snd_lt_of_mem_zipIdx hn
      rwa [hlength] at hrange
    have hlt' : n.2 < (ElementPart.epointer (M.epointers r) e).facepointers.length :=
      hlt.trans_eq hcodes.symm
    have hface : (ElementPart.epointer (M.epointers r) e).faces[n.2]?
        = some ((M.faces r e).getD n.2 []) := by
      rw [List.getD_eq_getElem _ _ hlt]
      exact List.getElem?_eq_getElem hlt
    have hmem : (M.faces r e).getD n.2 [] ∈ M.faces r e := by
      rw [List.getD_eq_getElem _ _ hlt]
      exact List.getElem_mem hlt
    rw [hface, List.getElem?_eq_getElem hlt', List.getD_eq_getElem _ _ hlt']
    simp only [Option.bind_eq_bind, Option.bind_some, Option.pure_def]
    rw [readNodes_eq hr he hmem, Option.bind_some]
  · rw [hzip, List.filter_map, List.map_map, List.map_map]
    rfl

lemma sameFaces_of_aligned (hr : r < M.size) {d : ℕ} (hd : d < M.ndomains r) (h : M.Aligned r d) :
    M.SameFaces r d := by
  obtain ⟨ht, hlow, hhigh⟩ := threadOf_spec hd
  have hfirst := (M.elementsDistribution r).border_mono hlow hd.le
  have hlast : (M.elementsDistribution r).border (d + 1) ≤ (M.part r).IDs.length :=
    (M.elementsDistribution r).border_le_total (Nat.succ_le_of_lt hd)
  rw [Aligned] at h
  set first := (M.elementsDistribution r).border d with hfirstdef
  set last := (M.elementsDistribution r).border (d + 1) with hlastdef
  have hread : ∀ e ∈ List.range' first (last - first), ∃ faces,
      (M.part r).readFaces (M.epointers r) (M.elementsNeighbors r)
        (M.elementsDistribution r).border (M.begine r) ⟨d, e, (M.distribution r).border
          (M.threadOf r d) + (e - (M.elementsDistribution r).border
            ((M.domainDistribution r).border (M.threadOf r d)))⟩ = some faces ∧
        faces.map SurfaceFace.nodes = (((M.faces r e).zip ((M.elementsNeighbors r).row e)).filter
          fun p => ElementPart.isOuter (M.elementsDistribution r).border (M.begine r) d p.2).map
            fun p => (M.part r).faceNodes e p.1 := by
    intro e he
    have hrange := List.mem_range'_1.mp he
    rw [h, Nat.add_sub_cancel' (hfirst.trans hrange.1)]
    exact readFaces_aligned hr (by omega)
  choose! faces hfaces hnodes using hread
  refine ⟨((List.range' first (last - first)).map faces).flatten, ?_, ?_⟩
  · rw [readDomain, ElementPart.domainFaces, Fallible.mapM_eq_some hfaces]
    rfl
  · rw [outerFaces, List.map_flatten, List.map_map, ← List.flatMap_def]
    exact List.Perm.of_eq (List.flatMap_congr hnodes)

/-! ## The result -/

lemma readFaces_nodes {neighbors : Serialized ℤ} {v : Visit} {eoffset : ℕ}
    {faces : List SurfaceFace}
    (h : (M.part r).readFaces (M.epointers r) neighbors (M.elementsDistribution r).border eoffset v
      = some faces) : ∀ face ∈ faces, face.nodes.length = (eclass face.code).nodes := by
  rw [ElementPart.readFaces] at h
  split_ifs at h
  intro face hface
  obtain ⟨n, -, hn⟩ := (Fallible.mem_mapM h).mp hface
  simp only [Option.bind_eq_bind, Option.pure_def, Option.bind_eq_some_iff, Option.some.injEq] at hn
  obtain ⟨nodes, hnodes, code, hcode, IDs, hIDs, rfl⟩ := hn
  have hzip := List.getElem?_zip_eq_some (z := (nodes, code)).mpr ⟨hnodes, hcode⟩
  rw [← (Fallible.forall₂_of_mapM hIDs).length_eq]
  exact ElementCode.length_of_mem_zip _ (List.mem_of_getElem? hzip)

lemma readDomain_nodes {d : ℕ} {faces : List SurfaceFace} (h : M.readDomain r d = some faces) :
    ∀ face ∈ faces, face.nodes.length = (eclass face.code).nodes := by
  rw [readDomain, ElementPart.domainFaces, Option.map_eq_some_iff] at h
  obtain ⟨parts, hparts, rfl⟩ := h
  intro face hface
  obtain ⟨part, hpart, hface⟩ := List.mem_flatten.mp hface
  obtain ⟨e, -, he⟩ := (Fallible.mem_mapM hparts).mp hpart
  exact readFaces_nodes he face hface

lemma threadFaces_eq {t : ℕ} (ht : t < (M.part r).threads) :
    (M.part r).threadFaces (M.epointers r) (M.elementsNeighbors r) (M.domainDistribution r).border
      (M.elementsDistribution r).border (M.distribution r).border (M.begine r) t
      = (List.range' ((M.domainDistribution r).border t) ((M.domainDistribution r).border (t + 1)
        - (M.domainDistribution r).border t)).mapM (M.readDomain r) := by
  refine Fallible.mapM_congr fun d hd => ?_
  have hrange := List.mem_range'_1.mp hd
  rw [readDomain, threadOf_eq ht hrange.1 (by omega)]

section Faces

variable {G : ℕ → List SurfaceFace} (hG : ∀ d < M.ndomains r, M.readDomain r d = some (G d))

def collected (M : DomainMesh) (r : ℕ) (G : ℕ → List SurfaceFace) (t : ℕ) :
    List (List SurfaceFace) :=
  ((List.range (M.part r).threads).map fun t => (List.range' ((M.domainDistribution r).border t)
    ((M.domainDistribution r).border (t + 1) - (M.domainDistribution r).border t)).map G).getD t []

lemma collected_eq {t : ℕ} (ht : t < (M.part r).threads) : M.collected r G t
    = (List.range' ((M.domainDistribution r).border t)
      ((M.domainDistribution r).border (t + 1) - (M.domainDistribution r).border t)).map G := by
  rw [collected, List.getD_eq_getElem _ _ (by rwa [List.length_map, List.length_range]),
    List.getElem_map, List.getElem_range]

lemma flatMap_collected : (List.range (M.part r).threads).flatMap (M.collected r G)
    = (List.range (M.ndomains r)).map G := by
  rw [← (M.domainDistribution r).flatMap_ranges, List.map_flatMap]
  exact List.flatMap_congr fun t ht => collected_eq (List.mem_range.mp ht)

include hG

lemma computeDomainsSurface_eq (hr : r < M.size) : M.computeDomainsSurface r
    = if ∀ d < M.ndomains r, G d ≠ [] then some (SurfaceStore.ofFaces false (M.part r).threads
        (fun t => (M.collected r G t).flatten)
        (offsets ((List.range (M.ndomains r)).map fun d => (G d).length)))
      else none := by
  have hfaces : (List.range (M.part r).threads).mapM ((M.part r).threadFaces (M.epointers r)
      (M.elementsNeighbors r) (M.domainDistribution r).border (M.elementsDistribution r).border
      (M.distribution r).border (M.begine r))
      = some ((List.range (M.part r).threads).map fun t =>
        (List.range' ((M.domainDistribution r).border t) ((M.domainDistribution r).border (t + 1)
          - (M.domainDistribution r).border t)).map G) := by
    refine Fallible.mapM_eq_some fun t ht => ?_
    have ht := List.mem_range.mp ht
    rw [threadFaces_eq ht]
    refine Fallible.mapM_eq_some fun d hd => hG d ?_
    have hlast : (M.domainDistribution r).border (t + 1) ≤ M.ndomains r :=
      (M.domainDistribution r).border_le_total (Nat.succ_le_of_lt ht)
    have hrange := List.mem_range'_1.mp hd
    omega
  have hthreads := M.threads_pos r hr
  have hsizes : (List.range (M.part r).threads).flatMap
      (fun t => (M.collected r G t).map List.length)
      = (List.range (M.ndomains r)).map fun d => (G d).length := by
    rw [← List.map_flatMap, flatMap_collected, List.map_map]
    rfl
  obtain ⟨hall, hpos⟩ := ElementPart.surfaceDistribution_spec hthreads
    fun t => (M.collected r G t).map List.length
  have hiff : (∀ n ∈ (List.range (M.ndomains r)).map fun d => (G d).length, 0 < n) ↔
      ∀ d < M.ndomains r, G d ≠ [] := by
    simp only [List.forall_mem_map, List.mem_range, List.length_pos_iff]
  rw [hsizes] at hall hpos
  rw [hiff] at hall hpos
  rw [computeDomainsSurface, M.rank_eq r hr, ElementMesh.boundaries_getD hr.le]
  dsimp only
  rw [hfaces, Option.bind_eq_bind, Option.bind_some]
  change (do
    let _ ← (List.range (M.part r).threads).mapM fun t => (ElementPart.surfaceDistribution
      (M.part r).threads fun t => (M.collected r G t).map List.length)[
        (M.domainDistribution r).border (t + 1)]?
    pure (SurfaceStore.ofFaces false (M.part r).threads (fun t => (M.collected r G t).flatten)
      (ElementPart.surfaceDistribution (M.part r).threads fun t =>
        (M.collected r G t).map List.length))) = _
  split_ifs with hne
  · have hread : ∃ ys, (List.range (M.part r).threads).mapM (fun t =>
        (offsets ((List.range (M.ndomains r)).map
          fun d => (G d).length))[(M.domainDistribution r).border (t + 1)]?) = some ys := by
      refine Fallible.exists_mapM fun t ht => ?_
      have hlast : (M.domainDistribution r).border (t + 1) ≤ M.ndomains r :=
        (M.domainDistribution r).border_le_total (Nat.succ_le_of_lt (List.mem_range.mp ht))
      exact ⟨_, getElem?_offsets _ (by rwa [List.length_map, List.length_range])⟩
    obtain ⟨ys, hys⟩ := hread
    rw [hall hne, hys]
    rfl
  · rw [List.length_map, List.length_range] at hpos
    have hshort := Nat.le_of_not_lt (mt hpos hne)
    rcases hread : (List.range (M.part r).threads).mapM (fun t => (ElementPart.surfaceDistribution
      (M.part r).threads fun t => (M.collected r G t).map List.length)[
        (M.domainDistribution r).border (t + 1)]?) with _ | ys
    · rfl
    · -- the last border is missing
      obtain ⟨y, hy⟩ := Fallible.exists_of_mapM hread
        (List.mem_range.mpr (Nat.sub_one_lt hthreads.ne'))
      have hlt := (List.getElem?_eq_some_iff.mp hy).1
      rw [Nat.sub_add_cancel hthreads, Distribution.border_size] at hlt
      omega

lemma right_iff_of_faces (hr : r < M.size) :
    M.DomainsSurfaceRight r (SurfaceStore.ofFaces false (M.part r).threads
      (fun t => (M.collected r G t).flatten)
      (offsets ((List.range (M.ndomains r)).map fun d => (G d).length))) ↔
      ∀ d < M.ndomains r, ((G d).map SurfaceFace.nodes).Perm (M.outerFaces r d) := by
  set sizes := (List.range (M.ndomains r)).map fun d => (G d).length with hsizes
  set blocks := (List.range (M.ndomains r)).map fun d => (G d).map SurfaceFace.nodes with hblocks
  have hlength : sizes.length = M.ndomains r := by rw [hsizes, List.length_map, List.length_range]
  have hlengths : blocks.map List.length = sizes := by
    rw [hblocks, hsizes, List.map_map]
    exact List.map_congr_left fun d _ => List.length_map _
  have hfaces : ((List.range (M.part r).threads).flatMap fun t => (M.collected r G t).flatten)
      = (List.range (M.ndomains r)).flatMap G := by
    have hflat := congrArg List.flatten (flatMap_collected (M := M) (r := r) (G := G))
    rw [List.flatten_eq_flatMap, List.flatMap_assoc, ← List.flatMap_def] at hflat
    simpa only [← List.flatten_eq_flatMap, id_eq] using hflat
  have hnodes : ((List.range (M.ndomains r)).flatMap G).map SurfaceFace.nodes = blocks.flatten := by
    rw [List.map_flatMap, List.flatMap_def]
  have hrows : blocks.flatten.length = sizes.sum := by rw [List.length_flatten, hlengths]
  have hlast : (offsets sizes)[M.ndomains r]? = some sizes.sum := by
    rw [getElem?_offsets _ hlength.ge, List.take_of_length_le hlength.le]
  have helements : (SurfaceStore.ofFaces false (M.part r).threads
      (fun t => (M.collected r G t).flatten) (offsets sizes)).elements
      = Serialized.ofRows blocks.flatten := by
    rw [SurfaceStore.elements_ofFaces (M.threads_pos r hr), hfaces, hnodes]
    · intro t ht face hface
      rw [collected_eq ht, ← List.flatMap_def] at hface
      obtain ⟨d, hd, hface⟩ := List.mem_flatMap.mp hface
      have hrange := List.mem_range'_1.mp hd
      have hborder : (M.domainDistribution r).border (t + 1) ≤ M.ndomains r :=
        (M.domainDistribution r).border_le_total (Nat.succ_le_of_lt ht)
      exact readDomain_nodes (hG d (by omega)) face hface
    · rw [hfaces, ← List.length_map SurfaceFace.nodes, hnodes, hrows, List.getLastD_eq_getLast?,
        List.getLast?_eq_getElem?, length_offsets, Nat.add_sub_cancel, hlength, hlast,
        Option.getD_some]
  have hblock : ∀ d < M.ndomains r, ∃ a b, (offsets sizes)[d]? = some a ∧
      (offsets sizes)[d + 1]? = some b ∧
      (List.range' a (b - a)).map (Serialized.ofRows blocks.flatten).row
        = (G d).map SurfaceFace.nodes := by
    intro d hd
    have hlt : d < blocks.length := by rwa [hblocks, List.length_map, List.length_range]
    refine ⟨_, _, getElem?_offsets _ (by omega), getElem?_offsets _ (by omega), ?_⟩
    rw [Serialized.map_row_ofRows, ← hlengths, Serialized.window_blocks hlt]
    · simp [hblocks]
    · rw [hrows]
      exact (List.take_sublist _ _).sum_le_sum fun _ _ => Nat.zero_le _
  constructor
  · intro hright d hd
    obtain ⟨a, b, ha, hb, hperm⟩ := hright.faces d hd
    obtain ⟨a', b', ha', hb', hrow⟩ := hblock d hd
    rw [SurfaceStore.edistribution_ofFaces] at ha hb
    rw [ha] at ha'
    rw [hb] at hb'
    obtain rfl := Option.some.inj ha'
    obtain rfl := Option.some.inj hb'
    rwa [helements, hrow] at hperm
  · intro h
    refine ⟨?_, ?_, ?_, fun d hd => ?_⟩
    · rw [SurfaceStore.edistribution_ofFaces, length_offsets, hlength]
    · rw [SurfaceStore.edistribution_ofFaces, getElem?_offsets _ (Nat.zero_le _)]
      rfl
    · rw [SurfaceStore.edistribution_ofFaces, helements, Serialized.structures_ofRows, hrows, hlast]
    · obtain ⟨a, b, ha, hb, hrow⟩ := hblock d hd
      rw [SurfaceStore.edistribution_ofFaces, helements]
      exact ⟨a, b, ha, hb, hrow ▸ h d hd⟩

end Faces

lemma exists_readDomain (hr : r < M.size) {S : SurfaceStore}
    (h : M.computeDomainsSurface r = some S) {d : ℕ} (hd : d < M.ndomains r) :
    ∃ faces, M.readDomain r d = some faces := by
  rw [computeDomainsSurface, M.rank_eq r hr, ElementMesh.boundaries_getD hr.le] at h
  obtain ⟨faces, hfaces, -⟩ := Option.bind_eq_some_iff.mp h
  obtain ⟨ht, hlow, hhigh⟩ := threadOf_spec hd
  obtain ⟨domains, hdomains⟩ := Fallible.exists_of_mapM hfaces (List.mem_range.mpr ht)
  rw [threadFaces_eq ht] at hdomains
  exact Fallible.exists_of_mapM hdomains (List.mem_range'_1.mpr ⟨hlow, by omega⟩)

end Rank

end DomainMesh

/-! ## Fewer domains than threads -/

namespace TriangleStrip

def elements : List (ElementCode × List ℕ) :=
  [(.TRIANGLE3, [0, 1, 2]), (.TRIANGLE3, [1, 3, 2]), (.TRIANGLE3, [2, 3, 4])]

def neighbors : List (List ℤ) := [[-1, 1, -1], [-1, 2, 0], [1, -1, -1]]

lemma threads_pos : 0 < 3 := by decide

lemma nonempty : 0 < elements.length := by decide

lemma valid : ∀ e ∈ elements, ((eclass e.1).type = .PLANE ∨ (eclass e.1).type = .VOLUME) ∧
    e.2.length = (eclass e.1).nodes ∧ ∀ n ∈ e.2, n < 5 := by decide

lemma neighbors_length : neighbors.length = elements.length := rfl

lemma neighbors_valid : ∀ i < elements.length, (neighbors.getD i []).length
      = (eclass ((elements.map Prod.fst).getD i .POINT1)).faces.length ∧
    ∀ v ∈ neighbors.getD i [], v = -1 ∨ ∃ e < elements.length, v = e ∧
      ∃ n ∈ (elements.map Prod.snd).getD i [], n ∈ (elements.map Prod.snd).getD e [] := by
  decide

lemma regions_valid : ∀ region ∈ [[0, 1, 2]], ∀ e ∈ region, e < elements.length := by decide

/-- The triangles on one rank with three threads, which have one triangle each. -/
def strip : OneRank where
  threads := 3
  nnodes := 5
  elements := elements
  neighbors := neighbors
  regions := [[0, 1, 2]]
  threads_pos := threads_pos
  nonempty := nonempty
  valid := valid
  neighbors_length := neighbors_length
  neighbors_valid := neighbors_valid
  regions_valid := regions_valid

lemma domains_sorted : [0, 1, 2, 2].Pairwise (· ≤ ·) := by decide

lemma elements_sorted : [0, 2, 3].Pairwise (· ≤ ·) := by decide

lemma length_domains : [0, 1, 2, 2].length = 3 + 1 := rfl

lemma length_elements : [0, 2, 3].length = 2 + 1 := rfl

lemma first_domain : [0, 1, 2, 2][0]? = some 0 := rfl

lemma last_domain : [0, 1, 2, 2][3]? = some 2 := rfl

lemma first_element : [0, 2, 3][0]? = some 0 := rfl

lemma last_element : [0, 2, 3][2]? = some strip.part.IDs.length := rfl

def domainDistribution : Distribution 3 2 where
  borders := [0, 1, 2, 2]
  length_eq := length_domains
  sorted := domains_sorted
  first := first_domain
  last := last_domain

def elementsDistribution : Distribution 2 strip.part.IDs.length where
  borders := [0, 2, 3]
  length_eq := length_elements
  sorted := elements_sorted
  first := first_element
  last := last_element

/-- **Two domains and three threads.** -/
def mesh : DomainMesh := strip.domainMesh domainDistribution elementsDistribution

/-- The second thread reads the second triangle for the third one. -/
def facesRead : ℕ → List SurfaceFace
  | 0 => [⟨[0, 1], .LINE2⟩, ⟨[2, 0], .LINE2⟩, ⟨[1, 3], .LINE2⟩, ⟨[3, 2], .LINE2⟩]
  | _ => [⟨[1, 3], .LINE2⟩, ⟨[2, 1], .LINE2⟩]

lemma readDomain_eq : ∀ d < 2, mesh.readDomain 0 d = some (facesRead d) := by decide

end TriangleStrip

end Espreso
