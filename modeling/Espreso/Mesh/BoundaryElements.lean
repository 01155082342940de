import Espreso.Lib.Chunks
import Espreso.Mesh.RegionsSurface

/-!
# Boundary elements from nodes

`MeshPreprocessing::computeBoundaryElementsFromNodes` builds the faces of a region of nodes. Nodes
are collected for each element; the threads get ranges of elements. A face between two elements is
built for the one with the lower ID if the masks of the elements are different.

* `computeBoundaryElementsFromNodes` — the function of the source. Masks and the halo are read only
  where they are needed, and have to be stored then.
* **`boundaryElements_exact_iff`** — when the boundary of the region is built.
-/

namespace Espreso

/-- What is stored for a region of the boundary. -/
structure BoundaryFaces where
  elements : Serialized ℕ
  epointers : List ElementCode
  dimension : ℤ

namespace ElementPart

section BoundaryElements

variable (P : ElementPart) (epointers : List ElementCode) (neighbors : Serialized ℤ) (rsize : ℕ)
  (regions : Option (List ℤ)) (halo : Option Halo) (ebegin eend : ℕ)

/-- `elements[t]`: the links of some nodes. -/
def linkedElements (nodes : List ℕ) : List (ℕ × ℕ) :=
  nodes.flatMap fun n => (P.links.row n).map fun e => (e.toNat, n)

/-- `elements[0]` from `begin` to `end`: the nodes of own elements. -/
def elementNodes (border : ℕ → ℕ) (nodes : List ℕ) : List (ℕ × ℕ) :=
  let elements := sortWithInplaceMerge ((List.range P.threads).map fun t =>
    P.linkedElements (window nodes (border t) (border (t + 1))))
  window elements (lowerBound (elements.map Prod.fst) ebegin)
    (lowerBound (elements.map Prod.fst) eend)

/-- `tdistribution`, whose inner borders are moved behind the nodes of an element. -/
def tdistribution (elements : List (ℕ × ℕ)) (t : ℕ) : ℕ :=
  let border := (distribute P.threads elements.length).getD t 0
  if 0 < t ∧ t < P.threads then
    Chunks.shift (elements.map Prod.fst) (elements.map Prod.fst).length border
  else border

/-- `addFace` is called for a face of element `e` with neighbour `v`. There is no result if
something is compared that is not stored. -/
def isAdded (e : ℕ) (v : ℤ) : Option Bool :=
  if v = -1 then some true
  else if (e : ℤ) + ebegin < v then do
    let regions ← regions
    if ebegin ≤ v ∧ v < eend then
      pure (regionRow rsize regions e ≠ regionRow rsize regions (v - ebegin).toNat)
    else do
      let halo ← halo
      pure (regionRow rsize regions e
        ≠ regionRow rsize halo.regions (lowerBound (halo.IDs.map Nat.cast) v))
  else some false

/-- What is built for face `face` of element `e`, where `nodes` are the nodes of the element. -/
def builtFace (e : ℕ) (nodes face : List ℕ) (code : ElementCode) (v : ℤ) :
    Option (List SurfaceFace) :=
  let facenodes := P.faceNodes e face
  if (eclass code).nodes ≤ nodes.length ∧ includes nodes facenodes.mergeSort then
    (isAdded rsize regions halo ebegin eend e v).map fun added =>
      if added then [⟨facenodes, code⟩] else []
  else some []

/-- What is built for element `e`, whose nodes in the region are `nodes`. -/
def builtFaces (e : ℕ) (nodes : List ℕ) : Option (List SurfaceFace) :=
  ((((epointer epointers e).faces.zip (epointer epointers e).facepointers).zip
    (neighbors.row e)).mapM fun p => P.builtFace rsize regions halo ebegin eend e
      (sortAndRemoveDuplicity nodes) p.1.1 p.1.2 p.2).map List.flatten

/-- What thread `t` builds. -/
def builtByThread (elements : List (ℕ × ℕ)) (t : ℕ) : Option (List SurfaceFace) :=
  ((Chunks.collect [] (window elements (P.tdistribution elements t)
    (P.tdistribution elements (t + 1)))).mapM fun p =>
      P.builtFaces epointers neighbors rsize regions halo ebegin eend (p.1 - ebegin) p.2).map
        List.flatten

/-- **`MeshPreprocessing::computeBoundaryElementsFromNodes`** on a rank, where thread `t` has the
nodes of the region from `border t` to `border (t + 1)`. -/
def computeBoundaryElementsFromNodes (border : ℕ → ℕ) (nodes : List ℕ) (elementDimension : ℤ) :
    Option BoundaryFaces := do
  let elements := P.elementNodes ebegin eend border nodes
  let faces ← (List.range P.threads).mapM
    (P.builtByThread epointers neighbors rsize regions halo ebegin eend elements)
  pure
    { elements := Serialized.ofThreads (faces.mapIdx fun t faces =>
        Serialized.ofThread t (faces.map SurfaceFace.nodes))
      epointers := faces.flatMap fun faces => faces.map SurfaceFace.code
      dimension := elementDimension }

end BoundaryElements

end ElementPart

/-! ## The borders of the threads -/

namespace ElementPart

section Borders

variable {P : ElementPart} (elements : List (ℕ × ℕ)) {t : ℕ}

lemma tdistribution_zero (hpos : 0 < P.threads) : P.tdistribution elements 0 = 0 := by
  rw [tdistribution, if_neg (fun h => absurd h.1 (lt_irrefl 0)), distribute_getD _ hpos,
    Nat.zero_mul, Nat.zero_min]

lemma tdistribution_threads : P.tdistribution elements P.threads = elements.length := by
  rw [tdistribution, if_neg (fun h => absurd h.2 (lt_irrefl _)), distribute_getD_last]

lemma isStart_tdistribution (ht : t < P.threads) :
    Chunks.IsStart (elements.map Prod.fst) (P.tdistribution elements t) := by
  rcases Nat.eq_zero_or_pos t with rfl | hpos
  · exact Or.inr (Or.inl (tdistribution_zero elements ht))
  · rw [tdistribution, if_pos ⟨hpos, ht⟩]
    exact Chunks.isStart_shift (Nat.le_add_left _ _)

lemma tdistribution_mono (ht : t < P.threads) :
    P.tdistribution elements t ≤ P.tdistribution elements (t + 1) := by
  rcases Nat.eq_zero_or_pos t with rfl | hpos
  · rw [tdistribution_zero elements ht]
    exact Nat.zero_le _
  rcases Nat.eq_or_lt_of_le (Nat.succ_le_of_lt ht) with hlast | hlt
  · have hlength : (elements.map Prod.fst).length = elements.length := List.length_map _
    rw [show t + 1 = P.threads from hlast, tdistribution_threads, tdistribution,
      if_pos ⟨hpos, ht⟩, ← hlength]
    exact Chunks.shift_le_length (distribute_getD_le _ ht.le)
  · rw [tdistribution, tdistribution, if_pos ⟨hpos, ht⟩, if_pos ⟨Nat.succ_pos t, hlt⟩]
    exact Chunks.shift_mono (distribute_getD_mono _ ht)

end Borders

end ElementPart

/-! ## All ranks -/

/-- A mesh with a region of nodes. Masks and the halo may be stored. -/
structure NodeRegionMesh extends HaloMesh where
  conforming : toFaceMesh.Conforming
  nIDs_nodup : ∀ r < size, (part r).nIDs.Nodup
  nodes_nodup : ∀ r < size, ∀ i < (part r).IDs.length, ((part r).nodes.row i).Nodup
  stored_neighbors : ∀ r < size, ∀ N, (part r).neighbors = some N → N = toFaceMesh.neighbors r
  region : List ℕ
  regionNodes : ℕ → List ℕ
  regionDistribution : ∀ r, Distribution (part r).threads (regionNodes r).length
  mem_regionNodes : ∀ r < size, ∀ n, n ∈ regionNodes r ↔
    ∃ x ∈ region, (part r).nIDs[n]? = some x
  storedMasks : ℕ → Option (List ℤ)
  storedMasks_eq : ∀ r < size, ∀ regions, storedMasks r = some regions → regions = masks r
  storedHalo : ℕ → Option Halo
  storedHalo_exact : ∀ r < size, ∀ halo, storedHalo r = some halo → toHaloMesh.HaloExact r halo

namespace NodeRegionMesh

variable (M : NodeRegionMesh)

/-- What rank `r` builds. -/
def boundaryElements (elementDimension : ℤ) (r : ℕ) : Option BoundaryFaces :=
  (M.part r).computeBoundaryElementsFromNodes (M.epointers r) (M.elementsNeighbors r)
    M.regionMaskSize (M.storedMasks r) (M.storedHalo r) (M.boundaries.getD (M.part r).rank 0)
    (M.boundaries.getD ((M.part r).rank + 1) 0) (M.regionDistribution r).border (M.regionNodes r)
    elementDimension

/-- **`MeshPreprocessing::computeBoundaryElementsFromNodes`** on all ranks. -/
def computeBoundaryElementsFromNodes (elementDimension : ℤ) : Option (List BoundaryFaces) :=
  (List.range M.size).mapM (M.boundaryElements elementDimension)

def SameMask (a b : ℕ) : Prop :=
  ∃ r < M.size, ∃ q < M.size, ∃ i j : ℕ, (M.part r).IDs[i]? = some a ∧ (M.part q).IDs[j]? = some b ∧
    regionRow M.regionMaskSize (M.masks r) i = regionRow M.regionMaskSize (M.masks q) j

/-- **A face of the boundary** has all its nodes in the region, and either no neighbour, or it is
between two elements with different masks. -/
structure OnBoundary (F : List ℕ) : Prop where
  face : ∃ a, M.HasFace F a
  nodes : ∀ x ∈ F, x ∈ M.region
  outer : (∀ a b, M.HasFace F a → M.HasFace F b → a = b) ∨
    ∃ a b, a ≠ b ∧ M.HasFace F a ∧ M.HasFace F b ∧ ¬M.SameMask a b

def builtNodes (out : List BoundaryFaces) : List (Finset ℕ) :=
  (List.range M.size).flatMap fun r => ((out[r]?.map fun B => B.elements.rows).getD []).map
    fun nodes => (nodes.map fun n => (M.part r).nIDs.getD n 0).toFinset

/-- **The boundary is built**: each of its faces once, and nothing else. -/
structure Exact (out : List BoundaryFaces) : Prop where
  once : (M.builtNodes out).Nodup
  mem_iff : ∀ F : List ℕ, F.toFinset ∈ M.builtNodes out ↔ M.OnBoundary F

/-- What is compared for elements `a` and `b` is stored on the rank of `a`. -/
def Stored (a b : ℕ) : Prop :=
  ∀ r < M.size, a ∈ (M.part r).IDs →
    (M.storedMasks r).isSome ∧ (b ∉ (M.part r).IDs → (M.storedHalo r).isSome)

/-- **All that is compared is stored**, for each face in the region between two elements. -/
def AllStored : Prop :=
  ∀ F a b, M.HasFace F a → M.HasFace F b → a < b → (∀ x ∈ F, x ∈ M.region) → M.Stored a b

/-- A face of element `a` with entry `v` is added. -/
def Added (a : ℕ) (v : ℤ) : Prop := v = -1 ∨ ∃ b : ℕ, v = b ∧ a < b ∧ ¬M.SameMask a b

/-! ## A face -/

lemma flatMap_ite {α β : Type} {p : α → Prop} [DecidablePred p] (f : α → β) (l : List α) :
    (l.flatMap fun a => if p a then [f a] else []) = (l.filter p).map f := by
  induction l with
  | nil => rfl
  | cons a l ih =>
      rw [List.flatMap_cons, ih]
      by_cases h : p a
      · rw [if_pos h, List.filter_cons_of_pos (by simpa using h)]
        rfl
      · rw [if_neg h, List.filter_cons_of_neg (by simpa using h)]
        rfl

section Rank

variable {M} {r : ℕ} (hr : r < M.size)

include hr

lemma sameMask_iff {q i j : ℕ} (hq : q < M.size) (hi : i < (M.part r).IDs.length)
    (hj : j < (M.part q).IDs.length) : M.SameMask (M.begine r + i) (M.begine q + j) ↔
      regionRow M.regionMaskSize (M.masks r) i = regionRow M.regionMaskSize (M.masks q) j := by
  have hID := (ElementMesh.getElem?_IDs hr).mpr ⟨hi, rfl⟩
  have hID' := (ElementMesh.getElem?_IDs hq).mpr ⟨hj, rfl⟩
  constructor
  · rintro ⟨r', hr', q', hq', i', j', hi', hj', h⟩
    obtain ⟨rfl, rfl⟩ := ElementMesh.position_inj hr hr' hID hi'
    obtain ⟨rfl, rfl⟩ := ElementMesh.position_inj hq hq' hID' hj'
    exact h
  · exact fun h => ⟨r, hr, q, hq, i, j, hID, hID', h⟩

lemma mem_IDs_iff {q j : ℕ} (hq : q < M.size) (hj : j < (M.part q).IDs.length) :
    M.begine q + j ∈ (M.part r).IDs ↔ q = r := by
  constructor
  · intro h
    obtain ⟨k, hk⟩ := List.mem_iff_getElem?.mp h
    exact (ElementMesh.position_inj hr hq hk ((ElementMesh.getElem?_IDs hq).mpr ⟨hj, rfl⟩)).1.symm
  · rintro rfl
    exact List.mem_of_getElem? ((ElementMesh.getElem?_IDs hr).mpr ⟨hj, rfl⟩)

lemma stored_iff {q i j : ℕ} (hq : q < M.size) (hi : i < (M.part r).IDs.length)
    (hj : j < (M.part q).IDs.length) : M.Stored (M.begine r + i) (M.begine q + j) ↔
      (M.storedMasks r).isSome ∧ (q ≠ r → (M.storedHalo r).isSome) := by
  constructor
  · intro h
    have hstored := h r hr ((mem_IDs_iff hr hr hi).mpr rfl)
    rwa [mem_IDs_iff hr hq hj] at hstored
  · rintro h p hp hmem
    obtain rfl := (mem_IDs_iff hp hr hi).mp hmem
    rwa [mem_IDs_iff hr hq hj]

open Classical in
lemma isAdded_eq {i : ℕ} (hi : i < (M.part r).IDs.length) {v : ℤ}
    (hv : v = -1 ∨ ∃ b : ℕ, v = b ∧ ∃ x, ContainsNode M.size M.part x (M.begine r + i) ∧
      ContainsNode M.size M.part x b) :
    ElementPart.isAdded M.regionMaskSize (M.storedMasks r) (M.storedHalo r) (M.begine r)
        (M.begine (r + 1)) i v
      = if ∃ b : ℕ, v = b ∧ M.begine r + i < b ∧ ¬M.Stored (M.begine r + i) b then none
        else some (decide (M.Added (M.begine r + i) v)) := by
  rw [ElementPart.isAdded]
  rcases hv with rfl | ⟨b, rfl, x, hxi, hxb⟩
  · rw [if_pos rfl, if_neg (by rintro ⟨b, hb, -⟩; omega)]
    simp [Added]
  have hne : ¬((b : ℤ) = -1) := by omega
  have hstored : (∃ c : ℕ, (b : ℤ) = c ∧ M.begine r + i < c ∧ ¬M.Stored (M.begine r + i) c) ↔
      M.begine r + i < b ∧ ¬M.Stored (M.begine r + i) b :=
    ⟨fun ⟨c, hc, h⟩ => by rwa [Int.ofNat_inj.mp hc], fun h => ⟨b, rfl, h⟩⟩
  have hadded : M.Added (M.begine r + i) b ↔
      M.begine r + i < b ∧ ¬M.SameMask (M.begine r + i) b := by
    refine ⟨fun h => ?_, fun h => Or.inr ⟨b, rfl, h⟩⟩
    obtain ⟨c, hc, h⟩ := h.resolve_left hne
    rwa [Int.ofNat_inj.mp hc]
  obtain ⟨q, hq, j, n, hID, hn, hx⟩ := hxb
  obtain ⟨hj, rfl⟩ := (ElementMesh.getElem?_IDs hq).mp hID
  rw [if_neg hne]
  simp only [hstored, hadded]
  by_cases hless : M.begine r + i < M.begine q + j
  · have hless' : (i : ℤ) + M.begine r < (M.begine q + j : ℕ) := by omega
    have hown : ((M.begine r : ℤ) ≤ (M.begine q + j : ℕ) ∧
        ((M.begine q + j : ℕ) : ℤ) < M.begine (r + 1)) ↔ q = r := by
      rw [← ElementMesh.own_iff hr hq hj]
      omega
    simp only [hless, true_and, stored_iff hr hq hi hj, sameMask_iff hr hq hi hj, if_pos hless']
    rcases hmasks : M.storedMasks r with _ | regions
    · simp
    · obtain rfl := M.storedMasks_eq r hr regions hmasks
      rw [Option.bind_eq_bind, Option.bind_some, Option.isSome_some]
      by_cases hqr : q = r
      · subst hqr
        rw [if_pos (hown.mpr rfl), Option.pure_def,
          show (((M.begine q + j : ℕ) : ℤ) - M.begine q).toNat = j by omega]
        simp
      · rw [if_neg (mt hown.mp hqr)]
        rcases hhalo : M.storedHalo r with _ | halo
        · simp [hqr]
        · have hin := HaloMesh.inHalo_of_shared hr hq hqr hi hj hxi ⟨q, hq, j, n, hID, hn, hx⟩
          have hrow := (M.storedHalo_exact r hr halo hhalo).row hq hID hin
          rw [Option.bind_eq_bind, Option.bind_some, Option.pure_def, if_neg (by simp)]
          refine congrArg some (decide_eq_decide.mpr (not_congr ?_))
          rw [regionRow, regionRow, regionRow, hrow]
  · have hless' : ¬((i : ℤ) + M.begine r < (M.begine q + j : ℕ)) := by omega
    rw [if_neg hless', if_neg (fun h => hless h.1)]
    simp [hless]

def InRegion (M : NodeRegionMesh) (r i : ℕ) (face : List ℕ) : Prop :=
  ∀ n ∈ (M.part r).faceNodes i face, n ∈ M.regionNodes r

lemma faceNodes_nodup {i : ℕ} (hi : i < (M.part r).IDs.length) {face : List ℕ}
    (hface : face ∈ M.faces r i) : ((M.part r).faceNodes i face).Nodup := by
  obtain ⟨hlength, -⟩ := M.element_nodes r hr i hi
  refine ((ElementCode.faces_nodup _).2 face hface).map_on fun m hm n hn heq => ?_
  have hlt (k : ℕ) (hk : k ∈ face) : k < ((M.part r).nodes.row i).length := by
    rw [hlength]
    exact (ElementCode.face_valid _ hface).2 k hk
  rw [List.getD_eq_getElem _ _ (hlt m hm), List.getD_eq_getElem _ _ (hlt n hn)] at heq
  exact (M.nodes_nodup r hr i hi).getElem_inj_iff.mp heq

lemma includes_faceNodes {i : ℕ} (hi : i < (M.part r).IDs.length) {nodes : List ℕ}
    (hsorted : nodes.Pairwise (· < ·))
    (hnodes : ∀ n, n ∈ nodes ↔ n ∈ M.regionNodes r ∧ n ∈ (M.part r).nodes.row i) {face : List ℕ}
    {code : ElementCode} (hface : (face, code) ∈ (M.faces r i).zip
      (ElementPart.epointer (M.epointers r) i).facepointers) :
    ((eclass code).nodes ≤ nodes.length ∧
      includes nodes ((M.part r).faceNodes i face).mergeSort) ↔ M.InRegion r i face := by
  have hmem := (List.of_mem_zip hface).1
  have hnodup := faceNodes_nodup hr hi hmem
  have hface' : (((M.part r).faceNodes i face).mergeSort).Pairwise (· < ·) :=
    ((List.pairwise_mergeSort' (· ≤ ·) _).and ((List.mergeSort_perm _ _).nodup_iff.mpr hnodup)).imp
      fun h => lt_of_le_of_ne h.1 h.2
  have hiff : includes nodes ((M.part r).faceNodes i face).mergeSort ↔ M.InRegion r i face := by
    rw [includes_iff hsorted hface']
    simp only [List.mem_mergeSort, hnodes]
    exact forall₂_congr fun n hn =>
      and_iff_left (FaceMesh.faceNodes_lt (M := M.toFaceMesh) hr hi hmem hn).1
  rw [hiff, and_iff_right_iff_imp]
  intro hregion
  have hlength : ((M.part r).faceNodes i face).length = face.length := List.length_map _
  rw [← ElementCode.length_of_mem_zip _ hface, ← hlength]
  refine (List.Nodup.subperm hnodup fun n hn => (hnodes n).mpr ⟨hregion n hn, ?_⟩).length_le
  exact (FaceMesh.faceNodes_lt (M := M.toFaceMesh) hr hi hmem hn).1

lemma elementsNeighbors_row {i : ℕ} (hi : i < (M.part r).IDs.length) :
    (M.elementsNeighbors r).row i = (M.faces r i).map ((M.part r).faceNeighbor i) := by
  rw [FaceMesh.elementsNeighbors]
  rcases hstored : (M.part r).neighbors with _ | N
  · exact FaceMesh.neighbors_row hr hi
  · rw [Option.getD_some, M.stored_neighbors r hr N hstored]
    exact FaceMesh.neighbors_row hr hi

def entries (M : NodeRegionMesh) (r i : ℕ) : List ((List ℕ × ElementCode) × ℤ) :=
  ((M.faces r i).zip (ElementPart.epointer (M.epointers r) i).facepointers).zip
    ((M.elementsNeighbors r).row i)

def EntriesStored (M : NodeRegionMesh) (r i : ℕ) : Prop :=
  ∀ p ∈ M.entries r i, M.InRegion r i p.1.1 →
    ¬∃ b : ℕ, p.2 = b ∧ M.begine r + i < b ∧ ¬M.Stored (M.begine r + i) b

open Classical in
noncomputable def selected (M : NodeRegionMesh) (r i : ℕ) : List SurfaceFace :=
  ((M.entries r i).filter fun p => M.InRegion r i p.1.1 ∧ M.Added (M.begine r + i) p.2).map
    fun p => ⟨(M.part r).faceNodes i p.1.1, p.1.2⟩

open Classical in
lemma builtFaces_eq {i : ℕ} (hi : i < (M.part r).IDs.length) {nodes : List ℕ}
    (hnodes : ∀ n, n ∈ nodes ↔ n ∈ M.regionNodes r ∧ n ∈ (M.part r).nodes.row i) :
    (M.part r).builtFaces (M.epointers r) (M.elementsNeighbors r) M.regionMaskSize (M.storedMasks r)
        (M.storedHalo r) (M.begine r) (M.begine (r + 1)) i nodes
      = if M.EntriesStored r i then some (M.selected r i) else none := by
  have hface : ∀ p ∈ M.entries r i, (M.part r).builtFace M.regionMaskSize (M.storedMasks r)
      (M.storedHalo r) (M.begine r) (M.begine (r + 1)) i (sortAndRemoveDuplicity nodes)
      p.1.1 p.1.2 p.2 = if M.InRegion r i p.1.1 ∧
          ∃ b : ℕ, p.2 = b ∧ M.begine r + i < b ∧ ¬M.Stored (M.begine r + i) b then none
        else some (if M.InRegion r i p.1.1 ∧ M.Added (M.begine r + i) p.2 then
          [⟨(M.part r).faceNodes i p.1.1, p.1.2⟩] else []) := by
    rintro ⟨⟨face, code⟩, v⟩ hp
    obtain ⟨hpair, hv⟩ := List.of_mem_zip hp
    have htest := includes_faceNodes hr hi (sortAndRemoveDuplicity_sorted nodes)
      (fun n => mem_sortAndRemoveDuplicity.trans (hnodes n)) hpair
    have hadded := isAdded_eq hr hi (FaceMesh.elementsNeighbors_cases (M := M.toFaceMesh) hr hi hv)
    rw [ElementPart.builtFace]
    simp only [htest, hadded]
    by_cases hregion : M.InRegion r i face
    · simp only [hregion, true_and, if_true]
      split_ifs <;> simp_all
    · simp only [hregion, false_and, if_false]
  rw [ElementPart.builtFaces]
  change Option.map List.flatten ((M.entries r i).mapM _) = _
  split_ifs with hstored
  · rw [Fallible.mapM_eq_some (g := fun p : (List ℕ × ElementCode) × ℤ =>
      if M.InRegion r i p.1.1 ∧ M.Added (M.begine r + i) p.2 then
        [(⟨(M.part r).faceNodes i p.1.1, p.1.2⟩ : SurfaceFace)] else [])
      fun p hp => (hface p hp).trans (if_neg fun h => hstored p hp h.1 h.2)]
    rw [Option.map_some, ← List.flatMap_def, flatMap_ite]
    rfl
  · rw [EntriesStored] at hstored
    push Not at hstored
    obtain ⟨p, hp, hregion, hnot⟩ := hstored
    rw [Option.map_eq_none_iff, Option.eq_none_iff_forall_ne_some]
    intro faces hfaces
    obtain ⟨built, hbuilt⟩ := Fallible.exists_of_mapM hfaces hp
    have hnone := (hface p hp).trans (if_pos ⟨hregion, hnot⟩)
    exact absurd (hbuilt.symm.trans hnone) (Option.some_ne_none _)

/-! ## The elements of a rank -/

lemma contains_own {i n x : ℕ} (hi : i < (M.part r).IDs.length)
    (hx : (M.part r).nIDs[n]? = some x) :
    ContainsNode M.size M.part x (M.begine r + i) ↔ n ∈ (M.part r).nodes.row i := by
  have hID := (ElementMesh.getElem?_IDs hr).mpr ⟨hi, rfl⟩
  constructor
  · rintro ⟨q, hq, j, m, hj, hm, hx'⟩
    obtain ⟨rfl, rfl⟩ := ElementMesh.position_inj hr hq hID hj
    have hlt := (List.getElem?_eq_some_iff.mp hx).1
    rwa [(List.getElem?_inj hlt (M.nIDs_nodup r hr)).mp (hx.trans hx'.symm)]
  · exact fun h => ⟨r, hr, i, n, hID, h, hx⟩

def pairs (M : NodeRegionMesh) (r : ℕ) : List (ℕ × ℕ) :=
  (M.part r).elementNodes (M.begine r) (M.begine (r + 1)) (M.regionDistribution r).border
    (M.regionNodes r)

lemma pairs_eq : ∃ elements, PairsSorted elements ∧
    elements.Perm ((M.part r).linkedElements (M.regionNodes r)) ∧
    M.pairs r = elements.filter fun p => M.begine r ≤ p.1 ∧ p.1 < M.begine (r + 1) := by
  refine ⟨_, sortWithInplaceMerge_sorted ((List.range (M.part r).threads).map fun t =>
    (M.part r).linkedElements (window (M.regionNodes r) ((M.regionDistribution r).border t)
      ((M.regionDistribution r).border (t + 1)))), ?_, ?_⟩
  · refine (sortWithInplaceMerge_perm _).trans (List.Perm.of_eq ?_)
    have hsplit := flatMap_window (M.regionDistribution r) (M.regionNodes r) (M.part r).threads
      le_rfl
    rw [Distribution.border_size, window, List.drop_zero, Nat.sub_zero, List.take_length] at hsplit
    rw [← List.flatMap_def]
    simp only [ElementPart.linkedElements]
    rw [← List.flatMap_assoc, hsplit]
  · refine window_lowerBound_map (List.pairwise_map.mpr ?_) (ElementMesh.begine_mono
      (Nat.le_succ r) hr)
    exact (sortWithInplaceMerge_sorted _).imp fun h =>
      (pairLe_iff.mp h).elim le_of_lt fun h => h.1.le

lemma pairs_sorted : ((M.pairs r).map Prod.fst).Pairwise (· ≤ ·) := by
  obtain ⟨elements, hsorted, -, heq⟩ := pairs_eq hr
  rw [heq, List.pairwise_map]
  exact (hsorted.sublist List.filter_sublist).imp fun h =>
    (pairLe_iff.mp h).elim le_of_lt fun h => h.1.le

lemma mem_pairs {e n : ℕ} : (e, n) ∈ M.pairs r ↔ ∃ i < (M.part r).IDs.length,
    e = M.begine r + i ∧ n ∈ M.regionNodes r ∧ n ∈ (M.part r).nodes.row i := by
  obtain ⟨elements, -, hperm, heq⟩ := pairs_eq hr
  have hsucc := ElementMesh.begine_succ (M := M.toElementMesh) r
  rw [heq, List.mem_filter, decide_eq_true_eq, hperm.mem_iff, ElementPart.linkedElements]
  simp only [List.mem_flatMap, List.mem_map, Prod.mk.injEq]
  constructor
  · rintro ⟨⟨m, hm, v, hv, rfl, rfl⟩, hlow, hhigh⟩
    obtain ⟨x, -, hx⟩ := (M.mem_regionNodes r hr m).mp hm
    obtain ⟨a, rfl, ha⟩ := ((M.links_exact r hr m x hx).2 v).mp hv
    rw [Int.toNat_natCast] at hlow hhigh ⊢
    obtain ⟨i, rfl⟩ := Nat.exists_eq_add_of_le hlow
    exact ⟨i, by omega, rfl, hm, (contains_own hr (by omega) hx).mp ha⟩
  · rintro ⟨i, hi, rfl, hn, hrow⟩
    obtain ⟨x, -, hx⟩ := (M.mem_regionNodes r hr n).mp hn
    exact ⟨⟨n, hn, (M.begine r + i : ℕ), ((M.links_exact r hr n x hx).2 _).mpr
      ⟨_, rfl, (contains_own hr hi hx).mpr hrow⟩, Int.toNat_natCast _, rfl⟩, by omega, by omega⟩

/-- The elements of thread `t` with their nodes. -/
def chunks (M : NodeRegionMesh) (r t : ℕ) : List (ℕ × List ℕ) :=
  Chunks.collect [] (window (M.pairs r) ((M.part r).tdistribution (M.pairs r) t)
    ((M.part r).tdistribution (M.pairs r) (t + 1)))

lemma flatMap_chunks : (List.range (M.part r).threads).flatMap (M.chunks r)
    = ((M.pairs r).map Prod.fst).dedup.map fun e => (e, Chunks.valuesOf (M.pairs r) e) := by
  have hparts := Chunks.flatMap_collect (l := M.pairs r)
    (ElementPart.tdistribution_zero (M.pairs r) (M.threads_pos r hr))
    (fun t ht => ElementPart.tdistribution_mono (M.pairs r) ht)
    (fun t ht => ElementPart.isStart_tdistribution (M.pairs r) ht)
  rw [ElementPart.tdistribution_threads, List.take_length, Chunks.collect_eq (pairs_sorted hr)]
    at hparts
  exact hparts

lemma exists_node_of_inRegion {i : ℕ} (hi : i < (M.part r).IDs.length)
    {p : (List ℕ × ElementCode) × ℤ} (hp : p ∈ M.entries r i) (h : M.InRegion r i p.1.1) :
    ∃ n ∈ M.regionNodes r, n ∈ (M.part r).nodes.row i := by
  have hface := (List.of_mem_zip (List.of_mem_zip hp).1).1
  obtain ⟨k, hk⟩ := List.exists_mem_of_ne_nil _ (ElementCode.face_valid _ hface).1
  have hn : ((M.part r).nodes.row i).getD k 0 ∈ (M.part r).faceNodes i p.1.1 :=
    List.mem_map_of_mem hk
  exact ⟨_, h _ hn, (FaceMesh.faceNodes_lt (M := M.toFaceMesh) hr hi hface hn).1⟩

lemma dedup_keys : ((M.pairs r).map Prod.fst).dedup = ((List.range (M.part r).IDs.length).filter
    fun i => ∃ n ∈ M.regionNodes r, n ∈ (M.part r).nodes.row i).map (M.begine r + ·) := by
  refine List.Pairwise.eq_of_mem_iff (r := (· < ·)) ?_ ?_ fun e => ?_
  · exact (((pairs_sorted hr).sublist (List.dedup_sublist _)).and (List.nodup_dedup _)).imp
      fun h => lt_of_le_of_ne h.1 h.2
  · exact List.pairwise_map.mpr ((List.pairwise_lt_range.filter _).imp fun h =>
      Nat.add_lt_add_left h _)
  · simp only [List.mem_dedup, List.mem_map, Prod.exists, exists_and_right, exists_eq_right,
      mem_pairs hr, List.mem_filter, List.mem_range, decide_eq_true_eq]
    constructor
    · rintro ⟨n, i, hi, rfl, hn⟩
      exact ⟨i, ⟨hi, n, hn⟩, rfl⟩
    · rintro ⟨i, ⟨hi, n, hn⟩, rfl⟩
      exact ⟨n, i, hi, rfl, hn⟩

lemma mem_valuesOf_pairs {i n : ℕ} (hi : i < (M.part r).IDs.length) :
    n ∈ Chunks.valuesOf (M.pairs r) (M.begine r + i) ↔
      n ∈ M.regionNodes r ∧ n ∈ (M.part r).nodes.row i := by
  rw [Chunks.mem_valuesOf, mem_pairs hr]
  constructor
  · rintro ⟨j, -, heq, hn⟩
    obtain rfl : i = j := by omega
    exact hn
  · exact fun hn => ⟨i, hi, rfl, hn⟩

lemma flatMap_selected : (((M.pairs r).map Prod.fst).dedup.flatMap fun e =>
    M.selected r (e - M.begine r)) = (List.range (M.part r).IDs.length).flatMap (M.selected r) := by
  have hnil (i : ℕ) (hi : i < (M.part r).IDs.length)
      (h : ¬∃ n ∈ M.regionNodes r, n ∈ (M.part r).nodes.row i) : M.selected r i = [] := by
    rw [selected, List.map_eq_nil_iff, List.filter_eq_nil_iff]
    intro p hp hselected
    simp only [decide_eq_true_eq] at hselected
    exact h (exists_node_of_inRegion hr hi hp hselected.1)
  rw [dedup_keys hr, List.flatMap_map]
  simp only [Nat.add_sub_cancel_left]
  have hall : ∀ l : List ℕ, (∀ i ∈ l, i < (M.part r).IDs.length) →
      ((l.filter fun i => ∃ n ∈ M.regionNodes r, n ∈ (M.part r).nodes.row i).flatMap
        (M.selected r)) = l.flatMap (M.selected r) := by
    intro l hl
    induction l with
    | nil => rfl
    | cons i l ih =>
        obtain ⟨hi, hl⟩ := List.forall_mem_cons.mp hl
        by_cases h : ∃ n ∈ M.regionNodes r, n ∈ (M.part r).nodes.row i
        · rw [List.filter_cons_of_pos (by simpa using h), List.flatMap_cons, List.flatMap_cons,
            ih hl]
        · rw [List.filter_cons_of_neg (by simpa using h), List.flatMap_cons, hnil i hi h, ih hl]
          rfl
  exact hall _ fun i hi => List.mem_range.mp hi

/-- What thread `t` builds. -/
def builtByThread (M : NodeRegionMesh) (r t : ℕ) : Option (List SurfaceFace) :=
  (M.part r).builtByThread (M.epointers r) (M.elementsNeighbors r) M.regionMaskSize
    (M.storedMasks r) (M.storedHalo r) (M.begine r) (M.begine (r + 1)) (M.pairs r) t

open Classical in
lemma builtFaces_chunk {t : ℕ} (ht : t < (M.part r).threads) {p : ℕ × List ℕ}
    (hp : p ∈ M.chunks r t) : p.1 - M.begine r < (M.part r).IDs.length ∧
      (M.part r).builtFaces (M.epointers r) (M.elementsNeighbors r) M.regionMaskSize
        (M.storedMasks r) (M.storedHalo r) (M.begine r) (M.begine (r + 1)) (p.1 - M.begine r) p.2
        = if M.EntriesStored r (p.1 - M.begine r) then some (M.selected r (p.1 - M.begine r))
          else none := by
  have hmem := List.mem_flatMap.mpr ⟨t, List.mem_range.mpr ht, hp⟩
  rw [flatMap_chunks hr, dedup_keys hr, List.map_map, List.mem_map] at hmem
  obtain ⟨i, hi, rfl⟩ := hmem
  have hlt := List.mem_range.mp (List.mem_filter.mp hi).1
  simp only [Function.comp_apply, Nat.add_sub_cancel_left]
  exact ⟨hlt, builtFaces_eq hr hlt fun n => mem_valuesOf_pairs hr hlt⟩

lemma entriesStored_of_builtByThread {t : ℕ} (ht : t < (M.part r).threads)
    {faces : List SurfaceFace}
    (h : M.builtByThread r t = some faces) {p : ℕ × List ℕ} (hp : p ∈ M.chunks r t) :
    M.EntriesStored r (p.1 - M.begine r) := by
  classical
  obtain ⟨parts, hparts, -⟩ := Option.map_eq_some_iff.mp h
  obtain ⟨built, hsome⟩ := Fallible.exists_of_mapM hparts hp
  rw [(builtFaces_chunk hr ht hp).2] at hsome
  exact (Option.ite_none_right_eq_some.mp hsome).1

lemma builtByThread_eq (h : ∀ i < (M.part r).IDs.length, M.EntriesStored r i) {t : ℕ}
    (ht : t < (M.part r).threads) : M.builtByThread r t
      = some ((M.chunks r t).flatMap fun p => M.selected r (p.1 - M.begine r)) := by
  classical
  have hall := Fallible.mapM_eq_some fun p (hp : p ∈ M.chunks r t) =>
    (builtFaces_chunk hr ht hp).2.trans (if_pos (h _ (builtFaces_chunk hr ht hp).1))
  rw [builtByThread, ElementPart.builtByThread]
  change Option.map List.flatten ((M.chunks r t).mapM _) = _
  rw [hall, Option.map_some, List.flatMap_def]

open Classical in
lemma boundaryElements_eq (elementDimension : ℤ) : M.boundaryElements elementDimension r
    = if ∀ i < (M.part r).IDs.length, M.EntriesStored r i then some
        { elements := Serialized.ofRows
            (((List.range (M.part r).IDs.length).flatMap (M.selected r)).map SurfaceFace.nodes)
          epointers :=
            ((List.range (M.part r).IDs.length).flatMap (M.selected r)).map SurfaceFace.code
          dimension := elementDimension }
      else none := by
  rw [boundaryElements, M.rank_eq r hr, ElementMesh.boundaries_getD hr.le,
    ElementMesh.boundaries_getD hr]
  change ((List.range (M.part r).threads).mapM (M.builtByThread r)).bind _ = _
  split_ifs with hstored
  · have hfaces : (List.range (M.part r).threads).flatMap (fun t => (M.chunks r t).flatMap fun p =>
        M.selected r (p.1 - M.begine r))
        = (List.range (M.part r).IDs.length).flatMap (M.selected r) := by
      rw [← List.flatMap_assoc, flatMap_chunks hr, List.flatMap_map, flatMap_selected hr]
    have hrows : ((List.range (M.part r).threads).map fun t => (M.chunks r t).flatMap fun p =>
        M.selected r (p.1 - M.begine r)).mapIdx (fun t faces =>
          Serialized.ofThread t (faces.map SurfaceFace.nodes))
        = (List.range (M.part r).threads).map fun t => Serialized.ofThread t
          (((M.chunks r t).flatMap fun p => M.selected r (p.1 - M.begine r)).map
            SurfaceFace.nodes) := by
      refine List.ext_getElem (by simp) fun t ht ht' => ?_
      simp
    rw [Fallible.mapM_eq_some fun t ht => builtByThread_eq hr hstored (List.mem_range.mp ht),
      Option.bind_some, hrows, Serialized.ofThreads_ofThread (M.threads_pos r hr),
      List.flatMap_map, ← hfaces, List.map_flatMap, List.map_flatMap]
    rfl
  · push Not at hstored
    obtain ⟨i, hi, hnot⟩ := hstored
    rw [Option.bind_eq_none_iff]
    intro parts hparts
    -- a face is compared, so the element has a node in the region
    have hchunk : (M.begine r + i, Chunks.valuesOf (M.pairs r) (M.begine r + i)) ∈
        (List.range (M.part r).threads).flatMap (M.chunks r) := by
      rw [EntriesStored] at hnot
      push Not at hnot
      obtain ⟨p, hp, hregion, -⟩ := hnot
      rw [flatMap_chunks hr, dedup_keys hr, List.map_map]
      refine List.mem_map_of_mem (f := (fun e => (e, Chunks.valuesOf (M.pairs r) e)) ∘ _)
        (List.mem_filter.mpr ⟨List.mem_range.mpr hi, decide_eq_true ?_⟩)
      exact exists_node_of_inRegion hr hi hp hregion
    obtain ⟨t, ht, hp⟩ := List.mem_flatMap.mp hchunk
    obtain ⟨faces, hfaces⟩ := Fallible.exists_of_mapM hparts ht
    have hstored := entriesStored_of_builtByThread hr (List.mem_range.mp ht) hfaces hp
    rw [Nat.add_sub_cancel_left] at hstored
    exact absurd hstored hnot

/-! ## Entries and faces -/

lemma inRegion_iff {i : ℕ} (hi : i < (M.part r).IDs.length) {face : List ℕ}
    (hface : face ∈ M.faces r i) :
    M.InRegion r i face ↔ ∀ x ∈ M.faceIDs r i face, x ∈ M.region := by
  rw [FaceMesh.faceIDs, List.forall_mem_map, InRegion]
  refine forall₂_congr fun n hn => ?_
  have hlt := (FaceMesh.faceNodes_lt (M := M.toFaceMesh) hr hi hface hn).2
  rw [M.mem_regionNodes r hr, List.getD_eq_getElem _ _ hlt]
  constructor
  · rintro ⟨x, hx, hget⟩
    rw [List.getElem?_eq_getElem hlt] at hget
    rwa [Option.some.inj hget]
  · exact fun hx => ⟨_, hx, List.getElem?_eq_getElem hlt⟩

lemma map_entries {i : ℕ} (hi : i < (M.part r).IDs.length) :
    (M.entries r i).map (fun p => p.1.1) = M.faces r i := by
  have hpairs : (M.entries r i).map Prod.fst
      = (M.faces r i).zip (ElementPart.epointer (M.epointers r) i).facepointers := by
    refine List.map_fst_zip ?_
    rw [elementsNeighbors_row hr hi, List.length_map, List.length_zip]
    exact min_le_left _ _
  change (M.entries r i).map (Prod.fst ∘ Prod.fst) = _
  rw [← List.map_map, hpairs]
  exact List.map_fst_zip (ElementCode.length_facepointers _).ge

lemma entry_opposite {i : ℕ} (hi : i < (M.part r).IDs.length)
    {p : (List ℕ × ElementCode) × ℤ} (hp : p ∈ M.entries r i) : p.1.1 ∈ M.faces r i ∧
      M.Opposite (M.faceIDs r i p.1.1) (M.begine r + i) p.2 := by
  have hface : p.1.1 ∈ M.faces r i := map_entries hr hi ▸ List.mem_map_of_mem hp
  refine ⟨hface, ?_⟩
  obtain ⟨k, hk⟩ := List.mem_iff_getElem?.mp hp
  obtain ⟨hpair, hv⟩ := List.getElem?_zip_eq_some.mp hk
  have hget := (List.getElem?_zip_eq_some.mp hpair).1
  rw [elementsNeighbors_row hr hi, List.getElem?_map, hget, Option.map_some] at hv
  rw [← Option.some.inj hv]
  exact FaceMesh.faceNeighbor_opposite M.conforming hr
    ((ElementMesh.getElem?_IDs hr).mpr ⟨hi, rfl⟩) hface

end Rank

lemma exists_entry {F : List ℕ} {a : ℕ} (h : M.HasFace F a) : ∃ r < M.size,
    ∃ i < (M.part r).IDs.length, a = M.begine r + i ∧ ∃ p ∈ M.entries r i,
      ∀ x, x ∈ M.faceIDs r i p.1.1 ↔ x ∈ F := by
  obtain ⟨r, hr, i, hID, face, hface, hF⟩ := h
  obtain ⟨hi, rfl⟩ := (ElementMesh.getElem?_IDs hr).mp hID
  rw [← map_entries hr hi] at hface
  obtain ⟨p, hp, rfl⟩ := List.mem_map.mp hface
  exact ⟨r, hr, i, hi, rfl, p, hp, hF⟩

lemma allStored_iff : M.AllStored ↔
    ∀ r < M.size, ∀ i < (M.part r).IDs.length, M.EntriesStored r i := by
  constructor
  · rintro h r hr i hi p hp hregion ⟨b, hb, hlt, hnot⟩
    obtain ⟨hface, hopposite⟩ := entry_opposite hr hi hp
    have hself := FaceMesh.hasFace_self hr ((ElementMesh.getElem?_IDs hr).mpr ⟨hi, rfl⟩) hface
    rcases hopposite with ⟨hminus, -⟩ | ⟨c, hc, -, hother, -⟩
    · omega
    · obtain rfl : b = c := by omega
      exact hnot (h _ _ _ hself hother hlt ((inRegion_iff hr hi hface).mp hregion))
  · intro h F a b ha hb hlt hregion
    obtain ⟨r, hr, i, hi, rfl, p, hp, hF⟩ := exists_entry M ha
    obtain ⟨hface, hopposite⟩ := entry_opposite hr hi hp
    have hother := hb.congr fun x => (hF x).symm
    rcases hopposite with ⟨-, hnone⟩ | ⟨c, hc, -, -, honly⟩
    · exact absurd ⟨b, hlt.ne', hother⟩ hnone
    · obtain rfl := honly b hlt.ne' hother
      by_contra hnot
      refine h r hr i hi p hp ((inRegion_iff hr hi hface).mpr fun x hx => ?_) ⟨b, hc, hlt, hnot⟩
      exact hregion x ((hF x).mp hx)

/-! ## The boundary -/

lemma SameMask.symm {M : NodeRegionMesh} {a b : ℕ} (h : M.SameMask a b) : M.SameMask b a := by
  obtain ⟨r, hr, q, hq, i, j, hi, hj, heq⟩ := h
  exact ⟨q, hq, r, hr, j, i, hj, hi, heq.symm⟩

lemma OnBoundary.congr {M : NodeRegionMesh} {F F' : List ℕ} (h : M.OnBoundary F)
    (hF : ∀ x, x ∈ F ↔ x ∈ F') : M.OnBoundary F' where
  face := h.face.imp fun _ ha => ha.congr hF
  nodes x hx := h.nodes x ((hF x).mpr hx)
  outer := by
    refine h.outer.imp (fun hone a b ha hb => ?_) fun ⟨a, b, hne, ha, hb, hmask⟩ => ?_
    · exact hone a b (ha.congr fun x => (hF x).symm) (hb.congr fun x => (hF x).symm)
    · exact ⟨a, b, hne, ha.congr hF, hb.congr hF, hmask⟩

lemma onBoundary_of_added {r i : ℕ} (hr : r < M.size) (hi : i < (M.part r).IDs.length)
    {p : (List ℕ × ElementCode) × ℤ} (hp : p ∈ M.entries r i) (hregion : M.InRegion r i p.1.1)
    (hadded : M.Added (M.begine r + i) p.2) : M.OnBoundary (M.faceIDs r i p.1.1) := by
  obtain ⟨hface, hopposite⟩ := entry_opposite hr hi hp
  have hself := FaceMesh.hasFace_self hr ((ElementMesh.getElem?_IDs hr).mpr ⟨hi, rfl⟩) hface
  refine ⟨⟨_, hself⟩, (inRegion_iff hr hi hface).mp hregion, ?_⟩
  rcases hopposite with ⟨-, hnone⟩ | ⟨c, hc, hne, hother, -⟩
  · refine Or.inl fun a b ha hb => ?_
    have honly (e : ℕ) (he : M.HasFace (M.faceIDs r i p.1.1) e) : e = M.begine r + i := by
      by_contra hne
      exact hnone ⟨e, hne, he⟩
    rw [honly a ha, honly b hb]
  · obtain ⟨b, hb, -, hmask⟩ := hadded.resolve_left (by omega)
    obtain rfl : b = c := by omega
    exact Or.inr ⟨_, b, hne.symm, hself, hother, hmask⟩

lemma exists_added {F : List ℕ} (h : M.OnBoundary F) : ∃ r < M.size,
    ∃ i < (M.part r).IDs.length, ∃ p ∈ M.entries r i, (∀ x, x ∈ M.faceIDs r i p.1.1 ↔ x ∈ F) ∧
      M.InRegion r i p.1.1 ∧ M.Added (M.begine r + i) p.2 := by
  have hentry (a : ℕ) (ha : M.HasFace F a) (hadded : ∀ v, M.Opposite F a v → M.Added a v) :
      ∃ r < M.size, ∃ i < (M.part r).IDs.length, ∃ p ∈ M.entries r i,
        (∀ x, x ∈ M.faceIDs r i p.1.1 ↔ x ∈ F) ∧ M.InRegion r i p.1.1 ∧
          M.Added (M.begine r + i) p.2 := by
    obtain ⟨r, hr, i, hi, rfl, p, hp, hF⟩ := exists_entry M ha
    obtain ⟨hface, hopposite⟩ := entry_opposite hr hi hp
    refine ⟨r, hr, i, hi, p, hp, hF, (inRegion_iff hr hi hface).mpr fun x hx =>
      h.nodes x ((hF x).mp hx), hadded p.2 ?_⟩
    have hiff (b : ℕ) : M.HasFace (M.faceIDs r i p.1.1) b ↔ M.HasFace F b :=
      ⟨fun hb => hb.congr hF, fun hb => hb.congr fun x => (hF x).symm⟩
    simpa only [FaceMesh.Opposite, hiff] using hopposite
  rcases h.outer with hone | ⟨a, b, hne, ha, hb, hmask⟩
  · obtain ⟨a, ha⟩ := h.face
    refine hentry a ha fun v hv => ?_
    rcases hv with ⟨hminus, -⟩ | ⟨c, -, hne, hc, -⟩
    · exact Or.inl hminus
    · exact absurd (hone c a hc ha) hne
  · have hlower (a b : ℕ) (hlt : a < b) (hb : M.HasFace F b) (hmask : ¬M.SameMask a b) (v : ℤ)
        (hv : M.Opposite F a v) : M.Added a v := by
      rcases hv with ⟨-, hnone⟩ | ⟨c, hc, -, -, honly⟩
      · exact absurd ⟨b, hlt.ne', hb⟩ hnone
      · obtain rfl := honly b hlt.ne' hb
        exact Or.inr ⟨b, hc, hlt, hmask⟩
    rcases Nat.lt_or_gt_of_ne hne with hlt | hgt
    · exact hentry a ha (hlower a b hlt hb hmask)
    · exact hentry b hb (hlower b a hgt ha fun hsame => hmask hsame.symm)

lemma position_unique {r i q j : ℕ} (hr : r < M.size) (hq : q < M.size)
    (hi : i < (M.part r).IDs.length) (hj : j < (M.part q).IDs.length)
    {p p' : (List ℕ × ElementCode) × ℤ} (hp : p ∈ M.entries r i) (hp' : p' ∈ M.entries q j)
    (hadded : M.Added (M.begine r + i) p.2) (hadded' : M.Added (M.begine q + j) p'.2)
    (hF : ∀ x, x ∈ M.faceIDs r i p.1.1 ↔ x ∈ M.faceIDs q j p'.1.1) : r = q ∧ i = j := by
  have hID := (ElementMesh.getElem?_IDs hr).mpr ⟨hi, rfl⟩
  have hID' := (ElementMesh.getElem?_IDs hq).mpr ⟨hj, rfl⟩
  obtain ⟨hface, hopposite⟩ := entry_opposite hr hi hp
  obtain ⟨hface', hopposite'⟩ := entry_opposite hq hj hp'
  have hself := FaceMesh.hasFace_self hr hID hface
  have hself' := FaceMesh.hasFace_self hq hID' hface'
  have hlower {a b : ℕ} {F : List ℕ} {v : ℤ} (hv : M.Opposite F a v) (ha : M.Added a v)
      (hb : M.HasFace F b) (hne : b ≠ a) : a < b := by
    rcases hv with ⟨-, hnone⟩ | ⟨c, hc, -, -, honly⟩
    · exact absurd ⟨b, hne, hb⟩ hnone
    · obtain ⟨d, hd, hlt, -⟩ := ha.resolve_left (by omega)
      rw [honly b hne hb]
      omega
  have hsame : M.begine r + i = M.begine q + j := by
    by_contra hne
    have hlt := hlower hopposite hadded (hself'.congr fun x => (hF x).symm) (Ne.symm hne)
    exact lt_asymm hlt (hlower hopposite' hadded' (hself.congr hF) hne)
  exact ElementMesh.position_inj hr hq hID (hsame ▸ hID')

lemma entry_inj {r i : ℕ} (hr : r < M.size) (hi : i < (M.part r).IDs.length)
    {p p' : (List ℕ × ElementCode) × ℤ} (hp : p ∈ M.entries r i) (hp' : p' ∈ M.entries r i)
    (hF : ∀ x ∈ M.faceIDs r i p.1.1, x ∈ M.faceIDs r i p'.1.1) : p = p' := by
  have hnodup : ((M.entries r i).map fun p => p.1.1).Nodup := by
    rw [map_entries hr hi]
    exact (ElementCode.faces_nodup _).1
  refine List.inj_on_of_nodup_map hnodup hp hp' ?_
  have hface := (entry_opposite hr hi hp).1
  have hface' := (entry_opposite hr hi hp').1
  have hlt {face : List ℕ} (hface : face ∈ M.faces r i) {k : ℕ} (hk : k ∈ face) :
      k < ((M.part r).nodes.row i).length := by
    rw [(M.element_nodes r hr i hi).1]
    exact (ElementCode.face_valid _ hface).2 k hk
  have hnode {n : ℕ} (hn : n < ((M.part r).nodes.row i).length) :=
    (M.element_nodes r hr i hi).2 _ (List.getElem_mem hn)
  refine ElementCode.face_eq _ hface hface' fun k hk => ?_
  obtain ⟨n, hn, hx⟩ := List.mem_map.mp (hF _ (List.mem_map_of_mem (List.mem_map_of_mem hk)))
  obtain ⟨l, hl, rfl⟩ := List.mem_map.mp hn
  rw [List.getD_eq_getElem _ _ (hlt hface' hl), List.getD_eq_getElem _ _ (hlt hface hk),
    List.getD_eq_getElem _ _ (hnode (hlt hface' hl)),
    List.getD_eq_getElem _ _ (hnode (hlt hface hk)),
    (M.nIDs_nodup r hr).getElem_inj_iff, (M.nodes_nodup r hr i hi).getElem_inj_iff] at hx
  exact hx ▸ hl

open Classical in
/-- The faces that are built if all that is compared is stored. -/
noncomputable def addedFaces (r i : ℕ) : List (Finset ℕ) :=
  ((M.entries r i).filter fun p => M.InRegion r i p.1.1 ∧ M.Added (M.begine r + i) p.2).map
    fun p => (M.faceIDs r i p.1.1).toFinset

lemma mem_addedFaces {r i : ℕ} {S : Finset ℕ} : S ∈ M.addedFaces r i ↔ ∃ p ∈ M.entries r i,
    M.InRegion r i p.1.1 ∧ M.Added (M.begine r + i) p.2 ∧ (M.faceIDs r i p.1.1).toFinset = S := by
  simp only [addedFaces, List.mem_map, List.mem_filter, decide_eq_true_eq, and_assoc]

lemma addedFaces_nodup : ((List.range M.size).flatMap fun r =>
    (List.range (M.part r).IDs.length).flatMap (M.addedFaces r)).Nodup := by
  have hunique {r i q j : ℕ} (hr : r < M.size) (hq : q < M.size) (hi : i < (M.part r).IDs.length)
      (hj : j < (M.part q).IDs.length) {S : Finset ℕ} (hS : S ∈ M.addedFaces r i)
      (hS' : S ∈ M.addedFaces q j) : r = q ∧ i = j := by
    obtain ⟨p, hp, -, hadded, rfl⟩ := (mem_addedFaces M).mp hS
    obtain ⟨p', hp', -, hadded', heq⟩ := (mem_addedFaces M).mp hS'
    refine position_unique M hr hq hi hj hp hp' hadded hadded' fun x => ?_
    rw [← List.mem_toFinset, ← heq, List.mem_toFinset]
  refine List.nodup_flatMap.mpr ⟨fun r hr => List.nodup_flatMap.mpr ⟨fun i hi => ?_, ?_⟩, ?_⟩
  · rw [List.mem_range] at hr hi
    refine List.Nodup.map_on (fun p hp p' hp' heq => ?_) (List.Nodup.filter _ ?_)
    · refine entry_inj M hr hi (List.mem_filter.mp hp).1 (List.mem_filter.mp hp').1 fun x hx => ?_
      rwa [← List.mem_toFinset, ← heq, List.mem_toFinset]
    · refine List.Nodup.of_map (fun p => p.1.1) ?_
      rw [map_entries hr hi]
      exact (ElementCode.faces_nodup _).1
  · rw [List.mem_range] at hr
    refine List.nodup_range.pairwise_of_forall_ne fun i hi j hj hne S hS hS' => ?_
    exact hne (hunique hr hr (List.mem_range.mp hi) (List.mem_range.mp hj) hS hS').2
  · refine List.nodup_range.pairwise_of_forall_ne fun r hr q hq hne S hS hS' => ?_
    obtain ⟨i, hi, hS⟩ := List.mem_flatMap.mp hS
    obtain ⟨j, hj, hS'⟩ := List.mem_flatMap.mp hS'
    exact hne (hunique (List.mem_range.mp hr) (List.mem_range.mp hq) (List.mem_range.mp hi)
      (List.mem_range.mp hj) hS hS').1

/-- What rank `r` stores. -/
noncomputable def stored (elementDimension : ℤ) (r : ℕ) : BoundaryFaces where
  elements := Serialized.ofRows
    (((List.range (M.part r).IDs.length).flatMap (M.selected r)).map SurfaceFace.nodes)
  epointers := ((List.range (M.part r).IDs.length).flatMap (M.selected r)).map SurfaceFace.code
  dimension := elementDimension

open Classical in
lemma computeBoundaryElementsFromNodes_eq (elementDimension : ℤ) :
    M.computeBoundaryElementsFromNodes elementDimension
      = if M.AllStored then some ((List.range M.size).map (M.stored elementDimension))
        else none := by
  rw [computeBoundaryElementsFromNodes]
  split_ifs with hall
  · rw [allStored_iff] at hall
    refine Fallible.mapM_eq_some fun r hr => ?_
    have hr := List.mem_range.mp hr
    exact (boundaryElements_eq hr elementDimension).trans (if_pos (hall r hr))
  · rw [allStored_iff] at hall
    push Not at hall
    obtain ⟨r, hr, i, hi, hnot⟩ := hall
    rw [Option.eq_none_iff_forall_ne_some]
    intro out hout
    obtain ⟨B, hB⟩ := Fallible.exists_of_mapM hout (List.mem_range.mpr hr)
    rw [boundaryElements_eq hr] at hB
    exact hnot ((Option.ite_none_right_eq_some.mp hB).1 i hi)

lemma builtNodes_eq (elementDimension : ℤ) :
    M.builtNodes ((List.range M.size).map (M.stored elementDimension))
      = (List.range M.size).flatMap fun r =>
        (List.range (M.part r).IDs.length).flatMap (M.addedFaces r) := by
  refine List.flatMap_congr fun r hr => ?_
  rw [List.getElem?_map, List.getElem?_range (List.mem_range.mp hr), Option.map_some,
    Option.map_some, Option.getD_some, stored, Serialized.rows_ofRows, List.map_map,
    List.map_flatMap]
  refine List.flatMap_congr fun i _ => ?_
  rw [selected, List.map_map]
  rfl

lemma mem_builtNodes (elementDimension : ℤ) {F : List ℕ} :
    F.toFinset ∈ M.builtNodes ((List.range M.size).map (M.stored elementDimension)) ↔
      M.OnBoundary F := by
  rw [builtNodes_eq]
  simp only [List.mem_flatMap, List.mem_range, mem_addedFaces]
  constructor
  · rintro ⟨r, hr, i, hi, p, hp, hregion, hadded, heq⟩
    refine (onBoundary_of_added M hr hi hp hregion hadded).congr fun x => ?_
    rw [← List.mem_toFinset, heq, List.mem_toFinset]
  · intro h
    obtain ⟨r, hr, i, hi, p, hp, hF, hregion, hadded⟩ := exists_added M h
    refine ⟨r, hr, i, hi, p, hp, hregion, hadded, Finset.ext fun x => ?_⟩
    rw [List.mem_toFinset, List.mem_toFinset, hF]

/-- **`MeshPreprocessing::computeBoundaryElementsFromNodes` builds the boundary of the region**,
each face once, if and only if the masks and the halo are stored where they are compared. -/
theorem boundaryElements_exact_iff (elementDimension : ℤ) :
    (∃ out, M.computeBoundaryElementsFromNodes elementDimension = some out ∧ M.Exact out) ↔
      M.AllStored := by
  classical
  rw [computeBoundaryElementsFromNodes_eq]
  constructor
  · rintro ⟨out, hout, -⟩
    exact (Option.ite_none_right_eq_some.mp hout).1
  · intro h
    refine ⟨_, if_pos h, ?_, fun F => mem_builtNodes M elementDimension⟩
    rw [builtNodes_eq]
    exact addedFaces_nodup M

end NodeRegionMesh

/-! ## The face between two elements -/

namespace TwoTetras

def masks : List ℤ := [7, 3]

lemma masks_length (r : ℕ) (_ : r < 1) : masks.length = 1 * twoTetrasPart.IDs.length := rfl

lemma used (r : ℕ) (_ : r < 1) : ∀ n < twoTetrasPart.nIDs.length,
    ∃ i < twoTetrasPart.IDs.length, n ∈ twoTetrasPart.nodes.row i := by decide

def haloMesh : HaloMesh where
  toFaceMesh := mesh
  nodeDistribution := fun _ => Distribution.uniform Nat.one_pos 5
  regionMaskSize := 1
  masks := fun _ => masks
  masks_length := masks_length
  used := used

lemma nIDs_nodup (r : ℕ) (_ : r < 1) : twoTetrasPart.nIDs.Nodup := by decide

lemma nodes_nodup (r : ℕ) (_ : r < 1) : ∀ i < twoTetrasPart.IDs.length,
    (twoTetrasPart.nodes.row i).Nodup := by decide

lemma stored_neighbors (r : ℕ) (_ : r < 1) (N : Serialized ℤ)
    (h : twoTetrasPart.neighbors = some N) : N = mesh.neighbors r :=
  absurd h (neighbors_none N)

lemma mem_regionNodes (r : ℕ) (_ : r < 1) (n : ℕ) :
    n ∈ [1, 2, 3] ↔ ∃ x ∈ [1, 2, 3], twoTetrasPart.nIDs[n]? = some x := by
  match n with
  | 0 | 1 | 2 | 3 | 4 => simp [twoTetrasPart]
  | n + 5 => simp [twoTetrasPart]

lemma no_masks (r : ℕ) (_ : r < 1) (regions : List ℤ) (h : none = some regions) :
    regions = masks := by cases h

lemma no_halo (r : ℕ) (_ : r < 1) (halo : Halo) (h : none = some halo) :
    haloMesh.HaloExact r halo := by cases h

/-- **The nodes of the common face**; neither masks nor the halo are stored. -/
def nodeRegion : NodeRegionMesh where
  toHaloMesh := haloMesh
  conforming := conforming
  nIDs_nodup := nIDs_nodup
  nodes_nodup := nodes_nodup
  stored_neighbors := stored_neighbors
  region := [1, 2, 3]
  regionNodes := fun _ => [1, 2, 3]
  regionDistribution := fun _ => Distribution.uniform Nat.one_pos 3
  mem_regionNodes := mem_regionNodes
  storedMasks := fun _ => none
  storedMasks_eq := no_masks
  storedHalo := fun _ => none
  storedHalo_exact := no_halo

/-- The common face is not built, as the masks are not stored. -/
theorem boundaryElements_not_exact :
    ¬∃ out, nodeRegion.computeBoundaryElementsFromNodes 2 = some out ∧ nodeRegion.Exact out := by
  classical
  rw [NodeRegionMesh.computeBoundaryElementsFromNodes_eq, if_neg]
  · rintro ⟨out, hout, -⟩
    cases hout
  · intro hall
    have h₀ : nodeRegion.HasFace [1, 2, 3] 0 :=
      hasFace_iff.mpr (Or.inl ⟨rfl, [1, 2, 3], by decide, fun _ => Iff.rfl⟩)
    have h₁ : nodeRegion.HasFace [1, 2, 3] 1 :=
      hasFace_iff.mpr (Or.inr ⟨rfl, [1, 2, 3], by decide, fun _ => Iff.rfl⟩)
    have hstored := hall _ 0 1 h₀ h₁ Nat.one_pos (fun _ hx => hx) 0 Nat.one_pos List.mem_cons_self
    exact absurd hstored.1 Bool.false_ne_true

end TwoTetras

end Espreso
