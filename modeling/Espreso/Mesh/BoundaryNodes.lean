import Espreso.Basis.Merge
import Espreso.Mesh.DomainMesh

/-!
# Boundary nodes

`MeshPreprocessing::computeBoundaryNodes` collects the nodes of outer faces and those of faces
between domains. Nodes of outer faces of other ranks are received from these ranks.

* `OnOuterFace`, `OnInnerFace` — the nodes it looks for.
* **`boundaryNodes_exact`** — what all ranks find.
-/

namespace Espreso

/-- The results of a rank. -/
structure BoundaryNodes where
  externalBoundary : List ℕ
  internalBoundary : List ℕ

namespace ElementPart

variable (P : ElementPart)

/-! ## Own faces -/

section Faces

variable (epointers : List ElementCode) (neighbors : Serialized ℤ) (domains elements : ℕ → ℕ)

/-- The nodes that thread `t` collects from faces whose neighbour is chosen by `chosen`. -/
def collectNodes (chosen : ℕ → ℤ → Bool) (t : ℕ) : List ℕ :=
  (visits domains elements (elements (domains t)) t).flatMap fun v =>
    (P.visitedFaces epointers neighbors v).flatMap fun face =>
      if chosen v.domain face.2.2 then face.1 else []

/-- `external[0]` -/
def external : List ℕ :=
  sortWithUniqueMerge ((List.range P.threads).map
    (P.collectNodes epointers neighbors domains elements fun _ n => n = -1))

/-- `internal[0]` -/
def internal (eoffset : ℕ) : List ℕ :=
  sortWithUniqueMerge ((List.range P.threads).map
    (P.collectNodes epointers neighbors domains elements fun d n => n ≠ -1 ∧
      (n < (elements d + eoffset : ℕ) ∨ (elements (d + 1) + eoffset : ℕ) ≤ n)))

end Faces

/-! ## Nodes of other ranks -/

/-- `sBuffer[n]`: the IDs of nodes that are shared with the neighbour at position `n`. -/
def sharedIDs (externalBoundary : List ℕ) (n : ℕ) : List ℕ :=
  (externalBoundary.flatMap fun i =>
    ((P.ranks.getD i []).filter fun rank => rank ≠ P.rank ∧ P.n2i rank = n).map
      fun _ => P.nIDs.getD i 0).mergeSort

/-- `nExternal`: what is received, but was not sent to any neighbour. -/
def nExternal (sBuffer rBuffer : ℕ → List ℕ) : List ℕ :=
  ((List.range P.neighbours.length).map sBuffer).foldl setDifference
    (sortAndRemoveDuplicity ((List.range P.neighbours.length).flatMap rBuffer))

def findNode (border : ℕ → ℕ) (ID : ℕ) : List ℕ :=
  (List.range P.threads).flatMap fun t =>
    let nodes := window P.nIDs (border t) (border (t + 1))
    if nodes.findIdx (· = ID) < nodes.length then [border t + nodes.findIdx (· = ID)] else []

def boundaryNodes (border : ℕ → ℕ) (external internal : List ℕ) (rBuffer : ℕ → List ℕ) :
    BoundaryNodes :=
  let externalBoundary := (external ++
    (P.nExternal (P.sharedIDs external) rBuffer).flatMap (P.findNode border)).mergeSort
  { externalBoundary
    internalBoundary := setDifference internal externalBoundary }

end ElementPart

namespace DomainMesh

variable (M : DomainMesh)

/-! ## All ranks -/

/-- `externalBoundary` of rank `r` before the exchange. -/
def ownExternal (r : ℕ) : List ℕ :=
  (M.part r).external (M.epointers r) (M.elementsNeighbors r) (M.domainDistribution r).border
    (M.elementsDistribution r).border

/-- `internal[0]` of rank `r`. -/
def ownInternal (r : ℕ) : List ℕ :=
  (M.part r).internal (M.epointers r) (M.elementsNeighbors r) (M.domainDistribution r).border
    (M.elementsDistribution r).border (M.boundaries.getD (M.part r).rank 0)

/-- The buffers that rank `r` sends. -/
def sharedExternal (r : ℕ) : ℕ → List ℕ := (M.part r).sharedIDs (M.ownExternal r)

/-- **`MeshPreprocessing::computeBoundaryNodes`** on all ranks. An `eslocal` has four bytes. -/
def computeBoundaryNodes : Option (List BoundaryNodes) := do
  let rBuffer ← exchangeUnknownSize M.size 4 (fun r => (M.part r).neighbours) M.sharedExternal
  pure ((List.range M.size).map fun r => (M.part r).boundaryNodes (M.nodeDistribution r).border
    (M.ownExternal r) (M.ownInternal r) (rBuffer r))

/-- A node is on an outer face of rank `r`: the face has no neighbour. -/
def OnOwnOuterFace (r x : ℕ) : Prop :=
  ∃ i < (M.part r).IDs.length, ∃ face, M.FaceEntry r i face (-1) ∧ x ∈ M.faceIDs r i face

def OnOuterFace (x : ℕ) : Prop := ∃ q < M.size, M.OnOwnOuterFace q x

/-- A node of rank `r` is on a face of a domain whose neighbour is in another domain or on another
rank. -/
def OnInnerFace (r n : ℕ) : Prop :=
  ∃ d < M.ndomains r, ∃ i, (M.elementsDistribution r).border d ≤ i ∧
    i < (M.elementsDistribution r).border (d + 1) ∧
    ∃ face v, M.FaceEntry r i face v ∧ n ∈ (M.part r).faceNodes i face ∧ v ≠ -1 ∧
      ¬∃ k, (M.elementsDistribution r).border d ≤ k ∧
        k < (M.elementsDistribution r).border (d + 1) ∧ v = (M.begine r + k : ℕ)

/-- **The boundary nodes of a rank**, in ascending order. -/
structure BoundaryExact (r : ℕ) (B : BoundaryNodes) : Prop where
  external_ascending : B.externalBoundary.Pairwise (· < ·)
  mem_external : ∀ n, n ∈ B.externalBoundary ↔
    ∃ x, (M.part r).nIDs[n]? = some x ∧ M.OnOuterFace x
  internal_ascending : B.internalBoundary.Pairwise (· < ·)
  mem_internal : ∀ n, n ∈ B.internalBoundary ↔
    M.OnInnerFace r n ∧ n ∉ B.externalBoundary

/-! ## Own faces -/

section Rank

variable {M} {r : ℕ} (hr : r < M.size)

lemma mem_collectNodes {chosen : ℕ → ℤ → Bool} {n : ℕ} :
    (∃ t < (M.part r).threads, n ∈ (M.part r).collectNodes (M.epointers r) (M.elementsNeighbors r)
      (M.domainDistribution r).border (M.elementsDistribution r).border chosen t) ↔
      ∃ d < M.ndomains r, ∃ i, (M.elementsDistribution r).border d ≤ i ∧
        i < (M.elementsDistribution r).border (d + 1) ∧ ∃ face v, M.FaceEntry r i face v ∧
          n ∈ (M.part r).faceNodes i face ∧ chosen d v = true := by
  constructor
  · rintro ⟨t, ht, hn⟩
    obtain ⟨v, hv, hn⟩ := List.mem_flatMap.mp hn
    obtain ⟨hd, hlow, hhigh, hposition⟩ := mem_visits.mp ⟨t, ht, hv⟩
    obtain ⟨⟨nodes, c, k⟩, hface, hn⟩ := List.mem_flatMap.mp hn
    obtain ⟨face, hentry, rfl⟩ := (mem_visitedFaces hposition).mp ⟨c, hface⟩
    split_ifs at hn with hchosen
    · exact ⟨v.domain, hd, v.element, hlow, hhigh, face, k, hentry, hn, hchosen⟩
    · cases hn
  · rintro ⟨d, hd, i, hlow, hhigh, face, v, hentry, hn, hchosen⟩
    have hvisit : (⟨d, i, i⟩ : Visit).position = i := rfl
    obtain ⟨t, ht, hv⟩ := mem_visits.mpr ⟨hd, hlow, hhigh, hvisit⟩
    obtain ⟨c, hface⟩ := (mem_visitedFaces hvisit).mpr ⟨face, hentry, rfl⟩
    refine ⟨t, ht, List.mem_flatMap.mpr ⟨_, hv, List.mem_flatMap.mpr ⟨_, hface, ?_⟩⟩⟩
    rwa [if_pos hchosen]

lemma ownExternal_sorted : (M.ownExternal r).Pairwise (· < ·) := sortWithUniqueMerge_sorted _

lemma ownInternal_sorted : (M.ownInternal r).Pairwise (· < ·) := sortWithUniqueMerge_sorted _

include hr

lemma mem_ownExternal {n : ℕ} :
    n ∈ M.ownExternal r ↔ ∃ x, (M.part r).nIDs[n]? = some x ∧ M.OnOwnOuterFace r x := by
  have hfaces : n ∈ M.ownExternal r ↔ ∃ i < (M.part r).IDs.length, ∃ face,
      M.FaceEntry r i face (-1) ∧ n ∈ (M.part r).faceNodes i face := by
    rw [ownExternal, ElementPart.external, mem_sortWithUniqueMerge]
    simp only [List.mem_map, List.mem_range, exists_exists_and_eq_and]
    rw [mem_collectNodes]
    constructor
    · rintro ⟨d, hd, i, -, hhigh, face, v, hentry, hn, hv⟩
      obtain rfl : v = -1 := of_decide_eq_true hv
      exact ⟨i, hhigh.trans_le ((M.elementsDistribution r).border_le_total
        (Nat.succ_le_of_lt hd)), face, hentry, hn⟩
    · rintro ⟨i, hi, face, hentry, hn⟩
      obtain ⟨d, hd, hlow, hhigh⟩ := (M.elementsDistribution r).exists_range hi
      exact ⟨d, hd, i, hlow, hhigh, face, -1, hentry, hn, decide_eq_true rfl⟩
  rw [hfaces]
  constructor
  · rintro ⟨i, hi, face, hentry, hn⟩
    obtain ⟨j, hface, -⟩ := id hentry
    have hlt := (FaceMesh.faceNodes_lt hr hi (List.mem_of_getElem? hface) hn).2
    refine ⟨_, List.getElem?_eq_getElem hlt, i, hi, face, hentry, ?_⟩
    rw [← List.getD_eq_getElem _ 0 hlt]
    exact List.mem_map_of_mem hn
  · rintro ⟨x, hx, i, hi, face, hentry, hmem⟩
    obtain ⟨j, hface, -⟩ := id hentry
    obtain ⟨m, hm, rfl⟩ := List.mem_map.mp hmem
    have hlt := (FaceMesh.faceNodes_lt hr hi (List.mem_of_getElem? hface) hm).2
    obtain ⟨hn, hnode⟩ := List.getElem?_eq_some_iff.mp hx
    rw [List.getD_eq_getElem _ _ hlt, (M.nIDs_nodup r hr).getElem_inj_iff] at hnode
    exact ⟨i, hi, face, hentry, hnode ▸ hm⟩

lemma mem_ownInternal {n : ℕ} : n ∈ M.ownInternal r ↔ M.OnInnerFace r n := by
  rw [ownInternal, ElementPart.internal, mem_sortWithUniqueMerge, M.rank_eq r hr,
    ElementMesh.boundaries_getD hr.le]
  simp only [List.mem_map, List.mem_range, exists_exists_and_eq_and]
  rw [mem_collectNodes]
  refine exists_congr fun d => and_congr_right fun _ => exists_congr fun i => ?_
  refine and_congr_right fun _ => and_congr_right fun _ => exists_congr fun face => ?_
  refine exists_congr fun v => and_congr_right fun _ => and_congr_right fun _ => ?_
  rw [decide_eq_true_eq]
  refine and_congr_right fun _ => ?_
  constructor
  · rintro hv ⟨k, hlow, hhigh, rfl⟩
    omega
  · intro hv
    by_contra hin
    exact hv ⟨(v - M.begine r).toNat, by omega, by omega, by omega⟩

end Rank

/-! ## Nodes of other ranks -/

section Exchange

variable {M} {r : ℕ} (hr : r < M.size)

include hr

lemma mem_sharedExternal {k q x : ℕ} (hq : (M.part r).neighbours[k]? = some q) :
    x ∈ M.sharedExternal r k ↔
      x ∈ (M.part r).nIDs ∧ x ∈ (M.part q).nIDs ∧ M.OnOwnOuterFace r x := by
  have hranks : ∀ i y : ℕ, (M.part r).nIDs[i]? = some y → ∀ p, p ∈ (M.part r).ranks.getD i [] ↔
      p < M.size ∧ y ∈ (M.part p).nIDs := by
    intro i y hy p
    rw [List.getD_eq_getElem?_getD, M.ranks_exact r hr i y hy, Option.getD_some, List.mem_filter,
      List.mem_range, decide_eq_true_eq]
  rw [sharedExternal, ElementPart.sharedIDs, List.mem_mergeSort, List.mem_flatMap]
  simp only [List.mem_map, List.mem_filter, decide_eq_true_eq, M.rank_eq r hr]
  constructor
  · rintro ⟨i, hi, p, ⟨hp, hne, hk⟩, hx⟩
    obtain ⟨y, hy, houter⟩ := (mem_ownExternal hr).mp hi
    rw [List.getD_eq_getElem?_getD, hy, Option.getD_some] at hx
    subst hx
    obtain ⟨hsize, hshared⟩ := (hranks i y hy p).mp hp
    have hmem := List.mem_of_getElem? hy
    have hfound := ElementMesh.n2i_lt hr (M.neighbours_of_shared r hr p hsize hne
      ⟨y, hmem, hshared⟩)
    rw [hk, hq] at hfound
    rw [Option.some.inj hfound]
    exact ⟨hmem, hshared, houter⟩
  · rintro ⟨hmem, hshared, houter⟩
    obtain ⟨hsize, hne, -⟩ := M.neighbours_symm r hr q (List.mem_of_getElem? hq)
    obtain ⟨i, hi⟩ := List.mem_iff_getElem?.mp hmem
    refine ⟨i, (mem_ownExternal hr).mpr ⟨x, hi, houter⟩, q, ⟨(hranks i x hi q).mpr ⟨hsize, hshared⟩,
      hne, ElementMesh.n2i_eq hr hq⟩, ?_⟩
    rw [List.getD_eq_getElem?_getD, hi, Option.getD_some]

omit hr in
lemma sharedExternal_sorted (k : ℕ) : (M.sharedExternal r k).Pairwise (· ≤ ·) :=
  List.pairwise_mergeSort' (· ≤ ·) _

lemma mem_nIDs_of_outer {x : ℕ} (h : M.OnOwnOuterFace r x) : x ∈ (M.part r).nIDs := by
  obtain ⟨i, hi, face, ⟨j, hface, -⟩, hx⟩ := h
  obtain ⟨n, hn, rfl⟩ := List.mem_map.mp hx
  have hlt := (FaceMesh.faceNodes_lt hr hi (List.mem_of_getElem? hface) hn).2
  rw [List.getD_eq_getElem _ _ hlt]
  exact List.getElem_mem hlt

omit hr in
lemma nExternal_sorted {rBuffer : ℕ → List ℕ} :
    ((M.part r).nExternal (M.sharedExternal r) rBuffer).Pairwise (· < ·) :=
  (foldl_setDifference (sortAndRemoveDuplicity_sorted _)
    (by simpa using fun k _ => sharedExternal_sorted (M := M) (r := r) k)).1

lemma mem_nExternal {rBuffer : ℕ → List ℕ} (hbuffer : ∀ n q : ℕ,
      (M.part r).neighbours[n]? = some q →
        rBuffer n = M.sharedExternal q (lowerBound (M.part q).neighbours r)) {x : ℕ}
    (hx : x ∈ (M.part r).nIDs) : x ∈ (M.part r).nExternal (M.sharedExternal r) rBuffer ↔
      M.OnOuterFace x ∧ ¬M.OnOwnOuterFace r x := by
  have hparts : ∀ p ∈ (List.range (M.part r).neighbours.length).map (M.sharedExternal r),
      p.Pairwise (· ≤ ·) := by
    simpa using fun k _ => sharedExternal_sorted (M := M) (r := r) k
  obtain ⟨-, hmem⟩ := foldl_setDifference
    (sortAndRemoveDuplicity_sorted ((List.range (M.part r).neighbours.length).flatMap rBuffer))
    hparts
  rw [ElementPart.nExternal, hmem, mem_sortAndRemoveDuplicity]
  simp only [List.mem_flatMap, List.forall_mem_map, List.mem_range]
  constructor
  · rintro ⟨⟨n, hn, hreceived⟩, hnot⟩
    have hq := List.getElem?_eq_getElem hn
    obtain ⟨hsize, -, hback⟩ := M.neighbours_symm r hr _ (List.mem_of_getElem? hq)
    rw [hbuffer n _ hq] at hreceived
    obtain ⟨hxq, -, houter⟩ :=
      (mem_sharedExternal hsize (ElementMesh.n2i_lt hsize hback)).mp hreceived
    exact ⟨⟨_, hsize, houter⟩, fun hown =>
      hnot n hn ((mem_sharedExternal hr hq).mpr ⟨hx, hxq, hown⟩)⟩
  · rintro ⟨⟨q, hsize, houter⟩, hnot⟩
    have hne : q ≠ r := by
      rintro rfl
      exact hnot houter
    have hxq := mem_nIDs_of_outer hsize houter
    have hq := ElementMesh.n2i_lt hr (M.neighbours_of_shared r hr q hsize hne ⟨x, hx, hxq⟩)
    have hback := (M.neighbours_symm r hr q (List.mem_of_getElem? hq)).2.2
    have hlt := (List.getElem?_eq_some_iff.mp hq).1
    refine ⟨⟨_, hlt, ?_⟩, fun k hk hshared => ?_⟩
    · rw [hbuffer _ _ hq]
      exact (mem_sharedExternal hsize (ElementMesh.n2i_lt hsize hback)).mpr ⟨hxq, hx, houter⟩
    · exact hnot ((mem_sharedExternal hr (List.getElem?_eq_getElem hk)).mp hshared).2.2

lemma findNode_eq (x : ℕ) : (M.part r).findNode (M.nodeDistribution r).border x
    = (List.range (M.part r).nIDs.length).filter fun n => (M.part r).nIDs[n]? = some x := by
  rw [← (M.nodeDistribution r).flatMap_ranges, List.filter_flatMap, ElementPart.findNode]
  refine List.flatMap_congr fun t ht => ?_
  have hlast : (M.nodeDistribution r).border (t + 1) ≤ (M.part r).nIDs.length :=
    (M.nodeDistribution r).border_le_total (Nat.succ_le_of_lt (List.mem_range.mp ht))
  set nodes := window (M.part r).nIDs ((M.nodeDistribution r).border t)
    ((M.nodeDistribution r).border (t + 1)) with hnodes
  have hlength : nodes.length
      = (M.nodeDistribution r).border (t + 1) - (M.nodeDistribution r).border t :=
    length_window _ hlast
  have hget : ∀ k < nodes.length,
      nodes[k]? = (M.part r).nIDs[(M.nodeDistribution r).border t + k]? := by
    intro k hk
    rw [hnodes, window, List.getElem?_take_of_lt (by omega), List.getElem?_drop]
  refine List.Pairwise.eq_of_mem_iff (r := (· < ·)) ?_
    (List.Pairwise.filter _ List.pairwise_lt_range') fun n => ?_
  · dsimp only
    split_ifs
    · exact List.pairwise_singleton _ _
    · exact List.Pairwise.nil
  · rw [List.mem_filter, List.mem_range'_1, decide_eq_true_eq]
    dsimp only
    have hfirst : ∀ h : nodes.findIdx (· = x) < nodes.length,
        (M.part r).nIDs[(M.nodeDistribution r).border t + nodes.findIdx (· = x)]? = some x := by
      intro h
      have hx := List.findIdx_getElem (w := h)
      rw [decide_eq_true_eq] at hx
      rw [← hget _ h, List.getElem?_eq_getElem h, hx]
    constructor
    · intro hn
      split_ifs at hn with h
      · obtain rfl := List.mem_singleton.mp hn
        exact ⟨by omega, hfirst h⟩
      · cases hn
    · rintro ⟨hrange, hn⟩
      have hmem : x ∈ nodes := by
        refine List.mem_of_getElem? (i := n - (M.nodeDistribution r).border t) ?_
        rw [hget _ (by omega), Nat.add_sub_cancel' hrange.1, hn]
      have h : nodes.findIdx (· = x) < nodes.length :=
        List.findIdx_lt_length_of_exists ⟨x, hmem, decide_eq_true rfl⟩
      have hnodup := M.nIDs_nodup r hr
      obtain ⟨hlt, -⟩ := List.getElem?_eq_some_iff.mp hn
      rw [if_pos h, List.mem_singleton]
      exact (List.getElem?_inj hlt hnodup).mp (hn.trans (hfirst h).symm)

lemma mem_findNode {x n : ℕ} : n ∈ (M.part r).findNode (M.nodeDistribution r).border x ↔
    (M.part r).nIDs[n]? = some x := by
  rw [findNode_eq hr, List.mem_filter, List.mem_range, decide_eq_true_eq]
  exact and_iff_right_of_imp fun h => (List.getElem?_eq_some_iff.mp h).1

section Received

variable {rBuffer : ℕ → List ℕ} (hbuffer : ∀ n q : ℕ, (M.part r).neighbours[n]? = some q →
  rBuffer n = M.sharedExternal q (lowerBound (M.part q).neighbours r))

include hbuffer

lemma mem_added {n : ℕ} : n ∈ ((M.part r).nExternal (M.sharedExternal r) rBuffer).flatMap
    ((M.part r).findNode (M.nodeDistribution r).border) ↔
      ∃ x, (M.part r).nIDs[n]? = some x ∧ M.OnOuterFace x ∧ ¬M.OnOwnOuterFace r x := by
  rw [List.mem_flatMap]
  refine exists_congr fun x => ?_
  rw [mem_findNode hr, and_comm]
  exact and_congr_right fun hx => mem_nExternal hr hbuffer (List.mem_of_getElem? hx)

lemma added_nodup : (M.ownExternal r ++ ((M.part r).nExternal (M.sharedExternal r) rBuffer).flatMap
    ((M.part r).findNode (M.nodeDistribution r).border)).Nodup := by
  refine List.nodup_append.mpr ⟨ownExternal_sorted.imp ne_of_lt, ?_, ?_⟩
  · rw [List.nodup_flatMap]
    constructor
    · intro x _
      rw [findNode_eq hr]
      exact List.nodup_range.filter _
    · refine nExternal_sorted.imp fun {x y} hlt n hx hy => ?_
      rw [mem_findNode hr] at hx hy
      rw [hx] at hy
      exact hlt.ne (Option.some.inj hy)
  · rintro n hown m hn rfl
    obtain ⟨x, hx, houter⟩ := (mem_ownExternal hr).mp hown
    obtain ⟨y, hy, -, hnot⟩ := (mem_added hr hbuffer).mp hn
    rw [hx] at hy
    obtain rfl := Option.some.inj hy
    exact hnot houter

lemma boundaryExact : M.BoundaryExact r ((M.part r).boundaryNodes (M.nodeDistribution r).border
    (M.ownExternal r) (M.ownInternal r) rBuffer) := by
  set external := (M.ownExternal r ++ ((M.part r).nExternal (M.sharedExternal r) rBuffer).flatMap
    ((M.part r).findNode (M.nodeDistribution r).border)).mergeSort with hexternal
  have hresult : (M.part r).boundaryNodes (M.nodeDistribution r).border (M.ownExternal r)
      (M.ownInternal r) rBuffer = ⟨external, setDifference (M.ownInternal r) external⟩ := rfl
  have hsorted : external.Pairwise (· < ·) := by
    have hle : external.Pairwise (· ≤ ·) := List.pairwise_mergeSort' (· ≤ ·) _
    have hne : external.Nodup :=
      (List.mergeSort_perm _ _).nodup_iff.mpr (added_nodup hr hbuffer)
    exact (hle.and hne).imp fun h => lt_of_le_of_ne h.1 h.2
  have hinternal : setDifference (M.ownInternal r) external
      = (M.ownInternal r).filter (· ∉ external) :=
    setDifference_eq ownInternal_sorted (hsorted.imp le_of_lt)
  rw [hresult]
  refine ⟨hsorted, fun n => ?_, ?_, fun n => ?_⟩
  · dsimp only
    rw [hexternal, List.mem_mergeSort, List.mem_append, mem_ownExternal hr, mem_added hr hbuffer]
    constructor
    · rintro (⟨x, hx, houter⟩ | ⟨x, hx, houter, -⟩)
      · exact ⟨x, hx, r, hr, houter⟩
      · exact ⟨x, hx, houter⟩
    · rintro ⟨x, hx, houter⟩
      by_cases hown : M.OnOwnOuterFace r x
      · exact Or.inl ⟨x, hx, hown⟩
      · exact Or.inr ⟨x, hx, houter, hown⟩
  · dsimp only
    rw [hinternal]
    exact ownInternal_sorted.filter _
  · dsimp only
    rw [hinternal, List.mem_filter, decide_eq_true_eq, mem_ownInternal hr]

end Received

end Exchange

/-- **`MeshPreprocessing::computeBoundaryNodes` finds the boundary nodes of each rank**, unless a
message is too large. -/
theorem boundaryNodes_exact : (M.computeBoundaryNodes = none ↔
      ∃ r < M.size, ∃ n < (M.part r).neighbours.length,
        limit < 4 * (M.sharedExternal r n).length) ∧
    ∀ out, M.computeBoundaryNodes = some out → out.length = M.size ∧
      ∀ (r : ℕ) (B : BoundaryNodes), out[r]? = some B → M.BoundaryExact r B := by
  rw [computeBoundaryNodes, exchangeUnknownSize]
  constructor
  · split_ifs with h
    · simp only [Option.bind_eq_bind, Option.bind_some, Option.pure_def, reduceCtorEq, false_iff]
      push Not
      exact h
    · push Not at h
      simp only [Option.bind_eq_bind, Option.bind_none, true_iff]
      exact h
  · intro out hout
    split_ifs at hout with h
    · obtain rfl := Option.some.inj hout
      refine ⟨by rw [List.length_map, List.length_range], fun r B hB => ?_⟩
      rw [List.getElem?_map, Option.map_eq_some_iff] at hB
      obtain ⟨q, hq, rfl⟩ := hB
      obtain ⟨hr, rfl⟩ := List.getElem?_eq_some_iff.mp hq
      rw [List.length_range] at hr
      rw [List.getElem_range]
      refine boundaryExact hr fun n q hq => ?_
      dsimp only
      rw [List.getD_eq_getElem?_getD, hq, Option.getD_some]
    · cases hout

end DomainMesh

end Espreso
