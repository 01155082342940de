import Espreso.Lib.Reorder
import Espreso.Basis.Distribution
import Espreso.Basis.Utils
import Espreso.Input.Block

/-!
# Nodes without elements

A generated block has all nodes of its grid, also those that its elements do not have. These nodes
are removed before the mesh is built.

* `BlockSettings.forEachElement` — `BlockGenerator::forEachElement`; `hexa20Elements` and
  `hexa20Region` — the elements and the nodes of a face of a block of `HEXA20`.
* **`compacted_iff`** — this is what happens unless a region names a removed node without the first
  node of the elements.
-/

namespace Espreso.Generator

open Reorder

/-! ## Blocks -/

namespace BlockSettings

variable (b : BlockSettings)

/-- `correct` in `forEachElement`: an empty interval is made one of one element. -/
def correct (s e : ℕ) : ℕ × ℕ :=
  if s = e then (if s = 0 then (s, e + 1) else (s - 1, e)) else (s, e)

/-- **`BlockGenerator::forEachElement`**: the node indices of each element of an interval. -/
def forEachElement (begin fin : Triple ℕ) (restriction : Triple ℕ → Triple ℕ) : List (List ℕ) :=
  let enodes := b.element_type.subnodes - Triple.const 1
  let size := b.count + Triple.const 1
  let x := correct begin.x fin.x
  let y := correct begin.y fin.y
  let z := correct begin.z fin.z
  (box ⟨x.2 - x.1, y.2 - y.1, z.2 - z.1⟩).map fun e =>
    (box (enodes + Triple.const 1)).map fun eoffset =>
      size.index (restriction (eoffset + (e + ⟨x.1, y.1, z.1⟩) * enodes))

end BlockSettings

inductive CubeFace
  | X_0
  | X_1
  | Y_0
  | Y_1
  | Z_0
  | Z_1

/-- `Hexahedron20Generator::pushElements` -/
def hexa20Indices : List ℕ :=
  [2, 8, 6, 0, 20, 26, 24, 18, 5, 7, 3, 1, 23, 25, 21, 19, 11, 17, 15, 9]

/-- `QuadraticVolumeGenerator::pushSquareNodes` -/
def squareNodes : CubeFace → List ℕ
  | .X_1 => [2, 8, 26, 20, 5, 17, 23, 11]
  | .Y_1 => [8, 6, 24, 26, 7, 15, 25, 17]
  | .X_0 => [6, 0, 18, 24, 3, 9, 21, 15]
  | .Y_0 => [0, 2, 20, 18, 1, 11, 19, 9]
  | .Z_0 => [0, 6, 8, 2, 3, 7, 5, 1]
  | .Z_1 => [20, 26, 24, 18, 23, 25, 21, 19]

namespace BlockSettings

variable (b : BlockSettings)

/-- The nodes of the elements of `BlockGenerator::elements`, for `HEXA20`. -/
def hexa20Elements : List ℕ :=
  (box b.domains).flatMap fun offset =>
    (b.forEachElement (offset * b.elements) ((offset + Triple.const 1) * b.elements) id).flatMap
      fun indices => hexa20Indices.map (indices.getD · 0)

/-- `restriction` of `BlockGenerator::nodesRegion`. -/
def restriction (nbegin nend offset : Triple ℕ) : Triple ℕ :=
  .ofFn fun d => if offset.get d < nbegin.get d then nbegin.get d
    else if nend.get d < offset.get d then nend.get d else offset.get d

/-- **`BlockGenerator::nodesRegion`** for a face of a block of `HEXA20`, behind `region`. -/
def hexa20Region (face : CubeFace) (ebegin eend nbegin nend : Triple ℕ) : List ℕ :=
  sortAndRemoveDuplicity ((b.forEachElement ebegin eend (restriction nbegin nend)).flatMap
    fun indices => (squareNodes face).map (indices.getD · 0))

end BlockSettings

/-! ## The nodes of a mesh -/

/-- `PlainMeshData`, as far as it is about nodes. The node `i` has the ranks from `nrankdist[i]` to
`nrankdist[i + 1]`. -/
structure PlainMeshData where
  nIDs : List ℕ
  coordinates : List (Triple ℚ)
  nrankdist : List ℕ
  nranks : List ℤ
  enodes : List ℕ
  nregions : List (String × List ℕ)

namespace PlainMeshData

variable (data : PlainMeshData)

def ranks (i : ℕ) : List ℤ :=
  window data.nranks (data.nrankdist.getD i 0) (data.nrankdist.getD (i + 1) 0)

def usedNodes : List ℕ := sortAndRemoveDuplicity data.enodes

/-- `noffset`, which is 0 for all other nodes. -/
def noffset : List ℕ :=
  data.usedNodes.zipIdx.foldl (fun noffset p => noffset.set p.1 p.2)
    (List.replicate data.nIDs.length 0)

/-- `nranks` and `ndist` of the loop over the used nodes. -/
def pushRanks : List ℕ → List ℤ × List ℕ → List ℤ × List ℕ
  | [], s => s
  | i :: used, (nranks, ndist) =>
    pushRanks used (nranks ++ data.ranks i, ndist ++ [(nranks ++ data.ranks i).length])

/-- **`GeneratedInput::removeDanglingNodes`** -/
def removeDanglingNodes : PlainMeshData where
  nIDs := gather data.usedNodes data.nIDs
  coordinates := gather data.usedNodes data.coordinates
  nrankdist := (data.pushRanks data.usedNodes ([], [0])).2
  nranks := (data.pushRanks data.usedNodes ([], [0])).1
  enodes := data.enodes.map (data.noffset.getD · 0)
  nregions := data.nregions.map fun region => (region.1, region.2.map (data.noffset.getD · 0))

/-- All arrays have the same nodes. -/
structure Valid : Prop where
  length_coordinates : data.coordinates.length = data.nIDs.length
  length_nrankdist : data.nrankdist.length = data.nIDs.length + 1
  enodes_lt : ∀ i ∈ data.enodes, i < data.nIDs.length
  nregions_lt : ∀ region ∈ data.nregions, ∀ i ∈ region.2, i < data.nIDs.length

def node (i : ℕ) : Option ℕ × Option (Triple ℚ) × List ℤ :=
  (data.nIDs[i]?, data.coordinates[i]?, data.ranks i)

def used : List ℕ := (List.range data.nIDs.length).filter (· ∈ data.enodes)

end PlainMeshData

/-- **The nodes of the elements are left**, in the previous order and with all their data. The
elements have the same nodes as before, and the regions those of their nodes that are left. -/
structure Compacted (data data' : PlainMeshData) : Prop where
  lengths : data'.nIDs.length = data.used.length ∧ data'.coordinates.length = data.used.length
    ∧ data'.nrankdist.length = data.used.length + 1
  nodes : (List.range data.used.length).map data'.node = data.used.map data.node
  elements : data'.enodes.map (data.used[·]?) = data.enodes.map some
  regions : List.Forall₂ (fun region' region => region'.1 = region.1
    ∧ ∀ i : Option ℕ, i ∈ region'.2.map (data.used[·]?)
      ↔ ∃ j ∈ region.2, j ∈ data.enodes ∧ i = some j) data'.nregions data.nregions

namespace PlainMeshData

variable {data : PlainMeshData}

lemma usedNodes_eq (h : data.Valid) : data.usedNodes = data.used := by
  refine List.Pairwise.eq_of_mem_iff (sortAndRemoveDuplicity_sorted _)
    (List.pairwise_lt_range.filter _) fun i => ?_
  rw [usedNodes, mem_sortAndRemoveDuplicity, used, List.mem_filter, List.mem_range,
    decide_eq_true_eq]
  exact ⟨fun hi => ⟨h.enodes_lt i hi, hi⟩, And.right⟩

lemma mem_used {i : ℕ} : i ∈ data.used ↔ i < data.nIDs.length ∧ i ∈ data.enodes := by
  rw [used, List.mem_filter, List.mem_range, decide_eq_true_eq]

lemma nodup_used (data : PlainMeshData) : data.used.Nodup := List.nodup_range.filter _

lemma used_within (data : PlainMeshData) : Within data.used data.nIDs.length :=
  fun _ hi => (mem_used.mp hi).1

/-! ## The offset table -/

lemma getD_foldl_set {keys : List ℕ} (hkeys : keys.Nodup) (k : ℕ) {table : List ℕ} {i : ℕ}
    (hi : i < table.length) :
    ((keys.zipIdx k).foldl (fun table p => table.set p.1 p.2) table).getD i 0
      = if i ∈ keys then k + keys.idxOf i else table.getD i 0 := by
  induction keys generalizing k table with
  | nil => rfl
  | cons key keys ih =>
      obtain ⟨hkey, hkeys⟩ := List.nodup_cons.mp hkeys
      rw [List.zipIdx_cons, List.foldl_cons, ih hkeys (k + 1) (by rwa [List.length_set])]
      by_cases heq : i = key
      · subst heq
        rw [if_neg hkey, if_pos List.mem_cons_self, List.idxOf_cons_self,
          List.getD_eq_getElem _ _ (by rwa [List.length_set]), List.getElem_set_self]
        rfl
      · have hset : (table.set key k).getD i 0 = table.getD i 0 := by
          rw [List.getD_eq_getElem?_getD, List.getD_eq_getElem?_getD,
            List.getElem?_set_ne fun h => heq h.symm]
        by_cases hmem : i ∈ keys
        · rw [if_pos hmem, if_pos (List.mem_cons_of_mem key hmem),
            List.idxOf_cons_ne _ fun h => heq h.symm]
          omega
        · rw [if_neg hmem, if_neg fun h => (List.mem_cons.mp h).elim heq hmem, hset]

lemma used_noffset (h : data.Valid) {i : ℕ} (hi : i < data.nIDs.length) :
    data.used[data.noffset.getD i 0]? = if i ∈ data.enodes then some i else data.used.head? := by
  rw [noffset, usedNodes_eq h, getD_foldl_set data.nodup_used 0 (by rwa [List.length_replicate])]
  by_cases hmem : i ∈ data.enodes
  · have hused := mem_used.mpr ⟨hi, hmem⟩
    rw [if_pos hmem, if_pos hused, Nat.zero_add, List.getElem?_idxOf hused]
  · rw [if_neg hmem, if_neg fun h => hmem (mem_used.mp h).2, List.head?_eq_getElem?,
      List.getD_eq_getElem _ _ (by rwa [List.length_replicate]), List.getElem_replicate]

/-! ## The ranks -/

lemma pushRanks_eq (used : List ℕ) (s : List ℤ × List ℕ) :
    data.pushRanks used s = (s.1 ++ used.flatMap data.ranks,
      s.2 ++ (List.range used.length).map fun j =>
        (s.1 ++ (used.take (j + 1)).flatMap data.ranks).length) := by
  induction used generalizing s with
  | nil => simp [pushRanks]
  | cons i used ih =>
      rw [pushRanks, ih, List.length_cons, List.range_succ_eq_map, List.map_cons, List.map_map]
      simp [List.append_assoc, Function.comp_def]

lemma ranks_removeDanglingNodes (h : data.Valid) {j : ℕ} (hj : j < data.used.length) :
    data.removeDanglingNodes.ranks j = data.ranks data.used[j] := by
  have hdist : ∀ k ≤ data.used.length, data.removeDanglingNodes.nrankdist.getD k 0
      = ((data.used.take k).flatMap data.ranks).length := by
    intro k hk
    rw [removeDanglingNodes, usedNodes_eq h, pushRanks_eq]
    cases k with
    | zero => rfl
    | succ k =>
        rw [List.getD_eq_getElem?_getD, List.getElem?_append_right (Nat.le_add_left 1 k)]
        simp [List.getElem?_range hk]
  have hranks : data.removeDanglingNodes.nranks = data.used.flatMap data.ranks := by
    rw [removeDanglingNodes, usedNodes_eq h, pushRanks_eq]
    rfl
  have hsplit : data.used.flatMap data.ranks = (data.used.take j).flatMap data.ranks
      ++ (data.ranks data.used[j] ++ (data.used.drop (j + 1)).flatMap data.ranks) := by
    rw [← List.flatMap_cons, ← List.flatMap_append, ← List.drop_eq_getElem_cons hj,
      List.take_append_drop]
  have htake : (data.used.take (j + 1)).flatMap data.ranks
      = (data.used.take j).flatMap data.ranks ++ data.ranks data.used[j] := by
    rw [List.take_add_one, List.getElem?_eq_getElem hj, Option.toList_some, List.flatMap_append,
      List.flatMap_singleton]
  rw [ranks, hdist j hj.le, hdist (j + 1) hj, hranks, htake, hsplit, window, List.drop_left,
    List.length_append, Nat.add_sub_cancel_left, List.take_left]

lemma node_removeDanglingNodes (h : data.Valid) {j : ℕ} (hj : j < data.used.length) :
    data.removeDanglingNodes.node j = data.node data.used[j] := by
  have hcoordinates : Within data.used data.coordinates.length := by
    rw [h.length_coordinates]
    exact data.used_within
  have hIDs : data.removeDanglingNodes.nIDs = gather data.used data.nIDs := by
    rw [← usedNodes_eq h]
    rfl
  have hcoord : data.removeDanglingNodes.coordinates = gather data.used data.coordinates := by
    rw [← usedNodes_eq h]
    rfl
  rw [node, ranks_removeDanglingNodes h hj, hIDs, hcoord, getElem?_gather data.used_within,
    getElem?_gather hcoordinates, List.getElem?_eq_getElem hj]
  rfl

lemma map_noffset (h : data.Valid) {nodes : List ℕ} (hnodes : ∀ i ∈ nodes, i < data.nIDs.length) :
    (nodes.map (data.noffset.getD · 0)).map (data.used[·]?)
      = nodes.map fun i => if i ∈ data.enodes then some i else data.used.head? := by
  rw [List.map_map]
  exact List.map_congr_left fun i hi => used_noffset h (hnodes i hi)

lemma first_of_compacted (h : data.Valid) (hcompacted : Compacted data data.removeDanglingNodes)
    {region : String × List ℕ} (hregion : region ∈ data.nregions) {i : ℕ} (hi : i ∈ region.2)
    (hdangling : i ∉ data.enodes) : ∃ first ∈ region.2, data.used.head? = some first := by
  have hnodes := (List.forall₂_same.mp (List.forall₂_map_left_iff.mp hcompacted.regions)
    region hregion).2
  rw [map_noffset h (h.nregions_lt region hregion)] at hnodes
  obtain ⟨first, hfirst, -, heq⟩ := (hnodes data.used.head?).mp
    (List.mem_map.mpr ⟨i, hi, if_neg hdangling⟩)
  exact ⟨first, hfirst, heq⟩

/-- **Which meshes are compacted correctly**: if a region names a node that is removed, it also
names the first node that is left. -/
theorem compacted_iff (data : PlainMeshData) (h : data.Valid) :
    Compacted data data.removeDanglingNodes ↔ ∀ region ∈ data.nregions, ∀ i ∈ region.2,
      i ∉ data.enodes → ∃ first ∈ region.2, data.used.head? = some first := by
  have hused : data.removeDanglingNodes.nIDs.length = data.used.length := by
    rw [← usedNodes_eq h]
    exact length_gather (usedNodes_eq h ▸ data.used_within)
  constructor
  · exact fun hcompacted region hregion i hi => first_of_compacted h hcompacted hregion hi
  · intro hall
    refine ⟨⟨hused, ?_, ?_⟩, ?_, ?_, ?_⟩
    · rw [← usedNodes_eq h]
      refine length_gather ?_
      rw [h.length_coordinates, usedNodes_eq h]
      exact data.used_within
    · rw [removeDanglingNodes, usedNodes_eq h, pushRanks_eq]
      simp [Nat.add_comm]
    · refine List.ext_getElem (by simp) fun j hj hj' => ?_
      rw [List.getElem_map, List.getElem_map, List.getElem_range]
      exact node_removeDanglingNodes h (by simpa using hj')
    · exact (map_noffset h h.enodes_lt).trans (List.map_congr_left fun i hi => if_pos hi)
    · refine List.forall₂_map_left_iff.mpr (List.forall₂_same.mpr fun region hregion =>
        ⟨rfl, fun x => ?_⟩)
      rw [map_noffset h (h.nregions_lt region hregion), List.mem_map]
      constructor
      · rintro ⟨i, hi, rfl⟩
        by_cases hmem : i ∈ data.enodes
        · exact ⟨i, hi, hmem, if_pos hmem⟩
        · obtain ⟨first, hfirst, heq⟩ := hall region hregion i hi hmem
          have hin := (mem_used.mp (List.mem_of_mem_head? heq)).2
          exact ⟨first, hfirst, hin, (if_neg hmem).trans heq⟩
      · rintro ⟨i, hi, hmem, rfl⟩
        exact ⟨i, hi, if_pos hmem⟩

end PlainMeshData

lemma const_one_pos (d : Direction) : 0 < (Triple.const 1).get d := by
  rw [Triple.get_const]
  exact Nat.one_pos

/-- One element of type `HEXA20`. -/
def hexa20Block : BlockSettings where
  element_type := .HEXA20
  domains := Triple.const 1
  elements := Triple.const 1
  start := ⟨0, 0, 0⟩
  end_ := ⟨10000, 10000, 10000⟩
  domains_pos := const_one_pos
  elements_pos := const_one_pos

def hexa20Data (nodes : List ℕ) : PlainMeshData where
  nIDs := List.range 27
  coordinates := hexa20Block.coordinates
  nrankdist := List.range 28
  nranks := List.replicate 27 0
  enodes := hexa20Block.hexa20Elements
  nregions := [("REGION", nodes)]

/-- The nodes at the bottom of the element, with all `x`. -/
def bottomNodes : List ℕ := hexa20Block.hexa20Region .Z_0 ⟨0, 0, 0⟩ ⟨1, 1, 0⟩ ⟨0, 0, 0⟩ ⟨2, 2, 0⟩

/-- The nodes at the bottom of the element, with `x` from 0.5 on. -/
def rightNodes : List ℕ := hexa20Block.hexa20Region .Z_0 ⟨0, 0, 0⟩ ⟨1, 1, 0⟩ ⟨1, 0, 0⟩ ⟨2, 2, 0⟩

lemma hexa20Elements_lt : ∀ i ∈ hexa20Block.hexa20Elements, i < 27 := by decide

lemma hexa20Data_valid {nodes : List ℕ} (h : ∀ i ∈ nodes, i < 27) : (hexa20Data nodes).Valid where
  length_coordinates := by
    change ((box (hexa20Block.count + Triple.const 1)).map hexa20Block.coordinate).length = 27
    rw [List.length_map]
    decide
  length_nrankdist := rfl
  enodes_lt := hexa20Elements_lt
  nregions_lt := fun region hregion => by
    rw [List.mem_singleton.mp hregion]
    exact h

lemma used_head : (hexa20Data []).used.head? = some 0 := by decide

theorem compacted_bottomNodes :
    Compacted (hexa20Data bottomNodes) (hexa20Data bottomNodes).removeDanglingNodes := by
  have hall : ∀ i ∈ bottomNodes, i < 27 ∧ i ∈ hexa20Block.hexa20Elements := fun i hi => by
    rw [bottomNodes, BlockSettings.hexa20Region, mem_sortAndRemoveDuplicity] at hi
    revert i
    decide
  refine (PlainMeshData.compacted_iff _ (hexa20Data_valid fun i hi => (hall i hi).1)).mpr
    fun region hregion i hi hdangling => ?_
  rw [List.mem_singleton.mp hregion] at hi
  exact absurd (hall i hi).2 hdangling

/-- The region that begins inside the element gets the corner at `x = 0`. -/
theorem not_compacted_rightNodes : (hexa20Data rightNodes).Valid
    ∧ ¬ Compacted (hexa20Data rightNodes) (hexa20Data rightNodes).removeDanglingNodes := by
  have hmem : ∀ i, i ∈ rightNodes ↔ i ∈ (hexa20Block.forEachElement ⟨0, 0, 0⟩ ⟨1, 1, 0⟩
      (BlockSettings.restriction ⟨1, 0, 0⟩ ⟨2, 2, 0⟩)).flatMap fun indices =>
        (squareNodes .Z_0).map (indices.getD · 0) := fun i => mem_sortAndRemoveDuplicity
  have hvalid : (hexa20Data rightNodes).Valid := hexa20Data_valid fun i hi => by
    rw [hmem] at hi
    revert i
    decide
  refine ⟨hvalid, fun hcompacted => ?_⟩
  have hdangling : 4 ∈ rightNodes := (hmem 4).mpr (by decide)
  obtain ⟨first, hfirst, heq⟩ := PlainMeshData.first_of_compacted hvalid hcompacted
    (List.mem_singleton_self _) hdangling (by decide)
  have hzero : some 0 = some first := used_head.symm.trans heq
  cases hzero
  exact absurd ((hmem 0).mp hfirst) (by decide)

end Espreso.Generator
