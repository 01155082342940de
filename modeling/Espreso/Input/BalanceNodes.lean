import Espreso.Input.BalanceElements
import Mathlib.Data.List.GetD

/-!
# Balancing of sorted nodes

`Input::balanceNodes` gives all ranks the same number of nodes, which are sorted by their IDs. Then
the ranks agree about the ranges of their IDs.

* `NodeData` — the nodes of a rank.
* `BalanceNodes` — the whole function on all ranks.
* **`ranged_iff`** — when each rank has nodes, and the ranges are those of its IDs.
-/

namespace Espreso

namespace Input

variable {Point : Type} [Inhabited Point]

/-- The arrays of `PlainMeshData` that describe the nodes of a rank. -/
structure NodeData (Point : Type) where
  nIDs : List ℕ
  coordinates : List Point

def cCurrent (size : ℕ) (M : ℕ → NodeData Point) : List ℕ :=
  getDistribution size fun r => (M r).nIDs.length

/-- `_nDistribution`, as long as it is the target of balancing. -/
def cTarget (size : ℕ) (M : ℕ → NodeData Point) : List ℕ :=
  distribute size ((cCurrent size M).getD size 0)

/-- **`Input::balanceNodes`** of all ranks: both buffers are balanced, a point has 24 bytes. Then
each rank reads the last one of its IDs, and all of them replace the borders behind the first one.
-/
structure BalanceNodes (size : ℕ) (M out : ℕ → NodeData Point) (nDistribution : List ℕ) : Prop where
  nIDs : Balanced 1 size (cCurrent size M) (cTarget size M) (fun r => (M r).nIDs)
    fun r => (out r).nIDs
  coordinates : Balanced 24 size (cCurrent size M) (cTarget size M) (fun r => (M r).coordinates)
    fun r => (out r).coordinates
  length : nDistribution.length = size + 1
  first : nDistribution[0]? = (cTarget size M)[0]?
  back : ∀ r < size, ∃ back, (out r).nIDs.getLast? = some back ∧
    nDistribution[r + 1]? = some (back + 1)

/-- **Sorted nodes on all ranks**: their IDs ascend, also from rank to rank. -/
structure SortedNodes (Point : Type) where
  size : ℕ
  size_pos : 0 < size
  data : ℕ → NodeData Point
  coordinates : ∀ r < size, (data r).coordinates.length = (data r).nIDs.length
  ascending : ((List.range size).flatMap fun r => (data r).nIDs).Pairwise (· < ·)

namespace SortedNodes

variable (N : SortedNodes Point)

abbrev total : ℕ := ((List.range N.size).map fun r => (N.data r).nIDs.length).sum

/-- **The ranges are right**: each rank has a node, the borders do not decrease, and the IDs of a
rank lie between its borders. There are the same nodes as before. -/
def Ranged : Prop :=
  ∃ out nDistribution, BalanceNodes N.size N.data out nDistribution ∧
    (∀ r < N.size, (out r).nIDs ≠ []) ∧ nDistribution.Pairwise (· ≤ ·) ∧
    (∀ r < N.size, ∀ id ∈ (out r).nIDs, ∃ low high, nDistribution[r]? = some low ∧
      nDistribution[r + 1]? = some high ∧ low ≤ id ∧ id < high) ∧
    ((List.range N.size).flatMap fun r => (out r).nIDs)
      = ((List.range N.size).flatMap fun r => (N.data r).nIDs) ∧
    ((List.range N.size).flatMap fun r => (out r).coordinates)
      = (List.range N.size).flatMap fun r => (N.data r).coordinates

abbrev current : Distribution N.size N.total :=
  Distribution.ofSizes N.size fun r => (N.data r).nIDs.length

abbrev target : Distribution N.size N.total := Distribution.uniform N.size_pos N.total

omit [Inhabited Point] in
lemma cTarget_eq : cTarget N.size N.data = N.target.borders := by
  have hlast : (cCurrent N.size N.data)[N.size]? = some N.total := N.current.last
  rw [cTarget, List.getD_eq_getElem?_getD, hlast, Option.getD_some]
  rfl

abbrev whole : List ℕ := (List.range N.size).flatMap fun r => (N.data r).nIDs

omit [Inhabited Point] in
lemma length_whole : N.whole.length = N.total := List.length_flatMap

abbrev part (r : ℕ) : List ℕ := window N.whole (N.target.border r) (N.target.border (r + 1))

def idBorder (r : ℕ) : ℕ := if r = 0 then 0 else N.whole.getD (N.target.border r - 1) 0 + 1

section Ranges

variable {N} (hlast : N.target.border (N.size - 1) < N.target.border N.size)

include hlast

omit [Inhabited Point] in
lemma getLast?_part {r : ℕ} (hr : r < N.size) :
    (N.part r).getLast? = some (N.whole.getD (N.target.border (r + 1) - 1) 0) := by
  have hlt : N.target.border r < N.target.border (r + 1) := uniform_border_lt hlast hr
  have hend : N.target.border (r + 1) ≤ N.whole.length := by
    rw [N.length_whole]
    exact N.target.border_le_total hr
  have hin : N.target.border (r + 1) - 1 < N.whole.length := by omega
  have hindex : N.target.border r + (N.target.border (r + 1) - N.target.border r - 1)
      = N.target.border (r + 1) - 1 := by omega
  rw [List.getLast?_eq_getElem?, length_window _ hend, part, window,
    List.getElem?_take_of_lt (by omega), List.getElem?_drop, hindex, List.getD_eq_getElem _ _ hin,
    List.getElem?_eq_getElem hin]

omit [Inhabited Point] in
lemma idBorder_le {r id : ℕ} (hr : r < N.size) (hid : id ∈ N.part r) :
    N.idBorder r ≤ id ∧ id < N.idBorder (r + 1) := by
  have hascending := List.pairwise_iff_getElem.mp N.ascending
  have hlt : N.target.border r < N.target.border (r + 1) := uniform_border_lt hlast hr
  have hend : N.target.border (r + 1) ≤ N.whole.length := by
    rw [N.length_whole]
    exact N.target.border_le_total hr
  obtain ⟨k, hk, rfl⟩ := List.mem_iff_getElem.mp hid
  rw [length_window _ hend] at hk
  have hget : (N.part r)[k] = N.whole[N.target.border r + k] := by
    simp only [window, List.getElem_take, List.getElem_drop]
  rw [hget]
  constructor
  · rw [idBorder]
    split_ifs with hzero
    · exact Nat.zero_le _
    · -- the last node of the previous rank is in front
      have hpos : N.target.border (r - 1) < N.target.border r := by
        have h := uniform_border_lt hlast (show r - 1 < N.size by omega)
        rwa [show r - 1 + 1 = r by omega] at h
      rw [List.getD_eq_getElem _ _ (by omega)]
      exact hascending _ _ _ _ (by omega)
  · rw [idBorder, if_neg (Nat.succ_ne_zero r), List.getD_eq_getElem _ _ (by omega)]
    rcases Nat.eq_or_lt_of_le (show N.target.border r + k ≤ N.target.border (r + 1) - 1 by omega)
      with heq | hbefore
    · simp only [heq]
      exact Nat.lt_succ_self _
    · exact Nat.lt_succ_of_lt (hascending _ _ _ _ hbefore)

omit [Inhabited Point] in
lemma idBorder_mono {r q : ℕ} (hrq : r ≤ q) (hq : q ≤ N.size) : N.idBorder r ≤ N.idBorder q := by
  induction q with
  | zero =>
      obtain rfl := Nat.le_zero.mp hrq
      exact le_rfl
  | succ q ih =>
      rcases Nat.eq_or_lt_of_le hrq with rfl | hlt
      · exact le_rfl
      · refine (ih (Nat.le_of_lt_succ hlt) (Nat.le_of_succ_le hq)).trans ?_
        obtain ⟨id, hid⟩ : ∃ id, id ∈ N.part q :=
          ⟨_, List.mem_of_getLast? (getLast?_part hlast (show q < N.size from hq))⟩
        have h := idBorder_le hlast (show q < N.size from hq) hid
        omega

end Ranges

omit [Inhabited Point] in
lemma length_eq_border {r : ℕ} (hr : r < N.size) :
    (N.data r).nIDs.length = N.current.border (r + 1) - N.current.border r := by
  rw [Distribution.ofSizes_border_succ hr, Nat.add_sub_cancel_left]

lemma last_lt_of_ranged (h : N.Ranged) :
    N.target.border (N.size - 1) < N.target.border N.size := by
  obtain ⟨out, nDistribution, hout, hnonempty, -⟩ := h
  have hlast : N.size - 1 < N.size := Nat.sub_lt N.size_pos Nat.one_pos
  have hIDs := hout.nIDs
  rw [cTarget_eq] at hIDs
  have heq := hIDs.eq_window N.current N.target (fun r hr => N.length_eq_border hr) hlast
  by_contra hempty
  refine hnonempty _ hlast ?_
  rw [heq, Nat.sub_add_cancel N.size_pos, window,
    show N.target.border N.size - N.target.border (N.size - 1) = 0 from
      Nat.sub_eq_zero_of_le (not_lt.mp hempty), List.take_zero]

/-- **The ranges of IDs are right** if and only if the points fit into a message, and the chunks of
`tarray::distribute` leave a node for the last rank. -/
theorem ranged_iff : N.Ranged ↔
    (∀ r < N.size, 24 * (N.data r).nIDs.length ≤ limit) ∧
      (N.size - 1) * ((N.total + N.size - 1) / N.size) < N.total := by
  have hiff : (N.size - 1) * ((N.total + N.size - 1) / N.size) < N.total ↔
      N.target.border (N.size - 1) < N.target.border N.size := uniform_last_pos_iff N.size_pos _
  rw [hiff]
  have hcoordinates : ∀ r < N.size, (N.data r).coordinates.length
      = N.current.border (r + 1) - N.current.border r := fun r hr =>
    (N.coordinates r hr).trans (N.length_eq_border hr)
  constructor
  · intro h
    refine ⟨fun r hr => ?_, N.last_lt_of_ranged h⟩
    obtain ⟨out, nDistribution, hout, -⟩ := h
    rw [← N.coordinates r hr]
    exact hout.coordinates.fits hr
  · rintro ⟨hfits, hlast⟩
    have hmoved := balanced_window N.current N.target 1 (fun r hr => N.length_eq_border hr) fun r hr => by
      have := hfits r hr
      omega
    have hpoints := balanced_window N.current N.target 24 hcoordinates fun r hr => by
      rw [N.coordinates r hr]
      exact hfits r hr
    have hpointsLength : ((List.range N.size).flatMap fun r => (N.data r).coordinates).length
        = N.total := by
      rw [List.length_flatMap]
      exact congrArg List.sum (List.map_congr_left fun r hr =>
        N.coordinates r (List.mem_range.mp hr))
    refine ⟨fun r => ⟨N.part r, window ((List.range N.size).flatMap fun r => (N.data r).coordinates)
      (N.target.border r) (N.target.border (r + 1))⟩, (List.range (N.size + 1)).map N.idBorder,
      ⟨?_, ?_, ?_, ?_, ?_⟩, ?_, ?_, ?_, ?_, ?_⟩
    · rw [cTarget_eq]
      exact hmoved
    · rw [cTarget_eq]
      exact hpoints
    · rw [List.length_map, List.length_range]
    · rw [cTarget_eq, N.target.first, List.getElem?_map,
        List.getElem?_range (Nat.succ_pos N.size), Option.map_some, idBorder, if_pos rfl]
    · intro r hr
      refine ⟨_, getLast?_part hlast hr, ?_⟩
      rw [List.getElem?_map, List.getElem?_range (by omega), Option.map_some, idBorder,
        if_neg (Nat.succ_ne_zero r)]
    · intro r hr hempty
      have h := getLast?_part hlast hr
      rw [show N.part r = [] from hempty] at h
      exact absurd h (by simp)
    · refine List.pairwise_map.mpr (List.pairwise_lt_range.imp_of_mem fun {r q} _ hq h => ?_)
      exact idBorder_mono hlast h.le (Nat.le_of_lt_succ (List.mem_range.mp hq))
    · intro r hr id hid
      have h := idBorder_le hlast hr hid
      refine ⟨_, _, ?_, ?_, h.1, h.2⟩
      · rw [List.getElem?_map, List.getElem?_range (by omega), Option.map_some]
      · rw [List.getElem?_map, List.getElem?_range (by omega), Option.map_some]
    · exact Partition.flatMap_all N.target N.length_whole
    · exact Partition.flatMap_all N.target hpointsLength

/-! ## More ranks than chunks -/

def fiveNodes : ℕ → NodeData ℕ
  | 0 => ⟨[0, 1], [0, 0]⟩
  | 1 => ⟨[2, 3, 4], [0, 0, 0]⟩
  | _ => ⟨[], []⟩

lemma fiveNodes_coordinates (r : ℕ) (_ : r < 4) :
    (fiveNodes r).coordinates.length = (fiveNodes r).nIDs.length :=
  match r with
  | 0 | 1 | _ + 2 => rfl

lemma fiveNodes_ascending :
    ((List.range 4).flatMap fun r => (fiveNodes r).nIDs).Pairwise (· < ·) := by decide

lemma fiveNodes_ranks : 0 < 4 := by decide

def fiveSorted : SortedNodes ℕ :=
  ⟨4, fiveNodes_ranks, fiveNodes, fiveNodes_coordinates, fiveNodes_ascending⟩

/-- Two nodes for each of the first ranks leave none for the last one. -/
theorem fiveNodes_not_ranged : ¬fiveSorted.Ranged := by
  intro h
  exact absurd (fiveSorted.last_lt_of_ranged h) (by decide)

end SortedNodes

end Input

end Espreso
