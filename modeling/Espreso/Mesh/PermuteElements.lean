import Espreso.Mesh.ElementMesh

/-!
# Permuted elements

`MeshPreprocessing::permuteElements` reorders the elements of each rank and renumbers them. Links to
elements of other ranks are renumbered by the pairs of old and new IDs that neighbours send.

* `newID` — the renumbering, and `remap_eq`: each rank applies it to own and foreign elements.
* **`elements_renumbered`** — all ranks together apply one renumbering.
-/

namespace Espreso

open Reorder

namespace ElementPart

variable (P : ElementPart) (IDBoundaries permutation : List ℕ)

/-- The pairs of old and new IDs for the own elements of node `n`. -/
def moved (n : ℕ) : List (ℕ × ℕ) :=
  let begine := IDBoundaries.getD P.rank 0
  let ende := IDBoundaries.getD (P.rank + 1) 0
  ((P.links.row n).filter fun e => (begine : ℤ) ≤ e ∧ e < ende).map fun e =>
    (e.toNat, (backpermutation permutation).getD (e.toNat - begine) 0 + begine)

/-- What thread `t` adds to the buffers of the other ranks of its nodes. -/
def pushes (t : ℕ) : List (ℕ × ℕ × ℕ) :=
  let distribution := distribute P.threads P.nIDs.length
  (List.range' (distribution.getD t 0)
    (distribution.getD (t + 1) 0 - distribution.getD t 0)).flatMap fun n =>
    ((P.ranks.getD n []).filter (· ≠ P.rank)).flatMap fun rank =>
      (P.moved IDBoundaries permutation n).map fun e => (P.n2i rank, e)

/-- `sHalo[0]` behind `mergeThreadedUniqueData`. There is no result if a rank is not a neighbour. -/
def sHalo : Option (ℕ → List (ℕ × ℕ)) :=
  if ∀ t < P.threads, ∀ p ∈ P.pushes IDBoundaries permutation t, p.1 < P.neighbours.length then
    some fun i => mergeThreadedUniqueData ((List.range P.threads).map fun t =>
      sortAndRemoveDuplicityPairs
        (((P.pushes IDBoundaries permutation t).filter fun p => p.1 = i).map Prod.snd))
  else none

/-- The new ID of an element in the lambda `globalremap`. -/
def remap (rHalo : ℕ → List (ℕ × ℕ)) (n : ℤ) : Option ℤ :=
  if 0 ≤ n then
    let source := lowerBound IDBoundaries (n.toNat + 1) - 1
    if source = P.rank then
      let begine := IDBoundaries.getD P.rank 0
      ((backpermutation permutation)[n.toNat - begine]?).map fun p => ((begine + p : ℕ) : ℤ)
    else if P.n2i source < P.neighbours.length then
      let halo := rHalo (P.n2i source)
      (halo[lowerBound (halo.map toLex) (toLex (n.toNat, 0))]?).map fun p => (p.2 : ℤ)
    else none
  else some n

/-- The lambda `globalremap`. The rows keep their places. -/
def globalremap (rHalo : ℕ → List (ℕ × ℕ)) (data : Serialized ℤ) (sort : Bool) :
    Option (Serialized ℤ) := do
  let rows ← data.rows.mapM fun row => do
    let row ← row.mapM (P.remap IDBoundaries permutation rHalo)
    pure (if sort then row.mergeSort else row)
  pure ⟨data.boundaries, rows.flatten⟩

/-- The permuted rows of `neighbors`, if there are any. -/
def renumberNeighbors (border : ℕ → ℕ) (rHalo : ℕ → List (ℕ × ℕ)) :
    Option (Option (Serialized ℤ)) :=
  match P.neighbors with
  | none => some none
  | some neighbors => (P.globalremap IDBoundaries permutation rHalo
      (neighbors.permuteNonUniformData P.threads permutation border) false).map some

/-- What a rank does behind the exchange. The elements are permuted by `ElementStore::permute`,
where thread `t` has those from `border t` to `border (t + 1)`. -/
def renumber (border : ℕ → ℕ) (rHalo : ℕ → List (ℕ × ℕ)) : Option ElementPart := do
  let firstID ← P.IDs.head?
  let neighbors ← P.renumberNeighbors IDBoundaries permutation border rHalo
  let links ← P.globalremap IDBoundaries permutation rHalo P.links true
  let regions ← P.regions.mapM fun region =>
    (region.mapM fun n => (backpermutation permutation)[n]?).map fun region => region.mergeSort
  pure { P with
    links := links
    IDs := List.range' firstID
      (permuteUniformData 1 P.threads permutation border P.IDs).length
    nodes := P.nodes.permuteNonUniformData P.threads permutation border
    body := permuteUniformData 1 P.threads permutation border P.body
    material := permuteUniformData 1 P.threads permutation border P.material
    neighbors := neighbors
    regions := regions }

end ElementPart

namespace ElementMesh

variable (M : ElementMesh)

/-- A permutation of the elements of each rank, and the ranges of its threads. -/
structure Permutations where
  permutation : ℕ → List ℕ
  distribution : ∀ r, Distribution (M.part r).threads (M.part r).IDs.length
  perm : ∀ r < M.size, (permutation r).Perm (List.range (M.part r).IDs.length)

variable {M}

/-- **`MeshPreprocessing::permuteElements`** on all ranks, behind `linkNodesAndElements`. A pair of
IDs has eight bytes. -/
def Permutations.permuteElements (R : M.Permutations) : Option (List ElementPart) := do
  let sHalo ← (List.range M.size).mapM fun r =>
    (M.part r).sHalo M.boundaries (R.permutation r)
  let rHalo ← exchangeUnknownSize M.size 8 (fun r => (M.part r).neighbours) fun r i =>
    (sHalo.getD r fun _ => []) i
  (List.range M.size).mapM fun r =>
    (M.part r).renumber M.boundaries (R.permutation r) (R.distribution r).border (rHalo r)

namespace Permutations

variable (R : M.Permutations)

/-- **The renumbering**: an element keeps its rank and gets its position in the permutation. -/
def newID (e : ℕ) : ℕ :=
  let r := lowerBound M.boundaries (e + 1) - 1
  M.begine r + (R.permutation r).idxOf (e - M.begine r)

/-- The same for an entry of `neighbors`, where `-1` is no element. -/
def newLink (v : ℤ) : ℤ := if 0 ≤ v then R.newID v.toNat else v

/-- **Rank `r` is renumbered.** The element at position `i` moves to position `j`, together with its
data; all links to elements are renumbered, those of nodes are sorted again, and a region has the
same elements. -/
structure Moved (r : ℕ) (P : ElementPart) : Prop where
  IDs_eq : P.IDs = (M.part r).IDs
  element : ∀ i j : ℕ, (R.permutation r)[j]? = some i →
    P.IDs[j]? = some (R.newID (M.begine r + i)) ∧ P.nodes.row j = (M.part r).nodes.row i ∧
      P.body[j]? = (M.part r).body[i]? ∧ P.material[j]? = (M.part r).material[i]?
  neighbors_none : (M.part r).neighbors = none → P.neighbors = none
  neighbors_some : ∀ N, (M.part r).neighbors = some N → ∃ N', P.neighbors = some N' ∧
    ∀ i j : ℕ, (R.permutation r)[j]? = some i → N'.row j = (N.row i).map R.newLink
  links_row : ∀ n < (M.part r).nIDs.length, (P.links.row n).Pairwise (· < ·) ∧
    (P.links.row n).Perm (((M.part r).links.row n).map R.newLink)
  regions_length : P.regions.length = (M.part r).regions.length
  region : ∀ (k : ℕ) (old new : List ℕ), (M.part r).regions[k]? = some old →
    P.regions[k]? = some new → new.Pairwise (· ≤ ·) ∧
      new.Perm (old.map fun i => (R.permutation r).idxOf i)
  nodes_kept : P.nIDs = (M.part r).nIDs ∧ P.ranks = (M.part r).ranks ∧
    P.neighbours = (M.part r).neighbours

/-- **One consistent renumbering**: it permutes all IDs, and each rank is renumbered by it. -/
structure Renumbered (out : List ElementPart) : Prop where
  bijective : Set.BijOn R.newID (Set.Iio (M.begine M.size)) (Set.Iio (M.begine M.size))
  newID_eq : ∀ r < M.size, ∀ i j : ℕ, (R.permutation r)[j]? = some i →
    R.newID (M.begine r + i) = M.begine r + j
  parts : ∀ r < M.size, ∃ P, out[r]? = some P ∧ R.Moved r P

end Permutations

/-! ## The pairs -/

lemma getElem?_lowerBound_pair {l : List (ℕ × ℕ)} (hl : (l.map toLex).Pairwise (· ≤ ·)) {n v : ℕ}
    (hmem : (n, v) ∈ l) (hunique : ∀ w, (n, w) ∈ l → w = v) :
    l[lowerBound (l.map toLex) (toLex (n, 0))]? = some (n, v) := by
  obtain ⟨m, hm⟩ := List.mem_iff_getElem?.mp hmem
  have hm' : (l.map toLex)[m]? = some (toLex (n, v)) := by rw [List.getElem?_map, hm, Option.map_some]
  have hle : lowerBound (l.map toLex) (toLex (n, 0)) ≤ m := by
    by_contra hlt
    rcases Prod.Lex.toLex_lt_toLex.mp (lt_of_lt_lowerBound (not_le.mp hlt) hm') with h | ⟨-, h⟩
    · exact lt_irrefl n h
    · exact Nat.not_lt_zero v h
  have hk : lowerBound (l.map toLex) (toLex (n, 0)) < l.length :=
    hle.trans_lt (List.getElem?_eq_some_iff.mp hm).1
  generalize hk' : lowerBound (l.map toLex) (toLex (n, 0)) = k at hle hk
  have hget := List.getElem?_eq_getElem hk
  have hget' : (l.map toLex)[k]? = some (toLex l[k]) := by rw [List.getElem?_map, hget, Option.map_some]
  have hlow := le_of_eq_lowerBound hk'.symm hget'
  have hhigh : toLex l[k] ≤ toLex (n, v) := by
    rcases Nat.eq_or_lt_of_le hle with rfl | hlt
    · rw [Option.some.inj (hget.symm.trans hm)]
    · have h := List.pairwise_iff_getElem.mp hl k m (by rwa [List.length_map])
        (List.getElem?_eq_some_iff.mp hm').1 hlt
      rwa [List.getElem_map, (List.getElem?_eq_some_iff.mp hm').2] at h
  have hfst : l[k].1 = n := by
    rcases Prod.Lex.toLex_le_toLex.mp hlow with h | ⟨h, -⟩
    · rcases Prod.Lex.toLex_le_toLex.mp hhigh with h' | ⟨h', -⟩
      · exact absurd h h'.le.not_gt
      · exact h'
    · exact h.symm
  have hpair : (n, l[k].2) ∈ l := by
    rw [← hfst]
    exact List.getElem_mem hk
  rw [hget]
  exact congrArg some (Prod.ext hfst (hunique _ hpair))

namespace Permutations

variable (R : M.Permutations)

section

variable {R} {r : ℕ} (hr : r < M.size)

include hr

lemma length_permutation : (R.permutation r).length = (M.part r).IDs.length := by
  rw [(R.perm r hr).length_eq, List.length_range]

lemma lt_of_permutation {i j : ℕ} (h : (R.permutation r)[j]? = some i) :
    i < (M.part r).IDs.length ∧ j < (M.part r).IDs.length := by
  refine ⟨List.mem_range.mp ((R.perm r hr).mem_iff.mp (List.mem_of_getElem? h)), ?_⟩
  rw [← length_permutation hr (R := R)]
  exact (List.getElem?_eq_some_iff.mp h).1

lemma exists_position {i : ℕ} (hi : i < (M.part r).IDs.length) :
    ∃ j : ℕ, (R.permutation r)[j]? = some i :=
  List.mem_iff_getElem?.mp ((R.perm r hr).mem_iff.mpr (List.mem_range.mpr hi))

lemma idxOf_eq {i j : ℕ} (h : (R.permutation r)[j]? = some i) :
    (R.permutation r).idxOf i = j := by
  have hnodup : (R.permutation r).Nodup := (R.perm r hr).nodup_iff.mpr List.nodup_range
  obtain ⟨hj, rfl⟩ := List.getElem?_eq_some_iff.mp h
  exact hnodup.idxOf_getElem j hj

lemma newID_eq {i j : ℕ} (h : (R.permutation r)[j]? = some i) :
    R.newID (M.begine r + i) = M.begine r + j := by
  have hi := (lt_of_permutation hr h).1
  rw [newID, source_eq hr (Nat.le_add_right _ _) (by rw [begine_succ]; omega)]
  rw [Nat.add_sub_cancel_left, idxOf_eq hr h]

end

lemma newID_bijOn : Set.BijOn R.newID (Set.Iio (M.begine M.size)) (Set.Iio (M.begine M.size)) := by
  have hold : ∀ e < M.begine M.size, ∃ r < M.size, ∃ i j : ℕ, e = M.begine r + i ∧
      (R.permutation r)[j]? = some i := by
    intro e he
    obtain ⟨r, hr, hlow, hhigh⟩ := exists_rank he
    rw [begine_succ] at hhigh
    obtain ⟨j, hj⟩ := exists_position (R := R) hr (show e - M.begine r < _ by omega)
    exact ⟨r, hr, e - M.begine r, j, by omega, hj⟩
  have hin : ∀ r < M.size, ∀ j < (M.part r).IDs.length, M.begine r + j < M.begine (r + 1) ∧
      M.begine r + j < M.begine M.size := by
    intro r hr j hj
    have hle := begine_mono (M := M) (show r + 1 ≤ M.size from hr) le_rfl
    rw [begine_succ] at hle ⊢
    omega
  refine ⟨?_, ?_, ?_⟩
  · intro e he
    obtain ⟨r, hr, i, j, rfl, hj⟩ := hold e he
    rw [newID_eq hr hj]
    exact (hin r hr j (lt_of_permutation hr hj).2).2
  · intro e he f hf heq
    obtain ⟨r, hr, i, j, rfl, hj⟩ := hold e he
    obtain ⟨q, hq, i', j', rfl, hj'⟩ := hold f hf
    rw [newID_eq hr hj, newID_eq hq hj'] at heq
    have h₁ := source_eq hr (Nat.le_add_right _ j) (hin r hr j (lt_of_permutation hr hj).2).1
    have h₂ := source_eq hq (Nat.le_add_right _ j') (hin q hq j' (lt_of_permutation hq hj').2).1
    rw [heq, h₂] at h₁
    subst h₁
    obtain rfl : j = j' := by omega
    rw [Option.some.inj (hj.symm.trans hj')]
  · intro e he
    obtain ⟨r, hr, hlow, hhigh⟩ := exists_rank he
    rw [begine_succ] at hhigh
    have hj : e - M.begine r < (R.permutation r).length := by
      rw [length_permutation hr]
      omega
    have hget := List.getElem?_eq_getElem hj
    refine ⟨M.begine r + (R.permutation r)[e - M.begine r], ?_, ?_⟩
    · exact (hin r hr _ (lt_of_permutation hr hget).1).2
    · rw [newID_eq hr hget]
      omega

/-! ## What neighbours send -/

/-- What rank `r` sends to its neighbour at position `i`. -/
def halo (r : ℕ) : ℕ → List (ℕ × ℕ) :=
  ((M.part r).sHalo M.boundaries (R.permutation r)).getD fun _ => []

section

variable {R} {r : ℕ} (hr : r < M.size)

include hr

lemma getElem?_backpermutation_sub {e : ℕ} (hlow : M.begine r ≤ e) (hhigh : e < M.begine (r + 1)) :
    ∃ p : ℕ, (backpermutation (R.permutation r))[e - M.begine r]? = some p ∧
      R.newID e = M.begine r + p := by
  rw [begine_succ] at hhigh
  obtain ⟨j, hj⟩ := exists_position (R := R) hr (show e - M.begine r < _ by omega)
  refine ⟨j, getElem?_backpermutation (R.perm r hr) hj, ?_⟩
  have hnew := newID_eq hr hj
  rwa [Nat.add_sub_cancel' hlow] at hnew

lemma mem_moved {n x a b : ℕ} (hx : (M.part r).nIDs[n]? = some x) :
    (a, b) ∈ (M.part r).moved M.boundaries (R.permutation r) n ↔
      (M.begine r ≤ a ∧ a < M.begine (r + 1)) ∧ ContainsNode M.size M.part x a ∧ b = R.newID a := by
  have hlinks := (M.links_exact r hr n x hx).2
  simp only [ElementPart.moved, M.rank_eq r hr, boundaries_getD hr.le,
    boundaries_getD (show r + 1 ≤ M.size from hr), List.mem_map, List.mem_filter, decide_eq_true_eq]
  constructor
  · rintro ⟨v, ⟨hv, hlow, hhigh⟩, heq⟩
    obtain ⟨e, rfl, hcontains⟩ := (hlinks v).mp hv
    obtain ⟨p, hp, hnew⟩ := getElem?_backpermutation_sub (R := R) hr (e := e) (by omega) (by omega)
    rw [Int.toNat_natCast, List.getD_eq_getElem?_getD, hp, Option.getD_some] at heq
    obtain ⟨rfl, rfl⟩ := Prod.mk.inj heq
    exact ⟨⟨by omega, by omega⟩, hcontains, by omega⟩
  · rintro ⟨⟨hlow, hhigh⟩, hcontains, rfl⟩
    obtain ⟨p, hp, hnew⟩ := getElem?_backpermutation_sub (R := R) hr hlow hhigh
    refine ⟨a, ⟨(hlinks a).mpr ⟨a, rfl, hcontains⟩, by omega, by omega⟩, ?_⟩
    rw [Int.toNat_natCast, List.getD_eq_getElem?_getD, hp, Option.getD_some, hnew, Nat.add_comm]

lemma mem_pushes {p : ℕ × ℕ × ℕ} :
    (∃ t < (M.part r).threads, p ∈ (M.part r).pushes M.boundaries (R.permutation r) t) ↔
      ∃ n x q : ℕ, (M.part r).nIDs[n]? = some x ∧ q < M.size ∧ x ∈ (M.part q).nIDs ∧ q ≠ r ∧
        p.1 = (M.part r).n2i q ∧ p.2 ∈ (M.part r).moved M.boundaries (R.permutation r) n := by
  have hall := flatMap_distribute (M.threads_pos r hr) (M.part r).nIDs.length
  have hmem : (∃ t < (M.part r).threads,
      p ∈ (M.part r).pushes M.boundaries (R.permutation r) t) ↔
      ∃ n < (M.part r).nIDs.length, ∃ q ∈ (M.part r).ranks.getD n [], q ≠ (M.part r).rank ∧
        ∃ e ∈ (M.part r).moved M.boundaries (R.permutation r) n, ((M.part r).n2i q, e) = p := by
    have hflat : (∃ t < (M.part r).threads,
        p ∈ (M.part r).pushes M.boundaries (R.permutation r) t) ↔
        p ∈ (List.range (M.part r).threads).flatMap
          ((M.part r).pushes M.boundaries (R.permutation r)) := by
      simp only [List.mem_flatMap, List.mem_range]
    have hpushes : (List.range (M.part r).threads).flatMap
        ((M.part r).pushes M.boundaries (R.permutation r))
        = (List.range (M.part r).nIDs.length).flatMap fun n =>
          (((M.part r).ranks.getD n []).filter (· ≠ (M.part r).rank)).flatMap fun rank =>
            ((M.part r).moved M.boundaries (R.permutation r) n).map fun e =>
              ((M.part r).n2i rank, e) := by
      rw [← hall, List.flatMap_assoc]
      rfl
    rw [hflat, hpushes]
    simp only [List.mem_flatMap, List.mem_range, List.mem_filter, List.mem_map, decide_eq_true_eq,
      and_assoc]
  rw [hmem, M.rank_eq r hr]
  constructor
  · rintro ⟨n, hn, q, hq, hne, e, he, rfl⟩
    have hget := List.getElem?_eq_getElem hn
    rw [List.getD_eq_getElem?_getD, M.ranks_exact r hr n _ hget, Option.getD_some, List.mem_filter,
      List.mem_range, decide_eq_true_eq] at hq
    exact ⟨n, _, q, hget, hq.1, hq.2, hne, rfl, he⟩
  · rintro ⟨n, x, q, hx, hq, hmem, hne, hindex, he⟩
    refine ⟨n, (List.getElem?_eq_some_iff.mp hx).1, q, ?_, hne, p.2, he, Prod.ext hindex.symm rfl⟩
    rw [List.getD_eq_getElem?_getD, M.ranks_exact r hr n x hx, Option.getD_some, List.mem_filter,
      List.mem_range, decide_eq_true_eq]
    exact ⟨hq, hmem⟩

lemma sHalo_eq : (M.part r).sHalo M.boundaries (R.permutation r) = some (R.halo r) ∧
    R.halo r = fun i => mergeThreadedUniqueData ((List.range (M.part r).threads).map fun t =>
      sortAndRemoveDuplicityPairs ((((M.part r).pushes M.boundaries (R.permutation r) t).filter
        fun p => p.1 = i).map Prod.snd)) := by
  have hfits : ∀ t < (M.part r).threads, ∀ p ∈ (M.part r).pushes M.boundaries (R.permutation r) t,
      p.1 < (M.part r).neighbours.length := by
    intro t ht p hp
    obtain ⟨n, x, q, hx, hq, hmem, hne, hindex, -⟩ := (mem_pushes (R := R) hr).mp ⟨t, ht, hp⟩
    rw [hindex]
    exact (List.getElem?_eq_some_iff.mp (n2i_lt hr
      (M.neighbours_of_shared r hr q hq hne ⟨x, List.mem_of_getElem? hx, hmem⟩))).1
  rw [halo, ElementPart.sHalo, if_pos hfits, Option.getD_some]
  exact ⟨rfl, rfl⟩

lemma mem_halo {i q a b : ℕ} (hq : (M.part r).neighbours[i]? = some q) :
    (a, b) ∈ R.halo r i ↔ (M.begine r ≤ a ∧ a < M.begine (r + 1)) ∧
      (∃ x ∈ (M.part r).nIDs, x ∈ (M.part q).nIDs ∧ ContainsNode M.size M.part x a) ∧
        b = R.newID a := by
  have hqmem := List.mem_of_getElem? hq
  obtain ⟨hqlt, hqne, -⟩ := M.neighbours_symm r hr q hqmem
  have hindex := lowerBound_getElem? (M.neighbours_ascending r hr) hq
  have hpush : (a, b) ∈ R.halo r i ↔ ∃ t < (M.part r).threads,
      (i, a, b) ∈ (M.part r).pushes M.boundaries (R.permutation r) t := by
    rw [(sHalo_eq hr).2]
    simp only [mergeThreadedUniqueData, mem_sortAndRemoveDuplicityPairs, List.mem_flatten,
      List.mem_map, List.mem_range]
    constructor
    · rintro ⟨_, ⟨t, ht, rfl⟩, hmem⟩
      obtain ⟨p, hp, hsnd⟩ := List.mem_map.mp (mem_sortAndRemoveDuplicityPairs.mp hmem)
      obtain ⟨hp, hfst⟩ := List.mem_filter.mp hp
      refine ⟨t, ht, ?_⟩
      rwa [← of_decide_eq_true hfst, ← hsnd]
    · rintro ⟨t, ht, hmem⟩
      refine ⟨_, ⟨t, ht, rfl⟩, mem_sortAndRemoveDuplicityPairs.mpr (List.mem_map.mpr ?_)⟩
      exact ⟨(i, a, b), List.mem_filter.mpr ⟨hmem, decide_eq_true rfl⟩, rfl⟩
  rw [hpush, mem_pushes hr]
  constructor
  · rintro ⟨n, x, q', hx, hq', hmem, hne, hi, hmoved⟩
    have hin := M.neighbours_of_shared r hr q' hq' hne ⟨x, List.mem_of_getElem? hx, hmem⟩
    obtain rfl := lowerBound_inj (M.neighbours_ascending r hr) hin hqmem (hi.symm.trans hindex.symm)
    obtain ⟨hrange, hcontains, hb⟩ := (mem_moved hr hx).mp hmoved
    exact ⟨hrange, ⟨x, List.mem_of_getElem? hx, hmem, hcontains⟩, hb⟩
  · rintro ⟨hrange, ⟨x, hx, hmem, hcontains⟩, hb⟩
    obtain ⟨n, hn⟩ := List.mem_iff_getElem?.mp hx
    exact ⟨n, x, q, hn, hqlt, hmem, hqne, hindex.symm,
      (mem_moved hr hn).mpr ⟨hrange, hcontains, hb⟩⟩

lemma halo_sorted (i : ℕ) : ((R.halo r i).map toLex).Pairwise (· ≤ ·) := by
  rw [(sHalo_eq hr).2]
  exact sortAndRemoveDuplicityPairs_sorted _

/-! ## The renumbered links -/

/-- What rank `r` receives from its neighbour at position `i`. -/
def received (R : M.Permutations) (r i : ℕ) : List (ℕ × ℕ) :=
  let source := (M.part r).neighbours.getD i 0
  R.halo source (lowerBound (M.part source).neighbours r)

lemma remap_eq {e : ℕ} (he : (M.begine r ≤ e ∧ e < M.begine (r + 1)) ∨
    ∃ x ∈ (M.part r).nIDs, ContainsNode M.size M.part x e) :
    (M.part r).remap M.boundaries (R.permutation r) (R.received r) e = some (R.newLink e) := by
  have hlink : R.newLink e = R.newID e := by
    rw [newLink, if_pos (Int.natCast_nonneg e), Int.toNat_natCast]
  have hown : ∀ q < M.size, M.begine q ≤ e → e < M.begine (q + 1) →
      (q ≠ r → ∃ x ∈ (M.part r).nIDs, x ∈ (M.part q).nIDs ∧ ContainsNode M.size M.part x e) →
      (M.part r).remap M.boundaries (R.permutation r) (R.received r) e = some (R.newID e : ℤ) := by
    intro q hq hlow hhigh hshared
    simp only [ElementPart.remap, Int.toNat_natCast]
    rw [if_pos (Int.natCast_nonneg e), source_eq hq hlow hhigh, M.rank_eq r hr]
    by_cases heq : q = r
    · subst heq
      obtain ⟨p, hp, hnew⟩ := getElem?_backpermutation_sub (R := R) hr hlow hhigh
      rw [if_pos rfl, boundaries_getD hr.le, hp, Option.map_some, hnew]
    · obtain ⟨x, hx, hmem, hcontains⟩ := hshared heq
      have hget := n2i_lt hr (M.neighbours_of_shared r hr q hq heq ⟨x, hx, hmem⟩)
      have hback := n2i_lt hq (M.neighbours_of_shared q hq r hr (Ne.symm heq) ⟨x, hmem, hx⟩)
      rw [if_neg heq, if_pos (List.getElem?_eq_some_iff.mp hget).1]
      have hhalo : R.received r ((M.part r).n2i q) = R.halo q ((M.part q).n2i r) := by
        rw [received, List.getD_eq_getElem?_getD, hget, Option.getD_some]
        rfl
      have hpair : (e, R.newID e) ∈ R.halo q ((M.part q).n2i r) :=
        (mem_halo hq hback).mpr ⟨⟨hlow, hhigh⟩, ⟨x, hmem, hx, hcontains⟩, rfl⟩
      rw [hhalo, getElem?_lowerBound_pair (halo_sorted hq _) hpair fun w hw =>
        ((mem_halo hq hback).mp hw).2.2, Option.map_some]
  rw [hlink]
  rcases he with ⟨hlow, hhigh⟩ | ⟨x, hx, hcontains⟩
  · exact hown r hr hlow hhigh fun hne => absurd rfl hne
  · obtain ⟨q, hq, hmem, hlow, hhigh⟩ := rank_of_contains hcontains
    exact hown q hq hlow hhigh fun _ => ⟨x, hx, hmem, hcontains⟩

lemma globalremap_eq {rows : List (List ℤ)} (sort : Bool)
    (h : ∀ row ∈ rows, ∀ v ∈ row, v < 0 ∨
      ∃ e : ℕ, v = e ∧ ∃ x ∈ (M.part r).nIDs, ContainsNode M.size M.part x e) :
    (M.part r).globalremap M.boundaries (R.permutation r) (R.received r) (Serialized.ofRows rows) sort
      = some (Serialized.ofRows (rows.map fun row =>
          if sort then (row.map R.newLink).mergeSort else row.map R.newLink)) := by
  have hrow : ∀ row ∈ rows, row.mapM ((M.part r).remap M.boundaries (R.permutation r)
      (R.received r)) = some (row.map R.newLink) := by
    intro row hrow
    refine Fallible.mapM_eq_some fun v hv => ?_
    rcases h row hrow v hv with hneg | ⟨e, rfl, hx⟩
    · rw [ElementPart.remap, if_neg (by omega), newLink, if_neg (by omega)]
    · exact remap_eq hr (Or.inr hx)
  have hrows : rows.mapM (fun row => do
      let row ← row.mapM ((M.part r).remap M.boundaries (R.permutation r) (R.received r))
      pure (if sort then row.mergeSort else row))
      = some (rows.map fun row =>
          if sort then (row.map R.newLink).mergeSort else row.map R.newLink) := by
    refine Fallible.mapM_eq_some fun row hmem => ?_
    rw [hrow row hmem]
    rfl
  rw [ElementPart.globalremap, Serialized.rows_ofRows, hrows]
  refine congrArg some (congrArg₂ Serialized.mk ?_ rfl)
  rw [Serialized.ofRows]
  refine congrArg offsets ?_
  rw [List.map_map]
  refine List.map_congr_left fun row _ => ?_
  rw [Function.comp_apply]
  split_ifs
  · rw [List.length_mergeSort, List.length_map]
  · rw [List.length_map]

lemma links_known {rows : List (List ℤ)} (hrows : (M.part r).links = Serialized.ofRows rows)
    (hlength : rows.length = (M.part r).nIDs.length) :
    ∀ row ∈ rows, ∀ v ∈ row, v < 0 ∨
      ∃ e : ℕ, v = e ∧ ∃ x ∈ (M.part r).nIDs, ContainsNode M.size M.part x e := by
  intro row hrow v hv
  obtain ⟨n, hn, rfl⟩ := List.mem_iff_getElem.mp hrow
  have hx := List.getElem?_eq_getElem (hlength ▸ hn)
  have hiff := (M.links_exact r hr n _ hx).2 v
  rw [hrows, Serialized.row_ofRows hn] at hiff
  obtain ⟨e, he, hcontains⟩ := hiff.mp hv
  exact Or.inr ⟨e, he, _, List.mem_of_getElem? hx, hcontains⟩

lemma neighbors_known {N : Serialized ℤ} (hN : (M.part r).neighbors = some N) :
    ∀ row ∈ (R.permutation r).map N.row, ∀ v ∈ row, v < 0 ∨
      ∃ e : ℕ, v = e ∧ ∃ x ∈ (M.part r).nIDs, ContainsNode M.size M.part x e := by
  intro row hrow v hv
  obtain ⟨i, hi, rfl⟩ := List.mem_map.mp hrow
  have hi' : i < (M.part r).IDs.length := List.mem_range.mp ((R.perm r hr).mem_iff.mp hi)
  rcases M.neighbors_shared r hr N hN i hi' v hv with rfl | ⟨e, he, n, -, x, hx, hcontains⟩
  · exact Or.inl (by omega)
  · exact Or.inr ⟨e, he, x, List.mem_of_getElem? hx, hcontains⟩

lemma regions_eq : (M.part r).regions.mapM (fun region =>
      (region.mapM fun n => (backpermutation (R.permutation r))[n]?).map fun region =>
        region.mergeSort)
    = some ((M.part r).regions.map fun region =>
        (region.map fun i => (R.permutation r).idxOf i).mergeSort) := by
  refine Fallible.mapM_eq_some fun region hregion => ?_
  have hentries : region.mapM (fun n => (backpermutation (R.permutation r))[n]?)
      = some (region.map fun i => (R.permutation r).idxOf i) := by
    refine Fallible.mapM_eq_some fun i hi => ?_
    obtain ⟨j, hj⟩ := exists_position (R := R) hr (M.regions_lt r hr region hregion i hi)
    rw [getElem?_backpermutation (R.perm r hr) hj, idxOf_eq hr hj]
  rw [hentries, Option.map_some]

lemma head_IDs : (M.part r).IDs.head? = some (M.begine r) := by
  rw [List.head?_eq_getElem?]
  exact (getElem?_IDs hr).mpr ⟨M.nonempty r hr, rfl⟩

lemma permuted_value {data : List ℤ} (hlength : data.length = (M.part r).IDs.length) {i j : ℕ}
    (h : (R.permutation r)[j]? = some i) :
    (permuteUniformData 1 (M.part r).threads (R.permutation r) (R.distribution r).border data)[j]?
      = data[i]? := by
  have hwithin : Within (R.permutation r) data.length := hlength ▸ Within.of_perm (R.perm r hr)
  rw [permuteUniformData_eq _ (length_permutation hr) hwithin, getElem?_gather hwithin, h,
    Option.bind_some]

omit hr in
lemma permuted_row {T : Type} {s : Serialized T} {i j : ℕ} (h : (R.permutation r)[j]? = some i)
    (f : List T → List T) :
    (Serialized.ofRows (((R.permutation r).map s.row).map f)).row j = f (s.row i) := by
  obtain ⟨hj, rfl⟩ := List.getElem?_eq_some_iff.mp h
  rw [Serialized.row_ofRows (by rwa [List.length_map, List.length_map]), List.getElem_map,
    List.getElem_map]

lemma renumberNeighbors_eq : ∃ neighbors, (M.part r).renumberNeighbors M.boundaries
      (R.permutation r) (R.distribution r).border (R.received r) = some neighbors ∧
    ((M.part r).neighbors = none → neighbors = none) ∧
    ∀ N, (M.part r).neighbors = some N → ∃ N', neighbors = some N' ∧
      ∀ i j : ℕ, (R.permutation r)[j]? = some i → N'.row j = (N.row i).map R.newLink := by
  rw [ElementPart.renumberNeighbors]
  rcases hN : (M.part r).neighbors with _ | N
  · exact ⟨none, rfl, fun _ => rfl, fun N hN => absurd hN (by simp)⟩
  · refine ⟨some (Serialized.ofRows (((R.permutation r).map N.row).map fun row =>
      row.map R.newLink)), ?_, fun h => absurd h (by simp), ?_⟩
    · dsimp only
      rw [N.permuteNonUniformData_eq (M.threads_pos r hr) _ (length_permutation hr),
        globalremap_eq hr false (neighbors_known hr hN), Option.map_some]
      rfl
    · rintro N₁ hN₁
      obtain rfl := Option.some.inj hN₁
      exact ⟨_, rfl, fun i j h => permuted_row h _⟩

lemma links_sorted {n : ℕ} (hn : n < (M.part r).nIDs.length) :
    ((((M.part r).links.row n).map R.newLink).mergeSort).Pairwise (· < ·) := by
  obtain ⟨hascending, hmem⟩ := M.links_exact r hr n _ (List.getElem?_eq_getElem hn)
  have hlt : ∀ e : ℕ, ContainsNode M.size M.part (M.part r).nIDs[n] e → e < M.begine M.size := by
    intro e he
    obtain ⟨q, hq, -, -, hhigh⟩ := rank_of_contains he
    exact hhigh.trans_le (begine_mono (show q + 1 ≤ M.size from hq) le_rfl)
  have hnodup : (((M.part r).links.row n).map R.newLink).Nodup := by
    refine List.Nodup.map_on (fun v hv w hw heq => ?_) (hascending.imp fun h => h.ne)
    obtain ⟨e, rfl, he⟩ := (hmem v).mp hv
    obtain ⟨f, rfl, hf⟩ := (hmem w).mp hw
    simp only [newLink, Int.natCast_nonneg, if_true, Int.toNat_natCast, Nat.cast_inj] at heq
    exact congrArg Nat.cast (R.newID_bijOn.injOn (hlt e he) (hlt f hf) heq)
  have hle := List.pairwise_mergeSort' (· ≤ ·) (((M.part r).links.row n).map R.newLink)
  have hne := (List.mergeSort_perm (((M.part r).links.row n).map R.newLink) (· ≤ ·)).nodup_iff.mpr
    hnodup
  exact (hle.and hne).imp fun h => lt_of_le_of_ne h.1 h.2

/-- **What a rank does behind the exchange.** -/
theorem renumber_moved : ∃ P, (M.part r).renumber M.boundaries (R.permutation r)
    (R.distribution r).border (R.received r) = some P ∧ R.Moved r P := by
  have hthreads := M.threads_pos r hr
  have hlength := length_permutation hr (R := R)
  obtain ⟨lrows, hlinks, hllength⟩ := M.links_rows r hr
  have hwithin : Within (R.permutation r) (M.part r).IDs.length := Within.of_perm (R.perm r hr)
  have hIDs : List.range' (M.begine r) (permuteUniformData 1 (M.part r).threads (R.permutation r)
      (R.distribution r).border (M.part r).IDs).length = (M.part r).IDs := by
    rw [permuteUniformData_eq _ hlength hwithin, length_gather hwithin, hlength]
    exact (M.IDs_eq r hr).symm
  have hnew : (M.part r).globalremap M.boundaries (R.permutation r) (R.received r)
      (M.part r).links true
      = some (Serialized.ofRows (lrows.map fun row => (row.map R.newLink).mergeSort)) := by
    rw [hlinks, globalremap_eq hr true (links_known hr hlinks hllength)]
    rfl
  obtain ⟨neighbors, hneighbors, hnone, hsome⟩ := renumberNeighbors_eq (R := R) hr
  refine ⟨_, by
    simp only [ElementPart.renumber, head_IDs hr, hneighbors, hnew, regions_eq hr,
      Option.bind_eq_bind, Option.bind_some, Option.pure_def]
    rfl, ?_⟩
  constructor
  · exact hIDs
  · intro i j h
    obtain ⟨hi, hj⟩ := lt_of_permutation hr h
    refine ⟨?_, ?_, permuted_value hr (M.body_length r hr) h,
      permuted_value hr (M.material_length r hr) h⟩
    · dsimp only
      rw [hIDs, newID_eq hr h]
      exact (getElem?_IDs hr).mpr ⟨hj, rfl⟩
    · dsimp only
      rw [Serialized.permuteNonUniformData_eq _ hthreads _ hlength]
      have hrow := permuted_row (s := (M.part r).nodes) h id
      rwa [List.map_id] at hrow
  · exact hnone
  · exact hsome
  · intro n hn
    have hn' : n < lrows.length := hllength ▸ hn
    have hsorted := links_sorted hr (R := R) hn
    have hperm := List.mergeSort_perm (((M.part r).links.row n).map R.newLink) (· ≤ ·)
    dsimp only
    rw [Serialized.row_ofRows (by rwa [List.length_map]), List.getElem_map]
    rw [hlinks, Serialized.row_ofRows hn'] at hsorted hperm ⊢
    exact ⟨hsorted, hperm⟩
  · exact List.length_map _
  · intro k old new hold hnew
    rw [List.getElem?_map, hold, Option.map_some] at hnew
    obtain rfl := Option.some.inj hnew
    exact ⟨List.pairwise_mergeSort' (· ≤ ·) _, List.mergeSort_perm _ _⟩
  · exact ⟨rfl, rfl, rfl⟩

end

lemma permuteElements_eq :
    R.permuteElements = if ∀ r < M.size, ∀ i < (M.part r).neighbours.length,
        8 * (R.halo r i).length ≤ limit then
      (List.range M.size).mapM fun r => (M.part r).renumber M.boundaries (R.permutation r)
        (R.distribution r).border (R.received r)
    else none := by
  have hhalo : (List.range M.size).mapM (fun r =>
      (M.part r).sHalo M.boundaries (R.permutation r)) = some ((List.range M.size).map R.halo) :=
    Fallible.mapM_eq_some fun r hr => (sHalo_eq (List.mem_range.mp hr)).1
  have hsent : ∀ r < M.size, ((List.range M.size).map R.halo).getD r (fun _ => []) = R.halo r := by
    intro r hr
    rw [List.getD_eq_getElem?_getD, List.getElem?_map, List.getElem?_range hr, Option.map_some,
      Option.getD_some]
  have hfits : (∀ r < M.size, ∀ i < (M.part r).neighbours.length,
      8 * (((List.range M.size).map R.halo).getD r (fun _ => []) i).length ≤ limit) ↔
      ∀ r < M.size, ∀ i < (M.part r).neighbours.length, 8 * (R.halo r i).length ≤ limit :=
    forall₂_congr fun r hr => by rw [hsent r hr]
  rw [permuteElements, hhalo, Option.bind_eq_bind, Option.bind_some, exchangeUnknownSize]
  by_cases h : ∀ r < M.size, ∀ i < (M.part r).neighbours.length, 8 * (R.halo r i).length ≤ limit
  · rw [if_pos h, if_pos (hfits.mpr h), Option.bind_eq_bind, Option.bind_some]
    refine Fallible.mapM_congr fun r hr => ?_
    have hr := List.mem_range.mp hr
    refine congrArg _ (funext fun i => ?_)
    have hsource : (M.part r).neighbours.getD i 0 < M.size := by
      rcases Nat.lt_or_ge i (M.part r).neighbours.length with hi | hi
      · rw [List.getD_eq_getElem _ _ hi]
        exact (M.neighbours_symm r hr _ (List.getElem_mem hi)).1
      · rw [List.getD_eq_default _ _ hi]
        exact Nat.zero_lt_of_lt hr
    rw [received, ← hsent _ hsource]
  · rw [if_neg h, if_neg (mt hfits.mp h)]
    rfl

/-- **`MeshPreprocessing::permuteElements` applies one consistent renumbering** on all ranks, unless
a message is too large. -/
theorem elements_renumbered (R : M.Permutations) :
    (R.permuteElements = none ↔ ∃ r < M.size, ∃ i < (M.part r).neighbours.length,
      limit < 8 * (R.halo r i).length) ∧
    ∀ out, R.permuteElements = some out → R.Renumbered out := by
  obtain ⟨parts, hparts⟩ := Fallible.exists_mapM fun r hr =>
    (renumber_moved (R := R) (List.mem_range.mp hr)).imp fun _ h => h.1
  rw [permuteElements_eq, hparts]
  constructor
  · constructor
    · intro hnone
      by_contra hall
      push Not at hall
      rw [if_pos hall] at hnone
      exact absurd hnone (by simp)
    · rintro ⟨r, hr, i, hi, hlimit⟩
      exact if_neg fun hall => absurd hlimit (not_lt.mpr (hall r hr i hi))
  · intro out hout
    obtain ⟨-, hout⟩ := Option.ite_none_right_eq_some.mp hout
    obtain rfl := Option.some.inj hout
    refine ⟨R.newID_bijOn, fun r hr i j h => newID_eq hr h, fun r hr => ?_⟩
    obtain ⟨P, hP, hmoved⟩ := renumber_moved (R := R) hr
    refine ⟨P, ?_, hmoved⟩
    have hget := congrArg (·[r]?) (Fallible.mapM_eq_some_iff.mp hparts)
    simp only [List.getElem?_map, List.getElem?_range hr, Option.map_some, hP] at hget
    rcases hp : parts[r]? with _ | P'
    · rw [hp] at hget
      exact absurd hget (by simp)
    · rw [hp, Option.map_some] at hget
      rw [Option.some.inj (Option.some.inj hget)]

end Permutations

end ElementMesh

end Espreso
