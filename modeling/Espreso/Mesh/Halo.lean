import Espreso.Basis.Merge
import Espreso.Mesh.ElementNeighbors

/-!
# The halo

`MeshPreprocessing::exchangeHalo` sends own elements of shared nodes to the other ranks of the
nodes. The halo of a rank is what it receives, sorted by ID.

* `Halo` — the arrays of the halo.
* `HaloMesh` — a mesh with region masks, where each node of a rank is used by one of its elements.
* **`halo_exact`** — the halo has the elements of other ranks that share a node with an own element.
-/

namespace Espreso

open Reorder

/-- The arrays of the halo. -/
structure Halo where
  IDs : List ℕ
  body : List ℤ
  material : List ℤ
  epointers : List ElementCode
  regions : List ℤ

namespace ElementPart

/-! ## What a rank sends -/

section Send

variable (P : ElementPart) (epointers : List ElementCode) (rsize : ℕ) (regions : List ℤ)
  (eDistribution : List ℕ)

/-- The links from `begin` to `end`: own elements of node `n`. -/
def ownElements (n : ℕ) : List ℕ :=
  (((P.links.row n).dropWhile (· < (eDistribution.getD P.rank 0 : ℤ))).takeWhile
    (· < (eDistribution.getD (P.rank + 1) 0 : ℤ))).map Int.toNat

/-- What is inserted for the ranks of a node: the positions of the ranks among the neighbours, which
only advance. There is no result if they advance behind the neighbours. -/
def insertions (own : List ℕ) : ℕ → List ℕ → Option (List (ℕ × List ℕ))
  | _, [] => some []
  | i, rank :: ranks =>
    if rank = P.rank then insertions own i ranks
    else
      let i := i + (P.neighbours.drop i).findIdx (rank ≤ ·)
      if i < P.neighbours.length then (insertions own i ranks).map ((i, own) :: ·) else none

/-- `telements` of a thread with the nodes from `first` to `last`. -/
def telements (first last : ℕ) : Option (List (ℕ × List ℕ)) :=
  ((List.range' first (last - first)).mapM fun n =>
    if 1 < (P.ranks.getD n []).length then
      P.insertions (P.ownElements eDistribution n) 0 (P.ranks.getD n [])
    else some []).map List.flatten

/-- `hElements[0]` behind the merge, for each neighbour. -/
def hElements (border : ℕ → ℕ) : Option (ℕ → List ℕ) := do
  let telements ← (List.range P.threads).mapM fun t =>
    P.telements eDistribution (border t) (border (t + 1))
  pure fun n => removeDuplicity (sortWithInplaceMergeValues (telements.map fun elements =>
    (elements.filter (·.1 = n)).flatMap Prod.snd))

def haloRow (e : ℕ) : List ℤ :=
  let i := e - eDistribution.getD P.rank 0
  [(P.IDs.getD i 0 : ℤ), P.body.getD i 0, P.material.getD i 0,
    ((epointers.getD i .POINT1).number : ℤ)] ++ window regions (rsize * i) (rsize * (i + 1))

/-- `sBuffer[n]`, which is filled by the threads. -/
def haloBuffer (elements : List ℕ) : List ℤ :=
  (List.range P.threads).flatMap fun t =>
    (window elements ((distribute P.threads elements.length).getD t 0)
      ((distribute P.threads elements.length).getD (t + 1) 0)).flatMap
        (P.haloRow epointers rsize regions eDistribution)

end Send

/-! ## What a rank receives -/

section Receive

variable (P : ElementPart) (rsize : ℕ) (rBuffer : ℕ → List ℤ)

/-- The rows that thread `t` takes from the buffers of all neighbours. -/
def received (t : ℕ) : List (List ℤ) :=
  (List.range P.neighbours.length).flatMap fun n =>
    let distribution := distribute P.threads ((rBuffer n).length / (4 + rsize))
    (List.range' (distribution.getD t 0)
      (distribution.getD (t + 1) 0 - distribution.getD t 0)).map fun e =>
        window (rBuffer n) ((4 + rsize) * e) ((4 + rsize) * (e + 1))

def unsorted : Halo :=
  let rows := (List.range P.threads).flatMap (P.received rsize rBuffer)
  { IDs := rows.map fun row => (row.getD 0 0).toNat
    body := rows.map fun row => row.getD 1 0
    material := rows.map fun row => row.getD 2 0
    epointers := rows.map fun row => ElementCode.ofNumber (row.getD 3 0).toNat
    regions := rows.flatMap fun row => row.drop 4 }

def haloDistribution : Distribution P.threads
    ((List.range P.threads).map fun t => (P.received rsize rBuffer t).length).sum :=
  Distribution.ofSizes P.threads fun t => (P.received rsize rBuffer t).length

/-- The halo, permuted by `ElementStore::permute`. -/
def halo : Halo :=
  let unsorted := P.unsorted rsize rBuffer
  let permutation := byKey (unsorted.IDs.getD · 0) unsorted.IDs.length
  let border := (P.haloDistribution rsize rBuffer).border
  { IDs := permuteUniformData 1 P.threads permutation border unsorted.IDs
    body := permuteUniformData 1 P.threads permutation border unsorted.body
    material := permuteUniformData 1 P.threads permutation border unsorted.material
    epointers := permuteUniformData 1 P.threads permutation border unsorted.epointers
    regions := permuteUniformData rsize P.threads permutation border unsorted.regions }

end Receive

end ElementPart

/-! ## All ranks -/

/-- A mesh with region masks. Each node of a rank is used by one of its elements; thread `t` has a
range of the nodes. -/
structure HaloMesh extends FaceMesh where
  nodeDistribution : ∀ r, Distribution (part r).threads (part r).nIDs.length
  regionMaskSize : ℕ
  masks : ℕ → List ℤ
  masks_length : ∀ r < size, (masks r).length = regionMaskSize * (part r).IDs.length
  used : ∀ r < size, ∀ n < (part r).nIDs.length, ∃ i < (part r).IDs.length,
    n ∈ (part r).nodes.row i

namespace HaloMesh

variable (M : HaloMesh)

/-- **`MeshPreprocessing::exchangeHalo`** on all ranks. An `eslocal` has four bytes. -/
def exchangeHalo : Option (List Halo) := do
  let hElements ← (List.range M.size).mapM fun r =>
    (M.part r).hElements M.boundaries (M.nodeDistribution r).border
  let rBuffer ← exchangeUnknownSize M.size 4 (fun r => (M.part r).neighbours) fun r n =>
    (M.part r).haloBuffer (M.epointers r) M.regionMaskSize (M.masks r) M.boundaries
      ((hElements.getD r fun _ => []) n)
  pure ((List.range M.size).map fun r => (M.part r).halo M.regionMaskSize (rBuffer r))

/-- Element `e` of some rank shares a node with element `a` of rank `r`. -/
def InHalo (r e : ℕ) : Prop :=
  (∃ q < M.size, q ≠ r ∧ e ∈ (M.part q).IDs) ∧
    ∃ a ∈ (M.part r).IDs, ∃ x, ContainsNode M.size M.part x e ∧ ContainsNode M.size M.part x a

/-- **The halo of a rank** has the elements of other ranks that share a node with an own element,
each once and in ascending order, with the data that they have on their ranks. -/
structure HaloExact (r : ℕ) (H : Halo) : Prop where
  ascending : H.IDs.Pairwise (· < ·)
  mem_iff : ∀ e, e ∈ H.IDs ↔ M.InHalo r e
  data : ∀ j e : ℕ, H.IDs[j]? = some e → ∃ q < M.size, ∃ i : ℕ, (M.part q).IDs[i]? = some e ∧
    H.body[j]? = (M.part q).body[i]? ∧ H.material[j]? = (M.part q).material[i]? ∧
    H.epointers[j]? = (M.epointers q)[i]? ∧
    window H.regions (M.regionMaskSize * j) (M.regionMaskSize * (j + 1))
      = window (M.masks q) (M.regionMaskSize * i) (M.regionMaskSize * (i + 1))
  sizes : H.body.length = H.IDs.length ∧ H.material.length = H.IDs.length ∧
    H.epointers.length = H.IDs.length ∧ H.regions.length = M.regionMaskSize * H.IDs.length

lemma HaloExact.row {M : HaloMesh} {r q j b : ℕ} {H : Halo} (h : M.HaloExact r H) (hq : q < M.size)
    (hj : (M.part q).IDs[j]? = some b) (hin : M.InHalo r b) :
    let k := lowerBound (H.IDs.map (Nat.cast : ℕ → ℤ)) b
    window H.regions (M.regionMaskSize * k) (M.regionMaskSize * (k + 1))
      = window (M.masks q) (M.regionMaskSize * j) (M.regionMaskSize * (j + 1)) := by
  obtain ⟨k, hk⟩ := List.mem_iff_getElem?.mp ((h.mem_iff b).mpr hin)
  have hindex : lowerBound (H.IDs.map (Nat.cast : ℕ → ℤ)) (b : ℤ) = k := by
    refine lowerBound_getElem? (List.pairwise_map.mpr (h.ascending.imp fun hlt => ?_)) ?_
    · exact Int.ofNat_lt.mpr hlt
    · rw [List.getElem?_map, hk, Option.map_some]
  obtain ⟨p, hp, l, hl, -, -, -, hrow⟩ := h.data k b hk
  obtain ⟨rfl, rfl⟩ := ElementMesh.position_inj hq hp hj hl
  rw [hindex]
  exact hrow

lemma inHalo_of_shared {M : HaloMesh} {r q i j x : ℕ} (hr : r < M.size) (hq : q < M.size)
    (hne : q ≠ r) (hi : i < (M.part r).IDs.length) (hj : j < (M.part q).IDs.length)
    (hxi : ContainsNode M.size M.part x (M.begine r + i))
    (hxj : ContainsNode M.size M.part x (M.begine q + j)) : M.InHalo r (M.begine q + j) :=
  ⟨⟨q, hq, hne, List.mem_of_getElem? ((ElementMesh.getElem?_IDs hq).mpr ⟨hj, rfl⟩)⟩,
    M.begine r + i, List.mem_of_getElem? ((ElementMesh.getElem?_IDs hr).mpr ⟨hi, rfl⟩), x, hxj, hxi⟩

/-! ## What is sent -/

lemma takeWhile_lt_eq_filter {l : List ℤ} (hl : l.Pairwise (· < ·)) (b : ℤ) :
    l.takeWhile (· < b) = l.filter (· < b) := by
  induction l with
  | nil => rfl
  | cons a l ih =>
      obtain ⟨hle, hl⟩ := List.pairwise_cons.mp hl
      by_cases hab : a < b
      · rw [List.takeWhile_cons_of_pos (by simpa using hab),
          List.filter_cons_of_pos (by simpa using hab),
          ih hl]
      · rw [List.takeWhile_cons_of_neg (by simpa using hab),
          List.filter_cons_of_neg (by simpa using hab)]
        refine (List.filter_eq_nil_iff.mpr fun v hv => ?_).symm
        have := hle v hv
        simp only [decide_eq_true_eq]
        omega

lemma dropWhile_lt_eq_filter {l : List ℤ} (hl : l.Pairwise (· < ·)) (a : ℤ) :
    l.dropWhile (· < a) = l.filter (a ≤ ·) := by
  induction l with
  | nil => rfl
  | cons b l ih =>
      obtain ⟨hle, hl⟩ := List.pairwise_cons.mp hl
      by_cases hab : b < a
      · rw [List.dropWhile_cons_of_pos (by simpa using hab),
          List.filter_cons_of_neg (by simpa using hab),
          ih hl]
      · rw [List.dropWhile_cons_of_neg (by simpa using hab)]
        refine (List.filter_eq_self.mpr fun v hv => ?_).symm
        rcases List.mem_cons.mp hv with rfl | hv
        · simpa using hab
        · have := hle v hv
          simp only [decide_eq_true_eq]
          omega

/-- **What is inserted** for a node. -/
def inserted (r n : ℕ) : List (ℕ × List ℕ) :=
  (((M.part r).ranks.getD n []).filter (· ≠ r)).map fun q =>
    ((M.part r).n2i q, (M.part r).ownElements M.boundaries n)

section Rank

variable {M} {r : ℕ} (hr : r < M.size)

include hr

lemma mem_ownElements {n x e : ℕ} (hx : (M.part r).nIDs[n]? = some x) :
    e ∈ (M.part r).ownElements M.boundaries n ↔
      M.begine r ≤ e ∧ e < M.begine (r + 1) ∧ ContainsNode M.size M.part x e := by
  obtain ⟨hsorted, hlinks⟩ := M.links_exact r hr n x hx
  rw [ElementPart.ownElements, M.rank_eq r hr, ElementMesh.boundaries_getD hr.le,
    ElementMesh.boundaries_getD (Nat.succ_le_of_lt hr), dropWhile_lt_eq_filter hsorted,
    takeWhile_lt_eq_filter (hsorted.filter _), List.mem_map]
  constructor
  · rintro ⟨v, hv, rfl⟩
    obtain ⟨hv, hhigh⟩ := List.mem_filter.mp hv
    obtain ⟨hv, hlow⟩ := List.mem_filter.mp hv
    obtain ⟨e, rfl, hcontains⟩ := (hlinks v).mp hv
    rw [decide_eq_true_eq] at hlow hhigh
    exact ⟨by simpa using hlow, by simpa using hhigh, hcontains⟩
  · rintro ⟨hlow, hhigh, hcontains⟩
    refine ⟨e, List.mem_filter.mpr ⟨List.mem_filter.mpr ⟨(hlinks e).mpr ⟨e, rfl, hcontains⟩, ?_⟩,
      ?_⟩,
      rfl⟩
    · simpa using hlow
    · simpa using hhigh

lemma insertions_eq (own : List ℕ) {i : ℕ} {ranks : List ℕ} (hranks : ranks.Pairwise (· < ·))
    (hneighbours : ∀ q ∈ ranks, q ≠ r → q ∈ (M.part r).neighbours ∧ i ≤ (M.part r).n2i q) :
    (M.part r).insertions own i ranks
      = some ((ranks.filter (· ≠ r)).map fun q => ((M.part r).n2i q, own)) := by
  induction ranks generalizing i with
  | nil => rfl
  | cons q ranks ih =>
      obtain ⟨hlt, hranks⟩ := List.pairwise_cons.mp hranks
      rw [ElementPart.insertions, M.rank_eq r hr]
      by_cases hq : q = r
      · rw [if_pos hq, List.filter_cons_of_neg (by simpa using hq)]
        exact ih hranks fun p hp => hneighbours p (List.mem_cons_of_mem q hp)
      · obtain ⟨hmem, hle⟩ := hneighbours q List.mem_cons_self hq
        have hindex : i + ((M.part r).neighbours.drop i).findIdx (q ≤ ·) = (M.part r).n2i q :=
          lowerBound_drop _ hle
        have hfound := ElementMesh.n2i_lt hr hmem
        rw [if_neg hq, List.filter_cons_of_pos (by simpa using hq)]
        dsimp only
        rw [hindex, if_pos (List.getElem?_eq_some_iff.mp hfound).1, ih hranks, List.map_cons]
        · rfl
        · intro p hp hne
          exact ⟨(hneighbours p (List.mem_cons_of_mem q hp) hne).1,
            lowerBound_mono _ (hlt p hp).le⟩

lemma telements_eq {first last : ℕ} (hlast : last ≤ (M.part r).nIDs.length) :
    (M.part r).telements M.boundaries first last
      = some ((List.range' first (last - first)).flatMap (M.inserted r)) := by
  rw [ElementPart.telements, Fallible.mapM_eq_some (g := M.inserted r)]
  · rfl
  · intro n hn
    have hlt : n < (M.part r).nIDs.length := by
      have := List.mem_range'_1.mp hn
      omega
    have hx := List.getElem?_eq_getElem hlt
    have hranks : (M.part r).ranks.getD n [] = (List.range M.size).filter fun q =>
        (M.part r).nIDs[n] ∈ (M.part q).nIDs := by
      rw [List.getD_eq_getElem?_getD, M.ranks_exact r hr n _ hx, Option.getD_some]
    have hself : r ∈ (M.part r).ranks.getD n [] := by
      rw [hranks]
      exact List.mem_filter.mpr ⟨List.mem_range.mpr hr, decide_eq_true (List.getElem_mem hlt)⟩
    split_ifs with hshared
    · refine insertions_eq hr _ ?_ fun q hq hne => ?_
      · rw [hranks]
        exact List.pairwise_lt_range.filter _
      · rw [hranks, List.mem_filter, List.mem_range, decide_eq_true_eq] at hq
        exact ⟨M.neighbours_of_shared r hr q hq.1 hne ⟨_, List.getElem_mem hlt, hq.2⟩,
          Nat.zero_le _⟩
    · have hone : (M.part r).ranks.getD n [] = [r] := by
        rcases hrow : (M.part r).ranks.getD n [] with _ | ⟨q, _ | ⟨p, rest⟩⟩
        · rw [hrow] at hself
          cases hself
        · rw [hrow] at hself
          rw [List.mem_singleton.mp hself]
        · rw [hrow] at hshared
          simp at hshared
      rw [inserted, hone]
      simp

lemma hElements_eq : (M.part r).hElements M.boundaries (M.nodeDistribution r).border
    = some fun k => removeDuplicity (sortWithInplaceMergeValues ((List.range (M.part r).threads).map
      fun t => (((List.range' ((M.nodeDistribution r).border t)
        ((M.nodeDistribution r).border (t + 1)
        - (M.nodeDistribution r).border t)).flatMap (M.inserted r)).filter
          (·.1 = k)).flatMap Prod.snd)) := by
  rw [ElementPart.hElements, Fallible.mapM_eq_some fun t ht =>
    telements_eq hr ((M.nodeDistribution r).border_le_total (List.mem_range.mp ht))]
  simp only [Option.bind_eq_bind, Option.bind_some, List.map_map, Option.pure_def]
  rfl

end Rank

/-- What rank `r` sends to its neighbours: own elements of common nodes. -/
def sent (r : ℕ) : ℕ → List ℕ :=
  ((M.part r).hElements M.boundaries (M.nodeDistribution r).border).getD fun _ => []

section Sent

variable {M} {r : ℕ} (hr : r < M.size)

include hr

lemma sent_sorted (k : ℕ) : (M.sent r k).Pairwise (· < ·) := by
  rw [sent, hElements_eq hr, Option.getD_some]
  exact removeDuplicity_sorted (sortWithInplaceMergeValues_sorted _)

lemma mem_sent {k q e : ℕ} (hq : (M.part r).neighbours[k]? = some q) : e ∈ M.sent r k ↔
    M.begine r ≤ e ∧ e < M.begine (r + 1) ∧
      ∃ x, x ∈ (M.part r).nIDs ∧ x ∈ (M.part q).nIDs ∧ ContainsNode M.size M.part x e := by
  obtain ⟨hqsize, hne, -⟩ := M.neighbours_symm r hr q (List.mem_of_getElem? hq)
  have hranges : ∀ n : ℕ, (∃ t < (M.part r).threads, n ∈ List.range'
      ((M.nodeDistribution r).border t)
      ((M.nodeDistribution r).border (t + 1) - (M.nodeDistribution r).border t)) ↔
      n < (M.part r).nIDs.length := by
    intro n
    rw [← List.mem_range, ← (M.nodeDistribution r).flatMap_ranges, List.mem_flatMap]
    simp only [List.mem_range]
  rw [sent, hElements_eq hr, Option.getD_some, mem_removeDuplicity
    (sortWithInplaceMergeValues_sorted _), mem_sortWithInplaceMergeValues]
  constructor
  · rintro ⟨l, hl, he⟩
    obtain ⟨t, ht, rfl⟩ := List.mem_map.mp hl
    obtain ⟨p, hp, he⟩ := List.mem_flatMap.mp he
    obtain ⟨hp, hk⟩ := List.mem_filter.mp hp
    obtain ⟨n, hn, hp⟩ := List.mem_flatMap.mp hp
    have hlt := (hranges n).mp ⟨t, List.mem_range.mp ht, hn⟩
    have hx := List.getElem?_eq_getElem hlt
    obtain ⟨q', hq', rfl⟩ := List.mem_map.mp hp
    obtain ⟨hlow, hhigh, hcontains⟩ := (mem_ownElements hr hx).mp he
    rw [List.getD_eq_getElem?_getD, M.ranks_exact r hr n _ hx, Option.getD_some, List.mem_filter,
      List.mem_filter, List.mem_range, decide_eq_true_eq, decide_eq_true_eq] at hq'
    obtain ⟨⟨hsize, hmem⟩, hne'⟩ := hq'
    have hfound := ElementMesh.n2i_lt hr
      (M.neighbours_of_shared r hr q' hsize hne' ⟨_, List.getElem_mem hlt, hmem⟩)
    rw [show (M.part r).n2i q' = k from of_decide_eq_true hk, hq] at hfound
    rw [Option.some.inj hfound]
    exact ⟨hlow, hhigh, _, List.getElem_mem hlt, hmem, hcontains⟩
  · rintro ⟨hlow, hhigh, x, hmem, hmem', hcontains⟩
    obtain ⟨n, hx⟩ := List.mem_iff_getElem?.mp hmem
    obtain ⟨t, ht, hn⟩ := (hranges n).mpr (List.getElem?_eq_some_iff.mp hx).1
    refine ⟨_, List.mem_map_of_mem (List.mem_range.mpr ht), List.mem_flatMap.mpr
      ⟨(k, (M.part r).ownElements M.boundaries n), List.mem_filter.mpr
        ⟨List.mem_flatMap.mpr ⟨n, hn, ?_⟩, decide_eq_true rfl⟩,
        (mem_ownElements hr hx).mpr ⟨hlow, hhigh, hcontains⟩⟩⟩
    refine List.mem_map.mpr ⟨q, ?_, by rw [ElementMesh.n2i_eq hr hq]⟩
    rw [List.getD_eq_getElem?_getD, M.ranks_exact r hr n _ hx, Option.getD_some, List.mem_filter,
      List.mem_filter, List.mem_range, decide_eq_true_eq, decide_eq_true_eq]
    exact ⟨⟨hqsize, hmem'⟩, hne⟩

lemma haloBuffer_eq (elements : List ℕ) : (M.part r).haloBuffer (M.epointers r) M.regionMaskSize
    (M.masks r) M.boundaries elements = (elements.map ((M.part r).haloRow (M.epointers r)
      M.regionMaskSize (M.masks r) M.boundaries)).flatten := by
  have hthreads := M.threads_pos r hr
  have hwindows := flatMap_window (Distribution.uniform hthreads elements.length) elements
    (M.part r).threads le_rfl
  have hborders : ((List.range (M.part r).threads).flatMap fun t =>
      window elements ((distribute (M.part r).threads elements.length).getD t 0)
        ((distribute (M.part r).threads elements.length).getD (t + 1) 0)) = elements := by
    calc ((List.range (M.part r).threads).flatMap fun t =>
          window elements ((distribute (M.part r).threads elements.length).getD t 0)
            ((distribute (M.part r).threads elements.length).getD (t + 1) 0))
        = window elements 0 elements.length := by
          rw [Distribution.border_size] at hwindows
          rw [← hwindows]
          refine List.flatMap_congr fun t ht => ?_
          have ht := List.mem_range.mp ht
          rw [uniform_border hthreads _ ht.le, uniform_border hthreads _ ht]
      _ = elements := by rw [window, List.drop_zero, Nat.sub_zero, List.take_length]
  rw [ElementPart.haloBuffer, ← List.flatMap_assoc, hborders, List.flatMap_def]

end Sent

/-! ## What is received -/

lemma flatMap_swap {α β γ : Type} (f : α → β → List γ) (xs : List α) (ys : List β) :
    (xs.flatMap fun x => ys.flatMap (f x)).Perm
      (ys.flatMap fun y => xs.flatMap fun x => f x y) := by
  induction xs with
  | nil => simp
  | cons x xs ih =>
      simp only [List.flatMap_cons]
      exact (ih.append_left _).trans (List.flatMap_append_perm ys _ _)

/-- The rows from the neighbour at position `n`. -/
def rowsFrom (r n : ℕ) : List (List ℤ) :=
  let q := (M.part r).neighbours.getD n 0
  (M.sent q (lowerBound (M.part q).neighbours r)).map
    ((M.part q).haloRow (M.epointers q) M.regionMaskSize (M.masks q) M.boundaries)

/-- The buffers that rank `r` receives. -/
def rBuffer (r n : ℕ) : List ℤ := (M.rowsFrom r n).flatten

section Received

variable {M} {r : ℕ} (hr : r < M.size)

include hr

lemma haloRow_eq {e i : ℕ} (hi : i < (M.part r).IDs.length) (he : e = M.begine r + i) :
    (M.part r).haloRow (M.epointers r) M.regionMaskSize (M.masks r) M.boundaries e
      = [(e : ℤ), (M.part r).body.getD i 0, (M.part r).material.getD i 0,
        (((M.epointers r).getD i .POINT1).number : ℤ)]
        ++ window (M.masks r) (M.regionMaskSize * i) (M.regionMaskSize * (i + 1)) ∧
      (window (M.masks r) (M.regionMaskSize * i) (M.regionMaskSize * (i + 1))).length
        = M.regionMaskSize := by
  have hID := (ElementMesh.getElem?_IDs hr).mpr ⟨hi, he⟩
  have hoffset : e - M.begine r = i := by omega
  constructor
  · rw [ElementPart.haloRow, M.rank_eq r hr, ElementMesh.boundaries_getD hr.le, hoffset,
      List.getD_eq_getElem?_getD, hID, Option.getD_some]
  · rw [length_window _ (by rw [M.masks_length r hr]; exact Nat.mul_le_mul_left _ hi), Nat.mul_succ,
      Nat.add_sub_cancel_left]

lemma mem_rowsFrom {n q : ℕ} (hq : (M.part r).neighbours[n]? = some q) {row : List ℤ}
    (h : row ∈ M.rowsFrom r n) : q < M.size ∧ ∃ i < (M.part q).IDs.length,
      row = [((M.begine q + i : ℕ) : ℤ), (M.part q).body.getD i 0, (M.part q).material.getD i 0,
        (((M.epointers q).getD i .POINT1).number : ℤ)]
        ++ window (M.masks q) (M.regionMaskSize * i) (M.regionMaskSize * (i + 1)) ∧
      (window (M.masks q) (M.regionMaskSize * i) (M.regionMaskSize * (i + 1))).length
        = M.regionMaskSize := by
  obtain ⟨hqsize, hne, hback⟩ := M.neighbours_symm r hr q (List.mem_of_getElem? hq)
  rw [rowsFrom, List.getD_eq_getElem?_getD, hq, Option.getD_some] at h
  obtain ⟨e, he, rfl⟩ := List.mem_map.mp h
  obtain ⟨hlow, hhigh, -⟩ := (mem_sent hqsize (ElementMesh.n2i_lt hqsize hback)).mp he
  obtain ⟨i, rfl⟩ := Nat.exists_eq_add_of_le hlow
  rw [ElementMesh.begine_succ] at hhigh
  have hi : i < (M.part q).IDs.length := by omega
  exact ⟨hqsize, i, hi, haloRow_eq hqsize hi rfl⟩

lemma length_rowsFrom {n : ℕ} (hn : n < (M.part r).neighbours.length) :
    ∀ row ∈ M.rowsFrom r n, row.length = 4 + M.regionMaskSize := by
  intro row hrow
  obtain ⟨-, i, -, rfl, hlength⟩ := mem_rowsFrom hr (List.getElem?_eq_getElem hn) hrow
  rw [List.length_append, hlength]
  rfl

lemma received_eq {t : ℕ} (ht : t < (M.part r).threads) :
    (M.part r).received M.regionMaskSize (M.rBuffer r) t
      = (List.range (M.part r).neighbours.length).flatMap fun n =>
        window (M.rowsFrom r n)
          ((Distribution.uniform (M.threads_pos r hr) (M.rowsFrom r n).length).border t)
          ((Distribution.uniform (M.threads_pos r hr) (M.rowsFrom r n).length).border (t + 1)) := by
  rw [ElementPart.received]
  refine List.flatMap_congr fun n hn => ?_
  have hrows := length_rowsFrom hr (List.mem_range.mp hn)
  have hlength : (M.rBuffer r n).length / (4 + M.regionMaskSize) = (M.rowsFrom r n).length := by
    have hsizes : (M.rowsFrom r n).map List.length
        = List.replicate (M.rowsFrom r n).length (4 + M.regionMaskSize) :=
      List.eq_replicate_iff.mpr ⟨List.length_map _, by simpa using hrows⟩
    rw [rBuffer, List.length_flatten, hsizes, List.sum_replicate, smul_eq_mul,
      Nat.mul_div_cancel _ (by omega)]
  have hthreads := M.threads_pos r hr
  have hmono := (Distribution.uniform hthreads (M.rowsFrom r n).length).border_mono
    (Nat.le_succ t) ht
  have hle := (Distribution.uniform hthreads (M.rowsFrom r n).length).border_le_total
    (Nat.succ_le_of_lt ht)
  dsimp only
  rw [hlength, ← uniform_border hthreads _ ht.le, ← uniform_border hthreads _ ht]
  refine List.ext_getElem ?_ fun k hk hk' => ?_
  · rw [List.length_map, List.length_range', length_window _ hle]
  · have hlt : (Distribution.uniform hthreads (M.rowsFrom r n).length).border t + k
        < (M.rowsFrom r n).length := by
      rw [List.length_map, List.length_range'] at hk
      omega
    rw [List.getElem_map, List.getElem_range', Nat.one_mul, rBuffer,
      Serialized.window_flatten hrows hlt]
    simp only [window, List.getElem_take, List.getElem_drop]

lemma received_perm : ((List.range (M.part r).threads).flatMap
    ((M.part r).received M.regionMaskSize (M.rBuffer r))).Perm
      ((List.range (M.part r).neighbours.length).flatMap (M.rowsFrom r)) := by
  rw [List.flatMap_congr fun t ht => received_eq hr (List.mem_range.mp ht)]
  refine (flatMap_swap _ _ _).trans (List.Perm.of_eq (List.flatMap_congr fun n _ => ?_))
  rw [flatMap_window _ _ _ le_rfl, Distribution.border_size, window, List.drop_zero, Nat.sub_zero,
    List.take_length]

end Received

/-! ## The sorted halo -/

def ofRows (rows : List (List ℤ)) : Halo where
  IDs := rows.map fun row => (row.getD 0 0).toNat
  body := rows.map fun row => row.getD 1 0
  material := rows.map fun row => row.getD 2 0
  epointers := rows.map fun row => ElementCode.ofNumber (row.getD 3 0).toNat
  regions := rows.flatMap fun row => row.drop 4

section Sorted

variable {M} {r : ℕ} (hr : r < M.size)

include hr

lemma halo_eq : ∃ rows, (M.part r).halo M.regionMaskSize (M.rBuffer r) = ofRows rows ∧
    rows.Perm ((List.range (M.part r).neighbours.length).flatMap (M.rowsFrom r)) ∧
    (ofRows rows).IDs.Pairwise (· ≤ ·) := by
  set rows := (List.range (M.part r).threads).flatMap
    ((M.part r).received M.regionMaskSize (M.rBuffer r)) with hrows
  have hreceived : rows.Perm _ := received_perm hr
  set permutation := byKey ((ofRows rows).IDs.getD · 0) (ofRows rows).IDs.length with hpermutation
  have hlength : (ofRows rows).IDs.length = rows.length := List.length_map _
  have hperm : permutation.Perm (List.range rows.length) := hlength ▸ positions_perm _ _
  have hwithin : Within permutation rows.length := Within.of_perm hperm
  have htotal : permutation.length = ((List.range (M.part r).threads).map fun t =>
      ((M.part r).received M.regionMaskSize (M.rBuffer r) t).length).sum := by
    rw [hperm.length_eq, List.length_range, hrows, List.length_flatMap]
  have hmap : ∀ {α : Type} (f : List ℤ → α), permuteUniformData 1 (M.part r).threads permutation
      ((M.part r).haloDistribution M.regionMaskSize (M.rBuffer r)).border (rows.map f)
      = (gather permutation rows).map f := by
    intro α f
    rw [permuteUniformData_eq _ htotal (by rwa [List.length_map]), gather_map]
  have hregions : ∀ row ∈ rows.map (List.drop 4), row.length = M.regionMaskSize := by
    intro part hpart
    obtain ⟨row, hrow, rfl⟩ := List.mem_map.mp hpart
    obtain ⟨n, hn, hmem⟩ := List.mem_flatMap.mp (hreceived.mem_iff.mp hrow)
    rw [List.length_drop, length_rowsFrom hr (List.mem_range.mp hn) row hmem,
      Nat.add_sub_cancel_left]
  refine ⟨gather permutation rows, ?_, (gather_perm hperm).trans hreceived, ?_⟩
  · have hpermuted := permuteUniformData_rows
      ((M.part r).haloDistribution M.regionMaskSize (M.rBuffer r)) htotal
      (by rwa [List.length_map]) hregions
    rw [gather_map, ← List.flatMap_def, ← List.flatMap_def] at hpermuted
    rw [ElementPart.halo, ofRows, ← hpermuted, ← hmap, ← hmap, ← hmap, ← hmap]
    rfl
  · have hsorted := gather_byKey_sorted (ofRows rows).IDs
    rw [← hpermutation, ofRows, gather_map] at hsorted
    exact hsorted

lemma rowsFrom_IDs {n q : ℕ} (hq : (M.part r).neighbours[n]? = some q) :
    (M.rowsFrom r n).map (fun row => (row.getD 0 0).toNat)
      = M.sent q (lowerBound (M.part q).neighbours r) := by
  obtain ⟨hqsize, hne, hback⟩ := M.neighbours_symm r hr q (List.mem_of_getElem? hq)
  rw [rowsFrom, List.getD_eq_getElem?_getD, hq, Option.getD_some, List.map_map]
  refine (List.map_congr_left fun e he => ?_).trans (List.map_id _)
  obtain ⟨hlow, hhigh, -⟩ := (mem_sent hqsize (ElementMesh.n2i_lt hqsize hback)).mp he
  obtain ⟨i, rfl⟩ := Nat.exists_eq_add_of_le hlow
  rw [ElementMesh.begine_succ] at hhigh
  rw [Function.comp_apply, (haloRow_eq hqsize (show i < (M.part q).IDs.length by omega) rfl).1]
  rfl

lemma mem_received {e : ℕ} : (∃ row ∈ (List.range (M.part r).neighbours.length).flatMap
    (M.rowsFrom r), (row.getD 0 0).toNat = e) ↔ M.InHalo r e := by
  have hsent : (∃ row ∈ (List.range (M.part r).neighbours.length).flatMap (M.rowsFrom r),
      (row.getD 0 0).toNat = e) ↔ ∃ n q : ℕ, (M.part r).neighbours[n]? = some q ∧
        e ∈ M.sent q (lowerBound (M.part q).neighbours r) := by
    constructor
    · rintro ⟨row, hrow, rfl⟩
      obtain ⟨n, hn, hrow⟩ := List.mem_flatMap.mp hrow
      have hq := List.getElem?_eq_getElem (List.mem_range.mp hn)
      refine ⟨n, _, hq, ?_⟩
      rw [← rowsFrom_IDs hr hq]
      exact List.mem_map_of_mem hrow
    · rintro ⟨n, q, hq, he⟩
      rw [← rowsFrom_IDs hr hq] at he
      obtain ⟨row, hrow, rfl⟩ := List.mem_map.mp he
      exact ⟨row, List.mem_flatMap.mpr ⟨n, List.mem_range.mpr (List.getElem?_eq_some_iff.mp hq).1,
        hrow⟩, rfl⟩
  rw [hsent]
  constructor
  · rintro ⟨n, q, hq, he⟩
    obtain ⟨hqsize, hne, hback⟩ := M.neighbours_symm r hr q (List.mem_of_getElem? hq)
    obtain ⟨hlow, hhigh, x, -, hx, hcontains⟩ :=
      (mem_sent hqsize (ElementMesh.n2i_lt hqsize hback)).mp he
    obtain ⟨i, rfl⟩ := Nat.exists_eq_add_of_le hlow
    rw [ElementMesh.begine_succ] at hhigh
    obtain ⟨k, hk⟩ := List.mem_iff_getElem?.mp hx
    obtain ⟨a, ha, hnode⟩ := M.used r hr k (List.getElem?_eq_some_iff.mp hk).1
    refine ⟨⟨q, hqsize, hne, List.mem_of_getElem?
      ((ElementMesh.getElem?_IDs hqsize).mpr ⟨show i < _ by omega, rfl⟩)⟩, _,
      List.getElem_mem ha, x, hcontains, r, hr, a, k, List.getElem?_eq_getElem ha, hnode, hk⟩
  · rintro ⟨⟨q, hq, hne, he⟩, a, ha, x, hxe, hxa⟩
    -- the node is on both ranks
    have hown : ∀ {p b : ℕ}, p < M.size → b ∈ (M.part p).IDs → ContainsNode M.size M.part x b →
        M.begine p ≤ b ∧ b < M.begine (p + 1) ∧ x ∈ (M.part p).nIDs := by
      intro p b hp hb hxb
      obtain ⟨j, hj⟩ := List.mem_iff_getElem?.mp hb
      obtain ⟨p', hp', i, n, hi, -, hn⟩ := hxb
      obtain ⟨rfl, -⟩ := ElementMesh.position_inj hp hp' hj hi
      obtain ⟨hlt, rfl⟩ := (ElementMesh.getElem?_IDs hp).mp hj
      refine ⟨Nat.le_add_right _ _, ?_, List.mem_of_getElem? hn⟩
      rw [ElementMesh.begine_succ]
      omega
    obtain ⟨hlow, hhigh, hxq⟩ := hown hq he hxe
    obtain ⟨-, -, hxr⟩ := hown hr ha hxa
    have hmem := M.neighbours_of_shared r hr q hq hne ⟨x, hxr, hxq⟩
    have hback := (M.neighbours_symm r hr q hmem).2.2
    exact ⟨_, q, ElementMesh.n2i_lt hr hmem,
      (mem_sent hq (ElementMesh.n2i_lt hq hback)).mpr ⟨hlow, hhigh, x, hxq, hxr, hxe⟩⟩

lemma received_nodup : (((List.range (M.part r).neighbours.length).flatMap (M.rowsFrom r)).map
    fun row => (row.getD 0 0).toNat).Nodup := by
  rw [List.map_flatMap, List.nodup_flatMap]
  constructor
  · intro n hn
    have hq := List.getElem?_eq_getElem (List.mem_range.mp hn)
    obtain ⟨hqsize, -, -⟩ := M.neighbours_symm r hr _ (List.mem_of_getElem? hq)
    rw [rowsFrom_IDs hr hq]
    exact (sent_sorted hqsize _).imp ne_of_lt
  · refine List.pairwise_lt_range.imp_of_mem fun {n m} hn hm hlt => ?_
    have hq := List.getElem?_eq_getElem (List.mem_range.mp hn)
    have hp := List.getElem?_eq_getElem (List.mem_range.mp hm)
    obtain ⟨hqsize, -, hqback⟩ := M.neighbours_symm r hr _ (List.mem_of_getElem? hq)
    obtain ⟨hpsize, -, hpback⟩ := M.neighbours_symm r hr _ (List.mem_of_getElem? hp)
    intro e he he'
    beta_reduce at he he'
    rw [rowsFrom_IDs hr hq] at he
    rw [rowsFrom_IDs hr hp] at he'
    obtain ⟨hlow, hhigh, -⟩ := (mem_sent hqsize (ElementMesh.n2i_lt hqsize hqback)).mp he
    obtain ⟨hlow', hhigh', -⟩ := (mem_sent hpsize (ElementMesh.n2i_lt hpsize hpback)).mp he'
    have hne := List.pairwise_iff_getElem.mp (M.neighbours_ascending r hr) n m
      (List.mem_range.mp hn) (List.mem_range.mp hm) hlt
    have hsource := ElementMesh.source_eq hqsize hlow hhigh
    rw [ElementMesh.source_eq hpsize hlow' hhigh'] at hsource
    omega

lemma haloExact : M.HaloExact r ((M.part r).halo M.regionMaskSize (M.rBuffer r)) := by
  obtain ⟨rows, hhalo, hperm, hsorted⟩ := halo_eq hr
  have hIDs : (ofRows rows).IDs.Perm _ := hperm.map fun row : List ℤ => (row.getD 0 0).toNat
  have hrow : ∀ row ∈ rows, ∃ q < M.size, ∃ i < (M.part q).IDs.length,
      row = [((M.begine q + i : ℕ) : ℤ), (M.part q).body.getD i 0, (M.part q).material.getD i 0,
        (((M.epointers q).getD i .POINT1).number : ℤ)]
        ++ window (M.masks q) (M.regionMaskSize * i) (M.regionMaskSize * (i + 1)) ∧
      (window (M.masks q) (M.regionMaskSize * i) (M.regionMaskSize * (i + 1))).length
        = M.regionMaskSize := by
    intro row hmem
    obtain ⟨n, hn, hmem⟩ := List.mem_flatMap.mp (hperm.mem_iff.mp hmem)
    obtain ⟨hq, h⟩ := mem_rowsFrom hr (List.getElem?_eq_getElem (List.mem_range.mp hn)) hmem
    exact ⟨_, hq, h⟩
  have hmasks : ∀ mask ∈ rows.map (List.drop 4), mask.length = M.regionMaskSize := by
    intro mask hmask
    obtain ⟨row, hmem, rfl⟩ := List.mem_map.mp hmask
    obtain ⟨q, -, i, -, rfl, hlength⟩ := hrow row hmem
    exact hlength
  have hregions : (ofRows rows).regions = (rows.map (List.drop 4)).flatten := List.flatMap_def
  rw [hhalo]
  refine ⟨?_, fun e => ?_, fun j e hj => ?_, ?_⟩
  · have hnodup : (ofRows rows).IDs.Nodup := hIDs.nodup_iff.mpr (received_nodup hr)
    exact (hsorted.and hnodup).imp fun h => lt_of_le_of_ne h.1 h.2
  · rw [hIDs.mem_iff, List.mem_map, mem_received hr]
  · rw [ofRows, List.getElem?_map, Option.map_eq_some_iff] at hj
    obtain ⟨row, hj, hID⟩ := hj
    have hlt := (List.getElem?_eq_some_iff.mp hj).1
    obtain ⟨q, hq, i, hi, hroweq, -⟩ := hrow row (List.mem_of_getElem? hj)
    have he : e = M.begine q + i := by
      rw [← hID, hroweq]
      rfl
    have hbody : i < (M.part q).body.length := by rwa [M.body_length q hq]
    have hmaterial : i < (M.part q).material.length := by rwa [M.material_length q hq]
    have hcode : i < (M.epointers q).length := by rwa [M.epointers_length q hq]
    refine ⟨q, hq, i, (ElementMesh.getElem?_IDs hq).mpr ⟨hi, he⟩, ?_, ?_, ?_, ?_⟩
    · rw [ofRows, List.getElem?_map, hj, hroweq, List.getElem?_eq_getElem hbody]
      exact congrArg some (List.getD_eq_getElem _ _ hbody)
    · rw [ofRows, List.getElem?_map, hj, hroweq, List.getElem?_eq_getElem hmaterial]
      exact congrArg some (List.getD_eq_getElem _ _ hmaterial)
    · rw [ofRows, List.getElem?_map, hj, hroweq, List.getElem?_eq_getElem hcode]
      refine congrArg some ?_
      rw [← List.getD_eq_getElem _ .POINT1 hcode]
      exact ElementCode.ofNumber_number _
    · have hlt' : j < (rows.map (List.drop 4)).length := by rwa [List.length_map]
      rw [hregions, Serialized.window_flatten hmasks hlt', List.getElem_map,
        (List.getElem?_eq_some_iff.mp hj).2, hroweq]
      rfl
  · have hsizes : (rows.map (List.drop 4)).map List.length
        = List.replicate rows.length M.regionMaskSize :=
      List.eq_replicate_iff.mpr ⟨by simp, by simpa using hmasks⟩
    refine ⟨by simp [ofRows], by simp [ofRows], by simp [ofRows], ?_⟩
    rw [hregions, List.length_flatten, hsizes, List.sum_replicate, smul_eq_mul, Nat.mul_comm]
    simp [ofRows]

end Sorted

lemma length_haloBuffer {r n : ℕ} (hr : r < M.size) (hn : n < (M.part r).neighbours.length) :
    ((M.part r).haloBuffer (M.epointers r) M.regionMaskSize (M.masks r) M.boundaries
      (M.sent r n)).length = (4 + M.regionMaskSize) * (M.sent r n).length := by
  have hrows : ∀ row ∈ (M.sent r n).map ((M.part r).haloRow (M.epointers r) M.regionMaskSize
      (M.masks r) M.boundaries), row.length = 4 + M.regionMaskSize := by
    intro row hrow
    obtain ⟨e, he, rfl⟩ := List.mem_map.mp hrow
    obtain ⟨hlow, hhigh, -⟩ := (mem_sent hr (List.getElem?_eq_getElem hn)).mp he
    obtain ⟨i, rfl⟩ := Nat.exists_eq_add_of_le hlow
    rw [ElementMesh.begine_succ] at hhigh
    obtain ⟨hroweq, hlength⟩ := haloRow_eq hr (show i < (M.part r).IDs.length by omega) rfl
    rw [hroweq, List.length_append, hlength]
    rfl
  have hsizes : ((M.sent r n).map ((M.part r).haloRow (M.epointers r) M.regionMaskSize (M.masks r)
      M.boundaries)).map List.length
      = List.replicate (M.sent r n).length (4 + M.regionMaskSize) :=
    List.eq_replicate_iff.mpr ⟨by simp, by simpa using hrows⟩
  rw [haloBuffer_eq hr, List.length_flatten, hsizes, List.sum_replicate, smul_eq_mul,
    Nat.mul_comm]

lemma exchangeHalo_eq : M.exchangeHalo = if ∀ r < M.size, ∀ n < (M.part r).neighbours.length,
      4 * ((4 + M.regionMaskSize) * (M.sent r n).length) ≤ limit then
    some ((List.range M.size).map fun r => (M.part r).halo M.regionMaskSize (M.rBuffer r))
    else none := by
  have hsent : (List.range M.size).mapM (fun r =>
      (M.part r).hElements M.boundaries (M.nodeDistribution r).border)
      = some ((List.range M.size).map M.sent) := by
    refine Fallible.mapM_eq_some fun r hr => ?_
    rw [sent, hElements_eq (List.mem_range.mp hr), Option.getD_some]
  have hget : ∀ r < M.size, ((List.range M.size).map M.sent).getD r (fun _ => []) = M.sent r := by
    intro r hr
    rw [List.getD_eq_getElem?_getD, List.getElem?_map, List.getElem?_range hr, Option.map_some,
      Option.getD_some]
  have hfits : (∀ r < M.size, ∀ n < (M.part r).neighbours.length,
      4 * ((M.part r).haloBuffer (M.epointers r) M.regionMaskSize (M.masks r) M.boundaries
        (((List.range M.size).map M.sent).getD r (fun _ => []) n)).length ≤ limit) ↔
      ∀ r < M.size, ∀ n < (M.part r).neighbours.length,
        4 * ((4 + M.regionMaskSize) * (M.sent r n).length) ≤ limit :=
    forall₂_congr fun r hr => forall₂_congr fun n hn => by
      rw [hget r hr, length_haloBuffer M hr hn]
  rw [exchangeHalo, hsent, Option.bind_eq_bind, Option.bind_some, exchangeUnknownSize]
  by_cases h : ∀ r < M.size, ∀ n < (M.part r).neighbours.length,
      4 * ((4 + M.regionMaskSize) * (M.sent r n).length) ≤ limit
  · rw [if_pos h, if_pos (hfits.mpr h), Option.bind_eq_bind, Option.bind_some, Option.pure_def]
    refine congrArg some (List.map_congr_left fun r hr => congrArg _ (funext fun n => ?_))
    have hr := List.mem_range.mp hr
    have hsource : (M.part r).neighbours.getD n 0 < M.size := by
      rcases Nat.lt_or_ge n (M.part r).neighbours.length with hn | hn
      · rw [List.getD_eq_getElem _ _ hn]
        exact (M.neighbours_symm r hr _ (List.getElem_mem hn)).1
      · rw [List.getD_eq_default _ _ hn]
        exact Nat.zero_lt_of_lt hr
    dsimp only
    rw [hget _ hsource, haloBuffer_eq hsource]
    rfl
  · rw [if_neg h, if_neg (mt hfits.mp h)]
    rfl

/-- **`MeshPreprocessing::exchangeHalo` gives each rank its halo**, unless a message is too large.
-/
theorem halo_exact : (M.exchangeHalo = none ↔ ∃ r < M.size, ∃ n < (M.part r).neighbours.length,
      limit < 4 * ((4 + M.regionMaskSize) * (M.sent r n).length)) ∧
    ∀ out, M.exchangeHalo = some out → out.length = M.size ∧
      ∀ (r : ℕ) (H : Halo), out[r]? = some H → M.HaloExact r H := by
  rw [exchangeHalo_eq]
  constructor
  · rw [ite_eq_right_iff]
    simp only [reduceCtorEq, imp_false]
    push Not
    rfl
  · intro out hout
    obtain ⟨-, hout⟩ := Option.ite_none_right_eq_some.mp hout
    obtain rfl := Option.some.inj hout
    refine ⟨by rw [List.length_map, List.length_range], fun r H hH => ?_⟩
    rw [List.getElem?_map, Option.map_eq_some_iff] at hH
    obtain ⟨q, hq, rfl⟩ := hH
    obtain ⟨hr, rfl⟩ := List.getElem?_eq_some_iff.mp hq
    rw [List.length_range] at hr
    rw [List.getElem_range]
    exact haloExact hr

end HaloMesh

end Espreso
