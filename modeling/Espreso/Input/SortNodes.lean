import Espreso.Basis.Serialized

/-!
# Nodes sorted by their IDs

`Input::sortNodes` sorts the nodes of a rank. What is known about a node is stored in several
arrays, and the elements store the positions of their nodes.

* `NodeData` — the arrays, `NodeData.node` — all that is stored for one node.
* **`NodeData.sortNodes_sorted`** — each node keeps what is stored for it, and each element keeps
  its nodes.
-/

namespace Espreso

open Reorder

/-- The members of `PlainMeshData` and `Input` that `sortNodes` reorders. The words of `_nregions`
are flags, `_nregsize` of them for a node. -/
structure NodeData (Point : Type) where
  nIDs : List ℤ
  coordinates : List Point
  nrankdist : List ℕ
  nranks : List ℕ
  nregsize : ℕ
  nregions : List ℕ
  enodes : List ℕ

namespace NodeData

variable {Point : Type}

section Functions

variable [Inhabited Point] (S : Sorting ℤ) (M : NodeData Point)

/-- `permutation`: `iota`, sorted by the IDs. -/
def permutation : List ℕ := S.sort (M.nIDs.getD · 0) M.nIDs.length

/-- The distribution and the entries of `_nranks`, if there are any. There is no result if a
position is out of range. -/
def sortRanks (permutation : List ℕ) : Option (List ℕ × List ℕ) :=
  if M.nranks.length = 0 then some (M.nrankdist, M.nranks) else do
    let ranges ← permutation.mapM fun p => do
      let first ← M.nrankdist[p]?
      let last ← M.nrankdist[p + 1]?
      pure (first, last - first)
    let npermutation ← blocks (ranges.map Prod.fst) (ranges.map Prod.snd) M.nranks.length
    let nranks ← permute M.nranks npermutation 1
    pure ((ranges.map Prod.snd).scanl (· + ·) (M.nrankdist.headD 0), nranks)

/-- `enodes` with the new positions of the nodes, if they are asked for. -/
def renumberNodes (permutation : List ℕ) (withElementNodes : Bool) : Option (List ℕ) :=
  if withElementNodes then M.enodes.mapM fun n => (backpermutation permutation)[n]?
  else some M.enodes

/-- **`Input::sortNodes`** -/
def sortNodes (withElementNodes : Bool) : Option (NodeData Point) :=
  if M.nIDs.Pairwise (· ≤ ·) then some M else do
    let permutation := M.permutation S
    let coordinates ← permute M.coordinates permutation 1
    let nregions ← permute M.nregions permutation M.nregsize
    let (nrankdist, nranks) ← M.sortRanks permutation
    let enodes ← M.renumberNodes permutation withElementNodes
    pure { M with
      nIDs := M.nIDs.mergeSort
      coordinates := coordinates
      nregions := nregions
      nrankdist := nrankdist
      nranks := nranks
      enodes := enodes }

end Functions

/-! ## What is stored for a node -/

/-- What is stored at one position of the arrays. -/
structure Stored (Point : Type) where
  nID : Option ℤ
  coordinate : Option Point
  regions : List ℕ
  ranks : List ℕ

variable (M : NodeData Point)

/-- What is stored for node `i`. -/
def node (i : ℕ) : Stored Point where
  nID := M.nIDs[i]?
  coordinate := M.coordinates[i]?
  regions := window M.nregions (M.nregsize * i) (M.nregsize * (i + 1))
  ranks := (Serialized.mk M.nrankdist M.nranks).row i

/-- The arrays have entries for all nodes. Region words and ranks may be missing altogether. -/
structure WellFormed : Prop where
  coordinates_length : M.coordinates.length = M.nIDs.length
  nregsize_pos : 0 < M.nregsize
  nregions_length : M.nregions ≠ [] → M.nregions.length = M.nregsize * M.nIDs.length
  nranks_eq : M.nranks ≠ [] → ∃ rows : List (List ℕ), rows.length = M.nIDs.length ∧
    M.nrankdist = offsets (rows.map List.length) ∧ M.nranks = rows.flatten

/-- **The nodes are sorted**: `σ` gives the old position of each node. -/
structure SortedNodes (M M' : NodeData Point) (withElementNodes : Bool) : Prop where
  ascending : M'.nIDs.Pairwise (· ≤ ·)
  nIDs_perm : M'.nIDs.Perm M.nIDs
  moved : ∃ σ : List ℕ, σ.Perm (List.range M.nIDs.length) ∧
    ∀ i p : ℕ, σ[i]? = some p → M'.node i = M.node p
  kept : M.nIDs.Nodup → ∀ (i j : ℕ) (nID : ℤ), M'.nIDs[i]? = some nID → M.nIDs[j]? = some nID →
    M'.node i = M.node j
  enodes_length : M'.enodes.length = M.enodes.length
  enodes_eq : ∀ k n n' : ℕ, M.enodes[k]? = some n → M'.enodes[k]? = some n' →
    if withElementNodes then M'.node n' = M.node n else n' = n

/-! ## The reordered arrays -/

variable {M} {S : Sorting ℤ}

lemma permutation_perm (S : Sorting ℤ) (M : NodeData Point) :
    (M.permutation S).Perm (List.range M.nIDs.length) := S.perm _ _

lemma mergeSort_nIDs (S : Sorting ℤ) (M : NodeData Point) :
    M.nIDs.mergeSort = gather (M.permutation S) M.nIDs := by
  have hgather : (gather (M.permutation S) M.nIDs).Pairwise (· ≤ ·) := by
    rw [gather, List.pairwise_filterMap]
    refine (S.sorted (M.nIDs.getD · 0) M.nIDs.length).imp fun {a b} hab x hx y hy => ?_
    rwa [List.getD_eq_getElem?_getD, List.getD_eq_getElem?_getD, hx, hy] at hab
  have hperm := (List.mergeSort_perm M.nIDs fun a b => decide (a ≤ b)).trans
    (gather_perm (permutation_perm S M)).symm
  exact hperm.eq_of_pairwise' (List.pairwise_mergeSort' (· ≤ ·) M.nIDs) hgather

lemma permute_nregions (h : M.WellFormed) {σ : List ℕ} (hσ : σ.Perm (List.range M.nIDs.length)) :
    ∃ out, permute M.nregions σ M.nregsize = some out ∧
      (out ≠ [] → out.length = M.nregsize * M.nIDs.length) ∧
      ∀ i p : ℕ, σ[i]? = some p → window out (M.nregsize * i) (M.nregsize * (i + 1))
        = window M.nregions (M.nregsize * p) (M.nregsize * (p + 1)) := by
  rcases eq_or_ne M.nregions [] with hnil | hne
  · refine ⟨[], ?_, fun h => absurd rfl h, fun i p _ => ?_⟩
    · rw [hnil, permute, List.length_nil, Nat.zero_div, Nat.mul_zero]
      rfl
    · rw [hnil, window, window, List.drop_nil, List.drop_nil, List.take_nil, List.take_nil]
  · have hlength := h.nregions_length hne
    obtain ⟨out, hout, houtlength, hentry⟩ := permute_rows h.nregsize_pos hlength hσ
    refine ⟨out, hout, fun _ => houtlength, fun i p hp => ?_⟩
    have hi : i < M.nIDs.length := by
      have := (List.getElem?_eq_some_iff.mp hp).1
      rwa [hσ.length_eq, List.length_range] at this
    have hlt : p < M.nIDs.length := Within.of_perm hσ p (List.mem_of_getElem? hp)
    refine List.ext_getElem? fun e => ?_
    have hsize : ∀ q, M.nregsize * (q + 1) - M.nregsize * q = M.nregsize := by
      intro q
      rw [Nat.mul_succ, Nat.add_sub_cancel_left]
    rw [window, window, hsize, hsize, List.getElem?_take, List.getElem?_take, List.getElem?_drop,
      List.getElem?_drop]
    split_ifs with he
    · exact hentry i p hp e he
    · rfl

lemma mapM_ranges {sizes σ : List ℕ} (hσ : Within σ sizes.length) :
    (σ.mapM fun p => do
      let first ← (offsets sizes)[p]?
      let last ← (offsets sizes)[p + 1]?
      pure (first, last - first))
      = some ((gather σ (offsets sizes)).zip (gather σ sizes)) := by
  induction σ with
  | nil => rfl
  | cons p σ ih =>
      have hp := hσ p List.mem_cons_self
      have hpo : p < (offsets sizes).length := by rw [length_offsets]; omega
      have hfirst := getElem?_offsets sizes hp.le
      have hlast := getElem?_offsets sizes (Nat.succ_le_of_lt hp)
      rw [List.sum_take_succ sizes p hp] at hlast
      rw [gather_cons hpo, gather_cons hp, List.zip_cons_cons, List.mapM_cons,
        ih fun q hq => hσ q (List.mem_cons_of_mem p hq), hlast]
      rw [List.getElem?_eq_getElem hpo] at hfirst ⊢
      rw [Option.some.inj hfirst]
      simp only [Option.bind_eq_bind, Option.bind_some, Option.pure_def, Nat.add_sub_cancel_left]

lemma sortRanks_eq (h : M.WellFormed) {σ : List ℕ} (hσ : σ.Perm (List.range M.nIDs.length)) :
    ∃ nrankdist nranks, M.sortRanks σ = some (nrankdist, nranks) ∧
      (nranks ≠ [] → ∃ rows : List (List ℕ), rows.length = M.nIDs.length ∧
        nrankdist = offsets (rows.map List.length) ∧ nranks = rows.flatten) ∧
      ∀ i p : ℕ, σ[i]? = some p → (Serialized.mk nrankdist nranks).row i
        = (Serialized.mk M.nrankdist M.nranks).row p := by
  rcases eq_or_ne M.nranks [] with hnil | hne
  · refine ⟨M.nrankdist, M.nranks, ?_, h.nranks_eq, fun i p _ => ?_⟩
    · rw [sortRanks, if_pos (List.length_eq_zero_iff.mpr hnil)]
    · rw [hnil, Serialized.row, Serialized.row, window, window, List.drop_nil, List.drop_nil,
        List.take_nil, List.take_nil]
  · obtain ⟨rows, hrows, hdist, hranks⟩ := h.nranks_eq hne
    have hlength : (rows.map List.length).length = M.nIDs.length := by rw [List.length_map, hrows]
    have hwithin : Within σ rows.length := by
      rw [hrows]
      exact Within.of_perm hσ
    have hsizes : gather σ (rows.map List.length) = (gather σ rows).map List.length :=
      gather_map List.length
    rw [← hlength] at hσ
    have hsum : M.nranks.length = (rows.map List.length).sum := by
      rw [hranks, List.length_flatten]
    obtain ⟨npermutation, hblocks, hpermute⟩ := permute_blocks hsum hσ
    rw [hranks, splitLengths_flatten, ← hranks] at hpermute
    have hzip : (gather σ (offsets (rows.map List.length))).length
        = (gather σ (rows.map List.length)).length := by
      rw [length_gather (Within.of_perm hσ), length_gather fun p hp => ?_]
      rw [length_offsets]
      exact Nat.lt_succ_of_lt (Within.of_perm hσ p hp)
    refine ⟨offsets ((gather σ rows).map List.length), (gather σ rows).flatten, ?_, fun _ =>
      ⟨gather σ rows, ?_, rfl, rfl⟩, fun i p hp => ?_⟩
    · have hhead : (offsets (rows.map List.length)).headD 0 = 0 := by
        rw [offsets, List.headD_eq_head?_getD, List.head?_scanl, Option.getD_some]
      rw [sortRanks, if_neg (mt List.length_eq_zero_iff.mp hne), hdist,
        mapM_ranges (Within.of_perm hσ), Option.bind_eq_bind, Option.bind_some,
        List.map_fst_zip hzip.le, List.map_snd_zip hzip.ge, hblocks]
      simp only [Option.bind_eq_bind, Option.bind_some, hpermute, Option.pure_def, hsizes,
        hhead]
      rfl
    · rw [length_gather hwithin, hσ.length_eq, List.length_range, hlength]
    · have hi : i < (gather σ rows).length := by
        rw [length_gather hwithin]
        exact (List.getElem?_eq_some_iff.mp hp).1
      have hlt : p < rows.length := hwithin p (List.mem_of_getElem? hp)
      have hrow := getElem?_gather hwithin i
      rw [hp, Option.bind_some, List.getElem?_eq_getElem hi, List.getElem?_eq_getElem hlt,
        Option.some.injEq] at hrow
      rw [hdist, hranks]
      exact (Serialized.row_ofRows hi).trans (hrow.trans (Serialized.row_ofRows hlt).symm)

lemma exists_enodes {σ : List ℕ} (hσ : σ.Perm (List.range M.nIDs.length))
    {withElementNodes : Bool}
    (henodes : withElementNodes = true → ∀ n ∈ M.enodes, n < M.nIDs.length) :
    ∃ enodes, M.renumberNodes σ withElementNodes = some enodes ∧
      enodes.length = M.enodes.length ∧
      ∀ k n n' : ℕ, M.enodes[k]? = some n → enodes[k]? = some n' →
        if withElementNodes then σ[n']? = some n else n' = n := by
  cases withElementNodes with
  | false =>
      refine ⟨M.enodes, rfl, rfl, fun k n n' hn hn' => ?_⟩
      exact Option.some.inj (hn'.symm.trans hn)
  | true =>
      have hplace : ∀ n ∈ M.enodes, ∃ i, (backpermutation σ)[n]? = some i ∧ σ[i]? = some n := by
        intro n hn
        have hmem : n ∈ σ := hσ.mem_iff.mpr (List.mem_range.mpr (henodes rfl n hn))
        obtain ⟨i, hi⟩ := List.mem_iff_getElem?.mp hmem
        exact ⟨i, getElem?_backpermutation hσ hi, hi⟩
      obtain ⟨enodes, hout⟩ := Fallible.exists_mapM fun n hn =>
        (hplace n hn).imp fun _ hi => hi.1
      have hmap := Fallible.mapM_eq_some_iff.mp hout
      refine ⟨enodes, hout, ?_, fun k n n' hn hn' => ?_⟩
      · have hlength := congrArg List.length hmap
        rw [List.length_map, List.length_map] at hlength
        exact hlength.symm
      · obtain ⟨i, hi, hσi⟩ := hplace n (List.mem_of_getElem? hn)
        have hk := congrArg (·[k]?) hmap
        simp only [List.getElem?_map, hn, hn', Option.map_some, hi, Option.some.injEq] at hk
        rw [if_pos rfl, ← hk]
        exact hσi

/-! ## The sorted nodes -/

lemma kept_of_moved {M' : NodeData Point} {σ : List ℕ} (hσ : σ.Perm (List.range M.nIDs.length))
    (hlength : M'.nIDs.length = M.nIDs.length)
    (hmoved : ∀ i p : ℕ, σ[i]? = some p → M'.node i = M.node p) (hnodup : M.nIDs.Nodup)
    (i j : ℕ) (nID : ℤ) (hi : M'.nIDs[i]? = some nID) (hj : M.nIDs[j]? = some nID) :
    M'.node i = M.node j := by
  have hlt : i < σ.length := by
    rw [hσ.length_eq, List.length_range, ← hlength]
    exact (List.getElem?_eq_some_iff.mp hi).1
  have hnode := hmoved i _ (List.getElem?_eq_getElem hlt)
  have hID : M.nIDs[σ[i]]? = some nID := (congrArg Stored.nID hnode).symm.trans hi
  have heq : σ[i] = j :=
    (List.getElem?_inj (List.getElem?_eq_some_iff.mp hID).1 hnodup).mp (hID.trans hj.symm)
  rw [hnode, heq]

variable [Inhabited Point]

/-- **`Input::sortNodes`** sorts the nodes, and keeps what is stored for each node and for each
element. -/
theorem sortNodes_sorted (S : Sorting ℤ) (M : NodeData Point) (h : M.WellFormed)
    (withElementNodes : Bool)
    (helements : withElementNodes = true → ∀ n ∈ M.enodes, n < M.nIDs.length) :
    ∃ M', M.sortNodes S withElementNodes = some M' ∧ M'.WellFormed ∧
      SortedNodes M M' withElementNodes := by
  by_cases hsorted : M.nIDs.Pairwise (· ≤ ·)
  · have hrange : (List.range M.nIDs.length).Perm (List.range M.nIDs.length) := List.Perm.refl _
    have hmoved : ∀ i p : ℕ, (List.range M.nIDs.length)[i]? = some p → M.node i = M.node p := by
      intro i p hp
      obtain ⟨hi, rfl⟩ := List.getElem?_eq_some_iff.mp hp
      rw [List.getElem_range]
    refine ⟨M, if_pos hsorted, h, hsorted, List.Perm.refl _, ⟨_, hrange, hmoved⟩,
      kept_of_moved hrange rfl hmoved, rfl, fun k n n' hn hn' => ?_⟩
    have heq := Option.some.inj (hn'.symm.trans hn)
    split_ifs
    · rw [heq]
    · exact heq
  · have hσ := permutation_perm S M
    have hcoordinates := permute_eq (h.coordinates_length ▸ hσ)
    obtain ⟨nregions, hnregions, hnlength, hwords⟩ := permute_nregions h hσ
    obtain ⟨nrankdist, nranks, hnranks, hrows, hlists⟩ := sortRanks_eq h hσ
    obtain ⟨enodes, henodes, helength, hentry⟩ := exists_enodes hσ helements
    have hnIDs := mergeSort_nIDs S M
    have hlength : (M.nIDs.mergeSort fun a b => decide (a ≤ b)).length = M.nIDs.length :=
      List.length_mergeSort _
    have hwithin := Within.of_perm hσ
    let M' : NodeData Point :=
      { M with
        nIDs := M.nIDs.mergeSort
        coordinates := gather (M.permutation S) M.coordinates
        nregions := nregions
        nrankdist := nrankdist
        nranks := nranks
        enodes := enodes }
    have hmoved : ∀ i p : ℕ, (M.permutation S)[i]? = some p → M'.node i = M.node p := by
      intro i p hp
      have hID : M'.nIDs[i]? = M.nIDs[p]? := by
        change M.nIDs.mergeSort[i]? = _
        rw [hnIDs, getElem?_gather hwithin, hp, Option.bind_some]
      have hcoordinate : M'.coordinates[i]? = M.coordinates[p]? := by
        rw [getElem?_gather (h.coordinates_length ▸ hwithin), hp, Option.bind_some]
      rw [node, node, hID, hcoordinate, hwords i p hp, hlists i p hp]
    refine ⟨M', ?_, ⟨?_, h.nregsize_pos, ?_, ?_⟩, List.pairwise_mergeSort' (· ≤ ·) M.nIDs,
      List.mergeSort_perm M.nIDs _, ⟨_, hσ, hmoved⟩, kept_of_moved hσ hlength hmoved,
      helength, fun k n n' hn hn' => ?_⟩
    · simp only [sortNodes, if_neg hsorted, hcoordinates, hnregions, hnranks, henodes,
        Option.bind_eq_bind, Option.bind_some, Option.pure_def]
      rfl
    · rw [length_gather (h.coordinates_length ▸ hwithin), hσ.length_eq, List.length_range, hlength]
    · rw [hlength]
      exact hnlength
    · rw [hlength]
      exact hrows
    · have hplace := hentry k n n' hn hn'
      split_ifs at hplace ⊢
      · exact hmoved n' n hplace
      · exact hplace

/-- Three nodes in an order that is moved around, with an element that has all of them. -/
def threeNodes : NodeData ℕ where
  nIDs := [20, 30, 10]
  coordinates := [2, 3, 1]
  nrankdist := [0, 1, 3, 3]
  nranks := [0, 0, 1]
  nregsize := 2
  nregions := [4, 0, 5, 1, 6, 0]
  enodes := [0, 1, 2, 0]

lemma threeNodes_wellFormed : threeNodes.WellFormed where
  coordinates_length := rfl
  nregsize_pos := Nat.two_pos
  nregions_length := fun _ => rfl
  nranks_eq := fun _ => ⟨[[0], [0, 1], []], rfl, rfl, rfl⟩

theorem sortNodes_sorted_threeNodes :
    ∃ M', threeNodes.sortNodes Sorting.stable true = some M' ∧ M'.WellFormed ∧
      SortedNodes threeNodes M' true :=
  sortNodes_sorted Sorting.stable threeNodes threeNodes_wellFormed true (by decide)

end NodeData

end Espreso
