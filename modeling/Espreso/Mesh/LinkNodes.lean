import Espreso.Mesh.NodeRows

/-!
# Links of nodes to the elements of all ranks

`MeshPreprocessing::linkNodesAndElements` on all ranks: each rank sends the links of its own
elements to the other ranks of their nodes, and merges its links with those that it receives.

* `LinkMesh` — the mesh of all ranks.
* **`links_right_iff`** — the links are right if and only if each node belongs to an element of
  its rank, but for nodes that are alone in a thread and behind all links.
-/

namespace Espreso

/-- The mesh of all ranks, with exact lists of the ranks of nodes.  Ranks with a common node are
neighbours, and elements have different IDs. -/
structure LinkMesh where
  size : ℕ
  part : ℕ → LocalMesh
  rank_eq : ∀ r < size, (part r).rank = r
  ranks_exact : ∀ r < size, ∀ n x : ℕ, (part r).IDs[n]? = some x →
    (part r).ranks[n]? = some ((List.range size).filter fun q => x ∈ (part q).IDs)
  neighbours_symm : ∀ r < size, ∀ q ∈ (part r).neighbours,
    q < size ∧ q ≠ r ∧ r ∈ (part q).neighbours
  neighbours_of_shared : ∀ r < size, ∀ q < size, q ≠ r →
    (∃ x ∈ (part r).IDs, x ∈ (part q).IDs) → q ∈ (part r).neighbours
  elements_unique :
    ((List.range size).flatMap fun r => (part r).elements.flatten.map Prod.fst).Nodup

namespace LinkMesh

variable (M : LinkMesh)

/-- **`MeshPreprocessing::linkNodesAndElements`** on all ranks. A link has eight bytes. `seen r t`
tells whether thread `t` of rank `r` reads the first link behind its own after another thread has
changed it. -/
def linkNodesAndElements (seen : ℕ → ℕ → Bool) : Option (List Links) := do
  let stages ← (List.range M.size).mapM fun r => (M.part r).localStage (seen r)
  let rBuffer ← exchangeUnknownSize M.size 8 (fun r => (M.part r).neighbours) fun r n =>
    (stages.getD r ⟨[], []⟩).sBuffer n
  (List.range M.size).mapM fun r =>
    (M.part r).buildLinks (mergeAppendedData (stages.getD r ⟨[], []⟩).links
      ((List.range (M.part r).neighbours.length).map (rBuffer r)))

/-- Element `e` of some rank contains the node with ID `x`. -/
def Contains (x e : ℕ) : Prop :=
  ∃ q < M.size, ∃ el ∈ (M.part q).elements.flatten,
    el.1 = e ∧ ∃ n ∈ el.2, (M.part q).IDs[n]? = some x

/-- **Every node has the elements that contain it**, in ascending order. -/
def LinkedRight (out : List Links) : Prop :=
  ∀ r < M.size, ∃ L, out[r]? = some L ∧ ∀ n x : ℕ, (M.part r).IDs[n]? = some x →
    (L.row n).Pairwise (· < ·) ∧ ∀ e, e ∈ L.row n ↔ M.Contains x e

/-- The nodes of elements of rank `r` that rank `q` has. -/
def shared (r q : ℕ) : List ℕ :=
  (M.part r).elements.flatten.flatMap fun e => e.2.filter fun n => q ∈ (M.part r).ranks.getD n []

/-- **When the links are right**: a rank has nodes, and a node belongs to an element of the rank. It
may also be alone in its thread and behind all nodes of elements of the rank, if an element of
another rank contains it or the thread is the last one. And no message is too large. -/
structure Attached (r : ℕ) : Prop where
  nonempty : 0 < (M.part r).IDs.length
  linked : ∀ n < (M.part r).IDs.length, (M.part r).Linked n ∨ ((M.part r).Skipped n ∧
    ((∃ e, M.Contains ((M.part r).IDs.getD n 0) e) ∨
      (M.part r).border ((M.part r).threads - 1) = n))
  fits : ∀ q ∈ (M.part r).neighbours, 8 * (M.shared r q).length ≤ limit

/-! ## The links behind the exchange -/

def ownLinks (r : ℕ) : List Link :=
  (M.part r).localLinks.map fun l => ((M.part r).IDs.getD l.1 0, l.2)

/-- What rank `q` sends to rank `r`. -/
def message (q r : ℕ) : List Link := (M.ownLinks q).filter fun l => l.1 ∈ (M.part r).IDs

def merged (r : ℕ) : List Link :=
  mergeAppendedData (M.ownLinks r) ((M.part r).neighbours.map fun q => M.message q r)

section Links

variable {M} {r : ℕ} (hr : r < M.size)

include hr

lemma mem_ranks {n x q : ℕ} (hn : (M.part r).IDs[n]? = some x) :
    q ∈ (M.part r).ranks.getD n [] ↔ q < M.size ∧ x ∈ (M.part q).IDs := by
  rw [List.getD_eq_getElem?_getD, M.ranks_exact r hr n x hn, Option.getD_some, List.mem_filter,
    List.mem_range, decide_eq_true_eq]

lemma ranks_ascending (n : ℕ) : ((M.part r).ranks.getD n []).Pairwise (· < ·) := by
  rcases Nat.lt_or_ge n (M.part r).IDs.length with hn | hn
  · rw [List.getD_eq_getElem?_getD, M.ranks_exact r hr n _ (List.getElem?_eq_getElem hn),
      Option.getD_some]
    exact List.pairwise_lt_range.filter _
  · rw [List.getD_eq_default _ _ (by rwa [(M.part r).ranks_length])]
    exact List.Pairwise.nil

lemma mem_neighbours {n q : ℕ} (hq : q ∈ (M.part r).ranks.getD n []) (hne : q ≠ (M.part r).rank) :
    q ∈ (M.part r).neighbours := by
  rcases Nat.lt_or_ge n (M.part r).IDs.length with hn | hn
  · have hget := List.getElem?_eq_getElem hn
    obtain ⟨hqlt, hmem⟩ := (mem_ranks hr hget).mp hq
    rw [M.rank_eq r hr] at hne
    exact M.neighbours_of_shared r hr q hqlt hne ⟨_, List.getElem_mem hn, hmem⟩
  · rw [List.getD_eq_default _ _ (by rwa [(M.part r).ranks_length])] at hq
    exact absurd hq List.not_mem_nil

lemma targets_ranks (n : ℕ) :
    (M.part r).targets 0 ((M.part r).ranks.getD n []) = some ((M.part r).targetsOf n) :=
  LocalMesh.targets_eq (ranks_ascending hr n) (fun _ hq hne => mem_neighbours hr hq hne)
    fun _ _ => Nat.zero_le _

lemma sBuffer_eq {i q : ℕ} (hq : (M.part r).neighbours[i]? = some q) :
    LocalLinks.sBuffer ⟨M.ownLinks r,
      (List.range (M.part r).IDs.length).flatMap (M.part r).sendsOf⟩ i = M.message r q := by
  have hqmem := List.mem_of_getElem? hq
  obtain ⟨hqlt, hqne, -⟩ := M.neighbours_symm r hr q hqmem
  have hindex := lowerBound_getElem? (M.part r).neighbours_ascending hq
  have hsends : ∀ n < (M.part r).IDs.length,
      (((M.part r).sendsOf n).filter fun s => s.1 = i).flatMap Prod.snd
        = ((M.part r).labelled n).filter fun l => l.1 ∈ (M.part q).IDs := by
    intro n hn
    have hget := List.getElem?_eq_getElem hn
    have hID : (M.part r).IDs.getD n 0 = (M.part r).IDs[n] := List.getD_eq_getElem _ _ hn
    have htargets : ((M.part r).targetsOf n).filter (fun i' => i' = i)
        = if q ∈ (M.part r).ranks.getD n [] then [i] else [] := by
      have hnodup : ((M.part r).ranks.getD n []).Nodup :=
        (ranks_ascending hr n).imp fun h => h.ne
      have hranks : (((M.part r).ranks.getD n []).filter (· ≠ (M.part r).rank)).filter
          (fun q' => lowerBound (M.part r).neighbours q' = i)
            = ((M.part r).ranks.getD n []).filter (· = q) := by
        rw [List.filter_filter]
        refine List.filter_congr fun q' hq' => ?_
        by_cases hown : q' = (M.part r).rank
        · have hne : q' ≠ q := by
            rw [hown, M.rank_eq r hr]
            exact hqne.symm
          rw [decide_eq_false hne, decide_eq_false (not_not.mpr hown), Bool.and_false]
        · have hiff : lowerBound (M.part r).neighbours q' = i ↔ q' = q := by
            constructor
            · intro h
              exact lowerBound_inj (M.part r).neighbours_ascending
                (mem_neighbours hr hq' hown) hqmem (h.trans hindex.symm)
            · rintro rfl
              exact hindex
          simp [hown, hiff]
      rw [LocalMesh.targetsOf, List.filter_map]
      have hcomp : (fun i' => decide (i' = i)) ∘ lowerBound (M.part r).neighbours
          = fun q' => decide (lowerBound (M.part r).neighbours q' = i) := rfl
      rw [hcomp, hranks, List.filter_eq, List.map_replicate, hindex]
      split_ifs with hmem
      · rw [List.count_eq_one_of_mem hnodup hmem]
        rfl
      · rw [List.count_eq_zero_of_not_mem hmem]
        rfl
    have hfilter : ((M.part r).sendsOf n).filter (fun s => s.1 = i)
        = (((M.part r).targetsOf n).filter (fun i' => i' = i)).map
            fun i' => (i', (M.part r).labelled n) := by
      rw [LocalMesh.sendsOf, List.filter_map]
      rfl
    have hall : ∀ l ∈ (M.part r).labelled n, l.1 = (M.part r).IDs[n] := by
      intro l hl
      obtain ⟨l', -, rfl⟩ := List.mem_map.mp hl
      exact hID
    have hiff := mem_ranks hr (q := q) hget
    rw [hfilter, htargets]
    by_cases hmem : (M.part r).IDs[n] ∈ (M.part q).IDs
    · rw [if_pos (hiff.mpr ⟨hqlt, hmem⟩), List.filter_eq_self.mpr fun l hl => by
        rw [hall l hl]; exact decide_eq_true hmem]
      simp
    · rw [if_neg fun h => hmem (hiff.mp h).2, List.filter_eq_nil_iff.mpr fun l hl => by
        rw [hall l hl]; simpa using hmem]
      rfl
  have hown : M.ownLinks r
      = (List.range (M.part r).IDs.length).flatMap (M.part r).labelled := LocalMesh.labelled_eq
  rw [LocalLinks.sBuffer, message, hown, List.filter_flatMap, List.filter_flatMap,
    List.flatMap_assoc]
  exact List.flatMap_congr fun n hn => hsends n (List.mem_range.mp hn)

omit hr in
lemma mem_ownLinks {x e : ℕ} : (x, e) ∈ M.ownLinks r ↔
    ∃ el ∈ (M.part r).elements.flatten, el.1 = e ∧ ∃ n ∈ el.2, (M.part r).IDs[n]? = some x := by
  rw [ownLinks, List.mem_map]
  constructor
  · rintro ⟨l, hl, heq⟩
    obtain ⟨el, hel, hn, he⟩ := LocalMesh.mem_localLinks.mp hl
    have hin := (M.part r).nodes_lt el hel l.1 hn
    rw [List.getD_eq_getElem _ _ hin] at heq
    refine ⟨el, hel, he.trans (Prod.mk.inj heq).2, l.1, hn, ?_⟩
    rw [List.getElem?_eq_getElem hin, (Prod.mk.inj heq).1]
  · rintro ⟨el, hel, rfl, n, hn, hx⟩
    refine ⟨(n, el.1), LocalMesh.mem_localLinks.mpr ⟨el, hel, hn, rfl⟩, ?_⟩
    rw [List.getD_eq_getElem?_getD, hx, Option.getD_some]

omit hr in
lemma ownLinks_sorted : PairsSorted (M.ownLinks r) := by
  have hsorted : PairsSorted (M.part r).localLinks := sortWithInplaceMerge_sorted _
  refine List.pairwise_map.mpr (hsorted.imp_of_mem fun {a b} ha hb hab => ?_)
  have hb' := LocalMesh.localLinks_lt hb
  have ha' := LocalMesh.localLinks_lt ha
  rw [List.getD_eq_getElem _ _ ha', List.getD_eq_getElem _ _ hb']
  rcases pairLe_iff.mp hab with hlt | heq
  · exact pairLe_iff.mpr (Or.inl
      (List.pairwise_iff_getElem.mp (M.part r).IDs_ascending _ _ ha' hb' hlt))
  · exact pairLe_iff.mpr (Or.inr ⟨by simp only [heq.1], heq.2⟩)

lemma ownLinks_nodup : (M.ownLinks r).Nodup := by
  have hunique : ((M.part r).elements.flatten.map Prod.fst).Nodup :=
    (List.nodup_flatMap.mp M.elements_unique).1 r (List.mem_range.mpr hr)
  have hIDs : (M.part r).IDs.Nodup := (M.part r).IDs_ascending.imp fun h => h.ne
  have hlocal : (M.part r).localLinks.Nodup := by
    rw [LocalMesh.localLinks_perm.nodup_iff]
    refine List.nodup_flatMap.mpr ⟨fun e he => ?_, ?_⟩
    · exact ((M.part r).nodes_nodup e he).map fun a b h => (Prod.mk.inj h).1
    · refine (List.pairwise_map.mp hunique).imp fun {a b} hne => ?_
      rintro ⟨n, e⟩ ha hb
      obtain ⟨_, _, h₁⟩ := List.mem_map.mp ha
      obtain ⟨_, _, h₂⟩ := List.mem_map.mp hb
      exact hne ((Prod.mk.inj h₁).2.trans (Prod.mk.inj h₂).2.symm)
  refine hlocal.map_on fun a ha b hb heq => ?_
  have ha' := LocalMesh.localLinks_lt ha
  have hb' := LocalMesh.localLinks_lt hb
  rw [List.getD_eq_getElem _ _ ha', List.getD_eq_getElem _ _ hb'] at heq
  exact Prod.ext ((List.Nodup.getElem_inj_iff hIDs).mp (Prod.mk.inj heq).1) (Prod.mk.inj heq).2

omit hr in
lemma merged_perm : (M.merged r).Perm
    (M.ownLinks r ++ (M.part r).neighbours.flatMap fun q => M.message q r) :=
  mergeAppendedData_perm _ _

omit hr in
lemma merged_sorted : PairsSorted (M.merged r) := by
  refine mergeAppendedData_sorted ownLinks_sorted fun l hl => ?_
  obtain ⟨q, -, rfl⟩ := List.mem_map.mp hl
  exact ownLinks_sorted.filter _

/-- **The links behind the exchange** are those of all ranks to the nodes of the rank. -/
lemma mem_merged {x e : ℕ} : (x, e) ∈ M.merged r ↔ x ∈ (M.part r).IDs ∧ M.Contains x e := by
  rw [merged_perm.mem_iff, List.mem_append, List.mem_flatMap]
  simp only [message, List.mem_filter, decide_eq_true_eq]
  constructor
  · rintro (hown | ⟨q, hq, hlink, hmem⟩)
    · obtain ⟨el, hel, he, n, hn, hx⟩ := mem_ownLinks.mp hown
      exact ⟨List.mem_of_getElem? hx, r, hr, el, hel, he, n, hn, hx⟩
    · exact ⟨hmem, q, (M.neighbours_symm r hr q hq).1, mem_ownLinks.mp hlink⟩
  · rintro ⟨hmem, q, hq, hlink⟩
    by_cases heq : q = r
    · subst heq
      exact Or.inl (mem_ownLinks.mpr hlink)
    · obtain ⟨el, hel, he, n, hn, hx⟩ := hlink
      exact Or.inr ⟨q, M.neighbours_of_shared r hr q hq heq ⟨x, hmem, List.mem_of_getElem? hx⟩,
        mem_ownLinks.mpr ⟨el, hel, he, n, hn, hx⟩, hmem⟩

omit hr in
lemma links_disjoint {q q' : ℕ} (hq : q < M.size) (hq' : q' < M.size) (hne : q ≠ q') {l : Link}
    (hl : l ∈ M.ownLinks q) : l ∉ M.ownLinks q' := by
  intro hl'
  obtain ⟨el, hel, he, -⟩ := mem_ownLinks.mp (show (l.1, l.2) ∈ M.ownLinks q from hl)
  obtain ⟨el', hel', he', -⟩ := mem_ownLinks.mp (show (l.1, l.2) ∈ M.ownLinks q' from hl')
  have hdisjoint := List.pairwise_iff_getElem.mp (List.nodup_flatMap.mp M.elements_unique).2
  have hq₁ : q < (List.range M.size).length := by rwa [List.length_range]
  have hq₂ : q' < (List.range M.size).length := by rwa [List.length_range]
  have hin := List.mem_map_of_mem (f := Prod.fst) hel
  have hin' := List.mem_map_of_mem (f := Prod.fst) hel'
  rw [he] at hin
  rw [he'] at hin'
  rcases Nat.lt_or_gt_of_ne hne with hlt | hgt
  · have h := hdisjoint q q' hq₁ hq₂ hlt
    simp only [Function.onFun, List.getElem_range] at h
    exact h hin hin'
  · have h := hdisjoint q' q hq₂ hq₁ hgt
    simp only [Function.onFun, List.getElem_range] at h
    exact h hin' hin

lemma merged_nodup : (M.merged r).Nodup := by
  rw [merged_perm.nodup_iff]
  have hneighbours : (M.part r).neighbours.Nodup :=
    (M.part r).neighbours_ascending.imp fun h => h.ne
  refine List.nodup_append.mpr ⟨ownLinks_nodup hr, List.nodup_flatMap.mpr ⟨fun q hq => ?_, ?_⟩, ?_⟩
  · exact (ownLinks_nodup (M.neighbours_symm r hr q hq).1).filter _
  · refine hneighbours.imp_of_mem fun {q q'} hq hq' hne l hl hl' => ?_
    exact links_disjoint (M.neighbours_symm r hr q hq).1 (M.neighbours_symm r hr q' hq').1 hne
      (List.mem_filter.mp hl).1 (List.mem_filter.mp hl').1
  · rintro l hl l' hl' rfl
    obtain ⟨q, hq, hmem⟩ := List.mem_flatMap.mp hl'
    have hsymm := M.neighbours_symm r hr q hq
    exact links_disjoint hr hsymm.1 hsymm.2.1.symm hl (List.mem_filter.mp hmem).1

lemma merged_mem_IDs {l : Link} (hl : l ∈ M.merged r) : l.1 ∈ (M.part r).IDs :=
  ((mem_merged hr).mp (show (l.1, l.2) ∈ M.merged r from hl)).1

omit hr in
lemma merged_fst_sorted : (M.merged r).Pairwise fun a b => a.1 ≤ b.1 := by
  refine merged_sorted.imp fun {a b} hab => ?_
  rcases pairLe_iff.mp hab with hlt | heq
  · exact hlt.le
  · exact heq.1.le

lemma linksOf_merged {x : ℕ} (hx : x ∈ (M.part r).IDs) :
    ((linksOf (M.merged r) x).map Prod.snd).Pairwise (· < ·) ∧
      ∀ e, e ∈ (linksOf (M.merged r) x).map Prod.snd ↔ M.Contains x e := by
  constructor
  · have hpair := (merged_sorted (M := M) (r := r)).and (merged_nodup hr)
    refine List.pairwise_map.mpr ((hpair.filter _).imp_of_mem fun {a b} ha hb hab => ?_)
    have ha' := fst_of_mem_linksOf ha
    have hb' := fst_of_mem_linksOf hb
    rcases pairLe_iff.mp hab.1 with hlt | ⟨-, hle⟩
    · omega
    · refine lt_of_le_of_ne hle fun heq => hab.2 (Prod.ext (ha'.trans hb'.symm) heq)
  · intro e
    rw [List.mem_map]
    constructor
    · rintro ⟨l, hl, rfl⟩
      have hmem := (List.mem_filter.mp hl).1
      rw [← fst_of_mem_linksOf hl]
      exact ((mem_merged hr).mp hmem).2
    · intro h
      exact ⟨(x, e), List.mem_filter.mpr ⟨(mem_merged hr).mpr ⟨hx, h⟩, decide_eq_true rfl⟩, rfl⟩

lemma rowOf_ne_nil_iff {n : ℕ} (hn : n < (M.part r).IDs.length) :
    (M.part r).rowOf (M.merged r) n ≠ [] ↔ ∃ e, M.Contains ((M.part r).IDs.getD n 0) e := by
  have hmem : (M.part r).IDs.getD n 0 ∈ (M.part r).IDs := by
    rw [List.getD_eq_getElem _ _ hn]
    exact List.getElem_mem hn
  rw [LocalMesh.rowOf]
  constructor
  · intro hne
    obtain ⟨l, hl⟩ := List.exists_mem_of_ne_nil _ hne
    exact ⟨l.2, ((linksOf_merged hr hmem).2 l.2).mp (List.mem_map_of_mem hl)⟩
  · rintro ⟨e, he⟩
    obtain ⟨l, hl, -⟩ := List.mem_map.mp (((linksOf_merged hr hmem).2 e).mpr he)
    exact List.ne_nil_of_mem hl

lemma contains_of_linked {n : ℕ} (hn : n < (M.part r).IDs.length) (h : (M.part r).Linked n) :
    ∃ e, M.Contains ((M.part r).IDs.getD n 0) e := by
  obtain ⟨el, hel, hmem⟩ := h
  refine ⟨el.1, r, hr, el, hel, rfl, n, hmem, ?_⟩
  rw [List.getElem?_eq_getElem hn, List.getD_eq_getElem _ _ hn]

end Links

/-! ## The function on all ranks -/

section Main

variable {M} {seen : ℕ → ℕ → Bool}

/-- What a rank does in front of the exchange, where the walk is right. -/
def stage (M : LinkMesh) (r : ℕ) : LocalLinks :=
  ⟨M.ownLinks r, (List.range (M.part r).IDs.length).flatMap (M.part r).sendsOf⟩

lemma length_message {r q : ℕ} (hr : r < M.size) (hq : q < M.size) :
    (M.message r q).length = (M.shared r q).length := by
  rw [message, ownLinks, ← List.countP_eq_length_filter, List.countP_map,
    LocalMesh.localLinks_perm.countP_eq, List.countP_flatMap, shared, List.length_flatMap]
  refine congrArg List.sum (List.map_congr_left fun e he => ?_)
  rw [Function.comp_apply, List.countP_map, ← List.countP_eq_length_filter]
  refine List.countP_congr fun n hn => ?_
  have hin := (M.part r).nodes_lt e he n hn
  simp only [Function.comp_apply, decide_eq_true_eq, List.getD_eq_getElem _ 0 hin,
    mem_ranks hr (List.getElem?_eq_getElem hin), hq, true_and]

lemma stages_getD {r : ℕ} (hr : r < M.size) :
    ((List.range M.size).map M.stage).getD r ⟨[], []⟩ = M.stage r := by
  rw [List.getD_eq_getElem?_getD, List.getElem?_map, List.getElem?_range hr]
  rfl

lemma received {r : ℕ} (hr : r < M.size) {rBuffer : ℕ → ℕ → List Link}
    (h : exchangeUnknownSize M.size 8 (fun r => (M.part r).neighbours)
      (fun r n => (((List.range M.size).map M.stage).getD r ⟨[], []⟩).sBuffer n) = some rBuffer) :
    (List.range (M.part r).neighbours.length).map (rBuffer r)
      = (M.part r).neighbours.map fun q => M.message q r := by
  rw [exchangeUnknownSize] at h
  split_ifs at h
  obtain rfl := Option.some.inj h
  refine List.ext_getElem (by simp) fun i hi hi' => ?_
  rw [List.length_map, List.length_range] at hi
  have hq := List.getElem?_eq_getElem hi
  obtain ⟨hqlt, -, hback⟩ := M.neighbours_symm r hr _ (List.getElem_mem hi)
  rw [List.getElem_map, List.getElem_map, List.getElem_range]
  dsimp only
  rw [List.getD_eq_getElem _ _ hi, stages_getD hqlt]
  exact sBuffer_eq hqlt ((lowerBound_mem (M.part _).neighbours_ascending).mpr hback)

lemma exchange_iff : (∃ rBuffer, exchangeUnknownSize M.size 8 (fun r => (M.part r).neighbours)
      (fun r n => (((List.range M.size).map M.stage).getD r ⟨[], []⟩).sBuffer n) = some rBuffer) ↔
    ∀ r < M.size, ∀ q ∈ (M.part r).neighbours, 8 * (M.shared r q).length ≤ limit := by
  have hlength : ∀ r < M.size, ∀ i (hi : i < (M.part r).neighbours.length),
      ((((List.range M.size).map M.stage).getD r ⟨[], []⟩).sBuffer i).length
        = (M.shared r (M.part r).neighbours[i]).length := by
    intro r hr i hi
    rw [stages_getD hr, stage, sBuffer_eq hr (List.getElem?_eq_getElem hi),
      length_message hr (M.neighbours_symm r hr _ (List.getElem_mem hi)).1]
  rw [exchangeUnknownSize]
  split_ifs with hfits
  · refine iff_of_true ⟨_, rfl⟩ fun r hr q hq => ?_
    obtain ⟨i, hi, rfl⟩ := List.mem_iff_getElem.mp hq
    rw [← hlength r hr i hi]
    exact hfits r hr i hi
  · refine iff_of_false (by simp) fun hall => hfits fun r hr i hi => ?_
    rw [hlength r hr i hi]
    exact hall r hr _ (List.getElem_mem hi)

lemma linkNodesAndElements_eq
    (hlocal : ∀ r < M.size, 0 < (M.part r).IDs.length ∧
      ∀ n < (M.part r).IDs.length, (M.part r).Linked n ∨ (M.part r).Skipped n) {out : List Links} :
    M.linkNodesAndElements seen = some out ↔
      (∀ r < M.size, ∀ q ∈ (M.part r).neighbours, 8 * (M.shared r q).length ≤ limit) ∧
        (List.range M.size).mapM (fun r => (M.part r).buildLinks (M.merged r)) = some out := by
  have hstages : (List.range M.size).mapM (fun r => (M.part r).localStage (seen r))
      = some ((List.range M.size).map M.stage) :=
    Fallible.mapM_eq_some fun r hr => by
      obtain ⟨hsize, hattached⟩ := hlocal r (List.mem_range.mp hr)
      exact LocalMesh.localStage_eq hattached hsize (targets_ranks (List.mem_range.mp hr))
  rw [linkNodesAndElements, hstages, Option.bind_eq_bind, Option.bind_some,
    Option.bind_eq_bind, Option.bind_eq_some_iff, ← exchange_iff]
  have hbuild : ∀ rBuffer, exchangeUnknownSize M.size 8 (fun r => (M.part r).neighbours)
      (fun r n => (((List.range M.size).map M.stage).getD r ⟨[], []⟩).sBuffer n) = some rBuffer →
        (List.range M.size).mapM (fun r => (M.part r).buildLinks (mergeAppendedData
          (((List.range M.size).map M.stage).getD r ⟨[], []⟩).links
          ((List.range (M.part r).neighbours.length).map (rBuffer r))))
            = (List.range M.size).mapM (fun r => (M.part r).buildLinks (M.merged r)) := by
    intro rBuffer hreceived
    refine Fallible.mapM_congr fun r hr => ?_
    rw [received (List.mem_range.mp hr) hreceived, stages_getD (List.mem_range.mp hr)]
    rfl
  constructor
  · rintro ⟨rBuffer, hreceived, hout⟩
    rw [hbuild rBuffer hreceived] at hout
    exact ⟨⟨rBuffer, hreceived⟩, hout⟩
  · rintro ⟨⟨rBuffer, hreceived⟩, hout⟩
    exact ⟨rBuffer, hreceived, (hbuild rBuffer hreceived).trans hout⟩

lemma served {r : ℕ} (hr : r < M.size) (h : M.Attached r) {t : ℕ} (ht : t < (M.part r).threads) :
    (M.part r).Served (M.merged r) t := by
  by_cases hall : ∀ n ∈ (M.part r).nodes t, (M.part r).rowOf (M.merged r) n ≠ []
  · exact Or.inl hall
  push Not at hall
  obtain ⟨n, hn, hempty⟩ := hall
  have hmem := LocalMesh.mem_nodes.mp hn
  have hlt : n < (M.part r).IDs.length :=
    hmem.2.trans_le (LocalMesh.border_le (show t + 1 ≤ (M.part r).threads from ht))
  have hnot := mt (rowOf_ne_nil_iff hr hlt).mpr (not_not.mpr hempty)
  have hpos := (M.part r).threads_pos
  rcases h.linked n hlt with hlinked | ⟨⟨⟨s, hs, hbegin, hend⟩, -⟩, hcontains | hlast⟩
  · exact absurd (contains_of_linked hr hlt hlinked) hnot
  · exact absurd hcontains hnot
  · -- the node is alone in the last thread
    obtain rfl := LocalMesh.thread_unique ht hs hn
      (LocalMesh.mem_nodes.mpr ⟨hbegin.le, by omega⟩)
    refine Or.inr ⟨?_, by rw [LocalMesh.innerNodes]; omega⟩
    by_contra hne
    have hmono := (M.part r).distribution.border_mono (show t + 1 ≤ (M.part r).threads - 1 by omega)
      (Nat.sub_le _ 1)
    have : (M.part r).border (t + 1) ≤ (M.part r).border ((M.part r).threads - 1) := hmono
    omega

def rightLinks (M : LinkMesh) (r : ℕ) : Links :=
  ⟨(List.range ((M.part r).IDs.length + 1)).map fun n => ((M.part r).front (M.merged r) n).length,
    (M.merged r).map Prod.snd⟩

lemma rightLinks_row {r : ℕ} (hr : r < M.size) {n x : ℕ} (hx : (M.part r).IDs[n]? = some x) :
    ((M.rightLinks r).row n).Pairwise (· < ·) ∧
      ∀ e, e ∈ (M.rightLinks r).row n ↔ M.Contains x e := by
  obtain ⟨hn, rfl⟩ := List.getElem?_eq_some_iff.mp hx
  rw [rightLinks, LocalMesh.row_eq merged_fst_sorted (fun _ hl => merged_mem_IDs hr hl) hn,
    LocalMesh.rowOf, List.getD_eq_getElem _ _ hn]
  exact linksOf_merged hr (List.getElem_mem hn)

lemma local_of_some {out : List Links} (h : M.linkNodesAndElements seen = some out) :
    ∀ r < M.size, 0 < (M.part r).IDs.length ∧
      ∀ n < (M.part r).IDs.length, (M.part r).Linked n ∨ (M.part r).Skipped n := by
  intro r hr
  rw [linkNodesAndElements, Option.bind_eq_bind, Option.bind_eq_some_iff] at h
  obtain ⟨stages, hstages, -⟩ := h
  have hmem : (M.part r).localStage (seen r) ∈ stages.map some := by
    rw [← Fallible.mapM_eq_some_iff.mp hstages]
    exact List.mem_map_of_mem (List.mem_range.mpr hr)
  obtain ⟨out, -, hout⟩ := List.mem_map.mp hmem
  exact LocalMesh.localStage_some hout.symm

end Main

/-- **`MeshPreprocessing::linkNodesAndElements` stores the elements of every node**, from all ranks
and in ascending order, if and only if every node belongs to an element of its rank, but for nodes
about which the walks over the links are right. -/
theorem links_right_iff (seen : ℕ → ℕ → Bool) :
    (∃ out, M.linkNodesAndElements seen = some out ∧ M.LinkedRight out) ↔
      ∀ r < M.size, M.Attached r := by
  constructor
  · rintro ⟨out, hout, hright⟩
    have hlocal := local_of_some hout
    obtain ⟨hfits, hbuild⟩ := (linkNodesAndElements_eq hlocal).mp hout
    intro r hr
    obtain ⟨hsize, hattached⟩ := hlocal r hr
    obtain ⟨L, hL, hrows⟩ := hright r hr
    have hthis : (M.part r).buildLinks (M.merged r) = some L := by
      have h := congrArg (·[r]?) (Fallible.mapM_eq_some_iff.mp hbuild)
      simp only [List.getElem?_map, List.getElem?_range hr, hL, Option.map_some] at h
      exact Option.some.inj h
    have hlast := LocalMesh.row_of_buildLinks merged_fst_sorted
      (fun _ hl => merged_mem_IDs hr hl) hsize hthis (fun n hn => (hattached n hn).imp
        (fun hlinked => (rowOf_ne_nil_iff hr hn).mpr (contains_of_linked hr hn hlinked))
        fun hskipped => hskipped.1) fun n hn hempty => by
          refine List.eq_nil_iff_forall_not_mem.mpr fun e he => ?_
          have hcontains := ((hrows n _ (List.getElem?_eq_getElem hn)).2 e).mp he
          rw [← List.getD_eq_getElem _ 0 hn] at hcontains
          exact (rowOf_ne_nil_iff hr hn).mpr ⟨e, hcontains⟩ hempty
    refine ⟨hsize, fun n hn => (hattached n hn).imp id fun hskipped => ⟨hskipped, ?_⟩, hfits r hr⟩
    exact (hlast n hn).imp (rowOf_ne_nil_iff hr hn).mp id
  · intro hall
    have hlocal : ∀ r < M.size, 0 < (M.part r).IDs.length ∧
        ∀ n < (M.part r).IDs.length, (M.part r).Linked n ∨ (M.part r).Skipped n := fun r hr =>
      ⟨(hall r hr).nonempty, fun n hn => ((hall r hr).linked n hn).imp id fun h => h.1⟩
    have hbuild : (List.range M.size).mapM (fun r => (M.part r).buildLinks (M.merged r))
        = some ((List.range M.size).map M.rightLinks) :=
      Fallible.mapM_eq_some fun r hr => LocalMesh.buildLinks_eq merged_fst_sorted
        (fun _ hl => merged_mem_IDs (List.mem_range.mp hr) hl)
        (hall r (List.mem_range.mp hr)).nonempty
        fun t ht => served (List.mem_range.mp hr) (hall r (List.mem_range.mp hr)) ht
    refine ⟨_, (linkNodesAndElements_eq hlocal).mpr ⟨fun r hr => (hall r hr).fits, hbuild⟩, ?_⟩
    intro r hr
    refine ⟨M.rightLinks r, ?_, fun n x hx => rightLinks_row hr hx⟩
    rw [List.getElem?_map, List.getElem?_range hr, Option.map_some]

end LinkMesh

/-! ## A node without elements -/

lemma dangling_neighbours : ([] : List ℕ).Pairwise (· < ·) := List.Pairwise.nil

lemma dangling_IDs : [0, 1, 2, 3, 4].Pairwise (· < ·) := by decide

lemma dangling_ranks : [[0], [0], [0], [0], [0]].length = [0, 1, 2, 3, 4].length := rfl

lemma dangling_nodes_lt :
    ∀ e ∈ [[(0, [0, 1, 4, 3])]].flatten, ∀ n ∈ e.2, n < [0, 1, 2, 3, 4].length := by decide

lemma dangling_nodes_nodup : ∀ e ∈ [[(0, [0, 1, 4, 3])]].flatten, e.2.Nodup := by decide

/-- Five nodes and a square, which does not have the third one. -/
def danglingPart : LocalMesh where
  rank := 0
  threads := 1
  neighbours := []
  IDs := [0, 1, 2, 3, 4]
  ranks := [[0], [0], [0], [0], [0]]
  elements := [[(0, [0, 1, 4, 3])]]
  threads_pos := Nat.one_pos
  neighbours_ascending := dangling_neighbours
  IDs_ascending := dangling_IDs
  ranks_length := dangling_ranks
  nodes_lt := dangling_nodes_lt
  nodes_nodup := dangling_nodes_nodup

lemma dangling_rank_eq (r : ℕ) (hr : r < 1) : danglingPart.rank = r := by
  rw [Nat.lt_one_iff.mp hr]
  rfl

lemma dangling_ranks_exact (r : ℕ) (_hr : r < 1) (n x : ℕ) (hx : danglingPart.IDs[n]? = some x) :
    danglingPart.ranks[n]? = some ((List.range 1).filter fun _ => x ∈ danglingPart.IDs) := by
  have hmem := List.mem_of_getElem? hx
  have hn : n < 5 := (List.getElem?_eq_some_iff.mp hx).1
  have hrow : danglingPart.ranks[n]? = some [0] := by
    interval_cases n <;> rfl
  rw [hrow, List.filter_eq_self.mpr fun _ _ => decide_eq_true hmem]
  rfl

lemma dangling_neighbours_symm (r : ℕ) (_hr : r < 1) (q : ℕ) (hq : q ∈ danglingPart.neighbours) :
    q < 1 ∧ q ≠ r ∧ r ∈ danglingPart.neighbours :=
  absurd hq List.not_mem_nil

lemma dangling_neighbours_of_shared (r : ℕ) (hr : r < 1) (q : ℕ) (hq : q < 1) (hne : q ≠ r)
    (_h : ∃ x ∈ danglingPart.IDs, x ∈ danglingPart.IDs) : q ∈ danglingPart.neighbours := by
  omega

lemma dangling_elements_unique :
    ((List.range 1).flatMap fun _ => danglingPart.elements.flatten.map Prod.fst).Nodup := by decide

def danglingMesh : LinkMesh where
  size := 1
  part := fun _ => danglingPart
  rank_eq := dangling_rank_eq
  ranks_exact := dangling_ranks_exact
  neighbours_symm := dangling_neighbours_symm
  neighbours_of_shared := dangling_neighbours_of_shared
  elements_unique := dangling_elements_unique

/-- **A node without elements takes the links of the next node**, and the walk leaves the vector. -/
theorem dangling_not_linked :
    ¬∃ out, danglingMesh.linkNodesAndElements (fun _ _ => false) = some out ∧
      danglingMesh.LinkedRight out := by
  rintro ⟨out, hout, -⟩
  rcases (LinkMesh.local_of_some hout 0 Nat.one_pos).2 2 (by decide) with
    ⟨e, he, hn⟩ | ⟨⟨t, ht, hbegin, -⟩, -⟩
  · have hnone : ∀ e ∈ danglingPart.elements.flatten, 2 ∉ e.2 := by decide
    exact hnone e he hn
  · have ht' : t = 0 := Nat.lt_one_iff.mp ht
    rw [ht', LocalMesh.border_zero] at hbegin
    exact absurd hbegin (by decide)

end Espreso
