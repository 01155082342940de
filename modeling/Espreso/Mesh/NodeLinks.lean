import Espreso.Basis.Exchange
import Espreso.Basis.Merge
import Espreso.Lib.Fallible
import Espreso.Lib.Grouped

/-!
# Links between nodes and elements

`MeshPreprocessing::linkNodesAndElements` stores the elements of each node. A rank sorts the links
of its own elements, walks over the nodes and the groups of links in lock-step, sends the links of
shared nodes, and cuts the merged links in a second walk.

* `LocalMesh` — the mesh of a rank, as the function reads it.
* `takeGroup` — the loop over the links of a node.
* `LocalMesh.localStage`, `LocalMesh.buildLinks` — the parts in front of the exchange and behind it.
* `takeGroups_append` — the walk takes the group of each node, if no group is empty.
* `localStage_eq`, `buildLinks_eq` — what both parts compute then.
-/

namespace Espreso

/-- A link of a node to an element, `std::pair<eslocal, eslocal>`. -/
abbrev Link := ℕ × ℕ

/-- The mesh of a rank before its nodes and elements are linked. `IDs` and `ranks` are those of the
nodes, which are ordered by their IDs; `elements` are the elements of each thread: their IDs and
their nodes, by position. -/
structure LocalMesh where
  rank : ℕ
  threads : ℕ
  neighbours : List ℕ
  IDs : List ℕ
  ranks : List (List ℕ)
  elements : List (List (ℕ × List ℕ))
  threads_pos : 0 < threads
  neighbours_ascending : neighbours.Pairwise (· < ·)
  IDs_ascending : IDs.Pairwise (· < ·)
  ranks_length : ranks.length = IDs.length
  nodes_lt : ∀ e ∈ elements.flatten, ∀ n ∈ e.2, n < IDs.length
  nodes_nodup : ∀ e ∈ elements.flatten, e.2.Nodup

/-! ## The walk over groups of links -/

/-- `while (end->first == begin->first) ++end`, where `behind` is what is read behind the links of a
thread. There is no result if the loop reads behind the vector, or takes links of another thread,
which that thread changes at the same time. -/
def takeGroup (behind : Option ℕ) : List Link → Option (List Link × List Link)
  | [] => none
  | begin :: rest =>
    let group := begin :: rest.takeWhile fun l => l.1 = begin.1
    match rest.dropWhile fun l => l.1 = begin.1 with
    | [] => if behind.any (· ≠ begin.1) then some (group, []) else none
    | rest => some (group, rest)

/-- The same loop with the test `end != localLinks.end()`. -/
def takeChecked (behind : Option ℕ) : List Link → Option (List Link × List Link)
  | [] => if behind.isNone then some ([], []) else none
  | begin :: rest =>
    let group := begin :: rest.takeWhile fun l => l.1 = begin.1
    match rest.dropWhile fun l => l.1 = begin.1 with
    | [] => if behind.all (· ≠ begin.1) then some (group, []) else none
    | rest => some (group, rest)

/-- The groups of the next `k` nodes. -/
def takeGroups (behind : Option ℕ) : ℕ → List Link → Option (List (List Link) × List Link)
  | 0, links => some ([], links)
  | k + 1, links => do
    let (group, rest) ← takeGroup behind links
    let (groups, rest) ← takeGroups behind k rest
    pure (group :: groups, rest)

def positions : ℕ → List (List Link) → List ℕ
  | _, [] => []
  | begin', group :: groups => (begin' + group.length) :: positions (begin' + group.length) groups

/-- `nodes->elements`: the elements of all nodes, and where those of a node begin. -/
structure Links where
  boundaries : List ℕ
  data : List ℕ

def Links.row (L : Links) (n : ℕ) : List ℕ :=
  window L.data (L.boundaries.getD n 0) (L.boundaries.getD (n + 1) 0)

/-- What a thread, or a rank, does in front of the exchange: its links, now with the IDs of their
nodes, and what is added to the buffers. -/
structure LocalLinks where
  links : List Link
  sends : List (ℕ × List Link)

/-- The buffer for the neighbour at position `i`. -/
def LocalLinks.sBuffer (L : LocalLinks) (i : ℕ) : List Link :=
  (L.sends.filter fun s => s.1 = i).flatMap Prod.snd

namespace LocalMesh

variable (P : LocalMesh)

/-- `nodes->distribution` -/
def distribution : Distribution P.threads P.IDs.length := Distribution.uniform P.threads_pos _

/-- The first node of thread `t`. -/
def border (t : ℕ) : ℕ := P.distribution.border t

def localLinks : List Link :=
  sortWithInplaceMerge (P.elements.map fun es => es.flatMap fun e => e.2.map fun n => (n, e.1))

def tbegin : ℕ → ℕ
  | 0 => 0
  | t + 1 => tbegin t + lowerBound ((P.localLinks.drop (tbegin t)).map Prod.fst) (P.border (t + 1))

def part (t : ℕ) : List Link :=
  if t + 1 < P.threads then window P.localLinks (P.tbegin t) (P.tbegin (t + 1))
  else P.localLinks.drop (P.tbegin t)

/-- What a thread reads behind its links: the node of the first link of the next threads. It is an
ID if that thread has changed it before, which `seen` tells. -/
def behind (seen : Bool) (t : ℕ) : Option ℕ :=
  if t + 1 < P.threads then
    (P.localLinks[P.tbegin (t + 1)]?).map fun l => if seen then P.IDs.getD l.1 0 else l.1
  else none

/-- The positions of ranks in `neighbours`: the loop `while (neighbours[i] < *rank) ++i`. -/
def targets : ℕ → List ℕ → Option (List ℕ)
  | _, [] => some []
  | i, rank :: ranks =>
    if rank = P.rank then targets i ranks
    else
      let i := i + lowerBound (P.neighbours.drop i) rank
      if i < P.neighbours.length then (targets i ranks).map (i :: ·) else none

/-- The lambda `send`: the links of a node get its ID, and are added to the buffers of its ranks. -/
def send (id : ℕ) (ranks : List ℕ) (group : List Link) : Option LocalLinks :=
  let links := group.map fun l => (id, l.2)
  (P.targets 0 ranks).map fun is => ⟨links, is.map fun i => (i, links)⟩

def lastGroup (behind : Option ℕ) (t : ℕ) (links : List Link) : Option (List Link × List Link) :=
  if t + 1 < P.threads then takeChecked behind links else some (links, [])

def innerNodes (t : ℕ) : ℕ := P.border (t + 1) - P.border t - 1

def threadLinks (seen : Bool) (t : ℕ) : Option LocalLinks := do
  let behind := P.behind seen t
  let (groups, rest) ← takeGroups behind (P.innerNodes t) (P.part t)
  let (group, rest) ← P.lastGroup behind t rest
  let sent ← (groups.zip (List.range' (P.border t) (P.innerNodes t))).mapM fun g =>
    P.send (P.IDs.getD g.2 0) (P.ranks.getD g.2 []) g.1
  let id ← P.IDs[P.border (t + 1) - 1]?
  let last ← P.send id (P.ranks.getD (P.border t + P.innerNodes t) []) group
  pure { links := (sent ++ [last]).flatMap LocalLinks.links ++ rest
         sends := (sent ++ [last]).flatMap LocalLinks.sends }

def localStage (seen : ℕ → Bool) : Option LocalLinks := do
  let threads ← (List.range P.threads).mapM fun t => P.threadLinks (seen t) t
  pure { links := threads.flatMap LocalLinks.links, sends := threads.flatMap LocalLinks.sends }

def lastRow (t : ℕ) : List Link → Option (List Link)
  | [] => if t + 1 < P.threads then none else some []
  | llink :: rest =>
    if t + 1 < P.threads then some (llink :: rest.takeWhile fun l => l.1 = llink.1)
    else some (llink :: rest)

/-- A thread behind the exchange: `links` are all links of the rank. -/
def threadRows (links : List Link) (t : ℕ) : Option Links :=
  if P.border t = P.border (t + 1) then some ⟨[], []⟩
  else do
    let llink := lowerBound (links.map Prod.fst) (P.IDs.getD (P.border t) 0)
    let (groups, rest) ← takeGroups none (P.innerNodes t) (links.drop llink)
    let group ← P.lastRow t rest
    pure { boundaries := (if t = 0 then [0] else []) ++ positions llink (groups ++ [group])
           data := (groups ++ [group]).flatten.map Prod.snd }

def buildLinks (links : List Link) : Option Links := do
  let threads ← (List.range P.threads).mapM (P.threadRows links)
  pure { boundaries := threads.flatMap Links.boundaries, data := threads.flatMap Links.data }

end LocalMesh

lemma le_getElem_of_ascending {l : List ℕ} (hl : l.Pairwise (· < ·)) {i : ℕ} (hi : i < l.length) :
    i ≤ l[i] := by
  induction i with
  | zero => exact Nat.zero_le _
  | succ i ih =>
      have hprev : i < l.length := Nat.lt_of_succ_lt hi
      have hlt := List.pairwise_iff_getElem.mp hl i (i + 1) hprev hi (Nat.lt_succ_self i)
      have := ih hprev
      omega

/-! ## The groups that the walk takes -/

section Walk

/-- The links of node `k`. -/
def linksOf (links : List Link) (k : ℕ) : List Link := links.filter fun l => l.1 = k

variable {links : List Link} {behind : Option ℕ}

lemma takeWhile_group {k : ℕ} {group rest : List Link} (hgroup : ∀ l ∈ group, l.1 = k)
    (hrest : ∀ l ∈ rest.head?, l.1 ≠ k) :
    (group ++ rest).takeWhile (fun l => l.1 = k) = group ∧
      (group ++ rest).dropWhile (fun l => l.1 = k) = rest := by
  have hpos : ∀ l ∈ group, decide (l.1 = k) = true := fun l hl => decide_eq_true (hgroup l hl)
  rw [List.takeWhile_append_of_pos hpos, List.dropWhile_append_of_pos hpos]
  cases rest with
  | nil => simp
  | cons l rest =>
      have hne := hrest l rfl
      simp [hne]

lemma takeGroup_append {k : ℕ} {group rest : List Link} (hne : group ≠ [])
    (hgroup : ∀ l ∈ group, l.1 = k) (hrest : ∀ l ∈ rest.head?, l.1 ≠ k) :
    takeGroup behind (group ++ rest) =
      if rest = [] ∧ ¬behind.any (· ≠ k) then none else some (group, rest) := by
  rcases group with _ | ⟨begin', group⟩
  · exact absurd rfl hne
  obtain ⟨hbegin, hgroup⟩ := List.forall_mem_cons.mp hgroup
  obtain ⟨htake, hdrop⟩ := takeWhile_group hgroup hrest
  rw [List.cons_append, takeGroup, hbegin, htake, hdrop]
  cases rest with
  | nil =>
      by_cases h : behind.any (· ≠ k)
      · exact (if_pos h).trans (if_neg fun hnot => hnot.2 h).symm
      · exact (if_neg h).trans (if_pos ⟨rfl, h⟩).symm
  | cons l rest => simp

lemma takeChecked_append {k : ℕ} {group : List Link} (hne : group ≠ [])
    (hgroup : ∀ l ∈ group, l.1 = k) (hbehind : behind.all (· ≠ k)) :
    takeChecked behind group = some (group, []) := by
  rcases group with _ | ⟨begin', group⟩
  · exact absurd rfl hne
  obtain ⟨hbegin, hgroup⟩ := List.forall_mem_cons.mp hgroup
  have hnone : ∀ l ∈ ([] : List Link).head?, l.1 ≠ k := fun l hl => by cases hl
  obtain ⟨htake, hdrop⟩ := takeWhile_group hgroup hnone
  rw [List.append_nil] at htake hdrop
  rw [takeChecked, hbegin, htake, hdrop]
  exact if_pos hbehind

lemma fst_of_mem_linksOf {k : ℕ} {l : Link} (hl : l ∈ linksOf links k) : l.1 = k :=
  of_decide_eq_true (List.mem_filter.mp hl).2

lemma head_ne {k : ℕ} {ks : List ℕ} (hks : ∀ k' ∈ ks, k < k') :
    ∀ l ∈ (ks.flatMap (linksOf links)).head?, l.1 ≠ k := by
  intro l hl
  obtain ⟨k', hk', hl⟩ := List.mem_flatMap.mp (List.mem_of_mem_head? hl)
  rw [fst_of_mem_linksOf hl]
  exact (hks k' hk').ne'

variable (links behind) in
/-- **The walk takes the group of each node**, if no group is empty and there are links behind them.
-/
lemma takeGroups_append (ks : List ℕ) (j : ℕ) (hks : ks.Pairwise (· < ·))
    (hne : ∀ k ∈ ks.take j, linksOf links k ≠ [])
    (hrest : j = 0 ∨ (ks.drop j).flatMap (linksOf links) ≠ []) :
    takeGroups behind j (ks.flatMap (linksOf links))
      = some ((ks.take j).map (linksOf links), (ks.drop j).flatMap (linksOf links)) := by
  induction j generalizing ks with
  | zero => rfl
  | succ j ih =>
      rcases ks with _ | ⟨k, ks⟩
      · simp at hrest
      obtain ⟨hlt, hks⟩ := List.pairwise_cons.mp hks
      rw [List.take_succ_cons, List.forall_mem_cons] at hne
      rw [List.drop_succ_cons, or_iff_right (Nat.succ_ne_zero j)] at hrest
      have hnonempty : ks.flatMap (linksOf links) ≠ [] := by
        rw [← List.take_append_drop j ks, List.flatMap_append]
        exact fun h => hrest (List.append_eq_nil_iff.mp h).2
      rw [List.flatMap_cons, takeGroups,
        takeGroup_append hne.1 (fun l hl => fst_of_mem_linksOf hl) (head_ne hlt),
        if_neg fun h => hnonempty h.1, Option.bind_eq_bind, Option.bind_some]
      dsimp only
      rw [ih ks hks hne.2 (Or.inr hrest)]
      rfl

lemma takeGroups_some {ks : List ℕ} {j : ℕ} {groups : List (List Link)} {rest : List Link}
    (hks : ks.Pairwise (· < ·)) (hne : ∀ k ∈ ks, linksOf links k ≠ [])
    (h : takeGroups behind j (ks.flatMap (linksOf links)) = some (groups, rest)) :
    j ≤ ks.length ∧ rest = (ks.drop j).flatMap (linksOf links) ∧
      (behind = none → j = 0 ∨ j < ks.length) := by
  induction j generalizing ks groups with
  | zero =>
      cases h
      exact ⟨Nat.zero_le _, rfl, fun _ => Or.inl rfl⟩
  | succ j ih =>
      rcases ks with _ | ⟨k, ks⟩
      · simp [takeGroups, takeGroup] at h
      obtain ⟨hlt, hks⟩ := List.pairwise_cons.mp hks
      rw [List.forall_mem_cons] at hne
      rw [List.flatMap_cons, takeGroups,
        takeGroup_append hne.1 (fun l hl => fst_of_mem_linksOf hl) (head_ne hlt)] at h
      split_ifs at h with hend
      · cases h
      simp only [Option.bind_eq_bind, Option.bind_some, Option.bind_eq_some_iff, Prod.exists,
        Option.pure_def, Option.some.injEq, Prod.mk.injEq] at h
      obtain ⟨groups', rest', hrest, -, rfl⟩ := h
      obtain ⟨hle, heq, hnone⟩ := ih hks hne.2 hrest
      refine ⟨Nat.succ_le_succ hle, heq, fun hbehind => Or.inr ?_⟩
      rcases hnone hbehind with rfl | hj
      · -- the vector does not end with the group that was taken
        rcases ks with _ | ⟨k', ks⟩
        · simp [hbehind] at hend
        · simp
      · exact Nat.succ_lt_succ hj

end Walk

namespace LocalMesh

/-! ## The links of a thread -/

section Part

variable {P : LocalMesh}

lemma border_zero : P.border 0 = 0 := P.distribution.border_zero

lemma border_threads : P.border P.threads = P.IDs.length := P.distribution.border_size

lemma border_succ_le {t : ℕ} (ht : t < P.threads) : P.border t ≤ P.border (t + 1) :=
  P.distribution.border_mono (Nat.le_add_right t 1) ht

lemma border_le {t : ℕ} (ht : t ≤ P.threads) : P.border t ≤ P.IDs.length :=
  P.distribution.border_le_total ht

lemma border_eq_length {t : ℕ} (ht : t < P.threads) (h : P.border t = P.border (t + 1)) :
    P.border t = P.IDs.length := by
  rcases Nat.lt_or_ge (t + 1) P.threads with hlt | hge
  · rw [border, border, distribution, uniform_border _ _ ht.le, uniform_border _ _ hlt.le,
      distribute_getD _ ht, distribute_getD _ hlt] at h
    rw [border, distribution, uniform_border _ _ ht.le, distribute_getD _ ht]
    rcases Nat.eq_zero_or_pos P.IDs.length with hzero | hpos
    · rw [hzero, Nat.min_zero]
    · have hchunk : 0 < (P.IDs.length + P.threads - 1) / P.threads :=
        Nat.div_pos (by omega) P.threads_pos
      rw [Nat.add_mul, Nat.one_mul] at h
      omega
  · rw [h, show t + 1 = P.threads by omega, border_threads]

variable (P) in
/-- The nodes of thread `t`. -/
def nodes (t : ℕ) : List ℕ := List.range' (P.border t) (P.border (t + 1) - P.border t)

lemma mem_nodes {t n : ℕ} : n ∈ P.nodes t ↔ P.border t ≤ n ∧ n < P.border (t + 1) := by
  rw [nodes, List.mem_range'_1]
  omega

lemma flatMap_nodes {t : ℕ} (ht : t ≤ P.threads) :
    (List.range t).flatMap P.nodes = List.range (P.border t) := by
  have h := (flatMap_range' P.border t fun i hi => border_succ_le (hi.trans_le ht)).1
  rwa [border_zero, Nat.sub_zero, ← List.range_eq_range'] at h

lemma localLinks_perm : P.localLinks.Perm
    (P.elements.flatten.flatMap fun e => e.2.map fun n => (n, e.1)) := by
  refine (sortWithInplaceMerge_perm _).trans (List.Perm.of_eq ?_)
  rw [List.flatMap_def, List.map_flatten, List.flatten_flatten, List.map_map]
  rfl

lemma mem_localLinks {l : Link} :
    l ∈ P.localLinks ↔ ∃ e ∈ P.elements.flatten, l.1 ∈ e.2 ∧ e.1 = l.2 := by
  rw [localLinks_perm.mem_iff, List.mem_flatMap]
  refine exists_congr fun e => and_congr_right fun _ => ?_
  rw [List.mem_map]
  constructor
  · rintro ⟨n, hn, rfl⟩
    exact ⟨hn, rfl⟩
  · rintro ⟨hn, heq⟩
    exact ⟨l.1, hn, Prod.ext rfl heq⟩

lemma localLinks_sorted : P.localLinks.Pairwise fun a b => a.1 ≤ b.1 := by
  refine (sortWithInplaceMerge_sorted _).imp fun {a b} hab => ?_
  rcases pairLe_iff.mp hab with hlt | heq
  · exact hlt.le
  · exact heq.1.le

lemma localLinks_lt {l : Link} (hl : l ∈ P.localLinks) : l.1 < P.IDs.length := by
  obtain ⟨e, he, hn, -⟩ := mem_localLinks.mp hl
  exact P.nodes_lt e he _ hn

lemma tbegin_eq {t : ℕ} (ht : t ≤ P.threads) :
    P.tbegin t = lowerBound (P.localLinks.map Prod.fst) (P.border t) := by
  induction t with
  | zero =>
      rw [tbegin, border_zero]
      cases P.localLinks with
      | nil => rfl
      | cons l links => rw [List.map_cons, lowerBound_cons, if_pos (Nat.zero_le _)]
  | succ t ih =>
      have htbegin := ih (Nat.le_of_succ_le ht)
      have hle := lowerBound_mono (P.localLinks.map Prod.fst) (border_succ_le ht)
      rw [tbegin, List.map_drop, lowerBound_drop]
      rwa [htbegin]

lemma part_eq {t : ℕ} (ht : t < P.threads) :
    P.part t = (P.nodes t).flatMap (linksOf P.localLinks) := by
  have hsorted : (P.localLinks.map Prod.fst).Pairwise (· ≤ ·) :=
    List.pairwise_map.mpr localLinks_sorted
  have hgroups : (P.nodes t).flatMap (linksOf P.localLinks)
      = P.localLinks.filter fun l => l.1 ∈ P.nodes t :=
    Grouped.flatMap_filter localLinks_sorted List.pairwise_lt_range'
  have hpart : P.part t
      = P.localLinks.filter fun l => P.border t ≤ l.1 ∧ l.1 < P.border (t + 1) := by
    rw [part]
    split_ifs with hlt
    · rw [tbegin_eq ht.le, tbegin_eq hlt.le, window_lowerBound_map hsorted (border_succ_le ht)]
    · rw [tbegin_eq ht.le, (take_lowerBound_map hsorted _).2]
      refine List.filter_congr fun l hl => ?_
      have hlast := localLinks_lt hl
      rw [show t + 1 = P.threads by omega, border_threads]
      simp [hlast]
  rw [hpart]
  refine Eq.trans (List.filter_congr fun l _ => ?_) hgroups.symm
  simp only [mem_nodes]

lemma behind_ne {seen : Bool} {t v : ℕ} (hv : P.behind seen t = some v) :
    ∀ n ∈ P.nodes t, v ≠ n := by
  intro n hn
  have hnlt := (mem_nodes.mp hn).2
  rw [behind] at hv
  by_cases hlt : t + 1 < P.threads
  · rw [if_pos hlt] at hv
    obtain ⟨l, hl, hv⟩ := Option.map_eq_some_iff.mp hv
    have hfst : (P.localLinks.map Prod.fst)[P.tbegin (t + 1)]? = some l.1 := by
      rw [List.getElem?_map, hl, Option.map_some]
    have hge : P.border (t + 1) ≤ l.1 := le_of_eq_lowerBound (tbegin_eq hlt.le) hfst
    have hin := localLinks_lt (List.mem_of_getElem? hl)
    have hID : l.1 ≤ P.IDs.getD l.1 0 := by
      rw [List.getD_eq_getElem _ _ hin]
      exact le_getElem_of_ascending P.IDs_ascending hin
    split_ifs at hv <;> omega
  · rw [if_neg hlt] at hv
    cases hv

lemma behind_eq_none_iff {seen : Bool} {t : ℕ} (ht : t < P.threads) :
    P.behind seen t = none ↔ ∀ l ∈ P.localLinks, l.1 < P.border (t + 1) := by
  rw [behind]
  by_cases hlt : t + 1 < P.threads
  · rw [if_pos hlt, Option.map_eq_none_iff, List.getElem?_eq_none_iff, tbegin_eq hlt.le,
      ← List.length_map (f := Prod.fst)]
    constructor
    · intro hle l hl
      obtain ⟨i, hi, rfl⟩ := List.mem_iff_getElem.mp hl
      have hfst : (P.localLinks.map Prod.fst)[i]? = some P.localLinks[i].1 := by
        rw [List.getElem?_map, List.getElem?_eq_getElem hi, Option.map_some]
      refine lt_of_lt_lowerBound (Nat.lt_of_lt_of_le ?_ hle) hfst
      rwa [List.length_map]
    · intro hall
      refine (lowerBound_eq_length fun n hn => ?_).ge
      obtain ⟨l, hl, rfl⟩ := List.mem_map.mp hn
      exact hall l hl
  · rw [if_neg hlt, show t + 1 = P.threads by omega, border_threads]
    exact iff_of_true rfl fun l hl => localLinks_lt hl

end Part

/-! ## The part in front of the exchange -/

section Stage

variable (P : LocalMesh)

def Linked (n : ℕ) : Prop := ∃ e ∈ P.elements.flatten, n ∈ e.2

def Alone (n : ℕ) : Prop := ∃ t < P.threads, P.border t = n ∧ P.border (t + 1) = n + 1

/-- The walk is right about a node without links: the node is the only one of its thread, and no
links are behind. -/
def Skipped (n : ℕ) : Prop := P.Alone n ∧ ∀ m, n < m → ¬P.Linked m

def targetsOf (n : ℕ) : List ℕ :=
  ((P.ranks.getD n []).filter (· ≠ P.rank)).map (lowerBound P.neighbours)

def labelled (n : ℕ) : List Link :=
  (linksOf P.localLinks n).map fun l => (P.IDs.getD n 0, l.2)

def sendsOf (n : ℕ) : List (ℕ × List Link) := (P.targetsOf n).map fun i => (i, P.labelled n)

variable {P}

lemma linksOf_ne_nil_iff {n : ℕ} : linksOf P.localLinks n ≠ [] ↔ P.Linked n := by
  rw [linksOf, ne_eq, List.filter_eq_nil_iff]
  push Not
  constructor
  · rintro ⟨l, hl, hn⟩
    obtain ⟨e, he, hmem, -⟩ := mem_localLinks.mp hl
    exact ⟨e, he, of_decide_eq_true hn ▸ hmem⟩
  · rintro ⟨e, he, hn⟩
    exact ⟨(n, e.1), mem_localLinks.mpr ⟨e, he, hn, rfl⟩, decide_eq_true rfl⟩

lemma targets_eq {i : ℕ} {ranks : List ℕ} (hsorted : ranks.Pairwise (· < ·))
    (hmem : ∀ r ∈ ranks, r ≠ P.rank → r ∈ P.neighbours)
    (hi : ∀ r ∈ ranks, i ≤ lowerBound P.neighbours r) :
    P.targets i ranks = some ((ranks.filter (· ≠ P.rank)).map (lowerBound P.neighbours)) := by
  induction ranks generalizing i with
  | nil => rfl
  | cons rank ranks ih =>
      obtain ⟨hlt, hsorted⟩ := List.pairwise_cons.mp hsorted
      rw [List.forall_mem_cons] at hmem hi
      rw [targets]
      by_cases heq : rank = P.rank
      · rw [if_pos heq, ih hsorted hmem.2 hi.2, List.filter_cons_of_neg (by simp [heq])]
      · have hfound := (lowerBound_mem P.neighbours_ascending).mpr (hmem.1 heq)
        have hin := (List.getElem?_eq_some_iff.mp hfound).1
        rw [if_neg heq, lowerBound_drop _ hi.1, if_pos hin, List.filter_cons_of_pos (by simp [heq]),
          ih hsorted hmem.2 fun r hr => lowerBound_mono _ (hlt r hr).le]
        rfl

lemma send_eq {n id : ℕ} {group : List Link}
    (htargets : P.targets 0 (P.ranks.getD n []) = some (P.targetsOf n)) :
    P.send id (P.ranks.getD n []) group = some
      ⟨group.map fun l => (id, l.2),
        (P.targetsOf n).map fun i => (i, group.map fun l => (id, l.2))⟩ := by
  rw [send, htargets]
  rfl

lemma thread_unique {t s n : ℕ} (ht : t < P.threads) (hs : s < P.threads) (hn : n ∈ P.nodes t)
    (hm : n ∈ P.nodes s) : t = s := by
  have h₁ := mem_nodes.mp hn
  have h₂ := mem_nodes.mp hm
  rcases Nat.lt_trichotomy t s with hlt | heq | hgt
  · have := P.distribution.border_mono (show t + 1 ≤ s from hlt) hs.le
    exact absurd (h₁.2.trans_le (this.trans h₂.1)) (lt_irrefl _)
  · exact heq
  · have := P.distribution.border_mono (show s + 1 ≤ t from hgt) ht.le
    exact absurd (h₂.2.trans_le (this.trans h₁.1)) (lt_irrefl _)

lemma nodes_eq_nil {t : ℕ} (ht : t < P.threads) (h : P.nodes t = []) :
    P.border t = P.IDs.length := by
  rw [nodes, List.range'_eq_nil_iff] at h
  have hle := border_succ_le ht
  exact border_eq_length ht (by omega)

lemma nodes_eq_concat {t : ℕ} (h : P.nodes t ≠ []) :
    P.nodes t = List.range' (P.border t) (P.innerNodes t) ++ [P.border (t + 1) - 1] ∧
      P.border t + P.innerNodes t = P.border (t + 1) - 1 ∧ P.border t < P.border (t + 1) := by
  have hlt : P.border t < P.border (t + 1) := by
    by_contra hge
    exact h (by rw [nodes, Nat.sub_eq_zero_of_le (by omega)]; rfl)
  refine ⟨?_, by rw [innerNodes]; omega, hlt⟩
  rw [nodes, innerNodes,
    show P.border (t + 1) - P.border t = P.border (t + 1) - P.border t - 1 + 1 by omega,
    List.range'_concat, Nat.add_sub_cancel,
    show P.border t + 1 * (P.border (t + 1) - P.border t - 1) = P.border (t + 1) - 1 by omega]

lemma thread_cases (hattached : ∀ n < P.IDs.length, P.Linked n ∨ P.Skipped n) {t : ℕ}
    (ht : t < P.threads) :
    (∀ n ∈ P.nodes t, P.Linked n) ∨
      (P.innerNodes t = 0 ∧ ∀ l ∈ P.localLinks, l.1 < P.border t) := by
  by_cases hall : ∀ n ∈ P.nodes t, P.Linked n
  · exact Or.inl hall
  push Not at hall
  obtain ⟨n, hn, hnot⟩ := hall
  have hnt := mem_nodes.mp hn
  have hlt := hnt.2.trans_le (border_le (P := P) (show t + 1 ≤ P.threads from ht))
  obtain ⟨⟨s, hs, hbegin, hend⟩, hbehind⟩ := (hattached n hlt).resolve_left hnot
  obtain rfl := thread_unique ht hs hn (mem_nodes.mpr ⟨hbegin.le, by omega⟩)
  refine Or.inr ⟨by rw [innerNodes]; omega, fun l hl => ?_⟩
  obtain ⟨e, he, hmem, -⟩ := mem_localLinks.mp hl
  by_contra hge
  rcases Nat.eq_or_lt_of_le (Nat.le_of_not_lt hge) with heq | hgt
  · exact hnot ⟨e, he, by rwa [← hbegin, heq]⟩
  · exact hbehind l.1 (by omega) ⟨e, he, hmem⟩

lemma threadLinks_eq {seen : Bool} (hattached : ∀ n < P.IDs.length, P.Linked n ∨ P.Skipped n)
    (hsize : 0 < P.IDs.length)
    (htargets : ∀ n, P.targets 0 (P.ranks.getD n []) = some (P.targetsOf n)) {t : ℕ}
    (ht : t < P.threads) :
    P.threadLinks seen t
      = some ⟨(P.nodes t).flatMap P.labelled, (P.nodes t).flatMap P.sendsOf⟩ := by
  have hID : P.border (t + 1) - 1 < P.IDs.length := by
    have := border_le (P := P) (show t + 1 ≤ P.threads from ht)
    omega
  have hzip : ∀ ns : List ℕ, (ns.map (linksOf P.localLinks)).zip ns
      = ns.map fun n => (linksOf P.localLinks n, n) := fun ns => by
    have h := List.zip_map' (f := linksOf P.localLinks) (g := id) (l := ns)
    rwa [List.map_id] at h
  have hsent : ∀ ns : List ℕ, (ns.map fun n => (linksOf P.localLinks n, n)).mapM
      (fun g => P.send (P.IDs.getD g.2 0) (P.ranks.getD g.2 []) g.1)
        = some (ns.map fun n => ⟨P.labelled n, P.sendsOf n⟩) := fun ns => by
    rw [Fallible.mapM_eq_some_iff, List.map_map, List.map_map]
    exact List.map_congr_left fun n _ => send_eq (htargets n)
  rw [threadLinks]
  dsimp only
  by_cases hnil : P.nodes t = []
  · -- the thread has no nodes, and no links are behind
    have hborder := nodes_eq_nil ht hnil
    have hinner : P.innerNodes t = 0 := by
      rw [nodes, List.range'_eq_nil_iff] at hnil
      rw [innerNodes, hnil]
    have hnone : P.behind seen t = none := (behind_eq_none_iff ht).mpr fun l hl => by
      have := border_succ_le ht
      exact (localLinks_lt hl).trans_le (by omega)
    have hlast : P.lastGroup none t [] = some ([], []) := by
      rw [lastGroup]
      split_ifs <;> rfl
    rw [part_eq ht, hnil, hinner, hnone]
    simp only [List.flatMap_nil, takeGroups, Option.bind_eq_bind, Option.bind_some, hlast,
      List.zip_nil_left, List.mapM_nil, Option.pure_def, List.getElem?_eq_getElem hID, Nat.add_zero,
      hborder]
    rw [List.getD_eq_default _ _ P.ranks_length.le]
    rfl
  · obtain ⟨hnodes, hbegin, hlt⟩ := nodes_eq_concat hnil
    have hgroups : takeGroups (P.behind seen t) (P.innerNodes t) (P.part t)
        = some ((List.range' (P.border t) (P.innerNodes t)).map (linksOf P.localLinks),
          linksOf P.localLinks (P.border (t + 1) - 1)) := by
      have htake : (P.nodes t).take (P.innerNodes t)
          = List.range' (P.border t) (P.innerNodes t) := by
        rw [hnodes]
        exact List.take_left' (List.length_range')
      have hdrop : (P.nodes t).drop (P.innerNodes t) = [P.border (t + 1) - 1] := by
        rw [hnodes]
        exact List.drop_left' (List.length_range')
      have h := takeGroups_append P.localLinks (P.behind seen t) (P.nodes t) (P.innerNodes t)
        List.pairwise_lt_range'
      rw [htake, hdrop, List.flatMap_singleton, ← part_eq ht] at h
      rcases thread_cases hattached ht with hall | ⟨hinner, -⟩
      · refine h (fun n hn => linksOf_ne_nil_iff.mpr (hall n ?_)) (Or.inr ?_)
        · rw [hnodes]
          exact List.mem_append_left _ hn
        · refine linksOf_ne_nil_iff.mpr (hall _ ?_)
          rw [hnodes]
          exact List.mem_append_right _ (List.mem_singleton_self _)
      · refine h (fun n hn => ?_) (Or.inl hinner)
        rw [hinner] at hn
        exact absurd hn List.not_mem_nil
    have hlast : P.lastGroup (P.behind seen t) t (linksOf P.localLinks (P.border (t + 1) - 1))
        = some (linksOf P.localLinks (P.border (t + 1) - 1), []) := by
      have hmem : P.border (t + 1) - 1 ∈ P.nodes t := mem_nodes.mpr ⟨by omega, by omega⟩
      rw [lastGroup]
      split_ifs with hmore
      · rcases hempty : linksOf P.localLinks (P.border (t + 1) - 1) with _ | ⟨l, group⟩
        · rcases thread_cases hattached ht with hall | ⟨-, hbehind⟩
          · exact absurd hempty (linksOf_ne_nil_iff.mpr (hall _ hmem))
          · rw [(behind_eq_none_iff ht).mpr fun l hl => (hbehind l hl).trans hlt]
            rfl
        · rw [← hempty]
          refine takeChecked_append (by rw [hempty]; exact List.cons_ne_nil _ _)
            (fun l hl => fst_of_mem_linksOf hl) ?_
          rcases hv : P.behind seen t with _ | v
          · rfl
          · exact decide_eq_true (behind_ne hv _ hmem)
      · rfl
    rw [hgroups]
    simp only [Option.bind_eq_bind, Option.bind_some, hlast, hzip, hsent]
    simp only [Option.bind_some, List.getElem?_eq_getElem hID, hbegin, send_eq (htargets _),
      Option.pure_def]
    rw [hnodes, List.flatMap_append, List.flatMap_append, List.flatMap_append, List.flatMap_append,
      List.append_nil, List.flatMap_map, List.flatMap_map]
    simp only [List.flatMap_singleton, labelled, sendsOf, List.getD_eq_getElem _ _ hID]
    rfl

lemma labelled_eq : P.localLinks.map (fun l => (P.IDs.getD l.1 0, l.2))
    = (List.range P.IDs.length).flatMap P.labelled := by
  have hgroups : (List.range P.IDs.length).flatMap (linksOf P.localLinks) = P.localLinks :=
    Grouped.flatMap_filter_of_forall localLinks_sorted List.pairwise_lt_range fun l hl =>
      List.mem_range.mpr (localLinks_lt hl)
  conv_lhs => rw [← hgroups, List.map_flatMap]
  refine List.flatMap_congr fun n _ => List.map_congr_left fun l hl => ?_
  rw [fst_of_mem_linksOf hl]

/-- **The part in front of the exchange** labels all links with IDs. -/
theorem localStage_eq {seen : ℕ → Bool}
    (hattached : ∀ n < P.IDs.length, P.Linked n ∨ P.Skipped n) (hsize : 0 < P.IDs.length)
    (htargets : ∀ n, P.targets 0 (P.ranks.getD n []) = some (P.targetsOf n)) :
    P.localStage seen = some ⟨P.localLinks.map fun l => (P.IDs.getD l.1 0, l.2),
      (List.range P.IDs.length).flatMap P.sendsOf⟩ := by
  have hthreads : (List.range P.threads).mapM (fun t => P.threadLinks (seen t) t)
      = some ((List.range P.threads).map fun t =>
        ⟨(P.nodes t).flatMap P.labelled, (P.nodes t).flatMap P.sendsOf⟩) :=
    Fallible.mapM_eq_some fun t ht =>
      threadLinks_eq hattached hsize htargets (List.mem_range.mp ht)
  have hnodes : (List.range P.threads).flatMap P.nodes = List.range P.IDs.length := by
    rw [flatMap_nodes le_rfl, border_threads]
  rw [localStage, hthreads, Option.bind_eq_bind, Option.bind_some, List.flatMap_map,
    List.flatMap_map, labelled_eq, ← hnodes, List.flatMap_assoc, List.flatMap_assoc]
  rfl

lemma threadLinks_some {seen : Bool} {t : ℕ} {out : LocalLinks} (ht : t < P.threads)
    (h : P.threadLinks seen t = some out) :
    0 < P.IDs.length ∧ ∀ n ∈ P.nodes t, P.Linked n ∨ P.Skipped n := by
  rw [threadLinks] at h
  simp only [Option.bind_eq_bind, Option.bind_eq_some_iff, Prod.exists] at h
  obtain ⟨groups, rest, hgroups, group, rest', hlast, -, -, id, hid, -⟩ := h
  refine ⟨Nat.lt_of_le_of_lt (Nat.zero_le _) (List.getElem?_eq_some_iff.mp hid).1, ?_⟩
  have hpart : P.part t = ((P.nodes t).filter fun n => linksOf P.localLinks n ≠ []).flatMap
      (linksOf P.localLinks) := by
    rw [part_eq ht]
    induction P.nodes t with
    | nil => rfl
    | cons n ns ih =>
        rw [List.flatMap_cons, List.filter_cons, ih]
        split_ifs with hne
        · rfl
        · rw [decide_eq_true_eq, not_not] at hne
          rw [hne, List.nil_append]
  have hsorted : (P.nodes t).Pairwise (· < ·) := List.pairwise_lt_range'
  rw [hpart] at hgroups
  obtain ⟨hle, hrest, hnone⟩ := takeGroups_some (hsorted.filter _)
    (fun n hn => of_decide_eq_true (List.mem_filter.mp hn).2) hgroups
  have hlength : (P.nodes t).length = P.border (t + 1) - P.border t := List.length_range'
  have hfilter := List.length_filter_le (fun n => linksOf P.localLinks n ≠ []) (P.nodes t)
  by_cases hall : ((P.nodes t).filter fun n => linksOf P.localLinks n ≠ []).length
      = (P.nodes t).length
  · intro n hn
    exact Or.inl (linksOf_ne_nil_iff.mp (of_decide_eq_true
      (List.length_filter_eq_length_iff.mp hall n hn)))
  -- one group is missing, and nothing is behind the links of the thread
  have hinner : P.innerNodes t + 1 = (P.nodes t).length := by rw [innerNodes]; omega
  have hmissing : ((P.nodes t).filter fun n => linksOf P.localLinks n ≠ []).length
      = P.innerNodes t := by omega
  have hbehind : P.behind seen t = none := by
    rw [List.drop_eq_nil_of_le hmissing.le] at hrest
    rw [hrest, lastGroup] at hlast
    split_ifs at hlast with hmore
    · rcases hb : P.behind seen t with _ | v
      · rfl
      · rw [hb] at hlast
        simp [takeChecked] at hlast
    · rw [behind, if_neg hmore]
  have hzero : P.innerNodes t = 0 := by
    rcases hnone hbehind with h | h
    · exact h
    · omega
  intro n hn
  have hmem := mem_nodes.mp hn
  refine Or.inr ⟨⟨t, ht, by omega, by omega⟩, fun m hm => ?_⟩
  rintro ⟨e, he, hme⟩
  have hlt := (behind_eq_none_iff ht).mp hbehind (m, e.1) (mem_localLinks.mpr ⟨e, he, hme, rfl⟩)
  dsimp only at hlt
  omega

/-- **The part in front of the exchange has a result** only if the walk is right about all nodes. -/
theorem localStage_some {seen : ℕ → Bool} {out : LocalLinks} (h : P.localStage seen = some out) :
    0 < P.IDs.length ∧ ∀ n < P.IDs.length, P.Linked n ∨ P.Skipped n := by
  rw [localStage, Option.bind_eq_bind, Option.bind_eq_some_iff] at h
  obtain ⟨threads, hthreads, -⟩ := h
  have hall : ∀ t < P.threads, ∃ out, P.threadLinks (seen t) t = some out := by
    intro t ht
    have hmap := Fallible.mapM_eq_some_iff.mp hthreads
    have hmem : P.threadLinks (seen t) t ∈ threads.map some := by
      rw [← hmap]
      exact List.mem_map_of_mem (List.mem_range.mpr ht)
    obtain ⟨out, -, heq⟩ := List.mem_map.mp hmem
    exact ⟨out, heq.symm⟩
  obtain ⟨out, hout⟩ := hall 0 P.threads_pos
  refine ⟨(threadLinks_some P.threads_pos hout).1, fun n hn => ?_⟩
  have hin : n ∈ (List.range P.threads).flatMap P.nodes := by
    rw [flatMap_nodes le_rfl, border_threads]
    exact List.mem_range.mpr hn
  obtain ⟨t, ht, hnt⟩ := List.mem_flatMap.mp hin
  obtain ⟨out, hout⟩ := hall t (List.mem_range.mp ht)
  exact (threadLinks_some (List.mem_range.mp ht) hout).2 n hnt

end Stage

end LocalMesh

end Espreso
