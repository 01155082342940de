import Espreso.Mesh.NodeLinks

/-!
# Rows of links

Behind the exchange, each thread walks over its nodes and the sorted links of the rank, and cuts the
links into the rows of `nodes->elements`.

* `LocalMesh.front` — the links of the first nodes.
* **`buildLinks_eq`** — the walk finds the row of each node, if only a node alone in the last
  thread has no links.
* **`row_of_buildLinks`** — the rows are right about nodes without links only in this case.
-/

namespace Espreso

namespace LocalMesh

section Front

variable (P : LocalMesh) (links : List Link)

/-- The links of the first `n` nodes. -/
def front (n : ℕ) : List Link := (P.IDs.take n).flatMap (linksOf links)

/-- The links of node `n`. -/
def rowOf (n : ℕ) : List Link := linksOf links (P.IDs.getD n 0)

/-- The row of thread `t`, where the walk is right. -/
def rightRows (t : ℕ) : Links where
  boundaries := (if t = 0 then [0] else [])
    ++ (P.nodes t).map fun n => (P.front links (n + 1)).length
  data := ((P.nodes t).flatMap (P.rowOf links)).map Prod.snd

/-- The walk of a thread is right about its nodes: only a node alone in the last thread has no
links. -/
def Served (t : ℕ) : Prop :=
  (∀ n ∈ P.nodes t, P.rowOf links n ≠ []) ∨ (t + 1 = P.threads ∧ P.innerNodes t = 0)

variable {P links}

lemma front_zero : P.front links 0 = [] := rfl

lemma front_succ {n : ℕ} (hn : n < P.IDs.length) :
    P.front links (n + 1) = P.front links n ++ P.rowOf links n := by
  rw [front, List.take_succ_eq_append_getElem hn, List.flatMap_append, List.flatMap_singleton,
    front, rowOf, List.getD_eq_getElem _ _ hn]

lemma front_add {b k : ℕ} (hk : b + k ≤ P.IDs.length) :
    P.front links (b + k) = P.front links b ++ (List.range' b k).flatMap (P.rowOf links) := by
  induction k with
  | zero => rw [Nat.add_zero, List.range'_zero, List.flatMap_nil, List.append_nil]
  | succ k ih =>
      rw [← Nat.add_assoc, front_succ (by omega), ih (by omega), List.range'_concat,
        List.flatMap_append, List.flatMap_singleton, Nat.one_mul, List.append_assoc]

lemma positions_eq {b k : ℕ} (hk : b + k ≤ P.IDs.length) :
    positions (P.front links b).length ((List.range' b k).map (P.rowOf links))
      = (List.range' b k).map fun n => (P.front links (n + 1)).length := by
  induction k generalizing b with
  | zero => rfl
  | succ k ih =>
      have hlength : (P.front links b).length + (P.rowOf links b).length
          = (P.front links (b + 1)).length := by
        rw [front_succ (by omega), List.length_append]
      rw [List.range'_succ, List.map_cons, List.map_cons, positions, hlength, ih (by omega)]

section Sorted

variable (hsorted : links.Pairwise fun a b => a.1 ≤ b.1) (hmem : ∀ l ∈ links, l.1 ∈ P.IDs)

include hsorted hmem

lemma lowerBound_links {n : ℕ} (hn : n < P.IDs.length) :
    lowerBound (links.map Prod.fst) (P.IDs.getD n 0) = (P.front links n).length ∧
      links.drop (lowerBound (links.map Prod.fst) (P.IDs.getD n 0))
        = (P.IDs.drop n).flatMap (linksOf links) := by
  have hfst : (links.map Prod.fst).Pairwise (· ≤ ·) := List.pairwise_map.mpr hsorted
  have hle := lowerBound_le_length (links.map Prod.fst) (P.IDs.getD n 0)
  rw [List.length_map] at hle
  obtain ⟨htake, hdrop⟩ := take_lowerBound_map hfst (P.IDs.getD n 0)
  -- an ID is in front of node `n` if it is less
  have hcut : ∀ x ∈ P.IDs, (x ∈ P.IDs.take n ↔ x < P.IDs.getD n 0) ∧
      (x ∈ P.IDs.drop n ↔ P.IDs.getD n 0 ≤ x) := by
    intro x hx
    have hfound := (lowerBound_mem P.IDs_ascending).mpr hx
    have hself := lowerBound_getElem? P.IDs_ascending (List.getElem?_eq_getElem hn)
    rw [List.getD_eq_getElem _ _ hn]
    obtain ⟨i, hi, rfl⟩ := List.mem_iff_getElem.mp hx
    have hlt : P.IDs[i] < P.IDs[n] ↔ i < n := by
      constructor
      · intro h
        by_contra hge
        rcases Nat.eq_or_lt_of_le (Nat.le_of_not_lt hge) with rfl | hgt
        · exact lt_irrefl _ h
        · exact lt_asymm h (List.pairwise_iff_getElem.mp P.IDs_ascending n i hn hi hgt)
      · exact List.pairwise_iff_getElem.mp P.IDs_ascending i n hi hn
    have hnodup : P.IDs.Nodup := P.IDs_ascending.imp fun h => h.ne
    rw [← not_lt, hlt]
    constructor
    · rw [List.mem_take_iff_getElem]
      constructor
      · rintro ⟨j, hj, heq⟩
        have := (List.Nodup.getElem_inj_iff hnodup).mp heq
        omega
      · intro h
        exact ⟨i, by omega, rfl⟩
    · rw [List.mem_drop_iff_getElem]
      constructor
      · rintro ⟨j, hj, heq⟩
        have := (List.Nodup.getElem_inj_iff hnodup).mp heq
        omega
      · intro h
        exact ⟨i - n, by omega, by simp [show n + (i - n) = i by omega]⟩
  have hfront : P.front links n = links.filter fun l => l.1 ∈ P.IDs.take n :=
    Grouped.flatMap_filter hsorted (P.IDs_ascending.sublist (List.take_sublist _ _))
  have hback : (P.IDs.drop n).flatMap (linksOf links) = links.filter fun l => l.1 ∈ P.IDs.drop n :=
    Grouped.flatMap_filter hsorted (P.IDs_ascending.sublist (List.drop_sublist _ _))
  constructor
  · have hlength := congrArg List.length htake
    rw [List.length_take, min_eq_left hle] at hlength
    rw [hlength, hfront]
    refine congrArg List.length (List.filter_congr fun l hl => ?_)
    simp only [(hcut l.1 (hmem l hl)).1]
  · rw [hdrop, hback]
    refine List.filter_congr fun l hl => ?_
    simp only [(hcut l.1 (hmem l hl)).2]

lemma front_length : P.front links P.IDs.length = links := by
  rw [front, List.take_length]
  exact Grouped.flatMap_filter_of_forall hsorted P.IDs_ascending hmem

omit hsorted hmem in
lemma drop_IDs {n : ℕ} (hn : n < P.IDs.length) :
    (P.IDs.drop n).flatMap (linksOf links)
      = P.rowOf links n ++ (P.IDs.drop (n + 1)).flatMap (linksOf links) := by
  rw [List.drop_eq_getElem_cons hn, List.flatMap_cons, rowOf, List.getD_eq_getElem _ _ hn]

lemma threadRows_eq {t : ℕ} (ht : t < P.threads) (hserved : P.Served links t)
    (hsize : 0 < P.IDs.length) : P.threadRows links t = some (P.rightRows links t) := by
  have hle := border_le (P := P) (show t + 1 ≤ P.threads from ht)
  by_cases hnil : P.nodes t = []
  · have hborder := nodes_eq_nil ht hnil
    have hpos : t ≠ 0 := by
      rintro rfl
      rw [border_zero] at hborder
      omega
    have hmono := border_succ_le ht
    rw [threadRows, if_pos (by omega), rightRows, hnil, if_neg hpos]
    rfl
  obtain ⟨hnodes, hbegin, hlt⟩ := nodes_eq_concat hnil
  have hlast : P.border (t + 1) - 1 < P.IDs.length := by omega
  obtain ⟨hbound, hdrop⟩ := lowerBound_links hsorted hmem (show P.border t < P.IDs.length by omega)
  have hkeys : (P.IDs.drop (P.border t)).Pairwise (· < ·) :=
    P.IDs_ascending.sublist (List.drop_sublist _ _)
  have htake : ((P.IDs.drop (P.border t)).take (P.innerNodes t)).map (linksOf links)
      = (List.range' (P.border t) (P.innerNodes t)).map (P.rowOf links) := by
    refine List.ext_getElem ?_ fun i hi hi' => ?_
    · rw [List.length_map, List.length_map, List.length_take, List.length_drop, List.length_range']
      omega
    · have hi'' : P.border t + i < P.IDs.length := by
        rw [List.length_map, List.length_range'] at hi'
        omega
      simp [rowOf, List.getElem?_eq_getElem hi'']
  have hrest : ((P.IDs.drop (P.border t)).drop (P.innerNodes t)).flatMap (linksOf links)
      = P.rowOf links (P.border (t + 1) - 1)
        ++ (P.IDs.drop (P.border (t + 1))).flatMap (linksOf links) := by
    rw [List.drop_drop, hbegin, drop_IDs hlast, Nat.sub_add_cancel (by omega)]
  have hgroups := takeGroups_append links none _ (P.innerNodes t) hkeys ?_ ?_
  rotate_left
  · intro k hk
    rcases hserved with hall | ⟨-, hinner⟩
    · have hmap := List.mem_map_of_mem (f := linksOf links) hk
      rw [htake] at hmap
      obtain ⟨n, hn, heq⟩ := List.mem_map.mp hmap
      rw [← heq]
      refine hall n ?_
      rw [hnodes]
      exact List.mem_append_left _ hn
    · rw [hinner] at hk
      exact absurd hk List.not_mem_nil
  · rcases hserved with hall | ⟨-, hinner⟩
    · rw [hrest]
      refine Or.inr fun h => hall _ ?_ (List.append_eq_nil_iff.mp h).1
      rw [hnodes]
      exact List.mem_append_right _ (List.mem_singleton_self _)
    · exact Or.inl hinner
  have hlastRow : P.lastRow t (P.rowOf links (P.border (t + 1) - 1)
      ++ (P.IDs.drop (P.border (t + 1))).flatMap (linksOf links))
        = some (P.rowOf links (P.border (t + 1) - 1)) := by
    rcases hrow : P.rowOf links (P.border (t + 1) - 1) with _ | ⟨l, row⟩
    · -- the node is alone in the last thread
      rcases hserved with hall | ⟨hend, -⟩
      · exact absurd hrow (hall _ (mem_nodes.mpr ⟨by omega, by omega⟩))
      · rw [hend, border_threads, List.drop_length, List.flatMap_nil, List.append_nil, lastRow,
          if_neg (by omega)]
    · have hfst : ∀ l' ∈ l :: row, l'.1 = P.IDs.getD (P.border (t + 1) - 1) 0 := by
        rw [← hrow]
        exact fun l' hl' => fst_of_mem_linksOf hl'
      rw [List.forall_mem_cons] at hfst
      rw [List.cons_append, lastRow]
      split_ifs with hmore
      · rw [hfst.1, (takeWhile_group hfst.2 (head_ne fun k hk => ?_)).1]
        have hpair := P.IDs_ascending.sublist (List.drop_sublist (P.border (t + 1) - 1) _)
        rw [List.drop_eq_getElem_cons hlast, Nat.sub_add_cancel (by omega)] at hpair
        rw [List.getD_eq_getElem _ _ hlast]
        exact (List.pairwise_cons.mp hpair).1 k hk
      · rw [show t + 1 = P.threads by omega, border_threads, List.drop_length, List.flatMap_nil,
          List.append_nil]
  have hrows : (List.range' (P.border t) (P.innerNodes t)).map (P.rowOf links)
      ++ [P.rowOf links (P.border (t + 1) - 1)] = (P.nodes t).map (P.rowOf links) := by
    rw [hnodes, List.map_append, List.map_singleton]
  rw [threadRows, if_neg hlt.ne]
  dsimp only
  rw [hdrop, hgroups, htake, hrest]
  simp only [Option.bind_eq_bind, Option.bind_some, hlastRow, hrows, Option.pure_def]
  rw [hbound, nodes, positions_eq (by omega), rightRows, nodes, List.flatMap_def]

end Sorted

/-! ## The rows of all threads -/

variable (links) in
lemma flatMap_rightRows {t : ℕ} (ht : t ≤ P.threads) :
    ((List.range t).flatMap fun s => (P.rightRows links s).boundaries)
        = (if t = 0 then []
          else (List.range (P.border t + 1)).map fun n => (P.front links n).length) ∧
      ((List.range t).flatMap fun s => (P.rightRows links s).data)
        = (P.front links (P.border t)).map Prod.snd := by
  induction t with
  | zero =>
      rw [border_zero]
      exact ⟨rfl, rfl⟩
  | succ t ih =>
      obtain ⟨hboundaries, hdata⟩ := ih (Nat.le_of_succ_le ht)
      have hmono := border_succ_le ht
      have hle := border_le ht
      have hsplit : P.border (t + 1) = P.border t + (P.border (t + 1) - P.border t) := by omega
      rw [List.range_succ, List.flatMap_append, List.flatMap_append, List.flatMap_singleton,
        List.flatMap_singleton, hboundaries, hdata, if_neg (Nat.succ_ne_zero t), rightRows]
      constructor
      · have hrange : List.range (P.border (t + 1) + 1)
            = List.range (P.border t + 1) ++ (P.nodes t).map (· + 1) := by
          have hmap : (P.nodes t).map (· + 1)
              = List.range' (P.border t + 1) (P.border (t + 1) - P.border t) := by
            rw [Nat.add_comm, ← List.map_add_range', nodes]
            exact List.map_congr_left fun n _ => Nat.add_comm n 1
          have happend := List.range'_append_1 (s := 0) (m := P.border t + 1)
            (n := P.border (t + 1) - P.border t)
          rw [Nat.zero_add] at happend
          rw [hmap, List.range_eq_range', List.range_eq_range', happend]
          congr 1
          omega
        rw [hrange, List.map_append, List.map_map]
        rcases Nat.eq_zero_or_pos t with rfl | hpos
        · rw [if_pos rfl, if_pos rfl, border_zero]
          rfl
        · rw [if_neg (by omega), if_neg (by omega)]
          rfl
      · rw [hsplit, front_add (by omega), List.map_append, nodes]

section Rows

variable (hsorted : links.Pairwise fun a b => a.1 ≤ b.1) (hmem : ∀ l ∈ links, l.1 ∈ P.IDs)
  (hsize : 0 < P.IDs.length)

include hsorted hmem hsize

/-- **The part behind the exchange**, where the walk is right. -/
theorem buildLinks_eq (hserved : ∀ t < P.threads, P.Served links t) :
    P.buildLinks links = some
      ⟨(List.range (P.IDs.length + 1)).map fun n => (P.front links n).length,
        links.map Prod.snd⟩ := by
  have hthreads : (List.range P.threads).mapM (P.threadRows links)
      = some ((List.range P.threads).map (P.rightRows links)) :=
    Fallible.mapM_eq_some fun t ht =>
      threadRows_eq hsorted hmem (List.mem_range.mp ht) (hserved t (List.mem_range.mp ht)) hsize
  obtain ⟨hboundaries, hdata⟩ := flatMap_rightRows (P := P) links le_rfl
  rw [if_neg (Nat.pos_iff_ne_zero.mp P.threads_pos)] at hboundaries
  rw [buildLinks, hthreads, Option.bind_eq_bind, Option.bind_some, List.flatMap_map,
    List.flatMap_map, hboundaries, hdata, border_threads, front_length hsorted hmem]
  rfl

omit hsize in
lemma row_eq {n : ℕ} (hn : n < P.IDs.length) :
    (⟨(List.range (P.IDs.length + 1)).map fun n => (P.front links n).length,
      links.map Prod.snd⟩ : Links).row n = (P.rowOf links n).map Prod.snd := by
  have hget : ∀ m ≤ P.IDs.length, ((List.range (P.IDs.length + 1)).map fun n =>
      (P.front links n).length).getD m 0 = (P.front links m).length := by
    intro m hm
    rw [List.getD_eq_getElem?_getD, List.getElem?_map, List.getElem?_range (by omega),
      Option.map_some, Option.getD_some]
  have hdrop : links.drop (P.front links n).length
      = P.rowOf links n ++ (P.IDs.drop (n + 1)).flatMap (linksOf links) := by
    obtain ⟨hbound, hdrop⟩ := lowerBound_links hsorted hmem hn
    rw [← hbound, hdrop, drop_IDs hn]
  rw [Links.row, hget n hn.le, hget (n + 1) hn, front_succ hn, window, ← List.map_drop,
    ← List.map_take, List.length_append, Nat.add_sub_cancel_left, hdrop, List.take_left]

/-- **Where the part behind the exchange has a result** that is right about nodes without links,
there is at most one, which is alone in the last thread. -/
theorem row_of_buildLinks {out : Links} (hout : P.buildLinks links = some out)
    (hattached : ∀ n < P.IDs.length, P.rowOf links n ≠ [] ∨ P.Alone n)
    (hright : ∀ n < P.IDs.length, P.rowOf links n = [] → out.row n = []) :
    ∀ n < P.IDs.length, P.rowOf links n ≠ [] ∨ P.border (P.threads - 1) = n := by
  rw [buildLinks, Option.bind_eq_bind, Option.bind_eq_some_iff] at hout
  obtain ⟨threads, hthreads, hout⟩ := hout
  obtain rfl := Option.some.inj hout
  have hmap := Fallible.mapM_eq_some_iff.mp hthreads
  intro n
  induction n using Nat.strong_induction_on with
  | _ n ih =>
      intro hn
      by_contra hnot
      push Not at hnot
      obtain ⟨hempty, hnotlast⟩ := hnot
      obtain ⟨t, ht, hbegin, hend⟩ := (hattached n hn).resolve_left (not_not.mpr hempty)
      have hmore : t + 1 < P.threads := by
        by_contra hge
        exact hnotlast (by rw [← hbegin, show P.threads - 1 = t by omega])
      -- the threads in front are right
      have hserved : ∀ s < t, P.Served links s := by
        intro s hs
        refine Or.inl fun m hm => ?_
        have hmlt := (mem_nodes.mp hm).2
        have hmono := P.distribution.border_mono (show s + 1 ≤ t from hs) ht.le
        have hmono' := P.distribution.border_mono (show t ≤ P.threads - 1 by omega) (Nat.sub_le _ 1)
        have hmn : m < n := hbegin ▸ hmlt.trans_le hmono
        refine (ih m hmn (hmn.trans hn)).resolve_right fun hlast => ?_
        have : P.border t ≤ P.border (P.threads - 1) := hmono'
        omega
      have hpre : threads.take t = (List.range t).map (P.rightRows links) := by
        refine List.map_injective_iff.mpr (Option.some_injective _) ?_
        rw [List.map_take, ← hmap, ← List.map_take, List.take_range, min_eq_left ht.le,
          List.map_map]
        exact List.map_congr_left fun s hs => threadRows_eq hsorted hmem
          ((List.mem_range.mp hs).trans ht) (hserved s (List.mem_range.mp hs)) hsize
      have hlength : threads.length = P.threads := by
        have h := congrArg List.length hmap
        rw [List.length_map, List.length_map, List.length_range] at h
        exact h.symm
      have htlt : t < threads.length := by rwa [hlength]
      have hself : P.threadRows links t = some threads[t] := by
        have h := congrArg (·[t]?) hmap
        simp only [List.getElem?_map, List.getElem?_range ht, Option.map_some,
          List.getElem?_eq_getElem htlt] at h
        exact Option.some.inj h
      have hsplit : threads = (List.range t).map (P.rightRows links)
          ++ threads[t] :: threads.drop (t + 1) := by
        rw [← hpre, ← List.drop_eq_getElem_cons htlt, List.take_append_drop]
      -- the thread takes the links of another node
      obtain ⟨hbound, -⟩ := lowerBound_links hsorted hmem hn
      have hinner : P.innerNodes t = 0 := by rw [innerNodes]; omega
      rw [threadRows, if_neg (by omega), hinner, hbegin] at hself
      simp only [takeGroups, Option.bind_eq_bind, Option.bind_some, Option.bind_eq_some_iff,
        Option.pure_def, Option.some.injEq, List.nil_append, List.flatten_singleton] at hself
      obtain ⟨group, hgroup, hself⟩ := hself
      have hne : group ≠ [] := by
        rintro rfl
        cases hdrop : links.drop (lowerBound (links.map Prod.fst) (P.IDs.getD n 0)) <;>
          · rw [hdrop, lastRow, if_pos hmore] at hgroup
            cases hgroup
      obtain ⟨hboundaries, hdata⟩ := flatMap_rightRows (P := P) links ht.le
      have hbs : ((List.range t).flatMap fun s => (P.rightRows links s).boundaries)
          ++ (if t = 0 then [0] else [])
            = (List.range (n + 1)).map fun m => (P.front links m).length := by
        rw [hboundaries, hbegin]
        split_ifs with hzero
        · rw [hzero, border_zero] at hbegin
          rw [← hbegin]
          rfl
        · rw [List.append_nil]
      have hrow := hright n hn hempty
      rw [hsplit] at hrow
      simp only [List.flatMap_append, List.flatMap_cons, List.flatMap_map, hdata, ← hself] at hrow
      rw [← List.append_assoc, ← List.append_assoc, hbs, hbound, hbegin, positions,
        positions] at hrow
      have hlow : ((List.range (n + 1)).map (fun m => (P.front links m).length)
          ++ [(P.front links n).length + group.length]
          ++ (threads.drop (t + 1)).flatMap Links.boundaries).getD n 0
            = (P.front links n).length := by
        rw [List.getD_eq_getElem?_getD, List.append_assoc, List.getElem?_append_left (by simp),
          List.getElem?_map, List.getElem?_range (Nat.lt_succ_self n)]
        rfl
      have hhigh : ((List.range (n + 1)).map (fun m => (P.front links m).length)
          ++ [(P.front links n).length + group.length]
          ++ (threads.drop (t + 1)).flatMap Links.boundaries).getD (n + 1) 0
            = (P.front links n).length + group.length := by
        rw [List.getD_eq_getElem?_getD, List.append_assoc, List.getElem?_append_right (by simp)]
        simp
      rw [Links.row, hlow, hhigh, window, Nat.add_sub_cancel_left] at hrow
      have hfront : ((P.front links n).map Prod.snd).length = (P.front links n).length :=
        List.length_map _
      have hgroup' : (group.map Prod.snd).length = group.length := List.length_map _
      rw [List.drop_left' hfront, List.take_left' hgroup', List.map_eq_nil_iff] at hrow
      exact hne hrow

end Rows

end Front

end LocalMesh

end Espreso
