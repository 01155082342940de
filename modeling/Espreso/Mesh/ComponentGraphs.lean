import Espreso.Basis.Permute
import Espreso.Lib.Components

/-!
# The graphs of components

A dual graph that is not continuous is decomposed component by component.
`MeshPreprocessing::partitiate` numbers the components of the elements, and makes a graph of its own
for each component.

* `DualGraph` — the dual graph of the elements of a rank, in compressed rows.
* **`DualGraph.componentGraphs_induced`** — they are these subgraphs.
-/

namespace Espreso

/-- The dual graph of the elements of a rank: the neighbours of element `e` are the entries of
`dualData` between `dualDist[e]` and `dualDist[e + 1]`. -/
structure DualGraph where
  size : ℕ
  dualData : List ℕ
  dualDist : Distribution size dualData.length
  within : ∀ f ∈ dualData, f < size
  symmetric : ∀ e f, f ∈ window dualData (dualDist.border e) (dualDist.border (e + 1)) →
    e ∈ window dualData (dualDist.border f) (dualDist.border (f + 1))

/-- A graph in compressed rows. -/
structure Graph where
  frames : List ℕ
  neighbors : List ℕ

namespace DualGraph

variable (G : DualGraph)

def row (e : ℕ) : List ℕ := window G.dualData (G.dualDist.border e) (G.dualDist.border (e + 1))

def degree (e : ℕ) : ℕ := G.dualDist.border (e + 1) - G.dualDist.border e

def partID : List (Option ℕ) := (Components.number G.row G.size).1

def nextID : ℕ := (Components.number G.row G.size).2

/-! ## The arrays of components -/

section Arrays

variable {threads : ℕ} (D : Distribution threads G.size)

/-- `tdecomposition`: the elements of component `p` of a thread. -/
def tdecomposition (t p : ℕ) : List ℕ :=
  (List.range' (D.border t) (D.border (t + 1) - D.border t)).filter fun e =>
    G.partID[e]? = some (some p)

/-- `tdualsize`: the number of neighbours of these elements. -/
def tdualsize (t p : ℕ) : ℕ := ((G.tdecomposition D t p).map G.degree).sum

/-- `foffsets`: the number of elements of component `p` of the threads in front of thread `t`. -/
def foffsets (p t : ℕ) : ℕ := ((List.range t).map fun s => (G.tdecomposition D s p).length).sum

/-- `noffsets`: the number of neighbours of these elements. -/
def noffsets (p t : ℕ) : ℕ := ((List.range t).map fun s => G.tdualsize D s p).sum

/-- The elements of component `p` of all threads: they are inserted into `tdecomposition[0][p]`. -/
def decomposition (p : ℕ) : List ℕ :=
  (List.range threads).flatMap fun t => G.tdecomposition D t p

/-- Values are written to consecutive positions; a write behind the end is `none`. -/
def writeAll (l : List ℕ) : ℕ → List ℕ → Option (List ℕ)
  | _, [] => some l
  | i, x :: xs => if i < l.length then writeAll (l.set i x) (i + 1) xs else none

/-- The arrays of all components, with the position of the last frame of each that a thread wrote.
-/
structure Writing where
  graphs : ℕ → Graph
  foffset : ℕ → ℕ

/-- The position of the neighbours of element `e`: the first element of a thread takes it from
`noffsets`, others take it from the frame before. -/
def position (t : ℕ) (s : Writing) (partindex e : ℕ) : Option ℕ :=
  if D.border t < e then (s.graphs partindex).frames[s.foffset partindex]?
  else some (G.noffsets D partindex t)

def writeElement (t : ℕ) (s : Writing) (e : ℕ) : Option Writing := do
  let partindex ← G.partID[e]?.join
  let foffset := s.foffset partindex + 1
  let position ← G.position D t s partindex e
  let frame := G.degree e + position
  let frames ← writeAll (s.graphs partindex).frames foffset [frame]
  let neighbors ← writeAll (s.graphs partindex).neighbors (frame - G.degree e)
    ((G.row e).map (lowerBound (G.decomposition D partindex)))
  pure ⟨Function.update s.graphs partindex ⟨frames, neighbors⟩,
    Function.update s.foffset partindex foffset⟩

def writeThread (graphs : ℕ → Graph) (t : ℕ) : Option (ℕ → Graph) := do
  let s ← (List.range' (D.border t) (D.border (t + 1) - D.border t)).foldlM
    (G.writeElement D t) ⟨graphs, fun p => G.foffsets D p t⟩
  pure s.graphs

/-- The arrays of component `p` before the loops. -/
def emptyGraph (p : ℕ) : Graph where
  frames := List.replicate (1 + (G.decomposition D p).length) 0
  neighbors := List.replicate (G.noffsets D p threads) 0

/-- **The graphs of the components** in `MeshPreprocessing::partitiate`: `frames[p]` and
`neighbors[p]`. -/
def componentGraphs : Option (ℕ → Graph) :=
  (List.range threads).foldlM (G.writeThread D) (G.emptyGraph D)

end Arrays

/-- The elements of component `p`, in ascending order. -/
def members (p : ℕ) : List ℕ := (List.range G.size).filter fun e => G.partID[e]? = some (some p)

/-- **The subgraph of some elements** in compressed rows: row `i` lists the neighbours of the
element at position `i` that are among the elements, by their positions. -/
structure Induced (elements : List ℕ) (g : Graph) : Prop where
  length_eq : g.frames.length = elements.length + 1
  first : g.frames[0]? = some 0
  sorted : g.frames.Pairwise (· ≤ ·)
  last : g.frames[elements.length]? = some g.neighbors.length
  row : ∀ i e, elements[i]? = some e → ∃ a b, g.frames[i]? = some a ∧ g.frames[i + 1]? = some b ∧
    (window g.neighbors a b).map (elements[·]?) = ((G.row e).filter (· ∈ elements)).map some

/-! ## Components -/

section Components

variable {G}

lemma length_row {e : ℕ} (he : e < G.size) : (G.row e).length = G.degree e :=
  length_window _ (G.dualDist.border_le_total he)

lemma mem_row_lt {e f : ℕ} (h : f ∈ G.row e) : f < G.size :=
  G.within f (List.mem_of_mem_drop (List.mem_of_mem_take h))

variable (G) in
/-- **The elements are numbered by components.** -/
theorem numbered_partID : Components.Numbered G.row G.size G.partID G.nextID :=
  Components.numbered_number G.symmetric fun _ _ h => mem_row_lt h

lemma mem_members {p e : ℕ} : e ∈ G.members p ↔ G.partID[e]? = some (some p) := by
  rw [members, List.mem_filter, List.mem_range, decide_eq_true_eq]
  refine and_iff_right_of_imp fun h => ?_
  have hlt := (List.getElem?_eq_some_iff.mp h).1
  rwa [G.numbered_partID.length_eq] at hlt

lemma mem_members_of_row {p e f : ℕ} (he : e ∈ G.members p) (hf : f ∈ G.row e) :
    f ∈ G.members p := by
  have hlt : e < G.size := mem_row_lt (G.symmetric e f hf)
  have heq := (G.numbered_partID.eq_iff e hlt f (mem_row_lt hf)).mpr
    (Relation.ReflTransGen.single hf)
  rw [mem_members] at he ⊢
  rw [← heq, he]

lemma members_ascending (p : ℕ) : (G.members p).Pairwise (· < ·) := List.pairwise_lt_range.filter _

end Components

/-! ## The loops -/

section Loops

lemma writeAll_append (pre xs : List ℕ) {k : ℕ} (hk : xs.length ≤ k) :
    writeAll (pre ++ List.replicate k 0) pre.length xs
      = some (pre ++ xs ++ List.replicate (k - xs.length) 0) := by
  induction xs generalizing pre k with
  | nil => rw [writeAll, List.append_nil, List.length_nil, Nat.sub_zero]
  | cons x xs ih =>
      rw [List.length_cons] at hk
      obtain ⟨k, rfl⟩ := Nat.exists_eq_add_of_lt (Nat.lt_of_lt_of_le (Nat.succ_pos _) hk)
      have hset : (pre ++ List.replicate (0 + k + 1) 0).set pre.length x
          = (pre ++ [x]) ++ List.replicate k 0 := by
        rw [Nat.zero_add, List.replicate_succ, List.set_append_right _ _ le_rfl, Nat.sub_self,
          List.set_cons_zero, List.append_assoc, List.singleton_append]
      have hnext := ih (pre ++ [x]) (k := k) (by omega)
      rw [List.length_append, List.length_singleton] at hnext
      rw [writeAll, if_pos (by simp), hset, hnext, List.length_cons, List.append_assoc pre [x],
        List.singleton_append, show 0 + k + 1 - (xs.length + 1) = k - xs.length by omega]

variable {threads : ℕ} (D : Distribution threads G.size)

/-- The elements of component `p` below `k`. -/
def below (p k : ℕ) : List ℕ := (List.range k).filter fun e => G.partID[e]? = some (some p)

def degrees (p k : ℕ) : ℕ := ((G.below p k).map G.degree).sum

def rows (p k : ℕ) : List ℕ :=
  (G.below p k).flatMap fun e => (G.row e).map (lowerBound (G.members p))

/-- The arrays of component `p` when the elements below `k` are written. -/
def written (k p : ℕ) : Graph where
  frames := offsets ((G.below p k).map G.degree) ++
    List.replicate ((G.members p).length - (G.below p k).length) 0
  neighbors := G.rows p k ++ List.replicate (G.degrees p G.size - G.degrees p k) 0

variable {G}

lemma below_succ {p k : ℕ} :
    G.below p (k + 1) = G.below p k ++ if G.partID[k]? = some (some p) then [k] else [] := by
  rw [below, List.range_succ, List.filter_append, ← below]
  by_cases h : G.partID[k]? = some (some p)
  · rw [if_pos h, List.filter_cons_of_pos (by simpa using h), List.filter_nil]
  · rw [if_neg h, List.filter_cons_of_neg (by simpa using h), List.filter_nil]

lemma below_append (p : ℕ) {a b : ℕ} (h : a ≤ b) :
    G.below p b = G.below p a ++
      (List.range' a (b - a)).filter fun e => G.partID[e]? = some (some p) := by
  have hsplit : List.range b = List.range a ++ List.range' a (b - a) := by
    have happend := List.range'_append_1 (s := 0) (m := a) (n := b - a)
    rw [Nat.zero_add, Nat.add_sub_cancel' h] at happend
    rw [List.range_eq_range', List.range_eq_range', happend]
  rw [below, hsplit, List.filter_append, below]

lemma below_initial (p : ℕ) {k : ℕ} (h : k ≤ G.size) : G.below p k <+: G.members p :=
  ⟨_, (below_append p h).symm⟩

lemma below_eq (p : ℕ) {t : ℕ} (ht : t ≤ threads) :
    G.below p (D.border t) = (List.range t).flatMap fun s => G.tdecomposition D s p := by
  induction t with
  | zero => rw [D.border_zero]; rfl
  | succ t ih =>
      rw [List.range_succ, List.flatMap_append, ← ih (Nat.le_of_succ_le ht), List.flatMap_singleton]
      exact below_append p (D.border_mono (Nat.le_succ t) ht)

lemma decomposition_eq (p : ℕ) : G.decomposition D p = G.members p := by
  rw [decomposition, ← below_eq D p le_rfl, D.border_size]
  rfl

lemma foffsets_eq (p : ℕ) {t : ℕ} (ht : t ≤ threads) :
    G.foffsets D p t = (G.below p (D.border t)).length := by
  rw [below_eq D p ht, List.length_flatMap]
  rfl

lemma noffsets_eq (p : ℕ) {t : ℕ} (ht : t ≤ threads) :
    G.noffsets D p t = G.degrees p (D.border t) := by
  rw [degrees, below_eq D p ht, List.map_flatMap, List.flatMap_def, List.sum_flatten,
    List.map_map]
  rfl

lemma degrees_mono (p : ℕ) {a b : ℕ} (h : a ≤ b) : G.degrees p a ≤ G.degrees p b := by
  rw [degrees, degrees, below_append p h, List.map_append, List.sum_append]
  exact Nat.le_add_right _ _

lemma length_rows (p : ℕ) {k : ℕ} (hk : k ≤ G.size) : (G.rows p k).length = G.degrees p k := by
  rw [rows, List.length_flatMap, degrees]
  refine congrArg _ (List.map_congr_left fun e he => ?_)
  have hlt := List.mem_range.mp (List.mem_filter.mp he).1
  rw [List.length_map, length_row (by omega)]

lemma written_succ_of_ne {p k : ℕ} (h : G.partID[k]? ≠ some (some p)) :
    G.written (k + 1) p = G.written k p ∧ G.below p (k + 1) = G.below p k := by
  have hbelow : G.below p (k + 1) = G.below p k := by
    rw [below_succ, if_neg h, List.append_nil]
  refine ⟨?_, hbelow⟩
  rw [written, written, degrees, rows, degrees, rows, hbelow]
  rfl

lemma writeElement_written {t k : ℕ} (ht : t < threads) (hlow : D.border t ≤ k)
    (hhigh : k < D.border (t + 1)) :
    G.writeElement D t ⟨G.written k, fun p => (G.below p k).length⟩ k
      = some ⟨G.written (k + 1), fun p => (G.below p (k + 1)).length⟩ := by
  have hk : k < G.size := hhigh.trans_le (D.border_le_total ht)
  obtain ⟨p, -, hp⟩ := G.numbered_partID.total k hk
  have hbelow : G.below p (k + 1) = G.below p k ++ [k] := by rw [below_succ, if_pos hp]
  have hprefix := (below_initial p hk).length_le
  rw [hbelow, List.length_append, List.length_singleton] at hprefix
  have hdegrees : G.degrees p (k + 1) = G.degrees p k + G.degree k := by
    rw [degrees, hbelow, List.map_append, List.sum_append, ← degrees]
    simp
  have hroom : G.degrees p (k + 1) ≤ G.degrees p G.size := degrees_mono p hk
  have hposition : G.position D t ⟨G.written k, fun p => (G.below p k).length⟩ p k
      = some (G.degrees p k) := by
    rw [position]
    split_ifs with hfirst
    · have hentry := getElem?_offsets ((G.below p k).map G.degree) (i := (G.below p k).length)
        (by rw [List.length_map])
      dsimp only [written]
      rw [List.getElem?_append_left (by simp), hentry, List.take_of_length_le (by simp), degrees]
    · obtain rfl : D.border t = k := by omega
      rw [noffsets_eq D p ht.le]
  have hframes : writeAll (G.written k p).frames ((G.below p k).length + 1)
      [G.degree k + G.degrees p k] = some (G.written (k + 1) p).frames := by
    have hwrite := writeAll_append (offsets ((G.below p k).map G.degree))
      [G.degree k + G.degrees p k] (k := (G.members p).length - (G.below p k).length)
      (by rw [List.length_singleton]; omega)
    rw [length_offsets, List.length_map] at hwrite
    rw [written, written]
    dsimp only
    rw [hwrite, hbelow, List.map_append, List.map_singleton, offsets_concat, List.length_append,
      List.length_singleton, Nat.sub_sub, Nat.add_comm (G.degree k), degrees, List.length_singleton]
  have hneighbors : writeAll (G.written k p).neighbors
      (G.degree k + G.degrees p k - G.degree k) ((G.row k).map (lowerBound (G.decomposition D p)))
        = some (G.written (k + 1) p).neighbors := by
    have hlength : ((G.row k).map (lowerBound (G.members p))).length = G.degree k := by
      rw [List.length_map, length_row hk]
    have hwrite := writeAll_append (G.rows p k) ((G.row k).map (lowerBound (G.members p)))
      (k := G.degrees p G.size - G.degrees p k) (by omega)
    rw [length_rows p hk.le, hlength] at hwrite
    rw [Nat.add_sub_cancel_left, decomposition_eq, written, written]
    dsimp only
    rw [hwrite, rows, rows, hbelow, List.flatMap_append, List.flatMap_singleton, hdegrees,
      Nat.sub_sub]
  rw [writeElement, hp]
  simp only [Option.join_some, Option.bind_eq_bind, Option.bind_some, Option.pure_def]
  rw [hposition, Option.bind_some, hframes, Option.bind_some, hneighbors, Option.bind_some]
  refine congrArg some (congrArg₂ Writing.mk (funext fun q => ?_) (funext fun q => ?_))
  · by_cases hq : q = p
    · subst hq
      rw [Function.update_self]
    · rw [Function.update_of_ne hq]
      exact (written_succ_of_ne fun h => hq (by rw [hp] at h; simpa using h.symm)).1.symm
  · by_cases hq : q = p
    · subst hq
      rw [Function.update_self, hbelow, List.length_append, List.length_singleton]
    · rw [Function.update_of_ne hq]
      rw [(written_succ_of_ne fun h => hq (by rw [hp] at h; simpa using h.symm)).2]

lemma writeElements_written {t : ℕ} (ht : t < threads) {k : ℕ} (hlow : D.border t ≤ k)
    (n : ℕ) (hn : k + n = D.border (t + 1)) :
    (List.range' k n).foldlM (G.writeElement D t)
        ⟨G.written k, fun p => (G.below p k).length⟩
      = some ⟨G.written (D.border (t + 1)), fun p => (G.below p (D.border (t + 1))).length⟩ := by
  induction n generalizing k with
  | zero =>
      obtain rfl : k = D.border (t + 1) := hn
      rfl
  | succ n ih =>
      rw [List.range'_succ, List.foldlM_cons, writeElement_written D ht hlow (by omega)]
      exact ih (Nat.le_succ_of_le hlow) (by omega)

lemma writeThread_written {t : ℕ} (ht : t < threads) :
    G.writeThread D (G.written (D.border t)) t = some (G.written (D.border (t + 1))) := by
  have hmono := D.border_mono (Nat.le_add_right t 1) ht
  have hoffsets : (fun p => G.foffsets D p t) = fun p => (G.below p (D.border t)).length :=
    funext fun p => foffsets_eq D p ht.le
  rw [writeThread, hoffsets, writeElements_written D ht le_rfl _ (Nat.add_sub_cancel' hmono)]
  rfl

lemma emptyGraph_eq : G.emptyGraph D = G.written 0 := by
  refine funext fun p => ?_
  rw [emptyGraph, written, decomposition_eq, noffsets_eq D p le_rfl, D.border_size, Nat.add_comm]
  rfl

/-- **All elements are written.** -/
theorem componentGraphs_eq : G.componentGraphs D = some (G.written G.size) := by
  have hloop : ∀ t ≤ threads,
      (List.range t).foldlM (G.writeThread D) (G.written 0) = some (G.written (D.border t)) := by
    intro t ht
    induction t with
    | zero => rw [D.border_zero]; rfl
    | succ t ih =>
        rw [List.range_succ, List.foldlM_append, ih (Nat.le_of_succ_le ht), Option.bind_eq_bind,
          Option.bind_some, List.foldlM_cons, writeThread_written D ht]
        rfl
  rw [componentGraphs, emptyGraph_eq, hloop threads le_rfl, D.border_size]

end Loops

/-! ## The graphs of components -/

section Main

variable {G}

lemma written_size (p : ℕ) :
    G.written G.size p = ⟨offsets ((G.members p).map G.degree), G.rows p G.size⟩ := by
  have hbelow : G.below p G.size = G.members p := rfl
  rw [written, hbelow, Nat.sub_self, Nat.sub_self, List.replicate_zero, List.append_nil,
    List.append_nil]

lemma window_flatMap {f : ℕ → List ℕ} {size : ℕ → ℕ} {l : List ℕ}
    (hsize : ∀ e ∈ l, (f e).length = size e) {i e : ℕ} (hi : l[i]? = some e) :
    window (l.flatMap f) ((l.map size).take i).sum ((l.map size).take (i + 1)).sum = f e := by
  have hsizes : l.map size = (l.map f).map List.length := by
    rw [List.map_map]
    exact List.map_congr_left fun e he => (hsize e he).symm
  have hlt : i < ((l.map f).map List.length).length := by
    rw [List.length_map, List.length_map]
    exact (List.getElem?_eq_some_iff.mp hi).1
  have hentry := getElem?_splitLengths ((l.map f).map List.length) (l.map f).flatten i
  rw [splitLengths_flatten, List.getElem?_map, hi, List.getElem?_eq_getElem hlt, Option.map_some,
    Option.map_some] at hentry
  rw [window, hsizes, List.sum_take_succ _ i hlt, Nat.add_sub_cancel_left, List.flatMap_def]
  exact (Option.some.inj hentry).symm

lemma induced_written (p : ℕ) : G.Induced (G.members p) (G.written G.size p) := by
  have hlength : ∀ e ∈ G.members p,
      ((G.row e).map (lowerBound (G.members p))).length = G.degree e := by
    intro e he
    rw [List.length_map, length_row (List.mem_range.mp (List.mem_filter.mp he).1)]
  rw [written_size]
  refine ⟨?_, ?_, offsets_sorted _, ?_, fun i e hi => ?_⟩
  · rw [length_offsets, List.length_map]
  · rw [getElem?_offsets _ (Nat.zero_le _), List.take_zero, List.sum_nil]
  · rw [getElem?_offsets _ (by rw [List.length_map]), length_rows p le_rfl,
      List.take_of_length_le (by rw [List.length_map])]
    rfl
  · have hlt := (List.getElem?_eq_some_iff.mp hi).1
    have he := List.mem_of_getElem? hi
    refine ⟨_, _, getElem?_offsets _ (by rw [List.length_map]; omega),
      getElem?_offsets _ (by rw [List.length_map]; omega), ?_⟩
    have hrow : (G.row e).filter (· ∈ G.members p) = G.row e :=
      List.filter_eq_self.mpr fun f hf => decide_eq_true (mem_members_of_row he hf)
    have hbelow : G.below p G.size = G.members p := rfl
    rw [rows, hbelow, window_flatMap hlength hi, hrow, List.map_map]
    refine List.map_congr_left fun f hf => ?_
    exact (lowerBound_mem (members_ascending p)).mpr (mem_members_of_row he hf)

variable (G)

/-- **`MeshPreprocessing::partitiate` builds the graphs of the components**: elements have the same
`partID` if they are connected, each number below `nextID` is the one of a component, and the arrays
of each component are the subgraph of its elements in ascending order. -/
theorem componentGraphs_induced {threads : ℕ} (D : Distribution threads G.size) :
    Components.Numbered G.row G.size G.partID G.nextID ∧
      ∃ graphs, G.componentGraphs D = some graphs ∧
        ∀ p < G.nextID, (G.members p).Pairwise (· < ·) ∧ G.Induced (G.members p) (graphs p) :=
  ⟨G.numbered_partID, _, componentGraphs_eq D, fun p _ => ⟨members_ascending p, induced_written p⟩⟩

end Main

end DualGraph

end Espreso
