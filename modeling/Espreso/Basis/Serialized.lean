import Espreso.Basis.Permute

/-!
# Rows of different sizes

`serializededata` stores rows of values one behind the other, together with the positions where they
begin. A permutation of the rows is applied by all threads, each to a range of the new rows.

* `Serialized` — the rows.
* **`permuteNonUniformData_eq`** — the threads together gather the rows.
* **`ofThreads_ofThread`**, **`fullDistribution_eq`** — both versions of
  `Esutils::threadDistributionToFullDistribution` give the rows of all threads.
-/

namespace Espreso

open Reorder

variable {T : Type}

/-- `serializededata` with rows of different sizes. -/
structure Serialized (T : Type) where
  boundaries : List ℕ
  data : List T

namespace Serialized

def ofRows (rows : List (List T)) : Serialized T := ⟨offsets (rows.map List.length), rows.flatten⟩

variable (s : Serialized T)

/-- `structures`: the number of rows. -/
def structures : ℕ := s.boundaries.length - 1

/-- The row at position `i`. -/
def row (i : ℕ) : List T := window s.data (s.boundaries.getD i 0) (s.boundaries.getD (i + 1) 0)

def rows : List (List T) := (List.range s.structures).map s.row

/-- `pboundaries[t].push_back(...)`: the next end is the size behind the last one. -/
def push (boundaries : List ℕ) (size : ℕ) : List ℕ :=
  boundaries ++ [match boundaries.getLast? with
    | some last => last + size
    | none => size]

/-- The rows that thread `t` takes. -/
def taken (permutation : List ℕ) (border : ℕ → ℕ) (t : ℕ) : List (List T) :=
  (window permutation (border t) (border (t + 1))).map s.row

/-- `pboundaries[t]`. Those of the first thread begin with `0`. -/
def pboundaries (permutation : List ℕ) (border : ℕ → ℕ) (t : ℕ) : List ℕ :=
  ((s.taken permutation border t).map List.length).foldl push (if t = 0 then [0] else [])

def offset (permutation : List ℕ) (border : ℕ → ℕ) (t : ℕ) : ℕ :=
  ((s.pboundaries permutation border t).getLast?).getD 0

/-- **`serializededata::permuteNonUniformData`**, where thread `t` has the new rows from `border t`
to `border (t + 1)`. -/
def permuteNonUniformData (threads : ℕ) (permutation : List ℕ) (border : ℕ → ℕ) : Serialized T where
  boundaries := (List.range threads).flatMap fun t =>
    (s.pboundaries permutation border t).map
      (· + ((List.range t).map (s.offset permutation border)).sum)
  data := (List.range threads).flatMap fun t => (s.taken permutation border t).flatten

/-! ## Rows and their positions -/

lemma offsets_append (sizes sizes' : List ℕ) :
    offsets (sizes ++ sizes') = offsets sizes ++ (offsets sizes').tail.map (· + sizes.sum) := by
  refine List.ext_getElem? fun i => ?_
  rcases Nat.lt_or_ge i (sizes.length + 1) with hi | hi
  · rw [List.getElem?_append_left (by rwa [length_offsets]),
      getElem?_offsets _ (by rw [List.length_append]; omega), getElem?_offsets _ (by omega),
      List.take_append_of_le_length (by omega)]
  · rw [List.getElem?_append_right (by rwa [length_offsets]), length_offsets, List.getElem?_map,
      List.getElem?_tail]
    obtain ⟨j, rfl⟩ := Nat.exists_eq_add_of_le hi
    rw [Nat.add_sub_cancel_left]
    rcases Nat.lt_or_ge j sizes'.length with hj | hj
    · rw [getElem?_offsets _ (by rw [List.length_append]; omega), getElem?_offsets _ hj,
        Option.map_some, show sizes.length + 1 + j = sizes.length + (j + 1) by omega,
        List.take_length_add_append, List.sum_append, Nat.add_comm]
    · rw [List.getElem?_eq_none (by rw [length_offsets, List.length_append]; omega),
        List.getElem?_eq_none (by rw [length_offsets]; omega), Option.map_none]

lemma getD_offsets {sizes : List ℕ} {i : ℕ} (hi : i ≤ sizes.length) :
    (offsets sizes).getD i 0 = (sizes.take i).sum := by
  rw [List.getD_eq_getElem?_getD, getElem?_offsets _ hi, Option.getD_some]

@[simp] lemma structures_ofRows (rows : List (List T)) :
    (ofRows rows).structures = rows.length := by
  rw [structures, ofRows, length_offsets, List.length_map, Nat.add_sub_cancel]

lemma row_ofRows {rows : List (List T)} {i : ℕ} (hi : i < rows.length) :
    (ofRows rows).row i = rows[i] := by
  have hsizes : (rows.map List.length).length = rows.length := List.length_map _
  have hget := getElem?_splitLengths (rows.map List.length) rows.flatten i
  rw [splitLengths_flatten, List.getElem?_eq_getElem hi, List.getElem?_map,
    List.getElem?_eq_getElem hi, Option.map_some, Option.map_some] at hget
  rw [row, ofRows, getD_offsets (by omega), getD_offsets (by omega),
    List.sum_take_succ _ _ (by omega), window, Nat.add_sub_cancel_left, List.getElem_map]
  exact (Option.some.inj hget).symm

@[simp] lemma rows_ofRows (rows : List (List T)) : (ofRows rows).rows = rows := by
  refine List.ext_getElem (by rw [Serialized.rows, List.length_map, List.length_range,
    structures_ofRows]) fun i hi hi' => ?_
  simp only [Serialized.rows, List.getElem_map, List.getElem_range]
  exact row_ofRows hi'

lemma map_row_ofRows {rows : List (List T)} {a b : ℕ} (hb : b ≤ rows.length) :
    (List.range' a (b - a)).map (ofRows rows).row = window rows a b := by
  refine List.ext_getElem ?_ fun k hk hk' => ?_
  · rw [List.length_map, List.length_range', length_window _ hb]
  · have hlt : a + k < rows.length := by
      rw [List.length_map, List.length_range'] at hk
      omega
    rw [List.getElem_map, List.getElem_range', Nat.one_mul, row_ofRows hlt]
    simp only [window, List.getElem_take, List.getElem_drop]

lemma window_blocks {blocks : List (List T)} {d : ℕ} (hd : d < blocks.length) :
    window blocks.flatten ((blocks.map List.length).take d).sum
      ((blocks.map List.length).take (d + 1)).sum = blocks[d] := by
  have hlength : (blocks.map List.length).length = blocks.length := List.length_map _
  have h := row_ofRows hd
  rwa [row, ofRows, getD_offsets (by omega), getD_offsets (by omega)] at h

/-! ## Ends of several threads -/

/-- The ends of a thread, which are positions in its own values; those of the first thread begin
with `0`. -/
def ends (t : ℕ) (sizes : List ℕ) : List ℕ := (offsets sizes).drop (if t = 0 then 0 else 1)

lemma lastOf_ends (t : ℕ) (sizes : List ℕ) : ((ends t sizes).getLast?).getD 0 = sizes.sum := by
  rw [ends]
  rcases sizes with _ | ⟨size, sizes⟩
  · split_ifs <;> rfl
  · have hlen : (if t = 0 then 0 else 1) < (offsets (size :: sizes)).length := by
      rw [length_offsets, List.length_cons]
      split_ifs <;> omega
    rw [List.getLast?_drop, if_neg (by omega), List.getLast?_eq_getElem?, length_offsets,
      Nat.add_sub_cancel, getElem?_offsets _ le_rfl, List.take_length, Option.getD_some]

lemma flatMap_ends (sizes : ℕ → List ℕ) {threads : ℕ} (h : 0 < threads) :
    ((List.range threads).flatMap fun t =>
      (ends t (sizes t)).map (· + ((List.range t).map fun t => (sizes t).sum).sum))
      = offsets ((List.range threads).flatMap sizes) := by
  induction threads with
  | zero => omega
  | succ k ih =>
      have hsum : ((List.range k).map fun t => (sizes t).sum).sum
          = ((List.range k).flatMap sizes).sum := by
        rw [List.flatMap_def, List.sum_flatten, List.map_map]
        rfl
      rw [List.range_succ, List.flatMap_append, List.flatMap_singleton, List.flatMap_append,
        List.flatMap_singleton, hsum, ends]
      rcases Nat.eq_zero_or_pos k with rfl | hk
      · simp
      · rw [ih hk, if_neg hk.ne', List.drop_one, offsets_append]

lemma window_flatten {rows : List (List T)} {k p : ℕ} (hrows : ∀ row ∈ rows, row.length = k)
    (hp : p < rows.length) : window rows.flatten (k * p) (k * (p + 1)) = rows[p] := by
  have hsizes : rows.map List.length = List.replicate rows.length k :=
    List.eq_replicate_iff.mpr ⟨List.length_map _, by simpa using hrows⟩
  have hborder : ∀ i ≤ rows.length, (offsets (rows.map List.length)).getD i 0 = k * i := by
    intro i hi
    rw [getD_offsets (by rwa [List.length_map]), hsizes, List.take_replicate, List.sum_replicate,
      smul_eq_mul, Nat.min_eq_left hi, Nat.mul_comm]
  rw [← row_ofRows hp, row, ofRows, hborder p hp.le, hborder (p + 1) hp]

/-! ## The permuted rows -/

lemma foldl_push (boundaries sizes : List ℕ) (last : ℕ) :
    sizes.foldl push (boundaries ++ [last]) = boundaries ++ sizes.scanl (· + ·) last := by
  induction sizes generalizing boundaries last with
  | nil => rfl
  | cons size sizes ih =>
      have hpush : push (boundaries ++ [last]) size = (boundaries ++ [last]) ++ [last + size] := by
        rw [push, List.getLast?_concat]
      rw [List.foldl_cons, hpush, ih, List.scanl_cons, List.append_assoc, List.singleton_append]

lemma pboundaries_eq (permutation : List ℕ) (border : ℕ → ℕ) (t : ℕ) :
    s.pboundaries permutation border t
      = ends t ((s.taken permutation border t).map List.length) := by
  rw [pboundaries, ends]
  split_ifs with ht
  · exact foldl_push [] _ 0
  · rw [List.drop_one]
    rcases (s.taken permutation border t).map List.length with _ | ⟨size, sizes⟩
    · rfl
    · rw [offsets, List.scanl_cons, List.tail_cons, Nat.zero_add, List.foldl_cons]
      exact foldl_push [] sizes size

/-- **The threads together gather the rows.** -/
theorem permuteNonUniformData_eq {threads n : ℕ} (hthreads : 0 < threads)
    (d : Distribution threads n) {permutation : List ℕ} (hlength : permutation.length = n) :
    s.permuteNonUniformData threads permutation d.border = ofRows (permutation.map s.row) := by
  have hrows : ((List.range threads).flatMap (s.taken permutation d.border))
      = permutation.map s.row := by
    have hall : window permutation 0 (d.border threads) = permutation := by
      rw [d.border_size, ← hlength, window, List.drop_zero, Nat.sub_zero, List.take_length]
    calc (List.range threads).flatMap (s.taken permutation d.border)
        = ((List.range threads).flatMap fun t =>
            window permutation (d.border t) (d.border (t + 1))).map s.row :=
          List.map_flatMap.symm
      _ = permutation.map s.row := by rw [flatMap_window d permutation threads le_rfl, hall]
  have hboundaries := flatMap_ends (fun t => (s.taken permutation d.border t).map List.length)
    hthreads
  rw [← List.map_flatMap, hrows] at hboundaries
  rw [permuteNonUniformData, ofRows, ← hboundaries, ← hrows]
  refine congrArg₂ Serialized.mk (List.flatMap_congr fun t _ => ?_) ?_
  · have hoffset : s.offset permutation d.border
        = fun t => ((s.taken permutation d.border t).map List.length).sum := by
      funext t
      rw [offset, pboundaries_eq, lastOf_ends]
    rw [hoffset, pboundaries_eq]
  · simp only [List.flatten_eq_flatMap, List.flatMap_assoc]

/-! ## Rows of several threads -/

/-- A further row: `tdata.insert(...)` and `tdist.push_back(tdata.size())`. -/
def addRow (s : Serialized T) (row : List T) : Serialized T :=
  ⟨s.boundaries ++ [(s.data ++ row).length], s.data ++ row⟩

/-- What thread `t` stores for its rows. The boundaries of the first thread begin with `0`. -/
def ofThread (t : ℕ) (rows : List (List T)) : Serialized T :=
  rows.foldl addRow ⟨if t = 0 then [0] else [], []⟩

/-- **`Esutils::threadDistributionToFullDistribution`** for the boundaries of the threads. -/
def threadDistributionToFullDistribution (distribution : List (List ℕ)) : List (List ℕ) :=
  distribution.mapIdx fun t d =>
    d.map (· + ((distribution.take t).map fun d => (d.getLast?).getD 0).sum)

/-- `serializededata` from what the threads store. -/
def ofThreads (parts : List (Serialized T)) : Serialized T where
  boundaries := (threadDistributionToFullDistribution (parts.map boundaries)).flatten
  data := (parts.map data).flatten

lemma foldl_addRow (rows : List (List T)) (s : Serialized T) : rows.foldl addRow s
    = ⟨s.boundaries ++ ((rows.map List.length).scanl (· + ·) s.data.length).tail,
      s.data ++ rows.flatten⟩ := by
  induction rows generalizing s with
  | nil => simp
  | cons row rows ih =>
      rw [List.foldl_cons, ih, addRow, List.map_cons, List.scanl_cons, List.tail_cons,
        List.length_append, List.append_assoc, List.append_assoc, List.flatten_cons]
      rcases rows.map List.length with _ | ⟨size, sizes⟩
      · simp
      · simp [List.scanl_cons]

lemma ofThread_eq (t : ℕ) (rows : List (List T)) :
    ofThread t rows = ⟨ends t (rows.map List.length), rows.flatten⟩ := by
  rw [ofThread, foldl_addRow, List.length_nil, List.nil_append, ends, offsets]
  split_ifs
  · rcases rows.map List.length with _ | ⟨size, sizes⟩
    · simp
    · simp [List.scanl_cons]
  · rw [List.nil_append, List.drop_one]

/-- **The rows of all threads**, one behind the other. -/
theorem ofThreads_ofThread {threads : ℕ} (h : 0 < threads) (rows : ℕ → List (List T)) :
    ofThreads ((List.range threads).map fun t => ofThread t (rows t))
      = ofRows ((List.range threads).flatMap rows) := by
  have hboundaries := flatMap_ends (fun t => (rows t).map List.length) h
  rw [← List.map_flatMap] at hboundaries
  rw [ofRows, ← hboundaries, ofThreads]
  refine congrArg₂ Serialized.mk ?_ ?_
  · rw [List.flatMap_def]
    refine congrArg List.flatten (List.ext_getElem ?_ fun t ht ht' => ?_)
    · simp [threadDistributionToFullDistribution]
    · have hlt : t < threads := by simpa using ht'
      have hlast : (fun d : List ℕ => (d.getLast?).getD 0) ∘ boundaries ∘
          (fun t => ofThread t (rows t)) = fun t => ((rows t).map List.length).sum := by
        funext t
        rw [Function.comp_apply, Function.comp_apply, ofThread_eq, lastOf_ends]
      simp only [threadDistributionToFullDistribution, List.map_map, List.getElem_mapIdx,
        List.getElem_map, List.getElem_range, ← List.map_take, List.take_range,
        Nat.min_eq_left hlt.le, hlast]
      rw [Function.comp_apply, ofThread_eq]
  · simp only [List.map_map, List.flatten_eq_flatMap, List.flatMap_assoc, List.flatMap_map,
      Function.comp_apply, ofThread_eq, id_eq]

/-- The last entry of thread `t` in `data`, whose entries behind the first one are distributed. -/
def lastIn (data : List ℕ) (distribution : ℕ → ℕ) (t : ℕ) : ℕ :=
  if distribution t ≠ distribution (t + 1) then data.getD (distribution (t + 1)) 0 else 0

/-- The entries behind `first`, up to `last`, get an offset. -/
def addOffset (data : List ℕ) (first last offset : ℕ) : List ℕ :=
  data.mapIdx fun i x => if first < i ∧ i ≤ last then x + offset else x

/-- **`Esutils::threadDistributionToFullDistribution`** for one vector. -/
def fullDistribution (threads : ℕ) (data : List ℕ) (distribution : ℕ → ℕ) : List ℕ :=
  (List.range threads).foldl (fun full t => addOffset full (distribution t) (distribution (t + 1))
    ((List.range t).map (lastIn data distribution)).sum) data

lemma addOffset_append {front middle rest : List ℕ} {first last : ℕ} (offset : ℕ)
    (hfront : front.length = first + 1) (hmiddle : first + middle.length = last) :
    addOffset (front ++ middle ++ rest) first last offset
      = front ++ middle.map (· + offset) ++ rest := by
  refine List.ext_getElem? fun i => ?_
  rw [addOffset, List.getElem?_mapIdx]
  rcases Nat.lt_or_ge i (front ++ middle).length with hi | hi
  · have hi' : i < (front ++ middle.map (· + offset)).length := by simpa using hi
    rw [List.getElem?_append_left hi, List.getElem?_append_left hi']
    rw [List.length_append] at hi
    rcases Nat.lt_or_ge i front.length with hlt | hge
    · rw [List.getElem?_append_left hlt, List.getElem?_append_left hlt,
        List.getElem?_eq_getElem hlt, Option.map_some, if_neg (by omega)]
    · rw [List.getElem?_append_right hge, List.getElem?_append_right hge, List.getElem?_map,
        List.getElem?_eq_getElem (by omega), Option.map_some, Option.map_some, if_pos (by omega)]
  · have hi' : (front ++ middle.map (· + offset)).length ≤ i := by simpa using hi
    have hlengths : (front ++ middle.map (· + offset)).length = (front ++ middle).length := by simp
    rw [List.getElem?_append_right hi, List.getElem?_append_right hi', hlengths]
    rw [List.length_append] at hi
    rcases hrest : rest[i - (front ++ middle).length]? with _ | x
    · rfl
    · rw [Option.map_some, if_neg (by omega)]

/-- **The full distribution**: the sizes in front of each entry, over all threads. -/
theorem fullDistribution_eq {threads n : ℕ} (d : Distribution threads n) (sizes : ℕ → List ℕ)
    (h : ∀ t < threads, d.border t + (sizes t).length = d.border (t + 1)) :
    fullDistribution threads (0 :: (List.range threads).flatMap fun t => (offsets (sizes t)).tail)
      d.border = offsets ((List.range threads).flatMap sizes) := by
  set data := 0 :: (List.range threads).flatMap fun t => (offsets (sizes t)).tail with hdata
  have hlength : ∀ k ≤ threads, ((List.range k).flatMap sizes).length = d.border k := by
    intro k hk
    induction k with
    | zero => rw [d.border_zero]; rfl
    | succ k ih =>
        rw [List.range_succ, List.flatMap_append, List.flatMap_singleton, List.length_append,
          ih (by omega), h k hk]
  have hraw : ∀ k ≤ threads,
      (0 :: (List.range k).flatMap fun t => (offsets (sizes t)).tail).length = d.border k + 1 := by
    intro k hk
    rw [List.length_cons, ← hlength k hk, List.length_flatMap, List.length_flatMap]
    simp
  have hlast : ∀ k < threads, lastIn data d.border k = (sizes k).sum := by
    intro k hk
    rw [lastIn]
    split_ifs with hne
    · have hpos : 0 < (sizes k).length := by
        have := h k hk
        omega
      have hk' := hraw k hk.le
      rw [hdata, range_eq_append hk, List.flatMap_append, List.flatMap_cons, ← List.cons_append,
        List.getD_eq_getElem?_getD, List.getElem?_append_right (by have := h k hk; omega), hk',
        List.getElem?_append_left (by rw [List.length_tail, length_offsets]; have := h k hk; omega),
        List.getElem?_tail, ← h k hk,
        show d.border k + (sizes k).length - (d.border k + 1) + 1 = (sizes k).length by omega,
        getElem?_offsets _ le_rfl, List.take_length, Option.getD_some]
    · have hnil : sizes k = [] := List.length_eq_zero_iff.mp (by have := h k hk; omega)
      rw [hnil, List.sum_nil]
  -- the threads so far are full, the others are still raw
  have hfold : ∀ k ≤ threads, (List.range k).foldl (fun full t => addOffset full (d.border t)
      (d.border (t + 1)) ((List.range t).map (lastIn data d.border)).sum) data
      = offsets ((List.range k).flatMap sizes)
        ++ (List.range' k (threads - k)).flatMap fun t => (offsets (sizes t)).tail := by
    intro k hk
    induction k with
    | zero => simp [hdata, List.range_eq_range', offsets]
    | succ k ih =>
        have hsum : ((List.range k).map (lastIn data d.border)).sum
            = ((List.range k).flatMap sizes).sum := by
          rw [List.flatMap_def, List.sum_flatten, List.map_map]
          refine congrArg List.sum (List.map_congr_left fun t ht => ?_)
          exact hlast t ((List.mem_range.mp ht).trans hk)
        rw [List.range_succ, List.foldl_append, ih (by omega), List.foldl_cons, List.foldl_nil,
          hsum, show threads - k = threads - (k + 1) + 1 by omega, List.range'_succ, List.flatMap_cons,
          ← List.append_assoc, addOffset_append, List.flatMap_append, List.flatMap_singleton,
          offsets_append]
        · rw [length_offsets, hlength k (by omega)]
        · rw [List.length_tail, length_offsets, Nat.add_sub_cancel, h k hk]
  rw [fullDistribution, hfold threads le_rfl, Nat.sub_self]
  exact List.append_nil _

end Serialized

/-- **`serializededata::permuteUniformData`** for rows with `edatasize` entries. -/
def permuteUniformData (edatasize threads : ℕ) (permutation : List ℕ) (border : ℕ → ℕ)
    (data : List T) : List T :=
  (List.range threads).flatMap fun t =>
    (window permutation (border t) (border (t + 1))).flatMap fun p =>
      window data (edatasize * p) (edatasize * (p + 1))

lemma permuteUniformData_eq {threads n : ℕ} (d : Distribution threads n) {permutation : List ℕ}
    {data : List T} (hlength : permutation.length = n) (h : Within permutation data.length) :
    permuteUniformData 1 threads permutation d.border data = gather permutation data := by
  have hall : window permutation 0 (d.border threads) = permutation := by
    rw [d.border_size, ← hlength, window, List.drop_zero, Nat.sub_zero, List.take_length]
  rw [permuteUniformData, ← List.flatMap_assoc, flatMap_window d permutation threads le_rfl, hall,
    gather]
  clear hall hlength
  induction permutation with
  | nil => rfl
  | cons p permutation ih =>
      have hp := h p List.mem_cons_self
      rw [List.flatMap_cons, List.filterMap_cons, List.getElem?_eq_getElem hp,
        ih fun q hq => h q (List.mem_cons_of_mem p hq), Nat.one_mul, Nat.one_mul, window,
        Nat.add_sub_cancel_left, List.drop_eq_getElem_cons hp, List.take_succ_cons, List.take_zero]
      rfl

lemma permuteUniformData_rows {threads n k : ℕ} (d : Distribution threads n) {permutation : List ℕ}
    {rows : List (List T)} (hlength : permutation.length = n) (h : Within permutation rows.length)
    (hrows : ∀ row ∈ rows, row.length = k) :
    permuteUniformData k threads permutation d.border rows.flatten
      = (gather permutation rows).flatten := by
  have hall : window permutation 0 (d.border threads) = permutation := by
    rw [d.border_size, ← hlength, window, List.drop_zero, Nat.sub_zero, List.take_length]
  rw [permuteUniformData, ← List.flatMap_assoc, flatMap_window d permutation threads le_rfl, hall]
  clear hall hlength
  induction permutation with
  | nil => rfl
  | cons p permutation ih =>
      have hp := h p List.mem_cons_self
      rw [List.flatMap_cons, gather_cons hp, List.flatten_cons, Serialized.window_flatten hrows hp,
        ih fun q hq => h q (List.mem_cons_of_mem p hq)]

end Espreso
