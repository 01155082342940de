import Espreso.Basis.Distribution
import Espreso.Basis.Merge
import Espreso.Basis.Permute

/-!
# Merging in place

The functions of `Esutils` that merge the chunks of one vector. The borders of the chunks are padded
up to a power of two, and a round merges the chunks between every second border.

* `Esutils.inplaceMerge`, `Esutils.sortWithInplaceMerge`, `Esutils.sortWithUniqueMerge`,
  `Esutils.mergeAppendedData` — the functions of the source. They have no result if they read behind
  the end of the borders or of the data.
* **`Esutils.inplaceMerge_sorts`**, **`Esutils.mergeAppendedData_sorts`** — the data are sorted.
-/

namespace Espreso

namespace Esutils

variable {α : Type} [LinearOrder α]

/-! ## The functions -/

/-- `operator<=` -/
def lessEqual (a b : α) : Bool := a ≤ b

/-- `std::inplace_merge` of the ranges from `first` to `middle` and from `middle` to `last`. -/
def inplaceMergeRange (data : List α) (first middle last : ℕ) : Option (List α) :=
  if first ≤ middle ∧ middle ≤ last ∧ last ≤ data.length then
    some (data.take first ++ (window data first middle).merge (window data middle last) lessEqual
      ++ data.drop last)
  else none

/-- `while (align < size) align = align << 1;`, for at most `fuel` steps. -/
def alignLoop (size : ℕ) : ℕ → ℕ → ℕ
  | 0, align => align
  | fuel + 1, align => if align < size then alignLoop size fuel (align <<< 1) else align

/-- `align`: a power of two that is at least `size`. -/
def align (size : ℕ) : ℕ := alignLoop size size 1

/-- Pair `t` of chunks of a round is merged. The pairs have disjoint ranges. -/
def mergePair (distribution : List ℕ) (i : ℕ) (data : List α) (t : ℕ) : Option (List α) := do
  let first ← distribution[i * t]?
  let middle ← distribution[i * t + i / 2]?
  let last ← distribution[i * t + i]?
  inplaceMergeRange data first middle last

/-- `for (size_t i = ...; i <= align; i *= 2)`: the rounds, at most `fuel` of them. -/
def mergeLoop (distribution : List ℕ) (align : ℕ) : ℕ → ℕ → List α → Option (List α)
  | 0, _, data => some data
  | fuel + 1, i, data =>
    if i ≤ align then
      ((List.range (align / i)).foldlM (mergePair distribution i) data).bind
        (mergeLoop distribution align fuel (i * 2))
    else some data

/-- **`Esutils::inplaceMerge`** -/
def inplaceMerge (data : List α) (distribution : List ℕ) : Option (List α) :=
  let size := distribution.length - 1
  let align := align distribution.length
  let padded := distribution ++ List.replicate (align - size) (distribution.getLastD 0)
  mergeLoop padded align align 2 data

/-- **`Esutils::sortWithInplaceMerge`** -/
def sortWithInplaceMerge (data : List α) (distribution : List ℕ) : Option (List α) :=
  let size := distribution.length - 1
  let sorted := (List.range size).flatMap fun t =>
    (window data (distribution.getD t 0) (distribution.getD (t + 1) 0)).mergeSort lessEqual
  inplaceMerge sorted distribution

/-- `Esutils::sortAndRemoveDuplicity` -/
def sortAndRemoveDuplicity (data : List α) : List α := (data.mergeSort lessEqual).destutter (· ≠ ·)

/-- **`Esutils::sortWithUniqueMerge`**, where the first vector is read in any case. -/
def sortWithUniqueMerge : List (List α) → Option (List α)
  | [] => none
  | first :: rest =>
    let data := (first :: rest).map sortAndRemoveDuplicity
    (inplaceMerge data.flatten (offsets (data.map List.length))).map sortAndRemoveDuplicity

/-- **`Esutils::mergeAppendedData`** -/
def mergeAppendedData (data : List α) (distribution : List ℕ) : Option (List α) := do
  let appended := distribution.tail
  let align := align appended.length
  let padded := appended
    ++ List.replicate (align + 2 - distribution.length) (appended.getLastD 0)
  let data ← mergeLoop padded align align 2 data
  let middle ← padded.head?
  let last ← padded.getLast?
  inplaceMergeRange data 0 middle last

lemma alignLoop_eq {size fuel k : ℕ} (h : Nat.clog 2 size ≤ k + fuel) :
    alignLoop size fuel (2 ^ k) = 2 ^ max k (Nat.clog 2 size) := by
  induction fuel generalizing k with
  | zero => rw [alignLoop, max_eq_left (by simpa using h)]
  | succ fuel ih =>
      rw [alignLoop]
      split_ifs with hlt
      · have hk : k < Nat.clog 2 size := (Nat.lt_clog_iff_pow_lt Nat.one_lt_two).mpr hlt
        rw [Nat.shiftLeft_eq, pow_one, ← pow_succ, ih (by omega), max_eq_right hk,
          max_eq_right hk.le]
      · have hk : Nat.clog 2 size ≤ k :=
          (Nat.clog_le_iff_le_pow Nat.one_lt_two).mpr (not_lt.mp hlt)
        rw [max_eq_left hk]

lemma align_eq (size : ℕ) : align size = 2 ^ Nat.clog 2 size := by
  have hfuel : Nat.clog 2 size ≤ 0 + size := by
    rw [Nat.zero_add]
    exact Nat.clog_le_of_le_pow Nat.lt_two_pow_self.le
  have h := alignLoop_eq hfuel
  rwa [pow_zero, max_eq_right (Nat.zero_le _)] at h

/-! ## A round -/

section Rounds

variable {distribution : List ℕ}

lemma inplaceMergeRange_eq (pre first second rest : List α) :
    inplaceMergeRange (pre ++ first ++ second ++ rest) pre.length (pre.length + first.length)
        (pre.length + first.length + second.length)
      = some (pre ++ first.merge second lessEqual ++ rest) := by
  have hfirst : window (pre ++ first ++ second ++ rest) pre.length (pre.length + first.length)
      = first := by
    rw [window, List.append_assoc, List.append_assoc, List.drop_left, Nat.add_sub_cancel_left,
      List.take_left]
  have hsecond : window (pre ++ first ++ second ++ rest) (pre.length + first.length)
      (pre.length + first.length + second.length) = second := by
    rw [window, ← List.length_append, List.append_assoc, List.drop_left, Nat.add_sub_cancel_left,
      List.take_left]
  rw [inplaceMergeRange, if_pos ⟨by omega, by omega, by simp; omega⟩, hfirst, hsecond]
  refine congrArg some (congrArg₂ (· ++ ·) (congrArg₂ (· ++ ·) ?_ rfl) ?_)
  · rw [List.append_assoc, List.append_assoc, List.take_left]
  · rw [← List.length_append, ← List.length_append, List.drop_left]

/-- **A round**, from pair `s` on: the lists between the borders are merged with their
neighbours. -/
lemma foldlM_mergePair {h m s : ℕ} {pre post : List α} {parts : List (List α)}
    (hparts : parts.length = 2 * m) (hdistribution : ∀ j ≤ 2 * m, distribution[h * (2 * s + j)]?
      = some (pre.length + ((parts.map List.length).take j).sum)) :
    (List.range' s m).foldlM (mergePair distribution (h * 2)) (pre ++ parts.flatten ++ post)
      = some (pre ++ (Merge.mergeNeighbours lessEqual parts).flatten ++ post) := by
  induction m generalizing s pre parts with
  | zero =>
      obtain rfl := List.length_eq_zero_iff.mp hparts
      rfl
  | succ m ih =>
      obtain ⟨first, parts, rfl⟩ := List.exists_cons_of_length_pos (show 0 < parts.length by omega)
      obtain ⟨second, parts, rfl⟩ := List.exists_cons_of_length_pos
        (show 0 < parts.length by rw [List.length_cons] at hparts; omega)
      have hzero := hdistribution 0 (Nat.zero_le _)
      have hone := hdistribution 1 (by omega)
      have htwo := hdistribution 2 (by omega)
      simp only [List.map_cons, List.take_zero, List.take_succ_cons, List.sum_cons, List.sum_nil,
        Nat.add_zero] at hzero hone htwo
      have hpair : mergePair distribution (h * 2)
          (pre ++ (first :: second :: parts).flatten ++ post) s
          = some (pre ++ first.merge second lessEqual ++ (parts.flatten ++ post)) := by
        rw [mergePair, show h * 2 * s = h * (2 * s) by ring, Nat.mul_div_cancel _ Nat.two_pos,
          show h * (2 * s) + h = h * (2 * s + 1) by ring,
          show h * (2 * s) + h * 2 = h * (2 * s + 2) by ring, hzero, hone, htwo,
          ← inplaceMergeRange_eq, List.flatten_cons, List.flatten_cons]
        simp only [List.append_assoc, Nat.add_assoc]
        rfl
      rw [List.range'_succ, List.foldlM_cons, hpair, Option.bind_eq_bind, Option.bind_some,
        Merge.mergeNeighbours, List.flatten_cons, ← List.append_assoc, ← List.append_assoc,
        ih]
      · rw [List.length_cons, List.length_cons] at hparts
        omega
      · intro j hj
        have hnext := hdistribution (j + 2) (by omega)
        rw [show 2 * (s + 1) + j = 2 * s + (j + 2) by ring, hnext]
        simp only [List.map_cons, List.take_succ_cons, List.sum_cons, List.length_append,
          List.length_merge, Nat.add_assoc]

lemma sum_take_mergeNeighbours (parts : List (List α)) (j : ℕ) :
    (((Merge.mergeNeighbours lessEqual parts).map List.length).take j).sum
      = ((parts.map List.length).take (2 * j)).sum := by
  induction parts using Merge.mergeNeighbours.induct generalizing j with
  | case1 => simp [Merge.mergeNeighbours]
  | case2 first => cases j <;> simp [Merge.mergeNeighbours, Nat.mul_succ]
  | case3 first second rest ih =>
      cases j with
      | zero => rfl
      | succ j =>
          simp only [Merge.mergeNeighbours, List.map_cons, Nat.mul_succ, List.take_succ_cons,
            List.sum_cons, List.length_merge, ih j, Nat.add_assoc]

lemma mergeLoop_eq {k rounds fuel : ℕ} {pre post : List α} {parts : List (List α)}
    (hparts : parts.length = 2 ^ rounds) (hfuel : rounds ≤ fuel)
    (hdistribution : ∀ j ≤ 2 ^ rounds, distribution[2 ^ k * j]?
      = some (pre.length + ((parts.map List.length).take j).sum)) :
    mergeLoop distribution (2 ^ (k + rounds)) fuel (2 ^ k * 2) (pre ++ parts.flatten ++ post)
      = some (pre ++ Merge.mergeRounds lessEqual rounds parts ++ post) := by
  induction rounds generalizing k fuel parts with
  | zero =>
      have hstop : ¬2 ^ k * 2 ≤ 2 ^ (k + 0) := by
        rw [Nat.add_zero]
        have := Nat.two_pow_pos k
        omega
      cases fuel with
      | zero => rfl
      | succ fuel => rw [mergeLoop, if_neg hstop, Merge.mergeRounds]
  | succ rounds ih =>
      obtain ⟨fuel, rfl⟩ := Nat.exists_eq_add_of_le' (show 1 ≤ fuel by omega)
      have halign : 2 ^ (k + (rounds + 1)) = 2 ^ k * 2 * 2 ^ rounds := by ring
      have hgo : 2 ^ k * 2 ≤ 2 ^ (k + (rounds + 1)) := by
        rw [halign]
        exact Nat.le_mul_of_pos_right _ (Nat.two_pow_pos rounds)
      have hround : (List.range (2 ^ (k + (rounds + 1)) / (2 ^ k * 2))).foldlM
          (mergePair distribution (2 ^ k * 2)) (pre ++ parts.flatten ++ post)
          = some (pre ++ (Merge.mergeNeighbours lessEqual parts).flatten ++ post) := by
        rw [halign, Nat.mul_div_cancel_left _ (by positivity), List.range_eq_range']
        refine foldlM_mergePair (by rw [hparts]; ring) fun j hj => ?_
        rw [Nat.mul_zero, Nat.zero_add]
        exact hdistribution j (by rwa [pow_succ'])
      rw [mergeLoop, if_pos hgo, hround, Option.bind_some, Merge.mergeRounds,
        show 2 ^ (k + (rounds + 1)) = 2 ^ (k + 1 + rounds) by ring, ← pow_succ]
      refine ih ?_ (by omega) fun j hj => ?_
      · rw [Merge.length_mergeNeighbours, hparts]
        omega
      · rw [pow_succ, Nat.mul_assoc, hdistribution (2 * j) (by omega), sum_take_mergeNeighbours]

end Rounds

/-! ## The padded borders -/

lemma scanl_append_replicate (sizes : List ℕ) (a n : ℕ) :
    sizes.scanl (· + ·) a ++ List.replicate n (a + sizes.sum)
      = (sizes ++ List.replicate n 0).scanl (· + ·) a := by
  induction sizes generalizing a with
  | nil =>
      rw [List.scanl_nil, List.sum_nil, Nat.add_zero, List.nil_append]
      induction n with
      | zero => rfl
      | succ n ih =>
          rw [List.replicate_succ, List.replicate_succ, List.scanl_cons, Nat.add_zero, ← ih]
          rfl
  | cons size sizes ih =>
      rw [List.scanl_cons, List.cons_append, List.cons_append, List.scanl_cons, List.sum_cons,
        ← Nat.add_assoc, ih]

lemma getLastD_scanl_add (sizes : List ℕ) (a : ℕ) :
    (sizes.scanl (· + ·) a).getLastD 0 = a + sizes.sum := by
  rw [List.getLastD_eq_getLast?, getLast?_scanl_add, Option.getD_some]

lemma mergeLoop_padded (pre : List α) (parts : List (List α)) :
    mergeLoop ((parts.map List.length).scanl (· + ·) pre.length ++ List.replicate
        (align (parts.length + 1) - parts.length) (pre.length + (parts.map List.length).sum))
      (align (parts.length + 1)) (align (parts.length + 1)) 2 (pre ++ parts.flatten)
      = some (pre ++ inplaceMergeBy lessEqual parts) := by
  have hle := Nat.le_pow_clog Nat.one_lt_two (parts.length + 1)
  rw [align_eq, scanl_append_replicate, inplaceMergeBy]
  generalize hrounds : Nat.clog 2 (parts.length + 1) = rounds at hle ⊢
  have hflatten : (parts ++ List.replicate (2 ^ rounds - parts.length) []).flatten
      = parts.flatten := by simp
  have hlength : (parts ++ List.replicate (2 ^ rounds - parts.length) []).length = 2 ^ rounds := by
    rw [List.length_append, List.length_replicate]
    omega
  have hborders : ∀ j ≤ 2 ^ rounds,
      ((parts.map List.length ++ List.replicate (2 ^ rounds - parts.length) 0).scanl (· + ·)
          pre.length)[2 ^ 0 * j]?
        = some (pre.length + (((parts ++ List.replicate (2 ^ rounds - parts.length) []).map
            List.length).take j).sum) := by
    intro j hj
    rw [pow_zero, Nat.one_mul, List.map_append, List.map_replicate, List.length_nil]
    refine getElem?_scanl_add _ _ _ ?_
    rw [List.length_append, List.length_map, List.length_replicate]
    omega
  have hloop := @mergeLoop_eq α _ _ 0 rounds _ pre [] _ hlength Nat.lt_two_pow_self.le hborders
  rwa [Nat.zero_add, pow_zero, Nat.one_mul, hflatten, List.append_nil, List.append_nil] at hloop

/-! ## The chunks of a vector -/

/-- The chunks of `data` between the borders. -/
def chunks {size : ℕ} {data : List α} (d : Distribution size data.length) : List (List α) :=
  (List.range size).map fun t => window data (d.border t) (d.border (t + 1))

omit [LinearOrder α] in
lemma chunks_flatten {size : ℕ} {data : List α} (d : Distribution size data.length) :
    (chunks d).flatten = data := by
  have hall := flatMap_window d data size le_rfl
  rw [d.border_size, window, List.drop_zero, Nat.sub_zero, List.take_length] at hall
  rwa [chunks, ← List.flatMap_def]

omit [LinearOrder α] in
lemma chunks_lengths {size : ℕ} {data : List α} (d : Distribution size data.length) :
    (chunks d).map List.length = (List.range size).map fun t => d.border (t + 1) - d.border t := by
  rw [chunks, List.map_map]
  refine List.map_congr_left fun t ht => ?_
  exact length_window _ (d.border_le_total (List.mem_range.mp ht))

lemma inplaceMerge_flatten (parts : List (List α)) :
    inplaceMerge parts.flatten (offsets (parts.map List.length))
      = some (inplaceMergeBy lessEqual parts) := by
  have hloop := mergeLoop_padded [] parts
  rw [List.nil_append, List.nil_append, List.length_nil, Nat.zero_add] at hloop
  rw [inplaceMerge, offsets, getLastD_scanl_add, Nat.zero_add, List.length_scanl, List.length_map,
    Nat.add_sub_cancel]
  exact hloop

/-! ## The merged data are sorted -/

lemma lessEqual_iff {a b : α} : lessEqual a b = true ↔ a ≤ b := decide_eq_true_iff

lemma lessEqual_trans (a b c : α) (hab : lessEqual a b) (hbc : lessEqual b c) : lessEqual a c :=
  lessEqual_iff.mpr ((lessEqual_iff.mp hab).trans (lessEqual_iff.mp hbc))

lemma lessEqual_total (a b : α) : lessEqual a b || lessEqual b a := by
  rw [Bool.or_eq_true, lessEqual_iff, lessEqual_iff]
  exact le_total a b

lemma inplaceMergeBy_lessEqual_sorted {parts : List (List α)}
    (hparts : ∀ l ∈ parts, l.Pairwise (· ≤ ·)) :
    (inplaceMergeBy lessEqual parts).Pairwise (· ≤ ·) := by
  have hsorted := inplaceMergeBy_sorted lessEqual_trans lessEqual_total
    fun l hl => (hparts l hl).imp fun h => lessEqual_iff.mpr h
  exact hsorted.imp fun h => lessEqual_iff.mp h

lemma mergeSort_sorted (data : List α) : (data.mergeSort lessEqual).Pairwise (· ≤ ·) :=
  (List.pairwise_mergeSort lessEqual_trans lessEqual_total data).imp fun h => lessEqual_iff.mp h

lemma eq_mergeSort {out data : List α} (hout : out.Pairwise (· ≤ ·)) (hperm : out.Perm data) :
    out = data.mergeSort lessEqual :=
  (hperm.trans (List.mergeSort_perm data lessEqual).symm).eq_of_pairwise'
    hout (mergeSort_sorted data)

lemma mem_sortAndRemoveDuplicity {data : List α} {a : α} :
    a ∈ sortAndRemoveDuplicity data ↔ a ∈ data := by
  rw [sortAndRemoveDuplicity, (mergeSort_sorted data).destutter_eq_dedup, List.mem_dedup,
    List.mem_mergeSort]

lemma sortAndRemoveDuplicity_sorted (data : List α) :
    (sortAndRemoveDuplicity data).Pairwise (· < ·) := by
  have hsorted := mergeSort_sorted data
  rw [sortAndRemoveDuplicity, hsorted.destutter_eq_dedup]
  have hle := hsorted.sublist (List.dedup_sublist _)
  have hne := List.nodup_dedup (data.mergeSort lessEqual)
  exact (hle.and hne).imp fun h => lt_of_le_of_ne h.1 h.2

lemma inplaceMerge_chunks {size : ℕ} {data : List α} (d : Distribution size data.length)
    {parts : List (List α)} (hlengths : parts.map List.length = (chunks d).map List.length) :
    inplaceMerge parts.flatten d.borders = some (inplaceMergeBy lessEqual parts) := by
  rw [← offsets_sizes, ← chunks_lengths, ← hlengths]
  exact inplaceMerge_flatten parts

lemma sortWithInplaceMerge_eq {size : ℕ} {data : List α} (d : Distribution size data.length) :
    sortWithInplaceMerge data d.borders = some (data.mergeSort lessEqual) := by
  have hsort : ((List.range (d.borders.length - 1)).flatMap fun t =>
      (window data (d.borders.getD t 0) (d.borders.getD (t + 1) 0)).mergeSort lessEqual)
      = ((chunks d).map fun l => l.mergeSort lessEqual).flatten := by
    rw [d.length_eq, Nat.add_sub_cancel, chunks, List.map_map, List.flatMap_def]
    refine congrArg List.flatten (List.map_congr_left fun t ht => ?_)
    rw [List.getD_eq_getElem?_getD, List.getD_eq_getElem?_getD,
      d.getElem?_eq (List.mem_range.mp ht).le, d.getElem?_eq (List.mem_range.mp ht)]
    rfl
  rw [sortWithInplaceMerge, hsort, inplaceMerge_chunks d]
  · have hperm : ((chunks d).map fun l => l.mergeSort lessEqual).flatten.Perm data := by
      conv_rhs => rw [← chunks_flatten d]
      generalize chunks d = parts
      induction parts with
      | nil => exact List.Perm.refl _
      | cons l parts ih => exact (List.mergeSort_perm l lessEqual).append ih
    refine congrArg some (eq_mergeSort (inplaceMergeBy_lessEqual_sorted ?_)
      ((inplaceMergeBy_perm _).trans hperm))
    intro l hl
    obtain ⟨chunk, -, rfl⟩ := List.mem_map.mp hl
    exact mergeSort_sorted chunk
  · rw [List.map_map]
    exact List.map_congr_left fun l _ => List.length_mergeSort l

lemma sortWithUniqueMerge_eq {data : List (List α)} (hdata : data ≠ []) :
    sortWithUniqueMerge data = some (sortAndRemoveDuplicity data.flatten) := by
  obtain ⟨first, rest, rfl⟩ := List.exists_cons_of_ne_nil hdata
  rw [sortWithUniqueMerge, inplaceMerge_flatten, Option.map_some]
  refine congrArg some (List.Pairwise.eq_of_mem_iff (sortAndRemoveDuplicity_sorted _)
    (sortAndRemoveDuplicity_sorted _) fun a => ?_)
  rw [mem_sortAndRemoveDuplicity, mem_sortAndRemoveDuplicity, (inplaceMergeBy_perm _).mem_iff,
    List.mem_flatten, List.mem_flatten]
  simp only [List.mem_map, exists_exists_and_eq_and, mem_sortAndRemoveDuplicity]

/-- **`Esutils::inplaceMerge`** sorts every vector whose chunks are sorted. So the vector is sorted
if the chunks are sorted first, and the merged vectors have each entry once if they had each entry
once. -/
theorem inplaceMerge_sorts {size : ℕ} (data : List α) (d : Distribution size data.length) :
    ((∀ t < size, (window data (d.border t) (d.border (t + 1))).Pairwise (· ≤ ·)) →
      ∃ out, inplaceMerge data d.borders = some out ∧ out.Pairwise (· ≤ ·) ∧ out.Perm data) ∧
    sortWithInplaceMerge data d.borders = some (data.mergeSort lessEqual) ∧
    ∀ parts : List (List α), parts ≠ [] →
      sortWithUniqueMerge parts = some (sortAndRemoveDuplicity parts.flatten) := by
  refine ⟨fun hsorted => ?_, sortWithInplaceMerge_eq d, fun parts => sortWithUniqueMerge_eq⟩
  have hmerge := inplaceMerge_chunks d rfl
  have hperm : (inplaceMergeBy lessEqual (chunks d)).Perm _ := inplaceMergeBy_perm _
  rw [chunks_flatten] at hmerge hperm
  refine ⟨_, hmerge, inplaceMergeBy_lessEqual_sorted fun l hl => ?_, hperm⟩
  obtain ⟨t, ht, rfl⟩ := List.mem_map.mp hl
  exact hsorted t (List.mem_range.mp ht)

lemma mergeAppendedData_flatten (pre : List α) (parts : List (List α)) :
    mergeAppendedData (pre ++ parts.flatten) (offsets (pre.length :: parts.map List.length))
      = some (pre.merge (inplaceMergeBy lessEqual parts) lessEqual) := by
  have htail : (offsets (pre.length :: parts.map List.length)).tail
      = (parts.map List.length).scanl (· + ·) pre.length := by
    rw [offsets, List.scanl_cons, List.tail_cons, Nat.zero_add]
  have halign :
      align (parts.length + 1) + 2 - (offsets (pre.length :: parts.map List.length)).length
      = align (parts.length + 1) - parts.length := by
    rw [length_offsets, List.length_cons, List.length_map]
    omega
  have hlength : (inplaceMergeBy lessEqual parts).length = (parts.map List.length).sum := by
    rw [(inplaceMergeBy_perm parts).length_eq, List.length_flatten]
  have hlast := inplaceMergeRange_eq [] pre (inplaceMergeBy lessEqual parts) []
  rw [List.length_nil, Nat.zero_add, List.nil_append, List.append_nil, List.nil_append,
    List.append_nil, hlength] at hlast
  have hloop := mergeLoop_padded pre parts
  rw [mergeAppendedData, htail, List.length_scanl, List.length_map, getLastD_scanl_add, halign]
  rw [scanl_append_replicate] at hloop ⊢
  simp only [hloop, Option.bind_eq_bind, Option.bind_some, List.head?_scanl, getLast?_scanl_add,
    List.sum_append, List.sum_replicate, smul_zero, Nat.add_zero, hlast]

def twoOneOne : Distribution 3 [1, 3, 2, 4].length where
  borders := [0, 2, 3, 4]
  length_eq := rfl
  sorted := by decide
  first := rfl
  last := rfl

theorem inplaceMerge_sorts_twoOneOne :
    (∀ t < 3, (window [1, 3, 2, 4] (twoOneOne.border t) (twoOneOne.border (t + 1))).Pairwise
      (· ≤ ·)) ∧
    ∃ out, inplaceMerge [1, 3, 2, 4] [0, 2, 3, 4] = some out ∧ out.Pairwise (· ≤ ·) ∧
      out.Perm [1, 3, 2, 4] :=
  ⟨by decide, (inplaceMerge_sorts [1, 3, 2, 4] twoOneOne).1 (by decide)⟩

/-- **`Esutils::mergeAppendedData`** sorts every vector that is a sorted prefix with sorted chunks
behind it. -/
theorem mergeAppendedData_sorts {appended : ℕ} (data : List α)
    (d : Distribution (appended + 1) data.length)
    (hsorted : ∀ t ≤ appended, (window data (d.border t) (d.border (t + 1))).Pairwise (· ≤ ·)) :
    ∃ out, mergeAppendedData data d.borders = some out ∧ out.Pairwise (· ≤ ·) ∧
      out.Perm data := by
  obtain ⟨pre, parts, hchunks⟩ : ∃ pre parts, chunks d = pre :: parts := by
    rw [chunks, List.range_succ_eq_map, List.map_cons]
    exact ⟨_, _, rfl⟩
  have hdata := chunks_flatten d
  have hborders := offsets_sizes d
  rw [← chunks_lengths, hchunks, List.map_cons] at hborders
  rw [hchunks, List.flatten_cons] at hdata
  have hall : ∀ l ∈ chunks d, l.Pairwise (· ≤ ·) := by
    intro l hl
    obtain ⟨t, ht, rfl⟩ := List.mem_map.mp hl
    exact hsorted t (Nat.le_of_lt_succ (List.mem_range.mp ht))
  rw [hchunks] at hall
  obtain ⟨hpre, hparts⟩ := List.forall_mem_cons.mp hall
  refine ⟨pre.merge (inplaceMergeBy lessEqual parts) lessEqual, ?_, ?_, ?_⟩
  · have hmerge := mergeAppendedData_flatten pre parts
    rwa [hdata, hborders] at hmerge
  · have hmerged := List.pairwise_merge lessEqual_trans lessEqual_total _ _
      (hpre.imp fun h => lessEqual_iff.mpr h)
      ((inplaceMergeBy_lessEqual_sorted hparts).imp fun h => lessEqual_iff.mpr h)
    exact hmerged.imp fun h => lessEqual_iff.mp h
  · conv_rhs => rw [← hdata]
    exact (List.merge_perm_append lessEqual).trans ((inplaceMergeBy_perm parts).append_left pre)

theorem mergeAppendedData_sorts_twoOneOne :
    ∃ out, mergeAppendedData [1, 3, 2, 4] [0, 2, 3, 4] = some out ∧ out.Pairwise (· ≤ ·) ∧
      out.Perm [1, 3, 2, 4] :=
  mergeAppendedData_sorts [1, 3, 2, 4] twoOneOne (by decide)

end Esutils

end Espreso
