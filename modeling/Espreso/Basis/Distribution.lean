import Espreso.Lib.Layout
import Mathlib.Data.List.Basic
import Mathlib.Data.List.Pairwise
import Mathlib.Tactic

/-!
# Distributions

A distribution is the vector of borders of consecutive ranges, `0` first and the total last.  The
code looks positions up in it, and in other sorted vectors, with `std::lower_bound`.

* `lowerBound` — the lookup, with its two specifications: in a list without repetitions
  (`lowerBound_mem`), and in a distribution (`lowerBound_spec`, the range a position lies in).
* `binarySearch` — `std::binary_search`.
* `Distribution` — the borders, with the properties that all users rely on; `distribute` —
  `tarray::distribute`.
* `window` — a range of a buffer; the ranges of a distribution are the buffer (`flatMap_window`).
-/

namespace Espreso

/-- `std::lower_bound` on a sorted range: the first position whose entry is not less. -/
def lowerBound {α : Type} [LE α] [DecidableLE α] (l : List α) (value : α) : ℕ :=
  l.findIdx fun x => value ≤ x

section Lookup

variable {α : Type} [LinearOrder α]

lemma lowerBound_mem {l : List α} (hl : l.Pairwise (· < ·)) {value : α} :
    l[lowerBound l value]? = some value ↔ value ∈ l := by
  refine ⟨fun h => List.mem_of_getElem? h, fun h => ?_⟩
  induction l with
  | nil => simp at h
  | cons x l ih =>
      have hx := List.pairwise_cons.mp hl
      rw [lowerBound, List.findIdx_cons]
      rcases List.mem_cons.mp h with rfl | h
      · simp
      · have hlt := hx.1 value h
        simp only [not_le.mpr hlt, decide_false, cond_false, List.getElem?_cons_succ]
        exact ih hx.2 h

lemma lt_of_lt_lowerBound {l : List α} {value x : α} {i : ℕ}
    (h : i < lowerBound l value) (hx : l[i]? = some x) : x < value := by
  have hlt : i < l.length := lt_of_lt_of_le h List.findIdx_le_length
  have hnot := List.not_of_lt_findIdx h
  rw [List.getElem?_eq_getElem hlt] at hx
  rw [Option.some.inj hx] at hnot
  simpa using hnot

lemma le_of_eq_lowerBound {l : List α} {value x : α} {i : ℕ}
    (h : i = lowerBound l value) (hx : l[i]? = some x) : value ≤ x := by
  rw [h] at hx
  simpa using List.findIdx_of_getElem?_eq_some hx

lemma lt_lowerBound_iff {l : List α} (hl : l.Pairwise (· ≤ ·)) {value x : α} {i : ℕ}
    (hx : l[i]? = some x) : i < lowerBound l value ↔ x < value := by
  refine ⟨fun h => lt_of_lt_lowerBound h hx, fun h => ?_⟩
  by_contra hle
  obtain ⟨hi, rfl⟩ := List.getElem?_eq_some_iff.mp hx
  have hlt : lowerBound l value < l.length := (Nat.le_of_not_lt hle).trans_lt hi
  have hfound := le_of_eq_lowerBound rfl (List.getElem?_eq_getElem hlt)
  rcases Nat.eq_or_lt_of_le (Nat.le_of_not_lt hle) with heq | hbefore
  · simp only [heq] at hfound
    exact absurd hfound (not_le.mpr h)
  · have hmono := List.pairwise_iff_getElem.mp hl _ _ hlt hi hbefore
    exact absurd (hfound.trans hmono) (not_le.mpr h)

lemma lowerBound_getElem? {l : List α} (hl : l.Pairwise (· < ·)) {i : ℕ} {x : α}
    (hx : l[i]? = some x) : lowerBound l x = i := by
  have h := (lowerBound_mem hl).mpr (List.mem_of_getElem? hx)
  have hnodup : l.Nodup := hl.imp fun h => ne_of_lt h
  exact (List.getElem?_inj (List.getElem?_eq_some_iff.mp h).1 hnodup).mp (h.trans hx.symm)

lemma lowerBound_inj {l : List α} (hl : l.Pairwise (· < ·)) {a b : α} (ha : a ∈ l) (hb : b ∈ l)
    (h : lowerBound l a = lowerBound l b) : a = b := by
  have h₁ := (lowerBound_mem hl).mpr ha
  have h₂ := (lowerBound_mem hl).mpr hb
  rw [h, h₂] at h₁
  exact (Option.some.inj h₁).symm

lemma lowerBound_le_length (l : List α) (value : α) : lowerBound l value ≤ l.length :=
  List.findIdx_le_length

lemma lowerBound_cons (x : α) (l : List α) (value : α) :
    lowerBound (x :: l) value = if value ≤ x then 0 else lowerBound l value + 1 := by
  rw [lowerBound, List.findIdx_cons]
  by_cases h : value ≤ x
  · rw [decide_eq_true h, cond_true, if_pos h]
  · rw [decide_eq_false h, cond_false, if_neg h, lowerBound]

lemma lowerBound_mono (l : List α) {a b : α} (h : a ≤ b) : lowerBound l a ≤ lowerBound l b := by
  induction l with
  | nil => exact le_rfl
  | cons x l ih =>
      rw [lowerBound_cons, lowerBound_cons]
      rcases le_or_gt a x with hle | hlt
      · rw [if_pos hle]
        exact Nat.zero_le _
      · rw [if_neg (not_le.mpr hlt), if_neg (not_le.mpr (hlt.trans_le h))]
        exact Nat.succ_le_succ ih

lemma lowerBound_drop (l : List α) {value : α} {i : ℕ} (hi : i ≤ lowerBound l value) :
    i + lowerBound (l.drop i) value = lowerBound l value := by
  induction i generalizing l with
  | zero => rw [List.drop_zero, Nat.zero_add]
  | succ i ih =>
      cases l with
      | nil => exact absurd hi (Nat.not_succ_le_zero i)
      | cons x l =>
          rw [lowerBound_cons] at hi
          rw [lowerBound_cons, List.drop_succ_cons]
          split_ifs at hi ⊢
          · omega
          · have hnext := ih l (Nat.le_of_succ_le_succ hi)
            omega

lemma lowerBound_eq_length {l : List α} {value : α} (h : ∀ x ∈ l, x < value) :
    lowerBound l value = l.length :=
  List.findIdx_eq_length.mpr fun x hx => by simpa using h x hx

lemma lowerBound_map_congr {β γ : Type} [LinearOrder γ] {f : β → α} {g : β → γ} {a : α} {b : γ}
    {l : List β} (h : ∀ x ∈ l, f x < a ↔ g x < b) :
    lowerBound (l.map f) a = lowerBound (l.map g) b := by
  induction l with
  | nil => rfl
  | cons x l ih =>
      rw [List.map_cons, List.map_cons, lowerBound_cons, lowerBound_cons,
        ih fun y hy => h y (List.mem_cons_of_mem x hy)]
      simp only [← not_lt, h x List.mem_cons_self]

lemma lowerBound_eq_of_append {l l' : List α} {x value : α} (hl : ∀ y ∈ l, y < value)
    (hx : value ≤ x) : lowerBound (l ++ x :: l') value = l.length := by
  induction l with
  | nil => rw [List.nil_append, lowerBound_cons, if_pos hx, List.length_nil]
  | cons y l ih =>
      rw [List.cons_append, lowerBound_cons, if_neg (not_le.mpr (hl y List.mem_cons_self)),
        ih fun z hz => hl z (List.mem_cons_of_mem y hz), List.length_cons]

lemma take_lowerBound_map {β : Type} {f : β → α} {l : List β} (hl : (l.map f).Pairwise (· ≤ ·))
    (value : α) :
    l.take (lowerBound (l.map f) value) = l.filter (f · < value) ∧
      l.drop (lowerBound (l.map f) value) = l.filter (value ≤ f ·) := by
  induction l with
  | nil => exact ⟨rfl, rfl⟩
  | cons x l ih =>
      rw [List.map_cons] at hl ⊢
      obtain ⟨hx, hl⟩ := List.pairwise_cons.mp hl
      rw [lowerBound_cons]
      rcases le_or_gt value (f x) with hle | hlt
      · have hall : ∀ y ∈ x :: l, value ≤ f y :=
          List.forall_mem_cons.mpr ⟨hle, fun y hy => hle.trans (hx _ (List.mem_map_of_mem hy))⟩
        rw [if_pos hle, List.take_zero, List.drop_zero]
        constructor
        · exact (List.filter_eq_nil_iff.mpr fun y hy => by simpa using hall y hy).symm
        · exact (List.filter_eq_self.mpr fun y hy => by simpa using hall y hy).symm
      · rw [if_neg (not_le.mpr hlt), List.take_succ_cons, List.drop_succ_cons,
          List.filter_cons_of_pos (by simpa using hlt),
          List.filter_cons_of_neg (by simpa using hlt)]
        exact ⟨congrArg (x :: ·) (ih hl).1, (ih hl).2⟩

end Lookup

/-- `std::binary_search` on a sorted range. -/
def binarySearch (l : List ℕ) (value : ℕ) : Bool :=
  (l[lowerBound l value]?).any fun x => ¬value < x

lemma binarySearch_iff {l : List ℕ} (hl : l.Pairwise (· ≤ ·)) {value : ℕ} :
    binarySearch l value = true ↔ value ∈ l := by
  induction l with
  | nil => simp [binarySearch]
  | cons x l ih =>
      have hx := List.pairwise_cons.mp hl
      have hcons : binarySearch (x :: l) value
          = if value ≤ x then decide (¬value < x) else binarySearch l value := by
        rw [binarySearch, lowerBound, List.findIdx_cons]
        by_cases hle : value ≤ x
        · simp [hle]
        · simp [hle, binarySearch, lowerBound]
      rw [hcons, List.mem_cons]
      split_ifs with hle
      · rw [decide_eq_true_eq]
        constructor
        · exact fun hnot => Or.inl (le_antisymm hle (Nat.le_of_not_lt hnot))
        · rintro (rfl | hmem)
          · exact lt_irrefl _
          · exact Nat.not_lt.mpr (hx.1 value hmem)
      · rw [ih hx.2]
        exact (or_iff_right fun heq => hle heq.le).symm

/-! ## Distributions -/

/-- The borders of `size` consecutive ranges that cover `0`, ..., `total - 1`.  Ranges may be
empty. -/
structure Distribution (size total : ℕ) where
  borders : List ℕ
  length_eq : borders.length = size + 1
  sorted : borders.Pairwise (· ≤ ·)
  first : borders[0]? = some 0
  last : borders[size]? = some total

namespace Distribution

variable {size total : ℕ} (d : Distribution size total)

/-- The `i`-th border. -/
def border (i : ℕ) : ℕ := d.borders.getD i total

lemma getElem?_eq {i : ℕ} (hi : i ≤ size) : d.borders[i]? = some (d.border i) := by
  have hlt : i < d.borders.length := by rw [d.length_eq]; omega
  simp [border, List.getD, List.getElem?_eq_getElem hlt]

@[simp] lemma border_zero : d.border 0 = 0 := by
  have h := d.getElem?_eq (Nat.zero_le size)
  rw [d.first] at h
  exact (Option.some.inj h).symm

@[simp] lemma border_size : d.border size = total := by
  have h := d.getElem?_eq (le_refl size)
  rw [d.last] at h
  exact (Option.some.inj h).symm

lemma border_mono {i j : ℕ} (hij : i ≤ j) (hj : j ≤ size) : d.border i ≤ d.border j := by
  rcases eq_or_lt_of_le hij with rfl | hlt
  · exact le_refl _
  · have hjl : j < d.borders.length := by rw [d.length_eq]; omega
    have hil : i < d.borders.length := by omega
    have h := List.pairwise_iff_getElem.mp d.sorted i j hil hjl hlt
    have hi := d.getElem?_eq (by omega : i ≤ size)
    have hj := d.getElem?_eq hj
    rw [List.getElem?_eq_getElem hil] at hi
    rw [List.getElem?_eq_getElem hjl] at hj
    rwa [Option.some.inj hi, Option.some.inj hj] at h

lemma border_le_total {i : ℕ} (hi : i ≤ size) : d.border i ≤ total := by
  simpa using d.border_mono hi (le_refl size)

end Distribution

/-- `tarray::distribute`: the same number of items for each range, except for the last ones. -/
def distribute (threads size : ℕ) : List ℕ :=
  let chunkSize := (size + threads - 1) / threads
  ((List.range threads).map fun t => min (t * chunkSize) size) ++ [size]

lemma distribute_sorted (threads size : ℕ) : (distribute threads size).Pairwise (· ≤ ·) := by
  rw [distribute, List.pairwise_append]
  refine ⟨?_, List.pairwise_singleton _ _, ?_⟩
  · refine List.pairwise_map.mpr (List.pairwise_lt_range.imp fun {s t} hst => ?_)
    exact min_le_min_right _ (Nat.mul_le_mul_right _ (Nat.le_of_lt hst))
  · intro x hx y hy
    obtain ⟨t, -, rfl⟩ := List.mem_map.mp hx
    rw [List.mem_singleton.mp hy]
    exact min_le_right _ _

lemma distribute_first {threads : ℕ} (h : 0 < threads) (size : ℕ) :
    (distribute threads size)[0]? = some 0 := by
  obtain ⟨n, rfl⟩ := Nat.exists_eq_add_of_lt h
  rw [distribute, List.getElem?_append_left (by simp)]
  simp

lemma distribute_last (threads size : ℕ) : (distribute threads size)[threads]? = some size := by
  rw [distribute, List.getElem?_append_right (by simp)]
  simp

/-- The ranges of `tarray::distribute`. -/
def Distribution.uniform {threads : ℕ} (h : 0 < threads) (size : ℕ) : Distribution threads size where
  borders := distribute threads size
  length_eq := by simp [distribute]
  sorted := distribute_sorted threads size
  first := distribute_first h size
  last := distribute_last threads size

def Distribution.cut {size : ℕ} (total : ℕ) (f : ℕ → ℕ) (hsize : 0 < size) (hf : Monotone f)
    (hzero : f 0 = 0) (hlast : f (size - 1) ≤ total) : Distribution size total where
  borders := (List.range size).map f ++ [total]
  length_eq := by simp
  sorted := by
    rw [List.pairwise_append]
    refine ⟨?_, List.pairwise_singleton _ _, ?_⟩
    · exact List.pairwise_map.mpr (List.pairwise_lt_range.imp fun h => hf (Nat.le_of_lt h))
    · intro x hx y hy
      obtain ⟨i, hi, rfl⟩ := List.mem_map.mp hx
      rw [List.mem_singleton.mp hy]
      exact (hf (Nat.le_sub_one_of_lt (List.mem_range.mp hi))).trans hlast
  first := by
    rw [List.getElem?_append_left (by simpa using hsize), List.getElem?_map,
      List.getElem?_range hsize, Option.map_some, hzero]
  last := by
    rw [List.getElem?_append_right (by simp)]
    simp

lemma Distribution.cut_border {size total : ℕ} {f : ℕ → ℕ} {hsize : 0 < size} {hf : Monotone f}
    {hzero : f 0 = 0} {hlast : f (size - 1) ≤ total} {i : ℕ} (hi : i ≤ size) :
    (Distribution.cut total f hsize hf hzero hlast).border i = if i < size then f i else total := by
  refine Option.some.inj ((Distribution.getElem?_eq _ hi).symm.trans ?_)
  rw [cut]
  dsimp only
  split_ifs with hlt
  · rw [List.getElem?_append_left (by simpa using hlt), List.getElem?_map, List.getElem?_range hlt,
      Option.map_some]
  · obtain rfl : i = size := by omega
    rw [List.getElem?_append_right (by simp)]
    simp

def Distribution.ofFun {size total : ℕ} (f : ℕ → ℕ) (hf : Monotone f) (hzero : f 0 = 0)
    (hlast : f size = total) : Distribution size total where
  borders := (List.range (size + 1)).map f
  length_eq := by simp
  sorted := List.pairwise_map.mpr (List.pairwise_lt_range.imp fun h => hf (Nat.le_of_lt h))
  first := by rw [List.getElem?_map, List.getElem?_range (Nat.succ_pos size), Option.map_some, hzero]
  last := by
    rw [List.getElem?_map, List.getElem?_range (Nat.lt_succ_self size), Option.map_some, hlast]

lemma Distribution.ofFun_border {size total : ℕ} {f : ℕ → ℕ} {hf : Monotone f} {hzero : f 0 = 0}
    {hlast : f size = total} {i : ℕ} (hi : i ≤ size) :
    (Distribution.ofFun f hf hzero hlast).border i = f i := by
  refine Option.some.inj ((Distribution.getElem?_eq _ hi).symm.trans ?_)
  rw [ofFun]
  dsimp only
  rw [List.getElem?_map, List.getElem?_range (Nat.lt_succ_of_le hi), Option.map_some]

/-- `Communication::getDistribution`: the borders of ranges with given sizes. -/
def getDistribution (size : ℕ) (sizes : ℕ → ℕ) : List ℕ :=
  (List.range (size + 1)).map fun r => ((List.range r).map sizes).sum

def Distribution.ofSizes (size : ℕ) (sizes : ℕ → ℕ) :
    Distribution size ((List.range size).map sizes).sum where
  borders := getDistribution size sizes
  length_eq := by simp [getDistribution]
  sorted := by
    refine List.pairwise_map.mpr (List.pairwise_lt_range.imp fun {a b} h => ?_)
    obtain ⟨n, rfl⟩ := Nat.exists_eq_add_of_lt h
    rw [Nat.add_assoc, List.range_add, List.map_append, List.sum_append]
    exact Nat.le_add_right _ _
  first := by simp [getDistribution]
  last := by simp [getDistribution]

lemma Distribution.ofSizes_border {size : ℕ} {sizes : ℕ → ℕ} {r : ℕ} (hr : r ≤ size) :
    (Distribution.ofSizes size sizes).border r = ((List.range r).map sizes).sum := by
  refine Option.some.inj ((Distribution.getElem?_eq _ hr).symm.trans ?_)
  change (getDistribution size sizes)[r]? = _
  rw [getDistribution, List.getElem?_map, List.getElem?_range (Nat.lt_succ_of_le hr), Option.map_some]

lemma Distribution.ofSizes_border_succ {size : ℕ} {sizes : ℕ → ℕ} {r : ℕ} (hr : r < size) :
    (Distribution.ofSizes size sizes).border (r + 1)
      = (Distribution.ofSizes size sizes).border r + sizes r := by
  rw [ofSizes_border hr, ofSizes_border hr.le, List.range_succ, List.map_append, List.sum_append]
  simp

def Distribution.cast {size a b : ℕ} (h : a = b) (d : Distribution size a) : Distribution size b where
  borders := d.borders
  length_eq := d.length_eq
  sorted := d.sorted
  first := d.first
  last := h ▸ d.last

lemma Distribution.cast_border {size a b : ℕ} (h : a = b) (d : Distribution size a) (i : ℕ) :
    (d.cast h).border i = d.border i := by
  subst h
  rfl

def Distribution.map {size total : ℕ} (d : Distribution size total) (f : ℕ → ℕ) (hf : Monotone f)
    (hzero : f 0 = 0) : Distribution size (f total) where
  borders := (List.range (size + 1)).map fun r => f (d.border r)
  length_eq := by simp
  sorted := by
    rw [List.pairwise_map]
    refine List.pairwise_iff_getElem.mpr fun i j hi hj hij => ?_
    rw [List.length_range] at hj
    rw [List.getElem_range, List.getElem_range]
    exact hf (d.border_mono hij.le (Nat.le_of_lt_succ hj))
  first := by
    rw [List.getElem?_map, List.getElem?_range (Nat.succ_pos size), Option.map_some, d.border_zero,
      hzero]
  last := by
    rw [List.getElem?_map, List.getElem?_range (Nat.lt_succ_self size), Option.map_some,
      d.border_size]

lemma Distribution.map_border {size total : ℕ} {d : Distribution size total} {f : ℕ → ℕ}
    {hf : Monotone f} {hzero : f 0 = 0} {r : ℕ} (hr : r ≤ size) :
    (d.map f hf hzero).border r = f (d.border r) := by
  refine Option.some.inj ((Distribution.getElem?_eq _ hr).symm.trans ?_)
  rw [map]
  dsimp only
  rw [List.getElem?_map, List.getElem?_range (Nat.lt_succ_of_le hr), Option.map_some]

lemma distribute_getD {threads t : ℕ} (size : ℕ) (ht : t < threads) :
    (distribute threads size).getD t 0 = min (t * ((size + threads - 1) / threads)) size := by
  rw [distribute, List.getD_eq_getElem?_getD, List.getElem?_append_left (by simpa using ht),
    List.getElem?_map, List.getElem?_range ht, Option.map_some, Option.getD_some]

lemma distribute_getD_last (threads size : ℕ) : (distribute threads size).getD threads 0 = size := by
  rw [List.getD_eq_getElem?_getD, distribute_last, Option.getD_some]

lemma distribute_getD_mono {threads t : ℕ} (size : ℕ) (ht : t < threads) :
    (distribute threads size).getD t 0 ≤ (distribute threads size).getD (t + 1) 0 := by
  rw [distribute_getD size ht]
  rcases Nat.lt_or_ge (t + 1) threads with hlt | hge
  · rw [distribute_getD size hlt]
    exact min_le_min_right _ (Nat.mul_le_mul_right _ (Nat.le_succ t))
  · obtain rfl : t + 1 = threads := by omega
    rw [distribute_getD_last]
    exact min_le_right _ _

lemma uniform_border {threads t : ℕ} (h : 0 < threads) (size : ℕ) (ht : t ≤ threads) :
    (Distribution.uniform h size).border t = (distribute threads size).getD t 0 := by
  have hget : (distribute threads size)[t]? = some ((Distribution.uniform h size).border t) :=
    (Distribution.uniform h size).getElem?_eq ht
  rw [List.getD_eq_getElem?_getD, hget, Option.getD_some]

lemma distribute_getD_le {threads t : ℕ} (size : ℕ) (ht : t ≤ threads) :
    (distribute threads size).getD t 0 ≤ size := by
  rcases Nat.eq_or_lt_of_le ht with rfl | hlt
  · exact (distribute_getD_last t size).le
  · rw [distribute_getD size hlt]
    exact min_le_right _ _

lemma distribute_getD_zero {threads : ℕ} (h : 0 < threads) (size : ℕ) :
    (distribute threads size).getD 0 0 = 0 := by
  rw [List.getD_eq_getElem?_getD, distribute_first h, Option.getD_some]

lemma lowerBound_spec {size total : ℕ} (d : Distribution size total) (a : ℕ) :
    ∃ t, lowerBound d.borders (a + 1) = t + 1 ∧ t ≤ size ∧ d.border t ≤ a ∧
      (t < size → a < d.border (t + 1)) := by
  have hle : lowerBound d.borders (a + 1) ≤ size + 1 := by
    rw [← d.length_eq]
    exact List.findIdx_le_length
  have hbefore : ∀ i, i ≤ size → i < lowerBound d.borders (a + 1) → d.border i ≤ a := by
    intro i hi hlt
    have hil : i < d.borders.length := by rw [d.length_eq]; omega
    have h := List.not_of_lt_findIdx hlt
    have hb := d.getElem?_eq hi
    rw [List.getElem?_eq_getElem hil] at hb
    rw [Option.some.inj hb] at h
    simp only [decide_eq_false_iff_not, not_le] at h
    omega
  have hat : ∀ i, i ≤ size → i = lowerBound d.borders (a + 1) → a < d.border i := by
    intro i hi heq
    have hb := d.getElem?_eq hi
    rw [heq] at hb ⊢
    have h := List.findIdx_of_getElem?_eq_some hb
    simpa using h
  have hpos : 0 < lowerBound d.borders (a + 1) := by
    rcases Nat.eq_zero_or_pos (lowerBound d.borders (a + 1)) with h | h
    · have := hat 0 (Nat.zero_le size) h.symm
      simp at this
    · exact h
  refine ⟨lowerBound d.borders (a + 1) - 1, by omega, by omega,
    hbefore _ (by omega) (by omega), fun h => hat _ (by omega) (by omega)⟩

lemma Distribution.exists_range {size total : ℕ} (d : Distribution size total) {a : ℕ} (ha : a < total) :
    ∃ t < size, d.border t ≤ a ∧ a < d.border (t + 1) := by
  obtain ⟨t, -, hle, hlow, hhigh⟩ := lowerBound_spec d a
  rcases Nat.lt_or_eq_of_le hle with hlt | rfl
  · exact ⟨t, hlt, hlow, hhigh hlt⟩
  · rw [d.border_size] at hlow
    omega

lemma flatMap_range' (f : ℕ → ℕ) (n : ℕ) (hf : ∀ i < n, f i ≤ f (i + 1)) :
    ((List.range n).flatMap fun i => List.range' (f i) (f (i + 1) - f i))
      = List.range' (f 0) (f n - f 0) ∧ f 0 ≤ f n := by
  induction n with
  | zero => simp
  | succ n ih =>
      obtain ⟨hrange, hle⟩ := ih fun i hi => hf i (Nat.lt_succ_of_lt hi)
      have hstep := hf n (Nat.lt_succ_self n)
      refine ⟨?_, hle.trans hstep⟩
      have happend := List.range'_append_1 (s := f 0) (m := f n - f 0) (n := f (n + 1) - f n)
      rw [show f 0 + (f n - f 0) = f n by omega,
        show f n - f 0 + (f (n + 1) - f n) = f (n + 1) - f 0 by omega] at happend
      rw [List.range_succ, List.flatMap_append, hrange, List.flatMap_singleton, happend]

lemma Distribution.flatMap_ranges {size total : ℕ} (d : Distribution size total) :
    ((List.range size).flatMap fun t => List.range' (d.border t) (d.border (t + 1) - d.border t))
      = List.range total := by
  have h := (flatMap_range' d.border size fun t ht => d.border_mono (Nat.le_succ t) ht).1
  rwa [d.border_zero, d.border_size, Nat.sub_zero, ← List.range_eq_range'] at h

lemma flatMap_range_ite {T : Type} (a n : ℕ) (f : ℕ → List T) :
    ((List.range n).flatMap fun i => if a = i then f i else []) = if a < n then f a else [] := by
  induction n with
  | zero => simp
  | succ n ih =>
      rw [List.range_succ, List.flatMap_append, List.flatMap_singleton, ih]
      rcases Nat.lt_trichotomy a n with hlt | rfl | hgt
      · rw [if_pos hlt, if_neg hlt.ne, if_pos (Nat.lt_succ_of_lt hlt), List.append_nil]
      · rw [if_neg (lt_irrefl a), if_pos rfl, if_pos (Nat.lt_succ_self a), List.nil_append]
      · rw [if_neg (by omega), if_neg hgt.ne', if_neg (by omega), List.append_nil]

lemma flatMap_distribute {threads : ℕ} (h : 0 < threads) (size : ℕ) :
    ((List.range threads).flatMap fun t => List.range' ((distribute threads size).getD t 0)
      ((distribute threads size).getD (t + 1) 0 - (distribute threads size).getD t 0))
      = List.range size := by
  have hranges := (flatMap_range' (fun t => (distribute threads size).getD t 0) threads
    fun t ht => distribute_getD_mono size ht).1
  rw [hranges, distribute_getD_zero h, distribute_getD_last, Nat.sub_zero, List.range_eq_range']

lemma lowerBound_eq {size total : ℕ} (d : Distribution size total) {t a : ℕ} (ht : t < size)
    (hlow : d.border t ≤ a) (hhigh : a < d.border (t + 1)) : lowerBound d.borders (a + 1) = t + 1 := by
  obtain ⟨s, hs, hle, hslow, hshigh⟩ := lowerBound_spec d a
  rw [hs]
  rcases Nat.lt_trichotomy s t with hlt | rfl | hgt
  · have := d.border_mono (show s + 1 ≤ t from hlt) ht.le
    have := hshigh (hlt.trans ht)
    omega
  · rfl
  · have := d.border_mono (show t + 1 ≤ s from hgt) hle
    omega

/-! ## Windows of a buffer -/

variable {T : Type}

/-- The entries `a`, ..., `b - 1`. -/
def window (l : List T) (a b : ℕ) : List T := (l.drop a).take (b - a)

lemma window_lowerBound_map {α : Type} [LinearOrder α] {f : T → α} {l : List T}
    (hl : (l.map f).Pairwise (· ≤ ·)) {a b : α} (hab : a ≤ b) :
    window l (lowerBound (l.map f) a) (lowerBound (l.map f) b)
      = l.filter fun x => a ≤ f x ∧ f x < b := by
  have hlow : ((l.filter (f · < b)).map f).Pairwise (· ≤ ·) :=
    hl.sublist (List.filter_sublist.map f)
  have hcut : l.filter (f · < b) = l.filter (f · < a) ++ l.filter fun x => a ≤ f x ∧ f x < b := by
    have hsplit := List.take_append_drop (lowerBound ((l.filter (f · < b)).map f) a)
      (l.filter (f · < b))
    rw [(take_lowerBound_map hlow a).1, (take_lowerBound_map hlow a).2, List.filter_filter,
      List.filter_filter] at hsplit
    rw [← hsplit]
    congr 1
    · exact List.filter_congr fun x _ => by simpa using fun h : f x < a => h.trans_le hab
    · exact List.filter_congr fun x _ => by simp
  have hlength (value : α) : lowerBound (l.map f) value = (l.filter (f · < value)).length := by
    have hle := lowerBound_le_length (l.map f) value
    rw [List.length_map] at hle
    rw [← (take_lowerBound_map hl value).1, List.length_take]
    exact (min_eq_left hle).symm
  rw [window, ← List.drop_take, (take_lowerBound_map hl b).1, hcut, hlength a, List.drop_left]

lemma window_lowerBound {α : Type} [LinearOrder α] {l : List α} (hl : l.Pairwise (· ≤ ·)) {a b : α}
    (hab : a ≤ b) :
    window l (lowerBound l a) (lowerBound l b) = l.filter fun x => a ≤ x ∧ x < b := by
  have h := window_lowerBound_map (f := id) (l := l) (by rwa [List.map_id]) hab
  rwa [List.map_id] at h

lemma length_window (l : List T) {a b : ℕ} (hb : b ≤ l.length) :
    (window l a b).length = b - a := by
  simp only [window, List.length_take, List.length_drop]
  omega

@[simp] lemma window_self (l : List T) (a : ℕ) : window l a a = [] := by simp [window]

lemma window_append (l : List T) {a b c : ℕ} (hab : a ≤ b) (hbc : b ≤ c) :
    window l a b ++ window l b c = window l a c := by
  obtain ⟨m, rfl⟩ := Nat.exists_eq_add_of_le hab
  obtain ⟨n, rfl⟩ := Nat.exists_eq_add_of_le hbc
  simp only [window]
  rw [show a + m - a = m by omega, show a + m + n - (a + m) = n by omega,
    show a + m + n - a = m + n by omega, ← List.drop_drop, ← List.take_add]

lemma window_window (l : List T) {a b i j : ℕ} (hj : a + j ≤ b) :
    window (window l a b) i j = window l (a + i) (a + j) := by
  simp only [window, List.drop_take, List.drop_drop, List.take_take]
  congr 1
  omega

lemma flatMap_window_mul (l : List T) (a c n : ℕ) :
    ((List.range n).flatMap fun j => window l (a + j * c) (a + (j + 1) * c))
      = window l a (a + n * c) := by
  induction n with
  | zero => simp
  | succ n ih =>
      rw [List.range_succ, List.flatMap_append, ih, List.flatMap_singleton]
      exact window_append l (Nat.le_add_right _ _)
        (Nat.add_le_add_left (Nat.mul_le_mul_right _ (Nat.le_succ n)) _)

lemma range_eq_append {k n : ℕ} (hk : k < n) :
    List.range n = List.range k ++ k :: List.range' (k + 1) (n - k - 1) := by
  have happend := List.range'_append_1 (s := 0) (m := k) (n := n - k)
  rw [Nat.zero_add, Nat.add_sub_cancel' hk.le] at happend
  rw [← List.range'_succ, show n - k - 1 + 1 = n - k by omega, List.range_eq_range',
    List.range_eq_range', happend]

section Whole

variable {size total : ℕ} (d : Distribution size total)

lemma length_flatMap_range {buffer : ℕ → List T}
    (hlen : ∀ r < size, (buffer r).length = d.border (r + 1) - d.border r) :
    ∀ n ≤ size, ((List.range n).flatMap buffer).length = d.border n := by
  intro n
  induction n with
  | zero => intro _; simp
  | succ n ih =>
      intro hn
      have := d.border_mono (Nat.le_succ n) hn
      rw [List.range_succ, List.flatMap_append, List.length_append, ih (by omega)]
      simp only [List.flatMap_cons, List.flatMap_nil, List.append_nil, hlen n (by omega)]
      simp only [Nat.succ_eq_add_one] at this
      omega

lemma buffer_eq_window {buffer : ℕ → List T}
    (hlen : ∀ r < size, (buffer r).length = d.border (r + 1) - d.border r) {r : ℕ}
    (hr : r < size) :
    buffer r = window ((List.range size).flatMap buffer) (d.border r) (d.border (r + 1)) := by
  have hpre := length_flatMap_range d hlen r (le_of_lt hr)
  rw [window, range_eq_append hr, List.flatMap_append, ← hpre, List.drop_left, List.flatMap_cons, hpre,
    ← hlen r hr, List.take_left]

lemma start_rows {buffer : ℕ → List T} {rsize : ℕ}
    (hlen : ∀ r < size, (buffer r).length = rsize * (d.border (r + 1) - d.border r)) :
    ∀ n ≤ size, Layout.start (fun i => (buffer i).length) n = rsize * d.border n := by
  intro n
  induction n with
  | zero => intro _; simp
  | succ n ih =>
      intro hn
      have hmono := d.border_mono (Nat.le_add_right n 1) hn
      rw [Layout.start_succ, ih (by omega), hlen n (by omega), ← Nat.mul_add,
        Nat.add_sub_cancel' hmono]

lemma length_flatMap_rows {buffer : ℕ → List T} {rsize : ℕ}
    (hlen : ∀ r < size, (buffer r).length = rsize * (d.border (r + 1) - d.border r)) :
    ((List.range size).flatMap buffer).length = rsize * total := by
  rw [Layout.length_flatMap_range, start_rows d hlen size le_rfl, d.border_size]

lemma getElem?_flatMap_rows {buffer : ℕ → List T} {rsize : ℕ}
    (hlen : ∀ r < size, (buffer r).length = rsize * (d.border (r + 1) - d.border r)) {r a k : ℕ}
    (hr : r < size) (hlow : d.border r ≤ a) (hhigh : a < d.border (r + 1)) (hk : k < rsize) :
    ((List.range size).flatMap buffer)[rsize * a + k]? = (buffer r)[rsize * (a - d.border r) + k]? := by
  have hrow : rsize * (a - d.border r) + k < (buffer r).length := by
    have hle := Nat.mul_le_mul_left rsize
      (show a - d.border r + 1 ≤ d.border (r + 1) - d.border r by omega)
    rw [Nat.mul_succ] at hle
    rw [hlen r hr]
    omega
  have hentry := Layout.getElem?_flatMap_range buffer hr hrow
  rw [start_rows d hlen r hr.le, ← Nat.add_assoc, ← Nat.mul_add, Nat.add_sub_cancel' hlow] at hentry
  exact hentry

lemma flatMap_window (l : List T) :
    ∀ n ≤ size, ((List.range n).flatMap fun q => window l (d.border q) (d.border (q + 1)))
      = window l 0 (d.border n) := by
  intro n
  induction n with
  | zero => intro _; simp
  | succ n ih =>
      intro hn
      rw [List.range_succ, List.flatMap_append, ih (by omega)]
      simp only [List.flatMap_cons, List.flatMap_nil, List.append_nil]
      exact window_append l (Nat.zero_le _) (d.border_mono (Nat.le_succ n) hn)

end Whole

end Espreso
