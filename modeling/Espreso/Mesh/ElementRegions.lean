import Espreso.Basis.Distribution
import Espreso.Lib.BitTable

/-!
# Regions of elements

Each rank keeps its elements in intervals of a common domain and code.  `fillRegionMask` stores the
regions of each element as a row of bits; `arrangeRegions` finds the elements that are in one region
only.

* `Elements` — the elements of a rank, with the threads, domains and intervals.
* `fillRegionMask` — the rows of bits, and **`get_fillRegionMask`**, what they say.
* **`Regions.arranged_iff`** — when the result is right for all regions.
-/

namespace Espreso

/-- An `eslocal` that holds bits. -/
abbrev Bits := BitVec 32

structure ElementsInterval where
  (begin' end' : ℕ)
  domain : ℕ
  code : ℕ
deriving DecidableEq

/-- The elements of a rank: the threads have consecutive elements and consecutive domains, domains
have consecutive intervals, and intervals have consecutive elements. -/
structure Elements where
  (threads size ndomains count : ℕ)
  distribution : Distribution threads size
  domainDistribution : Distribution threads ndomains
  eintervalsDistribution : Distribution ndomains count
  borders : Distribution count size
  domain : ℕ → ℕ
  code : ℕ → ℕ

namespace Elements

def eintervals (E : Elements) : List ElementsInterval :=
  (List.range E.count).map fun i => ⟨E.borders.border i, E.borders.border (i + 1), E.domain i, E.code i⟩

def threadIntervals (E : Elements) (t : ℕ) : List ℕ :=
  (List.range' (E.domainDistribution.border t)
    (E.domainDistribution.border (t + 1) - E.domainDistribution.border t)).flatMap fun d =>
      List.range' (E.eintervalsDistribution.border d)
        (E.eintervalsDistribution.border (d + 1) - E.eintervalsDistribution.border d)

lemma flatMap_threadIntervals (E : Elements) :
    ((List.range E.threads).flatMap E.threadIntervals) = List.range E.count := by
  have hdomains := (flatMap_range' E.domainDistribution.border E.threads fun t ht =>
    E.domainDistribution.border_mono (Nat.le_succ t) ht).1
  have hintervals := (flatMap_range' E.eintervalsDistribution.border E.ndomains fun d hd =>
    E.eintervalsDistribution.border_mono (Nat.le_succ d) hd).1
  simp only [Distribution.border_zero, Distribution.border_size, Nat.sub_zero,
    ← List.range_eq_range'] at hdomains hintervals
  calc ((List.range E.threads).flatMap E.threadIntervals)
      = ((List.range E.threads).flatMap fun t => List.range' (E.domainDistribution.border t)
          (E.domainDistribution.border (t + 1) - E.domainDistribution.border t)).flatMap fun d =>
            List.range' (E.eintervalsDistribution.border d)
              (E.eintervalsDistribution.border (d + 1) - E.eintervalsDistribution.border d) :=
        List.flatMap_assoc.symm
    _ = List.range E.count := by rw [hdomains, hintervals]

end Elements

/-! ## The rows of bits -/

/-- `regionsBitMaskSize` -/
def maskSize (regions : List (List ℕ)) : ℕ :=
  regions.length / 32 + if regions.length % 32 = 0 then 0 else 1

/-- The elements of regions in a range, counted from its beginning, with the numbers of the regions.
-/
def marks (regions : List (List ℕ)) (first last : ℕ) : List (ℕ × ℕ) :=
  regions.zipIdx.flatMap fun region =>
    (window region.1 (lowerBound region.1 first) (lowerBound region.1 last)).map
      fun e => (e - first, region.2)

/-- **`MeshPreprocessing::fillRegionMask`**: each thread fills the rows of its elements. -/
def fillRegionMask (E : Elements) (regions : List (List ℕ)) : List Bits :=
  (List.range E.threads).flatMap fun t =>
    BitTable.setAll (maskSize regions)
      (BitTable.zeros 32 (maskSize regions * (E.distribution.border (t + 1) - E.distribution.border t)))
      (marks regions (E.distribution.border t) (E.distribution.border (t + 1)))

/-- The regions of elements of a rank: ascending lists, the first with all elements. -/
structure Regions (E : Elements) where
  lists : List (List ℕ)
  ascending : ∀ l ∈ lists, l.Pairwise (· < ·)
  within : ∀ l ∈ lists, ∀ e ∈ l, e < E.size
  all : lists[0]? = some (List.range E.size)

namespace Regions

variable {E : Elements} (R : Regions E)

/-- The elements of region `r`. -/
def region (r : ℕ) : List ℕ := R.lists.getD r []

lemma lt_maskSize {c : ℕ} (hc : c < R.lists.length) : c / 32 < maskSize R.lists := by
  rw [maskSize]
  split_ifs <;> omega

lemma region_ascending (r : ℕ) : (R.region r).Pairwise (· < ·) := by
  rcases Nat.lt_or_ge r R.lists.length with hlt | hge
  · rw [region, List.getD_eq_getElem _ _ hlt]
    exact R.ascending _ (List.getElem_mem hlt)
  · rw [region, List.getD_eq_default _ _ hge]
    exact List.Pairwise.nil

lemma region_within {r e : ℕ} (he : e ∈ R.region r) : e < E.size := by
  rcases Nat.lt_or_ge r R.lists.length with hlt | hge
  · rw [region, List.getD_eq_getElem _ _ hlt] at he
    exact R.within _ (List.getElem_mem hlt) e he
  · rw [region, List.getD_eq_default _ _ hge] at he
    exact absurd he List.not_mem_nil

lemma region_zero : R.region 0 = List.range E.size := by
  rw [region, List.getD_eq_getElem?_getD, R.all, Option.getD_some]

lemma mem_marks {first last i c : ℕ} (hle : first ≤ last) :
    (i, c) ∈ marks R.lists first last ↔ first + i < last ∧ first + i ∈ R.region c := by
  have hwindow (l : List ℕ) (hl : l.Pairwise (· < ·)) (e : ℕ) :
      e ∈ window l (lowerBound l first) (lowerBound l last) ↔ e ∈ l ∧ first ≤ e ∧ e < last := by
    rw [window_lowerBound (hl.imp le_of_lt) hle, List.mem_filter, decide_eq_true_eq]
  simp only [marks, List.mem_flatMap, List.mem_map, Prod.mk.injEq]
  constructor
  · rintro ⟨⟨l, r⟩, hregion, e, he, rfl, rfl⟩
    have hget := List.mem_zipIdx_iff_getElem?.mp hregion
    obtain ⟨hmem, hfirst, hlast⟩ := (hwindow l (R.ascending l (List.mem_of_getElem? hget)) e).mp he
    rw [Nat.add_sub_cancel' hfirst, region, List.getD_eq_getElem?_getD, hget, Option.getD_some]
    exact ⟨hlast, hmem⟩
  · rintro ⟨hlast, hmem⟩
    have hc : c < R.lists.length := by
      by_contra hge
      rw [region, List.getD_eq_default _ _ (Nat.le_of_not_lt hge)] at hmem
      exact absurd hmem List.not_mem_nil
    have hregion : R.region c = R.lists[c] := List.getD_eq_getElem _ _ hc
    refine ⟨(R.lists[c], c), List.mem_zipIdx_iff_getElem?.mpr (List.getElem?_eq_getElem hc), first + i,
      ?_, Nat.add_sub_cancel_left first i, rfl⟩
    rw [← hregion]
    exact (hwindow _ (R.region_ascending c) _).mpr ⟨hmem, Nat.le_add_right first i, hlast⟩

lemma length_threadMask (t : ℕ) :
    (BitTable.setAll (maskSize R.lists)
      (BitTable.zeros 32 (maskSize R.lists * (E.distribution.border (t + 1) - E.distribution.border t)))
      (marks R.lists (E.distribution.border t) (E.distribution.border (t + 1)))).length
        = maskSize R.lists * (E.distribution.border (t + 1) - E.distribution.border t) := by
  rw [BitTable.length_setAll, BitTable.length_zeros]

lemma length_fillRegionMask : (fillRegionMask E R.lists).length = maskSize R.lists * E.size :=
  length_flatMap_rows E.distribution fun t _ => R.length_threadMask t

/-- **The rows of bits** say which elements are in which regions. -/
theorem get_fillRegionMask {e c : ℕ} (he : e < E.size) (hc : c / 32 < maskSize R.lists) :
    BitTable.get (maskSize R.lists) (fillRegionMask E R.lists) e c = decide (e ∈ R.region c) := by
  obtain ⟨t, ht, hlow, hhigh⟩ := E.distribution.exists_range he
  have hmono := E.distribution.border_mono (Nat.le_add_right t 1) ht
  have hrow : ∀ k < maskSize R.lists, (fillRegionMask E R.lists)[maskSize R.lists * e + k]? = _ :=
    fun k hk => getElem?_flatMap_rows E.distribution (fun t _ => R.length_threadMask t) ht hlow hhigh hk
  have hmarks : ∀ m ∈ marks R.lists (E.distribution.border t) (E.distribution.border (t + 1)),
      m.2 / 32 < maskSize R.lists ∧ maskSize R.lists * m.1 + m.2 / 32
        < (BitTable.zeros 32 (maskSize R.lists *
            (E.distribution.border (t + 1) - E.distribution.border t))).length := by
    rintro ⟨i, r⟩ hm
    obtain ⟨hlast, hmem⟩ := (R.mem_marks hmono).mp hm
    have hr : r / 32 < maskSize R.lists := by
      refine R.lt_maskSize ?_
      by_contra hge
      rw [region, List.getD_eq_default _ _ (Nat.le_of_not_lt hge)] at hmem
      exact absurd hmem List.not_mem_nil
    have hle := Nat.mul_le_mul_left (maskSize R.lists)
      (show i + 1 ≤ E.distribution.border (t + 1) - E.distribution.border t by omega)
    rw [Nat.mul_succ] at hle
    rw [BitTable.length_zeros]
    dsimp only
    exact ⟨hr, by omega⟩
  rw [BitTable.get_congr hrow hc, BitTable.get_setAll (by decide) hmarks _ hc, BitTable.get_zeros,
    Bool.false_or]
  refine decide_eq_decide.mpr ((R.mem_marks hmono).trans ?_)
  rw [Nat.add_sub_cancel' hlow]
  exact and_iff_right hhigh

/-! ## Elements of one region -/

end Regions

def shiftIntervals (offset : ℕ) : List ElementsInterval → List ElementsInterval
  | [] => []
  | i :: rest =>
    { i with begin' := offset + i.begin', end' := offset + i.end' }
      :: shiftIntervals (offset + i.end') rest

/-- What a region of elements gets. -/
structure Arranged where
  eintervals : List ElementsInterval
  ueintervals : List ElementsInterval
  uniqueElements : List ℕ

section Arrange

variable (E : Elements) (regions : List (List ℕ)) (r : ℕ)

/-- `eintervals` of a region: the positions in its list. -/
def regionIntervals : List ElementsInterval :=
  E.eintervals.map fun i =>
    { i with begin' := lowerBound (regions.getD r []) i.begin', end' :=
        lowerBound (regions.getD r []) i.end' }

def singleMask : List Bits := (List.replicate (maskSize regions) 0).set (r / 32) (BitTable.mask 32 r)

/-- The values that an interval adds to `unique`: `e` runs through the positions of the interval in
the list of the region, and the row with this number is compared with the mask. -/
def uniqueOf (i : ElementsInterval) : List ℕ :=
  (List.range' i.begin' (i.end' - i.begin')).filter fun e =>
    window (fillRegionMask E regions) (maskSize regions * e) (maskSize regions * e + maskSize regions)
      = singleMask regions r

/-- `unique` of a thread. -/
def threadUnique (t : ℕ) : List ℕ :=
  (E.threadIntervals t).flatMap fun i =>
    ((regionIntervals E regions r)[i]?.map (uniqueOf E regions r)).getD []

/-- **The part of `MeshPreprocessing::arrangeRegions` about region `r` of elements.** -/
def arrangeRegion : Arranged :=
  let eintervals := regionIntervals E regions r
  let counted := eintervals.zipIdx.map fun i =>
    if i.2 ∈ (List.range E.threads).flatMap E.threadIntervals then
      { i.1 with begin' := 0, end' := (uniqueOf E regions r i.1).length }
    else i.1
  let ueintervals := shiftIntervals 0 counted
  { eintervals, ueintervals
    uniqueElements := if eintervals = ueintervals then regions.getD r []
      else (List.range E.threads).flatMap (threadUnique E regions r) }

end Arrange

namespace Regions

variable {E : Elements} (R : Regions E)

/-- Element `e` lies in region `r` and in no other region, where the region of all elements does not
count. -/
def Unique (r e : ℕ) : Prop := e ∈ R.region r ∧ ∀ s < R.lists.length, s ≠ 0 → s ≠ r → e ∉ R.region s

instance (r e : ℕ) : Decidable (R.Unique r e) := inferInstanceAs (Decidable (_ ∧ _))

/-- The unique elements of region `r` are stored in ascending order, and delimited for each
interval. -/
structure ArrangedRight (r : ℕ) (out : Arranged) : Prop where
  uniqueElements : out.uniqueElements = (List.range E.size).filter (R.Unique r)
  ueintervals : ∀ i < E.count, ∃ u, out.ueintervals[i]? = some u ∧
    window out.uniqueElements u.begin' u.end'
      = ((List.range' (E.borders.border i) (E.borders.border (i + 1) - E.borders.border i)).filter
          (R.Unique r))

/-! ### The rows of elements -/

lemma length_singleMask (r : ℕ) : (singleMask R.lists r).length = maskSize R.lists := by
  simp [singleMask]

lemma get_singleMask {r c : ℕ} (hr : r < R.lists.length) (hc : c / 32 < maskSize R.lists) :
    BitTable.get (maskSize R.lists) (singleMask R.lists r) 0 c = decide (c = r) := by
  have hlt := R.lt_maskSize hr
  have hset : singleMask R.lists r
      = BitTable.set (maskSize R.lists) (BitTable.zeros 32 (maskSize R.lists)) 0 r := by
    refine List.ext_getElem? fun k => ?_
    rw [singleMask, BitTable.set, BitTable.zeros, Nat.mul_zero, Nat.zero_add, List.getElem?_modify,
      List.getElem?_set]
    split_ifs with hk hk'
    · subst hk
      simp [hlt]
    · rw [List.length_replicate] at hk'
      exact absurd (hk ▸ hlt) hk'
    · simp
  rw [hset, BitTable.get_set (by decide) hlt (by simpa using hlt) hc, BitTable.get_zeros]
  simp

def row (e : ℕ) : List Bits :=
  window (fillRegionMask E R.lists) (maskSize R.lists * e) (maskSize R.lists * e + maskSize R.lists)

lemma length_row {e : ℕ} (he : e < E.size) : (R.row e).length = maskSize R.lists := by
  have hbound : maskSize R.lists * e + maskSize R.lists ≤ (fillRegionMask E R.lists).length := by
    rw [R.length_fillRegionMask, ← Nat.mul_succ]
    exact Nat.mul_le_mul_left _ he
  rw [row, length_window _ hbound, Nat.add_sub_cancel_left]

lemma get_row {e c : ℕ} (he : e < E.size) (hc : c / 32 < maskSize R.lists) :
    BitTable.get (maskSize R.lists) (R.row e) 0 c = decide (e ∈ R.region c) := by
  rw [← R.get_fillRegionMask he hc]
  refine BitTable.get_congr (fun k hk => ?_) hc
  rw [row, window, Nat.add_sub_cancel_left, Nat.mul_zero, Nat.zero_add,
    List.getElem?_take_of_lt hk, List.getElem?_drop]

lemma not_mem_region {c e : ℕ} (hc : R.lists.length ≤ c) : e ∉ R.region c := by
  rw [region, List.getD_eq_default _ _ hc]
  exact List.not_mem_nil

lemma row_eq_row {E' : Elements} {R' : Regions E'} (hlength : R.lists.length = R'.lists.length)
    {e e' : ℕ} (he : e < E.size) (he' : e' < E'.size) :
    R.row e = R'.row e' ↔ ∀ c < R.lists.length, e ∈ R.region c ↔ e' ∈ R'.region c := by
  have hsize : maskSize R'.lists = maskSize R.lists := by rw [maskSize, maskSize, hlength]
  have hget : ∀ c, c / 32 < maskSize R.lists →
      BitTable.get (maskSize R.lists) (R'.row e') 0 c = decide (e' ∈ R'.region c) := by
    intro c hc
    rw [← hsize] at hc ⊢
    exact R'.get_row he' hc
  rw [BitTable.row_ext (by decide) (R.length_row he) ((R'.length_row he').trans hsize)]
  constructor
  · intro h c hc
    have hword := R.lt_maskSize hc
    have hbit := h c hword
    rw [R.get_row he hword, hget c hword] at hbit
    exact decide_eq_decide.mp hbit
  · intro h c hword
    rw [R.get_row he hword, hget c hword]
    refine decide_eq_decide.mpr ?_
    rcases Nat.lt_or_ge c R.lists.length with hc | hc
    · exact h c hc
    · exact iff_of_false (R.not_mem_region hc) (R'.not_mem_region (hlength ▸ hc))

lemma row_eq_singleMask {r e : ℕ} (hr : r < R.lists.length) (he : e < E.size) :
    window (fillRegionMask E R.lists) (maskSize R.lists * e) (maskSize R.lists * e + maskSize R.lists)
        = singleMask R.lists r ↔ ∀ c < R.lists.length, e ∈ R.region c ↔ c = r := by
  change R.row e = singleMask R.lists r ↔ _
  rw [BitTable.row_ext (by decide) (R.length_row he) (R.length_singleMask r)]
  constructor
  · intro h c hc
    have hword := R.lt_maskSize hc
    have hbit := h c hword
    rw [R.get_row he hword, R.get_singleMask hr hword] at hbit
    exact decide_eq_decide.mp hbit
  · intro h c hword
    rw [R.get_row he hword, R.get_singleMask hr hword]
    refine decide_eq_decide.mpr ?_
    rcases Nat.lt_or_ge c R.lists.length with hc | hc
    · exact h c hc
    · exact iff_of_false (R.not_mem_region hc) (by omega)

lemma length_pos : 0 < R.lists.length := (List.getElem?_eq_some_iff.mp R.all).1

lemma mem_region_zero {e : ℕ} (he : e < E.size) : e ∈ R.region 0 := by
  rw [R.region_zero]
  exact List.mem_range.mpr he

lemma row_eq_zero {e : ℕ} (he : e < E.size) :
    window (fillRegionMask E R.lists) (maskSize R.lists * e) (maskSize R.lists * e + maskSize R.lists)
        = singleMask R.lists 0 ↔ R.Unique 0 e := by
  rw [R.row_eq_singleMask R.length_pos he]
  constructor
  · intro h
    exact ⟨R.mem_region_zero he, fun s hs hne _ hmem => hne ((h s hs).mp hmem)⟩
  · rintro ⟨-, h⟩ c hc
    constructor
    · intro hmem
      by_contra hne
      exact h c hc hne hne hmem
    · rintro rfl
      exact R.mem_region_zero he

lemma row_ne_singleMask {r e : ℕ} (hr : r < R.lists.length) (hne : r ≠ 0) (he : e < E.size) :
    window (fillRegionMask E R.lists) (maskSize R.lists * e) (maskSize R.lists * e + maskSize R.lists)
        ≠ singleMask R.lists r := by
  rw [Ne, R.row_eq_singleMask hr he]
  intro h
  exact hne ((h 0 R.length_pos).mp (R.mem_region_zero he)).symm

/-! ### The intervals of a region -/

/-- The positions of interval `i` in the list of region `r`. -/
def position (r i : ℕ) : ℕ := lowerBound (R.region r) (E.borders.border i)

lemma regionIntervals_getElem? {r i : ℕ} (hi : i < E.count) :
    (regionIntervals E R.lists r)[i]?
      = some ⟨R.position r i, R.position r (i + 1), E.domain i, E.code i⟩ := by
  simp [regionIntervals, Elements.eintervals, hi, position, region]

lemma length_regionIntervals (r : ℕ) : (regionIntervals E R.lists r).length = E.count := by
  simp [regionIntervals, Elements.eintervals]

/-- The values of `unique` for interval `i`. -/
def uniqueIn (r i : ℕ) : List ℕ :=
  uniqueOf E R.lists r ⟨R.position r i, R.position r (i + 1), E.domain i, E.code i⟩

lemma position_le (r i : ℕ) : R.position r i ≤ (R.region r).length := List.findIdx_le_length

lemma position_first (r : ℕ) : R.position r 0 = 0 := by
  rw [position, E.borders.border_zero, lowerBound]
  cases R.region r with
  | nil => rfl
  | cons e l => simp [List.findIdx_cons]

lemma length_region_le (r : ℕ) : (R.region r).length ≤ E.size := by
  have hnodup : (R.region r).Nodup := (R.region_ascending r).imp fun h => ne_of_lt h
  have hsub : R.region r ⊆ List.range E.size := fun e he => List.mem_range.mpr (R.region_within he)
  simpa using (hnodup.subperm hsub).length_le

lemma uniqueIn_eq_nil {r : ℕ} (hr : r < R.lists.length) (hne : r ≠ 0) (i : ℕ) :
    R.uniqueIn r i = [] := by
  refine List.filter_eq_nil_iff.mpr fun e he => ?_
  have hmem : R.position r i ≤ e ∧ e < R.position r i + (R.position r (i + 1) - R.position r i) :=
    List.mem_range'_1.mp he
  have hle := R.position_le r (i + 1)
  have hsize := R.length_region_le r
  simpa using R.row_ne_singleMask hr hne (show e < E.size by omega)

lemma position_zero {i : ℕ} (hi : i ≤ E.count) : R.position 0 i = E.borders.border i := by
  have hle := E.borders.border_le_total hi
  rw [position, R.region_zero]
  rcases Nat.lt_or_eq_of_le hle with hlt | heq
  · exact lowerBound_getElem? List.pairwise_lt_range (List.getElem?_range hlt)
  · rw [heq, lowerBound_eq_length fun e he => List.mem_range.mp he, List.length_range]

lemma uniqueIn_zero {i : ℕ} (hi : i < E.count) :
    R.uniqueIn 0 i
      = (List.range' (E.borders.border i) (E.borders.border (i + 1) - E.borders.border i)).filter
          (R.Unique 0) := by
  rw [uniqueIn, uniqueOf, R.position_zero hi.le, R.position_zero hi]
  refine List.filter_congr fun e he => ?_
  have hle := E.borders.border_le_total (show i + 1 ≤ E.count from hi)
  have hmem : E.borders.border i ≤ e ∧
      e < E.borders.border i + (E.borders.border (i + 1) - E.borders.border i) :=
    List.mem_range'_1.mp he
  exact decide_eq_decide.mpr (R.row_eq_zero (by omega))

/-! ### The result -/

lemma threadUnique_eq (r t : ℕ) (ht : t < E.threads) :
    threadUnique E R.lists r t = (E.threadIntervals t).flatMap (R.uniqueIn r) := by
  refine List.flatMap_congr fun i hi => ?_
  have hmem : i ∈ (List.range E.threads).flatMap E.threadIntervals :=
    List.mem_flatMap.mpr ⟨t, List.mem_range.mpr ht, hi⟩
  rw [E.flatMap_threadIntervals, List.mem_range] at hmem
  rw [R.regionIntervals_getElem? hmem]
  rfl

lemma flatMap_threadUnique (r : ℕ) :
    (List.range E.threads).flatMap (threadUnique E R.lists r)
      = (List.range E.count).flatMap (R.uniqueIn r) := by
  rw [List.flatMap_congr fun t ht => R.threadUnique_eq r t (List.mem_range.mp ht),
    ← E.flatMap_threadIntervals]
  exact List.flatMap_assoc.symm

abbrev uniques (r : ℕ) : Distribution E.count ((List.range E.count).map fun i =>
    (R.uniqueIn r i).length).sum :=
  Distribution.ofSizes E.count fun i => (R.uniqueIn r i).length

lemma window_uniques (r : ℕ) {i : ℕ} (hi : i < E.count) :
    window ((List.range E.count).flatMap (R.uniqueIn r)) ((R.uniques r).border i)
      ((R.uniques r).border (i + 1)) = R.uniqueIn r i := by
  have hlen : ∀ i < E.count,
      (R.uniqueIn r i).length = (R.uniques r).border (i + 1) - (R.uniques r).border i := by
    intro i hi
    rw [Distribution.ofSizes_border_succ hi, Nat.add_sub_cancel_left]
  exact (buffer_eq_window (R.uniques r) hlen hi).symm

end Regions

lemma shiftIntervals_getElem? (offset i : ℕ) (l : List ElementsInterval) :
    (shiftIntervals offset l)[i]? = (l[i]?).map fun I =>
      { I with begin' := offset + ((l.take i).map ElementsInterval.end').sum + I.begin', end' :=
          offset + ((l.take i).map ElementsInterval.end').sum + I.end' } := by
  induction l generalizing offset i with
  | nil => rfl
  | cons I l ih =>
      rw [shiftIntervals]
      cases i with
      | zero => rfl
      | succ i =>
          rw [List.getElem?_cons_succ, List.getElem?_cons_succ, ih, List.take_succ_cons, List.map_cons,
            List.sum_cons, Nat.add_assoc offset]

namespace Regions

variable {E : Elements} (R : Regions E)

lemma ueintervals_eq (r : ℕ) :
    (arrangeRegion E R.lists r).ueintervals = (List.range E.count).map fun i =>
      ⟨(R.uniques r).border i, (R.uniques r).border (i + 1), E.domain i, E.code i⟩ := by
  have hcounted : ((regionIntervals E R.lists r).zipIdx.map fun i =>
      if i.2 ∈ (List.range E.threads).flatMap E.threadIntervals then
        { i.1 with begin' := 0, end' := (uniqueOf E R.lists r i.1).length }
      else i.1) = (List.range E.count).map fun i =>
        ⟨0, (R.uniqueIn r i).length, E.domain i, E.code i⟩ := by
    refine List.ext_getElem? fun i => ?_
    rw [List.getElem?_map, List.getElem?_zipIdx, List.getElem?_map, E.flatMap_threadIntervals]
    rcases Nat.lt_or_ge i E.count with hi | hi
    · rw [R.regionIntervals_getElem? hi, List.getElem?_range hi]
      simp only [Option.map_some, Nat.zero_add, List.mem_range, if_pos hi]
      rfl
    · rw [List.getElem?_eq_none (by rw [R.length_regionIntervals]; exact hi),
        List.getElem?_eq_none (by simpa using hi)]
      rfl
  refine List.ext_getElem? fun i => ?_
  simp only [arrangeRegion]
  rw [hcounted, shiftIntervals_getElem?, List.getElem?_map, List.getElem?_map]
  rcases Nat.lt_or_ge i E.count with hi | hi
  · rw [List.getElem?_range hi, ← List.map_take, List.take_range, List.map_map,
      Nat.min_eq_left hi.le]
    simp only [Option.map_some, Nat.zero_add, Nat.add_zero, Function.comp_def]
    rw [Distribution.ofSizes_border_succ hi, Distribution.ofSizes_border hi.le]
  · rw [List.getElem?_eq_none (by simpa using hi)]
    rfl

lemma position_eq_of_intervals {r i : ℕ} (hi : i < E.count)
    (h : (arrangeRegion E R.lists r).eintervals = (arrangeRegion E R.lists r).ueintervals) :
    R.position r i = (R.uniques r).border i ∧ R.position r (i + 1) = (R.uniques r).border (i + 1) := by
  have hentry := congrArg (·[i]?) h
  rw [R.ueintervals_eq] at hentry
  simp only [arrangeRegion, R.regionIntervals_getElem? hi, List.getElem?_map,
    List.getElem?_range hi, Option.map_some, Option.some.injEq, ElementsInterval.mk.injEq] at hentry
  exact ⟨hentry.1, hentry.2.1⟩

lemma uniqueElements_zero :
    (arrangeRegion E R.lists 0).uniqueElements = (List.range E.count).flatMap (R.uniqueIn 0) := by
  by_cases h : (arrangeRegion E R.lists 0).eintervals = (arrangeRegion E R.lists 0).ueintervals
  · have hfull : ∀ i ∈ List.range E.count, List.range' (E.borders.border i)
        (E.borders.border (i + 1) - E.borders.border i) = R.uniqueIn 0 i := by
      intro i hi
      have hlt := List.mem_range.mp hi
      obtain ⟨hfirst, hlast⟩ := R.position_eq_of_intervals hlt h
      rw [Distribution.ofSizes_border_succ hlt, ← hfirst,
        R.position_zero (show i + 1 ≤ E.count from hlt), R.position_zero hlt.le,
        R.uniqueIn_zero hlt] at hlast
      rw [R.uniqueIn_zero hlt]
      refine ((List.filter_sublist).eq_of_length ?_).symm
      rw [List.length_range']
      omega
    have hall := (flatMap_range' E.borders.border E.count fun i hi =>
      E.borders.border_mono (Nat.le_add_right i 1) hi).1
    have hregion : (arrangeRegion E R.lists 0).uniqueElements = R.region 0 := if_pos h
    rw [hregion, R.region_zero, ← List.flatMap_congr hfull, hall, E.borders.border_zero,
      E.borders.border_size, List.range_eq_range', Nat.sub_zero]
  · have hunique : (arrangeRegion E R.lists 0).uniqueElements
        = (List.range E.threads).flatMap (threadUnique E R.lists 0) := if_neg h
    rw [hunique, R.flatMap_threadUnique]

lemma uniqueElements_other {r : ℕ} (hr : r < R.lists.length) (hne : r ≠ 0) :
    (arrangeRegion E R.lists r).uniqueElements = [] := by
  by_cases h : (arrangeRegion E R.lists r).eintervals = (arrangeRegion E R.lists r).ueintervals
  · have hregion : (arrangeRegion E R.lists r).uniqueElements = R.region r := if_pos h
    have hborder : ∀ i ≤ E.count, (R.uniques r).border i = 0 := by
      intro i hi
      rw [Distribution.ofSizes_border hi]
      refine List.sum_eq_zero fun n hn => ?_
      obtain ⟨j, -, rfl⟩ := List.mem_map.mp hn
      rw [R.uniqueIn_eq_nil hr hne, List.length_nil]
    have hlast : R.position r E.count = (R.region r).length := by
      rw [position, E.borders.border_size]
      exact lowerBound_eq_length fun e he => R.region_within he
    rw [hregion]
    refine List.length_eq_zero_iff.mp ?_
    rcases Nat.eq_zero_or_pos E.count with hzero | hpos
    · have hfirst : R.position r E.count = R.position r 0 := congrArg (R.position r) hzero
      rw [← hlast, hfirst]
      exact R.position_first r
    · have hend := (R.position_eq_of_intervals (show E.count - 1 < E.count by omega) h).2
      rw [Nat.sub_add_cancel hpos, hborder _ le_rfl, hlast] at hend
      exact hend
  · have hunique : (arrangeRegion E R.lists r).uniqueElements
        = (List.range E.threads).flatMap (threadUnique E R.lists r) := if_neg h
    rw [hunique, R.flatMap_threadUnique]
    exact List.flatMap_eq_nil_iff.mpr fun i _ => R.uniqueIn_eq_nil hr hne i

lemma arrangedRight_zero : R.ArrangedRight 0 (arrangeRegion E R.lists 0) := by
  have hall := (flatMap_range' E.borders.border E.count fun i hi =>
    E.borders.border_mono (Nat.le_add_right i 1) hi).1
  constructor
  · rw [R.uniqueElements_zero, List.flatMap_congr fun i hi => R.uniqueIn_zero (List.mem_range.mp hi),
      ← List.filter_flatMap, hall, E.borders.border_zero, E.borders.border_size, Nat.sub_zero,
      List.range_eq_range']
  · intro i hi
    refine ⟨_, by rw [R.ueintervals_eq, List.getElem?_map, List.getElem?_range hi]; rfl, ?_⟩
    rw [R.uniqueElements_zero, R.window_uniques 0 hi, R.uniqueIn_zero hi]

lemma arrangedRight_other {r : ℕ} (hr : r < R.lists.length) (hne : r ≠ 0) :
    R.ArrangedRight r (arrangeRegion E R.lists r) ↔ ∀ e, ¬R.Unique r e := by
  constructor
  · intro h e he
    have hlist := h.uniqueElements
    rw [R.uniqueElements_other hr hne] at hlist
    have hmem : e ∈ (List.range E.size).filter (R.Unique r) :=
      List.mem_filter.mpr ⟨List.mem_range.mpr (R.region_within he.1), decide_eq_true he⟩
    rw [← hlist] at hmem
    exact List.not_mem_nil hmem
  · intro h
    constructor
    · rw [R.uniqueElements_other hr hne]
      exact (List.filter_eq_nil_iff.mpr fun e _ => by simpa using h e).symm
    · intro i hi
      refine ⟨_, by rw [R.ueintervals_eq, List.getElem?_map, List.getElem?_range hi]; rfl, ?_⟩
      rw [R.uniqueElements_other hr hne, List.filter_eq_nil_iff.mpr fun e _ => by simpa using h e]
      simp [window]

/-- **The unique elements** are right in all regions exactly if no element lies in one region only,
where the region of all elements does not count: a row of bits always has the bit of that region. -/
theorem arranged_iff :
    (∀ r < R.lists.length, R.ArrangedRight r (arrangeRegion E R.lists r)) ↔
      ∀ r < R.lists.length, r ≠ 0 → ∀ e, ¬R.Unique r e := by
  constructor
  · intro h r hr hne
    exact (R.arrangedRight_other hr hne).mp (h r hr)
  · intro h r hr
    rcases Nat.eq_zero_or_pos r with rfl | hpos
    · exact R.arrangedRight_zero
    · exact (R.arrangedRight_other hr hpos.ne').mpr (h r hr hpos.ne')

end Regions

/-! ## An element of one region -/

def twoElements : Elements where
  threads := 1
  size := 2
  ndomains := 1
  count := 1
  distribution := Distribution.uniform Nat.one_pos 2
  domainDistribution := Distribution.uniform Nat.one_pos 1
  eintervalsDistribution := Distribution.uniform Nat.one_pos 1
  borders := Distribution.uniform Nat.one_pos 2
  domain := fun _ => 0
  code := fun _ => 3

lemma lastElement_ascending : ∀ l ∈ [[0, 1], [1]], l.Pairwise (· < ·) := by decide

lemma lastElement_within : ∀ l ∈ [[0, 1], [1]], ∀ e ∈ l, e < 2 := by decide

lemma lastElement_all : ([[0, 1], [1]] : List (List ℕ))[0]? = some (List.range 2) := rfl

/-- Besides the region of all elements, there is a region of the second. -/
def lastElement : Regions twoElements where
  lists := [[0, 1], [1]]
  ascending := lastElement_ascending
  within := lastElement_within
  all := lastElement_all

/-- The second element lies in the second region only, which gets no unique element. -/
theorem lastElement_not_arranged :
    ¬∀ r < lastElement.lists.length,
      lastElement.ArrangedRight r (arrangeRegion twoElements lastElement.lists r) := by
  intro h
  have hlist := (h 1 (by decide)).uniqueElements
  revert hlist
  decide

end Espreso
