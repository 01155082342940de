import Espreso.Basis.Utils
import Espreso.Lib.Fallible
import Mathlib.Data.List.AList

/-!
# Elements without a region

Boundary elements that belong to no region of the input are put into the regions `NAMELESS_FACE_SET`
and `NAMELESS_EDGE_SET`, such that the boundary regions of a dimension have all its elements.

* `unnamedSet` — the complement of the named elements, as `Input::fillBoundaryRegions` builds it.
* **`nameless_complement_iff`** — when the nameless sets are the complements.
-/

namespace Espreso

namespace Input

/-! ## The complement of a sorted list -/

/-- The loop over the indices of the interval, which ends with the named elements; `k` indices are
left. -/
def fillUnnamed : ℕ → ℕ → List ℕ → List ℕ
  | 0, _, _ => []
  | _ + 1, _, [] => []
  | k + 1, index, nit :: named =>
    if nit ≠ index then index :: fillUnnamed k (index + 1) (nit :: named)
    else fillUnnamed k (index + 1) named

/-- `unnamed` of the interval from `a` to `b`, behind its entries `prev`. `std::iota` from behind
the end of the vector does not return, and there is no vector with a negative size. -/
def unnamedSet (a b : ℕ) (named prev : List ℕ) : Option (List ℕ) :=
  let unnamed := prev ++ fillUnnamed (b - a) a named
  let last := match named.getLast? with
    | some back => if a < back then back + 1 else a
    | none => a
  if named.length ≤ b - a ∧ unnamed.length ≤ b - a - named.length then
    some (unnamed ++ List.range' last (b - a - named.length - unnamed.length))
  else none

def behindNamed (index : ℕ) (named : List ℕ) : ℕ := (named.getLast?.map (· + 1)).getD index

lemma behindNamed_cons (index n : ℕ) (named : List ℕ) :
    behindNamed index (n :: named) = behindNamed (n + 1) named := by
  rcases named with _ | ⟨m, named⟩
  · rfl
  · rw [behindNamed, behindNamed, List.getLast?_cons_cons]
    rcases h : (m :: named).getLast? with _ | back
    · simp at h
    · rfl

lemma fillUnnamed_append {named : List ℕ} (k index : ℕ) (hnamed : named.Pairwise (· < ·))
    (hin : ∀ n ∈ named, index ≤ n ∧ n < index + k) :
    fillUnnamed k index named
        ++ List.range' (behindNamed index named) (index + k - behindNamed index named)
      = (List.range' index k).filter (fun e => e ∉ named) ∧
    (fillUnnamed k index named).length + named.length + index = behindNamed index named ∧
    behindNamed index named ≤ index + k := by
  induction k generalizing index named with
  | zero =>
      obtain rfl : named = [] := List.eq_nil_iff_forall_not_mem.mpr fun n hn => by
        have := hin n hn
        omega
      simp [fillUnnamed, behindNamed]
  | succ k ih =>
      rcases named with _ | ⟨n, named⟩
      · simp [fillUnnamed, behindNamed]
      obtain ⟨hlt, hsorted⟩ := List.pairwise_cons.mp hnamed
      have hn := hin n List.mem_cons_self
      rw [List.range'_succ, fillUnnamed]
      by_cases heq : n = index
      · -- the index is named
        subst heq
        have hrest : ∀ m ∈ named, n + 1 ≤ m ∧ m < n + 1 + k := by
          intro m hm
          have := hlt m hm
          have := hin m (List.mem_cons_of_mem n hm)
          omega
        obtain ⟨happend, hlength, hle⟩ := ih (n + 1) hsorted hrest
        have hfilter : (List.range' (n + 1) k).filter (fun e => e ∉ n :: named)
            = (List.range' (n + 1) k).filter (fun e => e ∉ named) := by
          refine List.filter_congr fun e he => ?_
          have hne : e ≠ n := by
            have := List.mem_range'_1.mp he
            omega
          simp [hne]
        rw [if_neg (not_not.mpr rfl), behindNamed_cons, List.filter_cons_of_neg (by simp), hfilter,
          show n + (k + 1) = n + 1 + k by omega, List.length_cons]
        exact ⟨happend, by omega, hle⟩
      · have hrest : ∀ m ∈ n :: named, index + 1 ≤ m ∧ m < index + 1 + k := by
          intro m hm
          have hm' := hin m hm
          rcases List.mem_cons.mp hm with rfl | hmem
          · omega
          · have := hlt m hmem
            omega
        obtain ⟨happend, hlength, hle⟩ := ih (index + 1) hnamed hrest
        have hindex : index ∉ n :: named := fun h => by
          have := hrest index h
          omega
        rw [behindNamed_cons] at happend hlength hle ⊢
        rw [if_pos heq, List.cons_append, show index + (k + 1) = index + 1 + k by omega, happend,
          List.filter_cons_of_pos (by simpa using hindex), List.length_cons]
        exact ⟨rfl, by omega, hle⟩

lemma unnamedSet_eq {a b : ℕ} {named : List ℕ} (hnamed : named.Pairwise (· < ·))
    (hin : ∀ n ∈ named, a ≤ n ∧ n < b) :
    unnamedSet a b named [] = some (if named = [a] then List.range' a (b - a - 1)
      else (List.range' a (b - a)).filter (fun e => e ∉ named)) := by
  obtain ⟨happend, hlength, hle⟩ := fillUnnamed_append (b - a) a hnamed fun n hn => by
    have := hin n hn
    omega
  rw [unnamedSet, List.nil_append]
  have hfits : named.length ≤ b - a ∧
      (fillUnnamed (b - a) a named).length ≤ b - a - named.length := by omega
  rw [if_pos hfits]
  refine congrArg some ?_
  split_ifs with hfirst
  · subst hfirst
    have hempty : fillUnnamed (b - a) a [a] = [] := by
      rcases b - a with _ | k
      · rfl
      · rw [fillUnnamed, if_neg (not_not.mpr rfl)]
        rcases k with _ | k <;> rfl
    rw [hempty]
    simp
  · have hlast : (match named.getLast? with
        | some back => if a < back then back + 1 else a
        | none => a) = behindNamed a named := by
      rw [behindNamed]
      rcases hback : named.getLast? with _ | back
      · rfl
      · -- the last named index is behind the first one
        have hlt : a < back := by
          obtain ⟨front, rfl⟩ := List.getLast?_eq_some_iff.mp hback
          have hmem := hin back (List.mem_append_right _ (List.mem_singleton_self back))
          rcases front with _ | ⟨n, front⟩
          · refine lt_of_le_of_ne hmem.1 fun h => hfirst ?_
            rw [h, List.nil_append]
          · have hn := hin n (List.mem_append_left _ List.mem_cons_self)
            have := (List.pairwise_append.mp hnamed).2.2 n List.mem_cons_self back
              (List.mem_singleton_self back)
            omega
        simp only [if_pos hlt, Option.map_some, Option.getD_some]
    rw [← happend, hlast, show b - a - named.length - (fillUnnamed (b - a) a named).length
      = a + (b - a) - behindNamed a named by omega]

lemma unnamedSet_append {a b : ℕ} {named prev out : List ℕ}
    (h : unnamedSet a b named prev = some out) : ∃ rest, out = prev ++ rest := by
  obtain ⟨-, hout⟩ := Option.ite_none_right_eq_some.mp h
  exact ⟨_, by rw [← Option.some.inj hout, List.append_assoc]⟩

/-! ## The regions of all ranks -/

/-- The regions of elements on a rank, and where elements of the next type begin. -/
structure RegionData where
  etypeDistribution : List ℕ
  eregions : AList fun _ : String => List ℕ

namespace RegionData

variable (D : RegionData)

/-- `_etypeDistribution[i]` -/
def border (i : ℕ) : ℕ := D.etypeDistribution.getD i 0

/-- The elements of a boundary dimension: faces for `i = 0`, and edges for `i = 1`. -/
def InInterval (i e : ℕ) : Prop := D.border i ≤ e ∧ e < D.border (i + 1)

instance (i e : ℕ) : Decidable (D.InInterval i e) := inferInstanceAs (Decidable (_ ∧ _))

def fromInterval (estart i : ℕ) (region : List ℕ) : List ℕ :=
  match region with
  | [] => []
  | front :: rest => if D.border estart ≤ front ∧ D.InInterval i front then front :: rest else []

/-- `named`: the elements of regions of a dimension. -/
def named (estart i : ℕ) : List ℕ :=
  sortAndRemoveDuplicity (D.eregions.entries.flatMap fun region => D.fromInterval estart i region.2)

def namelessSet (i : ℕ) : String := if i = 1 then "NAMELESS_EDGE_SET" else "NAMELESS_FACE_SET"

/-- The elements of a region; `eregions[name]` adds it if there is none. -/
def elementsOf (name : String) : List ℕ := (D.eregions.lookup name).getD []

/-- `hasunnamed` -/
def hasUnnamed (estart i : ℕ) : Bool :=
  (D.named estart i).length < D.border (i + 1) - D.border i

/-- The elements without a region are put into the nameless set. -/
def addUnnamed (estart i : ℕ) : Option RegionData := do
  let unnamed ← unnamedSet (D.border i) (D.border (i + 1)) (D.named estart i)
    (D.elementsOf (namelessSet i))
  pure { D with eregions := D.eregions.insert (namelessSet i) unnamed }

end RegionData

def fillDimension (estart : ℕ) (data : List RegionData) (i : ℕ) : Option (List RegionData) :=
  if data.any fun D => D.hasUnnamed estart i then data.mapM fun D => D.addUnnamed estart i
  else some data

def estart (dimension : ℕ) : ℕ := if dimension = 3 then 0 else 1

def dimensions (dimension : ℕ) : List ℕ := List.range' (estart dimension) (2 - estart dimension)

/-- **The nameless sets of `Input::fillBoundaryRegions`** on all ranks. -/
def fillBoundaryRegions (dimension : ℕ) (data : List RegionData) : Option (List RegionData) :=
  (dimensions dimension).foldlM (fillDimension (estart dimension)) data

/-- Element `e` is in a region. -/
def RegionData.Named (D : RegionData) (e : ℕ) : Prop :=
  ∃ name region, D.eregions.lookup name = some region ∧ e ∈ region

/-- A region that has an element of dimension `i` has no others. -/
def RegionData.OneDimension (D : RegionData) (i : ℕ) : Prop :=
  ∀ name region, D.eregions.lookup name = some region →
    ∀ e ∈ region, D.InInterval i e → ∀ f ∈ region, D.InInterval i f

/-- The input: types of elements are sorted, and a region that has an element of a boundary
dimension has no others. -/
structure RegionInput where
  dimension : ℕ
  data : List RegionData
  sorted : ∀ D ∈ data, D.border 0 ≤ D.border 1 ∧ D.border 1 ≤ D.border 2
  one_dimension : ∀ D ∈ data, ∀ i ∈ dimensions dimension, D.OneDimension i

/-- **The nameless set is the complement**: behind the function it has exactly the elements of the
dimension that are in no region of the input, each once. -/
def Complement (i : ℕ) (D D' : RegionData) : Prop :=
  (D'.elementsOf (RegionData.namelessSet i)).Nodup ∧
    ∀ e, e ∈ D'.elementsOf (RegionData.namelessSet i) ↔ D.InInterval i e ∧ ¬D.Named e

/-- **When a nameless set is the complement**: the input has no elements in a region with its name,
and the first element of the dimension is not the only one that is in a region of the input, or it
is the only element. -/
structure Fillable (i : ℕ) (D : RegionData) : Prop where
  fresh : D.elementsOf (RegionData.namelessSet i) = []
  not_first : ¬(D.Named (D.border i) ∧ (∀ e, D.Named e → D.InInterval i e → e = D.border i) ∧
    D.border i + 1 < D.border (i + 1))

/-! ## A dimension -/

lemma named_sorted {D : RegionData} {s i : ℕ} : (D.named s i).Pairwise (· < ·) :=
  sortAndRemoveDuplicity_sorted _

section Rank

variable {D D' : RegionData} {s i : ℕ} (hs : D.border s ≤ D.border i) (hone : D.OneDimension i)

include hs hone

lemma mem_named {e : ℕ} : e ∈ D.named s i ↔ D.InInterval i e ∧ D.Named e := by
  rw [RegionData.named, mem_sortAndRemoveDuplicity, List.mem_flatMap]
  constructor
  · rintro ⟨⟨name, region⟩, hregion, he⟩
    have hlookup := AList.mem_lookup_iff.mpr hregion
    rcases region with _ | ⟨front, rest⟩
    · exact absurd he List.not_mem_nil
    · obtain ⟨⟨-, hfront⟩, he⟩ := List.mem_ite_nil_right.mp he
      exact ⟨hone name _ hlookup front List.mem_cons_self hfront e he, name, _, hlookup, he⟩
  · rintro ⟨hin, name, region, hlookup, he⟩
    refine ⟨⟨name, region⟩, AList.mem_lookup_iff.mp hlookup, ?_⟩
    rcases region with _ | ⟨front, rest⟩
    · exact he
    · have hfront := hone name _ hlookup e he hin front List.mem_cons_self
      exact List.mem_ite_nil_right.mpr ⟨⟨hs.trans hfront.1, hfront⟩, he⟩

lemma named_in {n : ℕ} (hn : n ∈ D.named s i) : D.border i ≤ n ∧ n < D.border (i + 1) :=
  ((mem_named hs hone).mp hn).1

lemma named_eq_singleton_iff : D.named s i = [D.border i] ↔ D.border i < D.border (i + 1) ∧
    D.Named (D.border i) ∧ ∀ e, D.Named e → D.InInterval i e → e = D.border i := by
  constructor
  · intro h
    have hfirst := (mem_named hs hone).mp (h ▸ List.mem_singleton_self (D.border i))
    refine ⟨hfirst.1.2, hfirst.2, fun e he hin => ?_⟩
    exact List.mem_singleton.mp (h ▸ (mem_named hs hone).mpr ⟨hin, he⟩)
  · rintro ⟨hlt, hfirst, hall⟩
    refine List.Pairwise.eq_of_mem_iff named_sorted (List.pairwise_singleton _ _) fun e => ?_
    rw [mem_named hs hone, List.mem_singleton]
    constructor
    · rintro ⟨hin, he⟩
      exact hall e he hin
    · rintro rfl
      exact ⟨⟨le_rfl, hlt⟩, hfirst⟩

/-- The set that the code builds for a rank is the complement, unless only the first element is
named. -/
lemma complement_iff_of_eq (hfresh : D.elementsOf (RegionData.namelessSet i) = [])
    (hout : D'.elementsOf (RegionData.namelessSet i) = if D.named s i = [D.border i] then
      List.range' (D.border i) (D.border (i + 1) - D.border i - 1)
      else (List.range' (D.border i) (D.border (i + 1) - D.border i)).filter
        (fun e => e ∉ D.named s i)) :
    Complement i D D' ↔ Fillable i D := by
  rw [Complement, hout]
  by_cases hfirst : D.named s i = [D.border i]
  · obtain ⟨hlt, hnamed, hall⟩ := (named_eq_singleton_iff hs hone).mp hfirst
    rw [if_pos hfirst]
    constructor
    · rintro ⟨-, hmem⟩
      refine ⟨hfresh, fun h => ?_⟩
      have hin : D.border i ∈ List.range' (D.border i) (D.border (i + 1) - D.border i - 1) :=
        List.mem_range'_1.mpr (by omega)
      exact ((hmem _).mp hin).2 hnamed
    · intro h
      have hsingle : D.border (i + 1) - D.border i - 1 = 0 := by
        by_contra hne
        exact h.not_first ⟨hnamed, hall, by omega⟩
      rw [hsingle]
      refine ⟨List.nodup_nil, fun e => ⟨fun he => absurd he List.not_mem_nil, ?_⟩⟩
      rintro ⟨hin, hnot⟩
      have heq : e = D.border i := by
        have := hin.1
        have := hin.2
        omega
      exact absurd (heq ▸ hnamed) hnot
  · rw [if_neg hfirst]
    constructor
    · intro _
      refine ⟨hfresh, fun h => hfirst ((named_eq_singleton_iff hs hone).mpr ?_)⟩
      exact ⟨by omega, h.1, h.2.1⟩
    · intro _
      refine ⟨List.Nodup.filter _ List.nodup_range', fun e => ?_⟩
      rw [List.mem_filter, List.mem_range'_1, decide_eq_true_eq, mem_named hs hone]
      constructor
      · rintro ⟨hin, hnot⟩
        have hin' : D.InInterval i e := ⟨hin.1, by omega⟩
        exact ⟨hin', fun h => hnot ⟨hin', h⟩⟩
      · rintro ⟨hin, hnot⟩
        have := hin.1
        have := hin.2
        exact ⟨⟨hin.1, by omega⟩, fun h => hnot h.2⟩

omit hs hone in
lemma fresh_of_complement {rest : List ℕ} (h : Complement i D D')
    (hout : D'.elementsOf (RegionData.namelessSet i)
      = D.elementsOf (RegionData.namelessSet i) ++ rest) :
    D.elementsOf (RegionData.namelessSet i) = [] := by
  refine List.eq_nil_iff_forall_not_mem.mpr fun e he => ?_
  have hmem : e ∈ D'.elementsOf (RegionData.namelessSet i) := by
    rw [hout]
    exact List.mem_append_left _ he
  refine ((h.2 e).mp hmem).2 ?_
  rw [RegionData.elementsOf] at he
  rcases hlookup : D.eregions.lookup (RegionData.namelessSet i) with _ | region
  · rw [hlookup] at he
    exact absurd he List.not_mem_nil
  · rw [hlookup] at he
    exact ⟨_, region, hlookup, he⟩

lemma complement_self_iff (hall : D.hasUnnamed s i = false) : Complement i D D ↔ Fillable i D := by
  have hnamed : ∀ e, D.InInterval i e → D.Named e := by
    intro e he
    have hsub : D.named s i ⊆ List.range' (D.border i) (D.border (i + 1) - D.border i) := by
      intro n hn
      have := named_in hs hone hn
      exact List.mem_range'_1.mpr (by omega)
    have hnodup : (D.named s i).Nodup := named_sorted.imp fun h => h.ne
    have hlength : D.border (i + 1) - D.border i ≤ (D.named s i).length := by
      simpa [RegionData.hasUnnamed] using hall
    have hperm := (List.subperm_of_subset hnodup hsub).perm_of_length_le
      (by rwa [List.length_range'])
    have hmem : e ∈ List.range' (D.border i) (D.border (i + 1) - D.border i) := by
      have := he.1
      have := he.2
      exact List.mem_range'_1.mpr (by omega)
    exact ((mem_named hs hone).mp (hperm.mem_iff.mpr hmem)).2
  constructor
  · intro h
    refine ⟨fresh_of_complement h (List.append_nil _).symm, fun hfirst => ?_⟩
    have hin : D.InInterval i (D.border i + 1) := ⟨by omega, hfirst.2.2⟩
    have := hfirst.2.1 _ (hnamed _ hin) hin
    omega
  · intro h
    rw [Complement, h.fresh]
    refine ⟨List.nodup_nil, fun e => ⟨fun he => absurd he List.not_mem_nil, fun he => ?_⟩⟩
    exact absurd (hnamed e he.1) he.2

end Rank

/-! ## A dimension on all ranks -/

/-- A dimension changes the region with the name of its nameless set only. -/
structure Kept (i : ℕ) (D D' : RegionData) : Prop where
  etypeDistribution : D'.etypeDistribution = D.etypeDistribution
  lookup : ∀ name ≠ RegionData.namelessSet i, D'.eregions.lookup name = D.eregions.lookup name

/-- The same ranks, with a relation of what they had to what they have. -/
def OnRanks (R : RegionData → RegionData → Prop) (data out : List RegionData) : Prop :=
  out.length = data.length ∧
    ∀ (r : ℕ) (D D' : RegionData), data[r]? = some D → out[r]? = some D' → R D D'

lemma onRanks_of_mapM {R : RegionData → RegionData → Prop} {f : RegionData → Option RegionData}
    {data out : List RegionData} (h : data.mapM f = some out)
    (hf : ∀ D ∈ data, ∀ D', f D = some D' → R D D') : OnRanks R data out := by
  have heq := Fallible.mapM_eq_some_iff.mp h
  have hlength := congrArg List.length heq
  rw [List.length_map, List.length_map] at hlength
  refine ⟨hlength.symm, fun r D D' hD hD' => hf D (List.mem_of_getElem? hD) D' ?_⟩
  have hr := congrArg (·[r]?) heq
  simpa only [List.getElem?_map, hD, hD', Option.map_some, Option.some.injEq] using hr

lemma OnRanks.of_self {R : RegionData → RegionData → Prop} {data : List RegionData}
    (h : ∀ D ∈ data, R D D) : OnRanks R data data := by
  refine ⟨rfl, fun r D D' hD hD' => ?_⟩
  obtain rfl := Option.some.inj (hD.symm.trans hD')
  exact h D (List.mem_of_getElem? hD)

lemma OnRanks.next {R : RegionData → RegionData → Prop} {data out : List RegionData}
    (h : OnRanks R data out) {r : ℕ} {D : RegionData} (hD : data[r]? = some D) :
    ∃ D', out[r]? = some D' ∧ R D D' := by
  have hlt : r < out.length := by
    rw [h.1]
    exact (List.getElem?_eq_some_iff.mp hD).1
  exact ⟨out[r], List.getElem?_eq_getElem hlt, h.2 r D _ hD (List.getElem?_eq_getElem hlt)⟩

lemma OnRanks.previous {R : RegionData → RegionData → Prop} {data out : List RegionData}
    (h : OnRanks R data out) {r : ℕ} {D' : RegionData} (hD' : out[r]? = some D') :
    ∃ D, data[r]? = some D ∧ R D D' := by
  have hlt : r < data.length := by
    rw [← h.1]
    exact (List.getElem?_eq_some_iff.mp hD').1
  exact ⟨data[r], List.getElem?_eq_getElem hlt, h.2 r _ D' (List.getElem?_eq_getElem hlt) hD'⟩

lemma addUnnamed_eq_some {D D' : RegionData} {s i : ℕ} (h : D.addUnnamed s i = some D') :
    Kept i D D' ∧ unnamedSet (D.border i) (D.border (i + 1)) (D.named s i)
      (D.elementsOf (RegionData.namelessSet i))
        = some (D'.elementsOf (RegionData.namelessSet i)) := by
  rw [RegionData.addUnnamed, Option.bind_eq_bind, Option.bind_eq_some_iff] at h
  obtain ⟨unnamed, hunnamed, hD'⟩ := h
  obtain rfl := Option.some.inj hD'
  refine ⟨⟨rfl, fun name hname => AList.lookup_insert_ne hname⟩, ?_⟩
  rw [hunnamed, RegionData.elementsOf, AList.lookup_insert, Option.getD_some]

section Ranks

variable {data : List RegionData} {s i : ℕ} (hs : ∀ D ∈ data, D.border s ≤ D.border i)
  (hone : ∀ D ∈ data, D.OneDimension i)

include hs hone

lemma fillDimension_iff : (∃ out, fillDimension s data i = some out ∧
    OnRanks (Complement i) data out) ↔ ∀ D ∈ data, Fillable i D := by
  rw [fillDimension]
  rcases hadd : data.any fun D => D.hasUnnamed s i with _ | _
  · -- all elements of all ranks are named
    have hall : ∀ D ∈ data, D.hasUnnamed s i = false := by simpa using hadd
    simp only [Bool.false_eq_true, if_false, Option.some.injEq, exists_eq_left']
    constructor
    · intro h D hD
      obtain ⟨r, hr⟩ := List.mem_iff_getElem?.mp hD
      exact (complement_self_iff (hs D hD) (hone D hD) (hall D hD)).mp (h.2 r D D hr hr)
    · intro h
      exact OnRanks.of_self fun D hD =>
        (complement_self_iff (hs D hD) (hone D hD) (hall D hD)).mpr (h D hD)
  · have hcontent : ∀ D ∈ data, ∀ D', D.addUnnamed s i = some D' →
        D.elementsOf (RegionData.namelessSet i) = [] → (Complement i D D' ↔ Fillable i D) := by
      intro D hD D' hD' hfresh
      have hout := (addUnnamed_eq_some hD').2
      rw [hfresh, unnamedSet_eq named_sorted
        fun n hn => named_in (hs D hD) (hone D hD) hn] at hout
      exact complement_iff_of_eq (hs D hD) (hone D hD) hfresh (Option.some.inj hout).symm
    rw [if_pos rfl]
    constructor
    · rintro ⟨out, hout, hcomplement⟩ D hD
      have hsteps : OnRanks (fun D D' => D.addUnnamed s i = some D') data out :=
        onRanks_of_mapM hout fun _ _ _ h => h
      obtain ⟨r, hr⟩ := List.mem_iff_getElem?.mp hD
      obtain ⟨D', hr', hD'⟩ := hsteps.next hr
      have hthis := hcomplement.2 r D D' hr hr'
      obtain ⟨rest, hrest⟩ := unnamedSet_append (addUnnamed_eq_some hD').2
      exact (hcontent D hD _ hD' (fresh_of_complement hthis hrest)).mp hthis
    · intro h
      have hsome : ∀ D ∈ data, ∃ D', D.addUnnamed s i = some D' := by
        intro D hD
        rw [RegionData.addUnnamed, (h D hD).fresh, unnamedSet_eq named_sorted
          fun n hn => named_in (hs D hD) (hone D hD) hn]
        exact ⟨_, rfl⟩
      obtain ⟨out, hout⟩ := Fallible.exists_mapM hsome
      exact ⟨out, hout, onRanks_of_mapM hout fun D hD D' hD' =>
        (hcontent D hD D' hD' (h D hD).fresh).mpr (h D hD)⟩

omit hs hone in
lemma fillDimension_kept {out : List RegionData} (h : fillDimension s data i = some out) :
    OnRanks (Kept i) data out := by
  rw [fillDimension] at h
  split_ifs at h with hadd
  · exact onRanks_of_mapM h fun D _ D' hD' => (addUnnamed_eq_some hD').1
  · obtain rfl := Option.some.inj h
    exact OnRanks.of_self fun D _ => ⟨rfl, fun _ _ => rfl⟩

end Ranks

/-! ## Faces and edges -/

lemma namelessSet_ne : RegionData.namelessSet 0 ≠ RegionData.namelessSet 1 := by
  simp [RegionData.namelessSet]

section Faces

variable {D D' : RegionData} (hkept : Kept 0 D D')

include hkept

lemma Kept.border (i : ℕ) : D'.border i = D.border i := by
  rw [RegionData.border, RegionData.border, hkept.etypeDistribution]

lemma Kept.inInterval (i e : ℕ) : D'.InInterval i e ↔ D.InInterval i e := by
  rw [RegionData.InInterval, RegionData.InInterval, hkept.border, hkept.border]

lemma Kept.elementsOf_edges :
    D'.elementsOf (RegionData.namelessSet 1) = D.elementsOf (RegionData.namelessSet 1) := by
  rw [RegionData.elementsOf, RegionData.elementsOf, hkept.lookup _ namelessSet_ne.symm]

variable (hfill : Fillable 0 D) (hfaces : Complement 0 D D')

include hfill hfaces

omit hkept hfill in
lemma not_edge {region : List ℕ} (h : D'.eregions.lookup (RegionData.namelessSet 0) = some region)
    {e : ℕ} (he : e ∈ region) : ¬D.InInterval 1 e := by
  have hmem : e ∈ D'.elementsOf (RegionData.namelessSet 0) := by
    rw [RegionData.elementsOf, h]
    exact he
  have hface := ((hfaces.2 e).mp hmem).1.2
  exact fun hedge => absurd hedge.1 (not_le.mpr hface)

lemma named_edge_iff {e : ℕ} (he : D.InInterval 1 e) : D'.Named e ↔ D.Named e := by
  constructor
  · rintro ⟨name, region, hlookup, hmem⟩
    by_cases hname : name = RegionData.namelessSet 0
    · subst hname
      exact absurd he (not_edge hfaces hlookup hmem)
    · exact ⟨name, region, (hkept.lookup name hname) ▸ hlookup, hmem⟩
  · rintro ⟨name, region, hlookup, hmem⟩
    by_cases hname : name = RegionData.namelessSet 0
    · have hfresh := hfill.fresh
      rw [RegionData.elementsOf, ← hname, hlookup, Option.getD_some] at hfresh
      exact absurd (hfresh ▸ hmem) List.not_mem_nil
    · exact ⟨name, region, (hkept.lookup name hname).trans hlookup, hmem⟩

lemma oneDimension_edges (hone : D.OneDimension 1) : D'.OneDimension 1 := by
  intro name region hlookup e he hin f hf
  rw [hkept.inInterval] at hin ⊢
  by_cases hname : name = RegionData.namelessSet 0
  · subst hname
    exact absurd hin (not_edge hfaces hlookup he)
  · exact hone name region ((hkept.lookup name hname) ▸ hlookup) e he hin f hf

lemma fillable_edges_iff : Fillable 1 D' ↔ Fillable 1 D := by
  have hfirst : (D'.Named (D'.border 1) ∧ (∀ e, D'.Named e → D'.InInterval 1 e → e = D'.border 1) ∧
      D'.border 1 + 1 < D'.border 2) ↔ (D.Named (D.border 1) ∧
      (∀ e, D.Named e → D.InInterval 1 e → e = D.border 1) ∧ D.border 1 + 1 < D.border 2) := by
    simp only [hkept.border, hkept.inInterval]
    have hall : (∀ e, D'.Named e → D.InInterval 1 e → e = D.border 1) ↔
        ∀ e, D.Named e → D.InInterval 1 e → e = D.border 1 :=
      forall_congr' fun e => ⟨fun h he hin => h ((named_edge_iff hkept hfill hfaces hin).mpr he) hin,
        fun h he hin => h ((named_edge_iff hkept hfill hfaces hin).mp he) hin⟩
    rw [hall]
    constructor
    · rintro ⟨hnamed, hrest, hlt⟩
      exact ⟨(named_edge_iff hkept hfill hfaces ⟨le_rfl, Nat.lt_of_succ_lt hlt⟩).mp
        hnamed, hrest, hlt⟩
    · rintro ⟨hnamed, hrest, hlt⟩
      exact ⟨(named_edge_iff hkept hfill hfaces ⟨le_rfl, Nat.lt_of_succ_lt hlt⟩).mpr
        hnamed, hrest, hlt⟩
  constructor
  · intro h
    exact ⟨hkept.elementsOf_edges.symm.trans h.fresh, mt hfirst.mpr h.not_first⟩
  · intro h
    exact ⟨hkept.elementsOf_edges.trans h.fresh, mt hfirst.mp h.not_first⟩

lemma complement_edges_iff {D'' : RegionData} : Complement 1 D' D'' ↔ Complement 1 D D'' := by
  refine and_congr_right fun _ => forall_congr' fun e => ?_
  rw [hkept.inInterval]
  by_cases hin : D.InInterval 1 e
  · rw [named_edge_iff hkept hfill hfaces hin]
  · simp [hin]

end Faces

lemma complement_faces_iff {data d out : List RegionData} (hout : fillDimension 0 d 1 = some out) :
    OnRanks (Complement 0) data out ↔ OnRanks (Complement 0) data d := by
  have hkept := fillDimension_kept hout
  have hiff : ∀ {D D' D''}, Kept 1 D' D'' → (Complement 0 D D'' ↔ Complement 0 D D') := by
    intro D D' D'' h
    rw [Complement, Complement, RegionData.elementsOf, h.lookup _ namelessSet_ne,
      ← RegionData.elementsOf]
  rw [OnRanks, OnRanks, hkept.1]
  refine and_congr_right fun _ => ⟨fun h r D D' hD hD' => ?_, fun h r D D'' hD hD'' => ?_⟩
  · obtain ⟨D'', hD'', hthis⟩ := hkept.next hD'
    exact (hiff hthis).mp (h r D D'' hD hD'')
  · obtain ⟨D', hD', hthis⟩ := hkept.previous hD''
    exact (hiff hthis).mpr (h r D D' hD hD')

/-! ## The function -/

/-- **The regions of each dimension have all its elements**: the nameless sets are the complements.
-/
def RegionInput.Filled (I : RegionInput) : Prop :=
  ∃ out, fillBoundaryRegions I.dimension I.data = some out ∧
    ∀ i ∈ dimensions I.dimension, OnRanks (Complement i) I.data out

lemma fillBoundaryRegions_three {data out : List RegionData} :
    fillBoundaryRegions 3 data = some out ↔
      ∃ d, fillDimension 0 data 0 = some d ∧ fillDimension 0 d 1 = some out := by
  have hdims : dimensions 3 = [0, 1] := rfl
  have hstart : estart 3 = 0 := rfl
  rw [fillBoundaryRegions, hdims, hstart, List.foldlM_cons, Option.bind_eq_bind,
    Option.bind_eq_some_iff]
  simp only [List.foldlM_cons, List.foldlM_nil, bind_pure]

lemma fillable_faces {data out : List RegionData}
    (hone : ∀ D ∈ data, D.OneDimension 0) (hout : fillBoundaryRegions 3 data = some out)
    (h : OnRanks (Complement 0) data out) : ∀ D ∈ data, Fillable 0 D := by
  obtain ⟨d, hd, hedges⟩ := fillBoundaryRegions_three.mp hout
  exact (fillDimension_iff (fun _ _ => le_rfl) hone).mp ⟨d, hd, (complement_faces_iff hedges).mp h⟩

lemma RegionInput.fillEdges_iff (I : RegionInput) (hdim : I.dimension = 3) {d : List RegionData}
    (hd : fillDimension 0 I.data 0 = some d) (hcomplement : OnRanks (Complement 0) I.data d)
    (hfill : ∀ D ∈ I.data, Fillable 0 D) : (∃ out, fillDimension 0 d 1 = some out ∧
      OnRanks (Complement 1) I.data out) ↔ ∀ D ∈ I.data, Fillable 1 D := by
  have hdims : dimensions I.dimension = [0, 1] := by rw [hdim]; rfl
  have hedges : ∀ D ∈ I.data, D.OneDimension 1 :=
    fun D hD => I.one_dimension D hD 1 (by simp [hdims])
  have hkept := fillDimension_kept hd
  have hof : ∀ D' ∈ d, ∃ D ∈ I.data, Kept 0 D D' ∧ Complement 0 D D' := by
    intro D' hD'
    obtain ⟨r, hr⟩ := List.mem_iff_getElem?.mp hD'
    obtain ⟨D, hD, hthis⟩ := hkept.previous hr
    exact ⟨D, List.mem_of_getElem? hD, hthis, hcomplement.2 r D D' hD hr⟩
  have hsorted : ∀ D' ∈ d, D'.border 0 ≤ D'.border 1 := by
    intro D' hD'
    obtain ⟨D, hD, hthis, -⟩ := hof D' hD'
    rw [hthis.border, hthis.border]
    exact (I.sorted D hD).1
  have hiff : (∃ out, fillDimension 0 d 1 = some out ∧ OnRanks (Complement 1) d out) ↔
      ∀ D ∈ d, Fillable 1 D := by
    refine fillDimension_iff hsorted fun D' hD' => ?_
    obtain ⟨D, hD, hthis, hc⟩ := hof D' hD'
    exact oneDimension_edges hthis (hfill D hD) hc (hedges D hD)
  have hout : ∀ out, OnRanks (Complement 1) d out ↔ OnRanks (Complement 1) I.data out := by
    intro out
    rw [OnRanks, OnRanks, hkept.1]
    refine and_congr_right fun _ => ⟨fun h r D D'' hD hD'' => ?_, fun h r D' D'' hD' hD'' => ?_⟩
    · obtain ⟨D', hD', hthis⟩ := hkept.next hD
      exact (complement_edges_iff hthis (hfill D (List.mem_of_getElem? hD))
        (hcomplement.2 r D D' hD hD')).mp (h r D' D'' hD' hD'')
    · obtain ⟨D, hD, hthis⟩ := hkept.previous hD'
      exact (complement_edges_iff hthis (hfill D (List.mem_of_getElem? hD))
        (hcomplement.2 r D D' hD hD')).mpr (h r D D'' hD hD'')
  simp only [hout] at hiff
  rw [hiff]
  constructor
  · intro h D hD
    obtain ⟨r, hr⟩ := List.mem_iff_getElem?.mp hD
    obtain ⟨D', hD', hthis⟩ := hkept.next hr
    exact (fillable_edges_iff hthis (hfill D hD) (hcomplement.2 r D D' hr hD')).mp
      (h D' (List.mem_of_getElem? hD'))
  · intro h D' hD'
    obtain ⟨D, hD, hthis, hc⟩ := hof D' hD'
    exact (fillable_edges_iff hthis (hfill D hD) hc).mpr (h D hD)

/-- **`Input::fillBoundaryRegions` completes the regions** if and only if no dimension of a rank has
several elements, the first of which is the only one in a region of the input. Regions of the input
must not be called like the nameless sets. -/
theorem nameless_complement_iff (I : RegionInput) :
    I.Filled ↔ ∀ D ∈ I.data, ∀ i ∈ dimensions I.dimension, Fillable i D := by
  rw [RegionInput.Filled]
  have hone := I.one_dimension
  by_cases hdim : I.dimension = 3
  · have hdims : dimensions I.dimension = [0, 1] := by rw [hdim]; rfl
    have hzero : ∀ D ∈ I.data, D.OneDimension 0 := fun D hD => hone D hD 0 (by simp [hdims])
    have hedges : ∀ D ∈ I.data, D.OneDimension 1 := fun D hD => hone D hD 1 (by simp [hdims])
    have hfaces := fillDimension_iff (fun _ _ => le_rfl) hzero
    simp only [hdims, List.forall_mem_cons, List.not_mem_nil, false_implies, implies_true, and_true]
    constructor
    · rintro ⟨out, hout, h₀, h₁⟩
      rw [hdim] at hout
      have hfill := fillable_faces hzero hout h₀
      obtain ⟨d, hd, hout⟩ := fillBoundaryRegions_three.mp hout
      have hcomplement := (complement_faces_iff hout).mp h₀
      have hnext := (I.fillEdges_iff hdim hd hcomplement hfill).mp ⟨_, hout, h₁⟩
      exact fun D hD => ⟨hfill D hD, hnext D hD⟩
    · intro h
      obtain ⟨d, hd, hcomplement⟩ := hfaces.mpr fun D hD => (h D hD).1
      obtain ⟨out, hout, h₁⟩ := (I.fillEdges_iff hdim hd hcomplement fun D hD => (h D hD).1).mpr
        fun D hD => (h D hD).2
      refine ⟨out, ?_, (complement_faces_iff hout).mpr hcomplement, h₁⟩
      rw [hdim]
      exact fillBoundaryRegions_three.mpr ⟨d, hd, hout⟩
  · have hstart : estart I.dimension = 1 := if_neg hdim
    have hdims : dimensions I.dimension = [1] := by
      rw [dimensions, hstart]
      rfl
    have hedges : ∀ D ∈ I.data, D.OneDimension 1 := fun D hD => hone D hD 1 (by simp [hdims])
    have hall := fillDimension_iff (fun _ _ => le_rfl) hedges
    simp only [fillBoundaryRegions, hdims, hstart, List.foldlM_cons, List.foldlM_nil,
      List.mem_singleton, forall_eq, bind_pure]
    exact hall

/-! ## Two faces -/

def firstFace : RegionData :=
  ⟨[1, 3, 3], AList.insert "FACE" [1] ∅⟩

lemma firstFace_lookup {name : String} {region : List ℕ}
    (h : firstFace.eregions.lookup name = some region) : region = [1] := by
  by_cases hname : name = "FACE"
  · subst hname
    rw [firstFace, AList.lookup_insert] at h
    exact (Option.some.inj h).symm
  · rw [firstFace, AList.lookup_insert_ne hname, AList.lookup_empty] at h
    exact absurd h (by simp)

lemma firstFace_sorted : ∀ D ∈ [firstFace], D.border 0 ≤ D.border 1 ∧ D.border 1 ≤ D.border 2 := by
  intro D hD
  obtain rfl := List.mem_singleton.mp hD
  exact ⟨by decide, by decide⟩

lemma firstFace_one_dimension :
    ∀ D ∈ [firstFace], ∀ i ∈ dimensions 3, D.OneDimension i := by
  intro D hD i _ name region h e he hin f hf
  obtain rfl := List.mem_singleton.mp hD
  obtain rfl := firstFace_lookup h
  rwa [List.mem_singleton.mp hf, ← List.mem_singleton.mp he]

def firstFaceInput : RegionInput := ⟨3, [firstFace], firstFace_sorted, firstFace_one_dimension⟩

/-- **The tail begins with the named face**, and the other face is in no region. -/
theorem firstFace_not_filled : ¬firstFaceInput.Filled := by
  rintro ⟨out, hout, h⟩
  have hmem := List.mem_singleton_self firstFace
  have hfill := fillable_faces (fun D hD => firstFace_one_dimension D hD 0 (by decide)) hout
    (h 0 (by decide)) firstFace hmem
  refine hfill.not_first ⟨⟨"FACE", [1], AList.lookup_insert ∅, by decide⟩, ?_, by decide⟩
  rintro e ⟨name, region, hlookup, he⟩ -
  obtain rfl := firstFace_lookup hlookup
  exact List.mem_singleton.mp he

end Input

end Espreso
