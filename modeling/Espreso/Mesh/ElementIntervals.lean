import Espreso.Basis.Permute
import Espreso.Basis.Utils
import Espreso.Lib.Cuts
import Espreso.Mesh.ElementRegions

/-!
# Element intervals

Elements are stored domain by domain, and those of a domain are sorted by their codes. The elements
of a domain with the same code make an interval.

* `ArrangedIntervals` — intervals of elements, and the intervals of each domain.
* **`Decomposition.arranged`** — its intervals are right.
-/

namespace Espreso

open Reorder

/-! ## Arranged intervals -/

/-- **The intervals of `n` elements**: they are consecutive and not empty, the elements of an
interval have the same domain and code, neighbours differ in one of them, and each domain has a
range of intervals. -/
structure ArrangedIntervals (n ndomains firstDomain : ℕ) (domain code : ℕ → ℕ)
    (eintervals : List ElementsInterval) (eintervalsDistribution : List ℕ) : Prop where
  partition : ∃ B : Distribution eintervals.length n, B.borders.Pairwise (· < ·) ∧
    ∀ i I, eintervals[i]? = some I → I.begin' = B.border i ∧ I.end' = B.border (i + 1)
  uniform : ∀ I ∈ eintervals, ∀ e, I.begin' ≤ e → e < I.end' →
    I.domain = domain e + firstDomain ∧ I.code = code e
  adjacent : ∀ i I J, eintervals[i]? = some I → eintervals[i + 1]? = some J →
    I.domain ≠ J.domain ∨ I.code ≠ J.code
  distribution : ∃ D : Distribution ndomains eintervals.length, D.borders = eintervalsDistribution ∧
    ∀ d < ndomains, ∀ i I, eintervals[i]? = some I →
      ((D.border d ≤ i ∧ i < D.border (d + 1)) ↔ I.domain = d + firstDomain)

def intervalsBetween (domain code : ℕ → ℕ) (borders : List ℕ) : List ElementsInterval :=
  (borders.zip borders.tail).map fun b => ⟨b.1, b.2, domain b.1, code b.1⟩

def domainsBetween (domain : ℕ → ℕ) (borders : List ℕ) : List ℕ :=
  (borders.zip borders.tail).map fun b => domain b.1

lemma getElem?_zip_tail {l : List ℕ} {i a b : ℕ} :
    (l.zip l.tail)[i]? = some (a, b) ↔ l[i]? = some a ∧ l[i + 1]? = some b := by
  rw [List.getElem?_zip_eq_some, List.getElem?_tail]

lemma intervalsBetween_getElem? {domain code : ℕ → ℕ} {borders : List ℕ} {i : ℕ}
    {I : ElementsInterval} :
    (intervalsBetween domain code borders)[i]? = some I ↔
      ∃ a b, borders[i]? = some a ∧ borders[i + 1]? = some b ∧ I = ⟨a, b, domain a, code a⟩ := by
  rw [intervalsBetween, List.getElem?_map, Option.map_eq_some_iff]
  constructor
  · rintro ⟨⟨a, b⟩, hab, rfl⟩
    exact ⟨a, b, (getElem?_zip_tail.mp hab).1, (getElem?_zip_tail.mp hab).2, rfl⟩
  · rintro ⟨a, b, ha, hb, rfl⟩
    exact ⟨(a, b), getElem?_zip_tail.mpr ⟨ha, hb⟩, rfl⟩

lemma intervalsBetween_cons (domain code : ℕ → ℕ) (a b : ℕ) (l : List ℕ) :
    intervalsBetween domain code (a :: b :: l)
      = ⟨a, b, domain a, code a⟩ :: intervalsBetween domain code (b :: l) := rfl

lemma domainsBetween_concat (domain : ℕ → ℕ) (l : List ℕ) (n : ℕ) :
    domainsBetween domain (l ++ [n]) = l.map domain := by
  induction l with
  | nil => rfl
  | cons a l ih =>
      rw [List.map_cons, ← ih]
      cases l <;> rfl

lemma length_zip_tail (l : List ℕ) : (l.zip l.tail).length = l.length - 1 := by
  rw [List.length_zip, List.length_tail]
  omega

section Cut

variable {n ndomains : ℕ} {domain code : ℕ → ℕ} {borders : List ℕ}
  (h : Cuts.Cut (fun e => (domain e, code e)) n borders)
  (hmono : ∀ a b, a ≤ b → b < n → domain a ≤ domain b) (hlt : ∀ e < n, domain e < ndomains)

include h

lemma lt_of_border {i a b : ℕ} (ha : borders[i]? = some a) (hb : borders[i + 1]? = some b) :
    a < b ∧ b ≤ n := by
  obtain ⟨hi, rfl⟩ := List.getElem?_eq_some_iff.mp ha
  obtain ⟨hi', rfl⟩ := List.getElem?_eq_some_iff.mp hb
  exact ⟨List.pairwise_iff_getElem.mp h.ascending i (i + 1) hi hi' (Nat.lt_succ_self i),
    h.le_of_mem (List.getElem_mem hi')⟩

include hmono in
lemma domainsBetween_sorted : (domainsBetween domain borders).Pairwise (· ≤ ·) := by
  refine List.pairwise_map.mpr (List.pairwise_iff_getElem.mpr fun i j hi hj hij => ?_)
  rcases hp : (borders.zip borders.tail)[i] with ⟨a, b⟩
  rcases hq : (borders.zip borders.tail)[j] with ⟨c, d⟩
  have hab := getElem?_zip_tail.mp ((List.getElem?_eq_getElem hi).trans (congrArg some hp))
  have hcd := getElem?_zip_tail.mp ((List.getElem?_eq_getElem hj).trans (congrArg some hq))
  obtain ⟨hlt, hle⟩ := lt_of_border h hcd.1 hcd.2
  obtain ⟨hi, rfl⟩ := List.getElem?_eq_some_iff.mp hab.1
  obtain ⟨hj, rfl⟩ := List.getElem?_eq_some_iff.mp hcd.1
  exact hmono _ _ (List.pairwise_iff_getElem.mp h.ascending i j hi hj hij).le (hlt.trans_le hle)

include hlt in
lemma lt_of_mem_domainsBetween : ∀ d ∈ domainsBetween domain borders, d < ndomains := by
  intro d hd
  obtain ⟨⟨a, b⟩, hab, rfl⟩ := List.mem_map.mp hd
  obtain ⟨i, hi⟩ := List.mem_iff_getElem?.mp hab
  obtain ⟨ha, hb⟩ := getElem?_zip_tail.mp hi
  obtain ⟨hablt, hle⟩ := lt_of_border h ha hb
  exact hlt a (hablt.trans_le hle)

include hmono hlt in
/-- **The intervals between the places with another domain or code.** -/
theorem arranged_of_cut (firstDomain : ℕ) :
    ArrangedIntervals n ndomains firstDomain domain code
      (intervalsBetween (fun e => domain e + firstDomain) code borders)
      ((List.range (ndomains + 1)).map (lowerBound (domainsBetween domain borders))) := by
  have hlength : borders.length = (borders.zip borders.tail).length + 1 := by
    have hpos := (List.getElem?_eq_some_iff.mp h.first).1
    rw [length_zip_tail]
    omega
  have hsorted := domainsBetween_sorted h hmono
  have hbelow := lt_of_mem_domainsBetween h hlt
  refine ⟨?_, ?_, ?_, ?_⟩
  · have hlast := h.last
    rw [hlength, Nat.add_sub_cancel] at hlast
    refine ⟨⟨borders, ?_, h.ascending.imp fun hab => hab.le, h.first, ?_⟩, h.ascending, ?_⟩
    · rw [intervalsBetween, List.length_map, hlength]
    · rw [intervalsBetween, List.length_map, hlast]
    · intro i I hI
      obtain ⟨a, b, ha, hb, rfl⟩ := intervalsBetween_getElem?.mp hI
      simp only [Distribution.border, List.getD_eq_getElem?_getD, ha, hb, Option.getD_some,
        and_self]
  · intro I hI e hle hlt
    obtain ⟨i, hi⟩ := List.mem_iff_getElem?.mp hI
    obtain ⟨a, b, ha, hb, rfl⟩ := intervalsBetween_getElem?.mp hi
    have hkey := Prod.mk.inj (h.key_eq ha hb hle hlt)
    exact ⟨by rw [hkey.1], by rw [hkey.2]⟩
  · intro i I J hI hJ
    obtain ⟨a, b, ha, hb, rfl⟩ := intervalsBetween_getElem?.mp hI
    obtain ⟨b', c, hb', hc, rfl⟩ := intervalsBetween_getElem?.mp hJ
    obtain rfl : b = b' := Option.some.inj (hb.symm.trans hb')
    obtain ⟨hbc, hcn⟩ := lt_of_border h hb hc
    have hne := h.key_ne ha hb (hbc.trans_le hcn)
    by_contra heq
    push Not at heq
    exact hne (Prod.ext (Nat.add_right_cancel heq.1) heq.2)
  · have hzero : lowerBound (domainsBetween domain borders) 0 = 0 := by
      cases domainsBetween domain borders with
      | nil => rfl
      | cons d l => rw [lowerBound_cons, if_pos (Nat.zero_le d)]
    have hall : lowerBound (domainsBetween domain borders) ndomains
        = (intervalsBetween (fun e => domain e + firstDomain) code borders).length := by
      rw [lowerBound_eq_length hbelow, domainsBetween, intervalsBetween, List.length_map,
        List.length_map]
    have hsteps : Monotone (lowerBound (domainsBetween domain borders)) :=
      fun _ _ hab => lowerBound_mono _ hab
    refine ⟨Distribution.ofFun _ hsteps hzero hall, rfl, ?_⟩
    intro d hd i I hI
    obtain ⟨a, b, ha, hb, rfl⟩ := intervalsBetween_getElem?.mp hI
    have hentry : (domainsBetween domain borders)[i]? = some (domain a) := by
      rw [domainsBetween, List.getElem?_map, getElem?_zip_tail.mpr ⟨ha, hb⟩, Option.map_some]
    rw [Distribution.ofFun_border hd.le, Distribution.ofFun_border (Nat.succ_le_of_lt hd),
      ← not_lt, lt_lowerBound_iff hsorted hentry, lt_lowerBound_iff hsorted hentry]
    dsimp only
    omega

end Cut

/-! ## The intervals of domains -/

/-- The first interval of each of the domains behind `last`, where interval `i` is the next one:
skipped domains have no interval. -/
def spread (ndomains : ℕ) : ℕ → ℕ → List ℕ → List ℕ
  | last, i, [] => List.replicate (ndomains - last) i
  | last, i, d :: domains => List.replicate (d - last) i ++ spread ndomains d (i + 1) domains

lemma map_range_append (f : ℕ → ℕ) {a b i : ℕ} (hab : a ≤ b) (hf : ∀ j, a < j → j ≤ b → f j = i) :
    (List.range (a + 1)).map f ++ List.replicate (b - a) i = (List.range (b + 1)).map f := by
  obtain ⟨k, rfl⟩ := Nat.exists_eq_add_of_le hab
  rw [Nat.add_sub_cancel_left]
  induction k with
  | zero => rw [List.replicate_zero, List.append_nil, Nat.add_zero]
  | succ k ih =>
      rw [List.replicate_succ', ← List.append_assoc, ih (Nat.le_add_right a k)
        fun j hj hjk => hf j hj (by omega), ← Nat.add_assoc,
        List.range_succ (n := a + k + 1), List.map_append, List.map_singleton, hf (a + k + 1) (by omega) (by omega)]

/-- **The first intervals of domains** are looked up in the domains of the intervals. -/
lemma spread_eq {ndomains : ℕ} {domains : List ℕ} (pre : List ℕ) (last : ℕ)
    (hsorted : (pre ++ domains).Pairwise (· ≤ ·)) (hpre : ∀ d ∈ pre, d ≤ last)
    (hlast : ∀ d ∈ domains, last ≤ d) (hlt : ∀ d ∈ domains, d < ndomains) (hle : last ≤ ndomains) :
    (List.range (last + 1)).map (lowerBound (pre ++ domains))
        ++ spread ndomains last pre.length domains
      = (List.range (ndomains + 1)).map (lowerBound (pre ++ domains)) := by
  induction domains generalizing pre last with
  | nil =>
      refine map_range_append _ hle fun j hj _ => ?_
      rw [List.append_nil]
      exact lowerBound_eq_length fun d hd => (hpre d hd).trans_lt hj
  | cons d domains ih =>
      have hd := hlast d List.mem_cons_self
      obtain ⟨-, hrest, -⟩ := List.pairwise_append.mp hsorted
      have hstep := map_range_append (lowerBound (pre ++ d :: domains)) (i := pre.length) hd
        fun j hj hjd => by
          refine lowerBound_eq_of_append (fun x hx => (hpre x hx).trans_lt hj) hjd
      rw [spread, ← List.append_assoc, hstep]
      have happend : pre ++ d :: domains = (pre ++ [d]) ++ domains := by
        rw [List.append_assoc, List.singleton_append]
      have hnext := ih (pre ++ [d]) d (by rwa [← happend]) ?_
        (List.pairwise_cons.mp hrest).1 (fun x hx => hlt x (List.mem_cons_of_mem d hx))
        (hlt d List.mem_cons_self).le
      · rw [happend]
        rwa [List.length_append, List.length_singleton] at hnext
      · intro x hx
        rcases List.mem_append.mp hx with hx | hx
        · exact (hpre x hx).trans hd
        · exact (List.mem_singleton.mp hx).le

/-! ## The elements of a rank -/

/-- The elements of a rank, decomposed into domains.  No domain is empty, and there is an element: a
process without one ends the computation. -/
structure Decomposition where
  (threads size ndomains firstDomain : ℕ)
  domainDistribution : Distribution threads ndomains
  elementsDistribution : Distribution ndomains size
  permutation : List ℕ
  code : ℕ → ℕ
  size_pos : 0 < size
  nonempty : ∀ d < ndomains, elementsDistribution.border d < elementsDistribution.border (d + 1)
  perm : permutation.Perm (List.range size)

namespace Decomposition

variable (D : Decomposition)

def domains (t : ℕ) : List ℕ :=
  List.range' (D.domainDistribution.border t)
    (D.domainDistribution.border (t + 1) - D.domainDistribution.border t)

/-- The elements of domain `d` are sorted by their codes. -/
def sortDomain (S : Sorting ℕ) (permutation : List ℕ) (d : ℕ) : List ℕ :=
  let elements := window permutation (D.elementsDistribution.border d)
    (D.elementsDistribution.border (d + 1))
  permutation.take (D.elementsDistribution.border d)
    ++ gather (S.sort (fun i => D.code (elements.getD i 0)) elements.length) elements
    ++ permutation.drop (D.elementsDistribution.border (d + 1))

def sortDomains (S : Sorting ℕ) : List ℕ :=
  ((List.range D.threads).flatMap D.domains).foldl (D.sortDomain S) D.permutation

def codeAt (permutation : List ℕ) (e : ℕ) : ℕ := D.code (permutation.getD e 0)

/-- The borders of intervals that a thread finds: the begins of its domains but the first one, and
the changes of codes. -/
def iboundaries (permutation : List ℕ) (t : ℕ) : List ℕ :=
  (D.domains t).flatMap fun d =>
    (if d ≠ 0 then [D.elementsDistribution.border d] else [])
      ++ (List.range' (D.elementsDistribution.border d + 1)
          (D.elementsDistribution.border (d + 1) - (D.elementsDistribution.border d + 1))).filter
            fun e => D.codeAt permutation e ≠ D.codeAt permutation (e - 1)

def domainAt (e : ℕ) : ℕ := lowerBound D.elementsDistribution.borders (e + 1) - 1

def interval (permutation : List ℕ) (b : ℕ) : ElementsInterval :=
  ⟨b, b, D.domainAt b + D.firstDomain, D.codeAt permutation b⟩

/-- The intervals in front of the last one, the last one, and `eintervalsDistribution`. -/
structure Intervals where
  closed : List ElementsInterval
  back : ElementsInterval
  eintervalsDistribution : List ℕ

def addBorder (permutation : List ℕ) (s : Intervals) (b : ℕ) : Intervals :=
  let closed := s.closed ++ [⟨s.back.begin', b, s.back.domain, s.back.code⟩]
  let back := D.interval permutation b
  { closed, back
    eintervalsDistribution :=
      if back.domain ≠ s.back.domain then s.eintervalsDistribution ++ [closed.length]
      else s.eintervalsDistribution }

/-- The permutation and the intervals of a rank. -/
structure Arranged where
  permutation : List ℕ
  eintervals : List ElementsInterval
  eintervalsDistribution : List ℕ

/-- **`MeshPreprocessing::arrangeElementsPermutation`** -/
def arrangeElementsPermutation (S : Sorting ℕ) : Arranged :=
  let permutation := D.sortDomains S
  let borders := sortAndRemoveDuplicity ((List.range D.threads).flatMap (D.iboundaries permutation))
  let s := borders.foldl (D.addBorder permutation)
    ⟨[], ⟨0, 0, D.firstDomain, D.codeAt permutation 0⟩, [0]⟩
  let eintervals := s.closed ++ [⟨s.back.begin', D.size, s.back.domain, s.back.code⟩]
  { permutation, eintervals
    eintervalsDistribution := s.eintervalsDistribution ++ [eintervals.length] }

/-- **Elements are reordered within their domains**, and the intervals of the new order are
arranged. -/
structure ArrangedRight (out : Arranged) : Prop where
  length_eq : out.permutation.length = D.size
  within : ∀ d < D.ndomains,
    (window out.permutation (D.elementsDistribution.border d)
        (D.elementsDistribution.border (d + 1))).Perm
      (window D.permutation (D.elementsDistribution.border d) (D.elementsDistribution.border (d + 1)))
  domain : ∀ e < D.size, D.domainAt e < D.ndomains ∧
    D.elementsDistribution.border (D.domainAt e) ≤ e ∧
    e < D.elementsDistribution.border (D.domainAt e + 1)
  intervals : ArrangedIntervals D.size D.ndomains D.firstDomain D.domainAt (D.codeAt out.permutation)
    out.eintervals out.eintervalsDistribution

/-! ## The sorted elements -/

section Sorted

variable {D} {S : Sorting ℕ}

lemma flatMap_domains : (List.range D.threads).flatMap D.domains = List.range D.ndomains := by
  have h := (flatMap_range' D.domainDistribution.border D.threads fun t ht =>
    D.domainDistribution.border_mono (Nat.le_add_right t 1) ht).1
  rw [Distribution.border_zero, Distribution.border_size, Nat.sub_zero, ← List.range_eq_range'] at h
  exact h

lemma length_permutation : D.permutation.length = D.size := by
  rw [D.perm.length_eq, List.length_range]

variable (D S) in
/-- The elements of domain `d`, sorted. -/
def sorted (d : ℕ) : List ℕ :=
  let elements := window D.permutation (D.elementsDistribution.border d)
    (D.elementsDistribution.border (d + 1))
  gather (S.sort (fun i => D.code (elements.getD i 0)) elements.length) elements

lemma sorted_perm (d : ℕ) : (D.sorted S d).Perm (window D.permutation
    (D.elementsDistribution.border d) (D.elementsDistribution.border (d + 1))) :=
  gather_perm (S.perm _ _)

lemma length_sorted {d : ℕ} (hd : d < D.ndomains) : (D.sorted S d).length
    = D.elementsDistribution.border (d + 1) - D.elementsDistribution.border d := by
  rw [(sorted_perm d).length_eq, length_window]
  rw [length_permutation]
  exact D.elementsDistribution.border_le_total (Nat.succ_le_of_lt hd)

lemma foldl_sortDomain {k : ℕ} (hk : k ≤ D.ndomains) :
    (List.range k).foldl (D.sortDomain S) D.permutation
      = (List.range k).flatMap (D.sorted S)
        ++ D.permutation.drop (D.elementsDistribution.border k) := by
  induction k with
  | zero => rw [D.elementsDistribution.border_zero]; rfl
  | succ k ih =>
      have hlength : ((List.range k).flatMap (D.sorted S)).length
          = D.elementsDistribution.border k :=
        length_flatMap_range D.elementsDistribution (fun d hd => length_sorted hd) k
          (Nat.le_of_succ_le hk)
      have hmono := D.elementsDistribution.border_mono (Nat.le_add_right k 1) hk
      rw [List.range_succ, List.foldl_append, ih (Nat.le_of_succ_le hk), List.foldl_cons,
        List.foldl_nil, sortDomain, List.flatMap_append, List.flatMap_singleton]
      have hwindow : window ((List.range k).flatMap (D.sorted S)
          ++ D.permutation.drop (D.elementsDistribution.border k))
            (D.elementsDistribution.border k) (D.elementsDistribution.border (k + 1))
          = window D.permutation (D.elementsDistribution.border k)
              (D.elementsDistribution.border (k + 1)) := by
        rw [window, window, List.drop_left' hlength]
      have hdrop : ((List.range k).flatMap (D.sorted S)
          ++ D.permutation.drop (D.elementsDistribution.border k)).drop
            (D.elementsDistribution.border (k + 1))
          = D.permutation.drop (D.elementsDistribution.border (k + 1)) := by
        rw [List.drop_append, List.drop_eq_nil_of_le (by omega), List.nil_append, List.drop_drop,
          hlength, Nat.add_sub_cancel' hmono]
      rw [hwindow, hdrop, List.take_left' hlength]
      rfl

lemma sortDomains_eq : D.sortDomains S = (List.range D.ndomains).flatMap (D.sorted S) := by
  rw [sortDomains, flatMap_domains, foldl_sortDomain le_rfl, D.elementsDistribution.border_size,
    ← length_permutation, List.drop_length, List.append_nil]

lemma window_sortDomains {d : ℕ} (hd : d < D.ndomains) :
    window (D.sortDomains S) (D.elementsDistribution.border d)
      (D.elementsDistribution.border (d + 1)) = D.sorted S d := by
  rw [sortDomains_eq]
  exact (buffer_eq_window D.elementsDistribution (fun d hd => length_sorted hd) hd).symm

lemma length_sortDomains : (D.sortDomains S).length = D.size := by
  rw [sortDomains_eq, length_flatMap_range D.elementsDistribution (fun d hd => length_sorted hd)
    D.ndomains le_rfl, D.elementsDistribution.border_size]

end Sorted

/-! ## The domain of an element -/

section Domain

variable {D}

lemma domainAt_eq {d e : ℕ} (hd : d < D.ndomains) (hlow : D.elementsDistribution.border d ≤ e)
    (hhigh : e < D.elementsDistribution.border (d + 1)) : D.domainAt e = d := by
  rw [domainAt, lowerBound_eq D.elementsDistribution hd hlow hhigh, Nat.add_sub_cancel]

lemma domainAt_spec {e : ℕ} (he : e < D.size) : D.domainAt e < D.ndomains ∧
    D.elementsDistribution.border (D.domainAt e) ≤ e ∧
      e < D.elementsDistribution.border (D.domainAt e + 1) := by
  obtain ⟨d, hd, hlow, hhigh⟩ := D.elementsDistribution.exists_range he
  rw [domainAt_eq hd hlow hhigh]
  exact ⟨hd, hlow, hhigh⟩

lemma domainAt_mono {a b : ℕ} (hab : a ≤ b) (hb : b < D.size) : D.domainAt a ≤ D.domainAt b := by
  obtain ⟨ha', halow, -⟩ := domainAt_spec (hab.trans_lt hb)
  obtain ⟨hb', -, hbhigh⟩ := domainAt_spec hb
  by_contra hlt
  have := D.elementsDistribution.border_mono (show D.domainAt b + 1 ≤ D.domainAt a by omega) ha'.le
  omega

lemma domainAt_ne_iff {e : ℕ} (hpos : 0 < e) (he : e < D.size) :
    D.domainAt (e - 1) ≠ D.domainAt e ↔
      ∃ d, d ≠ 0 ∧ d < D.ndomains ∧ D.elementsDistribution.border d = e := by
  obtain ⟨hd, hlow, hhigh⟩ := domainAt_spec he
  constructor
  · intro hne
    refine ⟨D.domainAt e, fun hzero => hne ?_, hd, ?_⟩
    · have hmono := domainAt_mono (Nat.sub_le e 1) he
      omega
    · by_contra heq
      exact hne (domainAt_eq hd (by omega) (by omega))
  · rintro ⟨d, hdpos, hdlt, rfl⟩
    have hself := domainAt_eq hdlt le_rfl (D.nonempty d hdlt)
    have hbefore := D.nonempty (d - 1) (by omega)
    rw [Nat.sub_add_cancel (Nat.one_le_iff_ne_zero.mpr hdpos)] at hbefore
    have hprev := domainAt_eq (show d - 1 < D.ndomains by omega)
      (Nat.le_sub_one_of_lt hbefore) (by
        rw [Nat.sub_add_cancel (Nat.one_le_iff_ne_zero.mpr hdpos)]
        exact Nat.sub_one_lt_of_le hpos le_rfl)
    rw [hself, hprev]
    omega

lemma domainAt_succ_le {e : ℕ} (he : e + 1 < D.size) : D.domainAt (e + 1) ≤ D.domainAt e + 1 := by
  obtain ⟨hd, hlow, hhigh⟩ := domainAt_spec (show e < D.size by omega)
  rcases Nat.lt_or_ge (e + 1) (D.elementsDistribution.border (D.domainAt e + 1)) with hlt | hge
  · rw [domainAt_eq hd (by omega) hlt]
    exact Nat.le_succ _
  · have hsucc : D.domainAt e + 1 < D.ndomains := by
      by_contra hlast
      have heq : D.domainAt e + 1 = D.ndomains := by omega
      rw [heq, D.elementsDistribution.border_size] at hge
      omega
    have hnext := D.nonempty _ hsucc
    rw [domainAt_eq hsucc (by omega) (by omega)]

end Domain

/-! ## The borders of intervals -/

section Borders

variable {D} (permutation : List ℕ)

/-- **The borders that all threads find** are the places with another domain or code. -/
lemma mem_iboundaries {b : ℕ} :
    b ∈ (List.range D.threads).flatMap (D.iboundaries permutation) ↔
      0 < b ∧ b < D.size ∧
        (D.domainAt (b - 1), D.codeAt permutation (b - 1)) ≠ (D.domainAt b, D.codeAt permutation b) := by
  have hthreads : (List.range D.threads).flatMap (D.iboundaries permutation)
      = (List.range D.ndomains).flatMap fun d =>
        (if d ≠ 0 then [D.elementsDistribution.border d] else [])
          ++ (List.range' (D.elementsDistribution.border d + 1)
              (D.elementsDistribution.border (d + 1) - (D.elementsDistribution.border d + 1))).filter
                fun e => D.codeAt permutation e ≠ D.codeAt permutation (e - 1) := by
    rw [← flatMap_domains, List.flatMap_assoc]
    rfl
  rw [hthreads, List.mem_flatMap]
  simp only [List.mem_range, List.mem_append, List.mem_filter, decide_eq_true_eq]
  constructor
  · rintro ⟨d, hd, hb | ⟨hrange, hcode⟩⟩
    · -- the begin of a domain
      split_ifs at hb with hpos
      · obtain rfl := List.mem_singleton.mp hb
        have hprev := D.nonempty (d - 1) (by omega)
        rw [Nat.sub_add_cancel (Nat.one_le_iff_ne_zero.mpr hpos)] at hprev
        have hlt := (D.nonempty d hd).trans_le
          (D.elementsDistribution.border_le_total (Nat.succ_le_of_lt hd))
        have hbpos : 0 < D.elementsDistribution.border d := by omega
        refine ⟨hbpos, hlt, fun heq => ?_⟩
        exact (domainAt_ne_iff hbpos hlt).mpr ⟨d, hpos, hd, rfl⟩ (Prod.mk.inj heq).1
      · exact absurd hb List.not_mem_nil
    · -- another code within a domain
      have hlow := (List.mem_range'_1.mp hrange).1
      have hhigh := (List.mem_range'_1.mp hrange).2
      have hle := D.elementsDistribution.border_le_total (show d + 1 ≤ D.ndomains from hd)
      exact ⟨by omega, by omega, fun heq => hcode (Prod.mk.inj heq).2.symm⟩
  · rintro ⟨hpos, hlt, hne⟩
    by_cases hdomain : D.domainAt (b - 1) = D.domainAt b
    · obtain ⟨hd, hlow, hhigh⟩ := domainAt_spec hlt
      obtain ⟨-, hlow', -⟩ := domainAt_spec ((Nat.sub_le b 1).trans_lt hlt)
      rw [hdomain] at hlow'
      refine ⟨D.domainAt b, hd, Or.inr ⟨List.mem_range'_1.mpr ⟨by omega, by omega⟩, fun heq => ?_⟩⟩
      exact hne (Prod.ext hdomain heq.symm)
    · obtain ⟨d, hdpos, hd, rfl⟩ := (domainAt_ne_iff hpos hlt).mp hdomain
      exact ⟨d, hd, Or.inl (by rw [if_pos hdpos]; exact List.mem_singleton_self _)⟩

def allBorders (D : Decomposition) (permutation : List ℕ) : List ℕ :=
  0 :: (sortAndRemoveDuplicity ((List.range D.threads).flatMap (D.iboundaries permutation))
    ++ [D.size])

lemma cut_allBorders :
    Cuts.Cut (fun e => (D.domainAt e, D.codeAt permutation e)) D.size
      (D.allBorders permutation) := by
  have hinner : ∀ b ∈ sortAndRemoveDuplicity
      ((List.range D.threads).flatMap (D.iboundaries permutation)), 0 < b ∧ b < D.size := by
    intro b hb
    have h := (mem_iboundaries permutation).mp (mem_sortAndRemoveDuplicity.mp hb)
    exact ⟨h.1, h.2.1⟩
  refine ⟨?_, fun b => ?_⟩
  · refine List.pairwise_cons.mpr ⟨fun b hb => ?_, List.pairwise_append.mpr
      ⟨sortAndRemoveDuplicity_sorted _, List.pairwise_singleton _ _, fun b hb c hc => ?_⟩⟩
    · rcases List.mem_append.mp hb with hb | hb
      · exact (hinner b hb).1
      · rw [List.mem_singleton.mp hb]
        exact D.size_pos
    · rw [List.mem_singleton.mp hc]
      exact (hinner b hb).2
  · rw [allBorders, List.mem_cons, List.mem_append, List.mem_singleton, mem_sortAndRemoveDuplicity,
      mem_iboundaries]
    exact or_congr_right or_comm

end Borders

/-! ## The loop over the borders -/

section Loop

variable {D} (permutation : List ℕ)

lemma foldl_addBorder_intervals (n : ℕ) (bs : List ℕ) (s : Intervals) :
    (bs.foldl (D.addBorder permutation) s).closed
        ++ [⟨(bs.foldl (D.addBorder permutation) s).back.begin', n,
          (bs.foldl (D.addBorder permutation) s).back.domain,
          (bs.foldl (D.addBorder permutation) s).back.code⟩]
      = s.closed ++ ⟨s.back.begin', (bs ++ [n]).headD 0, s.back.domain, s.back.code⟩
        :: intervalsBetween (fun e => D.domainAt e + D.firstDomain) (D.codeAt permutation)
          (bs ++ [n]) := by
  induction bs generalizing s with
  | nil => rfl
  | cons b bs ih =>
      rw [List.foldl_cons, ih, addBorder]
      dsimp only
      rw [List.append_assoc, List.singleton_append]
      refine congrArg _ (congrArg _ ?_)
      cases bs with
      | nil => rfl
      | cons c bs => rfl

lemma foldl_addBorder_distribution (bs : List ℕ) (s : Intervals) (last : ℕ)
    (hback : s.back.domain = last + D.firstDomain)
    (hsteps : (last :: (bs.map D.domainAt ++ [D.ndomains])).IsChain fun d d' => d ≤ d' ∧ d' ≤ d + 1)
    (hlast : last < D.ndomains) (hlt : ∀ b ∈ bs, D.domainAt b < D.ndomains) :
    (bs.foldl (D.addBorder permutation) s).eintervalsDistribution
        ++ [(bs.foldl (D.addBorder permutation) s).closed.length + 1]
      = s.eintervalsDistribution
        ++ spread D.ndomains last (s.closed.length + 1) (bs.map D.domainAt) := by
  induction bs generalizing s last with
  | nil =>
      have hend := (List.isChain_cons_cons.mp hsteps).1.2
      rw [List.foldl_nil, List.map_nil, spread, show D.ndomains - last = 1 by omega]
      rfl
  | cons b bs ih =>
      obtain ⟨⟨hle, hsucc⟩, hsteps⟩ := List.isChain_cons_cons.mp hsteps
      obtain ⟨hb, hlt⟩ := List.forall_mem_cons.mp hlt
      rw [List.foldl_cons, ih _ (D.domainAt b) rfl hsteps hb hlt, List.map_cons, spread,
        ← List.append_assoc, addBorder]
      dsimp only
      rw [List.length_append, List.length_singleton, hback, interval]
      refine congrArg₂ _ ?_ rfl
      rcases Nat.eq_or_lt_of_le hle with heq | hstep
      · rw [if_neg (by simp [heq]), heq, Nat.sub_self, List.replicate_zero, List.append_nil]
      · rw [if_pos (by simp only [ne_eq, Nat.add_right_cancel_iff]; omega),
          show D.domainAt b - last = 1 by omega]
        rfl

end Loop

/-! ## The result -/

section Main

variable {D} (S : Sorting ℕ)

lemma domainAt_zero : D.domainAt 0 = 0 := by
  obtain ⟨hd, hlow, -⟩ := domainAt_spec D.size_pos
  by_contra hne
  have hprev := D.nonempty (D.domainAt 0 - 1) (by omega)
  rw [Nat.sub_add_cancel (Nat.one_le_iff_ne_zero.mpr hne)] at hprev
  omega

lemma domainAt_last : D.domainAt (D.size - 1) + 1 = D.ndomains := by
  have hsize := D.size_pos
  obtain ⟨hd, hlow, hhigh⟩ := domainAt_spec (show D.size - 1 < D.size by omega)
  by_contra hne
  have hnext := D.nonempty (D.domainAt (D.size - 1) + 1) (by omega)
  have hle := D.elementsDistribution.border_le_total
    (show D.domainAt (D.size - 1) + 1 + 1 ≤ D.ndomains by omega)
  omega

lemma isChain_domains (permutation bs : List ℕ)
    (hbs : D.allBorders permutation = 0 :: (bs ++ [D.size])) :
    (0 :: (bs.map D.domainAt ++ [D.ndomains])).IsChain fun d d' => d ≤ d' ∧ d' ≤ d + 1 := by
  have hcut := D.cut_allBorders permutation
  have hinner : ∀ b ∈ bs, b < D.size := by
    intro b hb
    have hpair := hcut.ascending
    rw [hbs] at hpair
    exact (List.pairwise_append.mp (List.pairwise_cons.mp hpair).2).2.2 b hb D.size
      (List.mem_singleton_self _)
  have hmap : 0 :: (bs.map D.domainAt ++ [D.ndomains])
      = (D.allBorders permutation).map fun b => if b < D.size then D.domainAt b else D.ndomains := by
    rw [hbs, List.map_cons, List.map_append, List.map_singleton, if_pos D.size_pos, domainAt_zero,
      if_neg (lt_irrefl _)]
    refine congrArg _ (congrArg (· ++ _) (List.map_congr_left fun b hb => ?_))
    rw [if_pos (hinner b hb)]
  rw [hmap, List.isChain_map, List.isChain_iff_getElem]
  intro i hi
  have ha := List.getElem?_eq_getElem (Nat.lt_of_succ_lt hi)
  have hb := List.getElem?_eq_getElem hi
  generalize (D.allBorders permutation)[i] = a at ha
  generalize (D.allBorders permutation)[i + 1] = b at hb
  obtain ⟨hab, hle⟩ := lt_of_border hcut ha hb
  have hkey := (Prod.mk.inj (hcut.key_eq ha hb (Nat.le_sub_one_of_lt hab)
    (Nat.sub_one_lt_of_lt hab))).1
  rw [if_pos (hab.trans_le hle)]
  split_ifs with hlt
  · have hstep := domainAt_succ_le (D := D) (e := b - 1) (by omega)
    rw [Nat.sub_add_cancel (by omega : 1 ≤ b), hkey] at hstep
    exact ⟨domainAt_mono hab.le hlt, hstep⟩
  · obtain rfl : b = D.size := by omega
    have hlast := domainAt_last (D := D)
    rw [hkey] at hlast
    omega

lemma arrange_eintervals : (D.arrangeElementsPermutation S).eintervals
    = intervalsBetween (fun e => D.domainAt e + D.firstDomain) (D.codeAt (D.sortDomains S))
        (D.allBorders (D.sortDomains S)) := by
  rw [arrangeElementsPermutation]
  dsimp only
  rw [foldl_addBorder_intervals, List.nil_append, allBorders]
  rcases hl : sortAndRemoveDuplicity
      ((List.range D.threads).flatMap (D.iboundaries (D.sortDomains S))) ++ [D.size] with _ | ⟨b, l⟩
  · exact absurd hl (by simp)
  · rw [intervalsBetween_cons, domainAt_zero, Nat.zero_add]
    rfl

lemma arrange_distribution : (D.arrangeElementsPermutation S).eintervalsDistribution
    = (List.range (D.ndomains + 1)).map
        (lowerBound (domainsBetween D.domainAt (D.allBorders (D.sortDomains S)))) := by
  have hcut := D.cut_allBorders (D.sortDomains S)
  have hchain := isChain_domains (D := D) (D.sortDomains S) _ rfl
  have hsorted := domainsBetween_sorted hcut fun a b hab hb => domainAt_mono hab hb
  have hlt := lt_of_mem_domainsBetween hcut fun e he => (domainAt_spec he).1
  rw [arrangeElementsPermutation]
  dsimp only
  rw [allBorders, ← List.cons_append, domainsBetween_concat, List.map_cons, domainAt_zero] at hsorted hlt ⊢
  generalize sortAndRemoveDuplicity
    ((List.range D.threads).flatMap (D.iboundaries (D.sortDomains S))) = bs at hchain hsorted hlt ⊢
  have hpos := hlt 0 List.mem_cons_self
  have hloop := foldl_addBorder_distribution (D := D) (D.sortDomains S) bs
    ⟨[], ⟨0, 0, D.firstDomain, D.codeAt (D.sortDomains S) 0⟩, [0]⟩ 0 (Nat.zero_add _).symm hchain hpos
    fun b hb => hlt _ (List.mem_cons_of_mem _ (List.mem_map_of_mem hb))
  have hspread := spread_eq [0] 0 hsorted (fun d hd => (List.mem_singleton.mp hd).le)
    (fun d _ => Nat.zero_le d) (fun d hd => hlt d (List.mem_cons_of_mem _ hd)) (Nat.zero_le _)
  rw [List.length_append, List.length_singleton, hloop]
  rw [List.singleton_append] at hspread
  rw [← hspread]
  refine congrArg (· ++ _) ?_
  rw [Nat.zero_add, List.range_one, List.map_singleton, lowerBound_cons, if_pos le_rfl]

variable (D) in
/-- **`MeshPreprocessing::arrangeElementsPermutation`** reorders elements within their domains and
makes their intervals. -/
theorem arranged : D.ArrangedRight (D.arrangeElementsPermutation S) := by
  have hcut := D.cut_allBorders (D.sortDomains S)
  refine ⟨length_sortDomains, fun d hd => ?_, fun e he => domainAt_spec he, ?_⟩
  · have hwindow := window_sortDomains (S := S) hd
    rw [arrangeElementsPermutation]
    dsimp only
    rw [hwindow]
    exact sorted_perm d
  · have harranged := arranged_of_cut hcut (fun a b hab hb => domainAt_mono hab hb)
      (fun e he => (domainAt_spec he).1) D.firstDomain
    rw [← arrange_eintervals, ← arrange_distribution] at harranged
    exact harranged

end Main

end Decomposition

end Espreso
