import Espreso.Mesh.ElementIntervals
import Mathlib.Data.List.Count
import Mathlib.Data.Prod.Lex

/-!
# Intervals of boundary elements

Elements of a boundary region belong to the domain of an element of the rank that has all their
nodes. `MeshPreprocessing::arrangeRegions` finds these elements, sorts the boundary elements by
their domains and classes, and makes their intervals.

* `BoundaryElements` — the elements of a boundary region.
* **`eintervals_arranged`** — the intervals of elements and of boundary elements are right.
-/

namespace Espreso

open Reorder

/-- The elements of a boundary region of a rank, by their nodes. `links` are the elements of each
node, from all ranks, and those of the rank are numbered from `eoffset` on. A class of elements is
given by its address, from which its code is read. -/
structure BoundaryElements (D : Decomposition) where
  eoffset : ℕ
  links : ℕ → List ℕ
  elements : List (List ℕ)
  epointers : List ℕ
  code : ℕ → ℕ
  length_eq : epointers.length = elements.length
  links_nodup : ∀ n, (links n).Nodup
  nodes : ∀ e ∈ elements, 2 ≤ e.length
  parent : ∀ e ∈ elements, ∃ p, eoffset ≤ p ∧ p < eoffset + D.size ∧ ∀ n ∈ e, p ∈ links n

/-- The loop over the sorted links of all nodes: the first element of the rank that occurs once for
each node. `counter` counts the links that are the same as the last one. -/
def findMember (count eoffset : ℕ) : ℕ → ℕ → List ℕ → Option ℕ
  | _, _, [] => none
  | prev, counter, link :: rest =>
    if prev = link then
      if counter + 1 = count ∧ eoffset ≤ link then some link
      else findMember count eoffset link (counter + 1) rest
    else findMember count eoffset link 1 rest

namespace BoundaryElements

variable {D : Decomposition} (B : BoundaryElements D)

def enodes (e : ℕ) : List ℕ := B.elements.getD e []

/-- `nlinks`: the links of all nodes, sorted. -/
def nlinks (e : ℕ) : List ℕ := ((B.enodes e).flatMap B.links).mergeSort

def member (e : ℕ) : Option ℕ :=
  match B.nlinks e with
  | [] => none
  | link :: rest => findMember (B.enodes e).length B.eoffset link 1 rest

/-- `emembership`, which is zero where no element is found. -/
def emembership (e : ℕ) : ℕ := (B.member e).getD 0

/-- `edomain`, which is zero where no element is found. -/
def edomain (e : ℕ) : ℕ :=
  (B.member e).elim 0 fun link =>
    lowerBound D.elementsDistribution.borders (link + 1 - B.eoffset) - 1

variable (S : Sorting (ℕ ×ₗ ℕ ×ₗ ℕ))

/-- The boundary elements, sorted by their domains, classes and memberships. -/
def permutation : List ℕ :=
  S.sort (fun e => toLex (B.edomain e, toLex (B.epointers.getD e 0, B.emembership e)))
    B.elements.length

/-- `edistribution`: the boundary elements of domains. -/
def edistribution : List ℕ :=
  D.elementsDistribution.borders.map fun d : ℕ =>
    lowerBound ((B.permutation S).map fun e => (B.emembership e : ℤ) - B.eoffset) (d : ℤ)

/-- The code of the element at a position, when the store is permuted. -/
def codeAt (e : ℕ) : ℕ := B.code ((gather (B.permutation S) B.epointers).getD e 0)

/-- The domain of the element at a position: the permutation is applied to `edomain`. -/
def domainAt (e : ℕ) : ℕ := B.edomain ((B.permutation S).getD e 0)

def iboundaries (t : ℕ) : List ℕ :=
  (D.domains t).flatMap fun d =>
    (B.edistribution S).getD d 0
      :: (List.range' ((B.edistribution S).getD d 0 + 1)
          ((B.edistribution S).getD (d + 1) 0 - ((B.edistribution S).getD d 0 + 1))).filter
            fun e => B.codeAt S e ≠ B.codeAt S (e - 1)

/-- `iboundaries[0]` with the borders of all threads; the last border is added to those of the last
thread. -/
def borders : List ℕ :=
  sortAndRemoveDuplicity ((List.range D.threads).flatMap (B.iboundaries S)
    ++ [(B.edistribution S).getLastD 0])

/-- The loop that fills `eintervalsDistribution`; `i` is the number of the next interval. Descending
domains are no number of entries. -/
def fillDistribution (ndomains : ℕ) : ℕ → ℕ → List ℕ → Option (List ℕ)
  | lastDomain, i, [] => some (List.replicate (ndomains - lastDomain) i)
  | lastDomain, i, domain :: domains => do
    let rest ← fillDistribution ndomains domain (i + 1) domains
    if domain ≠ lastDomain then
      if lastDomain < domain then some (List.replicate (domain - lastDomain) i ++ rest) else none
    else some rest

/-- The boundary elements with their intervals. -/
structure Arranged where
  permutation : List ℕ
  tdistribution : List ℕ
  eintervals : List ElementsInterval
  eintervalsDistribution : List ℕ

/-- **The part of `MeshPreprocessing::arrangeRegions`** about the elements of a boundary region. -/
def arrangeBoundary : Option Arranged := do
  let eintervals := intervalsBetween (B.domainAt S) (B.codeAt S) (B.borders S)
  let distribution ← fillDistribution D.ndomains 0 0 (eintervals.map ElementsInterval.domain)
  pure { permutation := B.permutation S
         tdistribution := D.domainDistribution.borders.map fun d => (B.edistribution S).getD d 0
         eintervals
         eintervalsDistribution := 0 :: distribution }

/-- **Boundary elements belong to the domain of an element with all their nodes**, and their
intervals are arranged. -/
structure ArrangedRight (out : Arranged) : Prop where
  order : out.permutation = B.permutation S
  perm : out.permutation.Perm (List.range B.elements.length)
  domain : ∀ e < B.elements.length, ∃ p, (∀ n ∈ B.enodes e, B.eoffset + p ∈ B.links n) ∧
    p < D.size ∧ B.edomain e = D.domainAt p
  intervals : ArrangedIntervals B.elements.length D.ndomains 0 (B.domainAt S) (B.codeAt S)
    out.eintervals out.eintervalsDistribution

end BoundaryElements

/-! ## The search for the element with all nodes -/

/-- The number of links to an element, where the loop has counted the last ones. -/
def linksTo (prev counter : ℕ) (rest : List ℕ) (p : ℕ) : ℕ :=
  (if p = prev then counter else 0) + rest.count p

lemma linksTo_same (prev counter : ℕ) (rest : List ℕ) (p : ℕ) :
    linksTo prev counter (prev :: rest) p = linksTo prev (counter + 1) rest p := by
  rw [linksTo, linksTo, List.count_cons]
  by_cases h : p = prev
  · subst h
    simp
    omega
  · simp [h, Ne.symm h]

lemma linksTo_one (link : ℕ) (rest : List ℕ) (p : ℕ) :
    linksTo link 1 rest p = (link :: rest).count p := by
  rw [linksTo, List.count_cons, Nat.add_comm]
  by_cases h : p = link
  · subst h
    simp
  · simp [h, Ne.symm h]

lemma linksTo_other {prev counter link : ℕ} {rest : List ℕ} {p : ℕ} (hp : p ≠ prev) :
    linksTo prev counter (link :: rest) p = linksTo link 1 rest p := by
  rw [linksTo_one, linksTo, if_neg hp, Nat.zero_add]

lemma findMember_spec {count eoffset prev counter : ℕ} {rest : List ℕ}
    (hsorted : (prev :: rest).Pairwise (· ≤ ·)) (hcount : 2 ≤ count)
    (hmax : ∀ q, linksTo prev counter rest q ≤ count) {p : ℕ} (hoffset : eoffset ≤ p)
    (hp : linksTo prev counter rest p = count) (hprev : p = prev → counter < count) :
    ∃ m, findMember count eoffset prev counter rest = some m ∧ eoffset ≤ m ∧ m ≤ p ∧
      linksTo prev counter rest m = count := by
  induction rest generalizing prev counter with
  | nil =>
      rw [linksTo, List.count_nil, Nat.add_zero] at hp
      split_ifs at hp with heq
      · exact absurd hp (hprev heq).ne
      · omega
  | cons link rest ih =>
      obtain ⟨hle, hrest⟩ := List.pairwise_cons.mp hsorted
      rw [findMember]
      by_cases hsame : prev = link
      · subst hsame
        rw [if_pos rfl]
        simp only [linksTo_same] at hmax hp ⊢
        split_ifs with hfound
        · -- the element is found, and it is the first one of the rest
          refine ⟨prev, rfl, hfound.2, ?_, ?_⟩
          · by_contra hlt
            rw [linksTo, if_neg (by omega), Nat.zero_add, List.count_eq_zero_of_not_mem] at hp
            · omega
            · intro hmem
              have := (List.pairwise_cons.mp hrest).1 p hmem
              omega
          · have h := hmax prev
            rw [linksTo, if_pos rfl] at h ⊢
            omega
        · refine ih hrest hmax hp fun heq => ?_
          have h := hmax prev
          rw [linksTo, if_pos rfl] at h
          subst heq
          rcases Nat.lt_or_ge (counter + 1) count with hlt | hge
          · exact hlt
          · exact absurd ⟨by omega, hoffset⟩ hfound
      · rw [if_neg hsame]
        have hlt : prev < link := lt_of_le_of_ne (hle link List.mem_cons_self) hsame
        have habove : ∀ x ∈ link :: rest, prev < x := by
          intro x hx
          rcases List.mem_cons.mp hx with rfl | hx
          · exact hlt
          · exact hlt.trans_le ((List.pairwise_cons.mp hrest).1 x hx)
        have hzero : (link :: rest).count prev = 0 :=
          List.count_eq_zero_of_not_mem fun hmem => lt_irrefl _ (habove prev hmem)
        have hpne : p ≠ prev := by
          rintro rfl
          rw [linksTo, if_pos rfl, hzero] at hp
          exact absurd hp (by have := hprev rfl; omega)
        have hprevlink : linksTo link 1 rest prev = 0 := by
          rw [linksTo, if_neg hsame, Nat.zero_add]
          exact List.count_eq_zero_of_not_mem fun hmem =>
            lt_irrefl _ (habove prev (List.mem_cons_of_mem _ hmem))
        have hmax' : ∀ q, linksTo link 1 rest q ≤ count := by
          intro q
          by_cases hq : q = prev
          · rw [hq, hprevlink]
            exact Nat.zero_le _
          · rw [← linksTo_other hq]
            exact hmax q
        rw [linksTo_other hpne] at hp
        obtain ⟨m, hm, hmoffset, hmp, hmcount⟩ := ih hrest hmax' hp fun _ => by omega
        refine ⟨m, hm, hmoffset, hmp, ?_⟩
        rwa [linksTo_other]
        rintro rfl
        omega

namespace BoundaryElements

section Member

variable {D : Decomposition} {B : BoundaryElements D}

lemma enodes_mem {e : ℕ} (he : e < B.elements.length) : B.enodes e ∈ B.elements := by
  rw [enodes, List.getD_eq_getElem _ _ he]
  exact List.getElem_mem he

lemma count_nlinks (e p : ℕ) :
    (B.nlinks e).count p = ((B.enodes e).map fun n => (B.links n).count p).sum := by
  rw [nlinks, (List.mergeSort_perm _ _).count_eq, List.count_flatMap]
  rfl

lemma count_links_le (n p : ℕ) : (B.links n).count p ≤ 1 :=
  List.nodup_iff_count_le_one.mp (B.links_nodup n) p

lemma sum_count_le (nodes : List ℕ) (p : ℕ) :
    (nodes.map fun n => (B.links n).count p).sum ≤ nodes.length := by
  induction nodes with
  | nil => exact le_rfl
  | cons n nodes ih =>
      have hn := count_links_le (B := B) n p
      rw [List.map_cons, List.sum_cons, List.length_cons]
      omega

lemma sum_count_eq_iff (nodes : List ℕ) (p : ℕ) :
    (nodes.map fun n => (B.links n).count p).sum = nodes.length ↔ ∀ n ∈ nodes, p ∈ B.links n := by
  induction nodes with
  | nil => simp
  | cons n nodes ih =>
      have hn := count_links_le (B := B) n p
      have hnodes := sum_count_le (B := B) nodes p
      rw [List.forall_mem_cons, ← ih, ← List.count_pos_iff, List.map_cons, List.sum_cons,
        List.length_cons]
      omega

lemma member_spec {e : ℕ} (he : e < B.elements.length) :
    ∃ p < D.size, B.member e = some (B.eoffset + p) ∧
      ∀ n ∈ B.enodes e, B.eoffset + p ∈ B.links n := by
  have hmem := enodes_mem he
  have hnodes := B.nodes _ hmem
  obtain ⟨p, hlow, hhigh, hp⟩ := B.parent _ hmem
  have hcount := (sum_count_eq_iff (B.enodes e) p).mpr hp
  rw [← count_nlinks] at hcount
  have hmax : ∀ q, (B.nlinks e).count q ≤ (B.enodes e).length := by
    intro q
    rw [count_nlinks]
    exact sum_count_le _ q
  have hsorted : (B.nlinks e).Pairwise (· ≤ ·) := List.pairwise_mergeSort' (· ≤ ·) _
  have hall : ∀ m, (B.nlinks e).count m = (B.enodes e).length → ∀ n ∈ B.enodes e, m ∈ B.links n := by
    intro m hm
    rw [count_nlinks] at hm
    exact (sum_count_eq_iff _ m).mp hm
  rw [member]
  rcases hlinks : B.nlinks e with _ | ⟨link, rest⟩
  · rw [hlinks, List.count_nil] at hcount
    omega
  · rw [hlinks] at hsorted hmax hcount hall
    simp only [← linksTo_one] at hmax hcount hall
    obtain ⟨m, hm, hmlow, hmp, hmcount⟩ :=
      findMember_spec hsorted hnodes hmax hlow hcount fun _ => hnodes
    obtain ⟨k, rfl⟩ := Nat.exists_eq_add_of_le hmlow
    exact ⟨k, by omega, hm, hall _ hmcount⟩

lemma domain_spec {e : ℕ} (he : e < B.elements.length) :
    ∃ p < D.size, B.emembership e = B.eoffset + p ∧ B.edomain e = D.domainAt p ∧
      ∀ n ∈ B.enodes e, B.eoffset + p ∈ B.links n := by
  obtain ⟨p, hp, hmember, hnodes⟩ := member_spec he
  refine ⟨p, hp, by rw [emembership, hmember]; rfl, ?_, hnodes⟩
  rw [edomain, hmember, Option.elim_some, Nat.add_assoc, Nat.add_sub_cancel_left]
  rfl

lemma membership_lt_iff {e d : ℕ} (he : e < B.elements.length) (hd : d ≤ D.ndomains) :
    (B.emembership e : ℤ) - B.eoffset < (D.elementsDistribution.border d : ℤ) ↔ B.edomain e < d := by
  obtain ⟨p, hp, hmember, hdomain, -⟩ := domain_spec he
  obtain ⟨hlt, hlow, hhigh⟩ := Decomposition.domainAt_spec hp
  rw [hmember, hdomain]
  constructor
  · intro h
    by_contra hge
    have := D.elementsDistribution.border_mono (Nat.le_of_not_lt hge) hlt.le
    omega
  · intro h
    have := D.elementsDistribution.border_mono (show D.domainAt p + 1 ≤ d from h) hd
    omega

lemma edomain_lt {e : ℕ} (he : e < B.elements.length) : B.edomain e < D.ndomains := by
  obtain ⟨p, hp, -, hdomain, -⟩ := domain_spec he
  rw [hdomain]
  exact (Decomposition.domainAt_spec hp).1

end Member

/-! ## The sorted elements -/

section Sorted

variable {D : Decomposition} {B : BoundaryElements D} {S : Sorting (ℕ ×ₗ ℕ ×ₗ ℕ)}

lemma permutation_perm : (B.permutation S).Perm (List.range B.elements.length) := S.perm _ _

lemma length_permutation : (B.permutation S).length = B.elements.length := by
  rw [permutation_perm.length_eq, List.length_range]

lemma lt_of_mem_permutation {e : ℕ} (he : e ∈ B.permutation S) : e < B.elements.length :=
  Within.of_perm permutation_perm e he

variable (B S) in
def domains : List ℕ := (B.permutation S).map B.edomain

lemma length_domains : (B.domains S).length = B.elements.length := by
  rw [domains, List.length_map, length_permutation]

lemma domains_sorted : (B.domains S).Pairwise (· ≤ ·) := by
  have hsorted := S.sorted (fun e => toLex (B.edomain e, toLex (B.epointers.getD e 0,
    B.emembership e))) B.elements.length
  refine List.pairwise_map.mpr (hsorted.imp fun {a b} h => ?_)
  rcases Prod.Lex.le_iff.mp h with hlt | heq
  · exact hlt.le
  · exact heq.1.le

lemma domains_getElem? {e : ℕ} (he : e < B.elements.length) :
    (B.domains S)[e]? = some (B.domainAt S e) := by
  have hlt : e < (B.permutation S).length := by rwa [length_permutation]
  rw [domains, List.getElem?_map, List.getElem?_eq_getElem hlt, Option.map_some, domainAt,
    List.getD_eq_getElem _ _ hlt]

lemma domainAt_lt {e : ℕ} (he : e < B.elements.length) : B.domainAt S e < D.ndomains := by
  obtain ⟨p, hp, heq⟩ := List.mem_map.mp (List.mem_of_getElem? (domains_getElem? (S := S) he))
  rw [← heq]
  exact edomain_lt (lt_of_mem_permutation hp)

lemma lt_lowerBound_domains {d e : ℕ} (he : e < B.elements.length) :
    e < lowerBound (B.domains S) d ↔ B.domainAt S e < d :=
  lt_lowerBound_iff domains_sorted (domains_getElem? he)

lemma domainAt_mono {a b : ℕ} (hab : a ≤ b) (hb : b < B.elements.length) :
    B.domainAt S a ≤ B.domainAt S b := by
  have ha := (lt_lowerBound_domains (S := S) (d := B.domainAt S b + 1) hb).mpr (Nat.lt_succ_self _)
  exact Nat.lt_succ_iff.mp ((lt_lowerBound_domains (hab.trans_lt hb)).mp (hab.trans_lt ha))

lemma lowerBound_domains_zero : lowerBound (B.domains S) 0 = 0 := by
  cases B.domains S with
  | nil => rfl
  | cons d l => rw [lowerBound_cons, if_pos (Nat.zero_le d)]

lemma lowerBound_domains_last : lowerBound (B.domains S) D.ndomains = B.elements.length := by
  rw [lowerBound_eq_length, length_domains]
  intro d hd
  obtain ⟨e, he, rfl⟩ := List.mem_map.mp hd
  exact edomain_lt (lt_of_mem_permutation he)

lemma edistribution_getElem? {d : ℕ} (hd : d ≤ D.ndomains) :
    (B.edistribution S)[d]? = some (lowerBound (B.domains S) d) := by
  rw [edistribution, List.getElem?_map, D.elementsDistribution.getElem?_eq hd, Option.map_some,
    domains]
  refine congrArg some (lowerBound_map_congr fun e he => ?_)
  exact membership_lt_iff (lt_of_mem_permutation he) hd

lemma edistribution_getD {d : ℕ} (hd : d ≤ D.ndomains) :
    (B.edistribution S).getD d 0 = lowerBound (B.domains S) d := by
  rw [List.getD_eq_getElem?_getD, edistribution_getElem? hd, Option.getD_some]

lemma edistribution_last : (B.edistribution S).getLastD 0 = B.elements.length := by
  have hlength : (B.edistribution S).length = D.ndomains + 1 := by
    rw [edistribution, List.length_map, D.elementsDistribution.length_eq]
  rw [← lowerBound_domains_last (S := S), List.getLastD_eq_getLast?, List.getLast?_eq_getElem?,
    hlength, Nat.add_sub_cancel, edistribution_getElem? le_rfl, Option.getD_some]

end Sorted

/-! ## The borders of intervals -/

section Borders

variable {D : Decomposition} {B : BoundaryElements D} {S : Sorting (ℕ ×ₗ ℕ ×ₗ ℕ)}

lemma mem_borders {b : ℕ} : b ∈ B.borders S ↔ b = B.elements.length ∨ ∃ d < D.ndomains,
    b = lowerBound (B.domains S) d ∨ (lowerBound (B.domains S) d < b ∧
      b < lowerBound (B.domains S) (d + 1) ∧ B.codeAt S b ≠ B.codeAt S (b - 1)) := by
  have hthreads : (List.range D.threads).flatMap (B.iboundaries S)
      = (List.range D.ndomains).flatMap fun d =>
        (B.edistribution S).getD d 0
          :: (List.range' ((B.edistribution S).getD d 0 + 1)
              ((B.edistribution S).getD (d + 1) 0 - ((B.edistribution S).getD d 0 + 1))).filter
                fun e => B.codeAt S e ≠ B.codeAt S (e - 1) := by
    rw [← Decomposition.flatMap_domains, List.flatMap_assoc]
    rfl
  rw [borders, mem_sortAndRemoveDuplicity, List.mem_append, List.mem_singleton, edistribution_last,
    or_comm, hthreads, List.mem_flatMap]
  refine or_congr_right (exists_congr fun d => ?_)
  rw [List.mem_range]
  refine and_congr_right fun hd => ?_
  rw [edistribution_getD hd.le, edistribution_getD (show d + 1 ≤ D.ndomains from hd), List.mem_cons,
    List.mem_filter, List.mem_range'_1, decide_eq_true_eq, and_assoc]
  refine or_congr_right (and_congr_right fun hlow => and_congr_left fun _ => ?_)
  omega

lemma cut_borders :
    Cuts.Cut (fun e => (B.domainAt S e, B.codeAt S e)) B.elements.length (B.borders S) := by
  refine ⟨sortAndRemoveDuplicity_sorted _, fun b => ?_⟩
  rw [mem_borders]
  constructor
  · rintro (hb | ⟨d, hd, rfl | ⟨hlow, hhigh, hcode⟩⟩)
    · exact Or.inr (Or.inl hb)
    · -- the first element of a domain
      rcases Nat.eq_zero_or_pos (lowerBound (B.domains S) d) with hzero | hpos
      · exact Or.inl hzero
      rcases Nat.lt_or_ge (lowerBound (B.domains S) d) B.elements.length with hlt | hge
      · refine Or.inr (Or.inr ⟨hpos, hlt, fun heq => ?_⟩)
        have hbefore := (lt_lowerBound_domains (S := S) (d := d) ((Nat.sub_le _ 1).trans_lt hlt)).mp
          (Nat.sub_one_lt_of_lt hpos)
        have hfirst := mt (lt_lowerBound_domains (S := S) (d := d) hlt).mpr (lt_irrefl _)
        rw [(Prod.mk.inj heq).1] at hbefore
        exact hfirst hbefore
      · have hle := lowerBound_le_length (B.domains S) d
        rw [length_domains] at hle
        exact Or.inr (Or.inl (le_antisymm hle hge))
    · -- another code within a domain
      have hle := lowerBound_le_length (B.domains S) (d + 1)
      rw [length_domains] at hle
      exact Or.inr (Or.inr ⟨by omega, by omega, fun heq => hcode (Prod.mk.inj heq).2.symm⟩)
  · rintro (rfl | hb | ⟨hpos, hlt, hne⟩)
    · exact Or.inr ⟨0, (Decomposition.domainAt_spec D.size_pos).1.pos,
        Or.inl lowerBound_domains_zero.symm⟩
    · exact Or.inl hb
    · refine Or.inr ⟨B.domainAt S b, domainAt_lt hlt, ?_⟩
      have hprev : b - 1 < B.elements.length := by omega
      have hlow := mt (lt_lowerBound_domains (S := S) hlt).mp (lt_irrefl (B.domainAt S b))
      have hhigh := (lt_lowerBound_domains (S := S) hlt).mpr (Nat.lt_succ_self (B.domainAt S b))
      have hbefore := lt_lowerBound_domains (S := S) (d := B.domainAt S b) hprev
      have hmono := domainAt_mono (S := S) (Nat.sub_le b 1) hlt
      by_cases hdomain : B.domainAt S (b - 1) = B.domainAt S b
      · refine Or.inr ⟨?_, hhigh, fun heq => hne (Prod.ext hdomain heq.symm)⟩
        rw [hdomain] at hbefore
        have := mt hbefore.mp (lt_irrefl _)
        omega
      · have := hbefore.mpr (lt_of_le_of_ne hmono hdomain)
        exact Or.inl (by omega)

lemma fillDistribution_eq (ndomains : ℕ) {last i : ℕ} {domains : List ℕ}
    (hsorted : (last :: domains).Pairwise (· ≤ ·)) :
    fillDistribution ndomains last i domains = some (spread ndomains last i domains) := by
  induction domains generalizing last i with
  | nil => rfl
  | cons d domains ih =>
      obtain ⟨hle, hrest⟩ := List.pairwise_cons.mp hsorted
      rw [fillDistribution, ih hrest, Option.bind_eq_bind, Option.bind_some, spread]
      rcases Nat.eq_or_lt_of_le (hle d List.mem_cons_self) with rfl | hlt
      · rw [if_neg (not_not.mpr rfl), Nat.sub_self, List.replicate_zero, List.nil_append]
      · rw [if_pos hlt.ne', if_pos hlt]

/-- **The elements of a boundary region** are arranged. -/
theorem arranged :
    ∃ out, B.arrangeBoundary S = some out ∧ B.ArrangedRight S out := by
  have hcut := cut_borders (B := B) (S := S)
  have hmono : ∀ a b, a ≤ b → b < B.elements.length → B.domainAt S a ≤ B.domainAt S b :=
    fun _ _ => domainAt_mono
  have hlt : ∀ e < B.elements.length, B.domainAt S e < D.ndomains := fun _ => domainAt_lt
  have hsorted := domainsBetween_sorted hcut hmono
  have hbelow := lt_of_mem_domainsBetween hcut hlt
  have hdomains : (intervalsBetween (B.domainAt S) (B.codeAt S) (B.borders S)).map
      ElementsInterval.domain = domainsBetween (B.domainAt S) (B.borders S) := by
    rw [intervalsBetween, List.map_map]
    rfl
  have hfill := fillDistribution_eq D.ndomains (i := 0)
    (List.pairwise_cons.mpr ⟨fun d _ => Nat.zero_le d, hsorted⟩)
  rw [arrangeBoundary, hdomains, hfill]
  refine ⟨_, rfl, rfl, permutation_perm, fun e he => ?_, ?_⟩
  · obtain ⟨p, hp, -, hdomain, hnodes⟩ := domain_spec he
    exact ⟨p, hnodes, hp, hdomain⟩
  · have harranged := arranged_of_cut hcut hmono hlt 0
    have hspread := @spread_eq D.ndomains (domainsBetween (B.domainAt S) (B.borders S)) [] 0
      hsorted (fun d hd => absurd hd List.not_mem_nil)
      (fun d _ => Nat.zero_le d) hbelow (Nat.zero_le _)
    rw [List.nil_append, Nat.zero_add, List.range_one, List.map_singleton] at hspread
    rw [← hspread] at harranged
    have hzero : lowerBound (domainsBetween (B.domainAt S) (B.borders S)) 0 = 0 := by
      cases domainsBetween (B.domainAt S) (B.borders S) with
      | nil => rfl
      | cons d l => rw [lowerBound_cons, if_pos (Nat.zero_le d)]
    rw [hzero] at harranged
    exact harranged

end Borders

end BoundaryElements

/-- **The intervals of elements and of boundary elements are right**: elements are reordered within
their domains, and boundary elements are ordered by the domains of the elements that have all their
nodes. -/
theorem eintervals_arranged (D : Decomposition) (S : Sorting ℕ) :
    D.ArrangedRight (D.arrangeElementsPermutation S) ∧
      ∀ (B : BoundaryElements D) (S' : Sorting (ℕ ×ₗ ℕ ×ₗ ℕ)),
        ∃ out, B.arrangeBoundary S' = some out ∧ B.ArrangedRight S' out :=
  ⟨D.arranged S, fun _ _ => BoundaryElements.arranged⟩

end Espreso
