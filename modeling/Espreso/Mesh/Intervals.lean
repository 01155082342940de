import Espreso.Lib.Layout
import Espreso.Basis.Communication
import Espreso.Basis.Distribution
import Mathlib.Data.List.Dedup
import Mathlib.Data.List.Sort

/-!
# Node intervals

The nodes of the mesh are grouped into intervals: the nodes of one interval are shared by the same
domains.  Every process holds the intervals of its own domains, numbers their nodes one after the
other, and every domain does the same with the intervals it takes part in.

* `Interval`, `System` — the intervals of the whole mesh, with the Dirichlet regions on them and the
  distribution of the domains to the ranks.
* **`pintervals_eq`**, **`gintervals_eq`** — both in closed form.
-/

namespace Espreso

open Layout

/-! ## The whole mesh -/

/-- The part of a Dirichlet region on one interval: positions of nodes within the interval, and the
values prescribed there. -/
structure Region where
  nodes : List ℕ
  value : ℕ → ℚ

/-- Nodes shared by the same domains.  `regions dof` are the regions on which the condition for one
degree of freedom is given; they have no node in common. -/
structure Interval where
  domains : List ℕ
  nonempty : domains ≠ []
  ascending : domains.Pairwise (· < ·)
  size : ℕ
  regions : ℕ → List Region
  region_sorted : ∀ dof, ∀ r ∈ regions dof, r.nodes.Pairwise (· < ·)
  region_lt : ∀ dof, ∀ r ∈ regions dof, ∀ n ∈ r.nodes, n < size
  region_disjoint : ∀ dof, ((regions dof).flatMap Region.nodes).Nodup

namespace Interval

def front (i : Interval) : ℕ := i.domains.head i.nonempty

lemma front_mem (i : Interval) : i.front ∈ i.domains := List.head_mem i.nonempty

lemma front_le (i : Interval) {d : ℕ} (hd : d ∈ i.domains) : i.front ≤ d := by
  have hcons : i.domains = i.front :: i.domains.tail := (List.cons_head_tail i.nonempty).symm
  rw [hcons] at hd
  rcases List.mem_cons.mp hd with rfl | hd
  · exact le_refl _
  · have h := i.ascending
    rw [hcons] at h
    exact le_of_lt ((List.pairwise_cons.mp h).1 d hd)

lemma noRegions_sorted (_dof : ℕ) : ∀ r ∈ ([] : List Region), r.nodes.Pairwise (· < ·) := by simp

lemma noRegions_disjoint (_dof : ℕ) : (([] : List Region).flatMap Region.nodes).Nodup := by simp

lemma pair_nonempty : [0, 1] ≠ [] := by decide

lemma pair_ascending : [0, 1].Pairwise (· < ·) := by decide

end Interval

/-- The intervals of a mesh in the order in which they are kept, and the distribution of its domains
to the ranks.  A rank knows the ranks with which it shares intervals (and possibly more). -/
structure System where
  ranks : ℕ
  domains : ℕ
  distribution : Distribution ranks domains
  DOFs : ℕ
  DOFs_pos : 0 < DOFs
  count : ℕ
  interval : ℕ → Interval
  domains_lt : ∀ g < count, ∀ d ∈ (interval g).domains, d < domains
  neighbours : ℕ → List ℕ
  neighbours_sorted : ∀ r, (neighbours r).Pairwise (· < ·)
  neighbours_lt : ∀ r, ∀ q ∈ neighbours r, q < ranks
  neighbours_irrefl : ∀ r, r ∉ neighbours r
  neighbours_symm : ∀ r q, q ∈ neighbours r → r ∈ neighbours q
  neighbours_of_shared : ∀ g < count, ∀ d ∈ (interval g).domains, ∀ e ∈ (interval g).domains,
    ∀ r q, distribution.border r ≤ d → d < distribution.border (r + 1) →
      distribution.border q ≤ e → e < distribution.border (q + 1) → r ≠ q → q ∈ neighbours r
  count_le : count ≤ limit

/-- The lambda `d2p`: the rank that holds a domain. -/
def d2p (domainsProcDistribution : List ℕ) (d : ℕ) : ℕ :=
  lowerBound domainsProcDistribution (d + 1) - 1

/-- The lambda `n2i`: the position of a rank among the neighbours. -/
def n2i (neighbours : List ℕ) (n : ℕ) : ℕ := lowerBound neighbours n

namespace System

lemma noNeighbours_sorted (_r : ℕ) : ([] : List ℕ).Pairwise (· < ·) := List.Pairwise.nil

lemma noNeighbours_lt (_r : ℕ) : ∀ q ∈ ([] : List ℕ), q < 1 := by simp

lemma noNeighbours_irrefl (r : ℕ) : r ∉ ([] : List ℕ) := List.not_mem_nil

lemma noNeighbours_symm (r q : ℕ) (h : q ∈ ([] : List ℕ)) : r ∈ ([] : List ℕ) :=
  absurd h List.not_mem_nil

lemma one_le_limit : 1 ≤ limit := by decide

/-! ### Domains of a mesh -/

variable (sys : System)

def rankOf (d : ℕ) : ℕ := d2p sys.distribution.borders d

variable {sys}

lemma rankOf_spec {d : ℕ} (hd : d < sys.domains) :
    sys.rankOf d < sys.ranks ∧ sys.distribution.border (sys.rankOf d) ≤ d ∧
      d < sys.distribution.border (sys.rankOf d + 1) := by
  obtain ⟨t, ht, hle, hlow, hup⟩ := lowerBound_spec sys.distribution d
  have hrank : sys.rankOf d = t := by rw [rankOf, d2p, ht, Nat.add_sub_cancel]
  have hlt : t < sys.ranks := by
    rcases eq_or_lt_of_le hle with rfl | h
    · rw [Distribution.border_size] at hlow
      omega
    · exact h
  rw [hrank]
  exact ⟨hlt, hlow, hup hlt⟩

lemma rankOf_eq {d r : ℕ} (hr : r < sys.ranks) (h₁ : sys.distribution.border r ≤ d)
    (h₂ : d < sys.distribution.border (r + 1)) : sys.rankOf d = r := by
  have hd : d < sys.domains := lt_of_lt_of_le h₂ (sys.distribution.border_le_total hr)
  obtain ⟨hlt, hlow, hup⟩ := rankOf_spec hd
  by_contra hne
  rcases lt_or_gt_of_ne hne with h | h
  · have := sys.distribution.border_mono (by omega : sys.rankOf d + 1 ≤ r) (le_of_lt hr)
    omega
  · have := sys.distribution.border_mono (by omega : r + 1 ≤ sys.rankOf d) (le_of_lt hlt)
    omega

lemma rankOf_iff {d r : ℕ} (hd : d < sys.domains) (hr : r < sys.ranks) :
    sys.rankOf d = r ↔
      sys.distribution.border r ≤ d ∧ d < sys.distribution.border (r + 1) := by
  refine ⟨fun h => ?_, fun h => rankOf_eq hr h.1 h.2⟩
  rw [← h]
  exact (rankOf_spec hd).2

lemma rankOf_mono {d e : ℕ} (hde : d ≤ e) (he : e < sys.domains) :
    sys.rankOf d ≤ sys.rankOf e := by
  obtain ⟨h₁, h₂, h₃⟩ := rankOf_spec (lt_of_le_of_lt hde he)
  obtain ⟨h₄, h₅, h₆⟩ := rankOf_spec he
  by_contra h
  have := sys.distribution.border_mono (by omega : sys.rankOf e + 1 ≤ sys.rankOf d) (le_of_lt h₁)
  omega

variable (sys)

/-- The ranks of the domains of an interval, one for each domain. -/
def iranks (g : ℕ) : List ℕ := (sys.interval g).domains.map sys.rankOf

/-- The rank that numbers an interval: the rank of its first domain. -/
def owner (g : ℕ) : ℕ := sys.rankOf (sys.interval g).front

variable {sys}

lemma owner_mem (g : ℕ) : sys.owner g ∈ sys.iranks g :=
  List.mem_map_of_mem (sys.interval g).front_mem

lemma iranks_lt {g : ℕ} (hg : g < sys.count) {r : ℕ} (hr : r ∈ sys.iranks g) : r < sys.ranks := by
  obtain ⟨d, hd, rfl⟩ := List.mem_map.mp hr
  exact (rankOf_spec (sys.domains_lt g hg d hd)).1

lemma owner_lt {g : ℕ} (hg : g < sys.count) : sys.owner g < sys.ranks :=
  iranks_lt hg (owner_mem g)

lemma owner_le {g : ℕ} (hg : g < sys.count) {r : ℕ} (hr : r ∈ sys.iranks g) :
    sys.owner g ≤ r := by
  obtain ⟨d, hd, rfl⟩ := List.mem_map.mp hr
  exact rankOf_mono ((sys.interval g).front_le hd) (sys.domains_lt g hg d hd)

lemma neighbours_mem {g : ℕ} (hg : g < sys.count) {r q : ℕ} (hr : r ∈ sys.iranks g)
    (hq : q ∈ sys.iranks g) (hrq : r ≠ q) : q ∈ sys.neighbours r := by
  obtain ⟨d, hd, rfl⟩ := List.mem_map.mp hr
  obtain ⟨e, he, rfl⟩ := List.mem_map.mp hq
  obtain ⟨-, h₁, h₂⟩ := rankOf_spec (sys.domains_lt g hg d hd)
  obtain ⟨-, h₃, h₄⟩ := rankOf_spec (sys.domains_lt g hg e he)
  exact sys.neighbours_of_shared g hg d hd e he _ _ h₁ h₂ h₃ h₄ hrq

end System

/-! ## What one rank holds -/

/-- An interval as a rank holds it: the numbers of its nodes, the domains that share it (`idomains`)
and their ranks (`iranks`).  Regions list numbers of nodes here. -/
structure ProcessInterval where
  (begin' end' : ℕ)
  domains : List ℕ
  ranks : List ℕ
  regions : ℕ → List Region

/-- The mesh of one rank. -/
structure Mesh where
  rank : ℕ
  firstDomain : ℕ
  ndomains : ℕ
  domainsProcDistribution : List ℕ
  neighbours : List ℕ
  pintervals : List ProcessInterval

namespace System

variable (sys : System)

/-- Interval `g` with its nodes numbered from `ioffset` on. -/
def view (ioffset g : ℕ) : ProcessInterval :=
  { begin' := ioffset, end' := ioffset + (sys.interval g).size
    domains := (sys.interval g).domains
    ranks := sys.iranks g
    regions := fun dof => ((sys.interval g).regions dof).map fun r =>
      ⟨r.nodes.map (ioffset + ·), fun n => r.value (n - ioffset)⟩ }

/-- The intervals of rank `r`. -/
def ids (r : ℕ) : List ℕ := (List.range sys.count).filter fun g => r ∈ sys.iranks g

/-- The number of the first node of interval `g` on rank `r`. -/
def nodeOffset (r g : ℕ) : ℕ := start (fun h => if r ∈ sys.iranks h then (sys.interval h).size else 0) g

/-- The mesh of rank `r`: its intervals in the order of the whole mesh, with its nodes numbered one
after the other. -/
def mesh (r : ℕ) : Mesh where
  rank := r
  firstDomain := sys.distribution.border r
  ndomains := sys.distribution.border (r + 1) - sys.distribution.border r
  domainsProcDistribution := sys.distribution.borders
  neighbours := sys.neighbours r
  pintervals := accumulate (fun g => (sys.interval g).size) (fun off g => sys.view off g) 0 (sys.ids r)

/-- **The intervals of a rank** in closed form. -/
theorem pintervals_eq (r : ℕ) :
    (sys.mesh r).pintervals = (sys.ids r).map fun g => sys.view (sys.nodeOffset r g) g :=
  accumulate_filter (fun g => (sys.interval g).size) (fun off g => sys.view off g) _ _

variable {sys}

lemma mem_ids {r g : ℕ} : g ∈ sys.ids r ↔ g < sys.count ∧ r ∈ sys.iranks g := by
  simp [ids]

end System

/-! ## The intervals of a domain -/

/-- An interval as a domain holds it; `α` is what the rank knows about the interval.  The numbers of
its nodes in the domain start at `DOFOffset`, and the domain is the one at `dindex` of the
`ndomains` domains that share the interval. -/
structure GluingInterval (α : Type) where
  interval : α
  DOFOffset : ℕ
  dindex : ℕ
  ndomains : ℕ

/-- The loop over the intervals of the rank that collects those of one domain. -/
def gintervals {α : Type} (pinterval : α → ProcessInterval) (domain : ℕ) :
    ℕ → List α → List (GluingInterval α)
  | _, [] => []
  | doffset, i :: is =>
    let domains := (pinterval i).domains
    let iit := lowerBound domains domain
    if domains[iit]? = some domain then
      ⟨i, doffset, iit, domains.length⟩ ::
        gintervals pinterval domain (doffset + ((pinterval i).end' - (pinterval i).begin')) is
    else gintervals pinterval domain doffset is

lemma gintervals_eq_accumulate {α : Type} (pinterval : α → ProcessInterval) (domain : ℕ)
    (l : List α) (hl : ∀ i ∈ l, (pinterval i).domains.Pairwise (· < ·)) (doffset : ℕ) :
    gintervals pinterval domain doffset l
      = accumulate (fun i => (pinterval i).end' - (pinterval i).begin')
        (fun off i => ⟨i, off, lowerBound (pinterval i).domains domain, (pinterval i).domains.length⟩)
        doffset (l.filter fun i => domain ∈ (pinterval i).domains) := by
  induction l generalizing doffset with
  | nil => rfl
  | cons i l ih =>
      have hi : (pinterval i).domains[lowerBound (pinterval i).domains domain]? = some domain ↔ _ :=
        lowerBound_mem (hl i (by simp))
      rw [gintervals]
      by_cases h : domain ∈ (pinterval i).domains
      · rw [if_pos (hi.mpr h), List.filter_cons_of_pos (by simpa using h), accumulate,
          ih fun j hj => hl j (by simp [hj])]
      · rw [if_neg fun h' => h (hi.mp h'), List.filter_cons_of_neg (by simpa using h),
          ih fun j hj => hl j (by simp [hj])]

namespace System

variable (sys : System)

/-- The intervals of domain `d`. -/
def domainIds (d : ℕ) : List ℕ := (List.range sys.count).filter fun g => d ∈ (sys.interval g).domains

/-- The number of the first node of interval `g` in domain `d`. -/
def dofOffset (d g : ℕ) : ℕ :=
  start (fun h => if d ∈ (sys.interval h).domains then (sys.interval h).size else 0) g

variable {sys}

lemma mem_domainIds {d g : ℕ} :
    g ∈ sys.domainIds d ↔ g < sys.count ∧ d ∈ (sys.interval g).domains := by
  simp [domainIds]

lemma filter_ids (d : ℕ) :
    (sys.ids (sys.rankOf d)).filter (fun g => d ∈ (sys.interval g).domains) = sys.domainIds d := by
  rw [ids, domainIds, List.filter_filter]
  refine List.filter_congr fun g _ => ?_
  by_cases h : d ∈ (sys.interval g).domains
  · have : sys.rankOf d ∈ sys.iranks g := List.mem_map_of_mem h
    simp [h, this]
  · simp [h]

/-- **The intervals of a domain** in closed form, whatever the rank attaches to its intervals. -/
theorem gintervals_eq (sys : System) {α : Type} (pinterval : α → ProcessInterval) (attach : ℕ → α) (d : ℕ)
    (hattach : ∀ g, pinterval (attach g) = sys.view (sys.nodeOffset (sys.rankOf d) g) g) :
    gintervals pinterval d 0 ((sys.ids (sys.rankOf d)).map attach)
      = (sys.domainIds d).map fun g => ⟨attach g, sys.dofOffset d g,
          lowerBound (sys.interval g).domains d, (sys.interval g).domains.length⟩ := by
  rw [gintervals_eq_accumulate, List.filter_map]
  · have hfilter : (sys.ids (sys.rankOf d)).filter
        ((fun i => decide (d ∈ (pinterval i).domains)) ∘ attach) = sys.domainIds d := by
      rw [← filter_ids]
      refine List.filter_congr fun g _ => ?_
      simp only [Function.comp, hattach, view]
    rw [hfilter, accumulate_map]
    simp only [hattach, view, Nat.add_sub_cancel_left]
    exact accumulate_filter (fun g => (sys.interval g).size) _ _ _
  · intro i hi
    obtain ⟨g, -, rfl⟩ := List.mem_map.mp hi
    rw [hattach]
    exact (sys.interval g).ascending

end System

end Espreso
