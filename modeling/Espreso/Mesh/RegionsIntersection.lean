import Espreso.Basis.Distribution
import Espreso.Lib.BitTable
import Espreso.Lib.Reorder
import Espreso.Lib.Runs
import Espreso.Mesh.ElementRegions

/-!
# Intersections of boundary regions

The regions of a map are boundary regions, whose node sets may overlap.
`MeshPreprocessing::computeRegionsIntersection` stores the regions of each node as a row of bits,
sorts the nodes by it and makes a region of its own for the nodes of each intersection.

* `BoundaryRegion`, `RegionSets` — the regions of a map.
* **`RegionSets.decomposed_iff`** — when it serves this purpose.
-/

namespace Espreso

open Reorder

/-- The part of `BoundaryRegionStore` about nodes; an interval is given by its begin and end. -/
structure BoundaryRegion where
  name : String
  nodes : List ℕ
  nintervals : List (ℕ × ℕ)
  uniqueNodes : List ℕ
  unintervals : List (ℕ × ℕ)
deriving Inhabited

/-- `BoundaryRegionsIntersectionStore`; its regions are given by their numbers. -/
structure RegionsIntersection where
  name : String
  regions : List ℕ
  uniqueNodes : List ℕ
  unintervals : List (ℕ × ℕ)

/-- The boundary regions of the names of a map, on a rank with `size` nodes. Lists of nodes ascend,
and all nodes are unique before the intersections are computed. -/
structure RegionSets where
  size : ℕ
  pintervals : List (ℕ × ℕ)
  order : List String
  bregions : List BoundaryRegion
  named : bregions.length ≤ order.length
  ascending : ∀ b ∈ bregions, b.nodes.Pairwise (· < ·)
  within : ∀ b ∈ bregions, ∀ n ∈ b.nodes, n < size
  fresh : ∀ b ∈ bregions, b.uniqueNodes = b.nodes

namespace RegionSets

/-! ## The masks of nodes -/

section Masks

variable (D : RegionSets)

abbrev count : ℕ := D.bregions.length

/-- The nodes of region `r`. -/
def nodes (r : ℕ) : List ℕ := (D.bregions.getD r default).nodes

/-- `maskSize`: the sum is the condition of the conditional operator. -/
def maskSize : ℕ := if D.count / 32 + D.count % 32 ≠ 0 then 1 else 0

def marks : List (ℕ × ℕ) := D.bregions.zipIdx.flatMap fun b => b.1.nodes.map fun n => (n, b.2)

/-- `mask`, where a write behind the end is `none`. -/
def mask : Option (List Bits) :=
  if ∀ m ∈ D.marks, D.maskSize * m.1 + m.2 / 32 < D.size * D.maskSize then
    some (BitTable.setAll D.maskSize (BitTable.zeros 32 (D.size * D.maskSize)) D.marks)
  else none

/-- What `memcmp` compares: `maskSize` bytes of the mask of a node, of which there is one at most.
-/
def byte (mask : List Bits) (n : ℕ) : ℕ :=
  if D.maskSize = 1 then (mask.getD (n * D.maskSize) 0).toNat % 256 else 0

/-- The regions whose bits are read for a node, where a read behind the end is `none`. -/
def regionsOf (mask : List Bits) (n : ℕ) : Option (List ℕ) :=
  if ∀ r < D.count, D.maskSize * n + r / 32 < mask.length then
    some ((List.range D.count).filter fun r => BitTable.get D.maskSize mask n r)
  else none

def bounds (sorted : List ℕ) (interval : ℕ × ℕ) : ℕ × ℕ :=
  (lowerBound sorted interval.1, lowerBound sorted interval.2)

end Masks

/-! ## Disjoint sets -/

/-- The regions of the map and the intersections that were made. -/
structure Sets where
  bregions : List BoundaryRegion
  intersections : List RegionsIntersection

variable (D : RegionSets)

def toRegion (disjunkt : List ℕ) (b : BoundaryRegion) : BoundaryRegion :=
  if b.nodes.length ≠ disjunkt.length then
    { b with uniqueNodes := disjunkt.mergeSort
             unintervals := D.pintervals.map (bounds disjunkt.mergeSort) }
  else { b with uniqueNodes := b.nodes, unintervals := b.nintervals }

/-- A set of nodes makes an intersection of the regions of its nodes. -/
def toIntersection (disjunkt regions : List ℕ) (bregions : List BoundaryRegion) :
    RegionsIntersection where
  name := regions.foldl (fun name r => name ++ (bregions.getD r default).name ++ "_") "_"
  regions := regions
  uniqueNodes := disjunkt.mergeSort
  unintervals := D.pintervals.mapIdx fun n interval =>
    if n < (bregions.getD (regions.headD 0) default).unintervals.length then
      bounds disjunkt.mergeSort interval
    else interval

def addSet (disjunkt regions : List ℕ) (s : Sets) : Sets :=
  match regions with
  | [] => s
  | [r] => { s with bregions := s.bregions.modify r (D.toRegion disjunkt) }
  | r :: r' :: rest =>
    { s with intersections :=
        s.intersections ++ [D.toIntersection disjunkt (r :: r' :: rest) s.bregions] }

/-- The loop over the disjoint sets. `offset` is the position of a set in the permutation, and its
first node is asked for its regions. -/
def addSets (mask : List Bits) (permutation : List ℕ) : ℕ → List (List ℕ) → Sets → Option Sets
  | _, [], s => some s
  | offset, disjunkt :: rest, s => do
    let first ← permutation[offset]?
    let regions ← D.regionsOf mask first
    addSets mask permutation (offset + disjunkt.length) rest (D.addSet disjunkt regions s)

def emptyEnd (mask : List Bits) : ℕ → ℕ → List (List ℕ) → ℕ
  | _, offset, [] => offset
  | begin', offset, g :: groups =>
    emptyEnd mask (begin' + g.length)
      (if D.byte mask (g.headD 0) = 0 then begin' + g.length else offset) groups

def cleared : Sets where
  bregions := D.bregions.map fun b =>
    { b with uniqueNodes := [], unintervals := b.unintervals.map fun _ => (0, 0) }
  intersections := []

/-- **`MeshPreprocessing::computeRegionsIntersection`** for the boundary regions of a map. -/
def computeRegionsIntersection (S : Sorting ℕ) : Option Sets :=
  if D.order.length < 2 ∨ D.bregions = [] then some ⟨D.bregions, []⟩
  else do
    let mask ← D.mask
    let permutation := S.sort (D.byte mask) D.size
    let groups := Runs.runs (D.byte mask) permutation
    let disjunkt := groups.filter fun g => D.byte mask (g.headD 0) ≠ 0
    D.addSets mask permutation (D.emptyEnd mask 0 0 groups) disjunkt D.cleared

/-- Node `n` lies in precisely the regions of a list. -/
def InExactly (regions : List ℕ) (n : ℕ) : Prop := ∀ r < D.count, n ∈ D.nodes r ↔ r ∈ regions

/-- **The sets are disjoint and no node is lost.** -/
structure Decomposed (s : Sets) : Prop where
  unique : ∀ r < D.count, ∀ n,
    n ∈ (s.bregions.getD r default).uniqueNodes ↔ D.InExactly [r] n
  intersection : ∀ i ∈ s.intersections, ∀ n, n ∈ i.uniqueNodes ↔ D.InExactly i.regions n
  disjoint : s.intersections.Pairwise fun i j => i.uniqueNodes.Disjoint j.uniqueNodes
  apart : ∀ r < D.count, ∀ i ∈ s.intersections,
    (s.bregions.getD r default).uniqueNodes.Disjoint i.uniqueNodes
  cover : ∀ r < D.count, ∀ n ∈ D.nodes r,
    (∃ r' < D.count, n ∈ (s.bregions.getD r' default).uniqueNodes) ∨
      ∃ i ∈ s.intersections, n ∈ i.uniqueNodes

/-! ## What the masks say -/

lemma maskSize_eq (h : D.bregions ≠ []) : D.maskSize = 1 := by
  have hpos : 0 < D.count := List.length_pos_iff.mpr h
  rw [maskSize, if_pos]
  omega

variable {D}

lemma lt_count_of_mem {r n : ℕ} (h : n ∈ D.nodes r) : r < D.count := by
  by_contra hge
  rw [nodes, List.getD_eq_default _ _ (Nat.le_of_not_lt hge)] at h
  exact List.not_mem_nil h

lemma nodes_eq {r : ℕ} (hr : r < D.count) : D.nodes r = D.bregions[r].nodes := by
  rw [nodes, List.getD_eq_getElem _ _ hr]

lemma lt_size_of_mem {r n : ℕ} (h : n ∈ D.nodes r) : n < D.size := by
  have hr := lt_count_of_mem h
  rw [nodes_eq hr] at h
  exact D.within _ (List.getElem_mem hr) n h

lemma nodes_nodup (r : ℕ) : (D.nodes r).Nodup := by
  rcases Nat.lt_or_ge r D.count with hr | hr
  · rw [nodes_eq hr]
    exact (D.ascending _ (List.getElem_mem hr)).imp fun h => ne_of_lt h
  · rw [nodes, List.getD_eq_default _ _ hr]
    exact List.nodup_nil

lemma mem_marks {m : ℕ × ℕ} : m ∈ D.marks ↔ m.1 ∈ D.nodes m.2 := by
  simp only [marks, List.mem_flatMap, List.mem_map]
  constructor
  · rintro ⟨⟨b, r⟩, hb, n, hn, rfl⟩
    have hget := List.mem_zipIdx_iff_getElem?.mp hb
    rw [nodes, List.getD_eq_getElem?_getD, hget, Option.getD_some]
    exact hn
  · intro hn
    have hr := lt_count_of_mem hn
    rw [nodes_eq hr] at hn
    exact ⟨(D.bregions[m.2], m.2), List.mem_zipIdx_iff_getElem?.mpr (List.getElem?_eq_getElem hr),
      m.1, hn, rfl⟩

/-- Bit `c` is set at position `n` of the mask. -/
def Marked (D : RegionSets) (n c : ℕ) : Prop := ∃ r, r % 32 = c ∧ ∃ x ∈ D.nodes r, x + r / 32 = n

def table (D : RegionSets) : List Bits := BitTable.setAll 1 (BitTable.zeros 32 D.size) D.marks

def Inside (D : RegionSets) : Prop := ∀ r, ∀ x ∈ D.nodes r, x + r / 32 < D.size

lemma mask_eq_some_iff (h : D.bregions ≠ []) {t : List Bits} :
    D.mask = some t ↔ D.Inside ∧ D.table = t := by
  have hinside : (∀ m ∈ D.marks, D.maskSize * m.1 + m.2 / 32 < D.size * D.maskSize) ↔ D.Inside := by
    rw [D.maskSize_eq h, Nat.mul_one]
    simp only [Nat.one_mul]
    exact ⟨fun hm r x hx => hm (x, r) (mem_marks.mpr hx),
      fun hr m hm => hr m.2 m.1 (mem_marks.mp hm)⟩
  rw [mask, Option.ite_none_right_eq_some, hinside, Option.some.injEq, D.maskSize_eq h, Nat.mul_one]
  rfl

lemma length_table : D.table.length = D.size := by
  rw [table, BitTable.length_setAll, BitTable.length_zeros]

lemma get_word (t : List Bits) (n r : ℕ) :
    BitTable.get 1 t n r = BitTable.get 1 t (n + r / 32) (r % 32) := by
  rw [BitTable.get, BitTable.get, BitTable.mask, BitTable.mask, Nat.one_mul, Nat.one_mul,
    Nat.mod_mod, Nat.div_eq_of_lt (Nat.mod_lt r (by decide)), Nat.add_zero]

lemma set_word (t : List Bits) (n r : ℕ) :
    BitTable.set 1 t n r = BitTable.set 1 t (n + r / 32) (r % 32) := by
  rw [BitTable.set, BitTable.set, BitTable.mask, BitTable.mask, Nat.one_mul, Nat.one_mul,
    Nat.mod_mod, Nat.div_eq_of_lt (Nat.mod_lt r (by decide)), Nat.add_zero]

lemma setAll_words (t : List Bits) (marks : List (ℕ × ℕ)) :
    BitTable.setAll 1 t marks
      = BitTable.setAll 1 t (marks.map fun m => (m.1 + m.2 / 32, m.2 % 32)) := by
  induction marks generalizing t with
  | nil => rfl
  | cons m marks ih =>
      rw [BitTable.setAll, List.foldl_cons, ← BitTable.setAll, ih, set_word, List.map_cons,
        BitTable.setAll, BitTable.setAll, List.foldl_cons]

section Table

variable (hwithin : D.Inside)

include hwithin

lemma get_table (n : ℕ) {c : ℕ} (hc : c < 32) :
    BitTable.get 1 D.table n c = true ↔ D.Marked n c := by
  have hone : c / 32 < 1 := by omega
  have hmarks : ∀ m ∈ D.marks.map fun m => (m.1 + m.2 / 32, m.2 % 32),
      m.2 / 32 < 1 ∧ 1 * m.1 + m.2 / 32 < (BitTable.zeros 32 D.size).length := by
    rintro m hm
    obtain ⟨⟨x, r⟩, hx, rfl⟩ := List.mem_map.mp hm
    have hlt := hwithin r x (mem_marks.mp hx)
    rw [BitTable.length_zeros]
    dsimp only
    omega
  rw [table, setAll_words, BitTable.get_setAll (by decide) hmarks n hone, BitTable.get_zeros,
    Bool.false_or, decide_eq_true_eq, List.mem_map]
  constructor
  · rintro ⟨⟨x, r⟩, hx, heq⟩
    obtain ⟨rfl, rfl⟩ := Prod.mk.injEq .. ▸ heq
    exact ⟨r, rfl, x, mem_marks.mp hx, rfl⟩
  · rintro ⟨r, rfl, x, hx, rfl⟩
    exact ⟨(x, r), mem_marks.mpr hx, rfl⟩

lemma testBit_byte (h : D.bregions ≠ []) (n c : ℕ) :
    (D.byte D.table n).testBit c = true ↔ c < 8 ∧ D.Marked n c := by
  rw [byte, D.maskSize_eq h, if_pos rfl, Nat.mul_one, show 256 = 2 ^ 8 from rfl,
    Nat.testBit_mod_two_pow, Bool.and_eq_true, decide_eq_true_eq]
  refine and_congr_right fun hc => ?_
  have hlt : c < 32 := by omega
  rw [← get_table hwithin n hlt, BitTable.get_eq (by decide), Nat.one_mul, Nat.div_eq_of_lt hlt,
    Nat.mod_eq_of_lt hlt, Nat.add_zero]
  rfl

lemma byte_eq_iff (h : D.bregions ≠ []) {m n : ℕ} :
    D.byte D.table m = D.byte D.table n ↔ ∀ c < 8, D.Marked m c ↔ D.Marked n c := by
  constructor
  · intro heq c hc
    have hbits := testBit_byte hwithin h m c
    rw [heq, testBit_byte hwithin h n c] at hbits
    simpa [hc] using hbits.symm
  · intro hmarks
    refine Nat.eq_of_testBit_eq fun c => Bool.eq_iff_iff.mpr ?_
    rw [testBit_byte hwithin h, testBit_byte hwithin h]
    exact and_congr_right fun hc => hmarks c hc

lemma byte_eq_zero_iff (h : D.bregions ≠ []) {n : ℕ} :
    D.byte D.table n = 0 ↔ ∀ c < 8, ¬D.Marked n c := by
  constructor
  · intro heq c hc hmark
    have hbit := (testBit_byte hwithin h n c).mpr ⟨hc, hmark⟩
    rw [heq, Nat.zero_testBit] at hbit
    exact absurd hbit (by decide)
  · intro hmarks
    refine Nat.eq_of_testBit_eq fun c => ?_
    rw [Nat.zero_testBit]
    refine Bool.eq_false_iff.mpr fun hbit => ?_
    obtain ⟨hc, hmark⟩ := (testBit_byte hwithin h n c).mp hbit
    exact hmarks c hc hmark

end Table

/-! ## The sets of nodes with the same byte -/

section Groups

variable (D) (S : Sorting ℕ)

def permutation : List ℕ := S.sort (D.byte D.table) D.size

def groups : List (List ℕ) := Runs.runs (D.byte D.table) (D.permutation S)

def disjunkt : List (List ℕ) := (D.groups S).filter fun g => D.byte D.table (g.headD 0) ≠ 0

variable {D S}

lemma headD_mem {g : List ℕ} (hg : g ≠ []) : g.headD 0 ∈ g := by
  cases g with
  | nil => exact absurd rfl hg
  | cons n g => exact List.mem_cons_self

lemma mem_groups {n : ℕ} : n < D.size ↔ ∃ g ∈ D.groups S, n ∈ g := by
  rw [groups, ← Runs.mem_iff, permutation, (S.perm _ _).mem_iff, List.mem_range]

lemma head_mem {g : List ℕ} (hg : g ∈ D.groups S) : g.headD 0 ∈ g := headD_mem (Runs.ne_nil hg)

lemma byte_eq_head {g : List ℕ} (hg : g ∈ D.groups S) {n : ℕ} (hn : n ∈ g) :
    D.byte D.table n = D.byte D.table (g.headD 0) := Runs.key_eq hg hn (head_mem hg)

lemma groups_ascending : (D.groups S).Pairwise fun g g' =>
    ∀ a ∈ g, ∀ b ∈ g', D.byte D.table a < D.byte D.table b :=
  Runs.ascending (S.sorted _ _)

lemma group_eq {g g' : List ℕ} (hg : g ∈ D.groups S) (hg' : g' ∈ D.groups S)
    (h : D.byte D.table (g.headD 0) = D.byte D.table (g'.headD 0)) : g = g' := by
  by_contra hne
  have hsymm : Std.Symm fun g g' : List ℕ =>
      D.byte D.table (g.headD 0) ≠ D.byte D.table (g'.headD 0) := ⟨fun _ _ => Ne.symm⟩
  have hpair : (D.groups S).Pairwise fun g g' =>
      D.byte D.table (g.headD 0) ≠ D.byte D.table (g'.headD 0) :=
    groups_ascending.imp_of_mem fun hg hg' hlt => (hlt _ (head_mem hg) _ (head_mem hg')).ne
  exact List.Pairwise.forall hpair hg hg' hne h

lemma mem_disjunkt {g : List ℕ} :
    g ∈ D.disjunkt S ↔ g ∈ D.groups S ∧ D.byte D.table (g.headD 0) ≠ 0 := by
  rw [disjunkt, List.mem_filter, decide_eq_true_eq]

lemma nodup_of_mem {g : List ℕ} (hg : g ∈ D.groups S) : g.Nodup := by
  have hnodup : (D.permutation S).Nodup := (S.perm _ _).nodup_iff.mpr List.nodup_range
  rw [← Runs.flatten_runs (D.byte D.table) (D.permutation S)] at hnodup
  exact (List.nodup_flatten.mp hnodup).1 g hg

lemma mem_disjunkt_iff {n : ℕ} :
    (n < D.size ∧ D.byte D.table n ≠ 0) ↔ ∃ g ∈ D.disjunkt S, n ∈ g := by
  constructor
  · rintro ⟨hn, hbyte⟩
    obtain ⟨g, hg, hmem⟩ := mem_groups.mp hn
    rw [byte_eq_head hg hmem] at hbyte
    exact ⟨g, mem_disjunkt.mpr ⟨hg, hbyte⟩, hmem⟩
  · rintro ⟨g, hg, hmem⟩
    obtain ⟨hg, hbyte⟩ := mem_disjunkt.mp hg
    rw [← byte_eq_head hg hmem] at hbyte
    exact ⟨mem_groups.mpr ⟨g, hg, hmem⟩, hbyte⟩

lemma emptyEnd_eq {t : List Bits} {groups : List (List ℕ)}
    (h : ∀ g ∈ groups, D.byte t (g.headD 0) ≠ 0) (begin' offset : ℕ) :
    D.emptyEnd t begin' offset groups = offset := by
  induction groups generalizing begin' with
  | nil => rfl
  | cons g groups ih =>
      rw [emptyEnd, if_neg (h g List.mem_cons_self)]
      exact ih (fun g' hg' => h g' (List.mem_cons_of_mem g hg')) _

lemma permutation_eq : ∃ front, D.permutation S = front ++ (D.disjunkt S).flatten ∧
    D.emptyEnd D.table 0 0 (D.groups S) = front.length := by
  have hflatten : (D.groups S).flatten = D.permutation S := Runs.flatten_runs _ _
  have hpair := groups_ascending (D := D) (S := S)
  have hall : ∀ g ∈ D.groups S, g.headD 0 ∈ g := fun g hg => head_mem hg
  rw [← hflatten, disjunkt]
  rcases hgroups : D.groups S with _ | ⟨g, rest⟩
  · exact ⟨[], rfl, rfl⟩
  · rw [hgroups] at hpair hall
    have hrest : ∀ g' ∈ rest, D.byte D.table (g'.headD 0) ≠ 0 := by
      intro g' hg'
      have hlt := (List.pairwise_cons.mp hpair).1 g' hg' _ (hall g List.mem_cons_self) _
        (hall g' (List.mem_cons_of_mem g hg'))
      exact (Nat.zero_le _).trans_lt hlt |>.ne'
    have hfilter : rest.filter (fun g => D.byte D.table (g.headD 0) ≠ 0) = rest :=
      List.filter_eq_self.mpr fun g' hg' => decide_eq_true (hrest g' hg')
    by_cases hzero : D.byte D.table (g.headD 0) = 0
    · refine ⟨g, ?_, ?_⟩
      · rw [List.filter_cons_of_neg (by simpa using hzero), hfilter, List.flatten_cons]
      · rw [emptyEnd, if_pos hzero, emptyEnd_eq hrest, Nat.zero_add]
    · refine ⟨[], ?_, ?_⟩
      · rw [List.filter_cons_of_pos (by simpa using hzero), hfilter, List.nil_append]
      · rw [emptyEnd, if_neg hzero, emptyEnd_eq hrest, List.length_nil]

end Groups

/-! ## The loop over the sets -/

section Loop

variable (D)

/-- The regions that are read for a node, if all reads are inside the mask. -/
def readRegions (n : ℕ) : List ℕ := (List.range D.count).filter fun r => BitTable.get 1 D.table n r

def Readable (n : ℕ) : Prop := ∀ r < D.count, n + r / 32 < D.size

def finalSets (sets : List (List ℕ)) (s : Sets) : Sets :=
  sets.foldl (fun s g => D.addSet g (D.readRegions (g.headD 0)) s) s

variable {D}

lemma regionsOf_eq_some (h : D.bregions ≠ []) {n : ℕ} {regions : List ℕ} :
    D.regionsOf D.table n = some regions ↔ D.Readable n ∧ D.readRegions n = regions := by
  rw [regionsOf, D.maskSize_eq h, length_table, Option.ite_none_right_eq_some, Option.some.injEq]
  simp only [Nat.one_mul]
  rfl

/-- **The loop** has a result if all reads are inside the mask. -/
lemma addSets_eq_some (h : D.bregions ≠ []) {sets : List (List ℕ)} (hsets : ∀ g ∈ sets, g ≠ [])
    (front : List ℕ) (s out : Sets) :
    D.addSets D.table (front ++ sets.flatten) front.length sets s = some out ↔
      (∀ g ∈ sets, D.Readable (g.headD 0)) ∧ D.finalSets sets s = out := by
  induction sets generalizing front s with
  | nil =>
      rw [addSets, Option.some.injEq]
      exact (and_iff_right fun g hg => absurd hg List.not_mem_nil).symm
  | cons g sets ih =>
      obtain ⟨hg, hsets⟩ := List.forall_mem_cons.mp hsets
      have hfirst : (front ++ (g :: sets).flatten)[front.length]? = some (g.headD 0) := by
        rw [List.getElem?_append_right le_rfl, Nat.sub_self, List.flatten_cons]
        cases g with
        | nil => exact absurd rfl hg
        | cons n g => rfl
      have hstep : ∀ s,
          D.addSets D.table (front ++ (g :: sets).flatten) (front.length + g.length) sets s
              = some out ↔
            (∀ g ∈ sets, D.Readable (g.headD 0)) ∧ D.finalSets sets s = out := by
        intro s
        have hnext := ih hsets (front ++ g) s
        rwa [List.length_append, List.append_assoc, ← List.flatten_cons] at hnext
      rw [addSets, hfirst, Option.bind_eq_bind, Option.bind_some, Option.bind_eq_bind,
        Option.bind_eq_some_iff, List.forall_mem_cons]
      constructor
      · rintro ⟨regions, hregions, hrest⟩
        obtain ⟨hread, rfl⟩ := (regionsOf_eq_some h).mp hregions
        exact ⟨⟨hread, ((hstep _).mp hrest).1⟩, ((hstep _).mp hrest).2⟩
      · rintro ⟨⟨hread, hrest⟩, hout⟩
        exact ⟨_, (regionsOf_eq_some h).mpr ⟨hread, rfl⟩, (hstep _).mpr ⟨hrest, hout⟩⟩

lemma computeRegionsIntersection_eq_some (horder : 2 ≤ D.order.length) (h : D.bregions ≠ [])
    {S : Sorting ℕ} {out : Sets} :
    D.computeRegionsIntersection S = some out ↔
      D.Inside ∧ (∀ g ∈ D.disjunkt S, D.Readable (g.headD 0)) ∧
        D.finalSets (D.disjunkt S) D.cleared = out := by
  obtain ⟨front, hperm, hend⟩ := permutation_eq (D := D) (S := S)
  have hne : ∀ g ∈ D.disjunkt S, g ≠ [] := fun g hg => Runs.ne_nil (mem_disjunkt.mp hg).1
  rw [computeRegionsIntersection, if_neg (by simp only [not_or]; exact ⟨by omega, h⟩),
    Option.bind_eq_bind, Option.bind_eq_some_iff]
  constructor
  · rintro ⟨t, ht, hrun⟩
    obtain ⟨hinside, rfl⟩ := (mask_eq_some_iff h).mp ht
    change D.addSets D.table (D.permutation S) (D.emptyEnd D.table 0 0 (D.groups S))
      (D.disjunkt S) _ = some out at hrun
    rw [hperm, hend] at hrun
    exact ⟨hinside, (addSets_eq_some h hne front _ _).mp hrun⟩
  · rintro ⟨hinside, hrun⟩
    refine ⟨D.table, (mask_eq_some_iff h).mpr ⟨hinside, rfl⟩, ?_⟩
    change D.addSets D.table (D.permutation S) (D.emptyEnd D.table 0 0 (D.groups S))
      (D.disjunkt S) _ = some out
    rw [hperm, hend]
    exact (addSets_eq_some h hne front _ _).mpr hrun

/-! ### The result of the loop -/

/-- Region `r` of a state of the loop. -/
def Sets.region (s : Sets) (r : ℕ) : BoundaryRegion := s.bregions.getD r default

lemma region_addSet (g regions : List ℕ) {s : Sets} {r : ℕ} (hr : r < s.bregions.length) :
    (D.addSet g regions s).region r
        = if regions = [r] then D.toRegion g (s.region r) else s.region r := by
  rcases regions with _ | ⟨r', _ | ⟨r'', rest⟩⟩
  · rfl
  · rw [addSet, Sets.region, List.getD_eq_getElem?_getD, List.getElem?_modify]
    by_cases heq : r' = r
    · rw [if_pos (by rw [heq]), Sets.region, List.getD_eq_getElem?_getD,
        List.getElem?_eq_getElem hr]
      simp [heq]
    · rw [if_neg (by simpa using heq), Sets.region, List.getD_eq_getElem?_getD]
      simp [heq]
  · rw [if_neg (by simp)]
    rfl

lemma length_addSet (g regions : List ℕ) (s : Sets) :
    (D.addSet g regions s).bregions.length = s.bregions.length := by
  rcases regions with _ | ⟨r', _ | ⟨r'', rest⟩⟩
  · rfl
  · exact List.length_modify ..
  · rfl

lemma region_finalSets_of_ne {sets : List (List ℕ)} {s : Sets} {r : ℕ} (hr : r < s.bregions.length)
    (h : ∀ g ∈ sets, D.readRegions (g.headD 0) ≠ [r]) :
    (D.finalSets sets s).region r = s.region r := by
  induction sets generalizing s with
  | nil => rfl
  | cons g sets ih =>
      obtain ⟨hg, hsets⟩ := List.forall_mem_cons.mp h
      rw [finalSets, List.foldl_cons, ← finalSets, ih (by rwa [length_addSet]) hsets,
        region_addSet g _ hr, if_neg hg]

lemma region_finalSets_of_mem {sets : List (List ℕ)} {s : Sets} {r : ℕ} (hr : r < s.bregions.length)
    (hpair : sets.Pairwise fun g g' => D.readRegions (g.headD 0) ≠ D.readRegions (g'.headD 0))
    {g : List ℕ} (hg : g ∈ sets) (h : D.readRegions (g.headD 0) = [r]) :
    ∃ b : BoundaryRegion, b.nodes = (s.region r).nodes ∧
      (D.finalSets sets s).region r = D.toRegion g b := by
  induction sets generalizing s with
  | nil => exact absurd hg List.not_mem_nil
  | cons g' sets ih =>
      obtain ⟨hfirst, hpair⟩ := List.pairwise_cons.mp hpair
      have hr' : r < (D.addSet g' (D.readRegions (g'.headD 0)) s).bregions.length := by
        rwa [length_addSet]
      rw [finalSets, List.foldl_cons, ← finalSets]
      rcases List.mem_cons.mp hg with rfl | hg
      · refine ⟨s.region r, rfl, ?_⟩
        rw [region_finalSets_of_ne hr' fun g' hg' heq => hfirst g' hg' (h.trans heq.symm),
          region_addSet g _ hr, if_pos h]
      · obtain ⟨b, hnodes, hregion⟩ := ih hr' hpair hg
        refine ⟨b, hnodes.trans ?_, hregion⟩
        rw [region_addSet g' _ hr, if_neg fun heq => hfirst g hg (heq.trans h.symm)]

lemma intersections_finalSets (sets : List (List ℕ)) (s : Sets) :
    (D.finalSets sets s).intersections.map (fun i => (i.regions, i.uniqueNodes))
      = s.intersections.map (fun i => (i.regions, i.uniqueNodes))
        ++ (sets.filter fun g => 2 ≤ (D.readRegions (g.headD 0)).length).map
            fun g => (D.readRegions (g.headD 0), g.mergeSort) := by
  induction sets generalizing s with
  | nil => exact (List.append_nil _).symm
  | cons g sets ih =>
      rw [finalSets, List.foldl_cons, ← finalSets, ih]
      rcases hregions : D.readRegions (g.headD 0) with _ | ⟨r, _ | ⟨r', rest⟩⟩
      · rw [List.filter_cons_of_neg (by rw [hregions]; simp)]
        rfl
      · rw [List.filter_cons_of_neg (by rw [hregions]; simp)]
        rfl
      · rw [List.filter_cons_of_pos (by rw [hregions]; simp), addSet, List.map_append,
          List.map_cons, List.map_nil, List.map_cons, List.append_assoc, hregions]
        rfl

end Loop

/-! ## When the nodes are decomposed -/

section Main

variable {S : Sorting ℕ}

/-- **The masks tell the regions of nodes.** No write and no read for the first node of a set is
behind the end of the mask, that node has exactly the bits of its regions, nodes with the same
lowest eight bits lie in the same regions, and nodes without one of them lie in no region. -/
structure Told (D : RegionSets) (S : Sorting ℕ) : Prop where
  inside : D.Inside
  readable : ∀ g ∈ D.disjunkt S, D.Readable (g.headD 0)
  first : ∀ g ∈ D.disjunkt S, ∀ r < D.count,
    D.Marked (g.headD 0 + r / 32) (r % 32) ↔ g.headD 0 ∈ D.nodes r
  same : ∀ m < D.size, ∀ n < D.size, (∀ c < 8, D.Marked m c ↔ D.Marked n c) →
    ∀ r < D.count, m ∈ D.nodes r ↔ n ∈ D.nodes r
  lost : ∀ n < D.size, (∀ c < 8, ¬D.Marked n c) → ∀ r < D.count, n ∉ D.nodes r

lemma mem_readRegions (hinside : D.Inside) {n r : ℕ} :
    r ∈ D.readRegions n ↔ r < D.count ∧ D.Marked (n + r / 32) (r % 32) := by
  rw [readRegions, List.mem_filter, List.mem_range, get_word,
    get_table hinside _ (Nat.mod_lt r (by decide))]

lemma readRegions_sorted (n : ℕ) : (D.readRegions n).Pairwise (· < ·) :=
  List.pairwise_lt_range.filter _

lemma mem_readRegions_of_lt (hinside : D.Inside) {n c : ℕ} (hc : c < 8) :
    c ∈ D.readRegions n ↔ D.Marked n c := by
  rw [mem_readRegions hinside, Nat.div_eq_of_lt (by omega : c < 32), Nat.add_zero,
    Nat.mod_eq_of_lt (by omega : c < 32)]
  refine and_iff_right_of_imp ?_
  rintro ⟨r, rfl, x, hx, -⟩
  exact (Nat.mod_le r 32).trans_lt (lt_count_of_mem hx)

lemma eq_of_readRegions (h : D.bregions ≠ []) (hinside : D.Inside) {g g' : List ℕ}
    (hg : g ∈ D.disjunkt S) (hg' : g' ∈ D.disjunkt S)
    (heq : D.readRegions (g.headD 0) = D.readRegions (g'.headD 0)) : g = g' := by
  refine group_eq (mem_disjunkt.mp hg).1 (mem_disjunkt.mp hg').1 ((byte_eq_iff hinside h).mpr ?_)
  intro c hc
  rw [← mem_readRegions_of_lt hinside hc, heq, mem_readRegions_of_lt hinside hc]

lemma readRegions_ne_nil (h : D.bregions ≠ []) (hinside : D.Inside) {g : List ℕ}
    (hg : g ∈ D.disjunkt S) : ∃ c < 8, c ∈ D.readRegions (g.headD 0) := by
  have hbyte := (mem_disjunkt.mp hg).2
  rw [Ne, byte_eq_zero_iff hinside h] at hbyte
  push Not at hbyte
  obtain ⟨c, hc, hmark⟩ := hbyte
  exact ⟨c, hc, (mem_readRegions_of_lt hinside hc).mpr hmark⟩

lemma pairwise_readRegions (h : D.bregions ≠ []) (hinside : D.Inside) :
    (D.disjunkt S).Pairwise fun g g' => D.readRegions (g.headD 0) ≠ D.readRegions (g'.headD 0) := by
  have hnodup : (D.disjunkt S).Nodup := by
    refine ((groups_ascending (D := D) (S := S)).imp_of_mem ?_).filter _
    rintro g g' hg - hlt rfl
    exact lt_irrefl _ (hlt _ (head_mem hg) _ (head_mem hg))
  refine hnodup.imp_of_mem fun hg hg' hne heq => ?_
  exact hne (eq_of_readRegions h hinside hg hg' heq)

/-! ### The sets of a result -/

variable (D S) in
def result : Sets := D.finalSets (D.disjunkt S) D.cleared

lemma mem_intersections {regions nodes : List ℕ} :
    (∃ i ∈ (D.result S).intersections, i.regions = regions ∧ i.uniqueNodes = nodes) ↔
      ∃ g ∈ D.disjunkt S, 2 ≤ (D.readRegions (g.headD 0)).length ∧
        D.readRegions (g.headD 0) = regions ∧ g.mergeSort = nodes := by
  have hmap := intersections_finalSets (D := D) (D.disjunkt S) D.cleared
  have hmem := iff_of_eq (congrArg ((regions, nodes) ∈ ·) hmap)
  rw [cleared, List.map_nil, List.nil_append, ← cleared] at hmem
  simp only [List.mem_map, List.mem_filter, decide_eq_true_eq, Prod.mk.injEq, and_assoc] at hmem
  exact hmem

lemma cleared_region {r : ℕ} (hr : r < D.count) :
    (D.cleared.region r).uniqueNodes = [] ∧ (D.cleared.region r).nodes = D.nodes r := by
  simp [cleared, Sets.region, nodes, hr]

lemma lt_length_cleared {r : ℕ} (hr : r < D.count) : r < D.cleared.bregions.length := by
  simpa [cleared] using hr

lemma uniqueNodes_of_ne {r : ℕ} (hr : r < D.count)
    (h : ∀ g ∈ D.disjunkt S, D.readRegions (g.headD 0) ≠ [r]) :
    ((D.result S).region r).uniqueNodes = [] := by
  rw [result, region_finalSets_of_ne (lt_length_cleared hr) h]
  exact (cleared_region hr).1

lemma uniqueNodes_of_mem (hne : D.bregions ≠ []) (hinside : D.Inside) {g : List ℕ} {r : ℕ}
    (hr : r < D.count) (hg : g ∈ D.disjunkt S) (h : D.readRegions (g.headD 0) = [r]) :
    ((D.result S).region r).uniqueNodes
      = if (D.nodes r).length ≠ g.length then g.mergeSort else D.nodes r := by
  obtain ⟨b, hnodes, hregion⟩ := region_finalSets_of_mem (lt_length_cleared hr)
    (pairwise_readRegions hne hinside) hg h
  rw [(cleared_region hr).2] at hnodes
  rw [result, hregion, toRegion, hnodes]
  split_ifs <;> rfl

lemma mem_iff_of_length {l m : List ℕ} (hl : l.Nodup) (hsub : l ⊆ m) (hlength : l.length = m.length)
    (n : ℕ) : n ∈ l ↔ n ∈ m :=
  ((hl.subperm hsub).perm_of_length_le hlength.ge).mem_iff

lemma readRegions_eq (hinside : D.Inside) {m n : ℕ} {regions : List ℕ}
    (hm : D.InExactly (D.readRegions m) n) (hn : D.InExactly regions n)
    (hsorted : regions.Pairwise (· < ·)) (hlt : ∀ r ∈ regions, r < D.count) :
    D.readRegions m = regions := by
  refine List.Pairwise.eq_of_mem_iff (readRegions_sorted m) hsorted fun r => ?_
  constructor
  · intro hr
    have hcount := ((mem_readRegions hinside).mp hr).1
    exact (hn r hcount).mp ((hm r hcount).mpr hr)
  · intro hr
    exact (hm r (hlt r hr)).mp ((hn r (hlt r hr)).mpr hr)

section Forward

variable (h : D.bregions ≠ []) (hinside : D.Inside) (hdec : D.Decomposed (D.result S))

include h hinside hdec

lemma mem_unique_of_decomposed {g : List ℕ} {r : ℕ} (hg : g ∈ D.disjunkt S)
    (hread : D.readRegions (g.headD 0) = [r]) (n : ℕ) :
    n ∈ ((D.result S).region r).uniqueNodes ↔ n ∈ g := by
  have hmem : r ∈ D.readRegions (g.headD 0) := by rw [hread]; exact List.mem_singleton_self r
  have hr := ((mem_readRegions hinside).mp hmem).1
  have hunique := uniqueNodes_of_mem h hinside hr hg hread
  by_cases hlength : (D.nodes r).length = g.length
  · rw [if_neg (by simpa using hlength)] at hunique
    rw [hunique]
    refine mem_iff_of_length (nodes_nodup r) (fun x hx => ?_) hlength n
    -- the node is in a set whose byte has the bit of the region
    obtain ⟨c, hc, hcmem⟩ := readRegions_ne_nil h hinside hg
    obtain rfl : c = r := by
      rw [hread] at hcmem
      exact List.mem_singleton.mp hcmem
    have hmark : D.Marked x c :=
      ⟨c, Nat.mod_eq_of_lt (by omega), x, hx, by rw [Nat.div_eq_of_lt (by omega), Nat.add_zero]⟩
    have hbyte : D.byte D.table x ≠ 0 := fun hzero =>
      (byte_eq_zero_iff hinside h).mp hzero c hc hmark
    obtain ⟨g', hg', hx'⟩ := mem_disjunkt_iff.mp ⟨lt_size_of_mem hx, hbyte⟩
    have hhead := (byte_eq_iff hinside h).mp (byte_eq_head (mem_disjunkt.mp hg').1 hx') c hc
    have hc' := (mem_readRegions_of_lt hinside hc).mpr (hhead.mp hmark)
    by_cases hlen : 2 ≤ (D.readRegions (g'.headD 0)).length
    · obtain ⟨i, hi, -, hnodes⟩ := mem_intersections.mpr ⟨g', hg', hlen, rfl, rfl⟩
      have hxi : x ∈ i.uniqueNodes := by
        rw [hnodes]
        exact List.mem_mergeSort.mpr hx'
      have hxr : x ∈ ((D.result S).region c).uniqueNodes := by
        rw [hunique]
        exact hx
      exact absurd hxi (hdec.apart c hr i hi hxr)
    · obtain ⟨d, hd⟩ := List.length_eq_one_iff.mp (show (D.readRegions (g'.headD 0)).length = 1 by
        have := List.length_pos_of_mem hc'
        omega)
      rw [hd, List.mem_singleton] at hc'
      rw [eq_of_readRegions h hinside hg hg' (by rw [hread, hd, hc'])]
      exact hx'
  · rw [hunique, if_pos hlength]
    exact List.mem_mergeSort

lemma inExactly_of_decomposed {g : List ℕ} (hg : g ∈ D.disjunkt S) {n : ℕ} (hn : n ∈ g) :
    D.InExactly (D.readRegions (g.headD 0)) n := by
  obtain ⟨c, -, hc⟩ := readRegions_ne_nil h hinside hg
  by_cases hlen : 2 ≤ (D.readRegions (g.headD 0)).length
  · obtain ⟨i, hi, hregions, hnodes⟩ := mem_intersections.mpr ⟨g, hg, hlen, rfl, rfl⟩
    rw [← hregions, ← hdec.intersection i hi, hnodes]
    exact List.mem_mergeSort.mpr hn
  · obtain ⟨r, hr⟩ := List.length_eq_one_iff.mp (show (D.readRegions (g.headD 0)).length = 1 by
      have := List.length_pos_of_mem hc
      omega)
    have hcount := ((mem_readRegions hinside).mp (hr ▸ List.mem_singleton_self r)).1
    rw [hr]
    exact (hdec.unique r hcount n).mp ((mem_unique_of_decomposed h hinside hdec hg hr n).mpr hn)

lemma told_of_decomposed (hread : ∀ g ∈ D.disjunkt S, D.Readable (g.headD 0)) : D.Told S := by
  have hlost : ∀ n < D.size, (∀ c < 8, ¬D.Marked n c) → ∀ r < D.count, n ∉ D.nodes r := by
    intro n hn hmarks r hr hmem
    have hzero := (byte_eq_zero_iff hinside h).mpr hmarks
    have hnone : ∀ g ∈ D.disjunkt S, n ∉ g := fun g hg hng =>
      (mem_disjunkt_iff.mpr ⟨g, hg, hng⟩).2 hzero
    rcases hdec.cover r hr n hmem with ⟨r', hr', hunique⟩ | ⟨i, hi, hnodes⟩
    · by_cases hset : ∃ g ∈ D.disjunkt S, D.readRegions (g.headD 0) = [r']
      · obtain ⟨g, hg, heq⟩ := hset
        exact hnone g hg ((mem_unique_of_decomposed h hinside hdec hg heq n).mp hunique)
      · have hnil := uniqueNodes_of_ne hr' fun g hg heq => hset ⟨g, hg, heq⟩
        rw [Sets.region] at hnil
        rw [hnil] at hunique
        exact List.not_mem_nil hunique
    · obtain ⟨g, hg, -, -, hsort⟩ := mem_intersections.mp ⟨i, hi, rfl, rfl⟩
      rw [← hsort] at hnodes
      exact hnone g hg (List.mem_mergeSort.mp hnodes)
  refine ⟨hinside, hread, ?_, ?_, hlost⟩
  · intro g hg r hr
    have hexact := inExactly_of_decomposed h hinside hdec hg (head_mem (mem_disjunkt.mp hg).1) r hr
    rw [hexact, mem_readRegions hinside]
    exact (and_iff_right hr).symm
  · intro m hm n hn hmarks r hr
    by_cases hzero : ∀ c < 8, ¬D.Marked m c
    · have hzero' : ∀ c < 8, ¬D.Marked n c := fun c hc hmark => hzero c hc ((hmarks c hc).mpr hmark)
      exact iff_of_false (hlost m hm hzero r hr) (hlost n hn hzero' r hr)
    · have hbyte : D.byte D.table m ≠ 0 := fun heq => hzero ((byte_eq_zero_iff hinside h).mp heq)
      obtain ⟨g, hg, hmg⟩ := mem_disjunkt_iff.mp ⟨hm, hbyte⟩
      have hsame := (byte_eq_iff hinside h).mpr hmarks
      obtain ⟨g', hg', hng⟩ := mem_disjunkt_iff.mp ⟨hn, hsame ▸ hbyte⟩
      obtain rfl := group_eq (mem_disjunkt.mp hg).1 (mem_disjunkt.mp hg').1 (by
        rw [← byte_eq_head (mem_disjunkt.mp hg).1 hmg, hsame,
          byte_eq_head (mem_disjunkt.mp hg').1 hng])
      rw [inExactly_of_decomposed h hinside hdec hg hmg r hr,
        inExactly_of_decomposed h hinside hdec hg hng r hr]

end Forward

section Backward

variable (h : D.bregions ≠ []) (htold : D.Told S)

include h htold

lemma inExactly_of_told {g : List ℕ} (hg : g ∈ D.disjunkt S) {n : ℕ} (hn : n ∈ g) :
    D.InExactly (D.readRegions (g.headD 0)) n := by
  intro r hr
  obtain ⟨hgroup, -⟩ := mem_disjunkt.mp hg
  have hhead := mem_groups.mpr ⟨g, hgroup, head_mem hgroup⟩
  have hbits := (byte_eq_iff htold.inside h).mp (byte_eq_head hgroup hn)
  rw [htold.same n (mem_groups.mpr ⟨g, hgroup, hn⟩) _ hhead hbits r hr, ← htold.first g hg r hr,
    mem_readRegions htold.inside]
  exact (and_iff_right hr).symm

lemma exists_set_of_mem {r n : ℕ} (hn : n ∈ D.nodes r) : ∃ g ∈ D.disjunkt S, n ∈ g := by
  refine mem_disjunkt_iff.mp ⟨lt_size_of_mem hn, fun hzero => ?_⟩
  exact htold.lost n (lt_size_of_mem hn) ((byte_eq_zero_iff htold.inside h).mp hzero) r
    (lt_count_of_mem hn) hn

lemma unique_of_told {r : ℕ} (hr : r < D.count) (n : ℕ) :
    n ∈ ((D.result S).region r).uniqueNodes ↔ D.InExactly [r] n := by
  have hsub : ∀ {g : List ℕ}, g ∈ D.disjunkt S → D.readRegions (g.headD 0) = [r] →
      ∀ x, x ∈ ((D.result S).region r).uniqueNodes ↔ x ∈ g := by
    intro g hg hread x
    rw [uniqueNodes_of_mem h htold.inside hr hg hread]
    split_ifs with hlength
    · exact List.mem_mergeSort
    · refine (mem_iff_of_length (nodup_of_mem (mem_disjunkt.mp hg).1) (fun y hy => ?_)
        (not_not.mp hlength).symm x).symm
      have hexact := inExactly_of_told h htold hg hy r hr
      rw [hread] at hexact
      exact hexact.mpr (List.mem_singleton_self r)
  constructor
  · intro hn
    by_cases hset : ∃ g ∈ D.disjunkt S, D.readRegions (g.headD 0) = [r]
    · obtain ⟨g, hg, hread⟩ := hset
      rw [← hread]
      exact inExactly_of_told h htold hg ((hsub hg hread n).mp hn)
    · rw [uniqueNodes_of_ne hr fun g hg heq => hset ⟨g, hg, heq⟩] at hn
      exact absurd hn List.not_mem_nil
  · intro hexact
    have hmem : n ∈ D.nodes r := (hexact r hr).mpr (List.mem_singleton_self r)
    obtain ⟨g, hg, hn⟩ := exists_set_of_mem h htold hmem
    have hread := readRegions_eq htold.inside (inExactly_of_told h htold hg hn) hexact
      (List.pairwise_singleton _ r) fun r' hr' => List.mem_singleton.mp hr' ▸ hr
    exact (hsub hg hread n).mpr hn

lemma decomposed_of_told : D.Decomposed (D.result S) := by
  have hinter : ∀ i ∈ (D.result S).intersections, ∃ g ∈ D.disjunkt S,
      2 ≤ (D.readRegions (g.headD 0)).length ∧ D.readRegions (g.headD 0) = i.regions ∧
        ∀ n, n ∈ i.uniqueNodes ↔ n ∈ g := by
    intro i hi
    obtain ⟨g, hg, hlen, hread, hsort⟩ := mem_intersections.mp ⟨i, hi, rfl, rfl⟩
    exact ⟨g, hg, hlen, hread, fun n => by rw [← hsort]; exact List.mem_mergeSort⟩
  refine ⟨fun r hr n => unique_of_told h htold hr n, ?_, ?_, ?_, ?_⟩
  · intro i hi n
    obtain ⟨g, hg, hlen, hread, hmem⟩ := hinter i hi
    rw [hmem, ← hread]
    refine ⟨fun hn => inExactly_of_told h htold hg hn, fun hexact => ?_⟩
    obtain ⟨c, -, hc⟩ := readRegions_ne_nil h htold.inside hg
    have hcount := ((mem_readRegions htold.inside).mp hc).1
    obtain ⟨g', hg', hn⟩ := exists_set_of_mem h htold ((hexact c hcount).mpr hc)
    rw [eq_of_readRegions h htold.inside hg hg' (readRegions_eq htold.inside
      (inExactly_of_told h htold hg' hn) hexact (readRegions_sorted _)
      fun r hr => ((mem_readRegions htold.inside).mp hr).1).symm]
    exact hn
  · have hmap := intersections_finalSets (D := D) (D.disjunkt S) D.cleared
    have hpair : ((D.result S).intersections.map fun i => (i.regions, i.uniqueNodes)).Pairwise
        fun i j => i.2.Disjoint j.2 := by
      rw [result, hmap, cleared, List.map_nil, List.nil_append, List.pairwise_map]
      refine ((groups_ascending.filter _).filter _).imp_of_mem ?_
      intro g g' _ _ hlt n hn hn'
      exact lt_irrefl _ (hlt n (List.mem_mergeSort.mp hn) n (List.mem_mergeSort.mp hn'))
    rwa [List.pairwise_map] at hpair
  · intro r hr i hi n hn hni
    obtain ⟨g, hg, hlen, -, hmem⟩ := hinter i hi
    have hread := readRegions_eq htold.inside (inExactly_of_told h htold hg ((hmem n).mp hni))
      ((unique_of_told h htold hr n).mp hn) (List.pairwise_singleton _ r)
      fun r' hr' => List.mem_singleton.mp hr' ▸ hr
    rw [hread, List.length_singleton] at hlen
    omega
  · intro r hr n hn
    obtain ⟨g, hg, hng⟩ := exists_set_of_mem h htold hn
    have hexact := inExactly_of_told h htold hg hng
    by_cases hlen : 2 ≤ (D.readRegions (g.headD 0)).length
    · obtain ⟨i, hi, -, hsort⟩ := mem_intersections.mpr ⟨g, hg, hlen, rfl, rfl⟩
      exact Or.inr ⟨i, hi, by rw [hsort]; exact List.mem_mergeSort.mpr hng⟩
    · have hmem := (hexact r hr).mp hn
      obtain ⟨r', hr'⟩ := List.length_eq_one_iff.mp (show (D.readRegions (g.headD 0)).length = 1 by
        have := List.length_pos_of_mem hmem
        omega)
      rw [hr'] at hexact hmem
      obtain rfl := List.mem_singleton.mp hmem
      exact Or.inl ⟨r, hr, (unique_of_told h htold hr n).mpr hexact⟩

end Backward

end Main

lemma decomposed_of_count (h : D.count ≤ 1) : D.Decomposed ⟨D.bregions, []⟩ := by
  have hsingle : ∀ r < D.count, ∀ n, D.InExactly [r] n ↔ n ∈ D.nodes r := by
    intro r hr n
    constructor
    · exact fun hexact => (hexact r hr).mpr (List.mem_singleton_self r)
    · intro hn r' hr'
      obtain rfl : r' = r := by omega
      exact iff_of_true hn (List.mem_singleton_self r')
  have hfresh : ∀ r < D.count, (D.bregions.getD r default).uniqueNodes = D.nodes r := by
    intro r hr
    rw [nodes, List.getD_eq_getElem _ _ hr]
    exact D.fresh _ (List.getElem_mem hr)
  refine ⟨?_, ?_, List.Pairwise.nil, ?_, ?_⟩
  · intro r hr n
    rw [hfresh r hr, hsingle r hr]
  · exact fun i hi => absurd hi List.not_mem_nil
  · exact fun r hr i hi => absurd hi List.not_mem_nil
  · intro r hr n hn
    exact Or.inl ⟨r, hr, by rw [hfresh r hr]; exact hn⟩

lemma decomposed_iff_told (S : Sorting ℕ) :
    (∃ s, D.computeRegionsIntersection S = some s ∧ D.Decomposed s) ↔
      D.order.length < 2 ∨ D.bregions = [] ∨ D.Told S := by
  by_cases hearly : D.order.length < 2 ∨ D.bregions = []
  · have hcount : D.count ≤ 1 := by
      rcases hearly with horder | hnil
      · have hle : D.count ≤ D.order.length := D.named
        omega
      · rw [count, hnil]
        exact Nat.zero_le 1
    refine iff_of_true ⟨_, if_pos hearly, decomposed_of_count hcount⟩ ?_
    exact hearly.imp_right Or.inl
  · obtain ⟨horder, hne⟩ := not_or.mp hearly
    have horder := Nat.le_of_not_lt horder
    constructor
    · rintro ⟨s, hs, hdec⟩
      obtain ⟨hinside, hread, rfl⟩ := (computeRegionsIntersection_eq_some horder hne).mp hs
      exact Or.inr (Or.inr (told_of_decomposed hne hinside hdec hread))
    · rintro (hlt | hnil | htold)
      · omega
      · exact absurd hnil hne
      · exact ⟨_, (computeRegionsIntersection_eq_some horder hne).mpr
          ⟨htold.inside, htold.readable, rfl⟩, decomposed_of_told hne htold⟩

/-! ### Any order of nodes with the same byte -/

lemma exists_headD_eq {n : ℕ} (hn : n < D.size) (hbyte : D.byte D.table n ≠ 0) :
    ∃ g ∈ D.disjunkt (Sorting.favour n), g.headD 0 = n := by
  obtain ⟨g, hg, hmem⟩ := mem_disjunkt_iff.mp ⟨hn, hbyte⟩
  have hgroup := (mem_disjunkt.mp hg).1
  refine ⟨g, hg, ?_⟩
  have hpair : (D.groups (Sorting.favour n)).flatten.Pairwise fun a b =>
      favoured n (D.byte D.table) a ≤ favoured n (D.byte D.table) b := by
    rw [groups, Runs.flatten_runs]
    exact byKey_sorted _ _
  have hsorted := (List.pairwise_flatten.mp hpair).1 g hgroup
  have heq := byte_eq_head hgroup hmem
  rcases g with _ | ⟨m, g⟩
  · exact absurd hmem List.not_mem_nil
  · rcases List.mem_cons.mp hmem with rfl | hmem
    · rfl
    · exact eq_of_favoured_le ((List.pairwise_cons.mp hsorted).1 n hmem) heq.symm

/-- **The masks tell the regions of nodes.** No write and no read is behind the end of the mask,
each node with one of the lowest eight bits has exactly the bits of its regions, nodes with the same
lowest eight bits lie in the same regions, and nodes without one of them lie in no region. -/
structure Distinguished (D : RegionSets) : Prop where
  inside : D.Inside
  readable : ∀ n < D.size, (∃ c < 8, D.Marked n c) → D.Readable n
  exact : ∀ n < D.size, (∃ c < 8, D.Marked n c) → ∀ r < D.count,
    D.Marked (n + r / 32) (r % 32) ↔ n ∈ D.nodes r
  same : ∀ m < D.size, ∀ n < D.size, (∀ c < 8, D.Marked m c ↔ D.Marked n c) →
    ∀ r < D.count, m ∈ D.nodes r ↔ n ∈ D.nodes r
  lost : ∀ n < D.size, (∀ c < 8, ¬D.Marked n c) → ∀ r < D.count, n ∉ D.nodes r

lemma forall_told_iff (h : D.bregions ≠ []) : (∀ S : Sorting ℕ, D.Told S) ↔ D.Distinguished := by
  constructor
  · intro htold
    have hinside := (htold Sorting.stable).inside
    have hfirst : ∀ n < D.size, (∃ c < 8, D.Marked n c) →
        ∃ g ∈ D.disjunkt (Sorting.favour n), g.headD 0 = n := by
      rintro n hn ⟨c, hc, hmark⟩
      exact exists_headD_eq hn fun hzero => (byte_eq_zero_iff hinside h).mp hzero c hc hmark
    refine ⟨hinside, fun n hn hmark => ?_, fun n hn hmark => ?_, (htold Sorting.stable).same,
      (htold Sorting.stable).lost⟩
    · obtain ⟨g, hg, heq⟩ := hfirst n hn hmark
      exact heq ▸ (htold _).readable g hg
    · obtain ⟨g, hg, heq⟩ := hfirst n hn hmark
      exact heq ▸ (htold _).first g hg
  · intro hdist S
    have hhead : ∀ g ∈ D.disjunkt S, g.headD 0 < D.size ∧ ∃ c < 8, D.Marked (g.headD 0) c := by
      intro g hg
      have hgroup := (mem_disjunkt.mp hg).1
      obtain ⟨c, hc, hmem⟩ := readRegions_ne_nil h hdist.inside hg
      exact ⟨mem_groups.mpr ⟨g, hgroup, head_mem hgroup⟩, c, hc,
        (mem_readRegions_of_lt hdist.inside hc).mp hmem⟩
    exact ⟨hdist.inside, fun g hg => hdist.readable _ (hhead g hg).1 (hhead g hg).2,
      fun g hg => hdist.exact _ (hhead g hg).1 (hhead g hg).2, hdist.same, hdist.lost⟩

variable (D) in
/-- **The nodes of regions are decomposed** exactly if the masks tell their regions: only the lowest
byte of the first word of a mask is compared, and a mask never has more than one word. -/
theorem decomposed_iff :
    (∀ S : Sorting ℕ, ∃ s, D.computeRegionsIntersection S = some s ∧ D.Decomposed s) ↔
      D.order.length < 2 ∨ D.bregions = [] ∨ D.Distinguished := by
  simp only [decomposed_iff_told]
  constructor
  · intro hall
    by_cases hearly : D.order.length < 2 ∨ D.bregions = []
    · exact hearly.imp_right Or.inl
    · obtain ⟨horder, hne⟩ := not_or.mp hearly
      have htold : ∀ S : Sorting ℕ, D.Told S :=
        fun S => ((hall S).resolve_left horder).resolve_left hne
      exact Or.inr (Or.inr ((forall_told_iff hne).mp htold))
  · rintro (horder | hnil | hdist) S
    · exact Or.inl horder
    · exact Or.inr (Or.inl hnil)
    · by_cases hnil : D.bregions = []
      · exact Or.inr (Or.inl hnil)
      · exact Or.inr (Or.inr ((forall_told_iff hnil).mpr hdist S))

lemma marked_iff (h : D.count ≤ 32) {n c : ℕ} : D.Marked n c ↔ n ∈ D.nodes c := by
  constructor
  · rintro ⟨r, rfl, x, hx, rfl⟩
    have hr := lt_count_of_mem hx
    rwa [Nat.mod_eq_of_lt (by omega), Nat.div_eq_of_lt (by omega), Nat.add_zero]
  · intro hn
    have hc := lt_count_of_mem hn
    exact ⟨c, Nat.mod_eq_of_lt (by omega), n, hn, by rw [Nat.div_eq_of_lt (by omega), Nat.add_zero]⟩

end RegionSets

/-! ## Nine regions -/

def regionOf (name : String) (nodes : List ℕ) : BoundaryRegion := ⟨name, nodes, [], nodes, []⟩

def nineRegions : List BoundaryRegion :=
  [regionOf "A" [], regionOf "B" [], regionOf "C" [], regionOf "D" [], regionOf "E" [],
    regionOf "F" [], regionOf "G" [], regionOf "H" [], regionOf "I" [0]]

lemma nineRegions_named : nineRegions.length ≤ (nineRegions.map (·.name)).length := by
  rw [List.length_map]

lemma nineRegions_ascending : ∀ b ∈ nineRegions, b.nodes.Pairwise (· < ·) := by
  simp [nineRegions, regionOf]

lemma nineRegions_within : ∀ b ∈ nineRegions, ∀ n ∈ b.nodes, n < 1 := by
  simp [nineRegions, regionOf]

lemma nineRegions_fresh : ∀ b ∈ nineRegions, b.uniqueNodes = b.nodes := by
  simp [nineRegions, regionOf]

def ninthRegion : RegionSets where
  size := 1
  pintervals := [(0, 1)]
  order := nineRegions.map (·.name)
  bregions := nineRegions
  named := nineRegions_named
  ascending := nineRegions_ascending
  within := nineRegions_within
  fresh := nineRegions_fresh

lemma ninthRegion_nodes : ∀ c < 8, ninthRegion.nodes c = [] := by decide

/-- The node of the ninth region is lost. -/
theorem ninthRegion_not_decomposed :
    ¬∀ S : Sorting ℕ, ∃ s,
      ninthRegion.computeRegionsIntersection S = some s ∧ ninthRegion.Decomposed s := by
  intro h
  have hne : ninthRegion.bregions ≠ [] := List.cons_ne_nil _ _
  obtain ⟨s, hs, hdec⟩ := h Sorting.stable
  obtain ⟨hinside, hread, rfl⟩ :=
    (RegionSets.computeRegionsIntersection_eq_some (by decide) hne).mp hs
  have htold := RegionSets.told_of_decomposed hne hinside hdec hread
  refine htold.lost 0 (by decide) (fun c hc => ?_) 8 (by decide) (by decide)
  rw [RegionSets.marked_iff (by decide), ninthRegion_nodes c hc]
  exact List.not_mem_nil

end Espreso
