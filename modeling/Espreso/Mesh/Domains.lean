import Espreso.Basis.Permute
import Espreso.Basis.Utils
import Mathlib.Data.Rat.Defs
import Mathlib.Algebra.Order.Field.Rat

/-!
# Domains of a partition

A partition vector assigns the elements of a rank to parts, some of which may be empty. At its end
`MeshPreprocessing::partitiate` sorts the elements by their parts, makes a domain of each part that
is not empty, and distributes domains and elements to threads.

* `Partition` — the partition vector and the clusters of parts.
* **`Partition.postProcess_correct`** — they are right for every partition.
-/

namespace Espreso

open Reorder

/-- The parts of the elements of a rank, and the clusters of all parts. -/
structure Partition where
  threads : ℕ
  clusters : List ℕ
  partition : List ℕ
  threads_pos : 0 < threads
  within : ∀ p ∈ partition, p < clusters.length

/-- The vectors of the element store. -/
structure Domains where
  tdistribution : List ℕ
  clusters : List ℕ
  ndomains : ℕ
  domainDistribution : List ℕ
  elementsDistribution : List ℕ

namespace Partition

variable (P : Partition)

abbrev size : ℕ := P.partition.length

def part (e : ℕ) : ℕ := P.partition.getD e 0

def permutation : List ℕ := byKey (fun e => toLex (P.part e, e)) P.size

/-- The first position from `begin'` on with a part that is at least `partindex`. -/
def partBegin (begin' partindex : ℕ) : ℕ :=
  begin' + lowerBound ((P.permutation.drop begin').map P.part) partindex

/-- The loop that fills `domainDistribution`, with a bound of its steps. -/
def borders : ℕ → ℕ → ℕ → Option (List ℕ)
  | 0, _, _ => none
  | steps + 1, partindex, begin' =>
    if begin' = P.permutation.length then some [P.permutation.length]
    else do
      let rest ← borders steps (partindex + 1) (P.partBegin begin' (partindex + 1))
      pure (begin' :: rest)

/-! ## The distribution of elements to threads -/

def averageThreadSize : ℚ := (P.size : ℚ) / P.threads

/-- The end of the elements of thread `t`: a border of parts next to the average. -/
def nextBorder (domainDistribution : List ℕ) (t back : ℕ) : Option ℕ :=
  let more := lowerBound (domainDistribution.map fun d : ℕ => (d : ℚ)) (back + P.averageThreadSize)
  if more = domainDistribution.length then domainDistribution.getLast?
  else if more = 0 then none
  else do
    let less' ← domainDistribution[more - 1]?
    let more' ← domainDistribution[more]?
    if |(less' : ℚ) - P.averageThreadSize * (t + 1)| < |(more' : ℚ) - P.averageThreadSize * (t + 1)| then
      some less'
    else some more'

def nextBorders (domainDistribution : List ℕ) : ℕ → Option (List ℕ)
  | 0 => some [0]
  | t + 1 => do
    let tdistribution ← nextBorders domainDistribution t
    let border ← P.nextBorder domainDistribution t (tdistribution.getLastD 0)
    pure (tdistribution ++ [border])

/-- `tdistribution`: as many parts as threads go to one thread each. -/
def tdistribution (domainDistribution : List ℕ) : Option (List ℕ) :=
  if domainDistribution.length = P.threads + 1 then some domainDistribution
  else if domainDistribution.length < P.threads + 1 then
    some (distribute P.threads P.permutation.length)
  else do
    let tdistribution ← P.nextBorders domainDistribution (P.threads - 1)
    pure (tdistribution ++ [P.permutation.length])

/-! ## The domains -/

def domainClusters (domainDistribution : List ℕ) : Option (List ℕ) :=
  ((List.range' 1 (domainDistribution.length - 1)).filter fun i =>
    domainDistribution[i - 1]? ≠ domainDistribution[i]?).mapM fun i => P.clusters[i - 1]?

/-- The positions between the borders of thread `t` in `domainDistribution`. -/
def domainRange (domainDistribution tdistribution : List ℕ) (t : ℕ) : Option (List ℕ) := do
  let first ← tdistribution[t]?
  let last ← tdistribution[t + 1]?
  let begin' := lowerBound domainDistribution first
  let end' := lowerBound domainDistribution last
  if begin' ≤ end' then some (List.range' begin' (end' - begin')) else none

/-- The number of domains of thread `t`. -/
def domainCounter (domainDistribution tdistribution : List ℕ) (t : ℕ) : Option ℕ :=
  if domainDistribution.length < P.threads + 1 then
    some (if t < domainDistribution.length - 1 then 1 else 0)
  else do
    let range ← domainRange domainDistribution tdistribution t
    pure range.length

/-- The ends of the domains of thread `t`. -/
def domainEnds (domainDistribution tdistribution : List ℕ) (t : ℕ) : Option (List ℕ) :=
  if domainDistribution.length < P.threads + 1 then
    if t < domainDistribution.length - 1 then do
      let last ← domainDistribution[t + 1]?
      pure [last]
    else some []
  else do
    let range ← domainRange domainDistribution tdistribution t
    range.mapM fun i => domainDistribution[i + 1]?

/-- **The end of `MeshPreprocessing::partitiate`.** -/
def postProcess : Option Domains := do
  let borders ← P.borders (P.clusters.length + 1) 0 0
  let tdistribution ← P.tdistribution borders
  let clusters ← P.domainClusters borders
  let domainDistribution := removeDuplicity borders
  let domainCounter ← (List.range P.threads).mapM (P.domainCounter domainDistribution tdistribution)
  let ends ← (List.range P.threads).mapM (P.domainEnds domainDistribution tdistribution)
  pure { tdistribution, clusters
         ndomains := domainCounter.sum
         domainDistribution := offsets domainCounter
         elementsDistribution := 0 :: ends.flatten }

/-- The elements of part `p`, in ascending order. -/
def members (p : ℕ) : List ℕ := (List.range P.size).filter fun e => P.part e = p

/-- **The domains are the parts that are not empty**, and threads have ranges of domains and
elements. -/
structure PostProcessed (out : Domains) : Prop where
  length_eq : out.elementsDistribution.length = out.ndomains + 1
  first : out.elementsDistribution[0]? = some 0
  last : out.elementsDistribution[out.ndomains]? = some P.size
  increasing : out.elementsDistribution.Pairwise (· < ·)
  clusters_length : out.clusters.length = out.ndomains
  domains : ∃ parts : List ℕ, parts.Pairwise (· < ·) ∧ parts.length = out.ndomains ∧
    (∀ p, p ∈ parts ↔ p ∈ P.partition) ∧
    ∀ d p, parts[d]? = some p → out.clusters[d]? = P.clusters[p]? ∧
      ∃ a b, out.elementsDistribution[d]? = some a ∧ out.elementsDistribution[d + 1]? = some b ∧
        window P.permutation a b = P.members p
  domainDistribution : ∃ d : Distribution P.threads out.ndomains, d.borders = out.domainDistribution
  tdistribution : ∃ d : Distribution P.threads P.size, d.borders = out.tdistribution

/-! ## The sorted elements -/

section Sorted

lemma permutation_perm : P.permutation.Perm (List.range P.size) := positions_perm _ _

lemma length_permutation : P.permutation.length = P.size := length_positions _ _

lemma permutation_sorted :
    P.permutation.Pairwise fun a b => P.part a < P.part b ∨ P.part a = P.part b ∧ a < b := by
  have hnodup : P.permutation.Nodup := P.permutation_perm.nodup_iff.mpr List.nodup_range
  refine ((byKey_sorted _ _).and hnodup).imp ?_
  rintro a b ⟨hle, hne⟩
  rcases Prod.Lex.toLex_le_toLex.mp hle with hlt | ⟨heq, hle⟩
  · exact Or.inl hlt
  · exact Or.inr ⟨heq, lt_of_le_of_ne hle hne⟩

def values : List ℕ := P.permutation.map P.part

lemma values_sorted : P.values.Pairwise (· ≤ ·) := by
  refine List.pairwise_map.mpr (P.permutation_sorted.imp ?_)
  rintro a b (hlt | ⟨heq, -⟩)
  · exact hlt.le
  · exact heq.le

lemma length_values : P.values.length = P.size := by rw [values, List.length_map, length_permutation]

/-- The position of the first element whose part is at least `p`. -/
def position (p : ℕ) : ℕ := lowerBound P.values p

lemma position_mono : Monotone P.position := fun _ _ h => lowerBound_mono _ h

lemma position_le (p : ℕ) : P.position p ≤ P.size := by
  rw [← length_values]
  exact lowerBound_le_length _ _

@[simp] lemma position_zero : P.position 0 = 0 := by
  rw [position]
  cases P.values with
  | nil => rfl
  | cons v l => rw [lowerBound_cons, if_pos (Nat.zero_le v)]

lemma part_mem {e : ℕ} (he : e < P.size) : P.part e ∈ P.partition := by
  rw [part, List.getD_eq_getElem _ _ he]
  exact List.getElem_mem he

lemma mem_values {p : ℕ} : p ∈ P.values ↔ p ∈ P.partition := by
  rw [values, List.mem_map]
  constructor
  · rintro ⟨e, he, rfl⟩
    exact P.part_mem (List.mem_range.mp (P.permutation_perm.mem_iff.mp he))
  · intro hp
    obtain ⟨e, he, rfl⟩ := List.mem_iff_getElem.mp hp
    exact ⟨e, P.permutation_perm.mem_iff.mpr (List.mem_range.mpr he), List.getD_eq_getElem _ _ he⟩

lemma position_clusters : P.position P.clusters.length = P.size := by
  rw [position, lowerBound_eq_length, length_values]
  exact fun v hv => P.within v (P.mem_values.mp hv)

lemma window_position (p : ℕ) :
    window P.permutation (P.position p) (P.position (p + 1)) = P.members p := by
  have hwindow : window P.permutation (P.position p) (P.position (p + 1))
      = P.permutation.filter fun e => p ≤ P.part e ∧ P.part e < p + 1 :=
    window_lowerBound_map P.values_sorted (Nat.le_succ p)
  rw [hwindow]
  refine List.Pairwise.eq_of_mem_iff (r := (· < ·)) ?_ (List.pairwise_lt_range.filter _) fun e => ?_
  · refine (P.permutation_sorted.filter _).imp_of_mem ?_
    intro a b ha hb hab
    have ha := of_decide_eq_true (List.mem_filter.mp ha).2
    have hb := of_decide_eq_true (List.mem_filter.mp hb).2
    omega
  · rw [members, List.mem_filter, List.mem_filter, P.permutation_perm.mem_iff, decide_eq_true_eq,
      decide_eq_true_eq]
    exact and_congr_right fun _ => by omega

lemma position_lt_iff {p : ℕ} : P.position p < P.position (p + 1) ↔ p ∈ P.partition := by
  have hlength : (P.members p).length = P.position (p + 1) - P.position p := by
    rw [← window_position, length_window]
    rw [length_permutation]
    exact P.position_le _
  have hmem : p ∈ P.partition ↔ P.members p ≠ [] := by
    constructor
    · intro hp
      obtain ⟨e, he, rfl⟩ := List.mem_iff_getElem.mp hp
      refine List.ne_nil_of_mem (a := e) (List.mem_filter.mpr ⟨List.mem_range.mpr he, ?_⟩)
      exact decide_eq_true (List.getD_eq_getElem _ _ he)
    · intro hne
      obtain ⟨e, he⟩ := List.exists_mem_of_ne_nil _ hne
      obtain ⟨hlt, hpart⟩ := List.mem_filter.mp he
      rw [← of_decide_eq_true hpart]
      exact P.part_mem (List.mem_range.mp hlt)
  rw [hmem, ← List.length_pos_iff, hlength]
  omega

end Sorted

/-! ## The borders -/

section Borders

lemma exists_count : ∃ k, P.position k = P.size := ⟨_, P.position_clusters⟩

def count : ℕ := Nat.find P.exists_count

lemma position_count : P.position P.count = P.size := Nat.find_spec P.exists_count

lemma count_le : P.count ≤ P.clusters.length := Nat.find_min' P.exists_count P.position_clusters

lemma position_ne {k : ℕ} (hk : k < P.count) : P.position k ≠ P.size :=
  Nat.find_min P.exists_count hk

lemma partBegin_position (k : ℕ) : P.partBegin (P.position k) (k + 1) = P.position (k + 1) := by
  have hle : P.position k ≤ P.position (k + 1) := P.position_mono (Nat.le_succ k)
  have hdrop := lowerBound_drop P.values hle
  rw [partBegin, List.map_drop]
  exact hdrop

lemma borders_eq (steps : ℕ) {k : ℕ} (hk : k ≤ P.count) (hsteps : P.count < k + steps) :
    P.borders steps k (P.position k)
      = some ((List.range' k (P.count + 1 - k)).map P.position) := by
  induction steps generalizing k with
  | zero => omega
  | succ steps ih =>
      rw [borders, length_permutation]
      rcases Nat.eq_or_lt_of_le hk with rfl | hlt
      · rw [if_pos P.position_count, Nat.add_sub_cancel_left, List.range'_one, List.map_singleton,
          position_count]
      · rw [if_neg (P.position_ne hlt), partBegin_position, ih hlt (by omega),
          show P.count + 1 - k = P.count + 1 - (k + 1) + 1 by omega, List.range'_succ, List.map_cons]
        rfl

/-- `domainDistribution` behind the loop. -/
def allBorders : List ℕ := (List.range (P.count + 1)).map P.position

lemma borders_eq_some : P.borders (P.clusters.length + 1) 0 0 = some P.allBorders := by
  have h := P.borders_eq (P.clusters.length + 1) (Nat.zero_le _) (by have := P.count_le; omega)
  rwa [position_zero, Nat.sub_zero, ← List.range_eq_range'] at h

lemma length_allBorders : P.allBorders.length = P.count + 1 := by
  rw [allBorders, List.length_map, List.length_range]

lemma allBorders_getElem? {k : ℕ} (hk : k ≤ P.count) : P.allBorders[k]? = some (P.position k) := by
  rw [allBorders, List.getElem?_map, List.getElem?_range (Nat.lt_succ_of_le hk), Option.map_some]

lemma allBorders_sorted : P.allBorders.Pairwise (· ≤ ·) :=
  List.pairwise_map.mpr (List.pairwise_lt_range.imp fun h => P.position_mono h.le)

lemma le_size_of_mem_allBorders {b : ℕ} (h : b ∈ P.allBorders) : b ≤ P.size := by
  obtain ⟨k, -, rfl⟩ := List.mem_map.mp h
  exact P.position_le k

def nonempty : List ℕ := (List.range P.count).filter fun p => P.position p ≠ P.position (p + 1)

lemma nonempty_ascending : P.nonempty.Pairwise (· < ·) := List.pairwise_lt_range.filter _

lemma mem_nonempty {p : ℕ} : p ∈ P.nonempty ↔ p ∈ P.partition := by
  have hle : P.position p ≤ P.position (p + 1) := P.position_mono (Nat.le_succ p)
  rw [nonempty, List.mem_filter, List.mem_range, decide_eq_true_eq, ← position_lt_iff]
  constructor
  · rintro ⟨-, hne⟩
    exact lt_of_le_of_ne hle hne
  · intro hlt
    refine ⟨?_, hlt.ne⟩
    by_contra hge
    have hcount := P.position_mono (Nat.le_of_not_lt hge)
    have hsize := P.position_le (p + 1)
    rw [position_count] at hcount
    omega

lemma removeDuplicity_allBorders :
    removeDuplicity P.allBorders = P.nonempty.map P.position ++ [P.size] := by
  rw [allBorders, removeDuplicity_map P.position_mono, position_count]
  rfl

lemma domainClusters_eq :
    P.domainClusters P.allBorders = some (P.nonempty.map fun p => P.clusters.getD p 0) := by
  have hrange : (List.range' 1 (P.allBorders.length - 1)).filter
      (fun i => P.allBorders[i - 1]? ≠ P.allBorders[i]?) = P.nonempty.map (1 + ·) := by
    rw [length_allBorders, Nat.add_sub_cancel, List.range'_eq_map_range, List.filter_map]
    refine congrArg _ (List.filter_congr fun p hp => ?_)
    have hp := List.mem_range.mp hp
    have hfirst := P.allBorders_getElem? hp.le
    have hsecond := P.allBorders_getElem? (Nat.succ_le_of_lt hp)
    rw [Nat.succ_eq_add_one, Nat.add_comm p 1] at hsecond
    rw [Function.comp_apply, Nat.add_sub_cancel_left, hfirst, hsecond, Nat.add_comm 1 p]
    simp
  have hread : ∀ i ∈ P.nonempty.map (1 + ·), P.clusters[i - 1]? = some (P.clusters.getD (i - 1) 0) := by
    intro i hi
    obtain ⟨p, hp, rfl⟩ := List.mem_map.mp hi
    have hlt := P.within p (P.mem_nonempty.mp hp)
    rw [Nat.add_sub_cancel_left, List.getD_eq_getElem _ _ hlt, List.getElem?_eq_getElem hlt]
  rw [domainClusters, hrange, Fallible.mapM_eq_some hread, List.map_map]
  refine congrArg some (List.map_congr_left fun p _ => ?_)
  rw [Function.comp_apply, Nat.add_sub_cancel_left]

end Borders

/-! ## The distribution to threads -/

section Threads

lemma averageThreadSize_pos (h : 0 < P.size) : 0 < P.averageThreadSize := by
  have hsize : (0 : ℚ) < P.size := by exact_mod_cast h
  have hthreads : (0 : ℚ) < P.threads := by exact_mod_cast P.threads_pos
  exact div_pos hsize hthreads

lemma nextBorder_spec {domainDistribution : List ℕ} (hsorted : domainDistribution.Pairwise (· ≤ ·))
    (hsize : 0 < P.size) (hle : ∀ b ∈ domainDistribution, b ≤ P.size)
    (hlast : domainDistribution.getLast? = some P.size) {back : ℕ} (hback : back ∈ domainDistribution)
    (t : ℕ) :
    ∃ b ∈ domainDistribution, P.nextBorder domainDistribution t back = some b ∧ back ≤ b := by
  have hcast : (domainDistribution.map fun d : ℕ => (d : ℚ)).Pairwise (· ≤ ·) :=
    List.pairwise_map.mpr (hsorted.imp fun h => by exact_mod_cast h)
  have hpos := P.averageThreadSize_pos hsize
  obtain ⟨i, hi⟩ := List.mem_iff_getElem?.mp hback
  have hentry : (domainDistribution.map fun d : ℕ => (d : ℚ))[i]? = some (back : ℚ) := by
    rw [List.getElem?_map, hi, Option.map_some]
  -- the last border is in front of the position found
  have hlt := (lt_lowerBound_iff hcast hentry).mpr
    (lt_add_of_pos_right (back : ℚ) (P.averageThreadSize_pos hsize))
  have hbound := lowerBound_le_length (domainDistribution.map fun d : ℕ => (d : ℚ))
    (back + P.averageThreadSize)
  rw [nextBorder]
  generalize lowerBound (domainDistribution.map fun d : ℕ => (d : ℚ))
    (back + P.averageThreadSize) = more at hlt hbound
  rw [List.length_map] at hbound
  split_ifs with hend hzero
  · exact ⟨P.size, List.mem_of_getLast? hlast, hlast, hle back hback⟩
  · exact absurd (hzero ▸ hlt) (Nat.not_lt_zero i)
  · have hless : more - 1 < domainDistribution.length := by omega
    have hmore : more < domainDistribution.length := by omega
    have hafter : ∀ j (hj : j < domainDistribution.length), i ≤ j → back ≤ domainDistribution[j] := by
      intro j hj hij
      obtain ⟨hilt, rfl⟩ := List.getElem?_eq_some_iff.mp hi
      rcases Nat.eq_or_lt_of_le hij with rfl | hij
      · exact le_rfl
      · exact List.pairwise_iff_getElem.mp hsorted i j hilt hj hij
    rw [List.getElem?_eq_getElem hless, List.getElem?_eq_getElem hmore]
    simp only [Option.bind_eq_bind, Option.bind_some]
    split_ifs
    · exact ⟨_, List.getElem_mem hless, rfl, hafter _ hless (by omega)⟩
    · exact ⟨_, List.getElem_mem hmore, rfl, hafter _ hmore hlt.le⟩

lemma nextBorders_spec {domainDistribution : List ℕ} (hsorted : domainDistribution.Pairwise (· ≤ ·))
    (hsize : 0 < P.size) (hle : ∀ b ∈ domainDistribution, b ≤ P.size)
    (hfirst : 0 ∈ domainDistribution) (hlast : domainDistribution.getLast? = some P.size) (t : ℕ) :
    ∃ borders, P.nextBorders domainDistribution t = some borders ∧ borders.length = t + 1 ∧
      borders[0]? = some 0 ∧ borders.Pairwise (· ≤ ·) ∧ borders.getLastD 0 ∈ domainDistribution ∧
      ∀ b ∈ borders, b ≤ borders.getLastD 0 := by
  induction t with
  | zero =>
      refine ⟨[0], rfl, rfl, rfl, List.pairwise_singleton _ _, hfirst, fun b hb => ?_⟩
      rw [List.mem_singleton.mp hb]
      exact Nat.zero_le _
  | succ t ih =>
      obtain ⟨borders, hborders, hlength, hzero, hpair, hmem, hmax⟩ := ih
      obtain ⟨b, hb, hnext, hback⟩ := P.nextBorder_spec hsorted hsize hle hlast hmem t
      refine ⟨borders ++ [b], ?_, ?_, ?_, ?_, ?_, ?_⟩
      · rw [nextBorders, hborders, Option.bind_eq_bind, Option.bind_some, hnext]
        rfl
      · rw [List.length_append, hlength, List.length_singleton]
      · rw [List.getElem?_append_left (by omega), hzero]
      · rw [List.pairwise_append]
        refine ⟨hpair, List.pairwise_singleton _ _, fun x hx y hy => ?_⟩
        rw [List.mem_singleton.mp hy]
        exact (hmax x hx).trans hback
      · rwa [List.getLastD_concat]
      · rw [List.getLastD_concat]
        intro x hx
        rcases List.mem_append.mp hx with hx | hx
        · exact (hmax x hx).trans hback
        · exact (List.mem_singleton.mp hx).le

lemma tdistribution_spec :
    ∃ d : Distribution P.threads P.size, P.tdistribution P.allBorders = some d.borders := by
  have hlength := P.length_allBorders
  rw [tdistribution, length_permutation]
  split_ifs with heq hlt
  · have hcount : P.count = P.threads := by omega
    refine ⟨⟨P.allBorders, heq, P.allBorders_sorted, ?_, ?_⟩, rfl⟩
    · rw [P.allBorders_getElem? (Nat.zero_le _), position_zero]
    · rw [← hcount, P.allBorders_getElem? le_rfl, position_count]
  · exact ⟨Distribution.uniform P.threads_pos P.size, rfl⟩
  · have hthreads := P.threads_pos
    have hfirst : 0 ∈ P.allBorders := by
      have h := P.allBorders_getElem? (Nat.zero_le _)
      rw [position_zero] at h
      exact List.mem_of_getElem? h
    have hlast : P.allBorders.getLast? = some P.size := by
      rw [List.getLast?_eq_getElem?, hlength, Nat.add_sub_cancel, P.allBorders_getElem? le_rfl,
        position_count]
    have hsize : 0 < P.size := by
      refine Nat.pos_of_ne_zero fun hzero => P.position_ne (show 0 < P.count by omega) ?_
      rw [position_zero, hzero]
    obtain ⟨borders, hborders, hblength, hzero, hpair, hmem, hmax⟩ := P.nextBorders_spec
      P.allBorders_sorted hsize (fun b hb => P.le_size_of_mem_allBorders hb) hfirst hlast (P.threads - 1)
    rw [Nat.sub_add_cancel hthreads] at hblength
    refine ⟨⟨borders ++ [P.size], ?_, ?_, ?_, ?_⟩, by rw [hborders]; rfl⟩
    · rw [List.length_append, hblength, List.length_singleton]
    · rw [List.pairwise_append]
      refine ⟨hpair, List.pairwise_singleton _ _, fun x hx y hy => ?_⟩
      rw [List.mem_singleton.mp hy]
      exact (hmax x hx).trans (P.le_size_of_mem_allBorders hmem)
    · rw [List.getElem?_append_left (by omega), hzero]
    · rw [List.getElem?_append_right hblength.le, hblength, Nat.sub_self]
      rfl

end Threads

/-! ## The domains of threads -/

section Domains

def rest : List ℕ := (removeDuplicity P.allBorders).tail

lemma mem_allBorders {b : ℕ} : b ∈ P.allBorders ↔ ∃ k ≤ P.count, P.position k = b := by
  rw [allBorders, List.mem_map]
  simp only [List.mem_range, Nat.lt_succ_iff]

lemma cons_rest : removeDuplicity P.allBorders = 0 :: P.rest := by
  have hsorted := removeDuplicity_sorted P.allBorders_sorted
  have hmem : 0 ∈ removeDuplicity P.allBorders :=
    (mem_removeDuplicity P.allBorders_sorted).mpr
      (P.mem_allBorders.mpr ⟨0, Nat.zero_le _, P.position_zero⟩)
  rw [rest]
  generalize removeDuplicity P.allBorders = l at hsorted hmem
  rcases l with _ | ⟨b, l⟩
  · exact absurd hmem List.not_mem_nil
  · rcases List.mem_cons.mp hmem with rfl | hmem
    · rfl
    · exact absurd ((List.pairwise_cons.mp hsorted).1 0 hmem) (Nat.not_lt_zero b)

lemma length_rest : P.rest.length = P.nonempty.length := by
  rw [rest, List.length_tail, removeDuplicity_allBorders, List.length_append, List.length_map,
    List.length_singleton, Nat.add_sub_cancel]

lemma lowerBound_size : lowerBound (removeDuplicity P.allBorders) P.size = P.nonempty.length := by
  refine lowerBound_getElem? (removeDuplicity_sorted P.allBorders_sorted) ?_
  rw [removeDuplicity_allBorders, List.getElem?_append_right (by rw [List.length_map]),
    List.length_map, Nat.sub_self]
  rfl

lemma mapM_range' (l : List ℕ) {a k : ℕ} (h : a + k ≤ l.length) :
    (List.range' a k).mapM (l[·]?) = some (window l a (a + k)) := by
  have hwithin : Within (List.range' a k) l.length := fun i hi => by
    have := (List.mem_range'_1.mp hi).2
    omega
  rw [Fallible.mapM_eq_some_iff, ← map_some_gather hwithin, gather_range' l a k h, window,
    Nat.add_sub_cancel_left]

/-- A thread has a range of domains: their number, and their ends. -/
def HasDomains (tdistribution : List ℕ) (c : Distribution P.threads P.nonempty.length) : Prop :=
  ∀ t < P.threads,
    P.domainCounter (removeDuplicity P.allBorders) tdistribution t
        = some (c.border (t + 1) - c.border t) ∧
      P.domainEnds (removeDuplicity P.allBorders) tdistribution t
        = some (window P.rest (c.border t) (c.border (t + 1)))

lemma length_borders : (removeDuplicity P.allBorders).length = P.nonempty.length + 1 := by
  rw [cons_rest, List.length_cons, length_rest]

lemma exists_hasDomains_of_few (tdistribution : List ℕ) (hfew : P.nonempty.length < P.threads) :
    ∃ c, P.HasDomains tdistribution c := by
  have hmono : Monotone fun t => min t P.nonempty.length := fun _ _ h => min_le_min_right _ h
  refine ⟨Distribution.ofFun _ hmono (Nat.zero_min _) (min_eq_right hfew.le), fun t ht => ?_⟩
  rw [Distribution.ofFun_border ht.le, Distribution.ofFun_border (Nat.succ_le_of_lt ht),
    domainCounter, domainEnds, length_borders, if_pos (Nat.succ_lt_succ hfew),
    if_pos (Nat.succ_lt_succ hfew), Nat.add_sub_cancel]
  split_ifs with hlt
  · have hrest : t < P.rest.length := by rwa [length_rest]
    have hwindow : window P.rest t (t + 1) = [P.rest[t]] := by
      rw [window, Nat.add_sub_cancel_left, List.drop_eq_getElem_cons hrest]
      rfl
    rw [min_eq_left hlt.le, min_eq_left (Nat.succ_le_of_lt hlt), cons_rest,
      List.getElem?_cons_succ, List.getElem?_eq_getElem hrest, Nat.succ_eq_add_one, hwindow,
      Nat.add_sub_cancel_left]
    exact ⟨rfl, rfl⟩
  · rw [min_eq_right (by omega), min_eq_right (by omega), Nat.sub_self, window_self]
    exact ⟨rfl, rfl⟩

lemma exists_hasDomains_of_many (d : Distribution P.threads P.size)
    (hmany : P.threads ≤ P.nonempty.length) : ∃ c, P.HasDomains d.borders c := by
  have hmono : Monotone (lowerBound (removeDuplicity P.allBorders)) :=
    fun _ _ h => lowerBound_mono _ h
  have hzero : lowerBound (removeDuplicity P.allBorders) 0 = 0 := by
    rw [cons_rest, lowerBound_cons, if_pos le_rfl]
  refine ⟨(d.map _ hmono hzero).cast P.lowerBound_size, fun t ht => ?_⟩
  have hle := hmono (d.border_mono (Nat.le_add_right t 1) ht)
  have hend := hmono (d.border_le_total (show t + 1 ≤ P.threads from ht))
  rw [lowerBound_size, ← length_rest] at hend
  rw [Distribution.cast_border, Distribution.cast_border, Distribution.map_border ht.le,
    Distribution.map_border ht, domainCounter, domainEnds, length_borders,
    if_neg (by omega), if_neg (by omega)]
  have hrange : domainRange (removeDuplicity P.allBorders) d.borders t
      = some (List.range' (lowerBound (removeDuplicity P.allBorders) (d.border t))
          (lowerBound (removeDuplicity P.allBorders) (d.border (t + 1))
            - lowerBound (removeDuplicity P.allBorders) (d.border t))) := by
    rw [domainRange, d.getElem?_eq ht.le, d.getElem?_eq ht]
    exact if_pos hle
  rw [hrange]
  constructor
  · rw [Option.bind_eq_bind, Option.bind_some, List.length_range']
    rfl
  · rw [Option.bind_eq_bind, Option.bind_some]
    simp only [cons_rest, List.getElem?_cons_succ]
    rw [cons_rest] at hle hend
    rw [mapM_range' _ (by omega), Nat.add_sub_cancel' hle]

lemma exists_hasDomains (d : Distribution P.threads P.size) : ∃ c, P.HasDomains d.borders c := by
  rcases Nat.lt_or_ge P.nonempty.length P.threads with hfew | hmany
  · exact P.exists_hasDomains_of_few _ hfew
  · exact P.exists_hasDomains_of_many d hmany

lemma borders_succ {i p : ℕ} (hp : P.nonempty[i]? = some p) :
    (removeDuplicity P.allBorders)[i]? = some (P.position p) ∧
      (removeDuplicity P.allBorders)[i + 1]? = some (P.position (p + 1)) := by
  have hsorted := removeDuplicity_sorted P.allBorders_sorted
  have hilt := (List.getElem?_eq_some_iff.mp hp).1
  have hfirst : (removeDuplicity P.allBorders)[i]? = some (P.position p) := by
    rw [removeDuplicity_allBorders, List.getElem?_append_left (by rwa [List.length_map]),
      List.getElem?_map, hp, Option.map_some]
  have hpart := P.position_lt_iff.mpr (P.mem_nonempty.mp (List.mem_of_getElem? hp))
  have hcount : p + 1 ≤ P.count :=
    List.mem_range.mp (List.mem_filter.mp (List.mem_of_getElem? hp)).1
  -- the next border is that of another part, and the position behind this part is a border
  have hnext : i + 1 < (removeDuplicity P.allBorders).length := by
    rw [length_borders]
    omega
  have hmem := (mem_removeDuplicity P.allBorders_sorted).mp (List.getElem_mem hnext)
  obtain ⟨q, -, hq⟩ := P.mem_allBorders.mp hmem
  obtain ⟨j, hj⟩ := List.mem_iff_getElem?.mp ((mem_removeDuplicity P.allBorders_sorted).mpr
    (P.mem_allBorders.mpr ⟨p + 1, hcount, rfl⟩))
  obtain ⟨hjlt, hj⟩ := List.getElem?_eq_some_iff.mp hj
  obtain ⟨hi, hi'⟩ := List.getElem?_eq_some_iff.mp hfirst
  have hstep := List.pairwise_iff_getElem.mp hsorted i (i + 1) hi hnext (Nat.lt_succ_self i)
  have hij : i < j := by
    by_contra hge
    rcases Nat.eq_or_lt_of_le (Nat.le_of_not_lt hge) with rfl | hlt
    · omega
    · have := List.pairwise_iff_getElem.mp hsorted j i hjlt hi hlt
      omega
  have hle : (removeDuplicity P.allBorders)[i + 1] ≤ (removeDuplicity P.allBorders)[j] := by
    rcases Nat.eq_or_lt_of_le (Nat.succ_le_of_lt hij) with rfl | hlt
    · exact le_rfl
    · exact (List.pairwise_iff_getElem.mp hsorted (i + 1) j hnext hjlt hlt).le
  have hpq : p + 1 ≤ q := by
    by_contra hge
    have := P.position_mono (show q ≤ p by omega)
    omega
  have hqle := P.position_mono hpq
  refine ⟨hfirst, ?_⟩
  rw [List.getElem?_eq_getElem hnext]
  exact congrArg some (by omega)

/-- **The end of `MeshPreprocessing::partitiate` is right** for every partition. -/
theorem postProcess_correct : ∃ out, P.postProcess = some out ∧ P.PostProcessed out := by
  obtain ⟨d, hd⟩ := P.tdistribution_spec
  obtain ⟨c, hc⟩ := P.exists_hasDomains d
  have hcounter : (List.range P.threads).mapM
      (P.domainCounter (removeDuplicity P.allBorders) d.borders)
        = some ((List.range P.threads).map fun t => c.border (t + 1) - c.border t) :=
    Fallible.mapM_eq_some fun t ht => (hc t (List.mem_range.mp ht)).1
  have hends : (List.range P.threads).mapM
      (P.domainEnds (removeDuplicity P.allBorders) d.borders)
        = some ((List.range P.threads).map fun t =>
            window P.rest (c.border t) (c.border (t + 1))) :=
    Fallible.mapM_eq_some fun t ht => (hc t (List.mem_range.mp ht)).2
  have hsum := sum_sizes c le_rfl
  have hflatten : ((List.range P.threads).map fun t =>
      window P.rest (c.border t) (c.border (t + 1))).flatten = P.rest := by
    rw [← List.flatMap_def, flatMap_window c P.rest P.threads le_rfl, c.border_size, window,
      Nat.sub_zero, List.drop_zero, ← length_rest, List.take_length]
  rw [c.border_size] at hsum
  refine ⟨⟨d.borders, P.nonempty.map fun p => P.clusters.getD p 0, P.nonempty.length, c.borders,
    removeDuplicity P.allBorders⟩, ?_, ?_⟩
  · rw [postProcess]
    simp only [borders_eq_some, Option.bind_eq_bind, Option.bind_some, hd, domainClusters_eq,
      hcounter, hends, hsum, hflatten, offsets_sizes, Option.pure_def, ← cons_rest]
  · refine ⟨P.length_borders, ?_, ?_, removeDuplicity_sorted P.allBorders_sorted,
      List.length_map _, ⟨P.nonempty, P.nonempty_ascending, rfl, fun p => P.mem_nonempty, ?_⟩,
      ⟨c, rfl⟩, ⟨d, rfl⟩⟩
    · dsimp only
      rw [cons_rest]
      rfl
    · dsimp only
      rw [removeDuplicity_allBorders, List.getElem?_append_right (by rw [List.length_map]),
        List.length_map, Nat.sub_self]
      rfl
    · intro i p hp
      obtain ⟨hfirst, hnext⟩ := P.borders_succ hp
      have hlt := P.within p (P.mem_nonempty.mp (List.mem_of_getElem? hp))
      refine ⟨?_, _, _, hfirst, hnext, P.window_position p⟩
      rw [List.getElem?_map, hp, Option.map_some, List.getElem?_eq_getElem hlt,
        List.getD_eq_getElem _ _ hlt]

end Domains

end Partition

end Espreso
