import Espreso.Basis.Serialized

/-!
# Corner nodes

`MeshPreprocessing::computeCornerNodes` selects nodes of the intervals that are shared by domains.
It walks over all intervals and has a second index for the external ones.

* `CornerInput` — the intervals of nodes with their domains.
* **`corners_right_iff`** — when it selects the corners of all shared intervals.
-/

namespace Espreso

/-- An interval of nodes, with its domains. -/
structure NodeInterval where
  (begin' end' : ℕ)
  domains : List ℕ

/-- The intervals of nodes on a rank. Intervals have nodes, and a node belongs to a domain. -/
structure CornerInput where
  intervals : List NodeInterval
  externalIntervals : List ℕ
  firstDomain : ℕ
  ndomains : ℕ
  nonempty : ∀ I ∈ intervals, I.begin' < I.end' ∧ I.domains ≠ []
  ascending : externalIntervals.Pairwise (· < ·)

/-- `corners`, with the vectors of `cornerDomains`. -/
structure Corners where
  corners : List ℕ
  domainDistribution : List ℕ
  domainData : List ℕ

/-- `n = begin; n < end; n += inc`, for at most `fuel` nodes. -/
def stepNodes (inc end' : ℕ) : ℕ → ℕ → List ℕ
  | 0, _ => []
  | fuel + 1, n => if n < end' then n :: stepNodes inc end' fuel (n + inc) else []

namespace NodeInterval

variable (I : NodeInterval)

def inc : ℕ := if (I.end' - I.begin') / 3 = 0 then 1 else (I.end' - I.begin') / 3

def selected (external : Bool) : List ℕ :=
  if external then stepNodes I.inc I.end' (I.end' - I.begin') I.begin'
  else [I.begin' + (I.end' - I.begin') / 2]

end NodeInterval

namespace CornerInput

variable (C : CornerInput)

def localDomains (domains : List ℕ) : List ℕ :=
  (domains.filter fun d => C.firstDomain ≤ d ∧ d < C.firstDomain + C.ndomains).map
    (· - C.firstDomain)

def push (domains : List ℕ) (S : Corners) (n : ℕ) : Corners :=
  let domainData := S.domainData ++ C.localDomains domains
  ⟨S.corners ++ [n], S.domainDistribution ++ [domainData.length], domainData⟩

/-- The loop from interval `i` on, where `ei` is the next external interval. -/
def walk : ℕ → ℕ → Corners → List NodeInterval → Corners
  | _, _, S, [] => S
  | i, ei, S, I :: rest =>
    if I.domains.length = 1 then walk (i + 1) ei S rest
    else if C.externalIntervals[ei]? = some i then
      walk (i + 1) (ei + 1) ((I.selected true).foldl (C.push I.domains) S) rest
    else walk (i + 1) ei ((I.selected false).foldl (C.push I.domains) S) rest

/-- **`MeshPreprocessing::computeCornerNodes`** -/
def computeCornerNodes : Corners := C.walk 0 0 ⟨[], [0], []⟩ C.intervals

/-- The nodes that an interval should have as corners: the middle one, or each `inc`-th one of an
external interval. -/
def cornersOf (i : ℕ) (I : NodeInterval) : List ℕ :=
  if 2 ≤ I.domains.length then
    if i ∈ C.externalIntervals then
      (List.range' I.begin' (I.end' - I.begin')).filter fun n => I.inc ∣ n - I.begin'
    else [I.begin' + (I.end' - I.begin') / 2]
  else []

/-- **The corners of all shared intervals**, with the local domains of their intervals. -/
def Right : Prop :=
  let corners := C.intervals.zipIdx.flatMap fun I => (C.cornersOf I.2 I.1).map fun n => (n, I.1)
  C.computeCornerNodes.corners = corners.map Prod.fst ∧
    (⟨C.computeCornerNodes.domainDistribution, C.computeCornerNodes.domainData⟩ : Serialized ℕ)
      = Serialized.ofRows (corners.map fun c => C.localDomains c.2.domains)

end CornerInput

/-! ## The nodes of an interval -/

lemma mem_stepNodes {inc end' fuel n m : ℕ} (hinc : 0 < inc) (hfuel : end' ≤ n + fuel) :
    m ∈ stepNodes inc end' fuel n ↔ n ≤ m ∧ m < end' ∧ inc ∣ m - n := by
  induction fuel generalizing n with
  | zero =>
      simp only [stepNodes, List.not_mem_nil, false_iff]
      omega
  | succ fuel ih =>
      rw [stepNodes]
      split_ifs with hlt
      · rw [List.mem_cons, ih (by omega)]
        constructor
        · rintro (rfl | ⟨hle, hm, hdvd⟩)
          · exact ⟨le_rfl, hlt, by simp⟩
          · refine ⟨by omega, hm, ?_⟩
            rw [show m - n = m - (n + inc) + inc by omega]
            exact hdvd.add (dvd_refl inc)
        · rintro ⟨hle, hm, hdvd⟩
          rcases Nat.eq_or_lt_of_le hle with heq | hbehind
          · exact Or.inl heq.symm
          · have hge := Nat.le_of_dvd (by omega) hdvd
            refine Or.inr ⟨by omega, hm, ?_⟩
            rw [show m - (n + inc) = m - n - inc by omega]
            exact Nat.dvd_sub hdvd (dvd_refl inc)
      · simp only [List.not_mem_nil, false_iff]
        omega

lemma stepNodes_sorted {inc end' : ℕ} (hinc : 0 < inc) (fuel n : ℕ) (hfuel : end' ≤ n + fuel) :
    (stepNodes inc end' fuel n).Pairwise (· < ·) := by
  induction fuel generalizing n with
  | zero => exact List.Pairwise.nil
  | succ fuel ih =>
      rw [stepNodes]
      split_ifs
      · refine List.pairwise_cons.mpr ⟨fun m hm => ?_, ih _ (by omega)⟩
        have := (mem_stepNodes hinc (by omega)).mp hm
        omega
      · exact List.Pairwise.nil

namespace NodeInterval

variable (I : NodeInterval)

lemma inc_pos : 0 < I.inc := by
  rw [inc]
  split_ifs <;> omega

lemma selected_external : I.selected true
    = (List.range' I.begin' (I.end' - I.begin')).filter fun n => I.inc ∣ n - I.begin' := by
  have hfuel : I.end' ≤ I.begin' + (I.end' - I.begin') := by omega
  refine List.Pairwise.eq_of_mem_iff (stepNodes_sorted I.inc_pos _ _ hfuel)
    (List.Pairwise.filter _ List.pairwise_lt_range') fun n => ?_
  rw [selected, if_pos rfl, mem_stepNodes I.inc_pos hfuel, List.mem_filter, List.mem_range'_1,
    decide_eq_true_eq]
  constructor
  · rintro ⟨hle, hlt, hdvd⟩
    exact ⟨⟨hle, by omega⟩, hdvd⟩
  · rintro ⟨⟨hle, hlt⟩, hdvd⟩
    exact ⟨hle, by omega, hdvd⟩

lemma selected_eq_or_lt (h : I.begin' < I.end') :
    (I.end' = I.begin' + 1 → I.selected false = I.selected true) ∧
      (I.end' ≠ I.begin' + 1 → (I.selected false).length < (I.selected true).length) := by
  have hfuel : I.end' ≤ I.begin' + (I.end' - I.begin') := by omega
  constructor
  · intro hone
    rw [selected_external, selected, if_neg (by simp), hone, Nat.add_sub_cancel_left]
    simp
  · intro hmore
    have hmem : ∀ n ∈ [I.begin', I.begin' + I.inc], n ∈ I.selected true := by
      intro n hn
      rw [selected, if_pos rfl, mem_stepNodes I.inc_pos hfuel]
      rcases List.mem_cons.mp hn with rfl | hn
      · exact ⟨le_rfl, h, by simp⟩
      · rw [List.mem_singleton.mp hn]
        refine ⟨Nat.le_add_right _ _, ?_, by simp⟩
        rw [inc]
        split_ifs <;> omega
    have hnodup : [I.begin', I.begin' + I.inc].Nodup := by
      have := I.inc_pos
      simp only [List.nodup_cons, List.mem_singleton, List.not_mem_nil, not_false_eq_true,
        List.nodup_nil, and_true]
      omega
    have hle := (List.subperm_of_subset hnodup hmem).length_le
    rw [selected, if_neg (by simp)]
    exact hle

end NodeInterval

namespace CornerInput

variable (C : CornerInput)

/-! ## The walk -/

def store (corners : List (ℕ × NodeInterval)) : Corners where
  corners := corners.map Prod.fst
  domainDistribution := offsets ((corners.map fun c => C.localDomains c.2.domains).map List.length)
  domainData := (corners.map fun c => C.localDomains c.2.domains).flatten

lemma foldl_push (I : NodeInterval) (corners : List (ℕ × NodeInterval)) (ns : List ℕ) :
    ns.foldl (C.push I.domains) (C.store corners) = C.store (corners ++ ns.map fun n => (n, I)) := by
  induction ns generalizing corners with
  | nil => rw [List.foldl_nil, List.map_nil, List.append_nil]
  | cons n ns ih =>
      have hpush : C.push I.domains (C.store corners) n = C.store (corners ++ [(n, I)]) := by
        simp only [push, store, List.map_append, List.map_singleton, List.flatten_append,
          List.flatten_singleton, offsets_concat, List.length_append, List.length_flatten]
      rw [List.foldl_cons, hpush, ih, List.append_assoc, List.map_cons, List.singleton_append]

/-- An external interval in front of interval `i` has a single domain. -/
def Missed (i : ℕ) : Prop :=
  ∃ j < i, j ∈ C.externalIntervals ∧ ∃ J, C.intervals[j]? = some J ∧ J.domains.length = 1

/-- The second index is behind the external intervals so far, or remains at one that is missed. -/
def Synchronised (i ei : ℕ) : Prop :=
  (¬C.Missed i ∧ C.externalIntervals.drop ei = C.externalIntervals.filter (i ≤ ·)) ∨
    (C.Missed i ∧ ∃ j < i, C.externalIntervals[ei]? = some j)

section Step

variable {C} {i ei : ℕ} {I : NodeInterval}

lemma missed_succ_iff (hI : C.intervals[i]? = some I) : C.Missed (i + 1) ↔
    C.Missed i ∨ (i ∈ C.externalIntervals ∧ I.domains.length = 1) := by
  constructor
  · rintro ⟨j, hj, hmem, J, hJ, hone⟩
    rcases Nat.eq_or_lt_of_le (Nat.le_of_lt_succ hj) with rfl | hlt
    · obtain rfl := Option.some.inj (hI.symm.trans hJ)
      exact Or.inr ⟨hmem, hone⟩
    · exact Or.inl ⟨j, hlt, hmem, J, hJ, hone⟩
  · rintro (⟨j, hj, hrest⟩ | ⟨hmem, hone⟩)
    · exact ⟨j, Nat.lt_succ_of_lt hj, hrest⟩
    · exact ⟨i, Nat.lt_succ_self i, hmem, I, hI, hone⟩

lemma filter_le_eq (hascending : C.externalIntervals.Pairwise (· < ·)) :
    C.externalIntervals.filter (i ≤ ·)
      = (if i ∈ C.externalIntervals then [i] else []) ++ C.externalIntervals.filter (i + 1 ≤ ·) := by
  refine List.Pairwise.eq_of_mem_iff (hascending.filter _) ?_ fun j => ?_
  · split_ifs
    · refine List.pairwise_cons.mpr ⟨fun j hj => ?_, hascending.filter _⟩
      exact of_decide_eq_true (List.mem_filter.mp hj).2
    · exact hascending.filter _
  · rw [List.mem_append, List.mem_filter, List.mem_filter, decide_eq_true_eq, decide_eq_true_eq]
    constructor
    · rintro ⟨hmem, hle⟩
      rcases Nat.eq_or_lt_of_le hle with rfl | hlt
      · exact Or.inl (by rw [if_pos hmem]; exact List.mem_singleton_self i)
      · exact Or.inr ⟨hmem, hlt⟩
    · rintro (hj | ⟨hmem, hle⟩)
      · obtain ⟨hmem, hj⟩ := List.mem_ite_nil_right.mp hj
        obtain rfl := List.mem_singleton.mp hj
        exact ⟨hmem, le_rfl⟩
      · exact ⟨hmem, by omega⟩

lemma test_iff (h : C.Synchronised i ei) :
    C.externalIntervals[ei]? = some i ↔ i ∈ C.externalIntervals ∧ ¬C.Missed i := by
  rcases h with ⟨hnot, hdrop⟩ | ⟨hmissed, j, hj, hei⟩
  · have hhead : C.externalIntervals[ei]? = (C.externalIntervals.filter (i ≤ ·)).head? := by
      rw [← hdrop, List.head?_drop]
    rw [hhead, filter_le_eq C.ascending]
    constructor
    · intro h
      refine ⟨?_, hnot⟩
      by_contra hmem
      rw [if_neg hmem, List.nil_append] at h
      have := of_decide_eq_true (List.mem_filter.mp (List.mem_of_head? h)).2
      omega
    · rintro ⟨hmem, -⟩
      rw [if_pos hmem]
      rfl
  · rw [hei]
    constructor
    · intro h
      have := Option.some.inj h
      omega
    · exact fun h => absurd hmissed h.2

lemma synchronised_succ (hI : C.intervals[i]? = some I) (h : C.Synchronised i ei) :
    C.Synchronised (i + 1) (if I.domains.length ≠ 1 ∧ C.externalIntervals[ei]? = some i then ei + 1
      else ei) := by
  have htest := test_iff h
  rcases h with ⟨hnot, hdrop⟩ | ⟨hmissed, j, hj, hei⟩
  · rw [filter_le_eq C.ascending] at hdrop
    by_cases hmem : i ∈ C.externalIntervals
    · have hei := htest.mpr ⟨hmem, hnot⟩
      rw [if_pos hmem] at hdrop
      by_cases hone : I.domains.length = 1
      · rw [if_neg fun h => h.1 hone]
        exact Or.inr ⟨(missed_succ_iff hI).mpr (Or.inr ⟨hmem, hone⟩), i, Nat.lt_succ_self i, hei⟩
      · rw [if_pos ⟨hone, hei⟩]
        refine Or.inl ⟨fun h => ?_, ?_⟩
        · exact ((missed_succ_iff hI).mp h).elim hnot fun h => hone h.2
        · rw [← List.tail_drop, hdrop]
          rfl
    · rw [if_neg fun h => hmem (htest.mp h.2).1]
      rw [if_neg hmem, List.nil_append] at hdrop
      exact Or.inl ⟨fun h => ((missed_succ_iff hI).mp h).elim hnot fun h => hmem h.1, hdrop⟩
  · rw [if_neg fun h => (htest.mp h.2).2 hmissed]
    exact Or.inr ⟨(missed_succ_iff hI).mpr (Or.inl hmissed), j, Nat.lt_succ_of_lt hj, hei⟩

end Step

open Classical in
/-- The nodes that the code takes from interval `i`. -/
noncomputable def taken (i : ℕ) (I : NodeInterval) : List ℕ :=
  if I.domains.length = 1 then [] else I.selected (i ∈ C.externalIntervals ∧ ¬C.Missed i)

open Classical in
lemma walk_eq {rest : List NodeInterval} {i ei : ℕ} (hrest : C.intervals.drop i = rest)
    (h : C.Synchronised i ei) (corners : List (ℕ × NodeInterval)) :
    C.walk i ei (C.store corners) rest = C.store (corners ++
      (rest.zipIdx i).flatMap fun I => (C.taken I.2 I.1).map fun n => (n, I.1)) := by
  induction rest generalizing i ei corners with
  | nil => rw [walk, List.zipIdx_nil, List.flatMap_nil, List.append_nil]
  | cons I rest ih =>
      have hI : C.intervals[i]? = some I := by
        rw [← List.head?_drop, hrest]
        rfl
      have hnext : C.intervals.drop (i + 1) = rest := by
        rw [← List.tail_drop, hrest]
        rfl
      have hsucc := synchronised_succ hI h
      have htest := test_iff h
      rw [walk, List.zipIdx_cons, List.flatMap_cons, ← List.append_assoc, taken]
      by_cases hone : I.domains.length = 1
      · rw [if_neg fun h => h.1 hone] at hsucc
        rw [if_pos hone, if_pos hone, List.map_nil, List.append_nil]
        exact ih hnext hsucc corners
      · rw [if_neg hone, if_neg hone]
        by_cases hei : C.externalIntervals[ei]? = some i
        · rw [if_pos ⟨hone, hei⟩] at hsucc
          rw [if_pos hei, foldl_push, decide_eq_true (htest.mp hei)]
          exact ih hnext hsucc _
        · rw [if_neg fun h => hei h.2] at hsucc
          rw [if_neg hei, foldl_push, decide_eq_false (mt htest.mpr hei)]
          exact ih hnext hsucc _

/-- **What the code selects**: an external interval behind one with a single domain gets the corner
of other intervals. -/
lemma computeCornerNodes_eq : C.computeCornerNodes = C.store
    (C.intervals.zipIdx.flatMap fun I => (C.taken I.2 I.1).map fun n => (n, I.1)) := by
  have hstart : C.Synchronised 0 0 := by
    refine Or.inl ⟨fun ⟨j, hj, _⟩ => absurd hj (Nat.not_lt_zero j), ?_⟩
    rw [List.drop_zero, List.filter_eq_self.mpr fun j _ => decide_eq_true (Nat.zero_le j)]
  exact C.walk_eq List.drop_zero hstart []

/-! ## The corners -/

lemma flatMap_eq_iff {α β : Type} {f g : α → List β} {l : List α}
    (h : ∀ x ∈ l, f x = g x ∨ (f x).length < (g x).length) :
    (l.flatMap f).length = (l.flatMap g).length ↔ ∀ x ∈ l, f x = g x := by
  induction l with
  | nil => simp
  | cons x l ih =>
      have hrest := ih fun y hy => h y (List.mem_cons_of_mem x hy)
      have hle : (l.flatMap f).length ≤ (l.flatMap g).length := by
        rw [List.length_flatMap, List.length_flatMap]
        refine List.sum_le_sum fun y hy => ?_
        rcases h y (List.mem_cons_of_mem x hy) with heq | hlt
        · rw [heq]
        · exact hlt.le
      rw [List.flatMap_cons, List.flatMap_cons, List.length_append, List.length_append,
        List.forall_mem_cons, ← hrest]
      rcases h x List.mem_cons_self with heq | hlt
      · rw [heq]
        exact ⟨fun h => ⟨rfl, by omega⟩, fun h => by omega⟩
      · refine ⟨fun h => by omega, fun h => ?_⟩
        rw [h.1] at hlt
        exact absurd hlt (lt_irrefl _)

open Classical in
lemma taken_eq_or_lt {i : ℕ} {I : NodeInterval} (hI : C.intervals[i]? = some I) :
    C.taken i I = C.cornersOf i I ∨ (C.taken i I).length < (C.cornersOf i I).length := by
  obtain ⟨hlt, hdomains⟩ := C.nonempty I (List.mem_of_getElem? hI)
  have hpos := List.length_pos_iff.mpr hdomains
  have hselected := I.selected_eq_or_lt hlt
  rw [taken, cornersOf, ← I.selected_external]
  by_cases hone : I.domains.length = 1
  · rw [if_pos hone, if_neg (by omega)]
    exact Or.inl rfl
  · rw [if_neg hone, if_pos (by omega)]
    by_cases hmem : i ∈ C.externalIntervals
    · rw [if_pos hmem]
      by_cases hmissed : C.Missed i
      · rw [decide_eq_false fun h => h.2 hmissed]
        rcases eq_or_ne I.end' (I.begin' + 1) with h | h
        · exact Or.inl (hselected.1 h)
        · exact Or.inr (hselected.2 h)
      · rw [decide_eq_true ⟨hmem, hmissed⟩]
        exact Or.inl rfl
    · rw [if_neg hmem, decide_eq_false fun h => hmem h.1]
      exact Or.inl rfl

open Classical in
lemma taken_eq_iff {i : ℕ} {I : NodeInterval} (hI : C.intervals[i]? = some I) :
    C.taken i I = C.cornersOf i I ↔ (i ∈ C.externalIntervals → 2 ≤ I.domains.length →
      C.Missed i → I.end' = I.begin' + 1) := by
  obtain ⟨hlt, hdomains⟩ := C.nonempty I (List.mem_of_getElem? hI)
  have hpos := List.length_pos_iff.mpr hdomains
  have hselected := I.selected_eq_or_lt hlt
  rw [taken, cornersOf, ← I.selected_external]
  by_cases hone : I.domains.length = 1
  · rw [if_pos hone, if_neg (by omega)]
    exact ⟨fun _ _ h => by omega, fun _ => rfl⟩
  · rw [if_neg hone, if_pos (by omega)]
    by_cases hmem : i ∈ C.externalIntervals
    · rw [if_pos hmem]
      by_cases hmissed : C.Missed i
      · rw [decide_eq_false fun h => h.2 hmissed]
        constructor
        · intro heq _ _ _
          by_contra hne
          have := hselected.2 hne
          rw [heq] at this
          exact lt_irrefl _ this
        · exact fun h => hselected.1 (h hmem (by omega) hmissed)
      · rw [decide_eq_true ⟨hmem, hmissed⟩]
        exact ⟨fun _ _ _ h => absurd h hmissed, fun _ => rfl⟩
    · rw [if_neg hmem, decide_eq_false fun h => hmem h.1]
      exact ⟨fun _ h => absurd h hmem, fun _ => rfl⟩

/-- **The corners are right** if and only if no external interval with several domains and several
nodes is behind an external interval with a single domain. -/
theorem corners_right_iff : C.Right ↔
    ∀ (i j : ℕ) (I J : NodeInterval), C.intervals[i]? = some I → C.intervals[j]? = some J →
      i < j → i ∈ C.externalIntervals → j ∈ C.externalIntervals → I.domains.length = 1 →
      2 ≤ J.domains.length → J.end' = J.begin' + 1 := by
  have hentry : ∀ {I : NodeInterval × ℕ}, I ∈ C.intervals.zipIdx → C.intervals[I.2]? = some I.1 :=
    fun h => List.mem_zipIdx_iff_getElem?.mp h
  have hpieces : ((C.intervals.zipIdx.flatMap fun I => (C.taken I.2 I.1).map fun n => (n, I.1)).length
      = (C.intervals.zipIdx.flatMap fun I => (C.cornersOf I.2 I.1).map fun n => (n, I.1)).length) ↔
      ∀ I ∈ C.intervals.zipIdx, (C.taken I.2 I.1).map (fun n => (n, I.1))
        = (C.cornersOf I.2 I.1).map fun n => (n, I.1) := by
    refine flatMap_eq_iff fun I hI => ?_
    rcases C.taken_eq_or_lt (hentry hI) with heq | hlt
    · exact Or.inl (by rw [heq])
    · exact Or.inr (by rwa [List.length_map, List.length_map])
  have hall : (∀ I ∈ C.intervals.zipIdx, (C.taken I.2 I.1).map (fun n => (n, I.1))
      = (C.cornersOf I.2 I.1).map fun n => (n, I.1)) ↔
      ∀ I ∈ C.intervals.zipIdx, C.taken I.2 I.1 = C.cornersOf I.2 I.1 :=
    forall₂_congr fun I _ => (List.map_injective_iff.mpr fun a b h => (Prod.mk.inj h).1).eq_iff
  rw [Right, computeCornerNodes_eq]
  constructor
  · rintro ⟨hcorners, -⟩ i j I J hI hJ hij hi hj hone htwo
    have hlength := congrArg List.length hcorners
    rw [store, List.length_map, List.length_map] at hlength
    have heq := hall.mp (hpieces.mp hlength) (J, j) (List.mem_zipIdx_iff_getElem?.mpr hJ)
    exact (C.taken_eq_iff hJ).mp heq hj htwo ⟨i, hij, hi, I, hI, hone⟩
  · intro h
    have heq : ∀ I ∈ C.intervals.zipIdx, C.taken I.2 I.1 = C.cornersOf I.2 I.1 := by
      intro I hI
      refine (C.taken_eq_iff (hentry hI)).mpr fun hmem htwo hmissed => ?_
      obtain ⟨j, hj, hjmem, J, hJ, hone⟩ := hmissed
      exact h j I.2 J I.1 hJ (hentry hI) hj hjmem hmem hone htwo
    rw [List.flatMap_congr (hall.mpr heq)]
    exact ⟨rfl, rfl⟩

end CornerInput

/-! ## An external interval of a single domain -/

lemma singleFirst_nonempty : ∀ I ∈ [(⟨0, 3, [0]⟩ : NodeInterval), ⟨3, 6, [0, 1]⟩],
    I.begin' < I.end' ∧ I.domains ≠ [] := by
  simp

lemma singleFirst_ascending : [0, 1].Pairwise (· < ·) := by decide

/-- Two external intervals with three nodes; the first one has a single domain. -/
def singleFirst : CornerInput where
  intervals := [⟨0, 3, [0]⟩, ⟨3, 6, [0, 1]⟩]
  externalIntervals := [0, 1]
  firstDomain := 0
  ndomains := 2
  nonempty := singleFirst_nonempty
  ascending := singleFirst_ascending

/-- **The second index does not leave the first interval**: the second one gets one corner instead
of three. -/
theorem singleFirst_not_right : ¬singleFirst.Right := by
  rintro ⟨h, -⟩
  exact absurd h (by decide)

end Espreso
