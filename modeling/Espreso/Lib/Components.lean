import Mathlib.Data.List.Count
import Mathlib.Logic.Relation
import Mathlib.Tactic

/-!
# Components of a graph

The vertices `0`, ..., `n - 1` of a graph are given by lists of neighbours. A search with a stack
labels all vertices that are connected with its root, and a search from every vertex without a label
numbers the components.

* `Components.search` — the search; `Components.search_spec` says what it labels.
* **`Components.numbered_number`** — the searches number the components.
-/

namespace Components

def visit (label : ℕ) (s : List ℕ × List (Option ℕ)) (v : ℕ) : List ℕ × List (Option ℕ) :=
  if s.2[v]? = some none then (v :: s.1, s.2.set v (some label)) else s

def free (labels : List (Option ℕ)) : ℕ := labels.count none

/-! ## One row of neighbours -/

section Visit

variable {label : ℕ} {stack : List ℕ} {labels : List (Option ℕ)}

lemma visit_of_free {v : ℕ} (h : labels[v]? = some none) :
    visit label (stack, labels) v = (v :: stack, labels.set v (some label)) := if_pos h

lemma visit_of_ne {v : ℕ} (h : labels[v]? ≠ some none) :
    visit label (stack, labels) v = (stack, labels) := if_neg h

lemma free_set {v : ℕ} (h : labels[v]? = some none) :
    free (labels.set v (some label)) + 1 = free labels := by
  obtain ⟨hlt, heq⟩ := List.getElem?_eq_some_iff.mp h
  have hpos : 0 < labels.count none := List.count_pos_iff.mpr (List.mem_of_getElem? h)
  rw [free, free, List.count_set hlt, heq]
  simp
  omega

lemma getElem?_set_iff {v : ℕ} (h : labels[v]? = some none) {w i : ℕ} :
    (labels.set v (some label))[w]? = some (some i) ↔
      labels[w]? = some (some i) ∨ (w = v ∧ i = label) := by
  obtain ⟨hlt, -⟩ := List.getElem?_eq_some_iff.mp h
  rw [List.getElem?_set]
  by_cases heq : v = w
  · subst heq
    rw [if_pos rfl, if_pos hlt, h]
    simp [eq_comm]
  · rw [if_neg heq]
    exact (or_iff_left fun hw => heq hw.1.symm).symm

/-- What the visits of a row do: the neighbours without a label get it and are pushed. Each visit
trades a vertex without a label for one on the stack. -/
structure Visited (label : ℕ) (row stack : List ℕ) (labels : List (Option ℕ)) (stack' : List ℕ)
    (labels' : List (Option ℕ)) : Prop where
  length_eq : labels'.length = labels.length
  free_le : free labels' ≤ free labels
  measure : free labels' + stack'.length = free labels + stack.length
  labelled : ∀ w i, labels'[w]? = some (some i) ↔
    labels[w]? = some (some i) ∨ (i = label ∧ labels[w]? = some none ∧ w ∈ row)
  stacked : ∀ w, w ∈ stack' ↔ w ∈ stack ∨ (labels[w]? = some none ∧ w ∈ row)

lemma Visited.cons_of_free {v : ℕ} {row stack' : List ℕ} {labels' : List (Option ℕ)}
    (hfree : labels[v]? = some none)
    (h : Visited label row (v :: stack) (labels.set v (some label)) stack' labels') :
    Visited label (v :: row) stack labels stack' labels' := by
  have hstep : free (labels.set v (some label)) + 1 = free labels := free_set hfree
  have hmeasure := h.measure
  have hother (w : ℕ) : (labels.set v (some label))[w]? = some none ↔
      labels[w]? = some none ∧ w ≠ v := by
    rw [List.getElem?_set]
    split_ifs with heq hlt
    · simp [heq.symm]
    · simp [← heq, hlt]
    · simp [Ne.symm heq]
  rw [List.length_cons] at hmeasure
  refine ⟨by rw [h.length_eq, List.length_set], h.free_le.trans (by omega), by omega,
    fun w i => ?_, fun w => ?_⟩
  · rw [h.labelled, getElem?_set_iff hfree, hother, List.mem_cons]
    by_cases heq : w = v
    · subst heq
      simp [hfree]
    · simp [heq]
  · rw [h.stacked, hother, List.mem_cons, List.mem_cons]
    by_cases heq : w = v
    · subst heq
      simp [hfree]
    · simp [heq]

lemma Visited.cons_of_ne {v : ℕ} {row stack' : List ℕ} {labels' : List (Option ℕ)}
    (hfree : labels[v]? ≠ some none) (h : Visited label row stack labels stack' labels') :
    Visited label (v :: row) stack labels stack' labels' := by
  have hrow (w : ℕ) :
      (labels[w]? = some none ∧ w ∈ row) ↔ (labels[w]? = some none ∧ w ∈ v :: row) := by
    refine and_congr_right fun hw => ?_
    have hne : w ≠ v := by
      rintro rfl
      exact hfree hw
    rw [List.mem_cons, or_iff_right hne]
  refine ⟨h.length_eq, h.free_le, h.measure, fun w i => ?_, fun w => ?_⟩
  · rw [h.labelled, hrow]
  · rw [h.stacked, hrow]

variable (label) in
lemma visited_foldl (row : List ℕ) (stack : List ℕ) (labels : List (Option ℕ)) :
    Visited label row stack labels (row.foldl (visit label) (stack, labels)).1
      (row.foldl (visit label) (stack, labels)).2 := by
  induction row generalizing stack labels with
  | nil =>
      refine ⟨rfl, le_rfl, rfl, fun w i => ?_, fun w => ?_⟩
      · exact (or_iff_left fun hw => List.not_mem_nil hw.2.2).symm
      · exact (or_iff_left fun hw => List.not_mem_nil hw.2).symm
  | cons v row ih =>
      rw [List.foldl_cons]
      by_cases hfree : labels[v]? = some none
      · rw [visit_of_free hfree]
        exact (ih _ _).cons_of_free hfree
      · rw [visit_of_ne hfree]
        exact (ih _ _).cons_of_ne hfree

end Visit

/-! ## The search -/

section Search

variable (adjacent : ℕ → List ℕ)

lemma search_decreases (label current : ℕ) (stack : List ℕ) (labels : List (Option ℕ)) :
    2 * free ((adjacent current).foldl (visit label) (stack, labels)).2
        + ((adjacent current).foldl (visit label) (stack, labels)).1.length
      < 2 * free labels + (current :: stack).length := by
  have h := visited_foldl label (adjacent current) stack labels
  have hmeasure := h.measure
  have hle := h.free_le
  rw [List.length_cons]
  omega

/-- The loop over the stack: the neighbours of its top are visited. -/
def search (label : ℕ) : List ℕ → List (Option ℕ) → List (Option ℕ)
  | [], labels => labels
  | current :: stack, labels =>
    search label ((adjacent current).foldl (visit label) (stack, labels)).1
      ((adjacent current).foldl (visit label) (stack, labels)).2
termination_by stack labels => 2 * free labels + stack.length
decreasing_by exact search_decreases adjacent label current stack labels

abbrev Adjacent (v w : ℕ) : Prop := w ∈ adjacent v

abbrev Connected : ℕ → ℕ → Prop := Relation.ReflTransGen (Adjacent adjacent)

/-- What a search does: it keeps labels, labels vertices that are connected with one on the stack,
and leaves no neighbour of these without a label. -/
structure Searched (label : ℕ) (stack : List ℕ) (labels labels' : List (Option ℕ)) : Prop where
  length_eq : labels'.length = labels.length
  keeps : ∀ v i : ℕ, labels[v]? = some (some i) → labels'[v]? = some (some i)
  labelled : ∀ v i : ℕ, labels'[v]? = some (some i) → labels[v]? = some (some i) ∨
    (i = label ∧ labels[v]? = some none ∧ ∃ r ∈ stack, Connected adjacent r v)
  closed : ∀ v, v ∈ stack ∨ (labels[v]? = some none ∧ ∃ i, labels'[v]? = some (some i)) →
    ∀ w ∈ adjacent v, w < labels.length → ∃ i, labels'[w]? = some (some i)

lemma labelled_or_free {labels : List (Option ℕ)} {v : ℕ} (h : v < labels.length) :
    (∃ i, labels[v]? = some (some i)) ∨ labels[v]? = some none := by
  rw [List.getElem?_eq_getElem h]
  rcases labels[v] with _ | i
  · exact Or.inr rfl
  · exact Or.inl ⟨i, rfl⟩

/-- **The search.** -/
theorem searched_search (label : ℕ) (stack : List ℕ) (labels : List (Option ℕ)) :
    Searched adjacent label stack labels (search adjacent label stack labels) := by
  fun_induction search adjacent label stack labels with
  | case1 labels =>
      refine ⟨rfl, fun _ _ h => h, fun _ _ h => Or.inl h, ?_⟩
      rintro v (hv | ⟨hfree, i, hi⟩)
      · exact absurd hv List.not_mem_nil
      · rw [hfree] at hi
        exact absurd hi (by simp)
  | case2 current stack labels ih =>
      have hrow := visited_foldl label (adjacent current) stack labels
      generalize ((adjacent current).foldl (visit label) (stack, labels)).1 = stack' at ih hrow
      generalize ((adjacent current).foldl (visit label) (stack, labels)).2 = labels' at ih hrow
      refine ⟨ih.length_eq.trans hrow.length_eq, fun v i hv => ?_, fun v i hv => ?_, ?_⟩
      · exact ih.keeps v i ((hrow.labelled v i).mpr (Or.inl hv))
      · rcases ih.labelled v i hv with hv | ⟨hi, hfree, r, hr, hpath⟩
        · refine ((hrow.labelled v i).mp hv).imp_right ?_
          rintro ⟨hi, hfree, hmem⟩
          exact ⟨hi, hfree, current, List.mem_cons_self, Relation.ReflTransGen.single hmem⟩
        · have hfree' : labels[v]? = some none := by
            have hlt := (List.getElem?_eq_some_iff.mp hfree).1
            rw [hrow.length_eq] at hlt
            refine (labelled_or_free hlt).resolve_left ?_
            rintro ⟨j, hj⟩
            have hkept := (hrow.labelled v j).mpr (Or.inl hj)
            rw [hfree] at hkept
            exact absurd hkept (by simp)
          refine Or.inr ⟨hi, hfree', ?_⟩
          rcases (hrow.stacked r).mp hr with hr | ⟨-, hmem⟩
          · exact ⟨r, List.mem_cons_of_mem _ hr, hpath⟩
          · exact ⟨current, List.mem_cons_self, Relation.ReflTransGen.head hmem hpath⟩
      · intro v hv w hw hlt
        have hlt' : w < labels'.length := by rwa [hrow.length_eq]
        have hnext : v ∈ stack' → ∃ i, (search adjacent label stack' labels')[w]? = some (some i) :=
          fun hmem => ih.closed v (Or.inl hmem) w hw hlt'
        rcases hv with hv | ⟨hfree, i, hi⟩
        · rcases List.mem_cons.mp hv with rfl | hv
          · -- the neighbours of the top have just been visited
            rcases labelled_or_free hlt with ⟨i, hi⟩ | hfree
            · exact ⟨i, ih.keeps w i ((hrow.labelled w i).mpr (Or.inl hi))⟩
            · exact ⟨label, ih.keeps w label
                ((hrow.labelled w label).mpr (Or.inr ⟨rfl, hfree, hw⟩))⟩
          · exact hnext ((hrow.stacked v).mpr (Or.inl hv))
        · have hvlt : v < labels'.length := by
            rw [hrow.length_eq]
            exact (List.getElem?_eq_some_iff.mp hfree).1
          rcases labelled_or_free hvlt with ⟨j, hj⟩ | hfree'
          · rcases (hrow.labelled v j).mp hj with hold | ⟨-, -, hmem⟩
            · rw [hfree] at hold
              exact absurd hold (by simp)
            · exact hnext ((hrow.stacked v).mpr (Or.inr ⟨hfree, hmem⟩))
          · exact ih.closed v (Or.inr ⟨hfree', i, hi⟩) w hw hlt'

end Search

/-! ## The numbers of components -/

section Number

variable (adjacent : ℕ → List ℕ)

/-- A vertex without a label starts a search with the next number. -/
def start (s : List (Option ℕ) × ℕ) (v : ℕ) : List (Option ℕ) × ℕ :=
  if s.1[v]? = some none then (search adjacent s.2 [v] (s.1.set v (some s.2)), s.2 + 1) else s

def number (n : ℕ) : List (Option ℕ) × ℕ :=
  (List.range n).foldl (start adjacent) (List.replicate n none, 0)

/-- Labels below `count` number components: neighbours have the same label, vertices with the same
label are connected, and each number is used. -/
structure Partial (n : ℕ) (labels : List (Option ℕ)) (count : ℕ) : Prop where
  length_eq : labels.length = n
  lt_count : ∀ v i : ℕ, labels[v]? = some (some i) → i < count
  closed : ∀ v i : ℕ, labels[v]? = some (some i) → ∀ w ∈ adjacent v, labels[w]? = some (some i)
  connected : ∀ v w i : ℕ, labels[v]? = some (some i) → labels[w]? = some (some i) →
    Connected adjacent v w
  used : ∀ i < count, ∃ v : ℕ, labels[v]? = some (some i)

/-- **The labels are the numbers of the components.** -/
structure Numbered (n : ℕ) (labels : List (Option ℕ)) (count : ℕ) : Prop where
  length_eq : labels.length = n
  total : ∀ v < n, ∃ i < count, labels[v]? = some (some i)
  used : ∀ i < count, ∃ v < n, labels[v]? = some (some i)
  eq_iff : ∀ v < n, ∀ w < n, labels[v]? = labels[w]? ↔ Connected adjacent v w

variable {adjacent} {n : ℕ} (hsymm : ∀ v w, w ∈ adjacent v → v ∈ adjacent w)
  (hwithin : ∀ v, ∀ w ∈ adjacent v, w < n)

include hsymm

lemma connected_symm {v w : ℕ} (h : Connected adjacent v w) : Connected adjacent w v := by
  induction h with
  | refl => exact Relation.ReflTransGen.refl
  | tail _ hstep ih => exact Relation.ReflTransGen.head (hsymm _ _ hstep) ih

include hwithin

lemma Partial.search {labels : List (Option ℕ)} {count v : ℕ} (h : Partial adjacent n labels count)
    (hv : labels[v]? = some none) :
    Partial adjacent n (search adjacent count [v] (labels.set v (some count))) (count + 1) := by
  have hs := searched_search adjacent count [v] (labels.set v (some count))
  generalize Components.search adjacent count [v] (labels.set v (some count)) = labels' at hs
  have hset (w i : ℕ) : (labels.set v (some count))[w]? = some (some i) ↔
      labels[w]? = some (some i) ∨ (w = v ∧ i = count) := getElem?_set_iff hv
  have hlength : labels'.length = n := by rw [hs.length_eq, List.length_set, h.length_eq]
  -- a label is an old one, or it is the new one of a vertex that is connected with the root
  have hcases : ∀ w i : ℕ, labels'[w]? = some (some i) → labels[w]? = some (some i) ∨
      (i = count ∧ labels[w]? = some none ∧ Connected adjacent v w) := by
    intro w i hw
    rcases hs.labelled w i hw with hw | ⟨rfl, hfree, r, hr, hpath⟩
    · refine ((hset w i).mp hw).imp_right ?_
      rintro ⟨rfl, rfl⟩
      exact ⟨rfl, hv, Relation.ReflTransGen.refl⟩
    · obtain rfl := List.mem_singleton.mp hr
      refine Or.inr ⟨rfl, ?_, hpath⟩
      rw [List.getElem?_set] at hfree
      split_ifs at hfree with heq
      · exact absurd hfree (by simp)
      · exact hfree
  have hold (w i : ℕ) (hw : labels[w]? = some (some i)) : labels'[w]? = some (some i) :=
    hs.keeps w i ((hset w i).mpr (Or.inl hw))
  refine ⟨hlength, fun w i hw => ?_, fun w i hw x hx => ?_, fun w x i hw hx => ?_, fun i hi => ?_⟩
  · rcases hcases w i hw with hw | ⟨rfl, -⟩
    · exact Nat.lt_succ_of_lt (h.lt_count w i hw)
    · exact Nat.lt_succ_self i
  · rcases hcases w i hw with hw | ⟨rfl, hfree, -⟩
    · exact hold x i (h.closed w i hw x hx)
    · -- a neighbour of a new vertex has a label, which is not an old one
      have hnew : w ∈ [v] ∨ ((labels.set v (some i))[w]? = some none ∧
          ∃ j, labels'[w]? = some (some j)) := by
        by_cases heq : w = v
        · exact Or.inl (List.mem_singleton.mpr heq)
        · refine Or.inr ⟨?_, i, hw⟩
          rw [List.getElem?_set, if_neg (Ne.symm heq)]
          exact hfree
      obtain ⟨j, hj⟩ := hs.closed w hnew x hx (by
        rw [List.length_set, h.length_eq]
        exact hwithin w x hx)
      rcases hcases x j hj with hold | ⟨rfl, -⟩
      · have hback := h.closed x j hold w (hsymm w x hx)
        rw [hfree] at hback
        exact absurd hback (by simp)
      · exact hj
  · rcases hcases w i hw with hw | ⟨rfl, -, hpath⟩
    · rcases hcases x i hx with hx | ⟨rfl, -⟩
      · exact h.connected w x i hw hx
      · exact absurd (h.lt_count w i hw) (lt_irrefl i)
    · rcases hcases x i hx with hx | ⟨-, -, hpath'⟩
      · exact absurd (h.lt_count x i hx) (lt_irrefl i)
      · exact (connected_symm hsymm hpath).trans hpath'
  · rcases Nat.lt_succ_iff_lt_or_eq.mp hi with hi | rfl
    · obtain ⟨w, hw⟩ := h.used i hi
      exact ⟨w, hold w i hw⟩
    · exact ⟨v, hs.keeps v i ((hset v i).mpr (Or.inr ⟨rfl, rfl⟩))⟩

lemma partial_foldl_start {k : ℕ} (hk : k ≤ n) :
    ∃ labels count,
      (List.range k).foldl (start adjacent) (List.replicate n none, 0) = (labels, count) ∧
        Partial adjacent n labels count ∧ ∀ v < k, ∃ i : ℕ, labels[v]? = some (some i) := by
  induction k with
  | zero =>
      have hfree (v i : ℕ) (h : (List.replicate n (none : Option ℕ))[v]? = some (some i)) :
          False := by
        have hmem := List.eq_of_mem_replicate (List.mem_of_getElem? h)
        exact absurd hmem (by simp)
      refine ⟨_, _, rfl, ⟨List.length_replicate, fun v i h => (hfree v i h).elim,
        fun v i h => (hfree v i h).elim, fun v w i h => (hfree v i h).elim, ?_⟩, ?_⟩
      · exact fun i hi => absurd hi (Nat.not_lt_zero i)
      · exact fun v hv => absurd hv (Nat.not_lt_zero v)
  | succ k ih =>
      obtain ⟨labels, count, hfold, hpart, hpassed⟩ := ih (Nat.le_of_succ_le hk)
      rw [List.range_succ, List.foldl_append, hfold, List.foldl_cons, List.foldl_nil, start]
      split_ifs with hfree
      · have hnext := hpart.search hsymm hwithin hfree
        have hs := searched_search adjacent count [k] (labels.set k (some count))
        refine ⟨_, _, rfl, hnext, fun v hv => ?_⟩
        rcases Nat.lt_succ_iff_lt_or_eq.mp hv with hv | rfl
        · obtain ⟨i, hi⟩ := hpassed v hv
          exact ⟨i, hs.keeps v i ((getElem?_set_iff hfree).mpr (Or.inl hi))⟩
        · exact ⟨count, hs.keeps v count ((getElem?_set_iff hfree).mpr (Or.inr ⟨rfl, rfl⟩))⟩
      · refine ⟨labels, count, rfl, hpart, fun v hv => ?_⟩
        rcases Nat.lt_succ_iff_lt_or_eq.mp hv with hv | rfl
        · exact hpassed v hv
        · have hlt : v < labels.length := by
            rw [hpart.length_eq]
            exact hk
          exact (labelled_or_free hlt).resolve_right hfree

/-- **The searches number the components.** -/
theorem numbered_number : Numbered adjacent n (number adjacent n).1 (number adjacent n).2 := by
  obtain ⟨labels, count, hfold, hpart, htotal⟩ := partial_foldl_start hsymm hwithin le_rfl
  rw [number, hfold]
  refine ⟨hpart.length_eq, fun v hv => ?_, fun i hi => ?_, fun v hv w hw => ?_⟩
  · obtain ⟨i, hi⟩ := htotal v hv
    exact ⟨i, hpart.lt_count v i hi, hi⟩
  · obtain ⟨v, hv⟩ := hpart.used i hi
    have hlt := (List.getElem?_eq_some_iff.mp hv).1
    rw [hpart.length_eq] at hlt
    exact ⟨v, hlt, hv⟩
  · obtain ⟨i, hi⟩ := htotal v hv
    dsimp only
    rw [hi]
    constructor
    · intro heq
      exact hpart.connected v w i hi heq.symm
    · intro hpath
      refine Eq.symm ?_
      induction hpath with
      | refl => exact hi
      | tail hprev hstep ih => exact hpart.closed _ i (ih (hwithin _ _ (hsymm _ _ hstep))) _ hstep

end Number

end Components
