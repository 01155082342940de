import Mathlib.Data.List.Dedup
import Mathlib.Data.List.Destutter
import Mathlib.Data.List.Sort
import Mathlib.Data.Prod.Lex

/-!
# Sorted lists without repetitions

* `removeDuplicity` — `Esutils::removeDuplicity`, which compares neighbours.
* `sortAndRemoveDuplicity` — `Esutils::sortAndRemoveDuplicity` for numbers.
* `sortPairs`, `sortAndRemoveDuplicityPairs` — `std::sort` and the same function for pairs.
* `mergeThreadedUniqueData` — `Esutils::mergeThreadedUniqueData`.
* `setDifference`, `includes` — `std::set_difference` and `std::includes`.
-/

namespace Espreso

/-- `Esutils::removeDuplicity`: of consecutive entries that are the same, the first is kept. -/
def removeDuplicity (data : List ℕ) : List ℕ := data.destutter (· ≠ ·)

lemma removeDuplicity_eq_dedup {l : List ℕ} (hl : l.Pairwise (· ≤ ·)) :
    removeDuplicity l = l.dedup :=
  hl.destutter_eq_dedup

lemma mem_removeDuplicity {l : List ℕ} (hl : l.Pairwise (· ≤ ·)) {a : ℕ} :
    a ∈ removeDuplicity l ↔ a ∈ l := by
  rw [removeDuplicity_eq_dedup hl, List.mem_dedup]

lemma removeDuplicity_sorted {l : List ℕ} (hl : l.Pairwise (· ≤ ·)) :
    (removeDuplicity l).Pairwise (· < ·) := by
  rw [removeDuplicity_eq_dedup hl]
  have hle : l.dedup.Pairwise (· ≤ ·) := hl.sublist (List.dedup_sublist _)
  have hne : l.dedup.Pairwise (· ≠ ·) := List.nodup_dedup _
  exact (hle.and hne).imp fun h => lt_of_le_of_ne h.1 h.2

lemma removeDuplicity_map {f : ℕ → ℕ} (hf : Monotone f) (n : ℕ) :
    removeDuplicity ((List.range (n + 1)).map f)
      = ((List.range n).filter fun i => f i ≠ f (i + 1)).map f ++ [f n] := by
  have hle : ((List.range (n + 1)).map f).Pairwise (· ≤ ·) :=
    List.pairwise_map.mpr (List.pairwise_lt_range.imp fun h => hf h.le)
  have hstep : ∀ i ∈ (List.range n).filter fun i => f i ≠ f (i + 1),
      i < n ∧ ∀ j, i < j → f i < f j := by
    intro i hi
    obtain ⟨hlt, hne⟩ := List.mem_filter.mp hi
    refine ⟨List.mem_range.mp hlt, fun j hij => ?_⟩
    exact (lt_of_le_of_ne (hf (Nat.le_succ i)) (of_decide_eq_true hne)).trans_le (hf hij)
  refine List.Pairwise.eq_of_mem_iff (removeDuplicity_sorted hle) ?_ fun a => ?_
  · rw [List.pairwise_append]
    refine ⟨?_, List.pairwise_singleton _ _, ?_⟩
    · refine List.pairwise_map.mpr ((List.pairwise_lt_range.filter _).imp_of_mem ?_)
      exact fun hi _ hij => (hstep _ hi).2 _ hij
    · intro a ha b hb
      obtain ⟨i, hi, rfl⟩ := List.mem_map.mp ha
      rw [List.mem_singleton.mp hb]
      exact (hstep i hi).2 n (hstep i hi).1
  · rw [mem_removeDuplicity hle, List.mem_append, List.mem_singleton, List.mem_map, List.mem_map]
    constructor
    · rintro ⟨i, hi, rfl⟩
      -- the last position with this value
      obtain ⟨k, hk⟩ := Nat.exists_eq_add_of_le (Nat.le_of_lt_succ (List.mem_range.mp hi))
      clear hi
      induction k generalizing i with
      | zero => exact Or.inr (by rw [hk, Nat.add_zero])
      | succ k ih =>
          by_cases heq : f i = f (i + 1)
          · rw [heq]
            exact ih (i + 1) (by omega)
          · exact Or.inl ⟨i, List.mem_filter.mpr ⟨List.mem_range.mpr (by omega),
              decide_eq_true heq⟩, rfl⟩
    · rintro (⟨i, hi, rfl⟩ | rfl)
      · exact ⟨i, List.mem_range.mpr (Nat.lt_succ_of_lt (hstep i hi).1), rfl⟩
      · exact ⟨n, List.mem_range.mpr (Nat.lt_succ_self n), rfl⟩

/-- `Esutils::sortAndRemoveDuplicity` -/
def sortAndRemoveDuplicity (data : List ℕ) : List ℕ := (data.mergeSort).dedup

lemma mem_sortAndRemoveDuplicity {l : List ℕ} {a : ℕ} : a ∈ sortAndRemoveDuplicity l ↔ a ∈ l := by
  rw [sortAndRemoveDuplicity, List.mem_dedup, List.mem_mergeSort]

lemma sortAndRemoveDuplicity_perm {l : List ℕ} (hl : l.Nodup) :
    (sortAndRemoveDuplicity l).Perm l := by
  have hperm := List.mergeSort_perm l (fun a b => decide (a ≤ b))
  rw [sortAndRemoveDuplicity, (hperm.nodup_iff.mpr hl).dedup]
  exact hperm

lemma sortAndRemoveDuplicity_sorted (l : List ℕ) :
    (sortAndRemoveDuplicity l).Pairwise (· < ·) := by
  have hle : (sortAndRemoveDuplicity l).Pairwise (· ≤ ·) :=
    (List.pairwise_mergeSort' (· ≤ ·) l).sublist (List.dedup_sublist _)
  have hne : (sortAndRemoveDuplicity l).Pairwise (· ≠ ·) := List.nodup_dedup _
  exact (hle.and hne).imp fun h => lt_of_le_of_ne h.1 h.2

lemma sortAndRemoveDuplicity_of_sorted {l : List ℕ} (hl : l.Pairwise (· < ·)) :
    sortAndRemoveDuplicity l = l :=
  List.Pairwise.eq_of_mem_iff (sortAndRemoveDuplicity_sorted l) hl
    fun _ => mem_sortAndRemoveDuplicity

lemma nodup_of_length_le {l : List ℕ} (h : l.length ≤ (sortAndRemoveDuplicity l).length) :
    l.Nodup := by
  rw [sortAndRemoveDuplicity, ← List.length_mergeSort l] at h
  have heq := (List.dedup_sublist l.mergeSort).eq_of_length_le h
  exact (List.mergeSort_perm l _).nodup_iff.mp (heq ▸ List.nodup_dedup _)

lemma sortAndRemoveDuplicity_map {f : ℕ → ℕ} {l : List ℕ}
    (hf : ∀ a ∈ l, ∀ b ∈ l, a < b → f a < f b) :
    sortAndRemoveDuplicity (l.map f) = (sortAndRemoveDuplicity l).map f := by
  refine List.Pairwise.eq_of_mem_iff (sortAndRemoveDuplicity_sorted _) ?_ fun a => ?_
  · refine List.pairwise_map.mpr ((sortAndRemoveDuplicity_sorted l).imp_of_mem ?_)
    intro a b ha hb
    exact hf a (mem_sortAndRemoveDuplicity.mp ha) b (mem_sortAndRemoveDuplicity.mp hb)
  · rw [mem_sortAndRemoveDuplicity, List.mem_map, List.mem_map]
    simp only [mem_sortAndRemoveDuplicity]

/-- `std::sort` on pairs: they are compared by their first components, then by their second. -/
def sortPairs (data : List (ℕ × ℕ)) : List (ℕ × ℕ) :=
  data.mergeSort fun p q => decide (toLex p ≤ toLex q)

lemma mem_sortPairs {l : List (ℕ × ℕ)} {p : ℕ × ℕ} : p ∈ sortPairs l ↔ p ∈ l := List.mem_mergeSort

lemma sortPairs_sorted (l : List (ℕ × ℕ)) :
    (sortPairs l).Pairwise fun p q => p.1 < q.1 ∨ p.1 = q.1 ∧ p.2 ≤ q.2 := by
  have hsorted : (sortPairs l).Pairwise fun p q => decide (toLex p ≤ toLex q) = true :=
    List.pairwise_mergeSort
      (fun p q r hpq hqr => decide_eq_true ((of_decide_eq_true hpq).trans (of_decide_eq_true hqr)))
      (fun p q => by simpa using le_total (toLex p) (toLex q)) l
  exact hsorted.imp fun h => Prod.Lex.toLex_le_toLex.mp (of_decide_eq_true h)

/-- `Esutils::sortAndRemoveDuplicity` for pairs. -/
def sortAndRemoveDuplicityPairs (data : List (ℕ × ℕ)) : List (ℕ × ℕ) := (sortPairs data).dedup

lemma mem_sortAndRemoveDuplicityPairs {l : List (ℕ × ℕ)} {p : ℕ × ℕ} :
    p ∈ sortAndRemoveDuplicityPairs l ↔ p ∈ l := by
  rw [sortAndRemoveDuplicityPairs, List.mem_dedup, mem_sortPairs]

lemma sortAndRemoveDuplicityPairs_sorted (l : List (ℕ × ℕ)) :
    ((sortAndRemoveDuplicityPairs l).map toLex).Pairwise (· ≤ ·) := by
  have hsorted := (sortPairs_sorted l).sublist (List.dedup_sublist _)
  exact List.pairwise_map.mpr (hsorted.imp Prod.Lex.toLex_le_toLex.mpr)

/-- `Esutils::mergeThreadedUniqueData`, where the threads have the data `parts`. -/
def mergeThreadedUniqueData (parts : List (List (ℕ × ℕ))) : List (ℕ × ℕ) :=
  sortAndRemoveDuplicityPairs parts.flatten

/-- `std::set_difference` of sorted lists. -/
def setDifference : List ℕ → List ℕ → List ℕ
  | [], _ => []
  | x :: xs, [] => x :: xs
  | x :: xs, y :: ys =>
    if x < y then x :: setDifference xs (y :: ys)
    else if y < x then setDifference (x :: xs) ys
    else setDifference xs ys
termination_by xs ys => xs.length + ys.length

lemma setDifference_eq {xs ys : List ℕ} (hxs : xs.Pairwise (· < ·)) (hys : ys.Pairwise (· ≤ ·)) :
    setDifference xs ys = xs.filter (· ∉ ys) := by
  induction xs, ys using setDifference.induct with
  | case1 ys => rw [setDifference, List.filter_nil]
  | case2 x xs =>
      rw [setDifference]
      exact (List.filter_eq_self.mpr fun a _ => by simp).symm
  | case3 x xs y ys hlt ih =>
      have hnot : x ∉ y :: ys := by
        intro hmem
        rcases List.mem_cons.mp hmem with rfl | hmem
        · exact lt_irrefl x hlt
        · exact absurd ((List.pairwise_cons.mp hys).1 x hmem) (not_le.mpr hlt)
      rw [setDifference, if_pos hlt, ih hxs.of_cons hys,
        List.filter_cons_of_pos (by simpa using hnot)]
  | case4 x xs y ys hle hlt ih =>
      rw [setDifference, if_neg hle, if_pos hlt, ih hxs hys.of_cons]
      refine List.filter_congr fun a ha => ?_
      have hne : a ≠ y := by
        rcases List.mem_cons.mp ha with rfl | ha
        · exact hlt.ne'
        · exact (hlt.trans ((List.pairwise_cons.mp hxs).1 a ha)).ne'
      simp [hne]
  | case5 x xs y ys hle hge ih =>
      obtain rfl : x = y := by omega
      rw [setDifference, if_neg hle, if_neg hge, ih hxs.of_cons hys.of_cons,
        List.filter_cons_of_neg (by simp)]
      refine List.filter_congr fun a ha => ?_
      have hne : a ≠ x := ((List.pairwise_cons.mp hxs).1 a ha).ne'
      simp [hne]

lemma foldl_setDifference {xs : List ℕ} {parts : List (List ℕ)} (hxs : xs.Pairwise (· < ·))
    (hparts : ∀ l ∈ parts, l.Pairwise (· ≤ ·)) :
    (parts.foldl setDifference xs).Pairwise (· < ·) ∧
      ∀ a, a ∈ parts.foldl setDifference xs ↔ a ∈ xs ∧ ∀ l ∈ parts, a ∉ l := by
  induction parts generalizing xs with
  | nil => exact ⟨hxs, fun a => by simp⟩
  | cons l parts ih =>
      obtain ⟨hl, hparts⟩ := List.forall_mem_cons.mp hparts
      rw [List.foldl_cons, setDifference_eq hxs hl]
      obtain ⟨hsorted, hmem⟩ := ih (hxs.filter _) hparts
      refine ⟨hsorted, fun a => ?_⟩
      rw [hmem, List.mem_filter, decide_eq_true_eq, List.forall_mem_cons, and_assoc]

/-- `std::includes` of sorted lists. -/
def includes : List ℕ → List ℕ → Bool
  | _, [] => true
  | [], _ :: _ => false
  | x :: xs, y :: ys =>
    if y < x then false else if x < y then includes xs (y :: ys) else includes xs ys

lemma includes_iff {xs ys : List ℕ} (hxs : xs.Pairwise (· < ·)) (hys : ys.Pairwise (· < ·)) :
    includes xs ys = true ↔ ∀ a ∈ ys, a ∈ xs := by
  induction xs, ys using includes.induct with
  | case1 xs => simp [includes]
  | case2 y ys =>
      rw [includes]
      exact ⟨fun h => absurd h Bool.false_ne_true, fun h => by cases h y List.mem_cons_self⟩
  | case3 x xs y ys hlt =>
      have hnot : y ∉ x :: xs := by
        intro hmem
        rcases List.mem_cons.mp hmem with rfl | hmem
        · exact lt_irrefl y hlt
        · exact lt_asymm hlt ((List.pairwise_cons.mp hxs).1 y hmem)
      rw [includes, if_pos hlt]
      exact ⟨fun h => absurd h Bool.false_ne_true, fun h => absurd (h y List.mem_cons_self) hnot⟩
  | case4 x xs y ys hle hlt ih =>
      rw [includes, if_neg hle, if_pos hlt, ih hxs.of_cons hys]
      refine forall₂_congr fun a ha => ?_
      have hne : a ≠ x := by
        rcases List.mem_cons.mp ha with rfl | ha
        · exact hlt.ne'
        · exact (hlt.trans ((List.pairwise_cons.mp hys).1 a ha)).ne'
      rw [List.mem_cons, or_iff_right hne]
  | case5 x xs y ys hle hge ih =>
      obtain rfl : x = y := by omega
      rw [includes, if_neg hle, if_neg hge, ih hxs.of_cons hys.of_cons, List.forall_mem_cons]
      refine ⟨fun h => ⟨List.mem_cons_self, fun a ha => List.mem_cons_of_mem x (h a ha)⟩,
        fun h a ha => (List.mem_cons.mp (h.2 a ha)).resolve_left ?_⟩
      exact ((List.pairwise_cons.mp hys).1 a ha).ne'

end Espreso
