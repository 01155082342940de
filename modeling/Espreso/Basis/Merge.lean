import Espreso.Basis.Utils
import Espreso.Lib.Merge
import Mathlib.Data.Nat.Log
import Mathlib.Data.Prod.Lex

/-!
# Sorting and merging

Threads sort their parts of a vector, and the parts are merged in rounds.

* `inplaceMergeBy` — `Esutils::inplaceMerge` for any order.
* `inplaceMerge`, `sortWithInplaceMerge`, `mergeAppendedData` — the functions of `Esutils` for pairs.
* `sortWithInplaceMergeValues`, `sortWithUniqueMerge` — functions of `Esutils` for numbers.
-/

namespace Espreso

section Merge

variable {α : Type} {le : α → α → Bool}

/-- **`Esutils::inplaceMerge`** for the parts of a vector, whose number is rounded up to a power of
two. -/
def inplaceMergeBy (le : α → α → Bool) (parts : List (List α)) : List α :=
  let rounds := Nat.clog 2 (parts.length + 1)
  Merge.mergeRounds le rounds (parts ++ List.replicate (2 ^ rounds - parts.length) [])

lemma inplaceMergeBy_perm (parts : List (List α)) :
    (inplaceMergeBy le parts).Perm parts.flatten := by
  refine (Merge.mergeRounds_perm _ _).trans (List.Perm.of_eq ?_)
  simp

lemma inplaceMergeBy_sorted (htrans : ∀ a b c, le a b → le b c → le a c)
    (htotal : ∀ a b, le a b || le b a) {parts : List (List α)}
    (h : ∀ l ∈ parts, l.Pairwise fun a b => le a b) :
    (inplaceMergeBy le parts).Pairwise fun a b => le a b := by
  refine Merge.mergeRounds_sorted htrans htotal ?_ fun l hl => ?_
  · have hle := Nat.le_pow_clog (show 1 < 2 by omega) (parts.length + 1)
    rw [List.length_append, List.length_replicate]
    omega
  · rcases List.mem_append.mp hl with hl | hl
    · exact h l hl
    · rw [List.eq_of_mem_replicate hl]
      exact List.Pairwise.nil

end Merge

/-- `operator<=` of `std::pair`. -/
def pairLe (p q : ℕ × ℕ) : Bool := toLex p ≤ toLex q

lemma pairLe_trans (p q r : ℕ × ℕ) (hpq : pairLe p q) (hqr : pairLe q r) : pairLe p r :=
  decide_eq_true ((of_decide_eq_true hpq).trans (of_decide_eq_true hqr))

lemma pairLe_total (p q : ℕ × ℕ) : pairLe p q || pairLe q p := by
  simpa [pairLe] using le_total (toLex p) (toLex q)

lemma pairLe_iff {p q : ℕ × ℕ} : pairLe p q ↔ p.1 < q.1 ∨ p.1 = q.1 ∧ p.2 ≤ q.2 := by
  rw [pairLe, decide_eq_true_eq, Prod.Lex.toLex_le_toLex]

def PairsSorted (l : List (ℕ × ℕ)) : Prop := l.Pairwise fun p q => pairLe p q

/-- **`Esutils::inplaceMerge`** for the parts of a vector, whose number is rounded up to a power of
two. -/
def inplaceMerge (parts : List (List (ℕ × ℕ))) : List (ℕ × ℕ) :=
  let rounds := Nat.clog 2 (parts.length + 1)
  Merge.mergeRounds pairLe rounds (parts ++ List.replicate (2 ^ rounds - parts.length) [])

/-- **`Esutils::sortWithInplaceMerge`** -/
def sortWithInplaceMerge (parts : List (List (ℕ × ℕ))) : List (ℕ × ℕ) :=
  inplaceMerge (parts.map fun l => l.mergeSort pairLe)

/-- **`Esutils::mergeAppendedData`**: the appended parts are merged, then they are merged with the
data in front of them. -/
def mergeAppendedData (data : List (ℕ × ℕ)) (parts : List (List (ℕ × ℕ))) : List (ℕ × ℕ) :=
  data.merge (inplaceMerge parts) pairLe

lemma inplaceMerge_perm (parts : List (List (ℕ × ℕ))) :
    (inplaceMerge parts).Perm parts.flatten := inplaceMergeBy_perm parts

lemma inplaceMerge_sorted {parts : List (List (ℕ × ℕ))} (h : ∀ l ∈ parts, PairsSorted l) :
    PairsSorted (inplaceMerge parts) := inplaceMergeBy_sorted pairLe_trans pairLe_total h

lemma sortWithInplaceMerge_perm (parts : List (List (ℕ × ℕ))) :
    (sortWithInplaceMerge parts).Perm parts.flatten := by
  refine (inplaceMerge_perm _).trans ?_
  induction parts with
  | nil => exact List.Perm.refl _
  | cons l parts ih => exact (List.mergeSort_perm l pairLe).append ih

lemma sortWithInplaceMerge_sorted (parts : List (List (ℕ × ℕ))) :
    PairsSorted (sortWithInplaceMerge parts) := by
  refine inplaceMerge_sorted fun l hl => ?_
  obtain ⟨m, -, rfl⟩ := List.mem_map.mp hl
  exact List.pairwise_mergeSort pairLe_trans pairLe_total m

lemma mergeAppendedData_perm (data : List (ℕ × ℕ)) (parts : List (List (ℕ × ℕ))) :
    (mergeAppendedData data parts).Perm (data ++ parts.flatten) :=
  (List.merge_perm_append pairLe).trans ((inplaceMerge_perm parts).append_left data)

lemma mergeAppendedData_sorted {data : List (ℕ × ℕ)} {parts : List (List (ℕ × ℕ))}
    (hdata : PairsSorted data) (hparts : ∀ l ∈ parts, PairsSorted l) :
    PairsSorted (mergeAppendedData data parts) :=
  List.pairwise_merge pairLe_trans pairLe_total _ _ hdata (inplaceMerge_sorted hparts)

/-- `Esutils::sortWithInplaceMerge` for numbers. -/
def sortWithInplaceMergeValues (parts : List (List ℕ)) : List ℕ :=
  inplaceMergeBy (fun a b => decide (a ≤ b)) (parts.map fun l => l.mergeSort)

/-- **`Esutils::sortWithUniqueMerge`** -/
def sortWithUniqueMerge (parts : List (List ℕ)) : List ℕ :=
  sortAndRemoveDuplicity
    (inplaceMergeBy (fun a b => decide (a ≤ b)) (parts.map sortAndRemoveDuplicity))

lemma mem_sortWithInplaceMergeValues {parts : List (List ℕ)} {a : ℕ} :
    a ∈ sortWithInplaceMergeValues parts ↔ ∃ l ∈ parts, a ∈ l := by
  rw [sortWithInplaceMergeValues, (inplaceMergeBy_perm _).mem_iff, List.mem_flatten]
  simp only [List.mem_map, exists_exists_and_eq_and, List.mem_mergeSort]

lemma sortWithInplaceMergeValues_sorted (parts : List (List ℕ)) :
    (sortWithInplaceMergeValues parts).Pairwise (· ≤ ·) := by
  have htrans : ∀ a b c : ℕ, decide (a ≤ b) = true → decide (b ≤ c) = true → decide (a ≤ c) = true :=
    fun a b c hab hbc => decide_eq_true ((of_decide_eq_true hab).trans (of_decide_eq_true hbc))
  have htotal : ∀ a b : ℕ, (decide (a ≤ b) || decide (b ≤ a)) = true :=
    fun a b => by simpa using le_total a b
  have hparts : ∀ l ∈ parts.map (fun l : List ℕ => l.mergeSort),
      l.Pairwise fun a b => decide (a ≤ b) = true := by
    intro l hl
    obtain ⟨m, -, rfl⟩ := List.mem_map.mp hl
    exact (List.pairwise_mergeSort' (· ≤ ·) m).imp fun h => decide_eq_true h
  exact (inplaceMergeBy_sorted htrans htotal hparts).imp fun h => of_decide_eq_true h

lemma mem_sortWithUniqueMerge {parts : List (List ℕ)} {a : ℕ} :
    a ∈ sortWithUniqueMerge parts ↔ ∃ l ∈ parts, a ∈ l := by
  rw [sortWithUniqueMerge, mem_sortAndRemoveDuplicity, (inplaceMergeBy_perm _).mem_iff,
    List.mem_flatten]
  simp only [List.mem_map, exists_exists_and_eq_and, mem_sortAndRemoveDuplicity]

lemma sortWithUniqueMerge_sorted (parts : List (List ℕ)) :
    (sortWithUniqueMerge parts).Pairwise (· < ·) :=
  sortAndRemoveDuplicity_sorted _

end Espreso
