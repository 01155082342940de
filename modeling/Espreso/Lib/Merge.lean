import Mathlib.Data.List.Sort
import Mathlib.Tactic

/-!
# Merging of sorted parts

Several sorted lists are merged in rounds: a round merges each list with its neighbour.

* `Merge.mergeNeighbours` — one round.
* `Merge.mergeRounds` — a number of rounds.
* **`Merge.mergeRounds_perm`**, **`Merge.mergeRounds_sorted`** — enough rounds sort the entries of
  all lists.
-/

namespace Merge

variable {α : Type} (le : α → α → Bool)

/-- **One round**: lists are merged in pairs. -/
def mergeNeighbours : List (List α) → List (List α)
  | [] => []
  | [first] => [first]
  | first :: second :: rest => first.merge second le :: mergeNeighbours rest

def mergeRounds : ℕ → List (List α) → List α
  | 0, parts => parts.flatten
  | k + 1, parts => mergeRounds k (mergeNeighbours le parts)

variable {le}

lemma mergeNeighbours_perm (parts : List (List α)) :
    (mergeNeighbours le parts).flatten.Perm parts.flatten := by
  induction parts using mergeNeighbours.induct with
  | case1 => exact List.Perm.refl _
  | case2 first => exact List.Perm.refl _
  | case3 first second rest ih =>
      rw [mergeNeighbours, List.flatten_cons, List.flatten_cons, List.flatten_cons,
        ← List.append_assoc]
      exact (List.merge_perm_append le).append ih

lemma length_mergeNeighbours (parts : List (List α)) :
    (mergeNeighbours le parts).length = (parts.length + 1) / 2 := by
  induction parts using mergeNeighbours.induct with
  | case1 => simp [mergeNeighbours]
  | case2 first => simp [mergeNeighbours]
  | case3 first second rest ih =>
      rw [mergeNeighbours, List.length_cons, ih, List.length_cons, List.length_cons]
      omega

/-- **The rounds** keep the entries. -/
theorem mergeRounds_perm (k : ℕ) (parts : List (List α)) :
    (mergeRounds le k parts).Perm parts.flatten := by
  induction k generalizing parts with
  | zero => exact List.Perm.refl _
  | succ k ih => exact (ih _).trans (mergeNeighbours_perm parts)

section Sorted

variable (htrans : ∀ a b c, le a b → le b c → le a c) (htotal : ∀ a b, le a b || le b a)

include htrans htotal

lemma mergeNeighbours_sorted {parts : List (List α)}
    (hparts : ∀ l ∈ parts, l.Pairwise fun a b => le a b) :
    ∀ l ∈ mergeNeighbours le parts, l.Pairwise fun a b => le a b := by
  induction parts using mergeNeighbours.induct with
  | case1 => exact hparts
  | case2 first => exact hparts
  | case3 first second rest ih =>
      obtain ⟨hfirst, hparts⟩ := List.forall_mem_cons.mp hparts
      obtain ⟨hsecond, hrest⟩ := List.forall_mem_cons.mp hparts
      rw [mergeNeighbours]
      exact List.forall_mem_cons.mpr
        ⟨List.pairwise_merge htrans htotal _ _ hfirst hsecond, ih hrest⟩

/-- **Enough rounds** merge all lists. -/
theorem mergeRounds_sorted {k : ℕ} {parts : List (List α)} (hlength : parts.length ≤ 2 ^ k)
    (hparts : ∀ l ∈ parts, l.Pairwise fun a b => le a b) :
    (mergeRounds le k parts).Pairwise fun a b => le a b := by
  induction k generalizing parts with
  | zero =>
      rcases parts with _ | ⟨l, _ | ⟨m, rest⟩⟩
      · exact List.Pairwise.nil
      · rw [mergeRounds, List.flatten_singleton]
        exact hparts l List.mem_cons_self
      · simp at hlength
  | succ k ih =>
      refine ih ?_ (mergeNeighbours_sorted htrans htotal hparts)
      rw [length_mergeNeighbours]
      rw [Nat.pow_succ] at hlength
      omega

end Sorted

end Merge
