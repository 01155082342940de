import Mathlib.Data.List.SplitBy
import Mathlib.Tactic

/-!
# Runs of equal keys

A list that is sorted by a key falls into runs of entries with the same key.

* `Runs.runs` — the runs, which are the list (`flatten_runs`).
* `Runs.key_eq` — the entries of a run have the same key.
* **`Runs.ascending`** — the keys of the runs ascend.
-/

namespace Runs

variable {α κ : Type} [LinearOrder κ] (key : α → κ)

def runs (l : List α) : List (List α) := l.splitBy fun a b => key a = key b

lemma flatten_runs (l : List α) : (runs key l).flatten = l := List.flatten_splitBy _ l

variable {key} {l : List α}

lemma mem_iff {a : α} : a ∈ l ↔ ∃ g ∈ runs key l, a ∈ g := by
  conv_lhs => rw [← flatten_runs key l]
  exact List.mem_flatten

lemma ne_nil {g : List α} (hg : g ∈ runs key l) : g ≠ [] := List.ne_nil_of_mem_splitBy hg

lemma key_eq {g : List α} (hg : g ∈ runs key l) {a b : α} (ha : a ∈ g) (hb : b ∈ g) :
    key a = key b := by
  have hchain : g.IsChain fun a b => key a = key b :=
    (List.isChain_of_mem_splitBy hg).imp fun a b h => of_decide_eq_true h
  have htrans : IsTrans α fun a b => key a = key b := ⟨fun _ _ _ => Eq.trans⟩
  have hpair : g.Pairwise fun a b => key a = key b := List.isChain_iff_pairwise.mp hchain
  have hsymm : Std.Symm fun a b : α => key a = key b := ⟨fun _ _ => Eq.symm⟩
  exact List.Pairwise.forall_of_forall (R := fun a b => key a = key b) (fun _ _ => rfl) hpair ha hb

/-- **The keys of the runs** of a sorted list ascend. -/
theorem ascending (h : l.Pairwise fun a b => key a ≤ key b) :
    (runs key l).Pairwise fun g g' => ∀ a ∈ g, ∀ b ∈ g', key a < key b := by
  rw [← flatten_runs key l, List.pairwise_flatten] at h
  have htrans : IsTrans (List α) fun g g' => g' ≠ [] ∧ ∀ a ∈ g, ∀ b ∈ g', key a < key b := by
    refine ⟨fun g g' g'' h h' => ⟨h'.1, fun a ha b hb => ?_⟩⟩
    obtain ⟨c, hc⟩ := List.exists_mem_of_ne_nil g' h.1
    exact (h.2 a ha c hc).trans (h'.2 c hc b hb)
  have hchain : (runs key l).IsChain fun g g' => g' ≠ [] ∧ ∀ a ∈ g, ∀ b ∈ g', key a < key b := by
    refine List.isChain_iff_getElem.mpr fun i hi => ?_
    have hmem := List.getElem_mem (Nat.lt_of_succ_lt hi)
    have hmem' := List.getElem_mem hi
    refine ⟨ne_nil hmem', fun a ha b hb => ?_⟩
    obtain ⟨hlast, hhead, hne⟩ := List.isChain_iff_getElem.mp
      (List.isChain_getLast_head_splitBy (fun a b => decide (key a = key b)) l) i hi
    have hle := List.pairwise_iff_getElem.mp h.2 i (i + 1) _ hi (Nat.lt_succ_self i) a ha b hb
    refine lt_of_le_of_ne hle fun heq => of_decide_eq_false hne ?_
    rw [key_eq hmem (List.getLast_mem hlast) ha, heq, key_eq hmem' hb (List.head_mem hhead)]
  exact (List.isChain_iff_pairwise.mp hchain).imp fun h => h.2

end Runs
