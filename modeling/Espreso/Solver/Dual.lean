import Espreso.Solver.ClusterMatrices

/-!
# Dual vectors of all ranks

Every rank keeps the values of its own multipliers, in the order of `my_lamdas_indices`.  A multiplier
can belong to several ranks; ranks that share one are neighbours and exchange its values.

* `DualLayout` — the multipliers of the ranks, and what neighbours exchange.
* **`DualLayout.allReduce_at`** — every copy becomes the sum over all ranks that hold the multiplier.
-/

namespace Espreso

open Finset

/-- The multipliers of the ranks (`my_lamdas_indices`), their neighbours (`my_neighs`), and the
multipliers exchanged with a neighbour (`my_comm_lambdas_indices`), in the same order on both sides. -/
structure DualLayout where
  ranks : ℕ
  lambdas : ℕ → List ℕ
  lambdas_nodup : ∀ r, (lambdas r).Nodup
  neighs : ℕ → List ℕ
  neighs_nodup : ∀ r, (neighs r).Nodup
  neighs_lt : ∀ r, ∀ q ∈ neighs r, q < ranks
  neighs_irrefl : ∀ r, r ∉ neighs r
  neighs_symm : ∀ r q, q ∈ neighs r → r ∈ neighs q
  shared : ℕ → ℕ → List ℕ
  shared_nodup : ∀ r q, (shared r q).Nodup
  shared_symm : ∀ r q, shared r q = shared q r
  mem_shared : ∀ r q, q ∈ neighs r → ∀ x, x ∈ shared r q ↔ x ∈ lambdas r ∧ x ∈ lambdas q
  neighs_of_shared : ∀ r < ranks, ∀ q < ranks, r ≠ q → ∀ x ∈ lambdas r, x ∈ lambdas q → q ∈ neighs r

namespace DualLayout

lemma noNeighs_symm (r q : ℕ) (h : q ∈ ([] : List ℕ)) : r ∈ ([] : List ℕ) :=
  absurd h List.not_mem_nil

lemma noShared_symm (_r _q : ℕ) : ([] : List ℕ) = [] := rfl

lemma noShared_mem (_r q : ℕ) (h : q ∈ ([] : List ℕ)) (x : ℕ) :
    x ∈ ([] : List ℕ) ↔ x ∈ [0, 1] ∧ x ∈ [0, 1] := absurd h List.not_mem_nil

lemma oneRank_nodup (_r : ℕ) : [0, 1].Nodup := by decide

lemma oneRank_neighs_lt (_r q : ℕ) (h : q ∈ ([] : List ℕ)) : q < 1 := absurd h List.not_mem_nil

lemma oneRank_neighs (r : ℕ) (hr : r < 1) (q : ℕ) (hq : q < 1) (hne : r ≠ q) (x : ℕ)
    (_ : x ∈ [0, 1]) (_ : x ∈ [0, 1]) : q ∈ ([] : List ℕ) := absurd (by omega) hne

/-! ### Exchanges of the ranks -/

variable (L : DualLayout)

abbrev Vectors := ℕ → ℕ → ℚ

def index (r x : ℕ) : ℕ := (L.lambdas r).idxOf x

def size (r : ℕ) : ℕ := (L.lambdas r).length

/-- `my_comm_lambdas_indices_comp` -/
def commIndices (r q : ℕ) : List ℕ := (L.shared r q).map (L.index r)

/-- `my_comm_lambdas`: what a rank sends to a neighbour. -/
def commLambdas (x : Vectors) (r q : ℕ) : List ℚ := (L.commIndices r q).map (x r)

/-- `All_Reduce_lambdas_compB`: the values received from the neighbours are added. -/
def allReduceLambdasCompB (x_in : Vectors) : Vectors := fun r =>
  (L.neighs r).foldl (fun y_out q =>
    ((L.commIndices r q).zip (L.commLambdas x_in q r)).foldl
      (fun y w => Function.update y w.1 (y w.1 + w.2)) y_out) (x_in r)

def Equal (x : Vectors) : Prop :=
  ∀ r < L.ranks, ∀ q < L.ranks, ∀ l ∈ L.lambdas r, l ∈ L.lambdas q →
    x r (L.index r l) = x q (L.index q l)

variable {L}

lemma index_lt {r l : ℕ} (hl : l ∈ L.lambdas r) : L.index r l < L.size r :=
  List.idxOf_lt_length_of_mem hl

lemma index_inj {r l l' : ℕ} (hl : l ∈ L.lambdas r) (h : L.index r l = L.index r l') : l = l' :=
  (List.idxOf_inj hl).mp h

lemma exists_index {r i : ℕ} (hi : i < L.size r) : ∃ l ∈ L.lambdas r, L.index r l = i :=
  ⟨(L.lambdas r).get ⟨i, hi⟩, List.get_mem _ _, (L.lambdas_nodup r).idxOf_getElem i hi⟩

lemma entry_exchange {r q l : ℕ} (hq : q ∈ L.neighs r) (hl : l ∈ L.lambdas r) (x : Vectors) :
    Row.entry ((L.commIndices r q).zip (L.commLambdas x q r)) (L.index r l)
      = if l ∈ L.lambdas q then x q (L.index q l) else 0 := by
  have hzip : (L.commIndices r q).zip (L.commLambdas x q r)
      = (L.shared r q).map fun l => (L.index r l, x q (L.index q l)) := by
    rw [commLambdas, commIndices, commIndices, L.shared_symm q r, List.map_map, List.zip_map']
    rfl
  have hshared : ∀ l' ∈ L.shared r q, l' ∈ L.lambdas r := fun l' hl' =>
    ((L.mem_shared r q hq l').mp hl').1
  have hmem : l ∈ L.shared r q ↔ l ∈ L.lambdas q := by
    rw [L.mem_shared r q hq]
    exact and_iff_right hl
  rw [hzip]
  have hsum : ∀ ls : List ℕ, ls.Nodup → (∀ l' ∈ ls, l' ∈ L.lambdas r) →
      Row.entry (ls.map fun l => (L.index r l, x q (L.index q l))) (L.index r l)
        = if l ∈ ls then x q (L.index q l) else 0 := by
    intro ls hls hsub
    induction ls with
    | nil => simp
    | cons l' ls ih =>
        rw [List.nodup_cons] at hls
        rw [List.map_cons, Row.entry_cons, ih hls.2 fun k hk => hsub k (List.mem_cons_of_mem _ hk)]
        by_cases h : l' = l
        · subst h
          simp [hls.1]
        · have hne : L.index r l' ≠ L.index r l := fun heq =>
            h (index_inj (hsub l' List.mem_cons_self) heq)
          simp [hne, Ne.symm h]
  rw [hsum _ (L.shared_nodup r q) hshared]
  simp only [hmem]

lemma allReduce_eq_sum {r l : ℕ} (hl : l ∈ L.lambdas r) (x : Vectors) :
    L.allReduceLambdasCompB x r (L.index r l)
      = x r (L.index r l)
        + ((L.neighs r).map fun q => if l ∈ L.lambdas q then x q (L.index q l) else 0).sum := by
  have hfold : ∀ (qs : List ℕ) (y : ℕ → ℚ), (∀ q ∈ qs, q ∈ L.neighs r) →
      qs.foldl (fun y_out q =>
        ((L.commIndices r q).zip (L.commLambdas x q r)).foldl
          (fun y w => Function.update y w.1 (y w.1 + w.2)) y_out) y (L.index r l)
        = y (L.index r l)
          + (qs.map fun q => if l ∈ L.lambdas q then x q (L.index q l) else 0).sum := by
    intro qs
    induction qs with
    | nil => simp
    | cons q qs ih =>
        intro y hqs
        rw [List.foldl_cons, ih _ fun q' hq' => hqs q' (List.mem_cons_of_mem _ hq'), foldl_add_eq,
          entry_exchange (hqs q List.mem_cons_self) hl, List.map_cons, List.sum_cons, add_assoc]
  exact hfold _ _ fun _ hq => hq

lemma sum_neighs {r : ℕ} (hr : r < L.ranks) {f : ℕ → ℚ}
    (hf : ∀ q < L.ranks, r ≠ q → q ∉ L.neighs r → f q = 0) :
    f r + ((L.neighs r).map f).sum = ∑ q ∈ range L.ranks, f q := by
  rw [← add_sum_erase _ _ (mem_range.mpr hr), ← List.sum_toFinset _ (L.neighs_nodup r)]
  refine congrArg _ (sum_subset (fun q hq => ?_) fun q hq hnot => ?_)
  · have hq := List.mem_toFinset.mp hq
    refine mem_erase.mpr ⟨?_, mem_range.mpr (L.neighs_lt r q hq)⟩
    rintro rfl
    exact L.neighs_irrefl q hq
  · obtain ⟨hne, hq⟩ := mem_erase.mp hq
    exact hf q (mem_range.mp hq) (Ne.symm hne) fun h => hnot (List.mem_toFinset.mpr h)

/-- **The exchange** gives every copy of a multiplier the sum over all ranks that hold it. -/
theorem allReduce_at {r l : ℕ} (hr : r < L.ranks) (hl : l ∈ L.lambdas r) (x : Vectors) :
    L.allReduceLambdasCompB x r (L.index r l)
      = ∑ q ∈ range L.ranks, if l ∈ L.lambdas q then x q (L.index q l) else 0 := by
  rw [allReduce_eq_sum hl, ← sum_neighs hr fun q hq hne hnot => if_neg fun hlq =>
    hnot (L.neighs_of_shared r hr q hq hne l hl hlq), if_pos hl]

lemma equal_allReduce (x : Vectors) : L.Equal (L.allReduceLambdasCompB x) :=
  fun r hr q hq l hl hl' => by rw [allReduce_at hr hl, allReduce_at hq hl']

end DualLayout

end Espreso
