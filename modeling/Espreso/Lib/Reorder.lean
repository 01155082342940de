import Mathlib.Data.List.GetD
import Mathlib.Data.List.Sort
import Mathlib.Data.List.SplitLengths
import Mathlib.Tactic

/-!
# Reordered lists

Programs keep the attributes of their entities in several lists, and reorder all of them by one list
of positions.

* `Reorder.gather` — the entries at some positions.
* **`Reorder.gather_positions`** — they sort the list.
-/

namespace Reorder

variable {α β : Type}

def gather (σ : List ℕ) (l : List α) : List α := σ.filterMap (l[·]?)

def Within (σ : List ℕ) (n : ℕ) : Prop := ∀ p ∈ σ, p < n

lemma Within.of_perm {σ : List ℕ} {n : ℕ} (h : σ.Perm (List.range n)) : Within σ n :=
  fun _ hp => List.mem_range.mp (h.mem_iff.mp hp)

section Gather

variable {σ : List ℕ} {l : List α}

lemma gather_cons {p : ℕ} (hp : p < l.length) : gather (p :: σ) l = l[p] :: gather σ l := by
  rw [gather, List.filterMap_cons, List.getElem?_eq_getElem hp]
  rfl

lemma map_some_gather (h : Within σ l.length) : (gather σ l).map some = σ.map (l[·]?) := by
  induction σ with
  | nil => rfl
  | cons p σ ih =>
      have hp := h p List.mem_cons_self
      rw [gather_cons hp, List.map_cons, List.map_cons, List.getElem?_eq_getElem hp,
        ih fun q hq => h q (List.mem_cons_of_mem p hq)]

lemma length_gather (h : Within σ l.length) : (gather σ l).length = σ.length := by
  have hlength := congrArg List.length (map_some_gather h)
  simpa using hlength

lemma getElem?_gather (h : Within σ l.length) (i : ℕ) :
    (gather σ l)[i]? = (σ[i]?).bind (l[·]?) := by
  have hi := congrArg (·[i]?) (map_some_gather h)
  simp only [List.getElem?_map] at hi
  rcases hg : (gather σ l)[i]? with _ | x
  · rw [hg] at hi
    rw [Option.map_eq_none_iff.mp hi.symm]
    rfl
  · rw [hg] at hi
    obtain ⟨p, hp, hx⟩ := Option.map_eq_some_iff.mp hi.symm
    rw [hp]
    exact hx.symm

lemma mem_gather {x : α} : x ∈ gather σ l ↔ ∃ p ∈ σ, l[p]? = some x := List.mem_filterMap

lemma gather_map (f : α → β) : gather σ (l.map f) = (gather σ l).map f := by
  simp only [gather, List.getElem?_map, List.map_filterMap]

lemma gather_range (l : List α) : gather (List.range l.length) l = l := by
  have hmap := map_some_gather (σ := List.range l.length) (l := l) fun p hp => List.mem_range.mp hp
  refine List.map_injective_iff.mpr (Option.some_injective α) (hmap.trans ?_)
  refine List.ext_getElem (by simp) fun i hi hi' => ?_
  simp

lemma gather_perm (h : σ.Perm (List.range l.length)) : (gather σ l).Perm l := by
  have hperm : (gather σ l).Perm (gather (List.range l.length) l) := h.filterMap _
  rwa [gather_range] at hperm

lemma gather_perm_gather_iff [DecidableEq α] {τ : List ℕ} (hl : l.Nodup)
    (hσ : Within σ l.length) (hτ : Within τ l.length) :
    (gather σ l).Perm (gather τ l) ↔ σ.Perm τ := by
  have hfound : ∀ {ρ : List ℕ}, Within ρ l.length → (gather ρ l).map (l.idxOf ·) = ρ := by
    intro ρ hρ
    induction ρ with
    | nil => rfl
    | cons p ρ ih =>
        rw [gather_cons (hρ p List.mem_cons_self), List.map_cons, hl.idxOf_getElem,
          ih fun q hq => hρ q (List.mem_cons_of_mem p hq)]
  refine ⟨fun hperm => ?_, fun hperm => hperm.filterMap _⟩
  have hmap := hperm.map (l.idxOf ·)
  rwa [hfound hσ, hfound hτ] at hmap

end Gather

/-! ## Sorting -/

/-- The positions `0`, ..., `n - 1`, sorted by an order of the entries. -/
def positions (le : ℕ → ℕ → Bool) (n : ℕ) : List ℕ := (List.range n).mergeSort le

lemma positions_perm (le : ℕ → ℕ → Bool) (n : ℕ) : (positions le n).Perm (List.range n) :=
  List.mergeSort_perm _ le

lemma length_positions (le : ℕ → ℕ → Bool) (n : ℕ) : (positions le n).length = n := by
  rw [(positions_perm le n).length_eq, List.length_range]

lemma positions_sorted {le : ℕ → ℕ → Bool} (htrans : ∀ a b c, le a b → le b c → le a c)
    (htotal : ∀ a b, le a b || le b a) (n : ℕ) : (positions le n).Pairwise fun a b => le a b :=
  List.pairwise_mergeSort htrans htotal _

/-- The positions `0`, ..., `n - 1`, sorted by a key. -/
def byKey {κ : Type} [LinearOrder κ] (key : ℕ → κ) (n : ℕ) : List ℕ :=
  positions (fun a b => key a ≤ key b) n

lemma byKey_sorted {κ : Type} [LinearOrder κ] (key : ℕ → κ) (n : ℕ) :
    (byKey key n).Pairwise fun a b => key a ≤ key b :=
  (positions_sorted
    (fun _ _ _ hab hbc => decide_eq_true ((of_decide_eq_true hab).trans (of_decide_eq_true hbc)))
    (fun a b => by simpa using le_total (key a) (key b)) n).imp of_decide_eq_true

lemma gather_byKey_sorted (l : List ℕ) :
    (gather (byKey (l.getD · 0) l.length) l).Pairwise (· ≤ ·) := by
  rw [gather, List.pairwise_filterMap]
  refine (byKey_sorted (l.getD · 0) l.length).imp fun {a b} hab x hx y hy => ?_
  rwa [List.getD_eq_getElem?_getD, List.getD_eq_getElem?_getD, hx, hy] at hab


/-- A sorting function for the positions `0`, ..., `n - 1`, which are compared by a key. Positions
with the same key may have any order. -/
structure Sorting (κ : Type) [LinearOrder κ] where
  sort : (ℕ → κ) → ℕ → List ℕ
  perm : ∀ key n, (sort key n).Perm (List.range n)
  sorted : ∀ key n, (sort key n).Pairwise fun a b => key a ≤ key b

def Sorting.stable {κ : Type} [LinearOrder κ] : Sorting κ where
  sort := byKey
  perm := fun _ n => positions_perm _ n
  sorted := byKey_sorted

/-- A key that puts position `m` in front of the others with its key. -/
def favoured (m : ℕ) (key : ℕ → ℕ) (a : ℕ) : ℕ := 2 * key a + if a = m then 0 else 1

lemma favoured_le {m a b : ℕ} {key : ℕ → ℕ} (h : favoured m key a ≤ favoured m key b) :
    key a ≤ key b := by
  rw [favoured, favoured] at h
  split_ifs at h <;> omega

lemma eq_of_favoured_le {m a : ℕ} {key : ℕ → ℕ} (h : favoured m key a ≤ favoured m key m)
    (heq : key a = key m) : a = m := by
  by_contra hne
  rw [favoured, favoured, if_neg hne, if_pos rfl, heq] at h
  omega

/-- Position `m` comes first among those with its key. -/
def Sorting.favour (m : ℕ) : Sorting ℕ where
  sort := fun key n => byKey (favoured m key) n
  perm := fun _ n => positions_perm _ n
  sorted := fun key n => (byKey_sorted (favoured m key) n).imp favoured_le

end Reorder
