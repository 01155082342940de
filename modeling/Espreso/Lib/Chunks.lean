import Mathlib.Data.List.Dedup
import Mathlib.Order.Basic
import Mathlib.Tactic

/-!
# Chunks of entries with the same key

Entries with keys are sorted, so that those with the same key stand one behind the other. The values
of each key are collected. This can be done in parts if no part ends within a chunk.

* `collect` — the values of each key.
* **`collect_eq`** — all values of each key are found, in their order.
* **`flatMap_collect`** — parts that end where chunks end can be handled one by one.
-/

namespace Chunks

variable {K V : Type} [DecidableEq K]

/-- The values of consecutive entries with the same key, where `values` were found before. -/
def collect : List V → List (K × V) → List (K × List V)
  | _, [] => []
  | values, [(k, v)] => [(k, values ++ [v])]
  | values, (k, v) :: (k', v') :: l =>
    if k' ≠ k then (k, values ++ [v]) :: collect [] ((k', v') :: l)
    else collect (values ++ [v]) ((k', v') :: l)

def valuesOf (l : List (K × V)) (k : K) : List V := (l.filter fun p => p.1 = k).map Prod.snd

def IsStart (keys : List K) (b : ℕ) : Prop :=
  keys.length ≤ b ∨ b = 0 ∨ keys[b - 1]? ≠ keys[b]?

/-- A border is moved while the keys on both sides are the same, at most `fuel` times. -/
def shift (keys : List K) : ℕ → ℕ → ℕ
  | 0, b => b
  | fuel + 1, b =>
    if b < keys.length ∧ 0 < b ∧ keys[b - 1]? = keys[b]? then shift keys fuel (b + 1) else b

/-! ## The values of each key -/

section Values

variable {l : List (K × V)} {k : K} {v : V}

lemma valuesOf_cons_self : valuesOf ((k, v) :: l) k = v :: valuesOf l k := by
  simp [valuesOf]

lemma valuesOf_cons_of_ne {k' : K} (h : k' ≠ k) : valuesOf ((k, v) :: l) k' = valuesOf l k' := by
  simp [valuesOf, h.symm]

lemma mem_valuesOf : v ∈ valuesOf l k ↔ (k, v) ∈ l := by
  simp [valuesOf]

lemma valuesOf_eq_nil (h : k ∉ l.map Prod.fst) : valuesOf l k = [] := by
  simp only [valuesOf, List.map_eq_nil_iff, List.filter_eq_nil_iff, decide_eq_true_eq]
  rintro p hp rfl
  exact h (List.mem_map_of_mem hp)

end Values

lemma collect_append_eq [PartialOrder K] (values : List V) {l : List (K × V)}
    (h : (l.map Prod.fst).Pairwise (· ≤ ·)) :
    collect values l = (l.map Prod.fst).dedup.map fun k =>
      (k, (if (l.map Prod.fst).head? = some k then values else []) ++ valuesOf l k) := by
  induction values, l using collect.induct with
  | case1 values => rfl
  | case2 values k v => simp [collect, valuesOf]
  | case3 values k v k' v' l hne ih =>
      have hnot : k ∉ ((k', v') :: l).map Prod.fst := by
        intro hmem
        obtain ⟨hle, hl⟩ := List.pairwise_cons.mp h
        rcases List.mem_cons.mp hmem with rfl | hmem
        · exact hne rfl
        · exact hne (le_antisymm ((List.pairwise_cons.mp hl).1 k hmem) (hle k' List.mem_cons_self))
      rw [collect, if_pos hne, ih h.of_cons, List.map_cons (a := (k, v)),
        List.dedup_cons_of_notMem hnot, List.map_cons (a := k), valuesOf_cons_self (v := v),
        valuesOf_eq_nil hnot, List.head?_cons, if_pos rfl]
      refine congrArg₂ List.cons rfl (List.map_congr_left fun a ha => ?_)
      have hak : a ≠ k := by
        rintro rfl
        exact hnot (List.mem_dedup.mp ha)
      rw [valuesOf_cons_of_ne hak, if_neg (fun heq => hak (Option.some.inj heq).symm), ite_self]
  | case4 values k v k' v' l heq ih =>
      obtain rfl := not_not.mp heq
      have hmem : k' ∈ ((k', v') :: l).map Prod.fst := List.mem_cons_self
      rw [collect, if_neg heq, ih h.of_cons, List.map_cons (a := (k', v)),
        List.dedup_cons_of_mem hmem]
      refine List.map_congr_left fun a _ => ?_
      rw [List.map_cons, List.head?_cons, List.head?_cons]
      by_cases ha : k' = a
      · subst ha
        rw [if_pos rfl, if_pos rfl, valuesOf_cons_self (v := v), List.append_assoc]
        rfl
      · have hne : ¬(some k' = some a) := fun heq => ha (Option.some.inj heq)
        rw [if_neg hne, if_neg hne, valuesOf_cons_of_ne (v := v) (Ne.symm ha)]

/-- **All values of each key.** -/
theorem collect_eq [PartialOrder K] {l : List (K × V)} (h : (l.map Prod.fst).Pairwise (· ≤ ·)) :
    collect [] l = (l.map Prod.fst).dedup.map fun k => (k, valuesOf l k) := by
  rw [collect_append_eq [] h]
  refine List.map_congr_left fun k _ => ?_
  rw [ite_self, List.nil_append]

/-! ## Borders -/

section Shift

variable {keys : List K}

lemma le_shift (fuel b : ℕ) : b ≤ shift keys fuel b := by
  induction fuel generalizing b with
  | zero => exact le_rfl
  | succ fuel ih =>
      rw [shift]
      split_ifs
      · exact (Nat.le_succ b).trans (ih (b + 1))
      · exact le_rfl

lemma shift_le_length {fuel b : ℕ} (hb : b ≤ keys.length) : shift keys fuel b ≤ keys.length := by
  induction fuel generalizing b with
  | zero => exact hb
  | succ fuel ih =>
      rw [shift]
      split_ifs with h
      · exact ih h.1
      · exact hb

lemma shift_le {fuel b c : ℕ} (hbc : b ≤ c) (hc : IsStart keys c) : shift keys fuel b ≤ c := by
  induction fuel generalizing b with
  | zero => exact hbc
  | succ fuel ih =>
      rw [shift]
      split_ifs with h
      · refine ih (lt_of_le_of_ne hbc ?_)
        rintro rfl
        rcases hc with hc | hc | hc
        · exact absurd h.1 (not_lt.mpr hc)
        · exact absurd h.2.1 (by omega)
        · exact hc h.2.2
      · exact hbc

lemma isStart_shift {fuel b : ℕ} (h : keys.length ≤ b + fuel) :
    IsStart keys (shift keys fuel b) := by
  induction fuel generalizing b with
  | zero => exact Or.inl h
  | succ fuel ih =>
      rw [shift]
      split_ifs with hcond
      · exact ih (by omega)
      · rcases Nat.lt_or_ge b keys.length with hlt | hge
        · rcases Nat.eq_zero_or_pos b with hzero | hpos
          · exact Or.inr (Or.inl hzero)
          · exact Or.inr (Or.inr fun heq => hcond ⟨hlt, hpos, heq⟩)
        · exact Or.inl hge

lemma shift_mono {a b : ℕ} (hab : a ≤ b) :
    shift keys keys.length a ≤ shift keys keys.length b :=
  shift_le (hab.trans (le_shift _ _)) (isStart_shift (Nat.le_add_left _ _))

end Shift

/-! ## Parts -/

lemma collect_append {values : List V} {l m : List (K × V)} (hvalues : l = [] → values = [])
    (h : ∀ p ∈ l.getLast?, ∀ q ∈ m.head?, p.1 ≠ q.1) :
    collect values (l ++ m) = collect values l ++ collect [] m := by
  induction values, l using collect.induct with
  | case1 values =>
      rw [hvalues rfl]
      rfl
  | case2 values k v =>
      rcases m with _ | ⟨⟨k', v'⟩, m⟩
      · rfl
      · have hne : k' ≠ k := (h (k, v) rfl (k', v') rfl).symm
        rw [List.singleton_append, collect.eq_def values ((k, v) :: (k', v') :: m)]
        dsimp only
        rw [if_pos hne]
        rfl
  | case3 values k v k' v' l hne ih =>
      rw [List.cons_append, List.cons_append, collect, if_pos hne, collect, if_pos hne,
        List.cons_append, ← List.cons_append (a := (k', v'))]
      refine congrArg _ (ih (fun heq => absurd heq (List.cons_ne_nil _ _)) ?_)
      rwa [List.getLast?_cons_cons] at h
  | case4 values k v k' v' l heq ih =>
      rw [List.cons_append, List.cons_append, collect, if_neg heq, collect, if_neg heq,
        ← List.cons_append (a := (k', v'))]
      refine ih (fun heq => absurd heq (List.cons_ne_nil _ _)) ?_
      rwa [List.getLast?_cons_cons] at h

/-- **Parts that end where chunks end** can be handled one by one. -/
theorem flatMap_collect {l : List (K × V)} {border : ℕ → ℕ} {n : ℕ} (hfirst : border 0 = 0)
    (hmono : ∀ t < n, border t ≤ border (t + 1))
    (hstart : ∀ t < n, IsStart (l.map Prod.fst) (border t)) :
    ((List.range n).flatMap fun t =>
      collect [] ((l.drop (border t)).take (border (t + 1) - border t)))
      = collect [] (l.take (border n)) := by
  induction n with
  | zero => rw [hfirst, List.take_zero]; rfl
  | succ n ih =>
      have hsplit : l.take (border (n + 1))
          = l.take (border n) ++ (l.drop (border n)).take (border (n + 1) - border n) := by
        rw [← List.take_add, Nat.add_sub_cancel' (hmono n (Nat.lt_succ_self n))]
      rw [List.range_succ, List.flatMap_append, List.flatMap_singleton,
        ih (fun t ht => hmono t (ht.trans (Nat.lt_succ_self n)))
          (fun t ht => hstart t (ht.trans (Nat.lt_succ_self n))), hsplit]
      refine (collect_append (fun _ => rfl) fun p hp q hq heq => ?_).symm
      have hq : l[border n]? = some q := by
        rw [List.head?_take, List.head?_drop] at hq
        exact (Option.ite_none_left_eq_some.mp hq).2
      have hlt := (List.getElem?_eq_some_iff.mp hq).1
      rw [List.getLast?_take] at hp
      obtain ⟨hpos, hp⟩ := Option.ite_none_left_eq_some.mp hp
      rw [List.getElem?_eq_getElem (by omega), Option.some_or] at hp
      rcases hstart n (Nat.lt_succ_self n) with hend | hzero | hne
      · rw [List.length_map] at hend
        omega
      · exact hpos hzero
      · rw [List.getElem?_map, List.getElem?_map, hq, List.getElem?_eq_getElem (by omega),
          hp] at hne
        exact hne (congrArg some heq)

end Chunks
