import Mathlib.Data.List.Basic

/-!
# Fallible steps for the members of a list

`List.mapM` in `Option` has a result if all the steps have one.

* `Fallible.mapM_eq_some_iff` — the results, in the order of the members.
* **`Fallible.mem_mapM`** — what is among the results.
* `Fallible.mapM_guard` — steps that fail where a condition is violated.
* `Fallible.foldlM_prod` — a loop that changes two things apart is two loops.
-/

namespace Fallible

variable {α β : Type} {f : α → Option β}

lemma mapM_eq_some_iff {xs : List α} {ys : List β} :
    xs.mapM f = some ys ↔ xs.map f = ys.map some := by
  induction xs generalizing ys with
  | nil =>
      rw [List.mapM_nil, List.map_nil]
      exact ⟨fun h => by cases h; rfl, fun h => by rw [List.map_eq_nil_iff.mp h.symm]; rfl⟩
  | cons x xs ih =>
      simp only [List.mapM_cons, Option.bind_eq_bind, Option.bind_eq_some_iff, Option.pure_def,
        Option.some.injEq, List.map_cons]
      constructor
      · rintro ⟨y, hx, ys, hxs, rfl⟩
        rw [List.map_cons, hx, ih.mp hxs]
      · intro h
        cases ys with
        | nil => cases h
        | cons y ys =>
            rw [List.map_cons, List.cons.injEq] at h
            exact ⟨y, h.1, ys, ih.mpr h.2, rfl⟩

lemma mapM_eq_some {g : α → β} {xs : List α} (h : ∀ x ∈ xs, f x = some (g x)) :
    xs.mapM f = some (xs.map g) := by
  rw [mapM_eq_some_iff, List.map_map]
  exact List.map_congr_left h

lemma mem_mapM {xs : List α} {ys : List β} (h : xs.mapM f = some ys) {y : β} :
    y ∈ ys ↔ ∃ x ∈ xs, f x = some y := by
  have hmem : some y ∈ ys.map some ↔ y ∈ ys := by simp
  rw [← hmem, ← mapM_eq_some_iff.mp h, List.mem_map]

lemma forall₂_of_mapM {xs : List α} {ys : List β} (h : xs.mapM f = some ys) :
    List.Forall₂ (fun x y => f x = some y) xs ys := by
  have heq := mapM_eq_some_iff.mp h
  clear h
  induction xs generalizing ys with
  | nil =>
      rw [List.map_eq_nil_iff.mp heq.symm]
      exact .nil
  | cons x xs ih =>
      cases ys with
      | nil => cases heq
      | cons y ys =>
          rw [List.map_cons, List.map_cons, List.cons.injEq] at heq
          exact .cons heq.1 (ih heq.2)

lemma exists_of_mapM {xs : List α} {ys : List β} (h : xs.mapM f = some ys) {x : α} (hx : x ∈ xs) :
    ∃ y, f x = some y := by
  have hmem : f x ∈ ys.map some := by
    rw [← mapM_eq_some_iff.mp h]
    exact List.mem_map_of_mem hx
  obtain ⟨y, -, hy⟩ := List.mem_map.mp hmem
  exact ⟨y, hy.symm⟩

lemma exists_mapM {xs : List α} (h : ∀ x ∈ xs, ∃ y, f x = some y) : ∃ ys, xs.mapM f = some ys := by
  induction xs with
  | nil => exact ⟨[], rfl⟩
  | cons x xs ih =>
      obtain ⟨y, hy⟩ := h x List.mem_cons_self
      obtain ⟨ys, hys⟩ := ih fun x' hx' => h x' (List.mem_cons_of_mem x hx')
      exact ⟨y :: ys, by rw [List.mapM_cons, hy, hys]; rfl⟩

lemma mapM_congr {f' : α → Option β} {xs : List α} (h : ∀ x ∈ xs, f x = f' x) :
    xs.mapM f = xs.mapM f' := by
  induction xs with
  | nil => rfl
  | cons x xs ih =>
      rw [List.mapM_cons, List.mapM_cons, h x List.mem_cons_self,
        ih fun y hy => h y (List.mem_cons_of_mem _ hy)]

lemma mapM_guard (p : α → Prop) [DecidablePred p] (g : α → β) (xs : List α) :
    (xs.mapM fun x => if p x then some (g x) else none)
      = if ∀ x ∈ xs, p x then some (xs.map g) else none := by
  induction xs with
  | nil => simp
  | cons x xs ih =>
      rw [List.mapM_cons, ih]
      by_cases hx : p x
      · by_cases hxs : ∀ x ∈ xs, p x
        · rw [if_pos hx, if_pos hxs, if_pos (List.forall_mem_cons.mpr ⟨hx, hxs⟩)]
          rfl
        · rw [if_pos hx, if_neg hxs, if_neg fun h => hxs (List.forall_mem_cons.mp h).2]
          rfl
      · rw [if_neg hx, if_neg fun h => hx (List.forall_mem_cons.mp h).1]
        rfl

lemma mapM_flatMap {γ : Type} (g : γ → List α) (xs : List γ) :
    (xs.flatMap g).mapM f = (xs.mapM fun x => (g x).mapM f).map List.flatten := by
  induction xs with
  | nil => rfl
  | cons x xs ih =>
      rw [List.flatMap_cons, List.mapM_append, List.mapM_cons, ih]
      cases (g x).mapM f with
      | none => rfl
      | some ys => cases xs.mapM fun x => (g x).mapM f <;> rfl

/-- **A loop over pairs** whose steps change both parts apart. -/
lemma foldlM_prod {γ δ : Type} {f : α → γ → Option α} {g : δ → γ → Option δ}
    {h : α × δ → γ → Option (α × δ)}
    (hh : ∀ s x, h s x = (f s.1 x).bind fun a => (g s.2 x).map fun b => (a, b)) (xs : List γ)
    (s : α × δ) :
    xs.foldlM h s = (xs.foldlM f s.1).bind fun a => (xs.foldlM g s.2).map fun b => (a, b) := by
  induction xs generalizing s with
  | nil => rfl
  | cons x xs ih =>
      rw [List.foldlM_cons, List.foldlM_cons, List.foldlM_cons, hh]
      cases f s.1 x with
      | none => rfl
      | some a =>
          cases g s.2 x with
          | none => exact (Option.bind_fun_none (xs.foldlM f a)).symm
          | some b => exact ih (a, b)

lemma exists_of_foldlM {γ : Type} {f : α → γ → Option α} {xs : List γ} {a b : α}
    (h : xs.foldlM f a = some b) {x : γ} (hx : x ∈ xs) : ∃ a' b', f a' x = some b' := by
  induction xs generalizing a with
  | nil => exact absurd hx List.not_mem_nil
  | cons y xs ih =>
      rw [List.foldlM_cons] at h
      obtain ⟨a', ha', h⟩ := Option.bind_eq_some_iff.mp h
      rcases List.mem_cons.mp hx with rfl | hx
      · exact ⟨a, a', ha'⟩
      · exact ih h hx

end Fallible
