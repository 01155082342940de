import Mathlib.Data.List.GetD
import Mathlib.Data.List.Nodup
import Mathlib.Logic.Function.Basic

/-!
# Writes one after the other

A loop writes values into a table, one position at a time.

* `Writes.foldl_update_of_ne` — positions that are not written keep what they hold.
* **`Writes.foldl_update_of_mem`** — a position that is written once holds the value.
* `Writes.getD_foldl_set` — the same for the entries of a list.
-/

namespace Writes

section Table

variable {ι α β : Type} [DecidableEq ι] (key : α → ι) (value : α → β)

lemma foldl_update_of_ne {i : ι} (xs : List α) (table : ι → β) (h : ∀ x ∈ xs, key x ≠ i) :
    xs.foldl (fun table x => Function.update table (key x) (value x)) table i = table i := by
  induction xs generalizing table with
  | nil => rfl
  | cons x xs ih =>
      rw [List.foldl_cons, ih _ fun y hy => h y (List.mem_cons_of_mem _ hy),
        Function.update_of_ne (h x List.mem_cons_self).symm]

/-- **A position holds what was written there**, if nothing else is written to it. -/
lemma foldl_update_of_mem {a : α} (xs : List α) (table : ι → β)
    (hkey : ∀ x ∈ xs, key x = key a → x = a) (ha : a ∈ xs) :
    xs.foldl (fun table x => Function.update table (key x) (value x)) table (key a) = value a := by
  induction xs generalizing table with
  | nil => exact absurd ha List.not_mem_nil
  | cons x xs ih =>
      have hkey' : ∀ y ∈ xs, key y = key a → y = a := fun y hy => hkey y (List.mem_cons_of_mem _ hy)
      rw [List.foldl_cons]
      by_cases hmem : a ∈ xs
      · exact ih _ hkey' hmem
      · obtain rfl : a = x := (List.mem_cons.mp ha).resolve_right hmem
        rw [foldl_update_of_ne key value xs _ fun y hy heq => hmem (hkey' y hy heq ▸ hy),
          Function.update_self]

lemma foldl_update_of_nodup {ws : List (ι × β)} (hws : (ws.map Prod.fst).Nodup) (table : ι → β)
    {w : ι × β} (hw : w ∈ ws) :
    ws.foldl (fun table w => Function.update table w.1 w.2) table w.1 = w.2 :=
  foldl_update_of_mem Prod.fst Prod.snd ws table
    (fun _ hx heq => List.inj_on_of_nodup_map hws hx hw heq) hw

end Table

section Lists

variable (f : ℕ → ℕ)

lemma length_foldl_set (keys table : List ℕ) :
    (keys.foldl (fun table k => table.set k (f k)) table).length = table.length := by
  induction keys generalizing table with
  | nil => rfl
  | cons k keys ih => rw [List.foldl_cons, ih, List.length_set]

lemma getD_foldl_set {keys : List ℕ} (hkeys : keys.Nodup) {table : List ℕ} {i : ℕ}
    (hi : i < table.length) :
    (keys.foldl (fun table k => table.set k (f k)) table).getD i 0
      = if i ∈ keys then f i else table.getD i 0 := by
  induction keys generalizing table with
  | nil => simp
  | cons k keys ih =>
      obtain ⟨hk, htail⟩ := List.nodup_cons.mp hkeys
      rw [List.foldl_cons, ih htail (by rwa [List.length_set])]
      by_cases hmem : i ∈ keys
      · rw [if_pos hmem, if_pos (List.mem_cons_of_mem k hmem)]
      · rw [if_neg hmem, List.getD_eq_getElem?_getD, List.getElem?_set]
        by_cases heq : k = i
        · simp [heq, hi]
        · simp [heq, hmem, Ne.symm heq, List.getD_eq_getElem?_getD]

end Lists

end Writes
