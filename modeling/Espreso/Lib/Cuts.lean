import Mathlib.Data.List.Pairwise
import Mathlib.Tactic

/-!
# Cuts of a range of positions

Positions `0`, ..., `n - 1` with keys are cut into maximal ranges with the same key.

* `Cuts.Cut` — an ascending list of the borders of these ranges.
* `Cuts.Cut.key_eq`, `Cuts.Cut.key_ne` — the positions of a range have the same key, and the next
  range has another one.
-/

namespace Cuts

variable {κ : Type}

/-- **The borders of the maximal ranges** of positions with the same key: the ends, and the
positions with another key than the one before. -/
structure Cut (key : ℕ → κ) (n : ℕ) (borders : List ℕ) : Prop where
  ascending : borders.Pairwise (· < ·)
  mem_iff : ∀ b, b ∈ borders ↔ b = 0 ∨ b = n ∨ (0 < b ∧ b < n ∧ key (b - 1) ≠ key b)

lemma not_mem_between {l : List ℕ} (hl : l.Pairwise (· < ·)) {i a b e : ℕ} (ha : l[i]? = some a)
    (hb : l[i + 1]? = some b) (hae : a < e) (heb : e < b) : e ∉ l := by
  intro he
  obtain ⟨j, hj⟩ := List.mem_iff_getElem?.mp he
  obtain ⟨hi, rfl⟩ := List.getElem?_eq_some_iff.mp ha
  obtain ⟨hi', rfl⟩ := List.getElem?_eq_some_iff.mp hb
  obtain ⟨hjlt, rfl⟩ := List.getElem?_eq_some_iff.mp hj
  have hmono := List.pairwise_iff_getElem.mp hl
  rcases Nat.lt_trichotomy j i with hlt | rfl | hgt
  · exact lt_asymm hae (hmono j i hjlt hi hlt)
  · exact lt_irrefl _ hae
  · rcases Nat.eq_or_lt_of_le (Nat.succ_le_of_lt hgt) with rfl | hlt
    · exact lt_irrefl _ heb
    · exact lt_asymm heb (hmono (i + 1) j hi' hjlt hlt)

lemma head_eq {l : List ℕ} (hl : l.Pairwise (· < ·)) {a : ℕ} (ha : a ∈ l) (hmin : ∀ b ∈ l, a ≤ b) :
    l[0]? = some a := by
  cases l with
  | nil => exact absurd ha List.not_mem_nil
  | cons b l =>
      rcases List.mem_cons.mp ha with rfl | ha
      · rfl
      · have hlt := (List.pairwise_cons.mp hl).1 a ha
        exact absurd (hmin b List.mem_cons_self) (Nat.not_le_of_lt hlt)

lemma last_eq {l : List ℕ} (hl : l.Pairwise (· < ·)) {a : ℕ} (ha : a ∈ l) (hmax : ∀ b ∈ l, b ≤ a) :
    l[l.length - 1]? = some a := by
  obtain ⟨i, hi⟩ := List.mem_iff_getElem?.mp ha
  obtain ⟨hlt, rfl⟩ := List.getElem?_eq_some_iff.mp hi
  have hlast : l.length - 1 < l.length := by omega
  rcases Nat.eq_or_lt_of_le (show i ≤ l.length - 1 by omega) with heq | hbefore
  · rw [← heq, hi]
  · have h := List.pairwise_iff_getElem.mp hl i (l.length - 1) hlt hlast hbefore
    exact absurd (hmax _ (List.getElem_mem hlast)) (Nat.not_le_of_lt h)

namespace Cut

variable {key : ℕ → κ} {n : ℕ} {borders : List ℕ} (h : Cut key n borders)

include h

lemma le_of_mem {b : ℕ} (hb : b ∈ borders) : b ≤ n := by
  rcases (h.mem_iff b).mp hb with rfl | rfl | ⟨-, hlt, -⟩
  · exact Nat.zero_le n
  · exact le_rfl
  · exact hlt.le

lemma first : borders[0]? = some 0 :=
  head_eq h.ascending ((h.mem_iff 0).mpr (Or.inl rfl)) fun b _ => Nat.zero_le b

lemma last : borders[borders.length - 1]? = some n :=
  last_eq h.ascending ((h.mem_iff n).mpr (Or.inr (Or.inl rfl))) fun _ hb => h.le_of_mem hb

/-- **The positions of a range** have the same key. -/
theorem key_eq {i a b : ℕ} (ha : borders[i]? = some a) (hb : borders[i + 1]? = some b) {e : ℕ}
    (hae : a ≤ e) (heb : e < b) : key e = key a := by
  obtain ⟨k, rfl⟩ := Nat.exists_eq_add_of_le hae
  induction k with
  | zero => rfl
  | succ k ih =>
      rw [← ih (by omega) (by omega)]
      have hnot := not_mem_between h.ascending ha hb (show a < a + (k + 1) by omega) heb
      have hle := h.le_of_mem (List.mem_of_getElem? hb)
      rw [h.mem_iff] at hnot
      by_contra hne
      exact hnot (Or.inr (Or.inr ⟨by omega, by omega, Ne.symm hne⟩))

/-- **The next range** has another key. -/
theorem key_ne {i a b : ℕ} (ha : borders[i]? = some a) (hb : borders[i + 1]? = some b) (hbn : b < n) :
    key a ≠ key b := by
  obtain ⟨hi, rfl⟩ := List.getElem?_eq_some_iff.mp ha
  obtain ⟨hi', rfl⟩ := List.getElem?_eq_some_iff.mp hb
  have hlt := List.pairwise_iff_getElem.mp h.ascending i (i + 1) hi hi' (Nat.lt_succ_self i)
  rcases (h.mem_iff _).mp (List.getElem_mem hi') with hzero | hend | ⟨-, -, hne⟩
  · omega
  · omega
  · rwa [h.key_eq ha hb (Nat.le_sub_one_of_lt hlt) (Nat.sub_one_lt_of_lt hlt)] at hne

end Cut

end Cuts
