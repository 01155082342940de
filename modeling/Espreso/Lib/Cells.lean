import Mathlib.Data.Nat.Bitwise
import Mathlib.Tactic.Ring

/-!
# Cells of halved cubes

A cube is halved in all directions again and again.  A cell of depth `d` is given by its coordinates,
which are numbers below `2 ^ d`.

* `coarsen` — the cell of a smaller depth around a cell.
* **`touch_iff_atSide`**, **`touch_iff_around`** — in each direction, a finer or coarser cell touches if
  it lies at the side of a neighbour, or around one.
-/

namespace Cells

variable {ι : Type}

/-- The cell around a cell, `m` levels up. -/
def coarsen (m : ℕ) (x : ι → ℕ) : ι → ℕ := fun i => x i / 2 ^ m

lemma coarsen_coarsen (m k : ℕ) (x : ι → ℕ) : coarsen k (coarsen m x) = coarsen (m + k) x := by
  funext i
  rw [coarsen, coarsen, coarsen, Nat.div_div_eq_div_mul, pow_add]

lemma coarsen_zero (x : ι → ℕ) : coarsen 0 x = x := by
  funext i
  rw [coarsen, pow_zero, Nat.div_one]

lemma coarsen_lt {d e : ℕ} {x : ι → ℕ} (he : e ≤ d) (hx : ∀ i, x i < 2 ^ d) (i : ι) :
    coarsen (d - e) x i < 2 ^ e := by
  rw [coarsen, Nat.div_lt_iff_lt_mul (Nat.two_pow_pos _), ← pow_add, Nat.add_sub_cancel' he]
  exact hx i

/-! ## Touching cells -/

/-- **Touching cells** of depths `d` and `e`: they have at least a corner in common.  The cell `x` of
depth `d` is the product of the intervals from `x i / 2 ^ d` to `(x i + 1) / 2 ^ d`. -/
def Touches (d : ℕ) (x : ι → ℕ) (e : ℕ) (y : ι → ℕ) : Prop :=
  ∀ i, x i * 2 ^ e ≤ (y i + 1) * 2 ^ d ∧ y i * 2 ^ d ≤ (x i + 1) * 2 ^ e

lemma Touches.symm {d e : ℕ} {x y : ι → ℕ} (h : Touches d x e y) : Touches e y d x :=
  fun i => (h i).symm

lemma touches_self (d : ℕ) (x : ι → ℕ) : Touches d x d x := fun i =>
  have hle : x i * 2 ^ d ≤ (x i + 1) * 2 ^ d := Nat.mul_le_mul_right _ (Nat.le_succ _)
  ⟨hle, hle⟩

lemma touches_of_le {d f : ℕ} (hdf : d ≤ f) {x w : ι → ℕ} : Touches d x f w ↔
    ∀ i, x i * 2 ^ (f - d) ≤ w i + 1 ∧ w i ≤ (x i + 1) * 2 ^ (f - d) := by
  obtain ⟨m, rfl⟩ := Nat.exists_eq_add_of_le hdf
  refine forall_congr' fun i => ?_
  rw [Nat.add_sub_cancel_left, pow_add, Nat.mul_comm (2 ^ d), ← Nat.mul_assoc, ← Nat.mul_assoc,
    Nat.mul_le_mul_right_iff (Nat.two_pow_pos d), Nat.mul_le_mul_right_iff (Nat.two_pow_pos d)]

lemma Touches.coarsen {d j f : ℕ} {x w : ι → ℕ} (h : Touches d x f w) (hj : j ≤ f) :
    Touches d x j (coarsen (f - j) w) := by
  intro i
  obtain ⟨k, rfl⟩ := Nat.exists_eq_add_of_le hj
  rw [Nat.add_sub_cancel_left, Cells.coarsen]
  obtain ⟨hlow, hhigh⟩ := h i
  have hk := Nat.two_pow_pos k
  have hup : w i + 1 ≤ (w i / 2 ^ k + 1) * 2 ^ k :=
    Nat.lt_mul_of_div_lt (Nat.lt_succ_self _) hk
  have hdown : w i / 2 ^ k * 2 ^ k ≤ w i := Nat.div_mul_le_self _ _
  constructor
  · refine Nat.le_of_mul_le_mul_right ?_ hk
    calc x i * 2 ^ j * 2 ^ k = x i * 2 ^ (j + k) := by rw [pow_add, Nat.mul_assoc]
      _ ≤ (w i + 1) * 2 ^ d := hlow
      _ ≤ (w i / 2 ^ k + 1) * 2 ^ k * 2 ^ d := Nat.mul_le_mul_right _ hup
      _ = (w i / 2 ^ k + 1) * 2 ^ d * 2 ^ k := Nat.mul_right_comm _ _ _
  · refine Nat.le_of_mul_le_mul_right ?_ hk
    calc w i / 2 ^ k * 2 ^ d * 2 ^ k = w i / 2 ^ k * 2 ^ k * 2 ^ d := Nat.mul_right_comm _ _ _
      _ ≤ w i * 2 ^ d := Nat.mul_le_mul_right _ hdown
      _ ≤ (x i + 1) * 2 ^ (j + k) := hhigh
      _ = (x i + 1) * 2 ^ j * 2 ^ k := by rw [pow_add, Nat.mul_assoc]

/-! ## Neighbours

One direction: a neighbour is given by an offset of -1, 0 or 1. -/

/-- A half of an interval that touches: the last half of the one in front, the first half of the one
behind. -/
def IsHalf (o : ℤ) (c : ℕ) : Prop := c < 2 ∧ (o = -1 → c = 1) ∧ (o = 1 → c = 0)

/-- The part of `y`, split into `m` parts, that lies at the side to which the offset `o` leads back. -/
def AtSide (o : ℤ) (m y w : ℕ) : Prop :=
  w / m = y ∧ (o = -1 → w + 1 = (y + 1) * m) ∧ (o = 1 → w = y * m)

lemma atSide_one {o : ℤ} {y w : ℕ} : AtSide o 1 y w ↔ w = y := by
  rw [AtSide, Nat.div_one, Nat.mul_one, Nat.mul_one]
  exact ⟨fun h => h.1, fun h => ⟨h, fun _ => by rw [h], fun _ => h⟩⟩

lemma atSide_two_mul {o : ℤ} {m y w : ℕ} (hm : 0 < m) :
    AtSide o (2 * m) y w ↔ ∃ c, IsHalf o c ∧ AtSide o m (2 * y + c) w := by
  have hdiv : w / (2 * m) = w / m / 2 := by rw [Nat.mul_comm, Nat.div_div_eq_div_mul]
  constructor
  · rintro ⟨hy, hlast, hfirst⟩
    refine ⟨w / m % 2, ⟨Nat.mod_lt _ Nat.two_pos, fun ho => ?_, fun ho => ?_⟩, ?_,
      fun ho => ?_, fun ho => ?_⟩
    · have hw : w + 1 = (2 * y + 1 + 1) * m := by rw [hlast ho]; ring
      have : w / m = 2 * y + 1 := Nat.div_eq_of_lt_le (by rw [Nat.succ_mul] at hw; omega) (by omega)
      omega
    · have hw : w = m * (2 * y) := by rw [hfirst ho]; ring
      have : w / m = 2 * y := by rw [hw, Nat.mul_div_cancel_left _ hm]
      omega
    · omega
    · have hw : w + 1 = (2 * y + 1 + 1) * m := by rw [hlast ho]; ring
      have : w / m = 2 * y + 1 := Nat.div_eq_of_lt_le (by rw [Nat.succ_mul] at hw; omega) (by omega)
      have hmod : w / m % 2 = 1 := by omega
      rw [hw, hmod]
    · have hw : w = 2 * y * m := by rw [hfirst ho]; ring
      have : w / m = 2 * y := by rw [hw, Nat.mul_div_cancel _ hm]
      have hmod : w / m % 2 = 0 := by omega
      rw [hmod, Nat.add_zero]
      exact hw
  · rintro ⟨c, hc, hy, hlast, hfirst⟩
    obtain ⟨hlt, hone, hzero⟩ := hc
    refine ⟨by omega, fun ho => ?_, fun ho => ?_⟩
    · rw [hlast ho, hone ho]
      ring
    · rw [hfirst ho, hzero ho]
      ring

lemma touch_iff_atSide {m x w : ℕ} (hm : 0 < m) :
    (x * m ≤ w + 1 ∧ w ≤ (x + 1) * m) ↔
      ∃ o : ℤ, (o = -1 ∨ o = 0 ∨ o = 1) ∧ ∃ y : ℕ, (y : ℤ) = x + o ∧ AtSide o m y w := by
  constructor
  · rintro ⟨hlow, hhigh⟩
    rcases Nat.lt_or_ge w (x * m) with hlt | hge
    · have hw : w + 1 = x * m := by omega
      have hx : 0 < x := Nat.pos_of_ne_zero fun h => by simp [h] at hw
      obtain ⟨y, rfl⟩ : ∃ y, x = y + 1 := ⟨x - 1, by omega⟩
      refine ⟨-1, Or.inl rfl, y, by omega, ?_, fun _ => hw, fun h => absurd h (by decide)⟩
      rw [Nat.succ_mul] at hw
      exact Nat.div_eq_of_lt_le (by omega) (by rw [Nat.succ_mul]; omega)
    · rcases Nat.lt_or_ge w ((x + 1) * m) with hlt | hge'
      · exact ⟨0, Or.inr (Or.inl rfl), x, by omega, Nat.div_eq_of_lt_le hge hlt,
          fun h => absurd h (by decide), fun h => absurd h (by decide)⟩
      · have hw : w = (x + 1) * m := le_antisymm hhigh hge'
        refine ⟨1, Or.inr (Or.inr rfl), x + 1, by omega, ?_, fun h => absurd h (by decide),
          fun _ => hw⟩
        rw [hw, Nat.mul_div_cancel _ hm]
  · rintro ⟨o, ho, y, hy, hdiv, hlast, hfirst⟩
    have hlow : y * m ≤ w := hdiv ▸ Nat.div_mul_le_self w m
    have hhigh : w < (y + 1) * m := Nat.lt_mul_of_div_lt (by omega) hm
    rcases ho with rfl | rfl | rfl
    · have hx : x = y + 1 := by omega
      have hnext : (y + 1 + 1) * m = (y + 1) * m + m := Nat.succ_mul _ _
      rw [hx]
      exact ⟨(hlast rfl).ge, by omega⟩
    · have hx : x = y := by omega
      rw [hx]
      omega
    · have hx : y = x + 1 := by omega
      rw [hx] at hlow
      rw [hfirst rfl, hx]
      exact ⟨by rw [Nat.succ_mul]; omega, le_rfl⟩

lemma touch_iff_around {m x z : ℕ} (hm : 0 < m) :
    (x ≤ (z + 1) * m ∧ z * m ≤ x + 1) ↔
      ∃ o : ℤ, (o = -1 ∨ o = 0 ∨ o = 1) ∧ ∃ y : ℕ, (y : ℤ) = x + o ∧ y / m = z := by
  constructor
  · rintro ⟨hlow, hhigh⟩
    rcases Nat.lt_or_ge x (z * m) with hlt | hge
    · refine ⟨1, Or.inr (Or.inr rfl), x + 1, by omega, ?_⟩
      exact Nat.div_eq_of_lt_le hhigh (by rw [Nat.succ_mul]; omega)
    · rcases Nat.lt_or_ge x ((z + 1) * m) with hlt | hge'
      · exact ⟨0, Or.inr (Or.inl rfl), x, by omega, Nat.div_eq_of_lt_le hge hlt⟩
      · have hx : x = (z + 1) * m := le_antisymm hlow hge'
        rw [Nat.succ_mul] at hx
        refine ⟨-1, Or.inl rfl, x - 1, by omega, ?_⟩
        exact Nat.div_eq_of_lt_le (by omega) (by rw [Nat.succ_mul]; omega)
  · rintro ⟨o, ho, y, hy, rfl⟩
    have hlow : y / m * m ≤ y := Nat.div_mul_le_self y m
    have hhigh : y < (y / m + 1) * m := Nat.lt_mul_of_div_lt (Nat.lt_succ_self _) hm
    omega

end Cells
