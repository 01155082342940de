import Mathlib.Algebra.Order.Field.Basic
import Mathlib.Tactic.Linarith
import Mathlib.Tactic.FieldSimp
import Mathlib.Tactic.Ring

/-!
# The method of false position

An interval at whose ends a function has values of different signs, and the zero of the line through
these values.

* `FalsePosition.Opposite`, `FalsePosition.Bracket` — the signs and the interval.
* **`FalsePosition.Bracket.secant_mem`** — the zero of the line is in the interval.
* **`FalsePosition.Bracket.narrow_left`**, **`FalsePosition.Bracket.narrow_right`** — the interval
  may be cut at a point whose value has the other sign.
-/

namespace FalsePosition

variable {𝕜 : Type} [Field 𝕜] [LinearOrder 𝕜] [IsStrictOrderedRing 𝕜]

def Opposite (x y : 𝕜) : Prop := x < 0 ∧ 0 ≤ y ∨ 0 ≤ x ∧ y < 0

lemma Opposite.sub_ne_zero {x y : 𝕜} (h : Opposite x y) : y - x ≠ 0 := by
  rcases h with ⟨hx, hy⟩ | ⟨hx, hy⟩
  · exact (sub_pos.mpr (hx.trans_le hy)).ne'
  · exact (sub_neg.mpr (hy.trans_le hx)).ne

lemma opposite_of_mul_neg {x y : 𝕜} (h : x * y < 0) : Opposite x y := by
  rcases mul_neg_iff.mp h with ⟨hx, hy⟩ | ⟨hx, hy⟩
  · exact Or.inr ⟨hx.le, hy⟩
  · exact Or.inl ⟨hx, hy.le⟩

/-- **An interval** with values of different signs at its ends. -/
structure Bracket (f : 𝕜 → 𝕜) (a b fa fb : 𝕜) : Prop where
  lt : a < b
  left : fa = f a
  right : fb = f b
  opposite : Opposite fa fb

def secant (a b fa fb : 𝕜) : 𝕜 := a - fa * ((b - a) / (fb - fa))

variable {f : 𝕜 → 𝕜} {a b fa fb x : 𝕜}

lemma Opposite.ratio_mem {x y : 𝕜} (h : Opposite x y) : 0 ≤ -x / (y - x) ∧ -x / (y - x) ≤ 1 := by
  rcases h with ⟨hx, hy⟩ | ⟨hx, hy⟩
  · have hpos : 0 < y - x := sub_pos.mpr (hx.trans_le hy)
    exact ⟨div_nonneg (by linarith) hpos.le, (div_le_one hpos).mpr (by linarith)⟩
  · have hneg : y - x < 0 := sub_neg.mpr (hy.trans_le hx)
    exact ⟨div_nonneg_of_nonpos (by linarith) hneg.le, (div_le_one_of_neg hneg).mpr (by linarith)⟩

/-- **The zero of the line** is in the interval. -/
theorem Bracket.secant_mem (h : Bracket f a b fa fb) :
    a ≤ secant a b fa fb ∧ secant a b fa fb ≤ b := by
  have heq : secant a b fa fb = a + -fa / (fb - fa) * (b - a) := by
    rw [secant]
    have hne := h.opposite.sub_ne_zero
    field_simp
    ring
  obtain ⟨hlow, hhigh⟩ := h.opposite.ratio_mem
  have hlength : 0 ≤ b - a := sub_nonneg.mpr h.lt.le
  rw [heq]
  refine ⟨le_add_of_nonneg_right (mul_nonneg hlow hlength), ?_⟩
  have hle := mul_le_mul_of_nonneg_right hhigh hlength
  linarith

/-- The interval is cut on the right at a point whose value has not the sign of the left end. -/
theorem Bracket.narrow_right (h : Bracket f a b fa fb) (hx : a ≤ x) (hneg : fa * f x < 0) :
    Bracket f a x fa (f x) := by
  refine ⟨lt_of_le_of_ne hx ?_, h.left, rfl, opposite_of_mul_neg hneg⟩
  rintro rfl
  rw [h.left] at hneg
  exact absurd hneg (mul_self_nonneg _).not_gt

/-- The interval is cut on the left at a point whose value has not the sign of the right end. -/
theorem Bracket.narrow_left (h : Bracket f a b fa fb) (hx : x ≤ b) (hneg : fb * f x < 0) :
    Bracket f x b (f x) fb := by
  refine ⟨lt_of_le_of_ne hx ?_, rfl, h.right, opposite_of_mul_neg (by rwa [mul_comm])⟩
  rintro rfl
  rw [h.right] at hneg
  exact absurd hneg (mul_self_nonneg _).not_gt

end FalsePosition
