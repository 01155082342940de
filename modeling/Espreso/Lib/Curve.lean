import Mathlib.Data.Nat.Bitwise
import Mathlib.Logic.Equiv.Basic
import Mathlib.Tactic.Ring

/-!
# Curves through the cells of a cube

A curve of depth `k` numbers the cells of a cube with `2 ^ k` cells in each direction.  The leading
digit of a number picks a corner of the cube.  The cells of the half cube at this corner are numbered by
the other digits, after a turn.

* `Turn` — an exchange of coordinates and reflections, which is its own inverse.
* **`Curve.index_cell`**, **`Curve.cell_index`** — they are inverse to each other.
* **`Curve.index_div`** — the leading digits of a number are the number of the cell of a coarser cube.
* **`Curve.faceNeighbours_cell`** — cells with consecutive numbers have a common face.
-/

variable {ι : Type}

/-! ## Turns -/

/-- A turn of a cube: coordinate `i` is the coordinate `perm i` of the argument, reflected if
`flip i`. -/
structure Turn (ι : Type) where
  perm : ι → ι
  flip : ι → Bool
  perm_perm : ∀ i, perm (perm i) = i
  flip_perm : ∀ i, flip (perm i) = flip i

namespace Turn

variable (τ : Turn ι)

/-- The turn of a cube with `s` cells in each direction. -/
def apply (s : ℕ) (x : ι → ℕ) : ι → ℕ := fun i =>
  if τ.flip i then s - 1 - x (τ.perm i) else x (τ.perm i)

lemma apply_lt {s : ℕ} {x : ι → ℕ} (hx : ∀ i, x i < s) (i : ι) : τ.apply s x i < s := by
  have hi := hx (τ.perm i)
  simp only [apply]
  split_ifs <;> omega

lemma apply_apply {s : ℕ} {x : ι → ℕ} (hx : ∀ i, x i < s) : τ.apply s (τ.apply s x) = x := by
  funext i
  have hi := hx i
  simp only [apply, τ.perm_perm, τ.flip_perm]
  split_ifs <;> omega

lemma apply_div {j m : ℕ} {x : ι → ℕ} (hx : ∀ i, x i < 2 ^ (j + m)) :
    (fun i => τ.apply (2 ^ (j + m)) x i / 2 ^ m) = τ.apply (2 ^ j) fun i => x i / 2 ^ m := by
  funext i
  have hi := hx (τ.perm i)
  have hpow : 2 ^ (j + m) = 2 ^ j * 2 ^ m := pow_add 2 j m
  simp only [apply]
  split_ifs
  · rw [hpow] at hi ⊢
    rw [Nat.sub_sub, Nat.add_comm 1, ← Nat.add_sub_add_right _ 0, Nat.add_zero,
      Nat.mul_comm, Nat.mul_sub_div _ _ _ (by rwa [Nat.mul_comm])]
    omega
  · rfl

def corner (c : ι → Bool) : ι → Bool := fun i => xor (τ.flip i) (c (τ.perm i))

/-- The exchange of two coordinates, both of which are reflected if `reflect`. -/
def exchange [DecidableEq ι] (i j : ι) (reflect : Bool) : Turn ι where
  perm := Equiv.swap i j
  flip := fun k => reflect && (k = i ∨ k = j)
  perm_perm := Equiv.swap_apply_self i j
  flip_perm := fun k => by
    simp only [Equiv.swap_apply_eq_iff, Equiv.swap_apply_left, Equiv.swap_apply_right, or_comm]

def none : Turn ι where
  perm := id
  flip := fun _ => false
  perm_perm := fun _ => rfl
  flip_perm := fun _ => rfl

end Turn

/-- The cell at a corner of a cube with `s` cells in each direction. -/
def cornerCell (s : ℕ) (c : ι → Bool) : ι → ℕ := fun i => if c i then s - 1 else 0

lemma Turn.apply_cornerCell (τ : Turn ι) (s : ℕ) (c : ι → Bool) :
    τ.apply s (cornerCell s c) = cornerCell s (τ.corner c) := by
  funext i
  simp only [apply, cornerCell, corner]
  by_cases hflip : τ.flip i = true <;> by_cases hc : c (τ.perm i) = true <;> simp [hflip, hc]

/-- Cells with a common face: they differ by 1 in one coordinate. -/
def FaceNeighbours (x y : ι → ℕ) : Prop :=
  ∃ i, (x i + 1 = y i ∨ y i + 1 = x i) ∧ ∀ j ≠ i, x j = y j

lemma Turn.faceNeighbours (τ : Turn ι) {s : ℕ} {x y : ι → ℕ} (hx : ∀ i, x i < s) (hy : ∀ i, y i < s)
    (h : FaceNeighbours x y) : FaceNeighbours (τ.apply s x) (τ.apply s y) := by
  obtain ⟨i, hi, hne⟩ := h
  refine ⟨τ.perm i, ?_, fun j hj => ?_⟩
  · have hxi := hx i
    have hyi := hy i
    simp only [apply, τ.perm_perm]
    split_ifs <;> omega
  · have hj : τ.perm j ≠ i := fun heq => hj (by rw [← heq, τ.perm_perm])
    simp only [apply, hne _ hj]

/-! ## Curves -/

/-- The corners and the turns of the `b` digits. -/
structure Curve (ι : Type) (b : ℕ) where
  corner : Fin b ≃ (ι → Bool)
  turn : Fin b → Turn ι

namespace Curve

variable {b : ℕ} [NeZero b] (C : Curve ι b)

/-- Digit `k` of a number. -/
def digit (b : ℕ) [NeZero b] (k d : ℕ) : Fin b := Fin.ofNat b (d / b ^ k)

/-- The cell with number `d` of the curve of depth `k`. -/
def cell : ℕ → ℕ → ι → ℕ
  | 0, _ => fun _ => 0
  | k + 1, d => fun i => 2 ^ k * (C.corner (digit b k d) i).toNat
      + (C.turn (digit b k d)).apply (2 ^ k) (cell k d) i

/-- The number of a cell on the curve of depth `k`. -/
def index : ℕ → (ι → ℕ) → ℕ
  | 0, _ => 0
  | k + 1, x =>
    let q := C.corner.symm fun i => (x i).testBit k
    b ^ k * q + index k ((C.turn q).apply (2 ^ k) fun i => x i % 2 ^ k)

lemma cell_succ (k d : ℕ) (i : ι) : C.cell (k + 1) d i = 2 ^ k * (C.corner (digit b k d) i).toNat
    + (C.turn (digit b k d)).apply (2 ^ k) (C.cell k d) i := rfl

lemma cell_lt (k d : ℕ) (i : ι) : C.cell k d i < 2 ^ k := by
  induction k generalizing i with
  | zero => exact Nat.one_pos
  | succ k ih =>
      have hturn := (C.turn (digit b k d)).apply_lt ih i
      have hhalf : 2 ^ k * (C.corner (digit b k d) i).toNat ≤ 2 ^ k * 1 :=
        Nat.mul_le_mul_left _ (Bool.toNat_le _)
      rw [cell_succ, pow_succ]
      omega

omit [NeZero b] in
lemma index_lt (k : ℕ) (x : ι → ℕ) : C.index k x < b ^ k := by
  induction k generalizing x with
  | zero => exact Nat.one_pos
  | succ k ih =>
      simp only [index]
      set q := C.corner.symm fun i => (x i).testBit k
      have hlow := ih ((C.turn q).apply (2 ^ k) fun i => x i % 2 ^ k)
      calc b ^ k * q + C.index k ((C.turn q).apply (2 ^ k) fun i => x i % 2 ^ k)
          < b ^ k * q + b ^ k := Nat.add_lt_add_left hlow _
        _ = b ^ k * (q + 1) := (Nat.mul_succ _ _).symm
        _ ≤ b ^ k * b := Nat.mul_le_mul_left _ q.isLt
        _ = b ^ (k + 1) := (pow_succ b k).symm

lemma cell_congr {k d e : ℕ} (h : d % b ^ k = e % b ^ k) : C.cell k d = C.cell k e := by
  induction k with
  | zero => rfl
  | succ k ih =>
      rw [Nat.mod_pow_succ, Nat.mod_pow_succ] at h
      have hpos : 0 < b ^ k := Nat.pow_pos (NeZero.pos b)
      have hlow : d % b ^ k = e % b ^ k := by
        have hmod := congrArg (· % b ^ k) h
        simpa only [Nat.add_mul_mod_self_left, Nat.mod_mod] using hmod
      have hhigh : d / b ^ k % b = e / b ^ k % b := by
        rw [hlow, Nat.add_left_cancel_iff] at h
        exact Nat.eq_of_mul_eq_mul_left hpos h
      have hdigit : digit b k d = digit b k e := Fin.ext hhigh
      simp only [cell, hdigit, ih hlow]

omit [NeZero b] in
lemma index_congr {k : ℕ} {x y : ι → ℕ} (h : ∀ i, x i % 2 ^ k = y i % 2 ^ k) :
    C.index k x = C.index k y := by
  rcases k with _ | k
  · rfl
  · have hbit : ∀ i, (x i).testBit k = (y i).testBit k := by
      intro i
      have hi := congrArg (·.testBit k) (h i)
      simpa only [Nat.testBit_mod_two_pow, Nat.lt_add_one, decide_true, Bool.true_and] using hi
    have hlow : ∀ i, x i % 2 ^ k = y i % 2 ^ k := by
      intro i
      have hdvd : 2 ^ k ∣ 2 ^ (k + 1) := pow_dvd_pow 2 (Nat.le_succ k)
      rw [← Nat.mod_mod_of_dvd (x i) hdvd, h i, Nat.mod_mod_of_dvd _ hdvd]
    simp only [index, hbit, hlow]

lemma index_succ {k : ℕ} {x y : ι → ℕ} {q : Fin b} (hq : ∀ i, C.corner q i = (x i).testBit k)
    (hy : ∀ i, y i % 2 ^ k = (C.turn q).apply (2 ^ k) (fun i => x i % 2 ^ k) i) :
    C.index (k + 1) x = b ^ k * q + C.index k y := by
  have hcorner : (C.corner.symm fun i => (x i).testBit k) = q := by
    rw [Equiv.symm_apply_eq]
    exact funext fun i => (hq i).symm
  rw [index, hcorner]
  refine congrArg _ (C.index_congr fun i => ?_)
  rw [hy, Nat.mod_eq_of_lt ((C.turn q).apply_lt (fun i => Nat.mod_lt _ (Nat.two_pow_pos k)) i)]

/-! ## Numbers and cells -/

lemma testBit_add (k : ℕ) {y : ℕ} (c : Bool) (hy : y < 2 ^ k) :
    (2 ^ k * c.toNat + y).testBit k = c := by
  rw [Nat.testBit_two_pow_mul_add _ hy, if_neg (lt_irrefl k), Nat.sub_self]
  cases c <;> rfl

lemma mod_eq (k x : ℕ) : 2 ^ k * (x.testBit k).toNat + x % 2 ^ k = x % 2 ^ (k + 1) := by
  rw [Nat.mod_pow_succ, Nat.testBit_eq_decide_div_mod_eq, Nat.add_comm]
  rcases Nat.mod_two_eq_zero_or_one (x / 2 ^ k) with h | h <;> simp [h]

/-- **A cell has its number.** -/
theorem index_cell (k d : ℕ) : C.index k (C.cell k d) = d % b ^ k := by
  induction k with
  | zero => rw [pow_zero, Nat.mod_one, index]
  | succ k ih =>
      have hlt := C.cell_lt k d
      have hturn := (C.turn (digit b k d)).apply_lt hlt
      have hcorner : (C.corner.symm fun i => (C.cell (k + 1) d i).testBit k) = digit b k d := by
        rw [Equiv.symm_apply_eq]
        funext i
        exact testBit_add k _ (hturn i)
      have hlow : (fun i => C.cell (k + 1) d i % 2 ^ k)
          = (C.turn (digit b k d)).apply (2 ^ k) (C.cell k d) := by
        funext i
        rw [cell, Nat.mul_add_mod, Nat.mod_eq_of_lt (hturn i)]
      rw [index, hcorner, hlow, Turn.apply_apply _ hlt, ih, Nat.mod_pow_succ, Nat.add_comm]
      rfl

/-- **The number of a cell leads to the cell.** -/
theorem cell_index (k : ℕ) (x : ι → ℕ) : C.cell k (C.index k x) = fun i => x i % 2 ^ k := by
  induction k generalizing x with
  | zero =>
      funext i
      rw [pow_zero, Nat.mod_one, cell]
  | succ k ih =>
      simp only [index]
      set q := C.corner.symm fun i => (x i).testBit k with hq
      set y := (C.turn q).apply (2 ^ k) fun i => x i % 2 ^ k with hy
      have hmod : ∀ i, x i % 2 ^ k < 2 ^ k := fun i => Nat.mod_lt _ (Nat.two_pow_pos k)
      have hlow := C.index_lt k y
      have hpos : 0 < b ^ k := Nat.pow_pos (NeZero.pos b)
      have hdigit : digit b k (b ^ k * q + C.index k y) = q := by
        refine Fin.ext ?_
        change (b ^ k * q + C.index k y) / b ^ k % b = q
        rw [Nat.mul_add_div hpos, Nat.div_eq_of_lt hlow, Nat.add_zero, Nat.mod_eq_of_lt q.isLt]
      have hcell : C.cell k (b ^ k * q + C.index k y) = y := by
        rw [C.cell_congr (Nat.mul_add_mod _ _ _), ih]
        funext i
        exact Nat.mod_eq_of_lt ((C.turn q).apply_lt hmod i)
      funext i
      rw [cell, hdigit, hcell, hy, Turn.apply_apply _ hmod, hq, Equiv.apply_symm_apply]
      exact mod_eq k (x i)

/-- **The leading digits** of a number are the number of the cell in a coarser cube. -/
theorem index_div (j m : ℕ) (x : ι → ℕ) :
    C.index (j + m) x / b ^ m = C.index j fun i => x i / 2 ^ m := by
  induction j generalizing x with
  | zero => rw [Nat.zero_add, Nat.div_eq_of_lt (C.index_lt m x), index]
  | succ j ih =>
      have hbit : (fun i => (x i / 2 ^ m).testBit j) = fun i => (x i).testBit (j + m) := by
        funext i
        rw [Nat.testBit_div_two_pow, Nat.add_comm]
      have hmod : (fun i => x i / 2 ^ m % 2 ^ j) = fun i => x i % 2 ^ (j + m) / 2 ^ m := by
        funext i
        rw [pow_add, Nat.mul_comm, Nat.mod_mul_right_div_self]
      rw [Nat.add_right_comm]
      simp only [index, hbit, hmod]
      set q := C.corner.symm fun i => (x i).testBit (j + m)
      rw [← Turn.apply_div _ fun i => Nat.mod_lt _ (Nat.two_pow_pos _), ← ih, pow_add,
        Nat.mul_right_comm, Nat.mul_comm _ (b ^ m),
        Nat.mul_add_div (Nat.pow_pos (NeZero.pos b))]

/-! ## Neighbouring cells -/

/-- **The curve of each digit ends where the curve of the next digit begins.**  All curves begin at the
corner `first` and end at the corner `last`. -/
structure Joins (first last : ι → Bool) : Prop where
  corner_first : C.corner 0 = first
  turn_first : (C.turn 0).corner first = first
  corner_last : C.corner (Fin.ofNat b (b - 1)) = last
  turn_last : (C.turn (Fin.ofNat b (b - 1))).corner last = last
  step : ∀ q : Fin b, (h : q.val + 1 < b) → ∃ i,
    (C.turn q).corner last i = !C.corner q i ∧ C.corner ⟨q + 1, h⟩ i = !C.corner q i ∧
      (C.turn ⟨q + 1, h⟩).corner first i = C.corner q i ∧
      ∀ j ≠ i, (C.turn q).corner last j = (C.turn ⟨q + 1, h⟩).corner first j ∧
        C.corner q j = C.corner ⟨q + 1, h⟩ j

namespace Joins

variable {C} {first last : ι → Bool} (h : C.Joins first last)

include h

lemma cell_first (k : ℕ) : C.cell k 0 = cornerCell (2 ^ k) first := by
  induction k with
  | zero =>
      funext i
      simp [cell, cornerCell]
  | succ k ih =>
      have hdigit : digit b k 0 = 0 := by
        rw [digit, Nat.zero_div]
        rfl
      funext i
      rw [cell, hdigit, h.corner_first, ih, Turn.apply_cornerCell, h.turn_first, pow_succ]
      simp only [cornerCell]
      have := Nat.two_pow_pos k
      by_cases hi : first i = true
      · simp [hi]
        omega
      · simp [hi]

lemma cell_last (k : ℕ) : C.cell k (b ^ k - 1) = cornerCell (2 ^ k) last := by
  induction k with
  | zero =>
      funext i
      simp [cell, cornerCell]
  | succ k ih =>
      have hpos : 0 < b ^ k := Nat.pow_pos (NeZero.pos b)
      have hb := NeZero.pos b
      have hsplit : b ^ (k + 1) - 1 = b ^ k * (b - 1) + (b ^ k - 1) := by
        rw [pow_succ, Nat.mul_sub_one]
        have : b ^ k * 1 ≤ b ^ k * b := Nat.mul_le_mul_left _ hb
        omega
      have hdigit : digit b k (b ^ (k + 1) - 1) = Fin.ofNat b (b - 1) := by
        rw [digit, hsplit, Nat.mul_add_div hpos, Nat.div_eq_of_lt (by omega), Nat.add_zero]
      have hlow : C.cell k (b ^ (k + 1) - 1) = C.cell k (b ^ k - 1) :=
        C.cell_congr (by rw [hsplit, Nat.mul_add_mod])
      funext i
      rw [cell, hdigit, hlow, h.corner_last, ih, Turn.apply_cornerCell, h.turn_last, pow_succ]
      simp only [cornerCell]
      have := Nat.two_pow_pos k
      by_cases hi : last i = true
      · simp [hi]
        omega
      · simp [hi]

/-- **Consecutive cells have a common face.** -/
theorem faceNeighbours_cell {k d : ℕ} (hd : d + 1 < b ^ k) :
    FaceNeighbours (C.cell k d) (C.cell k (d + 1)) := by
  induction k generalizing d with
  | zero => exact absurd hd (by simp)
  | succ k ih =>
      have hpos : 0 < b ^ k := Nat.pow_pos (NeZero.pos b)
      have hsplit := Nat.div_add_mod d (b ^ k)
      have hlow := Nat.mod_lt d hpos
      rcases Nat.lt_or_ge (d % b ^ k + 1) (b ^ k) with hlt | hge
      · -- both cells belong to the same digit
        have hdiv : (d + 1) / b ^ k = d / b ^ k := by
          rw [← hsplit, Nat.add_assoc, Nat.mul_add_div hpos, Nat.div_eq_of_lt hlt,
            Nat.mul_add_div hpos, Nat.div_eq_of_lt hlow]
        have hdigit : digit b k (d + 1) = digit b k d := by rw [digit, hdiv, digit]
        have hcell : C.cell k (d + 1) = C.cell k (d % b ^ k + 1) :=
          C.cell_congr (Nat.mod_add_mod _ _ _).symm
        have hcell' : C.cell k d = C.cell k (d % b ^ k) := C.cell_congr (Nat.mod_mod _ _).symm
        obtain ⟨i, hi, hne⟩ := (C.turn (digit b k d)).faceNeighbours (C.cell_lt k _) (C.cell_lt k _)
          (ih hlt)
        refine ⟨i, ?_, fun j hj => ?_⟩
        · simp only [cell, hdigit, hcell, hcell']
          omega
        · simp only [cell, hdigit, hcell, hcell', hne j hj]
      · -- the last cell of a digit and the first cell of the next digit
        have hlt : d / b ^ k + 1 < b := by
          by_contra hle
          have := Nat.mul_le_mul_left (b ^ k) (Nat.le_of_not_lt hle)
          rw [Nat.mul_add, Nat.mul_one, ← pow_succ] at this
          omega
        have hnext : d + 1 = b ^ k * (d / b ^ k + 1) := by
          rw [Nat.mul_add]
          omega
        have hdigit : (digit b k d).val = d / b ^ k := Nat.mod_eq_of_lt (by omega)
        have hdigit' : digit b k (d + 1) = ⟨digit b k d + 1, hdigit ▸ hlt⟩ := by
          refine Fin.ext ?_
          change (d + 1) / b ^ k % b = digit b k d + 1
          rw [hnext, Nat.mul_div_cancel_left _ hpos, Nat.mod_eq_of_lt hlt, hdigit]
        have hcell : C.cell k d = cornerCell (2 ^ k) last := by
          rw [← h.cell_last, C.cell_congr]
          rw [Nat.mod_eq_of_lt (Nat.sub_lt hpos Nat.one_pos)]
          omega
        have hcell' : C.cell k (d + 1) = cornerCell (2 ^ k) first := by
          rw [← h.cell_first, C.cell_congr]
          rw [hnext, Nat.mul_mod_right, Nat.zero_mod]
        obtain ⟨i, hlast, hflip, hfirst, hother⟩ := h.step (digit b k d) (hdigit ▸ hlt)
        have := Nat.two_pow_pos k
        refine ⟨i, ?_, fun j hj => ?_⟩
        · rw [cell_succ, cell_succ, hdigit', hcell, hcell', Turn.apply_cornerCell,
            Turn.apply_cornerCell, cornerCell, cornerCell, hlast, hfirst, hflip]
          by_cases hi : C.corner (digit b k d) i = true <;> simp [hi] <;> omega
        · obtain ⟨hturn, hcorner⟩ := hother j hj
          rw [cell_succ, cell_succ, hdigit', hcell, hcell', Turn.apply_cornerCell,
            Turn.apply_cornerCell, cornerCell, cornerCell, hturn, hcorner]

end Joins

end Curve
