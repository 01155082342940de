import Espreso.Lib.Curve
import Mathlib.Data.Fin.VecNotation
import Mathlib.Data.Fintype.Pi
import Mathlib.Data.Nat.ModEq
import Mathlib.Tactic.FinCases

/-!
# The Hilbert curve

The numbers of the cells of a square and of a cube, with the arithmetic of `size_t`.

* `rotateD2`, `D2toD1`, `D1toD2`, `rotateD3`, `D3toD1`, `D1toD3` — the functions of `HilbertCurve`.
* **`encode_decode`**, **`decode_faceNeighbours`**, **`encode_div`** — they number the cells, cells with
  consecutive numbers have a common face, and the leading digits number the cells of a coarser grid.
-/

namespace Espreso.HilbertCurve

/-! ## The code -/

/-- A condition as an `int`. -/
def bit (c : Bool) : UInt64 := c.toUInt64

@[simp] lemma bit_false : bit false = 0 := rfl

@[simp] lemma bit_true : bit true = 1 := rfl

/-- `HilbertCurve::rotateD2`.  The `int`s `rx` and `ry` are 0 or 1. -/
def rotateD2 (n x y rx ry : UInt64) : UInt64 × UInt64 :=
  if ry = 0 then
    if rx = 1 then (n - 1 - y, n - 1 - x) else (y, x)
  else (x, y)

/-- `HilbertCurve::rotateD3` -/
def rotateD3 (n x y z rx ry rz : UInt64) : UInt64 × UInt64 × UInt64 :=
  if rz = 0 then
    if rx = 1 then (n - 1 - z, y, n - 1 - x)
    else if ry = 1 then (x, n - 1 - z, n - 1 - y) else (x, z, y)
  else
    if ry = 1 then (n - 1 - y, n - 1 - x, z) else (y, x, z)

lemma toNat_half_lt {s : UInt64} (h : 0 < s) : (s / 2).toNat < s.toNat := by
  have hpos : 0 < s.toNat := h
  rw [UInt64.toNat_div]
  exact Nat.div_lt_self hpos (by decide)

/-- The loop of `D2toD1`. -/
def D2toD1Loop (s x y d : UInt64) : UInt64 :=
  if h : 0 < s then
    let rx := bit (x &&& s > 0)
    let ry := bit (y &&& s > 0)
    let p := rotateD2 s x y rx ry
    D2toD1Loop (s / 2) p.1 p.2 (d + s * s * ((3 * rx) ^^^ ry))
  else d
termination_by s.toNat
decreasing_by exact toNat_half_lt h

/-- `HilbertCurve::D2toD1` -/
def D2toD1 (n x y : UInt64) : UInt64 := D2toD1Loop (n / 2) x y 0

/-- The loop of `D3toD1`. -/
def D3toD1Loop (s x y z d : UInt64) : UInt64 :=
  if h : 0 < s then
    let rx := bit (x &&& s > 0)
    let ry := bit (y &&& s > 0)
    let rz := bit (z &&& s > 0)
    let p := rotateD3 s x y z rx ry rz
    D3toD1Loop (s / 2) p.1 p.2.1 p.2.2 (d + s * s * s * (4 * ry + ((3 * (ry ^^^ rx)) ^^^ rz)))
  else d
termination_by s.toNat
decreasing_by exact toNat_half_lt h

/-- `HilbertCurve::D3toD1` -/
def D3toD1 (n x y z : UInt64) : UInt64 := D3toD1Loop (n / 2) x y z 0

/-- The loop of `D1toD2`.  It has no result if it does not end within the given number of steps. -/
def D1toD2Loop (n : UInt64) : ℕ → UInt64 → UInt64 → UInt64 → UInt64 → Option (UInt64 × UInt64)
  | 0, _, _, _, _ => none
  | fuel + 1, s, t, x, y =>
    if s < n then
      let rx := 1 &&& (t / 2)
      let ry := 1 &&& (t ^^^ rx)
      let p := rotateD2 s x y rx ry
      D1toD2Loop n fuel (s * 2) (t / 4) (p.1 + s * rx) (p.2 + s * ry)
    else some (x, y)

/-- `HilbertCurve::D1toD2`.  After 64 steps `s` is 0, and the loop never ends. -/
def D1toD2 (n d : UInt64) : Option (UInt64 × UInt64) := D1toD2Loop n 65 1 d 0 0

/-- The loop of `D1toD3`. -/
def D1toD3Loop (n : UInt64) :
    ℕ → UInt64 → UInt64 → UInt64 → UInt64 → UInt64 → Option (UInt64 × UInt64 × UInt64)
  | 0, _, _, _, _, _ => none
  | fuel + 1, s, t, x, y, z =>
    if s < n then
      let rx := (1 &&& (t / 4)) ^^^ (1 &&& (t / 2))
      let ry := 1 &&& (t / 4)
      let rz := (1 &&& (t / 2)) ^^^ (1 &&& t)
      let p := rotateD3 s x y z rx ry rz
      D1toD3Loop n fuel (s * 2) (t / 8) (p.1 + s * rx) (p.2.1 + s * ry) (p.2.2 + s * rz)
    else some (x, y, z)

/-- `HilbertCurve::D1toD3` -/
def D1toD3 (n d : UInt64) : Option (UInt64 × UInt64 × UInt64) := D1toD3Loop n 65 1 d 0 0 0

/-! ## The curves -/

def corner2 : Fin 4 ≃ (Fin 2 → Bool) where
  toFun q := ![q.val.testBit 1, xor (q.val.testBit 0) (q.val.testBit 1)]
  invFun c := Fin.ofNat 4 ((3 * (c 0).toNat) ^^^ (c 1).toNat)
  left_inv := by decide
  right_inv := by decide

/-- The turn of `rotateD2`. -/
def turn2 (rx ry : Bool) : Turn (Fin 2) := if ry then Turn.none else Turn.exchange 0 1 rx

/-- **The Hilbert curve in a square.** -/
def curve2 : Curve (Fin 2) 4 where
  corner := corner2
  turn q := turn2 (corner2 q 0) (corner2 q 1)

def corner3 : Fin 8 ≃ (Fin 3 → Bool) where
  toFun q := ![xor (q.val.testBit 2) (q.val.testBit 1), q.val.testBit 2,
    xor (q.val.testBit 1) (q.val.testBit 0)]
  invFun c := Fin.ofNat 8
    (4 * (c 1).toNat + ((3 * ((c 1).toNat ^^^ (c 0).toNat)) ^^^ (c 2).toNat))
  left_inv := by decide
  right_inv := by decide

/-- The turn of `rotateD3`. -/
def turn3 (rx ry rz : Bool) : Turn (Fin 3) :=
  if rz then Turn.exchange 0 1 ry
  else if rx then Turn.exchange 0 2 true else Turn.exchange 1 2 ry

/-- **The Hilbert curve in a cube.** -/
def curve3 : Curve (Fin 3) 8 where
  corner := corner3
  turn q := turn3 (corner3 q 0) (corner3 q 1) (corner3 q 2)

lemma joins2 : curve2.Joins ![false, false] ![true, false] where
  corner_first := by decide
  turn_first := by decide
  corner_last := by decide
  turn_last := by decide
  step := by decide

lemma joins3 : curve3.Joins ![false, false, false] ![false, true, false] where
  corner_first := by decide
  turn_first := by decide
  corner_last := by decide
  turn_last := by decide
  step := by decide

/-! ## Arithmetic of `size_t` -/

section Words

variable {s : UInt64} {j : ℕ}

lemma and_pos_iff (hs : s.toNat = 2 ^ j) (x : UInt64) :
    decide (x &&& s > 0) = x.toNat.testBit j := by
  have hand : (x &&& s).toNat = 2 ^ j * (x.toNat.testBit j).toNat := by
    rw [UInt64.toNat_and, hs, Nat.and_two_pow, Nat.mul_comm]
  have hpos : (x &&& s > 0) ↔ 0 < (x &&& s).toNat := Iff.rfl
  have := Nat.two_pow_pos j
  rw [Bool.eq_iff_iff, decide_eq_true_eq, hpos, hand]
  cases x.toNat.testBit j <;> simp

lemma toNat_reflect_mod (hs : s.toNat = 2 ^ j) (x : UInt64) :
    (s - 1 - x).toNat % 2 ^ j = 2 ^ j - 1 - x.toNat % 2 ^ j := by
  have hj : j < 64 := (Nat.pow_lt_pow_iff_right one_lt_two).mp (hs ▸ s.toNat_lt)
  have hpos := Nat.two_pow_pos j
  have hx := x.toNat_lt
  have hsplit := Nat.div_add_mod x.toNat (2 ^ j)
  have hmod := Nat.mod_lt x.toNat hpos
  have hone : (s - 1).toNat = 2 ^ j - 1 := by
    rw [UInt64.toNat_sub_of_le _ _ (by rw [UInt64.le_iff_toNat_le, hs]; exact hpos), hs]
    rfl
  have hpow : 2 ^ 64 = 2 ^ j * 2 ^ (64 - j) := by rw [← pow_add, Nat.add_sub_cancel' hj.le]
  have hdiv : x.toNat / 2 ^ j < 2 ^ (64 - j) := Nat.div_lt_of_lt_mul (hpow ▸ hx)
  have hle : 2 ^ j * (x.toNat / 2 ^ j) ≤ 2 ^ j * 2 ^ (64 - j) := Nat.mul_le_mul_left _ hdiv.le
  rw [UInt64.toNat_sub, hone, Nat.mod_mod_of_dvd _ (hpow ▸ Nat.dvd_mul_right _ _)]
  have hsum : 2 ^ 64 - x.toNat + (2 ^ j - 1)
      = 2 ^ j * (2 ^ (64 - j) - x.toNat / 2 ^ j) + (2 ^ j - 1 - x.toNat % 2 ^ j) := by
    rw [Nat.mul_sub, hpow]
    omega
  rw [hsum, Nat.mul_add_mod, Nat.mod_eq_of_lt (by omega)]

lemma toNat_reflect (hs : s.toNat = 2 ^ j) {x : UInt64} (hx : x.toNat < 2 ^ j) :
    (s - 1 - x).toNat = 2 ^ j - 1 - x.toNat := by
  have hpos := Nat.two_pow_pos j
  have hone : (s - 1).toNat = 2 ^ j - 1 := by
    rw [UInt64.toNat_sub_of_le _ _ (by rw [UInt64.le_iff_toNat_le, hs]; exact hpos), hs]
    rfl
  rw [UInt64.toNat_sub_of_le _ _ (by rw [UInt64.le_iff_toNat_le, hone]; omega), hone]

lemma half_spec {k : ℕ} (hs : s.toNat = 2 ^ (k + 1) / 2) :
    s.toNat = 2 ^ k ∧ 0 < s ∧ (s / 2).toNat = 2 ^ k / 2 := by
  rw [pow_succ, Nat.mul_div_cancel _ Nat.two_pos] at hs
  refine ⟨hs, ?_, ?_⟩
  · rw [UInt64.lt_iff_toNat_lt, hs]
    exact Nat.two_pow_pos k
  · rw [UInt64.toNat_div, hs]
    rfl

lemma one_and_eq (t : UInt64) : 1 &&& t = bit (t.toNat.testBit 0) := by
  refine UInt64.toNat_inj.mp ?_
  rw [UInt64.toNat_and, UInt64.toNat_one, Nat.one_and_eq_mod_two, Nat.testBit_zero]
  rcases Nat.mod_two_eq_zero_or_one t.toNat with h | h <;> simp [h]

lemma double_spec {k : ℕ} {n : UInt64} (hs : s.toNat = 2 ^ j) (hn : n.toNat = 2 ^ k) (hjk : j < k) :
    (s * 2).toNat = 2 ^ (j + 1) := by
  have hle : 2 ^ (j + 1) ≤ 2 ^ k := Nat.pow_le_pow_right Nat.two_pos hjk
  have hlt := n.toNat_lt
  rw [UInt64.toNat_mul, hs, pow_succ]
  exact Nat.mod_eq_of_lt (by rw [← pow_succ]; exact lt_of_le_of_lt hle (hn ▸ hlt))

lemma toNat_add_half {k : ℕ} {n a : UInt64} (hs : s.toNat = 2 ^ j) (hn : n.toNat = 2 ^ k) (hjk : j < k)
    (ha : a.toNat < 2 ^ j) (c : Bool) : (a + s * bit c).toNat = 2 ^ j * c.toNat + a.toNat := by
  have hle : 2 ^ (j + 1) ≤ 2 ^ k := Nat.pow_le_pow_right Nat.two_pos hjk
  have hlt := n.toNat_lt
  rw [hn] at hlt
  rw [pow_succ] at hle
  rw [UInt64.toNat_add, UInt64.toNat_mul, hs]
  cases c <;> simp <;> omega

end Words

/-! ## The square -/

def cell2 (p : UInt64 × UInt64) : Fin 2 → ℕ := ![p.1.toNat, p.2.toNat]

lemma rotateD2_mod {s : UInt64} {j : ℕ} (hs : s.toNat = 2 ^ j) (x y : UInt64) (rx ry : Bool)
    (i : Fin 2) : cell2 (rotateD2 s x y (bit rx) (bit ry)) i % 2 ^ j
      = (turn2 rx ry).apply (2 ^ j) (fun i => cell2 (x, y) i % 2 ^ j) i := by
  have hx := toNat_reflect_mod hs x
  have hy := toNat_reflect_mod hs y
  cases rx <;> cases ry <;> fin_cases i <;>
    simp [rotateD2, turn2, Turn.apply, cell2, Turn.none, Turn.exchange, hx, hy]

lemma rotateD2_eq {s : UInt64} {j : ℕ} (hs : s.toNat = 2 ^ j) {p : UInt64 × UInt64}
    (hp : ∀ i, cell2 p i < 2 ^ j) (rx ry : Bool) :
    cell2 (rotateD2 s p.1 p.2 (bit rx) (bit ry)) = (turn2 rx ry).apply (2 ^ j) (cell2 p) := by
  have hx := toNat_reflect hs (hp 0)
  have hy := toNat_reflect hs (hp 1)
  funext i
  cases rx <;> cases ry <;> fin_cases i <;>
    simp [rotateD2, turn2, Turn.apply, cell2, Turn.none, Turn.exchange, hx, hy]

lemma toNat_digit2 (rx ry : Bool) : ((3 * bit rx) ^^^ bit ry).toNat = corner2.symm ![rx, ry] := by
  cases rx <;> cases ry <;> rfl

lemma toNat_D2toD1Loop {k : ℕ} {s : UInt64} (hs : s.toNat = 2 ^ k / 2) (x y d : UInt64) :
    (D2toD1Loop s x y d).toNat = (d.toNat + curve2.index k (cell2 (x, y))) % 2 ^ 64 := by
  induction k generalizing s x y d with
  | zero =>
      have hzero : ¬0 < s := fun h => absurd (show 0 < s.toNat from h) (by simp [hs])
      rw [D2toD1Loop, dif_neg hzero, Curve.index, Nat.add_zero, Nat.mod_eq_of_lt d.toNat_lt]
  | succ k ih =>
      obtain ⟨hs, hpos, hhalf⟩ := half_spec hs
      rw [D2toD1Loop, dif_pos hpos]
      simp only [and_pos_iff hs]
      set rx := x.toNat.testBit k
      set ry := y.toNat.testBit k
      have hcorner := corner2.apply_symm_apply ![rx, ry]
      have hturn : curve2.turn (corner2.symm ![rx, ry]) = turn2 rx ry := by
        simp only [curve2, hcorner, Matrix.cons_val_zero, Matrix.cons_val_one]
      have hstep : curve2.index (k + 1) (cell2 (x, y)) = 4 ^ k * corner2.symm ![rx, ry]
          + curve2.index k (cell2 (rotateD2 s x y (bit rx) (bit ry))) := by
        refine curve2.index_succ (fun i => ?_) fun i => ?_
        · change corner2 _ i = _
          rw [hcorner]
          fin_cases i <;> rfl
        · rw [hturn, rotateD2_mod hs]
      have hpow : 4 ^ k = 2 ^ k * 2 ^ k := mul_pow 2 2 k
      have hdigit : (d + s * s * ((3 * bit rx) ^^^ bit ry)).toNat
          ≡ d.toNat + 4 ^ k * corner2.symm ![rx, ry] [MOD 2 ^ 64] := by
        rw [UInt64.toNat_add, UInt64.toNat_mul, UInt64.toNat_mul, hs, toNat_digit2, hpow]
        exact (Nat.mod_modEq _ _).trans (Nat.ModEq.add_left _ ((Nat.mod_modEq _ _).trans
          (Nat.ModEq.mul_right _ (Nat.mod_modEq _ _))))
      rw [ih hhalf, hstep, ← Nat.add_assoc]
      exact hdigit.add_right _

/-- **`D2toD1`** computes the number on the curve, without the digits that do not fit. -/
theorem toNat_D2toD1 {k : ℕ} {n : UInt64} (hn : n.toNat = 2 ^ k) (x y : UInt64) :
    (D2toD1 n x y).toNat = curve2.index k (cell2 (x, y)) % 2 ^ 64 := by
  rw [D2toD1, toNat_D2toD1Loop (by rw [UInt64.toNat_div, hn]; rfl), UInt64.toNat_zero, Nat.zero_add]

lemma D1toD2Loop_eq {k j fuel : ℕ} {n s t d : UInt64} {p : UInt64 × UInt64} (hn : n.toNat = 2 ^ k)
    (hs : s.toNat = 2 ^ j) (hjk : j ≤ k) (hfuel : k < j + fuel) (ht : t.toNat = d.toNat / 4 ^ j)
    (hp : cell2 p = curve2.cell j d.toNat) :
    ∃ p', D1toD2Loop n fuel s t p.1 p.2 = some p' ∧ cell2 p' = curve2.cell k d.toNat := by
  induction fuel generalizing j s t p with
  | zero => omega
  | succ fuel ih =>
      rw [D1toD2Loop]
      have hlt : s < n ↔ j < k := by
        rw [UInt64.lt_iff_toNat_lt, hs, hn, Nat.pow_lt_pow_iff_right one_lt_two]
      split_ifs with hcond
      · have hjk := hlt.mp hcond
        set q := Curve.digit 4 j d.toNat
        have hbit : ∀ i < 2, q.val.testBit i = t.toNat.testBit i := by
          intro i hi
          change (d.toNat / 4 ^ j % 2 ^ 2).testBit i = _
          rw [← ht, Nat.testBit_mod_two_pow, decide_eq_true hi, Bool.true_and]
        have hrx : 1 &&& (t / 2) = bit (corner2 q 0) := by
          change _ = bit (q.val.testBit 1)
          rw [one_and_eq, UInt64.toNat_div, hbit 1 (by decide), Nat.testBit_succ]
          rfl
        have hry : 1 &&& (t ^^^ bit (corner2 q 0)) = bit (corner2 q 1) := by
          change _ = bit (xor (q.val.testBit 0) (q.val.testBit 1))
          rw [one_and_eq, UInt64.toNat_xor, Nat.testBit_xor, hbit 0 (by decide)]
          change bit (xor _ ((bit (q.val.testBit 1)).toNat.testBit 0)) = _
          cases q.val.testBit 1 <;> rfl
        simp only [hrx, hry]
        have hlow : ∀ i, cell2 p i < 2 ^ j := fun i => hp ▸ curve2.cell_lt j _ i
        have hrotate := rotateD2_eq hs hlow (corner2 q 0) (corner2 q 1)
        have hturn := fun i => hrotate ▸ (turn2 (corner2 q 0) (corner2 q 1)).apply_lt hlow i
        set p' := rotateD2 s p.1 p.2 (bit (corner2 q 0)) (bit (corner2 q 1))
        refine ih (double_spec hs hn hjk) hjk (by omega) ?_ (p := (_, _)) ?_
        · rw [UInt64.toNat_div, ht, Nat.div_div_eq_div_mul, pow_succ]
          rfl
        · funext i
          rw [Curve.cell_succ]
          change _ = 2 ^ j * (corner2 q i).toNat
            + (turn2 (corner2 q 0) (corner2 q 1)).apply (2 ^ j) (curve2.cell j d.toNat) i
          rw [← hp, ← hrotate]
          fin_cases i
          · exact toNat_add_half hs hn hjk (hturn 0) _
          · exact toNat_add_half hs hn hjk (hturn 1) _
      · obtain rfl : j = k := le_antisymm hjk (Nat.le_of_not_lt fun h => hcond (hlt.mpr h))
        exact ⟨p, rfl, hp⟩

/-- **`D1toD2`** returns the cell of the curve. -/
theorem D1toD2_eq {k : ℕ} {n : UInt64} (hn : n.toNat = 2 ^ k) (d : UInt64) :
    ∃ p, D1toD2 n d = some p ∧ cell2 p = curve2.cell k d.toNat := by
  have hk : k < 64 := (Nat.pow_lt_pow_iff_right one_lt_two).mp (hn ▸ n.toNat_lt)
  refine D1toD2Loop_eq (j := 0) (p := (0, 0)) hn rfl (Nat.zero_le k) (by omega) ?_ ?_
  · rw [pow_zero, Nat.div_one]
  · funext i
    fin_cases i <;> rfl

/-! ## The cube -/

def cell3 (p : UInt64 × UInt64 × UInt64) : Fin 3 → ℕ := ![p.1.toNat, p.2.1.toNat, p.2.2.toNat]

lemma rotateD3_mod {s : UInt64} {j : ℕ} (hs : s.toNat = 2 ^ j) (x y z : UInt64) (rx ry rz : Bool)
    (i : Fin 3) : cell3 (rotateD3 s x y z (bit rx) (bit ry) (bit rz)) i % 2 ^ j
      = (turn3 rx ry rz).apply (2 ^ j) (fun i => cell3 (x, y, z) i % 2 ^ j) i := by
  have hx := toNat_reflect_mod hs x
  have hy := toNat_reflect_mod hs y
  have hz := toNat_reflect_mod hs z
  cases rx <;> cases ry <;> cases rz <;> fin_cases i <;>
    simp [rotateD3, turn3, Turn.apply, cell3, Turn.exchange, Equiv.swap_apply_def, hx, hy, hz]

lemma rotateD3_eq {s : UInt64} {j : ℕ} (hs : s.toNat = 2 ^ j) {p : UInt64 × UInt64 × UInt64}
    (hp : ∀ i, cell3 p i < 2 ^ j) (rx ry rz : Bool) :
    cell3 (rotateD3 s p.1 p.2.1 p.2.2 (bit rx) (bit ry) (bit rz))
      = (turn3 rx ry rz).apply (2 ^ j) (cell3 p) := by
  have hx := toNat_reflect hs (hp 0)
  have hy := toNat_reflect hs (hp 1)
  have hz := toNat_reflect hs (hp 2)
  funext i
  cases rx <;> cases ry <;> cases rz <;> fin_cases i <;>
    simp [rotateD3, turn3, Turn.apply, cell3, Turn.exchange, Equiv.swap_apply_def, hx, hy, hz]

lemma toNat_digit3 (rx ry rz : Bool) :
    (4 * bit ry + ((3 * (bit ry ^^^ bit rx)) ^^^ bit rz)).toNat = corner3.symm ![rx, ry, rz] := by
  cases rx <;> cases ry <;> cases rz <;> rfl

lemma toNat_D3toD1Loop {k : ℕ} {s : UInt64} (hs : s.toNat = 2 ^ k / 2) (x y z d : UInt64) :
    (D3toD1Loop s x y z d).toNat = (d.toNat + curve3.index k (cell3 (x, y, z))) % 2 ^ 64 := by
  induction k generalizing s x y z d with
  | zero =>
      have hzero : ¬0 < s := fun h => absurd (show 0 < s.toNat from h) (by simp [hs])
      rw [D3toD1Loop, dif_neg hzero, Curve.index, Nat.add_zero, Nat.mod_eq_of_lt d.toNat_lt]
  | succ k ih =>
      obtain ⟨hs, hpos, hhalf⟩ := half_spec hs
      rw [D3toD1Loop, dif_pos hpos]
      simp only [and_pos_iff hs]
      set rx := x.toNat.testBit k
      set ry := y.toNat.testBit k
      set rz := z.toNat.testBit k
      have hcorner := corner3.apply_symm_apply ![rx, ry, rz]
      have hturn : curve3.turn (corner3.symm ![rx, ry, rz]) = turn3 rx ry rz := by
        simp only [curve3, hcorner]
        rfl
      have hstep : curve3.index (k + 1) (cell3 (x, y, z)) = 8 ^ k * corner3.symm ![rx, ry, rz]
          + curve3.index k (cell3 (rotateD3 s x y z (bit rx) (bit ry) (bit rz))) := by
        refine curve3.index_succ (fun i => ?_) fun i => ?_
        · change corner3 _ i = _
          rw [hcorner]
          fin_cases i <;> rfl
        · rw [hturn, rotateD3_mod hs]
      have hpow : 8 ^ k = 2 ^ k * 2 ^ k * 2 ^ k := by
        rw [← mul_pow, ← mul_pow]
        rfl
      have hdigit : (d + s * s * s * (4 * bit ry + ((3 * (bit ry ^^^ bit rx)) ^^^ bit rz))).toNat
          ≡ d.toNat + 8 ^ k * corner3.symm ![rx, ry, rz] [MOD 2 ^ 64] := by
        rw [UInt64.toNat_add, UInt64.toNat_mul, UInt64.toNat_mul, UInt64.toNat_mul, hs, toNat_digit3,
          hpow]
        exact (Nat.mod_modEq _ _).trans (Nat.ModEq.add_left _ ((Nat.mod_modEq _ _).trans
          (Nat.ModEq.mul_right _ ((Nat.mod_modEq _ _).trans
            (Nat.ModEq.mul_right _ (Nat.mod_modEq _ _))))))
      rw [ih hhalf, hstep, ← Nat.add_assoc]
      exact hdigit.add_right _

/-- **`D3toD1`** computes the number on the curve, without the digits that do not fit. -/
theorem toNat_D3toD1 {k : ℕ} {n : UInt64} (hn : n.toNat = 2 ^ k) (x y z : UInt64) :
    (D3toD1 n x y z).toNat = curve3.index k (cell3 (x, y, z)) % 2 ^ 64 := by
  rw [D3toD1, toNat_D3toD1Loop (by rw [UInt64.toNat_div, hn]; rfl), UInt64.toNat_zero, Nat.zero_add]

lemma D1toD3Loop_eq {k j fuel : ℕ} {n s t d : UInt64} {p : UInt64 × UInt64 × UInt64}
    (hn : n.toNat = 2 ^ k) (hs : s.toNat = 2 ^ j) (hjk : j ≤ k) (hfuel : k < j + fuel)
    (ht : t.toNat = d.toNat / 8 ^ j) (hp : cell3 p = curve3.cell j d.toNat) :
    ∃ p', D1toD3Loop n fuel s t p.1 p.2.1 p.2.2 = some p' ∧ cell3 p' = curve3.cell k d.toNat := by
  induction fuel generalizing j s t p with
  | zero => omega
  | succ fuel ih =>
      rw [D1toD3Loop]
      have hlt : s < n ↔ j < k := by
        rw [UInt64.lt_iff_toNat_lt, hs, hn, Nat.pow_lt_pow_iff_right one_lt_two]
      split_ifs with hcond
      · have hjk := hlt.mp hcond
        set q := Curve.digit 8 j d.toNat
        have hbit : ∀ i < 3, q.val.testBit i = t.toNat.testBit i := by
          intro i hi
          change (d.toNat / 8 ^ j % 2 ^ 3).testBit i = _
          rw [← ht, Nat.testBit_mod_two_pow, decide_eq_true hi, Bool.true_and]
        have hzero : 1 &&& t = bit (q.val.testBit 0) := by rw [one_and_eq, hbit 0 (by decide)]
        have hone : 1 &&& (t / 2) = bit (q.val.testBit 1) := by
          rw [one_and_eq, UInt64.toNat_div, hbit 1 (by decide), Nat.testBit_succ]
          rfl
        have htwo : 1 &&& (t / 4) = bit (q.val.testBit 2) := by
          rw [one_and_eq, UInt64.toNat_div, hbit 2 (by decide), Nat.testBit_succ, Nat.testBit_succ,
            Nat.div_div_eq_div_mul]
          rfl
        have hxor : ∀ b c : Bool, bit b ^^^ bit c = bit (xor b c) := by decide
        have hry : bit (q.val.testBit 2) = bit (corner3 q 1) := rfl
        have hrx : bit (xor (q.val.testBit 2) (q.val.testBit 1)) = bit (corner3 q 0) := rfl
        have hrz : bit (xor (q.val.testBit 1) (q.val.testBit 0)) = bit (corner3 q 2) := rfl
        simp only [hzero, hone, htwo, hxor]
        simp only [hrx, hry, hrz]
        have hlow : ∀ i, cell3 p i < 2 ^ j := fun i => hp ▸ curve3.cell_lt j _ i
        have hrotate := rotateD3_eq hs hlow (corner3 q 0) (corner3 q 1) (corner3 q 2)
        have hturn := fun i =>
          hrotate ▸ (turn3 (corner3 q 0) (corner3 q 1) (corner3 q 2)).apply_lt hlow i
        set p' := rotateD3 s p.1 p.2.1 p.2.2 (bit (corner3 q 0)) (bit (corner3 q 1)) (bit (corner3 q 2))
        refine ih (double_spec hs hn hjk) hjk (by omega) ?_ (p := (_, _, _)) ?_
        · rw [UInt64.toNat_div, ht, Nat.div_div_eq_div_mul, pow_succ]
          rfl
        · funext i
          rw [Curve.cell_succ]
          change _ = 2 ^ j * (corner3 q i).toNat
            + (turn3 (corner3 q 0) (corner3 q 1) (corner3 q 2)).apply (2 ^ j)
              (curve3.cell j d.toNat) i
          rw [← hp, ← hrotate]
          fin_cases i
          · exact toNat_add_half hs hn hjk (hturn 0) _
          · exact toNat_add_half hs hn hjk (hturn 1) _
          · exact toNat_add_half hs hn hjk (hturn 2) _
      · obtain rfl : j = k := le_antisymm hjk (Nat.le_of_not_lt fun h => hcond (hlt.mpr h))
        exact ⟨p, rfl, hp⟩

/-- **`D1toD3`** returns the cell of the curve. -/
theorem D1toD3_eq {k : ℕ} {n : UInt64} (hn : n.toNat = 2 ^ k) (d : UInt64) :
    ∃ p, D1toD3 n d = some p ∧ cell3 p = curve3.cell k d.toNat := by
  have hk : k < 64 := (Nat.pow_lt_pow_iff_right one_lt_two).mp (hn ▸ n.toNat_lt)
  refine D1toD3Loop_eq (j := 0) (p := (0, 0, 0)) hn rfl (Nat.zero_le k) (by omega) ?_ ?_
  · rw [pow_zero, Nat.div_one]
  · funext i
    fin_cases i <;> rfl

/-! ## The numbering of the cells -/

lemma cell2_lt {k : ℕ} {x y : UInt64} (hx : x.toNat < 2 ^ k) (hy : y.toNat < 2 ^ k) (i : Fin 2) :
    cell2 (x, y) i < 2 ^ k := by
  fin_cases i
  exacts [hx, hy]

lemma cell3_lt {k : ℕ} {x y z : UInt64} (hx : x.toNat < 2 ^ k) (hy : y.toNat < 2 ^ k)
    (hz : z.toNat < 2 ^ k) (i : Fin 3) : cell3 (x, y, z) i < 2 ^ k := by
  fin_cases i
  exacts [hx, hy, hz]

lemma cell2_inj {p p' : UInt64 × UInt64} (h : cell2 p = cell2 p') : p = p' :=
  Prod.ext (UInt64.toNat_inj.mp (congrFun h 0)) (UInt64.toNat_inj.mp (congrFun h 1))

lemma cell3_inj {p p' : UInt64 × UInt64 × UInt64} (h : cell3 p = cell3 p') : p = p' :=
  Prod.ext (UInt64.toNat_inj.mp (congrFun h 0))
    (Prod.ext (UInt64.toNat_inj.mp (congrFun h 1)) (UInt64.toNat_inj.mp (congrFun h 2)))

lemma side_sq (k : ℕ) : (2 ^ k) ^ 2 = 4 ^ k := by
  rw [pow_right_comm]
  rfl

lemma side_cube (k : ℕ) : (2 ^ k) ^ 3 = 8 ^ k := by
  rw [pow_right_comm]
  rfl

lemma toNat_D2toD1_of_fits {k : ℕ} {n : UInt64} (hn : n.toNat = 2 ^ k) (hfits : (2 ^ k) ^ 2 ≤ 2 ^ 64)
    (x y : UInt64) : (D2toD1 n x y).toNat = curve2.index k (cell2 (x, y)) := by
  rw [toNat_D2toD1 hn, Nat.mod_eq_of_lt]
  exact (curve2.index_lt k _).trans_le (side_sq k ▸ hfits)

lemma toNat_D3toD1_of_fits {k : ℕ} {n : UInt64} (hn : n.toNat = 2 ^ k) (hfits : (2 ^ k) ^ 3 ≤ 2 ^ 64)
    (x y z : UInt64) : (D3toD1 n x y z).toNat = curve3.index k (cell3 (x, y, z)) := by
  rw [toNat_D3toD1 hn, Nat.mod_eq_of_lt]
  exact (curve3.index_lt k _).trans_le (side_cube k ▸ hfits)

/-- **Cells and numbers** belong together one to one, in both dimensions. -/
theorem encode_decode {k : ℕ} {n : UInt64} (hn : n.toNat = 2 ^ k) :
    ((2 ^ k) ^ 2 ≤ 2 ^ 64 →
      (∀ x y : UInt64, x.toNat < 2 ^ k → y.toNat < 2 ^ k →
        (D2toD1 n x y).toNat < (2 ^ k) ^ 2 ∧ D1toD2 n (D2toD1 n x y) = some (x, y)) ∧
      ∀ d : UInt64, d.toNat < (2 ^ k) ^ 2 → ∃ x y, D1toD2 n d = some (x, y) ∧
        x.toNat < 2 ^ k ∧ y.toNat < 2 ^ k ∧ D2toD1 n x y = d) ∧
    ((2 ^ k) ^ 3 ≤ 2 ^ 64 →
      (∀ x y z : UInt64, x.toNat < 2 ^ k → y.toNat < 2 ^ k → z.toNat < 2 ^ k →
        (D3toD1 n x y z).toNat < (2 ^ k) ^ 3 ∧ D1toD3 n (D3toD1 n x y z) = some (x, y, z)) ∧
      ∀ d : UInt64, d.toNat < (2 ^ k) ^ 3 → ∃ x y z, D1toD3 n d = some (x, y, z) ∧
        x.toNat < 2 ^ k ∧ y.toNat < 2 ^ k ∧ z.toNat < 2 ^ k ∧ D3toD1 n x y z = d) := by
  refine ⟨fun hfits => ⟨fun x y hx hy => ⟨?_, ?_⟩, fun d hd => ?_⟩,
    fun hfits => ⟨fun x y z hx hy hz => ⟨?_, ?_⟩, fun d hd => ?_⟩⟩
  · rw [toNat_D2toD1_of_fits hn hfits, side_sq]
    exact curve2.index_lt k _
  · obtain ⟨p, hp, hcell⟩ := D1toD2_eq hn (D2toD1 n x y)
    rw [toNat_D2toD1_of_fits hn hfits, curve2.cell_index] at hcell
    rw [hp, cell2_inj (hcell.trans (funext fun i => Nat.mod_eq_of_lt (cell2_lt hx hy i)))]
  · obtain ⟨p, hp, hcell⟩ := D1toD2_eq hn d
    refine ⟨p.1, p.2, hp, ?_, ?_, UInt64.toNat_inj.mp ?_⟩
    · exact lt_of_eq_of_lt (congrFun hcell 0) (curve2.cell_lt k _ _)
    · exact lt_of_eq_of_lt (congrFun hcell 1) (curve2.cell_lt k _ _)
    · rw [toNat_D2toD1_of_fits hn hfits, hcell, curve2.index_cell, Nat.mod_eq_of_lt (side_sq k ▸ hd)]
  · rw [toNat_D3toD1_of_fits hn hfits, side_cube]
    exact curve3.index_lt k _
  · obtain ⟨p, hp, hcell⟩ := D1toD3_eq hn (D3toD1 n x y z)
    rw [toNat_D3toD1_of_fits hn hfits, curve3.cell_index] at hcell
    rw [hp, cell3_inj (hcell.trans (funext fun i => Nat.mod_eq_of_lt (cell3_lt hx hy hz i)))]
  · obtain ⟨p, hp, hcell⟩ := D1toD3_eq hn d
    refine ⟨p.1, p.2.1, p.2.2, hp, ?_, ?_, ?_, UInt64.toNat_inj.mp ?_⟩
    · exact lt_of_eq_of_lt (congrFun hcell 0) (curve3.cell_lt k _ _)
    · exact lt_of_eq_of_lt (congrFun hcell 1) (curve3.cell_lt k _ _)
    · exact lt_of_eq_of_lt (congrFun hcell 2) (curve3.cell_lt k _ _)
    · rw [toNat_D3toD1_of_fits hn hfits, hcell, curve3.index_cell, Nat.mod_eq_of_lt (side_cube k ▸ hd)]

theorem encode_decode_sixteen : D1toD2 16 (D2toD1 16 5 9) = some (5, 9) :=
  (((encode_decode (k := 4) (n := 16) rfl).1 (by decide)).1 5 9 (by decide) (by decide)).2

/-- **Consecutive numbers** belong to cells with a common face. -/
theorem decode_faceNeighbours {k : ℕ} {n : UInt64} (hn : n.toNat = 2 ^ k) (d : UInt64)
    (hd : d.toNat + 1 < 2 ^ 64) :
    (d.toNat + 1 < (2 ^ k) ^ 2 → ∃ p p', D1toD2 n d = some p ∧ D1toD2 n (d + 1) = some p' ∧
      FaceNeighbours (cell2 p) (cell2 p')) ∧
    (d.toNat + 1 < (2 ^ k) ^ 3 → ∃ p p', D1toD3 n d = some p ∧ D1toD3 n (d + 1) = some p' ∧
      FaceNeighbours (cell3 p) (cell3 p')) := by
  have hsucc : (d + 1).toNat = d.toNat + 1 := by
    rw [UInt64.toNat_add, UInt64.toNat_one, Nat.mod_eq_of_lt hd]
  constructor
  · intro hlt
    obtain ⟨p, hp, hcell⟩ := D1toD2_eq hn d
    obtain ⟨p', hp', hcell'⟩ := D1toD2_eq hn (d + 1)
    refine ⟨p, p', hp, hp', ?_⟩
    rw [hcell, hcell', hsucc]
    exact joins2.faceNeighbours_cell (side_sq k ▸ hlt)
  · intro hlt
    obtain ⟨p, hp, hcell⟩ := D1toD3_eq hn d
    obtain ⟨p', hp', hcell'⟩ := D1toD3_eq hn (d + 1)
    refine ⟨p, p', hp, hp', ?_⟩
    rw [hcell, hcell', hsucc]
    exact joins3.faceNeighbours_cell (side_cube k ▸ hlt)

theorem decode_faceNeighbours_sixteen : ∃ p p', D1toD3 16 511 = some p ∧ D1toD3 16 512 = some p' ∧
    FaceNeighbours (cell3 p) (cell3 p') :=
  (decode_faceNeighbours (k := 4) (n := 16) rfl 511 (by decide)).2 (by decide)

/-- **The leading digits** of a number are the number of the cell of a coarser grid. -/
theorem encode_div {j k : ℕ} {n m : UInt64} (hjk : j ≤ k) (hn : n.toNat = 2 ^ k) (hm : m.toNat = 2 ^ j) :
    ((2 ^ k) ^ 2 ≤ 2 ^ 64 → ∀ x y x' y' : UInt64, x.toNat < 2 ^ k → y.toNat < 2 ^ k →
      x'.toNat = x.toNat / 2 ^ (k - j) → y'.toNat = y.toNat / 2 ^ (k - j) →
      (D2toD1 n x y).toNat / 4 ^ (k - j) = (D2toD1 m x' y').toNat) ∧
    ((2 ^ k) ^ 3 ≤ 2 ^ 64 → ∀ x y z x' y' z' : UInt64, x.toNat < 2 ^ k → y.toNat < 2 ^ k →
      z.toNat < 2 ^ k → x'.toNat = x.toNat / 2 ^ (k - j) → y'.toNat = y.toNat / 2 ^ (k - j) →
      z'.toNat = z.toNat / 2 ^ (k - j) →
      (D3toD1 n x y z).toNat / 8 ^ (k - j) = (D3toD1 m x' y' z').toNat) := by
  obtain ⟨i, rfl⟩ := Nat.exists_eq_add_of_le hjk
  have hpow : 2 ^ j ≤ 2 ^ (j + i) := Nat.pow_le_pow_right Nat.two_pos hjk
  rw [Nat.add_sub_cancel_left]
  constructor
  · rintro hfits x y x' y' - - hx hy
    have hcell : cell2 (x', y') = fun c => cell2 (x, y) c / 2 ^ i := by
      funext c
      fin_cases c
      exacts [hx, hy]
    rw [toNat_D2toD1_of_fits hn hfits, curve2.index_div, ← hcell,
      toNat_D2toD1_of_fits hm ((Nat.pow_le_pow_left hpow 2).trans hfits)]
  · rintro hfits x y z x' y' z' - - - hx hy hz
    have hcell : cell3 (x', y', z') = fun c => cell3 (x, y, z) c / 2 ^ i := by
      funext c
      fin_cases c
      exacts [hx, hy, hz]
    rw [toNat_D3toD1_of_fits hn hfits, curve3.index_div, ← hcell,
      toNat_D3toD1_of_fits hm ((Nat.pow_le_pow_left hpow 3).trans hfits)]

theorem encode_div_sixteen : (D2toD1 16 5 9).toNat / 4 ^ 2 = (D2toD1 4 1 2).toNat :=
  (encode_div (j := 2) (k := 4) (n := 16) (m := 4) (by decide) rfl rfl).1 (by decide) 5 9 1 2
    (by decide) (by decide) rfl rfl

end Espreso.HilbertCurve
