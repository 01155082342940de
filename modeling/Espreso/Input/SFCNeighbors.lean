import Espreso.Input.HilbertCurve
import Espreso.Input.SpaceFillingCurve
import Espreso.Lib.Cells
import Espreso.Lib.Fallible
import Mathlib.Data.Int.Interval

/-!
# Neighbouring buckets

A bucket of a level is a cell of a square or cube.  Around a leaf, the neighbours may be coarser, equal
or finer leaves.

* `Coordinates` — the numbers of cells, and the loops over neighbours and halves, of both dimensions.
* **`mem_addNeighbors_iff`** — the neighbours found are the leaves that touch the cell, if the descent
  does not leave the last level.
-/

namespace Espreso.SFC

open Cells

/-! ## Cells of the two dimensions -/

local instance neZero_two : NeZero 2 := ⟨Nat.succ_ne_zero 1⟩

local instance neZero_three : NeZero 3 := ⟨Nat.succ_ne_zero 2⟩

instance neZero_four : NeZero 4 := ⟨Nat.succ_ne_zero 3⟩

instance neZero_eight : NeZero 8 := ⟨Nat.succ_ne_zero 7⟩

/-- `for (size_t i = first; i < last; i++)` -/
def loop (first last : ℕ) : List ℕ := List.range' first (last - first)

/-- The bounds of the loops over the halves of a cell, for an offset of -1, 0 or 1. -/
def halves (o : ℤ) : List ℕ := loop (if o = -1 then 1 else 0) (if o = 1 then 1 else 2)

lemma mem_halves {o : ℤ} {c : ℕ} : c ∈ halves o ↔ IsHalf o c := by
  rw [halves, loop, List.mem_range'_1, IsHalf]
  split_ifs <;> omega

lemma length_halves (o : ℤ) : (halves o).length ≤ 2 := by
  rw [halves, loop, List.length_range']
  split_ifs <;> omega

/-- **The two dimensions**: the curve, the number of a cell in rows of `n` cells with its inverse, the
loops over the offsets of the neighbours and the loops over the halves of a cell. -/
structure Coordinates (ι : Type) (b : ℕ) where
  curve : Curve ι b
  number : ℕ → (ι → ℕ) → ℕ
  position : ℕ → ℕ → ι → ℕ
  offsets : List (ι → ℤ)
  children : (ι → ℤ) → List (ι → ℕ)
  position_number : ∀ n x, (∀ i, x i < n) → position n (number n x) = x
  mem_offsets : ∀ o, o ∈ offsets ↔ ∀ i, o i = -1 ∨ o i = 0 ∨ o i = 1
  mem_children : ∀ o c, c ∈ children o ↔ ∀ i, c i ∈ halves (o i)
  length_children : ∀ o, (children o).length ≤ b

/-- `y * n + x` -/
def numberXY (n : ℕ) (x : Fin 2 → ℕ) : ℕ := x 1 * n + x 0

def positionXY (n s : ℕ) : Fin 2 → ℕ := ![s % n, s / n]

def offsetsXY : List (Fin 2 → ℤ) :=
  [-1, 0, 1].flatMap fun ox => [-1, 0, 1].map fun oy => ![ox, oy]

def childrenXY (o : Fin 2 → ℤ) : List (Fin 2 → ℕ) :=
  (halves (o 0)).flatMap fun oox => (halves (o 1)).map fun ooy => ![oox, ooy]

/-- `z * n * n + y * n + x` -/
def numberXYZ (n : ℕ) (x : Fin 3 → ℕ) : ℕ := x 2 * n * n + x 1 * n + x 0

def positionXYZ (n s : ℕ) : Fin 3 → ℕ := ![s % n, s % (n * n) / n, s / (n * n)]

def offsetsXYZ : List (Fin 3 → ℤ) :=
  [-1, 0, 1].flatMap fun ox => [-1, 0, 1].flatMap fun oy => [-1, 0, 1].map fun oz => ![ox, oy, oz]

def childrenXYZ (o : Fin 3 → ℤ) : List (Fin 3 → ℕ) :=
  (halves (o 0)).flatMap fun oox => (halves (o 1)).flatMap fun ooy =>
    (halves (o 2)).map fun ooz => ![oox, ooy, ooz]

lemma positionXY_number (n : ℕ) (x : Fin 2 → ℕ) (hx : ∀ i, x i < n) :
    positionXY n (numberXY n x) = x := by
  have hpos : 0 < n := (Nat.zero_le _).trans_lt (hx 0)
  funext i
  fin_cases i
  · change (x 1 * n + x 0) % n = x 0
    rw [Nat.mul_comm, Nat.mul_add_mod, Nat.mod_eq_of_lt (hx 0)]
  · change (x 1 * n + x 0) / n = x 1
    rw [Nat.mul_comm, Nat.mul_add_div hpos, Nat.div_eq_of_lt (hx 0), Nat.add_zero]

lemma positionXYZ_number (n : ℕ) (x : Fin 3 → ℕ) (hx : ∀ i, x i < n) :
    positionXYZ n (numberXYZ n x) = x := by
  have hpos : 0 < n := (Nat.zero_le _).trans_lt (hx 0)
  have hlow : x 1 * n + x 0 < n * n := by
    calc x 1 * n + x 0 < x 1 * n + n := Nat.add_lt_add_left (hx 0) _
      _ = (x 1 + 1) * n := (Nat.succ_mul _ _).symm
      _ ≤ n * n := Nat.mul_le_mul_right n (hx 1)
  have hsum : numberXYZ n x = n * n * x 2 + (x 1 * n + x 0) := by
    rw [numberXYZ]
    ring
  funext i
  fin_cases i
  · change numberXYZ n x % n = x 0
    rw [hsum, Nat.mul_assoc, Nat.mul_add_mod, Nat.mul_comm, Nat.mul_add_mod,
      Nat.mod_eq_of_lt (hx 0)]
  · change numberXYZ n x % (n * n) / n = x 1
    rw [hsum, Nat.mul_add_mod, Nat.mod_eq_of_lt hlow, Nat.mul_comm, Nat.mul_add_div hpos,
      Nat.div_eq_of_lt (hx 0), Nat.add_zero]
  · change numberXYZ n x / (n * n) = x 2
    rw [hsum, Nat.mul_add_div (Nat.mul_pos hpos hpos), Nat.div_eq_of_lt hlow, Nat.add_zero]

lemma forall_fin_two {α : Fin 2 → Prop} : (∀ i, α i) ↔ α 0 ∧ α 1 := Fin.forall_fin_two

lemma forall_fin_three {α : Fin 3 → Prop} : (∀ i, α i) ↔ α 0 ∧ α 1 ∧ α 2 := by
  rw [Fin.forall_fin_succ, Fin.forall_fin_two]
  rfl

lemma mem_offsetsXY (o : Fin 2 → ℤ) : o ∈ offsetsXY ↔ ∀ i, o i = -1 ∨ o i = 0 ∨ o i = 1 := by
  simp only [offsetsXY, List.mem_flatMap, List.mem_map, List.mem_cons, List.not_mem_nil, or_false]
  constructor
  · rintro ⟨ox, hx, oy, hy, rfl⟩
    exact forall_fin_two.mpr ⟨hx, hy⟩
  · intro h
    exact ⟨o 0, h 0, o 1, h 1, List.ofFn_injective rfl⟩

lemma mem_offsetsXYZ (o : Fin 3 → ℤ) : o ∈ offsetsXYZ ↔ ∀ i, o i = -1 ∨ o i = 0 ∨ o i = 1 := by
  simp only [offsetsXYZ, List.mem_flatMap, List.mem_map, List.mem_cons, List.not_mem_nil, or_false]
  constructor
  · rintro ⟨ox, hx, oy, hy, oz, hz, rfl⟩
    exact forall_fin_three.mpr ⟨hx, hy, hz⟩
  · intro h
    exact ⟨o 0, h 0, o 1, h 1, o 2, h 2, List.ofFn_injective rfl⟩

lemma mem_childrenXY (o : Fin 2 → ℤ) (c : Fin 2 → ℕ) :
    c ∈ childrenXY o ↔ ∀ i, c i ∈ halves (o i) := by
  simp only [childrenXY, List.mem_flatMap, List.mem_map]
  constructor
  · rintro ⟨oox, hx, ooy, hy, rfl⟩
    exact forall_fin_two.mpr ⟨hx, hy⟩
  · intro h
    exact ⟨c 0, h 0, c 1, h 1, List.ofFn_injective rfl⟩

lemma mem_childrenXYZ (o : Fin 3 → ℤ) (c : Fin 3 → ℕ) :
    c ∈ childrenXYZ o ↔ ∀ i, c i ∈ halves (o i) := by
  simp only [childrenXYZ, List.mem_flatMap, List.mem_map]
  constructor
  · rintro ⟨oox, hx, ooy, hy, ooz, hz, rfl⟩
    exact forall_fin_three.mpr ⟨hx, hy, hz⟩
  · intro h
    exact ⟨c 0, h 0, c 1, h 1, c 2, h 2, List.ofFn_injective rfl⟩

lemma length_flatMap_le {α β : Type} {l : List α} {f : α → List β} {m n : ℕ} (hl : l.length ≤ m)
    (hf : ∀ a ∈ l, (f a).length ≤ n) : (l.flatMap f).length ≤ m * n := by
  rw [List.length_flatMap]
  refine (List.sum_le_card_nsmul _ n fun x hx => ?_).trans ?_
  · obtain ⟨a, ha, rfl⟩ := List.mem_map.mp hx
    exact hf a ha
  · rw [List.length_map, smul_eq_mul]
    exact Nat.mul_le_mul_right n hl

lemma length_childrenXY (o : Fin 2 → ℤ) : (childrenXY o).length ≤ 4 :=
  length_flatMap_le (m := 2) (n := 2) (length_halves _) fun _ _ => by
    rw [List.length_map]
    exact length_halves _

lemma length_childrenXYZ (o : Fin 3 → ℤ) : (childrenXYZ o).length ≤ 8 :=
  length_flatMap_le (m := 2) (n := 4) (length_halves _) fun _ _ =>
    length_flatMap_le (m := 2) (n := 2) (length_halves _) fun _ _ => by
      rw [List.length_map]
      exact length_halves _

def xy : Coordinates (Fin 2) 4 where
  curve := HilbertCurve.curve2
  number := numberXY
  position := positionXY
  offsets := offsetsXY
  children := childrenXY
  position_number := positionXY_number
  mem_offsets := mem_offsetsXY
  mem_children := mem_childrenXY
  length_children := length_childrenXY

def xyz : Coordinates (Fin 3) 8 where
  curve := HilbertCurve.curve3
  number := numberXYZ
  position := positionXYZ
  offsets := offsetsXYZ
  children := childrenXYZ
  position_number := positionXYZ_number
  mem_offsets := mem_offsetsXYZ
  mem_children := mem_childrenXYZ
  length_children := length_childrenXYZ

/-! ## The search for neighbours -/

namespace Coordinates

variable {ι : Type} {b : ℕ} [NeZero b] (C : Coordinates ι b) (S : Refinement b)

/-- `SpaceFillingCurve::SCFToXYZ`: the numbers of the refined cells in rows. -/
def refinedxyz : List (List ℕ) :=
  S.refinedsfc.mapIdx fun i level =>
    (level.map fun r => C.number (2 ^ i) (C.curve.cell i r)).mergeSort

/-- The loop of `getXYZBucket` from depth `d`, where `k` levels are left up to `depth`.  It has no
result if a level does not exist. -/
def bucketLoop (x : ι → ℕ) : ℕ → ℕ → ℕ → ℕ → Option (ℕ × ℕ)
  | 0, d, n, coarsenig => some (d, C.number n fun i => x i / coarsenig)
  | k + 1, d, n, coarsenig => do
    let bucket := (d, C.number n fun i => x i / coarsenig)
    let refined ← (C.refinedxyz S)[bucket.1]?
    if binarySearch refined bucket.2 then bucketLoop x k (d + 1) (n * 2) (coarsenig / 2)
    else some bucket

/-- `SpaceFillingCurve::getXYZBucket`: the largest bucket around a cell that is not refined, but at
least the cell itself. -/
def getXYZBucket (depth : ℕ) (x : ι → ℕ) : Option (ℕ × ℕ) :=
  C.bucketLoop S x depth 0 1 (2 ^ depth)

/-- The guard of the loop over potential neighbours: the bucket is refined.  The 3D function compares
`first + 1` with the number of levels and the 2D function `first`, which is the `margin`. -/
def refines (margin : ℕ) (p : ℕ × ℕ) : Bool :=
  decide (p.1 + margin < (C.refinedxyz S).length) &&
    binarySearch ((C.refinedxyz S).getD p.1 []) p.2

def finer (o : ι → ℤ) (p : ℕ × ℕ) : List (ℕ × ℕ) :=
  (C.children o).map fun c =>
    (p.1 + 1, C.number (2 ^ p.1 * 2) fun i => 2 * C.position (2 ^ p.1) p.2 i + c i)

def weight (p : ℕ × ℕ) : ℕ := (b + 1) ^ ((C.refinedxyz S).length + 1 - p.1)

lemma weight_finer {margin : ℕ} {o : ι → ℤ} {p : ℕ × ℕ} (h : C.refines S margin p = true) :
    ((C.finer o p).map (C.weight S)).sum < C.weight S p := by
  rw [refines, Bool.and_eq_true, decide_eq_true_eq] at h
  have hexp : (C.refinedxyz S).length + 1 - p.1 = (C.refinedxyz S).length + 1 - (p.1 + 1) + 1 := by
    omega
  have hconst : ((C.finer o p).map (C.weight S)).sum
      = (C.children o).length * (b + 1) ^ ((C.refinedxyz S).length + 1 - (p.1 + 1)) := by
    simp only [finer, List.map_map, Function.comp_def, weight, List.map_const', List.sum_replicate,
      smul_eq_mul]
  rw [hconst, weight, hexp, pow_succ']
  exact Nat.mul_lt_mul_of_pos_right (Nat.lt_succ_of_le (C.length_children o))
    (Nat.pow_pos (Nat.succ_pos b))

/-- The loop over potential neighbours: refined ones are replaced by their children at the end. -/
def potentialLoop (margin : ℕ) (o : ι → ℤ) : List (ℕ × ℕ) → List (ℕ × ℕ)
  | [] => []
  | p :: potential =>
    if C.refines S margin p then potentialLoop margin o (potential ++ C.finer o p)
    else p :: potentialLoop margin o potential
termination_by potential => (potential.map (C.weight S)).sum
decreasing_by
  · have := C.weight_finer S (o := o) ‹_›
    simp only [List.map_append, List.sum_append, List.map_cons, List.sum_cons]
    omega
  · have hpos : 0 < C.weight S p := Nat.pow_pos (Nat.succ_pos b)
    simp only [List.map_cons, List.sum_cons]
    omega

variable [Fintype ι]

/-- The cell next to `x`, if it is in the grid. -/
def shift (n : ℕ) (x : ι → ℕ) (o : ι → ℤ) : Option (ι → ℕ) :=
  if ∀ i, 0 ≤ x i + o i ∧ x i + o i < n then some fun i => (x i + o i).toNat else none

/-- **The neighbours of a cell**, as numbers in rows. -/
def addNeighbors (margin depth : ℕ) (x : ι → ℕ) : Option (List (ℕ × ℕ)) := do
  let neighbors ← C.offsets.mapM fun o =>
    match shift (2 ^ depth) x o with
    | some y => (C.getXYZBucket S depth y).map fun bucket => C.potentialLoop S margin o [bucket]
    | none => some []
  some neighbors.flatten

/-- `addSFCNeighbors` of a dimension: the number on the curve is converted to a cell, whose neighbours
are converted to numbers on the curve. -/
def addSFCNeighbors (addNeighbors : ℕ → (ι → ℕ) → Option (List (ℕ × ℕ))) (depth index : ℕ) :
    Option (List (ℕ × ℕ)) :=
  (addNeighbors depth (C.curve.cell depth index)).map fun neighbors =>
    neighbors.map fun p => (p.1, C.curve.index p.1 (C.position (2 ^ p.1) p.2))

/-! ## Refined cells -/

section Refined

omit [Fintype ι]

def Refined (d : ℕ) (x : ι → ℕ) : Prop := C.curve.index d x ∈ S.level d

instance (d : ℕ) (x : ι → ℕ) : Decidable (C.Refined S d x) := inferInstanceAs (Decidable (_ ∈ _))

lemma index_coarsen {d e : ℕ} (he : e ≤ d) (x : ι → ℕ) :
    C.curve.index e (coarsen (d - e) x) = C.curve.index d x / b ^ (d - e) := by
  obtain ⟨m, rfl⟩ := Nat.exists_eq_add_of_le he
  rw [Nat.add_sub_cancel_left, C.curve.index_div]
  rfl

lemma length_refinedxyz : (C.refinedxyz S).length = S.refinedsfc.length := List.length_mapIdx

lemma getD_refinedxyz (d : ℕ) : (C.refinedxyz S).getD d []
    = ((S.level d).map fun r => C.number (2 ^ d) (C.curve.cell d r)).mergeSort := by
  rw [List.getD_eq_getElem?_getD, refinedxyz, List.getElem?_mapIdx, Refinement.level,
    List.getD_eq_getElem?_getD]
  rcases S.refinedsfc[d]? with _ | level
  · exact List.mergeSort_nil.symm
  · rfl

lemma binarySearch_refinedxyz {d : ℕ} {x : ι → ℕ} (hx : ∀ i, x i < 2 ^ d) :
    binarySearch ((C.refinedxyz S).getD d []) (C.number (2 ^ d) x) = true ↔ C.Refined S d x := by
  have hsorted : (((S.level d).map fun r => C.number (2 ^ d) (C.curve.cell d r)).mergeSort).Pairwise
      (· ≤ ·) := List.pairwise_mergeSort' _ _
  rw [getD_refinedxyz, binarySearch_iff hsorted, List.mem_mergeSort, List.mem_map]
  constructor
  · rintro ⟨r, hr, hnumber⟩
    have hcell : C.curve.cell d r = x := by
      rw [← C.position_number _ x hx, ← hnumber, C.position_number _ _ (C.curve.cell_lt d r)]
    rw [Refined, ← hcell, C.curve.index_cell, Nat.mod_eq_of_lt (S.lt_of_mem_level hr)]
    exact hr
  · intro h
    refine ⟨_, h, ?_⟩
    rw [C.curve.cell_index]
    exact congrArg _ (funext fun i => Nat.mod_eq_of_lt (hx i))

/-- **The bucket around a cell**: all around it are refined, and it is not, unless it is the cell. -/
structure Around (depth : ℕ) (x : ι → ℕ) (e : ℕ) : Prop where
  le : e ≤ depth
  refined : ∀ j < e, C.Refined S j (coarsen (depth - j) x)
  not_refined : e < depth → ¬C.Refined S e (coarsen (depth - e) x)

lemma bucketLoop_spec {depth k d : ℕ} {x : ι → ℕ} (hdepth : depth ≤ S.depth)
    (hx : ∀ i, x i < 2 ^ depth) (hk : d + k = depth)
    (hrefined : ∀ j < d, C.Refined S j (coarsen (depth - j) x)) :
    ∃ e, C.Around S depth x e ∧ C.bucketLoop S x k d (2 ^ d) (2 ^ k)
      = some (e, C.number (2 ^ e) (coarsen (depth - e) x)) := by
  induction k generalizing d with
  | zero =>
      obtain rfl : d = depth := hk
      refine ⟨d, ⟨le_rfl, hrefined, fun h => absurd h (lt_irrefl d)⟩, ?_⟩
      rw [bucketLoop, Nat.sub_self]
      rfl
  | succ k ih =>
      have hd : depth - d = k + 1 := by omega
      have hlt : d < S.refinedsfc.length := by
        refine S.lt_length_of_parent (r := C.curve.index d (coarsen (k + 1) x)) (by omega)
          fun j hj => ?_
        have hsum : k + 1 + (d - j) = depth - j := by omega
        rw [← C.index_coarsen hj.le, coarsen_coarsen, hsum]
        exact hrefined j hj
      have hget : (C.refinedxyz S)[d]? = some ((C.refinedxyz S).getD d []) := by
        rw [List.getD_eq_getElem?_getD, List.getElem?_eq_getElem (by rwa [length_refinedxyz])]
        rfl
      have hcell := C.binarySearch_refinedxyz S (coarsen_lt (e := d) (by omega) hx)
      rw [hd] at hcell
      have hfold : (fun i => x i / 2 ^ (k + 1)) = coarsen (k + 1) x := rfl
      simp only [bucketLoop, hget, hfold, Option.bind_eq_bind, Option.bind_some]
      by_cases hr : C.Refined S d (coarsen (k + 1) x)
      · rw [if_pos (hcell.mpr hr)]
        have hhalf : 2 ^ (k + 1) / 2 = 2 ^ k := by rw [pow_succ, Nat.mul_div_cancel _ Nat.two_pos]
        rw [hhalf, ← pow_succ]
        refine ih (by omega) fun j hj => ?_
        rcases Nat.lt_succ_iff_lt_or_eq.mp hj with hj | rfl
        · exact hrefined j hj
        · rwa [hd]
      · refine ⟨d, ⟨by omega, hrefined, fun _ => hd ▸ hr⟩, ?_⟩
        rw [if_neg fun h => hr (hcell.mp h), hd]

lemma getXYZBucket_spec {depth : ℕ} {x : ι → ℕ} (hdepth : depth ≤ S.depth)
    (hx : ∀ i, x i < 2 ^ depth) : ∃ e, C.Around S depth x e ∧
      C.getXYZBucket S depth x = some (e, C.number (2 ^ e) (coarsen (depth - e) x)) :=
  C.bucketLoop_spec S hdepth hx (Nat.zero_add depth) fun _ hj => absurd hj (Nat.not_lt_zero _)

omit [NeZero b] in
variable {C S} in
lemma Around.unique {depth e e' : ℕ} {x : ι → ℕ} (h : C.Around S depth x e)
    (h' : C.Around S depth x e') : e = e' := by
  have hle : ∀ {e e' : ℕ}, C.Around S depth x e → C.Around S depth x e' → e ≤ e' := by
    intro e e' h h'
    refine Nat.le_of_not_lt fun hlt => ?_
    exact h'.not_refined (hlt.trans_le h.le) (h.refined e' hlt)
  exact le_antisymm (hle h h') (hle h' h)

/-! ## The descent to finer cells -/

/-- A refined cell that the loop over potential neighbours replaces by its children. -/
def Replaced (margin d : ℕ) (x : ι → ℕ) : Prop :=
  d + margin < S.refinedsfc.length ∧ C.Refined S d x

instance (margin d : ℕ) (x : ι → ℕ) : Decidable (C.Replaced S margin d x) :=
  inferInstanceAs (Decidable (_ ∧ _))

/-- **The cells that the descent reaches**: a cell that is not replaced, or one below a child. -/
inductive Below (margin : ℕ) (o : ι → ℤ) : ℕ → (ι → ℕ) → ℕ → (ι → ℕ) → Prop
  | leaf {d : ℕ} {x : ι → ℕ} : ¬C.Replaced S margin d x → Below margin o d x d x
  | child {d e : ℕ} {x c y : ι → ℕ} : C.Replaced S margin d x → (∀ i, IsHalf (o i) (c i)) →
      Below margin o (d + 1) (fun i => 2 * x i + c i) e y → Below margin o d x e y

omit [NeZero b] in
variable {C S} in
lemma below_iff_of_replaced {margin d e : ℕ} {o : ι → ℤ} {x y : ι → ℕ}
    (h : C.Replaced S margin d x) : C.Below S margin o d x e y ↔
      ∃ c : ι → ℕ, (∀ i, IsHalf (o i) (c i)) ∧
        C.Below S margin o (d + 1) (fun i => 2 * x i + c i) e y := by
  constructor
  · intro hbelow
    cases hbelow with
    | leaf hnot => exact absurd h hnot
    | child _ hc hbelow => exact ⟨_, hc, hbelow⟩
  · rintro ⟨c, hc, hbelow⟩
    exact .child h hc hbelow

omit [NeZero b] in
variable {C S} in
lemma below_iff_of_not_replaced {margin d e : ℕ} {o : ι → ℤ} {x y : ι → ℕ}
    (h : ¬C.Replaced S margin d x) : C.Below S margin o d x e y ↔ d = e ∧ x = y := by
  constructor
  · intro hbelow
    cases hbelow with
    | leaf _ => exact ⟨rfl, rfl⟩
    | child hreplaced _ _ => exact absurd hreplaced h
  · rintro ⟨rfl, rfl⟩
    exact .leaf h

def cellOf (p : ℕ × ℕ) : ι → ℕ := C.position (2 ^ p.1) p.2

def IsCell (p : ℕ × ℕ) : Prop := ∃ x, (∀ i, x i < 2 ^ p.1) ∧ p.2 = C.number (2 ^ p.1) x

omit [NeZero b] in
lemma cellOf_number {d : ℕ} {x : ι → ℕ} (hx : ∀ i, x i < 2 ^ d) :
    C.cellOf (d, C.number (2 ^ d) x) = x := C.position_number _ x hx

omit [NeZero b] in
variable {C} in
lemma IsCell.cellOf_lt {p : ℕ × ℕ} (h : C.IsCell p) (i : ι) : C.cellOf p i < 2 ^ p.1 := by
  obtain ⟨x, hx, hp⟩ := h
  rw [cellOf, hp, C.position_number _ x hx]
  exact hx i

omit [NeZero b] in
variable {C} in
lemma IsCell.number_cellOf {p : ℕ × ℕ} (h : C.IsCell p) :
    C.number (2 ^ p.1) (C.cellOf p) = p.2 := by
  obtain ⟨x, hx, hp⟩ := h
  rw [cellOf, hp, C.position_number _ x hx]

omit [NeZero b] in
variable {C} in
lemma IsCell.ext {p q : ℕ × ℕ} (hp : C.IsCell p) (hq : C.IsCell q) (hdepth : p.1 = q.1)
    (hcell : C.cellOf p = C.cellOf q) : p = q :=
  Prod.ext hdepth (by rw [← hp.number_cellOf, ← hq.number_cellOf, hdepth, hcell])

lemma refines_iff {margin : ℕ} {p : ℕ × ℕ} (h : C.IsCell p) :
    C.refines S margin p = true ↔ C.Replaced S margin p.1 (C.cellOf p) := by
  rw [refines, Bool.and_eq_true, decide_eq_true_eq, length_refinedxyz, Replaced,
    ← C.binarySearch_refinedxyz S h.cellOf_lt, h.number_cellOf]

omit [NeZero b] in
lemma child_lt {o : ℤ} {p : ℕ × ℕ} (h : C.IsCell p) {c : ℕ} (hc : IsHalf o c) {i : ι} :
    2 * C.cellOf p i + c < 2 ^ (p.1 + 1) := by
  have hcell := h.cellOf_lt i
  have hhalf := hc.1
  rw [pow_succ]
  omega

omit [NeZero b] in
lemma mem_finer {o : ι → ℤ} {p q : ℕ × ℕ} (h : C.IsCell p) :
    q ∈ C.finer o p ↔ C.IsCell q ∧ q.1 = p.1 + 1 ∧
      ∃ c : ι → ℕ, (∀ i, IsHalf (o i) (c i)) ∧ C.cellOf q = fun i => 2 * C.cellOf p i + c i := by
  have hlt : ∀ c : ι → ℕ, (∀ i, IsHalf (o i) (c i)) → ∀ i, 2 * C.cellOf p i + c i < 2 ^ (p.1 + 1) :=
    fun c hc i => C.child_lt h (hc i)
  rw [finer, List.mem_map]
  constructor
  · rintro ⟨c, hc, rfl⟩
    have hc := fun i => mem_halves.mp ((C.mem_children o c).mp hc i)
    exact ⟨⟨_, hlt c hc, rfl⟩, rfl, c, hc, C.cellOf_number (hlt c hc)⟩
  · rintro ⟨hq, hdepth, c, hc, hcell⟩
    refine ⟨c, (C.mem_children o c).mpr fun i => mem_halves.mpr (hc i), Prod.ext hdepth.symm ?_⟩
    rw [← hq.number_cellOf, hcell, hdepth, pow_succ]
    rfl

lemma mem_potentialLoop {margin : ℕ} {o : ι → ℤ} {potential : List (ℕ × ℕ)} {q : ℕ × ℕ}
    (h : ∀ p ∈ potential, C.IsCell p) :
    q ∈ C.potentialLoop S margin o potential ↔ C.IsCell q ∧
      ∃ p ∈ potential, C.Below S margin o p.1 (C.cellOf p) q.1 (C.cellOf q) := by
  induction potential using potentialLoop.induct C S margin o with
  | case1 => simp [potentialLoop]
  | case2 p potential hrefines ih =>
      have hp := h p List.mem_cons_self
      have hreplaced := (C.refines_iff S hp).mp hrefines
      have hfiner : ∀ {q'}, q' ∈ C.finer o p → C.IsCell q' := fun hq => ((C.mem_finer hp).mp hq).1
      rw [potentialLoop, if_pos hrefines, ih fun p' hp' => (List.mem_append.mp hp').elim
        (fun hp' => h p' (.tail p hp')) hfiner]
      refine and_congr_right fun _ => ?_
      simp only [List.mem_append, List.mem_cons, or_and_right, exists_or, exists_eq_left]
      rw [or_comm, below_iff_of_replaced hreplaced]
      refine or_congr_left ?_
      constructor
      · rintro ⟨p', hmem, hbelow⟩
        obtain ⟨-, hdepth, c, hc, hcell⟩ := (C.mem_finer hp).mp hmem
        rw [hdepth, hcell] at hbelow
        exact ⟨c, hc, hbelow⟩
      · rintro ⟨c, hc, hbelow⟩
        have hlt : ∀ i, 2 * C.cellOf p i + c i < 2 ^ (p.1 + 1) := fun i => C.child_lt hp (hc i)
        refine ⟨(p.1 + 1, C.number (2 ^ (p.1 + 1)) fun i => 2 * C.cellOf p i + c i), ?_, ?_⟩
        · exact (C.mem_finer hp).mpr ⟨⟨_, hlt, rfl⟩, rfl, c, hc, C.cellOf_number hlt⟩
        · rw [C.cellOf_number hlt]
          exact hbelow
  | case3 p potential hrefines ih =>
      have hp := h p List.mem_cons_self
      have hreplaced := fun hr => hrefines ((C.refines_iff S hp).mpr hr)
      rw [potentialLoop, if_neg hrefines, List.mem_cons, ih fun p' hp' => h p' (.tail p hp')]
      simp only [List.mem_cons, or_and_right, exists_or, exists_eq_left]
      rw [and_or_left, below_iff_of_not_replaced hreplaced]
      refine or_congr_left ⟨?_, ?_⟩
      · rintro rfl
        exact ⟨hp, rfl, rfl⟩
      · rintro ⟨hq, hdepth, hcell⟩
        exact hq.ext hp hdepth.symm hcell.symm

omit [NeZero b] in
variable {C S} in
lemma below_iff {margin d f : ℕ} {o : ι → ℤ} {x w : ι → ℕ} : C.Below S margin o d x f w ↔
    d ≤ f ∧ (∀ i, AtSide (o i) (2 ^ (f - d)) (x i) (w i)) ∧
      (∀ j, d ≤ j → j < f → C.Replaced S margin j (coarsen (f - j) w)) ∧
      ¬C.Replaced S margin f w := by
  constructor
  · intro h
    induction h with
    | leaf hnot =>
        refine ⟨le_rfl, fun i => ?_, fun j hj hlt => absurd hlt (Nat.not_lt.mpr hj), hnot⟩
        rw [Nat.sub_self, pow_zero, atSide_one]
    | @child d f x c w hreplaced hc _ ih =>
        obtain ⟨hle, hside, hbetween, hnot⟩ := ih
        have hpow : 2 ^ (f - d) = 2 * 2 ^ (f - (d + 1)) := by
          rw [← pow_succ', show f - d = f - (d + 1) + 1 by omega]
        have hside' : ∀ i, AtSide _ (2 ^ (f - d)) (x i) (w i) := fun i => by
          rw [hpow]
          exact (atSide_two_mul (Nat.two_pow_pos _)).mpr ⟨c i, hc i, hside i⟩
        refine ⟨by omega, hside', fun j hj hlt => ?_, hnot⟩
        rcases Nat.lt_or_eq_of_le hj with hj | rfl
        · exact hbetween j hj hlt
        · rwa [show coarsen (f - d) w = x from funext fun i => (hside' i).1]
  · rintro ⟨hle, hside, hbetween, hnot⟩
    induction hk : f - d generalizing d x with
    | zero =>
        obtain rfl : d = f := by omega
        rw [Nat.sub_self, pow_zero] at hside
        obtain rfl : w = x := funext fun i => atSide_one.mp (hside i)
        exact .leaf hnot
    | succ k ih =>
        have hpow : 2 ^ (f - d) = 2 * 2 ^ (f - (d + 1)) := by
          rw [← pow_succ', show f - d = f - (d + 1) + 1 by omega]
        have hx : coarsen (f - d) w = x := funext fun i => (hside i).1
        rw [hpow] at hside
        choose c hc hside using fun i => (atSide_two_mul (Nat.two_pow_pos _)).mp (hside i)
        refine .child (hx ▸ hbetween d le_rfl (by omega)) hc ?_
        exact ih (by omega) hside (fun j hj hlt => hbetween j (by omega) hlt) (by omega)

omit [NeZero b] in
variable {C S} in
lemma replaced_iff {margin j : ℕ} {x : ι → ℕ} (hmargin : margin ≤ 1) (hj : j < S.depth) :
    C.Replaced S margin j x ↔ C.Refined S j x := by
  refine ⟨fun h => h.2, fun h => ⟨?_, h⟩⟩
  have := S.succ_lt_length h hj
  omega

variable {C S} in
lemma leaf_iff {d : ℕ} {x : ι → ℕ} : S.Leaf d (C.curve.index d x) ↔ d ≤ S.depth ∧
    (∀ j < d, C.Refined S j (coarsen (d - j) x)) ∧ (d < S.depth → ¬C.Refined S d x) := by
  have hindex : ∀ j < d, C.Refined S j (coarsen (d - j) x)
      ↔ C.curve.index d x / b ^ (d - j) ∈ S.level j := fun j hj => by
    rw [Refined, C.index_coarsen hj.le]
  constructor
  · intro h
    exact ⟨h.le_depth, fun j hj => (hindex j hj).mpr (h.refined j hj), h.not_refined⟩
  · rintro ⟨hle, hrefined, hnot⟩
    exact ⟨hle, C.curve.index_lt d x, fun j hj => (hindex j hj).mp (hrefined j hj), hnot⟩

/-- The cells that the search reaches from the cell `x`: below the bucket around a neighbour. -/
def Reached (margin d : ℕ) (x : ι → ℕ) (f : ℕ) (w : ι → ℕ) : Prop :=
  ∃ (o : ι → ℤ) (y : ι → ℕ) (e : ℕ), (∀ i, o i = -1 ∨ o i = 0 ∨ o i = 1) ∧
    (∀ i, (y i : ℤ) = x i + o i) ∧ (∀ i, y i < 2 ^ d) ∧ C.Around S d y e ∧
    C.Below S margin o e (coarsen (d - e) y) f w

variable {C S} in
lemma Reached.leaf {margin d f : ℕ} {x w : ι → ℕ} (hmargin : margin ≤ 1) (hd : d ≤ S.depth)
    (hf : f ≤ S.depth) (h : C.Reached S margin d x f w) :
    S.Leaf f (C.curve.index f w) ∧ Touches d x f w := by
  obtain ⟨o, y, e, ho, hy, -, haround, hbelow⟩ := h
  rcases Nat.lt_or_ge e d with hed | hde
  · -- the bucket around the neighbour is a leaf
    have hnot := haround.not_refined hed
    have hreplaced := mt (replaced_iff hmargin (hed.trans_le hd)).mp hnot
    obtain ⟨rfl, rfl⟩ := (below_iff_of_not_replaced hreplaced).mp hbelow
    refine ⟨leaf_iff.mpr ⟨hed.le.trans hd, fun j hj => ?_, fun _ => hnot⟩, ?_⟩
    · rw [coarsen_coarsen, show d - e + (e - j) = d - j by omega]
      exact haround.refined j hj
    · refine ((touches_of_le hed.le).mpr fun i => ?_).symm
      exact ((touch_iff_around (Nat.two_pow_pos _)).mpr ⟨o i, ho i, y i, hy i, rfl⟩).symm
  · -- the descent begins at the neighbour
    obtain rfl : d = e := le_antisymm hde haround.le
    rw [Nat.sub_self, coarsen_zero] at hbelow
    obtain ⟨hdf, hside, hbetween, hnot⟩ := below_iff.mp hbelow
    have htouches : Touches d x f w := (touches_of_le hdf).mpr fun i =>
      (touch_iff_atSide (Nat.two_pow_pos _)).mpr ⟨o i, ho i, y i, hy i, hside i⟩
    have hy : coarsen (f - d) w = y := funext fun i => (hside i).1
    refine ⟨leaf_iff.mpr ⟨hf, fun j hj => ?_, fun hlt => mt (replaced_iff hmargin hlt).mpr hnot⟩,
      htouches⟩
    rcases Nat.lt_or_ge j d with hjd | hdj
    · have hrefined := haround.refined j hjd
      rwa [← hy, coarsen_coarsen, show f - d + (d - j) = f - j by omega] at hrefined
    · exact (hbetween j hdj hj).2

omit [NeZero b] in
variable {C S} in
lemma Reached.le_depth {margin d f : ℕ} {x w : ι → ℕ} (hd : d ≤ S.depth)
    (hlast : ∀ z, (∀ i, z i < 2 ^ S.depth) → Touches d x S.depth z → ¬C.Replaced S margin S.depth z)
    (hw : ∀ i, w i < 2 ^ f) (h : C.Reached S margin d x f w) : f ≤ S.depth := by
  obtain ⟨o, y, e, ho, hy, -, haround, hbelow⟩ := h
  rcases Nat.lt_or_ge e d with hed | hde
  · have hreplaced : ¬C.Replaced S margin e (coarsen (d - e) y) := fun h =>
      haround.not_refined hed h.2
    obtain ⟨rfl, -⟩ := (below_iff_of_not_replaced hreplaced).mp hbelow
    exact haround.le.trans hd
  · obtain rfl : d = e := le_antisymm hde haround.le
    rw [Nat.sub_self, coarsen_zero] at hbelow
    obtain ⟨hdf, hside, hbetween, -⟩ := below_iff.mp hbelow
    have htouches : Touches d x f w := (touches_of_le hdf).mpr fun i =>
      (touch_iff_atSide (Nat.two_pow_pos _)).mpr ⟨o i, ho i, y i, hy i, hside i⟩
    by_contra hlt
    have hcell := coarsen_lt (Nat.le_of_not_le hlt) hw
    exact hlast _ hcell (htouches.coarsen (Nat.le_of_not_le hlt))
      (hbetween S.depth hd (Nat.lt_of_not_le hlt))

variable {C S} in
lemma Reached.of_touches {margin d f : ℕ} {x w : ι → ℕ} (hmargin : margin ≤ 1) (hd : d ≤ S.depth)
    (hreplaced : ¬C.Replaced S margin f w) (hw : ∀ i, w i < 2 ^ f)
    (hleaf : S.Leaf f (C.curve.index f w)) (htouches : Touches d x f w) :
    C.Reached S margin d x f w := by
  obtain ⟨hf, hrefined, hnot⟩ := leaf_iff.mp hleaf
  rcases Nat.lt_or_ge f d with hfd | hdf
  · have htouch := fun i => (touch_iff_around (Nat.two_pow_pos _)).mp
      ((touches_of_le hfd.le).mp htouches.symm i).symm
    choose o ho y hy hyw using htouch
    have hcoarsen : coarsen (d - f) y = w := funext hyw
    refine ⟨o, y, f, ho, hy, fun i => ?_, ⟨hfd.le, fun j hj => ?_, fun _ => ?_⟩, ?_⟩
    · have hlt := hw i
      rw [← hyw, Nat.div_lt_iff_lt_mul (Nat.two_pow_pos _), ← pow_add,
        Nat.add_sub_cancel' hfd.le] at hlt
      exact hlt
    · have := hrefined j hj
      rwa [← hcoarsen, coarsen_coarsen, show d - f + (f - j) = d - j by omega] at this
    · rw [hcoarsen]
      exact hnot (hfd.trans_le hd)
    · rw [hcoarsen]
      exact .leaf hreplaced
  · have htouch := fun i => (touch_iff_atSide (Nat.two_pow_pos _)).mp
      ((touches_of_le hdf).mp htouches i)
    choose o ho y hy hside using htouch
    have hcoarsen : coarsen (f - d) w = y := funext fun i => (hside i).1
    refine ⟨o, y, d, ho, hy, fun i => ?_, ⟨le_rfl, fun j hj => ?_, fun h => absurd h (lt_irrefl d)⟩,
      ?_⟩
    · rw [← hcoarsen]
      exact coarsen_lt hdf hw i
    · rw [← hcoarsen, coarsen_coarsen, show f - d + (d - j) = f - j by omega]
      exact hrefined j (hj.trans_le hdf)
    · rw [Nat.sub_self, coarsen_zero]
      refine below_iff.mpr ⟨hdf, hside, fun j _ hj => ?_, hreplaced⟩
      exact (replaced_iff hmargin (hj.trans_le hf)).mpr (hrefined j hj)

omit [NeZero b] in
variable {C S} in
lemma Reached.not_replaced {margin d f : ℕ} {x w : ι → ℕ} (h : C.Reached S margin d x f w) :
    ¬C.Replaced S margin f w := by
  obtain ⟨_, _, _, _, _, _, _, hbelow⟩ := h
  exact (below_iff.mp hbelow).2.2.2

end Refined

omit [NeZero b] in
lemma shift_eq_some {n : ℕ} {x y : ι → ℕ} {o : ι → ℤ} :
    shift n x o = some y ↔ (∀ i, (y i : ℤ) = x i + o i) ∧ ∀ i, y i < n := by
  rw [shift]
  split_ifs with h
  · rw [Option.some.injEq]
    constructor
    · rintro rfl
      refine ⟨fun i => Int.toNat_of_nonneg (h i).1, fun i => ?_⟩
      have := h i
      beta_reduce
      omega
    · rintro ⟨hy, -⟩
      funext i
      rw [← hy i, Int.toNat_natCast]
  · refine ⟨fun hnone => absurd hnone (by simp), fun hy => absurd (fun i => ?_) h⟩
    have := hy.1 i
    have := hy.2 i
    omega

lemma addNeighbors_spec (margin : ℕ) {depth : ℕ} (hdepth : depth ≤ S.depth) (x : ι → ℕ) :
    ∃ l, C.addNeighbors S margin depth x = some l ∧
      ∀ q, q ∈ l ↔ C.IsCell q ∧ C.Reached S margin depth x q.1 (C.cellOf q) := by
  have hstep : ∀ o ∈ C.offsets, ∃ l, (match shift (2 ^ depth) x o with
      | some y => (C.getXYZBucket S depth y).map fun bucket => C.potentialLoop S margin o [bucket]
      | none => some []) = some l ∧ ∀ q, q ∈ l ↔ C.IsCell q ∧ ∃ y e, (∀ i, (y i : ℤ) = x i + o i) ∧
        (∀ i, y i < 2 ^ depth) ∧ C.Around S depth y e ∧
        C.Below S margin o e (coarsen (depth - e) y) q.1 (C.cellOf q) := by
    intro o _
    rcases hshift : shift (2 ^ depth) x o with _ | y
    · refine ⟨[], rfl, fun q => ?_⟩
      simp only [List.not_mem_nil, false_iff, not_and, not_exists]
      intro _ y e hy hlt
      rw [shift_eq_some.mpr ⟨hy, hlt⟩] at hshift
      exact absurd hshift (by simp)
    · obtain ⟨hy, hlt⟩ := shift_eq_some.mp hshift
      obtain ⟨e, haround, hbucket⟩ := C.getXYZBucket_spec S hdepth hlt
      have hcell := coarsen_lt haround.le hlt
      refine ⟨C.potentialLoop S margin o [(e, C.number (2 ^ e) (coarsen (depth - e) y))],
        by simp only [hbucket, Option.map_some], fun q => ?_⟩
      rw [mem_potentialLoop]
      · refine and_congr_right fun _ => ?_
        simp only [List.mem_singleton, exists_eq_left, C.cellOf_number hcell]
        constructor
        · exact fun hbelow => ⟨y, e, hy, hlt, haround, hbelow⟩
        · rintro ⟨y', e', hy', -, haround', hbelow⟩
          obtain rfl : y = y' := funext fun i => by have := hy i; have := hy' i; omega
          obtain rfl := haround.unique haround'
          exact hbelow
      · intro p hp
        rw [List.mem_singleton.mp hp]
        exact ⟨_, hcell, rfl⟩
  obtain ⟨ls, hls⟩ := Fallible.exists_mapM fun o ho => (hstep o ho).imp fun _ h => h.1
  refine ⟨ls.flatten, by simp only [addNeighbors, hls, Option.bind_eq_bind, Option.bind_some],
    fun q => ?_⟩
  rw [List.mem_flatten]
  constructor
  · rintro ⟨l, hl, hq⟩
    obtain ⟨o, ho, hol⟩ := (Fallible.mem_mapM hls).mp hl
    obtain ⟨l', hl', hmem⟩ := hstep o ho
    obtain rfl : l = l' := Option.some_injective _ (hol.symm.trans hl')
    obtain ⟨hcell, y, e, hy, hlt, haround, hbelow⟩ := (hmem q).mp hq
    exact ⟨hcell, o, y, e, (C.mem_offsets o).mp ho, hy, hlt, haround, hbelow⟩
  · rintro ⟨hcell, o, y, e, ho, hy, hlt, haround, hbelow⟩
    obtain ⟨l, hl, hmem⟩ := hstep o ((C.mem_offsets o).mpr ho)
    exact ⟨l, (Fallible.mem_mapM hls).mpr ⟨o, (C.mem_offsets o).mpr ho, hl⟩,
      (hmem q).mpr ⟨hcell, y, e, hy, hlt, haround, hbelow⟩⟩

/-! ## The neighbours of a leaf -/

def SharesCorner (p q : ℕ × ℕ) : Prop :=
  Touches p.1 (C.curve.cell p.1 p.2) q.1 (C.curve.cell q.1 q.2)

omit [Fintype ι] in
lemma cell_index_of_lt {d : ℕ} {x : ι → ℕ} (hx : ∀ i, x i < 2 ^ d) :
    C.curve.cell d (C.curve.index d x) = x := by
  rw [C.curve.cell_index]
  exact funext fun i => Nat.mod_eq_of_lt (hx i)

omit [Fintype ι] in
lemma index_cell_of_lt {d r : ℕ} (hr : r < b ^ d) : C.curve.index d (C.curve.cell d r) = r := by
  rw [C.curve.index_cell, Nat.mod_eq_of_lt hr]

lemma addSFCNeighbors_spec (margin : ℕ) {depth : ℕ} (hdepth : depth ≤ S.depth) (index : ℕ) :
    ∃ l, C.addSFCNeighbors (C.addNeighbors S margin) depth index = some l ∧ ∀ q, q ∈ l ↔ q.2 < b ^ q.1 ∧
      C.Reached S margin depth (C.curve.cell depth index) q.1 (C.curve.cell q.1 q.2) := by
  obtain ⟨l, hl, hmem⟩ := C.addNeighbors_spec S margin hdepth (C.curve.cell depth index)
  refine ⟨_, by rw [addSFCNeighbors, hl]; rfl, fun q => ?_⟩
  rw [List.mem_map]
  constructor
  · rintro ⟨p, hp, rfl⟩
    obtain ⟨hcell, hreached⟩ := (hmem p).mp hp
    refine ⟨C.curve.index_lt _ _, ?_⟩
    change C.Reached S margin depth _ p.1 (C.curve.cell p.1 (C.curve.index p.1 (C.cellOf p)))
    rwa [C.cell_index_of_lt hcell.cellOf_lt]
  · rintro ⟨hlt, hreached⟩
    have hcell := C.curve.cell_lt q.1 q.2
    refine ⟨(q.1, C.number (2 ^ q.1) (C.curve.cell q.1 q.2)), ?_, ?_⟩
    · rw [hmem, C.cellOf_number hcell]
      exact ⟨⟨_, hcell, rfl⟩, hreached⟩
    · change (q.1, C.curve.index q.1 (C.cellOf (q.1, _))) = q
      rw [C.cellOf_number hcell, C.index_cell_of_lt hlt]

/-- A leaf that is a refined bucket of the last level, where the search replaces it. -/
def Overrun (margin : ℕ) (q : ℕ × ℕ) : Prop :=
  q.1 = S.depth ∧ q.2 ∈ S.level S.depth ∧ S.depth + margin < S.refinedsfc.length

omit [Fintype ι] in
lemma replaced_cell_iff {margin : ℕ} {q : ℕ × ℕ} (hleaf : S.Leaf q.1 q.2) :
    C.Replaced S margin q.1 (C.curve.cell q.1 q.2) ↔ Overrun S margin q := by
  have hindex := C.index_cell_of_lt hleaf.index_lt
  rw [Replaced, Refined, hindex, Overrun]
  constructor
  · rintro ⟨hlt, hmem⟩
    obtain heq : q.1 = S.depth := by
      refine (Nat.lt_or_eq_of_le hleaf.le_depth).resolve_left fun h => ?_
      exact hleaf.not_refined h hmem
    exact ⟨heq, heq ▸ hmem, heq ▸ hlt⟩
  · rintro ⟨heq, hmem, hlt⟩
    exact ⟨heq ▸ hlt, heq ▸ hmem⟩

/-- **What `addSFCNeighbors` finds in the levels**: the leaves with a common corner, except for those
that are replaced.  Everything else lies behind the last level. -/
lemma addSFCNeighbors_leaf {margin d index : ℕ} (hmargin : margin ≤ 1) (hleaf : S.Leaf d index) :
    ∃ l, C.addSFCNeighbors (C.addNeighbors S margin) d index = some l ∧ ∀ q, q.1 ≤ S.depth →
      (q ∈ l ↔ S.Leaf q.1 q.2 ∧ C.SharesCorner (d, index) q ∧ ¬Overrun S margin q) := by
  obtain ⟨l, hl, hmem⟩ := C.addSFCNeighbors_spec S margin hleaf.le_depth index
  refine ⟨l, hl, fun q hq => (hmem q).trans ?_⟩
  have hcell := C.curve.cell_lt q.1 q.2
  constructor
  · rintro ⟨hlt, hreached⟩
    obtain ⟨hleaf', htouches⟩ := hreached.leaf hmargin hleaf.le_depth hq
    rw [C.index_cell_of_lt hlt] at hleaf'
    exact ⟨hleaf', htouches, mt (C.replaced_cell_iff S hleaf').mpr hreached.not_replaced⟩
  · rintro ⟨hleaf', hshares, hoverrun⟩
    refine ⟨hleaf'.index_lt, Reached.of_touches hmargin hleaf.le_depth ?_ hcell ?_ hshares⟩
    · exact mt (C.replaced_cell_iff S hleaf').mp hoverrun
    · rwa [C.index_cell_of_lt hleaf'.index_lt]

/-- **The neighbours found are the leaves with a common corner** exactly if the search does not replace
a cell of the last level that has a common corner. -/
theorem addSFCNeighbors_iff (margin : ℕ) {d index : ℕ} (hmargin : margin ≤ 1) (hleaf : S.Leaf d index) :
    (∃ l, C.addSFCNeighbors (C.addNeighbors S margin) d index = some l ∧
      ∀ q, q ∈ l ↔ S.Leaf q.1 q.2 ∧ C.SharesCorner (d, index) q) ↔
    ∀ r ∈ S.level S.depth, S.depth + margin < S.refinedsfc.length →
      ¬C.SharesCorner (d, index) (S.depth, r) := by
  obtain ⟨l, hl, hmem⟩ := C.addSFCNeighbors_leaf S hmargin hleaf
  constructor
  · rintro ⟨l', hl', hmem'⟩ r hr hlt hshares
    obtain rfl : l = l' := Option.some_injective _ (hl.symm.trans hl')
    have hrleaf : S.Leaf S.depth r :=
      ⟨le_rfl, S.lt_of_mem_level hr, fun j hj => S.ancestor hr hj.le, fun h => absurd h (lt_irrefl _)⟩
    have hfound := (hmem' (S.depth, r)).mpr ⟨hrleaf, hshares⟩
    exact ((hmem _ le_rfl).mp hfound).2.2 ⟨rfl, hr, hlt⟩
  · intro h
    have hlast : ∀ z, (∀ i, z i < 2 ^ S.depth) → Touches d (C.curve.cell d index) S.depth z →
        ¬C.Replaced S margin S.depth z := by
      rintro z hz htouches ⟨hlt, hrefined⟩
      refine h _ hrefined hlt ?_
      rwa [SharesCorner, C.cell_index_of_lt hz]
    obtain ⟨l', hl', hmem'⟩ := C.addSFCNeighbors_spec S margin hleaf.le_depth index
    obtain rfl : l = l' := Option.some_injective _ (hl.symm.trans hl')
    refine ⟨l, hl, fun q => ⟨fun hq => ?_, fun hq => ?_⟩⟩
    · have hle := ((hmem' q).mp hq).2.le_depth hleaf.le_depth hlast (C.curve.cell_lt q.1 q.2)
      exact ⟨((hmem q hle).mp hq).1, ((hmem q hle).mp hq).2.1⟩
    · refine (hmem q hq.1.le_depth).mpr ⟨hq.1, hq.2, ?_⟩
      rintro ⟨heq, hr, hlt⟩
      refine h q.2 hr hlt ?_
      rw [← heq]
      exact hq.2

end Coordinates

/-! ## `SpaceFillingCurve` -/

/-- `SpaceFillingCurve::addXYNeighbors` -/
def addXYNeighbors (S : Refinement 4) : ℕ → (Fin 2 → ℕ) → Option (List (ℕ × ℕ)) :=
  xy.addNeighbors S 0

/-- `SpaceFillingCurve::addXYZNeighbors` -/
def addXYZNeighbors (S : Refinement 8) : ℕ → (Fin 3 → ℕ) → Option (List (ℕ × ℕ)) :=
  xyz.addNeighbors S 1

/-- **A curve** of dimension 2 or 3, with its refined buckets. -/
inductive SpaceFillingCurve where
  | two (S : Refinement 4)
  | three (S : Refinement 8)

namespace SpaceFillingCurve

def dimension : SpaceFillingCurve → ℕ
  | two _ => 2
  | three _ => 3

def depth : SpaceFillingCurve → ℕ
  | two S => S.depth
  | three S => S.depth

/-- `buckets(depth())` -/
def size : SpaceFillingCurve → ℕ
  | two S => Refinement.buckets 4 S.depth
  | three S => Refinement.buckets 8 S.depth

def sfcRefined : SpaceFillingCurve → ℕ → List ℕ
  | two S => S.level
  | three S => S.level

def iterateBuckets : SpaceFillingCurve → ℕ → ℕ → Option (List (ℕ × ℕ))
  | two S => S.iterateBuckets
  | three S => S.iterateBuckets

/-- `SpaceFillingCurve::addSFCNeighbors` -/
def addSFCNeighbors : SpaceFillingCurve → ℕ → ℕ → Option (List (ℕ × ℕ))
  | two S => xy.addSFCNeighbors (addXYNeighbors S)
  | three S => xyz.addSFCNeighbors (addXYZNeighbors S)

def SharesCorner : SpaceFillingCurve → ℕ × ℕ → ℕ × ℕ → Prop
  | two _ => xy.SharesCorner
  | three _ => xyz.SharesCorner

/-- The neighbours found for a bucket are those of the leaves that have a corner in common with it. -/
def FindsLeaves (sfc : SpaceFillingCurve) (leaves : List (ℕ × ℕ)) (p : ℕ × ℕ) : Prop :=
  ∃ l, sfc.addSFCNeighbors p.1 p.2 = some l ∧ ∀ q, q ∈ l ↔ q ∈ leaves ∧ sfc.SharesCorner p q

/-- **The neighbours found are the leaves with a common corner**, except for dimension 2 next to a
refined bucket of the last level. -/
theorem findsLeaves_iff (sfc : SpaceFillingCurve) :
    ∃ leaves, sfc.iterateBuckets 0 sfc.size = some leaves ∧ ∀ p ∈ leaves,
      (sfc.FindsLeaves leaves p ↔
        (sfc.dimension = 2 → ∀ r ∈ sfc.sfcRefined sfc.depth, ¬sfc.SharesCorner p (sfc.depth, r))) := by
  cases sfc with
  | two S =>
      obtain ⟨leaves, hleaves, hmem⟩ := S.iterateBuckets_all
      refine ⟨leaves, hleaves, fun p hp => ?_⟩
      have hexact := xy.addSFCNeighbors_iff S 0 (Nat.zero_le 1) ((hmem p.1 p.2).mp hp)
      have hlast : ∀ r ∈ S.level S.depth, S.depth + 0 < S.refinedsfc.length := fun r hr =>
        S.lt_length hr
      simp only [← hmem] at hexact
      refine hexact.trans ⟨fun h _ r hr => h r hr (hlast r hr), fun h r hr _ => h rfl r hr⟩
  | three S =>
      obtain ⟨leaves, hleaves, hmem⟩ := S.iterateBuckets_all
      refine ⟨leaves, hleaves, fun p hp => ?_⟩
      have hexact := xyz.addSFCNeighbors_iff S 1 le_rfl ((hmem p.1 p.2).mp hp)
      simp only [← hmem] at hexact
      refine hexact.trans ⟨fun _ h => absurd h (show ¬3 = 2 by decide), fun _ r _ hlt => ?_⟩
      exact absurd S.length_le (Nat.not_le.mpr hlt)

lemma refinedCorner_sorted : ∀ level ∈ [[0], [0]], level.Pairwise (· < ·) := by decide

lemma refinedCorner_parent (i : ℕ) : ∀ r ∈ [[0], [0]].getD (i + 1) [], r / 4 ∈ [[0], [0]].getD i [] := by
  rcases i with _ | i
  · decide
  · intro r hr
    exact absurd hr List.not_mem_nil

/-- The square of depth 1, refined in both levels at its first bucket. -/
def refinedCorner : Refinement 4 where
  depth := 1
  refinedsfc := [[0], [0]]
  root := rfl
  sorted := refinedCorner_sorted
  parent := refinedCorner_parent
  length_le := le_rfl
  complete := Or.inl rfl

/-- At a refined bucket of the last level, the bucket itself is not among the neighbours found. -/
theorem refinedCorner_not_findsLeaves :
    (two refinedCorner).iterateBuckets 0 (two refinedCorner).size
      = some [(1, 0), (1, 1), (1, 2), (1, 3)] ∧
    ¬(two refinedCorner).FindsLeaves [(1, 0), (1, 1), (1, 2), (1, 3)] (1, 0) := by
  refine ⟨by decide, ?_⟩
  rintro ⟨l, hl, hmem⟩
  have hself := (hmem (1, 0)).mpr ⟨List.mem_cons_self, touches_self _ _⟩
  -- the bucket is replaced by its four parts
  have hreplaced : xy.Replaced refinedCorner 0 1 (xy.curve.cell 1 0) := by decide
  obtain ⟨l', hl', hmem'⟩ := xy.addSFCNeighbors_spec refinedCorner 0 le_rfl 0
  obtain rfl := Option.some_injective _ (hl'.symm.trans hl)
  exact ((hmem' (1, 0)).mp hself).2.not_replaced hreplaced

end SpaceFillingCurve

end Espreso.SFC
