import Espreso.Lib.Layout

/-!
# Triples and boxes of the mesh generator

Positions of a grid are triples, counted with the first direction fastest.

* `Triple` — with the operations of the source, component by component.
* `Triple.index` — `(offset * size.toSize()).sum()`.
* `box` — the triples below a size, in the order of the loops over `z`, `y` and `x`.
* **`map_index_box`** — they are numbered from 0 in this order.
-/

namespace Espreso.Generator

/-- The directions of a grid. -/
inductive Direction
  | X
  | Y
  | Z
deriving DecidableEq

/-- A value for each direction. -/
structure Triple (α : Type) where
  x : α
  y : α
  z : α
deriving DecidableEq

namespace Triple

variable {α β γ : Type}

def get (t : Triple α) : Direction → α
  | .X => t.x
  | .Y => t.y
  | .Z => t.z

def ofFn (f : Direction → α) : Triple α := ⟨f .X, f .Y, f .Z⟩

@[simp] lemma get_ofFn (f : Direction → α) (d : Direction) : (ofFn f).get d = f d := by
  cases d <;> rfl

@[ext] lemma ext_get {t t' : Triple α} (h : ∀ d, t.get d = t'.get d) : t = t' := by
  obtain ⟨x, y, z⟩ := t
  obtain ⟨x', y', z'⟩ := t'
  exact congr (congr (congrArg Triple.mk (h .X)) (h .Y)) (h .Z)

def const (a : α) : Triple α := ⟨a, a, a⟩

def map (f : α → β) (t : Triple α) : Triple β := ⟨f t.x, f t.y, f t.z⟩

instance [Add α] : Add (Triple α) := ⟨fun a b => ⟨a.x + b.x, a.y + b.y, a.z + b.z⟩⟩
instance [Sub α] : Sub (Triple α) := ⟨fun a b => ⟨a.x - b.x, a.y - b.y, a.z - b.z⟩⟩
instance [Mul α] : Mul (Triple α) := ⟨fun a b => ⟨a.x * b.x, a.y * b.y, a.z * b.z⟩⟩
instance [Div α] : Div (Triple α) := ⟨fun a b => ⟨a.x / b.x, a.y / b.y, a.z / b.z⟩⟩

@[simp] lemma get_const (a : α) (d : Direction) : (const a).get d = a := by cases d <;> rfl

@[simp] lemma get_map (f : α → β) (t : Triple α) (d : Direction) : (t.map f).get d = f (t.get d) := by
  cases d <;> rfl

@[simp] lemma get_add [Add α] (a b : Triple α) (d : Direction) :
    (a + b).get d = a.get d + b.get d := by cases d <;> rfl

@[simp] lemma get_sub [Sub α] (a b : Triple α) (d : Direction) :
    (a - b).get d = a.get d - b.get d := by cases d <;> rfl

@[simp] lemma get_mul [Mul α] (a b : Triple α) (d : Direction) :
    (a * b).get d = a.get d * b.get d := by cases d <;> rfl

@[simp] lemma get_div [Div α] (a b : Triple α) (d : Direction) :
    (a / b).get d = a.get d / b.get d := by cases d <;> rfl

/-- `operator<` with a value: some component is below it. -/
def anyBelow (t : Triple ℤ) (value : ℤ) : Bool := t.x < value ∨ t.y < value ∨ t.z < value

lemma anyBelow_iff {t : Triple ℤ} {value : ℤ} : t.anyBelow value = true ↔ ∃ d, t.get d < value := by
  simp only [anyBelow, decide_eq_true_eq]
  constructor
  · rintro (h | h | h)
    exacts [⟨.X, h⟩, ⟨.Y, h⟩, ⟨.Z, h⟩]
  · rintro ⟨d, h⟩
    cases d
    exacts [Or.inl h, Or.inr (Or.inl h), Or.inr (Or.inr h)]

def sum (t : Triple ℕ) : ℕ := t.x + t.y + t.z

def mul (t : Triple ℕ) : ℕ := t.x * t.y * t.z

def toSize (t : Triple ℕ) : Triple ℕ := ⟨1, t.x, t.x * t.y⟩

/-- `(offset * size.toSize()).sum()` -/
def index (size offset : Triple ℕ) : ℕ := (offset * size.toSize).sum

def Inside (size t : Triple ℕ) : Prop := ∀ d, t.get d < size.get d

end Triple

/-- The positions of the loops over `z`, `y` and `x`. -/
def box (size : Triple ℕ) : List (Triple ℕ) :=
  (List.range size.z).flatMap fun z => (List.range size.y).flatMap fun y =>
    (List.range size.x).map fun x => ⟨x, y, z⟩

lemma mem_box {size t : Triple ℕ} : t ∈ box size ↔ size.Inside t := by
  obtain ⟨x, y, z⟩ := t
  simp only [box, List.mem_flatMap, List.mem_map, List.mem_range, Triple.mk.injEq]
  constructor
  · rintro ⟨z', hz, y', hy, x', hx, rfl, rfl, rfl⟩ d
    cases d <;> assumption
  · exact fun h => ⟨z, h .Z, y, h .Y, x, h .X, rfl, rfl, rfl⟩

/-- **The positions are numbered** in the order of the loops. -/
theorem map_index_box (size : Triple ℕ) : (box size).map size.index = List.range size.mul := by
  have hrows : ∀ m n c : ℕ, ((List.range n).flatMap fun i => (List.range m).map fun j => j + i * m + c)
      = (List.range (m * n)).map (· + c) := by
    intro m n c
    have hstart : ∀ i, Layout.start (fun _ => m) i = i * m := fun i => by simp [Layout.start]
    have h := congrArg (List.map (· + c)) (Layout.flatMap_range_start (fun _ => m) n)
    rw [hstart, Nat.mul_comm, List.map_flatMap] at h
    rw [← h]
    refine List.flatMap_congr fun i _ => ?_
    rw [List.map_map, hstart]
    refine List.map_congr_left fun j _ => ?_
    simp only [Function.comp_apply]
    omega
  have hindex : ∀ x y z, size.index ⟨x, y, z⟩ = x + y * size.x + z * (size.x * size.y) := by
    intro x y z
    change x * 1 + y * size.x + z * (size.x * size.y) = _
    rw [Nat.mul_one]
  have hplanes := hrows (size.x * size.y) size.z 0
  simp only [Nat.add_zero, List.map_id'] at hplanes
  rw [box, List.map_flatMap, Triple.mul, ← hplanes]
  refine List.flatMap_congr fun z _ => ?_
  rw [List.map_flatMap, ← hrows]
  refine List.flatMap_congr fun y _ => ?_
  rw [List.map_map]
  exact List.map_congr_left fun x _ => hindex x y z

lemma length_box (size : Triple ℕ) : (box size).length = size.mul := by
  rw [← List.length_map, map_index_box, List.length_range]

lemma index_getElem_box (size : Triple ℕ) {k : ℕ} (hk : k < (box size).length) :
    size.index (box size)[k] = k := by
  have hk' : k < ((box size).map size.index).length := by rwa [List.length_map]
  have h : ((box size).map size.index)[k] = k := by simp only [map_index_box, List.getElem_range]
  rwa [List.getElem_map] at h

namespace Triple

variable {size t t' : Triple ℕ}

lemma Inside.index_lt (h : size.Inside t) : size.index t < size.mul := by
  have hmem : size.index t ∈ (box size).map size.index := List.mem_map_of_mem (mem_box.mpr h)
  rwa [map_index_box, List.mem_range] at hmem

lemma Inside.index_inj (h : size.Inside t) (h' : size.Inside t') (heq : size.index t = size.index t') :
    t = t' :=
  List.inj_on_of_nodup_map (by rw [map_index_box]; exact List.nodup_range) (mem_box.mpr h)
    (mem_box.mpr h') heq

lemma exists_index {k : ℕ} (hk : k < size.mul) : ∃ t, size.Inside t ∧ size.index t = k := by
  rw [← length_box] at hk
  exact ⟨(box size)[k], mem_box.mp (List.getElem_mem hk), index_getElem_box size hk⟩

end Triple

lemma getElem?_map_box {α : Type} (f : Triple ℕ → α) {size t : Triple ℕ} (h : size.Inside t) :
    ((box size).map f)[size.index t]? = some (f t) := by
  have hk : size.index t < (box size).length := by
    rw [length_box]
    exact h.index_lt
  rw [List.getElem?_map, List.getElem?_eq_getElem hk, Option.map_some]
  have hinside : size.Inside (box size)[size.index t] := mem_box.mp (List.getElem_mem hk)
  rw [hinside.index_inj h (index_getElem_box size hk)]

end Espreso.Generator
