import Espreso.Input.Triple
import Espreso.Lib.Grouped
import Mathlib.Algebra.Order.Floor.Ring
import Mathlib.Data.Rat.Floor

/-!
# Blocks of generated elements

Every rank generates one block.  Its nodes are numbered in the order of the loops, and the ranks of a
node are found from the ranks around the block.

* `ElementType.subnodes` — the nodes of an element in each direction.
* **`ranksOf_neighbors`** — the ranks of a node are those whose cluster contains it, in ascending
  order.
-/

namespace Espreso.Generator

/-! ## Elements -/

/-- `GENERATOR_ELEMENT_TYPE` -/
inductive ElementType
  | HEXA8
  | HEXA20
  | TETRA4
  | TETRA10
  | PRISMA6
  | PRISMA15
  | PYRAMID5
  | PYRAMID13
  | SQUARE4
  | SQUARE8
  | TRIANGLE3
  | TRIANGLE6
deriving DecidableEq

/-- `subnodes` of the generators of linear and quadratic planes and volumes and of pyramids. -/
def ElementType.subnodes : ElementType → Triple ℕ
  | SQUARE4 | TRIANGLE3 => ⟨2, 2, 1⟩
  | SQUARE8 | TRIANGLE6 => ⟨3, 3, 1⟩
  | HEXA8 | TETRA4 | PRISMA6 => ⟨2, 2, 2⟩
  | HEXA20 | TETRA10 | PRISMA15 | PYRAMID5 => ⟨3, 3, 3⟩
  | PYRAMID13 => ⟨5, 5, 5⟩

def ElementType.plane (type : ElementType) : Bool := type.subnodes.z = 1

lemma ElementType.subnodes_eq_one (type : ElementType) (d : Direction) :
    type.subnodes.get d - 1 = 0 ↔ type.plane ∧ d = .Z := by
  cases type <;> cases d <;> decide

/-! ## A block -/

/-- `BlockSettings`, without projection and rotation, and the element type. -/
structure BlockSettings where
  element_type : ElementType
  domains : Triple ℕ
  elements : Triple ℕ
  start : Triple ℤ
  end_ : Triple ℤ
  domains_pos : ∀ d, 0 < domains.get d
  elements_pos : ∀ d, 0 < elements.get d

namespace BlockSettings

variable (b : BlockSettings)

/-- `_block.domains * _block.elements * (subnodes - 1)`, the steps between the nodes of a block. -/
def count : Triple ℕ := b.domains * b.elements * (b.element_type.subnodes - Triple.const 1)

/-- `Triple<double>(nodes).steps()` -/
def steps (nodes : Triple ℕ) : Triple ℚ := nodes.map fun n : ℕ => if n > 1 then (n : ℚ) - 1 else 1

/-- `MeshGenerator::precision` -/
def precision : ℚ := 1 / 10000

/-- A node of `BlockGenerator::coordinates`. -/
def coordinate (offset : Triple ℕ) : Triple ℚ :=
  let nodes := b.count + Triple.const 1
  let step := (b.end_ - b.start).map (fun i : ℤ => (i : ℚ)) / steps nodes
  Triple.const precision * (b.start.map (fun i : ℤ => (i : ℚ)) + offset.map (fun n : ℕ => (n : ℚ)) * step)

/-- `BlockGenerator::coordinates` -/
def coordinates : List (Triple ℚ) := (box (b.count + Triple.const 1)).map b.coordinate

lemma count_eq_zero {d : Direction} : b.count.get d = 0 ↔ b.element_type.plane ∧ d = .Z := by
  have hdomains := b.domains_pos d
  have helements := b.elements_pos d
  rw [← b.element_type.subnodes_eq_one d]
  simp only [count, Triple.get_mul, Triple.get_sub, Triple.get_const, Nat.mul_eq_zero]
  omega

lemma get_coordinate (offset : Triple ℕ) (d : Direction) :
    (b.coordinate offset).get d = precision * (b.start.get d + offset.get d *
      (((b.end_.get d - b.start.get d : ℤ) : ℚ)
        / if b.count.get d + 1 > 1 then (b.count.get d : ℚ) else 1)) := by
  have hsteps : (steps (b.count + Triple.const 1)).get d
      = if b.count.get d + 1 > 1 then (b.count.get d : ℚ) else 1 := by
    simp only [steps, Triple.get_map, Triple.get_add, Triple.get_const]
    split_ifs with h
    · push_cast
      ring
    · rfl
  simp only [coordinate, Triple.get_mul, Triple.get_add, Triple.get_map, Triple.get_div,
    Triple.get_sub, Triple.get_const, hsteps]

lemma get_coordinate_start {offset : Triple ℕ} {d : Direction} (h : offset.get d = 0) :
    (b.coordinate offset).get d = precision * b.start.get d := by
  rw [get_coordinate, h, Nat.cast_zero, zero_mul, add_zero]

lemma get_coordinate_end {offset : Triple ℕ} {d : Direction} (h : offset.get d = b.count.get d)
    (hpos : 0 < b.count.get d) : (b.coordinate offset).get d = precision * b.end_.get d := by
  have hne : (b.count.get d : ℚ) ≠ 0 := Nat.cast_ne_zero.mpr (Nat.ne_of_gt hpos)
  rw [get_coordinate, h, if_pos (by omega), mul_div_cancel₀ _ hne, Int.cast_sub]
  ring

end BlockSettings

/-! ## The ranks of the nodes -/

/-- `sx, …, ez` of a cell around the block, as the nodes from `s` to `e` in each direction. -/
def sideNodes (count : Triple ℕ) (i : ℕ) : List (Triple ℕ) :=
  let sx := if i % 3 = 2 then count.x else 0
  let ex := if i % 3 ≠ 0 then count.x else 0
  let sy := if i % 9 ≥ 6 then count.y else 0
  let ey := if i % 9 ≥ 3 then count.y else 0
  let sz := if i / 9 = 2 then count.z else 0
  let ez := if i / 9 ≥ 1 then count.z else 0
  (List.range' sx (ex + 1 - sx)).flatMap fun x => (List.range' sy (ey + 1 - sy)).flatMap fun y =>
    (List.range' sz (ez + 1 - sz)).map fun z => ⟨x, y, z⟩

/-- The order of `std::pair`. -/
def pairLE (a b : ℕ × ℤ) : Bool := a.1 < b.1 ∨ (a.1 = b.1 ∧ a.2 ≤ b.2)

/-- `neighs` after it was sorted: the nodes that lie on the side of a rank. -/
def neighs (count : Triple ℕ) (surroundings : List ℤ) : List (ℕ × ℤ) :=
  let sorted := (List.range surroundings.length).mergeSort
    fun i j => surroundings.getD i 0 ≤ surroundings.getD j 0
  (sorted.flatMap fun i =>
    if surroundings.getD i 0 < 0 then []
    else (sideNodes count i).map fun offset =>
      ((count + Triple.const 1).index offset, surroundings.getD i 0)).mergeSort pairLE

/-- `_nrankdist` and `_nranks` after `BlockGenerator::neighbors`. -/
def neighbors (count : Triple ℕ) (surroundings : List ℤ) : List ℕ × List ℤ :=
  (Grouped.boundaries ((neighs count surroundings).map Prod.fst),
    (neighs count surroundings).map Prod.snd)

/-- The ranks of node `n`: `_nranks` from `_nrankdist[n]` to `_nrankdist[n + 1]`. -/
def ranksOf (m : List ℕ × List ℤ) (n : ℕ) : List ℤ :=
  (m.2.drop (m.1.getD n 0)).take (m.1.getD (n + 1) 0 - m.1.getD n 0)

/-! ## Nodes of a grid of clusters -/

/-- Two nodes of clusters at `p` and `p'` are the same in one direction, with `c` steps between the
nodes of a cluster.  Without steps the clusters are layers that share no node. -/
def sameAt (c p o p' o' : ℕ) : Prop := if c = 0 then p = p' else p * c + o = p' * c + o'

instance (c p o p' o' : ℕ) : Decidable (sameAt c p o p' o') := by
  rw [sameAt]
  infer_instance

/-- **The same node** of a grid. -/
def SameNode (count p o p' o' : Triple ℕ) : Prop :=
  ∀ d, sameAt (count.get d) (p.get d) (o.get d) (p'.get d) (o'.get d)

/-- The cluster at `p'` contains the node. -/
def Contains (count p o p' : Triple ℕ) : Prop :=
  ∃ o', (count + Triple.const 1).Inside o' ∧ SameNode count p o p' o'

instance (count p o p' o' : Triple ℕ) : Decidable (SameNode count p o p' o') :=
  decidable_of_iff (sameAt count.x p.x o.x p'.x o'.x ∧ sameAt count.y p.y o.y p'.y o'.y ∧
      sameAt count.z p.z o.z p'.z o'.z)
    ⟨fun h d => by cases d; exacts [h.1, h.2.1, h.2.2], fun h => ⟨h .X, h .Y, h .Z⟩⟩

instance (count p o p' : Triple ℕ) : Decidable (Contains count p o p') :=
  decidable_of_iff (∃ o' ∈ box (count + Triple.const 1), SameNode count p o p' o')
    (exists_congr fun _ => and_congr_left fun _ => mem_box)

/-! ## The sides of a block -/

def cells : Triple ℕ := Triple.const 3

/-- A node with offset `o` lies on the side of a cell. -/
def OnSide (c δ o : ℕ) : Prop := (if δ = 2 then c else 0) ≤ o ∧ o ≤ if δ ≠ 0 then c else 0

lemma mem_sideNodes {count δ o : Triple ℕ} (hδ : cells.Inside δ) :
    o ∈ sideNodes count (cells.index δ) ↔ ∀ d, OnSide (count.get d) (δ.get d) (o.get d) := by
  obtain ⟨δx, δy, δz⟩ := δ
  have hx : δx < 3 := hδ .X
  have hy : δy < 3 := hδ .Y
  have hz : δz < 3 := hδ .Z
  have hindex : cells.index ⟨δx, δy, δz⟩ = δx * 1 + δy * 3 + δz * (3 * 3) := rfl
  have hxmod : (cells.index ⟨δx, δy, δz⟩) % 3 = δx := by omega
  have hymod : (cells.index ⟨δx, δy, δz⟩) % 9 = δx + 3 * δy := by omega
  have hzdiv : (cells.index ⟨δx, δy, δz⟩) / 9 = δz := by omega
  obtain ⟨ox, oy, oz⟩ := o
  have hy2 : δx + 3 * δy ≥ 6 ↔ δy = 2 := by omega
  have hy1 : δx + 3 * δy ≥ 3 ↔ δy ≠ 0 := by omega
  have hz1 : δz ≥ 1 ↔ δz ≠ 0 := by omega
  have hside : ∀ c δ v : ℕ, (if δ = 2 then c else 0) ≤ v ∧
      v < (if δ = 2 then c else 0) + ((if δ ≠ 0 then c else 0) + 1 - if δ = 2 then c else 0)
        ↔ OnSide c δ v := by
    intro c δ v
    rw [OnSide]
    split_ifs <;> omega
  simp only [sideNodes, hxmod, hymod, hzdiv, hy2, hy1, hz1, List.mem_flatMap, List.mem_map,
    List.mem_range'_1, Triple.mk.injEq, hside]
  constructor
  · rintro ⟨x, hx', y, hy', z, hz', rfl, rfl, rfl⟩ d
    cases d <;> assumption
  · exact fun h => ⟨ox, h .X, oy, h .Y, oz, h .Z, rfl, rfl, rfl⟩

lemma nodup_sideNodes (count : Triple ℕ) (i : ℕ) : (sideNodes count i).Nodup := by
  have hrange : ∀ s n : ℕ, (List.range' s n).Pairwise (· ≠ ·) := fun s n =>
    List.Pairwise.imp (fun h => ne_of_lt h) List.pairwise_lt_range'
  simp only [sideNodes]
  refine List.nodup_flatMap.mpr ⟨fun x _ => List.nodup_flatMap.mpr ⟨fun y _ => ?_, ?_⟩, ?_⟩
  · exact List.Nodup.map (fun z z' h => congrArg Triple.z h) (hrange _ _)
  · refine (hrange _ _).imp fun hne t ht ht' => ?_
    obtain ⟨_, -, rfl⟩ := List.mem_map.mp ht
    obtain ⟨_, -, h⟩ := List.mem_map.mp ht'
    exact hne (congrArg Triple.y h).symm
  · refine (hrange _ _).imp fun hne t ht ht' => ?_
    simp only [List.mem_flatMap, List.mem_map] at ht ht'
    obtain ⟨_, -, _, -, rfl⟩ := ht
    obtain ⟨_, -, _, -, h⟩ := ht'
    exact hne (congrArg Triple.x h).symm

lemma exists_sameAt_iff {c p o p' : ℕ} (ho : o ≤ c) (hflat : c = 0 → p = p') :
    (∃ o' ≤ c, sameAt c p o p' o') ↔ ∃ δ < 3, p' + 1 = p + δ ∧ OnSide c δ o := by
  rcases Nat.eq_zero_or_pos c with rfl | hc
  · obtain rfl := hflat rfl
    refine ⟨fun _ => ⟨1, by omega, rfl, ?_⟩, fun _ => ⟨0, le_rfl, ?_⟩⟩
    · simpa [OnSide] using ho
    · simp [sameAt]
  · have hne : c ≠ 0 := Nat.ne_of_gt hc
    have hstep : ∀ {m n : ℕ} (k : ℕ), m + k ≤ n → m * c + k * c ≤ n * c := fun k h => by
      rw [← Nat.add_mul]
      exact Nat.mul_le_mul_right c h
    simp only [sameAt, if_neg hne, OnSide]
    constructor
    · rintro ⟨o', ho', heq⟩
      rcases lt_trichotomy p' p with hlt | rfl | hgt
      · have hone := hstep 1 hlt
        have hle : ¬p' + 2 ≤ p := fun h => by
          have := hstep 2 h
          omega
        exact ⟨0, by omega, by omega, by simp; omega⟩
      · exact ⟨1, by omega, rfl, by simpa using ho⟩
      · have hone := hstep 1 hgt
        have hle : ¬p + 2 ≤ p' := fun h => by
          have := hstep 2 h
          omega
        exact ⟨2, by omega, by omega, by simp; omega⟩
    · rintro ⟨δ, hδ, hp, hside⟩
      have hδ' : δ = 0 ∨ δ = 1 ∨ δ = 2 := by omega
      rcases hδ' with rfl | rfl | rfl
      · obtain rfl : p = p' + 1 := by omega
        obtain rfl : o = 0 := by simpa using hside
        exact ⟨c, le_rfl, by rw [Nat.add_mul, Nat.one_mul, Nat.add_zero]⟩
      · obtain rfl : p' = p := by omega
        exact ⟨o, ho, rfl⟩
      · obtain rfl : p' = p + 1 := by omega
        have ho : o = c := le_antisymm ho (by simpa using hside.1)
        exact ⟨0, Nat.zero_le c, by rw [ho, Nat.add_mul, Nat.one_mul, Nat.add_zero]⟩

/-- The list of the cells names the ranks around the cluster at `p`; rank `q` has its cluster at
`pos q`. -/
structure Surrounds (surroundings : List ℤ) (R : ℕ) (pos : ℕ → Triple ℕ) (p : Triple ℕ) : Prop where
  length : surroundings.length = 27
  own : ∃ r < R, pos r = p
  rank : ∀ δ, cells.Inside δ → ∀ q : ℕ, surroundings.getD (cells.index δ) 0 = q ↔
    q < R ∧ ∀ d, (pos q).get d + 1 = p.get d + δ.get d

def Flat (count : Triple ℕ) (R : ℕ) (pos : ℕ → Triple ℕ) : Prop :=
  ∀ d, count.get d = 0 → ∀ q < R, ∀ q' < R, (pos q).get d = (pos q').get d

variable {surroundings : List ℤ} {R : ℕ} {pos : ℕ → Triple ℕ} {p count : Triple ℕ}

lemma contains_iff {o p' : Triple ℕ} (ho : (count + Triple.const 1).Inside o)
    (hflat : ∀ d, count.get d = 0 → p.get d = p'.get d) :
    Contains count p o p' ↔ ∃ δ, cells.Inside δ ∧ (∀ d, p'.get d + 1 = p.get d + δ.get d) ∧
      ∀ d, OnSide (count.get d) (δ.get d) (o.get d) := by
  have ho' : ∀ d, o.get d ≤ count.get d := fun d => by
    have := ho d
    simp only [Triple.get_add, Triple.get_const] at this
    omega
  constructor
  · rintro ⟨o', hinside, hsame⟩
    have hside : ∀ d, ∃ δ < 3, p'.get d + 1 = p.get d + δ ∧ OnSide (count.get d) δ (o.get d) := by
      intro d
      have hle := hinside d
      simp only [Triple.get_add, Triple.get_const] at hle
      exact (exists_sameAt_iff (ho' d) (hflat d)).mp ⟨o'.get d, by omega, hsame d⟩
    choose δ hδ using hside
    refine ⟨Triple.ofFn δ, fun d => ?_, fun d => ?_, fun d => ?_⟩
    · simpa [cells] using (hδ d).1
    · simpa using (hδ d).2.1
    · simpa using (hδ d).2.2
  · rintro ⟨δ, hδ, hp, hside⟩
    have hnode : ∀ d, ∃ o' ≤ count.get d, sameAt (count.get d) (p.get d) (o.get d) (p'.get d) o' := by
      intro d
      have hlt : δ.get d < 3 := by simpa [cells] using hδ d
      exact (exists_sameAt_iff (ho' d) (hflat d)).mpr ⟨δ.get d, hlt, hp d, hside d⟩
    choose o' ho' using hnode
    refine ⟨Triple.ofFn o', fun d => ?_, fun d => ?_⟩
    · have := (ho' d).1
      simp only [Triple.get_add, Triple.get_const, Triple.get_ofFn]
      omega
    · simpa using (ho' d).2

/-! ## The ranks of a node -/

lemma OnSide.le {c δ o : ℕ} (h : OnSide c δ o) : o ≤ c := by
  have h := h.2
  split_ifs at h <;> omega

lemma inside_of_mem_sideNodes {δ o : Triple ℕ} (hδ : cells.Inside δ)
    (ho : o ∈ sideNodes count (cells.index δ)) : (count + Triple.const 1).Inside o := by
  intro d
  have hle := ((mem_sideNodes hδ).mp ho d).le
  simp only [Triple.get_add, Triple.get_const]
  omega

lemma pairLE_trans (a b c : ℕ × ℤ) (hab : pairLE a b = true) (hbc : pairLE b c = true) :
    pairLE a c = true := by
  simp only [pairLE, decide_eq_true_eq] at *
  omega

lemma pairLE_total (a b : ℕ × ℤ) : (pairLE a b || pairLE b a) = true := by
  simp only [pairLE, Bool.or_eq_true, decide_eq_true_eq]
  omega

lemma pairwise_neighs (count : Triple ℕ) (surroundings : List ℤ) :
    (neighs count surroundings).Pairwise fun a b => pairLE a b = true :=
  List.pairwise_mergeSort pairLE_trans pairLE_total _

lemma mem_neighs_iff {n : ℕ} {q : ℤ} : (n, q) ∈ neighs count surroundings ↔
    ∃ i < surroundings.length, surroundings.getD i 0 = q ∧ 0 ≤ q ∧
      ∃ o ∈ sideNodes count i, (count + Triple.const 1).index o = n := by
  simp only [neighs, List.mem_mergeSort, List.mem_flatMap, List.mem_range]
  refine exists_congr fun i => and_congr_right fun _ => ?_
  split_ifs with h
  · simp only [List.not_mem_nil, false_iff]
    rintro ⟨rfl, hq, -⟩
    omega
  · simp only [List.mem_map, Prod.mk.injEq]
    constructor
    · rintro ⟨o, ho, hn, rfl⟩
      exact ⟨rfl, by omega, o, ho, hn⟩
    · rintro ⟨rfl, -, o, ho, hn⟩
      exact ⟨o, ho, hn, rfl⟩

namespace Surrounds

lemma cell_unique (h : Surrounds surroundings R pos p) {δ δ' : Triple ℕ} (hδ : cells.Inside δ)
    (hδ' : cells.Inside δ')
    (heq : surroundings.getD (cells.index δ) 0 = surroundings.getD (cells.index δ') 0)
    (hnonneg : 0 ≤ surroundings.getD (cells.index δ) 0) : δ = δ' := by
  obtain ⟨q, hq⟩ := Int.eq_ofNat_of_zero_le hnonneg
  have h₁ := ((h.rank δ hδ q).mp hq).2
  have h₂ := ((h.rank δ' hδ' q).mp (heq ▸ hq)).2
  ext d
  have h₁ := h₁ d
  have h₂ := h₂ d
  omega

lemma exists_cell (h : Surrounds surroundings R pos p) {i : ℕ} (hi : i < surroundings.length) :
    ∃ δ, cells.Inside δ ∧ cells.index δ = i :=
  Triple.exists_index (hi.trans_eq h.length)

lemma mem_neighs (h : Surrounds surroundings R pos p) (hflat : Flat count R pos) {o : Triple ℕ}
    (ho : (count + Triple.const 1).Inside o) {q : ℤ} :
    ((count + Triple.const 1).index o, q) ∈ neighs count surroundings ↔
      ∃ r < R, (r : ℤ) = q ∧ Contains count p o (pos r) := by
  obtain ⟨own, hown, rfl⟩ := h.own
  rw [mem_neighs_iff]
  constructor
  · rintro ⟨i, hi, rfl, hnonneg, o', ho', heq⟩
    obtain ⟨δ, hδ, rfl⟩ := h.exists_cell hi
    obtain ⟨r, hr⟩ := Int.eq_ofNat_of_zero_le hnonneg
    obtain ⟨hlt, hpos⟩ := (h.rank δ hδ r).mp hr
    obtain rfl := (inside_of_mem_sideNodes hδ ho').index_inj ho heq
    refine ⟨r, hlt, hr.symm, (contains_iff ho fun d hd => hflat d hd own hown r hlt).mpr ?_⟩
    exact ⟨δ, hδ, hpos, (mem_sideNodes hδ).mp ho'⟩
  · rintro ⟨r, hr, rfl, hcontains⟩
    obtain ⟨δ, hδ, hpos, hside⟩ :=
      (contains_iff ho fun d hd => hflat d hd own hown r hr).mp hcontains
    refine ⟨cells.index δ, hδ.index_lt.trans_eq h.length.symm, (h.rank δ hδ r).mpr ⟨hr, hpos⟩, ?_⟩
    exact ⟨Int.natCast_nonneg r, o, (mem_sideNodes hδ).mpr hside, rfl⟩

lemma nodup_neighs (h : Surrounds surroundings R pos p) : (neighs count surroundings).Nodup := by
  have hperm := (List.range surroundings.length).mergeSort_perm
    fun i j => surroundings.getD i 0 ≤ surroundings.getD j 0
  have hrank : ∀ i, ∀ e ∈ (if surroundings.getD i 0 < 0 then []
      else (sideNodes count i).map fun offset =>
        ((count + Triple.const 1).index offset, surroundings.getD i 0)),
      0 ≤ surroundings.getD i 0 ∧ e.2 = surroundings.getD i 0 := by
    intro i e he
    split_ifs at he with hneg
    · exact absurd he List.not_mem_nil
    · obtain ⟨_, -, rfl⟩ := List.mem_map.mp he
      exact ⟨by omega, rfl⟩
  refine (List.mergeSort_perm _ pairLE).nodup_iff.mpr (List.nodup_flatMap.mpr ⟨?_, ?_⟩)
  · intro i hi
    obtain ⟨δ, hδ, rfl⟩ := h.exists_cell (List.mem_range.mp (hperm.mem_iff.mp hi))
    split_ifs
    · exact List.nodup_nil
    · refine (nodup_sideNodes count _).map_on fun o ho o' ho' heq => ?_
      exact (inside_of_mem_sideNodes hδ ho).index_inj (inside_of_mem_sideNodes hδ ho')
        (congrArg Prod.fst heq)
  · refine List.Pairwise.imp_of_mem ?_ (hperm.nodup_iff.mpr List.nodup_range)
    intro i j hi hj hne
    obtain ⟨δ, hδ, rfl⟩ := h.exists_cell (List.mem_range.mp (hperm.mem_iff.mp hi))
    obtain ⟨δ', hδ', rfl⟩ := h.exists_cell (List.mem_range.mp (hperm.mem_iff.mp hj))
    intro e he he'
    obtain ⟨hnonneg, heq⟩ := hrank _ e he
    obtain ⟨-, heq'⟩ := hrank _ e he'
    exact hne (congrArg cells.index (h.cell_unique hδ hδ' (heq.symm.trans heq') hnonneg))

/-- **The ranks of a node** are those whose cluster contains it, in ascending order. -/
theorem ranksOf_neighbors (h : Surrounds surroundings R pos p) (hflat : Flat count R pos)
    {o : Triple ℕ} (ho : (count + Triple.const 1).Inside o) :
    ranksOf (neighbors count surroundings) ((count + Triple.const 1).index o)
      = ((List.range R).filter fun q => Contains count p o (pos q)).map (fun q : ℕ => (q : ℤ)) := by
  have hsorted := pairwise_neighs count surroundings
  have hkeys : ((neighs count surroundings).map Prod.fst).Pairwise (· ≤ ·) := by
    refine List.pairwise_map.mpr (hsorted.imp fun hle => ?_)
    simp only [pairLE, decide_eq_true_eq] at hle
    omega
  have hlt : ∀ k ∈ (neighs count surroundings).map Prod.fst, k < (count + Triple.const 1).mul := by
    intro k hk
    obtain ⟨⟨_, q⟩, hmem, rfl⟩ := List.mem_map.mp hk
    obtain ⟨i, hi, -, -, o', ho', heq⟩ := mem_neighs_iff.mp hmem
    obtain ⟨δ, hδ, rfl⟩ := h.exists_cell hi
    exact heq ▸ (inside_of_mem_sideNodes hδ ho').index_lt
  -- every node lies in the block of its own rank
  have hall : ∀ n < (count + Triple.const 1).mul, n ∈ (neighs count surroundings).map Prod.fst := by
    intro n hn
    obtain ⟨o', ho', rfl⟩ := Triple.exists_index hn
    obtain ⟨own, hown, hpos⟩ := h.own
    refine List.mem_map_of_mem (f := Prod.fst) (a := (_, (own : ℤ))) ?_
    exact (h.mem_neighs hflat ho').mpr ⟨own, hown, rfl, o', ho', hpos ▸ fun d => by simp [sameAt]⟩
  have hn := ho.index_lt
  have hget : ∀ n ≤ (count + Triple.const 1).mul,
      (neighbors count surroundings).1.getD n 0
        = Grouped.before ((neighs count surroundings).map Prod.fst) n := by
    intro n hn
    rw [neighbors, Grouped.boundaries_eq hkeys (by omega) hall hlt, List.getD_eq_getElem _ _ (by
      rw [List.length_map, List.length_range]
      omega), List.getElem_map, List.getElem_range]
  rw [ranksOf, hget _ (by omega), hget _ (by omega)]
  change List.take _ (List.drop _ ((neighs count surroundings).map Prod.snd)) = _
  rw [← List.map_drop, ← List.map_take, Grouped.slice_eq hkeys]
  -- both lists ascend
  refine List.Pairwise.eq_of_mem_iff (r := (· < ·)) ?_ ?_ fun q => ?_
  · refine List.pairwise_map.mpr ?_
    have hpair := (hsorted.and h.nodup_neighs).filter fun e => decide (e.1 = (count + Triple.const 1).index o)
    refine List.Pairwise.imp_of_mem ?_ hpair
    rintro ⟨n, q⟩ ⟨n', q'⟩ hmem hmem' ⟨hle, hne⟩
    have hn := (List.mem_filter.mp hmem).2
    have hn' := (List.mem_filter.mp hmem').2
    simp only [pairLE, decide_eq_true_eq] at hle hn hn'
    refine lt_of_le_of_ne (by omega) fun hq => hne ?_
    exact Prod.ext (hn.trans hn'.symm) hq
  · refine List.pairwise_map.mpr ((List.pairwise_lt_range.filter _).imp fun hlt => ?_)
    exact Int.ofNat_lt.mpr hlt
  · constructor
    · intro hq
      obtain ⟨⟨n, q⟩, hmem, rfl⟩ := List.mem_map.mp hq
      obtain ⟨hmem, hn⟩ := List.mem_filter.mp hmem
      obtain rfl := of_decide_eq_true hn
      obtain ⟨r, hr, rfl, hcontains⟩ := (h.mem_neighs hflat ho).mp hmem
      exact List.mem_map_of_mem
        (List.mem_filter.mpr ⟨List.mem_range.mpr hr, decide_eq_true hcontains⟩)
    · intro hq
      obtain ⟨r, hr, rfl⟩ := List.mem_map.mp hq
      obtain ⟨hr, hcontains⟩ := List.mem_filter.mp hr
      refine List.mem_map.mpr ⟨((count + Triple.const 1).index o, (r : ℤ)), ?_, rfl⟩
      refine List.mem_filter.mpr ⟨(h.mem_neighs hflat ho).mpr ?_, decide_eq_true rfl⟩
      exact ⟨r, List.mem_range.mp hr, rfl, of_decide_eq_true hcontains⟩

end Surrounds

end Espreso.Generator
