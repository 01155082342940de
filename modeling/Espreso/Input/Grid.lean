import Espreso.Input.Block
import Mathlib.Tactic.Linarith

/-!
# Grids of clusters

Each rank finds its cluster in the grid alone: it runs through all positions, counts the clusters that
are not empty and stops counting at its own.

* `GridSettings` — the settings, with one flag for each position.
* **`GridSettings.place_eq`** — the loop stops at the first flag that is not set.
* **`GridSettings.generated_iff`** — a grid is generated correctly if and only if its empty positions
  are the last ones.
-/

namespace Espreso.Generator

/-! ## Settings -/

/-- The flags of the positions as `GridSettings::GridSettings` reads them from `configuration.blocks`.
An index out of range is an error. -/
def readBlocks (blocks : List (ℕ × Bool)) (nonempty : List Bool) : Option (List Bool) :=
  blocks.foldlM (fun nonempty it =>
    if it.1 ≥ nonempty.length then none else some (nonempty.set it.1 it.2)) nonempty

lemma length_readBlocks {blocks : List (ℕ × Bool)} {nonempty nonempty' : List Bool}
    (h : readBlocks blocks nonempty = some nonempty') : nonempty'.length = nonempty.length := by
  induction blocks generalizing nonempty with
  | nil => exact congrArg List.length (Option.some.inj h).symm
  | cons it blocks ih =>
      simp only [readBlocks, List.foldlM_cons] at h
      split_ifs at h
      · exact absurd h (by simp)
      · exact (ih h).trans List.length_set

structure GridSettings extends BlockSettings where
  blocks : Triple ℕ
  clusters : Triple ℕ
  nonempty : List Bool
  length_nonempty : nonempty.length = (blocks * clusters).mul

/-- `GridSettings::GridSettings` -/
def GridSettings.ofConfiguration (block : BlockSettings) (blocks clusters : Triple ℕ)
    (configurationBlocks : List (ℕ × Bool)) : Option GridSettings :=
  match h : readBlocks configurationBlocks (List.replicate (blocks * clusters).mul true) with
  | none => none
  | some nonempty => some
      { toBlockSettings := block
        blocks := blocks
        clusters := clusters
        nonempty := nonempty
        length_nonempty := by rw [length_readBlocks h, List.length_replicate] }

/-! ## The generator -/

/-- `std::round` -/
def round (q : ℚ) : ℤ := if 0 ≤ q then ⌊q + 1 / 2⌋ else -⌊-q + 1 / 2⌋

/-- The members that `GridGenerator::init` sets, and its counter of clusters. -/
structure GridGenerator where
  cluster : ℕ
  clusterIndices : List ℤ
  clusterOffset : Triple ℕ
  start : Triple ℤ
  end_ : Triple ℤ
deriving DecidableEq

namespace GridSettings

variable (S : GridSettings)

def positions : List (Triple ℕ) := box (S.blocks * S.clusters)

/-- `start + ((end - start) / clusters * offset).round()` -/
def cut (start end_ : Triple ℤ) (offset : Triple ℕ) : Triple ℤ :=
  start + ((end_ - start).map (fun i : ℤ => (i : ℚ)) / S.clusters.map (fun n : ℕ => (n : ℚ))
    * offset.map (fun n : ℕ => (n : ℚ))).map round

/-- One position of the loop of `init`, where `begin` clusters were counted before the grid. -/
def placeStep (MPIrank begin : ℕ) (g : GridGenerator) (offset : Triple ℕ) : GridGenerator :=
  if S.nonempty.getD (g.cluster - begin) false then
    if g.cluster = MPIrank then
      { cluster := g.cluster + 1
        clusterIndices := g.clusterIndices ++ [(g.cluster : ℤ)]
        clusterOffset := offset
        start := S.cut g.start g.end_ offset
        end_ := S.cut g.start g.end_ (offset + Triple.const 1) }
    else
      { g with
        cluster := g.cluster + 1
        clusterIndices := g.clusterIndices ++ [(g.cluster : ℤ)] }
  else { g with clusterIndices := g.clusterIndices ++ [-1] }

/-- The loop of `init` over all positions. -/
def place (MPIrank begin : ℕ) (g : GridGenerator) : GridGenerator :=
  S.positions.foldl (S.placeStep MPIrank begin) g

/-- The generator before `init`. -/
def initial : GridGenerator :=
  { cluster := 0, clusterIndices := [], clusterOffset := Triple.const 0
    start := S.start, end_ := S.end_ }

/-- `GridGenerator::init`, which fails when the clusters are not as many as the ranks. -/
def init (MPIrank MPIsize : ℕ) : Option GridGenerator :=
  let g := S.place MPIrank 0 S.initial
  if g.cluster ≠ MPIsize then none else some g

/-- `_settings` after `init`. -/
def located (g : GridGenerator) : BlockSettings :=
  { S.toBlockSettings with start := g.start, end_ := g.end_ }

/-- `nIDs` of `GridGenerator::nodes`. -/
def nodes (g : GridGenerator) : List ℕ :=
  let cnodes := S.count
  let gnodes := S.blocks * S.clusters * cnodes
  let coffset := g.clusterOffset * cnodes
  (box (cnodes + Triple.const 1)).map fun offset => (gnodes + Triple.const 1).index (coffset + offset)

/-- `map` of `GridGenerator::neighbors`: the clusters around the own one, with `-1` outside of the
grid. -/
def surroundings (g : GridGenerator) : List ℤ :=
  let count := (S.blocks * S.clusters).map fun n : ℕ => (n : ℤ)
  (box cells).map fun index =>
    let offset := index.map (fun n : ℕ => (n : ℤ)) - Triple.const 1
    let position := g.clusterOffset.map (fun n : ℕ => (n : ℤ)) + offset
    if position.anyBelow 0 ∨ (count - position).anyBelow 1 then -1
    else g.clusterIndices.getD ((S.blocks * S.clusters).index (position.map Int.toNat)) 0

/-- `GridGenerator::neighbors` -/
def neighbors (g : GridGenerator) : List ℕ × List ℤ := Generator.neighbors S.count (S.surroundings g)

/-! ## The loop over the positions -/

def leading : ℕ := (S.nonempty.takeWhile id).length

lemma leading_le : S.leading ≤ S.nonempty.length := (List.takeWhile_sublist id).length_le

lemma getD_nonempty_iff {k : ℕ} (hk : k ≤ S.leading) :
    S.nonempty.getD k false = true ↔ k < S.leading := by
  have hsplit : ∀ (l : List Bool) (k : ℕ), k ≤ (l.takeWhile id).length →
      (l.getD k false = true ↔ k < (l.takeWhile id).length) := by
    intro l
    induction l with
    | nil => simp
    | cons b l ih =>
        rintro k hk
        rcases b with _ | _
        · simp_all
        · rw [List.takeWhile_cons_of_pos rfl, List.length_cons] at hk ⊢
          rcases k with _ | k
          · simp
          · rw [List.getD_cons_succ, ih k (by omega)]
            omega
  exact hsplit S.nonempty k hk

/-- What the loop made of a generator within the first `k` positions. -/
def placed (MPIrank begin : ℕ) (g : GridGenerator) (k : ℕ) : GridGenerator :=
  let own := begin ≤ MPIrank ∧ MPIrank < begin + min k S.leading
  let offset := S.positions.getD (MPIrank - begin) (Triple.const 0)
  { cluster := begin + min k S.leading
    clusterIndices := g.clusterIndices
      ++ (List.range k).map fun i => if i < S.leading then ((begin + i : ℕ) : ℤ) else -1
    clusterOffset := if own then offset else g.clusterOffset
    start := if own then S.cut g.start g.end_ offset else g.start
    end_ := if own then S.cut g.start g.end_ (offset + Triple.const 1) else g.end_ }

lemma placeStep_placed {MPIrank begin : ℕ} {g : GridGenerator} {k : ℕ} (hk : k < S.positions.length) :
    S.placeStep MPIrank begin (S.placed MPIrank begin g k) S.positions[k]
      = S.placed MPIrank begin g (k + 1) := by
  have hflag := S.getD_nonempty_iff (min_le_right k S.leading)
  rw [placeStep]
  simp only [placed, Nat.add_sub_cancel_left, hflag, List.range_succ, List.map_append,
    List.map_singleton]
  rcases Nat.lt_or_ge k S.leading with hlt | hge
  · have hmin : min k S.leading = k := min_eq_left hlt.le
    have hmin' : min (k + 1) S.leading = k + 1 := min_eq_left hlt
    simp only [hmin, hmin', if_pos hlt]
    split_ifs with hrank h₁ h₂ h₂
    · omega
    · omega
    · obtain rfl := hrank
      rw [Nat.add_sub_cancel_left, List.getD_eq_getElem _ _ hk, List.append_assoc]
      rfl
    all_goals first | omega | rw [List.append_assoc]; rfl
  · have hmin : min k S.leading = S.leading := min_eq_right hge
    have hmin' : min (k + 1) S.leading = S.leading := min_eq_right (by omega)
    simp only [hmin, hmin', lt_irrefl, if_false, if_neg (Nat.not_lt.mpr hge), List.append_assoc]

/-- **The loop** stops counting at the first flag that is not set. -/
theorem place_eq (MPIrank begin : ℕ) {g : GridGenerator} (hg : g.cluster = begin) :
    S.place MPIrank begin g = S.placed MPIrank begin g S.positions.length := by
  have hrun : ∀ k ≤ S.positions.length, (S.positions.take k).foldl (S.placeStep MPIrank begin) g
      = S.placed MPIrank begin g k := by
    intro k
    induction k with
    | zero =>
        rintro -
        obtain rfl := hg
        have hown : ¬(g.cluster ≤ MPIrank ∧ MPIrank < g.cluster) := by omega
        simp [placed, hown]
    | succ k ih =>
        intro hk
        have hk : k < S.positions.length := hk
        rw [List.take_add_one, List.getElem?_eq_getElem hk, List.foldl_append, ih hk.le]
        exact S.placeStep_placed hk
  rw [place, ← hrun _ le_rfl, List.take_length]

lemma length_positions : S.positions.length = S.nonempty.length := by
  rw [positions, length_box, S.length_nonempty]

/-- The initialization succeeds when the loop stops at the number of the ranks. -/
theorem init_eq (MPIrank MPIsize : ℕ) : S.init MPIrank MPIsize = if S.leading = MPIsize then
    some (S.placed MPIrank 0 S.initial S.positions.length) else none := by
  have hcluster : (S.placed MPIrank 0 S.initial S.positions.length).cluster = S.leading := by
    have hmin : min S.positions.length S.leading = S.leading := by
      rw [length_positions]
      exact min_eq_right S.leading_le
    simp only [placed, hmin, Nat.zero_add]
  simp only [init, S.place_eq MPIrank 0 (g := S.initial) rfl, hcluster, ne_eq, ite_not]

/-! ## What a grid should be -/

/-- The number of ranks: one for each position that is not empty. -/
def MPIsize : ℕ := S.nonempty.countP id

/-- The positions that are not empty, in the order of the loops. -/
def occupied : List (Triple ℕ) :=
  S.positions.filter fun t => S.nonempty.getD ((S.blocks * S.clusters).index t) false

/-- **A generated grid.**  The members of all ranks, which are right if the following holds. -/
structure Generated (grid : ℕ → GridGenerator) : Prop where
  /-- every rank is initialized -/
  initialized : ∀ r < S.MPIsize, S.init r S.MPIsize = some (grid r)
  /-- the ranks have the positions that are not empty, in their order -/
  assigned : (List.range S.MPIsize).map (fun r => (grid r).clusterOffset) = S.occupied
  /-- two nodes have the same ID if and only if they are the same node -/
  ids : ∀ r < S.MPIsize, ∀ r' < S.MPIsize, ∀ o o', (S.count + Triple.const 1).Inside o →
    (S.count + Triple.const 1).Inside o' →
    ((S.nodes (grid r))[(S.count + Triple.const 1).index o]?
        = (S.nodes (grid r'))[(S.count + Triple.const 1).index o']? ↔
      SameNode S.count (grid r).clusterOffset o (grid r').clusterOffset o')
  /-- adjacent positions have the same coordinates on their common side -/
  sides : ∀ r < S.MPIsize, ∀ r' < S.MPIsize, ∀ d,
    (grid r').clusterOffset.get d = (grid r).clusterOffset.get d + 1 →
    (∀ e ≠ d, (grid r').clusterOffset.get e = (grid r).clusterOffset.get e) →
    ∀ o o', (S.count + Triple.const 1).Inside o → (S.count + Triple.const 1).Inside o' →
      o.get d = S.count.get d → o'.get d = 0 → (∀ e ≠ d, o'.get e = o.get e) →
      (S.located (grid r)).coordinates[(S.count + Triple.const 1).index o]?
        = (S.located (grid r')).coordinates[(S.count + Triple.const 1).index o']?
  /-- the ranks of a node are those whose cluster contains it, in ascending order -/
  ranks : ∀ r < S.MPIsize, ∀ o, (S.count + Triple.const 1).Inside o →
    ranksOf (S.neighbors (grid r)) ((S.count + Triple.const 1).index o)
      = ((List.range S.MPIsize).filter fun q =>
          Contains S.count (grid r).clusterOffset o (grid q).clusterOffset).map fun q : ℕ => (q : ℤ)

/-- **The empty positions are the last ones**, and a grid of planes has one layer. -/
structure Regular : Prop where
  leading : S.nonempty.Pairwise fun a b => b = true → a = true
  layer : S.element_type.plane → ∀ t ∈ S.occupied, ∀ t' ∈ S.occupied, t.z = t'.z

/-! ## Grids with leading clusters -/

def position (r : ℕ) : Triple ℕ := S.positions.getD r (Triple.const 0)

lemma MPIsize_le : S.MPIsize ≤ S.positions.length := by
  rw [length_positions]
  exact List.countP_le_length

lemma inside_position {r : ℕ} (hr : r < S.positions.length) :
    (S.blocks * S.clusters).Inside (S.position r) := by
  rw [position, List.getD_eq_getElem _ _ hr]
  exact mem_box.mp (List.getElem_mem hr)

lemma index_getElem_positions {i : ℕ} (hi : i < S.positions.length) :
    (S.blocks * S.clusters).index S.positions[i] = i := index_getElem_box _ hi

lemma index_position {r : ℕ} (hr : r < S.positions.length) :
    (S.blocks * S.clusters).index (S.position r) = r := by
  rw [position, List.getD_eq_getElem _ _ hr, S.index_getElem_positions]

lemma position_index {t : Triple ℕ} (ht : (S.blocks * S.clusters).Inside t) :
    S.position ((S.blocks * S.clusters).index t) = t := by
  have hlt : (S.blocks * S.clusters).index t < S.positions.length := by
    rw [positions, length_box]
    exact ht.index_lt
  exact (S.inside_position hlt).index_inj ht (S.index_position hlt)

def grid (r : ℕ) : GridGenerator := S.placed r 0 S.initial S.positions.length

variable {S}

lemma leading_eq (h : S.nonempty.Pairwise fun a b => b = true → a = true) : S.leading = S.MPIsize :=
  Grouped.length_takeWhile_eq_countP_iff.mpr h

lemma occupied_eq (h : S.nonempty.Pairwise fun a b => b = true → a = true) :
    S.occupied = S.positions.take S.MPIsize := by
  have hflag : ∀ {k}, k < S.positions.length →
      (S.nonempty.getD k false = true ↔ k < S.MPIsize) := by
    intro k hk
    rw [length_positions] at hk
    rw [List.getD_eq_getElem _ _ hk]
    exact Grouped.getElem_iff (P := id) h hk
  rw [occupied]
  conv_lhs => rw [← List.take_append_drop S.MPIsize S.positions, List.filter_append]
  rw [List.filter_eq_self.mpr, List.filter_eq_nil_iff.mpr, List.append_nil]
  · intro t ht
    obtain ⟨i, hi, rfl⟩ := List.mem_iff_getElem.mp ht
    rw [List.length_drop] at hi
    rw [List.getElem_drop, S.index_getElem_positions, hflag (by omega)]
    omega
  · intro t ht
    obtain ⟨i, hi, rfl⟩ := List.mem_iff_getElem.mp ht
    rw [List.length_take] at hi
    rw [List.getElem_take, S.index_getElem_positions, hflag (by omega)]
    omega

lemma mem_occupied (h : S.nonempty.Pairwise fun a b => b = true → a = true) {t : Triple ℕ} :
    t ∈ S.occupied ↔ ∃ r < S.MPIsize, S.position r = t := by
  have hle := S.MPIsize_le
  rw [occupied_eq h, List.mem_take_iff_getElem]
  constructor
  · rintro ⟨r, hr, rfl⟩
    exact ⟨r, by omega, List.getD_eq_getElem _ _ (by omega)⟩
  · rintro ⟨r, hr, rfl⟩
    exact ⟨r, by omega, (List.getD_eq_getElem _ _ (by omega)).symm⟩

/-! ## The members of a rank -/

section Members

variable {r : ℕ} (hr : r < S.leading)

include hr

lemma placed_own : 0 ≤ r ∧ r < 0 + min S.positions.length S.leading := by
  have := S.leading_le
  rw [length_positions]
  omega

lemma grid_clusterOffset : (S.grid r).clusterOffset = S.position r := if_pos (placed_own hr)

lemma grid_start : (S.grid r).start = S.cut S.start S.end_ (S.position r) := if_pos (placed_own hr)

lemma grid_end : (S.grid r).end_ = S.cut S.start S.end_ (S.position r + Triple.const 1) :=
  if_pos (placed_own hr)

end Members

lemma grid_clusterIndices (r : ℕ) : (S.grid r).clusterIndices
    = (List.range S.positions.length).map fun i => if i < S.leading then (i : ℤ) else -1 := by
  simp only [grid, placed, initial, List.nil_append, Nat.zero_add]

lemma get_cut (start end_ : Triple ℤ) (offset : Triple ℕ) (d : Direction) :
    (S.cut start end_ offset).get d = start.get d
      + round (((end_.get d - start.get d : ℤ) : ℚ) / S.clusters.get d * offset.get d) := by
  simp only [cut, Triple.get_add, Triple.get_map, Triple.get_mul, Triple.get_div, Triple.get_sub]

/-! ## Node IDs -/

lemma getElem?_nodes (g : GridGenerator) {o : Triple ℕ} (ho : (S.count + Triple.const 1).Inside o) :
    (S.nodes g)[(S.count + Triple.const 1).index o]?
      = some ((S.blocks * S.clusters * S.count + Triple.const 1).index
          (g.clusterOffset * S.count + o)) :=
  getElem?_map_box _ ho

lemma inside_node {p o : Triple ℕ} (hp : (S.blocks * S.clusters).Inside p)
    (ho : (S.count + Triple.const 1).Inside o) :
    (S.blocks * S.clusters * S.count + Triple.const 1).Inside (p * S.count + o) := by
  intro d
  have hp := hp d
  have ho := ho d
  have hmul : (p.get d + 1) * S.count.get d ≤ (S.blocks * S.clusters).get d * S.count.get d :=
    Nat.mul_le_mul_right _ hp
  rw [Nat.add_mul, Nat.one_mul] at hmul
  simp only [Triple.get_add, Triple.get_mul, Triple.get_const] at ho hmul ⊢
  omega

/-- **IDs** tell the nodes of clusters in one layer apart. -/
theorem ids_iff {r r' : ℕ} (hr : r < S.leading) (hr' : r' < S.leading) {o o' : Triple ℕ}
    (ho : (S.count + Triple.const 1).Inside o) (ho' : (S.count + Triple.const 1).Inside o')
    (hflat : ∀ d, S.count.get d = 0 → (S.position r).get d = (S.position r').get d) :
    (S.nodes (S.grid r))[(S.count + Triple.const 1).index o]?
        = (S.nodes (S.grid r'))[(S.count + Triple.const 1).index o']? ↔
      SameNode S.count (S.grid r).clusterOffset o (S.grid r').clusterOffset o' := by
  have hlen := S.leading_le
  rw [← length_positions] at hlen
  have hp := S.inside_position (hr.trans_le hlen)
  have hp' := S.inside_position (hr'.trans_le hlen)
  rw [getElem?_nodes _ ho, getElem?_nodes _ ho', Option.some.injEq, grid_clusterOffset hr,
    grid_clusterOffset hr']
  constructor
  · intro heq
    have hnode := (inside_node hp ho).index_inj (inside_node hp' ho') heq
    intro d
    rw [sameAt]
    split_ifs with hc
    · exact hflat d hc
    · have hd := congrArg (Triple.get · d) hnode
      simpa only [Triple.get_add, Triple.get_mul] using hd
  · intro hsame
    refine congrArg _ (Triple.ext_get fun d => ?_)
    have hd := hsame d
    simp only [Triple.get_add, Triple.get_mul]
    rw [sameAt] at hd
    split_ifs at hd with hc
    · have hzero := ho d
      have hzero' := ho' d
      simp only [Triple.get_add, Triple.get_const, hc] at hzero hzero'
      rw [hd]
      omega
    · exact hd

/-! ## Coordinates -/

/-- **The common side** of adjacent positions. -/
theorem coordinate_side {r r' : ℕ} (hr : r < S.leading) (hr' : r' < S.leading) {d : Direction}
    (hd : (S.position r').get d = (S.position r).get d + 1)
    (he : ∀ e ≠ d, (S.position r').get e = (S.position r).get e) {o o' : Triple ℕ}
    (ho : o.get d = S.count.get d) (ho' : o'.get d = 0) (hoe : ∀ e ≠ d, o'.get e = o.get e)
    (hpos : 0 < S.count.get d) :
    (S.located (S.grid r)).coordinate o = (S.located (S.grid r')).coordinate o' := by
  ext e
  by_cases hed : e = d
  · obtain rfl := hed
    rw [(S.located (S.grid r)).get_coordinate_end ho hpos, BlockSettings.get_coordinate_start _ ho']
    change BlockSettings.precision * ((S.grid r).end_.get e : ℚ)
      = BlockSettings.precision * ((S.grid r').start.get e : ℚ)
    rw [grid_end hr, grid_start hr', get_cut, get_cut, hd, Triple.get_add, Triple.get_const]
  · have hstart : (S.located (S.grid r)).start.get e = (S.located (S.grid r')).start.get e := by
      change (S.grid r).start.get e = (S.grid r').start.get e
      rw [grid_start hr, grid_start hr', get_cut, get_cut, he e hed]
    have hend : (S.located (S.grid r)).end_.get e = (S.located (S.grid r')).end_.get e := by
      change (S.grid r).end_.get e = (S.grid r').end_.get e
      rw [grid_end hr, grid_end hr', get_cut, get_cut, Triple.get_add, Triple.get_add, he e hed]
    rw [BlockSettings.get_coordinate, BlockSettings.get_coordinate, hstart, hend, hoe e hed]
    rfl

/-! ## The clusters around a cluster -/

lemma getD_surroundings {g : GridGenerator} {δ t : Triple ℕ} (hδ : cells.Inside δ)
    (ht : (S.blocks * S.clusters).Inside t)
    (hcell : ∀ d, t.get d + 1 = g.clusterOffset.get d + δ.get d) :
    (S.surroundings g).getD (cells.index δ) 0
      = g.clusterIndices.getD ((S.blocks * S.clusters).index t) 0 := by
  have hposition : g.clusterOffset.map (fun n : ℕ => (n : ℤ))
      + (δ.map (fun n : ℕ => (n : ℤ)) - Triple.const 1) = t.map fun n : ℕ => (n : ℤ) := by
    ext d
    have hd := hcell d
    simp only [Triple.get_add, Triple.get_sub, Triple.get_map, Triple.get_const]
    omega
  rw [List.getD_eq_getElem?_getD, surroundings, getElem?_map_box _ hδ, Option.getD_some]
  simp only [hposition]
  rw [if_neg]
  · refine congrArg (g.clusterIndices.getD · 0) (congrArg _ (Triple.ext_get fun d => ?_))
    simp only [Triple.get_map, Int.toNat_natCast]
  · simp only [Triple.anyBelow_iff]
    rintro (⟨d, hd⟩ | ⟨d, hd⟩)
    · simp only [Triple.get_map] at hd
      omega
    · have hlt := ht d
      simp only [Triple.get_map, Triple.get_sub] at hd
      omega

lemma getD_surroundings_outside {g : GridGenerator} {δ : Triple ℕ} (hδ : cells.Inside δ)
    (hcell : ¬∃ t, (S.blocks * S.clusters).Inside t ∧
      ∀ d, t.get d + 1 = g.clusterOffset.get d + δ.get d) :
    (S.surroundings g).getD (cells.index δ) 0 = -1 := by
  rw [List.getD_eq_getElem?_getD, surroundings, getElem?_map_box _ hδ, Option.getD_some]
  refine if_pos (by_contra fun hout => hcell ?_)
  simp only [Triple.anyBelow_iff, not_or, not_exists, Triple.get_add, Triple.get_sub,
    Triple.get_map, Triple.get_const] at hout
  refine ⟨Triple.ofFn fun d => g.clusterOffset.get d + δ.get d - 1, fun d => ?_, fun d => ?_⟩
  · have h₁ := hout.1 d
    have h₂ := hout.2 d
    rw [Triple.get_ofFn]
    omega
  · have h₁ := hout.1 d
    rw [Triple.get_ofFn]
    omega

lemma surrounds {r : ℕ} (hr : r < S.leading) :
    Surrounds (S.surroundings (S.grid r)) S.leading S.position (S.position r) where
  length := by
    rw [surroundings, List.length_map, length_box]
    rfl
  own := ⟨r, hr, rfl⟩
  rank := by
    intro δ hδ q
    have hlen := S.leading_le
    rw [← length_positions] at hlen
    by_cases hcell : ∃ t, (S.blocks * S.clusters).Inside t ∧
        ∀ d, t.get d + 1 = (S.grid r).clusterOffset.get d + δ.get d
    · obtain ⟨t, ht, hcell⟩ := hcell
      have hlt : (S.blocks * S.clusters).index t < S.positions.length := by
        rw [positions, length_box]
        exact ht.index_lt
      rw [getD_surroundings hδ ht hcell, grid_clusterIndices, List.getD_eq_getElem _ _ (by simpa),
        List.getElem_map, List.getElem_range]
      rw [grid_clusterOffset hr] at hcell
      simp only [← hcell, Nat.add_right_cancel_iff]
      constructor
      · intro hq
        split_ifs at hq with hlead
        · obtain rfl : (S.blocks * S.clusters).index t = q := Int.ofNat_inj.mp hq
          exact ⟨hlead, fun d => by rw [S.position_index ht]⟩
      · rintro ⟨hq, hpos⟩
        obtain rfl : S.position q = t := Triple.ext_get hpos
        rw [S.index_position (hq.trans_le hlen), if_pos hq]
    · rw [getD_surroundings_outside hδ hcell]
      refine iff_of_false (by omega) ?_
      rintro ⟨hq, hpos⟩
      refine hcell ⟨S.position q, S.inside_position (hq.trans_le hlen), fun d => ?_⟩
      rw [grid_clusterOffset hr]
      exact hpos d

/-! ## Correct grids -/

lemma init_grid (h : S.leading = S.MPIsize) (r : ℕ) : S.init r S.MPIsize = some (S.grid r) := by
  rw [init_eq, if_pos h]
  rfl

lemma Regular.flat (h : S.Regular) : Flat S.count S.MPIsize S.position := by
  intro d hd q hq q' hq'
  obtain ⟨hplane, rfl⟩ := S.count_eq_zero.mp hd
  exact h.layer hplane _ ((mem_occupied h.leading).mpr ⟨q, hq, rfl⟩) _
    ((mem_occupied h.leading).mpr ⟨q', hq', rfl⟩)

/-- **Regular grids are generated correctly.** -/
theorem Regular.generated (h : S.Regular) : S.Generated S.grid := by
  have hlead := leading_eq h.leading
  have hle := S.MPIsize_le
  refine
    { initialized := fun r _ => init_grid hlead r
      assigned := ?_
      ids := fun r hr r' hr' o o' ho ho' => ids_iff (by omega) (by omega) ho ho' fun d hd =>
        h.flat d hd r hr r' hr'
      sides := ?_
      ranks := ?_ }
  · rw [occupied_eq h.leading]
    refine List.ext_getElem (by simpa using hle) fun r hr hr' => ?_
    rw [List.length_map, List.length_range] at hr
    rw [List.getElem_map, List.getElem_range, List.getElem_take, grid_clusterOffset (by omega),
      position, List.getD_eq_getElem]
  · intro r hr r' hr' d hd he o o' ho ho' hod hod' hoe
    rw [grid_clusterOffset (by omega), grid_clusterOffset (by omega)] at hd
    simp only [grid_clusterOffset (hlead ▸ hr), grid_clusterOffset (hlead ▸ hr')] at he
    -- layers without steps are not adjacent
    have hpos : 0 < S.count.get d := Nat.pos_of_ne_zero fun hzero => by
      have := h.flat d hzero r hr r' hr'
      omega
    have hside := coordinate_side (hlead ▸ hr) (hlead ▸ hr') hd he hod hod' hoe hpos
    rw [BlockSettings.coordinates, BlockSettings.coordinates]
    exact (getElem?_map_box _ ho).trans
      ((congrArg some hside).trans (getElem?_map_box _ ho').symm)
  · intro r hr o ho
    have hsurrounds := surrounds (hlead ▸ hr)
    rw [hlead] at hsurrounds
    rw [neighbors, hsurrounds.ranksOf_neighbors h.flat ho, grid_clusterOffset (by omega)]
    refine congrArg _ (List.filter_congr fun q hq => ?_)
    rw [grid_clusterOffset (hlead ▸ List.mem_range.mp hq)]

lemma leading_le_MPIsize : S.leading ≤ S.MPIsize := by
  have hall : (S.nonempty.takeWhile id).countP id = S.leading :=
    List.countP_eq_length.mpr fun b hb => List.mem_takeWhile_imp hb
  rw [← hall]
  exact (List.takeWhile_sublist id).countP_le

namespace Generated

variable {grid : ℕ → GridGenerator} (h : S.Generated grid)

include h

lemma leading_eq : S.leading = S.MPIsize := by
  rcases Nat.eq_zero_or_pos S.MPIsize with hzero | hpos
  · have := S.leading_le_MPIsize
    omega
  · by_contra hne
    have hinit := h.initialized 0 hpos
    rw [init_eq, if_neg hne] at hinit
    exact absurd hinit (by simp)

lemma grid_eq {r : ℕ} (hr : r < S.MPIsize) : grid r = S.grid r := by
  have hinit := h.initialized r hr
  rw [init_grid h.leading_eq] at hinit
  exact (Option.some.inj hinit).symm

lemma layer_eq (hplane : S.element_type.plane) {t : Triple ℕ} (ht : t ∈ S.occupied) : t.z = 0 := by
  have hlead := Grouped.length_takeWhile_eq_countP_iff.mp h.leading_eq
  have hle := S.MPIsize_le
  obtain ⟨r, hr, rfl⟩ := (mem_occupied hlead).mp ht
  have hinside := S.inside_position (hr.trans_le hle)
  -- the first cluster of the layer
  let corner : Triple ℕ := ⟨0, 0, (S.position r).z⟩
  have hcorner : (S.blocks * S.clusters).Inside corner := by
    intro d
    have hd := hinside d
    cases d
    exacts [Nat.zero_lt_of_lt hd, Nat.zero_lt_of_lt hd, hd]
  have hfirst : (S.blocks * S.clusters).Inside (Triple.const 0) := fun d => by
    rw [Triple.get_const]
    exact Nat.zero_lt_of_lt (hinside d)
  have hindex : (S.blocks * S.clusters).index corner ≤ r := by
    conv_rhs => rw [← S.index_position (hr.trans_le hle)]
    change 0 * 1 + 0 * _ + (S.position r).z * _
      ≤ (S.position r).x * 1 + (S.position r).y * _ + (S.position r).z * _
    omega
  have hzero : (S.blocks * S.clusters).index (Triple.const 0) = 0 := by
    change 0 * 1 + 0 * _ + 0 * _ = 0
    omega
  have hnode : (S.count + Triple.const 1).Inside (Triple.const 0) := fun d => by
    simp only [Triple.get_const, Triple.get_add]
    omega
  have hr₀ : (S.blocks * S.clusters).index (Triple.const 0) < S.MPIsize := by omega
  have hr₁ : (S.blocks * S.clusters).index corner < S.MPIsize := by omega
  have hcount : S.count.get .Z = 0 := S.count_eq_zero.mpr ⟨hplane, rfl⟩
  have hids := h.ids _ hr₀ _ hr₁ _ _ hnode hnode
  rw [h.grid_eq hr₀, h.grid_eq hr₁, getElem?_nodes _ hnode, getElem?_nodes _ hnode,
    grid_clusterOffset (h.leading_eq ▸ hr₀), grid_clusterOffset (h.leading_eq ▸ hr₁),
    S.position_index hfirst, S.position_index hcorner] at hids
  have hsame := hids.mp (congrArg some (congrArg _ (Triple.ext_get fun d => by
    simp only [Triple.get_add, Triple.get_mul, Triple.get_const, Nat.zero_mul, Nat.zero_add]
    cases d
    exacts [(Nat.zero_mul _).symm, (Nat.zero_mul _).symm, by rw [hcount, Nat.mul_zero]])))
  have hz := hsame .Z
  rw [sameAt, if_pos hcount] at hz
  exact hz.symm

end Generated

/-- **A grid is generated correctly** if and only if its empty positions are the last ones and a grid of
planes has one layer. -/
theorem generated_iff (S : GridSettings) : (∃ grid, S.Generated grid) ↔ S.Regular := by
  constructor
  · rintro ⟨grid, h⟩
    exact ⟨Grouped.length_takeWhile_eq_countP_iff.mp h.leading_eq, fun hplane t ht t' ht' =>
      (h.layer_eq hplane ht).trans (h.layer_eq hplane ht').symm⟩
  · exact fun h => ⟨S.grid, h.generated⟩

def middleEmpty : GridSettings where
  element_type := .HEXA8
  domains := Triple.const 1
  elements := Triple.const 1
  start := Triple.const 0
  end_ := Triple.const 10000
  domains_pos := fun d => by cases d <;> decide
  elements_pos := fun d => by cases d <;> decide
  blocks := ⟨3, 1, 1⟩
  clusters := Triple.const 1
  nonempty := [true, false, true]
  length_nonempty := rfl

example : readBlocks [(1, false)] (List.replicate 3 true) = some middleEmpty.nonempty := rfl

/-- Two ranks are as many as the positions that are not empty, and no rank can be initialized. -/
theorem middleEmpty_not_generated : ¬∃ grid, middleEmpty.Generated grid := by
  rintro ⟨grid, h⟩
  have hinit := h.initialized 0 (by decide)
  have hnone : middleEmpty.init 0 middleEmpty.MPIsize = none := by decide +kernel
  exact absurd (hinit.symm.trans hnone) (by simp)

end GridSettings

end Espreso.Generator
