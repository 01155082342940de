import Espreso.Basis.Exchange
import Espreso.Basis.Serialized
import Espreso.Basis.Utils
import Espreso.Lib.Fallible

/-!
# The mesh of all ranks

Each rank has elements with consecutive IDs and the nodes of its elements. Nodes are linked to all
elements that contain them.

* `ElementPart` — the elements and nodes of a rank.
* `ElementMesh` — the mesh of all ranks, with complete links.
* `source_eq`, `exists_rank` — the rank of an element.
-/

namespace Espreso

/-- The elements and nodes of a rank. `nIDs`, `ranks` and `links` belong to the nodes: they are
`nodes->IDs`, `nodes->ranks` and `nodes->elements`. Elements of regions are stored by position. -/
structure ElementPart where
  rank : ℕ
  threads : ℕ
  neighbours : List ℕ
  nIDs : List ℕ
  ranks : List (List ℕ)
  links : Serialized ℤ
  IDs : List ℕ
  nodes : Serialized ℕ
  body : List ℤ
  material : List ℤ
  neighbors : Option (Serialized ℤ)
  regions : List (List ℕ)

namespace ElementPart

variable (P : ElementPart)

/-- The lambda `n2i`. -/
def n2i (neighbor : ℕ) : ℕ := lowerBound P.neighbours neighbor

end ElementPart

/-- Element `e` of some rank contains the node with ID `x`. -/
def ContainsNode (size : ℕ) (part : ℕ → ElementPart) (x e : ℕ) : Prop :=
  ∃ q < size, ∃ i n : ℕ, (part q).IDs[i]? = some e ∧ n ∈ (part q).nodes.row i ∧
    (part q).nIDs[n]? = some x

/-- The mesh of all ranks. Each rank has elements, which have consecutive IDs. A rank knows the
other ranks of its nodes and all elements that contain its nodes. Neighbouring elements have a
common node. -/
structure ElementMesh where
  size : ℕ
  part : ℕ → ElementPart
  rank_eq : ∀ r < size, (part r).rank = r
  threads_pos : ∀ r < size, 0 < (part r).threads
  neighbours_ascending : ∀ r < size, (part r).neighbours.Pairwise (· < ·)
  neighbours_symm : ∀ r < size, ∀ q ∈ (part r).neighbours,
    q < size ∧ q ≠ r ∧ r ∈ (part q).neighbours
  neighbours_of_shared : ∀ r < size, ∀ q < size, q ≠ r →
    (∃ x ∈ (part r).nIDs, x ∈ (part q).nIDs) → q ∈ (part r).neighbours
  ranks_exact : ∀ r < size, ∀ n x : ℕ, (part r).nIDs[n]? = some x →
    (part r).ranks[n]? = some ((List.range size).filter fun q => x ∈ (part q).nIDs)
  IDs_eq : ∀ r < size, (part r).IDs = List.range'
    (((List.range r).map fun q => (part q).IDs.length).sum) (part r).IDs.length
  nonempty : ∀ r < size, 0 < (part r).IDs.length
  nodes_rows : ∀ r < size, ∃ rows, (part r).nodes = Serialized.ofRows rows ∧
    rows.length = (part r).IDs.length
  body_length : ∀ r < size, (part r).body.length = (part r).IDs.length
  material_length : ∀ r < size, (part r).material.length = (part r).IDs.length
  links_rows : ∀ r < size, ∃ rows, (part r).links = Serialized.ofRows rows ∧
    rows.length = (part r).nIDs.length
  links_exact : ∀ r < size, ∀ n x : ℕ, (part r).nIDs[n]? = some x →
    ((part r).links.row n).Pairwise (· < ·) ∧
      ∀ v, v ∈ (part r).links.row n ↔ ∃ e : ℕ, v = e ∧ ContainsNode size part x e
  neighbors_rows : ∀ r < size, ∀ N, (part r).neighbors = some N →
    ∃ rows, N = Serialized.ofRows rows ∧ rows.length = (part r).IDs.length
  neighbors_shared : ∀ r < size, ∀ N, (part r).neighbors = some N → ∀ i < (part r).IDs.length,
    ∀ v ∈ N.row i, v = -1 ∨ ∃ e : ℕ, v = e ∧
      ∃ n ∈ (part r).nodes.row i, ∃ x, (part r).nIDs[n]? = some x ∧ ContainsNode size part x e
  regions_lt : ∀ r < size, ∀ region ∈ (part r).regions, ∀ i ∈ region, i < (part r).IDs.length

namespace ElementMesh

variable (M : ElementMesh)

def begine (r : ℕ) : ℕ := ((List.range r).map fun q => (M.part q).IDs.length).sum

/-- `gatherElementsProcDistribution` -/
def boundaries : List ℕ := getDistribution M.size fun r => (M.part r).IDs.length

variable {M}

/-! ## Elements and their ranks -/

def ranges (M : ElementMesh) :
    Distribution M.size ((List.range M.size).map fun r => (M.part r).IDs.length).sum :=
  Distribution.ofSizes M.size fun r => (M.part r).IDs.length

lemma boundaries_eq : M.boundaries = M.ranges.borders := rfl

lemma border_eq {r : ℕ} (hr : r ≤ M.size) : M.ranges.border r = M.begine r :=
  Distribution.ofSizes_border hr

lemma begine_succ (r : ℕ) : M.begine (r + 1) = M.begine r + (M.part r).IDs.length := by
  rw [begine, List.range_succ, List.map_append, List.sum_append]
  simp [begine]

lemma boundaries_getD {r : ℕ} (hr : r ≤ M.size) : M.boundaries.getD r 0 = M.begine r := by
  rw [List.getD_eq_getElem?_getD, boundaries_eq, M.ranges.getElem?_eq hr, Option.getD_some,
    border_eq hr]

lemma source_eq {r e : ℕ} (hr : r < M.size) (hlow : M.begine r ≤ e) (hhigh : e < M.begine (r + 1)) :
    lowerBound M.boundaries (e + 1) - 1 = r := by
  rw [boundaries_eq, lowerBound_eq M.ranges hr (by rwa [border_eq hr.le]) (by rwa [border_eq hr]),
    Nat.add_sub_cancel]

lemma exists_rank {e : ℕ} (he : e < M.begine M.size) :
    ∃ r < M.size, M.begine r ≤ e ∧ e < M.begine (r + 1) := by
  obtain ⟨r, hr, hlow, hhigh⟩ := M.ranges.exists_range (a := e) he
  rw [border_eq hr.le] at hlow
  rw [border_eq hr] at hhigh
  exact ⟨r, hr, hlow, hhigh⟩

lemma begine_mono {r q : ℕ} (hrq : r ≤ q) (hq : q ≤ M.size) : M.begine r ≤ M.begine q := by
  rw [← border_eq hq, ← border_eq (hrq.trans hq)]
  exact M.ranges.border_mono hrq hq

lemma getElem?_IDs {r i e : ℕ} (hr : r < M.size) :
    (M.part r).IDs[i]? = some e ↔ i < (M.part r).IDs.length ∧ e = M.begine r + i := by
  have hIDs := M.IDs_eq r hr
  constructor
  · intro h
    have hi := (List.getElem?_eq_some_iff.mp h).1
    rw [hIDs, List.getElem?_range' hi, Nat.one_mul] at h
    exact ⟨hi, (Option.some.inj h).symm⟩
  · rintro ⟨hi, rfl⟩
    rw [hIDs, List.getElem?_range' hi, Nat.one_mul]
    rfl

lemma source_add {r i : ℕ} (hr : r < M.size) (hi : i < (M.part r).IDs.length) :
    lowerBound M.boundaries (M.begine r + i + 1) - 1 = r := by
  have hsucc := begine_succ (M := M) r
  exact source_eq hr (Nat.le_add_right _ _) (by omega)

lemma own_iff {r q j : ℕ} (hr : r < M.size) (hq : q < M.size) (hj : j < (M.part q).IDs.length) :
    (M.begine r ≤ M.begine q + j ∧ M.begine q + j < M.begine (r + 1)) ↔ q = r := by
  constructor
  · rintro ⟨hlow, hhigh⟩
    exact (source_add hq hj).symm.trans (source_eq hr hlow hhigh)
  · rintro rfl
    rw [begine_succ]
    omega

lemma position_inj {r q i k e : ℕ} (hr : r < M.size) (hq : q < M.size)
    (hi : (M.part r).IDs[i]? = some e) (hk : (M.part q).IDs[k]? = some e) : r = q ∧ i = k := by
  obtain ⟨hi', rfl⟩ := (getElem?_IDs hr).mp hi
  obtain ⟨hk', heq⟩ := (getElem?_IDs hq).mp hk
  have hsource := source_add hr hi'
  rw [heq, source_add hq hk'] at hsource
  subst hsource
  exact ⟨rfl, by omega⟩

lemma rank_of_contains {x e : ℕ} (h : ContainsNode M.size M.part x e) :
    ∃ q < M.size, x ∈ (M.part q).nIDs ∧ M.begine q ≤ e ∧ e < M.begine (q + 1) := by
  obtain ⟨q, hq, i, n, he, -, hx⟩ := h
  obtain ⟨hi, rfl⟩ := (getElem?_IDs hq).mp he
  refine ⟨q, hq, List.mem_of_getElem? hx, Nat.le_add_right _ _, ?_⟩
  rw [begine_succ]
  omega

lemma n2i_lt {r q : ℕ} (hr : r < M.size) (hq : q ∈ (M.part r).neighbours) :
    (M.part r).neighbours[(M.part r).n2i q]? = some q :=
  (lowerBound_mem (M.neighbours_ascending r hr)).mpr hq

lemma n2i_eq {r q i : ℕ} (hr : r < M.size) (hq : (M.part r).neighbours[i]? = some q) :
    (M.part r).n2i q = i :=
  lowerBound_getElem? (M.neighbours_ascending r hr) hq

end ElementMesh

end Espreso
