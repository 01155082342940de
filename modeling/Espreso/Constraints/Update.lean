import Espreso.Basis.Utils
import Espreso.Constraints.Offsets

/-!
# Dirichlet nodes and sizes of intervals

`Constraints::update` collects the Dirichlet nodes of every interval, checks that the regions do not
overlap, and numbers the blocks of Dirichlet rows and of gluing rows over all ranks.

* `intervalDirichletNodes`, `dsize`, `getDirichletSize`, `getGluingSize` — what a rank computes for
  one interval, and the same on the whole mesh under `System`.
* `update` — the function, and **`update_eq`** — what every rank holds afterwards.
-/

namespace Espreso

open Layout

/-! ## The code -/

section Code

variable (DOFs : ℕ) (redundant : Bool) (p : ProcessInterval)

/-- The nodes that all regions insert for one degree of freedom. -/
def insertedNodes (dof : ℕ) : List ℕ := (p.regions dof).flatMap Region.nodes

/-- `_intervalDirichletNodes[dof][i]` -/
def intervalDirichletNodes (dof : ℕ) : List ℕ := sortAndRemoveDuplicity (insertedNodes p dof)

/-- The check "DIRICHLET intervals have to be disjunct": removing duplicates removes nothing. -/
def dirichletDisjunct : Prop :=
  ∀ dof < DOFs, (insertedNodes p dof).length = (intervalDirichletNodes p dof).length

instance : Decidable (dirichletDisjunct DOFs p) := Nat.decidableBallLT _ _

/-- `dsize[i]` -/
def dsize : ℕ := start (fun dof => (intervalDirichletNodes p dof).length) DOFs

/-- The lambda `getDirichletSize`. -/
def getDirichletSize : ℕ := if redundant then p.domains.length * dsize DOFs p else dsize DOFs p

/-- The lambda `getGluingSize`. -/
def getGluingSize : ℕ :=
  if p.domains.length = 1 then 0 else
  if redundant then
    (DOFs * (p.end' - p.begin') - dsize DOFs p) * (p.domains.length * (p.domains.length - 1) / 2)
  else DOFs * (p.end' - p.begin') * (p.domains.length - 1)

end Code

/-- An interval of a rank with the offsets that `update` stores for it. -/
structure ConstrainedInterval where
  pinterval : ProcessInterval
  intervalDirichletOffset : ℕ
  intervalGluingOffset : ℕ

/-- What `update` leaves on a rank. -/
structure Constraints where
  dirichletSize : ℕ
  gluingSize : ℕ
  intervals : List ConstrainedInterval

def attachOffsets (dirichletSize : ℕ) :
    List ProcessInterval → List ℕ → List ℕ → List ConstrainedInterval
  | p :: ps, d :: ds, g :: gs => ⟨p, d, dirichletSize + g⟩ :: attachOffsets dirichletSize ps ds gs
  | _, _, _ => []

/-- `Constraints::update` on rank `rank` of `size` ranks; overlapping regions are an error. -/
def update (meshes : ℕ → Mesh) (size DOFs : ℕ) (redundant : Bool) (rank : ℕ) :
    Option Constraints :=
  if ∀ p ∈ (meshes rank).pintervals, dirichletDisjunct DOFs p then
    (computeIntervalsOffsets meshes size (getDirichletSize DOFs redundant) rank).bind fun dirichlet =>
    (computeIntervalsOffsets meshes size (getGluingSize DOFs redundant) rank).map fun gluing =>
      ⟨dirichlet.2, gluing.2,
        attachOffsets dirichlet.2 (meshes rank).pintervals dirichlet.1 gluing.1⟩
  else none

/-! ## The whole mesh -/

namespace System

variable (sys : System)

/-- The positions of the Dirichlet nodes of an interval, ascending. -/
def dirichlet (g dof : ℕ) : List ℕ :=
  sortAndRemoveDuplicity (((sys.interval g).regions dof).flatMap Region.nodes)

def ndomains (g : ℕ) : ℕ := (sys.interval g).domains.length

/-- The number of constrained pairs of a node and a degree of freedom. -/
def dsize (g : ℕ) : ℕ := start (fun dof => (sys.dirichlet g dof).length) sys.DOFs

def dirichletRows (redundant : Bool) (g : ℕ) : ℕ :=
  if redundant then sys.ndomains g * sys.dsize g else sys.dsize g

def gluingRows (redundant : Bool) (g : ℕ) : ℕ :=
  if sys.ndomains g = 1 then 0 else
  if redundant then
    (sys.DOFs * (sys.interval g).size - sys.dsize g) * (sys.ndomains g * (sys.ndomains g - 1) / 2)
  else sys.DOFs * (sys.interval g).size * (sys.ndomains g - 1)

/-- `dirichletSize`, the number of all Dirichlet rows. -/
def dirichletSize (redundant : Bool) : ℕ := start (sys.dirichletRows redundant) sys.count

/-- `gluingSize`, the number of all gluing rows. -/
def gluingSize (redundant : Bool) : ℕ := start (sys.gluingRows redundant) sys.count

/-- Interval `g` on rank `r` after `update`. -/
def constrained (redundant : Bool) (r g : ℕ) : ConstrainedInterval :=
  ⟨sys.view (sys.nodeOffset r g) g, sys.offset (sys.dirichletRows redundant) g,
    sys.dirichletSize redundant + sys.offset (sys.gluingRows redundant) g⟩

variable {sys}

lemma ndomains_pos (sys : System) (g : ℕ) : 0 < sys.ndomains g :=
  List.length_pos_of_ne_nil (sys.interval g).nonempty

lemma dirichlet_sorted (g dof : ℕ) : (sys.dirichlet g dof).Pairwise (· < ·) :=
  sortAndRemoveDuplicity_sorted _

lemma dirichlet_perm (g dof : ℕ) :
    (sys.dirichlet g dof).Perm (((sys.interval g).regions dof).flatMap Region.nodes) :=
  sortAndRemoveDuplicity_perm ((sys.interval g).region_disjoint dof)

lemma dirichlet_lt {g dof k : ℕ} (hk : k ∈ sys.dirichlet g dof) : k < (sys.interval g).size := by
  obtain ⟨r, hr, hk⟩ := List.mem_flatMap.mp ((dirichlet_perm g dof).mem_iff.mp hk)
  exact (sys.interval g).region_lt dof r hr k hk

lemma insertedNodes_view (off g dof : ℕ) :
    insertedNodes (sys.view off g) dof
      = (((sys.interval g).regions dof).flatMap Region.nodes).map (off + ·) := by
  simp only [insertedNodes, view, List.flatMap_map, List.map_flatMap]

@[simp] lemma intervalDirichletNodes_view (off g dof : ℕ) :
    intervalDirichletNodes (sys.view off g) dof = (sys.dirichlet g dof).map (off + ·) := by
  rw [intervalDirichletNodes, insertedNodes_view,
    sortAndRemoveDuplicity_map fun a _ b _ hab => Nat.add_lt_add_left hab off]
  rfl

lemma dirichletDisjunct_view (off g : ℕ) : dirichletDisjunct sys.DOFs (sys.view off g) := by
  intro dof _
  rw [intervalDirichletNodes_view, insertedNodes_view, List.length_map, List.length_map,
    (dirichlet_perm g dof).length_eq]

@[simp] lemma dsize_view (off g : ℕ) : Espreso.dsize sys.DOFs (sys.view off g) = sys.dsize g := by
  simp [Espreso.dsize, dsize]

lemma getDirichletSize_view (redundant : Bool) (off g : ℕ) :
    getDirichletSize sys.DOFs redundant (sys.view off g) = sys.dirichletRows redundant g := by
  rw [getDirichletSize, dsize_view]
  rfl

lemma getGluingSize_view (redundant : Bool) (off g : ℕ) :
    getGluingSize sys.DOFs redundant (sys.view off g) = sys.gluingRows redundant g := by
  rw [getGluingSize, dsize_view]
  simp only [view, Nat.add_sub_cancel_left]
  rfl

lemma attachOffsets_map {α : Type} (dirichletSize : ℕ) (l : List α) (p : α → ProcessInterval)
    (d g : α → ℕ) :
    attachOffsets dirichletSize (l.map p) (l.map d) (l.map g)
      = l.map fun a => ⟨p a, d a, dirichletSize + g a⟩ := by
  induction l with
  | nil => rfl
  | cons a l ih => simp [attachOffsets, ih]

/-- **After `update`** every rank holds the sizes of the whole mesh, and for each of its intervals
the offsets of the common numbering. -/
theorem update_eq (sys : System) (redundant : Bool) {r : ℕ} (hr : r < sys.ranks) :
    update sys.mesh sys.ranks sys.DOFs redundant r
      = some ⟨sys.dirichletSize redundant, sys.gluingSize redundant,
          (sys.ids r).map (sys.constrained redundant r)⟩ := by
  have hcheck : ∀ p ∈ (sys.mesh r).pintervals, dirichletDisjunct sys.DOFs p := by
    rw [pintervals_eq]
    intro p hp
    obtain ⟨g, -, rfl⟩ := List.mem_map.mp hp
    exact dirichletDisjunct_view _ _
  rw [Espreso.update, if_pos hcheck,
    computeIntervalsOffsets_eq hr (getDirichletSize_view redundant), Option.bind_some,
    computeIntervalsOffsets_eq hr (getGluingSize_view redundant), Option.map_some, pintervals_eq,
    attachOffsets_map]
  rfl

end System

end Espreso
