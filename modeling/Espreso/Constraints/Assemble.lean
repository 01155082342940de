import Espreso.Constraints.Order

/-!
# All equality constraints of a rank

`update`, `B1DirichletInsert` and `B1GlueElements` one after the other, as the physics assembles
`B1` on cleared arrays.

* `assemble`, `System.assembled` — the code, and what it leaves.
* **`clustersMap_rows`**, **`subdomainsMap_eq`** — the two maps in closed form.
* **`Arranged.clustersMap_ascending`**, **`Arranged.subdomainsMap_ascending`** — both ascend.
* **`subdomainsMap_subset`** — the rows of a domain are rows of its rank.
-/

namespace Espreso

open Layout

def assemble (meshes : ℕ → Mesh) (size DOFs : ℕ) (redundant : Bool) (internalForceReduction : ℚ)
    (rank : ℕ) : Option Instance :=
  (update meshes size DOFs redundant rank).map fun constraints =>
    B1GlueElements DOFs redundant (meshes rank) constraints
      (B1DirichletInsert DOFs redundant internalForceReduction (meshes rank) constraints
        Instance.clear)

namespace System

variable (sys : System) (redundant : Bool) (reduction : ℚ)

/-- What `assemble` leaves on a rank. -/
def assembled (r : ℕ) : Instance :=
  B1GlueElements sys.DOFs redundant (sys.mesh r) (sys.constraints redundant r)
    (B1DirichletInsert sys.DOFs redundant reduction (sys.mesh r) (sys.constraints redundant r)
      Instance.clear)

/-- The rows of a rank (from 0) in the order of `B1clustersMap`. -/
def clusterRows (r : ℕ) : List ℕ := (sys.assembled redundant reduction r).B1clustersMap.map mapRow

variable {sys redundant reduction}

theorem assemble_eq {r : ℕ} (hr : r < sys.ranks) :
    assemble sys.mesh sys.ranks sys.DOFs redundant reduction r
      = some (sys.assembled redundant reduction r) := by
  rw [assemble, update_eq sys redundant hr, Option.map_some]
  rfl

/-- **`B1clustersMap`** in closed form. -/
theorem clustersMap_eq (r : ℕ) :
    (sys.assembled redundant reduction r).B1clustersMap
      = ((sys.rankConditions redundant r).map fun m => [sys.dirichletRow redundant m - 1, r])
        ++ ((sys.ids r).flatMap (sys.mapMultipliers redundant)).flatMap
          (sys.mapEntry redundant r) := by
  rw [assembled, B1GlueElements_map, B1DirichletInsert_map]

/-- **The rows of `B1clustersMap`** in closed form. -/
theorem clustersMap_rows (r : ℕ) :
    sys.clusterRows redundant reduction r
      = ((sys.rankConditions redundant r).map fun m => sys.dirichletRow redundant m - 1)
        ++ (sys.rankMultipliers redundant r).map fun m => sys.gluingRow redundant m - 1 := by
  rw [clusterRows, clustersMap_eq, List.map_append, mapEntries_rows, List.map_map]
  rfl

/-- **`B1subdomainsMap`** in closed form. -/
theorem subdomainsMap_eq {r d : ℕ} (hr : r < sys.ranks) (hd : d < (sys.mesh r).ndomains) :
    ((sys.assembled redundant reduction r).domains d).B1subdomainsMap
      = ((sys.domainConditions redundant (sys.distribution.border r + d)).map
          fun m => sys.insertedRow redundant m - 1)
        ++ (sys.domainMultipliers redundant (sys.distribution.border r + d)).map
          fun m => sys.generatedRow redundant m - 1 := by
  obtain ⟨hinserted, hsub, -⟩ :=
    B1DirichletInsert_inserts redundant hr hd reduction
  set inst := B1DirichletInsert sys.DOFs redundant reduction (sys.mesh r)
    (sys.constraints redundant r) Instance.clear with hinst
  have hgrows := B1GlueElements_grows redundant hr hd inst
  have hcode : ((sys.assembled redundant reduction r).domains d).B1subdomainsMap
      = (inst.domains d).B1subdomainsMap
        ++ (((sys.assembled redundant reduction r).domains d).I_row_indices.drop
          (inst.domains d).B1subdomainsMap.length).map (· - 1) := by
    simp only [assembled, B1GlueElements, if_pos hd]
    rfl
  have hrows : ((sys.assembled redundant reduction r).domains d).I_row_indices
      = (inst.domains d).I_row_indices ++ _ := hgrows.rows
  have hlength : (inst.domains d).B1subdomainsMap.length = (inst.domains d).I_row_indices.length := by
    rw [hsub, hinserted.rows]
    simp [DomainInstance.clear]
  rw [hcode, hrows, hlength, List.drop_append_length, hsub, List.map_map, List.map_map]
  rfl

/-! ## With redundant multipliers -/

lemma insertedRow_redundant : sys.insertedRow true = sys.dirichletRow true := rfl

lemma generatedRow_redundant : sys.generatedRow true = sys.gluingRow true := rfl

lemma dirichletRow_lt_gluingRow {m : Condition} {n : Multiplier}
    (hm : m ∈ sys.conditions redundant) (hn : n ∈ sys.multipliers redundant) :
    0 < sys.dirichletRow redundant m ∧
      sys.dirichletRow redundant m < sys.gluingRow redundant n := by
  obtain ⟨h₁, h₂⟩ := (dirichletRow_bijOn sys redundant).mapsTo hm
  have h₃ := ((gluingRow_bijOn sys redundant).mapsTo hn).1
  omega

lemma rows_pairwise {l : List Condition} {k : List Multiplier}
    (hl : ∀ m ∈ l, m ∈ sys.conditions redundant) (hk : ∀ m ∈ k, m ∈ sys.multipliers redundant)
    (hlp : l.Pairwise fun x y => sys.dirichletRow redundant x < sys.dirichletRow redundant y)
    (hkp : k.Pairwise fun x y => sys.gluingRow redundant x < sys.gluingRow redundant y) :
    ((l.map fun m => sys.dirichletRow redundant m - 1)
      ++ k.map fun m => sys.gluingRow redundant m - 1).Pairwise (· < ·) := by
  refine List.pairwise_append.mpr ⟨?_, ?_, fun x hx y hy => ?_⟩
  · refine List.pairwise_map.mpr (hlp.imp_of_mem fun {x y} hx _ hxy => ?_)
    have := ((dirichletRow_bijOn sys redundant).mapsTo (hl x hx)).1
    omega
  · refine List.pairwise_map.mpr (hkp.imp_of_mem fun {x y} hx _ hxy => ?_)
    have := ((gluingRow_bijOn sys redundant).mapsTo (hk x hx)).1
    omega
  · obtain ⟨m, hm, rfl⟩ := List.mem_map.mp hx
    obtain ⟨n, hn, rfl⟩ := List.mem_map.mp hy
    obtain ⟨hpos, hlt⟩ := dirichletRow_lt_gluingRow (hl m hm) (hk n hn)
    omega

/-- **`B1clustersMap` ascends.** -/
theorem Arranged.clustersMap_ascending (harr : sys.Arranged) (r : ℕ) :
    (sys.clusterRows redundant reduction r).Pairwise (· < ·) := by
  rw [clustersMap_rows]
  exact rows_pairwise (fun m hm => (mem_rankConditions.mp hm).1)
    (fun m hm => (mem_rankMultipliers.mp hm).1) (harr.rankConditions_pairwise r)
    (harr.rankMultipliers_pairwise r)

/-- **`B1subdomainsMap` ascends.** -/
theorem Arranged.subdomainsMap_ascending (harr : sys.Arranged) (reduction : ℚ) {r d : ℕ} (hr : r < sys.ranks)
    (hd : d < (sys.mesh r).ndomains) :
    ((sys.assembled true reduction r).domains d).B1subdomainsMap.Pairwise (· < ·) := by
  rw [subdomainsMap_eq hr hd, insertedRow_redundant, generatedRow_redundant]
  exact rows_pairwise (fun m hm => (mem_domainConditions.mp hm).1)
    (fun m hm => (mem_domainMultipliers.mp hm).1) (harr.domainConditions_pairwise _)
    (harr.domainMultipliers_pairwise _)

/-- **The rows of a domain** are rows of its rank. -/
theorem subdomainsMap_subset {r d : ℕ} (hr : r < sys.ranks) (hd : d < (sys.mesh r).ndomains) :
    ((sys.assembled true reduction r).domains d).B1subdomainsMap
      ⊆ sys.clusterRows true reduction r := by
  have hrank := rankOf_local hr hd
  rw [subdomainsMap_eq hr hd, insertedRow_redundant, generatedRow_redundant, clustersMap_rows]
  intro x hx
  rcases List.mem_append.mp hx with hx | hx
  · obtain ⟨m, hm, rfl⟩ := List.mem_map.mp hx
    obtain ⟨hm, hdomain⟩ := mem_domainConditions.mp hm
    exact List.mem_append_left _ (List.mem_map.mpr
      ⟨m, mem_rankConditions.mpr ⟨hm, by rw [hdomain, hrank]⟩, rfl⟩)
  · obtain ⟨m, hm, rfl⟩ := List.mem_map.mp hx
    obtain ⟨hm, hdomain⟩ := mem_domainMultipliers.mp hm
    refine List.mem_append_right _ (List.mem_map.mpr
      ⟨m, mem_rankMultipliers.mpr ⟨hm, hdomain.imp (fun h => ?_) fun h => ?_⟩, rfl⟩)
    · rw [h, hrank]
    · rw [h, hrank]

end System

end Espreso
