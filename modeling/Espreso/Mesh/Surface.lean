import Espreso.Basis.Serialized
import Espreso.Mesh.ElementClasses

/-!
# Surfaces

A surface is stored as the nodes and the classes of its faces. The threads collect faces, which are
stored one behind the other; triangles are stored as rows of the same size.

* `SurfaceFace`, `SurfaceStore` — a face, and the arrays of the source.
* **`elements_ofFaces`** — the rows are the faces, for triangles, too.
-/

namespace Espreso

/-- A face with its nodes and its class. -/
structure SurfaceFace where
  nodes : List ℕ
  code : ElementCode
deriving DecidableEq

/-- The arrays of a surface. -/
structure SurfaceStore where
  epointers : List ElementCode
  ecounters : List ℕ
  edistribution : List ℕ
  elements : Serialized ℕ
  triangles : Option (Serialized ℕ)
  tdistribution : List ℕ

/-- `serializededata` with rows of the same size. -/
def Serialized.uniform {T : Type} (edatasize : ℕ) (data : List T) : Serialized T :=
  ⟨(List.range (data.length / edatasize + 1)).map (edatasize * ·), data⟩

lemma Serialized.uniform_eq {T : Type} {k : ℕ} (hk : 0 < k) {rows : List (List T)}
    (h : ∀ row ∈ rows, row.length = k) :
    Serialized.uniform k rows.flatten = Serialized.ofRows rows := by
  have hsizes : rows.map List.length = List.replicate rows.length k :=
    List.eq_replicate_iff.mpr ⟨List.length_map _, by simpa using h⟩
  have hlength : rows.flatten.length / k = rows.length := by
    rw [List.length_flatten, hsizes, List.sum_replicate, smul_eq_mul, Nat.mul_div_cancel _ hk]
  refine congrArg₂ Serialized.mk (List.ext_getElem ?_ fun i hi hi' => ?_) rfl
  · rw [List.length_map, List.length_range, hlength, length_offsets, List.length_map]
  · have hlt : i ≤ rows.length := by
      rw [length_offsets, List.length_map] at hi'
      omega
    have hget : (offsets (rows.map List.length))[i]? = some ((rows.map List.length).take i).sum :=
      getElem?_offsets _ (by rwa [List.length_map])
    rw [List.getElem?_eq_getElem hi'] at hget
    rw [Option.some.inj hget, hsizes, List.take_replicate, List.sum_replicate, List.getElem_map,
      List.getElem_range, smul_eq_mul, min_eq_left hlt, Nat.mul_comm]

/-! ## Selections -/

section Selections

variable {α β γ : Type} {q p : α → β → Bool} {l : α → List β}

lemma length_filter_le_of_imp {p q : β → Bool} {l : List β} (h : ∀ y ∈ l, q y → p y) :
    (l.filter q).length ≤ (l.filter p).length ∧
      ((l.filter p).length = (l.filter q).length → ∀ y ∈ l, p y → q y) := by
  have hfilter : l.filter q = (l.filter p).filter q := by
    rw [List.filter_filter]
    refine List.filter_congr fun y hy => ?_
    cases hq : q y with
    | true => rw [h y hy hq]; rfl
    | false => rfl
  rw [hfilter]
  refine ⟨List.length_filter_le _ _, fun heq y hy hp => ?_⟩
  exact List.length_filter_eq_length_iff.mp heq.symm y (List.mem_filter.mpr ⟨hy, hp⟩)

/-- **A selection that contains another one** is the same up to the order if and only if it selects
nothing else. -/
lemma selection_perm_iff {xs : List α} (g : α → β → γ) (h : ∀ x ∈ xs, ∀ y ∈ l x, q x y → p x y) :
    (xs.flatMap fun x => ((l x).filter (p x)).map (g x)).Perm
        (xs.flatMap fun x => ((l x).filter (q x)).map (g x)) ↔
      ∀ x ∈ xs, ∀ y ∈ l x, p x y → q x y := by
  have hlength : (xs.flatMap fun x => ((l x).filter (q x)).map (g x)).length
      ≤ (xs.flatMap fun x => ((l x).filter (p x)).map (g x)).length ∧
      ((xs.flatMap fun x => ((l x).filter (p x)).map (g x)).length
        = (xs.flatMap fun x => ((l x).filter (q x)).map (g x)).length →
          ∀ x ∈ xs, ∀ y ∈ l x, p x y → q x y) := by
    induction xs with
    | nil => simp
    | cons x xs ih =>
        obtain ⟨hx, hxs⟩ := List.forall_mem_cons.mp h
        obtain ⟨hle, heq⟩ := length_filter_le_of_imp hx
        obtain ⟨hle', heq'⟩ := ih hxs
        simp only [List.flatMap_cons, List.length_append, List.length_map, List.forall_mem_cons]
        exact ⟨by omega, fun hsum => ⟨heq (by omega), heq' (by omega)⟩⟩
  constructor
  · exact fun hperm => hlength.2 hperm.length_eq
  · intro hsame
    refine List.Perm.of_eq (List.flatMap_congr fun x hx => ?_)
    refine congrArg (List.map (g x)) (List.filter_congr fun y hy => ?_)
    exact Bool.eq_iff_iff.mpr ⟨hsame x hx y hy, h x hx y hy⟩

end Selections

namespace SurfaceStore

/-- **The arrays for the faces of all threads.** `balance` gives the threads other parts of the
arrays, but keeps the order of the faces. If all faces are triangles, then their nodes are also used
as triangles; with `nonempty`, there has to be one. -/
def ofFaces (nonempty : Bool) (threads : ℕ) (faces : ℕ → List SurfaceFace)
    (edistribution : List ℕ) : SurfaceStore :=
  let epointers := (List.range threads).flatMap fun t => (faces t).map SurfaceFace.code
  let ecounters := ElementCode.codes.map fun c =>
    ((List.range threads).map fun t => (faces t).countP (·.code = c)).sum
  let stored (t : ℕ) := Serialized.ofThread t ((faces t).map SurfaceFace.nodes)
  let size := edistribution.getLastD 0
  if (nonempty → size ≠ 0) ∧ ecounters.getD (ElementCode.number .TRIANGLE3) 0 = size then
    let elements := Serialized.uniform 3 ((List.range threads).flatMap fun t => (stored t).data)
    { epointers, ecounters, edistribution, elements, triangles := some elements
      tdistribution := edistribution }
  else
    { epointers, ecounters, edistribution
      elements := Serialized.ofThreads ((List.range threads).map stored)
      triangles := none, tdistribution := [] }

variable {nonempty : Bool} {threads : ℕ} {faces : ℕ → List SurfaceFace} {edistribution : List ℕ}

lemma edistribution_ofFaces :
    (ofFaces nonempty threads faces edistribution).edistribution = edistribution := by
  rw [ofFaces]
  split_ifs <;> rfl

lemma all_triangles (h : (ElementCode.codes.map fun c => ((List.range threads).map fun t =>
      (faces t).countP (·.code = c)).sum).getD (ElementCode.number .TRIANGLE3) 0
      = ((List.range threads).flatMap faces).length) :
    ∀ face ∈ (List.range threads).flatMap faces, face.code = .TRIANGLE3 := by
  have hcount : ((List.range threads).flatMap faces).countP (·.code = .TRIANGLE3)
      = ((List.range threads).flatMap faces).length := by
    rw [← h, List.countP_flatMap]
    rfl
  exact fun face hface => of_decide_eq_true (List.countP_eq_length.mp hcount face hface)

lemma elements_ofFaces (h : 0 < threads)
    (hnodes : ∀ t < threads, ∀ face ∈ faces t, face.nodes.length = (eclass face.code).nodes)
    (hlast : edistribution.getLastD 0 = ((List.range threads).flatMap faces).length) :
    (ofFaces nonempty threads faces edistribution).elements
      = Serialized.ofRows (((List.range threads).flatMap faces).map SurfaceFace.nodes) := by
  rw [ofFaces]
  dsimp only
  split_ifs with hall
  · have hdata : ((List.range threads).flatMap fun t =>
        (Serialized.ofThread t ((faces t).map SurfaceFace.nodes)).data)
        = (((List.range threads).flatMap faces).map SurfaceFace.nodes).flatten := by
      simp only [Serialized.ofThread_eq, List.map_flatMap, List.flatten_eq_flatMap,
        List.flatMap_assoc]
    have htriangles := all_triangles (hall.2.trans hlast)
    dsimp only
    rw [hdata]
    refine Serialized.uniform_eq (by omega) fun row hrow => ?_
    obtain ⟨face, hface, rfl⟩ := List.mem_map.mp hrow
    obtain ⟨t, ht, hmem⟩ := List.mem_flatMap.mp hface
    rw [hnodes t (List.mem_range.mp ht) face hmem, htriangles face hface]
    rfl
  · dsimp only
    rw [Serialized.ofThreads_ofThread h, List.map_flatMap]

end SurfaceStore

end Espreso
