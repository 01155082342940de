import Mathlib.Data.List.Cycle
import Mathlib.Data.Multiset.MapFold
import Mathlib.Tactic

/-!
# Oriented faces of a polyhedron

A face is given by its nodes in their order around it, from any of them on: a cycle. The faces of a
kind of polyhedron are a table of node numbers, and the nodes of one polyhedron say which nodes the
numbers are.

* `faces` — the faces of a table at some nodes.
* **`eq_of_follows`** — a directed edge is on one face only.
* **`eq_of_perm`** — a polyhedron has not two faces with the same nodes, so it is not mirrored.
-/

namespace Espreso

namespace Polyhedron

variable {ι α : Type}

/-! ## Cycles -/

/-- **`b` comes behind `a`** on a face. -/
def Follows (face : Cycle α) (a b : α) : Prop :=
  ∃ rest, face = ((a :: b :: rest : List α) : Cycle α)

lemma rotate_eq_of_getElem? {l rest : List α} {a : α} (hl : l.Nodup)
    (h : (l : Cycle α) = ((a :: rest : List α) : Cycle α)) {f : ℕ} (hf : l[f]? = some a) :
    l.rotate f = a :: rest := by
  have hrotated : (l.rotate f) ~r (a :: rest) :=
    (List.IsRotated.forall l f).trans (Cycle.coe_eq_coe.mp h)
  obtain ⟨m, hm⟩ := hrotated
  obtain ⟨hlength, -⟩ := List.getElem?_eq_some_iff.mp hf
  have hhead : (l.rotate f)[0]? = some a := by
    rw [List.getElem?_rotate (by omega), Nat.zero_add, Nat.mod_eq_of_lt hlength, hf]
  have hnodup : (l.rotate f).Nodup := List.nodup_rotate.mpr hl
  have hmod : m % (l.rotate f).length = 0 := by
    have hpos : 0 < (l.rotate f).length := by
      rw [List.length_rotate]
      omega
    have hlt := Nat.mod_lt m hpos
    have hrest : ((l.rotate f).rotate m)[0]? = some a := by rw [hm]; rfl
    rw [List.getElem?_rotate hpos, Nat.zero_add, ← hhead] at hrest
    exact (List.getElem?_inj hlt hnodup).mp hrest
  rw [← hm, ← List.rotate_mod (l.rotate f) m, hmod, List.rotate_zero]

lemma getElem?_of_coe_eq {l rest : List α} {a : α} (hl : l.Nodup)
    (h : (l : Cycle α) = ((a :: rest : List α) : Cycle α)) {f : ℕ} (hf : l[f]? = some a) {k : ℕ}
    (hk : k < l.length) : l[(f + k) % l.length]? = (a :: rest)[k]? := by
  rw [← rotate_eq_of_getElem? hl h hf, List.getElem?_rotate hk, Nat.add_comm]

lemma follows_of_getElem? {l : List α} {a b : α} (hlength : 2 ≤ l.length) {f : ℕ}
    (ha : l[f]? = some a) (hb : l[(f + 1) % l.length]? = some b) : Follows (l : Cycle α) a b := by
  obtain ⟨hf, -⟩ := List.getElem?_eq_some_iff.mp ha
  have hfirst : (l.rotate f)[0]? = some a := by
    rw [List.getElem?_rotate (by omega), Nat.zero_add, Nat.mod_eq_of_lt hf, ha]
  have hsecond : (l.rotate f)[1]? = some b := by
    rw [List.getElem?_rotate (by omega), Nat.add_comm, hb]
  cases hrotate : l.rotate f with
  | nil => simp [hrotate] at hfirst
  | cons x rest =>
      cases rest with
      | nil => simp [hrotate] at hsecond
      | cons y rest =>
          simp only [hrotate, List.getElem?_cons_zero, List.getElem?_cons_succ,
            Option.some.injEq] at hfirst hsecond
          refine ⟨rest, Cycle.coe_eq_coe.mpr ⟨f, ?_⟩⟩
          rw [hrotate, hfirst, hsecond]

lemma exists_getElem?_of_follows {l : List α} {a b : α} (h : Follows (l : Cycle α) a b) :
    ∃ f < l.length, l[f]? = some a ∧ l[(f + 1) % l.length]? = some b := by
  obtain ⟨rest, hrest⟩ := h
  obtain ⟨m, hm⟩ := Cycle.coe_eq_coe.mp hrest
  have hlength : 2 ≤ l.length := by
    rw [← List.length_rotate l m, hm]
    simp
  have hpos : 0 < l.length := by omega
  refine ⟨m % l.length, Nat.mod_lt m hpos, ?_, ?_⟩
  · have hfirst : (l.rotate m)[0]? = some a := by rw [hm]; rfl
    rwa [List.getElem?_rotate hpos, Nat.zero_add] at hfirst
  · have hsecond : (l.rotate m)[1]? = some b := by rw [hm]; rfl
    rwa [List.getElem?_rotate (by omega), Nat.add_comm, ← Nat.mod_add_mod] at hsecond

lemma follows_reverse {face : Cycle α} {a b : α} (h : Follows face a b) :
    Follows face.reverse b a := by
  obtain ⟨rest, rfl⟩ := h
  refine ⟨rest.reverse, ?_⟩
  rw [Cycle.reverse_coe, Cycle.coe_eq_coe, List.reverse_cons, List.reverse_cons, List.append_assoc]
  exact List.isRotated_append

lemma follows_unique {l : List α} (hl : l.Nodup) {a b b' : α} (h : Follows (l : Cycle α) a b)
    (h' : Follows (l : Cycle α) a b') : b = b' := by
  obtain ⟨f, -, ha, hb⟩ := exists_getElem?_of_follows h
  obtain ⟨f', -, ha', hb'⟩ := exists_getElem?_of_follows h'
  have hf := (List.getElem?_inj (List.getElem?_eq_some_iff.mp ha).1 hl).mp (ha.trans ha'.symm)
  rw [← hf, hb] at hb'
  exact Option.some.inj hb'

/-! ## Tables -/

/-- **The faces of a table at some nodes**, as they are seen from outside. -/
def faces (table : List (List ι)) (nodes : ι → α) : Multiset (Cycle α) :=
  table.map fun face => ((face.map nodes : List α) : Cycle α)

lemma mem_faces {table : List (List ι)} {nodes : ι → α} {face : Cycle α} :
    face ∈ faces table nodes ↔ ∃ t ∈ table, ((t.map nodes : List α) : Cycle α) = face := by
  rw [faces, Multiset.mem_coe, List.mem_map]

lemma faces_comp (table : List (List ι)) (σ : ι → ι) (nodes : ι → α) :
    faces table (nodes ∘ σ) = (faces table σ).map (Cycle.map nodes) := by
  simp only [faces, Multiset.map_coe, List.map_map, Function.comp_def, Cycle.map_coe]

lemma faces_turn {table : List (List ι)} {σ : ι → ι} (h : faces table σ = faces table id)
    (nodes : ι → α) : faces table (nodes ∘ σ) = faces table nodes := by
  rw [faces_comp, h, ← faces_comp, Function.comp_id]

def Distinct (table : List (List ι)) (nodes : ι → α) : Prop :=
  Set.InjOn nodes {i | ∃ t ∈ table, i ∈ t}

lemma map_injective {table : List (List ι)} {nodes : ι → α} (h : Distinct table nodes)
    {r r' : List ι} (hr : ∀ i ∈ r, ∃ t ∈ table, i ∈ t) (hr' : ∀ i ∈ r', ∃ t ∈ table, i ∈ t)
    (heq : r.map nodes = r'.map nodes) : r = r' := by
  induction r generalizing r' with
  | nil => exact (List.map_eq_nil_iff.mp heq.symm).symm
  | cons i r ih =>
      cases r' with
      | nil => cases heq
      | cons i' r' =>
          rw [List.map_cons, List.map_cons, List.cons.injEq] at heq
          rw [h (hr i List.mem_cons_self) (hr' i' List.mem_cons_self) heq.1,
            ih (fun j hj => hr j (List.mem_cons_of_mem i hj))
              (fun j hj => hr' j (List.mem_cons_of_mem i' hj)) heq.2]

/-- **No directed edge is on two faces of a table.** -/
def EdgesOnce (table : List (List ι)) : Prop :=
  ∀ t ∈ table, ∀ t' ∈ table, ∀ r ∈ t.cyclicPermutations, ∀ r' ∈ t'.cyclicPermutations,
    r.take 2 = r'.take 2 → t = t'

/-- **No two faces of a table have the same nodes.** -/
def NodesOnce (table : List (List ι)) : Prop := ∀ t ∈ table, ∀ t' ∈ table, t.Perm t' → t = t'

lemma exists_rotation {t : List ι} {nodes : ι → α} {l : List α}
    (h : ((t.map nodes : List α) : Cycle α) = (l : Cycle α)) :
    ∃ r ∈ t.cyclicPermutations, r.map nodes = l := by
  obtain ⟨m, hm⟩ := Cycle.coe_eq_coe.mp h
  exact ⟨t.rotate m, List.mem_cyclicPermutations_iff.mpr (List.IsRotated.forall t m),
    by rw [List.map_rotate, hm]⟩

/-- A directed edge is on one face of a polyhedron only. -/
theorem eq_of_follows {table : List (List ι)} {nodes : ι → α} (hdistinct : Distinct table nodes)
    (hedges : EdgesOnce table) {face face' : Cycle α} {a b : α}
    (h : face ∈ faces table nodes) (h' : face' ∈ faces table nodes) (hab : Follows face a b)
    (hab' : Follows face' a b) : face = face' := by
  obtain ⟨t, ht, rfl⟩ := mem_faces.mp h
  obtain ⟨t', ht', rfl⟩ := mem_faces.mp h'
  obtain ⟨rest, hrest⟩ := hab
  obtain ⟨rest', hrest'⟩ := hab'
  obtain ⟨r, hr, hmap⟩ := exists_rotation hrest
  obtain ⟨r', hr', hmap'⟩ := exists_rotation hrest'
  have hin : ∀ {t r : List ι}, t ∈ table → r ∈ t.cyclicPermutations →
      ∀ i ∈ r.take 2, ∃ t ∈ table, i ∈ t := fun ht hr i hi =>
    ⟨_, ht, (List.mem_cyclicPermutations_iff.mp hr).mem_iff.mp (List.mem_of_mem_take hi)⟩
  have htake : (r.take 2).map nodes = (r'.take 2).map nodes := by
    rw [List.map_take, List.map_take, hmap, hmap']
    rfl
  rw [hedges t ht t' ht' r hr r' hr' (map_injective hdistinct (hin ht hr) (hin ht' hr') htake)]

/-- **A face with all nodes of a face is that face**, also in its orientation. -/
theorem eq_of_perm [Nonempty ι] {table : List (List ι)} {nodes : ι → α}
    (hdistinct : Distinct table nodes)
    (hnodes : NodesOnce table) {l l' : List α} (h : (l : Cycle α) ∈ faces table nodes)
    (h' : (l' : Cycle α) ∈ faces table nodes) (hperm : l.Perm l') :
    (l : Cycle α) = (l' : Cycle α) := by
  obtain ⟨t, ht, heq⟩ := mem_faces.mp h
  obtain ⟨t', ht', heq'⟩ := mem_faces.mp h'
  have hmap : (t.map nodes).Perm (t'.map nodes) :=
    ((Cycle.coe_eq_coe.mp heq).perm.trans hperm).trans (Cycle.coe_eq_coe.mp heq').perm.symm
  have hleft : ∀ {t}, t ∈ table →
      (t.map nodes).map (Function.invFunOn nodes {i | ∃ t ∈ table, i ∈ t}) = t := fun {t} ht => by
    rw [List.map_map]
    exact (List.map_congr_left fun i hi =>
      hdistinct.leftInvOn_invFunOn (show i ∈ _ from ⟨t, ht, hi⟩)).trans (List.map_id t)
  have heqt := hmap.map (Function.invFunOn nodes {i | ∃ t ∈ table, i ∈ t})
  rw [hleft ht, hleft ht'] at heqt
  rw [← heq, ← heq', hnodes t ht t' ht' heqt]

/-- **The nodes of a polyhedron can be numbered from any of its faces on**, in the order of that
face from any of its nodes on, if the table has the symmetries for it. -/
theorem exists_turn {table : List (List ι)} {base : List ι} {turns : List (ι → ι)}
    (hturns : ∀ σ ∈ turns, faces table σ = faces table id)
    (hall : ∀ t ∈ table, ∀ r ∈ t.cyclicPermutations, ∃ σ ∈ turns, base.map σ = r) {nodes : ι → α}
    {l : List α} (h : (l : Cycle α) ∈ faces table nodes) :
    ∃ σ ∈ turns, faces table (nodes ∘ σ) = faces table nodes ∧ base.map (nodes ∘ σ) = l := by
  obtain ⟨t, ht, heq⟩ := mem_faces.mp h
  obtain ⟨r, hr, hmap⟩ := exists_rotation heq
  obtain ⟨σ, hσ, hbase⟩ := hall t ht r hr
  refine ⟨σ, hσ, faces_turn (hturns σ hσ) nodes, ?_⟩
  rw [← List.map_map, hbase, hmap]

end Polyhedron

end Espreso
