import Espreso.Input.OpenFOAM

/-!
# Elements from their faces

* `hexa8_eq`, `tetra4_eq` — a cell becomes an element with its faces.
* `hexa8_not_isCell`, `prisma6_not_isCell`, `pyramid5_not_isCell` — it does not.
* `buildElements_eq` — the threads find the elements of all cells.
* **`buildElements_iff`** — which meshes become elements with the faces of their cells.
-/

namespace Espreso

namespace OpenFOAM

open Reorder

namespace PlainOpenFOAMData

variable {mesh : PlainOpenFOAMData}

/-! ## Elements -/

lemma Listed.face_head {data : List ℕ} {e begin fin p : ℕ} {ps : List ℕ}
    (h : Listed mesh data e begin fin (p :: ps)) :
    mesh.face (sortIDs data) begin = some (mesh.nodesOf p) :=
  h.face_eq (k := 0) rfl

lemma Listed.node_head {data : List ℕ} {e begin fin p : ℕ} {ps : List ℕ}
    (h : Listed mesh data e begin fin (p :: ps)) (f : ℕ) :
    mesh.node (sortIDs data) begin f = (mesh.nodesOf p)[f]? := by
  rw [node, h.face_head]
  rfl

lemma square_eq {l : List ℤ} (hlength : l.length = 4) {a b c d : ℤ} (ha : l[0]? = some a)
    (hb : l[1]? = some b) (hc : l[2]? = some c) (hd : l[3]? = some d) : l = [a, b, c, d] := by
  match l, hlength with
  | [_, _, _, _], _ =>
      cases ha
      cases hb
      cases hc
      cases hd
      rfl

lemma triangle_eq {l : List ℤ} (hlength : l.length = 3) {a b c : ℤ} (ha : l[0]? = some a)
    (hb : l[1]? = some b) (hc : l[2]? = some c) : l = [a, b, c] := by
  match l, hlength with
  | [_, _, _], _ =>
      cases ha
      cases hb
      cases hc
      rfl

section Elements

variable {c : Ranges} {os ns : List ℕ} {nodes : List ℤ}

lemma hexa8_eq {p : ℕ} (hos : Listed mesh mesh.owner c.element c.obegin c.oindex (p :: os))
    (hns : Listed mesh mesh.neighbour c.element c.nbegin c.nindex ns)
    (hcell : IsCell .HEXA8 (seen mesh (p :: os) ns) nodes) :
    ∃ nodes', mesh.hexa8 c = some nodes' ∧ IsCell .HEXA8 (seen mesh (p :: os) ns) nodes' := by
  have hseen : seen mesh (p :: os) ns = (mesh.nodesOf p : Cycle ℤ) ::ₘ seen mesh os ns := rfl
  have hp : (mesh.nodesOf p : Cycle ℤ) ∈ seen mesh (p :: os) ns := by
    rw [hseen]
    exact Multiset.mem_cons_self _ _
  obtain ⟨m, hturned, hfaces, hbase⟩ := hcell.exists_turn hexaTurns_spec hexaTurns_all hp
  have hothers : seen mesh os ns = Polyhedron.faces Code.HEXA8.faces.tail m := by
    rw [hseen, ← hbase] at hfaces
    exact (Multiset.cons_inj_right _).mp hfaces
  -- the faces at two opposite edges of the first one
  have hacross : ∀ a b x y : ℤ, (([a, b, x, y] : List ℤ) : Cycle ℤ) ∈ seen mesh os ns →
      mesh.across { c with obegin := c.obegin + 1 } a b = some (x, y) := by
    intro a b x y hmem
    have hin : ∀ face ∈ seen mesh os ns, face ∈ seen mesh (p :: os) ns :=
      fun face hface => hseen ▸ Multiset.mem_cons_of_mem hface
    refine across_eq (c := { c with obegin := c.obegin + 1 }) hos.tail hns
      (hcell.nodup_of_mem (hin _ hmem)) hmem fun face hface hab => ?_
    have hface := hin face hface
    have hmem := hin _ hmem
    rw [hcell.faces_eq] at hface hmem
    exact Polyhedron.eq_of_follows hcell.distinct (edgesOnce .HEXA8) hface hmem hab ⟨[x, y], rfl⟩
  have hfirst := hacross (m 1) (m 0) (m 3) (m 2) (by
    rw [hothers, Polyhedron.mem_faces]
    exact ⟨[3, 2, 1, 0], by decide, Cycle.coe_eq_coe.mpr ⟨2, rfl⟩⟩)
  have hsecond := hacross (m 4) (m 5) (m 6) (m 7) (by
    rw [hothers, Polyhedron.mem_faces]
    exact ⟨[4, 5, 6, 7], by decide, rfl⟩)
  refine ⟨_, ?_, hturned⟩
  have howned : c.obegin < c.oindex := hos.lt_iff.mpr (List.cons_ne_nil p os)
  rw [hexa8]
  simp only [howned, if_true, hos.node_head, ← hbase, List.map_cons, List.getElem?_cons_zero,
    List.getElem?_cons_succ, Option.bind_eq_bind, Option.bind_some, hfirst, hsecond]
  rfl

/-- **A hexahedron that owns none of its faces** has a twisted face. -/
lemma hexa8_not_isCell {p : ℕ} {ns : List ℕ}
    (hos : Listed mesh mesh.owner c.element c.obegin c.oindex [])
    (hns : Listed mesh mesh.neighbour c.element c.nbegin c.nindex (p :: ns))
    (hcell : IsCell .HEXA8 (seen mesh [] (p :: ns)) nodes) {nodes' : List ℤ}
    (h : mesh.hexa8 c = some nodes') : ¬ IsCell .HEXA8 (seen mesh [] (p :: ns)) nodes' := by
  have howned : ¬ c.obegin < c.oindex := fun hlt => hos.lt_iff.mp hlt rfl
  rw [hexa8] at h
  simp only [howned, if_false, hns.node_head, Option.bind_eq_bind, Option.bind_eq_some_iff] at h
  obtain ⟨n0, h0, n1, h1, n4, h4, n5, h5, x, -, y, -, hnodes⟩ := h
  obtain ⟨t, ht, hlength⟩ := hcell.length_of_mem (l := (mesh.nodesOf p).reverse)
    (mem_seen.mpr (Or.inr ⟨p, List.mem_cons_self, Cycle.reverse_coe _⟩))
  have hfour : ∀ t ∈ Code.HEXA8.faces, t.length = 4 := by decide
  rw [List.length_reverse, hfour t ht] at hlength
  have hp := square_eq hlength.symm h0 h5 h4 h1
  have hface : (([n1, n4, n5, n0] : List ℤ) : Cycle ℤ) ∈ seen mesh [] (p :: ns) :=
    mem_seen.mpr (Or.inr ⟨p, List.mem_cons_self, by rw [hp]; rfl⟩)
  have hnodup := hcell.nodup_of_mem hface
  cases hnodes
  -- a node of the face is followed by the opposite one
  refine hcell.not_isCell hface (t := [0, 1, 5, 4]) (by decide) ?_ (a := n1) (b := n5) (c := n4)
    ⟨[n4, n0], Cycle.coe_eq_coe.mpr ⟨1, rfl⟩⟩ ⟨[n5, n0], rfl⟩ ?_
  · exact (show [0, 1, 2, 3].Perm [1, 3, 2, 0] by decide).map ([n0, n1, n5, n4].getD · 0)
  · rintro rfl
    simp at hnodup

lemma getUnknown_eq {known unknown : List ℤ} {u : ℤ} (hu : u ∈ unknown) (hknown : u ∉ known)
    (hothers : ∀ x ∈ unknown, x ∉ known → x = u) : getUnknown known unknown = u := by
  have hsome : (unknown.find? (· ∉ known)).isSome :=
    List.find?_isSome.mpr ⟨u, hu, decide_eq_true hknown⟩
  obtain ⟨x, hx⟩ := Option.isSome_iff_exists.mp hsome
  have hx' := List.find?_some hx
  rw [getUnknown, hx, Option.getD_some]
  exact hothers x (List.mem_of_find?_eq_some hx) (of_decide_eq_true hx')

/-- **The last node of a tetrahedron** is on each of the other faces. -/
lemma isCell_tetra4 {faces others : Multiset (Cycle ℤ)} (hcell : IsCell .TETRA4 faces nodes)
    {n0 n1 n2 : ℤ} (hfaces : faces = (([n0, n2, n1] : List ℤ) : Cycle ℤ) ::ₘ others) {l : List ℤ}
    (hl : (l : Cycle ℤ) ∈ others ∨ (l : Cycle ℤ).reverse ∈ others) :
    IsCell .TETRA4 faces [n0, n1, n2, getUnknown [n0, n1, n2] l] := by
  obtain ⟨m, hturned, hfaces', hbase⟩ := hcell.exists_turn tetraTurns_spec tetraTurns_all
    (l := [n0, n2, n1]) (by rw [hfaces]; exact Multiset.mem_cons_self _ _)
  have hcut : Polyhedron.faces Code.TETRA4.faces m = (([m 0, m 2, m 1] : List ℤ) : Cycle ℤ)
      ::ₘ Polyhedron.faces [[0, 1, 3], [1, 2, 3], [2, 0, 3]] m := by
    have hturn : (([m 0, m 2, m 1] : List ℤ) : Cycle ℤ) = (([m 2, m 1, m 0] : List ℤ) : Cycle ℤ) :=
      Cycle.coe_eq_coe.mpr ⟨1, rfl⟩
    rw [hturn]
    exact Multiset.coe_eq_coe.mpr (List.perm_append_singleton _ [_, _, _])
  have hothers : others = Polyhedron.faces [[0, 1, 3], [1, 2, 3], [2, 0, 3]] m := by
    rw [hfaces, hcut, ← hbase] at hfaces'
    exact (Multiset.cons_inj_right _).mp hfaces'
  obtain ⟨rfl, rfl, rfl⟩ : m 0 = n0 ∧ m 2 = n2 ∧ m 1 = n1 := by simpa using hbase
  have hnodup : [m 0, m 1, m 2, m 3].Nodup := hturned.nodup
  have hmem : ∃ t ∈ [[0, 1, 3], [1, 2, 3], [2, 0, 3]], ∀ x, x ∈ l ↔ x ∈ t.map m := by
    rw [hothers, Polyhedron.mem_faces, Polyhedron.mem_faces] at hl
    rcases hl with ⟨t, ht, heq⟩ | ⟨t, ht, heq⟩
    · exact ⟨t, ht, fun x => (Cycle.coe_eq_coe.mp heq).mem_iff.symm⟩
    · rw [Cycle.reverse_coe] at heq
      exact ⟨t, ht, fun x => List.mem_reverse.symm.trans (Cycle.coe_eq_coe.mp heq).mem_iff.symm⟩
  obtain ⟨t, ht, hmem⟩ := hmem
  have hunknown : getUnknown [m 0, m 1, m 2] l = m 3 := by
    have hthree : ∀ t ∈ [[0, 1, 3], [1, 2, 3], [2, 0, 3]], 3 ∈ t ∧ ∀ i ∈ t, i ∈ [0, 1, 2, 3] := by
      decide
    obtain ⟨hin, hall⟩ := hthree t ht
    refine getUnknown_eq ((hmem _).mpr (List.mem_map_of_mem hin)) ?_ fun x hx hknown => ?_
    · exact fun h => (List.nodup_append.mp (show ([m 0, m 1, m 2] ++ [m 3]).Nodup from hnodup)).2.2
        _ h _ (List.mem_singleton_self _) rfl
    · obtain ⟨i, hi, rfl⟩ := List.mem_map.mp ((hmem x).mp hx)
      have hcases := hall i hi
      simp only [List.mem_cons, List.not_mem_nil, or_false] at hcases
      rcases hcases with rfl | rfl | rfl | rfl
      · exact absurd (by simp) hknown
      · exact absurd (by simp) hknown
      · exact absurd (by simp) hknown
      · rfl
  rw [hunknown]
  exact hturned

variable (mesh) in
lemma seen_cons_owned (p : ℕ) (os ns : List ℕ) :
    seen mesh (p :: os) ns = (mesh.nodesOf p : Cycle ℤ) ::ₘ seen mesh os ns := rfl

variable (mesh) in
lemma seen_cons_neighbour (p : ℕ) (os ns : List ℕ) :
    seen mesh os (p :: ns) = (mesh.nodesOf p : Cycle ℤ).reverse ::ₘ seen mesh os ns := by
  rw [seen, seen, List.map_cons, ← Multiset.cons_coe, Multiset.add_cons]

lemma exists_firstFace {os ns : List ℕ} {c : Ranges}
    (hos : Listed mesh mesh.owner c.element c.obegin c.oindex os)
    (hns : Listed mesh mesh.neighbour c.element c.nbegin c.nindex ns)
    (hne : seen mesh os ns ≠ 0) :
    ∃ l : List ℤ, mesh.firstFace c = some l
      ∧ ((l : Cycle ℤ) ∈ seen mesh os ns ∨ (l : Cycle ℤ).reverse ∈ seen mesh os ns) := by
  cases os with
  | cons q os =>
      refine ⟨mesh.nodesOf q, ?_, Or.inl ?_⟩
      · rw [firstFace, if_pos (hos.lt_iff.mpr (List.cons_ne_nil q os)), hos.face_head]
      · exact mem_seen.mpr (Or.inl ⟨q, List.mem_cons_self, rfl⟩)
  | nil =>
      cases ns with
      | nil => exact absurd rfl hne
      | cons q ns =>
          refine ⟨mesh.nodesOf q, ?_, Or.inr ?_⟩
          · rw [firstFace, if_neg fun h => hos.lt_iff.mp h rfl, hns.face_head]
          · exact mem_seen.mpr (Or.inr ⟨q, List.mem_cons_self, rfl⟩)

lemma tetra4_eq (hos : Listed mesh mesh.owner c.element c.obegin c.oindex os)
    (hns : Listed mesh mesh.neighbour c.element c.nbegin c.nindex ns)
    (hcell : IsCell .TETRA4 (seen mesh os ns) nodes) :
    ∃ nodes', mesh.tetra4 c = some nodes' ∧ IsCell .TETRA4 (seen mesh os ns) nodes' := by
  have hcard : (seen mesh os ns).card = 4 := by
    rw [hcell.faces_eq]
    rfl
  have hthree : ∀ t ∈ Code.TETRA4.faces, t.length = 3 := by decide
  cases os with
  | cons p os =>
      have howned : c.obegin < c.oindex := hos.lt_iff.mpr (List.cons_ne_nil p os)
      obtain ⟨t, ht, hlength⟩ := hcell.length_of_mem (l := mesh.nodesOf p)
        (mem_seen.mpr (Or.inl ⟨p, List.mem_cons_self, rfl⟩))
      rw [hthree t ht] at hlength
      obtain ⟨n0, n2, n1, hp⟩ := List.length_eq_three.mp hlength.symm
      have hfaces := seen_cons_owned mesh p os ns
      have hothers : seen mesh os ns ≠ 0 := fun hzero => by
        rw [hfaces, hzero] at hcard
        cases hcard
      obtain ⟨l, hface, hl⟩ := exists_firstFace (c := { c with obegin := c.obegin + 1 })
        hos.tail hns hothers
      rw [hp] at hfaces
      refine ⟨_, ?_, isCell_tetra4 hcell hfaces hl⟩
      rw [tetra4]
      simp only [howned, if_true, hos.node_head, hp, List.getElem?_cons_zero,
        List.getElem?_cons_succ, Option.bind_eq_bind, Option.bind_some, hface]
      rfl
  | nil =>
      have howned : ¬ c.obegin < c.oindex := fun h => hos.lt_iff.mp h rfl
      cases ns with
      | nil => cases hcard
      | cons p ns =>
          obtain ⟨t, ht, hlength⟩ := hcell.length_of_mem (l := (mesh.nodesOf p).reverse)
            (mem_seen.mpr (Or.inr ⟨p, List.mem_cons_self, Cycle.reverse_coe _⟩))
          rw [hthree t ht, List.length_reverse] at hlength
          obtain ⟨n0, n1, n2, hp⟩ := List.length_eq_three.mp hlength.symm
          have hfaces := seen_cons_neighbour mesh p [] ns
          have hothers : seen mesh [] ns ≠ 0 := fun hzero => by
            rw [hfaces, hzero] at hcard
            cases hcard
          obtain ⟨l, hface, hl⟩ := exists_firstFace (c := { c with nbegin := c.nbegin + 1 })
            hos hns.tail hothers
          have hturn : (([n0, n1, n2] : List ℤ) : Cycle ℤ).reverse
              = (([n0, n2, n1] : List ℤ) : Cycle ℤ) := Cycle.coe_eq_coe.mpr ⟨2, rfl⟩
          rw [hp, hturn] at hfaces
          refine ⟨_, ?_, isCell_tetra4 hcell hfaces hl⟩
          rw [tetra4]
          simp only [howned, if_false, hns.node_head, hp, List.getElem?_cons_zero,
            List.getElem?_cons_succ, Option.bind_eq_bind, Option.bind_some, hface]
          rfl

lemma findElementWithSize_spec {data : List ℕ} {e begin fin : ℕ} {ps : List ℕ}
    (h : Listed mesh data e begin fin ps) (size : ℕ) :
    (∃ k p, ps[k]? = some p ∧ (mesh.nodesOf p).length = size
        ∧ mesh.findElementWithSize (sortIDs data) begin fin size = begin + k ∧ begin + k < fin)
      ∨ (∀ p ∈ ps, (mesh.nodesOf p).length ≠ size)
        ∧ ¬ mesh.findElementWithSize (sortIDs data) begin fin size < fin := by
  obtain ⟨rest, hdrop, -⟩ := h.drop
  have hwindow : window (sortIDs data) begin fin = ps := by
    rw [window, hdrop, h.fin_eq, Nat.add_sub_cancel_left, List.take_left]
  rw [findElementWithSize, hwindow]
  by_cases hfound : ps.findIdx (fun p => (mesh.nodesOf p).length = size) < ps.length
  · refine Or.inl ⟨_, _, List.getElem?_eq_getElem hfound, ?_, rfl, ?_⟩
    · exact of_decide_eq_true (List.findIdx_getElem (w := hfound))
    · rw [h.fin_eq]
      exact Nat.add_lt_add_left hfound begin
  · refine Or.inr ⟨fun p hp hsize => hfound ?_, ?_⟩
    · exact List.findIdx_lt_length.mpr ⟨p, hp, decide_eq_true hsize⟩
    · rw [h.fin_eq]
      exact fun hlt => hfound (Nat.lt_of_add_lt_add_left hlt)

lemma node_add {data : List ℕ} {e begin fin k p : ℕ} {ps : List ℕ}
    (h : Listed mesh data e begin fin ps) (hp : ps[k]? = some p) (f : ℕ) :
    mesh.node (sortIDs data) (begin + k) f = (mesh.nodesOf p)[f]? := by
  rw [node, h.face_eq hp]
  rfl

lemma exists_length {code : Code} {os ns : List ℕ} (hcell : IsCell code (seen mesh os ns) nodes)
    {t : List ℕ} (ht : t ∈ code.faces) :
    (∃ p ∈ os, (mesh.nodesOf p).length = t.length)
      ∨ ∃ p ∈ ns, (mesh.nodesOf p).length = t.length := by
  have hmem : ((t.map (nodes.getD · (-1)) : List ℤ) : Cycle ℤ) ∈ seen mesh os ns := by
    rw [hcell.faces_eq, Polyhedron.mem_faces]
    exact ⟨t, ht, rfl⟩
  rcases mem_seen.mp hmem with ⟨p, hp, heq⟩ | ⟨p, hp, heq⟩
  · have hlength := (Cycle.coe_eq_coe.mp heq).perm.length_eq
    exact Or.inl ⟨p, hp, by rwa [List.length_map] at hlength⟩
  · rw [Cycle.reverse_coe] at heq
    have hlength := (Cycle.coe_eq_coe.mp heq).perm.length_eq
    exact Or.inr ⟨p, hp, by rwa [List.length_map, List.length_reverse] at hlength⟩

/-- **A prism is mirrored**: its first triangle is seen from inside. -/
lemma prisma6_not_isCell (hos : Listed mesh mesh.owner c.element c.obegin c.oindex os)
    (hns : Listed mesh mesh.neighbour c.element c.nbegin c.nindex ns)
    (hcell : IsCell .PRISMA6 (seen mesh os ns) nodes) {nodes' : List ℤ}
    (h : mesh.prisma6 c = some nodes') : ¬ IsCell .PRISMA6 (seen mesh os ns) nodes' := by
  have hfirst : ∃ n0 n1 n2 rest, nodes' = n0 :: n1 :: n2 :: rest
      ∧ (([n0, n1, n2] : List ℤ) : Cycle ℤ) ∈ seen mesh os ns := by
    rw [prisma6] at h
    rcases findElementWithSize_spec hos 3 with ⟨k, p, hk, hlength, hfind, hlt⟩ | ⟨hnone, hfind⟩
    · simp only [hfind, hlt, if_true, node_add hos hk, Option.bind_eq_bind,
        Option.bind_eq_some_iff] at h
      obtain ⟨n0, h0, n1, h1, n2, h2, edge, -, last, -, hnodes⟩ := h
      refine ⟨n0, n1, n2, _, (Option.some.inj hnodes).symm, ?_⟩
      rw [← triangle_eq hlength h0 h1 h2]
      exact mem_seen.mpr (Or.inl ⟨p, List.mem_of_getElem? hk, rfl⟩)
    · rcases findElementWithSize_spec hns 3 with ⟨k, p, hk, hlength, hfind', -⟩ | ⟨hnone', -⟩
      · simp only [hfind, hfind', if_false, node_add hns hk, Option.bind_eq_bind,
          Option.bind_eq_some_iff] at h
        obtain ⟨n0, h0, n1, h1, n2, h2, edge, -, last, -, hnodes⟩ := h
        refine ⟨n0, n1, n2, _, (Option.some.inj hnodes).symm, ?_⟩
        refine mem_seen.mpr (Or.inr ⟨p, List.mem_of_getElem? hk, ?_⟩)
        rw [triangle_eq hlength h0 h2 h1]
        exact Cycle.coe_eq_coe.mpr ⟨2, rfl⟩
      · rcases exists_length hcell (t := [2, 1, 0]) (by decide) with
          ⟨p, hp, hlength⟩ | ⟨p, hp, hlength⟩
        · exact absurd hlength (hnone p hp)
        · exact absurd hlength (hnone' p hp)
  obtain ⟨n0, n1, n2, rest, rfl, hface⟩ := hfirst
  have hnodup := hcell.nodup_of_mem hface
  refine hcell.not_isCell hface (t := [2, 1, 0]) (by decide) ?_ (a := n0) (b := n2) (c := n1)
    ⟨[n1], Cycle.coe_eq_coe.mpr ⟨2, rfl⟩⟩ ⟨[n2], rfl⟩ ?_
  · exact (show [2, 1, 0].Perm [0, 1, 2] by decide).map ([n0, n1, n2].getD · 0)
  · rintro rfl
    simp at hnodup

/-- **A pyramid is mirrored**: its square is seen from inside. -/
lemma pyramid5_not_isCell (hos : Listed mesh mesh.owner c.element c.obegin c.oindex os)
    (hns : Listed mesh mesh.neighbour c.element c.nbegin c.nindex ns)
    (hcell : IsCell .PYRAMID5 (seen mesh os ns) nodes) {nodes' : List ℤ}
    (h : mesh.pyramid5 c = some nodes') : ¬ IsCell .PYRAMID5 (seen mesh os ns) nodes' := by
  have hfirst : ∃ n0 n1 n2 n3 rest, nodes' = n0 :: n1 :: n2 :: n3 :: rest
      ∧ (([n0, n1, n2, n3] : List ℤ) : Cycle ℤ) ∈ seen mesh os ns := by
    rw [pyramid5] at h
    rcases findElementWithSize_spec hos 4 with ⟨k, p, hk, hlength, hfind, hlt⟩ | ⟨hnone, hfind⟩
    · simp only [hfind, hlt, if_true, node_add hos hk, Option.bind_eq_bind,
        Option.bind_eq_some_iff] at h
      obtain ⟨n0, h0, n1, h1, n2, h2, n3, h3, last, -, hnodes⟩ := h
      refine ⟨n0, n1, n2, n3, _, (Option.some.inj hnodes).symm, ?_⟩
      rw [← square_eq hlength h0 h1 h2 h3]
      exact mem_seen.mpr (Or.inl ⟨p, List.mem_of_getElem? hk, rfl⟩)
    · rcases findElementWithSize_spec hns 4 with ⟨k, p, hk, hlength, hfind', -⟩ | ⟨hnone', -⟩
      · simp only [hfind, hfind', if_false, node_add hns hk, Option.bind_eq_bind,
          Option.bind_eq_some_iff] at h
        obtain ⟨n0, h0, n1, h1, n2, h2, n3, h3, last, -, hnodes⟩ := h
        refine ⟨n0, n1, n2, n3, _, (Option.some.inj hnodes).symm, ?_⟩
        refine mem_seen.mpr (Or.inr ⟨p, List.mem_of_getElem? hk, ?_⟩)
        rw [square_eq hlength h0 h3 h2 h1]
        exact Cycle.coe_eq_coe.mpr ⟨3, rfl⟩
      · rcases exists_length hcell (t := [3, 2, 1, 0]) (by decide) with
          ⟨p, hp, hlength⟩ | ⟨p, hp, hlength⟩
        · exact absurd hlength (hnone p hp)
        · exact absurd hlength (hnone' p hp)
  obtain ⟨n0, n1, n2, n3, rest, rfl, hface⟩ := hfirst
  have hnodup := hcell.nodup_of_mem hface
  refine hcell.not_isCell hface (t := [3, 2, 1, 0]) (by decide) ?_ (a := n0) (b := n3) (c := n1)
    ⟨[n2, n1], Cycle.coe_eq_coe.mpr ⟨3, rfl⟩⟩ ⟨[n2, n3], rfl⟩ ?_
  · exact (show [3, 2, 1, 0].Perm [0, 1, 2, 3] by decide).map ([n0, n1, n2, n3].getD · 0)
  · rintro rfl
    simp at hnodup

lemma count_eq {code : Code} (hcell : IsCell code (seen mesh os ns) nodes) (size : ℕ) :
    (os.countP fun p => (mesh.nodesOf p).length = size)
      + (ns.countP fun p => (mesh.nodesOf p).length = size)
      = code.faces.countP fun t => t.length = size := by
  have hcount := congrArg (Multiset.countP fun face => face.length = size) hcell.faces_eq
  rw [seen, Multiset.countP_add, Polyhedron.faces, Multiset.coe_countP, Multiset.coe_countP,
    Multiset.coe_countP, List.countP_map, List.countP_map, List.countP_map] at hcount
  simp only [Function.comp_def, Cycle.length_coe, Cycle.length_reverse, List.length_map] at hcount
  convert hcount
  exact decide_eq_decide.mpr Iff.rfl

lemma element_iff {code : Code} (hos : Listed mesh mesh.owner c.element c.obegin c.oindex os)
    (hns : Listed mesh mesh.neighbour c.element c.nbegin c.nindex ns)
    (hcell : IsCell code (seen mesh os ns) nodes) :
    (∃ element, mesh.element c
        ((os.countP fun p => (mesh.nodesOf p).length = 3)
          + ns.countP fun p => (mesh.nodesOf p).length = 3)
        ((os.countP fun p => (mesh.nodesOf p).length = 4)
          + ns.countP fun p => (mesh.nodesOf p).length = 4) = some element
        ∧ IsCell element.1 (seen mesh os ns) element.2)
      ↔ code = .TETRA4 ∨ code = .HEXA8 ∧ os ≠ [] := by
  rw [count_eq hcell, count_eq hcell]
  cases code with
  | TETRA4 =>
      obtain ⟨nodes', hnodes, hcell'⟩ := tetra4_eq hos hns hcell
      refine iff_of_true ⟨(.TETRA4, nodes'), ?_, hcell'⟩ (Or.inl rfl)
      exact congrArg (Option.map fun nodes => (Code.TETRA4, nodes)) hnodes
  | PYRAMID5 =>
      refine iff_of_false ?_ (by simp)
      rintro ⟨element, helement, hcell'⟩
      obtain ⟨nodes', hnodes, rfl⟩ := Option.map_eq_some_iff.mp
        (show (mesh.pyramid5 c).map (Code.PYRAMID5, ·) = some element from helement)
      exact pyramid5_not_isCell hos hns hcell hnodes hcell'
  | PRISMA6 =>
      refine iff_of_false ?_ (by simp)
      rintro ⟨element, helement, hcell'⟩
      obtain ⟨nodes', hnodes, rfl⟩ := Option.map_eq_some_iff.mp
        (show (mesh.prisma6 c).map (Code.PRISMA6, ·) = some element from helement)
      exact prisma6_not_isCell hos hns hcell hnodes hcell'
  | HEXA8 =>
      cases os with
      | cons p os =>
          obtain ⟨nodes', hnodes, hcell'⟩ := hexa8_eq hos hns hcell
          refine iff_of_true ⟨(.HEXA8, nodes'), ?_, hcell'⟩ (Or.inr ⟨rfl, List.cons_ne_nil p os⟩)
          exact congrArg (Option.map fun nodes => (Code.HEXA8, nodes)) hnodes
      | nil =>
          refine iff_of_false ?_ (by simp)
          rintro ⟨element, helement, hcell'⟩
          obtain ⟨nodes', hnodes, rfl⟩ := Option.map_eq_some_iff.mp
            (show (mesh.hexa8 c).map (Code.HEXA8, ·) = some element from helement)
          cases ns with
          | nil =>
              have hcard := congrArg Multiset.card hcell.faces_eq
              cases hcard
          | cons p ns => exact hexa8_not_isCell hos hns hcell hnodes hcell'

end Elements

/-! ## All cells -/

def cell (mesh : PlainOpenFOAMData) (e : ℕ) : Option (Code × List ℤ) :=
  let os := chosen mesh.owner e
  let ns := chosen mesh.neighbour e
  mesh.element ⟨e, getThreadBegin mesh.owner (sortIDs mesh.owner) e,
      getThreadBegin mesh.owner (sortIDs mesh.owner) (e + 1),
      getThreadBegin mesh.neighbour (sortIDs mesh.neighbour) e,
      getThreadBegin mesh.neighbour (sortIDs mesh.neighbour) (e + 1)⟩
    ((os.countP fun p => (mesh.nodesOf p).length = 3)
      + ns.countP fun p => (mesh.nodesOf p).length = 3)
    ((os.countP fun p => (mesh.nodesOf p).length = 4)
      + ns.countP fun p => (mesh.nodesOf p).length = 4)

lemma step_eq (elements : Elements) (e : ℕ) :
    mesh.step (getThreadBegin mesh.owner (sortIDs mesh.owner) e,
        getThreadBegin mesh.neighbour (sortIDs mesh.neighbour) e, elements) e
      = (mesh.cell e).map fun element =>
        (getThreadBegin mesh.owner (sortIDs mesh.owner) (e + 1),
          getThreadBegin mesh.neighbour (sortIDs mesh.neighbour) (e + 1),
          elements.push element) := by
  obtain ⟨orest, horest, hoother, hofin⟩ := drop_getThreadBegin mesh.owner e
  obtain ⟨nrest, hnrest, hnother, hnfin⟩ := drop_getThreadBegin mesh.neighbour e
  rw [step, cell, hofin, hnfin]
  simp only [horest, hnrest, addFaces_eq (fun p hp => mem_chosen.mp hp) hoother,
    addFaces_eq (fun p hp => mem_chosen.mp hp) hnother, Nat.zero_add, Option.bind_eq_bind]
  cases mesh.element _ _ _ <;> rfl

lemma foldlM_step (elements : Elements) (begin n : ℕ) :
    (List.range' begin n).foldlM mesh.step (getThreadBegin mesh.owner (sortIDs mesh.owner) begin,
        getThreadBegin mesh.neighbour (sortIDs mesh.neighbour) begin, elements)
      = ((List.range' begin n).mapM mesh.cell).map fun cells =>
        (getThreadBegin mesh.owner (sortIDs mesh.owner) (begin + n),
          getThreadBegin mesh.neighbour (sortIDs mesh.neighbour) (begin + n),
          elements.append (Elements.ofList cells)) := by
  induction n generalizing begin elements with
  | zero => simp [Elements.append, Elements.ofList]
  | succ n ih =>
      rw [List.range'_succ, List.foldlM_cons, List.mapM_cons, step_eq]
      cases mesh.cell begin with
      | none => rfl
      | some element =>
          simp only [Option.map_some, Option.bind_eq_bind, Option.bind_some, ih]
          cases (List.range' (begin + 1) n).mapM mesh.cell with
          | none => rfl
          | some cells =>
              simp only [Option.map_some, Option.bind_some, Option.pure_def]
              rw [show begin + 1 + n = begin + (n + 1) by omega]
              simp [Elements.append, Elements.push, Elements.ofList, List.append_assoc]

lemma thread_eq (begin fin : ℕ) :
    mesh.thread begin fin
      = ((List.range' begin (fin - begin)).mapM mesh.cell).map Elements.ofList := by
  rw [thread]
  simp only [foldlM_step, Option.bind_eq_bind]
  cases (List.range' begin (fin - begin)).mapM mesh.cell with
  | none => rfl
  | some cells => simp [Elements.append, Elements.empty, Elements.ofList]

lemma foldl_append (parts : List (List (Code × List ℤ))) (elements : Elements) :
    (parts.map Elements.ofList).foldl Elements.append elements
      = elements.append (Elements.ofList parts.flatten) := by
  induction parts generalizing elements with
  | nil => simp [Elements.append, Elements.ofList]
  | cons part parts ih =>
      rw [List.map_cons, List.foldl_cons, ih]
      simp [Elements.append, Elements.ofList, List.append_assoc]

lemma mapM_map_ofList (f : ℕ → Option (List (Code × List ℤ))) (ts : List ℕ) :
    (ts.mapM fun t => (f t).map Elements.ofList)
      = (ts.mapM f).map fun parts => parts.map Elements.ofList := by
  induction ts with
  | nil => rfl
  | cons t ts ih =>
      rw [List.mapM_cons, List.mapM_cons, ih]
      cases f t with
      | none => rfl
      | some part => cases ts.mapM f <;> rfl

/-- **All threads together find the elements of all cells**, in ascending order. -/
lemma buildElements_eq {threads : ℕ} (hthreads : 0 < threads) (eoffset count : ℕ) :
    mesh.buildElements threads eoffset count
      = ((List.range' eoffset count).mapM mesh.cell).map Elements.ofList := by
  have hcells := (flatMap_range' (fun t => (distribute threads count).getD t 0 + eoffset) threads
    fun t ht => Nat.add_le_add_right (distribute_getD_mono count ht) eoffset).1
  simp only [distribute_getD_zero hthreads, distribute_getD_last, Nat.zero_add,
    Nat.add_sub_cancel] at hcells
  have hthread : (fun t => mesh.thread ((distribute threads count).getD t 0 + eoffset)
      ((distribute threads count).getD (t + 1) 0 + eoffset)) = fun t =>
        ((List.range' ((distribute threads count).getD t 0 + eoffset)
          ((distribute threads count).getD (t + 1) 0 + eoffset
            - ((distribute threads count).getD t 0 + eoffset))).mapM mesh.cell).map
          Elements.ofList := funext fun t => thread_eq _ _
  rw [← hcells, Fallible.mapM_flatMap, buildElements]
  rw [hthread, mapM_map_ofList]
  have hjoin : ∀ parts : Option (List (List (Code × List ℤ))),
      ((parts.map fun parts => parts.map Elements.ofList).bind fun parts =>
        some (parts.foldl Elements.append Elements.empty))
        = (parts.map List.flatten).map Elements.ofList := by
    rintro (_ | parts)
    · rfl
    · simp only [Option.map_some, Option.bind_some, foldl_append]
      simp [Elements.append, Elements.empty]
  exact hjoin _

lemma chosen_faces {data : List ℕ} (hlength : data.length ≤ mesh.faces.length) (e : ℕ) :
    (((mesh.faces.zip data).filter fun p => p.2 = e).map (·.1)).Perm
      ((chosen data e).map mesh.nodesOf) := by
  have hzip : mesh.faces.zip data
      = (List.range data.length).map fun p => (mesh.nodesOf p, data.getD p 0) := by
    refine List.ext_getElem (by simp [hlength]) fun p hp hp' => ?_
    have hdata : p < data.length := by simpa using hp'
    have hnodes : mesh.nodesOf p = mesh.faces.get ⟨p, hdata.trans_le hlength⟩ :=
      List.getD_eq_getElem _ _ _
    rw [List.getElem_zip, List.getElem_map, List.getElem_range, List.getD_eq_getElem _ _ hdata,
      hnodes]
    rfl
  rw [hzip, List.filter_map, List.map_map]
  exact (((sortIDs_perm data).filter _).map _).symm

/-- **The faces of a cell are those in the two permutations.** -/
lemma cellFaces_eq (mesh : PlainOpenFOAMData) (e : ℕ) :
    mesh.cellFaces e = seen mesh (chosen mesh.owner e) (chosen mesh.neighbour e) := by
  have howner := (chosen_faces mesh.length_owner.le e).map fun l : List ℤ => (l : Cycle ℤ)
  have hneighbour := (chosen_faces mesh.length_neighbour e).map
    fun l : List ℤ => (l : Cycle ℤ).reverse
  rw [List.map_map, List.map_map] at howner hneighbour
  exact congrArg₂ (· + ·) (Multiset.coe_eq_coe.mpr howner) (Multiset.coe_eq_coe.mpr hneighbour)

lemma cell_iff {e : ℕ} {code : Code} {nodes : List ℤ} (h : IsCell code (mesh.cellFaces e) nodes) :
    (∃ element, mesh.cell e = some element ∧ IsCell element.1 (mesh.cellFaces e) element.2)
      ↔ code = .TETRA4 ∨ code = .HEXA8 ∧ e ∈ mesh.owner := by
  have hne : chosen mesh.owner e ≠ [] ↔ e ∈ mesh.owner := by
    rw [ne_eq, List.eq_nil_iff_forall_not_mem, not_forall, List.mem_iff_getElem?]
    simp only [not_not, mem_chosen]
  rw [cellFaces_eq] at h ⊢
  rw [← hne]
  exact element_iff (c := ⟨e, _, _, _, _⟩) (listed_chosen mesh.length_owner.le e)
    (listed_chosen mesh.length_neighbour e) h

lemma ofList_injective : Function.Injective Elements.ofList := by
  intro elements elements' h
  rw [Elements.ofList, Elements.ofList, Elements.mk.injEq] at h
  obtain ⟨hsize, hnodes, htype⟩ := h
  have hsnd : elements.map (·.2) = elements'.map (·.2) := by
    rw [List.eq_iff_flatten_eq, ← List.flatMap_def, ← List.flatMap_def, List.map_map, List.map_map]
    exact ⟨hnodes, hsize⟩
  rw [← List.zip_unzip elements, ← List.zip_unzip elements', List.unzip_eq_map, List.unzip_eq_map]
  exact congrArg₂ List.zip htype hsnd

/-- **The elements of the cells**: one for each cell, in ascending order, whose faces are those of
the cell, seen from outside. -/
def Built (mesh : PlainOpenFOAMData) (threads eoffset count : ℕ) : Prop :=
  ∃ elements : List (Code × List ℤ),
    mesh.buildElements threads eoffset count = some (Elements.ofList elements)
      ∧ elements.length = count
      ∧ ∀ k < count, ∃ element, elements[k]? = some element
        ∧ IsCell element.1 (mesh.cellFaces (eoffset + k)) element.2

lemma built_iff {threads : ℕ} (hthreads : 0 < threads) (eoffset count : ℕ) :
    mesh.Built threads eoffset count ↔ ∀ k < count, ∃ element,
      mesh.cell (eoffset + k) = some element
        ∧ IsCell element.1 (mesh.cellFaces (eoffset + k)) element.2 := by
  rw [Built]
  simp only [buildElements_eq hthreads, Option.map_eq_some_iff]
  constructor
  · rintro ⟨elements, ⟨cells, hcells, hlist⟩, hlength, hall⟩ k hk
    obtain rfl := ofList_injective hlist
    obtain ⟨element, helement, hcell⟩ := hall k hk
    refine ⟨element, ?_, hcell⟩
    have hk' := congrArg (·[k]?) (Fallible.mapM_eq_some_iff.mp hcells)
    simpa [List.getElem?_map, List.getElem?_range', hk, helement] using hk'
  · intro hall
    have hsome : ∀ e ∈ List.range' eoffset count, ∃ element, mesh.cell e = some element := by
      intro e he
      obtain ⟨k, hk, rfl⟩ := List.mem_range'.mp he
      obtain ⟨element, helement, -⟩ := hall k hk
      exact ⟨element, by rw [Nat.one_mul, helement]⟩
    obtain ⟨cells, hcells⟩ := Fallible.exists_mapM hsome
    have hmap := Fallible.mapM_eq_some_iff.mp hcells
    refine ⟨cells, ⟨cells, hcells, rfl⟩, ?_, fun k hk => ?_⟩
    · simpa using (congrArg List.length hmap).symm
    · obtain ⟨element, helement, hcell⟩ := hall k hk
      refine ⟨element, ?_, hcell⟩
      have hk' := congrArg (·[k]?) hmap
      simp only [List.getElem?_map, List.getElem?_range', hk, Nat.one_mul, Option.map_some,
        helement] at hk'
      cases hcell : cells[k]? with
      | none => simp [hcell] at hk'
      | some element' => simpa [hcell] using hk'.symm

/-- **The loader finds the elements of a mesh if and only if** all its cells are tetrahedra, or
hexahedra that own one of their faces. Of a hexahedron without an owned face, two nodes of the first
face are exchanged, and prisms and pyramids are mirrored. -/
theorem buildElements_iff (mesh : PlainOpenFOAMData) {threads : ℕ} (hthreads : 0 < threads)
    (eoffset count : ℕ)
    (hcells : ∀ k < count, ∃ code nodes, IsCell code (mesh.cellFaces (eoffset + k)) nodes) :
    mesh.Built threads eoffset count ↔ ∀ k < count,
      (∃ nodes, IsCell .TETRA4 (mesh.cellFaces (eoffset + k)) nodes)
        ∨ (∃ nodes, IsCell .HEXA8 (mesh.cellFaces (eoffset + k)) nodes)
          ∧ eoffset + k ∈ mesh.owner := by
  rw [built_iff hthreads]
  refine forall₂_congr fun k hk => ?_
  obtain ⟨code, nodes, hcell⟩ := hcells k hk
  rw [cell_iff hcell]
  constructor
  · rintro (rfl | ⟨rfl, howned⟩)
    · exact Or.inl ⟨nodes, hcell⟩
    · exact Or.inr ⟨⟨nodes, hcell⟩, howned⟩
  · rintro (⟨nodes', hcell'⟩ | ⟨⟨nodes', hcell'⟩, howned⟩)
    · exact Or.inl (hcell.code_eq hcell')
    · exact Or.inr ⟨hcell.code_eq hcell', howned⟩

def twoTetrahedra : PlainOpenFOAMData where
  faces := [[2, 1, 0], [0, 1, 3], [1, 2, 3], [2, 0, 3], [0, 2, 4], [2, 1, 4], [1, 0, 4]]
  owner := [0, 0, 0, 0, 1, 1, 1]
  neighbour := [1]
  length_owner := rfl
  length_neighbour := Nat.le_of_ble_eq_true rfl

theorem buildElements_tetrahedra : twoTetrahedra.Built 2 0 2 := by
  refine (buildElements_iff twoTetrahedra (by decide) 0 2 fun k hk => ?_).mpr fun k hk => ?_
  · rcases Nat.le_one_iff_eq_zero_or_eq_one.mp (Nat.lt_succ_iff.mp hk) with rfl | rfl
    · exact ⟨.TETRA4, [0, 1, 2, 3], rfl, by decide, by decide⟩
    · exact ⟨.TETRA4, [0, 2, 1, 4], rfl, by decide, by decide⟩
  · rcases Nat.le_one_iff_eq_zero_or_eq_one.mp (Nat.lt_succ_iff.mp hk) with rfl | rfl
    · exact Or.inl ⟨[0, 1, 2, 3], rfl, by decide, by decide⟩
    · exact Or.inl ⟨[0, 2, 1, 4], rfl, by decide, by decide⟩

def prism : PlainOpenFOAMData where
  faces := [[0, 1, 4, 3], [1, 2, 5, 4], [2, 0, 3, 5], [2, 1, 0], [3, 4, 5]]
  owner := [0, 0, 0, 0, 0]
  neighbour := []
  length_owner := rfl
  length_neighbour := Nat.zero_le _

/-- A prism is mirrored. -/
theorem not_built_prism : (∃ nodes, IsCell .PRISMA6 (prism.cellFaces 0) nodes)
    ∧ ¬ prism.Built 1 0 1 := by
  have hcell : IsCell .PRISMA6 (prism.cellFaces 0) [0, 1, 2, 3, 4, 5] := ⟨rfl, by decide, by decide⟩
  refine ⟨⟨_, hcell⟩, fun hbuilt => ?_⟩
  have hcase := (cell_iff hcell).mp ((built_iff Nat.one_pos 0 1).mp hbuilt 0 Nat.one_pos)
  simp at hcase

end PlainOpenFOAMData

end OpenFOAM

end Espreso
