import Espreso.Assembler.Physics

/-!
# Inserting the mass matrix of an element

The mass matrix of an element has a row for each node.  `insertElementToDomain` inserts it once for
each component; the unknowns of an element are listed component by component, but it indexes them
node by node.

* `SparseVVPMatrix.value` — what the pairs of a position add up to.
* **`interleaved_eq_blocks_iff`** — when the two orders place a matrix at the same positions.
* **`mass_inserted_iff`** — one component, or a multiple of the identity.
-/

namespace Espreso.Assembling

open Finset

/-! ## Two orders of blocks -/

section Orders

variable {α : Type} [Zero α] (A : ℕ → ℕ → α) (d n : ℕ)

def interleaved (k l : ℕ) : α := if k % d = l % d then A (k / d) (l / d) else 0

def blocks (k l : ℕ) : α := if k / n = l / n then A (k % n) (l % n) else 0

variable {A d n}

lemma blocks_of_lt {a b : ℕ} (ha : a < n) (hb : b < n) : blocks A n a b = A a b := by
  rw [blocks, Nat.div_eq_of_lt ha, Nat.div_eq_of_lt hb, if_pos rfl, Nat.mod_eq_of_lt ha,
    Nat.mod_eq_of_lt hb]

lemma scalar_of_interleaved_eq_blocks (hd : 2 ≤ d)
    (h : ∀ k < d * n, ∀ l < d * n, interleaved A d k l = blocks A n k l) (s : ℕ) :
    ∀ a b, a + b = s → a < n → b < n → A a b = if a = b then A 0 0 else 0 := by
  induction s using Nat.strong_induction_on with
  | _ s ih =>
      intro a b hs ha hb
      have hle : n ≤ d * n := Nat.le_mul_of_pos_left n (by omega)
      have hab := h a (ha.trans_le hle) b (hb.trans_le hle)
      rw [blocks_of_lt ha hb, interleaved] at hab
      by_cases hmod : a % d = b % d
      · rw [if_pos hmod] at hab
        have hdiv : a / d = b / d ↔ a = b := by
          refine ⟨fun hdiv => ?_, fun heq => heq ▸ rfl⟩
          rw [← Nat.div_add_mod a d, ← Nat.div_add_mod b d, hdiv, hmod]
        rcases Nat.eq_zero_or_pos s with rfl | hpos
        · obtain ⟨rfl, rfl⟩ : a = 0 ∧ b = 0 := by omega
          rw [if_pos rfl]
        · have hsmaller : a / d + b / d < s := by
            have hda : a / d ≤ a / 2 := Nat.div_le_div_left hd (by decide)
            have hdb : b / d ≤ b / 2 := Nat.div_le_div_left hd (by decide)
            omega
          rw [← hab, ih _ hsmaller _ _ rfl ((Nat.div_le_self a d).trans_lt ha)
            ((Nat.div_le_self b d).trans_lt hb)]
          exact if_congr hdiv rfl rfl
      · rw [if_neg hmod] at hab
        rw [← hab, if_neg fun heq => hmod (congrArg (· % d) heq)]

/-- **The orders agree** for one copy, and for multiples of the identity. -/
theorem interleaved_eq_blocks_iff :
    (∀ k < d * n, ∀ l < d * n, interleaved A d k l = blocks A n k l) ↔
      d ≤ 1 ∨ ∃ s, ∀ a < n, ∀ b < n, A a b = if a = b then s else 0 := by
  constructor
  · intro h
    rcases Nat.lt_or_ge d 2 with hd | hd
    · exact Or.inl (by omega)
    · exact Or.inr ⟨A 0 0, fun a ha b hb =>
        scalar_of_interleaved_eq_blocks hd h (a + b) a b rfl ha hb⟩
  · rintro (hd | ⟨s, hs⟩) k hk l hl
    · have hone : d = 1 := by
        rcases Nat.eq_zero_or_pos d with rfl | hpos
        · omega
        · omega
      subst hone
      rw [one_mul] at hk hl
      rw [blocks_of_lt hk hl, interleaved, Nat.mod_one, Nat.mod_one, if_pos rfl, Nat.div_one,
        Nat.div_one]
    · have hn : 0 < n := Nat.pos_of_ne_zero fun hzero => by
        rw [hzero, mul_zero] at hk
        exact absurd hk (Nat.not_lt_zero k)
      -- both are the multiple of the larger identity
      have hdiag : ∀ (m x y : ℕ), (if x % m = y % m then (if x / m = y / m then s else 0) else 0)
          = if x = y then s else 0 := by
        intro m x y
        by_cases heq : x = y
        · subst heq
          rw [if_pos rfl, if_pos rfl, if_pos rfl]
        · rw [if_neg heq]
          split_ifs with hmod hdiv
          · refine absurd ?_ heq
            rw [← Nat.div_add_mod x m, ← Nat.div_add_mod y m, hdiv, hmod]
          · rfl
          · rfl
      have hdiv : ∀ x < d * n, x / d < n := fun x hx => Nat.div_lt_of_lt_mul hx
      rw [interleaved, blocks, hs _ (hdiv k hk) _ (hdiv l hl),
        hs _ (Nat.mod_lt k hn) _ (Nat.mod_lt l hn), hdiag d k l, ← hdiag n k l]
      by_cases hmod : k % n = l % n <;> by_cases hdivn : k / n = l / n <;> simp [hmod, hdivn]

end Orders

/-! ## What is inserted -/

def SparseVVPMatrix.value (A : SparseVVPMatrix) (i j : ℕ) : ℚ := Row.entry (A.values.getD i []) j

def written (l : List (ℕ × ℕ × ℚ)) (i j : ℕ) : ℚ :=
  ((l.filter fun e => e.1 = i ∧ e.2.1 = j).map fun e => e.2.2).sum

lemma SparseVVPMatrix.Square.value_writeAll {n : ℕ} {A : SparseVVPMatrix} (h : A.Square n)
    {l : List (ℕ × ℕ × ℚ)} (hl : ∀ e ∈ l, e.1 < n ∧ e.2.1 < n) (i j : ℕ) :
    (A.writeAll l).value i j = A.value i j + written l i j := by
  rw [SparseVVPMatrix.value, (h.writeAll l hl).2 i, Row.entry_append]
  refine congrArg (A.value i j + ·) ?_
  rw [Row.entry, List.filter_map, List.filter_filter, List.map_map]
  refine congrArg (fun l : List (ℕ × ℕ × ℚ) => (l.map fun e => e.2.2).sum) ?_
  exact List.filter_congr fun e _ => by simp [Bool.and_comm]

/-- **What an element has to add** at unknowns `i` and `j`: its mass matrix for each component. -/
def Domain.massAt (D : Domain) (nodes : List ℕ) (Me : DenseMatrix) (i j : ℕ) : ℚ :=
  ∑ m ∈ range D.DOFs, ∑ r ∈ range nodes.length, ∑ c ∈ range nodes.length,
    if D.DOF (nodes.getD r 0) m = i ∧ D.DOF (nodes.getD c 0) m = j then Me.value r c else 0

section Element

variable {D : Domain} {nodes : List ℕ} {Me : DenseMatrix}

lemma length_dofs : (D.dofs nodes).length = D.DOFs * nodes.length := by
  rw [Domain.dofs, List.length_flatMap, List.map_congr_left fun _ _ => List.length_map _,
    List.map_const', List.sum_replicate, List.length_range, smul_eq_mul]

lemma getD_dofs {m r : ℕ} (hm : m < D.DOFs) (hr : r < nodes.length) :
    (D.dofs nodes).getD (m * nodes.length + r) 0 = D.DOF (nodes.getD r 0) m := by
  rw [List.getD_eq_getElem?_getD, D.getElem?_dofs nodes hm hr, Option.getD_some,
    List.getD_eq_getElem _ _ hr]

lemma getD_dofs_inj (hnodes : ∀ n ∈ nodes, n ∈ D.nodes) (hnodup : nodes.Nodup) {k l : ℕ}
    (hk : k < D.DOFs * nodes.length) (hl : l < D.DOFs * nodes.length) :
    (D.dofs nodes).getD k 0 = (D.dofs nodes).getD l 0 ↔ k = l := by
  refine ⟨fun h => ?_, fun h => h ▸ rfl⟩
  have hn : 0 < nodes.length := Nat.pos_of_ne_zero fun hzero => by
    rw [hzero, mul_zero] at hk
    exact absurd hk (Nat.not_lt_zero k)
  have hsplit : ∀ x < D.DOFs * nodes.length, x / nodes.length < D.DOFs ∧
      x % nodes.length < nodes.length ∧ x / nodes.length * nodes.length + x % nodes.length = x :=
    fun x hx => ⟨Nat.div_lt_of_lt_mul (by rwa [mul_comm]), Nat.mod_lt x hn, Nat.div_add_mod' x _⟩
  obtain ⟨hkm, hkr, hkeq⟩ := hsplit k hk
  obtain ⟨hlm, hlr, hleq⟩ := hsplit l hl
  rw [← hkeq, ← hleq, getD_dofs hkm hkr, getD_dofs hlm hlr] at h
  have hmem : ∀ r < nodes.length, nodes.getD r 0 ∈ D.nodes := fun r hr => by
    rw [List.getD_eq_getElem _ _ hr]
    exact hnodes _ (List.getElem_mem hr)
  have hpair : (nodes.getD (k % nodes.length) 0, k / nodes.length)
      = (nodes.getD (l % nodes.length) 0, l / nodes.length) :=
    D.DOF_bijOn.injOn ⟨hmem _ hkr, hkm⟩ ⟨hmem _ hlr, hlm⟩ h
  rw [Prod.mk.injEq, List.getD_eq_getElem _ _ hkr, List.getD_eq_getElem _ _ hlr,
    hnodup.getElem_inj_iff] at hpair
  rw [← hkeq, ← hleq, hpair.1, hpair.2]

omit D nodes Me in
lemma sum_position (f : ℕ → ℕ → ℚ) {d n m₁ m₂ r₀ c₀ : ℕ} (hm : m₁ < d) (hr : r₀ < n) (hc : c₀ < n) :
    (∑ m ∈ range d, ∑ r ∈ range n, ∑ c ∈ range n,
      if (m = m₁ ∧ r = r₀) ∧ m = m₂ ∧ c = c₀ then f r c else 0)
      = if m₁ = m₂ then f r₀ c₀ else 0 := by
  rw [sum_eq_single m₁ (fun m _ hne => ?_) fun h => absurd (mem_range.mpr hm) h,
    sum_eq_single r₀ (fun r _ hne => ?_) fun h => absurd (mem_range.mpr hr) h,
    sum_eq_single c₀ (fun c _ hne => ?_) fun h => absurd (mem_range.mpr hc) h]
  · exact if_congr ⟨fun h => h.2.1, fun h => ⟨⟨rfl, rfl⟩, h, rfl⟩⟩ rfl rfl
  · exact if_neg fun h => hne h.2.2
  · exact sum_eq_zero fun c _ => if_neg fun h => hne h.1.2
  · exact sum_eq_zero fun r _ => sum_eq_zero fun c _ => if_neg fun h => hne h.1.1

lemma written_massWrites (hnodes : ∀ n ∈ nodes, n ∈ D.nodes) (hnodup : nodes.Nodup)
    (hMe : Me.Sized nodes.length nodes.length) {k l : ℕ} (hk : k < D.DOFs * nodes.length)
    (hl : l < D.DOFs * nodes.length) :
    written (massWrites (D.dofs nodes) Me) ((D.dofs nodes).getD k 0) ((D.dofs nodes).getD l 0)
      = interleaved Me.value D.DOFs k l := by
  have hn : 0 < nodes.length := Nat.pos_of_ne_zero fun hzero => by
    rw [hzero, mul_zero] at hk
    exact absurd hk (Nat.not_lt_zero k)
  have hd : 0 < D.DOFs := Nat.pos_of_ne_zero fun hzero => by
    rw [hzero, zero_mul] at hk
    exact absurd hk (Nat.not_lt_zero k)
  have hmultiplicity : (D.dofs nodes).length / Me.rows = D.DOFs := by
    rw [length_dofs, hMe.1, Nat.mul_div_cancel _ hn]
  have hposition : ∀ m < D.DOFs, ∀ r < nodes.length, ∀ x < D.DOFs * nodes.length,
      (D.dofs nodes).getD (r * D.DOFs + m) 0 = (D.dofs nodes).getD x 0
        ↔ m = x % D.DOFs ∧ r = x / D.DOFs := by
    intro m hm r hr x hx
    have hlt : r * D.DOFs + m < D.DOFs * nodes.length := by
      have := Nat.mul_le_mul_right D.DOFs (Nat.succ_le_of_lt hr)
      rw [Nat.succ_mul, mul_comm nodes.length] at this
      omega
    rw [getD_dofs_inj hnodes hnodup hlt hx]
    constructor
    · rintro rfl
      rw [Nat.mul_add_mod', Nat.mod_eq_of_lt hm, Nat.mul_comm r, Nat.mul_add_div hd,
        Nat.div_eq_of_lt hm]
      exact ⟨rfl, rfl⟩
    · rintro ⟨rfl, rfl⟩
      exact Nat.div_add_mod' x D.DOFs
  have hdiv : ∀ x < D.DOFs * nodes.length, x / D.DOFs < nodes.length := fun x hx =>
    Nat.div_lt_of_lt_mul hx
  rw [written, massWrites, hmultiplicity, hMe.1, hMe.2, sum_filter_map, sum_map_flatMap,
    sum_map_range, interleaved,
    ← sum_position Me.value (Nat.mod_lt k hd) (hdiv k hk) (hdiv l hl)]
  refine sum_congr rfl fun m hm => ?_
  rw [sum_map_flatMap, sum_map_range]
  refine sum_congr rfl fun r hr => ?_
  rw [List.map_map, sum_map_range]
  refine sum_congr rfl fun c hc => if_congr ?_ rfl rfl
  exact and_congr (hposition m (mem_range.mp hm) r (mem_range.mp hr) k hk)
    (hposition m (mem_range.mp hm) c (mem_range.mp hc) l hl)

lemma massAt_eq (hnodes : ∀ n ∈ nodes, n ∈ D.nodes) (hnodup : nodes.Nodup) {k l : ℕ}
    (hk : k < D.DOFs * nodes.length) (hl : l < D.DOFs * nodes.length) :
    D.massAt nodes Me ((D.dofs nodes).getD k 0) ((D.dofs nodes).getD l 0)
      = blocks Me.value nodes.length k l := by
  have hn : 0 < nodes.length := Nat.pos_of_ne_zero fun hzero => by
    rw [hzero, mul_zero] at hk
    exact absurd hk (Nat.not_lt_zero k)
  have hposition : ∀ m < D.DOFs, ∀ r < nodes.length, ∀ x < D.DOFs * nodes.length,
      D.DOF (nodes.getD r 0) m = (D.dofs nodes).getD x 0
        ↔ m = x / nodes.length ∧ r = x % nodes.length := by
    intro m hm r hr x hx
    have hlt : m * nodes.length + r < D.DOFs * nodes.length := by
      have := Nat.mul_le_mul_right nodes.length (Nat.succ_le_of_lt hm)
      rw [Nat.succ_mul] at this
      omega
    rw [← getD_dofs hm hr, getD_dofs_inj hnodes hnodup hlt hx]
    constructor
    · rintro rfl
      rw [Nat.mul_add_mod', Nat.mod_eq_of_lt hr, Nat.mul_comm m, Nat.mul_add_div hn,
        Nat.div_eq_of_lt hr]
      exact ⟨rfl, rfl⟩
    · rintro ⟨rfl, rfl⟩
      exact Nat.div_add_mod' x nodes.length
  have hdiv : k / nodes.length < D.DOFs := Nat.div_lt_of_lt_mul (by rwa [mul_comm])
  rw [Domain.massAt, blocks,
    ← sum_position Me.value hdiv (Nat.mod_lt k hn) (Nat.mod_lt l hn)]
  refine sum_congr rfl fun m hm => sum_congr rfl fun r hr => sum_congr rfl fun c hc =>
    if_congr ?_ rfl rfl
  exact and_congr (hposition m (mem_range.mp hm) r (mem_range.mp hr) k hk)
    (hposition m (mem_range.mp hm) c (mem_range.mp hc) l hl)

lemma written_eq_zero {l : List (ℕ × ℕ × ℚ)} {i j : ℕ} (h : ∀ e ∈ l, ¬(e.1 = i ∧ e.2.1 = j)) :
    written l i j = 0 := by
  rw [written, List.filter_eq_nil_iff.mpr fun e he => by simpa using h e he]
  rfl

lemma getD_dofs_lt (hnodes : ∀ n ∈ nodes, n ∈ D.nodes) {k : ℕ}
    (hk : k < D.DOFs * nodes.length) : (D.dofs nodes).getD k 0 < D.domainDOFCount := by
  rw [← length_dofs] at hk
  rw [List.getD_eq_getElem _ _ hk]
  exact D.dofs_lt hnodes (List.getElem_mem hk)

lemma exists_of_mem_massWrites (hMe : Me.Sized nodes.length nodes.length) {w : ℕ × ℕ × ℚ}
    (hw : w ∈ massWrites (D.dofs nodes) Me) : ∃ k < D.DOFs * nodes.length,
      ∃ l < D.DOFs * nodes.length, w.1 = (D.dofs nodes).getD k 0 ∧
        w.2.1 = (D.dofs nodes).getD l 0 := by
  simp only [massWrites, List.mem_flatMap, List.mem_map, List.mem_range, hMe.1, hMe.2] at hw
  obtain ⟨m, hm, r, hr, c, hc, rfl⟩ := hw
  have hn : 0 < nodes.length := by omega
  rw [length_dofs, Nat.mul_div_cancel _ hn] at hm
  have hlt : ∀ x < nodes.length, x * ((D.dofs nodes).length / nodes.length) + m
      < D.DOFs * nodes.length := by
    intro x hx
    have := Nat.mul_le_mul_right D.DOFs (Nat.succ_le_of_lt hx)
    rw [Nat.succ_mul, mul_comm nodes.length] at this
    rw [length_dofs, Nat.mul_div_cancel _ hn]
    omega
  exact ⟨_, hlt r hr, _, hlt c hc, rfl, rfl⟩

lemma exists_of_massAt_ne_zero {i j : ℕ} (h : D.massAt nodes Me i j ≠ 0) :
    ∃ k < D.DOFs * nodes.length, ∃ l < D.DOFs * nodes.length,
      i = (D.dofs nodes).getD k 0 ∧ j = (D.dofs nodes).getD l 0 := by
  obtain ⟨m, hm, h⟩ := exists_ne_zero_of_sum_ne_zero h
  obtain ⟨r, hr, h⟩ := exists_ne_zero_of_sum_ne_zero h
  obtain ⟨c, hc, h⟩ := exists_ne_zero_of_sum_ne_zero h
  obtain ⟨hi, hj⟩ := (ite_ne_right_iff.mp h).1
  rw [mem_range] at hm hr hc
  have hlt : ∀ x < nodes.length, m * nodes.length + x < D.DOFs * nodes.length := by
    intro x hx
    have := Nat.mul_le_mul_right nodes.length (Nat.succ_le_of_lt hm)
    rw [Nat.succ_mul] at this
    omega
  exact ⟨_, hlt r hr, _, hlt c hc, by rw [getD_dofs hm hr, hi], by rw [getD_dofs hm hc, hj]⟩

/-- **What is inserted is what has to be inserted** exactly if the two orders agree. -/
lemma written_eq_massAt_iff (hnodes : ∀ n ∈ nodes, n ∈ D.nodes) (hnodup : nodes.Nodup)
    (hMe : Me.Sized nodes.length nodes.length) :
    (∀ i j, written (massWrites (D.dofs nodes) Me) i j = D.massAt nodes Me i j) ↔
      D.DOFs ≤ 1 ∨ ∃ x, ∀ r < nodes.length, ∀ c < nodes.length,
        Me.value r c = if r = c then x else 0 := by
  rw [← interleaved_eq_blocks_iff]
  constructor
  · intro h k hk l hl
    rw [← written_massWrites hnodes hnodup hMe hk hl, h, massAt_eq hnodes hnodup hk hl]
  · intro h i j
    by_cases hij : ∃ k < D.DOFs * nodes.length, ∃ l < D.DOFs * nodes.length,
        i = (D.dofs nodes).getD k 0 ∧ j = (D.dofs nodes).getD l 0
    · obtain ⟨k, hk, l, hl, rfl, rfl⟩ := hij
      rw [written_massWrites hnodes hnodup hMe hk hl, h k hk l hl,
        massAt_eq hnodes hnodup hk hl]
    · rw [written_eq_zero fun w hw hwij => hij ?_, not_not.mp fun h =>
        hij (exists_of_massAt_ne_zero h)]
      obtain ⟨k, hk, l, hl, hwk, hwl⟩ := exists_of_mem_massWrites hMe hw
      exact ⟨k, hk, l, hl, hwij.1.symm.trans hwk, hwij.2.symm.trans hwl⟩

lemma insertMass_of_sized (hMe : Me.Sized nodes.length nodes.length) (M : SparseVVPMatrix) :
    insertMass (D.dofs nodes) M Me = some (M.writeAll (massWrites (D.dofs nodes) Me)) := by
  rw [insertMass, hMe.1, hMe.2]
  rcases Nat.eq_zero_or_pos nodes.length with hzero | hpos
  · rw [hzero, if_neg fun h => h.1 rfl, if_neg (by omega), massWrites, hMe.1, hzero, Nat.div_zero]
    rfl
  · have hmod : (D.dofs nodes).length % nodes.length = 0 := by
      rw [length_dofs, Nat.mul_mod_left]
    rw [if_pos ⟨hpos.ne', hpos.ne', hmod, hmod⟩, if_pos le_rfl]

end Element

/-! ## Elements with a mass matrix -/

/-- An element whose mass matrix has a row for each of its nodes, which are different. -/
structure Contribution.HasMass (e : Contribution) (D : Domain) (m : Matrices) : Prop where
  fits : e.Fits D m
  nodup : e.nodes.Nodup
  sized : e.Me.Sized e.nodes.length e.nodes.length

/-- The unknowns of the element cannot be mixed up: there is one component, or the mass matrix is a
multiple of the identity. -/
def Contribution.Scalar (e : Contribution) (D : Domain) : Prop :=
  D.DOFs ≤ 1 ∨ ∃ x, ∀ r < e.nodes.length, ∀ c < e.nodes.length,
    e.Me.value r c = if r = c then x else 0

section Elements

variable {D : Domain} {internalForceReduction : ℚ} {m : Matrices}

variable (internalForceReduction) in
lemma insertContribution_mass {e : Contribution} (he : e.HasMass D m) {s : Assembly}
    (hs : s.Allocated D m) (isBoundaryCondition : Bool) :
    ∃ s', insertContribution D internalForceReduction isBoundaryCondition s e = some s' ∧
      s'.Allocated D m ∧ s'.M = s.M.writeAll (massWrites (D.dofs e.nodes) e.Me) := by
  obtain ⟨s', hs', hadds⟩ := insertContribution_eq he.fits hs isBoundaryCondition
  refine ⟨s', hs', hadds.allocated hs, ?_⟩
  rw [insertContribution, D.fillDOFsIndices_eq he.fits.nodes] at hs'
  simp only [insertElementToDomain, insertMass_of_sized he.sized, Option.bind_eq_bind,
    Option.bind_some, Option.bind_eq_some_iff, Option.some.injEq] at hs'
  obtain ⟨K, -, R, -, f, -, rfl⟩ := hs'
  rfl

lemma massWrites_lt {e : Contribution} (he : e.HasMass D m) :
    ∀ w ∈ massWrites (D.dofs e.nodes) e.Me,
      w.1 < D.domainDOFCount ∧ w.2.1 < D.domainDOFCount := by
  intro w hw
  obtain ⟨k, hk, l, hl, hwk, hwl⟩ := exists_of_mem_massWrites he.sized hw
  rw [hwk, hwl]
  exact ⟨getD_dofs_lt he.fits.nodes hk, getD_dofs_lt he.fits.nodes hl⟩

/-- **One element**: it adds its mass matrix for each component if and only if the unknowns cannot
be mixed up. -/
lemma adds_mass_iff {e : Contribution} (he : e.HasMass D m) {s : Assembly} (hs : s.Allocated D m)
    (hM : s.M.Square D.domainDOFCount) (isBoundaryCondition : Bool) :
    (∃ s', insertContribution D internalForceReduction isBoundaryCondition s e = some s' ∧
      ∀ i j, s'.M.value i j = s.M.value i j + D.massAt e.nodes e.Me i j) ↔ e.Scalar D := by
  obtain ⟨t, ht, -, hwritten⟩ :=
    insertContribution_mass internalForceReduction he hs
      isBoundaryCondition
  have hvalue : ∀ i j, t.M.value i j
      = s.M.value i j + written (massWrites (D.dofs e.nodes) e.Me) i j := by
    intro i j
    rw [hwritten, hM.value_writeAll (massWrites_lt he)]
  rw [Contribution.Scalar, ← written_eq_massAt_iff he.fits.nodes he.nodup he.sized]
  constructor
  · rintro ⟨s', hs', hadd⟩ i j
    obtain rfl : t = s' := Option.some.inj (ht.symm.trans hs')
    exact add_left_cancel ((hvalue i j).symm.trans (hadd i j))
  · intro h
    exact ⟨t, ht, fun i j => by rw [hvalue, h]⟩

variable (internalForceReduction) in
/-- **All elements** of a domain whose unknowns cannot be mixed up. -/
lemma foldlM_adds_mass (isBoundaryCondition : Bool) (es : List Contribution)
    (hes : ∀ e ∈ es, e.HasMass D m ∧ e.Scalar D) {s : Assembly} (hs : s.Allocated D m)
    (hM : s.M.Square D.domainDOFCount) :
    ∃ s', es.foldlM (insertContribution D internalForceReduction isBoundaryCondition) s = some s' ∧
      ∀ i j, s'.M.value i j
        = s.M.value i j + (es.map fun e => D.massAt e.nodes e.Me i j).sum := by
  induction es generalizing s with
  | nil => exact ⟨s, rfl, fun i j => (add_zero _).symm⟩
  | cons e es ih =>
      obtain ⟨he, hscalar⟩ := hes e List.mem_cons_self
      obtain ⟨t, ht, hallocated, hwritten⟩ :=
        insertContribution_mass internalForceReduction he hs
          isBoundaryCondition
      have hsquare : t.M.Square D.domainDOFCount :=
        hwritten ▸ (hM.writeAll _ (massWrites_lt he)).1
      obtain ⟨s', hs', hvalue⟩ :=
        ih (fun e' he' => hes e' (List.mem_cons_of_mem e he')) hallocated hsquare
      refine ⟨s', ?_, fun i j => ?_⟩
      · rw [List.foldlM_cons, ht]
        exact hs'
      · rw [hvalue, hwritten, hM.value_writeAll (massWrites_lt he),
          (written_eq_massAt_iff he.fits.nodes he.nodup he.sized).mpr hscalar, List.map_cons,
          List.sum_cons, add_assoc]

lemma massAt_of_components {nodes : List ℕ} {Me : DenseMatrix} {i j : ℕ}
    (h : i % D.DOFs ≠ j % D.DOFs) : D.massAt nodes Me i j = 0 := by
  refine sum_eq_zero fun c hc => sum_eq_zero fun r _ => sum_eq_zero fun l _ => if_neg ?_
  rintro ⟨rfl, rfl⟩
  refine h ?_
  rw [Domain.DOF, Domain.DOF, Nat.mul_add_mod, Nat.mul_add_mod]

lemma sum_massAt {nodes : List ℕ} {Me : DenseMatrix} (hnodes : ∀ n ∈ nodes, n ∈ D.nodes) :
    ∑ i ∈ range D.domainDOFCount, ∑ j ∈ range D.domainDOFCount, D.massAt nodes Me i j
      = D.DOFs * ∑ r ∈ range nodes.length, ∑ c ∈ range nodes.length, Me.value r c := by
  have hproduct : ∀ i j, D.massAt nodes Me i j
      = ∑ q ∈ range D.DOFs ×ˢ range nodes.length ×ˢ range nodes.length,
        if D.DOF (nodes.getD q.2.1 0) q.1 = i ∧ D.DOF (nodes.getD q.2.2 0) q.1 = j then
          Me.value q.2.1 q.2.2 else 0 := by
    intro i j
    rw [Domain.massAt, sum_product]
    refine sum_congr rfl fun m _ => ?_
    rw [sum_product]
  have hlt : ∀ m < D.DOFs, ∀ r < nodes.length, D.DOF (nodes.getD r 0) m < D.domainDOFCount := by
    intro m hm r hr
    refine D.DOF_bijOn.mapsTo (show (nodes.getD r 0, m) ∈ _ from ⟨?_, hm⟩)
    rw [List.getD_eq_getElem _ _ hr]
    exact hnodes _ (List.getElem_mem hr)
  have hinner : ∀ q ∈ range D.DOFs ×ˢ range nodes.length ×ˢ range nodes.length,
      (∑ i ∈ range D.domainDOFCount, ∑ j ∈ range D.domainDOFCount,
        if D.DOF (nodes.getD q.2.1 0) q.1 = i ∧ D.DOF (nodes.getD q.2.2 0) q.1 = j then
          Me.value q.2.1 q.2.2 else 0) = Me.value q.2.1 q.2.2 := by
    intro q hq
    simp only [mem_product, mem_range] at hq
    rw [sum_eq_single_of_mem _ (mem_range.mpr (hlt q.1 hq.1 q.2.1 hq.2.1)) fun i _ hne =>
        sum_eq_zero fun j _ => if_neg fun h => hne h.1.symm,
      sum_eq_single_of_mem _ (mem_range.mpr (hlt q.1 hq.1 q.2.2 hq.2.2)) fun j _ hne =>
        if_neg fun h => hne h.2.symm, if_pos ⟨rfl, rfl⟩]
  calc ∑ i ∈ range D.domainDOFCount, ∑ j ∈ range D.domainDOFCount, D.massAt nodes Me i j
      = ∑ q ∈ range D.DOFs ×ˢ range nodes.length ×ˢ range nodes.length,
          ∑ i ∈ range D.domainDOFCount, ∑ j ∈ range D.domainDOFCount,
            if D.DOF (nodes.getD q.2.1 0) q.1 = i ∧ D.DOF (nodes.getD q.2.2 0) q.1 = j then
              Me.value q.2.1 q.2.2 else 0 := by
        simp only [hproduct]
        rw [sum_comm]
        rw [sum_congr rfl fun j _ => sum_comm, sum_comm]
        exact sum_congr rfl fun q _ => sum_comm
    _ = ∑ q ∈ range D.DOFs ×ˢ range nodes.length ×ˢ range nodes.length, Me.value q.2.1 q.2.2 :=
        sum_congr rfl hinner
    _ = D.DOFs * ∑ r ∈ range nodes.length, ∑ c ∈ range nodes.length, Me.value r c := by
        rw [sum_product]
        dsimp only
        rw [sum_const, card_range, nsmul_eq_mul, sum_product]

lemma value_resize (n i j : ℕ) : (SparseVVPMatrix.resize n n).value i j = 0 := by
  rw [SparseVVPMatrix.value, SparseVVPMatrix.resize, List.getD_eq_getElem?_getD,
    List.getElem?_replicate]
  split_ifs <;> rfl

/-- **The mass matrix of an element** is added for each component if and only if there is one
component or it is a multiple of the identity.  If that holds for all elements, the assembled matrix
connects no different components, and it sums up to the mass for each component. -/
theorem mass_inserted_iff (D : Domain) (internalForceReduction : ℚ) (m : Matrices)
    (isBoundaryCondition : Bool) :
    (∀ e : Contribution, e.HasMass D m → ∀ s : Assembly, s.Allocated D m →
      s.M.Square D.domainDOFCount →
      ((∃ s', insertContribution D internalForceReduction isBoundaryCondition s e = some s' ∧
        ∀ i j, s'.M.value i j = s.M.value i j + D.massAt e.nodes e.Me i j) ↔ e.Scalar D)) ∧
    ∀ es : List Contribution, (∀ e ∈ es, e.HasMass D m ∧ e.Scalar D) →
      ∀ s : Assembly, s.Allocated D m →
      s.M = SparseVVPMatrix.resize D.domainDOFCount D.domainDOFCount →
      ∃ s', es.foldlM (insertContribution D internalForceReduction isBoundaryCondition) s
          = some s' ∧
        (∀ i j, i % D.DOFs ≠ j % D.DOFs → s'.M.value i j = 0) ∧
        ∑ i ∈ range D.domainDOFCount, ∑ j ∈ range D.domainDOFCount, s'.M.value i j
          = D.DOFs * (es.map fun e => ∑ r ∈ range e.nodes.length, ∑ c ∈ range e.nodes.length,
              e.Me.value r c).sum := by
  refine ⟨fun e he s hs hM => adds_mass_iff he hs hM isBoundaryCondition, fun es hes s hs hM => ?_⟩
  obtain ⟨s', hs', hvalue⟩ := foldlM_adds_mass internalForceReduction
    isBoundaryCondition es hes hs (hM ▸ SparseVVPMatrix.square_resize _)
  have hsum : ∀ i j, s'.M.value i j = (es.map fun e => D.massAt e.nodes e.Me i j).sum := by
    intro i j
    rw [hvalue, hM, value_resize, zero_add]
  refine ⟨s', hs', fun i j hij => ?_, ?_⟩
  · rw [hsum]
    exact List.sum_eq_zero fun x hx => by
      obtain ⟨e, -, rfl⟩ := List.mem_map.mp hx
      exact massAt_of_components hij
  · simp only [hsum]
    clear hs' hvalue hsum
    induction es with
    | nil => simp
    | cons e es ih =>
        simp only [List.map_cons, List.sum_cons, sum_add_distrib]
        rw [ih fun e' he' => hes e' (List.mem_cons_of_mem e he'),
          sum_massAt (hes e List.mem_cons_self).1.fits.nodes, mul_add]

/-! ### Two nodes with two components -/

lemma twoNodes_cumulative : Cumulative 0 0 [⟨0, 2, 0, 0⟩] :=
  ⟨le_rfl, Nat.zero_le 2, rfl, trivial⟩

def twoNodesDomain (DOFs : ℕ) : Domain where
  DOFs := DOFs
  intervals := [⟨0, 2, 0, 0⟩]
  nonempty := List.cons_ne_nil _ _
  cumulative := twoNodes_cumulative

def edgeMass : Contribution where
  nodes := [0, 1]
  Ke := ⟨0, 0, fun _ _ => 0⟩
  Me := ⟨2, 2, fun r c => if r = c then 2 else 1⟩
  Re := ⟨0, 0, fun _ _ => 0⟩
  fe := ⟨0, 0, fun _ _ => 0⟩

def onlyMass : Matrices := ⟨false, true, false, false⟩

def emptyAssembly (DOFs : ℕ) : Assembly :=
  ⟨.empty, .resize (twoNodesDomain DOFs).domainDOFCount (twoNodesDomain DOFs).domainDOFCount, [],
    []⟩

lemma edgeMass_hasMass (DOFs : ℕ) : edgeMass.HasMass (twoNodesDomain DOFs) onlyMass where
  fits :=
    { nodes := fun _ hn => hn
      Ke := Or.inr ⟨rfl, rfl⟩
      Me := Or.inl ⟨rfl, 2, Nat.two_pos, ⟨rfl, rfl⟩, by
        rw [length_dofs]
        exact Nat.dvd_mul_left 2 _⟩
      Re := Or.inr ⟨rfl, rfl⟩
      fe := Or.inr ⟨rfl, rfl⟩ }
  nodup := by decide
  sized := ⟨rfl, rfl⟩

lemma allocated_onlyMass (DOFs : ℕ) :
    (emptyAssembly DOFs).Allocated (twoNodesDomain DOFs) onlyMass :=
  ⟨fun h => absurd h Bool.false_ne_true, fun h => absurd h Bool.false_ne_true⟩

lemma edgeMass_not_scalar : ¬edgeMass.Scalar (twoNodesDomain 2) := by
  rintro (h | ⟨x, hx⟩)
  · exact absurd h (by decide)
  · have h01 := hx 0 Nat.two_pos 1 Nat.one_lt_two
    exact one_ne_zero h01

/-- **With two components** the masses are inserted at other positions. -/
theorem mass_misplaced : ¬∃ s', insertContribution (twoNodesDomain 2) 1 false (emptyAssembly 2)
      edgeMass = some s' ∧
    ∀ i j, s'.M.value i j = (emptyAssembly 2).M.value i j
      + (twoNodesDomain 2).massAt edgeMass.nodes edgeMass.Me i j := by
  rw [adds_mass_iff (edgeMass_hasMass 2) (allocated_onlyMass 2)
    (SparseVVPMatrix.square_resize _) false]
  exact edgeMass_not_scalar

/-- With one component they are inserted as they should be. -/
theorem mass_inserted_iff_edge : ∃ s', insertContribution (twoNodesDomain 1) 1 false
      (emptyAssembly 1) edgeMass = some s' ∧
    ∀ i j, s'.M.value i j = (emptyAssembly 1).M.value i j
      + (twoNodesDomain 1).massAt edgeMass.nodes edgeMass.Me i j :=
  ((mass_inserted_iff (twoNodesDomain 1) 1 onlyMass false).1 edgeMass (edgeMass_hasMass 1)
    (emptyAssembly 1) (allocated_onlyMass 1) (SparseVVPMatrix.square_resize _)).mpr
    (Or.inl le_rfl)

end Elements

end Espreso.Assembling
