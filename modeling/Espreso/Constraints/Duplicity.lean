import Espreso.Constraints.Scaling

/-!
# Weights of the rows

With scaling, `B1DuplicityUpdate` writes a weight for every entry of the gluing rows. It finds the
place of the first one in `_domainDirichletSize`, a member that `B1DirichletInsert` refreshes only
if there is a Dirichlet row on some rank, and that nothing clears.

* `System.weight`, `System.Scaled` — what the weights have to be.
* **`scaledInterval_eq`** — the weights that the loops compute.
* **`Ready.update`** — an update on arrays with the right start leaves the right weights.
* **`assembledFrom_ready`**, **`assembledFrom_fails`** — the start after an assembly is right,
  unless no rank has a Dirichlet row and the member still holds an older number.
-/

namespace Espreso

open Layout

/-! ## Writing the weights -/

lemma storeFrom_eq : ∀ (values : List ℚ) (k : ℕ) (array : List ℚ),
    k + values.length ≤ array.length →
    storeFrom values k array = some (array.take k ++ values ++ array.drop (k + values.length)) := by
  intro values
  induction values with
  | nil => intro k array _; simp [storeFrom]
  | cons v values ih =>
      intro k array h
      rw [List.length_cons] at h
      have hlt : k < array.length := by omega
      have htake : (array.set k v).take (k + 1) = array.take k ++ [v] := by
        rw [List.take_succ_eq_append_getElem (by simpa using hlt), List.getElem_set_self,
          List.take_set_of_le (le_refl k)]
      have hdrop : (array.set k v).drop (k + 1 + values.length)
          = array.drop (k + (v :: values).length) := by
        rw [List.drop_set_of_lt (by omega), List.length_cons, Nat.add_assoc, Nat.add_comm 1]
      rw [storeFrom, if_pos hlt, ih (k + 1) _ (by rw [List.length_set]; omega), htake, hdrop]
      simp

lemma storeFrom_eq_none : ∀ (values : List ℚ) (k : ℕ) (array : List ℚ), values ≠ [] →
    array.length < k + values.length → storeFrom values k array = none := by
  intro values
  induction values with
  | nil => exact fun _ _ h => absurd rfl h
  | cons v values ih =>
      intro k array _ h
      rw [List.length_cons] at h
      rw [storeFrom]
      by_cases hlt : k < array.length
      · rw [if_pos hlt]
        refine ih (k + 1) _ (fun hnil => ?_) (by rw [List.length_set]; omega)
        rw [hnil, List.length_nil] at h
        omega
      · exact if_neg hlt

namespace System

variable (sys : System) (K : ℕ → ℕ → ℚ)

def partner (d : ℕ) (m : Multiplier) : ℕ :=
  if sys.domainAt m.1 m.2.2.1 = d then sys.domainAt m.1 m.2.2.2 else sys.domainAt m.1 m.2.2.1

/-- **The weight of a gluing row** in domain `d`: the diagonal entry of the other domain over the
sum of the diagonal entries of all domains of the node. -/
def weight (d : ℕ) (m : Multiplier) : ℚ :=
  sys.diagonal K (sys.partner d m) m.1 m.2.1
    / ((sys.interval m.1).domains.map fun e => sys.diagonal K e m.1 m.2.1).sum

/-- Interval `g` as domain `d` holds it, with the diagonals of all its domains. -/
def scaled (d g : ℕ) : GluingInterval (ConstrainedInterval × (ℕ → ℚ)) :=
  ⟨(sys.constrained true (sys.rankOf d) g, sys.diagonals K g), sys.dofOffset d g,
    lowerBound (sys.interval g).domains d, sys.ndomains g⟩

variable {sys K}

lemma partner_eq {d g p : ℕ} {x : ℕ × ℕ} (hd : d ∈ (sys.interval g).domains)
    (hp : p ∈ gluePartners true (sys.ndomains g) (lowerBound (sys.interval g).domains d)) :
    sys.partner d (g, x, (min (lowerBound (sys.interval g).domains d) p,
      max (lowerBound (sys.interval g).domains d) p)) = sys.domainAt g p := by
  obtain ⟨hδ, hat⟩ := domainAt_lowerBound hd
  obtain ⟨hpn, hne, -⟩ := (mem_gluePartners hδ).mp hp
  rcases lt_or_gt_of_ne hne with h | h
  · have hother : sys.domainAt g p ≠ d := fun heq =>
      hne (domainAt_inj hpn hδ (heq.trans hat.symm))
    simp only [partner, min_eq_right (le_of_lt h), if_neg hother]
  · simp only [partner, min_eq_left (le_of_lt h), max_eq_right (le_of_lt h), if_pos hat]

lemma sum_diagonals {g : ℕ} {x : ℕ × ℕ} (hn : 1 < sys.ndomains g) (hdof : x.1 < sys.DOFs)
    (hnode : x.2 < (sys.interval g).size) :
    ((List.range (sys.ndomains g)).map fun i =>
        sys.diagonals K g (place sys.DOFs (sys.ndomains g) x i)).sum
      = ((sys.interval g).domains.map fun e => sys.diagonal K e g x).sum := by
  have hdomains : (sys.interval g).domains
      = (List.range (sys.ndomains g)).map (sys.domainAt g) := by
    refine List.ext_getElem (by simp [ndomains]) fun i hi _ => ?_
    rw [List.getElem_map, List.getElem_range]
    exact (List.getElem?_eq_some_iff.mp (getElem?_domainAt hi)).2
  conv_rhs => rw [hdomains, List.map_map]
  congr 1
  exact List.map_congr_left fun i hi => diagonals_eq hn (List.mem_range.mp hi) hdof hnode

lemma scaledNode_eq {d g : ℕ} {x : ℕ × ℕ} (hd : d ∈ (sys.interval g).domains)
    (hn : 1 < sys.ndomains g) (hdof : x.1 < sys.DOFs) (hnode : x.2 < (sys.interval g).size) :
    scaledNode sys.DOFs (sys.scaled K d g) x.1 (sys.nodeOffset (sys.rankOf d) g + x.2)
      = (gluePartners true (sys.ndomains g) (lowerBound (sys.interval g).domains d)).map fun p =>
          sys.weight K d (g, x, (min (lowerBound (sys.interval g).domains d) p,
            max (lowerBound (sys.interval g).domains d) p)) := by
  obtain ⟨hδ, -⟩ := domainAt_lowerBound hd
  have hk : sys.nodeOffset (sys.rankOf d) g + x.2
      - (sys.scaled K d g).interval.1.pinterval.begin' = x.2 := Nat.add_sub_cancel_left _ _
  have hpartners : gluePartners true (sys.ndomains g) (lowerBound (sys.interval g).domains d)
      = List.range (lowerBound (sys.interval g).domains d)
        ++ List.range' (lowerBound (sys.interval g).domains d + 1)
          (sys.ndomains g - (lowerBound (sys.interval g).domains d + 1)) := rfl
  have hweight : ∀ p ∈ gluePartners true (sys.ndomains g) (lowerBound (sys.interval g).domains d),
      sys.diagonals K g (place sys.DOFs (sys.ndomains g) x p)
        / ((List.range (sys.ndomains g)).map fun i =>
          sys.diagonals K g (place sys.DOFs (sys.ndomains g) x i)).sum
      = sys.weight K d (g, x, (min (lowerBound (sys.interval g).domains d) p,
            max (lowerBound (sys.interval g).domains d) p)) := by
    intro p hp
    rw [weight, partner_eq hd hp, sum_diagonals hn hdof hnode,
      diagonals_eq hn ((mem_gluePartners hδ).mp hp).1 hdof hnode]
  rw [← List.map_congr_left hweight, hpartners, List.map_append, scaledNode, hk]
  rfl

lemma scaledglue_eq {d g dof b e : ℕ} (hd : d ∈ (sys.interval g).domains)
    (hn : 1 < sys.ndomains g) (hdof : dof < sys.DOFs) (he : e ≤ (sys.interval g).size) :
    scaledglue sys.DOFs (sys.scaled K d g) (sys.nodeOffset (sys.rankOf d) g + b)
        (sys.nodeOffset (sys.rankOf d) g + e) dof
      = (List.range' b (e - b)).flatMap fun k =>
        (gluePartners true (sys.ndomains g) (lowerBound (sys.interval g).domains d)).map fun p =>
          sys.weight K d (g, (dof, k), (min (lowerBound (sys.interval g).domains d) p,
            max (lowerBound (sys.interval g).domains d) p)) := by
  have hshift : List.range' (sys.nodeOffset (sys.rankOf d) g + b) (e - b)
      = (List.range' b (e - b)).map (sys.nodeOffset (sys.rankOf d) g + ·) := by
    rw [List.map_add_range']
  rw [scaledglue, show sys.nodeOffset (sys.rankOf d) g + e - (sys.nodeOffset (sys.rankOf d) g + b)
    = e - b by omega, hshift, List.flatMap_map]
  refine List.flatMap_congr fun k hk => ?_
  obtain ⟨hbk, hke⟩ := List.mem_range'_1.mp hk
  exact scaledNode_eq (x := (dof, k)) hd hn hdof (by simp only; omega)

lemma scaledBetween_eq {d g dof : ℕ} (hd : d ∈ (sys.interval g).domains)
    (hn : 1 < sys.ndomains g) (hdof : dof < sys.DOFs) :
    ∀ (ends : List ℕ) (c : ℕ), ends.Pairwise (· < ·) →
      (∀ e ∈ ends, c ≤ e ∧ e < (sys.interval g).size) →
      scaledBetween sys.DOFs (sys.scaled K d g) dof
          (ends.map (sys.nodeOffset (sys.rankOf d) g + ·)) (sys.nodeOffset (sys.rankOf d) g + c)
        = ((List.range' c ((sys.interval g).size - c)).filter fun k => k ∉ ends).flatMap fun k =>
          (gluePartners true (sys.ndomains g) (lowerBound (sys.interval g).domains d)).map fun p =>
            sys.weight K d (g, (dof, k), (min (lowerBound (sys.interval g).domains d) p,
              max (lowerBound (sys.interval g).domains d) p)) := by
  intro ends
  induction ends with
  | nil =>
      intro c _ _
      have hall : (List.range' c ((sys.interval g).size - c)).filter (fun k => k ∉ ([] : List ℕ))
          = List.range' c ((sys.interval g).size - c) := List.filter_eq_self.mpr fun k _ => by simp
      rw [hall, List.map_nil, scaledBetween]
      exact scaledglue_eq hd hn hdof (le_refl _)
  | cons e ends ih =>
      intro c hsorted hbounds
      obtain ⟨hlt, hsorted⟩ := List.pairwise_cons.mp hsorted
      obtain ⟨hce, hen⟩ := hbounds e (by simp)
      rw [filter_cut hce hen hlt, List.flatMap_append, List.map_cons, scaledBetween,
        scaledglue_eq hd hn hdof (le_of_lt hen)]
      congr 1
      exact ih (e + 1) hsorted fun x hx => ⟨hlt x hx, (hbounds x (by simp [hx])).2⟩

/-- **The weights of one interval**, in the order of the rows. -/
theorem scaledInterval_eq {d g : ℕ} (hd : d ∈ (sys.interval g).domains) :
    scaledInterval sys.DOFs (sys.scaled K d g)
      = (sys.intervalMultipliers true d g).map (sys.weight K d) := by
  by_cases hn : 1 < sys.ndomains g
  swap
  · -- a domain alone has no partners
    have hone : sys.ndomains g = 1 := by
      have := ndomains_pos sys g
      omega
    have hδ : lowerBound (sys.interval g).domains d = 0 := by
      have := (domainAt_lowerBound hd).1
      omega
    have hpartners : gluePartners true (sys.ndomains g) (lowerBound (sys.interval g).domains d)
        = [] := by
      rw [hone, hδ]
      rfl
    have hnone : sys.intervalMultipliers true d g = [] := by
      simp [intervalMultipliers, hpartners]
    rw [scaledInterval, hnone, List.map_nil]
    exact if_neg hn
  have hdofs : ∀ dof ∈ List.range sys.DOFs,
      scaledBetween sys.DOFs (sys.scaled K d g) dof
          (intervalDirichletNodes (sys.scaled K d g).interval.1.pinterval dof)
          (sys.scaled K d g).interval.1.pinterval.begin'
        = ((sys.gluedNodes true g dof).map (dof, ·)).flatMap fun x =>
          (gluePartners true (sys.ndomains g) (lowerBound (sys.interval g).domains d)).map fun p =>
            sys.weight K d (g, x, (min (lowerBound (sys.interval g).domains d) p,
              max (lowerBound (sys.interval g).domains d) p)) := by
    intro dof hdof
    have hcut : intervalDirichletNodes (sys.scaled K d g).interval.1.pinterval dof
        = (sys.dirichlet g dof).map (sys.nodeOffset (sys.rankOf d) g + ·) :=
      intervalDirichletNodes_view _ _ _
    have hnodes : (List.range' 0 ((sys.interval g).size - 0)).filter
        (fun k => k ∉ sys.dirichlet g dof) = sys.gluedNodes true g dof := by
      simp [gluedNodes, List.range_eq_range']
    rw [hcut, List.flatMap_map, ← hnodes]
    exact scaledBetween_eq hd hn (List.mem_range.mp hdof) _ 0 (dirichlet_sorted g dof)
      fun e he => ⟨Nat.zero_le e, dirichlet_lt he⟩
  have hrows : (sys.intervalMultipliers true d g).map (sys.weight K d)
      = (List.range sys.DOFs).flatMap fun dof =>
        ((sys.gluedNodes true g dof).map (dof, ·)).flatMap fun x =>
          (gluePartners true (sys.ndomains g) (lowerBound (sys.interval g).domains d)).map fun p =>
            sys.weight K d (g, x, (min (lowerBound (sys.interval g).domains d) p,
              max (lowerBound (sys.interval g).domains d) p)) := by
    simp only [intervalMultipliers, gluedDOFs, List.map_flatMap, List.flatMap_assoc, List.map_map]
    rfl
  rw [hrows, ← List.flatMap_congr hdofs, scaledInterval]
  exact if_pos hn

lemma gintervals_scaled {r d : ℕ} (hr : r < sys.ranks) (hd : d < (sys.mesh r).ndomains) :
    gintervals (fun i : ConstrainedInterval × (ℕ → ℚ) => i.1.pinterval)
        (sys.distribution.border r + d) 0
        ((sys.constraints true r).intervals.zip ((sys.ids r).map (sys.diagonals K)))
      = (sys.domainIds (sys.distribution.border r + d)).map
        (sys.scaled K (sys.distribution.border r + d)) := by
  have hrank := rankOf_local hr hd
  have h := gintervals_eq sys (fun i : ConstrainedInterval × (ℕ → ℚ) => i.1.pinterval)
    (fun g => (sys.constrained true r g, sys.diagonals K g)) (sys.distribution.border r + d)
    fun g => by rw [hrank]; rfl
  rw [hrank] at h
  rw [constraints, List.zip_map', h]
  refine List.map_congr_left fun g _ => ?_
  rw [scaled, hrank]
  rfl

/-! ## The arrays of a rank -/

variable (sys K)

def Sendable : Prop :=
  ∀ r < sys.ranks, ∀ q ∈ sys.neighbours r,
    (sys.message (fun _ _ => 0) r q (List.range sys.count)).length ≤ limit

/-- The entries of a domain: first the Dirichlet rows, then the gluing rows. -/
def domainEntries (d : ℕ) : List Entry :=
  (sys.domainConditions true d).map (sys.conditionEntry (sys.dirichletRow true) d)
    ++ (sys.domainMultipliers true d).map (sys.entry (sys.gluingRow true) d)

/-- The arrays of rank `r` hold the rows, and `B1duplicity` has an entry for each of them: `1` for a
Dirichlet row. Where a domain has gluing rows, `_domainDirichletSize` is the number of its Dirichlet
rows. -/
structure Ready (r : ℕ) (i : Instance) : Prop where
  grows : ∀ d < (sys.mesh r).ndomains, DomainInstance.clear.Grows (i.domains d)
    (sys.domainEntries (sys.distribution.border r + d))
  duplicity : ∀ d < (sys.mesh r).ndomains, ∃ weights : List ℚ,
    weights.length = (sys.domainMultipliers true (sys.distribution.border r + d)).length ∧
    (i.domains d).B1duplicity
      = ((sys.domainConditions true (sys.distribution.border r + d)).map fun _ => 1) ++ weights
  size : ∀ d < (sys.mesh r).ndomains,
    sys.domainMultipliers true (sys.distribution.border r + d) ≠ [] →
    (i.domains d).domainDirichletSize
      = (sys.domainConditions true (sys.distribution.border r + d)).length

/-- **The right weights.**  `B1` holds the entries of the rows of each domain of rank `r`, and
`B1duplicity` holds in the same order `1` for the Dirichlet rows and the weights of the gluing
rows. -/
def Scaled (r : ℕ) (i : Instance) : Prop :=
  ∀ d < (sys.mesh r).ndomains,
    DomainInstance.clear.Grows (i.domains d)
      (sys.domainEntries (sys.distribution.border r + d)) ∧
    (i.domains d).B1duplicity
      = ((sys.domainConditions true (sys.distribution.border r + d)).map fun _ => 1)
        ++ (sys.domainMultipliers true (sys.distribution.border r + d)).map
          (sys.weight K (sys.distribution.border r + d))

variable {sys K}

lemma length_message (K' : ℕ → ℕ → ℚ) (r q : ℕ) (l : List ℕ) :
    (sys.message K r q l).length = (sys.message K' r q l).length := by
  simp [message, heldBlocks, block, List.length_flatMap]

lemma exchange_eq (K : ℕ → ℕ → ℚ) (hfit : sys.Sendable) :
    (∀ r < sys.ranks, (sent sys.DOFs (sys.mesh r)
      fun d => K (sys.distribution.border r + d)).isSome) ∧
    ∃ rBuffer, exchangeUnknownSize sys.ranks 1 (fun r => (sys.mesh r).neighbours)
        (fun r => (sent sys.DOFs (sys.mesh r) fun d => K (sys.distribution.border r + d)).getD
          fun _ => []) = some rBuffer ∧
      ∀ r < sys.ranks, ∀ q ∈ sys.neighbours r,
        rBuffer r (n2i (sys.neighbours r) q) = sys.message K q r (List.range sys.count) := by
  have hsent : ∀ r < sys.ranks, ∀ q ∈ sys.neighbours r,
      (sent sys.DOFs (sys.mesh r) fun d => K (sys.distribution.border r + d)).getD (fun _ => [])
        (n2i (sys.neighbours r) q) = sys.message K r q (List.range sys.count) := by
    intro r hr q hq
    obtain ⟨sBuffer, hsome, hmessage⟩ := sent_eq (K := K) hr
    rw [hsome, Option.getD_some, hmessage q hq]
  refine ⟨fun r hr => ?_, _, if_pos fun r hr n hn => ?_, fun r hr q hq => ?_⟩
  · obtain ⟨sBuffer, hsome, -⟩ := sent_eq (K := K) hr
    rw [hsome]
    rfl
  · obtain ⟨hmem, hidx⟩ := getD_neighbours (sys.neighbours_sorted r) hn
    have h := hsent r hr _ hmem
    rw [hidx] at h
    dsimp only
    rw [Nat.one_mul, h, length_message (fun _ _ => 0)]
    exact hfit r hr _ hmem
  · have hget : (sys.neighbours r).getD (n2i (sys.neighbours r) q) 0 = q := by
      rw [List.getD_eq_getElem?_getD, n2i, (lowerBound_mem (sys.neighbours_sorted r)).mpr hq,
        Option.getD_some]
    have hsource : (sys.mesh r).neighbours.getD (n2i (sys.neighbours r) q) 0 = q := hget
    simp only [hsource]
    exact hsent q (sys.neighbours_lt r q hq) r (sys.neighbours_symm r q hq)

/-- The weights that `B1DuplicityUpdate` writes for a domain of the rank. -/
def storedWeights (sys : System) (K : ℕ → ℕ → ℚ) (r : ℕ) (inst : Instance) (d : ℕ) :
    Option (List ℚ) :=
  storeFrom ((sys.domainMultipliers true (sys.distribution.border r + d)).map
      (sys.weight K (sys.distribution.border r + d)))
    (inst.domains d).domainDirichletSize (inst.domains d).B1duplicity

/-- **`B1DuplicityUpdate`** in closed form. -/
theorem B1DuplicityUpdate_eq (harr : sys.Arranged) (hfit : sys.Sendable) {r : ℕ}
    (hr : r < sys.ranks) (inst : Instance) :
    B1DuplicityUpdate sys.mesh sys.ranks sys.DOFs K r (sys.constraints true r) inst
      = if ∀ d < (sys.mesh r).ndomains, (sys.storedWeights K r inst d).isSome then
          some { inst with
            domains := fun d => if d < (sys.mesh r).ndomains
              then { inst.domains d with B1duplicity := (sys.storedWeights K r inst d).getD [] }
              else inst.domains d }
        else none := by
  obtain ⟨hsome, rBuffer, hexchange, hreceived⟩ := exchange_eq K hfit
  have hfill := fillIntervals_eq (K := K) harr hr (hreceived r hr) sys.count 0
    ⟨fun _ => 0, fun _ => 0⟩ (by omega)
    ⟨fun d _ => by simp, fun q _ => by simp [message, heldBlocks]⟩
  rw [← List.range_eq_range'] at hfill
  change fillIntervals _ _ _ _ ((sys.ids r).map _) _ = some ((sys.ids r).map _) at hfill
  rw [← pintervals_eq] at hfill
  have hstored : ∀ d < (sys.mesh r).ndomains, storeFrom ((gintervals
        (fun i : ConstrainedInterval × (ℕ → ℚ) => i.1.pinterval) (sys.distribution.border r + d) 0
        ((sys.constraints true r).intervals.zip ((sys.ids r).map (sys.diagonals K)))).flatMap
          (scaledInterval sys.DOFs)) (inst.domains d).domainDirichletSize
          (inst.domains d).B1duplicity = sys.storedWeights K r inst d := by
    intro d hd
    rw [gintervals_scaled hr hd, List.flatMap_map, storedWeights, domainMultipliers,
      List.map_flatMap]
    congr 1
    exact List.flatMap_congr fun g hg => scaledInterval_eq (mem_domainIds.mp hg).2
  refine (if_pos hsome).trans ((congrArg (Option.bind · _) hexchange).trans
    ((congrArg (Option.bind · _) hfill).trans ?_))
  rw [Option.bind_some]
  by_cases hall : ∀ d < (sys.mesh r).ndomains, (sys.storedWeights K r inst d).isSome
  · rw [if_pos hall]
    refine (if_pos fun d hd => (congrArg Option.isSome (hstored d hd)).trans (hall d hd)).trans ?_
    congr 2
    funext d
    by_cases hd : d < (sys.mesh r).ndomains
    · rw [if_pos hd, if_pos hd, ← hstored d hd]
      rfl
    · rw [if_neg hd, if_neg hd]
  · rw [if_neg hall]
    exact if_neg fun h => hall fun d hd =>
      (congrArg Option.isSome (hstored d hd)).symm.trans (h d hd)

/-- **An update** on ready arrays leaves the right weights, and ready arrays. -/
theorem Ready.update (harr : sys.Arranged) (hfit : sys.Sendable) {r : ℕ} (hr : r < sys.ranks)
    {i : Instance} (h : sys.Ready r i) (K : ℕ → ℕ → ℚ) :
    ∃ i', B1DuplicityUpdate sys.mesh sys.ranks sys.DOFs K r (sys.constraints true r) i = some i' ∧
      sys.Scaled K r i' ∧ sys.Ready r i' := by
  have hstored : ∀ d < (sys.mesh r).ndomains, sys.storedWeights K r i d
      = some (((sys.domainConditions true (sys.distribution.border r + d)).map fun _ => 1)
        ++ (sys.domainMultipliers true (sys.distribution.border r + d)).map
          (sys.weight K (sys.distribution.border r + d))) := by
    intro d hd
    obtain ⟨weights, hlength, hduplicity⟩ := h.duplicity d hd
    rw [storedWeights, hduplicity]
    by_cases hnone : sys.domainMultipliers true (sys.distribution.border r + d) = []
    · have hweights : weights = [] := List.eq_nil_of_length_eq_zero (by rw [hlength, hnone]; rfl)
      rw [hnone, hweights, List.map_nil, storeFrom]
    · have hsize : (i.domains d).domainDirichletSize
          = ((sys.domainConditions true (sys.distribution.border r + d)).map
            fun _ => (1 : ℚ)).length := by
        rw [h.size d hd hnone, List.length_map]
      rw [hsize, storeFrom_eq _ _ _ (by simp [hlength]), List.take_left,
        List.drop_eq_nil_of_le (by simp [hlength]), List.append_nil]
  refine ⟨_, (B1DuplicityUpdate_eq harr hfit hr i).trans (if_pos fun d hd => ?_), fun d hd => ?_,
    ⟨fun d hd => ?_, fun d hd => ?_, fun d hd hne => ?_⟩⟩
  · rw [hstored d hd]
    rfl
  · have hg := h.grows d hd
    simp only [if_pos hd, hstored d hd, Option.getD_some, and_true]
    exact ⟨hg.rows, hg.cols, hg.values⟩
  · have hg := h.grows d hd
    simp only [if_pos hd]
    exact ⟨hg.rows, hg.cols, hg.values⟩
  · simp only [if_pos hd, hstored d hd, Option.getD_some]
    exact ⟨_, List.length_map _, rfl⟩
  · simp only [if_pos hd]
    exact h.size d hd hne

/-- **An update** that starts too far behind writes outside of the array. -/
theorem B1DuplicityUpdate_eq_none (harr : sys.Arranged) (hfit : sys.Sendable) {r d : ℕ}
    (hr : r < sys.ranks) (hd : d < (sys.mesh r).ndomains) {i : Instance} (K : ℕ → ℕ → ℚ)
    (hne : sys.domainMultipliers true (sys.distribution.border r + d) ≠ [])
    (hbehind : (i.domains d).B1duplicity.length < (i.domains d).domainDirichletSize
      + (sys.domainMultipliers true (sys.distribution.border r + d)).length) :
    B1DuplicityUpdate sys.mesh sys.ranks sys.DOFs K r (sys.constraints true r) i = none := by
  rw [B1DuplicityUpdate_eq harr hfit hr]
  refine if_neg fun hall => ?_
  have hsome := hall d hd
  rw [storedWeights, storeFrom_eq_none _ _ _ (fun hnil => hne (List.map_eq_nil_iff.mp hnil))
    (by rw [List.length_map]; exact hbehind)] at hsome
  exact absurd hsome (by simp)

end System

/-! ## Assembling the rows -/

/-- The arrays of a rank as `updateGluingMatrices` clears them.  `_domainDirichletSize` is a member
of `Constraints`, and stays. -/
def Instance.resetB1 (inst : Instance) : Instance where
  domains d :=
    { DomainInstance.clear with domainDirichletSize := (inst.domains d).domainDirichletSize }
  B1clustersMap := []
  blockDirichlet := 0
  blockEqualityConstraints := 0

/-- Every entry of the arrays so far has the weight `1`. -/
def DomainInstance.Ones (i : DomainInstance) : Prop :=
  i.B1duplicity = List.replicate i.I_row_indices.length 1

def Piece.Weighted (p : Piece) : Prop := p.B1duplicity.length = p.I_row_indices.length

lemma Piece.Weighted.append {p q : Piece} (hp : p.Weighted) (hq : q.Weighted) :
    (p ++ q).Weighted := by
  have hd : (p ++ q).B1duplicity = p.B1duplicity ++ q.B1duplicity := rfl
  have hi : (p ++ q).I_row_indices = p.I_row_indices ++ q.I_row_indices := rfl
  rw [Piece.Weighted, hd, hi, List.length_append, List.length_append, hp, hq]

section Weights

variable (DOFs : ℕ)

lemma DomainInstance.Ones.insertDOFs (redundant : Bool) (dirichletSize : ℕ)
    (interval : GluingInterval ConstrainedInterval) : ∀ (dofs : List ℕ) (LMoffset : ℕ)
    {i : DomainInstance}, i.Ones →
      (insertDOFs DOFs redundant dirichletSize interval dofs LMoffset i).Ones := by
  intro dofs
  induction dofs with
  | nil => exact fun _ _ h => h
  | cons dof dofs ih =>
      intro LMoffset i h
      rw [Espreso.insertDOFs]
      split_ifs
      · refine ih _ ?_
        simp only [Ones, insertDOF, List.length_append, List.length_range', List.replicate_add]
        rw [h]
      · exact ih _ h

lemma DomainInstance.Ones.insertIntervals (redundant : Bool) (dirichletSize : ℕ) :
    ∀ (l : List (GluingInterval ConstrainedInterval)) {i : DomainInstance}, i.Ones →
      (l.foldl (fun i interval =>
        Espreso.insertDOFs DOFs redundant dirichletSize interval (List.range DOFs) 0 i) i).Ones := by
  intro l
  induction l with
  | nil => exact fun h => h
  | cons interval l ih => exact fun h => ih (h.insertDOFs DOFs redundant dirichletSize interval _ 0)

lemma insertDOFs_size (dirichletSize : ℕ) (interval : GluingInterval ConstrainedInterval) :
    ∀ (dofs : List ℕ) (LMoffset : ℕ) (i : DomainInstance),
      dofs ≠ [] ∨ i.domainDirichletSize = i.I_row_indices.length →
        (insertDOFs DOFs true dirichletSize interval dofs LMoffset i).domainDirichletSize
          = (insertDOFs DOFs true dirichletSize interval dofs LMoffset i).I_row_indices.length := by
  intro dofs
  induction dofs with
  | nil => exact fun _ _ hsize => hsize.resolve_left fun hne => hne rfl
  | cons dof dofs ih =>
      intro LMoffset i _
      rw [insertDOFs, if_pos (Or.inl rfl)]
      exact ih _ _ (Or.inr rfl)

lemma insertIntervals_size (hDOFs : 0 < DOFs) (dirichletSize : ℕ) :
    ∀ (l : List (GluingInterval ConstrainedInterval)) (i : DomainInstance),
      l ≠ [] ∨ i.domainDirichletSize = i.I_row_indices.length →
        (l.foldl (fun i interval => insertDOFs DOFs true dirichletSize interval
            (List.range DOFs) 0 i) i).domainDirichletSize
          = (l.foldl (fun i interval => insertDOFs DOFs true dirichletSize interval
            (List.range DOFs) 0 i) i).I_row_indices.length := by
  intro l
  induction l with
  | nil => exact fun _ hsize => hsize.resolve_left fun hne => hne rfl
  | cons interval l ih =>
      intro i _
      have hne : List.range DOFs ≠ [] := by
        rw [ne_eq, List.range_eq_nil]
        omega
      exact ih _ (Or.inr (insertDOFs_size DOFs dirichletSize interval _ 0 i (Or.inl hne)))

lemma redundantNodes_rows {interval : GluingInterval ConstrainedInterval}
    (hδ : interval.dindex < interval.ndomains) (dof : ℕ) : ∀ nodes LMindex DOFindex LMcounter : ℕ,
      (redundantNodes DOFs interval dof nodes LMindex DOFindex LMcounter).1.I_row_indices.length
          = nodes * (interval.ndomains - 1) ∧
        (redundantNodes DOFs interval dof nodes LMindex DOFindex LMcounter).1.B1duplicity = [] := by
  intro nodes
  induction nodes with
  | zero => exact fun _ _ _ => ⟨by simp [redundantNodes]; rfl, rfl⟩
  | succ nodes ih =>
      intro LMindex DOFindex LMcounter
      have hnode : (redundantNode DOFs interval dof LMindex DOFindex).1.I_row_indices.length
          = interval.ndomains - 1 := by
        rw [(redundantNode_holds DOFs interval dof LMindex DOFindex).rows]
        simp [redundantEntries, gluePartners]
        omega
      obtain ⟨h₁, h₂⟩ := ih (redundantNode DOFs interval dof LMindex DOFindex).2 (DOFindex + 1)
        (LMcounter + 1)
      rw [redundantNodes]
      refine ⟨?_, ?_⟩
      · refine (List.length_append).trans ?_
        rw [hnode, h₁, Nat.succ_mul]
        exact Nat.add_comm _ _
      · exact (congrArg ([] ++ ·) h₂)

lemma redundantglue_weighted {interval : GluingInterval ConstrainedInterval}
    (hδ : interval.dindex < interval.ndomains) (begin' end' LMcounter dof : ℕ) :
    (redundantglue DOFs interval begin' end' LMcounter dof).1.Weighted := by
  obtain ⟨h₁, h₂⟩ := redundantNodes_rows DOFs hδ dof (end' - begin')
    (interval.interval.intervalGluingOffset
      + LMcounter * (interval.ndomains * (interval.ndomains - 1) / 2))
    (interval.DOFOffset + (begin' - interval.interval.pinterval.begin')) LMcounter
  have hrows : (redundantglue DOFs interval begin' end' LMcounter dof).1.I_row_indices
      = (redundantNodes DOFs interval dof (end' - begin')
        (interval.interval.intervalGluingOffset
          + LMcounter * (interval.ndomains * (interval.ndomains - 1) / 2))
        (interval.DOFOffset + (begin' - interval.interval.pinterval.begin'))
        LMcounter).1.I_row_indices
        ++ [] := rfl
  have hweights : (redundantglue DOFs interval begin' end' LMcounter dof).1.B1duplicity
      = (redundantNodes DOFs interval dof (end' - begin')
        (interval.interval.intervalGluingOffset
          + LMcounter * (interval.ndomains * (interval.ndomains - 1) / 2))
        (interval.DOFOffset + (begin' - interval.interval.pinterval.begin'))
        LMcounter).1.B1duplicity
        ++ List.replicate ((end' - begin') * (interval.ndomains - 1))
        (1 / (interval.ndomains : ℚ)) :=
    rfl
  rw [Piece.Weighted, hrows, hweights, h₂, List.append_nil, List.nil_append, List.length_replicate,
    h₁]

lemma glueBetween_weighted {interval : GluingInterval ConstrainedInterval}
    (hδ : interval.dindex < interval.ndomains) (dof : ℕ) : ∀ (ends : List ℕ)
    (current LMcounter : ℕ),
      (glueBetween DOFs interval dof ends current LMcounter).1.Weighted := by
  intro ends
  induction ends with
  | nil => exact fun _ _ => redundantglue_weighted DOFs hδ _ _ _ _
  | cons e ends ih =>
      intro current LMcounter
      exact (redundantglue_weighted DOFs hδ _ _ _ _).append (ih _ _)

lemma glueInterval_weighted {interval : GluingInterval ConstrainedInterval}
    (hδ : interval.dindex < interval.ndomains) : ∀ (dofs : List ℕ) (LMcounter : ℕ),
      (glueInterval DOFs true interval dofs LMcounter).Weighted := by
  intro dofs
  induction dofs with
  | nil => exact fun _ => rfl
  | cons dof dofs ih =>
      intro LMcounter
      exact (glueBetween_weighted DOFs hδ _ _ _ _).append (ih _)

lemma foldr_weighted : ∀ l : List (GluingInterval ConstrainedInterval),
    (∀ i ∈ l, i.dindex < i.ndomains) →
      (l.foldr (fun i piece => glueInterval DOFs true i (List.range DOFs) 0 ++ piece)
        (∅ : Piece)).Weighted := by
  intro l
  induction l with
  | nil => exact fun _ => rfl
  | cons i l ih =>
      intro h
      exact (glueInterval_weighted DOFs (h i (by simp)) _ _).append
        (ih fun j hj => h j (by simp [hj]))

end Weights

namespace System

variable {sys : System} {K : ℕ → ℕ → ℚ}

/-- **The arrays after `B1DirichletInsert`** on cleared arrays: one weight for each entry.  The size
of the Dirichlet rows is up to date on a domain with intervals, unless no rank has a Dirichlet
row. -/
lemma B1DirichletInsert_resetB1 {r d : ℕ} (hr : r < sys.ranks) (hd : d < (sys.mesh r).ndomains)
    (reduction : ℚ) (inst : Instance) :
    let i := (B1DirichletInsert sys.DOFs true reduction (sys.mesh r) (sys.constraints true r)
      inst.resetB1).domains d
    let conds := sys.domainConditions true (sys.distribution.border r + d)
    DomainInstance.clear.Grows i (conds.map
        (sys.conditionEntry (sys.dirichletRow true) (sys.distribution.border r + d))) ∧
      i.B1duplicity = (conds.map fun _ => 1) ∧
      (sys.domainIds (sys.distribution.border r + d) ≠ [] → i.domainDirichletSize
        = if sys.dirichletSize true = 0 then (inst.domains d).domainDirichletSize
          else conds.length) := by
  intro i conds
  set domain := sys.distribution.border r + d with hdomain
  by_cases hzero : sys.dirichletSize true = 0
  · have hconds : conds = [] := List.eq_nil_iff_forall_not_mem.mpr fun m hm => by
      have h := (dirichletRow_bijOn sys true).mapsTo (mem_domainConditions.mp hm).1
      rw [hzero] at h
      have h₁ := h.1
      have h₂ := h.2
      omega
    have hi : i = inst.resetB1.domains d := by
      have hzero' : (sys.constraints true r).dirichletSize = 0 := hzero
      simp only [i, B1DirichletInsert, if_pos hzero']
    rw [hi, hconds, if_pos hzero]
    exact ⟨⟨rfl, rfl, rfl⟩, rfl, fun _ => rfl⟩
  · set cleared := inst.resetB1.domains d with hcleared
    set inserted := (sys.domainIds domain).foldl (fun inst g =>
      insertDOFs sys.DOFs true (sys.dirichletSize true) (sys.gluing true domain g)
        (List.range sys.DOFs) 0 inst) cleared with hinserted
    have hinserts : sys.Inserts (sys.insertedRow true) domain cleared inserted conds :=
      Inserts.foldl _ _ fun g _ inst => insertInterval_inserts domain g inst
    have hones := DomainInstance.Ones.insertIntervals sys.DOFs true (sys.dirichletSize true)
      ((sys.domainIds domain).map (sys.gluing true domain)) (show cleared.Ones from rfl)
    have hsize := insertIntervals_size sys.DOFs sys.DOFs_pos (sys.dirichletSize true)
      ((sys.domainIds domain).map (sys.gluing true domain)) cleared
    rw [List.foldl_map] at hones hsize
    have hrows : inserted.I_row_indices.length = conds.length := by
      rw [hinserts.grows.rows, List.length_append, List.length_map, List.length_map]
      exact Nat.zero_add _
    have hi : i.I_row_indices = inserted.I_row_indices ∧ i.J_col_indices = inserted.J_col_indices ∧
        i.V_values = inserted.V_values ∧ i.B1duplicity = inserted.B1duplicity ∧
        i.domainDirichletSize = inserted.domainDirichletSize := by
      have hg : gintervals ConstrainedInterval.pinterval ((sys.mesh r).firstDomain + d) 0
          (sys.constraints true r).intervals
          = (sys.domainIds domain).map (sys.gluing true domain) := gintervals_gluing hr hd
      have hzero' : (sys.constraints true r).dirichletSize ≠ 0 := hzero
      simp only [i, B1DirichletInsert, if_neg hzero', if_pos hd, hg, insertDomain, List.foldl_map]
      exact ⟨rfl, rfl, rfl, rfl, rfl⟩
    obtain ⟨hI, hJ, hV, hB, hS⟩ := hi
    refine ⟨⟨?_, ?_, ?_⟩, ?_, fun hne => ?_⟩
    · exact hI.trans hinserts.grows.rows
    · exact hJ.trans hinserts.grows.cols
    · exact hV.trans hinserts.grows.values
    · have hb : inserted.B1duplicity = List.replicate inserted.I_row_indices.length 1 := hones
      rw [hB, hb, hrows, List.map_const']
    · rw [hS, if_neg hzero, ← hrows]
      exact hsize (Or.inl fun hnil => hne (List.map_eq_nil_iff.mp hnil))

lemma B1GlueElements_duplicity {r d : ℕ} (hr : r < sys.ranks) (hd : d < (sys.mesh r).ndomains)
    (inst : Instance) :
    let i := (B1GlueElements sys.DOFs true (sys.mesh r) (sys.constraints true r) inst).domains d
    (∃ weights : List ℚ, weights.length
        = (sys.domainMultipliers true (sys.distribution.border r + d)).length ∧
      i.B1duplicity = (inst.domains d).B1duplicity ++ weights) ∧
    i.domainDirichletSize = (inst.domains d).domainDirichletSize := by
  intro i
  set domain := sys.distribution.border r + d with hdomain
  set l := (sys.domainIds domain).map (sys.gluing true domain) with hl
  have hi : i = glueDomain sys.DOFs true (sys.gluingSize true) l (inst.domains d) := by
    simp only [i, B1GlueElements, if_pos hd]
    rw [hl, ← gintervals_gluing hr hd]
    rfl
  have hweighted := foldr_weighted sys.DOFs l fun j hj => by
    obtain ⟨g, hg, rfl⟩ := List.mem_map.mp hj
    exact (domainAt_lowerBound (mem_domainIds.mp hg).2).1
  have hrows : (sys.domainMultipliers true domain).length
      = (l.foldr (fun i piece => glueInterval sys.DOFs true i (List.range sys.DOFs) 0 ++ piece)
        (∅ : Piece)).I_row_indices.length := by
    have hgrows := (B1GlueElements_grows true hr hd inst).rows
    have hcode : i.I_row_indices = (inst.domains d).I_row_indices
        ++ (l.foldr (fun i piece => glueInterval sys.DOFs true i (List.range sys.DOFs) 0 ++ piece)
          (∅ : Piece)).I_row_indices := by
      rw [hi]
      rfl
    have h := List.append_cancel_left (hcode.symm.trans hgrows)
    rw [h, List.length_map, List.length_map]
  rw [hi]
  exact ⟨⟨_, hweighted.trans hrows.symm, rfl⟩, rfl⟩

/-- The assembled rows of a rank, before the weights are scaled. -/
def assembledFrom (sys : System) (reduction : ℚ) (r : ℕ) (inst : Instance) : Instance :=
  B1GlueElements sys.DOFs true (sys.mesh r) (sys.constraints true r)
    (B1DirichletInsert sys.DOFs true reduction (sys.mesh r) (sys.constraints true r) inst.resetB1)

/-- The start of the gluing rows in a domain is right for the first update: if no rank has a
Dirichlet row, nothing refreshes it. -/
def Starts (sys : System) (r d : ℕ) (inst : Instance) : Prop :=
  sys.dirichletSize true = 0 →
    sys.domainMultipliers true (sys.distribution.border r + d) ≠ [] →
    (inst.domains d).domainDirichletSize = 0

lemma domainIds_ne_nil {d : ℕ} (h : sys.domainMultipliers true d ≠ []) : sys.domainIds d ≠ [] := by
  intro hnil
  rw [domainMultipliers, hnil] at h
  exact h rfl

lemma domainConditions_eq_nil (hzero : sys.dirichletSize true = 0) (d : ℕ) :
    sys.domainConditions true d = [] := by
  refine List.eq_nil_iff_forall_not_mem.mpr fun m hm => ?_
  obtain ⟨h₁, h₂⟩ := (dirichletRow_bijOn sys true).mapsTo (mem_domainConditions.mp hm).1
  omega

/-- **The assembled rows** of a rank are ready for the weights if every domain starts right. -/
lemma assembledFrom_ready {r : ℕ} (hr : r < sys.ranks) (reduction : ℚ) {inst : Instance}
    (hstart : ∀ d < (sys.mesh r).ndomains, sys.Starts r d inst) :
    sys.Ready r (sys.assembledFrom reduction r inst) where
  grows d hd := by
    obtain ⟨hinserted, -, -⟩ := B1DirichletInsert_resetB1 hr hd reduction inst
    have hglued := B1GlueElements_grows true hr hd
      (B1DirichletInsert sys.DOFs true reduction (sys.mesh r) (sys.constraints true r) inst.resetB1)
    rw [generatedRow_redundant] at hglued
    exact ⟨by rw [assembledFrom, hglued.rows, hinserted.rows]; simp [domainEntries],
      by rw [assembledFrom, hglued.cols, hinserted.cols]; simp [domainEntries],
      by rw [assembledFrom, hglued.values, hinserted.values]; simp [domainEntries]⟩
  duplicity d hd := by
    obtain ⟨-, hones, -⟩ := B1DirichletInsert_resetB1 hr hd reduction inst
    obtain ⟨⟨weights, hlength, hweights⟩, -⟩ := B1GlueElements_duplicity hr hd
      (B1DirichletInsert sys.DOFs true reduction (sys.mesh r) (sys.constraints true r) inst.resetB1)
    exact ⟨weights, hlength, by rw [assembledFrom, hweights, hones]⟩
  size d hd hne := by
    obtain ⟨-, -, hsize⟩ := B1DirichletInsert_resetB1 hr hd reduction inst
    obtain ⟨-, hglued⟩ := B1GlueElements_duplicity hr hd
      (B1DirichletInsert sys.DOFs true reduction (sys.mesh r) (sys.constraints true r) inst.resetB1)
    rw [assembledFrom, hglued, hsize (domainIds_ne_nil hne)]
    by_cases hzero : sys.dirichletSize true = 0
    · rw [if_pos hzero, domainConditions_eq_nil hzero, hstart d hd hzero hne]
      rfl
    · rw [if_neg hzero]

lemma assembledFrom_fails (harr : sys.Arranged) (hfit : sys.Sendable) {r d : ℕ}
    (hr : r < sys.ranks) (hd : d < (sys.mesh r).ndomains) (reduction : ℚ) {inst : Instance}
    (K : ℕ → ℕ → ℚ) (hstart : ¬sys.Starts r d inst) :
    B1DuplicityUpdate sys.mesh sys.ranks sys.DOFs K r (sys.constraints true r)
      (sys.assembledFrom reduction r inst) = none := by
  simp only [Starts, Classical.not_imp] at hstart
  obtain ⟨hzero, hne, hstale⟩ := hstart
  obtain ⟨-, hones, hsize⟩ := B1DirichletInsert_resetB1 hr hd reduction inst
  obtain ⟨⟨weights, hlength, hweights⟩, hglued⟩ := B1GlueElements_duplicity hr hd
    (B1DirichletInsert sys.DOFs true reduction (sys.mesh r) (sys.constraints true r) inst.resetB1)
  refine B1DuplicityUpdate_eq_none harr hfit hr hd K hne ?_
  rw [assembledFrom, hweights, hones, hglued, hsize (domainIds_ne_nil hne), if_pos hzero,
    domainConditions_eq_nil hzero, List.map_nil, List.nil_append, hlength]
  omega

end System

end Espreso
