import Espreso.Constraints.GlueRows

/-!
# The map of rows to ranks

`B1clustersMap` of a rank lists, for every row in which one of its domains takes part, the number of
the row (from 0), the rank and, if the other domain lives elsewhere, the rank of that.  The loops
that fill it run over ranks instead of domains.

* `rankPairs` — the pairs that the two inner loops visit, and **`nmap_eq`**.
* **`clustersInterval_eq`** — the map in closed form: it follows the intended numbering of the rows.
* **`nonredundant_glues_iff`** — without redundant multipliers, the rows of the domains follow it
  only if no interval of three or more domains has more than one node.
-/

namespace Espreso

open Layout

/-! ## Pairs of ranks -/

/-- The pairs that the loops over the ranks of an interval visit. -/
def rankPairs {α : Type} (redundant : Bool) : List α → List (α × α)
  | [] => []
  | r :: rs => (if redundant then rs else rs.take 1).map (r, ·) ++ rankPairs redundant rs

lemma rankPairs_map {α β : Type} (redundant : Bool) (f : α → β) (l : List α) :
    rankPairs redundant (l.map f) = (rankPairs redundant l).map (Prod.map f f) := by
  induction l with
  | nil => rfl
  | cons a l ih =>
      rw [List.map_cons, rankPairs, rankPairs, ih, List.map_append]
      cases redundant <;> simp [Function.comp_def, ← List.map_take]

lemma nmapInner_eq (redundant : Bool) (rank r₁ : ℕ) (rs : List ℕ) : ∀ LMindex,
    nmapInner redundant rank r₁ LMindex rs
      = ((accumulate (fun _ => 1) (fun i p => nmapEntry rank i p.1 p.2) LMindex
            ((if redundant then rs else rs.take 1).map (r₁, ·))).flatten,
          LMindex + (if redundant then rs else rs.take 1).length) := by
  induction rs with
  | nil =>
      intro LMindex
      cases redundant <;> simp [nmapInner, accumulate]
  | cons r₂ rs ih =>
      intro LMindex
      cases redundant with
      | false => simp [nmapInner, accumulate]
      | true =>
          simp only [if_true] at ih
          simp only [nmapInner, if_true, ih, List.map_cons, accumulate, List.flatten_cons,
            List.length_cons, Prod.mk.injEq, true_and]
          omega

/-- **The pairs of ranks** are numbered one after the other. -/
theorem nmap_eq (redundant : Bool) (rank : ℕ) (rs : List ℕ) : ∀ LMindex,
    nmap redundant rank LMindex rs
      = (accumulate (fun _ => 1) (fun i p => nmapEntry rank i p.1 p.2) LMindex
          (rankPairs redundant rs)).flatten := by
  induction rs with
  | nil => exact fun _ => rfl
  | cons r₁ rs ih =>
      intro LMindex
      have hsum : (((if redundant then rs else rs.take 1).map (r₁, ·)).map fun _ => 1).sum
          = (if redundant then rs else rs.take 1).length := by simp [Function.comp_def]
      rw [nmap, nmapInner_eq, ih, rankPairs, accumulate_append, List.flatten_append, hsum]

lemma start_shift (n a : ℕ) :
    start (fun l => n + 1 - 1 - l) (a + 1) = n + start (fun l => n - 1 - l) a := by
  induction a with
  | zero => simp [start_succ]
  | succ a ih =>
      rw [start_succ, ih, start_succ]
      omega

lemma mem_rankPairs (redundant : Bool) (n : ℕ) : ∀ (s : ℕ) (p : ℕ × ℕ),
    p ∈ rankPairs redundant (List.range' s n) ↔
      s ≤ p.1 ∧ p.1 < p.2 ∧ p.2 < s + n ∧ (redundant = false → p.2 = p.1 + 1) := by
  induction n with
  | zero =>
      intro s p
      simp only [List.range'_zero, rankPairs, List.not_mem_nil, false_iff]
      omega
  | succ n ih =>
      rintro s ⟨a, b⟩
      rw [List.range'_succ, rankPairs, List.mem_append, ih]
      cases redundant with
      | true =>
          simp only [if_true, List.mem_map, List.mem_range'_1, Prod.mk.injEq,
            Bool.true_eq_false, false_imp_iff, and_true]
          constructor
          · rintro (⟨i, hi, rfl, rfl⟩ | h) <;> omega
          · intro h
            rcases eq_or_lt_of_le h.1 with rfl | hlt
            · exact Or.inl ⟨b, by omega, rfl, rfl⟩
            · exact Or.inr (by omega)
      | false =>
          cases n with
          | zero =>
              simp
              omega
          | succ n =>
              simp only [Bool.false_eq_true, if_false, List.range'_succ, List.take_succ_cons,
                List.take_zero, List.map_cons, List.map_nil, List.mem_singleton, Prod.mk.injEq,
                true_imp_iff]
              omega

lemma rankPairs_nodup {α : Type} (redundant : Bool) {l : List α} (hl : l.Nodup) :
    (rankPairs redundant l).Nodup := by
  have hmem : ∀ l : List α, ∀ p ∈ rankPairs redundant l, p.1 ∈ l := by
    intro l
    induction l with
    | nil => simp [rankPairs]
    | cons r rs ih =>
        rintro p hp
        rcases List.mem_append.mp hp with hp | hp
        · obtain ⟨_, -, rfl⟩ := List.mem_map.mp hp
          simp
        · exact List.mem_cons_of_mem _ (ih p hp)
  induction l with
  | nil => simp [rankPairs]
  | cons r rs ih =>
      obtain ⟨hr, hrs⟩ := List.nodup_cons.mp hl
      refine List.nodup_append'.mpr ⟨?_, ih hrs, fun p hp hp' => ?_⟩
      · refine List.Nodup.map (Prod.mk_right_injective r) ?_
        split_ifs
        · exact hrs
        · exact hrs.sublist (List.take_sublist _ _)
      · obtain ⟨_, -, rfl⟩ := List.mem_map.mp hp
        exact hr (hmem rs _ hp')

lemma accumulate_rankPairs {β : Type} (redundant : Bool) (f : ℕ → ℕ × ℕ → β) (n : ℕ) :
    ∀ c s : ℕ, accumulate (fun _ => 1) f c (rankPairs redundant (List.range' s n))
      = (rankPairs redundant (List.range' s n)).map
        fun p => f (c + pairPosition redundant n (p.1 - s, p.2 - s)) p := by
  induction n with
  | zero => exact fun _ _ => rfl
  | succ n ih =>
      intro c s
      rw [List.range'_succ, rankPairs, accumulate_append, ih, List.map_append]
      cases redundant with
      | true =>
          simp only [if_true, accumulate_map, accumulate_range', List.map_map]
          congr 1
          · refine List.map_congr_left fun i hi => ?_
            have := (List.mem_range'_1.mp hi).1
            simp only [Function.comp, pairPosition, if_true, pairIndex, Nat.sub_self, start_zero]
            rw [show i - (s + 1) = 0 + (i - s - 0 - 1) by omega]
          · refine List.map_congr_left fun p hp => ?_
            obtain ⟨h₁, h₂, -⟩ := (mem_rankPairs true n (s + 1) p).mp hp
            obtain ⟨a, ha⟩ : ∃ a, p.1 = s + 1 + a := ⟨p.1 - (s + 1), by omega⟩
            have hstart := start_shift n a
            simp only [Function.comp_def, pairPosition, if_true, pairIndex, ha, List.map_const',
              List.length_range', List.sum_replicate, smul_eq_mul, mul_one]
            rw [show s + 1 + a - s = a + 1 by omega, show s + 1 + a - (s + 1) = a by omega, hstart,
              show p.2 - (s + 1) - a - 1 = p.2 - s - (a + 1) - 1 by omega, ← Nat.add_assoc,
              ← Nat.add_assoc, ← Nat.add_assoc]
      | false =>
          cases n with
          | zero => rfl
          | succ n =>
              have htake : (List.range' (s + 1) (n + 1)).take 1 = [s + 1] := by
                simp [List.range'_succ]
              simp only [Bool.false_eq_true, if_false, htake, List.map_cons, List.map_nil,
                accumulate, pairPosition, Nat.sub_self, Nat.add_zero, List.sum_singleton]
              congr 1
              refine List.map_congr_left fun p hp => ?_
              obtain ⟨h, -⟩ := (mem_rankPairs false (n + 1) (s + 1) p).mp hp
              rw [show c + 1 + (p.1 - (s + 1)) = c + (p.1 - s) by omega]

/-! ## The map of one interval -/

lemma addFront_nmapEntry (rank i r₁ r₂ c : ℕ) :
    (nmapEntry rank i r₁ r₂).map (addFront c) = nmapEntry rank (i + c) r₁ r₂ := by
  simp only [nmapEntry]
  split_ifs <;> rfl

lemma clustersRows_eq (nmap : List (List ℕ)) (noffset : ℕ) (isizes : List ℕ) : ∀ LMoffset,
    clustersRows nmap noffset LMoffset isizes
      = (List.range isizes.sum).flatMap
        fun c => nmap.map (addFront (LMoffset + c * noffset)) := by
  induction isizes with
  | nil => exact fun _ => rfl
  | cons isize isizes ih =>
      intro LMoffset
      have hstart : ∀ i, start (fun _ => noffset) i = i * noffset := fun i => by simp [start]
      have hsum : ((List.range isize).map fun _ => noffset).sum = isize * noffset := by simp
      rw [clustersRows, accumulate_range, ih, List.sum_cons, List.range_add, List.flatMap_append,
        ← List.flatMap_def, hsum, List.flatMap_map]
      simp only [hstart, Nat.add_mul, Nat.add_assoc]

lemma range_length_eq {α : Type} [BEq α] [LawfulBEq α] {l : List α} (hl : l.Nodup) :
    List.range l.length = l.map fun x => l.idxOf x := by
  refine List.ext_getElem (by simp) fun i h₁ h₂ => ?_
  simp only [List.getElem_range, List.getElem_map]
  exact (hl.idxOf_getElem i (by simpa using h₁)).symm

namespace System

variable (sys : System) (redundant : Bool)

def mapMultipliers (g : ℕ) : List Multiplier :=
  (sys.gluedDOFs redundant g).flatMap fun x =>
    (rankPairs redundant (List.range (sys.ndomains g))).map fun p => (g, x, p)

/-- The entry of the map of rank `r` for a row, if one of the domains lives there. -/
def mapEntry (r : ℕ) (m : Multiplier) : List (List ℕ) :=
  nmapEntry r (sys.gluingRow redundant m - 1) (sys.rankOf (sys.domainAt m.1 m.2.2.1))
    (sys.rankOf (sys.domainAt m.1 m.2.2.2))

variable {sys redundant}

lemma iranks_eq (g : ℕ) :
    sys.iranks g = (List.range (sys.ndomains g)).map fun i => sys.rankOf (sys.domainAt g i) := by
  refine List.ext_getElem? fun i => ?_
  rw [iranks, List.getElem?_map, List.getElem?_map]
  rcases Nat.lt_or_ge i (sys.ndomains g) with h | h
  · rw [getElem?_domainAt h, List.getElem?_range h]
    rfl
  · have h' : (sys.interval g).domains.length ≤ i := h
    rw [List.getElem?_eq_none h', List.getElem?_eq_none (by simpa using h)]
    rfl

lemma mem_mapMultipliers {g : ℕ} (hg : g < sys.count) {m : Multiplier} :
    m ∈ sys.mapMultipliers redundant g ↔ m.1 = g ∧ m ∈ sys.multipliers redundant := by
  simp only [mapMultipliers, List.mem_flatMap, List.mem_map, mem_gluedDOFs, List.range_eq_range',
    mem_rankPairs, Nat.zero_add]
  constructor
  · rintro ⟨x, hx, p, hp, rfl⟩
    exact ⟨rfl, hg, hx.1, hx.2.1, hx.2.2, hp.2⟩
  · obtain ⟨g', x, p⟩ := m
    rintro ⟨rfl, -, hx₁, hx₂, hx₃, hp⟩
    exact ⟨x, ⟨hx₁, hx₂, hx₃⟩, p, ⟨Nat.zero_le _, hp⟩, rfl⟩

lemma mapMultipliers_nodup (g : ℕ) : (sys.mapMultipliers redundant g).Nodup := by
  refine List.nodup_flatMap.mpr ⟨fun x _ => ?_, (gluedDOFs_nodup g).imp fun {x y} hxy => ?_⟩
  · refine (rankPairs_nodup redundant List.nodup_range).map fun p q h => ?_
    exact (Prod.mk.inj (Prod.mk.inj h).2).2
  · intro m hm hm'
    obtain ⟨_, -, rfl⟩ := List.mem_map.mp hm
    obtain ⟨_, -, h⟩ := List.mem_map.mp hm'
    exact hxy (Prod.mk.inj (Prod.mk.inj h).2).1.symm

/-- **The map of an interval** follows the intended numbering of the rows. -/
theorem clustersInterval_eq (r g : ℕ) :
    clustersInterval sys.DOFs redundant r (sys.constrained redundant r g)
      = (sys.mapMultipliers redundant g).flatMap (sys.mapEntry redundant r) := by
  have hlength : (sys.iranks g).length = sys.ndomains g := by rw [iranks, List.length_map, ndomains]
  have hnoffset : (if redundant then (sys.iranks g).length * ((sys.iranks g).length - 1) / 2
      else (sys.iranks g).length - 1) = noffset redundant (sys.ndomains g) := by
    rw [hlength, noffset]
  have hsizes : (fun dof => if redundant
        then (sys.interval g).size - (sys.dirichlet g dof).length else (sys.interval g).size)
      = fun dof => (sys.gluedNodes redundant g dof).length := by
    funext dof
    rw [length_gluedNodes]
    cases redundant <;> simp
  have hsum : ((List.range sys.DOFs).map fun dof => if redundant
        then (sys.interval g).size - (sys.dirichlet g dof).length else (sys.interval g).size).sum
      = (sys.gluedDOFs redundant g).length := by
    rw [hsizes, gluedDOFs, List.length_flatMap]
    simp
  have hpairs : nmap redundant r 0 (sys.iranks g)
      = (rankPairs redundant (List.range (sys.ndomains g))).flatMap fun p =>
        nmapEntry r (pairPosition redundant (sys.ndomains g) p) (sys.rankOf (sys.domainAt g p.1))
          (sys.rankOf (sys.domainAt g p.2)) := by
    rw [nmap_eq, iranks_eq, rankPairs_map, accumulate_map, List.range_eq_range',
      accumulate_rankPairs, ← List.flatMap_def]
    simp
  have hcode : clustersInterval sys.DOFs redundant r (sys.constrained redundant r g)
      = clustersRows (nmap redundant r 0 (sys.iranks g)) (noffset redundant (sys.ndomains g))
        (sys.dirichletSize redundant + sys.offset (sys.gluingRows redundant) g)
        ((List.range sys.DOFs).map fun dof => if redundant
          then (sys.interval g).size - (sys.dirichlet g dof).length
          else (sys.interval g).size) := by
    rw [← hnoffset]
    simp only [clustersInterval, constrained, intervalDirichletNodes_view, List.length_map]
    simp only [view, Nat.add_sub_cancel_left]
  rw [hcode, clustersRows_eq, hsum, range_length_eq (gluedDOFs_nodup g), List.flatMap_map, hpairs,
    mapMultipliers, List.flatMap_assoc]
  refine List.flatMap_congr fun x _ => ?_
  rw [List.map_flatMap, List.flatMap_map]
  refine List.flatMap_congr fun p _ => ?_
  rw [addFront_nmapEntry, mapEntry, gluingRow, gluingPosition, Nat.add_sub_cancel, Nat.add_comm (pairPosition _ _ _),
    Nat.add_assoc]

/-- **The entries that `B1GlueElements` adds** to the map of a rank. -/
theorem B1GlueElements_map (r : ℕ) (inst : Instance) :
    (B1GlueElements sys.DOFs redundant (sys.mesh r) (sys.constraints redundant r)
        inst).B1clustersMap
      = inst.B1clustersMap ++ ((sys.ids r).flatMap (sys.mapMultipliers redundant)).flatMap
        (sys.mapEntry redundant r) := by
  rw [List.flatMap_assoc]
  simp only [B1GlueElements, constraints, List.flatMap_map]
  refine congrArg _ (List.flatMap_congr fun g _ => ?_)
  exact clustersInterval_eq r g

lemma mapEntry_rows (r : ℕ) (m : Multiplier) :
    (sys.mapEntry redundant r m).map mapRow
      = if sys.rankOf (sys.domainAt m.1 m.2.2.1) = r ∨ sys.rankOf (sys.domainAt m.1 m.2.2.2) = r
        then [sys.gluingRow redundant m - 1] else [] := by
  simp only [mapEntry, nmapEntry]
  by_cases h₁ : sys.rankOf (sys.domainAt m.1 m.2.2.1) = r
  · rw [if_pos h₁, if_pos (Or.inl h₁)]
    split_ifs <;> rfl
  · by_cases h₂ : sys.rankOf (sys.domainAt m.1 m.2.2.2) = r
    · rw [if_neg h₁, if_pos h₂, if_pos (Or.inr h₂), if_pos h₁]
      rfl
    · rw [if_neg h₁, if_neg h₂, if_neg (by tauto)]
      rfl

/-- The rows in which a rank takes part, in the order of the map. -/
def rankMultipliers (sys : System) (redundant : Bool) (r : ℕ) : List Multiplier :=
  ((sys.ids r).flatMap (sys.mapMultipliers redundant)).filter fun m =>
    sys.rankOf (sys.domainAt m.1 m.2.2.1) = r ∨ sys.rankOf (sys.domainAt m.1 m.2.2.2) = r

lemma mapEntries_rows (r : ℕ) :
    (((sys.ids r).flatMap (sys.mapMultipliers redundant)).flatMap
        (sys.mapEntry redundant r)).map mapRow
      = (sys.rankMultipliers redundant r).map fun m => sys.gluingRow redundant m - 1 := by
  rw [rankMultipliers, List.map_flatMap]
  induction (sys.ids r).flatMap (sys.mapMultipliers redundant) with
  | nil => rfl
  | cons m l ih =>
      rw [List.flatMap_cons, mapEntry_rows, ih, List.filter_cons]
      simp only [decide_eq_true_eq]
      split_ifs <;> rfl

lemma mem_rankMultipliers {r : ℕ} {m : Multiplier} :
    m ∈ sys.rankMultipliers redundant r ↔ m ∈ sys.multipliers redundant ∧
      (sys.rankOf (sys.domainAt m.1 m.2.2.1) = r ∨ sys.rankOf (sys.domainAt m.1 m.2.2.2) = r) := by
  simp only [rankMultipliers, List.mem_filter, decide_eq_true_eq, List.mem_flatMap]
  refine and_congr_left fun hrank => ⟨?_, fun hm => ?_⟩
  · rintro ⟨g, hg, hm⟩
    exact ((mem_mapMultipliers (mem_ids.mp hg).1).mp hm).2
  · have hlow : m.2.2.1 < sys.ndomains m.1 := lt_trans hm.2.2.2.2.1 hm.2.2.2.2.2.1
    have hr : r ∈ sys.iranks m.1 := by
      rcases hrank with rfl | rfl
      · exact List.mem_map_of_mem (domainAt_mem hlow)
      · exact List.mem_map_of_mem (domainAt_mem hm.2.2.2.2.2.1)
    exact ⟨m.1, mem_ids.mpr ⟨hm.1, hr⟩, (mem_mapMultipliers hm.1).mpr ⟨rfl, hm⟩⟩

lemma rankMultipliers_nodup (r : ℕ) : (sys.rankMultipliers redundant r).Nodup := by
  refine List.Nodup.filter _ (List.nodup_flatMap.mpr
    ⟨fun g _ => mapMultipliers_nodup g, (List.nodup_range.filter _).imp fun {g h} hgh => ?_⟩)
  intro m hm hm'
  simp only [mapMultipliers, List.mem_flatMap, List.mem_map] at hm hm'
  obtain ⟨_, _, _, _, rfl⟩ := hm
  obtain ⟨_, _, _, _, h⟩ := hm'
  exact hgh (Prod.mk.inj h).1.symm

/-! ## Without redundant multipliers -/

/-- Between `before` and `after` the map of rank `r` got exactly the rows (from 0) of the pairs with
a domain of the rank, each once. -/
def MapsBy (sys : System) (redundant : Bool) (row : Multiplier → ℕ) (r : ℕ)
    (before after : Instance) : Prop :=
  ∃ new : List (List ℕ), after.B1clustersMap = before.B1clustersMap ++ new ∧
    (new.map mapRow).Nodup ∧
    ∀ i, i ∈ new.map mapRow ↔ ∃ m ∈ sys.multipliers redundant, i = row m - 1 ∧
      (sys.rankOf (sys.domainAt m.1 m.2.2.1) = r ∨ sys.rankOf (sys.domainAt m.1 m.2.2.2) = r)

/-- **The map lists the rows of the intended numbering.** -/
theorem mapsBy_gluingRow (sys : System) (redundant : Bool) (r : ℕ) (inst : Instance) :
    sys.MapsBy redundant (sys.gluingRow redundant) r inst
      (B1GlueElements sys.DOFs redundant (sys.mesh r) (sys.constraints redundant r) inst) := by
  have hbij := gluingRow_bijOn sys redundant
  refine ⟨_, B1GlueElements_map r inst, ?_, fun i => ?_⟩
  · rw [mapEntries_rows]
    refine (rankMultipliers_nodup r).map_on fun m hm n hn heq => ?_
    have hm := (mem_rankMultipliers.mp hm).1
    have hn := (mem_rankMultipliers.mp hn).1
    have h₁ := (hbij.mapsTo hm).1
    have h₂ := (hbij.mapsTo hn).1
    exact hbij.injOn hm hn (by omega)
  · rw [mapEntries_rows]
    simp only [List.mem_map, mem_rankMultipliers]
    constructor
    · rintro ⟨m, ⟨hm, hrank⟩, rfl⟩
      exact ⟨m, hm, rfl, hrank⟩
    · rintro ⟨m, hm, rfl, hrank⟩
      exact ⟨m, ⟨hm, hrank⟩, rfl⟩

/-- **Gluing without redundant multipliers as it should be**: the rows after the Dirichlet rows are
in bijection with the nodes, degrees of freedom and neighbouring pairs of domains, on every rank the
loops add exactly the two entries of every row, and the map of the rank lists its rows. -/
def NonredundantGlued (sys : System) : Prop :=
  ∃ row : Multiplier → ℕ, ∀ r < sys.ranks, ∃ c,
    update sys.mesh sys.ranks sys.DOFs false r = some c ∧
    Set.BijOn row (sys.multipliers false)
      (Set.Icc (c.dirichletSize + 1) (c.dirichletSize + c.gluingSize)) ∧
    ∀ inst : Instance,
      (∀ d < (sys.mesh r).ndomains,
        sys.GluesBy false row (sys.distribution.border r + d) (inst.domains d)
          ((B1GlueElements sys.DOFs false (sys.mesh r) c inst).domains d)) ∧
      sys.MapsBy false row r inst (B1GlueElements sys.DOFs false (sys.mesh r) c inst)

lemma idxOf_gluedDOFs {g dof k : ℕ} (hdof : dof < sys.DOFs) (hk : k < (sys.interval g).size) :
    (sys.gluedDOFs false g).idxOf (dof, k) = dof * (sys.interval g).size + k := by
  have hlist : sys.gluedDOFs false g
      = (List.range sys.DOFs).flatMap fun dof => (List.range (sys.interval g).size).map (dof, ·) := by
    simp [gluedDOFs, gluedNodes]
  have hcount : accumulate (fun _ => 1) Prod.mk 0 (sys.gluedDOFs false g)
      = (List.range sys.DOFs).flatMap fun dof => (List.range (sys.interval g).size).map
        fun k => (dof * (sys.interval g).size + k, (dof, k)) := by
    have hstart : ∀ n i, start (fun _ => n) i = i * n := fun n i => by simp [start]
    rw [hlist, accumulate_flatMap]
    simp only [List.length_map, List.length_range, accumulate_range, accumulate_map, hstart,
      Nat.zero_add, Nat.mul_one]
    rw [← List.flatMap_def]
  have hmem : (dof * (sys.interval g).size + k, (dof, k))
      ∈ accumulate (fun _ => 1) Prod.mk 0 (sys.gluedDOFs false g) := by
    rw [hcount]
    exact List.mem_flatMap.mpr ⟨dof, List.mem_range.mpr hdof, List.mem_map.mpr
      ⟨k, List.mem_range.mpr hk, rfl⟩⟩
  rw [accumulate_idxOf _ (gluedDOFs_nodup g)] at hmem
  obtain ⟨x, -, hx⟩ := List.mem_map.mp hmem
  obtain ⟨hidx, rfl⟩ := Prod.mk.inj hx
  rw [← hidx, Nat.zero_add]

lemma generatedRow_eq {m : Multiplier} (hm : m ∈ sys.multipliers false)
    (h : 3 ≤ sys.ndomains m.1 → (sys.interval m.1).size ≤ 1) :
    sys.generatedRow false m = sys.gluingRow false m := by
  obtain ⟨g, ⟨dof, k⟩, a, b⟩ := m
  obtain ⟨-, hdof, hk, -, hab, hbn, -⟩ := hm
  simp only at h hdof hk hab hbn
  have hstride : k * (sys.ndomains g - 1) = k := by
    rcases Nat.lt_or_ge (sys.ndomains g) 3 with hn | hn
    · rw [show sys.ndomains g - 1 = 1 by omega, Nat.mul_one]
    · rw [show k = 0 by have := h hn; omega, Nat.zero_mul]
  simp only [generatedRow, Bool.false_eq_true, if_false, gluingRow, gluingPosition,
    idxOf_gluedDOFs hdof hk,
    noffset, pairPosition, Nat.add_mul, hstride]
  omega


lemma row_of_gluesBy {row : Multiplier → ℕ} {m : Multiplier} (hm : m ∈ sys.multipliers false)
    (inst : Instance)
    (h : ∀ r < sys.ranks, ∀ d < (sys.mesh r).ndomains,
      sys.GluesBy false row (sys.distribution.border r + d) (inst.domains d)
        ((B1GlueElements sys.DOFs false (sys.mesh r) (sys.constraints false r) inst).domains d)) :
    row m = sys.generatedRow false m := by
  obtain ⟨hg, hx₁, hx₂, -, hab, hbn, -⟩ := id hm
  have hlow : m.2.2.1 < sys.ndomains m.1 := lt_trans hab hbn
  have hmem := domainAt_mem hlow
  obtain ⟨hr, hle, hlt⟩ := rankOf_spec (sys.domains_lt m.1 hg _ hmem)
  set domain := sys.domainAt m.1 m.2.2.1 with hdomain
  set r := sys.rankOf domain
  obtain ⟨d, hd⟩ : ∃ d, domain = sys.distribution.border r + d := ⟨_, (Nat.add_sub_of_le hle).symm⟩
  have hd' : d < (sys.mesh r).ndomains := by
    change d < sys.distribution.border (r + 1) - sys.distribution.border r
    omega
  obtain ⟨new, hgrows, -, hnew⟩ := h r hr d hd'
  have hunique := hgrows.unique (B1GlueElements_grows false hr hd' inst)
  rw [← hd] at hnew hunique
  have hentry : (⟨row m, sys.column domain m.1 m.2.1, 1⟩ : Entry) ∈ new :=
    (hnew _).mpr ⟨m, hm, Or.inl ⟨rfl, rfl⟩⟩
  rw [hunique] at hentry
  obtain ⟨n, hn, heq⟩ := List.mem_map.mp hentry
  obtain ⟨hn, hends⟩ := mem_domainMultipliers.mp hn
  have hnlow : sys.domainAt n.1 n.2.2.1 = domain := by
    by_contra hne
    have hvalue := congrArg Entry.value heq
    rw [entry, if_neg hne] at hvalue
    norm_num at hvalue
  have hnmem : domain ∈ (sys.interval n.1).domains := by
    rw [← hnlow]
    exact domainAt_mem (lt_trans hn.2.2.2.2.1 hn.2.2.2.2.2.1)
  obtain ⟨hgeq, hxeq⟩ := column_injOn hnmem hmem hn.2.1 hx₁ hn.2.2.1 hx₂ (congrArg Entry.col heq)
  have hpos : n.2.2.1 = m.2.2.1 := by
    rw [hgeq] at hnlow
    refine domainAt_inj ?_ hlow hnlow
    rw [← hgeq]
    exact lt_trans hn.2.2.2.2.1 hn.2.2.2.2.2.1
  have hrow : row m = sys.generatedRow false n := (congrArg Entry.row heq).symm
  rw [hrow]
  simp only [generatedRow, Bool.false_eq_true, if_false, hgeq, hxeq, hpos]

lemma generatedRow_collides {g : ℕ} (hg : g < sys.count) (hn : 3 ≤ sys.ndomains g)
    (hsize : 2 ≤ (sys.interval g).size) :
    ¬Set.InjOn (sys.generatedRow false) (sys.multipliers false) := by
  intro hinj
  have h₁ : ((g, (0, 1), (0, 1)) : Multiplier) ∈ sys.multipliers false :=
    ⟨hg, sys.DOFs_pos, hsize, by simp, Nat.zero_lt_one, by simp only; omega, fun _ => rfl⟩
  have h₂ : ((g, (0, 0), (1, 2)) : Multiplier) ∈ sys.multipliers false :=
    ⟨hg, sys.DOFs_pos, by simp only; omega, by simp, Nat.one_lt_two, hn, fun _ => rfl⟩
  have heq := hinj h₁ h₂ (by simp [generatedRow])
  simp at heq

lemma nonredundantGlued_injOn {r : ℕ} (hr : r < sys.ranks) (h : sys.NonredundantGlued) :
    Set.InjOn (sys.generatedRow false) (sys.multipliers false) := by
  obtain ⟨row, h⟩ := h
  have hglues : ∀ r < sys.ranks, ∀ d < (sys.mesh r).ndomains,
      sys.GluesBy false row (sys.distribution.border r + d) (Instance.clear.domains d)
        ((B1GlueElements sys.DOFs false (sys.mesh r) (sys.constraints false r)
          Instance.clear).domains d) := by
    intro r hr d hd
    obtain ⟨c, hc, -, hall⟩ := h r hr
    have hconstraints : c = sys.constraints false r :=
      Option.some.inj (hc.symm.trans (update_eq sys false hr))
    rw [← hconstraints]
    exact (hall Instance.clear).1 d hd
  obtain ⟨_, -, hbij, -⟩ := h r hr
  refine hbij.injOn.congr fun m hm => ?_
  exact row_of_gluesBy hm Instance.clear hglues

/-- **Without redundant multipliers** the domains are glued exactly if no interval of three or more
domains has more than one node. -/
theorem nonredundant_glues_iff (sys : System) :
    sys.NonredundantGlued ↔
      ∀ g < sys.count, 3 ≤ sys.ndomains g → (sys.interval g).size ≤ 1 := by
  constructor
  · intro h g hg hn
    by_contra hsize
    obtain ⟨hr, -⟩ := rankOf_spec (sys.domains_lt g hg _ (sys.interval g).front_mem)
    exact generatedRow_collides hg hn (by omega) (nonredundantGlued_injOn hr h)
  · intro h
    have hrow : Set.EqOn (sys.generatedRow false) (sys.gluingRow false) (sys.multipliers false) :=
      fun m hm => generatedRow_eq hm (h m.1 hm.1)
    have hbij := gluingRow_bijOn sys false
    have hinj : Set.InjOn (sys.generatedRow false) (sys.multipliers false) :=
      hbij.injOn.congr hrow.symm
    refine ⟨sys.gluingRow false, fun r hr => ⟨_, update_eq sys false hr, hbij, fun inst =>
      ⟨fun d hd => ?_, mapsBy_gluingRow sys false r inst⟩⟩⟩
    obtain ⟨new, hgrows, hnodup, hnew⟩ := gluesBy_generated hinj hr hd inst
    refine ⟨new, hgrows, hnodup, fun e => (hnew e).trans ?_⟩
    refine exists_congr fun m => and_congr_right fun hm => ?_
    rw [hrow hm]

end System

def threeDomains : System where
  ranks := 1
  domains := 3
  distribution := ⟨[0, 3], by decide, by decide, by decide, by decide⟩
  DOFs := 1
  DOFs_pos := Nat.zero_lt_one
  count := 1
  interval _ :=
    { domains := [0, 1, 2]
      nonempty := by decide
      ascending := by decide
      size := 2
      regions := fun _ => []
      region_sorted := Interval.noRegions_sorted
      region_lt := by simp
      region_disjoint := Interval.noRegions_disjoint }
  domains_lt := by decide
  neighbours _ := []
  neighbours_sorted := System.noNeighbours_sorted
  neighbours_lt := System.noNeighbours_lt
  neighbours_irrefl := System.noNeighbours_irrefl
  neighbours_symm := System.noNeighbours_symm
  neighbours_of_shared := by
    intro g _ d hd e he r q h₁ _ h₃ _ hne
    have hfirst : ∀ r x : ℕ, x ∈ [0, 1, 2] → [0, 3].getD r 3 ≤ x → r = 0 := by
      intro r x hx h
      match r with
      | 0 => rfl
      | 1 | r + 2 => simp at hx h; omega
    exact absurd ((hfirst r d hd h₁).trans (hfirst q e he h₃).symm) hne
  count_le := System.one_le_limit

/-- The domain in the middle gets row 2 for both nodes. -/
example : (nonredundantglue 1 ⟨⟨⟨0, 2, [0, 1, 2], [0, 0, 0], fun _ => []⟩, 0, 0⟩, 0, 1, 3⟩
    0 2 0 0).1.I_row_indices = [1, 2, 2, 3] := by decide

/-- On two nodes of three domains, the domains are not glued. -/
theorem threeDomains_not_glued : ¬threeDomains.NonredundantGlued := by
  intro h
  have hinj := System.nonredundantGlued_injOn Nat.zero_lt_one h
  exact System.generatedRow_collides (g := 0) (by decide) (by decide) (by decide) hinj

end Espreso
