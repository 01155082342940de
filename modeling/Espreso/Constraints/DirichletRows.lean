import Espreso.Constraints.Dirichlet

/-!
# What the Dirichlet loops generate

The arrays of a domain and the map of a rank in closed form.  The map follows the intended numbering
of the rows; the rows of the domains leave out `ndomains` rows for every node of an earlier degree
of freedom, also where only the first domain has rows.

* `Inserts` — what a loop appends, with composition.
* **`updateDomain_eq`** — the values, block by block.
* **`B1DirichletInsert_inserts`**, **`B1DirichletInsert_map`** — the arrays and the map.
* **`dirichlet_inserted_iff`** — when they fit together.
-/

namespace Espreso

open Layout

namespace System

variable (sys : System) (redundant : Bool)

/-! ## What a domain generates -/

/-- Between `i` and `j` one entry was appended for every condition of the list. -/
structure Inserts (row : Condition → ℕ) (d : ℕ) (i j : DomainInstance) (l : List Condition) :
    Prop where
  grows : i.Grows j (l.map (sys.conditionEntry row d))
  subdomainsMap : j.B1subdomainsMap = i.B1subdomainsMap ++ l.map fun m => row m - 1
  values : j.B1c = i.B1c

/-- The conditions of a domain on one interval, in the order of the loops. -/
def intervalConditions (d g : ℕ) : List Condition :=
  let δ := lowerBound (sys.interval g).domains d
  if redundant ∨ δ = 0 then (List.range sys.DOFs).flatMap fun dof =>
    (sys.regionNodes g dof).map fun k => (g, dof, (δ, k)) else []

def domainConditions (d : ℕ) : List Condition :=
  (sys.domainIds d).flatMap (sys.intervalConditions redundant d)

variable {sys redundant}

lemma Inserts.refl (row : Condition → ℕ) (d : ℕ) (i : DomainInstance) :
    sys.Inserts row d i i [] where
  grows := ⟨by simp, by simp, by simp⟩
  subdomainsMap := by simp
  values := rfl

lemma Inserts.trans {row : Condition → ℕ} {d : ℕ} {i j k : DomainInstance} {l l' : List Condition}
    (h : sys.Inserts row d i j l) (h' : sys.Inserts row d j k l') :
    sys.Inserts row d i k (l ++ l') where
  grows := ⟨by rw [h'.grows.rows, h.grows.rows]; simp, by rw [h'.grows.cols, h.grows.cols]; simp,
    by rw [h'.grows.values, h.grows.values]; simp⟩
  subdomainsMap := by rw [h'.subdomainsMap, h.subdomainsMap]; simp
  values := h'.values.trans h.values

lemma Inserts.foldl {α : Type} {row : Condition → ℕ} {d : ℕ} {f : DomainInstance → α → DomainInstance}
    {conds : α → List Condition} : ∀ (l : List α) (i : DomainInstance),
    (∀ a ∈ l, ∀ i, sys.Inserts row d i (f i a) (conds a)) →
      sys.Inserts row d i (l.foldl f i) (l.flatMap conds) := by
  intro l
  induction l with
  | nil => exact fun i _ => Inserts.refl row d i
  | cons a l ih =>
      intro i h
      rw [List.foldl_cons, List.flatMap_cons]
      exact (h a (by simp) i).trans (ih _ fun b hb => h b (by simp [hb]))

lemma range'_length_eq {α : Type} [BEq α] [LawfulBEq α] {l : List α} (hl : l.Nodup) (s : ℕ) :
    List.range' s l.length = l.map fun x => s + l.idxOf x := by
  have h : List.range' s l.length = (List.range l.length).map (s + ·) := by
    rw [List.range_eq_range', List.map_add_range', Nat.add_zero]
  rw [h, range_length_eq hl, List.map_map]
  rfl

lemma regions_view (sys : System) (off g dof : ℕ) :
    (sys.view off g).regions dof = ((sys.interval g).regions dof).map fun r =>
      ⟨r.nodes.map (off + ·), fun n => r.value (n - off)⟩ := rfl

lemma insertDOF_inserts (d g dof : ℕ) (inst : DomainInstance) :
    sys.Inserts (sys.insertedRow redundant) d inst
      (insertDOF sys.DOFs (sys.dirichletSize redundant) (sys.gluing redundant d g) dof
        (sys.ndomains g * start (fun dof => (sys.dirichlet g dof).length) dof) inst)
      ((sys.regionNodes g dof).map fun k =>
        (g, dof, (lowerBound (sys.interval g).domains d, k))) := by
  have hnodup := regionNodes_nodup sys g dof
  have hsize : (intervalDirichletNodes (sys.gluing redundant d g).interval.pinterval dof).length
      = (sys.regionNodes g dof).length := by
    rw [length_regionNodes]
    simp only [gluing, constrained, intervalDirichletNodes_view, List.length_map]
  have hcols : ((sys.gluing redundant d g).interval.pinterval.regions dof).flatMap (fun r =>
        r.nodes.map fun n => sys.DOFs * ((sys.gluing redundant d g).DOFOffset + n
          - (sys.gluing redundant d g).interval.pinterval.begin') + dof + 1)
      = (sys.regionNodes g dof).map fun k => sys.column d g (dof, k) := by
    have hview := regions_view sys (sys.nodeOffset (sys.rankOf d) g) g dof
    simp only [gluing, constrained, hview]
    rw [List.flatMap_map, regionNodes, List.map_flatMap]
    refine List.flatMap_congr fun r _ => ?_
    rw [List.map_map]
    refine List.map_congr_left fun k _ => ?_
    have hk : sys.dofOffset d g + (sys.nodeOffset (sys.rankOf d) g + k)
        - (sys.view (sys.nodeOffset (sys.rankOf d) g) g).begin' = sys.dofOffset d g + k := by
      simp only [view]
      omega
    simp only [Function.comp, hk, column]
  have hrow : ∀ k, sys.insertedRow redundant
        (g, dof, (lowerBound (sys.interval g).domains d, k))
      = (sys.gluing redundant d g).interval.intervalDirichletOffset
        + (sys.gluing redundant d g).dindex * (sys.regionNodes g dof).length
        + sys.ndomains g * start (fun dof => (sys.dirichlet g dof).length) dof
        + (sys.regionNodes g dof).idxOf k + 1 := by
    intro k
    simp only [insertedRow, conditionPosition, gluing, constrained, length_regionNodes]
    omega
  refine ⟨⟨?_, ?_, ?_⟩, ?_, rfl⟩
  · simp only [insertDOF, hsize, range'_length_eq hnodup, List.map_map]
    congr 1
    refine List.map_congr_left fun k _ => ?_
    simp only [Function.comp, conditionEntry, hrow]
    omega
  · simp only [insertDOF, hcols, List.map_map]
    rfl
  · simp only [insertDOF, hsize, List.map_map]
    congr 1
    exact (List.eq_replicate_iff.mpr ⟨by simp, by simp [conditionEntry]⟩).symm
  · simp only [insertDOF, hsize, range'_length_eq hnodup, List.map_map]
    congr 1
    refine List.map_congr_left fun k _ => ?_
    simp only [Function.comp, hrow]
    omega

lemma insertDOFs_inserts (d g : ℕ)
    (h : redundant ∨ lowerBound (sys.interval g).domains d = 0) : ∀ (m a : ℕ) (inst : DomainInstance),
    sys.Inserts (sys.insertedRow redundant) d inst
      (insertDOFs sys.DOFs redundant (sys.dirichletSize redundant) (sys.gluing redundant d g)
        (List.range' a m) (sys.ndomains g * start (fun dof => (sys.dirichlet g dof).length) a) inst)
      ((List.range' a m).flatMap fun dof => (sys.regionNodes g dof).map fun k =>
        (g, dof, (lowerBound (sys.interval g).domains d, k))) := by
  intro m
  induction m with
  | zero => exact fun a inst => Inserts.refl _ d inst
  | succ m ih =>
      intro a inst
      have hsize : (intervalDirichletNodes (sys.gluing redundant d g).interval.pinterval a).length
          = (sys.dirichlet g a).length := by
        simp only [gluing, constrained, intervalDirichletNodes_view, List.length_map]
      have hoffset : sys.ndomains g * start (fun dof => (sys.dirichlet g dof).length) a
          + (sys.gluing redundant d g).ndomains * (sys.dirichlet g a).length
          = sys.ndomains g * start (fun dof => (sys.dirichlet g dof).length) (a + 1) := by
        rw [start_succ, Nat.mul_add]
        rfl
      have h' : redundant = true ∨ (sys.gluing redundant d g).dindex = 0 := h
      rw [List.range'_succ, insertDOFs, if_pos h', hsize, hoffset, List.flatMap_cons]
      exact (insertDOF_inserts d g a inst).trans (ih (a + 1) _)

lemma insertDOFs_skips (dirichletSize : ℕ) {interval : GluingInterval ConstrainedInterval}
    (h : ¬(redundant ∨ interval.dindex = 0)) : ∀ (dofs : List ℕ) (LMoffset : ℕ)
    (inst : DomainInstance),
    insertDOFs sys.DOFs redundant dirichletSize interval dofs LMoffset inst = inst := by
  intro dofs
  induction dofs with
  | nil => exact fun _ _ => rfl
  | cons dof dofs ih =>
      intro LMoffset inst
      rw [insertDOFs, if_neg h]
      exact ih LMoffset inst

lemma insertInterval_inserts (d g : ℕ) (inst : DomainInstance) :
    sys.Inserts (sys.insertedRow redundant) d inst
      (insertDOFs sys.DOFs redundant (sys.dirichletSize redundant) (sys.gluing redundant d g)
        (List.range sys.DOFs) 0 inst)
      (sys.intervalConditions redundant d g) := by
  by_cases h : redundant ∨ lowerBound (sys.interval g).domains d = 0
  · have hall := insertDOFs_inserts d g h sys.DOFs 0 inst
    rw [start_zero, Nat.mul_zero, ← List.range_eq_range'] at hall
    rw [intervalConditions, if_pos h]
    exact hall
  · rw [intervalConditions, if_neg h, insertDOFs_skips _ h]
    exact Inserts.refl _ d inst

/-! ## The values -/

lemma overwrite_overwrite (v w : List ℚ) (st : List ℚ × ℕ) (h : st.2 ≤ st.1.length) :
    overwrite w (overwrite v st) = overwrite (v ++ w) st := by
  obtain ⟨l, o⟩ := st
  simp only at h
  have htake : (l.take o ++ v).length = o + v.length := by
    rw [List.length_append, List.length_take, min_eq_left h]
  have hdrop : (l.take o ++ v ++ l.drop (o + v.length)).drop (o + v.length + w.length)
      = l.drop (o + (v ++ w).length) := by
    rw [← htake, List.drop_length_add_append, htake, List.drop_drop, List.length_append,
      Nat.add_assoc]
  have hfirst : (l.take o ++ v ++ l.drop (o + v.length)).take (o + v.length) = l.take o ++ v := by
    rw [← htake, List.take_left]
  simp only [overwrite, hdrop, hfirst, Prod.mk.injEq]
  exact ⟨by simp, by rw [List.length_append]; omega⟩

lemma overwrite_le (v : List ℚ) (st : List ℚ × ℕ) (h : st.2 ≤ st.1.length) :
    (overwrite v st).2 ≤ (overwrite v st).1.length := by
  simp only [overwrite, List.length_append, List.length_take, List.length_drop]
  omega

lemma foldl_overwrite {α : Type} {step : List ℚ × ℕ → α → List ℚ × ℕ} {f : α → List ℚ} :
    ∀ (l : List α) (st : List ℚ × ℕ),
      (∀ a ∈ l, ∀ st : List ℚ × ℕ, st.2 ≤ st.1.length → step st a = overwrite (f a) st) →
        st.2 ≤ st.1.length → l.foldl step st = overwrite (l.flatMap f) st := by
  intro l
  induction l with
  | nil =>
      intro st _ h
      simp [overwrite]
  | cons a l ih =>
      intro st hstep h
      rw [List.foldl_cons, List.flatMap_cons, hstep a (by simp) st h,
        ih _ (fun b hb => hstep b (by simp [hb])) (overwrite_le _ st h), overwrite_overwrite _ _ st h]

lemma evaluate_view (reduction : ℚ) (off : ℕ) (r : Region) :
    evaluate reduction ⟨r.nodes.map (off + ·), fun n => r.value (n - off)⟩
      = (r.nodes.map r.value).map (· * reduction) := by
  have hvalues : (r.nodes.map (off + ·)).map (fun n => r.value (n - off)) = r.nodes.map r.value := by
    rw [List.map_map]
    exact List.map_congr_left fun n _ => by simp
  by_cases h : reduction = 1
  · simp only [evaluate, hvalues, h, ne_eq, not_true_eq_false, if_false, mul_one, List.map_id']
  · simp only [evaluate, hvalues, ne_eq, h, not_false_eq_true, if_true]

lemma flatMap_evaluate (reduction : ℚ) (off g dof i : ℕ) :
    ((sys.view off g).regions dof).flatMap (evaluate reduction)
      = ((sys.regionNodes g dof).map fun k => (g, dof, (i, k))).map
        (sys.conditionValue reduction) := by
  have h : (sys.regionNodes g dof).map (prescribed ((sys.interval g).regions dof))
      = ((sys.interval g).regions dof).flatMap fun r => r.nodes.map r.value :=
    map_prescribed ((sys.interval g).region_disjoint dof)
  have hvalue : ((sys.regionNodes g dof).map fun k => (g, dof, (i, k))).map
        (sys.conditionValue reduction)
      = ((sys.regionNodes g dof).map (prescribed ((sys.interval g).regions dof))).map
        (· * reduction) := by
    rw [List.map_map, List.map_map]
    rfl
  rw [hvalue, h, regions_view, List.flatMap_map, List.map_flatMap]
  exact List.flatMap_congr fun r _ => evaluate_view reduction off r

/-- **`B1DirichletUpdate`** writes the values in the order of the rows. -/
lemma updateDomain_eq (reduction : ℚ) (d : ℕ) (B1c : List ℚ) :
    updateDomain sys.DOFs redundant reduction
        ((sys.domainIds d).map (sys.gluing redundant d)) B1c
      = (sys.domainConditions redundant d).map (sys.conditionValue reduction)
        ++ B1c.drop (sys.domainConditions redundant d).length := by
  have hwrite : ∀ g ∈ sys.domainIds d, ∀ st : List ℚ × ℕ, st.2 ≤ st.1.length →
      (List.range sys.DOFs).foldl (fun st dof =>
        if redundant ∨ (sys.gluing redundant d g).dindex = 0 then
          ((sys.gluing redundant d g).interval.pinterval.regions dof).foldl
            (fun st r => overwrite (evaluate reduction r) st) st
        else st) st
      = overwrite ((sys.intervalConditions redundant d g).map (sys.conditionValue reduction)) st := by
    intro g _ st hst
    by_cases h : redundant ∨ lowerBound (sys.interval g).domains d = 0
    · have h' : redundant = true ∨ (sys.gluing redundant d g).dindex = 0 := h
      rw [intervalConditions, if_pos h, List.map_flatMap]
      refine foldl_overwrite _ _ (fun dof _ st hst => ?_) hst
      rw [if_pos h', foldl_overwrite _ _ (fun _ _ _ _ => rfl) hst]
      congr 1
      exact flatMap_evaluate reduction _ g dof _
    · have h' : ¬(redundant = true ∨ (sys.gluing redundant d g).dindex = 0) := h
      rw [intervalConditions, if_neg h]
      simp only [if_neg h', List.foldl_const, List.map_nil, overwrite, List.append_nil,
        List.length_nil, Nat.add_zero, List.take_append_drop]
      exact Function.iterate_fixed rfl _
  have hall := foldl_overwrite (sys.domainIds d) (B1c, 0) hwrite (Nat.zero_le _)
  rw [updateDomain, List.foldl_map, hall, ← List.map_flatMap]
  simp only [overwrite, List.take_zero, List.nil_append, Nat.zero_add]
  rw [← domainConditions, List.length_map]

/-! ## What a rank holds -/

lemma mem_intervalConditions {d g : ℕ} (hg : g < sys.count) (hd : d ∈ (sys.interval g).domains)
    {m : Condition} :
    m ∈ sys.intervalConditions redundant d g ↔ m.1 = g ∧ m ∈ sys.conditions redundant ∧
      sys.domainAt g m.2.2.1 = d := by
  obtain ⟨hδ, hat⟩ := domainAt_lowerBound hd
  have hcopies : redundant ∨ lowerBound (sys.interval g).domains d = 0 ↔
      lowerBound (sys.interval g).domains d < sys.copies redundant g := by
    rw [copies]
    cases redundant with
    | true => simpa using hδ
    | false => simp
  obtain ⟨g', dof, i, k⟩ := m
  by_cases h : redundant ∨ lowerBound (sys.interval g).domains d = 0
  · simp only [intervalConditions, if_pos h, List.mem_flatMap, List.mem_range, List.mem_map,
      Prod.mk.injEq]
    constructor
    · rintro ⟨dof', hdof, k', hk, rfl, rfl, rfl, rfl⟩
      exact ⟨rfl, ⟨hg, hdof, hcopies.mp h, hk⟩, hat⟩
    · rintro ⟨rfl, ⟨-, hdof, hi, hk⟩, hdomain⟩
      have hpos := domainAt_inj (lt_of_lt_of_le hi (copies_le _ _ _)) hδ (hdomain.trans hat.symm)
      exact ⟨dof, hdof, k, hk, rfl, rfl, hpos.symm, rfl⟩
  · simp only [intervalConditions, if_neg h, List.not_mem_nil, false_iff]
    rintro ⟨rfl, ⟨-, -, hi, -⟩, hdomain⟩
    have hpos := domainAt_inj (lt_of_lt_of_le hi (copies_le _ _ _)) hδ (hdomain.trans hat.symm)
    exact h (hcopies.mpr (hpos ▸ hi))

lemma mem_domainConditions {d : ℕ} {m : Condition} :
    m ∈ sys.domainConditions redundant d ↔
      m ∈ sys.conditions redundant ∧ sys.domainAt m.1 m.2.2.1 = d := by
  simp only [domainConditions, List.mem_flatMap]
  constructor
  · rintro ⟨g, hg, hm⟩
    obtain ⟨hg, hd⟩ := mem_domainIds.mp hg
    obtain ⟨rfl, hm⟩ := (mem_intervalConditions hg hd).mp hm
    exact hm
  · rintro ⟨hm, hdomain⟩
    have hd : d ∈ (sys.interval m.1).domains := by
      rw [← hdomain]
      exact domainAt_mem (lt_of_lt_of_le hm.2.2.1 (copies_le _ _ _))
    exact ⟨m.1, mem_domainIds.mpr ⟨hm.1, hd⟩, (mem_intervalConditions hm.1 hd).mpr ⟨rfl, hm, hdomain⟩⟩

lemma domainConditions_nodup (d : ℕ) : (sys.domainConditions redundant d).Nodup := by
  refine List.nodup_flatMap.mpr ⟨fun g _ => ?_, (List.nodup_range.filter _).imp fun {g h} hgh => ?_⟩
  · by_cases h : redundant ∨ lowerBound (sys.interval g).domains d = 0
    · rw [intervalConditions, if_pos h]
      refine List.nodup_flatMap.mpr ⟨fun dof _ => ?_, List.nodup_range.imp fun {a b} hab => ?_⟩
      · exact (regionNodes_nodup sys g dof).map fun k l h => by simpa using h
      · intro m hm hm'
        obtain ⟨_, -, rfl⟩ := List.mem_map.mp hm
        obtain ⟨_, -, h⟩ := List.mem_map.mp hm'
        exact hab (Prod.mk.inj (Prod.mk.inj h).2).1.symm
    · rw [intervalConditions, if_neg h]
      exact List.nodup_nil
  · intro m hm hm'
    have hfirst : ∀ x, m ∈ sys.intervalConditions redundant d x → m.1 = x := by
      intro x hx
      simp only [intervalConditions] at hx
      split_ifs at hx
      · simp only [List.mem_flatMap, List.mem_map] at hx
        obtain ⟨_, _, _, _, rfl⟩ := hx
        rfl
      · simp at hx
    exact hgh ((hfirst g hm).symm.trans (hfirst h hm'))

/-- **The arrays of a domain after `B1DirichletInsert`** on cleared arrays. -/
theorem B1DirichletInsert_inserts (redundant : Bool) {r d : ℕ} (hr : r < sys.ranks) (hd : d < (sys.mesh r).ndomains)
    (reduction : ℚ) :
    let i := (B1DirichletInsert sys.DOFs redundant reduction (sys.mesh r)
      (sys.constraints redundant r) Instance.clear).domains d
    let conds := sys.domainConditions redundant (sys.distribution.border r + d)
    DomainInstance.clear.Grows i (conds.map (sys.conditionEntry (sys.insertedRow redundant)
        (sys.distribution.border r + d))) ∧
      i.B1subdomainsMap = conds.map (fun m => sys.insertedRow redundant m - 1) ∧
      i.B1c = conds.map (sys.conditionValue reduction) := by
  intro i conds
  set domain := sys.distribution.border r + d with hdomain
  by_cases hzero : sys.dirichletSize redundant = 0
  · have hconds : conds = [] := List.eq_nil_iff_forall_not_mem.mpr fun m hm => by
      have h := (dirichletRow_bijOn sys redundant).mapsTo (mem_domainConditions.mp hm).1
      rw [hzero] at h
      have h₁ := h.1
      have h₂ := h.2
      omega
    have hi : i = DomainInstance.clear := by
      have hzero' : (sys.constraints redundant r).dirichletSize = 0 := hzero
      simp only [i, B1DirichletInsert, if_pos hzero']
      rfl
    rw [hi, hconds]
    exact ⟨⟨rfl, rfl, rfl⟩, rfl, rfl⟩
  · have hzero' : (sys.constraints redundant r).dirichletSize ≠ 0 := hzero
    set inserted := (sys.domainIds domain).foldl (fun inst g =>
      insertDOFs sys.DOFs redundant (sys.dirichletSize redundant) (sys.gluing redundant domain g)
        (List.range sys.DOFs) 0 inst) DomainInstance.clear with hinserted
    have hinserts : sys.Inserts (sys.insertedRow redundant) domain DomainInstance.clear inserted
        conds := Inserts.foldl _ _ fun g _ inst => insertInterval_inserts domain g inst
    have hlength : (resize inserted.B1c inserted.V_values.length 0).length = conds.length := by
      rw [hinserts.values, hinserts.grows.values]
      simp [resize, DomainInstance.clear]
    have hi : i = { inserted with B1c := conds.map (sys.conditionValue reduction) } := by
      simp only [i, B1DirichletInsert, if_neg hzero', if_pos hd]
      have hg : gintervals ConstrainedInterval.pinterval ((sys.mesh r).firstDomain + d) 0
          (sys.constraints redundant r).intervals
          = (sys.domainIds domain).map (sys.gluing redundant domain) := gintervals_gluing hr hd
      have hdomain : insertDomain sys.DOFs redundant (sys.constraints redundant r).dirichletSize
          ((sys.domainIds domain).map (sys.gluing redundant domain)) (Instance.clear.domains d)
          = { inserted with B1c := resize inserted.B1c inserted.V_values.length 0 } := by
        rw [insertDomain, List.foldl_map]
        rfl
      rw [hg, hdomain, updateDomain_eq, ← hlength, List.drop_length, List.append_nil]
    rw [hi]
    refine ⟨⟨hinserts.grows.rows, hinserts.grows.cols, hinserts.grows.values⟩, ?_, rfl⟩
    exact hinserts.subdomainsMap.trans (List.nil_append _)

end System

variable {redundant : Bool}

/-! ## The map of a rank -/

section Map

variable (redundant)

/-- The ranks that `B1DirichletInsert` visits. -/
def visitedRanks (rs : List ℕ) : List ℕ := if redundant then rs else rs.take 1

lemma dirichletRanks_eq (rank size : ℕ) (rs : List ℕ) : ∀ LMoffset,
    dirichletRanks redundant rank size LMoffset rs
      = ((accumulate (fun _ => size) (fun LMoffset r => if r = rank
            then (List.range size).map fun n => [n + LMoffset, rank] else []) LMoffset
            (visitedRanks redundant rs)).flatten,
          LMoffset + (visitedRanks redundant rs).length * size) := by
  induction rs with
  | nil =>
      intro LMoffset
      cases redundant <;> simp [dirichletRanks, visitedRanks, accumulate]
  | cons r rs ih =>
      intro LMoffset
      cases redundant with
      | false => simp [dirichletRanks, visitedRanks, accumulate]
      | true =>
          simp only [visitedRanks, if_true] at ih
          simp only [dirichletRanks, visitedRanks, if_true, ih, accumulate, List.flatten_cons,
            List.length_cons, Prod.mk.injEq, true_and, Nat.succ_mul]
          omega

end Map

namespace System

variable (sys : System) (redundant : Bool)

def mapConditions (g : ℕ) : List Condition :=
  (List.range sys.DOFs).flatMap fun dof => (List.range (sys.copies redundant g)).flatMap fun i =>
    (sys.regionNodes g dof).map fun k => (g, dof, (i, k))

/-- The entry of the map of rank `r` for a row, if the domain lives there. -/
def mapCondition (r : ℕ) (m : Condition) : List (List ℕ) :=
  if sys.rankOf (sys.domainAt m.1 m.2.2.1) = r then [[sys.dirichletRow redundant m - 1, r]] else []

variable {sys redundant}

lemma visitedRanks_eq (g : ℕ) :
    visitedRanks redundant (sys.iranks g)
      = (List.range (sys.copies redundant g)).map fun i => sys.rankOf (sys.domainAt g i) := by
  cases redundant with
  | true => simp [visitedRanks, copies, iranks_eq]
  | false =>
      have hpos := ndomains_pos sys g
      rw [visitedRanks, if_neg (by simp), iranks_eq, ← List.map_take, List.take_range,
        min_eq_left (by omega)]
      rfl

lemma dirichletClusters_eq (sys : System) (redundant : Bool) (r g : ℕ) : ∀ m a : ℕ,
    dirichletClusters redundant r (sys.view (sys.nodeOffset r g) g)
        (sys.offset (sys.dirichletRows redundant) g
          + sys.copies redundant g * start (fun dof => (sys.dirichlet g dof).length) a)
        (List.range' a m)
      = ((List.range' a m).flatMap fun dof => (List.range (sys.copies redundant g)).flatMap fun i =>
          (sys.regionNodes g dof).map fun k => (g, dof, (i, k))).flatMap
        (sys.mapCondition redundant r) := by
  intro m
  induction m with
  | zero => exact fun _ => rfl
  | succ m ih =>
      intro a
      have hstart : ∀ n i, start (fun _ => n) i = i * n := fun n i => by simp [start]
      have hnext : sys.offset (sys.dirichletRows redundant) g
            + sys.copies redundant g * start (fun dof => (sys.dirichlet g dof).length) a
            + sys.copies redundant g * (sys.dirichlet g a).length
          = sys.offset (sys.dirichletRows redundant) g
            + sys.copies redundant g * start (fun dof => (sys.dirichlet g dof).length) (a + 1) := by
        rw [start_succ, Nat.mul_add, Nat.add_assoc]
      have hranks : (sys.view (sys.nodeOffset r g) g).ranks = sys.iranks g := rfl
      rw [List.range'_succ, dirichletClusters, intervalDirichletNodes_view, List.length_map,
        dirichletRanks_eq, hranks, visitedRanks_eq, List.length_map, List.length_range]
      simp only [hnext]
      rw [ih, List.flatMap_cons, List.flatMap_append, accumulate_map, accumulate_range,
        ← List.flatMap_def]
      congr 1
      rw [List.flatMap_assoc]
      refine List.flatMap_congr fun i _ => ?_
      rw [List.flatMap_map]
      by_cases h : sys.rankOf (sys.domainAt g i) = r
      · rw [if_pos h, ← length_regionNodes, range_length_eq (regionNodes_nodup sys g a), List.map_map,
          List.map_eq_flatMap]
        refine List.flatMap_congr fun k _ => ?_
        simp only [mapCondition, h, if_true, dirichletRow, conditionPosition, Function.comp, hstart,
          length_regionNodes, Nat.add_sub_cancel]
        rw [show ∀ a b c d : ℕ, a + (b + c + d) = b + (c + (d + a)) by omega]
      · simp [mapCondition, h]

lemma mem_mapConditions {g : ℕ} (hg : g < sys.count) {m : Condition} :
    m ∈ sys.mapConditions redundant g ↔ m.1 = g ∧ m ∈ sys.conditions redundant := by
  obtain ⟨g', dof, i, k⟩ := m
  simp only [mapConditions, List.mem_flatMap, List.mem_range, List.mem_map, Prod.mk.injEq]
  constructor
  · rintro ⟨dof', hdof, i', hi, k', hk, rfl, rfl, rfl, rfl⟩
    exact ⟨rfl, hg, hdof, hi, hk⟩
  · rintro ⟨rfl, -, hdof, hi, hk⟩
    exact ⟨dof, hdof, i, hi, k, hk, rfl, rfl, rfl, rfl⟩

lemma mapConditions_nodup (g : ℕ) : (sys.mapConditions redundant g).Nodup := by
  refine List.nodup_flatMap.mpr ⟨fun dof _ => List.nodup_flatMap.mpr
    ⟨fun i _ => ?_, List.nodup_range.imp fun {a b} hab => ?_⟩,
    List.nodup_range.imp fun {a b} hab => ?_⟩
  · exact (regionNodes_nodup sys g dof).map fun k l h => by simpa using h
  · intro m hm hm'
    obtain ⟨_, -, rfl⟩ := List.mem_map.mp hm
    obtain ⟨_, -, h⟩ := List.mem_map.mp hm'
    simp only [Prod.mk.injEq] at h
    exact hab h.2.2.1.symm
  · intro m hm hm'
    simp only [List.mem_flatMap, List.mem_map] at hm hm'
    obtain ⟨_, _, _, _, rfl⟩ := hm
    obtain ⟨_, _, _, _, h⟩ := hm'
    simp only [Prod.mk.injEq] at h
    exact hab h.2.1.symm

/-- The conditions with rows on a rank, in the order of the map. -/
def rankConditions (sys : System) (redundant : Bool) (r : ℕ) : List Condition :=
  ((sys.ids r).flatMap (sys.mapConditions redundant)).filter
    fun m => sys.rankOf (sys.domainAt m.1 m.2.2.1) = r

lemma mem_rankConditions {r : ℕ} {m : Condition} :
    m ∈ sys.rankConditions redundant r ↔
      m ∈ sys.conditions redundant ∧ sys.rankOf (sys.domainAt m.1 m.2.2.1) = r := by
  simp only [rankConditions, List.mem_filter, decide_eq_true_eq, List.mem_flatMap]
  refine and_congr_left fun hrank => ⟨?_, fun hm => ?_⟩
  · rintro ⟨g, hg, hm⟩
    exact ((mem_mapConditions (mem_ids.mp hg).1).mp hm).2
  · have hr : r ∈ sys.iranks m.1 := by
      rw [← hrank]
      exact List.mem_map_of_mem (domainAt_mem (lt_of_lt_of_le hm.2.2.1 (copies_le _ _ _)))
    exact ⟨m.1, mem_ids.mpr ⟨hm.1, hr⟩, (mem_mapConditions hm.1).mpr ⟨rfl, hm⟩⟩

lemma rankConditions_nodup (r : ℕ) : (sys.rankConditions redundant r).Nodup := by
  refine List.Nodup.filter _ (List.nodup_flatMap.mpr
    ⟨fun g _ => mapConditions_nodup g, (List.nodup_range.filter _).imp fun {g h} hgh => ?_⟩)
  intro m hm hm'
  simp only [mapConditions, List.mem_flatMap, List.mem_map] at hm hm'
  obtain ⟨_, _, _, _, _, _, rfl⟩ := hm
  obtain ⟨_, _, _, _, _, _, h⟩ := hm'
  exact hgh (Prod.mk.inj h).1.symm

/-- **The map of a rank after `B1DirichletInsert`** on cleared arrays. -/
theorem B1DirichletInsert_map (sys : System) (redundant : Bool) (r : ℕ) (reduction : ℚ) :
    (B1DirichletInsert sys.DOFs redundant reduction (sys.mesh r) (sys.constraints redundant r)
        Instance.clear).B1clustersMap
      = (sys.rankConditions redundant r).map fun m => [sys.dirichletRow redundant m - 1, r] := by
  have hfilter : ∀ l : List Condition, l.flatMap (sys.mapCondition redundant r)
      = (l.filter fun m => sys.rankOf (sys.domainAt m.1 m.2.2.1) = r).map
        fun m => [sys.dirichletRow redundant m - 1, r] := by
    intro l
    induction l with
    | nil => rfl
    | cons m l ih =>
        rw [List.flatMap_cons, ih, List.filter_cons, mapCondition]
        simp only [decide_eq_true_eq]
        split_ifs <;> rfl
  have hmap : (sys.constraints redundant r).intervals.flatMap (fun i =>
        dirichletClusters redundant (sys.mesh r).rank i.pinterval i.intervalDirichletOffset
          (List.range sys.DOFs))
      = (sys.rankConditions redundant r).map fun m => [sys.dirichletRow redundant m - 1, r] := by
    rw [rankConditions, ← hfilter, List.flatMap_assoc, constraints, List.flatMap_map]
    refine List.flatMap_congr fun g _ => ?_
    have h := dirichletClusters_eq sys redundant r g sys.DOFs 0
    rw [start_zero, Nat.mul_zero, Nat.add_zero, ← List.range_eq_range'] at h
    exact h
  by_cases hzero : (sys.constraints redundant r).dirichletSize = 0
  · have hconds : sys.rankConditions redundant r = [] :=
      List.eq_nil_iff_forall_not_mem.mpr fun m hm => by
        have h := (dirichletRow_bijOn sys redundant).mapsTo (mem_rankConditions.mp hm).1
        have hzero' : sys.dirichletSize redundant = 0 := hzero
        rw [hzero'] at h
        have h₁ := h.1
        have h₂ := h.2
        omega
    rw [B1DirichletInsert, if_pos hzero, hconds]
    rfl
  · rw [B1DirichletInsert, if_neg hzero]
    simp only [hmap, Instance.clear, List.nil_append]

/-! ## Rows, columns, maps and values together -/

/-- **Dirichlet rows as they should be**: the numbers from 1 to `dirichletSize` are in bijection with
the conditions; every domain of every rank has exactly one entry, with value 1, for each condition
that stands at its position, in the row of the condition and the column of its node and degree of
freedom; `B1subdomainsMap` and `B1c` list the rows (from 0) and the values in the order of the
entries; and `B1clustersMap` lists the rows of the rank. -/
def DirichletInserted (sys : System) (redundant : Bool) (reduction : ℚ) : Prop :=
  ∃ row : Condition → ℕ, ∀ r < sys.ranks, ∃ c,
    update sys.mesh sys.ranks sys.DOFs redundant r = some c ∧
    Set.BijOn row (sys.conditions redundant) (Set.Icc 1 c.dirichletSize) ∧
    let after := B1DirichletInsert sys.DOFs redundant reduction (sys.mesh r) c Instance.clear
    (∀ d < (sys.mesh r).ndomains, ∃ l : List Condition, l.Nodup ∧
      (∀ m, m ∈ l ↔ m ∈ sys.conditions redundant ∧
        sys.domainAt m.1 m.2.2.1 = sys.distribution.border r + d) ∧
      DomainInstance.clear.Grows (after.domains d)
        (l.map (sys.conditionEntry row (sys.distribution.border r + d))) ∧
      (after.domains d).B1subdomainsMap = l.map (fun m => row m - 1) ∧
      (after.domains d).B1c = l.map (sys.conditionValue reduction)) ∧
    (after.B1clustersMap.map mapRow).Nodup ∧
    ∀ i, i ∈ after.B1clustersMap.map mapRow ↔ ∃ m ∈ sys.conditions redundant, i = row m - 1 ∧
      sys.rankOf (sys.domainAt m.1 m.2.2.1) = r

lemma row_of_inserted (reduction : ℚ) {row : Condition → ℕ} {m : Condition}
    (hm : m ∈ sys.conditions redundant)
    (h : ∀ r < sys.ranks, ∀ d < (sys.mesh r).ndomains, ∃ l : List Condition,
      (∀ m, m ∈ l ↔ m ∈ sys.conditions redundant ∧
        sys.domainAt m.1 m.2.2.1 = sys.distribution.border r + d) ∧
      DomainInstance.clear.Grows ((B1DirichletInsert sys.DOFs redundant reduction (sys.mesh r)
          (sys.constraints redundant r) Instance.clear).domains d)
        (l.map (sys.conditionEntry row (sys.distribution.border r + d)))) :
    row m = sys.insertedRow redundant m := by
  have hi : m.2.2.1 < sys.ndomains m.1 := lt_of_lt_of_le hm.2.2.1 (copies_le _ _ _)
  have hmem := domainAt_mem hi
  obtain ⟨hr, hle, hlt⟩ := rankOf_spec (sys.domains_lt m.1 hm.1 _ hmem)
  set domain := sys.domainAt m.1 m.2.2.1 with hdomain
  set r := sys.rankOf domain
  obtain ⟨d, hd⟩ : ∃ d, domain = sys.distribution.border r + d := ⟨_, (Nat.add_sub_of_le hle).symm⟩
  have hd' : d < (sys.mesh r).ndomains := by
    change d < sys.distribution.border (r + 1) - sys.distribution.border r
    omega
  obtain ⟨l, hl, hgrows⟩ := h r hr d hd'
  have hunique := hgrows.unique (B1DirichletInsert_inserts redundant hr hd' reduction).1
  rw [← hd] at hl hunique
  have hentry : sys.conditionEntry row domain m ∈ l.map (sys.conditionEntry row domain) :=
    List.mem_map_of_mem ((hl m).mpr ⟨hm, rfl⟩)
  rw [hunique] at hentry
  obtain ⟨n, hn, heq⟩ := List.mem_map.mp hentry
  obtain ⟨hn, hnat⟩ := mem_domainConditions.mp hn
  have hni : n.2.2.1 < sys.ndomains n.1 := lt_of_lt_of_le hn.2.2.1 (copies_le _ _ _)
  have hlt : ∀ m ∈ sys.conditions redundant, m.2.2.2 < (sys.interval m.1).size :=
    fun m hm => dirichlet_lt (mem_regionNodes.mp hm.2.2.2)
  obtain ⟨hg, hx⟩ := column_injOn (x := (n.2.1, n.2.2.2)) (y := (m.2.1, m.2.2.2))
    (hnat ▸ domainAt_mem hni) hmem hn.2.1 hm.2.1 (hlt n hn) (hlt m hm) (congrArg Entry.col heq)
  obtain ⟨hdof, hk⟩ := Prod.mk.inj hx
  have hpos : n.2.2.1 = m.2.2.1 := by
    rw [hg] at hnat hni
    exact domainAt_inj hni hi hnat
  have hnm : n = m := Prod.ext hg (Prod.ext hdof (Prod.ext hpos hk))
  rw [← hnm] at heq ⊢
  exact (congrArg Entry.row heq).symm

lemma dirichletRow_le (m : Condition) :
    sys.dirichletRow redundant m ≤ sys.insertedRow redundant m := by
  have h := Nat.mul_le_mul_right (start (fun dof => (sys.dirichlet m.1 dof).length) m.2.1)
    (copies_le sys redundant m.1)
  simp only [dirichletRow, insertedRow, conditionPosition]
  omega

/-- The loops number the rows without gaps only if they follow the intended numbering. -/
lemma inserted_eqOn {reduction : ℚ} {r : ℕ} (hr : r < sys.ranks)
    (h : sys.DirichletInserted redundant reduction) :
    Set.EqOn (sys.dirichletRow redundant) (sys.insertedRow redundant)
      (sys.conditions redundant) := by
  obtain ⟨row, h⟩ := h
  have hc : ∀ r < sys.ranks, ∀ c, update sys.mesh sys.ranks sys.DOFs redundant r = some c →
      c = sys.constraints redundant r :=
    fun r hr c hc => Option.some.inj (hc.symm.trans (update_eq sys redundant hr))
  have hrow : Set.EqOn row (sys.insertedRow redundant) (sys.conditions redundant) := by
    intro m hm
    refine row_of_inserted reduction hm fun r hr d hd => ?_
    obtain ⟨c, hupdate, -, hdomains, -⟩ := h r hr
    obtain ⟨l, -, hl, hgrows, -⟩ := hdomains d hd
    rw [hc r hr c hupdate] at hgrows
    exact ⟨l, hl, hgrows⟩
  obtain ⟨c, hupdate, hbij, -⟩ := h r hr
  rw [hc r hr c hupdate] at hbij
  exact eqOn_of_bijOn_of_le (Set.finite_Icc _ _) (dirichletRow_bijOn sys redundant)
    (hbij.congr hrow) fun m _ => dirichletRow_le m

lemma insertedRow_eqOn (h : redundant = false → ∀ g < sys.count, 2 ≤ sys.ndomains g →
      ∀ dof < sys.DOFs, ∀ dof' < sys.DOFs, sys.dirichlet g dof ≠ [] → sys.dirichlet g dof' ≠ [] →
        dof = dof') :
    Set.EqOn (sys.dirichletRow redundant) (sys.insertedRow redundant)
      (sys.conditions redundant) := by
  rintro ⟨g, dof, i, k⟩ ⟨hg, hdof, hi, hk⟩
  simp only at hg hdof hi hk
  have hstride : sys.copies redundant g * start (fun dof => (sys.dirichlet g dof).length) dof
      = sys.ndomains g * start (fun dof => (sys.dirichlet g dof).length) dof := by
    cases redundant with
    | true => rfl
    | false =>
        have hpos := ndomains_pos sys g
        rcases Nat.lt_or_ge (sys.ndomains g) 2 with hn | hn
        · rw [show sys.ndomains g = 1 by omega]
          rfl
        · have hfirst : start (fun dof => (sys.dirichlet g dof).length) dof = 0 := by
            refine Finset.sum_eq_zero fun dof' hdof' => ?_
            have hlt := Finset.mem_range.mp hdof'
            by_contra hne
            have heq := h rfl g hg hn dof' (lt_trans hlt hdof) dof hdof
              (fun hnil => hne (by rw [hnil]; rfl))
              (List.ne_nil_of_mem (mem_regionNodes.mp hk))
            omega
          rw [hfirst, Nat.mul_zero, Nat.mul_zero]
  simp only [dirichletRow, insertedRow, conditionPosition, hstride]

lemma insertedRow_skips {g dof dof' : ℕ} (hg : g < sys.count) (hn : 2 ≤ sys.ndomains g)
    (hlt : dof < dof') (hdof' : dof' < sys.DOFs) (hne : sys.dirichlet g dof ≠ [])
    (hne' : sys.dirichlet g dof' ≠ []) :
    ¬Set.EqOn (sys.dirichletRow false) (sys.insertedRow false) (sys.conditions false) := by
  intro heq
  obtain ⟨k, hk⟩ := List.exists_mem_of_ne_nil _ hne'
  have hrow := heq (show (g, dof', (0, k)) ∈ sys.conditions false from
    ⟨hg, hdof', Nat.zero_lt_one, mem_regionNodes.mpr hk⟩)
  have hstart := start_add_le (fun dof => (sys.dirichlet g dof).length) hlt
  have hpos := List.length_pos_of_ne_nil hne
  simp only [dirichletRow, insertedRow, conditionPosition, copies, Bool.false_eq_true,
    if_false] at hrow
  have hmul := Nat.mul_le_mul_right (start (fun dof => (sys.dirichlet g dof).length) dof') hn
  omega

/-- **The Dirichlet rows are right** with redundant multipliers, and without them exactly if on every
interval of two or more domains at most one degree of freedom is prescribed. -/
theorem dirichlet_inserted_iff (sys : System) (redundant : Bool) (reduction : ℚ) :
    sys.DirichletInserted redundant reduction ↔
      (redundant = false → ∀ g < sys.count, 2 ≤ sys.ndomains g → ∀ dof < sys.DOFs,
        ∀ dof' < sys.DOFs, sys.dirichlet g dof ≠ [] → sys.dirichlet g dof' ≠ [] → dof = dof') := by
  constructor
  · rintro h rfl g hg hn dof hdof dof' hdof' hne hne'
    obtain ⟨hr, -⟩ := rankOf_spec (sys.domains_lt g hg _ (sys.interval g).front_mem)
    have heq := inserted_eqOn hr h
    rcases lt_trichotomy dof dof' with hlt | rfl | hlt
    · exact absurd heq (insertedRow_skips hg hn hlt hdof' hne hne')
    · rfl
    · exact absurd heq (insertedRow_skips hg hn hlt hdof hne' hne)
  · intro h
    have heq := insertedRow_eqOn h
    have hbij := dirichletRow_bijOn sys redundant
    refine ⟨sys.dirichletRow redundant, fun r hr => ⟨_, update_eq sys redundant hr, hbij, ?_⟩⟩
    have hmap := B1DirichletInsert_map sys redundant r reduction
    refine ⟨fun d hd => ?_, ?_, fun i => ?_⟩
    · obtain ⟨hgrows, hsub, hvalues⟩ :=
        B1DirichletInsert_inserts redundant hr hd reduction
      refine ⟨_, domainConditions_nodup _, fun m => mem_domainConditions, ?_, ?_, hvalues⟩
      · refine Eq.mp (congrArg _ (List.map_congr_left fun m hm => ?_)) hgrows
        rw [conditionEntry, ← heq (mem_domainConditions.mp hm).1]
        rfl
      · refine hsub.trans (List.map_congr_left fun m hm => ?_)
        rw [heq (mem_domainConditions.mp hm).1]
    · simp only [constraints] at hmap
      rw [hmap, List.map_map]
      refine (rankConditions_nodup r).map_on fun m hm n hn h => ?_
      have hm := (mem_rankConditions.mp hm).1
      have hn := (mem_rankConditions.mp hn).1
      have h₁ := (hbij.mapsTo hm).1
      have h₂ := (hbij.mapsTo hn).1
      have h : sys.dirichletRow redundant m - 1 = sys.dirichletRow redundant n - 1 := h
      exact hbij.injOn hm hn (by omega)
    · simp only [constraints] at hmap
      rw [hmap, List.map_map]
      simp only [List.mem_map, mem_rankConditions]
      constructor
      · rintro ⟨m, ⟨hm, hrank⟩, rfl⟩
        exact ⟨m, hm, rfl, hrank⟩
      · rintro ⟨m, hm, rfl, hrank⟩
        exact ⟨m, ⟨hm, hrank⟩, rfl⟩

end System

/-- A node of two domains with two prescribed degrees of freedom. -/
def twoDomains : System where
  ranks := 1
  domains := 2
  distribution := ⟨[0, 2], by decide, by decide, by decide, by decide⟩
  DOFs := 2
  DOFs_pos := Nat.zero_lt_two
  count := 1
  interval _ :=
    { domains := [0, 1]
      nonempty := Interval.pair_nonempty
      ascending := Interval.pair_ascending
      size := 1
      regions := fun _ => [⟨[0], fun _ => 0⟩]
      region_sorted := by simp
      region_lt := by simp
      region_disjoint := by simp }
  domains_lt := by decide
  neighbours _ := []
  neighbours_sorted := System.noNeighbours_sorted
  neighbours_lt := System.noNeighbours_lt
  neighbours_irrefl := System.noNeighbours_irrefl
  neighbours_symm := System.noNeighbours_symm
  neighbours_of_shared := by
    intro g _ d hd e he r q h₁ _ h₃ _ hne
    have hfirst : ∀ r x : ℕ, x ∈ [0, 1] → [0, 2].getD r 2 ≤ x → r = 0 := by
      intro r x hx h
      match r with
      | 0 => rfl
      | 1 | r + 2 => simp at hx h; omega
    exact absurd ((hfirst r d hd h₁).trans (hfirst q e he h₃).symm) hne
  count_le := System.one_le_limit

/-- Without redundant multipliers, the rows of the node are not numbered one after the other. -/
theorem twoDomains_not_inserted : ¬twoDomains.DirichletInserted false 1 := by
  intro h
  have hnodes : ∀ dof, twoDomains.dirichlet 0 dof ≠ [] := by
    intro dof
    have hmem : 0 ∈ twoDomains.regionNodes 0 dof := List.mem_singleton_self 0
    exact List.ne_nil_of_mem (System.mem_regionNodes.mp hmem)
  have heq := System.inserted_eqOn Nat.zero_lt_one h
  exact System.insertedRow_skips (by decide) (by decide) Nat.zero_lt_one (by decide) (hnodes 0)
    (hnodes 1) heq

end Espreso
