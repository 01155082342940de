import Espreso.Constraints.Glue

/-!
# What the gluing loops generate

The entries of a domain in closed form: the counters of the loops are positions in the list of the
nodes and degrees of freedom that are glued.

* **`redundantglue_holds`**, **`glueBetween_holds`**, **`nonredundantglue_holds`** — the lambdas
  and the loop that cuts out Dirichlet nodes.
* **`B1GlueElements_grows`** — the entries of a domain.
* **`redundant_glues`** — with redundant multipliers every pair of domains is glued by a row of
  its own.
-/

namespace Espreso

open Layout

/-! ## What a domain generates -/

/-- The entries of one degree of freedom of a node with redundant multipliers. -/
def redundantEntries (n δ LMindex col : ℕ) : List Entry :=
  (gluePartners true n δ).map fun p =>
    ⟨LMindex + pairIndex n (min δ p) (max δ p) + 1, col, if p < δ then -1 else 1⟩

/-- The entries of one degree of freedom of a node without redundant multipliers. -/
def nonredundantEntries (n δ LMindex col : ℕ) : List Entry :=
  (gluePartners false n δ).map fun p => ⟨LMindex + min δ p + 1, col, if p < δ then -1 else 1⟩

section Domain

variable (DOFs : ℕ) (interval : GluingInterval ConstrainedInterval)

lemma sum_rows (n δ : ℕ) :
    ((List.range δ).map fun lm => n - (lm + 1)).sum = start (fun l => n - 1 - l) δ := by
  have hsize : (fun lm => n - (lm + 1)) = fun l => n - 1 - l := by
    funext l
    omega
  rw [hsize]
  simpa using sum_filter_range (fun l => n - 1 - l) (fun _ => True) δ

lemma redundantNode_holds (dof LMindex DOFindex : ℕ) :
    (redundantNode DOFs interval dof LMindex DOFindex).1.Holds
      (redundantEntries interval.ndomains interval.dindex LMindex (DOFs * DOFindex + dof + 1)) := by
  obtain ⟨i, D, δ, n⟩ := interval
  have hsize : (fun lm => n - (lm + 1)) = fun l => n - 1 - l := by
    funext l
    omega
  refine ⟨?_, ?_, ?_⟩
  · simp only [redundantNode, redundantEntries, gluePartners, if_true, List.map_append, List.map_map,
      sum_rows]
    rw [hsize, accumulate_range, accumulate_range']
    congr 1
    · refine List.map_congr_left fun lm hlm => ?_
      have := List.mem_range.mp hlm
      simp only [Function.comp, pairIndex, min_eq_right (le_of_lt this), max_eq_left (le_of_lt this)]
      omega
    · refine List.map_congr_left fun lm hlm => ?_
      have := (List.mem_range'_1.mp hlm).1
      simp only [Function.comp, pairIndex, min_eq_left (show δ ≤ lm by omega),
        max_eq_right (show δ ≤ lm by omega)]
      omega
  · simp only [redundantNode, redundantEntries, gluePartners, if_true, List.map_map]
    rfl
  · simp only [redundantNode, redundantEntries, gluePartners, if_true, List.map_append, List.map_map]
    congr 1
    · refine (List.eq_replicate_iff.mpr ⟨by simp, fun v hv => ?_⟩).symm
      obtain ⟨lm, hlm, rfl⟩ := List.mem_map.mp hv
      simp [List.mem_range.mp hlm]
    · refine (List.eq_replicate_iff.mpr ⟨by simp; omega, fun v hv => ?_⟩).symm
      obtain ⟨lm, hlm, rfl⟩ := List.mem_map.mp hv
      have := (List.mem_range'_1.mp hlm).1
      simp [show ¬ lm < δ by omega]

lemma redundantNode_next {interval} (hδ : interval.dindex < interval.ndomains) (dof LMindex DOFindex : ℕ) :
    (redundantNode DOFs interval dof LMindex DOFindex).2
      = LMindex + noffset true interval.ndomains := by
  have hall := start_pairs_split hδ
  have hupper : ((List.range' (interval.dindex + 1) (interval.ndomains - (interval.dindex + 1))).map
      fun _ => 1).sum = interval.ndomains - interval.dindex - 1 := by
    simp
    omega
  simp only [redundantNode, sum_rows, hupper, noffset, if_true]
  omega

/-- The entries of one degree of freedom on some nodes of an interval, by a counter of nodes. -/
def countedEntries (LMcounter dof : ℕ) (nodes : List ℕ) : List Entry :=
  (accumulate (fun _ => 1) (fun c k => redundantEntries interval.ndomains interval.dindex
      (interval.interval.intervalGluingOffset + c * noffset true interval.ndomains)
      (DOFs * (interval.DOFOffset + k) + dof + 1)) LMcounter nodes).flatten

lemma countedEntries_append (LMcounter dof : ℕ) (k l : List ℕ) :
    countedEntries DOFs interval LMcounter dof (k ++ l) = countedEntries DOFs interval LMcounter dof k
      ++ countedEntries DOFs interval (LMcounter + k.length) dof l := by
  have hsum : (k.map fun _ => 1).sum = k.length := by simp
  rw [countedEntries, accumulate_append, List.flatten_append, hsum]
  rfl

lemma redundantNodes_holds {interval} (hδ : interval.dindex < interval.ndomains) (dof : ℕ) :
    ∀ nodes LMcounter k : ℕ,
      (redundantNodes DOFs interval dof nodes
          (interval.interval.intervalGluingOffset + LMcounter * noffset true interval.ndomains)
          (interval.DOFOffset + k) LMcounter).1.Holds
        (countedEntries DOFs interval LMcounter dof (List.range' k nodes)) ∧
      (redundantNodes DOFs interval dof nodes
          (interval.interval.intervalGluingOffset + LMcounter * noffset true interval.ndomains)
          (interval.DOFOffset + k) LMcounter).2 = LMcounter + nodes := by
  intro nodes
  induction nodes with
  | zero => exact fun _ _ => ⟨Piece.holds_nil, rfl⟩
  | succ nodes ih =>
      intro LMcounter k
      obtain ⟨ih₁, ih₂⟩ := ih (LMcounter + 1) (k + 1)
      have hindex : interval.interval.intervalGluingOffset
          + LMcounter * noffset true interval.ndomains + noffset true interval.ndomains
          = interval.interval.intervalGluingOffset
            + (LMcounter + 1) * noffset true interval.ndomains := by ring
      rw [redundantNodes, redundantNode_next DOFs hδ, hindex, Nat.add_assoc, List.range'_succ]
      refine ⟨(redundantNode_holds DOFs interval dof _ _).append ih₁, ?_⟩
      simp only [ih₂]
      omega

/-- **`redundantglue`** writes the rows of the nodes `begin' .. end'`. -/
lemma redundantglue_holds {interval} (hδ : interval.dindex < interval.ndomains) (ioffset b e LMcounter dof : ℕ)
    (hbegin : interval.interval.pinterval.begin' = ioffset) :
    (redundantglue DOFs interval (ioffset + b) (ioffset + e) LMcounter dof).1.Holds
        (countedEntries DOFs interval LMcounter dof (List.range' b (e - b))) ∧
      (redundantglue DOFs interval (ioffset + b) (ioffset + e) LMcounter dof).2
        = LMcounter + (List.range' b (e - b)).length := by
  have hlength : ioffset + e - (ioffset + b) = e - b := by omega
  obtain ⟨h₁, h₂⟩ := redundantNodes_holds DOFs hδ dof (e - b) LMcounter b
  have hduplicity : Piece.Holds ⟨[], [], [],
      List.replicate ((e - b) * (interval.ndomains - 1)) (1 / (interval.ndomains : ℚ))⟩ [] :=
    ⟨rfl, rfl, rfl⟩
  have h := h₁.append hduplicity
  rw [List.append_nil] at h
  simp only [redundantglue, hlength, hbegin, Nat.add_sub_cancel_left]
  exact ⟨h, by rw [List.length_range']; exact h₂⟩

lemma filter_cut {n c e : ℕ} {ends : List ℕ} (hce : c ≤ e) (hen : e < n)
    (hends : ∀ x ∈ ends, e < x) :
    (List.range' c (n - c)).filter (fun k => k ∉ e :: ends)
      = List.range' c (e - c) ++ (List.range' (e + 1) (n - (e + 1))).filter fun k => k ∉ ends := by
  have hsplit : List.range' c (n - c)
      = List.range' c (e - c) ++ e :: List.range' (e + 1) (n - (e + 1)) := by
    rw [show n - c = e - c + (n - (e + 1) + 1) by omega, ← List.range'_append_1,
      show c + (e - c) = e by omega, List.range'_succ]
  rw [hsplit, List.filter_append, List.filter_cons_of_neg (by simp)]
  congr 1
  · refine List.filter_eq_self.mpr fun k hk => ?_
    have hke := (List.mem_range'_1.mp hk).2
    have hkends : k ∉ ends := fun h => by
      have := hends k h
      omega
    simp only [List.mem_cons, not_or, decide_eq_true_eq]
    exact ⟨by omega, hkends⟩
  · refine List.filter_congr fun k hk => ?_
    have := (List.mem_range'_1.mp hk).1
    simp [show k ≠ e by omega]

lemma glueBetween_holds {interval} (hδ : interval.dindex < interval.ndomains) {ioffset n : ℕ}
    (hbegin : interval.interval.pinterval.begin' = ioffset)
    (hend : interval.interval.pinterval.end' = ioffset + n) (dof : ℕ) :
    ∀ (ends : List ℕ) (c LMcounter : ℕ), ends.Pairwise (· < ·) →
      (∀ e ∈ ends, c ≤ e ∧ e < n) →
      (glueBetween DOFs interval dof (ends.map (ioffset + ·)) (ioffset + c) LMcounter).1.Holds
          (countedEntries DOFs interval LMcounter dof
            ((List.range' c (n - c)).filter fun k => k ∉ ends)) ∧
        (glueBetween DOFs interval dof (ends.map (ioffset + ·)) (ioffset + c) LMcounter).2
          = LMcounter + ((List.range' c (n - c)).filter fun k => k ∉ ends).length := by
  intro ends
  induction ends with
  | nil =>
      intro c LMcounter _ _
      have hall : (List.range' c (n - c)).filter (fun k => k ∉ ([] : List ℕ))
          = List.range' c (n - c) := List.filter_eq_self.mpr fun k _ => by simp
      rw [hall, List.map_nil, glueBetween, hend]
      exact redundantglue_holds DOFs hδ ioffset c n LMcounter dof hbegin
  | cons e ends ih =>
      intro c LMcounter hsorted hbounds
      obtain ⟨hlt, hsorted⟩ := List.pairwise_cons.mp hsorted
      obtain ⟨hce, hen⟩ := hbounds e (by simp)
      obtain ⟨h₁, h₂⟩ := redundantglue_holds DOFs hδ ioffset c e LMcounter dof hbegin
      obtain ⟨ih₁, ih₂⟩ := ih (e + 1) (LMcounter + (List.range' c (e - c)).length) hsorted
        fun x hx => ⟨hlt x hx, (hbounds x (by simp [hx])).2⟩
      rw [filter_cut hce hen hlt, countedEntries_append, List.length_append, List.map_cons,
        glueBetween, h₂]
      exact ⟨h₁.append ih₁, by rw [← Nat.add_assoc]; exact ih₂⟩

lemma nonredundantNode_holds (dof LMindex lm DOFindex : ℕ) :
    (nonredundantNode DOFs interval dof LMindex lm DOFindex).Holds
      (nonredundantEntries interval.ndomains interval.dindex (LMindex + lm)
        (DOFs * DOFindex + dof + 1)) := by
  have hpartners : gluePartners false interval.ndomains interval.dindex
      = (if interval.dindex ≠ 0 then [interval.dindex - 1] else [])
        ++ (if interval.dindex + 1 < interval.ndomains then [interval.dindex + 1] else []) := rfl
  rw [nonredundantEntries, hpartners, List.map_append]
  refine Piece.Holds.append ?_ ?_
  · by_cases h : interval.dindex = 0
    · rw [if_neg (not_not.mpr h), if_neg (not_not.mpr h)]
      exact Piece.holds_nil
    · have hmin : LMindex + interval.dindex + lm = LMindex + lm + (interval.dindex - 1) + 1 := by
        omega
      rw [if_pos h, if_pos h, List.map_singleton, hmin,
        min_eq_right (show interval.dindex - 1 ≤ interval.dindex by omega),
        if_pos (show interval.dindex - 1 < interval.dindex by omega)]
      exact ⟨rfl, rfl, rfl⟩
  · by_cases h : interval.dindex + 1 < interval.ndomains
    · have hmin : LMindex + interval.dindex + 1 + lm = LMindex + lm + interval.dindex + 1 := by
        omega
      rw [if_pos h, if_pos h, List.map_singleton, hmin,
        min_eq_left (show interval.dindex ≤ interval.dindex + 1 by omega),
        if_neg (show ¬ interval.dindex + 1 < interval.dindex by omega)]
      exact ⟨rfl, rfl, rfl⟩
    · rw [if_neg h, if_neg h]
      exact Piece.holds_nil

lemma nonredundantNodes_holds (dof LMindex : ℕ) :
    ∀ nodes k LMcounter : ℕ,
      (nonredundantNodes DOFs interval dof LMindex nodes k (interval.DOFOffset + k) LMcounter).1.Holds
        ((List.range' k nodes).flatMap fun k => nonredundantEntries interval.ndomains
          interval.dindex (LMindex + k) (DOFs * (interval.DOFOffset + k) + dof + 1)) ∧
      (nonredundantNodes DOFs interval dof LMindex nodes k (interval.DOFOffset + k) LMcounter).2
        = LMcounter + nodes := by
  intro nodes
  induction nodes with
  | zero => exact fun _ _ => ⟨Piece.holds_nil, rfl⟩
  | succ nodes ih =>
      intro k LMcounter
      obtain ⟨ih₁, ih₂⟩ := ih (k + 1) (LMcounter + 1)
      rw [nonredundantNodes, Nat.add_assoc interval.DOFOffset, List.range'_succ, List.flatMap_cons]
      refine ⟨(nonredundantNode_holds DOFs interval dof LMindex k _).append ih₁, ?_⟩
      rw [ih₂]
      omega

/-- **`nonredundantglue`** on all nodes of an interval. -/
lemma nonredundantglue_holds {ioffset n : ℕ}
    (hbegin : interval.interval.pinterval.begin' = ioffset) (LMcounter dof : ℕ) :
    (nonredundantglue DOFs interval ioffset (ioffset + n) LMcounter dof).1.Holds
        ((List.range n).flatMap fun k => nonredundantEntries interval.ndomains interval.dindex
          (interval.interval.intervalGluingOffset + LMcounter * (interval.ndomains - 1) + k)
          (DOFs * (interval.DOFOffset + k) + dof + 1)) ∧
      (nonredundantglue DOFs interval ioffset (ioffset + n) LMcounter dof).2 = LMcounter + n := by
  obtain ⟨h₁, h₂⟩ := nonredundantNodes_holds DOFs interval dof
    (interval.interval.intervalGluingOffset + LMcounter * (interval.ndomains - 1)) n 0 LMcounter
  have hduplicity : ∀ p : Prop, ∀ [Decidable p], Piece.Holds (if p then
      ⟨[], [], [], List.replicate n (1 / (interval.ndomains : ℚ))⟩ else ∅) [] := by
    intro p _
    by_cases hp : p
    · rw [if_pos hp]
      exact ⟨rfl, rfl, rfl⟩
    · rw [if_neg hp]
      exact Piece.holds_nil
  have h := (h₁.append (hduplicity (interval.dindex ≠ 0))).append
    (hduplicity (interval.dindex + 1 < interval.ndomains))
  rw [List.append_nil, List.append_nil] at h
  simp only [nonredundantglue, hbegin, Nat.add_sub_cancel_left, Nat.sub_self]
  rw [List.range_eq_range']
  exact ⟨h, h₂⟩

end Domain

namespace System

variable (sys : System) (redundant : Bool)

/-- The rows in which a domain of an interval takes part, in the order of the loops. -/
def intervalMultipliers (d g : ℕ) : List Multiplier :=
  let δ := lowerBound (sys.interval g).domains d
  (sys.gluedDOFs redundant g).flatMap fun x =>
    (gluePartners redundant (sys.ndomains g) δ).map fun p => (g, x, (min δ p, max δ p))

/-- The rows in which a domain takes part, in the order of the loops. -/
def domainMultipliers (d : ℕ) : List Multiplier :=
  (sys.domainIds d).flatMap (sys.intervalMultipliers redundant d)

def generatedRow (m : Multiplier) : ℕ :=
  if redundant then sys.gluingRow true m
  else sys.dirichletSize false + sys.offset (sys.gluingRows false) m.1
    + m.2.1.1 * (sys.interval m.1).size * (sys.ndomains m.1 - 1) + m.2.1.2 + m.2.2.1 + 1

/-- The entry of domain `d` in a row: `1` for the first domain of the pair, `-1` for the second. -/
def entry (row : Multiplier → ℕ) (d : ℕ) (m : Multiplier) : Entry :=
  ⟨row m, sys.column d m.1 m.2.1, if sys.domainAt m.1 m.2.2.1 = d then 1 else -1⟩

/-- Interval `g` as domain `d` holds it after `update`. -/
def gluing (d g : ℕ) : GluingInterval ConstrainedInterval :=
  ⟨sys.constrained redundant (sys.rankOf d) g, sys.dofOffset d g,
    lowerBound (sys.interval g).domains d, sys.ndomains g⟩

variable {sys redundant}

lemma mem_gluePartners {n δ p : ℕ} (hδ : δ < n) :
    p ∈ gluePartners redundant n δ ↔
      p < n ∧ p ≠ δ ∧ (redundant = false → p + 1 = δ ∨ p = δ + 1) := by
  cases redundant with
  | true =>
      simp only [gluePartners, if_true, List.mem_append, List.mem_range, List.mem_range'_1]
      simp
      omega
  | false =>
      simp only [gluePartners, Bool.false_eq_true, if_false, List.mem_append]
      by_cases h₁ : δ = 0 <;> by_cases h₂ : δ + 1 < n <;> simp [h₁, h₂] <;> omega

lemma entry_value {d g : ℕ} (hd : d ∈ (sys.interval g).domains) (row : Multiplier → ℕ) (x : ℕ × ℕ)
    {p : ℕ} (hp : p ∈ gluePartners redundant (sys.ndomains g) (lowerBound (sys.interval g).domains d)) :
    sys.entry row d (g, x, (min (lowerBound (sys.interval g).domains d) p,
        max (lowerBound (sys.interval g).domains d) p))
      = ⟨row (g, x, (min (lowerBound (sys.interval g).domains d) p,
          max (lowerBound (sys.interval g).domains d) p)), sys.column d g x,
          if p < lowerBound (sys.interval g).domains d then -1 else 1⟩ := by
  obtain ⟨hδ, hat⟩ := domainAt_lowerBound hd
  obtain ⟨hpn, hne, -⟩ := (mem_gluePartners hδ).mp hp
  rcases lt_or_gt_of_ne hne with h | h
  · have hother : sys.domainAt g p ≠ d := fun heq =>
      hne (domainAt_inj hpn hδ (heq.trans hat.symm))
    simp only [entry, min_eq_right (le_of_lt h), if_neg hother, if_pos h]
  · simp only [entry, min_eq_left (le_of_lt h), if_pos hat, if_neg (not_lt.mpr (le_of_lt h))]

lemma redundantDOFs_holds {d g : ℕ} (hd : d ∈ (sys.interval g).domains) :
    ∀ (dofs : List ℕ) (LMcounter : ℕ),
      (glueInterval sys.DOFs true (sys.gluing true d g) dofs LMcounter).Holds
        (accumulate (fun _ => 1) (fun c x =>
            redundantEntries (sys.ndomains g) (lowerBound (sys.interval g).domains d)
              (sys.dirichletSize true + sys.offset (sys.gluingRows true) g
                + c * noffset true (sys.ndomains g)) (sys.column d g x)) LMcounter
          (dofs.flatMap fun dof => (sys.gluedNodes true g dof).map (dof, ·))).flatten := by
  intro dofs
  induction dofs with
  | nil => exact fun _ => Piece.holds_nil
  | cons dof dofs ih =>
      intro LMcounter
      have hnodes : (List.range' 0 ((sys.interval g).size - 0)).filter
          (fun k => k ∉ sys.dirichlet g dof) = sys.gluedNodes true g dof := by
        simp [gluedNodes, List.range_eq_range']
      have hcut : intervalDirichletNodes (sys.gluing true d g).interval.pinterval dof
          = (sys.dirichlet g dof).map ((sys.gluing true d g).interval.pinterval.begin' + ·) :=
        intervalDirichletNodes_view _ _ _
      obtain ⟨h₁, h₂⟩ := glueBetween_holds sys.DOFs (domainAt_lowerBound hd).1
        (rfl : (sys.gluing true d g).interval.pinterval.begin' = _) rfl dof (sys.dirichlet g dof) 0
        LMcounter (dirichlet_sorted g dof) fun e he => ⟨Nat.zero_le e, dirichlet_lt he⟩
      rw [hnodes, ← hcut, Nat.add_zero] at h₁ h₂
      have hsum : (((sys.gluedNodes true g dof).map (dof, ·)).map fun _ => 1).sum
          = (sys.gluedNodes true g dof).length := by simp [Function.comp_def]
      rw [List.flatMap_cons, accumulate_append, List.flatten_append, accumulate_map, hsum, ← h₂]
      exact h₁.append (ih _)

lemma nonredundantDOFs_holds (sys : System) (d g : ℕ) :
    ∀ m a : ℕ, (glueInterval sys.DOFs false (sys.gluing false d g) (List.range' a m)
        (a * (sys.interval g).size)).Holds
      ((List.range' a m).flatMap fun dof => (List.range (sys.interval g).size).flatMap fun k =>
        nonredundantEntries (sys.ndomains g) (lowerBound (sys.interval g).domains d)
          (sys.dirichletSize false + sys.offset (sys.gluingRows false) g
            + dof * (sys.interval g).size * (sys.ndomains g - 1) + k) (sys.column d g (dof, k))) := by
  intro m
  induction m with
  | zero => exact fun _ => Piece.holds_nil
  | succ m ih =>
      intro a
      obtain ⟨h₁, h₂⟩ := nonredundantglue_holds sys.DOFs (sys.gluing false d g)
        (n := (sys.interval g).size) rfl (a * (sys.interval g).size) a
      have hstep : glueInterval sys.DOFs false (sys.gluing false d g) (List.range' a (m + 1))
          (a * (sys.interval g).size)
          = (nonredundantglue sys.DOFs (sys.gluing false d g) (sys.nodeOffset (sys.rankOf d) g)
              (sys.nodeOffset (sys.rankOf d) g + (sys.interval g).size)
              (a * (sys.interval g).size) a).1
            ++ glueInterval sys.DOFs false (sys.gluing false d g) (List.range' (a + 1) m)
              ((a + 1) * (sys.interval g).size) := by
        rw [Nat.succ_mul, ← h₂, List.range'_succ]
        rfl
      rw [hstep, List.range'_succ, List.flatMap_cons]
      exact h₁.append (ih (a + 1))

lemma glueInterval_holds {d g : ℕ} (hd : d ∈ (sys.interval g).domains) :
    (glueInterval sys.DOFs redundant (sys.gluing redundant d g) (List.range sys.DOFs) 0).Holds
      ((sys.intervalMultipliers redundant d g).map
        (sys.entry (sys.generatedRow redundant) d)) := by
  set δ := lowerBound (sys.interval g).domains d with hδ
  have hmap : (sys.intervalMultipliers redundant d g).map
        (sys.entry (sys.generatedRow redundant) d)
      = (sys.gluedDOFs redundant g).flatMap fun x =>
        (gluePartners redundant (sys.ndomains g) δ).map fun p =>
          ⟨sys.generatedRow redundant (g, x, (min δ p, max δ p)), sys.column d g x,
            if p < δ then -1 else 1⟩ := by
    rw [intervalMultipliers, List.map_flatMap]
    refine List.flatMap_congr fun x _ => ?_
    rw [List.map_map]
    exact List.map_congr_left fun p hp => entry_value hd _ x hp
  rw [hmap]
  cases redundant with
  | true =>
      have h := redundantDOFs_holds hd (List.range sys.DOFs) 0
      have hlist : (List.range sys.DOFs).flatMap
          (fun dof => (sys.gluedNodes true g dof).map (dof, ·)) = sys.gluedDOFs true g := rfl
      rw [hlist, accumulate_idxOf _ (gluedDOFs_nodup g), ← List.flatMap_def] at h
      have hentries : ∀ x, redundantEntries (sys.ndomains g) δ
            (sys.dirichletSize true + sys.offset (sys.gluingRows true) g
              + (0 + (sys.gluedDOFs true g).idxOf x) * noffset true (sys.ndomains g))
            (sys.column d g x)
          = (gluePartners true (sys.ndomains g) δ).map fun p =>
            ⟨sys.generatedRow true (g, x, (min δ p, max δ p)), sys.column d g x,
              if p < δ then -1 else 1⟩ := by
        intro x
        simp only [redundantEntries, generatedRow, gluingRow, gluingPosition, pairPosition, if_true,
          Nat.zero_add, Nat.add_assoc]
      simp only [← hentries]
      exact h
  | false =>
      have h := nonredundantDOFs_holds sys d g sys.DOFs 0
      have hlist : sys.gluedDOFs false g
          = (List.range sys.DOFs).flatMap fun dof => (List.range (sys.interval g).size).map (dof, ·) := by
        simp [gluedDOFs, gluedNodes]
      have hentries : ∀ x : ℕ × ℕ, nonredundantEntries (sys.ndomains g) δ
            (sys.dirichletSize false + sys.offset (sys.gluingRows false) g
              + x.1 * (sys.interval g).size * (sys.ndomains g - 1) + x.2) (sys.column d g x)
          = (gluePartners false (sys.ndomains g) δ).map fun p =>
            ⟨sys.generatedRow false (g, x, (min δ p, max δ p)), sys.column d g x,
              if p < δ then -1 else 1⟩ := by
        intro x
        simp only [nonredundantEntries, generatedRow, Bool.false_eq_true, if_false]
      rw [hlist, List.flatMap_assoc]
      simp only [List.flatMap_map]
      rw [Nat.zero_mul, ← List.range_eq_range'] at h
      simpa only [← hentries] using h

lemma mem_intervalMultipliers {d g : ℕ} (hg : g < sys.count) (hd : d ∈ (sys.interval g).domains)
    {m : Multiplier} :
    m ∈ sys.intervalMultipliers redundant d g ↔ m.1 = g ∧ m ∈ sys.multipliers redundant ∧
      (sys.domainAt g m.2.2.1 = d ∨ sys.domainAt g m.2.2.2 = d) := by
  obtain ⟨hδ, hat⟩ := domainAt_lowerBound hd
  set δ := lowerBound (sys.interval g).domains d
  simp only [intervalMultipliers, List.mem_flatMap, List.mem_map, mem_gluedDOFs]
  constructor
  · rintro ⟨x, hx, p, hp, rfl⟩
    obtain ⟨hpn, hne, hnext⟩ := (mem_gluePartners hδ).mp hp
    refine ⟨rfl, ⟨hg, hx.1, hx.2.1, hx.2.2, ?_, ?_, fun h => ?_⟩, ?_⟩
    · simp only
      omega
    · simp only
      omega
    · have := hnext h
      simp only
      omega
    · rcases lt_or_gt_of_ne hne with h | h
      · right
        rw [max_eq_left (le_of_lt h)]
        exact hat
      · left
        rw [min_eq_left (le_of_lt h)]
        exact hat
  · obtain ⟨g', x, a, b⟩ := m
    rintro ⟨h, ⟨-, hx₁, hx₂, hx₃, hab, hbn, hnext⟩, hdomain⟩
    simp only at h hx₁ hx₂ hx₃ hab hbn hnext hdomain
    subst h
    rcases hdomain with h | h
    · have ha : a = δ := domainAt_inj (by omega) hδ (h.trans hat.symm)
      refine ⟨x, ⟨hx₁, hx₂, hx₃⟩, b, (mem_gluePartners hδ).mpr ⟨hbn, by omega, fun h => ?_⟩, ?_⟩
      · have := hnext h
        omega
      · rw [min_eq_left (by omega), max_eq_right (by omega), ha]
    · have hb : b = δ := domainAt_inj hbn hδ (h.trans hat.symm)
      refine ⟨x, ⟨hx₁, hx₂, hx₃⟩, a, (mem_gluePartners hδ).mpr ⟨by omega, by omega, fun h => ?_⟩, ?_⟩
      · have := hnext h
        omega
      · rw [min_eq_right (by omega), max_eq_left (by omega), hb]

lemma mem_domainMultipliers {d : ℕ} {m : Multiplier} :
    m ∈ sys.domainMultipliers redundant d ↔ m ∈ sys.multipliers redundant ∧
      (sys.domainAt m.1 m.2.2.1 = d ∨ sys.domainAt m.1 m.2.2.2 = d) := by
  simp only [domainMultipliers, List.mem_flatMap]
  constructor
  · rintro ⟨g, hg, hm⟩
    obtain ⟨hg, hd⟩ := mem_domainIds.mp hg
    obtain ⟨rfl, hm⟩ := (mem_intervalMultipliers hg hd).mp hm
    exact hm
  · rintro ⟨hm, hdomain⟩
    have hm' := hm
    obtain ⟨hg, -, -, -, hab, hbn, -⟩ := hm'
    have hd : d ∈ (sys.interval m.1).domains := by
      rcases hdomain with rfl | rfl
      · exact domainAt_mem (lt_trans hab hbn)
      · exact domainAt_mem hbn
    exact ⟨m.1, mem_domainIds.mpr ⟨hg, hd⟩, (mem_intervalMultipliers hg hd).mpr ⟨rfl, hm, hdomain⟩⟩

lemma gluePartners_nodup (n δ : ℕ) : (gluePartners redundant n δ).Nodup := by
  cases redundant with
  | true =>
      refine List.nodup_append'.mpr ⟨List.nodup_range, List.nodup_range', fun p hp hp' => ?_⟩
      have := List.mem_range.mp hp
      have := (List.mem_range'_1.mp hp').1
      omega
  | false =>
      have hne : δ - 1 ≠ δ + 1 := by omega
      simp only [gluePartners, Bool.false_eq_true, if_false]
      split_ifs <;> simp [hne]

lemma domainMultipliers_nodup (d : ℕ) : (sys.domainMultipliers redundant d).Nodup := by
  refine List.nodup_flatMap.mpr ⟨fun g hg => ?_, ?_⟩
  · obtain ⟨-, hd⟩ := mem_domainIds.mp hg
    obtain ⟨hδ, -⟩ := domainAt_lowerBound hd
    refine List.nodup_flatMap.mpr ⟨fun x _ => ?_, (gluedDOFs_nodup g).imp fun {x y} hxy => ?_⟩
    · refine (gluePartners_nodup _ _).map_on fun p hp q hq heq => ?_
      have hp := ((mem_gluePartners hδ).mp hp).2.1
      have hq := ((mem_gluePartners hδ).mp hq).2.1
      simp only [Prod.mk.injEq, true_and] at heq
      omega
    · intro m hm hm'
      obtain ⟨_, -, rfl⟩ := List.mem_map.mp hm
      obtain ⟨_, -, h⟩ := List.mem_map.mp hm'
      exact hxy (Prod.mk.inj (Prod.mk.inj h).2).1.symm
  · refine (List.nodup_range.filter _).imp fun {g h} hgh => ?_
    intro m hm hm'
    simp only [intervalMultipliers, List.mem_flatMap, List.mem_map] at hm hm'
    obtain ⟨_, _, _, _, rfl⟩ := hm
    obtain ⟨_, _, _, _, h⟩ := hm'
    exact hgh (Prod.mk.inj h).1.symm

end System

lemma Piece.holds_foldr {α : Type} (f : α → Piece) (entries : α → List Entry) :
    ∀ l : List α, (∀ a ∈ l, (f a).Holds (entries a)) →
      (l.foldr (fun a piece => f a ++ piece) ∅).Holds (l.flatMap entries) := by
  intro l
  induction l with
  | nil => exact fun _ => Piece.holds_nil
  | cons a l ih =>
      intro h
      rw [List.flatMap_cons, List.foldr_cons]
      exact (h a (by simp)).append (ih fun b hb => h b (by simp [hb]))

lemma DomainInstance.Grows.of_push {p : Piece} {entries : List Entry} (hp : p.Holds entries)
    (inst : DomainInstance) : inst.Grows (inst.push p) entries where
  rows := by rw [← hp.rows]; rfl
  cols := by rw [← hp.cols]; rfl
  values := by rw [← hp.values]; rfl

namespace System

variable (sys : System) (redundant : Bool)

/-- What rank `r` holds after `update`. -/
def constraints (r : ℕ) : Constraints :=
  ⟨sys.dirichletSize redundant, sys.gluingSize redundant,
    (sys.ids r).map (sys.constrained redundant r)⟩

/-- The entries of `d`, a domain of rank `r`, are glued by the numbering `row`: the new ones are `1`
or `-1` in the rows of the pairs with `d` as first or as second domain, each in the column of its
node and degree of freedom, each once, and there are no others. -/
def GluesBy (row : Multiplier → ℕ) (d : ℕ) (before after : DomainInstance) : Prop :=
  ∃ new : List Entry, before.Grows after new ∧ new.Nodup ∧
    ∀ e, e ∈ new ↔ ∃ m ∈ sys.multipliers redundant,
      (sys.domainAt m.1 m.2.2.1 = d ∧ e = ⟨row m, sys.column d m.1 m.2.1, 1⟩) ∨
        (sys.domainAt m.1 m.2.2.2 = d ∧ e = ⟨row m, sys.column d m.1 m.2.1, -1⟩)

variable {sys redundant}

lemma rankOf_local {r d : ℕ} (hr : r < sys.ranks) (hd : d < (sys.mesh r).ndomains) :
    sys.rankOf (sys.distribution.border r + d) = r := by
  have hd' : d < sys.distribution.border (r + 1) - sys.distribution.border r := hd
  exact rankOf_eq hr (by omega) (by omega)

lemma gintervals_gluing {r d : ℕ} (hr : r < sys.ranks) (hd : d < (sys.mesh r).ndomains) :
    gintervals ConstrainedInterval.pinterval (sys.distribution.border r + d) 0
        (sys.constraints redundant r).intervals
      = (sys.domainIds (sys.distribution.border r + d)).map
        (sys.gluing redundant (sys.distribution.border r + d)) := by
  have h := gintervals_eq sys ConstrainedInterval.pinterval (sys.constrained redundant r)
    (sys.distribution.border r + d) fun g => by rw [rankOf_local hr hd]; rfl
  rw [rankOf_local hr hd] at h
  rw [constraints, h]
  refine List.map_congr_left fun g _ => ?_
  rw [gluing, rankOf_local hr hd]
  rfl

/-- **The entries that `B1GlueElements` adds** to a domain, in closed form. -/
theorem B1GlueElements_grows (redundant : Bool) {r d : ℕ} (hr : r < sys.ranks) (hd : d < (sys.mesh r).ndomains)
    (inst : Instance) :
    (inst.domains d).Grows
      ((B1GlueElements sys.DOFs redundant (sys.mesh r) (sys.constraints redundant r) inst).domains d)
      ((sys.domainMultipliers redundant (sys.distribution.border r + d)).map
        (sys.entry (sys.generatedRow redundant) (sys.distribution.border r + d))) := by
  set domain := sys.distribution.border r + d with hdomain
  have hpieces := Piece.holds_foldr
    (fun g => glueInterval sys.DOFs redundant (sys.gluing redundant domain g)
      (List.range sys.DOFs) 0) _ (sys.domainIds domain)
    fun g hg => glueInterval_holds (mem_domainIds.mp hg).2
  rw [← List.map_flatMap] at hpieces
  have hgrows := DomainInstance.Grows.of_push hpieces (inst.domains d)
  have hdomains : (B1GlueElements sys.DOFs redundant (sys.mesh r) (sys.constraints redundant r)
      inst).domains d = glueDomain sys.DOFs redundant (sys.gluingSize redundant)
        ((sys.domainIds domain).map (sys.gluing redundant domain)) (inst.domains d) := by
    simp only [B1GlueElements, if_pos hd]
    rw [← gintervals_gluing hr hd]
    rfl
  rw [hdomains, glueDomain, List.foldr_map]
  exact ⟨hgrows.rows, hgrows.cols, hgrows.values⟩

lemma entry_of_low {d : ℕ} {m : Multiplier} (row : Multiplier → ℕ)
    (h : sys.domainAt m.1 m.2.2.1 = d) :
    sys.entry row d m = ⟨row m, sys.column d m.1 m.2.1, 1⟩ := by
  rw [entry, if_pos h]

lemma entry_of_high {d : ℕ} {m : Multiplier} (hm : m ∈ sys.multipliers redundant)
    (row : Multiplier → ℕ) (h : sys.domainAt m.1 m.2.2.2 = d) :
    sys.entry row d m = ⟨row m, sys.column d m.1 m.2.1, -1⟩ := by
  obtain ⟨-, -, -, -, hab, hbn, -⟩ := hm
  have hne : sys.domainAt m.1 m.2.2.1 ≠ d := fun hlow => by
    have := domainAt_inj (lt_trans hab hbn) hbn (hlow.trans h.symm)
    omega
  rw [entry, if_neg hne]

lemma gluesBy_generated
    (hinj : Set.InjOn (sys.generatedRow redundant) (sys.multipliers redundant)) {r d : ℕ}
    (hr : r < sys.ranks) (hd : d < (sys.mesh r).ndomains) (inst : Instance) :
    sys.GluesBy redundant (sys.generatedRow redundant) (sys.distribution.border r + d)
      (inst.domains d)
      ((B1GlueElements sys.DOFs redundant (sys.mesh r) (sys.constraints redundant r)
        inst).domains d) := by
  refine ⟨_, B1GlueElements_grows redundant hr hd inst, ?_, fun e => ?_⟩
  · refine (domainMultipliers_nodup _).map_on fun m hm n hn heq => ?_
    exact hinj (mem_domainMultipliers.mp hm).1 (mem_domainMultipliers.mp hn).1
      (congrArg Entry.row heq)
  · simp only [List.mem_map, mem_domainMultipliers]
    constructor
    · rintro ⟨m, ⟨hm, hlow | hhigh⟩, rfl⟩
      · exact ⟨m, hm, Or.inl ⟨hlow, entry_of_low _ hlow⟩⟩
      · exact ⟨m, hm, Or.inr ⟨hhigh, entry_of_high hm _ hhigh⟩⟩
    · rintro ⟨m, hm, ⟨hlow, rfl⟩ | ⟨hhigh, rfl⟩⟩
      · exact ⟨m, ⟨hm, Or.inl hlow⟩, entry_of_low _ hlow⟩
      · exact ⟨m, ⟨hm, Or.inr hhigh⟩, entry_of_high hm _ hhigh⟩

/-- **Redundant multipliers glue every pair.**  The rows after the Dirichlet rows are in bijection
with the nodes, free degrees of freedom and pairs of domains, and on every rank the loops add
exactly the two entries of every row, one for each domain of the pair. -/
theorem redundant_glues (sys : System) :
    ∃ row : Multiplier → ℕ, ∀ r < sys.ranks, ∃ c,
      update sys.mesh sys.ranks sys.DOFs true r = some c ∧
      Set.BijOn row (sys.multipliers true)
        (Set.Icc (c.dirichletSize + 1) (c.dirichletSize + c.gluingSize)) ∧
      ∀ inst : Instance, ∀ d < (sys.mesh r).ndomains,
        sys.GluesBy true row (sys.distribution.border r + d) (inst.domains d)
          ((B1GlueElements sys.DOFs true (sys.mesh r) c inst).domains d) := by
  have hrow : sys.generatedRow true = sys.gluingRow true := rfl
  have hbij := gluingRow_bijOn sys true
  refine ⟨sys.gluingRow true, fun r hr => ⟨_, update_eq sys true hr, hbij, fun inst d hd => ?_⟩⟩
  rw [← hrow] at hbij ⊢
  exact gluesBy_generated hbij.injOn hr hd inst

end System

end Espreso
