import Espreso.Constraints.Assemble

/-!
# Multipliers in the solver

The solver works with the multipliers of one rank only, in the order of `B1clustersMap`.  It looks up
the multipliers of each domain by merging two lists, and exchanges values with a neighbour in the
order in which both find the multipliers they share.

* `mergeLoop`, `initClusterPC` — the lookup in `ClusterBase::InitClusterPC`; **`mergeLoop_eq`**.
* **`redundant_maps`** — with redundant multipliers both are right on every rank.
-/

namespace Espreso

/-! ## The code -/

/-- The loop that merges the multipliers of the rank, from position `i` on, with those of a
domain. -/
def mergeLoop : List ℕ → List ℕ → ℕ → List ℕ
  | big :: bigs, small :: smalls, i =>
    if big > small then mergeLoop (big :: bigs) smalls i
    else if big < small then mergeLoop bigs (small :: smalls) (i + 1)
    else i :: mergeLoop bigs smalls (i + 1)
  | _, _, _ => []
termination_by bigs smalls => bigs.length + smalls.length

/-- `lambda_map_sub_local` of a domain in `ClusterBase::InitClusterPC`.  The loop reads both lists
before it looks at their sizes: `none` if there is nothing to read. -/
def initClusterPC (l_my_lamdas_indices lambda_map_sub : List ℕ) : Option (List ℕ) :=
  if lambda_map_sub = [] then some []
  else if l_my_lamdas_indices = [] then none
  else some (mergeLoop l_my_lamdas_indices lambda_map_sub 0)

/-- What `SuperClusterBase::SetupCommunicationLayer` sets. -/
structure CommunicationLayer where
  my_lamdas_indices : List ℕ
  my_lamdas_ddot_filter : List ℕ
  my_comm_lambdas_indices : List (List ℕ)
  my_comm_lambdas_indices_comp : List (List ℕ)

/-- An entry of `my_lamdas_ddot_filter`. -/
def ddotFilter : List ℕ → ℕ
  | _ :: r₁ :: r₂ :: _ => if r₁ < r₂ then 1 else 0
  | _ => 1

/-- What one entry of the map adds to `lambdas_per_subdomain`. -/
def pushLambda (buffer : ℕ → List ℕ) : List ℕ → ℕ → List ℕ
  | lambda :: r₁ :: r₂ :: _ => pushBack (pushBack buffer r₁ lambda) r₂ lambda
  | _ => buffer

/-- `lambdas_per_subdomain`, by rank. -/
def lambdasPerSubdomain (B1clustersMap : List (List ℕ)) : ℕ → List ℕ :=
  B1clustersMap.foldl pushLambda fun _ => []

/-- A lookup in a `std::map` from multipliers to positions; a missing key gives 0. -/
def lamdasMapIndex (my_lamdas_indices : List ℕ) (lambda : ℕ) : ℕ :=
  if lambda ∈ my_lamdas_indices then my_lamdas_indices.idxOf lambda else 0

/-- `SuperClusterBase::SetupCommunicationLayer` -/
def setupCommunicationLayer (my_neighs : List ℕ) (B1clustersMap : List (List ℕ)) :
    CommunicationLayer where
  my_lamdas_indices := B1clustersMap.map mapRow
  my_lamdas_ddot_filter := B1clustersMap.map ddotFilter
  my_comm_lambdas_indices := my_neighs.map (lambdasPerSubdomain B1clustersMap)
  my_comm_lambdas_indices_comp := my_neighs.map fun n =>
    (lambdasPerSubdomain B1clustersMap n).map (lamdasMapIndex (B1clustersMap.map mapRow))

/-! ## The lookup -/

/-- **The merge finds every multiplier** if both lists ascend. -/
theorem mergeLoop_eq (bigs smalls : List ℕ) (i : ℕ) (hb : bigs.Pairwise (· < ·))
    (hs : smalls.Pairwise (· < ·)) (hsub : smalls ⊆ bigs) :
    mergeLoop bigs smalls i = smalls.map fun x => i + bigs.idxOf x := by
  induction bigs, smalls, i using mergeLoop.induct with
  | case1 big bigs small smalls i hlt ih =>
      -- the smallest multiplier of the domain is not below those of the rank
      have hmem := hsub (List.mem_cons_self (a := small))
      rcases List.mem_cons.mp hmem with heq | hmem
      · omega
      · have := (List.pairwise_cons.mp hb).1 small hmem
        omega
  | case2 big bigs small smalls i hnlt hlt ih =>
      have hall : ∀ x ∈ small :: smalls, big ≠ x := by
        intro x hx
        rcases List.mem_cons.mp hx with rfl | hx
        · omega
        · have := (List.pairwise_cons.mp hs).1 x hx
          omega
      have hsub' : small :: smalls ⊆ bigs := fun x hx =>
        (List.mem_cons.mp (hsub hx)).resolve_left fun h => hall x hx h.symm
      rw [mergeLoop, if_neg hnlt, if_pos hlt, ih (List.pairwise_cons.mp hb).2 hs hsub']
      refine List.map_congr_left fun x hx => ?_
      rw [List.idxOf_cons_ne _ (hall x hx)]
      omega
  | case3 big bigs small smalls i hngt hnlt ih =>
      obtain rfl : big = small := by omega
      have hall : ∀ x ∈ smalls, big ≠ x := fun x hx => ne_of_lt ((List.pairwise_cons.mp hs).1 x hx)
      have hsub' : smalls ⊆ bigs := fun x hx =>
        (List.mem_cons.mp (hsub (List.mem_cons_of_mem _ hx))).resolve_left
          fun h => hall x hx h.symm
      rw [mergeLoop, if_neg hngt, if_neg hnlt, List.map_cons, List.idxOf_cons_self, Nat.add_zero,
        ih (List.pairwise_cons.mp hb).2 (List.pairwise_cons.mp hs).2 hsub']
      refine congrArg _ (List.map_congr_left fun x hx => ?_)
      rw [List.idxOf_cons_ne _ (hall x hx)]
      omega
  | case4 bigs smalls i h =>
      cases smalls with
      | nil => simp [mergeLoop]
      | cons small smalls =>
          cases bigs with
          | nil => exact absurd (hsub (List.mem_cons_self (a := small))) (by simp)
          | cons big bigs => exact absurd rfl (h big bigs small smalls rfl)

lemma initClusterPC_spec {bigs smalls : List ℕ} (hb : bigs.Pairwise (· < ·))
    (hs : smalls.Pairwise (· < ·)) (hsub : smalls ⊆ bigs) :
    ∃ positions : List ℕ, initClusterPC bigs smalls = some positions ∧
      positions.length = smalls.length ∧
      ∀ j x : ℕ, smalls[j]? = some x → ∃ i : ℕ, positions[j]? = some i ∧ bigs[i]? = some x := by
  refine ⟨smalls.map fun x => 0 + bigs.idxOf x, ?_, by simp, fun j x hx => ?_⟩
  · by_cases hnil : smalls = []
    · rw [initClusterPC, if_pos hnil, hnil]
      rfl
    · have hbnil : bigs ≠ [] := by
        rintro rfl
        exact hnil (List.subset_nil.mp hsub)
      rw [initClusterPC, if_neg hnil, if_neg hbnil, mergeLoop_eq bigs smalls 0 hb hs hsub]
  · refine ⟨0 + bigs.idxOf x, by simp [hx], ?_⟩
    rw [Nat.zero_add]
    exact List.getElem?_idxOf (hsub (List.mem_of_getElem? hx))

/-! ## Shared multipliers -/

lemma lambdasPerSubdomain_eq {r q : ℕ} (hqr : q ≠ r) (l : List (List ℕ))
    (hl : ∀ e ∈ l, e[1]? = some r) :
    lambdasPerSubdomain l q = (l.filter fun e => e[2]? = some q).map mapRow := by
  have hfold : ∀ (l : List (List ℕ)) (buffer : ℕ → List ℕ), (∀ e ∈ l, e[1]? = some r) →
      l.foldl pushLambda buffer q
        = buffer q ++ (l.filter fun e => e[2]? = some q).map mapRow := by
    intro l
    induction l with
    | nil => simp
    | cons e l ih =>
        intro buffer h
        rw [List.foldl_cons, ih _ fun e he => h e (by simp [he])]
        have he := h e (by simp)
        match e with
        | [] => simp at he
        | [_] => simp at he
        | [x, _] => simp [pushLambda]
        | x :: r₁ :: r₂ :: rest =>
            obtain rfl : r₁ = r := by simpa using he
            by_cases hq : r₂ = q
            · subst hq
              simp [pushLambda, pushBack, Function.update_of_ne hqr, mapRow]
            · have hq' : q ≠ r₂ := fun h => hq h.symm
              simp [pushLambda, pushBack, Function.update_of_ne hqr, Function.update_of_ne hq', hq]
  exact (hfold l _ hl).trans (List.nil_append _)

namespace System

variable {sys : System} {redundant : Bool} {reduction : ℚ}

lemma mem_mapEntry {r : ℕ} {m : Multiplier} {e : List ℕ} :
    e ∈ sys.mapEntry redundant r m ↔
      (sys.rankOf (sys.domainAt m.1 m.2.2.1) = r ∧ sys.rankOf (sys.domainAt m.1 m.2.2.2) = r ∧
        e = [sys.gluingRow redundant m - 1, r]) ∨
      (sys.rankOf (sys.domainAt m.1 m.2.2.1) = r ∧ sys.rankOf (sys.domainAt m.1 m.2.2.2) ≠ r ∧
        e = [sys.gluingRow redundant m - 1, r, sys.rankOf (sys.domainAt m.1 m.2.2.2)]) ∨
      (sys.rankOf (sys.domainAt m.1 m.2.2.1) ≠ r ∧ sys.rankOf (sys.domainAt m.1 m.2.2.2) = r ∧
        e = [sys.gluingRow redundant m - 1, r, sys.rankOf (sys.domainAt m.1 m.2.2.1)]) := by
  simp only [mapEntry, nmapEntry]
  by_cases h₁ : sys.rankOf (sys.domainAt m.1 m.2.2.1) = r <;>
    by_cases h₂ : sys.rankOf (sys.domainAt m.1 m.2.2.2) = r <;> simp [h₁, h₂]

lemma mem_clustersMap {r : ℕ} {e : List ℕ} :
    e ∈ (sys.assembled redundant reduction r).B1clustersMap ↔
      (∃ m ∈ sys.conditions redundant, sys.rankOf (sys.domainAt m.1 m.2.2.1) = r ∧
        e = [sys.dirichletRow redundant m - 1, r]) ∨
      ∃ m ∈ sys.multipliers redundant, e ∈ sys.mapEntry redundant r m := by
  rw [clustersMap_eq, List.mem_append]
  refine or_congr ?_ ?_
  · simp only [List.mem_map, mem_rankConditions]
    constructor
    · rintro ⟨m, ⟨hm, hrank⟩, rfl⟩
      exact ⟨m, hm, hrank, rfl⟩
    · rintro ⟨m, hm, hrank, rfl⟩
      exact ⟨m, ⟨hm, hrank⟩, rfl⟩
  · simp only [List.mem_flatMap]
    constructor
    · rintro ⟨m, ⟨g, hg, hm⟩, he⟩
      exact ⟨m, ((mem_mapMultipliers (mem_ids.mp hg).1).mp hm).2, he⟩
    · rintro ⟨m, hm, he⟩
      have hrank : sys.rankOf (sys.domainAt m.1 m.2.2.1) = r ∨
          sys.rankOf (sys.domainAt m.1 m.2.2.2) = r := by
        rcases mem_mapEntry.mp he with h | h | h
        · exact Or.inl h.1
        · exact Or.inl h.1
        · exact Or.inr h.2.1
      obtain ⟨hmem, -⟩ := List.mem_filter.mp (mem_rankMultipliers.mpr ⟨hm, hrank⟩)
      obtain ⟨g, hg, hm⟩ := List.mem_flatMap.mp hmem
      exact ⟨m, ⟨g, hg, hm⟩, he⟩

lemma clustersMap_rank {r : ℕ} {e : List ℕ}
    (he : e ∈ (sys.assembled redundant reduction r).B1clustersMap) : e[1]? = some r := by
  rcases mem_clustersMap.mp he with ⟨m, -, -, rfl⟩ | ⟨m, -, he⟩
  · rfl
  · rcases mem_mapEntry.mp he with ⟨-, -, rfl⟩ | ⟨-, -, rfl⟩ | ⟨-, -, rfl⟩ <;> rfl

/-- The multipliers that rank `r` exchanges with rank `q`. -/
def shared (sys : System) (redundant : Bool) (reduction : ℚ) (r q : ℕ) : List ℕ :=
  lambdasPerSubdomain (sys.assembled redundant reduction r).B1clustersMap q

lemma mem_shared {r q : ℕ} (hqr : q ≠ r) {x : ℕ} :
    x ∈ sys.shared redundant reduction r q ↔
      ∃ m ∈ sys.multipliers redundant, x = sys.gluingRow redundant m - 1 ∧
        (sys.rankOf (sys.domainAt m.1 m.2.2.1) = r ∧ sys.rankOf (sys.domainAt m.1 m.2.2.2) = q ∨
          sys.rankOf (sys.domainAt m.1 m.2.2.1) = q ∧
            sys.rankOf (sys.domainAt m.1 m.2.2.2) = r) := by
  rw [shared, lambdasPerSubdomain_eq hqr _ fun e he => clustersMap_rank he]
  simp only [List.mem_map, List.mem_filter, decide_eq_true_eq, mem_clustersMap]
  constructor
  · rintro ⟨e, ⟨⟨m, -, -, rfl⟩ | ⟨m, hm, he⟩, hq⟩, rfl⟩
    · simp at hq
    · rcases mem_mapEntry.mp he with ⟨-, -, rfl⟩ | ⟨h₁, h₂, rfl⟩ | ⟨h₁, h₂, rfl⟩
      · simp at hq
      · exact ⟨m, hm, rfl, Or.inl ⟨h₁, by simpa using hq⟩⟩
      · exact ⟨m, hm, rfl, Or.inr ⟨by simpa using hq, h₂⟩⟩
  · rintro ⟨m, hm, rfl, ⟨h₁, h₂⟩ | ⟨h₁, h₂⟩⟩
    · refine ⟨[sys.gluingRow redundant m - 1, r, q], ⟨Or.inr ⟨m, hm, ?_⟩, rfl⟩, rfl⟩
      exact mem_mapEntry.mpr (Or.inr (Or.inl ⟨h₁, fun h => hqr (h₂.symm.trans h), by rw [h₂]⟩))
    · refine ⟨[sys.gluingRow redundant m - 1, r, q], ⟨Or.inr ⟨m, hm, ?_⟩, rfl⟩, rfl⟩
      exact mem_mapEntry.mpr (Or.inr (Or.inr ⟨fun h => hqr (h₁.symm.trans h), h₂, by rw [h₁]⟩))

lemma Arranged.shared_ascending (harr : sys.Arranged) (redundant : Bool) (reduction : ℚ)
    {r q : ℕ} (hqr : q ≠ r) :
    (sys.shared redundant reduction r q).Pairwise (· < ·) := by
  rw [shared, lambdasPerSubdomain_eq hqr _ fun e he => clustersMap_rank he]
  exact (harr.clustersMap_ascending r).sublist ((List.filter_sublist).map mapRow)

/-- **Two ranks exchange the same multipliers** in the same order. -/
theorem Arranged.shared_symm (harr : sys.Arranged) {r q : ℕ} (hqr : q ≠ r) :
    sys.shared redundant reduction r q = sys.shared redundant reduction q r := by
  have h₁ := harr.shared_ascending redundant reduction hqr
  have h₂ := harr.shared_ascending redundant reduction hqr.symm
  have hperm : (sys.shared redundant reduction r q).Perm (sys.shared redundant reduction q r) := by
    refine (List.perm_ext_iff_of_nodup (h₁.imp ne_of_lt) (h₂.imp ne_of_lt)).mpr fun x => ?_
    rw [mem_shared hqr, mem_shared hqr.symm]
    exact exists_congr fun m => and_congr_right fun _ => and_congr_right fun _ => or_comm
  exact hperm.eq_of_pairwise' h₁ h₂

lemma mem_clusterRows {r x : ℕ} :
    x ∈ sys.clusterRows redundant reduction r ↔
      (∃ m ∈ sys.conditions redundant, sys.rankOf (sys.domainAt m.1 m.2.2.1) = r ∧
        x = sys.dirichletRow redundant m - 1) ∨
      ∃ m ∈ sys.multipliers redundant, x = sys.gluingRow redundant m - 1 ∧
        (sys.rankOf (sys.domainAt m.1 m.2.2.1) = r ∨
          sys.rankOf (sys.domainAt m.1 m.2.2.2) = r) := by
  rw [clustersMap_rows]
  simp only [List.mem_append, List.mem_map, mem_rankConditions, mem_rankMultipliers]
  refine or_congr ⟨?_, ?_⟩ ⟨?_, ?_⟩
  · rintro ⟨m, ⟨hm, hrank⟩, rfl⟩
    exact ⟨m, hm, hrank, rfl⟩
  · rintro ⟨m, hm, hrank, rfl⟩
    exact ⟨m, ⟨hm, hrank⟩, rfl⟩
  · rintro ⟨m, ⟨hm, hrank⟩, rfl⟩
    exact ⟨m, hm, rfl, hrank⟩
  · rintro ⟨m, hm, rfl, hrank⟩
    exact ⟨m, ⟨hm, hrank⟩, rfl⟩

lemma row_cases (sys : System) (redundant : Bool) {x : ℕ}
    (hx : x < sys.dirichletSize redundant + sys.gluingSize redundant) :
    (∃ m ∈ sys.conditions redundant, x = sys.dirichletRow redundant m - 1 ∧
      (∀ n ∈ sys.conditions redundant, x = sys.dirichletRow redundant n - 1 → n = m) ∧
      ∀ n ∈ sys.multipliers redundant, x ≠ sys.gluingRow redundant n - 1) ∨
    ∃ m ∈ sys.multipliers redundant, x = sys.gluingRow redundant m - 1 ∧
      (∀ n ∈ sys.multipliers redundant, x = sys.gluingRow redundant n - 1 → n = m) ∧
      ∀ n ∈ sys.conditions redundant, x ≠ sys.dirichletRow redundant n - 1 := by
  have hdirichlet := dirichletRow_bijOn sys redundant
  have hgluing := gluingRow_bijOn sys redundant
  rcases Nat.lt_or_ge x (sys.dirichletSize redundant) with h | h
  · left
    obtain ⟨m, hm, heq⟩ := hdirichlet.surjOn (show x + 1 ∈ Set.Icc 1 _ from ⟨by omega, by omega⟩)
    refine ⟨m, hm, by omega, fun n hn hxn => ?_, fun n hn hxn => ?_⟩
    · have := (hdirichlet.mapsTo hn).1
      exact hdirichlet.injOn hn hm (by omega)
    · have := (hgluing.mapsTo hn).1
      omega
  · right
    obtain ⟨m, hm, heq⟩ := hgluing.surjOn (show x + 1 ∈ Set.Icc _ _ from ⟨by omega, by omega⟩)
    refine ⟨m, hm, by omega, fun n hn hxn => ?_, fun n hn hxn => ?_⟩
    · have := (hgluing.mapsTo hn).1
      exact hgluing.injOn hn hm (by omega)
    · have h₁ := (hdirichlet.mapsTo hn).1
      have h₂ := (hdirichlet.mapsTo hn).2
      omega

lemma clusterRow_lt {r x : ℕ} (hx : x ∈ sys.clusterRows redundant reduction r) :
    x < sys.dirichletSize redundant + sys.gluingSize redundant := by
  rcases mem_clusterRows.mp hx with ⟨m, hm, -, rfl⟩ | ⟨m, hm, rfl, -⟩
  · have h₁ := ((dirichletRow_bijOn sys redundant).mapsTo hm).1
    have h₂ := ((dirichletRow_bijOn sys redundant).mapsTo hm).2
    omega
  · have h₁ := ((gluingRow_bijOn sys redundant).mapsTo hm).1
    have h₂ := ((gluingRow_bijOn sys redundant).mapsTo hm).2
    omega

lemma mem_shared_iff {r q x : ℕ} (hqr : q ≠ r) :
    x ∈ sys.shared redundant reduction r q ↔
      x ∈ sys.clusterRows redundant reduction r ∧ x ∈ sys.clusterRows redundant reduction q := by
  rw [mem_shared hqr]
  constructor
  · rintro ⟨m, hm, rfl, ⟨h₁, h₂⟩ | ⟨h₁, h₂⟩⟩
    · exact ⟨mem_clusterRows.mpr (Or.inr ⟨m, hm, rfl, Or.inl h₁⟩),
        mem_clusterRows.mpr (Or.inr ⟨m, hm, rfl, Or.inr h₂⟩)⟩
    · exact ⟨mem_clusterRows.mpr (Or.inr ⟨m, hm, rfl, Or.inr h₂⟩),
        mem_clusterRows.mpr (Or.inr ⟨m, hm, rfl, Or.inl h₁⟩)⟩
  · rintro ⟨hr, hq⟩
    rcases row_cases sys redundant (clusterRow_lt hr) with
      ⟨m, hm, hx, hunique, hother⟩ | ⟨m, hm, hx, hunique, hother⟩
    · -- a Dirichlet row belongs to one rank
      have honly : ∀ s, x ∈ sys.clusterRows redundant reduction s →
          sys.rankOf (sys.domainAt m.1 m.2.2.1) = s := by
        intro s hs
        rcases mem_clusterRows.mp hs with ⟨n, hn, hrank, hxn⟩ | ⟨n, hn, hxn, -⟩
        · rw [← hunique n hn hxn]
          exact hrank
        · exact absurd hxn (hother n hn)
      exact absurd ((honly q hq).symm.trans (honly r hr)) hqr
    · have hends : ∀ s, x ∈ sys.clusterRows redundant reduction s →
          sys.rankOf (sys.domainAt m.1 m.2.2.1) = s ∨
            sys.rankOf (sys.domainAt m.1 m.2.2.2) = s := by
        intro s hs
        rcases mem_clusterRows.mp hs with ⟨n, hn, -, hxn⟩ | ⟨n, hn, hxn, hrank⟩
        · exact absurd hxn (hother n hn)
        · rw [← hunique n hn hxn]
          exact hrank
      refine ⟨m, hm, hx, ?_⟩
      rcases hends r hr with h₁ | h₁ <;> rcases hends q hq with h₂ | h₂
      · exact absurd (h₂.symm.trans h₁) hqr
      · exact Or.inl ⟨h₁, h₂⟩
      · exact Or.inr ⟨h₂, h₁⟩
      · exact absurd (h₂.symm.trans h₁) hqr

lemma ddotFilter_unique (reduction : ℚ) {x : ℕ}
    (hx : x < sys.dirichletSize redundant + sys.gluingSize redundant) :
    ∃! r, r < sys.ranks ∧ ∃ e ∈ (sys.assembled redundant reduction r).B1clustersMap,
      mapRow e = x ∧ ddotFilter e = 1 := by
  rcases row_cases sys redundant hx with
    ⟨m, hm, hxm, hunique, hother⟩ | ⟨m, hm, hxm, hunique, hother⟩
  · have hdomain := sys.domains_lt m.1 hm.1 _
      (domainAt_mem (lt_of_lt_of_le hm.2.2.1 (copies_le _ _ _)))
    refine ⟨sys.rankOf (sys.domainAt m.1 m.2.2.1), ⟨(rankOf_spec hdomain).1, _,
      mem_clustersMap.mpr (Or.inl ⟨m, hm, rfl, rfl⟩), hxm.symm, rfl⟩, ?_⟩
    rintro r ⟨-, e, he, hrow, -⟩
    rcases mem_clustersMap.mp he with ⟨n, hn, hrank, rfl⟩ | ⟨n, hn, he⟩
    · rw [← hunique n hn hrow.symm]
      exact hrank.symm
    · refine absurd ?_ (hother n hn)
      rcases mem_mapEntry.mp he with ⟨-, -, rfl⟩ | ⟨-, -, rfl⟩ | ⟨-, -, rfl⟩ <;> exact hrow.symm
  · -- of two ranks, the one of the first domain is lower
    have hhigh := hm.2.2.2.2.2.1
    have hlow : m.2.2.1 < sys.ndomains m.1 := lt_trans hm.2.2.2.2.1 hhigh
    have hdomain := sys.domains_lt m.1 hm.1 _ (domainAt_mem hhigh)
    have hle := rankOf_mono (le_of_lt (domainAt_lt hm.2.2.2.2.1 hhigh)) hdomain
    have hlt := (rankOf_spec (sys.domains_lt m.1 hm.1 _ (domainAt_mem hlow))).1
    refine ⟨sys.rankOf (sys.domainAt m.1 m.2.2.1), ⟨hlt, ?_⟩, ?_⟩
    · rcases eq_or_lt_of_le hle with heq | hne
      · exact ⟨_, mem_clustersMap.mpr (Or.inr ⟨m, hm, mem_mapEntry.mpr
          (Or.inl ⟨rfl, heq.symm, rfl⟩)⟩), hxm.symm, rfl⟩
      · exact ⟨_, mem_clustersMap.mpr (Or.inr ⟨m, hm, mem_mapEntry.mpr
          (Or.inr (Or.inl ⟨rfl, ne_of_gt hne, rfl⟩))⟩), hxm.symm, if_pos hne⟩
    · rintro r ⟨-, e, he, hrow, hfilter⟩
      rcases mem_clustersMap.mp he with ⟨n, hn, -, rfl⟩ | ⟨n, hn, he⟩
      · exact absurd hrow.symm (hother n hn)
      · rcases mem_mapEntry.mp he with ⟨h₁, -, rfl⟩ | ⟨h₁, -, rfl⟩ | ⟨h₁, h₂, rfl⟩
        · rw [← hunique n hn hrow.symm]
          exact h₁.symm
        · rw [← hunique n hn hrow.symm]
          exact h₁.symm
        · rw [hunique n hn hrow.symm] at h₁ h₂ hfilter
          rw [h₂] at hle
          have hnot : ¬ r < sys.rankOf (sys.domainAt m.1 m.2.2.1) := not_lt.mpr hle
          simp only [ddotFilter, if_neg hnot] at hfilter
          omega

lemma shared_neighbours {r q x : ℕ} (hrq : r ≠ q) (hx : x ∈ sys.shared redundant reduction r q) :
    q ∈ sys.neighbours r := by
  obtain ⟨m, hm, -, hranks⟩ := (mem_shared hrq.symm).mp hx
  have hhigh := domainAt_mem hm.2.2.2.2.2.1
  have hlow := domainAt_mem (lt_trans hm.2.2.2.2.1 hm.2.2.2.2.2.1)
  rcases hranks with ⟨rfl, rfl⟩ | ⟨rfl, rfl⟩
  · exact neighbours_mem hm.1 (List.mem_map_of_mem hlow) (List.mem_map_of_mem hhigh) hrq
  · exact neighbours_mem hm.1 (List.mem_map_of_mem hhigh) (List.mem_map_of_mem hlow) hrq

lemma exists_getElem?_map {α β γ : Type} {l : List α} {f : α → β} {h : α → γ} {x : β} {y : γ} :
    (∃ i : ℕ, (l.map f)[i]? = some x ∧ (l.map h)[i]? = some y) ↔ ∃ e ∈ l, f e = x ∧ h e = y := by
  constructor
  · rintro ⟨i, hx, hy⟩
    rw [List.getElem?_map] at hx hy
    obtain ⟨e, he, rfl⟩ := Option.map_eq_some_iff.mp hx
    rw [he] at hy
    exact ⟨e, List.mem_of_getElem? he, rfl, Option.some.inj hy⟩
  · rintro ⟨e, he, rfl, rfl⟩
    obtain ⟨i, hi⟩ := List.mem_iff_getElem?.mp he
    exact ⟨i, by rw [List.getElem?_map, hi]; rfl, by rw [List.getElem?_map, hi]; rfl⟩

/-- **The maps of all ranks fit the solver.**  With redundant multipliers and intervals in the order of
`arrangeNodes`, on every rank `B1clustersMap` and the `B1subdomainsMap` of every domain ascend and
the lookup finds each multiplier of the domain; two ranks that share multipliers exchange the same
list of them; and for every multiplier the filter of scalar products is 1 on exactly one rank. -/
theorem redundant_maps (sys : System) (harr : sys.Arranged) (reduction : ℚ) :
    ∃ inst : ℕ → Instance,
      (∀ r < sys.ranks, assemble sys.mesh sys.ranks sys.DOFs true reduction r = some (inst r)) ∧
      let layer := fun r => setupCommunicationLayer (sys.mesh r).neighbours (inst r).B1clustersMap
      let rows := fun r => (layer r).my_lamdas_indices
      (∀ r < sys.ranks, (rows r).Pairwise (· < ·) ∧ ∀ d < (sys.mesh r).ndomains,
        let subdomain := ((inst r).domains d).B1subdomainsMap
        subdomain.Pairwise (· < ·) ∧
        ∃ positions : List ℕ, initClusterPC (rows r) subdomain = some positions ∧
          positions.length = subdomain.length ∧
          ∀ j x : ℕ, subdomain[j]? = some x → ∃ i : ℕ, positions[j]? = some i ∧ (rows r)[i]? = some x) ∧
      (∀ r < sys.ranks, ∀ q < sys.ranks, r ≠ q → ∀ x, x ∈ rows r → x ∈ rows q →
        ∃ (i j : ℕ) (shared : List ℕ), (sys.mesh r).neighbours[i]? = some q ∧
          (sys.mesh q).neighbours[j]? = some r ∧
          (layer r).my_comm_lambdas_indices[i]? = some shared ∧
          (layer q).my_comm_lambdas_indices[j]? = some shared ∧
          ∀ y, y ∈ shared ↔ y ∈ rows r ∧ y ∈ rows q) ∧
      ∀ x < sys.dirichletSize true + sys.gluingSize true,
        ∃! r, r < sys.ranks ∧ ∃ i : ℕ, (rows r)[i]? = some x ∧
          (layer r).my_lamdas_ddot_filter[i]? = some 1 := by
  refine ⟨sys.assembled true reduction, fun r hr => assemble_eq hr, fun r hr =>
    ⟨harr.clustersMap_ascending r, fun d hd => ?_⟩, fun r hr q hq hrq x hxr hxq => ?_,
    fun x hx => ?_⟩
  · have hsub := harr.subdomainsMap_ascending reduction hr hd
    exact ⟨hsub, initClusterPC_spec (harr.clustersMap_ascending r) hsub (subdomainsMap_subset hr hd)⟩
  · have hshared := (mem_shared_iff hrq.symm).mpr ⟨hxr, hxq⟩
    have hqr := shared_neighbours hrq hshared
    obtain ⟨i, hi⟩ := List.mem_iff_getElem?.mp hqr
    obtain ⟨j, hj⟩ := List.mem_iff_getElem?.mp (sys.neighbours_symm r q hqr)
    refine ⟨i, j, sys.shared true reduction r q, hi, hj, ?_, ?_, fun y => mem_shared_iff hrq.symm⟩
    · have hi' : (sys.mesh r).neighbours[i]? = some q := hi
      simp only [setupCommunicationLayer, List.getElem?_map, hi', Option.map_some]
      rfl
    · have hj' : (sys.mesh q).neighbours[j]? = some r := hj
      rw [harr.shared_symm hrq.symm]
      simp only [setupCommunicationLayer, List.getElem?_map, hj', Option.map_some]
      rfl
  · obtain ⟨r, ⟨hr, he⟩, hunique⟩ := ddotFilter_unique reduction hx
    refine ⟨r, ⟨hr, exists_getElem?_map.mpr he⟩, fun q hq => ?_⟩
    exact hunique q ⟨hq.1, exists_getElem?_map.mp hq.2⟩

end System

def twoRanks : System where
  ranks := 2
  domains := 2
  distribution := ⟨[0, 1, 2], by decide, by decide, by decide, by decide⟩
  DOFs := 1
  DOFs_pos := Nat.zero_lt_one
  count := 1
  interval _ :=
    { domains := [0, 1]
      nonempty := Interval.pair_nonempty
      ascending := Interval.pair_ascending
      size := 1
      regions := fun _ => []
      region_sorted := Interval.noRegions_sorted
      region_lt := by simp
      region_disjoint := Interval.noRegions_disjoint }
  domains_lt := by decide
  neighbours r := if r = 0 then [1] else if r = 1 then [0] else []
  neighbours_sorted := by
    intro r
    split_ifs <;> simp
  neighbours_lt := by
    intro r q hq
    split_ifs at hq <;> simp at hq <;> omega
  neighbours_irrefl := by
    intro r hr
    split_ifs at hr <;> simp at hr <;> omega
  neighbours_symm := by
    intro r q hq
    split_ifs at hq with h₁ h₂
    · simp at hq
      simp [h₁, hq]
    · simp at hq
      simp [h₂, hq]
    · simp at hq
  neighbours_of_shared := by
    intro g _ d hd e he r q h₁ _ h₃ _ hne
    have hfirst : ∀ r x : ℕ, x ∈ [0, 1] → [0, 1, 2].getD r 2 ≤ x → r = 0 ∨ r = 1 := by
      intro r x hx h
      match r with
      | 0 => exact Or.inl rfl
      | 1 => exact Or.inr rfl
      | 2 | r + 3 => simp at hx h; omega
    rcases hfirst r d hd h₁ with rfl | rfl <;> rcases hfirst q e he h₃ with rfl | rfl
    · exact absurd rfl hne
    · decide
    · decide
    · exact absurd rfl hne
  count_le := System.one_le_limit

/-- Both ranks number the row, and count it once. -/
theorem redundant_maps_two : ∃ inst : ℕ → Instance,
    assemble twoRanks.mesh 2 1 true 1 0 = some (inst 0) ∧
    assemble twoRanks.mesh 2 1 true 1 1 = some (inst 1) ∧
    ((inst 0).B1clustersMap.map mapRow).Pairwise (· < ·) ∧
    ((inst 1).B1clustersMap.map mapRow).Pairwise (· < ·) := by
  have harr : twoRanks.Arranged := by
    intro g h hgh hh
    have hcount : twoRanks.count = 1 := rfl
    omega
  obtain ⟨inst, hinst, hmaps, -⟩ := System.redundant_maps twoRanks harr 1
  exact ⟨inst, hinst 0 Nat.zero_lt_two, hinst 1 Nat.one_lt_two, (hmaps 0 Nat.zero_lt_two).1,
    (hmaps 1 Nat.one_lt_two).1⟩

end Espreso
