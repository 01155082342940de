import Espreso.Assembler.Physics
import Espreso.LoadStep.GluedSystem
import Mathlib.LinearAlgebra.Dual.Lemmas
import Mathlib.Tactic.Ring

/-!
# The decomposed system and the global one

With redundant multipliers the rows of `B1` tear the domains apart without changing the solution.

* `unknowns`, `gathered`, `IsRestriction` — the degrees of freedom of the mesh and the domains.
* **`decomposition_iff`** — the solutions are the restrictions of the global solutions.
* **`fillDOFsIndices_columns`** — the matrices have the columns that `B1` has.
-/

namespace Espreso

namespace LoadStep

open Finset Assembler Espreso.System Layout

/-! ## The global problem -/

section Global

variable (sys : System)

/-- A degree of freedom: an interval, the degree of freedom, and the node. -/
abbrev Unknown := Σ _ : ℕ, ℕ × ℕ

def unknowns : Finset Unknown :=
  (range sys.count).sigma fun g => range sys.DOFs ×ˢ range (sys.interval g).size

def Prescribed (u : Unknown) : Prop := u.2.2 ∈ sys.regionNodes u.1 u.2.1

abbrev Joins (d : Fin sys.domains) (u : Unknown) : Prop := d.val ∈ (sys.interval u.1).domains

variable {sys}

/-- The value of a vector of the domains at a copy of a degree of freedom. -/
def copyOf (x : Primal sys) (u : Unknown) (d : ℕ) : ℚ :=
  if h : d < sys.domains then valueAt (x ⟨d, h⟩) (sys.column d u.1 u.2) else 0

/-- A row of the assembled vector. -/
def gathered (x : Primal sys) (u : Unknown) : ℚ := ∑ d with Joins sys d u, copyOf x u d

/-- All copies have the value of the global vector. -/
def IsRestriction (X : Unknown → ℚ) (x : Primal sys) : Prop :=
  ∀ u ∈ unknowns sys, ∀ d, Joins sys d u → copyOf x u d = X u

/-- **The global problem**: prescribed values, and the assembled equations elsewhere. -/
structure SolvesGlobal (K : Matrices (domainDOFCount sys)) (f : Primal sys) (value : Unknown → ℚ)
    (X : Unknown → ℚ) (x : Primal sys) : Prop where
  restriction : IsRestriction X x
  prescribed : ∀ u ∈ unknowns sys, Prescribed sys u → X u = value u
  balanced : ∀ u ∈ unknowns sys, ¬Prescribed sys u → gathered (multiply K x) u = gathered f u

end Global

section Columns

variable {sys : System}

lemma mem_unknowns {u : Unknown} : u ∈ unknowns sys ↔
    u.1 < sys.count ∧ u.2.1 < sys.DOFs ∧ u.2.2 < (sys.interval u.1).size := by
  simp only [unknowns, mem_sigma, mem_product, mem_range]

lemma copyOf_eq (x : Primal sys) (u : Unknown) (d : Fin sys.domains) :
    copyOf x u d = valueAt (x d) (sys.column d u.1 u.2) := dif_pos d.isLt

/-- **The columns of a domain** are its copies of the degrees of freedom. -/
lemma columns_bijOn (d : Fin sys.domains) :
    Set.BijOn (fun u : Unknown => sys.column d u.1 u.2 - 1)
      {u | u ∈ unknowns sys ∧ Joins sys d u} (range (domainDOFCount sys d) : Finset ℕ) := by
  have hrows := mul_add_bijOn_comp (prefixes_bijOn sys.count fun h =>
    if d.val ∈ (sys.interval h).domains then (sys.interval h).size else 0)
    (Set.bijOn_id (Set.Iio sys.DOFs))
  have hcolumn : ∀ u : Unknown, sys.column d u.1 u.2 - 1
      = (start (fun h => if d.val ∈ (sys.interval h).domains then (sys.interval h).size else 0) u.1
        + u.2.2) * sys.DOFs + u.2.1 := fun u => by
    rw [column, Nat.add_sub_cancel, mul_comm]
    rfl
  rw [coe_range, domainDOFCount, mul_comm]
  refine ⟨fun u hu => ?_, fun u hu v hv heq => ?_, fun c hc => ?_⟩
  · obtain ⟨⟨hg, hdof, hk⟩, hd⟩ := hu.imp_left mem_unknowns.mp
    simp only [hcolumn]
    exact hrows.mapsTo (x := ((u.1, u.2.2), u.2.1))
      ⟨⟨hg, lt_of_lt_of_eq hk (if_pos hd).symm⟩, hdof⟩
  · obtain ⟨⟨hg, hdof, hk⟩, hd⟩ := hu.imp_left mem_unknowns.mp
    obtain ⟨⟨hh, hdof', hk'⟩, he⟩ := hv.imp_left mem_unknowns.mp
    obtain ⟨hgh, hx⟩ := column_injOn hd he hdof hdof' hk hk' (by
      simp only [column, Nat.add_sub_cancel] at heq ⊢
      rw [heq])
    exact Sigma.ext hgh (heq_of_eq hx)
  · obtain ⟨⟨⟨g, k⟩, dof⟩, ⟨⟨hg, hk⟩, hdof⟩, rfl⟩ := hrows.surjOn hc
    simp only at hk
    split_ifs at hk with hd
    · exact ⟨⟨g, dof, k⟩, ⟨mem_unknowns.mpr ⟨hg, hdof, hk⟩, hd⟩, hcolumn _⟩
    · exact absurd hk (Nat.not_lt_zero _)

lemma exists_restriction (X : Unknown → ℚ) : ∃ x : Primal sys, IsRestriction X x := by
  choose U hU using fun (d : Fin sys.domains) (i : Fin (domainDOFCount sys d)) =>
    (columns_bijOn d).surjOn (mem_coe.mpr (mem_range.mpr i.isLt))
  refine ⟨fun d i => X (U d i), fun u hu d hd => ?_⟩
  have hlt := mem_range.mp (mem_coe.mp ((columns_bijOn d).mapsTo ⟨hu, hd⟩))
  rw [copyOf_eq, valueAt, dif_pos hlt]
  exact congrArg X ((columns_bijOn d).injOn (hU d ⟨_, hlt⟩).1 ⟨hu, hd⟩ (hU d ⟨_, hlt⟩).2)

lemma IsRestriction.ext {X Y : Unknown → ℚ} {x y : Primal sys} (hx : IsRestriction X x)
    (hy : IsRestriction Y y) (h : ∀ u ∈ unknowns sys, X u = Y u) : x = y := by
  funext d i
  obtain ⟨u, ⟨hu, hd⟩, hi⟩ := (columns_bijOn d).surjOn (mem_coe.mpr (mem_range.mpr i.isLt))
  have hvalue : ∀ z : Primal sys, copyOf z u d = z d i := fun z => by
    rw [copyOf_eq, valueAt, dif_pos (hi.trans_lt i.isLt)]
    exact congrArg (z d) (Fin.ext hi)
  rw [← hvalue x, ← hvalue y, hx u hu d hd, hy u hu d hd, h u hu]

/-- **The product with a restriction** sees the assembled vector. -/
lemma dot_restriction {X : Unknown → ℚ} {x : Primal sys} (h : IsRestriction X x) (z : Primal sys) :
    dot x z = ∑ u ∈ unknowns sys, X u * gathered z u := by
  have hdomain : ∀ d : Fin sys.domains,
      ∑ i, x d i * z d i = ∑ u ∈ unknowns sys with Joins sys d u, X u * copyOf z u d := by
    intro d
    have hvalue : ∀ (y : Primal sys) (i : Fin (domainDOFCount sys d)),
        valueAt (y d) (i.val + 1) = y d i := fun y i => dif_pos i.isLt
    rw [← sum_congr rfl fun i _ => congrArg₂ (· * ·) (hvalue x i) (hvalue z i),
      Fin.sum_univ_eq_sum_range fun i => valueAt (x d) (i + 1) * valueAt (z d) (i + 1)]
    refine (sum_nbij (fun u : Unknown => sys.column d u.1 u.2 - 1) (fun u hu => ?_) ?_ ?_
      fun u hu => ?_).symm
    · exact mem_coe.mp ((columns_bijOn d).mapsTo (mem_filter.mp hu))
    · exact (columns_bijOn d).injOn.mono fun u hu => mem_filter.mp (mem_coe.mp hu)
    · intro c hc
      obtain ⟨u, hu, hc⟩ := (columns_bijOn d).surjOn hc
      exact ⟨u, mem_coe.mpr (mem_filter.mpr hu), hc⟩
    · obtain ⟨hu, hd⟩ := mem_filter.mp hu
      rw [← h u hu d hd, copyOf_eq, copyOf_eq]
      rfl
  simp only [gathered, mul_sum, sum_filter, mul_ite, mul_zero]
  rw [sum_comm]
  exact sum_congr rfl fun d _ => (hdomain d).trans (sum_filter _ _)

end Columns

/-! ## The multipliers -/

section Multipliers

variable {sys : System} {B1 : Gluing sys}

lemma sum_columns {k : ℕ} (x : Fin k → ℚ) (lambda : ℕ → ℚ) (es : List Entry) :
    ∑ i, x i * (es.map fun e => if e.col - 1 = i.val then e.value * lambda e.row else 0).sum
      = (es.map fun e => e.value * valueAt x e.col * lambda e.row).sum := by
  induction es with
  | nil => simp
  | cons e es ih =>
      simp only [List.map_cons, List.sum_cons, mul_add, sum_add_distrib, ih]
      refine congrArg (· + _) ?_
      rw [valueAt]
      split_ifs with h
      · rw [sum_eq_single ⟨e.col - 1, h⟩, if_pos rfl]
        · ring
        · exact fun i _ hi => by rw [if_neg fun heq => hi (Fin.ext heq.symm), mul_zero]
        · exact fun hi => absurd (mem_univ _) hi
      · rw [mul_zero, zero_mul]
        exact sum_eq_zero fun i _ => by rw [if_neg (by omega), mul_zero]

lemma sum_rows {k N : ℕ} (x : Fin k → ℚ) (lambda : ℕ → ℚ) {es : List Entry}
    (hN : ∀ e ∈ es, e.row < N) :
    ∑ r ∈ range N, rowProduct es x r * lambda r
      = (es.map fun e => e.value * valueAt x e.col * lambda e.row).sum := by
  simp only [rowProduct]
  induction es with
  | nil => simp
  | cons e es ih =>
      have hrest := ih fun e he => hN e (List.mem_cons_of_mem _ he)
      simp only [List.map_cons, List.sum_cons, add_mul, sum_add_distrib, hrest, ite_mul, zero_mul]
      rw [sum_ite_eq, if_pos (mem_range.mpr (hN e List.mem_cons_self))]

lemma dot_applyTransposed {N : ℕ} (hN : ∀ d, ∀ e ∈ entries (B1 d), e.row < N) (x : Primal sys)
    (lambda : ℕ → ℚ) :
    dot x (applyTransposed B1 lambda) = ∑ r ∈ range N, apply B1 x r * lambda r := by
  simp only [apply, sum_mul]
  rw [sum_comm]
  exact sum_congr rfl fun d _ => (sum_columns (x d) lambda _).trans
    (sum_rows (x d) lambda (hN d)).symm

variable (B1) in
lemma exists_rows : ∃ N, ∀ d, ∀ e ∈ entries (B1 d), e.row < N := by
  refine ⟨∑ d, ((entries (B1 d)).map Entry.row).sum + 1, fun d e he => Nat.lt_succ_of_le ?_⟩
  exact (List.single_le_sum (fun _ _ => Nat.zero_le _) _ (List.mem_map_of_mem he)).trans
    (single_le_sum (f := fun d => ((entries (B1 d)).map Entry.row).sum) (fun _ _ => Nat.zero_le _)
      (mem_univ d))

/-- **The range of `B1ᵀ`** is what is orthogonal to the kernel of `B1`. -/
theorem exists_multipliers {z : Primal sys} (hz : ∀ x, apply B1 x = 0 → dot x z = 0) :
    ∃ lambda, z = applyTransposed B1 lambda := by
  obtain ⟨N, hN⟩ := exists_rows B1
  have hadd : ∀ x y : Primal sys, x + y = sum 1 x 1 y := fun x y => by
    funext d i
    simp [sum]
  have hsmul : ∀ (a : ℚ) (x : Primal sys), a • x = sum a x 0 0 := fun a x => by
    funext d i
    simp [sum]
  let A : Primal sys →ₗ[ℚ] (Fin N → ℚ) :=
    { toFun := fun x r => apply B1 x r
      map_add' := fun x y => funext fun r => by simp [hadd, apply_sum]
      map_smul' := fun a x => funext fun r => by simp [hsmul, apply_sum] }
  let φ : Module.Dual ℚ (Primal sys) :=
    { toFun := fun x => dot x z
      map_add' := fun x y => by simp [dot, add_dotProduct, sum_add_distrib]
      map_smul' := fun a x => by simp [dot, mul_sum] }
  have hφ : φ ∈ A.ker.dualAnnihilator := by
    refine (Submodule.mem_dualAnnihilator φ).mpr fun x hx => hz x (funext fun r => ?_)
    by_cases hr : r < N
    · exact congrFun (LinearMap.mem_ker.mp hx) ⟨r, hr⟩
    · exact sum_eq_zero fun d _ => rowProduct_eq_zero
        (fun e he heq => hr (lt_of_eq_of_lt heq.symm (hN d e he))) _
  rw [← LinearMap.range_dualMap_eq_dualAnnihilator_ker] at hφ
  obtain ⟨ψ, hψ⟩ := hφ
  let lambda : ℕ → ℚ := fun r => if h : r < N then ψ (Pi.single ⟨r, h⟩ 1) else 0
  have hdot : ∀ x, dot x z = dot x (applyTransposed B1 lambda) := by
    intro x
    have hx : dot x z = ψ (A x) := (LinearMap.congr_fun hψ x).symm
    rw [hx, dot_applyTransposed hN, LinearMap.pi_apply_eq_sum_univ ψ, ← Fin.sum_univ_eq_sum_range
      fun r => apply B1 x r * lambda r]
    refine sum_congr rfl fun r _ => ?_
    have hsingle : (fun j => if r = j then (1 : ℚ) else 0) = Pi.single r 1 := by
      funext j
      simp only [Pi.single_apply, eq_comm]
    rw [hsingle]
    simp [lambda, A]
  refine ⟨lambda, funext fun d => funext fun i => ?_⟩
  have hsingle : ∀ y : Primal sys, dot (Pi.single d (Pi.single i 1)) y = y d i := by
    intro y
    rw [dot, Fintype.sum_eq_single d fun e he => by rw [Pi.single_eq_of_ne he, zero_dotProduct],
      Pi.single_eq_same, single_one_dotProduct]
  rw [← hsingle z, hdot, hsingle]

end Multipliers

/-! ## The rows -/

section Rows

variable {sys : System} {reduction : ℚ} {x : Primal sys}

lemma sum_row {α : Type} {l : List α} (hl : l.Nodup) {row : α → ℕ} {m : α}
    (hinj : ∀ n ∈ l, row n = row m → n = m) (v : α → ℚ) [Decidable (m ∈ l)] :
    (l.map fun n => if row n = row m then v n else 0).sum = if m ∈ l then v m else 0 := by
  classical
  have hrow : ∀ n ∈ l.toFinset, (if row n = row m then v n else 0) = if n = m then v n else 0 :=
    fun n hn => if_congr ⟨hinj n (List.mem_toFinset.mp hn), fun h => congrArg row h⟩ rfl rfl
  rw [← List.sum_toFinset _ hl, sum_congr rfl hrow, sum_ite_eq']
  exact if_congr List.mem_toFinset rfl rfl

lemma sum_row_eq_zero {α : Type} {l : List α} {row : α → ℕ} {r : ℕ} (h : ∀ n ∈ l, row n ≠ r)
    (v : α → ℚ) : (l.map fun n => if row n = r then v n else 0).sum = 0 :=
  List.sum_eq_zero fun w hw => by
    obtain ⟨n, hn, rfl⟩ := List.mem_map.mp hw
    exact if_neg (h n hn)

lemma sum_domain {d : ℕ} (hd : d < sys.domains) (v : ℕ → ℚ) :
    ∑ e : Fin sys.domains, (if d = e then v e else 0) = v d :=
  (Fintype.sum_eq_single ⟨d, hd⟩ fun _ he => if_neg fun heq => he (Fin.ext heq.symm)).trans
    (if_pos rfl)

variable (sys) in
/-- The Dirichlet rows, with a value for each copy. -/
def dirichletPart (v : ℕ → Unknown → ℚ) (r : ℕ) : ℚ :=
  ∑ d : Fin sys.domains, ((sys.domainConditions true d).map fun m =>
    if sys.dirichletRow true m = r then v d ⟨m.1, m.2.1, m.2.2.2⟩ else 0).sum

variable (sys) in
/-- The gluing rows, with a value for each copy. -/
def gluingPart (v : ℕ → Unknown → ℚ) (r : ℕ) : ℚ :=
  ∑ d : Fin sys.domains, ((sys.domainMultipliers true d).map fun m =>
    if sys.gluingRow true m = r then
      (if sys.domainAt m.1 m.2.2.1 = d then 1 else -1) * v d ⟨m.1, m.2.1⟩ else 0).sum

lemma apply_assembledB1 (r : ℕ) : apply (assembledB1 sys true reduction) x r
    = dirichletPart sys (fun d u => copyOf x u d) r
      + gluingPart sys (fun d u => copyOf x u d) r := by
  rw [dirichletPart, gluingPart, ← sum_add_distrib]
  refine sum_congr rfl fun d _ => ?_
  rw [entries_eq (arrays_assembled true reduction d).grows, rowProduct_append]
  refine congrArg₂ (· + ·) ?_ ?_
  · rw [rowProduct, dirichletEntries, List.map_map]
    refine congrArg List.sum (List.map_congr_left fun m _ => ?_)
    rw [copyOf_eq]
    exact if_congr Iff.rfl (one_mul _) rfl
  · rw [rowProduct, gluingEntries, List.map_map]
    refine congrArg List.sum (List.map_congr_left fun m _ => ?_)
    rw [copyOf_eq]
    rfl

variable (sys) in
/-- The prescribed values, scaled as `B1DirichletUpdate` does. -/
def scaledValue (reduction : ℚ) (u : Unknown) : ℚ :=
  prescribed ((sys.interval u.1).regions u.2.1) u.2.2 * reduction

lemma rhs_assembledB1 : rhs (assembledB1 sys true reduction)
    = dirichletPart sys fun _ => scaledValue sys reduction := by
  funext r
  refine sum_congr rfl fun d _ => ?_
  have harrays := arrays_assembled true reduction d
  obtain ⟨tail, hzero, hB1c⟩ := harrays.B1c
  rw [rows_assembled, hB1c, List.map_append, rowValues_append _ _ hzero, rowValues, dirichletEntries,
    List.map_map, List.zip_map', List.map_map]
  · rfl
  · rw [harrays.length, List.length_map]

/-- **A Dirichlet row** has one entry. -/
lemma dirichletPart_row {m : Condition} (hm : m ∈ sys.conditions true) (v : ℕ → Unknown → ℚ) :
    dirichletPart sys v (sys.dirichletRow true m)
      = v (sys.domainAt m.1 m.2.2.1) ⟨m.1, m.2.1, m.2.2.2⟩ := by
  have hmem := domainAt_mem (lt_of_lt_of_le hm.2.2.1 (copies_le sys true m.1))
  refine Eq.trans (sum_congr rfl fun d _ => ?_) (sum_domain (sys.domains_lt _ hm.1 _ hmem)
    fun d => v d ⟨m.1, m.2.1, m.2.2.2⟩)
  rw [sum_row (domainConditions_nodup _) fun n hn heq => (dirichletRow_bijOn sys true).injOn
    (mem_domainConditions.mp hn).1 hm heq]
  exact if_congr (mem_domainConditions.trans (and_iff_right hm)) rfl rfl

/-- **A gluing row** compares two copies. -/
lemma gluingPart_row {m : Multiplier} (hm : m ∈ sys.multipliers true) (v : ℕ → Unknown → ℚ) :
    gluingPart sys v (sys.gluingRow true m)
      = v (sys.domainAt m.1 m.2.2.1) ⟨m.1, m.2.1⟩ - v (sys.domainAt m.1 m.2.2.2) ⟨m.1, m.2.1⟩ := by
  obtain ⟨hg, -, -, -, hpair⟩ := id hm
  have hlt : sys.domainAt m.1 m.2.2.1 < sys.domainAt m.1 m.2.2.2 := domainAt_lt hpair.1 hpair.2.1
  have hlt' := sys.domains_lt _ hg _ (domainAt_mem hpair.2.1)
  rw [sub_eq_add_neg, ← sum_domain (hlt.trans hlt') fun d => v d ⟨m.1, m.2.1⟩,
    ← sum_domain hlt' fun d => -v d ⟨m.1, m.2.1⟩, ← sum_add_distrib]
  refine sum_congr rfl fun d _ => ?_
  rw [sum_row (domainMultipliers_nodup _) fun n hn heq => (gluingRow_bijOn sys true).injOn
    (mem_domainMultipliers.mp hn).1 hm heq,
    if_congr (mem_domainMultipliers.trans (and_iff_right hm)) rfl rfl]
  by_cases hfirst : sys.domainAt m.1 m.2.2.1 = d
  · rw [if_pos (Or.inl hfirst), if_pos hfirst, if_pos hfirst, if_neg (by omega), one_mul, add_zero]
  · by_cases hsecond : sys.domainAt m.1 m.2.2.2 = d
    · rw [if_pos (Or.inr hsecond), if_neg hfirst, if_neg hfirst, if_pos hsecond]
      ring
    · rw [if_neg (not_or.mpr ⟨hfirst, hsecond⟩), if_neg hfirst, if_neg hsecond, add_zero]

lemma dirichletPart_eq_zero {r : ℕ} (h : ∀ m ∈ sys.conditions true, sys.dirichletRow true m ≠ r)
    (v : ℕ → Unknown → ℚ) : dirichletPart sys v r = 0 :=
  sum_eq_zero fun _ _ => sum_row_eq_zero (fun m hm => h m (mem_domainConditions.mp hm).1) _

lemma gluingPart_eq_zero {r : ℕ} (h : ∀ m ∈ sys.multipliers true, sys.gluingRow true m ≠ r)
    (v : ℕ → Unknown → ℚ) : gluingPart sys v r = 0 :=
  sum_eq_zero fun _ _ => sum_row_eq_zero (fun m hm => h m (mem_domainMultipliers.mp hm).1) _

lemma IsRestriction.at {X : Unknown → ℚ} (h : IsRestriction X x) {u : Unknown}
    (hu : u ∈ unknowns sys) {i : ℕ} (hi : i < sys.ndomains u.1) :
    copyOf x u (sys.domainAt u.1 i) = X u :=
  h u hu ⟨_, sys.domains_lt _ (mem_unknowns.mp hu).1 _ (domainAt_mem hi)⟩ (domainAt_mem hi)

/-- **The rows of `B1`** say that the solution is a restriction with the given values. -/
theorem constraints_iff (value : Unknown → ℚ) :
    apply (assembledB1 sys true reduction) x = dirichletPart sys (fun _ => value) ↔
      ∃ X, IsRestriction X x ∧ ∀ u ∈ unknowns sys, Prescribed sys u → X u = value u := by
  constructor
  · intro h
    have hcondition : ∀ u ∈ unknowns sys, Prescribed sys u → ∀ i < sys.ndomains u.1,
        copyOf x u (sys.domainAt u.1 i) = value u := by
      intro u hu hp i hi
      obtain ⟨hg, hdof, hk⟩ := mem_unknowns.mp hu
      have hm : (u.1, u.2.1, (i, u.2.2)) ∈ sys.conditions true := ⟨hg, hdof, hi, hp⟩
      have hrow := congrFun h (sys.dirichletRow true (u.1, u.2.1, (i, u.2.2)))
      rwa [apply_assembledB1, dirichletPart_row hm, dirichletPart_row hm, gluingPart_eq_zero,
        add_zero] at hrow
      exact fun n hn => (dirichletRow_lt_gluingRow hm hn).2.ne'
    refine ⟨fun u => copyOf x u (sys.domainAt u.1 0), fun u hu d hd => ?_,
      fun u hu hp => hcondition u hu hp 0 (ndomains_pos _ _)⟩
    obtain ⟨hg, hdof, hk⟩ := mem_unknowns.mp hu
    obtain ⟨i, hi, hat⟩ : ∃ i < sys.ndomains u.1, sys.domainAt u.1 i = d :=
      ⟨_, domainAt_lowerBound hd⟩
    rw [← hat]
    by_cases hp : Prescribed sys u
    · exact (hcondition u hu hp _ hi).trans (hcondition u hu hp 0 (ndomains_pos _ _)).symm
    · rcases Nat.eq_zero_or_pos i with rfl | hpos
      · rfl
      · have hm : (u.1, u.2, (0, i)) ∈ sys.multipliers true :=
          ⟨hg, hdof, hk, fun _ hmem => hp (mem_regionNodes.mpr hmem), hpos, hi, nofun⟩
        have hrow := congrFun h (sys.gluingRow true (u.1, u.2, (0, i)))
        rw [apply_assembledB1, dirichletPart_eq_zero, gluingPart_row hm, dirichletPart_eq_zero,
          zero_add] at hrow
        · exact (sub_eq_zero.mp hrow).symm
        · exact fun n hn => (dirichletRow_lt_gluingRow hn hm).2.ne
        · exact fun n hn => (dirichletRow_lt_gluingRow hn hm).2.ne
  · rintro ⟨X, hX, hp⟩
    funext r
    rw [apply_assembledB1]
    by_cases hd : ∃ m ∈ sys.conditions true, sys.dirichletRow true m = r
    · obtain ⟨m, hm, rfl⟩ := hd
      obtain ⟨hg, hdof, hi, hk⟩ := id hm
      have hu : (⟨m.1, m.2.1, m.2.2.2⟩ : Unknown) ∈ unknowns sys :=
        mem_unknowns.mpr ⟨hg, hdof, dirichlet_lt (mem_regionNodes.mp hk)⟩
      rw [gluingPart_eq_zero fun n hn => (dirichletRow_lt_gluingRow hm hn).2.ne', add_zero,
        dirichletPart_row hm, dirichletPart_row hm, hX.at hu (lt_of_lt_of_le hi (copies_le _ _ _)),
        hp _ hu hk]
    · push Not at hd
      rw [dirichletPart_eq_zero hd, dirichletPart_eq_zero hd, zero_add]
      by_cases hm : ∃ m ∈ sys.multipliers true, sys.gluingRow true m = r
      · obtain ⟨m, hm, rfl⟩ := hm
        obtain ⟨hg, hdof, hk, -, hpair⟩ := id hm
        have hu : (⟨m.1, m.2.1⟩ : Unknown) ∈ unknowns sys := mem_unknowns.mpr ⟨hg, hdof, hk⟩
        rw [gluingPart_row hm, hX.at hu (hpair.1.trans hpair.2.1), hX.at hu hpair.2.1, sub_self]
      · push Not at hm
        exact gluingPart_eq_zero hm _

lemma gathered_sub (x y : Primal sys) (u : Unknown) :
    gathered (sum 1 x (-1) y) u = gathered x u - gathered y u := by
  rw [gathered, gathered, gathered, ← sum_sub_distrib]
  refine sum_congr rfl fun d _ => ?_
  rw [copyOf_eq, copyOf_eq, copyOf_eq]
  exact (valueAt_sum 1 (-1) (x d) (y d) _).trans (by ring)

lemma kernel_iff {v : Primal sys} : apply (assembledB1 sys true reduction) v = 0 ↔
    ∃ V, IsRestriction V v ∧ ∀ u ∈ unknowns sys, Prescribed sys u → V u = 0 := by
  rw [← constraints_iff fun _ => 0]
  refine Eq.congr_right (funext fun r => ?_)
  simp [dirichletPart]

variable {K : Matrices (domainDOFCount sys)} {f : Primal sys}

/-- **The indicator of a free degree of freedom** sees the row of the assembled system. -/
lemma IsSolution.solvesGlobal {y : Primal sys}
    (h : IsSolution K (assembledB1 sys true reduction) f (x, y)) :
    ∃ X, SolvesGlobal K f (scaledValue sys reduction) X x := by
  obtain ⟨happly, ⟨lambda, hy⟩, hsum⟩ := h
  obtain ⟨X, hX, hp⟩ := (constraints_iff _).mp (happly.trans rhs_assembledB1)
  refine ⟨X, hX, hp, fun u hu hfree => ?_⟩
  obtain ⟨v, hv⟩ : ∃ v : Primal sys, IsRestriction (Pi.single u 1) v := exists_restriction _
  have hzero : apply (assembledB1 sys true reduction) v = 0 := kernel_iff.mpr
    ⟨_, hv, fun w _ hw => Pi.single_eq_of_ne (fun h : w = u => hfree (h ▸ hw)) _⟩
  have hdot : dot v y = 0 := by
    obtain ⟨N, hN⟩ := exists_rows (assembledB1 sys true reduction)
    rw [show y = _ from hy, dot_applyTransposed hN, hzero]
    exact sum_eq_zero fun r _ => zero_mul _
  rw [dot_restriction hv, sum_eq_single u (fun w _ hw => by rw [Pi.single_eq_of_ne hw, zero_mul])
    (fun h => absurd hu h), Pi.single_eq_same, one_mul,
    show y = _ from (residual_iff.mpr hsum).symm, gathered_sub] at hdot
  exact (sub_eq_zero.mp hdot).symm

lemma SolvesGlobal.isSolution {X : Unknown → ℚ}
    (h : SolvesGlobal K f (scaledValue sys reduction) X x) :
    IsSolution K (assembledB1 sys true reduction) f (x, sum 1 f (-1) (multiply K x)) := by
  refine ⟨?_, exists_multipliers fun v hv => ?_, residual_iff.mp rfl⟩
  · rw [rhs_assembledB1]
    exact (constraints_iff _).mpr ⟨X, h.restriction, h.prescribed⟩
  · obtain ⟨V, hV, hzero⟩ := kernel_iff.mp hv
    rw [dot_restriction hV]
    refine sum_eq_zero fun u hu => ?_
    by_cases hp : Prescribed sys u
    · rw [hzero u hu hp, zero_mul]
    · rw [gathered_sub, h.balanced u hu hp, sub_self, mul_zero]

/-- **The decomposed system** has the solutions of the global problem: its primal solutions are the
restrictions of the global vectors with the prescribed values that satisfy the assembled equations.
-/
theorem decomposition_iff (K : Matrices (domainDOFCount sys)) (f x : Primal sys) (reduction : ℚ) :
    (∃ y, IsSolution K (assembledB1 sys true reduction) f (x, y)) ↔
      ∃ X, SolvesGlobal K f (scaledValue sys reduction) X x :=
  ⟨fun ⟨_, h⟩ => h.solvesGlobal, fun ⟨_, h⟩ => ⟨_, h.isSolution⟩⟩

end Rows

/-! ## The numbering of the matrices -/

section Numbering

variable {sys : System}

/-- A domain of the mesh, as `Physics` gets it. -/
def physicsDomain (d : Fin sys.domains)
    (h : Assembling.dintervals d 0 0 (sys.mesh (sys.rankOf d)).pintervals ≠ []) :
    Assembling.Domain :=
  ⟨sys.DOFs, _, h, Assembling.cumulative_dintervals sys (sys.rankOf d) d⟩

lemma find_dintervals (d n : ℕ) : ∀ (ps : List ProcessInterval) (doffset i : ℕ),
    (((Assembling.dintervals d doffset i ps).find? fun it => ¬it.end' ≤ n).map
      fun it => it.DOFOffset + n - it.begin')
    = ((gintervals id d doffset ps).find? fun it => ¬it.interval.end' ≤ n).map
      fun it => it.DOFOffset + n - it.interval.begin' := by
  intro ps
  induction ps with
  | nil => exact fun _ _ => rfl
  | cons p ps ih =>
      intro doffset i
      rw [Assembling.dintervals, gintervals]
      dsimp only [id]
      split_ifs
      · by_cases hn : p.end' ≤ n
        · rw [List.find?_cons_of_neg (by simpa using hn), List.find?_cons_of_neg (by simpa using hn)]
          exact ih _ _
        · rw [List.find?_cons_of_pos (by simpa using hn), List.find?_cons_of_pos (by simpa using hn)]
          rfl
      · exact ih _ _

/-- **The position of a node** is the one that the gluing matrices have for it. -/
lemma position_eq (d : Fin sys.domains) (h) {g k : ℕ} (hg : g < sys.count)
    (hd : d.val ∈ (sys.interval g).domains) (hk : k < (sys.interval g).size) :
    (physicsDomain d h).position (sys.nodeOffset (sys.rankOf d) g + k)
      = some (sys.dofOffset d g + k) := by
  have hfind : ((List.range sys.count).filter fun h => d.val ∈ (sys.interval h).domains).find?
      (fun h => ¬(sys.view (sys.nodeOffset (sys.rankOf d) h) h).end'
        ≤ sys.nodeOffset (sys.rankOf d) g + k) = some g := by
    rw [List.find?_filter, List.find?_range_eq_some]
    refine ⟨?_, List.mem_range.mpr hg, fun j hj => ?_⟩
    · simp only [hd, view]
      simpa using hk
    · by_cases hmem : d.val ∈ (sys.interval j).domains
      · have hrank : sys.rankOf d ∈ sys.iranks j := List.mem_map_of_mem hmem
        have hle : sys.nodeOffset (sys.rankOf d) j + (sys.interval j).size
            ≤ sys.nodeOffset (sys.rankOf d) g := by
          have hle := start_add_le
            (fun h => if sys.rankOf d ∈ sys.iranks h then (sys.interval h).size else 0) hj
          rwa [if_pos hrank] at hle
        simp only [hmem, view]
        simpa using Nat.le_add_right_of_le hle
      · simp [hmem]
  refine (find_dintervals d _ _ 0 0).trans ?_
  rw [pintervals_eq, gintervals_eq sys id (fun g => sys.view (sys.nodeOffset _ g) g) d fun _ => rfl,
    List.find?_map, domainIds]
  refine (congrArg (Option.map _ ∘ Option.map _) hfind).trans (congrArg some ?_)
  simp only [view]
  omega

/-- **The indices of `Physics`** are the columns of the gluing matrices. -/
theorem fillDOFsIndices_columns (d : Fin sys.domains) (h) (places : List (ℕ × ℕ))
    (hplaces : ∀ p ∈ places, p.1 < sys.count ∧ d.val ∈ (sys.interval p.1).domains ∧
      p.2 < (sys.interval p.1).size) :
    (physicsDomain d h).fillDOFsIndices
        (places.map fun p => sys.nodeOffset (sys.rankOf d) p.1 + p.2)
      = some ((List.range sys.DOFs).flatMap fun dof =>
          places.map fun p => sys.column d p.1 (dof, p.2) - 1) := by
  rw [Assembling.Domain.fillDOFsIndices, Fallible.mapM_eq_some fun dof _ => by
    rw [List.mapM_map]
    exact Fallible.mapM_eq_some fun p hp => congrArg (Option.map _)
      (position_eq d h (hplaces p hp).1 (hplaces p hp).2.1 (hplaces p hp).2.2)]
  rfl
lemma dintervals_twoDomains :
    Assembling.dintervals 0 0 0 (twoDomains.mesh (twoDomains.rankOf 0)).pintervals ≠ [] := by
  decide +kernel

theorem fillDOFsIndices_twoDomains :
    (physicsDomain (⟨0, Nat.zero_lt_two⟩ : Fin twoDomains.domains)
      dintervals_twoDomains).fillDOFsIndices [0] = some [0, 1] :=
  fillDOFsIndices_columns _ dintervals_twoDomains [(0, 0)] (by decide)

end Numbering

end LoadStep

end Espreso
