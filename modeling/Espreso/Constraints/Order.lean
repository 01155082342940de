import Espreso.Constraints.DirichletRows

/-!
# The order of the rows

`arrangeNodes` sorts the intervals by their lists of domains.  Then the ranks number the intervals in
the order in which every rank keeps them, and with redundant multipliers all maps are ascending.

* `intervalBefore`, `System.Arranged` — the comparison of `arrangeNodes`, and sorted intervals.
* **`Arranged.offset_add_le`** — offsets ascend with the intervals.
-/

namespace Espreso

open Layout

/-! ## The order of the intervals -/

/-- The comparison with which `arrangeNodes` sorts the intervals: by the first different domain;
before its beginnings; and otherwise by index. -/
def intervalBefore (i j : ℕ) : List ℕ → List ℕ → Bool
  | a :: n₁, b :: n₂ => if a ≠ b then a < b else intervalBefore i j n₁ n₂
  | n₁, n₂ => if n₁.length = n₂.length then i < j else n₁.length > n₂.length

namespace System

/-- The intervals are in the order of `arrangeNodes`. -/
def Arranged (sys : System) : Prop :=
  ∀ g h, g < h → h < sys.count →
    intervalBefore g h (sys.interval g).domains (sys.interval h).domains

variable {sys : System}

lemma Arranged.front_le (harr : sys.Arranged) {g h : ℕ} (hgh : g < h) (hh : h < sys.count) :
    (sys.interval g).front ≤ (sys.interval h).front := by
  have hbefore := harr g h hgh hh
  have hg := List.cons_head_tail (sys.interval g).nonempty
  have hh := List.cons_head_tail (sys.interval h).nonempty
  rw [← hg, ← hh, intervalBefore] at hbefore
  by_contra hlt
  have hne : (sys.interval g).domains.head (sys.interval g).nonempty
      ≠ (sys.interval h).domains.head (sys.interval h).nonempty := by
    intro heq
    exact hlt (le_of_eq heq)
  rw [if_pos hne] at hbefore
  exact hlt (le_of_lt (of_decide_eq_true hbefore))

/-- **Offsets ascend** with the intervals. -/
theorem Arranged.offset_add_le (harr : sys.Arranged) (size : ℕ → ℕ) {g h : ℕ} (hgh : g < h)
    (hh : h < sys.count) : sys.offset size g + size g ≤ sys.offset size h := by
  have howner : sys.owner g ≤ sys.owner h :=
    rankOf_mono (harr.front_le hgh hh) (sys.domains_lt h hh _ (sys.interval h).front_mem)
  rcases eq_or_lt_of_le howner with heq | hlt
  · exact offset_add_le_of_owner_eq hgh heq
  · exact offset_add_le_of_owner_lt (lt_trans hgh hh) hlt

/-! ## Ascending lists -/

lemma Arranged.flatMap_pairwise {κ : Type} (harr : sys.Arranged) (size : ℕ → ℕ) (base : ℕ)
    {row : κ → ℕ} {f : ℕ → List κ} {l : List ℕ} (hl : l.Pairwise (· < ·))
    (hcount : ∀ g ∈ l, g < sys.count)
    (hrow : ∀ g ∈ l, (f g).Pairwise fun x y => row x < row y)
    (hbound : ∀ g ∈ l, ∀ x ∈ f g, base + sys.offset size g < row x ∧
      row x ≤ base + sys.offset size g + size g) :
    (l.flatMap f).Pairwise fun x y => row x < row y := by
  rw [List.pairwise_flatMap]
  refine ⟨hrow, hl.imp_of_mem fun {g h} hg hh hgh x hx y hy => ?_⟩
  have h₁ := (hbound g hg x hx).2
  have h₂ := (hbound h hh y hy).1
  have h₃ := harr.offset_add_le size hgh (hcount h hh)
  omega

lemma idxOf_pairwise {α : Type} [BEq α] [LawfulBEq α] {l : List α} (hl : l.Nodup) :
    l.Pairwise fun x y => l.idxOf x < l.idxOf y := by
  have h : (l.map fun x => l.idxOf x).Pairwise (· < ·) := by
    rw [← range_length_eq hl]
    exact List.pairwise_lt_range
  exact List.pairwise_map.mp h

variable {redundant : Bool}

/-! ## Dirichlet rows -/

lemma dirichletRow_mem {m : Condition} (hm : m ∈ sys.conditions redundant) :
    0 + sys.offset (sys.dirichletRows redundant) m.1 < sys.dirichletRow redundant m ∧
      sys.dirichletRow redundant m
        ≤ 0 + sys.offset (sys.dirichletRows redundant) m.1 + sys.dirichletRows redundant m.1 := by
  have h : sys.conditionPosition (sys.copies redundant m.1) m < sys.dirichletRows redundant m.1 :=
    (conditionPosition_bijOn sys redundant m.1).mapsTo (show m.2 ∈ _ from ⟨hm.2.1, hm.2.2⟩)
  rw [dirichletRow]
  omega

lemma dirichletRow_lt_of_dof {g dof dof' : ℕ} {x y : ℕ × ℕ} (hdof : dof < dof')
    (hx : (g, dof, x) ∈ sys.conditions redundant) :
    sys.dirichletRow redundant (g, dof, x) < sys.dirichletRow redundant (g, dof', y) := by
  obtain ⟨-, -, hi, hk⟩ := hx
  have hidx := List.idxOf_lt_length_of_mem hk
  have hstart := start_add_le (fun dof => sys.copies redundant g * (sys.dirichlet g dof).length) hdof
  have hi' := Nat.mul_le_mul_right (sys.dirichlet g dof).length (Nat.succ_le_of_lt hi)
  simp only [length_regionNodes] at hidx
  simp only [start_copies] at hstart
  simp only [Nat.succ_mul] at hi'
  simp only [dirichletRow, conditionPosition]
  omega

lemma dirichletRow_lt_of_position {g dof i j k l : ℕ} (hij : i < j)
    (hx : (g, dof, (i, k)) ∈ sys.conditions redundant) :
    sys.dirichletRow redundant (g, dof, (i, k)) < sys.dirichletRow redundant (g, dof, (j, l)) := by
  have hidx := List.idxOf_lt_length_of_mem hx.2.2.2
  have hj := Nat.mul_le_mul_right (sys.dirichlet g dof).length (Nat.succ_le_of_lt hij)
  simp only [length_regionNodes] at hidx
  simp only [Nat.succ_mul] at hj
  simp only [dirichletRow, conditionPosition]
  omega

lemma regionNodes_pairwise (g dof i : ℕ) :
    ((sys.regionNodes g dof).map fun k => (g, dof, (i, k))).Pairwise
      fun x y => sys.dirichletRow redundant x < sys.dirichletRow redundant y := by
  refine List.pairwise_map.mpr ((idxOf_pairwise (regionNodes_nodup sys g dof)).imp fun {k l} h => ?_)
  simp only [dirichletRow, conditionPosition]
  omega

lemma intervalConditions_pairwise {d g : ℕ} (hg : g < sys.count)
    (hd : d ∈ (sys.interval g).domains) :
    (sys.intervalConditions redundant d g).Pairwise
      fun x y => sys.dirichletRow redundant x < sys.dirichletRow redundant y := by
  have hmem : ∀ m, m ∈ sys.intervalConditions redundant d g ↔ _ :=
    fun m => mem_intervalConditions hg hd
  rw [intervalConditions] at hmem ⊢
  split_ifs at hmem ⊢ with h
  · rw [List.pairwise_flatMap]
    refine ⟨fun dof _ => regionNodes_pairwise g dof _, ?_⟩
    refine List.pairwise_lt_range.imp_of_mem fun {a b} ha _ hab x hx y hy => ?_
    have hx' := ((hmem x).mp (List.mem_flatMap.mpr ⟨a, ha, hx⟩)).2.1
    obtain ⟨k, -, rfl⟩ := List.mem_map.mp hx
    obtain ⟨l, -, rfl⟩ := List.mem_map.mp hy
    exact dirichletRow_lt_of_dof hab hx'
  · exact List.Pairwise.nil

lemma mapConditions_pairwise {g : ℕ} (hg : g < sys.count) :
    (sys.mapConditions redundant g).Pairwise
      fun x y => sys.dirichletRow redundant x < sys.dirichletRow redundant y := by
  have hmem : ∀ m, m ∈ sys.mapConditions redundant g ↔ _ := fun m => mem_mapConditions hg
  rw [mapConditions] at hmem ⊢
  rw [List.pairwise_flatMap]
  refine ⟨fun dof hdof => ?_, ?_⟩
  · rw [List.pairwise_flatMap]
    refine ⟨fun i _ => regionNodes_pairwise g dof i, ?_⟩
    refine List.pairwise_lt_range.imp_of_mem fun {a b} ha _ hab x hx y hy => ?_
    have hx' := ((hmem x).mp (List.mem_flatMap.mpr
      ⟨dof, hdof, List.mem_flatMap.mpr ⟨a, ha, hx⟩⟩)).2
    obtain ⟨k, -, rfl⟩ := List.mem_map.mp hx
    obtain ⟨l, -, rfl⟩ := List.mem_map.mp hy
    exact dirichletRow_lt_of_position hab hx'
  · refine List.pairwise_lt_range.imp_of_mem fun {a b} ha _ hab x hx y hy => ?_
    have hx' := ((hmem x).mp (List.mem_flatMap.mpr ⟨a, ha, hx⟩)).2
    simp only [List.mem_flatMap, List.mem_map] at hx hy
    obtain ⟨i, -, k, -, rfl⟩ := hx
    obtain ⟨j, -, l, -, rfl⟩ := hy
    exact dirichletRow_lt_of_dof hab hx'

lemma Arranged.domainConditions_pairwise (harr : sys.Arranged) (d : ℕ) :
    (sys.domainConditions redundant d).Pairwise
      fun x y => sys.dirichletRow redundant x < sys.dirichletRow redundant y := by
  refine harr.flatMap_pairwise (sys.dirichletRows redundant) 0
    (List.pairwise_lt_range.filter _)
    (fun g hg => (mem_domainIds.mp hg).1) (fun g hg => ?_) fun g hg m hm => ?_
  · obtain ⟨hg, hd⟩ := mem_domainIds.mp hg
    exact intervalConditions_pairwise hg hd
  · obtain ⟨hg, hd⟩ := mem_domainIds.mp hg
    obtain ⟨rfl, hm, -⟩ := (mem_intervalConditions hg hd).mp hm
    exact dirichletRow_mem hm

lemma Arranged.rankConditions_pairwise (harr : sys.Arranged) (r : ℕ) :
    (sys.rankConditions redundant r).Pairwise
      fun x y => sys.dirichletRow redundant x < sys.dirichletRow redundant y := by
  refine List.Pairwise.filter _ (harr.flatMap_pairwise (sys.dirichletRows redundant) 0
    (List.pairwise_lt_range.filter _)
    (fun g hg => (mem_ids.mp hg).1) (fun g hg => ?_) fun g hg m hm => ?_)
  · exact mapConditions_pairwise (mem_ids.mp hg).1
  · obtain ⟨rfl, hm'⟩ := (mem_mapConditions (mem_ids.mp hg).1).mp hm
    exact dirichletRow_mem hm'

/-! ## Gluing rows -/

lemma gluingRow_mem {m : Multiplier} (hm : m ∈ sys.multipliers redundant) :
    sys.dirichletSize redundant + sys.offset (sys.gluingRows redundant) m.1
        < sys.gluingRow redundant m ∧
      sys.gluingRow redundant m
        ≤ sys.dirichletSize redundant + sys.offset (sys.gluingRows redundant) m.1
          + sys.gluingRows redundant m.1 := by
  rw [multipliers_eq] at hm
  have h : sys.gluingPosition redundant m < sys.gluingRows redundant m.1 :=
    (gluingPosition_bijOn sys redundant m.1).mapsTo hm.2
  rw [gluingRow]
  omega

lemma gluingRow_lt_of_node {g : ℕ} {x y : ℕ × ℕ} {p q : ℕ × ℕ}
    (hxy : (sys.gluedDOFs redundant g).idxOf x < (sys.gluedDOFs redundant g).idxOf y)
    (hp : p ∈ gluedPairs redundant (sys.ndomains g)) :
    sys.gluingRow redundant (g, x, p) < sys.gluingRow redundant (g, y, q) := by
  have hpos : pairPosition redundant (sys.ndomains g) p < noffset redundant (sys.ndomains g) :=
    (pairPosition_bijOn _).mapsTo hp
  have hnode := Nat.mul_le_mul_right (noffset redundant (sys.ndomains g)) (Nat.succ_le_of_lt hxy)
  simp only [Nat.succ_mul] at hnode
  simp only [gluingRow, gluingPosition]
  omega

lemma gluingRow_lt_of_pair {g : ℕ} {x : ℕ × ℕ} {p q : ℕ × ℕ}
    (hpq : pairPosition redundant (sys.ndomains g) p < pairPosition redundant (sys.ndomains g) q) :
    sys.gluingRow redundant (g, x, p) < sys.gluingRow redundant (g, x, q) := by
  simp only [gluingRow, gluingPosition]
  omega

lemma pairIndex_lt {n a b c d : ℕ} (hab : a < b) (hbn : b < n) (hcd : c < d)
    (h : a < c ∨ a = c ∧ b < d) : pairIndex n a b < pairIndex n c d := by
  rcases h with h | ⟨rfl, h⟩
  · have hstart := start_add_le (fun l => n - 1 - l) h
    simp only [pairIndex]
    omega
  · simp only [pairIndex]
    omega

lemma pairPosition_lt {n : ℕ} {p q : ℕ × ℕ} (hp : p ∈ gluedPairs redundant n)
    (hq : q ∈ gluedPairs redundant n) (h : p.1 < q.1 ∨ p.1 = q.1 ∧ p.2 < q.2) :
    pairPosition redundant n p < pairPosition redundant n q := by
  cases redundant with
  | true => exact pairIndex_lt hp.1 hp.2.1 hq.1 h
  | false =>
      have h₁ := hp.2.2 rfl
      have h₂ := hq.2.2 rfl
      simp only [pairPosition, Bool.false_eq_true, if_false]
      omega

lemma gluePartners_pairwise {n δ : ℕ} : (gluePartners redundant n δ).Pairwise (· < ·) := by
  cases redundant with
  | true =>
      refine List.pairwise_append.mpr ⟨List.pairwise_lt_range, List.pairwise_lt_range', ?_⟩
      intro p hp q hq
      have := List.mem_range.mp hp
      have := (List.mem_range'_1.mp hq).1
      omega
  | false =>
      simp only [gluePartners, Bool.false_eq_true, if_false]
      split_ifs <;> simp

lemma rankPairs_pairwise (n s : ℕ) :
    (rankPairs redundant (List.range' s n)).Pairwise
      fun p q => p.1 < q.1 ∨ p.1 = q.1 ∧ p.2 < q.2 := by
  induction n generalizing s with
  | zero => exact List.Pairwise.nil
  | succ n ih =>
      rw [List.range'_succ, rankPairs]
      refine List.pairwise_append.mpr ⟨?_, ih (s + 1), fun p hp q hq => ?_⟩
      · refine List.pairwise_map.mpr ?_
        have hsorted : (List.range' (s + 1) n).Pairwise (· < ·) := List.pairwise_lt_range'
        have htake : (if redundant then List.range' (s + 1) n else (List.range' (s + 1) n).take 1).Pairwise
            (· < ·) := by
          split_ifs
          · exact hsorted
          · exact hsorted.sublist (List.take_sublist _ _)
        exact htake.imp fun {a b} hab => Or.inr ⟨rfl, hab⟩
      · obtain ⟨_, -, rfl⟩ := List.mem_map.mp hp
        have := ((mem_rankPairs redundant n (s + 1) q).mp hq).1
        exact Or.inl (by simp only; omega)

lemma intervalMultipliers_pairwise {d g : ℕ} (hd : d ∈ (sys.interval g).domains) :
    (sys.intervalMultipliers redundant d g).Pairwise
      fun x y => sys.gluingRow redundant x < sys.gluingRow redundant y := by
  obtain ⟨hδ, -⟩ := domainAt_lowerBound hd
  have hpair : ∀ p ∈ gluePartners redundant (sys.ndomains g) (lowerBound (sys.interval g).domains d),
      (min (lowerBound (sys.interval g).domains d) p, max (lowerBound (sys.interval g).domains d) p)
        ∈ gluedPairs redundant (sys.ndomains g) := by
    intro p hp
    obtain ⟨hpn, hne, hnext⟩ := (mem_gluePartners hδ).mp hp
    refine ⟨?_, ?_, fun h => ?_⟩
    · simp only
      omega
    · simp only
      omega
    · have := hnext h
      simp only
      omega
  rw [intervalMultipliers, List.pairwise_flatMap]
  refine ⟨fun x _ => ?_, (idxOf_pairwise (gluedDOFs_nodup g)).imp fun {x y} hxy m hm n hn => ?_⟩
  · refine List.pairwise_map.mpr (gluePartners_pairwise.imp_of_mem fun {p q} hp hq hpq => ?_)
    have hpδ := ((mem_gluePartners hδ).mp hp).2.1
    have hqδ := ((mem_gluePartners hδ).mp hq).2.1
    refine gluingRow_lt_of_pair (pairPosition_lt (hpair p hp) (hpair q hq) ?_)
    simp only
    omega
  · obtain ⟨p, hp, rfl⟩ := List.mem_map.mp hm
    obtain ⟨q, -, rfl⟩ := List.mem_map.mp hn
    exact gluingRow_lt_of_node hxy (hpair p hp)

lemma mapMultipliers_pairwise (g : ℕ) :
    (sys.mapMultipliers redundant g).Pairwise
      fun x y => sys.gluingRow redundant x < sys.gluingRow redundant y := by
  have hpair : ∀ p ∈ rankPairs redundant (List.range (sys.ndomains g)),
      p ∈ gluedPairs redundant (sys.ndomains g) := by
    intro p hp
    rw [List.range_eq_range', mem_rankPairs, Nat.zero_add] at hp
    exact hp.2
  rw [mapMultipliers, List.pairwise_flatMap]
  refine ⟨fun x _ => ?_, (idxOf_pairwise (gluedDOFs_nodup g)).imp fun {x y} hxy m hm n hn => ?_⟩
  · rw [List.range_eq_range'] at hpair ⊢
    refine List.pairwise_map.mpr ((rankPairs_pairwise _ 0).imp_of_mem fun {p q} hp hq hpq => ?_)
    exact gluingRow_lt_of_pair (pairPosition_lt (hpair p hp) (hpair q hq) hpq)
  · obtain ⟨p, hp, rfl⟩ := List.mem_map.mp hm
    obtain ⟨q, -, rfl⟩ := List.mem_map.mp hn
    exact gluingRow_lt_of_node hxy (hpair p hp)

lemma Arranged.domainMultipliers_pairwise (harr : sys.Arranged) (d : ℕ) :
    (sys.domainMultipliers redundant d).Pairwise
      fun x y => sys.gluingRow redundant x < sys.gluingRow redundant y := by
  refine harr.flatMap_pairwise (sys.gluingRows redundant) (sys.dirichletSize redundant)
    (List.pairwise_lt_range.filter _) (fun g hg => (mem_domainIds.mp hg).1) (fun g hg => ?_)
    fun g hg m hm => ?_
  · exact intervalMultipliers_pairwise (mem_domainIds.mp hg).2
  · obtain ⟨hg, hd⟩ := mem_domainIds.mp hg
    obtain ⟨rfl, hm, -⟩ := (mem_intervalMultipliers hg hd).mp hm
    exact gluingRow_mem hm

lemma Arranged.rankMultipliers_pairwise (harr : sys.Arranged) (r : ℕ) :
    (sys.rankMultipliers redundant r).Pairwise
      fun x y => sys.gluingRow redundant x < sys.gluingRow redundant y := by
  refine List.Pairwise.filter _ (harr.flatMap_pairwise (sys.gluingRows redundant)
    (sys.dirichletSize redundant) (List.pairwise_lt_range.filter _)
    (fun g hg => (mem_ids.mp hg).1) (fun g _ => mapMultipliers_pairwise g) fun g hg m hm => ?_)
  obtain ⟨rfl, hm'⟩ := (mem_mapMultipliers (mem_ids.mp hg).1).mp hm
  exact gluingRow_mem hm'

end System

end Espreso
