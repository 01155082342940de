import Espreso.Input.Clusterize
import Espreso.Lib.Fallible

/-!
# The borders of the clusters

In front of each level of the refinement, every border is close to its target, or the target lies in
a bucket that is refined in this level.

* `ElementBuckets.Refines` — the buckets that are refined.
* `ElementBuckets.Placed` — the invariant of the borders, kept by a level (`Placed.step`).
* `ElementBuckets.Invariant` — the invariant of the state of both recursions.
* `ElementBuckets.balanced_iff` — when the borders are as they should be.
-/

namespace Espreso

open SFC SFC.Refinement

namespace ElementBuckets

variable {b : ℕ} (E : ElementBuckets b)

/-! ## Refined buckets -/

def Far (d c r : ℕ) : Prop :=
  E.front d c < E.target r ∧ E.ETOLERANCE ≤ E.target r - E.front d c ∧
    E.target r + E.ETOLERANCE < E.front d (c + 1)

/-- **The refined buckets** of a level: the root, and the buckets with targets far from their ends. -/
def Refines (d c : ℕ) : Prop := d = 0 ∧ c = 0 ∨ 0 < d ∧ ∃ r ≤ E.size, E.Far d c r

/-- The number of the elements of all ranks below a bucket of level `SFCDEPTH`. -/
def below (x : ℕ) : ℕ := (E.eBuckets.map fun elements => elements.countP (· < x)).sum

variable {E}

lemma Far.inRange {d c r : ℕ} (h : E.Far d c r) : E.InRange d c r :=
  ⟨h.1.le, (Nat.le_add_right _ _).trans_lt h.2.2⟩

lemma front_parent (d c : ℕ) (hd : d < E.depth) :
    E.front d (c / b) ≤ E.front (d + 1) c ∧ E.front (d + 1) (c + 1) ≤ E.front d (c / b + 1) := by
  have hb : 0 < b := Nat.zero_lt_of_lt E.one_lt_bucketSize
  constructor
  · rw [← front_succ hd]
    exact front_mono _ (Nat.mul_div_le c b)
  · rw [← front_succ hd]
    exact front_mono _ (Nat.lt_mul_div_succ c hb)

lemma Far.parent {d c r : ℕ} (hd : d < E.depth) (h : E.Far (d + 1) c r) : E.Far d (c / b) r := by
  have hfront := front_parent d c hd
  obtain ⟨hlow, htol, hhigh⟩ := h
  exact ⟨by omega, by omega, by omega⟩

lemma InRange.unique {d c c' r : ℕ} (h : E.InRange d c r) (h' : E.InRange d c' r) : c = c' := by
  rcases Nat.lt_trichotomy c c' with hlt | heq | hgt
  · exact absurd (h.2.trans_le (front_mono d hlt)) (Nat.not_lt.mpr h'.1)
  · exact heq
  · exact absurd (h'.2.trans_le (front_mono d hgt)) (Nat.not_lt.mpr h.1)

lemma InRange.lt_pow {d c r : ℕ} (hd : d ≤ E.depth) (h : E.InRange d c r) : c < b ^ d := by
  by_contra hle
  have hfront := front_pow hd (Nat.le_of_not_lt hle)
  have := h.1.trans_lt h.2
  have := front_le (E := E) d (c + 1)
  omega

lemma Refines.lt_pow {d c : ℕ} (hd : d ≤ E.depth) (h : E.Refines d c) : c < b ^ d := by
  rcases h with ⟨rfl, rfl⟩ | ⟨-, r, -, hfar⟩
  · exact Nat.one_pos
  · exact hfar.inRange.lt_pow hd

lemma Refines.parent {d c : ℕ} (hd : d < E.depth) (h : E.Refines (d + 1) c) :
    E.Refines d (c / b) := by
  rcases h with ⟨h, -⟩ | ⟨-, r, hr, hfar⟩
  · omega
  · have hparent := hfar.parent hd
    rcases Nat.eq_zero_or_pos d with rfl | hpos
    · have hlt := hparent.inRange.lt_pow (Nat.zero_le _)
      exact Or.inl ⟨rfl, Nat.lt_one_iff.mp (by rwa [pow_zero] at hlt)⟩
    · exact Or.inr ⟨hpos, r, hr, hparent⟩

/-- **The refined buckets of the next level** are the parts in which targets have to be looked for. -/
lemma refines_succ_iff {d c : ℕ} (hd : d < E.depth) :
    E.Refines (d + 1) c ↔ ∃ cell, E.Refines d cell ∧ ∃ j r, E.SplitsPart d cell r j ∧ b * cell + j = c := by
  constructor
  · intro h
    have hparent := h.parent hd
    rcases h with ⟨h, -⟩ | ⟨-, r, hr, hfar⟩
    · omega
    have hb : 0 < b := Nat.zero_lt_of_lt E.one_lt_bucketSize
    have hpart : b * (c / b) + c % b = c := Nat.div_add_mod c b
    have hin := (hfar.parent hd).inRange
    have hidx : E.IndexOf (fun i => E.front (d + 1) (b * (c / b) + i)) (E.target r) (c % b + 1) := by
      refine ⟨Nat.mod_lt c hb, fun j hj => ?_, fun hstop => ?_⟩
      · have hle := front_mono (E := E) (d + 1) (show b * (c / b) + j ≤ c by omega)
        have := hfar.1
        have := hfar.2.1
        omega
      · have hlt := hstop.1
        rw [show b * (c / b) + (c % b + 1) = c + 1 by omega] at hlt
        have := hfar.2.2
        omega
    refine ⟨c / b, hparent, c % b, r, ⟨hr, hin, (partIndex_spec hd hin).unique hidx, ?_⟩, hpart⟩
    rw [show b * (c / b) + (c % b + 1) = c + 1 by omega]
    exact hfar.2.2
  · rintro ⟨cell, -, j, r, ⟨hr, hin, hidx, hlt⟩, rfl⟩
    have hpassed := (partIndex_spec hd hin).passed j (by omega)
    exact Or.inr ⟨Nat.succ_pos d, r, hr, hpassed.1, hpassed.2, hlt⟩

/-! ## The borders -/

variable (E) in
/-- A border in front of which there are as many elements as the target says, up to the tolerance. -/
def Close (border : ℕ → ℕ) (r : ℕ) : Prop :=
  E.target r ≤ E.below (border r) + E.ETOLERANCE ∧
    E.below (border r) ≤ E.target r + E.ETOLERANCE

variable (E) in
/-- **The invariant of the borders** in front of level `d`. -/
structure Placed (d : ℕ) (border : ℕ → ℕ) : Prop where
  mono : ∀ r s, r ≤ s → s ≤ E.size → border r ≤ border s
  before : ∀ c, E.Refines d c → ∀ r ≤ E.size, E.target r < E.front d c →
    border r ≤ c * b ^ (E.depth - d)
  behind : ∀ c, E.Refines d c → E.front d c < E.front d (c + 1) → ∀ r ≤ E.size,
    E.front d (c + 1) ≤ E.target r → (c + 1) * b ^ (E.depth - d) ≤ border r
  close : ∀ r ≤ E.size, E.Close border r ∨ ∃ c, E.Refines d c ∧ E.InRange d c r
  zero : border 0 = 0 ↔ ∀ k, 0 < k → k < d → ∀ c, c ≠ 0 → E.front k c = 0 → ∀ r ≤ E.size,
    ¬E.Far k c r
  last : border E.size = b ^ E.depth

lemma front_eq_below (d c : ℕ) : E.front d c = E.below (c * b ^ (E.depth - d)) := rfl

lemma front_depth (c : ℕ) : E.front E.depth c = E.below c := by
  rw [front_eq_below, Nat.sub_self, Nat.pow_zero, Nat.mul_one]

lemma front_one_pos {d k : ℕ} (hkd : k ≤ d) (hd : d ≤ E.depth) (h : 0 < E.front d 1) :
    0 < E.front k 1 := by
  rw [front_eq_below] at h ⊢
  refine h.trans_le (List.sum_le_sum fun elements _ => List.countP_mono_left fun e _ he => ?_)
  have hpow : 1 * b ^ (E.depth - d) ≤ 1 * b ^ (E.depth - k) :=
    Nat.mul_le_mul_left 1
      (Nat.pow_le_pow_right (Nat.zero_lt_of_lt E.one_lt_bucketSize) (by omega))
  exact decide_eq_true ((of_decide_eq_true he).trans_le hpow)

lemma target_zero : E.target 0 = 0 := E.targets.border_zero

lemma target_size : E.target E.size = E.esize := E.targets.border_size

lemma inRange_zero_iff {d c : ℕ} :
    E.InRange d c 0 ↔ E.front d c = 0 ∧ 0 < E.front d (c + 1) := by
  rw [InRange, target_zero, Nat.le_zero]

lemma not_inRange_size (d c : ℕ) : ¬E.InRange d c E.size := by
  intro h
  have hlt := h.2.trans_le (front_le d (c + 1))
  rw [target_size] at hlt
  exact lt_irrefl _ hlt

/-- What a level does with the borders: those of the targets in refined buckets are moved to the
parts found. -/
structure Moved (E : ElementBuckets b) (d : ℕ) (border border' : ℕ → ℕ) : Prop where
  inside : ∀ c r, r ≤ E.size → E.Refines d c → E.InRange d c r →
    border' r = b ^ (E.depth - (d + 1)) * (b * c + E.partIndex d c r)
  outside : ∀ r ≤ E.size, (∀ c, E.Refines d c → ¬E.InRange d c r) → border' r = border r

namespace Moved

variable {d : ℕ} {border border' : ℕ → ℕ} (hd : d < E.depth) (hmoved : E.Moved d border border')

include hd

lemma mul_part (c i : ℕ) : b ^ (E.depth - (d + 1)) * (b * c + i)
    = c * b ^ (E.depth - d) + i * b ^ (E.depth - (d + 1)) := by
  rw [← mul_parts hd]
  ring

include hmoved

lemma bounds {c r : ℕ} (hr : r ≤ E.size) (hc : E.Refines d c) (hin : E.InRange d c r) :
    c * b ^ (E.depth - d) ≤ border' r ∧ border' r ≤ (c + 1) * b ^ (E.depth - d) := by
  have hle := (partIndex_spec hd hin).le
  rw [hmoved.inside c r hr hc hin]
  constructor
  · rw [mul_part hd]
    exact Nat.le_add_right _ _
  · rw [← mul_parts hd, Nat.mul_comm, Nat.mul_succ]
    exact Nat.mul_le_mul_right _ (Nat.add_le_add_left hle _)

variable (hplaced : E.Placed d border)

include hplaced

lemma le_start {c r : ℕ} (hc : E.Refines d c) (hr : r ≤ E.size) (hlt : E.target r < E.front d c) :
    border' r ≤ c * b ^ (E.depth - d) := by
  by_cases h : ∃ c', E.Refines d c' ∧ E.InRange d c' r
  · obtain ⟨c', hc', hin⟩ := h
    refine (bounds hd hmoved hr hc' hin).2.trans (Nat.mul_le_mul_right _ ?_)
    by_contra hle
    have := front_mono (E := E) d (Nat.le_of_lt_succ (Nat.lt_of_not_le hle))
    have := hin.1
    omega
  · push Not at h
    rw [hmoved.outside r hr h]
    exact hplaced.before c hc r hr hlt

lemma stop_le {c r : ℕ} (hc : E.Refines d c) (hpos : E.front d c < E.front d (c + 1))
    (hr : r ≤ E.size) (hle : E.front d (c + 1) ≤ E.target r) :
    (c + 1) * b ^ (E.depth - d) ≤ border' r := by
  by_cases h : ∃ c', E.Refines d c' ∧ E.InRange d c' r
  · obtain ⟨c', hc', hin⟩ := h
    refine (Nat.mul_le_mul_right _ ?_).trans (bounds hd hmoved hr hc' hin).1
    by_contra hlt
    have := front_mono (E := E) d (show c' + 1 ≤ c + 1 by omega)
    have := hin.2
    omega
  · push Not at h
    rw [hmoved.outside r hr h]
    exact hplaced.behind c hc hpos r hr hle

lemma mono {r s : ℕ} (hrs : r ≤ s) (hs : s ≤ E.size) : border' r ≤ border' s := by
  have hr : r ≤ E.size := hrs.trans hs
  have htarget := target_mono hrs hs
  by_cases hin : ∃ c, E.Refines d c ∧ E.InRange d c r
  · obtain ⟨c, hc, hin⟩ := hin
    rcases Nat.lt_or_ge (E.target s) (E.front d (c + 1)) with hlt | hge
    · -- both targets lie in one bucket
      have hins : E.InRange d c s := ⟨hin.1.trans htarget, hlt⟩
      rw [hmoved.inside c r hr hc hin, hmoved.inside c s hs hc hins]
      have hidx := IndexOf.mono htarget (partIndex_spec hd hin) (partIndex_spec hd hins)
      exact Nat.mul_le_mul_left _ (Nat.add_le_add_left hidx _)
    · have hpos := hin.1.trans_lt hin.2
      exact (bounds hd hmoved hr hc hin).2.trans (stop_le hd hmoved hplaced hc hpos hs hge)
  · push Not at hin
    by_cases hins : ∃ c, E.Refines d c ∧ E.InRange d c s
    · obtain ⟨c, hc, hins⟩ := hins
      have hlt : E.target r < E.front d c := by
        by_contra hge
        exact hin c hc ⟨Nat.le_of_not_lt hge, htarget.trans_lt hins.2⟩
      exact (le_start hd hmoved hplaced hc hr hlt).trans (bounds hd hmoved hs hc hins).1
    · push Not at hins
      rw [hmoved.outside r hr hin, hmoved.outside s hs hins]
      exact hplaced.mono r s hrs hs

lemma before {c r : ℕ} (hc : E.Refines (d + 1) c) (hr : r ≤ E.size)
    (hlt : E.target r < E.front (d + 1) c) : border' r ≤ c * b ^ (E.depth - (d + 1)) := by
  obtain ⟨cell, hcell, j, t, hsplits, rfl⟩ := (refines_succ_iff hd).mp hc
  obtain ⟨-, hin, hidx, -⟩ := hsplits
  have hjb := (partIndex_spec hd hin).le
  have hpart : (b * cell + j) * b ^ (E.depth - (d + 1))
      = cell * b ^ (E.depth - d) + j * b ^ (E.depth - (d + 1)) := by
    rw [← mul_part hd, Nat.mul_comm]
  rcases Nat.lt_or_ge (E.target r) (E.front d cell) with hfront | hfront
  · rw [hpart]
    exact (le_start hd hmoved hplaced hcell hr hfront).trans (Nat.le_add_right _ _)
  · have hinr : E.InRange d cell r := by
      refine ⟨hfront, hlt.trans_le ?_⟩
      rw [← front_succ_last hd]
      exact front_mono _ (by omega)
    have hle : E.partIndex d cell r ≤ j := by
      by_contra hgt
      have := ((partIndex_spec hd hinr).passed j (by omega)).1
      omega
    rw [hmoved.inside cell r hr hcell hinr, Nat.mul_comm]
    exact Nat.mul_le_mul_right _ (Nat.add_le_add_left hle _)

lemma behind {c r : ℕ} (hc : E.Refines (d + 1) c) (hr : r ≤ E.size)
    (hle : E.front (d + 1) (c + 1) ≤ E.target r) :
    (c + 1) * b ^ (E.depth - (d + 1)) ≤ border' r := by
  obtain ⟨cell, hcell, j, t, ⟨-, hin, hidx, hlarge⟩, rfl⟩ := (refines_succ_iff hd).mp hc
  have hjb := (partIndex_spec hd hin).le
  have hpassed := (partIndex_spec hd hin).passed j (by omega)
  rw [Nat.add_assoc] at hle ⊢
  rcases Nat.lt_or_ge (E.target r) (E.front d (cell + 1)) with hfront | hfront
  · have hinr : E.InRange d cell r := by
      refine ⟨le_trans ?_ hle, hfront⟩
      rw [← front_succ hd]
      exact front_mono _ (Nat.le_add_right _ _)
    have hlt : j + 1 ≤ E.partIndex d cell r := by
      -- otherwise the index of the target is too small: more elements than twice the tolerance
      -- lie in the part
      by_contra hge
      have hstop := (partIndex_spec hd hinr).stopped
      have hmono := front_mono (E := E) (d + 1)
        (show b * cell + E.partIndex d cell r ≤ b * cell + j by omega)
      omega
    rw [hmoved.inside cell r hr hcell hinr, Nat.mul_comm]
    exact Nat.mul_le_mul_left _ (Nat.add_le_add_left hlt _)
  · have hstop := stop_le hd hmoved hplaced hcell (hin.1.trans_lt hin.2) hr hfront
    rw [← mul_parts hd, Nat.mul_succ] at hstop
    exact (Nat.mul_le_mul_right _ (by omega)).trans hstop

lemma close {r : ℕ} (hr : r ≤ E.size) :
    E.Close border' r ∨ ∃ c, E.Refines (d + 1) c ∧ E.InRange (d + 1) c r := by
  by_cases hin : ∃ c, E.Refines d c ∧ E.InRange d c r
  · obtain ⟨c, hc, hin⟩ := hin
    have hidx := partIndex_spec hd hin
    have hbelow : E.below (border' r) = E.front (d + 1) (b * c + E.partIndex d c r) := by
      rw [hmoved.inside c r hr hc hin, front_eq_below, Nat.mul_comm]
    have hstop := hidx.stopped
    rw [Close, hbelow]
    rcases hzero : E.partIndex d c r with _ | j
    · -- the target is that of the beginning of the bucket, up to the tolerance
      have hfront := hin.1
      rw [← front_succ hd] at hfront
      rw [hzero] at hstop
      simp only [Nat.add_zero] at hstop ⊢
      exact Or.inl (by omega)
    · have hpassed := hidx.passed j (by omega)
      rw [hzero] at hstop
      by_cases hlarge : E.target r + E.ETOLERANCE < E.front (d + 1) (b * c + (j + 1))
      · refine Or.inr ⟨b * c + j, (refines_succ_iff hd).mpr ?_, hpassed.1.le, ?_⟩
        · exact ⟨c, hc, j, r, ⟨hr, hin, hzero, hlarge⟩, rfl⟩
        · exact (Nat.le_add_right _ _).trans_lt hlarge
      · exact Or.inl (by omega)
  · push Not at hin
    rw [Close, hmoved.outside r hr hin]
    refine Or.inl ((hplaced.close r hr).resolve_right ?_)
    rintro ⟨c, hc, hcin⟩
    exact hin c hc hcin

lemma zero : border' 0 = 0 ↔ ∀ k, 0 < k → k < d + 1 → ∀ c, c ≠ 0 → E.front k c = 0 →
    ∀ r ≤ E.size, ¬E.Far k c r := by
  have hlater : (∀ k, 0 < k → k < d + 1 → ∀ c, c ≠ 0 → E.front k c = 0 → ∀ r ≤ E.size, ¬E.Far k c r) ↔
      (∀ k, 0 < k → k < d → ∀ c, c ≠ 0 → E.front k c = 0 → ∀ r ≤ E.size, ¬E.Far k c r) ∧
      ∀ c, c ≠ 0 → E.Refines d c → E.front d c ≠ 0 := by
    constructor
    · intro h
      refine ⟨fun k hk hkd => h k hk (hkd.trans (Nat.lt_succ_self d)), fun c hc hrefines hfront => ?_⟩
      rcases hrefines with ⟨-, rfl⟩ | ⟨hpos, r, hr, hfar⟩
      · exact hc rfl
      · exact h d hpos (Nat.lt_succ_self d) c hc hfront r hr hfar
    · rintro ⟨h, hd⟩ k hk hkd c hc hfront r hr hfar
      rcases Nat.lt_succ_iff_lt_or_eq.mp hkd with hlt | rfl
      · exact h k hk hlt c hc hfront r hr hfar
      · exact hd c hc (Or.inr ⟨hk, r, hr, hfar⟩) hfront
  rw [hlater, ← hplaced.zero]
  by_cases hin : ∃ c, E.Refines d c ∧ E.InRange d c 0
  · obtain ⟨c, hc, hin⟩ := hin
    obtain ⟨hfront, hstop⟩ := inRange_zero_iff.mp hin
    have hborder : border' 0 = c * b ^ (E.depth - d) := by
      have hidx : E.partIndex d c 0 = 0 := Nat.le_zero.mp <| Nat.le_of_not_lt fun hpos =>
        absurd ((partIndex_spec hd hin).passed 0 hpos).1 (by rw [target_zero]; exact Nat.not_lt_zero _)
      rw [hmoved.inside c 0 (Nat.zero_le _) hc hin, hidx, mul_part hd, Nat.zero_mul, Nat.add_zero]
    have hpow : b ^ (E.depth - d) ≠ 0 :=
      (Nat.pow_pos (Nat.zero_lt_of_lt E.one_lt_bucketSize)).ne'
    rw [hborder, Nat.mul_eq_zero, or_iff_left hpow]
    constructor
    · rintro rfl
      refine ⟨hplaced.zero.mpr fun k hk hkd c' hc' hfront' r hr hfar => ?_, fun c' hc' _ hfront' => ?_⟩
      · have hpos := front_one_pos hkd.le hd.le hstop
        have hle := front_mono (E := E) k (Nat.one_le_iff_ne_zero.mpr hc')
        exact (hpos.trans_le hle).ne' hfront'
      · have hle := front_mono (E := E) d (Nat.one_le_iff_ne_zero.mpr hc')
        exact (hstop.trans_le hle).ne' hfront'
    · rintro ⟨-, h⟩
      by_contra hne
      exact h c hne hc hfront
  · push Not at hin
    rw [hmoved.outside 0 (Nat.zero_le _) hin]
    refine (and_iff_left fun c hne hc hfront => ?_).symm
    rcases hc with ⟨-, rfl⟩ | ⟨hpos, r, hr, hfar⟩
    · exact hne rfl
    · have hstop := Nat.zero_lt_of_lt hfar.inRange.2
      exact hin c (Or.inr ⟨hpos, r, hr, hfar⟩) (inRange_zero_iff.mpr ⟨hfront, hstop⟩)

lemma placed : E.Placed (d + 1) border' where
  mono r s hrs hs := mono hd hmoved hplaced hrs hs
  before c hc r hr hlt := before hd hmoved hplaced hc hr hlt
  behind c hc _ r hr hle := behind hd hmoved hplaced hc hr hle
  close r hr := close hd hmoved hplaced hr
  zero := zero hd hmoved hplaced
  last := by
    rw [hmoved.outside E.size le_rfl fun c _ => not_inRange_size d c]
    exact hplaced.last

end Moved

lemma placed_start {border : ℕ → ℕ} (hzero : border 0 = 0)
    (hpos : ∀ r, 0 < r → r ≤ E.size → border r = b ^ E.depth) : E.Placed 0 border where
  mono r s hrs hs := by
    rcases Nat.eq_zero_or_pos r with rfl | hr
    · rw [hzero]
      exact Nat.zero_le _
    · rw [hpos r hr (hrs.trans hs), hpos s (hr.trans_le hrs) hs]
  before c hc r _ hlt := by
    rcases hc with ⟨-, rfl⟩ | ⟨hlt, -⟩
    · rw [front_zero] at hlt
      exact absurd hlt (Nat.not_lt_zero _)
    · exact absurd hlt (lt_irrefl 0)
  behind c hc hfront r hr hle := by
    rcases hc with ⟨-, rfl⟩ | ⟨hlt, -⟩
    · have hr0 : r ≠ 0 := by
        rintro rfl
        rw [target_zero] at hle
        exact absurd (hfront.trans_le hle) (Nat.not_lt_zero _)
      rw [hpos r (Nat.pos_of_ne_zero hr0) hr]
      simp
    · exact absurd hlt (lt_irrefl 0)
  close r hr := by
    rcases Nat.lt_or_ge (E.target r) E.esize with hlt | hge
    · refine Or.inr ⟨0, Or.inl ⟨rfl, rfl⟩, ?_, ?_⟩
      · rw [front_zero]
        exact Nat.zero_le _
      · rwa [front_pow (Nat.zero_le _) (by simp)]
    · have htarget : E.target r = E.esize :=
        le_antisymm (E.targets.border_le_total hr) hge
      refine Or.inl ?_
      rw [Close, htarget]
      rcases Nat.eq_zero_or_pos r with rfl | hr0
      · have hbelow : E.below (border 0) = 0 := by rw [hzero, ← front_depth, front_zero]
        rw [target_zero] at htarget
        omega
      · have hbelow : E.below (border r) = E.esize := by
          rw [hpos r hr0 hr, ← front_depth, front_pow le_rfl le_rfl]
        omega
  zero := iff_of_true hzero fun k _ hk => absurd hk (Nat.not_lt_zero k)
  last := hpos E.size E.size_pos le_rfl

/-! ## One level -/

/-- The position of a part of a refined bucket among the counts. -/
def partPosition (b : ℕ) (cells : List ℕ) (c : ℕ) : ℕ := lowerBound cells (c / b) * (b + 1) + c % b

lemma partPosition_eq {cells : List ℕ} (hcells : cells.Pairwise (· < ·)) {k c j : ℕ}
    (hk : cells[k]? = some c) (hj : j < b) : partPosition b cells (b * c + j) = k * (b + 1) + j := by
  have hdiv : (b * c + j) / b = c := by
    rw [Nat.mul_add_div (Nat.zero_lt_of_lt hj), Nat.div_eq_of_lt hj, Nat.add_zero]
  rw [partPosition, hdiv, lowerBound_getElem? hcells hk, Nat.mul_add_mod, Nat.mod_eq_of_lt hj]

/-- **What the search changes in a level.** -/
structure LevelFound (E : ElementBuckets b) (d : ℕ) (cells l : List ℕ) (found found' : Found) :
    Prop where
  length : found'.bucketsBorders.length = found.bucketsBorders.length
  inside : ∀ c r, r ≤ E.size → c ∈ l → E.InRange d c r → found'.bucketsBorders.getD r 0
    = b ^ (E.depth - (d + 1)) * (b * c + E.partIndex d c r)
  outside : ∀ r ≤ E.size, (∀ c ∈ l, ¬E.InRange d c r) →
    found'.bucketsBorders.getD r 0 = found.bucketsBorders.getD r 0
  recursed : ∃ parts : List ℕ,
    (∀ x, x ∈ parts ↔ ∃ c ∈ l, ∃ j r, E.SplitsPart d c r j ∧ b * c + j = x) ∧
    found'.recursed = found.recursed ++ parts ∧
    found'.refinedindices = found.refinedindices ++ parts.map (partPosition b cells)

lemma foldl_searchCell {d : ℕ} (hd : d < E.depth) {cells rcounts : List ℕ}
    (hcells : cells.Pairwise (· < ·)) (hcounts : E.CountsParts cells rcounts d)
    {l : List (ℕ × ℕ)} (hl : ∀ p ∈ l, cells[p.2]? = some p.1) {found : Found}
    (hlength : found.bucketsBorders.length = E.size + 1) :
    E.LevelFound d cells (l.map Prod.fst) found
      (l.foldl (E.searchCell (b ^ (E.depth - (d + 1))) rcounts) found) := by
  induction l generalizing found with
  | nil =>
      exact ⟨rfl, fun c r _ hc => absurd hc List.not_mem_nil, fun _ _ _ => rfl, [], by simp, by simp,
        by simp⟩
  | cons p l ih =>
      have hp := hl p List.mem_cons_self
      have hcell := searchCell_spec hd hcounts hp hlength
      have htail := ih (fun q hq => hl q (List.mem_cons_of_mem p hq)) (hcell.length.trans hlength)
      rw [List.foldl_cons, List.map_cons]
      refine ⟨htail.length.trans hcell.length, fun c r hr hc hin => ?_, fun r hr hout => ?_, ?_⟩
      · by_cases hmem : c ∈ l.map Prod.fst
        · exact htail.inside c r hr hmem hin
        · have heq : c = p.1 := (List.mem_cons.mp hc).resolve_right hmem
          rw [htail.outside r hr fun c' hc' hin' => hmem (hin.unique hin' ▸ hc'), heq]
          exact (hcell.border r hr).1 (heq ▸ hin)
      · rw [htail.outside r hr fun c hc => hout c (List.mem_cons_of_mem _ hc)]
        exact (hcell.border r hr).2 (hout p.1 List.mem_cons_self)
      · obtain ⟨parts, hparts, hrecursed, hindices⟩ := hcell.recursed
        obtain ⟨later, hlater, hrecursed', hindices'⟩ := htail.recursed
        refine ⟨parts.map (b * p.1 + ·) ++ later, fun x => ?_, ?_, ?_⟩
        · rw [List.mem_append, hlater, List.mem_map]
          simp only [hparts, List.mem_cons, exists_eq_or_imp]
          refine or_congr_left ⟨?_, ?_⟩
          · rintro ⟨j, ⟨r, h⟩, rfl⟩
            exact ⟨j, r, h, rfl⟩
          · rintro ⟨j, r, h, rfl⟩
            exact ⟨j, ⟨r, h⟩, rfl⟩
        · rw [hrecursed', hrecursed, List.append_assoc]
        · have hmap : parts.map (fun j => p.2 * (b + 1) + j)
              = (parts.map (b * p.1 + ·)).map (partPosition b cells) := by
            rw [List.map_map]
            refine List.map_congr_left fun j hj => ?_
            obtain ⟨r, -, hin, hidx, -⟩ := (hparts j).mp hj
            have hle := (partIndex_spec hd hin).le
            exact (partPosition_eq hcells hp (by omega)).symm
          rw [hindices', hindices, hmap, List.map_append, List.append_assoc]

/-- **The search in a level**, where the counts in the parts are right. -/
lemma searchLevel_spec {d : ℕ} (hd : d < E.depth) {cells rcounts bucketsBorders : List ℕ}
    (hcells : cells.Pairwise (· < ·)) (hcounts : E.CountsParts cells rcounts d)
    (hlength : bucketsBorders.length = E.size + 1) :
    E.LevelFound d cells cells ⟨bucketsBorders, [], []⟩
      (E.searchLevel (b ^ (E.depth - (d + 1))) cells rcounts bucketsBorders) := by
  have h : E.LevelFound d cells (cells.zipIdx.map Prod.fst) ⟨bucketsBorders, [], []⟩
      (E.searchLevel (b ^ (E.depth - (d + 1))) cells rcounts bucketsBorders) :=
    foldl_searchCell hd hcells hcounts (fun p hp => List.mem_zipIdx_iff_getElem?.mp hp) hlength
  rwa [List.zipIdx_map_fst] at h

lemma partPosition_lt {cells : List ℕ} (hcells : cells.Pairwise (· < ·)) (hb : 0 < b) {x y : ℕ}
    (hx : x / b ∈ cells) (hxy : x < y) : partPosition b cells x < partPosition b cells y := by
  have hmod := Nat.mod_lt x hb
  rcases Nat.eq_or_lt_of_le (Nat.div_le_div_right (c := b) hxy.le) with heq | hlt
  · have hx' := Nat.div_add_mod x b
    have hy' := Nat.div_add_mod y b
    rw [partPosition, partPosition, ← heq]
    rw [← heq] at hy'
    omega
  · have hk := (lt_lowerBound_iff (hcells.imp fun h => le_of_lt h) ((lowerBound_mem hcells).mpr hx)).mpr
      hlt
    calc partPosition b cells x
        < lowerBound cells (x / b) * (b + 1) + (b + 1) := by
          rw [partPosition]
          omega
      _ = (lowerBound cells (x / b) + 1) * (b + 1) := (Nat.succ_mul _ _).symm
      _ ≤ lowerBound cells (y / b) * (b + 1) := Nat.mul_le_mul_right _ hk
      _ ≤ partPosition b cells y := Nat.le_add_right _ _

lemma LevelFound.positions {d : ℕ} {cells borders : List ℕ} {found : Found} (hd : d < E.depth)
    (hcells : cells.Pairwise (· < ·)) (h : E.LevelFound d cells cells ⟨borders, [], []⟩ found) :
    sortAndRemoveDuplicity found.refinedindices
      = (sortAndRemoveDuplicity found.recursed).map (partPosition b cells) := by
  have hb : 0 < b := Nat.zero_lt_of_lt E.one_lt_bucketSize
  obtain ⟨parts, hparts, hrecursed, hindices⟩ := h.recursed
  rw [hrecursed, hindices, List.nil_append, List.nil_append]
  refine sortAndRemoveDuplicity_map fun x hx y _ hxy => partPosition_lt hcells hb ?_ hxy
  obtain ⟨c, hc, j, r, ⟨-, hin, hidx, -⟩, rfl⟩ := (hparts x).mp hx
  have hle := (partIndex_spec hd hin).le
  rwa [Nat.mul_add_div hb, Nat.div_eq_of_lt (by omega), Nat.add_zero]

/-! ## The state of the recursions -/

def State.border (st : State) (r : ℕ) : ℕ := st.bucketsBorders.getD r 0

/-- **The invariant of the state** in front of a level. -/
structure Invariant (E : ElementBuckets b) (st : State) : Prop where
  coarsenig : st.coarsenig = b ^ (E.depth - st.LEVEL)
  length : st.bucketsBorders.length = E.size + 1
  levels : st.refinedsfc.length = st.LEVEL + 1
  sorted : st.cells.Pairwise (· < ·)
  mem_cells : ∀ c, c ∈ st.cells ↔ E.Refines st.LEVEL c
  placed : E.Placed st.LEVEL st.border

namespace Invariant

variable {st : State} (h : E.Invariant st) (hd : st.LEVEL < E.depth)

include h

lemma cells_next (coarsenig : ℕ) (found : Found) :
    (st.next coarsenig found).cells = sortAndRemoveDuplicity found.recursed := by
  simp [State.cells, State.next, h.levels]

include hd

lemma coarsenig_div : st.coarsenig / b = b ^ (E.depth - (st.LEVEL + 1)) := by
  have hb : 0 < b := Nat.zero_lt_of_lt E.one_lt_bucketSize
  rw [h.coarsenig, show E.depth - st.LEVEL = E.depth - (st.LEVEL + 1) + 1 by omega, pow_succ,
    Nat.mul_div_cancel _ hb]

lemma next {found : Found}
    (hfound : E.LevelFound st.LEVEL st.cells st.cells ⟨st.bucketsBorders, [], []⟩ found) :
    E.Invariant (st.next (st.coarsenig / b) found) where
  coarsenig := h.coarsenig_div hd
  length := hfound.length.trans h.length
  levels := by simp [State.next, h.levels]
  sorted := by
    rw [h.cells_next]
    exact sortAndRemoveDuplicity_sorted _
  mem_cells c := by
    obtain ⟨parts, hparts, hrecursed, -⟩ := hfound.recursed
    rw [h.cells_next, mem_sortAndRemoveDuplicity, hrecursed, List.nil_append, hparts]
    exact (exists_congr fun cell => and_congr_left fun _ => h.mem_cells cell).trans
      (refines_succ_iff hd).symm
  placed := by
    refine Moved.placed hd ⟨fun c r hr hc hin => ?_, fun r hr hout => ?_⟩ h.placed
    · exact hfound.inside c r hr ((h.mem_cells c).mpr hc) hin
    · exact hfound.outside r hr fun c hc => hout c ((h.mem_cells c).mp hc)

end Invariant

lemma invariant_start : E.Invariant E.start where
  coarsenig := rfl
  length := by simp [start]
  levels := rfl
  sorted := List.pairwise_singleton _ _
  mem_cells c := by
    constructor
    · intro hc
      exact Or.inl ⟨rfl, List.mem_singleton.mp hc⟩
    · rintro (⟨-, rfl⟩ | ⟨hlt, -⟩)
      · exact List.mem_singleton.mpr rfl
      · exact absurd hlt (lt_irrefl 0)
  placed := by
    refine placed_start rfl fun r hpos hr => ?_
    obtain ⟨r, rfl⟩ := Nat.exists_eq_add_one.mpr hpos
    simp [State.border, start, buckets, Nat.lt_of_succ_le hr]

/-! ## Preprocessed recursion -/

def Histograms (E : ElementBuckets b) (sums : List (List ℕ)) : Prop :=
  List.Forall₂ (fun last elements => ∀ c ≤ b ^ E.DEPTH, last.getD c 0 = E.localFront elements E.DEPTH c)
    sums E.eBuckets

lemma invariant_preprocessedLevel {sums : List (List ℕ)} {st : State} (hDEPTH : E.DEPTH ≤ E.depth)
    (hsums : E.Histograms sums) (h : E.Invariant st) (hLEVEL : st.LEVEL < E.DEPTH) :
    E.Invariant (E.preprocessedLevel sums st) := by
  have hd : st.LEVEL < E.depth := hLEVEL.trans_le hDEPTH
  have hcounts : E.CountsParts st.cells (allreduce (st.cells.length * (b + 1))
      (sums.map (E.preprocessedCounts st))) st.LEVEL := by
    refine countsParts_allreduce E ((List.forall₂_map_left_iff ..).mpr (hsums.imp ?_))
    intro last elements hlast k c hk i hi
    exact E.preprocessedCounts_spec hDEPTH hlast hLEVEL
      (fun c hc => ((h.mem_cells c).mp hc).lt_pow hd.le) hk hi
  have hfound := searchLevel_spec hd h.sorted hcounts h.length
  rw [← h.coarsenig_div hd] at hfound
  exact h.next hd hfound

/-- **The preprocessed recursion** keeps the invariant. -/
lemma invariant_preprocessedRecursion {sums : List (List ℕ)} (hDEPTH : E.DEPTH ≤ E.depth)
    (hsums : E.Histograms sums) {fuel : ℕ} {st : State} (h : E.Invariant st)
    (hLEVEL : st.LEVEL ≤ E.DEPTH) :
    E.Invariant (E.preprocessedRecursion sums fuel st) ∧
      st.LEVEL ≤ (E.preprocessedRecursion sums fuel st).LEVEL ∧
      (E.preprocessedRecursion sums fuel st).LEVEL ≤ E.DEPTH := by
  induction fuel generalizing st with
  | zero => exact ⟨h, le_rfl, hLEVEL⟩
  | succ fuel ih =>
      rw [preprocessedRecursion]
      split_ifs with hlt
      · have hnext := ih (invariant_preprocessedLevel hDEPTH hsums h hlt.1) hlt.1
        exact ⟨hnext.1, (Nat.le_succ _).trans hnext.2.1, hnext.2.2⟩
      · exact ⟨h, le_rfl, hLEVEL⟩

/-! ## Ad-hoc recursion -/

def AllCarried (E : ElementBuckets b) (st : State) (scounts : List (List ℕ)) : Prop :=
  List.Forall₂ (fun s elements => E.Carried st.cells elements s st.LEVEL) scounts E.eBuckets

lemma carried_next {st : State} {found : Found} {elements scounts : List ℕ} {coarsenig : ℕ}
    (hd : st.LEVEL < E.depth) (h : E.Invariant st)
    (hfound : E.LevelFound st.LEVEL st.cells st.cells ⟨st.bucketsBorders, [], []⟩ found)
    (hscounts : ∀ k c, st.cells[k]? = some c → ∀ i ≤ b,
      scounts.getD (k * (b + 1) + i) 0 = E.localFront elements (st.LEVEL + 1) (b * c + i)) :
    E.Carried (st.next coarsenig found).cells elements
      (carriedCounts (b := b) (sortAndRemoveDuplicity found.refinedindices)
        (st.next coarsenig found).cells.length scounts) (st.LEVEL + 1) := by
  intro k x hk
  rw [h.cells_next] at hk ⊢
  have hrange : (List.range (sortAndRemoveDuplicity found.recursed).length)[k]? = some k := by
    obtain ⟨hlt, -⟩ := List.getElem?_eq_some_iff.mp hk
    rw [List.getElem?_range hlt]
  have hcarried : ∀ i ≤ b, (carriedCounts (b := b) (sortAndRemoveDuplicity found.refinedindices)
      (sortAndRemoveDuplicity found.recursed).length scounts).getD (k * (b + 1) + i) 0
      = (scounts.getD ((sortAndRemoveDuplicity found.refinedindices).getD k 0) 0
          :: List.replicate b 0).getD i 0 := fun i hi =>
    getD_flatMap (by simp) hrange (Nat.lt_succ_of_le hi)
  constructor
  · have hfirst := hcarried 0 (Nat.zero_le b)
    rw [Nat.add_zero, List.getD_cons_zero] at hfirst
    have hmem := mem_sortAndRemoveDuplicity.mp (List.mem_of_getElem? hk)
    obtain ⟨parts, hparts, hrecursed, -⟩ := hfound.recursed
    rw [hrecursed, List.nil_append, hparts] at hmem
    obtain ⟨c, hc, j, r, ⟨-, hin, hidx, -⟩, rfl⟩ := hmem
    have hle := (partIndex_spec hd hin).le
    obtain ⟨k₀, hk₀⟩ := List.mem_iff_getElem?.mp hc
    have hposition : (sortAndRemoveDuplicity found.refinedindices).getD k 0 = k₀ * (b + 1) + j := by
      rw [hfound.positions hd h.sorted, List.getD_eq_getElem?_getD, List.getElem?_map, hk,
        Option.map_some, Option.getD_some, partPosition_eq h.sorted hk₀ (by omega)]
    rw [hfirst, hposition, hscounts k₀ c hk₀ j (by omega)]
  · intro i hi
    rw [Nat.add_assoc, hcarried (i + 1) hi]
    simp [hi]

lemma forall₂_zipWith {R S : List ℕ → List ℕ → Prop} {f : List ℕ → List ℕ → List ℕ}
    (hf : ∀ s elements, R s elements → S (f s elements) elements) {ss es : List (List ℕ)}
    (h : List.Forall₂ R ss es) : List.Forall₂ S (List.zipWith f ss es) es := by
  induction h with
  | nil => exact .nil
  | cons h _ ih => exact .cons (hf _ _ h) ih

/-- **A level of the ad-hoc recursion** keeps the invariant and what the ranks carry. -/
lemma adhocLevel_spec {scounts : List (List ℕ)} {st : State} (hd : st.LEVEL < E.depth)
    (h : E.Invariant st) (hcarried : E.AllCarried st scounts) :
    E.Invariant (E.adhocLevel scounts st).2 ∧
      E.AllCarried (E.adhocLevel scounts st).2 (E.adhocLevel scounts st).1 := by
  have hscounts : List.Forall₂ (fun s elements => ∀ k c, st.cells[k]? = some c → ∀ i ≤ b,
      s.getD (k * (b + 1) + i) 0 = E.localFront elements (st.LEVEL + 1) (b * c + i))
      (List.zipWith (adhocCounts (b := b) (st.coarsenig / b) st.cells) scounts E.eBuckets)
      E.eBuckets := by
    refine forall₂_zipWith (fun s elements hs k c hk i hi => ?_) hcarried
    rw [h.coarsenig_div hd]
    exact E.adhocCounts_spec hd hs hk hi
  have hfound := searchLevel_spec hd h.sorted (countsParts_allreduce E hscounts) h.length
  rw [← h.coarsenig_div hd] at hfound
  refine ⟨h.next hd hfound, (List.forall₂_map_left_iff ..).mpr (hscounts.imp ?_)⟩
  intro s elements hs
  exact carried_next hd h hfound hs

/-- **The ad-hoc recursion** keeps the invariant, and stops at `SFCDEPTH` or where no bucket is
refined. -/
lemma adhocRecursion_spec {fuel : ℕ} {scounts : List (List ℕ)} {st : State} (h : E.Invariant st)
    (hLEVEL : st.LEVEL ≤ E.depth) (hfuel : E.depth ≤ st.LEVEL + fuel)
    (hcarried : E.AllCarried st scounts) :
    E.Invariant (E.adhocRecursion fuel scounts st) ∧
      (E.adhocRecursion fuel scounts st).LEVEL ≤ E.depth ∧
      ((E.adhocRecursion fuel scounts st).LEVEL = E.depth ∨
        (E.adhocRecursion fuel scounts st).cells = []) := by
  induction fuel generalizing scounts st with
  | zero => exact ⟨h, hLEVEL, Or.inl (le_antisymm hLEVEL hfuel)⟩
  | succ fuel ih =>
      rw [adhocRecursion]
      split_ifs with hlt
      · have hlevel := adhocLevel_spec hlt.1 h hcarried
        exact ih hlevel.1 hlt.1 (by change E.depth ≤ st.LEVEL + 1 + fuel; omega) hlevel.2
      · refine ⟨h, hLEVEL, ?_⟩
        rcases Nat.eq_or_lt_of_le hLEVEL with heq | hless
        · exact Or.inl heq
        · exact Or.inr (not_not.mp fun hcells => hlt ⟨hless, hcells⟩)

lemma allCarried_adhocStart {sums : List (List ℕ)} {st : State} (hDEPTH : E.DEPTH ≤ E.depth)
    (hsums : E.Histograms sums) (h : E.Invariant st) (hpos : 0 < st.LEVEL)
    (hLEVEL : st.LEVEL ≤ E.DEPTH) : E.AllCarried st (sums.map (E.adhocStart st)) := by
  refine (List.forall₂_map_left_iff ..).mpr (hsums.imp fun last elements hlast k c hk => ?_)
  have hc := ((h.mem_cells c).mp (List.mem_of_getElem? hk)).lt_pow (hLEVEL.trans hDEPTH)
  have hstart : ∀ i ≤ b, (E.adhocStart st last).getD (k * (b + 1) + i) 0
      = ((E.bucketSum last (st.LEVEL - 1)).getD c 0 :: List.replicate b 0).getD i 0 := fun i hi =>
    getD_flatMap (by simp) hk (Nat.lt_succ_of_le hi)
  have hlevel : st.LEVEL - 1 + 1 = st.LEVEL := Nat.sub_add_cancel hpos
  constructor
  · have hfirst := hstart 0 (Nat.zero_le b)
    rw [Nat.add_zero, List.getD_cons_zero] at hfirst
    rw [hfirst, E.bucketSum_spec hDEPTH hlast (by omega) (by rw [hlevel]; exact hc.le), hlevel]
  · intro i hi
    rw [Nat.add_assoc, hstart (i + 1) hi]
    simp [hi]

/-! ## The depth of the histogram -/

lemma histogramDepth_spec {fuel d : ℕ} (h : E.size ≤ b ^ (d + fuel)) :
    d < E.histogramDepth (fuel + 1) d ∧ E.size ≤ b ^ (E.histogramDepth (fuel + 1) d - 1) ∧
      ∀ k, d ≤ k → k < E.histogramDepth (fuel + 1) d - 1 → b ^ k < E.size := by
  induction fuel generalizing d with
  | zero =>
      have hnot : ¬buckets b d < E.size := Nat.not_lt.mpr h
      rw [histogramDepth, if_neg hnot]
      exact ⟨Nat.lt_succ_self d, h, fun k hk hlt => by omega⟩
  | succ fuel ih =>
      rw [histogramDepth]
      split_ifs with hlt
      · obtain ⟨hdepth, hsize, hmin⟩ := ih (d := d + 1) (by rwa [Nat.add_right_comm])
        refine ⟨(Nat.lt_succ_self d).trans hdepth, hsize, fun k hk hk' => ?_⟩
        rcases Nat.eq_or_lt_of_le hk with rfl | hk
        · exact hlt
        · exact hmin k hk hk'
      · exact ⟨Nat.lt_succ_self d, Nat.le_of_not_lt hlt, fun k hk hlt => by omega⟩

lemma DEPTH_spec : 2 < E.DEPTH ∧ E.size ≤ b ^ (E.DEPTH - 1) ∧
    ∀ k, 2 ≤ k → k < E.DEPTH - 1 → b ^ k < E.size := by
  obtain ⟨n, hn⟩ := Nat.exists_eq_add_one.mpr E.size_pos
  have hn' : E.size = n + 1 := hn
  have hDEPTH : E.DEPTH = E.histogramDepth (n + 1) 2 := congrArg (E.histogramDepth · 2) hn
  rw [hDEPTH]
  refine histogramDepth_spec ?_
  have := Nat.lt_pow_self E.one_lt_bucketSize (n := 2 + n)
  omega

lemma DEPTH_le_iff : E.DEPTH ≤ E.depth ↔ 3 ≤ E.depth ∧ E.size ≤ buckets b (E.depth - 1) := by
  obtain ⟨hlow, hbound, hmin⟩ := DEPTH_spec (E := E)
  constructor
  · intro hle
    refine ⟨hlow.trans_le hle, hbound.trans ?_⟩
    exact Nat.pow_le_pow_right (Nat.zero_lt_of_lt E.one_lt_bucketSize) (by omega)
  · rintro ⟨hdepth, hle⟩
    by_contra hlt
    exact absurd (hmin (E.depth - 1) (by omega) (by omega)) (Nat.not_lt.mpr hle)

/-! ## The result -/

/-- **Borders as they should be**: they do not decrease, they cover all buckets, and the elements in
front of each inner border are those of its target up to the tolerance, unless the bucket that
contains the target would have to be split at `SFCDEPTH`. -/
structure Balanced (E : ElementBuckets b) (st : State) : Prop where
  length : st.bucketsBorders.length = E.size + 1
  mono : ∀ r s, r ≤ s → s ≤ E.size → st.border r ≤ st.border s
  first : st.border 0 = 0
  last : st.border E.size = buckets b E.depth
  close : ∀ r, 0 < r → r < E.size → E.Close st.border r ∨
    ∃ c ∈ st.refinedsfc.getD E.depth [], E.InRange E.depth c r

lemma Refines.exists_coarser {d k c : ℕ} (hdk : d ≤ k) (hk : k ≤ E.depth) (h : E.Refines k c) :
    ∃ c', E.Refines d c' := by
  induction k generalizing c with
  | zero =>
      obtain rfl := Nat.le_zero.mp hdk
      exact ⟨c, h⟩
  | succ k ih =>
      rcases Nat.eq_or_lt_of_le hdk with rfl | hlt
      · exact ⟨c, h⟩
      · exact ih (Nat.le_of_lt_succ hlt) (by omega) (h.parent hk)

lemma Invariant.balanced_iff {st : State} (h : E.Invariant st) (hLEVEL : st.LEVEL ≤ E.depth)
    (hstop : st.LEVEL = E.depth ∨ st.cells = []) :
    E.Balanced st ↔ ∀ k, 0 < k → k < E.depth → ∀ c, c ≠ 0 → E.front k c = 0 → ∀ r ≤ E.size,
      ¬E.Far k c r := by
  have hnone : st.cells = [] → ∀ k, st.LEVEL ≤ k → k ≤ E.depth → ∀ c, ¬E.Refines k c := by
    intro hcells k hle hk c hrefines
    obtain ⟨c', hc'⟩ := hrefines.exists_coarser hle hk
    have hmem := (h.mem_cells c').mpr hc'
    rw [hcells] at hmem
    exact List.not_mem_nil hmem
  have hzero : st.border 0 = 0 ↔ ∀ k, 0 < k → k < E.depth → ∀ c, c ≠ 0 → E.front k c = 0 →
      ∀ r ≤ E.size, ¬E.Far k c r := by
    rw [h.placed.zero]
    refine ⟨fun hfar k hpos hk c hc hfront r hr hfar' => ?_, fun hfar k hpos hk => ?_⟩
    · rcases Nat.lt_or_ge k st.LEVEL with hlt | hge
      · exact hfar k hpos hlt c hc hfront r hr hfar'
      · have hcells := hstop.resolve_left (by omega)
        exact hnone hcells k hge hk.le c (Or.inr ⟨hpos, r, hr, hfar'⟩)
    · exact hfar k hpos (hk.trans_le hLEVEL)
  rw [← hzero]
  refine ⟨fun hbalanced => hbalanced.first, fun hfirst => ?_⟩
  refine ⟨h.length, h.placed.mono, hfirst, h.placed.last, fun r _ hr => ?_⟩
  refine (h.placed.close r hr.le).imp_right ?_
  rintro ⟨c, hc, hin⟩
  have hmem := (h.mem_cells c).mpr hc
  rcases hstop with heq | hcells
  · rw [heq] at hin
    rw [State.cells, heq] at hmem
    exact ⟨c, hmem, hin⟩
  · rw [hcells] at hmem
    exact absurd hmem List.not_mem_nil

lemma clusterize_of_le (hDEPTH : E.DEPTH ≤ E.depth) :
    ∃ st, E.clusterize = some st ∧ E.Invariant st ∧ st.LEVEL ≤ E.depth ∧
      (st.LEVEL = E.depth ∨ st.cells = []) := by
  have hb : 0 < b := Nat.zero_lt_of_lt E.one_lt_bucketSize
  have hhistogram : ∀ elements ∈ E.eBuckets, ∃ last, E.histogram elements = some last ∧
      ∀ c ≤ b ^ E.DEPTH, last.getD c 0 = E.localFront elements E.DEPTH c := fun elements helements =>
    E.histogram_spec (E.eBuckets_lt elements helements) hDEPTH hb
  obtain ⟨sums, hmapM⟩ := Fallible.exists_mapM fun elements helements =>
    (hhistogram elements helements).imp fun _ h => h.1
  have hsums : E.Histograms sums := by
    refine List.Forall₂.flip (List.forall₂_iff_zip.mpr ?_)
    have hzip := List.forall₂_iff_zip.mp (Fallible.forall₂_of_mapM hmapM)
    refine ⟨hzip.1, fun {elements last} hmem => ?_⟩
    obtain ⟨last', hlast', hspec⟩ := hhistogram elements (List.of_mem_zip hmem).1
    rw [hzip.2 hmem] at hlast'
    rw [Option.some.inj hlast']
    exact hspec
  have hpos : 0 < E.DEPTH := Nat.zero_lt_of_lt DEPTH_spec.1
  have hlevel := invariant_preprocessedLevel hDEPTH hsums invariant_start hpos
  set st := E.preprocessedRecursion sums E.DEPTH (E.preprocessedLevel sums E.start) with hst_def
  obtain ⟨hst, hLEVEL, hle⟩ : E.Invariant st ∧ 1 ≤ st.LEVEL ∧ st.LEVEL ≤ E.DEPTH :=
    invariant_preprocessedRecursion hDEPTH hsums hlevel (Nat.succ_le_of_lt hpos)
  have hcarried := allCarried_adhocStart hDEPTH hsums hst (Nat.lt_of_succ_le hLEVEL) hle
  refine ⟨E.adhocRecursion E.depth (sums.map (E.adhocStart st)) st, ?_,
    adhocRecursion_spec hst (hle.trans hDEPTH) (Nat.le_add_left _ _) hcarried⟩
  rw [clusterize, hmapM, hst_def]
  rfl

lemma clusterize_of_lt (hDEPTH : E.depth < E.DEPTH) (hesize : 0 < E.esize) : E.clusterize = none := by
  have hbstep : E.bstep = 0 := Nat.div_eq_of_lt (Nat.pow_lt_pow_right E.one_lt_bucketSize hDEPTH)
  obtain ⟨elements, helements, hne⟩ : ∃ elements ∈ E.eBuckets, elements ≠ [] := by
    by_contra hall
    push Not at hall
    have hzero : E.esize = 0 := List.sum_eq_zero fun n hn => by
      obtain ⟨elements, helements, rfl⟩ := List.mem_map.mp hn
      rw [hall elements helements, List.length_nil]
    exact hesize.ne' hzero
  have hnone : E.histogram elements = none := by
    obtain ⟨e, rest, rfl⟩ := List.exists_cons_of_ne_nil hne
    rw [histogram, List.foldlM_cons, if_pos hbstep]
    rfl
  rcases hmapM : E.eBuckets.mapM E.histogram with _ | sums
  · rw [clusterize, hmapM]
    rfl
  · have hmem := List.mem_map_of_mem (f := E.histogram) helements
    rw [Fallible.mapM_eq_some_iff.mp hmapM, hnone] at hmem
    simp at hmem

lemma length_sizesToOffsets (sum : ℕ) (sizes : List ℕ) :
    (sizesToOffsets sum sizes).length = sizes.length := by
  induction sizes generalizing sum with
  | nil => rfl
  | cons s sizes ih => rw [sizesToOffsets, List.length_cons, ih, List.length_cons]

lemma bucketSum_of_zero {last : List ℕ} (hlast : ∀ i, last.getD i 0 = 0) (d i : ℕ) :
    (E.bucketSum last d).getD i 0 = 0 := by
  have habove : ∀ k i, (E.bucketSumAbove last k).getD i 0 = 0 := by
    intro k
    induction k with
    | zero => exact hlast
    | succ k ih =>
        intro i
        rw [bucketSumAbove, List.getD_eq_getElem?_getD, List.getElem?_map]
        rcases (List.range _)[i]? with _ | c
        · rfl
        · exact ih _
  exact habove _ i

lemma searchLevel_of_zero {coarsenig cell : ℕ} {rcounts bucketsBorders : List ℕ}
    (hrcounts : ∀ i ≤ b, rcounts.getD i 0 = 0) :
    E.searchLevel coarsenig [cell] rcounts bucketsBorders = ⟨bucketsBorders, [], []⟩ := by
  have hzero := hrcounts 0 (Nat.zero_le b)
  have hlast := hrcounts b le_rfl
  rw [searchLevel, List.zipIdx_singleton, List.foldl_cons, List.foldl_nil, searchCell]
  simp only [Nat.zero_mul, Nat.zero_add, hzero, hlast, Nat.sub_self, List.range'_zero]
  rfl

lemma clusterize_of_empty (hesize : E.esize = 0) :
    ∃ st, E.clusterize = some st ∧ st.bucketsBorders = E.start.bucketsBorders := by
  have hempty : ∀ elements ∈ E.eBuckets, elements = [] := fun elements helements =>
    List.eq_nil_of_length_eq_zero
      (Nat.le_zero.mp (hesize ▸ List.le_sum_of_mem (List.mem_map_of_mem helements)))
  set last := sizesToOffsets 0 (List.replicate (buckets b E.DEPTH + 1) 0) with hlast_def
  have hhistogram : ∀ elements ∈ E.eBuckets, E.histogram elements = some last := by
    intro elements helements
    rw [hempty elements helements]
    rfl
  have hmapM := Fallible.mapM_eq_some hhistogram
  have hlast : ∀ i, last.getD i 0 = 0 := by
    have hoffsets : ∀ n i, (sizesToOffsets 0 (List.replicate n 0)).getD i 0 = 0 := by
      intro n i
      rcases Nat.lt_or_ge i n with hlt | hge
      · rw [getD_sizesToOffsets (by simpa using hlt)]
        simp
      · refine List.getD_eq_default _ _ ?_
        rw [length_sizesToOffsets, List.length_replicate]
        exact hge
    exact hoffsets _
  have hrcounts : ∀ i ≤ b, (allreduce (E.start.cells.length * (b + 1))
      ((E.eBuckets.map fun _ => last).map (E.preprocessedCounts E.start))).getD i 0 = 0 := by
    intro i hi
    rw [getD_allreduce (by simp [start, State.cells]; omega)]
    refine List.sum_eq_zero fun n hn => ?_
    simp only [List.map_map, List.mem_map, Function.comp_apply] at hn
    obtain ⟨elements, -, rfl⟩ := hn
    have hcell : E.start.cells[0]? = some 0 := rfl
    have hget : (E.preprocessedCounts E.start last).getD (0 * (b + 1) + i) 0 = _ :=
      getD_flatMap (by simp) hcell (Nat.lt_succ_of_le hi)
    rw [Nat.zero_mul, Nat.zero_add] at hget
    rw [hget, getD_map_range (Nat.lt_succ_of_le hi), bucketSum_of_zero hlast]
  have hlevel : E.preprocessedLevel (E.eBuckets.map fun _ => last) E.start
      = E.start.next (E.start.coarsenig / b) ⟨E.start.bucketsBorders, [], []⟩ :=
    congrArg (E.start.next _) (searchLevel_of_zero hrcounts)
  have hstop : ¬(E.start.next (E.start.coarsenig / b) ⟨E.start.bucketsBorders, [], []⟩).hasLevel :=
    fun h => h (by rw [invariant_start.cells_next]; simp [sortAndRemoveDuplicity])
  have hpre : ∀ fuel sums, E.preprocessedRecursion sums fuel
      (E.start.next (E.start.coarsenig / b) ⟨E.start.bucketsBorders, [], []⟩)
      = E.start.next (E.start.coarsenig / b) ⟨E.start.bucketsBorders, [], []⟩ := by
    intro fuel sums
    rcases fuel with _ | fuel
    · rfl
    · rw [preprocessedRecursion, if_neg fun h => hstop h.2]
  have hadhoc : ∀ fuel scounts, E.adhocRecursion fuel scounts
      (E.start.next (E.start.coarsenig / b) ⟨E.start.bucketsBorders, [], []⟩)
      = E.start.next (E.start.coarsenig / b) ⟨E.start.bucketsBorders, [], []⟩ := by
    intro fuel scounts
    rcases fuel with _ | fuel
    · rfl
    · rw [adhocRecursion, if_neg fun h => hstop h.2]
  refine ⟨E.start.next (E.start.coarsenig / b) ⟨E.start.bucketsBorders, [], []⟩, ?_, rfl⟩
  rw [clusterize, hmapM]
  simp only [Option.bind_eq_bind, Option.bind_some, hlevel, hpre, hadhoc]

lemma balanced_of_empty (hesize : E.esize = 0) {st : State}
    (hst : st.bucketsBorders = E.start.bucketsBorders) : E.Balanced st := by
  have hborder : st.border = E.start.border := by
    funext r
    rw [State.border, State.border, hst]
  have hplaced := (invariant_start (E := E)).placed
  refine ⟨hst ▸ invariant_start.length, ?_, ?_, ?_, fun r _ hr => Or.inl ?_⟩
  · exact hborder ▸ hplaced.mono
  · exact hborder ▸ rfl
  · exact hborder ▸ hplaced.last
  · have htarget : E.target r ≤ E.esize := E.targets.border_le_total hr.le
    have hbelow : E.below (st.border r) ≤ E.esize := front_depth (E := E) _ ▸ front_le _ _
    rw [Close]
    omega

/-- **The result is as it should be** if and only if there are no elements, or the buckets in front of
the deepest level suffice for all ranks, and, on each level in front of the deepest one, no target is
far from both ends of a bucket that is not the first one and in front of which there are no elements:
the border of the first rank would be moved to the beginning of such a bucket. -/
theorem clusterize_balanced_iff : (∃ st, E.clusterize = some st ∧ E.Balanced st) ↔
    (E.esize = 0 ∨ 3 ≤ E.depth ∧ E.size ≤ buckets b (E.depth - 1)) ∧
      ∀ k, 0 < k → k < E.depth → ∀ c, c ≠ 0 → E.front k c = 0 → ∀ r ≤ E.size, ¬E.Far k c r := by
  rw [← DEPTH_le_iff]
  rcases Nat.eq_zero_or_pos E.esize with hesize | hesize
  · refine iff_of_true ?_ ⟨Or.inl hesize, fun k _ _ c _ _ r _ hfar => ?_⟩
    · obtain ⟨st, hst, hborders⟩ := clusterize_of_empty hesize
      exact ⟨st, hst, balanced_of_empty hesize hborders⟩
    · have hlt := hfar.inRange.2.trans_le (front_le k (c + 1))
      rw [hesize] at hlt
      exact Nat.not_lt_zero _ hlt
  · rw [or_iff_right hesize.ne']
    rcases Nat.lt_or_ge E.depth E.DEPTH with hlt | hle
    · rw [clusterize_of_lt hlt hesize]
      refine iff_of_false ?_ fun h => Nat.not_lt.mpr h.1 hlt
      rintro ⟨st, hst, -⟩
      cases hst
    · obtain ⟨st, hst, hinvariant, hLEVEL, hstop⟩ := clusterize_of_le hle
      rw [hst, ← hinvariant.balanced_iff hLEVEL hstop]
      constructor
      · rintro ⟨st', heq, hbalanced⟩
        rw [← Option.some.inj heq] at hbalanced
        exact ⟨hle, hbalanced⟩
      · exact fun h => ⟨st, rfl, h.2⟩

/-- Two elements that lie in bucket `1` of the first level, and in neighbouring smallest buckets. -/
def secondBucket : ElementBuckets 4 where
  depth := 3
  ETOLERANCE := 0
  eBuckets := [[20, 21], []]
  one_lt_bucketSize := by decide
  size_pos := by decide
  eBuckets_lt := by decide

/-- The second rank has to start with the second element, so bucket `1` is refined, and the first
rank starts with it. -/
theorem secondBucket_not_balanced :
    ¬∃ st, secondBucket.clusterize = some st ∧ secondBucket.Balanced st := by
  rintro ⟨st, hst, hbalanced⟩
  obtain ⟨st', hst', hinvariant, hLEVEL, hstop⟩ := clusterize_of_le (E := secondBucket) (by decide)
  rw [hst] at hst'
  obtain rfl := Option.some.inj hst'
  refine (hinvariant.balanced_iff hLEVEL hstop).mp hbalanced 1 ?_ ?_ 1 ?_ ?_ 1 ?_ ⟨?_, ?_, ?_⟩
  all_goals decide

end ElementBuckets

end Espreso
