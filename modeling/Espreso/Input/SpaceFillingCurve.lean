import Espreso.Basis.Distribution
import Mathlib.Data.List.GetD
import Mathlib.Data.List.Sort
import Mathlib.Data.List.TakeWhile
import Mathlib.Tactic.Ring

/-!
# Refined buckets of a space filling curve

The buckets of a curve of depth `depth` are merged to larger ones where nothing had to be refined.

* `Refinement` — the refined buckets of all levels.
* **`Refinement.iterateBuckets_tiles`** — between two borders of leaves, it reports the leaves between
  them in ascending order, and they tile the range.
-/

namespace Espreso.SFC

/-! ## Refined buckets -/

/-- **The refined buckets** of each level (`_refinedsfc`): bucket 0 of level 0 is the whole square or
cube, and a refined bucket lies in a refined one.  Behind a level with refined buckets there is another
one, up to level `depth`. -/
structure Refinement (b : ℕ) where
  depth : ℕ
  refinedsfc : List (List ℕ)
  root : refinedsfc[0]? = some [0]
  sorted : ∀ level ∈ refinedsfc, level.Pairwise (· < ·)
  parent : ∀ i, ∀ r ∈ refinedsfc.getD (i + 1) [], r / b ∈ refinedsfc.getD i []
  length_le : refinedsfc.length ≤ depth + 1
  complete : refinedsfc.length = depth + 1 ∨ refinedsfc.getLast? = some []

namespace Refinement

variable {b : ℕ} (S : Refinement b)

def level (i : ℕ) : List ℕ := S.refinedsfc.getD i []

/-- `buckets(depth)` -/
def buckets (b depth : ℕ) : ℕ := b ^ depth

/-- `coarsenig` of a level: the number of the smallest buckets in one of its buckets. -/
def coarsenig (i : ℕ) : ℕ := buckets b S.depth / b ^ i

def advance (value : ℕ) : List ℕ → List ℕ
  | [] => []
  | r :: rest => if r < value then rest else r :: rest

/-- The loop that looks for the depth of the bucket: as long as the bucket is refined, which is read
from the iterators.  It has no result if an iterator does not exist. -/
def descend (rindices : ℕ → List ℕ) (bucket : ℕ) : ℕ → ℕ → ℕ → Option (ℕ × ℕ)
  | 0, depth, step => some (depth, step)
  | k + 1, depth, step =>
    if depth < S.refinedsfc.length then
      if (rindices depth).head? = some (bucket / step) then
        descend rindices bucket k (depth + 1) (step / b)
      else some (depth, step)
    else none

/-- The loop over the buckets, with the number of steps that are left; each of the results is a depth
and an index. -/
def bucketsLoop (stop : ℕ) : ℕ → ℕ → (ℕ → List ℕ) → Option (List (ℕ × ℕ))
  | 0, bucket, _ => if bucket < stop then none else some []
  | fuel + 1, bucket, rindices =>
    if bucket < stop then do
      let rindices := fun i => advance (bucket / S.coarsenig i) (rindices i)
      let p ← S.descend rindices bucket S.depth 0 (buckets b S.depth)
      let rest ← bucketsLoop stop fuel (bucket + p.2) rindices
      some ((p.1, bucket / p.2) :: rest)
    else some []

/-- `SpaceFillingCurve::iterateBuckets` -/
def iterateBuckets (start stop : ℕ) : Option (List (ℕ × ℕ)) :=
  S.bucketsLoop stop (stop - start) start fun i =>
    (S.level i).drop (lowerBound (S.level i) (start / S.coarsenig i))

/-- **A leaf**: all buckets around it are refined, but not the bucket itself, except for the last
level. -/
structure Leaf (d index : ℕ) : Prop where
  le_depth : d ≤ S.depth
  index_lt : index < b ^ d
  refined : ∀ j < d, index / b ^ (d - j) ∈ S.level j
  not_refined : d < S.depth → index ∉ S.level d

def first (d index : ℕ) : ℕ := index * b ^ (S.depth - d)

def Border (x : ℕ) : Prop := x = b ^ S.depth ∨ ∃ d index, S.Leaf d index ∧ x = S.first d index

/-! ## Levels -/

lemma level_sorted (i : ℕ) : (S.level i).Pairwise (· < ·) := by
  rw [level, List.getD_eq_getElem?_getD]
  rcases h : S.refinedsfc[i]? with _ | level
  · exact List.Pairwise.nil
  · exact S.sorted level (List.mem_of_getElem? h)

lemma level_zero : S.level 0 = [0] := by
  rw [level, List.getD_eq_getElem?_getD, S.root]
  rfl

lemma lt_length {i r : ℕ} (h : r ∈ S.level i) : i < S.refinedsfc.length := by
  by_contra hle
  rw [level, List.getD_eq_default _ _ (Nat.le_of_not_lt hle)] at h
  exact absurd h List.not_mem_nil

lemma parent_level {i r : ℕ} (h : r ∈ S.level (i + 1)) : r / b ∈ S.level i := S.parent i r h

lemma ancestor {i j r : ℕ} (h : r ∈ S.level i) (hj : j ≤ i) : r / b ^ (i - j) ∈ S.level j := by
  obtain ⟨k, rfl⟩ := Nat.exists_eq_add_of_le hj
  rw [Nat.add_sub_cancel_left]
  induction k generalizing r with
  | zero => simpa using h
  | succ k ih =>
      rw [pow_succ', ← Nat.div_div_eq_div_mul]
      exact ih (S.parent_level h) (Nat.le_add_right j k)

lemma succ_lt_length {i r : ℕ} (h : r ∈ S.level i) (hi : i < S.depth) : i + 1 < S.refinedsfc.length := by
  have hlt := S.lt_length h
  rcases S.complete with hlength | hlast
  · omega
  · by_contra hle
    have hlen : S.refinedsfc.length = i + 1 := by omega
    rw [List.getLast?_eq_getElem?, hlen, Nat.add_sub_cancel] at hlast
    rw [level, List.getD_eq_getElem?_getD, hlast] at h
    exact absurd h List.not_mem_nil

lemma lt_length_of_parent {d r : ℕ} (hd : d < S.depth) (h : ∀ j < d, r / b ^ (d - j) ∈ S.level j) :
    d < S.refinedsfc.length := by
  rcases d with _ | d
  · exact S.lt_length (S.level_zero ▸ List.mem_singleton_self 0)
  · exact S.succ_lt_length (h d (Nat.lt_add_one d)) (Nat.lt_of_succ_lt hd)

/-! ## Buckets of different levels -/

variable [NeZero b]

lemma pow_pos' (k : ℕ) : 0 < b ^ k := Nat.pow_pos (NeZero.pos b)

lemma lt_of_mem_level {i r : ℕ} (h : r ∈ S.level i) : r < b ^ i := by
  have hroot := S.ancestor h (Nat.zero_le i)
  rw [level_zero, List.mem_singleton, Nat.sub_zero] at hroot
  exact (Nat.div_eq_zero_iff_lt (pow_pos' i)).mp hroot

lemma coarsenig_eq {i : ℕ} (hi : i ≤ S.depth) : S.coarsenig i = b ^ (S.depth - i) := by
  rw [coarsenig, buckets, Nat.pow_div hi (NeZero.pos b)]

lemma div_first {d index j : ℕ} (hj : j ≤ d) (hd : d ≤ S.depth) :
    S.first d index / b ^ (S.depth - j) = index / b ^ (d - j) := by
  have hsplit : S.depth - j = (S.depth - d) + (d - j) := by omega
  rw [first, hsplit, pow_add, ← Nat.div_div_eq_div_mul, Nat.mul_div_cancel _ (pow_pos' _)]

lemma exists_leaf {y : ℕ} (hy : y < b ^ S.depth) : ∃ d, S.Leaf d (y / b ^ (S.depth - d)) := by
  -- the first level in which the bucket around `y` is not refined
  have hex : ∃ d, d = S.depth ∨ y / b ^ (S.depth - d) ∉ S.level d := ⟨S.depth, Or.inl rfl⟩
  refine ⟨Nat.find hex, ?_, ?_, fun j hj => ?_, fun hlt => ?_⟩
  · exact Nat.find_min' hex (Or.inl rfl)
  · have hle : Nat.find hex ≤ S.depth := Nat.find_min' hex (Or.inl rfl)
    rw [Nat.div_lt_iff_lt_mul (pow_pos' _), ← pow_add, Nat.add_sub_cancel' hle]
    exact hy
  · have hle : Nat.find hex ≤ S.depth := Nat.find_min' hex (Or.inl rfl)
    have hmin := Nat.find_min hex hj
    rw [not_or, not_not] at hmin
    have hsplit : S.depth - j = (S.depth - Nat.find hex) + (Nat.find hex - j) := by omega
    rw [Nat.div_div_eq_div_mul, ← pow_add, ← hsplit]
    exact hmin.2
  · exact (Nat.find_spec hex).resolve_left hlt.ne

variable {S}

omit [NeZero b] in
lemma Leaf.first_add_le {d index : ℕ} (h : S.Leaf d index) :
    S.first d index + b ^ (S.depth - d) ≤ b ^ S.depth := by
  have hsplit := Nat.add_sub_cancel' h.le_depth
  calc S.first d index + b ^ (S.depth - d)
      = (index + 1) * b ^ (S.depth - d) := (Nat.succ_mul _ _).symm
    _ ≤ b ^ d * b ^ (S.depth - d) := Nat.mul_le_mul_right _ h.index_lt
    _ = b ^ S.depth := by rw [← pow_add, hsplit]

omit [NeZero b] in
lemma Leaf.eq_of_div {d e index index' y : ℕ} (h : S.Leaf d index) (h' : S.Leaf e index')
    (hy : y / b ^ (S.depth - d) = index) (hy' : y / b ^ (S.depth - e) = index') :
    d = e ∧ index = index' := by
  have hle : ∀ {d e index index' : ℕ}, S.Leaf d index → S.Leaf e index' →
      y / b ^ (S.depth - d) = index → y / b ^ (S.depth - e) = index' → e ≤ d := by
    intro d e index index' h h' hy hy'
    refine Nat.le_of_not_lt fun hlt => ?_
    have hde := h'.le_depth
    refine h.not_refined (by omega) ?_
    have hsplit : S.depth - d = (S.depth - e) + (e - d) := by omega
    rw [← hy, hsplit, pow_add, ← Nat.div_div_eq_div_mul, hy']
    exact h'.refined d hlt
  obtain rfl : d = e := le_antisymm (hle h' h hy' hy) (hle h h' hy hy')
  exact ⟨rfl, hy.symm.trans hy'⟩

lemma Leaf.border_add {d index : ℕ} (h : S.Leaf d index) :
    S.Border (S.first d index + b ^ (S.depth - d)) := by
  rcases Nat.lt_or_ge (S.first d index + b ^ (S.depth - d)) (b ^ S.depth) with hlt | hge
  · right
    set y := S.first d index + b ^ (S.depth - d) with hy
    have hmul : y = (index + 1) * b ^ (S.depth - d) := by rw [hy, Nat.succ_mul, first]
    obtain ⟨e, he⟩ := S.exists_leaf hlt
    refine ⟨e, _, he, ?_⟩
    -- a leaf around `y` that begins earlier would contain the leaf in front of `y`
    rw [first, Nat.div_mul_cancel]
    rcases Nat.lt_or_ge e d with hed | hde
    · have hd := h.le_depth
      by_contra hndvd
      have hmem : index / b ^ (d - e) ∈ S.level e := h.refined e hed
      have hsplit : S.depth - e = (S.depth - d) + (d - e) := by omega
      have hsame : y / b ^ (S.depth - e) = index / b ^ (d - e) := by
        rw [hmul, hsplit, pow_add, ← Nat.div_div_eq_div_mul, Nat.mul_div_cancel _ (pow_pos' _),
          Nat.succ_div_of_not_dvd]
        intro hdvd
        refine hndvd ?_
        rw [hmul, hsplit, pow_add, Nat.mul_comm (b ^ (S.depth - d))]
        exact Nat.mul_dvd_mul_right hdvd _
      exact he.not_refined (by omega) (hsame ▸ hmem)
    · rw [hmul]
      exact Dvd.dvd.mul_left (pow_dvd_pow b (by omega)) _
  · exact Or.inl (le_antisymm h.first_add_le hge)

variable (S) in
lemma first_div (d index : ℕ) : S.first d index / b ^ (S.depth - d) = index :=
  Nat.mul_div_cancel _ (pow_pos' _)

omit [NeZero b] in
lemma Leaf.div_eq {d index x : ℕ} (_ : S.Leaf d index) (hlow : S.first d index ≤ x)
    (hhigh : x < S.first d index + b ^ (S.depth - d)) : x / b ^ (S.depth - d) = index :=
  Nat.div_eq_of_lt_le hlow (by rwa [Nat.succ_mul])

lemma Border.le_first {x y d index : ℕ} (hx : S.Border x) (hleaf : S.Leaf d index)
    (hy : y / b ^ (S.depth - d) = index) (hxy : x ≤ y) : x ≤ S.first d index := by
  by_contra hlt
  have hend : y < S.first d index + b ^ (S.depth - d) := by
    rw [first, ← Nat.succ_mul, ← hy]
    exact Nat.lt_mul_of_div_lt (Nat.lt_succ_self _) (pow_pos' _)
  have hin := hleaf.div_eq (x := x) (by omega) (by omega)
  rcases hx with rfl | ⟨e, index', hleaf', rfl⟩
  · have := hleaf.first_add_le
    omega
  · have hpos := pow_pos' (b := b) (S.depth - e)
    have hsame := hleaf.eq_of_div hleaf' hin (S.first_div e index')
    rw [hsame.1, hsame.2] at hlt
    exact hlt le_rfl

omit [NeZero b] in
lemma Border.le_buckets {x : ℕ} (hx : S.Border x) : x ≤ b ^ S.depth := by
  rcases hx with rfl | ⟨d, index, hleaf, rfl⟩
  · exact le_rfl
  · exact (Nat.le_add_right _ _).trans hleaf.first_add_le

lemma Border.add_le {x d index : ℕ} (hx : S.Border x) (hleaf : S.Leaf d index)
    (hlt : S.first d index < x) : S.first d index + b ^ (S.depth - d) ≤ x := by
  by_contra hlt'
  have hpos := pow_pos' (b := b) (S.depth - d)
  have hin : x / b ^ (S.depth - d) = index := hleaf.div_eq hlt.le (Nat.lt_of_not_le hlt')
  exact absurd (hx.le_first hleaf hin le_rfl) (Nat.not_le.mpr hlt)

/-! ## Iterators -/

lemma head?_dropWhile {l : List ℕ} (hl : l.Pairwise (· < ·)) (v : ℕ) :
    (l.dropWhile (· < v)).head? = some v ↔ v ∈ l := by
  induction l with
  | nil => simp
  | cons r l ih =>
      have htail := (List.pairwise_cons.mp hl).2
      have hr := (List.pairwise_cons.mp hl).1
      rw [List.dropWhile_cons, List.mem_cons]
      rcases lt_trichotomy r v with hlt | heq | hgt
      · rw [if_pos (decide_eq_true hlt), ih htail]
        exact (or_iff_right hlt.ne').symm
      · simp [heq]
      · have hv : v ∉ l := fun hmem => absurd (hr v hmem) (by omega)
        simp [hgt.le.not_gt, hgt.ne, hgt.ne', hv]

lemma advance_dropWhile {l : List ℕ} (hl : l.Pairwise (· < ·)) {v w : ℕ} (hvw : v ≤ w)
    (h : ∀ r ∈ l, r < w → r ≤ v) :
    advance w (l.dropWhile (· < v)) = l.dropWhile (· < w) := by
  induction l with
  | nil => rfl
  | cons r l ih =>
      have htail := (List.pairwise_cons.mp hl).2
      have hr := (List.pairwise_cons.mp hl).1
      rcases Nat.lt_or_ge r v with hlt | hge
      · rw [List.dropWhile_cons, if_pos (decide_eq_true hlt), List.dropWhile_cons,
          if_pos (decide_eq_true (hlt.trans_le hvw))]
        exact ih htail fun s hs => h s (List.mem_cons_of_mem r hs)
      · rw [List.dropWhile_cons_of_neg (by simpa using hge), advance]
        split_ifs with hlt
        · rw [List.dropWhile_cons, if_pos (decide_eq_true hlt)]
          -- no other bucket is passed
          rcases l with _ | ⟨s, l⟩
          · rfl
          · have hs := hr s (List.mem_cons_self ..)
            have hsw : ¬s < w := fun hlt => by
              have := h s (List.mem_cons_of_mem r (List.mem_cons_self ..)) hlt
              omega
            rw [List.dropWhile_cons_of_neg (by simpa using hsw)]
        · rw [List.dropWhile_cons_of_neg (by simpa using hlt)]

lemma drop_lowerBound (l : List ℕ) (v : ℕ) : l.drop (lowerBound l v) = l.dropWhile (· < v) := by
  induction l with
  | nil => rfl
  | cons r l ih =>
      rw [lowerBound, List.findIdx_cons]
      rcases Nat.lt_or_ge r v with hlt | hge
      · have hfalse : decide (v ≤ r) = false := decide_eq_false (Nat.not_le.mpr hlt)
        rw [hfalse, List.dropWhile_cons, if_pos (decide_eq_true hlt), ← ih]
        rfl
      · have htrue : decide (v ≤ r) = true := decide_eq_true hge
        rw [htrue, List.dropWhile_cons_of_neg (by simpa using hge)]
        rfl

variable (S) in
def iterators (bucket : ℕ) (i : ℕ) : List ℕ :=
  (S.level i).dropWhile (· < bucket / S.coarsenig i)

lemma descend_first {d index j : ℕ} (h : S.Leaf d index) (hj : j ≤ d) :
    S.descend (S.iterators (S.first d index)) (S.first d index) (S.depth - j) j (b ^ (S.depth - j))
      = some (d, b ^ (S.depth - d)) := by
  have hd := h.le_depth
  induction hk : d - j generalizing j with
  | zero =>
      obtain rfl : j = d := by omega
      rcases hdepth : S.depth - j with _ | k
      · rfl
      · rw [descend, if_pos (S.lt_length_of_parent (by omega) h.refined), if_neg]
        rw [iterators, coarsenig_eq S hd, ← hdepth, head?_dropWhile (S.level_sorted j),
          div_first S le_rfl hd, Nat.sub_self, pow_zero, Nat.div_one]
        exact h.not_refined (by omega)
  | succ k ih =>
      have hlt : j < d := by omega
      have hmem := h.refined j hlt
      obtain ⟨m, hm⟩ : ∃ m, S.depth - j = m + 1 := ⟨S.depth - j - 1, by omega⟩
      have hm' : m = S.depth - (j + 1) := by omega
      have hnext := ih (j := j + 1) hlt (by omega)
      rw [hm, descend, if_pos (S.lt_length hmem), if_pos]
      · rw [pow_succ, Nat.mul_div_cancel _ (NeZero.pos b), hm']
        exact hnext
      · rw [iterators, coarsenig_eq S (by omega), ← hm, head?_dropWhile (S.level_sorted j),
          div_first S hj hd]
        exact hmem

/-- **The iterators keep up** when the loop steps over a leaf. -/
lemma advance_iterators {d index : ℕ} (h : S.Leaf d index) (i : ℕ) :
    advance ((S.first d index + b ^ (S.depth - d)) / S.coarsenig i)
      (S.iterators (S.first d index) i)
      = S.iterators (S.first d index + b ^ (S.depth - d)) i := by
  have hd := h.le_depth
  refine advance_dropWhile (S.level_sorted i) (Nat.div_le_div_right (Nat.le_add_right _ _))
    fun r hr hlt => ?_
  have hi : i ≤ S.depth := by
    have := S.lt_length hr
    have := S.length_le
    omega
  rw [coarsenig_eq S hi] at hlt ⊢
  rw [Nat.le_div_iff_mul_le (pow_pos' _)]
  have hend : (r + 1) * b ^ (S.depth - i) ≤ S.first d index + b ^ (S.depth - d) :=
    (Nat.le_div_iff_mul_le (pow_pos' _)).mp hlt
  rcases Nat.lt_or_ge d i with hdi | hid
  · -- a finer bucket in the leaf cannot be refined
    by_contra hle
    have hsplit : S.depth - d = (S.depth - i) + (i - d) := by omega
    have hfirst : S.first d index = index * b ^ (i - d) * b ^ (S.depth - i) := by
      rw [first, hsplit, pow_add, Nat.mul_comm (b ^ _), Nat.mul_assoc]
    have hlower : index * b ^ (i - d) < r := by
      rw [hfirst] at hle
      exact lt_of_mul_lt_mul_right (Nat.lt_of_not_le hle) (Nat.zero_le _)
    have hupper : r + 1 ≤ index * b ^ (i - d) + b ^ (i - d) := by
      rw [hfirst, hsplit, pow_add, Nat.mul_comm (b ^ (S.depth - i)), ← Nat.add_mul] at hend
      exact Nat.le_of_mul_le_mul_right hend (pow_pos' _)
    have hdiv : r / b ^ (i - d) = index :=
      Nat.div_eq_of_lt_le hlower.le (by rwa [Nat.succ_mul])
    exact h.not_refined (by omega) (hdiv ▸ S.ancestor hr hdi.le)
  · -- of the buckets that are not smaller than the leaf, only the one around it is passed
    have hcoarse : b ^ (S.depth - d) ≤ b ^ (S.depth - i) :=
      Nat.pow_le_pow_right (NeZero.pos b) (by omega)
    rw [Nat.succ_mul] at hend
    omega

/-! ## The buckets between two borders -/

lemma bucketsLoop_spec {stop fuel bucket : ℕ} {rindices : ℕ → List ℕ} (hborder : S.Border bucket)
    (hstop : stop ≤ b ^ S.depth) (hfuel : stop ≤ bucket + fuel)
    (hrindices : ∀ i, advance (bucket / S.coarsenig i) (rindices i) = S.iterators bucket i) :
    ∃ l, S.bucketsLoop stop fuel bucket rindices = some l ∧
      ∀ d index, (d, index) ∈ l ↔
        S.Leaf d index ∧ bucket ≤ S.first d index ∧ S.first d index < stop := by
  induction fuel generalizing bucket rindices with
  | zero =>
      refine ⟨[], by rw [bucketsLoop, if_neg (by omega)], fun d index => ?_⟩
      simp only [List.not_mem_nil, false_iff]
      omega
  | succ fuel ih =>
      rcases Nat.lt_or_ge bucket stop with hlt | hge
      · obtain rfl | ⟨d, index, hleaf, rfl⟩ := hborder
        · omega
        have hd := hleaf.le_depth
        have hpos := pow_pos' (b := b) (S.depth - d)
        obtain ⟨rest, hrest, hmem⟩ := ih hleaf.border_add (by omega) (advance_iterators hleaf)
        have hdescend := descend_first hleaf (Nat.zero_le d)
        rw [Nat.sub_zero] at hdescend
        refine ⟨(d, index) :: rest, ?_, fun e index' => ?_⟩
        · simp only [bucketsLoop, if_pos hlt, hrindices, buckets]
          simp only [hdescend, hrest, Option.bind_eq_bind, Option.bind_some]
          rw [first, Nat.mul_div_cancel _ hpos]
        · rw [List.mem_cons, hmem, Prod.mk.injEq]
          constructor
          · rintro (⟨rfl, rfl⟩ | ⟨h, hfirst, hstop⟩)
            · exact ⟨hleaf, le_rfl, hlt⟩
            · exact ⟨h, by omega, hstop⟩
          · rintro ⟨h, hfirst, hstop⟩
            rcases Nat.lt_or_ge (S.first e index') (S.first d index + b ^ (S.depth - d))
              with hin | hout
            · -- the bucket where this leaf begins is in the other leaf
              left
              refine h.eq_of_div hleaf (y := S.first e index') ?_ ?_
              · rw [div_first S le_rfl h.le_depth, Nat.sub_self, pow_zero, Nat.div_one]
              · refine Nat.div_eq_of_lt_le hfirst ?_
                rw [Nat.succ_mul]
                exact hin
            · exact Or.inr ⟨h, hout, hstop⟩
      · refine ⟨[], by rw [bucketsLoop, if_neg (by omega)], fun d index => ?_⟩
        simp only [List.not_mem_nil, false_iff]
        omega

/-- **The loop reports the leaves** that begin between the borders. -/
theorem iterateBuckets_spec {start stop : ℕ} (hstart : S.Border start) (hstop : stop ≤ b ^ S.depth) :
    ∃ l, S.iterateBuckets start stop = some l ∧
      ∀ d index, (d, index) ∈ l ↔
        S.Leaf d index ∧ start ≤ S.first d index ∧ S.first d index < stop := by
  refine bucketsLoop_spec hstart hstop (by omega) fun i => ?_
  rw [drop_lowerBound]
  exact advance_dropWhile (S.level_sorted i) le_rfl fun r _ hr => hr.le

variable (S) in
def interval (p : ℕ × ℕ) : List ℕ := List.range' (S.first p.1 p.2) (b ^ (S.depth - p.1))

lemma bucketsLoop_tiles {stop fuel bucket : ℕ} {rindices : ℕ → List ℕ} {l : List (ℕ × ℕ)}
    (hborder : S.Border bucket) (hstop : S.Border stop)
    (hrindices : ∀ i, advance (bucket / S.coarsenig i) (rindices i) = S.iterators bucket i)
    (hl : S.bucketsLoop stop fuel bucket rindices = some l) :
    l.flatMap S.interval = List.range' bucket (stop - bucket) := by
  induction fuel generalizing bucket rindices l with
  | zero =>
      rw [bucketsLoop] at hl
      split_ifs at hl with hlt
      obtain rfl := Option.some.inj hl
      rw [Nat.sub_eq_zero_of_le (Nat.le_of_not_lt hlt)]
      rfl
  | succ fuel ih =>
      rcases Nat.lt_or_ge bucket stop with hlt | hge
      · obtain rfl | ⟨d, index, hleaf, rfl⟩ := hborder
        · exact absurd hstop.le_buckets (Nat.not_le.mpr hlt)
        have hle := hstop.add_le hleaf hlt
        have hdescend := descend_first hleaf (Nat.zero_le d)
        rw [Nat.sub_zero] at hdescend
        simp only [bucketsLoop, if_pos hlt, hrindices, buckets, hdescend, Option.bind_eq_bind,
          Option.bind_some] at hl
        obtain ⟨rest, hrest, heq⟩ := Option.bind_eq_some_iff.mp hl
        have htiles := ih hleaf.border_add (advance_iterators hleaf) hrest
        obtain rfl := Option.some.inj heq
        rw [List.flatMap_cons, htiles, interval, first_div, List.range'_append_1]
        exact congrArg (List.range' _) (by dsimp only; omega)
      · rw [bucketsLoop, if_neg (Nat.not_lt.mpr hge)] at hl
        obtain rfl := Option.some.inj hl
        rw [Nat.sub_eq_zero_of_le hge]
        rfl

variable (S) in
lemma border_zero : S.Border 0 := by
  obtain ⟨d, hleaf⟩ := S.exists_leaf (pow_pos' S.depth)
  rw [Nat.zero_div] at hleaf
  exact Or.inr ⟨d, 0, hleaf, (Nat.zero_mul _).symm⟩

/-- **Over the whole range**, the loop reports all leaves. -/
lemma iterateBuckets_all : ∃ l, S.iterateBuckets 0 (buckets b S.depth) = some l ∧
    ∀ d index, (d, index) ∈ l ↔ S.Leaf d index := by
  obtain ⟨l, hl, hmem⟩ := iterateBuckets_spec S.border_zero (le_refl (buckets b S.depth))
  refine ⟨l, hl, fun d index => (hmem d index).trans ⟨fun h => h.1, fun h => ⟨h, Nat.zero_le _, ?_⟩⟩⟩
  have hle := h.first_add_le
  have hpos := pow_pos' (b := b) (S.depth - d)
  rw [buckets]
  omega

/-- **Between two borders of leaves**, the loop reports exactly the leaves between them, each of them
once and in ascending order, and their buckets tile the range. -/
theorem iterateBuckets_tiles {start stop : ℕ} (hstart : S.Border start) (hstop : S.Border stop) :
    ∃ l, S.iterateBuckets start stop = some l ∧
      (∀ d index, (d, index) ∈ l ↔ S.Leaf d index ∧ start ≤ S.first d index ∧
        S.first d index + b ^ (S.depth - d) ≤ stop) ∧
      l.Pairwise (fun p q => S.first p.1 p.2 + b ^ (S.depth - p.1) ≤ S.first q.1 q.2) ∧
      l.flatMap S.interval = List.range' start (stop - start) := by
  obtain ⟨l, hl, hmem⟩ := iterateBuckets_spec hstart hstop.le_buckets
  have htiles : l.flatMap S.interval = List.range' start (stop - start) := by
    refine bucketsLoop_tiles hstart hstop (fun i => ?_) hl
    rw [drop_lowerBound]
    exact advance_dropWhile (S.level_sorted i) le_rfl fun r _ hr => hr.le
  refine ⟨l, hl, fun d index => ?_, ?_, htiles⟩
  · have hpos := pow_pos' (b := b) (S.depth - d)
    rw [hmem]
    refine and_congr_right fun hleaf => and_congr_right fun _ => ⟨hstop.add_le hleaf, fun hle => ?_⟩
    omega
  · have hsorted : (l.flatMap S.interval).Pairwise (· < ·) := htiles ▸ List.pairwise_lt_range'
    refine (List.pairwise_flatMap.mp hsorted).2.imp fun {p q} hpq => ?_
    have hp := pow_pos' (b := b) (S.depth - p.1)
    have hq := pow_pos' (b := b) (S.depth - q.1)
    have hlt := hpq (S.first p.1 p.2 + (b ^ (S.depth - p.1) - 1))
      (List.mem_range'_1.mpr ⟨Nat.le_add_right _ _, by omega⟩) (S.first q.1 q.2)
      (List.mem_range'_1.mpr ⟨le_rfl, by omega⟩)
    omega

lemma refinedPart_sorted : ∀ level ∈ [[0], [1], []], level.Pairwise (· < ·) := by decide

lemma refinedPart_parent : ∀ i, ∀ r ∈ [[0], [1], []].getD (i + 1) [],
    r / 4 ∈ [[0], [1], []].getD i []
  | 0 => by decide
  | 1 => by decide
  | _ + 2 => fun _ hr => absurd hr List.not_mem_nil

def refinedPart : Refinement 4 where
  depth := 2
  refinedsfc := [[0], [1], []]
  root := rfl
  sorted := refinedPart_sorted
  parent := refinedPart_parent
  length_le := le_rfl
  complete := Or.inl rfl

lemma refinedPart_border_four : refinedPart.Border 4 :=
  Or.inr ⟨2, 4, ⟨by decide, by decide, by decide, by decide⟩, rfl⟩

lemma refinedPart_border_twelve : refinedPart.Border 12 :=
  Or.inr ⟨1, 3, ⟨by decide, by decide, by decide, by decide⟩, rfl⟩

theorem iterateBuckets_tiles_refinedPart :
    ∃ l, refinedPart.iterateBuckets 4 12 = some l ∧
      (∀ d index, (d, index) ∈ l ↔ refinedPart.Leaf d index ∧ 4 ≤ refinedPart.first d index ∧
        refinedPart.first d index + 4 ^ (refinedPart.depth - d) ≤ 12) ∧
      l.Pairwise (fun p q => refinedPart.first p.1 p.2 + 4 ^ (refinedPart.depth - p.1)
        ≤ refinedPart.first q.1 q.2) ∧
      l.flatMap refinedPart.interval = List.range' 4 8 :=
  iterateBuckets_tiles refinedPart_border_four refinedPart_border_twelve

end Refinement

end Espreso.SFC
