import Mathlib.Algebra.BigOperators.Intervals
import Mathlib.Algebra.Order.BigOperators.Group.Finset
import Mathlib.Data.Finset.Sigma
import Mathlib.Data.Set.Function
import Mathlib.Tactic

/-!
# Consecutive blocks

Numbering schemes that give every block of a family a start, and every element of a block the
number `start + position`.

* **`blocks_bijOn`** — blocks that do not overlap and stay below the total size number everything
  exactly once.
* `mul_add_bijOn`, **`numbering_bijOn`** — rows of equal length, and blocks whose elements have a
  numbering of their own.
* `pairIndex` — the pairs `a < b` below `n`, row by row; **`pairIndex_bijOn`**.
-/

namespace Layout

open Finset

/-! ## Blocks -/

/-- **A numbering by blocks is a bijection.**  If the blocks `[off i, off i + size i)` are pairwise
disjoint and end within the total size, then the numbers `off i + j` with `j < size i` are exactly
the numbers below the total size, each once. -/
theorem blocks_bijOn {ι : Type} [DecidableEq ι] (s : Finset ι) (off size : ι → ℕ)
    (hdisj : ∀ i ∈ s, ∀ j ∈ s, i ≠ j → off i + size i ≤ off j ∨ off j + size j ≤ off i)
    (hbound : ∀ i ∈ s, off i + size i ≤ ∑ i ∈ s, size i) :
    Set.BijOn (fun p : ι × ℕ => off p.1 + p.2) {p | p.1 ∈ s ∧ p.2 < size p.1}
      (Set.Iio (∑ i ∈ s, size i)) := by
  have hinj : Set.InjOn (fun p : ι × ℕ => off p.1 + p.2) {p | p.1 ∈ s ∧ p.2 < size p.1} := by
    rintro ⟨i, a⟩ ⟨hi, ha⟩ ⟨j, b⟩ ⟨hj, hb⟩ heq
    simp only at hi ha hj hb heq
    have hij : i = j := by
      by_contra hne
      rcases hdisj i hi j hj hne with h | h <;> omega
    subst hij
    simp only [Prod.mk.injEq, true_and]
    omega
  refine ⟨?_, hinj, ?_⟩
  · rintro ⟨i, a⟩ ⟨hi, ha⟩
    have := hbound i hi
    simp only [Set.mem_Iio] at *
    omega
  · -- as many numbers as elements
    set blocks : Finset (Σ _ : ι, ℕ) := s.sigma fun i => range (size i) with hblocks
    set image := blocks.image fun p => off p.1 + p.2 with himage
    have hcard : image.card = ∑ i ∈ s, size i := by
      rw [himage, card_image_of_injOn, hblocks, card_sigma]
      · simp
      · rintro ⟨i, a⟩ hp ⟨j, b⟩ hq heq
        simp only [hblocks, coe_sigma, Set.mem_sigma_iff, mem_coe, coe_range, Set.mem_Iio] at hp hq
        have h : (i, a) = (j, b) := hinj ⟨hp.1, hp.2⟩ ⟨hq.1, hq.2⟩ heq
        cases h
        rfl
    have hsub : image ⊆ range (∑ i ∈ s, size i) := by
      intro x hx
      obtain ⟨⟨i, a⟩, hp, rfl⟩ := mem_image.mp hx
      simp only [hblocks, mem_sigma, mem_range] at hp
      have := hbound i hp.1
      simp only [mem_range]
      omega
    have heq : image = range (∑ i ∈ s, size i) := eq_of_subset_of_card_le hsub (by simp [hcard])
    intro x hx
    have hx' : x ∈ image := by rw [heq]; simpa using hx
    obtain ⟨⟨i, a⟩, hp, rfl⟩ := mem_image.mp hx'
    simp only [hblocks, mem_sigma, mem_range] at hp
    exact ⟨(i, a), ⟨hp.1, hp.2⟩, rfl⟩

/-- The sum of the sizes before `i`. -/
def start (size : ℕ → ℕ) (i : ℕ) : ℕ := ∑ j ∈ range i, size j

@[simp] lemma start_zero (size : ℕ → ℕ) : start size 0 = 0 := by simp [start]

lemma start_succ (size : ℕ → ℕ) (i : ℕ) : start size (i + 1) = start size i + size i :=
  sum_range_succ size i

lemma start_mono (size : ℕ → ℕ) {i j : ℕ} (h : i ≤ j) : start size i ≤ start size j :=
  sum_le_sum_of_subset (range_mono h)

lemma start_add_le (size : ℕ → ℕ) {i j : ℕ} (h : i < j) : start size i + size i ≤ start size j := by
  rw [← start_succ]
  exact start_mono size h

lemma sum_range_start {β : Type} [AddCommMonoid β] (size : ℕ → ℕ) (f : ℕ → β) (n : ℕ) :
    ∑ k ∈ range (start size n), f k = ∑ i ∈ range n, ∑ j ∈ range (size i), f (start size i + j) := by
  induction n with
  | zero => simp
  | succ n ih => rw [start_succ, sum_range_add, ih, sum_range_succ]

lemma flatMap_range_start (size : ℕ → ℕ) (n : ℕ) :
    (List.range n).flatMap (fun i => (List.range (size i)).map (start size i + ·))
      = List.range (start size n) := by
  induction n with
  | zero => simp
  | succ n ih =>
      rw [List.range_succ, List.flatMap_append, ih, List.flatMap_singleton, start_succ,
        List.range_add]

lemma length_flatMap_range {β : Type} (f : ℕ → List β) (n : ℕ) :
    ((List.range n).flatMap f).length = start (fun i => (f i).length) n := by
  induction n with
  | zero => simp
  | succ n ih => simp [List.range_succ, ih, start_succ]

lemma getElem?_flatMap_range {β : Type} (f : ℕ → List β) {n i : ℕ} (hi : i < n) {j : ℕ}
    (hj : j < (f i).length) :
    ((List.range n).flatMap f)[start (fun i => (f i).length) i + j]? = (f i)[j]? := by
  induction n with
  | zero => omega
  | succ n ih =>
      rw [List.range_succ, List.flatMap_append, List.flatMap_singleton]
      have hlen := length_flatMap_range f n
      rcases Nat.lt_succ_iff_lt_or_eq.mp hi with hlt | rfl
      · have hle := start_add_le (fun i => (f i).length) hlt
        rw [List.getElem?_append_left (by omega), ih hlt]
      · rw [List.getElem?_append_right (by omega), hlen, Nat.add_sub_cancel_left]

/-- Blocks one after the other. -/
theorem prefixes_bijOn (n : ℕ) (size : ℕ → ℕ) :
    Set.BijOn (fun p : ℕ × ℕ => start size p.1 + p.2) {p | p.1 < n ∧ p.2 < size p.1}
      (Set.Iio (start size n)) := by
  have h := blocks_bijOn (range n) (start size) size
    (fun i _ j _ hij => by
      rcases lt_or_gt_of_ne hij with h | h
      · exact Or.inl (start_add_le size h)
      · exact Or.inr (start_add_le size h))
    (fun i hi => start_add_le size (mem_range.mp hi))
  simpa [start] using h

/-! ## Products and compositions -/

/-- Rows of equal length. -/
theorem mul_add_bijOn (m n : ℕ) :
    Set.BijOn (fun p : ℕ × ℕ => p.1 * n + p.2) {p | p.1 < m ∧ p.2 < n} (Set.Iio (m * n)) := by
  simpa [start] using prefixes_bijOn m fun _ => n

/-- Rows of equal length, with rows and columns numbered by `f` and `h`. -/
theorem mul_add_bijOn_comp {α β : Type} {f : α → ℕ} {h : β → ℕ} {A : Set α} {B : Set β} {m n : ℕ}
    (hf : Set.BijOn f A (Set.Iio m)) (hh : Set.BijOn h B (Set.Iio n)) :
    Set.BijOn (fun p : α × β => f p.1 * n + h p.2) (A ×ˢ B) (Set.Iio (m * n)) := by
  have hpair : Set.BijOn (fun p : α × β => (f p.1, h p.2)) (A ×ˢ B) {p | p.1 < m ∧ p.2 < n} := by
    refine ⟨fun p hp => ⟨hf.mapsTo hp.1, hh.mapsTo hp.2⟩, fun p hp q hq heq => ?_, fun p hp => ?_⟩
    · have h₁ := hf.injOn hp.1 hq.1 (congrArg Prod.fst heq)
      have h₂ := hh.injOn hp.2 hq.2 (congrArg Prod.snd heq)
      exact Prod.ext h₁ h₂
    · obtain ⟨a, ha, hfa⟩ := hf.surjOn hp.1
      obtain ⟨b, hb, hhb⟩ := hh.surjOn hp.2
      exact ⟨(a, b), ⟨ha, hb⟩, Prod.ext hfa hhb⟩
  exact (mul_add_bijOn m n).comp hpair

/-- Blocks whose elements are numbered by `pos`. -/
theorem blocks_comp_bijOn {κ : Type} {n total : ℕ} {off size : ℕ → ℕ} {K : ℕ → Set κ}
    {pos : ℕ → κ → ℕ}
    (hoff : Set.BijOn (fun p : ℕ × ℕ => off p.1 + p.2) {p | p.1 < n ∧ p.2 < size p.1}
      (Set.Iio total))
    (hpos : ∀ i < n, Set.BijOn (pos i) (K i) (Set.Iio (size i))) :
    Set.BijOn (fun p : ℕ × κ => off p.1 + pos p.1 p.2) {p | p.1 < n ∧ p.2 ∈ K p.1}
      (Set.Iio total) := by
  have hpair : Set.BijOn (fun p : ℕ × κ => (p.1, pos p.1 p.2)) {p | p.1 < n ∧ p.2 ∈ K p.1}
      {p | p.1 < n ∧ p.2 < size p.1} := by
    refine ⟨fun p hp => ⟨hp.1, (hpos p.1 hp.1).mapsTo hp.2⟩, ?_, ?_⟩
    · rintro ⟨i, x⟩ ⟨hi, hx⟩ ⟨j, y⟩ ⟨hj, hy⟩ heq
      obtain ⟨rfl, hxy⟩ := Prod.mk.inj heq
      have hxy : x = y := (hpos i hi).injOn hx hy hxy
      rw [hxy]
    · rintro ⟨i, j⟩ ⟨hi, hj⟩
      obtain ⟨x, hx, rfl⟩ := (hpos i hi).surjOn hj
      exact ⟨(i, x), ⟨hi, hx⟩, rfl⟩
  exact hoff.comp hpair

lemma shift_bijOn {κ : Type} {S : Set κ} {f : κ → ℕ} {total : ℕ} (hf : Set.BijOn f S (Set.Iio total))
    (base : ℕ) :
    Set.BijOn (fun x => base + f x + 1) S (Set.Icc (base + 1) (base + total)) := by
  refine ⟨fun x hx => ?_, fun x hx y hy heq => hf.injOn hx hy (by simp only at heq; omega),
    fun n hn => ?_⟩
  · have h : f x < total := hf.mapsTo hx
    simp only [Set.mem_Icc]
    omega
  · obtain ⟨h₁, h₂⟩ := Set.mem_Icc.mp hn
    obtain ⟨x, hx, heq⟩ := hf.surjOn (show n - base - 1 ∈ Set.Iio total by
      simp only [Set.mem_Iio]
      omega)
    refine ⟨x, hx, ?_⟩
    simp only
    omega

/-- A numbering that stays above another one of the same elements by the same numbers agrees with
it. -/
theorem eqOn_of_bijOn_of_le {κ : Type} {S : Set κ} {f h : κ → ℕ} {T : Set ℕ} (hT : T.Finite)
    (hf : Set.BijOn f S T) (hh : Set.BijOn h S T) (hle : ∀ x ∈ S, f x ≤ h x) : Set.EqOn f h S := by
  have hS : S.Finite := hf.finite_iff_finite.mpr hT
  have hsum : ∑ x ∈ hS.toFinset, f x = ∑ x ∈ hS.toFinset, h x := by
    have himage : ∀ k : κ → ℕ, Set.BijOn k S T →
        ∑ x ∈ hS.toFinset, k x = ∑ n ∈ hT.toFinset, n := by
      intro k hk
      refine sum_nbij k (fun x hx => ?_) (fun x hx y hy => ?_) (fun n hn => ?_) fun _ _ => rfl
      · exact hT.mem_toFinset.mpr (hk.mapsTo (hS.mem_toFinset.mp hx))
      · exact hk.injOn (hS.mem_toFinset.mp hx) (hS.mem_toFinset.mp hy)
      · obtain ⟨x, hx, rfl⟩ := hk.surjOn (hT.mem_toFinset.mp hn)
        exact ⟨x, hS.mem_toFinset.mpr hx, rfl⟩
    rw [himage f hf, himage h hh]
  have heq := (sum_eq_sum_iff_of_le fun x hx => hle x (hS.mem_toFinset.mp hx)).mp hsum
  exact fun x hx => heq x (hS.mem_toFinset.mpr hx)

/-- Blocks whose elements are numbered by `pos`: the numbers `base + off i + pos i x + 1` are exactly
those above `base`, up to the total size. -/
theorem numbering_bijOn {κ : Type} {n total base : ℕ} {off size : ℕ → ℕ} {K : ℕ → Set κ}
    {pos : ℕ → κ → ℕ}
    (hoff : Set.BijOn (fun p : ℕ × ℕ => off p.1 + p.2) {p | p.1 < n ∧ p.2 < size p.1}
      (Set.Iio total))
    (hpos : ∀ i < n, Set.BijOn (pos i) (K i) (Set.Iio (size i))) :
    Set.BijOn (fun p : ℕ × κ => base + off p.1 + pos p.1 p.2 + 1) {p | p.1 < n ∧ p.2 ∈ K p.1}
      (Set.Icc (base + 1) (base + total)) := by
  have h := shift_bijOn (blocks_comp_bijOn hoff hpos) base
  simpa only [Nat.add_assoc] using h

/-- The positions in a list without repetitions. -/
theorem idxOf_bijOn {α : Type} [BEq α] [LawfulBEq α] {l : List α} (hl : l.Nodup) :
    Set.BijOn (fun x => l.idxOf x) {x | x ∈ l} (Set.Iio l.length) := by
  refine ⟨fun x hx => List.idxOf_lt_length_of_mem hx, fun x hx y _ heq => ?_, fun i hi => ?_⟩
  · exact (List.idxOf_inj hx).mp heq
  · exact ⟨l.get ⟨i, hi⟩, List.get_mem l ⟨i, hi⟩, hl.idxOf_getElem i hi⟩

/-! ## Pairs -/

/-- The position of the pair `a < b` when the pairs below `n` are listed row by row. -/
def pairIndex (n a b : ℕ) : ℕ := start (fun l => n - 1 - l) a + (b - a - 1)

lemma start_pairs (n : ℕ) : ∀ a ≤ n, start (fun l => n - 1 - l) a * 2 = a * (2 * n - a - 1) := by
  intro a
  induction a with
  | zero => simp
  | succ a ih =>
      intro ha
      have h := ih (by omega)
      obtain ⟨m, rfl⟩ : ∃ m, n = a + 1 + m := ⟨n - a - 1, by omega⟩
      rw [start_succ, add_mul, h, show 2 * (a + 1 + m) - a - 1 = a + 2 * m + 1 by omega,
        show a + 1 + m - 1 - a = m by omega, show 2 * (a + 1 + m) - (a + 1) - 1 = a + 2 * m by omega]
      ring

lemma start_pairs_all (n : ℕ) : start (fun l => n - 1 - l) n = n * (n - 1) / 2 := by
  have h := start_pairs n n (le_refl n)
  rw [show 2 * n - n - 1 = n - 1 by omega] at h
  omega

lemma start_pairs_split {n d : ℕ} (hd : d < n) :
    start (fun l => n - 1 - l) d + (n - d - 1) + (n - d - 1) * (n - d - 2) / 2
      = n * (n - 1) / 2 := by
  obtain ⟨m, rfl⟩ : ∃ m, n = d + 1 + m := ⟨n - d - 1, by omega⟩
  have hstart := start_pairs (d + 1 + m) d (by omega)
  have htail : m * (m - 1) / 2 * 2 = m * (m - 1) :=
    Nat.div_mul_cancel (Nat.even_mul_pred_self m).two_dvd
  have hall : (d + 1 + m) * (d + m) / 2 * 2 = (d + 1 + m) * (d + m) :=
    Nat.div_mul_cancel (by simpa [show d + 1 + m - 1 = d + m by omega] using
      (Nat.even_mul_pred_self (d + 1 + m)).two_dvd)
  rw [show 2 * (d + 1 + m) - d - 1 = d + 1 + 2 * m by omega] at hstart
  rw [show d + 1 + m - d - 1 = m by omega, show d + 1 + m - d - 2 = m - 1 by omega,
    show d + 1 + m - 1 = d + m by omega]
  have hsquare : m * (m - 1) + m = m * m := by
    cases m with
    | zero => rfl
    | succ m =>
        rw [Nat.add_sub_cancel]
        ring
  have hsum : d * (d + 1 + 2 * m) + 2 * m + m * (m - 1) = (d + 1 + m) * (d + m) := by
    calc d * (d + 1 + 2 * m) + 2 * m + m * (m - 1)
        = d * (d + 1 + 2 * m) + m + (m * (m - 1) + m) := by ring
      _ = d * (d + 1 + 2 * m) + m + m * m := by rw [hsquare]
      _ = (d + 1 + m) * (d + m) := by ring
  rw [show d + 1 + m - 1 = d + m by omega] at hstart
  omega

/-- **Every pair has its own position**, and all positions are taken. -/
theorem pairIndex_bijOn (n : ℕ) :
    Set.BijOn (fun p : ℕ × ℕ => pairIndex n p.1 p.2) {p | p.1 < p.2 ∧ p.2 < n}
      (Set.Iio (n * (n - 1) / 2)) := by
  have h := prefixes_bijOn n fun l => n - 1 - l
  rw [start_pairs_all] at h
  have hshift : Set.BijOn (fun p : ℕ × ℕ => (p.1, p.2 - p.1 - 1)) {p | p.1 < p.2 ∧ p.2 < n}
      {p | p.1 < n ∧ p.2 < n - 1 - p.1} := by
    refine ⟨?_, ?_, ?_⟩
    · rintro ⟨a, b⟩ ⟨h₁, h₂⟩
      refine ⟨?_, ?_⟩ <;> simp only <;> omega
    · rintro ⟨a, b⟩ ⟨h₁, h₂⟩ ⟨c, d⟩ ⟨h₃, h₄⟩ heq
      simp only [Prod.mk.injEq] at *
      omega
    · rintro ⟨a, c⟩ ⟨h₁, h₂⟩
      simp only at h₁ h₂
      refine ⟨(a, a + 1 + c), ⟨?_, ?_⟩, ?_⟩
      · simp only
        omega
      · simp only
        omega
      · simp only [Prod.mk.injEq, true_and]
        omega
  exact h.comp hshift

/-! ## The accumulating loop -/

section Accumulate

variable {α β : Type}

/-- The loop `for (a : l) { f(offset, a); offset += size(a); }`. -/
def accumulate (size : α → ℕ) (f : ℕ → α → β) : ℕ → List α → List β
  | _, [] => []
  | off, a :: l => f off a :: accumulate size f (off + size a) l

lemma accumulate_append (size : α → ℕ) (f : ℕ → α → β) (off : ℕ) (l l' : List α) :
    accumulate size f off (l ++ l')
      = accumulate size f off l ++ accumulate size f (off + (l.map size).sum) l' := by
  induction l generalizing off with
  | nil => simp [accumulate]
  | cons a l ih => simp [accumulate, ih, Nat.add_assoc]

lemma accumulate_map {γ : Type} (size : α → ℕ) (f : ℕ → α → β) (g : γ → α) (off : ℕ) (l : List γ) :
    accumulate size f off (l.map g)
      = accumulate (fun c => size (g c)) (fun off c => f off (g c)) off l := by
  induction l generalizing off with
  | nil => rfl
  | cons a l ih => simp [accumulate, ih]

lemma sum_filter_range (size : ℕ → ℕ) (P : ℕ → Prop) [DecidablePred P] (n : ℕ) :
    (((List.range n).filter P).map size).sum = start (fun g => if P g then size g else 0) n := by
  induction n with
  | zero => simp
  | succ n ih =>
      rw [List.range_succ, List.filter_append, List.map_append, List.sum_append, ih, start_succ]
      by_cases h : P n <;> simp [h]

lemma accumulate_filter (size : ℕ → ℕ) (f : ℕ → ℕ → β) (P : ℕ → Prop) [DecidablePred P] (n : ℕ) :
    accumulate size f 0 ((List.range n).filter P)
      = ((List.range n).filter P).map
        fun g => f (start (fun h => if P h then size h else 0) g) g := by
  induction n with
  | zero => rfl
  | succ n ih =>
      rw [List.range_succ, List.filter_append, accumulate_append, ih, List.map_append,
        sum_filter_range]
      by_cases h : P n <;> simp [h, accumulate]

lemma accumulate_range (size : ℕ → ℕ) (f : ℕ → ℕ → β) (off n : ℕ) :
    accumulate size f off (List.range n) = (List.range n).map fun i => f (off + start size i) i := by
  induction n with
  | zero => rfl
  | succ n ih =>
      have hsum : ((List.range n).map size).sum = start size n := by
        simpa using sum_filter_range size (fun _ => True) n
      rw [List.range_succ, accumulate_append, ih, hsum, List.map_append]
      rfl

lemma accumulate_flatMap {γ : Type} (f : ℕ → α → β) (g : γ → List α) (off : ℕ) (l : List γ) :
    accumulate (fun _ => 1) f off (l.flatMap g)
      = (accumulate (fun c => (g c).length) (fun off c => accumulate (fun _ => 1) f off (g c))
        off l).flatten := by
  induction l generalizing off with
  | nil => rfl
  | cons c l ih =>
      have hsum : ((g c).map fun _ => 1).sum = (g c).length := by simp
      rw [List.flatMap_cons, accumulate_append, hsum, ih, accumulate, List.flatten_cons]

lemma accumulate_range' (f : ℕ → ℕ → β) (off s n : ℕ) :
    accumulate (fun _ => 1) f off (List.range' s n)
      = (List.range' s n).map fun i => f (off + (i - s)) i := by
  induction n generalizing off s with
  | zero => rfl
  | succ n ih =>
      rw [List.range'_succ, accumulate, ih, List.map_cons, Nat.sub_self, Nat.add_zero]
      refine congrArg _ (List.map_congr_left fun i hi => ?_)
      have := (List.mem_range'_1.mp hi).1
      rw [show off + 1 + (i - (s + 1)) = off + (i - s) by omega]

lemma accumulate_idxOf [BEq α] [LawfulBEq α] (f : ℕ → α → β) {l : List α} (hl : l.Nodup) (off : ℕ) :
    accumulate (fun _ => 1) f off l = l.map fun x => f (off + l.idxOf x) x := by
  induction l generalizing off with
  | nil => rfl
  | cons a l ih =>
      have ha := List.nodup_cons.mp hl
      rw [accumulate, ih ha.2, List.map_cons, List.idxOf_cons_self, Nat.add_zero]
      refine congrArg _ (List.map_congr_left fun x hx => ?_)
      have hne : a ≠ x := fun h => ha.1 (h ▸ hx)
      rw [List.idxOf_cons_ne _ hne, Nat.succ_eq_add_one, show off + 1 + List.idxOf x l
        = off + (List.idxOf x l + 1) by omega]

end Accumulate

lemma filter_range_getElem? (P : ℕ → Prop) [DecidablePred P] {n s : ℕ} (hs : s < n) (hP : P s) :
    ((List.range n).filter P)[((List.range s).filter P).length]? = some s := by
  obtain ⟨m, rfl⟩ : ∃ m, n = s + (m + 1) := ⟨n - s - 1, by omega⟩
  have hsplit : List.range (s + (m + 1)) = List.range s ++ s :: List.range' (s + 1) m := by
    rw [List.range_eq_range', List.range_eq_range', ← List.range'_append_1, List.range'_succ]
    simp
  rw [hsplit, List.filter_append, List.filter_cons_of_pos (by simpa using hP),
    List.getElem?_append_right (le_refl _), Nat.sub_self]
  rfl

end Layout
