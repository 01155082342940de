import Mathlib.Algebra.Order.Ring.Nat
import Mathlib.Data.List.Basic
import Mathlib.Data.Nat.Log
import Mathlib.Tactic.Ring

/-!
# Reduction by a binary tree

`n` values are combined pairwise: level `l` combines position `k`, a multiple of `2 ^ (l + 1)`, with
position `k + 2 ^ l`.

* `Tree.level`, `Tree.reduce` — one level and the first levels.
* **`Tree.reduce_represents`** — what holds of the values and of every combination of neighbouring
  blocks holds of the whole block, with its members in order.
* **`Tree.items_reduce`** — which items are left, where a right block without weight is dropped.
-/

namespace Tree

variable {M : Type}

/-- The level with distance `j`. -/
def level (op : M → M → M) (n j : ℕ) (v : ℕ → M) (k : ℕ) : M :=
  if k % (2 * j) = 0 ∧ k + j < n then op (v k) (v (k + j)) else v k

/-- The first `levels` levels. -/
def reduce (op : M → M → M) (n levels : ℕ) (v : ℕ → M) : ℕ → M :=
  (List.range levels).foldl (fun v l => level op n (2 ^ l) v) v

@[simp] lemma reduce_zero (op : M → M → M) (n : ℕ) (v : ℕ → M) : reduce op n 0 v = v := rfl

lemma reduce_succ (op : M → M → M) (n l : ℕ) (v : ℕ → M) :
    reduce op n (l + 1) v = level op n (2 ^ l) (reduce op n l v) := by
  rw [reduce, List.range_succ, List.foldl_append]
  rfl

lemma mod_two_pow {k l : ℕ} (h : k % 2 ^ (l + 1) = 0) : k % 2 ^ l = 0 :=
  Nat.mod_eq_zero_of_dvd (dvd_trans (pow_dvd_pow 2 (Nat.le_succ l)) (Nat.dvd_of_mod_eq_zero h))

lemma range'_block {k l n : ℕ} (h : k + 2 ^ l < n) :
    List.range' k (min (2 ^ l) (n - k)) ++ List.range' (k + 2 ^ l) (min (2 ^ l) (n - (k + 2 ^ l)))
      = List.range' k (min (2 ^ (l + 1)) (n - k)) := by
  have hpow : 2 ^ (l + 1) = 2 ^ l + 2 ^ l := by ring
  rw [show min (2 ^ l) (n - k) = 2 ^ l by omega, List.range'_append_1,
    show 2 ^ l + min (2 ^ l) (n - (k + 2 ^ l)) = min (2 ^ (l + 1)) (n - k) by omega]

/-- **The tree keeps the order.**  `Represents a ks` says that `a` combines the members `ks`; after
`l` levels a multiple `k` of `2 ^ l` holds the members from `k` to the end of its block. -/
theorem reduce_represents {op : M → M → M} {Represents : M → List ℕ → Prop}
    (hop : ∀ a b ks ks', Represents a ks → Represents b ks' → Represents (op a b) (ks ++ ks'))
    {n : ℕ} {v : ℕ → M} (hv : ∀ k < n, Represents (v k) [k]) (l : ℕ) :
    ∀ k < n, k % 2 ^ l = 0 →
      Represents (reduce op n l v k) (List.range' k (min (2 ^ l) (n - k))) := by
  induction l with
  | zero =>
      intro k hk _
      have hone : min (2 ^ 0) (n - k) = 1 := by omega
      rw [hone]
      exact hv k hk
  | succ l ih =>
      intro k hk hdvd
      have hmod : k % 2 ^ l = 0 := mod_two_pow hdvd
      rw [reduce_succ, level, ← pow_succ']
      by_cases hpartner : k + 2 ^ l < n
      · have hmod' : (k + 2 ^ l) % 2 ^ l = 0 := by rw [Nat.add_mod_right, hmod]
        rw [if_pos ⟨hdvd, hpartner⟩, ← range'_block hpartner]
        exact hop _ _ _ _ (ih k hk hmod) (ih _ hpartner hmod')
      · rw [if_neg (fun h => hpartner h.2),
          show min (2 ^ (l + 1)) (n - k) = min (2 ^ l) (n - k) by rw [pow_succ]; omega]
        exact ih k hk hmod

/-- Enough levels leave everything at position 0. -/
theorem reduce_all {op : M → M → M} {Represents : M → List ℕ → Prop}
    (hop : ∀ a b ks ks', Represents a ks → Represents b ks' → Represents (op a b) (ks ++ ks'))
    {n : ℕ} (hn : 0 < n) {v : ℕ → M} (hv : ∀ k < n, Represents (v k) [k]) {levels : ℕ}
    (hlevels : n ≤ 2 ^ levels) : Represents (reduce op n levels v 0) (List.range n) := by
  have h := reduce_represents hop hv levels 0 hn (Nat.zero_mod _)
  rwa [Nat.sub_zero, min_eq_right hlevels, ← List.range_eq_range'] at h

/-! ## Dropped blocks -/

section Dropped

variable {α : Type} (weight : M → ℕ) (n : ℕ) (v : ℕ → M)

/-- In the first `levels` levels the block of `d` has weight, whenever it is a right one. -/
def Kept (levels d : ℕ) : Prop :=
  ∀ l < levels, (d / 2 ^ l) % 2 = 1 → ∃ e < n, e / 2 ^ l = d / 2 ^ l ∧ weight (v e) ≠ 0

variable {weight n v}

lemma kept_succ {l d : ℕ} : Kept weight n v (l + 1) d ↔ Kept weight n v l d ∧
    ((d / 2 ^ l) % 2 = 1 → ∃ e < n, e / 2 ^ l = d / 2 ^ l ∧ weight (v e) ≠ 0) := by
  simp only [Kept, Nat.lt_succ_iff_lt_or_eq]
  constructor
  · exact fun h => ⟨fun l' hl' => h l' (Or.inl hl'), h l (Or.inr rfl)⟩
  · rintro ⟨hbefore, hlast⟩ l' (hl' | rfl)
    · exact hbefore l' hl'
    · exact hlast

lemma mem_block {l k d : ℕ} (hk : k % 2 ^ l = 0) :
    d ∈ List.range' k (min (2 ^ l) (n - k)) ↔ d < n ∧ d / 2 ^ l = k / 2 ^ l := by
  have hpos : 0 < 2 ^ l := Nat.two_pow_pos l
  have hmul : k / 2 ^ l * 2 ^ l = k := Nat.div_mul_cancel (Nat.dvd_of_mod_eq_zero hk)
  rw [List.mem_range'_1, Nat.div_eq_iff hpos]
  omega

variable {op : M → M → M}

lemma kept_succ_left {l k d : ℕ} (hk : k % 2 ^ (l + 1) = 0) (hd : d / 2 ^ l = k / 2 ^ l) :
    Kept weight n v (l + 1) d ↔ Kept weight n v l d := by
  have heven : (d / 2 ^ l) % 2 = 0 := by
    rw [hd, ← Nat.mod_mul_right_div_self, ← pow_succ, hk, Nat.zero_div]
  rw [kept_succ, and_iff_left_of_imp]
  intro _ hodd
  omega

lemma kept_succ_right {l k d : ℕ} (hk : k % 2 ^ (l + 1) = 0)
    (hd : d / 2 ^ l = (k + 2 ^ l) / 2 ^ l) : Kept weight n v (l + 1) d ↔
      Kept weight n v l d ∧ ∃ e < n, e / 2 ^ l = (k + 2 ^ l) / 2 ^ l ∧ weight (v e) ≠ 0 := by
  have heven : (k / 2 ^ l) % 2 = 0 := by
    rw [← Nat.mod_mul_right_div_self, ← pow_succ, hk, Nat.zero_div]
  have hodd : (d / 2 ^ l) % 2 = 1 := by
    rw [hd, Nat.add_div_right k (Nat.two_pow_pos l)]
    omega
  rw [hd] at hodd
  rw [kept_succ, hd]
  exact and_congr_right fun _ => ⟨fun h => h hodd, fun h _ => h⟩

lemma weight_reduce (hweight : ∀ a b, weight (op a b) = weight a + weight b) {l k : ℕ} (hk : k < n)
    (hmod : k % 2 ^ l = 0) : weight (reduce op n l v k)
      = ((List.range' k (min (2 ^ l) (n - k))).map fun d => weight (v d)).sum := by
  have hop : ∀ (a b : M) (ks ks' : List ℕ), weight a = (ks.map fun d => weight (v d)).sum →
      weight b = (ks'.map fun d => weight (v d)).sum →
        weight (op a b) = ((ks ++ ks').map fun d => weight (v d)).sum := by
    intro a b ks ks' ha hb
    rw [hweight, ha, hb, List.map_append, List.sum_append]
  exact reduce_represents hop (fun k _ => by simp) l k hk hmod

lemma weight_reduce_eq_zero_iff (hweight : ∀ a b, weight (op a b) = weight a + weight b) {l k : ℕ}
    (hk : k < n) (hmod : k % 2 ^ l = 0) : weight (reduce op n l v k) = 0 ↔
      ¬∃ e < n, e / 2 ^ l = k / 2 ^ l ∧ weight (v e) ≠ 0 := by
  rw [weight_reduce hweight hk hmod, List.sum_eq_zero_iff_forall_eq_nat, List.forall_mem_map]
  simp only [mem_block hmod, not_exists, not_and, not_not, and_imp]

open Classical in
/-- **What is left** of the items of a block: those whose blocks had weight. -/
theorem items_reduce {items : M → List α}
    (hweight : ∀ a b, weight (op a b) = weight a + weight b)
    (hitems : ∀ a b, items (op a b) = items a ++ if weight b = 0 then [] else items b) (l : ℕ) :
    ∀ k < n, k % 2 ^ l = 0 → items (reduce op n l v k)
      = (List.range' k (min (2 ^ l) (n - k))).flatMap fun d =>
          if Kept weight n v l d then items (v d) else [] := by
  induction l with
  | zero =>
      intro k hk _
      have hone : min (2 ^ 0) (n - k) = 1 := by omega
      have hkept : Kept weight n v 0 k := fun l hl => absurd hl (Nat.not_lt_zero l)
      rw [hone, List.range'_one, List.flatMap_singleton, if_pos hkept]
      rfl
  | succ l ih =>
      intro k hk hdvd
      have hmod : k % 2 ^ l = 0 := mod_two_pow hdvd
      have hleft : (List.range' k (min (2 ^ l) (n - k))).flatMap (fun d =>
          if Kept weight n v (l + 1) d then items (v d) else [])
            = items (reduce op n l v k) := by
        rw [ih k hk hmod]
        refine List.flatMap_congr fun d hd => ?_
        simp only [kept_succ_left hdvd ((mem_block hmod).mp hd).2]
      rw [reduce_succ, level, ← pow_succ']
      by_cases hpartner : k + 2 ^ l < n
      · have hmod' : (k + 2 ^ l) % 2 ^ l = 0 := by rw [Nat.add_mod_right, hmod]
        have hright : (List.range' (k + 2 ^ l) (min (2 ^ l) (n - (k + 2 ^ l)))).flatMap (fun d =>
            if Kept weight n v (l + 1) d then items (v d) else [])
              = if weight (reduce op n l v (k + 2 ^ l)) = 0 then []
                else items (reduce op n l v (k + 2 ^ l)) := by
          rw [ih _ hpartner hmod']
          split_ifs with hzero
          · rw [weight_reduce_eq_zero_iff hweight hpartner hmod'] at hzero
            refine List.flatMap_eq_nil_iff.mpr fun d hd => if_neg fun hkept => hzero ?_
            exact ((kept_succ_right hdvd ((mem_block hmod').mp hd).2).mp hkept).2
          · rw [weight_reduce_eq_zero_iff hweight hpartner hmod', not_not] at hzero
            refine List.flatMap_congr fun d hd => ?_
            simp only [kept_succ_right hdvd ((mem_block hmod').mp hd).2, and_iff_left hzero]
        rw [if_pos ⟨hdvd, hpartner⟩, hitems, ← hleft, ← hright, ← List.flatMap_append,
          range'_block hpartner]
      · rw [if_neg (fun h => hpartner h.2), ← hleft,
          show min (2 ^ (l + 1)) (n - k) = min (2 ^ l) (n - k) by rw [pow_succ]; omega]

end Dropped

end Tree
