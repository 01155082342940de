import Mathlib.Data.List.GetD
import Mathlib.Data.List.Sort
import Mathlib.Data.List.TakeWhile
import Mathlib.Tactic.Ring

/-!
# Groups of a sorted list

A list that is sorted by a key falls into groups of equal keys. Programs keep the values of all
groups in one list and remember where each group begins.

* `Grouped.boundaries` — the beginnings of the groups, and the end of the list.
* **`Grouped.boundaries_eq`** — the beginning of a group counts the smaller keys.
* **`Grouped.slice_eq`** — the slice between two beginnings holds the values of the group.
-/

namespace Grouped

/-! ## Properties of a beginning of a list -/

section Prefix

variable {α : Type} {P : α → Bool} {l : List α}

lemma countP_eq_zero_of_head {a : α} (hmono : (a :: l).Pairwise fun x y => P y = true → P x = true)
    (ha : P a = false) : l.countP P = 0 := by
  refine List.countP_eq_zero.mpr fun b hb hPb => ?_
  rw [(List.pairwise_cons.mp hmono).1 b hb hPb] at ha
  exact absurd ha (by decide)

/-- Position `i` has the property if and only if it is among the first. -/
lemma getElem_iff (hmono : l.Pairwise fun x y => P y = true → P x = true) {i : ℕ}
    (hi : i < l.length) : P l[i] = true ↔ i < l.countP P := by
  induction l generalizing i with
  | nil => exact absurd hi (Nat.not_lt_zero i)
  | cons a l ih =>
      have htail := (List.pairwise_cons.mp hmono).2
      rcases ha : P a with _ | _
      · have hcount := countP_eq_zero_of_head hmono ha
        rw [List.countP_cons, hcount, ha]
        rcases i with _ | i
        · simp [ha]
        · have hi' : i < l.length := Nat.lt_of_succ_lt_succ hi
          rw [List.getElem_cons_succ, ih htail hi', hcount]
          simp
      · rw [List.countP_cons, ha, if_pos rfl]
        rcases i with _ | i
        · simp [ha]
        · have hi' : i < l.length := Nat.lt_of_succ_lt_succ hi
          rw [List.getElem_cons_succ, ih htail hi']
          omega

lemma filter_eq_take (hmono : l.Pairwise fun x y => P y = true → P x = true) :
    l.filter P = l.take (l.countP P) := by
  induction l with
  | nil => rfl
  | cons a l ih =>
      rcases ha : P a with _ | _
      · have hcount := countP_eq_zero_of_head hmono ha
        rw [List.filter_cons_of_neg (by simp [ha]), ih (List.pairwise_cons.mp hmono).2,
          List.countP_cons, hcount, ha]
        simp
      · rw [List.filter_cons_of_pos ha, ih (List.pairwise_cons.mp hmono).2, List.countP_cons, ha,
          if_pos rfl, List.take_succ_cons]

lemma filter_not_eq_drop (hmono : l.Pairwise fun x y => P y = true → P x = true) :
    l.filter (fun a => !P a) = l.drop (l.countP P) := by
  induction l with
  | nil => rfl
  | cons a l ih =>
      rcases ha : P a with _ | _
      · have hcount := countP_eq_zero_of_head hmono ha
        rw [List.filter_cons_of_pos (by simp [ha]), ih (List.pairwise_cons.mp hmono).2,
          List.countP_cons, hcount, ha]
        simp
      · rw [List.filter_cons_of_neg (by simp [ha]), ih (List.pairwise_cons.mp hmono).2,
          List.countP_cons, ha, if_pos rfl, List.drop_succ_cons]

lemma length_takeWhile_eq_countP_iff : (l.takeWhile P).length = l.countP P ↔
    l.Pairwise fun x y => P y = true → P x = true := by
  induction l with
  | nil => simp
  | cons a l ih =>
      rcases ha : P a with _ | _
      · simp only [List.takeWhile_cons_of_neg (show ¬P a = true by simp [ha]), List.length_nil,
          List.countP_cons, ha, List.pairwise_cons]
        constructor
        · intro h
          have hnone := List.countP_eq_zero.mp (show l.countP P = 0 by simp at h; omega)
          refine ⟨fun b hb hPb => absurd hPb (hnone b hb), ?_⟩
          exact List.Pairwise.imp_of_mem (fun _ hy _ hPy => absurd hPy (hnone _ hy))
            (List.pairwise_of_forall fun _ _ => trivial)
        · rintro ⟨h, -⟩
          have hnone : l.countP P = 0 :=
            List.countP_eq_zero.mpr fun b hb hPb => absurd (h b hb hPb) (by decide)
          simp [hnone]
      · simp only [List.takeWhile_cons_of_pos ha, List.length_cons, List.countP_cons, ha, if_true,
          Nat.add_right_cancel_iff, ih, List.pairwise_cons, implies_true, true_and]

end Prefix

/-! ## Sorted keys -/

/-- Where the groups of a list of keys begin: at 0 and wherever the key changes; the end of the list
comes last. -/
def boundaries (keys : List ℕ) : List ℕ :=
  0 :: (List.range keys.length).filter
    (fun i => 0 < i ∧ keys.getD (i - 1) 0 ≠ keys.getD i 0) ++ [keys.length]

/-- The number of keys below `n`. -/
def before (keys : List ℕ) (n : ℕ) : ℕ := keys.countP (· < n)

variable {keys : List ℕ} {N : ℕ}

lemma getElem_lt_iff (h : keys.Pairwise (· ≤ ·)) {i n : ℕ} (hi : i < keys.length) :
    keys[i] < n ↔ i < before keys n := by
  have hmono : keys.Pairwise fun x y => decide (y < n) = true → decide (x < n) = true :=
    h.imp fun hxy hy => by
      simp only [decide_eq_true_eq] at hy ⊢
      omega
  rw [before, ← getElem_iff hmono hi, decide_eq_true_eq]

lemma before_le (n : ℕ) : before keys n ≤ keys.length := List.countP_le_length

lemma before_zero : before keys 0 = 0 := by simp [before]

lemma before_all (hlt : ∀ k ∈ keys, k < N) : before keys N = keys.length :=
  List.countP_eq_length.mpr fun k hk => decide_eq_true (hlt k hk)

lemma before_lt_succ (h : keys.Pairwise (· ≤ ·)) {n : ℕ} (hn : n ∈ keys) :
    before keys n < before keys (n + 1) := by
  obtain ⟨i, hi, hin⟩ := List.mem_iff_getElem.mp hn
  have hlt : i < before keys (n + 1) := (getElem_lt_iff h hi).mp (by omega)
  have hge : ¬i < before keys n := fun hlt => by
    have := (getElem_lt_iff h hi).mpr hlt
    omega
  omega

lemma before_strictMono (h : keys.Pairwise (· ≤ ·)) (hall : ∀ n < N, n ∈ keys) {m n : ℕ}
    (hmn : m < n) (hn : n ≤ N) : before keys m < before keys n := by
  induction n with
  | zero => omega
  | succ n ih =>
      have hstep := before_lt_succ h (hall n (by omega))
      rcases Nat.lt_succ_iff_lt_or_eq.mp hmn with hlt | rfl
      · exact (ih hlt (by omega)).trans hstep
      · exact hstep

lemma change_iff (h : keys.Pairwise (· ≤ ·)) (hall : ∀ n < N, n ∈ keys) (hlt : ∀ k ∈ keys, k < N)
    {i : ℕ} :
    (i < keys.length ∧ 0 < i ∧ keys.getD (i - 1) 0 ≠ keys.getD i 0) ↔
      ∃ n, 1 ≤ n ∧ n < N ∧ before keys n = i := by
  constructor
  · rintro ⟨hi, hpos, hne⟩
    have hi' : i - 1 < keys.length := by omega
    rw [List.getD_eq_getElem _ _ hi, List.getD_eq_getElem _ _ hi'] at hne
    have hle : keys[i - 1] ≤ keys[i] :=
      List.pairwise_iff_getElem.mp h (i - 1) i hi' hi (by omega)
    have hprev : i - 1 < before keys keys[i] := (getElem_lt_iff h hi').mp (by omega)
    have hself : ¬i < before keys keys[i] := fun hlt =>
      absurd ((getElem_lt_iff h hi).mpr hlt) (lt_irrefl _)
    exact ⟨keys[i], by omega, hlt _ (List.getElem_mem hi), by omega⟩
  · rintro ⟨n, hn, hnN, rfl⟩
    have hpos : before keys 0 < before keys n := before_strictMono h hall (by omega) hnN.le
    rw [before_zero] at hpos
    have hlen := before_strictMono h hall (Nat.lt_add_one n) hnN
    have hle : before keys (n + 1) ≤ keys.length := before_le _
    have hi : before keys n < keys.length := by omega
    have hi' : before keys n - 1 < keys.length := by omega
    have hprev : keys[before keys n - 1] < n := (getElem_lt_iff h hi').mpr (by omega)
    have hself : ¬keys[before keys n] < n := fun hlt =>
      absurd ((getElem_lt_iff h hi).mp hlt) (lt_irrefl _)
    refine ⟨hi, by omega, ?_⟩
    rw [List.getD_eq_getElem _ _ hi, List.getD_eq_getElem _ _ hi']
    omega

/-- **The beginnings of the groups** of a sorted list with the keys `0, …, N - 1`. -/
theorem boundaries_eq (h : keys.Pairwise (· ≤ ·)) (hN : 0 < N) (hall : ∀ n < N, n ∈ keys)
    (hlt : ∀ k ∈ keys, k < N) : boundaries keys = (List.range (N + 1)).map (before keys) := by
  have hsorted : ((List.range' 1 (N - 1)).map (before keys)).Pairwise (· < ·) := by
    refine List.pairwise_map.mpr (List.Pairwise.imp_of_mem ?_ List.pairwise_lt_range')
    intro m n _ hn hmn
    have hn := List.mem_range'_1.mp hn
    exact before_strictMono h hall hmn (by omega)
  have hfilter : (List.range keys.length).filter
      (fun i => 0 < i ∧ keys.getD (i - 1) 0 ≠ keys.getD i 0)
        = (List.range' 1 (N - 1)).map (before keys) := by
    have hleft : ((List.range keys.length).filter
        (fun i => 0 < i ∧ keys.getD (i - 1) 0 ≠ keys.getD i 0)).Pairwise (· < ·) :=
      List.pairwise_lt_range.filter _
    refine hleft.eq_of_mem_iff hsorted fun i => ?_
    rw [List.mem_filter, List.mem_range, List.mem_map]
    simp only [decide_eq_true_eq]
    rw [change_iff h hall hlt]
    refine exists_congr fun n => ?_
    rw [List.mem_range'_1, ← and_assoc]
    refine and_congr_left fun _ => ?_
    omega
  have hrange : List.range (N + 1) = 0 :: List.range' 1 (N - 1) ++ [N] := by
    rw [List.range_succ, List.range_eq_range', show N = N - 1 + 1 by omega, List.range'_succ]
    rfl
  rw [boundaries, hfilter, hrange]
  simp [before_zero, before_all hlt]

/-- **A slice holds a group.** -/
theorem slice_eq {β : Type} {l : List (ℕ × β)} (h : (l.map Prod.fst).Pairwise (· ≤ ·)) (n : ℕ) :
    (l.drop (before (l.map Prod.fst) n)).take
        (before (l.map Prod.fst) (n + 1) - before (l.map Prod.fst) n)
      = l.filter fun p => p.1 = n := by
  have hmono : ∀ m, l.Pairwise fun x y => decide (y.1 < m) = true → decide (x.1 < m) = true := by
    intro m
    refine (List.pairwise_map.mp h).imp fun hxy hy => ?_
    simp only [decide_eq_true_eq] at hy ⊢
    omega
  have hbefore : ∀ m, before (l.map Prod.fst) m = l.countP fun p => p.1 < m := fun m => by
    rw [before, List.countP_map]
    rfl
  have hdrop : l.drop (before (l.map Prod.fst) n) = l.filter fun p => !decide (p.1 < n) := by
    rw [hbefore, filter_not_eq_drop (hmono n)]
  have hcount : before (l.map Prod.fst) (n + 1) - before (l.map Prod.fst) n
      = (l.filter fun p => !decide (p.1 < n)).countP fun p => p.1 < n + 1 := by
    have hsplit : l.countP (fun p => p.1 < n + 1)
        = l.countP (fun p => p.1 < n)
          + (l.filter fun p => !decide (p.1 < n)).countP fun p => p.1 < n + 1 := by
      rw [List.countP_eq_countP_filter_add l _ fun p => decide (p.1 < n), List.countP_filter]
      refine congrArg (· + _) (List.countP_congr fun p _ => ?_)
      simp only [Bool.and_eq_true, decide_eq_true_eq]
      omega
    rw [hbefore, hbefore]
    omega
  rw [hdrop, hcount, ← filter_eq_take ((hmono (n + 1)).filter _), List.filter_filter]
  refine List.filter_congr fun p _ => ?_
  by_cases hp : p.1 = n
  · simp [hp]
  · simp only [hp, decide_false, Bool.and_eq_false_imp, decide_eq_true_eq, Bool.not_eq_eq_eq_not,
      Bool.not_false]
    omega

lemma flatMap_filter_of_forall {α κ : Type} [LinearOrder κ] {key : α → κ} {ks : List κ} {l : List α}
    (hl : l.Pairwise fun a b => key a ≤ key b) (hks : ks.Pairwise (· < ·))
    (hmem : ∀ a ∈ l, key a ∈ ks) : ks.flatMap (fun k => l.filter (key · = k)) = l := by
  induction ks generalizing l with
  | nil =>
      rw [List.flatMap_nil,
        List.eq_nil_iff_forall_not_mem.mpr fun a ha => List.not_mem_nil (hmem a ha)]
  | cons k ks ih =>
      obtain ⟨hlt, hks⟩ := List.pairwise_cons.mp hks
      have hmono : l.Pairwise fun a b => decide (key b = k) = true → decide (key a = k) = true := by
        refine hl.imp_of_mem fun {a b} ha _ hab hb => ?_
        simp only [decide_eq_true_eq] at hb ⊢
        refine le_antisymm (hab.trans_eq hb) ?_
        rcases List.mem_cons.mp (hmem a ha) with heq | hin
        · exact heq.ge
        · exact (hlt _ hin).le
      have hrest := ih (hl.filter fun a => !decide (key a = k)) hks fun a ha => by
        obtain ⟨ha, hne⟩ := List.mem_filter.mp ha
        rcases List.mem_cons.mp (hmem a ha) with heq | hin
        · simp [heq] at hne
        · exact hin
      have hgroups : ks.flatMap
          (fun k' => (l.filter fun a => !decide (key a = k)).filter (key · = k'))
          = ks.flatMap fun k' => l.filter (key · = k') := by
        refine List.flatMap_congr fun k' hk' => ?_
        rw [List.filter_filter]
        refine List.filter_congr fun a _ => ?_
        by_cases ha : key a = k'
        · simp [ha, (hlt k' hk').ne']
        · simp [ha]
      rw [List.flatMap_cons, ← hgroups, hrest, filter_eq_take hmono, filter_not_eq_drop hmono,
        List.take_append_drop]

/-- **The groups of some keys**, one after the other, are the members with these keys. -/
theorem flatMap_filter {α κ : Type} [LinearOrder κ] {key : α → κ} {ks : List κ} {l : List α}
    (hl : l.Pairwise fun a b => key a ≤ key b) (hks : ks.Pairwise (· < ·)) :
    ks.flatMap (fun k => l.filter (key · = k)) = l.filter (key · ∈ ks) := by
  have h := flatMap_filter_of_forall (hl.filter (key · ∈ ks)) hks fun a ha => by
    simpa using (List.mem_filter.mp ha).2
  rw [← h]
  refine List.flatMap_congr fun k hk => ?_
  rw [List.filter_filter]
  refine List.filter_congr fun a _ => ?_
  by_cases ha : key a = k
  · simp [ha, hk]
  · simp [ha]

end Grouped
