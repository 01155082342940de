import Espreso.Lib.Formula
import Mathlib.Tactic

/-!
# Interpolation tables

`TableInterpolationEvaluator` keeps pairs of an argument and a value. `evaluate` looks up the cell
of every temperature, and `getEXPRTKForm` prints the table as a formula.

* `interpolant` — the continuous piecewise linear function of the table.
* **`evaluate_eq`** — the results of `evaluate`: the last value of the table in front of the first
  temperature below the table, and nothing behind it.
* **`read_getEXPRTKForm`** — the formula: the conditions of the cells never hold.
* **`rightTable_iff`** — when both are right.
-/

namespace Espreso.TableInterpolation

open Formula

/-! ## The code -/

/-- The inner loop: the value in the first cell that has the temperature strictly inside. -/
def cellValue (t : ℚ) : List (ℚ × ℚ) → Option ℚ
  | (a, va) :: (b, vb) :: table =>
    if a < t ∧ t < b then some (va + (vb - va) * (t - a) / (b - a))
    else cellValue t ((b, vb) :: table)
  | _ => none

/-- The outer loop from position `i` on. -/
def evaluateFrom (table : List (ℚ × ℚ)) (increment : ℕ) : ℕ → List ℚ → (ℕ → ℚ) → ℕ → ℚ
  | _, [], results => results
  | i, t :: tbegin, results =>
    if t < (table.headD (0, 0)).1 then
      Function.update results (i * increment) (table.headD (0, 0)).2
    else
      let results := (cellValue t table).elim results (Function.update results (i * increment))
      evaluateFrom table increment (i + 1) tbegin
        (Function.update results (i * increment) (table.getLastD (0, 0)).2)

def evaluate (table : List (ℚ × ℚ)) (increment : ℕ) (tbegin : List ℚ) (results : ℕ → ℚ) : ℕ → ℚ :=
  evaluateFrom table increment 0 tbegin results

/-- `if((TEMPERATURE<a), v, 0)` -/
def belowText (p : ℚ × ℚ) : List Token :=
  [.condition, .lparen, .lparen, .variable', .op .less, .number p.1, .rparen, .comma, .number p.2,
    .comma, .number 0, .rparen]

/-- `if((TEMPERATURE<=a and b<TEMPERATURE), va+d*(TEMPERATURE - a/e), 0)` -/
def cellText (c : (ℚ × ℚ) × (ℚ × ℚ)) : List Token :=
  [.condition, .lparen, .lparen, .variable', .op .lessEq, .number c.1.1, .op .and, .number c.2.1,
    .op .less, .variable', .rparen, .comma, .number c.1.2, .op .add, .number (c.2.2 - c.1.2),
    .op .mul, .lparen, .variable', .op .sub, .number c.1.1, .op .div, .number (c.2.1 - c.1.1),
    .rparen, .comma, .number 0, .rparen]

/-- `if((b<TEMPERATURE), v, 0)` -/
def aboveText (p : ℚ × ℚ) : List Token :=
  [.condition, .lparen, .lparen, .number p.1, .op .less, .variable', .rparen, .comma, .number p.2,
    .comma, .number 0, .rparen]

def getEXPRTKForm (table : List (ℚ × ℚ)) : List Token :=
  belowText (table.headD (0, 0)) ++ [.op .add]
    ++ (table.zip table.tail).flatMap (fun c => cellText c ++ [.op .add])
    ++ aboveText (table.getLastD (0, 0))

/-! ## What a table is for -/

def interpolant : List (ℚ × ℚ) → ℚ → ℚ
  | [], _ => 0
  | [p], _ => p.2
  | p :: q :: table, t =>
    if t ≤ p.1 then p.2
    else if t < q.1 then p.2 + (q.2 - p.2) * (t - p.1) / (q.1 - p.1)
    else interpolant (q :: table) t

lemma interpolant_first (p : ℚ × ℚ) (table : List (ℚ × ℚ)) {t : ℚ} (ht : t ≤ p.1) :
    interpolant (p :: table) t = p.2 := by
  cases table with
  | nil => rfl
  | cons q table => rw [interpolant, if_pos ht]

lemma interpolant_later {p q : ℚ × ℚ} (hpq : p.1 < q.1) (table : List (ℚ × ℚ)) {t : ℚ}
    (ht : q.1 ≤ t) : interpolant (p :: q :: table) t = interpolant (q :: table) t := by
  rw [interpolant, if_neg (not_le.mpr (hpq.trans_le ht)), if_neg (not_lt.mpr ht)]

lemma first_le {q : ℚ × ℚ} {table : List (ℚ × ℚ)} (h : (q :: table).Pairwise (·.1 < ·.1))
    {p : ℚ × ℚ} (hp : p ∈ q :: table) : q.1 ≤ p.1 := by
  rcases List.mem_cons.mp hp with rfl | hp
  · exact le_rfl
  · exact ((List.pairwise_cons.mp h).1 p hp).le

lemma interpolant_of_mem {table : List (ℚ × ℚ)} (h : table.Pairwise (·.1 < ·.1)) {p : ℚ × ℚ}
    (hp : p ∈ table) : interpolant table p.1 = p.2 := by
  induction table with
  | nil => exact absurd hp List.not_mem_nil
  | cons q table ih =>
      rcases List.mem_cons.mp hp with rfl | hp
      · exact interpolant_first p table le_rfl
      · cases table with
        | nil => exact absurd hp List.not_mem_nil
        | cons q' table =>
            obtain ⟨hq, hrest⟩ := List.pairwise_cons.mp h
            rw [interpolant_later (hq q' List.mem_cons_self) table (first_le hrest hp)]
            exact ih hrest hp

lemma interpolant_of_zero {table : List (ℚ × ℚ)} (h : ∀ p ∈ table, p.2 = 0) (t : ℚ) :
    interpolant table t = 0 := by
  induction table with
  | nil => rfl
  | cons p table ih =>
      have hp := h p List.mem_cons_self
      cases table with
      | nil => exact hp
      | cons q table =>
          have hq := h q (List.mem_cons_of_mem _ List.mem_cons_self)
          rw [interpolant, ih fun p' hp' => h p' (List.mem_cons_of_mem _ hp'), hp, hq]
          simp

/-! ## The results of `evaluate` -/

section Evaluate

variable {table : List (ℚ × ℚ)} {increment : ℕ}

lemma evaluateFrom_of_lt (hinc : 1 ≤ increment) {tbegin : List ℚ} {i j : ℕ} (hj : j < i)
    (results : ℕ → ℚ) :
    evaluateFrom table increment i tbegin results (j * increment) = results (j * increment) := by
  induction tbegin generalizing i results with
  | nil => rfl
  | cons t tbegin ih =>
      have hne : j * increment ≠ i * increment :=
        ne_of_lt (Nat.mul_lt_mul_of_pos_right hj (by omega))
      rw [evaluateFrom]
      split_ifs
      · exact Function.update_of_ne hne _ _
      · rw [ih (by omega), Function.update_of_ne hne]
        cases cellValue t table with
        | none => rfl
        | some value => exact Function.update_of_ne hne _ _

lemma evaluateFrom_eq (hinc : 1 ≤ increment) {tbegin : List ℚ} {i k : ℕ} (results : ℕ → ℚ)
    (hk : k < tbegin.length) :
    evaluateFrom table increment i tbegin results ((i + k) * increment) =
      if ∃ j < k, tbegin.getD j 0 < (table.headD (0, 0)).1 then results ((i + k) * increment)
      else if tbegin.getD k 0 < (table.headD (0, 0)).1 then (table.headD (0, 0)).2
      else (table.getLastD (0, 0)).2 := by
  induction tbegin generalizing i k results with
  | nil => exact absurd hk (Nat.not_lt_zero k)
  | cons t tbegin ih =>
      rw [evaluateFrom]
      by_cases ht : t < (table.headD (0, 0)).1
      · rw [if_pos ht]
        cases k with
        | zero =>
            rw [if_neg (by simp), Nat.add_zero, Function.update_self]
            exact (if_pos ht).symm
        | succ k =>
            have hne : (i + (k + 1)) * increment ≠ i * increment :=
              ne_of_gt (Nat.mul_lt_mul_of_pos_right (by omega) (by omega))
            rw [if_pos ⟨0, Nat.succ_pos k, ht⟩, Function.update_of_ne hne]
      · rw [if_neg ht]
        cases k with
        | zero =>
            rw [show i + 0 = i from rfl, evaluateFrom_of_lt hinc (Nat.lt_add_one i),
              Function.update_self, if_neg (by simp)]
            exact (if_neg ht).symm
        | succ k =>
            have hne : (i + 1 + k) * increment ≠ i * increment :=
              ne_of_gt (Nat.mul_lt_mul_of_pos_right (by omega) (by omega))
            have hkeep : ∀ value, Function.update
                ((cellValue t table).elim results (Function.update results (i * increment)))
                (i * increment) value ((i + 1 + k) * increment)
                = results ((i + 1 + k) * increment) := fun value => by
              rw [Function.update_of_ne hne]
              cases cellValue t table with
              | none => rfl
              | some value => exact Function.update_of_ne hne _ _
            have hex : (∃ j < k + 1, (t :: tbegin).getD j 0 < (table.headD (0, 0)).1)
                ↔ ∃ j < k, tbegin.getD j 0 < (table.headD (0, 0)).1 := by
              constructor
              · rintro ⟨j, hj, hlt⟩
                cases j with
                | zero => exact absurd hlt ht
                | succ j => exact ⟨j, Nat.lt_of_succ_lt_succ hj, hlt⟩
              · rintro ⟨j, hj, hlt⟩
                exact ⟨j + 1, Nat.succ_lt_succ hj, hlt⟩
            rw [← Nat.add_assoc, Nat.add_right_comm,
              ih _ (Nat.lt_of_succ_lt_succ hk), hkeep, List.getD_cons_succ]
            exact if_congr hex.symm rfl rfl

/-- **The results.**  Behind a temperature below the table nothing is written; the first such
temperature gets the first value, and all before it get the last value. -/
theorem evaluate_eq (hinc : 1 ≤ increment) {tbegin : List ℚ} {i : ℕ} (results : ℕ → ℚ)
    (hi : i < tbegin.length) :
    evaluate table increment tbegin results (i * increment) =
      if ∃ j < i, tbegin.getD j 0 < (table.headD (0, 0)).1 then results (i * increment)
      else if tbegin.getD i 0 < (table.headD (0, 0)).1 then (table.headD (0, 0)).2
      else (table.getLastD (0, 0)).2 := by
  have heq : evaluateFrom table increment 0 tbegin results ((0 + i) * increment) = _ :=
    evaluateFrom_eq hinc results hi
  rwa [Nat.zero_add] at heq

end Evaluate

/-! ## The formula -/

/-- The expression of `belowText`. -/
def belowExpr (p : ℚ × ℚ) : Expr :=
  .cond (.binary .less .variable' (.number p.1)) (.number p.2) (.number 0)

/-- The expression of `cellText`; the division binds closer than the subtraction. -/
def cellExpr (c : (ℚ × ℚ) × (ℚ × ℚ)) : Expr :=
  .cond (.binary .and (.binary .lessEq .variable' (.number c.1.1))
      (.binary .less (.number c.2.1) .variable'))
    (.binary .add (.number c.1.2) (.binary .mul (.number (c.2.2 - c.1.2))
      (.binary .sub .variable' (.binary .div (.number c.1.1) (.number (c.2.1 - c.1.1))))))
    (.number 0)

/-- The expression of `aboveText`. -/
def aboveExpr (p : ℚ × ℚ) : Expr :=
  .cond (.binary .less (.number p.1) .variable') (.number p.2) (.number 0)

lemma isAtom_belowText (p : ℚ × ℚ) : IsAtom 30 (belowText p) (belowExpr p) := fun _ _ => rfl

lemma isAtom_cellText (c : (ℚ × ℚ) × (ℚ × ℚ)) : IsAtom 30 (cellText c) (cellExpr c) :=
  fun _ _ => rfl

lemma isAtom_aboveText (p : ℚ × ℚ) : IsAtom 30 (aboveText p) (aboveExpr p) := fun _ _ => rfl

lemma eval_cellExpr {c : (ℚ × ℚ) × (ℚ × ℚ)} (hc : c.1.1 < c.2.1) (T : ℚ) :
    (cellExpr c).eval T = 0 := by
  have hnot : ¬(T ≤ c.1.1 ∧ c.2.1 < T) := fun h => absurd (h.2.trans_le h.1) hc.not_gt
  have hcondition : (Expr.binary .and (.binary .lessEq .variable' (.number c.1.1))
      (.binary .less (.number c.2.1) .variable')).eval T = 0 := by
    simp only [Expr.eval, Op.eval]
    refine if_neg fun h => hnot ⟨?_, ?_⟩
    · exact not_not.mp fun hle => h.1 (if_neg hle)
    · exact not_not.mp fun hlt => h.2 (if_neg hlt)
  rw [cellExpr, Expr.eval, if_neg (not_not.mpr hcondition)]
  rfl

lemma eval_belowExpr (p : ℚ × ℚ) (T : ℚ) :
    (belowExpr p).eval T = if T < p.1 then p.2 else 0 := by
  by_cases h : T < p.1
  · simp [belowExpr, Expr.eval, Op.eval, h]
  · simp [belowExpr, Expr.eval, Op.eval, h]

lemma eval_aboveExpr (p : ℚ × ℚ) (T : ℚ) :
    (aboveExpr p).eval T = if p.1 < T then p.2 else 0 := by
  by_cases h : p.1 < T
  · simp [aboveExpr, Expr.eval, Op.eval, h]
  · simp [aboveExpr, Expr.eval, Op.eval, h]

def terms (table : List (ℚ × ℚ)) : List (List Token × Expr) :=
  (table.zip table.tail).map (fun c => (cellText c, cellExpr c))
    ++ [(aboveText (table.getLastD (0, 0)), aboveExpr (table.getLastD (0, 0)))]

lemma getEXPRTKForm_eq (table : List (ℚ × ℚ)) :
    getEXPRTKForm table
      = sumText (belowText (table.headD (0, 0))) ((terms table).map Prod.fst) := by
  have hcells : ∀ (cells : List ((ℚ × ℚ) × (ℚ × ℚ))) (last : List Token),
      Token.op .add :: (cells.flatMap (fun c => cellText c ++ [.op .add]) ++ last)
        = (cells.flatMap fun c => .op .add :: cellText c) ++ .op .add :: last := by
    intro cells last
    induction cells with
    | nil => rfl
    | cons c cells ih =>
        rw [List.flatMap_cons, List.flatMap_cons, List.append_assoc, List.append_assoc,
          List.singleton_append, ih]
        rfl
  rw [getEXPRTKForm, sumText, terms, List.append_assoc, List.append_assoc, List.singleton_append,
    hcells, List.map_append, List.map_map, List.flatMap_append, List.flatMap_map]
  simp

lemma lt_of_mem_cells {table : List (ℚ × ℚ)} (h : table.Pairwise (·.1 < ·.1))
    {c : (ℚ × ℚ) × (ℚ × ℚ)} (hc : c ∈ table.zip table.tail) : c.1.1 < c.2.1 := by
  induction table with
  | nil => exact absurd hc List.not_mem_nil
  | cons p table ih =>
      obtain ⟨hp, hrest⟩ := List.pairwise_cons.mp h
      cases table with
      | nil => exact absurd hc (by simp)
      | cons q table =>
          rw [List.tail_cons, List.zip_cons_cons] at hc
          rcases List.mem_cons.mp hc with rfl | hc
          · exact hp q List.mem_cons_self
          · exact ih hrest hc

/-- **The formula** gives the first value below the table, the last value above it, and 0 on the
table. -/
theorem read_getEXPRTKForm {table : List (ℚ × ℚ)} (h : table.Pairwise (·.1 < ·.1)) :
    Denotes (getEXPRTKForm table) fun T =>
      (if T < (table.headD (0, 0)).1 then (table.headD (0, 0)).2 else 0)
        + if (table.getLastD (0, 0)).1 < T then (table.getLastD (0, 0)).2 else 0 := by
  have hatoms : ∀ t ∈ terms table, IsAtom 30 t.1 t.2 := by
    rintro t ht
    rcases List.mem_append.mp ht with ht | ht
    · obtain ⟨c, -, rfl⟩ := List.mem_map.mp ht
      exact isAtom_cellText c
    · obtain rfl := List.mem_singleton.mp ht
      exact isAtom_aboveText _
  have hlength : 30 + (terms table).length
      ≤ 8 * (sumText (belowText (table.headD (0, 0))) ((terms table).map Prod.fst)).length := by
    have hsum := length_sumText (belowText (table.headD (0, 0))) ((terms table).map Prod.fst)
    have hfirst : (belowText (table.headD (0, 0))).length = 12 := rfl
    rw [List.length_map] at hsum
    omega
  refine ⟨_, (congrArg read (getEXPRTKForm_eq table)).trans
    (read_sum (isAtom_belowText _) hatoms hlength), fun T => ?_⟩
  have hcells : (((table.zip table.tail).map fun c => (cellText c, cellExpr c)).map
      (Expr.eval T ∘ Prod.snd)).sum = 0 := by
    rw [List.map_map]
    refine List.sum_eq_zero fun x hx => ?_
    obtain ⟨c, hc, rfl⟩ := List.mem_map.mp hx
    exact eval_cellExpr (lt_of_mem_cells h hc) T
  rw [eval_foldl_add, List.map_map, terms, List.map_append, List.sum_append, hcells, zero_add,
    List.map_singleton, List.sum_singleton, Function.comp_apply, eval_belowExpr, eval_aboveExpr]

/-! ## The result -/

/-- Every temperature gets its interpolated value, and the text denotes the function. -/
structure RightTable (table : List (ℚ × ℚ)) (increment : ℕ) (tbegin : List ℚ) (results : ℕ → ℚ) :
    Prop where
  values : ∀ i < tbegin.length, evaluate table increment tbegin results (i * increment)
    = interpolant table (tbegin.getD i 0)
  text : Denotes (getEXPRTKForm table) (interpolant table)

lemma headD_mem {table : List (ℚ × ℚ)} (hne : table ≠ []) : table.headD (0, 0) ∈ table := by
  cases table with
  | nil => exact absurd rfl hne
  | cons p table => exact List.mem_cons_self

lemma getLastD_mem {table : List (ℚ × ℚ)} (hne : table ≠ []) : table.getLastD (0, 0) ∈ table := by
  rw [List.getLastD_eq_getLast?, List.getLast?_eq_some_getLast hne]
  exact List.getLast_mem hne

lemma headD_le {table : List (ℚ × ℚ)} (h : table.Pairwise (·.1 < ·.1)) {p : ℚ × ℚ}
    (hp : p ∈ table) : (table.headD (0, 0)).1 ≤ p.1 := by
  cases table with
  | nil => exact absurd hp List.not_mem_nil
  | cons q table => exact first_le h hp

lemma le_getLastD {table : List (ℚ × ℚ)} (h : table.Pairwise (·.1 < ·.1)) {p : ℚ × ℚ}
    (hp : p ∈ table) : p.1 ≤ (table.getLastD (0, 0)).1 := by
  rcases List.eq_nil_or_concat table with rfl | ⟨init, last, rfl⟩
  · exact absurd hp List.not_mem_nil
  · rw [List.concat_eq_append] at h hp
    have hlast : ((init.concat last).getLastD (0, 0)) = last := by simp
    rw [hlast]
    rcases List.mem_append.mp hp with hp | hp
    · exact ((List.pairwise_append.mp h).2.2 p hp last (List.mem_singleton_self _)).le
    · rw [List.mem_singleton.mp hp]

/-- **The text is right** exactly if all values of the table are 0. -/
theorem denotes_getEXPRTKForm_iff {table : List (ℚ × ℚ)} (hne : table ≠ [])
    (h : table.Pairwise (·.1 < ·.1)) :
    Denotes (getEXPRTKForm table) (interpolant table) ↔ ∀ p ∈ table, p.2 = 0 := by
  have hfront := headD_mem hne
  have hback := getLastD_mem hne
  obtain ⟨e, he, heval⟩ := read_getEXPRTKForm h
  beta_reduce at heval
  constructor
  · rintro ⟨e', he', heval'⟩ p hp
    obtain rfl : e = e' := Option.some_inj.mp (he.symm.trans he')
    have hle : (table.headD (0, 0)).1 ≤ p.1 ∧ p.1 ≤ (table.getLastD (0, 0)).1 :=
      ⟨headD_le h hp, le_getLastD h hp⟩
    have hzero := (heval' p.1).symm.trans (heval p.1)
    rwa [interpolant_of_mem h hp, if_neg (not_lt.mpr hle.1), if_neg (not_lt.mpr hle.2),
      add_zero] at hzero
  · intro hzero
    refine ⟨e, he, fun T => (heval T).trans ?_⟩
    rw [interpolant_of_zero hzero, hzero _ hfront, hzero _ hback, ite_self, ite_self, add_zero]

/-- **The evaluator is right** exactly if all values of the table are 0 and the results behind a
temperature below the table were 0 before. -/
theorem rightTable_iff (table : List (ℚ × ℚ)) (increment : ℕ) (tbegin : List ℚ) (results : ℕ → ℚ)
    (hne : table ≠ []) (h : table.Pairwise (·.1 < ·.1)) (hinc : 1 ≤ increment) :
    RightTable table increment tbegin results ↔
      (∀ p ∈ table, p.2 = 0)
        ∧ ∀ i j, i < j → j < tbegin.length → tbegin.getD i 0 < (table.headD (0, 0)).1 →
          results (j * increment) = 0 := by
  constructor
  · rintro ⟨hvalues, htext⟩
    have hzero := (denotes_getEXPRTKForm_iff hne h).mp htext
    refine ⟨hzero, fun i j hij hj hlt => ?_⟩
    have hj' := hvalues j hj
    rwa [evaluate_eq hinc results hj, if_pos ⟨i, hij, hlt⟩, interpolant_of_zero hzero] at hj'
  · rintro ⟨hzero, hresults⟩
    refine ⟨fun i hi => ?_, (denotes_getEXPRTKForm_iff hne h).mpr hzero⟩
    rw [evaluate_eq hinc results hi, interpolant_of_zero hzero, hzero _ (headD_mem hne),
      hzero _ (getLastD_mem hne), ite_self]
    refine ite_eq_right_iff.mpr ?_
    rintro ⟨j, hj, hlt⟩
    exact hresults j i hj hi hlt

/-- A table of zeros, and temperatures in it and above it. -/
theorem rightTable_zeros : RightTable [(0, 0), (1, 0)] 1 [1 / 2, 2] fun _ => 5 :=
  (rightTable_iff [(0, 0), (1, 0)] 1 [1 / 2, 2] (fun _ => 5) (by decide) (by decide +kernel)
    le_rfl).mpr ⟨by decide, fun i j hij hj hlt => by
      obtain rfl : i = 0 := by
        simp only [List.length_cons, List.length_nil] at hj
        omega
      exact absurd hlt (by norm_num)⟩

/-- **A temperature inside a cell** gets the last value of the table. -/
theorem evaluate_ramp : evaluate [(0, 0), (1, 1)] 1 [1 / 2] (fun _ => 5) 0 = 1
    ∧ interpolant [(0, 0), (1, 1)] (1 / 2) = 1 / 2
    ∧ ¬∀ (table : List (ℚ × ℚ)) (increment : ℕ) (tbegin : List ℚ) (results : ℕ → ℚ), table ≠ [] →
      table.Pairwise (·.1 < ·.1) → 1 ≤ increment →
      RightTable table increment tbegin results := by
  have hcode : evaluate [(0, 0), (1, 1)] 1 [1 / 2] (fun _ => 5) 0 = 1 := by decide +kernel
  have hvalue : interpolant [(0, 0), (1, 1)] (1 / 2) = 1 / 2 := by decide +kernel
  refine ⟨hcode, hvalue, fun hall => ?_⟩
  have hright := (hall [(0, 0), (1, 1)] 1 [1 / 2] (fun _ => 5) (by decide) (by decide +kernel)
    le_rfl).values 0 (by decide)
  exact absurd (hcode.symm.trans (hright.trans hvalue)) (by norm_num)

end Espreso.TableInterpolation
