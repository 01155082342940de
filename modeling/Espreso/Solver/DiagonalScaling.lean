import Espreso.Lib.KernelBasis
import Espreso.Solver.PermutedMatrix

/-!
# Diagonal scaling

Before its kernel is searched for, every entry of a symmetric matrix is divided by the square root
of the product of two diagonal entries. The code takes them from the first positions of the rows,
while the values are overwritten.

* `SparseMatrix.scaled` — the entries, divided by the original values.
* **`SparseMatrix.Upper.diagonalScaling_eq_some_iff`** — when no entry is divided by zero, and
  that the overwritten values do no harm.
* **`SparseMatrix.scalable_iff`** — for a semidefinite matrix: no first value is missing or zero.
-/

namespace Espreso

namespace SparseMatrix

/-- `CSR_V_values[CSR_I_row_indices[i] - offset]`: the first value that is stored in row `i` or
behind it. -/
def firstValue (csr : List Row) (i : ℕ) : Option ℚ := (csr.drop i).flatten.head?.map Prod.snd

/-- `CSR_V_values[j - offset] /= sqrt(di * dj)` for the entry at `k` of row `i`. -/
def scaleEntry (sqrt : ℚ → ℚ) (i : ℕ) (di : ℚ) (csr : List Row) (k : ℕ) : Option (List Row) := do
  let row := csr.getD i []
  let e ← row[k]?
  let dj ← firstValue csr e.1
  if sqrt (di * dj) = 0 then none
  else some (csr.set i (row.set k (e.1, e.2 / sqrt (di * dj))))

def scaleRow (sqrt : ℚ → ℚ) (csr : List Row) (i : ℕ) : Option (List Row) := do
  let di ← firstValue csr i
  (List.range (csr.getD i []).length).foldlM (scaleEntry sqrt i di) csr

variable (sqrt : ℚ → ℚ) (A : SparseMatrix)

/-- The scaling of `K_modif`. -/
def diagonalScaling : Option SparseMatrix :=
  ((List.range A.rows).foldlM (scaleRow sqrt) A.csr).map fun csr => { A with csr := csr }

def leadingValue (i : ℕ) : ℚ := (firstValue A.csr i).getD 0

/-- An entry of row `i`, scaled by the original values. -/
def scaledEntry (i : ℕ) (e : ℕ × ℚ) : ℕ × ℚ := (e.1, e.2 / sqrt (A.leadingValue i * A.leadingValue e.1))

def scaled : SparseMatrix where
  cols := A.cols
  csr := (List.range A.rows).map fun i => (A.rowAt i).map (A.scaledEntry sqrt i)

/-- No value is missing where row `i` is scaled, and no entry is divided by zero. -/
def RowScalable (i : ℕ) : Prop :=
  ∃ di, firstValue A.csr i = some di ∧
    ∀ e ∈ A.rowAt i, ∃ dj, firstValue A.csr e.1 = some dj ∧ sqrt (di * dj) ≠ 0

/-! ## First values -/

variable {sqrt A} {n : ℕ}

lemma firstValue_congr {csr csr' : List Row} {i : ℕ} (h : csr.drop i = csr'.drop i) :
    firstValue csr i = firstValue csr' i := by
  rw [firstValue, firstValue, h]

lemma firstValue_of_cons {csr : List Row} {i : ℕ} {e : ℕ × ℚ} {es : Row}
    (h : csr.getD i [] = e :: es) : firstValue csr i = some e.2 := by
  have hi : i < csr.length := by
    by_contra hge
    rw [List.getD_eq_default _ _ (not_lt.mp hge)] at h
    cases h
  rw [List.getD_eq_getElem _ _ hi] at h
  rw [firstValue, List.drop_eq_getElem_cons hi, h]
  rfl

lemma exists_of_firstValue {csr : List Row} {i : ℕ} {v : ℚ} (h : firstValue csr i = some v) :
    ∃ r, i ≤ r ∧ firstValue csr r = some v ∧ ∃ e es, csr.getD r [] = e :: es ∧ e.2 = v := by
  obtain ⟨l, hl⟩ : ∃ l, l = csr.drop i := ⟨_, rfl⟩
  induction l generalizing i with
  | nil =>
      rw [firstValue, ← hl] at h
      cases h
  | cons row rest ih =>
      have hi : i < csr.length := by
        by_contra hge
        rw [List.drop_eq_nil_of_le (not_lt.mp hge)] at hl
        cases hl
      rw [List.drop_eq_getElem_cons hi, List.cons.injEq] at hl
      have hget : csr.getD i [] = row := by rw [List.getD_eq_getElem _ _ hi, hl.1]
      cases row with
      | nil =>
          have hnext : firstValue csr (i + 1) = some v := by
            rw [firstValue, List.drop_eq_getElem_cons hi, ← hl.1] at h
            exact h
          obtain ⟨r, hr, hfirst⟩ := ih hnext hl.2
          exact ⟨r, (Nat.le_succ i).trans hr, hfirst⟩
      | cons e es =>
          have hfirst := firstValue_of_cons hget
          exact ⟨i, le_rfl, h, e, es, hget, Option.some.inj (hfirst.symm.trans h)⟩

lemma Upper.rowAt_tail (hA : A.Upper n) (hasc : A.Ascending) {i : ℕ} {pre post : Row} {e : ℕ × ℚ}
    (hrow : A.rowAt i = pre ++ e :: post) : pre = [] ∨ i < e.1 := by
  cases pre with
  | nil => exact Or.inl rfl
  | cons e₀ pre =>
      have hle := hA.upper i e₀ (hrow ▸ List.mem_cons_self)
      have hlt : e₀.1 < e.1 := by
        have hpair := hasc.rowAt i
        rw [hrow, List.cons_append, List.pairwise_cons] at hpair
        exact hpair.1 e (List.mem_append_right _ List.mem_cons_self)
      exact Or.inr (lt_of_le_of_lt hle hlt)

/-! ## The loop -/

lemma Upper.foldlM_scaleEntry (sqrt : ℚ → ℚ) (hA : A.Upper n) (hasc : A.Ascending) {i : ℕ}
    {csr : List Row} (csr' : List Row) (hi : i < csr.length)
    (hdrop : csr.drop (i + 1) = A.csr.drop (i + 1)) {di : ℚ} (hdi : A.leadingValue i = di)
    {post : Row} : ∀ pre : Row, A.rowAt i = pre ++ post →
      ((List.range' pre.length post.length).foldlM (scaleEntry sqrt i di)
          (csr.set i (pre.map (A.scaledEntry sqrt i) ++ post)) = some csr' ↔
        csr' = csr.set i ((A.rowAt i).map (A.scaledEntry sqrt i)) ∧
          ∀ e ∈ post, ∃ dj, firstValue A.csr e.1 = some dj ∧ sqrt (di * dj) ≠ 0) := by
  induction post with
  | nil =>
      intro pre hrow
      rw [List.append_nil] at hrow
      rw [hrow, List.append_nil]
      change some _ = some _ ↔ _
      rw [Option.some.injEq, eq_comm]
      exact (and_iff_left fun e he => absurd he List.not_mem_nil).symm
  | cons e post ih =>
      intro pre hrow
      have hget : ∀ row : Row, (csr.set i row).getD i [] = row := fun row => by
        rw [List.getD_eq_getElem _ _ (by rwa [List.length_set]), List.getElem_set_self]
      have hbehind : ∀ (row : Row) (r : ℕ), i < r →
          firstValue (csr.set i row) r = firstValue A.csr r := by
        intro row r hr
        refine firstValue_congr ?_
        rw [List.drop_set_of_lt hr, ← Nat.add_sub_of_le (Nat.succ_le_of_lt hr), ← List.drop_drop,
          ← List.drop_drop, hdrop]
      have hfirst : firstValue (csr.set i (pre.map (A.scaledEntry sqrt i) ++ e :: post)) e.1
          = firstValue A.csr e.1 := by
        rcases hA.rowAt_tail hasc hrow with rfl | hlt
        · rcases Nat.eq_or_lt_of_le (hA.upper i e (hrow ▸ List.mem_cons_self)) with heq | hlt
          · rw [← heq]
            exact (firstValue_of_cons (hget _)).trans (firstValue_of_cons hrow).symm
          · exact hbehind _ _ hlt
        · exact hbehind _ _ hlt
      have hat : (pre.map (A.scaledEntry sqrt i) ++ e :: post)[pre.length]? = some e := by
        rw [List.getElem?_append_right (List.length_map _).le, List.length_map, Nat.sub_self,
          List.getElem?_cons_zero]
      have hset : ∀ e', (pre.map (A.scaledEntry sqrt i) ++ e :: post).set pre.length e'
          = pre.map (A.scaledEntry sqrt i) ++ e' :: post := by
        intro e'
        rw [List.set_append_right _ _ (List.length_map _).le, List.length_map, Nat.sub_self,
          List.set_cons_zero]
      have hstep : scaleEntry sqrt i di (csr.set i (pre.map (A.scaledEntry sqrt i) ++ e :: post))
          pre.length = (firstValue A.csr e.1).bind fun dj => if sqrt (di * dj) = 0 then none
            else some (csr.set i (pre.map (A.scaledEntry sqrt i) ++
              (e.1, e.2 / sqrt (di * dj)) :: post)) := by
        rw [scaleEntry, hget, hat]
        simp only [Option.bind_eq_bind, Option.bind_some, hfirst, hset, List.set_set]
      rw [List.length_cons, List.range'_succ, List.foldlM_cons, hstep, List.forall_mem_cons,
        Option.bind_eq_bind]
      cases hdj : firstValue A.csr e.1 with
      | none =>
          rw [Option.bind_none, Option.bind_none]
          constructor
          · intro h
            cases h
          · rintro ⟨-, ⟨dj, h, -⟩, -⟩
            cases h
      | some dj =>
          rw [Option.bind_some]
          by_cases hzero : sqrt (di * dj) = 0
          · rw [if_pos hzero, Option.bind_none]
            constructor
            · intro h
              cases h
            · rintro ⟨-, ⟨dj', h, hne⟩, -⟩
              cases h
              exact absurd hzero hne
          · have hentry : (e.1, e.2 / sqrt (di * dj)) = A.scaledEntry sqrt i e := by
              rw [scaledEntry, hdi, leadingValue, hdj, Option.getD_some]
            have hnext := ih (pre ++ [e]) (by rw [hrow, List.append_assoc]; rfl)
            rw [List.length_append, List.map_append, List.append_assoc] at hnext
            rw [if_neg hzero, Option.bind_some, hentry]
            refine hnext.trans (and_congr_right fun _ => ?_)
            exact (and_iff_right ⟨dj, rfl, hzero⟩).symm

lemma Upper.scaleRow_eq_some_iff (sqrt : ℚ → ℚ) (hA : A.Upper n) (hasc : A.Ascending)
    (done csr' : List Row) (hlt : done.length < A.csr.length) :
    scaleRow sqrt (done ++ A.csr.drop done.length) done.length = some csr' ↔
      csr' = done ++ (A.rowAt done.length).map (A.scaledEntry sqrt done.length) ::
        A.csr.drop (done.length + 1) ∧ A.RowScalable sqrt done.length := by
  have hsplit : A.csr.drop done.length = A.rowAt done.length :: A.csr.drop (done.length + 1) := by
    rw [List.drop_eq_getElem_cons hlt, rowAt, List.getD_eq_getElem _ _ hlt]
  have hset : ∀ row : Row, (done ++ A.csr.drop done.length).set done.length row
      = done ++ row :: A.csr.drop (done.length + 1) := by
    intro row
    rw [List.set_append_right _ _ le_rfl, Nat.sub_self, hsplit, List.set_cons_zero]
  have hgetD : (done ++ A.csr.drop done.length).getD done.length [] = A.rowAt done.length := by
    rw [List.getD_append_right _ _ _ _ le_rfl, Nat.sub_self, hsplit]
    rfl
  have hdrop : (done ++ A.csr.drop done.length).drop done.length = A.csr.drop done.length :=
    List.drop_left
  have hbehind : (done ++ A.csr.drop done.length).drop (done.length + 1)
      = A.csr.drop (done.length + 1) := by
    rw [← List.drop_drop, hdrop, List.drop_drop]
  have hin : done.length < (done ++ A.csr.drop done.length).length := by
    rw [List.length_append, List.length_drop]
    omega
  have hself : (done ++ A.csr.drop done.length).set done.length (A.rowAt done.length)
      = done ++ A.csr.drop done.length := by
    rw [hset, ← hsplit]
  rw [scaleRow, Option.bind_eq_bind, Option.bind_eq_some_iff, firstValue_congr hdrop, hgetD,
    List.range_eq_range']
  have hrow : ∀ di, firstValue A.csr done.length = some di →
      ((List.range' 0 (A.rowAt done.length).length).foldlM (scaleEntry sqrt done.length di)
          (done ++ A.csr.drop done.length) = some csr' ↔
        csr' = done ++ (A.rowAt done.length).map (A.scaledEntry sqrt done.length) ::
          A.csr.drop (done.length + 1) ∧
        ∀ e ∈ A.rowAt done.length, ∃ dj, firstValue A.csr e.1 = some dj ∧ sqrt (di * dj) ≠ 0) := by
    intro di hdi
    have hdiagonal : A.leadingValue done.length = di := by rw [leadingValue, hdi, Option.getD_some]
    have hentries := hA.foldlM_scaleEntry sqrt hasc csr' hin hbehind hdiagonal []
      (List.nil_append (A.rowAt done.length)).symm
    rwa [List.map_nil, List.nil_append, hself, hset] at hentries
  constructor
  · rintro ⟨di, hdi, hfold⟩
    obtain ⟨heq, hall⟩ := (hrow di hdi).mp hfold
    exact ⟨heq, di, hdi, hall⟩
  · rintro ⟨heq, di, hdi, hall⟩
    exact ⟨di, hdi, (hrow di hdi).mpr ⟨heq, hall⟩⟩

lemma Upper.foldlM_scaleRow (sqrt : ℚ → ℚ) (hA : A.Upper n) (hasc : A.Ascending)
    (csr' : List Row) {k : ℕ} (hk : k ≤ A.csr.length) :
    (List.range k).foldlM (scaleRow sqrt) A.csr = some csr' ↔
      csr' = (List.range k).map (fun i => (A.rowAt i).map (A.scaledEntry sqrt i)) ++ A.csr.drop k ∧
        ∀ i < k, A.RowScalable sqrt i := by
  induction k generalizing csr' with
  | zero =>
      change some _ = some _ ↔ _
      rw [Option.some.injEq, eq_comm]
      exact (and_iff_left fun i hi => absurd hi (Nat.not_lt_zero i)).symm
  | succ k ih =>
      obtain ⟨done, hdone⟩ : ∃ done, done =
          (List.range k).map fun i => (A.rowAt i).map (A.scaledEntry sqrt i) := ⟨_, rfl⟩
      have hlength : done.length = k := by rw [hdone, List.length_map, List.length_range]
      have hrow := hA.scaleRow_eq_some_iff sqrt hasc done csr' (hlength.symm ▸ hk)
      rw [hlength] at hrow
      have hnext : (List.range (k + 1)).map (fun i => (A.rowAt i).map (A.scaledEntry sqrt i))
          ++ A.csr.drop (k + 1)
            = done ++ (A.rowAt k).map (A.scaledEntry sqrt k) :: A.csr.drop (k + 1) := by
        rw [List.range_succ, List.map_append, ← hdone, List.append_assoc]
        rfl
      rw [hnext, List.range_succ, List.foldlM_append, Option.bind_eq_bind, Option.bind_eq_some_iff]
      simp only [ih _ (Nat.le_of_succ_le hk), ← hdone, List.foldlM_cons, List.foldlM_nil,
        Option.pure_def, Option.bind_eq_bind, Option.bind_fun_some]
      constructor
      · rintro ⟨s, ⟨rfl, hall⟩, hs⟩
        obtain ⟨heq, hk'⟩ := hrow.mp hs
        exact ⟨heq, Nat.forall_lt_succ_right.mpr ⟨hall, hk'⟩⟩
      · rintro ⟨heq, hall⟩
        obtain ⟨hall, hk'⟩ := Nat.forall_lt_succ_right.mp hall
        exact ⟨_, ⟨rfl, hall⟩, hrow.mpr ⟨heq, hk'⟩⟩

/-- **The scaling** succeeds exactly if every row can be scaled, and divides by the original values.
-/
theorem Upper.diagonalScaling_eq_some_iff (hA : A.Upper n) (hasc : A.Ascending) {B : SparseMatrix} :
    A.diagonalScaling sqrt = some B ↔ B = A.scaled sqrt ∧ ∀ i < n, A.RowScalable sqrt i := by
  have hrun : ∀ csr', (List.range A.rows).foldlM (scaleRow sqrt) A.csr = some csr' ↔
      csr' = (A.scaled sqrt).csr ∧ ∀ i < n, A.RowScalable sqrt i := by
    intro csr'
    rw [scaled, hA.rows_eq]
    have hall := hA.foldlM_scaleRow sqrt hasc csr' (le_refl A.csr.length)
    rwa [List.drop_length, List.append_nil, show A.csr.length = A.rows from rfl, hA.rows_eq] at hall
  rw [diagonalScaling, Option.map_eq_some_iff]
  constructor
  · rintro ⟨csr', hcsr, rfl⟩
    obtain ⟨rfl, hall⟩ := (hrun csr').mp hcsr
    exact ⟨rfl, hall⟩
  · rintro ⟨rfl, hall⟩
    exact ⟨_, (hrun _).mpr ⟨rfl, hall⟩, rfl⟩

/-! ## Semidefinite matrices -/

/-- The symmetric matrix of which the upper triangle is stored. -/
def symMatrix (A : SparseMatrix) (n : ℕ) : Matrix (Fin n) (Fin n) ℚ :=
  Matrix.of fun i j => A.symEntry i j

lemma symMatrix_apply (A : SparseMatrix) (n : ℕ) (i j : Fin n) :
    A.symMatrix n i j = A.symEntry i j := rfl

lemma symMatrix_comm (A : SparseMatrix) (n : ℕ) (i j : Fin n) :
    A.symMatrix n i j = A.symMatrix n j i := A.symEntry_comm i j

lemma Ascending.entry_of_mem (hasc : A.Ascending) {i : ℕ} {e : ℕ × ℚ} (he : e ∈ A.rowAt i) :
    A.entry i e.1 = e.2 := by
  have hrow := hasc.rowAt i
  rw [entry]
  revert hrow he
  induction A.rowAt i with
  | nil => exact fun he => absurd he List.not_mem_nil
  | cons e₀ es ih =>
      intro he hrow
      obtain ⟨hlt, hrow⟩ := List.pairwise_cons.mp hrow
      rw [Row.entry_cons]
      rcases List.mem_cons.mp he with rfl | he
      · rw [if_pos rfl, Row.entry_of_lt hlt, add_zero]
      · rw [if_neg (hlt e he).ne, zero_add, ih he hrow]

lemma Upper.firstValue_nonneg (hA : A.Upper n) (hasc : A.Ascending)
    (hsemi : Semidefinite (A.symMatrix n)) {i : ℕ} {v : ℚ} (h : firstValue A.csr i = some v) :
    0 ≤ v := by
  obtain ⟨r, -, -, e, es, hrow, rfl⟩ := exists_of_firstValue h
  have hrowAt : A.rowAt r = e :: es := hrow
  have hmem : e ∈ A.rowAt r := hrowAt ▸ List.mem_cons_self
  have hle := hA.upper r e hmem
  have hlt : e.1 < n := hA.cols_eq ▸ hA.bounded.rowAt_below r e hmem
  have hentry : A.symEntry r e.1 = e.2 := (if_pos hle).trans (hasc.entry_of_mem hmem)
  rcases Nat.eq_or_lt_of_le hle with rfl | hlt'
  · exact hentry ▸ hsemi.diagonal_nonneg ⟨e.1, hlt⟩
  · -- the diagonal is not stored, and so the value is zero
    have hdiagonal : A.symEntry r r = 0 := by
      rw [symEntry, if_pos le_rfl, entry, hrowAt]
      refine Row.entry_of_lt fun e' he' => ?_
      rcases List.mem_cons.mp he' with rfl | he'
      · exact hlt'
      · have hpair := hasc.rowAt r
        rw [hrowAt, List.pairwise_cons] at hpair
        exact hlt'.trans (hpair.1 e' he')
    have hzero := hsemi.apply_eq_zero (A.symMatrix_comm n) (i := ⟨r, hlt'.trans hlt⟩) hdiagonal
      ⟨e.1, hlt⟩
    exact (hentry.symm.trans hzero).ge

/-- What is used of the square root. -/
structure SquareRoot (sqrt : ℚ → ℚ) : Prop where
  eq_zero_iff : ∀ x, 0 ≤ x → (sqrt x = 0 ↔ x = 0)
  mul : ∀ x y, 0 ≤ x → 0 ≤ y → sqrt (x * y) = sqrt x * sqrt y

/-- **When the scaling succeeds**: exactly if no first value is missing or zero. -/
theorem scalable_iff (hA : A.Upper n) (hasc : A.Ascending) (hsemi : Semidefinite (A.symMatrix n))
    (hsqrt : SquareRoot sqrt) : (∀ i < n, A.RowScalable sqrt i) ↔
      ∀ i < n, ∃ v, firstValue A.csr i = some v ∧ v ≠ 0 := by
  constructor
  · intro h i hi
    obtain ⟨di, hdi, -⟩ := h i hi
    refine ⟨di, hdi, ?_⟩
    rintro rfl
    obtain ⟨r, -, hr, e, es, hrow, -⟩ := exists_of_firstValue hdi
    have hrn : r < n := by
      by_contra hge
      rw [List.getD_eq_default _ _ (le_of_eq_of_le hA.rows_eq (not_lt.mp hge))] at hrow
      cases hrow
    obtain ⟨di', hdi', hall⟩ := h r hrn
    obtain rfl : 0 = di' := Option.some.inj (hr.symm.trans hdi')
    obtain ⟨dj, -, hne⟩ := hall e (show e ∈ A.csr.getD r [] from hrow ▸ List.mem_cons_self)
    rw [zero_mul] at hne
    exact hne ((hsqrt.eq_zero_iff 0 le_rfl).mpr rfl)
  · intro h i hi
    obtain ⟨di, hdi, hne⟩ := h i hi
    refine ⟨di, hdi, fun e he => ?_⟩
    obtain ⟨dj, hdj, hne'⟩ := h e.1 (hA.cols_eq ▸ hA.bounded.rowAt_below i e he)
    have hnonneg := mul_nonneg (hA.firstValue_nonneg hasc hsemi hdi)
      (hA.firstValue_nonneg hasc hsemi hdj)
    exact ⟨dj, hdj, fun hzero =>
      mul_ne_zero hne hne' ((hsqrt.eq_zero_iff _ hnonneg).mp hzero)⟩

/-! ## The scaled matrix -/

lemma rows_scaled : (A.scaled sqrt).rows = A.rows := by
  rw [rows, scaled, List.length_map, List.length_range]

lemma rowAt_scaled (i : ℕ) : (A.scaled sqrt).rowAt i = (A.rowAt i).map (A.scaledEntry sqrt i) := by
  rw [scaled, rowAt_map_range]
  split_ifs with hi
  · rfl
  · rw [rowAt_eq_nil (not_lt.mp hi), List.map_nil]

lemma Upper.scaled (hA : A.Upper n) : (A.scaled sqrt).Upper n := by
  refine ⟨rows_scaled.trans hA.rows_eq, hA.cols_eq, fun row hrow e he => ?_, fun i e he => ?_⟩
  · obtain ⟨i, -, rfl⟩ := List.mem_map.mp hrow
    obtain ⟨e', he', rfl⟩ := List.mem_map.mp he
    exact hA.bounded.rowAt_below i e' he'
  · rw [rowAt_scaled] at he
    obtain ⟨e', he', rfl⟩ := List.mem_map.mp he
    exact hA.upper i e' he'

lemma entry_scaled (i j : ℕ) :
    (A.scaled sqrt).entry i j = A.entry i j / sqrt (A.leadingValue i * A.leadingValue j) := by
  rw [entry, rowAt_scaled, entry]
  induction A.rowAt i with
  | nil => rw [List.map_nil, Row.entry_nil, zero_div]
  | cons e es ih =>
      rw [List.map_cons, Row.entry_cons, Row.entry_cons, ih, scaledEntry]
      split_ifs with hj
      · rw [hj, add_div]
      · rw [zero_add, zero_add]

/-- **The scaled matrix**: every entry is divided by the roots for its row and its column. -/
theorem Upper.symEntry_scaled (hA : A.Upper n) (hasc : A.Ascending)
    (hsemi : Semidefinite (A.symMatrix n)) (hsqrt : SquareRoot sqrt) (i j : ℕ) :
    (A.scaled sqrt).symEntry i j
      = A.symEntry i j / (sqrt (A.leadingValue i) * sqrt (A.leadingValue j)) := by
  have hnonneg : ∀ k, 0 ≤ A.leadingValue k := by
    intro k
    rw [leadingValue]
    cases hk : firstValue A.csr k with
    | none => exact le_rfl
    | some v => exact hA.firstValue_nonneg hasc hsemi hk
  rw [symEntry, symEntry]
  split_ifs
  · rw [entry_scaled, hsqrt.mul _ _ (hnonneg i) (hnonneg j)]
  · rw [entry_scaled, hsqrt.mul _ _ (hnonneg j) (hnonneg i), mul_comm (sqrt (A.leadingValue j))]

end SparseMatrix

end Espreso
