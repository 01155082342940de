import Mathlib.Data.List.Destutter
import Mathlib.Data.List.GetD
import Mathlib.Tactic

/-!
# Rows by pointers

Rows are stored one after the other in one array; row `i` lies between the pointers `i` and `i + 1`.

* `RowPointers.pointers`, `RowPointers.rowsOf` — the pointers of rows, and the rows between
  pointers; **`RowPointers.rowsOf_pointers`**, also when something follows the last row.
* **`RowPointers.destutter_pointers`** — without repeated pointers the empty rows are gone.
* `RowPointers.unique` — the loop that drops repeated entries in place; **`unique_eq`**.
-/

namespace RowPointers

/-! ## Pointers and rows -/

section Rows

variable {α : Type}

/-- The pointers of rows that start at `base`. -/
def pointers : ℕ → List (List α) → List ℕ
  | base, [] => [base]
  | base, row :: rows => base :: pointers (base + row.length) rows

def rowsOf : List ℕ → List α → List (List α)
  | a :: b :: I, data => (data.drop (a - 1)).take (b - a) :: rowsOf (b :: I) data
  | _, _ => []

lemma pointers_eq_cons (base : ℕ) (rows : List (List α)) :
    ∃ I, pointers base rows = base :: I := by
  cases rows with
  | nil => exact ⟨[], rfl⟩
  | cons row rows => exact ⟨_, rfl⟩

@[simp] lemma length_pointers (base : ℕ) (rows : List (List α)) :
    (pointers base rows).length = rows.length + 1 := by
  induction rows generalizing base with
  | nil => rfl
  | cons row rows ih => rw [pointers, List.length_cons, ih, List.length_cons]

lemma pointers_map {β : Type} (f : List α → List β) (hf : ∀ row, (f row).length = row.length)
    (base : ℕ) (rows : List (List α)) : pointers base (rows.map f) = pointers base rows := by
  induction rows generalizing base with
  | nil => rfl
  | cons row rows ih => rw [List.map_cons, pointers, pointers, ih, hf]

lemma getD_pointers (base : ℕ) (rows : List (List α)) {i : ℕ} (hi : i < rows.length) :
    (pointers base rows).getD (i + 1) 0
      = (pointers base rows).getD i 0 + (rows.getD i []).length := by
  induction rows generalizing base i with
  | nil => exact absurd hi (Nat.not_lt_zero i)
  | cons row rows ih =>
      obtain ⟨I, hI⟩ := pointers_eq_cons (base + row.length) rows
      cases i with
      | zero =>
          rw [pointers, hI]
          rfl
      | succ i => exact ih (base + row.length) (Nat.lt_of_succ_lt_succ hi)

lemma getD_pointers_eq (base : ℕ) (rows : List (List α)) {i : ℕ} (hi : i ≤ rows.length) :
    (pointers base rows).getD i 0 = base + (rows.take i).flatten.length := by
  induction rows generalizing base i with
  | nil =>
      obtain rfl : i = 0 := Nat.le_zero.mp hi
      rfl
  | cons row rows ih =>
      cases i with
      | zero => rfl
      | succ i =>
          rw [pointers, List.getD_cons_succ, ih _ (Nat.le_of_succ_le_succ hi), List.take_succ_cons,
            List.flatten_cons, List.length_append, Nat.add_assoc]

lemma drop_pointers (rows : List (List α)) {i : ℕ} (hi : i ≤ rows.length) :
    rows.flatten.drop ((pointers 1 rows).getD i 0 - 1) = (rows.drop i).flatten := by
  conv_lhs => rw [← List.take_append_drop i rows, List.flatten_append, List.take_append_drop i rows]
  rw [getD_pointers_eq 1 rows hi, Nat.add_sub_cancel_left, List.drop_left]

lemma window_pointers (rows : List (List α)) {i : ℕ} (hi : i < rows.length) :
    (rows.flatten.drop ((pointers 1 rows).getD i 0 - 1)).take
      ((pointers 1 rows).getD (i + 1) 0 - (pointers 1 rows).getD i 0) = rows.getD i [] := by
  have hdrop : rows.drop i = rows.getD i [] :: rows.drop (i + 1) := by
    rw [List.drop_eq_getElem_cons hi, List.getD_eq_getElem _ _ hi]
  rw [drop_pointers rows hi.le, getD_pointers 1 rows hi, Nat.add_sub_cancel_left, hdrop,
    List.flatten_cons, List.take_left]

lemma pointers_modify (f : List α → List α) (hf : ∀ row, (f row).length = row.length)
    (base : ℕ) (rows : List (List α)) (i : ℕ) :
    pointers base (rows.modify i f) = pointers base rows := by
  induction rows generalizing base i with
  | nil => rw [List.modify_nil]
  | cons row rows ih =>
      cases i with
      | zero => rw [List.modify_zero_cons, pointers, pointers, hf]
      | succ i => rw [List.modify_succ_cons, pointers, pointers, ih]

lemma map_modify {β : Type} (f : α → β) (g : α → α) (g' : β → β) (h : ∀ x, f (g x) = g' (f x))
    (l : List α) (k : ℕ) : (l.modify k g).map f = (l.map f).modify k g' := by
  induction l generalizing k with
  | nil => rw [List.modify_nil, List.map_nil, List.modify_nil]
  | cons x l ih =>
      cases k with
      | zero => rw [List.modify_zero_cons, List.map_cons, List.map_cons, List.modify_zero_cons, h]
      | succ k =>
          rw [List.modify_succ_cons, List.map_cons, List.map_cons, List.modify_succ_cons, ih]

lemma modify_append_right (f : α → α) (l l' : List α) (k : ℕ) :
    (l ++ l').modify (l.length + k) f = l ++ l'.modify k f := by
  induction l with
  | nil => rw [List.length_nil, Nat.zero_add, List.nil_append, List.nil_append]
  | cons x l ih =>
      rw [List.cons_append, List.length_cons, Nat.add_right_comm, List.modify_succ_cons, ih]
      rfl

/-- **The first entry of a row**, changed in the array. -/
lemma flatten_modify (f : α → α) (rows : List (List α)) {i : ℕ} (hi : i < rows.length)
    (hne : rows.getD i [] ≠ []) : rows.flatten.modify ((pointers 1 rows).getD i 0 - 1) f
      = (rows.modify i (List.modifyHead f)).flatten := by
  rw [getD_pointers_eq 1 rows hi.le, Nat.add_sub_cancel_left]
  induction rows generalizing i with
  | nil => exact absurd hi (Nat.not_lt_zero i)
  | cons row rows ih =>
      cases i with
      | zero =>
          cases row with
          | nil => exact absurd rfl hne
          | cons x row => rfl
      | succ i =>
          rw [List.take_succ_cons, List.flatten_cons, List.flatten_cons, List.length_append,
            modify_append_right, ih (Nat.lt_of_succ_lt_succ hi) hne, List.modify_succ_cons,
            List.flatten_cons]

lemma rowsOf_pointers_append (pre extra : List α) (rows : List (List α)) :
    rowsOf (pointers (pre.length + 1) rows) (pre ++ rows.flatten ++ extra) = rows := by
  induction rows generalizing pre with
  | nil => rfl
  | cons row rows ih =>
      obtain ⟨I, hI⟩ := pointers_eq_cons (pre.length + 1 + row.length) rows
      have hrest := ih (pre ++ row)
      rw [List.length_append, Nat.add_right_comm] at hrest
      rw [pointers, hI, rowsOf, ← hI, List.flatten_cons, ← List.append_assoc, hrest]
      refine congrArg (· :: rows) ?_
      rw [Nat.add_sub_cancel, Nat.add_sub_cancel_left, List.append_assoc, List.append_assoc,
        List.drop_left, List.take_left]

/-- **The rows between their pointers**, also when something follows them. -/
theorem rowsOf_pointers (rows : List (List α)) (extra : List α) :
    rowsOf (pointers 1 rows) (rows.flatten ++ extra) = rows :=
  rowsOf_pointers_append [] extra rows

lemma destutter'_pointers [DecidableEq α] (base : ℕ) (rows : List (List α)) {I : List ℕ}
    (hI : pointers base rows = base :: I) :
    I.destutter' (· ≠ ·) base = pointers base (rows.filter (· ≠ [])) := by
  induction rows generalizing base I with
  | nil =>
      obtain rfl : [] = I := (List.cons.inj hI).2
      rfl
  | cons row rows ih =>
      obtain ⟨J, hJ⟩ := pointers_eq_cons (base + row.length) rows
      rw [pointers, hJ] at hI
      obtain rfl : (base + row.length) :: J = I := (List.cons.inj hI).2
      have hrest := ih (base + row.length) hJ
      by_cases hrow : row = []
      · subst hrow
        rw [List.destutter'_cons_neg J (by simp), List.filter_cons_of_neg (by simp)]
        exact hrest
      · have hlen : 0 < row.length := List.length_pos_of_ne_nil hrow
        rw [List.destutter'_cons_pos J (by omega), List.filter_cons_of_pos (by simpa using hrow),
          pointers, hrest]

/-- **Without repeated pointers** the empty rows are gone. -/
theorem destutter_pointers [DecidableEq α] (base : ℕ) (rows : List (List α)) :
    (pointers base rows).destutter (· ≠ ·) = pointers base (rows.filter (· ≠ [])) := by
  obtain ⟨I, hI⟩ := pointers_eq_cons base rows
  rw [hI, List.destutter_cons']
  exact destutter'_pointers base rows hI

end Rows

/-! ## The last entry -/

section Last

variable {α β : Type}

def lastEntry : List (List α) → Option (ℕ × α)
  | [] => none
  | row :: rows =>
    match lastEntry rows with
    | some e => some (e.1 + 1, e.2)
    | none => row.getLast?.map (Prod.mk 0)

/-- `f` on all entries but the last, `g` on the last. -/
def mapButLast (f g : α → β) : List (List α) → List (List β)
  | [] => []
  | row :: rows =>
    if rows.flatten = [] then
      (row.dropLast.map f ++ (row.getLast?.map g).toList) :: rows.map fun _ => []
    else row.map f :: mapButLast f g rows

lemma lastEntry_eq_none {rows : List (List α)} : lastEntry rows = none ↔ rows.flatten = [] := by
  induction rows with
  | nil => exact iff_of_true rfl rfl
  | cons row rows ih =>
      rw [lastEntry, List.flatten_cons, List.append_eq_nil_iff, ← ih]
      cases h : lastEntry rows with
      | none => simp
      | some e => simp

lemma mem_of_lastEntry {rows : List (List α)} {e : ℕ × α} (h : lastEntry rows = some e) :
    e.2 ∈ rows.flatten := by
  induction rows generalizing e with
  | nil => cases h
  | cons row rows ih =>
      rw [List.flatten_cons, List.mem_append]
      rw [lastEntry] at h
      cases hrows : lastEntry rows with
      | some e' =>
          rw [hrows] at h
          obtain rfl := Option.some.inj h
          have hmem : e'.2 ∈ rows.flatten := ih hrows
          exact Or.inr hmem
      | none =>
          rw [hrows] at h
          obtain ⟨x, hx, rfl⟩ := Option.map_eq_some_iff.mp h
          exact Or.inl (List.mem_of_getLast? hx)

lemma length_dropLast_getLast (f g : α → β) (row : List α) :
    (row.dropLast.map f ++ (row.getLast?.map g).toList).length = row.length := by
  rcases List.eq_nil_or_concat row with rfl | ⟨init, last, rfl⟩
  · rfl
  · simp

lemma pointers_of_flatten {rows : List (List α)} (h : rows.flatten = []) (base : ℕ) :
    pointers base (rows.map fun _ => ([] : List β)) = pointers base rows := by
  induction rows with
  | nil => rfl
  | cons row rows ih =>
      rw [List.flatten_cons, List.append_eq_nil_iff] at h
      obtain ⟨rfl, h⟩ := h
      rw [List.map_cons, pointers, pointers]
      exact congrArg _ (ih h)

lemma pointers_mapButLast (f g : α → β) (base : ℕ) (rows : List (List α)) :
    pointers base (mapButLast f g rows) = pointers base rows := by
  induction rows generalizing base with
  | nil => rfl
  | cons row rows ih =>
      rw [mapButLast]
      split_ifs with h
      · rw [pointers, pointers, length_dropLast_getLast, pointers_of_flatten h]
      · rw [pointers, pointers, List.length_map, ih]

lemma flatten_mapButLast (f g : α → β) (rows : List (List α)) :
    (mapButLast f g rows).flatten
      = rows.flatten.dropLast.map f ++ (rows.flatten.getLast?.map g).toList := by
  induction rows with
  | nil => rfl
  | cons row rows ih =>
      rw [mapButLast]
      split_ifs with h
      · have hempty : (rows.map fun _ => ([] : List β)).flatten = [] := by
          rw [List.flatten_eq_nil_iff]
          intro l hl
          obtain ⟨_, -, rfl⟩ := List.mem_map.mp hl
          rfl
        rw [List.flatten_cons, List.flatten_cons, h, hempty, List.append_nil, List.append_nil]
      · rw [List.flatten_cons, List.flatten_cons, ih, List.dropLast_append_of_ne_nil h,
          List.map_append, List.append_assoc, List.getLast?_append_of_ne_nil _ h]

lemma mem_of_mem_mapButLast {f g : α → β} {rows : List (List α)} {row : List β}
    (hrow : row ∈ mapButLast f g rows) {y : β} (hy : y ∈ row) :
    ∃ x ∈ rows.flatten, y = f x ∨ y = g x := by
  have hmem : y ∈ (mapButLast f g rows).flatten := List.mem_flatten.mpr ⟨row, hrow, hy⟩
  rw [flatten_mapButLast] at hmem
  rcases List.mem_append.mp hmem with hinit | hlast
  · obtain ⟨x, hx, rfl⟩ := List.mem_map.mp hinit
    exact ⟨x, List.mem_of_mem_dropLast hx, Or.inl rfl⟩
  · obtain ⟨x, hx, rfl⟩ := Option.map_eq_some_iff.mp (Option.mem_toList.mp hlast)
    exact ⟨x, List.mem_of_getLast? hx, Or.inr rfl⟩

lemma map_mapButLast {γ : Type} (f g : α → β) (h : β → γ) (rows : List (List α)) :
    (mapButLast f g rows).map (List.map h) = mapButLast (h ∘ f) (h ∘ g) rows := by
  induction rows with
  | nil => rfl
  | cons row rows ih =>
      rw [mapButLast, mapButLast]
      split_ifs with hrows
      · rw [List.map_cons, List.map_append, List.map_map, List.map_map]
        cases row.getLast? <;> rfl
      · rw [List.map_cons, List.map_map, ih]

end Last

/-! ## Dropping repeated entries in place -/

/-- The body of the loop: the array and the position of the last entry kept. -/
def uniqueStep (st : List ℕ × ℕ) (i : ℕ) : List ℕ × ℕ :=
  if st.1.getD st.2 0 ≠ st.1.getD i 0 then (st.1.set (st.2 + 1) (st.1.getD i 0), st.2 + 1) else st

def unique (I : List ℕ) : List ℕ × ℕ :=
  (List.range' 1 (I.length - 1)).foldl uniqueStep (I, 0)

lemma exists_set_eq (kept junk rest : List ℕ) (x y : ℕ) :
    ∃ junk', junk'.length = junk.length ∧
      (kept ++ x :: (junk ++ y :: rest)).set (kept.length + 1) y
        = (kept ++ [x]) ++ y :: (junk' ++ rest) := by
  cases junk with
  | nil => exact ⟨[], rfl, by simp⟩
  | cons j junk => exact ⟨junk ++ [y], by simp, by simp⟩

lemma foldl_uniqueStep (kept junk rest : List ℕ) (x : ℕ) :
    ∃ array, (List.range' (kept.length + 1 + junk.length) rest.length).foldl uniqueStep
        (kept ++ x :: (junk ++ rest), kept.length)
      = (array, kept.length + (rest.destutter' (· ≠ ·) x).length - 1) ∧
      array.take (kept.length + (rest.destutter' (· ≠ ·) x).length)
        = kept ++ rest.destutter' (· ≠ ·) x := by
  induction rest generalizing kept junk x with
  | nil =>
      refine ⟨_, rfl, ?_⟩
      rw [List.destutter'_nil, List.length_singleton, List.take_append]
      simp
  | cons y rest ih =>
      have hlast : (kept ++ x :: (junk ++ y :: rest)).getD kept.length 0 = x := by simp
      have hnext :
          (kept ++ x :: (junk ++ y :: rest)).getD (kept.length + 1 + junk.length) 0 = y := by
        rw [List.getD_append_right _ _ _ _ (by omega),
          show kept.length + 1 + junk.length - kept.length = junk.length + 1 by omega,
          List.getD_cons_succ, List.getD_append_right _ _ _ _ (le_refl _), Nat.sub_self]
        rfl
      rw [List.length_cons, List.range'_succ, List.foldl_cons, uniqueStep]
      simp only [hlast, hnext]
      by_cases hxy : x = y
      · subst hxy
        obtain ⟨array, harray, htake⟩ := ih kept (junk ++ [x]) x
        rw [if_neg (not_not.mpr rfl), List.destutter'_cons_neg rest (not_not.mpr rfl)]
        rw [List.length_append, List.length_singleton, ← Nat.add_assoc, List.append_assoc] at harray
        exact ⟨array, harray, htake⟩
      · obtain ⟨junk', hlen, hset⟩ := exists_set_eq kept junk rest x y
        obtain ⟨array, harray, htake⟩ := ih (kept ++ [x]) junk' y
        rw [if_pos hxy, hset, List.destutter'_cons_pos rest hxy]
        rw [List.length_append, List.length_singleton, hlen] at harray
        rw [List.length_append, List.length_singleton, List.append_assoc] at htake
        refine ⟨array, ?_, ?_⟩
        · rw [show kept.length + 1 + junk.length + 1 = kept.length + 1 + 1 + junk.length by omega,
            harray, List.length_cons]
          exact congrArg (Prod.mk array) (by omega)
        · rw [List.length_cons, ← Nat.add_assoc, Nat.add_right_comm]
          exact htake

/-- **The loop drops the repeated entries.** -/
theorem unique_eq {I : List ℕ} (hI : I ≠ []) :
    (unique I).1.take ((unique I).2 + 1) = I.destutter (· ≠ ·) ∧
      (unique I).2 + 1 = (I.destutter (· ≠ ·)).length := by
  cases I with
  | nil => exact absurd rfl hI
  | cons x I =>
      obtain ⟨array, harray, htake⟩ := foldl_uniqueStep [] [] I x
      have hpos : 0 < (I.destutter' (· ≠ ·) x).length :=
        List.length_pos_of_ne_nil (List.destutter'_ne_nil I _)
      have heq : unique (x :: I) = (array, (I.destutter' (· ≠ ·) x).length - 1) := by
        rw [unique]
        simpa using harray
      rw [heq, List.destutter_cons']
      simp only [List.length_nil, Nat.zero_add, List.nil_append] at htake
      rw [Nat.sub_add_cancel hpos]
      exact ⟨htake, rfl⟩

end RowPointers
