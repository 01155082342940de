import Mathlib.Data.List.Basic
import Mathlib.Data.List.Count
import Mathlib.Tactic

/-!
# Lines of a text

A line ends with the symbol `nl`.  The last line of a text may be open.

* `takeLines` — the first lines of a text, as a prefix of it.
* `takeLines_append`, `takeLines_add` — the first lines of a text that consists of two parts, and the
  first lines in two steps.
-/

namespace Lines

variable {α : Type} [DecidableEq α] (nl : α)

/-- The first `n` lines of a text. -/
def takeLines : ℕ → List α → List α
  | 0, _ => []
  | _ + 1, [] => []
  | n + 1, c :: text => c :: if c = nl then takeLines n text else takeLines (n + 1) text

variable {nl}

@[simp] lemma takeLines_zero (text : List α) : takeLines nl 0 text = [] := by simp [takeLines]

@[simp] lemma takeLines_nil (n : ℕ) : takeLines nl n [] = [] := by
  cases n with
  | zero => simp
  | succ n => simp [takeLines]

lemma takeLines_initial (n : ℕ) (text : List α) : takeLines nl n text <+: text := by
  induction text generalizing n with
  | nil => simp
  | cons c text ih =>
      cases n with
      | zero => simp
      | succ n =>
          rw [takeLines, List.prefix_cons_inj]
          split_ifs
          · exact ih n
          · exact ih (n + 1)

lemma take_length_takeLines (n : ℕ) (text : List α) :
    text.take (takeLines nl n text).length = takeLines nl n text :=
  (List.prefix_iff_eq_take.mp (takeLines_initial n text)).symm

lemma length_takeLines_le (n : ℕ) (text : List α) : (takeLines nl n text).length ≤ text.length :=
  (takeLines_initial n text).length_le

lemma takeLines_append_drop (n : ℕ) (text : List α) :
    takeLines nl n text ++ text.drop (takeLines nl n text).length = text :=
  List.prefix_iff_eq_append.mp (takeLines_initial n text)

lemma takeLines_append {n : ℕ} {a : List α} (h : n ≤ a.count nl) (b : List α) :
    takeLines nl n (a ++ b) = takeLines nl n a := by
  induction a generalizing n with
  | nil =>
      obtain rfl : n = 0 := by simpa using h
      simp
  | cons c a ih =>
      cases n with
      | zero => simp
      | succ n =>
          rw [List.cons_append, takeLines, takeLines]
          split_ifs with hc
          · rw [ih (by rw [hc, List.count_cons_self] at h; omega)]
          · rw [ih (by rwa [List.count_cons_of_ne hc] at h)]

lemma takeLines_add (m n : ℕ) (text : List α) : takeLines nl (m + n) text
    = takeLines nl m text ++ takeLines nl n (text.drop (takeLines nl m text).length) := by
  induction text generalizing m with
  | nil => simp
  | cons c text ih =>
      cases m with
      | zero => simp
      | succ m =>
          rw [Nat.succ_add, takeLines, takeLines]
          split_ifs with hc
          · rw [ih m, List.cons_append, List.length_cons, List.drop_succ_cons]
          · rw [Nat.add_right_comm, ih (m + 1), List.cons_append, List.length_cons, List.drop_succ_cons]

lemma count_takeLines (n : ℕ) (text : List α) :
    (takeLines nl n text).count nl = min n (text.count nl) := by
  induction text generalizing n with
  | nil => simp
  | cons c text ih =>
      cases n with
      | zero => simp
      | succ n =>
          rw [takeLines]
          split_ifs with hc
          · rw [hc, List.count_cons_self, List.count_cons_self, ih]
            omega
          · rw [List.count_cons_of_ne hc, List.count_cons_of_ne hc, ih]

lemma takeLines_eq_append {n : ℕ} {text : List α} (hn : 0 < n) (h : n ≤ text.count nl) :
    ∃ lines, takeLines nl n text = lines ++ [nl] := by
  induction text generalizing n with
  | nil =>
      rw [List.count_nil] at h
      omega
  | cons c text ih =>
      obtain ⟨n, rfl⟩ := Nat.exists_eq_add_one.mpr hn
      rw [takeLines]
      split_ifs with hc
      · rcases Nat.eq_zero_or_pos n with rfl | hpos
        · exact ⟨[], by simp [hc]⟩
        · rw [hc, List.count_cons_self] at h
          obtain ⟨lines, hlines⟩ := ih hpos (by omega)
          exact ⟨c :: lines, by rw [hlines, List.cons_append]⟩
      · obtain ⟨lines, hlines⟩ := ih hn (by rwa [List.count_cons_of_ne hc] at h)
        exact ⟨c :: lines, by rw [hlines, List.cons_append]⟩

lemma takeLines_one {text : List α} {m : ℕ} (hend : text[m]? = some nl)
    (hnot : ∀ i < m, text[i]? ≠ some nl) : takeLines nl 1 text = text.take (m + 1) := by
  induction text generalizing m with
  | nil => simp at hend
  | cons c text ih =>
      cases m with
      | zero =>
          have hc : c = nl := by simpa using hend
          simp [takeLines, hc]
      | succ m =>
          have hc : c ≠ nl := by simpa using hnot 0 (Nat.succ_pos m)
          rw [takeLines, if_neg hc, List.take_succ_cons, ih (by simpa using hend)]
          intro i hi
          simpa using hnot (i + 1) (Nat.succ_lt_succ hi)

lemma count_drop_takeLines (n : ℕ) (text : List α) :
    (text.drop (takeLines nl n text).length).count nl = text.count nl - n := by
  have h : (takeLines nl n text ++ text.drop (takeLines nl n text).length).count nl
      = text.count nl := by rw [takeLines_append_drop]
  rw [List.count_append, count_takeLines] at h
  omega

/-! ## Beginnings of lines -/

/-- A line begins at the beginning of the text, and behind each end of a line. -/
def IsStart (nl : α) (text : List α) (p : ℕ) : Prop := p = 0 ∨ text[p - 1]? = some nl

instance (text : List α) (p : ℕ) : Decidable (IsStart nl text p) :=
  inferInstanceAs (Decidable (_ ∨ _))

def nextStart (nl : α) (text : List α) (p : ℕ) : ℕ := p + (takeLines nl 1 (text.drop p)).length

lemma getElem?_takeLines_ne {text : List α} {i : ℕ} (h : i + 1 < (takeLines nl 1 text).length) :
    text[i]? ≠ some nl := by
  induction text generalizing i with
  | nil => simp
  | cons c text ih =>
      rw [takeLines] at h
      split_ifs at h with hc
      · simp at h
      · cases i with
        | zero => simpa using hc
        | succ i =>
            rw [List.getElem?_cons_succ]
            exact ih (by simpa using h)

lemma getElem?_length_takeLines {text : List α} (h : nl ∈ text) :
    text[(takeLines nl 1 text).length - 1]? = some nl := by
  have hcount : 1 ≤ text.count nl := List.count_pos_iff.mpr h
  obtain ⟨line, hline⟩ := takeLines_eq_append Nat.one_pos hcount
  have hprefix : line ++ [nl] <+: text := hline ▸ takeLines_initial 1 text
  rw [hline, List.length_append, List.length_singleton, Nat.add_sub_cancel]
  obtain ⟨rest, rfl⟩ := hprefix
  rw [List.append_assoc, List.getElem?_append_right le_rfl, Nat.sub_self]
  rfl

lemma lt_nextStart {text : List α} {p : ℕ} (h : p < text.length) : p < nextStart nl text p := by
  obtain ⟨c, rest, hrest⟩ := List.exists_cons_of_ne_nil
    (show text.drop p ≠ [] from fun hnil => by
      have := List.drop_eq_nil_iff.mp hnil
      omega)
  rw [nextStart, hrest, takeLines]
  simp

lemma nextStart_le {text : List α} {p : ℕ} (h : p ≤ text.length) :
    nextStart nl text p ≤ text.length := by
  have hle : (takeLines nl 1 (text.drop p)).length ≤ (text.drop p).length := length_takeLines_le _ _
  rw [List.length_drop] at hle
  rw [nextStart]
  omega

lemma isStart_nextStart {text : List α} {p : ℕ} (h : nl ∈ text.drop p) :
    IsStart nl text (nextStart nl text p) := by
  have hget := getElem?_length_takeLines h
  have hpos : 0 < (takeLines nl 1 (text.drop p)).length := by
    have hcount : 1 ≤ (text.drop p).count nl := List.count_pos_iff.mpr h
    obtain ⟨line, hline⟩ := takeLines_eq_append Nat.one_pos hcount
    rw [hline, List.length_append]
    exact Nat.succ_pos _
  rw [List.getElem?_drop] at hget
  refine Or.inr ?_
  rw [nextStart, ← hget]
  congr 1
  omega

lemma not_isStart {text : List α} {p q : ℕ} (hpq : p < q) (hq : q < nextStart nl text p) :
    ¬IsStart nl text q := by
  have hlt : q - 1 - p + 1 < (takeLines nl 1 (text.drop p)).length := by
    rw [nextStart] at hq
    omega
  have hne := getElem?_takeLines_ne hlt
  rw [List.getElem?_drop, show p + (q - 1 - p) = q - 1 by omega] at hne
  rintro (hzero | hnl)
  · omega
  · exact hne hnl

end Lines
