import Espreso.Basis.Communication
import Mathlib.Data.List.Perm.Basic

/-!
# Buffers of addressed records

`Communication::allToAllWithDataSizeAndTarget` works on flat buffers.  A buffer is a concatenation
of records `[size, target, payload...]`, and the code never builds a record: it walks the buffer
with `movebefore` and cuts it at the positions found.

* `Word` — the two casts the code applies to an entry of a buffer.
* **`movebefore_window`**, **`slice_window`** — on a window of the buffer that holds sorted
  records, the walk stops exactly between two records, and a cut yields whole records.
-/

namespace Espreso

/-- The casts `(size_t)data[pos]` and `(int)data[pos + 1]` of a buffer entry. -/
class Word (T : Type) where
  toSize : T → ℕ
  toInt : T → ℤ

/-- `esint` entries: the sign-extending cast to `size_t`, and the cast to `int`. -/
instance : Word ℤ where
  toSize x := (x % (2 ^ 64 : ℕ)).toNat
  toInt x := (x + (2 ^ 31 : ℕ)) % (2 ^ 32 : ℕ) - (2 ^ 31 : ℕ)

variable {T : Type} [Word T]

/-! ## Records -/

/-- A record `[size, target, payload...]` whose first entry is its real length. -/
structure Record (T : Type) [Word T] where
  size : T
  target : T
  payload : List T
  size_eq : Word.toSize size = payload.length + 2

namespace Record

def data (r : Record T) : List T := r.size :: r.target :: r.payload

def rank (r : Record T) : ℤ := Word.toInt r.target

@[simp] lemma length_data (r : Record T) : r.data.length = Word.toSize r.size := by
  simp [data, r.size_eq]

end Record

def flatten (rs : List (Record T)) : List T := rs.flatMap Record.data

@[simp] lemma flatten_nil : flatten ([] : List (Record T)) = [] := rfl

@[simp] lemma flatten_cons (r : Record T) (rs : List (Record T)) :
    flatten (r :: rs) = r.data ++ flatten rs := by
  simp [flatten]

@[simp] lemma flatten_append (rs rs' : List (Record T)) :
    flatten (rs ++ rs') = flatten rs ++ flatten rs' := by
  simp [flatten]

def Sorted (rs : List (Record T)) : Prop := rs.Pairwise fun a b => a.rank ≤ b.rank

instance (rs : List (Record T)) : Decidable (Sorted rs) :=
  inferInstanceAs (Decidable (rs.Pairwise fun a b => a.rank ≤ b.rank))

lemma Sorted.sublist {rs rs' : List (Record T)} (h : Sorted rs) (hsub : rs'.Sublist rs) :
    Sorted rs' := List.Pairwise.sublist hsub h

/-- The records for ranks before `r`. -/
def below (r : ℤ) (rs : List (Record T)) : List (Record T) := rs.filter (·.rank < r)

/-- The records for ranks `r`, ..., `r' - 1`. -/
def between (r r' : ℤ) (rs : List (Record T)) : List (Record T) :=
  rs.filter fun x => r ≤ x.rank ∧ x.rank < r'

/-- The records for rank `r` and the ranks after it. -/
def atLeast (r : ℤ) (rs : List (Record T)) : List (Record T) := rs.filter (r ≤ ·.rank)

/-- The records for rank `r`. -/
def addressed (r : ℤ) (rs : List (Record T)) : List (Record T) := rs.filter (·.rank = r)

lemma between_succ (r : ℤ) (rs : List (Record T)) : between r (r + 1) rs = addressed r rs := by
  refine List.filter_congr fun x _ => ?_
  simp only [decide_eq_decide]
  omega

lemma below_eq_nil {r : ℤ} {rs : List (Record T)} (h : ∀ x ∈ rs, r ≤ x.rank) :
    below r rs = [] := by
  refine List.filter_eq_nil_iff.mpr fun x hx => ?_
  simpa using h x hx

lemma addressed_append (r : ℤ) (rs rs' : List (Record T)) :
    addressed r (rs ++ rs') = addressed r rs ++ addressed r rs' := List.filter_append _ _

lemma mem_addressed {r : ℤ} {rs : List (Record T)} {x : Record T} :
    x ∈ addressed r rs ↔ x ∈ rs ∧ x.rank = r := by
  simp [addressed]

lemma addressed_addressed (r r' : ℤ) (rs : List (Record T)) :
    addressed r (addressed r' rs) = if r' = r then addressed r rs else [] := by
  unfold addressed
  rw [List.filter_filter]
  split
  · rename_i h
    subst h
    simp
  · rename_i h
    refine List.filter_eq_nil_iff.mpr fun x _ => ?_
    simp only [Bool.and_eq_true, decide_eq_true_eq, not_and]
    rintro rfl h'
    exact h h'.symm

lemma addressed_below {r m : ℤ} (h : r < m) (rs : List (Record T)) :
    addressed r (below m rs) = addressed r rs := by
  unfold addressed below
  rw [List.filter_filter]
  refine List.filter_congr fun x _ => ?_
  by_cases hx : x.rank = r <;> simp [hx, h]

lemma addressed_atLeast {r m : ℤ} (h : m ≤ r) (rs : List (Record T)) :
    addressed r (atLeast m rs) = addressed r rs := by
  unfold addressed atLeast
  rw [List.filter_filter]
  refine List.filter_congr fun x _ => ?_
  by_cases hx : x.rank = r <;> simp [hx, h]

lemma sorted_split {r r' : ℤ} (h : r ≤ r') {rs : List (Record T)} (hs : Sorted rs) :
    rs = below r rs ++ between r r' rs ++ atLeast r' rs := by
  induction rs with
  | nil => rfl
  | cons x rs ih =>
      have hx : ∀ y ∈ rs, x.rank ≤ y.rank := (List.pairwise_cons.mp hs).1
      have hrs := ih (List.pairwise_cons.mp hs).2
      rcases lt_or_ge x.rank r with h₁ | h₁
      · have h₂ : x.rank < r' := by omega
        simp only [below, between, atLeast, List.filter_cons] at hrs ⊢
        simp only [h₁, h₂, not_le.mpr h₁, not_le.mpr h₂, decide_true, decide_false, if_true,
          false_and, List.cons_append, Bool.false_eq_true, if_false]
        exact congrArg (x :: ·) hrs
      · have hb : below r rs = [] := below_eq_nil fun y hy => by have := hx y hy; omega
        have hb' : below r (x :: rs) = [] := below_eq_nil fun y hy => by
          rcases List.mem_cons.mp hy with rfl | hy
          · exact h₁
          · have := hx y hy; omega
        rw [hb']
        rw [hb] at hrs
        rcases lt_or_ge x.rank r' with h₂ | h₂
        · simp only [between, atLeast, List.filter_cons, List.nil_append] at hrs ⊢
          simp only [h₁, h₂, not_le.mpr h₂, and_self, decide_true, decide_false, if_true,
            List.cons_append, Bool.false_eq_true, if_false]
          exact congrArg (x :: ·) hrs
        · have hn : between r r' (x :: rs) = [] := by
            refine List.filter_eq_nil_iff.mpr fun y hy => ?_
            have hy' : r' ≤ y.rank := by
              rcases List.mem_cons.mp hy with rfl | hy
              · exact h₂
              · have := hx y hy; omega
            simp only [decide_eq_true_eq]
            omega
          rw [hn]
          symm
          refine List.filter_eq_self.mpr fun y hy => ?_
          rcases List.mem_cons.mp hy with rfl | hy
          · simpa using h₂
          · have := hx y hy
            simp only [decide_eq_true_eq]
            omega

lemma below_append_atLeast {r : ℤ} {rs : List (Record T)} (hs : Sorted rs) :
    below r rs ++ atLeast r rs = rs := by
  have hnil : between r r rs = [] := by
    refine List.filter_eq_nil_iff.mpr fun x _ => ?_
    simp only [decide_eq_true_eq]
    omega
  have hsplit := sorted_split (le_refl r) hs
  rw [hnil, List.append_nil] at hsplit
  exact hsplit.symm

lemma below_append_between {r r' : ℤ} (h : r ≤ r') {rs : List (Record T)} (hs : Sorted rs) :
    below r' rs = below r rs ++ between r r' rs := by
  have h₁ := congrArg (below r') (sorted_split h hs)
  rw [h₁]
  simp only [below, between, atLeast, List.filter_append, List.filter_filter]
  have h₂ : (rs.filter fun x => decide (x.rank < r') && decide (r' ≤ x.rank)) = [] := by
    refine List.filter_eq_nil_iff.mpr fun x _ => ?_
    simp
  rw [h₂, List.append_nil]
  congr 1
  · refine List.filter_congr fun x _ => ?_
    by_cases hx : x.rank < r <;> simp [hx]
    omega
  · refine List.filter_congr fun x _ => ?_
    by_cases hx : x.rank < r' <;> simp [hx]

/-! ## Walking and cutting -/

/-- The walk of `movebefore`.  A read past the end of the buffer and a walk that does not advance
are both `none`; the fuel is the number of steps a walk can make when every step advances. -/
def moveLoop (data : List T) (rank : ℤ) (stop : ℕ) : ℕ → ℕ → Option ℕ
  | 0, _ => none
  | fuel + 1, pos =>
    if pos < stop then
      data[pos + 1]?.bind fun target =>
        if Word.toInt target < rank then
          data[pos]?.bind fun size => moveLoop data rank stop fuel (pos + Word.toSize size)
        else some pos
    else some pos

/-- `movebefore(data, rank, begin, end)`: the first position from `start` on, in steps of whole
records, whose record is not addressed to a rank before `rank`. -/
def movebefore (data : List T) (rank : ℤ) (start stop : ℕ) : Option ℕ :=
  moveLoop data rank stop (stop - start + 1) start

lemma moveLoop_eq {rank : ℤ} (xs ys : List (Record T)) (post : List T)
    (hxs : ∀ x ∈ xs, x.rank < rank) (hys : ∀ y ∈ ys, rank ≤ y.rank) :
    ∀ (pre : List T) (fuel : ℕ), xs.length < fuel →
      moveLoop (pre ++ flatten (xs ++ ys) ++ post) rank
        (pre.length + (flatten (xs ++ ys)).length) fuel pre.length
        = some (pre.length + (flatten xs).length) := by
  induction xs with
  | nil =>
      intro pre fuel hfuel
      obtain ⟨fuel, rfl⟩ : ∃ f, fuel = f + 1 := ⟨fuel - 1, by omega⟩
      cases ys with
      | nil => simp [moveLoop]
      | cons y ys =>
          have hy : ¬ Word.toInt y.target < rank := by
            have := hys y (by simp)
            simpa [Record.rank] using this
          simp [moveLoop, Record.data, hy]
  | cons x xs ih =>
      intro pre fuel hfuel
      obtain ⟨fuel, rfl⟩ : ∃ f, fuel = f + 1 := ⟨fuel - 1, by omega⟩
      have hx : Word.toInt x.target < rank := hxs x (by simp)
      have hpos : pre.length < pre.length + (flatten (x :: xs ++ ys)).length := by
        simp [Record.data]
      have htarget : (pre ++ flatten (x :: xs ++ ys) ++ post)[pre.length + 1]? = some x.target := by
        simp [Record.data]
      have hsize : (pre ++ flatten (x :: xs ++ ys) ++ post)[pre.length]? = some x.size := by
        simp [Record.data]
      have hdata : pre ++ flatten (x :: xs ++ ys) ++ post
          = (pre ++ x.data) ++ flatten (xs ++ ys) ++ post := by simp
      have hstop : pre.length + (flatten (x :: xs ++ ys)).length
          = (pre ++ x.data).length + (flatten (xs ++ ys)).length := by
        simp only [List.cons_append, flatten_cons, List.length_append]
        omega
      have hnext : pre.length + Word.toSize x.size = (pre ++ x.data).length := by simp
      rw [moveLoop, if_pos hpos, htarget, Option.bind_some, if_pos hx, hsize, Option.bind_some,
        hnext, hstop, hdata, ih (fun y hy => hxs y (by simp [hy])) _ fuel (by simp at hfuel; omega)]
      simp only [flatten_cons, List.length_append, Option.some.injEq]
      omega

lemma length_le_flatten (rs : List (Record T)) : rs.length ≤ (flatten rs).length := by
  induction rs with
  | nil => simp
  | cons r rs ih =>
      have := r.size_eq
      simp only [flatten_cons, List.length_cons, List.length_append, Record.length_data]
      omega

section Window

variable {rs : List (Record T)} {r r' : ℤ}

/-- **The walk stops between records.**  In a window of sorted records, the walk from the first
record of rank `r` finds the first record of rank `r'`. -/
theorem movebefore_window (pre post : List T) (hs : Sorted rs) (h : r ≤ r') :
    movebefore (pre ++ flatten rs ++ post) r' (pre.length + (flatten (below r rs)).length)
      (pre.length + (flatten rs).length)
      = some (pre.length + (flatten (below r' rs)).length) := by
  have hsplit := sorted_split h hs
  have hlen : (flatten rs).length = (flatten (below r rs)).length
      + (flatten (between r r' rs ++ atLeast r' rs)).length := by
    conv_lhs => rw [hsplit]
    simp
  have hdata : pre ++ flatten rs ++ post = (pre ++ flatten (below r rs))
      ++ flatten (between r r' rs ++ atLeast r' rs) ++ post := by
    conv_lhs => rw [hsplit]
    simp
  have hloop := moveLoop_eq (between r r' rs) (atLeast r' rs) post
    (fun x hx => by simp only [between, List.mem_filter, decide_eq_true_eq] at hx; exact hx.2.2)
    (fun x hx => by simp only [atLeast, List.mem_filter, decide_eq_true_eq] at hx; exact hx.2)
    (pre ++ flatten (below r rs))
    ((flatten (between r r' rs ++ atLeast r' rs)).length + 1) (by
      have := length_le_flatten (between r r' rs)
      simp only [flatten_append, List.length_append]
      omega)
  rw [← hdata, List.length_append] at hloop
  rw [movebefore, below_append_between h hs, flatten_append, List.length_append, hlen,
    show pre.length + ((flatten (below r rs)).length
        + (flatten (between r r' rs ++ atLeast r' rs)).length)
        - (pre.length + (flatten (below r rs)).length)
      = (flatten (between r r' rs ++ atLeast r' rs)).length by omega,
    ← Nat.add_assoc, hloop, Nat.add_assoc]

/-- **A cut yields whole records.** -/
theorem slice_window (pre post : List T) (hs : Sorted rs) (h : r ≤ r') :
    slice (pre ++ flatten rs ++ post) (pre.length + (flatten (below r rs)).length)
      (pre.length + (flatten (below r' rs)).length) = some (flatten (between r r' rs)) := by
  have hdata : pre ++ flatten rs ++ post = (pre ++ flatten (below r rs))
      ++ flatten (between r r' rs) ++ (flatten (atLeast r' rs) ++ post) := by
    conv_lhs => rw [sorted_split h hs]
    simp
  have hslice := slice_append (pre ++ flatten (below r rs)) (flatten (between r r' rs))
    (flatten (atLeast r' rs) ++ post)
  rw [← hdata, List.length_append] at hslice
  rw [below_append_between h hs, flatten_append, List.length_append, ← Nat.add_assoc, hslice]

lemma movebefore_whole (hs : Sorted rs) (r' : ℤ) :
    movebefore (flatten rs) r' 0 (flatten rs).length = some (flatten (below r' rs)).length := by
  -- a rank before all records, from which the window lemma starts
  obtain ⟨r, hr, hrr'⟩ : ∃ r : ℤ, (∀ x ∈ rs, r ≤ x.rank) ∧ r ≤ r' := by
    cases rs with
    | nil => exact ⟨r', by simp, le_refl r'⟩
    | cons x rs =>
        refine ⟨min x.rank r', fun y hy => ?_, min_le_right _ _⟩
        rcases List.mem_cons.mp hy with rfl | hy
        · exact min_le_left _ _
        · exact (min_le_left _ _).trans ((List.pairwise_cons.mp hs).1 y hy)
  simpa [below_eq_nil hr] using movebefore_window [] [] hs hrr'

lemma movebefore_from (hs : Sorted rs) (h : r ≤ r') :
    movebefore (flatten rs) r' (flatten (below r rs)).length (flatten rs).length
      = some (flatten (below r' rs)).length := by
  simpa using movebefore_window [] [] hs h

lemma slice_from (hs : Sorted rs) (h : r ≤ r') :
    slice (flatten rs) (flatten (below r rs)).length (flatten (below r' rs)).length
      = some (flatten (between r r' rs)) := by
  simpa using slice_window [] [] hs h

lemma slice_atLeast (hs : Sorted rs) (r : ℤ) :
    slice (flatten rs) (flatten (below r rs)).length (flatten rs).length
      = some (flatten (atLeast r rs)) := by
  have hslice := slice_append (flatten (below r rs)) (flatten (atLeast r rs)) []
  rw [List.append_nil, ← List.length_append, ← flatten_append, below_append_atLeast hs] at hslice
  exact hslice

lemma slice_below (hs : Sorted rs) (r : ℤ) :
    slice (flatten rs) 0 (flatten (below r rs)).length = some (flatten (below r rs)) := by
  have hslice := slice_append [] (flatten (below r rs)) (flatten (atLeast r rs))
  rw [List.nil_append, ← flatten_append, below_append_atLeast hs] at hslice
  simpa using hslice

lemma length_sub_below (hs : Sorted rs) (r : ℤ) :
    (flatten rs).length - (flatten (below r rs)).length = (flatten (atLeast r rs)).length := by
  have h := congrArg (fun l => (flatten l).length) (below_append_atLeast hs (r := r))
  simp only [flatten_append, List.length_append] at h
  omega

end Window

end Espreso
