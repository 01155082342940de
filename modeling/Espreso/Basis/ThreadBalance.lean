import Espreso.Basis.Permute
import Mathlib.Data.List.SplitLengths

/-!
# Balanced threads

`serializededata::balance` moves data between the chunks of the threads until each thread has its
share. A thread pulls what it misses from the chunks behind it, and pushes what it has too much to
the next one.

* `ThreadBalance.balance` — the function of the source for elements of one size. A read behind the
  last chunk has no result.
* **`ThreadBalance.balance_balanced_iff`** — the default distribution is one of the data items,
  while the shares are those of elements.
-/

namespace Espreso

namespace ThreadBalance

variable {T : Type}

/-! ## The function -/

/-- `while (++tt && data[t].size() < share)`: what thread `t`, which has `chunk`, pulls from the
chunks behind it. -/
def pull (share : ℕ) : List T → List (List T) → Option (List T × List (List T))
  | chunk, [] => if chunk.length < share then none else some (chunk, [])
  | chunk, next :: rest =>
    if chunk.length < share then
      let diff := share - chunk.length
      if diff < next.length then do
        let (chunk, rest) ← pull share (chunk ++ next.take diff) rest
        pure (chunk, next.drop diff :: rest)
      else do
        let (chunk, rest) ← pull share (chunk ++ next) rest
        pure (chunk, [] :: rest)
    else some (chunk, next :: rest)

/-- `if (data[t].size() > share)`: what thread `t` pushes to the next chunk. -/
def push (share : ℕ) (chunk : List T) (rest : List (List T)) : Option (List T × List (List T)) :=
  if share < chunk.length then
    let diff := chunk.length - share
    match rest with
    | [] => none
    | next :: rest =>
      some (chunk.take (chunk.length - diff), (chunk.drop (chunk.length - diff) ++ next) :: rest)
  else some (chunk, rest)

def dataLoop : List ℕ → List (List T) → Option (List (List T))
  | _, [] => some []
  | [], _ :: _ => none
  | share :: shares, chunk :: rest => do
    let (chunk, rest) ← pull share chunk rest
    let (chunk, rest) ← push share chunk rest
    let rest ← dataLoop shares rest
    pure (chunk :: rest)

/-- `esize * (_distribution[t + 1] - _distribution[t])` for all threads. -/
def shares (threads esize : ℕ) (distribution : List ℕ) : List ℕ :=
  (List.range threads).map fun t =>
    esize * (distribution.getD (t + 1) 0 - distribution.getD t 0)

/-- **`serializededata::balance(esize, data, distribution)`** -/
def balance (esize : ℕ) (data : List (List T)) (distribution : Option (List ℕ)) :
    Option (List (List T)) :=
  let size := (data.map List.length).sum
  let distribution := distribution.getD (distribute data.length size)
  dataLoop (shares data.length esize distribution) data

/-! ## One thread -/

lemma pull_of_le {share : ℕ} {chunk : List T} (h : share ≤ chunk.length) (rest : List (List T)) :
    pull share chunk rest = some (chunk, rest) := by
  cases rest with
  | nil => rw [pull, if_neg (Nat.not_lt.mpr h)]
  | cons next rest => rw [pull, if_neg (Nat.not_lt.mpr h)]

lemma pull_spec {share : ℕ} {chunk : List T} {rest : List (List T)}
    (h : share ≤ chunk.length + rest.flatten.length) :
    ∃ chunk' rest', pull share chunk rest = some (chunk', rest') ∧
      chunk'.length = max share chunk.length ∧ rest'.length = rest.length ∧
      chunk' ++ rest'.flatten = chunk ++ rest.flatten ∧
      ∀ j, chunk'.length + (rest'.take j).flatten.length
        = max chunk'.length (chunk.length + (rest.take j).flatten.length) := by
  rcases Nat.lt_or_ge chunk.length share with hlt | hge
  · induction rest generalizing chunk with
    | nil =>
        rw [List.flatten_nil, List.length_nil] at h
        omega
    | cons next rest ih =>
        rw [List.flatten_cons, List.length_append] at h
        rw [pull, if_pos hlt]
        dsimp only
        split_ifs with hdiff
        · have hlength : (chunk ++ next.take (share - chunk.length)).length = share := by
            rw [List.length_append, List.length_take]
            omega
          refine ⟨chunk ++ next.take (share - chunk.length),
            next.drop (share - chunk.length) :: rest, ?_, ?_, rfl, ?_, fun j => ?_⟩
          · rw [pull_of_le hlength.ge]
            rfl
          · rw [hlength, max_eq_left hlt.le]
          · rw [List.flatten_cons, List.flatten_cons, ← List.append_assoc, List.append_assoc chunk,
              List.take_append_drop, List.append_assoc]
          · rw [hlength]
            cases j with
            | zero =>
                rw [List.take_zero, List.take_zero, List.flatten_nil, List.length_nil]
                omega
            | succ j =>
                simp only [List.take_succ_cons, List.flatten_cons, List.length_append,
                  List.length_drop]
                omega
        · have hlength : (chunk ++ next).length = chunk.length + next.length := List.length_append
          obtain ⟨chunk', rest', hpull, hchunk, hrest, hflatten, hends⟩ :
              ∃ chunk' rest', pull share (chunk ++ next) rest = some (chunk', rest') ∧
                chunk'.length = share ∧ rest'.length = rest.length ∧
                chunk' ++ rest'.flatten = chunk ++ next ++ rest.flatten ∧
                ∀ j, share + (rest'.take j).flatten.length
                  = max share (chunk.length + next.length + (rest.take j).flatten.length) := by
            rcases Nat.lt_or_ge (chunk ++ next).length share with hless | hmore
            · obtain ⟨chunk', rest', hpull, hchunk, hrest, hflatten, hends⟩ := ih (by omega) hless
              rw [max_eq_left hless.le] at hchunk
              rw [hchunk, hlength] at hends
              exact ⟨chunk', rest', hpull, hchunk, hrest, hflatten, hends⟩
            · exact ⟨_, _, pull_of_le hmore rest, by omega, rfl, rfl, fun j => by omega⟩
          refine ⟨chunk', [] :: rest', ?_, ?_, ?_, ?_, fun j => ?_⟩
          · rw [hpull]
            rfl
          · rw [hchunk, max_eq_left hlt.le]
          · rw [List.length_cons, List.length_cons, hrest]
          · rw [List.flatten_cons, List.nil_append, hflatten, List.flatten_cons, List.append_assoc]
          · rw [hchunk]
            cases j with
            | zero =>
                rw [List.take_zero, List.take_zero, List.flatten_nil, List.length_nil]
                omega
            | succ j =>
                have hend := hends j
                simp only [List.take_succ_cons, List.flatten_cons, List.length_append,
                  List.length_nil]
                omega
  · refine ⟨chunk, rest, pull_of_le hge rest, (max_eq_right hge).symm, rfl, rfl, fun j => ?_⟩
    rw [max_eq_right (Nat.le_add_right _ _)]

lemma pull_eq_none {share : ℕ} {chunk : List T} {rest : List (List T)}
    (h : chunk.length + rest.flatten.length < share) : pull share chunk rest = none := by
  induction rest generalizing chunk with
  | nil => rw [pull, if_pos (by simpa using h)]
  | cons next rest ih =>
      rw [List.flatten_cons, List.length_append] at h
      rw [pull, if_pos (by omega)]
      dsimp only
      rw [if_neg (by omega), ih (by rw [List.length_append]; omega)]
      rfl

def step (share : ℕ) (chunk : List T) (rest : List (List T)) : Option (List T × List (List T)) :=
  (pull share chunk rest).bind fun p => push share p.1 p.2

lemma step_spec {share : ℕ} {chunk : List T} {rest : List (List T)}
    (h : share ≤ chunk.length + rest.flatten.length) (hlast : rest = [] → chunk.length ≤ share) :
    ∃ rest', step share chunk rest = some ((chunk ++ rest.flatten).take share, rest') ∧
      rest'.length = rest.length ∧ rest'.flatten = (chunk ++ rest.flatten).drop share ∧
      ∀ j, 0 < j → share + (rest'.take j).flatten.length
        = max share (chunk.length + (rest.take j).flatten.length) := by
  obtain ⟨chunk', rest', hpull, hchunk, hrest, hflatten, hends⟩ := pull_spec h
  rw [step, hpull, Option.bind_some, push]
  dsimp only
  split_ifs with hmore
  · cases rest' with
    | nil =>
        have hnil := List.length_eq_zero_iff.mp hrest.symm
        have := hlast hnil
        omega
    | cons next rest' =>
        have hshare : chunk'.length - (chunk'.length - share) = share := by omega
        rw [List.flatten_cons] at hflatten
        dsimp only
        rw [hshare]
        refine ⟨_, congrArg some (congrArg₂ Prod.mk ?_ rfl), hrest, ?_, fun j hj => ?_⟩
        · rw [← hflatten, List.take_append_of_le_length hmore.le]
        · rw [← hflatten, List.drop_append_of_le_length hmore.le, List.flatten_cons,
            List.append_assoc]
        · cases j with
          | zero => exact absurd hj (lt_irrefl 0)
          | succ j =>
              have hend := hends (j + 1)
              rw [List.take_succ_cons, List.flatten_cons, List.length_append] at hend ⊢
              rw [List.length_append, List.length_drop]
              omega
  · have hshare : chunk'.length = share := by omega
    refine ⟨rest', congrArg some (congrArg₂ Prod.mk ?_ rfl), hrest, ?_, fun j _ => ?_⟩
    · rw [← hflatten, List.take_append_of_le_length hshare.ge, ← hshare, List.take_length]
    · rw [← hflatten, ← hshare, List.drop_left]
    · rw [← hshare]
      exact hends j

/-! ## All threads -/

lemma dataLoop_cons (share : ℕ) (shares : List ℕ) (chunk : List T) (rest : List (List T)) :
    dataLoop (share :: shares) (chunk :: rest) = (step share chunk rest).bind fun p =>
      (dataLoop shares p.2).map (p.1 :: ·) := by
  rw [dataLoop, step]
  cases pull share chunk rest with
  | none => rfl
  | some p =>
      simp only [Option.bind_eq_bind, Option.bind_some]
      cases push share p.1 p.2 with
      | none => rfl
      | some q => cases h : dataLoop shares q.2 <;> simp [h]

/-- **All threads** get their shares. -/
theorem dataLoop_spec {shares : List ℕ} {chunks : List (List T)}
    (hlength : shares.length = chunks.length) (hsum : shares.sum = chunks.flatten.length) :
    dataLoop shares chunks = some (shares.splitLengths chunks.flatten) := by
  induction shares generalizing chunks with
  | nil =>
      obtain rfl := List.length_eq_zero_iff.mp hlength.symm
      rfl
  | cons share shares ih =>
      rcases chunks with _ | ⟨chunk, rest⟩
      · cases hlength
      rw [List.length_cons, List.length_cons, Nat.add_right_cancel_iff] at hlength
      rw [List.sum_cons, List.flatten_cons, List.length_append] at hsum
      have hlast : rest = [] → chunk.length ≤ share := by
        rintro rfl
        obtain rfl := List.length_eq_zero_iff.mp hlength
        simpa using hsum.ge
      obtain ⟨rest', hstep, hrest, hflatten, -⟩ := step_spec (by omega) hlast
      have hrestsum : shares.sum = rest'.flatten.length := by
        rw [hflatten, List.length_drop, List.length_append]
        omega
      rw [dataLoop_cons, hstep, Option.bind_some, ih (hlength.trans hrest.symm) hrestsum,
        Option.map_some, hflatten, List.splitLengths_cons, List.flatten_cons]

lemma dataLoop_eq_none {shares : List ℕ} {chunks : List (List T)}
    (hlength : shares.length = chunks.length) (hsum : chunks.flatten.length < shares.sum) :
    dataLoop shares chunks = none := by
  induction shares generalizing chunks with
  | nil =>
      rw [List.sum_nil] at hsum
      exact absurd hsum (Nat.not_lt_zero _)
  | cons share shares ih =>
      rcases chunks with _ | ⟨chunk, rest⟩
      · cases hlength
      rw [List.length_cons, List.length_cons, Nat.add_right_cancel_iff] at hlength
      rw [List.sum_cons, List.flatten_cons, List.length_append] at hsum
      rw [dataLoop_cons]
      rcases Nat.lt_or_ge (chunk.length + rest.flatten.length) share with hlt | hge
      · rw [step, pull_eq_none hlt]
        rfl
      · have hlast : rest = [] → chunk.length ≤ share := by
          rintro rfl
          obtain rfl := List.length_eq_zero_iff.mp hlength
          simp at hsum
          omega
        obtain ⟨rest', hstep, hrest, hflatten, -⟩ := step_spec hge hlast
        have hrestsum : rest'.flatten.length < shares.sum := by
          rw [hflatten, List.length_drop, List.length_append]
          omega
        rw [hstep, Option.bind_some, ih (hlength.trans hrest.symm) hrestsum, Option.map_none]

/-! ## The default distribution -/

lemma sum_shares {threads elements : ℕ} (d : Distribution threads elements) (esize : ℕ) :
    (shares threads esize d.borders).sum = esize * elements := by
  have hshares : shares threads esize d.borders
      = ((List.range threads).map fun t => d.border (t + 1) - d.border t).map (esize * ·) := by
    rw [shares, List.map_map]
    refine List.map_congr_left fun t ht => ?_
    have ht := List.mem_range.mp ht
    rw [List.getD_eq_getElem?_getD, List.getD_eq_getElem?_getD, d.getElem?_eq ht.le,
      d.getElem?_eq ht]
    rfl
  rw [hshares, List.sum_map_mul_left, List.map_id', sum_sizes d le_rfl, d.border_size]

lemma getElem_shares {threads elements : ℕ} (d : Distribution threads elements) (esize : ℕ) {t : ℕ}
    (ht : t < threads) (h : t < (shares threads esize d.borders).length) :
    (shares threads esize d.borders)[t] = esize * (d.border (t + 1) - d.border t) := by
  simp only [shares, List.getElem_map, List.getElem_range]
  rw [List.getD_eq_getElem?_getD, List.getD_eq_getElem?_getD, d.getElem?_eq ht.le, d.getElem?_eq ht]
  rfl

/-- **The data are balanced**: they are the same, and each thread has those of its elements. -/
def Balanced {elements : ℕ} (esize : ℕ) (data : List (List T))
    (d : Distribution data.length elements) (out : List (List T)) : Prop :=
  out.flatten = data.flatten ∧ out.length = data.length ∧
    ∀ t < data.length, (out.getD t []).length = esize * (d.border (t + 1) - d.border t)

lemma balance_supplied {elements esize : ℕ} {data : List (List T)}
    (htotal : data.flatten.length = esize * elements) (d : Distribution data.length elements) :
    ∃ out, balance esize data (some d.borders) = some out ∧ Balanced esize data d out := by
  have hlength : (shares data.length esize d.borders).length = data.length := by
    rw [shares, List.length_map, List.length_range]
  have hsum := sum_shares d esize
  rw [← htotal] at hsum
  refine ⟨(shares data.length esize d.borders).splitLengths data.flatten,
    dataLoop_spec hlength hsum, ?_, ?_, fun t ht => ?_⟩
  · exact List.flatten_splitLengths _ _ hsum.ge
  · rw [List.length_splitLengths, hlength]
  · have hlt : t < (shares data.length esize d.borders).length := by rwa [hlength]
    have hsplit : t < ((shares data.length esize d.borders).splitLengths data.flatten).length := by
      rwa [List.length_splitLengths]
    rw [List.getD_eq_getElem _ _ hsplit, List.splitLengths_length_getElem _ _ hsum.le,
      getElem_shares d esize ht hlt]

/-- **`serializededata::balance`** gives each thread its elements if and only if a distribution is
supplied, an element is one data item, or there are no data. -/
theorem balance_balanced_iff {elements esize : ℕ} (data : List (List T)) (hesize : 0 < esize)
    (hthreads : 0 < data.length) (htotal : data.flatten.length = esize * elements)
    (distribution : Option (Distribution data.length elements)) :
    (∃ out, balance esize data (distribution.map Distribution.borders) = some out ∧
      Balanced esize data (distribution.getD (Distribution.uniform hthreads elements)) out) ↔
    distribution ≠ none ∨ esize = 1 ∨ data.flatten = [] := by
  cases distribution with
  | some d => exact iff_of_true (balance_supplied htotal d) (Or.inl (Option.some_ne_none d))
  | none =>
      have hdefault : balance esize data none = balance esize data
          (some (Distribution.uniform hthreads data.flatten.length).borders) := by
        rw [balance, balance, Option.getD_none, Option.getD_some, ← List.length_flatten]
        rfl
      rw [Option.map_none, Option.getD_none, hdefault]
      by_cases hunit : data.flatten.length = elements
      · rw [hunit]
        refine iff_of_true (balance_supplied htotal _) (Or.inr ?_)
        rcases Nat.eq_zero_or_pos elements with hzero | hpos
        · exact Or.inr (List.length_eq_zero_iff.mp (hunit.trans hzero))
        · refine Or.inl (Nat.eq_of_mul_eq_mul_right hpos ?_)
          rw [← htotal, hunit, Nat.one_mul]
      · have hlarge : data.flatten.length < esize * data.flatten.length := by
          have hpos : 0 < data.flatten.length := by
            rcases Nat.eq_zero_or_pos elements with hzero | hpos
            · rw [hzero, Nat.mul_zero] at htotal
              omega
            · rw [htotal]
              exact Nat.mul_pos hesize hpos
          have hne : esize ≠ 1 := by
            rintro rfl
            exact hunit (htotal.trans (Nat.one_mul elements))
          exact lt_mul_of_one_lt_left hpos (by omega)
        refine iff_of_false ?_ ?_
        · rintro ⟨out, hout, -⟩
          rw [balance, Option.getD_some, dataLoop_eq_none] at hout
          · cases hout
          · rw [shares, List.length_map, List.length_range]
          · rwa [sum_shares]
        · rintro (h | rfl | h)
          · exact h rfl
          · omega
          · rw [h] at hlarge
            simp at hlarge

theorem balance_balanced_iff_pair :
    (∃ out, balance 1 [[1, 2], []] none = some out ∧
      Balanced 1 [[1, 2], []] (Distribution.uniform Nat.two_pos 2) out) ↔
    (none : Option (Distribution 2 2)) ≠ none ∨ 1 = 1 ∨ [[1, 2], []].flatten = ([] : List ℕ) :=
  balance_balanced_iff [[1, 2], []] Nat.one_pos Nat.two_pos rfl none

/-- One thread with one element of two data items. -/
theorem balance_not_balanced :
    ¬∃ out, balance 2 [[1, 2]] none = some out ∧
      Balanced 2 [[1, 2]] (Distribution.uniform Nat.one_pos 1) out := by
  rintro ⟨out, hout, -⟩
  have hnone : balance 2 [[1, 2]] none = none := by decide
  rw [hnone] at hout
  cases hout

end ThreadBalance

end Espreso
