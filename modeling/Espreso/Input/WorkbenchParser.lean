import Espreso.Basis.Distribution
import Espreso.Basis.Parser
import Espreso.Lib.Lines

/-!
# Blocks of a Workbench file on more ranks

* `Ranks` — the split of a file between the ranks, at the ends of lines.
* `Ranks.rankOf` — `WorkbenchParser::fillDistribution`: the ranks that hold the first and the last
  byte of a block.
* `getFirst`, `getLast` — the part of a block on a rank.
* `Ranks.clamp` — the place in a block that is closest to a border.
-/

namespace Espreso

namespace Workbench

open Lines

def MAX_LINE_STEP : ℕ := 3

/-- **The split of a file between the ranks** (`_pfile.offsets`), and the number of threads of each
rank. -/
structure Ranks (text : List Char) where
  size : ℕ
  offsets : Distribution size text.length
  atLines : ∀ r ≤ size, IsStart '\n' text (offsets.border r) ∨ offsets.border r = text.length
  threads : ℕ
  threads_pos : 0 < threads

/-- `begin`, or its place in the block on the first rank. -/
def getFirst (fRank lRank first rank start : ℕ) : ℕ :=
  if fRank ≤ rank ∧ rank ≤ lRank then if fRank = rank then first else start else start

/-- `end`, or its place in the block on the last rank. -/
def getLast (fRank lRank last rank start stop : ℕ) : ℕ :=
  if fRank ≤ rank ∧ rank ≤ lRank then if lRank = rank then last else stop else start

namespace Ranks

variable {text : List Char} (R : Ranks text)

def rankOf (position : ℕ) : ℕ := lowerBound R.offsets.borders (position + 1) - 1

lemma rankOf_spec (position : ℕ) : R.rankOf position ≤ R.size ∧
    R.offsets.border (R.rankOf position) ≤ position ∧
    (R.rankOf position < R.size → position < R.offsets.border (R.rankOf position + 1)) := by
  obtain ⟨r, hr, hle, hlow, hhigh⟩ := lowerBound_spec R.offsets position
  rw [rankOf, hr, Nat.add_sub_cancel]
  exact ⟨hle, hlow, hhigh⟩

lemma rankOf_lt_iff {position r : ℕ} (hr : r ≤ R.size) :
    R.rankOf position < r ↔ position < R.offsets.border r := by
  obtain ⟨hle, hlow, hhigh⟩ := R.rankOf_spec position
  constructor
  · intro hlt
    exact (hhigh (hlt.trans_le hr)).trans_le (R.offsets.border_mono hlt hr)
  · intro hlt
    by_contra hge
    have := R.offsets.border_mono (Nat.le_of_not_lt hge) hle
    omega

def clamp (first last x : ℕ) : ℕ := min last (max first x)

lemma clamp_mono (first last : ℕ) {x y : ℕ} (h : x ≤ y) : clamp first last x ≤ clamp first last y :=
  min_le_min_left _ (max_le_max_left _ h)

lemma clamp_of_le {first last x : ℕ} (hle : first ≤ last) (h : x ≤ first) :
    clamp first last x = first := by
  rw [clamp, max_eq_left h, min_eq_right hle]

lemma clamp_of_ge {first last x : ℕ} (h : last ≤ x) : clamp first last x = last :=
  min_eq_left (h.trans (le_max_right _ _))

lemma clamp_of_mem {first last x : ℕ} (hfirst : first ≤ x) (hlast : x ≤ last) :
    clamp first last x = x := by
  rw [clamp, max_eq_right hfirst, min_eq_right hlast]

variable {first last rank : ℕ}

lemma rankOf_le_rankOf (hle : first ≤ last) : R.rankOf first ≤ R.rankOf last := by
  by_contra hlt
  have h := (R.rankOf_lt_iff (R.rankOf_spec first).1).mp (Nat.lt_of_not_le hlt)
  have := (R.rankOf_spec first).2.1
  omega

/-- **The part of a block on one of its ranks** begins at the place that is closest to the border of
the rank. -/
lemma getFirst_eq (hle : first ≤ last) (hfirst : R.rankOf first ≤ rank)
    (hlast : rank ≤ R.rankOf last) :
    getFirst (R.rankOf first) (R.rankOf last) first rank (R.offsets.border rank)
      = clamp first last (R.offsets.border rank) := by
  have hsize : rank ≤ R.size := hlast.trans (R.rankOf_spec last).1
  rw [getFirst, if_pos ⟨hfirst, hlast⟩]
  split_ifs with heq
  · refine (clamp_of_le hle ?_).symm
    rw [← heq]
    exact (R.rankOf_spec first).2.1
  · have hlow := (R.rankOf_lt_iff hsize).mp (Nat.lt_of_le_of_ne hfirst heq)
    have hhigh := R.offsets.border_mono hlast (R.rankOf_spec last).1
    exact (clamp_of_mem hlow.le (hhigh.trans (R.rankOf_spec last).2.1)).symm

lemma getLast_eq (hrank : rank < R.size) (hfirst : R.rankOf first ≤ rank)
    (hlast : rank ≤ R.rankOf last) :
    getLast (R.rankOf first) (R.rankOf last) last rank (R.offsets.border rank)
        (R.offsets.border (rank + 1))
      = clamp first last (R.offsets.border (rank + 1)) := by
  rw [getLast, if_pos ⟨hfirst, hlast⟩]
  split_ifs with heq
  · refine (clamp_of_ge ?_).symm
    rw [← heq] at hrank ⊢
    exact ((R.rankOf_spec last).2.2 hrank).le
  · have hlow := (R.rankOf_lt_iff hrank).mp (Nat.lt_succ_of_le hfirst)
    have hnext : rank + 1 ≤ R.rankOf last := Nat.lt_of_le_of_ne hlast fun h => heq h.symm
    have hhigh := R.offsets.border_mono hnext (R.rankOf_spec last).1
    exact (clamp_of_mem hlow.le (hhigh.trans (R.rankOf_spec last).2.1)).symm

lemma getLast_eq_getFirst (houtside : ¬(R.rankOf first ≤ rank ∧ rank ≤ R.rankOf last))
    (start stop : ℕ) :
    getLast (R.rankOf first) (R.rankOf last) last rank start stop
      = getFirst (R.rankOf first) (R.rankOf last) first rank start := by
  rw [getLast, getFirst, if_neg houtside, if_neg houtside]

lemma clamp_eq_of_outside (hle : first ≤ last) (hrank : rank < R.size)
    (houtside : ¬(R.rankOf first ≤ rank ∧ rank ≤ R.rankOf last)) :
    clamp first last (R.offsets.border rank) = clamp first last (R.offsets.border (rank + 1)) := by
  have hmono := R.offsets.border_mono (Nat.le_add_right rank 1) hrank
  rcases Nat.lt_or_ge rank (R.rankOf first) with hlt | hge
  · have h := R.offsets.border_mono hlt (R.rankOf_spec first).1
    have hlow := h.trans (R.rankOf_spec first).2.1
    rw [clamp_of_le hle hlow, clamp_of_le hle (hmono.trans hlow)]
  · have hgt : R.rankOf last < rank := Nat.lt_of_not_le fun h => houtside ⟨hge, h⟩
    have h := (R.rankOf_lt_iff hrank.le).mp hgt
    rw [clamp_of_ge h.le, clamp_of_ge (h.le.trans hmono)]

end Ranks

end Workbench

end Espreso
