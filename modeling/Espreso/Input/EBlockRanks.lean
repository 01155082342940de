import Espreso.Input.EBlockBorders

/-!
# Elements on more ranks

* `EBlockData.border` — the element at which a rank begins.
* `EBlockData.solid_spec` — the elements that one rank reads.
* `EBlocks.ReadOnce` — each element is read by exactly one rank, from the lines that it holds.
* `EBlocks.readOnce_of_regular` — this holds if the first fields of each block are separated.
-/

namespace Espreso

namespace Workbench

open Lines EBlock

namespace EBlockData

variable {text : List Char} {B : EBlockData text} (R : Ranks text)

/-! ## Borders in a block -/

lemma exists_position (hsolid : B.Solkey = true) {r : ℕ} (hr : r ≤ R.size)
    (hinside : B.Inside (R.offsets.border r)) :
    ∃ k ≤ B.count, R.offsets.border r = B.position B.nnodes k ∨
      (k < B.count ∧ 8 < B.nnodes ∧
        R.offsets.border r = B.position B.nnodes k + B.firstLine B.nnodes) := by
  have h := B.layout hsolid
  have hunit : 0 < B.unit B.nnodes := h.unit_pos
  have hlast : B.last = B.first + B.count * B.unit B.nnodes := h.last_eq
  obtain ⟨hfirst, hle⟩ := hinside
  have hstart : R.offsets.border r = B.last ∨ text[R.offsets.border r - 1]? = some '\n' := by
    rcases R.atLines r hr with (hzero | hnl) | htotal
    · omega
    · exact Or.inr hnl
    · left
      have := B.last_le
      omega
  rcases hstart with heq | hnl
  · exact ⟨B.count, le_rfl, Or.inl (heq.trans h.last_eq)⟩
  · -- the symbol in front of the border is in an element
    have hdiv : R.offsets.border r - 1 - B.first < B.count * B.unit B.nnodes := by omega
    have hk := Nat.div_lt_of_lt_mul (Nat.mul_comm _ _ ▸ hdiv)
    have hsum := Nat.div_add_mod' (R.offsets.border r - 1 - B.first) (B.unit B.nnodes)
    have hmod := Nat.mod_lt (R.offsets.border r - 1 - B.first) hunit
    set k := (R.offsets.border r - 1 - B.first) / B.unit B.nnodes
    set i := (R.offsets.border r - 1 - B.first) % B.unit B.nnodes
    have hplace : R.offsets.border r - 1 = B.position B.nnodes k + i := by
      rw [position_eq]
      omega
    rw [hplace] at hnl
    have hborder : R.offsets.border r = B.position B.nnodes k + (i + 1) := by omega
    rcases (h.newline_iff k hk i hmod).mp hnl with hend | hend
    · rcases Nat.lt_or_ge 8 B.nnodes with hlt | hge
      · exact ⟨k, hk.le, Or.inr ⟨hk, hlt, by rw [hborder, hend]⟩⟩
      · have hzero : B.secondLine B.nnodes = 0 := if_neg (by omega)
        refine ⟨k + 1, hk, Or.inl ?_⟩
        rw [position_succ, hborder, hend, hzero, Nat.add_zero]
    · refine ⟨k + 1, hk, Or.inl ?_⟩
      rw [position_succ, hborder, hend, Nat.add_assoc]

/-- **The element at which a rank begins**: the next one behind its border. -/
def border (B : EBlockData text) (r : ℕ) : ℕ :=
  (Ranks.clamp B.first B.last (R.offsets.border r) - B.first + B.secondLine B.nnodes)
    / B.unit B.nnodes

lemma border_mono {r : ℕ} (hr : r < R.size) : B.border R r ≤ B.border R (r + 1) :=
  Nat.div_le_div_right (Nat.add_le_add_right (Nat.sub_le_sub_right
    (Ranks.clamp_mono _ _ (R.offsets.border_mono (Nat.le_add_right r 1) hr)) _) _)

lemma div_position (hsolid : B.Solkey = true) (k : ℕ) :
    (B.position B.nnodes k - B.first + B.secondLine B.nnodes) / B.unit B.nnodes = k := by
  have h := B.layout hsolid
  have hunit : 0 < B.unit B.nnodes := h.unit_pos
  rw [position_eq, Nat.add_sub_cancel_left, Nat.add_comm, Nat.add_mul_div_right _ _ hunit,
    Nat.div_eq_of_lt h.secondLine_lt, Nat.zero_add]

lemma border_of_le (hsolid : B.Solkey = true) {r : ℕ} (h : R.offsets.border r ≤ B.first) :
    B.border R r = 0 := by
  have hposition := div_position hsolid 0
  rw [position_eq, Nat.zero_mul, Nat.add_zero] at hposition
  rw [border, Ranks.clamp_of_le B.first_le_last h, hposition]

lemma border_of_ge (hsolid : B.Solkey = true) {r : ℕ} (h : B.last ≤ R.offsets.border r) :
    B.border R r = B.count := by
  rw [border, Ranks.clamp_of_ge h, (B.layout hsolid).last_eq, div_position hsolid]

/-- **A border in a block has moved to the element at which the rank begins.** -/
lemma add_shift (hsolid : B.Solkey = true) {r : ℕ} (hr : r ≤ R.size)
    (hinside : B.Inside (R.offsets.border r)) :
    R.offsets.border r + B.shift (R.offsets.border r) = B.position B.nnodes (B.border R r) ∧
      B.border R r ≤ B.count := by
  have h := B.layout hsolid
  have hunit : 0 < B.unit B.nnodes := h.unit_pos
  obtain ⟨k, hk, heq | ⟨hlt, hn, heq⟩⟩ := exists_position R hsolid hr hinside
  · have hborder : B.border R r = k := by
      rw [border, Ranks.clamp_of_mem hinside.1.le hinside.2, heq, div_position hsolid]
    rw [hborder, shift, heq, position_eq, Nat.add_sub_cancel_left, Nat.mul_mod_left]
    exact ⟨rfl, hk⟩
  · have hborder : B.border R r = k + 1 := by
      have hsum : B.position B.nnodes k + B.firstLine B.nnodes - B.first + B.secondLine B.nnodes
          = (k + 1) * B.unit B.nnodes := by
        rw [Nat.succ_mul, position_eq]
        have : B.unit B.nnodes = B.firstLine B.nnodes + B.secondLine B.nnodes := rfl
        omega
      rw [border, Ranks.clamp_of_mem hinside.1.le hinside.2, heq, hsum, Nat.mul_div_cancel _ hunit]
    have hfirst : B.firstLine B.nnodes < B.unit B.nnodes := by
      have hpos : 0 < B.secondLine B.nnodes := by
        rw [secondLine, if_pos hn]
        exact Nat.add_pos_right _ h.lineEndSize_pos
      rw [unit]
      omega
    have hmod : (B.position B.nnodes k + B.firstLine B.nnodes - B.first) % B.unit B.nnodes ≠ 0 := by
      rw [position_eq, Nat.add_assoc, Nat.add_sub_cancel_left, Nat.mul_add_mod_of_lt hfirst]
      exact h.firstLine_pos.ne'
    rw [hborder, shift, heq, if_pos hmod, position_succ]
    exact ⟨rfl, hlt⟩

lemma border_le_count (hsolid : B.Solkey = true) {r : ℕ} (hr : r ≤ R.size) :
    B.border R r ≤ B.count := by
  rcases Nat.lt_or_ge B.first (R.offsets.border r) with hfirst | hfirst
  · rcases Nat.lt_or_ge B.last (R.offsets.border r) with hlast | hlast
    · exact (border_of_ge R hsolid hlast.le).le
    · exact (add_shift R hsolid hr ⟨hfirst, hlast⟩).2
  · rw [border_of_le R hsolid hfirst]
    exact Nat.zero_le _

/-! ## The elements of a rank -/

lemma position_add (k l : ℕ) :
    B.position B.nnodes k + B.unit B.nnodes * l = B.position B.nnodes (k + l) := by
  rw [position_eq, position_eq, Nat.add_mul, Nat.mul_comm (B.unit _), Nat.add_assoc]

lemma readThread_eq (hsolid : B.Solkey = true) {et : List ℤ}
    (hregular : B.Regular et B.nnodes B.count) {a b : ℕ} (hab : a ≤ b) (hb : b ≤ B.count) :
    ∃ elements,
      B.readThread et (B.position B.nnodes a) (B.position B.nnodes b) = some elements ∧
      elements.map some = (List.range' a (b - a)).map (B.elementAt et B.nnodes) := by
  have h := B.layout hsolid
  have hfuel : b - a ≤ B.position B.nnodes b - B.position B.nnodes a := by
    rw [position_eq, position_eq, Nat.add_sub_add_left, ← Nat.sub_mul]
    exact Nat.le_mul_of_pos_right _ h.unit_pos
  exact readLoop_eq h hb hregular.types hab hfuel (List.length_replicate ..)

lemma readThreads_eq (hsolid : B.Solkey = true) {et : List ℤ}
    (hregular : B.Regular et B.nnodes B.count) {a b : ℕ} (hab : a ≤ b) (hb : b ≤ B.count) :
    ∃ elements, ((List.range R.threads).mapM fun t =>
        B.readThread et
          (B.position B.nnodes a + B.unit B.nnodes * (distribute R.threads (b - a)).getD t 0)
          (B.position B.nnodes a + B.unit B.nnodes * (distribute R.threads (b - a)).getD (t + 1) 0))
        = some elements ∧
      elements.flatten.map some = (List.range' a (b - a)).map (B.elementAt et B.nnodes) := by
  set td : ℕ → ℕ := fun t => (distribute R.threads (b - a)).getD t 0
  have hmono : ∀ t < R.threads, td t ≤ td (t + 1) := fun t ht => distribute_getD_mono _ ht
  have hlast : td R.threads = b - a := distribute_getD_last _ _
  have hfirst : td 0 = 0 := distribute_getD_zero R.threads_pos _
  have hle : ∀ t ≤ R.threads, td t ≤ b - a := fun t ht => distribute_getD_le _ ht
  have hread : ∀ t, ∃ elements, t < R.threads →
      B.readThread et (B.position B.nnodes a + B.unit B.nnodes * td t)
        (B.position B.nnodes a + B.unit B.nnodes * td (t + 1)) = some elements ∧
      elements.map some
        = (List.range' (a + td t) (td (t + 1) - td t)).map (B.elementAt et B.nnodes) := by
    intro t
    by_cases ht : t < R.threads
    · have hend := hle (t + 1) ht
      obtain ⟨elements, hread, hmap⟩ := readThread_eq hsolid hregular
        (Nat.add_le_add_left (hmono t ht) a) (show a + td (t + 1) ≤ B.count by omega)
      rw [Nat.add_sub_add_left] at hmap
      rw [position_add, position_add]
      exact ⟨elements, fun _ => ⟨hread, hmap⟩⟩
    · exact ⟨[], fun h => absurd h ht⟩
  choose elements helements using hread
  refine ⟨(List.range R.threads).map elements,
    Fallible.mapM_eq_some fun t ht => (helements t (List.mem_range.mp ht)).1, ?_⟩
  have hranges := (flatMap_range' (fun t => a + td t) R.threads
    fun t ht => Nat.add_le_add_left (hmono t ht) a).1
  simp only [hfirst, hlast, Nat.add_sub_add_left, Nat.add_zero, Nat.add_sub_cancel_left] at hranges
  rw [← List.flatMap_def, List.map_flatMap, ← hranges, List.map_flatMap]
  exact List.flatMap_congr fun t ht => (helements t (List.mem_range.mp ht)).2

lemma getFirst_eq (hsolid : B.Solkey = true) {rank : ℕ} {s : Borders}
    (hstart : B.Inside (R.offsets.border rank) →
      s.start = R.offsets.border rank + B.shift (R.offsets.border rank))
    (hmem : B.fRank R ≤ rank ∧ rank ≤ B.lRank R) :
    getFirst (B.fRank R) (B.lRank R) B.first rank s.start
      = B.position B.nnodes (B.border R rank) := by
  have hspec := R.rankOf_spec B.last
  have hrank : rank ≤ R.size := hmem.2.trans hspec.1
  rw [getFirst, if_pos hmem]
  split_ifs with heq
  · have hle : R.offsets.border rank ≤ B.first := heq ▸ (R.rankOf_spec B.first).2.1
    rw [border_of_le R hsolid hle, position_eq, Nat.zero_mul, Nat.add_zero]
  · have hlow := (R.rankOf_lt_iff hrank).mp (Nat.lt_of_le_of_ne hmem.1 heq)
    have hhigh := (R.offsets.border_mono hmem.2 hspec.1).trans hspec.2.1
    rw [hstart ⟨hlow, hhigh⟩, (add_shift R hsolid hrank ⟨hlow, hhigh⟩).1]

lemma getLast_eq (hsolid : B.Solkey = true) {rank : ℕ} (hrank : rank < R.size) {s : Borders}
    (hstop : B.Inside (R.offsets.border (rank + 1)) →
      s.stop = R.offsets.border (rank + 1) + B.shift (R.offsets.border (rank + 1)))
    (hmem : B.fRank R ≤ rank ∧ rank ≤ B.lRank R) :
    getLast (B.fRank R) (B.lRank R) B.last rank s.start s.stop
      = B.position B.nnodes (B.border R (rank + 1)) := by
  have hspec := R.rankOf_spec B.last
  rw [getLast, if_pos hmem]
  split_ifs with heq
  · have hlt : B.last < R.offsets.border (rank + 1) := by
      rw [← R.rankOf_lt_iff hrank]
      exact Nat.lt_succ_of_le heq.le
    rw [border_of_ge R hsolid hlt.le]
    exact (B.layout hsolid).last_eq
  · have hlow := (R.rankOf_lt_iff hrank).mp (Nat.lt_succ_of_le hmem.1)
    have hnext : rank + 1 ≤ B.lRank R := Nat.lt_of_le_of_ne hmem.2 fun h => heq h.symm
    have hhigh := (R.offsets.border_mono hnext hspec.1).trans hspec.2.1
    rw [hstop ⟨hlow, hhigh⟩, (add_shift R hsolid hrank ⟨hlow, hhigh⟩).1]

/-- **The elements that a rank reads**, if its borders have moved to elements. -/
lemma solid_spec (hsolid : B.Solkey = true) {et : List ℤ}
    (hregular : B.Regular et B.nnodes B.count) {rank : ℕ} (hrank : rank < R.size) {s : Borders}
    (hstart : B.Inside (R.offsets.border rank) →
      s.start = R.offsets.border rank + B.shift (R.offsets.border rank))
    (hstop : B.Inside (R.offsets.border (rank + 1)) →
      s.stop = R.offsets.border (rank + 1) + B.shift (R.offsets.border (rank + 1))) :
    ∃ elements, B.solid R et rank s = some elements ∧ elements.map some
      = (List.range' (B.border R rank) (B.border R (rank + 1) - B.border R rank)).map
        (B.elementAt et B.nnodes) := by
  have h := B.layout hsolid
  have hunit : 0 < B.unit B.nnodes := h.unit_pos
  rw [solid, nodes_eq h hregular]
  simp only [Option.bind_eq_bind, Option.bind_some, h.elementSize_eq, Int.toNat_natCast,
    if_pos hunit]
  by_cases hmem : B.fRank R ≤ rank ∧ rank ≤ B.lRank R
  · have hsize : (B.position B.nnodes (B.border R (rank + 1)) - B.position B.nnodes (B.border R rank))
        / B.unit B.nnodes = B.border R (rank + 1) - B.border R rank := by
      rw [position_eq, position_eq, Nat.add_sub_add_left, ← Nat.sub_mul, Nat.mul_div_cancel _ hunit]
    obtain ⟨elements, hread, hmap⟩ := readThreads_eq R hsolid hregular (border_mono R hrank)
      (border_le_count R hsolid hrank)
    rw [getFirst_eq R hsolid hstart hmem, getLast_eq R hsolid hrank hstop hmem, hsize, hread]
    exact ⟨elements.flatten, rfl, hmap⟩
  · -- the rank has no part of the block
    have hnone : ∀ start : ℕ, ((List.range R.threads).mapM fun t =>
        B.readThread et (start + B.unit B.nnodes * (distribute R.threads 0).getD t 0)
          (start + B.unit B.nnodes * (distribute R.threads 0).getD (t + 1) 0))
        = some ((List.range R.threads).map fun _ => []) := by
      intro start
      refine Fallible.mapM_eq_some fun t ht => ?_
      have ht := List.mem_range.mp ht
      rw [Nat.le_zero.mp (distribute_getD_le 0 ht.le), Nat.le_zero.mp (distribute_getD_le 0 ht),
        readThread, Nat.sub_self, readLoop]
    have hborder : B.border R rank = B.border R (rank + 1) := by
      rw [border, border, R.clamp_eq_of_outside B.first_le_last hrank hmem]
    have hlast : getLast (B.fRank R) (B.lRank R) B.last rank s.start s.stop
        = getFirst (B.fRank R) (B.lRank R) B.first rank s.start := R.getLast_eq_getFirst hmem _ _
    rw [hlast, Nat.sub_self, Nat.zero_div, hnone, hborder, Nat.sub_self]
    exact ⟨_, rfl, by simp⟩

end EBlockData

namespace EBlocks

variable {text : List Char} (F : EBlocks text) (R : Ranks text)

def rankText (rank : ℕ) : List Char :=
  window text (R.offsets.border rank) (R.offsets.border (rank + 1))

/-- A rank holds the first lines of the next rank behind its range. -/
def held (rank : ℕ) : ℕ :=
  R.offsets.border (rank + 1) + (takeLines '\n' (MAX_LINE_STEP - 1) (rankText R (rank + 1))).length

/-- **Each element is read exactly once**, in the order of the file, and its lines are in the range of
the rank that reads it, that the rank holds. -/
def ReadOnce (et : List ℤ) : Prop :=
  ∃ borders : ℕ → Borders,
    (∀ rank < R.size,
      prepareData R (F.blocks.map EBlockData.toEBlock) rank = some (borders rank)) ∧
    ∀ B ∈ F.blocks, B.Solkey = true → ∃ elements : ℕ → List (ℕ × Element),
      (∀ rank < R.size, B.solid R et rank (borders rank) = some (elements rank)) ∧
      ((List.range R.size).flatMap elements).map some
        = (List.range B.count).map (B.elementAt et B.nnodes) ∧
      ∀ rank < R.size, ∀ e ∈ elements rank, (borders rank).start ≤ e.1 ∧
        e.1 + B.unit B.nnodes ≤ (borders rank).stop ∧ (borders rank).stop ≤ held R rank

variable {F R}

lemma elementAt_fst {B : EBlock text} {et : List ℤ} {n k : ℕ} {e : ℕ × Element}
    (h : B.elementAt et n k = some e) : e.1 = B.position n k := by
  rw [elementAt, Option.map_eq_some_iff] at h
  obtain ⟨_, -, rfl⟩ := h
  rfl

/-! ## The lines of an element -/

lemma last_le_first_or {B B' : EBlockData text} (hB : B ∈ F.blocks) (hB' : B' ∈ F.blocks)
    (hne : B ≠ B') : B.last ≤ B'.first ∨ B'.last ≤ B.first := by
  have : Std.Symm fun B B' : EBlockData text => B.last ≤ B'.first ∨ B'.last ≤ B.first :=
    ⟨fun _ _ h => h.symm⟩
  have hpair : F.blocks.Pairwise fun B B' => B.last ≤ B'.first ∨ B'.last ≤ B.first :=
    F.ordered.imp Or.inl
  exact hpair.forall hB hB' hne

lemma Final.le {x y : ℕ} (h : Final F.blocks x y) : x ≤ y := by
  by_cases hinside : ∃ B ∈ F.blocks, B.Solkey = true ∧ B.Inside x
  · obtain ⟨B, hB, hsolid, hx⟩ := hinside
    rw [h.inside B hB hsolid hx]
    exact Nat.le_add_right _ _
  · rw [h.outside fun B hB hsolid hx => hinside ⟨B, hB, hsolid, hx⟩]

lemma Final.le_first {B : EBlockData text} (hB : B ∈ F.blocks) {r y : ℕ} (hr : r ≤ R.size)
    (h : Final F.blocks (R.offsets.border r) y) (hle : R.offsets.border r ≤ B.first) :
    y ≤ B.first := by
  by_cases hinside : ∃ B' ∈ F.blocks, B'.Solkey = true ∧ B'.Inside (R.offsets.border r)
  · obtain ⟨B', hB', hsolid, hx⟩ := hinside
    obtain ⟨hmoved, hcount⟩ := EBlockData.add_shift R hsolid hr hx
    have hlast : y ≤ B'.last := by
      rw [h.inside B' hB' hsolid hx, hmoved, (B'.layout hsolid).last_eq]
      exact position_mono _ hcount
    have hne : B ≠ B' := by
      rintro rfl
      exact absurd hle (Nat.not_le.mpr hx.1)
    rcases last_le_first_or hB hB' hne with hbefore | hbehind
    · have := hx.1
      have := B.first_le_last
      omega
    · exact hlast.trans hbehind
  · rw [h.outside fun B' hB' hsolid hx => hinside ⟨B', hB', hsolid, hx⟩]
    exact hle

lemma secondLine_le {B : EBlockData text} (hsolid : B.Solkey = true) {r k : ℕ}
    (hline : 1 ≤ (rankText R r).count '\n') (hr : r < R.size) (hk : k < B.count) (hn : 8 < B.nnodes)
    (hborder : R.offsets.border r = B.position B.nnodes k + B.firstLine B.nnodes) :
    B.secondLine B.nnodes ≤ (takeLines '\n' 1 (rankText R r)).length := by
  have h := B.layout hsolid
  have hpos : 0 < B.secondLine B.nnodes := by
    rw [secondLine, if_pos hn]
    exact Nat.add_pos_right _ h.lineEndSize_pos
  have hnewline : ∀ i < B.secondLine B.nnodes,
      (text.drop (R.offsets.border r))[i]? = some '\n' ↔ i + 1 = B.secondLine B.nnodes := by
    intro i hi
    have hiff := h.newline_iff k hk (B.firstLine B.nnodes + i) (Nat.add_lt_add_left hi _)
    rw [List.getElem?_drop, hborder, Nat.add_assoc, hiff]
    omega
  have hone := takeLines_one (m := B.secondLine B.nnodes - 1)
    ((hnewline _ (by omega)).mpr (by omega)) fun i hi hnl => by
      have := (hnewline i (by omega)).mp hnl
      omega
  have hsplit : text.drop (R.offsets.border r)
      = rankText R r ++ text.drop (R.offsets.border (r + 1)) := by
    have hmono := R.offsets.border_mono (Nat.le_add_right r 1) hr
    rw [rankText, window]
    conv_lhs => rw [← List.take_append_drop (R.offsets.border (r + 1) - R.offsets.border r)
      (text.drop (R.offsets.border r)), List.drop_drop, Nat.add_sub_cancel' hmono]
  have hend : R.offsets.border r + B.secondLine B.nnodes ≤ text.length := by
    have hlast : B.position B.nnodes (k + 1) ≤ B.last :=
      h.last_eq ▸ position_mono _ (Nat.succ_le_of_lt hk)
    rw [position_succ, ← hborder] at hlast
    exact hlast.trans B.last_le
  rw [← takeLines_append hline (text.drop (R.offsets.border (r + 1))), ← hsplit, hone,
    Nat.sub_add_cancel hpos, List.length_take, List.length_drop]
  omega

lemma Final.le_held (hlines : ∀ rank < R.size, MAX_LINE_STEP ≤ (rankText R rank).count '\n')
    {rank y : ℕ} (hrank : rank < R.size) (h : Final F.blocks (R.offsets.border (rank + 1)) y) :
    y ≤ held R rank := by
  by_cases hinside : ∃ B ∈ F.blocks, B.Solkey = true ∧ B.Inside (R.offsets.border (rank + 1))
  · obtain ⟨B, hB, hsolid, hx⟩ := hinside
    have hlayout := B.layout hsolid
    rw [h.inside B hB hsolid hx, held]
    refine Nat.add_le_add_left ?_ _
    obtain ⟨k, -, heq | ⟨hk, hn, heq⟩⟩ :=
      EBlockData.exists_position R hsolid (show rank + 1 ≤ R.size from hrank) hx
    · rw [EBlockData.shift, heq, position_eq, Nat.add_sub_cancel_left, Nat.mul_mod_left]
      exact Nat.zero_le _
    · have hnext : rank + 1 < R.size := by
        refine Nat.lt_of_le_of_ne hrank fun hsize => ?_
        have hlast : B.position B.nnodes (k + 1) ≤ B.last :=
          hlayout.last_eq ▸ position_mono _ (Nat.succ_le_of_lt hk)
        have hpos : 0 < B.secondLine B.nnodes := by
          rw [secondLine, if_pos hn]
          exact Nat.add_pos_right _ hlayout.lineEndSize_pos
        have hle := B.last_le
        rw [hsize, R.offsets.border_size] at heq
        rw [position_succ] at hlast
        omega
      have hcount := hlines (rank + 1) hnext
      have hone : B.shift (R.offsets.border (rank + 1)) ≤ B.secondLine B.nnodes := by
        rw [EBlockData.shift]
        split_ifs
        · exact le_rfl
        · exact Nat.zero_le _
      rw [MAX_LINE_STEP] at hcount
      rw [MAX_LINE_STEP, show 3 - 1 = 1 + 1 from rfl, takeLines_add, List.length_append]
      exact hone.trans ((secondLine_le hsolid (by omega) hnext hk hn heq).trans
        (Nat.le_add_right _ _))
  · rw [h.outside fun B hB hsolid hx => hinside ⟨B, hB, hsolid, hx⟩]
    exact Nat.le_add_right _ _

/-! ## All ranks -/

lemma Final.le_position {B : EBlockData text} (hB : B ∈ F.blocks) (hsolid : B.Solkey = true)
    {rank y k : ℕ} (hrank : rank ≤ R.size) (h : Final F.blocks (R.offsets.border rank) y)
    (hk : B.border R rank ≤ k) (hcount : k < B.count) : y ≤ B.position B.nnodes k := by
  refine le_trans ?_ (position_mono _ hk)
  rcases Nat.lt_or_ge B.first (R.offsets.border rank) with hfirst | hfirst
  · rcases Nat.lt_or_ge B.last (R.offsets.border rank) with hlast | hlast
    · have := EBlockData.border_of_ge R hsolid hlast.le
      omega
    · rw [h.inside B hB hsolid ⟨hfirst, hlast⟩,
        (EBlockData.add_shift R hsolid hrank ⟨hfirst, hlast⟩).1]
  · exact (h.le_first hB hrank hfirst).trans (Nat.le_add_right _ _)

lemma Final.position_le {B : EBlockData text} (hB : B ∈ F.blocks) (hsolid : B.Solkey = true)
    {rank y k : ℕ} (hrank : rank ≤ R.size) (h : Final F.blocks (R.offsets.border rank) y)
    (hk : k < B.border R rank) : B.position B.nnodes (k + 1) ≤ y := by
  rcases Nat.lt_or_ge B.first (R.offsets.border rank) with hfirst | hfirst
  · rcases Nat.lt_or_ge B.last (R.offsets.border rank) with hlast | hlast
    · have hcount : k + 1 ≤ B.count := by
        rwa [EBlockData.border_of_ge R hsolid hlast.le] at hk
      have hend : B.position B.nnodes (k + 1) ≤ B.last :=
        (B.layout hsolid).last_eq ▸ position_mono _ hcount
      exact hend.trans (hlast.le.trans h.le)
    · rw [h.inside B hB hsolid ⟨hfirst, hlast⟩,
        (EBlockData.add_shift R hsolid hrank ⟨hfirst, hlast⟩).1]
      exact position_mono _ hk
  · rw [EBlockData.border_of_le R hsolid hfirst] at hk
    exact absurd hk (Nat.not_lt_zero k)

lemma flatMap_elements {B : EBlockData text} (hsolid : B.Solkey = true) {et : List ℤ}
    {elements : ℕ → List (ℕ × Element)}
    (h : ∀ rank < R.size, (elements rank).map some
      = (List.range' (B.border R rank) (B.border R (rank + 1) - B.border R rank)).map
        (B.elementAt et B.nnodes)) :
    ((List.range R.size).flatMap elements).map some
      = (List.range B.count).map (B.elementAt et B.nnodes) := by
  have hfirst : B.border R 0 = 0 :=
    EBlockData.border_of_le R hsolid (R.offsets.border_zero.le.trans (Nat.zero_le _))
  have hlast : B.border R R.size = B.count :=
    EBlockData.border_of_ge R hsolid (B.last_le.trans R.offsets.border_size.ge)
  have hranges := (flatMap_range' (B.border R) R.size fun r hr => EBlockData.border_mono R hr).1
  rw [hfirst, hlast, Nat.sub_zero, ← List.range_eq_range'] at hranges
  rw [← hranges, List.map_flatMap, List.map_flatMap]
  exact List.flatMap_congr fun r hr => h r (List.mem_range.mp hr)

/-- **Each element is read exactly once**, for every split of the lines and every number of threads,
if the elements are of the implemented types and the first ten fields of each block are separated. -/
theorem readOnce_of_regular (hlines : ∀ rank < R.size, MAX_LINE_STEP ≤ (rankText R rank).count '\n')
    {et : List ℤ}
    (hregular : ∀ B ∈ F.blocks, B.Solkey = true → B.Regular et B.nnodes B.count) :
    F.ReadOnce R et := by
  have hnodes : ∀ B ∈ F.blocks, B.Solkey = true → B.nodes = some (B.nnodes : ℤ) :=
    fun B hB hsolid => nodes_eq (B.layout hsolid) (hregular B hB hsolid)
  have hborders : ∀ rank, ∃ s, rank < R.size →
      prepareData R (F.blocks.map EBlockData.toEBlock) rank = some s ∧
      Final F.blocks (R.offsets.border rank) s.start ∧
      Final F.blocks (R.offsets.border (rank + 1)) s.stop := by
    intro rank
    by_cases hrank : rank < R.size
    · obtain ⟨s, hs⟩ := prepareData_spec F hrank hnodes
      exact ⟨s, fun _ => hs⟩
    · exact ⟨⟨fun _ => 0, 0, 0⟩, fun h => absurd h hrank⟩
  choose borders hfinal using hborders
  refine ⟨borders, fun rank hrank => (hfinal rank hrank).1, fun B hB hsolid => ?_⟩
  have hread : ∀ rank, ∃ elements, rank < R.size →
      B.solid R et rank (borders rank) = some elements ∧ elements.map some
        = (List.range' (B.border R rank) (B.border R (rank + 1) - B.border R rank)).map
          (B.elementAt et B.nnodes) := by
    intro rank
    by_cases hrank : rank < R.size
    · obtain ⟨elements, helements⟩ := EBlockData.solid_spec R hsolid (hregular B hB hsolid) hrank
        ((hfinal rank hrank).2.1.inside B hB hsolid) ((hfinal rank hrank).2.2.inside B hB hsolid)
      exact ⟨elements, fun _ => helements⟩
    · exact ⟨[], fun h => absurd h hrank⟩
  choose elements helements using hread
  refine ⟨elements, fun rank hrank => (helements rank hrank).1,
    flatMap_elements hsolid fun rank hrank => (helements rank hrank).2, ?_⟩
  intro rank hrank e he
  have hmem : some e ∈ (elements rank).map some := List.mem_map_of_mem he
  rw [(helements rank hrank).2] at hmem
  obtain ⟨k, hk, heq⟩ := List.mem_map.mp hmem
  rw [List.mem_range'_1] at hk
  have hnext : rank + 1 ≤ R.size := hrank
  have hcount := EBlockData.border_le_count R hsolid hnext
  have hlt : k < B.border R (rank + 1) := by omega
  have hstart := (hfinal rank hrank).2.1.le_position hB hsolid hrank.le hk.1 (by omega)
  have hstop := (hfinal rank hrank).2.2.position_le hB hsolid hnext hlt
  rw [position_succ, Nat.add_assoc] at hstop
  rw [elementAt_fst heq]
  exact ⟨hstart, hstop, (hfinal rank hrank).2.2.le_held hlines hrank⟩

/-! ## Two files -/

def line (width : ℕ) (values : List ℕ) : List Char :=
  (values.flatMap fun v =>
    List.replicate (width - (Nat.toDigits 10 v).length) ' ' ++ Nat.toDigits 10 v) ++ ['\n']

def fieldOf (s : List Char) : ℕ × List Char :=
  ((s.takeWhile (· = ' ')).length, s.dropWhile (· = ' '))

def twoHeader (width : Char) : List Char :=
  ['E', 'B', 'L', 'O', 'C', 'K', ',', '1', '9', ',', 'S', 'O', 'L', 'I', 'D', '\n',
    '(', '1', '9', 'i', width, ')', '\n']

def tetraText : List Char := twoHeader '3' ++
  line 3 [1, 1, 1, 1, 0, 0, 0, 0, 10, 0, 1, 1, 2, 3, 4, 5, 6, 7, 8] ++ line 3 [9, 10] ++
  line 3 [1, 1, 1, 1, 0, 0, 0, 0, 10, 0, 2, 2, 3, 4, 11, 12, 13, 14, 15] ++ line 3 [16, 17] ++
  ['-', '1', '\n']

lemma tetra_le : 23 ≤ 153 := by decide

set_option maxRecDepth 4000 in
lemma tetra_last_le : 153 ≤ tetraText.length := by decide

def tetraBlock : EBlock tetraText := ⟨true, 19, 3, 1, 23, 153, tetra_le, tetra_last_le⟩

lemma tetra_layout : tetraBlock.Solid 10 2 where
  valueSize_eq := rfl
  valueLength_pos := by decide
  lineEndSize_pos := by decide
  nodes_pos := by decide
  nodes_le := by decide
  last_eq := by decide
  newline_iff := by decide
  nodes_eq := by decide
  field := by
    have hfield : ∀ k < 2, ∀ j < 11 + min 8 10,
        (fieldOf (window tetraText (tetraBlock.position 10 k + j * 3)
          (tetraBlock.position 10 k + (j + 1) * 3))).2 ≠ [] ∧
        ' ' ∉ (fieldOf (window tetraText (tetraBlock.position 10 k + j * 3)
          (tetraBlock.position 10 k + (j + 1) * 3))).2 ∧
        window tetraText (tetraBlock.position 10 k + j * 3)
          (tetraBlock.position 10 k + (j + 1) * 3)
          = Parser.field (fieldOf (window tetraText (tetraBlock.position 10 k + j * 3)
            (tetraBlock.position 10 k + (j + 1) * 3))) := by decide
    exact fun k hk j hj => ⟨_, hfield k hk j hj⟩

def tetraData : EBlockData tetraText := ⟨tetraBlock, 10, 2, fun _ => tetra_layout⟩

def tetraBlocks : EBlocks tetraText := ⟨[tetraData], List.pairwise_singleton _ _⟩

lemma tetra_sorted : [0, 81, 156].Pairwise (· ≤ ·) := by decide

set_option maxRecDepth 4000 in
lemma tetra_length : [0, 81, 156][2]? = some tetraText.length := by decide

/-- The second rank begins with the second line of the first element. -/
def tetraOffsets : Distribution 2 tetraText.length :=
  ⟨[0, 81, 156], rfl, tetra_sorted, rfl, tetra_length⟩

lemma tetra_atLines : ∀ r ≤ 2, IsStart '\n' tetraText (tetraOffsets.border r) ∨
    tetraOffsets.border r = tetraText.length := by decide

def tetraRanks : Ranks tetraText := ⟨2, tetraOffsets, tetra_atLines, 3, Nat.succ_pos 2⟩

lemma tetra_regular : tetraData.Regular [187] 10 2 where
  count_pos := by decide
  types := by decide
  blanks := by decide

theorem tetraBlocks_readOnce : tetraBlocks.ReadOnce tetraRanks [187] := by
  refine readOnce_of_regular (by decide) fun B hB _ => ?_
  obtain rfl := List.mem_singleton.mp hB
  exact tetra_regular

/-- Three quadrilaterals.  The first field, the number of the material, has no blank. -/
def quadText : List Char := twoHeader '2' ++
  line 2 [10, 1, 1, 1, 0, 0, 0, 0, 4, 0, 1, 1, 2, 3, 4] ++
  line 2 [10, 1, 1, 1, 0, 0, 0, 0, 4, 0, 2, 2, 5, 6, 3] ++
  line 2 [10, 1, 1, 1, 0, 0, 0, 0, 4, 0, 3, 5, 7, 8, 6] ++ ['-', '1', '\n']

lemma quad_le : 23 ≤ 116 := by decide

lemma quad_last_le : 116 ≤ quadText.length := by decide

def quadBlock : EBlock quadText := ⟨true, 19, 2, 1, 23, 116, quad_le, quad_last_le⟩

lemma quad_layout : quadBlock.Solid 4 3 where
  valueSize_eq := rfl
  valueLength_pos := by decide
  lineEndSize_pos := by decide
  nodes_pos := by decide
  nodes_le := by decide
  last_eq := by decide
  newline_iff := by decide
  nodes_eq := by decide
  field := by
    have hfield : ∀ k < 3, ∀ j < 11 + min 8 4,
        (fieldOf (window quadText (quadBlock.position 4 k + j * 2)
          (quadBlock.position 4 k + (j + 1) * 2))).2 ≠ [] ∧
        ' ' ∉ (fieldOf (window quadText (quadBlock.position 4 k + j * 2)
          (quadBlock.position 4 k + (j + 1) * 2))).2 ∧
        window quadText (quadBlock.position 4 k + j * 2)
          (quadBlock.position 4 k + (j + 1) * 2)
          = Parser.field (fieldOf (window quadText (quadBlock.position 4 k + j * 2)
            (quadBlock.position 4 k + (j + 1) * 2))) := by decide
    exact fun k hk j hj => ⟨_, hfield k hk j hj⟩

def quadData : EBlockData quadText := ⟨quadBlock, 4, 3, fun _ => quad_layout⟩

def quadBlocks : EBlocks quadText := ⟨[quadData], List.pairwise_singleton _ _⟩

lemma quad_sorted : [0, 119].Pairwise (· ≤ ·) := by decide

lemma quad_length : [0, 119][1]? = some quadText.length := by decide

def quadOffsets : Distribution 1 quadText.length :=
  ⟨[0, 119], rfl, quad_sorted, rfl, quad_length⟩

lemma quad_atLines : ∀ r ≤ 1, IsStart '\n' quadText (quadOffsets.border r) ∨
    quadOffsets.border r = quadText.length := by decide

def quadRanks : Ranks quadText := ⟨1, quadOffsets, quad_atLines, 2, Nat.succ_pos 1⟩

/-- The number of nodes is read from the tenth field, and the second thread begins inside of an
element. -/
theorem quadBlocks_not_readOnce :
    (∀ rank < quadRanks.size, MAX_LINE_STEP ≤ (rankText quadRanks rank).count '\n') ∧
      ¬quadBlocks.ReadOnce quadRanks [182] := by
  refine ⟨by decide, ?_⟩
  rintro ⟨borders, hborders, hread⟩
  obtain ⟨elements, helements, -, -⟩ := hread quadData List.mem_cons_self rfl
  have hnone : (prepareData quadRanks (quadBlocks.blocks.map EBlockData.toEBlock) 0).map
      (quadData.solid quadRanks [182] 0) = some none := by decide
  rw [hborders 0 Nat.one_pos, Option.map_some, helements 0 Nat.one_pos] at hnone
  cases hnone

end EBlocks

end Workbench

end Espreso
