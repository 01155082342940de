import Espreso.Input.EBlock
import Espreso.Lib.Fallible

/-!
# Borders of ranks between the lines of an element

`EBlock::fixOffsets` moves the borders of ranks that lie between the lines of an element.

* `EBlock.nodes_eq` — the number of nodes, from a line of separated fields.
* `EBlock.fixOffsets_spec` — what one block does to the borders.
* `EBlocks` — a file with more blocks; `EBlocks.prepareData_spec`, the borders after all of them.
-/

namespace Espreso

namespace Workbench

open Lines

namespace EBlock

variable {text : List Char} {B : EBlock text} {n count : ℕ}

/-! ## The number of nodes -/

def unit (B : EBlock text) (n : ℕ) : ℕ := B.firstLine n + B.secondLine n

lemma Solid.firstLine_pos (h : B.Solid n count) : 0 < B.firstLine n :=
  Nat.add_pos_right _ h.lineEndSize_pos

lemma Solid.unit_pos (h : B.Solid n count) : 0 < B.unit n := Nat.add_pos_left h.firstLine_pos _

lemma Solid.secondLine_lt (h : B.Solid n count) : B.secondLine n < B.unit n :=
  Nat.lt_add_of_pos_left h.firstLine_pos

lemma position_eq (n k : ℕ) : B.position n k = B.first + k * B.unit n := rfl

lemma position_mono (n : ℕ) {k l : ℕ} (h : k ≤ l) : B.position n k ≤ B.position n l :=
  Nat.add_le_add_left (Nat.mul_le_mul_right _ h) _

lemma Solid.takeLines_first (h : B.Solid n count) (hcount : 0 < count) :
    takeLines '\n' 1 (text.drop B.first) = window text B.first (B.first + B.firstLine n) := by
  have hend : ∀ i < B.unit n, (text.drop B.first)[i]? = some '\n' ↔
      i + 1 = B.firstLine n ∨ i + 1 = B.unit n := by
    intro i hi
    have hnewline := h.newline_iff 0 hcount i hi
    rwa [position_eq, Nat.zero_mul, Nat.add_zero, ← List.getElem?_drop] at hnewline
  have hpos := h.firstLine_pos
  have hle : B.firstLine n ≤ B.unit n := Nat.le_add_right _ _
  have hline := takeLines_one (m := B.firstLine n - 1)
    ((hend _ (by omega)).mpr (Or.inl (Nat.sub_add_cancel hpos))) fun i hi hnl => by
      have := (hend i (by omega)).mp hnl
      omega
  rw [hline, Nat.sub_add_cancel hpos, window, Nat.add_sub_cancel_left]

/-- **A block that is read**: it has elements, they are of the implemented types with that number of
nodes, and the first ten fields of the first line begin with a blank. -/
structure Regular (B : EBlock text) (et : List ℤ) (n count : ℕ) : Prop where
  count_pos : 0 < count
  types : ∀ k < count, (etype et (B.ansystypeAt n k)).nodes = some n
  blanks : ∀ j < 10, text[B.first + j * B.valueLength]? = some ' '

lemma Solid.separated (h : B.Solid n count) (hcount : 0 < count) {j : ℕ} (hj : j < 10)
    (hblank : text[B.first + j * B.valueLength]? = some ' ') :
    ∃ f, Parser.Separated f ∧
      window text (B.first + j * B.valueLength) (B.first + (j + 1) * B.valueLength)
        = Parser.field f := by
  obtain ⟨f, hne, hnot, hwindow⟩ := h.field 0 hcount j (by omega)
  rw [position_eq, Nat.zero_mul, Nat.add_zero] at hwindow
  refine ⟨f, ⟨Nat.pos_iff_ne_zero.mpr fun hzero => ?_, hne, hnot⟩, hwindow⟩
  have hsize : B.first + (j + 1) * B.valueLength - (B.first + j * B.valueLength)
      = B.valueLength := by
    rw [Nat.succ_mul]
    omega
  have hhead : (Parser.field f)[0]? = some ' ' := by
    rw [← hwindow, window, List.getElem?_take, hsize, if_pos h.valueLength_pos, List.getElem?_drop,
      Nat.add_zero, hblank]
  rw [Parser.field, hzero, List.replicate_zero, List.nil_append] at hhead
  exact hnot (List.mem_of_getElem? hhead)

/-- **The number of nodes is read** if the fields in front of it are separated. -/
lemma nodes_eq {et : List ℤ} (h : B.Solid n count) (hregular : B.Regular et n count) :
    B.nodes = some (n : ℤ) := by
  have hfield : ∀ j : ℕ, ∃ f : ℕ × List Char, j < 10 → Parser.Separated f ∧
      window text (B.first + j * B.valueLength) (B.first + (j + 1) * B.valueLength)
        = Parser.field f := by
    intro j
    by_cases hj : j < 10
    · obtain ⟨f, hf⟩ := h.separated hregular.count_pos hj (hregular.blanks j hj)
      exact ⟨f, fun _ => hf⟩
    · exact ⟨(0, []), fun hlt => absurd hlt hj⟩
  choose f hf using hfield
  have hline : takeLines '\n' 1 (text.drop B.first) = ((List.range 10).map f).flatMap Parser.field
      ++ window text (B.first + 10 * B.valueLength) (B.first + B.firstLine n) := by
    have hle : 10 * B.valueLength ≤ B.firstLine n := by
      rw [firstLine, Nat.add_mul, Nat.add_mul 10 1]
      omega
    rw [h.takeLines_first hregular.count_pos, List.flatMap_map,
      ← window_append text (Nat.le_add_right B.first (10 * B.valueLength))
        (Nat.add_le_add_left hle _), ← flatMap_window_mul]
    congr 1
    exact List.flatMap_congr fun j hj => (hf j (List.mem_range.mp hj)).2
  have hseparated : ∀ g ∈ (List.range 10).map f, Parser.Separated g := by
    intro g hg
    obtain ⟨j, hj, rfl⟩ := List.mem_map.mp hg
    exact (hf j (List.mem_range.mp hj)).1
  have htoken := Parser.split_fields hseparated
    (window text (B.first + 10 * B.valueLength) (B.first + B.firstLine n)) (n := 9) (by simp)
  have hvalue : Parser.atol (f 8).2 = n := by
    have heq := h.nodes_eq 0 hregular.count_pos
    rw [position_eq, Nat.zero_mul, Nat.add_zero, value] at heq
    have hwindow := (hf 8 (by omega)).2
    rw [Nat.succ_mul 8, ← Nat.add_assoc] at hwindow
    rw [← heq, hwindow, Parser.field, Parser.atol_blanks]
  rw [nodes, hline, htoken]
  have hpos := h.nodes_pos
  have hstoi := Parser.stoi_of_pos (s := (f 8).2) (by omega)
  rw [hvalue] at hstoi
  exact hstoi

/-! ## What one block does to the borders -/

variable {R : Ranks text}

def Inside (B : EBlock text) (x : ℕ) : Prop := B.first < x ∧ x ≤ B.last

instance (x : ℕ) : Decidable (B.Inside x) := inferInstanceAs (Decidable (_ ∧ _))

lemma size2_eq (n : ℕ) : B.size2 (n : ℤ) = B.secondLine n := by
  rw [size2, secondLine]
  rcases Nat.lt_or_ge 8 n with hlt | hge
  · rw [if_pos (by omega), if_pos hlt]
    congr 2
    omega
  · rw [if_neg (by omega), if_neg (by omega)]

lemma Solid.lineSize_eq (h : B.Solid n count) (hn : 8 ≤ n) : B.lineSize = B.firstLine n := by
  rw [lineSize, firstLine, h.valueSize_eq, min_eq_left hn]

lemma Solid.elementSize_eq (h : B.Solid n count) : B.elementSize (n : ℤ) = B.unit n := by
  rw [elementSize, size2_eq]
  rcases Nat.lt_or_ge n 8 with hlt | hge
  · rw [if_pos (by omega), h.valueSize_eq, unit, firstLine, secondLine, if_neg (by omega),
      min_eq_right hlt.le]
    push_cast
    ring
  · rw [if_neg (by omega), h.lineSize_eq hge, unit]
    push_cast
    rfl

def crossing (B : EBlock text) (nodes : ℤ) (x : ℕ) : ℕ :=
  if (x - B.first) % (B.lineSize + B.size2 nodes) ≠ 0 then B.size2 nodes else 0

lemma moveBorder_of_ne {nodes : ℤ} {MPIrank rank r : ℕ} (h : r ≠ rank) (s : Borders) :
    (B.moveBorder nodes MPIrank s rank).dataOffsets r = s.dataOffsets r := by
  rw [moveBorder]
  split
  · exact Function.update_of_ne h _ _
  · rfl

lemma moveBorder_start {nodes : ℤ} {MPIrank rank : ℕ} (s : Borders) :
    (B.moveBorder nodes MPIrank s rank).start
      = s.start + if MPIrank = rank then B.crossing nodes (s.dataOffsets MPIrank) else 0 := by
  rcases eq_or_ne MPIrank rank with rfl | hne
  · rw [moveBorder, crossing, if_pos rfl, if_pos rfl]
    split_ifs
    all_goals rfl
  · rw [moveBorder, if_neg hne, if_neg hne.symm]
    split_ifs
    all_goals rfl

lemma moveBorder_stop {nodes : ℤ} {MPIrank rank : ℕ} (hpos : 0 < rank) (s : Borders) :
    (B.moveBorder nodes MPIrank s rank).stop = s.stop +
      if MPIrank + 1 = rank then B.crossing nodes (s.dataOffsets (MPIrank + 1)) else 0 := by
  rcases eq_or_ne (MPIrank + 1) rank with rfl | hne
  · rw [moveBorder, crossing, if_pos rfl, Nat.add_sub_cancel, if_pos rfl]
    split_ifs
    all_goals rfl
  · rw [moveBorder, if_neg hne, if_neg (show rank - 1 ≠ MPIrank by omega)]
    split_ifs
    all_goals rfl

lemma foldl_moveBorder (B : EBlock text) (nodes : ℤ) (MPIrank : ℕ) {l : List ℕ} (hnodup : l.Nodup)
    (hpos : ∀ r ∈ l, 0 < r) (s : Borders) :
    (∀ r ∉ l, (l.foldl (B.moveBorder nodes MPIrank) s).dataOffsets r = s.dataOffsets r) ∧
    (l.foldl (B.moveBorder nodes MPIrank) s).start = s.start +
      (if MPIrank ∈ l then B.crossing nodes (s.dataOffsets MPIrank) else 0) ∧
    (l.foldl (B.moveBorder nodes MPIrank) s).stop = s.stop +
      if MPIrank + 1 ∈ l then B.crossing nodes (s.dataOffsets (MPIrank + 1)) else 0 := by
  induction l generalizing s with
  | nil => simp
  | cons rank l ih =>
      have hrank := List.nodup_cons.mp hnodup
      obtain ⟨hoffsets, hstart, hstop⟩ := ih hrank.2 (fun r hr => hpos r (List.mem_cons_of_mem _ hr))
        (B.moveBorder nodes MPIrank s rank)
      rw [List.foldl_cons, hstart, hstop, moveBorder_start, moveBorder_stop (hpos _ List.mem_cons_self)]
      refine ⟨?_, ?_, ?_⟩
      · intro r hr
        rw [List.mem_cons, not_or] at hr
        rw [hoffsets r hr.2, moveBorder_of_ne hr.1]
      · rcases eq_or_ne MPIrank rank with rfl | hne
        · simp [hrank.1]
        · simp [hne, moveBorder_of_ne hne]
      · rcases eq_or_ne (MPIrank + 1) rank with heq | hne
        · simp [heq, hrank.1]
        · simp [hne, moveBorder_of_ne hne]

lemma mem_fixed_iff {r : ℕ} (hr : r ≤ R.size) :
    r ∈ List.range' (B.fRank R + 1) (B.lRank R - B.fRank R) ↔ B.Inside (R.offsets.border r) := by
  have hfirst : B.fRank R < r ↔ B.first < R.offsets.border r := R.rankOf_lt_iff hr
  have hlast : B.lRank R < r ↔ B.last < R.offsets.border r := R.rankOf_lt_iff hr
  have hle : B.fRank R ≤ B.lRank R := R.rankOf_le_rankOf B.first_le_last
  rw [List.mem_range'_1, Inside]
  omega

def moved (B : EBlock text) (R : Ranks text) (nodes : ℤ) (s : Borders) (r : ℕ) : ℕ :=
  if B.Inside (R.offsets.border r) ∧ nodes > 8 then B.crossing nodes (s.dataOffsets r) else 0

/-- **`EBlock::fixOffsets`** moves the two borders of a rank that are inside of the block, and no
offsets outside of it. -/
lemma fixOffsets_spec (nodes : ℤ) {MPIrank : ℕ} (hrank : MPIrank < R.size) (s : Borders) :
    (∀ r ≤ R.size, ¬B.Inside (R.offsets.border r) →
      (B.fixOffsets R nodes MPIrank s).dataOffsets r = s.dataOffsets r) ∧
    (B.fixOffsets R nodes MPIrank s).start = s.start + B.moved R nodes s MPIrank ∧
    (B.fixOffsets R nodes MPIrank s).stop = s.stop + B.moved R nodes s (MPIrank + 1) := by
  have hfold := foldl_moveBorder B nodes MPIrank
    (List.nodup_range' (s := B.fRank R + 1) (n := B.lRank R - B.fRank R))
    (fun r hr => by rw [List.mem_range'_1] at hr; omega) s
  simp only [mem_fixed_iff hrank.le, mem_fixed_iff hrank] at hfold
  rw [fixOffsets, moved, moved]
  by_cases hnodes : nodes > 8
  · by_cases hranks : B.fRank R ≠ B.lRank R
    · rw [if_pos ⟨hranks, hnodes⟩, hfold.2.1, hfold.2.2]
      refine ⟨fun r hr hinside => hfold.1 r fun hmem => hinside ((mem_fixed_iff hr).mp hmem), ?_⟩
      simp only [hnodes, and_true]
    · -- no rank begins in the block
      have hnone : ∀ r ≤ R.size, ¬B.Inside (R.offsets.border r) := by
        intro r hr hinside
        rw [← mem_fixed_iff hr, List.mem_range'_1] at hinside
        omega
      rw [if_neg fun h => hranks h.1, if_neg fun h => hnone _ hrank.le h.1,
        if_neg fun h => hnone _ hrank h.1]
      exact ⟨fun _ _ _ => rfl, rfl, rfl⟩
  · rw [if_neg fun h => hnodes h.2, if_neg fun h => hnodes h.2, if_neg fun h => hnodes h.2]
    exact ⟨fun _ _ _ => rfl, rfl, rfl⟩

lemma fixBlock_spec {nodes : ℤ} (hsolid : B.Solkey = true) (hnodes : B.nodes = some nodes)
    {MPIrank : ℕ} (hrank : MPIrank < R.size) (s : Borders) :
    ∃ t, fixBlock R MPIrank s B = some t ∧
      (∀ r ≤ R.size, ¬B.Inside (R.offsets.border r) → t.dataOffsets r = s.dataOffsets r) ∧
      t.start = s.start + B.moved R nodes s MPIrank ∧
      t.stop = s.stop + B.moved R nodes s (MPIrank + 1) := by
  obtain ⟨hoffsets, hstart, hstop⟩ := fixOffsets_spec nodes hrank s
  rw [fixBlock, if_pos hsolid, hnodes]
  refine ⟨_, rfl, ?_, hstart, hstop⟩
  intro r hr hinside
  dsimp only
  have hzero : B.moved R nodes s r = 0 := if_neg fun h => hinside h.1
  rcases eq_or_ne r (MPIrank + 1) with rfl | hnext
  · rw [Function.update_self, Function.update_of_ne (Nat.succ_ne_self _), hstop, hzero,
      Nat.add_zero, Nat.add_sub_cancel]
    exact hoffsets _ hr hinside
  · rw [Function.update_of_ne hnext]
    rcases eq_or_ne r MPIrank with rfl | hself
    · rw [Function.update_self, hstart, hzero, Nat.add_zero, Nat.add_sub_cancel]
      exact hoffsets _ hr hinside
    · rw [Function.update_of_ne hself]
      exact hoffsets _ hr hinside

end EBlock

/-! ## The borders after all blocks -/

/-- **A block and its layout.** -/
structure EBlockData (text : List Char) extends EBlock text where
  nnodes : ℕ
  count : ℕ
  layout : Solkey = true → toEBlock.Solid nnodes count

/-- **The blocks of a file**, in their order. -/
structure EBlocks (text : List Char) where
  blocks : List (EBlockData text)
  ordered : blocks.Pairwise fun B B' => B.last ≤ B'.first

namespace EBlockData

variable {text : List Char} {R : Ranks text} (B : EBlockData text)

def shift (x : ℕ) : ℕ :=
  if (x - B.first) % B.unit B.nnodes ≠ 0 then B.secondLine B.nnodes else 0

variable {B}

lemma moved_eq (hsolid : B.Solkey = true) {s : EBlock.Borders} {r : ℕ}
    (hoffset : B.Inside (R.offsets.border r) → s.dataOffsets r = R.offsets.border r) :
    B.moved R B.nnodes s r
      = if B.Inside (R.offsets.border r) then B.shift (R.offsets.border r) else 0 := by
  rw [EBlock.moved]
  by_cases hinside : B.Inside (R.offsets.border r)
  · rw [if_pos hinside]
    rcases Nat.lt_or_ge 8 B.nnodes with hlt | hge
    · rw [if_pos ⟨hinside, by omega⟩, EBlock.crossing, EBlock.size2_eq,
        (B.layout hsolid).lineSize_eq hlt.le, hoffset hinside]
      rfl
    · have hzero : B.secondLine B.nnodes = 0 := if_neg (by omega)
      rw [if_neg (by omega), shift, hzero, ite_self]
  · rw [if_neg hinside, if_neg fun h => hinside h.1]

end EBlockData

namespace EBlocks

open EBlock

variable {text : List Char} {R : Ranks text}

/-- The place of a border after some blocks: in a block it has moved to the next element. -/
structure Final (done : List (EBlockData text)) (x y : ℕ) : Prop where
  inside : ∀ B ∈ done, B.Solkey = true → B.Inside x → y = x + B.shift x
  outside : (∀ B ∈ done, B.Solkey = true → ¬B.Inside x) → y = x

/-- What holds on a rank after some blocks. -/
structure Fixed (R : Ranks text) (rank : ℕ) (done : List (EBlockData text)) (s : Borders) :
    Prop where
  offsets : ∀ r ≤ R.size, (∀ B ∈ done, B.Solkey = true → ¬B.Inside (R.offsets.border r)) →
    s.dataOffsets r = R.offsets.border r
  start : Final done (R.offsets.border rank) s.start
  stop : Final done (R.offsets.border (rank + 1)) s.stop

lemma not_inside {done : List (EBlockData text)} {B : EBlockData text}
    (hbefore : ∀ B' ∈ done, B'.last ≤ B.first) {x : ℕ} (h : B.Inside x) :
    ∀ B' ∈ done, B'.Solkey = true → ¬B'.Inside x := by
  intro B' hB' _ hinside
  have := hbefore B' hB'
  rw [Inside] at h hinside
  omega

lemma Final.append {done : List (EBlockData text)} {B : EBlockData text} {x y : ℕ}
    (h : Final done x y) (hbefore : ∀ B' ∈ done, B'.last ≤ B.first) (hsolid : B.Solkey = true) :
    Final (done ++ [B]) x (y + if B.Inside x then B.shift x else 0) where
  inside := by
    intro B' hB' hsolid' hinside
    rcases List.mem_append.mp hB' with hmem | hmem
    · have hnot : ¬B.Inside x := fun hB => not_inside hbefore hB B' hmem hsolid' hinside
      rw [if_neg hnot, Nat.add_zero]
      exact h.inside B' hmem hsolid' hinside
    · obtain rfl := List.mem_singleton.mp hmem
      rw [if_pos hinside, h.outside (not_inside hbefore hinside)]
  outside := by
    intro hnone
    rw [if_neg (hnone B (List.mem_append_right _ List.mem_cons_self) hsolid), Nat.add_zero]
    exact h.outside fun B' hB' => hnone B' (List.mem_append_left _ hB')

lemma Final.append_other {done : List (EBlockData text)} {B : EBlockData text} {x y : ℕ}
    (h : Final done x y) (hother : ¬B.Solkey = true) : Final (done ++ [B]) x y where
  inside := by
    intro B' hB' hsolid' hinside
    rcases List.mem_append.mp hB' with hmem | hmem
    · exact h.inside B' hmem hsolid' hinside
    · obtain rfl := List.mem_singleton.mp hmem
      exact absurd hsolid' hother
  outside hnone := h.outside fun B' hB' => hnone B' (List.mem_append_left _ hB')

lemma Fixed.step {rank : ℕ} (hrank : rank < R.size) {done : List (EBlockData text)} {s : Borders}
    (h : Fixed R rank done s) {B : EBlockData text} (hbefore : ∀ B' ∈ done, B'.last ≤ B.first)
    (hnodes : B.Solkey = true → B.nodes = some (B.nnodes : ℤ)) :
    ∃ t, fixBlock R rank s B.toEBlock = some t ∧ Fixed R rank (done ++ [B]) t := by
  by_cases hsolid : B.Solkey = true
  · obtain ⟨t, ht, hoffsets, hstart, hstop⟩ := fixBlock_spec hsolid (hnodes hsolid) hrank s
    have hborder : ∀ r ≤ R.size, B.Inside (R.offsets.border r) →
        s.dataOffsets r = R.offsets.border r :=
      fun r hr hinside => h.offsets r hr (not_inside hbefore hinside)
    rw [EBlockData.moved_eq hsolid (hborder _ hrank.le)] at hstart
    rw [EBlockData.moved_eq hsolid (hborder _ hrank)] at hstop
    refine ⟨t, ht, ?_, ?_, ?_⟩
    · intro r hr hnone
      rw [hoffsets r hr (hnone B (List.mem_append_right _ List.mem_cons_self) hsolid)]
      exact h.offsets r hr fun B' hB' => hnone B' (List.mem_append_left _ hB')
    · rw [hstart]
      exact h.start.append hbefore hsolid
    · rw [hstop]
      exact h.stop.append hbefore hsolid
  · refine ⟨s, by rw [fixBlock, if_neg hsolid], ?_, h.start.append_other hsolid,
      h.stop.append_other hsolid⟩
    exact fun r hr hnone => h.offsets r hr fun B' hB' => hnone B' (List.mem_append_left _ hB')

lemma Fixed.run {rank : ℕ} (hrank : rank < R.size) {done rest : List (EBlockData text)} {s : Borders}
    (h : Fixed R rank done s)
    (hordered : (done ++ rest).Pairwise fun B B' => B.last ≤ B'.first)
    (hnodes : ∀ B ∈ rest, B.Solkey = true → B.nodes = some (B.nnodes : ℤ)) :
    ∃ t, (rest.map EBlockData.toEBlock).foldlM (fixBlock R rank) s = some t ∧
      Fixed R rank (done ++ rest) t := by
  induction rest generalizing done s with
  | nil => exact ⟨s, rfl, by rwa [List.append_nil]⟩
  | cons B rest ih =>
      have hbefore : ∀ B' ∈ done, B'.last ≤ B.first := fun B' hB' =>
        (List.pairwise_append.mp hordered).2.2 B' hB' B List.mem_cons_self
      obtain ⟨t, ht, hfixed⟩ := h.step hrank hbefore (hnodes B List.mem_cons_self)
      rw [List.append_cons] at hordered ⊢
      obtain ⟨u, hu, hall⟩ :=
        ih hfixed hordered fun B' hB' => hnodes B' (List.mem_cons_of_mem _ hB')
      refine ⟨u, ?_, hall⟩
      rw [List.map_cons, List.foldlM_cons, ht]
      exact hu

lemma prepareData_spec (F : EBlocks text) {rank : ℕ} (hrank : rank < R.size)
    (hnodes : ∀ B ∈ F.blocks, B.Solkey = true → B.nodes = some (B.nnodes : ℤ)) :
    ∃ s, prepareData R (F.blocks.map EBlockData.toEBlock) rank = some s ∧
      Final F.blocks (R.offsets.border rank) s.start ∧
      Final F.blocks (R.offsets.border (rank + 1)) s.stop := by
  have hinit : Fixed R rank []
      ⟨R.offsets.border, R.offsets.border rank, R.offsets.border (rank + 1)⟩ :=
    ⟨fun _ _ _ => rfl, ⟨fun _ hB => absurd hB List.not_mem_nil, fun _ => rfl⟩,
      ⟨fun _ hB => absurd hB List.not_mem_nil, fun _ => rfl⟩⟩
  obtain ⟨s, hs, hfixed⟩ := hinit.run hrank F.ordered hnodes
  exact ⟨s, hs, hfixed.start, hfixed.stop⟩

end EBlocks

end Workbench

end Espreso
