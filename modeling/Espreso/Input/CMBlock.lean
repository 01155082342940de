import Espreso.Input.WorkbenchParser

/-!
# Reading of regions from a Workbench file

* `CMCommand` — the number of items of a `CMBLOCK` and the format of its lines.
* `CMBlock` — the block in a file, with its layout.
* `CMBlock.readData` — the indices that a rank returns, and `CMBlock.positions`, the places they are
  read from.
* `CMBlock.readOnce_iff` — when each item is read by exactly one rank.
-/

namespace Espreso

namespace Workbench

open Lines

/-- **What the commands of a block give**: `valueSize` values of `valueLength` characters a line. -/
structure CMCommand where
  NUMITEMS : ℕ
  valueSize : ℕ
  valueLength : ℕ
  lineEndSize : ℕ
  valueSize_pos : 0 < valueSize
  valueLength_pos : 0 < valueLength
  lineEndSize_pos : 0 < lineEndSize

namespace CMCommand

variable (C : CMCommand)

def lineSize : ℕ := C.valueSize * C.valueLength + C.lineEndSize

def lastLineSize : ℕ :=
  if C.NUMITEMS % C.valueSize ≠ 0 then C.NUMITEMS % C.valueSize * C.valueLength + C.lineEndSize
  else 0

/-- `last - first` in `CMBlock::parse`. -/
def dataSize : ℕ := C.NUMITEMS / C.valueSize * C.lineSize + C.lastLineSize

lemma lineSize_pos : 0 < C.lineSize := Nat.lt_of_lt_of_le C.lineEndSize_pos (Nat.le_add_left _ _)

lemma lastLineSize_lt : C.lastLineSize < C.lineSize := by
  rw [lastLineSize, lineSize]
  split_ifs
  · have hlt := Nat.mul_lt_mul_of_pos_right (Nat.mod_lt C.NUMITEMS C.valueSize_pos)
      C.valueLength_pos
    omega
  · have := C.lineEndSize_pos
    omega

lemma dataSize_div : C.dataSize / C.lineSize = C.NUMITEMS / C.valueSize := by
  rw [dataSize, Nat.add_comm, Nat.add_mul_div_right _ _ C.lineSize_pos,
    Nat.div_eq_of_lt C.lastLineSize_lt, Nat.zero_add]

end CMCommand

/-- **A block in a file**: its data begin at `first`, and lines end as the format says. -/
structure CMBlock (text : List Char) extends CMCommand where
  first : ℕ
  last_le : first + toCMCommand.dataSize ≤ text.length
  newline_iff : ∀ p, first ≤ p → p < first + toCMCommand.dataSize → (text[p]? = some '\n' ↔
    toCMCommand.lineSize ∣ p + 1 - first ∨ p + 1 = first + toCMCommand.dataSize)

namespace CMBlock

variable {text : List Char} (B : CMBlock text) (R : Ranks text)

def last : ℕ := B.first + B.dataSize

def fRank : ℕ := R.rankOf B.first

def lRank : ℕ := R.rankOf B.last

def getFirst (rank : ℕ) : ℕ :=
  Workbench.getFirst (B.fRank R) (B.lRank R) B.first rank (R.offsets.border rank)

def getLast (rank : ℕ) : ℕ :=
  Workbench.getLast (B.fRank R) (B.lRank R) B.last rank (R.offsets.border rank)
    (R.offsets.border (rank + 1))

def size (rank : ℕ) : ℕ := (B.getLast R rank - B.getFirst R rank) / B.lineSize

def tdistribution (rank t : ℕ) : ℕ := (distribute R.threads (B.size R rank)).getD t 0

def values (data n : ℕ) : List ℕ := (List.range n).map fun k => data + k * B.valueLength

/-- The places that a thread reads: those of its lines, and the last thread of the last rank those of
the last line. -/
def threadPositions (rank t : ℕ) : List ℕ :=
  ((List.range' (B.tdistribution R rank t)
    (B.tdistribution R rank (t + 1) - B.tdistribution R rank t)).flatMap fun line =>
      B.values (B.getFirst R rank + B.lineSize * line) B.valueSize) ++
  if B.lRank R = rank ∧ t = R.threads - 1 then
    B.values (B.getFirst R rank + B.lineSize * B.tdistribution R rank (t + 1))
      (B.NUMITEMS % B.valueSize)
  else []

def positions (rank : ℕ) : List ℕ := (List.range R.threads).flatMap (B.threadPositions R rank)

def value (text : List Char) (valueLength data : ℕ) : ℤ :=
  Parser.atol (window text data (data + valueLength))

def index (data : ℕ) : Option ℕ :=
  if value text B.valueLength data > 0 then some (value text B.valueLength data - 1).toNat else none

/-- **`CMBlock::readData`** on a rank. -/
def readData (rank : ℕ) : List ℕ := ((B.positions R rank).filterMap B.index).mergeSort

def itemPosition (i : ℕ) : ℕ :=
  B.first + i / B.valueSize * B.lineSize + i % B.valueSize * B.valueLength

def items : List ℕ := (List.range B.NUMITEMS).map B.itemPosition

/-- **Each item is read exactly once**, and the indices of all ranks are those of the positive
items. -/
def ReadOnce : Prop :=
  ((List.range R.size).flatMap (B.positions R)).Perm B.items ∧
  ((List.range R.size).flatMap (B.readData R)).Perm (B.items.filterMap B.index)

/-! ## The lines of a rank -/

def fullLine (k : ℕ) : List ℕ := B.values (B.first + B.lineSize * k) B.valueSize

def linesBefore (x : ℕ) : ℕ := (x - B.first) / B.lineSize

/-- The place in the block that is closest to the beginning of a rank. -/
def border (rank : ℕ) : ℕ := Ranks.clamp B.first B.last (R.offsets.border rank)

lemma first_le_last : B.first ≤ B.last := Nat.le_add_right _ _

lemma border_mono {rank : ℕ} (hrank : rank < R.size) : B.border R rank ≤ B.border R (rank + 1) :=
  Ranks.clamp_mono _ _ (R.offsets.border_mono (Nat.le_add_right rank 1) hrank)

lemma border_le_last (rank : ℕ) : B.border R rank ≤ B.last := min_le_left _ _

@[simp] lemma linesBefore_last : B.linesBefore B.last = B.NUMITEMS / B.valueSize := by
  rw [linesBefore, last, Nat.add_sub_cancel_left, B.dataSize_div]

lemma border_eq {rank : ℕ} (hrank : rank ≤ R.size) :
    B.border R rank = B.first + B.lineSize * B.linesBefore (B.border R rank) ∨
      B.border R rank = B.last := by
  rcases Nat.lt_or_ge B.first (R.offsets.border rank) with hfirst | hfirst
  · rcases Nat.lt_or_ge (R.offsets.border rank) B.last with hlast | hlast
    · have hmem : B.border R rank = R.offsets.border rank := Ranks.clamp_of_mem hfirst.le hlast.le
      have hstart : text[R.offsets.border rank - 1]? = some '\n' := by
        rcases R.atLines rank hrank with (hzero | hnl) | htotal
        · omega
        · exact hnl
        · have : B.last ≤ text.length := B.last_le
          omega
      have hline := (B.newline_iff _ (by omega) (show _ < B.last by omega)).mp hstart
      rw [show R.offsets.border rank - 1 + 1 = R.offsets.border rank by omega] at hline
      rcases hline with hdvd | heq
      · left
        rw [hmem, linesBefore, Nat.mul_div_cancel' hdvd]
        omega
      · exact absurd heq hlast.ne
    · exact Or.inr (Ranks.clamp_of_ge hlast)
  · left
    rw [border, Ranks.clamp_of_le B.first_le_last hfirst, linesBefore, Nat.sub_self, Nat.zero_div,
      Nat.mul_zero, Nat.add_zero]

lemma positions_eq (rank : ℕ) : B.positions R rank =
    ((List.range (B.size R rank)).flatMap fun line =>
      B.values (B.getFirst R rank + B.lineSize * line) B.valueSize) ++
    if B.lRank R = rank then
      B.values (B.getFirst R rank + B.lineSize * B.size R rank) (B.NUMITEMS % B.valueSize)
    else [] := by
  obtain ⟨n, hn⟩ := Nat.exists_eq_add_one.mpr R.threads_pos
  have hlines : ((List.range R.threads).flatMap fun t => List.range' (B.tdistribution R rank t)
      (B.tdistribution R rank (t + 1) - B.tdistribution R rank t)) = List.range (B.size R rank) :=
    flatMap_distribute R.threads_pos (B.size R rank)
  have hlast : B.tdistribution R rank (n + 1) = B.size R rank := by
    rw [tdistribution, hn, distribute_getD_last]
  rw [← hlines, List.flatMap_assoc, positions, hn, List.range_succ, List.flatMap_append,
    List.flatMap_append, List.flatMap_singleton, List.flatMap_singleton, threadPositions, hn,
    Nat.add_sub_cancel, hlast, List.append_assoc]
  congr 1
  · refine List.flatMap_congr fun t ht => ?_
    rw [List.mem_range] at ht
    rw [threadPositions, if_neg (by omega), List.append_nil]
  · simp only [and_true]

lemma size_eq {rank : ℕ} (hrank : rank < R.size) :
    B.size R rank = B.linesBefore (B.border R (rank + 1)) - B.linesBefore (B.border R rank) ∧
    (0 < B.size R rank → B.getFirst R rank
      = B.first + B.lineSize * B.linesBefore (B.border R rank)) := by
  by_cases hmem : B.fRank R ≤ rank ∧ rank ≤ B.lRank R
  · have hget : B.getFirst R rank = B.border R rank :=
      R.getFirst_eq B.first_le_last hmem.1 hmem.2
    have hlast : B.getLast R rank = B.border R (rank + 1) := R.getLast_eq hrank hmem.1 hmem.2
    rw [size, hget, hlast]
    rcases B.border_eq R hrank.le with heq | heq
    · refine ⟨?_, fun _ => heq⟩
      have hsub : B.border R (rank + 1) - B.border R rank = B.border R (rank + 1) - B.first
          - B.lineSize * B.linesBefore (B.border R rank) := by
        rw [← Nat.sub_add_eq, ← heq]
      rw [hsub, Nat.sub_mul_div, ← linesBefore]
    · have hnext : B.border R (rank + 1) = B.last :=
        le_antisymm (B.border_le_last R _) (heq ▸ B.border_mono R hrank)
      rw [heq, hnext, Nat.sub_self, Nat.zero_div, Nat.sub_self]
      exact ⟨rfl, fun h => absurd h (lt_irrefl 0)⟩
  · have hclamp := R.clamp_eq_of_outside B.first_le_last hrank hmem
    have hsize : B.size R rank = 0 := by
      rw [size, getFirst, getLast, fRank, lRank, R.getLast_eq_getFirst hmem, Nat.sub_self,
        Nat.zero_div]
    rw [border, border, hclamp, Nat.sub_self, hsize]
    exact ⟨rfl, fun h => absurd h (lt_irrefl 0)⟩

lemma positions_eq_fullLine {rank : ℕ} (hrank : rank < R.size) : B.positions R rank =
    (List.range' (B.linesBefore (B.border R rank))
      (B.linesBefore (B.border R (rank + 1)) - B.linesBefore (B.border R rank))).flatMap B.fullLine ++
    if B.lRank R = rank then
      B.values (B.getFirst R rank + B.lineSize * B.size R rank) (B.NUMITEMS % B.valueSize)
    else [] := by
  obtain ⟨hsize, hbegin⟩ := B.size_eq R hrank
  rw [positions_eq, ← hsize, List.range'_eq_map_range, List.flatMap_map]
  congr 1
  refine List.flatMap_congr fun line hline => ?_
  rw [hbegin (by rw [List.mem_range] at hline; omega), fullLine, Nat.mul_add, Nat.add_assoc]

/-! ## All ranks -/

def lastLine : List ℕ :=
  B.values (B.first + B.lineSize * (B.NUMITEMS / B.valueSize)) (B.NUMITEMS % B.valueSize)

def lastRead : List ℕ :=
  if B.lRank R < R.size then
    B.values (B.getFirst R (B.lRank R) + B.lineSize * B.size R (B.lRank R))
      (B.NUMITEMS % B.valueSize)
  else []

lemma items_eq :
    B.items = (List.range (B.NUMITEMS / B.valueSize)).flatMap B.fullLine ++ B.lastLine := by
  have hposition : ∀ k j, j < B.valueSize → B.itemPosition (k * B.valueSize + j)
      = B.first + B.lineSize * k + j * B.valueLength := by
    intro k j hj
    rw [itemPosition, Nat.mul_add_mod_of_lt hj, Nat.add_comm (k * _),
      Nat.add_mul_div_right _ _ B.valueSize_pos, Nat.div_eq_of_lt hj, Nat.zero_add,
      Nat.mul_comm k]
  have hlines : ∀ q, (List.range (q * B.valueSize)).map B.itemPosition
      = (List.range q).flatMap B.fullLine := by
    intro q
    induction q with
    | zero => simp
    | succ q ih =>
        rw [Nat.succ_mul, List.range_add, List.map_append, ih, List.range_succ, List.flatMap_append,
          List.flatMap_singleton, List.map_map, fullLine, values]
        congr 1
        refine List.map_congr_left fun j hj => ?_
        exact hposition q j (List.mem_range.mp hj)
  rw [items, ← hlines, lastLine, values]
  conv_lhs => rw [← Nat.div_add_mod' B.NUMITEMS B.valueSize, List.range_add, List.map_append,
    List.map_map]
  congr 1
  refine List.map_congr_left fun j hj => ?_
  exact hposition _ j ((List.mem_range.mp hj).trans (Nat.mod_lt _ B.valueSize_pos))

lemma flatMap_positions : ((List.range R.size).flatMap (B.positions R)).Perm
    ((List.range (B.NUMITEMS / B.valueSize)).flatMap B.fullLine ++ B.lastRead R) := by
  have hfirst : B.linesBefore (B.border R 0) = 0 := by
    rw [border, R.offsets.border_zero, Ranks.clamp_of_le B.first_le_last (Nat.zero_le _),
      linesBefore, Nat.sub_self, Nat.zero_div]
  have hlast : B.linesBefore (B.border R R.size) = B.NUMITEMS / B.valueSize := by
    have hle : B.last ≤ text.length := B.last_le
    rw [border, R.offsets.border_size, Ranks.clamp_of_ge hle, linesBefore_last]
  have hlines := (flatMap_range' (fun r => B.linesBefore (B.border R r)) R.size fun r hr =>
    Nat.div_le_div_right (Nat.sub_le_sub_right (B.border_mono R hr) _)).1
  rw [hfirst, hlast, Nat.sub_zero, ← List.range_eq_range'] at hlines
  have hsplit := List.flatMap_congr fun r hr => B.positions_eq_fullLine R (List.mem_range.mp hr)
  have hread := flatMap_range_ite (B.lRank R) R.size fun r =>
    B.values (B.getFirst R r + B.lineSize * B.size R r) (B.NUMITEMS % B.valueSize)
  rw [hsplit, ← hlines, List.flatMap_assoc, lastRead, ← hread]
  exact (List.flatMap_append_perm _ _ _).symm

lemma border_ne_last_iff : (∀ r ≤ R.size, R.offsets.border r ≠ B.last) ↔
    R.offsets.border (B.lRank R) < B.last := by
  have hspec := R.rankOf_spec B.last
  constructor
  · intro hne
    exact Nat.lt_of_le_of_ne hspec.2.1 (hne _ hspec.1)
  · intro hlt r hr heq
    have hle : r ≤ B.lRank R := by
      by_contra hbehind
      have := (R.rankOf_lt_iff hr).mp (Nat.lt_of_not_le hbehind)
      omega
    have := R.offsets.border_mono hle hspec.1
    omega

lemma lRank_lt_size (h : R.offsets.border (B.lRank R) < B.last) : B.lRank R < R.size := by
  refine Nat.lt_of_le_of_ne (R.rankOf_spec B.last).1 fun heq => ?_
  have hle : B.last ≤ text.length := B.last_le
  rw [heq, R.offsets.border_size] at h
  omega

lemma getFirst_lRank : B.getFirst R (B.lRank R) = B.border R (B.lRank R) :=
  R.getFirst_eq B.first_le_last (R.rankOf_le_rankOf B.first_le_last) le_rfl

lemma lastRead_eq (hopen : B.NUMITEMS % B.valueSize ≠ 0)
    (h : R.offsets.border (B.lRank R) < B.last) : B.lastRead R = B.lastLine := by
  have hsize := B.lRank_lt_size R h
  have hlast : B.border R (B.lRank R + 1) = B.last :=
    Ranks.clamp_of_ge ((R.rankOf_spec B.last).2.2 hsize).le
  have hfirst : B.first < B.last := by
    rw [last, CMCommand.dataSize, CMCommand.lastLineSize, if_pos hopen]
    have := B.lineEndSize_pos
    omega
  have hbegin : B.border R (B.lRank R)
      = B.first + B.lineSize * B.linesBefore (B.border R (B.lRank R)) := by
    refine (B.border_eq R hsize.le).resolve_right (ne_of_lt ?_)
    exact (min_le_right _ _).trans_lt (max_lt hfirst h)
  have hlines : B.linesBefore (B.border R (B.lRank R)) ≤ B.NUMITEMS / B.valueSize := by
    rw [← linesBefore_last]
    exact Nat.div_le_div_right (Nat.sub_le_sub_right (B.border_le_last R _) _)
  rw [lastRead, if_pos hsize, lastLine, (B.size_eq R hsize).1, hlast, linesBefore_last,
    getFirst_lRank]
  congr 1
  calc B.border R (B.lRank R)
        + B.lineSize * (B.NUMITEMS / B.valueSize - B.linesBefore (B.border R (B.lRank R)))
      = B.first + B.lineSize * (B.linesBefore (B.border R (B.lRank R))
        + (B.NUMITEMS / B.valueSize - B.linesBefore (B.border R (B.lRank R)))) := by
        rw [Nat.mul_add, ← Nat.add_assoc, ← hbegin]
    _ = B.first + B.lineSize * (B.NUMITEMS / B.valueSize) := by
        rw [Nat.add_sub_cancel' hlines]

lemma not_lastRead_perm (hopen : B.NUMITEMS % B.valueSize ≠ 0)
    (h : R.offsets.border (B.lRank R) = B.last) : ¬(B.lastRead R).Perm B.lastLine := by
  intro hperm
  rw [lastRead] at hperm
  split_ifs at hperm with hsize
  · have hfirst : B.getFirst R (B.lRank R) = B.last := by
      rw [getFirst_lRank, border, h]
      exact Ranks.clamp_of_ge le_rfl
    -- the first value that is read lies behind the block
    have hmem : B.getFirst R (B.lRank R) + B.lineSize * B.size R (B.lRank R) + 0 * B.valueLength
        ∈ B.lastLine :=
      hperm.subset (List.mem_map.mpr ⟨0, List.mem_range.mpr (Nat.pos_of_ne_zero hopen), rfl⟩)
    obtain ⟨k, hk, heq⟩ := List.mem_map.mp hmem
    have hle := Nat.mul_le_mul_right B.valueLength (List.mem_range.mp hk).le
    have hpos := B.lineEndSize_pos
    rw [hfirst, last, CMCommand.dataSize, CMCommand.lastLineSize, if_pos hopen,
      Nat.mul_comm (B.NUMITEMS / _)] at heq
    omega
  · have hlength := hperm.length_eq
    rw [lastLine, values, List.length_map, List.length_range, List.length_nil] at hlength
    exact hopen hlength.symm

lemma lastRead_perm_iff : (B.lastRead R).Perm B.lastLine ↔
    B.NUMITEMS % B.valueSize = 0 ∨ ∀ r ≤ R.size, R.offsets.border r ≠ B.last := by
  rw [border_ne_last_iff]
  by_cases hopen : B.NUMITEMS % B.valueSize = 0
  · have hread : B.lastRead R = [] := by simp [lastRead, hopen, values]
    have hline : B.lastLine = [] := by simp [lastLine, hopen, values]
    simp [hread, hline, hopen]
  · constructor
    · intro hperm
      refine Or.inr (Nat.lt_of_le_of_ne (R.rankOf_spec B.last).2.1 fun heq => ?_)
      exact B.not_lastRead_perm R hopen heq hperm
    · intro h
      rw [B.lastRead_eq R hopen (h.resolve_left hopen)]

/-- **Each item is read exactly once** if and only if all lines are full, or no rank begins exactly
behind the block. -/
theorem readOnce_iff : B.ReadOnce R ↔
    B.NUMITEMS % B.valueSize = 0 ∨ ∀ r ≤ R.size, R.offsets.border r ≠ B.last := by
  have hpositions := B.flatMap_positions R
  rw [← B.lastRead_perm_iff R, ← List.perm_append_left_iff
    ((List.range (B.NUMITEMS / B.valueSize)).flatMap B.fullLine), ← items_eq]
  have hread : ((List.range R.size).flatMap (B.readData R)).Perm
      (((List.range R.size).flatMap (B.positions R)).filterMap B.index) := by
    rw [List.filterMap_flatMap]
    exact List.Perm.flatMap_left _ fun r _ => List.mergeSort_perm _ _
  constructor
  · intro h
    exact hpositions.symm.trans h.1
  · intro h
    exact ⟨hpositions.trans h, hread.trans ((hpositions.trans h).filterMap _)⟩

/-! ## A rank behind the block -/

def threeText : List Char :=
  ['C', 'M', 'B', 'L', 'O', 'C', 'K', ',', 'N', ',', 'N', 'O', 'D', 'E', ',', '3', '\n',
    '(', '2', 'i', '3', ')', '\n', ' ', ' ', '5', ' ', ' ', '7', '\n', ' ', ' ', '9', '\n',
    'F', 'I', 'N', 'I', 'S', 'H', '\n']

def threeCommand : CMCommand := ⟨3, 2, 3, 1, by decide, by decide, by decide⟩

lemma three_last_le : 23 + threeCommand.dataSize ≤ threeText.length := by decide

lemma three_newline_iff (p : ℕ) (hfirst : 23 ≤ p) (hlast : p < 23 + threeCommand.dataSize) :
    threeText[p]? = some '\n' ↔
      threeCommand.lineSize ∣ p + 1 - 23 ∨ p + 1 = 23 + threeCommand.dataSize := by
  have hall : ∀ p < 34, 23 ≤ p → (threeText[p]? = some '\n' ↔
      threeCommand.lineSize ∣ p + 1 - 23 ∨ p + 1 = 23 + threeCommand.dataSize) := by decide
  exact hall p hlast hfirst

def three : CMBlock threeText := ⟨threeCommand, 23, three_last_le, three_newline_iff⟩

lemma two_sorted : [0, 34, 41].Pairwise (· ≤ ·) := by decide

def twoOffsets : Distribution 2 threeText.length := ⟨[0, 34, 41], rfl, two_sorted, rfl, rfl⟩

lemma two_atLines : ∀ r ≤ 2, IsStart '\n' threeText (twoOffsets.border r) ∨
    twoOffsets.border r = threeText.length := by decide

def twoRanks : Ranks threeText := ⟨2, twoOffsets, two_atLines, 1, Nat.one_pos⟩

/-- The second rank reads the item of the last line from the next command. -/
theorem three_not_readOnce : ¬three.ReadOnce twoRanks := by
  rintro ⟨hperm, -⟩
  have hmem : 30 ∈ three.items := by decide
  have hnot : 30 ∉ (List.range 2).flatMap (three.positions twoRanks) := by decide
  exact hnot (hperm.symm.subset hmem)

end CMBlock

end Workbench

end Espreso
