import Espreso.Basis.Distribution
import Espreso.Lib.Lines

/-!
# The commands of a Workbench file

`WorkbenchLoader::prepareData` looks for the commands, and for the ends of their blocks, at the
beginnings of lines.  The text of a rank is split between its threads.

* `Text` — the text of a rank.
* `Text.scanThread`, `Text.prepareData` — the loop of one thread, and the results of all threads.
* `Text.prepareData_eq_iff` — when more threads find the same as a single one.
-/

namespace Espreso

namespace Workbench

open Lines

/-- The commands that are looked for. -/
inductive Command
  | NBlock
  | EBlock
  | CMBlock
  | ET
  | ESel
  | CM
  deriving DecidableEq

namespace Command

def upper : Command → List Char
  | NBlock => ['N', 'B', 'L', 'O', 'C', 'K']
  | EBlock => ['E', 'B', 'L', 'O', 'C', 'K']
  | CMBlock => ['C', 'M', 'B', 'L', 'O', 'C', 'K']
  | ET => ['E', 'T', ',']
  | ESel => ['E', 'S', 'E', 'L', ',']
  | CM => ['C', 'M', ',']

def lower : Command → List Char
  | NBlock => ['n', 'b', 'l', 'o', 'c', 'k']
  | EBlock => ['e', 'b', 'l', 'o', 'c', 'k']
  | CMBlock => ['c', 'm', 'b', 'l', 'o', 'c', 'k']
  | ET => ['e', 't', ',']
  | ESel => ['e', 's', 'e', 'l', ',']
  | CM => ['c', 'm', ',']

end Command

namespace BlockEnd

def nUpper : List Char := ['N', ',']
def nLower : List Char := ['n', ',']
def unixEnd : List Char := ['-', '1', '\n']
def winEnd : List Char := ['-', '1', '\r', '\n']

end BlockEnd

/-- **The text of a rank** between `_pfile.begin` and `_pfile.end`.  In front of it a line ends. -/
structure Text where
  text : List Char
  ends : ∃ front, text = front ++ ['\n']

/-- What is found: the positions of each command, and those of the ends of blocks. -/
structure Scan where
  commands : Command → List ℕ
  blockEnds : List ℕ

namespace Text

variable (T : Text)

/-- `BlockEnd().parse(p)`: the beginning of the line in front of a position. -/
def parseBlockEnd (p : ℕ) : ℕ := p - ((T.text.take p).reverse.takeWhile (· ≠ '\n')).length

def endsBehind (p : ℕ) : List ℕ :=
  (if BlockEnd.unixEnd <:+ T.text.take p
    then [T.parseBlockEnd (p - BlockEnd.unixEnd.length)] else []) ++
  if BlockEnd.winEnd <:+ T.text.take p
    then [T.parseBlockEnd (p - BlockEnd.winEnd.length)] else []

/-- The calls of `parse` for a command at a position. -/
def commandAt (c : Command) (p : ℕ) : List ℕ :=
  (if c.upper <+: T.text.drop p then [p] else []) ++ if c.lower <+: T.text.drop p then [p] else []

/-- The ends of blocks by `N,` at a position. -/
def endsAt (p : ℕ) : List ℕ :=
  (if BlockEnd.nUpper <+: T.text.drop p then [T.parseBlockEnd p] else []) ++
  if BlockEnd.nLower <+: T.text.drop p then [T.parseBlockEnd p] else []

/-- The body of the loop over the lines, where a thread starts at `first`. -/
def visit (first tbegin : ℕ) (scan : Scan) : Scan where
  commands c := scan.commands c ++ T.commandAt c tbegin
  blockEnds := scan.blockEnds ++
    ((if tbegin ≠ first then T.endsBehind tbegin else []) ++ T.endsAt tbegin)

/-- The loop over the lines from `tbegin` on, with the number of lines that are left. -/
def scanLoop (first last : ℕ) : ℕ → ℕ → Scan → ℕ × Scan
  | 0, tbegin, scan => (tbegin, scan)
  | fuel + 1, tbegin, scan =>
    if tbegin < last then
      scanLoop first last fuel (nextStart '\n' T.text tbegin) (T.visit first tbegin scan)
    else (tbegin, scan)

def tdistribution (threads t : ℕ) : ℕ := (distribute threads T.text.length).getD t 0

/-- The first line of thread `t`. -/
def firstLine (threads t : ℕ) : ℕ :=
  if t ≠ 0 ∧ T.text[T.tdistribution threads t - 1]? ≠ some '\n' then
    nextStart '\n' T.text (T.tdistribution threads t)
  else T.tdistribution threads t

/-- What thread `t` finds. -/
def scanThread (threads t : ℕ) : Scan :=
  let found := T.scanLoop (T.tdistribution threads t) (T.tdistribution threads (t + 1)) T.text.length
    (T.firstLine threads t) ⟨fun _ => [], []⟩
  if t + 1 = threads then
    { found.2 with blockEnds := found.2.blockEnds ++ T.endsBehind found.1 }
  else found.2

/-- **`WorkbenchLoader::prepareData`** up to the exchange with other ranks. -/
def prepareData (threads : ℕ) : Scan where
  commands c := (List.range threads).flatMap fun t => (T.scanThread threads t).commands c
  blockEnds := (List.range threads).flatMap fun t => (T.scanThread threads t).blockEnds

/-! ## The lines of a thread -/

def starts (first last : ℕ) : List ℕ :=
  (List.range' first (last - first)).filter (IsStart '\n' T.text ·)

variable {T}

lemma starts_eq {p q last : ℕ} (hpq : p ≤ q) (hnone : ∀ r, p ≤ r → r < q → ¬IsStart '\n' T.text r) :
    T.starts p last = T.starts q last := by
  rcases Nat.lt_or_ge last q with hlt | hge
  · have hzero : last - q = 0 := by omega
    rw [starts, starts, hzero, List.range'_zero, List.filter_nil, List.filter_eq_nil_iff]
    intro r hr
    rw [List.mem_range'_1] at hr
    simpa using hnone r hr.1 (by omega)
  · have hsplit : List.range' p (last - p) = List.range' p (q - p) ++ List.range' q (last - q) := by
      have h := List.range'_append_1 (s := p) (m := q - p) (n := last - q)
      rw [show p + (q - p) = q by omega, show q - p + (last - q) = last - p by omega] at h
      exact h.symm
    have hempty : (List.range' p (q - p)).filter (IsStart '\n' T.text ·) = [] := by
      rw [List.filter_eq_nil_iff]
      intro r hr
      rw [List.mem_range'_1] at hr
      simpa using hnone r hr.1 (by omega)
    rw [starts, hsplit, List.filter_append, hempty, List.nil_append, starts]

lemma mem_drop {p : ℕ} (hp : p < T.text.length) : '\n' ∈ T.text.drop p := by
  obtain ⟨front, hfront⟩ := T.ends
  rw [hfront, List.length_append, List.length_singleton] at hp
  rw [hfront, List.drop_append_of_le_length (by omega)]
  simp

lemma starts_cons {p last : ℕ} (hp : p < last) (hlast : last ≤ T.text.length)
    (hstart : IsStart '\n' T.text p) :
    T.starts p last = p :: T.starts (nextStart '\n' T.text p) last := by
  have hlt : p < nextStart '\n' T.text p := lt_nextStart (hp.trans_le hlast)
  rw [← starts_eq (Nat.succ_le_of_lt hlt) fun r hr hlt => not_isStart (Nat.lt_of_succ_le hr) hlt,
    starts, show last - p = last - (p + 1) + 1 by omega, List.range'_succ, List.filter_cons,
    if_pos (decide_eq_true hstart)]
  rfl

lemma scanLoop_spec {last fuel p : ℕ} (first : ℕ) (scan : Scan) (hlast : last ≤ T.text.length)
    (hp : p < T.text.length → IsStart '\n' T.text p) (hfuel : T.text.length ≤ p + fuel) :
    (T.scanLoop first last fuel p scan).2 =
      { commands := fun c => scan.commands c ++ (T.starts p last).flatMap (T.commandAt c)
        blockEnds := scan.blockEnds ++ (T.starts p last).flatMap fun q =>
          (if q ≠ first then T.endsBehind q else []) ++ T.endsAt q } ∧
    (p ≤ T.text.length → last ≤ (T.scanLoop first last fuel p scan).1 ∧
      (T.scanLoop first last fuel p scan).1 ≤ T.text.length) := by
  induction fuel generalizing p scan with
  | zero =>
      have hempty : T.starts p last = [] := by
        rw [starts, show last - p = 0 by omega, List.range'_zero, List.filter_nil]
      rw [scanLoop, hempty]
      refine ⟨by simp, fun h => ⟨by omega, h⟩⟩
  | succ fuel ih =>
      rw [scanLoop]
      split_ifs with hlt
      · have hplen := hlt.trans_le hlast
        have hstart := hp hplen
        have hgt : p < nextStart '\n' T.text p := lt_nextStart hplen
        have hnext : nextStart '\n' T.text p ≤ T.text.length := nextStart_le hplen.le
        have hrest := ih (T.visit first p scan) (p := nextStart '\n' T.text p)
          (fun _ => isStart_nextStart (mem_drop hplen)) (by omega)
        refine ⟨?_, fun _ => hrest.2 hnext⟩
        rw [hrest.1, starts_cons hlt hlast hstart]
        simp only [visit, List.flatMap_cons, List.append_assoc]
      · have hempty : T.starts p last = [] := by
          rw [starts, show last - p = 0 by omega, List.range'_zero, List.filter_nil]
        rw [hempty]
        exact ⟨by simp, fun h => ⟨Nat.le_of_not_lt hlt, h⟩⟩

lemma text_ne_nil : 0 < T.text.length := by
  obtain ⟨front, hfront⟩ := T.ends
  rw [hfront, List.length_append]
  exact Nat.succ_pos _

section Threads

variable {threads t : ℕ} (ht : t < threads)

include ht

lemma tdistribution_le : T.tdistribution threads t ≤ T.tdistribution threads (t + 1) ∧
    T.tdistribution threads (t + 1) ≤ T.text.length := by
  rw [tdistribution, tdistribution, distribute_getD _ ht]
  rcases Nat.lt_or_ge (t + 1) threads with hlt | hge
  · rw [distribute_getD _ hlt]
    refine ⟨min_le_min_right _ (Nat.mul_le_mul_right _ (Nat.le_succ t)), min_le_right _ _⟩
  · rw [show t + 1 = threads by omega, distribute_getD_last]
    exact ⟨min_le_right _ _, le_rfl⟩

lemma tdistribution_pos (hpos : t ≠ 0) : 0 < T.tdistribution threads t := by
  have hlength := T.text_ne_nil
  have hchunk : 0 < (T.text.length + threads - 1) / threads := Nat.div_pos (by omega) (by omega)
  rw [tdistribution, distribute_getD _ ht]
  exact lt_min (Nat.mul_pos (Nat.pos_of_ne_zero hpos) hchunk) hlength

lemma firstLine_spec : (T.firstLine threads t < T.text.length →
      IsStart '\n' T.text (T.firstLine threads t)) ∧
    T.firstLine threads t ≤ T.text.length ∧
    ∀ last, T.starts (T.firstLine threads t) last = T.starts (T.tdistribution threads t) last := by
  have hle := (tdistribution_le (T := T) ht).1.trans (tdistribution_le ht).2
  rw [firstLine]
  split_ifs with h
  · obtain ⟨hpos, hne⟩ := h
    have hstart : ¬IsStart '\n' T.text (T.tdistribution threads t) := by
      rintro (hzero | hnl)
      · exact (tdistribution_pos ht hpos).ne' hzero
      · exact hne hnl
    have hlt : T.tdistribution threads t < T.text.length := by
      refine lt_of_le_of_ne hle fun heq => hne ?_
      obtain ⟨front, hfront⟩ := T.ends
      rw [heq, hfront]
      simp
    refine ⟨fun _ => isStart_nextStart (mem_drop hlt), nextStart_le hle, fun last => ?_⟩
    refine (starts_eq (lt_nextStart hlt).le fun r hr hr' => ?_).symm
    rcases Nat.eq_or_lt_of_le hr with rfl | hr
    · exact hstart
    · exact not_isStart hr hr'
  · refine ⟨fun _ => ?_, hle, fun _ => rfl⟩
    rcases Nat.eq_zero_or_pos t with rfl | hpos
    · refine Or.inl ?_
      rw [tdistribution, distribute_getD _ ht]
      simp
    · exact Or.inr (not_not.mp fun hne => h ⟨hpos.ne', hne⟩)

/-- **What a thread finds**: the commands in its lines, and the ends of blocks in the lines in front
of them, but not in front of a line at its border. -/
lemma scanThread_eq : T.scanThread threads t =
    { commands := fun c => (T.starts (T.tdistribution threads t)
        (T.tdistribution threads (t + 1))).flatMap (T.commandAt c)
      blockEnds := ((T.starts (T.tdistribution threads t)
        (T.tdistribution threads (t + 1))).flatMap fun q =>
          (if q ≠ T.tdistribution threads t then T.endsBehind q else []) ++ T.endsAt q) ++
        if t + 1 = threads then T.endsBehind T.text.length else [] } := by
  obtain ⟨hstart, hle, hstarts⟩ := firstLine_spec (T := T) ht
  rw [scanThread]
  set found := T.scanLoop (T.tdistribution threads t) (T.tdistribution threads (t + 1)) T.text.length
    (T.firstLine threads t) ⟨fun _ => [], []⟩ with hfound_def
  obtain ⟨hscan, hstop⟩ := scanLoop_spec (T.tdistribution threads t) ⟨fun _ => [], []⟩
    (tdistribution_le ht).2 hstart (Nat.le_add_left _ _)
  rw [← hfound_def] at hscan hstop
  rw [hstarts] at hscan
  split_ifs with hlast
  · have hend : T.tdistribution threads (t + 1) = T.text.length := by
      rw [hlast, tdistribution, distribute_getD_last]
    have hfound := hstop hle
    rw [hscan, le_antisymm hfound.2 (hend ▸ hfound.1)]
    simp
  · rw [hscan]
    simp

end Threads

/-! ## All threads -/

def EndsBlock (T : Text) (p : ℕ) : Prop :=
  BlockEnd.unixEnd <:+ T.text.take p ∨ BlockEnd.winEnd <:+ T.text.take p

instance (p : ℕ) : Decidable (T.EndsBlock p) := inferInstanceAs (Decidable (_ ∨ _))

lemma endsBehind_eq_nil_iff {p : ℕ} : T.endsBehind p = [] ↔ ¬T.EndsBlock p := by
  rw [endsBehind, EndsBlock, List.append_eq_nil_iff, not_or]
  simp

lemma EndsBlock.isStart {p : ℕ} (hp : p ≤ T.text.length) (h : T.EndsBlock p) :
    IsStart '\n' T.text p := by
  have hlast : (T.text.take p).getLast? = some '\n' := by
    rcases h with ⟨front, hfront⟩ | ⟨front, hfront⟩
    · rw [← hfront, BlockEnd.unixEnd]
      simp
    · rw [← hfront, BlockEnd.winEnd]
      simp
  rw [List.getLast?_eq_getElem?, List.length_take, min_eq_left hp] at hlast
  rcases Nat.eq_zero_or_pos p with rfl | hpos
  · exact Or.inl rfl
  · rw [List.getElem?_take_of_lt (Nat.sub_one_lt hpos.ne')] at hlast
    exact Or.inr hlast

lemma starts_append {a b c : ℕ} (hab : a ≤ b) (hbc : b ≤ c) :
    T.starts a b ++ T.starts b c = T.starts a c := by
  rw [starts, starts, starts, ← List.filter_append]
  congr 1
  have h := List.range'_append_1 (s := a) (m := b - a) (n := c - b)
  rw [show a + (b - a) = b by omega, show b - a + (c - b) = c - a by omega] at h
  exact h

lemma mem_starts {p last q : ℕ} : q ∈ T.starts p last ↔ (p ≤ q ∧ q < last) ∧ IsStart '\n' T.text q := by
  rw [starts, List.mem_filter, List.mem_range'_1, decide_eq_true_eq]
  refine and_congr_left fun _ => ?_
  omega

lemma flatMap_starts {α : Type} {threads n : ℕ} (hn : n ≤ threads) (hpos : 0 < n) (f : ℕ → List α) :
    ((List.range n).flatMap fun t =>
      (T.starts (T.tdistribution threads t) (T.tdistribution threads (t + 1))).flatMap f)
      = (T.starts 0 (T.tdistribution threads n)).flatMap f := by
  induction n with
  | zero => omega
  | succ n ih =>
      have hle := tdistribution_le (T := T) (show n < threads by omega)
      rw [List.range_succ, List.flatMap_append, List.flatMap_singleton]
      rcases Nat.eq_zero_or_pos n with rfl | hpos
      · have hzero : T.tdistribution threads 0 = 0 := by
          rw [tdistribution, distribute_getD _ (by omega)]
          simp
        rw [hzero]
        simp
      · rw [ih (by omega) hpos, ← List.flatMap_append, starts_append (Nat.zero_le _) hle.1]

def IsBorder (T : Text) (threads p : ℕ) : Prop := ∃ t < threads, T.tdistribution threads t = p

lemma tdistribution_mono {threads s t : ℕ} (hst : s ≤ t) (ht : t ≤ threads) :
    T.tdistribution threads s ≤ T.tdistribution threads t := by
  induction t with
  | zero => rw [Nat.le_zero.mp hst]
  | succ t ih =>
      rcases Nat.eq_or_lt_of_le hst with rfl | hlt
      · exact le_rfl
      · exact (ih (by omega) (by omega)).trans (tdistribution_le (by omega)).1

lemma isBorder_iff {threads t q : ℕ} (ht : t < threads) (hlow : T.tdistribution threads t ≤ q)
    (hhigh : q < T.tdistribution threads (t + 1)) :
    T.IsBorder threads q ↔ q = T.tdistribution threads t := by
  constructor
  · rintro ⟨s, hs, rfl⟩
    rcases Nat.lt_or_ge t s with hlt | hge
    · have := tdistribution_mono (T := T) (Nat.succ_le_of_lt hlt) hs.le
      simp only [Nat.succ_eq_add_one] at this
      omega
    · exact le_antisymm (tdistribution_mono hge ht.le) hlow
  · rintro rfl
    exact ⟨t, ht, rfl⟩

open Classical in
/-- **What all threads find**: all commands, and all ends of blocks but those in the lines in front of
the borders. -/
lemma prepareData_eq {threads : ℕ} (hthreads : 0 < threads) : T.prepareData threads =
    { commands := fun c => (T.starts 0 T.text.length).flatMap (T.commandAt c)
      blockEnds := ((T.starts 0 T.text.length).flatMap fun q =>
        (if T.IsBorder threads q then [] else T.endsBehind q) ++ T.endsAt q) ++
          T.endsBehind T.text.length } := by
  have hlast : T.tdistribution threads threads = T.text.length := distribute_getD_last _ _
  have hthread : ∀ t ∈ List.range threads, T.scanThread threads t = _ := fun t ht =>
    scanThread_eq (List.mem_range.mp ht)
  rw [prepareData, Scan.mk.injEq]
  constructor
  · funext c
    rw [List.flatMap_congr fun t ht => congrArg (Scan.commands · c) (hthread t ht)]
    dsimp only
    rw [flatMap_starts le_rfl hthreads, hlast]
  · rw [List.flatMap_congr fun t ht => congrArg Scan.blockEnds (hthread t ht)]
    dsimp only
    have hvisited : ∀ t ∈ List.range threads, ((T.starts (T.tdistribution threads t)
        (T.tdistribution threads (t + 1))).flatMap fun q =>
          (if q ≠ T.tdistribution threads t then T.endsBehind q else []) ++ T.endsAt q)
        = (T.starts (T.tdistribution threads t) (T.tdistribution threads (t + 1))).flatMap fun q =>
          (if T.IsBorder threads q then [] else T.endsBehind q) ++ T.endsAt q := by
      intro t ht
      refine List.flatMap_congr fun q hq => ?_
      obtain ⟨⟨hlow, hhigh⟩, -⟩ := mem_starts.mp hq
      simp only [isBorder_iff (List.mem_range.mp ht) hlow hhigh, ite_not]
    obtain ⟨m, rfl⟩ := Nat.exists_eq_add_one.mpr hthreads
    have hinner : ∀ t ∈ List.range m, (if t + 1 = m + 1 then T.endsBehind T.text.length else []) = [] :=
      fun t ht => if_neg (by have := List.mem_range.mp ht; omega)
    rw [← hlast, ← flatMap_starts le_rfl hthreads, hlast,
      ← List.flatMap_congr hvisited, List.range_succ, List.flatMap_append, List.flatMap_append,
      List.flatMap_singleton, List.flatMap_singleton, if_pos rfl,
      List.flatMap_congr fun t ht => by rw [hinner t ht, List.append_nil], List.append_assoc]

lemma prepareData_one : T.prepareData 1 =
    { commands := fun c => (T.starts 0 T.text.length).flatMap (T.commandAt c)
      blockEnds := ((T.starts 0 T.text.length).flatMap fun q => T.endsBehind q ++ T.endsAt q) ++
        T.endsBehind T.text.length } := by
  classical
  rw [prepareData_eq Nat.one_pos, Scan.mk.injEq]
  refine ⟨rfl, congrArg (· ++ _) (List.flatMap_congr fun q _ => ?_)⟩
  split_ifs with hborder
  · obtain ⟨t, ht, rfl⟩ := hborder
    obtain rfl := Nat.lt_one_iff.mp ht
    have hzero : T.tdistribution 1 0 = 0 := by
      rw [tdistribution, distribute_getD _ Nat.one_pos]
      simp
    have hnone : T.endsBehind (T.tdistribution 1 0) = [] := by
      rw [endsBehind_eq_nil_iff, EndsBlock, hzero, List.take_zero, List.suffix_nil, List.suffix_nil]
      rintro (h | h)
      · cases h
      · cases h
    rw [hnone]
  · rfl

lemma length_eq_of_flatMap_eq {f g : ℕ → List ℕ} {l : List ℕ}
    (hle : ∀ q ∈ l, (f q).length ≤ (g q).length) (heq : l.flatMap f = l.flatMap g) :
    ∀ q ∈ l, (f q).length = (g q).length := by
  have hsum : ∀ l : List ℕ, (∀ q ∈ l, (f q).length ≤ (g q).length) →
      (l.flatMap f).length ≤ (l.flatMap g).length := by
    intro l hle
    rw [List.length_flatMap, List.length_flatMap]
    exact List.sum_le_sum hle
  induction l with
  | nil => simp
  | cons p l ih =>
      have hl := List.forall_mem_cons.mp hle
      rw [List.flatMap_cons, List.flatMap_cons] at heq
      have hlength := congrArg List.length heq
      rw [List.length_append, List.length_append] at hlength
      have hp : (f p).length = (g p).length := by
        have := hl.1
        have := hsum l hl.2
        omega
      exact List.forall_mem_cons.mpr ⟨hp, ih hl.2 (List.append_inj heq hp).2⟩

/-- A command behind the end of a block, with the border of two threads between them. -/
def blockCommand : Text where
  text := ['1', ' ', '-', '1', '\n', 'E', 'T', ',', '1', '\n']
  ends := ⟨['1', ' ', '-', '1', '\n', 'E', 'T', ',', '1'], rfl⟩

/-- The end of a block behind a command, with the border of two threads between them. -/
def commandBlock : Text where
  text := ['E', 'T', ',', '1', '\n', '1', ' ', '-', '1', '\n']
  ends := ⟨['E', 'T', ',', '1', '\n', '1', ' ', '-', '1'], rfl⟩

end Text

end Workbench

end Espreso
