import Espreso.Basis.Communication
import Espreso.Basis.Distribution
import Espreso.Lib.Lines

/-!
# Whole lines for all ranks

`MPILoader::align` moves the first, possibly open, line of each rank to the rank in front of it.  More
lines are copied there, to be read behind the end of the range.

* `Buffer` — the data of a rank, which begin with a part of the text.
* `align` — the function, on all ranks together.
* `SplitText.aligned_iff` — when all ranks end with whole lines.
-/

namespace Espreso

namespace MPILoader

open Lines

/-- **The data of a rank**: its part of the text between `begin` and `end`, and the other bytes of the
vector, that a rank has room for. -/
structure Buffer where
  text : List Char
  behind : List Char
  capacity : ℕ
  notMem_behind : '\n' ∉ behind
  le_capacity : text.length + behind.length ≤ capacity

/-- `while (*p++ != '\n')`: the position behind the end of a line, if there is one. -/
def skipLine : List Char → Option ℕ
  | [] => none
  | c :: data => if c ≠ '\n' then (skipLine data).map (· + 1) else some 1

/-- The same for `n` lines. -/
def skipLines : ℕ → List Char → Option ℕ
  | 0, _ => some 0
  | n + 1, data => do
    let first ← skipLine data
    let others ← skipLines n (data.drop first)
    some (first + others)

/-- `_current`, and the message to the rank in front. -/
def exchange (lines rank : ℕ) (buffer : Buffer) : Option (ℕ × List Char) :=
  if rank = 0 then some (0, []) else do
    let data := buffer.text ++ buffer.behind
    let current ← skipLine data
    let others ← skipLines (lines - 1) (data.drop current)
    if (current + others) ≤ limit then some (current, data.take (current + others)) else none

/-- A rank behind the alignment. `moved` says that the vector has got another place in the memory, so
`begin` and `end` are no longer pointers into it. -/
structure Aligned where
  data : List Char
  start : ℕ
  stop : ℕ
  moved : Bool

/-- The bytes between `begin` and `end`. -/
def Aligned.content (a : Aligned) : List Char := window a.data a.start a.stop

/-- The rest of the function, with the message from the rank behind. -/
def attach (buffer : Buffer) (current : ℕ) (rBuffer : List Char) : Option Aligned := do
  let firstLineEnd ← if rBuffer.length ≠ 0 then skipLine rBuffer else some 0
  some { data := buffer.text ++ rBuffer ++ buffer.behind.drop rBuffer.length
         start := current
         stop := buffer.text.length + firstLineEnd
         moved := buffer.capacity < buffer.text.length + rBuffer.length }

/-- The ranks from `rank` on: what the first one sends, and all of them behind the alignment. -/
def alignFrom (lines : ℕ) : ℕ → List Buffer → Option (List Char × List Aligned)
  | _, [] => some ([], [])
  | rank, buffer :: buffers => do
    let (rBuffer, others) ← alignFrom lines (rank + 1) buffers
    let (current, sBuffer) ← exchange lines rank buffer
    let aligned ← attach buffer current rBuffer
    some (sBuffer, aligned :: others)

/-- **`MPILoader::align`** on all ranks. -/
def align (lines : ℕ) (buffers : List Buffer) : Option (List Aligned) :=
  if (buffers.map fun buffer => buffer.text.length).sum = 0 ∨ buffers.length = 1 then
    some (buffers.map fun buffer =>
      ⟨buffer.text ++ buffer.behind, 0, buffer.text.length, false⟩)
  else (alignFrom lines 0 buffers).map Prod.snd

/-- `offsets[r]`, the number of bytes between `begin` and `end` of the ranks in front. -/
def offset (ranks : List Aligned) (r : ℕ) : ℕ :=
  ((ranks.take r).map fun a => a.stop - a.start).sum

/-! ## Lines -/

lemma skipLine_eq {data : List Char} :
    skipLine data = if '\n' ∈ data then some (takeLines '\n' 1 data).length else none := by
  induction data with
  | nil => rfl
  | cons c data ih =>
      rw [skipLine, takeLines]
      by_cases hc : c = '\n'
      · simp [hc]
      · have hmem : '\n' ∈ c :: data ↔ '\n' ∈ data := by simp [Ne.symm hc]
        rw [if_pos hc, ih, if_neg hc]
        simp only [hmem]
        split_ifs
        · rfl
        · rfl

lemma skipLines_eq {n : ℕ} {data : List Char} (h : n ≤ data.count '\n') :
    skipLines n data = some (takeLines '\n' n data).length := by
  induction n generalizing data with
  | zero => simp [skipLines]
  | succ n ih =>
      have hmem : '\n' ∈ data := List.count_pos_iff.mp (by omega)
      have hrest : n ≤ (data.drop (takeLines '\n' 1 data).length).count '\n' := by
        rw [count_drop_takeLines]
        omega
      rw [skipLines, skipLine_eq, if_pos hmem]
      simp only [Option.bind_eq_bind, Option.bind_some, ih hrest]
      rw [Nat.add_comm n 1, takeLines_add, List.length_append]

def Buffer.message (lines : ℕ) (buffer : Buffer) : List Char :=
  takeLines '\n' (max lines 1) buffer.text

def Buffer.firstLine (buffer : Buffer) : List Char := takeLines '\n' 1 buffer.text

lemma takeLines_behind (buffer : Buffer) {n : ℕ} (h : n ≤ buffer.text.count '\n') :
    takeLines '\n' n (buffer.text ++ buffer.behind) = takeLines '\n' n buffer.text :=
  takeLines_append h _

lemma exchange_eq {lines rank : ℕ} (hrank : rank ≠ 0) {buffer : Buffer}
    (hlines : lines ≤ buffer.text.count '\n') : exchange lines rank buffer =
      if '\n' ∈ buffer.text ∧ (buffer.message lines).length ≤ limit
      then some (buffer.firstLine.length, buffer.message lines) else none := by
  have hbehind : '\n' ∈ buffer.text ++ buffer.behind ↔ '\n' ∈ buffer.text := by
    simp [buffer.notMem_behind]
  rw [exchange, if_neg hrank]
  simp only [skipLine_eq, hbehind]
  by_cases hmem : '\n' ∈ buffer.text
  · have hone : 1 ≤ buffer.text.count '\n' := List.count_pos_iff.mpr hmem
    have hsum : max lines 1 = 1 + (lines - 1) := by omega
    have hothers : lines - 1
        ≤ ((buffer.text ++ buffer.behind).drop buffer.firstLine.length).count '\n' := by
      rw [Buffer.firstLine, ← takeLines_behind buffer hone, count_drop_takeLines, List.count_append]
      omega
    have hmessage : (buffer.message lines).length = buffer.firstLine.length + (takeLines '\n' (lines - 1)
        ((buffer.text ++ buffer.behind).drop buffer.firstLine.length)).length := by
      rw [Buffer.message, ← takeLines_behind buffer (by omega), hsum, takeLines_add,
        List.length_append, takeLines_behind buffer hone, Buffer.firstLine]
    have htake : (buffer.text ++ buffer.behind).take (buffer.message lines).length
        = buffer.message lines := by
      rw [Buffer.message, ← takeLines_behind buffer (by omega), take_length_takeLines]
    simp only [hmem, if_true, true_and, Option.bind_eq_bind, Option.bind_some,
      takeLines_behind buffer hone, ← Buffer.firstLine.eq_1, skipLines_eq hothers, ← hmessage, htake]
  · simp [hmem]

/-! ## All ranks -/

def firstMessage (lines : ℕ) : List Buffer → List Char
  | [] => []
  | buffer :: _ => buffer.message lines

def Buffer.aligned (buffer : Buffer) (current : ℕ) (rBuffer : List Char) : Aligned where
  data := buffer.text ++ rBuffer ++ buffer.behind.drop rBuffer.length
  start := current
  stop := buffer.text.length + (takeLines '\n' 1 rBuffer).length
  moved := buffer.capacity < buffer.text.length + rBuffer.length

def others (lines : ℕ) : List Buffer → List Aligned
  | [] => []
  | buffer :: buffers =>
    buffer.aligned buffer.firstLine.length (firstMessage lines buffers) :: others lines buffers

def Buffer.Sends (lines : ℕ) (buffer : Buffer) : Prop :=
  '\n' ∈ buffer.text ∧ (buffer.message lines).length ≤ limit

instance (lines : ℕ) (buffer : Buffer) : Decidable (buffer.Sends lines) :=
  inferInstanceAs (Decidable (_ ∧ _))

lemma Buffer.Sends.count_message {lines : ℕ} {buffer : Buffer} (h : buffer.Sends lines) :
    1 ≤ (buffer.message lines).count '\n' := by
  have hpos : 0 < buffer.text.count '\n' := List.count_pos_iff.mpr h.1
  rw [message, count_takeLines]
  omega

lemma attach_eq {buffer : Buffer} {current : ℕ} {rBuffer : List Char}
    (h : rBuffer = [] ∨ 1 ≤ rBuffer.count '\n') :
    attach buffer current rBuffer = some (buffer.aligned current rBuffer) := by
  rcases h with rfl | h
  · simp [attach, Buffer.aligned]
  · have hmem : '\n' ∈ rBuffer := List.count_pos_iff.mp h
    have hne : rBuffer.length ≠ 0 := (List.length_pos_of_mem hmem).ne'
    rw [attach, if_pos hne, skipLine_eq, if_pos hmem]
    rfl

lemma firstMessage_spec {lines : ℕ} {buffers : List Buffer} (h : ∀ b ∈ buffers, b.Sends lines) :
    firstMessage lines buffers = [] ∨ 1 ≤ (firstMessage lines buffers).count '\n' := by
  cases buffers with
  | nil => exact Or.inl rfl
  | cons buffer buffers => exact Or.inr (h buffer List.mem_cons_self).count_message

lemma alignFrom_eq {lines rank : ℕ} (hrank : rank ≠ 0) {buffers : List Buffer}
    (hlines : ∀ b ∈ buffers, lines ≤ b.text.count '\n') :
    alignFrom lines rank buffers = if ∀ b ∈ buffers, b.Sends lines
      then some (firstMessage lines buffers, others lines buffers) else none := by
  induction buffers generalizing rank with
  | nil => simp [alignFrom, firstMessage, others]
  | cons buffer buffers ih =>
      have hrest := ih (Nat.succ_ne_zero rank) fun b hb => hlines b (List.mem_cons_of_mem _ hb)
      rw [alignFrom.eq_def]
      simp only
      rw [hrest, exchange_eq hrank (hlines buffer List.mem_cons_self)]
      by_cases hall : ∀ b ∈ buffers, b.Sends lines
      · by_cases hsends : buffer.Sends lines
        · have hattach : attach buffer buffer.firstLine.length (firstMessage lines buffers) = _ :=
            attach_eq (firstMessage_spec hall)
          rw [if_pos hall, if_pos (List.forall_mem_cons.mpr ⟨hsends, hall⟩)]
          simp only [Option.bind_eq_bind, Option.bind_some, if_pos (show _ ∧ _ from hsends), hattach]
          rfl
        · rw [if_pos hall, if_neg fun h => hsends (List.forall_mem_cons.mp h).1]
          simp only [Option.bind_eq_bind, Option.bind_some, if_neg (show ¬(_ ∧ _) from hsends)]
          rfl
      · rw [if_neg hall, if_neg fun h => hall (List.forall_mem_cons.mp h).2]
        rfl

/-! ## Whole lines -/

/-- **What a rank and the rank behind it hold**: the first one ends with the end of a line, and behind
its end there are the next lines of the other one. -/
def Neighbours (lines : ℕ) (a a' : Aligned) : Prop :=
  (a.content = [] ∨ ∃ front, a.content = front ++ ['\n']) ∧ lines - 1 ≤ a'.content.count '\n' ∧
    takeLines '\n' (lines - 1) a'.content <+: a.data.drop a.stop

/-- **All ranks are aligned**: their ranges lie in their vectors and are the text, `offsets` holds the
positions of their first bytes, and they consist of whole lines. -/
structure AlignedTo (lines : ℕ) (text : List Char) (ranks : List Aligned) : Prop where
  accessible : ∀ a ∈ ranks, a.moved = false ∧ a.start ≤ a.stop ∧ a.stop ≤ a.data.length
  covered : ranks.flatMap Aligned.content = text
  position : ∀ r a, ranks[r]? = some a → a.content <+: text.drop (offset ranks r)
  neighbours : ranks.IsChain (Neighbours lines)

lemma length_content {a : Aligned} (h : a.stop ≤ a.data.length) :
    a.content.length = a.stop - a.start := length_window _ h

lemma position_of_covered {text : List Char} {ranks : List Aligned}
    (hstop : ∀ a ∈ ranks, a.stop ≤ a.data.length)
    (hcovered : ranks.flatMap Aligned.content = text) {r : ℕ} {a : Aligned}
    (ha : ranks[r]? = some a) : a.content <+: text.drop (offset ranks r) := by
  induction ranks generalizing text r with
  | nil => simp at ha
  | cons a' ranks ih =>
      rw [← hcovered, List.flatMap_cons]
      rcases r with _ | r
      · obtain rfl : a' = a := by simpa using ha
        exact List.prefix_append _ _
      · have hoffset : offset (a' :: ranks) (r + 1) = a'.content.length + offset ranks r := by
          rw [length_content (hstop a' List.mem_cons_self)]
          rfl
        rw [hoffset, ← List.drop_drop, List.drop_left]
        exact ih (fun b hb => hstop b (List.mem_cons_of_mem a' hb)) rfl (by simpa using ha)

lemma content_aligned {buffer : Buffer} {current : ℕ} (h : current ≤ buffer.text.length)
    (rBuffer : List Char) : (buffer.aligned current rBuffer).content
      = buffer.text.drop current ++ takeLines '\n' 1 rBuffer := by
  have hlength : (takeLines '\n' 1 rBuffer).length ≤ rBuffer.length := length_takeLines_le _ _
  have hcontent : (buffer.aligned current rBuffer).content
      = ((buffer.text ++ (rBuffer ++ buffer.behind.drop rBuffer.length)).drop current).take
        (buffer.text.length + (takeLines '\n' 1 rBuffer).length - current) := by
    rw [← List.append_assoc]
    rfl
  have htext : (buffer.text.drop current).length
      ≤ buffer.text.length + (takeLines '\n' 1 rBuffer).length - current := by
    rw [List.length_drop]
    omega
  have hrest : buffer.text.length + (takeLines '\n' 1 rBuffer).length - current
      - (buffer.text.drop current).length = (takeLines '\n' 1 rBuffer).length := by
    rw [List.length_drop]
    omega
  rw [hcontent, List.drop_append_of_le_length h, List.take_append, List.take_of_length_le htext, hrest,
    List.take_append_of_le_length hlength, take_length_takeLines]

def Fits (lines : ℕ) (buffer buffer' : Buffer) : Prop :=
  buffer.text.length + (buffer'.message lines).length ≤ buffer.capacity

lemma length_firstLine_le (buffer : Buffer) : buffer.firstLine.length ≤ buffer.text.length :=
  length_takeLines_le _ _

lemma message_eq (lines : ℕ) (buffer : Buffer) : buffer.message lines
    = buffer.firstLine ++ takeLines '\n' (lines - 1) (buffer.text.drop buffer.firstLine.length) := by
  rw [Buffer.message, show max lines 1 = 1 + (lines - 1) by omega, takeLines_add]
  rfl

lemma takeLines_message {lines : ℕ} {buffer : Buffer} (h : buffer.Sends lines) :
    takeLines '\n' 1 (buffer.message lines) = buffer.firstLine := by
  have hone : 1 ≤ buffer.text.count '\n' := List.count_pos_iff.mpr h.1
  have hfirst : 1 ≤ buffer.firstLine.count '\n' := by
    rw [Buffer.firstLine, count_takeLines]
    omega
  have htwice : takeLines '\n' 1 (buffer.firstLine ++ buffer.text.drop buffer.firstLine.length)
      = takeLines '\n' 1 buffer.firstLine := takeLines_append hfirst _
  rw [Buffer.firstLine, takeLines_append_drop] at htwice
  rw [message_eq, takeLines_append hfirst, Buffer.firstLine, ← htwice]

lemma accessible_aligned {buffer : Buffer} {current : ℕ} (h : current ≤ buffer.text.length)
    (rBuffer : List Char) (hfits : buffer.text.length + rBuffer.length ≤ buffer.capacity) :
    (buffer.aligned current rBuffer).moved = false ∧
      (buffer.aligned current rBuffer).start ≤ (buffer.aligned current rBuffer).stop ∧
      (buffer.aligned current rBuffer).stop ≤ (buffer.aligned current rBuffer).data.length := by
  have hlength : (takeLines '\n' 1 rBuffer).length ≤ rBuffer.length := length_takeLines_le _ _
  refine ⟨decide_eq_false (Nat.not_lt.mpr hfits), h.trans (Nat.le_add_right _ _), ?_⟩
  simp only [Buffer.aligned, List.length_append]
  omega

/-- **Two ranks**: the first one ends with the first line of the second one, and holds its next
lines. -/
lemma neighbours_aligned {lines current : ℕ} {buffer buffer' : Buffer}
    (hcurrent : current ≤ buffer.text.length) (hlines : lines ≤ buffer'.text.count '\n')
    (hsends : buffer'.Sends lines) (rBuffer : List Char) :
    Neighbours lines (buffer.aligned current (buffer'.message lines))
      (buffer'.aligned buffer'.firstLine.length rBuffer) := by
  have hone : 1 ≤ buffer'.text.count '\n' := List.count_pos_iff.mpr hsends.1
  have hrest : lines - 1 ≤ (buffer'.text.drop buffer'.firstLine.length).count '\n' := by
    rw [Buffer.firstLine, count_drop_takeLines]
    omega
  rw [Neighbours, content_aligned hcurrent, content_aligned (length_firstLine_le buffer'),
    takeLines_message hsends]
  refine ⟨Or.inr ?_, ?_, ?_⟩
  · obtain ⟨front, hfront⟩ := takeLines_eq_append Nat.one_pos hone
    rw [Buffer.firstLine, hfront, ← List.append_assoc]
    exact ⟨_, rfl⟩
  · rw [List.count_append]
    omega
  · have hdata : (buffer.aligned current (buffer'.message lines)).data.drop
        (buffer.aligned current (buffer'.message lines)).stop
        = takeLines '\n' (lines - 1) (buffer'.text.drop buffer'.firstLine.length)
          ++ buffer.behind.drop (buffer'.message lines).length := by
      simp only [Buffer.aligned, takeLines_message hsends]
      rw [← List.drop_drop, List.append_assoc, List.drop_left]
      conv_lhs => rw [message_eq, List.append_assoc, List.drop_left]
      rw [message_eq]
    rw [hdata, takeLines_append hrest]
    exact List.prefix_append _ _

lemma covered_others {lines : ℕ} {buffers : List Buffer} (h : ∀ b ∈ buffers, b.Sends lines) :
    takeLines '\n' 1 (firstMessage lines buffers) ++ (others lines buffers).flatMap Aligned.content
      = buffers.flatMap Buffer.text := by
  induction buffers with
  | nil => simp [firstMessage, others]
  | cons buffer buffers ih =>
      have hrest := ih fun b hb => h b (List.mem_cons_of_mem _ hb)
      have hfirst : buffer.firstLine ++ buffer.text.drop buffer.firstLine.length = buffer.text :=
        takeLines_append_drop _ _
      rw [firstMessage, takeLines_message (h buffer List.mem_cons_self), others, List.flatMap_cons,
        List.flatMap_cons, content_aligned (length_firstLine_le buffer), ← hrest, ← List.append_assoc,
        ← List.append_assoc, hfirst, List.append_assoc]

lemma chain_cons {lines current : ℕ} {buffer : Buffer} (hcurrent : current ≤ buffer.text.length)
    {buffers : List Buffer} (hlines : ∀ b ∈ buffers, lines ≤ b.text.count '\n')
    (hsends : ∀ b ∈ buffers, b.Sends lines) :
    (buffer.aligned current (firstMessage lines buffers) :: others lines buffers).IsChain
      (Neighbours lines) := by
  induction buffers generalizing buffer current with
  | nil => exact List.isChain_singleton _
  | cons buffer' buffers ih =>
      rw [others, List.isChain_cons_cons]
      refine ⟨neighbours_aligned hcurrent (hlines buffer' List.mem_cons_self)
        (hsends buffer' List.mem_cons_self) _, ih (length_firstLine_le buffer') ?_ ?_⟩
      · exact fun b hb => hlines b (List.mem_cons_of_mem _ hb)
      · exact fun b hb => hsends b (List.mem_cons_of_mem _ hb)

lemma accessible_cons_iff {lines current : ℕ} {buffer : Buffer}
    (hcurrent : current ≤ buffer.text.length) {buffers : List Buffer} :
    (∀ a ∈ buffer.aligned current (firstMessage lines buffers) :: others lines buffers,
      a.moved = false ∧ a.start ≤ a.stop ∧ a.stop ≤ a.data.length) ↔
      (buffer :: buffers).IsChain (Fits lines) := by
  induction buffers generalizing buffer current with
  | nil =>
      refine iff_of_true (fun a ha => ?_) (List.isChain_singleton _)
      obtain rfl := List.mem_singleton.mp ha
      refine accessible_aligned hcurrent [] ?_
      rw [List.length_nil, Nat.add_zero]
      exact (Nat.le_add_right _ _).trans buffer.le_capacity
  | cons buffer' buffers ih =>
      rw [others, List.isChain_cons_cons, List.forall_mem_cons, ih (length_firstLine_le buffer')]
      refine and_congr_left fun _ => ⟨fun h => ?_, fun h => accessible_aligned hcurrent _ h⟩
      exact Nat.le_of_not_lt (of_decide_eq_false h.1)

/-! ## The result -/

/-- A text that is split into parts with so many ends of lines. -/
structure SplitText (lines : ℕ) where
  buffers : List Buffer
  le_count : ∀ b ∈ buffers, lines ≤ b.text.count '\n'

namespace SplitText

variable {lines : ℕ} (S : SplitText lines)

def text : List Char := S.buffers.flatMap Buffer.text

lemma length_text : S.text.length = (S.buffers.map fun buffer => buffer.text.length).sum := by
  rw [text, List.length_flatMap]

lemma alignedTo_of_self (h : S.text = [] ∨ S.buffers.length = 1) : AlignedTo lines S.text
    (S.buffers.map fun buffer => ⟨buffer.text ++ buffer.behind, 0, buffer.text.length, false⟩) := by
  have hcontent : ∀ buffer : Buffer, Aligned.content
      ⟨buffer.text ++ buffer.behind, 0, buffer.text.length, false⟩ = buffer.text := fun buffer => by
    rw [Aligned.content, window]
    simp
  have haccessible : ∀ a ∈ S.buffers.map fun buffer =>
      (⟨buffer.text ++ buffer.behind, 0, buffer.text.length, false⟩ : Aligned),
      a.moved = false ∧ a.start ≤ a.stop ∧ a.stop ≤ a.data.length := by
    intro a ha
    obtain ⟨buffer, -, rfl⟩ := List.mem_map.mp ha
    exact ⟨rfl, Nat.zero_le _, by simp⟩
  have hcovered : (S.buffers.map fun buffer =>
      (⟨buffer.text ++ buffer.behind, 0, buffer.text.length, false⟩ : Aligned)).flatMap
      Aligned.content = S.text := by
    rw [List.flatMap_map, text]
    exact List.flatMap_congr fun buffer _ => hcontent buffer
  refine ⟨haccessible, hcovered, fun r a ha =>
    position_of_covered (fun a ha => (haccessible a ha).2.2) hcovered ha, ?_⟩
  rcases h with htext | hone
  · -- the number of lines is `0`, and all ranges are empty
    have hempty : ∀ buffer ∈ S.buffers, buffer.text = [] := fun buffer hbuffer =>
      List.flatMap_eq_nil_iff.mp htext buffer hbuffer
    rw [List.isChain_map]
    refine List.IsChain.imp_of_mem_imp (R := fun _ _ => True) ?_ (List.Pairwise.isChain
      (List.pairwise_of_forall fun _ _ => trivial))
    intro buffer buffer' hbuffer hbuffer' _
    have hlines : lines = 0 := by
      have := S.le_count buffer hbuffer
      rw [hempty buffer hbuffer, List.count_nil] at this
      omega
    rw [Neighbours, hcontent, hcontent, hempty buffer hbuffer, hlines]
    simp
  · obtain ⟨buffer, hbuffer⟩ := List.length_eq_one_iff.mp hone
    rw [hbuffer]
    exact List.isChain_singleton _

/-- **All ranks are aligned** if and only if there is only one rank, or no text, or each rank but the
first one has an end of a line and can send its first lines, and each rank has room for the lines it
receives: otherwise its vector gets another place, and `begin` and `end` point to the old one. -/
theorem aligned_iff : (∃ ranks, align lines S.buffers = some ranks ∧ AlignedTo lines S.text ranks) ↔
    (S.text = [] ∨ S.buffers.length = 1) ∨
      (∀ b ∈ S.buffers.tail, b.Sends lines) ∧ S.buffers.IsChain (Fits lines) := by
  by_cases hself : S.text = [] ∨ S.buffers.length = 1
  · have hsum : (S.buffers.map fun buffer => buffer.text.length).sum = 0 ∨ S.buffers.length = 1 := by
      rwa [← S.length_text, List.length_eq_zero_iff]
    exact iff_of_true ⟨_, if_pos hsum, S.alignedTo_of_self hself⟩ (Or.inl hself)
  · have hsum : ¬((S.buffers.map fun buffer => buffer.text.length).sum = 0 ∨
        S.buffers.length = 1) := by
      rwa [← S.length_text, List.length_eq_zero_iff]
    rw [or_iff_right hself, align, if_neg hsum]
    obtain ⟨buffer, buffers, hbuffers⟩ : ∃ buffer buffers, S.buffers = buffer :: buffers := by
      refine List.exists_cons_of_ne_nil fun hnil => hself (Or.inl ?_)
      rw [text, hnil, List.flatMap_nil]
    have hlines : ∀ b ∈ buffers, lines ≤ b.text.count '\n' := fun b hb =>
      S.le_count b (hbuffers ▸ List.mem_cons_of_mem _ hb)
    have hfrom : (alignFrom lines 0 (buffer :: buffers)).map Prod.snd
        = if ∀ b ∈ buffers, b.Sends lines
          then some (buffer.aligned 0 (firstMessage lines buffers) :: others lines buffers)
          else none := by
      rw [alignFrom.eq_def]
      simp only
      rw [alignFrom_eq (Nat.succ_ne_zero 0) hlines]
      split_ifs with hsends
      · have hattach : attach buffer 0 (firstMessage lines buffers) = _ :=
          attach_eq (firstMessage_spec hsends)
        simp only [Option.bind_eq_bind, Option.bind_some, exchange, if_true, hattach, Option.map_some]
      · rfl
    have htext : S.text = buffer.text ++ buffers.flatMap Buffer.text := by
      rw [text, hbuffers, List.flatMap_cons]
    rw [hbuffers, hfrom, List.tail_cons, htext]
    constructor
    · rintro ⟨ranks, hranks, haligned⟩
      split_ifs at hranks with hsends
      rw [← Option.some.inj hranks] at haligned
      exact ⟨hsends, (accessible_cons_iff (Nat.zero_le _)).mp haligned.accessible⟩
    · rintro ⟨hsends, hfits⟩
      have haccessible := (accessible_cons_iff (Nat.zero_le _)).mpr hfits
      have hcovered : (buffer.aligned 0 (firstMessage lines buffers) :: others lines buffers).flatMap
          Aligned.content = buffer.text ++ buffers.flatMap Buffer.text := by
        rw [List.flatMap_cons, content_aligned (Nat.zero_le _), List.drop_zero, List.append_assoc,
          covered_others hsends]
      refine ⟨_, if_pos hsends, haccessible, hcovered, fun r a ha => ?_,
        chain_cons (Nat.zero_le _) hlines hsends⟩
      exact position_of_covered (fun a ha => (haccessible a ha).2.2) hcovered ha

/-- Two ranks with a line each. The vectors have 80 bytes behind the text, but the line of the second
rank has 82 bytes. -/
def twoLines : SplitText 1 where
  buffers := [⟨['a', '\n'], List.replicate 80 '\x00', 82, by decide, by decide⟩,
    ⟨List.replicate 81 'b' ++ ['\n'], List.replicate 80 '\x00', 162, by decide, by decide⟩]
  le_count := by decide

/-- The vector of the first rank is moved. -/
theorem twoLines_not_aligned :
    ¬∃ ranks, align 1 twoLines.buffers = some ranks ∧ AlignedTo 1 twoLines.text ranks := by
  rintro ⟨ranks, hranks, haligned⟩
  have hmoved : (align 1 twoLines.buffers).map (fun ranks => ranks.map Aligned.moved)
      = some [true, false] := by decide
  rw [hranks, Option.map_some, Option.some.injEq] at hmoved
  have hmem : true ∈ ranks.map Aligned.moved := hmoved ▸ List.mem_cons_self
  obtain ⟨a, ha, htrue⟩ := List.mem_map.mp hmem
  rw [(haligned.accessible a ha).1] at htrue
  cases htrue

end SplitText

end MPILoader

end Espreso
