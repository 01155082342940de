import Mathlib.Data.List.Basic
import Mathlib.Tactic

/-!
# Tokens of a configuration file

The tokenizer reads a file character by character. Its loops look at the next character before they
test for the end of the file, if they do at all.

* `next` — `Tokenizer::_next`, with its loops `skipLine`, `skipBlock`, `readLink` and `readString`.
* **`tokenizes_iff`** — which files are read to their end.
-/

namespace Espreso

namespace Tokenizer

/-! ## Characters -/

def isWhiteSpace (c : Char) : Bool := c == ' ' || c == '\t' || c == '\r'

def isDelimiter (c : Char) : Bool := c == ','

def isAssign (c : Char) : Bool := c == '='

def isExpressionEnd (c : Char) : Bool := c == ';'

def isLineEnd (c : Char) : Bool := c == '\n'

def isObjectOpen (c : Char) : Bool := c == '\x7b'

def isObjectClose (c : Char) : Bool := c == '\x7d'

def isLinkStart (c : Char) : Bool := c == '['

def isLinkEnd (c : Char) : Bool := c == ']'

def isStringStart (c : Char) : Bool := c == '"' || c == '\''

def isStringEnd (c : Char) : Bool := c == '"' || c == '\''

def isSingleCommentChar (c : Char) : Bool := c == '#'

def isLineComment (last current : Char) : Bool := last == '/' && current == '/'

def isMultiLineCommentStart (last current : Char) : Bool := last == '/' && current == '*'

def isMultiLineCommentEnd (last current : Char) : Bool := last == '*' && current == '/'

def isBreak (c : Char) : Bool := c == '\n' || c == '\r'

/-! ## Tokens -/

inductive Token
  | STRING
  | LINK
  | DELIMITER
  | ASSIGN
  | OBJECT_OPEN
  | OBJECT_CLOSE
  | EXPRESSION_END
  | LINE_END
  | END
  deriving DecidableEq

/-- Why no token is returned. -/
inductive Stop
  /-- "Configuration file error: missing link end character ']' for:" -/
  | missingLinkEnd
  /-- "Configuration file error: missing string end character '"' for:" -/
  | missingStringEnd
  /-- A character behind the end of the data is consumed. -/
  | overrun
  /-- A loop has more steps than there are characters. -/
  | stuck
  deriving DecidableEq

/-- The characters that are not yet consumed, `_buffer` and `_line`. -/
structure State where
  rest : List Char
  buffer : List Char
  line : ℕ

def skipWhiteSpaces (rest : List Char) : List Char := rest.dropWhile isWhiteSpace

section Next

/-! A character at the position `_data.size()` is not part of the data, but it is looked at. It is
the parameter `beyond`. -/

variable (beyond : Char)

/-- The first loop of `skipLine`. -/
def skipToBreak : List Char → Except Stop (List Char)
  | [] => if isBreak beyond then .ok [] else .error .overrun
  | c :: rest => if isBreak c then .ok (c :: rest) else skipToBreak rest

/-- The second loop of `skipLine`. -/
def skipBreaks (line : ℕ) : List Char → Except Stop (List Char × ℕ)
  | [] => if isBreak beyond then .error .overrun else .ok ([], line)
  | c :: rest =>
    if isBreak c then skipBreaks (if isLineEnd c then line + 1 else line) rest
    else .ok (c :: rest, line)

def skipLine (line : ℕ) (rest : List Char) : Except Stop (List Char × ℕ) := do
  skipBreaks beyond line (← skipToBreak beyond rest)

/-- The loop over a block comment behind `last`, and its end. -/
def skipBlock (last : Char) (line : ℕ) : List Char → Except Stop (List Char × ℕ)
  -- whether the loop goes on or not, the next character is consumed
  | [] => .error .overrun
  | c :: rest =>
    if isMultiLineCommentEnd last c then .ok (rest, line)
    else skipBlock c (if isLineEnd c then line + 1 else line) rest

def skipBlockComment (line : ℕ) : List Char → Except Stop (List Char × ℕ)
  | [] => .error .overrun
  | last :: rest => skipBlock last line rest

def readLink (stacked : ℕ) (buffer : List Char) : List Char → Except Stop (List Char × List Char)
  | [] => if isLinkEnd beyond && stacked == 0 then .error .overrun else .error .missingLinkEnd
  | c :: rest =>
    if isLinkEnd c && stacked == 0 then .ok (rest, buffer)
    else
      let stacked := if isLinkStart c then stacked + 1 else stacked
      let stacked := if isLinkEnd c then stacked - 1 else stacked
      readLink stacked (buffer ++ [c]) rest

/-- The loop over a string, and its end, which is put to the buffer if `inside` says so. -/
def readString (inside : Bool) (stacked : ℕ) (buffer : List Char) :
    List Char → Except Stop (List Char × List Char)
  | [] => if isStringEnd beyond && stacked == 0 then .error .overrun else .error .missingStringEnd
  | c :: rest =>
    if isStringEnd c && stacked == 0 then .ok (rest, if inside then buffer ++ [c] else buffer)
    else
      let stacked := if isStringStart c then stacked + 1 else stacked
      let stacked := if isStringEnd c then stacked - 1 else stacked
      readString inside stacked (buffer ++ [c]) rest

/-- `specialToken`, in front of a special character. -/
def specialToken (token : Token) (c : Char) (rest buffer : List Char) (line : ℕ) : Token × State :=
  if buffer.isEmpty then (token, ⟨rest, [c], line⟩) else (.STRING, ⟨c :: rest, buffer, line⟩)

/-- The branches of the loop for a character that is not in a comment. It is put to the buffer if
there is no result. -/
def readToken (c : Char) (rest buffer : List Char) (line : ℕ) :
    Option (Except Stop (Token × State)) :=
  if !buffer.isEmpty && isWhiteSpace c then some (.ok (.STRING, ⟨rest, buffer, line⟩))
  else if isDelimiter c then some (.ok (specialToken .DELIMITER c rest buffer line))
  else if isAssign c then some (.ok (specialToken .ASSIGN c rest buffer line))
  else if isExpressionEnd c then some (.ok (specialToken .EXPRESSION_END c rest buffer line))
  else if isLineEnd c then some (.ok (specialToken .LINE_END c rest buffer (line + 1)))
  else if isObjectOpen c then some (.ok (specialToken .OBJECT_OPEN c rest buffer line))
  else if isObjectClose c then some (.ok (specialToken .OBJECT_CLOSE c rest buffer line))
  else if isLinkStart c && !buffer.isEmpty then some (.ok (.STRING, ⟨c :: rest, buffer, line⟩))
  else if isLinkStart c then some do
    let (rest, buffer) ← readLink beyond 0 buffer rest
    return (.LINK, ⟨rest, buffer, line⟩)
  else if isStringStart c then some do
    let inside := !buffer.isEmpty
    let (rest, buffer) ← readString beyond inside 0 (if inside then buffer ++ [c] else buffer) rest
    return (.STRING, ⟨rest, buffer, line⟩)
  else none

/-- The loop of `Tokenizer::_next`, with the number of steps that are left. -/
def scan : ℕ → List Char → List Char → ℕ → Except Stop (Token × State)
  | 0, _, _, _ => .error .stuck
  | _ + 1, [], buffer, line =>
    .ok (if buffer.isEmpty then .END else .STRING, ⟨[], buffer, line⟩)
  | n + 1, c :: rest, buffer, line =>
    if isSingleCommentChar c then do
      let (rest, line) ← skipLine beyond line (c :: rest)
      if buffer.isEmpty then scan n (skipWhiteSpaces rest) buffer line
      else .ok (.STRING, ⟨rest, buffer, line⟩)
    else if buffer.getLast?.any (isLineComment · c) then do
      let (rest, line) ← skipLine beyond line (c :: rest)
      if buffer.dropLast.isEmpty then scan n (skipWhiteSpaces rest) buffer.dropLast line
      else .ok (.STRING, ⟨rest, buffer.dropLast, line⟩)
    else if buffer.getLast?.any (isMultiLineCommentStart · c) then do
      let (rest, line) ← skipBlockComment line rest
      scan n (skipWhiteSpaces rest) buffer.dropLast line
    else
      match readToken beyond c rest buffer line with
      | some result => result
      | none => scan n rest (buffer ++ [c]) line

/-- **`Tokenizer::_next`** -/
def next (s : State) : Except Stop (Token × State) :=
  if s.rest.isEmpty then .ok (.END, s)
  else
    let rest := skipWhiteSpaces s.rest
    scan beyond (rest.length + 1) rest [] s.line

/-- `next` is called up to `Token::END`, but not more often than the number says. -/
def tokens : ℕ → State → Except Stop (List Token)
  | 0, _ => .error .stuck
  | n + 1, s => do
    let (token, s) ← next beyond s
    if token = .END then .ok [token] else return token :: (← tokens n s)

/-- **All tokens of a file**, in which each of them has a character. -/
def tokenize (content : List Char) : Except Stop (List Token) :=
  tokens beyond (content.length + 1) ⟨content, [], 1⟩

end Next

/-! ## Modes -/

/-- **Where a file is read**: in a text, if the last character is a slash that may begin a comment,
in a line comment, in the line breaks behind it, in a block comment, in a link with links in it, or
in a string. -/
inductive Mode
  | text (slash : Bool)
  | lineComment
  | lineBreaks
  | blockStart
  | block (star : Bool)
  | link (stacked : ℕ)
  | string
  deriving DecidableEq

def textMode (slash : Bool) (c : Char) : Mode :=
  if c = '#' then .lineComment
  else if slash && c == '/' then .lineComment
  else if slash && c == '*' then .blockStart
  else if c = '[' then .link 0
  else if isStringStart c then .string
  else .text (c == '/')

def Mode.next : Mode → Char → Mode
  | text slash, c => textMode slash c
  | lineComment, c => if isBreak c then lineBreaks else lineComment
  | lineBreaks, c => if isBreak c then lineBreaks else textMode false c
  | blockStart, c => block (c == '*')
  | block star, c => if star && c == '/' then text false else block (c == '*')
  | link stacked, c =>
    if c = ']' then if stacked = 0 then text false else link (stacked - 1)
    else if c = '[' then link (stacked + 1) else link stacked
  | string, c => if isStringEnd c then text false else string

def Mode.behind (mode : Mode) (content : List Char) : Mode := content.foldl Mode.next mode

def lastMode (content : List Char) : Mode := (Mode.text false).behind content

/-- **What happens at the end of a file**, in front of the character behind it. -/
def Mode.finish (beyond : Char) : Mode → Except Stop Unit
  | text _ => .ok ()
  | lineComment => .error .overrun
  | lineBreaks => if isBreak beyond then .error .overrun else .ok ()
  | blockStart => .error .overrun
  | block _ => .error .overrun
  | link stacked =>
    if isLinkEnd beyond && stacked == 0 then .error .overrun else .error .missingLinkEnd
  | string => if isStringEnd beyond then .error .overrun else .error .missingStringEnd

@[simp] lemma behind_nil (mode : Mode) : mode.behind [] = mode := rfl

@[simp] lemma behind_cons (mode : Mode) (c : Char) (rest : List Char) :
    mode.behind (c :: rest) = (mode.next c).behind rest := rfl

/-! ## Loops -/

section Loops

variable {beyond : Char}

def Finishes (beyond : Char) {α : Type} (loop : Except Stop (List Char × α)) : Except Stop Unit :=
  loop.bind fun p => (Mode.behind (.text false) p.1).finish beyond

lemma finishes_skipBreaks (line : ℕ) (rest : List Char) :
    Finishes beyond (skipBreaks beyond line rest)
      = (Mode.lineBreaks.behind rest).finish beyond := by
  induction rest generalizing line with
  | nil =>
      rw [skipBreaks, behind_nil, Mode.finish]
      split_ifs <;> rfl
  | cons c rest ih =>
      rw [skipBreaks, behind_cons, Mode.next]
      by_cases hbreak : isBreak c
      · rw [if_pos hbreak, if_pos hbreak]
        exact ih _
      · rw [if_neg hbreak, if_neg hbreak]
        rfl

lemma finishes_skipLine (line : ℕ) (rest : List Char) :
    Finishes beyond (skipLine beyond line rest) = (Mode.lineComment.behind rest).finish beyond := by
  induction rest with
  | nil =>
      rw [skipLine, skipToBreak]
      by_cases hbreak : isBreak beyond
      · rw [if_pos hbreak]
        exact (finishes_skipBreaks line []).trans (if_pos hbreak)
      · rw [if_neg hbreak]
        rfl
  | cons c rest ih =>
      rw [behind_cons, Mode.next]
      by_cases hbreak : isBreak c
      · rw [if_pos hbreak, skipLine, skipToBreak, if_pos hbreak]
        have hbreaks : Finishes beyond (skipBreaks beyond line (c :: rest))
            = (Mode.lineBreaks.behind (c :: rest)).finish beyond := finishes_skipBreaks line _
        rw [behind_cons, Mode.next, if_pos hbreak] at hbreaks
        exact hbreaks
      · rw [if_neg hbreak, skipLine, skipToBreak, if_neg hbreak]
        exact ih

lemma finishes_skipBlock (last : Char) (line : ℕ) (rest : List Char) :
    Finishes beyond (skipBlock last line rest)
      = ((Mode.block (last == '*')).behind rest).finish beyond := by
  induction rest generalizing last line with
  | nil => rfl
  | cons c rest ih =>
      rw [skipBlock, behind_cons, Mode.next, isMultiLineCommentEnd]
      by_cases hend : (last == '*' && c == '/') = true
      · rw [if_pos hend, if_pos hend]
        rfl
      · rw [if_neg hend, if_neg hend]
        exact ih _ _

lemma finishes_skipBlockComment (line : ℕ) (rest : List Char) :
    Finishes beyond (skipBlockComment line rest) = (Mode.blockStart.behind rest).finish beyond := by
  cases rest with
  | nil => rfl
  | cons last rest => exact finishes_skipBlock last line rest

lemma finishes_readLink (stacked : ℕ) (buffer rest : List Char) :
    Finishes beyond (readLink beyond stacked buffer rest)
      = ((Mode.link stacked).behind rest).finish beyond := by
  induction rest generalizing stacked buffer with
  | nil =>
      rw [readLink, behind_nil, Mode.finish]
      split_ifs <;> rfl
  | cons c rest ih =>
      rw [readLink, behind_cons, Mode.next]
      by_cases hclose : c = ']'
      · subst hclose
        rw [if_pos rfl]
        by_cases hzero : stacked = 0
        · rw [if_pos hzero, hzero]
          rfl
        · rw [if_neg hzero, if_neg (by simpa [isLinkEnd] using hzero)]
          exact ih _ _
      · have hend : isLinkEnd c = false := beq_eq_false_iff_ne.mpr hclose
        rw [if_neg hclose, hend, Bool.false_and, if_neg Bool.false_ne_true]
        by_cases hopen : c = '['
        · subst hopen
          exact ih _ _
        · have hstart : isLinkStart c = false := beq_eq_false_iff_ne.mpr hopen
          rw [if_neg hopen, hstart]
          exact ih _ _

lemma finishes_readString (inside : Bool) (buffer rest : List Char) :
    Finishes beyond (readString beyond inside 0 buffer rest)
      = (Mode.string.behind rest).finish beyond := by
  induction rest generalizing buffer with
  | nil =>
      rw [readString, behind_nil, Mode.finish]
      simp only [beq_self_eq_true, Bool.and_true]
      split_ifs <;> rfl
  | cons c rest ih =>
      rw [readString, behind_cons, Mode.next]
      simp only [beq_self_eq_true, Bool.and_true]
      by_cases hend : isStringEnd c
      · rw [if_pos hend, if_pos hend]
        rfl
      · rw [if_neg hend, if_neg hend, isStringStart, ← isStringEnd, if_neg hend, if_neg hend]
        exact ih _

/-! ## Lengths -/

lemma length_skipBreaks {line line' : ℕ} {rest rest' : List Char}
    (h : skipBreaks beyond line rest = .ok (rest', line')) : rest'.length ≤ rest.length := by
  induction rest generalizing line with
  | nil =>
      rw [skipBreaks] at h
      split_ifs at h
      cases h
      exact le_rfl
  | cons c rest ih =>
      rw [skipBreaks] at h
      by_cases hbreak : isBreak c
      · rw [if_pos hbreak] at h
        exact (ih h).trans (Nat.le_succ _)
      · rw [if_neg hbreak] at h
        cases h
        exact le_rfl

lemma skipLine_cons {c : Char} (hc : isBreak c = false) (line : ℕ) (rest : List Char) :
    skipLine beyond line (c :: rest) = skipLine beyond line rest := by
  rw [skipLine, skipToBreak, hc]
  rfl

lemma length_skipLine {line line' : ℕ} {rest rest' : List Char}
    (h : skipLine beyond line rest = .ok (rest', line')) : rest'.length ≤ rest.length := by
  induction rest with
  | nil =>
      rw [skipLine, skipToBreak] at h
      split_ifs at h
      · exact length_skipBreaks h
      · cases h
  | cons c rest ih =>
      cases hbreak : isBreak c with
      | false =>
          rw [skipLine_cons hbreak] at h
          exact (ih h).trans (Nat.le_succ _)
      | true =>
          rw [skipLine, skipToBreak, if_pos hbreak] at h
          exact length_skipBreaks h

lemma length_skipBlock {last : Char} {line line' : ℕ} {rest rest' : List Char}
    (h : skipBlock last line rest = .ok (rest', line')) : rest'.length ≤ rest.length := by
  induction rest generalizing last line with
  | nil => cases h
  | cons c rest ih =>
      rw [skipBlock] at h
      by_cases hend : isMultiLineCommentEnd last c = true
      · rw [if_pos hend] at h
        cases h
        exact Nat.le_succ _
      · rw [if_neg hend] at h
        exact (ih h).trans (Nat.le_succ _)

lemma length_skipBlockComment {line line' : ℕ} {rest rest' : List Char}
    (h : skipBlockComment line rest = .ok (rest', line')) : rest'.length ≤ rest.length := by
  cases rest with
  | nil => cases h
  | cons last rest => exact (length_skipBlock h).trans (Nat.le_succ _)

lemma length_readLink {stacked : ℕ} {buffer buffer' rest rest' : List Char}
    (h : readLink beyond stacked buffer rest = .ok (rest', buffer')) :
    rest'.length ≤ rest.length := by
  induction rest generalizing stacked buffer with
  | nil =>
      rw [readLink] at h
      split_ifs at h
  | cons c rest ih =>
      rw [readLink] at h
      by_cases hend : (isLinkEnd c && stacked == 0) = true
      · rw [if_pos hend] at h
        cases h
        exact Nat.le_succ _
      · rw [if_neg hend] at h
        exact (ih h).trans (Nat.le_succ _)

lemma length_readString {inside : Bool} {stacked : ℕ} {buffer buffer' rest rest' : List Char}
    (h : readString beyond inside stacked buffer rest = .ok (rest', buffer')) :
    rest'.length ≤ rest.length := by
  induction rest generalizing stacked buffer with
  | nil =>
      rw [readString] at h
      split_ifs at h
  | cons c rest ih =>
      rw [readString] at h
      by_cases hend : (isStringEnd c && stacked == 0) = true
      · rw [if_pos hend] at h
        cases h
        exact Nat.le_succ _
      · rw [if_neg hend] at h
        exact (ih h).trans (Nat.le_succ _)

lemma behind_skipWhiteSpaces (rest : List Char) :
    (Mode.text false).behind (skipWhiteSpaces rest) = (Mode.text false).behind rest := by
  induction rest with
  | nil => rfl
  | cons c rest ih =>
      rw [skipWhiteSpaces, List.dropWhile_cons]
      by_cases hspace : isWhiteSpace c = true
      · have hnext : (Mode.text false).next c = .text false := by
          simp only [isWhiteSpace, Bool.or_eq_true, beq_iff_eq, or_assoc] at hspace
          rcases hspace with rfl | rfl | rfl <;> rfl
        rw [if_pos hspace, behind_cons, hnext]
        exact ih
      · rw [if_neg hspace]

lemma length_skipWhiteSpaces (rest : List Char) :
    (skipWhiteSpaces rest).length ≤ rest.length := (List.dropWhile_sublist _).length_le

end Loops

/-! ## One token -/

section Scan

variable {beyond : Char}

/-- **What follows a token**: the file ends as `finish` says, and if the token is not the last one,
less than `bound` characters are left. -/
def Leads (beyond : Char) (bound : ℕ) (finish : Except Stop Unit) :
    Except Stop (Token × State) → Prop
  | .error stop => finish = .error stop
  | .ok (token, s) => if token = .END then finish = .ok ()
      else s.rest.length < bound ∧ finish = ((Mode.text false).behind s.rest).finish beyond

lemma leads_bind {α : Type} {bound : ℕ} {finish : Except Stop Unit}
    {loop : Except Stop (List Char × α)} {f : List Char × α → Except Stop (Token × State)}
    (h : Finishes beyond loop = finish)
    (hf : ∀ rest a, loop = .ok (rest, a) →
      finish = ((Mode.text false).behind rest).finish beyond →
      Leads beyond bound finish (f (rest, a))) : Leads beyond bound finish (loop >>= f) := by
  cases loop with
  | error stop => exact h.symm
  | ok p => exact hf p.1 p.2 rfl h.symm

lemma leads_ok {bound : ℕ} {finish : Except Stop Unit} {token : Token} {s : State}
    (htoken : token ≠ .END) (hlength : s.rest.length < bound)
    (h : finish = ((Mode.text false).behind s.rest).finish beyond) :
    Leads beyond bound finish (.ok (token, s)) := by
  rw [Leads, if_neg htoken]
  exact ⟨hlength, h⟩

def slash (buffer : List Char) : Bool := buffer.getLast?.any (· == '/')

lemma leads_specialToken {bound line : ℕ} {token : Token} {c : Char} {rest buffer : List Char}
    (htoken : token ≠ .END) (hc : ∀ slash, textMode slash c = .text false)
    (hle : rest.length < bound) (hlt : buffer ≠ [] → rest.length + 1 < bound) :
    Leads beyond bound (((Mode.text (slash buffer)).behind (c :: rest)).finish beyond)
      (.ok (specialToken token c rest buffer line)) := by
  have hnext : ∀ slash, (Mode.text slash).behind (c :: rest) = (Mode.text false).behind rest :=
    fun slash => by rw [behind_cons, Mode.next, hc]
  rw [specialToken, hnext]
  cases buffer with
  | nil => exact leads_ok htoken hle rfl
  | cons b buffer =>
      refine leads_ok (by decide) (hlt (List.cons_ne_nil _ _)) ?_
      rw [hnext]

lemma any_isLineComment (buffer : List Char) (c : Char) :
    buffer.getLast?.any (isLineComment · c) = (slash buffer && c == '/') := by
  rw [slash]
  cases buffer.getLast? <;> rfl

lemma any_isMultiLineCommentStart (buffer : List Char) (c : Char) :
    buffer.getLast?.any (isMultiLineCommentStart · c) = (slash buffer && c == '*') := by
  rw [slash]
  cases buffer.getLast? <;> rfl

lemma buffer_ne_nil {buffer : List Char} (h : slash buffer = true) : buffer ≠ [] := by
  rintro rfl
  cases h

lemma slash_concat (buffer : List Char) (c : Char) : slash (buffer ++ [c]) = (c == '/') := by
  rw [slash, List.getLast?_concat]
  rfl

lemma leads_skipLine {n bound line : ℕ} {rest buffer : List Char}
    (ih : ∀ rest line, rest.length < n → rest.length ≤ bound →
      Leads beyond bound (((Mode.text false).behind rest).finish beyond)
        (scan beyond n rest [] line))
    (hn : rest.length < n) (hle : rest.length ≤ bound) (hlt : buffer ≠ [] → rest.length < bound) :
    Leads beyond bound ((Mode.lineComment.behind rest).finish beyond) (do
      let (rest, line) ← skipLine beyond line rest
      if buffer.isEmpty then scan beyond n (skipWhiteSpaces rest) buffer line
      else .ok (.STRING, ⟨rest, buffer, line⟩)) := by
  refine leads_bind (finishes_skipLine line rest) fun rest' line' hskip hfinish => ?_
  have hlength := length_skipLine hskip
  cases buffer with
  | nil =>
      have hspaces := length_skipWhiteSpaces rest'
      have hscan := ih (skipWhiteSpaces rest') line' (by omega) (by omega)
      rw [behind_skipWhiteSpaces, ← hfinish] at hscan
      exact hscan
  | cons b buffer =>
      exact leads_ok (by decide) (hlength.trans_lt (hlt (List.cons_ne_nil _ _))) hfinish

lemma textMode_of_not {slash : Bool} {c : Char} (hsingle : c ≠ '#')
    (hline : (slash && c == '/') ≠ true) (hblock : (slash && c == '*') ≠ true)
    (hlink : isLinkStart c ≠ true) (hstring : isStringStart c ≠ true) :
    textMode slash c = .text (c == '/') := by
  rw [textMode, if_neg hsingle, if_neg hline, if_neg hblock,
    if_neg fun h => hlink (beq_iff_eq.mpr h), if_neg hstring]

variable (beyond) in
lemma leads_readToken {bound : ℕ} (line : ℕ) {c : Char} {rest buffer : List Char}
    (hsingle : c ≠ '#') (hline : (slash buffer && c == '/') ≠ true)
    (hblock : (slash buffer && c == '*') ≠ true) (hle : rest.length < bound)
    (hlt : buffer ≠ [] → rest.length + 1 < bound) :
    match readToken beyond c rest buffer line with
    | some result =>
      Leads beyond bound (((Mode.text (slash buffer)).behind (c :: rest)).finish beyond) result
    | none => (Mode.text (slash buffer)).next c = .text (c == '/') := by
  rw [readToken]
  by_cases hspace : (!buffer.isEmpty && isWhiteSpace c) = true
  · rw [if_pos hspace]
    simp only [Bool.and_eq_true, Bool.not_eq_true', List.isEmpty_eq_false_iff, isWhiteSpace,
      Bool.or_eq_true, beq_iff_eq, or_assoc] at hspace
    refine leads_ok (by decide) hle ?_
    rw [behind_cons, Mode.next]
    rcases hspace with ⟨-, rfl | rfl | rfl⟩ <;> cases slash buffer <;> rfl
  rw [if_neg hspace]
  by_cases hdelimiter : isDelimiter c = true
  · obtain rfl : c = ',' := beq_iff_eq.mp hdelimiter
    exact leads_specialToken (by decide) (by decide) hle hlt
  rw [if_neg hdelimiter]
  by_cases hassign : isAssign c = true
  · obtain rfl : c = '=' := beq_iff_eq.mp hassign
    exact leads_specialToken (by decide) (by decide) hle hlt
  rw [if_neg hassign]
  by_cases hexpression : isExpressionEnd c = true
  · obtain rfl : c = ';' := beq_iff_eq.mp hexpression
    exact leads_specialToken (by decide) (by decide) hle hlt
  rw [if_neg hexpression]
  by_cases hend : isLineEnd c = true
  · obtain rfl : c = '
' := beq_iff_eq.mp hend
    exact leads_specialToken (by decide) (by decide) hle hlt
  rw [if_neg hend]
  by_cases hopen : isObjectOpen c = true
  · obtain rfl : c = '{' := beq_iff_eq.mp hopen
    exact leads_specialToken (by decide) (by decide) hle hlt
  rw [if_neg hopen]
  by_cases hclose : isObjectClose c = true
  · obtain rfl : c = '}' := beq_iff_eq.mp hclose
    exact leads_specialToken (by decide) (by decide) hle hlt
  rw [if_neg hclose]
  -- a link begins a token of its own
  by_cases hlink : isLinkStart c = true
  · obtain rfl : c = '[' := beq_iff_eq.mp hlink
    have hmode : ∀ slash, (Mode.text slash).behind ('[' :: rest) = (Mode.link 0).behind rest :=
      fun slash => by cases slash <;> rfl
    cases buffer with
    | nil =>
        rw [hmode]
        exact leads_bind (finishes_readLink 0 [] rest) fun rest' buffer' hread hfinish =>
          leads_ok (by decide) ((length_readLink hread).trans_lt hle) hfinish
    | cons b buffer =>
        refine leads_ok (by decide) (hlt (List.cons_ne_nil _ _)) ?_
        rw [hmode, hmode]
  have hlink' : isLinkStart c = false := Bool.eq_false_iff.mpr hlink
  rw [hlink', Bool.false_and, if_neg Bool.false_ne_true, if_neg Bool.false_ne_true]
  by_cases hstring : isStringStart c = true
  · rw [if_pos hstring]
    have hmode : (Mode.text (slash buffer)).behind (c :: rest) = Mode.string.behind rest := by
      simp only [isStringStart, Bool.or_eq_true, beq_iff_eq] at hstring
      rcases hstring with rfl | rfl <;> cases slash buffer <;> rfl
    rw [hmode]
    exact leads_bind (finishes_readString _ _ rest) fun rest' buffer' hread hfinish =>
      leads_ok (by decide) ((length_readString hread).trans_lt hle) hfinish
  rw [if_neg hstring]
  exact (textMode_of_not hsingle hline hblock hlink hstring)

/-- **The loop of `_next` reads the file up to a token**, and it has at most as many steps as there
are characters. -/
lemma leads_scan {n bound line : ℕ} {rest buffer : List Char} (hn : rest.length < n)
    (hslash : slash buffer = true → slash buffer.dropLast = false) (hle : rest.length ≤ bound)
    (hlt : buffer ≠ [] → rest.length < bound) :
    Leads beyond bound (((Mode.text (slash buffer)).behind rest).finish beyond)
      (scan beyond n rest buffer line) := by
  induction n generalizing rest buffer line with
  | zero => cases hn
  | succ n ih =>
      have ihempty : ∀ rest line, rest.length < n → rest.length ≤ bound →
          Leads beyond bound (((Mode.text false).behind rest).finish beyond)
            (scan beyond n rest [] line) :=
        fun rest line hn hle => ih hn (fun h => nomatch h) hle (fun h => absurd rfl h)
      cases rest with
      | nil =>
          rw [scan]
          cases buffer with
          | nil => rfl
          | cons b buffer => exact leads_ok (fun h => nomatch h) (hlt (List.cons_ne_nil _ _)) rfl
      | cons c rest =>
          rw [List.length_cons] at hn hle hlt
          rw [scan, any_isLineComment, any_isMultiLineCommentStart]
          by_cases hsingle : isSingleCommentChar c = true
          · rw [if_pos hsingle]
            obtain rfl : c = '#' := beq_iff_eq.mp hsingle
            rw [skipLine_cons rfl, behind_cons]
            exact leads_skipLine ihempty (by omega) (by omega) (fun h => by have := hlt h; omega)
          rw [if_neg hsingle]
          -- a comment behind a slash, which leaves the buffer
          by_cases hline : (slash buffer && c == '/') = true
          · rw [if_pos hline]
            simp only [Bool.and_eq_true, beq_iff_eq] at hline
            obtain ⟨hbuffer, rfl⟩ := hline
            have hlength := hlt (buffer_ne_nil hbuffer)
            rw [skipLine_cons rfl, behind_cons, hbuffer]
            exact leads_skipLine ihempty (by omega) (by omega) (fun _ => by omega)
          rw [if_neg hline]
          by_cases hblock : (slash buffer && c == '*') = true
          · rw [if_pos hblock]
            simp only [Bool.and_eq_true, beq_iff_eq] at hblock
            obtain ⟨hbuffer, rfl⟩ := hblock
            have hlength := hlt (buffer_ne_nil hbuffer)
            rw [behind_cons, hbuffer]
            refine leads_bind (finishes_skipBlockComment line rest) fun rest' line' hskip hfinish =>
              ?_
            have hskipped := length_skipBlockComment hskip
            have hspaces := length_skipWhiteSpaces rest'
            have hscan : Leads beyond bound
                (((Mode.text (slash buffer.dropLast)).behind (skipWhiteSpaces rest')).finish beyond)
                (scan beyond n (skipWhiteSpaces rest') buffer.dropLast line') :=
              ih (by omega) (fun h => by rw [hslash hbuffer] at h; cases h) (by omega)
                (fun _ => by omega)
            rw [hslash hbuffer, behind_skipWhiteSpaces, ← hfinish] at hscan
            exact hscan
          rw [if_neg hblock]
          have htoken := leads_readToken beyond line
            (fun h => hsingle (beq_iff_eq.mpr h)) hline hblock (by omega) hlt
          cases hread : readToken beyond c rest buffer line with
          | some result =>
              rw [hread] at htoken
              exact htoken
          | none =>
              rw [hread] at htoken
              rw [behind_cons, htoken, ← slash_concat buffer c]
              refine ih (by omega) (fun h => ?_) (by omega) (fun _ => by omega)
              rw [slash_concat, beq_iff_eq] at h
              rw [List.dropLast_concat]
              simpa [h] using hline

variable (beyond) in
lemma leads_next (s : State) :
    Leads beyond s.rest.length (((Mode.text false).behind s.rest).finish beyond)
      (next beyond s) := by
  rw [next]
  by_cases hrest : s.rest.isEmpty = true
  · rw [if_pos hrest, List.isEmpty_iff.mp hrest]
    rfl
  · rw [if_neg hrest]
    have hscan : Leads beyond s.rest.length
        (((Mode.text false).behind (skipWhiteSpaces s.rest)).finish beyond)
        (scan beyond ((skipWhiteSpaces s.rest).length + 1) (skipWhiteSpaces s.rest) [] s.line) :=
      leads_scan (Nat.lt_succ_self (skipWhiteSpaces s.rest).length) (fun h => nomatch h)
        (length_skipWhiteSpaces s.rest) (fun h => absurd rfl h)
    exact (behind_skipWhiteSpaces s.rest) ▸ hscan

lemma tokens_finish {n : ℕ} {s : State} (hn : s.rest.length < n) :
    (tokens beyond n s).map (fun _ => ()) = ((Mode.text false).behind s.rest).finish beyond := by
  induction n generalizing s with
  | zero => cases hn
  | succ n ih =>
      have hnext := leads_next beyond s
      rw [tokens]
      cases hresult : next beyond s with
      | error stop =>
          rw [hresult] at hnext
          exact hnext.symm
      | ok result =>
          rw [hresult] at hnext
          by_cases hend : result.1 = .END
          · rw [Leads, if_pos hend] at hnext
            rw [hnext]
            change Except.map _ (if result.1 = .END then _ else _) = _
            rw [if_pos hend]
            rfl
          · rw [Leads, if_neg hend] at hnext
            rw [hnext.2, ← ih (hnext.1.trans_le (Nat.lt_succ_iff.mp hn))]
            change Except.map _ (if result.1 = .END then _ else _) = _
            rw [if_neg hend]
            cases tokens beyond n result.2 <;> rfl

lemma tokens_end {n : ℕ} {s : State} {all : List Token} (h : tokens beyond n s = .ok all) :
    ∃ before, all = before ++ [.END] ∧ .END ∉ before := by
  induction n generalizing s all with
  | zero => cases h
  | succ n ih =>
      rw [tokens] at h
      cases hresult : next beyond s with
      | error stop =>
          rw [hresult] at h
          cases h
      | ok result =>
          rw [hresult] at h
          change (if result.1 = .END then _ else _) = _ at h
          by_cases hend : result.1 = .END
          · rw [if_pos hend] at h
            cases h
            exact ⟨[], by rw [hend]; rfl, List.not_mem_nil⟩
          · rw [if_neg hend] at h
            cases hrest : tokens beyond n result.2 with
            | error stop =>
                rw [hrest] at h
                cases h
            | ok others =>
                rw [hrest] at h
                cases h
                obtain ⟨before, rfl, hbefore⟩ := ih hrest
                exact ⟨result.1 :: before, rfl, fun hmem =>
                  (List.mem_cons.mp hmem).elim (fun h => hend h.symm) hbefore⟩

end Scan

/-! ## Files -/

/-- **A file is read to its end**: its tokens are found, the last of them is `END`, and nothing
behind the data is consumed. A link or a string without an end is reported. -/
def Tokenizes (beyond : Char) (content : List Char) : Prop :=
  match lastMode content with
  | .link _ => tokenize beyond content = .error .missingLinkEnd
  | .string => tokenize beyond content = .error .missingStringEnd
  | _ => ∃ before, tokenize beyond content = .ok (before ++ [.END]) ∧ .END ∉ before

/-- **A file does not end in a comment**, and what is behind it ends neither the line breaks behind
a comment, nor the link or the string in which the file ends. -/
def Closed (beyond : Char) (content : List Char) : Prop :=
  match lastMode content with
  | .text _ => True
  | .lineComment => False
  | .lineBreaks => isBreak beyond = false
  | .blockStart => False
  | .block _ => False
  | .link stacked => stacked = 0 → isLinkEnd beyond = false
  | .string => isStringEnd beyond = false

lemma tokenize_finish (beyond : Char) (content : List Char) :
    (tokenize beyond content).map (fun _ => ()) = (lastMode content).finish beyond :=
  tokens_finish (Nat.lt_succ_self _)

lemma tokenize_eq_error_iff (beyond : Char) (content : List Char) (stop : Stop) :
    tokenize beyond content = .error stop ↔ (lastMode content).finish beyond = .error stop := by
  rw [← tokenize_finish]
  cases tokenize beyond content with
  | error stop' => simp [Except.map]
  | ok all => simp [Except.map]

lemma tokenize_eq_ok_iff (beyond : Char) (content : List Char) :
    (∃ before, tokenize beyond content = .ok (before ++ [.END]) ∧ .END ∉ before)
      ↔ (lastMode content).finish beyond = .ok () := by
  rw [← tokenize_finish]
  cases hresult : tokenize beyond content with
  | error stop => simp [Except.map]
  | ok all =>
      refine ⟨fun _ => rfl, fun _ => ?_⟩
      obtain ⟨before, rfl, hbefore⟩ := tokens_end hresult
      exact ⟨before, rfl, hbefore⟩

/-- **A file is read to its end if and only if it does not end in a comment** and the character
behind the data, which ends the loops before the end of the file is tested, does not end the last of
them. -/
theorem tokenizes_iff (beyond : Char) (content : List Char) :
    Tokenizes beyond content ↔ Closed beyond content := by
  have herror := tokenize_eq_error_iff beyond content
  have hok := tokenize_eq_ok_iff beyond content
  rw [Tokenizes, Closed]
  cases hmode : lastMode content with
  | text slash => simp only [hok, hmode, Mode.finish]
  | lineComment => simp only [hok, hmode, Mode.finish, reduceCtorEq]
  | lineBreaks =>
      simp only [hok, hmode, Mode.finish]
      cases isBreak beyond <;> simp
  | blockStart => simp only [hok, hmode, Mode.finish, reduceCtorEq]
  | block star => simp only [hok, hmode, Mode.finish, reduceCtorEq]
  | link stacked =>
      simp only [herror, hmode, Mode.finish]
      cases isLinkEnd beyond <;> by_cases hzero : stacked = 0 <;> simp [hzero]
  | string =>
      simp only [herror, hmode, Mode.finish]
      cases isStringEnd beyond <;> simp

/-- A comment in the last line, which has no line break. -/
theorem tokenizes_of_comment : ¬ Tokenizes '\x00' ['A', '=', '1', ';', '#'] := by
  rintro ⟨before, hread, -⟩
  have hoverrun : tokenize '\x00' ['A', '=', '1', ';', '#'] = .error .overrun := by decide
  rw [hoverrun] at hread
  cases hread

end Tokenizer

end Espreso
