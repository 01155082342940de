import Mathlib.Data.List.Basic
import Mathlib.Data.Int.Basic
import Mathlib.Tactic

/-!
# Parsing of texts

* `atol`, `stoi` — the conversion of numbers.
* `split` — `Parser::split`, the parts of a line between separators.
* `field` — a number behind blanks; `split_fields`, the parts of a line of such numbers.
-/

namespace Espreso

namespace Parser

/-! ## Numbers -/

def isspace (c : Char) : Bool := c ∈ [' ', '\t', '\n', '\x0b', '\x0c', '\r']

/-- The sign of a number behind white space, and the text behind the sign. -/
def sign (s : List Char) : Bool × List Char :=
  match s.dropWhile isspace with
  | '-' :: s => (true, s)
  | '+' :: s => (false, s)
  | s => (false, s)

def digits (value : ℕ) : List Char → ℕ
  | [] => value
  | c :: s => if c.isDigit then digits (10 * value + (c.toNat - '0'.toNat)) s else value

def atol (s : List Char) : ℤ :=
  if (sign s).1 then -(digits 0 (sign s).2 : ℤ) else digits 0 (sign s).2

/-- `std::stoi`, that throws without a digit. -/
def stoi (s : List Char) : Option ℤ :=
  if (sign s).2.head?.any Char.isDigit then some (atol s) else none

lemma stoi_of_pos {s : List Char} (h : 0 < atol s) : stoi s = some (atol s) := by
  rw [stoi, if_pos]
  rw [atol] at h
  split_ifs at h
  · omega
  · cases hs : (sign s).2 with
    | nil => simp [hs, digits] at h
    | cons c rest =>
        rw [hs, digits] at h
        split_ifs at h with hdigit
        · simpa using hdigit
        · simp at h

lemma atol_blanks (n : ℕ) (s : List Char) : atol (List.replicate n ' ' ++ s) = atol s := by
  have hsign : sign (List.replicate n ' ' ++ s) = sign s := by
    have hdrop : (List.replicate n ' ' ++ s).dropWhile isspace = s.dropWhile isspace := by
      induction n with
      | zero => rfl
      | succ n ih =>
          rw [List.replicate_succ, List.cons_append, List.dropWhile_cons, if_pos (by decide), ih]
    rw [sign, sign, hdrop]
  rw [atol, atol, hsign]

/-! ## Parts of a line -/

/-- The loop of `Parser::split`, with the number of symbols that are left. -/
def splitLoop (separator : List Char) (skipMultiple : Bool) : ℕ → List Char → List (List Char)
  | 0, _ => []
  | fuel + 1, reminder =>
    if reminder = [] then []
    else
      reminder.takeWhile (· ∉ separator) ::
        match reminder.dropWhile (· ∉ separator) with
        | [] => []
        | c :: rest =>
          splitLoop separator skipMultiple fuel
            (if skipMultiple then (c :: rest).dropWhile (· ∈ separator) else rest)

/-- **`Parser::split`** -/
def split (line separator : List Char) (skipMultiple : Bool) : List (List Char) :=
  if line = [] then [[]] else splitLoop separator skipMultiple line.length line

def field (f : ℕ × List Char) : List Char := List.replicate f.1 ' ' ++ f.2

/-- A field that is separated from the one in front of it. -/
structure Separated (f : ℕ × List Char) : Prop where
  blank : 0 < f.1
  nonempty : f.2 ≠ []
  notMem : ' ' ∉ f.2

lemma takeWhile_blank {token : List Char} (h : ' ' ∉ token) (rest : List Char) :
    (token ++ ' ' :: rest).takeWhile (· ∉ [' ']) = token := by
  rw [List.takeWhile_append_of_pos]
  · simp
  · intro c hc
    simpa using fun heq : c = ' ' => h (heq ▸ hc)

lemma dropWhile_blank {token : List Char} (h : ' ' ∉ token) (rest : List Char) :
    (token ++ ' ' :: rest).dropWhile (· ∉ [' ']) = ' ' :: rest := by
  rw [List.dropWhile_append_of_pos]
  · simp
  · intro c hc
    simpa using fun heq : c = ' ' => h (heq ▸ hc)

lemma skip_blanks (n : ℕ) {token : List Char} (hne : token ≠ []) (h : ' ' ∉ token)
    (rest : List Char) :
    (List.replicate n ' ' ++ (token ++ rest)).dropWhile (· ∈ [' ']) = token ++ rest := by
  obtain ⟨c, token, rfl⟩ := List.exists_cons_of_ne_nil hne
  have hc : c ≠ ' ' := fun heq => h (heq ▸ List.mem_cons_self)
  induction n with
  | zero => simp [hc]
  | succ n ih =>
      rw [List.replicate_succ, List.cons_append, List.dropWhile_cons, if_pos (by decide)]
      exact ih

lemma splitLoop_fields {fields : List (ℕ × List Char)} (hfields : ∀ f ∈ fields, Separated f)
    {token : List Char} (htoken : ' ' ∉ token) (rest : List Char) {fuel n : ℕ}
    (hfuel : (token ++ (fields.flatMap field ++ rest)).length ≤ fuel) (hn : n < fields.length) :
    (splitLoop [' '] true fuel (token ++ (fields.flatMap field ++ rest)))[n]?
      = (token :: fields.map Prod.snd)[n]? := by
  induction fields generalizing token fuel n with
  | nil => simp at hn
  | cons f fields ih =>
      have hf := hfields f List.mem_cons_self
      obtain ⟨b, hb⟩ := Nat.exists_eq_add_one.mpr hf.blank
      have htext : token ++ ((f :: fields).flatMap field ++ rest) = token ++ ' ' ::
          (List.replicate b ' ' ++ (f.2 ++ (fields.flatMap field ++ rest))) := by
        rw [List.flatMap_cons, field, hb, List.replicate_succ]
        simp
      rw [htext] at hfuel ⊢
      cases fuel with
      | zero => simp at hfuel
      | succ fuel =>
          have hskip : (' ' :: (List.replicate b ' ' ++
              (f.2 ++ (fields.flatMap field ++ rest)))).dropWhile (· ∈ [' '])
                = f.2 ++ (fields.flatMap field ++ rest) := by
            rw [List.dropWhile_cons, if_pos (by decide)]
            exact skip_blanks b hf.nonempty hf.notMem _
          rw [splitLoop, if_neg (by simp), takeWhile_blank htoken, dropWhile_blank htoken]
          simp only [if_true, hskip]
          cases n with
          | zero => simp
          | succ n =>
              rw [List.getElem?_cons_succ, List.getElem?_cons_succ, List.map_cons]
              refine ih (fun g hg => hfields g (List.mem_cons_of_mem _ hg)) hf.notMem ?_ ?_
              · simp only [List.length_append, List.length_cons] at hfuel ⊢
                omega
              · simpa using hn

lemma split_fields {fields : List (ℕ × List Char)} (hfields : ∀ f ∈ fields, Separated f)
    (rest : List Char) {n : ℕ} (hn : n < fields.length) :
    (split (fields.flatMap field ++ rest) [' '] true)[n]? = ([] :: fields.map Prod.snd)[n]? := by
  have hne : fields.flatMap field ++ rest ≠ [] := by
    cases fields with
    | nil => simp at hn
    | cons f fields => simp [field, (hfields f List.mem_cons_self).nonempty]
  rw [split, if_neg hne]
  exact splitLoop_fields hfields (List.not_mem_nil) rest le_rfl hn

end Parser

end Espreso
