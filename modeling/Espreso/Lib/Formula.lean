import Mathlib.Algebra.BigOperators.Group.List.Basic
import Mathlib.Algebra.Order.Field.Rat
import Mathlib.Data.List.Basic

/-!
# Formulas of one variable

Texts of arithmetic expressions with comparisons and `if(condition, value, value)`, as a list of
tokens.  Multiplication binds closest, then addition, comparison and `and`; operators of one level
are read from the left.

* `Formula.Token`, `Formula.Expr`, `Formula.Expr.eval` — texts, expressions and their values; a
  condition is a number.
* **`Formula.parse_sum`** — a sum of terms that are read each on its own.
-/

namespace Formula

/-! ## Texts and expressions -/

/-- The operators. -/
inductive Op where
  | and
  | less
  | lessEq
  | add
  | sub
  | mul
  | div
deriving DecidableEq

/-- The parts of a text. -/
inductive Token where
  | number (value : ℚ)
  | variable'
  | op (op : Op)
  | condition
  | lparen
  | rparen
  | comma

/-- An expression. -/
inductive Expr where
  | number (value : ℚ)
  | variable'
  | binary (op : Op) (left right : Expr)
  | cond (condition yes no : Expr)

def Op.eval : Op → ℚ → ℚ → ℚ
  | .and, x, y => if x ≠ 0 ∧ y ≠ 0 then 1 else 0
  | .less, x, y => if x < y then 1 else 0
  | .lessEq, x, y => if x ≤ y then 1 else 0
  | .add, x, y => x + y
  | .sub, x, y => x - y
  | .mul, x, y => x * y
  | .div, x, y => x / y

def Expr.eval (T : ℚ) : Expr → ℚ
  | .number value => value
  | .variable' => T
  | .binary op left right => op.eval (left.eval T) (right.eval T)
  | .cond condition yes no => if condition.eval T ≠ 0 then yes.eval T else no.eval T

/-! ## The parser -/

def Op.level : Op → ℕ
  | .and => 0
  | .less | .lessEq => 1
  | .add | .sub => 2
  | .mul | .div => 3

mutual

/-- An expression of operators of the level or closer ones, from the beginning of the text. -/
def parse : ℕ → ℕ → List Token → Option (Expr × List Token)
  | 0, _, _ => none
  | n + 1, level, text =>
    if level < 4 then
      (parse n (level + 1) text).bind fun st => parseTail n level st.1 st.2
    else parseAtom n text

def parseTail : ℕ → ℕ → Expr → List Token → Option (Expr × List Token)
  | 0, _, _, _ => none
  | n + 1, level, left, .op op :: text =>
    if op.level = level then
      (parse n (level + 1) text).bind fun st => parseTail n level (.binary op left st.1) st.2
    else some (left, .op op :: text)
  | _ + 1, _, left, text => some (left, text)

/-- A number, the variable, an expression in parentheses or a condition. -/
def parseAtom : ℕ → List Token → Option (Expr × List Token)
  | 0, _ => none
  | _ + 1, .number value :: text => some (.number value, text)
  | _ + 1, .variable' :: text => some (.variable', text)
  | n + 1, .lparen :: text =>
    (parse n 0 text).bind fun
      | (e, .rparen :: text) => some (e, text)
      | _ => none
  | n + 1, .condition :: .lparen :: text =>
    (parse n 0 text).bind fun
      | (c, .comma :: text) =>
        (parse n 0 text).bind fun
          | (yes, .comma :: text) =>
            (parse n 0 text).bind fun
              | (no, .rparen :: text) => some (.cond c yes no, text)
              | _ => none
          | _ => none
      | _ => none
  | _ + 1, _ => none

end

def read (text : List Token) : Option Expr :=
  match parse (8 * text.length + 8) 0 text with
  | some (e, []) => some e
  | _ => none

def Denotes (text : List Token) (f : ℚ → ℚ) : Prop :=
  ∃ e, read text = some e ∧ ∀ T, e.eval T = f T

/-! ## Sums of terms -/

/-- A term that is read on its own: an atom, with a bound on the depth. -/
def IsAtom (depth : ℕ) (term : List Token) (e : Expr) : Prop :=
  ∀ n rest, parseAtom (n + depth) (term ++ rest) = some (e, rest)

def EndsTerm (rest : List Token) : Prop := rest = [] ∨ ∃ text, rest = .op .add :: text

def sumText (first : List Token) (terms : List (List Token)) : List Token :=
  first ++ terms.flatMap fun term => .op .add :: term

lemma length_sumText (first : List Token) (terms : List (List Token)) :
    first.length + terms.length ≤ (sumText first terms).length := by
  induction terms with
  | nil => simp [sumText]
  | cons term terms ih =>
      simp only [sumText, List.flatMap_cons, List.length_append, List.length_cons] at ih ⊢
      omega

lemma endsTerm_flatMap (terms : List (List Token)) :
    EndsTerm (terms.flatMap fun term => .op .add :: term) := by
  cases terms with
  | nil => exact Or.inl rfl
  | cons term terms => exact Or.inr ⟨_, rfl⟩

lemma IsAtom.parse_factor {depth : ℕ} {term : List Token} {e : Expr} (h : IsAtom depth term e)
    (n : ℕ) {rest : List Token} (hrest : EndsTerm rest) :
    parse (n + depth + 2) 3 (term ++ rest) = some (e, rest) := by
  have hatom : parse (n + depth + 1) 4 (term ++ rest) = some (e, rest) := h n rest
  have htail : parseTail (n + depth + 1) 3 e rest = some (e, rest) := by
    rcases hrest with rfl | ⟨text, rfl⟩ <;> rfl
  rw [parse, if_pos (by omega), hatom, Option.bind_some]
  exact htail

lemma parseTail_sum {depth : ℕ} {terms : List (List Token × Expr)}
    (h : ∀ t ∈ terms, IsAtom depth t.1 t.2) (n : ℕ) (left : Expr) :
    parseTail (n + depth + 2 + terms.length + 1) 2 left
        ((terms.map Prod.fst).flatMap fun term => .op .add :: term)
      = some ((terms.map Prod.snd).foldl (Expr.binary .add) left, []) := by
  induction terms generalizing left with
  | nil => rfl
  | cons t terms ih =>
      have hfactor : parse (n + depth + 2 + (terms.length + 1)) 3
          (t.1 ++ (terms.map Prod.fst).flatMap fun term => .op .add :: term)
          = some (t.2, (terms.map Prod.fst).flatMap fun term => .op .add :: term) := by
        have hone := (h t List.mem_cons_self).parse_factor (n + (terms.length + 1))
          (endsTerm_flatMap (terms.map Prod.fst))
        rwa [show n + (terms.length + 1) + depth + 2 = n + depth + 2 + (terms.length + 1) by omega]
          at hone
      have hlevel : Op.add.level = 2 := rfl
      rw [List.map_cons, List.flatMap_cons, List.cons_append, List.length_cons, parseTail,
        if_pos hlevel, hfactor, Option.bind_some, List.map_cons, List.foldl_cons]
      exact ih (fun t' ht' => h t' (List.mem_cons_of_mem _ ht')) _

/-- **A sum of terms** is read term by term. -/
theorem parse_sum {depth : ℕ} {first : List Token} {e : Expr} (hfirst : IsAtom depth first e)
    {terms : List (List Token × Expr)} (h : ∀ t ∈ terms, IsAtom depth t.1 t.2) (n : ℕ) :
    parse (n + depth + 2 + terms.length + 4) 0 (sumText first (terms.map Prod.fst))
      = some ((terms.map Prod.snd).foldl (Expr.binary .add) e, []) := by
  have hfactor : parse (n + depth + 2 + terms.length + 1) 3 (sumText first (terms.map Prod.fst))
      = some (e, (terms.map Prod.fst).flatMap fun term => .op .add :: term) := by
    have hone := hfirst.parse_factor (n + (terms.length + 1))
      (endsTerm_flatMap (terms.map Prod.fst))
    rwa [show n + (terms.length + 1) + depth + 2 = n + depth + 2 + terms.length + 1 by omega]
      at hone
  have hsum : parse (n + depth + 2 + terms.length + 2) 2 (sumText first (terms.map Prod.fst))
      = some ((terms.map Prod.snd).foldl (Expr.binary .add) e, []) := by
    rw [parse, if_pos (by omega), hfactor, Option.bind_some]
    exact parseTail_sum h n e
  have hcomparison : parse (n + depth + 2 + terms.length + 3) 1
      (sumText first (terms.map Prod.fst))
      = some ((terms.map Prod.snd).foldl (Expr.binary .add) e, []) := by
    rw [parse, if_pos (by omega), hsum]
    rfl
  rw [parse, if_pos (by omega), hcomparison]
  rfl

lemma eval_foldl_add (T : ℚ) (es : List Expr) (e : Expr) :
    (es.foldl (Expr.binary .add) e).eval T = e.eval T + (es.map (Expr.eval T)).sum := by
  induction es generalizing e with
  | nil => simp
  | cons e' es ih =>
      rw [List.foldl_cons, ih, List.map_cons, List.sum_cons, ← add_assoc]
      rfl

/-- **The meaning of a sum** of terms, if the text is long enough for the bound. -/
theorem read_sum {depth : ℕ} {first : List Token} {e : Expr} (hfirst : IsAtom depth first e)
    {terms : List (List Token × Expr)} (h : ∀ t ∈ terms, IsAtom depth t.1 t.2)
    (hdepth : depth + terms.length ≤ 8 * (sumText first (terms.map Prod.fst)).length) :
    read (sumText first (terms.map Prod.fst))
      = some ((terms.map Prod.snd).foldl (Expr.binary .add) e) := by
  have hparse := parse_sum hfirst h
    (8 * (sumText first (terms.map Prod.fst)).length - (depth + terms.length) + 2)
  rw [show 8 * (sumText first (terms.map Prod.fst)).length - (depth + terms.length) + 2 + depth + 2
      + terms.length + 4 = 8 * (sumText first (terms.map Prod.fst)).length + 8 by omega] at hparse
  rw [read, hparse]

end Formula
