import Espreso.Lib.Process
import Mathlib.Data.List.Basic
import Mathlib.Tactic

/-!
# Group operations on buffers

What the operations of `Communication` share.  A rank runs as a process that sends and receives
buffers of entries.  It returns a flag and a buffer; a read outside of a buffer, which is undefined
behaviour in the code, ends the process with `none`.
-/

namespace Espreso

open MsgPass

variable {T : Type}

/-- What a call returns: the flag and `rBuffer`, or `none` where the code reads outside of a
buffer or does not come to an end. -/
abbrev Result (T : Type) := Option (Bool × List T)

abbrev Rank (T : Type) := Proc ℕ (List T) (Result T)

def guarded {α : Type} (x : Option α) (k : α → Rank T) : Rank T :=
  match x with
  | none => .done none
  | some a => k a

@[simp] lemma guarded_some {α : Type} (a : α) (k : α → Rank T) : guarded (some a) k = k a := rfl

/-- The largest message, `1 << 30` units of the MPI type. -/
def limit : ℕ := 2 ^ 30

/-- `return false` -/
def refuse (rBuffer : List T) : Rank T := .done (some (false, rBuffer))

/-- The entries between two positions; positions outside of the buffer are `none`. -/
def slice (data : List T) (start stop : ℕ) : Option (List T) :=
  if start ≤ stop ∧ stop ≤ data.length then some ((data.take stop).drop start) else none

lemma slice_append (pre mid post : List T) :
    slice (pre ++ mid ++ post) pre.length (pre.length + mid.length) = some mid := by
  have h : pre.length ≤ pre.length + mid.length ∧
      pre.length + mid.length ≤ (pre ++ mid ++ post).length := by simp
  rw [slice, if_pos h, ← List.length_append, List.take_left, List.drop_left]

end Espreso
