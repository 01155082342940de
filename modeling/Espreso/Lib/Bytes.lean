import Mathlib.Data.List.Basic
import Mathlib.Tactic.Ring

/-!
# Object representations

Values of a fixed size, and runs of them, as little endian bytes.

* `Bytes.Plain` — a type whose values are copied byte by byte.
* `Bytes.read`, `Bytes.readMany` — copies out of a buffer, `none` behind its end.
* **`Bytes.read_append`**, **`Bytes.readMany_append`** — what was written is read back, and the rest
  of the buffer is left.
-/

namespace Bytes

/-! ## Natural numbers -/

/-- The low `k` bytes of a number, the lowest first. -/
def ofNat : ℕ → ℕ → List UInt8
  | 0, _ => []
  | k + 1, v => UInt8.ofNat (v % 256) :: ofNat k (v / 256)

def toNat : List UInt8 → ℕ
  | [] => 0
  | b :: bs => b.toNat + 256 * toNat bs

@[simp] lemma length_ofNat (k v : ℕ) : (ofNat k v).length = k := by
  induction k generalizing v with
  | zero => rfl
  | succ k ih => rw [ofNat, List.length_cons, ih]

lemma toNat_ofNat (k v : ℕ) : toNat (ofNat k v) = v % 256 ^ k := by
  induction k generalizing v with
  | zero => rw [ofNat, toNat, pow_zero, Nat.mod_one]
  | succ k ih =>
    have hbyte : (UInt8.ofNat (v % 256)).toNat = v % 256 := by simp
    rw [ofNat, toNat, ih, hbyte, pow_succ', Nat.mod_mul]

lemma toNat_append (xs ys : List UInt8) :
    toNat (xs ++ ys) = toNat xs + 256 ^ xs.length * toNat ys := by
  induction xs with
  | nil => rw [List.nil_append, toNat, List.length_nil, pow_zero, one_mul, zero_add]
  | cons x xs ih =>
    rw [List.cons_append, toNat, toNat, ih, List.length_cons]
    ring

lemma take_ofNat {j k : ℕ} (h : j ≤ k) (v : ℕ) : (ofNat k v).take j = ofNat j v := by
  induction j generalizing k v with
  | zero => rfl
  | succ j ih =>
    obtain ⟨k, rfl⟩ : ∃ k', k = k' + 1 := ⟨k - 1, by omega⟩
    rw [ofNat, List.take_succ_cons, ih (by omega), ofNat]

/-! ## Values of a fixed size -/

/-- **A type whose values are copied byte by byte.** -/
class Plain (α : Type) where
  sizeof : ℕ
  bytes : α → List UInt8
  value : List UInt8 → α
  length_bytes : ∀ a, (bytes a).length = sizeof
  value_bytes : ∀ a, value (bytes a) = a

export Plain (sizeof bytes)

attribute [simp] Plain.length_bytes Plain.value_bytes

instance : Plain UInt8 where
  sizeof := 1
  bytes b := [b]
  value bs := bs.headD 0
  length_bytes _ := rfl
  value_bytes _ := rfl

instance : Plain UInt64 where
  sizeof := 8
  bytes x := ofNat 8 x.toNat
  value bs := UInt64.ofNat (toNat bs)
  length_bytes x := length_ofNat 8 x.toNat
  value_bytes x := by
    have hlt : x.toNat < 256 ^ 8 := x.toNat_lt
    rw [toNat_ofNat, Nat.mod_eq_of_lt hlt, UInt64.ofNat_toNat]

instance : Plain Int32 where
  sizeof := 4
  bytes x := ofNat 4 x.toUInt32.toNat
  value bs := (UInt32.ofNat (toNat bs)).toInt32
  length_bytes x := length_ofNat 4 x.toUInt32.toNat
  value_bytes x := by
    have hlt : x.toUInt32.toNat < 256 ^ 4 := x.toUInt32.toNat_lt
    rw [toNat_ofNat, Nat.mod_eq_of_lt hlt, UInt32.ofNat_toNat, Int32.toInt32_toUInt32]

instance {α β : Type} [Plain α] [Plain β] : Plain (α × β) where
  sizeof := sizeof α + sizeof β
  bytes x := bytes x.1 ++ bytes x.2
  value bs := (Plain.value (bs.take (sizeof α)), Plain.value (bs.drop (sizeof α)))
  length_bytes x := by rw [List.length_append, Plain.length_bytes, Plain.length_bytes]
  value_bytes x := by
    rw [List.take_left' (Plain.length_bytes x.1), List.drop_left' (Plain.length_bytes x.1),
      Plain.value_bytes, Plain.value_bytes]

@[reducible] def Plain.ofFields {α β : Type} [Plain β] (fields : α → β) (make : β → α)
    (h : ∀ a, make (fields a) = a) : Plain α where
  sizeof := sizeof β
  bytes a := bytes (fields a)
  value bs := make (Plain.value bs)
  length_bytes a := Plain.length_bytes (fields a)
  value_bytes a := by rw [Plain.value_bytes, h]

/-! ## Reading -/

def read (α : Type) [Plain α] (p : List UInt8) : Option (α × List UInt8) :=
  if sizeof α ≤ p.length then some (Plain.value (p.take (sizeof α)), p.drop (sizeof α)) else none

/-- Copies `k` elements out of the buffer, each with the reader `r`. -/
def readMany {α : Type} (r : List UInt8 → Option (α × List UInt8)) :
    (k : ℕ) → List UInt8 → Option ({ as : List α // as.length = k } × List UInt8)
  | 0, p => some (⟨[], rfl⟩, p)
  | k + 1, p => do
    let (a, p) ← r p
    let (as, p) ← readMany r k p
    some (⟨a :: as.1, by rw [List.length_cons, as.2]⟩, p)

variable {α : Type} [Plain α]

/-- **What was written is read back.** -/
@[simp] theorem read_append (a : α) (rest : List UInt8) :
    read α (bytes a ++ rest) = some (a, rest) := by
  have hlen : (bytes a).length = sizeof α := Plain.length_bytes a
  rw [read, if_pos (by rw [List.length_append, hlen]; exact Nat.le_add_right _ _),
    List.take_left' hlen, List.drop_left' hlen, Plain.value_bytes]

/-- **A run that was written is read back**, if each element is. -/
theorem readMany_append {β : Type} {enc : β → List UInt8}
    {r : List UInt8 → Option (β × List UInt8)}
    (hr : ∀ a rest, r (enc a ++ rest) = some (a, rest)) (as : List β) {k : ℕ} (hk : as.length = k)
    (rest : List UInt8) : readMany r k (as.flatMap enc ++ rest) = some (⟨as, hk⟩, rest) := by
  subst hk
  induction as with
  | nil => rfl
  | cons a as ih =>
    simp only [List.flatMap_cons, List.append_assoc, List.length_cons, readMany, hr,
      Option.bind_eq_bind, Option.bind_some, ih]

lemma length_flatMap_bytes (as : List α) : (as.flatMap bytes).length = as.length * sizeof α := by
  induction as with
  | nil => rw [List.flatMap_nil, List.length_nil, List.length_nil, zero_mul]
  | cons a as ih =>
    rw [List.flatMap_cons, List.length_append, ih, Plain.length_bytes, List.length_cons]
    ring

end Bytes
