import Espreso.Constraints.Update
import Mathlib.Order.WithBot

/-!
# The matrices of equality constraints

What the loops over the intervals write: per domain the gluing matrix `B1` in coordinate format and
the arrays that belong to its rows, per rank the map `B1clustersMap`.

* `Entry`, `Piece` — one entry of `B1`, and what a loop appends to the arrays of one domain.
* `System.Multiplier` — what a gluing row is for, and `System.column`, the column of a node and a
  degree of freedom in a domain; **`column_injOn`**.
-/

namespace Espreso

open Layout

/-! ## Entries -/

/-- An entry of a matrix in coordinate format. -/
structure Entry where
  row : ℕ
  col : ℕ
  value : ℚ
  deriving DecidableEq

/-- What a loop appends to the arrays of a domain. -/
structure Piece where
  I_row_indices : List ℕ
  J_col_indices : List ℕ
  V_values : List ℚ
  B1duplicity : List ℚ

namespace Piece

instance : EmptyCollection Piece := ⟨⟨[], [], [], []⟩⟩

instance : Append Piece where
  append p q := ⟨p.I_row_indices ++ q.I_row_indices, p.J_col_indices ++ q.J_col_indices,
    p.V_values ++ q.V_values, p.B1duplicity ++ q.B1duplicity⟩

/-- A piece whose arrays hold the given entries. -/
structure Holds (p : Piece) (entries : List Entry) : Prop where
  rows : p.I_row_indices = entries.map Entry.row
  cols : p.J_col_indices = entries.map Entry.col
  values : p.V_values = entries.map Entry.value

lemma holds_nil : (∅ : Piece).Holds [] := ⟨rfl, rfl, rfl⟩

lemma Holds.append {p q : Piece} {k l : List Entry} (hp : p.Holds k) (hq : q.Holds l) :
    (p ++ q).Holds (k ++ l) where
  rows := by rw [List.map_append, ← hp.rows, ← hq.rows]; rfl
  cols := by rw [List.map_append, ← hp.cols, ← hq.cols]; rfl
  values := by rw [List.map_append, ← hp.values, ← hq.values]; rfl

end Piece

/-! ## The arrays -/

/-- `std::vector::resize` with a value for new elements. -/
def resize {α : Type} (l : List α) (size : ℕ) (x : α) : List α :=
  l.take size ++ List.replicate (size - l.length) x

/-- The arrays of one domain.  `⊥` in `LB` is the lower bound `-inf`. -/
structure DomainInstance where
  rows : ℕ
  nnz : ℕ
  I_row_indices : List ℕ
  J_col_indices : List ℕ
  V_values : List ℚ
  B1duplicity : List ℚ
  B1c : List ℚ
  LB : List (WithBot ℚ)
  B1subdomainsMap : List ℕ
  domainDirichletSize : ℕ

namespace DomainInstance

def clear : DomainInstance := ⟨0, 0, [], [], [], [], [], [], [], 0⟩

/-- Appending a piece to the arrays of `B1`. -/
def push (i : DomainInstance) (p : Piece) : DomainInstance :=
  { i with
    I_row_indices := i.I_row_indices ++ p.I_row_indices
    J_col_indices := i.J_col_indices ++ p.J_col_indices
    V_values := i.V_values ++ p.V_values
    B1duplicity := i.B1duplicity ++ p.B1duplicity }

/-- Between `i` and `j` exactly the given entries were appended to `B1`. -/
structure Grows (i j : DomainInstance) (entries : List Entry) : Prop where
  rows : j.I_row_indices = i.I_row_indices ++ entries.map Entry.row
  cols : j.J_col_indices = i.J_col_indices ++ entries.map Entry.col
  values : j.V_values = i.V_values ++ entries.map Entry.value

lemma Grows.unique {i j : DomainInstance} {k l : List Entry} (hk : i.Grows j k)
    (hl : i.Grows j l) : k = l := by
  have hrows := List.append_cancel_left (hk.rows.symm.trans hl.rows)
  have hcols := List.append_cancel_left (hk.cols.symm.trans hl.cols)
  have hvalues := List.append_cancel_left (hk.values.symm.trans hl.values)
  clear hk hl
  induction k generalizing l with
  | nil => exact (List.map_eq_nil_iff.mp hrows.symm).symm
  | cons a k ih =>
      cases l with
      | nil => simp at hrows
      | cons b l =>
          simp only [List.map_cons, List.cons.injEq] at hrows hcols hvalues
          have hab : a = b := by
            cases a
            cases b
            simp_all
          rw [hab, ih hrows.2 hcols.2 hvalues.2]

end DomainInstance

/-- The arrays of one rank. -/
structure Instance where
  domains : ℕ → DomainInstance
  B1clustersMap : List (List ℕ)
  blockDirichlet : ℕ
  blockEqualityConstraints : ℕ

def Instance.clear : Instance := ⟨fun _ => DomainInstance.clear, [], 0, 0⟩

/-- The row (from 0) at the front of an entry of `B1clustersMap`. -/
def mapRow (entry : List ℕ) : ℕ := entry.headD 0

/-! ## Rows and columns -/

namespace System

variable (sys : System)

/-- What a gluing row is for: an interval, a degree of freedom of one of its nodes, and two of the
domains that share it, by their positions. -/
abbrev Multiplier := ℕ × (ℕ × ℕ) × (ℕ × ℕ)

def domainAt (g i : ℕ) : ℕ := (sys.interval g).domains.getD i 0

/-- The column of a degree of freedom of a node of interval `g` in domain `d`, from 1 on. -/
def column (d g : ℕ) (x : ℕ × ℕ) : ℕ := sys.DOFs * (sys.dofOffset d g + x.2) + x.1 + 1

variable {sys}

lemma getElem?_domainAt {g i : ℕ} (hi : i < sys.ndomains g) :
    (sys.interval g).domains[i]? = some (sys.domainAt g i) := by
  have h : (sys.interval g).domains[i]? = some _ := List.getElem?_eq_getElem hi
  rw [domainAt, List.getD_eq_getElem?_getD, h, Option.getD_some]

lemma domainAt_mem {g i : ℕ} (hi : i < sys.ndomains g) :
    sys.domainAt g i ∈ (sys.interval g).domains :=
  List.mem_of_getElem? (getElem?_domainAt hi)

lemma lowerBound_domainAt {g i : ℕ} (hi : i < sys.ndomains g) :
    lowerBound (sys.interval g).domains (sys.domainAt g i) = i :=
  lowerBound_getElem? (sys.interval g).ascending (getElem?_domainAt hi)

lemma domainAt_inj {g i j : ℕ} (hi : i < sys.ndomains g) (hj : j < sys.ndomains g)
    (h : sys.domainAt g i = sys.domainAt g j) : i = j := by
  rw [← lowerBound_domainAt hi, h, lowerBound_domainAt hj]

lemma domainAt_lt {g i j : ℕ} (hij : i < j) (hj : j < sys.ndomains g) :
    sys.domainAt g i < sys.domainAt g j := by
  have hi : i < sys.ndomains g := lt_trans hij hj
  obtain ⟨hi', heq⟩ := List.getElem?_eq_some_iff.mp (getElem?_domainAt hi)
  obtain ⟨hj', heq'⟩ := List.getElem?_eq_some_iff.mp (getElem?_domainAt hj)
  rw [← heq, ← heq']
  exact List.pairwise_iff_getElem.mp (sys.interval g).ascending i j hi' hj' hij

lemma domainAt_lowerBound {g d : ℕ} (hd : d ∈ (sys.interval g).domains) :
    lowerBound (sys.interval g).domains d < sys.ndomains g ∧
      sys.domainAt g (lowerBound (sys.interval g).domains d) = d := by
  have h := (lowerBound_mem (sys.interval g).ascending).mpr hd
  have hlt : lowerBound (sys.interval g).domains d < sys.ndomains g :=
    (List.getElem?_eq_some_iff.mp h).1
  exact ⟨hlt, Option.some.inj ((getElem?_domainAt hlt).symm.trans h)⟩

/-- **Columns do not collide** within a domain. -/
theorem column_injOn {d g h : ℕ} {x y : ℕ × ℕ} (hg : d ∈ (sys.interval g).domains)
    (hh : d ∈ (sys.interval h).domains) (hx₁ : x.1 < sys.DOFs) (hy₁ : y.1 < sys.DOFs)
    (hx₂ : x.2 < (sys.interval g).size) (hy₂ : y.2 < (sys.interval h).size)
    (heq : sys.column d g x = sys.column d h y) : g = h ∧ x = y := by
  have hrow : Set.BijOn (fun p : ℕ × ℕ => p.1 * sys.DOFs + p.2) _ _ :=
    mul_add_bijOn (max (sys.dofOffset d g + x.2) (sys.dofOffset d h + y.2) + 1) sys.DOFs
  have h₁ : (sys.dofOffset d g + x.2, x.1) = (sys.dofOffset d h + y.2, y.1) := by
    refine hrow.injOn ⟨by simp only; omega, hx₁⟩ ⟨by simp only; omega, hy₁⟩ ?_
    simp only [column] at heq
    simp only [Nat.mul_comm _ sys.DOFs]
    omega
  obtain ⟨hnode, hdof⟩ := Prod.mk.inj h₁
  have hblocks := prefixes_bijOn (max g h + 1)
    fun h => if d ∈ (sys.interval h).domains then (sys.interval h).size else 0
  have h₂ : (g, x.2) = (h, y.2) := by
    refine hblocks.injOn ⟨by simp only; omega, by simpa only [if_pos hg] using hx₂⟩
      ⟨by simp only; omega, by simpa only [if_pos hh] using hy₂⟩ hnode
  obtain ⟨rfl, hk⟩ := Prod.mk.inj h₂
  exact ⟨rfl, Prod.ext hdof hk⟩

end System

end Espreso
