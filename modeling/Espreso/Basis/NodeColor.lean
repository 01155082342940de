import Espreso.Basis.Distribution
import Espreso.Lib.Reorder

/-!
# Colours of nodes

The ranks on one node of the machine are to get one colour. The root gathers the names of the
processors of all ranks, sorts the ranks by these names, and counts the colours.

* `MPISubset.fillNodeColor` — the function of the source. The sorted ranks are not read; the names
  of neighbouring ranks are compared.
* **`MPISubset.fillNodeColor_right_iff`** — the colours are right if and only if ranks with the same
  name are consecutive.
-/

namespace Espreso

open Reorder

namespace MPISubset

/-- What `MPI_Get_processor_name` gives: the characters in front of the terminating one. -/
@[ext] structure ProcessorName where
  bytes : List UInt8
  terminated : 0 ∉ bytes
deriving DecidableEq

variable (MPIsize : ℕ) (name : ℕ → ProcessorName)

/-- `maxlength`, from `MPI_Allreduce` -/
def maxlength : ℕ := ((List.range MPIsize).map fun r => (name r).bytes.length).foldl max 0

/-- The `maxlength` characters of `name` that rank `r` sends. -/
def paddedName (r : ℕ) : List UInt8 :=
  (name r).bytes ++ List.replicate (maxlength MPIsize name - (name r).bytes.length) 0

/-- `names`, from `MPI_Gather` -/
def names : List UInt8 := (List.range MPIsize).flatMap (paddedName MPIsize name)

/-- The characters of `names` that are those of rank `i`. -/
def nameOf (i : ℕ) : List UInt8 :=
  window (names MPIsize name) (maxlength MPIsize name * i) (maxlength MPIsize name * (i + 1))

/-- `permutation`: the ranks, sorted by their names. It is not read. -/
def permutation : List ℕ :=
  positions (fun i j => ¬nameOf MPIsize name j < nameOf MPIsize name i) MPIsize

/-- `colors[i]` -/
def color : ℕ → ℕ
  | 0 => 0
  | i + 1 => if nameOf MPIsize name (i + 1) ≠ nameOf MPIsize name i then color i + 1 else color i

/-- **`MPISubset::fillNodeColor`**: `nodeRank` of each rank, from `MPI_Scatter`. -/
def fillNodeColor : List ℕ :=
  let _permutation := permutation MPIsize name
  (List.range MPIsize).map (color MPIsize name)

variable {MPIsize : ℕ} {name : ℕ → ProcessorName}

/-! ## The gathered names -/

lemma le_foldl_max (l : List ℕ) (a : ℕ) : a ≤ l.foldl max a ∧ ∀ x ∈ l, x ≤ l.foldl max a := by
  induction l generalizing a with
  | nil => exact ⟨le_rfl, fun x hx => absurd hx List.not_mem_nil⟩
  | cons y l ih =>
      rw [List.foldl_cons]
      have hnext := ih (max a y)
      refine ⟨(le_max_left a y).trans hnext.1, List.forall_mem_cons.mpr ⟨?_, hnext.2⟩⟩
      exact (le_max_right a y).trans hnext.1

lemma length_le_maxlength {r : ℕ} (hr : r < MPIsize) :
    (name r).bytes.length ≤ maxlength MPIsize name :=
  (le_foldl_max _ 0).2 _ (List.mem_map_of_mem (List.mem_range.mpr hr))

lemma length_paddedName {r : ℕ} (hr : r < MPIsize) :
    (paddedName MPIsize name r).length = maxlength MPIsize name := by
  have hle : (name r).bytes.length ≤ maxlength MPIsize name := length_le_maxlength hr
  rw [paddedName, List.length_append, List.length_replicate]
  omega

lemma nameOf_eq {r : ℕ} (hr : r < MPIsize) :
    nameOf MPIsize name r = paddedName MPIsize name r := by
  have hmono : Monotone fun i => maxlength MPIsize name * i :=
    fun _ _ hij => Nat.mul_le_mul_left _ hij
  let d : Distribution MPIsize (maxlength MPIsize name * MPIsize) :=
    Distribution.ofFun (fun i => maxlength MPIsize name * i) hmono rfl rfl
  have hborder : ∀ i ≤ MPIsize, d.border i = maxlength MPIsize name * i :=
    fun i hi => Distribution.ofFun_border hi
  have hlength : ∀ q < MPIsize,
      (paddedName MPIsize name q).length = d.border (q + 1) - d.border q := by
    intro q hq
    rw [length_paddedName hq, hborder q hq.le, hborder (q + 1) hq, Nat.mul_succ,
      Nat.add_sub_cancel_left]
  have hbuffer := buffer_eq_window d hlength hr
  rw [hborder r hr.le, hborder (r + 1) hr] at hbuffer
  exact hbuffer.symm

lemma takeWhile_paddedName (r : ℕ) :
    (paddedName MPIsize name r).takeWhile (· ≠ 0) = (name r).bytes := by
  have hbytes : ∀ b ∈ (name r).bytes, decide (b ≠ 0) = true := by
    intro b hb
    refine decide_eq_true ?_
    rintro rfl
    exact (name r).terminated hb
  rw [paddedName, List.takeWhile_append_of_pos hbytes]
  cases maxlength MPIsize name - (name r).bytes.length <;> simp [List.replicate_succ]

lemma nameOf_inj {i j : ℕ} (hi : i < MPIsize) (hj : j < MPIsize) :
    nameOf MPIsize name i = nameOf MPIsize name j ↔ name i = name j := by
  rw [nameOf_eq hi, nameOf_eq hj]
  constructor
  · intro h
    have hbytes := congrArg (List.takeWhile (· ≠ 0)) h
    rw [takeWhile_paddedName, takeWhile_paddedName] at hbytes
    exact ProcessorName.ext hbytes
  · intro h
    rw [paddedName, paddedName, h]

/-! ## The colours -/

lemma color_succ {i : ℕ} (hi : i + 1 < MPIsize) :
    color MPIsize name (i + 1)
      = if name (i + 1) = name i then color MPIsize name i else color MPIsize name i + 1 := by
  have hinj : nameOf MPIsize name (i + 1) = nameOf MPIsize name i ↔ name (i + 1) = name i :=
    nameOf_inj hi (Nat.lt_of_succ_lt hi)
  rw [color]
  by_cases h : name (i + 1) = name i
  · rw [if_neg (not_not.mpr (hinj.mpr h)), if_pos h]
  · rw [if_pos (mt hinj.mp h), if_neg h]

lemma color_eq_iff {i n : ℕ} (hn : i + n < MPIsize) :
    color MPIsize name i ≤ color MPIsize name (i + n) ∧
      (color MPIsize name (i + n) = color MPIsize name i ↔
        ∀ j ≤ n, name (i + j) = name i) := by
  induction n with
  | zero =>
      refine ⟨le_rfl, iff_of_true rfl fun j hj => ?_⟩
      rw [Nat.le_zero.mp hj, Nat.add_zero]
  | succ n ih =>
      obtain ⟨hle, hiff⟩ := ih (by omega)
      have hsucc : color MPIsize name (i + (n + 1)) = if name (i + n + 1) = name (i + n)
          then color MPIsize name (i + n) else color MPIsize name (i + n) + 1 := color_succ hn
      rw [hsucc]
      split_ifs with h
      · refine ⟨hle, hiff.trans ⟨fun hall j hj => ?_, fun hall j hj => hall j (by omega)⟩⟩
        rcases Nat.le_succ_iff.mp hj with hj | rfl
        · exact hall j hj
        · exact h.trans (hall n le_rfl)
      · refine ⟨by omega, iff_of_false (by omega) fun hall => h ?_⟩
        exact (hall (n + 1) le_rfl).trans (hall n (Nat.le_succ n)).symm

/-- **`MPISubset::fillNodeColor`** gives the same colour to exactly the ranks with the same name if
and only if ranks with the same name are consecutive. -/
theorem fillNodeColor_right_iff (MPIsize : ℕ) (name : ℕ → ProcessorName) :
    (∀ i < MPIsize, ∀ j < MPIsize,
      (fillNodeColor MPIsize name)[i]? = (fillNodeColor MPIsize name)[j]? ↔ name i = name j) ↔
    ∀ i j k, i < j → j < k → k < MPIsize → name i = name k → name j = name i := by
  have hread : ∀ i < MPIsize, (fillNodeColor MPIsize name)[i]? = some (color MPIsize name i) := by
    intro i hi
    rw [fillNodeColor, List.getElem?_map, List.getElem?_range hi, Option.map_some]
  constructor
  · intro hright i j k hij hjk hk hname
    have hcolor := (hright i (by omega) k hk).mpr hname
    rw [hread i (by omega), hread k hk, Option.some.injEq] at hcolor
    obtain ⟨n, rfl⟩ := Nat.exists_eq_add_of_le (hij.trans hjk).le
    obtain ⟨m, rfl⟩ := Nat.exists_eq_add_of_le hij.le
    exact (color_eq_iff hk).2.mp hcolor.symm m (by omega)
  · intro hconsecutive
    have hle : ∀ i n, i + n < MPIsize →
        (color MPIsize name (i + n) = color MPIsize name i ↔ name (i + n) = name i) := by
      intro i n hn
      refine (color_eq_iff hn).2.trans ⟨fun hall => hall n le_rfl, fun hname j hj => ?_⟩
      rcases Nat.eq_zero_or_pos j with rfl | hpos
      · rw [Nat.add_zero]
      · rcases Nat.eq_or_lt_of_le hj with rfl | hlt
        · exact hname
        · exact hconsecutive i (i + j) (i + n) (by omega) (by omega) hn hname.symm
    intro i hi j hj
    rw [hread i hi, hread j hj, Option.some.injEq]
    rcases le_total i j with hij | hji
    · obtain ⟨n, rfl⟩ := Nat.exists_eq_add_of_le hij
      rw [eq_comm, hle i n hj, eq_comm]
    · obtain ⟨n, rfl⟩ := Nat.exists_eq_add_of_le hji
      exact hle j n hi

/-- The name of two nodes on which the ranks are placed in turn. -/
def roundRobin (r : ℕ) : ProcessorName where
  bytes := if r % 2 = 0 then [97] else [98]
  terminated := by split_ifs <;> decide

/-- Ranks 0 and 2 are on one node, but rank 1 is not. -/
theorem fillNodeColor_not_right :
    ¬∀ i < 3, ∀ j < 3, (fillNodeColor 3 roundRobin)[i]? = (fillNodeColor 3 roundRobin)[j]? ↔
      roundRobin i = roundRobin j := by
  intro h
  have hcolor := (h 0 (by omega) 2 (by omega)).mpr rfl
  have hzero : (fillNodeColor 3 roundRobin)[0]? = some 0 := rfl
  have htwo : (fillNodeColor 3 roundRobin)[2]? = some 2 := rfl
  rw [hzero, htwo] at hcolor
  exact absurd hcolor (by decide)

end MPISubset

end Espreso
