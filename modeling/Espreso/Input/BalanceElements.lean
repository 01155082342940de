import Espreso.Basis.Balance
import Mathlib.Data.List.Sort
import Mathlib.Data.List.SplitLengths

/-!
# Balancing of elements

`Input::balanceElements` gives all ranks the same number of elements.  The nodes of elements are a
buffer of their own, whose target distribution is computed by the ranks that hold the elements at
the borders.

* `ElementData` — the arrays of elements of a rank, and `ElementData.elements`, what they describe.
* `nTarget` — the target distribution of nodes, and **`nTarget_eq`**, the nodes in front of the borders.
* `BalanceElements` — the whole function; **`preserved_iff`**, when it preserves the mesh.
-/

namespace Espreso

namespace Input

open MsgPass

/-! ## Elements -/

/-- The arrays of `PlainMeshData` that describe the elements of a rank. -/
@[ext] structure ElementData where
  eIDs : List ℤ
  esize : List ℕ
  enodes : List ℤ
  etype : List ℤ
  body : List ℤ
  material : List ℤ

namespace ElementData

/-- Each element has one entry in each array, and as many nodes as its size says. -/
structure WellFormed (D : ElementData) : Prop where
  eIDs : D.eIDs.length = D.esize.length
  enodes : D.enodes.length = D.esize.sum
  etype : D.etype.length = D.esize.length
  body : D.body.length = D.esize.length
  material : D.material.length = D.esize.length

def elements (D : ElementData) : List (ℤ × ℕ × ℤ × ℤ × ℤ × List ℤ) :=
  D.eIDs.zip (D.esize.zip (D.etype.zip (D.body.zip (D.material.zip
    (D.esize.splitLengths D.enodes)))))

def whole (size : ℕ) (M : ℕ → ElementData) : ElementData where
  eIDs := (List.range size).flatMap fun r => (M r).eIDs
  esize := (List.range size).flatMap fun r => (M r).esize
  enodes := (List.range size).flatMap fun r => (M r).enodes
  etype := (List.range size).flatMap fun r => (M r).etype
  body := (List.range size).flatMap fun r => (M r).body
  material := (List.range size).flatMap fun r => (M r).material

lemma splitLengths_append {T : Type} {sizes : List ℕ} {l : List T} (h : l.length = sizes.sum)
    (sizes' : List ℕ) (l' : List T) :
    (sizes ++ sizes').splitLengths (l ++ l')
      = sizes.splitLengths l ++ sizes'.splitLengths l' := by
  induction sizes generalizing l with
  | nil =>
      obtain rfl : l = [] := List.length_eq_zero_iff.mp h
      rfl
  | cons n sizes ih =>
      rw [List.sum_cons] at h
      have hdrop : (l.drop n).length = sizes.sum := by
        rw [List.length_drop]
        omega
      rw [List.cons_append, List.splitLengths_cons, List.splitLengths_cons, List.cons_append,
        List.take_append_of_le_length (by omega), List.drop_append_of_le_length (by omega), ih hdrop]

lemma whole_spec {M : ℕ → ElementData} {n : ℕ} (h : ∀ r < n, (M r).WellFormed) :
    (whole n M).WellFormed ∧
      (whole n M).elements = (List.range n).flatMap fun r => (M r).elements := by
  induction n with
  | zero => exact ⟨⟨rfl, rfl, rfl, rfl, rfl⟩, rfl⟩
  | succ n ih =>
      obtain ⟨hwhole, helements⟩ := ih fun r hr => h r (Nat.lt_succ_of_lt hr)
      have hn := h n (Nat.lt_succ_self n)
      have hlengths : ((whole n M).esize.splitLengths (whole n M).enodes).length
          = (whole n M).esize.length := List.length_splitLengths _ _
      have happend : whole (n + 1) M = ⟨(whole n M).eIDs ++ (M n).eIDs,
          (whole n M).esize ++ (M n).esize, (whole n M).enodes ++ (M n).enodes,
          (whole n M).etype ++ (M n).etype, (whole n M).body ++ (M n).body,
          (whole n M).material ++ (M n).material⟩ := by
        simp only [whole, List.range_succ, List.flatMap_append, List.flatMap_singleton]
      constructor
      · rw [happend]
        constructor
        · simp only [List.length_append, hwhole.eIDs, hn.eIDs]
        · simp only [List.length_append, List.sum_append, hwhole.enodes, hn.enodes]
        · simp only [List.length_append, hwhole.etype, hn.etype]
        · simp only [List.length_append, hwhole.body, hn.body]
        · simp only [List.length_append, hwhole.material, hn.material]
      · rw [happend, List.range_succ, List.flatMap_append, List.flatMap_singleton, ← helements]
        simp only [elements]
        rw [splitLengths_append hwhole.enodes, List.zip_append, List.zip_append, List.zip_append,
          List.zip_append, List.zip_append]
        all_goals
          simp only [List.length_zip, hwhole.eIDs, hwhole.etype, hwhole.body, hwhole.material,
            hlengths, min_self]

end ElementData

/-! ## The target distribution of nodes -/

/-- The loop over the elements of a rank: `nTarget` gets the number of nodes in front of each border.
A read behind `_eDistribution` is `none`. -/
def nTargetLoop (eDistribution : List ℕ) : ℕ → ℕ → ℕ → List ℕ → Option (List ℕ)
  | _, _, _, [] => some []
  | e, eTargetIndex, nodeOffset, n :: esize => do
    let border ← eDistribution[eTargetIndex]?
    if e + 1 = border then do
      let rest ← nTargetLoop eDistribution (e + 1) (eTargetIndex + 1) (nodeOffset + n) esize
      pure ((nodeOffset + n) :: rest)
    else nTargetLoop eDistribution (e + 1) eTargetIndex (nodeOffset + n) esize

section Target

variable (size : ℕ) (M : ℕ → ElementData)

def eCurrent : List ℕ := getDistribution size fun r => (M r).esize.length

def nCurrent : List ℕ := getDistribution size fun r => (M r).enodes.length

def eDistribution : List ℕ := distribute size ((eCurrent size M).getD size 0)

/-- The part of `nTarget` that a rank computes. -/
def rankTarget (MPIrank : ℕ) : Option (List ℕ) := do
  let first ← (eCurrent size M)[MPIrank]?
  let nodeOffset ← (nCurrent size M)[MPIrank]?
  let found ← nTargetLoop (eDistribution size M) first
    (lowerBound (eDistribution size M) (first + 1)) nodeOffset (M MPIrank).esize
  pure ((if MPIrank = 0 then [0] else []) ++ found)

/-- `nTarget.resize(n, nTarget.back())` -/
def resize (n : ℕ) (l : List ℕ) : Option (List ℕ) :=
  l.getLast?.map fun back => l.take n ++ List.replicate (n - l.length) back

/-- **The target distribution of nodes**, after `Communication::allGatherUnknownSize`. -/
def nTarget : Option (List ℕ) := do
  let parts ← (List.range size).mapM (rankTarget size M)
  resize (size + 1) parts.flatten

end Target

def EmptyAtEnd {size total : ℕ} (d : Distribution size total) : Prop :=
  ∀ r < size, d.border r < d.border (r + 1) ∨ d.border r = total

lemma emptyAtEnd_uniform {size : ℕ} (hsize : 0 < size) (total : ℕ) :
    EmptyAtEnd (Distribution.uniform hsize total) := by
  intro r hr
  rw [uniform_border hsize total hr.le, uniform_border hsize total (show r + 1 ≤ size from hr),
    distribute_getD total hr]
  rcases Nat.lt_or_ge (r * ((total + size - 1) / size)) total with hlt | hge
  · left
    have hchunk : 0 < (total + size - 1) / size := Nat.div_pos (by omega) hsize
    rcases Nat.lt_or_ge (r + 1) size with hnext | hlast
    · rw [distribute_getD total hnext, Nat.succ_mul]
      omega
    · obtain rfl : r + 1 = size := by omega
      rw [distribute_getD_last]
      omega
  · exact Or.inr (min_eq_right hge)

lemma uniform_last_pos_iff {size : ℕ} (hsize : 0 < size) (total : ℕ) :
    (size - 1) * ((total + size - 1) / size) < total ↔
      (Distribution.uniform hsize total).border (size - 1)
        < (Distribution.uniform hsize total).border size := by
  rw [Distribution.border_size, uniform_border hsize _ (Nat.sub_le _ _),
    distribute_getD _ (Nat.sub_lt hsize Nat.one_pos)]
  omega

lemma uniform_border_lt {size total : ℕ} {hsize : 0 < size}
    (h : (Distribution.uniform hsize total).border (size - 1)
      < (Distribution.uniform hsize total).border size) {r : ℕ} (hr : r < size) :
    (Distribution.uniform hsize total).border r < (Distribution.uniform hsize total).border (r + 1) := by
  refine (emptyAtEnd_uniform hsize total r hr).resolve_right fun heq => ?_
  have hle := (Distribution.uniform hsize total).border_mono (Nat.le_sub_one_of_lt hr)
    (Nat.sub_le _ _)
  rw [Distribution.border_size] at h
  omega

section Loop

variable {size total : ℕ} {d : Distribution size total} {N : ℕ → ℕ}

lemma border_step (htail : EmptyAtEnd d) {e : ℕ} (he : e < total) :
    ∃ border, d.borders[lowerBound d.borders (e + 1)]? = some border ∧
      (e + 1 = border ↔ e + 1 ∈ d.borders) ∧
      (e + 1 < total → lowerBound d.borders (e + 1 + 1)
        = if e + 1 = border then lowerBound d.borders (e + 1) + 1
          else lowerBound d.borders (e + 1)) := by
  obtain ⟨t, ht, hle, hlow, hhigh⟩ := lowerBound_spec d e
  have hlt : t < size := by
    refine Nat.lt_of_le_of_ne hle fun heq => ?_
    rw [heq, d.border_size] at hlow
    omega
  have hhigh := hhigh hlt
  refine ⟨d.border (t + 1), by rw [ht, d.getElem?_eq hlt], ?_, ?_⟩
  · constructor
    · intro heq
      rw [heq]
      exact List.mem_of_getElem? (d.getElem?_eq hlt)
    · intro hmem
      obtain ⟨j, hj⟩ := List.mem_iff_getElem?.mp hmem
      have hjsize : j ≤ size := by
        have := (List.getElem?_eq_some_iff.mp hj).1
        rw [d.length_eq] at this
        omega
      rw [d.getElem?_eq hjsize, Option.some.injEq] at hj
      rcases Nat.lt_or_ge t j with hlater | hbefore
      · have := d.border_mono (show t + 1 ≤ j from hlater) hjsize
        omega
      · have := d.border_mono hbefore hle
        omega
  · intro hnext
    rw [ht]
    split_ifs with heq
    · have hlast : t + 1 < size := by
        refine Nat.lt_of_le_of_ne hlt fun h => ?_
        rw [h, d.border_size] at heq
        omega
      have hbehind := (htail (t + 1) hlast).resolve_right (by omega)
      exact lowerBound_eq d hlast heq.ge (by omega)
    · exact lowerBound_eq d hlt (by omega) (by omega)

/-- **The loop finds the nodes in front of each border** among the elements of a rank. -/
lemma nTargetLoop_eq (htail : EmptyAtEnd d) {esize : List ℕ} {e nodeOffset : ℕ}
    (htotal : e + esize.length ≤ total)
    (hN : ∀ i ≤ esize.length, N (e + i) = nodeOffset + (esize.take i).sum) :
    nTargetLoop d.borders e (lowerBound d.borders (e + 1)) nodeOffset esize
      = some (((List.range' e esize.length).filter (· + 1 ∈ d.borders)).map fun e => N (e + 1)) := by
  induction esize generalizing e nodeOffset with
  | nil => rfl
  | cons n esize ih =>
      rw [List.length_cons] at htotal
      obtain ⟨border, hborder, hmem, hnext⟩ := border_step htail (show e < total by omega)
      have hone : N (e + 1) = nodeOffset + n := by simpa using hN 1 (by simp)
      have hrest : ∀ i ≤ esize.length, N (e + 1 + i) = nodeOffset + n + (esize.take i).sum := by
        intro i hi
        have h := hN (i + 1) (by simpa using hi)
        rw [List.take_succ_cons, List.sum_cons] at h
        rw [Nat.add_assoc e 1 i, Nat.add_comm 1 i, h, Nat.add_assoc]
      have hrun : nTargetLoop d.borders (e + 1) (if e + 1 = border
          then lowerBound d.borders (e + 1) + 1 else lowerBound d.borders (e + 1))
          (nodeOffset + n) esize
          = some (((List.range' (e + 1) esize.length).filter (· + 1 ∈ d.borders)).map
            fun e => N (e + 1)) := by
        cases esize with
        | nil => rfl
        | cons n' esize =>
            rw [List.length_cons] at htotal
            rw [← hnext (by omega)]
            exact ih (by rw [List.length_cons]; omega) hrest
      rw [nTargetLoop, hborder, List.length_cons, List.range'_succ, List.filter_cons]
      simp only [Option.bind_eq_bind, Option.bind_some, ← hmem, decide_eq_true_eq]
      split_ifs at hrun ⊢ with heq
      · rw [hrun, List.map_cons, hone]
        rfl
      · exact hrun

lemma borders_eq (htail : EmptyAtEnd d) : ∃ k ≤ size, d.border k = total ∧
    0 :: ((List.range total).filter (· + 1 ∈ d.borders)).map (· + 1)
      = (List.range (k + 1)).map d.border := by
  have hexists : ∃ k ≤ size, d.border k = total := ⟨size, le_rfl, d.border_size⟩
  classical
  obtain ⟨hk, htotal⟩ := Nat.find_spec hexists
  set k := Nat.find hexists
  have hne : ∀ i < k, d.border i ≠ total := fun i hi heq =>
    Nat.find_min hexists hi ⟨(Nat.le_of_lt hi).trans hk, heq⟩
  have hlt : ∀ i < k, d.border i < d.border (i + 1) := fun i hi =>
    (htail i (hi.trans_le hk)).resolve_right (hne i hi)
  refine ⟨k, hk, htotal, ?_⟩
  rw [List.range_succ_eq_map, List.map_cons, d.border_zero, List.map_map]
  congr 1
  change _ = (List.range k).map fun i => d.border (i + 1)
  -- both lists are ascending
  refine List.Pairwise.eq_of_mem_iff (r := (· < ·)) ?_ ?_ fun x => ?_
  · exact List.pairwise_map.mpr ((List.pairwise_lt_range.filter _).imp Nat.succ_lt_succ)
  · rw [List.pairwise_map]
    refine List.pairwise_iff_getElem.mpr fun i j hi hj hij => ?_
    rw [List.length_range] at hj
    rw [List.getElem_range, List.getElem_range]
    exact (hlt (i + 1) (by omega)).trans_le (d.border_mono (by omega) (by omega))
  · rw [List.mem_map, List.mem_map]
    constructor
    · rintro ⟨e, he, rfl⟩
      rw [List.mem_filter, List.mem_range, decide_eq_true_eq] at he
      obtain ⟨j, hj⟩ := List.mem_iff_getElem?.mp he.2
      have hjsize : j ≤ size := by
        have := (List.getElem?_eq_some_iff.mp hj).1
        rw [d.length_eq] at this
        omega
      rw [d.getElem?_eq hjsize, Option.some.injEq] at hj
      have hzero := d.border_zero
      rcases Nat.lt_or_ge k j with hlater | hbefore
      · have := d.border_mono hlater.le hjsize
        have := d.border_le_total hjsize
        have hpos : k ≠ 0 := by
          intro h
          rw [h] at htotal
          omega
        refine ⟨k - 1, List.mem_range.mpr (by omega), ?_⟩
        rw [Nat.sub_add_cancel (Nat.pos_of_ne_zero hpos)]
        omega
      · have hpos : j ≠ 0 := by
          rintro rfl
          omega
        refine ⟨j - 1, List.mem_range.mpr (by omega), ?_⟩
        rw [Nat.sub_add_cancel (Nat.pos_of_ne_zero hpos), hj]
    · rintro ⟨i, hi, rfl⟩
      rw [List.mem_range] at hi
      have hstep := hlt i hi
      have hle := d.border_le_total (show i + 1 ≤ size by omega)
      refine ⟨d.border (i + 1) - 1, ?_, by omega⟩
      rw [List.mem_filter, List.mem_range, decide_eq_true_eq, Nat.sub_add_cancel (by omega)]
      exact ⟨by omega, List.mem_of_getElem? (d.getElem?_eq (by omega))⟩

/-- **The gathered list** is filled up with its last entry. -/
lemma resize_eq (htail : EmptyAtEnd d) (hzero : N 0 = 0) :
    resize (size + 1) (0 :: ((List.range total).filter (· + 1 ∈ d.borders)).map fun e => N (e + 1))
      = some ((List.range (size + 1)).map fun r => N (d.border r)) := by
  obtain ⟨k, hk, htotal, hborders⟩ := borders_eq htail
  have hlist : 0 :: ((List.range total).filter (· + 1 ∈ d.borders)).map (fun e => N (e + 1))
      = (List.range (k + 1)).map fun r => N (d.border r) := by
    have h := congrArg (List.map N) hborders
    rwa [List.map_cons, hzero, List.map_map, List.map_map] at h
  obtain ⟨m, rfl⟩ := Nat.exists_eq_add_of_le hk
  have hbehind : (List.range m).map (fun i => N (d.border (k + 1 + i)))
      = List.replicate m (N total) := by
    rw [List.eq_replicate_iff]
    refine ⟨by simp, fun x hx => ?_⟩
    obtain ⟨i, hi, rfl⟩ := List.mem_map.mp hx
    rw [List.mem_range] at hi
    have hge := d.border_mono (show k ≤ k + 1 + i by omega) (by omega)
    have hle := d.border_le_total (show k + 1 + i ≤ k + m by omega)
    rw [show d.border (k + 1 + i) = total by omega]
  have hsplit : (List.range (k + m + 1)).map (fun r => N (d.border r))
      = (List.range (k + 1)).map (fun r => N (d.border r)) ++ List.replicate m (N total) := by
    rw [← hbehind, Nat.add_right_comm, List.range_add (n := k + 1), List.map_append, List.map_map]
    rfl
  rw [resize, hlist, List.getLast?_map, List.getLast?_range, if_neg (Nat.succ_ne_zero k)]
  simp only [Option.map_some, List.length_map, List.length_range, Nat.add_sub_cancel, htotal]
  rw [List.take_of_length_le (by simp), hsplit, show k + m + 1 - (k + 1) = m by omega]

end Loop

/-! ## The new distribution -/

section Balance

variable {size : ℕ} {M : ℕ → ElementData}

abbrev total (size : ℕ) (M : ℕ → ElementData) : ℕ :=
  ((List.range size).map fun r => (M r).esize.length).sum

def nodesBefore (size : ℕ) (M : ℕ → ElementData) (e : ℕ) : ℕ :=
  ((ElementData.whole size M).esize.take e).sum

lemma length_whole : (ElementData.whole size M).esize.length = total size M := List.length_flatMap

lemma eDistribution_eq : eDistribution size M = distribute size (total size M) := by
  have hlast : (eCurrent size M)[size]? = some (total size M) :=
    (Distribution.ofSizes size fun r => (M r).esize.length).last
  rw [eDistribution, List.getD_eq_getElem?_getD, hlast, Option.getD_some]

lemma nodesBefore_mono : Monotone (nodesBefore size M) := by
  intro a b h
  obtain ⟨n, rfl⟩ := Nat.exists_eq_add_of_le h
  rw [nodesBefore, nodesBefore, List.take_add, List.sum_append]
  exact Nat.le_add_right _ _

@[simp] lemma nodesBefore_zero : nodesBefore size M 0 = 0 := rfl

lemma nodesBefore_add (hM : ∀ r < size, (M r).WellFormed) {r : ℕ} (hr : r < size) {i : ℕ}
    (hi : i ≤ (M r).esize.length) :
    nodesBefore size M (((List.range r).map fun r => (M r).esize.length).sum + i)
      = ((List.range r).map fun r => (M r).enodes.length).sum + ((M r).esize.take i).sum := by
  have hlength : ((List.range r).map fun r => (M r).esize.length).sum
      = (ElementData.whole r M).esize.length := List.length_flatMap.symm
  have hnodes : ((List.range r).map fun r => (M r).enodes.length).sum
      = (ElementData.whole r M).esize.sum := by
    rw [← (ElementData.whole_spec fun q hq => hM q (hq.trans hr)).1.enodes]
    exact List.length_flatMap.symm
  have hwhole : (ElementData.whole size M).esize = (ElementData.whole r M).esize ++
      ((M r).esize ++ (List.range' (r + 1) (size - r - 1)).flatMap fun r => (M r).esize) := by
    simp only [ElementData.whole, range_eq_append hr, List.flatMap_append, List.flatMap_cons]
  rw [nodesBefore, hwhole, hlength, hnodes, List.take_length_add_append, List.sum_append,
    List.take_append_of_le_length hi]

lemma flatMap_head (hsize : 0 < size) (l : ℕ → List ℕ) :
    ((List.range size).flatMap fun r => (if r = 0 then [0] else []) ++ l r)
      = 0 :: (List.range size).flatMap l := by
  obtain ⟨n, rfl⟩ := Nat.exists_eq_add_one.mpr hsize
  rw [List.range_succ_eq_map, List.flatMap_cons, List.flatMap_cons, List.flatMap_map,
    List.flatMap_map]
  simp

/-- **`nTarget[r]` is the number of nodes of the first `_eDistribution[r]` elements.** -/
theorem nTarget_eq (hsize : 0 < size) (hM : ∀ r < size, (M r).WellFormed) :
    nTarget size M = some ((List.range (size + 1)).map fun r =>
      nodesBefore size M ((Distribution.uniform hsize (total size M)).border r)) := by
  set d := Distribution.uniform hsize (total size M) with hd
  set e := Distribution.ofSizes size fun r => (M r).esize.length with he
  have htail : EmptyAtEnd d := emptyAtEnd_uniform hsize _
  have hborders : eDistribution size M = d.borders := eDistribution_eq
  have hrank : ∀ r < size, rankTarget size M r = some ((if r = 0 then [0] else []) ++
      ((List.range' (e.border r) (M r).esize.length).filter (· + 1 ∈ d.borders)).map
        fun e => nodesBefore size M (e + 1)) := by
    intro r hr
    have hfirst : (eCurrent size M)[r]? = some (e.border r) := e.getElem?_eq hr.le
    have hoffset : (nCurrent size M)[r]?
        = some ((List.range r).map fun r => (M r).enodes.length).sum := by
      rw [← Distribution.ofSizes_border hr.le]
      exact (Distribution.ofSizes size fun r => (M r).enodes.length).getElem?_eq hr.le
    have hend := e.border_le_total (show r + 1 ≤ size from hr)
    rw [he, Distribution.ofSizes_border_succ hr, ← he] at hend
    have hfound := nTargetLoop_eq (N := nodesBefore size M) htail hend fun i hi => by
      rw [he, Distribution.ofSizes_border hr.le]
      exact nodesBefore_add hM hr hi
    rw [rankTarget, hfirst, hoffset, hborders]
    simp only [Option.bind_eq_bind, Option.bind_some, hfound]
    rfl
  rw [nTarget, Fallible.mapM_eq_some fun r hr => hrank r (List.mem_range.mp hr)]
  simp only [Option.bind_eq_bind, Option.bind_some]
  have hranges := (flatMap_range' e.border size fun r hr =>
    e.border_mono (Nat.le_add_right r 1) hr).1
  rw [e.border_zero, e.border_size, Nat.sub_zero, ← List.range_eq_range'] at hranges
  rw [← List.flatMap_def, flatMap_head hsize, ← resize_eq htail nodesBefore_zero]
  congr 2
  change _ = ((List.range ((List.range size).map fun r => (M r).esize.length).sum).filter _).map _
  rw [← hranges, List.filter_flatMap, List.map_flatMap]
  refine List.flatMap_congr fun r hr => ?_
  have hlength : e.border (r + 1) - e.border r = (M r).esize.length := by
    rw [he, Distribution.ofSizes_border_succ (List.mem_range.mp hr), Nat.add_sub_cancel_left]
  rw [hlength]

end Balance

/-- **`Input::balanceElements`** of all ranks: the six buffers are balanced, and then each rank reads
the last one of its IDs. -/
structure BalanceElements (size : ℕ) (M out : ℕ → ElementData) : Prop where
  enodes : ∃ target, nTarget size M = some target ∧ Balanced 1 size (nCurrent size M) target
    (fun r => (M r).enodes) fun r => (out r).enodes
  esize : Balanced 1 size (eCurrent size M) (eDistribution size M)
    (fun r => (M r).esize) fun r => (out r).esize
  eIDs : Balanced 1 size (eCurrent size M) (eDistribution size M)
    (fun r => (M r).eIDs) fun r => (out r).eIDs
  body : Balanced 1 size (eCurrent size M) (eDistribution size M)
    (fun r => (M r).body) fun r => (out r).body
  etype : Balanced 1 size (eCurrent size M) (eDistribution size M)
    (fun r => (M r).etype) fun r => (out r).etype
  material : Balanced 1 size (eCurrent size M) (eDistribution size M)
    (fun r => (M r).material) fun r => (out r).material
  back : ∀ r < size, (out r).eIDs ≠ []

/-- **A partition of the elements over ranks.** -/
structure Partition where
  size : ℕ
  size_pos : 0 < size
  data : ℕ → ElementData
  wellFormed : ∀ r < size, (data r).WellFormed

namespace Partition

variable (P : Partition)

abbrev total : ℕ := Input.total P.size P.data

abbrev distribution : Distribution P.size P.total := Distribution.uniform P.size_pos P.total

/-- **The mesh is preserved**: there are the same elements in the same order, each rank has as many
nodes as the sizes of its elements say, and `nTarget` is the number of nodes in front of its elements. -/
def Preserved : Prop :=
  ∃ out, BalanceElements P.size P.data out ∧
    (∀ r < P.size, (out r).WellFormed) ∧
    ((List.range P.size).flatMap fun r => (out r).elements)
      = ((List.range P.size).flatMap fun r => (P.data r).elements) ∧
    nTarget P.size P.data = some ((eDistribution P.size P.data).map (nodesBefore P.size P.data))

abbrev whole : ElementData := ElementData.whole P.size P.data

lemma wellFormed_whole : P.whole.WellFormed := (ElementData.whole_spec P.wellFormed).1

lemma nodesBefore_total : nodesBefore P.size P.data P.total
    = ((List.range P.size).map fun r => (P.data r).enodes.length).sum := by
  have hnodes : ((List.range P.size).map fun r => (P.data r).enodes.length).sum
      = P.whole.enodes.length := List.length_flatMap.symm
  rw [hnodes, P.wellFormed_whole.enodes, nodesBefore, total, ← length_whole, List.take_length]

def nodeDistribution :
    Distribution P.size ((List.range P.size).map fun r => (P.data r).enodes.length).sum :=
  (P.distribution.map (nodesBefore P.size P.data) nodesBefore_mono nodesBefore_zero).cast
    P.nodesBefore_total

lemma nodeDistribution_border {r : ℕ} (hr : r ≤ P.size) : P.nodeDistribution.border r
    = nodesBefore P.size P.data (P.distribution.border r) := by
  rw [nodeDistribution, Distribution.cast_border, Distribution.map_border hr]

def balanced (r : ℕ) : ElementData :=
  let part {T : Type} (l : List T) : List T :=
    window l (P.distribution.border r) (P.distribution.border (r + 1))
  ⟨part P.whole.eIDs, part P.whole.esize,
    window P.whole.enodes (P.nodeDistribution.border r) (P.nodeDistribution.border (r + 1)),
    part P.whole.etype, part P.whole.body, part P.whole.material⟩

lemma sum_window {l : List ℕ} {a b : ℕ} (h : a ≤ b) :
    (window l a b).sum = (l.take b).sum - (l.take a).sum := by
  obtain ⟨n, rfl⟩ := Nat.exists_eq_add_of_le h
  rw [List.take_add, List.sum_append, Nat.add_sub_cancel_left, window, Nat.add_sub_cancel_left]

lemma wellFormed_balanced {r : ℕ} (hr : r < P.size) : (P.balanced r).WellFormed := by
  have hwhole := P.wellFormed_whole
  have hmono := P.distribution.border_mono (Nat.le_add_right r 1) hr
  have hend : P.distribution.border (r + 1) ≤ P.whole.esize.length := by
    rw [length_whole]
    exact P.distribution.border_le_total hr
  have hnodes : P.nodeDistribution.border (r + 1) ≤ P.whole.enodes.length := by
    refine (P.nodeDistribution.border_le_total hr).trans_eq ?_
    exact List.length_flatMap.symm
  constructor
  · simp only [balanced]
    rw [length_window _ (hwhole.eIDs ▸ hend), length_window _ hend]
  · simp only [balanced]
    rw [length_window _ hnodes, sum_window hmono, P.nodeDistribution_border hr,
      P.nodeDistribution_border hr.le]
    rfl
  · simp only [balanced]
    rw [length_window _ (hwhole.etype ▸ hend), length_window _ hend]
  · simp only [balanced]
    rw [length_window _ (hwhole.body ▸ hend), length_window _ hend]
  · simp only [balanced]
    rw [length_window _ (hwhole.material ▸ hend), length_window _ hend]

lemma flatMap_all {T : Type} {size n : ℕ} (d : Distribution size n) {l : List T}
    (h : l.length = n) :
    ((List.range size).flatMap fun r => window l (d.border r) (d.border (r + 1))) = l := by
  rw [flatMap_window d l size le_rfl, d.border_size, ← h]
  simp [window]

lemma elements_balanced : ((List.range P.size).flatMap fun r => (P.balanced r).elements)
    = (List.range P.size).flatMap fun r => (P.data r).elements := by
  have hwhole := P.wellFormed_whole
  have hlength : P.whole.esize.length = P.total := length_whole
  have hnodes : P.whole.enodes.length
      = ((List.range P.size).map fun r => (P.data r).enodes.length).sum := List.length_flatMap
  have hall : ElementData.whole P.size P.balanced = P.whole := by
    apply ElementData.ext
    · exact flatMap_all P.distribution (hwhole.eIDs.trans hlength)
    · exact flatMap_all P.distribution hlength
    · exact flatMap_all P.nodeDistribution hnodes
    · exact flatMap_all P.distribution (hwhole.etype.trans hlength)
    · exact flatMap_all P.distribution (hwhole.body.trans hlength)
    · exact flatMap_all P.distribution (hwhole.material.trans hlength)
  rw [← (ElementData.whole_spec P.wellFormed).2,
    ← (ElementData.whole_spec fun r hr => P.wellFormed_balanced hr).2, hall]

lemma nTarget_eq : nTarget P.size P.data = some P.nodeDistribution.borders :=
  Input.nTarget_eq P.size_pos P.wellFormed

lemma nTarget_eq_map : nTarget P.size P.data
    = some ((eDistribution P.size P.data).map (nodesBefore P.size P.data)) := by
  have hborders : eDistribution P.size P.data
      = (List.range (P.size + 1)).map P.distribution.border := by
    refine List.ext_getElem? fun i => ?_
    have hd : eDistribution P.size P.data = P.distribution.borders := eDistribution_eq
    rcases Nat.lt_or_ge i (P.size + 1) with hlt | hge
    · rw [hd, P.distribution.getElem?_eq (Nat.le_of_lt_succ hlt), List.getElem?_map,
        List.getElem?_range hlt, Option.map_some]
    · rw [hd, List.getElem?_eq_none (by rw [P.distribution.length_eq]; exact hge),
        List.getElem?_eq_none (by simpa using hge)]
  rw [Input.nTarget_eq P.size_pos P.wellFormed, hborders, List.map_map]
  rfl

/-! ## The whole function -/

lemma balanced_elements {T : Type} [Inhabited T] {buffer : ℕ → List T}
    (hlength : ∀ r < P.size, (buffer r).length = (P.data r).esize.length)
    (hlimit : ∀ r < P.size, (P.data r).esize.length ≤ limit) :
    Balanced 1 P.size (eCurrent P.size P.data) (eDistribution P.size P.data) buffer fun r =>
      window ((List.range P.size).flatMap buffer) (P.distribution.border r)
        (P.distribution.border (r + 1)) := by
  rw [eDistribution_eq]
  refine balanced_window (Distribution.ofSizes P.size fun r => (P.data r).esize.length)
    P.distribution 1 (fun r hr => ?_) fun r hr => ?_
  · rw [hlength r hr, Distribution.ofSizes_border_succ hr, Nat.add_sub_cancel_left]
  · rw [hlength r hr, Nat.one_mul]
    exact hlimit r hr

lemma balanced_nodes (hlimit : ∀ r < P.size, (P.data r).enodes.length ≤ limit) :
    Balanced 1 P.size (nCurrent P.size P.data) P.nodeDistribution.borders
      (fun r => (P.data r).enodes) fun r => (P.balanced r).enodes := by
  refine balanced_window (Distribution.ofSizes P.size fun r => (P.data r).enodes.length)
    P.nodeDistribution 1 (fun r hr => ?_) fun r hr => ?_
  · rw [Distribution.ofSizes_border_succ hr, Nat.add_sub_cancel_left]
  · rw [Nat.one_mul]
    exact hlimit r hr

lemma last_pos_iff : (P.size - 1) * ((P.total + P.size - 1) / P.size) < P.total ↔
    P.distribution.border (P.size - 1) < P.distribution.border P.size :=
  uniform_last_pos_iff P.size_pos P.total

lemma border_lt (h : P.distribution.border (P.size - 1) < P.distribution.border P.size) {r : ℕ}
    (hr : r < P.size) : P.distribution.border r < P.distribution.border (r + 1) :=
  uniform_border_lt h hr

lemma border_lt_of_preserved (h : P.Preserved) :
    P.distribution.border (P.size - 1) < P.distribution.border P.size := by
  obtain ⟨out, hout, -⟩ := h
  have hlast : P.size - 1 < P.size := Nat.sub_lt P.size_pos Nat.one_pos
  have hIDs := hout.eIDs
  rw [eDistribution_eq] at hIDs
  have heq := hIDs.eq_window (Distribution.ofSizes P.size fun r => (P.data r).esize.length)
    P.distribution (fun r hr => by
      rw [(P.wellFormed r hr).eIDs, Distribution.ofSizes_border_succ hr,
        Nat.add_sub_cancel_left]) hlast
  by_contra hempty
  refine hout.back _ hlast ?_
  rw [heq, Nat.sub_add_cancel P.size_pos, window,
    show P.distribution.border P.size - P.distribution.border (P.size - 1) = 0 by omega,
    List.take_zero]

/-- **The mesh is preserved** if and only if all buffers fit into a message, and the last rank gets an
element. -/
theorem preserved_iff : P.Preserved ↔
    (∀ r < P.size, (P.data r).esize.length ≤ limit ∧ (P.data r).enodes.length ≤ limit) ∧
      (P.size - 1) * ((P.total + P.size - 1) / P.size) < P.total := by
  rw [last_pos_iff]
  have hwell := P.wellFormed
  constructor
  · intro h
    obtain ⟨out, hout, -⟩ := id h
    obtain ⟨target, -, hnodes⟩ := hout.enodes
    refine ⟨fun r hr => ⟨?_, ?_⟩, P.border_lt_of_preserved h⟩
    · simpa using hout.esize.fits hr
    · simpa using hnodes.fits hr
  · rintro ⟨hlimit, hpos⟩
    have hsizes := fun r hr => (hlimit r hr).1
    refine ⟨P.balanced, ⟨⟨_, P.nTarget_eq, P.balanced_nodes fun r hr => (hlimit r hr).2⟩,
      P.balanced_elements (fun _ _ => rfl) hsizes,
      P.balanced_elements (fun r hr => (hwell r hr).eIDs) hsizes,
      P.balanced_elements (fun r hr => (hwell r hr).body) hsizes,
      P.balanced_elements (fun r hr => (hwell r hr).etype) hsizes,
      P.balanced_elements (fun r hr => (hwell r hr).material) hsizes, ?_⟩,
      fun r hr => P.wellFormed_balanced hr, P.elements_balanced, P.nTarget_eq_map⟩
    intro r hr hempty
    have hlt := P.border_lt hpos hr
    have hlength : (P.balanced r).eIDs.length = 0 := by rw [hempty, List.length_nil]
    have hend : P.distribution.border (r + 1) ≤ P.whole.eIDs.length := by
      rw [P.wellFormed_whole.eIDs, length_whole]
      exact P.distribution.border_le_total hr
    simp only [balanced] at hlength
    rw [length_window _ hend] at hlength
    omega

def fiveData : ℕ → ElementData
  | 0 => ⟨[0, 1], [2, 2], [0, 1, 1, 2], [0, 0], [0, 0], [0, 0]⟩
  | 1 => ⟨[2, 3, 4], [2, 2, 2], [2, 3, 3, 4, 4, 5], [0, 0, 0], [0, 0, 0], [0, 0, 0]⟩
  | _ => ⟨[], [], [], [], [], []⟩

lemma five_wellFormed (r : ℕ) (_ : r < 4) : (fiveData r).WellFormed :=
  match r with
  | 0 | 1 | _ + 2 => ⟨rfl, rfl, rfl, rfl, rfl⟩

def fivePartition : Partition := ⟨4, Nat.succ_pos 3, fiveData, five_wellFormed⟩

/-- Two elements for each of the first ranks leave none for the last one. -/
theorem five_not_preserved : ¬fivePartition.Preserved := by
  intro h
  exact absurd (fivePartition.border_lt_of_preserved h) (by decide)

end Partition

end Input

end Espreso
