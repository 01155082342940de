import Espreso.Basis.Distribution
import Espreso.Lib.Fallible
import Espreso.Lib.Reorder

/-!
# Permutations of the arrays of entities

All arrays of a kind of entities are reordered by one permutation.  Arrays with more values for an
entity are reordered by blocks.

* `permute` — `Esutils::permute`; `permute_eq` for single values, and **`permute_rows`** for
  blocks of the same size.
* `blocks` — the permutation of the values for blocks of different sizes; **`permute_blocks`**.
-/

namespace Espreso

open Reorder

variable {T : Type}

/-- **`Esutils::permute`**, where `data` consists of blocks of `elementsize` values. A read behind
the end is `none`. -/
def permute [Inhabited T] (data : List T) (permutation : List ℕ) (elementsize : ℕ) :
    Option (List T) := do
  let moved ← (List.range (elementsize * (data.length / elementsize))).mapM fun k => do
    let p ← permutation[k / elementsize]?
    data[elementsize * p + k % elementsize]?
  pure (moved ++ List.replicate (data.length - moved.length) default)

/-- **Blocks of the same size** are moved as a whole. -/
theorem permute_rows [Inhabited T] {data : List T} {permutation : List ℕ} {elementsize n : ℕ}
    (hpos : 0 < elementsize) (hdata : data.length = elementsize * n)
    (hperm : permutation.Perm (List.range n)) :
    ∃ out, permute data permutation elementsize = some out ∧ out.length = elementsize * n ∧
      ∀ i p, permutation[i]? = some p → ∀ e < elementsize,
        out[elementsize * i + e]? = data[elementsize * p + e]? := by
  have hlength : permutation.length = n := by rw [hperm.length_eq, List.length_range]
  have hcount : data.length / elementsize = n := by
    rw [hdata, Nat.mul_div_cancel_left n hpos]
  have hread : ∀ k ∈ List.range (elementsize * n), ∃ x,
      ((permutation[k / elementsize]?).bind fun p => data[elementsize * p + k % elementsize]?)
        = some x := by
    intro k hk
    have hi : k / elementsize < n := Nat.div_lt_of_lt_mul (List.mem_range.mp hk)
    have hp : permutation[k / elementsize] < n := Within.of_perm hperm _ (List.getElem_mem _)
    have hlt : elementsize * permutation[k / elementsize] + k % elementsize < data.length := by
      have hmod := Nat.mod_lt k hpos
      have hle := Nat.mul_le_mul_left elementsize (Nat.succ_le_of_lt hp)
      rw [Nat.mul_succ] at hle
      omega
    refine ⟨data[elementsize * permutation[k / elementsize] + k % elementsize], ?_⟩
    rw [List.getElem?_eq_getElem (hlength.symm ▸ hi), Option.bind_some,
      List.getElem?_eq_getElem hlt]
  obtain ⟨moved, hmoved⟩ := Fallible.exists_mapM hread
  have heq := Fallible.mapM_eq_some_iff.mp hmoved
  have hmlength : moved.length = elementsize * n := by
    have h := congrArg List.length heq
    simpa using h.symm
  refine ⟨moved, ?_, hmlength, ?_⟩
  · simp only [permute, hcount, Option.bind_eq_bind, Option.pure_def, hmoved, Option.bind_some]
    rw [hmlength, hdata, Nat.sub_self, List.replicate_zero, List.append_nil]
  · intro i p hp e he
    have hi : i < n := by
      rw [← hlength]
      exact (List.getElem?_eq_some_iff.mp hp).1
    have hk : elementsize * i + e < elementsize * n := by
      have hle := Nat.mul_le_mul_left elementsize (Nat.succ_le_of_lt hi)
      rw [Nat.mul_succ] at hle
      omega
    have hentry := congrArg (·[elementsize * i + e]?) heq
    simp only [List.getElem?_map, List.getElem?_range hk, Option.map_some] at hentry
    rw [Nat.mul_add_div hpos, Nat.div_eq_of_lt he, Nat.add_zero, hp, Option.bind_some,
      Nat.mul_add_mod, Nat.mod_eq_of_lt he] at hentry
    have hlt : elementsize * i + e < moved.length := by rwa [hmlength]
    rw [List.getElem?_eq_getElem hlt] at hentry ⊢
    exact (Option.some.inj hentry).symm

/-- **Single values** are gathered. -/
theorem permute_eq [Inhabited T] {data : List T} {permutation : List ℕ}
    (hperm : permutation.Perm (List.range data.length)) :
    permute data permutation 1 = some (gather permutation data) := by
  obtain ⟨out, hout, hlength, hentry⟩ := permute_rows Nat.one_pos (Nat.one_mul _).symm hperm
  have hwithin := Within.of_perm hperm
  rw [hout]
  refine congrArg some (List.ext_getElem? fun i => ?_)
  rw [getElem?_gather hwithin]
  rcases hp : permutation[i]? with _ | p
  · have hi := List.getElem?_eq_none_iff.mp hp
    rw [hperm.length_eq, List.length_range] at hi
    rw [List.getElem?_eq_none (by omega), Option.bind_none]
  · have h := hentry i p hp 0 Nat.one_pos
    simpa using h

/-- `backpermutation`: `iota`, sorted by the entries of the permutation. -/
def backpermutation (permutation : List ℕ) : List ℕ :=
  byKey (permutation.getD · 0) permutation.length

lemma getElem?_backpermutation {permutation : List ℕ} {n i j : ℕ}
    (hperm : permutation.Perm (List.range n)) (h : permutation[j]? = some i) :
    (backpermutation permutation)[i]? = some j := by
  have hlength : permutation.length = n := by rw [hperm.length_eq, List.length_range]
  have hback : (backpermutation permutation).Perm (List.range permutation.length) :=
    positions_perm _ _
  have hrange : Reorder.gather (backpermutation permutation) permutation = List.range n :=
    ((gather_perm hback).trans hperm).eq_of_pairwise' (gather_byKey_sorted permutation)
      (List.pairwise_lt_range.imp fun h => h.le)
  have hi : i < n := List.mem_range.mp (hperm.mem_iff.mp (List.mem_of_getElem? h))
  have hget := getElem?_gather (Within.of_perm hback) i
  rw [hrange, List.getElem?_range hi] at hget
  obtain ⟨k, hk, hki⟩ := Option.bind_eq_some_iff.mp hget.symm
  have hnodup : permutation.Nodup := hperm.nodup_iff.mpr List.nodup_range
  rw [hk, (List.getElem?_inj (List.getElem?_eq_some_iff.mp hki).1 hnodup).mp (hki.trans h.symm)]

/-! ## Blocks of different sizes -/

/-- The positions in front of the blocks, and of the end: `{ 0, s₀, s₀ + s₁, ... }`. -/
def offsets (sizes : List ℕ) : List ℕ := sizes.scanl (· + ·) 0

lemma getElem?_scanl_add (sizes : List ℕ) (a i : ℕ) (hi : i ≤ sizes.length) :
    (sizes.scanl (· + ·) a)[i]? = some (a + (sizes.take i).sum) := by
  induction sizes generalizing a i with
  | nil =>
      obtain rfl : i = 0 := Nat.le_zero.mp hi
      rfl
  | cons n sizes ih =>
      rw [List.scanl_cons]
      cases i with
      | zero => rfl
      | succ i =>
          rw [List.getElem?_cons_succ, ih (a + n) i (Nat.le_of_succ_le_succ hi),
            List.take_succ_cons, List.sum_cons, Nat.add_assoc]

lemma getLast?_scanl_add (sizes : List ℕ) (a : ℕ) :
    (sizes.scanl (· + ·) a).getLast? = some (a + sizes.sum) := by
  rw [List.getLast?_eq_getElem?, List.length_scanl, Nat.add_sub_cancel,
    getElem?_scanl_add sizes a _ le_rfl, List.take_length]

lemma getElem?_offsets (sizes : List ℕ) {i : ℕ} (hi : i ≤ sizes.length) :
    (offsets sizes)[i]? = some (sizes.take i).sum := by
  rw [offsets, getElem?_scanl_add sizes 0 i hi, Nat.zero_add]

@[simp] lemma length_offsets (sizes : List ℕ) : (offsets sizes).length = sizes.length + 1 :=
  List.length_scanl

lemma offsets_concat (sizes : List ℕ) (n : ℕ) :
    offsets (sizes ++ [n]) = offsets sizes ++ [sizes.sum + n] := by
  rw [offsets, offsets, List.scanl_append, List.scanl_singleton, List.tail_cons,
    List.sum_eq_foldl]

lemma sum_sizes {size total : ℕ} (d : Distribution size total) {k : ℕ} (hk : k ≤ size) :
    ((List.range k).map fun i => d.border (i + 1) - d.border i).sum = d.border k := by
  induction k with
  | zero => rw [d.border_zero]; rfl
  | succ k ih =>
      have hmono := d.border_mono (Nat.le_add_right k 1) hk
      rw [List.range_succ, List.map_append, List.sum_append, ih (Nat.le_of_succ_le hk),
        List.map_singleton, List.sum_singleton]
      omega

lemma offsets_sizes {size total : ℕ} (d : Distribution size total) :
    offsets ((List.range size).map fun i => d.border (i + 1) - d.border i) = d.borders := by
  refine List.ext_getElem? fun i => ?_
  rcases Nat.lt_or_ge size i with hlt | hle
  · rw [List.getElem?_eq_none, List.getElem?_eq_none]
    · rw [d.length_eq]
      exact hlt
    · rw [length_offsets, List.length_map, List.length_range]
      exact hlt
  · rw [d.getElem?_eq hle, getElem?_offsets _ (by rwa [List.length_map, List.length_range]),
      ← List.map_take, List.take_range, min_eq_left hle, sum_sizes d hle]

lemma offsets_sorted (sizes : List ℕ) : (offsets sizes).Pairwise (· ≤ ·) := by
  refine List.pairwise_iff_getElem.mpr fun i j hi hj hij => ?_
  have hj' : j ≤ sizes.length := by
    rw [length_offsets] at hj
    omega
  have h₁ := getElem?_offsets sizes (hij.le.trans hj')
  have h₂ := getElem?_offsets sizes hj'
  rw [List.getElem?_eq_getElem hi] at h₁
  rw [List.getElem?_eq_getElem hj] at h₂
  rw [Option.some.inj h₁, Option.some.inj h₂]
  obtain ⟨n, rfl⟩ := Nat.exists_eq_add_of_lt hij
  rw [Nat.add_assoc, List.take_add, List.sum_append]
  exact Nat.le_add_right _ _

lemma offsets_nodup_iff {sizes : List ℕ} : (offsets sizes).Nodup ↔ ∀ n ∈ sizes, 0 < n := by
  have hget : ∀ i, ∀ hi : i < (offsets sizes).length, (offsets sizes)[i] = (sizes.take i).sum := by
    intro i hi
    have h := getElem?_offsets sizes (Nat.le_of_lt_succ (length_offsets sizes ▸ hi))
    rw [List.getElem?_eq_getElem hi] at h
    exact Option.some.inj h
  constructor
  · intro h n hn
    obtain ⟨i, hi, rfl⟩ := List.getElem_of_mem hn
    by_contra hzero
    have hlast : i + 1 < (offsets sizes).length := by rw [length_offsets]; omega
    have heq : (offsets sizes)[i] = (offsets sizes)[i + 1] := by
      rw [hget, hget, List.sum_take_succ _ _ hi]
      omega
    have := (h.getElem_inj_iff).mp heq
    omega
  · intro h
    refine List.pairwise_iff_getElem.mpr fun i j hi hj hij => ?_
    rw [hget, hget]
    obtain ⟨k, rfl⟩ := Nat.exists_eq_add_of_lt hij
    rw [length_offsets] at hj
    have hpos := h sizes[i] (List.getElem_mem (by omega))
    rw [Nat.add_right_comm, List.take_add, List.sum_append, List.sum_take_succ _ _ (by omega)]
    omega

/-- `npermutation`: the positions of the values of blocks, of `total` values in all. A write behind
the end is `none`. -/
def blocks (starts sizes : List ℕ) (total : ℕ) : Option (List ℕ) :=
  let npermutation := (starts.zip sizes).flatMap fun b => List.range' b.1 b.2
  if npermutation.length ≤ total then
    some (npermutation ++ List.replicate (total - npermutation.length) 0)
  else none

lemma gather_range' (data : List T) (a k : ℕ) (h : a + k ≤ data.length) :
    gather (List.range' a k) data = (data.drop a).take k := by
  induction k generalizing a with
  | zero => simp [gather]
  | succ k ih =>
      have ha : a < data.length := by omega
      rw [List.range'_succ, gather_cons ha, ih (a + 1) (by omega), List.drop_eq_getElem_cons ha,
        List.take_succ_cons]

lemma getElem?_splitLengths (sizes : List ℕ) (data : List T) (p : ℕ) :
    (sizes.splitLengths data)[p]?
      = (sizes[p]?).map fun k => (data.drop (sizes.take p).sum).take k := by
  induction sizes generalizing data p with
  | nil => rfl
  | cons n sizes ih =>
      rw [List.splitLengths_cons]
      cases p with
      | zero => rfl
      | succ p =>
          rw [List.getElem?_cons_succ, List.getElem?_cons_succ, ih, List.take_succ_cons,
            List.sum_cons]
          simp only [List.drop_drop]

lemma splitLengths_flatten (rows : List (List T)) :
    (rows.map List.length).splitLengths rows.flatten = rows := by
  induction rows with
  | nil => rfl
  | cons row rows ih =>
      rw [List.map_cons, List.splitLengths_cons, List.flatten_cons, List.take_left, List.drop_left, ih]

lemma gather_blocks {sizes σ : List ℕ} {data : List T} (hdata : data.length = sizes.sum)
    (h : Within σ sizes.length) :
    gather (((gather σ (offsets sizes)).zip (gather σ sizes)).flatMap fun b => List.range' b.1 b.2) data
      = (gather σ (sizes.splitLengths data)).flatten := by
  induction σ with
  | nil => rfl
  | cons p σ ih =>
      have hp := h p List.mem_cons_self
      have hpo : p < (offsets sizes).length := by rw [length_offsets]; omega
      have hpr : p < (sizes.splitLengths data).length := by rwa [List.length_splitLengths]
      have hoffset := getElem?_offsets sizes hp.le
      have hrow := getElem?_splitLengths sizes data p
      have hsum := (sizes.take_append_drop p).symm ▸ hdata
      rw [List.getElem?_eq_getElem hpo] at hoffset
      rw [List.getElem?_eq_getElem hpr, List.getElem?_eq_getElem hp, Option.map_some] at hrow
      rw [List.sum_append, List.drop_eq_getElem_cons hp, List.sum_cons] at hsum
      rw [gather_cons hpo, gather_cons hp, gather_cons hpr, List.zip_cons_cons, List.flatMap_cons,
        List.flatten_cons, ← ih fun q hq => h q (List.mem_cons_of_mem p hq)]
      rw [gather, List.filterMap_append]
      refine congrArg₂ (· ++ ·) ?_ rfl
      rw [Option.some.inj hoffset, Option.some.inj hrow]
      exact gather_range' data _ _ (by omega)

lemma blocks_perm {sizes σ : List ℕ} (hσ : σ.Perm (List.range sizes.length)) :
    (((gather σ (offsets sizes)).zip (gather σ sizes)).flatMap fun b => List.range' b.1 b.2).Perm
      (List.range sizes.sum) := by
  have hzip : ∀ {τ : List ℕ}, Within τ sizes.length →
      ((gather τ (offsets sizes)).zip (gather τ sizes)).flatMap (fun b => List.range' b.1 b.2)
        = τ.flatMap fun p => List.range' (sizes.take p).sum
            ((sizes.take (p + 1)).sum - (sizes.take p).sum) := by
    intro τ hτ
    induction τ with
    | nil => rfl
    | cons p τ ih =>
        have hp := hτ p List.mem_cons_self
        have hpo : p < (offsets sizes).length := by rw [length_offsets]; omega
        have hoffset := getElem?_offsets sizes hp.le
        rw [List.getElem?_eq_getElem hpo] at hoffset
        rw [gather_cons hpo, gather_cons hp, List.zip_cons_cons, List.flatMap_cons,
          List.flatMap_cons, ih fun q hq => hτ q (List.mem_cons_of_mem p hq),
          Option.some.inj hoffset, List.sum_take_succ sizes p hp, Nat.add_sub_cancel_left]
  have hmono : ∀ p < sizes.length, (sizes.take p).sum ≤ (sizes.take (p + 1)).sum := by
    intro p hp
    rw [List.sum_take_succ sizes p hp]
    exact Nat.le_add_right _ _
  have hrange := (flatMap_range' (fun p => (sizes.take p).sum) sizes.length hmono).1
  simp only [List.take_zero, List.sum_nil, List.take_length, Nat.sub_zero] at hrange
  rw [hzip (Within.of_perm hσ), List.range_eq_range', ← hrange]
  exact hσ.flatMap_right _

/-- **Blocks of different sizes** are moved as a whole. -/
theorem permute_blocks [Inhabited T] {sizes σ : List ℕ} {data : List T}
    (hdata : data.length = sizes.sum) (hσ : σ.Perm (List.range sizes.length)) :
    ∃ npermutation, blocks (gather σ (offsets sizes)) (gather σ sizes) data.length = some npermutation ∧
      permute data npermutation 1 = some (gather σ (sizes.splitLengths data)).flatten := by
  have hperm := blocks_perm hσ
  have hlength := hperm.length_eq
  rw [List.length_range, ← hdata] at hlength
  refine ⟨((gather σ (offsets sizes)).zip (gather σ sizes)).flatMap
    fun b => List.range' b.1 b.2, ?_, ?_⟩
  · simp only [blocks]
    rw [if_pos hlength.le, hlength, Nat.sub_self, List.replicate_zero, List.append_nil]
  · rw [← hdata] at hperm
    rw [permute_eq hperm, gather_blocks hdata (Within.of_perm hσ)]

end Espreso
