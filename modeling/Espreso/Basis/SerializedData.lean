import Espreso.Basis.Serialized

/-!
# Serialized data and their iterators

`serializededata` has two representations. Elements of different sizes have boundaries, and elements
of one size have none. The iterators at the borders of the threads are built from the boundaries or
from the size.

* `SerializedData` — the class with its constructors and assignments, `SerializedData.permute`.
* **`SerializedData.permute_permuted`** — the permuted elements, with the iterators around those of
  each thread.
* **`SerializedData.apply_same_iff`** — a moved or assigned object builds its iterators from the
  boundaries, also if there are none.
-/

namespace Espreso

open Reorder

variable {T : Type}

/-- `tarray` -/
structure TArray (T : Type) where
  data : List T
  distribution : List ℕ

namespace TArray

/-- `tarray(threads, size)` -/
def sized [Inhabited T] (threads size : ℕ) : TArray T :=
  ⟨List.replicate size default, distribute threads size⟩

/-- `tarray(data)` for the data of several threads. -/
def ofThreads (data : List (List T)) : TArray T :=
  ⟨data.flatten, offsets (data.map List.length)⟩

def threads (a : TArray T) : ℕ := a.distribution.length - 1

end TArray

/-- `iterator_base`: `_element` is a position in the boundaries, unless it is `NULL`, and `_edata`
the range between two positions in the data. -/
structure Iterator where
  element : Option ℕ
  first : ℕ
  last : ℕ
deriving DecidableEq

namespace Iterator

/-- `move`. A boundary that is read must exist. -/
def move (boundaries : List ℕ) (it : Iterator) (n : ℕ) : Option Iterator :=
  match it.element with
  | none =>
    let size := it.last - it.first
    some ⟨none, it.first + n * size, it.last + n * size⟩
  | some e => do
    let old ← boundaries[e]?
    let new ← boundaries[e + n]?
    let first := it.first + (new - old)
    if e + n ≠ boundaries.length - 1 then do
      let next ← boundaries[e + n + 1]?
      pure ⟨some (e + n), first, first + (next - new)⟩
    else pure ⟨some (e + n), first, first⟩

/-- `operator++`, several times. -/
def advance (boundaries : List ℕ) : ℕ → Iterator → Option Iterator
  | 0, it => some it
  | k + 1, it => (it.move boundaries 1).bind (advance boundaries k)

end Iterator

/-- `serializededata`. The iterators and the constant ones are the same. -/
structure SerializedData (T : Type) where
  eboundaries : TArray ℕ
  edata : TArray T
  edatasize : ℤ
  iterators : List Iterator

namespace SerializedData

/-! ## Constructors and assignments -/

/-- `inititerators()` -/
def inititerators (eboundaries : TArray ℕ) (edata : TArray T) : Option (List Iterator) := do
  let start : Iterator := ⟨if eboundaries.data.length = 0 then none else some 0, 0, 0⟩
  let start ← start.move eboundaries.data 0
  let moved ← (List.range edata.threads).mapM fun t => do
    let border ← eboundaries.distribution[t + 1]?
    start.move eboundaries.data (border - 1)
  pure (start :: moved)

/-- `inititerators(edatasize)` -/
def inititeratorsUniform (edatasize : ℕ) (edata : TArray T) : Option (List Iterator) := do
  let start : Iterator := ⟨none, 0, edatasize⟩
  let moved ← (List.range edata.threads).mapM fun t => do
    let border ← edata.distribution[t + 1]?
    start.move [] (border / edatasize)
  pure (start :: moved)

/-- `serializededata(edatasize, edata)`: data are uniform. -/
def uniform (edatasize : ℕ) (edata : TArray T) : Option (SerializedData T) :=
  (inititeratorsUniform edatasize edata).map fun iterators =>
    ⟨TArray.sized 0 0, edata, edatasize, iterators⟩

/-- `serializededata(eboundaries, edata)`: data are non-uniform. -/
def nonUniform (eboundaries : TArray ℕ) (edata : TArray T) : Option (SerializedData T) :=
  (inititerators eboundaries edata).map fun iterators => ⟨eboundaries, edata, -1, iterators⟩

/-- The members of an object with iterators from `inititerators()`. -/
def withIterators (other : SerializedData T) : Option (SerializedData T) :=
  (inititerators other.eboundaries other.edata).map fun iterators =>
    ⟨other.eboundaries, other.edata, other.edatasize, iterators⟩

/-- `serializededata(const serializededata &other)` -/
def copyConstruction (other : SerializedData T) : Option (SerializedData T) :=
  if other.edatasize ≠ -1 then
    (inititeratorsUniform other.edatasize.toNat other.edata).map fun iterators =>
      ⟨other.eboundaries, other.edata, other.edatasize, iterators⟩
  else other.withIterators

/-- `serializededata(serializededata &&other)` -/
def moveConstruction (other : SerializedData T) : Option (SerializedData T) := other.withIterators

/-- `operator=(const serializededata &other)`, where `this == &other` if `self` is set. -/
def copyAssignment (self : Bool) (other : SerializedData T) : Option (SerializedData T) :=
  if self then some other else other.withIterators

/-- `operator=(serializededata &&other)`, where `this == &other` if `self` is set. -/
def moveAssignment (self : Bool) (other : SerializedData T) : Option (SerializedData T) :=
  if self then some other else other.withIterators

/-! ## Permutations -/

/-- `pdata` of `permuteUniformData` -/
def pdataUniform (s : SerializedData T) (permutation distribution : List ℕ) : List (List T) :=
  let edatasize := s.edatasize.toNat
  (List.range s.edata.threads).map fun t =>
    (window permutation (distribution.getD t 0) (distribution.getD (t + 1) 0)).flatMap fun p =>
      window s.edata.data (edatasize * p) (edatasize * (p + 1))

/-- `permuteUniformData` -/
def permuteUniform (s : SerializedData T) (permutation distribution : List ℕ) :
    Option (SerializedData T) :=
  let edata := TArray.ofThreads (s.pdataUniform permutation distribution)
  (inititeratorsUniform s.edatasize.toNat edata).map fun iterators =>
    { s with edata := edata, iterators := iterators }

/-- `distribution` of `permuteNonUniformData`, which counts the leading boundary. -/
def overBoundaries (s : SerializedData T) (provided : List ℕ) : List ℕ :=
  if provided.getLastD 0 < s.eboundaries.distribution.getLastD 0 then
    provided.mapIdx fun t border => if t = 0 then border else border + 1
  else provided

/-- The positions `e - 1` in the permutation that begin at thread `t`. -/
def positionOf (distribution : List ℕ) (t : ℕ) : ℕ :=
  if t = 0 then 0 else distribution.getD t 0 - 1

/-- `permuteNonUniformData` -/
def permuteNonUniform (s : SerializedData T) (permutation provided : List ℕ) :
    Option (SerializedData T) :=
  let rows : Serialized T := ⟨s.eboundaries.data, s.edata.data⟩
  let border := positionOf (s.overBoundaries provided)
  let pboundaries := (List.range s.edata.threads).map fun t =>
    (rows.pboundaries permutation border t).map
      (· + ((List.range t).map (rows.offset permutation border)).sum)
  let pdata := (List.range s.edata.threads).map fun t => (rows.taken permutation border t).flatten
  let eboundaries := TArray.ofThreads pboundaries
  let edata := TArray.ofThreads pdata
  (inititerators eboundaries edata).map fun iterators =>
    { s with eboundaries := eboundaries, edata := edata, iterators := iterators }

/-- **`serializededata::permute`** -/
def permute (s : SerializedData T) (permutation distribution : List ℕ) :
    Option (SerializedData T) :=
  if s.eboundaries.data.length ≠ 0 then s.permuteNonUniform permutation distribution
  else s.permuteUniform permutation distribution

/-! ## Elements -/

def structures (s : SerializedData T) : ℕ :=
  if s.eboundaries.data.length ≠ 0 then s.eboundaries.data.length - 1
  else s.edata.data.length / s.edatasize.toNat

/-- The data of element `i`. -/
def element (s : SerializedData T) (i : ℕ) : List T :=
  if s.eboundaries.data.length ≠ 0 then (⟨s.eboundaries.data, s.edata.data⟩ : Serialized T).row i
  else window s.edata.data (s.edatasize.toNat * i) (s.edatasize.toNat * (i + 1))

/-- What a loop from an iterator to another one sees, if it ends within `fuel` steps. The iterators
are compared by their positions in the data. -/
def visit (s : SerializedData T) : ℕ → Iterator → Iterator → Option (List (List T))
  | 0, _, _ => none
  | fuel + 1, it, stop =>
    if it.first ≠ stop.first then do
      let next ← it.move s.eboundaries.data 1
      let rest ← s.visit fuel next stop
      pure (window s.edata.data it.first it.last :: rest)
    else some []

/-- What is seen from `begin()` to `end()`. -/
def seen (s : SerializedData T) (fuel : ℕ) : Option (List (List T)) := do
  s.visit fuel (← s.iterators.head?) (← s.iterators.getLast?)

/-- What is seen from `begin(thread)` to `end(thread)`. -/
def threadSeen (s : SerializedData T) (thread fuel : ℕ) : Option (List (List T)) := do
  s.visit fuel (← s.iterators[thread]?) (← s.iterators[thread + 1]?)

/-! ## Iterators around elements -/

/-- **The iterators enclose** the elements from `a` to `b`: the first one visits them, and arrives
at the other one. -/
def Encloses (s : SerializedData T) (start stop : Iterator) (a b : ℕ) : Prop :=
  ∀ k, a + k ≤ b → ∃ it, start.advance s.eboundaries.data k = some it ∧
    if a + k < b then window s.edata.data it.first it.last = s.element (a + k) else it = stop

lemma encloses_of_move {s : SerializedData T} {n a b : ℕ} {place : ℕ → Iterator}
    (hmove : ∀ e < n, (place e).move s.eboundaries.data 1 = some (place (e + 1)))
    (hdata : ∀ e < n, window s.edata.data (place e).first (place e).last = s.element e)
    (hb : b ≤ n) : Encloses s (place a) (place b) a b := by
  have hadvance : ∀ k e, e + k ≤ n →
      (place e).advance s.eboundaries.data k = some (place (e + k)) := by
    intro k
    induction k with
    | zero => exact fun e _ => rfl
    | succ k ih =>
        intro e he
        rw [Iterator.advance, hmove e (by omega), Option.bind_some, ih (e + 1) (by omega),
          Nat.add_right_comm, Nat.add_assoc]
  intro k hk
  refine ⟨place (a + k), hadvance k a (hk.trans hb), ?_⟩
  split_ifs with hlt
  · exact hdata (a + k) (hlt.trans_le hb)
  · rw [Nat.le_antisymm hk (Nat.le_of_not_lt hlt)]

/-- The iterator at element `e` of `size` data. -/
def placeUniform (size e : ℕ) : Iterator := ⟨none, size * e, size * (e + 1)⟩

lemma move_placeUniform (boundaries : List ℕ) (size e n : ℕ) :
    (placeUniform size e).move boundaries n = some (placeUniform size (e + n)) := by
  have hsize : size * (e + 1) - size * e = size := by
    rw [Nat.mul_succ, Nat.add_sub_cancel_left]
  rw [Iterator.move, placeUniform]
  dsimp only
  rw [hsize, placeUniform, Nat.mul_comm n, ← Nat.mul_add, ← Nat.mul_add, Nat.add_right_comm]

/-- The iterator at element `e` of those with given sizes. -/
def place (sizes : List ℕ) (e : ℕ) : Iterator :=
  ⟨some e, (sizes.take e).sum,
    if e = sizes.length then (sizes.take e).sum else (sizes.take (e + 1)).sum⟩

lemma sum_take_le (sizes : List ℕ) (a k : ℕ) : (sizes.take a).sum ≤ (sizes.take (a + k)).sum := by
  rw [List.take_add, List.sum_append]
  exact Nat.le_add_right _ _

lemma move_place {sizes : List ℕ} {e n last : ℕ} (hn : e + n ≤ sizes.length) :
    Iterator.move (offsets sizes) ⟨some e, (sizes.take e).sum, last⟩ n
      = some (place sizes (e + n)) := by
  have hmono := sum_take_le sizes e n
  rw [Iterator.move]
  dsimp only
  rw [getElem?_offsets _ ((Nat.le_add_right e n).trans hn), getElem?_offsets _ hn, length_offsets,
    Nat.add_sub_cancel, place, Option.bind_eq_bind, Option.bind_some, Option.bind_some,
    Nat.add_sub_cancel' hmono]
  by_cases heq : e + n = sizes.length
  · rw [if_neg (not_not.mpr heq), if_pos heq]
    rfl
  · have hlt : e + n + 1 ≤ sizes.length := Nat.lt_of_le_of_ne hn heq
    have hnext : (sizes.take (e + n)).sum ≤ (sizes.take (e + n + 1)).sum :=
      sum_take_le sizes (e + n) 1
    rw [if_pos heq, if_neg heq, getElem?_offsets _ hlt, Option.bind_some,
      Nat.add_sub_cancel' hnext]
    rfl

/-- **`inititerators()`** for given elements: the iterators are at the first elements of the
threads. -/
lemma inititerators_eq {eboundaries : TArray ℕ} {edata : TArray T} {sizes : List ℕ}
    {threads n : ℕ} (d : Distribution threads n) (hthreads : edata.threads = threads)
    (hsizes : sizes.length = n) (hdata : eboundaries.data = offsets sizes)
    (hdistribution : ∀ t < threads,
      eboundaries.distribution[t + 1]? = some (d.border (t + 1) + 1)) :
    inititerators eboundaries edata
      = some ((List.range (threads + 1)).map fun t => place sizes (d.border t)) := by
  subst hthreads
  have hne : ¬(offsets sizes).length = 0 := by rw [length_offsets]; omega
  have hstart : Iterator.move (offsets sizes) ⟨some 0, 0, 0⟩ 0 = some (place sizes 0) :=
    move_place (Nat.zero_le _)
  have hmoved : (List.range edata.threads).mapM (fun t => do
      let border ← eboundaries.distribution[t + 1]?
      (place sizes 0).move (offsets sizes) (border - 1))
        = some ((List.range edata.threads).map fun t => place sizes (d.border (t + 1))) := by
    refine Fallible.mapM_eq_some fun t ht => ?_
    have ht := List.mem_range.mp ht
    have hle : 0 + d.border (t + 1) ≤ sizes.length := by
      rw [Nat.zero_add, hsizes]
      exact d.border_le_total ht
    rw [hdistribution t ht, Option.bind_eq_bind, Option.bind_some, Nat.add_sub_cancel]
    exact (move_place hle).trans (by rw [Nat.zero_add])
  rw [inititerators, hdata, if_neg hne, hstart, Option.bind_eq_bind, Option.bind_some, hmoved,
    Option.bind_eq_bind, Option.bind_some,
    List.range_succ_eq_map, List.map_cons, List.map_map, d.border_zero]
  rfl

lemma inititeratorsUniform_eq {edata : TArray T} {size threads n : ℕ} (hsize : 0 < size)
    (d : Distribution threads n) (hthreads : edata.threads = threads)
    (hdistribution : ∀ t < threads,
      edata.distribution[t + 1]? = some (size * d.border (t + 1))) :
    inititeratorsUniform size edata
      = some ((List.range (threads + 1)).map fun t => placeUniform size (d.border t)) := by
  subst hthreads
  have hstart : (⟨none, 0, size⟩ : Iterator) = placeUniform size 0 := by
    rw [placeUniform, Nat.mul_zero, Nat.zero_add, Nat.mul_one]
  have hmoved : (List.range edata.threads).mapM (fun t => do
      let border ← edata.distribution[t + 1]?
      (placeUniform size 0).move [] (border / size))
        = some ((List.range edata.threads).map fun t => placeUniform size (d.border (t + 1))) := by
    refine Fallible.mapM_eq_some fun t ht => ?_
    rw [hdistribution t (List.mem_range.mp ht), Option.bind_eq_bind, Option.bind_some,
      Nat.mul_div_cancel_left _ hsize, move_placeUniform, Nat.zero_add]
  rw [inititeratorsUniform, hstart, hmoved, Option.bind_eq_bind, Option.bind_some,
    List.range_succ_eq_map, List.map_cons,
    List.map_map, d.border_zero]
  rfl

/-! ## Permuted elements -/

/-- Objects with `n` elements. Boundaries begin with `0`, do not decrease, and end at the size of
the data. -/
structure WellFormed (s : SerializedData T) (n : ℕ) : Prop where
  uniform : s.eboundaries.data = [] →
    0 < s.edatasize ∧ s.edata.data.length = s.edatasize.toNat * n
  nonUniform : s.eboundaries.data ≠ [] →
    s.eboundaries.data[0]? = some 0 ∧ s.eboundaries.data.Pairwise (· ≤ ·) ∧
      s.eboundaries.data.getLast? = some s.edata.data.length ∧
      s.eboundaries.data.length = n + 1 ∧ s.eboundaries.distribution.getLastD 0 = n + 1

/-- A distribution of the elements, which is given over them or over their boundaries. -/
def Given (s : SerializedData T) {threads n : ℕ} (d : Distribution threads n)
    (distribution : List ℕ) : Prop :=
  distribution = d.borders ∨ s.eboundaries.data ≠ [] ∧
    distribution = d.borders.mapIdx fun t border => if t = 0 then border else border + 1

/-- **The object is permuted**: it has the elements at the positions of the permutation, with the
same representation, and its iterators enclose the elements of the threads. -/
structure Permuted (s out : SerializedData T) (permutation : List ℕ) {n : ℕ}
    (d : Distribution s.edata.threads n) : Prop where
  wellFormed : out.WellFormed n
  uniform_iff : out.eboundaries.data = [] ↔ s.eboundaries.data = []
  structures_eq : out.structures = n
  element_eq : ∀ i p : ℕ, permutation[i]? = some p → out.element i = s.element p
  encloses : ∀ t < s.edata.threads, ∃ start stop, out.iterators[t]? = some start ∧
    out.iterators[t + 1]? = some stop ∧ out.Encloses start stop (d.border t) (d.border (t + 1))

section Permute

variable {s : SerializedData T} {n : ℕ} (d : Distribution s.edata.threads n)

lemma encloses_of_iterators {out : SerializedData T} {at' : ℕ → Iterator}
    (hiterators : out.iterators
      = (List.range (s.edata.threads + 1)).map fun t => at' (d.border t))
    (hmove : ∀ e < n, (at' e).move out.eboundaries.data 1 = some (at' (e + 1)))
    (hdata : ∀ e < n, window out.edata.data (at' e).first (at' e).last = out.element e) :
    ∀ t < s.edata.threads, ∃ start stop, out.iterators[t]? = some start ∧
      out.iterators[t + 1]? = some stop ∧
      out.Encloses start stop (d.border t) (d.border (t + 1)) := by
  intro t ht
  refine ⟨at' (d.border t), at' (d.border (t + 1)), ?_, ?_,
    encloses_of_move hmove hdata (d.border_le_total ht)⟩
  · rw [hiterators, List.getElem?_map, List.getElem?_range (Nat.lt_succ_of_lt ht), Option.map_some]
  · rw [hiterators, List.getElem?_map, List.getElem?_range (Nat.succ_lt_succ ht), Option.map_some]

lemma rows_uniform {data : List T} {size : ℕ} (hdata : data.length = size * n) :
    ∃ rows : List (List T), rows.length = n ∧ rows.flatten = data ∧
      (∀ row ∈ rows, row.length = size) ∧
      ∀ p < n, rows[p]? = some (window data (size * p) (size * (p + 1))) := by
  have hall := flatMap_window_mul data 0 size n
  simp only [Nat.zero_add] at hall
  refine ⟨(List.range n).map fun p => window data (size * p) (size * (p + 1)), ?_, ?_, ?_, ?_⟩
  · rw [List.length_map, List.length_range]
  · rw [← List.flatMap_def]
    simp only [Nat.mul_comm size]
    rw [hall, Nat.mul_comm, ← hdata, window, List.drop_zero, Nat.sub_zero, List.take_length]
  · intro row hrow
    obtain ⟨p, hp, rfl⟩ := List.mem_map.mp hrow
    have hle := Nat.mul_le_mul_left size (Nat.succ_le_of_lt (List.mem_range.mp hp))
    rw [length_window _ (hdata ▸ hle), Nat.mul_succ, Nat.add_sub_cancel_left]
  · intro p hp
    rw [List.getElem?_map, List.getElem?_range hp, Option.map_some]

lemma ofThreads_pdataUniform {permutation : List ℕ} {rows : List (List T)}
    (hrows : rows.flatten = s.edata.data)
    (hsize : ∀ row ∈ rows, row.length = s.edatasize.toNat) (hlength : rows.length = n)
    (hperm : permutation.Perm (List.range n)) :
    (TArray.ofThreads (s.pdataUniform permutation d.borders)).data
        = (gather permutation rows).flatten ∧
      (TArray.ofThreads (s.pdataUniform permutation d.borders)).threads = s.edata.threads ∧
      ∀ t < s.edata.threads,
        (TArray.ofThreads (s.pdataUniform permutation d.borders)).distribution[t + 1]?
          = some (s.edatasize.toNat * d.border (t + 1)) := by
  have hpermlength : permutation.length = n := by rw [hperm.length_eq, List.length_range]
  have hwithin : Within permutation rows.length := by
    rw [hlength]
    exact Within.of_perm hperm
  have hpdata : s.pdataUniform permutation d.borders = (List.range s.edata.threads).map fun t =>
      (window permutation (d.border t) (d.border (t + 1))).flatMap fun p =>
        window rows.flatten (s.edatasize.toNat * p) (s.edatasize.toNat * (p + 1)) := by
    rw [pdataUniform, hrows]
    refine List.map_congr_left fun t ht => ?_
    have ht := List.mem_range.mp ht
    rw [List.getD_eq_getElem?_getD, List.getD_eq_getElem?_getD, d.getElem?_eq ht.le,
      d.getElem?_eq ht, Option.getD_some, Option.getD_some]
  have hlengths : (s.pdataUniform permutation d.borders).map List.length
      = (List.range s.edata.threads).map fun t =>
        s.edatasize.toNat * (d.border (t + 1) - d.border t) := by
    rw [hpdata, List.map_map]
    refine List.map_congr_left fun t ht => ?_
    have hborder : d.border (t + 1) ≤ permutation.length := by
      rw [hpermlength]
      exact d.border_le_total (List.mem_range.mp ht)
    have hconstant : ((window permutation (d.border t) (d.border (t + 1))).map fun p =>
        (window rows.flatten (s.edatasize.toNat * p) (s.edatasize.toNat * (p + 1))).length)
        = List.replicate (d.border (t + 1) - d.border t) s.edatasize.toNat := by
      refine List.eq_replicate_iff.mpr ⟨?_, fun size hmem => ?_⟩
      · rw [List.length_map, length_window _ hborder]
      · obtain ⟨p, hp, rfl⟩ := List.mem_map.mp hmem
        have hlt := hwithin p (List.mem_of_mem_drop (List.mem_of_mem_take hp))
        rw [Serialized.window_flatten hsize hlt]
        exact hsize _ (List.getElem_mem hlt)
    rw [Function.comp_apply, List.length_flatMap, hconstant, List.sum_replicate, smul_eq_mul,
      Nat.mul_comm]
  refine ⟨?_, ?_, fun t ht => ?_⟩
  · rw [TArray.ofThreads, hpdata, ← List.flatMap_def]
    exact permuteUniformData_rows d hpermlength hwithin hsize
  · rw [TArray.threads, TArray.ofThreads, length_offsets, hlengths, List.length_map,
      List.length_range, Nat.add_sub_cancel]
  · rw [TArray.ofThreads]
    dsimp only
    rw [hlengths, getElem?_offsets _ (by simpa using ht), ← List.map_take, List.take_range,
      Nat.min_eq_left ht, List.sum_map_mul_left, sum_sizes d ht]

lemma permuteUniform_permuted (h : s.WellFormed n) (hnil : s.eboundaries.data = [])
    {permutation : List ℕ} (hperm : permutation.Perm (List.range n)) :
    ∃ out, s.permuteUniform permutation d.borders = some out ∧ Permuted s out permutation d := by
  obtain ⟨hpos, hdata⟩ := h.uniform hnil
  have hsizepos : 0 < s.edatasize.toNat := by omega
  obtain ⟨rows, hlength, hrows, hsize, hread⟩ := rows_uniform hdata
  obtain ⟨hout, hthreads, hdistribution⟩ := ofThreads_pdataUniform d hrows hsize hlength hperm
  have hiterators := inititeratorsUniform_eq hsizepos d hthreads hdistribution
  have hwithin : Within permutation rows.length := by
    rw [hlength]
    exact Within.of_perm hperm
  have hgather : ∀ row ∈ gather permutation rows, row.length = s.edatasize.toNat := by
    intro row hrow
    obtain ⟨p, -, hp⟩ := mem_gather.mp hrow
    exact hsize row (List.mem_of_getElem? hp)
  have houtlength : (gather permutation rows).flatten.length = s.edatasize.toNat * n := by
    rw [← hlength] at hperm
    rw [(gather_perm hperm).flatten.length_eq, hrows, hdata]
  refine ⟨_, congrArg (Option.map _) hiterators, ?_⟩
  have helement : ∀ e, element ({ s with
      edata := TArray.ofThreads (s.pdataUniform permutation d.borders)
      iterators := (List.range (s.edata.threads + 1)).map fun t =>
        placeUniform s.edatasize.toNat (d.border t) }) e
      = window (gather permutation rows).flatten (s.edatasize.toNat * e)
        (s.edatasize.toNat * (e + 1)) := by
    intro e
    rw [element, if_neg (not_not.mpr (List.length_eq_zero_iff.mpr hnil)), hout]
  constructor
  · refine ⟨fun _ => ⟨hpos, ?_⟩, fun hne => absurd hnil hne⟩
    rw [hout, houtlength]
  · exact Iff.rfl
  · rw [structures, if_neg (not_not.mpr (List.length_eq_zero_iff.mpr hnil)), hout, houtlength,
      Nat.mul_div_cancel_left n hsizepos]
  · intro i p hp
    have hlt : p < rows.length := hwithin p (List.mem_of_getElem? hp)
    have hi : i < (gather permutation rows).length := by
      rw [length_gather hwithin]
      exact (List.getElem?_eq_some_iff.mp hp).1
    have hrow := getElem?_gather hwithin i
    rw [hp, Option.bind_some, hread p (hlength ▸ hlt), List.getElem?_eq_getElem hi,
      Option.some.injEq] at hrow
    rw [helement, Serialized.window_flatten hgather hi, hrow, element,
      if_neg (not_not.mpr (List.length_eq_zero_iff.mpr hnil))]
  · refine encloses_of_iterators d rfl (fun e _ => move_placeUniform _ _ e 1) fun e _ => ?_
    rw [helement, hout]
    rfl

lemma getLastD_borders : d.borders.getLastD 0 = n := by
  rw [List.getLastD_eq_getLast?, List.getLast?_eq_getElem?, d.length_eq, Nat.add_sub_cancel, d.last,
    Option.getD_some]

lemma positionOf_given (h : s.WellFormed n) (hne : s.eboundaries.data ≠ [])
    (hthreads : 0 < s.edata.threads) {distribution : List ℕ} (hgiven : s.Given d distribution)
    {t : ℕ} (ht : t ≤ s.edata.threads) :
    positionOf (s.overBoundaries distribution) t = d.border t := by
  obtain ⟨-, -, -, -, hback⟩ := h.nonUniform hne
  have hover : s.overBoundaries distribution
      = d.borders.mapIdx fun t border => if t = 0 then border else border + 1 := by
    rcases hgiven with rfl | ⟨-, rfl⟩
    · rw [overBoundaries, getLastD_borders, hback, if_pos (Nat.lt_succ_self n)]
    · have hlast : (d.borders.mapIdx fun t border =>
          if t = 0 then border else border + 1).getLastD 0 = n + 1 := by
        rw [List.getLastD_eq_getLast?, List.getLast?_eq_getElem?, List.length_mapIdx, d.length_eq,
          Nat.add_sub_cancel, List.getElem?_mapIdx, d.last, Option.map_some, Option.getD_some,
          if_neg hthreads.ne']
      rw [overBoundaries, hlast, hback, if_neg (lt_irrefl _)]
  rw [positionOf, hover]
  split_ifs with hzero
  · rw [hzero, d.border_zero]
  · rw [List.getD_eq_getElem?_getD, List.getElem?_mapIdx, d.getElem?_eq ht, Option.map_some,
      Option.getD_some, if_neg hzero, Nat.add_sub_cancel]

lemma sum_ends {threads k : ℕ} (d : Distribution threads n) (hk : k < threads) :
    ((List.range (k + 1)).map fun t =>
      d.border (t + 1) - d.border t + if t = 0 then 1 else 0).sum = d.border (k + 1) + 1 := by
  induction k with
  | zero => simp
  | succ k ih =>
      have hmono := d.border_mono (Nat.le_add_right (k + 1) 1) hk
      rw [List.range_succ, List.map_append, List.sum_append, ih (Nat.lt_of_succ_lt hk),
        List.map_singleton, List.sum_singleton, if_neg (Nat.succ_ne_zero k)]
      omega

def permutedBoundaries (s : SerializedData T) (permutation : List ℕ) (border : ℕ → ℕ) :
    TArray ℕ :=
  let rows : Serialized T := ⟨s.eboundaries.data, s.edata.data⟩
  TArray.ofThreads ((List.range s.edata.threads).map fun t =>
    (rows.pboundaries permutation border t).map
      (· + ((List.range t).map (rows.offset permutation border)).sum))

def permutedData (s : SerializedData T) (permutation : List ℕ) (border : ℕ → ℕ) : TArray T :=
  let rows : Serialized T := ⟨s.eboundaries.data, s.edata.data⟩
  TArray.ofThreads ((List.range s.edata.threads).map fun t =>
    (rows.taken permutation border t).flatten)

lemma permuted_congr (permutation : List ℕ) {border border' : ℕ → ℕ}
    (h : ∀ t ≤ s.edata.threads, border t = border' t) :
    s.permutedBoundaries permutation border = s.permutedBoundaries permutation border' ∧
      s.permutedData permutation border = s.permutedData permutation border' := by
  have htaken : ∀ t < s.edata.threads, ∀ rows : Serialized T,
      rows.taken permutation border t = rows.taken permutation border' t := by
    intro t ht rows
    rw [Serialized.taken, Serialized.taken, h t ht.le, h (t + 1) ht]
  have hpboundaries : ∀ t < s.edata.threads, ∀ rows : Serialized T,
      rows.pboundaries permutation border t = rows.pboundaries permutation border' t := by
    intro t ht rows
    rw [Serialized.pboundaries, Serialized.pboundaries, htaken t ht]
  refine ⟨congrArg TArray.ofThreads (List.map_congr_left fun t ht => ?_),
    congrArg TArray.ofThreads (List.map_congr_left fun t ht => ?_)⟩
  · have ht := List.mem_range.mp ht
    have hoffsets : ∀ rows : Serialized T, (List.range t).map (rows.offset permutation border)
        = (List.range t).map (rows.offset permutation border') := by
      refine fun rows => List.map_congr_left fun t' ht' => ?_
      rw [Serialized.offset, Serialized.offset,
        hpboundaries t' ((List.mem_range.mp ht').trans ht)]
    rw [hpboundaries t ht, hoffsets]
  · rw [htaken t (List.mem_range.mp ht)]

/-- **What the threads store** are the boundaries and the data of the permuted rows. The leading
boundary belongs to the first thread. -/
lemma permuted_eq {permutation : List ℕ} (hthreads : 0 < s.edata.threads)
    (hlength : permutation.length = n) {rows : List (List T)}
    (hrows : rows = permutation.map (⟨s.eboundaries.data, s.edata.data⟩ : Serialized T).row) :
    (s.permutedBoundaries permutation d.border).data = offsets (rows.map List.length) ∧
      (s.permutedData permutation d.border).data = rows.flatten ∧
      (s.permutedData permutation d.border).threads = s.edata.threads ∧
      (s.permutedBoundaries permutation d.border).distribution.length = s.edata.threads + 1 ∧
      ∀ t < s.edata.threads, (s.permutedBoundaries permutation d.border).distribution[t + 1]?
        = some (d.border (t + 1) + 1) := by
  set S : Serialized T := ⟨s.eboundaries.data, s.edata.data⟩ with hS
  have hall := S.permuteNonUniformData_eq hthreads d hlength
  rw [← hrows, Serialized.permuteNonUniformData, Serialized.ofRows, Serialized.mk.injEq,
    List.flatMap_def, List.flatMap_def] at hall
  refine ⟨hall.1, hall.2, ?_, ?_, fun t ht => ?_⟩
  · rw [permutedData, TArray.threads, TArray.ofThreads, length_offsets, List.length_map,
      List.length_map, List.length_range, Nat.add_sub_cancel]
  · rw [permutedBoundaries, TArray.ofThreads, length_offsets, List.length_map, List.length_map,
      List.length_range]
  · have hsizes : ∀ t < s.edata.threads, ((S.pboundaries permutation d.border t).map
        (· + ((List.range t).map (S.offset permutation d.border)).sum)).length
          = d.border (t + 1) - d.border t + if t = 0 then 1 else 0 := by
      intro t ht
      rw [List.length_map, Serialized.pboundaries_eq, Serialized.ends, List.length_drop,
        length_offsets, List.length_map, Serialized.taken, List.length_map,
        length_window _ (hlength ▸ d.border_le_total ht)]
      split_ifs <;> omega
    rw [permutedBoundaries, TArray.ofThreads]
    dsimp only
    rw [← hS, List.map_map, getElem?_offsets _ (by simpa using ht), ← List.map_take,
      List.take_range, Nat.min_eq_left ht, ← sum_ends d ht]
    refine congrArg some (congrArg List.sum (List.map_congr_left fun t' ht' => ?_))
    exact hsizes t' ((List.mem_range.mp ht').trans_le ht)

lemma permuted_of_rows (hne : s.eboundaries.data ≠ []) {permutation : List ℕ}
    (hlength : permutation.length = n) {rows : List (List T)}
    (hrows : rows = permutation.map (⟨s.eboundaries.data, s.edata.data⟩ : Serialized T).row)
    {out : SerializedData T} (hboundaries : out.eboundaries.data = offsets (rows.map List.length))
    (hdata : out.edata.data = rows.flatten)
    (hlast : out.eboundaries.distribution.getLastD 0 = n + 1)
    (hiterators : out.iterators = (List.range (s.edata.threads + 1)).map fun t =>
      place (rows.map List.length) (d.border t)) :
    Permuted s out permutation d := by
  have hsizes : (rows.map List.length).length = n := by
    rw [hrows, List.length_map, List.length_map, hlength]
  have hcons : offsets (rows.map List.length) ≠ [] := by
    rw [← List.length_pos_iff, length_offsets]
    exact Nat.succ_pos _
  have helement : ∀ e, out.element e = (Serialized.ofRows rows).row e := by
    intro e
    rw [element, hboundaries, hdata, if_pos (by rwa [ne_eq, List.length_eq_zero_iff])]
    rfl
  constructor
  · refine ⟨fun hnil => absurd (hboundaries.symm.trans hnil) hcons, fun _ => ?_⟩
    rw [hboundaries, hdata, length_offsets, hsizes]
    refine ⟨getElem?_offsets _ (Nat.zero_le _), offsets_sorted _, ?_, rfl, hlast⟩
    rw [List.getLast?_eq_getElem?, length_offsets, Nat.add_sub_cancel, getElem?_offsets _ le_rfl,
      List.take_length, List.length_flatten]
  · rw [hboundaries]
    exact iff_of_false hcons hne
  · rw [structures, hboundaries, if_pos (by rwa [ne_eq, List.length_eq_zero_iff]), length_offsets,
      hsizes, Nat.add_sub_cancel]
  · intro i p hp
    have hi : i < rows.length := by
      rw [hrows, List.length_map]
      exact (List.getElem?_eq_some_iff.mp hp).1
    have hrow : rows[i]? = some ((⟨s.eboundaries.data, s.edata.data⟩ : Serialized T).row p) := by
      rw [hrows, List.getElem?_map, hp, Option.map_some]
    rw [helement, Serialized.row_ofRows hi, element,
      if_pos (by rwa [ne_eq, List.length_eq_zero_iff])]
    rw [List.getElem?_eq_getElem hi] at hrow
    exact Option.some.inj hrow
  · refine encloses_of_iterators d hiterators (fun e he => ?_) fun e he => ?_
    · rw [hboundaries]
      exact move_place (hsizes ▸ he)
    · rw [helement, hdata, Serialized.row, Serialized.ofRows,
        Serialized.getD_offsets (hsizes ▸ he.le), Serialized.getD_offsets (hsizes ▸ he), place,
        if_neg (hsizes ▸ he.ne)]

lemma permuteNonUniform_permuted (h : s.WellFormed n) (hne : s.eboundaries.data ≠ [])
    (hthreads : 0 < s.edata.threads) {permutation distribution : List ℕ}
    (hperm : permutation.Perm (List.range n)) (hgiven : s.Given d distribution) :
    ∃ out, s.permuteNonUniform permutation distribution = some out ∧
      Permuted s out permutation d := by
  have hlength : permutation.length = n := by rw [hperm.length_eq, List.length_range]
  obtain ⟨rows, hrows⟩ :
      ∃ rows, rows = permutation.map (⟨s.eboundaries.data, s.edata.data⟩ : Serialized T).row :=
    ⟨_, rfl⟩
  obtain ⟨hboundaries, hdata, hout, hborders, hdistribution⟩ :=
    permuted_eq d hthreads hlength hrows
  obtain ⟨hcongr, hcongr'⟩ := permuted_congr permutation
    fun t ht => positionOf_given d h hne hthreads hgiven ht
  have hsizes : (rows.map List.length).length = n := by
    rw [hrows, List.length_map, List.length_map, hlength]
  have hiterators := inititerators_eq d hout hsizes hboundaries hdistribution
  have hlast : (s.permutedBoundaries permutation d.border).distribution.getLastD 0 = n + 1 := by
    obtain ⟨k, hk⟩ := Nat.exists_eq_add_of_lt hthreads
    have hget := hdistribution k (by omega)
    rw [show k + 1 = s.edata.threads by omega, d.border_size] at hget
    rw [List.getLastD_eq_getLast?, List.getLast?_eq_getElem?, hborders, Nat.add_sub_cancel, hget,
      Option.getD_some]
  have hsome : s.permuteNonUniform permutation distribution = some { s with
      eboundaries := s.permutedBoundaries permutation d.border
      edata := s.permutedData permutation d.border
      iterators := (List.range (s.edata.threads + 1)).map fun t =>
        place (rows.map List.length) (d.border t) } := by
    rw [← hcongr, ← hcongr'] at hiterators ⊢
    exact congrArg (Option.map _) hiterators
  exact ⟨_, hsome, permuted_of_rows d hne hlength hrows hboundaries hdata hlast rfl⟩

end Permute

def oneTwoNone : SerializedData ℕ where
  eboundaries := ⟨[0, 1, 3, 3], [0, 2, 4]⟩
  edata := ⟨[5, 6, 7], [0, 1, 3]⟩
  edatasize := -1
  iterators := [⟨some 0, 0, 1⟩, ⟨some 1, 1, 3⟩, ⟨some 3, 3, 3⟩]

lemma oneTwoNone_wellFormed : oneTwoNone.WellFormed 3 :=
  ⟨fun h => absurd h (by decide), fun _ => by decide⟩

def twoAndOne : Distribution oneTwoNone.edata.threads 3 :=
  ⟨[0, 2, 3], rfl, by decide, rfl, rfl⟩

/-- The operations that make an object from another one. Assignments may be made to the object
itself. -/
inductive Operation
  | copyConstruction
  | moveConstruction
  | copyAssignment (self : Bool)
  | moveAssignment (self : Bool)

def Operation.apply : Operation → SerializedData T → Option (SerializedData T)
  | copyConstruction, s => s.copyConstruction
  | moveConstruction, s => s.moveConstruction
  | copyAssignment self, s => s.copyAssignment self
  | moveAssignment self, s => s.moveAssignment self

/-- **The objects** that the constructors build for at least one thread. -/
inductive Built : SerializedData T → Prop
  | uniform {edatasize : ℕ} {edata : TArray T} {s : SerializedData T} (hsize : 0 < edatasize)
    (hthreads : 0 < edata.threads) (h : SerializedData.uniform edatasize edata = some s) : Built s
  | nonUniform {eboundaries : TArray ℕ} {edata : TArray T} {s : SerializedData T}
    (h : SerializedData.nonUniform eboundaries edata = some s) : Built s

def SameElements (out s : SerializedData T) : Prop :=
  ∀ fuel, out.seen fuel = s.seen fuel ∧
    ∀ thread, out.threadSeen thread fuel = s.threadSeen thread fuel

lemma withIterators_nonUniform {eboundaries : TArray ℕ} {edata : TArray T} {s : SerializedData T}
    (h : SerializedData.nonUniform eboundaries edata = some s) :
    s.edatasize = -1 ∧ s.withIterators = some s := by
  rw [SerializedData.nonUniform, Option.map_eq_some_iff] at h
  obtain ⟨iterators, hiterators, rfl⟩ := h
  refine ⟨rfl, ?_⟩
  rw [withIterators, hiterators, Option.map_some]

lemma inititerators_sized {edata : TArray T} (hthreads : 0 < edata.threads) :
    inititerators (TArray.sized 0 0) edata = none := by
  obtain ⟨n, hn⟩ := Nat.exists_eq_add_of_lt hthreads
  have hstart : Iterator.move (TArray.sized 0 0 : TArray ℕ).data
      ⟨if (TArray.sized 0 0 : TArray ℕ).data.length = 0 then none else some 0, 0, 0⟩ 0
        = some ⟨none, 0, 0⟩ := rfl
  rw [inititerators, hn, Nat.zero_add, List.range_succ_eq_map]
  simp only [hstart, Option.bind_eq_bind, Option.bind_some, List.mapM_cons]
  rfl

lemma withIterators_uniform {edatasize : ℕ} {edata : TArray T} {s : SerializedData T}
    (hthreads : 0 < edata.threads) (h : SerializedData.uniform edatasize edata = some s) :
    s.edatasize ≠ -1 ∧ s.withIterators = none ∧ s.copyConstruction = some s := by
  rw [SerializedData.uniform, Option.map_eq_some_iff] at h
  obtain ⟨iterators, hiterators, rfl⟩ := h
  have hsize : (edatasize : ℤ) ≠ -1 := by omega
  refine ⟨hsize, ?_, ?_⟩
  · rw [withIterators, inititerators_sized hthreads, Option.map_none]
  · rw [SerializedData.copyConstruction, if_pos hsize, Int.toNat_natCast, hiterators,
      Option.map_some]

/-- **An operation** yields an object with the same elements if and only if the data are
non-uniform, the object is copied by the constructor, or it is assigned to itself. -/
theorem apply_same_iff {s : SerializedData T} (h : Built s) (op : Operation) :
    (∃ out, op.apply s = some out ∧ SameElements out s) ↔
      s.edatasize = -1 ∨ op = .copyConstruction ∨ op = .copyAssignment true ∨
        op = .moveAssignment true := by
  have hsame : SameElements s s := fun fuel => ⟨rfl, fun thread => rfl⟩
  cases h with
  | nonUniform h =>
      obtain ⟨hsize, hwith⟩ := withIterators_nonUniform h
      refine iff_of_true ⟨s, ?_, hsame⟩ (Or.inl hsize)
      cases op with
      | copyConstruction => exact (if_neg (not_not.mpr hsize)).trans hwith
      | moveConstruction => exact hwith
      | copyAssignment self =>
          cases self with
          | false => exact hwith
          | true => rfl
      | moveAssignment self =>
          cases self with
          | false => exact hwith
          | true => rfl
  | uniform hpos hthreads h =>
      obtain ⟨hsize, hwith, hcopy⟩ := withIterators_uniform hthreads h
      have hfails : ¬∃ out, s.withIterators = some out ∧ SameElements out s := by
        rw [hwith]
        rintro ⟨out, hout, -⟩
        cases hout
      cases op with
      | copyConstruction => exact iff_of_true ⟨s, hcopy, hsame⟩ (Or.inr (Or.inl rfl))
      | moveConstruction => exact iff_of_false hfails (by simp [hsize])
      | copyAssignment self =>
          cases self with
          | false => exact iff_of_false hfails (by simp [hsize])
          | true => exact iff_of_true ⟨s, rfl, hsame⟩ (Or.inr (Or.inr (Or.inl rfl)))
      | moveAssignment self =>
          cases self with
          | false => exact iff_of_false hfails (by simp [hsize])
          | true => exact iff_of_true ⟨s, rfl, hsame⟩ (Or.inr (Or.inr (Or.inr rfl)))

def twoPairs : SerializedData ℕ where
  eboundaries := ⟨[], [0]⟩
  edata := ⟨[1, 2, 3, 4], [0, 4]⟩
  edatasize := 2
  iterators := [⟨none, 0, 2⟩, ⟨none, 4, 6⟩]

lemma twoPairs_built : Built twoPairs :=
  Built.uniform Nat.two_pos (show 0 < (⟨[1, 2, 3, 4], [0, 4]⟩ : TArray ℕ).threads by decide) rfl

theorem apply_same_iff_twoPairs :
    (∃ out, Operation.copyConstruction.apply twoPairs = some out ∧ SameElements out twoPairs) ↔
      twoPairs.edatasize = -1 ∨ Operation.copyConstruction = .copyConstruction ∨
        Operation.copyConstruction = .copyAssignment true ∨
        Operation.copyConstruction = .moveAssignment true :=
  apply_same_iff twoPairs_built .copyConstruction

/-- A moved object with two elements. -/
theorem apply_not_same :
    ¬∃ out, Operation.moveConstruction.apply twoPairs = some out ∧ SameElements out twoPairs := by
  rintro ⟨out, hout, -⟩
  have hnone : Operation.moveConstruction.apply twoPairs = none := rfl
  rw [hnone] at hout
  cases hout

end SerializedData

end Espreso
