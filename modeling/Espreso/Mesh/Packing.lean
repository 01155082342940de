import Espreso.Lib.Bytes
import Mathlib.Algebra.BigOperators.Group.List.Basic

/-!
# Packing of the stores

`NodeStore` and `ElementStore` are sent to the processes of the output as bytes.

* `Esutils.packSized`, `Esutils.unpackSized` — vectors; a vector of size zero is not unpacked.
* `StoreData`, `packItems`, `unpackItems` — the dimension and the names of the named data.
* `NodeStore`, `ElementStore` — the packed fields with `packedSize`, `pack` and `unpack`, and the
  values of the named data with `packData` and `unpackData`.

A vector of vectors is packed by the bytes of the inner vector objects, which are pointers: what they
stand for depends on the memory of the process that reads them.  `none` is a read behind the end of
the buffer or an access through a null pointer.
-/

namespace Espreso.Packing

open Bytes

/-! ## Vectors and strings -/

/-- `std::vector`: its size fits a `size_t`. -/
abbrev StdVector (α : Type) := { as : List α // as.length < 2 ^ 64 }

def StdVector.empty {α : Type} : StdVector α := ⟨[], by norm_num⟩

/-- `std::string` -/
abbrev StdString := StdVector UInt8

namespace Esutils

variable {α : Type}

/-- `Esutils::pack` of a vector, whose elements are packed with `enc`. -/
def packSized (enc : α → List UInt8) (data : StdVector α) : List UInt8 :=
  bytes (UInt64.ofNat data.1.length) ++ data.1.flatMap enc

/-- `Esutils::unpack` of a vector: a vector of size zero leaves the old one. -/
def unpackSized (r : List UInt8 → Option (α × List UInt8)) (old : StdVector α) (p : List UInt8) :
    Option (StdVector α × List UInt8) := do
  let (size, p) ← read UInt64 p
  if size = 0 then some (old, p)
  else
    let (as, p) ← readMany r size.toNat p
    some (⟨as.1, by rw [as.2]; exact size.toNat_lt⟩, p)

/-- `Esutils::packedSize` of a vector of plain values. -/
def packedSizeVector [Plain α] (data : StdVector α) : ℕ := data.1.length * sizeof α + sizeof UInt64

/-- `Esutils::pack` of a vector of plain values. -/
def packVector [Plain α] (data : StdVector α) : List UInt8 := packSized bytes data

/-- `Esutils::unpack` of a vector of plain values. -/
def unpackVector [Plain α] (old : StdVector α) (p : List UInt8) :
    Option (StdVector α × List UInt8) := unpackSized (read α) old p

/-- `Esutils::packedSize` of a string. -/
def packedSizeString (data : StdString) : ℕ := sizeof UInt64 + data.1.length

/-- `Esutils::pack` of a string. -/
def packString (data : StdString) : List UInt8 := packSized bytes data

/-- `Esutils::unpack` of a string: the string is assigned for every size. -/
def unpackString (p : List UInt8) : Option (StdString × List UInt8) := unpackVector .empty p

/-- `Esutils::packedSize` of a vector of strings. -/
def packedSizeStrings (data : StdVector StdString) : ℕ :=
  sizeof UInt64 + (data.1.map packedSizeString).sum

/-- `Esutils::pack` of a vector of strings. -/
def packStrings (data : StdVector StdString) : List UInt8 := packSized packString data

/-- `Esutils::unpack` of a vector of strings. -/
def unpackStrings (old : StdVector StdString) (p : List UInt8) :
    Option (StdVector StdString × List UInt8) := unpackSized unpackString old p

/-- What `unpack` makes of a packed vector. -/
def kept (old data : StdVector α) : StdVector α := if data.1 = [] then old else data

lemma kept_eq_iff {old data : StdVector α} : kept old data = data ↔ data.1 ≠ [] ∨ old.1 = [] := by
  rw [kept]
  split_ifs with h
  · simp only [h, ne_eq, not_true_eq_false, false_or]
    exact ⟨fun heq => by rw [heq, h], fun hold => Subtype.ext (by rw [hold, h])⟩
  · simp only [ne_eq, h, not_false_eq_true, true_or]

@[simp] lemma kept_empty (data : StdVector α) : kept .empty data = data :=
  kept_eq_iff.mpr (Or.inr rfl)

lemma toNat_length (data : StdVector α) : (UInt64.ofNat data.1.length).toNat = data.1.length :=
  UInt64.toNat_ofNat_of_lt' data.2

/-- **A vector is read to its end**, and is left as it was if it is packed empty. -/
theorem unpackSized_append {enc : α → List UInt8} {r : List UInt8 → Option (α × List UInt8)}
    (hr : ∀ a rest, r (enc a ++ rest) = some (a, rest)) (old data : StdVector α)
    (rest : List UInt8) :
    unpackSized r old (packSized enc data ++ rest) = some (kept old data, rest) := by
  simp only [unpackSized, packSized, List.append_assoc, read_append, Option.bind_eq_bind,
    Option.bind_some, kept]
  have hzero : UInt64.ofNat data.1.length = 0 ↔ data.1 = [] := by
    rw [← UInt64.toNat_inj, toNat_length]
    exact List.length_eq_zero_iff
  simp only [hzero]
  split_ifs with h
  · rw [h, List.flatMap_nil, List.nil_append]
  · rw [readMany_append hr data.1 (toNat_length data).symm rest]
    rfl

@[simp] lemma unpackVector_append [Plain α] (old data : StdVector α) (rest : List UInt8) :
    unpackVector old (packVector data ++ rest) = some (kept old data, rest) :=
  unpackSized_append read_append old data rest

@[simp] lemma unpackString_append (data : StdString) (rest : List UInt8) :
    unpackString (packString data ++ rest) = some (data, rest) := by
  rw [unpackString, packString, ← packVector, unpackVector_append, kept_empty]

@[simp] lemma unpackStrings_append (old data : StdVector StdString) (rest : List UInt8) :
    unpackStrings old (packStrings data ++ rest) = some (kept old data, rest) :=
  unpackSized_append unpackString_append old data rest

lemma length_packVector [Plain α] (data : StdVector α) :
    (packVector data).length = packedSizeVector data := by
  rw [packVector, packSized, List.length_append, Plain.length_bytes, length_flatMap_bytes,
    packedSizeVector, add_comm]

lemma length_packString (data : StdString) : (packString data).length = packedSizeString data := by
  rw [packString, ← packVector, length_packVector, packedSizeVector, packedSizeString, add_comm]
  exact congrArg _ (mul_one _)

lemma length_packStrings (data : StdVector StdString) :
    (packStrings data).length = packedSizeStrings data := by
  rw [packStrings, packSized, List.length_append, Plain.length_bytes, List.length_flatMap,
    packedSizeStrings]
  simp only [length_packString]

end Esutils

/-! ## Arrays -/

/-- `tarray`, with the distribution over the threads. -/
structure TArray (α : Type) where
  data : StdVector α
  distribution : List ℕ

namespace TArray

variable {α : Type} [Plain α]

/-- `tarray::packedSize` -/
def packedSize (a : TArray α) : ℕ := sizeof UInt64 + a.data.1.length * sizeof α

/-- `tarray::pack` -/
def pack (a : TArray α) : List UInt8 := Esutils.packVector a.data

/-- `tarray::unpack`: the old data are released or overwritten for every size. -/
def unpack (p : List UInt8) : Option (TArray α × List UInt8) := do
  let (data, p) ← Esutils.unpackVector .empty p
  some (⟨data, [0, data.1.length]⟩, p)

lemma length_pack (a : TArray α) : a.pack.length = a.packedSize := by
  rw [pack, Esutils.length_packVector, Esutils.packedSizeVector, packedSize, add_comm]

@[simp] lemma unpack_append (a : TArray α) (rest : List UInt8) :
    unpack (a.pack ++ rest) = some (⟨a.data, [0, a.data.1.length]⟩, rest) := by
  simp only [unpack, pack, Esutils.unpackVector_append, Esutils.kept_empty, Option.bind_eq_bind,
    Option.bind_some]

end TArray

/-- `serializededata`; `_edatasize` is -1 for data with boundaries. -/
structure SerializedData (β α : Type) where
  _edatasize : Int32
  _eboundaries : TArray β
  _edata : TArray α

namespace SerializedData

variable {β α : Type} [Plain β] [Plain α]

/-- `serializededata::packedSize` -/
def packedSize (s : SerializedData β α) : ℕ :=
  sizeof Int32 + s._eboundaries.packedSize + s._edata.packedSize

/-- `serializededata::pack` -/
def pack (s : SerializedData β α) : List UInt8 :=
  bytes s._edatasize ++ (s._eboundaries.pack ++ s._edata.pack)

/-- `serializededata::unpack` -/
def unpack (p : List UInt8) : Option (SerializedData β α × List UInt8) := do
  let (_edatasize, p) ← read Int32 p
  let (_eboundaries, p) ← TArray.unpack p
  let (_edata, p) ← TArray.unpack p
  some (⟨_edatasize, _eboundaries, _edata⟩, p)

/-- The packed contents; the distributions over the threads are not packed. -/
def contents (s : SerializedData β α) : Int32 × List β × List α :=
  (s._edatasize, s._eboundaries.data.1, s._edata.data.1)

def received (s : SerializedData β α) : SerializedData β α where
  _edatasize := s._edatasize
  _eboundaries := ⟨s._eboundaries.data, [0, s._eboundaries.data.1.length]⟩
  _edata := ⟨s._edata.data, [0, s._edata.data.1.length]⟩

lemma length_pack (s : SerializedData β α) : s.pack.length = s.packedSize := by
  rw [pack, List.length_append, List.length_append, Plain.length_bytes, TArray.length_pack,
    TArray.length_pack, packedSize, add_assoc]

@[simp] lemma unpack_append (s : SerializedData β α) (rest : List UInt8) :
    unpack (s.pack ++ rest) = some (s.received, rest) := by
  simp only [unpack, pack, List.append_assoc, read_append, TArray.unpack_append,
    Option.bind_eq_bind, Option.bind_some]
  rfl

end SerializedData

/-! ## Named data -/

/-- `NodeData` and `ElementData`: the dimension and the names, with the values of either. -/
structure StoreData (β : Type) where
  dimension : Int32
  names : StdVector StdString
  values : β

namespace StoreData

variable {β : Type}

/-- The data that are packed: `names.size() != 0`. -/
def named (data : List (StoreData β)) : List (StoreData β) := data.filter fun d => d.names.1 ≠ []

def head (d : StoreData β) : Int32 × StdVector StdString := (d.dimension, d.names)

/-- An item as `unpack` appends it. -/
def renew (fresh : β) (d : StoreData β) : StoreData β := ⟨d.dimension, d.names, fresh⟩

/-- `datasize` of `packedSize`. -/
def packedSizeItems (data : List (StoreData β)) : ℕ :=
  sizeof UInt64 +
    ((named data).map fun d => sizeof Int32 + Esutils.packedSizeStrings d.names).sum

def packItem (d : StoreData β) : List UInt8 := bytes d.dimension ++ Esutils.packStrings d.names

/-- The end of `pack`: the number of the named items and these items. -/
def packItems (data : List (StoreData β)) : List UInt8 :=
  bytes (UInt64.ofNat (named data).length) ++ (named data).flatMap packItem

/-- A pass of the last loop in `unpack`: the dimension is read for a new item only. -/
def unpackItem (fresh : β) (data : List (StoreData β)) (i : ℕ) (p : List UInt8) :
    Option (List (StoreData β) × List UInt8) :=
  match data[i]? with
  | none => do
      let (dimension, p) ← read Int32 p
      let (names, p) ← Esutils.unpackStrings .empty p
      some (data ++ [⟨dimension, names, fresh⟩], p)
  | some d => do
      let (names, p) ← Esutils.unpackStrings d.names p
      some (data.set i { d with names := names }, p)

/-- The last loop in `unpack`, from the item `i` on. -/
def unpackLoop (fresh : β) :
    ℕ → ℕ → List (StoreData β) → List UInt8 → Option (List (StoreData β) × List UInt8)
  | 0, _, data, p => some (data, p)
  | k + 1, i, data, p => do
      let (data, p) ← unpackItem fresh data i p
      unpackLoop fresh k (i + 1) data p

/-- The end of `unpack`. -/
def unpackItems (fresh : β) (data : List (StoreData β)) (p : List UInt8) :
    Option (List (StoreData β) × List UInt8) := do
  let (datasize, p) ← read UInt64 p
  unpackLoop fresh datasize.toNat 0 data p

lemma length_packItems (data : List (StoreData β)) :
    (packItems data).length = packedSizeItems data := by
  rw [packItems, List.length_append, Plain.length_bytes, List.length_flatMap, packedSizeItems]
  simp only [packItem, List.length_append, Plain.length_bytes, Esutils.length_packStrings]

lemma unpackLoop_append (fresh : β) (ds : List (StoreData β)) (rest : List UInt8) :
    ∀ data : List (StoreData β),
      unpackLoop fresh ds.length data.length data (ds.flatMap packItem ++ rest) =
        some (data ++ ds.map (renew fresh), rest) := by
  induction ds with
  | nil =>
    intro data
    rw [List.length_nil, unpackLoop, List.map_nil, List.append_nil, List.flatMap_nil,
      List.nil_append]
  | cons d ds ih =>
    intro data
    have hnew : data[data.length]? = none := List.getElem?_eq_none le_rfl
    simp only [List.length_cons, unpackLoop, unpackItem, hnew, List.flatMap_cons, packItem,
      List.append_assoc, read_append, Esutils.unpackStrings_append, Esutils.kept_empty,
      Option.bind_eq_bind, Option.bind_some]
    have hih := ih (data ++ [renew fresh d])
    rw [List.length_append, List.length_singleton] at hih
    rw [List.map_cons, List.append_cons data (renew fresh d)]
    exact hih

lemma unpackItems_append (fresh : β) (data target : List (StoreData β)) (rest : List UInt8)
    (hlen : data.length < 2 ^ 64) :
    unpackItems fresh target (packItems data ++ rest) =
      unpackLoop fresh (named data).length 0 target ((named data).flatMap packItem ++ rest) := by
  have hnamed : (named data).length < 2 ^ 64 := lt_of_le_of_lt (List.length_filter_le _ _) hlen
  simp only [unpackItems, packItems, List.append_assoc, read_append, Option.bind_eq_bind,
    Option.bind_some, UInt64.toNat_ofNat_of_lt' hnamed]

lemma unpackItems_nil (fresh : β) (data : List (StoreData β)) (rest : List UInt8)
    (hlen : data.length < 2 ^ 64) :
    unpackItems fresh [] (packItems data ++ rest) = some ((named data).map (renew fresh), rest) := by
  rw [unpackItems_append fresh data [] rest hlen]
  exact unpackLoop_append fresh (named data) rest []

lemma unpackItems_of_named_eq_nil (fresh : β) {data : List (StoreData β)}
    (target : List (StoreData β)) (rest : List UInt8) (h : named data = []) :
    unpackItems fresh target (packItems data ++ rest) = some (target, rest) := by
  have hcount : (UInt64.ofNat 0).toNat = 0 := rfl
  simp only [unpackItems, packItems, h, List.length_nil, List.flatMap_nil, List.append_nil,
    read_append, Option.bind_eq_bind, Option.bind_some, hcount, unpackLoop]

/-! ### A target that has data -/

lemma read_dimension_names (d : StoreData β) (hnames : d.names.1.length < 2 ^ 32)
    (rest : List UInt8) :
    ∃ p, read UInt64 (packItem d ++ rest) =
      some (UInt64.ofNat (d.dimension.toUInt32.toNat + 2 ^ 32 * d.names.1.length), p) := by
  have hdim : (bytes d.dimension).length = 4 := Plain.length_bytes d.dimension
  have hlow : (bytes (UInt64.ofNat d.names.1.length)).take 4 = ofNat 4 d.names.1.length := by
    change (ofNat 8 (UInt64.ofNat d.names.1.length).toNat).take 4 = _
    rw [Esutils.toNat_length, take_ofNat (show 4 ≤ 8 by decide)]
  have hcount : (bytes (UInt64.ofNat d.names.1.length)).length = 8 := Plain.length_bytes _
  set tail := d.names.1.flatMap Esutils.packString ++ rest with htail
  have hbuffer : packItem d ++ rest =
      bytes d.dimension ++ (bytes (UInt64.ofNat d.names.1.length) ++ tail) := by
    simp only [packItem, Esutils.packStrings, Esutils.packSized, List.append_assoc, htail]
  have htake : (packItem d ++ rest).take 8 = bytes d.dimension ++ ofNat 4 d.names.1.length := by
    rw [hbuffer, List.take_append, hdim, List.take_of_length_le (by rw [hdim]; omega),
      List.take_append, hcount, hlow]
    simp
  have hlen : 8 ≤ (packItem d ++ rest).length := by
    rw [hbuffer, List.length_append, List.length_append, hdim, hcount]
    omega
  have hvalue : toNat ((packItem d ++ rest).take 8) =
      d.dimension.toUInt32.toNat + 2 ^ 32 * d.names.1.length := by
    have hlt : d.dimension.toUInt32.toNat < 256 ^ 4 := d.dimension.toUInt32.toNat_lt
    have hbytes : toNat (bytes d.dimension) = d.dimension.toUInt32.toNat := by
      refine (toNat_ofNat 4 _).trans (Nat.mod_eq_of_lt hlt)
    rw [htake, toNat_append, hdim, hbytes, toNat_ofNat, Nat.mod_eq_of_lt (by omega)]
    norm_num
  refine ⟨(packItem d ++ rest).drop 8, ?_⟩
  rw [Bytes.read]
  exact (if_pos hlen).trans (by rw [← hvalue]; rfl)

lemma unpackStrings_names_ne (d : StoreData β) (hne : d.names.1 ≠ [])
    (hnames : d.names.1.length < 2 ^ 32) (old : StdVector StdString) (rest : List UInt8)
    {names : StdVector StdString} {p : List UInt8}
    (h : Esutils.unpackStrings old (packItem d ++ rest) = some (names, p)) :
    d.names.1.length < names.1.length := by
  obtain ⟨q, hq⟩ := read_dimension_names d hnames rest
  have hpos := List.length_pos_of_ne_nil hne
  have hdim : d.dimension.toUInt32.toNat < 2 ^ 32 := d.dimension.toUInt32.toNat_lt
  have hsize : (UInt64.ofNat (d.dimension.toUInt32.toNat + 2 ^ 32 * d.names.1.length)).toNat =
      d.dimension.toUInt32.toNat + 2 ^ 32 * d.names.1.length :=
    UInt64.toNat_ofNat_of_lt' (by show _ < 2 ^ 64; omega)
  simp only [Esutils.unpackStrings, Esutils.unpackSized, hq, Option.bind_eq_bind,
    Option.bind_some] at h
  split_ifs at h with hzero
  · rw [hzero] at hsize
    have hz : (0 : UInt64).toNat = 0 := rfl
    omega
  · rw [Option.bind_eq_some_iff] at h
    obtain ⟨⟨as, r⟩, -, h⟩ := h
    cases h
    rw [as.2, hsize]
    omega

lemma unpackLoop_getElem?_zero (fresh : β) {k i : ℕ} {data result : List (StoreData β)}
    {p q : List UInt8} (hdata : data ≠ []) (h : unpackLoop fresh k (i + 1) data p = some (result, q)) :
    result[0]? = data[0]? := by
  induction k generalizing i data p with
  | zero =>
    cases h
    rfl
  | succ k ih =>
    simp only [unpackLoop, Option.bind_eq_bind, Option.bind_eq_some_iff] at h
    obtain ⟨⟨data', p'⟩, hitem, hloop⟩ := h
    have hpos := List.length_pos_of_ne_nil hdata
    have hfirst : data' ≠ [] ∧ data'[0]? = data[0]? := by
      rw [unpackItem] at hitem
      split at hitem
      · simp only [Option.bind_eq_bind, Option.bind_eq_some_iff, Option.some.injEq,
          Prod.mk.injEq] at hitem
        obtain ⟨_, -, _, -, rfl, -⟩ := hitem
        exact ⟨List.append_ne_nil_of_left_ne_nil hdata _, List.getElem?_append_left hpos⟩
      · simp only [Option.bind_eq_bind, Option.bind_eq_some_iff, Option.some.injEq,
          Prod.mk.injEq] at hitem
        obtain ⟨_, -, rfl, -⟩ := hitem
        refine ⟨?_, List.getElem?_set_ne (by omega)⟩
        rw [ne_eq, List.set_eq_nil_iff]
        exact hdata
    exact (ih hfirst.1 hloop).trans hfirst.2

lemma unpackItems_ne {fresh : β} {data target result : List (StoreData β)} {rest q : List UInt8}
    (hlen : data.length < 2 ^ 64) (hnamed : named data ≠ []) (htarget : target ≠ [])
    (hnames : ∀ d ∈ data, d.names.1.length < 2 ^ 32)
    (h : unpackItems fresh target (packItems data ++ rest) = some (result, q)) :
    (named result).map head ≠ (named data).map head := by
  rw [unpackItems_append fresh data target rest hlen] at h
  obtain ⟨d, ds, hds⟩ := List.exists_cons_of_ne_nil hnamed
  obtain ⟨t, ts, rfl⟩ := List.exists_cons_of_ne_nil htarget
  have hmem : d ∈ named data := hds ▸ List.mem_cons_self
  have hd : d.names.1 ≠ [] := of_decide_eq_true (List.mem_filter.mp hmem).2
  simp only [hds, List.length_cons, unpackLoop, unpackItem, List.getElem?_cons_zero,
    List.flatMap_cons, List.append_assoc, Option.bind_eq_bind, Option.bind_eq_some_iff,
    Option.some.injEq] at h
  obtain ⟨⟨data', p'⟩, ⟨⟨names, p''⟩, hread, rfl, rfl⟩, hloop⟩ := h
  have hlt := unpackStrings_names_ne d hd (hnames d (List.mem_filter.mp hmem).1) _ _ hread
  have hzero := unpackLoop_getElem?_zero fresh (by simp) hloop
  -- the first item of the result is named, and is the first one of the named items
  obtain ⟨r, rs, rfl⟩ : ∃ r rs, result = r :: rs := by
    cases result with
    | nil => simp at hzero
    | cons r rs => exact ⟨r, rs, rfl⟩
  simp only [List.set_cons_zero, List.getElem?_cons_zero, Option.some.injEq] at hzero
  subst hzero
  have hne : names.1 ≠ [] := List.ne_nil_of_length_pos (by omega)
  intro heq
  rw [hds, named, List.filter_cons_of_pos (by simpa using hne), List.map_cons, List.map_cons,
    List.cons.injEq] at heq
  have hnameseq : names = d.names := congrArg Prod.snd heq.1
  rw [hnameseq] at hlt
  exact lt_irrefl _ hlt

/-- **The condition on the data of a target**: no data, or no named data on both sides. -/
def Receives (data target : List (StoreData β)) : Prop :=
  if named data = [] then named target = [] else target = []

lemma named_map_renew (fresh : β) (data : List (StoreData β)) :
    named ((named data).map (renew fresh)) = (named data).map (renew fresh) := by
  refine List.filter_eq_self.mpr fun r hr => ?_
  obtain ⟨d, hd, rfl⟩ := List.mem_map.mp hr
  exact (List.mem_filter.mp hd).2

lemma unpackItems_of_receives (fresh : β) {data target : List (StoreData β)}
    (hlen : data.length < 2 ^ 64) (htarget : target.length < 2 ^ 64) (h : Receives data target) :
    ∃ result : List (StoreData β), result.length < 2 ^ 64 ∧
      (∀ rest, unpackItems fresh target (packItems data ++ rest) = some (result, rest)) ∧
      (named result).map head = (named data).map head := by
  rw [Receives] at h
  split_ifs at h with hnamed
  · refine ⟨target, htarget, fun rest => unpackItems_of_named_eq_nil fresh target rest hnamed, ?_⟩
    rw [h, hnamed]
  · subst h
    refine ⟨(named data).map (renew fresh), ?_,
      fun rest => unpackItems_nil fresh data rest hlen, ?_⟩
    · rw [List.length_map]
      exact lt_of_le_of_lt (List.length_filter_le _ _) hlen
    · rw [named_map_renew, List.map_map]
      rfl

lemma receives_of_unpackItems {fresh : β} {data target result : List (StoreData β)}
    {rest q : List UInt8} (hlen : data.length < 2 ^ 64)
    (hnames : ∀ d ∈ data, d.names.1.length < 2 ^ 32)
    (h : unpackItems fresh target (packItems data ++ rest) = some (result, q))
    (heq : (named result).map head = (named data).map head) : Receives data target := by
  rw [Receives]
  split_ifs with hnamed
  · rw [unpackItems_of_named_eq_nil fresh target rest hnamed, Option.some.injEq,
      Prod.mk.injEq] at h
    rw [h.1]
    rw [hnamed, List.map_nil, List.map_eq_nil_iff] at heq
    exact heq
  · by_contra htarget
    exact unpackItems_ne hlen hnamed htarget hnames h heq

end StoreData

end Espreso.Packing
