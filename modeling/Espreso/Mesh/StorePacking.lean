import Espreso.Mesh.Packing

/-!
# Transfers of the stores

* `NodeStore`, `ElementStore` — the packed fields with `packedSize`, `pack` and `unpack`.
* **`NodeStore.transferred_of_receives`**, **`NodeStore.receives_of_transferred`** — a target receives
  a store if and only if it has no data of its own, no vector that is empty in the store, and reads
  the inner vectors of the store in its own memory; the same for `ElementStore`.
-/

namespace Espreso.Packing

open Bytes StoreData

/-! ## Values of the stores -/

/-- `double`, by its bits. -/
abbrev Double := UInt64

structure Point where
  x : Double
  y : Double
  z : Double

structure ProcessInterval where
  begin : Int32
  finish : Int32
  sourceProcess : Int32
  globalOffset : Int32

structure DomainInterval where
  begin : Int32
  finish : Int32
  pindex : Int32
  DOFOffset : Int32

structure ElementsInterval where
  begin : Int32
  finish : Int32
  domain : Int32
  code : Int32

/-- The object of a `std::vector`: where its elements begin and end, and the end of the storage. -/
structure Header where
  start : UInt64
  finish : UInt64
  end_of_storage : UInt64

/-- What a process finds in its memory between the pointers of a vector object. -/
abbrev Memory (α : Type) := Header → List α

instance : Plain Point :=
  .ofFields (fun p => (p.x, p.y, p.z)) (fun p => ⟨p.1, p.2.1, p.2.2⟩) fun _ => rfl

instance : Plain ProcessInterval :=
  .ofFields (fun i => (i.begin, i.finish, i.sourceProcess, i.globalOffset))
    (fun i => ⟨i.1, i.2.1, i.2.2.1, i.2.2.2⟩) fun _ => rfl

instance : Plain ElementsInterval :=
  .ofFields (fun i => (i.begin, i.finish, i.domain, i.code))
    (fun i => ⟨i.1, i.2.1, i.2.2.1, i.2.2.2⟩) fun _ => rfl

instance : Plain Header :=
  .ofFields (fun h => (h.start, h.finish, h.end_of_storage)) (fun h => ⟨h.1, h.2.1, h.2.2⟩)
    fun _ => rfl

def Esutils.Receives {α : Type} (data old : StdVector α) : Prop := data.1 ≠ [] ∨ old.1 = []

lemma Esutils.map_kept_eq_iff {γ δ : Type} {targetMemory memory : γ → δ} {data old : StdVector γ} :
    (Esutils.kept old data).1.map targetMemory = data.1.map memory ↔
      Esutils.Receives data old ∧ ∀ h ∈ data.1, targetMemory h = memory h := by
  constructor
  · intro h
    have hreceives : Esutils.Receives data old := by
      by_contra hnot
      obtain ⟨hs, ht⟩ := not_or.mp hnot
      rw [Esutils.kept, if_pos (not_not.mp hs), not_not.mp hs] at h
      exact ht (List.map_eq_nil_iff.mp h)
    rw [Esutils.kept_eq_iff.mpr hreceives] at h
    exact ⟨hreceives, List.map_inj_left.mp h⟩
  · rintro ⟨hreceives, hinner⟩
    rw [Esutils.kept_eq_iff.mpr hreceives]
    exact List.map_congr_left hinner

lemma bind_of_eq_some {α β : Type} {x : Option α} {a : α} (h : x = some a) (f : α → Option β) :
    (x >>= f) = f a := by
  rw [h]
  rfl

/-! ## `NodeStore` -/

/-- The values of `NodeData`; `decomposedData` may be null. -/
structure NodeValues where
  decomposedData : Option (StdVector Header)
  gatheredData : StdVector Double

/-- `new NodeData(dimension)` -/
def NodeValues.fresh : NodeValues := ⟨some .empty, .empty⟩

/-- `NodeStore`, the packed fields and the data. -/
structure NodeStore where
  size : Int32
  uniqueOffset : Int32
  uniqueSize : Int32
  uniqueTotalSize : Int32
  IDs : Option (SerializedData Int32 Int32)
  coordinates : Option (SerializedData Int32 Point)
  idomains : Option (SerializedData Int32 Int32)
  externalIntervals : StdVector Int32
  pintervals : StdVector ProcessInterval
  dintervals : StdVector Header
  dcenter : StdVector Point
  center : Point
  data : StdVector (StoreData NodeValues)

namespace NodeStore

/-- `NodeStore::packedSize` -/
def packedSize (s : NodeStore) : Option ℕ := do
  let IDs ← s.IDs
  let coordinates ← s.coordinates
  let idomains ← s.idomains
  some (sizeof Int32 + sizeof Int32 + sizeof Int32 + sizeof Int32 + IDs.packedSize +
    coordinates.packedSize + idomains.packedSize + Esutils.packedSizeVector s.externalIntervals +
    Esutils.packedSizeVector s.pintervals + Esutils.packedSizeVector s.dintervals +
    packedSizeItems s.data.1 + Esutils.packedSizeVector s.dcenter + sizeof Point)

/-- `NodeStore::pack` -/
def pack (s : NodeStore) : Option (List UInt8) := do
  let IDs ← s.IDs
  let coordinates ← s.coordinates
  let idomains ← s.idomains
  some (bytes s.size ++ (bytes s.uniqueOffset ++ (bytes s.uniqueSize ++ (bytes s.uniqueTotalSize ++
    (IDs.pack ++ (coordinates.pack ++ (idomains.pack ++
    (Esutils.packVector s.externalIntervals ++ (Esutils.packVector s.pintervals ++
    (Esutils.packVector s.dintervals ++ (Esutils.packVector s.dcenter ++ (bytes s.center ++
    packItems s.data.1))))))))))))

/-- `NodeStore::unpack`: what was allocated for null pointers is overwritten. -/
def unpack (s : NodeStore) (p : List UInt8) : Option (NodeStore × List UInt8) := do
  let (size, p) ← Bytes.read Int32 p
  let (uniqueOffset, p) ← Bytes.read Int32 p
  let (uniqueSize, p) ← Bytes.read Int32 p
  let (uniqueTotalSize, p) ← Bytes.read Int32 p
  let (IDs, p) ← SerializedData.unpack p
  let (coordinates, p) ← SerializedData.unpack p
  let (idomains, p) ← SerializedData.unpack p
  let (externalIntervals, p) ← Esutils.unpackVector s.externalIntervals p
  let (pintervals, p) ← Esutils.unpackVector s.pintervals p
  let (dintervals, p) ← Esutils.unpackVector s.dintervals p
  let (dcenter, p) ← Esutils.unpackVector s.dcenter p
  let (center, p) ← Bytes.read Point p
  let (data, p) ← unpackItems NodeValues.fresh s.data.1 p
  if hdata : data.length < 2 ^ 64 then
    some (⟨size, uniqueOffset, uniqueSize, uniqueTotalSize, some IDs, some coordinates,
      some idomains, externalIntervals, pintervals, dintervals, dcenter, center,
      ⟨data, hdata⟩⟩, p)
  else none

/-- What a process with the given memory reads in the packed fields. -/
structure Contents where
  sizes : Int32 × Int32 × Int32 × Int32
  IDs : Option (Int32 × List Int32 × List Int32)
  coordinates : Option (Int32 × List Int32 × List Point)
  idomains : Option (Int32 × List Int32 × List Int32)
  externalIntervals : List Int32
  pintervals : List ProcessInterval
  dintervals : List (List DomainInterval)
  dcenter : List Point
  center : Point
  data : List (Int32 × StdVector StdString)

def contents (memory : Memory DomainInterval) (s : NodeStore) : Contents where
  sizes := (s.size, s.uniqueOffset, s.uniqueSize, s.uniqueTotalSize)
  IDs := s.IDs.map SerializedData.contents
  coordinates := s.coordinates.map SerializedData.contents
  idomains := s.idomains.map SerializedData.contents
  externalIntervals := s.externalIntervals.1
  pintervals := s.pintervals.1
  dintervals := s.dintervals.1.map memory
  dcenter := s.dcenter.1
  center := s.center
  data := (named s.data.1).map head

/-- **A transfer.**  `pack` writes exactly `packedSize` bytes, `unpack` reads exactly these bytes, and
the target has the packed fields of the source, each in the memory of its own process. -/
def Transferred (memory targetMemory : Memory DomainInterval) (s target : NodeStore) : Prop :=
  ∃ p result, s.pack = some p ∧ s.packedSize = some p.length ∧
    (∀ rest, target.unpack (p ++ rest) = some (result, rest)) ∧
    result.contents targetMemory = s.contents memory

/-- **The condition on a target.** -/
structure Receives (memory targetMemory : Memory DomainInterval) (s target : NodeStore) : Prop where
  externalIntervals : Esutils.Receives s.externalIntervals target.externalIntervals
  pintervals : Esutils.Receives s.pintervals target.pintervals
  dintervals : Esutils.Receives s.dintervals target.dintervals ∧
    ∀ h ∈ s.dintervals.1, targetMemory h = memory h
  dcenter : Esutils.Receives s.dcenter target.dcenter
  data : StoreData.Receives s.data.1 target.data.1

/-- The store is set up: `pack` and `packedSize` do not follow null pointers. -/
def Allocated (s : NodeStore) : Prop :=
  s.IDs.isSome ∧ s.coordinates.isSome ∧ s.idomains.isSome

lemma length_pack {s : NodeStore} {p : List UInt8} (h : s.pack = some p) :
    s.packedSize = some p.length := by
  simp only [pack, Option.bind_eq_bind, Option.bind_eq_some_iff, Option.some.injEq] at h
  obtain ⟨IDs, hIDs, coordinates, hcoordinates, idomains, hidomains, rfl⟩ := h
  simp only [packedSize, hIDs, hcoordinates, hidomains, Option.bind_eq_bind, Option.bind_some,
    List.length_append, Plain.length_bytes, SerializedData.length_pack, Esutils.length_packVector,
    length_packItems, Option.some.injEq]
  ring

/-- The target behind `unpack`, with the given data. -/
def received (s target : NodeStore) (data : StdVector (StoreData NodeValues)) : NodeStore where
  size := s.size
  uniqueOffset := s.uniqueOffset
  uniqueSize := s.uniqueSize
  uniqueTotalSize := s.uniqueTotalSize
  IDs := s.IDs.map SerializedData.received
  coordinates := s.coordinates.map SerializedData.received
  idomains := s.idomains.map SerializedData.received
  externalIntervals := Esutils.kept target.externalIntervals s.externalIntervals
  pintervals := Esutils.kept target.pintervals s.pintervals
  dintervals := Esutils.kept target.dintervals s.dintervals
  dcenter := Esutils.kept target.dcenter s.dcenter
  center := s.center
  data := data

lemma unpack_append {s : NodeStore} {p : List UInt8} (h : s.pack = some p) (target : NodeStore)
    (rest : List UInt8) :
    target.unpack (p ++ rest) =
      (unpackItems NodeValues.fresh target.data.1 (packItems s.data.1 ++ rest)).bind fun r =>
        if hdata : r.1.length < 2 ^ 64 then some (s.received target ⟨r.1, hdata⟩, r.2)
        else none := by
  simp only [pack, Option.bind_eq_bind, Option.bind_eq_some_iff, Option.some.injEq] at h
  obtain ⟨IDs, hIDs, coordinates, hcoordinates, idomains, hidomains, rfl⟩ := h
  simp only [received, hIDs, hcoordinates, hidomains, Option.map_some, List.append_assoc]
  refine (bind_of_eq_some (read_append _ _) _).trans ?_
  refine (bind_of_eq_some (read_append _ _) _).trans ?_
  refine (bind_of_eq_some (read_append _ _) _).trans ?_
  refine (bind_of_eq_some (read_append _ _) _).trans ?_
  refine (bind_of_eq_some (SerializedData.unpack_append _ _) _).trans ?_
  refine (bind_of_eq_some (SerializedData.unpack_append _ _) _).trans ?_
  refine (bind_of_eq_some (SerializedData.unpack_append _ _) _).trans ?_
  refine (bind_of_eq_some (Esutils.unpackVector_append _ _ _) _).trans ?_
  refine (bind_of_eq_some (Esutils.unpackVector_append _ _ _) _).trans ?_
  refine (bind_of_eq_some (Esutils.unpackVector_append _ _ _) _).trans ?_
  refine (bind_of_eq_some (Esutils.unpackVector_append _ _ _) _).trans ?_
  exact bind_of_eq_some (read_append _ _) _

lemma pack_isSome {s : NodeStore} (h : s.Allocated) : ∃ p, s.pack = some p := by
  obtain ⟨IDs, hIDs⟩ := Option.isSome_iff_exists.mp h.1
  obtain ⟨coordinates, hcoordinates⟩ := Option.isSome_iff_exists.mp h.2.1
  obtain ⟨idomains, hidomains⟩ := Option.isSome_iff_exists.mp h.2.2
  simp only [pack, hIDs, hcoordinates, hidomains, Option.bind_eq_bind, Option.bind_some,
    Option.some.injEq, exists_eq']

lemma transferred_of_receives {memory targetMemory : Memory DomainInterval} {s target : NodeStore}
    (halloc : s.Allocated) (h : Receives memory targetMemory s target) :
    Transferred memory targetMemory s target := by
  obtain ⟨p, hp⟩ := pack_isSome halloc
  obtain ⟨data, hlen, hread, hdata⟩ :=
    unpackItems_of_receives NodeValues.fresh s.data.2 target.data.2 h.data
  refine ⟨p, s.received target ⟨data, hlen⟩, hp, length_pack hp, fun rest => ?_, ?_⟩
  · rw [unpack_append hp, hread, Option.bind_some, dif_pos hlen]
  · simp only [contents, received, Esutils.kept_eq_iff.mpr h.externalIntervals,
      Esutils.kept_eq_iff.mpr h.pintervals, Esutils.map_kept_eq_iff.mpr h.dintervals,
      Esutils.kept_eq_iff.mpr h.dcenter, Option.map_map, hdata]
    rfl

lemma receives_of_transferred {memory targetMemory : Memory DomainInterval} {s target : NodeStore}
    (hnames : ∀ d ∈ s.data.1, d.names.1.length < 2 ^ 32)
    (h : Transferred memory targetMemory s target) : Receives memory targetMemory s target := by
  obtain ⟨p, result, hp, -, hread, hcontents⟩ := h
  have hunpack := hread []
  rw [unpack_append hp, Option.bind_eq_some_iff] at hunpack
  obtain ⟨⟨data, q⟩, hitems, hunpack⟩ := hunpack
  split_ifs at hunpack with hlen
  cases hunpack
  simp only [contents, received, Contents.mk.injEq] at hcontents
  obtain ⟨-, -, -, -, hexternal, hpintervals, hdintervals, hdcenter, -, hdata⟩ := hcontents
  exact ⟨Esutils.kept_eq_iff.mp (Subtype.ext hexternal),
    Esutils.kept_eq_iff.mp (Subtype.ext hpintervals), Esutils.map_kept_eq_iff.mp hdintervals,
    Esutils.kept_eq_iff.mp (Subtype.ext hdcenter),
    receives_of_unpackItems s.data.2 hnames hitems hdata⟩

end NodeStore

/-! ## `ElementStore` -/

/-- `ElementStore`, the packed fields and the data.  The element types of a thread are given by their
codes, the differences of the pointers to `_eclasses` of the thread. -/
structure ElementStore where
  size : Int32
  nodes : Option (SerializedData Int32 Int32)
  epointers : Option (List (List Int32))
  firstDomain : Int32
  ndomains : Int32
  nclusters : Int32
  clusters : StdVector Int32
  elementsDistribution : StdVector Int32
  ecounters : StdVector Int32
  eintervals : StdVector ElementsInterval
  data : StdVector (StoreData (StdVector Double))

namespace ElementStore

/-- `ElementStore::packedSize` -/
def packedSize (s : ElementStore) : Option ℕ := do
  let nodes ← s.nodes
  let epointers ← s.epointers
  some (sizeof Int32 + nodes.packedSize + (sizeof UInt64 + epointers.flatten.length * sizeof Int32) +
    sizeof Int32 + sizeof Int32 + sizeof Int32 + Esutils.packedSizeVector s.clusters +
    Esutils.packedSizeVector s.elementsDistribution + Esutils.packedSizeVector s.ecounters +
    Esutils.packedSizeVector s.eintervals + packedSizeItems s.data.1)

/-- `eindices` of `pack`. -/
def eindices (epointers : List (List Int32)) : Option (StdVector Int32) :=
  if h : epointers.flatten.length < 2 ^ 64 then some ⟨epointers.flatten, h⟩ else none

/-- `ElementStore::pack` -/
def pack (s : ElementStore) : Option (List UInt8) := do
  let nodes ← s.nodes
  let epointers ← s.epointers
  let eindices ← eindices epointers
  some (bytes s.size ++ (nodes.pack ++ (Esutils.packVector eindices ++ (bytes s.firstDomain ++
    (bytes s.ndomains ++ (bytes s.nclusters ++ (Esutils.packVector s.clusters ++
    (Esutils.packVector s.elementsDistribution ++ (Esutils.packVector s.ecounters ++
    (Esutils.packVector s.eintervals ++ packItems s.data.1))))))))))

/-- `ElementStore::unpack`: the first `size` codes are looked up in `_eclasses[0]`. -/
def unpack (s : ElementStore) (p : List UInt8) : Option (ElementStore × List UInt8) := do
  let (size, p) ← Bytes.read Int32 p
  let (nodes, p) ← SerializedData.unpack p
  let (eindices, p) ← Esutils.unpackVector (α := Int32) .empty p
  let (firstDomain, p) ← Bytes.read Int32 p
  let (ndomains, p) ← Bytes.read Int32 p
  let (nclusters, p) ← Bytes.read Int32 p
  let (clusters, p) ← Esutils.unpackVector s.clusters p
  let (elementsDistribution, p) ← Esutils.unpackVector s.elementsDistribution p
  let (ecounters, p) ← Esutils.unpackVector s.ecounters p
  let (eintervals, p) ← Esutils.unpackVector s.eintervals p
  let (data, p) ← unpackItems StdVector.empty s.data.1 p
  if h : data.length < 2 ^ 64 ∧ size.toInt.toNat ≤ eindices.1.length then
    some (⟨size, some nodes, some [eindices.1.take size.toInt.toNat], firstDomain, ndomains,
      nclusters, clusters, elementsDistribution, ecounters, eintervals, ⟨data, h.1⟩⟩, p)
  else none

/-- The packed fields. -/
structure Contents where
  size : Int32
  nodes : Option (Int32 × List Int32 × List Int32)
  epointers : Option (List Int32)
  domains : Int32 × Int32 × Int32
  clusters : List Int32
  elementsDistribution : List Int32
  ecounters : List Int32
  eintervals : List ElementsInterval
  data : List (Int32 × StdVector StdString)

def contents (s : ElementStore) : Contents where
  size := s.size
  nodes := s.nodes.map SerializedData.contents
  epointers := s.epointers.map List.flatten
  domains := (s.firstDomain, s.ndomains, s.nclusters)
  clusters := s.clusters.1
  elementsDistribution := s.elementsDistribution.1
  ecounters := s.ecounters.1
  eintervals := s.eintervals.1
  data := (named s.data.1).map head

/-- **A transfer**: `pack` writes `packedSize` bytes, `unpack` reads exactly these bytes, and the
target has the packed fields of the source. -/
def Transferred (s target : ElementStore) : Prop :=
  ∃ p result, s.pack = some p ∧ s.packedSize = some p.length ∧
    (∀ rest, target.unpack (p ++ rest) = some (result, rest)) ∧ result.contents = s.contents

/-- **The condition on a target.** -/
structure Receives (s target : ElementStore) : Prop where
  clusters : Esutils.Receives s.clusters target.clusters
  elementsDistribution : Esutils.Receives s.elementsDistribution target.elementsDistribution
  ecounters : Esutils.Receives s.ecounters target.ecounters
  eintervals : Esutils.Receives s.eintervals target.eintervals
  data : StoreData.Receives s.data.1 target.data.1

/-- The store is set up: there are no null pointers, and the element types are those of `size`
elements. -/
def Allocated (s : ElementStore) : Prop :=
  s.nodes.isSome ∧ ∃ epointers, s.epointers = some epointers ∧
    s.size.toInt = epointers.flatten.length

lemma length_pack {s : ElementStore} {p : List UInt8} (h : s.pack = some p) :
    s.packedSize = some p.length := by
  simp only [pack, eindices, Option.bind_eq_bind, Option.bind_eq_some_iff, Option.some.injEq] at h
  obtain ⟨nodes, hnodes, epointers, hepointers, codes, hcodes, rfl⟩ := h
  split_ifs at hcodes
  cases hcodes
  simp only [packedSize, hnodes, hepointers, Option.bind_eq_bind, Option.bind_some,
    List.length_append, Plain.length_bytes, SerializedData.length_pack, Esutils.length_packVector,
    length_packItems, Esutils.packedSizeVector, Option.some.injEq]
  ring

/-- The target behind `unpack`, with the given data. -/
def received (s target : ElementStore) (data : StdVector (StoreData (StdVector Double))) :
    ElementStore where
  size := s.size
  nodes := s.nodes.map SerializedData.received
  epointers := s.epointers.map fun epointers => [epointers.flatten]
  firstDomain := s.firstDomain
  ndomains := s.ndomains
  nclusters := s.nclusters
  clusters := Esutils.kept target.clusters s.clusters
  elementsDistribution := Esutils.kept target.elementsDistribution s.elementsDistribution
  ecounters := Esutils.kept target.ecounters s.ecounters
  eintervals := Esutils.kept target.eintervals s.eintervals
  data := data

lemma unpack_append {s : ElementStore} {p : List UInt8} (halloc : s.Allocated)
    (h : s.pack = some p) (target : ElementStore) (rest : List UInt8) :
    target.unpack (p ++ rest) =
      (unpackItems StdVector.empty target.data.1 (packItems s.data.1 ++ rest)).bind fun r =>
        if hdata : r.1.length < 2 ^ 64 then some (s.received target ⟨r.1, hdata⟩, r.2)
        else none := by
  obtain ⟨-, epointers', hepointers', hsize⟩ := halloc
  simp only [pack, eindices, Option.bind_eq_bind, Option.bind_eq_some_iff, Option.some.injEq] at h
  obtain ⟨nodes, hnodes, epointers, hepointers, codes, hcodes, rfl⟩ := h
  cases hepointers.symm.trans hepointers'
  split_ifs at hcodes
  cases hcodes
  simp only [received, hnodes, hepointers, Option.map_some, List.append_assoc]
  refine (bind_of_eq_some (read_append _ _) _).trans ?_
  refine (bind_of_eq_some (SerializedData.unpack_append _ _) _).trans ?_
  refine (bind_of_eq_some (Esutils.unpackVector_append _ _ _) _).trans ?_
  refine (bind_of_eq_some (read_append _ _) _).trans ?_
  refine (bind_of_eq_some (read_append _ _) _).trans ?_
  refine (bind_of_eq_some (read_append _ _) _).trans ?_
  refine (bind_of_eq_some (Esutils.unpackVector_append _ _ _) _).trans ?_
  refine (bind_of_eq_some (Esutils.unpackVector_append _ _ _) _).trans ?_
  refine (bind_of_eq_some (Esutils.unpackVector_append _ _ _) _).trans ?_
  refine (bind_of_eq_some (Esutils.unpackVector_append _ _ _) _).trans ?_
  have hcount : s.size.toInt.toNat = epointers'.flatten.length := by rw [hsize, Int.toNat_natCast]
  refine congrArg (Option.bind _) (funext fun r => ?_)
  simp only [Esutils.kept_empty, hcount, le_refl, and_true, List.take_length]

lemma pack_isSome {s : ElementStore} (h : s.Allocated) : ∃ p, s.pack = some p := by
  obtain ⟨hnodes, epointers, hepointers, hsize⟩ := h
  obtain ⟨nodes, hnodes⟩ := Option.isSome_iff_exists.mp hnodes
  have hlen : epointers.flatten.length < 2 ^ 64 := by
    have hlt := s.size.toInt_lt
    omega
  simp only [pack, eindices, hnodes, hepointers, dif_pos hlen, Option.bind_eq_bind,
    Option.bind_some, Option.some.injEq, exists_eq']

lemma transferred_of_receives {s target : ElementStore} (halloc : s.Allocated)
    (h : Receives s target) : Transferred s target := by
  obtain ⟨p, hp⟩ := pack_isSome halloc
  obtain ⟨data, hlen, hread, hdata⟩ :=
    unpackItems_of_receives StdVector.empty s.data.2 target.data.2 h.data
  refine ⟨p, s.received target ⟨data, hlen⟩, hp, length_pack hp, fun rest => ?_, ?_⟩
  · rw [unpack_append halloc hp, hread, Option.bind_some, dif_pos hlen]
  · have hcodes : (fun epointers : List (List Int32) => [epointers.flatten].flatten) =
        List.flatten := by
      funext epointers
      exact List.flatten_singleton
    simp only [contents, received, Esutils.kept_eq_iff.mpr h.clusters,
      Esutils.kept_eq_iff.mpr h.elementsDistribution, Esutils.kept_eq_iff.mpr h.ecounters,
      Esutils.kept_eq_iff.mpr h.eintervals, Option.map_map, Function.comp_def, hcodes, hdata]
    rfl

lemma receives_of_transferred {s target : ElementStore} (halloc : s.Allocated)
    (hnames : ∀ d ∈ s.data.1, d.names.1.length < 2 ^ 32) (h : Transferred s target) :
    Receives s target := by
  obtain ⟨p, result, hp, -, hread, hcontents⟩ := h
  have hunpack := hread []
  rw [unpack_append halloc hp, Option.bind_eq_some_iff] at hunpack
  obtain ⟨⟨data, q⟩, hitems, hunpack⟩ := hunpack
  split_ifs at hunpack with hlen
  cases hunpack
  simp only [contents, received, Contents.mk.injEq] at hcontents
  obtain ⟨-, -, -, -, hclusters, hdistribution, hecounters, heintervals, hdata⟩ := hcontents
  exact ⟨Esutils.kept_eq_iff.mp (Subtype.ext hclusters),
    Esutils.kept_eq_iff.mp (Subtype.ext hdistribution),
    Esutils.kept_eq_iff.mp (Subtype.ext hecounters),
    Esutils.kept_eq_iff.mp (Subtype.ext heintervals),
    receives_of_unpackItems s.data.2 hnames hitems hdata⟩

end ElementStore

end Espreso.Packing
