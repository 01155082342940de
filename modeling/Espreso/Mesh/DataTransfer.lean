import Espreso.Lib.Fallible
import Espreso.Mesh.StorePacking
import Mathlib.Data.List.Forall2

/-!
# Transfers of the values of the named data

* `VectorField`, `unpackVectors` — a loop of `unpackData` over the data of the target.
* **`transfers_iff`** — exactly when the transfers of stores and of sequences of values are right.
-/

namespace Espreso.Packing

open Bytes StoreData

/-! ## Loops over the data -/

/-- A vector of the values of an item; `none` of `get` is a null pointer. -/
structure VectorField (β γ : Type) where
  get : StoreData β → Option (StdVector γ)
  set : StoreData β → StdVector γ → StoreData β
  get_set : ∀ t v, get (set t v) = some v
  head_set : ∀ t v, (set t v).head = t.head

/-- The vectors behind a loop over the vectors `olds`. -/
def keptAll {γ : Type} (olds : List (Option (StdVector γ))) (vs : List (StdVector γ)) :
    List (Option (StdVector γ)) :=
  List.zipWith (fun o v => o.map fun old => Esutils.kept old v) olds vs

def ReceivesAll {γ : Type} (olds : List (Option (StdVector γ))) (vs : List (StdVector γ)) : Prop :=
  List.Forall₂ (fun o v => ∀ old, o = some old → Esutils.Receives v old) olds vs

/-- **What is read of the vectors behind a loop**: the values of the source, if no vector is packed
empty over another one and the elements stand for the same values on both sides. -/
lemma map_keptAll_iff {γ δ : Type} (targetMemory memory : γ → δ) :
    ∀ {olds : List (Option (StdVector γ))} {vs : List (StdVector γ)}, olds.length = vs.length →
      (∀ o ∈ olds, o.isSome) →
      ((keptAll olds vs).map (fun o => o.map fun v => v.1.map targetMemory) =
          vs.map (fun v => some (v.1.map memory)) ↔
        ReceivesAll olds vs ∧ ∀ v ∈ vs, ∀ h ∈ v.1, targetMemory h = memory h)
  | [], vs, hlen, _ => by
    obtain rfl := List.length_eq_zero_iff.mp hlen.symm
    simp [keptAll, ReceivesAll]
  | o :: olds, [], hlen, _ => by simp at hlen
  | o :: olds, v :: vs, hlen, ho => by
    obtain ⟨old, rfl⟩ := Option.isSome_iff_exists.mp (ho o List.mem_cons_self)
    have htail := map_keptAll_iff targetMemory memory (Nat.succ.inj hlen)
      fun o ho' => ho o (List.mem_cons_of_mem _ ho')
    rw [keptAll, ReceivesAll] at htail ⊢
    rw [List.zipWith_cons_cons, List.map_cons, List.map_cons, List.cons.injEq, List.forall₂_cons,
      htail, List.forall_mem_cons]
    simp only [Option.map_some, Option.some.injEq, forall_eq', Esutils.map_kept_eq_iff]
    tauto

lemma keptAll_eq {γ : Type} {olds : List (Option (StdVector γ))} {vs : List (StdVector γ)}
    (hlen : olds.length = vs.length) (ho : ∀ o ∈ olds, o.isSome) (h : ReceivesAll olds vs) :
    keptAll olds vs = vs.map some := by
  have hvalues := (map_keptAll_iff id id hlen ho).mpr ⟨h, fun _ _ _ _ => rfl⟩
  simp only [List.map_id_fun, id_eq] at hvalues
  have hinj : Function.Injective (Option.map (Subtype.val : StdVector γ → List γ)) :=
    Option.map_injective Subtype.val_injective
  refine List.map_injective_iff.mpr hinj ?_
  rw [List.map_map]
  exact hvalues

namespace VectorField

variable {β γ : Type} (f : VectorField β γ)

/-- A loop of `unpackData`: the vectors of the items that are not skipped are unpacked. -/
def unpackVectors [Plain γ] (skip : StoreData β → Prop) [DecidablePred skip] :
    (data : List (StoreData β)) → List UInt8 →
      Option ({ r : List (StoreData β) // r.length = data.length } × List UInt8)
  | [], p => some (⟨[], rfl⟩, p)
  | d :: data, p => do
    let (d, p) ←
      if skip d then some (d, p)
      else do
        let old ← f.get d
        let (v, p) ← Esutils.unpackVector old p
        some (f.set d v, p)
    let (data, p) ← unpackVectors skip data p
    some (⟨d :: data.1, by rw [List.length_cons, data.2, List.length_cons]⟩, p)

def update (t : StoreData β) (v : StdVector γ) : StoreData β :=
  match f.get t with
  | none => t
  | some old => f.set t (Esutils.kept old v)

def updateAll (ts : List (StoreData β)) (vs : List (StdVector γ)) : List (StoreData β) :=
  List.zipWith f.update ts vs

variable {f}

lemma unpackVectors_append [Plain γ] (skip : StoreData β → Prop) [DecidablePred skip] :
    ∀ {ts : List (StoreData β)} {vs : List (StdVector γ)}, ts.length = vs.length →
      (∀ t ∈ ts, ¬ skip t ∧ (f.get t).isSome) →
      ∃ r : { r : List (StoreData β) // r.length = ts.length }, r.1 = f.updateAll ts vs ∧
        ∀ rest, f.unpackVectors skip ts (vs.flatMap Esutils.packVector ++ rest) = some (r, rest)
  | [], vs, hlen, _ => by
    obtain rfl := List.length_eq_zero_iff.mp hlen.symm
    exact ⟨⟨[], rfl⟩, rfl, fun rest => rfl⟩
  | t :: ts, [], hlen, _ => by simp at hlen
  | t :: ts, v :: vs, hlen, ht => by
    obtain ⟨hskip, hget⟩ := ht t List.mem_cons_self
    obtain ⟨old, hold⟩ := Option.isSome_iff_exists.mp hget
    obtain ⟨r, hr, hread⟩ := unpackVectors_append skip (Nat.succ.inj hlen)
      fun t ht' => ht t (List.mem_cons_of_mem _ ht')
    refine ⟨⟨f.set t (Esutils.kept old v) :: r.1, by rw [List.length_cons, r.2, List.length_cons]⟩,
      ?_, fun rest => ?_⟩
    · change f.set t (Esutils.kept old v) :: r.1 = _
      rw [updateAll, List.zipWith_cons_cons, update, hold, hr]
      rfl
    · simp only [unpackVectors, if_neg hskip, hold, List.flatMap_cons, List.append_assoc,
        Esutils.unpackVector_append, hread, Option.bind_eq_bind, Option.bind_some]

lemma map_updateAll {ε : Type} {g : StoreData β → ε} (hg : ∀ t v, g (f.set t v) = g t) :
    ∀ {ts : List (StoreData β)} {vs : List (StdVector γ)}, ts.length = vs.length →
      (f.updateAll ts vs).map g = ts.map g
  | [], vs, _ => by rw [updateAll, List.zipWith_nil_left]
  | t :: ts, [], hlen => by simp at hlen
  | t :: ts, v :: vs, hlen => by
    have hfirst : g (f.update t v) = g t := by
      rw [update]
      split
      · rfl
      · exact hg t _
    have htail := map_updateAll hg (Nat.succ.inj hlen)
    rw [updateAll] at htail ⊢
    rw [List.zipWith_cons_cons, List.map_cons, List.map_cons, hfirst, htail]

lemma map_get_updateAll :
    ∀ {ts : List (StoreData β)} {vs : List (StdVector γ)}, ts.length = vs.length →
      (f.updateAll ts vs).map f.get = keptAll (ts.map f.get) vs
  | [], vs, _ => by rw [updateAll, List.zipWith_nil_left]; rfl
  | t :: ts, [], hlen => by simp at hlen
  | t :: ts, v :: vs, hlen => by
    have hfirst : f.get (f.update t v) = (f.get t).map fun old => Esutils.kept old v := by
      rw [update]
      split
      · next h => rw [h]; rfl
      · next h => rw [h, f.get_set]; rfl
    have htail := map_get_updateAll (Nat.succ.inj hlen)
    rw [updateAll] at htail ⊢
    rw [List.zipWith_cons_cons, List.map_cons, List.map_cons, hfirst, htail]
    rfl

/-- The vectors of a loop that is run if `flag` is set. -/
def packIf [Plain γ] (flag : Bool) (vs : List (StdVector γ)) : List UInt8 :=
  if flag then vs.flatMap Esutils.packVector else []

variable (f) in
/-- A loop that is run if `flag` is set. -/
def unpackIf [Plain γ] (flag : Bool) (skip : StoreData β → Prop) [DecidablePred skip]
    (data : List (StoreData β)) (p : List UInt8) :
    Option ({ r : List (StoreData β) // r.length = data.length } × List UInt8) :=
  if flag then f.unpackVectors skip data p else some (⟨data, rfl⟩, p)

variable (f) in
/-- The items behind a loop that is run if `flag` is set. -/
def updateIf (flag : Bool) (ts : List (StoreData β)) (vs : List (StdVector γ)) :
    List (StoreData β) :=
  if flag then f.updateAll ts vs else ts

lemma unpackIf_append [Plain γ] (flag : Bool) (skip : StoreData β → Prop) [DecidablePred skip]
    {ts : List (StoreData β)} {vs : List (StdVector γ)} (hlen : ts.length = vs.length)
    (ht : ∀ t ∈ ts, ¬ skip t ∧ (f.get t).isSome) :
    ∃ r : { r : List (StoreData β) // r.length = ts.length }, r.1 = f.updateIf flag ts vs ∧
      ∀ rest, f.unpackIf flag skip ts (packIf flag vs ++ rest) = some (r, rest) := by
  cases flag with
  | false => exact ⟨⟨ts, rfl⟩, rfl, fun rest => rfl⟩
  | true => exact unpackVectors_append skip hlen ht

lemma map_updateIf {ε : Type} {g : StoreData β → ε} (hg : ∀ t v, g (f.set t v) = g t) (flag : Bool)
    {ts : List (StoreData β)} {vs : List (StdVector γ)} (hlen : ts.length = vs.length) :
    (f.updateIf flag ts vs).map g = ts.map g := by
  cases flag with
  | false => rfl
  | true => exact map_updateAll hg hlen

lemma map_get_updateIf (flag : Bool) {ts : List (StoreData β)} {vs : List (StdVector γ)}
    (hlen : ts.length = vs.length) :
    (f.updateIf flag ts vs).map f.get =
      if flag then keptAll (ts.map f.get) vs else ts.map f.get := by
  cases flag with
  | false => rfl
  | true => exact map_get_updateAll hlen

end VectorField

lemma map_some_eq_iff {α γ δ : Type} {xs : List α} {ys : List γ} {f : α → δ} {g : γ → δ} :
    xs.map (fun x => some (f x)) = ys.map (fun y => some (g y)) ↔ xs.map f = ys.map g := by
  have hf : xs.map (fun x => some (f x)) = (xs.map f).map some := (List.map_map).symm
  have hg : ys.map (fun y => some (g y)) = (ys.map g).map some := (List.map_map).symm
  rw [hf, hg]
  exact (List.map_injective_iff.mpr (Option.some_injective δ)).eq_iff

/-! ## `ElementStore` -/

namespace ElementStore

/-- The vector of `ElementData`. -/
def valuesField : VectorField (StdVector Double) Double where
  get d := some d.values
  set d v := { d with values := v }
  get_set _ _ := rfl
  head_set _ _ := rfl

def packedValues (s : ElementStore) : List (StdVector Double) :=
  (named s.data.1).map StoreData.values

def heldValues (s : ElementStore) : List (Option (StdVector Double)) :=
  s.data.1.map valuesField.get

/-- `ElementStore::packedDataSize` -/
def packedDataSize (s : ElementStore) : ℕ := (s.packedValues.map Esutils.packedSizeVector).sum

/-- `ElementStore::packData` -/
def packData (s : ElementStore) : List UInt8 := s.packedValues.flatMap Esutils.packVector

/-- `ElementStore::unpackData` -/
def unpackData (s : ElementStore) (p : List UInt8) : Option (ElementStore × List UInt8) := do
  let (data, p) ← valuesField.unpackVectors (fun _ => False) s.data.1 p
  some ({ s with data := ⟨data.1, by rw [data.2]; exact s.data.2⟩ }, p)

/-- The stores match: the target has the named data of the source. -/
def Matches (s target : ElementStore) : Prop :=
  target.data.1.map head = (named s.data.1).map head

/-- **A transfer of values**, with the target behind it. -/
structure DataTransferred (s target result : ElementStore) : Prop where
  size : s.packData.length = s.packedDataSize
  unpacked : ∀ rest, target.unpackData (s.packData ++ rest) = some (result, rest)
  heads : result.data.1.map head = target.data.1.map head
  values : result.data.1.map (fun d => d.values.1) = s.packedValues.map Subtype.val

lemma length_packData (s : ElementStore) : s.packData.length = s.packedDataSize := by
  rw [packData, List.length_flatMap, packedDataSize]
  simp only [Esutils.length_packVector]

lemma Matches.length_eq {s target : ElementStore} (h : Matches s target) :
    target.data.1.length = s.packedValues.length := by
  have hlen := congrArg List.length h
  rw [List.length_map, List.length_map] at hlen
  rw [hlen, packedValues, List.length_map]

lemma heldValues_isSome {s : ElementStore} : ∀ o ∈ s.heldValues, o.isSome := by
  intro o ho
  obtain ⟨d, -, rfl⟩ := List.mem_map.mp ho
  rfl

lemma unpackData_append {s target : ElementStore} (h : Matches s target) :
    ∃ result, (∀ rest, target.unpackData (s.packData ++ rest) = some (result, rest)) ∧
      result.data.1.map head = target.data.1.map head ∧
      result.heldValues = keptAll target.heldValues s.packedValues := by
  obtain ⟨r, hr, hread⟩ := VectorField.unpackVectors_append (f := valuesField)
    (fun _ => False) h.length_eq fun _ _ => ⟨not_false, rfl⟩
  refine ⟨{ target with data := ⟨r.1, by rw [r.2]; exact target.data.2⟩ }, fun rest => ?_, ?_, ?_⟩
  · simp only [unpackData, packData, hread, Option.bind_eq_bind, Option.bind_some]
  · rw [hr]
    exact VectorField.map_updateAll valuesField.head_set h.length_eq
  · rw [heldValues, hr]
    exact VectorField.map_get_updateAll h.length_eq

/-- **One transfer**: the vectors arrive in their order, each one if it is not packed empty over
another one. -/
lemma dataTransferred_iff {s target result : ElementStore} (h : Matches s target)
    (hread : ∀ rest, target.unpackData (s.packData ++ rest) = some (result, rest)) :
    DataTransferred s target result ↔ ReceivesAll target.heldValues s.packedValues := by
  obtain ⟨result', hread', hheads, hheld⟩ := unpackData_append h
  cases (hread []).symm.trans (hread' [])
  have hlen : target.heldValues.length = s.packedValues.length := by
    rw [heldValues, List.length_map, h.length_eq]
  have hvalues := map_keptAll_iff id id hlen heldValues_isSome
  rw [← hheld] at hvalues
  simp only [id_eq, implies_true, and_true, List.map_id_fun, heldValues, List.map_map,
    valuesField, Function.comp_def, Option.map_some, map_some_eq_iff] at hvalues
  constructor
  · rintro ⟨-, -, -, hvals⟩
    exact hvalues.mp (hvals.trans (List.map_congr_left fun _ _ => rfl))
  · intro hreceives
    exact ⟨s.length_packData, hread, hheads,
      (hvalues.mpr hreceives).trans (List.map_congr_left fun _ _ => rfl)⟩

def Transfers : ElementStore → List ElementStore → Prop
  | _, [] => True
  | target, s :: ss => ∃ result, DataTransferred s target result ∧ Transfers result ss

/-- **The condition on a sequence of transfers** over the given vectors: no vector is packed empty
right after it was not. -/
def AllReceive : List (Option (StdVector Double)) → List ElementStore → Prop
  | _, [] => True
  | olds, s :: ss => ReceivesAll olds s.packedValues ∧ AllReceive (s.packedValues.map some) ss

lemma transfers_iff_allReceive :
    ∀ {ss : List ElementStore} {target : ElementStore}, (∀ s ∈ ss, Matches s target) →
      (Transfers target ss ↔ AllReceive target.heldValues ss)
  | [], _, _ => Iff.rfl
  | s :: ss, target, h => by
    have hmatch := h s List.mem_cons_self
    obtain ⟨result, hread, hheads, hheld⟩ := unpackData_append hmatch
    have hstep := dataTransferred_iff hmatch hread
    have hlen : target.heldValues.length = s.packedValues.length := by
      rw [heldValues, List.length_map, hmatch.length_eq]
    have hrest : ReceivesAll target.heldValues s.packedValues →
        (Transfers result ss ↔ AllReceive (s.packedValues.map some) ss) := by
      intro hreceives
      rw [transfers_iff_allReceive fun s' hs' => hheads.trans (h s' (List.mem_cons_of_mem _ hs')),
        hheld, keptAll_eq hlen heldValues_isSome hreceives]
    rw [Transfers, AllReceive]
    constructor
    · rintro ⟨result', hdata, htransfers⟩
      cases (hdata.unpacked []).symm.trans (hread [])
      exact ⟨hstep.mp hdata, (hrest (hstep.mp hdata)).mp htransfers⟩
    · rintro ⟨hreceives, hall⟩
      exact ⟨result, hstep.mpr hreceives, (hrest hreceives).mpr hall⟩

end ElementStore

/-! ## `NodeStore` -/

/-- A state of a node store that is sent, the memory of its process, and the memory of the process
that receives it. -/
structure NodeTransfer where
  store : NodeStore
  memory : Memory Double
  targetMemory : Memory Double

namespace NodeStore

/-- `NodeData::gatheredData` -/
def gatheredField : VectorField NodeValues Double where
  get d := some d.values.gatheredData
  set d v := { d with values := { d.values with gatheredData := v } }
  get_set _ _ := rfl
  head_set _ _ := rfl

/-- `NodeData::decomposedData` -/
def decomposedField : VectorField NodeValues Header where
  get d := d.values.decomposedData
  set d v := { d with values := { d.values with decomposedData := some v } }
  get_set _ _ := rfl
  head_set _ _ := rfl

def packedGathered (s : NodeStore) : List (StdVector Double) :=
  (named s.data.1).map fun d => d.values.gatheredData

def packedDecomposed (s : NodeStore) : Option (List (StdVector Header)) :=
  (named s.data.1).mapM fun d => d.values.decomposedData

def heldGathered (s : NodeStore) : List (Option (StdVector Double)) :=
  s.data.1.map gatheredField.get

def heldDecomposed (s : NodeStore) : List (Option (StdVector Header)) :=
  s.data.1.map decomposedField.get

def decomposedIf (distributed : Bool) (s : NodeStore) : Option (List (StdVector Header)) :=
  if distributed then s.packedDecomposed else some []

/-- `NodeStore::packedDataSize` -/
def packedDataSize (collected distributed : Bool) (s : NodeStore) : Option ℕ := do
  let decomposed ← decomposedIf distributed s
  some ((if collected then (s.packedGathered.map Esutils.packedSizeVector).sum else 0) +
    (decomposed.map Esutils.packedSizeVector).sum)

/-- `NodeStore::packData` -/
def packData (collected distributed : Bool) (s : NodeStore) : Option (List UInt8) := do
  let decomposed ← decomposedIf distributed s
  some (VectorField.packIf collected s.packedGathered ++ decomposed.flatMap Esutils.packVector)

/-- `NodeStore::unpackData` -/
def unpackData (collected distributed : Bool) (s : NodeStore) (p : List UInt8) :
    Option (NodeStore × List UInt8) := do
  let (gathered, p) ← gatheredField.unpackIf collected (fun _ => False) s.data.1 p
  let (data, p) ← decomposedField.unpackIf distributed (fun d => d.names.1 = []) gathered.1 p
  some ({ s with data := ⟨data.1, by rw [data.2, gathered.2]; exact s.data.2⟩ }, p)

/-- The stores match: the target has the named data of the source, with decomposed data. -/
structure Matches (s target : NodeStore) : Prop where
  heads : target.data.1.map head = (named s.data.1).map head
  decomposed : ∀ o ∈ target.heldDecomposed, o.isSome

/-- **A transfer of values**, with the target behind it. -/
structure DataTransferred (collected distributed : Bool) (t : NodeTransfer)
    (target result : NodeStore) : Prop where
  unpacked : ∃ p, t.store.packData collected distributed = some p ∧
    t.store.packedDataSize collected distributed = some p.length ∧
    ∀ rest, target.unpackData collected distributed (p ++ rest) = some (result, rest)
  heads : result.data.1.map head = target.data.1.map head
  gathered : collected →
    result.data.1.map (fun d => d.values.gatheredData.1) = t.store.packedGathered.map Subtype.val
  decomposed : distributed →
    result.data.1.map (fun d => d.values.decomposedData.map fun v => v.1.map t.targetMemory) =
      (named t.store.data.1).map fun d => d.values.decomposedData.map fun v => v.1.map t.memory

/-- **The condition on a transfer of values** over the given vectors. -/
def DataReceives (collected distributed : Bool) (gs : List (Option (StdVector Double)))
    (ds : List (Option (StdVector Header))) (t : NodeTransfer) : Prop :=
  (collected → ReceivesAll gs t.store.packedGathered) ∧
  (distributed → ∃ vs, t.store.packedDecomposed = some vs ∧ ReceivesAll ds vs ∧
    ∀ v ∈ vs, ∀ h ∈ v.1, t.targetMemory h = t.memory h)

lemma length_packData {collected distributed : Bool} {s : NodeStore} {p : List UInt8}
    (h : s.packData collected distributed = some p) :
    s.packedDataSize collected distributed = some p.length := by
  simp only [packData, Option.bind_eq_bind, Option.bind_eq_some_iff, Option.some.injEq] at h
  obtain ⟨decomposed, hdecomposed, rfl⟩ := h
  simp only [packedDataSize, hdecomposed, Option.bind_eq_bind, Option.bind_some, List.length_append,
    VectorField.packIf, List.length_flatMap, Esutils.length_packVector, Option.some.injEq]
  cases collected with
  | false => rfl
  | true => simp only [if_true, List.length_flatMap, Esutils.length_packVector]

lemma decomposedIf_eq_some {distributed : Bool} {s : NodeStore} {ds : List (StdVector Header)}
    (h : decomposedIf distributed s = some ds) :
    ∃ vs, vs.length = (named s.data.1).length ∧
      ds.flatMap Esutils.packVector = VectorField.packIf distributed vs ∧
      (distributed → s.packedDecomposed = some vs) := by
  cases distributed with
  | false =>
    refine ⟨List.replicate _ .empty, List.length_replicate, ?_, fun h => by cases h⟩
    cases h
    rfl
  | true =>
    have hlen := congrArg List.length (Fallible.mapM_eq_some_iff.mp h)
    rw [List.length_map, List.length_map] at hlen
    exact ⟨ds, hlen.symm, rfl, fun _ => h⟩

lemma Matches.length_eq {s target : NodeStore} (h : Matches s target) :
    target.data.1.length = (named s.data.1).length := by
  have hlen := congrArg List.length h.heads
  rwa [List.length_map, List.length_map] at hlen

lemma forall_of_map_eq {α δ : Type} {g : α → δ} {xs ys : List α} (h : xs.map g = ys.map g)
    {P : δ → Prop} (hP : ∀ o ∈ ys.map g, P o) : ∀ x ∈ xs, P (g x) := by
  intro x hx
  exact hP _ (h ▸ List.mem_map_of_mem hx)

lemma unpackData_append {collected distributed : Bool} {s target : NodeStore} {p : List UInt8}
    (h : Matches s target) (hp : s.packData collected distributed = some p) :
    ∃ (vs : List (StdVector Header)) (result : NodeStore),
      vs.length = (named s.data.1).length ∧ (distributed → s.packedDecomposed = some vs) ∧
      (∀ rest, target.unpackData collected distributed (p ++ rest) = some (result, rest)) ∧
      result.data.1.map head = target.data.1.map head ∧
      result.heldGathered =
        (if collected then keptAll target.heldGathered s.packedGathered else target.heldGathered) ∧
      result.heldDecomposed =
        if distributed then keptAll target.heldDecomposed vs else target.heldDecomposed := by
  simp only [packData, Option.bind_eq_bind, Option.bind_eq_some_iff, Option.some.injEq] at hp
  obtain ⟨ds, hds, rfl⟩ := hp
  obtain ⟨vs, hvs, hpack, hdistributed⟩ := decomposedIf_eq_some hds
  have hlen₁ : target.data.1.length = s.packedGathered.length := by
    rw [h.length_eq, packedGathered, List.length_map]
  obtain ⟨r₁, hr₁, hread₁⟩ := VectorField.unpackIf_append (f := gatheredField) collected
    (fun _ => False) hlen₁ fun _ _ => ⟨not_false, rfl⟩
  -- the first loop leaves the names and the decomposed data
  have hheads₁ : r₁.1.map head = target.data.1.map head := by
    rw [hr₁, VectorField.map_updateIf gatheredField.head_set collected hlen₁]
  have hdecomposed₁ : r₁.1.map decomposedField.get = target.heldDecomposed := by
    rw [hr₁]
    exact VectorField.map_updateIf (fun _ _ => rfl) collected hlen₁
  have hnamed : ∀ d ∈ r₁.1, d.head.2.1 ≠ [] := by
    refine forall_of_map_eq (P := fun o => o.2.1 ≠ []) hheads₁ fun o ho => ?_
    rw [h.heads] at ho
    obtain ⟨d, hd, rfl⟩ := List.mem_map.mp ho
    exact of_decide_eq_true (List.mem_filter.mp hd).2
  have hlen₂ : r₁.1.length = vs.length := by rw [r₁.2, h.length_eq, hvs]
  obtain ⟨r₂, hr₂, hread₂⟩ := VectorField.unpackIf_append (f := decomposedField) distributed
    (fun d => d.names.1 = []) hlen₂
    fun d hd => ⟨hnamed d hd, forall_of_map_eq hdecomposed₁ h.decomposed d hd⟩
  refine ⟨vs, { target with data := ⟨r₂.1, by rw [r₂.2, r₁.2]; exact target.data.2⟩ }, hvs,
    hdistributed, fun rest => ?_, ?_, ?_, ?_⟩
  · simp only [unpackData, hpack, List.append_assoc, hread₁, hread₂, Option.bind_eq_bind,
      Option.bind_some]
  · rw [hr₂, VectorField.map_updateIf decomposedField.head_set distributed hlen₂, hheads₁]
  -- the second loop leaves the gathered data
  · have hkeep : r₂.1.map gatheredField.get = r₁.1.map gatheredField.get := by
      rw [hr₂]
      exact VectorField.map_updateIf (fun _ _ => rfl) distributed hlen₂
    rw [heldGathered, hkeep, hr₁, VectorField.map_get_updateIf collected hlen₁]
    rfl
  · rw [heldDecomposed, hr₂, VectorField.map_get_updateIf distributed hlen₂, hdecomposed₁]

/-- **One transfer**: the vectors arrive in their order, each one if it is not packed empty over
another one and, for the decomposed data, if the target finds the same values in its memory. -/
lemma dataTransferred_iff {collected distributed : Bool} {t : NodeTransfer}
    {target result : NodeStore} {p : List UInt8} (h : Matches t.store target)
    (hp : t.store.packData collected distributed = some p)
    (hread : ∀ rest, target.unpackData collected distributed (p ++ rest) = some (result, rest)) :
    DataTransferred collected distributed t target result ↔
      DataReceives collected distributed target.heldGathered target.heldDecomposed t := by
  obtain ⟨vs, result', hvs, hdistributed, hread', hheads, hgathered, hdecomposed⟩ :=
    unpackData_append h hp
  cases (hread []).symm.trans (hread' [])
  have hfirst : (collected → result.data.1.map (fun d => d.values.gatheredData.1) =
        t.store.packedGathered.map Subtype.val) ↔
      (collected → ReceivesAll target.heldGathered t.store.packedGathered) := by
    refine imp_congr_right fun hc => ?_
    have hlen : target.heldGathered.length = t.store.packedGathered.length := by
      rw [heldGathered, List.length_map, h.length_eq, packedGathered, List.length_map]
    have hvalues := map_keptAll_iff id id hlen fun o ho => by
      obtain ⟨d, -, rfl⟩ := List.mem_map.mp ho
      rfl
    rw [if_pos hc] at hgathered
    rw [← hgathered] at hvalues
    simp only [id_eq, implies_true, and_true, List.map_id_fun, heldGathered, List.map_map,
      gatheredField, Function.comp_def, Option.map_some, map_some_eq_iff] at hvalues
    exact hvalues
  have hsecond : (distributed →
        result.data.1.map (fun d => d.values.decomposedData.map fun v => v.1.map t.targetMemory) =
          (named t.store.data.1).map fun d => d.values.decomposedData.map fun v => v.1.map t.memory) ↔
      (distributed → ∃ vs, t.store.packedDecomposed = some vs ∧
        ReceivesAll target.heldDecomposed vs ∧
        ∀ v ∈ vs, ∀ h ∈ v.1, t.targetMemory h = t.memory h) := by
    refine imp_congr_right fun hd => ?_
    have hlen : target.heldDecomposed.length = vs.length := by
      rw [heldDecomposed, List.length_map, h.length_eq, hvs]
    have hvalues := map_keptAll_iff t.targetMemory t.memory hlen h.decomposed
    rw [if_pos hd] at hdecomposed
    rw [← hdecomposed, heldDecomposed, List.map_map] at hvalues
    have hsource : (named t.store.data.1).map
          (fun d => d.values.decomposedData.map fun v => v.1.map t.memory) =
        vs.map fun v => some (v.1.map t.memory) := by
      have hmap := congrArg (List.map (Option.map fun v : StdVector Header => v.1.map t.memory))
        (Fallible.mapM_eq_some_iff.mp (hdistributed hd))
      rw [List.map_map, List.map_map] at hmap
      exact hmap
    rw [hsource]
    refine hvalues.trans ⟨fun h => ⟨vs, hdistributed hd, h⟩, ?_⟩
    rintro ⟨vs', hvs', h⟩
    cases hvs'.symm.trans (hdistributed hd)
    exact h
  constructor
  · rintro ⟨-, -, hg, hd⟩
    exact ⟨hfirst.mp hg, hsecond.mp hd⟩
  · rintro ⟨hg, hd⟩
    exact ⟨⟨p, hp, length_packData hp, hread⟩, hheads, hfirst.mpr hg, hsecond.mpr hd⟩

def Transfers (collected distributed : Bool) : NodeStore → List NodeTransfer → Prop
  | _, [] => True
  | target, t :: ts => ∃ result, DataTransferred collected distributed t target result ∧
      Transfers collected distributed result ts

/-- **The condition on a sequence of transfers** over the given gathered and decomposed vectors. -/
def AllReceive (collected distributed : Bool) : List (Option (StdVector Double)) →
    List (Option (StdVector Header)) → List NodeTransfer → Prop
  | _, _, [] => True
  | gs, ds, t :: ts => DataReceives collected distributed gs ds t ∧
      AllReceive collected distributed
        (if collected then t.store.packedGathered.map some else gs)
        (if distributed then (named t.store.data.1).map decomposedField.get else ds) ts

lemma held_of_dataReceives {collected distributed : Bool} {t : NodeTransfer}
    {target result : NodeStore} {p : List UInt8} (h : Matches t.store target)
    (hp : t.store.packData collected distributed = some p)
    (hread : ∀ rest, target.unpackData collected distributed (p ++ rest) = some (result, rest))
    (hreceives : DataReceives collected distributed target.heldGathered target.heldDecomposed t) :
    result.heldGathered =
      (if collected then t.store.packedGathered.map some else target.heldGathered) ∧
    result.heldDecomposed =
      (if distributed then (named t.store.data.1).map decomposedField.get
        else target.heldDecomposed) ∧
    ∀ o ∈ result.heldDecomposed, o.isSome := by
  obtain ⟨vs, result', hvs, hdistributed, hread', -, hgathered, hdecomposed⟩ :=
    unpackData_append h hp
  cases (hread []).symm.trans (hread' [])
  refine ⟨?_, ?_⟩
  · rw [hgathered]
    split_ifs with hc
    · refine keptAll_eq ?_ (fun o ho => ?_) (hreceives.1 hc)
      · rw [heldGathered, List.length_map, h.length_eq, packedGathered, List.length_map]
      · obtain ⟨d, -, rfl⟩ := List.mem_map.mp ho
        rfl
    · rfl
  · rw [hdecomposed]
    split_ifs with hd
    · obtain ⟨vs', hvs', hall, -⟩ := hreceives.2 hd
      cases hvs'.symm.trans (hdistributed hd)
      have hsource : (named t.store.data.1).map decomposedField.get = vs.map some :=
        Fallible.mapM_eq_some_iff.mp (hdistributed hd)
      rw [keptAll_eq (by rw [heldDecomposed, List.length_map, h.length_eq, hvs]) h.decomposed hall,
        hsource]
      refine ⟨rfl, fun o ho => ?_⟩
      obtain ⟨v, -, rfl⟩ := List.mem_map.mp ho
      rfl
    · exact ⟨rfl, h.decomposed⟩

lemma transfers_iff_allReceive {collected distributed : Bool} :
    ∀ {ts : List NodeTransfer} {target : NodeStore}, (∀ t ∈ ts, Matches t.store target) →
      (Transfers collected distributed target ts ↔
        AllReceive collected distributed target.heldGathered target.heldDecomposed ts)
  | [], _, _ => Iff.rfl
  | t :: ts, target, h => by
    have hmatch := h t List.mem_cons_self
    rw [Transfers, AllReceive]
    -- the transfers behind this one
    have hrest : ∀ {p result}, t.store.packData collected distributed = some p →
        (∀ rest, target.unpackData collected distributed (p ++ rest) = some (result, rest)) →
        result.data.1.map head = target.data.1.map head →
        DataReceives collected distributed target.heldGathered target.heldDecomposed t →
        (Transfers collected distributed result ts ↔ AllReceive collected distributed
          (if collected then t.store.packedGathered.map some else target.heldGathered)
          (if distributed then (named t.store.data.1).map decomposedField.get
            else target.heldDecomposed) ts) := by
      intro p result hp hread hheads hreceives
      obtain ⟨hgathered, hdecomposed, hsome⟩ := held_of_dataReceives hmatch hp hread hreceives
      rw [transfers_iff_allReceive fun t' ht' =>
        ⟨hheads.trans (h t' (List.mem_cons_of_mem _ ht')).heads, hsome⟩, hgathered, hdecomposed]
    constructor
    · rintro ⟨result, hdata, htransfers⟩
      obtain ⟨p, hp, -, hread⟩ := hdata.unpacked
      have hreceives := (dataTransferred_iff hmatch hp hread).mp hdata
      exact ⟨hreceives, (hrest hp hread hdata.heads hreceives).mp htransfers⟩
    · rintro ⟨hreceives, hall⟩
      obtain ⟨p, hp⟩ : ∃ p, t.store.packData collected distributed = some p := by
        have hds : ∃ ds, decomposedIf distributed t.store = some ds := by
          cases distributed with
          | false => exact ⟨[], rfl⟩
          | true =>
            obtain ⟨vs, hvs, -⟩ := hreceives.2 rfl
            exact ⟨vs, hvs⟩
        obtain ⟨ds, hds⟩ := hds
        simp only [packData, hds, Option.bind_eq_bind, Option.bind_some, Option.some.injEq,
          exists_eq']
      obtain ⟨-, result, -, -, hread, -⟩ := unpackData_append hmatch hp
      have hdata := (dataTransferred_iff hmatch hp hread).mpr hreceives
      exact ⟨result, hdata, (hrest hp hread hdata.heads hreceives).mpr hall⟩

end NodeStore

/-! ## All transfers -/

/-- **When the transfers are right.**  A target receives a store, and values any number of times, if
it meets the conditions; and only then, where no item has 2³² names. -/
theorem transfers_iff (memory targetMemory : Memory DomainInterval) (s target : NodeStore)
    (es etarget : ElementStore) (collected distributed : Bool) (ts : List NodeTransfer)
    (ess : List ElementStore) :
    (s.Allocated →
      (NodeStore.Receives memory targetMemory s target →
        NodeStore.Transferred memory targetMemory s target) ∧
      ((∀ d ∈ s.data.1, d.names.1.length < 2 ^ 32) →
        NodeStore.Transferred memory targetMemory s target →
          NodeStore.Receives memory targetMemory s target)) ∧
    (es.Allocated →
      (ElementStore.Receives es etarget → ElementStore.Transferred es etarget) ∧
      ((∀ d ∈ es.data.1, d.names.1.length < 2 ^ 32) →
        ElementStore.Transferred es etarget → ElementStore.Receives es etarget)) ∧
    ((∀ t ∈ ts, NodeStore.Matches t.store target) →
      (NodeStore.Transfers collected distributed target ts ↔
        NodeStore.AllReceive collected distributed target.heldGathered target.heldDecomposed ts)) ∧
    ((∀ s ∈ ess, ElementStore.Matches s etarget) →
      (ElementStore.Transfers etarget ess ↔ ElementStore.AllReceive etarget.heldValues ess)) :=
  ⟨fun halloc => ⟨NodeStore.transferred_of_receives halloc, NodeStore.receives_of_transferred⟩,
    fun halloc => ⟨ElementStore.transferred_of_receives halloc,
      ElementStore.receives_of_transferred halloc⟩,
    NodeStore.transfers_iff_allReceive, ElementStore.transfers_iff_allReceive⟩

/-! ## A store with one domain -/

def emptyArray {α : Type} : TArray α := ⟨.empty, [0, 0]⟩

/-- A node store with the given inner vectors of `dintervals` and the given data. -/
def smallStore (dintervals : StdVector Header) (data : StdVector (StoreData NodeValues)) :
    NodeStore where
  size := 0
  uniqueOffset := 0
  uniqueSize := 0
  uniqueTotalSize := 0
  IDs := some ⟨1, emptyArray, emptyArray⟩
  coordinates := some ⟨1, emptyArray, emptyArray⟩
  idomains := some ⟨-1, emptyArray, emptyArray⟩
  externalIntervals := .empty
  pintervals := .empty
  dintervals := dintervals
  dcenter := .empty
  center := ⟨0, 0, 0⟩
  data := data

def StdVector.single {α : Type} (a : α) : StdVector α := ⟨[a], by norm_num⟩

def oneDomain : StdVector Header := .single ⟨4096, 4112, 4112⟩

def oneItem : StdVector (StoreData NodeValues) :=
  .single ⟨1, .single (.single 84), NodeValues.fresh⟩

lemma named_oneItem : named oneItem.1 ≠ [] := by
  simp [named, oneItem, StdVector.single]

lemma receives_fresh (dintervals : StdVector Header) (memory : Memory DomainInterval) :
    NodeStore.Receives memory memory (smallStore dintervals oneItem) (smallStore .empty .empty) where
  externalIntervals := Or.inr rfl
  pintervals := Or.inr rfl
  dintervals := ⟨Or.inr rfl, fun _ _ => rfl⟩
  dcenter := Or.inr rfl
  data := (if_neg named_oneItem).mpr rfl

def oneInterval : Memory DomainInterval := fun _ => [⟨0, 1, 0, 0⟩]

def otherProcess : Memory DomainInterval := fun _ => []

def noElements : ElementStore where
  size := 0
  nodes := some ⟨1, emptyArray, emptyArray⟩
  epointers := some []
  firstDomain := 0
  ndomains := 0
  nclusters := 0
  clusters := .empty
  elementsDistribution := .empty
  ecounters := .empty
  eintervals := .empty
  data := .empty

theorem transfers_iff_smallStore :
    NodeStore.Transferred oneInterval oneInterval (smallStore oneDomain oneItem)
      (smallStore .empty .empty) :=
  ((transfers_iff oneInterval oneInterval (smallStore oneDomain oneItem) (smallStore .empty .empty)
    noElements noElements false false [] []).1 ⟨rfl, rfl, rfl⟩).1 (receives_fresh _ _)

/-- **Two transfers that are wrong.**  A fresh target in another process does not get the intervals of
the domains, and a target that has received the store does not receive it again. -/
theorem transfers_fail :
    ¬ NodeStore.Transferred oneInterval otherProcess (smallStore oneDomain .empty)
      (smallStore .empty .empty) ∧
    (∃ target, (∃ p, (smallStore .empty oneItem).pack = some p ∧
      (smallStore .empty .empty).unpack p = some (target, [])) ∧
      ¬ NodeStore.Transferred oneInterval oneInterval (smallStore .empty oneItem) target) := by
  constructor
  · intro h
    have hinner := (NodeStore.receives_of_transferred (fun d hd => by cases hd) h).dintervals.2
    exact absurd (hinner _ List.mem_cons_self) (List.cons_ne_nil _ _).symm
  · obtain ⟨p, target, hp, -, hread, hcontents⟩ :=
      NodeStore.transferred_of_receives ⟨rfl, rfl, rfl⟩ (receives_fresh .empty oneInterval)
    refine ⟨target, ⟨p, hp, by rw [← hread [], List.append_nil]⟩, fun h => ?_⟩
    have hnames : ∀ d ∈ (smallStore .empty oneItem).data.1, d.names.1.length < 2 ^ 32 := by
      intro d hd
      rw [List.mem_singleton.mp hd]
      norm_num [StdVector.single]
    have hreceives := (NodeStore.receives_of_transferred hnames h).data
    have hempty : target.data.1 = [] := (if_neg named_oneItem).mp hreceives
    have hdata := congrArg NodeStore.Contents.data hcontents
    simp only [NodeStore.contents, hempty] at hdata
    exact named_oneItem (List.map_eq_nil_iff.mp hdata.symm)

end Espreso.Packing
