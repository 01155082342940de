import Mathlib.Data.List.AList
import Mathlib.Data.List.DropRight
import Mathlib.Data.List.TakeWhile
import Espreso.Basis.Distribution
import Espreso.Lib.Fallible
import Espreso.Lib.Reorder

/-!
# Element regions of a Workbench file

A component (`CM`) of elements is what the commands in front of it have selected (`ESEL`). The
commands that still matter are kept in a list, whose matches are put together.

* `CM.relevant` — the commands that are evaluated, where no commands mean all elements.
* **`CM.addElementRegion_iff`** — the region gets the selected elements if and only if all elements
  are matched once where all elements are selected, and none is matched twice otherwise.
-/

namespace Espreso

namespace Workbench

open Reorder

/-- `ESel::Type` -/
inductive SelectionType
  | UNKNOWN | S | R | A | U | ALL | NONE | INVE | STAT
deriving DecidableEq

/-- `ESel::Item` -/
inductive SelectionItem
  | UNKNOWN | ELEM | ADJ | CENT | TYPE | ENAME | MAT | REAL | ESYS | PART | LIVE | LAYER | SEC
  | STRA | SFE | BFE | PATH | ETAB
deriving DecidableEq

/-- `ESel`, with the position `first` behind the command in the file. -/
structure ESel where
  first : ℕ
  type : SelectionType
  item : SelectionItem
  VMIN : ℤ
  VMAX : ℤ
  VINC : ℤ
deriving DecidableEq

/-- **The elements** of a rank, with different IDs. -/
structure PlainWorkbenchData where
  esize : List ℤ
  eIDs : List ℤ
  et : List ℤ
  material : List ℤ
  eIDs_length : eIDs.length = esize.length
  et_length : et.length = esize.length
  material_length : material.length = esize.length
  nodup : eIDs.Nodup

/-- `std::map` from the names of regions to their elements, which are ascending. -/
structure ERegions where
  regions : AList fun _ : String => List ℤ
  sorted : ∀ name data, regions.lookup name = some data → data.Pairwise (· ≤ ·)

namespace ERegions

/-- The elements of a region; `eregions[name]` adds it if there is none. -/
def elementsOf (eregions : ERegions) (name : String) : List ℤ :=
  (eregions.regions.lookup name).getD []

def insert (eregions : ERegions) (name : String) (eid : List ℤ) : ERegions where
  regions := eregions.regions.insert name (eregions.elementsOf name ++ eid).mergeSort
  sorted := by
    intro other data hdata
    rcases eq_or_ne other name with rfl | hne
    · rw [AList.lookup_insert, Option.some.injEq] at hdata
      rw [← hdata]
      exact List.pairwise_mergeSort' (· ≤ ·) _
    · rw [AList.lookup_insert_ne hne] at hdata
      exact eregions.sorted other data hdata

end ERegions

/-- `CM` for elements. -/
structure CM where
  name : String
  first : ℕ

/-! ## Matches of a command -/

namespace ESel

/-- The values that are compared. The other items are not implemented. -/
def values (c : ESel) (mesh : PlainWorkbenchData) : Option (List ℤ) :=
  match c.item with
  | .TYPE => some mesh.et
  | .MAT => some mesh.material
  | _ => none

/-- `(value - VMIN) % VINC`, if the difference does not overflow and there is no division by zero.
-/
def remainder (c : ESel) (value : ℤ) : Option ℤ :=
  if c.VINC = 0 ∨ 2 ^ 31 ≤ value - c.VMIN then none else some ((value - c.VMIN).tmod c.VINC)

def compare (c : ESel) (value : ℤ) : Option Bool :=
  if c.VMIN = c.VMAX then some (decide (value = c.VMIN))
  else if c.VINC = 1 then some (decide (c.VMIN ≤ value ∧ value ≤ c.VMAX))
  else if c.VMIN ≤ value ∧ value ≤ c.VMAX then
    (c.remainder value).map fun remainder => decide (remainder = 0)
  else some false

/-- `chck`: what is pushed for element `e`. -/
def chck (c : ESel) (mesh : PlainWorkbenchData) (e : ℕ) : Option (List ℤ) := do
  let values ← c.values mesh
  let value ← values[e]?
  if ← c.compare value then mesh.eIDs[e]?.map fun id => [id] else pure []

/-- `checkElements` for the elements of a thread. -/
def checkElements (c : ESel) (mesh : PlainWorkbenchData) (first last : ℕ) : Option (List ℤ) := do
  let _ ← c.values mesh
  let pushed ← (List.range' first (last - first)).mapM (c.chck mesh)
  pure pushed.flatten

end ESel

namespace CM

/-- `relevant` after a further command. -/
def addRelevant (relevant : List ESel) (c : ESel) : Option (List ESel) :=
  match c.type with
  | .S => some [c]
  | .NONE => some [c]
  | .A => some ((if relevant.length = 1 ∧ relevant.head?.map ESel.type = some .NONE then []
      else relevant) ++ [c])
  | .ALL => some []
  | _ => none

def relevant (cm : CM) (esel : List ESel) : Option (List ESel) :=
  (esel.takeWhile fun c => c.first < cm.first).foldlM addRelevant []

/-- `eid[t]` for the elements from `first` to `last`. -/
def eid (mesh : PlainWorkbenchData) (relevant : List ESel) (first last : ℕ) : Option (List ℤ) :=
  (relevant.mapM fun c : ESel => c.checkElements mesh first last).map List.flatten

/-- **`CM::addElementRegion`** on a number of threads. -/
def addElementRegion (cm : CM) (threads : ℕ) (mesh : PlainWorkbenchData) (esel : List ESel)
    (eregions : ERegions) : Option ERegions := do
  let relevant ← cm.relevant esel
  if relevant.length = 0 then pure eregions
  else do
    let edistribution := distribute threads mesh.esize.length
    let eid ← (List.range threads).mapM fun t =>
      CM.eid mesh relevant (edistribution.getD t 0) (edistribution.getD (t + 1) 0)
    pure (eregions.insert cm.name eid.flatten)

end CM

/-! ## Replay of the commands -/

/-- The commands that can be given: `S` and `A` for types and materials, `ALL`, and `NONE`. -/
def ESel.Supported (c : ESel) : Prop :=
  match c.type with
  | .S | .A => c.item = .TYPE ∨ c.item = .MAT
  | .ALL | .NONE => True
  | _ => False

/-- Element `e` has one of the values from `VMIN` to `VMAX` with a step of `VINC`. -/
def ESel.selects (c : ESel) (mesh : PlainWorkbenchData) (e : ℕ) : Bool :=
  match (c.values mesh).bind (·[e]?) with
  | some value => decide (c.VMIN ≤ value ∧ value ≤ c.VMAX ∧ c.VINC ∣ value - c.VMIN)
  | none => false

def replay (mesh : PlainWorkbenchData) (selection : ℕ → Bool) (c : ESel) : ℕ → Bool :=
  match c.type with
  | .S => c.selects mesh
  | .A => fun e => selection e || c.selects mesh e
  | .ALL => fun _ => true
  | .NONE => fun _ => false
  | _ => selection

/-- **The selected elements** after commands. In the beginning, all elements are selected. -/
def selected (mesh : PlainWorkbenchData) (commands : List ESel) : ℕ → Bool :=
  commands.foldl (replay mesh) fun _ => true

def PlainWorkbenchData.ids (mesh : PlainWorkbenchData) (selection : ℕ → Bool) : List ℤ :=
  gather ((List.range mesh.esize.length).filter selection) mesh.eIDs

def CM.preceding (cm : CM) (esel : List ESel) : List ESel :=
  esel.filter fun c => c.first < cm.first

/-- **The region gets the selected elements**, each of them once, and stays ascending. -/
structure CM.AddsSelected (cm : CM) (mesh : PlainWorkbenchData) (esel : List ESel)
    (eregions out : ERegions) : Prop where
  perm : (out.elementsOf cm.name).Perm
    (eregions.elementsOf cm.name ++ mesh.ids (selected mesh (cm.preceding esel)))
  ascending : (out.elementsOf cm.name).Pairwise (· ≤ ·)
  others : ∀ other ≠ cm.name, out.regions.lookup other = eregions.regions.lookup other

def lastReset (commands : List ESel) : Option ESel :=
  (commands.rdropWhile fun c => c.type = .A).getLast?

def added (commands : List ESel) : List ESel := commands.rtakeWhile fun c => c.type = .A

/-- Comparisons with a value do not divide by zero, and do not overflow. -/
def ESel.Defined (c : ESel) (value : ℤ) : Prop :=
  c.VMIN = c.VMAX ∨ c.VINC = 1 ∨
    (c.VMIN ≤ value → value ≤ c.VMAX → c.VINC ≠ 0 ∧ value - c.VMIN < 2 ^ 31)

/-- The commands compare types or materials, and the comparisons are defined. -/
def Compared (mesh : PlainWorkbenchData) (commands : List ESel) : Prop :=
  ∀ c ∈ commands, ∃ values, c.values mesh = some values ∧ ∀ value ∈ values, c.Defined value

def matched (mesh : PlainWorkbenchData) (commands : List ESel) (e : ℕ) : ℕ :=
  commands.countP fun c => c.selects mesh e

/-- The commands are compared, and match each element as often as it is allowed. -/
def Matches (mesh : PlainWorkbenchData) (commands : List ESel) (allowed : ℕ → Prop) : Prop :=
  Compared mesh commands ∧ ∀ e < mesh.esize.length, allowed (matched mesh commands e)

/-- **The matches are the selection.** If all elements are selected before the last additions, these
match each element once. Otherwise no element is matched twice, and `NONE` without additions matches
none. -/
def MatchedOnce (mesh : PlainWorkbenchData) (commands : List ESel) : Prop :=
  match lastReset commands with
  | none => Matches mesh (added commands) (· = 1)
  | some c =>
    match c.type with
    | .S => Matches mesh (c :: added commands) (· ≤ 1)
    | .NONE =>
      if added commands = [] then Matches mesh [c] (· = 0)
      else Matches mesh (added commands) (· ≤ 1)
    | _ => Matches mesh (added commands) (· = 1)

/-! ## Commands that matter -/

/-- The relevant commands are those behind the last replacement, with the replacing command if it
selects elements. `NONE` stays if nothing is added. -/
def listed (reset : Option ESel) (added : List ESel) : List ESel :=
  match reset with
  | none => added
  | some c =>
    match c.type with
    | .S => c :: added
    | .NONE => if added = [] then [c] else added
    | _ => added

def base (mesh : PlainWorkbenchData) (reset : Option ESel) (e : ℕ) : Bool :=
  match reset with
  | none => true
  | some c =>
    match c.type with
    | .S => c.selects mesh e
    | .NONE => false
    | _ => true

lemma lastReset_concat (commands : List ESel) (c : ESel) : lastReset (commands ++ [c])
    = if c.type = .A then lastReset commands else some c := by
  rw [lastReset, List.rdropWhile_concat]
  by_cases hA : c.type = .A
  · rw [if_pos (decide_eq_true hA), if_pos hA, lastReset]
  · rw [if_neg (by simpa using hA), if_neg hA, List.getLast?_concat]

lemma added_concat (commands : List ESel) (c : ESel) : added (commands ++ [c])
    = if c.type = .A then added commands ++ [c] else [] := by
  rw [added, List.rtakeWhile_concat]
  by_cases hA : c.type = .A
  · rw [if_pos (decide_eq_true hA), if_pos hA, added]
  · rw [if_neg (by simpa using hA), if_neg hA]

lemma type_of_mem_added {commands : List ESel} {c : ESel} (hc : c ∈ added commands) :
    c.type = .A := by
  rw [added, List.rtakeWhile, List.mem_reverse] at hc
  have htype := List.mem_takeWhile_imp hc
  exact of_decide_eq_true htype

lemma addRelevant_A {relevant : List ESel} {c : ESel} (hA : c.type = .A)
    (hhead : relevant.head?.map ESel.type ≠ some .NONE) :
    CM.addRelevant relevant c = some (relevant ++ [c]) := by
  rw [CM.addRelevant, hA]
  dsimp only
  rw [if_neg fun h => hhead h.2]

lemma addRelevant_listed (reset : Option ESel) {added : List ESel} {c : ESel} (hA : c.type = .A)
    (hadded : ∀ a ∈ added, a.type = .A) :
    CM.addRelevant (listed reset added) c = some (listed reset (added ++ [c])) := by
  have hhead : added.head?.map ESel.type ≠ some .NONE := by
    rcases added with _ | ⟨a, added⟩
    · simp
    · simp [hadded a List.mem_cons_self]
  rcases reset with _ | r
  · exact addRelevant_A hA hhead
  · rw [listed, listed]
    split
    · next htype =>
        refine addRelevant_A hA ?_
        rw [List.head?_cons, Option.map_some, htype]
        simp
    · next htype =>
        rw [if_neg (List.concat_ne_nil c added)]
        split_ifs with hnil
        · rw [hnil, CM.addRelevant, hA]
          dsimp only
          rw [List.head?_cons, Option.map_some, htype, if_pos ⟨rfl, rfl⟩]
        · exact addRelevant_A hA hhead
    · exact addRelevant_A hA hhead

lemma foldlM_addRelevant {commands : List ESel} (h : ∀ c ∈ commands, c.Supported) :
    commands.foldlM CM.addRelevant [] = some (listed (lastReset commands) (added commands)) := by
  induction commands using List.reverseRecOn with
  | nil => rfl
  | append_singleton commands c ih =>
      have hc : c.Supported := h c (by simp)
      rw [List.foldlM_append, ih fun c' hc' => h c' (by simp [hc']), lastReset_concat, added_concat,
        Option.bind_eq_bind, Option.bind_some]
      simp only [List.foldlM_cons, List.foldlM_nil, bind_pure]
      rw [ESel.Supported] at hc
      by_cases hA : c.type = .A
      · rw [if_pos hA, if_pos hA, addRelevant_listed _ hA fun a ha => type_of_mem_added ha]
      · rw [if_neg hA, if_neg hA, CM.addRelevant, listed]
        cases htype : c.type <;> simp_all

lemma selected_eq (mesh : PlainWorkbenchData) {commands : List ESel}
    (h : ∀ c ∈ commands, c.Supported) (e : ℕ) :
    selected mesh commands e = (base mesh (lastReset commands) e ||
      (added commands).any fun c => c.selects mesh e) := by
  induction commands using List.reverseRecOn with
  | nil => rfl
  | append_singleton commands c ih =>
      have hc : c.Supported := h c (by simp)
      rw [selected, List.foldl_append, ← selected, List.foldl_cons, List.foldl_nil,
        lastReset_concat, added_concat]
      rw [ESel.Supported] at hc
      by_cases hA : c.type = .A
      · rw [if_pos hA, if_pos hA, replay, hA]
        dsimp only
        rw [ih fun c' hc' => h c' (by simp [hc']), List.any_append, List.any_cons, List.any_nil,
          Bool.or_false, Bool.or_assoc]
      · rw [if_neg hA, if_neg hA, replay, base, List.any_nil, Bool.or_false]
        cases htype : c.type <;> simp_all

/-! ## Comparisons -/

namespace ESel

variable (c : ESel) (mesh : PlainWorkbenchData)

lemma compare_eq {value : ℤ} (h : c.Defined value) : c.compare value
    = some (decide (c.VMIN ≤ value ∧ value ≤ c.VMAX ∧ c.VINC ∣ value - c.VMIN)) := by
  rw [compare]
  split_ifs with heq hone hrange
  · have hiff : value = c.VMIN ↔ c.VMIN ≤ value ∧ value ≤ c.VMAX ∧ c.VINC ∣ value - c.VMIN := by
      rw [← heq]
      refine ⟨fun h => ?_, fun ⟨hle, hge, _⟩ => le_antisymm hge hle⟩
      rw [h, sub_self]
      exact ⟨le_rfl, le_rfl, dvd_zero _⟩
    simp only [hiff]
  · simp only [hone, one_dvd, and_true]
  · have hdefined := ((h.resolve_left heq).resolve_left hone) hrange.1 hrange.2
    rw [remainder, if_neg (by omega), Option.map_some]
    simp only [hrange.1, hrange.2, true_and, Int.dvd_iff_tmod_eq_zero]
  · have hout : ¬(c.VMIN ≤ value ∧ value ≤ c.VMAX ∧ c.VINC ∣ value - c.VMIN) :=
      fun h => hrange ⟨h.1, h.2.1⟩
    rw [decide_eq_false hout]

lemma defined_of_compare {value : ℤ} {b : Bool} (h : c.compare value = some b) :
    c.Defined value := by
  by_contra hnot
  rw [Defined, not_or, not_or] at hnot
  obtain ⟨heq, hone, hundefined⟩ := hnot
  push Not at hundefined
  obtain ⟨hmin, hmax, hremainder⟩ := hundefined
  have hnone : c.remainder value = none := by
    rw [remainder, if_pos]
    by_cases hzero : c.VINC = 0
    · exact Or.inl hzero
    · exact Or.inr (hremainder hzero)
  rw [compare, if_neg heq, if_neg hone, if_pos ⟨hmin, hmax⟩, hnone] at h
  cases h

lemma chck_eq {values : List ℤ} {e : ℕ} {value : ℤ} (hvalues : c.values mesh = some values)
    (he : values[e]? = some value) (hlt : e < mesh.eIDs.length) (h : c.Defined value) :
    c.chck mesh e = some (gather (if c.selects mesh e then [e] else []) mesh.eIDs) := by
  rw [chck, hvalues, Option.bind_eq_bind, Option.bind_some, he, Option.bind_eq_bind,
    Option.bind_some, c.compare_eq h, selects, hvalues, Option.bind_some, he,
    Option.bind_eq_bind, Option.bind_some]
  dsimp only
  split_ifs
  · rw [gather_cons hlt, List.getElem?_eq_getElem hlt]
    rfl
  · rfl

lemma checkElements_eq {values : List ℤ} (hvalues : c.values mesh = some values)
    (hlength : values.length = mesh.eIDs.length) (h : ∀ value ∈ values, c.Defined value)
    {first last : ℕ} (hlast : last ≤ mesh.eIDs.length) : c.checkElements mesh first last
      = some (gather ((List.range' first (last - first)).filter (c.selects mesh)) mesh.eIDs) := by
  have hchck : ∀ e ∈ List.range' first (last - first), c.chck mesh e
      = some (gather (if c.selects mesh e then [e] else []) mesh.eIDs) := by
    intro e he
    rw [List.mem_range'_1] at he
    have hlt : e < values.length := by omega
    exact c.chck_eq mesh hvalues (List.getElem?_eq_getElem hlt) (hlength ▸ hlt)
      (h _ (List.getElem_mem hlt))
  rw [checkElements, hvalues, Option.bind_eq_bind, Option.bind_some, Fallible.mapM_eq_some hchck,
    Option.bind_eq_bind, Option.bind_some, Option.pure_def, ← List.flatMap_def]
  refine congrArg some ?_
  induction List.range' first (last - first) with
  | nil => rfl
  | cons e es ih =>
      rw [List.flatMap_cons, ih, gather, gather, ← List.filterMap_append, List.filter_cons, gather]
      split_ifs
      · rfl
      · rfl

lemma defined_of_chck {values : List ℤ} {e : ℕ} {ids : List ℤ} {value : ℤ}
    (hvalues : c.values mesh = some values) (he : values[e]? = some value)
    (h : c.chck mesh e = some ids) : c.Defined value := by
  rw [chck, hvalues, Option.bind_eq_bind, Option.bind_some, he, Option.bind_eq_bind,
    Option.bind_some, Option.bind_eq_bind, Option.bind_eq_some_iff] at h
  obtain ⟨b, hb, -⟩ := h
  exact c.defined_of_compare hb

lemma defined_of_checkElements {first last : ℕ} {ids : List ℤ}
    (h : c.checkElements mesh first last = some ids) : ∃ values, c.values mesh = some values ∧
      ∀ (e : ℕ) value, first ≤ e → e < last → values[e]? = some value → c.Defined value := by
  simp only [checkElements, Option.bind_eq_bind, Option.bind_eq_some_iff] at h
  obtain ⟨values, hvalues, pushed, hpushed, -⟩ := h
  refine ⟨values, hvalues, fun e value hfirst hlast he => ?_⟩
  obtain ⟨ids', hids'⟩ := Fallible.exists_of_mapM hpushed
    (List.mem_range'_1.mpr (show first ≤ e ∧ e < first + (last - first) by omega))
  exact c.defined_of_chck mesh hvalues he hids'

lemma values_length {values : List ℤ} (h : c.values mesh = some values) :
    values.length = mesh.esize.length := by
  rw [ESel.values] at h
  split at h
  · rw [← Option.some.inj h, mesh.et_length]
  · rw [← Option.some.inj h, mesh.material_length]
  · cases h

end ESel

/-! ## Elements of all threads -/

section Threads

variable {mesh : PlainWorkbenchData} {relevant : List ESel} {threads : ℕ}

lemma eid_eq (h : Compared mesh relevant) {first last : ℕ} (hlast : last ≤ mesh.esize.length) :
    CM.eid mesh relevant first last = some (relevant.flatMap fun c =>
      gather ((List.range' first (last - first)).filter (c.selects mesh)) mesh.eIDs) := by
  have hcheck : ∀ c ∈ relevant, c.checkElements mesh first last
      = some (gather ((List.range' first (last - first)).filter (c.selects mesh)) mesh.eIDs) := by
    intro c hc
    obtain ⟨values, hvalues, hdefined⟩ := h c hc
    refine c.checkElements_eq mesh hvalues ?_ hdefined ?_
    · rw [c.values_length mesh hvalues, mesh.eIDs_length]
    · rwa [mesh.eIDs_length]
  rw [CM.eid, Fallible.mapM_eq_some hcheck, Option.map_some, ← List.flatMap_def]

lemma flatMap_threads_perm (hthreads : 0 < threads) (relevant : List ESel) :
    ((List.range threads).flatMap fun t => relevant.flatMap fun c =>
      gather ((List.range' ((distribute threads mesh.esize.length).getD t 0)
        ((distribute threads mesh.esize.length).getD (t + 1) 0
          - (distribute threads mesh.esize.length).getD t 0)).filter (c.selects mesh))
        mesh.eIDs).Perm (relevant.flatMap fun c => mesh.ids (c.selects mesh)) := by
  induction relevant with
  | nil => simp
  | cons c relevant ih =>
      have hc : mesh.ids (c.selects mesh) = (List.range threads).flatMap fun t =>
          gather ((List.range' ((distribute threads mesh.esize.length).getD t 0)
            ((distribute threads mesh.esize.length).getD (t + 1) 0
              - (distribute threads mesh.esize.length).getD t 0)).filter (c.selects mesh))
            mesh.eIDs := by
        simp only [PlainWorkbenchData.ids, gather]
        rw [← flatMap_distribute hthreads, List.filter_flatMap, List.filterMap_flatMap]
      simp only [List.flatMap_cons]
      rw [hc]
      exact (List.flatMap_append_perm _ _ _).symm.trans (ih.append_left _)

lemma exists_eid (hthreads : 0 < threads) (h : Compared mesh relevant) :
    ∃ eid, (List.range threads).mapM (fun t => CM.eid mesh relevant
        ((distribute threads mesh.esize.length).getD t 0)
        ((distribute threads mesh.esize.length).getD (t + 1) 0)) = some eid ∧
      eid.flatten.Perm (relevant.flatMap fun c => mesh.ids (c.selects mesh)) := by
  refine ⟨_, Fallible.mapM_eq_some fun t ht => eid_eq h ?_, ?_⟩
  · exact distribute_getD_le _ (List.mem_range.mp ht)
  · rw [← List.flatMap_def]
    exact flatMap_threads_perm hthreads relevant

lemma compared_of_eid (hthreads : 0 < threads) {eid : List (List ℤ)}
    (h : (List.range threads).mapM (fun t => CM.eid mesh relevant
      ((distribute threads mesh.esize.length).getD t 0)
      ((distribute threads mesh.esize.length).getD (t + 1) 0)) = some eid) :
    Compared mesh relevant := by
  intro c hc
  have hthread : ∀ t < threads, ∃ values, c.values mesh = some values ∧
      ∀ (e : ℕ) value, (distribute threads mesh.esize.length).getD t 0 ≤ e →
        e < (distribute threads mesh.esize.length).getD (t + 1) 0 → values[e]? = some value →
        c.Defined value := by
    intro t ht
    obtain ⟨ids, hids⟩ := Fallible.exists_of_mapM h (List.mem_range.mpr ht)
    rw [CM.eid, Option.map_eq_some_iff] at hids
    obtain ⟨pushed, hpushed, -⟩ := hids
    obtain ⟨matching, hmatching⟩ := Fallible.exists_of_mapM hpushed hc
    exact c.defined_of_checkElements mesh hmatching
  obtain ⟨values, hvalues, -⟩ := hthread 0 hthreads
  refine ⟨values, hvalues, fun value hvalue => ?_⟩
  obtain ⟨e, he⟩ := List.mem_iff_getElem?.mp hvalue
  have hlt : e < mesh.esize.length := by
    rw [← c.values_length mesh hvalues]
    exact (List.getElem?_eq_some_iff.mp he).1
  rw [← List.mem_range, ← flatMap_distribute hthreads, List.mem_flatMap] at hlt
  obtain ⟨t, ht, hrange⟩ := hlt
  rw [List.mem_range'_1] at hrange
  obtain ⟨values', hvalues', hdefined⟩ := hthread t (List.mem_range.mp ht)
  rw [hvalues, Option.some.injEq] at hvalues'
  subst hvalues'
  exact hdefined e value hrange.1 (by omega) he

end Threads

/-! ## Regions with the selected elements -/

lemma count_filter_range (n : ℕ) (p : ℕ → Bool) (e : ℕ) :
    ((List.range n).filter p).count e = if e < n ∧ p e then 1 else 0 := by
  rw [(List.nodup_range.filter p).count]
  simp only [List.mem_filter, List.mem_range]

/-- **The matches are a selection** if and only if the elements are matched as often as they are
selected. -/
lemma perm_ids_iff (mesh : PlainWorkbenchData) (relevant : List ESel) (selection : ℕ → Bool) :
    (relevant.flatMap fun c => mesh.ids (c.selects mesh)).Perm (mesh.ids selection) ↔
      ∀ e < mesh.esize.length, matched mesh relevant e = if selection e then 1 else 0 := by
  have hflat : (relevant.flatMap fun c => mesh.ids (c.selects mesh)) = gather
      (relevant.flatMap fun c => (List.range mesh.esize.length).filter (c.selects mesh))
      mesh.eIDs := by
    simp only [PlainWorkbenchData.ids, gather, List.filterMap_flatMap]
  have hcount : ∀ e,
      (relevant.flatMap fun c => (List.range mesh.esize.length).filter (c.selects mesh)).count e
        = if e < mesh.esize.length then matched mesh relevant e else 0 := by
    intro e
    clear hflat
    induction relevant with
    | nil => simp [matched]
    | cons c relevant ih =>
        rw [List.flatMap_cons, List.count_append, ih, count_filter_range, matched, matched,
          List.countP_cons]
        by_cases he : e < mesh.esize.length
        · simp only [he, true_and, if_true]
          exact Nat.add_comm _ _
        · simp only [he, false_and, if_false]
  have hwithin : ∀ p : ℕ → Bool,
      Within ((List.range mesh.esize.length).filter p) mesh.eIDs.length := by
    intro p e he
    rw [mesh.eIDs_length]
    exact List.mem_range.mp (List.mem_filter.mp he).1
  have hwithin' : Within
      (relevant.flatMap fun c => (List.range mesh.esize.length).filter (c.selects mesh))
      mesh.eIDs.length := by
    intro e he
    obtain ⟨c, -, he⟩ := List.mem_flatMap.mp he
    exact hwithin _ e he
  rw [hflat, PlainWorkbenchData.ids, gather_perm_gather_iff mesh.nodup hwithin' (hwithin _),
    List.perm_iff_count]
  refine forall_congr' fun e => ?_
  rw [hcount, count_filter_range]
  by_cases he : e < mesh.esize.length
  · simp only [he, true_and, if_true, forall_const]
  · simp only [he, false_and, if_false, false_implies]

lemma ERegions.ascending (eregions : ERegions) (name : String) :
    (eregions.elementsOf name).Pairwise (· ≤ ·) := by
  rw [elementsOf]
  rcases hlookup : eregions.regions.lookup name with _ | data
  · exact List.Pairwise.nil
  · exact eregions.sorted name data hlookup

lemma ERegions.elementsOf_insert (eregions : ERegions) (name : String) (eid : List ℤ) :
    ((eregions.insert name eid).elementsOf name).Perm (eregions.elementsOf name ++ eid) := by
  rw [elementsOf, insert, AList.lookup_insert, Option.getD_some]
  exact List.mergeSort_perm _ _

namespace CM

variable {cm : CM} {mesh : PlainWorkbenchData} {esel : List ESel} {threads : ℕ}

lemma addsSelected_iff {eregions out : ERegions} {eid : List ℤ}
    (hperm : (out.elementsOf cm.name).Perm (eregions.elementsOf cm.name ++ eid))
    (hothers : ∀ other ≠ cm.name, out.regions.lookup other = eregions.regions.lookup other) :
    cm.AddsSelected mesh esel eregions out ↔
      eid.Perm (mesh.ids (selected mesh (cm.preceding esel))) := by
  constructor
  · intro h
    exact (List.perm_append_left_iff _).mp (hperm.symm.trans h.perm)
  · intro h
    exact ⟨hperm.trans (h.append_left _), out.ascending cm.name, hothers⟩

lemma addElementRegion_relevant (hthreads : 0 < threads) (eregions : ERegions)
    {relevant : List ESel} (hrelevant : cm.relevant esel = some relevant) :
    (∃ out, cm.addElementRegion threads mesh esel eregions = some out ∧
      cm.AddsSelected mesh esel eregions out) ↔ Compared mesh relevant ∧
        ∀ e < mesh.esize.length, matched mesh relevant e
          = if selected mesh (cm.preceding esel) e then 1 else 0 := by
  rw [addElementRegion, hrelevant, Option.bind_eq_bind, Option.bind_some, ← perm_ids_iff]
  split_ifs with hlength
  · have hnil := List.length_eq_zero_iff.mp hlength
    subst hnil
    have hcompared : Compared mesh [] := fun c hc => absurd hc List.not_mem_nil
    rw [Option.pure_def]
    simp only [Option.some.injEq, exists_eq_left', hcompared, true_and]
    refine addsSelected_iff ?_ fun other _ => rfl
    rw [List.flatMap_nil, List.append_nil]
  · constructor
    · rintro ⟨out, hout, hadds⟩
      simp only [Option.bind_eq_bind, Option.bind_eq_some_iff, Option.pure_def,
        Option.some.injEq] at hout
      obtain ⟨eid, heid, rfl⟩ := hout
      have hcompared := compared_of_eid hthreads heid
      obtain ⟨eid', heid', hperm⟩ := exists_eid hthreads hcompared
      rw [heid, Option.some.injEq] at heid'
      subst heid'
      refine ⟨hcompared, hperm.symm.trans ?_⟩
      refine (addsSelected_iff (eregions.elementsOf_insert cm.name _) fun other hne => ?_).mp hadds
      exact AList.lookup_insert_ne hne
    · rintro ⟨hcompared, hselected⟩
      obtain ⟨eid, heid, hperm⟩ := exists_eid hthreads hcompared
      refine ⟨eregions.insert cm.name eid.flatten, ?_, ?_⟩
      · simp only [heid, Option.bind_eq_bind, Option.bind_some, Option.pure_def]
      · refine (addsSelected_iff (eregions.elementsOf_insert cm.name _) fun other hne => ?_).mpr
          (hperm.trans hselected)
        exact AList.lookup_insert_ne hne

lemma relevant_eq (hsorted : esel.Pairwise fun a b => a.first ≤ b.first) :
    cm.relevant esel = (cm.preceding esel).foldlM addRelevant [] := by
  have htake : ∀ commands : List ESel, (commands.Pairwise fun a b => a.first ≤ b.first) →
      commands.takeWhile (fun c => c.first < cm.first)
        = commands.filter fun c => c.first < cm.first := by
    intro commands h
    induction commands with
    | nil => rfl
    | cons c commands ih =>
        obtain ⟨hc, h⟩ := List.pairwise_cons.mp h
        by_cases hlt : c.first < cm.first
        · rw [List.takeWhile_cons_of_pos (by simpa using hlt),
            List.filter_cons_of_pos (by simpa using hlt), ih h]
        · rw [List.takeWhile_cons_of_neg (by simpa using hlt),
            List.filter_cons_of_neg (by simpa using hlt), List.filter_eq_nil_iff.mpr]
          intro c' hc'
          have hle := hc c' hc'
          simp only [decide_eq_true_eq]
          omega
  rw [relevant, htake esel hsorted, preceding]

lemma matched_eq_any (mesh : PlainWorkbenchData) (commands : List ESel) (e : ℕ) :
    (matched mesh commands e = if (commands.any fun c => c.selects mesh e) then 1 else 0) ↔
      matched mesh commands e ≤ 1 := by
  have hpos : (commands.any fun c => c.selects mesh e) ↔ 0 < matched mesh commands e := by
    rw [matched, List.countP_pos_iff, List.any_eq_true]
  split_ifs with hany
  · have := hpos.mp hany
    omega
  · have := mt hpos.mpr hany
    omega

lemma matchedOnce_iff {commands : List ESel} (h : ∀ c ∈ commands, c.Supported) :
    (Compared mesh (listed (lastReset commands) (added commands)) ∧
      ∀ e < mesh.esize.length, matched mesh (listed (lastReset commands) (added commands)) e
        = if selected mesh commands e then 1 else 0) ↔ MatchedOnce mesh commands := by
  simp only [selected_eq mesh h]
  rw [MatchedOnce]
  rcases lastReset commands with _ | c
  · simp only [listed, base, Bool.true_or, if_true]
    rfl
  · cases htype : c.type
    case S =>
      simp only [listed, base, htype]
      exact and_congr_right fun _ => forall₂_congr fun e he =>
        matched_eq_any mesh (c :: added commands) e
    case NONE =>
      simp only [listed, base, htype, Bool.false_or]
      split_ifs with hnil
      · simp only [hnil, List.any_nil, Bool.false_eq_true, if_false]
        rfl
      · exact and_congr_right fun _ => forall₂_congr fun e he => matched_eq_any mesh _ e
    all_goals
      simp only [listed, base, htype, Bool.true_or, if_true]
      rfl

/-- **The region gets the selected elements** if and only if they are matched once. -/
theorem addElementRegion_iff (hthreads : 0 < threads) (cm : CM) (mesh : PlainWorkbenchData)
    (hsorted : esel.Pairwise fun a b => a.first ≤ b.first)
    (hsupported : ∀ c ∈ cm.preceding esel, c.Supported) (eregions : ERegions) :
    (∃ out, cm.addElementRegion threads mesh esel eregions = some out ∧
      cm.AddsSelected mesh esel eregions out) ↔ MatchedOnce mesh (cm.preceding esel) := by
  rw [← matchedOnce_iff hsupported]
  refine addElementRegion_relevant hthreads eregions ?_
  rw [relevant_eq hsorted, foldlM_addRelevant hsupported]

end CM

def twoTypes : PlainWorkbenchData where
  esize := [4, 4]
  eIDs := [7, 5]
  et := [0, 1]
  material := [0, 0]
  eIDs_length := rfl
  et_length := rfl
  material_length := rfl
  nodup := by decide

/-- `ESEL,S,TYPE,,1`, `ESEL,A,MAT,,1` and `ESEL,ALL`. -/
def firstType : ESel := ⟨15, .S, .TYPE, 0, 0, 1⟩
def addMaterial : ESel := ⟨30, .A, .MAT, 0, 0, 1⟩
def all : ESel := ⟨55, .ALL, .UNKNOWN, 0, 0, 1⟩

/-- `CM,A,ELEM` in front of `ESEL,ALL`. -/
def componentA : CM := ⟨"A", 45⟩

def noRegions : ERegions := ⟨∅, fun _ _ h => by cases h⟩

theorem addElementRegion_iff_componentA :
    (∃ out, componentA.addElementRegion 2 twoTypes [firstType, addMaterial, all] noRegions
        = some out ∧
      componentA.AddsSelected twoTypes [firstType, addMaterial, all] noRegions out) ↔
      MatchedOnce twoTypes (componentA.preceding [firstType, addMaterial, all]) := by
  have hpreceding :
      componentA.preceding [firstType, addMaterial, all] = [firstType, addMaterial] := by decide
  refine CM.addElementRegion_iff Nat.two_pos componentA twoTypes (by decide) ?_ noRegions
  rw [hpreceding]
  simp [ESel.Supported, firstType, addMaterial]

/-- The first element has the type and the material, and is put into the region twice. -/
theorem addElementRegion_not_once :
    ¬∃ out, componentA.addElementRegion 2 twoTypes [firstType, addMaterial, all] noRegions
        = some out ∧
      componentA.AddsSelected twoTypes [firstType, addMaterial, all] noRegions out := by
  intro h
  have hrelevant : componentA.relevant [firstType, addMaterial, all]
      = some [firstType, addMaterial] := by decide
  have hfirst := ((CM.addElementRegion_relevant Nat.two_pos noRegions hrelevant).mp h).2 0
    Nat.two_pos
  exact absurd hfirst (by decide)

end Workbench

end Espreso
