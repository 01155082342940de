import Espreso.Basis.ThreadBalance

/-!
# Balanced threads with elements of different sizes

The second `serializededata::balance` moves elements between the chunks of the threads. The
boundaries of the elements are global positions in the data, and the first chunk of boundaries
begins with `0`. How many data belong to the moved elements is read from the boundaries.

* `ThreadBalance.balanceBoundaries` — the function of the source. There is no result if a chunk or a
  position is out of range.
* **`ThreadBalance.balanceBoundaries_iff`** — an empty share behind the first thread must not follow
  on chunks that are too large.
-/

namespace Espreso

namespace ThreadBalance

variable {T : Type}

/-! ## The function -/

/-- What belongs to one thread: `boundaries[t]`, `data[t]` and `sizes[t]`. -/
structure Chunk (T : Type) where
  boundaries : List ℕ
  data : List T
  size : ℕ

/-- `boundaries[tt - ttt].back()`: the last boundary in front of a chunk, where empty chunks are
skipped. -/
def lastBoundary (front : List (Chunk T)) : Option ℕ :=
  (front.reverse.find? fun chunk => chunk.boundaries.length ≠ 0).bind fun chunk =>
    chunk.boundaries.getLast?

/-- `while (++tt && sizes[t] < share)`: what thread `t`, which has `chunk`, pulls from the chunks
behind it. Those it has visited are `skipped`. -/
def pullChunk (share : ℕ) (front : List (Chunk T)) :
    Chunk T → List (Chunk T) → List (Chunk T) → Option (Chunk T × List (Chunk T))
  | chunk, skipped, [] => if chunk.size < share then none else some (chunk, skipped)
  | chunk, skipped, next :: rest =>
    if chunk.size < share then
      let diff := share - chunk.size
      if diff < next.size then do
        let last ← lastBoundary (front ++ chunk :: skipped)
        let boundary ← next.boundaries[diff - 1]?
        let ediff := boundary - last
        if last ≤ boundary ∧ ediff ≤ next.data.length then
          pullChunk share front
            ⟨chunk.boundaries ++ next.boundaries.take diff, chunk.data ++ next.data.take ediff,
              chunk.size + diff⟩
            (skipped ++ [⟨next.boundaries.drop diff, next.data.drop ediff, next.size - diff⟩]) rest
        else none
      else
        pullChunk share front
          ⟨chunk.boundaries ++ next.boundaries, chunk.data ++ next.data,
            chunk.size + next.boundaries.length⟩
          (skipped ++ [⟨[], [], next.size - next.boundaries.length⟩]) rest
    else some (chunk, skipped ++ next :: rest)

/-- `*(boundaries.end() - n)`, which must not be in front of the first entry. -/
def fromEnd (boundaries : List ℕ) (n : ℕ) : Option ℕ :=
  if n ≤ boundaries.length then boundaries[boundaries.length - n]? else none

/-- `if (sizes[t] > share)`: what thread `t` pushes to the next chunk. -/
def pushChunk (share : ℕ) (chunk : Chunk T) (rest : List (Chunk T)) :
    Option (Chunk T × List (Chunk T)) :=
  if share < chunk.size then
    let diff := chunk.size - share
    match rest with
    | [] => none
    | next :: rest => do
      let last ← chunk.boundaries.getLast?
      let boundary ← fromEnd chunk.boundaries (diff + 1)
      let ediff := last - boundary
      if boundary ≤ last ∧ ediff ≤ chunk.data.length then
        let ends := chunk.boundaries.length - diff
        let edges := chunk.data.length - ediff
        pure (⟨chunk.boundaries.take ends, chunk.data.take edges, chunk.size - diff⟩,
          ⟨chunk.boundaries.drop ends ++ next.boundaries, chunk.data.drop edges ++ next.data,
            next.size + diff⟩ :: rest)
      else none
  else some (chunk, rest)

/-- The loop over the threads. The chunks in `front` are those of the threads in front. -/
def boundaryLoop : List (Chunk T) → List ℕ → List (Chunk T) → Option (List (Chunk T))
  | front, _, [] => some front
  | _, [], _ :: _ => none
  | front, share :: shares, chunk :: rest => do
    let (chunk, rest) ← pullChunk share front chunk [] rest
    let (chunk, rest) ← pushChunk share chunk rest
    boundaryLoop (front ++ [chunk]) shares rest

/-- The chunks, where `sizes[0]` does not count the leading boundary. -/
def chunksOf (boundaries : List (List ℕ)) (data : List (List T)) : List (Chunk T) :=
  (boundaries.zip data).mapIdx fun t chunk =>
    ⟨chunk.1, chunk.2, if t = 0 then chunk.1.length - 1 else chunk.1.length⟩

/-- **`serializededata::balance(boundaries, data, distribution)`** -/
def balanceBoundaries (boundaries : List (List ℕ)) (data : List (List T))
    (distribution : Option (List ℕ)) : Option (List (List ℕ) × List (List T)) :=
  let size := (boundaries.map List.length).sum
  if size = 0 then some (boundaries, data) else
    let distribution := distribution.getD (distribute data.length (size - 1))
    (boundaryLoop [] (shares boundaries.length 1 distribution) (chunksOf boundaries data)).map
      fun chunks => (chunks.map Chunk.boundaries, chunks.map Chunk.data)

/-! ## The chunks for given elements -/

/-- The ends of elements whose data begin at position `base`. -/
def endsFrom : ℕ → List (List T) → List ℕ
  | _, [] => []
  | base, element :: elements =>
    (base + element.length) :: endsFrom (base + element.length) elements

@[simp] lemma length_endsFrom (base : ℕ) (elements : List (List T)) :
    (endsFrom base elements).length = elements.length := by
  induction elements generalizing base with
  | nil => rfl
  | cons element elements ih => rw [endsFrom, List.length_cons, ih, List.length_cons]

lemma endsFrom_append (base : ℕ) (elements elements' : List (List T)) :
    endsFrom base (elements ++ elements')
      = endsFrom base elements ++ endsFrom (base + elements.flatten.length) elements' := by
  induction elements generalizing base with
  | nil => rfl
  | cons element elements ih =>
      rw [List.cons_append, endsFrom, ih, endsFrom, List.cons_append, List.flatten_cons,
        List.length_append, Nat.add_assoc]

lemma take_endsFrom (base k : ℕ) (elements : List (List T)) :
    (endsFrom base elements).take k = endsFrom base (elements.take k) := by
  induction elements generalizing base k with
  | nil => rw [endsFrom, List.take_nil, List.take_nil, endsFrom]
  | cons element elements ih =>
      cases k with
      | zero => rfl
      | succ k => rw [endsFrom, List.take_succ_cons, ih, List.take_succ_cons, endsFrom]

lemma drop_endsFrom (base k : ℕ) (elements : List (List T)) :
    (endsFrom base elements).drop k
      = endsFrom (base + (elements.take k).flatten.length) (elements.drop k) := by
  induction elements generalizing base k with
  | nil => rw [endsFrom, List.drop_nil, List.drop_nil, endsFrom]
  | cons element elements ih =>
      cases k with
      | zero => rfl
      | succ k =>
          rw [endsFrom, List.drop_succ_cons, ih, List.drop_succ_cons, List.take_succ_cons,
            List.flatten_cons, List.length_append, Nat.add_assoc]

lemma cons_endsFrom (base : ℕ) (elements : List (List T)) :
    base :: endsFrom base elements = (elements.map List.length).scanl (· + ·) base := by
  induction elements generalizing base with
  | nil => rfl
  | cons element elements ih => rw [endsFrom, ih, List.map_cons, List.scanl_cons]

lemma getElem?_cons_endsFrom (base : ℕ) (elements : List (List T)) {k : ℕ}
    (hk : k ≤ elements.length) :
    (base :: endsFrom base elements)[k]? = some (base + (elements.take k).flatten.length) := by
  rw [cons_endsFrom, getElem?_scanl_add _ _ _ (by rwa [List.length_map]), ← List.map_take,
    List.length_flatten]

/-- The chunk of a thread with given elements. Its boundaries begin with `lead`. -/
def encode (lead : List ℕ) (base : ℕ) (elements : List (List T)) : Chunk T :=
  ⟨lead ++ endsFrom base elements, elements.flatten, elements.length⟩

section Encode

variable (lead : List ℕ) (base : ℕ) (elements : List (List T))

@[simp] lemma encode_boundaries :
    (encode lead base elements).boundaries = lead ++ endsFrom base elements := rfl

@[simp] lemma encode_data : (encode lead base elements).data = elements.flatten := rfl

@[simp] lemma encode_size : (encode lead base elements).size = elements.length := rfl

end Encode

/-- **The chunks of threads** with given elements, where `lead` stands in front of all boundaries.
-/
def encodeAll : List ℕ → ℕ → List (List (List T)) → List (Chunk T)
  | _, _, [] => []
  | lead, base, chunk :: rest =>
    encode lead base chunk :: encodeAll [] (base + chunk.flatten.length) rest

lemma lastBoundary_eq (front : List (Chunk T)) :
    lastBoundary front = (front.flatMap Chunk.boundaries).getLast? := by
  induction front using List.reverseRecOn with
  | nil => rfl
  | append_singleton front chunk ih =>
      rw [List.flatMap_append, List.flatMap_singleton, lastBoundary, List.reverse_append,
        List.reverse_singleton, List.singleton_append, List.find?_cons]
      rcases eq_or_ne chunk.boundaries [] with hnil | hne
      · rw [hnil, List.append_nil]
        exact ih
      · rw [decide_eq_true (mt List.length_eq_zero_iff.mp hne), Option.bind_some,
          List.getLast?_append_of_ne_nil _ hne]

lemma getLast?_append_endsFrom {front : List ℕ} {base : ℕ} (h : front.getLast? = some base)
    (elements : List (List T)) :
    (front ++ endsFrom base elements).getLast? = some (base + elements.flatten.length) := by
  obtain ⟨pre, rfl⟩ := List.getLast?_eq_some_iff.mp h
  rw [List.append_assoc, List.singleton_append, cons_endsFrom,
    List.getLast?_append_of_ne_nil _ (List.scanl_ne_nil), getLast?_scanl_add, List.length_flatten]

/-! ## One thread -/

section Thread

variable {share base : ℕ} {lead : List ℕ} {front : List (Chunk T)}

lemma pullChunk_of_le {chunk : Chunk T} (h : share ≤ chunk.size) (skipped rest : List (Chunk T)) :
    pullChunk share front chunk skipped rest = some (chunk, skipped ++ rest) := by
  cases rest with
  | nil => rw [pullChunk, if_neg (Nat.not_lt.mpr h), List.append_nil]
  | cons next rest => rw [pullChunk, if_neg (Nat.not_lt.mpr h)]

lemma lastBoundary_skipped (hlast : (front.flatMap Chunk.boundaries ++ lead).getLast? = some base)
    (chunk : List (List T)) {skipped : List (Chunk T)}
    (hskipped : ∀ c ∈ skipped, c.boundaries = []) :
    lastBoundary (front ++ encode lead base chunk :: skipped)
      = some (base + chunk.flatten.length) := by
  rw [lastBoundary_eq, List.flatMap_append, List.flatMap_cons,
    List.flatMap_eq_nil_iff.mpr hskipped, List.append_nil, encode]
  dsimp only
  rw [← List.append_assoc]
  exact getLast?_append_endsFrom hlast chunk

lemma getElem?_endsFrom_pred (elements : List (List T)) {k : ℕ} (hpos : 0 < k)
    (hk : k ≤ elements.length) :
    (endsFrom base elements)[k - 1]? = some (base + (elements.take k).flatten.length) := by
  have h := getElem?_cons_endsFrom base elements hk
  obtain ⟨k, rfl⟩ : ∃ n, k = n + 1 := ⟨k - 1, by omega⟩
  rwa [List.getElem?_cons_succ] at h

lemma length_take_flatten_le (elements : List (List T)) (k : ℕ) :
    (elements.take k).flatten.length ≤ elements.flatten.length := by
  conv_rhs => rw [← List.take_append_drop k elements, List.flatten_append, List.length_append]
  exact Nat.le_add_right _ _

lemma length_take_add_drop (elements : List (List T)) (k : ℕ) :
    (elements.take k).flatten.length + (elements.drop k).flatten.length
      = elements.flatten.length := by
  rw [← List.length_append, ← List.flatten_append, List.take_append_drop]

lemma take_flatten_length (elements : List (List T)) (k : ℕ) :
    elements.flatten.take (elements.take k).flatten.length = (elements.take k).flatten := by
  conv_lhs => rw [← List.take_append_drop k elements, List.flatten_append]
  rw [List.take_append_drop, List.take_left]

lemma drop_flatten_length (elements : List (List T)) (k : ℕ) :
    elements.flatten.drop (elements.take k).flatten.length = (elements.drop k).flatten := by
  conv_lhs => rw [← List.take_append_drop k elements, List.flatten_append]
  rw [List.take_append_drop, List.drop_left]

lemma encode_append (lead : List ℕ) (base : ℕ) (elements elements' : List (List T)) :
    encode lead base (elements ++ elements')
      = ⟨lead ++ endsFrom base elements ++ endsFrom (base + elements.flatten.length) elements',
        elements.flatten ++ elements'.flatten, elements.length + elements'.length⟩ := by
  rw [encode, endsFrom_append, List.flatten_append, List.length_append, List.append_assoc]

lemma encode_drop (base : ℕ) (elements : List (List T)) (k : ℕ) :
    encode [] (base + (elements.take k).flatten.length) (elements.drop k)
      = ⟨(endsFrom base elements).drop k, elements.flatten.drop (elements.take k).flatten.length,
        elements.length - k⟩ := by
  rw [encode, drop_endsFrom, drop_flatten_length, List.length_drop, List.nil_append]

lemma pullChunk_eq (hlast : (front.flatMap Chunk.boundaries ++ lead).getLast? = some base)
    (chunk : List (List T)) (rest : List (List (List T))) (skipped : List (Chunk T))
    (hskipped : ∀ c ∈ skipped, c.boundaries = []) :
    pullChunk share front (encode lead base chunk) skipped
        (encodeAll [] (base + chunk.flatten.length) rest)
      = (pull share chunk rest).map fun p =>
        (encode lead base p.1, skipped ++ encodeAll [] (base + p.1.flatten.length) p.2) := by
  induction rest generalizing chunk skipped with
  | nil =>
      rw [encodeAll, pullChunk, pull, encode_size]
      split_ifs
      · rfl
      · rw [Option.map_some, encodeAll, List.append_nil]
  | cons next rest ih =>
      rcases Nat.lt_or_ge chunk.length share with hlt | hge
      · have hsize : (encode lead base chunk).size < share := hlt
        rw [encodeAll, pullChunk, if_pos hsize, pull, if_pos hlt]
        dsimp only
        rcases Nat.lt_or_ge (share - chunk.length) next.length with hdiff | hdiff
        · have hless : share - (encode lead base chunk).size
              < (encode [] (base + chunk.flatten.length) next).size := hdiff
          have hlength : share ≤ (chunk ++ next.take (share - chunk.length)).length := by
            rw [List.length_append, List.length_take]
            omega
          have hpulled : share ≤ chunk.length + (share - chunk.length) := by omega
          have hboundary :
              (endsFrom (base + chunk.flatten.length) next)[share - chunk.length - 1]?
                = some (base + chunk.flatten.length
                  + (next.take (share - chunk.length)).flatten.length) :=
            getElem?_endsFrom_pred next (Nat.sub_pos_of_lt hlt) hdiff.le
          rw [if_pos hless, if_pos hdiff, lastBoundary_skipped hlast chunk hskipped,
            pull_of_le hlength]
          simp only [encode_size, encode_boundaries, encode_data, List.nil_append, hboundary,
            Option.bind_eq_bind, Option.bind_some, Nat.add_sub_cancel_left, Option.pure_def,
            Option.map_some]
          have htake : (next.take (share - chunk.length)).length = share - chunk.length := by
            rw [List.length_take, Nat.min_eq_left hdiff.le]
          rw [if_pos ⟨Nat.le_add_right _ _, length_take_flatten_le _ _⟩, pullChunk_of_le hpulled,
            encode_append, encodeAll, List.flatten_append, List.length_append, ← Nat.add_assoc,
            encode_drop, take_flatten_length, take_endsFrom, htake,
            Nat.add_assoc _ _ (next.drop (share - chunk.length)).flatten.length,
            length_take_add_drop, List.append_assoc skipped]
          rfl
        · have hmore : ¬share - (encode lead base chunk).size
              < (encode [] (base + chunk.flatten.length) next).size := Nat.not_lt.mpr hdiff
          have hemptied : ∀ c ∈ skipped ++ [encode [] 0 []], (c : Chunk T).boundaries = [] := by
            intro c hc
            rcases List.mem_append.mp hc with hc | hc
            · exact hskipped c hc
            · rw [List.mem_singleton.mp hc]
              rfl
          have hnext := ih (chunk ++ next) _ hemptied
          rw [encode_append, List.flatten_append, List.length_append, ← Nat.add_assoc] at hnext
          rw [if_neg hmore, if_neg hdiff.not_gt]
          simp only [encode_size, encode_boundaries, encode_data, List.nil_append,
            length_endsFrom, Nat.sub_self]
          refine hnext.trans ?_
          cases pull share (chunk ++ next) rest with
          | none => rfl
          | some p =>
              simp only [Option.map_some, Option.bind_eq_bind, Option.bind_some, Option.pure_def,
                encodeAll, List.append_assoc, List.singleton_append]
              rfl
      · rw [pullChunk_of_le hge, pull_of_le hge]
        rfl

lemma boundaries_pushed {chunk : List (List T)} (hshare : share < chunk.length)
    (hlead : lead = [base] ∨ lead = [] ∧ 0 < share) :
    (lead ++ endsFrom base chunk).getLast? = some (base + chunk.flatten.length) ∧
      fromEnd (lead ++ endsFrom base chunk) (chunk.length - share + 1)
        = some (base + (chunk.take share).flatten.length) := by
  have hbase : ([base] ++ endsFrom base chunk).getLast? = some (base + chunk.flatten.length) :=
    getLast?_append_endsFrom rfl chunk
  rcases hlead with rfl | ⟨rfl, hpos⟩
  · refine ⟨hbase, ?_⟩
    have hlength : ([base] ++ endsFrom base chunk).length = chunk.length + 1 := by
      rw [List.length_append, length_endsFrom, List.length_singleton, Nat.add_comm]
    rw [fromEnd, hlength, if_pos (by omega),
      show chunk.length + 1 - (chunk.length - share + 1) = share by omega]
    exact getElem?_cons_endsFrom base chunk hshare.le
  · have hne : endsFrom base chunk ≠ [] := by
      rw [← List.length_pos_iff, length_endsFrom]
      omega
    rw [List.getLast?_append_of_ne_nil _ hne] at hbase
    refine ⟨hbase, ?_⟩
    rw [List.nil_append, fromEnd, length_endsFrom, if_pos (by omega),
      show chunk.length - (chunk.length - share + 1) = share - 1 by omega]
    exact getElem?_endsFrom_pred chunk hpos hshare.le

/-- **Pushed elements** are pushed as single values, if the boundary in front of them is one of the
chunk. -/
lemma pushChunk_eq {chunk : List (List T)} (rest : List (List (List T)))
    (hlead : share < chunk.length → lead = [base] ∨ lead = [] ∧ 0 < share) :
    pushChunk share (encode lead base chunk) (encodeAll [] (base + chunk.flatten.length) rest)
      = (push share chunk rest).map fun p =>
        (encode lead base p.1, encodeAll [] (base + p.1.flatten.length) p.2) := by
  rcases Nat.lt_or_ge share chunk.length with hlt | hge
  · have hsize : share < (encode lead base chunk).size := hlt
    rw [pushChunk, push, if_pos hsize, if_pos hlt]
    cases rest with
    | nil => rfl
    | cons next rest =>
        obtain ⟨hlast, hboundary⟩ := boundaries_pushed hlt (hlead hlt)
        rw [encodeAll]
        simp only [encode_size, encode_boundaries, encode_data, List.nil_append, hlast,
          hboundary, Option.bind_eq_bind, Option.bind_some, Option.pure_def]
        have hshare : chunk.length - (chunk.length - share) = share := by omega
        have hle := length_take_flatten_le chunk share
        have hedges : chunk.flatten.length - (base + chunk.flatten.length
            - (base + (chunk.take share).flatten.length)) = (chunk.take share).flatten.length := by
          omega
        have hends : (lead ++ endsFrom base chunk).length - (chunk.length - share)
            = lead.length + share := by
          rw [List.length_append, length_endsFrom]
          omega
        have htake : (chunk.take share).length = share := by
          rw [List.length_take, Nat.min_eq_left hlt.le]
        have hdrop : (chunk.drop share).length = chunk.length - share := List.length_drop
        have hrange : base + (chunk.take share).flatten.length ≤ base + chunk.flatten.length ∧
            base + chunk.flatten.length - (base + (chunk.take share).flatten.length)
              ≤ chunk.flatten.length := ⟨by omega, by omega⟩
        have hsum : base + (chunk.take share).flatten.length + (chunk.drop share).flatten.length
            = base + chunk.flatten.length := by
          rw [Nat.add_assoc, length_take_add_drop]
        refine (if_pos hrange).trans ?_
        rw [hshare, hedges, hends, List.take_length_add_append,
          take_endsFrom, take_flatten_length, List.drop_length_add_append, drop_endsFrom,
          drop_flatten_length, Option.map_some, encodeAll, encode_append, List.flatten_append,
          List.length_append]
        dsimp only
        rw [← Nat.add_assoc, hsum, hdrop, encode, htake, Nat.add_comm next.length,
          List.nil_append]
  · have hsize : ¬share < (encode lead base chunk).size := Nat.not_lt.mpr hge
    rw [pushChunk, push, if_neg hsize, if_neg (Nat.not_lt.mpr hge)]
    rfl

lemma pushChunk_eq_none {chunk : List (List T)} (hpos : 0 < chunk.length) (rest : List (Chunk T)) :
    pushChunk 0 (encode [] base chunk) rest = none := by
  have hsize : 0 < (encode [] base chunk).size := hpos
  have hfront : fromEnd (encode [] base chunk).boundaries ((encode [] base chunk).size - 0 + 1)
      = none := by
    rw [fromEnd, encode_size, encode_boundaries, List.nil_append, length_endsFrom,
      if_neg (by omega)]
  rw [pushChunk, if_pos hsize]
  cases rest with
  | nil => rfl
  | cons next rest =>
      dsimp only
      rw [hfront]
      cases (encode [] base chunk).boundaries.getLast? <;> rfl

def stepChunk (share : ℕ) (front : List (Chunk T)) (chunk : Chunk T) (rest : List (Chunk T)) :
    Option (Chunk T × List (Chunk T)) :=
  (pullChunk share front chunk [] rest).bind fun p => pushChunk share p.1 p.2

/-- **One thread** moves elements as single values, unless its share is empty and its chunk is not.
The first thread has a boundary in front of its elements. -/
lemma stepChunk_eq (hlast : (front.flatMap Chunk.boundaries ++ lead).getLast? = some base)
    {chunk : List (List T)} (rest : List (List (List T)))
    (hlead : lead = [base] ∨ lead = [] ∧ (share = 0 → chunk = [])) :
    stepChunk share front (encode lead base chunk)
        (encodeAll [] (base + chunk.flatten.length) rest)
      = (step share chunk rest).map fun p =>
        (encode lead base p.1, encodeAll [] (base + p.1.flatten.length) p.2) := by
  rw [stepChunk, step, pullChunk_eq hlast chunk rest [] fun c hc => absurd hc List.not_mem_nil]
  rcases hpull : pull share chunk rest with _ | ⟨chunk', rest'⟩
  · rfl
  · rw [Option.map_some, Option.bind_some, Option.bind_some]
    dsimp only
    rw [List.nil_append, pushChunk_eq]
    intro hlt
    refine hlead.imp_right fun h => ⟨h.1, Nat.pos_of_ne_zero fun hzero => ?_⟩
    obtain rfl := h.2 hzero
    rw [pull_of_le (by rw [hzero]; exact Nat.zero_le _), Option.some.injEq, Prod.mk.injEq] at hpull
    rw [← hpull.1] at hlt
    exact Nat.not_lt_zero _ hlt

lemma stepChunk_eq_none {chunk : List (List T)} (hne : chunk ≠ []) (rest : List (Chunk T)) :
    stepChunk 0 front (encode [] base chunk) rest = none := by
  rw [stepChunk, pullChunk_of_le (Nat.zero_le _), Option.bind_some]
  exact pushChunk_eq_none (List.length_pos_of_ne_nil hne) _

end Thread

/-! ## All threads -/

/-- **No empty share** follows on chunks that are too large, where the first share counts if `first`
is not set. -/
def Fits (first : Bool) (shares : List ℕ) (chunks : List (List T)) : Prop :=
  ∀ t < shares.length, (first = true → 0 < t) → shares[t]? = some 0 →
    (chunks.take (t + 1)).flatten.length ≤ (shares.take t).sum

lemma fits_cons {first : Bool} {share : ℕ} {shares : List ℕ} {chunk : List T}
    {rest rest' : List (List T)} (hends : ∀ j, 0 < j → share + (rest'.take j).flatten.length
      = max share (chunk.length + (rest.take j).flatten.length)) :
    Fits first (share :: shares) (chunk :: rest) ↔
      (first = false → share = 0 → chunk = []) ∧ Fits false shares rest' := by
  constructor
  · intro h
    refine ⟨fun hfirst hshare => ?_, fun t ht _ hzero => ?_⟩
    · have hchunk := h 0 (Nat.succ_pos _) (fun htrue => by rw [hfirst] at htrue; cases htrue)
        (congrArg some hshare)
      rw [List.take_succ_cons, List.take_zero, List.flatten_singleton, List.take_zero, List.sum_nil]
        at hchunk
      exact List.length_eq_zero_iff.mp (Nat.le_zero.mp hchunk)
    · have hnext := h (t + 1) (Nat.succ_lt_succ ht) (fun _ => Nat.succ_pos t) hzero
      have hend := hends (t + 1) (Nat.succ_pos t)
      rw [List.take_succ_cons, List.flatten_cons, List.length_append, List.take_succ_cons,
        List.sum_cons] at hnext
      omega
  · rintro ⟨hchunk, h⟩ t ht hfirst hzero
    cases t with
    | zero =>
        have hnil := hchunk (Bool.eq_false_iff.mpr fun htrue => lt_irrefl 0 (hfirst htrue))
          (Option.some.inj hzero)
        rw [hnil]
        exact Nat.zero_le _
    | succ t =>
        have hnext := h t (Nat.lt_of_succ_lt_succ ht) (fun hfalse => by cases hfalse) hzero
        have hend := hends (t + 1) (Nat.succ_pos t)
        rw [List.take_succ_cons, List.flatten_cons, List.length_append, List.take_succ_cons,
          List.sum_cons]
        omega

lemma boundaryLoop_cons (front : List (Chunk T)) (share : ℕ) (shares : List ℕ) (chunk : Chunk T)
    (rest : List (Chunk T)) :
    boundaryLoop front (share :: shares) (chunk :: rest) = (stepChunk share front chunk rest).bind
      fun p => boundaryLoop (front ++ [p.1]) shares p.2 := by
  rw [boundaryLoop, stepChunk, Option.bind_assoc]
  rfl

/-- **All threads** get their shares, or one of them reads in front of its boundaries. -/
lemma boundaryLoop_eq {first : Bool} {front : List (Chunk T)} {lead : List ℕ} {base : ℕ}
    {shares : List ℕ} {chunks : List (List (List T))}
    (hlast : (front.flatMap Chunk.boundaries ++ lead).getLast? = some base)
    (hlead : lead = if first then [base] else []) (hlength : shares.length = chunks.length)
    (hsum : shares.sum = chunks.flatten.length) :
    (Fits first shares chunks → boundaryLoop front shares (encodeAll lead base chunks)
      = some (front ++ encodeAll lead base (shares.splitLengths chunks.flatten))) ∧
    (¬Fits first shares chunks →
      boundaryLoop front shares (encodeAll lead base chunks) = none) := by
  induction shares generalizing first front lead base chunks with
  | nil =>
      obtain rfl := List.length_eq_zero_iff.mp hlength.symm
      refine ⟨fun _ => ?_, fun h => absurd (fun t ht => absurd ht (Nat.not_lt_zero t)) h⟩
      rw [encodeAll, boundaryLoop, List.splitLengths_nil, encodeAll, List.append_nil]
  | cons share shares ih =>
      rcases chunks with _ | ⟨chunk, rest⟩
      · cases hlength
      rw [List.length_cons, List.length_cons, Nat.add_right_cancel_iff] at hlength
      rw [List.sum_cons, List.flatten_cons, List.length_append] at hsum
      have hrest : rest = [] → chunk.length ≤ share := by
        rintro rfl
        obtain rfl := List.length_eq_zero_iff.mp hlength
        simpa using hsum.ge
      obtain ⟨rest', hstep, hrestlength, hflatten, hends⟩ := step_spec (by omega) hrest
      have hrestsum : shares.sum = rest'.flatten.length := by
        rw [hflatten, List.length_drop, List.length_append]
        omega
      rw [fits_cons hends, encodeAll, boundaryLoop_cons, List.splitLengths_cons, List.flatten_cons,
        encodeAll]
      by_cases hok : first = false → share = 0 → chunk = []
      · have hread : lead = [base] ∨ lead = [] ∧ (share = 0 → chunk = []) := by
          cases first with
          | true => exact Or.inl hlead
          | false => exact Or.inr ⟨hlead, hok rfl⟩
        have hnext : ((front ++ [encode lead base ((chunk ++ rest.flatten).take share)]).flatMap
            Chunk.boundaries ++ []).getLast?
            = some (base + ((chunk ++ rest.flatten).take share).flatten.length) := by
          rw [List.append_nil, List.flatMap_append, List.flatMap_singleton, encode_boundaries,
            ← List.append_assoc]
          exact getLast?_append_endsFrom hlast _
        obtain ⟨hyes, hno⟩ := ih hnext (if_neg Bool.false_ne_true).symm
          (hlength.trans hrestlength.symm) hrestsum
        rw [stepChunk_eq hlast rest hread, hstep, Option.map_some, Option.bind_some]
        refine ⟨fun h => (hyes h.2).trans ?_, fun h => hno fun hfits => h ⟨hok, hfits⟩⟩
        rw [hflatten, List.append_assoc, List.singleton_append]
      · push Not at hok
        obtain ⟨rfl, rfl, hne⟩ := hok
        rw [hlead, if_neg Bool.false_ne_true, stepChunk_eq_none hne, Option.bind_none]
        exact ⟨fun h => absurd (h.1 rfl rfl) hne, fun _ => rfl⟩

/-! ## Serialized structures in chunks -/

lemma take_encodeAll (lead : List ℕ) (base k : ℕ) (chunks : List (List (List T))) :
    (encodeAll lead base chunks).take k = encodeAll lead base (chunks.take k) := by
  induction chunks generalizing lead base k with
  | nil => rw [encodeAll, List.take_nil, List.take_nil, encodeAll]
  | cons chunk rest ih =>
      cases k with
      | zero => rw [List.take_zero, List.take_zero, encodeAll]
      | succ k => rw [encodeAll, List.take_succ_cons, ih, List.take_succ_cons, encodeAll]

lemma flatMap_boundaries_nil (base : ℕ) (chunks : List (List (List T))) :
    (encodeAll [] base chunks).flatMap Chunk.boundaries = endsFrom base chunks.flatten := by
  induction chunks generalizing base with
  | nil => rfl
  | cons chunk rest ih =>
      rw [encodeAll, List.flatMap_cons, ih, encode_boundaries, List.nil_append, List.flatten_cons,
        endsFrom_append]

lemma flatMap_boundaries {lead : List ℕ} {base : ℕ} {chunks : List (List (List T))}
    (hne : chunks ≠ []) :
    (encodeAll lead base chunks).flatMap Chunk.boundaries
      = lead ++ endsFrom base chunks.flatten := by
  obtain ⟨chunk, rest, rfl⟩ := List.exists_cons_of_ne_nil hne
  rw [encodeAll, List.flatMap_cons, flatMap_boundaries_nil, encode_boundaries, List.append_assoc,
    List.flatten_cons, endsFrom_append]

lemma map_data (lead : List ℕ) (base : ℕ) (chunks : List (List (List T))) :
    (encodeAll lead base chunks).map Chunk.data = chunks.map List.flatten := by
  induction chunks generalizing lead base with
  | nil => rfl
  | cons chunk rest ih => rw [encodeAll, List.map_cons, ih, encode_data, List.map_cons]

lemma length_encodeAll (lead : List ℕ) (base : ℕ) (chunks : List (List (List T))) :
    (encodeAll lead base chunks).length = chunks.length := by
  have h := congrArg List.length (map_data lead base chunks)
  rwa [List.length_map, List.length_map] at h

lemma length_boundaries (lead : List ℕ) (base : ℕ) (chunks : List (List (List T))) (t : ℕ) :
    ((encodeAll lead base chunks)[t]?).map (·.boundaries.length)
      = (chunks[t]?).map fun chunk => chunk.length + if t = 0 then lead.length else 0 := by
  induction chunks generalizing lead base t with
  | nil => rfl
  | cons chunk rest ih =>
      rw [encodeAll]
      cases t with
      | zero =>
          simp only [List.getElem?_cons_zero, Option.map_some, encode_boundaries,
            List.length_append, length_endsFrom, if_pos, Nat.add_comm]
      | succ t =>
          rw [List.getElem?_cons_succ, List.getElem?_cons_succ, ih]
          simp

/-- **A serialized structure** in the chunks of threads. The boundaries begin with `0` and are
positions in the data of all threads, and a chunk of data ends at the last boundary so far. -/
structure Chunked (boundaries : List (List ℕ)) (data : List (List T)) : Prop where
  length_eq : data.length = boundaries.length
  first : ∃ ends rest, boundaries = (0 :: ends) :: rest
  sorted : boundaries.flatten.Pairwise (· ≤ ·)
  ends : ∀ t < boundaries.length,
    (boundaries.take (t + 1)).flatten.getLast? = some (data.take (t + 1)).flatten.length

lemma le_of_getLast? {x y : ℕ} {l : List ℕ} (hsorted : (x :: l).Pairwise (· ≤ ·))
    (hlast : (x :: l).getLast? = some y) : x ≤ y := by
  rcases List.mem_cons.mp (List.mem_of_getLast? hlast) with rfl | hmem
  · exact le_rfl
  · exact (List.pairwise_cons.mp hsorted).1 y hmem

lemma exists_endsFrom {base : ℕ} {b : List ℕ} {d : List T}
    (hsorted : (base :: b).Pairwise (· ≤ ·))
    (hlast : (base :: b).getLast? = some (base + d.length)) :
    ∃ elements : List (List T), b = endsFrom base elements ∧ d = elements.flatten := by
  induction b generalizing base d with
  | nil =>
      rw [List.getLast?_singleton, Option.some.injEq] at hlast
      exact ⟨[], rfl, List.length_eq_zero_iff.mp (by omega)⟩
  | cons e b ih =>
      have hbase : base ≤ e := (List.pairwise_cons.mp hsorted).1 e List.mem_cons_self
      rw [List.getLast?_cons_cons] at hlast
      have hrest := (List.pairwise_cons.mp hsorted).2
      have he := le_of_getLast? hrest hlast
      have hend : e + (d.drop (e - base)).length = base + d.length := by
        rw [List.length_drop]
        omega
      obtain ⟨elements, hb, hd⟩ := ih hrest (hlast.trans (congrArg some hend.symm))
      have htake : base + (d.take (e - base)).length = e := by
        rw [List.length_take]
        omega
      refine ⟨d.take (e - base) :: elements, ?_, ?_⟩
      · rw [endsFrom, htake, ← hb]
      · rw [List.flatten_cons, ← hd, List.take_append_drop]

lemma getLast?_append_cons {front l : List ℕ} {x : ℕ} (h : front.getLast? = some x) :
    (front ++ l).getLast? = (x :: l).getLast? := by
  obtain ⟨pre, rfl⟩ := List.getLast?_eq_some_iff.mp h
  rw [List.append_assoc, List.singleton_append,
    List.getLast?_append_of_ne_nil _ (List.cons_ne_nil x l)]

lemma exists_chunks {base : ℕ} {bs : List (List ℕ)} {ds : List (List T)}
    (hlength : ds.length = bs.length) (hsorted : (base :: bs.flatten).Pairwise (· ≤ ·))
    (hends : ∀ t < bs.length, (base :: (bs.take (t + 1)).flatten).getLast?
      = some (base + (ds.take (t + 1)).flatten.length)) :
    ∃ chunks : List (List (List T)), bs = (encodeAll [] base chunks).map Chunk.boundaries ∧
      ds = chunks.map List.flatten := by
  induction bs generalizing base ds with
  | nil => exact ⟨[], rfl, List.length_eq_zero_iff.mp hlength⟩
  | cons b bs ih =>
      rcases ds with _ | ⟨d, ds⟩
      · cases hlength
      have hfirst := hends 0 (Nat.succ_pos _)
      rw [List.take_succ_cons, List.take_zero, List.flatten_singleton, List.take_succ_cons,
        List.take_zero, List.flatten_singleton] at hfirst
      rw [List.flatten_cons, ← List.cons_append, List.pairwise_append] at hsorted
      obtain ⟨elements, rfl, rfl⟩ := exists_endsFrom hsorted.1 hfirst
      have hnext : ((base + elements.flatten.length) :: bs.flatten).Pairwise (· ≤ ·) :=
        List.pairwise_cons.mpr
          ⟨fun x hx => hsorted.2.2 _ (List.mem_of_getLast? hfirst) x hx, hsorted.2.1⟩
      obtain ⟨chunks, hbs, hds⟩ := ih (Nat.succ.inj hlength) hnext fun t ht => by
        have hend := hends (t + 1) (Nat.succ_lt_succ ht)
        rw [List.take_succ_cons, List.flatten_cons, ← List.cons_append,
          getLast?_append_cons hfirst, List.take_succ_cons, List.flatten_cons, List.length_append,
          ← Nat.add_assoc] at hend
        exact hend
      refine ⟨elements :: chunks, ?_, ?_⟩
      · rw [encodeAll, List.map_cons, ← hbs, encode_boundaries, List.nil_append]
      · rw [List.map_cons, ← hds]

lemma mapIdx_encodeAll (base : ℕ) (chunks : List (List (List T))) :
    ((encodeAll [] base chunks).map fun chunk => (chunk.boundaries, chunk.data)).map
      (fun chunk => (⟨chunk.1, chunk.2, chunk.1.length⟩ : Chunk T)) = encodeAll [] base chunks := by
  induction chunks generalizing base with
  | nil => rfl
  | cons chunk rest ih =>
      rw [encodeAll, List.map_cons, List.map_cons, ih, encode, List.nil_append, length_endsFrom]

/-- **Every serialized structure** is the one for its elements. -/
lemma Chunked.exists_encodeAll {boundaries : List (List ℕ)} {data : List (List T)}
    (h : Chunked boundaries data) :
    ∃ chunks, chunks ≠ [] ∧ chunksOf boundaries data = encodeAll [0] 0 chunks ∧
      boundaries = (encodeAll [0] 0 chunks).map Chunk.boundaries ∧
      data = chunks.map List.flatten := by
  obtain ⟨hlength, ⟨ends, rest, rfl⟩, hsorted, hends⟩ := h
  have hfrom : ∀ t < (ends :: rest).length,
      (0 :: ((ends :: rest).take (t + 1)).flatten).getLast?
        = some (0 + (data.take (t + 1)).flatten.length) := by
    intro t ht
    rw [Nat.zero_add]
    exact hends t ht
  have hcount : data.length = (ends :: rest).length := hlength
  have hascending : (0 :: (ends :: rest).flatten).Pairwise (· ≤ ·) := hsorted
  obtain ⟨chunks, hbs, hds⟩ := exists_chunks hcount hascending hfrom
  rcases chunks with _ | ⟨chunk, chunks⟩
  · cases hbs
  rw [encodeAll, List.map_cons, List.cons.injEq, encode_boundaries, List.nil_append,
    Nat.zero_add] at hbs
  obtain ⟨rfl, rfl⟩ := hbs
  refine ⟨chunk :: chunks, List.cons_ne_nil _ _, ?_, ?_, hds⟩
  · have hzip : ((encodeAll [] chunk.flatten.length chunks).map Chunk.boundaries).zip
        (chunks.map List.flatten) = (encodeAll [] chunk.flatten.length chunks).map
          fun chunk => (chunk.boundaries, chunk.data) := by
      rw [← map_data [] chunk.flatten.length, List.zip_map']
    rw [hds, List.map_cons, chunksOf, List.zip_cons_cons, List.mapIdx_cons, if_pos rfl, hzip,
      encodeAll, Nat.zero_add]
    refine congrArg₂ List.cons ?_ ?_
    · rw [encode, List.length_cons, length_endsFrom, Nat.add_sub_cancel, List.singleton_append]
    · conv_rhs => rw [← mapIdx_encodeAll]
      simp only [Nat.add_eq_zero_iff, one_ne_zero, and_false, if_false]
      exact List.ext_getElem? fun i => by
        rw [List.getElem?_mapIdx, List.getElem?_map, List.getElem?_map, List.getElem?_map]
  · rw [encodeAll, List.map_cons, encode_boundaries, List.singleton_append, Nat.zero_add]

/-! ## Balanced structures -/

/-- **The structure is balanced**: it is the same, and each thread has its elements and their data.
The first thread has the leading boundary, too. -/
structure BoundariesBalanced {elements : ℕ} (boundaries : List (List ℕ)) (data : List (List T))
    (d : Distribution boundaries.length elements) (out : List (List ℕ) × List (List T)) :
    Prop where
  boundaries_flatten : out.1.flatten = boundaries.flatten
  data_flatten : out.2.flatten = data.flatten
  boundaries_chunks : out.1.length = boundaries.length
  data_chunks : out.2.length = boundaries.length
  boundaries_length : ∀ t < boundaries.length, (out.1.getD t []).length
    = d.border (t + 1) - d.border t + if t = 0 then 1 else 0
  data_length : ∀ t < boundaries.length, (out.2.getD t []).length
    = boundaries.flatten.getD (d.border (t + 1)) 0 - boundaries.flatten.getD (d.border t) 0

section Distributed

variable {threads elements : ℕ} (d : Distribution threads elements)

lemma shares_eq :
    shares threads 1 d.borders
      = (List.range threads).map fun t => d.border (t + 1) - d.border t := by
  refine List.ext_getElem (by simp [shares]) fun t ht ht' => ?_
  have hlt : t < threads := by simpa using ht'
  rw [getElem_shares d 1 hlt, Nat.one_mul, List.getElem_map, List.getElem_range]

lemma sum_take_shares {t : ℕ} (ht : t ≤ threads) :
    ((shares threads 1 d.borders).take t).sum = d.border t := by
  rw [shares_eq, ← List.map_take, List.take_range, Nat.min_eq_left ht, sum_sizes d ht]

lemma splitLengths_shares (all : List (List T)) {t : ℕ} (ht : t < threads) :
    ((shares threads 1 d.borders).splitLengths all)[t]?
      = some (window all (d.border t) (d.border (t + 1))) := by
  rw [getElem?_splitLengths, sum_take_shares d ht.le, shares_eq, List.getElem?_map,
    List.getElem?_range ht]
  rfl

lemma fits_shares_iff (chunks : List (List (List T))) :
    Fits true (shares threads 1 d.borders) chunks ↔
      ∀ t, 0 < t → t < threads → d.border t = d.border (t + 1) →
        (chunks.take (t + 1)).flatten.length ≤ d.border t := by
  have hlength : (shares threads 1 d.borders).length = threads := by
    rw [shares, List.length_map, List.length_range]
  have hzero : ∀ t < threads,
      (shares threads 1 d.borders)[t]? = some 0 ↔ d.border t = d.border (t + 1) := by
    intro t ht
    have hmono := d.border_mono (Nat.le_add_right t 1) ht
    rw [shares_eq, List.getElem?_map, List.getElem?_range ht, Option.map_some, Option.some.injEq]
    omega
  constructor
  · intro h t hpos ht hempty
    rw [← sum_take_shares d ht.le]
    exact h t (by rwa [hlength]) (fun _ => hpos) ((hzero t ht).mpr hempty)
  · intro h t ht hfirst hempty
    rw [hlength] at ht
    rw [sum_take_shares d ht.le]
    exact h t (hfirst rfl) ht ((hzero t ht).mp hempty)

lemma length_flatten_window (all : List (List T)) {a b : ℕ} (hab : a ≤ b) (hb : b ≤ all.length) :
    (window all a b).flatten.length = (0 :: endsFrom 0 all).getD b 0
      - (0 :: endsFrom 0 all).getD a 0 := by
  have hread : ∀ k ≤ all.length,
      (0 :: endsFrom 0 all).getD k 0 = (all.take k).flatten.length := by
    intro k hk
    rw [List.getD_eq_getElem?_getD, getElem?_cons_endsFrom 0 all hk, Option.getD_some, Nat.zero_add]
  obtain ⟨n, rfl⟩ := Nat.exists_eq_add_of_le hab
  rw [hread _ hb, hread _ (hab.trans hb), window, Nat.add_sub_cancel_left, List.take_add,
    List.flatten_append, List.length_append, Nat.add_sub_cancel_left]

end Distributed

lemma balanced_encodeAll {chunks parts : List (List (List T))} {boundaries : List (List ℕ)}
    {data : List (List T)} (hne : chunks ≠ [])
    (hboundaries : boundaries = (encodeAll [0] 0 chunks).map Chunk.boundaries)
    (hdata : data = chunks.map List.flatten) {elements : ℕ}
    (helements : chunks.flatten.length = elements)
    (d : Distribution boundaries.length elements)
    (hparts : parts = (shares boundaries.length 1 d.borders).splitLengths chunks.flatten) :
    BoundariesBalanced boundaries data d ((encodeAll [0] 0 parts).map Chunk.boundaries,
      (encodeAll [0] 0 parts).map Chunk.data) := by
  have hlength : parts.length = boundaries.length := by
    rw [hparts, List.length_splitLengths, shares, List.length_map, List.length_range]
  have hflatten : parts.flatten = chunks.flatten := by
    rw [hparts, List.flatten_splitLengths]
    rw [sum_shares, Nat.one_mul, helements]
  have hnonempty : parts ≠ [] := by
    rw [← List.length_pos_iff, hlength, hboundaries, List.length_map, length_encodeAll,
      List.length_pos_iff]
    exact hne
  have hall : boundaries.flatten = 0 :: endsFrom 0 chunks.flatten := by
    rw [hboundaries, ← List.flatMap_def, flatMap_boundaries hne, List.singleton_append]
  have hpart : ∀ t < boundaries.length, parts[t]?
      = some (window chunks.flatten (d.border t) (d.border (t + 1))) := by
    intro t ht
    rw [hparts, splitLengths_shares d _ ht]
  constructor
  · rw [hall, ← List.flatMap_def, flatMap_boundaries hnonempty, hflatten, List.singleton_append]
  · rw [map_data, hdata, ← List.flatten_flatten, ← List.flatten_flatten, hflatten]
  · rw [List.length_map, length_encodeAll, hlength]
  · rw [List.length_map, length_encodeAll, hlength]
  · intro t ht
    have hentry := length_boundaries [0] 0 parts t
    rw [hpart t ht, Option.map_some, Option.map_eq_some_iff] at hentry
    obtain ⟨chunk, hchunk, hsize⟩ := hentry
    have hborder : d.border (t + 1) ≤ chunks.flatten.length := helements ▸ d.border_le_total ht
    rw [List.getD_eq_getElem?_getD, List.getElem?_map, hchunk, Option.map_some, Option.getD_some,
      hsize, length_window _ hborder, List.length_singleton]
  · intro t ht
    have hborder : d.border (t + 1) ≤ chunks.flatten.length := helements ▸ d.border_le_total ht
    rw [map_data, List.getD_eq_getElem?_getD, List.getElem?_map, hpart t ht, Option.map_some,
      Option.getD_some, hall,
      length_flatten_window _ (d.border_mono (Nat.le_add_right t 1) ht) hborder]

lemma uniform_empty {threads : ℕ} (h : 0 < threads) (size : ℕ) {t : ℕ} (ht : t < threads)
    (hempty : (Distribution.uniform h size).border t
      = (Distribution.uniform h size).border (t + 1)) :
    (Distribution.uniform h size).border t = size := by
  have hborder : ∀ i < threads, (Distribution.uniform h size).border i
      = min (i * ((size + threads - 1) / threads)) size := by
    intro i hi
    have hget := (Distribution.uniform h size).getElem?_eq hi.le
    have hread := distribute_getD size hi
    rw [List.getD_eq_getElem?_getD] at hread
    rw [← hread]
    exact (congrArg (Option.getD · 0) hget).symm
  rcases Nat.lt_or_ge (t + 1) threads with hlt | hge
  · rw [hborder t ht, hborder (t + 1) hlt, Nat.add_mul, Nat.one_mul] at hempty
    rw [hborder t ht]
    rcases Nat.eq_zero_or_pos size with rfl | hpos
    · exact Nat.min_zero _
    · have hchunk : 0 < (size + threads - 1) / threads := Nat.div_pos (by omega) h
      omega
  · obtain rfl : t + 1 = threads := by omega
    rw [hempty, Distribution.border_size]

/-- **With a distribution**, the threads get their elements if and only if no empty share follows on
chunks that are too large. -/
lemma balanceBoundaries_supplied_iff {boundaries : List (List ℕ)} {data : List (List T)}
    (h : Chunked boundaries data)
    (d : Distribution boundaries.length (boundaries.flatten.length - 1)) :
    (∃ out, balanceBoundaries boundaries data (some d.borders) = some out ∧
      BoundariesBalanced boundaries data d out) ↔
    ∀ t, 0 < t → t < boundaries.length → d.border t = d.border (t + 1) →
      (boundaries.take (t + 1)).flatten.length ≤ d.border t + 1 := by
  obtain ⟨chunks, hne, hchunks, hboundaries, hdata⟩ := h.exists_encodeAll
  have hcount : ∀ t, 0 < t →
      (boundaries.take t).flatten.length = (chunks.take t).flatten.length + 1 := by
    intro t ht
    have htake : chunks.take t ≠ [] := by
      rw [ne_eq, List.take_eq_nil_iff]
      rintro (hzero | hnil)
      · omega
      · exact hne hnil
    rw [hboundaries, ← List.map_take, take_encodeAll, ← List.flatMap_def, flatMap_boundaries htake,
      List.length_append, List.length_singleton, length_endsFrom, Nat.add_comm]
  have hlength : boundaries.length = chunks.length := by
    rw [hboundaries, List.length_map, length_encodeAll]
  have hall : boundaries.flatten.length = chunks.flatten.length + 1 := by
    have hfull := hcount boundaries.length (by rw [hlength]; exact List.length_pos_of_ne_nil hne)
    rwa [List.take_length, hlength, List.take_length] at hfull
  have helements : chunks.flatten.length = boundaries.flatten.length - 1 := by omega
  have hsum : (shares boundaries.length 1 d.borders).sum = chunks.flatten.length := by
    rw [sum_shares, Nat.one_mul, helements]
  have hshares : (shares boundaries.length 1 d.borders).length = chunks.length := by
    rw [shares, List.length_map, List.length_range, hlength]
  have hbalance : balanceBoundaries boundaries data (some d.borders)
      = (boundaryLoop [] (shares boundaries.length 1 d.borders) (encodeAll [0] 0 chunks)).map
        fun chunks => (chunks.map Chunk.boundaries, chunks.map Chunk.data) := by
    have hsize : ¬(boundaries.map List.length).sum = 0 := by
      rw [← List.length_flatten]
      omega
    rw [balanceBoundaries, if_neg hsize, Option.getD_some, hchunks]
  have hlast : (([] : List (Chunk T)).flatMap Chunk.boundaries ++ [0]).getLast? = some 0 := rfl
  have hlead : [0] = if true = true then [0] else [] := rfl
  obtain ⟨hyes, hno⟩ := boundaryLoop_eq hlast hlead hshares hsum
  rw [hbalance]
  constructor
  · rintro ⟨out, hout, -⟩ t hpos ht hempty
    have hfits : Fits true (shares boundaries.length 1 d.borders) chunks := by
      by_contra hnot
      rw [hno hnot] at hout
      cases hout
    have hle := (fits_shares_iff d chunks).mp hfits t hpos ht hempty
    rw [hcount (t + 1) (Nat.succ_pos t)]
    omega
  · intro hcondition
    have hfits : Fits true (shares boundaries.length 1 d.borders) chunks := by
      refine (fits_shares_iff d chunks).mpr fun t hpos ht hempty => ?_
      have hle := hcondition t hpos ht hempty
      rw [hcount (t + 1) (Nat.succ_pos t)] at hle
      omega
    refine ⟨_, by rw [hyes hfits, List.nil_append, Option.map_some], ?_⟩
    exact balanced_encodeAll hne hboundaries hdata helements d rfl

/-- **`serializededata::balance`** with boundaries gives each thread its elements if and only if no
empty share of a supplied distribution follows on chunks that are too large. -/
theorem balanceBoundaries_iff {boundaries : List (List ℕ)} {data : List (List T)}
    (h : Chunked boundaries data) (hthreads : 0 < boundaries.length)
    (distribution : Option (Distribution boundaries.length (boundaries.flatten.length - 1))) :
    (∃ out, balanceBoundaries boundaries data (distribution.map Distribution.borders) = some out ∧
      BoundariesBalanced boundaries data
        (distribution.getD (Distribution.uniform hthreads _)) out) ↔
    ∀ d, distribution = some d →
      ∀ t, 0 < t → t < boundaries.length → d.border t = d.border (t + 1) →
        (boundaries.take (t + 1)).flatten.length ≤ d.border t + 1 := by
  cases distribution with
  | some d =>
      refine (balanceBoundaries_supplied_iff h d).trans ⟨fun hd d' hd' => ?_, fun hd => hd d rfl⟩
      rw [← Option.some.inj hd']
      exact hd
  | none =>
      have hdefault : balanceBoundaries boundaries data none = balanceBoundaries boundaries data
          (some (Distribution.uniform hthreads (boundaries.flatten.length - 1)).borders) := by
        rw [balanceBoundaries, balanceBoundaries, Option.getD_none, Option.getD_some, h.length_eq,
          ← List.length_flatten]
        rfl
      rw [Option.map_none, Option.getD_none, hdefault, balanceBoundaries_supplied_iff h]
      refine iff_of_true (fun t _ ht hempty => ?_) fun d hd => by cases hd
      rw [uniform_empty hthreads _ ht hempty]
      have hle := ((List.take_sublist (t + 1) boundaries).flatten).length_le
      omega

lemma twoThreads_chunked : Chunked [[0, 1, 3], [4]] [[5, 6, 7], [8]] where
  length_eq := rfl
  first := ⟨[1, 3], [[4]], rfl⟩
  sorted := by decide
  ends := by decide

theorem balanceBoundaries_iff_twoThreads :
    (∃ out, balanceBoundaries [[0, 1, 3], [4]] [[5, 6, 7], [8]] none = some out ∧
      BoundariesBalanced [[0, 1, 3], [4]] [[5, 6, 7], [8]]
        (Distribution.uniform Nat.two_pos 3) out) ↔
    ∀ d : Distribution 2 3, none = some d → ∀ t, 0 < t → t < 2 → d.border t = d.border (t + 1) →
      (([[0, 1, 3], [4]] : List (List ℕ)).take (t + 1)).flatten.length ≤ d.border t + 1 :=
  balanceBoundaries_iff twoThreads_chunked Nat.two_pos none

def lastOfThree : Distribution 3 1 where
  borders := [0, 0, 0, 1]
  length_eq := rfl
  sorted := by decide
  first := rfl
  last := rfl

theorem balanceBoundaries_not_balanced :
    ¬∃ out, balanceBoundaries [[0], [1], []] [[], [7], []] (some lastOfThree.borders) = some out ∧
      BoundariesBalanced [[0], [1], []] [[], [7], []] lastOfThree out := by
  rintro ⟨out, hout, -⟩
  have hnone : balanceBoundaries [[0], [1], []] [[], [7], []] (some lastOfThree.borders) = none :=
    rfl
  rw [hnone] at hout
  cases hout

end ThreadBalance

end Espreso
