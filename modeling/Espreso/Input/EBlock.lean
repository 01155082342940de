import Espreso.Input.WorkbenchParser

/-!
# Reading of elements from a Workbench file

* `EBlock` — an `EBLOCK`, as its commands are parsed.
* `EBlock.fixOffsets` — the move of the borders of ranks that lie between two lines of an element.
* `EBlock.solid` — the elements that a rank reads.
* `EBlock.Solid` — the layout of a block; `EBlock.elementAt`, the elements of it.
-/

namespace Espreso

namespace Workbench

open Lines

/-! ## Types of elements -/

/-- `ET::ETYPE` -/
inductive ETYPE
  | D2SOLID_4NODES
  | D2SOLID_6NODES
  | D2SOLID_8NODES
  | D3SOLID_4NODES
  | D3SOLID_8NODES
  | D3SOLID_10NODES
  | D3SOLID_20NODES
  | D2SURFACE
  | D3SURFACE
  | UNIVERSAL
  | UNKNOWN
  deriving DecidableEq

namespace ETYPE

/-- `ET::etype` -/
def ofType (type : ℤ) : ETYPE :=
  if type = 35 then D2SOLID_6NODES
  else if type ∈ [55, 162, 182] then D2SOLID_4NODES
  else if type ∈ [77, 183] then D2SOLID_8NODES
  else if type ∈ [70, 164, 185, 278] then D3SOLID_8NODES
  else if type ∈ [87, 168, 187] then D3SOLID_10NODES
  else if type ∈ [90, 186, 279] then D3SOLID_20NODES
  else if type = 285 then D3SOLID_4NODES
  else if type ∈ [151, 153] then D2SURFACE
  else if type ∈ [152, 154, 155, 156] then D3SURFACE
  else if type = 200 then UNIVERSAL
  else UNKNOWN

def nodes : ETYPE → Option ℕ
  | D2SOLID_4NODES | D3SOLID_4NODES => some 4
  | D2SOLID_6NODES => some 6
  | D2SOLID_8NODES | D3SOLID_8NODES => some 8
  | D3SOLID_10NODES => some 10
  | D3SOLID_20NODES => some 20
  | D2SURFACE | D3SURFACE | UNIVERSAL | UNKNOWN => none

/-- The types with a second line, that is read by `readNextNodes`. -/
def SecondLine (type : ETYPE) : Prop := type = D3SOLID_10NODES ∨ type = D3SOLID_20NODES

instance (type : ETYPE) : Decidable type.SecondLine := inferInstanceAs (Decidable (_ ∨ _))

lemma secondLine_iff {type : ETYPE} {n : ℕ} (h : type.nodes = some n) :
    type.SecondLine ↔ 8 < n := by
  cases type
  all_goals
    simp only [nodes, Option.some.injEq, reduceCtorEq] at h
    try subst h
    try simp [SecondLine]

end ETYPE

/-- The types of elements that are created. -/
inductive Code
  | TRIANGLE3
  | SQUARE4
  | TRIANGLE6
  | SQUARE8
  | TETRA4
  | TETRA10
  | PRISMA6
  | PRISMA15
  | PYRAMID5
  | PYRAMID13
  | HEXA8
  | HEXA20
  deriving DecidableEq

/-- **The element for a type and nodes**: its size, code and nodes.  Nodes that are the same twice
mark a degenerated element.  The other types are an error. -/
def convert (type : ETYPE) (nindices : List ℤ) : Option (ℕ × Code × List ℤ) :=
  let at' := fun i => nindices.getD i 0
  let nodes := window nindices
  match type with
  | .D2SOLID_4NODES =>
    if at' 2 = at' 3 then some (3, .TRIANGLE3, nodes 0 3) else some (4, .SQUARE4, nodes 0 4)
  | .D2SOLID_6NODES => some (6, .TRIANGLE6, nodes 0 6)
  | .D2SOLID_8NODES =>
    if at' 2 = at' 3 then some (6, .TRIANGLE6, nodes 0 3 ++ nodes 4 6 ++ [at' 7])
    else some (8, .SQUARE8, nodes 0 8)
  | .D3SOLID_4NODES => some (4, .TETRA4, nodes 0 4)
  | .D3SOLID_8NODES =>
    if at' 2 = at' 3 then
      if at' 4 = at' 5 then some (4, .TETRA4, nodes 0 3 ++ [at' 4])
      else some (6, .PRISMA6, nodes 0 3 ++ nodes 4 7)
    else
      if at' 4 = at' 5 then some (5, .PYRAMID5, nodes 0 5) else some (8, .HEXA8, nodes 0 8)
  | .D3SOLID_10NODES => some (10, .TETRA10, nodes 0 10)
  | .D3SOLID_20NODES =>
    if at' 2 = at' 3 then
      if at' 4 = at' 5 then
        some (10, .TETRA10, nodes 0 3 ++ [at' 4] ++ nodes 8 10 ++ [at' 11] ++ nodes 16 19)
      else
        some (15, .PRISMA15, nodes 0 3 ++ nodes 4 7 ++ nodes 8 10 ++ [at' 11] ++ nodes 12 14 ++
          [at' 15] ++ nodes 16 19)
    else
      if at' 4 = at' 5 then some (13, .PYRAMID13, nodes 0 5 ++ nodes 8 12 ++ nodes 16 20)
      else some (20, .HEXA20, nodes 0 20)
  | .D2SURFACE | .D3SURFACE | .UNIVERSAL | .UNKNOWN => none

lemma window_take {T : Type} (l : List T) {n a b : ℕ} (h : b ≤ n) :
    window (l.take n) a b = window l a b := by
  rw [window, window, List.drop_take, List.take_take, min_eq_left (by omega)]

lemma getD_take {T : Type} (l : List T) {n i : ℕ} (h : i < n) (d : T) :
    (l.take n).getD i d = l.getD i d := by
  rw [List.getD_eq_getElem?_getD, List.getD_eq_getElem?_getD, List.getElem?_take, if_pos h]

lemma convert_take {type : ETYPE} {n : ℕ} (h : type.nodes = some n) (nindices : List ℤ) :
    convert type (nindices.take n) = convert type nindices := by
  cases type
  all_goals
    simp only [ETYPE.nodes, Option.some.injEq, reduceCtorEq] at h
    try subst h
    try simp (disch := omega) only [convert, window_take, getD_take]

lemma exists_convert {type : ETYPE} {n : ℕ} (h : type.nodes = some n) (nindices : List ℤ) :
    ∃ e, convert type nindices = some e := by
  cases type
  all_goals
    simp only [ETYPE.nodes, reduceCtorEq] at h
    try
      rw [convert]
      dsimp only
      split_ifs
      all_goals exact ⟨_, rfl⟩
    try exact ⟨_, rfl⟩

/-- An element as it is stored. -/
structure Element where
  ID : ℤ
  et : ℤ
  body : ℤ
  material : ℤ
  size : ℕ
  code : Code
  nodes : List ℤ
  deriving DecidableEq

/-- **A block as its commands are parsed**, with the place of its end. -/
structure EBlock (text : List Char) where
  Solkey : Bool
  valueSize : ℕ
  valueLength : ℕ
  lineEndSize : ℕ
  first : ℕ
  last : ℕ
  first_le_last : first ≤ last
  last_le : last ≤ text.length

namespace EBlock

variable {text : List Char} (B : EBlock text) (R : Ranks text)

def lineSize : ℕ := B.valueSize * B.valueLength + B.lineEndSize

def fRank : ℕ := R.rankOf B.first

def lRank : ℕ := R.rankOf B.last

/-! ### Borders between the lines of an element -/

/-- The number of nodes, that is read from the first line of the block. -/
def nodes : Option ℤ := do
  let token ← (Parser.split (takeLines '\n' 1 (text.drop B.first)) [' '] true)[9]?
  Parser.stoi token

def size2 (nodes : ℤ) : ℕ :=
  if nodes > 8 then (nodes - 8).toNat * B.valueLength + B.lineEndSize else 0

def elementSize (nodes : ℤ) : ℤ :=
  if nodes < 8 then (B.valueSize - 8 + nodes) * B.valueLength + B.lineEndSize
  else B.lineSize + B.size2 nodes

/-- The borders as a rank sees them: the vector of all offsets, and its own `begin` and `end`. -/
structure Borders where
  dataOffsets : ℕ → ℕ
  start : ℕ
  stop : ℕ

/-- A border in front of the second line of an element moves behind it. -/
def moveBorder (nodes : ℤ) (MPIrank : ℕ) (s : Borders) (rank : ℕ) : Borders :=
  if (s.dataOffsets rank - B.first) % (B.lineSize + B.size2 nodes) ≠ 0 then
    { dataOffsets := Function.update s.dataOffsets rank (s.dataOffsets rank + B.size2 nodes)
      start := if rank = MPIrank then s.start + B.size2 nodes else s.start
      stop := if rank - 1 = MPIrank then s.stop + B.size2 nodes else s.stop }
  else s

/-- **`EBlock::fixOffsets`** of a block with solid key, on rank `MPIrank`. -/
def fixOffsets (nodes : ℤ) (MPIrank : ℕ) (s : Borders) : Borders :=
  if B.fRank R ≠ B.lRank R ∧ nodes > 8 then
    (List.range' (B.fRank R + 1) (B.lRank R - B.fRank R)).foldl (B.moveBorder nodes MPIrank) s
  else s

/-- The loop over the blocks in `WorkbenchLoader::prepareData`.  The offsets of the rank itself are
set back by the move of `begin` and `end`. -/
def fixBlock (MPIrank : ℕ) (s : Borders) (B : EBlock text) : Option Borders :=
  if B.Solkey then do
    let nodes ← B.nodes
    let moved := B.fixOffsets R nodes MPIrank s
    let dataOffsets := Function.update moved.dataOffsets MPIrank
      (moved.dataOffsets MPIrank + s.start - moved.start)
    pure { moved with
      dataOffsets := Function.update dataOffsets (MPIrank + 1)
        (dataOffsets (MPIrank + 1) + s.stop - moved.stop) }
  else some s

/-- **The borders of a rank** after all blocks are fixed. -/
def prepareData (blocks : List (EBlock text)) (MPIrank : ℕ) : Option Borders :=
  blocks.foldlM (fixBlock R MPIrank)
    ⟨R.offsets.border, R.offsets.border MPIrank, R.offsets.border (MPIrank + 1)⟩

/-! ### Elements -/

/-- `parse`: the value at a place. -/
def value (data : ℕ) : ℤ := Parser.atol (window text data (data + B.valueLength))

/-- The nodes of `n` consecutive values. -/
def indices (data n : ℕ) : List ℤ := (List.range n).map fun i => B.value (data + i * B.valueLength) - 1

/-- Values that are written to a vector from position `i` on. -/
def write (nindices : List ℤ) (i : ℕ) (values : List ℤ) : List ℤ :=
  nindices.take i ++ values ++ nindices.drop (i + values.length)

def etype (et : List ℤ) (ansystype : ℤ) : ETYPE :=
  if 0 ≤ ansystype then ((et[ansystype.toNat]?).map ETYPE.ofType).getD .UNKNOWN else .UNKNOWN

/-- **The body of the loop over elements**: the element at a place, the place behind it, and the
vector of nodes. -/
def readElement (et : List ℤ) (element : ℕ) (nindices : List ℤ) :
    Option (Element × ℕ × List ℤ) := do
  let material := B.value element - 1
  let ansystype := B.value (element + B.valueLength) - 1
  let nnodes := (B.value (element + 8 * B.valueLength)).toNat
  let ID := B.value (element + 10 * B.valueLength) - 1
  let nindices := write nindices 0 (B.indices (element + 11 * B.valueLength) (min 8 nnodes))
  let element := element + (11 + min 8 nnodes) * B.valueLength + B.lineEndSize
  let next :=
    if (etype et ansystype).SecondLine then
      (element + (nnodes - 8) * B.valueLength + B.lineEndSize,
        write nindices 8 (B.indices element (nnodes - 8)))
    else (element, nindices)
  let e ← convert (etype et ansystype) next.2
  pure (⟨ID, ansystype, 0, material, e.1, e.2.1, e.2.2⟩, next)

/-- The loop over elements, with the number of bytes that are left. -/
def readLoop (et : List ℤ) (stop : ℕ) : ℕ → ℕ → List ℤ → Option (List (ℕ × Element))
  | 0, _, _ => some []
  | fuel + 1, element, nindices =>
    if element < stop then do
      let read ← B.readElement et element nindices
      let others ← readLoop et stop fuel read.2.1 read.2.2
      pure ((element, read.1) :: others)
    else some []

def readThread (et : List ℤ) (start stop : ℕ) : Option (List (ℕ × Element)) :=
  B.readLoop et stop (stop - start) start (List.replicate 20 0)

/-- **`EBlock::solid`** on a rank.  An element has a positive size. -/
def solid (et : List ℤ) (rank : ℕ) (s : Borders) : Option (List (ℕ × Element)) := do
  let nodes ← B.nodes
  let elementSize := (B.elementSize nodes).toNat
  let first := getFirst (B.fRank R) (B.lRank R) B.first rank s.start
  let last := getLast (B.fRank R) (B.lRank R) B.last rank s.start s.stop
  let tdistribution := distribute R.threads ((last - first) / elementSize)
  if 0 < elementSize then do
    let elements ← (List.range R.threads).mapM fun t =>
      B.readThread et (first + elementSize * tdistribution.getD t 0)
        (first + elementSize * tdistribution.getD (t + 1) 0)
    pure elements.flatten
  else none

/-! ## The layout of a block -/

/-- The size of the first line of an element with `n` nodes. -/
def firstLine (n : ℕ) : ℕ := (11 + min 8 n) * B.valueLength + B.lineEndSize

def secondLine (n : ℕ) : ℕ := if 8 < n then (n - 8) * B.valueLength + B.lineEndSize else 0

def position (n k : ℕ) : ℕ := B.first + k * (B.firstLine n + B.secondLine n)

/-- **The layout of a block** of `count` elements with `n` nodes: eleven values and up to eight nodes in
the first line of an element, and the other nodes in the second one. -/
structure Solid (n count : ℕ) : Prop where
  valueSize_eq : B.valueSize = 11 + 8
  valueLength_pos : 0 < B.valueLength
  lineEndSize_pos : 0 < B.lineEndSize
  nodes_pos : 0 < n
  nodes_le : n ≤ 20
  last_eq : B.last = B.position n count
  newline_iff : ∀ k < count, ∀ i < B.firstLine n + B.secondLine n,
    text[B.position n k + i]? = some '\n' ↔
      i + 1 = B.firstLine n ∨ i + 1 = B.firstLine n + B.secondLine n
  nodes_eq : ∀ k < count, B.value (B.position n k + 8 * B.valueLength) = n
  field : ∀ k < count, ∀ j < 11 + min 8 n, ∃ f : ℕ × List Char, f.2 ≠ [] ∧ ' ' ∉ f.2 ∧
    window text (B.position n k + j * B.valueLength) (B.position n k + (j + 1) * B.valueLength)
      = Parser.field f

def ansystypeAt (n k : ℕ) : ℤ := B.value (B.position n k + B.valueLength) - 1

/-- The nodes of an element: eight of them are in its first line. -/
def nodesAt (n k : ℕ) : List ℤ := (List.range n).map fun i =>
  B.value (if i < 8 then B.position n k + (11 + i) * B.valueLength
    else B.position n k + B.firstLine n + (i - 8) * B.valueLength) - 1

/-- **The elements of a block**, with their places. -/
def elementAt (et : List ℤ) (n k : ℕ) : Option (ℕ × Element) :=
  (convert (etype et (B.ansystypeAt n k)) (B.nodesAt n k)).map fun e =>
    (B.position n k, ⟨B.value (B.position n k + 10 * B.valueLength) - 1, B.ansystypeAt n k, 0,
      B.value (B.position n k) - 1, e.1, e.2.1, e.2.2⟩)

/-! ## Reading of elements -/

variable {B}

lemma length_indices (data n : ℕ) : (B.indices data n).length = n := by simp [indices]

lemma write_zero (nindices values : List ℤ) :
    write nindices 0 values = values ++ nindices.drop values.length := by
  rw [write, List.take_zero, List.nil_append, Nat.zero_add]

lemma nodesAt_of_le {n k : ℕ} (h : n ≤ 8) :
    B.nodesAt n k = B.indices (B.position n k + 11 * B.valueLength) n := by
  refine List.map_congr_left fun i hi => ?_
  rw [if_pos ((List.mem_range.mp hi).trans_le h), Nat.add_mul, Nat.add_assoc]

lemma nodesAt_of_lt {n k : ℕ} (h : 8 < n) :
    B.nodesAt n k = B.indices (B.position n k + 11 * B.valueLength) 8
      ++ B.indices (B.position n k + B.firstLine n) (n - 8) := by
  obtain ⟨m, rfl⟩ := Nat.exists_eq_add_of_le h.le
  rw [nodesAt, List.range_add, List.map_append, List.map_map, Nat.add_sub_cancel_left]
  congr 1
  · refine List.map_congr_left fun i hi => ?_
    rw [if_pos (List.mem_range.mp hi), Nat.add_mul, Nat.add_assoc]
  · refine List.map_congr_left fun i _ => ?_
    rw [Function.comp_apply, if_neg (by omega), Nat.add_sub_cancel_left]

lemma position_succ (n k : ℕ) :
    B.position n (k + 1) = B.position n k + B.firstLine n + B.secondLine n := by
  rw [position, position, Nat.succ_mul]
  omega

lemma readElement_eq {n count k : ℕ} (h : B.Solid n count) (hk : k < count) {et : List ℤ}
    (htype : (etype et (B.ansystypeAt n k)).nodes = some n) {nindices : List ℤ}
    (hlength : nindices.length = 20) :
    ∃ e nindices', B.readElement et (B.position n k) nindices
        = some (e, B.position n (k + 1), nindices') ∧
      nindices'.length = 20 ∧ B.elementAt et n k = some (B.position n k, e) := by
  obtain ⟨e, he⟩ := exists_convert htype (B.nodesAt n k)
  have hle := h.nodes_le
  have hconvert : ∀ nindices' : List ℤ, nindices'.take n = B.nodesAt n k →
      convert (etype et (B.ansystypeAt n k)) nindices' = some e := by
    intro nindices' htake
    rw [← convert_take htype, htake, he]
  rw [readElement, h.nodes_eq k hk, Int.toNat_natCast, position_succ]
  simp only [elementAt, he, Option.map_some]
  rw [← ansystypeAt]
  rcases Nat.lt_or_ge 8 n with hlt | hge
  · have hmin : min 8 n = 8 := min_eq_left hlt.le
    have hsecond : (etype et (B.ansystypeAt n k)).SecondLine := (ETYPE.secondLine_iff htype).mpr hlt
    have hfirst : B.position n k + (11 + 8) * B.valueLength + B.lineEndSize
        = B.position n k + B.firstLine n := by rw [firstLine, hmin, Nat.add_assoc]
    have hbuffer : write (write nindices 0 (B.indices (B.position n k + 11 * B.valueLength) 8)) 8
        (B.indices (B.position n k + B.firstLine n) (n - 8))
          = B.nodesAt n k ++ nindices.drop n := by
      rw [write_zero, write, length_indices, length_indices, nodesAt_of_lt hlt,
        List.take_left' (length_indices _ _), List.drop_append, length_indices, List.drop_drop,
        List.drop_of_length_le (by rw [length_indices]; omega), List.nil_append]
      congr 2
      omega
    have hlen : (B.nodesAt n k).length = n := by simp [nodesAt]
    simp only [if_pos hsecond, hmin, hfirst, hbuffer, hconvert _ (List.take_left' hlen)]
    refine ⟨_, B.nodesAt n k ++ nindices.drop n, ?_, ?_, rfl⟩
    · rw [secondLine, if_pos hlt, ← Nat.add_assoc]
      rfl
    · rw [List.length_append, hlen, List.length_drop]
      omega
  · have hmin : min 8 n = n := min_eq_right hge
    have hsecond : ¬(etype et (B.ansystypeAt n k)).SecondLine := fun hs =>
      absurd ((ETYPE.secondLine_iff htype).mp hs) (by omega)
    have hbuffer : write nindices 0 (B.indices (B.position n k + 11 * B.valueLength) n)
        = B.nodesAt n k ++ nindices.drop n := by
      rw [write_zero, length_indices, nodesAt_of_le hge]
    have hlen : (B.nodesAt n k).length = n := by simp [nodesAt]
    simp only [if_neg hsecond, hmin, hbuffer, hconvert _ (List.take_left' hlen)]
    refine ⟨_, B.nodesAt n k ++ nindices.drop n, ?_, ?_, rfl⟩
    · rw [secondLine, if_neg (by omega), firstLine, hmin, Nat.add_zero, ← Nat.add_assoc]
      rfl
    · rw [List.length_append, hlen, List.length_drop]
      omega

lemma readLoop_eq {n count b : ℕ} (h : B.Solid n count) (hb : b ≤ count) {et : List ℤ}
    (htype : ∀ k < count, (etype et (B.ansystypeAt n k)).nodes = some n) {a fuel : ℕ}
    (hab : a ≤ b) (hfuel : b - a ≤ fuel) {nindices : List ℤ} (hlength : nindices.length = 20) :
    ∃ elements, B.readLoop et (B.position n b) fuel (B.position n a) nindices = some elements ∧
      elements.map some = (List.range' a (b - a)).map (B.elementAt et n) := by
  induction fuel generalizing a nindices with
  | zero =>
      rw [Nat.le_zero.mp hfuel]
      exact ⟨[], rfl, rfl⟩
  | succ fuel ih =>
      rcases Nat.eq_or_lt_of_le hab with rfl | hlt
      · refine ⟨[], ?_, ?_⟩
        · rw [readLoop, if_neg (lt_irrefl _)]
        · simp
      · have hposition : B.position n a < B.position n b := by
          have hmul := Nat.mul_lt_mul_of_pos_right hlt
            (show 0 < B.firstLine n + B.secondLine n from
              Nat.add_pos_left (Nat.add_pos_right _ h.lineEndSize_pos) _)
          rw [position, position]
          omega
        obtain ⟨e, nindices', hread, hlength', he⟩ :=
          readElement_eq h (hlt.trans_le hb) (htype a (hlt.trans_le hb)) hlength
        obtain ⟨others, hothers, hmap⟩ := ih (a := a + 1) hlt (by omega) hlength'
        refine ⟨(B.position n a, e) :: others, ?_, ?_⟩
        · rw [readLoop, if_pos hposition, hread]
          simp only [Option.bind_eq_bind, Option.bind_some, hothers]
          rfl
        · rw [show b - a = (b - (a + 1)) + 1 by omega, List.range'_succ, List.map_cons,
            List.map_cons, he, hmap]

end EBlock

end Workbench

end Espreso
