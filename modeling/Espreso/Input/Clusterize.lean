import Espreso.Basis.Utils
import Espreso.Input.SpaceFillingCurve
import Espreso.Lib.Grouped
import Espreso.Lib.Writes
import Mathlib.Algebra.BigOperators.Group.List.Basic

/-!
# Borders between the ranks

`RandomInput::clusterize` splits the elements of all ranks, which are sorted by their buckets, into
parts of nearly the same size.  It refines the buckets around the targets level by level.

* `ElementBuckets` — the buckets of the elements of all ranks.
* `ElementBuckets.searchLevel` — the borders, and the buckets that have to be refined, of one level.
* `ElementBuckets.clusterize` — both stages of the refinement.
-/

namespace Espreso

open SFC SFC.Refinement

/-- **The elements of all ranks** (`_eBuckets`), which are numbers of the smallest buckets. -/
structure ElementBuckets (b : ℕ) where
  /-- `SFCDEPTH` -/
  depth : ℕ
  ETOLERANCE : ℕ
  eBuckets : List (List ℕ)
  one_lt_bucketSize : 1 < b
  size_pos : 0 < eBuckets.length
  eBuckets_lt : ∀ elements ∈ eBuckets, ∀ e ∈ elements, e < b ^ depth

namespace ElementBuckets

variable {b : ℕ} (E : ElementBuckets b)

/-- `environment->MPIsize` -/
def size : ℕ := E.eBuckets.length

def esize : ℕ := (E.eBuckets.map List.length).sum

/-- `targetDistribution` -/
def targets : Distribution E.size E.esize := Distribution.uniform E.size_pos E.esize

def target (r : ℕ) : ℕ := E.targets.border r

/-! ## The local histogram -/

/-- `while (buckets(DEPTH++) < MPIsize)`, with the number of steps that are left. -/
def histogramDepth : ℕ → ℕ → ℕ
  | 0, DEPTH => DEPTH
  | fuel + 1, DEPTH =>
    if buckets b DEPTH < E.size then histogramDepth fuel (DEPTH + 1) else DEPTH + 1

def DEPTH : ℕ := E.histogramDepth E.size 2

def bstep : ℕ := buckets b E.depth / buckets b E.DEPTH

/-- `Esutils::sizesToOffsets`, from a sum. -/
def sizesToOffsets (sum : ℕ) : List ℕ → List ℕ
  | [] => []
  | size :: sizes => sum :: sizesToOffsets (sum + size) sizes

/-- `bucketSum.back()` of a rank.  It has no result if it divides by zero. -/
def histogram (elements : List ℕ) : Option (List ℕ) :=
  let sizes := elements.foldlM (fun sizes e =>
    if E.bstep = 0 then none else some (sizes.modify (e / E.bstep) (· + 1)))
    (List.replicate (buckets b E.DEPTH + 1) 0)
  sizes.map (sizesToOffsets 0)

/-- `bucketSum[d]` of a rank, `k` levels above the last one. -/
def bucketSumAbove (last : List ℕ) : ℕ → List ℕ
  | 0 => last
  | k + 1 => (List.range (buckets b (E.DEPTH - (k + 1)) + 1)).map fun c =>
    (bucketSumAbove last k).getD (b * c) 0

/-- `bucketSum[d]` of a rank. -/
def bucketSum (last : List ℕ) (d : ℕ) : List ℕ := E.bucketSumAbove last (E.DEPTH - 1 - d)

/-- `MPI_Allreduce` with `MPI_SUM` for vectors of one length. -/
def allreduce (length : ℕ) (scounts : List (List ℕ)) : List ℕ :=
  (List.range length).map fun i => (scounts.map fun s => s.getD i 0).sum

/-! ## The search in one level -/

/-- What the search changes: the borders, the refined buckets of the next level in the order of the
calls of `recurce`, and `refinedindices`. -/
structure Found where
  bucketsBorders : List ℕ
  recursed : List ℕ
  refinedindices : List ℕ

/-- The loop that moves the index to a target, with the number of steps that are left. -/
def advanceIndex (count : ℕ → ℕ) (target : ℕ) : ℕ → ℕ → ℕ
  | 0, i => i
  | fuel + 1, i =>
    if i ≤ b ∧ count i < target ∧ E.ETOLERANCE ≤ target - count i then
      advanceIndex count target fuel (i + 1)
    else i

/-- The loop over the targets in a bucket, where `count i` is the number of elements in front of its
part `i`. -/
def searchTargets (coarsenig cell boffset : ℕ) (count : ℕ → ℕ) : List ℕ → ℕ → Found → Found
  | [], _, found => found
  | r :: ranks, i, found =>
    let i := E.advanceIndex count (E.target r) (b + 1 - i) i
    let found := { found with bucketsBorders := found.bucketsBorders.set r (coarsenig * (b * cell + i)) }
    let found :=
      if E.target r < count i ∧ E.ETOLERANCE < count i - E.target r then
        { found with
          recursed := found.recursed ++ [b * cell + i - 1]
          refinedindices := found.refinedindices ++ [boffset + i - 1] }
      else found
    searchTargets coarsenig cell boffset count ranks i found

/-- The search in bucket `k` of the refined buckets. -/
def searchCell (coarsenig : ℕ) (rcounts : List ℕ) (found : Found) (p : ℕ × ℕ) : Found :=
  let boffset := p.2 * (b + 1)
  let count := fun i => rcounts.getD (boffset + i) 0
  let rbegin := lowerBound E.targets.borders (count 0)
  let rend := lowerBound E.targets.borders (count b)
  E.searchTargets coarsenig p.1 boffset count (List.range' rbegin (rend - rbegin)) 0 found

/-- **The search in a level**: the loop over its refined buckets. -/
def searchLevel (coarsenig : ℕ) (cells rcounts bucketsBorders : List ℕ) : Found :=
  cells.zipIdx.foldl (E.searchCell coarsenig rcounts) ⟨bucketsBorders, [], []⟩

/-! ## Preprocessed recursion -/

/-- What all ranks know in front of a level: the refined buckets of the levels up to it, and the
borders. -/
structure State where
  LEVEL : ℕ
  coarsenig : ℕ
  refinedsfc : List (List ℕ)
  bucketsBorders : List ℕ

namespace State

variable (st : State)

/-- `sfcRefined(LEVEL)` -/
def cells : List ℕ := st.refinedsfc.getD st.LEVEL []

def hasLevel : Prop := st.cells ≠ []

instance : Decidable st.hasLevel := inferInstanceAs (Decidable (_ ≠ _))

/-- The next level, with the buckets found in this one (`setLevel`, `recurce` and `finishLevel`). -/
def next (coarsenig : ℕ) (found : Found) : State where
  LEVEL := st.LEVEL + 1
  coarsenig := coarsenig
  refinedsfc := st.refinedsfc ++ [sortAndRemoveDuplicity found.recursed]
  bucketsBorders := found.bucketsBorders

end State

/-- `scounts` of a rank, from the local histogram. -/
def preprocessedCounts (st : State) (last : List ℕ) : List ℕ :=
  st.cells.flatMap fun cell => (List.range (b + 1)).map fun i =>
    (E.bucketSum last st.LEVEL).getD (b * cell + i) 0

def preprocessedLevel (sums : List (List ℕ)) (st : State) : State :=
  let coarsenig := st.coarsenig / b
  let rcounts := allreduce (st.cells.length * (b + 1)) (sums.map (E.preprocessedCounts st))
  st.next coarsenig (E.searchLevel coarsenig st.cells rcounts st.bucketsBorders)

/-- The rest of the preprocessed recursion behind a level, with the number of levels that are left. -/
def preprocessedRecursion (sums : List (List ℕ)) : ℕ → State → State
  | 0, st => st
  | fuel + 1, st =>
    if st.LEVEL < E.DEPTH ∧ st.hasLevel then
      preprocessedRecursion sums fuel (E.preprocessedLevel sums st)
    else st

/-! ## Ad-hoc recursion -/

/-- The loop over the parts of a bucket: the elements of each part are those in front of its end, in
the rest of the sorted elements.  The counts are added up. -/
def adhocParts (coarsenig first : ℕ) (zeros : ℕ → ℕ) : List ℕ → ℕ → List ℕ → List ℕ
  | [], _, _ => []
  | i :: parts, count, rest =>
    let inside := rest.takeWhile (· < first + (i + 1) * coarsenig)
    let count := zeros i + inside.length + count
    count :: adhocParts coarsenig first zeros parts count (rest.drop inside.length)

/-- `scounts` of a rank behind the loop over the refined buckets. -/
def adhocCounts (coarsenig : ℕ) (cells scounts elements : List ℕ) : List ℕ :=
  cells.zipIdx.flatMap fun p =>
    let index := p.2 * (b + 1)
    let first := coarsenig * b * p.1
    let sorted := elements.mergeSort
    let count := scounts.getD index 0
    count :: adhocParts coarsenig first (fun i => scounts.getD (index + i + 1) 0) (List.range b) count
      (sorted.drop (lowerBound sorted first))

def carriedCounts (refinedindices : List ℕ) (cells : ℕ) (scounts : List ℕ) : List ℕ :=
  (List.range cells).flatMap fun k =>
    scounts.getD (refinedindices.getD k 0) 0 :: List.replicate b 0

/-- One level of the ad-hoc recursion, which carries `scounts` of all ranks. -/
def adhocLevel (scounts : List (List ℕ)) (st : State) : List (List ℕ) × State :=
  let coarsenig := st.coarsenig / b
  let scounts := List.zipWith (adhocCounts (b := b) coarsenig st.cells) scounts E.eBuckets
  let rcounts := allreduce (st.cells.length * (b + 1)) scounts
  let found := E.searchLevel coarsenig st.cells rcounts st.bucketsBorders
  let st := st.next coarsenig found
  (scounts.map (carriedCounts (b := b) (sortAndRemoveDuplicity found.refinedindices) st.cells.length),
    st)

def adhocRecursion : ℕ → List (List ℕ) → State → State
  | 0, _, st => st
  | fuel + 1, scounts, st =>
    if st.LEVEL < E.depth ∧ st.hasLevel then
      let next := E.adhocLevel scounts st
      adhocRecursion fuel next.1 next.2
    else st

/-- `scounts` of a rank in front of the ad-hoc recursion. -/
def adhocStart (st : State) (last : List ℕ) : List ℕ :=
  st.cells.flatMap fun cell =>
    (E.bucketSum last (st.LEVEL - 1)).getD cell 0 :: List.replicate b 0

def start : State where
  LEVEL := 0
  coarsenig := buckets b E.depth
  refinedsfc := [[0]]
  bucketsBorders := 0 :: List.replicate E.size (buckets b E.depth)

/-- **`RandomInput::clusterize`**: the state behind both stages. -/
def clusterize : Option State := do
  let sums ← E.eBuckets.mapM E.histogram
  let st := E.preprocessedRecursion sums E.DEPTH (E.preprocessedLevel sums E.start)
  some (E.adhocRecursion E.depth (sums.map (E.adhocStart st)) st)

/-! ## Counts -/

/-- The elements of a rank in front of a bucket of level `d`. -/
def localFront (elements : List ℕ) (d c : ℕ) : ℕ :=
  Grouped.before elements (c * b ^ (E.depth - d))

/-- **The elements of all ranks** in front of a bucket of level `d`. -/
def front (d c : ℕ) : ℕ := (E.eBuckets.map fun elements => E.localFront elements d c).sum

omit E in
lemma getD_flatMap {α : Type} {f : α → List ℕ} {n : ℕ} (hf : ∀ a, (f a).length = n) {l : List α}
    {k i : ℕ} {a : α} (hk : l[k]? = some a) (hi : i < n) :
    (l.flatMap f).getD (k * n + i) 0 = (f a).getD i 0 := by
  induction l generalizing k with
  | nil => simp at hk
  | cons x l ih =>
      rw [List.flatMap_cons, List.getD_eq_getElem?_getD, List.getD_eq_getElem?_getD]
      rcases k with _ | k
      · obtain rfl : x = a := by simpa using hk
        rw [Nat.zero_mul, Nat.zero_add, List.getElem?_append_left (by rwa [hf])]
      · have hsub : (k + 1) * n + i - (f x).length = k * n + i := by
          rw [hf, Nat.succ_mul]
          omega
        rw [List.getElem?_append_right (by rw [hf, Nat.succ_mul]; omega), hsub,
          ← List.getD_eq_getElem?_getD, ih (by simpa using hk), List.getD_eq_getElem?_getD]

omit E in
lemma sum_take_modify (sizes : List ℕ) {j n : ℕ} (hj : j < sizes.length) :
    ((sizes.modify j (· + 1)).take n).sum = (sizes.take n).sum + if j < n then 1 else 0 := by
  induction sizes generalizing j n with
  | nil => simp at hj
  | cons s sizes ih =>
      rcases n with _ | n
      · simp
      · rcases j with _ | j
        · simp
          omega
        · have hj : j < sizes.length := Nat.lt_of_succ_lt_succ hj
          simp [ih hj]
          omega

omit E in
lemma getD_sizesToOffsets {sum : ℕ} {sizes : List ℕ} {i : ℕ} (hi : i < sizes.length) :
    (sizesToOffsets sum sizes).getD i 0 = sum + (sizes.take i).sum := by
  induction sizes generalizing sum i with
  | nil => simp at hi
  | cons s sizes ih =>
      rcases i with _ | i
      · simp [sizesToOffsets]
      · have hi : i < sizes.length := Nat.lt_of_succ_lt_succ hi
        rw [sizesToOffsets, List.getD_cons_succ, ih hi]
        simp
        omega

lemma histogram_spec {elements : List ℕ} (hlt : ∀ e ∈ elements, e < b ^ E.depth)
    (hDEPTH : E.DEPTH ≤ E.depth) (hb : 0 < b) :
    ∃ last, E.histogram elements = some last ∧ ∀ c ≤ b ^ E.DEPTH,
      last.getD c 0 = E.localFront elements E.DEPTH c := by
  have hpow : ∀ k, 0 < b ^ k := fun k => Nat.pow_pos hb
  have hbstep : E.bstep = b ^ (E.depth - E.DEPTH) := Nat.pow_div hDEPTH hb
  have hpos : 0 < E.bstep := hbstep ▸ hpow _
  have hfold : ∀ (els sizes : List ℕ), (∀ e ∈ els, e < b ^ E.depth) →
      sizes.length = b ^ E.DEPTH + 1 → ∃ sizes', els.foldlM (fun sizes e =>
        if E.bstep = 0 then none else some (sizes.modify (e / E.bstep) (· + 1))) sizes = some sizes' ∧
        sizes'.length = b ^ E.DEPTH + 1 ∧ ∀ n, (sizes'.take n).sum
          = (sizes.take n).sum + Grouped.before els (n * b ^ (E.depth - E.DEPTH)) := by
    intro els
    induction els with
    | nil =>
        intro sizes _ hlength
        exact ⟨sizes, rfl, hlength, fun n => by simp [Grouped.before]⟩
    | cons e els ih =>
        intro sizes hlt hlength
        have he : e / E.bstep < sizes.length := by
          have := hlt e List.mem_cons_self
          rw [hlength, Nat.lt_succ_iff, hbstep]
          refine Nat.div_le_of_le_mul ?_
          rw [← pow_add, Nat.sub_add_cancel hDEPTH]
          exact this.le
        obtain ⟨sizes', hsizes', hlength', hsum⟩ := ih (sizes.modify (e / E.bstep) (· + 1))
          (fun e' he' => hlt e' (List.mem_cons_of_mem e he')) (by rw [List.length_modify, hlength])
        refine ⟨sizes', ?_, hlength', fun n => ?_⟩
        · rw [List.foldlM_cons, if_neg hpos.ne']
          exact hsizes'
        · have hiff : e / E.bstep < n ↔ e < n * E.bstep := Nat.div_lt_iff_lt_mul hpos
          rw [hsum, sum_take_modify sizes he, Grouped.before, Grouped.before, List.countP_cons,
            ← hbstep]
          simp only [decide_eq_true_eq, hiff]
          omega
  obtain ⟨sizes, hsizes, hlength, hsum⟩ := hfold elements (List.replicate (b ^ E.DEPTH + 1) 0) hlt
    (List.length_replicate)
  refine ⟨sizesToOffsets 0 sizes, by rw [histogram, buckets, hsizes]; rfl, fun c hc => ?_⟩
  rw [getD_sizesToOffsets (by omega), hsum, localFront]
  simp

lemma getD_map_range {f : ℕ → ℕ} {n i : ℕ} (hi : i < n) : ((List.range n).map f).getD i 0 = f i := by
  simp [List.getD_eq_getElem?_getD, hi]

lemma bucketSum_spec {last elements : List ℕ} (hDEPTH : E.DEPTH ≤ E.depth)
    (hlast : ∀ c ≤ b ^ E.DEPTH, last.getD c 0 = E.localFront elements E.DEPTH c) {d : ℕ}
    (hd : d < E.DEPTH) {c : ℕ} (hc : c ≤ b ^ (d + 1)) :
    (E.bucketSum last d).getD c 0 = E.localFront elements (d + 1) c := by
  have habove : ∀ k ≤ E.DEPTH, ∀ c ≤ b ^ (E.DEPTH - k),
      (E.bucketSumAbove last k).getD c 0 = E.localFront elements (E.DEPTH - k) c := by
    intro k
    induction k with
    | zero => exact fun _ => hlast
    | succ k ih =>
        intro hk c hc
        have hpow : b ^ (E.DEPTH - k) = b ^ (E.DEPTH - (k + 1)) * b := by
          rw [← pow_succ]
          congr 1
          omega
        have hfine : E.depth - (E.DEPTH - (k + 1)) = E.depth - (E.DEPTH - k) + 1 := by omega
        rw [bucketSumAbove, getD_map_range (by rw [buckets]; omega), ih (by omega), localFront,
          localFront, hfine, pow_succ]
        · congr 1
          ring
        · rw [hpow, Nat.mul_comm]
          exact Nat.mul_le_mul_right b hc
  have hlevel : E.DEPTH - (E.DEPTH - 1 - d) = d + 1 := by omega
  have h := habove (E.DEPTH - 1 - d) (by omega)
  rw [hlevel] at h
  exact h c hc

lemma getD_allreduce {length i : ℕ} {scounts : List (List ℕ)} (hi : i < length) :
    (allreduce length scounts).getD i 0 = (scounts.map fun s => s.getD i 0).sum :=
  getD_map_range hi

/-- **The counts in the parts of a bucket** are right. -/
def CountsParts (cells rcounts : List ℕ) (d : ℕ) : Prop :=
  ∀ k c, cells[k]? = some c → ∀ i ≤ b, rcounts.getD (k * (b + 1) + i) 0 = E.front (d + 1) (b * c + i)

lemma countsParts_allreduce {cells : List ℕ} {scounts : List (List ℕ)} {d : ℕ}
    (h : List.Forall₂ (fun s elements => ∀ k c, cells[k]? = some c → ∀ i ≤ b,
      s.getD (k * (b + 1) + i) 0 = E.localFront elements (d + 1) (b * c + i)) scounts E.eBuckets) :
    E.CountsParts cells (allreduce (cells.length * (b + 1)) scounts) d := by
  intro k c hk i hi
  have hlt : k * (b + 1) + i < cells.length * (b + 1) := by
    obtain ⟨hk, -⟩ := List.getElem?_eq_some_iff.mp hk
    calc k * (b + 1) + i < k * (b + 1) + (b + 1) := by omega
      _ = (k + 1) * (b + 1) := (Nat.succ_mul _ _).symm
      _ ≤ cells.length * (b + 1) := Nat.mul_le_mul_right _ hk
  have hmap : ∀ {ss es : List (List ℕ)}, List.Forall₂ (fun s elements => ∀ k c, cells[k]? = some c →
      ∀ i ≤ b, s.getD (k * (b + 1) + i) 0 = E.localFront elements (d + 1) (b * c + i)) ss es →
      ss.map (fun s => s.getD (k * (b + 1) + i) 0)
        = es.map fun elements => E.localFront elements (d + 1) (b * c + i) := by
    intro ss es h
    induction h with
    | nil => rfl
    | cons h _ ih => rw [List.map_cons, List.map_cons, h k c hk i hi, ih]
  rw [getD_allreduce hlt, hmap h, front]

lemma preprocessedCounts_spec {last elements : List ℕ} {st : State} (hDEPTH : E.DEPTH ≤ E.depth)
    (hlast : ∀ c ≤ b ^ E.DEPTH, last.getD c 0 = E.localFront elements E.DEPTH c)
    (hLEVEL : st.LEVEL < E.DEPTH) (hcells : ∀ c ∈ st.cells, c < b ^ st.LEVEL) {k c i : ℕ}
    (hk : st.cells[k]? = some c) (hi : i ≤ b) :
    (E.preprocessedCounts st last).getD (k * (b + 1) + i) 0
      = E.localFront elements (st.LEVEL + 1) (b * c + i) := by
  have hc := hcells c (List.mem_of_getElem? hk)
  have hpart : b * c + i ≤ b ^ (st.LEVEL + 1) :=
    calc b * c + i ≤ b * c + b := Nat.add_le_add_left hi _
      _ = b * (c + 1) := (Nat.mul_succ b c).symm
      _ ≤ b * b ^ st.LEVEL := Nat.mul_le_mul_left b hc
      _ = b ^ (st.LEVEL + 1) := (pow_succ' b _).symm
  rw [preprocessedCounts, getD_flatMap (by simp) hk (Nat.lt_succ_of_le hi),
    getD_map_range (Nat.lt_succ_of_le hi), E.bucketSum_spec hDEPTH hlast hLEVEL hpart]

/-! ## Counts of the ad-hoc recursion -/

omit E in
lemma drop_length_takeWhile (p : ℕ → Bool) (l : List ℕ) :
    l.drop (l.takeWhile p).length = l.dropWhile p := by
  induction l with
  | nil => rfl
  | cons a l ih =>
      rw [List.takeWhile_cons, List.dropWhile_cons]
      split_ifs
      · rw [List.length_cons, List.drop_succ_cons, ih]
      · rfl

omit E in
lemma dropWhile_dropWhile {l : List ℕ} {x y : ℕ} (hxy : x ≤ y) :
    (l.dropWhile (· < x)).dropWhile (· < y) = l.dropWhile (· < y) := by
  induction l with
  | nil => rfl
  | cons a l ih =>
      rw [List.dropWhile_cons]
      split_ifs with h
      · have ha : a < y := (of_decide_eq_true h).trans_le hxy
        rw [ih, List.dropWhile_cons, if_pos (decide_eq_true ha)]
      · rfl

omit E in
lemma length_between {l : List ℕ} (hl : l.Pairwise (· ≤ ·)) {x y : ℕ} (hxy : x ≤ y) :
    ((l.dropWhile (· < x)).takeWhile (· < y)).length + Grouped.before l x = Grouped.before l y := by
  induction l with
  | nil => rfl
  | cons a l ih =>
      have htail := (List.pairwise_cons.mp hl).2
      have hhead := (List.pairwise_cons.mp hl).1
      rw [Grouped.before, Grouped.before, List.countP_cons, List.countP_cons, List.dropWhile_cons]
      rcases Nat.lt_or_ge a x with hlt | hge
      · have hay : a < y := hlt.trans_le hxy
        have := ih htail
        rw [Grouped.before, Grouped.before] at this
        simp only [hlt, hay, decide_true, if_true]
        omega
      · have hnone : l.countP (· < x) = 0 := List.countP_eq_zero.mpr fun e he => by
          have := hhead e he
          simp only [decide_eq_true_eq]
          omega
        have hsorted : (a :: l).Pairwise fun e f => decide (f < y) = true → decide (e < y) = true :=
          hl.imp fun hef hf => decide_eq_true (hef.trans_lt (of_decide_eq_true hf))
        have hcount := Grouped.length_takeWhile_eq_countP_iff.mpr hsorted
        rw [List.countP_cons] at hcount
        rw [if_neg (by simpa using hge), hnone, hcount]
        simp [Nat.not_lt.mpr hge]

lemma getD_adhocParts {sorted : List ℕ} (hsorted : sorted.Pairwise (· ≤ ·))
    {coarsenig first : ℕ} {zeros : ℕ → ℕ} {n i₀ j : ℕ} (hzeros : ∀ i, i < i₀ + n → zeros i = 0)
    (hj : j < n) :
    (adhocParts coarsenig first zeros (List.range' i₀ n)
      (Grouped.before sorted (first + i₀ * coarsenig))
      (sorted.dropWhile (· < first + i₀ * coarsenig))).getD j 0
      = Grouped.before sorted (first + (i₀ + j + 1) * coarsenig) := by
  induction n generalizing i₀ j with
  | zero => omega
  | succ n ih =>
      have hle : first + i₀ * coarsenig ≤ first + (i₀ + 1) * coarsenig :=
        Nat.add_le_add_left (Nat.mul_le_mul_right _ (Nat.le_succ _)) _
      have hinside := length_between hsorted hle
      rw [List.range'_succ, adhocParts]
      simp only [hzeros i₀ (by omega), Nat.zero_add, hinside]
      rcases j with _ | j
      · rw [Nat.add_zero, List.getD_cons_zero]
      · have hrest : (sorted.dropWhile (· < first + i₀ * coarsenig)).drop
            ((sorted.dropWhile (· < first + i₀ * coarsenig)).takeWhile
              (· < first + (i₀ + 1) * coarsenig)).length
            = sorted.dropWhile (· < first + (i₀ + 1) * coarsenig) := by
          rw [drop_length_takeWhile, dropWhile_dropWhile hle]
        rw [List.getD_cons_succ, hrest, ih (fun i hi => hzeros i (by omega)) (by omega)]
        congr 3
        omega

/-- What a rank carries to a level: the elements in front of each refined bucket, and zeros. -/
def Carried (cells elements scounts : List ℕ) (d : ℕ) : Prop :=
  ∀ k c, cells[k]? = some c → scounts.getD (k * (b + 1)) 0 = E.localFront elements d c ∧
    ∀ i < b, scounts.getD (k * (b + 1) + i + 1) 0 = 0

omit E in
lemma length_adhocParts (coarsenig first : ℕ) (zeros : ℕ → ℕ) (parts : List ℕ) (count : ℕ)
    (rest : List ℕ) : (adhocParts coarsenig first zeros parts count rest).length = parts.length := by
  induction parts generalizing count rest with
  | nil => rfl
  | cons i parts ih => rw [adhocParts, List.length_cons, ih, List.length_cons]

lemma adhocCounts_spec {cells elements scounts : List ℕ} {d : ℕ} (hd : d < E.depth)
    (h : E.Carried cells elements scounts d) {k c i : ℕ} (hk : cells[k]? = some c) (hi : i ≤ b) :
    (adhocCounts (b := b) (b ^ (E.depth - (d + 1))) cells scounts elements).getD (k * (b + 1) + i) 0
      = E.localFront elements (d + 1) (b * c + i) := by
  obtain ⟨hcount, hzeros⟩ := h k c hk
  have hzip : cells.zipIdx[k]? = some (c, k) := by
    rw [List.getElem?_zipIdx, hk, Nat.zero_add]
    rfl
  have hsorted : elements.mergeSort.Pairwise (· ≤ ·) := List.pairwise_mergeSort' _ _
  have hperm : ∀ x, Grouped.before elements.mergeSort x = Grouped.before elements x := fun x =>
    (List.mergeSort_perm elements _).countP_eq _
  have hfirst : b ^ (E.depth - (d + 1)) * b * c = c * b ^ (E.depth - d) := by
    rw [← pow_succ, show E.depth - (d + 1) + 1 = E.depth - d by omega, Nat.mul_comm]
  rw [adhocCounts, getD_flatMap (by simp [length_adhocParts]) hzip (Nat.lt_succ_of_le hi)]
  rcases i with _ | i
  · rw [List.getD_cons_zero, hcount, localFront, localFront, ← hfirst]
    congr 1
    ring
  · have hstart : scounts.getD (k * (b + 1)) 0 = Grouped.before elements.mergeSort
        (b ^ (E.depth - (d + 1)) * b * c + 0 * b ^ (E.depth - (d + 1))) := by
      rw [hcount, hperm, localFront, hfirst, Nat.zero_mul, Nat.add_zero]
    have hrest : elements.mergeSort.drop
        (lowerBound elements.mergeSort (b ^ (E.depth - (d + 1)) * b * c))
        = elements.mergeSort.dropWhile
          (· < b ^ (E.depth - (d + 1)) * b * c + 0 * b ^ (E.depth - (d + 1))) := by
      simp only [Nat.zero_mul, Nat.add_zero]
      exact drop_lowerBound _ _
    rw [List.getD_cons_succ, hstart, hrest, List.range_eq_range',
      getD_adhocParts hsorted (fun i hi => hzeros i (by omega)) hi, hperm, localFront]
    congr 1
    ring

/-! ## The search in a bucket -/

/-- The index that the loop over the targets finds: the first part in front of which enough elements
lie, up to the tolerance. -/
structure IndexOf (count : ℕ → ℕ) (target i : ℕ) : Prop where
  le : i ≤ b
  passed : ∀ j < i, count j < target ∧ E.ETOLERANCE ≤ target - count j
  stopped : ¬(count i < target ∧ E.ETOLERANCE ≤ target - count i)

variable {E}

lemma IndexOf.unique {count : ℕ → ℕ} {target i j : ℕ} (hi : E.IndexOf count target i)
    (hj : E.IndexOf count target j) : i = j := by
  rcases Nat.lt_trichotomy i j with hlt | heq | hgt
  · exact absurd (hj.passed i hlt) hi.stopped
  · exact heq
  · exact absurd (hi.passed j hgt) hj.stopped

lemma IndexOf.mono {count : ℕ → ℕ} {t t' i j : ℕ} (ht : t ≤ t') (hi : E.IndexOf count t i)
    (hj : E.IndexOf count t' j) : i ≤ j := by
  by_contra hlt
  have hpassed := hi.passed j (Nat.lt_of_not_le hlt)
  exact hj.stopped ⟨hpassed.1.trans_le ht, by omega⟩

lemma advanceIndex_spec {count : ℕ → ℕ} {target fuel i : ℕ} (hfuel : i + fuel = b + 1) (hi : i ≤ b)
    (hpassed : ∀ j < i, count j < target ∧ E.ETOLERANCE ≤ target - count j)
    (hlast : target ≤ count b) :
    E.IndexOf count target (E.advanceIndex count target fuel i) := by
  induction fuel generalizing i with
  | zero => omega
  | succ fuel ih =>
      rw [advanceIndex]
      split_ifs with h
      · have hib : i ≠ b := fun heq => by
          rw [heq] at h
          omega
        refine ih (by omega) (by omega) fun j hj => ?_
        rcases Nat.lt_succ_iff_lt_or_eq.mp hj with hj | rfl
        · exact hpassed j hj
        · exact h.2
      · exact ⟨hi, hpassed, fun hstop => h ⟨hi, hstop⟩⟩

lemma IndexOf.congr {count count' : ℕ → ℕ} {target i : ℕ} (hcount : ∀ j ≤ b, count j = count' j)
    (h : E.IndexOf count target i) : E.IndexOf count' target i where
  le := h.le
  passed j hj := hcount j (hj.le.trans h.le) ▸ h.passed j hj
  stopped := hcount i h.le ▸ h.stopped

variable (E) in
/-- A target in a bucket has to be looked for in the part in front of the index. -/
def Splits (count idx : ℕ → ℕ) (r : ℕ) : Prop :=
  E.target r < count (idx r) ∧ E.ETOLERANCE < count (idx r) - E.target r

instance (count idx : ℕ → ℕ) (r : ℕ) : Decidable (E.Splits count idx r) :=
  inferInstanceAs (Decidable (_ ∧ _))

lemma searchTargets_spec {coarsenig cell boffset : ℕ} {count idx : ℕ → ℕ} {ranks : List ℕ} {i : ℕ}
    {found : Found} (hmono : ranks.Pairwise fun r s => E.target r ≤ E.target s)
    (hlast : ∀ r ∈ ranks, E.target r ≤ count b) (hi : i ≤ b)
    (hpassed : ∀ r ∈ ranks, ∀ j < i, count j < E.target r ∧ E.ETOLERANCE ≤ E.target r - count j)
    (hidx : ∀ r ∈ ranks, E.IndexOf count (E.target r) (idx r)) :
    E.searchTargets coarsenig cell boffset count ranks i found =
      { bucketsBorders := ranks.foldl (fun borders r => borders.set r (coarsenig * (b * cell + idx r)))
          found.bucketsBorders
        recursed := found.recursed ++
          (ranks.filter (E.Splits count idx ·)).map fun r => b * cell + idx r - 1
        refinedindices := found.refinedindices ++
          (ranks.filter (E.Splits count idx ·)).map fun r => boffset + idx r - 1 } := by
  induction ranks generalizing i found with
  | nil => simp [searchTargets]
  | cons r ranks ih =>
      have hr := hidx r List.mem_cons_self
      have hadvance : E.advanceIndex count (E.target r) (b + 1 - i) i = idx r :=
        (advanceIndex_spec (by omega) hi (hpassed r List.mem_cons_self)
          (hlast r List.mem_cons_self)).unique hr
      have htail := List.pairwise_cons.mp hmono
      simp only [searchTargets, hadvance]
      rw [ih htail.2 (fun s hs => hlast s (.tail r hs)) hr.le ?_ (fun s hs => hidx s (.tail r hs))]
      · by_cases hsplits : E.target r < count (idx r) ∧ E.ETOLERANCE < count (idx r) - E.target r
        · have hfilter : decide (E.Splits count idx r) = true := decide_eq_true hsplits
          simp only [if_pos hsplits, List.filter_cons, if_pos hfilter, List.foldl_cons, List.map_cons,
            List.append_assoc, List.singleton_append]
        · have hfilter : ¬decide (E.Splits count idx r) = true := by rwa [decide_eq_true_eq]
          simp only [if_neg hsplits, List.filter_cons, if_neg hfilter, List.foldl_cons]
      · intro s hs j hj
        have hle := htail.1 s hs
        have := hr.passed j hj
        omega

/-! ## The search in a level -/

variable (E) in
/-- A target in a bucket: it is not less than the number of elements in front of the bucket, but less
than the number in front of its end. -/
def InRange (d c r : ℕ) : Prop := E.front d c ≤ E.target r ∧ E.target r < E.front d (c + 1)

lemma target_mono {r s : ℕ} (hrs : r ≤ s) (hs : s ≤ E.size) : E.target r ≤ E.target s :=
  E.targets.border_mono hrs hs

lemma front_mono (d : ℕ) {c c' : ℕ} (h : c ≤ c') : E.front d c ≤ E.front d c' := by
  refine List.sum_le_sum fun elements _ => List.countP_mono_left fun e _ he => ?_
  exact decide_eq_true ((of_decide_eq_true he).trans_le (Nat.mul_le_mul_right _ h))

lemma front_zero (d : ℕ) : E.front d 0 = 0 := by
  refine List.sum_eq_zero fun n hn => ?_
  obtain ⟨elements, -, rfl⟩ := List.mem_map.mp hn
  rw [localFront, Nat.zero_mul, Grouped.before_zero]

lemma mul_parts {d : ℕ} (hd : d < E.depth) (c : ℕ) :
    b * c * b ^ (E.depth - (d + 1)) = c * b ^ (E.depth - d) := by
  rw [show E.depth - d = E.depth - (d + 1) + 1 by omega, pow_succ]
  ring

lemma front_succ {d : ℕ} (hd : d < E.depth) (c : ℕ) : E.front (d + 1) (b * c) = E.front d c := by
  simp only [front, localFront, mul_parts hd]

lemma front_succ_last {d : ℕ} (hd : d < E.depth) (c : ℕ) :
    E.front (d + 1) (b * c + b) = E.front d (c + 1) := by
  rw [← Nat.mul_succ, front_succ hd]

lemma front_le (d c : ℕ) : E.front d c ≤ E.esize :=
  List.sum_le_sum fun _ _ => Grouped.before_le _

lemma front_pow {d c : ℕ} (hd : d ≤ E.depth) (hc : b ^ d ≤ c) : E.front d c = E.esize := by
  have hall : ∀ elements ∈ E.eBuckets, E.localFront elements d c = elements.length := by
    intro elements helements
    refine Grouped.before_all fun e he => (E.eBuckets_lt elements helements e he).trans_le ?_
    calc b ^ E.depth = b ^ d * b ^ (E.depth - d) := by rw [← pow_add, Nat.add_sub_cancel' hd]
      _ ≤ c * b ^ (E.depth - d) := Nat.mul_le_mul_right _ hc
  rw [front, esize, List.map_congr_left hall]

variable (E) in
def partIndex (d c r : ℕ) : ℕ :=
  E.advanceIndex (fun i => E.front (d + 1) (b * c + i)) (E.target r) (b + 1) 0

lemma partIndex_spec {d c r : ℕ} (hd : d < E.depth) (h : E.InRange d c r) :
    E.IndexOf (fun i => E.front (d + 1) (b * c + i)) (E.target r) (E.partIndex d c r) := by
  refine advanceIndex_spec (Nat.zero_add _) (Nat.zero_le b) (fun j hj => absurd hj (Nat.not_lt_zero j))
    ?_
  rw [front_succ_last hd]
  exact h.2.le

variable (E) in
/-- A target that has to be looked for in part `j` of a bucket. -/
def SplitsPart (d c r j : ℕ) : Prop :=
  r ≤ E.size ∧ E.InRange d c r ∧ E.partIndex d c r = j + 1 ∧
    E.target r + E.ETOLERANCE < E.front (d + 1) (b * c + (j + 1))

/-- **What the search changes in one bucket** `c`, which is the refined bucket `k` of level `d`. -/
structure CellFound (d c k : ℕ) (found found' : Found) : Prop where
  length : found'.bucketsBorders.length = found.bucketsBorders.length
  border : ∀ r ≤ E.size, (E.InRange d c r → found'.bucketsBorders.getD r 0
      = b ^ (E.depth - (d + 1)) * (b * c + E.partIndex d c r)) ∧
    (¬E.InRange d c r → found'.bucketsBorders.getD r 0 = found.bucketsBorders.getD r 0)
  recursed : ∃ parts : List ℕ, (∀ j, j ∈ parts ↔ ∃ r, E.SplitsPart d c r j) ∧
    found'.recursed = found.recursed ++ parts.map (fun j => b * c + j) ∧
    found'.refinedindices = found.refinedindices ++ parts.map fun j => k * (b + 1) + j

lemma searchCell_spec {cells rcounts : List ℕ} {d c k : ℕ} (hd : d < E.depth)
    (hcounts : E.CountsParts cells rcounts d) (hk : cells[k]? = some c) {found : Found}
    (hlength : found.bucketsBorders.length = E.size + 1) :
    E.CellFound d c k found (E.searchCell (b ^ (E.depth - (d + 1))) rcounts found (c, k)) := by
  set count := fun i => rcounts.getD (k * (b + 1) + i) 0 with hcount_def
  have hcount : ∀ i ≤ b, count i = E.front (d + 1) (b * c + i) := hcounts k c hk
  set ranks := List.range' (lowerBound E.targets.borders (count 0))
    (lowerBound E.targets.borders (count b) - lowerBound E.targets.borders (count 0)) with hranks_def
  have hzero : count 0 = E.front d c := by
    rw [hcount_def, ← front_succ hd]
    exact hcount 0 (Nat.zero_le b)
  have hlast : count b = E.front d (c + 1) := (hcount b le_rfl).trans (front_succ_last hd c)
  have hranks : ∀ r, r ∈ ranks ↔ r ≤ E.size ∧ E.InRange d c r := by
    intro r
    rw [hranks_def, List.mem_range'_1, InRange, hzero, hlast]
    constructor
    · rintro ⟨hlow, hhigh⟩
      have hlt : r < lowerBound E.targets.borders (E.front d (c + 1)) := by omega
      have hr : r ≤ E.size := by
        have := hlt.trans_le List.findIdx_le_length
        rw [E.targets.length_eq] at this
        omega
      have hget := E.targets.getElem?_eq hr
      refine ⟨hr, Nat.le_of_not_lt fun h => ?_, (lt_lowerBound_iff E.targets.sorted hget).mp hlt⟩
      exact absurd ((lt_lowerBound_iff E.targets.sorted hget).mpr h) (Nat.not_lt.mpr hlow)
    · rintro ⟨hr, hlow, hhigh⟩
      have hget := E.targets.getElem?_eq hr
      have hge := mt (lt_lowerBound_iff E.targets.sorted hget).mp (Nat.not_lt.mpr hlow)
      have hlt := (lt_lowerBound_iff E.targets.sorted hget).mpr hhigh
      omega
  have hidx : ∀ r ∈ ranks, E.IndexOf count (E.target r) (E.partIndex d c r) := fun r hr =>
    (partIndex_spec hd ((hranks r).mp hr).2).congr fun j hj => (hcount j hj).symm
  have hsearch : E.searchTargets (b ^ (E.depth - (d + 1))) c (k * (b + 1)) count ranks 0 found = _ :=
    searchTargets_spec
      (List.Pairwise.imp_of_mem
        (fun {r s} _ hs hrs => target_mono (le_of_lt hrs) ((hranks s).mp hs).1)
        List.pairwise_lt_range')
      (fun r hr => hlast ▸ ((hranks r).mp hr).2.2.le) (Nat.zero_le b)
      (fun r hr j hj => absurd hj (Nat.not_lt_zero j)) hidx
  have hcell : E.searchCell (b ^ (E.depth - (d + 1))) rcounts found (c, k)
      = E.searchTargets (b ^ (E.depth - (d + 1))) c (k * (b + 1)) count ranks 0 found := rfl
  rw [hcell, hsearch]
  have hnodup : ranks.Nodup := List.nodup_range'
  refine ⟨Writes.length_foldl_set _ _ _, fun r hr => ⟨fun hin => ?_, fun hout => ?_⟩, ?_⟩
  · rw [Writes.getD_foldl_set _ hnodup (by omega), if_pos ((hranks r).mpr ⟨hr, hin⟩)]
  · rw [Writes.getD_foldl_set _ hnodup (by omega), if_neg fun h => hout ((hranks r).mp h).2]
  · -- the targets that have to be looked for lie behind the beginning of the bucket
    have hpos : ∀ r ∈ ranks, E.Splits count (E.partIndex d c) r → ∃ j, E.partIndex d c r = j + 1 := by
      intro r hr hsplits
      refine Nat.exists_eq_add_one.mpr (Nat.pos_of_ne_zero fun hidx_zero => ?_)
      have hlt := hsplits.1
      rw [hidx_zero, hzero] at hlt
      exact absurd ((hranks r).mp hr).2.1 (Nat.not_le.mpr hlt)
    refine ⟨(ranks.filter (E.Splits count (E.partIndex d c) ·)).map fun r => E.partIndex d c r - 1,
      fun j => ?_, ?_, ?_⟩
    · simp only [List.mem_map, List.mem_filter, decide_eq_true_eq]
      constructor
      · rintro ⟨r, ⟨hr, hsplits⟩, rfl⟩
        obtain ⟨j, hj⟩ := hpos r hr hsplits
        obtain ⟨hle, hin⟩ := (hranks r).mp hr
        have hjb : j + 1 ≤ b := hj ▸ (hidx r hr).le
        have hfront := hcount (j + 1) hjb
        refine ⟨r, hle, hin, by omega, ?_⟩
        rw [Splits, hj, hfront] at hsplits
        rw [hj, Nat.add_sub_cancel]
        omega
      · rintro ⟨r, hle, hin, hj, hlt⟩
        have hr := (hranks r).mpr ⟨hle, hin⟩
        have hjb : j + 1 ≤ b := hj ▸ (hidx r hr).le
        refine ⟨r, ⟨hr, ?_⟩, by omega⟩
        rw [Splits, hj, hcount (j + 1) hjb]
        omega
    · rw [List.map_map]
      refine congrArg _ (List.map_congr_left fun r hr => ?_)
      obtain ⟨hr, hsplits⟩ := List.mem_filter.mp hr
      obtain ⟨j, hj⟩ := hpos r hr (of_decide_eq_true hsplits)
      rw [Function.comp_apply, hj]
      omega
    · rw [List.map_map]
      refine congrArg _ (List.map_congr_left fun r hr => ?_)
      obtain ⟨hr, hsplits⟩ := List.mem_filter.mp hr
      obtain ⟨j, hj⟩ := hpos r hr (of_decide_eq_true hsplits)
      rw [Function.comp_apply, hj]
      omega

end ElementBuckets

end Espreso
