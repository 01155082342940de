import Espreso.Basis.Utils
import Espreso.Input.SFCNeighbors

/-!
# Neighbouring ranks

Each rank owns a range of buckets.  In the first step of `RandomInput::linkup`, each of the ranks alone
computes which other ranks own buckets next to its own.

* `mergeIntervals` — the intervals of buckets, where touching ones are joined.
* **`mem_sfcNeighbors`** — the ranks that it finds.
* **`SpaceFillingCurve.symmetric_iff`** — when the lists of all ranks belong together.
-/

namespace Espreso.SFC

/-! ## Intervals -/

/-- The compaction of sorted intervals, where `unique` is the interval that may still grow. -/
def mergeLoop (unique : ℕ × ℕ) : List (ℕ × ℕ) → List (ℕ × ℕ)
  | [] => [unique]
  | n :: rest =>
    if n.1 ≤ unique.2 then mergeLoop (unique.1, n.2) rest
    else unique :: mergeLoop n rest

def mergeIntervals : List (ℕ × ℕ) → List (ℕ × ℕ)
  | [] => []
  | n :: rest => mergeLoop n rest

def Covers (l : List (ℕ × ℕ)) (x : ℕ) : Prop := ∃ n ∈ l, n.1 ≤ x ∧ x < n.2

def Ascending (l : List (ℕ × ℕ)) : Prop := l.Pairwise fun m n => m.1 ≤ n.1 ∧ m.2 ≤ n.2

/-- An interval with a bucket, or the one that is left of buckets behind the last level. -/
def Proper (last : ℕ) (n : ℕ × ℕ) : Prop := (n.1 < n.2 ∨ n.1 = 0 ∧ n.2 = 0) ∧ n.2 ≤ last

lemma Proper.le {last : ℕ} {n : ℕ × ℕ} (h : Proper last n) : n.1 ≤ n.2 := by
  rcases h.1 with hlt | ⟨hfirst, -⟩
  · exact hlt.le
  · exact hfirst ▸ Nat.zero_le _

lemma Proper.meets_iff {last : ℕ} {n : ℕ × ℕ} (h : Proper last n) {start stop : ℕ}
    (hlt : start < stop) : (n.1 < stop ∧ start < n.2) ↔
      ∃ x, (n.1 ≤ x ∧ x < n.2) ∧ start ≤ x ∧ x < stop := by
  constructor
  · rintro ⟨hfirst, hsecond⟩
    refine ⟨max n.1 start, ⟨le_max_left _ _, ?_⟩, le_max_right _ _, max_lt hfirst hlt⟩
    refine max_lt ?_ hsecond
    rcases h.1 with hn | ⟨-, hzero⟩
    · exact hn
    · exact absurd hsecond (by omega)
  · rintro ⟨x, hx, hstart, hstop⟩
    omega

lemma covers_cons {n : ℕ × ℕ} {l : List (ℕ × ℕ)} {x : ℕ} :
    Covers (n :: l) x ↔ (n.1 ≤ x ∧ x < n.2) ∨ Covers l x := by
  simp only [Covers, List.mem_cons, or_and_right, exists_or, exists_eq_left]

lemma covers_mergeLoop {unique : ℕ × ℕ} {l : List (ℕ × ℕ)} (h : Ascending (unique :: l)) (x : ℕ) :
    Covers (mergeLoop unique l) x ↔ Covers (unique :: l) x := by
  induction l generalizing unique with
  | nil => rfl
  | cons n rest ih =>
      obtain ⟨hunique, hrest⟩ := List.pairwise_cons.mp h
      have hn := hunique n List.mem_cons_self
      rw [mergeLoop]
      split_ifs with hle
      · rw [ih, covers_cons, covers_cons, covers_cons]
        · rw [← or_assoc]
          refine or_congr_left ?_
          change unique.1 ≤ x ∧ x < n.2 ↔ _
          omega
        · exact List.pairwise_cons.mpr ⟨fun m hm => ⟨(hunique m (List.mem_cons_of_mem n hm)).1,
            ((List.pairwise_cons.mp hrest).1 m hm).2⟩, (List.pairwise_cons.mp hrest).2⟩
      · rw [covers_cons, ih hrest, ← covers_cons]

lemma proper_mergeLoop {last : ℕ} {unique : ℕ × ℕ} {l : List (ℕ × ℕ)} (h : Ascending (unique :: l))
    (hproper : ∀ n ∈ unique :: l, Proper last n) : ∀ n ∈ mergeLoop unique l, Proper last n := by
  induction l generalizing unique with
  | nil => exact hproper
  | cons n rest ih =>
      obtain ⟨hunique, hrest⟩ := List.pairwise_cons.mp h
      obtain ⟨hproper_unique, hproper_rest⟩ := List.forall_mem_cons.mp hproper
      have hn := hunique n List.mem_cons_self
      rw [mergeLoop]
      split_ifs with hle
      · refine ih ?_ ?_
        · exact List.pairwise_cons.mpr ⟨fun m hm => ⟨(hunique m (List.mem_cons_of_mem n hm)).1,
            ((List.pairwise_cons.mp hrest).1 m hm).2⟩, (List.pairwise_cons.mp hrest).2⟩
        · refine List.forall_mem_cons.mpr ⟨?_, (List.forall_mem_cons.mp hproper_rest).2⟩
          refine (List.forall_mem_cons.mp hproper_rest).1.imp ?_ id
          change n.1 < n.2 ∨ n.1 = 0 ∧ n.2 = 0 → unique.1 < n.2 ∨ unique.1 = 0 ∧ n.2 = 0
          omega
      · exact List.forall_mem_cons.mpr ⟨hproper_unique, ih hrest hproper_rest⟩

lemma mergeIntervals_spec {last : ℕ} {l : List (ℕ × ℕ)} (h : Ascending l)
    (hproper : ∀ n ∈ l, Proper last n) :
    (∀ x, Covers (mergeIntervals l) x ↔ Covers l x) ∧ ∀ n ∈ mergeIntervals l, Proper last n := by
  rcases l with _ | ⟨n, rest⟩
  · exact ⟨fun x => Iff.rfl, hproper⟩
  · exact ⟨covers_mergeLoop h, proper_mergeLoop h hproper⟩

/-! ## Ranks -/

/-- The rank that owns the first bucket of an interval, where a range without buckets does not matter. -/
def firstRank (borders : List ℕ) (value : ℕ) : Option ℕ :=
  let first := lowerBound borders value
  if first = 0 then some first
  else (borders[first]?).map fun border => if value < border then first - 1 else first

/-- A rank, if it owns buckets.  There is no result if a border does not exist. -/
def rankWithBuckets (borders : List ℕ) (r : ℕ) : Option (List ℕ) := do
  let border ← borders[r]?
  let next ← borders[r + 1]?
  some (if border ≠ next then [r] else [])

/-- **The ranks of an interval**, without the rank itself. -/
def intervalRanks (borders : List ℕ) (rank : ℕ) (n : ℕ × ℕ) : Option (List ℕ) := do
  let first ← firstRank borders n.1
  let ranks ← ((loop first (lowerBound borders n.2)).filter (· ≠ rank)).mapM (rankWithBuckets borders)
  some ranks.flatten

namespace Refinement

variable {b : ℕ} [NeZero b] (S : Refinement b)

/-- **The borders** between the buckets of the ranks, on borders of leaves (`_bucketsBorders`). -/
structure Borders (size : ℕ) where
  values : List ℕ
  length_eq : values.length = size + 1
  sorted : values.Pairwise (· ≤ ·)
  border : ∀ x ∈ values, S.Border x
  last : values[size]? = some (buckets b S.depth)

namespace Borders

variable {S} {size : ℕ} (B : S.Borders size)

def start (r : ℕ) : ℕ := B.values.getD r 0

lemma getElem?_eq {r : ℕ} (hr : r ≤ size) : B.values[r]? = some (B.start r) := by
  have hlt : r < B.values.length := by rw [B.length_eq]; omega
  rw [start, List.getD_eq_getElem?_getD, List.getElem?_eq_getElem hlt]
  rfl

lemma start_mem {r : ℕ} (hr : r ≤ size) : B.start r ∈ B.values :=
  List.mem_of_getElem? (B.getElem?_eq hr)

lemma start_size : B.start size = buckets b S.depth := by
  have h := B.last
  rw [B.getElem?_eq le_rfl] at h
  exact Option.some_injective _ h

lemma start_mono {r s : ℕ} (hrs : r ≤ s) (hs : s ≤ size) : B.start r ≤ B.start s := by
  rcases Nat.eq_or_lt_of_le hrs with rfl | hlt
  · exact le_rfl
  · have hr := B.getElem?_eq (hrs.trans hs)
    have hs := B.getElem?_eq hs
    obtain ⟨hrlt, hr⟩ := List.getElem?_eq_some_iff.mp hr
    obtain ⟨hslt, hs⟩ := List.getElem?_eq_some_iff.mp hs
    have h := List.pairwise_iff_getElem.mp B.sorted r s hrlt hslt hlt
    rwa [hr, hs] at h

lemma lt_lowerBound_iff {r v : ℕ} (hr : r ≤ size) : r < lowerBound B.values v ↔ B.start r < v :=
  Espreso.lt_lowerBound_iff B.sorted (B.getElem?_eq hr)

lemma lowerBound_le {v : ℕ} (hv : v ≤ buckets b S.depth) : lowerBound B.values v ≤ size := by
  by_contra hlt
  have h := (B.lt_lowerBound_iff le_rfl).mp (Nat.lt_of_not_le hlt)
  rw [start_size] at h
  exact absurd hv (Nat.not_le.mpr h)

lemma firstRank_spec {v : ℕ} (hv : v ≤ buckets b S.depth) :
    ∃ first, firstRank B.values v = some first ∧
      ∀ s < size, B.start s < B.start (s + 1) → (first ≤ s ↔ v < B.start (s + 1)) := by
  have hle := B.lowerBound_le hv
  have hfound := le_of_eq_lowerBound rfl (B.getElem?_eq hle)
  rw [firstRank]
  simp only [B.getElem?_eq hle, Option.map_some]
  split_ifs with hzero hlt
  · refine ⟨_, rfl, fun s hs hne => ⟨fun _ => ?_, fun _ => hzero ▸ Nat.zero_le s⟩⟩
    exact hfound.trans_lt ((B.start_mono (hzero ▸ Nat.zero_le s) hs.le).trans_lt hne)
  · -- the interval begins in front of the border that was found
    refine ⟨_, rfl, fun s hs hne => ⟨fun h => ?_, fun h => ?_⟩⟩
    · exact hlt.trans_le (B.start_mono (by omega) hs)
    · by_contra hnot
      have hless := (B.lt_lowerBound_iff (v := v) (r := s + 1) (by omega)).mp (by omega)
      omega
  · -- the interval begins at the border
    refine ⟨_, rfl, fun s hs hne => ⟨fun h => ?_, fun h => ?_⟩⟩
    · exact hfound.trans_lt ((B.start_mono h hs.le).trans_lt hne)
    · by_contra hnot
      have hless := B.start_mono (r := s + 1) (by omega) hle
      omega

/-- **The ranks of an interval** are those that own buckets in front of its end and behind its
beginning. -/
lemma intervalRanks_spec {n : ℕ × ℕ} (hn : Proper (buckets b S.depth) n) (rank : ℕ) :
    ∃ l, intervalRanks B.values rank n = some l ∧ ∀ s, s ∈ l ↔ s < size ∧ s ≠ rank ∧
      ∃ x, (n.1 ≤ x ∧ x < n.2) ∧ B.start s ≤ x ∧ x < B.start (s + 1) := by
  obtain ⟨first, hfirst, hmem⟩ := B.firstRank_spec (hn.le.trans hn.2)
  have hend := B.lowerBound_le hn.2
  have hloop : ∀ {s}, s ∈ (loop first (lowerBound B.values n.2)).filter (· ≠ rank) ↔
      (first ≤ s ∧ s < lowerBound B.values n.2) ∧ s ≠ rank := by
    intro s
    rw [List.mem_filter, loop, List.mem_range'_1, decide_eq_true_eq]
    omega
  have hread : ((loop first (lowerBound B.values n.2)).filter (· ≠ rank)).mapM
      (rankWithBuckets B.values) = some (((loop first (lowerBound B.values n.2)).filter
        (· ≠ rank)).map fun r => if B.start r ≠ B.start (r + 1) then [r] else []) := by
    refine Fallible.mapM_eq_some fun s hs => ?_
    have hs := (hloop.mp hs).1.2
    rw [rankWithBuckets, B.getElem?_eq (r := s) (by omega), B.getElem?_eq (r := s + 1) (by omega)]
    rfl
  refine ⟨_, by rw [intervalRanks, hfirst, Option.bind_eq_bind, Option.bind_some, hread]; rfl,
    fun s => ?_⟩
  simp only [List.mem_flatten, List.mem_map, exists_exists_and_eq_and]
  constructor
  · rintro ⟨r, hr, hs⟩
    obtain ⟨⟨hfirst, hlt⟩, hne⟩ := hloop.mp hr
    split_ifs at hs with hborder
    · obtain rfl := List.mem_singleton.mp hs
      have hmono := B.start_mono (Nat.le_succ s) (by omega)
      have hborder : B.start s < B.start (s + 1) := lt_of_le_of_ne hmono hborder
      exact ⟨by omega, hne, (hn.meets_iff hborder).mp ⟨(hmem s (by omega) hborder).mp hfirst,
        (B.lt_lowerBound_iff (by omega)).mp hlt⟩⟩
    · exact absurd hs List.not_mem_nil
  · rintro ⟨hs, hne, x, hx, hstart⟩
    have hborder : B.start s < B.start (s + 1) := hstart.1.trans_lt hstart.2
    obtain ⟨hfirst, hlt⟩ := (hn.meets_iff hborder).mpr ⟨x, hx, hstart⟩
    refine ⟨s, hloop.mpr ⟨⟨(hmem s hs hborder).mpr hfirst, ?_⟩, hne⟩, ?_⟩
    · exact (B.lt_lowerBound_iff hs.le).mpr hlt
    · rw [if_pos hborder.ne]
      exact List.mem_singleton_self s

end Borders

def bucketInterval (p : ℕ × ℕ) : ℕ × ℕ :=
  let bstep := buckets b S.depth / buckets b p.1
  (p.2 * bstep, p.2 * bstep + bstep)

lemma bucketInterval_of_le {p : ℕ × ℕ} (hp : p.1 ≤ S.depth) :
    S.bucketInterval p = (S.first p.1 p.2, S.first p.1 p.2 + b ^ (S.depth - p.1)) := by
  rw [bucketInterval, buckets, buckets, Nat.pow_div hp (NeZero.pos b)]
  rfl

variable {S}

omit [NeZero b] in
lemma bucketInterval_of_lt (hb : 1 < b) {p : ℕ × ℕ} (hp : S.depth < p.1) :
    S.bucketInterval p = (0, 0) := by
  rw [bucketInterval, buckets, buckets, Nat.div_eq_of_lt (Nat.pow_lt_pow_right hb hp)]
  rfl

variable (S) in
def LeavesOrBehind (found : List (ℕ × ℕ)) : Prop :=
  ∀ q ∈ found, q.1 ≤ S.depth → S.Leaf q.1 q.2

lemma LeavesOrBehind.interval (hb : 1 < b) {found : List (ℕ × ℕ)} (h : S.LeavesOrBehind found)
    {p : ℕ × ℕ} (hp : p ∈ found) : S.bucketInterval p = (0, 0) ∨ S.Leaf p.1 p.2 ∧
      S.bucketInterval p = (S.first p.1 p.2, S.first p.1 p.2 + b ^ (S.depth - p.1)) := by
  rcases Nat.lt_or_ge S.depth p.1 with hlt | hle
  · exact Or.inl (bucketInterval_of_lt hb hlt)
  · exact Or.inr ⟨h p hp hle, S.bucketInterval_of_le hle⟩

lemma LeavesOrBehind.ascending (hb : 1 < b) {found : List (ℕ × ℕ)} (h : S.LeavesOrBehind found) :
    Ascending (sortPairs (found.map S.bucketInterval)) := by
  refine (sortPairs_sorted _).imp_of_mem fun {m n} hm hn hmn => ?_
  rcases hmn with hlt | ⟨heq, hle⟩
  · refine ⟨hlt.le, ?_⟩
    obtain ⟨p, hp, rfl⟩ := List.mem_map.mp (mem_sortPairs.mp hm)
    obtain ⟨q, hq, rfl⟩ := List.mem_map.mp (mem_sortPairs.mp hn)
    rcases h.interval hb hp with hzero | ⟨hleaf, heq⟩
    · rw [hzero]
      exact Nat.zero_le _
    · rcases h.interval hb hq with hzero | ⟨hleaf', heq'⟩
      · rw [hzero] at hlt
        exact absurd hlt (Nat.not_lt_zero _)
      · -- the bucket where the second leaf begins is not in the first leaf
        rw [heq, heq'] at hlt ⊢
        by_contra hover
        have hin := hleaf.div_eq hlt.le (x := S.first q.1 q.2) (by omega)
        have hsame := hleaf.eq_of_div hleaf' hin (S.first_div q.1 q.2)
        rw [hsame.1, hsame.2] at hlt
        exact lt_irrefl _ hlt
  · exact ⟨heq.le, hle⟩

lemma LeavesOrBehind.proper (hb : 1 < b) {found : List (ℕ × ℕ)} (h : S.LeavesOrBehind found) :
    ∀ n ∈ sortPairs (found.map S.bucketInterval), Proper (buckets b S.depth) n := by
  intro n hn
  obtain ⟨p, hp, rfl⟩ := List.mem_map.mp (mem_sortPairs.mp hn)
  rcases h.interval hb hp with hzero | ⟨hleaf, heq⟩
  · rw [hzero]
    exact ⟨Or.inr ⟨rfl, rfl⟩, Nat.zero_le _⟩
  · rw [heq]
    exact ⟨Or.inl (Nat.lt_add_of_pos_right (pow_pos' _)), hleaf.first_add_le⟩

lemma LeavesOrBehind.covers (hb : 1 < b) {found : List (ℕ × ℕ)} (h : S.LeavesOrBehind found)
    {x : ℕ} : Covers (sortPairs (found.map S.bucketInterval)) x ↔
      ∃ q ∈ found, S.Leaf q.1 q.2 ∧ x / b ^ (S.depth - q.1) = q.2 := by
  constructor
  · rintro ⟨n, hn, hlow, hhigh⟩
    obtain ⟨q, hq, rfl⟩ := List.mem_map.mp (mem_sortPairs.mp hn)
    rcases h.interval hb hq with hzero | ⟨hleaf, heq⟩
    · rw [hzero] at hhigh
      exact absurd hhigh (Nat.not_lt_zero x)
    · rw [heq] at hlow hhigh
      exact ⟨q, hq, hleaf, hleaf.div_eq hlow hhigh⟩
  · rintro ⟨q, hq, hleaf, hx⟩
    refine ⟨_, mem_sortPairs.mpr (List.mem_map_of_mem hq), ?_⟩
    rw [S.bucketInterval_of_le hleaf.le_depth]
    change q.2 * _ ≤ x ∧ x < q.2 * _ + _
    rw [← hx, ← Nat.succ_mul]
    exact ⟨Nat.div_mul_le_self _ _, Nat.lt_mul_of_div_lt (Nat.lt_succ_self _) (pow_pos' _)⟩

end Refinement

namespace Coordinates

variable {ι : Type} {b : ℕ} [NeZero b] [Fintype ι] (C : Coordinates ι b) (S : Refinement b)

/-- **The first step of `RandomInput::linkup`** on a rank: the ranks that own buckets next to its
own (`_sfcNeighbors`). -/
def sfcNeighbors (margin : ℕ) (borders : List ℕ) (rank : ℕ) : Option (List ℕ) := do
  let start ← borders[rank]?
  let stop ← borders[rank + 1]?
  let leaves ← S.iterateBuckets start stop
  let found ← leaves.mapM fun p => C.addSFCNeighbors (C.addNeighbors S margin) p.1 p.2
  let intervals := sortPairs ((sortPairs found.flatten).dedup.map S.bucketInterval)
  let ranks ← (mergeIntervals intervals).mapM (intervalRanks borders rank)
  some (sortAndRemoveDuplicity ranks.flatten)

variable {S}

def Owns {size : ℕ} (B : S.Borders size) (r : ℕ) (p : ℕ × ℕ) : Prop :=
  S.Leaf p.1 p.2 ∧ B.start r ≤ S.first p.1 p.2 ∧ S.first p.1 p.2 < B.start (r + 1)

omit [Fintype ι] in
lemma owns_of_div_eq {size s : ℕ} (B : S.Borders size) (hs : s < size) {q : ℕ × ℕ} {x : ℕ}
    (hleaf : S.Leaf q.1 q.2) (hx : x / b ^ (S.depth - q.1) = q.2)
    (hlow : B.start s ≤ x) (hhigh : x < B.start (s + 1)) : Owns B s q := by
  have hborder := B.border _ (B.start_mem hs.le)
  refine ⟨hleaf, hborder.le_first hleaf hx hlow, lt_of_le_of_lt ?_ hhigh⟩
  rw [Refinement.first, ← hx]
  exact Nat.div_mul_le_self _ _

/-- **The first step of `linkup`** finds the ranks that own a leaf with a common corner, except for the
leaves that are replaced. -/
theorem mem_sfcNeighbors {margin size : ℕ} (hb : 1 < b) (hmargin : margin ≤ 1)
    (B : S.Borders size) {rank : ℕ} (hrank : rank < size) :
    ∃ l, C.sfcNeighbors S margin B.values rank = some l ∧ l.Pairwise (· < ·) ∧
      ∀ s, s ∈ l ↔ s < size ∧ s ≠ rank ∧ ∃ p q, Owns B rank p ∧ Owns B s q ∧ C.SharesCorner p q ∧
        ¬Overrun S margin q := by
  -- the leaves of the rank
  have hstop : B.start (rank + 1) ≤ b ^ S.depth :=
    (B.start_mono hrank le_rfl).trans_eq B.start_size
  obtain ⟨leaves, hleaves, hmem⟩ :=
    Refinement.iterateBuckets_spec (B.border _ (B.start_mem hrank.le)) hstop
  -- their neighbours
  have hstep : ∀ p ∈ leaves, ∃ l, C.addSFCNeighbors (C.addNeighbors S margin) p.1 p.2 = some l ∧
      ∀ q, q.1 ≤ S.depth →
        (q ∈ l ↔ S.Leaf q.1 q.2 ∧ C.SharesCorner p q ∧ ¬Overrun S margin q) := fun p hp =>
    C.addSFCNeighbors_leaf S hmargin ((hmem p.1 p.2).mp hp).1
  obtain ⟨found, hfound⟩ := Fallible.exists_mapM fun p hp => (hstep p hp).imp fun _ h => h.1
  have hmem_found : ∀ q, q.1 ≤ S.depth → (q ∈ (sortPairs found.flatten).dedup ↔
      ∃ p, Owns B rank p ∧ S.Leaf q.1 q.2 ∧ C.SharesCorner p q ∧ ¬Overrun S margin q) := by
    intro q hq
    rw [List.mem_dedup, mem_sortPairs, List.mem_flatten]
    constructor
    · rintro ⟨l, hl, hql⟩
      obtain ⟨p, hp, hpl⟩ := (Fallible.mem_mapM hfound).mp hl
      obtain ⟨l', hl', hql'⟩ := hstep p hp
      obtain rfl := Option.some_injective _ (hpl.symm.trans hl')
      exact ⟨p, (hmem p.1 p.2).mp hp, (hql' q hq).mp hql⟩
    · rintro ⟨p, hp, hshares⟩
      have hp := (hmem p.1 p.2).mpr hp
      obtain ⟨l, hl, hql⟩ := hstep p hp
      exact ⟨l, (Fallible.mem_mapM hfound).mpr ⟨p, hp, hl⟩, (hql q hq).mpr hshares⟩
  have hfound_leaves : S.LeavesOrBehind (sortPairs found.flatten).dedup := fun q hq hle =>
    ((hmem_found q hle).mp hq).choose_spec.2.1
  -- their intervals and the ranks of these
  obtain ⟨hcovers, hproper⟩ :=
    mergeIntervals_spec (hfound_leaves.ascending hb) (hfound_leaves.proper hb)
  obtain ⟨ranks, hranks⟩ := Fallible.exists_mapM fun n hn =>
    (B.intervalRanks_spec (hproper n hn) rank).imp fun _ h => h.1
  refine ⟨sortAndRemoveDuplicity ranks.flatten, ?_, sortAndRemoveDuplicity_sorted _, fun s => ?_⟩
  · simp only [sfcNeighbors, B.getElem?_eq hrank.le, B.getElem?_eq (r := rank + 1) hrank, hleaves,
      hfound, hranks, Option.bind_eq_bind, Option.bind_some]
  · rw [mem_sortAndRemoveDuplicity, List.mem_flatten]
    constructor
    · rintro ⟨l, hl, hsl⟩
      obtain ⟨n, hn, hnl⟩ := (Fallible.mem_mapM hranks).mp hl
      obtain ⟨l', hl', hsl'⟩ := B.intervalRanks_spec (hproper n hn) rank
      obtain rfl := Option.some_injective _ (hnl.symm.trans hl')
      obtain ⟨hs, hne, x, hx, hlow, hhigh⟩ := (hsl' s).mp hsl
      obtain ⟨q, hq, hleaf, hxq⟩ := (hfound_leaves.covers hb).mp ((hcovers x).mp ⟨n, hn, hx⟩)
      obtain ⟨p, hp, -, hshares, hoverrun⟩ := (hmem_found q hleaf.le_depth).mp hq
      exact ⟨hs, hne, p, q, hp, owns_of_div_eq B hs hleaf hxq hlow hhigh, hshares, hoverrun⟩
    · rintro ⟨hs, hne, p, q, hp, ⟨hleaf, hlow, hhigh⟩, hshares, hoverrun⟩
      have hq := (hmem_found q hleaf.le_depth).mpr ⟨p, hp, hleaf, hshares, hoverrun⟩
      obtain ⟨n, hn, hx⟩ := (hcovers _).mpr ((hfound_leaves.covers hb).mpr ⟨q, hq, hleaf, S.first_div q.1 q.2⟩)
      obtain ⟨l, hl, hsl⟩ := B.intervalRanks_spec (hproper n hn) rank
      exact ⟨l, (Fallible.mem_mapM hranks).mpr ⟨n, hn, hl⟩, (hsl s).mpr ⟨hs, hne, _, hx, hlow, hhigh⟩⟩

def RanksTouch {size : ℕ} (B : S.Borders size) (r s : ℕ) : Prop :=
  ∃ p q, Owns B r p ∧ Owns B s q ∧ C.SharesCorner p q

variable {C} in
omit [Fintype ι] in
lemma RanksTouch.symm {size : ℕ} {B : S.Borders size} {r s : ℕ} (h : C.RanksTouch B r s) :
    C.RanksTouch B s r := by
  obtain ⟨p, q, hp, hq, hshares⟩ := h
  exact ⟨q, p, hq, hp, Cells.Touches.symm hshares⟩

lemma exists_lists_iff {margin size : ℕ} (hb : 1 < b) (hmargin : margin ≤ 1) (B : S.Borders size) :
    (∃ N : ℕ → List ℕ, (∀ r < size, C.sfcNeighbors S margin B.values r = some (N r)) ∧
      ∀ r < size, ∀ s < size, r ≠ s → (s ∈ N r ↔ C.RanksTouch B r s) ∧ (s ∈ N r ↔ r ∈ N s)) ↔
    ∀ r < size, ∀ s < size, r ≠ s → C.RanksTouch B r s →
      ∃ p q, Owns B r p ∧ Owns B s q ∧ C.SharesCorner p q ∧ ¬Overrun S margin q := by
  constructor
  · rintro ⟨N, hN, hmatch⟩ r hr s hs hne htouch
    obtain ⟨l, hl, -, hmem⟩ := C.mem_sfcNeighbors hb hmargin B hr
    obtain rfl := Option.some_injective _ ((hN r hr).symm.trans hl)
    exact ((hmem s).mp ((hmatch r hr s hs hne).1.mpr htouch)).2.2
  · intro h
    choose N hN hmem using fun r : Fin size => C.mem_sfcNeighbors hb hmargin B r.isLt
    have hlists : ∀ r (hr : r < size) s, s < size → r ≠ s →
        (s ∈ N ⟨r, hr⟩ ↔ C.RanksTouch B r s) := by
      intro r hr s hs hne
      rw [(hmem ⟨r, hr⟩).2 s]
      constructor
      · rintro ⟨-, -, p, q, hp, hq, hshares, -⟩
        exact ⟨p, q, hp, hq, hshares⟩
      · exact fun htouch => ⟨hs, hne.symm, h r hr s hs hne htouch⟩
    refine ⟨fun r => if hr : r < size then N ⟨r, hr⟩ else [], fun r hr => ?_,
      fun r hr s hs hne => ?_⟩
    · simp only [dif_pos hr]
      exact hN ⟨r, hr⟩
    · simp only [dif_pos hr, dif_pos hs]
      refine ⟨hlists r hr s hs hne, ?_⟩
      rw [hlists r hr s hs hne, hlists s hs r hr hne.symm]
      exact ⟨RanksTouch.symm, RanksTouch.symm⟩

end Coordinates

/-! ## Both dimensions -/

namespace SpaceFillingCurve

def Borders : SpaceFillingCurve → ℕ → Type
  | two S => S.Borders
  | three S => S.Borders

/-- `_bucketsBorders` -/
def bucketsBorders {size : ℕ} : (sfc : SpaceFillingCurve) → sfc.Borders size → List ℕ
  | two _, B => B.values
  | three _, B => B.values

/-- The first step of `RandomInput::linkup`. -/
def sfcNeighbors : SpaceFillingCurve → List ℕ → ℕ → Option (List ℕ)
  | two S => xy.sfcNeighbors S 0
  | three S => xyz.sfcNeighbors S 1

def Owns {size : ℕ} : (sfc : SpaceFillingCurve) → sfc.Borders size → ℕ → ℕ × ℕ → Prop
  | two _, B => Coordinates.Owns B
  | three _, B => Coordinates.Owns B

def RanksTouch {size : ℕ} (sfc : SpaceFillingCurve) (B : sfc.Borders size) (r s : ℕ) : Prop :=
  ∃ p q, sfc.Owns B r p ∧ sfc.Owns B s q ∧ sfc.SharesCorner p q

/-- The lists of all ranks name exactly the ranks that touch, and for two ranks, both lists name the
other rank or none does. -/
def ListsMatch {size : ℕ} (sfc : SpaceFillingCurve) (B : sfc.Borders size) : Prop :=
  ∃ N : ℕ → List ℕ, (∀ r < size, sfc.sfcNeighbors (sfc.bucketsBorders B) r = some (N r)) ∧
    ∀ r < size, ∀ s < size, r ≠ s → (s ∈ N r ↔ sfc.RanksTouch B r s) ∧ (s ∈ N r ↔ r ∈ N s)

/-- **The lists match** exactly if touching ranks do not touch in refined buckets of the last level
alone, in dimension 2. -/
theorem listsMatch_iff {size : ℕ} (sfc : SpaceFillingCurve) (B : sfc.Borders size) :
    sfc.ListsMatch B ↔ ∀ r < size, ∀ s < size, r ≠ s → sfc.RanksTouch B r s →
      ∃ p q, sfc.Owns B r p ∧ sfc.Owns B s q ∧ sfc.SharesCorner p q ∧
        ¬(sfc.dimension = 2 ∧ q.1 = sfc.depth ∧ q.2 ∈ sfc.sfcRefined sfc.depth) := by
  cases sfc with
  | two S =>
      have hoverrun : ∀ q, Coordinates.Overrun S 0 q ↔
          (two S).dimension = 2 ∧ q.1 = S.depth ∧ q.2 ∈ S.level S.depth := by
        intro q
        rw [Coordinates.Overrun]
        exact ⟨fun h => ⟨rfl, h.1, h.2.1⟩, fun h => ⟨h.2.1, h.2.2, S.lt_length h.2.2⟩⟩
      have hlists := xy.exists_lists_iff (by decide) (Nat.zero_le 1) B
      simp only [hoverrun] at hlists
      exact hlists
  | three S =>
      have hoverrun : ∀ q, Coordinates.Overrun S 1 q ↔
          (three S).dimension = 2 ∧ q.1 = S.depth ∧ q.2 ∈ S.level S.depth := by
        intro q
        rw [Coordinates.Overrun]
        exact ⟨fun h => absurd S.length_le (Nat.not_le.mpr h.2.2), fun h => absurd h.1 (show ¬3 = 2 by decide)⟩
      have hlists := xyz.exists_lists_iff (by decide) le_rfl B
      simp only [hoverrun] at hlists
      exact hlists

lemma refinedCorner_leaf {index : ℕ} (h : index < 4) : refinedCorner.Leaf 1 index where
  le_depth := le_rfl
  index_lt := h
  refined := fun j hj => by
    obtain rfl : j = 0 := by omega
    exact List.mem_singleton.mpr (Nat.div_eq_of_lt h)
  not_refined := fun hlt => absurd hlt (lt_irrefl 1)

lemma refinedCorner_border : ∀ x ∈ [0, 1, 4], refinedCorner.Border x := by
  intro x hx
  rcases Nat.lt_or_ge x 4 with hlt | hge
  · exact Or.inr ⟨1, x, refinedCorner_leaf hlt, (Nat.mul_one x).symm⟩
  · left
    simp only [List.mem_cons, List.not_mem_nil, or_false] at hx
    change x = 4
    omega

lemma refinedCorner_borders_sorted : [0, 1, 4].Pairwise (· ≤ ·) := by decide

/-- Rank 0 owns the first bucket of the square, and rank 1 the others. -/
def refinedCornerBorders : (two refinedCorner).Borders 2 where
  values := [0, 1, 4]
  length_eq := rfl
  sorted := refinedCorner_borders_sorted
  border := refinedCorner_border
  last := rfl

/-- Rank 0 finds rank 1, but rank 1 does not find rank 0. -/
theorem refinedCorner_not_listsMatch : ¬(two refinedCorner).ListsMatch refinedCornerBorders := by
  rintro ⟨N, hN, hmatch⟩
  -- the first bucket and the second bucket have a common corner
  have htouch : (two refinedCorner).RanksTouch refinedCornerBorders 1 0 := by
    refine ⟨(1, 1), (1, 0), ⟨refinedCorner_leaf (by decide), by decide, by decide⟩,
      ⟨refinedCorner_leaf (by decide), by decide, by decide⟩, fun i => ?_⟩
    revert i
    decide
  obtain ⟨l, hl, -, hmem⟩ := xy.mem_sfcNeighbors (S := refinedCorner) (by decide) (Nat.zero_le 1)
    refinedCornerBorders Nat.one_lt_two
  have heq : N 1 = l := Option.some_injective _ ((hN 1 (by decide)).symm.trans hl)
  have hfound := ((hmatch 1 (by decide) 0 (by decide) (by decide)).1).mpr htouch
  rw [heq, hmem] at hfound
  obtain ⟨-, -, p, q, -, ⟨hleaf, -, hlt⟩, -, hoverrun⟩ := hfound
  have hzero : refinedCorner.first q.1 q.2 = 0 := Nat.lt_one_iff.mp hlt
  have hdiv : 0 / 4 ^ (refinedCorner.depth - q.1) = q.2 := hzero ▸ refinedCorner.first_div q.1 q.2
  obtain ⟨hdepth, hindex⟩ := hleaf.eq_of_div (refinedCorner_leaf (by decide : 0 < 4)) hdiv rfl
  exact hoverrun ⟨hdepth, hindex ▸ List.mem_singleton_self 0, by decide⟩

end SpaceFillingCurve

end Espreso.SFC
