import Espreso.Lib.Fallible
import Espreso.Basis.Communication
import Espreso.Basis.Distribution

/-!
# Balancing a distributed buffer

`Communication::balance` moves the parts of a distributed buffer between ranks such that the sizes
of the parts become those of a target distribution.  Every rank computes by itself what it sends
and what it receives, with one function `fill` that is called with the two distributions swapped.

* `fill` — the loop over the ranges, and **`fill_spec`** — it computes the common parts of two
  ranges.  The common part is symmetric, so sender and receiver agree.
* `balance` — the program of one rank, and **`balance_moves`** — what all ranks do together.
-/

namespace Espreso

open MsgPass

variable {T : Type}

/-- The number of common elements of `[a, b)` and `[c, d)`. -/
def overlap (a b c d : ℕ) : ℕ := min b d - max a c

lemma overlap_comm (a b c d : ℕ) : overlap a b c d = overlap c d a b := by
  simp only [overlap, min_comm, max_comm]

/-! ## Sizes and displacements -/

/-- The arrays `size` and `disp`. -/
structure Pieces where
  size : List ℕ
  disp : List ℕ
  deriving Inhabited

/-- `size[i] = n; disp[i] = offset` -/
def Pieces.put (out : Pieces) (i n offset : ℕ) : Pieces :=
  ⟨out.size.set i n, out.disp.set i offset⟩

/-- The loop of `fill`; `none` is an access outside of an array. -/
def fillLoop (to' : List ℕ) : ℕ → ℕ → ℕ → ℕ → ℕ → Pieces → Option Pieces
  | 0, _, _, _, _, _ => none
  | fuel + 1, tIndex, tOffset, restSize, offset, out =>
    if restSize = 0 then some out else
      to'[tIndex]?.bind fun start =>
      to'[tIndex + 1]?.bind fun stop =>
        if tIndex < out.size.length then
          if restSize < stop - start - tOffset then
            fillLoop to' fuel tIndex 0 0 offset (out.put tIndex restSize offset)
          else
            fillLoop to' fuel (tIndex + 1) 0 (restSize - (stop - start - tOffset))
              (offset + (stop - start - tOffset)) (out.put tIndex (stop - start - tOffset) offset)
        else none

/-- The lambda `fill(from, to, size, disp)` on rank `rank` of `size` ranks. -/
def fill (size rank : ℕ) (from' to' : List ℕ) : Option Pieces :=
  from'[rank]?.bind fun first =>
  from'[rank + 1]?.bind fun last =>
  to'[lowerBound to' (first + 1) - 1]?.bind fun start =>
    fillLoop to' (size + 2) (lowerBound to' (first + 1) - 1) (first - start) (last - first) 0
      ⟨List.replicate size 0, List.replicate size 0⟩

section Fill

variable {size total : ℕ} {to' : Distribution size total} {first last : ℕ}

/-- The arrays after the ranges before `t` have been visited. -/
structure Filled (to' : Distribution size total) (first last t : ℕ) (out : Pieces) : Prop where
  length_size : out.size.length = size
  length_disp : out.disp.length = size
  size_eq : ∀ i < size, out.size.getD i 0
    = if i < t then overlap first last (to'.border i) (to'.border (i + 1)) else 0
  disp_eq : ∀ i < size, i < t → overlap first last (to'.border i) (to'.border (i + 1)) ≠ 0 →
    out.disp.getD i 0 = max first (to'.border i) - first

lemma getD_set (l : List ℕ) (i j n : ℕ) (hj : j < l.length) :
    (l.set i n).getD j 0 = if i = j then n else l.getD j 0 := by
  simp only [List.getD_eq_getElem?_getD, List.getElem?_set]
  split
  · rename_i h
    simp [h, hj]
  · rfl

lemma Filled.put {t : ℕ} {out : Pieces} (h : Filled to' first last t out) :
    Filled to' first last (t + 1)
      (out.put t (overlap first last (to'.border t) (to'.border (t + 1)))
        (max first (to'.border t) - first)) := by
  refine ⟨by simp [Pieces.put, h.length_size], by simp [Pieces.put, h.length_disp], ?_, ?_⟩
  · intro i hi
    rw [Pieces.put, getD_set _ _ _ _ (by rw [h.length_size]; exact hi)]
    by_cases hit : t = i
    · subst hit
      simp
    · rw [if_neg hit, h.size_eq i hi]
      have : i < t ↔ i < t + 1 := by omega
      simp only [this]
  · intro i hi hit hne
    rw [Pieces.put, getD_set _ _ _ _ (by rw [h.length_disp]; exact hi)]
    by_cases heq : t = i
    · subst heq
      simp
    · rw [if_neg heq]
      exact h.disp_eq i hi (by omega) hne

lemma Filled.rest {t : ℕ} {out : Pieces} (h : Filled to' first last t out)
    (hlast : last ≤ max first (to'.border t)) : Filled to' first last size out := by
  have hzero : ∀ i < size, t ≤ i → overlap first last (to'.border i) (to'.border (i + 1)) = 0 := by
    intro i hi hti
    have := to'.border_mono hti (le_of_lt hi)
    simp only [overlap]
    omega
  refine ⟨h.length_size, h.length_disp, fun i hi => ?_, fun i hi _ hne => ?_⟩
  · rw [h.size_eq i hi, if_pos hi]
    by_cases hit : i < t
    · rw [if_pos hit]
    · rw [if_neg hit, hzero i hi (not_lt.mp hit)]
  · by_cases hit : i < t
    · exact h.disp_eq i hi hit hne
    · exact absurd (hzero i hi (not_lt.mp hit)) hne

/-- **The loop.**  At range `t` the loop stands at position `max first (to'.border t)`, which decides
all its counters. -/
lemma fillLoop_spec (hlast : last ≤ total) : ∀ (fuel t : ℕ) (out : Pieces),
    size + 1 < fuel + t → t ≤ size → first ≤ last → (t < size → first ≤ to'.border (t + 1)) →
    to'.border t ≤ last → Filled to' first last t out →
    ∃ out', fillLoop to'.borders fuel t (max first (to'.border t) - to'.border t)
        (last - max first (to'.border t)) (max first (to'.border t) - first) out = some out' ∧
      Filled to' first last size out' := by
  intro fuel
  induction fuel with
  | zero => intro t out hfuel ht; omega
  | succ fuel ih =>
      intro t out hfuel ht hle hfirst htl hout
      rw [fillLoop]
      by_cases hrest : last - max first (to'.border t) = 0
      · rw [if_pos hrest]
        exact ⟨out, rfl, hout.rest (by omega)⟩
      have hts : t < size := by
        rcases eq_or_lt_of_le ht with rfl | hlt
        · rw [to'.border_size] at hrest
          omega
        · exact hlt
      have hfirst' := hfirst hts
      have hmono : to'.border t ≤ to'.border (t + 1) := to'.border_mono (by omega) hts
      rw [if_neg hrest, to'.getElem?_eq ht, Option.bind_some, to'.getElem?_eq (by omega : t + 1 ≤ size),
        Option.bind_some, if_pos (by rw [hout.length_size]; exact hts)]
      have hput := hout.put
      by_cases hshort : last - max first (to'.border t)
          < to'.border (t + 1) - to'.border t - (max first (to'.border t) - to'.border t)
      · -- the rest of `[first, last)` ends inside of range `t`
        have hov : overlap first last (to'.border t) (to'.border (t + 1))
            = last - max first (to'.border t) := by
          simp only [overlap]
          omega
        rw [if_pos hshort]
        rw [hov] at hput
        obtain ⟨fuel, rfl⟩ : ∃ f, fuel = f + 1 := ⟨fuel - 1, by omega⟩
        rw [fillLoop, if_pos rfl]
        exact ⟨_, rfl, hput.rest (by omega)⟩
      · -- range `t` is used up
        have hov : overlap first last (to'.border t) (to'.border (t + 1))
            = to'.border (t + 1) - to'.border t - (max first (to'.border t) - to'.border t) := by
          simp only [overlap]
          omega
        rw [if_neg hshort]
        rw [hov] at hput
        have hnext := ih (t + 1) _ (by omega) hts hle
          (fun h => hfirst'.trans (to'.border_mono (by omega) h)) (by omega) hput
        rwa [show max first (to'.border (t + 1)) - to'.border (t + 1) = 0 by omega,
          show last - max first (to'.border (t + 1)) = last - max first (to'.border t)
            - (to'.border (t + 1) - to'.border t - (max first (to'.border t) - to'.border t)) by omega,
          show max first (to'.border (t + 1)) - first = max first (to'.border t) - first
            + (to'.border (t + 1) - to'.border t - (max first (to'.border t) - to'.border t)) by omega]
          at hnext

/-- **`fill` computes the common parts.**  Rank `rank` finds for each range of `to'` how many
elements it has in common with its own range of `src`, and where they start in its own range. -/
theorem fill_spec (src to' : Distribution size total) {rank : ℕ} (hrank : rank < size) :
    ∃ out, fill size rank src.borders to'.borders = some out ∧
      Filled to' (src.border rank) (src.border (rank + 1)) size out := by
  obtain ⟨t, hlow, ht, hbelow, habove⟩ :=
    lowerBound_spec to' (src.border rank)
  have hmono : src.border rank ≤ src.border (rank + 1) := src.border_mono (by omega) hrank
  have hempty : Filled to' (src.border rank) (src.border (rank + 1)) t
      ⟨List.replicate size 0, List.replicate size 0⟩ := by
    have hzero : ∀ i < size, i < t →
        overlap (src.border rank) (src.border (rank + 1)) (to'.border i) (to'.border (i + 1)) = 0 := by
      intro i hi hit
      have := to'.border_mono (by omega : i + 1 ≤ t) ht
      simp only [overlap]
      omega
    refine ⟨by simp, by simp, fun i hi => ?_, fun i hi hit hne => absurd (hzero i hi hit) hne⟩
    have hget : (List.replicate size 0).getD i 0 = 0 := by
      simp [List.getD_eq_getElem?_getD, hi]
    rw [hget]
    split
    · rename_i hit
      rw [hzero i hi hit]
    · rfl
  have hloop := fillLoop_spec (src.border_le_total hrank) (size + 2) t _ (by omega) ht hmono
    (fun h => le_of_lt (habove h)) (hbelow.trans hmono) hempty
  rw [max_eq_left hbelow, Nat.sub_self] at hloop
  rw [fill, src.getElem?_eq (le_of_lt hrank), Option.bind_some, src.getElem?_eq hrank,
    Option.bind_some, hlow, Nat.add_sub_cancel, to'.getElem?_eq ht, Option.bind_some]
  exact hloop

end Fill

/-! ## The program of one rank -/

/-- The ranks whose size is not `0`, in the order in which the requests are posted. -/
def partners (size : ℕ) (p : Pieces) : List ℕ :=
  (List.range size).filter fun r => p.size.getD r 0 ≠ 0

def outgoing (size : ℕ) (s : Pieces) (buffer : List T) : Option (List (ℕ × List T)) :=
  (partners size s).mapM fun r =>
    (slice buffer (s.disp.getD r 0) (s.disp.getD r 0 + s.size.getD r 0)).map fun m => (r, m)

/-- The messages of the posted receives, each stored at its displacement.  A message that is longer
than the posted size is an error. -/
def store (r : Pieces) : List ℕ → List (List T) → List T → Option (List T)
  | [], _, result => some result
  | _ :: _, [], _ => none
  | i :: is, m :: ms, result =>
    if m.length ≤ r.size.getD i 0 ∧ r.disp.getD i 0 + m.length ≤ result.length then
      store r is ms
        (result.take (r.disp.getD i 0) ++ m ++ result.drop (r.disp.getD i 0 + m.length))
    else none

/-- `Communication::balance` on rank `rank` of `size` ranks.  All requests are posted before the
first one is waited for, so the sends come first and do not block. -/
def balance [Inhabited T] (multiplier size rank : ℕ)
    (currentDistribution targetDistribution : List ℕ) (buffer : List T) : Rank T :=
  if limit < multiplier * buffer.length then refuse buffer else
  guarded targetDistribution[rank]? fun first =>
  guarded targetDistribution[rank + 1]? fun last =>
  guarded (fill size rank currentDistribution targetDistribution) fun s =>
  guarded (fill size rank targetDistribution currentDistribution) fun r =>
  guarded (outgoing size s buffer) fun sends =>
  sendAll sends (recvAll (partners size r) fun messages =>
    guarded (store r (partners size r) messages (List.replicate (last - first) default))
      fun result => .done (some (true, result)))

lemma slice_eq_window (l : List T) {a b : ℕ} (hab : a ≤ b) (hb : b ≤ l.length) :
    slice l a b = some (window l a b) := by
  rw [slice, if_pos ⟨hab, hb⟩, window, List.drop_take]

/-! ## All ranks together -/

lemma partners_nodup (size : ℕ) (p : Pieces) : (partners size p).Nodup :=
  List.nodup_range.filter _

lemma mem_partners {size total t : ℕ} {d : Distribution size total} {first last : ℕ} {p : Pieces}
    (h : Filled d first last size p) :
    t ∈ partners size p ↔
      t < size ∧ overlap first last (d.border t) (d.border (t + 1)) ≠ 0 := by
  simp only [partners, List.mem_filter, List.mem_range, decide_eq_true_eq]
  refine and_congr_right fun ht => ?_
  rw [h.size_eq t ht, if_pos ht]

lemma filter_sends {l : List ℕ} (hl : l.Nodup) (f : ℕ → List T) (j : ℕ) :
    ((l.map fun q => (q, f q)).filter (fun e => e.1 = j)).map (·.2)
      = if j ∈ l then [f j] else [] := by
  induction l with
  | nil => simp
  | cons x l ih =>
      have hx := List.nodup_cons.mp hl
      rw [List.map_cons, List.filter_cons]
      by_cases hxj : x = j
      · subst hxj
        simp only [decide_true, if_true, List.map_cons, List.mem_cons, true_or, ih hx.2,
          if_neg hx.1]
      · simp only [hxj, decide_false, Bool.false_eq_true, if_false, ih hx.2, List.mem_cons,
          Ne.symm hxj, false_or]

section Exchange

variable {size total : ℕ} {cur tar : Distribution size total} {buffer : ℕ → List T}

variable (cur tar buffer) in
/-- What rank `r` sends to rank `q`: the common part of its range and the target range of `q`. -/
def piece (r q : ℕ) : List T :=
  window ((List.range size).flatMap buffer) (max (cur.border r) (tar.border q))
    (min (cur.border (r + 1)) (tar.border (q + 1)))

lemma length_all (hlen : ∀ r < size, (buffer r).length = cur.border (r + 1) - cur.border r) :
    ((List.range size).flatMap buffer).length = total := by
  rw [length_flatMap_range cur hlen size (le_refl size), cur.border_size]

lemma outgoing_eq (hlen : ∀ r < size, (buffer r).length = cur.border (r + 1) - cur.border r)
    {r : ℕ} (hr : r < size) {s : Pieces}
    (hs : Filled tar (cur.border r) (cur.border (r + 1)) size s) :
    outgoing size s (buffer r)
      = some ((partners size s).map fun q => (q, piece cur tar buffer r q)) := by
  refine Fallible.mapM_eq_some fun q hq => ?_
  obtain ⟨hq, hne⟩ := (mem_partners hs).mp hq
  have hcur : cur.border r ≤ cur.border (r + 1) := cur.border_mono (by omega) hr
  rw [hs.size_eq q hq, if_pos hq, hs.disp_eq q hq hq hne]
  simp only [overlap] at hne ⊢
  rw [slice_eq_window _ (by omega) (by rw [hlen r hr]; omega), buffer_eq_window cur hlen hr,
    window_window _ (by omega), Option.map_some]
  congr 2
  unfold piece
  congr 1 <;> omega

/-- How far the target range of `q` is filled by the ranks before `r`. -/
def front (cur tar : Distribution size total) (q r : ℕ) : ℕ :=
  min (max (cur.border r) (tar.border q)) (tar.border (q + 1))

/-- **Storing the messages.**  The messages of consecutive ranks extend the filled part of the
target range without gaps. -/
lemma store_eq (hlen : ∀ r < size, (buffer r).length = cur.border (r + 1) - cur.border r)
    {q : ℕ} (hq : q < size) {p : Pieces}
    (hp : Filled cur (tar.border q) (tar.border (q + 1)) size p) :
    ∀ (n r : ℕ) (result : List T), r + n ≤ size →
      result.length = tar.border (q + 1) - tar.border q →
      result.take (front cur tar q r - tar.border q)
        = window ((List.range size).flatMap buffer) (tar.border q) (front cur tar q r) →
      ∃ out, store p ((List.range' r n).filter fun i => p.size.getD i 0 ≠ 0)
          (((List.range' r n).filter fun i => p.size.getD i 0 ≠ 0).map fun i =>
            piece cur tar buffer i q) result = some out ∧
        out.length = tar.border (q + 1) - tar.border q ∧
        out.take (front cur tar q (r + n) - tar.border q)
          = window ((List.range size).flatMap buffer) (tar.border q) (front cur tar q (r + n)) := by
  have htar : tar.border q ≤ tar.border (q + 1) := tar.border_mono (by omega) hq
  have htot : tar.border (q + 1) ≤ total := tar.border_le_total hq
  intro n
  induction n with
  | zero => intro r result _ hlength htake; exact ⟨result, by simp [store], hlength, by simpa⟩
  | succ n ih =>
      intro r result hr hlength htake
      have hrs : r < size := by omega
      have hcur : cur.border r ≤ cur.border (r + 1) := cur.border_mono (by omega) hrs
      rw [List.range'_succ, show r + (n + 1) = r + 1 + n by omega]
      have hsize := hp.size_eq r hrs
      rw [if_pos hrs] at hsize
      by_cases hzero : overlap (tar.border q) (tar.border (q + 1)) (cur.border r)
          (cur.border (r + 1)) = 0
      · -- nothing comes from rank `r`
        have hfront : front cur tar q (r + 1) = front cur tar q r := by
          simp only [overlap] at hzero
          simp only [front]
          omega
        rw [List.filter_cons_of_neg (by simp only [hsize, hzero]; simp)]
        exact ih (r + 1) result (by omega) hlength (by rw [hfront]; exact htake)
      · have hdisp := hp.disp_eq r hrs hrs hzero
        simp only [overlap] at hzero hsize
        have hfront : front cur tar q r = max (cur.border r) (tar.border q) := by
          simp only [front]
          omega
        have hfront' : front cur tar q (r + 1) = min (cur.border (r + 1)) (tar.border (q + 1)) := by
          simp only [front]
          omega
        have hall := length_all hlen
        have hpiece : (piece cur tar buffer r q).length
            = front cur tar q (r + 1) - front cur tar q r := by
          rw [piece, length_window _ (by omega), hfront, hfront']
        have hdisp' : p.disp.getD r 0 = front cur tar q r - tar.border q := by
          rw [hdisp, hfront, max_comm]
        rw [List.filter_cons_of_pos (by simp only [hsize]; simpa using hzero), List.map_cons, store, if_pos (by
          rw [hpiece, hsize, hdisp']; omega), hdisp']
        refine ih (r + 1) _ (by omega) ?_ ?_
        · simp only [List.length_append, List.length_take, List.length_drop]
          omega
        · have hprefix : (result.take (front cur tar q r - tar.border q)
              ++ piece cur tar buffer r q).length
              = front cur tar q (r + 1) - tar.border q := by
            simp only [List.length_append, List.length_take]
            omega
          rw [← hprefix, List.take_left, htake, piece, ← hfront, ← hfront']
          exact window_append _ (by omega) (by omega)

end Exchange

/-- The `size` ranks at the start of the call, with nothing in flight. -/
def startBalance [Inhabited T] (multiplier size : ℕ) (currentDistribution targetDistribution : List ℕ)
    (buffer : ℕ → List T) : Net ℕ (List T) (Result T) :=
  idle fun i =>
    if i < size then
      balance multiplier size i currentDistribution targetDistribution (buffer i)
    else .done (some (true, []))

/-- `ssize[q]` as rank `r` computes it. -/
def ssize (size r q : ℕ) (currentDistribution targetDistribution : List ℕ) : Option ℕ :=
  (fill size r currentDistribution targetDistribution).bind fun s => s.size[q]?

/-- `rsize[r]` as rank `q` computes it. -/
def rsize (size q r : ℕ) (currentDistribution targetDistribution : List ℕ) : Option ℕ :=
  (fill size q targetDistribution currentDistribution).bind fun s => s.size[r]?

/-- **Sender and receiver agree** on the size of every message. -/
theorem ssize_eq_rsize {size total : ℕ} (cur tar : Distribution size total) {r q : ℕ}
    (hr : r < size) (hq : q < size) :
    ∃ n, ssize size r q cur.borders tar.borders = some n ∧
      rsize size q r cur.borders tar.borders = some n := by
  obtain ⟨s, hs, hfs⟩ := fill_spec cur tar hr
  obtain ⟨p, hp, hfp⟩ := fill_spec tar cur hq
  refine ⟨overlap (cur.border r) (cur.border (r + 1)) (tar.border q) (tar.border (q + 1)), ?_, ?_⟩
  · have hlt : q < s.size.length := by rw [hfs.length_size]; exact hq
    have h := hfs.size_eq q hq
    rw [if_pos hq, List.getD_eq_getElem?_getD, List.getElem?_eq_getElem hlt] at h
    rw [ssize, hs, Option.bind_some, List.getElem?_eq_getElem hlt, ← h, Option.getD_some]
  · have hlt : r < p.size.length := by rw [hfp.length_size]; exact hr
    have h := hfp.size_eq r hr
    rw [if_pos hr, List.getD_eq_getElem?_getD, List.getElem?_eq_getElem hlt, overlap_comm] at h
    rw [rsize, hp, Option.bind_some, List.getElem?_eq_getElem hlt, ← h, Option.getD_some]

section Run

variable {size total : ℕ} {cur tar : Distribution size total} {buffer : ℕ → List T}

lemma balance_reaches [Inhabited T] (multiplier : ℕ)
    (hlen : ∀ r < size, (buffer r).length = cur.border (r + 1) - cur.border r)
    (hlimit : ∀ r < size, multiplier * (buffer r).length ≤ limit) :
    Reaches (startBalance multiplier size cur.borders tar.borders buffer)
      (idle fun q => .done (some (true, if q < size then
        window ((List.range size).flatMap buffer) (tar.border q) (tar.border (q + 1)) else []))) := by
  choose! s hs hfs using fun r (hr : r < size) => fill_spec cur tar hr
  choose! p hp hfp using fun q (hq : q < size) => fill_spec tar cur hq
  -- what a rank does after the exchange
  set fin : ℕ → List (List T) → Rank T := fun q messages =>
    guarded (store (p q) (partners size (p q)) messages
      (List.replicate (tar.border (q + 1) - tar.border q) default))
      fun result => .done (some (true, result)) with hfin
  have hprog : ∀ r ∈ List.range size,
      (startBalance multiplier size cur.borders tar.borders buffer).proc r
        = sendAll ((partners size (s r)).map fun q => (q, piece cur tar buffer r q))
          (recvAll (partners size (p r)) (fin r)) := by
    intro r hr
    have hr' := List.mem_range.mp hr
    simp only [startBalance, idle_proc, if_pos hr', balance, if_neg (not_lt.mpr (hlimit r hr')),
      tar.getElem?_eq (le_of_lt hr'), tar.getElem?_eq hr', hs r hr', hp r hr',
      outgoing_eq hlen hr' (hfs r hr'), guarded_some, hfin]
  have hexch := exchange_reaches (fun r q => piece cur tar buffer r q) (List.range size)
    List.nodup_range hprog
    (fun q hq => ⟨partners_nodup size (p q),
      fun r hr => List.mem_range.mpr ((mem_partners (hfp q (List.mem_range.mp hq))).mp hr).1⟩)
    (fun r hr q => by
      have hr' := List.mem_range.mp hr
      rw [filter_sends (partners_nodup size (s r))]
      refine if_congr ?_ rfl rfl
      rw [mem_partners (hfs r hr'), List.mem_range]
      refine and_congr_right fun hq => ?_
      rw [mem_partners (hfp q hq), overlap_comm]
      simp [hr'])
  have hend : ∀ q, (if q ∈ List.range size then
        fin q ((partners size (p q)).map fun r => piece cur tar buffer r q)
      else (startBalance multiplier size cur.borders tar.borders buffer).proc q)
      = .done (some (true, if q < size then
        window ((List.range size).flatMap buffer) (tar.border q) (tar.border (q + 1)) else [])) := by
    intro q
    by_cases hq : q < size
    · have hmono : tar.border q ≤ tar.border (q + 1) := tar.border_mono (by omega) hq
      have htotal : tar.border (q + 1) ≤ total := tar.border_le_total hq
      have hback : front cur tar q 0 = tar.border q := by
        simp only [front, cur.border_zero]
        omega
      have hfront : front cur tar q (0 + size) = tar.border (q + 1) := by
        simp only [front, Nat.zero_add, cur.border_size]
        omega
      obtain ⟨out, hout, hlength, htake⟩ := store_eq hlen hq (hfp q hq) size 0
        (List.replicate (tar.border (q + 1) - tar.border q) default) (by omega) (by simp)
        (by simp [hback])
      rw [hfront, ← hlength, List.take_length] at htake
      rw [← List.range_eq_range'] at hout
      rw [if_pos hq, if_pos (List.mem_range.mpr hq), ← htake]
      simp only [hfin, partners, hout, guarded_some]
    · rw [if_neg hq, if_neg (by simpa using hq)]
      simp [startBalance, hq]
  rw [show startBalance multiplier size cur.borders tar.borders buffer
    = idle (startBalance multiplier size cur.borders tar.borders buffer).proc from rfl]
  simpa only [hend] using hexch

/-- All ranks return from `balance` with given buffers. -/
def Balanced [Inhabited T] (multiplier size : ℕ) (currentDistribution targetDistribution : List ℕ)
    (buffer out : ℕ → List T) : Prop :=
  Reaches (startBalance multiplier size currentDistribution targetDistribution buffer)
    (idle fun q => .done (some (true, if q < size then out q else [])))

lemma Balanced.fits [Inhabited T] {multiplier : ℕ} {c t : List ℕ} {out : ℕ → List T}
    (h : Balanced multiplier size c t buffer out) {r : ℕ} (hr : r < size) :
    multiplier * (buffer r).length ≤ limit := by
  by_contra hlarge
  obtain ⟨n, hn⟩ := h
  have hrefused : (startBalance multiplier size c t buffer).proc r = .done (some (false, buffer r)) := by
    rw [startBalance, idle_proc, if_pos hr, balance, if_pos (Nat.lt_of_not_le hlarge)]
    rfl
  have hdone := hn.done_persists hrefused
  rw [idle_proc] at hdone
  simp at hdone

lemma balanced_window [Inhabited T] (cur tar : Distribution size total) (multiplier : ℕ)
    (hlen : ∀ r < size, (buffer r).length = cur.border (r + 1) - cur.border r)
    (hlimit : ∀ r < size, multiplier * (buffer r).length ≤ limit) :
    Balanced multiplier size cur.borders tar.borders buffer fun q =>
      window ((List.range size).flatMap buffer) (tar.border q) (tar.border (q + 1)) :=
  balance_reaches multiplier hlen hlimit

lemma Balanced.eq_window [Inhabited T] (cur tar : Distribution size total) {multiplier : ℕ}
    {out : ℕ → List T} (h : Balanced multiplier size cur.borders tar.borders buffer out)
    (hlen : ∀ r < size, (buffer r).length = cur.border (r + 1) - cur.border r) {q : ℕ}
    (hq : q < size) :
    out q = window ((List.range size).flatMap buffer) (tar.border q) (tar.border (q + 1)) := by
  have hwindow := balanced_window cur tar multiplier hlen fun r hr => h.fits hr
  have hresult := Finished.result_unique (fun i => ⟨_, rfl⟩) hwindow h (i := q) rfl
  rw [idle_proc, if_pos hq, if_pos hq] at hresult
  simpa using hresult.symm

end Run

def threeBuffers : ℕ → List ℕ
  | 0 => [10, 11, 12, 13]
  | 1 => []
  | _ => [20, 21]

def threeCurrent : Distribution 3 6 := ⟨[0, 4, 4, 6], by decide, by decide, by decide, by decide⟩

def threeTarget : Distribution 3 6 := ⟨[0, 1, 5, 6], by decide, by decide, by decide, by decide⟩

end Espreso
