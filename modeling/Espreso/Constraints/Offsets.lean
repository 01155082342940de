import Espreso.Mesh.Intervals

/-!
# Offsets of intervals over all ranks

`Constraints::computeIntervalsOffsets` numbers blocks over all ranks.  An interval is numbered by
the rank of its first domain; the ranks after it learn its offset from that rank, by position in a
message.

* `gather`, `receiveLowerKnownSize`, `assign` — the loop before the exchange, the exchange, and the
  loop after it.
* **`computeIntervalsOffsets_eq`** — every rank ends with the same offset for the same interval.
* **`offset_bijOn`** — the blocks of all intervals cover the numbers below the total exactly once.
-/

namespace Espreso

open Layout Function

/-! ## The code -/

section Code

variable (m : Mesh) (getsize : ProcessInterval → ℕ)

/-- `domains->front()`; an interval always has a domain. -/
def ProcessInterval.front (p : ProcessInterval) : ℕ := p.domains.headD 0

/-- The test `firstDomain <= d && d < firstDomain + ndomains`. -/
def Mesh.Holds (d : ℕ) : Prop := m.firstDomain ≤ d ∧ d < m.firstDomain + m.ndomains

instance (d : ℕ) : Decidable (m.Holds d) := inferInstanceAs (Decidable (_ ∧ _))

/-- The loop over the domains from `begin` on, which finds the ranks an offset is sent to. -/
def targetLoop (d2p : ℕ → ℕ) (domains : List ℕ) : List ℕ → ℕ → List ℕ
  | [], _ => []
  | n :: ns, begin' =>
    let next := begin' + lowerBound (domains.drop begin') (domains.getD n 0)
    if d2p (domains.getD begin' 0) < d2p (domains.getD next 0) then
      d2p (domains.getD next 0) :: targetLoop d2p domains ns next
    else targetLoop d2p domains ns next

/-- The ranks an interval's offset is sent to: the loop starts at the last domain of this rank. -/
def targets (p : ProcessInterval) : List ℕ :=
  let begin' := lowerBound p.domains (m.firstDomain + m.ndomains) - 1
  targetLoop (d2p m.domainsProcDistribution) p.domains
    (List.range' begin' (p.domains.length - begin')) begin'

/-- `buffer[n].push_back(x)` -/
def pushBack (buffer : ℕ → List ℕ) (n x : ℕ) : ℕ → List ℕ := update buffer n (buffer n ++ [x])

/-- The state of the first loop; buffers are indexed by neighbours. -/
structure Gathered where
  offset : ℕ
  sGlobalOffset : ℕ → List ℕ
  rGlobalOffset : ℕ → List ℕ

def gather (st : Gathered) (p : ProcessInterval) : Gathered :=
  if m.Holds p.front then
    ⟨st.offset + getsize p,
      (targets m p).foldl (fun s q => pushBack s (n2i m.neighbours q) st.offset) st.sGlobalOffset,
      st.rGlobalOffset⟩
  else
    ⟨st.offset, st.sGlobalOffset,
      pushBack st.rGlobalOffset (n2i m.neighbours (d2p m.domainsProcDistribution p.front)) 0⟩

def gathered : Gathered := m.pintervals.foldl (gather m getsize) ⟨0, fun _ => [], fun _ => []⟩

/-- `Communication::exscan`: the sum over the ranks before. -/
def exscan (value : ℕ → ℕ) (rank : ℕ) : ℕ := start value rank

/-- The size check of `Communication::receiveLowerKnownSize`. -/
def sizesFit (neighbours : List ℕ) (rank : ℕ) (sBuffer rBuffer : ℕ → List ℕ) : Prop :=
  ∀ n < neighbours.length,
    if rank < neighbours.getD n 0 then (sBuffer n).length ≤ limit else (rBuffer n).length ≤ limit

instance (neighbours : List ℕ) (rank : ℕ) (sBuffer rBuffer : ℕ → List ℕ) :
    Decidable (sizesFit neighbours rank sBuffer rBuffer) :=
  Nat.decidableBallLT _ _

/-- `Communication::receiveLowerKnownSize` as seen by one rank: every buffer of a lower neighbour
receives what that neighbour sends to this rank.  A message that is longer than the buffer is an
error. -/
def receiveLowerKnownSize (neighbours : ℕ → List ℕ) (sBuffer rBuffer : ℕ → ℕ → List ℕ) (rank : ℕ) :
    Option (ℕ → List ℕ) :=
  let message := fun n =>
    sBuffer ((neighbours rank).getD n 0) (n2i (neighbours ((neighbours rank).getD n 0)) rank)
  if sizesFit (neighbours rank) rank (sBuffer rank) (rBuffer rank) ∧
      ∀ n < (neighbours rank).length, (neighbours rank).getD n 0 < rank →
        (message n).length ≤ (rBuffer rank n).length then
    some fun n =>
      if n < (neighbours rank).length ∧ (neighbours rank).getD n 0 < rank then
        message n ++ (rBuffer rank n).drop (message n).length
      else rBuffer rank n
  else none

/-- The second loop: the offsets handed to `setsize`, and the final `offset`. -/
def assign (rGlobalOffset : ℕ → List ℕ) :
    List ProcessInterval → ℕ → (ℕ → ℕ) → Option (List ℕ × ℕ)
  | [], offset, _ => some ([], offset)
  | p :: ps, offset, rDataOffset =>
    if m.Holds p.front then
      (assign rGlobalOffset ps (offset + getsize p) rDataOffset).map fun out =>
        (offset :: out.1, out.2)
    else
      let n := n2i m.neighbours (d2p m.domainsProcDistribution p.front)
      (rGlobalOffset n)[rDataOffset n]?.bind fun x =>
        (assign rGlobalOffset ps offset (update rDataOffset n (rDataOffset n + 1))).map fun out =>
          (x :: out.1, out.2)

end Code

/-- `computeIntervalsOffsets` on rank `rank` up to the final broadcast. -/
def localOffsets (meshes : ℕ → Mesh) (getsize : ProcessInterval → ℕ) (rank : ℕ) :
    Option (List ℕ × ℕ) :=
  let st := fun r => gathered (meshes r) getsize
  let offset := exscan fun r => (st r).offset
  (receiveLowerKnownSize (fun r => (meshes r).neighbours)
    (fun r n => ((st r).sGlobalOffset n).map (· + offset r)) (fun r => (st r).rGlobalOffset)
    rank).bind fun rGlobalOffset =>
      assign (meshes rank) getsize rGlobalOffset (meshes rank).pintervals (offset rank) fun _ => 0

/-- `Constraints::computeIntervalsOffsets` on rank `rank` of `size` ranks: the offset of each of its
intervals, and the total, which the last rank broadcasts. -/
def computeIntervalsOffsets (meshes : ℕ → Mesh) (size : ℕ) (getsize : ProcessInterval → ℕ)
    (rank : ℕ) : Option (List ℕ × ℕ) :=
  (localOffsets meshes getsize rank).bind fun own =>
    (localOffsets meshes getsize (size - 1)).map fun last => (own.1, last.2)

/-! ## The ranks after the owner -/

def emit (f : ℕ → ℕ) : ℕ → List ℕ → List ℕ
  | _, [] => []
  | x, d :: ds => if f x < f d then f d :: emit f d ds else emit f d ds

lemma lowerBound_drop_getD {l : List ℕ} (hl : l.Pairwise (· < ·)) {p n : ℕ} (hpn : p ≤ n)
    (hn : n < l.length) : p + lowerBound (l.drop p) (l.getD n 0) = n := by
  have hget : l[n]? = some (l.getD n 0) := by
    rw [List.getD_eq_getElem?_getD, List.getElem?_eq_getElem hn, Option.getD_some]
  have hfound := lowerBound_getElem? hl hget
  rw [lowerBound_drop l (by omega), hfound]

lemma targetLoop_eq (f : ℕ → ℕ) {l : List ℕ} (hl : l.Pairwise (· < ·)) :
    ∀ (k b p : ℕ), p ≤ b → b + k = l.length →
      targetLoop f l (List.range' b k) p = emit f (l.getD p 0) (l.drop b) := by
  intro k
  induction k with
  | zero =>
      intro b p _ hb
      rw [List.drop_eq_nil_of_le (by omega)]
      rfl
  | succ k ih =>
      intro b p hp hb
      have hlt : b < l.length := by omega
      have hdrop : l.drop b = l.getD b 0 :: l.drop (b + 1) := by
        rw [List.drop_eq_getElem_cons hlt, List.getD_eq_getElem?_getD, List.getElem?_eq_getElem hlt,
          Option.getD_some]
      rw [List.range'_succ, targetLoop, lowerBound_drop_getD hl hp hlt, hdrop, emit,
        ih (b + 1) b (by omega) (by omega)]

lemma emit_spec (f : ℕ → ℕ) : ∀ (l : List ℕ) (x : ℕ), (x :: l).Pairwise (fun a b => f a ≤ f b) →
    (∀ q ∈ emit f x l, f x < q) ∧ (emit f x l).Nodup ∧
      ∀ q, q ∈ emit f x l ↔ q ∈ l.map f ∧ q ≠ f x := by
  intro l
  induction l with
  | nil => intro x _; simp [emit]
  | cons d l ih =>
      intro x hx
      have hxd : f x ≤ f d := (List.pairwise_cons.mp hx).1 d (by simp)
      obtain ⟨hgt, hnodup, hmem⟩ := ih d (List.pairwise_cons.mp hx).2
      rw [emit]
      by_cases h : f x < f d
      · rw [if_pos h]
        refine ⟨?_, ?_, ?_⟩
        · intro q hq
          rcases List.mem_cons.mp hq with rfl | hq
          · exact h
          · exact h.trans (hgt q hq)
        · exact List.nodup_cons.mpr ⟨fun hd => lt_irrefl _ (hgt _ hd), hnodup⟩
        · intro q
          rw [List.mem_cons, hmem, List.map_cons, List.mem_cons]
          by_cases hq : q = f d
          · subst hq
            simp [ne_of_gt h]
          · simp only [hq, false_or, ne_eq, not_false_eq_true, and_true]
            refine ⟨fun hq' => ⟨hq', ?_⟩, fun hq' => hq'.1⟩
            rintro rfl
            have := hgt (f x) ((hmem _).mpr ⟨hq', hq⟩)
            omega
      · have heq : f x = f d := by omega
        rw [if_neg h]
        refine ⟨fun q hq => heq ▸ hgt q hq, hnodup, fun q => ?_⟩
        rw [hmem, List.map_cons, List.mem_cons, heq]
        tauto

/-! ## The closed form -/

namespace System

variable (sys : System) (size : ℕ → ℕ)

/-- The total size of the intervals before `n` that rank `r` numbers. -/
def owned (r n : ℕ) : ℕ := start (fun h => if sys.owner h = r then size h else 0) n

/-- The offset of an interval: first come the intervals of the lower ranks, then the earlier ones of
its own rank. -/
def offset (g : ℕ) : ℕ :=
  start (fun r => sys.owned size r sys.count) (sys.owner g) + sys.owned size (sys.owner g) g

variable {sys size}

lemma owned_succ (r n : ℕ) :
    sys.owned size r (n + 1) = sys.owned size r n + if sys.owner n = r then size n else 0 :=
  start_succ _ n

lemma owned_add_le (sys : System) (size : ℕ → ℕ) {r g n : ℕ} (hg : g < n) (hr : sys.owner g = r) :
    sys.owned size r g + size g ≤ sys.owned size r n := by
  have h := start_add_le (fun h => if sys.owner h = r then size h else 0) hg
  simpa [hr, owned] using h

lemma start_owned (n : ℕ) (hn : n ≤ sys.count) :
    start (fun r => sys.owned size r n) sys.ranks = start size n := by
  unfold start owned start
  rw [Finset.sum_comm]
  refine Finset.sum_congr rfl fun h hh => ?_
  have howner : sys.owner h < sys.ranks := owner_lt (by have := Finset.mem_range.mp hh; omega)
  simp [howner]

lemma offset_add_le_end (size : ℕ → ℕ) {g : ℕ} (hg : g < sys.count) :
    sys.offset size g + size g
      ≤ start (fun r => sys.owned size r sys.count) (sys.owner g + 1) := by
  have := owned_add_le sys size hg rfl
  rw [start_succ, offset]
  omega

lemma offset_add_le_of_owner_lt {g h : ℕ} (hg : g < sys.count) (hlt : sys.owner g < sys.owner h) :
    sys.offset size g + size g ≤ sys.offset size h := by
  have h₁ := offset_add_le_end size hg
  have h₂ := start_mono (fun r => sys.owned size r sys.count) (by omega : sys.owner g + 1 ≤ sys.owner h)
  have h₃ : start (fun r => sys.owned size r sys.count) (sys.owner h) ≤ sys.offset size h :=
    Nat.le_add_right _ _
  omega

lemma offset_add_le_of_owner_eq {g h : ℕ} (hlt : g < h) (heq : sys.owner g = sys.owner h) :
    sys.offset size g + size g ≤ sys.offset size h := by
  have := owned_add_le sys size hlt heq
  rw [offset, offset, heq]
  omega

/-- **The blocks of all intervals** cover the numbers below the total exactly once. -/
theorem offset_bijOn (sys : System) (size : ℕ → ℕ) :
    Set.BijOn (fun p : ℕ × ℕ => sys.offset size p.1 + p.2) {p | p.1 < sys.count ∧ p.2 < size p.1}
      (Set.Iio (start size sys.count)) := by
  have hblocks := blocks_bijOn (Finset.range sys.count) (sys.offset size) size
    (fun g hg h hh hne => by
      have hg' := Finset.mem_range.mp hg
      have hh' := Finset.mem_range.mp hh
      rcases lt_trichotomy (sys.owner g) (sys.owner h) with hlt | heq | hgt
      · exact Or.inl (offset_add_le_of_owner_lt hg' hlt)
      · rcases lt_or_gt_of_ne hne with hlt | hgt
        · exact Or.inl (offset_add_le_of_owner_eq hlt heq)
        · exact Or.inr (offset_add_le_of_owner_eq hgt heq.symm)
      · exact Or.inr (offset_add_le_of_owner_lt hh' hgt))
    (fun g hg => by
      have hg' := Finset.mem_range.mp hg
      have h₁ := offset_add_le_end size hg'
      have h₂ := start_mono (fun r => sys.owned size r sys.count)
        (owner_lt hg' : sys.owner g + 1 ≤ sys.ranks)
      rw [start_owned _ (le_refl _)] at h₂
      exact h₁.trans h₂)
  simpa [start] using hblocks

end System

/-! ## The loops -/

section Spec

variable {sys : System} {getsize : ProcessInterval → ℕ} {size : ℕ → ℕ}

lemma front_view (off g : ℕ) : (sys.view off g).front = (sys.interval g).front := by
  have hcons : (sys.interval g).domains = (sys.interval g).front :: (sys.interval g).domains.tail :=
    (List.cons_head_tail (sys.interval g).nonempty).symm
  rw [ProcessInterval.front, System.view, hcons, List.headD_cons]

lemma holds_iff {r d : ℕ} (hr : r < sys.ranks) (hd : d < sys.domains) :
    (sys.mesh r).Holds d ↔ sys.rankOf d = r := by
  have hmono := sys.distribution.border_mono (Nat.le_add_right r 1) hr
  rw [System.rankOf_iff hd hr, Mesh.Holds, System.mesh]
  simp only
  rw [Nat.add_sub_cancel' hmono]

lemma holds_front {r g off : ℕ} (hr : r < sys.ranks) (hg : g < sys.count) :
    (sys.mesh r).Holds (sys.view off g).front ↔ sys.owner g = r := by
  rw [front_view, holds_iff hr (sys.domains_lt g hg _ (sys.interval g).front_mem)]
  rfl

lemma targets_spec {r g : ℕ} (off : ℕ) (hg : g < sys.count) (hr : sys.owner g = r) :
    (targets (sys.mesh r) (sys.view off g)).Nodup ∧
      ∀ q, q ∈ targets (sys.mesh r) (sys.view off g) ↔ q ∈ sys.iranks g ∧ q ≠ r := by
  set l := (sys.interval g).domains with hl
  have hasc : l.Pairwise (· < ·) := (sys.interval g).ascending
  have hdom : ∀ d ∈ l, d < sys.domains := sys.domains_lt g hg
  have hrank : r < sys.ranks := hr ▸ System.owner_lt hg
  have hmono := sys.distribution.border_mono (Nat.le_add_right r 1) hrank
  have hfront := (System.rankOf_iff (hdom _ (sys.interval g).front_mem) hrank).mp hr
  -- every domain of the list that is held by lower borders belongs to rank `r`
  have hown : ∀ d ∈ l, d < sys.distribution.border (r + 1) → sys.rankOf d = r := fun d hd hlt =>
    System.rankOf_eq hrank (hfront.1.trans ((sys.interval g).front_le hd)) hlt
  set v := sys.distribution.border (r + 1) with hv
  have hpos : 0 < lowerBound l v := by
    by_contra hzero
    have hcons : l = (sys.interval g).front :: l.tail :=
      (List.cons_head_tail (sys.interval g).nonempty).symm
    have hhead : l[0]? = some (sys.interval g).front := by rw [hcons]; rfl
    have := le_of_eq_lowerBound (by omega : 0 = lowerBound l v) hhead
    omega
  have hlen : lowerBound l v ≤ l.length := List.findIdx_le_length
  set b := lowerBound l v - 1 with hb
  have hbl : b < l.length := by omega
  have hlast : l[b]? = some (l.getD b 0) := by
    rw [List.getD_eq_getElem?_getD, List.getElem?_eq_getElem hbl, Option.getD_some]
  have hbrank : sys.rankOf (l.getD b 0) = r :=
    hown _ (List.mem_of_getElem? hlast) (lt_of_lt_lowerBound (by omega) hlast)
  have htargets : targets (sys.mesh r) (sys.view off g)
      = emit sys.rankOf (l.getD b 0) (l.drop b) := by
    have hsum : sys.distribution.border r + (v - sys.distribution.border r) = v := by omega
    simp only [targets, System.mesh, System.view, ← hl, ← hv, hsum, ← hb]
    exact targetLoop_eq sys.rankOf hasc (l.length - b) b b (le_refl b) (by omega)
  have hdrop : l.drop b = l.getD b 0 :: l.drop (b + 1) := by
    rw [List.drop_eq_getElem_cons hbl, List.getD_eq_getElem?_getD, List.getElem?_eq_getElem hbl,
      Option.getD_some]
  have hsorted : (l.getD b 0 :: l.drop b).Pairwise fun a c => sys.rankOf a ≤ sys.rankOf c := by
    have hrest : (l.drop b).Pairwise fun a c => sys.rankOf a ≤ sys.rankOf c :=
      (hasc.sublist (List.drop_sublist b l)).imp_of_mem fun _ hc hlt =>
        System.rankOf_mono (le_of_lt hlt) (hdom _ (List.mem_of_mem_drop hc))
    refine List.pairwise_cons.mpr ⟨fun c hc => ?_, hrest⟩
    rw [hdrop] at hc hrest
    rcases List.mem_cons.mp hc with rfl | hc
    · exact le_refl _
    · exact (List.pairwise_cons.mp hrest).1 c hc
  obtain ⟨-, hnodup, hmem⟩ := emit_spec sys.rankOf (l.drop b) (l.getD b 0) hsorted
  rw [htargets]
  refine ⟨hnodup, fun q => ?_⟩
  rw [hmem, hbrank]
  refine and_congr_left fun hq => ?_
  constructor
  · intro h
    obtain ⟨d, hd, rfl⟩ := List.mem_map.mp h
    exact List.mem_map_of_mem (List.mem_of_mem_drop hd)
  · intro h
    obtain ⟨d, hd, rfl⟩ := List.mem_map.mp h
    rw [← hl, ← List.take_append_drop b l] at hd
    rcases List.mem_append.mp hd with hd | hd
    · -- a domain before the last own one belongs to this rank
      obtain ⟨i, hi, hid⟩ := List.mem_iff_getElem.mp hd
      rw [List.length_take] at hi
      rw [List.getElem_take] at hid
      have hget : l[i]? = some d := by rw [List.getElem?_eq_getElem (by omega), hid]
      exact absurd (hown d (List.mem_of_getElem? hget)
        (lt_of_lt_lowerBound (by omega) hget)) hq
    · exact List.mem_map_of_mem hd

lemma foldl_pushBack {nb : List ℕ} (hnb : nb.Pairwise (· < ·)) (x : ℕ) {q : ℕ} (hq : q ∈ nb) :
    ∀ (l : List ℕ) (s : ℕ → List ℕ), l.Nodup → (∀ t ∈ l, t ∈ nb) →
      l.foldl (fun s t => pushBack s (n2i nb t) x) s (n2i nb q)
        = if q ∈ l then s (n2i nb q) ++ [x] else s (n2i nb q) := by
  intro l
  induction l with
  | nil => intro s _ _; simp
  | cons t l ih =>
      intro s hl ht
      have hl' := List.nodup_cons.mp hl
      rw [List.foldl_cons, ih _ hl'.2 fun u hu => ht u (by simp [hu])]
      by_cases hqt : q = t
      · subst hqt
        simp [pushBack, hl'.1]
      · have hne : n2i nb q ≠ n2i nb t := fun h => hqt (lowerBound_inj hnb hq (ht t (by simp)) h)
        simp [pushBack, update_of_ne hne, hqt]

/-- **The first loop** after the intervals before `n`: the rank has numbered its own intervals,
noted for each neighbour the offsets it sends, and counted those it will receive. -/
lemma gather_spec {r : ℕ} (hr : r < sys.ranks)
    (hsize : ∀ off g, getsize (sys.view off g) = size g) :
    ∀ n ≤ sys.count,
      let st := (((List.range n).filter fun g => r ∈ sys.iranks g).map fun g =>
        sys.view (sys.nodeOffset r g) g).foldl (gather (sys.mesh r) getsize)
          ⟨0, fun _ => [], fun _ => []⟩
      st.offset = sys.owned size r n ∧
      ∀ q ∈ sys.neighbours r,
        st.sGlobalOffset (n2i (sys.neighbours r) q)
          = ((List.range n).filter fun g => sys.owner g = r ∧ q ∈ sys.iranks g).map
              (sys.owned size r) ∧
        st.rGlobalOffset (n2i (sys.neighbours r) q)
          = List.replicate
              ((List.range n).filter fun g => r ∈ sys.iranks g ∧ sys.owner g = q).length 0 := by
  intro n
  induction n with
  | zero => intro _; simp [System.owned]
  | succ n ih =>
      intro hn st
      obtain ⟨hoff, hbuf⟩ := ih (by omega)
      have hst : st = (((List.range (n + 1)).filter fun g => r ∈ sys.iranks g).map fun g =>
        sys.view (sys.nodeOffset r g) g).foldl (gather (sys.mesh r) getsize)
          ⟨0, fun _ => [], fun _ => []⟩ := rfl
      rw [List.range_succ, List.filter_append, List.map_append, List.foldl_append] at hst
      set st₀ := (((List.range n).filter fun g => r ∈ sys.iranks g).map fun g =>
        sys.view (sys.nodeOffset r g) g).foldl (gather (sys.mesh r) getsize)
          ⟨0, fun _ => [], fun _ => []⟩
      rw [System.owned_succ]
      by_cases hmem : r ∈ sys.iranks n
      swap
      · -- the interval is not on this rank
        have hne : sys.owner n ≠ r := fun h => hmem (h ▸ System.owner_mem n)
        rw [List.filter_cons_of_neg (by simpa using hmem)] at hst
        simp only [List.filter_nil, List.map_nil, List.foldl_nil] at hst
        rw [hst]
        refine ⟨by simp [hoff, hne], fun q hq => ?_⟩
        obtain ⟨hs, hrecv⟩ := hbuf q hq
        simp [List.range_succ, List.filter_append, hs, hrecv, hne, hmem]
      rw [List.filter_cons_of_pos (by simpa using hmem)] at hst
      simp only [List.filter_nil, List.map_cons, List.map_nil, List.foldl_cons, List.foldl_nil]
        at hst
      by_cases hown : sys.owner n = r
      · -- the rank numbers the interval and notes its offset for the other ranks
        rw [gather, if_pos ((holds_front hr (by omega)).mpr hown)] at hst
        obtain ⟨hnodup, htargets⟩ := targets_spec (sys.nodeOffset r n) (by omega) hown
        rw [hst]
        refine ⟨by simp [hoff, hown, hsize], fun q hq => ?_⟩
        obtain ⟨hs, hrecv⟩ := hbuf q hq
        have hqr : q ≠ r := fun h => sys.neighbours_irrefl r (h ▸ hq)
        have hpush := foldl_pushBack (sys.neighbours_sorted r) st₀.offset hq _ st₀.sGlobalOffset
          hnodup fun t ht => by
            have := (htargets t).mp ht
            exact System.neighbours_mem (by omega) hmem this.1 this.2.symm
        refine ⟨hpush.trans ?_, ?_⟩
        · rw [List.range_succ, List.filter_append, List.map_append, hs, hoff]
          by_cases hqn : q ∈ sys.iranks n
          · rw [if_pos ((htargets q).mpr ⟨hqn, hqr⟩)]
            simp [hown, hqn]
          · rw [if_neg fun h => hqn ((htargets q).mp h).1]
            simp [hqn]
        · simp [List.range_succ, List.filter_append, hrecv, hown, hqr.symm]
      · -- the rank will receive the offset from the owner
        have hnb : sys.owner n ∈ sys.neighbours r :=
          System.neighbours_mem (by omega) hmem (System.owner_mem n) (Ne.symm hown)
        rw [gather, if_neg fun h => hown ((holds_front hr (by omega)).mp h), front_view] at hst
        rw [hst]
        refine ⟨by simp [hoff, hown], fun q hq => ?_⟩
        obtain ⟨hs, hrecv⟩ := hbuf q hq
        refine ⟨by simp [List.range_succ, List.filter_append, hs, hown], ?_⟩
        change pushBack st₀.rGlobalOffset (n2i (sys.neighbours r) (sys.owner n)) 0 _ = _
        by_cases hqo : q = sys.owner n
        · subst hqo
          simp [pushBack, List.range_succ, List.filter_append, hrecv, hmem, List.replicate_succ']
        · have hne : n2i (sys.neighbours r) q ≠ n2i (sys.neighbours r) (sys.owner n) :=
            fun h => hqo (lowerBound_inj (sys.neighbours_sorted r) hq hnb h)
          simp [pushBack, update_of_ne hne, List.range_succ, List.filter_append, hrecv,
            Ne.symm hqo]

lemma gathered_spec {r : ℕ} (hr : r < sys.ranks)
    (hsize : ∀ off g, getsize (sys.view off g) = size g) :
    (gathered (sys.mesh r) getsize).offset = sys.owned size r sys.count ∧
      ∀ q ∈ sys.neighbours r,
        (gathered (sys.mesh r) getsize).sGlobalOffset (n2i (sys.neighbours r) q)
          = ((List.range sys.count).filter fun g => sys.owner g = r ∧ q ∈ sys.iranks g).map
              (sys.owned size r) ∧
        (gathered (sys.mesh r) getsize).rGlobalOffset (n2i (sys.neighbours r) q)
          = List.replicate
              ((List.range sys.count).filter fun g => r ∈ sys.iranks g ∧ sys.owner g = q).length 0 := by
  rw [gathered, System.pintervals_eq]
  exact gather_spec hr hsize sys.count (le_refl _)

lemma getD_neighbours {nb : List ℕ} (hnb : nb.Pairwise (· < ·)) {n : ℕ} (hn : n < nb.length) :
    nb.getD n 0 ∈ nb ∧ n2i nb (nb.getD n 0) = n := by
  have hget : nb[n]? = some (nb.getD n 0) := by
    rw [List.getD_eq_getElem?_getD, List.getElem?_eq_getElem hn, Option.getD_some]
  exact ⟨List.mem_of_getElem? hget, lowerBound_getElem? hnb hget⟩

/-- **The exchange.**  When the messages of the lower neighbours have the sizes the buffers were
prepared for, the buffers hold exactly these messages afterwards. -/
lemma receiveLowerKnownSize_spec (neighbours : ℕ → List ℕ) (sBuffer rBuffer : ℕ → ℕ → List ℕ)
    (rank : ℕ) (hnb : (neighbours rank).Pairwise (· < ·))
    (hfit : sizesFit (neighbours rank) rank (sBuffer rank) (rBuffer rank))
    (hlen : ∀ q ∈ neighbours rank, q < rank → (sBuffer q (n2i (neighbours q) rank)).length
      = (rBuffer rank (n2i (neighbours rank) q)).length) :
    ∃ out, receiveLowerKnownSize neighbours sBuffer rBuffer rank = some out ∧
      ∀ q ∈ neighbours rank, q < rank →
        out (n2i (neighbours rank) q) = sBuffer q (n2i (neighbours q) rank) := by
  have hcheck : ∀ n < (neighbours rank).length, (neighbours rank).getD n 0 < rank →
      (sBuffer ((neighbours rank).getD n 0)
        (n2i (neighbours ((neighbours rank).getD n 0)) rank)).length ≤ (rBuffer rank n).length := by
    intro n hn hlt
    obtain ⟨hmem, hidx⟩ := getD_neighbours hnb hn
    have h := hlen _ hmem hlt
    rw [hidx] at h
    exact le_of_eq h
  refine ⟨_, if_pos ⟨hfit, hcheck⟩, fun q hq hlt => ?_⟩
  have hget := (lowerBound_mem hnb).mpr hq
  have hgetD : (neighbours rank).getD (n2i (neighbours rank) q) 0 = q := by
    rw [n2i, List.getD_eq_getElem?_getD, hget, Option.getD_some]
  have hin : n2i (neighbours rank) q < (neighbours rank).length :=
    (List.getElem?_eq_some_iff.mp hget).1
  rw [if_pos ⟨hin, by rw [hgetD]; exact hlt⟩]
  simp only [hgetD]
  rw [hlen q hq hlt, List.drop_length, List.append_nil]

lemma length_filter_le (P : ℕ → Prop) [DecidablePred P] :
    ((List.range sys.count).filter P).length ≤ limit := by
  refine (List.length_filter_le _ _).trans ?_
  rw [List.length_range]
  exact sys.count_le

lemma exscan_eq {r : ℕ} (hr : r ≤ sys.ranks)
    (hsize : ∀ off g, getsize (sys.view off g) = size g) :
    exscan (fun r => (gathered (sys.mesh r) getsize).offset) r
      = start (fun r => sys.owned size r sys.count) r := by
  unfold exscan start
  refine Finset.sum_congr rfl fun j hj => ?_
  exact (gathered_spec (by have := Finset.mem_range.mp hj; omega) hsize).1

lemma receive_spec {r : ℕ} (hr : r < sys.ranks)
    (hsize : ∀ off g, getsize (sys.view off g) = size g) :
    ∃ rGlobalOffset, receiveLowerKnownSize (fun r => (sys.mesh r).neighbours)
        (fun r n => ((gathered (sys.mesh r) getsize).sGlobalOffset n).map
          (· + exscan (fun r => (gathered (sys.mesh r) getsize).offset) r))
        (fun r => (gathered (sys.mesh r) getsize).rGlobalOffset) r = some rGlobalOffset ∧
      ∀ q ∈ sys.neighbours r, q < r → rGlobalOffset (n2i (sys.neighbours r) q)
        = ((List.range sys.count).filter fun g => r ∈ sys.iranks g ∧ sys.owner g = q).map
            (sys.offset size) := by
  -- the message of a lower neighbour
  have hmessage : ∀ q ∈ sys.neighbours r,
      ((gathered (sys.mesh q) getsize).sGlobalOffset (n2i (sys.neighbours q) r)).map
        (· + exscan (fun r => (gathered (sys.mesh r) getsize).offset) q)
      = ((List.range sys.count).filter fun g => r ∈ sys.iranks g ∧ sys.owner g = q).map
          (sys.offset size) := by
    intro q hq
    have hqr := sys.neighbours_lt r q hq
    have hfilter : ((List.range sys.count).filter fun g => sys.owner g = q ∧ r ∈ sys.iranks g)
        = (List.range sys.count).filter fun g => r ∈ sys.iranks g ∧ sys.owner g = q := by
      refine List.filter_congr fun g _ => ?_
      rw [decide_eq_decide]
      exact and_comm
    rw [((gathered_spec hqr hsize).2 r (sys.neighbours_symm r q hq)).1,
      exscan_eq (le_of_lt hqr) hsize, List.map_map, hfilter]
    refine List.map_congr_left fun g hg => ?_
    have howner : sys.owner g = q := by
      have := (List.mem_filter.mp hg).2
      simp only [decide_eq_true_eq] at this
      exact this.2
    rw [System.offset, howner]
    exact Nat.add_comm _ _
  obtain ⟨out, hout, hlist⟩ := receiveLowerKnownSize_spec
    (fun r => (sys.mesh r).neighbours)
    (fun r n => ((gathered (sys.mesh r) getsize).sGlobalOffset n).map
      (· + exscan (fun r => (gathered (sys.mesh r) getsize).offset) r))
    (fun r => (gathered (sys.mesh r) getsize).rGlobalOffset) r (sys.neighbours_sorted r) (by
      intro n hn
      obtain ⟨hmem, hidx⟩ := getD_neighbours (sys.neighbours_sorted r) hn
      obtain ⟨hs, hrecv⟩ := (gathered_spec hr hsize).2 _ hmem
      rw [hidx] at hs hrecv
      split
      · simp only [hs, List.length_map]
        exact length_filter_le _
      · rw [hrecv, List.length_replicate]
        exact length_filter_le _) (by
      intro q hq _
      obtain ⟨-, hrecv⟩ := (gathered_spec hr hsize).2 q hq
      refine (congrArg List.length (hmessage q hq)).trans ?_
      rw [List.length_map]
      exact ((congrArg List.length hrecv).trans List.length_replicate).symm)
  exact ⟨out, hout, fun q hq hlt => (hlist q hq hlt).trans (hmessage q hq)⟩

lemma assign_spec {r : ℕ} (hr : r < sys.ranks)
    (hsize : ∀ off g, getsize (sys.view off g) = size g) {rGlobalOffset : ℕ → List ℕ}
    (hrecv : ∀ q ∈ sys.neighbours r, q < r → rGlobalOffset (n2i (sys.neighbours r) q)
      = ((List.range sys.count).filter fun g => r ∈ sys.iranks g ∧ sys.owner g = q).map
          (sys.offset size)) :
    ∀ (k s : ℕ) (rDataOffset : ℕ → ℕ), s + k = sys.count →
      (∀ q ∈ sys.neighbours r, rDataOffset (n2i (sys.neighbours r) q)
        = ((List.range s).filter fun g => r ∈ sys.iranks g ∧ sys.owner g = q).length) →
      assign (sys.mesh r) getsize rGlobalOffset
          (((List.range' s k).filter fun g => r ∈ sys.iranks g).map fun g =>
            sys.view (sys.nodeOffset r g) g)
          (start (fun r => sys.owned size r sys.count) r + sys.owned size r s) rDataOffset
        = some (((List.range' s k).filter fun g => r ∈ sys.iranks g).map (sys.offset size),
            start (fun r => sys.owned size r sys.count) r + sys.owned size r sys.count) := by
  intro k
  induction k with
  | zero =>
      intro s rDataOffset hs _
      obtain rfl : s = sys.count := by omega
      rfl
  | succ k ih =>
      intro s rDataOffset hs hcount
      have hcons : ∀ q, ((List.range (s + 1)).filter fun g => r ∈ sys.iranks g ∧ sys.owner g = q)
          = ((List.range s).filter fun g => r ∈ sys.iranks g ∧ sys.owner g = q)
            ++ if r ∈ sys.iranks s ∧ sys.owner s = q then [s] else [] := by
        intro q
        rw [List.range_succ, List.filter_append]
        by_cases h : r ∈ sys.iranks s ∧ sys.owner s = q <;> simp [h]
      rw [List.range'_succ]
      by_cases hmem : r ∈ sys.iranks s
      swap
      · have hne : sys.owner s ≠ r := fun h => hmem (h ▸ System.owner_mem s)
        rw [List.filter_cons_of_neg (by simpa using hmem)]
        have hnext := ih (s + 1) rDataOffset (by omega) fun q hq => by
          rw [hcons, hcount q hq]
          simp [hmem]
        rwa [System.owned_succ, if_neg hne, Nat.add_zero] at hnext
      rw [List.filter_cons_of_pos (by simpa using hmem), List.map_cons, List.map_cons, assign]
      by_cases hown : sys.owner s = r
      · have hnext := ih (s + 1) rDataOffset (by omega) fun q hq => by
          have hqr : q ≠ r := fun h => sys.neighbours_irrefl r (h ▸ hq)
          rw [hcons, hcount q hq]
          simp [hown, hqr.symm]
        rw [System.owned_succ, if_pos hown, ← Nat.add_assoc] at hnext
        rw [if_pos ((holds_front hr (by omega)).mpr hown), hsize, hnext]
        simp [System.offset, hown]
      · have hnb : sys.owner s ∈ sys.neighbours r :=
          System.neighbours_mem (by omega) hmem (System.owner_mem s) (Ne.symm hown)
        have hlt : sys.owner s < r :=
          lt_of_le_of_ne (System.owner_le (by omega) hmem) hown
        rw [if_neg fun h => hown ((holds_front hr (by omega)).mp h), front_view]
        change ((rGlobalOffset (n2i (sys.neighbours r) (sys.owner s)))[rDataOffset
          (n2i (sys.neighbours r) (sys.owner s))]?).bind _ = _
        have hget : (rGlobalOffset (n2i (sys.neighbours r) (sys.owner s)))[rDataOffset
            (n2i (sys.neighbours r) (sys.owner s))]? = some (sys.offset size s) := by
          rw [hrecv _ hnb hlt, hcount _ hnb, List.getElem?_map,
            filter_range_getElem? _ (by omega : s < sys.count) ⟨hmem, rfl⟩, Option.map_some]
        have hnext := ih (s + 1) (update rDataOffset (n2i (sys.neighbours r) (sys.owner s))
            (rDataOffset (n2i (sys.neighbours r) (sys.owner s)) + 1)) (by omega) fun q hq => by
          rw [hcons]
          by_cases hqo : sys.owner s = q
          · subst hqo
            simp [hcount _ hnb, hmem]
          · have hne : n2i (sys.neighbours r) q ≠ n2i (sys.neighbours r) (sys.owner s) :=
              fun h => hqo (lowerBound_inj (sys.neighbours_sorted r) hq hnb h).symm
            simp [update_of_ne hne, hcount q hq, hqo]
        rw [System.owned_succ, if_neg hown, add_zero] at hnext
        rw [hget, Option.bind_some]
        change Option.map _ (assign (sys.mesh r) getsize rGlobalOffset _ _
          (update rDataOffset (n2i (sys.neighbours r) (sys.owner s))
            (rDataOffset (n2i (sys.neighbours r) (sys.owner s)) + 1))) = _
        rw [hnext, Option.map_some]

lemma localOffsets_eq {r : ℕ} (hr : r < sys.ranks)
    (hsize : ∀ off g, getsize (sys.view off g) = size g) :
    localOffsets sys.mesh getsize r = some ((sys.ids r).map (sys.offset size),
      start (fun r => sys.owned size r sys.count) r + sys.owned size r sys.count) := by
  obtain ⟨rGlobalOffset, hrecv, hlist⟩ := receive_spec hr hsize
  have hassign := assign_spec hr hsize hlist sys.count 0 (fun _ => 0) (by omega) (by simp)
  rw [← List.range_eq_range', show sys.owned size r 0 = 0 by simp [System.owned],
    Nat.add_zero] at hassign
  rw [localOffsets]
  simp only [hrecv, Option.bind_some, System.pintervals_eq, exscan_eq (le_of_lt hr) hsize]
  exact hassign

/-- **All ranks agree on the offsets.**  Whatever the sizes are, every rank finds for each of its
intervals the offset in one common numbering, and the same total. -/
theorem computeIntervalsOffsets_eq {r : ℕ} (hr : r < sys.ranks)
    (hsize : ∀ off g, getsize (sys.view off g) = size g) :
    computeIntervalsOffsets sys.mesh sys.ranks getsize r
      = some ((sys.ids r).map (sys.offset size), start size sys.count) := by
  have hlast : sys.ranks - 1 < sys.ranks := by omega
  have htotal : start (fun r => sys.owned size r sys.count) (sys.ranks - 1)
      + sys.owned size (sys.ranks - 1) sys.count = start size sys.count := by
    rw [← start_succ (fun r => sys.owned size r sys.count), Nat.sub_add_cancel (by omega),
      System.start_owned _ (le_refl _)]
  rw [computeIntervalsOffsets, localOffsets_eq hr hsize, localOffsets_eq hlast hsize,
    Option.bind_some, Option.map_some, htotal]

end Spec

end Espreso
