import Espreso.Basis.Communication
import Espreso.Lib.Probing
import Espreso.Lib.Reorder

/-!
# Messages to various targets

A rank sends buffers to targets of its choice. It does not know who will send to it, but how many
messages there are, and takes them in the order of their arrival. Afterwards they are sorted by
their sources.

* `sendVariousTargets` — `Communication::sendVariousTargets`, with what a rank does next.
* **`sendVariousTargets_leads`** — all runs pass the state in which each rank has the buffers of its
  sources, and no message is in flight.
-/

namespace Espreso

open Function Reorder Probing

namespace VariousTargets

variable {T R : Type} {size : ℕ}

/-- A rank of a group. It reduces the numbers of messages to all ranks. -/
abbrev Rank (size : ℕ) (T R : Type) := Proc (Fin size) (List T) (Fin size → ℕ) R

/-- `MPI_Allreduce` with `MPI_SUM` -/
def allreduce (counters : Fin size → Fin size → ℕ) : Fin size → ℕ := fun r => ∑ i, counters i r

def smsgcounter (targets : List (Fin size)) : Fin size → ℕ :=
  targets.foldl (fun counter target => update counter target 1) fun _ => 0

/-- `MPI_Isend` to all targets. -/
def isend (k : Rank size T R) : List (Fin size × List T) → Rank size T R
  | [] => k
  | (target, buffer) :: messages => .send target buffer (isend k messages)

/-- `MPI_Iprobe` and `MPI_Recv`, until `counter` reaches the number of messages. -/
def probe (k : List (Fin size) → List (List T) → Rank size T R) :
    ℕ → List (Fin size) → List (List T) → Rank size T R
  | 0, sources, tmpBuffer => k sources tmpBuffer
  | n + 1, sources, tmpBuffer =>
    .probe fun source buffer => probe k n (sources ++ [source]) (tmpBuffer ++ [buffer])

/-- `permutation`, sorted by the sources. -/
def permutation (sorting : Sorting ℕ) (sources : List (Fin size)) : List ℕ :=
  sorting.sort (fun i => (sources.map Fin.val).getD i 0) sources.length

/-- `rBuffer[i].swap(tmpBuffer[permutation[i]])` -/
def swap (permutation : List ℕ) (buffers : List (List T) × List (List T)) (i : ℕ) :
    List (List T) × List (List T) :=
  let p := permutation.getD i 0
  (buffers.1.set i (buffers.2.getD p []), buffers.2.set p (buffers.1.getD i []))

/-- `rBuffer` after all swaps. -/
def reorder (permutation : List ℕ) (rBuffer tmpBuffer : List (List T)) : List (List T) :=
  let resized := rBuffer.take tmpBuffer.length ++
    List.replicate (tmpBuffer.length - rBuffer.length) []
  ((List.range permutation.length).foldl (swap permutation) (resized, tmpBuffer)).1

/-- **`Communication::sendVariousTargets`** on a rank, which continues with what is returned, with
`rBuffer` and with `sources`. `MPI_Waitall` is left to the barrier behind it, in front of which all
messages are received. -/
def sendVariousTargets (sorting : Sorting ℕ) (multiplier : ℕ) (rank : Fin size)
    (sBuffer rBuffer : List (List T)) (targets sources : List (Fin size))
    (k : Bool → List (List T) → List (Fin size) → Rank size T R) : Rank size T R :=
  if ∃ n < targets.length, limit < multiplier * (sBuffer.getD n []).length then
    k false rBuffer sources
  else .reduce (smsgcounter targets) fun rmsgcounter =>
    isend (probe (fun sources tmpBuffer =>
      .barrier (k true (reorder (permutation sorting sources) rBuffer tmpBuffer)
        (sources.mergeSort))) (rmsgcounter rank) [] []) (targets.zip sBuffer)

/-! ## Sources and their buffers -/

/-- **The messages of the ranks**: each rank has different targets, and a buffer for each of them
which is not too large. -/
structure Messages (size : ℕ) (T : Type) (multiplier : ℕ) where
  targets : Fin size → List (Fin size)
  sBuffer : Fin size → List (List T)
  nodup : ∀ r, (targets r).Nodup
  length_le : ∀ r, (targets r).length ≤ (sBuffer r).length
  fits : ∀ r, ∀ n < (targets r).length, multiplier * ((sBuffer r).getD n []).length ≤ limit

namespace Messages

variable {multiplier : ℕ} (M : Messages size T multiplier)

/-- The ascending ranks that have listed `r` as a target. -/
def sourcesOf (r : Fin size) : List (Fin size) :=
  (List.finRange size).filter fun source => r ∈ M.targets source

/-- The buffer that `source` has addressed to `r`. -/
def addressed (source r : Fin size) : List T :=
  (M.sBuffer source).getD ((M.targets source).idxOf r) []

/-- The buffers that are addressed to `r`, in the order of their sources. -/
def received (r : Fin size) : List (List T) := (M.sourcesOf r).map (M.addressed · r)

lemma mem_sourcesOf {source r : Fin size} : source ∈ M.sourcesOf r ↔ r ∈ M.targets source := by
  simp [sourcesOf]

lemma sourcesOf_sorted (r : Fin size) : (M.sourcesOf r).Pairwise (· < ·) :=
  (List.pairwise_lt_finRange size).filter _

lemma sourcesOf_nodup (r : Fin size) : (M.sourcesOf r).Nodup :=
  (M.sourcesOf_sorted r).imp LT.lt.ne

end Messages

/-! ## The number of messages -/

lemma smsgcounter_apply (targets : List (Fin size)) (r : Fin size) :
    smsgcounter targets r = if r ∈ targets then 1 else 0 := by
  have hfold : ∀ counter : Fin size → ℕ,
      targets.foldl (fun counter target => update counter target 1) counter r
        = if r ∈ targets then 1 else counter r := by
    induction targets with
    | nil => exact fun counter => rfl
    | cons target targets ih =>
        intro counter
        rw [List.foldl_cons, ih]
        by_cases heq : r = target
        · rw [heq, update_self]
          simp
        · rw [update_of_ne heq]
          simp [heq]
  exact hfold _

lemma allreduce_smsgcounter {multiplier : ℕ} (M : Messages size T multiplier) (r : Fin size) :
    allreduce (fun i => smsgcounter (M.targets i)) r = (M.sourcesOf r).length := by
  rw [allreduce, Messages.sourcesOf, ← List.countP_eq_length_filter]
  simp only [smsgcounter_apply]
  rw [Fin.sum_univ_def]
  induction List.finRange size with
  | nil => rfl
  | cons i ranks ih =>
      rw [List.map_cons, List.sum_cons, ih, List.countP_cons, Nat.add_comm]
      simp only [decide_eq_true_eq]

/-! ## Buffers in the order of the sources -/

lemma foldl_swap {permutation : List ℕ} {n : ℕ} (hperm : permutation.Perm (List.range n))
    {resized tmpBuffer : List (List T)} (hresized : resized.length = n)
    (htmp : tmpBuffer.length = n) {i : ℕ} (hi : i ≤ n) :
    let buffers := (List.range i).foldl (swap permutation) (resized, tmpBuffer)
    buffers.1.length = n ∧ buffers.2.length = n ∧
      (∀ j p : ℕ, j < i → permutation[j]? = some p → buffers.1[j]? = tmpBuffer[p]?) ∧
      ∀ p, p ∉ permutation.take i → buffers.2[p]? = tmpBuffer[p]? := by
  have hnodup : permutation.Nodup := hperm.nodup_iff.mpr List.nodup_range
  have hlength : permutation.length = n := by rw [hperm.length_eq, List.length_range]
  induction i with
  | zero => exact ⟨hresized, htmp, fun j p hj => absurd hj (Nat.not_lt_zero j), fun p _ => rfl⟩
  | succ i ih =>
      obtain ⟨hfirst, hsecond, hdone, hrest⟩ := ih (Nat.le_of_succ_le hi)
      rw [List.range_succ, List.foldl_append, List.foldl_cons, List.foldl_nil]
      set buffers := (List.range i).foldl (swap permutation) (resized, tmpBuffer) with hbuffers
      have hlt : i < permutation.length := hlength ▸ hi
      have hget : permutation.getD i 0 = permutation[i] := by
        rw [List.getD_eq_getElem?_getD, List.getElem?_eq_getElem hlt, Option.getD_some]
      have hp : permutation[i] < n :=
        List.mem_range.mp (hperm.mem_iff.mp (List.getElem_mem hlt))
      have hnew : permutation[i] ∉ permutation.take i := by
        intro hmem
        obtain ⟨j, hj, heq⟩ := List.mem_take_iff_getElem.mp hmem
        have := (hnodup.getElem_inj_iff).mp heq
        omega
      rw [swap, hget]
      refine ⟨by rw [List.length_set, hfirst], by rw [List.length_set, hsecond], ?_, ?_⟩
      · intro j p hj hjp
        dsimp only
        rcases Nat.lt_succ_iff_lt_or_eq.mp hj with hlt' | rfl
        · rw [List.getElem?_set_ne hlt'.ne', hdone j p hlt' hjp]
        · rw [List.getElem?_eq_getElem hlt, Option.some.injEq] at hjp
          subst hjp
          rw [List.getElem?_set_self (hfirst ▸ hi), ← hrest _ hnew, List.getD_eq_getElem?_getD,
            List.getElem?_eq_getElem (hsecond ▸ hp), Option.getD_some]
      · intro p hnot
        dsimp only
        rw [List.take_succ_eq_append_getElem hlt, List.mem_append, List.mem_singleton,
          not_or] at hnot
        rw [List.getElem?_set_ne (Ne.symm hnot.2), hrest p hnot.1]

lemma reorder_eq {permutation : List ℕ} {tmpBuffer : List (List T)} (rBuffer : List (List T))
    (hperm : permutation.Perm (List.range tmpBuffer.length)) :
    reorder permutation rBuffer tmpBuffer = gather permutation tmpBuffer := by
  have hlength : permutation.length = tmpBuffer.length := by
    rw [hperm.length_eq, List.length_range]
  have hresized : (rBuffer.take tmpBuffer.length ++
      List.replicate (tmpBuffer.length - rBuffer.length) []).length = tmpBuffer.length := by
    rw [List.length_append, List.length_take, List.length_replicate]
    omega
  obtain ⟨hfirst, -, hdone, -⟩ := foldl_swap hperm hresized rfl le_rfl
  have hwithin : Within permutation tmpBuffer.length := Within.of_perm hperm
  rw [reorder, hlength]
  refine List.ext_getElem? fun j => ?_
  rw [getElem?_gather hwithin]
  rcases Nat.lt_or_ge j tmpBuffer.length with hj | hj
  · have hget : permutation[j]? = some permutation[j] :=
      List.getElem?_eq_getElem (hlength.symm ▸ hj)
    rw [hdone j _ hj hget, hget, Option.bind_some]
  · rw [List.getElem?_eq_none (hfirst.symm ▸ hj), List.getElem?_eq_none (hlength.symm ▸ hj),
      Option.bind_none]

lemma reorder_sources (sorting : Sorting ℕ) {sources : List (Fin size)} (rBuffer : List (List T))
    (buffer : Fin size → List T) :
    reorder (permutation sorting sources) rBuffer (sources.map buffer)
      = sources.mergeSort.map buffer := by
  have hperm : (permutation sorting sources).Perm (List.range sources.length) :=
    sorting.perm _ _
  rw [reorder_eq rBuffer (by rwa [List.length_map]), gather_map]
  refine congrArg (List.map buffer) ?_
  have hsorted : (gather (permutation sorting sources) sources).Pairwise (· ≤ ·) := by
    rw [gather, List.pairwise_filterMap]
    refine (sorting.sorted _ _).imp fun {a b} hab x hx y hy => ?_
    rw [List.getD_eq_getElem?_getD, List.getD_eq_getElem?_getD, List.getElem?_map,
      List.getElem?_map, hx, hy] at hab
    exact hab
  exact ((gather_perm hperm).trans (List.mergeSort_perm _ _).symm).eq_of_pairwise' hsorted
    (List.pairwise_mergeSort' (· ≤ ·) sources)

/-! ## The state of a rank -/

section Exchange

variable {multiplier : ℕ} (M : Messages size T multiplier) (sorting : Sorting ℕ)
  (rBuffer : Fin size → List (List T))
  (k : Fin size → Bool → List (List T) → List (Fin size) → Rank size T R)

def finish (r : Fin size) (sources : List (Fin size)) (tmpBuffer : List (List T)) :
    Rank size T R :=
  .barrier (k r true (reorder (permutation sorting sources) (rBuffer r) tmpBuffer)
    sources.mergeSort)

/-- A rank that has sent some messages, and has received those of some sources. -/
def rankAt (r : Fin size) (sent : ℕ) (sources : List (Fin size)) : Rank size T R :=
  isend (probe (finish sorting rBuffer k r) ((M.sourcesOf r).length - sources.length) sources
    (sources.map (M.addressed · r))) (((M.targets r).zip (M.sBuffer r)).drop sent)

lemma Messages.length_zip (r : Fin size) :
    ((M.targets r).zip (M.sBuffer r)).length = (M.targets r).length := by
  rw [List.length_zip, Nat.min_eq_left (M.length_le r)]

lemma Messages.drop_zip {r : Fin size} {sent : ℕ} (h : sent < (M.targets r).length) :
    ((M.targets r).zip (M.sBuffer r)).drop sent
      = ((M.targets r)[sent], M.addressed r (M.targets r)[sent])
        :: ((M.targets r).zip (M.sBuffer r)).drop (sent + 1) := by
  have hzip : sent < ((M.targets r).zip (M.sBuffer r)).length := by rwa [M.length_zip]
  have hbuffer : sent < (M.sBuffer r).length := h.trans_le (M.length_le r)
  rw [List.drop_eq_getElem_cons hzip, List.getElem_zip, Messages.addressed,
    (M.nodup r).idxOf_getElem, List.getD_eq_getElem?_getD, List.getElem?_eq_getElem hbuffer,
    Option.getD_some]

variable {M sorting rBuffer k} {r : Fin size} {sent : ℕ} {sources : List (Fin size)}

lemma rankAt_of_lt (h : sent < (M.targets r).length) : rankAt M sorting rBuffer k r sent sources
    = .send (M.targets r)[sent] (M.addressed r (M.targets r)[sent])
      (rankAt M sorting rBuffer k r (sent + 1) sources) := by
  rw [rankAt, M.drop_zip h, isend, rankAt]

lemma rankAt_of_lt_sources (h : (M.targets r).length ≤ sent)
    (hless : sources.length < (M.sourcesOf r).length) : ∃ next,
      rankAt M sorting rBuffer k r sent sources = .probe next ∧ ∀ source,
        next source (M.addressed source r)
          = rankAt M sorting rBuffer k r sent (sources ++ [source]) := by
  obtain ⟨n, hn⟩ := Nat.exists_eq_add_of_lt hless
  have hdrop : ((M.targets r).zip (M.sBuffer r)).drop sent = [] := by
    rw [List.drop_eq_nil_iff, M.length_zip]
    exact h
  rw [rankAt, hdrop, isend, show (M.sourcesOf r).length - sources.length = n + 1 by omega, probe]
  refine ⟨_, rfl, fun source => ?_⟩
  rw [rankAt, hdrop, isend, List.length_append, List.length_singleton, List.map_append,
    List.map_singleton,
    show (M.sourcesOf r).length - (sources.length + 1) = n by omega]

lemma rankAt_of_le (h : (M.targets r).length ≤ sent)
    (hall : (M.sourcesOf r).length ≤ sources.length) : rankAt M sorting rBuffer k r sent sources
      = finish sorting rBuffer k r sources (sources.map (M.addressed · r)) := by
  have hdrop : ((M.targets r).zip (M.sBuffer r)).drop sent = [] := by
    rw [List.drop_eq_nil_iff, M.length_zip]
    exact h
  rw [rankAt, hdrop, isend, Nat.sub_eq_zero_of_le hall, probe]

/-! ## All ranks -/

/-- How far the ranks are: the numbers of messages that they have sent, and the sources of those
that they have received. -/
structure Progress (size : ℕ) where
  sent : Fin size → ℕ
  sources : Fin size → List (Fin size)

variable (M) in
def Progress.InFlight (g : Progress size) (source r : Fin size) : Prop :=
  r ∈ (M.targets source).take (g.sent source) ∧ source ∉ g.sources r

variable (M sorting rBuffer k) in
/-- **While messages are exchanged**, those that are sent and not yet received are in flight. -/
structure Exchanging (g : Progress size) (s : Net (Fin size) (List T) (Fin size → ℕ) R) :
    Prop where
  proc_eq : ∀ r, s.proc r = rankAt M sorting rBuffer k r (g.sent r) (g.sources r)
  nodup : ∀ r, (g.sources r).Nodup
  sent_of_mem : ∀ r, ∀ source ∈ g.sources r, r ∈ (M.targets source).take (g.sent source)
  chan_of_flight : ∀ source r, g.InFlight M source r → s.chan source r = [M.addressed source r]
  chan_of_not : ∀ source r, ¬g.InFlight M source r → s.chan source r = []

variable (M) in
/-- The messages that are not yet sent, and those that are not yet received. -/
def Progress.remaining (g : Progress size) : ℕ :=
  ∑ r, ((M.targets r).length - g.sent r) + ∑ r, ((M.sourcesOf r).length - (g.sources r).length)

lemma sum_lt_of_lt {f f' : Fin size → ℕ} (r : Fin size) (hlt : f' r < f r)
    (h : ∀ i, i ≠ r → f' i = f i) : ∑ i, f' i < ∑ i, f i := by
  refine Finset.sum_lt_sum (fun i _ => ?_) ⟨r, Finset.mem_univ r, hlt⟩
  rcases eq_or_ne i r with rfl | hne
  · exact hlt.le
  · exact (h i hne).le

section Steps

variable {g : Progress size} {s : Net (Fin size) (List T) (Fin size → ℕ) R}
  (h : Exchanging M sorting rBuffer k g s)

include h

lemma Exchanging.subset (r : Fin size) : g.sources r ⊆ M.sourcesOf r := fun source hmem =>
  M.mem_sourcesOf.mpr (List.mem_of_mem_take (h.sent_of_mem r source hmem))

lemma Exchanging.proc_update (g' : Progress size) (r : Fin size)
    (hsent : ∀ r' ≠ r, g'.sent r' = g.sent r') (hsources : ∀ r' ≠ r, g'.sources r' = g.sources r')
    (r' : Fin size) :
    update s.proc r (rankAt M sorting rBuffer k r (g'.sent r) (g'.sources r)) r'
      = rankAt M sorting rBuffer k r' (g'.sent r') (g'.sources r') := by
  rcases eq_or_ne r' r with rfl | hne
  · rw [update_self]
  · rw [update_of_ne hne, h.proc_eq, hsent r' hne, hsources r' hne]

lemma Exchanging.chan_set {g' : Progress size} {a b : Fin size} {buffers : List (List T)}
    (hother : ∀ source r, ¬(source = a ∧ r = b) →
      (g'.InFlight M source r ↔ g.InFlight M source r))
    (hflight : g'.InFlight M a b → buffers = [M.addressed a b])
    (hnot : ¬g'.InFlight M a b → buffers = []) :
    (∀ source r, g'.InFlight M source r →
      MsgPass.setChan s.chan a b buffers source r = [M.addressed source r]) ∧
    ∀ source r, ¬g'.InFlight M source r → MsgPass.setChan s.chan a b buffers source r = [] := by
  refine ⟨fun source r hin => ?_, fun source r hout => ?_⟩
  · by_cases hat : source = a ∧ r = b
    · obtain ⟨rfl, rfl⟩ := hat
      rw [MsgPass.setChan_self, hflight hin]
    · rw [MsgPass.setChan_other _ _ hat, h.chan_of_flight _ _ ((hother _ _ hat).mp hin)]
  · by_cases hat : source = a ∧ r = b
    · obtain ⟨rfl, rfl⟩ := hat
      rw [MsgPass.setChan_self, hnot hout]
    · rw [MsgPass.setChan_other _ _ hat, h.chan_of_not _ _ (mt (hother _ _ hat).mpr hout)]

lemma Exchanging.send {r : Fin size} (hlt : g.sent r < (M.targets r).length) :
    ∃ g', Exchanging M sorting rBuffer k g'
      ⟨update s.proc r (rankAt M sorting rBuffer k r (g.sent r + 1) (g.sources r)),
        MsgPass.setChan s.chan r (M.targets r)[g.sent r]
          (s.chan r (M.targets r)[g.sent r] ++ [M.addressed r (M.targets r)[g.sent r]])⟩ ∧
      g'.remaining M < g.remaining M := by
  set target := (M.targets r)[g.sent r] with htarget
  have htake : (M.targets r).take (g.sent r + 1) = (M.targets r).take (g.sent r) ++ [target] :=
    List.take_succ_eq_append_getElem hlt
  have hnew : target ∉ (M.targets r).take (g.sent r) := by
    intro hmem
    obtain ⟨j, hj, heq⟩ := List.mem_take_iff_getElem.mp hmem
    have := ((M.nodup r).getElem_inj_iff).mp heq
    omega
  set g' : Progress size := ⟨update g.sent r (g.sent r + 1), g.sources⟩ with hg'
  have hsent : g'.sent r = g.sent r + 1 := update_self _ _ _
  have hsent' : ∀ r' ≠ r, g'.sent r' = g.sent r' := fun r' hne => update_of_ne hne _ _
  have hother : ∀ source r', ¬(source = r ∧ r' = target) →
      (g'.InFlight M source r' ↔ g.InFlight M source r') := by
    intro source r' hne
    rw [Progress.InFlight, Progress.InFlight]
    rcases eq_or_ne source r with rfl | hsource
    · have htarget' : r' ≠ target := fun heq => hne ⟨rfl, heq⟩
      rw [hsent, htake]
      simp only [List.mem_append, List.mem_singleton, htarget', or_false, hg']
    · rw [hsent' source hsource]
  have hflight : g'.InFlight M r target := by
    refine ⟨?_, fun hmem => hnew (h.sent_of_mem _ r hmem)⟩
    rw [hsent, htake]
    exact List.mem_append_right _ List.mem_cons_self
  have hbuffers : s.chan r target ++ [M.addressed r target] = [M.addressed r target] := by
    rw [h.chan_of_not r target fun hold => hnew hold.1, List.nil_append]
  obtain ⟨hchan, hchan'⟩ := h.chan_set hother (fun _ => hbuffers) fun hnot => absurd hflight hnot
  have hproc := h.proc_update g' r hsent' fun r' _ => rfl
  rw [hsent] at hproc
  refine ⟨g', ⟨hproc, h.nodup, fun r' source hmem => ?_, hchan, hchan'⟩, ?_⟩
  · have hold := h.sent_of_mem r' source hmem
    rcases eq_or_ne source r with rfl | hne
    · rw [hsent, htake]
      exact List.mem_append_left _ hold
    · rwa [hsent' source hne]
  · refine Nat.add_lt_add_right (sum_lt_of_lt r ?_ fun i hne => ?_) _
    · rw [hsent]
      omega
    · rw [hsent' i hne]

lemma Exchanging.receive {r source : Fin size} {buffer : List T} {rest : List (List T)}
    (hchan : s.chan source r = buffer :: rest) :
    buffer = M.addressed source r ∧ (g.sources r).length < (M.sourcesOf r).length ∧
      ∃ g', Exchanging M sorting rBuffer k g'
        ⟨update s.proc r (rankAt M sorting rBuffer k r (g.sent r) (g.sources r ++ [source])),
          MsgPass.setChan s.chan source r rest⟩ ∧
        g'.remaining M < g.remaining M := by
  have hflight : g.InFlight M source r := by
    by_contra hnot
    rw [h.chan_of_not source r hnot] at hchan
    cases hchan
  rw [h.chan_of_flight source r hflight, List.cons.injEq] at hchan
  obtain ⟨hbuffer, hrest⟩ := hchan
  obtain ⟨hsent, hout⟩ := hflight
  have hnodup : (source :: g.sources r).Nodup := List.nodup_cons.mpr ⟨hout, h.nodup r⟩
  have hless : (g.sources r).length < (M.sourcesOf r).length := by
    have hsubset : source :: g.sources r ⊆ M.sourcesOf r := List.cons_subset.mpr
      ⟨M.mem_sourcesOf.mpr (List.mem_of_mem_take hsent), h.subset r⟩
    exact (List.subperm_of_subset hnodup hsubset).length_le
  set g' : Progress size := ⟨g.sent, update g.sources r (g.sources r ++ [source])⟩ with hg'
  have hsources : g'.sources r = g.sources r ++ [source] := update_self _ _ _
  have hsources' : ∀ r' ≠ r, g'.sources r' = g.sources r' := fun r' hne => update_of_ne hne _ _
  have hother : ∀ source' r', ¬(source' = source ∧ r' = r) →
      (g'.InFlight M source' r' ↔ g.InFlight M source' r') := by
    intro source' r' hne
    rw [Progress.InFlight, Progress.InFlight]
    rcases eq_or_ne r' r with rfl | hr
    · have hsource : source' ≠ source := fun heq => hne ⟨heq, rfl⟩
      rw [hsources]
      simp only [List.mem_append, List.mem_singleton, hsource, or_false, hg']
    · rw [hsources' r' hr]
  have hreceived : ¬g'.InFlight M source r := by
    rintro ⟨-, hnot⟩
    rw [hsources] at hnot
    exact hnot (List.mem_append_right _ List.mem_cons_self)
  obtain ⟨hchan, hchan'⟩ := h.chan_set hother (fun hin => absurd hin hreceived)
    fun _ => hrest.symm
  have hproc := h.proc_update g' r (fun r' _ => rfl) hsources'
  rw [hsources] at hproc
  refine ⟨hbuffer.symm, hless, g', ⟨hproc, fun r' => ?_, fun r' source' hmem => ?_, hchan, hchan'⟩,
    ?_⟩
  · rcases eq_or_ne r' r with rfl | hne
    · rw [hsources]
      exact (List.perm_append_singleton source _).nodup_iff.mpr hnodup
    · rw [hsources' r' hne]
      exact h.nodup r'
  · rcases eq_or_ne r' r with rfl | hne
    · rw [hsources, List.mem_append, List.mem_singleton] at hmem
      rcases hmem with hmem | rfl
      · exact h.sent_of_mem r' source' hmem
      · exact hsent
    · rw [hsources' r' hne] at hmem
      exact h.sent_of_mem r' source' hmem
  · refine Nat.add_lt_add_left (sum_lt_of_lt r ?_ fun i hne => ?_) _
    · rw [hsources, List.length_append, List.length_singleton]
      omega
    · rw [hsources' i hne]

lemma Exchanging.barrier (hsent : ∀ r, (M.targets r).length ≤ g.sent r)
    (hall : ∀ r, (M.sourcesOf r).length ≤ (g.sources r).length) :
    (∀ r, s.proc r = .barrier (k r true (M.received r) (M.sourcesOf r))) ∧
      ∀ source r, s.chan source r = [] := by
  have hperm : ∀ r, (g.sources r).Perm (M.sourcesOf r) := fun r =>
    (List.subperm_of_subset (h.nodup r) (h.subset r)).perm_of_length_le (hall r)
  refine ⟨fun r => ?_, fun source r => ?_⟩
  · have hsorted : (g.sources r).mergeSort = M.sourcesOf r :=
      ((List.mergeSort_perm _ _).trans (hperm r)).eq_of_pairwise'
        (List.pairwise_mergeSort' (· ≤ ·) _) ((M.sourcesOf_sorted r).imp LT.lt.le)
    rw [h.proc_eq, rankAt_of_le (hsent r) (hall r), finish, reorder_sources, hsorted,
      Messages.received]
  · refine h.chan_of_not source r ?_
    rintro ⟨hmem, hout⟩
    exact hout ((hperm r).mem_iff.mpr (M.mem_sourcesOf.mpr (List.mem_of_mem_take hmem)))

lemma Exchanging.proc_cases (r : Fin size) :
    (∃ hlt : g.sent r < (M.targets r).length,
      s.proc r = .send (M.targets r)[g.sent r] (M.addressed r (M.targets r)[g.sent r])
        (rankAt M sorting rBuffer k r (g.sent r + 1) (g.sources r))) ∨
    ((M.targets r).length ≤ g.sent r ∧ (g.sources r).length < (M.sourcesOf r).length ∧
      ∃ next, s.proc r = .probe next ∧ ∀ source, next source (M.addressed source r)
        = rankAt M sorting rBuffer k r (g.sent r) (g.sources r ++ [source])) ∨
    ((M.targets r).length ≤ g.sent r ∧ (M.sourcesOf r).length ≤ (g.sources r).length ∧
      ∃ next, s.proc r = .barrier next) := by
  rw [h.proc_eq]
  rcases Nat.lt_or_ge (g.sent r) (M.targets r).length with hlt | hge
  · exact Or.inl ⟨hlt, rankAt_of_lt hlt⟩
  · rcases Nat.lt_or_ge (g.sources r).length (M.sourcesOf r).length with hless | hall
    · exact Or.inr (Or.inl ⟨hge, hless, rankAt_of_lt_sources hge hless⟩)
    · exact Or.inr (Or.inr ⟨hge, hall, _, rankAt_of_le hge hall⟩)

lemma Exchanging.step (hsize : 0 < size) {t : Net (Fin size) (List T) (Fin size → ℕ) R}
    (hstep : Step allreduce s t) :
    (∃ g', Exchanging M sorting rBuffer k g' t ∧ g'.remaining M < g.remaining M) ∨
      t = ⟨fun r => k r true (M.received r) (M.sourcesOf r), fun _ _ => []⟩ := by
  cases hstep with
  | @send r target buffer next hproc =>
      left
      rcases h.proc_cases r with ⟨hlt, hsend⟩ | ⟨_, _, _, hprobe, _⟩ | ⟨_, _, _, hbarrier⟩
      · rw [hproc] at hsend
        obtain ⟨rfl, rfl, rfl⟩ := Proc.send.inj hsend
        exact h.send hlt
      · rw [hproc] at hprobe
        cases hprobe
      · rw [hproc] at hbarrier
        cases hbarrier
  | @probe r source buffer rest next hproc hchan =>
      left
      rcases h.proc_cases r with ⟨_, hsend⟩ | ⟨_, _, next', hprobe, hnext⟩ | ⟨_, _, _, hbarrier⟩
      · rw [hproc] at hsend
        cases hsend
      · obtain ⟨rfl, -, hreceive⟩ := h.receive hchan
        rw [hproc] at hprobe
        rw [Proc.probe.inj hprobe, hnext]
        exact hreceive
      · rw [hproc] at hbarrier
        cases hbarrier
  | @wait r _ _ _ _ _ hproc _ _ =>
      rcases h.proc_cases r with ⟨_, hsend⟩ | ⟨_, _, _, hprobe, _⟩ | ⟨_, _, _, hbarrier⟩
      · rw [hproc] at hsend
        cases hsend
      · rw [hproc] at hprobe
        cases hprobe
      · rw [hproc] at hbarrier
        cases hbarrier
  | reduce hproc =>
      have hfirst := hproc ⟨0, hsize⟩
      rcases h.proc_cases ⟨0, hsize⟩ with ⟨_, hsend⟩ | ⟨_, _, _, hprobe, _⟩ | ⟨_, _, _, hbarrier⟩
      · rw [hfirst] at hsend
        cases hsend
      · rw [hfirst] at hprobe
        cases hprobe
      · rw [hfirst] at hbarrier
        cases hbarrier
  | @barrier next hproc =>
      right
      have hdone : ∀ r, (M.targets r).length ≤ g.sent r ∧
          (M.sourcesOf r).length ≤ (g.sources r).length := by
        intro r
        rcases h.proc_cases r with ⟨_, hsend⟩ | ⟨_, _, _, hprobe, _⟩ | ⟨hsent, hall, -⟩
        · rw [hproc] at hsend
          cases hsend
        · rw [hproc] at hprobe
          cases hprobe
        · exact ⟨hsent, hall⟩
      obtain ⟨hbarrier, hchan⟩ := h.barrier (fun r => (hdone r).1) fun r => (hdone r).2
      have hnext : next = fun r => k r true (M.received r) (M.sourcesOf r) :=
        funext fun r => Proc.barrier.inj ((hproc r).symm.trans (hbarrier r))
      rw [hnext]
      exact congrArg (Net.mk _) (funext fun source => funext fun r => hchan source r)

lemma Exchanging.move : ∃ t, Step allreduce s t := by
  by_cases hsent : ∀ r, (M.targets r).length ≤ g.sent r
  · by_cases hall : ∀ r, (M.sourcesOf r).length ≤ (g.sources r).length
    · obtain ⟨hbarrier, -⟩ := h.barrier hsent hall
      exact ⟨_, .barrier hbarrier⟩
    · push Not at hall
      obtain ⟨r, hless⟩ := hall
      obtain ⟨source, hsource, hout⟩ : ∃ source ∈ M.sourcesOf r, source ∉ g.sources r := by
        by_contra hno
        push Not at hno
        have hle := (List.subperm_of_subset (M.sourcesOf_nodup r) hno).length_le
        omega
      have hchan : s.chan source r = [M.addressed source r] := by
        refine h.chan_of_flight source r ⟨?_, hout⟩
        rw [List.take_of_length_le (hsent source)]
        exact M.mem_sourcesOf.mp hsource
      obtain ⟨next, hnext, -⟩ := rankAt_of_lt_sources (hsent r) hless
      exact ⟨_, .probe ((h.proc_eq r).trans hnext) hchan⟩
  · push Not at hsent
    obtain ⟨r, hlt⟩ := hsent
    exact ⟨_, .send ((h.proc_eq r).trans (rankAt_of_lt hlt))⟩

end Steps

lemma exchanging_start : Exchanging M sorting rBuffer k ⟨fun _ => 0, fun _ => []⟩
    ⟨fun r => isend (probe (finish sorting rBuffer k r) (M.sourcesOf r).length [] [])
      ((M.targets r).zip (M.sBuffer r)), fun _ _ => []⟩ where
  proc_eq _ := rfl
  nodup _ := List.nodup_nil
  sent_of_mem _ _ hmem := absurd hmem List.not_mem_nil
  chan_of_flight source r hflight := by
    rw [Progress.InFlight, List.take_zero] at hflight
    exact absurd hflight.1 List.not_mem_nil
  chan_of_not _ _ _ := rfl

variable (M sorting rBuffer k) in
/-- **All runs deliver the messages.** Whatever the order in which they arrive, all ranks continue
with the ascending ranks that have listed them, and with what these have addressed to them. -/
theorem sendVariousTargets_leads (hsize : 0 < size) (sources : Fin size → List (Fin size)) :
    Leads allreduce
      ⟨fun r => sendVariousTargets sorting multiplier r (M.sBuffer r) (rBuffer r) (M.targets r)
        (sources r) (k r), fun _ _ => []⟩
      ⟨fun r => k r true (M.received r) (M.sourcesOf r), fun _ _ => []⟩ := by
  have hranks : Nonempty (Fin size) := ⟨⟨0, hsize⟩⟩
  have hfits : ∀ r, ¬∃ n < (M.targets r).length,
      limit < multiplier * ((M.sBuffer r).getD n []).length := by
    rintro r ⟨n, hn, hlarge⟩
    exact absurd (M.fits r n hn) hlarge.not_ge
  simp only [sendVariousTargets, if_neg (hfits _)]
  refine Leads.reduce.trans ?_
  simp only [allreduce_smsgcounter]
  exact Leads.of_invariant (fun g s t hg ht => hg.step hsize ht) (fun g s hg => hg.move)
    exchanging_start

end Exchange

/-! ## Requests and replies -/

/-- What a rank knows after a request and its replies. -/
structure Exchanged (size : ℕ) (T : Type) where
  sources : List (Fin size)
  rBuffer : List (List T)
  repliers : List (Fin size)
  replies : List (List T)

/-- **A request and its replies**, as in `RandomInput::linkup`: the sources of the requests are the
targets of the replies. `answer` gives the reply to the source at a position. -/
def requestReply (sorting : Sorting ℕ) (multiplier : ℕ)
    (answer : Fin size → List (Fin size) → List (List T) → ℕ → List T) (rank : Fin size)
    (sBuffer rBuffer replyBuffer : List (List T)) (targets : List (Fin size)) :
    Rank size T (Option (Exchanged size T)) :=
  sendVariousTargets sorting multiplier rank sBuffer rBuffer targets [] fun sent rBuffer sources =>
    if sent then
      sendVariousTargets sorting multiplier rank
        ((List.range sources.length).map (answer rank sources rBuffer)) replyBuffer sources []
        fun sent replies repliers =>
          .done (if sent then some ⟨sources, rBuffer, repliers, replies⟩ else none)
    else .done none

section Replies

variable {multiplier : ℕ} (M : Messages size T multiplier)
  (answer : Fin size → List (Fin size) → List (List T) → ℕ → List T)

/-- The reply of a target to `r`. -/
def reply (target r : Fin size) : List T :=
  answer target (M.sourcesOf target) (M.received target) ((M.sourcesOf target).idxOf r)

def RepliesFit : Prop :=
  ∀ r, ∀ n < (M.sourcesOf r).length,
    multiplier * (answer r (M.sourcesOf r) (M.received r) n).length ≤ limit

def Messages.replies (h : RepliesFit M answer) : Messages size T multiplier where
  targets := M.sourcesOf
  sBuffer r := (List.range (M.sourcesOf r).length).map (answer r (M.sourcesOf r) (M.received r))
  nodup := M.sourcesOf_nodup
  length_le r := by rw [List.length_map, List.length_range]
  fits r n hn := by
    rw [List.getD_eq_getElem?_getD, List.getElem?_map, List.getElem?_range hn, Option.map_some,
      Option.getD_some]
    exact h r n hn

variable {M answer}

lemma sourcesOf_replies (h : RepliesFit M answer) (r : Fin size) :
    (M.replies answer h).sourcesOf r = (M.targets r).mergeSort := by
  have hperm : ((M.replies answer h).sourcesOf r).Perm (M.targets r) := by
    rw [List.perm_ext_iff_of_nodup (Messages.sourcesOf_nodup _ r) (M.nodup r)]
    intro target
    rw [Messages.mem_sourcesOf]
    exact M.mem_sourcesOf
  exact (hperm.trans (List.mergeSort_perm _ _).symm).eq_of_pairwise'
    ((Messages.sourcesOf_sorted _ r).imp LT.lt.le) (List.pairwise_mergeSort' (· ≤ ·) _)

lemma received_replies (h : RepliesFit M answer) (r : Fin size) :
    (M.replies answer h).received r
      = (M.targets r).mergeSort.map fun target => reply M answer target r := by
  rw [Messages.received, sourcesOf_replies]
  refine List.map_congr_left fun target htarget => ?_
  have hmem : r ∈ M.sourcesOf target := M.mem_sourcesOf.mpr (List.mem_mergeSort.mp htarget)
  have hlt := List.idxOf_lt_length_iff.mpr hmem
  rw [Messages.addressed, Messages.replies, List.getD_eq_getElem?_getD, List.getElem?_map,
    List.getElem?_range hlt, Option.map_some, Option.getD_some, reply]

variable (M answer) in
def startRequests (sorting : Sorting ℕ) (rBuffer replyBuffer : Fin size → List (List T)) :
    Net (Fin size) (List T) (Fin size → ℕ) (Option (Exchanged size T)) :=
  ⟨fun r => requestReply sorting multiplier answer r (M.sBuffer r) (rBuffer r) (replyBuffer r)
    (M.targets r), fun _ _ => []⟩

variable (M answer) in
/-- All ranks with the messages of their sources, and the replies of their targets. -/
def exchanged : Net (Fin size) (List T) (Fin size → ℕ) (Option (Exchanged size T)) :=
  ⟨fun r => .done (some ⟨M.sourcesOf r, M.received r, (M.targets r).mergeSort,
    (M.targets r).mergeSort.map fun target => reply M answer target r⟩), fun _ _ => []⟩

lemma exchanged_stuck (hsize : 0 < size) (t) : ¬Step allreduce (exchanged M answer) t := by
  intro hstep
  cases hstep with
  | send hproc => cases hproc
  | probe hproc _ => cases hproc
  | wait hproc _ _ => cases hproc
  | reduce hproc => cases hproc ⟨0, hsize⟩
  | barrier hproc => cases hproc ⟨0, hsize⟩

lemma startRequests_leads (h : RepliesFit M answer) (hsize : 0 < size) (sorting : Sorting ℕ)
    (rBuffer replyBuffer : Fin size → List (List T)) :
    Leads allreduce (startRequests M answer sorting rBuffer replyBuffer) (exchanged M answer) := by
  have hfirst := sendVariousTargets_leads M sorting rBuffer
    (fun rank sent rBuffer sources =>
      if sent then
        sendVariousTargets sorting multiplier rank
          ((List.range sources.length).map (answer rank sources rBuffer)) (replyBuffer rank) sources
          [] fun sent replies repliers =>
            .done (if sent then some (⟨sources, rBuffer, repliers, replies⟩ : Exchanged size T)
              else none)
      else .done none) hsize fun _ => []
  refine hfirst.trans ?_
  have hsecond := sendVariousTargets_leads (M.replies answer h) sorting replyBuffer
    (fun rank sent replies repliers =>
      .done (if sent then
        some (⟨M.sourcesOf rank, M.received rank, repliers, replies⟩ : Exchanged size T)
        else none)) hsize fun _ => []
  simp only [sourcesOf_replies, received_replies] at hsecond
  exact hsecond

end Replies

/-- **Requests and replies.** All runs end with the ascending ranks that have listed a rank, what
they have addressed to it, and the replies of its targets in ascending order, which is the order of
the targets if these are ascending. -/
theorem requestReply_ends (hsize : 0 < size) (sorting : Sorting ℕ) {multiplier : ℕ}
    (M : Messages size T multiplier)
    {answer : Fin size → List (Fin size) → List (List T) → ℕ → List T} (h : RepliesFit M answer)
    (rBuffer replyBuffer : Fin size → List (List T)) :
    Ends allreduce (startRequests M answer sorting rBuffer replyBuffer) (exchanged M answer) ∧
      ∀ r, (M.targets r).Pairwise (· < ·) → (M.targets r).mergeSort = M.targets r := by
  refine ⟨(startRequests_leads h hsize sorting rBuffer replyBuffer).ends (exchanged_stuck hsize),
    fun r hsorted => ?_⟩
  exact List.mergeSort_eq_self (· ≤ ·) (hsorted.imp LT.lt.le)

/-- Rank `0` asks ranks `2` and `1`. -/
def twoTargets (r : Fin 3) : List (Fin 3) :=
  [[⟨2, Nat.lt_succ_self 2⟩, ⟨1, Nat.one_lt_succ_succ 1⟩], [], []].getD r.val []
def twoBuffers (r : Fin 3) : List (List ℕ) := [[[5], []], [], []].getD r.val []

lemma twoTargets_nodup : ∀ r, (twoTargets r).Nodup := by decide

lemma twoTargets_length_le : ∀ r, (twoTargets r).length ≤ (twoBuffers r).length := by decide

lemma twoBuffers_fit : ∀ r, ∀ n < (twoTargets r).length,
    1 * ((twoBuffers r).getD n []).length ≤ limit := by decide

def asksTwo : Messages 3 ℕ 1 :=
  ⟨twoTargets, twoBuffers, twoTargets_nodup, twoTargets_length_le, twoBuffers_fit⟩

def echo (_ : Fin 3) (_ : List (Fin 3)) (rBuffer : List (List ℕ)) (n : ℕ) : List ℕ :=
  rBuffer.getD n []

lemma asksTwo_fit : RepliesFit asksTwo echo := by
  unfold RepliesFit
  decide

theorem requestReply_ends_asksTwo :
    Ends allreduce (startRequests asksTwo echo .stable (fun _ => []) fun _ => [])
        (exchanged asksTwo echo) ∧
      ∀ r, (asksTwo.targets r).Pairwise (· < ·) →
        (asksTwo.targets r).mergeSort = asksTwo.targets r :=
  requestReply_ends (by decide) .stable asksTwo asksTwo_fit (fun _ => []) fun _ => []

/-- The replies do not arrive in the order of the targets of rank `0`. -/
theorem requestReply_not_in_order :
    ¬∃ u out, Ends allreduce (startRequests asksTwo echo .stable (fun _ => []) fun _ => []) u ∧
      u.proc 0 = .done (some out) ∧ out.repliers = asksTwo.targets 0 := by
  rintro ⟨u, out, ⟨bound, hends⟩, hproc, horder⟩
  obtain ⟨n, hrun⟩ := (startRequests_leads asksTwo_fit (by decide) .stable (fun _ => [])
    fun _ => []).exists_run
  obtain ⟨-, m, hm⟩ := hends n _ hrun
  cases hm with
  | step hstep _ => exact exchanged_stuck (by decide) _ hstep
  | refl =>
      have hout := Proc.done.inj hproc
      rw [Option.some.injEq] at hout
      rw [← hout] at horder
      dsimp only at horder
      have hsorted := List.pairwise_mergeSort' (· ≤ ·) (asksTwo.targets 0)
      rw [horder] at hsorted
      exact absurd hsorted (by decide)

end VariousTargets

end Espreso
