import Espreso.Basis.Exchange
import Espreso.Constraints.Assemble
import Espreso.Lib.Fallible
import Espreso.Lib.Writes

/-!
# Scaling of the gluing rows

`Constraints::B1DuplicityUpdate` replaces the weights of the gluing rows by quotients of diagonal
entries of the stiffness matrices.  Every rank sends the diagonals of its domains on an interval to
the other ranks of the interval, one interval after the other; a rank that receives them walks
through its own intervals and takes the entries in the order in which they come.

* `sendInterval`, `fillInterval` — the loop before the exchange and the loop after it.
* **`sent_eq`** — what a rank sends.
* **`diagonals_eq`** — every rank finds the diagonal entries of all domains of an interval.
-/

namespace Espreso

open Layout

/-! ## The code -/

section Code

variable (DOFs : ℕ) (m : Mesh) (D : ℕ → ℕ → ℚ)

/-- `dintervals[d]`: the same intervals as `gintervals[d]`. -/
def Mesh.dintervals (d : ℕ) : List (GluingInterval ProcessInterval) :=
  gintervals id (m.firstDomain + d) 0 m.pintervals

/-- The domains of an interval that the rank holds, counted from its first domain. -/
def localDomains (p : ProcessInterval) : List ℕ :=
  (p.domains.filter fun domain => m.Holds domain).map (· - m.firstDomain)

/-- The diagonal of a domain on its interval at `dindex`. -/
def diagonalBlock (dindex : ℕ → ℕ) (d : ℕ) : Option (List ℚ) :=
  (m.dintervals d)[dindex d]?.map fun i =>
    (List.range' (DOFs * i.DOFOffset) (DOFs * (i.interval.end' - i.interval.begin'))).map (D d)

/-- The loop over the domains of an interval that fills the buffer of one rank. -/
def sendTo (dindex : ℕ → ℕ) (p : ProcessInterval) (sBuffer : ℕ → List ℚ) (rank : ℕ) :
    Option (ℕ → List ℚ) :=
  ((localDomains m p).mapM (diagonalBlock DOFs m D dindex)).map fun blocks =>
    Function.update sBuffer (n2i m.neighbours rank)
      (sBuffer (n2i m.neighbours rank) ++ blocks.flatten)

/-- `++dindex[d]` for every domain of a list. -/
def countDomains (dindex : ℕ → ℕ) (domains : List ℕ) : ℕ → ℕ :=
  domains.foldl (fun dindex d => Function.update dindex d (dindex d + 1)) dindex

/-- The state of the loop before the exchange. -/
structure Sending where
  sBuffer : ℕ → List ℚ
  dindex : ℕ → ℕ

def sendInterval (st : Sending) (p : ProcessInterval) : Option Sending :=
  (((sortAndRemoveDuplicity p.ranks).filter (· ≠ m.rank)).foldlM (sendTo DOFs m D st.dindex p)
    st.sBuffer).map fun s => ⟨s, countDomains st.dindex (localDomains m p)⟩

def sent : Option (ℕ → List ℚ) :=
  (m.pintervals.foldlM (sendInterval DOFs m D) ⟨fun _ => [], fun _ => 0⟩).map Sending.sBuffer

/-- The degrees of freedom of the nodes of an interval, node by node. -/
def nodeDOFs (isize : ℕ) : List (ℕ × ℕ) :=
  (List.range isize).flatMap fun n => (List.range DOFs).map fun dof => (dof, n)

/-- The place in `diagonals[i]` of a degree of freedom of a node in the `r`-th of `n` domains. -/
def place (n : ℕ) (x : ℕ × ℕ) (r : ℕ) : ℕ := DOFs * x.2 * n + x.1 * n + r

/-- The state of the loop after the exchange. -/
structure Receiving where
  dindex : ℕ → ℕ
  rindex : ℕ → ℕ

def takeReceived (n r : ℕ) (buffer : List ℚ) (xs : List (ℕ × ℕ)) (diagonals : ℕ → ℚ) (rindex : ℕ) :
    Option ((ℕ → ℚ) × ℕ) :=
  xs.foldlM (fun st x => buffer[st.2]?.map fun value =>
    (Function.update st.1 (place DOFs n x r) value, st.2 + 1)) (diagonals, rindex)

def takeLocal (n r d DOFOffset : ℕ) (xs : List (ℕ × ℕ)) (diagonals : ℕ → ℚ) : ℕ → ℚ :=
  xs.foldl (fun t x =>
    Function.update t (place DOFs n x r) (D d (DOFs * (DOFOffset + x.2) + x.1))) diagonals

def fillRank (rBuffer : ℕ → List ℚ) (p : ProcessInterval) (st : (ℕ → ℚ) × Receiving) (r : ℕ) :
    Option ((ℕ → ℚ) × Receiving) :=
  let xs := nodeDOFs DOFs (p.end' - p.begin')
  if p.ranks.getD r 0 ≠ m.rank then
    let target := n2i m.neighbours (p.ranks.getD r 0)
    (takeReceived DOFs p.domains.length r (rBuffer target) xs st.1 (st.2.rindex target)).map
      fun taken => (taken.1, { st.2 with rindex := Function.update st.2.rindex target taken.2 })
  else
    let d := p.domains.getD r 0 - m.firstDomain
    (m.dintervals d)[st.2.dindex d]?.map fun i =>
      (takeLocal DOFs D p.domains.length r d i.DOFOffset xs st.1,
        { st.2 with dindex := Function.update st.2.dindex d (st.2.dindex d + 1) })

/-- The body of the loop after the exchange.  Intervals of one domain are left out. -/
def fillInterval (rBuffer : ℕ → List ℚ) (st : Receiving) (p : ProcessInterval) :
    Option ((ℕ → ℚ) × Receiving) :=
  if 1 < p.domains.length then
    (List.range p.ranks.length).foldlM (fillRank DOFs m D rBuffer p) (fun _ => 0, st)
  else some (fun _ => 0, st)

/-- The loop after the exchange: `diagonals[i]` for every interval. -/
def fillIntervals (rBuffer : ℕ → List ℚ) : List ProcessInterval → Receiving → Option (List (ℕ → ℚ))
  | [], _ => some []
  | p :: ps, st => (fillInterval DOFs m D rBuffer st p).bind fun filled =>
    (fillIntervals rBuffer ps filled.2).map (filled.1 :: ·)

end Code

section Write

variable (DOFs : ℕ) (interval : GluingInterval (ConstrainedInterval × (ℕ → ℚ)))

/-- One pass of the loop over the nodes in the lambda `redundantglue`. -/
def scaledNode (dof n : ℕ) : List ℚ :=
  let k := n - interval.interval.1.pinterval.begin'
  let diagonal := fun i => interval.interval.2 (place DOFs interval.ndomains (dof, k) i)
  let sum := ((List.range interval.ndomains).map diagonal).sum
  (List.range interval.dindex).map (fun i => diagonal i / sum)
    ++ (List.range' (interval.dindex + 1) (interval.ndomains - (interval.dindex + 1))).map
      fun i => diagonal i / sum

/-- The lambda `redundantglue`: the weights that it writes. -/
def scaledglue (begin' end' dof : ℕ) : List ℚ :=
  (List.range' begin' (end' - begin')).flatMap (scaledNode DOFs interval dof)

def scaledBetween (dof : ℕ) : List ℕ → ℕ → List ℚ
  | [], current => scaledglue DOFs interval current interval.interval.1.pinterval.end' dof
  | end' :: ends, current =>
    scaledglue DOFs interval current end' dof ++ scaledBetween dof ends (end' + 1)

def scaledInterval : List ℚ :=
  if 1 < interval.ndomains then
    (List.range DOFs).flatMap fun dof =>
      let pinterval := interval.interval.1.pinterval
      scaledBetween DOFs interval dof (intervalDirichletNodes pinterval dof) pinterval.begin'
  else []

/-- Writing values one after the other from a position on; writing outside of the array is `none`.
-/
def storeFrom : List ℚ → ℕ → List ℚ → Option (List ℚ)
  | [], _, array => some array
  | value :: values, dindex, array =>
    if dindex < array.length then storeFrom values (dindex + 1) (array.set dindex value) else none

end Write

/-- **`Constraints::B1DuplicityUpdate`** on rank `rank` of `size` ranks, with redundant multipliers.
`K domain` is the diagonal of the stiffness matrix of a domain. -/
def B1DuplicityUpdate (meshes : ℕ → Mesh) (size DOFs : ℕ) (K : ℕ → ℕ → ℚ) (rank : ℕ)
    (constraints : Constraints) (inst : Instance) : Option Instance :=
  let D := fun r d => K ((meshes r).firstDomain + d)
  if ∀ r < size, (sent DOFs (meshes r) (D r)).isSome then
    (exchangeUnknownSize size 1 (fun r => (meshes r).neighbours)
        fun r => (sent DOFs (meshes r) (D r)).getD fun _ => []).bind fun rBuffer =>
    (fillIntervals DOFs (meshes rank) (D rank) (rBuffer rank) (meshes rank).pintervals
        ⟨fun _ => 0, fun _ => 0⟩).bind fun diagonals =>
    let stored := fun d => storeFrom
      ((gintervals (fun i => i.1.pinterval) ((meshes rank).firstDomain + d) 0
        (constraints.intervals.zip diagonals)).flatMap (scaledInterval DOFs))
      (inst.domains d).domainDirichletSize (inst.domains d).B1duplicity
    if ∀ d < (meshes rank).ndomains, (stored d).isSome then
      some { inst with
        domains := fun d => if d < (meshes rank).ndomains
          then { inst.domains d with B1duplicity := (stored d).getD [] }
          else inst.domains d }
    else none
  else none

/-! ## What a rank sends -/

namespace System

variable (sys : System) (K : ℕ → ℕ → ℚ)

/-- The entry of the diagonal of domain `d` for a degree of freedom of a node of interval `g`. -/
def diagonal (d g : ℕ) (x : ℕ × ℕ) : ℚ := K d (sys.column d g x - 1)

/-- The diagonal of domain `d` on interval `g`, node by node. -/
def block (d g : ℕ) : List ℚ := (nodeDOFs sys.DOFs (sys.interval g).size).map (sys.diagonal K d g)

/-- The diagonals of the domains of a list that rank `r` holds, on interval `g`. -/
def heldBlocks (r g : ℕ) (domains : List ℕ) : List ℚ :=
  (domains.filter fun d => sys.rankOf d = r).flatMap fun d => sys.block K d g

/-- What rank `r` sends to rank `q` about the intervals of a list. -/
def message (r q : ℕ) (l : List ℕ) : List ℚ :=
  (l.filter fun g => r ∈ sys.iranks g ∧ q ∈ sys.iranks g).flatMap fun g =>
    sys.heldBlocks K r g (sys.interval g).domains

/-- The state of the loop before the exchange after the intervals below `n`. -/
structure Sends (r n : ℕ) (st : Sending) : Prop where
  sBuffer : ∀ q ∈ sys.neighbours r,
    st.sBuffer (n2i (sys.neighbours r) q) = sys.message K r q (List.range n)
  dindex : ∀ d < (sys.mesh r).ndomains, st.dindex d = ((List.range n).filter fun g =>
    sys.distribution.border r + d ∈ (sys.interval g).domains).length

variable {sys K}

lemma dintervals_eq {r d : ℕ} (hr : r < sys.ranks) (hd : d < (sys.mesh r).ndomains) :
    (sys.mesh r).dintervals d = (sys.domainIds (sys.distribution.border r + d)).map fun g =>
      ⟨sys.view (sys.nodeOffset r g) g, sys.dofOffset (sys.distribution.border r + d) g,
        lowerBound (sys.interval g).domains (sys.distribution.border r + d),
        (sys.interval g).domains.length⟩ := by
  have hrank := rankOf_local hr hd
  have h := gintervals_eq sys id (fun g => sys.view (sys.nodeOffset r g) g)
    (sys.distribution.border r + d) fun g => by rw [hrank]; rfl
  rw [hrank, ← pintervals_eq] at h
  exact h

lemma dintervals_getElem? {r d g : ℕ} (hr : r < sys.ranks) (hd : d < (sys.mesh r).ndomains)
    (hg : g < sys.count) (hmem : sys.distribution.border r + d ∈ (sys.interval g).domains) :
    ((sys.mesh r).dintervals d)[((List.range g).filter fun h =>
        sys.distribution.border r + d ∈ (sys.interval h).domains).length]?
      = some ⟨sys.view (sys.nodeOffset r g) g, sys.dofOffset (sys.distribution.border r + d) g,
          lowerBound (sys.interval g).domains (sys.distribution.border r + d),
          (sys.interval g).domains.length⟩ := by
  rw [dintervals_eq hr hd, List.getElem?_map, domainIds, filter_range_getElem? _ hg hmem]
  rfl

lemma localDomains_view {r : ℕ} (hr : r < sys.ranks) {g : ℕ} (hg : g < sys.count) (off : ℕ) :
    localDomains (sys.mesh r) (sys.view off g)
      = ((sys.interval g).domains.filter fun d => sys.rankOf d = r).map
        (· - sys.distribution.border r) := by
  have hfilter : (sys.interval g).domains.filter (fun d => decide ((sys.mesh r).Holds d))
      = (sys.interval g).domains.filter fun d => decide (sys.rankOf d = r) :=
    List.filter_congr fun d hd => decide_eq_decide.mpr (holds_iff hr (sys.domains_lt g hg d hd))
  simp only [localDomains, view, hfilter]
  rfl

lemma held_spec {r d : ℕ} (hd : d < sys.domains) (hrank : sys.rankOf d = r) :
    sys.distribution.border r + (d - sys.distribution.border r) = d ∧
      d - sys.distribution.border r < (sys.mesh r).ndomains := by
  subst hrank
  obtain ⟨-, h₁, h₂⟩ := rankOf_spec hd
  refine ⟨by omega, ?_⟩
  change _ < sys.distribution.border (sys.rankOf d + 1) - sys.distribution.border (sys.rankOf d)
  omega

lemma range'_nodeDOFs (DOFs a : ℕ) : ∀ n, List.range' (DOFs * a) (DOFs * n)
    = (nodeDOFs DOFs n).map fun x => DOFs * (a + x.2) + x.1 := by
  intro n
  induction n with
  | zero => rfl
  | succ n ih =>
      have hnode : List.range' (DOFs * a + DOFs * n) DOFs
          = (List.range DOFs).map fun dof => DOFs * (a + n) + dof := by
        rw [← Nat.mul_add, List.range_eq_range', List.map_add_range', Nat.add_zero]
      rw [Nat.mul_succ, ← List.range'_append_1, ih, hnode, nodeDOFs, nodeDOFs, List.range_succ,
        List.flatMap_append, List.map_append, List.flatMap_singleton, List.map_map]
      rfl

lemma block_eq (sys : System) (K : ℕ → ℕ → ℚ) (d g : ℕ) :
    (List.range' (sys.DOFs * sys.dofOffset d g) (sys.DOFs * (sys.interval g).size)).map (K d)
      = sys.block K d g := by
  rw [range'_nodeDOFs, List.map_map]
  rfl

lemma countDomains_apply {l : List ℕ} (hl : l.Nodup) (dindex : ℕ → ℕ) (d : ℕ) :
    countDomains dindex l d = dindex d + if d ∈ l then 1 else 0 := by
  induction l generalizing dindex with
  | nil => simp [countDomains]
  | cons a l ih =>
      obtain ⟨ha, hl⟩ := List.nodup_cons.mp hl
      have hstep : countDomains dindex (a :: l)
          = countDomains (Function.update dindex a (dindex a + 1)) l := rfl
      rw [hstep, ih hl]
      by_cases had : d = a
      · subst had
        simp [ha]
      · simp [had]

lemma foldl_append_buffers {nb : List ℕ} (hnb : nb.Pairwise (· < ·)) (entries : List ℚ) {q : ℕ}
    (hq : q ∈ nb) : ∀ (l : List ℕ) (s : ℕ → List ℚ), l.Nodup → (∀ t ∈ l, t ∈ nb) →
      l.foldl (fun s t => Function.update s (n2i nb t) (s (n2i nb t) ++ entries)) s (n2i nb q)
        = s (n2i nb q) ++ if q ∈ l then entries else [] := by
  intro l
  induction l with
  | nil => intro s _ _; simp
  | cons t l ih =>
      intro s hl ht
      obtain ⟨hnew, hl⟩ := List.nodup_cons.mp hl
      rw [List.foldl_cons, ih _ hl fun u hu => ht u (by simp [hu])]
      by_cases hqt : q = t
      · subst hqt
        simp [hnew]
      · have hne : n2i nb q ≠ n2i nb t := fun h => hqt (lowerBound_inj hnb hq (ht t (by simp)) h)
        simp [Function.update_of_ne hne, hqt]

lemma message_succ (r q n : ℕ) :
    sys.message K r q (List.range (n + 1)) = sys.message K r q (List.range n)
      ++ if r ∈ sys.iranks n ∧ q ∈ sys.iranks n
        then sys.heldBlocks K r n (sys.interval n).domains else [] := by
  rw [message, List.range_succ, List.filter_append, List.flatMap_append]
  by_cases h : r ∈ sys.iranks n ∧ q ∈ sys.iranks n
  · rw [if_pos h, List.filter_cons_of_pos (by simpa using h)]
    simp [message]
  · rw [if_neg h, List.filter_cons_of_neg (by simpa using h)]
    simp [message]

lemma length_filter_succ (P : ℕ → Prop) [DecidablePred P] (n : ℕ) :
    ((List.range (n + 1)).filter P).length = ((List.range n).filter P).length
      + if P n then 1 else 0 := by
  rw [List.range_succ, List.filter_append, List.length_append]
  by_cases h : P n <;> simp [h]

lemma mapM_diagonalBlock {r g off : ℕ} (hr : r < sys.ranks) (hg : g < sys.count) {st : Sending}
    (h : sys.Sends K r g st) :
    (localDomains (sys.mesh r) (sys.view off g)).mapM (diagonalBlock sys.DOFs (sys.mesh r)
        (fun d => K (sys.distribution.border r + d)) st.dindex)
      = some (((sys.interval g).domains.filter fun d => sys.rankOf d = r).map
          fun d => sys.block K d g) := by
  rw [localDomains_view hr hg, List.mapM_map]
  refine Fallible.mapM_eq_some fun d hd => ?_
  obtain ⟨hmem, hrank⟩ := List.mem_filter.mp hd
  obtain ⟨hsum, hlt⟩ := held_spec (sys.domains_lt g hg d hmem) (of_decide_eq_true hrank)
  have hcount := h.dindex _ hlt
  have hget := dintervals_getElem? hr hlt hg (hsum.symm ▸ hmem)
  simp only [Function.comp, diagonalBlock]
  rw [hcount, hget, Option.map_some]
  simp only [hsum, view, Nat.add_sub_cancel_left, block_eq]

lemma Sends.step {r n : ℕ} (hr : r < sys.ranks) (hn : n < sys.count) {st : Sending}
    (h : sys.Sends K r n st) (hmem : r ∈ sys.iranks n) (off : ℕ) :
    ∃ st', sendInterval sys.DOFs (sys.mesh r) (fun d => K (sys.distribution.border r + d)) st
        (sys.view off n) = some st' ∧ sys.Sends K r (n + 1) st' := by
  set others := (sortAndRemoveDuplicity (sys.iranks n)).filter (· ≠ r) with hothers
  have hmem_others : ∀ q, q ∈ others ↔ q ∈ sys.iranks n ∧ q ≠ r := by
    intro q
    rw [hothers, List.mem_filter, mem_sortAndRemoveDuplicity, decide_eq_true_eq]
  have hnodup : others.Nodup :=
    ((sortAndRemoveDuplicity_sorted _).imp fun h => ne_of_lt h).filter _
  have hsendTo : ∀ (s : ℕ → List ℚ) (q : ℕ), sendTo sys.DOFs (sys.mesh r)
      (fun d => K (sys.distribution.border r + d)) st.dindex (sys.view off n) s q
      = some (Function.update s (n2i (sys.neighbours r) q) (s (n2i (sys.neighbours r) q)
        ++ sys.heldBlocks K r n (sys.interval n).domains)) := by
    intro s q
    rw [sendTo, mapM_diagonalBlock hr hn h, Option.map_some, ← List.flatMap_def]
    rfl
  have hsend : ∀ s, others.foldlM (sendTo sys.DOFs (sys.mesh r)
      (fun d => K (sys.distribution.border r + d)) st.dindex (sys.view off n)) s
      = some (others.foldl (fun s q => Function.update s (n2i (sys.neighbours r) q)
        (s (n2i (sys.neighbours r) q) ++ sys.heldBlocks K r n (sys.interval n).domains)) s) := by
    intro s
    have hfun : sendTo sys.DOFs (sys.mesh r) (fun d => K (sys.distribution.border r + d)) st.dindex
        (sys.view off n) = fun s q => pure (Function.update s (n2i (sys.neighbours r) q)
          (s (n2i (sys.neighbours r) q) ++ sys.heldBlocks K r n (sys.interval n).domains)) := by
      funext s q
      exact hsendTo s q
    rw [hfun, List.foldlM_pure]
    rfl
  refine ⟨_, congrArg (Option.map _) (hsend st.sBuffer), ⟨fun q hq => ?_, fun d hd => ?_⟩⟩
  · have hne : q ≠ r := fun heq => sys.neighbours_irrefl r (heq ▸ hq)
    have hto : q ∈ others ↔ r ∈ sys.iranks n ∧ q ∈ sys.iranks n := by
      rw [hmem_others]
      exact ⟨fun h => ⟨hmem, h.1⟩, fun h => ⟨h.2, hne⟩⟩
    dsimp only
    rw [message_succ, ← h.sBuffer q hq,
      foldl_append_buffers (sys.neighbours_sorted r) _ hq others _ hnodup fun t ht => ?_]
    · simp only [hto]
    · obtain ⟨ht, htr⟩ := (hmem_others t).mp ht
      exact neighbours_mem hn hmem ht (Ne.symm htr)
  · have hlocal : d ∈ localDomains (sys.mesh r) (sys.view off n)
        ↔ sys.distribution.border r + d ∈ (sys.interval n).domains := by
      rw [localDomains_view hr hn, List.mem_map]
      constructor
      · rintro ⟨e, he, rfl⟩
        obtain ⟨he, hrank⟩ := List.mem_filter.mp he
        rw [(held_spec (sys.domains_lt n hn e he) (of_decide_eq_true hrank)).1]
        exact he
      · intro hmem
        exact ⟨_, List.mem_filter.mpr ⟨hmem, decide_eq_true (rankOf_local hr hd)⟩,
          Nat.add_sub_cancel_left _ _⟩
    have hdistinct : (localDomains (sys.mesh r) (sys.view off n)).Nodup := by
      rw [localDomains_view hr hn]
      refine List.Nodup.map_on (fun a ha b hb hab => ?_)
        (((sys.interval n).ascending.imp fun h => ne_of_lt h).filter _)
      obtain ⟨ha, har⟩ := List.mem_filter.mp ha
      obtain ⟨hb, hbr⟩ := List.mem_filter.mp hb
      rw [← (held_spec (sys.domains_lt n hn a ha) (of_decide_eq_true har)).1, hab,
        (held_spec (sys.domains_lt n hn b hb) (of_decide_eq_true hbr)).1]
    rw [length_filter_succ, ← h.dindex d hd]
    simp only [countDomains_apply hdistinct, hlocal]

lemma sends_spec {r : ℕ} (hr : r < sys.ranks) : ∀ n ≤ sys.count, ∃ st,
    (((List.range n).filter fun g => r ∈ sys.iranks g).map fun g =>
      sys.view (sys.nodeOffset r g) g).foldlM (sendInterval sys.DOFs (sys.mesh r)
        fun d => K (sys.distribution.border r + d)) ⟨fun _ => [], fun _ => 0⟩ = some st ∧
    sys.Sends K r n st := by
  intro n
  induction n with
  | zero => exact fun _ => ⟨_, rfl, ⟨fun _ _ => rfl, fun _ _ => rfl⟩⟩
  | succ n ih =>
      intro hn
      obtain ⟨st, hst, h⟩ := ih (by omega)
      rw [List.range_succ, List.filter_append, List.map_append, List.foldlM_append, hst]
      by_cases hmem : r ∈ sys.iranks n
      · obtain ⟨st', hst', h'⟩ := h.step hr (by omega) hmem (sys.nodeOffset r n)
        refine ⟨st', ?_, h'⟩
        rw [List.filter_cons_of_pos (by simpa using hmem)]
        simp [hst']
      · refine ⟨st, ?_, ⟨fun q hq => ?_, fun d hd => ?_⟩⟩
        · rw [List.filter_cons_of_neg (by simpa using hmem)]
          rfl
        · rw [message_succ, if_neg fun h => hmem h.1, List.append_nil, h.sBuffer q hq]
        · have hnot : sys.distribution.border r + d ∉ (sys.interval n).domains := fun h =>
            hmem (List.mem_map.mpr ⟨_, h, rankOf_local hr hd⟩)
          rw [length_filter_succ, if_neg hnot, h.dindex d hd]
          rfl

/-- **What a rank sends**: to every neighbour, the diagonals of its domains on the intervals that
they share. -/
theorem sent_eq {r : ℕ} (hr : r < sys.ranks) : ∃ sBuffer,
    sent sys.DOFs (sys.mesh r) (fun d => K (sys.distribution.border r + d)) = some sBuffer ∧
      ∀ q ∈ sys.neighbours r,
        sBuffer (n2i (sys.neighbours r) q) = sys.message K r q (List.range sys.count) := by
  obtain ⟨st, hst, h⟩ := sends_spec (K := K) hr sys.count (le_refl _)
  refine ⟨st.sBuffer, ?_, h.sBuffer⟩
  rw [sent, pintervals_eq]
  exact congrArg (Option.map _) hst

end System

/-! ## What a rank receives -/

section Table

variable {DOFs : ℕ}

lemma mem_nodeDOFs {isize : ℕ} {x : ℕ × ℕ} :
    x ∈ nodeDOFs DOFs isize ↔ x.1 < DOFs ∧ x.2 < isize := by
  obtain ⟨dof, n⟩ := x
  simp only [nodeDOFs, List.mem_flatMap, List.mem_range, List.mem_map, Prod.mk.injEq]
  constructor
  · rintro ⟨n', hn, dof', hdof, rfl, rfl⟩
    exact ⟨hdof, hn⟩
  · rintro ⟨hdof, hn⟩
    exact ⟨n, hn, dof, hdof, rfl, rfl⟩

lemma place_inj {n i j : ℕ} {x y : ℕ × ℕ} (hx : x.1 < DOFs) (hy : y.1 < DOFs) (hi : i < n)
    (hj : j < n) (h : place DOFs n x i = place DOFs n y j) : x = y ∧ i = j := by
  have hplace : ∀ (z : ℕ × ℕ) k, place DOFs n z k = k + n * (z.1 + DOFs * z.2) := by
    intro z k
    rw [place]
    ring
  rw [hplace, hplace] at h
  have hmod := congrArg (· % n) h
  have hdiv := congrArg (· / n) h
  simp only [Nat.add_mul_mod_self_left, Nat.mod_eq_of_lt hi, Nat.mod_eq_of_lt hj] at hmod
  simp only [Nat.add_mul_div_left _ _ (show 0 < n by omega), Nat.div_eq_of_lt hi,
    Nat.div_eq_of_lt hj, Nat.zero_add] at hdiv
  have hdof := congrArg (· % DOFs) hdiv
  have hnode := congrArg (· / DOFs) hdiv
  simp only [Nat.add_mul_mod_self_left, Nat.mod_eq_of_lt hx, Nat.mod_eq_of_lt hy] at hdof
  simp only [Nat.add_mul_div_left _ _ (show 0 < DOFs by omega), Nat.div_eq_of_lt hx,
    Nat.div_eq_of_lt hy, Nat.zero_add] at hnode
  exact ⟨Prod.ext hdof hnode, hmod⟩

lemma takeReceived_eq (DOFs n r : ℕ) (value : ℕ × ℕ → ℚ) (post : List ℚ) :
    ∀ (xs : List (ℕ × ℕ)) (pre : List ℚ) (t : ℕ → ℚ),
      takeReceived DOFs n r (pre ++ (xs.map value ++ post)) xs t pre.length
        = some (xs.foldl (fun t x => Function.update t (place DOFs n x r) (value x)) t,
            pre.length + xs.length) := by
  intro xs
  induction xs with
  | nil => exact fun _ _ => rfl
  | cons x xs ih =>
      intro pre t
      have hget : (pre ++ ((x :: xs).map value ++ post))[pre.length]? = some (value x) := by
        simp
      have hnext := ih (pre ++ [value x]) (Function.update t (place DOFs n x r) (value x))
      have hbuffer : pre ++ [value x] ++ (xs.map value ++ post)
          = pre ++ ((x :: xs).map value ++ post) := by simp
      have hlength : (pre ++ [value x]).length = pre.length + 1 := by simp
      rw [hbuffer, hlength] at hnext
      rw [takeReceived, List.foldlM_cons, hget]
      refine hnext.trans ?_
      rw [List.foldl_cons, List.length_cons, Nat.add_assoc, Nat.add_comm 1]

end Table

namespace System

variable (sys : System) (K : ℕ → ℕ → ℚ)

/-- Taking the entries of the domain at position `j` of interval `g`. -/
def takeDomain (g j : ℕ) (t : ℕ → ℚ) : ℕ → ℚ :=
  (nodeDOFs sys.DOFs (sys.interval g).size).foldl (fun t x =>
    Function.update t (place sys.DOFs (sys.ndomains g) x j)
      (sys.diagonal K (sys.domainAt g j) g x)) t

/-- `diagonals[i]` for interval `g`, on whatever rank. -/
def diagonals (g : ℕ) : ℕ → ℚ :=
  if 1 < sys.ndomains g then
    (List.range (sys.ndomains g)).foldl (fun t j => sys.takeDomain K g j t) fun _ => 0
  else fun _ => 0

/-- The state of the loop after the exchange, behind the intervals below `g` and the first `j`
domains of interval `g`. -/
structure Receives (r g j : ℕ) (st : Receiving) : Prop where
  dindex : ∀ d < (sys.mesh r).ndomains, st.dindex d = ((List.range g).filter fun h =>
      sys.distribution.border r + d ∈ (sys.interval h).domains ∧ 1 < sys.ndomains h).length
    + if sys.distribution.border r + d ∈ (sys.interval g).domains.take j then 1 else 0
  rindex : ∀ q ∈ sys.neighbours r, st.rindex (n2i (sys.neighbours r) q)
    = (sys.message K q r (List.range g)
      ++ sys.heldBlocks K q g ((sys.interval g).domains.take j)).length

variable {sys K}

/-- **`diagonals[i]`** holds the diagonal entries of all domains of the interval. -/
theorem diagonals_eq {g j : ℕ} {x : ℕ × ℕ} (hn : 1 < sys.ndomains g) (hj : j < sys.ndomains g)
    (hdof : x.1 < sys.DOFs) (hnode : x.2 < (sys.interval g).size) :
    sys.diagonals K g (place sys.DOFs (sys.ndomains g) x j)
      = sys.diagonal K (sys.domainAt g j) g x := by
  have hx : x ∈ nodeDOFs sys.DOFs (sys.interval g).size := mem_nodeDOFs.mpr ⟨hdof, hnode⟩
  -- the entries of a domain stay when later domains are taken
  have hall : ∀ n ≤ sys.ndomains g, ∀ i < n,
      (List.range n).foldl (fun t j => sys.takeDomain K g j t) (fun _ => 0)
        (place sys.DOFs (sys.ndomains g) x i) = sys.diagonal K (sys.domainAt g i) g x := by
    intro n
    induction n with
    | zero => exact fun _ i hi => absurd hi (Nat.not_lt_zero i)
    | succ n ih =>
        intro hle i hi
        rw [List.range_succ, List.foldl_append, List.foldl_cons, List.foldl_nil]
        rcases Nat.lt_succ_iff_lt_or_eq.mp hi with hi | rfl
        · refine (Writes.foldl_update_of_ne _ _ _ _ fun y hy heq => ?_).trans (ih (by omega) i hi)
          have h := (place_inj (mem_nodeDOFs.mp hy).1 hdof (by omega) (by omega) heq).2
          omega
        · exact Writes.foldl_update_of_mem (fun y => place sys.DOFs (sys.ndomains g) y i)
            (sys.diagonal K (sys.domainAt g i) g) _ _ (fun y hy heq =>
              (place_inj (mem_nodeDOFs.mp hy).1 hdof (by omega) (by omega) heq).1) hx
  rw [diagonals, if_pos hn]
  exact hall _ (le_refl _) j hj

lemma Arranged.shared_at (harr : sys.Arranged) {d g h : ℕ} (hgh : g < h) (hh : h < sys.count)
    (hdg : d ∈ (sys.interval g).domains) (hdh : d ∈ (sys.interval h).domains)
    (hn : 1 < sys.ndomains h) : 1 < sys.ndomains g := by
  by_contra hone
  obtain ⟨e, he⟩ : ∃ e, (sys.interval g).domains = [e] := by
    have := ndomains_pos sys g
    exact List.length_eq_one_iff.mp (by change sys.ndomains g = 1; omega)
  obtain rfl : d = e := by simpa [he] using hdg
  have hle := (sys.interval h).front_le hdh
  have hbefore := harr g h hgh hh
  have hcons : (sys.interval h).domains = (sys.interval h).front :: (sys.interval h).domains.tail :=
    (List.cons_head_tail (sys.interval h).nonempty).symm
  have htail : 0 < (sys.interval h).domains.tail.length := by
    rw [List.length_tail]
    change 0 < sys.ndomains h - 1
    omega
  rw [he, hcons, intervalBefore] at hbefore
  by_cases hfront : d = (sys.interval h).front
  · rw [if_neg (not_not.mpr hfront), intervalBefore, List.length_nil, if_neg (by omega)] at hbefore
    · simp at hbefore
    · simp
  · rw [if_pos hfront] at hbefore
    have := of_decide_eq_true hbefore
    omega

lemma heldBlocks_append (q g : ℕ) (k l : List ℕ) :
    sys.heldBlocks K q g (k ++ l) = sys.heldBlocks K q g k ++ sys.heldBlocks K q g l := by
  rw [heldBlocks, List.filter_append, List.flatMap_append]
  rfl

lemma heldBlocks_singleton (q g d : ℕ) :
    sys.heldBlocks K q g [d] = if sys.rankOf d = q then sys.block K d g else [] := by
  by_cases h : sys.rankOf d = q <;> simp [heldBlocks, h]

lemma message_split {q r g : ℕ} (hg : g < sys.count) (hq : q ∈ sys.iranks g)
    (hr : r ∈ sys.iranks g) :
    sys.message K q r (List.range sys.count) = sys.message K q r (List.range g)
      ++ (sys.heldBlocks K q g (sys.interval g).domains
        ++ sys.message K q r (List.range' (g + 1) (sys.count - (g + 1)))) := by
  have hsplit : List.range sys.count
      = List.range g ++ g :: List.range' (g + 1) (sys.count - (g + 1)) := by
    rw [List.range_eq_range', List.range_eq_range', ← List.range'_succ,
      show sys.count - (g + 1) + 1 = sys.count - g by omega]
    have h : List.range' 0 g ++ List.range' (0 + g) (sys.count - g)
        = List.range' 0 (g + (sys.count - g)) := List.range'_append_1
    rw [Nat.zero_add, Nat.add_sub_cancel' (le_of_lt hg)] at h
    exact h.symm
  rw [message, hsplit, List.filter_append, List.flatMap_append,
    List.filter_cons_of_pos (by simpa using ⟨hq, hr⟩), List.flatMap_cons]
  rfl

lemma take_succ_domains {g j : ℕ} (hj : j < sys.ndomains g) :
    (sys.interval g).domains.take (j + 1)
      = (sys.interval g).domains.take j ++ [sys.domainAt g j] := by
  rw [List.take_add_one, getElem?_domainAt hj]
  rfl

lemma domains_split {g j : ℕ} (hj : j < sys.ndomains g) :
    (sys.interval g).domains = (sys.interval g).domains.take j
      ++ ([sys.domainAt g j] ++ (sys.interval g).domains.drop (j + 1)) := by
  rw [← List.append_assoc, ← take_succ_domains hj, List.take_append_drop]

lemma domainAt_notMem_take {g j : ℕ} (hj : j < sys.ndomains g) :
    sys.domainAt g j ∉ (sys.interval g).domains.take j := by
  have hsorted := (sys.interval g).ascending
  rw [domains_split hj, List.pairwise_append] at hsorted
  exact fun h => lt_irrefl _ (hsorted.2.2 _ h _ (by simp))

lemma getD_iranks {g j : ℕ} (hj : j < sys.ndomains g) :
    (sys.iranks g).getD j 0 = sys.rankOf (sys.domainAt g j) := by
  rw [iranks, List.getD_eq_getElem?_getD, List.getElem?_map, getElem?_domainAt hj]
  rfl

lemma Receives.fillReceived {r g j : ℕ} (hr : r < sys.ranks) (hg : g < sys.count)
    (hj : j < sys.ndomains g)
    {st : Receiving} (h : sys.Receives K r g j st) (hmem : r ∈ sys.iranks g)
    (hne : sys.rankOf (sys.domainAt g j) ≠ r) {rBuffer : ℕ → List ℚ}
    (hbuffer : ∀ q ∈ sys.neighbours r,
      rBuffer (n2i (sys.neighbours r) q) = sys.message K q r (List.range sys.count))
    (off : ℕ) (t : ℕ → ℚ) :
    ∃ st', fillRank sys.DOFs (sys.mesh r) (fun d => K (sys.distribution.border r + d)) rBuffer
        (sys.view off g) (t, st) j = some (sys.takeDomain K g j t, st') ∧
      sys.Receives K r g (j + 1) st' := by
  set q := sys.rankOf (sys.domainAt g j) with hq
  have hqmem : q ∈ sys.iranks g := List.mem_map_of_mem (domainAt_mem hj)
  have hnb : q ∈ sys.neighbours r := neighbours_mem hg hmem hqmem (Ne.symm hne)
  have hheld : sys.heldBlocks K q g (sys.interval g).domains
      = sys.heldBlocks K q g ((sys.interval g).domains.take j) ++ (sys.block K (sys.domainAt g j) g
        ++ sys.heldBlocks K q g ((sys.interval g).domains.drop (j + 1))) := by
    conv_lhs => rw [domains_split hj]
    rw [heldBlocks_append, heldBlocks_append, heldBlocks_singleton, if_pos hq.symm]
  have hread : takeReceived sys.DOFs (sys.ndomains g) j (rBuffer (n2i (sys.neighbours r) q))
      (nodeDOFs sys.DOFs (sys.interval g).size) t (st.rindex (n2i (sys.neighbours r) q))
      = some (sys.takeDomain K g j t, st.rindex (n2i (sys.neighbours r) q)
          + (nodeDOFs sys.DOFs (sys.interval g).size).length) := by
    have htake := takeReceived_eq sys.DOFs (sys.ndomains g) j
      (sys.diagonal K (sys.domainAt g j) g)
      (sys.heldBlocks K q g ((sys.interval g).domains.drop (j + 1))
        ++ sys.message K q r (List.range' (g + 1) (sys.count - (g + 1))))
      (nodeDOFs sys.DOFs (sys.interval g).size) (sys.message K q r (List.range g)
        ++ sys.heldBlocks K q g ((sys.interval g).domains.take j)) t
    rw [hbuffer q hnb, message_split hg hqmem hmem, hheld, h.rindex q hnb]
    simp only [List.append_assoc, block] at htake ⊢
    exact htake
  have hrank : (sys.view off g).ranks.getD j 0 = q := getD_iranks hj
  have hsize : (sys.view off g).end' - (sys.view off g).begin' = (sys.interval g).size :=
    Nat.add_sub_cancel_left _ _
  refine ⟨⟨st.dindex, Function.update st.rindex (n2i (sys.neighbours r) q)
    (st.rindex (n2i (sys.neighbours r) q)
      + (nodeDOFs sys.DOFs (sys.interval g).size).length)⟩, ?_, ⟨fun d hd => ?_, fun q' hq' => ?_⟩⟩
  · rw [fillRank]
    simp only [hrank, hsize]
    rw [if_pos (show q ≠ (sys.mesh r).rank from hne)]
    exact congrArg (Option.map _) hread
  · have hother : sys.distribution.border r + d ≠ sys.domainAt g j := fun heq =>
      hne (by rw [hq, ← heq, rankOf_local hr hd])
    rw [h.dindex d hd, take_succ_domains hj]
    simp only [List.mem_append, List.mem_singleton, hother, or_false]
  · rw [take_succ_domains hj, heldBlocks_append, heldBlocks_singleton]
    by_cases heq : q' = q
    · rw [heq, if_pos hq.symm]
      dsimp only
      rw [Function.update_self, h.rindex q hnb]
      simp only [List.length_append, block, List.length_map]
      omega
    · have hplace : n2i (sys.neighbours r) q' ≠ n2i (sys.neighbours r) q := fun hplace =>
        heq (lowerBound_inj (sys.neighbours_sorted r) hq' hnb hplace)
      dsimp only
      rw [Function.update_of_ne hplace, h.rindex q' hq', ← hq, if_neg (Ne.symm heq),
        List.append_nil]

lemma Receives.fillLocal (harr : sys.Arranged) {r g j : ℕ} (hr : r < sys.ranks)
    (hg : g < sys.count) (hn : 1 < sys.ndomains g) (hj : j < sys.ndomains g) {st : Receiving}
    (h : sys.Receives K r g j st) (hrank : sys.rankOf (sys.domainAt g j) = r)
    (rBuffer : ℕ → List ℚ) (off : ℕ) (t : ℕ → ℚ) :
    ∃ st', fillRank sys.DOFs (sys.mesh r) (fun d => K (sys.distribution.border r + d)) rBuffer
        (sys.view off g) (t, st) j = some (sys.takeDomain K g j t, st') ∧
      sys.Receives K r g (j + 1) st' := by
  have hdomain := domainAt_mem hj
  obtain ⟨hsum, hlt⟩ := held_spec (sys.domains_lt g hg _ hdomain) hrank
  set d := sys.domainAt g j - sys.distribution.border r with hd
  have hshared : ((List.range g).filter fun h =>
        sys.distribution.border r + d ∈ (sys.interval h).domains ∧ 1 < sys.ndomains h)
      = (List.range g).filter fun h =>
        sys.distribution.border r + d ∈ (sys.interval h).domains := by
    refine List.filter_congr fun i hi => decide_eq_decide.mpr (and_iff_left_of_imp fun hmem => ?_)
    exact harr.shared_at (List.mem_range.mp hi) hg (hsum ▸ hmem) hdomain hn
  have hdindex := h.dindex d hlt
  rw [hshared, hsum, if_neg (domainAt_notMem_take hj), Nat.add_zero] at hdindex
  have hget := dintervals_getElem? hr hlt hg (hsum.symm ▸ hdomain)
  rw [hsum, ← hdindex] at hget
  have hview : (sys.view off g).ranks.getD j 0 = r := (getD_iranks hj).trans hrank
  have hsize : (sys.view off g).end' - (sys.view off g).begin' = (sys.interval g).size :=
    Nat.add_sub_cancel_left _ _
  refine ⟨⟨Function.update st.dindex d (st.dindex d + 1), st.rindex⟩, ?_,
    ⟨fun e he => ?_, fun q hq => ?_⟩⟩
  · have htake : takeLocal sys.DOFs (fun d => K (sys.distribution.border r + d)) (sys.ndomains g) j
        d (sys.dofOffset (sys.domainAt g j) g) (nodeDOFs sys.DOFs (sys.interval g).size) t
        = sys.takeDomain K g j t := by
      simp only [takeLocal, takeDomain, hsum]
      rfl
    rw [fillRank]
    simp only [hview, hsize]
    rw [if_neg fun hne : r ≠ (sys.mesh r).rank => hne rfl]
    refine (congrArg (Option.map _) hget).trans (congrArg some (Prod.ext ?_ rfl))
    exact htake
  · have hmem : sys.distribution.border r + e = sys.domainAt g j ↔ e = d := by omega
    rw [take_succ_domains hj]
    simp only [List.mem_append, List.mem_singleton, hmem]
    by_cases heq : e = d
    · subst heq
      rw [Function.update_self, if_pos (Or.inr rfl), hdindex, hshared, hsum]
    · rw [Function.update_of_ne heq, h.dindex e he]
      simp only [heq, or_false]
  · have hother : sys.rankOf (sys.domainAt g j) ≠ q := fun heq =>
      sys.neighbours_irrefl r (hrank.symm.trans heq ▸ hq)
    rw [h.rindex q hq, take_succ_domains hj, heldBlocks_append, heldBlocks_singleton,
      if_neg hother, List.append_nil]

lemma Receives.next_shared {r g : ℕ} {st : Receiving} (hn : 1 < sys.ndomains g)
    (hmem : r ∈ sys.iranks g) (h : sys.Receives K r g (sys.ndomains g) st) :
    sys.Receives K r (g + 1) 0 st where
  dindex d hd := by
    have hall : (sys.interval g).domains.take (sys.ndomains g) = (sys.interval g).domains :=
      List.take_length
    rw [h.dindex d hd, hall, length_filter_succ]
    simp [hn]
  rindex q hq := by
    have hall : (sys.interval g).domains.take (sys.ndomains g) = (sys.interval g).domains :=
      List.take_length
    rw [h.rindex q hq, hall, message_succ]
    by_cases hqg : q ∈ sys.iranks g
    · rw [if_pos ⟨hqg, hmem⟩]
      simp [heldBlocks]
    · have hnone : sys.heldBlocks K q g (sys.interval g).domains = [] := by
        have hfilter : (sys.interval g).domains.filter (fun d => sys.rankOf d = q) = [] :=
          List.filter_eq_nil_iff.mpr fun d hd hdq =>
            hqg (List.mem_map.mpr ⟨d, hd, of_decide_eq_true hdq⟩)
        rw [heldBlocks, hfilter, List.flatMap_nil]
      rw [if_neg fun h => hqg h.1, hnone]
      simp [heldBlocks]

lemma Receives.next_skipped {r g : ℕ} {st : Receiving} (hr : r < sys.ranks)
    (hskip : r ∈ sys.iranks g → sys.ndomains g = 1) (h : sys.Receives K r g 0 st) :
    sys.Receives K r (g + 1) 0 st where
  dindex d hd := by
    have hnot : ¬(sys.distribution.border r + d ∈ (sys.interval g).domains
        ∧ 1 < sys.ndomains g) := by
      rintro ⟨hmem, hn⟩
      have := hskip (List.mem_map.mpr ⟨_, hmem, rankOf_local hr hd⟩)
      omega
    rw [h.dindex d hd, length_filter_succ, if_neg hnot]
    simp
  rindex q hq := by
    have hnot : ¬(q ∈ sys.iranks g ∧ r ∈ sys.iranks g) := by
      rintro ⟨hqg, hrg⟩
      obtain ⟨d, hd⟩ : ∃ d, (sys.interval g).domains = [d] :=
        List.length_eq_one_iff.mp (hskip hrg)
      rw [iranks, hd, List.map_singleton, List.mem_singleton] at hqg hrg
      exact sys.neighbours_irrefl r ((hqg.trans hrg.symm) ▸ hq)
    rw [h.rindex q hq, message_succ, if_neg hnot]
    simp [heldBlocks]

lemma Receives.step (harr : sys.Arranged) {r g : ℕ} (hr : r < sys.ranks) (hg : g < sys.count)
    {st : Receiving} (h : sys.Receives K r g 0 st) (hmem : r ∈ sys.iranks g)
    {rBuffer : ℕ → List ℚ} (hbuffer : ∀ q ∈ sys.neighbours r,
      rBuffer (n2i (sys.neighbours r) q) = sys.message K q r (List.range sys.count)) (off : ℕ) :
    ∃ st', fillInterval sys.DOFs (sys.mesh r) (fun d => K (sys.distribution.border r + d)) rBuffer
        st (sys.view off g) = some (sys.diagonals K g, st') ∧
      sys.Receives K r (g + 1) 0 st' := by
  by_cases hn : 1 < sys.ndomains g
  swap
  · have hone : sys.ndomains g = 1 := by
      have := ndomains_pos sys g
      omega
    refine ⟨st, ?_, h.next_skipped hr fun _ => hone⟩
    rw [fillInterval, diagonals, if_neg hn]
    exact if_neg hn
  have hloop : ∀ n ≤ sys.ndomains g, ∃ st',
      (List.range n).foldlM (fillRank sys.DOFs (sys.mesh r)
        (fun d => K (sys.distribution.border r + d)) rBuffer (sys.view off g)) (fun _ => 0, st)
        = some ((List.range n).foldl (fun t j => sys.takeDomain K g j t) fun _ => 0, st') ∧
      sys.Receives K r g n st' := by
    intro n
    induction n with
    | zero => exact fun _ => ⟨st, rfl, h⟩
    | succ n ih =>
        intro hle
        obtain ⟨st₁, h₁, hst₁⟩ := ih (by omega)
        rw [List.range_succ, List.foldlM_append, h₁, List.foldl_append]
        by_cases hrank : sys.rankOf (sys.domainAt g n) = r
        · obtain ⟨st₂, h₂, hst₂⟩ := hst₁.fillLocal harr hr hg hn (by omega) hrank rBuffer off
            ((List.range n).foldl (fun t j => sys.takeDomain K g j t) fun _ => 0)
          exact ⟨st₂, by simp [h₂], hst₂⟩
        · obtain ⟨st₂, h₂, hst₂⟩ := hst₁.fillReceived hr hg (by omega) hmem hrank hbuffer off
            ((List.range n).foldl (fun t j => sys.takeDomain K g j t) fun _ => 0)
          exact ⟨st₂, by simp [h₂], hst₂⟩
  obtain ⟨st', hst', h'⟩ := hloop _ (le_refl _)
  have hranks : (sys.view off g).ranks.length = sys.ndomains g := List.length_map _
  refine ⟨st', ?_, h'.next_shared hn hmem⟩
  rw [fillInterval, diagonals, if_pos hn, hranks]
  exact (if_pos hn).trans hst'

lemma fillIntervals_eq (harr : sys.Arranged) {r : ℕ} (hr : r < sys.ranks) {rBuffer : ℕ → List ℚ}
    (hbuffer : ∀ q ∈ sys.neighbours r,
      rBuffer (n2i (sys.neighbours r) q) = sys.message K q r (List.range sys.count)) :
    ∀ (k g : ℕ) (st : Receiving), g + k = sys.count → sys.Receives K r g 0 st →
      fillIntervals sys.DOFs (sys.mesh r) (fun d => K (sys.distribution.border r + d)) rBuffer
          (((List.range' g k).filter fun g => r ∈ sys.iranks g).map fun g =>
            sys.view (sys.nodeOffset r g) g) st
        = some (((List.range' g k).filter fun g => r ∈ sys.iranks g).map (sys.diagonals K)) := by
  intro k
  induction k with
  | zero => exact fun _ _ _ _ => rfl
  | succ k ih =>
      intro g st hk h
      rw [List.range'_succ]
      by_cases hmem : r ∈ sys.iranks g
      · obtain ⟨st', hst', h'⟩ := h.step harr hr (by omega) hmem hbuffer (sys.nodeOffset r g)
        rw [List.filter_cons_of_pos (by simpa using hmem), List.map_cons, fillIntervals, hst',
          Option.bind_some, ih (g + 1) st' (by omega) h', Option.map_some, List.map_cons]
      · rw [List.filter_cons_of_neg (by simpa using hmem)]
        exact ih (g + 1) st (by omega) (h.next_skipped hr fun h => absurd h hmem)

end System

end Espreso
