import Espreso.Basis.Distribution
import Espreso.Basis.VariousTargets

/-!
# Sequences of exchanges

All exchanges of buffers use the same tag, and two of them take messages of any rank. The exchanges
with messages of any rank end with a barrier, and that between neighbours with buffers of known size
does not. So ranks can be in different exchanges at the same time.

* `exchangeKnownSize`, `exchangeUnknownSize` — the exchanges of `Communication` between neighbours.
* **`runCalls_ends`** — all runs end, and each call delivers what was addressed in that call.
-/

namespace Espreso

open Function Probing Reorder VariousTargets

namespace CallSequence

variable {T R : Type} {size : ℕ}

/-- A rank of a group, as in `VariousTargets`. -/
abbrev Rank (size : ℕ) (T R : Type) := VariousTargets.Rank size T R

/-! ## Exchanges between neighbours -/

/-- `MPI_Irecv` from all neighbours, and `MPI_Waitall`. The receives are completed in any order, and
a message must not be larger than its buffer. A rank does not wait here until its own messages are
received, so it has more runs than the code. -/
def waitall (abort : Rank size T R) (neighbours : List (Fin size))
    (k : List (List T) → Rank size T R) : ℕ → List (Fin size) → List (List T) → Rank size T R
  | 0, _, rBuffer => k rBuffer
  | n + 1, pending, rBuffer => .wait pending fun source message =>
    let p := neighbours.idxOf source
    let buffer := rBuffer.getD p []
    if message.length ≤ buffer.length then
      waitall abort neighbours k n (pending.erase source)
        (rBuffer.set p (message ++ buffer.drop message.length))
    else abort

/-- **`Communication::exchangeKnownSize`** on a rank, which continues with what is returned and with
`rBuffer`. The neighbours are different ranks. -/
def exchangeKnownSize (multiplier : ℕ) (sBuffer rBuffer : List (List T))
    (neighbours : List (Fin size)) (k : Bool → List (List T) → Rank size T R)
    (abort : Rank size T R) : Rank size T R :=
  if ∃ n < neighbours.length, limit < multiplier * (sBuffer.getD n []).length ∨
      limit < multiplier * (rBuffer.getD n []).length then
    k false rBuffer
  else isend (waitall abort neighbours (k true) neighbours.length neighbours rBuffer)
    (neighbours.zip sBuffer)

/-- `MPI_Iprobe` and `MPI_Recv` into the buffer of the source, until `counter` reaches the number of
neighbours. -/
def iprobe (neighbours : List (Fin size)) (k : List (List T) → Rank size T R) :
    ℕ → List (List T) → Rank size T R
  | 0, rBuffer => k rBuffer
  | n + 1, rBuffer => .probe fun source message =>
    iprobe neighbours k n (rBuffer.set (lowerBound neighbours source) message)

/-- **`Communication::exchangeUnknownSize`** -/
def exchangeUnknownSize (multiplier : ℕ) (sBuffer rBuffer : List (List T))
    (neighbours : List (Fin size)) (k : Bool → List (List T) → Rank size T R) : Rank size T R :=
  if ∃ n < neighbours.length, limit < multiplier * (sBuffer.getD n []).length then k false rBuffer
  else isend (iprobe neighbours (fun rBuffer => .barrier (k true rBuffer)) neighbours.length
    rBuffer) (neighbours.zip sBuffer)

/-- `Communication::exchangeUnknownSize` with one buffer for all neighbours. -/
def exchangeUnknownSizeSame (multiplier : ℕ) (sBuffer : List T) (rBuffer : List (List T))
    (neighbours : List (Fin size)) (k : Bool → List (List T) → Rank size T R) : Rank size T R :=
  if limit < multiplier * sBuffer.length then k false rBuffer
  else isend (iprobe neighbours (fun rBuffer => .barrier (k true rBuffer)) neighbours.length
    rBuffer) (neighbours.map fun n => (n, sBuffer))

/-! ## One call after the other -/

/-- The exchanges. -/
inductive Kind
  | known
  | unknown
  | various
  deriving DecidableEq

/-- **A call** of a rank, with its arguments. -/
inductive Call (size : ℕ) (T : Type)
  | exchangeKnownSize (multiplier : ℕ) (sBuffer rBuffer : List (List T))
      (neighbours : List (Fin size))
  | exchangeUnknownSize (multiplier : ℕ) (sBuffer rBuffer : List (List T))
      (neighbours : List (Fin size))
  | exchangeUnknownSizeSame (multiplier : ℕ) (sBuffer : List T) (rBuffer : List (List T))
      (neighbours : List (Fin size))
  | sendVariousTargets (multiplier : ℕ) (sBuffer rBuffer : List (List T))
      (targets sources : List (Fin size))

namespace Call

def kind : Call size T → Kind
  | .exchangeKnownSize .. => .known
  | .exchangeUnknownSize .. => .unknown
  | .exchangeUnknownSizeSame .. => .unknown
  | .sendVariousTargets .. => .various

def multiplier : Call size T → ℕ
  | .exchangeKnownSize m _ _ _ => m
  | .exchangeUnknownSize m _ _ _ => m
  | .exchangeUnknownSizeSame m _ _ _ => m
  | .sendVariousTargets m _ _ _ _ => m

def targets : Call size T → List (Fin size)
  | .exchangeKnownSize _ _ _ neighbours => neighbours
  | .exchangeUnknownSize _ _ _ neighbours => neighbours
  | .exchangeUnknownSizeSame _ _ _ neighbours => neighbours
  | .sendVariousTargets _ _ _ targets _ => targets

def sBuffer : Call size T → List (List T)
  | .exchangeKnownSize _ sBuffer _ _ => sBuffer
  | .exchangeUnknownSize _ sBuffer _ _ => sBuffer
  | .exchangeUnknownSizeSame _ sBuffer _ neighbours => neighbours.map fun _ => sBuffer
  | .sendVariousTargets _ sBuffer _ _ _ => sBuffer

def rBuffer : Call size T → List (List T)
  | .exchangeKnownSize _ _ rBuffer _ => rBuffer
  | .exchangeUnknownSize _ _ rBuffer _ => rBuffer
  | .exchangeUnknownSizeSame _ _ rBuffer _ => rBuffer
  | .sendVariousTargets _ _ rBuffer _ _ => rBuffer

def Refused : Call size T → Prop
  | .exchangeKnownSize m sBuffer rBuffer neighbours => ∃ n < neighbours.length,
      limit < m * (sBuffer.getD n []).length ∨ limit < m * (rBuffer.getD n []).length
  | .exchangeUnknownSize m sBuffer _ neighbours => ∃ n < neighbours.length,
      limit < m * (sBuffer.getD n []).length
  | .exchangeUnknownSizeSame m sBuffer _ _ => limit < m * sBuffer.length
  | .sendVariousTargets m sBuffer _ targets _ => ∃ n < targets.length,
      limit < m * (sBuffer.getD n []).length

instance : DecidablePred (Refused : Call size T → Prop)
  | .exchangeKnownSize m sBuffer rBuffer neighbours =>
    inferInstanceAs (Decidable (∃ n < neighbours.length,
      limit < m * (sBuffer.getD n []).length ∨ limit < m * (rBuffer.getD n []).length))
  | .exchangeUnknownSize m sBuffer _ neighbours =>
    inferInstanceAs (Decidable (∃ n < neighbours.length, limit < m * (sBuffer.getD n []).length))
  | .exchangeUnknownSizeSame m sBuffer _ _ =>
    inferInstanceAs (Decidable (limit < m * sBuffer.length))
  | .sendVariousTargets m sBuffer _ targets _ =>
    inferInstanceAs (Decidable (∃ n < targets.length, limit < m * (sBuffer.getD n []).length))

/-- A rank makes the call, and continues with what is returned, with `rBuffer` and with `sources`.
-/
def perform (sorting : Sorting ℕ) (rank : Fin size) (abort : Rank size T R)
    (k : Bool → List (List T) → List (Fin size) → Rank size T R) : Call size T → Rank size T R
  | .exchangeKnownSize m sBuffer rBuffer neighbours =>
    CallSequence.exchangeKnownSize m sBuffer rBuffer neighbours
      (fun returned rBuffer => k returned rBuffer []) abort
  | .exchangeUnknownSize m sBuffer rBuffer neighbours =>
    CallSequence.exchangeUnknownSize m sBuffer rBuffer neighbours
      fun returned rBuffer => k returned rBuffer []
  | .exchangeUnknownSizeSame m sBuffer rBuffer neighbours =>
    CallSequence.exchangeUnknownSizeSame m sBuffer rBuffer neighbours
      fun returned rBuffer => k returned rBuffer []
  | .sendVariousTargets m sBuffer rBuffer targets sources =>
    VariousTargets.sendVariousTargets sorting m rank sBuffer rBuffer targets sources k

end Call

/-- What a call has stored. -/
structure Stored (size : ℕ) (T : Type) where
  rBuffer : List (List T)
  sources : List (Fin size)

/-- **A rank that makes some calls**, each of which may depend on what the calls before it have
stored. It stops with `none` when a call is refused, and when a message is larger than its
buffer. -/
def runCalls (sorting : Sorting ℕ) (rank : Fin size) (next : List (Stored size T) → Call size T) :
    ℕ → List (Stored size T) → Rank size T (Option (List (Stored size T)))
  | 0, log => .done (some log)
  | n + 1, log => (next log).perform sorting rank (.done none) fun returned rBuffer sources =>
    if returned then runCalls sorting rank next n (log ++ [⟨rBuffer, sources⟩]) else .done none

/-! ## The calls of all ranks -/

/-- **All ranks make the same call**, which is not refused. Targets are different. The lists of
neighbours are sorted and symmetric, and buffers of known size have the size of the messages. -/
structure Agree (kind : Kind) (multiplier : ℕ) (call : Fin size → Call size T) : Prop where
  kind_eq : ∀ r, (call r).kind = kind
  multiplier_eq : ∀ r, (call r).multiplier = multiplier
  accepted : ∀ r, ¬(call r).Refused
  nodup : ∀ r, (call r).targets.Nodup
  length_le : ∀ r, (call r).targets.length ≤ (call r).sBuffer.length
  sorted : kind ≠ .various → ∀ r, (call r).targets.Pairwise (· < ·)
  symmetric : kind ≠ .various → ∀ r r', r ∈ (call r').targets ↔ r' ∈ (call r).targets
  le_length : kind ≠ .various → ∀ r, (call r).targets.length ≤ (call r).rBuffer.length
  known : kind = .known → ∀ r, ∀ source ∈ (call r).targets,
    ((call r).rBuffer.getD ((call r).targets.idxOf source) []).length
      = ((call source).sBuffer.getD ((call source).targets.idxOf r) []).length

/-- **The calls of all ranks**, which they make in the same order. There is no last one, so that any
number of them can be made. -/
structure Script (size : ℕ) (T : Type) where
  call : ℕ → Fin size → Call size T
  kind : ℕ → Kind
  multiplier : ℕ → ℕ
  agree : ∀ c, Agree (kind c) (multiplier c) (call c)

namespace Script

variable (script : Script size T)

lemma fits (c : ℕ) (r : Fin size) : ∀ n < (script.call c r).targets.length,
    script.multiplier c * ((script.call c r).sBuffer.getD n []).length ≤ limit := by
  intro n hn
  have haccepted := (script.agree c).accepted r
  rw [← (script.agree c).multiplier_eq r]
  by_contra hlarge
  refine haccepted ?_
  rw [Nat.not_le] at hlarge
  cases hcall : script.call c r with
  | exchangeKnownSize m sBuffer rBuffer neighbours =>
      rw [hcall] at hn hlarge
      exact ⟨n, hn, Or.inl hlarge⟩
  | exchangeUnknownSize m sBuffer rBuffer neighbours =>
      rw [hcall] at hn hlarge
      exact ⟨n, hn, hlarge⟩
  | exchangeUnknownSizeSame m sBuffer rBuffer neighbours =>
      rw [hcall] at hn hlarge
      rw [Call.targets] at hn
      rw [Call.sBuffer, List.getD_eq_getElem?_getD, List.getElem?_map,
        List.getElem?_eq_getElem hn] at hlarge
      exact hlarge
  | sendVariousTargets m sBuffer rBuffer targets sources =>
      rw [hcall] at hn hlarge
      exact ⟨n, hn, hlarge⟩

def messages (c : ℕ) : Messages size T (script.multiplier c) where
  targets r := (script.call c r).targets
  sBuffer r := (script.call c r).sBuffer
  nodup := (script.agree c).nodup
  length_le := (script.agree c).length_le
  fits := script.fits c

def sourcesOf (c : ℕ) (r : Fin size) : List (Fin size) := (script.messages c).sourcesOf r

/-- The message of `source` to `r`. -/
def addressed (c : ℕ) (source r : Fin size) : List T := (script.messages c).addressed source r

/-- **What a rank has to store**: the buffers of its sources, in their order. -/
def delivered (c : ℕ) (r : Fin size) : Stored size T :=
  let received := (script.sourcesOf c r).map (script.addressed c · r)
  match script.kind c with
  | .various => ⟨received, script.sourcesOf c r⟩
  | _ => ⟨received ++ (script.call c r).rBuffer.drop received.length, []⟩

def log (c : ℕ) (r : Fin size) : List (Stored size T) :=
  (List.range c).map (script.delivered · r)

lemma log_succ (c : ℕ) (r : Fin size) :
    script.log (c + 1) r = script.log c r ++ [script.delivered c r] := by
  rw [log, List.range_succ, List.map_append, List.map_singleton, log]

lemma mem_sourcesOf {c : ℕ} {source r : Fin size} :
    source ∈ script.sourcesOf c r ↔ r ∈ (script.call c source).targets :=
  (script.messages c).mem_sourcesOf

lemma sourcesOf_nodup (c : ℕ) (r : Fin size) : (script.sourcesOf c r).Nodup :=
  (script.messages c).sourcesOf_nodup r

lemma sourcesOf_eq_targets {c : ℕ} (hkind : script.kind c ≠ .various) (r : Fin size) :
    script.sourcesOf c r = (script.call c r).targets := by
  have hperm : (script.sourcesOf c r).Perm (script.call c r).targets := by
    rw [List.perm_ext_iff_of_nodup (script.sourcesOf_nodup c r) ((script.agree c).nodup r)]
    intro source
    rw [mem_sourcesOf]
    exact (script.agree c).symmetric hkind r source
  exact hperm.eq_of_pairwise' (((script.messages c).sourcesOf_sorted r).imp LT.lt.le)
    (((script.agree c).sorted hkind r).imp LT.lt.le)

end Script

/-- What a rank has stored for a source: `rBuffer` has the order of the neighbours, or that of
`sources`. -/
def Stored.buffer (call : Call size T) (stored : Stored size T) (source : Fin size) :
    Option (List T) :=
  match call.kind with
  | .various => stored.rBuffer[stored.sources.idxOf source]?
  | _ => stored.rBuffer[call.targets.idxOf source]?

lemma Script.buffer_delivered (script : Script size T) {c : ℕ} {source r : Fin size}
    (hsource : source ∈ script.sourcesOf c r) :
    (script.delivered c r).buffer (script.call c r) source
      = some (script.addressed c source r) := by
  have hlt := List.idxOf_lt_length_iff.mpr hsource
  have hget : ((script.sourcesOf c r).map
      (script.addressed c · r))[(script.sourcesOf c r).idxOf source]?
        = some (script.addressed c source r) := by
    rw [List.getElem?_map, List.getElem?_idxOf hsource, Option.map_some]
  have hlt' : (script.sourcesOf c r).idxOf source
      < ((script.sourcesOf c r).map (script.addressed c · r)).length := by
    rwa [List.length_map]
  rw [Stored.buffer, (script.agree c).kind_eq, Script.delivered]
  cases hkind : script.kind c with
  | various => exact hget
  | known =>
      have htargets := script.sourcesOf_eq_targets (c := c) (by rw [hkind]; decide) r
      dsimp only
      rw [← htargets, List.getElem?_append_left hlt', hget]
  | unknown =>
      have htargets := script.sourcesOf_eq_targets (c := c) (by rw [hkind]; decide) r
      dsimp only
      rw [← htargets, List.getElem?_append_left hlt', hget]

/-! ## Buffers of the neighbours -/

/-- `rBuffer` when the messages of some sources are stored. -/
def fill (targets : List (Fin size)) (message : Fin size → List T) (sources : List (Fin size))
    (rBuffer : List (List T)) : List (List T) :=
  sources.foldl (fun rBuffer source => rBuffer.set (targets.idxOf source) (message source)) rBuffer

section Fill

variable {targets sources : List (Fin size)} {message : Fin size → List T}
  {rBuffer : List (List T)}

lemma fill_concat (source : Fin size) : fill targets message (sources ++ [source]) rBuffer
    = (fill targets message sources rBuffer).set (targets.idxOf source) (message source) := by
  rw [fill, List.foldl_append, List.foldl_cons, List.foldl_nil, fill]

lemma length_fill : (fill targets message sources rBuffer).length = rBuffer.length := by
  induction sources using List.reverseRecOn with
  | nil => rfl
  | append_singleton sources source ih => rw [fill_concat, List.length_set, ih]

lemma getElem?_fill_of_notMem {p : ℕ} (h : ∀ source ∈ sources, targets.idxOf source ≠ p) :
    (fill targets message sources rBuffer)[p]? = rBuffer[p]? := by
  induction sources using List.reverseRecOn with
  | nil => rfl
  | append_singleton sources source ih =>
      rw [fill_concat, List.getElem?_set_ne (h source (List.mem_append_right _ List.mem_cons_self))]
      exact ih fun source hsource => h source (List.mem_append_left _ hsource)

lemma getElem?_fill_of_mem (hsub : sources ⊆ targets) {source : Fin size}
    (hsource : source ∈ sources) (hlt : targets.idxOf source < rBuffer.length) :
    (fill targets message sources rBuffer)[targets.idxOf source]? = some (message source) := by
  induction sources using List.reverseRecOn with
  | nil => cases hsource
  | append_singleton sources last ih =>
      rw [fill_concat]
      rcases eq_or_ne source last with rfl | hne
      · rw [List.getElem?_set_self (by rwa [length_fill])]
      · have hmem : source ∈ sources := by
          rcases List.mem_append.mp hsource with hmem | hmem
          · exact hmem
          · exact absurd (List.mem_singleton.mp hmem) hne
        have hidx : targets.idxOf last ≠ targets.idxOf source := fun heq =>
          hne ((List.idxOf_inj (hsub (List.mem_append_right _ List.mem_cons_self))).mp heq).symm
        rw [List.getElem?_set_ne hidx]
        exact ih (fun x hx => hsub (List.mem_append_left _ hx)) hmem

lemma fill_of_perm (hnodup : targets.Nodup) (hperm : sources.Perm targets)
    (hle : targets.length ≤ rBuffer.length) : fill targets message sources rBuffer
      = targets.map message ++ rBuffer.drop targets.length := by
  refine List.ext_getElem? fun p => ?_
  rcases Nat.lt_or_ge p targets.length with hp | hp
  · have hidx : targets.idxOf targets[p] = p := hnodup.idxOf_getElem p hp
    have hmem : targets[p] ∈ sources := hperm.mem_iff.mpr (List.getElem_mem hp)
    have hget : (fill targets message sources rBuffer)[targets.idxOf targets[p]]?
        = some (message targets[p]) :=
      getElem?_fill_of_mem (fun x hx => hperm.mem_iff.mp hx) hmem
        (by rw [hidx]; exact hp.trans_le hle)
    rw [hidx] at hget
    rw [hget, List.getElem?_append_left (by rwa [List.length_map]), List.getElem?_map,
      List.getElem?_eq_getElem hp, Option.map_some]
  · have hother : ∀ source ∈ sources, targets.idxOf source ≠ p := fun source hsource =>
      ((List.idxOf_lt_length_iff.mpr (hperm.mem_iff.mp hsource)).trans_le hp).ne
    rw [getElem?_fill_of_notMem hother, List.getElem?_append_right (by rwa [List.length_map]),
      List.length_map, List.getElem?_drop]
    exact congrArg (rBuffer[·]?) (by omega)

end Fill

/-! ## The state of a rank -/

/-- Where a rank is in a call: it has not entered it, or it has sent some messages, and received
those of some sources. -/
inductive Stage (size : ℕ)
  | before
  | within (sent : ℕ) (sources : List (Fin size))

def Stage.sent : Stage size → ℕ
  | .before => 0
  | .within sent _ => sent

def Stage.sources : Stage size → List (Fin size)
  | .before => []
  | .within _ sources => sources

/-- **Where a rank is.** -/
structure Position (size : ℕ) where
  call : ℕ
  stage : Stage size

section Ranks

variable (script : Script size T) (sorting : Sorting ℕ)
  (next : Fin size → List (Stored size T) → Call size T) (count : ℕ)

def after (r : Fin size) (c : ℕ) (returned : Bool) (rBuffer : List (List T))
    (sources : List (Fin size)) : Rank size T (Option (List (Stored size T))) :=
  if returned then
    runCalls sorting r (next r) (count - (c + 1)) (script.log c r ++ [⟨rBuffer, sources⟩])
  else .done none

/-- A rank that has sent its messages, and has received those of some sources. -/
def receiving (r : Fin size) (c : ℕ) (sources : List (Fin size)) :
    Rank size T (Option (List (Stored size T))) :=
  let targets := (script.call c r).targets
  let rBuffer := fill targets (script.addressed c · r) sources (script.call c r).rBuffer
  match script.kind c with
  | .known => waitall (.done none) targets
      (fun rBuffer => after script sorting next count r c true rBuffer [])
      (targets.length - sources.length) (targets.diff sources) rBuffer
  | .unknown => iprobe targets
      (fun rBuffer => .barrier (after script sorting next count r c true rBuffer []))
      (targets.length - sources.length) rBuffer
  | .various => probe (finish sorting (fun _ => (script.call c r).rBuffer)
      (fun r => after script sorting next count r c) r)
      ((script.sourcesOf c r).length - sources.length) sources
      (sources.map (script.addressed c · r))

/-- **What a rank does next.** -/
def rankAt (r : Fin size) (p : Position size) : Rank size T (Option (List (Stored size T))) :=
  match p.stage with
  | .before => runCalls sorting r (next r) (count - p.call) (script.log p.call r)
  | .within sent sources => isend (receiving script sorting next count r p.call sources)
      (((script.call p.call r).targets.zip (script.call p.call r).sBuffer).drop sent)

/-- The calls of the script are those that the ranks make after what it delivers. -/
def Follows : Prop :=
  ∀ c < count, ∀ r, next r (script.log c r) = script.call c r

variable {script sorting next count} {r : Fin size} {c : ℕ}

lemma after_delivered : after script sorting next count r c true (script.delivered c r).rBuffer
    (script.delivered c r).sources = rankAt script sorting next count r ⟨c + 1, .before⟩ := by
  rw [after, if_pos rfl, ← script.log_succ, rankAt]

lemma rankAt_before (h : Follows script next count) (hc : c < count) :
    rankAt script sorting next count r ⟨c, .before⟩
      = (script.call c r).perform sorting r (.done none)
        (after script sorting next count r c) := by
  rw [rankAt, show count - c = (count - (c + 1)) + 1 by omega, runCalls, h c hc r]
  rfl

lemma receiving_known (hkind : script.kind c = .known) (sources : List (Fin size)) :
    receiving script sorting next count r c sources
      = waitall (.done none) (script.call c r).targets
        (fun rBuffer => after script sorting next count r c true rBuffer [])
        ((script.call c r).targets.length - sources.length)
        ((script.call c r).targets.diff sources)
        (fill (script.call c r).targets (script.addressed c · r) sources
          (script.call c r).rBuffer) := by
  simp only [receiving, hkind]

lemma receiving_unknown (hkind : script.kind c = .unknown) (sources : List (Fin size)) :
    receiving script sorting next count r c sources
      = iprobe (script.call c r).targets
        (fun rBuffer => .barrier (after script sorting next count r c true rBuffer []))
        ((script.call c r).targets.length - sources.length)
        (fill (script.call c r).targets (script.addressed c · r) sources
          (script.call c r).rBuffer) := by
  simp only [receiving, hkind]

lemma receiving_various (hkind : script.kind c = .various) (sources : List (Fin size)) :
    receiving script sorting next count r c sources
      = probe (finish sorting (fun _ => (script.call c r).rBuffer)
        (fun r => after script sorting next count r c) r)
        ((script.sourcesOf c r).length - sources.length) sources
        (sources.map (script.addressed c · r)) := by
  simp only [receiving, hkind]

lemma rankAt_before_of_ne (h : Follows script next count) (hc : c < count)
    (hkind : script.kind c ≠ .various) : rankAt script sorting next count r ⟨c, .before⟩
      = rankAt script sorting next count r ⟨c, .within 0 []⟩ := by
  have haccepted := (script.agree c).accepted r
  have hk := (script.agree c).kind_eq r
  rw [rankAt_before h hc, rankAt]
  dsimp only
  cases hcall : script.call c r with
  | exchangeKnownSize m sBuffer rBuffer neighbours =>
      rw [hcall] at hk haccepted
      rw [receiving_known hk.symm, hcall]
      exact if_neg haccepted
  | exchangeUnknownSize m sBuffer rBuffer neighbours =>
      rw [hcall] at hk haccepted
      rw [receiving_unknown hk.symm, hcall]
      exact if_neg haccepted
  | exchangeUnknownSizeSame m sBuffer rBuffer neighbours =>
      rw [hcall] at hk haccepted
      rw [receiving_unknown hk.symm, hcall]
      refine (if_neg haccepted).trans ?_
      rw [Call.targets, Call.sBuffer, List.drop_zero, List.map_prod_left_eq_zip]
      rfl
  | sendVariousTargets m sBuffer rBuffer targets sources =>
      rw [hcall] at hk
      exact absurd hk.symm hkind

variable (sorting r) in
lemma rankAt_before_of_eq (h : Follows script next count) (hc : c < count)
    (hkind : script.kind c = .various) : ∃ next',
      rankAt script sorting next count r ⟨c, .before⟩
        = .reduce (smsgcounter (script.call c r).targets) next' ∧
      next' (allreduce fun i => smsgcounter (script.call c i).targets)
        = rankAt script sorting next count r ⟨c, .within 0 []⟩ := by
  have hcounter : allreduce (fun i => smsgcounter (script.call c i).targets) r
      = (script.sourcesOf c r).length := allreduce_smsgcounter (script.messages c) r
  have haccepted := (script.agree c).accepted r
  have hk := (script.agree c).kind_eq r
  rw [rankAt_before h hc, rankAt]
  dsimp only
  rw [receiving_various hkind]
  cases hcall : script.call c r with
  | sendVariousTargets m sBuffer rBuffer targets sources =>
      rw [hcall] at haccepted
      refine ⟨_, if_neg haccepted, ?_⟩
      rw [hcounter]
      rfl
  | exchangeKnownSize m sBuffer rBuffer neighbours =>
      rw [hcall, hkind] at hk
      cases hk
  | exchangeUnknownSize m sBuffer rBuffer neighbours =>
      rw [hcall, hkind] at hk
      cases hk
  | exchangeUnknownSizeSame m sBuffer rBuffer neighbours =>
      rw [hcall, hkind] at hk
      cases hk

lemma rankAt_of_lt {sent : ℕ} {sources : List (Fin size)}
    (hlt : sent < (script.call c r).targets.length) :
    rankAt script sorting next count r ⟨c, .within sent sources⟩
      = .send (script.call c r).targets[sent]
        (script.addressed c r (script.call c r).targets[sent])
        (rankAt script sorting next count r ⟨c, .within (sent + 1) sources⟩) := by
  have hdrop := (script.messages c).drop_zip hlt
  exact congrArg (isend (receiving script sorting next count r c sources)) hdrop

lemma rankAt_of_le {sent : ℕ} {sources : List (Fin size)}
    (hle : (script.call c r).targets.length ≤ sent) :
    rankAt script sorting next count r ⟨c, .within sent sources⟩
      = receiving script sorting next count r c sources := by
  have hdrop : ((script.call c r).targets.zip (script.call c r).sBuffer).drop sent = [] := by
    rw [List.drop_eq_nil_iff, List.length_zip]
    exact (Nat.min_le_left _ _).trans hle
  rw [rankAt]
  dsimp only
  rw [hdrop, isend]

section Receiving

variable {sources : List (Fin size)} (hsub : sources ⊆ script.sourcesOf c r)

include hsub

lemma length_fill_known (hkind : script.kind c = .known) {source : Fin size}
    (hsource : source ∈ script.sourcesOf c r) (hout : source ∉ sources) :
    ((fill (script.call c r).targets (script.addressed c · r) sources
      (script.call c r).rBuffer).getD ((script.call c r).targets.idxOf source) []).length
      = (script.addressed c source r).length := by
  rw [script.sourcesOf_eq_targets (by rw [hkind]; decide)] at hsource hsub
  have hother : ∀ x ∈ sources, (script.call c r).targets.idxOf x
      ≠ (script.call c r).targets.idxOf source := fun x hx heq =>
    hout ((List.idxOf_inj (hsub hx)).mp heq ▸ hx)
  rw [List.getD_eq_getElem?_getD, getElem?_fill_of_notMem hother, ← List.getD_eq_getElem?_getD]
  exact (script.agree c).known hkind r source hsource

variable (sorting next count) in
/-- **A rank waits for its neighbours**, whose buffers have the size of their messages. -/
lemma receiving_wait (hkind : script.kind c = .known)
    (hless : sources.length < (script.sourcesOf c r).length) : ∃ pending k,
      receiving script sorting next count r c sources = .wait pending k ∧
      (∀ source, source ∈ pending ↔ source ∈ script.sourcesOf c r ∧ source ∉ sources) ∧
      ∀ source ∈ script.sourcesOf c r, source ∉ sources →
        k source (script.addressed c source r)
          = receiving script sorting next count r c (sources ++ [source]) := by
  have htargets := script.sourcesOf_eq_targets (c := c) (by rw [hkind]; decide) r
  obtain ⟨n, hn⟩ := Nat.exists_eq_add_of_lt hless
  rw [htargets] at hn
  rw [receiving_known hkind,
    show (script.call c r).targets.length - sources.length = n + 1 by omega, waitall]
  refine ⟨_, _, rfl, fun source => ?_, fun source hsource hout => ?_⟩
  · rw [((script.agree c).nodup r).mem_sdiff_iff, htargets]
  · have hlength := length_fill_known hsub hkind hsource hout
    dsimp only
    rw [if_pos hlength.ge, List.drop_of_length_le hlength.le, List.append_nil,
      receiving_known hkind, fill_concat, List.diff_append, List.diff_cons, List.diff_nil,
      List.length_append, List.length_singleton,
      show (script.call c r).targets.length - (sources.length + 1) = n by omega]

omit hsub in
variable (sorting next count) in
lemma receiving_probe (hkind : script.kind c ≠ .known)
    (hless : sources.length < (script.sourcesOf c r).length) : ∃ k,
      receiving script sorting next count r c sources = .probe k ∧
      ∀ source ∈ script.sourcesOf c r, source ∉ sources →
        k source (script.addressed c source r)
          = receiving script sorting next count r c (sources ++ [source]) := by
  obtain ⟨n, hn⟩ := Nat.exists_eq_add_of_lt hless
  cases hkind' : script.kind c with
  | known => exact absurd hkind' hkind
  | unknown =>
      have hne : script.kind c ≠ .various := by rw [hkind']; decide
      rw [script.sourcesOf_eq_targets hne] at hn ⊢
      rw [receiving_unknown hkind',
        show (script.call c r).targets.length - sources.length = n + 1 by omega, iprobe]
      refine ⟨_, rfl, fun source hsource _ => ?_⟩
      have hidx : lowerBound (script.call c r).targets source
          = (script.call c r).targets.idxOf source :=
        lowerBound_getElem? ((script.agree c).sorted hne r) (List.getElem?_idxOf hsource)
      rw [receiving_unknown hkind', fill_concat, hidx, List.length_append, List.length_singleton,
        show (script.call c r).targets.length - (sources.length + 1) = n by omega]
  | various =>
      rw [receiving_various hkind',
        show (script.sourcesOf c r).length - sources.length = n + 1 by omega, probe]
      refine ⟨_, rfl, fun source _ _ => ?_⟩
      rw [receiving_various hkind', List.length_append, List.length_singleton, List.map_append,
        List.map_singleton,
        show (script.sourcesOf c r).length - (sources.length + 1) = n by omega]

end Receiving

section Received

variable {sources : List (Fin size)} (hperm : sources.Perm (script.sourcesOf c r))

include hperm

lemma after_fill (hkind : script.kind c ≠ .various) :
    after script sorting next count r c true
      (fill (script.call c r).targets (script.addressed c · r) sources (script.call c r).rBuffer) []
      = rankAt script sorting next count r ⟨c + 1, .before⟩ := by
  have htargets := script.sourcesOf_eq_targets hkind r
  rw [htargets] at hperm
  rw [← after_delivered, fill_of_perm ((script.agree c).nodup r) hperm
    ((script.agree c).le_length hkind r), ← htargets, Script.delivered]
  cases hkind' : script.kind c with
  | various => exact absurd hkind' hkind
  | known => rw [List.length_map]
  | unknown => rw [List.length_map]

lemma receiving_end (hkind : script.kind c = .known) :
    receiving script sorting next count r c sources
      = rankAt script sorting next count r ⟨c + 1, .before⟩ := by
  have hne : script.kind c ≠ .various := by rw [hkind]; decide
  have hlength : (script.call c r).targets.length - sources.length = 0 := by
    rw [hperm.length_eq, script.sourcesOf_eq_targets hne, Nat.sub_self]
  rw [receiving_known hkind, hlength, waitall, after_fill hperm hne]

lemma receiving_barrier (hkind : script.kind c ≠ .known) :
    receiving script sorting next count r c sources
      = .barrier (rankAt script sorting next count r ⟨c + 1, .before⟩) := by
  cases hkind' : script.kind c with
  | known => exact absurd hkind' hkind
  | unknown =>
      have hne : script.kind c ≠ .various := by rw [hkind']; decide
      have hlength : (script.call c r).targets.length - sources.length = 0 := by
        rw [hperm.length_eq, script.sourcesOf_eq_targets hne, Nat.sub_self]
      rw [receiving_unknown hkind', hlength, iprobe, after_fill hperm hne]
  | various =>
      have hsorted : sources.mergeSort = script.sourcesOf c r :=
        ((List.mergeSort_perm _ _).trans hperm).eq_of_pairwise'
          (List.pairwise_mergeSort' (· ≤ ·) _)
          (((script.messages c).sourcesOf_sorted r).imp LT.lt.le)
      rw [receiving_various hkind', hperm.length_eq, Nat.sub_self, probe, finish, reorder_sources,
        hsorted, ← after_delivered, Script.delivered, hkind']

end Received

/-- **What a rank can do next** where it is. -/
inductive Acts (script : Script size T) (sorting : Sorting ℕ)
    (next : Fin size → List (Stored size T) → Call size T) (count : ℕ) (r : Fin size) :
    Position size → Rank size T (Option (List (Stored size T))) → Prop
  | done : Acts script sorting next count r ⟨count, .before⟩ (.done (some (script.log count r)))
  | reduce {c : ℕ} {k : (Fin size → ℕ) → Rank size T (Option (List (Stored size T)))}
    (hc : c < count) (hkind : script.kind c = .various)
    (hk : k (allreduce fun i => smsgcounter (script.call c i).targets)
      = rankAt script sorting next count r ⟨c, .within 0 []⟩) :
    Acts script sorting next count r ⟨c, .before⟩
      (.reduce (smsgcounter (script.call c r).targets) k)
  | send {c sent : ℕ} {sources : List (Fin size)} (hlt : sent < (script.call c r).targets.length) :
    Acts script sorting next count r ⟨c, .within sent sources⟩
      (.send (script.call c r).targets[sent]
        (script.addressed c r (script.call c r).targets[sent])
        (rankAt script sorting next count r ⟨c, .within (sent + 1) sources⟩))
  | wait {c sent : ℕ} {sources pending : List (Fin size)}
    {k : Fin size → List T → Rank size T (Option (List (Stored size T)))}
    (hsent : (script.call c r).targets.length ≤ sent)
    (hless : sources.length < (script.sourcesOf c r).length)
    (hpending : ∀ source, source ∈ pending ↔ source ∈ script.sourcesOf c r ∧ source ∉ sources)
    (hk : ∀ source ∈ script.sourcesOf c r, source ∉ sources → k source (script.addressed c source r)
      = rankAt script sorting next count r ⟨c, .within sent (sources ++ [source])⟩) :
    Acts script sorting next count r ⟨c, .within sent sources⟩ (.wait pending k)
  | probe {c sent : ℕ} {sources : List (Fin size)} (hkind : script.kind c ≠ .known)
    (hsent : (script.call c r).targets.length ≤ sent)
    (hless : sources.length < (script.sourcesOf c r).length)
    {k : Fin size → List T → Rank size T (Option (List (Stored size T)))}
    (hk : ∀ source ∈ script.sourcesOf c r, source ∉ sources → k source (script.addressed c source r)
      = rankAt script sorting next count r ⟨c, .within sent (sources ++ [source])⟩) :
    Acts script sorting next count r ⟨c, .within sent sources⟩ (.probe k)
  | barrier {c sent : ℕ} {sources : List (Fin size)} (hkind : script.kind c ≠ .known)
    (hsent : (script.call c r).targets.length ≤ sent)
    (hperm : sources.Perm (script.sourcesOf c r)) :
    Acts script sorting next count r ⟨c, .within sent sources⟩
      (.barrier (rankAt script sorting next count r ⟨c + 1, .before⟩))

/-- **A rank that has sent its messages** waits for those of the other sources. -/
lemma acts_of_lt {sent : ℕ} {sources : List (Fin size)} (hsub : sources ⊆ script.sourcesOf c r)
    (hsent : (script.call c r).targets.length ≤ sent)
    (hless : sources.length < (script.sourcesOf c r).length) :
    Acts script sorting next count r ⟨c, .within sent sources⟩
      (rankAt script sorting next count r ⟨c, .within sent sources⟩) := by
  rw [rankAt_of_le hsent]
  by_cases hkind : script.kind c = .known
  · obtain ⟨pending, k, hwait, hpending, hk⟩ :=
      receiving_wait sorting next count hsub hkind hless
    rw [hwait]
    refine .wait hsent hless hpending fun source hsource hout => ?_
    rw [hk source hsource hout, rankAt_of_le hsent]
  · obtain ⟨k, hprobe, hk⟩ := receiving_probe sorting next count hkind hless
    rw [hprobe]
    refine .probe hkind hsent hless fun source hsource hout => ?_
    rw [hk source hsource hout, rankAt_of_le hsent]

end Ranks

/-! ## The messages between two ranks -/

def among (ranks : List (Fin size)) (r : Fin size) (m : List T) : List (List T) :=
  if ranks.contains r then [m] else []

section Among

variable {ranks ranks' : List (Fin size)} {r r' : Fin size} {m : List T}

lemma among_of_mem (h : r ∈ ranks) : among ranks r m = [m] :=
  if_pos (List.contains_iff_mem.mpr h)

lemma among_of_notMem (h : r ∉ ranks) : among ranks r m = [] :=
  if_neg (mt List.contains_iff_mem.mp h)

lemma among_congr (h : r ∈ ranks ↔ r' ∈ ranks') : among ranks r m = among ranks' r' m := by
  by_cases hmem : r ∈ ranks
  · rw [among_of_mem hmem, among_of_mem (h.mp hmem)]
  · rw [among_of_notMem hmem, among_of_notMem (mt h.mpr hmem)]

lemma among_concat {last : Fin size} (h : last ∉ ranks) :
    among (ranks ++ [last]) r m = among ranks r m ++ if r = last then [m] else [] := by
  by_cases hlast : r = last
  · rw [if_pos hlast, hlast, among_of_notMem h, List.nil_append]
    exact among_of_mem (List.mem_append_right _ List.mem_cons_self)
  · rw [if_neg hlast, List.append_nil]
    refine among_congr ?_
    rw [List.mem_append, List.mem_singleton, or_iff_left hlast]

end Among

section Histories

variable (script : Script size T)

def message (source dst : Fin size) (c : ℕ) : List (List T) :=
  among (script.call c source).targets dst (script.addressed c source dst)

def history (source dst : Fin size) (c : ℕ) : List (List T) :=
  (List.range c).flatMap (message script source dst)

def Position.sentTo (p : Position size) (source dst : Fin size) : List (List T) :=
  history script source dst p.call ++
    among ((script.call p.call source).targets.take p.stage.sent) dst
      (script.addressed p.call source dst)

def Position.receivedFrom (p : Position size) (source dst : Fin size) : List (List T) :=
  history script source dst p.call ++
    among p.stage.sources source (script.addressed p.call source dst)

variable {script} {source dst : Fin size}

lemma history_succ (c : ℕ) : history script source dst (c + 1)
    = history script source dst c ++ message script source dst c := by
  rw [history, List.range_succ, List.flatMap_append, List.flatMap_singleton, history]

lemma history_mono {c c' : ℕ} (h : c ≤ c') :
    history script source dst c <+: history script source dst c' := by
  induction c', h using Nat.le_induction with
  | base => exact List.prefix_rfl
  | succ c' _ ih =>
      rw [history_succ]
      exact ih.trans (List.prefix_append _ _)

lemma sentTo_within (p : Position size) :
    p.sentTo script source dst <+: history script source dst (p.call + 1) := by
  rw [Position.sentTo, history_succ, List.prefix_append_right_inj, message]
  by_cases hmem : dst ∈ (script.call p.call source).targets.take p.stage.sent
  · rw [among_of_mem hmem, among_of_mem (List.mem_of_mem_take hmem)]
  · rw [among_of_notMem hmem]
    exact List.nil_prefix

lemma sentTo_before (c : ℕ) :
    Position.sentTo script ⟨c, .before⟩ source dst = history script source dst c :=
  (congrArg _ (among_of_notMem List.not_mem_nil)).trans (List.append_nil _)

lemma receivedFrom_before (c : ℕ) :
    Position.receivedFrom script ⟨c, .before⟩ source dst = history script source dst c :=
  (congrArg _ (among_of_notMem List.not_mem_nil)).trans (List.append_nil _)

lemma sentTo_succ {c sent : ℕ} {sources : List (Fin size)}
    (hle : (script.call c source).targets.length ≤ sent) :
    Position.sentTo script ⟨c + 1, .before⟩ source dst
      = Position.sentTo script ⟨c, .within sent sources⟩ source dst := by
  rw [sentTo_before, history_succ, Position.sentTo, message]
  dsimp only [Stage.sent]
  rw [List.take_of_length_le hle]

lemma receivedFrom_succ {c sent : ℕ} {sources : List (Fin size)}
    (hperm : sources.Perm (script.sourcesOf c dst)) :
    Position.receivedFrom script ⟨c + 1, .before⟩ source dst
      = Position.receivedFrom script ⟨c, .within sent sources⟩ source dst := by
  rw [receivedFrom_before, history_succ]
  exact congrArg _ (among_congr (hperm.mem_iff.trans script.mem_sourcesOf).symm)

lemma sentTo_send {c sent : ℕ} {sources : List (Fin size)}
    (hlt : sent < (script.call c source).targets.length) :
    Position.sentTo script ⟨c, .within (sent + 1) sources⟩ source dst
      = Position.sentTo script ⟨c, .within sent sources⟩ source dst ++
        if dst = (script.call c source).targets[sent] then [script.addressed c source dst]
        else [] := by
  have hnew : (script.call c source).targets[sent]
      ∉ (script.call c source).targets.take sent := by
    intro hmem
    obtain ⟨j, hj, heq⟩ := List.mem_take_iff_getElem.mp hmem
    have := (((script.agree c).nodup source).getElem_inj_iff).mp heq
    omega
  rw [Position.sentTo, Position.sentTo, List.append_assoc]
  dsimp only [Stage.sent]
  rw [List.take_succ_eq_append_getElem hlt, among_concat hnew]

lemma receivedFrom_receive {c sent : ℕ} {sources : List (Fin size)} {last : Fin size}
    (hout : last ∉ sources) :
    Position.receivedFrom script ⟨c, .within sent (sources ++ [last])⟩ source dst
      = Position.receivedFrom script ⟨c, .within sent sources⟩ source dst ++
        if source = last then [script.addressed c source dst] else [] := by
  rw [Position.receivedFrom, Position.receivedFrom, List.append_assoc]
  dsimp only [Stage.sources]
  rw [among_concat hout]

section Channel

variable {p q : Position size} {chan : List (List T)}
  (h : p.sentTo script source dst = q.receivedFrom script source dst ++ chan)

include h

/-- **A message in flight to a rank in the last call** is one that it has not received. -/
lemma notMem_of_le (hle : p.call ≤ q.call) (hne : chan ≠ []) :
    source ∈ script.sourcesOf q.call dst ∧ source ∉ q.stage.sources := by
  have hprefix : p.sentTo script source dst <+: history script source dst (q.call + 1) :=
    (sentTo_within p).trans (history_mono (Nat.succ_le_succ hle))
  rw [h, Position.receivedFrom, history_succ, List.append_assoc, List.prefix_append_right_inj,
    message] at hprefix
  have hlength := hprefix.length_le
  have hpos := List.length_pos_iff.mpr hne
  rw [List.length_append] at hlength
  by_cases hmem : dst ∈ (script.call q.call source).targets
  · refine ⟨script.mem_sourcesOf.mpr hmem, fun hin => ?_⟩
    rw [among_of_mem hmem, among_of_mem hin, List.length_singleton] at hlength
    omega
  · rw [among_of_notMem hmem, List.length_nil] at hlength
    omega

/-- **The first message in flight** is that of the call of the receiver. -/
lemma eq_addressed {m : List T} {rest : List (List T)} (hchan : chan = m :: rest)
    (hsource : source ∈ script.sourcesOf q.call dst) (hout : source ∉ q.stage.sources) :
    m = script.addressed q.call source dst := by
  have hmessage : message script source dst q.call = [script.addressed q.call source dst] :=
    among_of_mem (script.mem_sourcesOf.mp hsource)
  rw [Position.receivedFrom, among_of_notMem hout, List.append_nil, hchan] at h
  have hcomparable : history script source dst q.call ++ m :: rest
      <+: history script source dst (q.call + 1) ∨
      history script source dst (q.call + 1) <+: history script source dst q.call ++ m :: rest := by
    rw [← h]
    rcases Nat.lt_or_ge q.call p.call with hlt | hge
    · exact Or.inr ((history_mono hlt).trans (List.prefix_append _ _))
    · exact Or.inl ((sentTo_within p).trans (history_mono (Nat.succ_le_succ hge)))
  rw [history_succ, hmessage, List.prefix_append_right_inj, List.prefix_append_right_inj]
    at hcomparable
  rcases hcomparable with hprefix | hprefix
  · exact (List.cons_prefix_cons.mp hprefix).1
  · exact (List.cons_prefix_cons.mp hprefix).1.symm

lemma ne_nil_of_sent (hsource : source ∈ script.sourcesOf q.call dst)
    (hout : source ∉ q.stage.sources)
    (hsent : q.call < p.call ∨ q.call = p.call ∧
      (script.call p.call source).targets.length ≤ p.stage.sent) : chan ≠ [] := by
  have hmem := script.mem_sourcesOf.mp hsource
  rintro rfl
  rw [List.append_nil, Position.receivedFrom, among_of_notMem hout, List.append_nil] at h
  have hle : history script source dst (q.call + 1) <+: p.sentTo script source dst := by
    rcases hsent with hlt | ⟨heq, hle⟩
    · exact (history_mono hlt).trans (List.prefix_append _ _)
    · rw [history_succ, Position.sentTo, ← heq, message, among_of_mem hmem, among_of_mem]
      rwa [List.take_of_length_le (heq ▸ hle)]
  have hlength := hle.length_le
  rw [h, history_succ, message, among_of_mem hmem, List.length_append, List.length_singleton] at hlength
  omega

end Channel

end Histories

/-! ## All ranks -/

section Runs

variable (script : Script size T) (sorting : Sorting ℕ)
  (next : Fin size → List (Stored size T) → Call size T) (count : ℕ)

/-- A rank is in a call that it makes, or behind them, and it has not done more than it does. -/
def Position.Valid (r : Fin size) (p : Position size) : Prop :=
  match p.stage with
  | .before => p.call ≤ count
  | .within sent sources => p.call < count ∧ sent ≤ (script.call p.call r).targets.length ∧
      sources.Nodup ∧ sources ⊆ script.sourcesOf p.call r

/-- **Barriers and reductions**: ranks are in different calls only if there is no barrier between
them, and in a call with a reduction together. -/
structure Synced (g : Fin size → Position size) : Prop where
  known_of_lt : ∀ r r' c, (g r).call ≤ c → c < (g r').call → script.kind c = .known
  together : ∀ r, script.kind (g r).call = .various → (g r).stage ≠ .before →
    ∀ r', (g r').call = (g r).call ∧ (g r').stage ≠ .before

/-- **While the ranks make their calls**, what is sent and not received is in flight. -/
structure Running (g : Fin size → Position size)
    (s : Net (Fin size) (List T) (Fin size → ℕ) (Option (List (Stored size T)))) : Prop where
  proc_eq : ∀ r, s.proc r = rankAt script sorting next count r (g r)
  valid : ∀ r, (g r).Valid script count r
  chan_eq : ∀ source dst, (g source).sentTo script source dst
    = (g dst).receivedFrom script source dst ++ s.chan source dst
  synced : Synced script g

def cost (r : Fin size) (c : ℕ) : ℕ :=
  2 + (script.call c r).targets.length + (script.sourcesOf c r).length

def Position.steps (r : Fin size) (p : Position size) : ℕ :=
  ∑ c ∈ Finset.range p.call, cost script r c +
    match p.stage with
    | .before => 0
    | .within sent sources => 1 + sent + sources.length

def remaining (g : Fin size → Position size) : ℕ :=
  ∑ r, (∑ c ∈ Finset.range count, cost script r c - (g r).steps script r)

variable {script count} {r : Fin size} {p : Position size}

lemma steps_succ (c : ℕ) : Position.steps script r ⟨c + 1, .before⟩
    = Position.steps script r ⟨c, .before⟩ + cost script r c :=
  Finset.sum_range_succ _ _

lemma steps_within (c sent : ℕ) (sources : List (Fin size)) :
    Position.steps script r ⟨c, .within sent sources⟩
      = Position.steps script r ⟨c, .before⟩ + (1 + sent + sources.length) := rfl

lemma Position.Valid.steps_lt {c sent : ℕ} {sources : List (Fin size)}
    (h : Position.Valid script count r ⟨c, .within sent sources⟩) :
    Position.steps script r ⟨c, .within sent sources⟩
      < Position.steps script r ⟨c + 1, .before⟩ := by
  obtain ⟨-, hsent, hnodup, hsub⟩ := h
  have hlength := (List.subperm_of_subset hnodup hsub).length_le
  rw [steps_within, steps_succ, cost]
  dsimp only at hsent hlength
  omega

lemma Position.Valid.steps_le (h : p.Valid script count r) :
    p.steps script r ≤ ∑ c ∈ Finset.range count, cost script r c := by
  have hmono : ∀ c ≤ count, Position.steps script r ⟨c, .before⟩
      ≤ ∑ c ∈ Finset.range count, cost script r c := fun c hc =>
    Finset.sum_le_sum_of_subset (Finset.range_mono hc)
  obtain ⟨c, _ | ⟨sent, sources⟩⟩ := p
  · exact hmono c h
  · exact h.steps_lt.le.trans (hmono (c + 1) h.1)

lemma remaining_lt {g g' : Fin size → Position size} (hvalid : ∀ r, (g' r).Valid script count r)
    (hle : ∀ r, (g r).steps script r ≤ (g' r).steps script r)
    (hlt : (g r).steps script r < (g' r).steps script r) :
    remaining script count g' < remaining script count g := by
  refine Finset.sum_lt_sum (fun i _ => Nat.sub_le_sub_left (hle i) _) ⟨r, Finset.mem_univ r, ?_⟩
  have := (hvalid r).steps_le
  omega

/-! ## One rank moves -/

lemma congr_update {α : Type} (f : Fin size → Position size → α) {g : Fin size → Position size}
    (h : f r p = f r (g r)) (x : Fin size) : f x (update g r p x) = f x (g x) := by
  rcases eq_or_ne x r with rfl | hne
  · rw [update_self, h]
  · rw [update_of_ne hne]

lemma Synced.within {g : Fin size → Position size} (h : Synced script g)
    (hcall : p.call = (g r).call) (hold : (g r).stage ≠ .before) (hnew : p.stage ≠ .before) :
    Synced script (update g r p) := by
  have hcalls := congr_update (g := g) (fun _ p => p.call) hcall
  have hstages := congr_update (g := g) (fun _ p => p.stage ≠ .before)
    (propext ⟨fun _ => hold, fun _ => hnew⟩)
  refine ⟨fun r r' => ?_, fun r => ?_⟩
  · rw [hcalls, hcalls]
    exact h.known_of_lt r r'
  · rw [hcalls, hstages]
    intro hkind hne r'
    rw [hcalls, hstages]
    exact h.together r hkind hne r'

lemma Synced.skip {g : Fin size → Position size} (h : Synced script g)
    (hkind : script.kind (g r).call ≠ .various)
    (hcall : p.call = (g r).call ∨ p.call = (g r).call + 1 ∧ script.kind (g r).call = .known)
    (hstage : script.kind p.call = .various → p.stage = .before) :
    Synced script (update g r p) := by
  have hle : ∀ i, (g i).call ≤ (update g r p i).call := by
    intro i
    rcases eq_or_ne i r with rfl | hne
    · rw [update_self]
      omega
    · rw [update_of_ne hne]
  refine ⟨fun i i' c hi hi' => ?_, fun i hvarious hne => ?_⟩
  · rcases Nat.lt_or_ge c (g i').call with hlt | hge
    · exact h.known_of_lt i i' c ((hle i).trans hi) hlt
    · rcases eq_or_ne i' r with rfl | hne
      · rw [update_self] at hi'
        rcases hcall with heq | ⟨heq, hknown⟩
        · omega
        · rwa [show c = (g i').call by omega]
      · rw [update_of_ne hne] at hi'
        omega
  · rcases eq_or_ne i r with rfl | hir
    · rw [update_self] at hvarious hne
      exact absurd (hstage hvarious) hne
    · rw [update_of_ne hir] at hvarious hne
      rw [← (h.together i hvarious hne r).1] at hvarious
      exact absurd hvarious hkind

lemma Synced.of_const (c : ℕ) {stage : Stage size} : Synced script fun _ => ⟨c, stage⟩ :=
  ⟨fun _ _ _ hle hlt => absurd hlt hle.not_gt, fun _ _ hne _ => ⟨rfl, hne⟩⟩

section Move

variable {sorting : Sorting ℕ} {next : Fin size → List (Stored size T) → Call size T}
  {g : Fin size → Position size}
  {s : Net (Fin size) (List T) (Fin size → ℕ) (Option (List (Stored size T)))}
  (h : Running script sorting next count g s)

include h

lemma Running.move {chan : Fin size → Fin size → List (List T)}
    (hvalid : p.Valid script count r) (hsynced : Synced script (update g r p))
    (hchan : ∀ source dst, (update g r p source).sentTo script source dst
      = (update g r p dst).receivedFrom script source dst ++ chan source dst)
    (hsteps : (g r).steps script r < p.steps script r) :
    ∃ g', Running script sorting next count g'
        ⟨update s.proc r (rankAt script sorting next count r p), chan⟩ ∧
      remaining script count g' < remaining script count g := by
  have hvalid' : ∀ r', (update g r p r').Valid script count r' := by
    intro r'
    rcases eq_or_ne r' r with rfl | hne
    · rwa [update_self]
    · rw [update_of_ne hne]
      exact h.valid r'
  refine ⟨update g r p, ⟨fun r' => ?_, hvalid', hchan, hsynced⟩,
    remaining_lt (r := r) hvalid' (fun r' => ?_) (by rwa [update_self])⟩
  · dsimp only
    rcases eq_or_ne r' r with rfl | hne
    · rw [update_self, update_self]
    · rw [update_of_ne hne, update_of_ne hne, h.proc_eq]
  · rcases eq_or_ne r' r with rfl | hne
    · rw [update_self]
      exact hsteps.le
    · rw [update_of_ne hne]

lemma Running.send {c sent : ℕ} {sources : List (Fin size)}
    (hp : g r = ⟨c, .within sent sources⟩) (hlt : sent < (script.call c r).targets.length) :
    ∃ g', Running script sorting next count g'
        ⟨update s.proc r (rankAt script sorting next count r ⟨c, .within (sent + 1) sources⟩),
          MsgPass.setChan s.chan r (script.call c r).targets[sent]
            (s.chan r (script.call c r).targets[sent] ++
              [script.addressed c r (script.call c r).targets[sent]])⟩ ∧
      remaining script count g' < remaining script count g := by
  have hvalid := h.valid r
  rw [hp] at hvalid
  obtain ⟨hc, hsent, hnodup, hsub⟩ := hvalid
  refine h.move ⟨hc, hlt, hnodup, hsub⟩ (h.synced.within (by rw [hp]) (by rw [hp]; nofun) nofun)
    (fun source dst => ?_) ?_
  · have hreceived := congr_update (r := r) (p := ⟨c, .within (sent + 1) sources⟩) (g := g)
      (fun x p => p.receivedFrom script source x) (by rw [hp]; rfl) dst
    rw [hreceived]
    rcases eq_or_ne source r with rfl | hne
    · rw [update_self, sentTo_send hlt, ← hp, h.chan_eq, List.append_assoc]
      refine congrArg _ ?_
      by_cases hdst : dst = (script.call c source).targets[sent]
      · rw [if_pos hdst, hdst, MsgPass.setChan_self]
      · rw [if_neg hdst, List.append_nil, MsgPass.setChan_other _ _ fun heq => hdst heq.2]
    · rw [update_of_ne hne, h.chan_eq, MsgPass.setChan_other _ _ fun heq => hne heq.1]
  · rw [hp, steps_within, steps_within]
    omega

lemma Running.receive {c sent : ℕ} {sources : List (Fin size)}
    (hp : g r = ⟨c, .within sent sources⟩) {source : Fin size}
    (hsource : source ∈ script.sourcesOf c r) (hout : source ∉ sources) {m : List T}
    {rest : List (List T)} (hchan : s.chan source r = m :: rest) :
    m = script.addressed c source r ∧
      ∃ g', Running script sorting next count g'
          ⟨update s.proc r
            (rankAt script sorting next count r ⟨c, .within sent (sources ++ [source])⟩),
            MsgPass.setChan s.chan source r rest⟩ ∧
        remaining script count g' < remaining script count g := by
  have hvalid := h.valid r
  rw [hp] at hvalid
  obtain ⟨hc, hsent, hnodup, hsub⟩ := hvalid
  have hm : m = script.addressed c source r := by
    have := eq_addressed (q := g r) (h.chan_eq source r) hchan (by rw [hp]; exact hsource)
      (by rw [hp]; exact hout)
    rwa [hp] at this
  refine ⟨hm, h.move ⟨hc, hsent, ?_, ?_⟩
    (h.synced.within (by rw [hp]) (by rw [hp]; nofun) nofun) (fun source' dst => ?_) ?_⟩
  · rw [(List.perm_append_singleton source sources).nodup_iff]
    exact List.nodup_cons.mpr ⟨hout, hnodup⟩
  · exact List.append_subset.mpr ⟨hsub, List.cons_subset.mpr ⟨hsource, List.nil_subset _⟩⟩
  · have hsentTo := congr_update (r := r) (p := ⟨c, .within sent (sources ++ [source])⟩) (g := g)
      (fun x p => p.sentTo script x dst) (by rw [hp]; rfl) source'
    rw [hsentTo, h.chan_eq]
    rcases eq_or_ne dst r with rfl | hne
    · rw [update_self, receivedFrom_receive hout, ← hp, List.append_assoc]
      refine congrArg _ ?_
      by_cases hlast : source' = source
      · rw [if_pos hlast, hlast, MsgPass.setChan_self, hchan, hm]
        rfl
      · rw [if_neg hlast, List.nil_append, MsgPass.setChan_other _ _ fun heq => hlast heq.1]
    · rw [update_of_ne hne, MsgPass.setChan_other _ _ fun heq => hne heq.2]
  · rw [hp, steps_within, steps_within, List.length_append, List.length_singleton]
    omega

lemma Running.skip (hvalid : p.Valid script count r)
    (hproc : rankAt script sorting next count r p = rankAt script sorting next count r (g r))
    (hsent : ∀ dst, p.sentTo script r dst = (g r).sentTo script r dst)
    (hreceived : ∀ source, p.receivedFrom script source r = (g r).receivedFrom script source r)
    (hkind : script.kind (g r).call ≠ .various)
    (hcall : p.call = (g r).call ∨ p.call = (g r).call + 1 ∧ script.kind (g r).call = .known)
    (hstage : script.kind p.call = .various → p.stage = .before)
    (hsteps : (g r).steps script r < p.steps script r) :
    ∃ g', Running script sorting next count g' s ∧
      remaining script count g' < remaining script count g := by
  have hchan : ∀ source dst, (update g r p source).sentTo script source dst
      = (update g r p dst).receivedFrom script source dst ++ s.chan source dst := by
    intro source dst
    have hsent' := congr_update (g := g) (fun x p => p.sentTo script x dst) (hsent dst) source
    have hreceived' := congr_update (g := g) (fun x p => p.receivedFrom script source x)
      (hreceived source) dst
    rw [hsent', hreceived', h.chan_eq]
  have hmove := h.move hvalid (h.synced.skip hkind hcall hstage) hchan hsteps
  rwa [hproc, ← h.proc_eq, update_eq_self] at hmove

lemma Running.acts_or_skip (hfollows : Follows script next count) (r : Fin size) :
    Acts script sorting next count r (g r) (s.proc r) ∨
      ∃ g', Running script sorting next count g' s ∧
        remaining script count g' < remaining script count g := by
  have hvalid := h.valid r
  have hskip := fun p => h.skip (r := r) (p := p)
  rw [h.proc_eq]
  generalize hp : g r = p at hvalid hskip
  obtain ⟨c, _ | ⟨sent, sources⟩⟩ := p
  · rcases eq_or_lt_of_le (show c ≤ count from hvalid) with rfl | hc
    · left
      rw [rankAt, Nat.sub_self, runCalls]
      exact .done
    · by_cases hkind : script.kind c = .various
      · obtain ⟨k, hk, hreduce⟩ := rankAt_before_of_eq sorting r hfollows hc hkind
        left
        rw [hk]
        exact .reduce hc hkind hreduce
      · right
        refine hskip ⟨c, .within 0 []⟩ ⟨hc, Nat.zero_le _, List.nodup_nil, List.nil_subset _⟩
          (rankAt_before_of_ne hfollows hc hkind).symm (fun dst => rfl) (fun source => rfl) hkind
          (Or.inl rfl) (fun hvarious => absurd hvarious hkind) ?_
        rw [steps_within]
        omega
  · obtain ⟨hc, hsent, hnodup, hsub⟩ := hvalid
    rcases Nat.lt_or_ge sent (script.call c r).targets.length with hlt | hge
    · left
      rw [rankAt_of_lt hlt]
      exact .send hlt
    · rw [rankAt_of_le hge]
      rcases Nat.lt_or_ge sources.length (script.sourcesOf c r).length with hless | hall
      · left
        rw [← rankAt_of_le hge]
        exact acts_of_lt hsub hge hless
      · have hperm : sources.Perm (script.sourcesOf c r) :=
          (List.subperm_of_subset hnodup hsub).perm_of_length_le hall
        by_cases hkind : script.kind c = .known
        · right
          refine hskip ⟨c + 1, .before⟩ hc ?_ (fun dst => sentTo_succ hge)
            (fun source => receivedFrom_succ hperm) (by rw [hkind]; decide)
            (Or.inr ⟨rfl, hkind⟩) (fun _ => rfl)
            (Position.Valid.steps_lt ⟨hc, hsent, hnodup, hsub⟩)
          rw [rankAt_of_le hge, receiving_end hperm hkind]
        · left
          rw [receiving_barrier hperm hkind]
          exact .barrier hkind hge hperm

end Move

lemma Running.exists_acts {sorting : Sorting ℕ}
    {next : Fin size → List (Stored size T) → Call size T} (hfollows : Follows script next count)
    {s : Net (Fin size) (List T) (Fin size → ℕ) (Option (List (Stored size T)))}
    {g : Fin size → Position size} (h : Running script sorting next count g s) :
    ∃ g', Running script sorting next count g' s ∧
      remaining script count g' ≤ remaining script count g ∧
      ∀ r, Acts script sorting next count r (g' r) (s.proc r) := by
  induction hk : remaining script count g using Nat.strong_induction_on generalizing g with
  | h k ih =>
      by_cases hacts : ∀ r, Acts script sorting next count r (g r) (s.proc r)
      · exact ⟨g, h, hk.le, hacts⟩
      · push Not at hacts
        obtain ⟨r, hr⟩ := hacts
        obtain ⟨g', hg', hless⟩ := (h.acts_or_skip hfollows r).resolve_left hr
        obtain ⟨g'', hg'', hle, hacts⟩ := ih _ (hk ▸ hless) hg' rfl
        exact ⟨g'', hg'', by omega, hacts⟩

def start (sorting : Sorting ℕ) (next : Fin size → List (Stored size T) → Call size T)
    (count : ℕ) : Net (Fin size) (List T) (Fin size → ℕ) (Option (List (Stored size T))) :=
  ⟨fun r => runCalls sorting r (next r) count [], fun _ _ => []⟩

def finished (script : Script size T) (count : ℕ) :
    Net (Fin size) (List T) (Fin size → ℕ) (Option (List (Stored size T))) :=
  ⟨fun r => .done (some (script.log count r)), fun _ _ => []⟩

section Steps

variable {sorting : Sorting ℕ} {next : Fin size → List (Stored size T) → Call size T}
  {g : Fin size → Position size}
  {s : Net (Fin size) (List T) (Fin size → ℕ) (Option (List (Stored size T)))}
  (h : Running script sorting next count g s)

include h

/-- **All ranks pass a reduction or a barrier** from the same call. -/
lemma Running.all {proc : Fin size → Rank size T (Option (List (Stored size T)))} (hsize : 0 < size)
    (c : ℕ) (stage : Stage size)
    (hvalid : ∀ r, Position.Valid script count r ⟨c, stage⟩)
    (hproc : ∀ r, proc r = rankAt script sorting next count r ⟨c, stage⟩)
    (hsent : ∀ source dst, Position.sentTo script ⟨c, stage⟩ source dst
      = (g source).sentTo script source dst)
    (hreceived : ∀ source dst, Position.receivedFrom script ⟨c, stage⟩ source dst
      = (g dst).receivedFrom script source dst)
    (hsteps : ∀ r, (g r).steps script r < Position.steps script r ⟨c, stage⟩) :
    ∃ g', Running script sorting next count g' ⟨proc, s.chan⟩ ∧
      remaining script count g' < remaining script count g := by
  refine ⟨fun _ => ⟨c, stage⟩, ⟨hproc, hvalid, fun source dst => ?_, .of_const c⟩,
    remaining_lt (r := ⟨0, hsize⟩) hvalid (fun r => (hsteps r).le) (hsteps _)⟩
  rw [hsent, hreceived, h.chan_eq]

lemma Running.call_eq (hkind : ∀ r, script.kind (g r).call ≠ .known) (r r' : Fin size) :
    (g r).call = (g r').call := by
  rcases lt_trichotomy (g r).call (g r').call with hlt | heq | hlt
  · exact absurd (h.synced.known_of_lt r r' _ le_rfl hlt) (hkind r)
  · exact heq
  · exact absurd (h.synced.known_of_lt r' r _ le_rfl hlt) (hkind r')

lemma Running.reduce (hsize : 0 < size)
    (hacts : ∀ r, Acts script sorting next count r (g r) (s.proc r))
    {v : Fin size → Fin size → ℕ}
    {k : Fin size → (Fin size → ℕ) → Rank size T (Option (List (Stored size T)))}
    (hproc : ∀ r, s.proc r = .reduce (v r) (k r)) :
    ∃ g', Running script sorting next count g' ⟨fun r => k r (allreduce v), s.chan⟩ ∧
      remaining script count g' < remaining script count g := by
  have hr : ∀ r, g r = ⟨(g r).call, .before⟩ ∧ (g r).call < count ∧
      script.kind (g r).call = .various ∧
      v r = smsgcounter (script.call (g r).call r).targets ∧
      k r (allreduce fun i => smsgcounter (script.call (g r).call i).targets)
        = rankAt script sorting next count r ⟨(g r).call, .within 0 []⟩ := by
    intro r
    have hr := hacts r
    rw [hproc] at hr
    generalize g r = p at hr ⊢
    generalize v r = counter at hr ⊢
    cases hr with
    | reduce hc hkind hk => exact ⟨rfl, hc, hkind, rfl, hk⟩
  have hcall := h.call_eq (fun r => by rw [(hr r).2.2.1]; decide) ⟨0, hsize⟩
  generalize (g ⟨0, hsize⟩).call = c at hcall
  simp only [← hcall] at hr
  have hv : v = fun i => smsgcounter (script.call c i).targets :=
    funext fun i => (hr i).2.2.2.1
  refine h.all hsize c (.within 0 [])
    (fun r => ⟨(hr r).2.1, Nat.zero_le _, List.nodup_nil, List.nil_subset _⟩)
    (fun r => by rw [hv]; exact (hr r).2.2.2.2) (fun source dst => ?_) (fun source dst => ?_)
    fun r => ?_
  · rw [(hr source).1]
    rfl
  · rw [(hr dst).1]
    rfl
  · rw [(hr r).1, steps_within]
    omega

lemma Running.barrier (hsize : 0 < size)
    (hacts : ∀ r, Acts script sorting next count r (g r) (s.proc r))
    {k : Fin size → Rank size T (Option (List (Stored size T)))}
    (hproc : ∀ r, s.proc r = .barrier (k r)) :
    ∃ g', Running script sorting next count g' ⟨k, s.chan⟩ ∧
      remaining script count g' < remaining script count g := by
  have hr : ∀ r, ∃ sent sources, g r = ⟨(g r).call, .within sent sources⟩ ∧
      script.kind (g r).call ≠ .known ∧ (script.call (g r).call r).targets.length ≤ sent ∧
      sources.Perm (script.sourcesOf (g r).call r) ∧
      k r = rankAt script sorting next count r ⟨(g r).call + 1, .before⟩ := by
    intro r
    have hr := hacts r
    rw [hproc] at hr
    generalize g r = p at hr ⊢
    generalize k r = proc at hr ⊢
    cases hr with
    | barrier hkind hsent hperm => exact ⟨_, _, rfl, hkind, hsent, hperm, rfl⟩
  choose sent sources hg hkind hsent hperm hk using hr
  have hcall := h.call_eq hkind ⟨0, hsize⟩
  generalize (g ⟨0, hsize⟩).call = c at hcall
  simp only [← hcall] at hg hsent hperm hk
  refine h.all hsize (c + 1) .before (fun r => ?_) hk (fun source dst => ?_)
    (fun source dst => ?_) fun r => ?_
  · have hvalid := h.valid r
    rw [hg] at hvalid
    exact hvalid.1
  · rw [hg]
    exact sentTo_succ (hsent source)
  · rw [hg]
    exact receivedFrom_succ (hperm dst)
  · have hvalid := h.valid r
    rw [hg] at hvalid ⊢
    exact hvalid.steps_lt

lemma Running.step (hsize : 0 < size)
    (hacts : ∀ r, Acts script sorting next count r (g r) (s.proc r))
    {t : Net (Fin size) (List T) (Fin size → ℕ) (Option (List (Stored size T)))}
    (hstep : Step allreduce s t) :
    ∃ g', Running script sorting next count g' t ∧
      remaining script count g' < remaining script count g := by
  cases hstep with
  | @send r target m k hproc =>
      have hr := hacts r
      rw [hproc] at hr
      generalize hp : g r = p at hr
      cases hr with
      | send hlt => exact h.send hp hlt
  | @probe r source m rest k hproc hchan =>
      have hr := hacts r
      rw [hproc] at hr
      generalize hp : g r = p at hr
      cases hr with
      | @probe c sent sources hkind _ _ _ hk =>
          have hcall : (g source).call ≤ (g r).call := by
            by_contra hlt
            rw [Nat.not_le] at hlt
            have := h.synced.known_of_lt r source _ le_rfl hlt
            rw [hp] at this
            exact hkind this
          have hne : s.chan source r ≠ [] := by
            rw [hchan]
            exact List.cons_ne_nil _ _
          obtain ⟨hsource, hout⟩ := notMem_of_le (h.chan_eq source r) hcall hne
          rw [hp] at hsource hout
          obtain ⟨rfl, hreceive⟩ := h.receive hp hsource hout hchan
          rwa [hk source hsource hout]
  | @wait r source m rest pending k hproc hmem hchan =>
      have hr := hacts r
      rw [hproc] at hr
      generalize hp : g r = p at hr
      cases hr with
      | wait _ _ hpending hk =>
          obtain ⟨hsource, hout⟩ := (hpending source).mp hmem
          obtain ⟨rfl, hreceive⟩ := h.receive hp hsource hout hchan
          rwa [hk source hsource hout]
  | reduce hproc => exact h.reduce hsize hacts hproc
  | barrier hproc => exact h.barrier hsize hacts hproc

section Progress

variable (hacts : ∀ r, Acts script sorting next count r (g r) (s.proc r))

include hacts

lemma Running.chan_ne_nil {c sent : ℕ} {sources : List (Fin size)}
    (hp : g r = ⟨c, .within sent sources⟩) {source : Fin size}
    (hle : (g r).call ≤ (g source).call) (hsource : source ∈ script.sourcesOf c r)
    (hout : source ∉ sources) : (∃ t, Step allreduce s t) ∨ s.chan source r ≠ [] := by
  have hvalid := h.valid r
  have htogether := h.synced.together r
  have hchan := h.chan_eq source r
  have hsource' := hacts source
  rw [hp] at hvalid htogether hchan hle
  rcases hle.lt_or_eq with hlt | heq
  · exact Or.inr (ne_nil_of_sent hchan hsource hout (Or.inl hlt))
  · have hin := ne_nil_of_sent hchan hsource hout
    generalize hq : g source = q at hsource' heq hin
    generalize hproc : s.proc source = proc at hsource'
    cases hsource' with
    | done => exact absurd hvalid.1 heq.not_lt
    | reduce _ hkind _ =>
        subst heq
        have hwithin := (htogether hkind nofun source).2
        rw [hq] at hwithin
        exact absurd rfl hwithin
    | send hlt => exact Or.inl ⟨_, .send hproc⟩
    | wait hsent _ _ _ => exact Or.inr (hin (Or.inr ⟨heq, hsent⟩))
    | probe _ hsent _ _ => exact Or.inr (hin (Or.inr ⟨heq, hsent⟩))
    | barrier _ hsent _ => exact Or.inr (hin (Or.inr ⟨heq, hsent⟩))

/-- **A rank that is not ahead of the others** does not wait forever. -/
lemma Running.step_or_barrier {c sent : ℕ} {sources : List (Fin size)}
    (hp : g r = ⟨c, .within sent sources⟩) (hmin : ∀ r', (g r).call ≤ (g r').call) :
    (∃ t, Step allreduce s t) ∨ script.kind c ≠ .known ∧ ∃ k, s.proc r = .barrier k := by
  have hmissing : sources.length < (script.sourcesOf c r).length →
      ∃ source ∈ script.sourcesOf c r, source ∉ sources := by
    intro hless
    by_contra hno
    push Not at hno
    have hle := (List.subperm_of_subset (script.sourcesOf_nodup c r) hno).length_le
    omega
  have hr := hacts r
  rw [hp] at hr
  generalize hproc : s.proc r = proc at hr
  cases hr with
  | send hlt => exact Or.inl ⟨_, .send hproc⟩
  | wait hsent hless hpending hk =>
      left
      obtain ⟨source, hsource, hout⟩ := hmissing hless
      rcases h.chan_ne_nil hacts hp (hmin source) hsource hout with hstep | hne
      · exact hstep
      · obtain ⟨m, rest, hchan⟩ := List.exists_cons_of_ne_nil hne
        exact ⟨_, .wait hproc ((hpending source).mpr ⟨hsource, hout⟩) hchan⟩
  | probe hkind hsent hless hk =>
      left
      obtain ⟨source, hsource, hout⟩ := hmissing hless
      rcases h.chan_ne_nil hacts hp (hmin source) hsource hout with hstep | hne
      · exact hstep
      · obtain ⟨m, rest, hchan⟩ := List.exists_cons_of_ne_nil hne
        exact ⟨_, .probe hproc hchan⟩
  | barrier hkind _ _ => exact Or.inr ⟨hkind, _, rfl⟩

omit hacts in
lemma Running.eq_finished (hcall : ∀ r, count ≤ (g r).call) : s = finished script count := by
  have hg : ∀ r, g r = ⟨count, .before⟩ := by
    intro r
    have hvalid := h.valid r
    have hle := hcall r
    generalize g r = p at hvalid hle ⊢
    obtain ⟨c, _ | ⟨sent, sources⟩⟩ := p
    · rw [show c = count from le_antisymm hvalid hle]
    · exact absurd hle hvalid.1.not_ge
  have hprocs : s.proc = (finished script count).proc := by
    funext r
    rw [h.proc_eq, hg, rankAt, Nat.sub_self, runCalls]
    rfl
  have hchans : s.chan = fun _ _ => [] := by
    funext source dst
    have hchan := h.chan_eq source dst
    rw [hg, hg, sentTo_before, receivedFrom_before] at hchan
    exact List.self_eq_append_right.mp hchan
  exact congrArg₂ Net.mk hprocs hchans

lemma Running.step_of_reduce {c : ℕ} (hp : g r = ⟨c, .before⟩) (hc : c < count)
    (hkind : script.kind c = .various) (hcall : ∀ r', (g r').call = c) :
    ∃ t, Step allreduce s t := by
  have hreduce : ∀ r', ∃ v k, s.proc r' = .reduce v k := by
    intro r'
    have hr' := hacts r'
    have hcall' := hcall r'
    have htogether := h.synced.together r'
    rw [hcall'] at htogether
    replace htogether := fun hne => (htogether hkind hne r).2
    rw [hp] at htogether
    generalize g r' = q at hr' hcall' htogether
    generalize s.proc r' = proc at hr' ⊢
    cases hr' with
    | done => exact absurd hcall' hc.ne'
    | reduce _ _ _ => exact ⟨_, _, rfl⟩
    | send _ => exact absurd rfl (htogether nofun)
    | wait _ _ _ _ => exact absurd rfl (htogether nofun)
    | probe _ _ _ _ => exact absurd rfl (htogether nofun)
    | barrier _ _ _ => exact absurd rfl (htogether nofun)
  choose v k hv using hreduce
  exact ⟨_, .reduce hv⟩

lemma Running.step_of_barrier {c sent : ℕ} {sources : List (Fin size)}
    (hp : g r = ⟨c, .within sent sources⟩) (hcall : ∀ r', (g r').call = c) :
    ∃ t, Step allreduce s t := by
  have hvalid := h.valid r
  have htogether := h.synced.together r
  rw [hp] at hvalid htogether
  have hwithin : ∀ r', ∃ sent sources, g r' = ⟨c, .within sent sources⟩ := by
    intro r'
    have hr' := hacts r'
    have hcall' := hcall r'
    replace htogether := fun hkind => (htogether hkind nofun r').2
    generalize g r' = q at hr' hcall' htogether ⊢
    generalize s.proc r' = proc at hr'
    cases hr' with
    | done => exact absurd hcall' hvalid.1.ne'
    | reduce _ hkind _ =>
        subst hcall'
        exact absurd rfl (htogether hkind)
    | send _ => exact ⟨_, _, congrArg (Position.mk · _) hcall'⟩
    | wait _ _ _ _ => exact ⟨_, _, congrArg (Position.mk · _) hcall'⟩
    | probe _ _ _ _ => exact ⟨_, _, congrArg (Position.mk · _) hcall'⟩
    | barrier _ _ _ => exact ⟨_, _, congrArg (Position.mk · _) hcall'⟩
  by_cases hbarrier : ∀ r', ∃ k, s.proc r' = .barrier k
  · choose k hk using hbarrier
    exact ⟨_, .barrier hk⟩
  · push Not at hbarrier
    obtain ⟨r', hr'⟩ := hbarrier
    obtain ⟨sent', sources', hg'⟩ := hwithin r'
    rcases h.step_or_barrier hacts hg' (fun i => by rw [hcall, hcall]) with hstep | ⟨-, k, hk⟩
    · exact hstep
    · exact absurd hk (hr' k)

/-- **There is a step** until all ranks have made their calls: the rank that is behind the others
can act, or all ranks have come to the same barrier or reduction. -/
lemma Running.exists_step (hsize : 0 < size) :
    s = finished script count ∨ ∃ t, Step allreduce s t := by
  have hranks : Nonempty (Fin size) := ⟨⟨0, hsize⟩⟩
  obtain ⟨r, hmin⟩ := Finite.exists_min fun r => (g r).call
  have hsame : script.kind (g r).call ≠ .known → ∀ r', (g r').call = (g r).call := by
    intro hkind r'
    rcases (hmin r').lt_or_eq with hlt | heq
    · exact absurd (h.synced.known_of_lt r r' _ le_rfl hlt) hkind
    · exact heq.symm
  have hr := hacts r
  generalize hp : g r = p at hr hmin hsame
  obtain ⟨c, _ | ⟨sent, sources⟩⟩ := p
  · generalize s.proc r = proc at hr
    cases hr with
    | done => exact Or.inl (h.eq_finished hmin)
    | reduce hc hkind _ =>
        exact Or.inr (h.step_of_reduce hacts hp hc hkind (hsame (by rw [hkind]; decide)))
  · right
    rcases h.step_or_barrier hacts hp (by rwa [hp]) with hstep | ⟨hkind, -⟩
    · exact hstep
    · exact h.step_of_barrier hacts hp (hsame hkind)

end Progress

end Steps

lemma running_start (sorting : Sorting ℕ) (next : Fin size → List (Stored size T) → Call size T) :
    Running script sorting next count (fun _ => ⟨0, .before⟩) (start sorting next count) where
  proc_eq _ := rfl
  valid _ := Nat.zero_le count
  chan_eq source dst := by
    rw [sentTo_before, receivedFrom_before]
    exact (List.append_nil _).symm
  synced := .of_const 0

end Runs

/-! ## An example -/

def other (r : Fin 2) : Fin 2 := [⟨1, Nat.one_lt_two⟩, ⟨0, Nat.zero_lt_two⟩].getD r.val r

/-- Two ranks exchange buffers of known size, then of unknown size, and then send to each other. -/
def callOf : ℕ → Fin 2 → Call 2 ℕ
  | 0, r => .exchangeKnownSize 1 [[r.val]] [[9]] [other r]
  | 1, r => .exchangeUnknownSize 1 [[r.val, 2]] [[]] [other r]
  | 2, r => .exchangeUnknownSizeSame 1 [r.val, 3] [[]] [other r]
  | _ + 3, r => .sendVariousTargets 1 [[r.val, 4, 4]] [] [other r] []

def kindOf : ℕ → Kind
  | 0 => .known
  | 1 => .unknown
  | 2 => .unknown
  | _ + 3 => .various

lemma callOf_agree : ∀ c, Agree (kindOf c) 1 (callOf c)
  | 0 => ⟨by decide, by decide, by decide, by decide, by decide, by decide, by decide, by decide,
    by decide⟩
  | 1 => ⟨by decide, by decide, by decide, by decide, by decide, by decide, by decide, by decide,
    by decide⟩
  | 2 => ⟨by decide, by decide, by decide, by decide, by decide, by decide, by decide, by decide,
    by decide⟩
  | _ + 3 => show Agree .various 1 (callOf 3) from
    ⟨by decide, by decide, by decide, by decide, by decide, by decide, by decide, by decide,
      by decide⟩

def exchanges : Script 2 ℕ := ⟨callOf, kindOf, fun _ => 1, callOf_agree⟩

def nextOf (r : Fin 2) (log : List (Stored 2 ℕ)) : Call 2 ℕ := callOf log.length r

lemma exchanges_follows : Follows exchanges nextOf 4 := by
  intro c _ r
  rw [nextOf, Script.log, List.length_map, List.length_range]
  rfl

end CallSequence

end Espreso
