import Espreso.Basis.Records
import Mathlib.Data.Nat.Log
import Mathlib.Algebra.BigOperators.Group.Finset.Basic
import Mathlib.Algebra.BigOperators.Intervals
import Mathlib.Algebra.Order.BigOperators.Group.Finset

/-!
# The recursive halving exchange

`Communication::allToAllWithDataSizeAndTarget` delivers addressed records among the ranks of a
group.  At each level a group of ranks splits into a lower and an upper half; a rank of the lower
half hands the records for the upper half to its partner there, and takes the records for the lower
half in return.  The lower half is the larger one: with an odd number of ranks its last rank has no
partner, and hands its records to the first rank of the upper half.

* `allToAllWithDataSizeAndTarget` — the program of one rank.
* **`group_evolves`** — the run: a group delivers every record to the rank it is addressed to.
-/

namespace Espreso

open MsgPass

variable {T : Type} [Word T]

/-! ## The program of one rank -/

/-- The merge loop over the ranks of a half.  Three cursors run along the received records, the
records received from the rank without a partner, and the old send buffer; the records for `rank`
are moved to `rBuffer` (its own ones were taken at the start and are dropped). -/
def merge (rank : ℕ) (recv prevsend : List T) (recvmidsize : ℕ) :
    List ℕ → ℕ → ℕ → ℕ → List T → List T → Option (List T × List T)
  | [], _, _, _, send, rBuffer => some (send, rBuffer)
  | r :: rs, recvbegin, recvmidbegin, sendbegin, send, rBuffer => do
    let recvend ← movebefore recv (r + 1) recvbegin recvmidsize
    let recvmidend ← movebefore recv (r + 1) recvmidbegin recv.length
    let sendend ← movebefore prevsend (r + 1) sendbegin prevsend.length
    let received ← slice recv recvbegin recvend
    let receivedmid ← slice recv recvmidbegin recvmidend
    if r = rank then
      merge rank recv prevsend recvmidsize rs recvend recvmidend sendend send
        (rBuffer ++ received ++ receivedmid)
    else do
      let old ← slice prevsend sendbegin sendend
      merge rank recv prevsend recvmidsize rs recvend recvmidend sendend
        (send ++ received ++ receivedmid ++ old) rBuffer

/-- The loop of the lower half, `for (int r = left; r < mid; r++)`: nothing was received from a
rank without a partner. -/
def mergeLower (rank left mid : ℕ) (recv prevsend rBuffer : List T) :
    Option (List T × List T) :=
  merge rank recv prevsend recv.length (List.range' left (mid - left)) 0 recv.length 0 [] rBuffer

/-- The loop of the upper half, `for (int r = mid; r < right; r++)`. -/
def mergeUpper (rank mid right : ℕ) (recv prevsend : List T) (recvmidsize : ℕ)
    (rBuffer : List T) : Option (List T × List T) := do
  let sendbegin ← movebefore prevsend mid 0 prevsend.length
  merge rank recv prevsend recvmidsize (List.range' mid (right - mid)) 0 recvmidsize sendbegin []
    rBuffer

section Roles

variable (multiplier rank left mid right : ℕ) (send rBuffer : List T)
  (next : List T → List T → Rank T)

/-- The last rank of a larger lower half: it has no partner and only sends, to rank `mid`. -/
def lastToUpper : Rank T :=
  guarded (movebefore send rank 0 send.length) fun my =>
  guarded (movebefore send mid my send.length) fun upper =>
  guarded (slice send upper send.length) fun message =>
  if limit < multiplier * (send.length - upper) then refuse rBuffer else
  .send mid message (guarded (slice send 0 my) fun send => next send rBuffer)

def lowerToUpper : Rank T :=
  guarded (movebefore send mid 0 send.length) fun upper =>
  guarded (slice send upper send.length) fun message =>
  if limit < multiplier * (send.length - upper) then refuse rBuffer else
  .send (rank + (mid - left)) message (.recv (rank + (mid - left)) fun recv =>
    guarded (mergeLower rank left mid recv send rBuffer) fun out => next out.1 out.2)

/-- The end of a level in the upper half, after the exchange with the partner: the first rank of a
smaller upper half receives once more. -/
def upperTail (recv : List T) : Rank T :=
  if mid - left > right - mid ∧ rank = mid then
    .recv (mid - 1) fun recvmid =>
      guarded (mergeUpper rank mid right (recv ++ recvmid) send recv.length rBuffer) fun out =>
        next out.1 out.2
  else
    guarded (mergeUpper rank mid right recv send recv.length rBuffer) fun out => next out.1 out.2

def upperToLower : Rank T :=
  guarded (movebefore send mid 0 send.length) fun upper =>
  guarded (slice send 0 upper) fun message =>
  .recv (rank - (mid - left)) fun recv =>
    if limit < multiplier * upper then refuse rBuffer else
    .send (rank - (mid - left)) message
      (upperTail rank left mid right send rBuffer next recv)

end Roles

def midpoint (left right : ℕ) : ℕ := left + (right - left) / 2 + (right - left) % 2

/-- The loop over the levels, by the number of levels that are left. -/
def level (multiplier rank : ℕ) : ℕ → ℕ → ℕ → List T → List T → Rank T
  | 0, _, _, _, rBuffer => .done (some (true, rBuffer))
  | l + 1, left, right, send, rBuffer =>
    if left + 1 < right then
      let mid := midpoint left right
      if rank < mid then
        if right ≤ rank + (mid - left) then
          lastToUpper multiplier rank mid send rBuffer fun send rBuffer =>
            level multiplier rank l left mid send rBuffer
        else
          lowerToUpper multiplier rank left mid send rBuffer fun send rBuffer =>
            level multiplier rank l left mid send rBuffer
      else
        upperToLower multiplier rank left mid right send rBuffer fun send rBuffer =>
          level multiplier rank l mid right send rBuffer
    else .done (some (true, rBuffer))

/-- `Communication::allToAllWithDataSizeAndTarget` on rank `rank` of a group of `size` ranks; the
number of levels is `ceil(log2(size))`. -/
def allToAllWithDataSizeAndTarget (multiplier size rank : ℕ) (sBuffer rBuffer : List T) : Rank T :=
  guarded (movebefore sBuffer rank 0 sBuffer.length) fun mybegin =>
  guarded (movebefore sBuffer (rank + 1) mybegin sBuffer.length) fun myend =>
  guarded (slice sBuffer mybegin myend) fun own =>
  level multiplier rank (Nat.clog 2 size) 0 size sBuffer (rBuffer ++ own)

/-! ## Merging records -/

/-- The records the merge loop keeps for the other ranks of the half. -/
def regroup (rank first n : ℕ) (R M S : List (Record T)) : List (Record T) :=
  (List.range' first n).flatMap fun r =>
    if r = rank then [] else addressed r R ++ addressed r M ++ addressed r S

/-- The records the merge loop moves to `rBuffer`. -/
def taken (rank first n : ℕ) (R M : List (Record T)) : List (Record T) :=
  (List.range' first n).flatMap fun r => if r = rank then addressed r R ++ addressed r M else []

lemma merge_eq (rank : ℕ) {R M S : List (Record T)} (hR : Sorted R) (hM : Sorted M)
    (hS : Sorted S) : ∀ (n first : ℕ) (send rBuffer : List T),
      merge rank (flatten R ++ flatten M) (flatten S) (flatten R).length (List.range' first n)
        (flatten (below first R)).length ((flatten R).length + (flatten (below first M)).length)
        (flatten (below first S)).length send rBuffer
      = some (send ++ flatten (regroup rank first n R M S),
          rBuffer ++ flatten (taken rank first n R M)) := by
  intro n
  induction n with
  | zero => intro first send rBuffer; simp [merge, regroup, taken]
  | succ n ih =>
      intro first send rBuffer
      have hle : (first : ℤ) ≤ (first : ℤ) + 1 := by omega
      have hr₁ := movebefore_window [] (flatten M) hR hle
      have hr₂ := slice_window [] (flatten M) hR hle
      have hm₁ := movebefore_window (flatten R) [] hM hle
      have hm₂ := slice_window (flatten R) [] hM hle
      have hs₁ := movebefore_from hS hle
      have hs₂ := slice_from hS hle
      simp only [List.length_nil, Nat.zero_add, List.nil_append, List.append_nil,
        between_succ] at hr₁ hr₂ hm₁ hm₂ hs₁ hs₂
      have hnext := ih (first + 1)
      push_cast at hnext
      rw [List.range'_succ, merge]
      simp only [List.length_append, hr₁, hr₂, hm₁, hm₂, hs₁, hs₂, Option.bind_eq_bind,
        Option.bind_some, hnext]
      split <;> rename_i h <;>
        simp [regroup, taken, List.range'_succ, h]

lemma taken_eq {rank first n : ℕ} (h₁ : first ≤ rank) (h₂ : rank < first + n)
    (R M : List (Record T)) :
    taken rank first n R M = addressed rank R ++ addressed rank M := by
  obtain ⟨k, rfl⟩ : ∃ k, rank = first + k := ⟨rank - first, by omega⟩
  obtain ⟨m, rfl⟩ : ∃ m, n = k + (m + 1) := ⟨n - k - 1, by omega⟩
  have hbefore : taken (first + k) first k R M = [] := by
    refine List.flatMap_eq_nil_iff.mpr fun r hr => ?_
    rw [if_neg (by have := List.mem_range'_1.mp hr; omega)]
  have hafter : taken (first + k) (first + k + 1) m R M = [] := by
    refine List.flatMap_eq_nil_iff.mpr fun r hr => ?_
    rw [if_neg (by have := List.mem_range'_1.mp hr; omega)]
  unfold taken at hbefore hafter ⊢
  rw [← List.range'_append_1, List.flatMap_append, hbefore, List.range'_succ, List.flatMap_cons,
    hafter]
  simp

lemma mem_regroup {rank first n : ℕ} {R M S : List (Record T)} {x : Record T}
    (hx : x ∈ regroup rank first n R M S) :
    (first : ℤ) ≤ x.rank ∧ x.rank < first + n ∧ x.rank ≠ rank := by
  obtain ⟨r, hr, hx⟩ := List.mem_flatMap.mp hx
  have hr' := List.mem_range'_1.mp hr
  split at hx
  · simp at hx
  · have hxr : x.rank = r := by
      simp only [List.mem_append, mem_addressed] at hx
      tauto
    omega

lemma sorted_regroup (rank : ℕ) (R M S : List (Record T)) :
    ∀ n first : ℕ, Sorted (regroup rank first n R M S) := by
  intro n
  induction n with
  | zero => intro first; simp [regroup, Sorted]
  | succ n ih =>
      intro first
      have hcons : regroup rank first (n + 1) R M S
          = (if first = rank then [] else addressed first R ++ addressed first M
              ++ addressed first S) ++ regroup rank (first + 1) n R M S := by
        simp [regroup, List.range'_succ]
      have hhead : ∀ x ∈ (if first = rank then [] else addressed first R ++ addressed first M
              ++ addressed first S : List (Record T)), x.rank = first := by
        intro x hx
        split at hx
        · simp at hx
        · simp only [List.mem_append, mem_addressed] at hx
          tauto
      rw [hcons]
      refine List.pairwise_append.mpr ⟨?_, ih (first + 1), ?_⟩
      · refine List.pairwise_of_forall_mem_list fun x hx y hy => ?_
        rw [hhead x hx, hhead y hy]
      · intro x hx y hy
        have hy' := (mem_regroup hy).1
        rw [hhead x hx]
        push_cast at hy'
        omega

lemma addressed_regroup {rank first n r : ℕ} (h₁ : first ≤ r) (h₂ : r < first + n)
    (hr : r ≠ rank) (R M S : List (Record T)) :
    addressed r (regroup rank first n R M S) = addressed r R ++ addressed r M ++ addressed r S := by
  have hone : ∀ k : ℕ, addressed r
      (if k = rank then [] else addressed k R ++ addressed k M ++ addressed k S : List (Record T))
      = if k = r then addressed r R ++ addressed r M ++ addressed r S else [] := by
    intro k
    by_cases hk : k = r
    · subst hk
      simp [hr, addressed_append, addressed_addressed]
    · have hk' : ¬((k : ℤ) = r) := by exact_mod_cast hk
      split
      · simp [addressed]
      · simp [addressed_append, addressed_addressed, hk']
  obtain ⟨k, rfl⟩ : ∃ k, r = first + k := ⟨r - first, by omega⟩
  obtain ⟨m, rfl⟩ : ∃ m, n = k + (m + 1) := ⟨n - k - 1, by omega⟩
  have hfilter : addressed (first + k : ℕ) (regroup rank first (k + (m + 1)) R M S)
      = (List.range' first (k + (m + 1))).flatMap fun j => addressed (first + k : ℕ)
          (if j = rank then [] else addressed j R ++ addressed j M ++ addressed j S) := by
    unfold regroup addressed
    rw [List.filter_flatMap]
  rw [hfilter]
  simp only [hone]
  rw [← List.range'_append_1, List.flatMap_append, List.range'_succ, List.flatMap_cons]
  have hbefore : (List.range' first k).flatMap (fun j => if j = first + k then
      addressed (first + k : ℕ) R ++ addressed (first + k : ℕ) M ++ addressed (first + k : ℕ) S
      else []) = [] := by
    refine List.flatMap_eq_nil_iff.mpr fun j hj => ?_
    rw [if_neg (by have := List.mem_range'_1.mp hj; omega)]
  have hafter : (List.range' (first + k + 1) m).flatMap (fun j => if j = first + k then
      addressed (first + k : ℕ) R ++ addressed (first + k : ℕ) M ++ addressed (first + k : ℕ) S
      else []) = [] := by
    refine List.flatMap_eq_nil_iff.mpr fun j hj => ?_
    rw [if_neg (by have := List.mem_range'_1.mp hj; omega)]
  rw [hbefore, hafter]
  simp

/-! ## The three roles -/

section RoleLemmas

variable {multiplier rank left mid right : ℕ} {R M S : List (Record T)} (rBuffer : List T)
  {next : List T → List T → Rank T}

lemma mergeLower_eq (hR : Sorted R) (hS : Sorted S) (hRl : ∀ x ∈ R, (left : ℤ) ≤ x.rank)
    (hSl : ∀ x ∈ S, (left : ℤ) ≤ x.rank) (h₁ : left ≤ rank) (h₂ : rank < mid) :
    mergeLower rank left mid (flatten R) (flatten S) rBuffer
      = some (flatten (regroup rank left (mid - left) R [] S),
          rBuffer ++ flatten (addressed rank R)) := by
  have hmerge := merge_eq rank hR List.Pairwise.nil hS (mid - left) left [] rBuffer
  rw [below_eq_nil hRl, below_eq_nil hSl, taken_eq h₁ (by omega)] at hmerge
  simpa [mergeLower, below, addressed] using hmerge

lemma mergeUpper_eq (hR : Sorted R) (hM : Sorted M) (hS : Sorted S)
    (hRm : ∀ x ∈ R, (mid : ℤ) ≤ x.rank) (hMm : ∀ x ∈ M, (mid : ℤ) ≤ x.rank)
    (h₁ : mid ≤ rank) (h₂ : rank < right) :
    mergeUpper rank mid right (flatten R ++ flatten M) (flatten S) (flatten R).length rBuffer
      = some (flatten (regroup rank mid (right - mid) R M S),
          rBuffer ++ flatten (addressed rank R ++ addressed rank M)) := by
  have hmerge := merge_eq rank hR hM hS (right - mid) mid [] rBuffer
  rw [below_eq_nil hRm, below_eq_nil hMm, taken_eq h₁ (by omega)] at hmerge
  rw [mergeUpper, movebefore_whole hS]
  simpa using hmerge

/-- **The last rank of a larger lower half** hands over all records for the upper half and keeps
those for the ranks before it. -/
theorem lastToUpper_eq (hS : Sorted S) (h : rank ≤ mid) :
    lastToUpper multiplier rank mid (flatten S) rBuffer next
      = if limit < multiplier * (flatten (atLeast mid S)).length then refuse rBuffer
        else .send mid (flatten (atLeast mid S)) (next (flatten (below rank S)) rBuffer) := by
  have hle : (rank : ℤ) ≤ mid := by exact_mod_cast h
  simp only [lastToUpper, movebefore_whole hS, movebefore_from hS hle, slice_atLeast hS,
    slice_below hS, guarded_some, length_sub_below hS]

/-- **A rank of the lower half** hands over the records for the upper half; what it goes on with is
`mergeLower`. -/
theorem lowerToUpper_eq (hS : Sorted S) :
    lowerToUpper multiplier rank left mid (flatten S) rBuffer next
      = if limit < multiplier * (flatten (atLeast mid S)).length then refuse rBuffer
        else .send (rank + (mid - left)) (flatten (atLeast mid S))
          (.recv (rank + (mid - left)) fun recv =>
            guarded (mergeLower rank left mid recv (flatten S) rBuffer) fun out =>
              next out.1 out.2) := by
  simp only [lowerToUpper, movebefore_whole hS, slice_atLeast hS, guarded_some,
    length_sub_below hS]

/-- **A rank of the upper half** takes its partner's records and hands over those for the lower
half. -/
theorem upperToLower_eq (hS : Sorted S) :
    upperToLower multiplier rank left mid right (flatten S) rBuffer next
      = .recv (rank - (mid - left)) fun recv =>
          if limit < multiplier * (flatten (below mid S)).length then refuse rBuffer
          else .send (rank - (mid - left)) (flatten (below mid S))
            (upperTail rank left mid right (flatten S) rBuffer next recv) := by
  simp only [upperToLower, movebefore_whole hS, slice_below hS, guarded_some]

end RoleLemmas

/-! ## One level of a group -/

/-- Some rank returned `false`: a message was larger than the limit. -/
def Refused (p : ℕ → Rank T) : Prop := ∃ i rBuffer, p i = refuse rBuffer

/-- A group's buffers: sorted, and with records for the ranks of the group only. -/
def InGroup (left right : ℕ) (S : ℕ → List (Record T)) : Prop :=
  ∀ i ∈ Finset.Ico left right,
    Sorted (S i) ∧ ∀ x ∈ S i, (left : ℤ) ≤ x.rank ∧ x.rank < right

section Level

variable (left mid right : ℕ) (S : ℕ → List (Record T))

/-- The records that rank `mid` gets from a rank without a partner. -/
def leftover (i : ℕ) : List (Record T) :=
  if mid - left > right - mid ∧ i = mid then atLeast mid (S (mid - 1)) else []

def kept (i : ℕ) : List (Record T) :=
  if i < mid then
    if right ≤ i + (mid - left) then below i (S i)
    else regroup i left (mid - left) (below mid (S (i + (mid - left)))) [] (S i)
  else regroup i mid (right - mid) (atLeast mid (S (i - (mid - left))))
    (leftover left mid right S i) (S i)

def received (i : ℕ) : List (Record T) :=
  if i < mid then
    if right ≤ i + (mid - left) then []
    else addressed i (below mid (S (i + (mid - left))))
  else addressed i (atLeast mid (S (i - (mid - left))))
    ++ addressed i (leftover left mid right S i)

end Level

lemma mem_below {r : ℤ} {rs : List (Record T)} {x : Record T} :
    x ∈ below r rs ↔ x ∈ rs ∧ x.rank < r := by
  simp [below]

lemma mem_atLeast {r : ℤ} {rs : List (Record T)} {x : Record T} :
    x ∈ atLeast r rs ↔ x ∈ rs ∧ r ≤ x.rank := by
  simp [atLeast]

lemma Sorted.below {rs : List (Record T)} (h : Sorted rs) (r : ℤ) : Sorted (below r rs) :=
  h.sublist List.filter_sublist

lemma Sorted.atLeast {rs : List (Record T)} (h : Sorted rs) (r : ℤ) : Sorted (atLeast r rs) :=
  h.sublist List.filter_sublist

section Pair

variable {multiplier i u left mid right : ℕ} {R S : List (Record T)} {rBuffer rBuffer' : List T}
  {nextL nextU : List T → List T → Rank T} {p q : ℕ → Rank T}

/-- **Two partners.**  The rank of the lower half gets what its partner had for the lower half, and
the rank of the upper half gets to the end of its level with what its partner had for the upper
half. -/
lemma partners_evolve (hu : u = i + (mid - left)) (hlm : left < mid) (hi : left ≤ i) (him : i < mid)
    (hS : Sorted S) (hSl : ∀ x ∈ S, (left : ℤ) ≤ x.rank)
    (hR : Sorted R) (hRl : ∀ x ∈ R, (left : ℤ) ≤ x.rank)
    (hpi : p i = lowerToUpper multiplier i left mid (flatten S) rBuffer nextL)
    (hpu : p u = upperToLower multiplier u left mid right (flatten R) rBuffer' nextU)
    (hqi : q i = nextL (flatten (regroup i left (mid - left) (below mid R) [] S))
      (rBuffer ++ flatten (addressed i (below mid R))))
    (hqu : q u = upperTail u left mid right (flatten R) rBuffer' nextU (flatten (atLeast mid S))) :
    Evolves Refused {i, u} p q := by
  have hiu : i ≠ u := by omega
  rw [lowerToUpper_eq _ hS, ← hu] at hpi
  rw [upperToLower_eq _ hR, show u - (mid - left) = i by omega] at hpu
  by_cases hlim : limit < multiplier * (flatten (atLeast (mid : ℤ) S)).length
  · rw [if_pos hlim] at hpi
    exact Evolves.of_bad fun p' hp' => ⟨i, rBuffer, by rw [hp' i (by simp), hpi]⟩
  rw [if_neg hlim] at hpi
  -- the lower rank sends first
  set p₁ : ℕ → Rank T := fun x =>
    if x = i then .recv u fun recv =>
      guarded (mergeLower i left mid recv (flatten S) rBuffer) fun out => nextL out.1 out.2
    else if limit < multiplier * (flatten (below (mid : ℤ) R)).length then refuse rBuffer'
    else .send i (flatten (below mid R))
      (upperTail u left mid right (flatten R) rBuffer' nextU (flatten (atLeast mid S))) with hp₁
  have h₁ : Evolves Refused {i, u} p p₁ :=
    Evolves.talk hiu hpi hpu (by simp [hp₁]) (by simp [hp₁, hiu.symm])
  refine h₁.trans ?_
  by_cases hlim' : limit < multiplier * (flatten (below (mid : ℤ) R)).length
  · refine Evolves.of_bad fun p' hp' => ⟨u, rBuffer', ?_⟩
    rw [hp' u (by simp), hp₁]
    simp [hiu.symm, hlim']
  rw [Finset.pair_comm]
  refine Evolves.talk (m := flatten (below mid R)) hiu.symm (by simp [hp₁, hiu.symm, hlim'])
    (by simp [hp₁]; rfl) hqu ?_
  have hmerge := mergeLower_eq rBuffer (hR.below mid) hS
    (fun x hx => hRl x (mem_below.mp hx).1) hSl hi him
  rw [hmerge]
  exact hqi

end Pair

section Level

variable {multiplier l left right : ℕ} {S : ℕ → List (Record T)} {rBuffer : ℕ → List T}
  {p : ℕ → Rank T}

lemma midpoint_bounds (h : left + 1 < right) :
    left < midpoint left right ∧ midpoint left right < right ∧
      right ≤ midpoint left right + (midpoint left right - left) ∧
      midpoint left right + (midpoint left right - left) ≤ right + 1 := by
  unfold midpoint
  omega

/-- **The step of a group.**  One level takes a group to its two halves, with the records regrouped
as `kept` and `received` say, unless some rank refuses to send. -/
theorem level_evolves (hlr : left + 1 < right) (hS : InGroup left right S)
    (hp : ∀ i ∈ Finset.Ico left right,
      p i = level multiplier i (l + 1) left right (flatten (S i)) (rBuffer i)) :
    Evolves Refused (Finset.Ico left right) p fun i =>
      level multiplier i l (if i < midpoint left right then left else midpoint left right)
        (if i < midpoint left right then midpoint left right else right)
        (flatten (kept left (midpoint left right) right S i))
        (rBuffer i ++ flatten (received left (midpoint left right) right S i)) := by
  obtain ⟨hlm, hmr, hodd₁, hodd₂⟩ := midpoint_bounds hlr
  set mid := midpoint left right with hmid
  set q : ℕ → Rank T := fun i =>
    level multiplier i l (if i < mid then left else mid) (if i < mid then mid else right)
      (flatten (kept left mid right S i)) (rBuffer i ++ flatten (received left mid right S i))
    with hq
  have hsorted : ∀ i, left ≤ i → i < right → Sorted (S i) :=
    fun i h₁ h₂ => (hS i (Finset.mem_Ico.mpr ⟨h₁, h₂⟩)).1
  have hleft : ∀ i, left ≤ i → i < right → ∀ x ∈ S i, (left : ℤ) ≤ x.rank :=
    fun i h₁ h₂ x hx => ((hS i (Finset.mem_Ico.mpr ⟨h₁, h₂⟩)).2 x hx).1
  -- what each rank is about to do
  have hlower : ∀ i, left ≤ i → i < mid → i + (mid - left) < right →
      p i = lowerToUpper multiplier i left mid (flatten (S i)) (rBuffer i) fun send rBuffer =>
        level multiplier i l left mid send rBuffer := by
    intro i h₁ h₂ h₃
    rw [hp i (Finset.mem_Ico.mpr ⟨h₁, by omega⟩), level, if_pos hlr]
    simp only [← hmid, if_pos h₂, if_neg (not_le.mpr h₃)]
  have hlast : ∀ i, left ≤ i → i < mid → right ≤ i + (mid - left) →
      p i = lastToUpper multiplier i mid (flatten (S i)) (rBuffer i) fun send rBuffer =>
        level multiplier i l left mid send rBuffer := by
    intro i h₁ h₂ h₃
    rw [hp i (Finset.mem_Ico.mpr ⟨h₁, by omega⟩), level, if_pos hlr]
    simp only [← hmid, if_pos h₂, if_pos h₃]
  have hupper : ∀ i, mid ≤ i → i < right →
      p i = upperToLower multiplier i left mid right (flatten (S i)) (rBuffer i)
        fun send rBuffer => level multiplier i l mid right send rBuffer := by
    intro i h₁ h₂
    rw [hp i (Finset.mem_Ico.mpr ⟨by omega, h₂⟩), level, if_pos hlr]
    simp only [← hmid, if_neg (not_lt.mpr h₁)]
  -- the state after all pairs of partners have talked
  set q₁ : ℕ → Rank T := fun i =>
    if i < mid then (if right ≤ i + (mid - left) then p i else q i)
    else upperTail i left mid right (flatten (S i)) (rBuffer i)
      (fun send rBuffer => level multiplier i l mid right send rBuffer)
      (flatten (atLeast mid (S (i - (mid - left))))) with hq₁
  have hpairs : Evolves Refused
      ((Finset.Ico left (right - (mid - left))).biUnion fun i => {i, i + (mid - left)}) p q₁ := by
    refine Evolves.biUnion _ _ ?_ ?_
    · intro a ha b hb hab
      have ha' := Finset.mem_Ico.mp ha
      have hb' := Finset.mem_Ico.mp hb
      simp only [Finset.disjoint_left, Finset.mem_insert, Finset.mem_singleton]
      omega
    · intro i hi
      have hi' := Finset.mem_Ico.mp hi
      refine partners_evolve rfl hlm hi'.1 (by omega) (hsorted i hi'.1 (by omega))
        (hleft i hi'.1 (by omega)) (hsorted (i + (mid - left)) (by omega) (by omega))
        (hleft (i + (mid - left)) (by omega) (by omega))
        (hlower i hi'.1 (by omega) (by omega)) (hupper (i + (mid - left)) (by omega) (by omega))
        ?_ ?_
      · have h₁ : i < mid := by omega
        have h₂ : ¬ right ≤ i + (mid - left) := by omega
        simp only [hq₁, hq, kept, received, if_pos h₁, if_neg h₂]
      · have h₁ : ¬ i + (mid - left) < mid := by omega
        simp only [hq₁, if_neg h₁, Nat.add_sub_cancel]
  have hfirst : Evolves Refused (Finset.Ico left right) p q₁ := by
    refine Evolves.mono ?_ ?_ hpairs
    · intro i hi
      simp only [Finset.mem_biUnion, Finset.mem_Ico, Finset.mem_insert,
        Finset.mem_singleton] at hi ⊢
      omega
    · intro i hi hni
      have hi' := Finset.mem_Ico.mp hi
      simp only [Finset.mem_biUnion, Finset.mem_Ico, Finset.mem_insert, Finset.mem_singleton,
        not_exists, not_and, not_or] at hni
      have h₁ : i < mid := by
        by_contra hge
        exact (hni (i - (mid - left)) (by omega)).2 (by omega)
      have h₂ : right ≤ i + (mid - left) := by
        by_contra hlt
        exact (hni i (by omega)).1 rfl
      simp only [hq₁, if_pos h₁, if_pos h₂]
  refine hfirst.trans ?_
  -- ranks that have finished the level
  have hdone : ∀ i, left ≤ i → i < right → ¬(mid - left > right - mid ∧ (i = mid - 1 ∨ i = mid)) →
      q i = q₁ i := by
    intro i h₁ h₂ h₃
    by_cases h₄ : i < mid
    · have h₅ : ¬ right ≤ i + (mid - left) := by omega
      simp only [hq₁, if_pos h₄, if_neg h₅]
    · have h₅ : ¬(mid - left > right - mid ∧ i = mid) := fun h => h₃ ⟨h.1, Or.inr h.2⟩
      have hmerge := mergeUpper_eq (rBuffer i)
        ((hsorted (i - (mid - left)) (by omega) (by omega)).atLeast mid) List.Pairwise.nil
        (hsorted i h₁ h₂) (fun x hx => (mem_atLeast.mp hx).2) (by simp) (by omega) h₂
      rw [flatten_nil, List.append_nil] at hmerge
      simp only [hq₁, hq, if_neg h₄, upperTail, if_neg h₅, hmerge, guarded_some, kept, received,
        leftover]
  by_cases hodd : mid - left > right - mid
  · -- the last rank of the lower half still has to hand over its records
    refine Evolves.mono (G := {mid - 1, mid}) ?_ ?_ ?_
    · intro i hi
      simp only [Finset.mem_insert, Finset.mem_singleton, Finset.mem_Ico] at hi ⊢
      omega
    · intro i hi hni
      have hi' := Finset.mem_Ico.mp hi
      simp only [Finset.mem_insert, Finset.mem_singleton] at hni
      exact hdone i hi'.1 hi'.2 (by tauto)
    · have h₁ : mid - 1 < mid := by omega
      have h₂ : right ≤ mid - 1 + (mid - left) := by omega
      have hqa : q₁ (mid - 1) = lastToUpper multiplier (mid - 1) mid (flatten (S (mid - 1)))
          (rBuffer (mid - 1)) fun send rBuffer =>
            level multiplier (mid - 1) l left mid send rBuffer := by
        simp only [hq₁, if_pos h₁, if_pos h₂]
        exact hlast (mid - 1) (by omega) h₁ h₂
      rw [lastToUpper_eq _ (hsorted (mid - 1) (by omega) (by omega)) (by omega)] at hqa
      by_cases hlim : limit < multiplier * (flatten (atLeast (mid : ℤ) (S (mid - 1)))).length
      · rw [if_pos hlim] at hqa
        exact Evolves.of_bad fun p' hp' => ⟨mid - 1, rBuffer (mid - 1), by
          rw [hp' (mid - 1) (by simp), hqa]⟩
      rw [if_neg hlim] at hqa
      have hqb : q₁ mid = .recv (mid - 1) fun recvmid =>
          guarded (mergeUpper mid mid right (flatten (atLeast mid (S (mid - (mid - left)))) ++ recvmid)
            (flatten (S mid)) (flatten (atLeast mid (S (mid - (mid - left))))).length
            (rBuffer mid)) fun out => level multiplier mid l mid right out.1 out.2 := by
        simp only [hq₁, lt_irrefl, if_false, upperTail, hodd, and_self, if_true]
      refine Evolves.talk (by omega) hqa hqb ?_ ?_
      · simp only [hq, kept, received, if_pos h₁, if_pos h₂, flatten_nil, List.append_nil]
      · have hmerge := mergeUpper_eq (rBuffer mid)
          ((hsorted (mid - (mid - left)) (by omega) (by omega)).atLeast mid)
          ((hsorted (mid - 1) (by omega) (by omega)).atLeast mid) (hsorted mid (by omega) hmr)
          (fun x hx => (mem_atLeast.mp hx).2) (fun x hx => (mem_atLeast.mp hx).2) (le_refl mid) hmr
        rw [hmerge, guarded_some]
        simp only [hq, kept, received, leftover, lt_irrefl, if_false, hodd, and_self, if_true]
  · exact Evolves.refl fun i hi => hdone i (Finset.mem_Ico.mp hi).1 (Finset.mem_Ico.mp hi).2
      fun h => hodd h.1

/-! ## Where the records are -/

variable (S) in
/-- The records rank `k` holds for rank `t`. -/
def held (t k : ℕ) : Multiset (Record T) := addressed t (S k)

lemma sum_regrouped {s : Finset ℕ} {t : ℕ} (ht : t ∈ s) {a b a' : ℕ → Multiset (Record T)}
    (hat : a' t = 0) (ha : ∀ k ∈ s, k ≠ t → a' k = a k + b k) :
    b t + ∑ k ∈ s, a' k + a t = ∑ k ∈ s, a k + ∑ k ∈ s, b k := by
  have h₁ : ∑ k ∈ s, a' k = ∑ k ∈ s.erase t, (a k + b k) := by
    rw [← Finset.add_sum_erase s a' ht, hat, zero_add]
    refine Finset.sum_congr rfl fun k hk => ?_
    exact ha k (Finset.mem_of_mem_erase hk) (Finset.ne_of_mem_erase hk)
  calc b t + ∑ k ∈ s, a' k + a t
      = (a t + b t) + ∑ k ∈ s.erase t, (a k + b k) := by rw [h₁]; abel
    _ = ∑ k ∈ s, (a k + b k) := Finset.add_sum_erase s (fun k => a k + b k) ht
    _ = ∑ k ∈ s, a k + ∑ k ∈ s, b k := Finset.sum_add_distrib

lemma kept_lower (hlr : left + 1 < right) (hS : InGroup left right S) :
    InGroup left (midpoint left right) (kept left (midpoint left right) right S) := by
  obtain ⟨hlm, hmr, hodd₁, hodd₂⟩ := midpoint_bounds hlr
  set mid := midpoint left right
  intro i hi
  have hi' := Finset.mem_Ico.mp hi
  rw [kept, if_pos hi'.2]
  split
  · have hSi := hS i (Finset.mem_Ico.mpr ⟨hi'.1, by omega⟩)
    refine ⟨hSi.1.below i, fun x hx => ?_⟩
    have hx' := mem_below.mp hx
    have := (hSi.2 x hx'.1).1
    omega
  · refine ⟨sorted_regroup _ _ _ _ _ _, fun x hx => ?_⟩
    have := mem_regroup hx
    omega

lemma kept_upper (hlr : left + 1 < right) :
    InGroup (midpoint left right) right (kept left (midpoint left right) right S) := by
  obtain ⟨hlm, hmr, hodd₁, hodd₂⟩ := midpoint_bounds hlr
  set mid := midpoint left right
  intro i hi
  have hi' := Finset.mem_Ico.mp hi
  rw [kept, if_neg (not_lt.mpr hi'.1)]
  refine ⟨sorted_regroup _ _ _ _ _ _, fun x hx => ?_⟩
  have := mem_regroup hx
  omega

lemma held_kept_self (t : ℕ) (mid : ℕ) : held (kept left mid right S) t t = 0 := by
  have hregroup : ∀ (n first : ℕ) (R M S : List (Record T)),
      addressed t (regroup t first n R M S) = [] := by
    intro n first R M S
    refine List.filter_eq_nil_iff.mpr fun x hx => ?_
    simpa using (mem_regroup hx).2.2
  have hbelow : ∀ S : List (Record T), addressed t (below t S) = [] := by
    intro S
    refine List.filter_eq_nil_iff.mpr fun x hx => ?_
    simpa using ne_of_lt (mem_below.mp hx).2
  unfold held kept
  split_ifs <;> simp [hregroup, hbelow]

lemma held_lower (hlr : left + 1 < right) {t : ℕ}
    (ht : t ∈ Finset.Ico left (midpoint left right)) :
    (received left (midpoint left right) right S t : Multiset (Record T))
        + ∑ k ∈ Finset.Ico left (midpoint left right),
            held (kept left (midpoint left right) right S) t k + held S t t
      = ∑ k ∈ Finset.Ico left right, held S t k := by
  obtain ⟨hlm, hmr, hodd₁, hodd₂⟩ := midpoint_bounds hlr
  set mid := midpoint left right
  have ht' := Finset.mem_Ico.mp ht
  have htm : (t : ℤ) < mid := by exact_mod_cast ht'.2
  set b : ℕ → Multiset (Record T) :=
    fun k => if right ≤ k + (mid - left) then 0 else held S t (k + (mid - left)) with hb
  have hbt : (received left mid right S t : Multiset (Record T)) = b t := by
    simp only [hb, received, if_pos ht'.2]
    split
    · rfl
    · rw [addressed_below htm, held]
  have hkept : ∀ k ∈ Finset.Ico left mid, k ≠ t →
      held (kept left mid right S) t k = held S t k + b k := by
    intro k hk hkt
    have hk' := Finset.mem_Ico.mp hk
    simp only [hb, held, kept, if_pos hk'.2]
    split
    · -- a rank without a partner is the last of its half, so `t` is before it
      rw [addressed_below (by omega), add_zero]
    · rw [addressed_regroup ht'.1 (by omega) hkt.symm, addressed_below htm]
      simpa [addressed] using List.perm_append_comm
  have hsum : ∑ k ∈ Finset.Ico left mid, b k = ∑ k ∈ Finset.Ico mid right, held S t k := by
    have hpartner : ∑ k ∈ Finset.Ico left (right - (mid - left)), b k
        = ∑ k ∈ Finset.Ico left (right - (mid - left)), held S t (k + (mid - left)) := by
      refine Finset.sum_congr rfl fun k hk => ?_
      have := Finset.mem_Ico.mp hk
      simp only [hb, if_neg (show ¬ right ≤ k + (mid - left) by omega)]
    have hnone : ∑ k ∈ Finset.Ico (right - (mid - left)) mid, b k = 0 := by
      refine Finset.sum_eq_zero fun k hk => ?_
      have := Finset.mem_Ico.mp hk
      simp only [hb, if_pos (show right ≤ k + (mid - left) by omega)]
    rw [← Finset.sum_Ico_consecutive b (show left ≤ right - (mid - left) by omega)
      (show right - (mid - left) ≤ mid by omega), hpartner, hnone, add_zero,
      Finset.sum_Ico_add' (held S t), show left + (mid - left) = mid by omega,
      show right - (mid - left) + (mid - left) = right by omega]
  rw [hbt, sum_regrouped ht (held_kept_self t mid) hkept, hsum,
    Finset.sum_Ico_consecutive _ (le_of_lt hlm) (le_of_lt hmr)]

lemma held_upper (hlr : left + 1 < right) {t : ℕ}
    (ht : t ∈ Finset.Ico (midpoint left right) right) :
    (received left (midpoint left right) right S t : Multiset (Record T))
        + ∑ k ∈ Finset.Ico (midpoint left right) right,
            held (kept left (midpoint left right) right S) t k + held S t t
      = ∑ k ∈ Finset.Ico left right, held S t k := by
  obtain ⟨hlm, hmr, hodd₁, hodd₂⟩ := midpoint_bounds hlr
  set mid := midpoint left right
  have ht' := Finset.mem_Ico.mp ht
  have htm : (mid : ℤ) ≤ t := by exact_mod_cast ht'.1
  set c : ℕ → Multiset (Record T) :=
    fun k => if mid - left > right - mid ∧ k = mid then held S t (mid - 1) else 0 with hc
  have hleftover : ∀ k, (addressed t (leftover left mid right S k) : Multiset (Record T)) = c k := by
    intro k
    simp only [hc, leftover]
    split
    · rw [addressed_atLeast htm, held]
    · rfl
  have hbt : (received left mid right S t : Multiset (Record T))
      = held S t (t - (mid - left)) + c t := by
    rw [received, if_neg (not_lt.mpr ht'.1), ← Multiset.coe_add, hleftover,
      addressed_atLeast htm, held]
  have hkept : ∀ k ∈ Finset.Ico mid right, k ≠ t →
      held (kept left mid right S) t k = held S t k + (held S t (k - (mid - left)) + c k) := by
    intro k hk hkt
    have hk' := Finset.mem_Ico.mp hk
    rw [held, kept, if_neg (not_lt.mpr hk'.1), addressed_regroup ht'.1 (by omega) hkt.symm,
      addressed_atLeast htm, ← Multiset.coe_add, ← Multiset.coe_add, hleftover]
    simp only [held]
    abel
  have hsum : ∑ k ∈ Finset.Ico mid right, (held S t (k - (mid - left)) + c k)
      = ∑ k ∈ Finset.Ico left mid, held S t k := by
    have hpartner : ∑ k ∈ Finset.Ico mid right, held S t (k - (mid - left))
        = ∑ k ∈ Finset.Ico left (right - (mid - left)), held S t k := by
      have hshift := Finset.sum_Ico_add' (fun k => held S t (k - (mid - left))) left
        (right - (mid - left)) (mid - left)
      rw [show left + (mid - left) = mid by omega,
        show right - (mid - left) + (mid - left) = right by omega] at hshift
      rw [← hshift]
      refine Finset.sum_congr rfl fun k _ => ?_
      rw [Nat.add_sub_cancel]
    have hextra : ∑ k ∈ Finset.Ico mid right, c k
        = ∑ k ∈ Finset.Ico (right - (mid - left)) mid, held S t k := by
      by_cases hodd : mid - left > right - mid
      · rw [Finset.sum_eq_single_of_mem mid (Finset.mem_Ico.mpr ⟨le_refl mid, hmr⟩)
          (fun k _ hk => by simp [hc, hk]), show right - (mid - left) = mid - 1 by omega]
        have hone : Finset.Ico (mid - 1) mid = {mid - 1} := by
          ext k
          simp only [Finset.mem_Ico, Finset.mem_singleton]
          omega
        rw [hone, Finset.sum_singleton]
        simp only [hc, hodd, and_self, if_true]
      · rw [show right - (mid - left) = mid by omega, Finset.Ico_self, Finset.sum_empty]
        exact Finset.sum_eq_zero fun k _ => by simp [hc, hodd]
    rw [Finset.sum_add_distrib, hpartner, hextra, Finset.sum_Ico_consecutive _ (by omega) (by omega)]
  rw [hbt, sum_regrouped (b := fun k => held S t (k - (mid - left)) + c k) ht
    (held_kept_self t mid) hkept, hsum, add_comm,
    Finset.sum_Ico_consecutive _ (le_of_lt hlm) (le_of_lt hmr)]

end Level

/-! ## All levels -/

lemma single_evolves {multiplier l left right : ℕ} {S : ℕ → List (Record T)}
    {rBuffer : ℕ → List T} {p : ℕ → Rank T} (hlr : ¬ left + 1 < right)
    (hp : ∀ i ∈ Finset.Ico left right,
      p i = level multiplier i l left right (flatten (S i)) (rBuffer i)) :
    ∃ D : ℕ → List (Record T),
      (∀ t ∈ Finset.Ico left right,
        (D t : Multiset (Record T)) + held S t t = ∑ k ∈ Finset.Ico left right, held S t k) ∧
      Evolves Refused (Finset.Ico left right) p
        fun i => .done (some (true, rBuffer i ++ flatten (D i))) := by
  refine ⟨fun _ => [], fun t ht => ?_, Evolves.refl fun i hi => ?_⟩
  · have ht' := Finset.mem_Ico.mp ht
    have hone : Finset.Ico left right = {t} := by
      ext k
      simp only [Finset.mem_Ico, Finset.mem_singleton]
      omega
    rw [hone, Finset.sum_singleton]
    simp
  · rw [hp i hi]
    cases l with
    | zero => simp [level]
    | succ l => simp [level, hlr]

/-- **The run of a group.**  With enough levels for its size a group delivers to every rank exactly
what the group held for it (its own records aside), unless some rank refuses to send. -/
theorem group_evolves (multiplier : ℕ) : ∀ (l left right : ℕ) (S : ℕ → List (Record T))
    (rBuffer : ℕ → List T) (p : ℕ → Rank T), right - left ≤ 2 ^ l → InGroup left right S →
    (∀ i ∈ Finset.Ico left right,
      p i = level multiplier i l left right (flatten (S i)) (rBuffer i)) →
    ∃ D : ℕ → List (Record T),
      (∀ t ∈ Finset.Ico left right,
        (D t : Multiset (Record T)) + held S t t = ∑ k ∈ Finset.Ico left right, held S t k) ∧
      Evolves Refused (Finset.Ico left right) p
        fun i => .done (some (true, rBuffer i ++ flatten (D i))) := by
  intro l
  induction l with
  | zero =>
      intro left right S rBuffer p hlen _ hp
      rw [pow_zero] at hlen
      exact single_evolves (by omega) hp
  | succ l ih =>
      intro left right S rBuffer p hlen hS hp
      by_cases hlr : left + 1 < right
      swap
      · exact single_evolves hlr hp
      have hlevel := level_evolves hlr hS hp
      have hlow := kept_lower hlr hS
      have hupp := kept_upper (S := S) hlr
      have hcountl := fun t => held_lower (S := S) hlr (t := t)
      have hcountu := fun t => held_upper (S := S) hlr (t := t)
      obtain ⟨hlm, hmr, hodd₁, hodd₂⟩ := midpoint_bounds hlr
      set mid := midpoint left right
      set q : ℕ → Rank T := fun i =>
        level multiplier i l (if i < mid then left else mid) (if i < mid then mid else right)
          (flatten (kept left mid right S i)) (rBuffer i ++ flatten (received left mid right S i))
        with hq
      rw [pow_succ] at hlen
      obtain ⟨D₁, hD₁, hev₁⟩ := ih left mid (kept left mid right S)
        (fun i => rBuffer i ++ flatten (received left mid right S i)) q (by omega) hlow
        (fun i hi => by simp only [hq, if_pos (Finset.mem_Ico.mp hi).2])
      obtain ⟨D₂, hD₂, hev₂⟩ := ih mid right (kept left mid right S)
        (fun i => rBuffer i ++ flatten (received left mid right S i)) q (by omega) hupp
        (fun i hi => by simp only [hq, if_neg (not_lt.mpr (Finset.mem_Ico.mp hi).1)])
      refine ⟨fun i => received left mid right S i ++ if i < mid then D₁ i else D₂ i, ?_, ?_⟩
      · intro t ht
        have ht' := Finset.mem_Ico.mp ht
        by_cases htm : t < mid
        · have htl : t ∈ Finset.Ico left mid := Finset.mem_Ico.mpr ⟨ht'.1, htm⟩
          have h := hD₁ t htl
          rw [held_kept_self, add_zero] at h
          simp only [if_pos htm, ← Multiset.coe_add]
          rw [h, hcountl t htl]
        · have htu : t ∈ Finset.Ico mid right := Finset.mem_Ico.mpr ⟨not_lt.mp htm, ht'.2⟩
          have h := hD₂ t htu
          rw [held_kept_self, add_zero] at h
          simp only [if_neg htm, ← Multiset.coe_add]
          rw [h, hcountu t htu]
      · refine hlevel.trans ?_
        rw [← Finset.Ico_union_Ico_eq_Ico (le_of_lt hlm) (le_of_lt hmr)]
        refine Evolves.union (Finset.Ico_disjoint_Ico_consecutive left mid right) ?_ ?_
        · refine hev₁.congr fun i hi => ?_
          simp [(Finset.mem_Ico.mp hi).2]
        · refine hev₂.congr fun i hi => ?_
          simp [not_lt.mpr (Finset.mem_Ico.mp hi).1]

/-- The `size` ranks at the start of the call, with nothing in flight. -/
def startAllToAll (multiplier size : ℕ) (sBuffer rBuffer : ℕ → List T) : Net ℕ (List T) (Result T) :=
  idle fun i =>
    if i < size then allToAllWithDataSizeAndTarget multiplier size i (sBuffer i) (rBuffer i)
    else .done (some (true, []))

/-- What the call is for: rank `i` has got a permutation of the records addressed to it. -/
def Delivered (size : ℕ) (sBuffer : ℕ → List (Record T)) (rBuffer : ℕ → List T) (i : ℕ)
    (p : Rank T) : Prop :=
  ∃ records : List (Record T), p = .done (some (true, rBuffer i ++ flatten records)) ∧
    records.Perm ((List.range size).flatMap fun k => addressed i (sBuffer k))

lemma coe_flatMap_range (n : ℕ) (f : ℕ → List (Record T)) :
    (((List.range n).flatMap f : List (Record T)) : Multiset (Record T))
      = ∑ k ∈ Finset.Ico 0 n, (f k : Multiset (Record T)) := by
  induction n with
  | zero => simp
  | succ n ih =>
      rw [List.range_succ, List.flatMap_append, ← Multiset.coe_add, ih,
        Finset.sum_Ico_succ_top (Nat.zero_le n)]
      simp

lemma handshakes_deliver (multiplier size : ℕ) (sBuffer : ℕ → List (Record T))
    (rBuffer : ℕ → List T) (hS : InGroup 0 size sBuffer) :
    (∃ b, Handshakes (startAllToAll multiplier size (fun i => flatten (sBuffer i)) rBuffer).proc b ∧
      Refused b) ∨
    ∃ q, Handshakes (startAllToAll multiplier size (fun i => flatten (sBuffer i)) rBuffer).proc q ∧
      (∀ i, size ≤ i → q i = .done (some (true, []))) ∧
      ∀ i < size, Delivered size sBuffer rBuffer i (q i) := by
  set p := (startAllToAll multiplier size (fun i => flatten (sBuffer i)) rBuffer).proc with hp
  have hlevel : ∀ i ∈ Finset.Ico 0 size, p i = level multiplier i (Nat.clog 2 size) 0 size
      (flatten (sBuffer i)) (rBuffer i ++ flatten (addressed i (sBuffer i))) := by
    intro i hi
    have hi' := (Finset.mem_Ico.mp hi).2
    have hsorted := (hS i hi).1
    have hle : (i : ℤ) ≤ i + 1 := by omega
    simp only [hp, startAllToAll, idle_proc, if_pos hi', allToAllWithDataSizeAndTarget,
      movebefore_whole hsorted, movebefore_from hsorted hle, slice_from hsorted hle,
      between_succ, guarded_some]
  obtain ⟨D, hD, hev⟩ := group_evolves multiplier (Nat.clog 2 size) 0 size sBuffer
    (fun i => rBuffer i ++ flatten (addressed i (sBuffer i))) p
    (by simpa using Nat.le_pow_clog (by omega) size) hS hlevel
  rcases hev p (fun i _ => rfl) with hbad | hgood
  · exact Or.inl hbad
  · refine Or.inr ⟨_, hgood, fun i hi => ?_, fun i hi => ?_⟩
    · rw [if_neg (by simp [hi])]
      simp [hp, startAllToAll, not_lt.mpr hi]
    · have hmem : i ∈ Finset.Ico 0 size := Finset.mem_Ico.mpr ⟨Nat.zero_le i, hi⟩
      refine ⟨addressed i (sBuffer i) ++ D i, ?_, ?_⟩
      · rw [if_pos hmem]
        simp
      · rw [← Multiset.coe_eq_coe, coe_flatMap_range, ← Multiset.coe_add, add_comm]
        exact hD i hmem

/-- **The exchange delivers.**  All ranks run the exchange on buffers of sorted records for the
ranks of the group.  If no rank refuses to send, then in every interleaving the calls come to an
end after the same number of steps, none gets stuck before, and every rank's `rBuffer` has been
extended by a permutation of exactly the records addressed to it. -/
theorem allToAll_delivers (multiplier size : ℕ) (sBuffer : ℕ → List (Record T))
    (rBuffer : ℕ → List T)
    (hsorted : ∀ i < size, Sorted (sBuffer i))
    (htarget : ∀ i < size, ∀ x ∈ sBuffer i, 0 ≤ x.rank ∧ x.rank < size)
    (hlimit : ∀ t, Reaches (startAllToAll multiplier size (fun i => flatten (sBuffer i)) rBuffer) t →
      ¬ Refused t.proc) :
    ∃ n, ∀ k t, Run k (startAllToAll multiplier size (fun i => flatten (sBuffer i)) rBuffer) t →
      k ≤ n ∧ (k < n → ¬ Stuck t) ∧
      (k = n → ∀ i < size, Delivered size sBuffer rBuffer i (t.proc i)) := by
  have hS : InGroup 0 size sBuffer := by
    intro i hi
    have hi' := (Finset.mem_Ico.mp hi).2
    exact ⟨hsorted i hi', fun x hx => by simpa using htarget i hi' x hx⟩
  rcases handshakes_deliver multiplier size sBuffer rBuffer hS with ⟨b, hb, hbad⟩ | ⟨q, hq, hout, hdel⟩
  · exact absurd hbad (hlimit (idle b) hb.reaches)
  · have hfin : Finished (idle q) := by
      intro i
      by_cases hi : i < size
      · obtain ⟨records, heq, -⟩ := hdel i hi
        exact ⟨_, heq⟩
      · exact ⟨_, hout i (not_lt.mp hi)⟩
    obtain ⟨n, hn⟩ := hq.reaches
    refine ⟨n, fun k t ht => ?_⟩
    obtain ⟨h₁, h₂, h₃⟩ := hfin.all_runs hn k t ht
    refine ⟨h₁, h₂, fun hk i hi => ?_⟩
    rw [h₃ hk]
    exact hdel i hi

/-- Three ranks: the last rank of the lower half has no partner. -/
def threeRanks : ℕ → List (Record ℤ)
  | 0 => [⟨3, 1, [10], by decide⟩, ⟨2, 2, [], by decide⟩]
  | 1 => [⟨2, 0, [], by decide⟩, ⟨3, 2, [7], by decide⟩]
  | _ => [⟨2, 0, [], by decide⟩, ⟨2, 1, [], by decide⟩]

theorem allToAll_delivers_three :
    ∃ n, ∀ k t, Run k (startAllToAll 1 3 (fun i => flatten (threeRanks i)) fun _ => []) t →
      k ≤ n ∧ (k < n → ¬ Stuck t) ∧
      (k = n → ∀ i < 3, Delivered 3 threeRanks (fun _ => []) i (t.proc i)) := by
  refine allToAll_delivers 1 3 threeRanks (fun _ => []) (by decide) (by decide) ?_
  -- the five handshakes of the call
  obtain ⟨q, hrun, hdone⟩ :
      ∃ q, Handshakes (startAllToAll 1 3 (fun i => flatten (threeRanks i)) fun _ => []).proc q ∧
        ∀ i, ∃ out, q i = .done (some (true, out)) := by
    refine ⟨_, Handshakes.trans (Handshakes.talk (i := 0) (j := 2) (by decide) rfl rfl)
      (Handshakes.trans (Handshakes.talk (i := 2) (j := 0) (by decide) rfl rfl)
        (Handshakes.trans (Handshakes.talk (i := 1) (j := 2) (by decide) rfl rfl)
          (Handshakes.trans (Handshakes.talk (i := 0) (j := 1) (by decide) rfl rfl)
            (Handshakes.talk (i := 1) (j := 0) (by decide) rfl rfl)))), fun i => ?_⟩
    match i with
    | 0 => exact ⟨_, rfl⟩
    | 1 => exact ⟨_, rfl⟩
    | 2 => exact ⟨_, rfl⟩
    | i + 3 => exact ⟨_, rfl⟩
  rintro t ht ⟨i, out, hi⟩
  have hfin : Finished (idle q) := fun i => ⟨_, (hdone i).choose_spec⟩
  have hend := hfin.result_unique hrun.reaches ht hi
  obtain ⟨out', hout'⟩ := hdone i
  rw [idle_proc, hout'] at hend
  cases hend

end Espreso
