import Espreso.Lib.Blocking
import Mathlib.Data.List.Basic
import Mathlib.Tactic

/-!
# The test for sorted IDs

`Input::balance` asks whether the IDs are sorted over all ranks.  Each rank tests its own list, and
then its first ID against the last one of the rank in front of it.  Even ranks send before they
receive, odd ranks receive before they send.

* `exchange`, `start` — the messages of a rank, and the network of all ranks.
* **`isSorted_right_iff`** — when the test is right; it never blocks.
-/

namespace Espreso

namespace Input

open MsgPass Function

/-! ## The messages -/

def my (ids : List ℤ) : ℤ := ids.getLastD (-1)

/-- `MPI_Send` to the next rank, if there is one. -/
def sendNext (size r : ℕ) (m : ℤ) (k : Proc ℕ ℤ ℤ) : Proc ℕ ℤ ℤ :=
  if r + 1 < size then .send (r + 1) m k else k

def recvPrev (r : ℕ) : Proc ℕ ℤ ℤ :=
  if r = 0 then .done (-1) else .recv (r - 1) fun prev => .done prev

/-- **The messages of `isSorted`** on rank `r`, which return `prev`. -/
def exchange (size r : ℕ) (m : ℤ) : Proc ℕ ℤ ℤ :=
  if r % 2 = 0 then sendNext size r m (recvPrev r)
  else .recv (r - 1) fun prev => sendNext size r m (.done prev)

def start (ids : List (List ℤ)) : Net ℕ ℤ ℤ :=
  idle fun r => if r < ids.length then exchange ids.length r (my (ids.getD r [])) else .done (-1)

def prevOf (ids : List (List ℤ)) (r : ℕ) : ℤ := if r = 0 then -1 else my (ids.getD (r - 1) [])

def finish (ids : List (List ℤ)) (r : ℕ) : Proc ℕ ℤ ℤ :=
  if r < ids.length then .done (prevOf ids r) else .done (-1)

def halfway (ids : List (List ℤ)) (r : ℕ) : Proc ℕ ℤ ℤ :=
  if r < ids.length then
    if r % 2 = 0 then recvPrev r
    else sendNext ids.length r (my (ids.getD r [])) (.done (prevOf ids r))
  else .done (-1)

lemma handshakes_of_pairs {p q : ℕ → Proc ℕ ℤ ℤ} (c N : ℕ) (hrest : ∀ r, r < c ∨ 2 * N + c ≤ r → p r = q r)
    (hpair : ∀ n < N, ∃ m k k', p (2 * n + c) = .send (2 * n + c + 1) m k ∧
      p (2 * n + c + 1) = .recv (2 * n + c) k' ∧ q (2 * n + c) = k ∧ q (2 * n + c + 1) = k' m) :
    Handshakes p q := by
  have hpairs : Evolves (fun _ => False)
      ((Finset.range N).biUnion fun n => {2 * n + c, 2 * n + c + 1}) p q := by
    refine Evolves.biUnion _ _ (fun a _ b _ hab => ?_) fun n hn => ?_
    · rw [Finset.disjoint_left]
      intro x hx hx'
      simp only [Finset.mem_insert, Finset.mem_singleton] at hx hx'
      omega
    · obtain ⟨m, k, k', hsend, hrecv, hk, hk'⟩ := hpair n (Finset.mem_range.mp hn)
      exact Evolves.talk (Nat.ne_of_lt (Nat.lt_succ_self _)) hsend hrecv hk hk'
  rcases hpairs p fun _ _ => rfl with ⟨_, _, hfalse⟩ | hhandshakes
  · exact hfalse.elim
  · have heq : (fun i => if i ∈ (Finset.range N).biUnion fun n => {2 * n + c, 2 * n + c + 1} then q i
        else p i) = q := by
      funext r
      split_ifs with hr
      · rfl
      · refine hrest r ?_
        by_contra hcon
        refine hr (Finset.mem_biUnion.mpr ⟨(r - c) / 2, Finset.mem_range.mpr (by omega), ?_⟩)
        simp only [Finset.mem_insert, Finset.mem_singleton]
        omega
    rwa [heq] at hhandshakes

lemma start_halfway (ids : List (List ℤ)) : Handshakes (start ids).proc (halfway ids) := by
  refine handshakes_of_pairs 0 (ids.length / 2) (fun r hr => ?_) fun n hn => ?_
  · rw [start, idle_proc, halfway]
    by_cases hlt : r < ids.length
    · -- the last rank, which has nobody to send to
      have heven : r % 2 = 0 := by omega
      rw [if_pos hlt, if_pos hlt, exchange, if_pos heven, if_pos heven, sendNext, if_neg (by omega)]
    · rw [if_neg hlt, if_neg hlt]
  · refine ⟨my (ids.getD (2 * n) []), recvPrev (2 * n), fun prev =>
      sendNext ids.length (2 * n + 1) (my (ids.getD (2 * n + 1) [])) (.done prev), ?_, ?_, ?_, ?_⟩
    · rw [start, idle_proc, Nat.add_zero, if_pos (by omega), exchange, if_pos (by omega), sendNext,
        if_pos (by omega)]
    · rw [start, idle_proc, Nat.add_zero, if_pos (by omega), exchange, if_neg (by omega)]
      rfl
    · rw [halfway, Nat.add_zero, if_pos (by omega), if_pos (by omega)]
    · rw [halfway, Nat.add_zero, if_pos (by omega), if_neg (by omega), prevOf, if_neg (by omega)]
      rfl

lemma halfway_finish (ids : List (List ℤ)) : Handshakes (halfway ids) (finish ids) := by
  refine handshakes_of_pairs 1 ((ids.length - 1) / 2) (fun r hr => ?_) fun n hn => ?_
  · rw [halfway, finish]
    by_cases hlt : r < ids.length
    · rw [if_pos hlt, if_pos hlt]
      rcases hr with hzero | hlast
      · obtain rfl : r = 0 := by omega
        rw [if_pos rfl, recvPrev, if_pos rfl, prevOf, if_pos rfl]
      · rw [if_neg (by omega), sendNext, if_neg (by omega)]
    · rw [if_neg hlt, if_neg hlt]
  · refine ⟨my (ids.getD (2 * n + 1) []), .done (prevOf ids (2 * n + 1)), fun prev => .done prev,
      ?_, ?_, ?_, ?_⟩
    · rw [halfway, if_pos (by omega), if_neg (by omega), sendNext, if_pos (by omega)]
    · rw [halfway, if_pos (by omega), if_pos (by omega), recvPrev, if_neg (by omega)]
      rfl
    · rw [finish, if_pos (by omega)]
    · rw [finish, if_pos (by omega), prevOf, if_neg (by omega)]
      rfl

lemma start_handshakes (ids : List (List ℤ)) : Handshakes (start ids).proc (finish ids) :=
  (start_halfway ids).trans (halfway_finish ids)

lemma finish_finished (ids : List (List ℤ)) : Finished (idle (finish ids)) := by
  intro r
  rw [idle_proc, finish]
  split_ifs
  · exact ⟨_, rfl⟩
  · exact ⟨_, rfl⟩

/-! ## The result -/

/-- `std::is_sorted` -/
def locallySorted (ids : List ℤ) : Bool := decide (ids.IsChain (· ≤ ·))

/-- What a rank gives to the second reduction; `sorted` is true in front of it. -/
def behind (prev : ℤ) : List ℤ → Bool
  | [] => true
  | front :: _ => decide (prev < front)

/-- **`isSorted` can return** `b` to all ranks: `MPI_MIN` of the first flags, or of the second flags
behind some run. -/
def Returns (ids : List (List ℤ)) (b : Bool) : Prop :=
  if ids.all locallySorted then
    ∃ (t : Net ℕ ℤ ℤ) (prev : ℕ → ℤ), Moves (start ids) t ∧
      (∀ r < ids.length, t.proc r = .done (prev r)) ∧
      b = (List.range ids.length).all fun r => behind (prev r) (ids.getD r [])
  else b = false

/-- **The IDs are sorted**: weakly on a rank, strictly between ranks. -/
def Sorted (ids : List (List ℤ)) : Prop :=
  (∀ l ∈ ids, l.Pairwise (· ≤ ·)) ∧ ids.Pairwise fun l l' => ∀ a ∈ l, ∀ b ∈ l', a < b

/-- **The test is right**: its messages never block, it returns, and it returns whether the IDs are
sorted. -/
structure IsSortedRight (ids : List (List ℤ)) : Prop where
  neverBlocks : NeverBlocks (start ids)
  returns : ∃ b, Returns ids b
  right : ∀ b, Returns ids b → (b = true ↔ Sorted ids)

def result (ids : List (List ℤ)) : Bool :=
  ids.all locallySorted &&
    (List.range ids.length).all fun r => behind (prevOf ids r) (ids.getD r [])

lemma start_neverBlocks (ids : List (List ℤ)) : NeverBlocks (start ids) :=
  (start_handshakes ids).neverBlocks (finish_finished ids)

lemma returns_iff {ids : List (List ℤ)} {b : Bool} : Returns ids b ↔ b = result ids := by
  rw [Returns, result]
  split_ifs with hlocal
  · rw [hlocal, Bool.true_and]
    have hreaches : Reaches (start ids) (idle (finish ids)) := (start_handshakes ids).reaches
    constructor
    · rintro ⟨t, prev, hmoves, hprev, rfl⟩
      rw [Bool.eq_iff_iff, List.all_eq_true, List.all_eq_true]
      refine forall₂_congr fun r hr => ?_
      have hlt := List.mem_range.mp hr
      have hdone := (finish_finished ids).result_unique hreaches hmoves.reaches (hprev r hlt)
      rw [idle_proc, finish, if_pos hlt] at hdone
      rw [(Proc.done.inj hdone).symm]
    · rintro rfl
      obtain ⟨n, hrun⟩ := hreaches
      refine ⟨_, prevOf ids, hrun.moves, fun r hr => ?_, rfl⟩
      rw [idle_proc, finish, if_pos hr]
  · rw [Bool.eq_false_iff.mpr hlocal, Bool.false_and]

lemma isSortedRight_iff {ids : List (List ℤ)} :
    IsSortedRight ids ↔ (result ids = true ↔ Sorted ids) := by
  constructor
  · intro h
    exact h.right _ (returns_iff.mpr rfl)
  · intro h
    refine ⟨start_neverBlocks ids, ⟨_, returns_iff.mpr rfl⟩, fun b hb => ?_⟩
    rw [returns_iff.mp hb, h]

/-! ## The lists of the ranks -/

def Adjacent (ids : List (List ℤ)) : Prop :=
  ∀ r, ∀ l ∈ ids[r]?, ∀ l' ∈ ids[r + 1]?, ∀ a ∈ l.getLast?, ∀ b ∈ l'.head?, a < b

/-- Ranks behind an empty rank, and the first rank, have no negative IDs. -/
def Nonnegative (ids : List (List ℤ)) : Prop :=
  ∀ r, ∀ l ∈ ids[r]?, (r = 0 ∨ ids[r - 1]? = some []) → ∀ b ∈ l.head?, 0 ≤ b

def AcrossEmpty (ids : List (List ℤ)) : Prop :=
  ∀ r s, r + 1 < s → (∀ q, r < q → q < s → ids[q]? = some []) →
    ∀ l ∈ ids[r]?, ∀ l' ∈ ids[s]?, ∀ a ∈ l.getLast?, ∀ b ∈ l'.head?, a < b

lemma behind_iff {prev : ℤ} {l : List ℤ} : behind prev l = true ↔ ∀ b ∈ l.head?, prev < b := by
  cases l <;> simp [behind]

lemma locallySorted_iff {l : List ℤ} : locallySorted l = true ↔ l.Pairwise (· ≤ ·) := by
  rw [locallySorted, decide_eq_true_eq, List.isChain_iff_pairwise]

lemma behind_prevOf_iff {ids : List (List ℤ)} {r : ℕ} {l : List ℤ} (hl : ids[r]? = some l) :
    (∀ b ∈ l.head?, prevOf ids r < b) ↔
      (∀ l' ∈ ids[r - 1]?, r ≠ 0 → ∀ a ∈ l'.getLast?, ∀ b ∈ l.head?, a < b) ∧
      ((r = 0 ∨ ids[r - 1]? = some []) → ∀ b ∈ l.head?, 0 ≤ b) := by
  rw [prevOf]
  rcases Nat.eq_zero_or_pos r with rfl | hpos
  · rw [if_pos rfl]
    constructor
    · intro h
      refine ⟨fun _ _ hne => absurd rfl hne, fun _ b hb => ?_⟩
      have := h b hb
      omega
    · rintro ⟨-, h⟩ b hb
      have := h (Or.inl rfl) b hb
      omega
  · rw [if_neg (Nat.ne_of_gt hpos)]
    obtain ⟨hr, -⟩ := List.getElem?_eq_some_iff.mp hl
    obtain ⟨l', hl'⟩ : ∃ l', ids[r - 1]? = some l' := ⟨_, List.getElem?_eq_getElem (by omega)⟩
    rw [List.getD_eq_getElem?_getD, hl', Option.getD_some, my, List.getLastD_eq_getLast?]
    rcases hlast : l'.getLast? with _ | a
    · obtain rfl := List.getLast?_eq_none_iff.mp hlast
      rw [Option.getD_none]
      constructor
      · intro h
        refine ⟨fun l₂ hl₂ _ a ha => ?_, fun _ b hb => ?_⟩
        · obtain rfl := Option.some.inj hl₂
          rw [hlast] at ha
          cases ha
        · have := h b hb
          omega
      · rintro ⟨-, h⟩ b hb
        have := h (Or.inr rfl) b hb
        omega
    · rw [Option.getD_some]
      constructor
      · intro h
        refine ⟨fun l₂ hl₂ _ a₂ ha₂ b hb => ?_, fun hempty => ?_⟩
        · obtain rfl := Option.some.inj hl₂
          obtain rfl := Option.some.inj (hlast.symm.trans ha₂)
          exact h b hb
        · rcases hempty with hzero | hempty
          · omega
          · rw [Option.some.inj hempty] at hlast
            cases hlast
      · rintro ⟨h, -⟩ b hb
        exact h l' rfl (Nat.ne_of_gt hpos) a hlast b hb

lemma result_iff {ids : List (List ℤ)} : result ids = true ↔
    (∀ l ∈ ids, l.Pairwise (· ≤ ·)) ∧ Adjacent ids ∧ Nonnegative ids := by
  rw [result, Bool.and_eq_true, List.all_eq_true, List.all_eq_true]
  refine and_congr (forall₂_congr fun l _ => locallySorted_iff) ?_
  have hrank : ∀ r l, ids[r]? = some l →
      (behind (prevOf ids r) (ids.getD r []) = true ↔ ∀ b ∈ l.head?, prevOf ids r < b) := by
    intro r l hl
    rw [List.getD_eq_getElem?_getD, hl, Option.getD_some, behind_iff]
  constructor
  · intro h
    have hall : ∀ r l, ids[r]? = some l → ∀ b ∈ l.head?, prevOf ids r < b := by
      intro r l hl
      obtain ⟨hr, -⟩ := List.getElem?_eq_some_iff.mp hl
      exact (hrank r l hl).mp (h r (List.mem_range.mpr hr))
    constructor
    · intro r l hl l' hl'
      exact ((behind_prevOf_iff hl').mp (hall (r + 1) l' hl')).1 l hl (Nat.succ_ne_zero r)
    · exact fun r l hl => ((behind_prevOf_iff hl).mp (hall r l hl)).2
  · rintro ⟨hadjacent, hnonnegative⟩ r hr
    have hl := List.getElem?_eq_getElem (List.mem_range.mp hr)
    refine (hrank r _ hl).mpr ((behind_prevOf_iff hl).mpr ⟨fun l' hl' hne => ?_, hnonnegative r _ hl⟩)
    refine hadjacent (r - 1) l' hl' _ ?_
    rwa [Nat.sub_add_cancel (Nat.pos_of_ne_zero hne)]

lemma le_getLast?_of_mem {l : List ℤ} (h : l.Pairwise (· ≤ ·)) {x : ℤ} (hx : x ∈ l) :
    ∃ a ∈ l.getLast?, x ≤ a := by
  obtain ⟨l', a, rfl⟩ := (List.eq_nil_or_concat l).resolve_left (List.ne_nil_of_mem hx)
  rw [List.concat_eq_append] at h hx ⊢
  refine ⟨a, List.getLast?_concat, ?_⟩
  rcases List.mem_append.mp hx with hmem | hmem
  · exact (List.pairwise_append.mp h).2.2 x hmem a (List.mem_singleton_self a)
  · exact (List.mem_singleton.mp hmem).le

lemma head?_le_of_mem {l : List ℤ} (h : l.Pairwise (· ≤ ·)) {x : ℤ} (hx : x ∈ l) :
    ∃ b ∈ l.head?, b ≤ x := by
  cases l with
  | nil => cases hx
  | cons b l =>
      refine ⟨b, rfl, ?_⟩
      rcases List.mem_cons.mp hx with rfl | hmem
      · exact le_rfl
      · exact (List.pairwise_cons.mp h).1 x hmem

lemma sorted_iff {ids : List (List ℤ)} : Sorted ids ↔
    (∀ l ∈ ids, l.Pairwise (· ≤ ·)) ∧ Adjacent ids ∧ AcrossEmpty ids := by
  refine and_congr_right fun hlocal => ?_
  constructor
  · intro h
    have hranks : ∀ r s : ℕ, r < s → ∀ l ∈ ids[r]?, ∀ l' ∈ ids[s]?, ∀ a ∈ l.getLast?, ∀ b ∈ l'.head?,
        a < b := by
      intro r s hrs l hl l' hl' a ha b hb
      obtain ⟨hr, rfl⟩ := List.getElem?_eq_some_iff.mp hl
      obtain ⟨hs, rfl⟩ := List.getElem?_eq_some_iff.mp hl'
      exact List.pairwise_iff_getElem.mp h r s hr hs hrs a (List.mem_of_getLast? ha) b
        (List.mem_of_head? hb)
    exact ⟨fun r => hranks r (r + 1) (Nat.lt_succ_self r),
      fun r s hrs _ => hranks r s (Nat.lt_of_succ_lt hrs)⟩
  · rintro ⟨hadjacent, hempty⟩
    have hranks : ∀ d r : ℕ, ∀ l ∈ ids[r]?, ∀ l' ∈ ids[r + d + 1]?, ∀ a ∈ l, ∀ b ∈ l', a < b := by
      intro d
      induction d using Nat.strong_induction_on with
      | _ d ih =>
          intro r l hl l' hl' a ha b hb
          have hsorted := hlocal l (List.mem_of_getElem? hl)
          have hsorted' := hlocal l' (List.mem_of_getElem? hl')
          obtain ⟨last, hlast, hle⟩ := le_getLast?_of_mem hsorted ha
          obtain ⟨front, hfront, hge⟩ := head?_le_of_mem hsorted' hb
          by_cases hbetween : ∀ q, r < q → q < r + d + 1 → ids[q]? = some []
          · have hlt : last < front := by
              rcases Nat.eq_zero_or_pos d with rfl | hpos
              · exact hadjacent r l hl l' hl' last hlast front hfront
              · exact hempty r (r + d + 1) (by omega) hbetween l hl l' hl' last hlast front hfront
            omega
          · -- a rank between them that has IDs
            push Not at hbetween
            obtain ⟨q, hrq, hqs, hne⟩ := hbetween
            obtain ⟨hs, -⟩ := List.getElem?_eq_some_iff.mp hl'
            have hq := List.getElem?_eq_getElem (show q < ids.length by omega)
            obtain ⟨x, hx⟩ := List.exists_mem_of_ne_nil ids[q] fun h => hne (by rw [hq, h])
            have hfirst := ih (q - r - 1) (by omega) r l hl ids[q]
              (by rwa [show r + (q - r - 1) + 1 = q by omega]) a ha x hx
            have hsecond := ih (r + d - q) (by omega) q ids[q] hq l'
              (by rwa [show q + (r + d - q) + 1 = r + d + 1 by omega]) x hx b hb
            exact hfirst.trans hsecond
    refine List.pairwise_iff_getElem.mpr fun r s hr hs hrs => ?_
    refine hranks (s - r - 1) r _ (List.getElem?_eq_getElem hr) _ ?_
    rw [show r + (s - r - 1) + 1 = s by omega]
    exact List.getElem?_eq_getElem hs

/-- **The test for sorted IDs is right** if and only if a list or two neighbours are out of order,
or the first rank and the ranks behind empty ranks have no negative IDs exactly when ranks with only
empty ranks between them are in order. -/
theorem isSorted_right_iff (ids : List (List ℤ)) : IsSortedRight ids ↔
    ((∀ l ∈ ids, l.Pairwise (· ≤ ·)) → Adjacent ids → (Nonnegative ids ↔ AcrossEmpty ids)) := by
  rw [isSortedRight_iff, result_iff, sorted_iff]
  constructor
  · intro h hlocal hadjacent
    exact ⟨fun hn => (h.mp ⟨hlocal, hadjacent, hn⟩).2.2, fun he => (h.mpr ⟨hlocal, hadjacent, he⟩).2.2⟩
  · intro h
    exact and_congr_right fun hlocal => and_congr_right fun hadjacent => h hlocal hadjacent

/-- **The rank behind an empty one compares its IDs with -1**: 5 and 3 pass as sorted. -/
theorem emptyBetween_not_right : ¬IsSortedRight [[5], [], [3]] := by
  intro h
  have hsorted := (h.right _ (returns_iff.mpr rfl)).mp (by decide)
  have hlt := (List.pairwise_cons.mp hsorted.2).1 [3] (by simp) 5 (by simp) 3 (by simp)
  exact absurd hlt (by decide)

end Input

end Espreso
