import Espreso.Lib.Process

/-!
# Sends that may block

A send may wait until its message is received, or it may leave the message in a buffer and return;
which of both happens can differ from message to message.  A program is safe when it does not rely
on buffers.

* `Move`, `Moves` — steps in which a message is buffered or handed over.
* **`Handshakes.neverBlocks`** — a network that comes to its end by handshakes alone never blocks,
  whichever messages are buffered on the way.
-/

namespace MsgPass

open Function

variable {ι M R : Type} [DecidableEq ι]

/-- A step: a message is buffered, a message is received from a buffer, or a message is handed
over to a process that waits for it. -/
inductive Move : Net ι M R → Net ι M R → Prop
  | single {i : ι} {s t : Net ι M R} (h : stepOf i s = some t) : Move s t
  | handOver {i j : ι} {m : M} {k : Proc ι M R} {k' : M → Proc ι M R} {s : Net ι M R}
      (hij : i ≠ j) (hi : s.proc i = .send j m k) (hj : s.proc j = .recv i k')
      (hchan : s.chan i j = []) : Move s ⟨update (update s.proc i k) j (k' m), s.chan⟩

abbrev Moves : Net ι M R → Net ι M R → Prop := Relation.ReflTransGen Move

/-- Somebody can receive a buffered message, or two processes can hand over a message. -/
def Unblocked (s : Net ι M R) : Prop :=
  (∃ i src k, s.proc i = .recv src k ∧ s.chan src i ≠ []) ∨
    ∃ i j m k k', i ≠ j ∧ s.proc i = .send j m k ∧ s.proc j = .recv i k' ∧ s.chan i j = []

/-- **It never blocks**: in each state that can be reached somebody can move without a buffer,
unless all have finished, and there is no infinite sequence of steps. -/
structure NeverBlocks (s : Net ι M R) : Prop where
  progress : ∀ t, Moves s t → Finished t ∨ Unblocked t
  ends : ¬∃ run : ℕ → Net ι M R, run 0 = s ∧ ∀ n, Move (run n) (run (n + 1))

lemma Move.run {s t : Net ι M R} (h : Move s t) : ∃ n, Run (n + 1) s t := by
  cases h with
  | single h => exact ⟨0, Run.step h (Run.refl t)⟩
  | @handOver i j m k k' s hij hi hj hchan =>
      have hj' : update s.proc i k j = .recv i k' := by rw [update_of_ne hij.symm, hj]
      have hqueue : setChan s.chan i j (s.chan i j ++ [m]) i j = m :: [] := by
        rw [setChan_self, hchan, List.nil_append]
      have hback : setChan (setChan s.chan i j (s.chan i j ++ [m])) i j [] = s.chan := by
        rw [setChan_setChan, ← hchan, setChan_eq_self]
      have hrecv := stepOf_recv
        (s := ⟨update s.proc i k, setChan s.chan i j (s.chan i j ++ [m])⟩) hj' hqueue
      dsimp only at hrecv
      rw [hback] at hrecv
      exact ⟨1, Run.step (stepOf_send hi) (Run.step hrecv (Run.refl _))⟩

lemma Moves.reaches {s t : Net ι M R} (h : Moves s t) : Reaches s t := by
  induction h with
  | refl => exact Reaches.refl s
  | tail _ hstep ih =>
      obtain ⟨n, hrun⟩ := hstep.run
      exact ih.trans ⟨n + 1, hrun⟩

lemma Run.moves {n : ℕ} {s t : Net ι M R} (h : Run n s t) : Moves s t := by
  induction h with
  | refl s => exact Relation.ReflTransGen.refl
  | step hs _ ih => exact Relation.ReflTransGen.head (Move.single hs) ih

/-! ## A process that has not moved -/

lemma stepOf_chan_suffix {i j : ι} (hij : i ≠ j) {s t : Net ι M R} (h : stepOf j s = some t)
    (x : ι) : t.chan i x <:+ s.chan i x := by
  rcases stepOf_cases h with ⟨d, m, k, -, rfl⟩ | ⟨src, k, m, rest, -, hqueue, rfl⟩
  · dsimp only
    rw [setChan_other _ _ fun h => hij h.1]
  · dsimp only
    by_cases hx : i = src ∧ x = j
    · obtain ⟨rfl, rfl⟩ := hx
      rw [setChan_self, hqueue]
      exact List.suffix_cons m rest
    · rw [setChan_other _ _ hx]

lemma stepOf_proc_of_ne {i j : ι} (hij : i ≠ j) {s t : Net ι M R} (h : stepOf j s = some t) :
    t.proc i = s.proc i := by
  rcases stepOf_cases h with ⟨d, m, k, -, rfl⟩ | ⟨src, k, m, rest, -, -, rfl⟩
  · exact update_of_ne hij _ _
  · exact update_of_ne hij _ _

/-- Process `i` has not moved between two states: it can still take its step, its messages can only
have been received, and nobody got anything from it who waits for a message. -/
structure Rests (i : ι) (s t : Net ι M R) : Prop where
  proc : t.proc i = s.proc i
  can : stepOf i t ≠ none
  chan : ∀ x, t.chan i x <:+ s.chan i x
  waiting : ∀ j k, s.proc j = .recv i k → s.chan i j = [] → t.proc j = .recv i k

/-- **A process that can move** has done so in a run, and could have done so at once, or it rests.
-/
lemma Run.moved_or_rests {n : ℕ} {i : ι} {s t u : Net ι M R} (hrun : Run n s t)
    (h : stepOf i s = some u) : Reaches u t ∨ Rests i s t := by
  induction hrun generalizing u with
  | refl s =>
      refine Or.inr ⟨rfl, ?_, fun x => List.suffix_rfl, fun j k hj _ => hj⟩
      rw [h]
      exact Option.some_ne_none u
  | @step n j s s' t hs hrest ih =>
      by_cases hij : i = j
      · subst hij
        rw [hs] at h
        obtain rfl := Option.some.inj h
        exact Or.inl ⟨n, hrest⟩
      · obtain ⟨w, hw, hw'⟩ := stepOf_diamond hij h hs
        rcases ih hw' with hmoved | hrests
        · exact Or.inl ((Reaches.of_step hw).trans hmoved)
        · have hchan := stepOf_chan_suffix hij hs
          refine Or.inr ⟨?_, hrests.can, fun x => (hrests.chan x).trans (hchan x), ?_⟩
          · rw [hrests.proc, stepOf_proc_of_ne hij hs]
          · intro x k hx hempty
            have hxj : x ≠ j := by
              rintro rfl
              rw [stepOf, hx] at hs
              dsimp only at hs
              rw [hempty] at hs
              cases hs
            refine hrests.waiting x k ?_ (List.suffix_nil.mp (hempty ▸ hchan x))
            rw [stepOf_proc_of_ne hxj hs, hx]

/-! ## Handshakes do not block -/

/-- **Behind a handshake**: a state that is reached from its beginning is reached from its end, or
the two processes can still take it. -/
lemma Handshake.behind_or_unblocked {p q : ι → Proc ι M R} (h : Handshake p q) {t : Net ι M R}
    (ht : Reaches (idle p) t) : Reaches (idle q) t ∨ Unblocked t := by
  obtain ⟨i, j, m, k, k', hij, hi, hj, rfl⟩ := h
  obtain ⟨n, hrun⟩ := ht
  have hsend : stepOf i (idle p) = some ⟨update p i k, setChan (fun _ _ => []) i j [m]⟩ := by
    rw [stepOf_send (s := idle p) hi]
    rfl
  have hj' : update p i k j = .recv i k' := by rw [update_of_ne hij.symm, hj]
  have hrecv : stepOf j (⟨update p i k, setChan (fun _ _ => []) i j [m]⟩ : Net ι M R)
      = some (idle (update (update p i k) j (k' m))) := by
    have hqueue : setChan (fun _ _ => ([] : List M)) i j [m] i j = m :: [] := setChan_self _ i j [m]
    rw [stepOf_recv hj' hqueue]
    simp only [Option.some.injEq, idle, Net.mk.injEq, true_and, setChan_setChan]
    exact setChan_eq_self (fun _ _ => []) i j
  rcases hrun.moved_or_rests hsend with ⟨n', hrun'⟩ | hrests
  · -- the message is sent
    rcases hrun'.moved_or_rests hrecv with hmoved | hrests
    · exact Or.inl hmoved
    · have hwaits : t.proc j = .recv i k' := hrests.proc.trans hj'
      refine Or.inr (Or.inl ⟨j, i, k', hwaits, fun hempty => hrests.can ?_⟩)
      rw [stepOf, hwaits]
      dsimp only
      rw [hempty]
  · have hempty : t.chan i j = [] := List.suffix_nil.mp (hrests.chan j)
    have hwaits : t.proc j = .recv i k' := hrests.waiting j k' hj rfl
    exact Or.inr (Or.inr ⟨i, j, m, k, k', hij, hrests.proc.trans hi, hwaits, hempty⟩)

/-- **A network that comes to its end by handshakes never blocks.** -/
theorem Handshakes.neverBlocks {p q : ι → Proc ι M R} (h : Handshakes p q)
    (hq : Finished (idle q)) : NeverBlocks (idle p) := by
  refine ⟨fun t ht => ?_, fun ⟨run, hstart, hmove⟩ => ?_⟩
  · have hreaches := ht.reaches
    clear ht
    induction h with
    | refl p =>
        obtain ⟨n, hrun⟩ := hreaches
        cases hrun with
        | refl => exact Or.inl hq
        | step hs _ =>
            rw [hq.stuck _] at hs
            cases hs
    | step hs _ ih =>
        rcases hs.behind_or_unblocked hreaches with hbehind | hunblocked
        · exact ih hq hbehind
        · exact Or.inr hunblocked
  · obtain ⟨N, hN⟩ := h.reaches
    have hlong : ∀ n, ∃ k, n ≤ k ∧ Run k (idle p) (run n) := by
      intro n
      induction n with
      | zero => exact ⟨0, le_rfl, hstart ▸ Run.refl _⟩
      | succ n ih =>
          obtain ⟨k, hk, hrun⟩ := ih
          obtain ⟨l, hl⟩ := (hmove n).run
          exact ⟨k + (l + 1), by omega, hrun.trans hl⟩
    obtain ⟨k, hk, hrun⟩ := hlong (N + 1)
    have hle := (hq.all_runs hN k _ hrun).1
    omega

end MsgPass
