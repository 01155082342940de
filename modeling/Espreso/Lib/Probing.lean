import Espreso.Lib.Process

/-!
# Processes that probe

A group of processes in which a receive may take a message of any other process, or of any of some
processes. The processes also meet in reductions and barriers, which all of them pass at once. What
such a group computes may depend on the order in which messages are received, so results are about
all runs.

* `Proc`, `Net` — the processes of a group, and the messages in flight.
* **`Leads.of_invariant`** — they do if an invariant holds until then, and a measure decreases.
* **`Ends.of_invariant`** — they do if each step decreases the measure.
-/

namespace Probing

open Function MsgPass

/-! ## Groups of processes -/

/-- A process of a group `ι` with messages `M`, contributions `V` to reductions and results `R`. -/
inductive Proc (ι M V R : Type) : Type
  | done (r : R) : Proc ι M V R
  | send (dst : ι) (m : M) (k : Proc ι M V R) : Proc ι M V R
  | probe (k : ι → M → Proc ι M V R) : Proc ι M V R
  | wait (sources : List ι) (k : ι → M → Proc ι M V R) : Proc ι M V R
  | reduce (v : V) (k : V → Proc ι M V R) : Proc ι M V R
  | barrier (k : Proc ι M V R) : Proc ι M V R

/-- What each process still has to do, and the messages in flight. -/
structure Net (ι M V R : Type) where
  proc : ι → Proc ι M V R
  chan : ι → ι → List M

variable {ι M V R : Type} [DecidableEq ι] {total : (ι → V) → V}

/-- **A step.** A message is taken from any process that has sent one, and messages of one process
are taken in their order. -/
inductive Step (total : (ι → V) → V) : Net ι M V R → Net ι M V R → Prop
  | send {s : Net ι M V R} {i dst : ι} {m : M} {k : Proc ι M V R} (h : s.proc i = .send dst m k) :
    Step total s ⟨update s.proc i k, setChan s.chan i dst (s.chan i dst ++ [m])⟩
  | probe {s : Net ι M V R} {i src : ι} {m : M} {rest : List M} {k : ι → M → Proc ι M V R}
    (h : s.proc i = .probe k) (hchan : s.chan src i = m :: rest) :
    Step total s ⟨update s.proc i (k src m), setChan s.chan src i rest⟩
  | wait {s : Net ι M V R} {i src : ι} {m : M} {rest : List M} {sources : List ι}
    {k : ι → M → Proc ι M V R} (h : s.proc i = .wait sources k) (hmem : src ∈ sources)
    (hchan : s.chan src i = m :: rest) :
    Step total s ⟨update s.proc i (k src m), setChan s.chan src i rest⟩
  | reduce {s : Net ι M V R} {v : ι → V} {k : ι → V → Proc ι M V R}
    (h : ∀ i, s.proc i = .reduce (v i) (k i)) : Step total s ⟨fun i => k i (total v), s.chan⟩
  | barrier {s : Net ι M V R} {k : ι → Proc ι M V R} (h : ∀ i, s.proc i = .barrier (k i)) :
    Step total s ⟨k, s.chan⟩

/-- `Run total n s t`: some order of `n` steps leads from `s` to `t`. -/
inductive Run (total : (ι → V) → V) : ℕ → Net ι M V R → Net ι M V R → Prop
  | refl (s : Net ι M V R) : Run total 0 s s
  | step {n : ℕ} {s t u : Net ι M V R} : Step total s t → Run total n t u → Run total (n + 1) s u

/-! ## States that all runs pass -/

/-- **All runs pass `u`**: after a bounded number of steps a run has passed it, and before it can be
continued to it. -/
def Leads (total : (ι → V) → V) (s u : Net ι M V R) : Prop :=
  ∃ bound, ∀ n t, Run total n s t → (n ≤ bound ∧ ∃ m, Run total m t u) ∨
    ∃ a m, a ≤ bound ∧ n = a + m ∧ Run total m u t

/-- **All runs end in `u`.** -/
def Ends (total : (ι → V) → V) (s u : Net ι M V R) : Prop :=
  ∃ bound, ∀ n t, Run total n s t → n ≤ bound ∧ ∃ m, Run total m t u

lemma Run.trans {n m : ℕ} {s t u : Net ι M V R} (h : Run total n s t) (h' : Run total m t u) :
    Run total (n + m) s u := by
  induction h with
  | refl s => rwa [Nat.zero_add]
  | step hstep _ ih =>
      rw [Nat.add_right_comm]
      exact .step hstep (ih h')

lemma Leads.exists_run {s u : Net ι M V R} (h : Leads total s u) : ∃ m, Run total m s u := by
  obtain ⟨bound, h⟩ := h
  rcases h 0 s (.refl s) with ⟨-, m, hm⟩ | ⟨a, m, -, hzero, hm⟩
  · exact ⟨m, hm⟩
  · obtain rfl : m = 0 := by omega
    cases hm
    exact ⟨0, .refl s⟩

lemma Leads.trans {s t u : Net ι M V R} (h : Leads total s t) (h' : Leads total t u) :
    Leads total s u := by
  obtain ⟨m', hm'⟩ := h'.exists_run
  obtain ⟨bound, h⟩ := h
  obtain ⟨bound', h'⟩ := h'
  refine ⟨bound + bound', fun n x hrun => ?_⟩
  rcases h n x hrun with ⟨hn, m, hm⟩ | ⟨a, m, ha, rfl, hm⟩
  · exact Or.inl ⟨hn.trans (Nat.le_add_right _ _), m + m', hm.trans hm'⟩
  · rcases h' m x hm with ⟨hle, hreach⟩ | ⟨a', k, ha', rfl, hk⟩
    · exact Or.inl ⟨Nat.add_le_add ha hle, hreach⟩
    · exact Or.inr ⟨a + a', k, Nat.add_le_add ha ha', (Nat.add_assoc _ _ _).symm, hk⟩

lemma Leads.ends {s u : Net ι M V R} (h : Leads total s u) (hu : ∀ t, ¬Step total u t) :
    Ends total s u := by
  obtain ⟨bound, h⟩ := h
  refine ⟨bound, fun n t hrun => ?_⟩
  rcases h n t hrun with hbefore | ⟨a, m, ha, rfl, hm⟩
  · exact hbefore
  · cases hm with
    | refl => exact ⟨ha, 0, .refl u⟩
    | step hstep _ => exact absurd hstep (hu _)

section Invariant

variable {γ : Type} {Inv : γ → Net ι M V R → Prop} {measure : γ → ℕ} {u : Net ι M V R}

lemma Run.invariant
    (hstep : ∀ g s t, Inv g s → Step total s t → (∃ g', Inv g' t ∧ measure g' < measure g) ∨ t = u)
    {n : ℕ} {s t : Net ι M V R} (hrun : Run total n s t) {g : γ} (h : Inv g s) :
    (∃ g', Inv g' t ∧ n + measure g' ≤ measure g) ∨
      ∃ a m, a ≤ measure g + 1 ∧ n = a + m ∧ Run total m u t := by
  induction hrun generalizing g with
  | refl s => exact Or.inl ⟨g, h, (Nat.zero_add _).le⟩
  | @step n s x t hfirst hrest ih =>
      rcases hstep g s x h hfirst with ⟨g', hg', hless⟩ | rfl
      · rcases ih hg' with ⟨g'', hg'', hle⟩ | ⟨a, m, ha, rfl, hm⟩
        · exact Or.inl ⟨g'', hg'', by omega⟩
        · exact Or.inr ⟨a + 1, m, by omega, Nat.add_right_comm a m 1, hm⟩
      · exact Or.inr ⟨1, n, by omega, Nat.add_comm n 1, hrest⟩

lemma Run.exists_of_invariant
    (hmove : ∀ g s, Inv g s → s = u ∨
      ∃ t, Step total s t ∧ (t = u ∨ ∃ g', Inv g' t ∧ measure g' < measure g))
    {g : γ} {s : Net ι M V R} (h : Inv g s) : ∃ m, Run total m s u := by
  induction hk : measure g using Nat.strong_induction_on generalizing g s with
  | h k ih =>
      rcases hmove g s h with rfl | ⟨t, ht, rfl | ⟨g', hg', hless⟩⟩
      · exact ⟨0, .refl s⟩
      · exact ⟨1, .step ht (.refl _)⟩
      · obtain ⟨m, hm⟩ := ih (measure g') (hk ▸ hless) hg' rfl
        exact ⟨m + 1, .step ht hm⟩

/-- **The invariant rule.** A step keeps the invariant for a smaller measure, or arrives at `u`, and
there always is a step. -/
theorem Leads.of_invariant
    (hstep : ∀ g s t, Inv g s → Step total s t → (∃ g', Inv g' t ∧ measure g' < measure g) ∨ t = u)
    (hmove : ∀ g s, Inv g s → ∃ t, Step total s t) {g : γ} {s : Net ι M V R} (h : Inv g s) :
    Leads total s u := by
  have hreach : ∀ g s, Inv g s → s = u ∨
      ∃ t, Step total s t ∧ (t = u ∨ ∃ g', Inv g' t ∧ measure g' < measure g) := by
    intro g s hg
    obtain ⟨t, ht⟩ := hmove g s hg
    exact Or.inr ⟨t, ht, (hstep g s t hg ht).symm⟩
  refine ⟨measure g + 1, fun n t hrun => ?_⟩
  rcases hrun.invariant hstep h with ⟨g', hg', hle⟩ | hpassed
  · exact Or.inl ⟨by omega, Run.exists_of_invariant hreach hg'⟩
  · exact Or.inr hpassed

lemma Run.add_measure_le
    (hstep : ∀ g s t, Inv g s → Step total s t → ∃ g', Inv g' t ∧ measure g' < measure g)
    {n : ℕ} {s t : Net ι M V R} (hrun : Run total n s t) {g : γ} (h : Inv g s) :
    ∃ g', Inv g' t ∧ n + measure g' ≤ measure g := by
  induction hrun generalizing g with
  | refl s => exact ⟨g, h, (Nat.zero_add _).le⟩
  | step hfirst _ ih =>
      obtain ⟨g', hg', hless⟩ := hstep _ _ _ h hfirst
      obtain ⟨g'', hg'', hle⟩ := ih hg'
      exact ⟨g'', hg'', by omega⟩

/-- **The invariant rule for the end.** Each step keeps the invariant for a smaller measure, and
there is a step as long as `u` is not reached. -/
theorem Ends.of_invariant
    (hstep : ∀ g s t, Inv g s → Step total s t → ∃ g', Inv g' t ∧ measure g' < measure g)
    (hmove : ∀ g s, Inv g s → s = u ∨ ∃ t, Step total s t) {g : γ} {s : Net ι M V R}
    (h : Inv g s) : Ends total s u := by
  have hreach : ∀ g s, Inv g s → s = u ∨
      ∃ t, Step total s t ∧ (t = u ∨ ∃ g', Inv g' t ∧ measure g' < measure g) := by
    intro g s hg
    rcases hmove g s hg with hend | ⟨t, ht⟩
    · exact Or.inl hend
    · exact Or.inr ⟨t, ht, Or.inr (hstep g s t hg ht)⟩
  refine ⟨measure g, fun n t hn => ?_⟩
  obtain ⟨g', hg', hle⟩ := hn.add_measure_le hstep h
  exact ⟨by omega, Run.exists_of_invariant hreach hg'⟩

end Invariant

lemma Leads.reduce [Nonempty ι] {v : ι → V} {k : ι → V → Proc ι M V R} {chan : ι → ι → List M} :
    Leads total ⟨fun i => .reduce (v i) (k i), chan⟩ ⟨fun i => k i (total v), chan⟩ := by
  have hfirst : Step total ⟨fun i => .reduce (v i) (k i), chan⟩ ⟨fun i => k i (total v), chan⟩ :=
    .reduce fun i => rfl
  have honly : ∀ t, Step total ⟨fun i => .reduce (v i) (k i), chan⟩ t →
      t = ⟨fun i => k i (total v), chan⟩ := by
    intro t hstep
    cases hstep with
    | send h => cases h
    | probe h _ => cases h
    | wait h _ _ => cases h
    | @reduce v' k' h =>
        have hv : v = v' := funext fun i => (Proc.reduce.inj (h i)).1
        have hk : k = k' := funext fun i => (Proc.reduce.inj (h i)).2
        rw [hv, hk]
    | barrier h => cases h (Classical.arbitrary ι)
  refine ⟨1, fun n t hrun => ?_⟩
  cases hrun with
  | refl => exact Or.inl ⟨Nat.zero_le 1, 1, .step hfirst (.refl _)⟩
  | @step n _ t _ hstep hrest =>
      rw [honly t hstep] at hrest
      exact Or.inr ⟨1, n, le_rfl, Nat.add_comm n 1, hrest⟩

end Probing
