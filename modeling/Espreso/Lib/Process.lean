import Mathlib.Data.List.Basic
import Mathlib.Data.Finset.Union
import Mathlib.Logic.Function.Basic
import Mathlib.Tactic

/-!
# Message-passing processes

A network of processes that exchange messages over point-to-point channels.  A channel is a FIFO
queue from one process to another, a send never blocks, and a receive names the process it waits
for.  There is no probe over all sources, so the only nondeterminism is *which process moves next*.

* `Proc` — one process: finished, about to send, or waiting for a message of a named peer.
* **`run_extends`** — the diamond property carried along runs: once *some* run of a network ends in
  a state where nobody can move, *every* run can be continued to that state, with the same total
  number of steps.  One schedule therefore decides what all schedules compute.
* `sendAll`, `recvAll`, **`exchange_reaches`** — the exchange pattern: every process posts all its
  sends and then collects one message from each process it expects.
-/

namespace MsgPass

open Function

/-! ## Processes and networks -/

/-- A process over peers `ι` with messages `M` and results `R`. -/
inductive Proc (ι M R : Type) : Type
  | done (r : R) : Proc ι M R
  | send (dst : ι) (m : M) (k : Proc ι M R) : Proc ι M R
  | recv (src : ι) (k : M → Proc ι M R) : Proc ι M R

/-- A network: what each process still has to do, and the messages in flight. -/
structure Net (ι M R : Type) where
  proc : ι → Proc ι M R
  chan : ι → ι → List M

variable {ι M R : Type} [DecidableEq ι]

/-- Replace the queue from `a` to `b`. -/
def setChan (c : ι → ι → List M) (a b : ι) (l : List M) : ι → ι → List M :=
  fun x y => if x = a ∧ y = b then l else c x y

@[simp] lemma setChan_self (c : ι → ι → List M) (a b : ι) (l : List M) :
    setChan c a b l a b = l := by simp [setChan]

lemma setChan_other (c : ι → ι → List M) {a b x y : ι} (l : List M) (h : ¬(x = a ∧ y = b)) :
    setChan c a b l x y = c x y := by simp [setChan, h]

lemma setChan_comm (c : ι → ι → List M) {a b a' b' : ι} (l l' : List M)
    (h : ¬(a = a' ∧ b = b')) :
    setChan (setChan c a b l) a' b' l' = setChan (setChan c a' b' l') a b l := by
  funext x y
  simp only [setChan]
  by_cases h₁ : x = a ∧ y = b
  · have h₂ : ¬(x = a' ∧ y = b') :=
      fun h₂ => h ⟨h₁.1.symm.trans h₂.1, h₁.2.symm.trans h₂.2⟩
    simp only [if_pos h₁, if_neg h₂]
  · simp only [if_neg h₁]

lemma setChan_setChan (c : ι → ι → List M) (a b : ι) (l l' : List M) :
    setChan (setChan c a b l) a b l' = setChan c a b l' := by
  funext x y
  simp only [setChan]
  split <;> rfl

lemma setChan_eq_self (c : ι → ι → List M) (a b : ι) : setChan c a b (c a b) = c := by
  funext x y
  simp only [setChan]
  split
  · rename_i h; rw [h.1, h.2]
  · rfl

/-- The step of process `i`, if it can move: a send appends to the queue, a receive takes the
oldest message of the queue it waits on. -/
def stepOf (i : ι) (s : Net ι M R) : Option (Net ι M R) :=
  match s.proc i with
  | .done _ => none
  | .send dst m k => some ⟨update s.proc i k, setChan s.chan i dst (s.chan i dst ++ [m])⟩
  | .recv src k =>
    match s.chan src i with
    | [] => none
    | m :: rest => some ⟨update s.proc i (k m), setChan s.chan src i rest⟩

lemma stepOf_cases {i : ι} {s t : Net ι M R} (h : stepOf i s = some t) :
    (∃ dst m k, s.proc i = .send dst m k ∧
      t = ⟨update s.proc i k, setChan s.chan i dst (s.chan i dst ++ [m])⟩) ∨
    (∃ src k m rest, s.proc i = .recv src k ∧ s.chan src i = m :: rest ∧
      t = ⟨update s.proc i (k m), setChan s.chan src i rest⟩) := by
  unfold stepOf at h
  split at h
  · cases h
  · rename_i dst m k hp
    exact Or.inl ⟨dst, m, k, hp, (Option.some.inj h).symm⟩
  · rename_i src k hp
    split at h
    · cases h
    · rename_i m rest hc
      exact Or.inr ⟨src, k, m, rest, hp, hc, (Option.some.inj h).symm⟩

lemma stepOf_send {i dst : ι} {m : M} {k : Proc ι M R} {s : Net ι M R}
    (h : s.proc i = .send dst m k) :
    stepOf i s = some ⟨update s.proc i k, setChan s.chan i dst (s.chan i dst ++ [m])⟩ := by
  simp [stepOf, h]

lemma stepOf_recv {i src : ι} {k : M → Proc ι M R} {m : M} {rest : List M} {s : Net ι M R}
    (h : s.proc i = .recv src k) (hc : s.chan src i = m :: rest) :
    stepOf i s = some ⟨update s.proc i (k m), setChan s.chan src i rest⟩ := by
  simp [stepOf, h, hc]

lemma stepOf_done {i : ι} {r : R} {s : Net ι M R} (h : s.proc i = .done r) :
    stepOf i s = none := by
  simp [stepOf, h]

/-- **The diamond.**  Steps of two different processes commute: they touch different processes, and
if they touch the same queue then one appends to it while the other takes its oldest message. -/
theorem stepOf_diamond {i j : ι} (hij : i ≠ j) {s t u : Net ι M R}
    (hi : stepOf i s = some t) (hj : stepOf j s = some u) :
    ∃ w, stepOf j t = some w ∧ stepOf i u = some w := by
  rcases stepOf_cases hi with ⟨d₁, m₁, k₁, hp₁, rfl⟩ | ⟨s₁, k₁, m₁, r₁, hp₁, hc₁, rfl⟩
  · rcases stepOf_cases hj with ⟨d₂, m₂, k₂, hp₂, rfl⟩ | ⟨s₂, k₂, m₂, r₂, hp₂, hc₂, rfl⟩
    · -- two sends: the queues start at different processes
      have hp₁' : update s.proc j k₂ i = .send d₁ m₁ k₁ := by rw [update_of_ne hij, hp₁]
      have hp₂' : update s.proc i k₁ j = .send d₂ m₂ k₂ := by rw [update_of_ne hij.symm, hp₂]
      refine ⟨_, stepOf_send hp₂', ?_⟩
      rw [stepOf_send hp₁']
      simp only [Option.some.injEq, Net.mk.injEq]
      refine ⟨update_comm hij.symm _ _ _, ?_⟩
      rw [setChan_other _ _ (fun h => hij h.1), setChan_other _ _ (fun h => hij h.1.symm),
        setChan_comm _ _ _ (fun h => hij h.1.symm)]
    · -- `i` sends and `j` receives
      have hp₁' : update s.proc j (k₂ m₂) i = .send d₁ m₁ k₁ := by rw [update_of_ne hij, hp₁]
      have hp₂' : update s.proc i k₁ j = .recv s₂ k₂ := by rw [update_of_ne hij.symm, hp₂]
      by_cases hq : s₂ = i ∧ j = d₁
      · obtain ⟨rfl, rfl⟩ := hq
        have hc₂' : setChan s.chan s₂ j (s.chan s₂ j ++ [m₁]) s₂ j = m₂ :: (r₂ ++ [m₁]) := by
          rw [setChan_self, hc₂, List.cons_append]
        refine ⟨_, stepOf_recv hp₂' hc₂', ?_⟩
        rw [stepOf_send hp₁']
        simp only [Option.some.injEq, Net.mk.injEq, setChan_self, setChan_setChan, and_true]
        exact update_comm hij.symm _ _ _
      · have hc₂' : setChan s.chan i d₁ (s.chan i d₁ ++ [m₁]) s₂ j = m₂ :: r₂ := by
          rw [setChan_other _ _ hq, hc₂]
        have hq' : ¬(i = s₂ ∧ d₁ = j) := fun h => hq ⟨h.1.symm, h.2.symm⟩
        refine ⟨_, stepOf_recv hp₂' hc₂', ?_⟩
        rw [stepOf_send hp₁']
        simp only [Option.some.injEq, Net.mk.injEq]
        refine ⟨update_comm hij.symm _ _ _, ?_⟩
        rw [setChan_other _ _ hq', setChan_comm _ _ _ hq]
  · rcases stepOf_cases hj with ⟨d₂, m₂, k₂, hp₂, rfl⟩ | ⟨s₂, k₂, m₂, r₂, hp₂, hc₂, rfl⟩
    · -- `i` receives and `j` sends
      have hp₁' : update s.proc j k₂ i = .recv s₁ k₁ := by rw [update_of_ne hij, hp₁]
      have hp₂' : update s.proc i (k₁ m₁) j = .send d₂ m₂ k₂ := by
        rw [update_of_ne hij.symm, hp₂]
      by_cases hq : s₁ = j ∧ i = d₂
      · obtain ⟨rfl, rfl⟩ := hq
        have hc₁' : setChan s.chan s₁ i (s.chan s₁ i ++ [m₂]) s₁ i = m₁ :: (r₁ ++ [m₂]) := by
          rw [setChan_self, hc₁, List.cons_append]
        refine ⟨_, stepOf_send hp₂', ?_⟩
        rw [stepOf_recv hp₁' hc₁']
        simp only [Option.some.injEq, Net.mk.injEq, setChan_self, setChan_setChan, and_true]
        exact update_comm hij.symm _ _ _
      · have hc₁' : setChan s.chan j d₂ (s.chan j d₂ ++ [m₂]) s₁ i = m₁ :: r₁ := by
          rw [setChan_other _ _ hq, hc₁]
        have hq' : ¬(j = s₁ ∧ d₂ = i) := fun h => hq ⟨h.1.symm, h.2.symm⟩
        refine ⟨_, stepOf_send hp₂', ?_⟩
        rw [stepOf_recv hp₁' hc₁']
        simp only [Option.some.injEq, Net.mk.injEq]
        refine ⟨update_comm hij.symm _ _ _, ?_⟩
        rw [setChan_other _ _ hq', setChan_comm _ _ _ hq']
    · -- two receives: the queues end at different processes
      have hp₁' : update s.proc j (k₂ m₂) i = .recv s₁ k₁ := by rw [update_of_ne hij, hp₁]
      have hp₂' : update s.proc i (k₁ m₁) j = .recv s₂ k₂ := by rw [update_of_ne hij.symm, hp₂]
      have hc₁' : setChan s.chan s₂ j r₂ s₁ i = m₁ :: r₁ := by
        rw [setChan_other _ _ (fun h => hij h.2), hc₁]
      have hc₂' : setChan s.chan s₁ i r₁ s₂ j = m₂ :: r₂ := by
        rw [setChan_other _ _ (fun h => hij h.2.symm), hc₂]
      refine ⟨_, stepOf_recv hp₂' hc₂', ?_⟩
      rw [stepOf_recv hp₁' hc₁']
      simp only [Option.some.injEq, Net.mk.injEq]
      exact ⟨update_comm hij.symm _ _ _, setChan_comm _ _ _ (fun h => hij h.2.symm)⟩

/-! ## Runs -/

/-- `Run n s t`: some interleaving of `n` steps leads from `s` to `t`. -/
inductive Run : ℕ → Net ι M R → Net ι M R → Prop
  | refl (s : Net ι M R) : Run 0 s s
  | step {n : ℕ} {i : ι} {s t u : Net ι M R} : stepOf i s = some t → Run n t u → Run (n + 1) s u

/-- `t` is reachable from `s`. -/
def Reaches (s t : Net ι M R) : Prop := ∃ n, Run n s t

def Stuck (s : Net ι M R) : Prop := ∀ i, stepOf i s = none

lemma Run.trans {a b : ℕ} {s t u : Net ι M R} (h₁ : Run a s t) (h₂ : Run b t u) :
    Run (a + b) s u := by
  induction h₁ with
  | refl s => simpa using h₂
  | step hs _ ih =>
      rw [Nat.add_right_comm]
      exact Run.step hs (ih h₂)

lemma Reaches.refl (s : Net ι M R) : Reaches s s := ⟨0, Run.refl s⟩

lemma Reaches.trans {s t u : Net ι M R} (h₁ : Reaches s t) (h₂ : Reaches t u) : Reaches s u := by
  obtain ⟨a, h₁⟩ := h₁
  obtain ⟨b, h₂⟩ := h₂
  exact ⟨a + b, h₁.trans h₂⟩

lemma Reaches.of_step {i : ι} {s t : Net ι M R} (h : stepOf i s = some t) : Reaches s t :=
  ⟨1, Run.step h (Run.refl t)⟩

lemma run_step_closer {n : ℕ} {s f : Net ι M R} (hrun : Run n s f) (hf : Stuck f) :
    ∀ {i : ι} {t : Net ι M R}, stepOf i s = some t → ∃ m, n = m + 1 ∧ Run m t f := by
  induction hrun with
  | refl s => intro i t h; rw [hf i] at h; cases h
  | @step n j s u f hs hrest ih =>
      intro i t h
      by_cases hij : i = j
      · subst hij
        rw [hs] at h
        cases h
        exact ⟨n, rfl, hrest⟩
      · obtain ⟨w, hw₁, hw₂⟩ := stepOf_diamond hij h hs
        obtain ⟨m, rfl, hm⟩ := ih hf hw₂
        exact ⟨m + 1, rfl, Run.step hw₁ hm⟩

/-- **Every run ends where one run ends.**  If some run of `n` steps from `s` ends stuck in `f`,
then whatever `k` steps were taken from `s` instead, the remaining `n - k` steps lead to `f`. -/
theorem run_extends {n k : ℕ} {s t f : Net ι M R} (hrun : Run n s f) (hf : Stuck f)
    (h : Run k s t) : ∃ m, n = k + m ∧ Run m t f := by
  induction h generalizing n with
  | refl s => exact ⟨n, by omega, hrun⟩
  | step hs _ ih =>
      obtain ⟨m, rfl, hm⟩ := run_step_closer hrun hf hs
      obtain ⟨m', rfl, hm'⟩ := ih hm
      exact ⟨m', by omega, hm'⟩

def Finished (s : Net ι M R) : Prop := ∀ i, ∃ r, s.proc i = .done r

lemma Finished.stuck {s : Net ι M R} (h : Finished s) : Stuck s := by
  intro i
  obtain ⟨r, hr⟩ := h i
  exact stepOf_done hr

/-- A network in which one run of `n` steps ends with all processes finished: all runs have at most
`n` steps, none of them gets stuck before, and all that have `n` steps end in the same state. -/
theorem Finished.all_runs {n : ℕ} {s f : Net ι M R} (hf : Finished f) (hrun : Run n s f) :
    ∀ k t, Run k s t → k ≤ n ∧ (k < n → ¬ Stuck t) ∧ (k = n → t = f) := by
  intro k t ht
  obtain ⟨m, rfl, hm⟩ := run_extends hrun hf.stuck ht
  refine ⟨by omega, fun hlt hstuck => ?_, fun heq => ?_⟩
  · cases hm with
    | refl => omega
    | step hs _ => rw [hstuck _] at hs; cases hs
  · obtain rfl : m = 0 := by omega
    cases hm
    rfl

lemma Run.done_persists {n : ℕ} {s t : Net ι M R} (h : Run n s t) {i : ι} {r : R}
    (hi : s.proc i = .done r) : t.proc i = .done r := by
  induction h with
  | refl _ => exact hi
  | @step n j s u t hs _ ih =>
      refine ih ?_
      have hne : i ≠ j := by
        rintro rfl
        rw [stepOf_done hi] at hs
        cases hs
      rcases stepOf_cases hs with ⟨_, _, _, _, rfl⟩ | ⟨_, _, _, _, _, _, rfl⟩ <;>
        simp [update_of_ne hne, hi]

lemma Finished.result_unique {s t f : Net ι M R} (hf : Finished f) (hsf : Reaches s f)
    (hst : Reaches s t) {i : ι} {r : R} (hi : t.proc i = .done r) : f.proc i = .done r := by
  obtain ⟨n, hn⟩ := hsf
  obtain ⟨k, hk⟩ := hst
  obtain ⟨m, -, hm⟩ := run_extends hn hf.stuck hk
  exact hm.done_persists hi

/-! ## Handshakes -/

def idle (p : ι → Proc ι M R) : Net ι M R := ⟨p, fun _ _ => []⟩

omit [DecidableEq ι] in
@[simp] lemma idle_proc (p : ι → Proc ι M R) : (idle p).proc = p := rfl

def Handshake (p q : ι → Proc ι M R) : Prop :=
  ∃ i j m k k', i ≠ j ∧ p i = .send j m k ∧ p j = .recv i k' ∧
    q = update (update p i k) j (k' m)

lemma Handshake.run {p q : ι → Proc ι M R} (h : Handshake p q) : Run 2 (idle p) (idle q) := by
  obtain ⟨i, j, m, k, k', hij, hi, hj, rfl⟩ := h
  have h₁ : stepOf i (idle p) = some ⟨update p i k, setChan (fun _ _ => []) i j [m]⟩ := by
    rw [stepOf_send (s := idle p) hi]
    rfl
  have hj' : update p i k j = .recv i k' := by rw [update_of_ne hij.symm, hj]
  have h₂ : stepOf j (⟨update p i k, setChan (fun _ _ => []) i j [m]⟩ : Net ι M R)
      = some (idle (update (update p i k) j (k' m))) := by
    have hc : setChan (fun _ _ => ([] : List M)) i j [m] i j = m :: [] := setChan_self _ i j [m]
    rw [stepOf_recv hj' hc]
    simp only [Option.some.injEq, idle, Net.mk.injEq, true_and, setChan_setChan]
    exact setChan_eq_self (fun _ _ => []) i j
  exact Run.step h₁ (Run.step h₂ (Run.refl _))

/-- Sequences of handshakes. -/
inductive Handshakes : (ι → Proc ι M R) → (ι → Proc ι M R) → Prop
  | refl (p : ι → Proc ι M R) : Handshakes p p
  | step {p q r : ι → Proc ι M R} : Handshake p q → Handshakes q r → Handshakes p r

lemma Handshakes.trans {p q r : ι → Proc ι M R} (h₁ : Handshakes p q) (h₂ : Handshakes q r) :
    Handshakes p r := by
  induction h₁ with
  | refl _ => exact h₂
  | step hs _ ih => exact Handshakes.step hs (ih h₂)

lemma Handshakes.single {p q : ι → Proc ι M R} (h : Handshake p q) : Handshakes p q :=
  Handshakes.step h (Handshakes.refl q)

lemma Handshakes.reaches {p q : ι → Proc ι M R} (h : Handshakes p q) :
    Reaches (idle p) (idle q) := by
  induction h with
  | refl p => exact Reaches.refl _
  | step hs _ ih => exact Reaches.trans ⟨2, hs.run⟩ ih

lemma Handshakes.talk {p : ι → Proc ι M R} {i j : ι} {m : M} {k : Proc ι M R}
    {k' : M → Proc ι M R} (hij : i ≠ j) (hi : p i = .send j m k) (hj : p j = .recv i k') :
    Handshakes p (update (update p i k) j (k' m)) :=
  Handshakes.single ⟨i, j, m, k, k', hij, hi, hj, rfl⟩

/-! ## Local evolution

A group of processes that only talk among themselves evolves in the same way whatever the other
processes are doing.  `bad` marks states that end the analysis (a process that gave up); a group
either evolves as described or such a state can be reached.
-/

section Frame

variable {bad : (ι → Proc ι M R) → Prop} {G H : Finset ι} {p q r : ι → Proc ι M R}

/-- The processes of `G` go from `p` to `q` among themselves, the others stay as they are. -/
def Evolves (bad : (ι → Proc ι M R) → Prop) (G : Finset ι) (p q : ι → Proc ι M R) : Prop :=
  ∀ p', (∀ i ∈ G, p' i = p i) →
    (∃ b, Handshakes p' b ∧ bad b) ∨ Handshakes p' (fun i => if i ∈ G then q i else p' i)

lemma Evolves.refl (h : ∀ i ∈ G, q i = p i) : Evolves bad G p q := by
  intro p' hp'
  have heq : (fun i => if i ∈ G then q i else p' i) = p' := by
    funext i
    by_cases hi : i ∈ G
    · rw [if_pos hi, h i hi, hp' i hi]
    · rw [if_neg hi]
  rw [heq]
  exact Or.inr (Handshakes.refl p')

lemma Evolves.trans (h₁ : Evolves bad G p q) (h₂ : Evolves bad G q r) : Evolves bad G p r := by
  intro p' hp'
  rcases h₁ p' hp' with hb | hs₁
  · exact Or.inl hb
  · rcases h₂ _ (fun i hi => if_pos hi) with ⟨b, hb, hbad⟩ | hs₂
    · exact Or.inl ⟨b, hs₁.trans hb, hbad⟩
    · right
      have heq : (fun i => if i ∈ G then r i else p' i)
          = fun i => if i ∈ G then r i else if i ∈ G then q i else p' i := by
        funext i
        split_ifs <;> rfl
      rw [heq]
      exact hs₁.trans hs₂

lemma Evolves.union (hdisj : Disjoint G H) (h₁ : Evolves bad G p q) (h₂ : Evolves bad H p q) :
    Evolves bad (G ∪ H) p q := by
  intro p' hp'
  rcases h₁ p' (fun i hi => hp' i (Finset.mem_union_left _ hi)) with hb | hs₁
  · exact Or.inl hb
  · have hagree : ∀ i ∈ H, (if i ∈ G then q i else p' i) = p i := by
      intro i hi
      rw [if_neg (Finset.disjoint_right.mp hdisj hi), hp' i (Finset.mem_union_right _ hi)]
    rcases h₂ _ hagree with ⟨b, hb, hbad⟩ | hs₂
    · exact Or.inl ⟨b, hs₁.trans hb, hbad⟩
    · right
      have heq : (fun i => if i ∈ G ∪ H then q i else p' i)
          = fun i => if i ∈ H then q i else if i ∈ G then q i else p' i := by
        funext i
        by_cases hG : i ∈ G <;> by_cases hH : i ∈ H <;> simp [hG, hH]
      rw [heq]
      exact hs₁.trans hs₂

lemma Evolves.mono (hsub : G ⊆ H) (hrest : ∀ i ∈ H, i ∉ G → q i = p i)
    (h : Evolves bad G p q) : Evolves bad H p q := by
  have hunion : G ∪ H \ G = H := Finset.union_sdiff_of_subset hsub
  rw [← hunion]
  refine Evolves.union Finset.disjoint_sdiff h (Evolves.refl fun i hi => ?_)
  exact hrest i (Finset.mem_sdiff.mp hi).1 (Finset.mem_sdiff.mp hi).2

lemma Evolves.congr {q' : ι → Proc ι M R} (hq : ∀ i ∈ G, q' i = q i)
    (h : Evolves bad G p q) : Evolves bad G p q' :=
  h.trans (Evolves.refl hq)

lemma Evolves.biUnion {κ : Type} [DecidableEq κ] (L : Finset κ) (g : κ → Finset ι)
    (hdisj : ∀ a ∈ L, ∀ b ∈ L, a ≠ b → Disjoint (g a) (g b))
    (h : ∀ a ∈ L, Evolves bad (g a) p q) : Evolves bad (L.biUnion g) p q := by
  induction L using Finset.induction_on with
  | empty => exact Evolves.refl (by simp)
  | insert a L ha ih =>
      rw [Finset.biUnion_insert]
      refine Evolves.union ?_ (h a (Finset.mem_insert_self a L)) (ih ?_ ?_)
      · rw [Finset.disjoint_biUnion_right]
        intro b hb
        exact hdisj a (Finset.mem_insert_self a L) b (Finset.mem_insert_of_mem hb)
          (fun hab => ha (hab ▸ hb))
      · exact fun b hb c hc => hdisj b (Finset.mem_insert_of_mem hb) c (Finset.mem_insert_of_mem hc)
      · exact fun b hb => h b (Finset.mem_insert_of_mem hb)

lemma Evolves.talk {i j : ι} {m : M} {k : Proc ι M R} {k' : M → Proc ι M R} (hij : i ≠ j)
    (hi : p i = .send j m k) (hj : p j = .recv i k') (hqi : q i = k) (hqj : q j = k' m) :
    Evolves bad {i, j} p q := by
  intro p' hp'
  right
  have hi' : p' i = .send j m k := (hp' i (by simp)).trans hi
  have hj' : p' j = .recv i k' := (hp' j (by simp)).trans hj
  have heq : (fun x => if x ∈ ({i, j} : Finset ι) then q x else p' x)
      = update (update p' i k) j (k' m) := by
    funext x
    by_cases hxj : x = j
    · subst hxj; simp [hqj]
    · by_cases hxi : x = i
      · subst hxi; simp [hqi, hxj]
      · simp [hxi, hxj]
  rw [heq]
  exact Handshakes.talk hij hi' hj'

lemma Evolves.of_bad (h : ∀ p', (∀ i ∈ G, p' i = p i) → bad p') : Evolves bad G p q :=
  fun p' hp' => Or.inl ⟨p', Handshakes.refl p', h p' hp'⟩

end Frame

/-! ## The exchange pattern -/

def sendAll : List (ι × M) → Proc ι M R → Proc ι M R
  | [], p => p
  | (dst, m) :: l, p => .send dst m (sendAll l p)

/-- Collect one message from each process of a list, in the order of the list. -/
def recvAll : List ι → (List M → Proc ι M R) → Proc ι M R
  | [], k => k []
  | src :: l, k => .recv src fun m => recvAll l fun ms => k (m :: ms)

/-- The queues after process `i` has sent all of `l`. -/
def pushAll (c : ι → ι → List M) (i : ι) (l : List (ι × M)) : ι → ι → List M :=
  fun x y => if x = i then c x y ++ (l.filter (fun e => e.1 = y)).map (·.2) else c x y

lemma pushAll_cons (c : ι → ι → List M) (i d : ι) (m : M) (l : List (ι × M)) :
    pushAll (setChan c i d (c i d ++ [m])) i l = pushAll c i ((d, m) :: l) := by
  funext x y
  by_cases hx : x = i
  · subst hx
    by_cases hy : d = y
    · subst hy
      simp [pushAll]
    · simp [pushAll, setChan, hy, Ne.symm hy]
  · simp [pushAll, setChan, hx]

lemma sendAll_reaches (i : ι) (l : List (ι × M)) (q : Proc ι M R) :
    ∀ (p : ι → Proc ι M R) (c : ι → ι → List M), p i = sendAll l q →
      Reaches ⟨p, c⟩ ⟨update p i q, pushAll c i l⟩ := by
  induction l with
  | nil =>
      intro p c h
      have hp : update p i q = p := by rw [← show p i = q from h, update_eq_self]
      have hc : pushAll c i ([] : List (ι × M)) = c := by funext x y; simp [pushAll]
      rw [hp, hc]
      exact Reaches.refl _
  | cons e l ih =>
      intro p c h
      obtain ⟨d, m⟩ := e
      have h₁ := Reaches.of_step (stepOf_send (s := ⟨p, c⟩) h)
      have h₂ := ih (update p i (sendAll l q)) (setChan c i d (c i d ++ [m])) (by simp)
      rw [pushAll_cons, update_idem] at h₂
      exact h₁.trans h₂

/-- The queues after process `j` has emptied its queues from all of `l`. -/
def popAll (c : ι → ι → List M) (j : ι) (l : List ι) : ι → ι → List M :=
  fun x y => if y = j ∧ x ∈ l then [] else c x y

lemma recvAll_reaches (j : ι) (msg : ι → M) (l : List ι) :
    ∀ (k : List M → Proc ι M R) (p : ι → Proc ι M R) (c : ι → ι → List M),
      p j = recvAll l k → l.Nodup → (∀ a ∈ l, c a j = [msg a]) →
      Reaches ⟨p, c⟩ ⟨update p j (k (l.map msg)), popAll c j l⟩ := by
  induction l with
  | nil =>
      intro k p c h _ _
      have hp : update p j (k ([].map msg)) = p := by
        rw [← show p j = k ([].map msg) from h, update_eq_self]
      have hc : popAll c j [] = c := by funext x y; simp [popAll]
      rw [hp, hc]
      exact Reaches.refl _
  | cons a l ih =>
      intro k p c h hnd hc
      have hal : a ∉ l := (List.nodup_cons.mp hnd).1
      have h₁ := Reaches.of_step (stepOf_recv (s := ⟨p, c⟩) h (hc a (by simp)))
      have h₂ := ih (fun ms => k (msg a :: ms))
        (update p j (recvAll l fun ms => k (msg a :: ms))) (setChan c a j []) (by simp)
        (List.nodup_cons.mp hnd).2 (by
          intro b hb
          have hne : b ≠ a := fun h => hal (h ▸ hb)
          rw [setChan_other _ _ (fun h => hne h.1), hc b (by simp [hb])])
      have hpop : popAll (setChan c a j []) j l = popAll c j (a :: l) := by
        funext x y
        by_cases hx : x = a <;> by_cases hy : y = j <;> simp [popAll, setChan, hx, hy]
      rw [hpop, update_idem] at h₂
      exact h₁.trans h₂

section Exchange

variable {out : ι → List (ι × M)} {ins : ι → List ι} {k : ι → List M → Proc ι M R}

lemma sendAll_phase (l : List ι) :
    ∀ (p : ι → Proc ι M R) (c : ι → ι → List M), l.Nodup →
      (∀ i ∈ l, p i = sendAll (out i) (recvAll (ins i) (k i))) →
      Reaches ⟨p, c⟩
        ⟨fun i => if i ∈ l then recvAll (ins i) (k i) else p i,
         fun x y => if x ∈ l then c x y ++ ((out x).filter (fun e => e.1 = y)).map (·.2)
                    else c x y⟩ := by
  induction l with
  | nil => intro p c _ _; simpa using Reaches.refl _
  | cons a l ih =>
      intro p c hnd hp
      have hal : a ∉ l := (List.nodup_cons.mp hnd).1
      have h₁ := sendAll_reaches a (out a) (recvAll (ins a) (k a)) p c (hp a (by simp))
      have h₂ := ih (update p a (recvAll (ins a) (k a))) (pushAll c a (out a))
        (List.nodup_cons.mp hnd).2 (by
          intro i hi
          have hne : i ≠ a := fun h => hal (h ▸ hi)
          rw [update_of_ne hne, hp i (by simp [hi])])
      refine h₁.trans ?_
      convert h₂ using 2
      · funext i
        by_cases hi : i = a
        · subst hi; simp [hal]
        · simp [hi]
      · funext x y
        by_cases hx : x = a
        · subst hx; simp [hal, pushAll]
        · simp [hx, pushAll]

lemma recvAll_phase (msg : ι → ι → M) (l : List ι) :
    ∀ (p : ι → Proc ι M R) (c : ι → ι → List M), l.Nodup →
      (∀ j ∈ l, p j = recvAll (ins j) (k j)) → (∀ j ∈ l, (ins j).Nodup) →
      (∀ j ∈ l, ∀ a ∈ ins j, c a j = [msg a j]) →
      Reaches ⟨p, c⟩
        ⟨fun j => if j ∈ l then k j ((ins j).map fun a => msg a j) else p j,
         fun x y => if y ∈ l ∧ x ∈ ins y then [] else c x y⟩ := by
  induction l with
  | nil => intro p c _ _ _ _; simpa using Reaches.refl _
  | cons b l ih =>
      intro p c hnd hp hins hc
      have hbl : b ∉ l := (List.nodup_cons.mp hnd).1
      have h₁ := recvAll_reaches b (fun a => msg a b) (ins b) (k b) p c (hp b (by simp))
        (hins b (by simp)) (hc b (by simp))
      have h₂ := ih (update p b (k b ((ins b).map fun a => msg a b))) (popAll c b (ins b))
        (List.nodup_cons.mp hnd).2 (by
          intro j hj
          have hne : j ≠ b := fun h => hbl (h ▸ hj)
          rw [update_of_ne hne, hp j (by simp [hj])])
        (fun j hj => hins j (by simp [hj])) (by
          intro j hj a ha
          have hne : j ≠ b := fun h => hbl (h ▸ hj)
          simp [popAll, hne, hc j (by simp [hj]) a ha])
      refine h₁.trans ?_
      convert h₂ using 2
      · funext j
        by_cases hj : j = b
        · subst hj; simp [hbl]
        · simp [hj]
      · funext x y
        by_cases hy : y = b
        · subst hy; simp [hbl, popAll]
        · simp [hy, popAll]

/-- **The exchange rule.**  A group of processes in which each one posts its sends and then collects
one message from every process in `ins`.  If each process is sent exactly the messages it collects
(`hout`), the exchange completes, nothing stays in flight, and process `j` continues with the
messages that were addressed to it. -/
theorem exchange_reaches {p : ι → Proc ι M R} (msg : ι → ι → M) (ranks : List ι)
    (hnd : ranks.Nodup)
    (hp : ∀ i ∈ ranks, p i = sendAll (out i) (recvAll (ins i) (k i)))
    (hins : ∀ j ∈ ranks, (ins j).Nodup ∧ ∀ i ∈ ins j, i ∈ ranks)
    (hout : ∀ i ∈ ranks, ∀ j, ((out i).filter (fun e => e.1 = j)).map (·.2)
      = if j ∈ ranks ∧ i ∈ ins j then [msg i j] else []) :
    Reaches (idle p)
      (idle fun j => if j ∈ ranks then k j ((ins j).map fun i => msg i j) else p j) := by
  have h₁ := sendAll_phase ranks p (fun _ _ => ([] : List M)) hnd hp
  have h₂ := @recvAll_phase _ _ _ _ ins k msg ranks
    (fun i => if i ∈ ranks then recvAll (ins i) (k i) else p i)
    (fun x y => if x ∈ ranks then ([] : List M) ++ ((out x).filter (fun e => e.1 = y)).map (·.2)
      else []) hnd (fun j hj => by simp [hj]) (fun j hj => (hins j hj).1) (by
      intro j hj a ha
      have har : a ∈ ranks := (hins j hj).2 a ha
      simp only [har, if_true, List.nil_append, hout a har j, hj, ha, and_self])
  refine Reaches.trans h₁ ?_
  convert h₂ using 2
  · funext j
    by_cases hj : j ∈ ranks <;> simp [hj]
  · funext x y
    by_cases hx : x ∈ ranks
    · simp only [hx, if_true, List.nil_append, hout x hx y]
      split_ifs <;> rfl
    · simp [hx, idle]

end Exchange

end MsgPass
