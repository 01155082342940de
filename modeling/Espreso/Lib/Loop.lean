import Mathlib.Order.WellFounded

/-!
# While loops

A loop whose body may fail, as a relation between the state in front of it and the state behind it.

* `Loop.Runs` — the loop terminates.
* **`Loop.Runs.invariant`** — an invariant of the body holds behind the loop, where the condition
  fails.

A loop whose body reads an input and writes an output in each pass, with all that it writes.

* **`Loop.Emits.invariant`** — the rule of the invariant.
* **`Loop.exists_emits`** — the loop terminates if a measure decreases.
-/

namespace Loop

variable {σ : Type}

/-- `while (cond) body` leads to the second state. -/
inductive Runs (cond : σ → Prop) (body : σ → Option σ) : σ → σ → Prop
  | done {s : σ} : ¬ cond s → Runs cond body s s
  | next {s t u : σ} : cond s → body s = some t → Runs cond body t u → Runs cond body s u

/-- **The rule of the invariant.** -/
theorem Runs.invariant {cond : σ → Prop} {body : σ → Option σ} (I : σ → Prop)
    (hbody : ∀ s t, I s → cond s → body s = some t → I t) {s u : σ} (h : Runs cond body s u)
    (hs : I s) : I u ∧ ¬ cond u := by
  induction h with
  | done hc => exact ⟨hs, hc⟩
  | next hc hstep _ ih => exact ih (hbody _ _ hs hc hstep)

variable {ι α τ : Type}

/-- **The rule of the measure**: the loop does not go on forever. -/
theorem not_infinite {cond : σ → Prop} {body : σ → Option σ} {r : τ → τ → Prop}
    (hr : WellFounded r) (measure : σ → τ) (I : σ → Prop)
    (hbody : ∀ s t, I s → cond s → body s = some t → I t ∧ r (measure t) (measure s)) {s : σ}
    (hs : I s) : ¬∃ states : ℕ → σ, states 0 = s ∧
      ∀ k, cond (states k) ∧ body (states k) = some (states (k + 1)) := by
  rintro ⟨states, rfl, hnext⟩
  have hI : ∀ k, I (states k) := fun k => by
    induction k with
    | zero => exact hs
    | succ k ih => exact (hbody _ _ ih (hnext k).1 (hnext k).2).1
  obtain ⟨_, ⟨k, rfl⟩, hmin⟩ := hr.has_min (Set.range fun k => measure (states k)) ⟨_, 0, rfl⟩
  exact hmin _ ⟨k + 1, rfl⟩ (hbody _ _ (hI k) (hnext k).1 (hnext k).2).2

/-! ## Loops that read and write -/

/-- `while (cond) body`, where a pass reads the next input and writes an output. -/
inductive Emits (cond : σ → Prop) (body : ι → σ → α × σ) : (ℕ → ι) → σ → List α → σ → Prop
  | done {inputs : ℕ → ι} {s : σ} : ¬ cond s → Emits cond body inputs s [] s
  | next {inputs : ℕ → ι} {s u : σ} {outputs : List α} : cond s →
      Emits cond body (fun k => inputs (k + 1)) (body (inputs 0) s).2 outputs u →
      Emits cond body inputs s ((body (inputs 0) s).1 :: outputs) u

section

variable {cond : σ → Prop} {body : ι → σ → α × σ} {inputs : ℕ → ι} {s u : σ} {outputs : List α}

/-- **The rule of the invariant.** -/
theorem Emits.invariant (I : σ → Prop) (hbody : ∀ i s, I s → cond s → I (body i s).2)
    (h : Emits cond body inputs s outputs u) (hs : I s) : I u ∧ ¬ cond u := by
  induction h with
  | done hc => exact ⟨hs, hc⟩
  | next hc _ ih => exact ih (hbody _ _ hs hc)

/-- **The rule of the measure**: the loop terminates. -/
theorem exists_emits {r : τ → τ → Prop} (hr : WellFounded r) (measure : σ → τ) (I : σ → Prop)
    (hbody : ∀ i s, I s → cond s → I (body i s).2)
    (hmeasure : ∀ i s, I s → cond s → r (measure (body i s).2) (measure s))
    (inputs : ℕ → ι) {s : σ} (hs : I s) : ∃ outputs u, Emits cond body inputs s outputs u := by
  induction hm : measure s using hr.induction generalizing inputs s with
  | _ m ih =>
      by_cases hc : cond s
      · subst hm
        obtain ⟨outputs, u, h⟩ := ih _ (hmeasure (inputs 0) s hs hc) (fun k => inputs (k + 1))
          (hbody _ _ hs hc) rfl
        exact ⟨_, u, .next hc h⟩
      · exact ⟨[], s, .done hc⟩

end

end Loop
