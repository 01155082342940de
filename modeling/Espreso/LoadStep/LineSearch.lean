import Espreso.Lib.FalsePosition
import Espreso.LoadStep.Transient

/-!
# The line search

`Assembler::lineSearch` of the nonlinear solver, with the vectors that it swaps.

* `LineSearch.Memory` — the vectors; `deltaU` may be the primal solution of the instance, as in
  `NewtonRaphson::solve`.
* **`lineSearch_spec`** — the search never divides by zero and returns what is expected.
-/

namespace Espreso.LoadStep

open FalsePosition

variable {D : ℕ} {n : Fin D → ℕ}

/-! ## The code -/

namespace LineSearch

/-- What a line search gets and does not write: the assembler of `R` for the primal solution, the
right-hand side of the instance, `U`, and whether the argument `deltaU` is the primal solution. -/
structure Call {D : ℕ} (n : Fin D → ℕ) where
  updateMatrix : Vectors n → Vectors n
  f : Vectors n
  U : Vectors n
  aliased : Bool

/-- The vectors of the instance and the arguments `deltaU` and `F_ext`. -/
structure Memory {D : ℕ} (n : Fin D → ℕ) where
  primalSolution : Vectors n
  R : Vectors n
  argument : Vectors n
  F_ext : Vectors n

/-- The local variables. -/
structure Locals {D : ℕ} (n : Fin D → ℕ) where
  alpha : ℚ
  a : ℚ
  b : ℚ
  fa : ℚ
  fb : ℚ
  faStart : ℚ
  solution : Vectors n
  F_ext_r : Vectors n

/-- All that a line search writes. -/
structure State {D : ℕ} (n : Fin D → ℕ) extends Memory n, Locals n

def Call.deltaU (c : Call n) (m : Memory n) : Vectors n :=
  if c.aliased then m.primalSolution else m.argument

/-- `solution.swap(instance.primalSolution)` -/
def swapSolution (s : State n) : State n :=
  { s with solution := s.primalSolution, primalSolution := s.solution }

/-- `solution.swap(deltaU)` -/
def Call.swapDeltaU (c : Call n) (s : State n) : State n :=
  if c.aliased then swapSolution s else { s with solution := s.argument, argument := s.solution }

/-- `physics.updateMatrix(Matrices::R)` -/
def Call.updateR (c : Call n) (s : State n) : State n :=
  { s with R := c.updateMatrix s.primalSolution }

/-- `sum(F_ext_r, 1, F_ext, -1, instance.R)` -/
def sumF_ext_r (s : State n) : State n :=
  { s with F_ext_r := Assembler.sum 1 s.F_ext (-1) s.R }

/-- The beginning of a round: `R` of the trial solution. -/
def Call.evaluate (c : Call n) (s : State n) : State n :=
  let s := { s with solution := Assembler.sum 1 c.U s.alpha (c.deltaU s.toMemory) }
  swapSolution (c.updateR (swapSolution s))

def State.nextAlpha (s : State n) : Option ℚ := do
  let q ← divide (s.b - s.a) (s.fb - s.fa)
  some (s.a - s.fa * q)

def Call.start (c : Call n) (m : Memory n) : State n where
  toMemory := m
  alpha := 1
  a := 0
  b := 1
  fa := 0
  fb := 0
  faStart := 0
  solution := c.deltaU m
  F_ext_r := m.F_ext

/-- The first round in front of its test: the values at both ends. -/
def Call.firstRound (c : Call n) (m : Memory n) : State n :=
  let s := c.evaluate (c.start m)
  let s := { s with faStart := Assembler.dot (c.deltaU s.toMemory) c.f }
  let s := sumF_ext_r s
  { s with fb := Assembler.dot (c.deltaU s.toMemory) s.F_ext_r }

def State.SameSign (s : State n) : Prop :=
  s.faStart < 0 ∧ s.fb < 0 ∨ 0 ≤ s.faStart ∧ 0 ≤ s.fb

instance (s : State n) : Decidable s.SameSign := inferInstanceAs (Decidable (_ ∨ _))

/-- `fx` of a round. -/
def Call.fx (c : Call n) (s : State n) : ℚ :=
  Assembler.dot (c.deltaU s.toMemory) s.F_ext_r

/-- A round but the first one, in front of the formula of the secant. -/
def Call.round (c : Call n) (s : State n) : State n :=
  let s := sumF_ext_r (c.evaluate s)
  let fx := c.fx s
  if s.fa * fx < 0 then { s with b := s.alpha, fb := fx }
  else if s.fb * fx < 0 then { s with a := s.alpha, fa := fx }
  else s

def Call.Stops (c : Call n) (s : State n) : Prop := |c.fx s| ≤ 1 / 2 * s.faStart

instance (c : Call n) (s : State n) : Decidable (c.Stops s) := inferInstanceAs (Decidable (_ ≤ _))

def Call.rounds (c : Call n) : ℕ → State n → Option (State n)
  | 0, s => some s
  | k + 1, s => do
      let s := c.round s
      let alpha ← s.nextAlpha
      let s := { s with alpha := alpha }
      if c.Stops s then some s else c.rounds k s

def clip (alpha : ℚ) : ℚ :=
  let alpha := if alpha < 1 / 10 then 1 / 10 else alpha
  if 99 / 100 < alpha then 1 else alpha

/-- The end: `deltaU` is scaled. -/
def Call.finish (c : Call n) (s : State n) : State n :=
  let s := { s with solution := Assembler.sum 0 c.U s.alpha (c.deltaU s.toMemory) }
  c.swapDeltaU s

end LineSearch

open LineSearch

/-- **`Assembler::lineSearch`**; `none` is a division by zero. -/
def lineSearch (c : Call n) (m : Memory n) : Option (ℚ × Memory n) := do
  let s := c.firstRound m
  if s.SameSign then some (s.alpha, s.toMemory)
  else
    let s := { s with fa := s.faStart }
    let alpha ← s.nextAlpha
    let s ← c.rounds 5 { s with alpha := alpha }
    let s := { s with alpha := clip s.alpha }
    some (s.alpha, (c.finish s).toMemory)

/-! ## The secants -/

namespace LineSearch

/-- **The states at which the formula of the secant is evaluated**, with the number of the round. -/
inductive UsesSecant (c : Call n) (m : Memory n) : ℕ → State n → Prop
  | first : ¬ (c.firstRound m).SameSign →
      UsesSecant c m 0 { c.firstRound m with fa := (c.firstRound m).faStart }
  | next {i : ℕ} {s : State n} {alpha : ℚ} : UsesSecant c m i s → s.nextAlpha = some alpha →
      i < 5 → (i = 0 ∨ ¬ c.Stops s) → UsesSecant c m (i + 1) (c.round { s with alpha := alpha })

/-- **The residual** of a trial solution. -/
def Call.residual (c : Call n) (m : Memory n) (alpha : ℚ) : ℚ :=
  Assembler.dot (c.deltaU m)
    (Assembler.sum 1 m.F_ext (-1) (c.updateMatrix (Assembler.sum 1 c.U alpha (c.deltaU m))))

/-- The vectors that a round does not change. -/
structure Kept (m m' : Memory n) : Prop where
  primalSolution : m'.primalSolution = m.primalSolution
  argument : m'.argument = m.argument
  F_ext : m'.F_ext = m.F_ext

/-- **What holds where the formula of the secant is evaluated.** -/
structure Invariant (c : Call n) (m : Memory n) (s : State n) : Prop where
  kept : Kept m s.toMemory
  bracket : Bracket (c.residual m) s.a s.b s.fa s.fb
  nonneg : 0 ≤ s.a
  le_one : s.b ≤ 1

lemma Kept.deltaU_eq {m m' : Memory n} (h : Kept m m') (c : Call n) : c.deltaU m' = c.deltaU m := by
  rw [Call.deltaU, Call.deltaU, h.primalSolution, h.argument]

lemma evaluate_eq (c : Call n) (s : State n) :
    c.evaluate s =
      { s with
        solution := Assembler.sum 1 c.U s.alpha (c.deltaU s.toMemory)
        R := c.updateMatrix (Assembler.sum 1 c.U s.alpha (c.deltaU s.toMemory)) } := rfl

lemma fx_eq {c : Call n} {m : Memory n} {s : State n} (h : Kept m s.toMemory) :
    c.fx (sumF_ext_r (c.evaluate s)) = c.residual m s.alpha := by
  have hkept : Kept m (sumF_ext_r (c.evaluate s)).toMemory :=
    ⟨h.primalSolution, h.argument, h.F_ext⟩
  rw [Call.fx, hkept.deltaU_eq, Call.residual]
  simp only [sumF_ext_r, evaluate_eq, h.deltaU_eq, h.F_ext]

lemma nextAlpha_eq {c : Call n} {m : Memory n} {s : State n} (h : Invariant c m s) :
    s.nextAlpha = some (secant s.a s.b s.fa s.fb) := by
  rw [State.nextAlpha, divide_eq_some h.bracket.opposite.sub_ne_zero]
  rfl

lemma Invariant.round {c : Call n} {m : Memory n} {s : State n} (h : Invariant c m s) {alpha : ℚ}
    (hlow : s.a ≤ alpha) (hhigh : alpha ≤ s.b) :
    Invariant c m (c.round { s with alpha := alpha }) := by
  have hkept : Kept m (sumF_ext_r (c.evaluate { s with alpha := alpha })).toMemory :=
    ⟨h.kept.primalSolution, h.kept.argument, h.kept.F_ext⟩
  have hfx : c.fx (sumF_ext_r (c.evaluate { s with alpha := alpha })) = c.residual m alpha :=
    fx_eq ⟨h.kept.primalSolution, h.kept.argument, h.kept.F_ext⟩
  simp only [Call.round, hfx]
  split_ifs with hright hleft
  · exact ⟨hkept, h.bracket.narrow_right hlow hright, h.nonneg, hhigh.trans h.le_one⟩
  · exact ⟨hkept, h.bracket.narrow_left hhigh hleft, h.nonneg.trans hlow, h.le_one⟩
  · exact ⟨hkept, h.bracket, h.nonneg, h.le_one⟩

lemma sum_zero_right (U x : Vectors n) : Assembler.sum 1 U 0 x = U := by
  funext d i
  simp only [Assembler.sum, one_mul, zero_mul, add_zero]

/-- The caller has assembled the residual of `U`. -/
def Prepared (c : Call n) (m : Memory n) : Prop :=
  c.f = Assembler.sum 1 m.F_ext (-1) (c.updateMatrix c.U)

lemma firstRound_spec {c : Call n} {m : Memory n} (hf : Prepared c m) :
    Kept m (c.firstRound m).toMemory ∧ (c.firstRound m).a = 0 ∧ (c.firstRound m).b = 1 ∧
      (c.firstRound m).alpha = 1 ∧ (c.firstRound m).faStart = c.residual m 0 ∧
      (c.firstRound m).fb = c.residual m 1 := by
  refine ⟨⟨rfl, rfl, rfl⟩, rfl, rfl, rfl, ?_, rfl⟩
  rw [Call.residual, sum_zero_right, ← hf]
  rfl

lemma opposite_of_not_sameSign {s : State n} (h : ¬ s.SameSign) : Opposite s.faStart s.fb := by
  simp only [State.SameSign, not_or, not_and, not_lt, not_le] at h
  rcases lt_or_ge s.faStart 0 with hneg | hnonneg
  · exact Or.inl ⟨hneg, h.1 hneg⟩
  · exact Or.inr ⟨hnonneg, h.2 hnonneg⟩

lemma first_invariant {c : Call n} {m : Memory n} (hf : Prepared c m)
    (h : ¬ (c.firstRound m).SameSign) :
    Invariant c m { c.firstRound m with fa := (c.firstRound m).faStart } := by
  obtain ⟨hkept, ha, hb, -, hfa, hfb⟩ := firstRound_spec hf
  have hopposite := opposite_of_not_sameSign h
  refine ⟨hkept, ⟨?_, ?_, ?_, hopposite⟩, ha.ge, hb.le⟩
  · simp only [ha, hb, zero_lt_one]
  · simp only [ha, hfa]
  · simp only [hb, hfb]

lemma UsesSecant.invariant {c : Call n} {m : Memory n} (hf : Prepared c m) {i : ℕ} {s : State n}
    (h : UsesSecant c m i s) : Invariant c m s := by
  induction h with
  | first hsign => exact first_invariant hf hsign
  | @next i s alpha _ halpha _ _ ih =>
      rw [nextAlpha_eq ih, Option.some.injEq] at halpha
      subst halpha
      obtain ⟨hlow, hhigh⟩ := ih.bracket.secant_mem
      exact ih.round hlow hhigh

lemma rounds_spec (c : Call n) (m : Memory n) :
    ∀ (k : ℕ) {s : State n} {alpha : ℚ}, Invariant c m s → s.a ≤ alpha → alpha ≤ s.b →
      ∃ t, c.rounds k { s with alpha := alpha } = some t ∧ Kept m t.toMemory ∧ 0 ≤ t.alpha ∧
        t.alpha ≤ 1 := by
  intro k
  induction k with
  | zero =>
      intro s alpha h hlow hhigh
      exact ⟨_, rfl, ⟨h.kept.primalSolution, h.kept.argument, h.kept.F_ext⟩, h.nonneg.trans hlow,
        hhigh.trans h.le_one⟩
  | succ k ih =>
      intro s alpha h hlow hhigh
      have hround := h.round hlow hhigh
      obtain ⟨hleft, hright⟩ := hround.bracket.secant_mem
      simp only [Call.rounds, nextAlpha_eq hround, Option.bind_eq_bind, Option.bind_some]
      split_ifs with hstop
      · exact ⟨_, rfl, ⟨hround.kept.primalSolution, hround.kept.argument, hround.kept.F_ext⟩,
          hround.nonneg.trans hleft, hright.trans hround.le_one⟩
      · exact ih hround hleft hright

lemma clip_spec {alpha : ℚ} :
    clip alpha = 1 ∨ 1 / 10 ≤ clip alpha ∧ clip alpha ≤ 99 / 100 := by
  simp only [clip]
  split_ifs with hlow hhigh hhigh
  · exact Or.inl rfl
  · exact Or.inr ⟨le_rfl, not_lt.mp hhigh⟩
  · exact Or.inl rfl
  · exact Or.inr ⟨not_lt.mp hlow, not_lt.mp hhigh⟩

/-- **What a line search returns**: the factor, and `deltaU` multiplied by it. -/
structure Returned (c : Call n) (m : Memory n) (factor : ℚ) (m' : Memory n) : Prop where
  range : factor = 1 ∨ 1 / 10 ≤ factor ∧ factor ≤ 99 / 100
  deltaU : c.deltaU m' = fun d i => factor * c.deltaU m d i
  F_ext : m'.F_ext = m.F_ext
  primalSolution : c.aliased = false → m'.primalSolution = m.primalSolution

lemma finish_spec {c : Call n} {m : Memory n} {s : State n} (h : Kept m s.toMemory)
    (hfactor : s.alpha = 1 ∨ 1 / 10 ≤ s.alpha ∧ s.alpha ≤ 99 / 100) :
    Returned c m s.alpha (c.finish s).toMemory := by
  have hscaled : Assembler.sum 0 c.U s.alpha (c.deltaU s.toMemory) =
      fun d i => s.alpha * c.deltaU m d i := by
    funext d i
    rw [Assembler.sum, zero_mul, zero_add, h.deltaU_eq]
  rw [Call.finish, Call.swapDeltaU]
  cases haliased : c.aliased with
  | true =>
      refine ⟨hfactor, ?_, h.F_ext, fun hcontra => absurd hcontra (by rw [haliased]; decide)⟩
      rw [← hscaled, Call.deltaU, if_pos haliased]
      rfl
  | false =>
      have hnot : ¬ c.aliased = true := by rw [haliased]; decide
      refine ⟨hfactor, ?_, h.F_ext, fun _ => h.primalSolution⟩
      rw [← hscaled, Call.deltaU, if_neg hnot]
      rfl

lemma returned_one {c : Call n} {m m' : Memory n} (h : Kept m m') : Returned c m 1 m' := by
  refine ⟨Or.inl rfl, ?_, h.F_ext, fun _ => h.primalSolution⟩
  funext d i
  rw [h.deltaU_eq, one_mul]

end LineSearch

lemma lineSearch_returns {c : Call n} {m : Memory n} (hf : Prepared c m) :
    ∃ alpha m', lineSearch c m = some (alpha, m') ∧ Returned c m alpha m' := by
  obtain ⟨hkept, -, -, halpha, -, -⟩ := firstRound_spec hf
  by_cases hsign : (c.firstRound m).SameSign
  · refine ⟨1, (c.firstRound m).toMemory, ?_, returned_one hkept⟩
    simp only [lineSearch, if_pos hsign, halpha]
  · have hfirst := first_invariant hf hsign
    obtain ⟨hlow, hhigh⟩ := hfirst.bracket.secant_mem
    obtain ⟨t, ht, htkept, -, -⟩ := rounds_spec c m 5 hfirst hlow hhigh
    have hkeep : Kept m ({ t with alpha := clip t.alpha } : State n).toMemory :=
      ⟨htkept.primalSolution, htkept.argument, htkept.F_ext⟩
    refine ⟨clip t.alpha, _, ?_, finish_spec hkeep clip_spec⟩
    simp only [lineSearch, if_neg hsign, nextAlpha_eq hfirst, Option.bind_eq_bind,
      Option.bind_some, ht]

/-- **`Assembler::lineSearch`** never divides by zero: it returns a factor that is one or between
0.1 and 0.99, with `deltaU` multiplied by it, where the caller has assembled the residual of `U`.
The formula of the secant is evaluated on brackets in the unit interval only. -/
theorem lineSearch_spec (c : Call n) (m : Memory n) (hf : Prepared c m) :
    (∃ alpha m', lineSearch c m = some (alpha, m') ∧ Returned c m alpha m') ∧
      ∀ i s, UsesSecant c m i s →
        0 ≤ s.a ∧ s.b ≤ 1 ∧ Bracket (c.residual m) s.a s.b s.fa s.fb ∧
          ∃ alpha, s.nextAlpha = some alpha ∧ s.a ≤ alpha ∧ alpha ≤ s.b := by
  refine ⟨lineSearch_returns hf, fun i s h => ?_⟩
  have hinvariant := h.invariant hf
  exact ⟨hinvariant.nonneg, hinvariant.le_one, hinvariant.bracket, _, nextAlpha_eq hinvariant,
    hinvariant.bracket.secant_mem⟩

/-! ## One unknown -/

/-- One unknown with `R(u) = 4 u`, with the call of `NewtonRaphson::solve`. -/
def quarterCall : Call (fun _ : Fin 1 => 1) where
  updateMatrix := fun u d i => 4 * u d i
  f := fun _ _ => 1
  U := fun _ _ => 0
  aliased := true

def quarterMemory : Memory (fun _ : Fin 1 => 1) where
  primalSolution := fun _ _ => 1
  R := fun _ _ => 0
  argument := fun _ _ => 0
  F_ext := fun _ _ => 1

lemma quarter_prepared : Prepared quarterCall quarterMemory := by
  funext d i
  simp [quarterCall, quarterMemory, Assembler.sum]

lemma lineSearch_quarter :
    (lineSearch quarterCall quarterMemory).map (fun r => (r.1, r.2.primalSolution 0 0)) =
      some (1 / 4, 1 / 4) := by
  decide +kernel

theorem lineSearch_spec_quarter :
    ∃ alpha m', lineSearch quarterCall quarterMemory = some (alpha, m') ∧
      Returned quarterCall quarterMemory alpha m' :=
  (lineSearch_spec quarterCall quarterMemory quarter_prepared).1

/-- **The primal solution changes** where it is the argument `deltaU`. -/
theorem lineSearch_changes_primalSolution :
    Prepared quarterCall quarterMemory ∧
      ∃ alpha m', lineSearch quarterCall quarterMemory = some (alpha, m') ∧
        m'.primalSolution ≠ quarterMemory.primalSolution := by
  refine ⟨quarter_prepared, ?_⟩
  obtain ⟨⟨alpha, m'⟩, hsearch, hvalues⟩ := Option.map_eq_some_iff.mp lineSearch_quarter
  refine ⟨alpha, m', hsearch, fun heq => ?_⟩
  simp only [Prod.mk.injEq, heq] at hvalues
  norm_num [quarterMemory] at hvalues

end Espreso.LoadStep
