import Mathlib.Data.List.Basic

/-!
# Runs of a labelled transition system

A system is a partial function `next : σ → α → Option σ`: in state `s` the
label `a` either does not apply, or leads to one state.  `ReachWhen` is the
set of states of the runs whose steps all meet a condition on the state
before the step and on its label, and `Reach` is the same set with no
condition.  `runWhen` runs a list of labels, so that a concrete run can be
evaluated.

`ReachWhen.invariant` is the induction over a run.  Every safety theorem of
the development goes through it.  `foldlM_range` is the same rule for a
loop of the source with a bound known beforehand.

`Star` connects two states by a run, which is how a run is put together from
parts.

A claim about the past of a run is a claim about the states of
`instrument next record`, which carries a history beside the state.
-/

namespace Xv6.Lib

universe u v

variable {σ α : Type*}

/-- The states of the runs from `init` whose steps all meet `ok`. -/
inductive ReachWhen (ok : σ → α → Prop) (next : σ → α → Option σ)
    (init : σ → Prop) : σ → Prop
  | init {s : σ} : init s → ReachWhen ok next init s
  | step {s s' : σ} (a : α) :
      ReachWhen ok next init s → ok s a → next s a = some s' →
      ReachWhen ok next init s'

/-- The states of the runs from `init`. -/
abbrev Reach (next : σ → α → Option σ) (init : σ → Prop) : σ → Prop :=
  ReachWhen (fun _ _ => True) next init

/-- The invariant rule.  The step case may use the condition that the run
keeps. -/
theorem ReachWhen.invariant {ok : σ → α → Prop} {next : σ → α → Option σ}
    {init I : σ → Prop} (hinit : ∀ s, init s → I s)
    (hstep : ∀ s a s', I s → ok s a → next s a = some s' → I s')
    {s : σ} (h : ReachWhen ok next init s) : I s := by
  induction h with
  | init h0 => exact hinit _ h0
  | step a _ hok hnext ih => exact hstep _ a _ ih hok hnext

/-- A run that stays inside the condition stays inside any weaker one. -/
theorem ReachWhen.mono {ok ok' : σ → α → Prop} {next : σ → α → Option σ}
    {init : σ → Prop} (hweak : ∀ s a, ok s a → ok' s a) {s : σ}
    (h : ReachWhen ok next init s) : ReachWhen ok' next init s := by
  induction h with
  | init h0 => exact .init h0
  | step a _ hok hnext ih => exact .step a ih (hweak _ a hok) hnext

/-- Run the labels of a list in order, as long as each step meets `ok`. -/
def runWhen (ok : σ → α → Prop) [∀ s a, Decidable (ok s a)] (next : σ → α → Option σ) :
    σ → List α → Option σ
  | s, [] => some s
  | s, a :: rest =>
      if ok s a then (next s a).bind (fun s' => runWhen ok next s' rest) else none

/-- The same without a condition. -/
abbrev runFrom (next : σ → α → Option σ) : σ → List α → Option σ :=
  runWhen (fun _ _ => True) next

section Run

variable {ok : σ → α → Prop} [∀ s a, Decidable (ok s a)] {next : σ → α → Option σ}
  {init : σ → Prop}

theorem runWhen_cons {s s' : σ} {a : α} (hok : ok s a) (h : next s a = some s')
    (rest : List α) : runWhen ok next s (a :: rest) = runWhen ok next s' rest := by
  rw [runWhen, if_pos hok, h]
  rfl

/-- Every state that a list of labels runs to is reachable. -/
theorem reachWhen_of_runWhen :
    ∀ {s s' : σ} (labels : List α), ReachWhen ok next init s →
      runWhen ok next s labels = some s' → ReachWhen ok next init s'
  | s, s', [], hs, h => by
      rw [runWhen, Option.some.injEq] at h
      exact h ▸ hs
  | s, s', a :: rest, hs, h => by
      rw [runWhen] at h
      split at h
      · rename_i hok
        obtain ⟨t, ht, hrest⟩ := Option.bind_eq_some_iff.mp h
        exact reachWhen_of_runWhen rest (.step a hs hok ht) hrest
      · exact absurd h (by simp)

/-- A run from an initial state, known by a property of its last state. -/
theorem exists_reachWhen_of_run {P : σ → Prop} [DecidablePred P] {s : σ} (labels : List α)
    (hs : init s) (h : (runWhen ok next s labels).any (fun s' => decide (P s')) = true) :
    ∃ s', ReachWhen ok next init s' ∧ P s' := by
  obtain ⟨s', hrun, hP⟩ := (Option.any_eq_true _ _).mp h
  exact ⟨s', reachWhen_of_runWhen labels (.init hs) hrun, of_decide_eq_true hP⟩

/-- The same for a first state that a computation returns. -/
theorem exists_ok_of_any {ε : Type*} {x : Except ε σ} {f : σ → Bool}
    (h : x.toOption.any f = true) : ∃ s, x = .ok s ∧ f s = true := by
  cases x with
  | error err => cases h
  | ok s => exact ⟨s, rfl, h⟩

end Run

/-! ## From one state to another -/

/-- Some run leads from the first state to the second. -/
inductive Star (next : σ → α → Option σ) : σ → σ → Prop
  | refl (s : σ) : Star next s s
  | step {s s' s'' : σ} (a : α) : Star next s s' → next s' a = some s'' → Star next s s''

section Star

variable {next : σ → α → Option σ} {s s' s'' : σ}

theorem Star.one (a : α) (h : next s a = some s') : Star next s s' := .step a (.refl s) h

theorem Star.trans (h : Star next s s') (h' : Star next s' s'') : Star next s s'' := by
  induction h' with
  | refl => exact h
  | step a _ hnext ih => exact .step a ih hnext

/-- One step, then a run. -/
theorem Star.head (a : α) (s' : σ) (h : next s a = some s') (h' : Star next s' s'') :
    Star next s s'' :=
  (Star.one a h).trans h'

theorem Star.reach {init : σ → Prop} (h : Star next s s') (hs : Reach next init s) :
    Reach next init s' := by
  induction h with
  | refl => exact hs
  | step a _ hnext ih => exact .step a ih trivial hnext

end Star

/-! ## Histories -/

section History

variable {γ : Type*} {next : σ → α → Option σ} {record : γ → σ → α → σ → γ}

/-- The system with a history beside its state.  The history reads the
steps, and no step reads the history. -/
def instrument (next : σ → α → Option σ) (record : γ → σ → α → σ → γ) (x : σ × γ) (a : α) :
    Option (σ × γ) :=
  (next x.1 a).map (fun s' => (s', record x.2 x.1 a s'))

theorem instrument_eq_some {x y : σ × γ} {a : α} (h : instrument next record x a = some y) :
    next x.1 a = some y.1 ∧ y.2 = record x.2 x.1 a y.1 := by
  obtain ⟨s', hs, rfl⟩ := Option.map_eq_some_iff.mp h
  exact ⟨hs, rfl⟩

end History

/-! ## Computations that may fail -/

/-- Both parts of a sequence return. -/
theorem bind_eq_ok {ε : Type u} {τ β : Type v} {x : Except ε τ} {f : τ → Except ε β} {b : β}
    (h : (x >>= f) = .ok b) : ∃ s, x = .ok s ∧ f s = .ok b := by
  cases x with
  | error err => cases h
  | ok s => exact ⟨s, rfl, h⟩

/-! ## Bounded loops -/

/-- The invariant rule for a loop over the numbers below `n`. -/
theorem foldlM_range {ε : Type*} {step : σ → Nat → Except ε σ} {I : Nat → σ → Prop} (n : Nat)
    (hstep : ∀ i s, i < n → I i s → ∃ s', step s i = .ok s' ∧ I (i + 1) s') :
    ∀ {s : σ}, I 0 s → ∃ s', (List.range n).foldlM step s = .ok s' ∧ I n s' := by
  induction n with
  | zero =>
    intro s h
    exact ⟨s, rfl, h⟩
  | succ n ih =>
    intro s h
    obtain ⟨s1, hrun1, h1⟩ := ih (fun i s hi => hstep i s (Nat.lt_succ_of_lt hi)) h
    obtain ⟨s2, hrun2, h2⟩ := hstep n s1 (Nat.lt_succ_self n) h1
    refine ⟨s2, ?_, h2⟩
    rw [List.range_succ, List.foldlM_append, hrun1]
    show List.foldlM step s1 [n] = _
    rw [List.foldlM_cons, hrun2]
    rfl

end Xv6.Lib
