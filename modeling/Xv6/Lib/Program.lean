import Mathlib.Data.List.Basic

/-!
# Programs with state and panics

A program is a term of `StateT σ (Except ε)`: it reads and writes a state,
and it can stop with an error.  `Runs E m s Q` says what it does from the
state `s`: either it returns, with a result and a state that satisfy `Q`, or
it stops with an error that satisfies `E`.

There is one rule for each way to build a program.  A function of the source
gets one specification of this form, and `Runs.call` uses it at a call.
`zoom` runs a program of a part of the state.
-/

namespace Xv6.Lib

universe u v w

variable {σ τ : Type u} {ε : Type v} {α β : Type u}

/-- From `s`, the program `m` returns with `Q` or stops with `E`. -/
def Runs (E : ε → Prop) (m : StateT σ (Except ε) α) (s : σ) (Q : α → σ → Prop) : Prop :=
  match m s with
  | .ok (a, s') => Q a s'
  | .error e => E e

variable {E E' : ε → Prop} {m : StateT σ (Except ε) α} {f : α → StateT σ (Except ε) β}
  {s s' : σ} {a : α}

theorem Runs.ok {Q : α → σ → Prop} (h : Runs E m s Q) (hm : m s = .ok (a, s')) : Q a s' := by
  unfold Runs at h
  rw [hm] at h
  exact h

theorem Runs.error {Q : α → σ → Prop} {e : ε} (h : Runs E m s Q) (hm : m s = .error e) : E e := by
  unfold Runs at h
  rw [hm] at h
  exact h

/-- A program that cannot stop with an error returns. -/
theorem Runs.returns {Q : α → σ → Prop} (h : Runs (fun _ : ε => False) m s Q) :
    ∃ a s', m s = .ok (a, s') ∧ Q a s' := by
  cases hm : m s with
  | ok r => exact ⟨r.1, r.2, rfl, h.ok hm⟩
  | error e => exact (h.error hm).elim

theorem Runs.mono {Q Q' : α → σ → Prop} (h : Runs E m s Q) (hq : ∀ a s', Q a s' → Q' a s')
    (he : ∀ e, E e → E' e) : Runs E' m s Q' := by
  unfold Runs at h ⊢
  split at h
  · exact hq _ _ h
  · exact he _ h

/-- Another postcondition. -/
theorem Runs.post {Q Q' : α → σ → Prop} (h : Runs E m s Q) (hq : ∀ a s', Q a s' → Q' a s') :
    Runs E m s Q' :=
  h.mono hq (fun _ he => he)

/-- More errors. -/
theorem Runs.errors {Q : α → σ → Prop} (h : Runs E m s Q) (he : ∀ e, E e → E' e) :
    Runs E' m s Q :=
  h.mono (fun _ _ hq => hq) he

/-- A program without errors has whatever errors. -/
theorem Runs.total {Q : α → σ → Prop} (h : Runs (fun _ : ε => False) m s Q) : Runs E m s Q :=
  h.errors (fun _ he => he.elim)

/-- Two specifications of one program. -/
theorem Runs.and {Q Q' : α → σ → Prop} (h : Runs E m s Q) (h' : Runs E' m s Q') :
    Runs (fun e => E e ∧ E' e) m s (fun a s' => Q a s' ∧ Q' a s') := by
  unfold Runs at h h' ⊢
  split at h
  · rename_i hm
    rw [hm] at h'
    exact ⟨h, h'⟩
  · rename_i hm
    rw [hm] at h'
    exact ⟨h, h'⟩

/-- The result is the one that the program returns. -/
theorem Runs.result {Q : α → σ → Prop} (h : Runs E m s Q) :
    Runs E m s (fun a s' => m s = .ok (a, s') ∧ Q a s') := by
  unfold Runs at h ⊢
  split at h
  · exact ⟨‹_›, h⟩
  · exact h

/-! ## One rule for each construct -/

theorem Runs.pure {Q : α → σ → Prop} (h : Q a s) : Runs E (pure a) s Q := h

theorem Runs.bind {Q : β → σ → Prop} (h : Runs E m s (fun a s' => Runs E (f a) s' Q)) :
    Runs E (m >>= f) s Q := by
  have hbind : (m >>= f) s = (m s).bind (fun r => f r.1 r.2) := rfl
  unfold Runs at h ⊢
  rw [hbind]
  cases hm : m s with
  | ok r =>
    rw [hm] at h
    exact h
  | error e =>
    rw [hm] at h
    exact h

/-- A call: the specification of the callee, then the rest. -/
theorem Runs.call {R : α → σ → Prop} {Q : β → σ → Prop} (h : Runs E m s R)
    (hrest : ∀ a s', R a s' → Runs E (f a) s' Q) : Runs E (m >>= f) s Q :=
  .bind (h.post hrest)

theorem Runs.get {Q : σ → σ → Prop} (h : Q s s) :
    Runs E (MonadState.get : StateT σ (Except ε) σ) s Q := h

theorem Runs.set {Q : PUnit → σ → Prop} (h : Q ⟨⟩ s') :
    Runs E (MonadStateOf.set s' : StateT σ (Except ε) PUnit) s Q := h

theorem Runs.modify {Q : PUnit → σ → Prop} {g : σ → σ} (h : Q ⟨⟩ (g s)) :
    Runs E (modify g : StateT σ (Except ε) PUnit) s Q := h

theorem Runs.throw {Q : α → σ → Prop} {e : ε} (h : E e) :
    Runs E (throw e : StateT σ (Except ε) α) s Q := h

theorem Runs.ite {c : Prop} [Decidable c] {m' : StateT σ (Except ε) α} {Q : α → σ → Prop}
    (ht : c → Runs E m s Q) (he : ¬ c → Runs E m' s Q) : Runs E (if c then m else m') s Q := by
  split
  · exact ht ‹_›
  · exact he ‹_›

/-- A loop over a list.  The invariant knows the elements that are done. -/
theorem Runs.forM {γ : Type w} {g : γ → StateT σ (Except ε) PUnit} {xs : List γ}
    (I : List γ → σ → Prop) (h : I [] s)
    (hstep : ∀ done x rest t, xs = done ++ x :: rest → I done t →
      Runs E (g x) t (fun _ t' => I (done ++ [x]) t')) :
    Runs E (xs.forM g) s (fun _ t => I xs t) := by
  have hloop : ∀ rest done t, xs = done ++ rest → I done t →
      Runs E (rest.forM g) t (fun _ t' => I xs t') := by
    intro rest
    induction rest with
    | nil =>
      intro done t hxs hI
      rw [List.append_nil] at hxs
      exact .pure (hxs ▸ hI)
    | cons x rest ih =>
      intro done t hxs hI
      refine .call (hstep done x rest t hxs hI) (fun _ t' hI' => ih _ t' ?_ hI')
      rw [hxs, List.append_assoc]
      rfl
  exact hloop xs [] s rfl h

/-! ## A part of the state -/

/-- Run a program of a part of the state. -/
def zoom (part : σ → τ) (put : τ → σ → σ) (m : StateT τ (Except ε) α) : StateT σ (Except ε) α :=
  fun s => (m (part s)).map (fun r => (r.1, put r.2 s))

theorem Runs.zoom {part : σ → τ} {put : τ → σ → σ} {m : StateT τ (Except ε) α}
    {Q : α → σ → Prop} (h : Runs E m (part s) (fun a t => Q a (put t s))) :
    Runs E (zoom part put m) s Q := by
  unfold Runs at h ⊢
  unfold Lib.zoom
  cases hm : m (part s) with
  | ok r =>
    rw [hm] at h
    exact h
  | error e =>
    rw [hm] at h
    exact h

end Xv6.Lib
