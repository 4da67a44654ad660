import Mathlib.Data.List.Basic

/-!
# Refinement of machines that answer

A machine is a partial function `step : σ → α → Option (ρ × σ)`: in state
`s` the request `a` gets an answer and leads to one state, or does not
apply.  `answersWhen` runs a list of requests and collects the answers, as
long as each request meets a condition.

`answersWhen_refine` is the refinement rule for an abstraction function: if
one step of the concrete machine is one step of the abstract one with the
same answer, then so are whole runs.

`Follows` is for a specification that leaves the answer open to some degree.
-/

namespace Xv6.Lib

variable {σ τ α ρ : Type*}

/-- The answers to a list of requests, and the state after them. -/
def answersWhen (ok : σ → α → Prop) [∀ s a, Decidable (ok s a)]
    (step : σ → α → Option (ρ × σ)) : σ → List α → Option (List ρ × σ)
  | s, [] => some ([], s)
  | s, a :: rest =>
      if ok s a then
        (step s a).bind (fun q =>
          (answersWhen ok step q.2 rest).map (fun q' => (q.1 :: q'.1, q'.2)))
      else none

/-- The same without a condition. -/
abbrev answers (step : σ → α → Option (ρ × σ)) : σ → List α → Option (List ρ × σ) :=
  answersWhen (fun _ _ => True) step

variable {ok : σ → α → Prop} [∀ s a, Decidable (ok s a)] {step : σ → α → Option (ρ × σ)}

/-- One request less. -/
theorem answersWhen_cons {s s' : σ} {a : α} {rest : List α} {rs : List ρ}
    (h : answersWhen ok step s (a :: rest) = some (rs, s')) :
    ok s a ∧ ∃ r s1 rs', step s a = some (r, s1) ∧
      answersWhen ok step s1 rest = some (rs', s') ∧ rs = r :: rs' := by
  rw [answersWhen] at h
  split at h
  · rename_i hok
    obtain ⟨⟨r, s1⟩, hstep, h⟩ := Option.bind_eq_some_iff.mp h
    obtain ⟨⟨rs', s2⟩, hrest, heq⟩ := Option.map_eq_some_iff.mp h
    cases heq
    exact ⟨hok, r, s1, rs', hstep, hrest, rfl⟩
  · cases h

/-- Runs of the concrete machine are runs of the abstract one, with the same
answers. -/
theorem answersWhen_refine {step' : τ → α → Option (ρ × τ)} {f : σ → τ} {I : σ → Prop}
    (hstep : ∀ s a r s', I s → ok s a → step s a = some (r, s') →
      I s' ∧ step' (f s) a = some (r, f s')) :
    ∀ (as : List α) {s s' : σ} {rs : List ρ}, I s → answersWhen ok step s as = some (rs, s') →
      I s' ∧ answers step' (f s) as = some (rs, f s') := by
  intro as
  induction as with
  | nil =>
    intro s s' rs hI h
    cases h
    exact ⟨hI, rfl⟩
  | cons a rest ih =>
    intro s s' rs hI h
    obtain ⟨hok, r, s1, rs', hone, hrest, rfl⟩ := answersWhen_cons h
    obtain ⟨hI1, hone'⟩ := hstep s a r s1 hI hok hone
    obtain ⟨hI', hrest'⟩ := ih hI1 hrest
    refine ⟨hI', ?_⟩
    rw [answers, answersWhen, if_pos trivial, hone', Option.bind_some]
    show (answers step' (f s1) rest).map _ = _
    rw [hrest']
    rfl

/-! ## A specification of the answers -/

/-- Every request of a run is answered, and the answer and the change of the
abstract state are among those that `spec` allows.  The states stay related. -/
def Follows {ε : Type*} (step : α → σ → Except ε (ρ × σ)) (spec : σ → τ → α → ρ → τ → Prop)
    (R : σ → τ → Prop) : σ → τ → List α → Prop
  | s, t, [] => R s t
  | s, t, a :: rest => R s t ∧ ∃ r s' t', step a s = .ok (r, s') ∧ spec s t a r t' ∧
      Follows step spec R s' t' rest

/-- It is enough to look at one request. -/
theorem follows_of_step {ε : Type*} {step : α → σ → Except ε (ρ × σ)}
    {spec : σ → τ → α → ρ → τ → Prop} {R : σ → τ → Prop} (I : σ → τ → Prop) (good : α → Prop)
    (hR : ∀ s t, I s t → R s t)
    (hstep : ∀ s t a, I s t → good a → ∃ r s' t', step a s = .ok (r, s') ∧ spec s t a r t' ∧
      I s' t') :
    ∀ (as : List α) {s : σ} {t : τ}, I s t → (∀ a ∈ as, good a) → Follows step spec R s t as := by
  intro as
  induction as with
  | nil => exact fun hI _ => hR _ _ hI
  | cons a rest ih =>
    intro s t hI hgood
    obtain ⟨r, s', t', hone, hspec, hI'⟩ := hstep s t a hI (hgood a (by simp))
    exact ⟨hR _ _ hI, r, s', t', hone, hspec,
      ih hI' (fun b hb => hgood b (List.mem_cons_of_mem _ hb))⟩

end Xv6.Lib
