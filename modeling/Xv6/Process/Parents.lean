import Xv6.Process.Locks

/-!
# Parents

`fork` stores the parent of a child before it makes the child `RUNNABLE`,
and `exit` hands the children of a process to the first one before the
process becomes a zombie.  So a process that can run or has exited has a
parent, except the first one, and a parent is alive.

`Parents` is the invariant.  Two of its fields are about threads in the
middle of `fork` or `exit`: a child that is about to be published has its
parent, and the children that an exiting process has still to give away are
among the slots that its `reparent` has still to visit.
-/

namespace Xv6.Process

open Function

variable {s s' : Sys} {l : Step} {c : Cpu} {q i : Slot}

/-! ## Places -/

/-- The slots that an exiting process has still to visit in `reparent`. -/
def Code.orphans : Code → Option (List Slot)
  | .exit _ => some allSlots
  | .reparent _ slots => some slots
  | .exitAcquire _ => some []
  | _ => none

def Thread.orphans (th : Thread) : Option (List Slot) := th.body.bind Code.orphans

variable {np : Slot} {p : Proc}

/-- A thread that is about to publish a child has that child. -/
theorem Code.child_of_inner {k : Code} (h : k.inner = .forkPublish np) : k.child = some np := by
  induction k with
  | forkPublish =>
    cases h
    rfl
  | wakeup _ _ _ ih | sleepReacquire _ _ ih => exact ih h
  | _ => cases h

theorem Thread.child_of_body {th : Thread} (h : th.body = some (.forkPublish np)) :
    th.child = some np := by
  cases th with
  | code k | yieldAcquire k | yieldStore k => exact k.child_of_inner (Option.some.inj h)
  | sleepAcquire _ _ k | sleepRelease _ _ k | sleepStore _ _ k =>
    exact k.child_of_inner (Option.some.inj h)
  | resume r | sched r =>
    cases r with
    | yieldRelease k | sleepTidy _ k => exact k.child_of_inner (Option.some.inj h)
    | forkret | dead => cases h
  | forkCopy | exitStore | exitRelease => cases h

/-! ## The invariant -/

/-- The process can run, or will be able to. -/
def ProcState.alive : ProcState → Bool
  | .sleeping | .runnable | .running => true
  | .unused | .used | .zombie => false

/-- The process has been published, and has not been reaped. -/
def ProcState.live : ProcState → Bool
  | .sleeping | .runnable | .running | .zombie => true
  | .unused | .used => false

structure Parents (s : Sys) : Prop where
  alive : ∀ i p, (s.procs i).parent = some p → (s.procs p).state.alive = true
  orphan : ∀ i, i ≠ initproc → (s.procs i).state.live = true → (s.procs i).parent.isSome = true
  init : (s.procs initproc).state.alive = true
  publishes : ∀ q np, (s.thread q).body = some (.forkPublish np) → (s.procs np).parent = some q
  orphans : ∀ q rest, (s.thread q).orphans = some rest →
    q ≠ initproc ∧ ∀ i, (s.procs i).parent = some q → i ∈ rest

/-! ## What a step does to a parent -/

/-- How a slot gets a parent. -/
theorem Change.parent {r : Slot} (h : Change s i l p) (hp : p.parent = some r) :
    (s.procs i).parent = some r ∨
      (∃ c a, l = .thread c a ∧ s.pc c = .away r ∧ s.thread r = .code (.forkParent i)) ∨
      r = initproc ∧ ∃ c a q status rest, l = .thread c a ∧ s.pc c = .away q ∧
        s.thread q = .code (.reparent status (i :: rest)) ∧ (s.procs i).parent = some q := by
  cases h with
  | adopt hpc hth =>
    cases hp
    exact Or.inr (Or.inl ⟨_, _, rfl, hpc, hth⟩)
  | reparent hpc hth hparent =>
    cases hp
    exact Or.inr (Or.inr ⟨rfl, _, _, _, _, _, rfl, hpc, hth, hparent⟩)
  | wakeup | irqWakeup =>
    rcases Proc.wake_cases (s.procs i) _ with heq | ⟨_, _, heq⟩
    · rw [heq] at hp
      exact Or.inl hp
    · rw [heq] at hp
      exact Or.inl hp
  | tick =>
    unfold Proc.tick at hp
    split at hp <;> exact Or.inl hp
  | allocFail | giveUp | reap => cases hp
  | keep | scan | dispatch | fault | kill | pass | setPriority | alloc | publish | tidy
  | yieldStore | sleepStore | exitStore => exact Or.inl hp

/-- A process stops being alive by its own `exit` only. -/
theorem Change.alive (h : Change s i l p) (hx : Exclusive s.core)
    (hi : (s.procs i).state.alive = true) : p.state.alive = true ∨
      ∃ c a status, l = .thread c a ∧ s.pc c = .away i ∧ s.thread i = .exitStore status := by
  cases h with
  | exitStore hpc hth => exact Or.inr ⟨_, _, _, rfl, hpc, hth⟩
  | wakeup | irqWakeup =>
    rcases Proc.wake_cases (s.procs i) _ with heq | ⟨_, _, heq⟩
    · rw [heq]
      exact Or.inl hi
    · rw [heq]
      exact Or.inl rfl
  | kill =>
    rcases Proc.kill_cases (s.procs i) with ⟨_, heq⟩ | ⟨_, heq⟩
    · rw [heq]
      exact Or.inl hi
    · rw [heq]
      exact Or.inl rfl
  | tick =>
    rw [Proc.tick_state]
    exact Or.inl hi
  | @giveUp _ _ r hpc hth =>
    rw [hx.child_used hth rfl] at hi
    cases hi
  | alloc hunused | allocFail hunused =>
    rw [hunused] at hi
    cases hi
  | reap _ _ _ _ hzombie =>
    rw [hzombie] at hi
    cases hi
  | keep | scan | fault | pass | setPriority | adopt | reparent | tidy => exact Or.inl hi
  | dispatch | publish | yieldStore | sleepStore => exact Or.inl rfl

/-- A process becomes a zombie by its own `exit` only. -/
theorem Change.zombie (h : Change s i l p) (hp : p.state = .zombie) :
    (s.procs i).state = .zombie ∧ p.xstate = (s.procs i).xstate ∨
      ∃ c a, l = .thread c a ∧ s.pc c = .away i ∧ s.thread i = .exitStore p.xstate := by
  cases h with
  | exitStore hpc hth => exact Or.inr ⟨_, _, rfl, hpc, hth⟩
  | wakeup | irqWakeup =>
    rcases Proc.wake_cases (s.procs i) _ with heq | ⟨_, _, heq⟩
    · rw [heq] at hp ⊢
      exact Or.inl ⟨hp, rfl⟩
    · rw [heq] at hp
      cases hp
  | kill =>
    rcases Proc.kill_cases (s.procs i) with ⟨_, heq⟩ | ⟨_, heq⟩
    · rw [heq] at hp ⊢
      exact Or.inl ⟨hp, rfl⟩
    · rw [heq] at hp
      cases hp
  | tick =>
    rw [Proc.tick_state] at hp
    exact Or.inl ⟨hp, by simp [Proc.tick, hp]⟩
  | keep | scan | fault | pass | setPriority | adopt | reparent | tidy => exact Or.inl ⟨hp, rfl⟩
  | dispatch | alloc | allocFail | publish | giveUp | reap | yieldStore | sleepStore => cases hp

/-- A slot that a step leaves published was so before, or a `fork` has just
published it. -/
theorem Change.live (h : Change s i l p) (hx : Exclusive s.core) (hok : ReadyDispatch s l)
    (hp : p.state.live = true) :
    ((s.procs i).state.live = true ∨ ∃ q, s.thread q = .code (.forkPublish i)) ∧
      ((s.procs i).parent.isSome = true → p.parent.isSome = true) := by
  -- the running thread is `RUNNING` until it stores its new state
  have hrun : ∀ c, s.pc c = .away i → (s.thread i).stored = false →
      (s.procs i).state.live = true := by
    intro c hpc hst
    rw [hx.running_at hpc rfl hst]
    rfl
  cases h with
  | dispatch hpc =>
    rw [hok.runnable hpc]
    exact ⟨Or.inl rfl, fun h => h⟩
  | publish _ hth => exact ⟨Or.inr ⟨_, hth⟩, fun h => h⟩
  | yieldStore hpc hth => exact ⟨Or.inl (hrun _ hpc (by rw [hth]; rfl)), fun h => h⟩
  | sleepStore hpc hth => exact ⟨Or.inl (hrun _ hpc (by rw [hth]; rfl)), fun h => h⟩
  | exitStore hpc hth => exact ⟨Or.inl (hrun _ hpc (by rw [hth]; rfl)), fun h => h⟩
  | wakeup | irqWakeup =>
    rcases Proc.wake_cases (s.procs i) _ with heq | ⟨hsleep, _, heq⟩
    · rw [heq] at hp ⊢
      exact ⟨Or.inl hp, fun h => h⟩
    · rw [heq, hsleep]
      exact ⟨Or.inl rfl, fun h => h⟩
  | kill =>
    rcases Proc.kill_cases (s.procs i) with ⟨_, heq⟩ | ⟨hsleep, heq⟩
    · rw [heq] at hp ⊢
      exact ⟨Or.inl hp, fun h => h⟩
    · rw [heq, hsleep]
      exact ⟨Or.inl rfl, fun h => h⟩
  | tick =>
    rw [Proc.tick_state] at hp
    refine ⟨Or.inl hp, ?_⟩
    unfold Proc.tick
    split <;> exact fun h => h
  | adopt | reparent => exact ⟨Or.inl hp, fun _ => rfl⟩
  | alloc | allocFail | giveUp | reap => cases hp
  | keep | scan | fault | pass | setPriority | tidy => exact ⟨Or.inl hp, fun h => h⟩

/-- How a slot loses a parent. -/
theorem Change.parent_kept {r : Slot} (h : Change s i l p) (hr : (s.procs i).parent = some r) :
    p.parent = some r ∨ (s.procs i).state = .unused ∨ (s.procs i).state = .zombie ∨
      (∃ q, s.thread q = .forkCopy i) ∨ (∃ q, s.thread q = .code (.forkParent i)) ∨
      ∃ status rest, s.thread r = .code (.reparent status (i :: rest)) := by
  cases h with
  | allocFail hunused => exact Or.inr (Or.inl hunused)
  | reap _ _ _ _ hzombie => exact Or.inr (Or.inr (Or.inl hzombie))
  | giveUp _ hth => exact Or.inr (Or.inr (Or.inr (Or.inl ⟨_, hth⟩)))
  | adopt _ hth => exact Or.inr (Or.inr (Or.inr (Or.inr (Or.inl ⟨_, hth⟩))))
  | reparent _ hth hparent =>
    rw [hr, Option.some.injEq] at hparent
    exact Or.inr (Or.inr (Or.inr (Or.inr (Or.inr ⟨_, _, hparent ▸ hth⟩))))
  | wakeup | irqWakeup =>
    rcases Proc.wake_cases (s.procs i) _ with heq | ⟨_, _, heq⟩
    · rw [heq]
      exact Or.inl hr
    · rw [heq]
      exact Or.inl hr
  | tick =>
    unfold Proc.tick
    split <;> exact Or.inl hr
  | keep | scan | dispatch | fault | kill | pass | setPriority | alloc | publish | tidy
  | yieldStore | sleepStore | exitStore => exact Or.inl hr

/-! ## How the places move -/

theorem Rule.publishes (hr : Rule s l s') (hn : (s'.thread q).body = some (.forkPublish np)) :
    (s.thread q).body = some (.forkPublish np) ∨ (s'.procs np).parent = some q := by
  rcases hr.body hn with hold | hrun | ⟨_, _, hfork⟩ | ⟨c, a, k, _, _, hk, hrule⟩
  · exact Or.inl hold
  · cases hrun
  · cases hfork
  · cases hrule with
    | fault _ => exact Or.inl hn
    | call henters _ _ =>
      rw [Sys.thread_set] at hn
      cases a <;> cases henters <;> cases hn
    | wakeupDone | wakeupSkip | wakeup | sleepReacquire =>
      rw [Sys.thread_set] at hn
      rw [hk]
      exact Or.inl hn
    | forkParent _ =>
      rw [Sys.thread_set] at hn
      cases hn
      refine Or.inr ?_
      show (update s.procs np _ np).parent = some q
      rw [update_self]
    | _ =>
      rw [Sys.thread_set] at hn
      cases hn

/-- An exiting process has been one before, or it has just called `exit`, or
it has visited one slot more. -/
theorem Rule.orphans {rest : List Slot} (hr : Rule s l s')
    (hn : (s'.thread q).orphans = some rest) :
    (s.thread q).orphans = some rest ∨ q ≠ initproc ∧ rest = allSlots ∨
      ∃ j, (s.thread q).orphans = some (j :: rest) ∧
        ((s'.procs j).parent = some q → q = initproc) := by
  obtain ⟨k', hbody, hrest⟩ := Option.bind_eq_some_iff.mp hn
  rcases hr.body hbody with hold | hrun | ⟨_, _, hfork⟩ | ⟨c, a, k, _, _, hk, hrule⟩
  · exact Or.inl (Option.bind_eq_some_iff.mpr ⟨k', hold, hrest⟩)
  · rw [hrun] at hrest
    cases hrest
  · rw [hfork] at hrest
    cases hrest
  · cases hrule with
    | fault _ => exact Or.inl hn
    | call henters hexit _ =>
      rw [Sys.thread_set] at hn
      cases a <;> cases henters <;> cases hn
      exact Or.inr (Or.inl ⟨hexit _ rfl, rfl⟩)
    | wakeupDone | wakeupSkip | wakeup | sleepReacquire | exit | reparentDone | exitAcquire =>
      rw [Sys.thread_set] at hn
      rw [hk]
      exact Or.inl hn
    | @reparentSkip _ _ j _ hparent =>
      rw [Sys.thread_set] at hn
      cases hn
      rw [hk]
      exact Or.inr (Or.inr ⟨j, rfl, fun h => absurd h hparent⟩)
    | @reparent _ _ j _ hparent =>
      rw [Sys.thread_set] at hn
      cases hn
      rw [hk]
      refine Or.inr (Or.inr ⟨j, rfl, ?_⟩)
      show (update s.procs j _ j).parent = some q → _
      rw [update_self]
      intro h
      exact (Option.some.inj h).symm
    | _ =>
      rw [Sys.thread_set] at hn
      cases hn

/-! ## The step -/

theorem Parents.alive_step (h : Parents s) (hx : Exclusive s.core) (hr : Rule s l s') (i p : Slot)
    (hp : (s'.procs i).parent = some p) : (s'.procs p).state.alive = true := by
  have hparent := (hr.change i).parent hp
  -- the parent was alive before the step
  have halive : (s.procs p).state.alive = true := by
    rcases hparent with hold | ⟨c, a, _, hpc, hth⟩ | ⟨rfl, _⟩
    · exact h.alive i p hold
    · rw [hx.running_at hpc hth rfl]
      rfl
    · exact h.init
  rcases (hr.change p).alive hx halive with hstay | ⟨c, a, status, hl, hpc, hexit⟩
  · exact hstay
  · -- an exiting process has no children left, and nobody gives it one
    have hnone := h.orphans p [] (by rw [hexit]; rfl)
    rcases hparent with hold | ⟨c', a', hl', hpc', hth⟩ | ⟨hinit, _⟩
    · exact absurd (hnone.2 i hold) List.not_mem_nil
    · rw [hexit] at hth
      cases hth
    · exact absurd hinit hnone.1

theorem Parents.publishes_step (h : Parents s) (hx : Exclusive s.core) (hr : Rule s l s')
    (q np : Slot) (hn : (s'.thread q).body = some (.forkPublish np)) :
    (s'.procs np).parent = some q := by
  rcases hr.publishes hn with hold | hnew
  · have hchild : (s.core.thread q).child = some np := Thread.child_of_body hold
    have hused : (s.procs np).state = .used := hx.child q np hchild
    rcases (hr.change np).parent_kept (h.publishes q np hold) with
      hkept | hstate | hstate | ⟨r, hth⟩ | ⟨r, hth⟩ | ⟨status, rest, hth⟩
    · exact hkept
    · rw [hused] at hstate
      cases hstate
    · rw [hused] at hstate
      cases hstate
    · rw [← hx.parent r q np (congrArg Thread.child hth) hchild, hth] at hold
      cases hold
    · rw [← hx.parent r q np (congrArg Thread.child hth) hchild, hth] at hold
      cases hold
    · rw [hth] at hold
      cases hold
  · exact hnew

theorem Parents.orphans_step (h : Parents s) (hr : Rule s l s') (q : Slot) (rest : List Slot)
    (hn : (s'.thread q).orphans = some rest) :
    q ≠ initproc ∧ ∀ i, (s'.procs i).parent = some q → i ∈ rest := by
  -- nobody gives a child to an exiting process
  have hold : ∀ rest0, (s.thread q).orphans = some rest0 →
      ∀ i, (s'.procs i).parent = some q → (s.procs i).parent = some q := by
    intro rest0 hrest i hp
    rcases (hr.change i).parent hp with hold | ⟨_, _, _, _, hth⟩ | ⟨hinit, _⟩
    · exact hold
    · rw [hth] at hrest
      cases hrest
    · exact absurd hinit (h.orphans q rest0 hrest).1
  rcases hr.orphans hn with hsame | ⟨hne, rfl⟩ | ⟨j, hmore, hj⟩
  · obtain ⟨hne, hrest⟩ := h.orphans q rest hsame
    exact ⟨hne, fun i hp => hrest i (hold rest hsame i hp)⟩
  · exact ⟨hne, fun i _ => List.mem_finRange i⟩
  · obtain ⟨hne, hrest⟩ := h.orphans q (j :: rest) hmore
    refine ⟨hne, fun i hp => ?_⟩
    rcases List.mem_cons.mp (hrest i (hold _ hmore i hp)) with rfl | hi
    · exact absurd (hj hp) hne
    · exact hi

theorem Parents.step (h : Parents s) (hx : Exclusive s.core) (hok : ReadyDispatch s l)
    (hr : Rule s l s') : Parents s' := by
  refine ⟨h.alive_step hx hr, ?_, ?_, h.publishes_step hx hr, h.orphans_step hr⟩
  · intro i hi hlive
    obtain ⟨hbefore, hkept⟩ := (hr.change i).live hx hok hlive
    rcases hbefore with hold | ⟨q, hth⟩
    · exact hkept (h.orphan i hi hold)
    · refine hkept ?_
      rw [h.publishes q i (by rw [hth]; rfl)]
      rfl
  · rcases (hr.change initproc).alive hx h.init with hstay | ⟨_, _, _, _, _, hexit⟩
    · exact hstay
    · exact absurd rfl (h.orphans initproc [] (by rw [hexit]; rfl)).1

end Xv6.Process
