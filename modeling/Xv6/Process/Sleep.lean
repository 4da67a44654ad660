import Xv6.Process.Locks

/-!
# `sleep` and `wakeup`

`sleep` gives up the lock of its caller before it stores `SLEEPING`, and
`wakeup` visits the slots one after the other.  No wakeup is lost all the
same, because `sleep` takes the lock of the process first.

* A process is `Waiting` for a channel from the release of the caller's lock
  until a `wakeup` finds it.  It can only get there with the lock held
  (`Rule.waiting`).
* It is `Waking` while a thread is in a `wakeup` for the channel that has
  still to visit it.  The visit ends the waiting, and nothing else can make
  the waker forget a process that waits (`Rule.waking`).

A protocol that uses the two then needs to show only that the condition and
the waiting exclude each other unless a waker is under way.
-/

namespace Xv6.Process

open Function

variable {s s' : Sys} {l : Step} {q : Slot} {chan : Chan}

/-! ## Places -/

/-- The channel that a thread is about to sleep on, with the lock of its
caller still held. -/
def Thread.bound : Thread → Option Chan
  | .sleepAcquire chan _ _ | .sleepRelease chan _ _ => some chan
  | _ => none

/-- The code that a thread in `sleep` goes on with. -/
def Thread.pending : Thread → Option Code
  | .sleepAcquire _ _ k | .sleepRelease _ _ k | .sleepStore _ _ k => some k
  | .sched (.sleepTidy _ k) | .resume (.sleepTidy _ k) => some k
  | _ => none

/-- The process waits for a `wakeup` on the channel. -/
def Waiting (s : Sys) (q : Slot) (chan : Chan) : Prop :=
  (∃ n k, s.thread q = .sleepStore chan n k) ∨
    (s.procs q).state = .sleeping ∧ (s.procs q).chan = some chan

/-- A thread is in a `wakeup` on the channel that has still to visit the
process, and goes on with the code `k` afterwards. -/
def Waking (s : Sys) (q : Slot) (chan : Chan) (k : Code) : Prop :=
  ∃ r slots, s.thread r = .code (.wakeup (some chan) slots k) ∧ q ∈ slots

/-! ## How a process begins to wait -/

/-- A slot that a step leaves `SLEEPING` was so before, on the same channel,
or its thread has just stored that. -/
theorem Change.sleeping {p : Proc} (h : Change s q l p) (hx : Exclusive s.core)
    (hp : p.state = .sleeping) :
    (s.procs q).state = .sleeping ∧ p.chan = (s.procs q).chan ∨
      ∃ c chan n k, s.pc c = .away q ∧ s.thread q = .sleepStore chan n k ∧
        p.chan = some chan := by
  cases h with
  | sleepStore hpc hth => exact Or.inr ⟨_, _, _, _, hpc, hth, rfl⟩
  | tidy hpc hth =>
    cases hp.symm.trans (hx.running_at hpc hth rfl)
  | wakeup | irqWakeup =>
    rcases Proc.wake_cases (s.procs q) _ with heq | ⟨_, _, heq⟩
    · rw [heq] at hp ⊢
      exact Or.inl ⟨hp, rfl⟩
    · rw [heq] at hp
      cases hp
  | kill =>
    rcases Proc.kill_cases (s.procs q) with ⟨_, heq⟩ | ⟨_, heq⟩
    · rw [heq] at hp ⊢
      exact Or.inl ⟨hp, rfl⟩
    · rw [heq] at hp
      cases hp
  | tick =>
    rw [Proc.tick_state] at hp
    exact Or.inl ⟨hp, by simp [Proc.tick, hp]⟩
  | keep | scan | fault | pass | setPriority | adopt | reparent => exact Or.inl ⟨hp, rfl⟩
  | dispatch | alloc | allocFail | publish | giveUp | reap | yieldStore | exitStore => cases hp

/-- The code of a process does not get to the store of `sleep` in one
step. -/
theorem CodeRule.not_sleepStore {c : Cpu} {a : Action} {k k' : Code} {n : Nat}
    (hr : CodeRule s c q a k s') (hk : s.thread q = .code k) :
    s'.thread q ≠ .sleepStore chan n k' := by
  cases hr with
  | fault _ =>
    rw [show (s.setProc q _).thread q = s.thread q from rfl, hk]
    exact nofun
  | _ =>
    rw [Sys.thread_set]
    exact nofun

/-- How the running thread comes to wait, or goes on waiting. -/
theorem ThreadRule.waiting {c : Cpu} {a : Action} {th : Thread} (hr : ThreadRule s c q a th s')
    (heq : s.thread q = th) (hpc : s.pc c = .away q) (hx : Exclusive s.core)
    (hw : Waiting s' q chan) :
    (Waiting s q chan ∨ ∃ n k, th = .sleepRelease chan n k ∧
      s' = (s.setLock (.cond n) none).setThread q (.sleepStore chan n k)) ∧
      (s'.thread q).pending = th.pending := by
  -- a thread that has not stored its state is `RUNNING`, and stays so
  have hawake : th.stored = false → (∀ chan n k, th ≠ .sleepStore chan n k) →
      (s'.procs q).state ≠ .sleeping := by
    intro hst hne hsleep
    rcases (hr.change hpc heq q).sleeping hx hsleep with ⟨hs, _⟩ | ⟨_, _, _, _, _, hs, _⟩
    · cases hs.symm.trans (hx.running_at hpc heq hst)
    · exact hne _ _ _ (heq.symm.trans hs)
  rcases hw with ⟨n, k, hth'⟩ | ⟨hsleep, hchan⟩
  · cases hr with
    | code hr => exact absurd hth' (hr.not_sleepStore heq)
    | sleepRelease =>
      rw [Sys.thread_set] at hth' ⊢
      cases hth'
      exact ⟨Or.inr ⟨_, _, rfl, rfl⟩, rfl⟩
    | leave _ =>
      rw [Sys.setPc_thread, Sys.thread_set] at hth'
      cases hth'
    | _ =>
      rw [Sys.thread_set] at hth'
      cases hth'
  · cases hr with
    | sleepStore =>
      rw [show (((s.setProc q _).setThread q _).procs q) = _ from update_self _ _ _]
        at hchan
      cases hchan
      rw [Sys.thread_set]
      exact ⟨Or.inl (Or.inl ⟨_, _, heq⟩), rfl⟩
    | exitRelease =>
      rw [Sys.thread_set]
      exact ⟨Or.inl (Or.inr ⟨hsleep, hchan⟩), rfl⟩
    | @leave _ r _ =>
      rw [Sys.setPc_thread, Sys.thread_set]
      refine ⟨Or.inl (Or.inr ⟨hsleep, hchan⟩), ?_⟩
      cases r <;> rfl
    | _ => exact absurd hsleep (hawake rfl nofun)

/-- A process that waits has waited before, or the step releases the lock of
its caller.  It waits in the same call. -/
theorem Rule.waiting (hr : Rule s l s') (hx : Exclusive s.core) (hw : Waiting s' q chan) :
    (Waiting s q chan ∨ ∃ n k, s.thread q = .sleepRelease chan n k ∧
      s' = (s.setLock (.cond n) none).setThread q (.sleepStore chan n k)) ∧
      (s'.thread q).pending = (s.thread q).pending := by
  -- the process waits, if its thread has not moved
  have hstay : s'.thread q = s.thread q → Waiting s q chan := by
    intro hsame
    rcases hw with ⟨n, k, hth⟩ | ⟨hsleep, hchan⟩
    · exact Or.inl ⟨n, k, hsame.symm.trans hth⟩
    · rcases (hr.change q).sleeping hx hsleep with ⟨hs, hc⟩ | ⟨_, chan', n, k, _, hth, hc⟩
      · exact Or.inr ⟨hs, hc.symm.trans hchan⟩
      · rw [hchan, Option.some.injEq] at hc
        exact Or.inl ⟨n, k, hc ▸ hth⟩
  rcases hr.turn q with hsame | ⟨hnew, hunused⟩ | ⟨_, _, k, _, _, _, hrun, hprocs, hyield⟩ |
      ⟨c, a, _, hpc, hrule⟩
  · exact ⟨Or.inl (hstay hsame), by rw [hsame]⟩
  · -- a slot that `allocproc` has just taken does not sleep
    exfalso
    rcases hw with ⟨n, k, hth⟩ | ⟨hsleep, _⟩
    · rw [hnew] at hth
      cases hth
    · rcases (hr.change q).sleeping hx hsleep with ⟨hs, _⟩ | ⟨_, _, _, _, hpc, hth, _⟩
      · rw [hunused] at hs
        cases hs
      · cases hunused.symm.trans (hx.running_at hpc hth rfl)
  · exfalso
    rcases hw with ⟨n, k, hth⟩ | ⟨hsleep, _⟩
    · rw [hyield] at hth
      cases hth
    · rw [hprocs, hrun] at hsleep
      cases hsleep
  · exact hrule.waiting rfl hpc hx hw

/-- A `SLEEPING` process sleeps on the channel of the call that it is in. -/
def Sleepers (s : Sys) : Prop :=
  ∀ q, (s.procs q).state = .sleeping →
    ∃ chan n k, (s.procs q).chan = some chan ∧ Sleeper q chan n k ∧ (s.thread q).pending = some k

theorem Sleepers.step (h : Sleepers s) (hx : Exclusive s.core) (hc : CondLocks s)
    (hr : Rule s l s') : Sleepers s' := by
  intro q hsleep
  rcases (hr.change q).sleeping hx hsleep with ⟨hold, hchan⟩ | ⟨_, chan, n, k, _, hth, hchan⟩
  · obtain ⟨chan, n, k, hq, hk, hpending⟩ := h q hold
    have hq' : (s'.procs q).chan = some chan := hchan.trans hq
    exact ⟨chan, n, k, hq', hk, (hr.waiting hx (Or.inr ⟨hsleep, hq'⟩)).2.trans hpending⟩
  · refine ⟨chan, n, k, hchan, ?_, ?_⟩
    · have hwf := hc.wf q
      rw [hth] at hwf
      exact hwf
    · rw [(hr.waiting hx (Or.inr ⟨hsleep, hchan⟩)).2, hth]
      rfl

/-! ## How a waker goes on -/

/-- A slot that `wakeup` has visited does not sleep on its channel. -/
theorem Proc.not_wake (p : Proc) (chan : Option Chan) :
    ¬((p.wake chan).state = .sleeping ∧ (p.wake chan).chan = chan) := by
  unfold Proc.wake
  split
  · rintro ⟨hs, _⟩
    cases hs
  · rename_i h
    exact h

/-- A waker has still to visit a process that waits, in the step after as
well. -/
theorem Rule.waking {k : Code} {n : Nat} (hr : Rule s l s') (hx : Exclusive s.core)
    (hc : CondLocks s) (hk : k.cond = some n) (h : Waking s q chan k) (hw : Waiting s' q chan) :
    Waking s' q chan k := by
  obtain ⟨r, slots, hth, hmem⟩ := h
  have hcond : (s.thread r).cond = some n := by rw [hth]; exact hk
  obtain ⟨c, hpc, _⟩ := hc.holder hx hcond
  have hrun : (s.procs r).state = .running :=
    hx.running_at hpc hth rfl
  rcases hr.turn r with hsame | ⟨_, hunused⟩ | ⟨c', i, _, hirq, hpc', _⟩ |
      ⟨c', a, hl, hpc', hrule⟩
  · exact ⟨r, slots, hsame.trans hth, hmem⟩
  · rw [hrun] at hunused
    cases hunused
  · rw [hc.quiet c' r i hpc' hirq] at hcond
    cases hcond
  · have hself : s.current c' = some r := by
      rw [show s.current c' = s.core.current c' from rfl, hx.current,
        show s.core.pc c' = s.pc c' from rfl, hpc']
      rfl
    rw [hth] at hrule
    cases hrule with
    | code hrule =>
      cases hrule with
      | back hk => cases hk
      | wakeupDone => cases hmem
      | @wakeupSkip _ _ j rest _ hskip =>
        refine ⟨r, rest, update_self _ _ _, ?_⟩
        -- the waker skips itself, and does not wait
        rcases List.mem_cons.mp hmem with rfl | hrest
        · exfalso
          rw [hself, Option.some.injEq] at hskip
          rcases hw with ⟨_, _, hst⟩ | ⟨hsleep, _⟩
          · rw [← hskip, show (s.setThread r _).thread r = _ from update_self _ _ _] at hst
            cases hst
          · rw [← hskip, show ((s.setThread r _).procs r).state = _ from hrun] at hsleep
            cases hsleep
        · exact hrest
      | @wakeup _ _ j rest _ hother hlock =>
        refine ⟨r, rest, update_self _ _ _, ?_⟩
        rcases List.mem_cons.mp hmem with rfl | hrest
        · exfalso
          have hne : q ≠ r := by
            rintro rfl
            exact hother hself
          rcases hw with ⟨_, _, hst⟩ | ⟨hsleep, hchan⟩
          · -- a thread at the store of `sleep` holds its lock
            rw [show (((s.setProc q _).setThread r _).thread q) = s.thread q from
              update_of_ne hne _ _] at hst
            rcases hx.suspended q with ⟨c'', hruns⟩ | ⟨r', hres⟩
            · have hlock' := (hx.lock_away (SchedPc.engaged_of_runs hruns).1 q).mpr
                (congrArg (Thread.holds q) hst)
              cases hlock.symm.trans hlock'
            · cases hst.symm.trans hres
          · rw [show (((s.setProc q _).setThread r _).procs q) = _ from
              update_self _ _ _] at hsleep hchan
            exact Proc.not_wake _ _ ⟨hsleep, hchan⟩
        · exact hrest

end Xv6.Process
