import Xv6.Process.Dispatch

/-!
# The spinlocks that are not process locks

`wait_lock`, `tickslock` and the spinlocks inside the sleep locks are the
locks `Lock.cond n`.  A thread holds at most one of them, and its place says
which.  `CondLocks` is the invariant that the lock table agrees with the
places, so no two threads are inside sections of the same lock.

A thread that sleeps gives its lock up and takes it again afterwards.
`Sleeper` lists who sleeps: `wait` and `waitx` on the process itself,
`acquiresleep` on the sleep lock, and other code on other channels.
-/

namespace Xv6.Process

open Xv6.Lib Function

/-! ## Places -/

/-- The spinlock that the code holds. -/
def Code.cond : Code → Option Nat
  | .run lk => lk
  | .wakeup _ _ k => k.cond
  | .reparent _ _ | .exitAcquire _ | .waitScan _ _ _ => some waitLock
  | .acquiresleepTest n | .releasesleepDone n => some (spinOf n)
  | .kill _ _ | .setPriority _ _ _ _ | .setPriorityTest _ _ | .allocproc _ | .forkParent _
  | .forkPublish _ | .exit _ | .wait _ | .sleepReacquire _ _ | .acquiresleep _
  | .releasesleep _ => none

/-- The spinlock that a thread holds. -/
def Thread.cond : Thread → Option Nat
  | .code k => k.cond
  | .sleepAcquire _ n _ | .sleepRelease _ n _ => some n
  | .exitStore _ | .exitRelease => some waitLock
  | .resume _ | .yieldAcquire _ | .yieldStore _ | .sleepStore _ _ _ | .forkCopy _ | .sched _ =>
      none

/-- The spinlock that an interrupt handler holds. -/
def Irq.cond : Irq → Option Nat
  | .updateTime _ => some ticksLock
  | .wakeup _ _ timer => if timer then some ticksLock else none
  | .clockintr | .devintr _ => none

variable {k : Code} {n : Nat} {a : Action} {r : Irq} {l : Step}

/-- Code that can be interrupted holds no spinlock. -/
theorem Code.cond_of_interruptible (h : k.interruptible = true) : k.cond = none := by
  induction k with
  | run lk => exact Option.isNone_iff_eq_none.mp h
  | wakeup _ _ k ih => exact ih h
  | reparent | exitAcquire | waitScan | acquiresleepTest | releasesleepDone => cases h
  | kill | setPriority | setPriorityTest | allocproc | forkParent | forkPublish | exit | wait
  | sleepReacquire | acquiresleep | releasesleep => rfl

/-- Process `q` sleeps on `chan` with the lock `n`, and goes on with the
code `k` when it has the lock back. -/
inductive Sleeper (q : Slot) : Chan → Nat → Code → Prop
  | run {chan : Chan} {n : Nat} (h : ∀ m, chan ≠ .sleeplock m) :
      Sleeper q chan n (.run (some n))
  | wait {call : WaitCall} : Sleeper q (.proc q) waitLock (.waitScan call allSlots false)
  | lock {m : Nat} : Sleeper q (.sleeplock m) (spinOf m) (.acquiresleepTest m)

theorem Sleeper.cond {q : Slot} {chan : Chan} (h : Sleeper q chan n k) : k.cond = some n := by
  cases h <;> rfl

/-- The code that calls `wakeup`. -/
def Code.wakes : Code → Bool
  | .run _ | .reparent _ _ | .exitAcquire _ | .releasesleepDone _ => true
  | _ => false

/-- What the places of a thread have in common: the code that waits for the
end of a `wakeup`, a `sleep` or a `yield` is one that can. -/
def Code.Wf (q : Slot) : Code → Prop
  | .wakeup _ _ k => k.wakes = true
  | .sleepReacquire n k => ∃ chan, Sleeper q chan n k
  | _ => True

def Resume.Wf (q : Slot) : Resume → Prop
  | .yieldRelease k => k.cond = none ∧ k.Wf q
  | .sleepTidy n k => ∃ chan, Sleeper q chan n k
  | .forkret | .dead => True

def Thread.Wf (q : Slot) : Thread → Prop
  | .code k => k.Wf q
  | .yieldAcquire k | .yieldStore k => k.cond = none ∧ k.Wf q
  | .sleepAcquire chan n k | .sleepRelease chan n k | .sleepStore chan n k => Sleeper q chan n k
  | .resume r | .sched r => r.Wf q
  | .forkCopy _ | .exitStore _ | .exitRelease => True

theorem Code.wf_of_wakes {q : Slot} (h : k.wakes = true) : k.Wf q := by
  cases k <;> first | exact True.intro | cases h

theorem Sleeper.wf {q : Slot} {chan : Chan} (h : Sleeper q chan n k) : k.Wf q := by
  cases h <;> exact True.intro

/-! ## The invariant -/

/-- The lock table agrees with the places. -/
structure CondLocks (s : Sys) : Prop where
  wf : ∀ q, (s.thread q).Wf q
  thread : ∀ c q n, s.pc c = .away q → (s.thread q).cond = some n → s.lock (.cond n) = some c
  irq : ∀ c r n, s.irq c = some r → r.cond = some n → s.lock (.cond n) = some c
  /-- A hart in an interrupt handler has interrupted a thread that holds no
  spinlock. -/
  quiet : ∀ c q r, s.pc c = .away q → s.irq c = some r → (s.thread q).cond = none

variable {s s' : Sys} {c : Cpu} {q : Slot}

/-- What hart `c` does to the spinlocks, when the thread or the handler that
it runs goes on: it keeps what it holds, takes a lock, or gives its lock
back. -/
inductive Hand (s s' : Sys) (c : Cpu) (before after : Option Nat) : Prop
  | keep (hlock : ∀ n, s'.lock (.cond n) = s.lock (.cond n)) (hcond : after = before)
  | take {n : Nat} (hfree : s.lock (.cond n) = none)
      (hlock : ∀ m, s'.lock (.cond m) = if m = n then some c else s.lock (.cond m))
      (hcond : after = some n)
  | give {n : Nat} (hold : before = some n)
      (hlock : ∀ m, s'.lock (.cond m) = if m = n then none else s.lock (.cond m))
      (hcond : after = none)

/-- The hart itself holds what its new place says. -/
theorem Hand.own {before after : Option Nat} (h : Hand s s' c before after)
    (hold : ∀ n, before = some n → s.lock (.cond n) = some c) (hn : after = some n) :
    s'.lock (.cond n) = some c := by
  cases h with
  | keep hlock hcond => rw [hlock, hold n (hcond ▸ hn)]
  | @take m _ hlock hcond =>
    rw [hn, Option.some.injEq] at hcond
    rw [hlock, if_pos hcond]
  | give _ _ hcond =>
    rw [hn] at hcond
    cases hcond

/-- What another hart holds it still holds. -/
theorem Hand.other {before after : Option Nat} (h : Hand s s' c before after) {c' : Cpu}
    (hold : ∀ n, before = some n → s.lock (.cond n) = some c) (hc : c' ≠ c)
    (hn : s.lock (.cond n) = some c') : s'.lock (.cond n) = some c' := by
  cases h with
  | keep hlock _ => rw [hlock, hn]
  | @take m hfree hlock _ =>
    by_cases hm : n = m
    · rw [← hm, hn] at hfree
      cases hfree
    · rw [hlock, if_neg hm, hn]
  | @give m hbefore hlock _ =>
    by_cases hm : n = m
    · rw [← hm] at hbefore
      rw [hold n hbefore, Option.some.injEq] at hn
      exact absurd hn.symm hc
    · rw [hlock, if_neg hm, hn]

/-! ## The thread of a process -/

theorem setLock_cond (s : Sys) (n m : Nat) (h : Option Cpu) :
    (s.setLock (.cond n) h).lock (.cond m) = if m = n then h else s.lock (.cond m) := by
  by_cases hm : m = n
  · rw [if_pos hm, hm]
    exact update_self _ _ _
  · rw [if_neg hm]
    exact update_of_ne (by simp [hm]) _ _

/-- A call enters code that holds no spinlock. -/
theorem Action.enters_wf (h : a.enters = some k) : k.cond = none ∧ k.Wf q := by
  cases a <;> cases h <;> exact ⟨rfl, True.intro⟩

/-- A function that only returns holds no spinlock. -/
theorem Code.returns_cond (h : k.returns = true) : k.cond = none := by
  cases k <;> first | rfl | exact absurd h Bool.false_ne_true

theorem CodeRule.hand (hr : CodeRule s c q a k s') (hk : s.thread q = .code k) (hwf : k.Wf q) :
    Hand s s' c k.cond (s'.thread q).cond ∧ (s'.thread q).Wf q := by
  cases hr with
  | acquire hlock | exit hlock | wait hlock | acquiresleep hlock =>
    rw [Sys.thread_set]
    exact ⟨.take hlock (setLock_cond _ _ · _) rfl, True.intro⟩
  | releasesleep hlock =>
    rw [Sys.thread_set]
    exact ⟨.take hlock (setLock_cond _ _ · _) rfl, rfl⟩
  | sleepReacquire hlock =>
    rw [Sys.thread_set]
    obtain ⟨chan, hk⟩ := hwf
    exact ⟨.take hlock (setLock_cond s _ · _) hk.cond, hk.wf⟩
  | release | waitFail | waitReap | waitNone | acquiresleepTake | releasesleepDone =>
    rw [Sys.thread_set]
    exact ⟨.give rfl (setLock_cond _ _ · _) rfl, True.intro⟩
  | call henters _ _ =>
    rw [Sys.thread_set]
    exact ⟨.keep (fun _ => rfl) (Action.enters_wf henters (q := q)).1, (Action.enters_wf henters).2⟩
  | back hreturns =>
    rw [Sys.thread_set]
    exact ⟨.keep (fun _ => rfl) (Code.returns_cond hreturns).symm, True.intro⟩
  | callSleep hchan =>
    rw [Sys.thread_set]
    exact ⟨.keep (fun _ => rfl) rfl, .run hchan⟩
  | waitSleep =>
    rw [Sys.thread_set]
    exact ⟨.keep (fun _ => rfl) rfl, .wait⟩
  | acquiresleepWait _ =>
    rw [Sys.thread_set]
    exact ⟨.keep (fun _ => rfl) rfl, .lock⟩
  | fault _ =>
    rw [show (s.setProc q _).thread q = s.thread q from rfl, hk]
    exact ⟨.keep (fun _ => rfl) rfl, hwf⟩
  | wakeupDone =>
    rw [Sys.thread_set]
    exact ⟨.keep (fun _ => rfl) rfl, Code.wf_of_wakes hwf⟩
  | wakeupSkip | wakeup =>
    rw [Sys.thread_set]
    exact ⟨.keep (fun _ => rfl) rfl, hwf⟩
  | callWakeup | reparentDone | reparent =>
    rw [Sys.thread_set]
    exact ⟨.keep (fun _ => rfl) rfl, rfl⟩
  | exitAcquire | alloc | killMiss | killHit | setPriorityMiss | setPriorityHit | allocMiss | allocFail
  | forkParent | forkPublish | reparentSkip | waitSkip | waitAlive =>
    rw [Sys.thread_set]
    exact ⟨.keep (fun _ => rfl) rfl, True.intro⟩

theorem ThreadRule.hand {th : Thread} (hr : ThreadRule s c q a th s') (heq : s.thread q = th)
    (hwf : th.Wf q) : Hand s s' c th.cond (s'.thread q).cond ∧ (s'.thread q).Wf q := by
  cases hr with
  | code hr => exact hr.hand heq hwf
  | forkret =>
    rw [Sys.thread_set]
    exact ⟨.keep (fun _ => rfl) rfl, True.intro⟩
  | yieldRelease =>
    rw [Sys.thread_set]
    exact ⟨.keep (fun _ => rfl) hwf.1, hwf.2⟩
  | sleepTidy | yieldAcquire | sleepAcquire | forkGiveUp | forkCopied | yieldStore | exitStore =>
    rw [Sys.thread_set]
    exact ⟨.keep (fun _ => rfl) rfl, hwf⟩
  | sleepRelease =>
    rw [Sys.thread_set]
    exact ⟨.give rfl (setLock_cond _ _ · _) rfl, hwf⟩
  | sleepStore =>
    rw [Sys.thread_set]
    exact ⟨.keep (fun _ => rfl) rfl, ⟨_, hwf⟩⟩
  | exitRelease =>
    rw [Sys.thread_set]
    exact ⟨.give rfl (setLock_cond _ _ · _) rfl, True.intro⟩
  | leave _ =>
    rw [Sys.setPc_thread, Sys.thread_set]
    exact ⟨.keep (fun _ => rfl) rfl, hwf⟩

/-- What a step of a thread leaves alone. -/
theorem ThreadRule.frame {th : Thread} (hr : ThreadRule s c q a th s') :
    s'.irq = s.irq ∧ (∀ c' i, s'.pc c' = .away i → s.pc c' = .away i) ∧
      ∀ i, i ≠ q → s'.thread i = s.thread i ∨
        s'.thread i = .resume .forkret ∧ (s.procs i).state = .unused := by
  have hother : ∀ (t : Sys) th i, i ≠ q → (t.setThread q th).thread i = t.thread i :=
    fun t th i hi => update_of_ne hi _ _
  cases hr with
  | leave _ =>
    refine ⟨rfl, fun c' i h => ?_, fun i hi => Or.inl (hother _ _ i hi)⟩
    by_cases hc : c' = c
    · rw [hc, show ((s.setThread q _).setPc c (.back q)).pc c = .back q from
        update_self _ _ _] at h
      cases h
    · rwa [show ((s.setThread q _).setPc c (.back q)).pc c' = s.pc c' from
        update_of_ne hc _ _] at h
  | code hr =>
    cases hr with
    | fault _ => exact ⟨rfl, fun _ _ h => h, fun _ _ => Or.inl rfl⟩
    | @alloc _ j _ _ hunused _ =>
      refine ⟨rfl, fun _ _ h => h, fun i hi => ?_⟩
      rw [hother _ _ i hi]
      by_cases hj : i = j
      · rw [hj]
        exact Or.inr ⟨update_self _ _ _, hunused⟩
      · exact Or.inl (update_of_ne hj _ _)
    | _ => exact ⟨rfl, fun _ _ h => h, fun i hi => Or.inl (hother _ _ i hi)⟩
  | _ => exact ⟨rfl, fun _ _ h => h, fun i hi => Or.inl (hother _ _ i hi)⟩

theorem CondLocks.thread_step (h : CondLocks s) (hx : Exclusive s.core) (hpc : s.pc c = .away q)
    (hirq : s.irq c = none) (hr : ThreadRule s c q a (s.thread q) s') : CondLocks s' := by
  obtain ⟨hhand, hwf⟩ := hr.hand rfl (h.wf q)
  obtain ⟨hirq', hpc', hth'⟩ := hr.frame
  have hold : ∀ n, (s.thread q).cond = some n → s.lock (.cond n) = some c :=
    fun n hn => h.thread c q n hpc hn
  have hone : ∀ c', s.pc c' = .away q → c' = c := by
    intro c' hc'
    exact hx.unique c' c q (congrArg SchedPc.engaged hc') (congrArg SchedPc.engaged hpc)
  -- another thread is where it was, or at the start of a new process
  have hcond : ∀ i, i ≠ q → (s'.thread i).cond = none ∨ (s'.thread i).cond = (s.thread i).cond := by
    intro i hi
    rcases hth' i hi with hsame | ⟨hnew, _⟩
    · exact Or.inr (congrArg Thread.cond hsame)
    · exact Or.inl (congrArg Thread.cond hnew)
  refine ⟨?_, ?_, ?_, ?_⟩
  · intro i
    by_cases hi : i = q
    · exact hi ▸ hwf
    · rcases hth' i hi with hsame | ⟨hnew, _⟩
      · exact hsame ▸ h.wf i
      · rw [hnew]
        exact True.intro
  · intro c' i n hc' hn
    have hpos := hpc' c' i hc'
    by_cases hi : i = q
    · rw [hi] at hpos hn
      rw [hone c' hpos]
      exact hhand.own hold hn
    · have hne : c' ≠ c := by
        rintro rfl
        rw [hpc] at hpos
        exact hi (by injection hpos with hpos; exact hpos.symm)
      rcases hcond i hi with hnone | hsame
      · rw [hnone] at hn
        cases hn
      · exact hhand.other hold hne (h.thread c' i n hpos (hsame ▸ hn))
  · intro c' r n hr' hn
    rw [hirq'] at hr'
    have hne : c' ≠ c := by
      rintro rfl
      rw [hirq] at hr'
      cases hr'
    exact hhand.other hold hne (h.irq c' r n hr' hn)
  · intro c' i r hc' hr'
    have hpos := hpc' c' i hc'
    rw [hirq'] at hr'
    have hi : i ≠ q := by
      rintro rfl
      rw [hone c' hpos, hirq] at hr'
      cases hr'
    rcases hcond i hi with hnone | hsame
    · exact hnone
    · rw [hsame]
      exact h.quiet c' i r hpos hr'

/-! ## `scheduler()` and the handlers -/

theorem CondLocks.sched_step (h : CondLocks s) (hx : Exclusive s.core) (hirq : s.irq c = none)
    (hr : SchedRule s c s') : CondLocks s' := by
  have hlock : ∀ n, s'.lock (.cond n) = s.lock (.cond n) := by
    intro n
    cases hr <;> rfl
  have hirq' : s'.irq = s.irq := by
    cases hr <;> rfl
  have hth' : s'.thread = s.thread := by
    cases hr <;> rfl
  -- a hart enters a thread that is suspended
  have hpc' : ∀ c' i, s'.pc c' = .away i →
      s.pc c' = .away i ∨ c' = c ∧ ∃ r, s.thread i = .resume r := by
    intro c' i hc'
    by_cases hc : c' = c
    · refine Or.inr ⟨hc, ?_⟩
      rw [hc] at hc'
      cases hr with
      | @enter q hpc =>
        rw [show (s.setPc c (.away q)).pc c = .away q from update_self _ _ _] at hc'
        cases hc'
        rcases hx.suspended i with ⟨c'', hrun⟩ | hr
        · have hsame := hx.unique c'' c i (SchedPc.engaged_of_runs hrun).2
            (congrArg SchedPc.engaged hpc)
          rw [hsame, show s.core.pc c = s.pc c from rfl, hpc] at hrun
          cases hrun
        · exact hr
      | _ =>
        rw [show (Sys.setPc _ c _).pc c = _ from update_self _ _ _] at hc'
        cases hc'
    · left
      rw [← hc']
      cases hr <;> exact (update_of_ne hc _ _).symm
  refine ⟨?_, ?_, ?_, ?_⟩
  · intro i
    rw [hth']
    exact h.wf i
  · intro c' i n hc' hn
    rw [hth'] at hn
    rw [hlock]
    rcases hpc' c' i hc' with hpos | ⟨_, r, hr⟩
    · exact h.thread c' i n hpos hn
    · rw [hr] at hn
      cases hn
  · intro c' r n hr' hn
    rw [hirq'] at hr'
    rw [hlock]
    exact h.irq c' r n hr' hn
  · intro c' i r hc' hr'
    rw [hth']
    rw [hirq'] at hr'
    rcases hpc' c' i hc' with hpos | ⟨hc, _⟩
    · exact h.quiet c' i r hpos hr'
    · rw [hc, hirq] at hr'
      cases hr'

/-- The handler on hart `c` goes on, or it returns. -/
theorem IrqRule.hand (hr : IrqRule s c r s') : Hand s s' c r.cond ((s'.irq c).bind Irq.cond) := by
  have hself : ∀ (t : Sys) o, (t.setIrq c o).irq c = o := fun t o => update_self _ _ _
  cases hr with
  | clockintr hlock =>
    rw [hself]
    exact .take hlock (setLock_cond _ _ · _) rfl
  | tickWoken =>
    rw [hself]
    exact .give rfl (setLock_cond _ _ · _) rfl
  | tick | ticked | wakeupSkip | wakeup | woken | device | back =>
    rw [hself]
    exact .keep (fun _ => rfl) rfl
  | yield _ _ _ =>
    rw [show ((s.setIrq c none).setThread _ _).irq c = none from hself s none]
    exact .keep (fun _ => rfl) rfl

/-- What a step of a handler leaves alone. -/
theorem IrqRule.frame (hr : IrqRule s c r s') :
    s'.pc = s.pc ∧ (∀ c', c' ≠ c → s'.irq c' = s.irq c') ∧
      (s'.thread = s.thread ∨
        ∃ q k, s.pc c = .away q ∧ s.thread q = .code k ∧ s'.irq c = none ∧
          s'.thread = update s.thread q (.yieldAcquire k)) := by
  cases hr with
  | @yield q k hpc hth _ =>
    exact ⟨rfl, fun c' hc => update_of_ne hc _ _,
      Or.inr ⟨q, k, hpc, hth, update_self _ _ _, rfl⟩⟩
  | clockintr | tick | ticked | wakeupSkip | wakeup | woken | tickWoken | device | back =>
    exact ⟨rfl, fun c' hc => update_of_ne hc _ _, Or.inl rfl⟩

theorem CondLocks.irq_step (h : CondLocks s) (hirq : s.irq c = some r) (hr : IrqRule s c r s') :
    CondLocks s' := by
  obtain ⟨hpc', hirq', hth'⟩ := hr.frame
  have hhand := hr.hand
  have hold : ∀ n, r.cond = some n → s.lock (.cond n) = some c :=
    fun n hn => h.irq c r n hirq hn
  -- the interrupted thread holds no spinlock, before and after it yields
  have hcond : ∀ i, (s'.thread i).cond = (s.thread i).cond := by
    intro i
    rcases hth' with hsame | ⟨q, k, hpc, hth, _, hyield⟩
    · rw [hsame]
    · rw [hyield]
      by_cases hi : i = q
      · rw [hi, update_self, h.quiet c q r hpc hirq]
        rfl
      · rw [update_of_ne hi]
  refine ⟨?_, ?_, ?_, ?_⟩
  · intro i
    rcases hth' with hsame | ⟨q, k, hpc, hth, _, hyield⟩
    · rw [hsame]
      exact h.wf i
    · rw [hyield]
      by_cases hi : i = q
      · have hquiet := h.quiet c q r hpc hirq
        have hwf := h.wf q
        rw [hth] at hquiet hwf
        rw [hi, update_self]
        exact ⟨hquiet, hwf⟩
      · rw [update_of_ne hi]
        exact h.wf i
  · intro c' i n hc' hn
    rw [hpc'] at hc'
    rw [hcond] at hn
    by_cases hc : c' = c
    · rw [h.quiet c i r (hc ▸ hc') hirq] at hn
      cases hn
    · exact hhand.other hold hc (h.thread c' i n hc' hn)
  · intro c' r' n hr' hn
    by_cases hc : c' = c
    · rw [hc] at hr' ⊢
      rw [hr'] at hhand
      exact hhand.own hold hn
    · rw [hirq' c' hc] at hr'
      exact hhand.other hold hc (h.irq c' r' n hr' hn)
  · intro c' i r' hc' hr'
    rw [hpc'] at hc'
    rw [hcond]
    by_cases hc : c' = c
    · exact h.quiet c i r (hc ▸ hc') hirq
    · rw [hirq' c' hc] at hr'
      exact h.quiet c' i r' hc' hr'

theorem CondLocks.trap_step (h : CondLocks s) (hr : r.cond = none) (hin : s.interruptible c = true)
    : CondLocks (s.setIrq c (some r)) := by
  refine ⟨h.wf, h.thread, ?_, ?_⟩
  · intro c' r' n hr' hn
    by_cases hc : c' = c
    · rw [hc, show (s.setIrq c (some r)).irq c = some r from update_self _ _ _] at hr'
      cases hr'
      rw [hr] at hn
      cases hn
    · rw [show (s.setIrq c (some r)).irq c' = s.irq c' from update_of_ne hc _ _] at hr'
      exact h.irq c' r' n hr' hn
  · intro c' i r' hc' hr'
    by_cases hc : c' = c
    · have hpos : s.pc c = .away i := hc ▸ hc'
      show (s.thread i).cond = none
      unfold Sys.interruptible at hin
      rw [hpos] at hin
      cases hth : s.thread i with
      | code k =>
        simp only [hth] at hin
        exact k.cond_of_interruptible hin
      | _ =>
        simp only [hth] at hin
        cases hin
    · rw [show (s.setIrq c (some r)).irq c' = s.irq c' from update_of_ne hc _ _] at hr'
      exact h.quiet c' i r' hc' hr'

/-- How the thread of one process goes on in a step: not at all, from the
start if the slot is allocated, with a yield, or by a step of its own. -/
theorem Rule.turn (hr : Rule s l s') (i : Slot) : s'.thread i = s.thread i ∨
      s'.thread i = .resume .forkret ∧ (s.procs i).state = .unused ∨
      (∃ c r k, s.irq c = some r ∧ s.pc c = .away i ∧ s.thread i = .code k ∧
        (s.procs i).state = .running ∧ s'.procs = s.procs ∧ s'.thread i = .yieldAcquire k) ∨
      ∃ c a, l = .thread c a ∧ s.pc c = .away i ∧ ThreadRule s c i a (s.thread i) s' := by
  cases hr with
  | sched _ hr =>
    left
    cases hr <;> rfl
  | @thread c q a s' hpc _ hr =>
    by_cases hi : i = q
    · exact Or.inr (Or.inr (Or.inr ⟨c, a, rfl, hi ▸ hpc, hi ▸ hr⟩))
    · rcases hr.frame.2.2 i hi with hsame | hnew
      · exact Or.inl hsame
      · exact Or.inr (Or.inl hnew)
  | trap => exact Or.inl rfl
  | @irq c _ r s' hirq hr =>
    cases hr with
    | @yield q k hpc hth hstate =>
      by_cases hi : i = q
      · refine Or.inr (Or.inr (Or.inl ⟨c, _, k, hirq, hi ▸ hpc, hi ▸ hth, hi ▸ hstate, rfl, ?_⟩))
        rw [hi]
        exact update_self _ _ _
      · exact Or.inl (update_of_ne hi _ _)
    | _ => exact Or.inl rfl

/-! ## The body of a thread -/

/-- The code without the loop of a `wakeup` or the end of a `sleep` that it
is in. -/
def Code.inner : Code → Code
  | .wakeup _ _ k | .sleepReacquire _ k => k.inner
  | k => k

def Resume.body : Resume → Option Code
  | .yieldRelease k | .sleepTidy _ k => some k.inner
  | .forkret | .dead => none

/-- The code that a thread is in, or goes on with after a `yield`, a `sleep`
or a `wakeup`. -/
def Thread.body : Thread → Option Code
  | .code k | .yieldAcquire k | .yieldStore k => some k.inner
  | .sleepAcquire _ _ k | .sleepRelease _ _ k | .sleepStore _ _ k => some k.inner
  | .resume r | .sched r => r.body
  | .exitStore status => some (.exitAcquire status)
  | .forkCopy _ | .exitRelease => none

/-- How a thread comes to its body: it was there before, or it starts or
goes back to code that is not followed, or `fork` goes on, or the code has
made a step. -/
theorem Rule.body (hr : Rule s l s') (hk : (s'.thread q).body = some k) :
    (s.thread q).body = some k ∨ k = .run none ∨
      (∃ np, s.thread q = .forkCopy np ∧ k = .forkParent np) ∨
      ∃ c a k0, l = .thread c a ∧ s.pc c = .away q ∧ s.thread q = .code k0 ∧
        CodeRule s c q a k0 s' := by
  rcases hr.turn q with hsame | ⟨hnew, _⟩ | ⟨_, _, _, _, _, hcode, _, _, hyield⟩ |
      ⟨c, a, hl, hpc, hrule⟩
  · exact Or.inl (hsame ▸ hk)
  · rw [hnew] at hk
    cases hk
  · rw [hyield] at hk
    rw [hcode]
    exact Or.inl hk
  · generalize heq : s.thread q = th at hrule
    cases hrule with
    | code hrule => exact Or.inr (Or.inr (Or.inr ⟨c, a, _, hl, hpc, rfl, hrule⟩))
    | forkret | forkGiveUp =>
      rw [Sys.thread_set] at hk
      exact Or.inr (Or.inl (Option.some.inj hk).symm)
    | @forkCopied _ np _ =>
      rw [Sys.thread_set] at hk
      exact Or.inr (Or.inr (Or.inl ⟨np, rfl, (Option.some.inj hk).symm⟩))
    | exitStore | exitRelease =>
      rw [Sys.thread_set] at hk
      cases hk
    | leave _ =>
      rw [Sys.setPc_thread, Sys.thread_set] at hk
      exact Or.inl hk
    | yieldRelease | sleepTidy | yieldAcquire | yieldStore | sleepAcquire | sleepRelease
    | sleepStore =>
      rw [Sys.thread_set] at hk
      exact Or.inl hk

/-! ## Runs -/

theorem CondLocks.step (h : CondLocks s) (hx : Exclusive s.core) (hr : Rule s l s') :
    CondLocks s' := by
  cases hr with
  | sched hirq hr => exact h.sched_step hx hirq hr
  | thread hpc hirq hr => exact h.thread_step hx hpc hirq hr
  | trap _ hi hin =>
    rcases hi with rfl | rfl
    · exact h.trap_step rfl hin
    · exact h.trap_step rfl hin
  | irq hi hr => exact h.irq_step hi hr

theorem boot_condLocks : CondLocks bootSys := by
  have hth : ∀ q, ∃ r, bootSys.thread q = .resume r ∧ r.Wf q := by
    intro q
    show ∃ r, update (fun _ => Thread.resume .dead) initproc _ q = _ ∧ _
    by_cases hq : q = initproc
    · rw [hq, update_self]
      exact ⟨_, rfl, True.intro⟩
    · rw [update_of_ne hq]
      exact ⟨_, rfl, True.intro⟩
  refine ⟨?_, nofun, nofun, nofun⟩
  intro q
  obtain ⟨r, hr, hwf⟩ := hth q
  rw [hr]
  exact hwf

/-- In every run whose dispatches find their slot `RUNNABLE`, the lock table
agrees with the places. -/
theorem reach_condLocks (h : ReachWhen ReadyDispatch next (bootSys = ·) s) :
    Exclusive s.core ∧ CondLocks s := by
  refine h.invariant (I := fun s => Exclusive s.core ∧ CondLocks s) ?_ ?_
  · rintro s rfl
    exact ⟨boot_exclusive, boot_condLocks⟩
  · rintro s l s' ⟨hx, hs⟩ hok hnext
    have hr := next_rule hnext
    exact ⟨exclusive_of_moves hx (hr.moves hx hok), hs.step hx hr⟩

/-! ## Mutual exclusion -/

/-- A thread that holds a spinlock runs. -/
theorem CondLocks.holder (h : CondLocks s) (hx : Exclusive s.core) (hn : (s.thread q).cond = some n)
    : ∃ c, s.pc c = .away q ∧ s.lock (.cond n) = some c := by
  rcases hx.suspended q with ⟨c, hrun⟩ | ⟨r, hr⟩
  · have hpc : s.pc c = .away q := (SchedPc.engaged_of_runs hrun).1
    exact ⟨c, hpc, h.thread c q n hpc hn⟩
  · rw [show s.thread q = .resume r from hr] at hn
    cases hn

/-- No thread is in a section of a lock that is free. -/
theorem CondLocks.not_free (h : CondLocks s) (hx : Exclusive s.core)
    (hfree : s.lock (.cond n) = none) (q : Slot) : (s.thread q).cond ≠ some n := by
  intro hn
  obtain ⟨c, _, hlock⟩ := h.holder hx hn
  rw [hfree] at hlock
  cases hlock

/-- Two threads are not in sections of the same lock. -/
theorem CondLocks.alone {r : Slot} (h : CondLocks s) (hx : Exclusive s.core)
    (hq : (s.thread q).cond = some n) (hr : (s.thread r).cond = some n) : q = r := by
  obtain ⟨c, hpc, hlock⟩ := h.holder hx hq
  obtain ⟨c', hpc', hlock'⟩ := h.holder hx hr
  rw [hlock, Option.some.injEq] at hlock'
  rw [← hlock', hpc] at hpc'
  injection hpc'

end Xv6.Process
