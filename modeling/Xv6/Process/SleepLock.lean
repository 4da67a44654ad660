import Xv6.Process.Sleep

/-!
# Sleep locks

`kernel/sleeplock.c`.  A sleep lock is a flag under a spinlock, and a process
that finds the flag set sleeps on the address of the lock.  Two things are
shown for every run whose dispatches find their slot `RUNNABLE`.

* One process holds the lock at most: it is between the end of
  `acquiresleep` and the store of `releasesleep`.  `Holders` is the invariant.
* When the spinlock is free and the flag is clear, nobody sleeps on the lock.
  `Waiters` is the invariant: while a process waits, the flag is set, or the
  `wakeup` of a `releasesleep` has still to visit it.
-/

namespace Xv6.Process

open Xv6.Lib Function

variable {s s' : Sys} {l : Step} {c : Cpu} {q : Slot} {n : Nat}

/-! ## Holders -/

/-- The flag of a sleep lock is set while a process holds the lock, and one
process holds it at most. -/
structure Holders (s : Sys) : Prop where
  locked : ∀ q n, s.held q n = true → (s.sleeplock n).locked = true
  unique : ∀ q r n, s.held q n = true → s.held r n = true → q = r
  releasing : ∀ q n, (s.thread q).body = some (.releasesleep n) → s.held q n = true

/-- What a step does to the sleep locks: nothing, or process `q` takes or
gives back one of them. -/
inductive SleepMove (s s' : Sys) (q : Slot) : Prop
  | keep (hlock : s'.sleeplock = s.sleeplock) (hheld : s'.held = s.held)
  | take {n : Nat} (hth : s.thread q = .code (.acquiresleepTest n))
      (hfree : (s.sleeplock n).locked = false)
      (hs : s' = ((s.setSleep q n ⟨true, (s.procs q).pid⟩ true).setLock (.cond (spinOf n))
        none).setThread q (.code (.run none)))
  | give {n : Nat} (hth : s.thread q = .code (.releasesleep n))
      (hlock : s.lock (.cond (spinOf n)) = none)
      (hs : ∃ c, s' = ((s.setSleep q n ⟨false, 0⟩ false).setLock (.cond (spinOf n))
        (some c)).setThread q (.code (.wakeup (some (.sleeplock n)) allSlots
          (.releasesleepDone n))))

theorem ThreadRule.sleepMove {a : Action} {th : Thread} (hr : ThreadRule s c q a th s')
    (heq : s.thread q = th) : SleepMove s s' q := by
  cases hr with
  | code hr =>
    cases hr with
    | acquiresleepTake hfree => exact .take heq hfree rfl
    | releasesleep hlock => exact .give heq hlock ⟨c, rfl⟩
    | _ => exact .keep rfl rfl
  | _ => exact .keep rfl rfl

theorem Rule.sleepMove (hr : Rule s l s') : ∃ q, SleepMove s s' q := by
  cases hr with
  | sched _ hr =>
    refine ⟨initproc, ?_⟩
    cases hr <;> exact .keep rfl rfl
  | thread _ _ hr => exact ⟨_, hr.sleepMove rfl⟩
  | trap => exact ⟨initproc, .keep rfl rfl⟩
  | irq _ hr =>
    refine ⟨initproc, ?_⟩
    cases hr <;> exact .keep rfl rfl

/-- A process that is about to release a lock was so before, or holds it. -/
theorem Rule.releasing (hr : Rule s l s')
    (hn : (s'.thread q).body = some (.releasesleep n)) :
    (s.thread q).body = some (.releasesleep n) ∨ s.held q n = true := by
  rcases hr.body hn with hold | hrun | ⟨_, _, hfork⟩ | ⟨c, a, k, _, _, hk, hrule⟩
  · exact Or.inl hold
  · cases hrun
  · cases hfork
  · cases hrule with
    | fault _ => exact Or.inl hn
    | call henters _ hheld =>
      rw [Sys.thread_set] at hn
      refine Or.inr (hheld n ?_)
      cases a <;> cases henters <;> cases hn
      rfl
    | wakeupDone | wakeupSkip | wakeup | sleepReacquire =>
      rw [Sys.thread_set] at hn
      rw [hk]
      exact Or.inl hn
    | _ =>
      rw [Sys.thread_set] at hn
      cases hn

theorem setSleep_held (s : Sys) (q r : Slot) (n m : Nat) (lk : SleepLock) (b : Bool) :
    (s.setSleep q n lk b).held r m = if r = q ∧ m = n then b else s.held r m := by
  simp only [Sys.setSleep, update_apply]
  split <;> simp_all [update_apply]

theorem setSleep_locked (s : Sys) (q : Slot) (n m : Nat) (lk : SleepLock) (b : Bool) :
    ((s.setSleep q n lk b).sleeplock m).locked =
      if m = n then lk.locked else (s.sleeplock m).locked := by
  simp only [Sys.setSleep, update_apply]
  split <;> rfl

theorem Holders.step (h : Holders s) (hr : Rule s l s') : Holders s' := by
  obtain ⟨q, hmove⟩ := hr.sleepMove
  cases hmove with
  | keep hlock hheld =>
    refine ⟨?_, ?_, ?_⟩
    · rw [hlock, hheld]
      exact h.locked
    · rw [hheld]
      exact h.unique
    · intro r m hm
      rw [hheld]
      rcases hr.releasing hm with hold | hold
      · exact h.releasing r m hold
      · exact hold
  | @take n hth hfree hs =>
    -- nobody holds a lock whose flag is clear
    have hnone : ∀ r, s.held r n = false := by
      intro r
      by_contra hheld
      rw [h.locked r n (Bool.eq_true_of_not_eq_false hheld)] at hfree
      cases hfree
    have hheld : ∀ r m, s'.held r m = if r = q ∧ m = n then true else s.held r m := by
      intro r m
      rw [hs]
      exact setSleep_held s q r n m ⟨true, (s.procs q).pid⟩ true
    refine ⟨?_, ?_, ?_⟩
    · intro r m hm
      rw [hs, show (Sys.setThread _ q _).sleeplock = (s.setSleep q n _ true).sleeplock from rfl,
        setSleep_locked]
      rw [hheld] at hm
      split
      · rfl
      · rename_i hne
        rw [if_neg (fun he => hne he.2)] at hm
        exact h.locked r m hm
    · intro r r' m hm hm'
      rw [hheld] at hm hm'
      split at hm <;> split at hm'
      · rename_i he he'
        rw [he.1, he'.1]
      · rename_i he _
        rw [he.2, hnone] at hm'
        cases hm'
      · rename_i _ he'
        rw [he'.2, hnone] at hm
        cases hm
      · exact h.unique r r' m hm hm'
    · intro r m hm
      rw [hheld]
      split
      · rfl
      · rcases hr.releasing hm with hold | hold
        · exact h.releasing r m hold
        · exact hold
  | @give n hth hlock hs =>
    obtain ⟨c, hs⟩ := hs
    have hmine : s.held q n = true := h.releasing q n (by rw [hth]; rfl)
    have hheld : ∀ r m, s'.held r m = if r = q ∧ m = n then false else s.held r m := by
      intro r m
      rw [hs]
      exact setSleep_held s q r n m ⟨false, 0⟩ false
    -- who holds a lock afterwards held it before, and it is another lock
    have hkept : ∀ r m, s'.held r m = true → s.held r m = true ∧ m ≠ n := by
      intro r m hm
      rw [hheld] at hm
      split at hm
      · cases hm
      · rename_i hne
        refine ⟨hm, ?_⟩
        rintro rfl
        exact hne ⟨h.unique r q _ hm hmine, rfl⟩
    refine ⟨?_, ?_, ?_⟩
    · intro r m hm
      obtain ⟨hold, hne⟩ := hkept r m hm
      rw [hs, show (Sys.setThread _ q _).sleeplock = (s.setSleep q n _ false).sleeplock from rfl,
        setSleep_locked, if_neg hne]
      exact h.locked r m hold
    · intro r r' m hm hm'
      exact h.unique r r' m (hkept r m hm).1 (hkept r' m hm').1
    · intro r m hm
      have hrq : r ≠ q := by
        rintro rfl
        rw [hs, show (Sys.setThread _ r _).thread r = _ from update_self _ _ _] at hm
        cases hm
      rw [hheld, if_neg (fun he => hrq he.1)]
      rcases hr.releasing hm with hold | hold
      · exact h.releasing r m hold
      · exact hold

/-! ## Waiters -/

/-- While a process is on its way to sleep on a lock, the flag is set.  While
it waits, the flag is set or a `releasesleep` has still to visit it. -/
structure Waiters (s : Sys) : Prop where
  bound : ∀ q n, (s.thread q).bound = some (.sleeplock n) → (s.sleeplock n).locked = true
  waiting : ∀ q n, Waiting s q (.sleeplock n) →
    (s.sleeplock n).locked = true ∨ Waking s q (.sleeplock n) (.releasesleepDone n)

/-- Who goes to sleep on a lock has found the flag set. -/
theorem CodeRule.bound {a : Action} {k : Code} (hr : CodeRule s c q a k s')
    (hk : s.thread q = .code k) (hn : (s'.thread q).bound = some (.sleeplock n)) :
    (s.sleeplock n).locked = true := by
  cases hr with
  | fault _ =>
    rw [show (s.setProc q _).thread q = s.thread q from rfl, hk] at hn
    cases hn
  | callSleep hchan =>
    rw [Sys.thread_set] at hn
    cases hn
    exact absurd rfl (hchan n)
  | acquiresleepWait hlocked =>
    rw [Sys.thread_set] at hn
    cases hn
    exact hlocked
  | _ =>
    rw [Sys.thread_set] at hn
    cases hn

theorem Rule.bound (hr : Rule s l s') (hn : (s'.thread q).bound = some (.sleeplock n)) :
    (s.thread q).bound = some (.sleeplock n) ∨ (s.sleeplock n).locked = true := by
  rcases hr.turn q with hsame | ⟨hnew, _⟩ | ⟨_, _, k, _, _, hk, _, _, hyield⟩ |
      ⟨c, a, _, hpc, hrule⟩
  · exact Or.inl (hsame ▸ hn)
  · rw [hnew] at hn
    cases hn
  · rw [hyield] at hn
    cases hn
  · generalize heq : s.thread q = th at hrule
    cases hrule with
    | code hrule => exact Or.inr (hrule.bound heq hn)
    | sleepAcquire _ =>
      rw [Sys.thread_set] at hn
      exact Or.inl hn
    | leave _ =>
      rw [Sys.setPc_thread, Sys.thread_set] at hn
      cases hn
    | _ =>
      rw [Sys.thread_set] at hn
      cases hn

/-- A flag that is set stays set, unless a `releasesleep` clears it and
begins to wake everybody up. -/
theorem Rule.locked (hr : Rule s l s') (hn : (s.sleeplock n).locked = true) :
    (s'.sleeplock n).locked = true ∨
      ∀ q, Waking s' q (.sleeplock n) (.releasesleepDone n) := by
  obtain ⟨r, hmove⟩ := hr.sleepMove
  cases hmove with
  | keep hlock _ =>
    rw [hlock]
    exact Or.inl hn
  | take _ _ hs =>
    rw [hs, show (Sys.setThread _ r _).sleeplock = (s.setSleep r _ _ true).sleeplock from rfl,
      setSleep_locked]
    split
    · exact Or.inl rfl
    · exact Or.inl hn
  | @give m hth hlock hs =>
    obtain ⟨c, hs⟩ := hs
    by_cases hm : n = m
    · refine Or.inr (fun q => ⟨r, allSlots, ?_, List.mem_finRange q⟩)
      rw [hs, hm]
      exact update_self _ _ _
    · rw [hs, show (Sys.setThread _ r _).sleeplock = (s.setSleep r _ _ false).sleeplock from rfl,
        setSleep_locked, if_neg hm]
      exact Or.inl hn

/-- A thread on its way to sleep on a sleep lock holds its spinlock. -/
theorem CondLocks.bound_cond (hc : CondLocks s) (hn : (s.thread q).bound = some (.sleeplock n)) :
    (s.thread q).cond = some (spinOf n) := by
  have hwf := hc.wf q
  cases hth : s.thread q with
  | sleepAcquire chan m k | sleepRelease chan m k =>
    rw [hth] at hn hwf
    cases hn
    cases hwf with
    | run h => exact absurd rfl (h n)
    | lock => rfl
  | _ =>
    rw [hth] at hn
    cases hn

theorem Waiters.step (h : Waiters s) (hx : Exclusive s.core) (hc : CondLocks s)
    (hx' : Exclusive s'.core) (hc' : CondLocks s') (hr : Rule s l s') : Waiters s' := by
  refine ⟨?_, ?_⟩
  · intro q n hn
    have hlocked : (s.sleeplock n).locked = true := by
      rcases hr.bound hn with hold | hold
      · exact h.bound q n hold
      · exact hold
    rcases hr.locked hlocked with hstay | hwaking
    · exact hstay
    · -- the waker would hold the spinlock together with the process
      obtain ⟨r, slots, hth, _⟩ := hwaking q
      have hrq : r = q := hc'.alone hx' (by rw [hth]; rfl) (hc'.bound_cond hn)
      rw [← hrq, hth] at hn
      cases hn
  · intro q n hw
    have hsplit : (s.sleeplock n).locked = true ∨
        Waking s' q (.sleeplock n) (.releasesleepDone n) := by
      rcases (hr.waiting hx hw).1 with hold | hold
      · rcases h.waiting q n hold with hlocked | hwaking
        · exact Or.inl hlocked
        · exact Or.inr (hr.waking hx hc rfl hwaking hw)
      · obtain ⟨_, _, hth, _⟩ := hold
        exact Or.inl (h.bound q n (by rw [hth]; rfl))
    rcases hsplit with hlocked | hwaking
    · rcases hr.locked hlocked with hstay | hwaking
      · exact Or.inl hstay
      · exact Or.inr (hwaking q)
    · exact Or.inr hwaking

/-! ## Runs -/

/-- The invariants of the sleep locks, with those they rest on. -/
structure SleepSound (s : Sys) : Prop where
  exclusive : Exclusive s.core
  locks : CondLocks s
  holders : Holders s
  waiters : Waiters s

theorem boot_sleepSound : SleepSound bootSys := by
  have hth : ∀ q, ∃ r, bootSys.thread q = .resume r ∧ r.body = none := by
    intro q
    show ∃ r, update (fun _ => Thread.resume .dead) initproc _ q = _ ∧ _
    by_cases hq : q = initproc
    · rw [hq, update_self]
      exact ⟨_, rfl, rfl⟩
    · rw [update_of_ne hq]
      exact ⟨_, rfl, rfl⟩
  refine ⟨boot_exclusive, boot_condLocks, ⟨nofun, nofun, ?_⟩, ⟨?_, ?_⟩⟩
  · intro q n hn
    obtain ⟨r, hr, hnone⟩ := hth q
    rw [hr] at hn
    exact absurd (hnone.symm.trans hn) nofun
  · intro q n hn
    obtain ⟨r, hr, _⟩ := hth q
    rw [hr] at hn
    cases hn
  · rintro q n (⟨m, k, hst⟩ | ⟨hsleep, _⟩)
    · obtain ⟨r, hr, _⟩ := hth q
      rw [hr] at hst
      cases hst
    · revert hsleep
      show (update (fun _ => Proc.zero) 0 _ q : Proc).state = .sleeping → _
      rw [update_apply]
      split <;> exact nofun

theorem SleepSound.step (h : SleepSound s) (hok : ReadyDispatch s l) (hr : Rule s l s') :
    SleepSound s' := by
  have hx' := exclusive_of_moves h.exclusive (hr.moves h.exclusive hok)
  have hc' := h.locks.step h.exclusive hr
  exact ⟨hx', hc', h.holders.step hr, h.waiters.step h.exclusive h.locks hx' hc' hr⟩

/-- In every run whose dispatches find their slot `RUNNABLE`, one process at
most is between the end of `acquiresleep` and its `releasesleep`, and nobody
sleeps on a sleep lock whose spinlock is free and whose flag is clear. -/
theorem sleeplock_safe (s : Sys) (h : ReachWhen ReadyDispatch next (bootSys = ·) s) (n : Nat) :
    (∀ q r, s.held q n = true → s.held r n = true → q = r) ∧
      (s.lock (.cond (spinOf n)) = none → (s.sleeplock n).locked = false →
        ∀ q, ¬((s.procs q).state = .sleeping ∧ (s.procs q).chan = some (.sleeplock n))) := by
  have hs : SleepSound s := by
    refine h.invariant (I := SleepSound) ?_ ?_
    · rintro s rfl
      exact boot_sleepSound
    · intro s l s' hs hok hnext
      exact hs.step hok (next_rule hnext)
  refine ⟨fun q r => hs.holders.unique q r n, ?_⟩
  intro hfree hclear q hsleep
  rcases hs.waiters.waiting q n (Or.inr hsleep) with hlocked | ⟨r, slots, hth, _⟩
  · rw [hclear] at hlocked
    cases hlocked
  · exact hs.locks.not_free hs.exclusive hfree r (by rw [hth]; rfl)

/-- The first process holds sleep lock 3.  Its child sleeps on it on hart 1,
and is woken by the release. -/
def handoverRun : List Step :=
  initRun ++ .thread 0 (.acquiresleep 3) :: goRun 0 2 ++ forkRun 0 1 ++ pickRun 1 ++ goRun 1 1 ++
    .thread 1 (.acquiresleep 3) :: goRun 1 6 ++ List.replicate 2 (.sched 1) ++
    .thread 0 (.releasesleep 3) :: goRun 0 67

theorem sleeplock_safe_handoverRun :
    ∃ s, ReachWhen ReadyDispatch next (bootSys = ·) s ∧ s.lock (.cond (spinOf 3)) = none ∧
      (s.sleeplock 3).locked = false ∧ (s.procs 1).chan = some (.sleeplock 3) ∧
      (s.procs 1).state ≠ .sleeping := by
  obtain ⟨s, hs, hlock, hclear, hchan⟩ : ∃ s, ReachWhen ReadyDispatch next (bootSys = ·) s ∧
      s.lock (.cond (spinOf 3)) = none ∧ (s.sleeplock 3).locked = false ∧
      (s.procs 1).chan = some (.sleeplock 3) :=
    exists_reachWhen_of_run handoverRun rfl (by decide +kernel)
  refine ⟨s, hs, hlock, hclear, hchan, ?_⟩
  intro hsleep
  exact (sleeplock_safe s hs 3).2 hlock hclear 1 ⟨hsleep, hchan⟩

end Xv6.Process
