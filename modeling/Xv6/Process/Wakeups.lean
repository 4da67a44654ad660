import Xv6.Process.Sleep

/-!
# No wakeup is lost

The contract of `sleep` and `wakeup` for every lock and every channel.  A
caller of `sleep(chan, lk)` that has given up `lk` is found by every
`wakeup(chan)` that a process makes with `lk` held.

`Waker` is such a `wakeup` under way, and the slots that it has still to
visit.  A process that waits is always among them: it cannot begin to wait
while the lock is held, and the visit ends its waiting (`Rule.waking`).
-/

namespace Xv6.Process

open Xv6.Lib Function

variable {s s' : Sys} {l : Step} {c : Cpu} {q r : Slot} {chan : Chan} {n : Nat}
  {slots : List Slot}

/-- Process `r` is in a `wakeup` on the channel, with the spinlock held, and
the slots are left. -/
def Waker (s : Sys) (r : Slot) (chan : Chan) (n : Nat) (slots : List Slot) : Prop :=
  ∃ k, s.thread r = .code (.wakeup (some chan) slots k) ∧ k.cond = some n

/-- The process waits in a `sleep` on the channel that was called with the
spinlock. -/
def WaitsWith (s : Sys) (q : Slot) (chan : Chan) (n : Nat) : Prop :=
  Waiting s q chan ∧ (s.thread q).pending.bind Code.cond = some n

theorem Waker.cond (h : Waker s r chan n slots) : (s.thread r).cond = some n := by
  obtain ⟨k, hth, hn⟩ := h
  rw [hth]
  exact hn

/-! ## How a waker moves -/

/-- The code is in a `wakeup` because it has just called it, or it has
visited one more slot. -/
theorem CodeRule.waker {a : Action} {k k' : Code} (hr : CodeRule s c r a k s')
    (hk : s.thread r = .code k) (hwf : k.Wf r)
    (hth : s'.thread r = .code (.wakeup (some chan) slots k')) :
    slots = allSlots ∨ ∃ j, k = .wakeup (some chan) (j :: slots) k' := by
  cases hr with
  | fault _ =>
    rw [show (s.setProc r _).thread r = s.thread r from rfl, hk] at hth
    cases hth
  | call henters _ _ =>
    rw [Sys.thread_set] at hth
    cases hth
    cases a <;> cases henters
  | wakeupDone =>
    rw [Sys.thread_set] at hth
    cases hth
    cases hwf
  | sleepReacquire _ =>
    rw [Sys.thread_set] at hth
    cases hth
    obtain ⟨_, hsleeper⟩ := hwf
    cases hsleeper
  | wakeupSkip _ | wakeup _ _ =>
    rw [Sys.thread_set] at hth
    cases hth
    exact Or.inr ⟨_, rfl⟩
  | _ =>
    rw [Sys.thread_set] at hth
    first
      | cases hth; done
      | (injection hth with hth; injection hth with _ hslots; exact Or.inl hslots.symm)

/-- A `wakeup` that is under way after a step has all slots before it, or was
under way before the step.  It has then visited one slot at most, and the
process there does not wait. -/
theorem Rule.waker (hr : Rule s l s') (hx : Exclusive s.core) (hc : CondLocks s)
    (hx' : Exclusive s'.core) (hc' : CondLocks s') (h : Waker s' r chan n slots) :
    slots = allSlots ∨ Waker s r chan n slots ∨
      ∃ j, Waker s r chan n (j :: slots) ∧ (Waiting s' j chan → j ∈ slots) := by
  have hcond := h.cond
  obtain ⟨k, hth, hn⟩ := h
  have hwf := hc.wf r
  rcases hr.turn r with hsame | ⟨hnew, _⟩ | ⟨_, _, _, _, _, _, _, _, hyield⟩ | ⟨_, _, _, _, hrule⟩
  · exact Or.inr (Or.inl ⟨k, hsame ▸ hth, hn⟩)
  · cases hnew.symm.trans hth
  · cases hyield.symm.trans hth
  generalize heq : s.thread r = th at hrule hwf
  cases hrule with
  | code hrule =>
    rcases hrule.waker heq hwf hth with hall | ⟨j, rfl⟩
    · exact Or.inl hall
    refine Or.inr (Or.inr ⟨j, ⟨k, heq, hn⟩, fun hw => ?_⟩)
    obtain ⟨r', slots', hth', hmem⟩ := hr.waking hx hc hn ⟨r, _, heq, List.mem_cons_self⟩ hw
    obtain rfl := hc'.alone hx' (Waker.cond ⟨k, hth', hn⟩) hcond
    cases hth'.symm.trans hth
    exact hmem
  | yieldRelease =>
    -- only code without a spinlock yields
    rw [Sys.thread_set] at hth
    cases hth
    cases hwf.1.symm.trans hn
  | leave _ =>
    rw [Sys.setPc_thread, Sys.thread_set] at hth
    cases hth
  | _ =>
    rw [Sys.thread_set] at hth
    cases hth

/-! ## Runs -/

/-- Every `wakeup` under way has still to visit the processes that wait. -/
structure WakeSound (s : Sys) : Prop where
  exclusive : Exclusive s.core
  locks : CondLocks s
  finds : ∀ {r chan n slots q}, Waker s r chan n slots → WaitsWith s q chan n → q ∈ slots

theorem boot_wakeSound : WakeSound bootSys := by
  refine ⟨boot_exclusive, boot_condLocks, ?_⟩
  intro r chan n slots q hw
  exact absurd hw.cond (boot_condLocks.not_free boot_exclusive rfl r)

theorem WakeSound.step (h : WakeSound s) (hok : ReadyDispatch s l) (hr : Rule s l s') :
    WakeSound s' := by
  have hx := h.exclusive
  have hx' := exclusive_of_moves hx (hr.moves hx hok)
  have hc' := h.locks.step hx hr
  refine ⟨hx', hc', ?_⟩
  rintro r chan n slots q hw ⟨hwait, hlk⟩
  obtain ⟨hbefore, hpending⟩ := hr.waiting hx hwait
  rw [hpending] at hlk
  have horigin := hr.waker hx h.locks hx' hc' hw
  rcases hbefore with hbefore | ⟨m, k, hth, _⟩
  · rcases horigin with rfl | hw | ⟨j, hw, hvisit⟩
    · exact List.mem_finRange q
    · exact h.finds hw ⟨hbefore, hlk⟩
    · rcases List.mem_cons.mp (h.finds hw ⟨hbefore, hlk⟩) with rfl | hmem
      · exact hvisit hwait
      · exact hmem
  · -- the process gives the lock up in this step, so that no waker has it
    have hcond : (s.thread q).cond = some n := by
      have hsleeper : (s.thread q).Wf q := h.locks.wf q
      rw [hth] at hsleeper hlk ⊢
      exact hsleeper.cond.symm.trans hlk
    have hnone : ∀ slots, ¬Waker s r chan n slots := by
      intro slots hw
      obtain ⟨k', hk', _⟩ := h.locks.alone hx hw.cond hcond ▸ hw
      cases hth.symm.trans hk'
    rcases horigin with rfl | hw | ⟨j, hw, _⟩
    · exact List.mem_finRange q
    · exact absurd hw (hnone _)
    · exact absurd hw (hnone _)

/-- In every run whose dispatches find their slot `RUNNABLE`, a `wakeup` that
a process makes with a spinlock held has still to visit every process that
waits on the channel in a `sleep` that was called with that lock.  At its
end nobody waits. -/
theorem no_lost_wakeup (h : ReachWhen ReadyDispatch next (bootSys = ·) s)
    (hw : Waker s r chan n slots) : ∀ q, WaitsWith s q chan n → q ∈ slots := by
  have hs : WakeSound s := by
    refine h.invariant (I := WakeSound) ?_ ?_
    · rintro s rfl
      exact boot_wakeSound
    · intro s l s' hs hok hnext
      exact hs.step hok (next_rule hnext)
  intro q
  exact hs.finds hw

deriving instance DecidableEq for Code, Resume, Thread

/-- The first process waits for a child that exits, and the `wakeup` of
`exit` has visited all slots. -/
def exitWakeRun : List Step :=
  initRun ++ forkRun 0 1 ++ .thread 0 (.wait .wait) :: goRun 0 70 ++ List.replicate 2 (.sched 0) ++
    pickRun 1 ++ goRun 1 1 ++ .thread 1 (.exit 0) :: goRun 1 130

theorem no_lost_wakeup_exit :
    ∃ s, ReachWhen ReadyDispatch next (bootSys = ·) s ∧ Waker s 1 (.proc 0) waitLock [] ∧
      (s.procs 0).chan = some (.proc 0) ∧ (s.procs 0).state ≠ .sleeping := by
  obtain ⟨s, hs, hth, hchan, hpending⟩ : ∃ s, ReachWhen ReadyDispatch next (bootSys = ·) s ∧
      s.thread 1 = .code (.wakeup (some (.proc 0)) [] (.exitAcquire 0)) ∧
      (s.procs 0).chan = some (.proc 0) ∧
      (s.thread 0).pending.bind Code.cond = some waitLock :=
    exists_reachWhen_of_run exitWakeRun rfl (by decide +kernel)
  have hw : Waker s 1 (.proc 0) waitLock [] := ⟨_, hth, rfl⟩
  refine ⟨s, hs, hw, hchan, ?_⟩
  intro hsleep
  cases no_lost_wakeup hs hw 0 ⟨Or.inr ⟨hsleep, hchan⟩, hpending⟩

end Xv6.Process
