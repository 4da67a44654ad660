import Xv6.Process.Parents
import Xv6.Process.Sleep

/-!
# `exit` and `wait`

A parent in `wait` or `waitx` looks at its children one after the other and
sleeps when none of them is a zombie.  A child that exits wakes its parent up
first and becomes a zombie afterwards, and an exiting process hands zombies
to the first process and wakes that up.  All of it happens under
`wait_lock`.

`Family` is the invariant.  A child is `Doomed` from the end of `reparent`
until it is reaped.  While its parent waits, a waker that holds `wait_lock`
has still to visit the parent.  So the parent of a zombie does not sleep in
`wait` when `wait_lock` is free.
-/

namespace Xv6.Process

variable {s s' : Sys} {l : Step} {c : Cpu} {q i : Slot}

/-! ## Places -/

/-- The slots that the scan of a `wait` or `waitx` has still to visit. -/
def Thread.scanning : Thread → Option (List Slot)
  | .code (.waitScan _ slots _) => some slots
  | .sleepAcquire _ _ (.waitScan _ _ _) | .sleepRelease _ _ (.waitScan _ _ _) => some []
  | _ => none

/-- The thread is in the `sleep` of `wait` or `waitx`. -/
def Thread.insideWait : Thread → Bool
  | .sleepAcquire _ _ (.waitScan _ _ _) | .sleepRelease _ _ (.waitScan _ _ _)
  | .sleepStore _ _ (.waitScan _ _ _) => true
  | .sched (.sleepTidy _ (.waitScan _ _ _)) | .resume (.sleepTidy _ (.waitScan _ _ _)) => true
  | _ => false

/-- The child has exited, or has woken its parent up and will exit. -/
def Doomed (s : Sys) (i : Slot) : Prop :=
  (s.procs i).state = .zombie ∨ ∃ status, (s.thread i).body = some (.exitAcquire status)

/-- The process waits for a child to exit. -/
def InWait (s : Sys) (q : Slot) : Prop :=
  Waiting s q (.proc q) ∧ ∃ call slots kids, (s.thread q).pending = some (.waitScan call slots kids)

/-- A waker under `wait_lock` has still to visit the process. -/
def Roused (s : Sys) (q : Slot) : Prop :=
  ∃ k, k.cond = some waitLock ∧ Waking s q (.proc q) k

/-- The invariant of `exit` and `wait`. -/
structure Family (s : Sys) : Prop where
  scanned : ∀ q slots, (s.thread q).scanning = some slots →
    ∀ i, (s.procs i).parent = some q → (s.procs i).state = .zombie → i ∈ slots
  roused : ∀ i q, Doomed s i → (s.procs i).parent = some q → InWait s q → Roused s q

/-! ## Sections of `wait_lock` -/

/-- A scan holds `wait_lock`. -/
theorem CondLocks.scanning_cond {slots : List Slot} (hc : CondLocks s)
    (h : (s.thread q).scanning = some slots) : (s.thread q).cond = some waitLock := by
  have hwf := hc.wf q
  revert h hwf
  generalize s.thread q = th
  intro h hwf
  unfold Thread.scanning at h
  split at h
  · rfl
  · cases hwf
    rfl
  · cases hwf
    rfl
  · cases h

theorem Code.cond_of_exit {k : Code} {status : Int32} (hwf : k.Wf q)
    (h : k.inner = .exitAcquire status) : k.cond = some waitLock := by
  induction k with
  | exitAcquire => rfl
  | wakeup _ _ _ ih => exact ih (Code.wf_of_wakes hwf) h
  | sleepReacquire n k _ =>
    obtain ⟨chan, hk⟩ := hwf
    cases hk <;> cases h
  | _ => cases h

/-- A process holds `wait_lock` from the end of `reparent` until it is a
zombie. -/
theorem CondLocks.exit_cond {status : Int32} (hc : CondLocks s)
    (h : (s.thread i).body = some (.exitAcquire status)) : (s.thread i).cond = some waitLock := by
  have hwf := hc.wf i
  revert h hwf
  generalize s.thread i = th
  intro h hwf
  -- a `yield` is left with no lock held, and a `sleep` is not called here
  have hsleep : ∀ {chan n k}, Sleeper i chan n k → k.inner ≠ .exitAcquire status := by
    intro chan n k hk hin
    cases hk <;> cases hin
  have hyield : ∀ {k : Code}, k.cond = none ∧ k.Wf i → k.inner ≠ .exitAcquire status := by
    intro k hk hin
    have hcond := Code.cond_of_exit hk.2 hin
    rw [hk.1] at hcond
    cases hcond
  cases th with
  | code k => exact Code.cond_of_exit hwf (Option.some.inj h)
  | exitStore => rfl
  | yieldAcquire k | yieldStore k => exact absurd (Option.some.inj h) (hyield hwf)
  | sleepAcquire | sleepRelease | sleepStore => exact absurd (Option.some.inj h) (hsleep hwf)
  | resume r | sched r =>
    cases r with
    | yieldRelease k => exact absurd (Option.some.inj h) (hyield hwf)
    | sleepTidy n k =>
      obtain ⟨chan, hk⟩ := hwf
      exact absurd (Option.some.inj h) (hsleep hk)
    | forkret | dead => cases h
  | forkCopy | exitRelease => cases h

/-! ## The scan -/

/-- How a scan goes on. -/
theorem Rule.scanning {slots : List Slot} (hr : Rule s l s') (hc : CondLocks s)
    (hn : (s'.thread q).scanning = some slots) :
    (s.thread q).scanning = some slots ∨ slots = allSlots ∨
      ∃ j, (s.thread q).scanning = some (j :: slots) ∧
        ((s'.procs j).parent = some q → (s'.procs j).state ≠ .zombie) := by
  rcases hr.turn q with hsame | ⟨hnew, _⟩ | ⟨_, _, _, _, _, _, _, _, hyield⟩ |
      ⟨c, a, _, hpc, hrule⟩
  · exact Or.inl (hsame ▸ hn)
  · rw [hnew] at hn
    cases hn
  · rw [hyield] at hn
    cases hn
  · have hwf := hc.wf q
    generalize heq : s.thread q = th at hrule hwf
    cases hrule with
    | code hrule =>
      cases hrule with
      | fault _ =>
        rw [show (s.setProc q _).thread q = s.thread q from rfl, heq] at hn
        exact Or.inl hn
      | call henters _ _ =>
        rw [Sys.thread_set] at hn
        cases a <;> cases henters <;> cases hn
      | sleepReacquire _ =>
        rw [Sys.thread_set] at hn
        obtain ⟨chan, hk⟩ := hwf
        cases hk <;> cases hn
        exact Or.inr (Or.inl rfl)
      | @wakeupDone _ _ k =>
        rw [Sys.thread_set] at hn
        have hwakes : k.wakes = true := hwf
        cases k with
        | waitScan => cases hwakes
        | _ => cases hn
      | wait _ =>
        rw [Sys.thread_set] at hn
        cases hn
        exact Or.inr (Or.inl rfl)
      | @waitSkip _ _ j _ _ hparent =>
        rw [Sys.thread_set] at hn
        cases hn
        exact Or.inr (Or.inr ⟨j, rfl, fun h => absurd h hparent⟩)
      | @waitAlive _ _ j _ _ _ _ halive =>
        rw [Sys.thread_set] at hn
        cases hn
        exact Or.inr (Or.inr ⟨j, rfl, fun _ => halive⟩)
      | waitSleep =>
        rw [Sys.thread_set] at hn
        cases hn
        exact Or.inl rfl
      | _ =>
        rw [Sys.thread_set] at hn
        cases hn
    | @sleepAcquire _ _ _ k _ =>
      rw [Sys.thread_set] at hn
      cases k with
      | waitScan => exact Or.inl hn
      | _ => cases hn
    | @yieldRelease _ k =>
      rw [Sys.thread_set] at hn
      have hcond : k.cond = none := hwf.1
      cases k with
      | waitScan => cases hcond
      | _ => cases hn
    | leave _ =>
      rw [Sys.setPc_thread, Sys.thread_set] at hn
      cases hn
    | _ =>
      rw [Sys.thread_set] at hn
      cases hn

theorem Family.scanned_step (h : Family s) (hx : Exclusive s.core) (hc : CondLocks s)
    (hr : Rule s l s') (q : Slot) (slots : List Slot)
    (hn : (s'.thread q).scanning = some slots) (i : Slot) (hp : (s'.procs i).parent = some q)
    (hz : (s'.procs i).state = .zombie) : i ∈ slots := by
  -- while a scan holds `wait_lock`, it gets no child and no child exits
  have hold : ∀ slots0, (s.thread q).scanning = some slots0 → i ∈ slots0 := by
    intro slots0 hscan
    have hcond := hc.scanning_cond hscan
    have hparent : (s.procs i).parent = some q := by
      rcases (hr.change i).parent hp with hold | ⟨_, _, _, _, hth⟩ | ⟨_, _, _, r, _, _, _, _, hth, _⟩
      · exact hold
      · rw [hth] at hscan
        cases hscan
      · have hrq : r = q := hc.alone hx (by rw [hth]; rfl) hcond
        rw [← hrq, hth] at hscan
        cases hscan
    have hzombie : (s.procs i).state = .zombie := by
      rcases (hr.change i).zombie hz with ⟨hold, _⟩ | ⟨_, _, _, _, hth⟩
      · exact hold
      · have hiq : i = q := hc.alone hx (by rw [hth]; rfl) hcond
        rw [← hiq, hth] at hscan
        cases hscan
    exact h.scanned q slots0 hscan i hparent hzombie
  rcases hr.scanning hc hn with hsame | rfl | ⟨j, hmore, hj⟩
  · exact hold slots hsame
  · exact List.mem_finRange i
  · rcases List.mem_cons.mp (hold _ hmore) with rfl | hi
    · exact absurd hz (hj hp)
    · exact hi

/-! ## Wakers -/

/-- A process that waits for a child has done so before, or the step
releases `wait_lock` for it. -/
theorem Rule.inWait (hr : Rule s l s') (hx : Exclusive s.core) (hw : InWait s' q) :
    InWait s q ∨ ∃ n call slots kids,
      s.thread q = .sleepRelease (.proc q) n (.waitScan call slots kids) ∧
      s' = (s.setLock (.cond n) none).setThread q
        (.sleepStore (.proc q) n (.waitScan call slots kids)) := by
  obtain ⟨hwaiting, call, slots, kids, hpending⟩ := hw
  obtain ⟨hbefore, hsame⟩ := hr.waiting hx hwaiting
  rw [hpending] at hsame
  rcases hbefore with hold | ⟨n, k, hth, hs⟩
  · exact Or.inl ⟨hold, call, slots, kids, hsame.symm⟩
  · rw [hth] at hsame
    cases hsame
    exact Or.inr ⟨n, call, slots, kids, hth, hs⟩

theorem Roused.step (h : Roused s q) (hx : Exclusive s.core) (hc : CondLocks s)
    (hr : Rule s l s') (hw : InWait s' q) : Roused s' q := by
  obtain ⟨k, hk, hwaking⟩ := h
  exact ⟨k, hk, hr.waking hx hc hk hwaking hw.1⟩

/-- A child that is doomed was so before, or it has just begun to wake its
parent up. -/
theorem Rule.doomed (hr : Rule s l s') (hd : Doomed s' i) :
    Doomed s i ∨ (s'.procs i).parent = (s.procs i).parent ∧
      ∀ q, (s.procs i).parent = some q → Roused s' q := by
  rcases hd with hz | ⟨status, hbody⟩
  · rcases (hr.change i).zombie hz with ⟨hold, _⟩ | ⟨_, _, _, _, hexit⟩
    · exact Or.inl (Or.inl hold)
    · exact Or.inl (Or.inr ⟨_, by rw [hexit]; rfl⟩)
  · rcases hr.body hbody with hold | hrun | ⟨_, _, hfork⟩ | ⟨c, a, k, _, _, hk, hrule⟩
    · exact Or.inl (Or.inr ⟨status, hold⟩)
    · cases hrun
    · cases hfork
    · cases hrule with
      | fault _ => exact Or.inl (Or.inr ⟨status, hbody⟩)
      | call henters _ _ =>
        rw [Sys.thread_set] at hbody
        cases a <;> cases henters <;> cases hbody
      | wakeupDone | wakeupSkip | wakeup | sleepReacquire | exitAcquire =>
        rw [Sys.thread_set] at hbody
        refine Or.inl (Or.inr ⟨status, ?_⟩)
        rw [hk]
        exact hbody
      | @reparentDone _ status =>
        refine Or.inr ⟨rfl, fun q hq => ?_⟩
        refine ⟨.exitAcquire status, rfl, i, allSlots, ?_, List.mem_finRange q⟩
        rw [Sys.thread_set, hq]
        rfl
      | _ =>
        rw [Sys.thread_set] at hbody
        cases hbody

/-- After a step of `reparent` that has given a child away. -/
theorem Rule.reparent {a : Action} {r : Slot} {status : Int32} {rest : List Slot}
    (hr : Rule s l s') (hl : l = .thread c a) (hpc : s.pc c = .away r)
    (hth : s.thread r = .code (.reparent status (i :: rest)))
    (hp : (s.procs i).parent = some r) :
    s'.thread r =
      .code (.wakeup (some (.proc initproc)) allSlots (.reparent status rest)) := by
  subst hl
  cases hr with
  | thread hpc' _ hrule =>
    rw [hpc] at hpc'
    cases hpc'
    rw [hth] at hrule
    cases hrule with
    | code hrule =>
      cases hrule with
      | back hk => cases hk
      | reparentSkip hne => exact absurd hp hne
      | reparent _ => exact Function.update_self _ _ _

/-- `fork` gives a parent to a child that is not doomed. -/
theorem Doomed.not_used (h : Doomed s i) (hx : Exclusive s.core) (hc : CondLocks s) :
    (s.procs i).state ≠ .used := by
  rcases h with hz | ⟨status, hbody⟩
  · rw [hz]
    decide
  · have hcond := hc.exit_cond hbody
    obtain ⟨c, hpc, _⟩ := hc.holder hx hcond
    have hst : (s.thread i).stored = false := by
      cases hth : s.thread i with
      | exitRelease | sched =>
        rw [hth] at hbody hcond
        first | cases hbody | cases hcond
      | _ => rfl
    rw [hx.running_at hpc rfl hst]
    decide

/-- Who is about to sleep in `wait` has no doomed child. -/
theorem Family.not_doomed (h : Family s) (hx : Exclusive s.core) (hc : CondLocks s)
    (hscan : (s.thread q).scanning = some []) (hp : (s.procs i).parent = some q) :
    ¬Doomed s i := by
  rintro (hz | ⟨status, hbody⟩)
  · exact absurd (h.scanned q [] hscan i hp hz) List.not_mem_nil
  · have hiq : i = q := hc.alone hx (hc.exit_cond hbody) (hc.scanning_cond hscan)
    rw [hiq] at hbody
    revert hscan hbody
    generalize s.thread q = th
    intro hscan hbody
    unfold Thread.scanning at hscan
    split at hscan <;> first | cases hbody | cases hscan

theorem Family.roused_step (h : Family s) (hx : Exclusive s.core) (hc : CondLocks s)
    (hr : Rule s l s') (i q : Slot) (hd : Doomed s' i) (hp : (s'.procs i).parent = some q)
    (hw : InWait s' q) : Roused s' q := by
  rcases hr.doomed hd with hdoomed | ⟨hsame, hroused⟩
  · rcases hr.inWait hx hw with hwait | ⟨n, call, slots, kids, hth, hs⟩
    · rcases (hr.change i).parent hp with hold | ⟨_, _, _, _, hfork⟩ |
          ⟨rfl, c, a, r, status, rest, hl, hpc, hexit, hparent⟩
      · exact (h.roused i q hdoomed hold hwait).step hx hc hr hw
      · have hused : (s.procs i).state = .used :=
          hx.child_used hfork rfl
        exact absurd hused (hdoomed.not_used hx hc)
      · -- `reparent` wakes the first process up after it has given it a child
        refine ⟨.reparent status rest, rfl, r, allSlots, ?_, List.mem_finRange _⟩
        exact hr.reparent hl hpc hexit hparent
    · have hparent : (s.procs i).parent = some q := by
        rw [hs] at hp
        exact hp
      exact absurd hdoomed (h.not_doomed hx hc (by rw [hth]; rfl) hparent)
  · exact hroused q (hsame ▸ hp)

end Xv6.Process
