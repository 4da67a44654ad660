import Xv6.Process.Changes
import Xv6.Process.Exclusion

/-!
# Every step of the machine is a sequence of moves

The simulation between the machine of `Scheduler` and the protocol of
`Exclusion`: a step of `next` is zero, one or two moves of the core.  With
the invariant of the moves it gives the exclusivity of `scheduler()`, for
the runs in which every hart stores `RUNNING` into a slot that is
`RUNNABLE`.  Those are in particular the runs in which no hart does that to
a slot that another hart has tested and not yet locked.

Without that condition the exclusivity fails.  Two harts scan the table one
after the other, both find the first process, and both pass the unlocked
test.  The second hart then waits for the lock, and `forkret` releases it
while the process runs.  The state is not tested again.
-/

namespace Xv6.Process

open Xv6.Lib Relation Function

variable {s s' : Sys} {c : Cpu} {q : Slot}

/-! ## The core of an update -/

@[simp] theorem core_setPc (s : Sys) (c : Cpu) (p : SchedPc) :
    (s.setPc c p).core = { s.core with pc := update s.core.pc c p } := rfl

@[simp] theorem core_setThread (s : Sys) (q : Slot) (th : Thread) :
    (s.setThread q th).core = { s.core with thread := update s.core.thread q th } := rfl

@[simp] theorem core_setIrq (s : Sys) (c : Cpu) (i : Option Irq) :
    (s.setIrq c i).core = s.core := rfl

@[simp] theorem core_setLock_proc (s : Sys) (q : Slot) (h : Option Cpu) :
    (s.setLock (.proc q) h).core = { s.core with lock := update s.core.lock q h } := by
  have hlock : (fun i => (s.setLock (.proc q) h).lock (.proc i)) =
      update (fun i => s.lock (.proc i)) q h := by
    funext i
    by_cases hi : i = q
    · simp [Sys.setLock, hi]
    · simp [Sys.setLock, hi]
  exact congrArg (fun l => { s.core with lock := l }) hlock

@[simp] theorem core_setLock_cond (s : Sys) (n : Nat) (h : Option Cpu) :
    (s.setLock (.cond n) h).core = s.core := by
  simp [Sys.core, Sys.setLock]

@[simp] theorem core_setLock_sched (s : Sys) (h : Option Cpu) :
    (s.setLock .sched h).core = s.core := by
  simp [Sys.core, Sys.setLock]

@[simp] theorem core_setProc (s : Sys) (q : Slot) (p : Proc) :
    (s.setProc q p).core = { s.core with state := update s.core.state q p.state } := by
  have hstate : (fun i => ((s.setProc q p).procs i).state) =
      update (fun i => (s.procs i).state) q p.state := by
    funext i
    by_cases hi : i = q
    · simp [Sys.setProc, hi]
    · simp [Sys.setProc, hi]
  exact congrArg (fun t => { s.core with state := t }) hstate

variable {p : Proc} {i : Slot} {k : Code} {th : Thread} {a : Action} {l : Step}

/-- A change of a slot that keeps its state. -/
theorem core_setProc_same (s : Sys) (q : Slot) (h : p.state = (s.procs q).state) :
    (s.setProc q p).core = s.core := by
  rw [core_setProc, h]
  exact congrArg (fun t => { s.core with state := t }) (update_eq_self q s.core.state)

/-! ## `scheduler()` -/

/-- The slot that a hart has tested and not yet locked. -/
def SchedPc.testedSlot : SchedPc → Option Slot
  | .tested q => some q
  | _ => none

/-- The slot that a hart has locked and not yet dispatched. -/
def SchedPc.lockedSlot : SchedPc → Option Slot
  | .locked q => some q
  | _ => none

theorem SchedPc.eq_of_lockedSlot {p : SchedPc} {q : Slot} (h : p.lockedSlot = some q) :
    p = .locked q := by
  cases p <;> simp_all [SchedPc.lockedSlot]

instance (p : SchedPc) (q : Slot) : Decidable (p = .locked q) :=
  decidable_of_iff (p.lockedSlot = some q) ⟨SchedPc.eq_of_lockedSlot, fun h => by rw [h]; rfl⟩

/-- The store of `RUNNING` finds the slot `RUNNABLE`. -/
def ReadyDispatch (s : Sys) : Step → Prop
  | .sched c => ∀ q ∈ (s.pc c).lockedSlot, (s.procs q).state = .runnable
  | _ => True

instance (s : Sys) : ∀ l, Decidable (ReadyDispatch s l)
  | .sched c =>
      match h : (s.pc c).lockedSlot with
      | none => isTrue (by simp [ReadyDispatch, h])
      | some q => decidable_of_iff ((s.procs q).state = .runnable) (by simp [ReadyDispatch, h])
  | .thread _ _ | .trap _ _ | .irq _ _ => inferInstanceAs (Decidable True)

theorem ReadyDispatch.runnable (h : ReadyDispatch s (.sched c)) (hpc : s.pc c = .locked q) :
    (s.procs q).state = .runnable := h q (by rw [hpc]; rfl)

/-- The condition under which the protocol works, on the state before a
step.  A hart that holds the lock of a slot stores `RUNNING` only while no
other hart is between its unlocked test of that slot and its `acquire`. -/
def QuietDispatch (s : Sys) : Step → Prop
  | .sched c =>
      (s.pc c).lockedSlot = none ∨ ∀ c', c' ≠ c → (s.pc c').testedSlot ≠ (s.pc c).lockedSlot
  | _ => True

instance (s : Sys) : ∀ l, Decidable (QuietDispatch s l)
  | .sched _ => inferInstanceAs (Decidable (_ ∨ _))
  | .thread _ _ | .trap _ _ | .irq _ _ => inferInstanceAs (Decidable True)

theorem QuietDispatch.not_tested (h : QuietDispatch s (.sched c)) (hpc : s.pc c = .locked q) :
    ∀ c', c' ≠ c → s.pc c' ≠ .tested q := by
  intro c' hc he
  rcases h with hnone | hquiet
  · rw [hpc] at hnone
    exact absurd hnone (by simp [SchedPc.lockedSlot])
  · refine hquiet c' hc ?_
    rw [he, hpc]
    rfl

theorem SchedRule.moves (h : SchedRule s c s') (hok : ReadyDispatch s (.sched c)) :
    ReflTransGen Move s.core s'.core := by
  have hidle : ∀ p, s.pc c = p → p.idle = true → (s.core.pc c).idle = true := by
    rintro p rfl hp
    exact hp
  cases h with
  | start hpc _ =>
    rw [core_setPc, core_setLock_sched]
    exact .single (.idle (hidle _ hpc rfl) rfl)
  | @scan i rest best hpc _ =>
    have hsame : ({ s with procs := (scanSlot s.procs best i).1 } : Sys).core = s.core := by
      refine congrArg (fun t => { s.core with state := t }) ?_
      funext j
      exact scanSlot_state s.procs best i j
    rw [core_setPc, hsame]
    exact .single (.idle (hidle _ hpc rfl) rfl)
  | scanned hpc =>
    rw [core_setPc, core_setLock_sched]
    exact .single (.idle (hidle _ hpc rfl) rfl)
  | again hpc => exact .single (.idle (hidle _ hpc rfl) rfl)
  | test hpc _ _ => exact .single (.test (hidle _ hpc rfl))
  | lock hpc hlock =>
    rw [core_setPc, core_setLock_proc]
    exact .single (.lock hpc hlock)
  | @dispatch q hpc =>
    have hcore := core_setProc s q { s.procs q with state := .running }
    have hstate := congrArg Core.state hcore
    have hm := Move.dispatch (x := s.core) hpc (hok.runnable hpc)
    rw [← show _ = update s.core.state q .running from hstate] at hm
    exact .single hm
  | enter hpc => exact .single (.enter hpc)
  | drop hpc => exact .single (.drop hpc)
  | free hpc =>
    rw [core_setPc, core_setLock_proc]
    exact .single (.free hpc)

/-! ## Critical sections on one slot -/

/-- `wakeup` at a slot whose lock is free. -/
theorem wake_moves {chan : Option Chan} (hfree : s.lock (.proc i) = none) :
    ReflTransGen Move s.core (s.setProc i ((s.procs i).wake chan)).core := by
  by_cases hwake : (s.procs i).state = .sleeping ∧ (s.procs i).chan = chan
  · rw [core_setProc, Proc.wake, if_pos hwake]
    exact .single (.poke .runnable hfree (Or.inl ⟨hwake.1, rfl⟩))
  · rw [core_setProc_same s i (by rw [Proc.wake, if_neg hwake])]

/-- `kill` at the slot with the pid. -/
theorem kill_moves (hfree : s.lock (.proc i) = none) :
    ReflTransGen Move s.core (s.setProc i (s.procs i).kill).core := by
  by_cases hsleep : (s.procs i).state = .sleeping
  · rw [core_setProc, Proc.kill, if_pos hsleep]
    exact .single (.poke .runnable hfree (Or.inl ⟨hsleep, rfl⟩))
  · rw [core_setProc_same s i (by simp [Proc.kill, hsleep])]

/-! ## The code of a process -/

/-- The code of the process goes on. -/
theorem code_run {x : Core} (hpc : x.pc c = .away q) (hth : x.thread q = .code k)
    (hholds : th.holds q = none) (hst : th.stored = false) (hchild : th.child = k.child) :
    Move x { x with thread := update x.thread q th } := by
  refine .run hpc ?_ ?_ ?_
  · rw [hth]
    exact hholds
  · rw [hth]
    exact hchild
  · rw [hth]
    exact hst.symm

/-- The code of the process goes on after some other moves. -/
theorem code_run_after {t : Sys} (hpc : s.pc c = .away q) (hth : s.thread q = .code k)
    (hmoves : ReflTransGen Move s.core t.core) (htpc : t.pc = s.pc) (htth : t.thread = s.thread)
    (hholds : th.holds q = none) (hst : th.stored = false) (hchild : th.child = k.child) :
    ReflTransGen Move s.core (t.setThread q th).core := by
  refine hmoves.tail (code_run (c := c) (k := k) ?_ ?_ hholds hst hchild)
  · exact (congrFun htpc c).trans hpc
  · exact (congrFun htth q).trans hth

/-- The code of the process goes on after a change that the core does not
show. -/
theorem code_run_same {t : Sys} (hpc : s.pc c = .away q) (hth : s.thread q = .code k)
    (hsame : t.core = s.core) (hholds : th.holds q = none) (hst : th.stored = false)
    (hchild : th.child = k.child) : ReflTransGen Move s.core (t.setThread q th).core := by
  rw [core_setThread, hsame]
  exact .single (code_run hpc hth hholds hst hchild)

/-- A call, or a return, concerns no child. -/
theorem Action.enters_child (h : a.enters = some k) : k.child = none := by
  cases a <;> cases h <;> rfl

theorem Code.returns_child (h : k.returns = true) : k.child = none := by
  cases k <;> first | rfl | cases h

/-- `allocproc` takes a slot.  It is not the one of the caller, which is
`RUNNING`. -/
theorem alloc_moves {pid : Int32} (h : Exclusive s.core) (hpc : s.pc c = .away q)
    (hth : s.thread q = .code k) (hlock : s.lock (.proc i) = none)
    (hunused : (s.procs i).state = .unused) (hp : p.state = .used) :
    ReflTransGen Move s.core (((({ s with nextpid := pid }.setProc i p).setLock (.proc i)
      (some c)).setThread i (.resume .forkret)).setThread q (.forkCopy i)).core := by
  have hth' : s.core.thread q = .code k := hth
  have hrun : (s.procs q).state = .running := h.running_at hpc hth rfl
  have hne : q ≠ i := by
    intro he
    rw [he, hunused] at hrun
    exact absurd hrun (by decide)
  have hinit := Move.init (x := s.core) hlock hunused
  have hkeep : update s.core.thread i (.resume .forkret) q = .code k :=
    (update_of_ne hne _ _).trans hth'
  have halloc := Move.alloc (c := c) (q := q) (i := i)
    (x := { s.core with thread := update s.core.thread i (.resume .forkret) })
    hpc (by dsimp only; rw [hkeep]; rfl) (by dsimp only; rw [hkeep]; rfl) hlock hunused
  rw [core_setThread, core_setThread, core_setLock_proc, core_setProc, hp]
  exact (ReflTransGen.single hinit).tail halloc

theorem CodeRule.moves (hr : CodeRule s c q a k s') (h : Exclusive s.core) (hpc : s.pc c = .away q)
    (hth : s.thread q = .code k) : ReflTransGen Move s.core s'.core := by
  have hth' : s.core.thread q = .code k := hth
  cases hr with
  | acquire | release | exit | wait | waitFail | waitNone | sleepReacquire | acquiresleep
  | releasesleepDone =>
    exact code_run_same hpc hth (core_setLock_cond _ _ _) rfl rfl rfl
  | acquiresleepTake | releasesleep =>
    exact code_run_same hpc hth (core_setLock_cond _ _ _) rfl rfl rfl
  | callWakeup | callSleep | wakeupDone | wakeupSkip | killMiss | allocMiss | reparentDone
  | reparentSkip | waitSkip | waitAlive | waitSleep | acquiresleepWait =>
    exact code_run_same hpc hth rfl rfl rfl rfl
  | call hk _ _ => exact code_run_same hpc hth rfl rfl rfl (Action.enters_child hk)
  | back hk => exact code_run_same hpc hth rfl rfl rfl (Code.returns_child hk).symm
  | fault _ =>
    rw [core_setProc_same]
    rfl
  | wakeup _ hlock => exact code_run_after hpc hth (wake_moves hlock) rfl rfl rfl rfl rfl
  | killHit hlock _ => exact code_run_after hpc hth (kill_moves hlock) rfl rfl rfl rfl rfl
  | setPriorityMiss | setPriorityHit | forkParent | reparent =>
    exact code_run_same hpc hth (core_setProc_same _ _ rfl) rfl rfl rfl
  | allocFail _ hunused =>
    exact code_run_same hpc hth (core_setProc_same _ _ hunused.symm) rfl rfl rfl
  | alloc hlock hunused _ => exact alloc_moves h hpc hth hlock hunused rfl
  | forkPublish hlock =>
    rw [core_setThread, core_setProc]
    exact .single (.publish hpc hth hlock)
  | exitAcquire hlock =>
    rw [core_setThread, core_setLock_proc]
    exact .single (.take hpc hlock (by rw [hth']; rfl) rfl (by rw [hth']; rfl)
      (by rw [hth']; rfl))
  | @waitReap _ _ i _ _ _ hlock hzombie _ =>
    refine code_run_after hpc hth ?_ rfl rfl rfl rfl rfl
    rw [core_setLock_cond, core_setProc]
    exact .single (.poke .unused hlock (Or.inr ⟨hzombie, rfl⟩))

/-! ## The thread of a process -/

theorem ThreadRule.moves (hr : ThreadRule s c q a th s') (h : Exclusive s.core)
    (hpc : s.pc c = .away q) (hth : s.thread q = th) : ReflTransGen Move s.core s'.core := by
  have hth' : s.core.thread q = th := hth
  cases hr with
  | code hcode => exact hcode.moves h hpc hth
  | forkret | yieldRelease =>
    rw [core_setThread, core_setLock_proc]
    exact .single (.give hpc (by rw [hth']; rfl) (by rw [hth']; rfl) rfl (by rw [hth']; rfl))
  | sleepTidy =>
    have hsame : (s.setProc q { s.procs q with chan := none }).core = s.core :=
      core_setProc_same s q rfl
    rw [core_setThread, core_setLock_proc, hsame]
    exact .single (.give hpc (by rw [hth']; rfl) (by rw [hth']; rfl) rfl (by rw [hth']; rfl))
  | yieldAcquire hlock | sleepAcquire hlock =>
    rw [core_setThread, core_setLock_proc]
    exact .single (.take hpc hlock (by rw [hth']; rfl) rfl (by rw [hth']; rfl)
      (by rw [hth']; rfl))
  | yieldStore =>
    rw [core_setThread, core_setProc]
    exact .single (.store .runnable hpc (by rw [hth']; rfl) (by rw [hth']; rfl) rfl rfl
      (by rw [hth']; rfl))
  | sleepStore =>
    rw [core_setThread, core_setProc]
    exact .single (.store .sleeping hpc (by rw [hth']; rfl) (by rw [hth']; rfl) rfl rfl
      (by rw [hth']; rfl))
  | exitStore =>
    rw [core_setThread, core_setProc]
    exact .single (.store .zombie hpc (by rw [hth']; rfl) (by rw [hth']; rfl) rfl rfl
      (by rw [hth']; rfl))
  | sleepRelease | exitRelease =>
    rw [core_setThread, core_setLock_cond]
    exact .single (.run hpc (by rw [hth']; rfl) (by rw [hth']; rfl) (by rw [hth']; rfl))
  | forkGiveUp =>
    rw [core_setThread, core_setLock_proc, core_setProc]
    exact .single (.child hpc hth' (Or.inr ⟨rfl, rfl⟩))
  | @forkCopied _ np _ =>
    have hused : s.core.state np = .used := h.child q np (by rw [hth']; rfl)
    have hm := Move.child hpc hth' (Or.inl ⟨rfl, rfl⟩)
    rw [← hused, update_eq_self] at hm
    rw [core_setThread, core_setLock_proc]
    exact .single hm
  | leave _ => exact .single (.leave hpc hth')

/-! ## Interrupts -/

theorem IrqRule.moves {i : Irq} (hr : IrqRule s c i s') : ReflTransGen Move s.core s'.core := by
  cases hr with
  | clockintr _ =>
    rw [core_setIrq]
    rw [show Sys.core { s.setLock (.cond ticksLock) (some c) with ticks := s.ticks + 1 } =
      (s.setLock (.cond ticksLock) (some c)).core from rfl, core_setLock_cond]
  | @tick j _ _ => rw [core_setIrq, core_setProc_same s j (Proc.tick_state _)]
  | ticked | wakeupSkip | woken | device | back => exact .refl
  | wakeup _ hlock =>
    rw [core_setIrq]
    exact wake_moves hlock
  | tickWoken => rw [core_setIrq, core_setLock_cond]
  | yield hpc hth _ =>
    rw [core_setThread, core_setIrq]
    exact .single (code_run hpc hth rfl rfl rfl)

/-! ## The machine -/

/-- Every step of the machine is a sequence of moves. -/
theorem Rule.moves (hr : Rule s l s') (h : Exclusive s.core) (hok : ReadyDispatch s l) :
    ReflTransGen Move s.core s'.core := by
  cases hr with
  | sched _ hr => exact hr.moves hok
  | thread hpc _ hr => exact hr.moves h hpc rfl
  | trap => exact .refl
  | irq _ hr => exact hr.moves

theorem boot_exclusive : Exclusive bootSys.core := by
  have hchild : ∀ p, (bootSys.core.thread p).child = none := by
    intro p
    show (update (fun _ => Thread.resume .dead) initproc _ p).child = none
    by_cases hp : p = initproc
    · rw [hp, update_self]
      rfl
    · rw [update_of_ne hp]
      rfl
  refine ⟨?_, fun _ => rfl, ?_, ?_, ?_, ?_, ?_, ?_⟩
  · intro c q
    simp [Sys.core, bootSys, SchedPc.holds]
  · intro c c' q h
    exact absurd h (by simp [Sys.core, bootSys, SchedPc.engaged])
  · intro c q h
    exact absurd h (by simp [Sys.core, bootSys])
  · intro c q h
    exact absurd h (by simp [Sys.core, bootSys, SchedPc.runs])
  · intro q
    right
    by_cases hq : q = initproc
    · exact ⟨.forkret, by simp [Sys.core, bootSys, hq]⟩
    · exact ⟨.dead, by simp [Sys.core, bootSys, hq]⟩
  · intro p np hp
    rw [hchild] at hp
    exact absurd hp (by simp)
  · intro p p' np hp
    rw [hchild] at hp
    exact absurd hp (by simp)

/-! ## The unlocked test -/

/-- The slot that a hart has tested and not yet dispatched. -/
def SchedPc.chosen : SchedPc → Option Slot
  | .tested q | .locked q => some q
  | _ => none

/-- The slot that a hart has tested is still `RUNNABLE`. -/
def Fresh (s : Sys) : Prop :=
  ∀ c q, (s.pc c).chosen = some q → (s.procs q).state = .runnable

/-- A slot that is `RUNNABLE` stays so until a hart dispatches it. -/
theorem Change.runnable (h : Change s q l p) (hx : Exclusive s.core)
    (hready : (s.procs q).state = .runnable) :
    p.state = .runnable ∨ ∃ c, l = .sched c ∧ s.pc c = .locked q := by
  -- the thread of a `RUNNABLE` slot does not run, so it stores no state
  have hstays : ∀ c, s.pc c = .away q → (s.thread q).stored = false → False := by
    intro c hpc hst
    cases hready.symm.trans (hx.running_at hpc rfl hst)
  have hchild : ∀ p, (s.thread p).child = some q → False := by
    intro p hp
    cases hready.symm.trans (hx.child_used rfl hp)
  cases h with
  | dispatch hpc => exact Or.inr ⟨_, rfl, hpc⟩
  | sleepStore hpc hth => exact (hstays _ hpc (by rw [hth]; rfl)).elim
  | exitStore hpc hth => exact (hstays _ hpc (by rw [hth]; rfl)).elim
  | giveUp hpc hth => exact (hchild _ (by rw [hth]; rfl)).elim
  | alloc hunused | allocFail hunused =>
    rw [hready] at hunused
    cases hunused
  | reap _ _ _ _ hzombie =>
    rw [hready] at hzombie
    cases hzombie
  | wakeup | irqWakeup => exact Or.inl (by simp [Proc.wake, hready])
  | kill => exact Or.inl (by simp [Proc.kill, hready])
  | tick => exact Or.inl ((Proc.tick_state _).trans hready)
  | keep | scan | fault | pass | setPriority | adopt | reparent | tidy => exact Or.inl hready
  | publish | yieldStore => exact Or.inl rfl

/-- A hart chooses a slot by testing it. -/
theorem Rule.chosen (h : Rule s l s') {c : Cpu} (hc : (s'.pc c).chosen = some q) :
    (s.pc c).chosen = some q ∨ (s'.procs q).state = .runnable := by
  have hpc : ∀ (c' : Cpu) (p : SchedPc), s'.pc = update s.pc c' p →
      p.chosen = none ∨ (s.pc c').chosen = p.chosen ∨
        (∀ i, p.chosen = some i → (s'.procs i).state = .runnable) →
      (s.pc c).chosen = some q ∨ (s'.procs q).state = .runnable := by
    intro c' p hpc hp
    rw [hpc] at hc
    by_cases hcc : c = c'
    · rw [hcc, update_self] at hc
      rcases hp with hp | hp | hp
      · rw [hp] at hc
        cases hc
      · rw [hcc, hp]
        exact Or.inl hc
      · exact Or.inr (hp q hc)
    · rw [update_of_ne hcc] at hc
      exact Or.inl hc
  cases h with
  | sched _ h =>
    cases h with
    | test _ _ hready =>
      refine hpc _ _ rfl (Or.inr (Or.inr ?_))
      rintro i ⟨⟩
      exact hready
    | lock h => exact hpc _ _ rfl (Or.inr (Or.inl (by rw [h]; rfl)))
    | start | scan | scanned | again | dispatch | enter | drop | free =>
      exact hpc _ _ rfl (Or.inl rfl)
  | @thread c' q' a s' _ _ h =>
    cases hth : s.thread q' with
    | sched r =>
      rw [hth] at h
      cases h
      exact hpc _ _ rfl (Or.inl rfl)
    | code k =>
      rw [hth] at h
      cases h with
      | code h => cases h <;> exact Or.inl hc
    | resume r | yieldAcquire k | yieldStore k | sleepAcquire chan n k | sleepRelease chan n k
    | sleepStore chan n k | forkCopy np | exitStore status | exitRelease =>
      rw [hth] at h
      cases h <;> exact Or.inl hc
  | trap => exact Or.inl hc
  | irq _ h => cases h <;> exact Or.inl hc

/-- With `QuietDispatch` the slots that the harts have chosen stay
`RUNNABLE`. -/
theorem Fresh.step (h : Fresh s) (hx : Exclusive s.core) (hok : QuietDispatch s l)
    (hr : Rule s l s') : Fresh s' := by
  intro c q hc
  rcases hr.chosen hc with hold | hready
  · rcases (hr.change q).runnable hx (h c q hold) with hready | ⟨c0, rfl, hlocked⟩
    · exact hready
    · -- the dispatch of `q`, which no other hart has chosen
      exfalso
      by_cases hcc : c = c0
      · rw [hcc] at hc
        cases hr with
        | sched _ hr =>
          cases hr with
          | dispatch hpc =>
            rw [hlocked] at hpc
            cases hpc
            simp [Sys.setPc, SchedPc.chosen] at hc
          | start hpc | scan hpc | scanned hpc | again hpc | test hpc | lock hpc | enter hpc
          | drop hpc | free hpc =>
            rw [hlocked] at hpc
            cases hpc
      · cases hpc : s.pc c with
        | tested q' =>
          rw [hpc] at hold
          cases hold
          exact hok.not_tested hlocked c hcc hpc
        | locked q' =>
          rw [hpc] at hold
          cases hold
          have h1 := (hx.lock c q).mpr (by rw [show s.core.pc c = _ from hpc]; rfl)
          have h2 := (hx.lock c0 q).mpr (by rw [show s.core.pc c0 = _ from hlocked]; rfl)
          exact hcc (Option.some.inj (h1.symm.trans h2))
        | start | scan | scanned | dispatched | away | back | dropping =>
          rw [hpc] at hold
          cases hold
  · exact hready

theorem Fresh.ready (h : Fresh s) : ReadyDispatch s l := by
  cases l with
  | sched c =>
    intro q hq
    exact h c q (by rw [SchedPc.eq_of_lockedSlot hq]; rfl)
  | thread | trap | irq => trivial

/-- What `scheduler()` should guarantee: a hart that holds the lock of the
slot it is about to enter finds it `RUNNABLE`, and no process is the
current process of two harts. -/
def SafeDispatch (s : Sys) : Prop :=
  (∀ c q, s.pc c = .locked q → s.lock (.proc q) = some c ∧ (s.procs q).state = .runnable) ∧
    ∀ c c' q, s.current c = some q → s.current c' = some q → c = c'

theorem Exclusive.safe (h : Exclusive s.core) (hfresh : Fresh s) : SafeDispatch s := by
  constructor
  · intro c q hpc
    have hpc' : s.core.pc c = .locked q := hpc
    constructor
    · exact (h.lock c q).mpr (by rw [hpc']; rfl)
    · exact hfresh c q (by rw [hpc]; rfl)
  · intro c c' q hc hc'
    have hcur := h.current
    refine h.unique c c' q ?_ ?_
    · exact (hcur c).symm.trans hc
    · exact (hcur c').symm.trans hc'

/-- In every interleaving in which no hart stores `RUNNING` into a slot that
another hart has tested and not yet locked, the dispatch is safe in every
state. -/
theorem scheduler_exclusive (s : Sys)
    (h : ReachWhen QuietDispatch next (bootSys = ·) s) : SafeDispatch s := by
  have hinv : Exclusive s.core ∧ Fresh s := by
    refine h.invariant (I := fun s => Exclusive s.core ∧ Fresh s) ?_ ?_
    · rintro s rfl
      refine ⟨boot_exclusive, ?_⟩
      intro c q hc
      cases hc
    · rintro s l s' ⟨hx, hfresh⟩ hok hnext
      have hr := next_rule hnext
      exact ⟨exclusive_of_moves hx (hr.moves hx hfresh.ready), hfresh.step hx hok hr⟩
  exact hinv.1.safe hinv.2

/-- Hart 0 dispatches the first process alone. -/
def aloneRun : List Step := List.replicate 68 (.sched 0)

theorem scheduler_exclusive_alone :
    ∃ s, ReachWhen QuietDispatch next (bootSys = ·) s ∧
      s.pc 0 = .locked 0 ∧ SafeDispatch s := by
  obtain ⟨s, hs, hpc⟩ : ∃ s, ReachWhen QuietDispatch next (bootSys = ·) s ∧ s.pc 0 = .locked 0 :=
    exists_reachWhen_of_run aloneRun rfl (by decide +kernel)
  exact ⟨s, hs, hpc, scheduler_exclusive s hs⟩

/-- Harts 0 and 1 scan the table one after the other, and both test the
first process.  Hart 0 dispatches it, `forkret` releases its lock, and hart
1 takes it. -/
def raceRun : List Step :=
  List.replicate 66 (.sched 0) ++ List.replicate 66 (.sched 1) ++
    [.sched 0, .sched 1, .sched 0, .sched 0, .sched 0, .thread 0 .go, .sched 1]

/-- Hart 1 holds the lock of a process that is `RUNNING` on hart 0, and its
next step makes the process current on both. -/
theorem scheduler_two_harts :
    (∃ s, Reach next (bootSys = ·) s ∧ s.pc 1 = .locked 0 ∧
      (s.procs 0).state = .running) ∧
    ∃ s, Reach next (bootSys = ·) s ∧ s.current 0 = some 0 ∧ s.current 1 = some 0 := by
  constructor
  · exact exists_reachWhen_of_run raceRun rfl (by decide +kernel)
  · exact exists_reachWhen_of_run (raceRun ++ [.sched 1]) rfl (by decide +kernel)

end Xv6.Process
