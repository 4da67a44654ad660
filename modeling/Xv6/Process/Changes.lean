import Xv6.Process.Rules

/-!
# What a step does to one slot of the table

Every step of the machine stores to one slot at most.  `Change` lists the
stores, each with the place of the hart that makes it, and
`Rule.change` says that there are no others.  An invariant of the process
table needs one case for each store, and no other part of the machine.
-/

namespace Xv6.Process

open Function

/-- What a step can make of slot `i`. -/
inductive Change (s : Sys) (i : Slot) : Step → Proc → Prop
  | keep {l : Step} : Change s i l (s.procs i)
  /-- The scan of `scheduler()`. -/
  | scan {c : Cpu} {rest : List Slot} {best : Best} (hpc : s.pc c = .scan (i :: rest) best)
      (hready : (s.procs i).state = .runnable) : Change s i (.sched c) (s.procs i).recompute
  | dispatch {c : Cpu} (hpc : s.pc c = .locked i) :
      Change s i (.sched c) { s.procs i with state := .running }
  /-- `usertrap`, for a fault of the process itself. -/
  | fault {c : Cpu} {locked : Bool} (hpc : s.pc c = .away i)
      (hth : s.thread i = .code (.run none)) :
      Change s i (.thread c (.fault locked)) { s.procs i with killed := true }
  | wakeup {c : Cpu} {a : Action} {q : Slot} {chan : Option Chan} {rest : List Slot} {k : Code}
      (hpc : s.pc c = .away q) (hth : s.thread q = .code (.wakeup chan (i :: rest) k))
      (hlock : s.lock (.proc i) = none) :
      Change s i (.thread c a) ((s.procs i).wake chan)
  | kill {c : Cpu} {a : Action} {q : Slot} {pid : Int32} {rest : List Slot}
      (hpc : s.pc c = .away q) (hth : s.thread q = .code (.kill pid (i :: rest)))
      (hpid : (s.procs i).pid = pid) : Change s i (.thread c a) (s.procs i).kill
  /-- A pass of `set_priority` over a slot with another pid. -/
  | pass {c : Cpu} {a : Action} {q : Slot} {newPriority pid oldDyn : Int32} {rest : List Slot}
      (hpc : s.pc c = .away q)
      (hth : s.thread q = .code (.setPriority newPriority pid (i :: rest) oldDyn))
      (hpid : (s.procs i).pid ≠ pid) : Change s i (.thread c a) (s.procs i).recompute
  | setPriority {c : Cpu} {a : Action} {newPriority : Int32} :
      Change s i (.thread c a) { s.procs i with staticPrio := newPriority.toUInt32 }
  | alloc {c : Cpu} {a : Action} (hunused : (s.procs i).state = .unused) :
      Change s i (.thread c a) ((s.procs i).alloc s.nextpid s.ticks)
  | allocFail {c : Cpu} {a : Action} (hunused : (s.procs i).state = .unused) :
      Change s i (.thread c a) ((s.procs i).alloc s.nextpid s.ticks).freed
  /-- `fork` stores the parent. -/
  | adopt {c : Cpu} {a : Action} {q : Slot} (hpc : s.pc c = .away q)
      (hth : s.thread q = .code (.forkParent i)) :
      Change s i (.thread c a) { s.procs i with parent := some q }
  /-- `fork` makes the child `RUNNABLE`. -/
  | publish {c : Cpu} {a : Action} {q : Slot} (hpc : s.pc c = .away q)
      (hth : s.thread q = .code (.forkPublish i)) :
      Change s i (.thread c a) { s.procs i with state := .runnable }
  | giveUp {c : Cpu} {a : Action} {q : Slot} (hpc : s.pc c = .away q)
      (hth : s.thread q = .forkCopy i) : Change s i (.thread c a) (s.procs i).freed
  | reparent {c : Cpu} {a : Action} {q : Slot} {status : Int32} {rest : List Slot}
      (hpc : s.pc c = .away q) (hth : s.thread q = .code (.reparent status (i :: rest)))
      (hparent : (s.procs i).parent = some q) :
      Change s i (.thread c a) { s.procs i with parent := some initproc }
  /-- `wait` or `waitx` frees a child. -/
  | reap {c : Cpu} {a : Action} {q : Slot} {call : WaitCall} {rest : List Slot}
      {havekids : Bool} (hpc : s.pc c = .away q)
      (hth : s.thread q = .code (.waitScan call (i :: rest) havekids))
      (hparent : (s.procs i).parent = some q) (hlock : s.lock (.proc i) = none)
      (hzombie : (s.procs i).state = .zombie) (ha : a.fails = false) :
      Change s i (.thread c a) (s.procs i).freed
  | tidy {c : Cpu} {a : Action} {n : Nat} {k : Code} (hpc : s.pc c = .away i)
      (hth : s.thread i = .resume (.sleepTidy n k)) :
      Change s i (.thread c a) { s.procs i with chan := none }
  | yieldStore {c : Cpu} {a : Action} {k : Code} (hpc : s.pc c = .away i)
      (hth : s.thread i = .yieldStore k) :
      Change s i (.thread c a) { s.procs i with state := .runnable }
  | sleepStore {c : Cpu} {a : Action} {chan : Chan} {n : Nat} {k : Code}
      (hpc : s.pc c = .away i) (hth : s.thread i = .sleepStore chan n k) :
      Change s i (.thread c a) { s.procs i with chan := some chan, state := .sleeping }
  | exitStore {c : Cpu} {a : Action} {status : Int32} (hpc : s.pc c = .away i)
      (hth : s.thread i = .exitStore status) :
      Change s i (.thread c a)
        { s.procs i with xstate := status, state := .zombie, etime := s.ticks }
  | tick {c : Cpu} {chan : Option Chan} {rest : List Slot}
      (hirq : s.irq c = some (.updateTime (i :: rest))) :
      Change s i (.irq c chan) (s.procs i).tick
  | irqWakeup {c : Cpu} {ch chan : Option Chan} {rest : List Slot} {timer : Bool}
      (hirq : s.irq c = some (.wakeup chan (i :: rest) timer))
      (hlock : s.lock (.proc i) = none) : Change s i (.irq c ch) ((s.procs i).wake chan)

variable {s s' : Sys} {l : Step}

/-- A step that stores to slot `j` leaves the others alone. -/
theorem Change.update {j : Slot} {p : Proc} (h : Change s j l p) (i : Slot) :
    Change s i l (update s.procs j p i) := by
  by_cases hi : i = j
  · rw [hi, update_self]
    exact h
  · rw [update_of_ne hi]
    exact .keep

/-- The scan of `scheduler()` stores to the slot it visits, if that is
`RUNNABLE`. -/
theorem scanSlot_procs (t : Table) (best : Best) (q : Slot) :
    (scanSlot t best q).1 =
      if (t q).state = .runnable then update t q (t q).recompute else t := by
  rw [scanSlot]
  split
  · dsimp only
    split
    · rfl
    · split <;> rfl
  · rfl

theorem SchedRule.change {c : Cpu} (h : SchedRule s c s') (i : Slot) :
    Change s i (.sched c) (s'.procs i) := by
  cases h with
  | @scan j rest best hpc _ =>
    show Change s i _ ((scanSlot s.procs best j).1 i)
    rw [scanSlot_procs]
    split
    · rename_i hready
      exact (Change.scan hpc hready).update i
    · exact .keep
  | dispatch hpc => exact (Change.dispatch hpc).update i
  | start | scanned | again | test | lock | enter | drop | free => exact .keep

theorem CodeRule.change {c : Cpu} {q : Slot} {a : Action} {k : Code}
    (h : CodeRule s c q a k s') (hpc : s.pc c = .away q) (hth : s.thread q = .code k)
    (i : Slot) : Change s i (.thread c a) (s'.procs i) := by
  cases h with
  | fault _ => exact (Change.fault hpc hth).update i
  | wakeup _ hlock => exact (Change.wakeup hpc hth hlock).update i
  | killHit _ hpid => exact (Change.kill hpc hth hpid).update i
  | setPriorityMiss _ hpid => exact (Change.pass hpc hth hpid).update i
  | setPriorityHit _ _ => exact Change.setPriority.update i
  | allocFail _ hunused => exact (Change.allocFail hunused).update i
  | alloc _ hunused _ => exact (Change.alloc hunused).update i
  | forkParent _ => exact (Change.adopt hpc hth).update i
  | forkPublish _ => exact (Change.publish hpc hth).update i
  | reparent hparent => exact (Change.reparent hpc hth hparent).update i
  | waitReap hparent hlock hzombie ha =>
    exact (Change.reap hpc hth hparent hlock hzombie ha).update i
  | acquire | release | callWakeup | callSleep | call | back | wakeupDone | wakeupSkip | killMiss
  | allocMiss | exit | reparentDone | reparentSkip | exitAcquire | wait | waitSkip | waitAlive
  | waitFail | waitNone | waitSleep | sleepReacquire | acquiresleep | acquiresleepWait
  | acquiresleepTake | releasesleep | releasesleepDone => exact .keep

theorem ThreadRule.change {c : Cpu} {q : Slot} {a : Action} {th : Thread}
    (h : ThreadRule s c q a th s') (hpc : s.pc c = .away q) (hth : s.thread q = th)
    (i : Slot) : Change s i (.thread c a) (s'.procs i) := by
  cases h with
  | code h => exact h.change hpc hth i
  | sleepTidy => exact (Change.tidy hpc hth).update i
  | yieldStore => exact (Change.yieldStore hpc hth).update i
  | sleepStore => exact (Change.sleepStore hpc hth).update i
  | exitStore => exact (Change.exitStore hpc hth).update i
  | forkGiveUp => exact (Change.giveUp hpc hth).update i
  | forkret | yieldRelease | yieldAcquire | sleepAcquire | sleepRelease | forkCopied
  | exitRelease | leave => exact .keep

theorem IrqRule.change {c : Cpu} {chan : Option Chan} {r : Irq} (h : IrqRule s c r s')
    (hirq : s.irq c = some r) (i : Slot) : Change s i (.irq c chan) (s'.procs i) := by
  cases h with
  | tick _ => exact (Change.tick hirq).update i
  | wakeup _ hlock => exact (Change.irqWakeup hirq hlock).update i
  | clockintr | ticked | wakeupSkip | woken | tickWoken | device | back | yield => exact .keep

/-- What a step of the machine makes of each slot. -/
theorem Rule.change (h : Rule s l s') (i : Slot) : Change s i l (s'.procs i) := by
  cases h with
  | sched _ h => exact h.change i
  | thread hpc _ h => exact h.change hpc rfl i
  | trap => exact .keep
  | irq hirq h => exact h.change hirq i

/-! ## `wakeup`, `kill` and `update_time` at one slot -/

/-- `wakeup` makes a sleeper `RUNNABLE`, or it does nothing. -/
theorem Proc.wake_cases (p : Proc) (chan : Option Chan) :
    p.wake chan = p ∨
      p.state = .sleeping ∧ p.chan = chan ∧ p.wake chan = { p with state := .runnable } := by
  unfold Proc.wake
  split
  · rename_i h
    exact Or.inr ⟨h.1, h.2, rfl⟩
  · exact Or.inl rfl

/-- `kill` sets the mark, and makes a sleeper `RUNNABLE`. -/
theorem Proc.kill_cases (p : Proc) :
    p.state ≠ .sleeping ∧ p.kill = { p with killed := true } ∨
      p.state = .sleeping ∧ p.kill = { p with killed := true, state := .runnable } := by
  unfold Proc.kill
  split
  · rename_i h
    exact Or.inr ⟨h, rfl⟩
  · rename_i h
    exact Or.inl ⟨h, rfl⟩

theorem Proc.tick_state (p : Proc) : p.tick.state = p.state := by
  unfold Proc.tick
  split <;> rfl

end Xv6.Process
