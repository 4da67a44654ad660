import Mathlib.Data.List.FinRange
import Xv6.Lib.Transition
import Xv6.Process.Priority

/-!
# `scheduler()` on every hart, and the processes it runs

The harts run `scheduler()`, and between two `swtch`es the kernel thread of
a process.  One label of `next` is one step of one hart.

* `SchedPc` is the place of a hart in `scheduler()`.  The unlocked test of
  `min_proc->state`, the `acquire` of its lock, the stores, the `swtch` and
  the release afterwards are separate steps.  The scan visits one slot in a
  step.
* `Thread` is the place of a process in the kernel.  `Code` is the part of
  it that holds no process lock, `Resume` is what is left to do when `swtch`
  comes back.  `yield`, `sleep`, `wakeup`, `kill`, `set_priority`, `fork`,
  `exit`, `wait`, `waitx`, `acquiresleep` and `releasesleep` are followed
  step by step, and everything else is `Code.run`.
* `Irq` is the place of a hart in an interrupt handler.  A timer interrupt
  runs `clockintr` on hart 0, and it makes the interrupted process yield.

A critical section on the lock of one slot that stores to `state` at most
once is one step, which applies when the lock is free.  The only unlocked
readers of `state` see the same values in either granularity.  An `acquire`
of a lock that is held does not apply, and no step applies after a panic.

`swtch` saves the thread of a process in `p->context` and takes it up again
from there, so the model keeps the thread of each slot in one place.
-/

namespace Xv6.Process

open Xv6.Lib Function

/-! ## Places -/

/-- The locks: the one of each slot, `sched_lock`, and the others by a
number. -/
inductive Lock
  | proc (q : Slot)
  | sched
  | cond (n : Nat)
  deriving DecidableEq

/-- `wait_lock`. -/
abbrev waitLock : Nat := 0

/-- `tickslock`. -/
abbrev ticksLock : Nat := 1

/-- `lk->lk`, for the sleep lock `n`. -/
abbrev spinOf (n : Nat) : Nat := n + 2

/-- `&ticks`, as a channel. -/
def ticksChan : Chan := .obj 0

/-- `initproc`, which `userinit` allocates first. -/
abbrev initproc : Slot := 0

/-- All slots, in table order. -/
abbrev allSlots : List Slot := List.finRange NPROC

/-- The place of a hart in `scheduler()`. -/
inductive SchedPc
  /-- At the head of the loop, before `acquire(&sched_lock)`. -/
  | start
  /-- In the scan, with the slots that are left. -/
  | scan (slots : List Slot) (best : Best)
  /-- After the scan. -/
  | scanned (best : Best)
  /-- The unlocked test of `min_proc->state` has passed. -/
  | tested (q : Slot)
  /-- `min_proc->lock` is held. -/
  | locked (q : Slot)
  /-- `state` and `c->proc` are stored. -/
  | dispatched (q : Slot)
  /-- `swtch` has left `scheduler()`, and the thread of `q` runs. -/
  | away (q : Slot)
  /-- `swtch` has come back. -/
  | back (q : Slot)
  /-- `c->proc` is cleared. -/
  | dropping (q : Slot)

/-- The two functions that reap a child. -/
inductive WaitCall
  | wait
  | waitx
  deriving DecidableEq

/-- Kernel or user code of a process that holds no process lock. -/
inductive Code
  /-- Anything outside the functions below, with the spinlock that it
  holds. -/
  | run (lk : Option Nat)
  | wakeup (chan : Option Chan) (slots : List Slot) (k : Code)
  | kill (pid : Int32) (slots : List Slot)
  /-- The loop of `set_priority`, with `old_dyn_priority`. -/
  | setPriority (newPriority pid : Int32) (slots : List Slot) (oldDyn : Int32)
  /-- The comparison after that loop, at the slot with the pid. -/
  | setPriorityTest (i : Slot) (oldDyn : Int32)
  | allocproc (slots : List Slot)
  | forkParent (np : Slot)
  | forkPublish (np : Slot)
  | exit (status : Int32)
  | reparent (status : Int32) (slots : List Slot)
  | exitAcquire (status : Int32)
  | wait (call : WaitCall)
  | waitScan (call : WaitCall) (slots : List Slot) (havekids : Bool)
  | sleepReacquire (n : Nat) (k : Code)
  | acquiresleep (n : Nat)
  /-- The head of the loop of `acquiresleep`, with `lk->lk` held. -/
  | acquiresleepTest (n : Nat)
  | releasesleep (n : Nat)
  /-- After the `wakeup` of `releasesleep`. -/
  | releasesleepDone (n : Nat)

/-- What a thread does when `swtch` comes back to it, with its own lock
held. -/
inductive Resume
  | forkret
  | yieldRelease (k : Code)
  | sleepTidy (n : Nat) (k : Code)
  /-- After `exit`, or in a slot that was never used. -/
  | dead

/-- The place of a process. -/
inductive Thread
  | code (k : Code)
  | resume (r : Resume)
  | yieldAcquire (k : Code)
  | yieldStore (k : Code)
  | sleepAcquire (chan : Chan) (n : Nat) (k : Code)
  | sleepRelease (chan : Chan) (n : Nat) (k : Code)
  | sleepStore (chan : Chan) (n : Nat) (k : Code)
  | forkCopy (np : Slot)
  | exitStore (status : Int32)
  | exitRelease
  | sched (r : Resume)

/-- The place of a hart in an interrupt handler. -/
inductive Irq
  | clockintr
  | updateTime (slots : List Slot)
  | wakeup (chan : Option Chan) (slots : List Slot) (timer : Bool)
  /-- In `devintr`, outside `clockintr` and `wakeup`. -/
  | devintr (timer : Bool)

/-- Whether the code can be interrupted: it holds no spinlock. -/
def Code.interruptible : Code → Bool
  | .run lk => lk.isNone
  | .wakeup _ _ k => k.interruptible
  | .reparent _ _ | .exitAcquire _ | .waitScan _ _ _ | .acquiresleepTest _
  | .releasesleepDone _ => false
  | .kill _ _ | .setPriority _ _ _ _ | .setPriorityTest _ _ | .allocproc _ | .forkParent _
  | .forkPublish _ | .exit _ | .wait _ | .sleepReacquire _ _ | .acquiresleep _
  | .releasesleep _ => true

/-! ## The state -/

/-- `struct sleeplock`, without its spinlock and its name. -/
structure SleepLock where
  locked : Bool
  pid : Int32

/-- The machine. -/
structure Sys where
  procs : Table
  thread : Slot → Thread
  pc : Cpu → SchedPc
  /-- `c->proc`. -/
  current : Cpu → Option Slot
  irq : Cpu → Option Irq
  lock : Lock → Option Cpu
  ticks : UInt32
  nextpid : Int32
  sleeplock : Nat → SleepLock
  /-- The sleep locks that the code of a process has acquired and not yet
  released. -/
  held : Slot → Nat → Bool

/-- What a thread in `Code.run` calls next, or whether the next allocation
or `copyout` fails. -/
inductive Action
  | acquire (n : Nat)
  | release
  | wakeup (chan : Chan)
  | sleep (chan : Chan)
  | kill (pid : Int32)
  | setPriority (newPriority pid : Int32)
  /-- A fault that kills the process.  `usertrap` calls `setkilled`, or after
  a failed `cowHandler` it stores to `p->killed` without the lock. -/
  | fault (locked : Bool)
  | fork
  | exit (status : Int32)
  | wait (call : WaitCall)
  | acquiresleep (n : Nat)
  | releasesleep (n : Nat)
  | go
  | fail

/-- Whether the next allocation or `copyout` fails. -/
def Action.fails : Action → Bool
  | .fail => true
  | _ => false

/-- The steps. -/
inductive Step
  | sched (c : Cpu)
  | thread (c : Cpu) (a : Action)
  | trap (c : Cpu) (timer : Bool)
  | irq (c : Cpu) (chan : Option Chan)

namespace Sys

/-- Move a hart in `scheduler()`. -/
def setPc (s : Sys) (c : Cpu) (pc : SchedPc) : Sys :=
  { s with pc := update s.pc c pc }

/-- Move the thread of a process. -/
def setThread (s : Sys) (q : Slot) (th : Thread) : Sys :=
  { s with thread := update s.thread q th }

theorem thread_set (s : Sys) (q : Slot) (th : Thread) : (s.setThread q th).thread q = th :=
  update_self ..

theorem setPc_thread (s : Sys) (c : Cpu) (pc : SchedPc) : (s.setPc c pc).thread = s.thread := rfl

/-- Move a hart in its interrupt handler. -/
def setIrq (s : Sys) (c : Cpu) (irq : Option Irq) : Sys :=
  { s with irq := update s.irq c irq }

/-- Change one slot. -/
def setProc (s : Sys) (q : Slot) (p : Proc) : Sys :=
  { s with procs := update s.procs q p }

/-- Take or give back a lock. -/
def setLock (s : Sys) (l : Lock) (holder : Option Cpu) : Sys :=
  { s with lock := update s.lock l holder }

/-- Store to a sleep lock, and record whether process `q` holds it. -/
def setSleep (s : Sys) (q : Slot) (n : Nat) (lk : SleepLock) (held : Bool) : Sys :=
  { s with
    sleeplock := update s.sleeplock n lk
    held := update s.held q (update (s.held q) n held) }

end Sys

/-- The body of the loop of `wakeup`, under the lock of the slot. -/
def Proc.wake (p : Proc) (chan : Option Chan) : Proc :=
  if p.state = .sleeping ∧ p.chan = chan then { p with state := .runnable } else p

/-- The body of the loop of `update_time`. -/
def Proc.tick (p : Proc) : Proc :=
  match p.state with
  | .running => { p with rTime := p.rTime + 1 }
  | .sleeping => { p with sTime := p.sTime + 1 }
  | .runnable => { p with wTime := p.wTime + 1 }
  | _ => p

/-- The stores of `kill` into the slot with the pid. -/
def Proc.kill (p : Proc) : Proc :=
  { p with
    killed := true
    state := if p.state = .sleeping then .runnable else p.state }

/-! ## `scheduler()` -/

/-- The next step of `scheduler()` on hart `c`. -/
def schedStep (s : Sys) (c : Cpu) : Option Sys :=
  match s.pc c with
  | .start =>
      if s.lock .sched = none then
        some ((s.setLock .sched (some c)).setPc c (.scan allSlots Best.start))
      else none
  | .scan (q :: rest) best =>
      if s.lock (.proc q) = none then
        let (t, best) := scanSlot s.procs best q
        some ({ s with procs := t }.setPc c (.scan rest best))
      else none
  | .scan [] best => some ((s.setLock .sched none).setPc c (.scanned best))
  | .scanned best =>
      match best.minProc with
      | none => some (s.setPc c .start)
      | some q =>
          if (s.procs q).state = .runnable then some (s.setPc c (.tested q))
          else some (s.setPc c .start)
  | .tested q =>
      if s.lock (.proc q) = none then
        some ((s.setLock (.proc q) (some c)).setPc c (.locked q))
      else none
  | .locked q =>
      let s := s.setProc q { s.procs q with state := .running }
      some ({ s with current := update s.current c (some q) }.setPc c (.dispatched q))
  | .dispatched q => some (s.setPc c (.away q))
  | .away _ => none
  | .back q => some ({ s with current := update s.current c none }.setPc c (.dropping q))
  | .dropping q => some ((s.setLock (.proc q) none).setPc c .start)

/-! ## The thread of a process -/

/-- The call that the code of process `q` makes. -/
def callStep (s : Sys) (c : Cpu) (q : Slot) (lk : Option Nat) : Action → Option Sys
  | .acquire n =>
      if lk = none ∧ s.lock (.cond n) = none then
        some ((s.setLock (.cond n) (some c)).setThread q (.code (.run (some n))))
      else none
  | .release =>
      match lk with
      | some n => some ((s.setLock (.cond n) none).setThread q (.code (.run none)))
      | none => none
  | .wakeup chan => some (s.setThread q (.code (.wakeup (some chan) allSlots (.run lk))))
  | .sleep chan =>
      -- only `acquiresleep` sleeps on a sleep lock
      match lk, chan with
      | some _, .sleeplock _ => none
      | some n, chan => some (s.setThread q (.sleepAcquire chan n (.run (some n))))
      | none, _ => none
  | .kill pid => if lk = none then some (s.setThread q (.code (.kill pid allSlots))) else none
  | .setPriority newPriority pid =>
      if lk = none then
        some (s.setThread q (.code (.setPriority newPriority pid allSlots NOTFOUND)))
      else none
  | .fault locked =>
      if lk = none ∧ (locked = true → s.lock (.proc q) = none) then
        some (s.setProc q { s.procs q with killed := true })
      else none
  | .fork => if lk = none then some (s.setThread q (.code (.allocproc allSlots))) else none
  | .exit status =>
      -- `panic("init exiting")`
      if lk = none ∧ q ≠ initproc then some (s.setThread q (.code (.exit status))) else none
  | .wait call => if lk = none then some (s.setThread q (.code (.wait call))) else none
  | .acquiresleep n =>
      if lk = none then some (s.setThread q (.code (.acquiresleep n))) else none
  | .releasesleep n =>
      -- the callers release what they hold: `panic("brelse")`, `panic("iunlock")`
      if lk = none ∧ s.held q n = true then some (s.setThread q (.code (.releasesleep n)))
      else none
  | .go | .fail => none

/-- `wakeup`, at slot `i`, by hart `c`. -/
def wakeSlot (s : Sys) (c : Cpu) (chan : Option Chan) (i : Slot) : Option Sys :=
  if s.current c = some i then some s
  else if s.lock (.proc i) = none then some (s.setProc i ((s.procs i).wake chan))
  else none

/-- `allocproc`, at slot `i`.  With `fail`, a `kalloc` after the slot was
found returns 0. -/
def allocSlot (s : Sys) (c : Cpu) (q i : Slot) (rest : List Slot) (fail : Bool) : Option Sys :=
  if s.lock (.proc i) = none then
    if (s.procs i).state = .unused then
      let p := (s.procs i).alloc s.nextpid s.ticks
      let s := { s with nextpid := s.nextpid + 1 }
      if fail then some ((s.setProc i p.freed).setThread q (.code (.run none)))
      else
        some ((((s.setProc i p).setLock (.proc i) (some c)).setThread i (.resume .forkret)).setThread
          q (.forkCopy i))
    else some (s.setThread q (.code (.allocproc rest)))
  else none

/-- `wait` or `waitx`, at slot `i`, with `wait_lock` held.  With `fail`, the
`copyout` of the exit status fails. -/
def waitSlot (s : Sys) (q : Slot) (call : WaitCall) (i : Slot) (rest : List Slot)
    (havekids fail : Bool) : Option Sys :=
  if (s.procs i).parent = some q then
    if s.lock (.proc i) = none then
      if (s.procs i).state = .zombie then
        let s := if fail then s else s.setProc i (s.procs i).freed
        some ((s.setLock (.cond waitLock) none).setThread q (.code (.run none)))
      else some (s.setThread q (.code (.waitScan call rest true)))
    else none
  else some (s.setThread q (.code (.waitScan call rest havekids)))

/-- The next step of the code of process `q`. -/
def codeStep (s : Sys) (c : Cpu) (q : Slot) (a : Action) : Code → Option Sys
  | .run lk => callStep s c q lk a
  | .wakeup _ [] k => some (s.setThread q (.code k))
  | .wakeup chan (i :: rest) k =>
      (wakeSlot s c chan i).map (fun s => s.setThread q (.code (.wakeup chan rest k)))
  | .kill _ [] => some (s.setThread q (.code (.run none)))
  | .kill pid (i :: rest) =>
      if s.lock (.proc i) = none then
        if (s.procs i).pid = pid then
          some ((s.setProc i (s.procs i).kill).setThread q (.code (.run none)))
        else some (s.setThread q (.code (.kill pid rest)))
      else none
  -- the comparison reads past the table
  | .setPriority _ _ [] _ => none
  | .setPriority newPriority pid (i :: rest) oldDyn =>
      if s.lock (.proc i) = none then
        if (s.procs i).pid = pid then
          some ((s.setProc i { s.procs i with staticPrio := newPriority.toUInt32 }).setThread q
            (.code (.setPriorityTest i oldDyn)))
        else
          some ((s.setProc i (s.procs i).recompute).setThread q
            (.code (.setPriority newPriority pid rest (s.procs i).dynamicPrio.toInt32)))
      else none
  | .setPriorityTest i oldDyn =>
      -- a `yield` with the lock of a slot held panics
      if oldDyn.toUInt32 > (s.procs i).dynamicPrio then none
      else some (s.setThread q (.code (.run none)))
  | .allocproc [] => some (s.setThread q (.code (.run none)))
  | .allocproc (i :: rest) => allocSlot s c q i rest a.fails
  | .forkParent np =>
      if s.lock (.cond waitLock) = none then
        some ((s.setProc np { s.procs np with parent := some q }).setThread q
          (.code (.forkPublish np)))
      else none
  | .forkPublish np =>
      if s.lock (.proc np) = none then
        some ((s.setProc np { s.procs np with state := .runnable }).setThread q
          (.code (.run none)))
      else none
  | .exit status =>
      if s.lock (.cond waitLock) = none then
        some ((s.setLock (.cond waitLock) (some c)).setThread q
          (.code (.reparent status allSlots)))
      else none
  | .reparent status [] =>
      some (s.setThread q
        (.code (.wakeup ((s.procs q).parent.map .proc) allSlots (.exitAcquire status))))
  | .reparent status (i :: rest) =>
      if (s.procs i).parent = some q then
        some ((s.setProc i { s.procs i with parent := some initproc }).setThread q
          (.code (.wakeup (some (.proc initproc)) allSlots (.reparent status rest))))
      else some (s.setThread q (.code (.reparent status rest)))
  | .exitAcquire status =>
      if s.lock (.proc q) = none then
        some ((s.setLock (.proc q) (some c)).setThread q (.exitStore status))
      else none
  | .wait call =>
      if s.lock (.cond waitLock) = none then
        some ((s.setLock (.cond waitLock) (some c)).setThread q
          (.code (.waitScan call allSlots false)))
      else none
  | .waitScan call [] havekids =>
      -- `killed(p)` takes the lock, and is called only with children; `waitx`
      -- reads `p->killed` without it
      if havekids then
        if call = .wait → s.lock (.proc q) = none then
          if (s.procs q).killed then
            some ((s.setLock (.cond waitLock) none).setThread q (.code (.run none)))
          else
            some (s.setThread q
              (.sleepAcquire (.proc q) waitLock (.waitScan call allSlots false)))
        else none
      else some ((s.setLock (.cond waitLock) none).setThread q (.code (.run none)))
  | .waitScan call (i :: rest) havekids => waitSlot s q call i rest havekids a.fails
  | .sleepReacquire n k =>
      if s.lock (.cond n) = none then
        some ((s.setLock (.cond n) (some c)).setThread q (.code k))
      else none
  | .acquiresleep n =>
      if s.lock (.cond (spinOf n)) = none then
        some ((s.setLock (.cond (spinOf n)) (some c)).setThread q (.code (.acquiresleepTest n)))
      else none
  | .acquiresleepTest n =>
      if (s.sleeplock n).locked then
        some (s.setThread q (.sleepAcquire (.sleeplock n) (spinOf n) (.acquiresleepTest n)))
      else
        some (((s.setSleep q n ⟨true, (s.procs q).pid⟩ true).setLock (.cond (spinOf n))
          none).setThread q (.code (.run none)))
  | .releasesleep n =>
      if s.lock (.cond (spinOf n)) = none then
        some (((s.setSleep q n ⟨false, 0⟩ false).setLock (.cond (spinOf n)) (some c)).setThread q
          (.code (.wakeup (some (.sleeplock n)) allSlots (.releasesleepDone n))))
      else none
  | .releasesleepDone n =>
      some ((s.setLock (.cond (spinOf n)) none).setThread q (.code (.run none)))

/-- The step of process `q` after `swtch` has come back to it. -/
def resumeStep (s : Sys) (q : Slot) : Resume → Option Sys
  | .forkret => some ((s.setLock (.proc q) none).setThread q (.code (.run none)))
  | .yieldRelease k => some ((s.setLock (.proc q) none).setThread q (.code k))
  | .sleepTidy n k =>
      let s := s.setProc q { s.procs q with chan := none }
      some ((s.setLock (.proc q) none).setThread q (.code (.sleepReacquire n k)))
  -- `panic("zombie exit")`
  | .dead => none

/-- Take the own lock of process `q`. -/
def takeOwn (s : Sys) (c : Cpu) (q : Slot) (th : Thread) : Option Sys :=
  if s.lock (.proc q) = none then
    some ((s.setLock (.proc q) (some c)).setThread q th)
  else none

/-- The next step of the thread of process `q`, which runs on hart `c`. -/
def threadStep (s : Sys) (c : Cpu) (q : Slot) (a : Action) : Option Sys :=
  match s.thread q with
  | .code k => codeStep s c q a k
  | .resume r => resumeStep s q r
  | .yieldAcquire k => takeOwn s c q (.yieldStore k)
  | .yieldStore k =>
      some ((s.setProc q { s.procs q with state := .runnable }).setThread q
        (.sched (.yieldRelease k)))
  | .sleepAcquire chan n k => takeOwn s c q (.sleepRelease chan n k)
  | .sleepRelease chan n k =>
      some ((s.setLock (.cond n) none).setThread q (.sleepStore chan n k))
  | .sleepStore chan n k =>
      some ((s.setProc q { s.procs q with chan := some chan, state := .sleeping }).setThread q
        (.sched (.sleepTidy n k)))
  | .forkCopy np =>
      if a.fails then
        some (((s.setProc np (s.procs np).freed).setLock (.proc np) none).setThread q
          (.code (.run none)))
      else some ((s.setLock (.proc np) none).setThread q (.code (.forkParent np)))
  | .exitStore status =>
      some ((s.setProc q { s.procs q with
        xstate := status, state := .zombie, etime := s.ticks }).setThread q .exitRelease)
  | .exitRelease => some ((s.setLock (.cond waitLock) none).setThread q (.sched .dead))
  | .sched r =>
      -- `panic("sched running")`
      if (s.procs q).state = .running then none
      else some ((s.setThread q (.resume r)).setPc c (.back q))

/-! ## Interrupts -/

/-- Whether hart `c` takes interrupts: it holds no spinlock. -/
def Sys.interruptible (s : Sys) (c : Cpu) : Bool :=
  match s.pc c with
  | .start | .scanned _ | .tested _ => true
  | .away q =>
      match s.thread q with
      | .code k => k.interruptible
      | _ => false
  | _ => false

/-- The return from the handler.  After a timer interrupt the interrupted
thread yields, if `myproc()` is there and `RUNNING`.  In `scheduler()`
there is none. -/
def trapReturn (s : Sys) (c : Cpu) (timer : Bool) : Sys :=
  let s := s.setIrq c none
  match timer, s.pc c with
  | true, .away q =>
      match s.thread q with
      | .code k =>
          if s.current c = some q ∧ (s.procs q).state = .running then
            s.setThread q (.yieldAcquire k)
          else s
      | _ => s
  | _, _ => s

/-- The next step of the handler on hart `c`.  A device may wake up
processes, as often as it likes, before it returns. -/
def irqStep (s : Sys) (c : Cpu) (chan : Option Chan) : Irq → Option Sys
  | .clockintr =>
      if s.lock (.cond ticksLock) = none then
        some ({ s.setLock (.cond ticksLock) (some c) with ticks := s.ticks + 1 }.setIrq c
          (some (.updateTime allSlots)))
      else none
  | .updateTime (i :: rest) =>
      if s.lock (.proc i) = none then
        some ((s.setProc i (s.procs i).tick).setIrq c (some (.updateTime rest)))
      else none
  | .updateTime [] => some (s.setIrq c (some (.wakeup (some ticksChan) allSlots true)))
  | .wakeup ch (i :: rest) timer =>
      (wakeSlot s c ch i).map (fun s => s.setIrq c (some (.wakeup ch rest timer)))
  | .wakeup _ [] timer =>
      let s := if timer then s.setLock (.cond ticksLock) none else s
      some (s.setIrq c (some (.devintr timer)))
  | .devintr timer =>
      match timer, chan with
      | false, some ch => some (s.setIrq c (some (.wakeup (some ch) allSlots false)))
      | _, _ => some (trapReturn s c timer)

/-! ## The system -/

/-- The transition function. -/
def next (s : Sys) : Step → Option Sys
  | .sched c => if (s.irq c).isNone then schedStep s c else none
  | .thread c a =>
      match s.pc c with
      | .away q => if (s.irq c).isNone then threadStep s c q a else none
      | _ => none
  | .trap c timer =>
      if (s.irq c).isNone ∧ s.interruptible c then
        some (s.setIrq c (some (if timer ∧ c = 0 then .clockintr else .devintr timer)))
      else none
  | .irq c chan =>
      match s.irq c with
      | some i => irqStep s c chan i
      | none => none

/-- The machine when the harts enter `scheduler()`: the first process is
ready in its slot. -/
def bootSys : Sys where
  procs := bootTable
  thread := update (fun _ => .resume .dead) initproc (.resume .forkret)
  pc := fun _ => .start
  current := fun _ => none
  irq := fun _ => none
  lock := fun _ => none
  ticks := 0
  nextpid := 2
  sleeplock := fun _ => ⟨false, 0⟩
  held := fun _ _ => false

/-! ## Concrete runs -/

/-- Hart `c` scans the table, dispatches the process that it finds and
enters it. -/
def pickRun (c : Cpu) : List Step := List.replicate 70 (.sched c)

/-- `n` steps of the process on hart `c`. -/
def goRun (c : Cpu) (n : Nat) : List Step := List.replicate n (.thread c .go)

/-- Hart 0 runs the first process, up to the end of `forkret`. -/
def initRun : List Step := pickRun 0 ++ goRun 0 1

/-- The process on hart `c` forks, and finds a free slot after `n` others. -/
def forkRun (c : Cpu) (n : Nat) : List Step := .thread c .fork :: goRun c (n + 4)

/-- The process on hart `c`, which has no children, exits. -/
def exitRun (c : Cpu) (status : Int32) : List Step :=
  .thread c (.exit status) :: goRun c 135 ++ List.replicate 2 (.sched c)

end Xv6.Process
