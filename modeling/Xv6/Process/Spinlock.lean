import Xv6.Process.Table

/-!
# Spinlocks as the running hart sees them

`kernel/spinlock.c` for the hart that executes a system call: `acquire`,
`release`, `push_off` and `pop_off`, with their panics.  `Kernel` is the
part of the machine that these functions read.  The lock of a process is
the hart that holds it, so `lk->locked` and `lk->cpu` are one `Option Cpu`.

A system call is run here with no other hart in between.  Another hart
only makes an `acquire` wait, which is the outcome `spin`.
-/

namespace Xv6.Process

open Function

/-- How a kernel function can fail to return. -/
inductive Crash
  /-- `panic(msg)`. -/
  | panic (msg : String)
  /-- A read of `proc[]` outside `0..NPROC-1`. -/
  | outOfBounds
  /-- The lock is held by another hart, and the loop of `acquire` spins. -/
  | spin
  deriving DecidableEq, Repr

/-- How a call crashed, if it did not return. -/
def crashOf {α : Type} : Except Crash α → Option Crash
  | .error c => some c
  | .ok _ => none

/-- The hart `cpu` inside a system call of the process `current`. -/
structure Kernel where
  cpu : Cpu
  current : Slot
  noff : Nat
  intena : Bool
  intr : Bool
  lock : Slot → Option Cpu
  procs : Table

namespace Kernel

/-- `push_off`. -/
def pushOff (s : Kernel) : Kernel :=
  { s with
    intr := false
    intena := if s.noff = 0 then s.intr else s.intena
    noff := s.noff + 1 }

/-- `pop_off`. -/
def popOff (s : Kernel) : Except Crash Kernel :=
  if s.intr then .error (.panic "pop_off - interruptible")
  else if s.noff < 1 then .error (.panic "pop_off")
  else
    .ok { s with
      noff := s.noff - 1
      intr := s.noff - 1 = 0 && s.intena }

/-- `holding(&proc[q].lock)`. -/
def holding (s : Kernel) (q : Slot) : Bool := s.lock q == some s.cpu

/-- `acquire(&proc[q].lock)`. -/
def acquire (s : Kernel) (q : Slot) : Except Crash Kernel :=
  let s := s.pushOff
  if s.holding q then .error (.panic "acquire")
  else if s.lock q = none then
    .ok { s with lock := update s.lock q (some s.cpu) }
  else .error .spin

/-- `release(&proc[q].lock)`. -/
def release (s : Kernel) (q : Slot) : Except Crash Kernel :=
  if s.holding q then
    popOff { s with lock := update s.lock q none }
  else .error (.panic "release")

/-- Change one slot of the table. -/
def setProc (s : Kernel) (q : Slot) (p : Proc) : Kernel :=
  { s with procs := update s.procs q p }

/-- `sched`.  The `swtch` comes back when a scheduler dispatches the
process again: the process is `RUNNING`, and its lock is still held. -/
def sched (s : Kernel) : Except Crash Kernel :=
  let p := s.current
  if ¬ s.holding p then .error (.panic "sched p->lock")
  else if s.noff ≠ 1 then .error (.panic "sched locks")
  else if (s.procs p).state = .running then .error (.panic "sched running")
  else if s.intr then .error (.panic "sched interruptible")
  else .ok (s.setProc p { s.procs p with state := .running })

/-- `yield`. -/
def yield (s : Kernel) : Except Crash Kernel := do
  let p := s.current
  let s ← s.acquire p
  let s := s.setProc p { s.procs p with state := .runnable }
  let s ← s.sched
  s.release p

/-- The hart holds no lock, and interrupts are on.  This is the state in
which `usertrap` calls `syscall`. -/
structure Quiet (s : Kernel) : Prop where
  free : ∀ q, s.lock q = none
  noff : s.noff = 0
  intr : s.intr = true

/-- A critical section on one slot: with a quiet hart, `acquire`, a change
of the table and `release` leave only that change. -/
theorem Quiet.section {s : Kernel} (h : s.Quiet) (q : Slot) (f : Table → Table) :
    (s.acquire q >>= fun s' => release { s' with procs := f s'.procs } q)
      = .ok { s with procs := f s.procs, intena := true } := by
  have hfree := h.free q
  have hupd : update (update s.lock q (some s.cpu)) q none = s.lock := by
    rw [update_idem, ← hfree, update_eq_self]
  obtain ⟨cpu, current, noff, intena, intr, lock, procs⟩ := s
  obtain rfl : noff = 0 := h.noff
  obtain rfl : intr = true := h.intr
  simp_all [acquire, release, popOff, pushOff, holding, bind, Except.bind]

/-- The table does not matter for a quiet hart. -/
theorem Quiet.withProcs {s : Kernel} (h : s.Quiet) (t : Table) (b : Bool) :
    Quiet { s with procs := t, intena := b } :=
  ⟨h.free, h.noff, h.intr⟩

/-- A quiet hart takes a lock. -/
theorem Quiet.acquire {s : Kernel} (h : s.Quiet) (q : Slot) :
    s.acquire q = .ok { s with
      intr := false
      intena := true
      noff := 1
      lock := update s.lock q (some s.cpu) } := by
  have hfree := h.free q
  obtain ⟨cpu, current, noff, intena, intr, lock, procs⟩ := s
  obtain rfl : noff = 0 := h.noff
  obtain rfl : intr = true := h.intr
  simp_all [Kernel.acquire, pushOff, holding]

/-- No hart comes back from `yield` while it holds the lock of a process.
If that process is the caller, `yield` takes its lock a second time.  If
not, `sched` sees two locks. -/
theorem Quiet.acquire_yield {s : Kernel} (h : s.Quiet) (q : Slot) :
    (s.acquire q >>= yield)
      = .error (.panic (if q = s.current then "acquire" else "sched locks")) := by
  rw [h.acquire q]
  by_cases hq : q = s.current
  · simp [yield, Kernel.acquire, pushOff, holding, hq, bind, Except.bind]
  · have hne : s.current ≠ q := fun he => hq he.symm
    have hfree := h.free s.current
    simp [yield, Kernel.acquire, pushOff, holding, sched, setProc, hq, hne, hfree,
      bind, Except.bind]

end Kernel

end Xv6.Process
