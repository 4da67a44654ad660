import Mathlib.Algebra.Group.Int.Defs
import Mathlib.Algebra.GroupWithZero.Nat
import Mathlib.Data.Fintype.Basic
import Mathlib.Logic.Function.Basic

/-!
# The process table

`struct proc` of `kernel/proc.h`, with the fields that scheduling, the
priorities, the clock and the exit protocol read.  The memory fields
(`kstack`, `sz`, `pagetable`, `trapframe`), the open files and the name are
absent: no function of these modules reads them.

`uint` is `UInt32` and `int` is `Int32`, so that the mixed comparisons and
the unsigned arithmetic of the source come out as C computes them.
-/

namespace Xv6.Process

/-- `NPROC` of `kernel/param.h`. -/
abbrev NPROC : Nat := 64

/-- `NCPU` of `kernel/param.h`. -/
abbrev NCPU : Nat := 8

instance : NeZero NPROC := ⟨by decide⟩

instance : NeZero NCPU := ⟨by decide⟩

/-- A slot of `proc[NPROC]`. -/
abbrev Slot := Fin NPROC

/-- A hart, as `cpuid()` numbers them. -/
abbrev Cpu := Fin NCPU

/-- `MAX_PRIO` of `kernel/defs.h`. -/
def MAX_PRIO : Int32 := 100

/-- `DEFAULT_PRIO` of `kernel/defs.h`. -/
def DEFAULT_PRIO : UInt32 := 50

/-- `DEFAULT_RBI` of `kernel/defs.h`. -/
def DEFAULT_RBI : Int32 := 100

/-- `NOTFOUND` of `kernel/defs.h`. -/
def NOTFOUND : Int32 := -1

/-- `enum procstate`. -/
inductive ProcState
  | unused | used | sleeping | runnable | running | zombie
  deriving DecidableEq, Repr

/-- What a process sleeps on: the address of a process structure, as in
`wait`, of a sleep lock, as in `acquiresleep`, or of some other kernel
object. -/
inductive Chan
  | proc (q : Slot)
  | sleeplock (n : Nat)
  | obj (addr : Nat)
  deriving DecidableEq

/-- `struct proc`. -/
structure Proc where
  state : ProcState
  chan : Option Chan
  killed : Bool
  xstate : Int32
  pid : Int32
  parent : Option Slot
  rTime : UInt32
  ctime : UInt32
  etime : UInt32
  sTime : UInt32
  wTime : UInt32
  staticPrio : UInt32
  dynamicPrio : UInt32
  rbi : Int32
  nRun : UInt32

/-- `proc[]`. -/
abbrev Table := Slot → Proc

/-- A slot of the table as the loader leaves it and `procinit` keeps it:
all zero, and `UNUSED`. -/
def Proc.zero : Proc where
  state := .unused
  chan := none
  killed := false
  xstate := 0
  pid := 0
  parent := none
  rTime := 0
  ctime := 0
  etime := 0
  sTime := 0
  wTime := 0
  staticPrio := 0
  dynamicPrio := 0
  rbi := 0
  nRun := 0

/-- The fields that `allocproc` sets in the slot it found, from the pid
that `allocpid` returned and the current `ticks`. -/
def Proc.alloc (p : Proc) (pid : Int32) (ticks : UInt32) : Proc :=
  { p with
    pid := pid
    state := .used
    rTime := 0
    etime := 0
    ctime := ticks
    sTime := 0
    wTime := 0
    staticPrio := DEFAULT_PRIO
    dynamicPrio := 0
    nRun := 0
    rbi := DEFAULT_RBI }

/-- The fields that `freeproc` resets.  The times and the priorities keep
their last value. -/
def Proc.freed (p : Proc) : Proc :=
  { p with
    pid := 0
    parent := none
    chan := none
    killed := false
    xstate := 0
    state := .unused }

/-- `procinit`, then `userinit`: `allocproc` takes slot 0, with the first
pid, and the process becomes `RUNNABLE`. -/
def bootTable : Table :=
  Function.update (fun _ => Proc.zero) 0
    { Proc.zero.alloc 1 0 with state := .runnable }

end Xv6.Process
