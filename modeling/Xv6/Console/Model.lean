import Mathlib.Algebra.Group.Nat.Defs
import Mathlib.Logic.Function.Basic
import Xv6.Lib.Transition

/-!
# The console

`consoleintr` and `consoleread` of `kernel/console.c`, for any number of
processes.  `consoleintr` runs with `cons.lock` held from its first line to
its last, so it is one step.  A pass through the loop of `consoleread` is one
step too, and the lock is taken and given back as the source does it.

Two choices are left to the label: whether `killed(myproc())` holds, and
whether `either_copyout` succeeds.  `consputc` and `procdump` only print, and
are left out.
-/

namespace Xv6.Console

open Xv6.Lib

/-- `INPUT_BUF_SIZE`. -/
abbrev INPUT_BUF_SIZE : Nat := 128

/-- `C(x)`, the character that the keys Control and `x` give. -/
def C (x : Char) : UInt8 := UInt8.ofNat (x.toNat - '@'.toNat)

/-- `'\n'`. -/
def newline : UInt8 := 10

/-- `'\r'`. -/
def carriageReturn : UInt8 := 13

/-- `'\x7f'`. -/
def delete : UInt8 := 0x7f

/-- `cons`, without its lock. -/
structure Cons where
  buf : Nat → UInt8
  r : UInt32
  w : UInt32
  e : UInt32

namespace Cons

/-- `cons.buf[i % INPUT_BUF_SIZE]`. -/
def byte (c : Cons) (i : UInt32) : UInt8 := c.buf (i.toNat % INPUT_BUF_SIZE)

/-- The loop of Control-U, for at most `k` characters. -/
def killLoop : Nat → Cons → Cons
  | 0, c => c
  | k + 1, c =>
      if c.e ≠ c.w ∧ c.byte (c.e - 1) ≠ newline then killLoop k { c with e := c.e - 1 } else c

/-- Control-U.  There are `e - w` characters that can be removed. -/
def kill (c : Cons) : Cons := killLoop (c.e - c.w).toNat c

/-- Control-H and the delete key. -/
def erase (c : Cons) : Cons := if c.e ≠ c.w then { c with e := c.e - 1 } else c

/-- Store a character, and wake the readers at the end of a line, at
Control-D, or if the buffer is full. -/
def put (c : Cons) (ch : UInt8) : Cons × Bool :=
  let c := { c with buf := Function.update c.buf (c.e.toNat % INPUT_BUF_SIZE) ch, e := c.e + 1 }
  if ch = newline ∨ ch = C 'D' ∨ c.e - c.r = UInt32.ofNat INPUT_BUF_SIZE then
    ({ c with w := c.e }, true)
  else (c, false)

/-- `consoleintr`, and whether it wakes the readers. -/
def intr (c : Cons) (ch : UInt8) : Cons × Bool :=
  if ch = C 'P' then (c, false)
  else if ch = C 'U' then (c.kill, false)
  else if ch = C 'H' ∨ ch = delete then (c.erase, false)
  else if ch ≠ 0 ∧ c.e - c.r < UInt32.ofNat INPUT_BUF_SIZE then
    c.put (if ch = carriageReturn then newline else ch)
  else (c, false)

end Cons

/-- A process that reads from the console. -/
abbrev Caller := Nat

/-- The place of a process.  `target` is the argument of the call, and `n`
what is left of it. -/
inductive Pc
  /-- Outside `consoleread`, with the result of the last call. -/
  | idle (ret : Option Int32)
  | read (n : Int32)
  /-- The head of the loop. -/
  | loop (target : UInt32) (n : Int32)
  /-- In `sleep(&cons.r, &cons.lock)`. -/
  | asleep (target : UInt32) (n : Int32)
  /-- Awake, before `sleep` has the lock back. -/
  | woken (target : UInt32) (n : Int32)
  /-- After the loop. -/
  | done (target : UInt32) (n : Int32)

/-- The console and the processes. -/
structure Sys where
  cons : Cons
  /-- `cons.lock`. -/
  lock : Option Caller
  pc : Caller → Pc

/-- What a step finds outside the console. -/
structure Env where
  /-- `killed(myproc())`. -/
  killed : Bool
  /-- `either_copyout` can write to the address. -/
  copyout : Bool

/-- The steps. -/
inductive Step
  | intr (ch : UInt8)
  | read (p : Caller) (n : Int32)
  | go (p : Caller) (e : Env)
  | kill (p : Caller)

namespace Sys

/-- Move a process. -/
def setPc (s : Sys) (p : Caller) (pc : Pc) : Sys := { s with pc := Function.update s.pc p pc }

/-- `acquire(&cons.lock)`, and go on at `pc`. -/
def acquire (s : Sys) (p : Caller) (pc : Pc) : Option Sys :=
  if s.lock = none then some ({ s with lock := some p }.setPc p pc) else none

/-- `release(&cons.lock)`, and go on at `pc`. -/
def release (s : Sys) (p : Caller) (pc : Pc) : Sys := { s with lock := none }.setPc p pc

/-- `cons.r++`. -/
def take (s : Sys) : Sys := { s with cons := { s.cons with r := s.cons.r + 1 } }

end Sys

/-- A `wakeup(&cons.r)` at one process. -/
def Pc.wake : Pc → Pc
  | .asleep target n => .woken target n
  | pc => pc

/-- `wakeup(&cons.r)`. -/
def Sys.wakeup (s : Sys) : Sys := { s with pc := fun p => (s.pc p).wake }

/-- The return value `target - n`. -/
def result (target : UInt32) (n : Int32) : Int32 := (target - n.toUInt32).toInt32

/-- One pass through the loop of `consoleread`.  A Control-D is saved for the
next call if this one has some characters already. -/
def pass (s : Sys) (p : Caller) (e : Env) (target : UInt32) (n : Int32) : Sys :=
  if 0 < n then
    if s.cons.r = s.cons.w then
      if e.killed then s.release p (.idle (some (-1))) else s.release p (.asleep target n)
    else
      let ch := s.cons.byte s.cons.r
      if ch = C 'D' then
        if n.toUInt32 < target then s.setPc p (.done target n) else s.take.setPc p (.done target n)
      else if e.copyout = false then s.take.setPc p (.done target n)
      else if ch = newline then s.take.setPc p (.done target (n - 1))
      else s.take.setPc p (.loop target (n - 1))
  else s.setPc p (.done target n)

/-- The next step of the call of process `p`. -/
def readStep (s : Sys) (p : Caller) (e : Env) : Option Sys :=
  match s.pc p with
  | .idle _ | .asleep _ _ => none
  | .read n => s.acquire p (.loop n.toUInt32 n)
  | .loop target n => some (pass s p e target n)
  | .woken target n => s.acquire p (.loop target n)
  | .done target n => some (s.release p (.idle (some (result target n))))

/-- The transition function. -/
def next (s : Sys) : Step → Option Sys
  | .intr ch =>
      if s.lock = none then
        let (cons, wake) := s.cons.intr ch
        let s := { s with cons := cons }
        some (if wake then s.wakeup else s)
      else none
  | .read p n =>
      match s.pc p with
      | .idle _ => some (s.setPc p (.read n))
      | _ => none
  | .go p e => readStep s p e
  | .kill p => some (s.setPc p (s.pc p).wake)

/-- The console after `consoleinit`. -/
def Fresh (s : Sys) : Prop :=
  s.cons.r = 0 ∧ s.cons.w = 0 ∧ s.cons.e = 0 ∧ s.lock = none ∧ ∀ p, s.pc p = .idle none

end Xv6.Console
