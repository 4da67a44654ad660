import Mathlib.Algebra.Group.Nat.Defs
import Mathlib.Logic.Function.Basic
import Xv6.Lib.Circle
import Xv6.Lib.Transition

/-!
# The buffer cache

`kernel/bio.c`.  The buffers are the numbers below `NBUF`, and `HEAD` is
`bcache.head`.  The fields of `struct buf` are functions of the buffer.  The
contents of the blocks are left out: `Xv6.Log` has them.

A step is one critical section of `bcache.lock`, or the moment at which a
process gets or gives back the sleep lock of a buffer.  `bget` takes the
reference in one step and the sleep lock in another, and `brelse` gives back
the sleep lock in one step and the reference in another.
-/

namespace Xv6.Cache

open Xv6.Lib Function

/-- `NBUF` of `kernel/param.h`. -/
abbrev NBUF : Nat := 30

/-- `bcache.head`. -/
abbrev HEAD : Nat := NBUF

/-- A process, by its number. -/
abbrev Pid := Nat

/-- The buffers of `bcache`, without their locks. -/
structure Bcache where
  valid : Nat → Bool
  dev : Nat → UInt32
  blockno : Nat → UInt32
  refcnt : Nat → UInt32
  prev : Nat → Nat
  next : Nat → Nat

namespace Bcache

/-- Link `b` behind `bcache.head`: the four assignments at the end of `brelse`
and in the loop of `binit`. -/
def linkFirst (c : Bcache) (b : Nat) : Bcache :=
  let c := { c with next := update c.next b (c.next HEAD) }
  let c := { c with prev := update c.prev b HEAD }
  let c := { c with prev := update c.prev (c.next HEAD) b }
  { c with next := update c.next HEAD b }

/-- Take `b` out of the list: the two assignments before them in `brelse`. -/
def unlink (c : Bcache) (b : Nat) : Bcache :=
  let c := { c with prev := update c.prev (c.next b) (c.prev b) }
  { c with next := update c.next (c.prev b) (c.next b) }

/-- `binit`. -/
def binit (c : Bcache) : Bcache :=
  let c := { c with prev := update c.prev HEAD HEAD }
  let c := { c with next := update c.next HEAD HEAD }
  (List.range NBUF).foldl linkFirst c

/-- Is the block in this buffer? -/
def caches (c : Bcache) (dev blockno : UInt32) (b : Nat) : Bool :=
  c.dev b == dev && c.blockno b == blockno

/-- The critical section of `bget`.  The result is `none` if a loop does not
end within `NBUF + 1` rounds. -/
def bget (c : Bcache) (dev blockno : UInt32) : Option (Except String (Nat × Bcache)) := do
  let b ← walk c.next (fun b => b == HEAD || c.caches dev blockno b) (NBUF + 1) (c.next HEAD)
  if b ≠ HEAD then
    return .ok (b, { c with refcnt := update c.refcnt b (c.refcnt b + 1) })
  else
    let b ← walk c.prev (fun b => b == HEAD || c.refcnt b == 0) (NBUF + 1) (c.prev HEAD)
    if b ≠ HEAD then
      return .ok (b, { c with
        dev := update c.dev b dev
        blockno := update c.blockno b blockno
        valid := update c.valid b false
        refcnt := update c.refcnt b 1 })
    else return .error "bget: no buffers"

/-- `b->refcnt--`. -/
def unref (c : Bcache) (b : Nat) : Bcache :=
  { c with refcnt := update c.refcnt b (c.refcnt b - 1) }

/-- The critical section of `brelse`. -/
def drop (c : Bcache) (b : Nat) : Bcache :=
  let c := c.unref b
  if c.refcnt b = 0 then (c.unlink b).linkFirst b else c

/-- `bpin`. -/
def bpin (c : Bcache) (b : Nat) : Bcache :=
  { c with refcnt := update c.refcnt b (c.refcnt b + 1) }

/-- `bunpin`. -/
def bunpin (c : Bcache) (b : Nat) : Bcache := c.unref b

end Bcache

/-! ## The system -/

/-- The place of a process. -/
inductive Pc
  | idle
  /-- In `acquiresleep` at the end of `bget`. -/
  | acquire (b : Nat)
  /-- In `brelse`, behind `releasesleep`. -/
  | release (b : Nat)
  deriving DecidableEq

structure Sys where
  cache : Bcache
  /-- The process that has `b->lock`. -/
  lock : Nat → Option Pid
  pc : Pid → Pc
  panicked : Option String

/-- The steps. -/
inductive Step
  | bget (p : Pid) (dev blockno : UInt32)
  /-- `acquiresleep` returns. -/
  | acquire (p : Pid)
  /-- The end of `bread`. -/
  | fill (p : Pid) (b : Nat)
  /-- `brelse` up to `releasesleep`. -/
  | brelse (p : Pid) (b : Nat)
  /-- The rest of `brelse`. -/
  | drop (p : Pid)
  | bpin (p : Pid) (b : Nat)
  | bunpin (p : Pid) (b : Nat)

/-- Move a process. -/
def Sys.setPc (s : Sys) (p : Pid) (pc : Pc) : Sys := { s with pc := update s.pc p pc }

/-- A process that is in none of the calls calls one. -/
def Sys.call (s : Sys) (p : Pid) (s' : Option Sys) : Option Sys :=
  if s.pc p = .idle then s' else none

/-- The end of the critical section of `bget`. -/
def Sys.enter (s : Sys) (p : Pid) : Except String (Nat × Bcache) → Sys
  | .ok (b, c) => { s with cache := c }.setPc p (.acquire b)
  | .error msg => { s with panicked := some msg }

/-- The transition function. -/
def next (s : Sys) (l : Step) : Option Sys :=
  if s.panicked.isSome then none
  else
    match l with
    | .bget p dev blockno => s.call p ((s.cache.bget dev blockno).map (s.enter p))
    | .acquire p =>
        match s.pc p with
        | .acquire b =>
            if s.lock b = none then
              some ({ s with lock := update s.lock b (some p) }.setPc p .idle)
            else none
        | _ => none
    | .fill p b =>
        s.call p
          (if s.lock b = some p then
            some { s with cache := { s.cache with valid := update s.cache.valid b true } }
          else none)
    | .brelse p b =>
        s.call p
          (if s.lock b = some p then
            some ({ s with lock := update s.lock b none }.setPc p (.release b))
          else some { s with panicked := some "brelse" })
    | .drop p =>
        match s.pc p with
        | .release b => some ({ s with cache := s.cache.drop b }.setPc p .idle)
        | _ => none
    | .bpin p b => s.call p (some { s with cache := s.cache.bpin b })
    | .bunpin p b => s.call p (some { s with cache := s.cache.bunpin b })

/-- The fields of `bcache` before `binit`. -/
def Bcache.zero : Bcache :=
  ⟨fun _ => false, fun _ => 0, fun _ => 0, fun _ => 0, fun _ => 0, fun _ => 0⟩

/-- After `binit`. -/
def boot : Sys := ⟨Bcache.zero.binit, fun _ => none, fun _ => .idle, none⟩

/-! ## What a run has done -/

/-- The references from `bget` that are still out, the pins, and for each
buffer the number of the last time at which `brelse` dropped its count to 0,
or 0 if there was none. -/
structure History where
  refs : List (Pid × Nat)
  pins : Nat → Nat
  drops : Nat
  last : Nat → Nat

/-- The references to a buffer from `bget`. -/
def History.holds (h : History) (b : Nat) : Nat := h.refs.countP (fun r => r.2 == b)

/-- What a step adds to the history. -/
def History.record (h : History) (s : Sys) (l : Step) (s' : Sys) : History :=
  match l with
  | .bget p _ _ =>
      match s'.pc p with
      | .acquire b => { h with refs := (p, b) :: h.refs }
      | _ => h
  | .drop p =>
      match s.pc p with
      | .release b =>
          let h := { h with refs := h.refs.erase (p, b) }
          if s'.cache.refcnt b = 0 then
            { h with drops := h.drops + 1, last := update h.last b (h.drops + 1) }
          else h
      | _ => h
  | .bpin _ b => { h with pins := update h.pins b (h.pins b + 1) }
  | .bunpin _ b => { h with pins := update h.pins b (h.pins b - 1) }
  | .acquire _ | .fill _ _ | .brelse _ _ => h

def History.start : History := ⟨[], fun _ => 0, 0, fun _ => 0⟩

/-- Balanced use, on devices other than 0: `brelse` of a buffer that the process
has locked, `bunpin` of a buffer with a pin. -/
def Balanced (x : Sys × History) : Step → Prop
  | .bget _ dev _ => dev ≠ 0
  | .brelse p b => x.1.lock b = some p
  | .bpin _ b => b < NBUF
  | .bunpin _ b => 0 < x.2.pins b
  | .acquire _ | .fill _ _ | .drop _ => True

/-- There is room in `refcnt` for one more reference to each buffer. -/
def Room (x : Sys × History) : Step → Prop
  | .bget _ _ _ | .bpin _ _ => ∀ b < NBUF, x.2.holds b + x.2.pins b + 1 < 2 ^ 32
  | .acquire _ | .fill _ _ | .brelse _ _ | .drop _ | .bunpin _ _ => True

end Xv6.Cache
