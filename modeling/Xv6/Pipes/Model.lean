import Mathlib.Algebra.Group.Nat.Defs
import Mathlib.Logic.Function.Basic
import Xv6.Lib.Transition

/-!
# `pipewrite` and `piperead`

`kernel/pipe.c`, for one pipe and any number of processes.  One label of
`next` is one step of one call, and `pi->lock` is taken and given back as the
source does it.  Three choices are left to the label: whether `killed(pr)`
holds, what `copyin` reads from the user address, and whether `copyout`
succeeds.  So every user address, valid or not, is covered.

`sleep` releases `pi->lock` and waits for a `wakeup` on its channel, or for a
`kill`.  That no wakeup is lost is a matter of `Process.Sleep`.  The open
files that keep a pipe alive are in `Memory.Pipe`.
-/

namespace Xv6.Pipes

open Xv6.Lib Function

/-- `PIPESIZE`. -/
abbrev PIPESIZE : Nat := 512

/-- `struct pipe`, without its lock. -/
structure Pipe where
  data : Nat → UInt8
  nread : UInt32
  nwrite : UInt32
  readopen : Bool
  writeopen : Bool

/-- A process that uses the pipe. -/
abbrev Caller := Nat

/-- The place of a process. -/
inductive Pc
  /-- Outside the pipe, with the result of the last call. -/
  | idle (ret : Option Int32)
  | write (n : Int32)
  /-- The head of the loop of `pipewrite`. -/
  | writeLoop (n i : Int32)
  /-- In `sleep(&pi->nwrite, &pi->lock)`. -/
  | writeSleep (n i : Int32)
  /-- Awake, before `sleep` has the lock back. -/
  | writeWoken (n i : Int32)
  /-- After the loop of `pipewrite`. -/
  | writeDone (i : Int32)
  | read (n : Int32)
  /-- The head of the first loop of `piperead`. -/
  | readWait (n : Int32)
  /-- In `sleep(&pi->nread, &pi->lock)`. -/
  | readSleep (n : Int32)
  | readWoken (n : Int32)
  /-- The head of the second loop of `piperead`. -/
  | readCopy (n i : Int32)
  /-- Before the `copyout` of the byte `ch`. -/
  | readOut (n i : Int32) (ch : UInt8)
  /-- After the second loop of `piperead`. -/
  | readDone (i : Int32)

/-- The pipe and the processes. -/
structure Sys where
  pipe : Pipe
  /-- `pi->lock`. -/
  lock : Option Caller
  pc : Caller → Pc

/-- What a step finds outside the pipe. -/
structure Env where
  /-- `killed(pr)`. -/
  killed : Bool
  /-- The byte at the user address, if `copyin` can read it. -/
  copyin : Option UInt8
  /-- `copyout` can write to the user address. -/
  copyout : Bool

/-- The steps. -/
inductive Step
  | write (c : Caller) (n : Int32)
  | read (c : Caller) (n : Int32)
  | go (c : Caller) (e : Env)
  | kill (c : Caller)
  | close (writable : Bool)

namespace Sys

/-- Move a process. -/
def setPc (s : Sys) (c : Caller) (p : Pc) : Sys := { s with pc := update s.pc c p }

/-- `acquire(&pi->lock)`, and go on at `p`. -/
def acquire (s : Sys) (c : Caller) (p : Pc) : Option Sys :=
  if s.lock = none then some ({ s with lock := some c }.setPc c p) else none

/-- `release(&pi->lock)`, and go on at `p`. -/
def release (s : Sys) (c : Caller) (p : Pc) : Sys := { s with lock := none }.setPc c p

end Sys

/-- A `wakeup(&pi->nread)` at one process. -/
def Pc.wakeRead : Pc → Pc
  | .readSleep n => .readWoken n
  | p => p

/-- A `wakeup(&pi->nwrite)` at one process. -/
def Pc.wakeWrite : Pc → Pc
  | .writeSleep n i => .writeWoken n i
  | p => p

/-- `wakeup(&pi->nread)`. -/
def Sys.wakeRead (s : Sys) : Sys := { s with pc := fun c => (s.pc c).wakeRead }

/-- `wakeup(&pi->nwrite)`. -/
def Sys.wakeWrite (s : Sys) : Sys := { s with pc := fun c => (s.pc c).wakeWrite }

/-- `pi->data[pi->nwrite++ % PIPESIZE] = ch`. -/
def Pipe.put (pi : Pipe) (ch : UInt8) : Pipe :=
  { pi with
    data := update pi.data (pi.nwrite.toNat % PIPESIZE) ch
    nwrite := pi.nwrite + 1 }

/-- `pi->data[pi->nread++ % PIPESIZE]`, the byte. -/
def Pipe.head (pi : Pipe) : UInt8 := pi.data (pi.nread.toNat % PIPESIZE)

/-- `pi->data[pi->nread++ % PIPESIZE]`, the increment. -/
def Pipe.drop (pi : Pipe) : Pipe := { pi with nread := pi.nread + 1 }

/-- The pipe is full. -/
def Pipe.full (pi : Pipe) : Bool := pi.nwrite = pi.nread + UInt32.ofNat PIPESIZE

/-- The pipe is empty. -/
def Pipe.empty (pi : Pipe) : Bool := pi.nread = pi.nwrite

/-- The next step of the call of process `c`. -/
def callStep (s : Sys) (c : Caller) (e : Env) : Option Sys :=
  match s.pc c with
  | .idle _ | .writeSleep _ _ | .readSleep _ => none
  | .write n => s.acquire c (.writeLoop n 0)
  | .writeLoop n i =>
      if i < n then
        if s.pipe.readopen = false ∨ e.killed = true then some (s.release c (.idle (some (-1))))
        else if s.pipe.full then some (s.wakeRead.release c (.writeSleep n i))
        else
          match e.copyin with
          | none => some (s.setPc c (.writeDone i))
          | some ch => some ({ s with pipe := s.pipe.put ch }.setPc c (.writeLoop n (i + 1)))
      else some (s.setPc c (.writeDone i))
  | .writeWoken n i => s.acquire c (.writeLoop n i)
  | .writeDone i => some (s.wakeRead.release c (.idle (some i)))
  | .read n => s.acquire c (.readWait n)
  | .readWait n =>
      if s.pipe.empty = true ∧ s.pipe.writeopen = true then
        if e.killed then some (s.release c (.idle (some (-1))))
        else some (s.release c (.readSleep n))
      else some (s.setPc c (.readCopy n 0))
  | .readWoken n => s.acquire c (.readWait n)
  | .readCopy n i =>
      if i < n ∧ s.pipe.empty = false then
        some ({ s with pipe := s.pipe.drop }.setPc c (.readOut n i s.pipe.head))
      else some (s.setPc c (.readDone i))
  | .readOut n i _ =>
      if e.copyout then some (s.setPc c (.readCopy n (i + 1)))
      else some (s.setPc c (.readDone i))
  | .readDone i => some (s.wakeWrite.release c (.idle (some i)))

/-- `pipeclose`. -/
def Sys.close (s : Sys) (writable : Bool) : Sys :=
  if writable then { s with pipe := { s.pipe with writeopen := false } }.wakeRead
  else { s with pipe := { s.pipe with readopen := false } }.wakeWrite

/-- The transition function. -/
def next (s : Sys) : Step → Option Sys
  | .write c n =>
      match s.pc c with
      | .idle _ => some (s.setPc c (.write n))
      | _ => none
  | .read c n =>
      match s.pc c with
      | .idle _ => some (s.setPc c (.read n))
      | _ => none
  | .go c e => callStep s c e
  | .kill c => some (s.setPc c (s.pc c).wakeRead.wakeWrite)
  | .close writable => if s.lock = none then some (s.close writable) else none

/-- The pipe after `pipealloc`.  `kalloc` fills the page with junk. -/
def Fresh (s : Sys) : Prop :=
  s.pipe.nread = 0 ∧ s.pipe.nwrite = 0 ∧ s.lock = none ∧ ∀ c, s.pc c = .idle none

/-! ## What a step can do -/

/-- The places in which a process holds `pi->lock`. -/
def Pc.holds : Pc → Bool
  | .writeLoop _ _ | .writeDone _ | .readWait _ | .readCopy _ _ | .readOut _ _ _ | .readDone _ =>
      true
  | .idle _ | .write _ | .writeSleep _ _ | .writeWoken _ _ | .read _ | .readSleep _
  | .readWoken _ => false

/-- The places in which `piperead` copies. -/
def Pc.copies : Pc → Bool
  | .readCopy _ _ | .readOut _ _ _ => true
  | _ => false

/-- The byte that `piperead` has taken from the pipe and not yet copied
out. -/
def Pc.hand : Pc → List UInt8
  | .readOut _ _ ch => [ch]
  | _ => []

/-- The processes other than those in `c` are where they were, or were and
are outside the lock. -/
def Elsewhere (s s' : Sys) (C : Caller → Prop) : Prop :=
  ∀ c, ¬C c → s'.pc c = s.pc c ∨ (s.pc c).holds = false ∧ (s'.pc c).holds = false

/-- A step of the machine. -/
inductive Rule (s : Sys) : Step → Sys → Prop
  /-- A step that needs no lock, or `pipeclose`. -/
  | outside {l : Step} {s' : Sys} (hl : ∀ c e, l ≠ .go c e) (hdata : s'.pipe.data = s.pipe.data)
      (hread : s'.pipe.nread = s.pipe.nread) (hwrite : s'.pipe.nwrite = s.pipe.nwrite)
      (hlock : s'.lock = s.lock) (hpc : Elsewhere s s' (fun _ => False)) : Rule s l s'
  | acquire {c : Caller} {e : Env} {p : Pc} (hlock : s.lock = none)
      (hpc : (s.pc c).holds = false) (hp : p.copies = false) :
      Rule s (.go c e) ({ s with lock := some c }.setPc c p)
  | release {c : Caller} {e : Env} {s' : Sys} (hpc : (s.pc c).holds = true)
      (hcopies : (s.pc c).copies = false) (hpipe : s'.pipe = s.pipe) (hlock : s'.lock = none)
      (hother : Elsewhere s s' (· = c)) (hpc' : (s'.pc c).holds = false) : Rule s (.go c e) s'
  /-- A loop ends. -/
  | leave {c : Caller} {e : Env} {i : Int32} {p : Pc} (hpc : (s.pc c).holds = true)
      (hhand : (s.pc c).hand = []) (hp : p = .writeDone i ∨ p = .readDone i) :
      Rule s (.go c e) (s.setPc c p)
  | put {c : Caller} {e : Env} {n i : Int32} {ch : UInt8} (hpc : s.pc c = .writeLoop n i)
      (hroom : s.pipe.full = false) (hch : e.copyin = some ch) :
      Rule s (.go c e) ({ s with pipe := s.pipe.put ch }.setPc c (.writeLoop n (i + 1)))
  | start {c : Caller} {e : Env} {n : Int32} (hpc : s.pc c = .readWait n) :
      Rule s (.go c e) (s.setPc c (.readCopy n 0))
  | take {c : Caller} {e : Env} {n i : Int32} (hpc : s.pc c = .readCopy n i)
      (hsome : s.pipe.empty = false) :
      Rule s (.go c e) ({ s with pipe := s.pipe.drop }.setPc c (.readOut n i s.pipe.head))
  | deliver {c : Caller} {e : Env} {n i : Int32} {ch : UInt8} (hpc : s.pc c = .readOut n i ch)
      (hout : e.copyout = true) : Rule s (.go c e) (s.setPc c (.readCopy n (i + 1)))
  | lose {c : Caller} {e : Env} {n i : Int32} {ch : UInt8} (hpc : s.pc c = .readOut n i ch)
      (hout : e.copyout = false) : Rule s (.go c e) (s.setPc c (.readDone i))

variable {s s' : Sys} {c : Caller} {l : Step}

theorem Pc.holds_wakeRead (p : Pc) : p.wakeRead = p ∨ p.holds = false ∧ p.wakeRead.holds = false := by
  cases p <;> first | exact Or.inl rfl | exact Or.inr ⟨rfl, rfl⟩

theorem Pc.holds_wakeWrite (p : Pc) :
    p.wakeWrite = p ∨ p.holds = false ∧ p.wakeWrite.holds = false := by
  cases p <;> first | exact Or.inl rfl | exact Or.inr ⟨rfl, rfl⟩

theorem acquire_rule {e : Env} {p : Pc} (hs : s.acquire c p = some s')
    (hpc : (s.pc c).holds = false) (hp : p.copies = false) : Rule s (.go c e) s' := by
  unfold Sys.acquire at hs
  split at hs
  · rename_i hlock
    cases hs
    exact .acquire hlock hpc hp
  · cases hs

/-- A release, after a `wakeup` or without one. -/
theorem release_rule {t : Sys} {e : Env} {p : Pc} (hpc : (s.pc c).holds = true)
    (hcopies : (s.pc c).copies = false) (hp : p.holds = false) (ht : t.pipe = s.pipe)
    (hwake : ∀ c, t.pc c = s.pc c ∨ (s.pc c).holds = false ∧ (t.pc c).holds = false) :
    Rule s (.go c e) (t.release c p) := by
  refine .release hpc hcopies ht rfl ?_ ?_
  · intro c' hc
    rw [show (t.release c p).pc c' = t.pc c' from update_of_ne hc _ _]
    exact hwake c'
  · rw [show (t.release c p).pc c = p from update_self _ _ _]
    exact hp

theorem call_rule {e : Env} (hs : callStep s c e = some s') : Rule s (.go c e) s' := by
  unfold callStep at hs
  cases hpc : s.pc c with
  | idle | writeSleep | readSleep =>
    simp only [hpc] at hs
    cases hs
  | write | writeWoken | read | readWoken =>
    simp only [hpc] at hs
    exact acquire_rule hs (by rw [hpc]; rfl) rfl
  | writeLoop n i =>
    simp only [hpc] at hs
    split at hs
    · split at hs
      · cases hs
        exact release_rule (by rw [hpc]; rfl) (by rw [hpc]; rfl) rfl rfl (fun _ => Or.inl rfl)
      · split at hs
        · cases hs
          exact release_rule (by rw [hpc]; rfl) (by rw [hpc]; rfl) rfl rfl
            (fun c => (s.pc c).holds_wakeRead)
        · rename_i hfull
          split at hs
          · cases hs
            exact .leave (by rw [hpc]; rfl) (by rw [hpc]; rfl) (Or.inl rfl)
          · rename_i ch hch
            cases hs
            exact .put hpc (Bool.eq_false_iff.mpr hfull) hch
    · cases hs
      exact .leave (by rw [hpc]; rfl) (by rw [hpc]; rfl) (Or.inl rfl)
  | writeDone i =>
    simp only [hpc] at hs
    cases hs
    exact release_rule (by rw [hpc]; rfl) (by rw [hpc]; rfl) rfl rfl
      (fun c => (s.pc c).holds_wakeRead)
  | readWait n =>
    simp only [hpc] at hs
    split at hs
    · split at hs
      · cases hs
        exact release_rule (by rw [hpc]; rfl) (by rw [hpc]; rfl) rfl rfl (fun _ => Or.inl rfl)
      · cases hs
        exact release_rule (by rw [hpc]; rfl) (by rw [hpc]; rfl) rfl rfl (fun _ => Or.inl rfl)
    · cases hs
      exact .start hpc
  | readCopy n i =>
    simp only [hpc] at hs
    split at hs
    · rename_i h
      cases hs
      exact .take hpc h.2
    · cases hs
      exact .leave (by rw [hpc]; rfl) (by rw [hpc]; rfl) (Or.inr rfl)
  | readOut n i ch =>
    simp only [hpc] at hs
    split at hs
    · rename_i hout
      cases hs
      exact .deliver hpc hout
    · rename_i hout
      cases hs
      exact .lose hpc (Bool.eq_false_iff.mpr hout)
  | readDone i =>
    simp only [hpc] at hs
    cases hs
    exact release_rule (by rw [hpc]; rfl) (by rw [hpc]; rfl) rfl rfl
      (fun c => (s.pc c).holds_wakeWrite)

/-- Every step of `next` is one of the rules. -/
theorem next_rule (hs : next s l = some s') : Rule s l s' := by
  -- a process that only moves outside the lock
  have hmove : ∀ c p, (∀ c e, l ≠ .go c e) → (p = s.pc c ∨ (s.pc c).holds = false ∧ p.holds = false) →
      Rule s l (s.setPc c p) := by
    intro c p hl hp
    refine .outside hl rfl rfl rfl rfl (fun c' _ => ?_)
    by_cases hc : c' = c
    · rw [hc, show (s.setPc c p).pc c = p from update_self _ _ _]
      exact hp
    · exact Or.inl (update_of_ne hc _ _)
  cases l with
  | write c n | read c n =>
    simp only [next] at hs
    split at hs
    · rename_i hpc
      cases hs
      exact hmove c _ nofun (Or.inr ⟨by rw [hpc]; rfl, rfl⟩)
    · cases hs
  | go c e => exact call_rule hs
  | kill c =>
    cases hs
    refine hmove c _ nofun ?_
    cases s.pc c <;> first | exact Or.inl rfl | exact Or.inr ⟨rfl, rfl⟩
  | close writable =>
    simp only [next] at hs
    split at hs
    · cases hs
      unfold Sys.close
      split
      · exact .outside nofun rfl rfl rfl rfl (fun c _ => (s.pc c).holds_wakeRead)
      · exact .outside nofun rfl rfl rfl rfl (fun c _ => (s.pc c).holds_wakeWrite)
    · cases hs

end Xv6.Pipes
