import Mathlib.Logic.Relation
import Xv6.Process.Scheduler

/-!
# The dispatch protocol

What `scheduler()` and the threads do to each other goes through five
things: the state of each slot, its lock, its thread, and the place and
`c->proc` of each hart.  `Core` is that part of the machine, and `Move` is
what a hart can do to it, with what each kind of change requires.
`Exclusive` is the invariant of the moves.

The move `dispatch`, the store of `RUNNING`, carries the condition under
which the protocol works: the slot is `RUNNABLE` when the hart stores to it.
-/

namespace Xv6.Process

open Function

/-! ## What the places mean for the protocol -/

/-- The slot that a hart runs, or is about to enter or leave. -/
def SchedPc.engaged : SchedPc → Option Slot
  | .dispatched q | .away q | .back q => some q
  | _ => none

/-- The places of `scheduler()` that concern no slot. -/
def SchedPc.idle : SchedPc → Bool
  | .start | .scan _ _ | .scanned _ => true
  | _ => false

/-- The slot whose thread a hart runs. -/
def SchedPc.runs : SchedPc → Option Slot
  | .away q => some q
  | _ => none

/-- The child that the code has allocated and not yet published. -/
def Code.child : Code → Option Slot
  | .forkParent np | .forkPublish np => some np
  | .wakeup _ _ k | .sleepReacquire _ k => k.child
  | _ => none

def Resume.child : Resume → Option Slot
  | .yieldRelease k | .sleepTidy _ k => k.child
  | .forkret | .dead => none

def Thread.child : Thread → Option Slot
  | .code k | .yieldAcquire k | .yieldStore k => k.child
  | .sleepAcquire _ _ k | .sleepRelease _ _ k | .sleepStore _ _ k => k.child
  | .resume r | .sched r => r.child
  | .forkCopy np => some np
  | .exitStore _ | .exitRelease => none

/-- The process lock that a thread of slot `q` holds. -/
def Thread.holds (q : Slot) : Thread → Option Slot
  | .code _ | .yieldAcquire _ | .sleepAcquire _ _ _ => none
  | .forkCopy np => some np
  | .resume _ | .yieldStore _ | .sleepRelease _ _ _ | .sleepStore _ _ _ | .exitStore _
  | .exitRelease | .sched _ => some q

/-- The thread has stored its new state, and is on its way to `swtch`. -/
def Thread.stored : Thread → Bool
  | .exitRelease | .sched _ => true
  | _ => false

/-- The process lock that a hart holds. -/
def SchedPc.holds (thread : Slot → Thread) : SchedPc → Option Slot
  | .locked q | .dispatched q | .back q | .dropping q => some q
  | .away q => (thread q).holds q
  | .start | .scan _ _ | .scanned _ | .tested _ => none

/-! ## The moves -/

/-- The part of the machine that the protocol is about. -/
structure Core where
  state : Slot → ProcState
  thread : Slot → Thread
  pc : Cpu → SchedPc
  current : Cpu → Option Slot
  lock : Slot → Option Cpu

/-- The core of the machine. -/
def Sys.core (s : Sys) : Core where
  state q := (s.procs q).state
  thread := s.thread
  pc := s.pc
  current := s.current
  lock q := s.lock (.proc q)

/-- What one hart can do to the core. -/
inductive Move (x : Core) : Core → Prop
  | idle {c : Cpu} {p : SchedPc} : (x.pc c).idle = true → p.idle = true →
      Move x { x with pc := update x.pc c p }
  | test {c : Cpu} {q : Slot} : (x.pc c).idle = true →
      Move x { x with pc := update x.pc c (.tested q) }
  | lock {c : Cpu} {q : Slot} : x.pc c = .tested q → x.lock q = none →
      Move x { x with
        pc := update x.pc c (.locked q)
        lock := update x.lock q (some c) }
  | dispatch {c : Cpu} {q : Slot} : x.pc c = .locked q → x.state q = .runnable →
      Move x { x with
        state := update x.state q .running
        current := update x.current c (some q)
        pc := update x.pc c (.dispatched q) }
  | enter {c : Cpu} {q : Slot} : x.pc c = .dispatched q →
      Move x { x with pc := update x.pc c (.away q) }
  | leave {c : Cpu} {q : Slot} {r : Resume} : x.pc c = .away q → x.thread q = .sched r →
      Move x { x with
        thread := update x.thread q (.resume r)
        pc := update x.pc c (.back q) }
  | drop {c : Cpu} {q : Slot} : x.pc c = .back q →
      Move x { x with
        current := update x.current c none
        pc := update x.pc c (.dropping q) }
  | free {c : Cpu} {q : Slot} : x.pc c = .dropping q →
      Move x { x with
        lock := update x.lock q none
        pc := update x.pc c .start }
  /-- The thread goes on, with the lock that it holds. -/
  | run {c : Cpu} {q : Slot} {th : Thread} : x.pc c = .away q →
      th.holds q = (x.thread q).holds q → th.child = (x.thread q).child →
      (x.thread q).stored = th.stored →
      Move x { x with thread := update x.thread q th }
  /-- The thread takes its own lock. -/
  | take {c : Cpu} {q : Slot} {th : Thread} : x.pc c = .away q → x.lock q = none →
      (x.thread q).holds q = none → th.holds q = some q → th.child = (x.thread q).child →
      (x.thread q).stored = false →
      Move x { x with
        thread := update x.thread q th
        lock := update x.lock q (some c) }
  /-- The thread gives its own lock back. -/
  | give {c : Cpu} {q : Slot} {th : Thread} : x.pc c = .away q →
      (x.thread q).holds q = some q → (x.thread q).stored = false →
      th.holds q = none → th.child = (x.thread q).child →
      Move x { x with
        thread := update x.thread q th
        lock := update x.lock q none }
  /-- The thread stores its new state. -/
  | store {c : Cpu} {q : Slot} {th : Thread} (st : ProcState) : x.pc c = .away q →
      (x.thread q).holds q = some q → (x.thread q).stored = false →
      th.holds q = some q → th.stored = true → th.child = (x.thread q).child →
      Move x { x with
        thread := update x.thread q th
        state := update x.state q st }
  /-- Somebody changes a slot under its lock: `wakeup` and `kill` make a
  sleeper `RUNNABLE`, and `wait` frees a zombie. -/
  | poke {i : Slot} (st : ProcState) : x.lock i = none →
      (x.state i = .sleeping ∧ st = .runnable ∨ x.state i = .zombie ∧ st = .unused) →
      Move x { x with state := update x.state i st }
  /-- `allocproc` sets up the context of a slot that is free. -/
  | init {i : Slot} : x.lock i = none → x.state i = .unused →
      Move x { x with thread := update x.thread i (.resume .forkret) }
  /-- `allocproc` takes a slot. -/
  | alloc {c : Cpu} {q i : Slot} : x.pc c = .away q → (x.thread q).holds q = none →
      (x.thread q).stored = false → x.lock i = none → x.state i = .unused →
      Move x { x with
        state := update x.state i .used
        thread := update x.thread q (.forkCopy i)
        lock := update x.lock i (some c) }
  /-- `fork` releases the child, or gives it up. -/
  | child {c : Cpu} {q i : Slot} {st : ProcState} {k : Code} : x.pc c = .away q →
      x.thread q = .forkCopy i →
      (st = .used ∧ k = .forkParent i ∨ st = .unused ∧ k = .run none) →
      Move x { x with
        state := update x.state i st
        thread := update x.thread q (.code k)
        lock := update x.lock i none }
  /-- `fork` makes the child `RUNNABLE`. -/
  | publish {c : Cpu} {q i : Slot} : x.pc c = .away q →
      x.thread q = .code (.forkPublish i) → x.lock i = none →
      Move x { x with
        state := update x.state i .runnable
        thread := update x.thread q (.code (.run none)) }

/-! ## The invariant -/

/-- The invariant of the moves. -/
structure Exclusive (x : Core) : Prop where
  /-- The locks are held by the harts whose place says so. -/
  lock : ∀ c q, x.lock q = some c ↔ (x.pc c).holds x.thread = some q
  current : ∀ c, x.current c = (x.pc c).engaged
  unique : ∀ c c' q, (x.pc c).engaged = some q → (x.pc c').engaged = some q → c = c'
  entering : ∀ c q, x.pc c = .dispatched q → x.state q = .running
  running : ∀ c q, (x.pc c).runs = some q → (x.thread q).stored = true ∨ x.state q = .running
  suspended : ∀ q, (∃ c, (x.pc c).runs = some q) ∨ ∃ r, x.thread q = .resume r
  child : ∀ p np, (x.thread p).child = some np → x.state np = .used
  parent : ∀ p p' np, (x.thread p).child = some np → (x.thread p').child = some np → p = p'

variable {x y : Core}

/-! ## Hart moves -/

variable {th : Thread} {q i : Slot} {p : SchedPc} {c : Cpu} {st : ProcState}

/-- A thread on its way to `swtch` holds its own lock. -/
theorem Thread.holds_of_stored (h : th.stored = true) : th.holds q = some q := by
  cases th <;> first | rfl | exact absurd h Bool.false_ne_true

/-- A place that concerns no slot. -/
theorem SchedPc.of_idle (h : p.idle = true) (thread : Slot → Thread) :
    p.holds thread = none ∧ p.engaged = none ∧ p.runs = none := by
  cases p with
  | start | scan slots best | scanned best => exact ⟨rfl, rfl, rfl⟩
  | tested q | locked q | dispatched q | away q | back q | dropping q =>
    exact absurd h Bool.false_ne_true

/-- A hart that runs a slot is engaged with it. -/
theorem SchedPc.engaged_of_runs (h : p.runs = some q) : p = .away q ∧ p.engaged = some q := by
  cases p <;> simp_all [SchedPc.runs, SchedPc.engaged]

/-- The parts of the invariant that a hart move changes.  The thread, the
child and the parent parts are as before. -/
theorem Exclusive.of_pc (h : Exclusive x) {lock : Slot → Option Cpu} {current : Cpu → Option Slot}
    (hold : (x.pc c).runs = none ∨ (x.pc c).runs = p.runs)
    (hlock : ∀ c' q, lock q = some c' ↔ (update x.pc c p c').holds x.thread = some q)
    (hcurrent : ∀ c', current c' = (update x.pc c p c').engaged)
    (hengaged : ∀ q, p.engaged = some q → ∀ c', c' ≠ c → (x.pc c').engaged ≠ some q)
    (hentering : ∀ q, p = .dispatched q → x.state q = .running)
    (hruns : ∀ q, p.runs = some q → (x.thread q).stored = true ∨ x.state q = .running) :
    Exclusive { x with pc := update x.pc c p, lock := lock, current := current } := by
  refine ⟨hlock, hcurrent, ?_, ?_, ?_, ?_, h.child, h.parent⟩ <;> dsimp only
  · intro c1 c2 q h1 h2
    by_cases hc1 : c1 = c <;> by_cases hc2 : c2 = c
    · rw [hc1, hc2]
    · rw [hc1, update_self] at h1
      rw [update_of_ne hc2] at h2
      exact absurd h2 (hengaged q h1 c2 hc2)
    · rw [hc2, update_self] at h2
      rw [update_of_ne hc1] at h1
      exact absurd h1 (hengaged q h2 c1 hc1)
    · rw [update_of_ne hc1] at h1
      rw [update_of_ne hc2] at h2
      exact h.unique c1 c2 q h1 h2
  · intro c' q hc'
    by_cases hc : c' = c
    · exact hentering q (by simpa [hc] using hc')
    · exact h.entering c' q (by simpa [hc] using hc')
  · intro c' q hc'
    by_cases hc : c' = c
    · exact hruns q (by simpa [hc] using hc')
    · exact h.running c' q (by simpa [hc] using hc')
  · intro q
    rcases h.suspended q with ⟨c', hc'⟩ | hr
    · left
      refine ⟨c', ?_⟩
      by_cases hc : c' = c
      · subst hc
        rcases hold with hnone | hsame
        · rw [hnone] at hc'
          exact absurd hc' (by simp)
        · simpa [← hsame] using hc'
      · simpa [hc] using hc'
    · exact Or.inr hr

/-- A hart that is engaged with a slot holds its lock, or the slot is
`RUNNING`. -/
theorem Exclusive.engaged_cases (h : Exclusive x) (hc : (x.pc c).engaged = some q) :
    x.lock q = some c ∨ x.state q = .running := by
  cases hpc : x.pc c with
  | dispatched q' | back q' =>
    rw [hpc] at hc
    left
    rw [h.lock, hpc]
    exact hc
  | away q' =>
    rw [hpc] at hc
    obtain rfl : q' = q := Option.some.inj hc
    rcases h.running c q' (by rw [hpc]; rfl) with hst | hrun
    · left
      rw [h.lock, hpc]
      exact Thread.holds_of_stored hst
    · exact Or.inr hrun
  | start | scan slots best | scanned best | tested q' | locked q' | dropping q' =>
    rw [hpc] at hc
    exact absurd hc (by simp [SchedPc.engaged])

/-- A hart that is about to enter a slot holds its lock. -/
theorem Exclusive.lock_entering (h : Exclusive x) (hpc : x.pc c = .dispatched q) :
    x.lock q = some c := by
  rw [h.lock, hpc]
  rfl

/-- Nobody runs a slot that is not `RUNNING`, or is about to enter it,
except the hart that holds its lock. -/
theorem Exclusive.alone (h : Exclusive x) (hrun : x.state i ≠ .running) (hl : x.lock i ≠ some c) :
    x.pc c ≠ .dispatched i ∧ (x.pc c).runs ≠ some i := by
  constructor
  · intro he
    exact hl (h.lock_entering he)
  · intro hr
    rcases h.engaged_cases (SchedPc.engaged_of_runs hr).2 with hc | hc
    · exact hl hc
    · exact hrun hc

/-- The state of a slot may change when no hart is about to enter it, a
thread of it that runs has stored its state, and it is no child that waits
to be published. -/
theorem Exclusive.of_state (h : Exclusive x) (hentering : ∀ c, x.pc c ≠ .dispatched i)
    (hruns : ∀ c, (x.pc c).runs = some i → (x.thread i).stored = true)
    (hchild : ∀ p, (x.thread p).child ≠ some i) :
    Exclusive { x with state := update x.state i st } := by
  refine ⟨h.lock, h.current, h.unique, ?_, ?_, h.suspended, ?_, h.parent⟩ <;> dsimp only
  · intro c q he
    have hq : q ≠ i := fun hq => hentering c (hq ▸ he)
    rw [update_of_ne hq]
    exact h.entering c q he
  · intro c q hr
    by_cases hq : q = i
    · exact Or.inl (hq ▸ hruns c (hq ▸ hr))
    · rw [update_of_ne hq]
      exact h.running c q hr
  · intro p np hp
    have hnp : np ≠ i := fun he => hchild p (he ▸ hp)
    rw [update_of_ne hnp]
    exact h.child p np hp

/-- A slot that is not `USED` is nobody's child. -/
theorem Exclusive.not_child (h : Exclusive x) (hi : x.state i ≠ .used) (p : Slot) :
    (x.thread p).child ≠ some i := by
  intro hp
  exact hi (h.child p i hp)

/-- The store of `RUNNING`.  The slot was `RUNNABLE` and its lock is held,
so nobody else is engaged with it. -/
theorem move_dispatch (h : Exclusive x) (hpc : x.pc c = .locked q) (hready : x.state q = .runnable)
    :
    Exclusive { x with
      state := update x.state q .running
      current := update x.current c (some q)
      pc := update x.pc c (.dispatched q) } := by
  have hmine : x.lock q = some c := (h.lock c q).mpr (by rw [hpc]; rfl)
  have halone : ∀ c', (x.pc c').engaged ≠ some q := by
    intro c' he
    rcases h.engaged_cases he with hl | hr
    · obtain rfl : c = c' := Option.some.inj (hmine.symm.trans hl)
      rw [hpc] at he
      exact absurd he (by simp [SchedPc.engaged])
    · rw [hready] at hr
      exact absurd hr (by decide)
  have hstate : Exclusive { x with state := update x.state q .running } := by
    refine h.of_state ?_ ?_ (h.not_child (by rw [hready]; decide))
    · intro c' he
      exact halone c' (by rw [he]; rfl)
    · intro c' hr
      exact absurd (SchedPc.engaged_of_runs hr).2 (halone c')
  refine hstate.of_pc (Or.inl (by dsimp only; rw [hpc]; rfl)) ?_ ?_ ?_ ?_ ?_
  · have hlock := h.lock
    grind [update_apply, SchedPc.holds]
  · have hcurrent := h.current
    grind [update_apply, SchedPc.engaged]
  · intro q' hq' c' _
    rw [← Option.some.inj hq']
    exact halone c'
  · intro q' hq'
    cases hq'
    exact update_self ..
  · intro q' hq'
    exact absurd hq' (by simp [SchedPc.runs])

/-- `swtch` into a thread that was suspended. -/
theorem move_enter (h : Exclusive x) (hpc : x.pc c = .dispatched q) :
    Exclusive { x with pc := update x.pc c (.away q) } := by
  have hme : (x.pc c).engaged = some q := by rw [hpc]; rfl
  have hrun : x.state q = .running := h.entering c q hpc
  obtain ⟨r, hr⟩ : ∃ r, x.thread q = .resume r := by
    rcases h.suspended q with ⟨c', hc'⟩ | hr
    · obtain ⟨haway, he⟩ := SchedPc.engaged_of_runs hc'
      rw [h.unique c' c q he hme, hpc] at haway
      exact absurd haway (by simp)
    · exact hr
  have hholds : (SchedPc.away q).holds x.thread = some q := by
    rw [SchedPc.holds, hr]
    rfl
  have hlock := h.lock
  have hcurrent := h.current
  refine h.of_pc (Or.inl (by rw [hpc]; rfl)) ?_ ?_ ?_ ?_ ?_
  · have hmine : (x.pc c).holds x.thread = some q := by rw [hpc]; rfl
    grind [update_apply]
  · grind [update_apply, SchedPc.engaged]
  · intro q' hq' c' hc he
    rw [← Option.some.inj hq'] at he
    exact hc (h.unique c' c q he hme)
  · intro q' hq'
    exact absurd hq' (by simp)
  · intro q' hq'
    rw [← Option.some.inj hq']
    exact Or.inr hrun

/-! ## Thread moves -/

/-- Who holds a lock says only the thread of the slot that a hart runs. -/
theorem SchedPc.holds_update_of_ne (h : p.runs ≠ some i) (thread : Slot → Thread) (th : Thread) :
    p.holds (update thread i th) = p.holds thread := by
  cases p with
  | away q =>
    have hne : q ≠ i := fun he => h (congrArg some he)
    rw [SchedPc.holds, update_of_ne hne, SchedPc.holds]
  | start | scan slots best | scanned best | tested q | locked q | dispatched q | back q
  | dropping q => rfl

/-- Only hart `c` runs the thread of `q`. -/
theorem Exclusive.holds_update (h : Exclusive x) (hpc : x.pc c = .away q) (th : Thread) (c' : Cpu) :
    (x.pc c').holds (update x.thread q th) =
      if c' = c then th.holds q else (x.pc c').holds x.thread := by
  by_cases hc : c' = c
  · rw [if_pos hc, hc, hpc, SchedPc.holds, update_self]
  · rw [if_neg hc]
    refine SchedPc.holds_update_of_ne ?_ x.thread th
    intro hr
    exact hc (h.unique c' c q (SchedPc.engaged_of_runs hr).2 (by rw [hpc]; rfl))

/-- The parts of the invariant that a move of the thread of `q` changes. -/
theorem Exclusive.of_thread (h : Exclusive x) (hpc : x.pc c = .away q) {lock : Slot → Option Cpu}
    (hlock : ∀ c' i, lock i = some c' ↔
      (if c' = c then th.holds q else (x.pc c').holds x.thread) = some i)
    (hself : th.stored = true ∨ x.state q = .running) (hchild : ∀ np, th.child = some np →
      x.state np = .used ∧ ∀ p, p ≠ q → (x.thread p).child ≠ some np) :
    Exclusive { x with thread := update x.thread q th, lock := lock } := by
  refine ⟨?_, h.current, h.unique, h.entering, ?_, ?_, ?_, ?_⟩ <;> dsimp only
  · intro c' i
    rw [h.holds_update hpc]
    exact hlock c' i
  · intro c' i hi
    by_cases hq : i = q
    · rw [hq, update_self]
      exact hself
    · rw [update_of_ne hq]
      exact h.running c' i hi
  · intro i
    by_cases hq : i = q
    · exact Or.inl ⟨c, by rw [hpc, hq]; rfl⟩
    · rw [update_of_ne hq]
      exact h.suspended i
  · intro p np hp
    by_cases hq : p = q
    · rw [hq, update_self] at hp
      exact (hchild np hp).1
    · rw [update_of_ne hq] at hp
      exact h.child p np hp
  · intro p p' np hp hp'
    by_cases hq : p = q <;> by_cases hq' : p' = q
    · rw [hq, hq']
    · rw [hq, update_self] at hp
      rw [update_of_ne hq'] at hp'
      exact absurd hp' ((hchild np hp).2 p' hq')
    · rw [hq', update_self] at hp'
      rw [update_of_ne hq] at hp
      exact absurd hp ((hchild np hp').2 p hq)
    · rw [update_of_ne hq] at hp
      rw [update_of_ne hq'] at hp'
      exact h.parent p p' np hp hp'

/-- A thread that keeps its child. -/
theorem Exclusive.own_child (h : Exclusive x) (hchild : th.child = (x.thread q).child) (np : Slot)
    (hnp : th.child = some np) :
    x.state np = .used ∧ ∀ p, p ≠ q → (x.thread p).child ≠ some np := by
  rw [hchild] at hnp
  refine ⟨h.child q np hnp, ?_⟩
  intro p hp he
  exact hp (h.parent p q np he hnp)

/-- The lock that the running thread holds, as the lock table has it. -/
theorem Exclusive.lock_away (h : Exclusive x) (hpc : x.pc c = .away q) (i : Slot) :
    x.lock i = some c ↔ (x.thread q).holds q = some i := by
  rw [h.lock, hpc]
  rfl

/-- A thread that has not stored a new state is `RUNNING`. -/
theorem Exclusive.running_away (h : Exclusive x) (hpc : x.pc c = .away q)
    (hst : (x.thread q).stored = false) : x.state q = .running := by
  rcases h.running c q (by rw [hpc]; rfl) with hs | hr
  · rw [hst] at hs
    exact absurd hs Bool.false_ne_true
  · exact hr

theorem move_store (st : ProcState) (h : Exclusive x) (hpc : x.pc c = .away q)
    (hown : (x.thread q).holds q = some q) (hst : (x.thread q).stored = false)
    (hholds : th.holds q = some q) (hstored : th.stored = true)
    (hchild : th.child = (x.thread q).child) : Exclusive { x with
      thread := update x.thread q th
      state := update x.state q st } := by
  have hmine : x.lock q = some c := (h.lock_away hpc q).mpr hown
  have hthread : Exclusive { x with thread := update x.thread q th } := by
    refine h.of_thread hpc ?_ (Or.inl hstored) (h.own_child hchild)
    have hlock := h.lock
    have haway := h.lock_away hpc
    grind
  refine hthread.of_state ?_ ?_ (hthread.not_child ?_)
  · intro c' he
    obtain rfl : c = c' := Option.some.inj (hmine.symm.trans (h.lock_entering he))
    rw [hpc] at he
    exact absurd he (by simp)
  · intro c' _
    dsimp only
    rw [update_self]
    exact hstored
  · rw [h.running_away hpc hst]
    decide

theorem move_poke (st : ProcState) (h : Exclusive x) (hfree : x.lock i = none)
    (hst : x.state i = .sleeping ∧ st = .runnable ∨ x.state i = .zombie ∧ st = .unused) :
    Exclusive { x with state := update x.state i st } := by
  have halone : ∀ c, x.pc c ≠ .dispatched i ∧ (x.pc c).runs ≠ some i := by
    intro c
    refine h.alone ?_ (by rw [hfree]; simp)
    grind
  refine h.of_state (fun c => (halone c).1) ?_ (h.not_child (by grind))
  intro c hr
  exact absurd hr (halone c).2

theorem move_init (h : Exclusive x) (hfree : x.lock i = none) (hst : x.state i = .unused) :
    Exclusive { x with thread := update x.thread i (.resume .forkret) } := by
  have hruns : ∀ c, (x.pc c).runs ≠ some i := by
    intro c
    exact (h.alone (by rw [hst]; decide) (by rw [hfree]; simp)).2
  refine ⟨?_, h.current, h.unique, h.entering, ?_, ?_, ?_, ?_⟩ <;> dsimp only
  · intro c q
    rw [SchedPc.holds_update_of_ne (hruns c)]
    exact h.lock c q
  · intro c q hr
    have hq : q ≠ i := fun he => hruns c (he ▸ hr)
    rw [update_of_ne hq]
    exact h.running c q hr
  · intro q
    by_cases hq : q = i
    · exact Or.inr ⟨.forkret, by rw [hq, update_self]⟩
    · rw [update_of_ne hq]
      exact h.suspended q
  · intro p np hp
    by_cases hq : p = i
    · rw [hq, update_self] at hp
      exact absurd hp (by simp [Thread.child, Resume.child])
    · rw [update_of_ne hq] at hp
      exact h.child p np hp
  · intro p p' np hp hp'
    have hne : ∀ j, (update x.thread i (.resume .forkret) j).child = some np →
        (x.thread j).child = some np := by
      intro j hj
      by_cases hq : j = i
      · rw [hq, update_self] at hj
        exact absurd hj (by simp [Thread.child, Resume.child])
      · rwa [update_of_ne hq] at hj
    exact h.parent p p' np (hne p hp) (hne p' hp')

/-- The state of a slot that `fork` works on may change when the slot is
nobody's child: no hart but that of the parent is concerned with it. -/
theorem Exclusive.of_fork (h : Exclusive x) (hpc : x.pc c = .away q) (hrun : x.state q = .running)
    (hi : x.state i = .unused ∨ x.state i = .used) (hl : ∀ c', c' ≠ c → x.lock i ≠ some c')
    (hchild : ∀ p, (x.thread p).child ≠ some i) :
    Exclusive { x with state := update x.state i st } := by
  have halone : ∀ c', x.pc c' ≠ .dispatched i ∧ (x.pc c').runs ≠ some i := by
    intro c'
    by_cases hc : c' = c
    · rw [hc, hpc]
      refine ⟨by simp, ?_⟩
      intro he
      rw [Option.some.inj he] at hrun
      grind
    · refine h.alone ?_ (hl c' hc)
      grind
  refine h.of_state (fun c' => (halone c').1) ?_ hchild
  intro c' hr
  exact absurd hr (halone c').2

theorem move_alloc (h : Exclusive x) (hpc : x.pc c = .away q) (hnone : (x.thread q).holds q = none)
    (hst : (x.thread q).stored = false) (hfree : x.lock i = none) (hi : x.state i = .unused) :
    Exclusive { x with
      state := update x.state i .used
      thread := update x.thread q (.forkCopy i)
      lock := update x.lock i (some c) } := by
  have hnobody := h.not_child (i := i) (by rw [hi]; decide)
  have hstate : Exclusive { x with state := update x.state i .used } :=
    h.of_fork hpc (h.running_away hpc hst) (Or.inl hi) (fun c' _ => by rw [hfree]; simp) hnobody
  refine hstate.of_thread hpc ?_ (Or.inr (hstate.running_away hpc hst)) ?_
  · have hlock := h.lock
    have haway := h.lock_away hpc
    have hholds : (Thread.forkCopy i).holds q = some i := rfl
    grind [update_apply]
  · intro np hnp
    obtain rfl : i = np := Option.some.inj hnp
    exact ⟨update_self .., fun p _ => hnobody p⟩

/-- The child of a thread that gives it up is nobody's child. -/
theorem Exclusive.no_child (h : Exclusive x) (hchild : (x.thread q).child = some i)
    (hnone : th.child = none) (p : Slot) : (update x.thread q th p).child ≠ some i := by
  intro he
  by_cases hp : p = q
  · rw [hp, update_self, hnone] at he
    exact absurd he (by simp)
  · rw [update_of_ne hp] at he
    exact hp (h.parent p q i he hchild)

theorem move_child {k : Code} (h : Exclusive x) (hpc : x.pc c = .away q)
    (hth : x.thread q = .forkCopy i)
    (hk : st = .used ∧ k = .forkParent i ∨ st = .unused ∧ k = .run none) : Exclusive { x with
      state := update x.state i st
      thread := update x.thread q (.code k)
      lock := update x.lock i none } := by
  have hchild : (x.thread q).child = some i := by rw [hth]; rfl
  have hused := h.child q i hchild
  have hmine : x.lock i = some c := (h.lock_away hpc i).mpr (by rw [hth]; rfl)
  have hrun := h.running_away hpc (by rw [hth]; rfl)
  have hthread : Exclusive { x with
      thread := update x.thread q (.code k), lock := update x.lock i none } := by
    refine h.of_thread hpc ?_ (Or.inr hrun) ?_
    · have hlock := h.lock
      have haway := h.lock_away hpc
      have hold : (x.thread q).holds q = some i := by rw [hth]; rfl
      have hnew : (Thread.code k).holds q = none := rfl
      grind [update_apply]
    · rcases hk with ⟨_, rfl⟩ | ⟨_, rfl⟩
      · exact h.own_child hchild.symm
      · intro np hnp
        exact absurd hnp (by simp [Thread.child, Code.child])
  rcases hk with ⟨rfl, rfl⟩ | ⟨rfl, rfl⟩
  · rw [update_eq_self_iff.mpr hused.symm]
    exact hthread
  · refine hthread.of_fork hpc hrun (Or.inr hused) ?_ (h.no_child hchild rfl)
    intro c' _
    dsimp only
    rw [update_self]
    simp

theorem move_publish (h : Exclusive x) (hpc : x.pc c = .away q)
    (hth : x.thread q = .code (.forkPublish i)) (hfree : x.lock i = none) : Exclusive { x with
      state := update x.state i .runnable
      thread := update x.thread q (.code (.run none)) } := by
  have hchild : (x.thread q).child = some i := by rw [hth]; rfl
  have hrun := h.running_away hpc (by rw [hth]; rfl)
  have hthread : Exclusive { x with thread := update x.thread q (.code (.run none)) } := by
    refine h.of_thread hpc ?_ (Or.inr hrun) ?_
    · have hlock := h.lock
      have haway := h.lock_away hpc
      have hold : (x.thread q).holds q = none := by rw [hth]; rfl
      have hnew : (Thread.code (.run none)).holds q = none := rfl
      grind
    · intro np hnp
      exact absurd hnp (by simp [Thread.child, Code.child])
  refine hthread.of_fork hpc hrun (Or.inr (h.child q i hchild)) ?_ (h.no_child hchild rfl)
  intro c' _
  rw [hfree]
  simp

/-- `swtch` back to `scheduler()`. -/
theorem move_leave {r : Resume} (h : Exclusive x) (hpc : x.pc c = .away q)
    (hth : x.thread q = .sched r) : Exclusive { x with
      thread := update x.thread q (.resume r)
      pc := update x.pc c (.back q) } := by
  have hmine : x.lock q = some c := (h.lock_away hpc q).mpr (by rw [hth]; rfl)
  have hchild : ∀ p, (update x.thread q (.resume r) p).child = (x.thread p).child := by
    intro p
    by_cases hp : p = q
    · rw [hp, update_self, hth]
      rfl
    · rw [update_of_ne hp]
  have hruns : ∀ c' i, c' ≠ c → (x.pc c').runs = some i → i ≠ q := by
    intro c' i hc hr he
    refine hc (h.unique c' c q ?_ (by rw [hpc]; rfl))
    rw [← he]
    exact (SchedPc.engaged_of_runs hr).2
  refine ⟨?_, ?_, ?_, ?_, ?_, ?_, ?_, ?_⟩ <;> dsimp only
  · intro c' i
    have hupd := h.holds_update hpc (.resume r) c'
    have hlock := h.lock c' i
    have hown : (Thread.sched r).holds q = some q := rfl
    have haway := h.lock_away hpc i
    rw [hth] at haway
    have hnew : (SchedPc.back q).holds (update x.thread q (.resume r)) = some q := rfl
    grind [update_apply]
  · have hcurrent := h.current
    grind [update_apply, SchedPc.engaged]
  · have hunique := h.unique
    grind [update_apply, SchedPc.engaged]
  · have hentering := h.entering
    grind [update_apply]
  · intro c' i hr
    by_cases hc : c' = c
    · rw [hc, update_self] at hr
      exact absurd hr (by simp [SchedPc.runs])
    · rw [update_of_ne hc] at hr
      rw [update_of_ne (hruns c' i hc hr)]
      exact h.running c' i hr
  · intro i
    by_cases hi : i = q
    · exact Or.inr ⟨r, by rw [hi, update_self]⟩
    · rw [update_of_ne hi]
      rcases h.suspended i with ⟨c', hc'⟩ | hr
      · left
        refine ⟨c', ?_⟩
        have hc : c' ≠ c := by
          intro he
          rw [he, hpc] at hc'
          exact hi (Option.some.inj hc').symm
        rw [update_of_ne hc]
        exact hc'
      · exact Or.inr hr
  · intro p np hp
    rw [hchild] at hp
    exact h.child p np hp
  · intro p p' np hp hp'
    rw [hchild] at hp hp'
    exact h.parent p p' np hp hp'

/-! ## The machine -/

/-- A thread of the machine that has not stored a new state is `RUNNING`. -/
theorem Exclusive.running_at {s : Sys} (hx : Exclusive s.core) (hpc : s.pc c = .away q)
    (hth : s.thread q = th) (hst : th.stored = false) : (s.procs q).state = .running := by
  subst hth
  exact hx.running_away hpc hst

/-- The child of a thread of the machine is `USED`. -/
theorem Exclusive.child_used {s : Sys} (hx : Exclusive s.core) (hth : s.thread q = th)
    (hchild : th.child = some i) : (s.procs i).state = .used := by
  subst hth
  exact hx.child q i hchild

/-! ## Every move -/

/-- Every move keeps the invariant. -/
theorem Move.exclusive (h : Exclusive x) (hm : Move x y) : Exclusive y := by
  have hlock := h.lock
  have hcurrent := h.current
  cases hm with
  | idle hidle hp =>
    have a := SchedPc.of_idle hidle x.thread
    have b := SchedPc.of_idle hp x.thread
    refine h.of_pc (Or.inl a.2.2) ?_ ?_ ?_ ?_ ?_ <;>
      grind [update_apply, SchedPc.idle]
  | test hidle =>
    have a := SchedPc.of_idle hidle x.thread
    refine h.of_pc (Or.inl a.2.2) ?_ ?_ ?_ ?_ ?_ <;>
      grind [update_apply, SchedPc.holds, SchedPc.engaged, SchedPc.runs]
  | lock hpc hfree =>
    refine h.of_pc (Or.inl (by rw [hpc]; rfl)) ?_ ?_ ?_ ?_ ?_ <;>
      grind [update_apply, SchedPc.holds, SchedPc.engaged, SchedPc.runs]
  | dispatch hpc hready => exact move_dispatch h hpc hready
  | enter hpc => exact move_enter h hpc
  | leave hpc hth => exact move_leave h hpc hth
  | drop hpc =>
    refine h.of_pc (Or.inl (by rw [hpc]; rfl)) ?_ ?_ ?_ ?_ ?_ <;>
      grind [update_apply, SchedPc.holds, SchedPc.engaged, SchedPc.runs]
  | @free c q hpc =>
    have hmine : x.lock q = some c := (h.lock c q).mpr (by rw [hpc]; rfl)
    refine h.of_pc (Or.inl (by rw [hpc]; rfl)) ?_ ?_ ?_ ?_ ?_ <;>
      grind [update_apply, SchedPc.holds, SchedPc.engaged, SchedPc.runs]
  | @run c q th hpc hholds hchild hst =>
    have haway := h.lock_away hpc
    refine h.of_thread hpc (by grind) ?_ (h.own_child hchild)
    rw [← hst]
    exact h.running c q (by rw [hpc]; rfl)
  | take hpc hfree hnone hholds hchild hst =>
    refine h.of_thread hpc ?_ (Or.inr (h.running_away hpc hst)) (h.own_child hchild)
    have haway := h.lock_away hpc
    grind [update_apply]
  | @give c q th hpc hown hst hholds hchild =>
    refine h.of_thread hpc ?_ (Or.inr (h.running_away hpc hst)) (h.own_child hchild)
    have haway := h.lock_away hpc
    have hmine := (haway q).mpr hown
    grind [update_apply]
  | store st h1 h2 h3 h4 h5 h6 => exact move_store st h h1 h2 h3 h4 h5 h6
  | poke st h1 h2 => exact move_poke st h h1 h2
  | init h1 h2 => exact move_init h h1 h2
  | alloc h1 h2 h3 h4 h5 => exact move_alloc h h1 h2 h3 h4 h5
  | child h1 h2 h3 => exact move_child h h1 h2 h3
  | publish h1 h2 h3 => exact move_publish h h1 h2 h3

/-- Any number of moves. -/
theorem exclusive_of_moves (h : Exclusive x) (hm : Relation.ReflTransGen Move x y) :
    Exclusive y := by
  induction hm with
  | refl => exact h
  | tail _ hlast ih => exact hlast.exclusive ih

end Xv6.Process
