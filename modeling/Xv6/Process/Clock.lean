import Xv6.Process.Dispatch

/-!
# Time accounting

`update_time` adds each tick to one of three counters of a process:
`RTime` while it is `RUNNING`, `STime` while it is `SLEEPING`, `WTime` while
it is `RUNNABLE`.  `allocproc` sets the counters to 0 and stores `ctime`,
`exit` stores `etime`, and `waitx` reports `etime - ctime - RTime`.

Here one `clockintr` is one step: `nextClock` is the machine of `Scheduler`
with `ticks++` and `update_time` in a single step.  `Ages` is the history
that the accounts are compared with.  It counts the ticks without a bound,
and it counts the ticks that a process spends `USED`.

The accounts are exact as long as a `ZOMBIE` stays one until it is reaped.
A hart that tested a process before it exited and locks it afterwards makes
it `RUNNING` again, and the ticks in between are in no counter.
-/

namespace Xv6.Process

open Xv6.Lib

/-- `ticks++` and `update_time`. -/
def Sys.clock (s : Sys) : Sys :=
  { s with ticks := s.ticks + 1, procs := fun i => (s.procs i).tick }

/-- Whether the step is a `clockintr`. -/
def ticking (s : Sys) : Step → Bool
  | .irq c _ =>
      match s.irq c with
      | some .clockintr => true
      | _ => false
  | _ => false

/-- The machine with a `clockintr` in one step. -/
def nextClock (s : Sys) (l : Step) : Option Sys :=
  match ticking s l, l with
  | true, .irq c _ =>
      if s.lock (.cond ticksLock) = none then
        some ((s.clock.setLock (.cond ticksLock) (some c)).setIrq c
          (some (.wakeup (some ticksChan) allSlots true)))
      else none
  | _, l => next s l

/-- The history of the clock and of each slot. -/
structure Ages where
  /-- The ticks since boot. -/
  now : Nat
  /-- The time at which `allocproc` took the slot. -/
  born : Slot → Nat
  /-- The time at which the process became a `ZOMBIE`. -/
  died : Slot → Nat
  /-- The ticks that it spent `USED`. -/
  used : Slot → Nat

/-- The history after a step. -/
def Ages.record (g : Ages) (s : Sys) (l : Step) (s' : Sys) : Ages where
  now := if ticking s l then g.now + 1 else g.now
  born i :=
    if (s.procs i).state = .unused ∧ (s'.procs i).state = .used then g.now else g.born i
  died i :=
    if (s.procs i).state ≠ .zombie ∧ (s'.procs i).state = .zombie then g.now else g.died i
  used i :=
    if (s.procs i).state = .unused ∧ (s'.procs i).state = .used then 0
    else if ticking s l ∧ (s.procs i).state = .used then g.used i + 1
    else g.used i

/-- The history at boot. -/
def Ages.start : Ages := ⟨0, fun _ => 0, fun _ => 0, fun _ => 0⟩

/-- The length of the life of the process in slot `i`. -/
def Ages.life (g : Ages) (s : Sys) (i : Slot) : Nat :=
  if (s.procs i).state = .zombie then g.died i - g.born i else g.now - g.born i

/-- `ticks - ctime`, with `etime` in place of `ticks` for a `ZOMBIE`. -/
def Proc.elapsed (p : Proc) (ticks : UInt32) : UInt32 :=
  if p.state = .zombie then p.etime - p.ctime else ticks - p.ctime

/-- `*wtime` of `waitx`. -/
def Proc.wtime (p : Proc) : UInt32 := p.etime - p.ctime - p.rTime

/-! ## Steps of the machine -/

variable {s s' : Sys} {l : Step} {i : Slot} {p : Proc} {g : Ages}

theorem irq_of_ticking (h : ticking s l = true) : ∃ c chan, l = .irq c chan := by
  cases l with
  | irq c chan => exact ⟨c, chan, rfl⟩
  | sched | thread | trap => cases h

/-- A step of `nextClock` is a tick, or a step of the machine that is not
one. -/
theorem nextClock_cases (h : nextClock s l = some s') :
    (∃ c chan, l = .irq c chan ∧ s.irq c = some .clockintr ∧ ticking s l = true ∧
      s' = (s.clock.setLock (.cond ticksLock) (some c)).setIrq c
        (some (.wakeup (some ticksChan) allSlots true))) ∨
      ticking s l = false ∧ Rule s l s' := by
  unfold nextClock at h
  split at h
  · rename_i c chan htick
    split at h
    · cases h
      refine Or.inl ⟨c, chan, rfl, ?_, htick, rfl⟩
      simp only [ticking] at htick
      split at htick
      · assumption
      · cases htick
    · cases h
  · rename_i hno
    refine Or.inr ⟨?_, next_rule h⟩
    by_contra htick
    rw [Bool.not_eq_false] at htick
    obtain ⟨c, chan, hl⟩ := irq_of_ticking htick
    exact hno c chan htick hl

/-- No hart is inside `update_time`. -/
def NoUpdate (s : Sys) : Prop := ∀ c slots, s.irq c ≠ some (.updateTime slots)

theorem NoUpdate.set (h : NoUpdate s) (hs : s'.irq = s.irq) : NoUpdate s' := by
  intro c slots
  rw [hs]
  exact h c slots

theorem NoUpdate.setIrq {c : Cpu} {r : Option Irq} (h : NoUpdate s)
    (hs : s'.irq = Function.update s.irq c r) (hr : ∀ slots, r ≠ some (.updateTime slots)) :
    NoUpdate s' := by
  intro c' slots
  rw [hs]
  by_cases hc : c' = c
  · rw [hc, Function.update_self]
    exact hr slots
  · rw [Function.update_of_ne hc]
    exact h c' slots

theorem NoUpdate.step (h : NoUpdate s) (hs : nextClock s l = some s') : NoUpdate s' := by
  rcases nextClock_cases hs with ⟨c, chan, _, _, _, rfl⟩ | ⟨htick, hr⟩
  · exact h.setIrq rfl nofun
  · cases hr with
    | sched _ hr => cases hr <;> exact h.set rfl
    | @thread c q a s' _ _ hr =>
      generalize s.thread q = th at hr
      cases hr with
      | code hr => cases hr <;> exact h.set rfl
      | forkret | yieldRelease | sleepTidy | yieldAcquire | yieldStore | sleepAcquire
      | sleepRelease | sleepStore | forkGiveUp | forkCopied | exitStore | exitRelease | leave =>
        exact h.set rfl
    | trap _ hi _ =>
      refine h.setIrq rfl ?_
      rcases hi with rfl | rfl <;> nofun
    | @irq c chan r s' hi hr =>
      cases hr with
      | clockintr _ =>
        simp only [ticking, hi] at htick
        cases htick
      | tick | ticked => exact absurd hi (h c _)
      | wakeupSkip | wakeup | woken | tickWoken | device | back =>
        exact h.setIrq rfl nofun
      | yield => exact h.setIrq rfl nofun

/-- The core of the machine after a tick. -/
theorem core_clock (s : Sys) : s.clock.core = s.core := by
  refine congrArg (fun t => { s.core with state := t }) ?_
  funext i
  exact Proc.tick_state _

theorem clock_exclusive (h : Exclusive s.core) (hok : ReadyDispatch s l)
    (hs : nextClock s l = some s') : Exclusive s'.core := by
  rcases nextClock_cases hs with ⟨c, _, _, _, _, rfl⟩ | ⟨_, hr⟩
  · rw [core_setIrq, core_setLock_cond, core_clock]
    exact h
  · exact exclusive_of_moves h (hr.moves h hok)

/-! ## What a step does to the accounts of a slot -/

/-- The counters and the two times of a slot. -/
def Proc.times (p : Proc) : UInt32 × UInt32 × UInt32 × UInt32 × UInt32 :=
  (p.rTime, p.sTime, p.wTime, p.ctime, p.etime)

/-- What a step other than a tick does to the accounts. -/
inductive Account (s : Sys) (i : Slot) (p : Proc) : Prop
  | free (h : p.state = .unused)
  | born (hold : (s.procs i).state = .unused) (hnew : p.state = .used)
      (htimes : p.times = (0, 0, 0, s.ticks, 0))
  | died (hold : (s.procs i).state ≠ .unused ∧ (s.procs i).state ≠ .zombie)
      (hnew : p.state = .zombie)
      (htimes : p.times = ((s.procs i).rTime, (s.procs i).sTime, (s.procs i).wTime,
        (s.procs i).ctime, s.ticks))
  | same (hold : (s.procs i).state ≠ .unused)
      (hnew : p.state = .zombie ↔ (s.procs i).state = .zombie)
      (htimes : p.times = (s.procs i).times)

theorem Change.account (hc : Change s i l p) (h : Exclusive s.core) (hok : ReadyDispatch s l)
    (hno : NoUpdate s) : Account s i p := by
  -- a store that leaves the state alone
  have hkeep : ∀ p : Proc, p.state = (s.procs i).state → p.times = (s.procs i).times →
      Account s i p := by
    intro p hstate htimes
    by_cases hfree : (s.procs i).state = .unused
    · exact .free (hstate.trans hfree)
    · exact .same hfree (by rw [hstate]) htimes
  -- a store of a new state into a slot that is alive
  have hmove : ∀ (p : Proc) (st : ProcState), (s.procs i).state = st →
      st ≠ .unused → st ≠ .zombie → p.state ≠ .zombie → p.times = (s.procs i).times →
      Account s i p := by
    rintro p st rfl hused hold hnew htimes
    exact .same hused ⟨fun hz => absurd hz hnew, fun hz => absurd hz hold⟩ htimes
  have hrunning : ∀ c, s.pc c = .away i → (s.thread i).stored = false →
      (s.procs i).state = .running := fun c hpc hst => h.running_away hpc hst
  cases hc with
  | keep | scan | fault | pass | setPriority | adopt | reparent | tidy => exact hkeep _ rfl rfl
  | dispatch hpc => exact hmove _ _ (hok.runnable hpc) nofun nofun nofun rfl
  | wakeup | irqWakeup =>
    rcases Proc.wake_cases (s.procs i) _ with hw | ⟨hsleep, _, hw⟩ <;> rw [hw]
    · exact hkeep _ rfl rfl
    · exact hmove _ _ hsleep nofun nofun nofun rfl
  | kill =>
    rcases Proc.kill_cases (s.procs i) with ⟨_, hk⟩ | ⟨hsleep, hk⟩ <;> rw [hk]
    · exact hkeep _ rfl rfl
    · exact hmove _ _ hsleep nofun nofun nofun rfl
  | alloc hunused => exact .born hunused rfl rfl
  | allocFail => exact .free rfl
  | @publish _ _ q _ hth =>
    exact hmove _ _ (h.child_used hth rfl) nofun nofun nofun rfl
  | giveUp | reap => exact .free rfl
  | yieldStore hpc hth | sleepStore hpc hth =>
    exact hmove _ _ (hrunning _ hpc (by rw [hth]; rfl)) nofun nofun nofun rfl
  | exitStore hpc hth =>
    have hrun := hrunning _ hpc (by rw [hth]; rfl)
    exact .died ⟨by rw [hrun]; decide, by rw [hrun]; decide⟩ rfl rfl
  | tick hirq => exact absurd hirq (hno _ _)

/-! ## The accounts -/

/-- The clock and the times of a slot agree with the history, and the
counters add up to the life of the process. -/
structure Accounted (s : Sys) (g : Ages) (i : Slot) : Prop where
  ctime : (s.procs i).ctime.toNat = g.born i % 2 ^ 32
  etime : (s.procs i).state = .zombie → (s.procs i).etime.toNat = g.died i % 2 ^ 32
  born_le : g.born i ≤ g.now
  died_le : (s.procs i).state = .zombie → g.born i ≤ g.died i
  sum : g.life s i < 2 ^ 32 →
    (s.procs i).rTime.toNat + (s.procs i).sTime.toNat + (s.procs i).wTime.toNat + g.used i =
      g.life s i

/-- The invariant of the clock. -/
structure OnTime (s : Sys) (g : Ages) : Prop where
  ticks : s.ticks.toNat = g.now % 2 ^ 32
  accounted : ∀ i, (s.procs i).state ≠ .unused → Accounted s g i

theorem sub_toNat_of_mod {a b : UInt32} {x y : Nat} (ha : a.toNat = x % 2 ^ 32)
    (hb : b.toNat = y % 2 ^ 32) (hle : y ≤ x) (hlt : x - y < 2 ^ 32) :
    (a - b).toNat = x - y := by
  rw [UInt32.toNat_sub, ha, hb]
  omega

/-- The elapsed time of a process is its life. -/
theorem Accounted.elapsed (h : Accounted s g i) (hticks : s.ticks.toNat = g.now % 2 ^ 32)
    (hlife : g.life s i < 2 ^ 32) : ((s.procs i).elapsed s.ticks).toNat = g.life s i := by
  unfold Proc.elapsed Ages.life at *
  split at hlife
  · rename_i hz
    rw [if_pos hz, if_pos hz]
    exact sub_toNat_of_mod (h.etime hz) h.ctime (h.died_le hz) hlife
  · rename_i hz
    rw [if_neg hz, if_neg hz]
    exact sub_toNat_of_mod hticks h.ctime h.born_le hlife

/-- The clock stands still between two ticks. -/
theorem Rule.ticks (hr : Rule s l s') (htick : ticking s l = false) : s'.ticks = s.ticks := by
  cases hr with
  | sched _ hr => cases hr <;> rfl
  | @thread c q a s' _ _ hr =>
    generalize s.thread q = th at hr
    cases hr with
    | code hr => cases hr <;> rfl
    | forkret | yieldRelease | sleepTidy | yieldAcquire | yieldStore | sleepAcquire
    | sleepRelease | sleepStore | forkGiveUp | forkCopied | exitStore | exitRelease | leave => rfl
  | trap => rfl
  | irq hi hr =>
    cases hr with
    | clockintr =>
      simp only [ticking, hi] at htick
      cases htick
    | tick | ticked | wakeupSkip | wakeup | woken | tickWoken | device | back | yield => rfl

/-- The history of a slot that is neither taken nor left by a step between
two ticks. -/
theorem Ages.record_same (g : Ages) (s' : Sys) (htick : ticking s l = false)
    (hborn : (s.procs i).state ≠ .unused) :
    (g.record s l s').now = g.now ∧ (g.record s l s').born i = g.born i ∧
      (g.record s l s').used i = g.used i := by
  simp [Ages.record, htick, hborn]

/-- A step between two ticks keeps the accounts. -/
theorem Accounted.between (h : (s.procs i).state ≠ .unused → Accounted s g i)
    (hticks : s.ticks.toNat = g.now % 2 ^ 32) (htick : ticking s l = false)
    (ha : Account s i (s'.procs i)) (hlive : (s'.procs i).state ≠ .unused) :
    Accounted s' (g.record s l s') i := by
  cases ha with
  | free hfree => exact absurd hfree hlive
  | born hold hnew htimes =>
    simp only [Proc.times, Prod.mk.injEq] at htimes
    obtain ⟨hr, hs, hw, hc, _⟩ := htimes
    have hz : (s'.procs i).state ≠ .zombie := by
      rw [hnew]
      decide
    have hborn : (g.record s l s').born i = g.now := if_pos ⟨hold, hnew⟩
    have hnow : (g.record s l s').now = g.now := by simp [Ages.record, htick]
    have hused : (g.record s l s').used i = 0 := if_pos ⟨hold, hnew⟩
    have hlife : (g.record s l s').life s' i = 0 := by
      simp [Ages.life, hz, hborn, hnow]
    refine ⟨?_, fun h => absurd h hz, ?_, fun h => absurd h hz, ?_⟩
    · rw [hc, hborn]
      exact hticks
    · rw [hborn, hnow]
    · intro _
      rw [hr, hs, hw, hused, hlife]
      rfl
  | died hold hnew htimes =>
    simp only [Proc.times, Prod.mk.injEq] at htimes
    obtain ⟨hr, hs, hw, hc, he⟩ := htimes
    have h := h hold.1
    obtain ⟨hnow, hborn, hused⟩ := g.record_same s' htick hold.1
    have hdied : (g.record s l s').died i = g.now := if_pos ⟨hold.2, hnew⟩
    have hlife : (g.record s l s').life s' i = g.life s i := by
      rw [Ages.life, Ages.life, if_pos hnew, if_neg hold.2, hdied, hborn]
    refine ⟨?_, fun _ => ?_, ?_, fun _ => ?_, ?_⟩
    · rw [hc, hborn]
      exact h.ctime
    · rw [he, hdied]
      exact hticks
    · rw [hborn, hnow]
      exact h.born_le
    · rw [hborn, hdied]
      exact h.born_le
    · rw [hlife, hr, hs, hw, hused]
      exact h.sum
  | same hold hnew htimes =>
    simp only [Proc.times, Prod.mk.injEq] at htimes
    obtain ⟨hr, hs, hw, hc, he⟩ := htimes
    have h := h hold
    obtain ⟨hnow, hborn, hused⟩ := g.record_same s' htick hold
    have hdied : (g.record s l s').died i = g.died i := by
      refine if_neg ?_
      rintro ⟨hne, hz⟩
      exact hne (hnew.mp hz)
    have hlife : (g.record s l s').life s' i = g.life s i := by
      simp only [Ages.life, hnew, hdied, hborn, hnow]
    refine ⟨?_, fun hz => ?_, ?_, fun hz => ?_, ?_⟩
    · rw [hc, hborn]
      exact h.ctime
    · rw [he, hdied]
      exact h.etime (hnew.mp hz)
    · rw [hborn, hnow]
      exact h.born_le
    · rw [hborn, hdied]
      exact h.died_le (hnew.mp hz)
    · rw [hlife, hr, hs, hw, hused]
      exact h.sum

/-! ## A tick -/

theorem toNat_succ {a : UInt32} (h : a.toNat + 1 < 2 ^ 32) : (a + 1).toNat = a.toNat + 1 := by
  rw [UInt32.toNat_add, show (1 : UInt32).toNat = 1 from rfl]
  omega

/-- The tick is added to one account of a slot. -/
theorem Proc.tick_times (p : Proc) :
    p.tick.ctime = p.ctime ∧ p.tick.etime = p.etime ∧
      (p.state = .running ∧ p.tick.rTime = p.rTime + 1 ∧ p.tick.sTime = p.sTime ∧
          p.tick.wTime = p.wTime ∨
        p.state = .sleeping ∧ p.tick.rTime = p.rTime ∧ p.tick.sTime = p.sTime + 1 ∧
          p.tick.wTime = p.wTime ∨
        p.state = .runnable ∧ p.tick.rTime = p.rTime ∧ p.tick.sTime = p.sTime ∧
          p.tick.wTime = p.wTime + 1 ∨
        (p.state = .used ∨ p.state = .unused ∨ p.state = .zombie) ∧ p.tick = p) := by
  unfold Proc.tick
  cases hp : p.state <;> simp

/-- A tick keeps the accounts. -/
theorem Accounted.tick (h : Accounted s g i) (htick : ticking s l = true)
    (hprocs : s'.procs i = (s.procs i).tick) (hlive : (s.procs i).state ≠ .unused) :
    Accounted s' (g.record s l s') i := by
  have hstate : (s'.procs i).state = (s.procs i).state := by
    rw [hprocs]
    exact Proc.tick_state _
  have hnow : (g.record s l s').now = g.now + 1 := by simp [Ages.record, htick]
  have hborn : (g.record s l s').born i = g.born i := by simp [Ages.record, hlive]
  have hdied : (g.record s l s').died i = g.died i := by
    refine if_neg ?_
    rw [hstate]
    exact fun hz => hz.1 hz.2
  have hused : (g.record s l s').used i =
      if (s.procs i).state = .used then g.used i + 1 else g.used i := by
    simp [Ages.record, htick, hlive]
  obtain ⟨hc, he, hsum⟩ := Proc.tick_times (s.procs i)
  rw [← hprocs] at hc he hsum
  refine ⟨?_, fun hz => ?_, ?_, fun hz => ?_, ?_⟩
  · rw [hc, hborn]
    exact h.ctime
  · rw [he, hdied]
    exact h.etime (hstate ▸ hz)
  · rw [hborn, hnow]
    exact Nat.le_succ_of_le h.born_le
  · rw [hborn, hdied]
    exact h.died_le (hstate ▸ hz)
  · intro hlt
    have hle := h.born_le
    have hold := h.sum
    simp only [Ages.life, hstate, hborn, hdied, hnow] at hlt hold ⊢
    by_cases hz : (s.procs i).state = .zombie
    · rcases hsum with ⟨hs, _⟩ | ⟨hs, _⟩ | ⟨hs, _⟩ | ⟨_, hsame⟩
      · rw [hz] at hs; cases hs
      · rw [hz] at hs; cases hs
      · rw [hz] at hs; cases hs
      · rw [hsame, hused, if_neg (by rw [hz]; decide)]
        rw [if_pos hz] at hlt hold ⊢
        exact hold hlt
    · rw [if_neg hz] at hlt hold ⊢
      have hold := hold (by omega)
      rcases hsum with ⟨hs, hr, hsl, hw⟩ | ⟨hs, hr, hsl, hw⟩ | ⟨hs, hr, hsl, hw⟩ | ⟨hs, hsame⟩
      · rw [hr, hsl, hw, hused, if_neg (by rw [hs]; decide), toNat_succ (by omega)]
        omega
      · rw [hr, hsl, hw, hused, if_neg (by rw [hs]; decide), toNat_succ (by omega)]
        omega
      · rw [hr, hsl, hw, hused, if_neg (by rw [hs]; decide), toNat_succ (by omega)]
        omega
      · have hs : (s.procs i).state = .used := by tauto
        rw [hsame, hused, if_pos hs]
        omega

theorem OnTime.step (h : OnTime s g) (hx : Exclusive s.core) (hno : NoUpdate s)
    (hok : ReadyDispatch s l) (hs : nextClock s l = some s') : OnTime s' (g.record s l s') := by
  rcases nextClock_cases hs with ⟨c, chan, _, _, htick, rfl⟩ | ⟨htick, hr⟩
  · refine ⟨?_, ?_⟩
    · have hnow : (g.record s l ((s.clock.setLock (.cond ticksLock) (some c)).setIrq c
          (some (.wakeup (some ticksChan) allSlots true)))).now = g.now + 1 := by
        simp [Ages.record, htick]
      rw [hnow]
      show (s.ticks + 1).toNat = _
      rw [UInt32.toNat_add, h.ticks, show (1 : UInt32).toNat = 1 from rfl]
      omega
    · intro i hlive
      have hlive' : (s.procs i).state ≠ .unused := by
        rw [← Proc.tick_state]
        exact hlive
      exact (h.accounted i hlive').tick htick rfl hlive'
  · refine ⟨?_, ?_⟩
    · rw [hr.ticks htick, h.ticks]
      simp [Ages.record, htick]
    · intro i hlive
      exact Accounted.between (h.accounted i) h.ticks htick
        ((hr.change i).account hx hok hno) hlive

/-! ## Every run -/

/-- In every run whose dispatches find their slot `RUNNABLE`, the counters
of a process add up to the elapsed time, apart from the ticks that it spent
`USED`.  They are therefore never above it, and the waiting time that
`waitx` reports does not underflow. -/
theorem time_accounted (x : Sys × Ages)
    (h : ReachWhen (fun x l => ReadyDispatch x.1 l) (instrument nextClock Ages.record)
      ((bootSys, Ages.start) = ·) x)
    (i : Slot) (hlive : (x.1.procs i).state ≠ .unused) (hlife : x.2.life x.1 i < 2 ^ 32) :
    (x.1.procs i).rTime.toNat + (x.1.procs i).sTime.toNat + (x.1.procs i).wTime.toNat ≤
        ((x.1.procs i).elapsed x.1.ticks).toNat ∧
      ((x.1.procs i).elapsed x.1.ticks).toNat =
        (x.1.procs i).rTime.toNat + (x.1.procs i).sTime.toNat + (x.1.procs i).wTime.toNat +
          x.2.used i ∧
      ((x.1.procs i).state = .zombie →
        (x.1.procs i).wtime.toNat =
          (x.1.procs i).sTime.toNat + (x.1.procs i).wTime.toNat + x.2.used i) := by
  have hinv : Exclusive x.1.core ∧ NoUpdate x.1 ∧ OnTime x.1 x.2 := by
    refine h.invariant (I := fun x => Exclusive x.1.core ∧ NoUpdate x.1 ∧ OnTime x.1 x.2) ?_ ?_
    · rintro x rfl
      refine ⟨boot_exclusive, ?_, rfl, ?_⟩
      · intro c slots hirq
        cases hirq
      intro i hlive
      obtain rfl : i = 0 := by
        by_contra hi
        exact hlive (by simp [bootSys, bootTable, hi, Proc.zero])
      refine ⟨rfl, ?_, le_rfl, ?_, fun _ => rfl⟩
      · intro hz
        cases hz
      · intro hz
        cases hz
    · rintro x l y ⟨hx, hno, htime⟩ hok hnext
      obtain ⟨hnext, hy⟩ := instrument_eq_some hnext
      exact ⟨clock_exclusive hx hok hnext, hno.step hnext, hy ▸ htime.step hx hno hok hnext⟩
  obtain ⟨_, _, hticks, hacc⟩ := hinv
  have hi := hacc i hlive
  have helapsed := hi.elapsed hticks hlife
  have hsum := hi.sum hlife
  refine ⟨by omega, by omega, ?_⟩
  intro hz
  rw [Proc.elapsed, if_pos hz] at helapsed
  have hle : (x.1.procs i).rTime.toNat ≤ ((x.1.procs i).etime - (x.1.procs i).ctime).toNat := by
    omega
  rw [Proc.wtime, UInt32.toNat_sub_of_le _ _ (UInt32.le_iff_toNat_le.mpr hle)]
  omega

/-- The first process forks, and a tick falls into the time in which the
child is `USED`. -/
def usedRun : List Step :=
  initRun ++ .thread 0 .fork :: goRun 0 3 ++ [.trap 0 true, .irq 0 none]

theorem time_accounted_usedRun :
    ∃ x, ReachWhen (fun x l => ReadyDispatch x.1 l) (instrument nextClock Ages.record)
        ((bootSys, Ages.start) = ·) x ∧
      x.2.used 1 = 1 ∧
      ((x.1.procs 1).elapsed x.1.ticks).toNat =
        (x.1.procs 1).rTime.toNat + (x.1.procs 1).sTime.toNat + (x.1.procs 1).wTime.toNat + 1 := by
  obtain ⟨x, hx, hstate, hlife, hused⟩ :
      ∃ x, ReachWhen (fun x l => ReadyDispatch x.1 l) (instrument nextClock Ages.record)
          ((bootSys, Ages.start) = ·) x ∧
        (x.1.procs 1).state = .used ∧ x.2.life x.1 1 = 1 ∧ x.2.used 1 = 1 :=
    exists_reachWhen_of_run usedRun rfl (by decide +kernel)
  have hlive : (x.1.procs 1).state ≠ .unused := by
    rw [hstate]
    decide
  have hacc := (time_accounted x hx 1 hlive (by omega)).2.1
  rw [hused] at hacc
  exact ⟨x, hx, hused, hacc⟩

/-- Harts 1 and 2 test the child of the first process.  Hart 1 runs it, it
exits, the clock ticks, and hart 2 dispatches the `ZOMBIE`. -/
def zombieRun : List Step :=
  initRun ++ forkRun 0 1 ++ List.replicate 67 (.sched 1) ++ List.replicate 67 (.sched 2) ++
    List.replicate 3 (.sched 1) ++ goRun 1 1 ++ exitRun 1 5 ++
    [.trap 0 true, .irq 0 none, .sched 2, .sched 2]

/-- The tick that the process spent as a `ZOMBIE` is in no counter, and it
was never `USED` during a tick. -/
theorem zombie_tick_lost :
    ∃ x, Reach (instrument nextClock Ages.record) ((bootSys, Ages.start) = ·) x ∧
      (x.1.procs 1).state = .running ∧ x.2.now = 1 ∧ x.2.used 1 = 0 ∧
      (x.1.procs 1).rTime = 0 ∧ (x.1.procs 1).sTime = 0 ∧ (x.1.procs 1).wTime = 0 ∧
      (x.1.procs 1).elapsed x.1.ticks = 1 :=
  exists_reachWhen_of_run zombieRun rfl (by decide +kernel)

end Xv6.Process
