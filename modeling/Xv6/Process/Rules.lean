import Xv6.Process.Scheduler

/-!
# What a step of the machine can do

`next` is a function, so that a run can be evaluated.  The proofs about it
split its branches again and again, and this module does that once.  There
is one relation for each part of `next`, with one constructor for each
branch: the guard, and the state that the branch leaves.

* `SchedRule` for `schedStep`,
* `CodeRule` for `codeStep`, with the calls of `callStep`,
* `ThreadRule` for `threadStep`,
* `IrqRule` for `irqStep`.

`next_rule` says that every step of `next` is one of these.
-/

namespace Xv6.Process

variable {s s' : Sys} {c : Cpu} {q : Slot} {a : Action}

/-! ## `scheduler()` -/

/-- A step of `scheduler()` on hart `c`. -/
inductive SchedRule (s : Sys) (c : Cpu) : Sys → Prop
  | start (hpc : s.pc c = .start) (hlock : s.lock .sched = none) :
      SchedRule s c ((s.setLock .sched (some c)).setPc c (.scan allSlots Best.start))
  | scan {i : Slot} {rest : List Slot} {best : Best} (hpc : s.pc c = .scan (i :: rest) best)
      (hlock : s.lock (.proc i) = none) :
      SchedRule s c ({ s with procs := (scanSlot s.procs best i).1 }.setPc c
        (.scan rest (scanSlot s.procs best i).2))
  | scanned {best : Best} (hpc : s.pc c = .scan [] best) :
      SchedRule s c ((s.setLock .sched none).setPc c (.scanned best))
  | again {best : Best} (hpc : s.pc c = .scanned best) : SchedRule s c (s.setPc c .start)
  | test {best : Best} {q : Slot} (hpc : s.pc c = .scanned best) (hmin : best.minProc = some q)
      (hready : (s.procs q).state = .runnable) : SchedRule s c (s.setPc c (.tested q))
  | lock {q : Slot} (hpc : s.pc c = .tested q) (hlock : s.lock (.proc q) = none) :
      SchedRule s c ((s.setLock (.proc q) (some c)).setPc c (.locked q))
  | dispatch {q : Slot} (hpc : s.pc c = .locked q) :
      SchedRule s c ({ s.setProc q { s.procs q with state := .running } with
        current := Function.update s.current c (some q) }.setPc c (.dispatched q))
  | enter {q : Slot} (hpc : s.pc c = .dispatched q) : SchedRule s c (s.setPc c (.away q))
  | drop {q : Slot} (hpc : s.pc c = .back q) :
      SchedRule s c
        ({ s with current := Function.update s.current c none }.setPc c (.dropping q))
  | free {q : Slot} (hpc : s.pc c = .dropping q) :
      SchedRule s c ((s.setLock (.proc q) none).setPc c .start)

theorem sched_rule (hs : schedStep s c = some s') : SchedRule s c s' := by
  unfold schedStep at hs
  cases hpc : s.pc c with
  | start =>
    simp only [hpc] at hs
    obtain ⟨hlock, ⟨⟩⟩ := Option.ite_none_right_eq_some.mp hs
    exact .start hpc hlock
  | scan slots best =>
    cases slots with
    | nil =>
      simp only [hpc] at hs
      cases hs
      exact .scanned hpc
    | cons i rest =>
      simp only [hpc] at hs
      obtain ⟨hlock, ⟨⟩⟩ := Option.ite_none_right_eq_some.mp hs
      exact .scan hpc hlock
  | scanned best =>
    simp only [hpc] at hs
    split at hs
    · cases hs
      exact .again hpc
    · rename_i hmin
      split at hs
      · rename_i hready
        cases hs
        exact .test hpc hmin hready
      · cases hs
        exact .again hpc
  | tested q =>
    simp only [hpc] at hs
    obtain ⟨hlock, ⟨⟩⟩ := Option.ite_none_right_eq_some.mp hs
    exact .lock hpc hlock
  | locked q =>
    simp only [hpc] at hs
    cases hs
    exact .dispatch hpc
  | dispatched q =>
    simp only [hpc] at hs
    cases hs
    exact .enter hpc
  | away q =>
    simp only [hpc] at hs
    cases hs
  | back q =>
    simp only [hpc] at hs
    cases hs
    exact .drop hpc
  | dropping q =>
    simp only [hpc] at hs
    cases hs
    exact .free hpc

/-! ## The code of a process -/

/-- The code that a call enters, for the calls that do nothing else. -/
def Action.enters : Action → Option Code
  | .kill pid => some (.kill pid allSlots)
  | .setPriority newPriority pid => some (.setPriority newPriority pid allSlots NOTFOUND)
  | .fork => some (.allocproc allSlots)
  | .exit status => some (.exit status)
  | .wait call => some (.wait call)
  | .acquiresleep n => some (.acquiresleep n)
  | .releasesleep n => some (.releasesleep n)
  | .acquire _ | .release | .wakeup _ | .sleep _ | .fault _ | .go | .fail => none

/-- The places from which a function returns without another effect. -/
def Code.returns : Code → Bool
  | .kill _ [] | .allocproc [] | .setPriorityTest _ _ => true
  | _ => false

/-- A step of the code of process `q`, which runs on hart `c`. -/
inductive CodeRule (s : Sys) (c : Cpu) (q : Slot) : Action → Code → Sys → Prop
  | acquire {n : Nat} (hlock : s.lock (.cond n) = none) :
      CodeRule s c q (.acquire n) (.run none)
        ((s.setLock (.cond n) (some c)).setThread q (.code (.run (some n))))
  | release {n : Nat} :
      CodeRule s c q .release (.run (some n))
        ((s.setLock (.cond n) none).setThread q (.code (.run none)))
  | callWakeup {chan : Chan} {lk : Option Nat} :
      CodeRule s c q (.wakeup chan) (.run lk)
        (s.setThread q (.code (.wakeup (some chan) allSlots (.run lk))))
  | callSleep {chan : Chan} {n : Nat} (hchan : ∀ m, chan ≠ .sleeplock m) :
      CodeRule s c q (.sleep chan) (.run (some n))
        (s.setThread q (.sleepAcquire chan n (.run (some n))))
  | call {a : Action} {k : Code} (hk : a.enters = some k)
      (hexit : ∀ status, k = .exit status → q ≠ initproc)
      (hheld : ∀ n, k = .releasesleep n → s.held q n = true) :
      CodeRule s c q a (.run none) (s.setThread q (.code k))
  | fault {locked : Bool} (hlock : locked = true → s.lock (.proc q) = none) :
      CodeRule s c q (.fault locked) (.run none)
        (s.setProc q { s.procs q with killed := true })
  | back {a : Action} {k : Code} (hk : k.returns = true) :
      CodeRule s c q a k (s.setThread q (.code (.run none)))
  | wakeupDone {a : Action} {chan : Option Chan} {k : Code} :
      CodeRule s c q a (.wakeup chan [] k) (s.setThread q (.code k))
  | wakeupSkip {a : Action} {chan : Option Chan} {i : Slot} {rest : List Slot} {k : Code}
      (hself : s.current c = some i) :
      CodeRule s c q a (.wakeup chan (i :: rest) k)
        (s.setThread q (.code (.wakeup chan rest k)))
  | wakeup {a : Action} {chan : Option Chan} {i : Slot} {rest : List Slot} {k : Code}
      (hother : s.current c ≠ some i) (hlock : s.lock (.proc i) = none) :
      CodeRule s c q a (.wakeup chan (i :: rest) k)
        ((s.setProc i ((s.procs i).wake chan)).setThread q (.code (.wakeup chan rest k)))
  | killMiss {a : Action} {pid : Int32} {i : Slot} {rest : List Slot}
      (hlock : s.lock (.proc i) = none) (hpid : (s.procs i).pid ≠ pid) :
      CodeRule s c q a (.kill pid (i :: rest)) (s.setThread q (.code (.kill pid rest)))
  | killHit {a : Action} {pid : Int32} {i : Slot} {rest : List Slot}
      (hlock : s.lock (.proc i) = none) (hpid : (s.procs i).pid = pid) :
      CodeRule s c q a (.kill pid (i :: rest))
        ((s.setProc i (s.procs i).kill).setThread q (.code (.run none)))
  | setPriorityMiss {a : Action} {newPriority pid oldDyn : Int32} {i : Slot} {rest : List Slot}
      (hlock : s.lock (.proc i) = none) (hpid : (s.procs i).pid ≠ pid) :
      CodeRule s c q a (.setPriority newPriority pid (i :: rest) oldDyn)
        ((s.setProc i (s.procs i).recompute).setThread q
          (.code (.setPriority newPriority pid rest (s.procs i).dynamicPrio.toInt32)))
  | setPriorityHit {a : Action} {newPriority pid oldDyn : Int32} {i : Slot} {rest : List Slot}
      (hlock : s.lock (.proc i) = none) (hpid : (s.procs i).pid = pid) :
      CodeRule s c q a (.setPriority newPriority pid (i :: rest) oldDyn)
        ((s.setProc i { s.procs i with staticPrio := newPriority.toUInt32 }).setThread q
          (.code (.setPriorityTest i oldDyn)))
  | allocMiss {a : Action} {i : Slot} {rest : List Slot} (hlock : s.lock (.proc i) = none)
      (hused : (s.procs i).state ≠ .unused) :
      CodeRule s c q a (.allocproc (i :: rest)) (s.setThread q (.code (.allocproc rest)))
  | allocFail {i : Slot} {rest : List Slot} (hlock : s.lock (.proc i) = none)
      (hunused : (s.procs i).state = .unused) :
      CodeRule s c q .fail (.allocproc (i :: rest))
        (({ s with nextpid := s.nextpid + 1 }.setProc i
          ((s.procs i).alloc s.nextpid s.ticks).freed).setThread q (.code (.run none)))
  | alloc {a : Action} {i : Slot} {rest : List Slot} (hlock : s.lock (.proc i) = none)
      (hunused : (s.procs i).state = .unused) (ha : a.fails = false) :
      CodeRule s c q a (.allocproc (i :: rest))
        (((({ s with nextpid := s.nextpid + 1 }.setProc i
          ((s.procs i).alloc s.nextpid s.ticks)).setLock (.proc i) (some c)).setThread i
            (.resume .forkret)).setThread q (.forkCopy i))
  | forkParent {a : Action} {np : Slot} (hlock : s.lock (.cond waitLock) = none) :
      CodeRule s c q a (.forkParent np)
        ((s.setProc np { s.procs np with parent := some q }).setThread q
          (.code (.forkPublish np)))
  | forkPublish {a : Action} {np : Slot} (hlock : s.lock (.proc np) = none) :
      CodeRule s c q a (.forkPublish np)
        ((s.setProc np { s.procs np with state := .runnable }).setThread q (.code (.run none)))
  | exit {a : Action} {status : Int32} (hlock : s.lock (.cond waitLock) = none) :
      CodeRule s c q a (.exit status)
        ((s.setLock (.cond waitLock) (some c)).setThread q (.code (.reparent status allSlots)))
  | reparentDone {a : Action} {status : Int32} :
      CodeRule s c q a (.reparent status [])
        (s.setThread q
          (.code (.wakeup ((s.procs q).parent.map .proc) allSlots (.exitAcquire status))))
  | reparentSkip {a : Action} {status : Int32} {i : Slot} {rest : List Slot}
      (hparent : (s.procs i).parent ≠ some q) :
      CodeRule s c q a (.reparent status (i :: rest))
        (s.setThread q (.code (.reparent status rest)))
  | reparent {a : Action} {status : Int32} {i : Slot} {rest : List Slot}
      (hparent : (s.procs i).parent = some q) :
      CodeRule s c q a (.reparent status (i :: rest))
        ((s.setProc i { s.procs i with parent := some initproc }).setThread q
          (.code (.wakeup (some (.proc initproc)) allSlots (.reparent status rest))))
  | exitAcquire {a : Action} {status : Int32} (hlock : s.lock (.proc q) = none) :
      CodeRule s c q a (.exitAcquire status)
        ((s.setLock (.proc q) (some c)).setThread q (.exitStore status))
  | wait {a : Action} {call : WaitCall} (hlock : s.lock (.cond waitLock) = none) :
      CodeRule s c q a (.wait call)
        ((s.setLock (.cond waitLock) (some c)).setThread q
          (.code (.waitScan call allSlots false)))
  | waitSkip {a : Action} {call : WaitCall} {i : Slot} {rest : List Slot} {havekids : Bool}
      (hparent : (s.procs i).parent ≠ some q) :
      CodeRule s c q a (.waitScan call (i :: rest) havekids)
        (s.setThread q (.code (.waitScan call rest havekids)))
  | waitAlive {a : Action} {call : WaitCall} {i : Slot} {rest : List Slot} {havekids : Bool}
      (hparent : (s.procs i).parent = some q) (hlock : s.lock (.proc i) = none)
      (halive : (s.procs i).state ≠ .zombie) :
      CodeRule s c q a (.waitScan call (i :: rest) havekids)
        (s.setThread q (.code (.waitScan call rest true)))
  | waitFail {call : WaitCall} {i : Slot} {rest : List Slot} {havekids : Bool}
      (hparent : (s.procs i).parent = some q) (hlock : s.lock (.proc i) = none)
      (hzombie : (s.procs i).state = .zombie) :
      CodeRule s c q .fail (.waitScan call (i :: rest) havekids)
        ((s.setLock (.cond waitLock) none).setThread q (.code (.run none)))
  | waitReap {a : Action} {call : WaitCall} {i : Slot} {rest : List Slot} {havekids : Bool}
      (hparent : (s.procs i).parent = some q) (hlock : s.lock (.proc i) = none)
      (hzombie : (s.procs i).state = .zombie) (ha : a.fails = false) :
      CodeRule s c q a (.waitScan call (i :: rest) havekids)
        (((s.setProc i (s.procs i).freed).setLock (.cond waitLock) none).setThread q
          (.code (.run none)))
  | waitNone {a : Action} {call : WaitCall} {havekids : Bool} :
      CodeRule s c q a (.waitScan call [] havekids)
        ((s.setLock (.cond waitLock) none).setThread q (.code (.run none)))
  | waitSleep {a : Action} {call : WaitCall} :
      CodeRule s c q a (.waitScan call [] true)
        (s.setThread q (.sleepAcquire (.proc q) waitLock (.waitScan call allSlots false)))
  | sleepReacquire {a : Action} {n : Nat} {k : Code} (hlock : s.lock (.cond n) = none) :
      CodeRule s c q a (.sleepReacquire n k)
        ((s.setLock (.cond n) (some c)).setThread q (.code k))
  | acquiresleep {a : Action} {n : Nat} (hlock : s.lock (.cond (spinOf n)) = none) :
      CodeRule s c q a (.acquiresleep n)
        ((s.setLock (.cond (spinOf n)) (some c)).setThread q (.code (.acquiresleepTest n)))
  | acquiresleepWait {a : Action} {n : Nat} (hlocked : (s.sleeplock n).locked = true) :
      CodeRule s c q a (.acquiresleepTest n)
        (s.setThread q (.sleepAcquire (.sleeplock n) (spinOf n) (.acquiresleepTest n)))
  | acquiresleepTake {a : Action} {n : Nat} (hfree : (s.sleeplock n).locked = false) :
      CodeRule s c q a (.acquiresleepTest n)
        (((s.setSleep q n ⟨true, (s.procs q).pid⟩ true).setLock (.cond (spinOf n))
          none).setThread q (.code (.run none)))
  | releasesleep {a : Action} {n : Nat} (hlock : s.lock (.cond (spinOf n)) = none) :
      CodeRule s c q a (.releasesleep n)
        (((s.setSleep q n ⟨false, 0⟩ false).setLock (.cond (spinOf n)) (some c)).setThread q
          (.code (.wakeup (some (.sleeplock n)) allSlots (.releasesleepDone n))))
  | releasesleepDone {a : Action} {n : Nat} :
      CodeRule s c q a (.releasesleepDone n)
        ((s.setLock (.cond (spinOf n)) none).setThread q (.code (.run none)))

theorem call_rule {lk : Option Nat} (hs : callStep s c q lk a = some s') :
    CodeRule s c q a (.run lk) s' := by
  cases a with
  | acquire n =>
    simp only [callStep] at hs
    obtain ⟨h, ⟨⟩⟩ := Option.ite_none_right_eq_some.mp hs
    rw [h.1]
    exact .acquire h.2
  | release =>
    simp only [callStep] at hs
    split at hs
    · cases hs
      exact .release
    · cases hs
  | wakeup chan =>
    cases hs
    exact .callWakeup
  | sleep chan =>
    simp only [callStep] at hs
    split at hs
    · cases hs
    · rename_i hchan
      cases hs
      exact .callSleep (fun m hm => hchan m hm)
    · cases hs
  | fault locked =>
    simp only [callStep] at hs
    obtain ⟨h, ⟨⟩⟩ := Option.ite_none_right_eq_some.mp hs
    rw [h.1]
    exact .fault h.2
  | kill pid | setPriority newPriority pid | fork | wait call | acquiresleep n =>
    simp only [callStep] at hs
    obtain ⟨h, ⟨⟩⟩ := Option.ite_none_right_eq_some.mp hs
    rw [h]
    exact .call rfl nofun nofun
  | exit status =>
    simp only [callStep] at hs
    obtain ⟨h, ⟨⟩⟩ := Option.ite_none_right_eq_some.mp hs
    rw [h.1]
    exact .call rfl (fun _ _ => h.2) nofun
  | releasesleep n =>
    simp only [callStep] at hs
    obtain ⟨h, ⟨⟩⟩ := Option.ite_none_right_eq_some.mp hs
    rw [h.1]
    refine .call rfl nofun ?_
    rintro m ⟨⟩
    exact h.2
  | go | fail => cases hs

variable {i : Slot} {rest : List Slot}

theorem alloc_rule (hs : allocSlot s c q i rest a.fails = some s') :
    CodeRule s c q a (.allocproc (i :: rest)) s' := by
  unfold allocSlot at hs
  obtain ⟨hlock, hs⟩ := Option.ite_none_right_eq_some.mp hs
  split at hs
  · rename_i hunused
    dsimp only at hs
    cases hfail : a.fails with
    | true =>
      cases a <;> cases hfail
      cases hs
      exact .allocFail hlock hunused
    | false =>
      rw [hfail] at hs
      cases hs
      exact .alloc hlock hunused hfail
  · rename_i hused
    cases hs
    exact .allocMiss hlock hused

theorem wait_rule {call : WaitCall} {havekids : Bool}
    (hs : waitSlot s q call i rest havekids a.fails = some s') :
    CodeRule s c q a (.waitScan call (i :: rest) havekids) s' := by
  unfold waitSlot at hs
  split at hs
  · rename_i hparent
    obtain ⟨hlock, hs⟩ := Option.ite_none_right_eq_some.mp hs
    split at hs
    · rename_i hzombie
      cases hfail : a.fails with
      | true =>
        cases a <;> cases hfail
        cases hs
        exact .waitFail hparent hlock hzombie
      | false =>
        rw [hfail] at hs
        cases hs
        exact .waitReap hparent hlock hzombie hfail
    · rename_i halive
      cases hs
      exact .waitAlive hparent hlock halive
  · rename_i hparent
    cases hs
    exact .waitSkip hparent

theorem wakeup_rule {chan : Option Chan} {k : Code}
    (hs : codeStep s c q a (.wakeup chan (i :: rest) k) = some s') :
    CodeRule s c q a (.wakeup chan (i :: rest) k) s' := by
  obtain ⟨t, ht, rfl⟩ := Option.map_eq_some_iff.mp hs
  unfold wakeSlot at ht
  split at ht
  · rename_i hself
    cases ht
    exact .wakeupSkip hself
  · rename_i hother
    obtain ⟨hlock, ⟨⟩⟩ := Option.ite_none_right_eq_some.mp ht
    exact .wakeup hother hlock

theorem code_rule {k : Code} (hs : codeStep s c q a k = some s') : CodeRule s c q a k s' := by
  cases k with
  | run lk => exact call_rule hs
  | wakeup chan slots k =>
    cases slots with
    | nil =>
      cases hs
      exact .wakeupDone
    | cons i rest => exact wakeup_rule hs
  | kill pid slots =>
    cases slots with
    | nil =>
      cases hs
      exact .back rfl
    | cons i rest =>
      simp only [codeStep] at hs
      obtain ⟨hlock, hs⟩ := Option.ite_none_right_eq_some.mp hs
      split at hs
      · rename_i hpid
        cases hs
        exact .killHit hlock hpid
      · rename_i hpid
        cases hs
        exact .killMiss hlock hpid
  | setPriority newPriority pid slots oldDyn =>
    cases slots with
    | nil => cases hs
    | cons i rest =>
      simp only [codeStep] at hs
      obtain ⟨hlock, hs⟩ := Option.ite_none_right_eq_some.mp hs
      split at hs
      · rename_i hpid
        cases hs
        exact .setPriorityHit hlock hpid
      · rename_i hpid
        cases hs
        exact .setPriorityMiss hlock hpid
  | setPriorityTest i oldDyn =>
    simp only [codeStep] at hs
    split at hs
    · cases hs
    · cases hs
      exact .back rfl
  | allocproc slots =>
    cases slots with
    | nil =>
      cases hs
      exact .back rfl
    | cons i rest => exact alloc_rule hs
  | forkParent np =>
    simp only [codeStep] at hs
    obtain ⟨hlock, ⟨⟩⟩ := Option.ite_none_right_eq_some.mp hs
    exact .forkParent hlock
  | forkPublish np =>
    simp only [codeStep] at hs
    obtain ⟨hlock, ⟨⟩⟩ := Option.ite_none_right_eq_some.mp hs
    exact .forkPublish hlock
  | exit status =>
    simp only [codeStep] at hs
    obtain ⟨hlock, ⟨⟩⟩ := Option.ite_none_right_eq_some.mp hs
    exact .exit hlock
  | reparent status slots =>
    cases slots with
    | nil =>
      cases hs
      exact .reparentDone
    | cons i rest =>
      simp only [codeStep] at hs
      split at hs
      · rename_i hparent
        cases hs
        exact .reparent hparent
      · rename_i hparent
        cases hs
        exact .reparentSkip hparent
  | exitAcquire status =>
    simp only [codeStep] at hs
    obtain ⟨hlock, ⟨⟩⟩ := Option.ite_none_right_eq_some.mp hs
    exact .exitAcquire hlock
  | wait call =>
    simp only [codeStep] at hs
    obtain ⟨hlock, ⟨⟩⟩ := Option.ite_none_right_eq_some.mp hs
    exact .wait hlock
  | waitScan call slots havekids =>
    cases slots with
    | nil =>
      simp only [codeStep] at hs
      split at hs
      · rename_i hkids
        rw [hkids]
        split at hs
        · split at hs
          · cases hs
            exact .waitNone
          · cases hs
            exact .waitSleep
        · cases hs
      · cases hs
        exact .waitNone
    | cons i rest => exact wait_rule hs
  | sleepReacquire n k =>
    simp only [codeStep] at hs
    obtain ⟨hlock, ⟨⟩⟩ := Option.ite_none_right_eq_some.mp hs
    exact .sleepReacquire hlock
  | acquiresleep n =>
    simp only [codeStep] at hs
    obtain ⟨hlock, ⟨⟩⟩ := Option.ite_none_right_eq_some.mp hs
    exact .acquiresleep hlock
  | acquiresleepTest n =>
    simp only [codeStep] at hs
    split at hs
    · rename_i hlocked
      cases hs
      exact .acquiresleepWait hlocked
    · rename_i hfree
      cases hs
      exact .acquiresleepTake (Bool.eq_false_iff.mpr hfree)
  | releasesleep n =>
    simp only [codeStep] at hs
    obtain ⟨hlock, ⟨⟩⟩ := Option.ite_none_right_eq_some.mp hs
    exact .releasesleep hlock
  | releasesleepDone n =>
    cases hs
    exact .releasesleepDone

/-! ## The thread of a process -/

/-- A step of the thread of process `q`, which runs on hart `c`. -/
inductive ThreadRule (s : Sys) (c : Cpu) (q : Slot) : Action → Thread → Sys → Prop
  | code {a : Action} {k : Code} {s' : Sys} (h : CodeRule s c q a k s') :
      ThreadRule s c q a (.code k) s'
  | forkret {a : Action} :
      ThreadRule s c q a (.resume .forkret)
        ((s.setLock (.proc q) none).setThread q (.code (.run none)))
  | yieldRelease {a : Action} {k : Code} :
      ThreadRule s c q a (.resume (.yieldRelease k))
        ((s.setLock (.proc q) none).setThread q (.code k))
  | sleepTidy {a : Action} {n : Nat} {k : Code} :
      ThreadRule s c q a (.resume (.sleepTidy n k))
        (((s.setProc q { s.procs q with chan := none }).setLock (.proc q) none).setThread q
          (.code (.sleepReacquire n k)))
  | yieldAcquire {a : Action} {k : Code} (hlock : s.lock (.proc q) = none) :
      ThreadRule s c q a (.yieldAcquire k)
        ((s.setLock (.proc q) (some c)).setThread q (.yieldStore k))
  | yieldStore {a : Action} {k : Code} :
      ThreadRule s c q a (.yieldStore k)
        ((s.setProc q { s.procs q with state := .runnable }).setThread q
          (.sched (.yieldRelease k)))
  | sleepAcquire {a : Action} {chan : Chan} {n : Nat} {k : Code}
      (hlock : s.lock (.proc q) = none) :
      ThreadRule s c q a (.sleepAcquire chan n k)
        ((s.setLock (.proc q) (some c)).setThread q (.sleepRelease chan n k))
  | sleepRelease {a : Action} {chan : Chan} {n : Nat} {k : Code} :
      ThreadRule s c q a (.sleepRelease chan n k)
        ((s.setLock (.cond n) none).setThread q (.sleepStore chan n k))
  | sleepStore {a : Action} {chan : Chan} {n : Nat} {k : Code} :
      ThreadRule s c q a (.sleepStore chan n k)
        ((s.setProc q { s.procs q with chan := some chan, state := .sleeping }).setThread q
          (.sched (.sleepTidy n k)))
  | forkGiveUp {np : Slot} :
      ThreadRule s c q .fail (.forkCopy np)
        (((s.setProc np (s.procs np).freed).setLock (.proc np) none).setThread q
          (.code (.run none)))
  | forkCopied {a : Action} {np : Slot} (ha : a.fails = false) :
      ThreadRule s c q a (.forkCopy np)
        ((s.setLock (.proc np) none).setThread q (.code (.forkParent np)))
  | exitStore {a : Action} {status : Int32} :
      ThreadRule s c q a (.exitStore status)
        ((s.setProc q { s.procs q with
          xstate := status, state := .zombie, etime := s.ticks }).setThread q .exitRelease)
  | exitRelease {a : Action} :
      ThreadRule s c q a .exitRelease
        ((s.setLock (.cond waitLock) none).setThread q (.sched .dead))
  | leave {a : Action} {r : Resume} (hstate : (s.procs q).state ≠ .running) :
      ThreadRule s c q a (.sched r) ((s.setThread q (.resume r)).setPc c (.back q))

theorem takeOwn_eq {th : Thread} (hs : takeOwn s c q th = some s') :
    s.lock (.proc q) = none ∧ s' = (s.setLock (.proc q) (some c)).setThread q th := by
  unfold takeOwn at hs
  obtain ⟨hlock, ⟨⟩⟩ := Option.ite_none_right_eq_some.mp hs
  exact ⟨hlock, rfl⟩

theorem thread_rule (hs : threadStep s c q a = some s') :
    ThreadRule s c q a (s.thread q) s' := by
  unfold threadStep at hs
  cases hth : s.thread q with
  | code k =>
    simp only [hth] at hs
    exact .code (code_rule hs)
  | resume r =>
    simp only [hth] at hs
    cases r with
    | forkret =>
      cases hs
      exact .forkret
    | yieldRelease k =>
      cases hs
      exact .yieldRelease
    | sleepTidy n k =>
      cases hs
      exact .sleepTidy
    | dead => cases hs
  | yieldAcquire k =>
    simp only [hth] at hs
    obtain ⟨hlock, rfl⟩ := takeOwn_eq hs
    exact .yieldAcquire hlock
  | yieldStore k =>
    simp only [hth] at hs
    cases hs
    exact .yieldStore
  | sleepAcquire chan n k =>
    simp only [hth] at hs
    obtain ⟨hlock, rfl⟩ := takeOwn_eq hs
    exact .sleepAcquire hlock
  | sleepRelease chan n k =>
    simp only [hth] at hs
    cases hs
    exact .sleepRelease
  | sleepStore chan n k =>
    simp only [hth] at hs
    cases hs
    exact .sleepStore
  | forkCopy np =>
    simp only [hth] at hs
    split at hs
    · rename_i hfail
      cases a <;> cases hfail
      cases hs
      exact .forkGiveUp
    · rename_i hfail
      cases hs
      exact .forkCopied (Bool.eq_false_iff.mpr hfail)
  | exitStore status =>
    simp only [hth] at hs
    cases hs
    exact .exitStore
  | exitRelease =>
    simp only [hth] at hs
    cases hs
    exact .exitRelease
  | sched r =>
    simp only [hth] at hs
    split at hs
    · cases hs
    · rename_i hstate
      cases hs
      exact .leave hstate

/-! ## Interrupts -/

/-- A step of the interrupt handler on hart `c`. -/
inductive IrqRule (s : Sys) (c : Cpu) : Irq → Sys → Prop
  | clockintr (hlock : s.lock (.cond ticksLock) = none) :
      IrqRule s c .clockintr
        ({ s.setLock (.cond ticksLock) (some c) with ticks := s.ticks + 1 }.setIrq c
          (some (.updateTime allSlots)))
  | tick {i : Slot} {rest : List Slot} (hlock : s.lock (.proc i) = none) :
      IrqRule s c (.updateTime (i :: rest))
        ((s.setProc i (s.procs i).tick).setIrq c (some (.updateTime rest)))
  | ticked :
      IrqRule s c (.updateTime []) (s.setIrq c (some (.wakeup (some ticksChan) allSlots true)))
  | wakeupSkip {chan : Option Chan} {i : Slot} {rest : List Slot} {timer : Bool}
      (hself : s.current c = some i) :
      IrqRule s c (.wakeup chan (i :: rest) timer)
        (s.setIrq c (some (.wakeup chan rest timer)))
  | wakeup {chan : Option Chan} {i : Slot} {rest : List Slot} {timer : Bool}
      (hother : s.current c ≠ some i) (hlock : s.lock (.proc i) = none) :
      IrqRule s c (.wakeup chan (i :: rest) timer)
        ((s.setProc i ((s.procs i).wake chan)).setIrq c (some (.wakeup chan rest timer)))
  | woken {chan : Option Chan} :
      IrqRule s c (.wakeup chan [] false) (s.setIrq c (some (.devintr false)))
  | tickWoken {chan : Option Chan} :
      IrqRule s c (.wakeup chan [] true)
        ((s.setLock (.cond ticksLock) none).setIrq c (some (.devintr true)))
  | device {chan : Chan} :
      IrqRule s c (.devintr false) (s.setIrq c (some (.wakeup (some chan) allSlots false)))
  | back {timer : Bool} : IrqRule s c (.devintr timer) (s.setIrq c none)
  | yield {q : Slot} {k : Code} (hpc : s.pc c = .away q) (hth : s.thread q = .code k)
      (hstate : (s.procs q).state = .running) :
      IrqRule s c (.devintr true) ((s.setIrq c none).setThread q (.yieldAcquire k))

theorem trapReturn_rule (s : Sys) (c : Cpu) (timer : Bool) :
    IrqRule s c (.devintr timer) (trapReturn s c timer) := by
  unfold trapReturn
  dsimp only
  split
  · rename_i q hpc
    split
    · rename_i k hth
      split
      · rename_i h
        exact .yield hpc hth h.2
      · exact .back
    · exact .back
  · exact .back

theorem irq_rule {chan : Option Chan} {i : Irq} (hs : irqStep s c chan i = some s') :
    IrqRule s c i s' := by
  cases i with
  | clockintr =>
    simp only [irqStep] at hs
    obtain ⟨hlock, ⟨⟩⟩ := Option.ite_none_right_eq_some.mp hs
    exact .clockintr hlock
  | updateTime slots =>
    cases slots with
    | nil =>
      cases hs
      exact .ticked
    | cons j rest =>
      simp only [irqStep] at hs
      obtain ⟨hlock, ⟨⟩⟩ := Option.ite_none_right_eq_some.mp hs
      exact .tick hlock
  | wakeup ch slots timer =>
    cases slots with
    | nil =>
      cases timer with
      | false =>
        cases hs
        exact .woken
      | true =>
        cases hs
        exact .tickWoken
    | cons j rest =>
      obtain ⟨t, ht, rfl⟩ := Option.map_eq_some_iff.mp hs
      unfold wakeSlot at ht
      split at ht
      · rename_i hself
        cases ht
        exact .wakeupSkip hself
      · rename_i hother
        obtain ⟨hlock, ⟨⟩⟩ := Option.ite_none_right_eq_some.mp ht
        exact .wakeup hother hlock
  | devintr timer =>
    simp only [irqStep] at hs
    split at hs
    · cases hs
      exact .device
    · cases hs
      exact trapReturn_rule s c timer

/-! ## The machine -/

/-- A step of the machine. -/
inductive Rule (s : Sys) : Step → Sys → Prop
  | sched {c : Cpu} {s' : Sys} (hirq : s.irq c = none) (h : SchedRule s c s') :
      Rule s (.sched c) s'
  | thread {c : Cpu} {q : Slot} {a : Action} {s' : Sys} (hpc : s.pc c = .away q)
      (hirq : s.irq c = none) (h : ThreadRule s c q a (s.thread q) s') : Rule s (.thread c a) s'
  | trap {c : Cpu} {timer : Bool} {i : Irq} (hirq : s.irq c = none)
      (hi : i = .clockintr ∨ i = .devintr timer) (hin : s.interruptible c = true) :
      Rule s (.trap c timer) (s.setIrq c (some i))
  | irq {c : Cpu} {chan : Option Chan} {i : Irq} {s' : Sys} (hi : s.irq c = some i)
      (h : IrqRule s c i s') : Rule s (.irq c chan) s'

/-- Every step of `next` is one of the rules. -/
theorem next_rule {l : Step} (hs : next s l = some s') : Rule s l s' := by
  cases l with
  | sched c =>
    simp only [next] at hs
    obtain ⟨hirq, hs⟩ := Option.ite_none_right_eq_some.mp hs
    exact .sched (Option.isNone_iff_eq_none.mp hirq) (sched_rule hs)
  | thread c a =>
    simp only [next] at hs
    split at hs
    · rename_i q hpc
      obtain ⟨hirq, hs⟩ := Option.ite_none_right_eq_some.mp hs
      exact .thread hpc (Option.isNone_iff_eq_none.mp hirq) (thread_rule hs)
    · cases hs
  | trap c timer =>
    simp only [next] at hs
    obtain ⟨h, ⟨⟩⟩ := Option.ite_none_right_eq_some.mp hs
    refine .trap (Option.isNone_iff_eq_none.mp h.1) ?_ h.2
    split
    · exact Or.inl rfl
    · exact Or.inr rfl
  | irq c chan =>
    simp only [next] at hs
    split at hs
    · rename_i i hi
      exact .irq hi (irq_rule hs)
    · cases hs

end Xv6.Process
