import Xv6.Process.SetPriority

/-!
# What `set_priority` changes

`set_priority` is to set the static priority of one process, compute its dynamic
priority anew, return the old static priority, and reschedule if the dynamic
priority of that process got smaller.  `Documented` says that.

The code differs in four ways.  It never computes the dynamic priority of its
target.  It computes the priorities of all the slots before the target.  It
decides about `yield` with the priority of the slot before the target.  And it
takes a free slot for the target if that has the pid, or runs off the table if no
slot has it.  `setPriority_documented_iff` is the exact condition on the table and
the arguments under which none of this shows.
-/

namespace Xv6.Process

variable {t t' : Table} {newPriority pid : Int32} {p q i : Slot}

/-- The process with the pid: the first slot in use that has it. -/
structure IsTarget (t : Table) (pid : Int32) (p : Slot) : Prop where
  used : (t p).state ≠ .unused
  has : (t p).pid = pid
  first : ∀ i, i < p → (t i).state ≠ .unused → (t i).pid ≠ pid

/-- `set_priority` takes the branch with `yield`. -/
def reschedules (newPriority pid : Int32) (s : Kernel) : Prop :=
  ∃ q oldStat oldDyn s',
    setPriorityLoop newPriority pid (List.finRange NPROC) NOTFOUND s =
        .ok (some q, oldStat, oldDyn, s') ∧
      oldDyn.toUInt32 > (s'.procs q).dynamicPrio

/-- `DYNAMIC_PRIO` of a process with the new static priority. -/
def Proc.newDynamic (p : Proc) (newPriority : Int32) : UInt32 :=
  ({ p with staticPrio := newPriority.toUInt32 } : Proc).recompute.dynamicPrio

/-- The fields that `set_priority` may change are the same. -/
def SamePriorities (p p' : Proc) : Prop :=
  p'.staticPrio = p.staticPrio ∧ p'.rbi = p.rbi ∧ p'.dynamicPrio = p.dynamicPrio

instance (p p' : Proc) : Decidable (SamePriorities p p') := inferInstanceAs (Decidable (_ ∧ _))

/-- The call has returned `r` and left the table `t'`, with or without a
`yield`, as documented. -/
structure Documented (t t' : Table) (newPriority pid r : Int32) (yielded : Prop) : Prop where
  set : ∀ p, IsTarget t pid p → (t' p).staticPrio = newPriority.toUInt32
  computed : ∀ p, IsTarget t pid p → (t' p).dynamicPrio = (t p).newDynamic newPriority
  returned : ∀ p, IsTarget t pid p → r = (t p).staticPrio.toInt32
  rescheduled : ∀ p, IsTarget t pid p → (yielded ↔ (t' p).dynamicPrio < (t p).dynamicPrio)
  absent : (∀ p, (t p).state ≠ .unused → (t p).pid ≠ pid) → r = NOTFOUND
  others : ∀ i, (t i).state ≠ .unused → ¬IsTarget t pid i → SamePriorities (t i) (t' i)

/-- The condition on the table and the arguments.  `q` is the first slot with
the pid, in use or not. -/
structure Harmless (t : Table) (newPriority pid : Int32) (q : Slot) : Prop where
  has : (t q).pid = pid
  first : ∀ i, i < q → (t i).pid ≠ pid
  /-- The slot before `q` does not make the call yield. -/
  quiet : dynBefore t q ≤ (t q).dynamicPrio
  /-- The processes before `q` have the priorities that they are given. -/
  settled : ∀ i, i < q → (t i).state ≠ .unused → SamePriorities (t i) (t i).recompute
  /-- The target has the dynamic priority that the new static one gives. -/
  computed : ∀ p, IsTarget t pid p → (t p).dynamicPrio = (t p).newDynamic newPriority
  /-- If `q` is free, the target behind it has the new static priority already,
  and `q` has the same. -/
  behind : ∀ p, IsTarget t pid p → (t q).state = .unused →
    (t p).staticPrio = newPriority.toUInt32 ∧ (t q).staticPrio = (t p).staticPrio
  /-- If there is no target, the free slot `q` has the static priority `-1`. -/
  absent : (∀ p, (t p).state ≠ .unused → (t p).pid ≠ pid) → (t q).staticPrio.toInt32 = NOTFOUND

theorem IsTarget.unique {p' : Slot} (h : IsTarget t pid p) (h' : IsTarget t pid p') : p' = p := by
  rcases lt_trichotomy p' p with hlt | heq | hlt
  · exact absurd h'.has (h.first p' hlt h'.used)
  · exact heq
  · exact absurd h.has (h'.first p hlt h.used)

/-- The target is not before the first slot with the pid. -/
theorem IsTarget.le (h : IsTarget t pid p) (hfirst : ∀ i, i < q → (t i).pid ≠ pid) : q ≤ p :=
  not_lt.mp (fun hlt => hfirst p hlt h.has)

/-- The first slot with the pid is the target if it is in use. -/
theorem isTarget_first (hpid : (t q).pid = pid) (hfirst : ∀ i, i < q → (t i).pid ≠ pid)
    (hused : (t q).state ≠ .unused) : IsTarget t pid q :=
  ⟨hused, hpid, fun i hi _ => hfirst i hi⟩

/-- The dynamic priority of the target is never touched. -/
theorem priorityTable_target_dynamic (h : IsTarget t pid p)
    (hfirst : ∀ i, i < q → (t i).pid ≠ pid) :
    (priorityTable t newPriority q p).dynamicPrio = (t p).dynamicPrio := by
  rcases (h.le hfirst).eq_or_lt with heq | hlt
  · rw [← heq, priorityTable_self]
  · rw [priorityTable_of_gt hlt]

theorem uint32_toInt32_inj {a b : UInt32} (h : a.toInt32 = b.toInt32) : a = b := by
  have hback := congrArg Int32.toUInt32 h
  simpa using hback

/-- A call that stops at `q` and does not yield is as documented exactly if it
does no harm. -/
theorem documented_iff (hpid : (t q).pid = pid) (hfirst : ∀ i, i < q → (t i).pid ≠ pid)
    (hquiet : dynBefore t q ≤ (t q).dynamicPrio) :
    Documented t (priorityTable t newPriority q) newPriority pid (t q).staticPrio.toInt32 False ↔
      Harmless t newPriority pid q := by
  constructor
  · intro h
    constructor
    case has => exact hpid
    case first => exact hfirst
    case quiet => exact hquiet
    case settled =>
      intro i hi hused
      have hother := h.others i hused (fun htarget => hfirst i hi htarget.has)
      rw [priorityTable_of_lt hi] at hother
      exact hother
    case computed =>
      intro p hp
      rw [← h.computed p hp, priorityTable_target_dynamic hp hfirst]
    case behind =>
      intro p hp hfree
      have hlt : q < p := by
        refine (hp.le hfirst).lt_of_ne ?_
        intro heq
        exact hp.used (heq ▸ hfree)
      have hset := h.set p hp
      rw [priorityTable_of_gt hlt] at hset
      exact ⟨hset, uint32_toInt32_inj (h.returned p hp)⟩
    case absent => exact h.absent
  · intro h
    constructor
    case set =>
      intro p hp
      rcases (hp.le hfirst).eq_or_lt with heq | hlt
      · rw [← heq, priorityTable_self]
      · rw [priorityTable_of_gt hlt]
        by_cases hused : (t q).state = .unused
        · exact (h.behind p hp hused).1
        · exact absurd (hp.unique (isTarget_first hpid hfirst hused)) hlt.ne
    case computed =>
      intro p hp
      rw [priorityTable_target_dynamic hp hfirst, h.computed p hp]
    case returned =>
      intro p hp
      by_cases hused : (t q).state = .unused
      · rw [(h.behind p hp hused).2]
      · rw [hp.unique (isTarget_first hpid hfirst hused)]
    case rescheduled =>
      intro p hp
      rw [priorityTable_target_dynamic hp hfirst]
      simp
    case absent => exact h.absent
    case others =>
      intro i hused hi
      rcases lt_trichotomy i q with hlt | heq | hlt
      · rw [priorityTable_of_lt hlt]
        exact h.settled i hlt hused
      · rw [heq] at hused hi
        exact absurd (isTarget_first hpid hfirst hused) hi
      · rw [priorityTable_of_gt hlt]
        exact ⟨rfl, rfl, rfl⟩

/-- The call yields exactly if the slot before has the larger priority. -/
theorem reschedules_iff {s : Kernel} (h : s.Quiet) (newPriority : Int32) (hpid : (s.procs q).pid = pid)
    (hfirst : ∀ i, i < q → (s.procs i).pid ≠ pid) :
    reschedules newPriority pid s ↔ (s.procs q).dynamicPrio < dynBefore s.procs q := by
  obtain ⟨oldDyn, s', hloop, hold, hdyn, _, _⟩ := setPriorityLoop_first h newPriority hpid hfirst
  rw [← hold, ← hdyn]
  constructor
  · rintro ⟨q', oldStat, oldDyn', s'', hloop', hgt⟩
    rw [hloop] at hloop'
    cases hloop'
    exact hgt
  · intro hgt
    exact ⟨q, _, oldDyn, s', hloop, hgt⟩

/-- `set_priority` returns as documented exactly if the first slot with the pid
is harmless.  The calling process and the table are arbitrary. -/
theorem setPriority_documented_iff (e : Entry) (newPriority pid : Int32) :
    (∃ r s', setPriority newPriority pid e.kernel = .ok (r, s') ∧
      Documented e.kernel.procs s'.procs newPriority pid r
        (reschedules newPriority pid e.kernel)) ↔
      ∃ q, Harmless e.kernel.procs newPriority pid q := by
  by_cases hex : ∃ q, (e.kernel.procs q).pid = pid
  · obtain ⟨q, hpid, hfirst⟩ := exists_first_slot hex
    obtain ⟨s', hprocs, hrun⟩ := setPriority_found e.quiet newPriority hpid hfirst
    have hyield := reschedules_iff e.quiet newPriority hpid hfirst
    by_cases hle : dynBefore e.kernel.procs q ≤ (e.kernel.procs q).dynamicPrio
    · have hno : reschedules newPriority pid e.kernel ↔ False := by
        rw [hyield, iff_false]
        exact UInt32.not_lt.mpr hle
      rw [hrun, if_pos hle, propext hno]
      constructor
      · rintro ⟨r, s'', hok, hdoc⟩
        cases hok
        rw [hprocs] at hdoc
        exact ⟨q, (documented_iff hpid hfirst hle).mp hdoc⟩
      · rintro ⟨q', h⟩
        obtain rfl := first_slot_unique hpid hfirst h.has h.first
        refine ⟨_, s', rfl, ?_⟩
        rw [hprocs]
        exact (documented_iff hpid hfirst hle).mpr h
    · rw [hrun, if_neg hle]
      constructor
      · rintro ⟨r, s'', hok, _⟩
        cases hok
      · rintro ⟨q', h⟩
        obtain rfl := first_slot_unique hpid hfirst h.has h.first
        exact absurd h.quiet hle
  · rw [setPriority_absent e.quiet newPriority (fun q hq => hex ⟨q, hq⟩)]
    constructor
    · rintro ⟨r, s', hok, _⟩
      cases hok
    · rintro ⟨q, h⟩
      exact absurd ⟨q, h.has⟩ hex

/-- Two processes without a bonus.  The first one has the dynamic priority `dyn`. -/
def twoEntry (dyn : UInt32) : Entry where
  kernel :=
    { firstEntry.kernel with
      procs := fun i =>
        if i = 0 then
          { Proc.zero.alloc 1 0 with
            state := .running, rTime := 1, sTime := 3, rbi := 0, dynamicPrio := dyn }
        else if i = 1 then
          { Proc.zero.alloc 2 0 with
            state := .runnable, rTime := 1, sTime := 3, rbi := 0, dynamicPrio := 50 }
        else Proc.zero }
  quiet := ⟨fun _ => rfl, rfl, rfl⟩

/-- The second process gets priority 10.  Its dynamic priority stays 50 instead
of 10, and that of the first process, which was 40, becomes 50. -/
theorem setPriority_other_process :
    ((setPriority 10 2 (twoEntry 40).kernel).toOption.map
        (fun x => (x.1, (x.2.procs 1).dynamicPrio, (x.2.procs 0).dynamicPrio)) =
      some (50, 50, 50)) ∧
    ((twoEntry 40).kernel.procs 1).newDynamic 10 = 10 ∧
    ((twoEntry 40).kernel.procs 0).dynamicPrio = 40 := by
  decide +kernel

end Xv6.Process
