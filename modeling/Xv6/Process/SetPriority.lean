import Mathlib.Data.List.FinRange
import Mathlib.Order.WellFounded
import Xv6.Process.Spinlock
import Xv6.Process.Priority

/-!
# `set_priority`

`set_priority(new_priority, pid)` walks the table until it meets the pid.
On the way it recomputes the dynamic priority of every slot it passes, and
it keeps the old dynamic priority of the last one in `old_dyn_priority`.
After the loop it compares that value with the dynamic priority of the slot
it stopped at, and it yields if the value is larger.

Three things go wrong there.

* If no slot has the pid, the loop ends with `p = &proc[NPROC]`, and the
  comparison reads past the table.
* `old_dyn_priority` belongs to the slot before the target, or is `-1` when
  the target is slot 0.  The comparison is unsigned, so `-1` is larger than
  any priority.
* The branch takes the lock of `p` and then calls `yield`.  A hart that
  holds a lock never comes back from `yield` (`Kernel.Quiet.acquire_yield`).

`sysSetPriority_returns_iff` says exactly when the call returns.
-/

namespace Xv6.Process

open Kernel Function

/-- The loop of `set_priority` over the slots that are left, with
`old_dyn_priority`.  The result is the slot that the loop stopped at, or
`none` for `&proc[NPROC]`, then `old_stat_priority` and
`old_dyn_priority`. -/
def setPriorityLoop (newPriority pid : Int32) :
    List Slot → Int32 → Kernel → Except Crash (Option Slot × Int32 × Int32 × Kernel)
  | [], oldDyn, s => .ok (none, NOTFOUND, oldDyn, s)
  | q :: rest, oldDyn, s => do
      let s ← s.acquire q
      let p := s.procs q
      if p.pid = pid then
        let s ← (s.setProc q { p with staticPrio := newPriority.toUInt32 }).release q
        .ok (some q, p.staticPrio.toInt32, oldDyn, s)
      else
        let s ← (s.setProc q p.recompute).release q
        setPriorityLoop newPriority pid rest p.dynamicPrio.toInt32 s

/-- `set_priority`. -/
def setPriority (newPriority pid : Int32) (s : Kernel) : Except Crash (Int32 × Kernel) := do
  let (p, oldStat, oldDyn, s) ←
    setPriorityLoop newPriority pid (List.finRange NPROC) NOTFOUND s
  match p with
  | none => .error .outOfBounds
  | some q =>
      -- `int > uint` compares as unsigned
      if oldDyn.toUInt32 > (s.procs q).dynamicPrio then
        let s ← s.acquire q
        let s ← s.yield
        let s ← s.release q
        .ok (oldStat, s)
      else .ok (oldStat, s)

/-- `sys_set_priority`.  It reads its first argument as `pid` and its second
as `new_priority`, and passes them on in that order, so the first argument
still becomes the new priority. -/
def sysSetPriority (arg0 arg1 : Int32) (s : Kernel) : Except Crash (Int32 × Kernel) :=
  let pid := arg0
  let newPriority := arg1
  setPriority pid newPriority s

/-- The state in which a system call starts: some process runs, and the
hart is quiet. -/
structure Entry where
  kernel : Kernel
  quiet : kernel.Quiet

/-- `old_dyn_priority`, as the comparison reads it, when the loop stops at
slot `q` of the table `t`: the dynamic priority of the slot before `q`, or
`NOTFOUND` at slot 0. -/
def dynBefore (t : Table) (q : Slot) : UInt32 :=
  if q.val = 0 then NOTFOUND.toUInt32
  else (t ⟨q.val - 1, by omega⟩).dynamicPrio

/-- The condition on the table under which `set_priority` leaves the branch
alone.  Some slot has the pid, and at the first such slot the dynamic
priority is not below that of the slot before it. -/
def SafeTarget (t : Table) (pid : Int32) : Prop :=
  ∃ q : Slot, (t q).pid = pid ∧ (∀ i, i < q → (t i).pid ≠ pid) ∧
    dynBefore t q ≤ (t q).dynamicPrio

/-! ## What the loop computes -/

variable {q i : Slot} {t : Table}

section Loop

variable {newPriority pid : Int32} {s : Kernel}

/-- The loop at a slot with the pid. -/
theorem setPriorityLoop_hit (h : s.Quiet) (rest : List Slot) (oldDyn : Int32)
    (hpid : (s.procs q).pid = pid) : setPriorityLoop newPriority pid (q :: rest) oldDyn s
      = .ok (some q, (s.procs q).staticPrio.toInt32, oldDyn,
          { s with
            procs := update s.procs q
              { s.procs q with staticPrio := newPriority.toUInt32 }
            intena := true }) := by
  have hsec := h.section q
    (fun t => update t q { t q with staticPrio := newPriority.toUInt32 })
  rw [h.acquire q] at hsec
  rw [setPriorityLoop, h.acquire q]
  simp only [bind, Except.bind] at hsec ⊢
  rw [if_pos hpid, setProc, hsec]

/-- The loop at a slot with another pid. -/
theorem setPriorityLoop_miss (h : s.Quiet) (rest : List Slot) (oldDyn : Int32)
    (hpid : (s.procs q).pid ≠ pid) : setPriorityLoop newPriority pid (q :: rest) oldDyn s
      = setPriorityLoop newPriority pid rest (s.procs q).dynamicPrio.toInt32
          { s with
            procs := update s.procs q (s.procs q).recompute
            intena := true } := by
  have hsec := h.section q (fun t => update t q (t q).recompute)
  rw [h.acquire q] at hsec
  rw [setPriorityLoop, h.acquire q]
  simp only [bind, Except.bind] at hsec ⊢
  rw [if_neg hpid, setProc, hsec]

/-- A pass over a slot keeps every pid. -/
theorem pid_update_recompute (t : Table) (q i : Slot) :
    (update t q (t q).recompute i).pid = (t i).pid := by
  by_cases hi : i = q
  · rw [hi, update_self]
    rfl
  · rw [update_of_ne hi]

/-- If no slot that is left has the pid, the loop runs off the table. -/
theorem setPriorityLoop_absent (newPriority : Int32) :
    ∀ (slots : List Slot) (oldDyn : Int32) (s : Kernel), s.Quiet →
      (∀ q ∈ slots, (s.procs q).pid ≠ pid) →
      ∃ d s', setPriorityLoop newPriority pid slots oldDyn s = .ok (none, NOTFOUND, d, s') := by
  intro slots
  induction slots with
  | nil =>
    intro oldDyn s _ _
    exact ⟨oldDyn, s, rfl⟩
  | cons q rest ih =>
    intro oldDyn s h hmiss
    rw [setPriorityLoop_miss h rest oldDyn (hmiss q (by simp))]
    refine ih _ _ (h.withProcs _ _) ?_
    intro i hi
    rw [pid_update_recompute]
    exact hmiss i (by simp [hi])

/-- `old_dyn_priority` after the loop has passed the slots `passed` of the
table `t`. -/
def dynAfter (t : Table) (oldDyn : Int32) (passed : List Slot) : Int32 :=
  (passed.getLast?.map (fun q => (t q).dynamicPrio.toInt32)).getD oldDyn

/-- The table after the loop has passed the slots `passed` and has stopped at
`q`. -/
def loopTable (t : Table) (newPriority : Int32) (passed : List Slot) (q : Slot) : Table :=
  fun i =>
    if i ∈ passed then (t i).recompute
    else if i = q then { t q with staticPrio := newPriority.toUInt32 }
    else t i

/-- A slot that is passed once. -/
theorem loopTable_cons (newPriority : Int32) {passed : List Slot} (hi : i ∉ passed) (hq : q ≠ i) :
    loopTable (update t i (t i).recompute) newPriority passed q =
      loopTable t newPriority (i :: passed) q := by
  funext j
  unfold loopTable
  by_cases hj : j = i
  · subst hj
    simp [hi, Ne.symm hq]
  · simp [hj, update_of_ne hq]

/-- The loop passes the slots before the first one with the pid, and stops
there.  It leaves the dynamic priority of that slot alone. -/
theorem setPriorityLoop_found (newPriority : Int32) (rest : List Slot) :
    ∀ (passed : List Slot) (oldDyn : Int32) (s : Kernel), s.Quiet →
      (q :: passed).Nodup → passed.Nodup →
      (∀ i ∈ passed, (s.procs i).pid ≠ pid) → (s.procs q).pid = pid →
      ∃ s', setPriorityLoop newPriority pid (passed ++ q :: rest) oldDyn s
          = .ok (some q, (s.procs q).staticPrio.toInt32, dynAfter s.procs oldDyn passed, s') ∧
        s'.Quiet ∧ s'.procs = loopTable s.procs newPriority passed q := by
  intro passed
  induction passed with
  | nil =>
    intro oldDyn s h _ _ _ hpid
    refine ⟨_, setPriorityLoop_hit h rest oldDyn hpid, h.withProcs _ _, ?_⟩
    funext i
    simp [loopTable, update_apply]
  | cons i passed ih =>
    intro oldDyn s h hq hnodup hmiss hpid
    have hqi : q ≠ i := by
      intro he
      exact (List.nodup_cons.mp hq).1 (by simp [he])
    have hqp : (q :: passed).Nodup := by
      refine List.nodup_cons.mpr ⟨?_, (List.nodup_cons.mp hnodup).2⟩
      intro hmem
      exact (List.nodup_cons.mp hq).1 (by simp [hmem])
    rw [List.cons_append, setPriorityLoop_miss h _ oldDyn (hmiss i (by simp))]
    obtain ⟨s', hrun, hquiet, hprocs⟩ :=
      ih (s.procs i).dynamicPrio.toInt32 _ (h.withProcs _ _) hqp
        (List.nodup_cons.mp hnodup).2
        (fun j hj => by rw [pid_update_recompute]; exact hmiss j (by simp [hj]))
        (by rw [pid_update_recompute]; exact hpid)
    refine ⟨s', ?_, hquiet, ?_⟩
    · rw [hrun]
      -- the value of `old_dyn_priority` is that of the last slot passed,
      -- which no earlier pass has changed
      have hdynAfter : dynAfter (update s.procs i (s.procs i).recompute)
            (s.procs i).dynamicPrio.toInt32 passed
          = dynAfter s.procs oldDyn (i :: passed) := by
        unfold dynAfter
        cases hlast : passed.getLast? with
        | none =>
          rw [List.getLast?_eq_none_iff] at hlast
          subst hlast
          rfl
        | some j =>
          have hji : j ≠ i := by
            intro he
            exact (List.nodup_cons.mp hnodup).1 (he ▸ List.mem_of_getLast? hlast)
          have hne : passed ≠ [] := by
            intro he
            rw [he] at hlast
            simp at hlast
          rw [List.getLast?_cons, hlast]
          simp [update_of_ne hji]
      rw [hdynAfter]
      simp only [update_of_ne hqi]
    · rw [hprocs]
      exact loopTable_cons newPriority (List.nodup_cons.mp hnodup).1 hqi

end Loop

/-! ## When the call returns -/

/-- The slots before `q`, in table order. -/
def slotsBefore (q : Slot) : List Slot := (List.finRange NPROC).take q.val

theorem finRange_split (q : Slot) :
    List.finRange NPROC = slotsBefore q ++ q :: (List.finRange NPROC).drop (q.val + 1) := by
  have hq : q.val < (List.finRange NPROC).length := by simp
  have hget : (List.finRange NPROC)[q.val] = q := by simp
  conv_lhs => rw [← List.take_append_drop q.val (List.finRange NPROC)]
  rw [slotsBefore, List.drop_eq_getElem_cons hq, hget]

theorem mem_slotsBefore : i ∈ slotsBefore q ↔ i < q := by
  rw [slotsBefore, List.mem_take_iff_getElem]
  constructor
  · rintro ⟨j, hj, rfl⟩
    simp at hj ⊢
    exact Fin.lt_def.mpr (by simpa using hj)
  · intro hi
    exact ⟨i.val, by simpa using hi, by simp⟩

theorem nodup_cons_slotsBefore (q : Slot) : (q :: slotsBefore q).Nodup := by
  refine List.nodup_cons.mpr ⟨?_, (List.nodup_finRange NPROC).take⟩
  intro hmem
  exact lt_irrefl q (mem_slotsBefore.mp hmem)

/-- The last slot before `q` is the one that `dynBefore` reads. -/
theorem dynAfter_slotsBefore (t : Table) (q : Slot) :
    (dynAfter t NOTFOUND (slotsBefore q)).toUInt32 = dynBefore t q := by
  unfold dynAfter dynBefore slotsBefore
  by_cases hq : q.val = 0
  · simp [hq]
  · have hlt : q.val - 1 < NPROC := by omega
    rw [if_neg hq, List.getLast?_take, if_neg hq]
    have hget : (List.finRange NPROC)[q.val - 1]? = some ⟨q.val - 1, hlt⟩ := by
      simp [hlt]
    rw [hget]
    simp

/-- The first slot with a pid that some slot has. -/
theorem exists_first_slot {pid : Int32} (h : ∃ q, (t q).pid = pid) :
    ∃ q, (t q).pid = pid ∧ ∀ i, i < q → (t i).pid ≠ pid := by
  obtain ⟨q, hq, hmin⟩ :=
    WellFounded.has_min (r := ((· < ·) : Slot → Slot → Prop)) wellFounded_lt
      {q | (t q).pid = pid} h
  exact ⟨q, hq, fun i hi hpid => hmin i hpid hi⟩

/-- The table that `set_priority` leaves if the first slot with the pid is
`q`. -/
def priorityTable (t : Table) (newPriority : Int32) (q : Slot) : Table :=
  loopTable t newPriority (slotsBefore q) q

theorem priorityTable_of_lt {newPriority : Int32} (h : i < q) :
    priorityTable t newPriority q i = (t i).recompute :=
  if_pos (mem_slotsBefore.mpr h)

theorem priorityTable_self (t : Table) (newPriority : Int32) (q : Slot) :
    priorityTable t newPriority q q = { t q with staticPrio := newPriority.toUInt32 } := by
  rw [priorityTable, loopTable, if_neg (fun h => lt_irrefl q (mem_slotsBefore.mp h)), if_pos rfl]

theorem priorityTable_of_gt {newPriority : Int32} (h : q < i) :
    priorityTable t newPriority q i = t i := by
  rw [priorityTable, loopTable, if_neg (fun h' => lt_asymm h (mem_slotsBefore.mp h')),
    if_neg (ne_of_gt h)]

/-- The loop over the whole table, when the first slot with the pid is `q`. -/
theorem setPriorityLoop_first {s : Kernel} (h : s.Quiet) (newPriority : Int32) {pid : Int32}
    (hpid : (s.procs q).pid = pid) (hfirst : ∀ i, i < q → (s.procs i).pid ≠ pid) :
    ∃ oldDyn s', setPriorityLoop newPriority pid (List.finRange NPROC) NOTFOUND s
        = .ok (some q, (s.procs q).staticPrio.toInt32, oldDyn, s') ∧
      oldDyn.toUInt32 = dynBefore s.procs q ∧
      (s'.procs q).dynamicPrio = (s.procs q).dynamicPrio ∧ s'.Quiet ∧
      s'.procs = priorityTable s.procs newPriority q := by
  obtain ⟨s', hloop, hquiet, hprocs⟩ :=
    setPriorityLoop_found newPriority
      ((List.finRange NPROC).drop (q.val + 1)) (slotsBefore q) NOTFOUND s h
      (nodup_cons_slotsBefore q) (List.nodup_cons.mp (nodup_cons_slotsBefore q)).2
      (fun i hi => hfirst i (mem_slotsBefore.mp hi)) hpid
  rw [← finRange_split q] at hloop
  refine ⟨_, s', hloop, dynAfter_slotsBefore s.procs q, ?_, hquiet, hprocs⟩
  rw [hprocs]
  show (priorityTable s.procs newPriority q q).dynamicPrio = _
  rw [priorityTable_self]

/-- `set_priority` when the first slot with the pid is `q`. -/
theorem setPriority_found {s : Kernel} (h : s.Quiet) (newPriority : Int32) {pid : Int32}
    (hpid : (s.procs q).pid = pid) (hfirst : ∀ i, i < q → (s.procs i).pid ≠ pid) :
    ∃ s', s'.procs = priorityTable s.procs newPriority q ∧
      setPriority newPriority pid s =
        if dynBefore s.procs q ≤ (s.procs q).dynamicPrio then
          .ok ((s.procs q).staticPrio.toInt32, s')
        else .error (.panic (if q = s'.current then "acquire" else "sched locks")) := by
  obtain ⟨oldDyn, s', hloop, hold, hdyn, hquiet, hprocs⟩ :=
    setPriorityLoop_first h newPriority hpid hfirst
  refine ⟨s', hprocs, ?_⟩
  have hrun : setPriority newPriority pid s
      = if dynBefore s.procs q > (s.procs q).dynamicPrio then
          (s'.acquire q >>= yield) >>= fun u =>
            (u.release q) >>= fun u' => .ok ((s.procs q).staticPrio.toInt32, u')
        else .ok ((s.procs q).staticPrio.toInt32, s') := by
    rw [setPriority, hloop]
    simp only [bind, Except.bind]
    rw [hold, hdyn]
    split
    · cases s'.acquire q with
      | error e => rfl
      | ok u => rfl
    · rfl
  rw [hrun]
  split
  · rename_i hgt
    rw [hquiet.acquire_yield q, if_neg (UInt32.not_le.mpr hgt)]
    rfl
  · rename_i hle
    rw [if_pos (UInt32.not_lt.mp hle)]

/-- `set_priority` when no slot has the pid. -/
theorem setPriority_absent {s : Kernel} (h : s.Quiet) (newPriority : Int32) {pid : Int32}
    (hnone : ∀ q, (s.procs q).pid ≠ pid) : setPriority newPriority pid s = .error .outOfBounds := by
  obtain ⟨d, s', hloop⟩ := setPriorityLoop_absent newPriority
    (List.finRange NPROC) NOTFOUND s h (fun q _ => hnone q)
  rw [setPriority, hloop]
  rfl

/-- Only one slot is the first one with the pid. -/
theorem first_slot_unique {pid : Int32} {q' : Slot} (hpid : (t q).pid = pid)
    (hfirst : ∀ i, i < q → (t i).pid ≠ pid) (hpid' : (t q').pid = pid)
    (hfirst' : ∀ i, i < q' → (t i).pid ≠ pid) : q' = q := by
  rcases lt_trichotomy q' q with hlt | heq | hlt
  · exact absurd hpid' (hfirst q' hlt)
  · exact heq
  · exact absurd hpid (hfirst' q hlt)

/-- `set_priority` returns exactly when its target is safe.  For every
table, every calling process and every pair of arguments, the call ends in
`proc[NPROC]` or in a panic in all other cases. -/
theorem sysSetPriority_returns_iff (e : Entry) (newPriority pid : Int32) :
    (∃ r, sysSetPriority newPriority pid e.kernel = .ok r) ↔
      SafeTarget e.kernel.procs pid := by
  rw [sysSetPriority]
  by_cases hex : ∃ q, (e.kernel.procs q).pid = pid
  · obtain ⟨q, hpid, hfirst⟩ := exists_first_slot hex
    obtain ⟨s', _, hrun⟩ := setPriority_found e.quiet newPriority hpid hfirst
    rw [hrun]
    constructor
    · rintro ⟨r, hr⟩
      split at hr
      · rename_i hle
        exact ⟨q, hpid, hfirst, hle⟩
      · cases hr
    · rintro ⟨q', hpid', hfirst', hle⟩
      rw [first_slot_unique hpid hfirst hpid' hfirst'] at hle
      exact ⟨_, if_pos hle⟩
  · rw [setPriority_absent e.quiet newPriority (fun q hq => hex ⟨q, hq⟩)]
    constructor
    · rintro ⟨r, hr⟩
      cases hr
    · rintro ⟨q, hpid, _⟩
      exact absurd ⟨q, hpid⟩ hex

/-! ## The first process -/

/-- The table right after the scheduler has dispatched the first process:
`procinit`, `userinit`, one scan, and the store of `RUNNING`. -/
def firstDispatch : Table :=
  let t := (scanTable bootTable).1
  update t 0 { t 0 with state := .running }

/-- The first process at its first system call, on hart 0. -/
def firstEntry : Entry where
  kernel :=
    { cpu := 0
      current := 0
      noff := 0
      intena := true
      intr := true
      lock := fun _ => none
      procs := firstDispatch }
  quiet := ⟨fun _ => rfl, rfl, rfl⟩

/-- The first process has pid 1 and sits in slot 0.  If it sets its own
priority to 10, `old_dyn_priority` is still `-1`, and the kernel panics.
If it names a pid that no slot has, the kernel reads `proc[NPROC]`. -/
theorem sysSetPriority_first_crashes :
    crashOf (sysSetPriority 10 1 firstEntry.kernel) = some (.panic "acquire") ∧
      crashOf (sysSetPriority 10 7 firstEntry.kernel) = some .outOfBounds := by
  decide +kernel

end Xv6.Process
