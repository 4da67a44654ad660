import Mathlib.Data.List.Pairwise
import Xv6.Process.Kill
import Xv6.Process.Wait

/-!
# What `wait` and `waitx` report

`Ledger` is the history of the process table.  It numbers the processes that
have lived in a slot, and keeps the pid that `allocproc` gave to each of
them, the status that each passed to `exit`, and the reports of `wait` and
`waitx`.  In every run whose dispatches find their slot `RUNNABLE`, no
process is reported twice, and every report is made by the parent with the
pid and the status of the process (`Ledger.Sound`).

Together with `Parents` and `Family` this is the protocol of `exit` and
`wait`.  It needs that condition.  A hart that has tested a slot may
dispatch it after the process has exited and been reaped and the slot has
been taken by the next `fork`: the new process then runs without a parent.
-/

namespace Xv6.Process

open Xv6.Lib Function

variable {s s' : Sys} {l : Step} {c : Cpu} {q i : Slot}

/-! ## The history -/

/-- What a call of `wait` or `waitx` has reported. -/
structure Report where
  caller : Slot
  child : Slot
  /-- Which of the processes that have lived in the slot of the child. -/
  life : Nat
  pid : Int32
  status : Int32
  /-- `pp->parent`, when the call reports the child. -/
  parent : Option Slot
  deriving DecidableEq

structure Ledger where
  /-- The number of the process that lives in a slot. -/
  life : Slot → Nat
  /-- The pid that `allocproc` gave to a process. -/
  pids : Slot → Nat → Option Int32
  /-- The status with which a process has exited. -/
  exits : Slot → Nat → Option Int32
  reports : List Report

/-- The process that becomes a zombie in the step, and its status. -/
def exiting (s : Sys) : Step → Option (Slot × Int32)
  | .thread c _ =>
      match s.pc c with
      | .away q =>
          match s.thread q with
          | .exitStore status => some (q, status)
          | _ => none
      | _ => none
  | _ => none

/-- The caller and the child, if a `wait` or `waitx` returns the pid of a
child in the step: it leaves its scan, and its `copyout` has not failed. -/
def reported (s : Sys) (l : Step) (s' : Sys) : Option (Slot × Slot) :=
  match l with
  | .thread c a =>
      match s.pc c with
      | .away q =>
          match s.thread q, s'.thread q with
          | .code (.waitScan _ (i :: _) _), .code (.run _) =>
              if a.fails then none else some (q, i)
          | _, _ => none
      | _ => none
  | _ => none

/-- The history after a step. -/
def Ledger.record (h : Ledger) (s : Sys) (l : Step) (s' : Sys) : Ledger where
  life i := if Allocated s s' i then h.life i + 1 else h.life i
  pids i n := if Allocated s s' i ∧ n = h.life i + 1 then some s.nextpid else h.pids i n
  exits i n :=
    match exiting s l with
    | some (j, status) => if i = j ∧ n = h.life i then some status else h.exits i n
    | none => h.exits i n
  reports :=
    match reported s l s' with
    | some (q, i) =>
        { caller := q
          child := i
          life := h.life i
          pid := (s.procs i).pid
          status := (s.procs i).xstate
          parent := (s.procs i).parent } :: h.reports
    | none => h.reports

/-- The history when the harts enter `scheduler()`: the first process has
its pid. -/
def Ledger.start : Ledger where
  life _ := 0
  pids i n := if i = initproc ∧ n = 0 then some 1 else none
  exits _ _ := none
  reports := []

/-- The history agrees with the table, and its reports are right. -/
structure Ledger.Sound (h : Ledger) (s : Sys) : Prop where
  pid : ∀ i, (s.procs i).state ≠ .unused → h.pids i (h.life i) = some (s.procs i).pid
  status : ∀ i, (s.procs i).state = .zombie → h.exits i (h.life i) = some (s.procs i).xstate
  past : ∀ r ∈ h.reports, r.life ≤ h.life r.child ∧
    ((s.procs r.child).state ≠ .unused → r.life < h.life r.child)
  nodup : (h.reports.map (fun r => (r.child, r.life))).Nodup
  right : ∀ r ∈ h.reports, r.parent = some r.caller ∧ h.pids r.child r.life = some r.pid ∧
    h.exits r.child r.life = some r.status

/-! ## What a step does to a slot -/

/-- A free slot stays free, or `allocproc` takes it. -/
theorem Change.unused {p : Proc} (h : Change s i l p) (hx : Exclusive s.core)
    (hok : ReadyDispatch s l) (hfree : (s.procs i).state = .unused) :
    p.state = .unused ∨ p = (s.procs i).alloc s.nextpid s.ticks := by
  have hrun : ∀ c, s.pc c = .away i → (s.thread i).stored = false → False := by
    intro c hpc hst
    cases hfree.symm.trans (hx.running_at hpc rfl hst)
  cases h with
  | alloc => exact Or.inr rfl
  | dispatch hpc =>
    rw [hok.runnable hpc] at hfree
    cases hfree
  | @publish _ _ r _ hth =>
    cases hfree.symm.trans (hx.child_used hth rfl)
  | yieldStore hpc hth => exact (hrun _ hpc (by rw [hth]; rfl)).elim
  | sleepStore hpc hth => exact (hrun _ hpc (by rw [hth]; rfl)).elim
  | exitStore hpc hth => exact (hrun _ hpc (by rw [hth]; rfl)).elim
  | wakeup | irqWakeup => exact Or.inl (by simp [Proc.wake, hfree])
  | kill => exact Or.inl (by simp [Proc.kill, hfree])
  | tick => exact Or.inl ((Proc.tick_state _).trans hfree)
  | keep | scan | fault | pass | setPriority | adopt | reparent | tidy => exact Or.inl hfree
  | allocFail | giveUp | reap => exact Or.inl rfl

/-- The pid of a process stays the same until it is reaped. -/
theorem Change.pid_kept {p : Proc} (h : Change s i l p) (hused : (s.procs i).state ≠ .unused)
    (hp : p.state ≠ .unused) : p.pid = (s.procs i).pid := by
  cases h with
  | alloc hunused => exact absurd hunused hused
  | allocFail | giveUp | reap => exact absurd rfl hp
  | wakeup | irqWakeup =>
    rcases Proc.wake_cases (s.procs i) _ with heq | ⟨_, _, heq⟩ <;> rw [heq]
  | tick =>
    unfold Proc.tick
    split <;> rfl
  | keep | scan | fault | kill | pass | setPriority | adopt | reparent | tidy | dispatch | publish
  | yieldStore | sleepStore | exitStore => rfl

/-- The slot of the process that exits in the step. -/
theorem exiting_running {status : Int32} (hx : Exclusive s.core)
    (h : exiting s l = some (i, status)) : (s.procs i).state = .running := by
  unfold exiting at h
  split at h
  · split at h
    · rename_i q hpc
      split at h
      · rename_i hth
        cases h
        exact hx.running_at hpc hth rfl
      · cases h
    · cases h
  · cases h

/-- A child that is reported is a zombie child of the caller, and its slot is
freed. -/
theorem Rule.reported (hr : Rule s l s') (h : reported s l s' = some (q, i)) :
    (s.procs i).parent = some q ∧ (s.procs i).state = .zombie ∧
      (s'.procs i).state = .unused := by
  unfold Process.reported at h
  split at h
  · split at h
    · rename_i r hpc
      split at h
      · rename_i hth hth'
        split at h
        · cases h
        · rename_i hfail
          cases h
          cases hr with
          | thread hpc' _ hrule =>
            rw [hpc] at hpc'
            cases hpc'
            rw [hth] at hrule
            cases hrule with
            | code hrule =>
              cases hrule with
              | back hk => cases hk
              | waitSkip | waitAlive =>
                rw [show (s.setThread q _).thread q = _ from update_self _ _ _] at hth'
                cases hth'
              | waitFail => exact absurd rfl hfail
              | waitReap hparent _ hzombie _ =>
                refine ⟨hparent, hzombie, ?_⟩
                show (update s.procs i _ i).state = _
                rw [update_self]
                rfl
      · cases h
    · cases h
  · cases h

/-! ## What a step adds to the history -/

variable {h : Ledger}

/-- A process that has been numbered keeps its pid. -/
theorem Ledger.record_pids {n : Nat} (hn : n ≤ h.life i) :
    (h.record s l s').pids i n = h.pids i n := by
  have hne : ¬(Allocated s s' i ∧ n = h.life i + 1) := by
    rintro ⟨_, rfl⟩
    omega
  exact if_neg hne

/-- A process that has been reaped keeps its status. -/
theorem Ledger.record_exits {n : Nat} (hx : Exclusive s.core)
    (hn : (s.procs i).state = .running → n ≠ h.life i) :
    (h.record s l s').exits i n = h.exits i n := by
  simp only [record]
  split
  · rename_i j status hexit
    split
    · rename_i hj
      exact absurd hj.2 (hn (exiting_running hx (hj.1 ▸ hexit)))
    · rfl
  · rfl

theorem Ledger.record_life_le : h.life i ≤ (h.record s l s').life i := by
  simp only [record]
  split <;> omega

/-- The reports after a step: those before, and one more about a zombie child
of the caller whose slot is freed. -/
theorem Rule.reports (hr : Rule s l s') (h : Ledger) :
    (h.record s l s').reports = h.reports ∨
      ∃ q i, (s.procs i).parent = some q ∧ (s.procs i).state = .zombie ∧
        (s'.procs i).state = .unused ∧
        (h.record s l s').reports =
          ⟨q, i, h.life i, (s.procs i).pid, (s.procs i).xstate, (s.procs i).parent⟩ ::
            h.reports := by
  simp only [Ledger.record]
  split
  · rename_i q i heq
    obtain ⟨hparent, hzombie, hfree⟩ := hr.reported heq
    exact Or.inr ⟨q, i, hparent, hzombie, hfree, rfl⟩
  · exact Or.inl rfl

theorem Ledger.Sound.pid_step (hs : h.Sound s) (hx : Exclusive s.core) (hok : ReadyDispatch s l)
    (hr : Rule s l s') (i : Slot) (hused : (s'.procs i).state ≠ .unused) :
    (h.record s l s').pids i ((h.record s l s').life i) = some (s'.procs i).pid := by
  by_cases hfree : (s.procs i).state = .unused
  · rcases (hr.change i).unused hx hok hfree with hstay | halloc
    · exact absurd hstay hused
    · have hnew : Allocated s s' i := ⟨hfree, by rw [halloc]; rfl⟩
      simp only [record, hnew, halloc, Proc.alloc, and_self, if_true]
  · have hold : ¬Allocated s s' i := fun hnew => hfree hnew.1
    rw [show (h.record s l s').life i = h.life i from if_neg hold, record_pids le_rfl,
      hs.pid i hfree, (hr.change i).pid_kept hfree hused]

theorem Ledger.Sound.status_step (hs : h.Sound s) (hx : Exclusive s.core) (hr : Rule s l s')
    (i : Slot) (hz : (s'.procs i).state = .zombie) :
    (h.record s l s').exits i ((h.record s l s').life i) = some (s'.procs i).xstate := by
  rcases (hr.change i).zombie hz with ⟨hold, hsame⟩ | ⟨c, a, hl, hpc, hth⟩
  · have hnew : ¬Allocated s s' i := by
      rintro ⟨hfree, _⟩
      rw [hold] at hfree
      cases hfree
    rw [show (h.record s l s').life i = h.life i from if_neg hnew, record_exits hx, hs.status i hold,
      hsame]
    intro hrun
    rw [hold] at hrun
    cases hrun
  · have hnew : ¬Allocated s s' i := by
      rintro ⟨_, hused⟩
      rw [hz] at hused
      cases hused
    rw [show (h.record s l s').life i = h.life i from if_neg hnew]
    simp only [record, exiting, hl, hpc, hth, and_self, if_true]

theorem Ledger.Sound.step (hs : h.Sound s) (hx : Exclusive s.core) (hok : ReadyDispatch s l)
    (hr : Rule s l s') : (h.record s l s').Sound s' := by
  -- what holds of the reports before the step
  have hpast : ∀ r ∈ h.reports, r.life ≤ (h.record s l s').life r.child ∧
      ((s'.procs r.child).state ≠ .unused → r.life < (h.record s l s').life r.child) := by
    intro r hmem
    obtain ⟨hle, hlt⟩ := hs.past r hmem
    refine ⟨hle.trans record_life_le, fun hused => ?_⟩
    by_cases hfree : (s.procs r.child).state = .unused
    · rcases (hr.change r.child).unused hx hok hfree with hstay | halloc
      · exact absurd hstay hused
      · have hnew : Allocated s s' r.child := ⟨hfree, by rw [halloc]; rfl⟩
        rw [show (h.record s l s').life r.child = h.life r.child + 1 from if_pos hnew]
        omega
    · exact (hlt hfree).trans_le record_life_le
  have hright : ∀ r ∈ h.reports, r.parent = some r.caller ∧
      (h.record s l s').pids r.child r.life = some r.pid ∧
      (h.record s l s').exits r.child r.life = some r.status := by
    intro r hmem
    obtain ⟨hparent, hpid, hstatus⟩ := hs.right r hmem
    obtain ⟨hle, hlt⟩ := hs.past r hmem
    refine ⟨hparent, (record_pids hle).trans hpid, ?_⟩
    rw [record_exits hx, hstatus]
    intro hrun heq
    have := hlt (by rw [hrun]; decide)
    omega
  refine ⟨hs.pid_step hx hok hr, hs.status_step hx hr, ?_, ?_, ?_⟩
  · intro r hmem
    rcases hr.reports h with hsame | ⟨q, i, _, _, hfree, hmore⟩
    · exact hpast r (hsame ▸ hmem)
    · rw [hmore] at hmem
      rcases List.mem_cons.mp hmem with rfl | hmem
      · exact ⟨record_life_le, fun hused => absurd hfree hused⟩
      · exact hpast r hmem
  · rcases hr.reports h with hsame | ⟨q, i, _, hzombie, _, hmore⟩
    · rw [hsame]
      exact hs.nodup
    · rw [hmore, List.map_cons, List.nodup_cons]
      refine ⟨?_, hs.nodup⟩
      -- the process has not been reported, since its slot is still taken
      intro hmem
      obtain ⟨r, hr, heq⟩ := List.mem_map.mp hmem
      simp only [Prod.mk.injEq] at heq
      have hlt := (hs.past r hr).2 (by rw [heq.1, hzombie]; decide)
      rw [heq.1, heq.2] at hlt
      exact absurd hlt (Nat.lt_irrefl _)
  · intro r hmem
    rcases hr.reports h with hsame | ⟨q, i, hparent, hzombie, _, hmore⟩
    · exact hright r (hsame ▸ hmem)
    · rw [hmore] at hmem
      rcases List.mem_cons.mp hmem with rfl | hmem
      · refine ⟨hparent, ?_, ?_⟩
        · rw [record_pids le_rfl]
          exact hs.pid i (by rw [hzombie]; decide)
        · rw [record_exits hx]
          · exact hs.status i hzombie
          · intro hrun
            rw [hzombie] at hrun
            cases hrun
      · exact hright r hmem

/-! ## Runs -/

/-- The invariants of the protocol of `exit` and `wait`. -/
structure Protocol (s : Sys) : Prop where
  exclusive : Exclusive s.core
  locks : CondLocks s
  sleepers : Sleepers s
  parents : Parents s
  family : Family s

theorem Protocol.step (h : Protocol s) (hok : ReadyDispatch s l) (hr : Rule s l s') :
    Protocol s' := by
  obtain ⟨hx, hc, hsleep, hparents, hfamily⟩ := h
  exact ⟨exclusive_of_moves hx (hr.moves hx hok), hc.step hx hr, hsleep.step hx hc hr,
    hparents.step hx hok hr, hfamily.scanned_step hx hc hr, hfamily.roused_step hx hc hr⟩

theorem boot_protocol : Protocol bootSys := by
  have hth : ∀ q, ∃ r, bootSys.thread q = .resume r ∧ r.body = none := by
    intro q
    show ∃ r, update (fun _ => Thread.resume .dead) initproc _ q = _ ∧ _
    by_cases hq : q = initproc
    · rw [hq, update_self]
      exact ⟨_, rfl, rfl⟩
    · rw [update_of_ne hq]
      exact ⟨_, rfl, rfl⟩
  have hbody : ∀ q, (bootSys.thread q).body = none := by
    intro q
    obtain ⟨r, hr, hnone⟩ := hth q
    rw [hr]
    exact hnone
  have hparent : ∀ i, (bootSys.procs i).parent = none := by
    intro i
    simp only [bootSys, bootTable, update_apply]
    split <;> rfl
  have hstate : ∀ i, i ≠ initproc → (bootSys.procs i).state = .unused := by
    intro i hi
    simp [bootSys, bootTable, hi, Proc.zero]
  refine ⟨boot_exclusive, boot_condLocks, ?_, ⟨?_, ?_, rfl, ?_, ?_⟩, ⟨?_, ?_⟩⟩
  · intro q hsleep
    by_cases hq : q = initproc
    · rw [hq] at hsleep
      cases hsleep
    · rw [hstate q hq] at hsleep
      cases hsleep
  · intro i p hp
    rw [hparent i] at hp
    cases hp
  · intro i hi hlive
    rw [hstate i hi] at hlive
    cases hlive
  · intro q np hn
    rw [hbody q] at hn
    cases hn
  · intro q rest hn
    rw [Thread.orphans, hbody q] at hn
    cases hn
  · intro q slots _ i hp
    rw [hparent i] at hp
    cases hp
  · intro i q _ hp
    rw [hparent i] at hp
    cases hp

theorem boot_ledger : Ledger.start.Sound bootSys := by
  have hstate : ∀ i, i ≠ initproc → (bootSys.procs i).state = .unused := by
    intro i hi
    simp [bootSys, bootTable, hi, Proc.zero]
  refine ⟨?_, ?_, ?_, List.nodup_nil, ?_⟩
  · intro i hused
    by_cases hi : i = initproc
    · rw [hi]
      rfl
    · exact absurd (hstate i hi) hused
  · intro i hz
    by_cases hi : i = initproc
    · rw [hi] at hz
      cases hz
    · rw [hstate i hi] at hz
      cases hz
  · intro r hr
    cases hr
  · intro r hr
    cases hr

/-- The parent of a zombie does not sleep in `wait` when `wait_lock` is
free. -/
theorem Protocol.no_lost_exit (h : Protocol s) (hfree : s.lock (.cond waitLock) = none)
    (hsleep : (s.procs q).state = .sleeping) (hin : (s.thread q).insideWait = true)
    (hp : (s.procs i).parent = some q) : (s.procs i).state ≠ .zombie := by
  intro hz
  obtain ⟨chan, n, k, hchan, hk, hpending⟩ := h.sleepers q hsleep
  -- the process sleeps on itself
  have hwait : InWait s q := by
    have hkind : ∃ call slots kids, (s.thread q).pending = some (.waitScan call slots kids) := by
      revert hin
      generalize s.thread q = th
      intro hin
      unfold Thread.insideWait at hin
      split at hin <;> first | exact ⟨_, _, _, rfl⟩ | cases hin
    obtain ⟨call, slots, kids, heq⟩ := hkind
    rw [hpending] at heq
    cases heq
    cases hk
    exact ⟨Or.inr ⟨hsleep, hchan⟩, _, _, _, hpending⟩
  obtain ⟨k', hcond, r, slots, hth, _⟩ := h.family.roused i q (Or.inl hz) hp hwait
  exact h.locks.not_free h.exclusive hfree r (by rw [hth]; exact hcond)

/-- In every run whose dispatches find their slot `RUNNABLE`: when
`wait_lock` is free, every process but the first has a parent that is alive,
and nobody sleeps in `wait` or `waitx` with a zombie child.  No process is
reported twice, and every report is made by the parent of the process at
that moment, with the pid and the status of the process. -/
theorem exit_wait_protocol (x : Sys × Ledger)
    (h : ReachWhen (fun x l => ReadyDispatch x.1 l) (instrument next Ledger.record)
      ((bootSys, Ledger.start) = ·) x) :
    (x.1.lock (.cond waitLock) = none →
      (∀ i, i ≠ initproc →
        (x.1.procs i).state = .used ∧ (x.1.procs i).parent.isSome = true ∨
          (x.1.procs i).state.live = true →
        ∃ p, (x.1.procs i).parent = some p ∧ (x.1.procs p).state.alive = true) ∧
      ∀ q, (x.1.procs q).state = .sleeping → (x.1.thread q).insideWait = true →
        ∀ i, (x.1.procs i).parent = some q → (x.1.procs i).state ≠ .zombie) ∧
    (x.2.reports.map (fun r => (r.child, r.life))).Nodup ∧
    ∀ r ∈ x.2.reports, r.parent = some r.caller ∧ x.2.pids r.child r.life = some r.pid ∧
      x.2.exits r.child r.life = some r.status := by
  have hx : Protocol x.1 ∧ x.2.Sound x.1 := by
    refine h.invariant (I := fun x => Protocol x.1 ∧ x.2.Sound x.1) ?_ ?_
    · rintro x rfl
      exact ⟨boot_protocol, boot_ledger⟩
    · rintro x l y ⟨hp, hs⟩ hok hnext
      obtain ⟨hstep, hrec⟩ := instrument_eq_some hnext
      have hr := next_rule hstep
      rw [hrec]
      exact ⟨hp.step hok hr, hs.step hp.exclusive hok hr⟩
  obtain ⟨hp, hs⟩ := hx
  refine ⟨fun hfree => ⟨?_, ?_⟩, hs.nodup, hs.right⟩
  · intro i hi hcase
    have hsome : (x.1.procs i).parent.isSome = true := by
      rcases hcase with ⟨_, hsome⟩ | hlive
      · exact hsome
      · exact hp.parents.orphan i hi hlive
    obtain ⟨p, hparent⟩ := Option.isSome_iff_exists.mp hsome
    exact ⟨p, hparent, hp.parents.alive i p hparent⟩
  · intro q hsleep hin i hparent
    exact hp.no_lost_exit hfree hsleep hin hparent

/-- The first process forks.  Its child runs on hart 1 and exits with status
7, and the first process waits for it. -/
def waitRun : List Step :=
  initRun ++ forkRun 0 1 ++ pickRun 1 ++ goRun 1 1 ++ exitRun 1 7 ++
    .thread 0 (.wait .wait) :: goRun 0 3

theorem exit_wait_protocol_waitRun :
    ∃ x, ReachWhen (fun x l => ReadyDispatch x.1 l) (instrument next Ledger.record)
        ((bootSys, Ledger.start) = ·) x ∧
      x.2.reports = [⟨0, 1, 1, 2, 7, some 0⟩] ∧ x.2.pids 1 1 = some 2 ∧
      x.2.exits 1 1 = some 7 := by
  obtain ⟨x, hx, heq⟩ :
      ∃ x, ReachWhen (fun x l => ReadyDispatch x.1 l) (instrument next Ledger.record)
          ((bootSys, Ledger.start) = ·) x ∧ x.2.reports = [⟨0, 1, 1, 2, 7, some 0⟩] :=
    exists_reachWhen_of_run waitRun rfl (by decide +kernel)
  obtain ⟨_, hpid, hstatus⟩ := (exit_wait_protocol x hx).2.2 ⟨0, 1, 1, 2, 7, some 0⟩
    (by rw [heq]; exact List.mem_singleton.mpr rfl)
  exact ⟨x, hx, heq, hpid, hstatus⟩

/-- No process runs on two harts. -/
def OneCpu (s : Sys) : Prop :=
  ∀ c c', c ≠ c' → (s.pc c).engaged = none ∨ (s.pc c).engaged ≠ (s.pc c').engaged

/-- The processes that the harts run, listed once, have no duplicate: one
look at each hart decides it. -/
theorem oneCpu_iff (s : Sys) :
    ((List.finRange NCPU).filterMap (fun c => (s.pc c).engaged)).Nodup ↔ OneCpu s := by
  rw [List.Nodup, List.pairwise_filterMap]
  constructor
  · intro h c c' hne
    have hsymm : Std.Symm (fun c c' => ∀ i, (s.pc c).engaged = some i →
        ∀ j, (s.pc c').engaged = some j → i ≠ j) :=
      ⟨fun _ _ hxy i hi j hj => (hxy j hj i hi).symm⟩
    have hpair := h.forall (List.mem_finRange c) (List.mem_finRange c') hne
    cases hc : (s.pc c).engaged with
    | none => exact Or.inl rfl
    | some i => exact Or.inr (fun heq => hpair i hc i heq.symm rfl)
  · intro h
    refine (List.nodup_finRange NCPU).imp ?_
    intro c c' hne i hi j hj hij
    rcases h c c' hne with hnone | hdiff
    · rw [hi] at hnone
      cases hnone
    · exact hdiff (by rw [hi, hj, hij])

instance (s : Sys) : Decidable (OneCpu s) :=
  decidable_of_iff _ (oneCpu_iff s)

/-- Harts 1 and 2 test the child of the first process.  It runs on hart 1 and
exits, the first process reaps it and calls `fork` again, and hart 2 goes on
while the new process has no parent yet. -/
def orphanRun : List Step :=
  initRun ++ forkRun 0 1 ++ List.replicate 67 (.sched 2) ++ pickRun 1 ++ goRun 1 1 ++
    exitRun 1 0 ++ .thread 0 (.wait .wait) :: goRun 0 3 ++ .thread 0 .fork :: goRun 0 3 ++
    List.replicate 2 (.sched 2)

/-- The new process is `RUNNING`, `wait_lock` is free, and there is no
parent, although no process ever runs on two harts. -/
theorem running_orphan :
    ∃ s, ReachWhen (fun s _ => OneCpu s) next (bootSys = ·) s ∧ OneCpu s ∧
      s.lock (.cond waitLock) = none ∧ (s.procs 1).state = .running ∧
      (s.procs 1).parent = none :=
  exists_reachWhen_of_run orphanRun rfl (by decide +kernel)

end Xv6.Process
