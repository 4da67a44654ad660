import Xv6.Process.Kill
import Xv6.Process.Locks
import Xv6.Process.Selection

/-!
# Ties between equal priorities

Among processes of the same dynamic priority the scan of `scheduler()`
prefers the one with the smaller `N_RUN`, and then the older one.  `N_RUN` is
set to 0 by `allocproc` and never incremented, so age alone decides.

The history counts the dispatches of each process since `allocproc`.  On one
hart, and if no interrupt between the scan and the dispatch makes a process
`RUNNABLE`, the slot that is dispatched is the one that the scan prefers
(`Preferred`).  So no process of the same priority has been dispatched less
often exactly if that holds of the preferred process (`AgeFair`), and `N_RUN`
is the number of dispatches exactly for the processes that were never
dispatched.
-/

namespace Xv6.Process

open Xv6.Lib

variable {s s' : Sys} {l : Step} {i m q : Slot}

/-! ## The history -/

/-- The slot that the step dispatches. -/
def dispatches (s : Sys) : Step → Option Slot
  | .sched c => (s.pc c).lockedSlot
  | _ => none

/-- The number of dispatches of each process since `allocproc`. -/
def countPicks (picks : Slot → Nat) (s : Sys) (l : Step) (s' : Sys) (i : Slot) : Nat :=
  if Allocated s s' i then 0 else if dispatches s l = some i then picks i + 1 else picks i

/-- The hart that makes the step. -/
def Step.hart : Step → Cpu
  | .sched c | .thread c _ | .trap c _ | .irq c _ => c

/-- The slot that `scheduler()` on the hart has found, or is about to lock. -/
def SchedPc.choosing : SchedPc → Bool
  | .scanned _ | .tested _ => true
  | _ => false

/-- The slot that an interrupt handler makes `RUNNABLE` in the step. -/
def irqWakes (s : Sys) : Step → Option Slot
  | .irq c _ =>
      match s.irq c with
      | some (.wakeup chan (i :: _) _) =>
          if (s.procs i).state = .sleeping ∧ (s.procs i).chan = chan then some i else none
      | _ => none
  | _ => none

/-- The steps of hart 0, if no interrupt makes a process `RUNNABLE` between
the scan and the dispatch. -/
def AloneAndQuiet (s : Sys) (l : Step) : Prop :=
  l.hart = 0 ∧ ((s.pc 0).choosing = true → irqWakes s l = none)

instance (s : Sys) (l : Step) : Decidable (AloneAndQuiet s l) :=
  inferInstanceAs (Decidable (_ ∧ _))

/-! ## The order of the scan -/

/-- What the scan prefers, when `N_RUN` is the same: the smaller dynamic
priority, then the older process, then the later slot. -/
def Preferred (t : Table) (m i : Slot) : Prop :=
  (t m).dynamicPrio < (t i).dynamicPrio ∨ (t m).dynamicPrio = (t i).dynamicPrio ∧
    ((t m).ctime < (t i).ctime ∨ (t m).ctime = (t i).ctime ∧ i ≤ m)

instance (t : Table) (m i : Slot) : Decidable (Preferred t m i) :=
  inferInstanceAs (Decidable (_ ∨ _))

theorem Preferred.antisymm {t : Table} (h : Preferred t m i) (h' : Preferred t i m) : m = i := by
  simp only [Preferred, UInt32.lt_iff_toNat_lt, ← UInt32.toNat_inj, Fin.le_def] at h h'
  exact Fin.ext (by omega)

/-- Among the slots `V`, the scan remembers the preferred one of those that
are `RUNNABLE`. -/
def Leads (t : Table) (V : Slot → Prop) (best : Best) : Prop :=
  match best.minProc with
  | none => ∀ i, V i → (t i).state ≠ .runnable
  | some m =>
      V m ∧ (t m).state = .runnable ∧ best.minPriority.toUInt32 = (t m).dynamicPrio ∧
        ∀ i, V i → (t i).state = .runnable → Preferred t m i

theorem preferred_iff {t : Table} (hruns : ∀ i, (t i).nRun = 0) :
    Preferred t m i ↔ Chosen t m i := by
  simp only [Preferred, Chosen, Proc.KeyLe, hruns, UInt32.lt_iff_toNat_lt, UInt32.le_iff_toNat_le,
    ← UInt32.toNat_inj, Fin.le_def, imp_iff_not_or, true_and]
  omega

/-- The scan selects by age alone. -/
theorem leads_iff {t : Table} {V : Slot → Prop} {best : Best} (hruns : ∀ i, (t i).nRun = 0) :
    Leads t V best ↔ Selects t V best := by
  unfold Leads Selects
  cases best.minProc with
  | none => rfl
  | some m => simp only [preferred_iff hruns]

/-- The scan of one more slot. -/
theorem Leads.scanSlot {t : Table} {V : Slot → Prop} {best : Best} (h : Leads t V best)
    (hruns : ∀ i, (t i).nRun = 0) (hlater : ∀ i, V i → i < q) :
    Leads (scanSlot t best q).1 (fun i => V i ∨ i = q) (scanSlot t best q).2 := by
  have hruns' : ∀ i, ((Process.scanSlot t best q).1 i).nRun = 0 := by
    intro i
    rw [scanSlot_fst, Function.update_apply]
    split
    · rw [Proc.scanned_nRun]
      exact hruns q
    · exact hruns i
  rw [leads_iff hruns']
  exact ((leads_iff hruns).mp h).scanSlot hlater

/-! ## The invariant -/

/-- What the place of `scheduler()` on hart 0 says about the table. -/
def Choice (t : Table) : SchedPc → Prop
  | .scan rest best => Ordered rest ∧ Leads t (· ∉ rest) best
  | .scanned best => Leads t (fun _ => True) best
  | .tested m | .locked m =>
      (t m).state = .runnable ∧ ∀ i, (t i).state = .runnable → Preferred t m i
  | _ => True

structure Choosing (s : Sys) : Prop where
  runs : ∀ i, (s.procs i).nRun = 0
  choice : Choice s.procs (s.pc 0)
  /-- An interrupt is handled in places that allow it. -/
  irq : s.irq 0 ≠ none → (∃ q, s.pc 0 = .away q) ∨ s.pc 0 = .start ∨ (s.pc 0).choosing = true

theorem Change.nRun {p : Proc} (h : Change s i l p) :
    p.nRun = (s.procs i).nRun ∨ p.nRun = 0 := by
  cases h with
  | alloc | allocFail => exact Or.inr rfl
  | wakeup | irqWakeup =>
    rcases Proc.wake_cases (s.procs i) _ with heq | ⟨_, _, heq⟩ <;> rw [heq] <;> exact Or.inl rfl
  | tick =>
    unfold Proc.tick
    split <;> exact Or.inl rfl
  | keep | scan | fault | kill | pass | setPriority | adopt | reparent | tidy | dispatch | publish
  | giveUp | reap | yieldStore | sleepStore | exitStore => exact Or.inl rfl

/-- A table that agrees on what the scan reads. -/
theorem Choice.congr {t t' : Table} {p : SchedPc} (hstate : ∀ i, (t' i).state = (t i).state)
    (hdyn : ∀ i, (t' i).dynamicPrio = (t i).dynamicPrio) (hctime : ∀ i, (t' i).ctime = (t i).ctime)
    (h : Choice t p) : Choice t' p := by
  have hpref : ∀ m i, Preferred t' m i ↔ Preferred t m i := by
    intro m i
    simp only [Preferred, hdyn, hctime]
  cases p with
  | scan | scanned | tested | locked =>
    simpa only [Choice, Leads, hstate, hdyn, hpref] using h
  | start | dispatched | away | back | dropping => exact True.intro

theorem Choice.sched_step (h : Choice s.procs (s.pc 0)) (hruns : ∀ i, (s.procs i).nRun = 0)
    (hr : SchedRule s 0 s') : Choice s'.procs (s'.pc 0) := by
  have hpc' : ∀ (t : Sys) p, (t.setPc 0 p).pc 0 = p := by
    simp [Sys.setPc]
  cases hr with
  | start =>
    rw [hpc']
    refine ⟨.all, ?_⟩
    intro i hi
    exact absurd (List.mem_finRange i) hi
  | @scan q rest best hpc _ =>
    rw [hpc] at h
    rw [hpc']
    refine ⟨h.1.tail, ?_⟩
    have hnext := h.2.scanSlot (q := q) hruns
      (fun i hi => h.1.later i hi q (List.mem_cons_self ..))
    show Leads (Process.scanSlot s.procs best q).1 (· ∉ rest) _
    simpa only [h.1.notMem_iff] using hnext
  | @scanned best hpc =>
    rw [hpc] at h
    rw [hpc']
    show Leads s.procs (fun _ => True) best
    simpa using h.2
  | test hpc hmin hready =>
    rw [hpc] at h
    rw [hpc']
    simp only [Choice, Leads, hmin] at h ⊢
    exact ⟨hready, fun i hi => h.2.2.2 i trivial hi⟩
  | lock hpc _ =>
    rw [hpc] at h
    rw [hpc']
    exact h
  | again | dispatch | enter | drop | free =>
    rw [hpc']
    exact True.intro

/-- An interrupt that makes no process `RUNNABLE` changes nothing that the
scan reads. -/
theorem IrqRule.same {c : Cpu} {r : Irq} {chan : Option Chan} (hr : IrqRule s c r s')
    (hirq : s.irq c = some r) (hquiet : irqWakes s (.irq c chan) = none) (i : Slot) :
    (s'.procs i).state = (s.procs i).state ∧
      (s'.procs i).dynamicPrio = (s.procs i).dynamicPrio ∧
      (s'.procs i).ctime = (s.procs i).ctime := by
  have hchange : Change s i (.irq c chan) (s'.procs i) := hr.change hirq i
  generalize s'.procs i = p at hchange ⊢
  cases hchange with
  | keep => exact ⟨rfl, rfl, rfl⟩
  | tick =>
    refine ⟨Proc.tick_state _, ?_⟩
    unfold Proc.tick
    split <;> exact ⟨rfl, rfl⟩
  | irqWakeup hirq' _ =>
    rcases Proc.wake_cases (s.procs i) _ with heq | ⟨hsleep, hchan, _⟩
    · rw [heq]
      exact ⟨rfl, rfl, rfl⟩
    · simp [irqWakes, hirq', hsleep, hchan] at hquiet

theorem ThreadRule.pc_away {c : Cpu} {a : Action} {th : Thread} (hr : ThreadRule s c q a th s')
    (hpc : s.pc c = .away q) : s'.pc c = .away q ∨ s'.pc c = .back q := by
  cases hr with
  | leave _ => exact Or.inr (Function.update_self _ _ _)
  | code hr =>
    cases hr <;> exact Or.inl hpc
  | _ => exact Or.inl hpc

theorem Choosing.step (h : Choosing s) (hok : AloneAndQuiet s l) (hr : Rule s l s') :
    Choosing s' := by
  have hruns : ∀ i, (s'.procs i).nRun = 0 := by
    intro i
    rcases (hr.change i).nRun with hsame | hzero
    · exact hsame.trans (h.runs i)
    · exact hzero
  obtain ⟨hart, hquiet⟩ := hok
  cases hr with
  | @sched c s' hirq hr =>
    rw [show c = 0 from hart] at hr hirq
    refine ⟨hruns, h.choice.sched_step h.runs hr, ?_⟩
    intro hsome
    exfalso
    revert hsome
    cases hr <;> exact fun hsome => hsome hirq
  | @thread c q a s' hpc hirq hr =>
    rw [show c = 0 from hart] at hpc hirq hr
    refine ⟨hruns, ?_, ?_⟩
    · rcases hr.pc_away hpc with hpc' | hpc' <;> rw [hpc'] <;> exact True.intro
    · rw [hr.frame.1, hirq]
      exact fun hsome => absurd rfl hsome
  | @trap c timer r hirq hi hin =>
    rw [show c = 0 from hart] at hirq hin ⊢
    refine ⟨hruns, h.choice, fun _ => ?_⟩
    show (∃ q, s.pc 0 = .away q) ∨ s.pc 0 = .start ∨ (s.pc 0).choosing = true
    unfold Sys.interruptible at hin
    cases hpc : s.pc 0 with
    | away q => exact Or.inl ⟨q, rfl⟩
    | start => exact Or.inr (Or.inl rfl)
    | scanned | tested => exact Or.inr (Or.inr rfl)
    | scan | locked | dispatched | back | dropping =>
      rw [hpc] at hin
      cases hin
  | @irq c chan r s' hirq hr =>
    rw [show c = 0 from hart] at hirq hr hquiet
    obtain ⟨hpc', _, _⟩ := hr.frame
    have hplace := h.irq (by rw [hirq]; exact nofun)
    refine ⟨hruns, ?_, fun _ => by rw [hpc']; exact hplace⟩
    rw [hpc']
    rcases hplace with ⟨q, hpc⟩ | hpc | hchoosing
    · rw [hpc]
      exact True.intro
    · rw [hpc]
      exact True.intro
    · have hsame := hr.same hirq (hquiet hchoosing)
      exact h.choice.congr (fun i => (hsame i).1) (fun i => (hsame i).2.1) (fun i => (hsame i).2.2)

/-! ## Runs -/

/-- Of the `RUNNABLE` processes, the one that the scan prefers has not been
dispatched more often than another of the same dynamic priority. -/
def AgeFair (s : Sys) (picks : Slot → Nat) : Prop :=
  ∀ j, (s.procs j).state = .runnable →
    (∀ i, (s.procs i).state = .runnable → Preferred s.procs j i) →
    ∀ i, (s.procs i).state = .runnable →
      (s.procs i).dynamicPrio = (s.procs j).dynamicPrio → picks j ≤ picks i

/-- Hart 0 takes a timer interrupt, handles it, and the process yields. -/
def yieldRun : List Step :=
  .trap 0 true :: List.replicate 132 (.irq 0 none) ++ goRun 0 3 ++ List.replicate 2 (.sched 0)

/-- The first process forks, and yields.  The scan prefers its child, which
is in a later slot. -/
def tieRun : List Step := initRun ++ forkRun 0 1 ++ yieldRun ++ List.replicate 68 (.sched 0)

/-- The first process yields once, forks, and yields again. -/
def olderRun : List Step :=
  initRun ++ yieldRun ++ pickRun 0 ++ goRun 0 1 ++ forkRun 0 1 ++ yieldRun ++
    List.replicate 68 (.sched 0)

end Xv6.Process
