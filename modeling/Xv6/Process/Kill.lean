import Xv6.Process.Changes

/-!
# Who sets `p->killed`

`kill(pid)` marks the first slot with that pid, in whatever state the slot
is.  A free slot has pid 0, so `kill(0)` marks the first free slot and
returns 0.  `freeproc` clears the mark and `allocproc` does not, so the next
process in that slot starts its life killed.

`Blame` is the history of a slot since `allocproc` took it: the pids that
`kill` was called with, and whether the process has faulted.  The mark is
justified by that history in every run in which no `kill(0)` looks at a free
slot.
-/

namespace Xv6.Process

open Xv6.Lib

/-- What has happened to each slot since `allocproc` took it. -/
structure Blame where
  /-- The pids of the calls of `kill` that were running. -/
  kills : Slot → List Int32
  /-- The handling of a fault of the process has set the mark. -/
  faulted : Slot → Bool

/-- The pid of the `kill` that makes the step, and the slot that it looks
at. -/
def killTarget (s : Sys) : Step → Option (Int32 × Slot)
  | .thread c _ =>
      match s.pc c with
      | .away q =>
          match s.thread q with
          | .code (.kill pid (i :: _)) => some (pid, i)
          | _ => none
      | _ => none
  | _ => none

/-- The slot whose fault the step handles. -/
def faulting (s : Sys) : Step → Option Slot
  | .thread c (.fault _) =>
      match s.pc c with
      | .away q => some q
      | _ => none
  | _ => none

/-- `allocproc` takes slot `i`. -/
def Allocated (s s' : Sys) (i : Slot) : Prop :=
  (s.procs i).state = .unused ∧ (s'.procs i).state = .used

instance (s s' : Sys) (i : Slot) : Decidable (Allocated s s' i) :=
  inferInstanceAs (Decidable (_ ∧ _))

/-- The history after a step. -/
def Blame.record (b : Blame) (s : Sys) (l : Step) (s' : Sys) : Blame where
  kills i :=
    if Allocated s s' i then [] else ((killTarget s l).map Prod.fst).toList ++ b.kills i
  faulted i := if Allocated s s' i then false else faulting s l = some i || b.faulted i

/-- No history. -/
def Blame.start : Blame := ⟨fun _ => [], fun _ => false⟩

/-- The step in which `kill(pid)` marks slot `i`.  The call returns 0. -/
def KillHits (s : Sys) (l : Step) (pid : Int32) (i : Slot) : Prop :=
  killTarget s l = some (pid, i) ∧ (s.procs i).pid = pid

/-- The condition under which the mark is justified.  A `kill` that looks at
a free slot has a pid other than 0, and no fault is handled in a free
slot. -/
def SparesFree (s : Sys) (l : Step) : Prop :=
  (∀ x ∈ killTarget s l, (s.procs x.2).state = .unused → x.1 ≠ 0) ∧
    ∀ q ∈ faulting s l, (s.procs q).state ≠ .unused

-- the bounds are options, so neither quantifier is decided by going through a whole type
instance (s : Sys) (l : Step) : Decidable (SparesFree s l) :=
  @instDecidableAnd _ _ (Option.decidableForallMem _) (Option.decidableForallMem _)

/-! ## Free slots -/

/-- A free slot has pid 0 and no mark. -/
def Clear (s : Sys) : Prop :=
  ∀ i, (s.procs i).state = .unused → (s.procs i).pid = 0 ∧ (s.procs i).killed = false

variable {s s' : Sys} {l : Step} {i : Slot} {p : Proc}

/-- The slot that a `kill` marks is not free. -/
theorem Clear.kill_used {pid : Int32} (h : Clear s) (hok : SparesFree s l)
    (hhit : KillHits s l pid i) : (s.procs i).state ≠ .unused := by
  intro hfree
  exact hok.1 _ hhit.1 hfree (hhit.2.symm.trans (h i hfree).1)

theorem killTarget_eq {c : Cpu} {a : Action} {q : Slot} {pid : Int32} {rest : List Slot}
    (hpc : s.pc c = .away q) (hth : s.thread q = .code (.kill pid (i :: rest))) :
    killTarget s (.thread c a) = some (pid, i) := by
  simp only [killTarget, hpc, hth]

theorem faulting_eq {c : Cpu} {locked : Bool} (hpc : s.pc c = .away i) :
    faulting s (.thread c (.fault locked)) = some i := by
  simp only [faulting, hpc]

theorem Change.clear (h : Clear s) (hok : SparesFree s l) (hc : Change s i l p)
    (hfree : p.state = .unused) : p.pid = 0 ∧ p.killed = false := by
  cases hc with
  | keep => exact h i hfree
  | scan _ hready => exact h i hfree
  | pass | setPriority | adopt | reparent | tidy => exact h i hfree
  | fault hpc _ => exact absurd hfree (hok.2 i (faulting_eq hpc))
  | wakeup | irqWakeup =>
    rcases Proc.wake_cases (s.procs i) _ with hsame | ⟨_, _, hwake⟩
    · rw [hsame] at hfree ⊢
      exact h i hfree
    · rw [hwake] at hfree
      cases hfree
  | kill hpc hth hpid =>
    have hused := h.kill_used hok ⟨killTarget_eq hpc hth, hpid⟩
    rcases Proc.kill_cases (s.procs i) with ⟨_, hkill⟩ | ⟨_, hkill⟩ <;> rw [hkill] at hfree
    · exact absurd hfree hused
    · cases hfree
  | tick =>
    rw [Proc.tick_state] at hfree
    unfold Proc.tick
    rw [hfree]
    exact h i hfree
  | allocFail | giveUp | reap => exact ⟨rfl, rfl⟩
  | dispatch | alloc | publish | yieldStore | sleepStore | exitStore => cases hfree

theorem Clear.step (h : Clear s) (hok : SparesFree s l) (hr : Rule s l s') : Clear s' := by
  intro i hfree
  exact Change.clear h hok (hr.change i) hfree

/-! ## The mark -/

/-- The mark of a process is justified by its history. -/
def Justified (s : Sys) (b : Blame) : Prop :=
  ∀ i, (s.procs i).state ≠ .unused → (s.procs i).killed = true →
    (s.procs i).pid ∈ b.kills i ∨ b.faulted i = true

/-- A new process has no mark.  Any other step that leaves the mark set
found it set, or handles a fault of the process, or is the `kill` of its
pid. -/
theorem Change.killed (h : Clear s) (hc : Change s i l p) (hkilled : p.killed = true) :
    ¬ ((s.procs i).state = .unused ∧ p.state = .used) ∧
      (p.pid = (s.procs i).pid ∧ (s.procs i).killed = true ∧ (s.procs i).state ≠ .unused ∨
        KillHits s l p.pid i ∨ faulting s l = some i) := by
  -- a store that leaves the pid and the mark alone
  have hsame : p.killed = (s.procs i).killed → p.pid = (s.procs i).pid ∨
      (s.procs i).state = .unused → ¬ ((s.procs i).state = .unused ∧ p.state = .used) ∧
        p.pid = (s.procs i).pid ∧ (s.procs i).killed = true ∧ (s.procs i).state ≠ .unused := by
    intro hk hpid
    rw [hk] at hkilled
    have hused : (s.procs i).state ≠ .unused := by
      intro hfree
      rw [(h i hfree).2] at hkilled
      cases hkilled
    exact ⟨fun hn => hused hn.1, hpid.resolve_right hused, hkilled, hused⟩
  cases hc with
  | keep | scan | dispatch | pass | setPriority | adopt | publish | reparent | tidy | yieldStore
  | sleepStore | exitStore => exact (hsame rfl (Or.inl rfl)).imp_right Or.inl
  | alloc hunused => exact (hsame rfl (Or.inr hunused)).imp_right Or.inl
  | wakeup | irqWakeup =>
    refine (hsame ?_ (Or.inl ?_)).imp_right Or.inl <;>
      rcases Proc.wake_cases (s.procs i) _ with hw | ⟨_, _, hw⟩ <;> rw [hw]
  | tick =>
    refine (hsame ?_ (Or.inl ?_)).imp_right Or.inl <;> unfold Proc.tick <;> split <;> rfl
  | allocFail | giveUp | reap => cases hkilled
  | fault hpc hth =>
    refine ⟨?_, Or.inr (Or.inr (faulting_eq hpc))⟩
    rintro ⟨hfree, hused⟩
    rw [show (s.procs i).state = .used from hused] at hfree
    cases hfree
  | kill hpc hth hpid =>
    refine ⟨?_, Or.inr (Or.inl ⟨?_, rfl⟩)⟩
    · rintro ⟨hfree, hused⟩
      simp [Proc.kill, hfree] at hused
    · rw [killTarget_eq hpc hth, ← hpid]
      rfl

theorem Justified.step {b : Blame} (h : Justified s b) (hclear : Clear s) (hr : Rule s l s') :
    Justified s' (b.record s l s') := by
  intro i hlive hkilled
  obtain ⟨hnew, hwhy⟩ := Change.killed hclear (hr.change i) hkilled
  have hnew : ¬ Allocated s s' i := hnew
  simp only [Blame.record, if_neg hnew, List.mem_append, Bool.or_eq_true, decide_eq_true_eq]
  rcases hwhy with ⟨hpid, hold, hused⟩ | hhit | hfault
  · rw [hpid]
    exact (h i hused hold).imp Or.inr Or.inr
  · rw [hhit.1]
    exact Or.inl (Or.inl (by simp))
  · exact Or.inr (Or.inl hfault)

/-! ## Every run -/

/-- In every run in which no `kill(0)` looks at a free slot, the mark of a
live process is justified by its history, `kill` returns 0 only for the pid
of a slot that is in use, and a new process has no mark. -/
theorem kill_hits_target (x : Sys × Blame)
    (h : ReachWhen (fun x l => SparesFree x.1 l) (instrument next Blame.record)
      ((bootSys, Blame.start) = ·) x) :
    Justified x.1 x.2 ∧
      ∀ l s', SparesFree x.1 l → next x.1 l = some s' →
        (∀ pid i, KillHits x.1 l pid i →
          (x.1.procs i).state ≠ .unused ∧ (x.1.procs i).pid = pid) ∧
        ∀ i, Allocated x.1 s' i → (s'.procs i).killed = false := by
  have hinv : Clear x.1 ∧ Justified x.1 x.2 := by
    refine h.invariant (I := fun x => Clear x.1 ∧ Justified x.1 x.2) ?_ ?_
    · rintro x rfl
      constructor
      · intro i hfree
        by_cases hi : i = 0
        · rw [hi] at hfree
          cases hfree
        · simp [bootSys, bootTable, hi, Proc.zero]
      · intro i _ hkilled
        by_cases hi : i = 0
        · rw [hi] at hkilled
          cases hkilled
        · simp [bootSys, bootTable, hi, Proc.zero] at hkilled
    · rintro x l y ⟨hclear, hjust⟩ hok hnext
      obtain ⟨hnext, hy⟩ := instrument_eq_some hnext
      have hr := next_rule hnext
      exact ⟨hclear.step hok hr, hy ▸ hjust.step hclear hr⟩
  obtain ⟨hclear, hjust⟩ := hinv
  refine ⟨hjust, ?_⟩
  intro l s' hok hnext
  constructor
  · intro pid i hhit
    exact ⟨hclear.kill_used hok hhit, hhit.2⟩
  · intro i hnew
    by_contra hkilled
    rw [Bool.not_eq_false] at hkilled
    exact (Change.killed hclear ((next_rule hnext).change i) hkilled).1 hnew

/-- The first process forks, and kills its child. -/
def killRun : List Step := initRun ++ forkRun 0 1 ++ .thread 0 (.kill 2) :: goRun 0 2

theorem kill_hits_target_killRun :
    ∃ x, ReachWhen (fun x l => SparesFree x.1 l) (instrument next Blame.record)
        ((bootSys, Blame.start) = ·) x ∧
      (x.1.procs 1).killed = true ∧ (x.1.procs 1).pid ∈ x.2.kills 1 := by
  obtain ⟨x, hx, hstate, hkilled, hfault⟩ :
      ∃ x, ReachWhen (fun x l => SparesFree x.1 l) (instrument next Blame.record)
          ((bootSys, Blame.start) = ·) x ∧
        (x.1.procs 1).state = .runnable ∧ (x.1.procs 1).killed = true ∧ x.2.faulted 1 = false :=
    exists_reachWhen_of_run killRun rfl (by decide +kernel)
  have hlive : (x.1.procs 1).state ≠ .unused := by
    rw [hstate]
    decide
  refine ⟨x, hx, hkilled, ((kill_hits_target x hx).1 1 hlive hkilled).resolve_right ?_⟩
  rw [hfault]
  decide

/-- The first process calls `kill(0)`, and then `fork`. -/
def killZeroRun : List Step :=
  initRun ++ .thread 0 (.kill 0) :: goRun 0 2 ++ .thread 0 .fork :: goRun 0 2

/-- The child has pid 2 and is marked, although no `kill` was called since
`allocproc` took its slot. -/
theorem killed_at_birth :
    ∃ x, Reach (instrument next Blame.record) ((bootSys, Blame.start) = ·) x ∧
      (x.1.procs 1).state = .used ∧ (x.1.procs 1).pid = 2 ∧ (x.1.procs 1).killed = true ∧
      x.2.kills 1 = [] ∧ x.2.faulted 1 = false :=
  exists_reachWhen_of_run killZeroRun rfl (by decide +kernel)

end Xv6.Process
