import Xv6.Process.Changes

/-!
# The range of the dynamic priority

`scheduler()` and `set_priority` compute `p->DYNAMIC_PRIO` from an unsigned
static priority and a signed bonus, as
`minOf(p->STATIC_PRIO + p->RBI, MAX_PRIO)`.  The sum is taken in 32 bits and
read as an `int`, and the minimum is stored as a `uint`.  There is no lower
bound, so a sum that is negative as an `int` is stored as a number above
`2^31`.

That happens for a static priority below `-RBI`, which `set_priority` does
not refuse, and for a bonus so large that the sum passes `2^31`.
`calculate_RBI` returns such a bonus: its subtraction is unsigned, and with
one tick of running time and 98 of waiting it gives `2^31 - 48`.

`recompute_inRange_iff` is the exact condition, and
`dynamic_prio_in_range` is what it gives for every run.
-/

namespace Xv6.Process

open Xv6.Lib

/-- `MIN_PRIO` of `kernel/defs.h`. -/
def MIN_PRIO : Int32 := 0

/-- The dynamic priority lies in `MIN_PRIO..MAX_PRIO`. -/
def Proc.InRange (p : Proc) : Prop :=
  MIN_PRIO.toUInt32 ≤ p.dynamicPrio ∧ p.dynamicPrio ≤ MAX_PRIO.toUInt32

/-- The static priority, read as an `int`, and the bonus have a sum that is
an `int` and not negative. -/
def Proc.SumFits (p : Proc) : Prop :=
  0 ≤ p.staticPrio.toInt32.toInt + (calculateRBI p.rTime p.sTime p.wTime).toInt ∧
    p.staticPrio.toInt32.toInt + (calculateRBI p.rTime p.sTime p.wTime).toInt < 2 ^ 31

instance (p : Proc) : Decidable p.SumFits := inferInstanceAs (Decidable (_ ∧ _))

/-! ## One computation -/

theorem calculateRBI_nonneg (r s w : UInt32) : 0 ≤ (calculateRBI r s w).toInt := by
  unfold calculateRBI
  split
  · decide
  · unfold maxOf
    split
    · rename_i h
      have := Int32.lt_iff_toInt_lt.mp h
      rw [show (0 : Int32).toInt = 0 from rfl] at this
      omega
    · decide

/-- The sum as the code computes it, as an `int`. -/
theorem sum_toInt (a : UInt32) (b : Int32) :
    (a + b.toUInt32).toInt32.toInt = (a.toInt32.toInt + b.toInt).bmod (2 ^ 32) := by
  have hb : b.toUInt32.toInt32 = b := Int32.toInt32_toUInt32 b
  rw [UInt32.toInt32_add, Int32.toInt_add, hb]

theorem toInt32_toInt (u : UInt32) : u.toInt32.toInt = (u.toNat : Int).bmod (2 ^ 32) := by
  rw [UInt32.toInt32, Int32.toInt, Int32.toBitVec, BitVec.toInt_eq_toNat_bmod]
  rfl

/-- The stored minimum is small exactly for a sum that is not negative. -/
theorem minOf_toUInt32_le (x : Int32) :
    (minOf x MAX_PRIO).toUInt32 ≤ MAX_PRIO.toUInt32 ↔ 0 ≤ x.toInt := by
  unfold minOf
  split
  · rename_i h
    constructor
    · intro hle
      have hnat : x.toUInt32.toNat ≤ 100 := UInt32.le_iff_toNat_le.mp hle
      have hx := toInt32_toInt x.toUInt32
      rw [Int32.toInt32_toUInt32, Int.bmod_eq_of_le (by omega) (by omega)] at hx
      omega
    · intro hx
      exact Int32.toUInt32_le (Int32.le_iff_toInt_le.mpr hx) (Int32.le_of_lt h)
  · rename_i h
    have hx := Int32.le_iff_toInt_le.mp (Int32.not_lt.mp h)
    rw [show MAX_PRIO.toInt = 100 from rfl] at hx
    constructor
    · intro _
      omega
    · intro _
      exact UInt32.le_refl _

/-- A sum of an `int` and of one that is not negative is not negative as
the code reads it exactly when it is so and fits. -/
theorem bmod_nonneg_iff {a b : Int} (ha : -2 ^ 31 ≤ a) (ha' : a < 2 ^ 31) (hb : 0 ≤ b)
    (hb' : b < 2 ^ 31) :
    0 ≤ (a + b).bmod (2 ^ 32) ↔ 0 ≤ a + b ∧ a + b < 2 ^ 31 := by
  rw [Int.bmod_def]
  split <;> omega

/-- The computed priority is in range exactly when the sum fits. -/
theorem recompute_inRange_iff (p : Proc) : p.recompute.InRange ↔ p.SumFits := by
  have hlow : MIN_PRIO.toUInt32 ≤ p.recompute.dynamicPrio :=
    UInt32.le_iff_toNat_le.mpr (Nat.zero_le _)
  have hs := Int32.le_toInt p.staticPrio.toInt32
  have hs' := Int32.toInt_lt p.staticPrio.toInt32
  have hr := calculateRBI_nonneg p.rTime p.sTime p.wTime
  have hr' := Int32.toInt_lt (calculateRBI p.rTime p.sTime p.wTime)
  rw [Proc.InRange, and_iff_right hlow]
  show (minOf _ MAX_PRIO).toUInt32 ≤ _ ↔ _
  rw [minOf_toUInt32_le, sum_toInt]
  exact bmod_nonneg_iff hs hs' hr hr'

/-- One tick of running time and 98 of waiting, with the default static
priority, give the bonus `2^31 - 48` and a sum of `2^31 + 2`. -/
example : ¬ ({ Proc.zero with
    staticPrio := DEFAULT_PRIO, rTime := 1, wTime := 98 } : Proc).SumFits := by
  decide

/-! ## Every run -/

/-- The slot whose priority the step computes. -/
def recomputed (s : Sys) : Step → Option Slot
  | .sched c =>
      match s.pc c with
      | .scan (i :: _) _ => if (s.procs i).state = .runnable then some i else none
      | _ => none
  | .thread c _ =>
      match s.pc c with
      | .away q =>
          match s.thread q with
          | .code (.setPriority _ pid (i :: _) _) => if (s.procs i).pid = pid then none else some i
          | _ => none
      | _ => none
  | _ => none

/-- Whenever a step computes a priority, the sum fits. -/
def SumsFit (s : Sys) (l : Step) : Prop := ∀ i ∈ recomputed s l, (s.procs i).SumFits

-- the bound is an option, so the slots are not gone through
instance (s : Sys) (l : Step) : Decidable (SumsFit s l) := Option.decidableForallMem _

variable {s s' : Sys} {l : Step} {i : Slot} {p : Proc}

theorem Change.inRange (hc : Change s i l p) (h : (s.procs i).InRange) (hok : SumsFit s l) :
    p.InRange := by
  cases hc with
  | scan hpc hready =>
    exact (recompute_inRange_iff _).mpr (hok i (by simp [recomputed, hpc, hready]))
  | pass hpc hth hpid =>
    exact (recompute_inRange_iff _).mpr (hok i (by simp [recomputed, hpc, hth, hpid]))
  | alloc | allocFail => exact ⟨UInt32.le_refl _, show (0 : UInt32) ≤ _ by decide⟩
  | wakeup | irqWakeup =>
    rcases Proc.wake_cases (s.procs i) _ with hw | ⟨_, _, hw⟩ <;> rw [hw] <;> exact h
  | tick =>
    unfold Proc.tick
    split <;> exact h
  | keep | dispatch | fault | kill | setPriority | adopt | publish | giveUp | reparent | reap | tidy
  | yieldStore | sleepStore | exitStore => exact h

/-- In every run in which the sum fits whenever `scheduler()` or
`set_priority` takes it, every dynamic priority is in range in every state.
A single computation gives a priority in range exactly when its sum
fits. -/
theorem dynamic_prio_in_range (s : Sys) (h : ReachWhen SumsFit next (bootSys = ·) s) :
    (∀ i, (s.procs i).InRange) ∧ ∀ i, (s.procs i).recompute.InRange ↔ (s.procs i).SumFits := by
  refine ⟨?_, fun i => recompute_inRange_iff _⟩
  refine h.invariant (I := fun s => ∀ i, (s.procs i).InRange) ?_ ?_
  · rintro s rfl i
    by_cases hi : i = 0
    · rw [hi]
      exact ⟨by decide, by decide⟩
    · simp only [bootSys, bootTable, Function.update_of_ne hi]
      exact ⟨by decide, by decide⟩
  · intro s l s' hs hok hnext i
    exact ((next_rule hnext).change i).inRange (hs i) hok

/-- The first process forks, hart 1 scans the table, and the first process
sets the priority of its child to `v`.  Then hart 2 scans the first two
slots. -/
def priorityRun (v : Int32) : List Step :=
  initRun ++ forkRun 0 1 ++ List.replicate 66 (.sched 1) ++
    .thread 0 (.setPriority v 2) :: goRun 0 3 ++ List.replicate 3 (.sched 2)

theorem dynamic_prio_in_range_priorityRun :
    ∃ s, ReachWhen SumsFit next (bootSys = ·) s ∧ (s.procs 1).staticPrio = 70 ∧
      (s.procs 1).InRange := by
  obtain ⟨s, hs, heq⟩ : ∃ s, ReachWhen SumsFit next (bootSys = ·) s ∧
      (s.procs 1).staticPrio = 70 :=
    exists_reachWhen_of_run (priorityRun 70) rfl (by decide +kernel)
  exact ⟨s, hs, heq, (dynamic_prio_in_range s hs).1 1⟩

/-- After `set_priority(-200, pid)` the scan stores `-100`. -/
theorem dynamic_prio_negative :
    ∃ s, Reach next (bootSys = ·) s ∧ (s.procs 1).dynamicPrio.toInt32 = -100 ∧
      ¬ (s.procs 1).InRange := by
  obtain ⟨s, hs, heq⟩ : ∃ s, Reach next (bootSys = ·) s ∧
      (s.procs 1).dynamicPrio = 0xFFFFFF9C :=
    exists_reachWhen_of_run (priorityRun (-200)) rfl (by decide +kernel)
  refine ⟨s, hs, ?_, ?_⟩
  · rw [heq]
    rfl
  · rintro ⟨_, hmax⟩
    rw [heq] at hmax
    exact absurd hmax (by decide)

end Xv6.Process
