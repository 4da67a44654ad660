import Xv6.Process.Table

/-!
# The priorities of the scheduler

`calculate_RBI`, `minOf` and `maxOf` of `kernel/proc.c`, and the body of the
table scan of `scheduler()`.  The scan visits the slots in order and keeps
the best `RUNNABLE` one in `min_proc`.  `scanSlot` is one iteration of that
loop, between the `acquire` and the `release` of the slot's lock, so both
the atomic scan `scanTable` and the interleaved scheduler are folds of it.
-/

namespace Xv6.Process

open Function

/-- `divuw` of RISC-V: a division by zero gives all ones. -/
def divu (a b : UInt32) : UInt32 :=
  if b = 0 then 0xFFFFFFFF else a / b

/-- `minOf`. -/
def minOf (a b : Int32) : Int32 := if a < b then a else b

/-- `maxOf`. -/
def maxOf (a b : Int32) : Int32 := if a > b then a else b

/-- `calculate_RBI`.  The arithmetic is unsigned, and only the result is
read as an `int`. -/
def calculateRBI (rTime sTime wTime : UInt32) : Int32 :=
  if rTime = 0 ∧ sTime = 0 then DEFAULT_RBI
  else
    maxOf (divu (3 * rTime - sTime - wTime) (rTime + wTime + sTime + 1) * 50).toInt32 0

/-- The two assignments that recompute `p->RBI` and `p->DYNAMIC_PRIO`.
`scheduler` and `set_priority` share them. -/
def Proc.recompute (p : Proc) : Proc :=
  let rbi := calculateRBI p.rTime p.sTime p.wTime
  { p with
    rbi := rbi
    dynamicPrio := (minOf (p.staticPrio + rbi.toUInt32).toInt32 MAX_PRIO).toUInt32 }

/-- What the scan of `scheduler` remembers: `min_proc`, if it is set, and
`min_priority`. -/
structure Best where
  minProc : Option Slot
  minPriority : Int32

/-- The locals of `scheduler` before the scan. -/
def Best.start : Best := ⟨none, MAX_PRIO + 1⟩

/-- Whether the scan replaces `m`, the slot it remembers, by `p`.  The four
tests are those of the source: a smaller priority, then fewer runs, then an
earlier creation, then the last of equals. -/
def better (minPriority : Int32) (m p : Proc) : Bool :=
  p.dynamicPrio < minPriority.toUInt32 ||
  (p.dynamicPrio == minPriority.toUInt32 && p.nRun < m.nRun) ||
  (p.dynamicPrio == minPriority.toUInt32 && p.nRun == m.nRun && p.ctime < m.ctime) ||
  (p.dynamicPrio == minPriority.toUInt32 && p.nRun == m.nRun && p.ctime == m.ctime)

/-- One iteration of the scan, at slot `q`. -/
def scanSlot (t : Table) (best : Best) (q : Slot) : Table × Best :=
  if (t q).state = .runnable then
    let p := (t q).recompute
    let t' := update t q p
    match best.minProc with
    | none => (t', ⟨some q, p.dynamicPrio.toInt32⟩)
    | some m =>
        if better best.minPriority (t' m) p then (t', ⟨some q, p.dynamicPrio.toInt32⟩)
        else (t', best)
  else (t, best)

/-- The whole scan, with no other hart in between. -/
def scanTable (t : Table) : Table × Best :=
  (List.finRange NPROC).foldl (fun acc q => scanSlot acc.1 acc.2 q) (t, Best.start)

/-- A scan keeps the state of every slot. -/
theorem scanSlot_state (t : Table) (best : Best) (q i : Slot) :
    ((scanSlot t best q).1 i).state = (t i).state := by
  rw [scanSlot]
  split
  · have hupd : (update t q (t q).recompute i).state = (t i).state := by
      by_cases hi : i = q
      · rw [hi, update_self]
        rfl
      · rw [update_of_ne hi]
    dsimp only
    split
    · exact hupd
    · split
      · exact hupd
      · exact hupd
  · rfl

end Xv6.Process
