import Mathlib.Data.List.Dedup
import Mathlib.Data.List.Perm.Basic
import Xv6.Log.Recovery

/-!
# Admission control

`begin_op` reserves `MAXOPBLOCKS` blocks for each operation and keeps the
sum within `LOGSIZE`.  `log_write` compares the length of the header with
`LOGSIZE` and with `log.size - 1`, and `mkfs` makes the region, header
block included, `LOGSIZE` blocks long.  So the reservation is for 30 blocks
and the region has room for 29: three operations that use their whole
budget on distinct blocks reach the panic.

A run is free of it as long as every `log_write` finds that the operations
of the current group have logged fewer than `LOGSIZE - 1` distinct blocks.
-/

namespace Xv6.Log

open State Xv6.Lib

variable {g : Geometry} {d : Nat → Block} {s s' : State}

/-- The process keeps to the budget of an operation: `log_write` on at most
`MAXOPBLOCKS` distinct blocks. -/
def Budget (s : State) : Label → Prop
  | .logWrite p b =>
      match s.opOf p with
      | some o => b ∈ o.wrote ∨ o.wrote.length < MAXOPBLOCKS
      | none => True
  | _ => True

instance (s : State) (l : Label) : Decidable (Budget s l) := by
  cases l with
  | logWrite p b =>
    unfold Budget
    dsimp only
    split <;> infer_instance
  | _ => exact inferInstanceAs (Decidable True)

/-- The distinct blocks that the operations of the current group have
logged. -/
def loggedBlocks (s : State) : List Nat := (s.group.map Write.blk).dedup

/-- At a `log_write`, the current group has logged fewer blocks than the
region holds besides its header. -/
def HasRoom (s : State) : Label → Prop
  | .logWrite _ _ => (loggedBlocks s).length < LOGSIZE - 1
  | _ => True

/-- While operations run, the header lists each logged block once. -/
theorem Inv.length_lh (h : Inv g d s) (hphase : s.phase = .running) :
    s.lh.length = (loggedBlocks s).length := by
  refine List.Perm.length_eq ?_
  rw [loggedBlocks, List.perm_ext_iff_of_nodup h.fits.nodup (List.nodup_dedup _)]
  intro b
  rw [List.mem_dedup]
  exact (h.of_running hphase).2.1 b

/-- `log_write` panics exactly when there is no room. -/
theorem logWrite_panics_iff {p : Pid} {b : Nat} (h : Inv mkfsGeometry d s)
    (hs : next mkfsGeometry s (.logWrite p b) = some s') :
    (∃ msg, s'.phase = .panicked msg) ↔ ¬ (loggedBlocks s).length < LOGSIZE - 1 := by
  have hsize : mkfsGeometry.size - 1 = LOGSIZE - 1 := rfl
  cases next_rule hs with
  | full hop hup hfull =>
    obtain ⟨ho, _⟩ := mem_of_opOf hop
    have hcount : s.outstanding = s.ops.length := (h.volatile hup).count
    have hpos : 0 < s.ops.length := List.length_pos_of_mem ho
    refine iff_of_true ⟨_, rfl⟩ ?_
    rw [← h.length_lh (h.running_of_op hup ho)]
    rw [hsize, LOGSIZE_eq] at hfull
    rw [LOGSIZE_eq]
    omega
  | log hop hup _ hroom =>
    have hphase := h.running_of_op hup (mem_of_opOf hop).1
    rw [hsize] at hroom
    refine iff_of_false ?_ ?_
    · rintro ⟨msg, hmsg⟩
      exact absurd (hphase.symm.trans hmsg) (by simp)
    · rw [← h.length_lh hphase]
      omega

/-- No other step panics. -/
theorem next_not_panicked {l : Label} (h : Inv g d s) (hl : ∀ p b, l ≠ .logWrite p b)
    (hok : ∀ msg, s.phase ≠ .panicked msg) (hs : next g s l = some s') :
    ∀ msg, s'.phase ≠ .panicked msg := by
  cases next_rule hs with
  | full | log => exact absurd rfl (hl _ _)
  | beginOp | bread | modify | brelse | evict => exact hok
  | endOp hop hup _ hend =>
    have hcom := (h.of_running (h.running_of_op hup (mem_of_opOf hop).1)).1
    rcases hend with hcom' | ⟨_, _, _, rfl⟩ | ⟨_, _, rfl⟩
    · rw [hcom] at hcom'
      cases hcom'
    · intro msg
      dsimp only
      split <;> exact Phase.noConfusion
    · exact hok
  | writeLog | writeLogDone | writeHead | install | installDone | clear | ending | readHead
  | recInstall | recInstallDone | recClear | crash =>
    intro msg
    exact Phase.noConfusion

/-! ## The result -/

/-- The invariant, and no panic so far. -/
def Healthy (d : Nat → Block) (s : State) : Prop :=
  Inv mkfsGeometry d s ∧ ∀ msg, s.phase ≠ .panicked msg

theorem next_healthy {l : Label} (h : Healthy d s) (hroom : HasRoom s l)
    (hs : next mkfsGeometry s l = some s') : Healthy d s' := by
  refine ⟨next_inv h.1 hs, ?_⟩
  by_cases hl : ∃ p b, l = .logWrite p b
  · obtain ⟨p, b, rfl⟩ := hl
    intro msg hmsg
    exact (logWrite_panics_iff h.1 hs).mp ⟨msg, hmsg⟩ hroom
  · refine next_not_panicked h.1 ?_ h.2 hs
    intro p b he
    exact hl ⟨p, b, he⟩

/-- One operation of process `p` that logs the blocks of a list. -/
def logAll (p : Pid) (blocks : List Nat) : List Label :=
  blocks.flatMap (fun b => [.bread p b, .modify p b (fun _ => 1), .logWrite p b, .brelse p b])

/-- Three operations, each with its ten blocks. -/
def fullRun : List Label :=
  [.advance, .advance, .advance, .beginOp 1, .beginOp 2, .beginOp 3] ++
    logAll 1 (List.range' 100 10) ++ logAll 2 (List.range' 110 10) ++
    logAll 3 (List.range' 120 9) ++
    [.bread 3 129, .modify 3 129 (fun _ => 1), .logWrite 3 129]

end Xv6.Log
