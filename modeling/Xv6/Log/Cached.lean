import Mathlib.Data.List.Induction
import Xv6.Log.Admission

/-!
# Logged blocks stay in the cache

What the invariant of the log says about the buffers.  From `log_write` on,
`bread` of a block gives the contents that were logged last, whichever buffers
are recycled meanwhile.  While the log is committing nothing is outstanding,
and no home block changes.
-/

namespace Xv6.Log

open State Xv6.Lib

variable {g : Geometry} {d : Nat → Block} {s s' : State}

/-- The contents of block `b` that were logged last. -/
def lastLogged (s : State) (b : Nat) : Option Block :=
  ((s.committed ++ s.group).reverse.find? (fun w => w.blk = b)).map Write.data

/-- The last of the writes to a block counts. -/
theorem applyWrites_last (ws : List Write) (d : Nat → Block) (b : Nat) :
    applyWrites ws d b = ((ws.reverse.find? (fun w => w.blk = b)).map Write.data).getD (d b) := by
  induction ws using List.reverseRecOn with
  | nil => rfl
  | append_singleton ws w ih =>
    rw [applyWrites_concat, List.reverse_append]
    by_cases hb : b = w.blk
    · subst hb
      simp
    · rw [Function.update_of_ne hb, ih]
      simp [Ne.symm hb]

theorem view_eq_lastLogged (s : State) (d : Nat → Block) (b : Nat) :
    view s d b = (lastLogged s b).getD (d b) :=
  applyWrites_last _ _ _

variable {b : Nat} {l : Label}

/-- A buffer that nobody holds has no unlogged change. -/
theorem Volatile.clean_of_free (hv : Volatile g d s) (hfree : s.holder b = none) : Clean s b := by
  intro o ho hmem
  have hheld := hv.held o ho b hmem
  rw [hfree] at hheld
  cases hheld

theorem Inv.bread (h : Inv g d s) {p : Pid} (hhome : g.Home b) (hs : breadBy s p b = some s') :
    s'.cache b = some ((lastLogged s b).getD (d b)) := by
  have hr : Rule g s (.bread p b) s' := next_rule hs
  cases hr
  rename_i hup hfree
  have hv := h.volatile hup
  have hcache : (s.load b).cache b = some (s.content b) := Function.update_self _ _ _
  rw [← view_eq_lastLogged, ← hv.view b hhome (hv.clean_of_free hfree)]
  exact hcache

/-! ## Committing -/

/-- A kernel that has panicked was not committing. -/
def Settled (s : State) : Prop := ∀ msg, s.phase = .panicked msg → s.committing = false

/-- In a kernel that has panicked only a recycling or a crash is possible. -/
theorem Settled.next (h : Inv g d s) (hset : Settled s) (hs : next g s l = some s') :
    Settled s' := by
  by_cases hlog : ∃ p b, l = .logWrite p b
  · obtain ⟨p, b, rfl⟩ := hlog
    intro _ _
    cases next_rule hs with
    | full hop hup | log hop hup =>
      exact (h.of_running (h.running_of_op hup (mem_of_opOf hop).1)).1
  by_cases hpanic : ∃ msg, s.phase = .panicked msg
  · obtain ⟨msg, hmsg⟩ := hpanic
    have hdown : s.phase.up ≠ true := by rw [hmsg]; exact Bool.false_ne_true
    intro _ _
    cases next_rule hs with
    | crash => rfl
    | evict => exact hset msg hmsg
    | beginOp hup | bread hup | brelse hup => exact absurd hup hdown
    | modify _ hup | full _ hup | log _ hup | endOp _ hup => exact absurd hup hdown
    | writeLog hphase | writeLogDone hphase | writeHead hphase | install hphase
    | installDone hphase | clear hphase | ending hphase | readHead hphase | recInstall hphase
    | recInstallDone hphase | recClear hphase =>
      exact absurd (hmsg.symm.trans hphase) Phase.noConfusion
  · have hok := next_not_panicked h (fun p b he => hlog ⟨p, b, he⟩)
      (fun msg hmsg => hpanic ⟨msg, hmsg⟩) hs
    intro msg hmsg
    exact absurd hmsg (hok msg)

/-- The places at which the log is committing. -/
theorem Inv.of_committing (h : Inv g d s) (hset : Settled s) (hcom : s.committing = true) :
    s.phase.up = true ∧ s.ops = [] := by
  have hnot : s.committing ≠ false := by rw [hcom]; decide
  cases hphase : s.phase with
  | running => exact absurd (h.at hphase).1 hnot
  | writeLog tail | writeHead | install tail | clear | ending => exact ⟨rfl, (h.at hphase).2.1⟩
  | readHead | recInstall tail | recClear => exact absurd (h.at hphase).1.committing hnot
  | panicked msg => exact absurd (hset msg hphase) hnot

/-- What a step leaves while the log is committing. -/
structure Quiet (s s' : State) : Prop where
  up : s'.phase.up = true
  ops : s'.ops = []
  writes : s'.committed ++ s'.group = s.committed ++ s.group

/-- While the log is committing only reads, recyclings and the commit go on. -/
theorem Inv.quiet (h : Inv g d s) (hset : Settled s) (hcom : s.committing = true) (hl : l ≠ .crash)
    (hs : next g s l = some s') : Quiet s s' := by
  obtain ⟨hup, hops⟩ := h.of_committing hset hcom
  have hop : ∀ p, s.opOf p = none := by
    intro p
    rw [opOf, hops]
    rfl
  have hdown : ∀ {p : Phase}, s.phase = p → p.up = false → Quiet s s' := by
    intro p hphase hp
    rw [hphase, hp] at hup
    cases hup
  cases next_rule hs with
  | crash => exact absurd rfl hl
  | beginOp _ _ hcom' =>
    rw [hcom] at hcom'
    cases hcom'
  | modify hop' | full hop' | log hop' | endOp hop' =>
    rw [hop] at hop'
    cases hop'
  | bread | brelse | evict => exact ⟨hup, hops, rfl⟩
  | writeHead => exact ⟨rfl, hops, List.append_nil _⟩
  | writeLog | writeLogDone | install | installDone | clear | ending => exact ⟨rfl, hops, rfl⟩
  | readHead hphase | recInstall hphase | recInstallDone hphase | recClear hphase =>
    exact hdown hphase rfl

/-- No home block changes while the log is committing. -/
theorem Inv.content_kept (h : Inv g d s) (hset : Settled s) (hcom : s.committing = true)
    (hl : l ≠ .crash) (hs : next g s l = some s') (hhome : g.Home b) :
    s'.content b = s.content b := by
  obtain ⟨hup, hops⟩ := h.of_committing hset hcom
  have hq := h.quiet hset hcom hl hs
  have hafter := (next_inv h hs).volatile hq.up
  have hview : view s' d = view s d := by
    rw [view, view, hq.writes]
  rw [hafter.content_eq hq.ops hhome, (h.volatile hup).content_eq hops hhome, hview]

/-- Behind `install_trans` every home block is on the disk as in the cache. -/
theorem Inv.installed (h : Inv g d s) (hphase : s.phase = .clear ∨ s.phase = .ending)
    (hhome : g.Home b) : s.disk b = s.content b := by
  have hp := h.progress
  unfold Progress at hp
  rcases hphase with hphase | hphase
  · rw [hphase] at hp
    have hup : s.phase.up = true := by rw [hphase]; rfl
    have hpinned : b ∉ pinned s := by
      rw [pinned, hphase]
      exact List.not_mem_nil
    rw [h.disk_of_not_pinned hup hhome hpinned, (h.volatile hup).content_eq hp.2.1 hhome]
  · rw [hphase] at hp
    have hup : s.phase.up = true := by rw [hphase]; rfl
    have hpinned : b ∉ pinned s := by
      rw [pinned, hphase, hp.2.2.2.1]
      exact List.not_mem_nil
    rw [h.disk_of_not_pinned hup hhome hpinned, (h.volatile hup).content_eq hp.2.1 hhome]

/-! ## The result -/

theorem reach_settled (hs : Reach (next g) (Initial g d) s) : Inv g d s ∧ Settled s := by
  refine hs.invariant (I := fun s => Inv g d s ∧ Settled s) ?_ ?_
  · intro s h0
    refine ⟨initial_inv h0, ?_⟩
    obtain ⟨rfl, _⟩ := h0
    exact fun _ _ => rfl
  · intro s l s' h _ hnext
    exact ⟨next_inv h.1 hnext, h.2.next h.1 hnext⟩

/-- In every run of operations, reads, recyclings, commits and crashes: the
blocks of the header are distinct.  While file-system calls can run, those
that the commit has not installed have one pin, and no other block has one.
`bread` of a home block gives the contents logged last.  While the log is
committing nothing is outstanding and no block of the header changes, and
behind `install_trans` every home block is on the disk as in the cache. -/
theorem logged_updates_kept (hreach : Reach (next g) (Initial g d) s) :
    s.lh.Nodup ∧
    (s.phase.up = true → ∀ b, s.pins b = if b ∈ pinned s then 1 else 0) ∧
    (∀ p b s', g.Home b → breadBy s p b = some s' →
      s'.cache b = some ((lastLogged s b).getD (d b))) ∧
    (s.committing = true → s.outstanding = 0 ∧
      ∀ l s', l ≠ .crash → next g s l = some s' → ∀ b ∈ s.lh, s'.content b = s.content b) ∧
    (s.phase = .clear ∨ s.phase = .ending → ∀ b, g.Home b → s.disk b = s.content b) := by
  obtain ⟨h, hset⟩ := reach_settled hreach
  refine ⟨h.fits.nodup, ?_, ?_, ?_, ?_⟩
  · intro hup b
    exact (h.volatile hup).pins b
  · intro p b s' hhome hs
    exact h.bread hhome hs
  · intro hcom
    obtain ⟨hup, hops⟩ := h.of_committing hset hcom
    refine ⟨(h.volatile hup).outstanding_eq hops, ?_⟩
    intro l s' hl hs b hb
    exact h.content_kept hset hcom hl hs (h.fits.home b hb)
  · intro hphase b hhome
    exact h.installed hphase hhome

/-- One operation logs block 33, and the commit has installed it. -/
def installRun : List Label :=
  [.advance, .advance, .advance, .beginOp 1, .bread 1 33, .modify 1 33 (fun _ => 7),
    .logWrite 1 33, .brelse 1 33, .endOp 1, .advance, .advance, .advance, .advance]

theorem logged_updates_kept_installRun : ∃ s,
    Reach (next mkfsGeometry) (Initial mkfsGeometry (fun _ _ => 0)) s ∧
      s.phase = .install 1 ∧ s.lh = [33] ∧ s.lh.Nodup := by
  obtain ⟨s, hreach, hphase, hlh⟩ : ∃ s,
      Reach (next mkfsGeometry) (Initial mkfsGeometry (fun _ _ => 0)) s ∧
        s.phase = .install 1 ∧ s.lh = [33] :=
    exists_reachWhen_of_run installRun boot_initial (by decide +kernel)
  exact ⟨s, hreach, hphase, hlh, (logged_updates_kept hreach).1⟩

/-- The header still lists the block then, and the pin is gone. -/
theorem installed_unpinned : ∃ s,
    Reach (next mkfsGeometry) (Initial mkfsGeometry (fun _ _ => 0)) s ∧
      s.committing = true ∧ 33 ∈ s.lh ∧ s.pins 33 = 0 :=
  exists_reachWhen_of_run installRun boot_initial (by decide +kernel)

end Xv6.Log
