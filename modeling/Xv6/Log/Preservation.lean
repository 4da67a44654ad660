import Mathlib.Data.List.Nodup
import Xv6.Log.Invariant

/-!
# Every step keeps the invariant of the log

`Rule` lists what a step can do, and `next_rule` is the only place that looks
into `next`.  There is one lemma per rule, and `next_inv` collects them.

Two facts about the places are used throughout: while file-system calls can
run, an operation in progress or a clear `committing` flag puts the kernel
in `running`.
-/

namespace Xv6.Log

open State Function

variable {g : Geometry} {d : Nat → Block} {s s' : State}

/-! ## What a step does -/

/-- What a step does, and when. -/
inductive Rule (g : Geometry) (s : State) : Label → State → Prop
  | beginOp {p : Pid} (hup : s.phase.up = true) (hnone : s.opOf p = none)
      (hcom : s.committing = false) :
      Rule g s (.beginOp p) { s with
        outstanding := s.outstanding + 1
        ops := ⟨p, s.nextOp, [], []⟩ :: s.ops
        nextOp := s.nextOp + 1 }
  | bread {p : Pid} {b : Nat} (hup : s.phase.up = true) (hfree : s.holder b = none) :
      Rule g s (.bread p b) { s.load b with holder := update s.holder b (some p) }
  | modify {p : Pid} {b : Nat} {v : Block} {o : Op} (hop : s.opOf p = some o)
      (hup : s.phase.up = true) (hhold : s.holder b = some p) (hhome : g.Home b) :
      Rule g s (.modify p b v) { s.setOp { o with dirty := b :: o.dirty } with
        cache := update s.cache b (some v) }
  /-- `log_write` panics. -/
  | full {p : Pid} {b : Nat} {o : Op} {msg : String} (hop : s.opOf p = some o)
      (hup : s.phase.up = true)
      (hfull : s.lh.length ≥ LOGSIZE ∨ s.lh.length ≥ g.size - 1 ∨ s.outstanding < 1) :
      Rule g s (.logWrite p b) { s with phase := .panicked msg }
  | log {p : Pid} {b : Nat} {o : Op} {lh : List Nat} {pins : Nat → Nat} (hop : s.opOf p = some o)
      (hup : s.phase.up = true) (hhome : g.Home b)
      (hroom : ¬ (s.lh.length ≥ LOGSIZE ∨ s.lh.length ≥ g.size - 1))
      (hlh : b ∈ s.lh ∧ lh = s.lh ∧ pins = s.pins ∨
        b ∉ s.lh ∧ lh = s.lh ++ [b] ∧ pins = update s.pins b (s.pins b + 1)) :
      Rule g s (.logWrite p b) { s.setOp { o with
          dirty := o.dirty.filter (· ≠ b)
          wrote := if b ∈ o.wrote then o.wrote else b :: o.wrote } with
        group := s.group ++ [⟨o.id, b, s.content b⟩], lh := lh, pins := pins }
  | brelse {p : Pid} {b : Nat} (hup : s.phase.up = true) (hhold : s.holder b = some p)
      (hclean : (s.opOf p).all (fun o => b ∉ o.dirty) = true) :
      Rule g s (.brelse p b) { s with holder := update s.holder b none }
  /-- `end_op`, at any of its three ends. -/
  | endOp {p : Pid} {o : Op} {committing : Bool} {phase : Phase} (hop : s.opOf p = some o)
      (hup : s.phase.up = true) (hdirty : o.dirty = [])
      (hend : s.committing = true ∨
        s.committing = false ∧ s.outstanding - 1 = 0 ∧ committing = true ∧
          phase = (if s.lh.length > 0 then .writeLog 0 else .ending) ∨
        s.committing = false ∧ committing = s.committing ∧ phase = s.phase) :
      Rule g s (.endOp p) { s with
        outstanding := s.outstanding - 1
        ops := s.ops.filter (fun o' => o'.pid ≠ p)
        committing := committing
        phase := phase }
  | writeLog {tail b : Nat} (hphase : s.phase = .writeLog tail) (hget : s.lh[tail]? = some b) :
      Rule g s .advance { (s.load b).bwrite (g.start + tail + 1) (s.content b) with
        phase := .writeLog (tail + 1) }
  | writeLogDone {tail : Nat} (hphase : s.phase = .writeLog tail) (hnone : s.lh[tail]? = none) :
      Rule g s .advance { s with phase := .writeHead }
  | writeHead (hphase : s.phase = .writeHead) :
      Rule g s .advance { s.bwrite g.start (writeHeader (s.content g.start) s.lh) with
        phase := .install 0
        committed := s.committed ++ s.group
        group := [] }
  | install {tail b : Nat} (hphase : s.phase = .install tail) (hget : s.lh[tail]? = some b) :
      Rule g s .advance { installStep g s b tail with
        pins := update s.pins b (s.pins b - 1)
        phase := .install (tail + 1) }
  | installDone {tail : Nat} (hphase : s.phase = .install tail) (hnone : s.lh[tail]? = none) :
      Rule g s .advance { s with phase := .clear }
  | clear (hphase : s.phase = .clear) :
      Rule g s .advance { s.bwrite g.start (writeHeader (s.content g.start) []) with
        lh := []
        phase := .ending }
  | ending (hphase : s.phase = .ending) :
      Rule g s .advance { s with committing := false, phase := .running }
  | readHead (hphase : s.phase = .readHead) :
      Rule g s .advance { s.load g.start with
        lh := readHeader (s.content g.start)
        phase := .recInstall 0 }
  | recInstall {tail b : Nat} (hphase : s.phase = .recInstall tail)
      (hget : s.lh[tail]? = some b) :
      Rule g s .advance { installStep g s b tail with phase := .recInstall (tail + 1) }
  | recInstallDone {tail : Nat} (hphase : s.phase = .recInstall tail)
      (hnone : s.lh[tail]? = none) : Rule g s .advance { s with phase := .recClear }
  | recClear (hphase : s.phase = .recClear) :
      Rule g s .advance { s.bwrite g.start (writeHeader (s.content g.start) []) with
        lh := []
        phase := .running }
  | evict {b : Nat} (hpin : s.pins b = 0) :
      Rule g s (.evict b) { s with cache := update s.cache b none }
  | crash : Rule g s .crash s.reboot

theorem advance_rule (hs : advance g s = some s') : Rule g s .advance s' := by
  unfold advance at hs
  cases hphase : s.phase with
  | running | panicked msg =>
    rw [hphase] at hs
    cases hs
  | writeLog tail | install tail =>
    rw [hphase] at hs
    dsimp only at hs
    split at hs
    · rename_i b hget
      split at hs
      · cases hs
        first | exact .writeLog hphase hget | exact .install hphase hget
      · cases hs
    · rename_i hnone
      cases hs
      first | exact .writeLogDone hphase hnone | exact .installDone hphase hnone
  | writeHead | clear =>
    rw [hphase] at hs
    dsimp only at hs
    split at hs
    · cases hs
      first | exact .writeHead hphase | exact .clear hphase
    · cases hs
  | ending =>
    rw [hphase] at hs
    cases hs
    exact .ending hphase
  | readHead =>
    rw [hphase] at hs
    cases hs
    exact .readHead hphase
  | recInstall tail =>
    rw [hphase] at hs
    dsimp only at hs
    split at hs
    · rename_i b hget
      cases hs
      exact .recInstall hphase hget
    · rename_i hnone
      cases hs
      exact .recInstallDone hphase hnone
  | recClear =>
    rw [hphase] at hs
    cases hs
    exact .recClear hphase

theorem next_rule {l : Label} (hs : next g s l = some s') : Rule g s l s' := by
  cases l with
  | beginOp p =>
    obtain ⟨⟨hup, hnone, hcom, _⟩, ⟨⟩⟩ := Option.ite_none_right_eq_some.mp hs
    exact .beginOp hup hnone hcom
  | bread p b =>
    obtain ⟨⟨hup, hfree⟩, ⟨⟩⟩ := Option.ite_none_right_eq_some.mp hs
    exact .bread hup hfree
  | modify p b v =>
    simp only [next, modify] at hs
    split at hs
    · cases hs
    rename_i o hop
    obtain ⟨⟨hup, hhold, hhome⟩, ⟨⟩⟩ := Option.ite_none_right_eq_some.mp hs
    exact .modify hop hup hhold hhome
  | logWrite p b =>
    simp only [next, logWrite] at hs
    split at hs
    · cases hs
    rename_i o hop
    obtain ⟨⟨hup, _, hhome⟩, hs⟩ := Option.ite_none_right_eq_some.mp hs
    split at hs
    · rename_i hfull
      cases hs
      exact .full hop hup (hfull.imp_right Or.inl)
    rename_i hroom
    split at hs
    · rename_i hout
      cases hs
      exact .full hop hup (Or.inr (Or.inr hout))
    split at hs
    · rename_i hmem
      cases hs
      exact .log hop hup hhome hroom (Or.inl ⟨hmem, rfl, rfl⟩)
    · rename_i hnot
      cases hs
      exact .log hop hup hhome hroom (Or.inr ⟨hnot, rfl, rfl⟩)
  | brelse p b =>
    obtain ⟨⟨hup, hhold, hclean⟩, ⟨⟩⟩ := Option.ite_none_right_eq_some.mp hs
    exact .brelse hup hhold hclean
  | endOp p =>
    simp only [next, endOp] at hs
    split at hs
    · cases hs
    rename_i o hop
    obtain ⟨⟨hup, hdirty⟩, hs⟩ := Option.ite_none_right_eq_some.mp hs
    split at hs
    · rename_i hcom
      cases hs
      exact .endOp hop hup hdirty (Or.inl hcom)
    rename_i hcom
    have hcom' : s.committing = false := Bool.eq_false_iff.mpr hcom
    split at hs
    · rename_i hlast
      cases hs
      exact .endOp hop hup hdirty (Or.inr (Or.inl ⟨hcom', hlast, rfl, rfl⟩))
    · cases hs
      exact .endOp hop hup hdirty (Or.inr (Or.inr ⟨hcom', rfl, rfl⟩))
  | advance => exact advance_rule hs
  | evict b =>
    obtain ⟨⟨_, hpin⟩, ⟨⟩⟩ := Option.ite_none_right_eq_some.mp hs
    exact .evict hpin
  | crash =>
    cases hs
    exact .crash

/-! ## Places -/

/-- What holds at the place where the kernel is. -/
theorem Inv.at {p : Phase} (h : Inv g d s) (hphase : s.phase = p) :
    Progress g d { s with phase := p } := by
  rw [← hphase]
  exact h.progress

/-- With the `committing` flag clear, nobody is inside `commit()`. -/
theorem Inv.running_of_not_committing (h : Inv g d s) (hup : s.phase.up = true)
    (hc : s.committing = false) : s.phase = .running := by
  cases hphase : s.phase with
  | running => rfl
  | writeLog tail | writeHead | install tail | clear | ending =>
    exact absurd (hc.symm.trans (h.at hphase).1) (by decide)
  | readHead | recInstall tail | recClear | panicked msg =>
    rw [hphase] at hup
    exact absurd hup Bool.false_ne_true

variable {o : Op} {p : Pid} {b : Nat}

/-- With an operation in progress, nobody is inside `commit()`. -/
theorem Inv.running_of_op (h : Inv g d s) (hup : s.phase.up = true) (ho : o ∈ s.ops) :
    s.phase = .running := by
  cases hphase : s.phase with
  | running => rfl
  | writeLog tail | writeHead | install tail | clear | ending =>
    have hops : s.ops = [] := (h.at hphase).2.1
    rw [hops] at ho
    exact absurd ho (by simp)
  | readHead | recInstall tail | recClear | panicked msg =>
    rw [hphase] at hup
    exact absurd hup Bool.false_ne_true

/-- What `running` means. -/
theorem Inv.of_running (h : Inv g d s) (hphase : s.phase = .running) :
    s.committing = false ∧ Listed s ∧ header g s.disk = [] :=
  h.at hphase

theorem progress_running (hphase : s.phase = .running)
    (h : s.committing = false ∧ Listed s ∧ header g s.disk = []) : Progress g d s := by
  unfold Progress
  rw [hphase]
  exact h

theorem up_running (hphase : s.phase = .running) : s.phase.up = true := by
  rw [hphase]
  rfl

theorem pinned_running (hphase : s.phase = .running) : pinned s = s.lh := by
  rw [pinned, hphase]

/-- The process of an operation that `opOf` finds. -/
theorem mem_of_opOf (h : s.opOf p = some o) : o ∈ s.ops ∧ o.pid = p := by
  refine ⟨List.mem_of_find?_eq_some h, ?_⟩
  simpa using List.find?_some h

/-! ## The calls of the file system -/

/-- A change of the buffers that keeps their contents. -/
theorem Inv.of_buffers (h : Inv g d s) (hup : s.phase.up = true)
    (cache : Nat → Option Block) (holder : Nat → Option Pid)
    (hcontent : ∀ b, (cache b).getD (s.disk b) = s.content b)
    (hholder : ∀ o ∈ s.ops, ∀ b ∈ o.dirty, holder b = some o.pid) :
    Inv g d { s with cache := cache, holder := holder } := by
  have hv := h.volatile hup
  refine ⟨h.durable, h.fits, ?_, ?_, ?_⟩
  · intro b hb
    exact (hcontent b).trans (h.region b hb)
  · intro _
    refine ⟨?_, hholder, hv.count, hv.pids, hv.pins⟩
    intro b hhome hclean
    exact (hcontent b).trans (hv.view b hhome hclean)
  · have hp := h.progress
    unfold Progress at hp ⊢
    cases hphase : s.phase with
    | readHead | recInstall tail | recClear | panicked msg =>
      rw [hphase] at hup
      exact absurd hup Bool.false_ne_true
    | running | writeLog tail | writeHead | install tail | clear | ending =>
      rw [hphase] at hp
      exact hp

theorem inv_beginOp (h : Inv g d s) (hr : Rule g s (.beginOp p) s') : Inv g d s' := by
  cases hr
  rename_i hup hcom hnone
  have hphase := h.running_of_not_committing hup hcom
  have hv := h.volatile hup
  refine ⟨h.durable, h.fits, h.region, ?_, progress_running hphase (h.of_running hphase)⟩
  intro _
  refine ⟨?_, ?_, ?_, ?_, hv.pins⟩
  · intro b hhome hclean
    exact hv.view b hhome (fun o ho => hclean o (List.mem_cons_of_mem _ ho))
  · intro o ho b hb
    rcases List.mem_cons.mp ho with rfl | ho
    · simp at hb
    · exact hv.held o ho b hb
  · show s.outstanding + 1 = _
    rw [hv.count, List.length_cons]
  · show (p :: s.ops.map Op.pid).Nodup
    refine List.nodup_cons.mpr ⟨?_, hv.pids⟩
    intro hmem
    obtain ⟨o, ho, hop⟩ := List.mem_map.mp hmem
    rw [opOf, List.find?_eq_none] at hnone
    exact hnone o ho (by simp [hop])

theorem inv_bread (h : Inv g d s) (hr : Rule g s (.bread p b) s') : Inv g d s' := by
  cases hr
  rename_i hup hfree
  refine h.of_buffers hup _ _ (content_load s b) ?_
  intro o ho b' hb'
  have hold := (h.volatile hup).held o ho b' hb'
  have hbb : b' ≠ b := by
    intro he
    rw [he, hfree] at hold
    exact absurd hold (by simp)
  rw [update_of_ne hbb]
  exact hold

theorem inv_brelse (h : Inv g d s) (hr : Rule g s (.brelse p b) s') : Inv g d s' := by
  cases hr
  rename_i hup hhold hclean
  have hv := h.volatile hup
  refine h.of_buffers hup _ _ (fun _ => rfl) ?_
  intro o ho b' hb'
  have hold := hv.held o ho b' hb'
  have hbb : b' ≠ b := by
    intro he
    subst he
    have hop : o.pid = p := Option.some.inj (hold.symm.trans hhold)
    obtain ⟨o', ho'⟩ : ∃ o', s.opOf p = some o' := by
      rw [← Option.isSome_iff_exists, opOf, List.find?_isSome]
      exact ⟨o, ho, by simp [hop]⟩
    rw [ho'] at hclean
    have hmem := mem_of_opOf ho'
    have hoo : o' = o :=
      List.inj_on_of_nodup_map hv.pids hmem.1 ho (hmem.2.trans hop.symm)
    rw [hoo] at hclean
    simp [hb'] at hclean
  rw [update_of_ne hbb]
  exact hold

/-- A block that the log does not pin is on the disk as `bread` gives it. -/
theorem Inv.disk_of_not_pinned (h : Inv g d s) (hup : s.phase.up = true) (hhome : g.Home b)
    (hb : b ∉ pinned s) : s.disk b = view s d b := by
  have hrest := h.durable.rest b hhome
  unfold pinned at hb
  have hlisted : Listed s → b ∉ s.lh → view s d b = effect s d b := by
    intro hl hnot
    exact view_of_not_mem d (fun hmem => hnot ((hl b).mpr hmem))
  have hnogroup : s.group = [] → view s d b = effect s d b := by
    intro hg
    exact view_of_not_mem d (by simp [hg])
  have hinst : ∀ tail, Installed d s tail → header g s.disk = s.lh → b ∉ s.lh.drop tail →
      s.disk b = effect s d b := by
    intro tail hi hh hnot
    by_cases hmem : b ∈ s.lh
    · obtain ⟨i, hget⟩ := List.mem_iff_getElem?.mp hmem
      have hlt : i < tail := by
        by_contra hge
        refine hnot (List.mem_iff_getElem?.mpr ⟨i - tail, ?_⟩)
        rw [List.getElem?_drop, ← hget]
        congr 1
        omega
      exact hi i b hlt hget
    · exact hrest (by rw [hh]; exact hmem)
  cases hphase : s.phase with
  | running =>
    rw [hphase] at hb
    obtain ⟨_, hl, hheader⟩ := h.at hphase
    rw [hlisted hl hb]
    exact hrest (by rw [hheader]; simp)
  | writeLog tail | writeHead =>
    rw [hphase] at hb
    obtain ⟨_, _, hl, hheader, _⟩ := h.at hphase
    rw [hlisted hl hb]
    exact hrest (by rw [hheader]; simp)
  | install tail =>
    rw [hphase] at hb
    obtain ⟨_, _, hgroup, hheader, hi⟩ := h.at hphase
    rw [hnogroup hgroup]
    exact hinst tail hi hheader hb
  | clear =>
    obtain ⟨_, _, hgroup, hheader, hi⟩ := h.at hphase
    rw [hnogroup hgroup]
    exact hinst s.lh.length hi hheader (by simp)
  | ending =>
    obtain ⟨_, _, hgroup, _, hheader⟩ := h.at hphase
    rw [hnogroup hgroup]
    exact hrest (by rw [hheader]; simp)
  | readHead | recInstall tail | recClear | panicked msg =>
    rw [hphase] at hup
    exact absurd hup Bool.false_ne_true

theorem Booting.evict (h : Booting s) (b : Nat) :
    Booting { s with cache := update s.cache b none } :=
  ⟨h.ops, h.group, h.outstanding, h.committing, h.pins, h.cached.evict b⟩

theorem inv_evict (h : Inv g d s) (hr : Rule g s (.evict b) s') : Inv g d s' := by
  cases hr
  rename_i hpin
  refine ⟨h.durable, h.fits, h.region.evict b, ?_, ?_⟩
  · intro hup
    have hv := h.volatile hup
    have hnot : b ∉ pinned s := by
      intro hmem
      have := hv.pins b
      rw [if_pos hmem, hpin] at this
      exact absurd this (by decide)
    refine ⟨?_, hv.held, hv.count, hv.pids, hv.pins⟩
    intro b' hhome hclean
    by_cases hbb : b' = b
    · subst hbb
      have hd := h.disk_of_not_pinned hup hhome hnot
      simpa [content, view] using hd
    · have hd := hv.view b' hhome hclean
      simpa [content, view, update_of_ne hbb] using hd
  · have hp := h.progress
    unfold Progress at hp ⊢
    cases hphase : s.phase with
    | readHead | recInstall tail | recClear =>
      rw [hphase] at hp
      exact ⟨hphase ▸ hp.1.evict b, hp.2⟩
    | running | writeLog tail | writeHead | install tail | clear | ending | panicked msg =>
      rw [hphase] at hp
      exact hp

/-- A crash keeps the disk, and the disk is all that the recovery needs. -/
theorem inv_crash (h : Inv g d s) : Inv g d s.reboot := by
  refine ⟨h.durable, Fits.nil g, fun _ _ => rfl, ?_, ?_⟩
  · intro hup
    exact absurd hup Bool.false_ne_true
  · exact ⟨⟨rfl, rfl, rfl, rfl, fun _ => rfl, fun _ _ => rfl⟩, rfl⟩

/-! ## Modified and logged buffers -/

/-- The operations after one of them is replaced. -/
theorem mem_setOp {o' : Op} (h : o' ∈ (s.setOp o).ops) :
    o' = o ∨ (o' ∈ s.ops ∧ o'.pid ≠ o.pid) := by
  obtain ⟨o'', ho'', heq⟩ := List.mem_map.mp h
  split at heq
  · exact Or.inl heq.symm
  · rename_i hne
    subst heq
    exact Or.inr ⟨ho'', hne⟩

/-- Replacing an operation keeps the list of processes. -/
theorem pids_setOp (o : Op) : (s.setOp o).ops.map Op.pid = s.ops.map Op.pid := by
  rw [setOp, List.map_map]
  refine List.map_congr_left ?_
  intro o' _
  show (if o'.pid = o.pid then o else o').pid = o'.pid
  split
  · rename_i heq
    exact heq.symm
  · rfl

theorem length_setOp (o : Op) : (s.setOp o).ops.length = s.ops.length := by
  rw [setOp, List.length_map]

/-- A block that is clean after an operation is replaced was clean before
it, if the replacement lists the block whenever the old operation did. -/
theorem clean_of_setOp (hpids : (s.ops.map Op.pid).Nodup) (o' : Op) (ho : o ∈ s.ops)
    (hpid : o'.pid = o.pid) (hdirty : b ∈ o.dirty → b ∈ o'.dirty) (h : Clean (s.setOp o') b) :
    Clean s b := by
  intro o'' ho'' hb
  by_cases hp : o''.pid = o'.pid
  · have hoo : o'' = o := List.inj_on_of_nodup_map hpids ho'' ho (hp.trans hpid)
    rw [hoo] at hb
    have hmem : o' ∈ (s.setOp o').ops := List.mem_map.mpr ⟨o'', ho'', if_pos hp⟩
    exact h o' hmem (hdirty hb)
  · have hmem : o'' ∈ (s.setOp o').ops := List.mem_map.mpr ⟨o'', ho'', if_neg hp⟩
    exact h o'' hmem hb

theorem inv_modify {v : Block} (h : Inv g d s) (hr : Rule g s (.modify p b v) s') : Inv g d s' := by
  cases hr
  rename_i o hup hop hhome hhold
  obtain ⟨ho, hpid⟩ := mem_of_opOf hop
  have hphase := h.running_of_op hup ho
  have hv := h.volatile hup
  refine ⟨h.durable, h.fits, ?_, ?_, progress_running hphase (h.of_running hphase)⟩
  · intro b' hb'
    have hbb : b' ≠ b := hhome.ne_inLog hb'
    simpa [content, setOp, update_of_ne hbb] using h.region b' hb'
  · intro _
    refine ⟨?_, ?_, ?_, ?_, hv.pins⟩
    · intro b' hhome' hclean
      -- the modified block is not clean, and the others are as before
      have hbb : b' ≠ b := by
        intro he
        refine hclean { o with dirty := b :: o.dirty } ?_ (by simp [he])
        exact List.mem_map.mpr ⟨o, ho, if_pos rfl⟩
      have hclean' := clean_of_setOp hv.pids { o with dirty := b :: o.dirty } ho rfl
        (List.mem_cons_of_mem _) hclean
      simpa [content, setOp, view, update_of_ne hbb] using hv.view b' hhome' hclean'
    · intro o' ho' b' hb'
      rcases mem_setOp ho' with rfl | ⟨ho', _⟩
      · rcases List.mem_cons.mp hb' with rfl | hb'
        · exact hhold.trans (by rw [hpid])
        · exact hv.held o ho b' hb'
      · exact hv.held o' ho' b' hb'
    · exact hv.count.trans (length_setOp _).symm
    · show ((s.setOp _).ops.map Op.pid).Nodup
      rw [pids_setOp]
      exact hv.pids

/-- A panic leaves the disk as it is. -/
theorem Inv.panic (h : Inv g d s) (msg : String) : Inv g d { s with phase := .panicked msg } := by
  refine ⟨h.durable, h.fits, h.region, ?_, trivial⟩
  intro hup
  exact absurd hup Bool.false_ne_true

/-- The effect of one more logged write. -/
theorem view_logged (s : State) (d : Nat → Block) (w : Write) :
    applyWrites (s.committed ++ (s.group ++ [w])) d =
      update (view s d) w.blk w.data := by
  rw [← List.append_assoc, applyWrites_concat]
  rfl

theorem Fits.concat {lh : List Nat} (h : Fits g lh) (hhome : g.Home b) (hnot : b ∉ lh)
    (hlog : ¬ (lh.length ≥ LOGSIZE ∨ lh.length ≥ g.size - 1)) : Fits g (lh ++ [b]) := by
  obtain ⟨hshort, hinside⟩ := not_or.mp hlog
  refine ⟨?_, ?_, ?_, ?_⟩
  · rw [List.nodup_append]
    refine ⟨h.nodup, List.nodup_singleton b, ?_⟩
    intro x hx y hy he
    rw [List.mem_singleton] at hy
    exact hnot (by rw [← hy, ← he]; exact hx)
  · intro x hx
    rcases List.mem_append.mp hx with hx | hx
    · exact h.home x hx
    · rw [List.mem_singleton.mp hx]
      exact hhome
  · rw [List.length_append, List.length_singleton]
    omega
  · rw [List.length_append, List.length_singleton]
    omega

/-- What `log_write` does to the operations and to the buffers does not
depend on whether the header grows. -/
theorem Inv.logged (h : Inv g d s) (hphase : s.phase = .running) (o' : Op) (ho : o ∈ s.ops)
    (hpid : o'.pid = o.pid) (hdirty : o'.dirty = o.dirty.filter (· ≠ b)) {lh : List Nat}
    {pins : Nat → Nat} (hfits : Fits g lh) (hlh : ∀ x, x ∈ lh ↔ x ∈ s.lh ∨ x = b)
    (hpins : ∀ x, pins x = if x ∈ lh then 1 else 0) : Inv g d { s.setOp o' with
      group := s.group ++ [⟨o.id, b, s.content b⟩]
      lh := lh
      pins := pins } := by
  have hv := h.volatile (up_running hphase)
  obtain ⟨hcom, hlisted, hheader⟩ := h.of_running hphase
  refine ⟨h.durable, hfits, h.region, ?_, ?_⟩
  · intro _
    refine ⟨?_, ?_, ?_, ?_, ?_⟩
    · intro b' hhome' hclean
      show s.content b' = applyWrites (s.committed ++ (s.group ++ [_])) d b'
      rw [view_logged]
      by_cases hbb : b' = b
      · rw [hbb, update_self]
      · rw [update_of_ne hbb]
        refine hv.view b' hhome' (clean_of_setOp hv.pids o' ho hpid ?_ hclean)
        intro hmem
        rw [hdirty, List.mem_filter]
        exact ⟨hmem, by simpa using hbb⟩
    · intro o'' ho'' b' hb'
      rcases mem_setOp ho'' with rfl | ⟨ho'', _⟩
      · rw [hdirty, List.mem_filter] at hb'
        rw [hpid]
        exact hv.held o ho b' hb'.1
      · exact hv.held o'' ho'' b' hb'
    · exact hv.count.trans (length_setOp _).symm
    · show ((s.setOp _).ops.map Op.pid).Nodup
      rw [pids_setOp]
      exact hv.pids
    · have hpinned := pinned_running (s := { s.setOp o' with
        group := s.group ++ [⟨o.id, b, s.content b⟩], lh := lh, pins := pins }) hphase
      rw [hpinned]
      exact hpins
  · refine progress_running hphase ⟨hcom, ?_, hheader⟩
    intro x
    show x ∈ lh ↔ x ∈ (s.group ++ [_]).map Write.blk
    rw [List.map_append, List.mem_append, hlh, hlisted]
    simp

theorem inv_logWrite (h : Inv g d s) (hr : Rule g s (.logWrite p b) s') : Inv g d s' := by
  cases hr with
  | full => exact h.panic _
  | @log _ _ o _ _ hop hup hhome hroom hlh =>
    have ho := (mem_of_opOf hop).1
    have hphase := h.running_of_op hup ho
    have hpins := (h.volatile hup).pins
    rw [pinned_running hphase] at hpins
    rcases hlh with ⟨hmem, rfl, rfl⟩ | ⟨hnot, rfl, rfl⟩
    · refine h.logged hphase { o with dirty := o.dirty.filter (· ≠ b), wrote := _ } ho rfl rfl
        h.fits ?_ hpins
      intro x
      exact ⟨Or.inl, fun hx => hx.elim id (fun he => he ▸ hmem)⟩
    · refine h.logged hphase { o with dirty := o.dirty.filter (· ≠ b), wrote := _ } ho rfl rfl
        (h.fits.concat hhome hnot hroom) (by simp) ?_
      intro x
      by_cases hxb : x = b
      · rw [hxb, update_self, hpins b, if_neg hnot]
        simp
      · rw [update_of_ne hxb, hpins x]
        simp [hxb]

end Xv6.Log
