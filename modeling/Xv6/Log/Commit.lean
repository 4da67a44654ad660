import Xv6.Log.Preservation

/-!
# `end_op`, `commit()` and `recover_from_log()`

The steps that write to the disk.  There are three kinds of disk write, and
each has its lemma in `Durable`: to a log block that no header lists, to
the home of a block that the header lists, and to the header.
-/

namespace Xv6.Log

open State Function

variable {g : Geometry} {d : Nat → Block} {s s' : State}

/-! ## `end_op` -/

/-- Ending an operation removes one entry. -/
theorem length_filter_pid {ops : List Op} (hpids : (ops.map Op.pid).Nodup) {o : Op}
    (ho : o ∈ ops) : (ops.filter (fun o' => o'.pid ≠ o.pid)).length = ops.length - 1 := by
  induction ops with
  | nil => exact absurd ho (by simp)
  | cons o1 ops ih =>
    rw [List.map_cons, List.nodup_cons] at hpids
    rcases List.mem_cons.mp ho with rfl | ho
    · have hall : ops.filter (fun o' => o'.pid ≠ o.pid) = ops := by
        rw [List.filter_eq_self]
        intro o' ho'
        have hne : o'.pid ≠ o.pid := fun he => hpids.1 (List.mem_map.mpr ⟨o', ho', he⟩)
        simpa using hne
      rw [List.filter_cons_of_neg (by simp), hall]
      rfl
    · have hne : o1.pid ≠ o.pid := fun he => hpids.1 (List.mem_map.mpr ⟨o, ho, he.symm⟩)
      have hpos : 0 < ops.length := List.length_pos_of_mem ho
      rw [List.filter_cons_of_pos (by simpa using hne), List.length_cons, ih hpids.2 ho,
        List.length_cons]
      omega

/-- The buffers after `end_op` of an operation that has logged all that it
modified, at any place that pins the whole header. -/
theorem Volatile.endOp (hv : Volatile g d s) {o : Op} (ho : o ∈ s.ops) (hclean : o.dirty = [])
    (hpinned : pinned s = s.lh) (committing : Bool) {phase : Phase}
    (hpinned' : pinned { s with phase := phase } = s.lh) :
    Volatile g d { s with
      outstanding := s.outstanding - 1
      ops := s.ops.filter (fun o' => o'.pid ≠ o.pid)
      committing := committing
      phase := phase } := by
  refine ⟨?_, ?_, ?_, ?_, ?_⟩
  · intro b hhome hb
    refine hv.view b hhome ?_
    intro o' ho' hmem
    by_cases hpid : o'.pid = o.pid
    · have hoo : o' = o := List.inj_on_of_nodup_map hv.pids ho' ho hpid
      rw [hoo, hclean] at hmem
      exact absurd hmem (by simp)
    · exact hb o' (List.mem_filter.mpr ⟨ho', by simpa using hpid⟩) hmem
  · intro o' ho' b hb
    exact hv.held o' (List.mem_filter.mp ho').1 b hb
  · show s.outstanding - 1 = _
    rw [length_filter_pid hv.pids ho, hv.count]
  · exact hv.pids.sublist (List.filter_sublist.map Op.pid)
  · intro b
    show s.pins b = if b ∈ pinned { s with phase := phase } then 1 else 0
    rw [hpinned', ← hpinned]
    exact hv.pins b

theorem inv_endOp {p : Pid} (h : Inv g d s) (hr : Rule g s (.endOp p) s') : Inv g d s' := by
  cases hr
  rename_i o _ _ hup hdirty hend hop
  obtain ⟨ho, rfl⟩ := mem_of_opOf hop
  have hphase := h.running_of_op hup ho
  have hv := h.volatile hup
  obtain ⟨hcom, hlisted, hheader⟩ := h.of_running hphase
  have hpinned := pinned_running hphase
  rcases hend with hcom' | ⟨_, hlast, rfl, rfl⟩ | ⟨_, rfl, rfl⟩
  · rw [hcom] at hcom'
    cases hcom'
  · have hnone : s.ops.filter (fun o' => o'.pid ≠ o.pid) = [] := by
      rw [← List.length_eq_zero_iff, length_filter_pid hv.pids ho, ← hv.count]
      exact hlast
    by_cases hlen : s.lh.length > 0
    · simp only [if_pos hlen]
      refine ⟨h.durable, h.fits, h.region, fun _ => ?_, ?_⟩
      · exact hv.endOp ho hdirty hpinned true rfl
      · refine ⟨rfl, hnone, hlisted, hheader, ?_⟩
        intro i _ hi
        exact absurd hi (by omega)
    · simp only [if_neg hlen]
      have hlh : s.lh = [] := List.length_eq_zero_iff.mp (by omega)
      have hgroup : s.group = [] := by
        rw [← List.map_eq_nil_iff (f := Write.blk), List.eq_nil_iff_forall_not_mem]
        intro b hb
        rw [← hlisted b, hlh] at hb
        exact absurd hb (by simp)
      refine ⟨h.durable, h.fits, h.region, fun _ => ?_, ?_⟩
      · exact hv.endOp ho hdirty hpinned true rfl
      · exact ⟨rfl, hnone, hgroup, hlh, hheader⟩
  · refine ⟨h.durable, h.fits, h.region, fun _ => ?_, ?_⟩
    · exact hv.endOp ho hdirty hpinned s.committing hpinned
    · exact progress_running hphase ⟨hcom, hlisted, hheader⟩

/-! ## Places inside `commit()` and the recovery -/

variable {b tail : Nat}

/-- While the log is committing no operation is in progress, so every buffer
of a home block holds the logged contents. -/
theorem Volatile.content_eq (hv : Volatile g d s) (hops : s.ops = []) (hhome : g.Home b) :
    s.content b = Log.view s d b := by
  refine hv.view b hhome ?_
  intro o ho
  rw [hops] at ho
  exact absurd ho (by simp)

/-- The buffers at a place with no operation in progress. -/
theorem volatile_of_idle (hops : s.ops = []) (hcount : s.outstanding = 0)
    (hview : ∀ b, g.Home b → s.content b = view s d b)
    (hpins : ∀ b, s.pins b = if b ∈ pinned s then 1 else 0) : Volatile g d s := by
  refine ⟨fun b hhome _ => hview b hhome, ?_, ?_, ?_, hpins⟩
  · intro o ho
    rw [hops] at ho
    exact absurd ho (by simp)
  · rw [hcount, hops]
    rfl
  · rw [hops]
    exact List.nodup_nil

/-- The pins, in terms of the place where the kernel is. -/
theorem Inv.pins_at {p : Phase} (h : Inv g d s) (hphase : s.phase = p) (hup : p.up = true) :
    ∀ b, s.pins b = if b ∈ pinned { s with phase := p } then 1 else 0 := by
  rw [← hphase] at hup ⊢
  exact (h.volatile hup).pins

theorem Volatile.outstanding_eq (hv : Volatile g d s) (hops : s.ops = []) :
    s.outstanding = 0 := by
  rw [hv.count, hops]
  rfl

/-- The home of a listed block, and its log block. -/
theorem Inv.listed (h : Inv g d s) (hget : s.lh[tail]? = some b) :
    g.Home b ∧ g.InLog (g.start + tail + 1) := by
  have hlt := h.fits.tail_lt hget
  exact ⟨h.fits.home b (List.mem_of_getElem? hget), by omega, by omega⟩

/-- The log block of a listed block holds the committed contents. -/
theorem Inv.content_log (h : Inv g d s) (hh : header g s.disk = s.lh) (hget : s.lh[tail]? = some b)
    : s.content (g.start + tail + 1) = effect s d b := by
  rw [h.region _ (h.listed hget).2]
  exact h.durable.logged tail b (by rw [hh]; exact hget)

/-- A disk write outside the header block keeps the header. -/
theorem header_update {disk : Nat → Block} (hb : b ≠ g.start) (v : Block) :
    header g (update disk b v) = header g disk := by
  rw [header, update_of_ne (Ne.symm hb)]
  rfl

/-- The disk after one step of `install_trans`. -/
theorem Inv.durable_install (h : Inv g d s) (hh : header g s.disk = s.lh)
    (hget : s.lh[tail]? = some b) : Durable g (installStep g s b tail).disk (effect s d) := by
  have hhome := (h.listed hget).1
  have hdata := h.content_log hh hget
  refine h.durable.write hhome.ne_start ?_ (fun _ _ => hdata)
  intro i x hi hb
  have hlt := h.durable.fits.tail_lt hi
  exact absurd hb (hhome.ne_log hlt)

/-- One more block is installed. -/
theorem Inv.installed_succ (h : Inv g d s) (hh : header g s.disk = s.lh)
    (hget : s.lh[tail]? = some b) (hi : Installed d s tail) (i x : Nat) (hlt : i < tail + 1)
    (hx : s.lh[i]? = some x) : (installStep g s b tail).disk x = effect s d x := by
  show update s.disk b _ x = _
  by_cases hxb : x = b
  · rw [hxb, update_self]
    exact h.content_log hh hget
  · rw [update_of_ne hxb]
    have hne : i ≠ tail := by
      intro he
      rw [he, hget] at hx
      exact hxb (Option.some.inj hx).symm
    exact hi i x (by omega) hx

/-- The loop of `install_trans` ends when every block is installed. -/
theorem Installed.all (hi : Installed d s tail) (hnone : s.lh[tail]? = none) :
    Installed d s s.lh.length := by
  intro i x hlt hx
  rw [List.getElem?_eq_none_iff] at hnone
  exact hi i x (by omega) hx

theorem Installed.mem (hi : Installed d s s.lh.length) {x : Nat} (hx : x ∈ s.lh) :
    s.disk x = effect s d x := by
  obtain ⟨i, hget⟩ := List.mem_iff_getElem?.mp hx
  exact hi i x (List.getElem?_eq_some_iff.mp hget).1 hget

/-! ## The steps -/

/-- `write_log` copies one block to the log. -/
theorem inv_writeLog (h : Inv g d s) (hphase : s.phase = .writeLog tail)
    (hget : s.lh[tail]? = some b) :
    Inv g d { (s.load b).bwrite (g.start + tail + 1) (s.content b) with
      phase := .writeLog (tail + 1) } := by
  obtain ⟨hcom, hops, hlisted, hheader, hcopied⟩ := h.at hphase
  have hv := h.volatile (by rw [hphase]; rfl)
  obtain ⟨hhome, hlog⟩ := h.listed hget
  have hstart : g.start + tail + 1 ≠ g.start := by omega
  refine ⟨?_, h.fits, (h.region.load b).bwrite _ _, fun _ => ?_, ?_⟩
  · refine h.durable.write hstart ?_ ?_
    · intro i x hi
      rw [hheader] at hi
      exact absurd hi (by simp)
    · intro hhome' _
      exact absurd rfl (hhome'.ne_inLog hlog)
  · refine volatile_of_idle hops (hv.outstanding_eq hops) ?_ ?_
    · intro b' hhome'
      show ((s.load b).bwrite _ _).content b' = view s d b'
      rw [content_bwrite, if_neg (Ne.symm (hhome'.ne_inLog hlog)), content_load]
      exact hv.content_eq hops hhome'
    · exact h.pins_at hphase rfl
  · refine ⟨hcom, hops, hlisted, ?_, ?_⟩
    · exact (header_update hstart _).trans hheader
    · intro i x hlt hx
      show update s.disk _ _ _ = view s d x
      by_cases hi : i = tail
      · subst hi
        rw [update_self, ← Option.some.inj (hget.symm.trans hx)]
        exact hv.content_eq hops hhome
      · rw [update_of_ne (by omega)]
        exact hcopied i x (by omega) hx

/-- `write_log` is done. -/
theorem inv_writeLog_done (h : Inv g d s) (hphase : s.phase = .writeLog tail)
    (hnone : s.lh[tail]? = none) : Inv g d { s with phase := .writeHead } := by
  obtain ⟨hcom, hops, hlisted, hheader, hcopied⟩ := h.at hphase
  have hv := h.volatile (by rw [hphase]; rfl)
  refine ⟨h.durable, h.fits, h.region, fun _ => ?_, ?_⟩
  · exact volatile_of_idle hops (hv.outstanding_eq hops) (fun b => hv.content_eq hops)
      (h.pins_at (p := .writeLog tail) hphase rfl)
  · refine ⟨hcom, hops, hlisted, hheader, ?_⟩
    intro i x hlt hx
    rw [List.getElem?_eq_none_iff] at hnone
    exact hcopied i x (Nat.lt_of_lt_of_le hlt hnone) hx

/-- `write_head` commits: the group becomes part of the committed writes. -/
theorem inv_writeHead (h : Inv g d s) (hphase : s.phase = .writeHead) :
    Inv g d { s.bwrite g.start (writeHeader (s.content g.start) s.lh) with
      phase := .install 0
      committed := s.committed ++ s.group
      group := [] } := by
  obtain ⟨hcom, hops, hlisted, hheader, hcopied⟩ := h.at hphase
  have hv := h.volatile (by rw [hphase]; rfl)
  refine ⟨?_, h.fits, h.region.bwrite _ _, fun _ => ?_, ?_⟩
  · refine h.durable.commit hheader h.fits _ ?_ ?_
    · intro i x hx
      exact hcopied i x (List.getElem?_eq_some_iff.mp hx).1 hx
    · intro x hx
      exact view_of_not_mem d (fun hmem => hx ((hlisted x).mpr hmem))
  · refine volatile_of_idle hops (hv.outstanding_eq hops) ?_ ?_
    · intro b hhome
      show (s.bwrite _ _).content b = applyWrites (s.committed ++ s.group ++ []) d b
      rw [content_bwrite, if_neg hhome.ne_start, List.append_nil]
      exact hv.content_eq hops hhome
    · exact h.pins_at hphase rfl
  · refine ⟨hcom, hops, rfl, h.fits.header _ _, ?_⟩
    intro i x hlt
    exact absurd hlt (by omega)

/-- `install_trans` installs one block and unpins it. -/
theorem inv_install (h : Inv g d s) (hphase : s.phase = .install tail) (hget : s.lh[tail]? = some b)
    :
    Inv g d { installStep g s b tail with
      pins := update s.pins b (s.pins b - 1)
      phase := .install (tail + 1) } := by
  obtain ⟨hcom, hops, hgroup, hheader, hinst⟩ := h.at hphase
  have hv := h.volatile (by rw [hphase]; rfl)
  obtain ⟨hhome, hlog⟩ := h.listed hget
  have hview : ∀ x, view s d x = effect s d x := fun x =>
    view_of_not_mem d (by simp [show s.group = [] from hgroup])
  refine ⟨h.durable_install hheader hget, h.fits,
    ((h.region.load _).load b).bwrite _ _, fun _ => ?_, ?_⟩
  · refine volatile_of_idle hops (hv.outstanding_eq hops) ?_ ?_
    · intro b' hhome'
      show (((s.load _).load b).bwrite b _).content b' = view s d b'
      rw [content_bwrite, content_load, content_load]
      split
      · rename_i hbb
        rw [hbb, hview b]
        exact h.content_log hheader hget
      · exact hv.content_eq hops hhome'
    · -- the block leaves the pinned part of the header, where it stands once
      intro x
      obtain ⟨hlt, hval⟩ := List.getElem?_eq_some_iff.mp hget
      have hdrop : s.lh.drop tail = b :: s.lh.drop (tail + 1) := by
        rw [List.drop_eq_getElem_cons hlt, hval]
      have hnodup : (b :: s.lh.drop (tail + 1)).Nodup := by
        rw [← hdrop]
        exact h.fits.nodup.sublist (List.drop_sublist _ _)
      have hpins := h.pins_at hphase rfl x
      simp only [pinned, hdrop, List.mem_cons] at hpins
      show update s.pins b (s.pins b - 1) x = if x ∈ s.lh.drop (tail + 1) then 1 else 0
      by_cases hxb : x = b
      · subst hxb
        rw [update_self, hpins, if_pos (Or.inl rfl),
          if_neg (List.nodup_cons.mp hnodup).1]
      · rw [update_of_ne hxb, hpins]
        simp [hxb]
  · refine ⟨hcom, hops, hgroup, ?_, h.installed_succ hheader hget hinst⟩
    exact (header_update hhome.ne_start _).trans hheader

/-- `install_trans` is done. -/
theorem inv_install_done (h : Inv g d s) (hphase : s.phase = .install tail)
    (hnone : s.lh[tail]? = none) : Inv g d { s with phase := .clear } := by
  obtain ⟨hcom, hops, hgroup, hheader, hinst⟩ := h.at hphase
  have hv := h.volatile (by rw [hphase]; rfl)
  refine ⟨h.durable, h.fits, h.region, fun _ => ?_, ?_⟩
  · refine volatile_of_idle hops (hv.outstanding_eq hops) (fun b => hv.content_eq hops) ?_
    intro b
    have hpins := h.pins_at hphase rfl b
    have hdrop : s.lh.drop tail = [] := by
      rw [List.drop_eq_nil_iff]
      exact List.getElem?_eq_none_iff.mp hnone
    simpa [hdrop, pinned] using hpins
  · exact ⟨hcom, hops, hgroup, hheader, hinst.all hnone⟩

/-- The second `write_head` of `commit()` erases the transaction. -/
theorem inv_clear (h : Inv g d s) (hphase : s.phase = .clear) :
    Inv g d { s.bwrite g.start (writeHeader (s.content g.start) []) with
      lh := []
      phase := .ending } := by
  obtain ⟨hcom, hops, hgroup, hheader, hinst⟩ := h.at hphase
  have hv := h.volatile (by rw [hphase]; rfl)
  refine ⟨?_, Fits.nil g, h.region.bwrite _ _, fun _ => ?_, ?_⟩
  · refine h.durable.clear ?_ _
    intro x hx
    rw [hheader] at hx
    exact hinst.mem hx
  · refine volatile_of_idle hops (hv.outstanding_eq hops) ?_ ?_
    · intro b hhome
      show (s.bwrite _ _).content b = view s d b
      rw [content_bwrite, if_neg hhome.ne_start]
      exact hv.content_eq hops hhome
    · exact h.pins_at hphase rfl
  · exact ⟨hcom, hops, hgroup, rfl, (Fits.nil g).header _ _⟩

/-- The end of `end_op`. -/
theorem inv_ending (h : Inv g d s) (hphase : s.phase = .ending) :
    Inv g d { s with committing := false, phase := .running } := by
  obtain ⟨_, hops, hgroup, hlh, hheader⟩ := h.at hphase
  have hv := h.volatile (by rw [hphase]; rfl)
  refine ⟨h.durable, h.fits, h.region, fun _ => ?_, ?_⟩
  · exact volatile_of_idle hops (hv.outstanding_eq hops) (fun b => hv.content_eq hops)
      (h.pins_at hphase rfl)
  · refine ⟨rfl, ?_, hheader⟩
    intro b
    show b ∈ s.lh ↔ b ∈ s.group.map Write.blk
    rw [hlh, hgroup]
    rfl

/-- `read_head` reads the list that the last `write_head` stored. -/
theorem inv_readHead (h : Inv g d s) (hphase : s.phase = .readHead) :
    Inv g d { s.load g.start with
      lh := readHeader (s.content g.start)
      phase := .recInstall 0 } := by
  obtain ⟨hboot, _⟩ := h.at hphase
  have hlh : readHeader (s.content g.start) = header g s.disk := by
    rw [h.region _ g.inLog_start]
    rfl
  refine ⟨h.durable, ?_, h.region.load _, ?_, ?_⟩
  · show Fits g (readHeader (s.content g.start))
    rw [hlh]
    exact h.durable.fits
  · intro hup
    exact absurd hup Bool.false_ne_true
  · refine ⟨?_, hlh.symm, ?_⟩
    · exact ⟨hboot.ops, hboot.group, hboot.outstanding, hboot.committing, hboot.pins,
        hboot.cached.load _⟩
    · intro i _ hi
      exact absurd hi (by omega)

/-- `install_trans(1)` installs one block. -/
theorem inv_recInstall (h : Inv g d s) (hphase : s.phase = .recInstall tail)
    (hget : s.lh[tail]? = some b) :
    Inv g d { installStep g s b tail with phase := .recInstall (tail + 1) } := by
  obtain ⟨hboot, hheader, hinst⟩ := h.at hphase
  obtain ⟨hhome, _⟩ := h.listed hget
  refine ⟨h.durable_install hheader hget, h.fits,
    ((h.region.load _).load b).bwrite _ _, ?_, ?_⟩
  · intro hup
    exact absurd hup Bool.false_ne_true
  · refine ⟨?_, (header_update hhome.ne_start _).trans hheader,
      h.installed_succ hheader hget hinst⟩
    exact ⟨hboot.ops, hboot.group, hboot.outstanding, hboot.committing, hboot.pins,
      ((hboot.cached.load _).load b).bwrite _ _⟩

theorem inv_recInstall_done (h : Inv g d s) (hphase : s.phase = .recInstall tail)
    (hnone : s.lh[tail]? = none) : Inv g d { s with phase := .recClear } := by
  obtain ⟨hboot, hheader, hinst⟩ := h.at hphase
  refine ⟨h.durable, h.fits, h.region, ?_, ?_⟩
  · intro hup
    exact absurd hup Bool.false_ne_true
  · exact ⟨⟨hboot.ops, hboot.group, hboot.outstanding, hboot.committing, hboot.pins,
      hboot.cached⟩, hheader, hinst.all hnone⟩

/-- The end of `recover_from_log()`: every home block is in place. -/
theorem inv_recClear (h : Inv g d s) (hphase : s.phase = .recClear) :
    Inv g d { s.bwrite g.start (writeHeader (s.content g.start) []) with
      lh := []
      phase := .running } := by
  obtain ⟨hboot, hheader, hinst⟩ := h.at hphase
  have hdurable : Durable g (update s.disk g.start
      (writeHeader (s.content g.start) [])) (effect s d) := by
    refine h.durable.clear ?_ _
    intro x hx
    rw [hheader] at hx
    exact hinst.mem hx
  have hempty := (Fits.nil g).header (s.content g.start) s.disk
  refine ⟨hdurable, Fits.nil g, h.region.bwrite _ _, fun _ => ?_, ?_⟩
  · refine volatile_of_idle hboot.ops hboot.outstanding ?_ hboot.pins
    intro b hhome
    have hcached := (hboot.cached.bwrite g.start (writeHeader (s.content g.start) [])) b trivial
    have hrest := hdurable.rest b hhome (by rw [hempty]; simp)
    have hview : view s d b = effect s d b := view_of_not_mem d
      (by simp [show s.group = [] from hboot.group])
    exact hcached.trans (hrest.trans hview.symm)
  · refine ⟨hboot.committing, ?_, hempty⟩
    intro b
    show b ∈ [] ↔ b ∈ s.group.map Write.blk
    rw [hboot.group]
    rfl

theorem inv_advance (h : Inv g d s) (hr : Rule g s .advance s') : Inv g d s' := by
  cases hr with
  | writeLog hphase hget => exact inv_writeLog h hphase hget
  | writeLogDone hphase hnone => exact inv_writeLog_done h hphase hnone
  | writeHead hphase => exact inv_writeHead h hphase
  | install hphase hget => exact inv_install h hphase hget
  | installDone hphase hnone => exact inv_install_done h hphase hnone
  | clear hphase => exact inv_clear h hphase
  | ending hphase => exact inv_ending h hphase
  | readHead hphase => exact inv_readHead h hphase
  | recInstall hphase hget => exact inv_recInstall h hphase hget
  | recInstallDone hphase hnone => exact inv_recInstall_done h hphase hnone
  | recClear hphase => exact inv_recClear h hphase

/-! ## Every run -/

/-- The invariant is preserved by every step. -/
theorem next_inv {l : Label} (h : Inv g d s) (hs : next g s l = some s') : Inv g d s' := by
  have hr := next_rule hs
  cases l with
  | beginOp p => exact inv_beginOp h hr
  | bread p b => exact inv_bread h hr
  | modify p b v => exact inv_modify h hr
  | logWrite p b => exact inv_logWrite h hr
  | brelse p b => exact inv_brelse h hr
  | endOp p => exact inv_endOp h hr
  | advance => exact inv_advance h hr
  | evict b => exact inv_evict h hr
  | crash =>
    obtain rfl := Option.some.inj hs
    exact inv_crash h

theorem initial_inv (h : Initial g d s) : Inv g d s := by
  obtain ⟨rfl, hempty⟩ := h
  have hheader : header g d = [] := hempty
  refine ⟨⟨?_, ?_, ?_⟩, Fits.nil g, fun _ _ => rfl, ?_, ?_⟩
  · show Fits g (header g d)
    rw [hheader]
    exact Fits.nil g
  · intro i b hi
    rw [show header g (boot d).disk = [] from hheader] at hi
    exact absurd hi (by simp)
  · intro b _ _
    rfl
  · intro hup
    exact absurd hup Bool.false_ne_true
  · exact ⟨⟨rfl, rfl, rfl, rfl, fun _ => rfl, fun _ _ => rfl⟩, rfl⟩

end Xv6.Log
