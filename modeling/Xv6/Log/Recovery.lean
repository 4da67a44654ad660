import Xv6.Log.Commit

/-!
# Crash atomicity

What `recover_from_log()` leaves on the disk.  The home blocks are the
effect of the committed writes, by `Durable`.  What is left is that the
committed writes are those of whole operations: an operation never has one
write in a committed group and another one in a group that a crash cut off.
This holds because a group commits only when no operation is in progress,
and a crash ends every operation.
-/

namespace Xv6.Log

open State Xv6.Lib

variable {g : Geometry} {d : Nat → Block} {s s' : State}

/-! ## Operations do not straddle groups -/

/-- No write of one list and write of the other come from one operation. -/
def Apart (ws ws' : List Write) : Prop := ∀ w ∈ ws, ∀ w' ∈ ws', w.op ≠ w'.op

/-- The history of the operations.  Every operation has its own number, and
the writes of an operation in progress are all in the current group. -/
structure Whole (s : State) : Prop where
  fresh : ∀ w ∈ s.committed ++ s.lost ++ s.group, w.op < s.nextOp
  freshOp : ∀ o ∈ s.ops, o.id < s.nextOp
  live : ∀ o ∈ s.ops, ∀ w ∈ s.committed ++ s.lost, w.op ≠ o.id
  settled : Apart s.committed s.lost
  current : Apart (s.committed ++ s.lost) s.group

/-- A step that leaves the history alone. -/
theorem Whole.of_eq (h : Whole s) (hnext : s'.nextOp = s.nextOp)
    (hcommitted : s'.committed = s.committed) (hlost : s'.lost = s.lost)
    (hgroup : s'.group = s.group)
    (hops : ∀ o' ∈ s'.ops, ∃ o ∈ s.ops, o'.id = o.id) : Whole s' := by
  refine ⟨?_, ?_, ?_, ?_, ?_⟩
  · rw [hcommitted, hlost, hgroup, hnext]
    exact h.fresh
  · intro o' ho'
    obtain ⟨o, ho, hid⟩ := hops o' ho'
    rw [hid, hnext]
    exact h.freshOp o ho
  · intro o' ho'
    obtain ⟨o, ho, hid⟩ := hops o' ho'
    rw [hid, hcommitted, hlost]
    exact h.live o ho
  · rw [hcommitted, hlost]
    exact h.settled
  · rw [hcommitted, hlost, hgroup]
    exact h.current

/-- The operations after one of them changes its lists of blocks. -/
theorem id_of_setOp {o o' : Op} (ho : o ∈ s.ops) (hid : o'.id = o.id) :
    ∀ o'' ∈ (s.setOp o').ops, ∃ o1 ∈ s.ops, o''.id = o1.id := by
  intro o'' ho''
  rcases mem_setOp ho'' with rfl | ⟨ho'', _⟩
  · exact ⟨o, ho, hid⟩
  · exact ⟨o'', ho'', rfl⟩

/-- A write of an operation in progress joins the current group. -/
theorem Whole.logged (h : Whole s) {o : Op} (o' : Op) (ho : o ∈ s.ops) (hid : o'.id = o.id)
    (b : Nat) (v : Block) (lh : List Nat) (pins : Nat → Nat) :
    Whole { s.setOp o' with group := s.group ++ [⟨o.id, b, v⟩], lh := lh, pins := pins } := by
  have hops := id_of_setOp ho hid
  refine ⟨?_, ?_, ?_, h.settled, ?_⟩
  · intro w hw
    rcases List.mem_append.mp hw with hw | hw
    · exact h.fresh w (List.mem_append_left _ hw)
    · rcases List.mem_append.mp hw with hw | hw
      · exact h.fresh w (List.mem_append_right _ hw)
      · rw [List.mem_singleton.mp hw]
        exact h.freshOp o ho
  · intro o'' ho''
    obtain ⟨o1, ho1, hid1⟩ := hops o'' ho''
    rw [hid1]
    exact h.freshOp o1 ho1
  · intro o'' ho''
    obtain ⟨o1, ho1, hid1⟩ := hops o'' ho''
    rw [hid1]
    exact h.live o1 ho1
  · intro w hw w' hw'
    rcases List.mem_append.mp hw' with hw' | hw'
    · exact h.current w hw w' hw'
    · rw [List.mem_singleton.mp hw']
      exact h.live o ho w hw

theorem Apart.append_left {ws1 ws2 ws : List Write} (h1 : Apart ws1 ws) (h2 : Apart ws2 ws) :
    Apart (ws1 ++ ws2) ws := by
  intro w hw
  rcases List.mem_append.mp hw with hw | hw
  · exact h1 w hw
  · exact h2 w hw

theorem Apart.symm {ws ws' : List Write} (h : Apart ws ws') : Apart ws' ws :=
  fun w hw w' hw' he => h w' hw' w hw he.symm

/-- The two ways in which a group ends: it commits, or a crash cuts it off.
In both no operation is left in progress. -/
theorem Whole.settle (h : Whole s) (hops : s'.ops = []) (hgroup : s'.group = [])
    (hnext : s'.nextOp = s.nextOp)
    (hend : (s'.committed = s.committed ++ s.group ∧ s'.lost = s.lost) ∨
      (s'.committed = s.committed ∧ s'.lost = s.lost ++ s.group)) : Whole s' := by
  have hcg : Apart s.committed s.group :=
    fun w hw => h.current w (List.mem_append_left _ hw)
  have hlg : Apart s.lost s.group := fun w hw => h.current w (List.mem_append_right _ hw)
  refine ⟨?_, ?_, ?_, ?_, ?_⟩
  · intro w hw
    rw [hnext]
    refine h.fresh w ?_
    rcases hend with ⟨hc, hl⟩ | ⟨hc, hl⟩
    · simp only [hc, hl, hgroup, List.mem_append, List.not_mem_nil, or_false] at hw ⊢
      tauto
    · simp only [hc, hl, hgroup, List.mem_append, List.not_mem_nil, or_false] at hw ⊢
      tauto
  · intro o ho
    rw [hops] at ho
    exact absurd ho (by simp)
  · intro o ho
    rw [hops] at ho
    exact absurd ho (by simp)
  · rcases hend with ⟨hc, hl⟩ | ⟨hc, hl⟩
    · rw [hc, hl]
      exact h.settled.append_left hlg.symm
    · rw [hc, hl]
      exact (h.settled.symm.append_left hcg.symm).symm
  · rw [hgroup]
    intro w _ w' hw'
    exact absurd hw' (by simp)

/-- Every step keeps the history whole. -/
theorem next_whole {l : Label} (hinv : Inv g d s) (h : Whole s) (hs : next g s l = some s') :
    Whole s' := by
  have hsame : ∀ o ∈ s.ops, ∃ o' ∈ s.ops, o.id = o'.id := fun o ho => ⟨o, ho, rfl⟩
  cases next_rule hs with
  | beginOp =>
    -- a new operation has a new number
    refine ⟨?_, ?_, ?_, h.settled, h.current⟩
    · intro w hw
      exact Nat.lt_succ_of_lt (h.fresh w hw)
    · intro o ho
      rcases List.mem_cons.mp ho with rfl | ho
      · exact Nat.lt_succ_self _
      · exact Nat.lt_succ_of_lt (h.freshOp o ho)
    · intro o ho w hw
      rcases List.mem_cons.mp ho with rfl | ho
      · exact Nat.ne_of_lt (h.fresh w (List.mem_append_left _ hw))
      · exact h.live o ho w hw
  | modify hop =>
    exact h.of_eq rfl rfl rfl rfl (id_of_setOp (mem_of_opOf hop).1 rfl)
  | log hop => exact h.logged _ (mem_of_opOf hop).1 (by rfl) _ _ _ _
  | endOp =>
    exact h.of_eq rfl rfl rfl rfl (fun o ho => ⟨o, (List.mem_filter.mp ho).1, rfl⟩)
  | writeHead hphase =>
    -- the group commits when no operation is in progress
    obtain ⟨_, hops, _⟩ := hinv.at hphase
    exact h.settle hops rfl rfl (Or.inl ⟨rfl, rfl⟩)
  | crash => exact h.settle rfl rfl rfl (Or.inr ⟨rfl, rfl⟩)
  | bread | full | brelse | writeLog | writeLogDone | install | installDone | clear | ending
  | readHead | recInstall | recInstallDone | recClear | evict =>
    exact h.of_eq rfl rfl rfl rfl hsame

theorem initial_whole (h : Initial g d s) : Whole s := by
  obtain ⟨rfl, _⟩ := h
  refine ⟨?_, ?_, ?_, ?_, ?_⟩ <;> intro _ h <;> exact absurd h (by simp [boot])

/-- Both parts hold in every state that a run reaches. -/
theorem reach_inv (h : Reach (next g) (Initial g d) s) : Inv g d s ∧ Whole s := by
  refine h.invariant (I := fun s => Inv g d s ∧ Whole s) (fun s h0 => ⟨initial_inv h0, initial_whole h0⟩) ?_
  intro s l s' hs _ hnext
  exact ⟨next_inv hs.1 hnext, next_whole hs.1 hs.2 hnext⟩

/-! ## The recovery ends -/

/-- The places of `recover_from_log()`, and its end. -/
def Phase.recovering : Phase → Bool
  | .readHead | .recInstall _ | .recClear | .running => true
  | _ => false

/-- The recovery runs to its end without the help of any process, and commits nothing. -/
def Ends (g : Geometry) (s : State) : Prop :=
  ∃ n s', runFrom (next g) s (List.replicate n .advance) = some s' ∧ s'.phase = .running ∧
    s'.committed = s.committed

theorem Ends.step {t : State} (hstep : next g s .advance = some t)
    (hsame : t.committed = s.committed) (h : Ends g t) : Ends g s := by
  obtain ⟨n, s', hrun, hphase, hcommitted⟩ := h
  refine ⟨n + 1, s', ?_, hphase, hcommitted.trans hsame⟩
  rw [List.replicate_succ, runFrom, runWhen_cons trivial hstep]
  exact hrun

theorem recClear_ends (hphase : s.phase = .recClear) : Ends g s := by
  refine .step (t := { s.bwrite g.start (writeHeader (s.content g.start) []) with
    lh := [], phase := .running }) ?_ rfl ⟨0, _, rfl, rfl, rfl⟩
  simp only [next, advance, hphase]

/-- The loop of `install_trans(1)` and the header write after it. -/
theorem recInstall_ends : ∀ (k : Nat) {s : State} {tail : Nat}, s.phase = .recInstall tail →
    s.lh.length ≤ tail + k → Ends g s := by
  intro k
  induction k with
  | zero =>
    intro s tail hphase hlen
    have hnone : s.lh[tail]? = none := List.getElem?_eq_none_iff.mpr hlen
    refine .step (t := { s with phase := .recClear }) ?_ rfl (recClear_ends rfl)
    simp only [next, advance, hphase, hnone]
  | succ k ih =>
    intro s tail hphase hlen
    cases hget : s.lh[tail]? with
    | none =>
      rw [List.getElem?_eq_none_iff] at hget
      exact ih hphase (by omega)
    | some b =>
      refine .step (t := { installStep g s b tail with phase := .recInstall (tail + 1) }) ?_ rfl
        (ih rfl (by show s.lh.length ≤ _; omega))
      simp only [next, advance, hphase, hget]

theorem recovery_ends (h : s.phase.recovering = true) : Ends g s := by
  cases hphase : s.phase with
  | readHead =>
    refine .step (t := { s.load g.start with
      lh := readHeader (s.content g.start), phase := .recInstall 0 }) ?_ rfl
      (recInstall_ends _ rfl (Nat.le_add_left _ _))
    simp only [next, advance, hphase]
  | recInstall tail => exact recInstall_ends s.lh.length hphase (Nat.le_add_left _ _)
  | recClear => exact recClear_ends hphase
  | running => exact ⟨0, s, rfl, hphase, rfl⟩
  | _ =>
    rw [hphase] at h
    cases h

/-- A step of the recovery, or another crash in it. -/
theorem recovering_step {l : Label} (h : s.phase.recovering = true) (hl : l = .advance ∨ l = .crash)
    (hstep : next g s l = some s') :
    s'.phase.recovering = true ∧ s'.committed = s.committed := by
  rcases hl with rfl | rfl
  · cases hphase : s.phase with
    | readHead =>
      simp only [next, advance, hphase, Option.some.injEq] at hstep
      subst hstep
      exact ⟨rfl, rfl⟩
    | recInstall tail =>
      simp only [next, advance, hphase] at hstep
      split at hstep <;> cases hstep <;> exact ⟨rfl, rfl⟩
    | recClear =>
      simp only [next, advance, hphase, Option.some.injEq] at hstep
      subst hstep
      exact ⟨rfl, rfl⟩
    | running => simp only [next, advance, hphase, reduceCtorEq] at hstep
    | _ =>
      rw [hphase] at h
      cases h
  · cases hstep
    exact ⟨rfl, rfl⟩

/-! ## The result -/

/-- Once the log on the disk is empty, the home blocks are in place. -/
theorem Inv.home_of_empty (h : Inv g d s) (hempty : header g s.disk = []) {b : Nat}
    (hhome : g.Home b) : s.disk b = applyWrites s.committed d b :=
  h.durable.rest b hhome (by rw [hempty]; simp)

/-- Crash atomicity.  Take any run of file-system operations, commits,
crashes and recoveries from a freshly made image `d`, and let
`recover_from_log()` complete.  The home blocks are the image with the
committed writes made in order, and every operation has its logged writes
all among the committed ones or none of them there. -/
theorem recover_from_log_atomic (hreach : Reach (next g) (Initial g d) s)
    (hphase : s.phase = .recClear) (hstep : next g s .advance = some s') :
    (∀ b, g.Home b → s'.disk b = applyWrites s'.committed d b) ∧
      ∀ op, (∀ w ∈ s'.lost ++ s'.group, w.op ≠ op) ∨ (∀ w ∈ s'.committed, w.op ≠ op) := by
  obtain ⟨hinv, hwhole⟩ := reach_inv (.step .advance hreach trivial hstep)
  have hrunning : s'.phase = .running := by
    simp only [next, advance, hphase] at hstep
    obtain rfl := Option.some.inj hstep
    rfl
  refine ⟨fun b => hinv.home_of_empty (hinv.of_running hrunning).2.2, ?_⟩
  intro op
  by_cases hcommitted : ∃ w ∈ s'.committed, w.op = op
  · obtain ⟨w, hw, rfl⟩ := hcommitted
    left
    intro w' hw'
    rcases List.mem_append.mp hw' with hw' | hw'
    · exact (hwhole.settled w hw w' hw').symm
    · exact (hwhole.current w (List.mem_append_left _ hw) w' hw').symm
  · right
    intro w hw he
    exact hcommitted ⟨w, hw, he⟩

/-! ## What a crash leaves -/

/-- The last operation of a group commits it before it returns. -/
def Flushed (s : State) : Prop := s.phase = .running → s.outstanding = 0 → s.group = []

theorem Inv.ops_nil (hinv : Inv g d s) (hup : s.phase.up = true) (hidle : s.outstanding = 0) :
    s.ops = [] :=
  List.length_eq_zero_iff.mp ((hinv.volatile hup).count.symm.trans hidle)

theorem Inv.flushed_step {l : Label} (hinv : Inv g d s) (h : Flushed s)
    (hs : next g s l = some s') : Flushed s' := by
  intro hphase hidle
  cases next_rule hs with
  | beginOp => cases hidle
  | bread | modify | brelse | evict => exact h hphase hidle
  | log hop hup =>
    rw [State.opOf, hinv.ops_nil hup hidle] at hop
    cases hop
  | endOp hop hup hdirty =>
    simp only [next, endOp, hop, hup, hdirty, and_self, if_true] at hs
    split_ifs at hs <;> cases hs <;> cases hphase
  | ending hending => exact (hinv.at hending).2.2.1
  | recClear hclear => exact (hinv.at hclear).1.group
  | _ => cases hphase

theorem reach_flushed (h : Reach (next g) (Initial g d) s) : Inv g d s ∧ Flushed s := by
  refine h.invariant (I := fun s => Inv g d s ∧ Flushed s) ?_ ?_
  · rintro _ ⟨rfl, hempty⟩
    exact ⟨initial_inv ⟨rfl, hempty⟩, nofun⟩
  · rintro s l s' ⟨hinv, hs⟩ - hstep
    exact ⟨next_inv hinv hstep, hinv.flushed_step hs hstep⟩

/-- A run that crashes between the header write and the installation.  The
first operation writes block 33, and its group commits. -/
def crashRun : List Label :=
  [.advance, .advance, .advance, .beginOp 1, .bread 1 33, .modify 1 33 (fun _ => 7),
    .logWrite 1 33, .brelse 1 33, .endOp 1, .advance, .advance, .advance, .crash,
    .advance, .advance, .advance]

theorem boot_initial : Initial mkfsGeometry (fun _ _ => 0) (boot (fun _ _ => 0)) :=
  ⟨rfl, by decide⟩

theorem recover_from_log_atomic_crashRun :
    ∃ s s', Reach (next mkfsGeometry) (Initial mkfsGeometry (fun _ _ => 0)) s ∧
      s.phase = .recClear ∧ next mkfsGeometry s .advance = some s' ∧
      s'.committed.map Write.blk = [33] ∧
      (∀ b, mkfsGeometry.Home b →
        s'.disk b = applyWrites s'.committed (fun _ _ => 0) b) := by
  obtain ⟨s, hreach, hphase, hblk⟩ : ∃ s,
      Reach (next mkfsGeometry) (Initial mkfsGeometry (fun _ _ => 0)) s ∧
        s.phase = .recClear ∧ s.committed.map Write.blk = [33] :=
    exists_reachWhen_of_run crashRun boot_initial (by decide +kernel)
  have hstep : next mkfsGeometry s .advance = some
      { s.bwrite 2 (writeHeader (s.content 2) []) with lh := [], phase := .running } := by
    simp only [next, advance, hphase]
    rfl
  exact ⟨s, _, hreach, hphase, hstep, hblk,
    (recover_from_log_atomic hreach hphase hstep).1⟩

end Xv6.Log
