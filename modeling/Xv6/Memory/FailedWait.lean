import Xv6.Memory.Boot
import Xv6.Memory.CopyOnWrite

/-!
# Calls of `wait` and `waitx` that fail

`sys_wait` and `sys_waitx` with everything that they write: the exit status to
`addr`, and for `sys_waitx` the two times to `addr1` and `addr2`.  One pass over
the process table either ends the call or goes to sleep.  A pass that sleeps
changes nothing, and the next pass starts from the table that it then finds.

`sys_waitx` copies the times out after `waitx` has returned, whatever it
returned.  So a call that found no child writes two variables that were never
set, and a call that has freed the child still fails if one of the times cannot be
copied.  `failed_waits_iff` says exactly when a call that returns `-1` has had no
effect.
-/

namespace Xv6.Memory

open Xv6.Lib Function

/-! ## The calls -/

/-- The fields of `struct proc` that the calls read beside those of `Proc`. -/
structure Info where
  pid : Int32
  killed : Bool
  rTime : UInt32
  ctime : UInt32
  etime : UInt32

/-- What `freeproc` leaves of them. -/
def Info.freed (x : Info) : Info := { x with pid := 0, killed := false }

/-- The kernel with these fields. -/
structure World where
  kernel : Kernel
  info : Nat → Info

/-- How a pass over the table ends. -/
inductive Pass
  | asleep
  | fail
  | reaped (pid : Int32)

/-- What `wait` or `waitx` returns after the pass, if it does. -/
def Pass.answer : Pass → Option Int32
  | .asleep => none
  | .fail => some (-1)
  | .reaped pid => some pid

/-- `havekids`, at the end of a pass.  The first process has a null pointer as
its parent, which is 0 here and no child. -/
def haveKids (p : Nat) (proc : Nat → Option Proc) : Bool :=
  (List.range NPROC).any (fun i => i ≠ p && (proc i).any (fun Q => Q.parent = p))

/-- A pass of `wait` or `waitx` by the process `P` in slot `p`. -/
def waitPass (L : Layout) (p : Nat) (P : Proc) (addr : Nat) (w : World) :
    Except Panic (Pass × World) :=
  match zombieChild p w.kernel.proc with
  | none =>
      if haveKids p w.kernel.proc && !(w.info p).killed then .ok (.asleep, w) else .ok (.fail, w)
  | some i => do
      let (r, k) ← wait L p P addr w.kernel
      if r = .done then
        .ok (.reaped (w.info i).pid, ⟨k, update w.info i (w.info i).freed⟩)
      else .ok (.fail, { w with kernel := k })

/-- `copyout(myproc()->pagetable, va, src)`. -/
def copyoutTo (L : Layout) (p va : Nat) (src : List UInt8) (w : World) :
    Except Panic (Bool × World) :=
  match w.kernel.proc p with
  | none => .ok (false, w)
  | some P => do
      let (r, m, pt) ← copyout L va src P.pagetable w.kernel.mem
      let k := { w.kernel with mem := m }.setProc p (some { P with pagetable := pt })
      .ok (r, { w with kernel := k })

/-- `sys_wait`.  The result `none` is a call that sleeps. -/
def sysWait (L : Layout) (p : Nat) (P : Proc) (addr : Nat) (w : World) :
    Except Panic (Option Int32 × World) := do
  let (pass, w) ← waitPass L p P addr w
  .ok (pass.answer, w)

/-- The end of `sys_waitx`, after `waitx` has returned `ret`. -/
def copyTimes (L : Layout) (p addr1 addr2 : Nat) (wtime rTime : UInt32) (ret : Int32) (w : World) :
    Except Panic (Option Int32 × World) := do
  let (r, w) ← copyoutTo L p addr1 (le32 wtime.toNat) w
  if r then do
    let (r, w) ← copyoutTo L p addr2 (le32 rTime.toNat) w
    if r then .ok (some ret, w) else .ok (some (-1), w)
  else .ok (some (-1), w)

/-- `wtime` and `RTime` after `waitx`.  If no child was found they are what they
were before. -/
def waitxTimes (p : Nat) (wtime rTime : UInt32) (w : World) : UInt32 × UInt32 :=
  match zombieChild p w.kernel.proc with
  | none => (wtime, rTime)
  | some i => ((w.info i).etime - (w.info i).ctime - (w.info i).rTime, (w.info i).rTime)

/-- `sys_waitx`.  `wtime` and `rTime` are the values of the local variables that
`waitx` may set. -/
def sysWaitx (L : Layout) (p : Nat) (P : Proc) (addr addr1 addr2 : Nat) (wtime rTime : UInt32)
    (w : World) : Except Panic (Option Int32 × World) := do
  let times := waitxTimes p wtime rTime w
  let (pass, w) ← waitPass L p P addr w
  match pass.answer with
  | none => .ok (none, w)
  | some ret => copyTimes L p addr1 addr2 times.1 times.2 ret w

/-- A process that calls `wait` or `waitx`. -/
structure Caller (L : Layout) where
  world : World
  sound : Sound L world.kernel
  slot : Nat
  proc : Proc
  here : world.kernel.proc slot = some proc
  running : proc.zombie = false

/-! ## No effect -/

/-- The pid, the state and the exit status of a child. -/
def childView (w : World) (p i : Nat) : Option (Int32 × Bool × UInt32) :=
  (w.kernel.proc i).bind (fun Q =>
    if Q.parent = p then some ((w.info i).pid, Q.zombie, Q.xstate) else none)

/-- No child was reaped, and without an exited child nothing was written. -/
structure NoEffect (p : Nat) (w w' : World) : Prop where
  children : ∀ i, childView w' p i = childView w p i
  memory : zombieChild p w.kernel.proc = none →
    ∀ va, visible w'.kernel p va = visible w.kernel p va

variable {L : Layout} {w w' w₁ : World} {p : Nat} {P : Proc} {m m' : Mem} {pt pt' : PageTable}
  {n : Nat}

theorem NoEffect.refl (p : Nat) (w : World) : NoEffect p w w := ⟨fun _ => rfl, fun _ _ => rfl⟩

/-! ## Bytes that `copyout` writes -/

theorem patch_cases (page : Page) (off : Nat) (src : List UInt8) (i : Fin PGSIZE) :
    patch page off src i = page i ∨ patch page off src i ∈ src := by
  unfold patch
  split
  · rw [List.getD_eq_getElem?_getD]
    cases hget : src[i.val - off]? with
    | none => exact Or.inl rfl
    | some b => exact Or.inr (List.mem_of_getElem? hget)
  · exact Or.inl rfl

variable {dstva addr : Nat} {src : List UInt8} {r : Bool} {c : Caller L}

/-- `copyout` changes a byte only to one of those that it copies. -/
theorem CopyOut.load (hc : CopyOut L dstva src m pt r m' pt') (h : Held L m pt n) (va : Nat) :
    (spaceOf m' pt').load va = (spaceOf m pt).load va ∨
      ∃ b ∈ src, (spaceOf m' pt').load va = some b := by
  induction hc with
  | done | invalid | oom => exact Or.inl rfl
  | @page dstva src m m1 m' pt pt1 pt' r e f hsrc _ hr hrest ih =>
    cases ih (hr.held h) with
    | inr hwritten =>
      obtain ⟨b, hb, hload⟩ := hwritten
      exact Or.inr ⟨b, List.mem_of_mem_drop hb, hload⟩
    | inl hsame =>
      rw [hsame, hr.load h.backed]
      split
      · rename_i hv
        cases patch_cases (m.bytes e.ppn) (dstva % PGSIZE)
            (src.take (chunk dstva src.length)) (Fin.ofNat PGSIZE va) with
        | inl hkeep =>
          refine Or.inl ?_
          rw [load_of_leaf hr.below hr.before hr.user hv, byteAt, hkeep]
          rfl
        | inr hmem => exact Or.inr ⟨_, List.mem_of_mem_take hmem, rfl⟩
      · exact Or.inl rfl

/-- `copyout` can copy the first page: it is a user page, and some page is
free. -/
def FirstPage (va : Nat) (pt : PageTable) (m : Mem) : Prop :=
  Cowable pt (pgrounddown va) ∧ m.freelist ≠ []

/-- If the first page can be copied, the first byte is written. -/
theorem copyout_first {b : UInt8} (h : Held L m pt n)
    (hrun : copyout L dstva src pt m = .ok (r, m', pt')) (hne : src ≠ []) (hsrc : ∀ x ∈ src, x = b)
    (hpage : FirstPage dstva pt m) : (spaceOf m' pt').load dstva = some b := by
  obtain ⟨x, rest, rfl⟩ := List.exists_cons_of_ne_nil hne
  obtain ⟨hc, hfree⟩ := hpage
  obtain ⟨_, e, f, m1, pt1, hcow, hr⟩ :=
    (cowHandler_cowable h.backed hc).resolve_left (fun hnil => hfree hnil.1)
  obtain ⟨m2, hw, hloop⟩ := copyoutLoop_copied rest.length hne hc hcow hr
  have hmod := Nat.mod_lt dstva (show 0 < PGSIZE by decide)
  have hchunk : 0 < chunk dstva (x :: rest).length := by
    unfold chunk
    simp only [List.length_cons]
    omega
  -- the first chunk starts at the address
  have hfirst : (spaceOf m2 pt1).load dstva = some b := by
    rw [hw.load h.backed, if_pos rfl, ← hsrc x (List.mem_cons_self ..)]
    obtain ⟨c, hc⟩ := Nat.exists_eq_succ_of_ne_zero (Nat.pos_iff_ne_zero.mp hchunk)
    rw [hc, List.take_succ_cons, byteAt, patch]
    simp
  obtain ⟨r', m3, pt3, hrun', hrest⟩ := copyoutLoop_spec rest.length (pgrounddown dstva + PGSIZE)
    ((x :: rest).drop (chunk dstva (x :: rest).length))
    (by rw [List.length_drop]; exact Nat.sub_le_of_le_add (Nat.add_le_add_left hchunk _))
    (hw.held h).backed
  rw [copyout, List.length_cons, hloop, hrun'] at hrun
  cases hrun
  cases hrest.load (hw.held h) dstva with
  | inl hsame => rw [hsame, hfirst]
  | inr hwritten =>
    obtain ⟨y, hy, hload⟩ := hwritten
    rw [hload, hsrc y (List.mem_of_mem_drop hy)]

/-- If it cannot, nothing is written. -/
theorem copyout_refused (src : List UInt8) (h : Held L m pt n) (hne : src ≠ [])
    (hpage : ¬FirstPage dstva pt m) :
    ∃ m', copyout L dstva src pt m = .ok (false, m', pt) ∧ m'.bytes = m.bytes := by
  obtain ⟨x, rest, rfl⟩ := List.exists_cons_of_ne_nil hne
  by_cases hc : Cowable pt (pgrounddown dstva)
  · rcases cowHandler_cowable h.backed hc with ⟨_, hrun⟩ | ⟨hfree, _⟩
    · exact ⟨_, copyoutLoop_refused hne hrun (Or.inr hc), rfl⟩
    · exact absurd ⟨hc, hfree⟩ hpage
  · exact ⟨_, copyoutLoop_refused hne (cowHandler_invalid hc) (Or.inl rfl), rfl⟩

/-! ## What the parts of the calls keep -/

/-- A process in its slot, and the state is sound. -/
structure Inside (L : Layout) (p : Nat) (P : Proc) (w : World) : Prop where
  sound : Sound L w.kernel
  here : w.kernel.proc p = some P

/-- The world after the memory of the caller has changed. -/
def World.setImage (w : World) (p : Nat) (P : Proc) (m : Mem) (pt : PageTable) : World :=
  { w with kernel := { w.kernel with mem := m }.setProc p (some { P with pagetable := pt }) }

theorem copyoutTo_spec (h : Inside L p P w) (va : Nat) (src : List UInt8) :
    ∃ r m' pt', copyoutTo L p va src w = .ok (r, w.setImage p P m' pt') ∧
      copyout L va src P.pagetable w.kernel.mem = .ok (r, m', pt') ∧
      CopyOut L va src w.kernel.mem P.pagetable r m' pt' := by
  obtain ⟨r, m', pt', hrun, hc⟩ := copyout_spec (h.sound.held h.here).backed va src
  refine ⟨r, m', pt', ?_, hrun, hc⟩
  rw [copyoutTo, h.here]
  dsimp only
  rw [hrun]
  rfl

theorem Inside.copyOut {va : Nat} (h : Inside L p P w)
    (hc : CopyOut L va src w.kernel.mem P.pagetable r m' pt') :
    Inside L p { P with pagetable := pt' } (w.setImage p P m' pt') :=
  ⟨h.sound.copyOut h.here hc, update_self ..⟩

/-- The children stay as they are. -/
theorem childView_setImage (h : w.kernel.proc p = some P) (q i : Nat) :
    childView (w.setImage p P m pt) q i = childView w q i := by
  show (update w.kernel.proc p _ i).bind _ = (w.kernel.proc i).bind _
  by_cases hi : i = p
  · rw [hi, update_self, h]
    rfl
  · rw [update_of_ne hi]
    rfl

/-- What the caller sees. -/
theorem Inside.visible (h : Inside L p P w) (va : Nat) :
    visible w.kernel p va = (spaceOf w.kernel.mem P.pagetable).load va := by
  rw [Memory.visible, h.here]
  exact userLoad_space (h.sound.held h.here) va

/-- The caller has copied bytes of `src` to its memory, and nothing else. -/
structure Wrote (L : Layout) (p : Nat) (src : List UInt8) (w w' : World) : Prop where
  inside : ∃ P', Inside L p P' w'
  children : ∀ q i, childView w' q i = childView w q i
  bytes : ∀ va, visible w'.kernel p va = visible w.kernel p va ∨
    ∃ b ∈ src, visible w'.kernel p va = some b

theorem Wrote.trans {src' : List UInt8} (h : Wrote L p src w w₁) (h' : Wrote L p src' w₁ w') :
    Wrote L p (src ++ src') w w' where
  inside := h'.inside
  children := fun q i => (h'.children q i).trans (h.children q i)
  bytes := by
    intro va
    cases h'.bytes va with
    | inr hnew =>
      obtain ⟨b, hb, hload⟩ := hnew
      exact Or.inr ⟨b, List.mem_append_right _ hb, hload⟩
    | inl hsame =>
      rw [hsame]
      cases h.bytes va with
      | inl hold => exact Or.inl hold
      | inr hnew =>
        obtain ⟨b, hb, hload⟩ := hnew
        exact Or.inr ⟨b, List.mem_append_left _ hb, hload⟩

theorem Inside.wrote {va : Nat} (h : Inside L p P w)
    (hc : CopyOut L va src w.kernel.mem P.pagetable r m' pt') :
    Wrote L p src w (w.setImage p P m' pt') where
  inside := ⟨_, h.copyOut hc⟩
  children := childView_setImage h.here
  bytes := by
    intro x
    rw [(h.copyOut hc).visible, h.visible]
    exact hc.load (h.sound.held h.here) x

/-- Both times can be copied out. -/
def TimesCopied (L : Layout) (p addr1 addr2 : Nat) (times : UInt32 × UInt32) (w : World) : Prop :=
  ∃ w₁ w₂, copyoutTo L p addr1 (le32 times.1.toNat) w = .ok (true, w₁) ∧
    copyoutTo L p addr2 (le32 times.2.toNat) w₁ = .ok (true, w₂)

/-- The end of `sys_waitx` returns `ret` exactly if both times can be copied
out. -/
theorem copyTimes_spec (h : Inside L p P w) (addr1 addr2 : Nat) (times : UInt32 × UInt32)
    (ret : Int32) :
    ∃ r w', copyTimes L p addr1 addr2 times.1 times.2 ret w = .ok (some r, w') ∧
      Wrote L p (le32 times.1.toNat ++ le32 times.2.toNat) w w' ∧
      (TimesCopied L p addr1 addr2 times w → r = ret) ∧
      (¬TimesCopied L p addr1 addr2 times w → r = -1) := by
  obtain ⟨r1, m1, pt1, hrun1, _, hc1⟩ := copyoutTo_spec h addr1 (le32 times.1.toNat)
  have hin1 := h.copyOut hc1
  obtain ⟨r2, m2, pt2, hrun2, _, hc2⟩ := copyoutTo_spec hin1 addr2 (le32 times.2.toNat)
  have hwrote := (h.wrote hc1).trans (hin1.wrote hc2)
  unfold copyTimes
  rw [hrun1]
  cases r1 with
  | false =>
    have hno : ¬TimesCopied L p addr1 addr2 times w := by
      rintro ⟨w₁, w2, hone, _⟩
      rw [hrun1] at hone
      cases hone
    refine ⟨-1, _, rfl, ⟨⟨_, hin1⟩, childView_setImage h.here, ?_⟩, fun hyes => absurd hyes hno,
      fun _ => rfl⟩
    intro va
    cases (h.wrote hc1).bytes va with
    | inl hsame => exact Or.inl hsame
    | inr hnew =>
      obtain ⟨b, hb, hload⟩ := hnew
      exact Or.inr ⟨b, List.mem_append_left _ hb, hload⟩
  | true =>
    show ∃ r w', (copyoutTo L p addr2 _ (w.setImage p P m1 pt1) >>= _) = _ ∧ _
    rw [hrun2]
    cases r2 with
    | false =>
      have hno : ¬TimesCopied L p addr1 addr2 times w := by
        rintro ⟨w₁, w2, hone, htwo⟩
        rw [hrun1] at hone
        cases hone
        rw [hrun2] at htwo
        cases htwo
      exact ⟨-1, _, rfl, hwrote, fun hyes => absurd hyes hno, fun _ => rfl⟩
    | true =>
      exact ⟨ret, _, rfl, hwrote, fun _ => rfl, fun hno => absurd ⟨_, _, hrun1, hrun2⟩ hno⟩

/-- If the first page of `addr1` can be copied, the first byte is written there,
and it stays if `addr2` gets the same bytes. -/
theorem copyTimes_first {addr1 addr2 : Nat} {times : UInt32 × UInt32} {ret : Int32} {b : UInt8}
    {r : Option Int32} (h : Inside L p P w)
    (hpage : FirstPage addr1 P.pagetable w.kernel.mem)
    (hbytes : ∀ x ∈ le32 times.1.toNat ++ le32 times.2.toNat, x = b)
    (hrun : copyTimes L p addr1 addr2 times.1 times.2 ret w = .ok (r, w')) :
    visible w'.kernel p addr1 = some b := by
  obtain ⟨r1, m1, pt1, hrun1, hcopy, hc1⟩ := copyoutTo_spec h addr1 (le32 times.1.toNat)
  have hin1 := h.copyOut hc1
  obtain ⟨r2, m2, pt2, hrun2, _, hc2⟩ := copyoutTo_spec hin1 addr2 (le32 times.2.toNat)
  have hfirst : visible (w.setImage p P m1 pt1).kernel p addr1 = some b := by
    rw [hin1.visible]
    exact copyout_first (h.sound.held h.here) hcopy (by simp [le32])
      (fun x hx => hbytes x (List.mem_append_left _ hx)) hpage
  have hsecond : visible ((w.setImage p P m1 pt1).setImage p { P with pagetable := pt1 } m2
      pt2).kernel p addr1 = some b := by
    cases (hin1.wrote hc2).bytes addr1 with
    | inl hsame => rw [hsame, hfirst]
    | inr hnew =>
      obtain ⟨x, hx, hload⟩ := hnew
      rw [hload, hbytes x (List.mem_append_right _ hx)]
  unfold copyTimes at hrun
  rw [hrun1] at hrun
  cases r1 with
  | false =>
    cases hrun
    exact hfirst
  | true =>
    change (copyoutTo L p addr2 _ (w.setImage p P m1 pt1) >>= _) = _ at hrun
    rw [hrun2] at hrun
    cases r2 with
    | false | true =>
      cases hrun
      exact hsecond

/-! ## A pass -/

/-- The outcomes of a pass. -/
inductive PassOutcome (c : Caller L) : Pass → World → Prop
  | asleep (hchild : zombieChild c.slot c.world.kernel.proc = none) :
      PassOutcome c .asleep c.world
  | noChild (hchild : zombieChild c.slot c.world.kernel.proc = none) :
      PassOutcome c .fail c.world
  | fault {i : Nat} {w' : World} {src : List UInt8}
      (hchild : zombieChild c.slot c.world.kernel.proc = some i)
      (hw : Wrote L c.slot src c.world w') : PassOutcome c .fail w'
  | reaped {i : Nat} {w' : World} (hchild : zombieChild c.slot c.world.kernel.proc = some i)
      (hin : ∃ P', Inside L c.slot P' w') (hgone : w'.kernel.proc i = none) :
      PassOutcome c (.reaped (c.world.info i).pid) w'

theorem Caller.inside (c : Caller L) : Inside L c.slot c.proc c.world := ⟨c.sound, c.here⟩

theorem waitPass_spec (c : Caller L) (addr : Nat) :
    ∃ pass w', waitPass L c.slot c.proc addr c.world = .ok (pass, w') ∧ PassOutcome c pass w' := by
  unfold waitPass
  cases hchild : zombieChild c.slot c.world.kernel.proc with
  | none =>
    dsimp only
    split
    · exact ⟨_, _, rfl, .asleep hchild⟩
    · exact ⟨_, _, rfl, .noChild hchild⟩
  | some i =>
    obtain ⟨r, k, hrun, ho⟩ := wait_spec c.sound c.here c.running addr
    dsimp only
    rw [hrun]
    show ∃ pass w', (if r = .done then _ else _) = _ ∧ _
    have hne := zombieChild_ne c.here c.running hchild
    have hsound := wait_sound c.sound c.here c.running ho
    cases ho with
    | noChild hnone =>
      rw [hchild] at hnone
      cases hnone
    | @fault j Q m' pt' hj hQ hc =>
      exact ⟨_, _, rfl, .fault hchild (c.inside.wrote hc)⟩
    | @reaped j Q m1 m' pt' hj hQ hc hs =>
      rw [hchild] at hj
      cases hj
      refine ⟨_, _, rfl, .reaped hchild ⟨{ c.proc with pagetable := pt' }, hsound, ?_⟩ ?_⟩
      · show update (update c.world.kernel.proc c.slot _) i none c.slot = _
        rw [update_of_ne (Ne.symm hne), update_self]
      · exact update_self ..

/-- A child that is gone shows. -/
theorem not_noEffect_of_gone {i : Nat} (hchild : zombieChild p w.kernel.proc = some i)
    (hgone : w'.kernel.proc i = none) : ¬NoEffect p w w' := by
  intro h
  have hview := h.children i
  have hany := List.find?_some hchild
  obtain ⟨Q, hQ, hprop⟩ := Option.any_eq_true _ _ |>.mp hany
  have hparent := (of_decide_eq_true hprop).1
  rw [childView, childView, hgone, hQ] at hview
  simp [hparent] at hview

/-- Writing for a child that has exited is no effect. -/
theorem Wrote.noEffect {i : Nat} (h : Wrote L p src w w')
    (hchild : zombieChild p w.kernel.proc = some i) : NoEffect p w w' := by
  refine ⟨h.children p, ?_⟩
  intro hnone
  rw [hchild] at hnone
  cases hnone

/-! ## The calls -/

/-- The condition for `sys_wait`: a child that is reaped does not have the pid
`-1`. -/
def WaitSafe (c : Caller L) (addr : Nat) : Prop :=
  ∀ pid w', waitPass L c.slot c.proc addr c.world = .ok (.reaped pid, w') → pid ≠ -1

/-- The condition for `sys_waitx`.  If it returns `-1` for want of a child,
`addr1` is not in a page that can be written.  If it reaps a child, that does not
have the pid `-1`, and both times can be copied out. -/
structure WaitxSafe (c : Caller L) (addr addr1 addr2 : Nat) : Prop where
  unset : ∀ w', waitPass L c.slot c.proc addr c.world = .ok (.fail, w') →
    zombieChild c.slot c.world.kernel.proc = none →
    ¬FirstPage addr1 c.proc.pagetable c.world.kernel.mem
  reaped : ∀ pid w', waitPass L c.slot c.proc addr c.world = .ok (.reaped pid, w') →
    pid ≠ -1 ∧ TimesCopied L c.slot addr1 addr2 (waitxTimes c.slot 0 0 c.world) w'

theorem sysWait_eq {pass : Pass} (hpass : waitPass L c.slot c.proc addr c.world = .ok (pass, w')) :
    sysWait L c.slot c.proc addr c.world = .ok (pass.answer, w') := by
  rw [sysWait, hpass]
  rfl

theorem sysWaitx_eq {pass : Pass} (addr1 addr2 : Nat) (wtime rTime : UInt32) {ret : Int32}
    (hpass : waitPass L c.slot c.proc addr c.world = .ok (pass, w')) (hret : pass.answer = some ret)
    :
    sysWaitx L c.slot c.proc addr addr1 addr2 wtime rTime c.world =
      copyTimes L c.slot addr1 addr2 (waitxTimes c.slot wtime rTime c.world).1
        (waitxTimes c.slot wtime rTime c.world).2 ret w' := by
  rw [sysWaitx, hpass]
  show (match pass.answer with | none => _ | some ret => _) = _
  rw [hret]

theorem sysWaitx_asleep (addr1 addr2 : Nat) (wtime rTime : UInt32)
    (hpass : waitPass L c.slot c.proc addr c.world = .ok (.asleep, w')) :
    sysWaitx L c.slot c.proc addr addr1 addr2 wtime rTime c.world = .ok (none, w') := by
  rw [sysWaitx, hpass]
  rfl

theorem sysWait_noEffect_iff (c : Caller L) (addr : Nat) :
    (∀ w', sysWait L c.slot c.proc addr c.world = .ok (some (-1), w') →
      NoEffect c.slot c.world w') ↔ WaitSafe c addr := by
  obtain ⟨pass, w₁, hpass, ho⟩ := waitPass_spec c addr
  rw [sysWait_eq hpass, WaitSafe, hpass]
  cases ho with
  | asleep hchild =>
    constructor
    · intro _ pid w' hreap
      cases hreap
    · intro _ w' hret
      cases hret
  | noChild hchild =>
    constructor
    · intro _ pid w' hreap
      cases hreap
    · intro _ w' hret
      cases hret
      exact .refl ..
  | fault hchild hw =>
    constructor
    · intro _ pid w' hreap
      cases hreap
    · intro _ w' hret
      cases hret
      exact hw.noEffect hchild
  | @reaped i _ hchild hin hgone =>
    constructor
    · intro h pid w' hreap hpid
      cases hreap
      exact not_noEffect_of_gone hchild hgone (h w₁ (by rw [hpid]; rfl))
    · intro hsafe w' hret
      have hpid : (c.world.info i).pid = -1 := by
        injection hret with hret
        exact Option.some.inj (congrArg Prod.fst hret)
      exact absurd hpid (hsafe _ w₁ rfl)

/-- A byte that differs from a given one, four times. -/
theorem exists_other_byte (o : Option UInt8) :
    ∃ (x : UInt32) (b : UInt8), (∀ y ∈ le32 x.toNat ++ le32 x.toNat, y = b) ∧ o ≠ some b := by
  have hones : le32 0x01010101 ++ le32 0x01010101 = List.replicate 8 1 := rfl
  have hzeroes : le32 0 ++ le32 0 = List.replicate 8 0 := rfl
  by_cases ho : o = some 0
  · refine ⟨0x01010101, 1, ?_, by rw [ho]; decide⟩
    intro y hy
    exact List.eq_of_mem_replicate (hones ▸ hy)
  · refine ⟨0, 0, ?_, ho⟩
    intro y hy
    exact List.eq_of_mem_replicate (hzeroes ▸ hy)

theorem sysWaitx_noEffect_iff (c : Caller L) (addr addr1 addr2 : Nat) :
    (∀ wtime rTime w',
      sysWaitx L c.slot c.proc addr addr1 addr2 wtime rTime c.world = .ok (some (-1), w') →
      NoEffect c.slot c.world w') ↔ WaitxSafe c addr addr1 addr2 := by
  obtain ⟨pass, w₁, hpass, ho⟩ := waitPass_spec c addr
  cases ho with
  | asleep hchild =>
    constructor
    · intro _
      constructor
      · intro w' hfail
        rw [hpass] at hfail
        cases hfail
      · intro pid w' hreap
        rw [hpass] at hreap
        cases hreap
    · intro _ wtime rTime w' hret
      rw [sysWaitx_asleep addr1 addr2 wtime rTime hpass] at hret
      cases hret
  | noChild hchild =>
    have htimes : ∀ x y, waitxTimes c.slot x y c.world = (x, y) := by
      intro x y
      rw [waitxTimes, hchild]
    constructor
    · intro h
      constructor
      · intro w' _ _ hpage
        -- two values that show at `addr1`
        obtain ⟨x, b, hbytes, hother⟩ := exists_other_byte (visible c.world.kernel c.slot addr1)
        obtain ⟨r, w2, hcopy, _, hyes, hno⟩ :=
          copyTimes_spec c.inside addr1 addr2 (x, x) (-1)
        have hr : r = -1 := by
          by_cases hcopied : TimesCopied L c.slot addr1 addr2 (x, x) c.world
          · exact hyes hcopied
          · exact hno hcopied
        have hfirst := copyTimes_first c.inside hpage hbytes hcopy
        have hsame := (h x x w2 (by
          rw [sysWaitx_eq addr1 addr2 x x hpass rfl, htimes, hcopy, hr])).memory hchild addr1
        rw [hsame] at hfirst
        exact hother hfirst
      · intro pid w' hreap
        rw [hpass] at hreap
        cases hreap
    · intro hsafe wtime rTime w' hret
      have hpage := hsafe.unset _ hpass hchild
      obtain ⟨m', hcopy, hbytes⟩ := copyout_refused (le32 wtime.toNat)
        (c.sound.held c.here) (by simp [le32]) hpage
      obtain ⟨r, m'', pt', hto, hcopy', hc⟩ := copyoutTo_spec c.inside addr1 (le32 wtime.toNat)
      rw [hcopy] at hcopy'
      cases hcopy'
      rw [sysWaitx_eq addr1 addr2 wtime rTime hpass rfl, htimes] at hret
      unfold copyTimes at hret
      rw [hto] at hret
      cases hret
      refine ⟨childView_setImage c.here _, ?_⟩
      intro _ va
      rw [(c.inside.copyOut hc).visible, c.inside.visible]
      exact congrArg (fun s => Space.load s va) (Kept.space (fun v e _ _ => by
        show m'.bytes e.ppn = _
        rw [hbytes]))
  | @fault i _ src hchild hw =>
    constructor
    · intro _
      constructor
      · intro w' _ hnone
        rw [hchild] at hnone
        cases hnone
      · intro pid w' hreap
        rw [hpass] at hreap
        cases hreap
    · intro _ wtime rTime w' hret
      obtain ⟨P', hin⟩ := hw.inside
      obtain ⟨r, w2, hcopy, hwrote, _⟩ := copyTimes_spec hin addr1 addr2
        (waitxTimes c.slot wtime rTime c.world) (-1)
      rw [sysWaitx_eq addr1 addr2 wtime rTime hpass rfl, hcopy] at hret
      cases hret
      exact (hw.trans hwrote).noEffect hchild
  | @reaped i _ hchild hin hgone =>
    obtain ⟨P', hin⟩ := hin
    have htimes : ∀ x y, waitxTimes c.slot x y c.world = waitxTimes c.slot 0 0 c.world := by
      intro x y
      rw [waitxTimes, waitxTimes, hchild]
    obtain ⟨r, w2, hcopy, hwrote, hyes, hno⟩ := copyTimes_spec hin addr1 addr2
      (waitxTimes c.slot 0 0 c.world) (c.world.info i).pid
    have hgone2 : ¬NoEffect c.slot c.world w2 := by
      intro heffect
      refine not_noEffect_of_gone hchild hgone ⟨?_, ?_⟩
      · intro j
        rw [← hwrote.children, heffect.children]
      · intro hnone
        rw [hchild] at hnone
        cases hnone
    have hrun' : ∀ wtime rTime,
        sysWaitx L c.slot c.proc addr addr1 addr2 wtime rTime c.world = .ok (some r, w2) := by
      intro wtime rTime
      rw [sysWaitx_eq addr1 addr2 wtime rTime hpass rfl, htimes]
      exact hcopy
    constructor
    · intro h
      have hr : r ≠ -1 := by
        intro hr
        exact hgone2 (h 0 0 w2 (by rw [hrun', hr]))
      constructor
      · intro w' hfail
        rw [hpass] at hfail
        cases hfail
      · intro pid w' hreap
        rw [hpass] at hreap
        cases hreap
        have hcopied : TimesCopied L c.slot addr1 addr2 (waitxTimes c.slot 0 0 c.world) w₁ := by
          by_contra hfail
          exact hr (hno hfail)
        rw [← hyes hcopied]
        exact ⟨hr, hcopied⟩
    · intro hsafe wtime rTime w' hret
      obtain ⟨hpid, hcopied⟩ := hsafe.reaped _ _ hpass
      rw [hrun'] at hret
      injection hret with hret
      have hr : r = -1 := Option.some.inj (congrArg Prod.fst hret)
      rw [hyes hcopied] at hr
      exact absurd hr hpid

/-- A call that goes to sleep changes nothing. -/
theorem asleep_unchanged (c : Caller L) (addr addr1 addr2 : Nat) (wtime rTime : UInt32) :
    (∀ w', sysWait L c.slot c.proc addr c.world = .ok (none, w') → w' = c.world) ∧
    (∀ w', sysWaitx L c.slot c.proc addr addr1 addr2 wtime rTime c.world = .ok (none, w') →
      w' = c.world) := by
  obtain ⟨pass, w₁, hpass, ho⟩ := waitPass_spec c addr
  rw [sysWait_eq hpass]
  cases hans : pass.answer with
  | none =>
    cases ho with
    | asleep hchild =>
      rw [sysWaitx_asleep addr1 addr2 wtime rTime hpass]
      constructor
      · intro w' hret
        cases hret
        rfl
      · intro w' hret
        cases hret
        rfl
    | _ => cases hans
  | some ret =>
    have hin : ∃ P', Inside L c.slot P' w₁ := by
      cases ho with
      | asleep | noChild => exact ⟨_, c.inside⟩
      | fault _ hw => exact hw.inside
      | reaped _ hin _ => exact hin
    obtain ⟨P', hin⟩ := hin
    obtain ⟨r, w2, hcopy, _⟩ := copyTimes_spec hin addr1 addr2
      (waitxTimes c.slot wtime rTime c.world) ret
    rw [sysWaitx_eq addr1 addr2 wtime rTime hpass hans, hcopy]
    constructor
    · intro w' hret
      cases hret
    · intro w' hret
      cases hret

/-- The first process after some steps, with pids that count the slots. -/
theorem exists_caller (as : List Action) {f : World → Proc → Bool}
    (hrun : observe as (fun k => (k.proc 0).any (fun P =>
      !P.zombie && f ⟨k, fun i => ⟨Int32.ofNat (i + 1), false, 0, 0, 0⟩⟩ P)) = true) :
    ∃ c : Caller smallLayout, c.slot = 0 ∧ f c.world c.proc = true := by
  obtain ⟨k0, k, hboot, hoom, hreach, hk⟩ := exists_of_observe as hrun
  obtain ⟨P, hP, hk⟩ := (Option.any_eq_true _ _).mp hk
  obtain ⟨hzombie, hf⟩ := (Bool.and_eq_true _ _).mp hk
  exact ⟨⟨⟨k, _⟩, reach_sound hboot hoom hreach, 0, P, hP, by simpa using hzombie⟩, rfl, hf⟩

end Xv6.Memory
