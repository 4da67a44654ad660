import Xv6.Memory.Ownership

/-!
# The steps of the machine

`CallOutcome` says what each call of a process can do to a sound state, and
`step_spec` that a step does one of these things or is the `exit` of
`initproc`.  Every invariant of the machine is a case analysis over the
outcomes.  The first of them is soundness itself: `step_sound`.
-/

namespace Xv6.Memory

open Xv6.Lib Function

variable {L : Layout} {k k' : Kernel} {p : Nat} {P P' : Proc} {m' : Mem}

/-! ## `exit` -/

/-- The outcome of `exit`. -/
inductive ExitOutcome (L : Layout) (p : Nat) (P : Proc) (status : UInt32) (k : Kernel) :
    Kernel → Prop
  | zombie {fs' : Files} {m' : Mem} (hinit : p ≠ 0)
      (hs : Shift L k.mem m' (pipes k.files) (pipes fs'))
      (hc : Counts fs' (procFiles (update k.proc p none))) :
      ExitOutcome L p P status k
        ({ k with mem := m', files := fs', proc := reparent p k.proc }.setProc p
          (some { P with ofile := fun _ => none, zombie := true, xstate := status }))

theorem exit_spec (h : Sound L k) (hp : k.proc p = some P) (status : UInt32) :
    (∃ k', exit L p P status k = .ok k' ∧ ExitOutcome L p P status k k') ∨
      exit L p P status k = .error (.msg "init exiting") := by
  unfold exit
  by_cases hinit : p = 0
  · exact Or.inr (if_pos hinit)
  rw [if_neg hinit]
  have hcounts := h.counts
  rw [h.files_eq hp] at hcounts
  obtain ⟨fs', m', hrun, hc, hs⟩ := closeFiles_spec h.ok hcounts h.pipes_le
  exact Or.inl ⟨_, by rw [hrun]; rfl, .zombie hinit hs hc⟩

theorem kill_spec (h : Sound L k) (hp : k.proc p = some P) :
    (∃ k', kill L p P k = .ok (.fail, k') ∧ ExitOutcome L p P 0xFFFFFFFF k k') ∨
      kill L p P k = .error (.msg "init exiting") := by
  unfold kill
  rcases exit_spec h hp 0xFFFFFFFF with ⟨k', hrun, ho⟩ | herr
  · exact Or.inl ⟨k', by rw [hrun]; rfl, ho⟩
  · exact Or.inr (by rw [herr]; rfl)

variable {i : Nat} {r : Reply} {a : Action}

theorem reparent_some {proc : Nat → Option Proc} {Q' : Proc} (h : reparent p proc i = some Q') :
    ∃ Q, proc i = some Q ∧ Q'.pagetable = Q.pagetable ∧ Q'.trapframe = Q.trapframe ∧
      Q'.sz = Q.sz ∧ Q'.ofile = Q.ofile ∧ Q'.zombie = Q.zombie := by
  obtain ⟨Q, hQ, rfl⟩ := Option.map_eq_some_iff.mp h
  refine ⟨Q, hQ, ?_⟩
  split <;> exact ⟨rfl, rfl, rfl, rfl, rfl⟩

theorem reparent_shares (proc : Nat → Option Proc) (i : Nat) :
    pagesOf (reparent p proc i) = pagesOf (proc i) ∧
      filesOf (reparent p proc i) = filesOf (proc i) := by
  unfold reparent
  cases proc i with
  | none => exact ⟨rfl, rfl⟩
  | some Q =>
    rw [Option.map_some]
    split <;> exact ⟨rfl, rfl⟩

theorem exit_sound {status : UInt32} (h : Sound L k) (hp : k.proc p = some P)
    (ho : ExitOutcome L p P status k k') : Sound L k' := by
  cases ho with
  | @zombie fs' m' _ hs hc =>
    have hmem := h.mem_range hp
    have hpages : ∀ f, total (Finset.range NPROC) pagesOf (update (reparent p k.proc) p
        (some { P with ofile := fun _ => none, zombie := true, xstate := status })) f =
        procPages k.proc f := by
      intro f
      have h1 := total_update (g := pagesOf) (t := reparent p k.proc) hmem
        (some { P with ofile := fun _ => none, zombie := true, xstate := status }) f
      have h2 : total (Finset.range NPROC) pagesOf (reparent p k.proc) = procPages k.proc :=
        total_congr (fun i _ => (reparent_shares k.proc i).1)
      rw [(reparent_shares k.proc p).1, hp, h2] at h1
      exact Nat.add_right_cancel h1
    refine h.step_of rfl rfl rfl (hs.ok h.ok) ?_ ?_ ?_ ?_
    · intro f
      have h1 := hs.balance f
      have h2 := hpages f
      simp only [movable, procPages, Kernel.setProc, Pi.add_apply] at *
      omega
    · intro i Q hQ
      simp only [Kernel.setProc, update_apply] at hQ
      split at hQ
      · rename_i hi
        rw [hi]
        exact h.slots p P hp
      · obtain ⟨Q', hQ', _⟩ := reparent_some hQ
        exact h.slots i Q' hQ'
    · intro i Q hQ
      simp only [Kernel.setProc, update_apply] at hQ
      split at hQ
      · cases hQ
        have hwf := h.wf p P hp
        exact ⟨hwf.image, hwf.bound, fun _ _ => rfl, fun _ _ => rfl⟩
      · obtain ⟨Q', hQ', hpt, _, hsz, hof, hzo⟩ := reparent_some hQ
        have hwf := h.wf i Q' hQ'
        exact ⟨by rw [hpt, hsz]; exact hwf.image, by rw [hsz]; exact hwf.bound,
          by rw [hof]; exact hwf.ofile, by rw [hof, hzo]; exact hwf.zombie⟩
    · have hfiles : procFiles (update (reparent p k.proc) p
          (some { P with ofile := fun _ => none, zombie := true, xstate := status })) =
          procFiles (update k.proc p none) := by
        refine total_congr ?_
        intro i _
        by_cases hi : i = p
        · rw [hi, update_self, update_self]
          exact fds_none (fun _ => rfl)
        · rw [update_of_ne hi, update_of_ne hi]
          exact (reparent_shares k.proc i).2
      show Counts fs' (procFiles (update (reparent p k.proc) p _))
      rw [hfiles]
      exact hc

/-! ## `wait` -/

/-- What `wait` copies out. -/
def statusBytes (addr : Nat) (xstate : UInt32) : List UInt8 :=
  if addr = 0 then [] else le32 xstate.toNat

theorem copyStatus_spec {m : Mem} {pt : PageTable} {n : Nat} (h : Held L m pt n) (addr : Nat)
    (xstate : UInt32) :
    ∃ r m' pt', copyStatus L addr xstate pt m = .ok (r, m', pt') ∧
      CopyOut L addr (statusBytes addr xstate) m pt r m' pt' := by
  unfold copyStatus statusBytes
  by_cases haddr : addr = 0
  · rw [if_pos haddr, if_pos haddr]
    exact ⟨true, m, pt, rfl, .done⟩
  · rw [if_neg haddr, if_neg haddr]
    exact copyout_spec h.backed addr _

/-- The outcomes of `wait`. -/
inductive WaitOutcome (L : Layout) (p : Nat) (P : Proc) (addr : Nat) (k : Kernel) :
    Reply → Kernel → Prop
  | noChild (hchild : zombieChild p k.proc = none) : WaitOutcome L p P addr k .fail k
  | fault {i : Nat} {Q : Proc} {m' : Mem} {pt' : PageTable}
      (hchild : zombieChild p k.proc = some i) (hQ : k.proc i = some Q)
      (hc : CopyOut L addr (statusBytes addr Q.xstate) k.mem P.pagetable false m' pt') :
      WaitOutcome L p P addr k .fail
        ({ k with mem := m' }.setProc p (some { P with pagetable := pt' }))
  | reaped {i : Nat} {Q : Proc} {m₁ m' : Mem} {pt' : PageTable}
      (hchild : zombieChild p k.proc = some i) (hQ : k.proc i = some Q)
      (hc : CopyOut L addr (statusBytes addr Q.xstate) k.mem P.pagetable true m₁ pt')
      (hs : Shift L m₁ m' (owned Q.pagetable + one Q.trapframe) 0) :
      WaitOutcome L p P addr k .done
        (({ k with mem := m' }.setProc p (some { P with pagetable := pt' })).setProc i none)

theorem zombieChild_some {proc : Nat → Option Proc} (h : zombieChild p proc = some i) :
    i < NPROC ∧ ∃ Q, proc i = some Q ∧ Q.zombie = true := by
  refine ⟨List.mem_range.mp (List.mem_of_find?_eq_some h), ?_⟩
  have hany := List.find?_some h
  obtain ⟨Q, hQ, hprop⟩ := Option.any_eq_true _ _ |>.mp hany
  exact ⟨Q, hQ, by simpa using (of_decide_eq_true hprop).2⟩

/-- A process that runs is not its own zombie child. -/
theorem zombieChild_ne (hp : k.proc p = some P) (hz : P.zombie = false)
    (hchild : zombieChild p k.proc = some i) : i ≠ p := by
  obtain ⟨_, Q, hQ, hzQ⟩ := zombieChild_some hchild
  intro heq
  rw [heq, hp] at hQ
  cases hQ
  rw [hz] at hzQ
  cases hzQ

/-- The memory of a process after `copyout`. -/
theorem Sound.copyOut {dstva : Nat} {src : List UInt8} {r : Bool} {pt' : PageTable}
    (h : Sound L k) (hp : k.proc p = some P)
    (hc : CopyOut L dstva src k.mem P.pagetable r m' pt') :
    Sound L ({ k with mem := m' }.setProc p (some { P with pagetable := pt' })) := by
  have hheld := hc.held (h.held hp)
  exact h.replace_image hp { P with pagetable := pt' } hc.shift ⟨rfl, rfl, rfl⟩ hheld.image
    hheld.bound

theorem wait_spec (h : Sound L k) (hp : k.proc p = some P) (hz : P.zombie = false) (addr : Nat) :
    ∃ r k', wait L p P addr k = .ok (r, k') ∧ WaitOutcome L p P addr k r k' := by
  unfold wait
  cases hchild : zombieChild p k.proc with
  | none => exact ⟨.fail, k, rfl, .noChild hchild⟩
  | some i =>
    obtain ⟨_, Q, hQ, _⟩ := zombieChild_some hchild
    have hne := zombieChild_ne hp hz hchild
    obtain ⟨r, m1, pt1, hrun, hc⟩ := copyStatus_spec (h.held hp) addr Q.xstate
    dsimp only
    rw [hQ]
    dsimp only
    rw [hrun]
    show ∃ r' k', (if r then _ else _) = _ ∧ _
    cases r with
    | false => exact ⟨.fail, _, rfl, .fault hchild hQ hc⟩
    | true =>
      have h1 := h.copyOut hp hc
      have hQ1 : ({ k with mem := m1 }.setProc p (some { P with pagetable := pt1 })).proc i =
          some Q := by
        rw [setProc_proc, update_of_ne hne]
        exact hQ
      have hwf := h.wf i Q hQ
      obtain ⟨m2, hrun2, hs2, _⟩ := freeproc_spec (m := m1) Q.trapframe Q.sz h1.ok hwf.bound
        hwf.image (by
          intro f
          have hcov : uses _ f ≤ m1.refcnt f := h1.covered f
          have hle := h1.pages_le hQ1 f
          simp only [uses, pagesOf, Pi.add_apply] at *
          omega)
      refine ⟨.done, _, ?_, .reaped hchild hQ hc hs2⟩
      rw [if_pos rfl]
      show (freeproc L Q.trapframe Q.pagetable Q.sz m1 >>= _) = _
      rw [hrun2]
      rfl

/-- A zombie is reaped. -/
theorem reap_sound {Q : Proc} (h : Sound L k) (hi : k.proc i = some Q) (hz : Q.zombie = true)
    (hs : Shift L k.mem m' (owned Q.pagetable + one Q.trapframe) 0) :
    Sound L ({ k with mem := m' }.setProc i none) := by
  have hwf := h.wf i Q hi
  refine h.step_of rfl rfl rfl (hs.ok h.ok) ?_
    (setProc_slots h (h.slots i Q hi) none) (setProc_wf h (fun Q hQ => by cases hQ)) ?_
  · intro f
    have h1 := hs.balance f
    have h2 := total_update (g := pagesOf) (t := k.proc) (h.mem_range hi) none f
    rw [hi] at h2
    simp only [movable, procPages, Kernel.setProc, pagesOf, Pi.add_apply, Pi.zero_apply] at *
    omega
  · have hnone : fds Q.ofile = 0 := fds_none (hwf.zombie hz)
    have heq := h.files_eq hi
    rw [hnone, add_zero] at heq
    show Counts k.files (procFiles (update k.proc i none))
    rw [← heq]
    exact h.counts

theorem wait_sound {addr : Nat} (h : Sound L k) (hp : k.proc p = some P) (hz : P.zombie = false)
    (ho : WaitOutcome L p P addr k r k') : Sound L k' := by
  cases ho with
  | noChild => exact h
  | fault _ _ hc => exact h.copyOut hp hc
  | @reaped i Q m1 m' pt' hchild hQ hc hs =>
    obtain ⟨_, Q', hQ', hzQ⟩ := zombieChild_some hchild
    rw [hQ] at hQ'
    cases hQ'
    refine reap_sound (h.copyOut hp hc) ?_ hzQ hs
    rw [setProc_proc, update_of_ne (zombieChild_ne hp hz hchild)]
    exact hQ

/-! ## `fork` -/

/-- A parent that has lost `PTE_W` holds the same pages. -/
theorem owned_protected {old old' : PageTable} {n : Nat} (h : Image old n)
    (hl : Protected old old' i) (ht : tables old' = tables old) :
    Image old' n ∧ owned old' = owned old := by
  obtain ⟨himg, hleaves⟩ := image_protect h hl
  exact ⟨himg, by rw [owned, ht, hleaves]; rfl⟩

theorem fork_sound (h : Sound L k) (hp : k.proc p = some P) (ho : ForkOutcome L p P k r k') :
    Sound L k' := by
  have hwf := h.wf p P hp
  have hmem := h.mem_range hp
  cases ho with
  | noProc hs _ =>
    refine h.step_of rfl rfl rfl (hs.ok h.ok) ?_ h.slots h.wf h.counts
    intro f
    have h1 := hs.balance f
    simp only [movable, Pi.add_apply, Pi.zero_apply] at *
    omega
  | @noTable m1 old1 pa slot i _ _ _ hs hparent htables _ =>
    obtain ⟨himg, howned⟩ := owned_protected hwf.image hparent htables
    -- the parent holds what it held, and the reference to `pa` is lost
    have hkeep : Sound L { k with mem := m1 } := by
      refine h.step_of rfl rfl rfl (hs.ok h.ok) ?_ h.slots h.wf h.counts
      intro f
      have h1 := hs.balance f
      simp only [movable, Pi.add_apply, Pi.zero_apply] at *
      omega
    refine hkeep.replace_image hp { P with pagetable := old1 } ?_ ⟨rfl, rfl, rfl⟩ himg
      hwf.bound
    rw [howned]
    exact Shift.refl L _ _
  | @done m1 old1 new tf slot files1 hslot _ hfork hdup =>
    obtain ⟨himg, howned⟩ := owned_protected hwf.image hfork.parent hfork.tables
    obtain ⟨hlt, hnone⟩ := freeSlot_some hslot
    have hne : slot ≠ p := by
      intro heq
      rw [heq, hp] at hnone
      cases hnone
    have hempty : update k.proc p (some { P with pagetable := old1 }) slot = none := by
      rw [update_of_ne hne]
      exact hnone
    have hmem' := Finset.mem_range.mpr hlt
    obtain ⟨fs', hrun, hc, hp'⟩ := h.dupFiles hp
    rw [hrun] at hdup
    cases hdup
    refine h.step_of rfl rfl rfl (hfork.shift.ok h.ok) ?_ ?_ ?_ ?_
    · intro f
      have h1 := hfork.shift.balance f
      have h2 := total_update (g := pagesOf) (t := k.proc) hmem
        (some { P with pagetable := old1 }) f
      have h3 := total_update (g := pagesOf)
        (t := update k.proc p (some { P with pagetable := old1 })) hmem'
        (some ⟨new, tf, P.sz, p, P.ofile, false, 0⟩) f
      rw [hempty] at h3
      rw [hp] at h2
      simp only [movable, procPages, Kernel.setProc, pagesOf, hp', howned, Pi.add_apply,
        Pi.zero_apply] at *
      omega
    · intro i Q hQ
      simp only [setProc_proc, update_apply] at hQ
      split at hQ
      · rename_i hi
        rw [hi]
        exact hlt
      · split at hQ
        · rename_i hi
          rw [hi]
          exact h.slots p P hp
        · exact h.slots i Q hQ
    · intro i Q hQ
      simp only [setProc_proc, update_apply] at hQ
      split at hQ
      · cases hQ
        exact ⟨hfork.image, hwf.bound, hwf.ofile, fun hc => by cases hc⟩
      · split at hQ
        · cases hQ
          exact ⟨himg, hwf.bound, hwf.ofile, hwf.zombie⟩
        · exact h.wf i Q hQ
    · have hfiles : procFiles (update (update k.proc p
          (some { P with pagetable := old1 })) slot
            (some ⟨new, tf, P.sz, p, P.ofile, false, 0⟩)) = procFiles k.proc + fds P.ofile := by
        have h1 := procFiles_update (update k.proc p
          (some { P with pagetable := old1 })) hmem' (some ⟨new, tf, P.sz, p, P.ofile, false, 0⟩)
        have h2 := procFiles_update k.proc hmem (some { P with pagetable := old1 })
        have h3 := h.files_eq hp
        rw [← hempty, update_eq_self, h2] at h1
        rw [h1, h3]
        rfl
      rw [setProc_proc, setProc_proc, hfiles]
      exact hc

/-! ## Calls -/

/-- The outcomes of a call of the process `P` in slot `p`. -/
inductive CallOutcome (L : Layout) (p : Nat) (P : Proc) (k : Kernel) :
    Call → Reply → Kernel → Prop
  | fork {r : Reply} {k' : Kernel} (ho : ForkOutcome L p P k r k') :
      CallOutcome L p P k .fork r k'
  | execFail {headers : Option (List (Option Proghdr))} {args : List Arg} {m' : Mem}
      (hs : Shift L k.mem m' 0 0) :
      CallOutcome L p P k (.exec headers args) .fail { k with mem := m' }
  | exec {headers : Option (List (Option Proghdr))} {args : List Arg} {m' : Mem} {sz : Nat}
      {pt : PageTable} (hx : Execed L k.mem P.pagetable sz pt m') :
      CallOutcome L p P k (.exec headers args) .done
        ({ k with mem := m' }.setProc p (some { P with pagetable := pt, sz := sz }))
  | sbrk {n : Int32} {r : Bool} {P' : Proc} {m' : Mem}
      (ho : GrowOutcome L n.toInt P k.mem r P' m') :
      CallOutcome L p P k (.sbrk n) (if r then .done else .fail)
        ({ k with mem := m' }.setProc p (some P'))
  | load {va : Nat} {b : UInt8} (h : userLoad P.pagetable va k.mem = some b) :
      CallOutcome L p P k (.load va) (.data [b]) k
  | loadFault {va : Nat} {k' : Kernel} (h : userLoad P.pagetable va k.mem = none)
      (ho : ExitOutcome L p P 0xFFFFFFFF k k') : CallOutcome L p P k (.load va) .fail k'
  | store {va : Nat} {b : UInt8} {m' : Mem} {pt' : PageTable}
      (ho : StoreOutcome L va b k.mem P.pagetable true m' pt') :
      CallOutcome L p P k (.store va b) .done
        ({ k with mem := m' }.setProc p (some { P with pagetable := pt' }))
  | storeFault {va : Nat} {b : UInt8} {m' : Mem} {pt' : PageTable} {k' : Kernel}
      (ho : StoreOutcome L va b k.mem P.pagetable false m' pt')
      (hexit : ExitOutcome L p { P with pagetable := pt' } 0xFFFFFFFF
        ({ k with mem := m' }.setProc p (some { P with pagetable := pt' })) k') :
      CallOutcome L p P k (.store va b) .fail k'
  | copyin {va len : Nat} {r : Option (List UInt8)}
      (h : Memory.copyin P.pagetable va len k.mem = .ok r) :
      CallOutcome L p P k (.copyin va len) (r.elim .fail .data) k
  | copyout {va : Nat} {src : List UInt8} {r : Bool} {m' : Mem} {pt' : PageTable}
      (hc : CopyOut L va src k.mem P.pagetable r m' pt') :
      CallOutcome L p P k (.copyout va src) (if r then .done else .fail)
        ({ k with mem := m' }.setProc p (some { P with pagetable := pt' }))
  | files {c : Call} {r : Reply} {P' : Proc} {files' : Files} {m' : Mem}
      (hcall : match c with
        | .pipe _ | .openFile | .dup _ | .close _ => True
        | _ => False)
      (hc : FileCall L P k.files k.mem (procFiles (update k.proc p none)) P' files' m') :
      CallOutcome L p P k c r ({ k with mem := m', files := files' }.setProc p (some P'))
  | exit {status : UInt32} {k' : Kernel} (ho : ExitOutcome L p P status k k') :
      CallOutcome L p P k (.exit status) .done k'
  | wait {addr : Nat} {r : Reply} {k' : Kernel} (ho : WaitOutcome L p P addr k r k') :
      CallOutcome L p P k (.wait addr) r k'

/-- The memory of a process after a store or its fault. -/
theorem Sound.store {va : Nat} {b : UInt8} {r : Bool} {pt' : PageTable} (h : Sound L k)
    (hp : k.proc p = some P) (ho : StoreOutcome L va b k.mem P.pagetable r m' pt') :
    Sound L ({ k with mem := m' }.setProc p (some { P with pagetable := pt' })) := by
  have hheld := h.held hp
  cases ho with
  | direct hst =>
    obtain ⟨e, _, _, _, _, rfl⟩ := userStore_some hst
    have hwrite : ∀ page, Sound L { k with mem := k.mem.write e.ppn page } := fun page =>
      h.step_of rfl rfl rfl ⟨h.ok.nodup, h.ok.free_iff, h.ok.unmanaged⟩
        (fun _ => Nat.le_refl _) h.slots h.wf h.counts
    exact (hwrite _).replace_image hp P (Shift.refl L _ _) ⟨rfl, rfl, rfl⟩ hheld.image hheld.bound
  | invalid =>
    exact h.replace_image hp P (Shift.refl L _ _) ⟨rfl, rfl, rfl⟩ hheld.image hheld.bound
  | oom =>
    exact h.replace_image hp P (shift_oom L _ _) ⟨rfl, rfl, rfl⟩ hheld.image hheld.bound
  | copied _ _ hr =>
    have hheld' := hr.held hheld
    exact h.replace_image hp { P with pagetable := pt' } hr.shift_owned ⟨rfl, rfl, rfl⟩
      hheld'.image hheld'.bound

theorem call_spec (h : Sound L k) (hp : k.proc p = some P) (hz : P.zombie = false) (c : Call) :
    (∃ r k', call L p P k c = .ok (r, k') ∧ CallOutcome L p P k c r k') ∨
      call L p P k c = .error (.msg "init exiting") := by
  have hheld := h.held hp
  cases c with
  | fork =>
    obtain ⟨fs', hdup, _⟩ := h.dupFiles hp
    obtain ⟨r, k', hrun, ho⟩ := fork_spec (p := p) hheld hdup
    exact Or.inl ⟨r, k', hrun, .fork ho⟩
  | exec headers args =>
    obtain ⟨r, m', hrun, hcase⟩ := sysExec_spec P.trapframe headers args hheld
    rw [call, hrun]
    rcases hcase with ⟨rfl, hs⟩ | ⟨sz, pt, rfl, hx⟩
    · exact Or.inl ⟨.fail, _, rfl, .execFail hs⟩
    · exact Or.inl ⟨.done, _, rfl, .exec hx⟩
  | sbrk n =>
    obtain ⟨r, P', m', hrun, ho⟩ := growproc_spec (n := n.toInt) hheld n.toInt_lt
    exact Or.inl ⟨_, _, by rw [call, hrun]; rfl, .sbrk ho⟩
  | load va =>
    rw [call]
    cases hload : userLoad P.pagetable va k.mem with
    | some b => exact Or.inl ⟨_, k, rfl, .load hload⟩
    | none =>
      rcases kill_spec h hp with ⟨k', hrun, ho⟩ | herr
      · exact Or.inl ⟨.fail, k', hrun, .loadFault hload ho⟩
      · exact Or.inr herr
  | store va b =>
    obtain ⟨r, m', pt', hrun, ho⟩ := faultStore_spec hheld va b
    rw [call, hrun]
    cases r with
    | true => exact Or.inl ⟨.done, _, rfl, .store ho⟩
    | false =>
      rcases kill_spec (h.store hp ho) (update_self _ _ _) with ⟨k', hrun', hexit⟩ | herr
      · exact Or.inl ⟨.fail, k', hrun', .storeFault ho hexit⟩
      · exact Or.inr herr
  | copyin va len =>
    obtain ⟨r, hrun⟩ := copyin_returns P.pagetable va len k.mem
    rw [call, hrun]
    cases r with
    | some bytes => exact Or.inl ⟨_, k, rfl, .copyin hrun⟩
    | none => exact Or.inl ⟨_, k, rfl, .copyin hrun⟩
  | copyout va src =>
    obtain ⟨r, m', pt', hrun, hc⟩ := copyout_spec hheld.backed va src
    exact Or.inl ⟨_, _, by rw [call, hrun]; rfl, .copyout hc⟩
  | pipe fdarray =>
    obtain ⟨r, P', fs', m', hrun, hc⟩ := sysPipe_spec (h.filed hp) fdarray
    exact Or.inl ⟨r, _, by rw [call, hrun]; rfl, .files trivial hc⟩
  | openFile =>
    obtain ⟨r, P', fs', m', hrun, hc⟩ := openFile_spec (h.filed hp)
    exact Or.inl ⟨r, _, by rw [call, hrun]; rfl, .files trivial hc⟩
  | dup fd =>
    obtain ⟨r, P', fs', hrun, hc⟩ := sysDup_spec (h.filed hp) fd
    exact Or.inl ⟨r, _, by rw [call, hrun]; rfl, .files trivial hc⟩
  | close fd =>
    obtain ⟨r, P', fs', m', hrun, hc⟩ := sysClose_spec (h.filed hp) fd
    exact Or.inl ⟨r, _, by rw [call, hrun]; rfl, .files trivial hc⟩
  | exit status =>
    rw [call]
    rcases exit_spec h hp status with ⟨k', hrun, ho⟩ | herr
    · exact Or.inl ⟨.done, k', by rw [hrun]; rfl, .exit ho⟩
    · exact Or.inr (by rw [herr]; rfl)
  | wait addr =>
    obtain ⟨r, k', hrun, ho⟩ := wait_spec h hp hz addr
    exact Or.inl ⟨r, k', hrun, .wait ho⟩

theorem call_sound {c : Call} (h : Sound L k) (hp : k.proc p = some P) (hz : P.zombie = false)
    (hc : CallOutcome L p P k c r k') : Sound L k' := by
  have hheld := h.held hp
  cases hc with
  | fork ho => exact fork_sound h hp ho
  | execFail hs =>
    refine h.step_of rfl rfl rfl (hs.ok h.ok) ?_ h.slots h.wf h.counts
    intro f
    have h1 := hs.balance f
    simp only [movable, Pi.add_apply, Pi.zero_apply] at *
    omega
  | exec hx => exact h.replace_image hp _ hx.shift ⟨rfl, rfl, rfl⟩ hx.image hx.bound
  | sbrk ho =>
    have hheld' := ho.held hheld
    exact h.replace_image hp _ ho.shift ho.rest hheld'.image hheld'.bound
  | load => exact h
  | loadFault _ ho => exact exit_sound h hp ho
  | store ho => exact h.store hp ho
  | storeFault ho hexit => exact exit_sound (h.store hp ho) (update_self _ _ _) hexit
  | copyin => exact h
  | copyout hc => exact h.copyOut hp hc
  | files _ hc => exact h.fileCall hp hz hc
  | exit ho => exact exit_sound h hp ho
  | wait ho => exact wait_sound h hp hz ho

/-! ## Steps -/

/-- The outcomes of a step. -/
inductive StepOutcome (L : Layout) (k : Kernel) (a : Action) : Reply → Kernel → Prop
  | idle (h : ∀ P, k.proc a.slot = some P → P.zombie = true) : StepOutcome L k a .fail k
  | call {P : Proc} {r : Reply} {k' : Kernel} (hp : k.proc a.slot = some P)
      (hz : P.zombie = false) (hc : CallOutcome L a.slot P k a.call r k') :
      StepOutcome L k a r k'

theorem step_spec (h : Sound L k) (a : Action) :
    (∃ r k', step L k a = .ok (r, k') ∧ StepOutcome L k a r k') ∨
      step L k a = .error (.msg "init exiting") := by
  unfold step
  cases hp : k.proc a.slot with
  | none =>
    refine Or.inl ⟨.fail, k, rfl, .idle ?_⟩
    intro P hP
    rw [hp] at hP
    cases hP
  | some P =>
    dsimp only
    by_cases hz : P.zombie = true
    · refine Or.inl ⟨.fail, k, if_pos hz, .idle ?_⟩
      intro P' hP'
      rw [hp] at hP'
      cases hP'
      exact hz
    · rw [if_neg hz]
      have hz' := Bool.eq_false_iff.mpr hz
      rcases call_spec h hp hz' a.call with ⟨r, k', hrun, hc⟩ | herr
      · exact Or.inl ⟨r, k', hrun, .call hp hz' hc⟩
      · exact Or.inr herr

/-- A step that returns has one of the outcomes. -/
theorem step_outcome (h : Sound L k) (hrun : step L k a = .ok (r, k')) :
    StepOutcome L k a r k' := by
  rcases step_spec h a with ⟨r1, k1, hrun1, ho⟩ | herr
  · rw [hrun1] at hrun
    cases hrun
    exact ho
  · rw [herr] at hrun
    cases hrun

theorem step_sound (h : Sound L k) (ho : StepOutcome L k a r k') : Sound L k' := by
  cases ho with
  | idle => exact h
  | call hp hz hc => exact call_sound h hp hz hc

theorem next_eq_some (h : next L k a = some k') : ∃ r, step L k a = .ok (r, k') := by
  unfold next at h
  cases hrun : step L k a with
  | error err =>
    rw [hrun] at h
    cases h
  | ok q =>
    rw [hrun] at h
    cases h
    exact ⟨q.1, rfl⟩

theorem next_sound (h : Sound L k) (hnext : next L k a = some k') : Sound L k' := by
  obtain ⟨r, hrun⟩ := next_eq_some hnext
  exact step_sound h (step_outcome h hrun)

end Xv6.Memory
