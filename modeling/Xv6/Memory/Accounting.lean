import Xv6.Memory.ForkFailure

/-!
# Every reference is accounted for

`Sound` bounds the uses of a page by its references.  Here the two are compared exactly.
`Balanced k k' lost` says that between two states the references have changed as the uses
have, apart from the references in `lost`, which no use is left for.

A step loses nothing, with one exception: a `fork` that runs out of pages in `uvmcopy` loses
one reference.  So the pages that leak in a run are as many as these calls: `pages_accounted`.
-/

namespace Xv6.Memory

open Xv6.Lib Function

variable {L : Layout} {k k' k'' : Kernel} {p : Nat} {P P' : Proc} {m' : Mem} {r : Reply}
  {lost : List Frame} {a : Action}

/-- The references change as the uses do, apart from those that are lost. -/
def Balanced (k k' : Kernel) (lost : List Frame) : Prop :=
  ∀ f, k'.mem.refcnt f + uses k f = k.mem.refcnt f + uses k' f + listed lost f

theorem Balanced.refl (k : Kernel) : Balanced k k [] := by
  intro f
  simp only [listed, List.count_nil, add_zero]

theorem Balanced.trans (h : Balanced k k' []) (h' : Balanced k' k'' []) : Balanced k k'' [] := by
  intro f
  have h1 := h f
  have h2 := h' f
  simp only [listed, List.count_nil] at *
  omega

/-- Only the memory changes. -/
theorem balanced_mem (hs : Shift L k.mem m' 0 0) : Balanced k { k with mem := m' } [] := by
  intro f
  have h1 := hs.balance f
  simp only [uses, listed, List.count_nil, Pi.add_apply, Pi.zero_apply] at *
  omega

/-- The pages of the processes after a store to one slot. -/
theorem procPages_update {t : Nat → Option Proc} {q : Option Proc} (hlt : p < NPROC)
    (hp : t p = q) (q' : Option Proc) (f : Frame) :
    procPages (update t p q') f + pagesOf q f = procPages t f + pagesOf q' f := by
  rw [← hp]
  exact total_update (Finset.mem_range.mpr hlt) q' f

/-! ## Calls on the own pages -/

section Own

variable (h : Sound L k) (hp : k.proc p = some P)
include h hp

theorem Sound.balanced (files' : Files)
    (hs : ∀ f, m'.refcnt f + (pipes k.files + pagesOf (some P)) f =
      k.mem.refcnt f + (pipes files' + pagesOf (some P')) f) :
    Balanced k ({ k with mem := m', files := files' }.setProc p (some P')) [] := by
  intro f
  have h1 := hs f
  have h2 := procPages_update (h.slots p P hp) hp (some P') f
  simp only [uses, Kernel.setProc, listed, List.count_nil, Pi.add_apply] at *
  omega

theorem Sound.balanced_image (htf : P'.trapframe = P.trapframe)
    (hs : ∀ f, m'.refcnt f + owned P.pagetable f = k.mem.refcnt f + owned P'.pagetable f) :
    Balanced k ({ k with mem := m' }.setProc p (some P')) [] := by
  refine h.balanced hp k.files ?_
  intro f
  have h1 := hs f
  simp only [pagesOf, htf, Pi.add_apply]
  omega

theorem Sound.balanced_store {va : Nat} {b : UInt8} {q : Bool} {pt' : PageTable}
    (ho : StoreOutcome L va b k.mem P.pagetable q m' pt') :
    Balanced k ({ k with mem := m' }.setProc p (some { P with pagetable := pt' })) [] := by
  refine h.balanced_image hp rfl ?_
  cases ho with
  | direct hst =>
    obtain ⟨_, _, _, _, _, rfl⟩ := userStore_some hst
    exact fun _ => rfl
  | invalid => exact fun _ => rfl
  | oom => exact fun _ => rfl
  | copied _ _ hr => exact hr.shift_owned.balance

end Own

/-! ## `exit`, `wait` and `fork` -/

theorem exit_balanced {status : UInt32} (h : Sound L k) (hp : k.proc p = some P)
    (ho : ExitOutcome L p P status k k') : Balanced k k' [] := by
  cases ho with
  | @zombie fs' m' _ hs _ =>
    intro f
    have h1 := hs.balance f
    -- neither the exit nor the new parents change what the processes hold
    have h2 := procPages_update (t := reparent p k.proc) (h.slots p P hp) rfl
      (some { P with ofile := fun _ => none, zombie := true, xstate := status }) f
    have h3 : procPages (reparent p k.proc) = procPages k.proc :=
      total_congr (fun i _ => (reparent_shares k.proc i).1)
    rw [(reparent_shares k.proc p).1, hp, h3] at h2
    simp only [uses, Kernel.setProc, listed, List.count_nil, pagesOf, Pi.add_apply] at *
    omega

theorem wait_balanced {addr : Nat} (h : Sound L k) (hp : k.proc p = some P)
    (hz : P.zombie = false) (ho : WaitOutcome L p P addr k r k') : Balanced k k' [] := by
  cases ho with
  | noChild => exact .refl k
  | fault _ _ hc => exact h.balanced_image hp rfl hc.shift.balance
  | @reaped i Q m1 m' pt' hchild hQ hc hs =>
    have hcopy : Balanced k ({ k with mem := m1 }.setProc p (some { P with pagetable := pt' })) [] :=
      h.balanced_image hp rfl hc.shift.balance
    refine hcopy.trans ?_
    have hQ' : update k.proc p (some { P with pagetable := pt' }) i = some Q := by
      rw [update_of_ne (zombieChild_ne hp hz hchild), hQ]
    intro f
    have h1 := hs.balance f
    have h2 := procPages_update (h.slots i Q hQ) hQ' none f
    simp only [uses, Kernel.setProc, listed, List.count_nil, pagesOf, Pi.add_apply,
      Pi.zero_apply] at *
    omega

instance (k : Kernel) (P : Proc) : Decidable (ForkClean k P) := inferInstanceAs (Decidable (_ ∨ _))

/-- A `fork` loses a reference exactly if it runs out of pages in `uvmcopy`. -/
theorem fork_balanced (h : Sound L k) (hp : k.proc p = some P) (ho : ForkOutcome L p P k r k') :
    ∃ lost, lost.length = (!decide (ForkClean k P)).toNat ∧ Balanced k k' lost := by
  cases ho with
  | noProc hs hwhy =>
    have hclean : ForkClean k P := by
      rcases hwhy with hslot | ⟨_, hfew⟩
      · exact Or.inl hslot
      · exact Or.inr (Or.inl hfew)
    exact ⟨[], by rw [decide_eq_true hclean]; rfl, balanced_mem hs⟩
  | @noTable m1 old1 pa slot i hslot hmin hfew hs hparent htables _ =>
    have hdirty : ¬ ForkClean k P := by
      rintro (hnone | hlt | henough)
      · rw [hslot] at hnone
        cases hnone
      · omega
      · omega
    refine ⟨[pa], by rw [decide_eq_false hdirty]; rfl, ?_⟩
    obtain ⟨_, howned⟩ := owned_protected (h.wf p P hp).image hparent htables
    intro f
    have h1 := hs.balance f
    have h2 := procPages_update (h.slots p P hp) hp (some { P with pagetable := old1 }) f
    have h3 : listed [pa] f = one pa f := by
      rw [listed_cons]
      rfl
    simp only [uses, Kernel.setProc, pagesOf, howned, Pi.add_apply, Pi.zero_apply] at *
    omega
  | @done m1 old1 new tf slot files1 hslot henough hfork hdup =>
    refine ⟨[], by rw [decide_eq_true (show ForkClean k P from Or.inr (Or.inr henough))]; rfl, ?_⟩
    obtain ⟨_, howned⟩ := owned_protected (h.wf p P hp).image hfork.parent hfork.tables
    obtain ⟨hlt, hnone⟩ := freeSlot_some hslot
    have hempty : update k.proc p (some { P with pagetable := old1 }) slot = none := by
      rw [update_of_ne (fun heq => by rw [heq, hp] at hnone; cases hnone)]
      exact hnone
    obtain ⟨fs', hrun, _, hpipes⟩ := h.dupFiles hp
    rw [hrun] at hdup
    cases hdup
    intro f
    have h1 := hfork.shift.balance f
    have h2 := procPages_update (h.slots p P hp) hp (some { P with pagetable := old1 }) f
    have h3 := procPages_update hlt hempty (some ⟨new, tf, P.sz, p, P.ofile, false, 0⟩) f
    simp only [uses, Kernel.setProc, pagesOf, hpipes, howned, listed, List.count_nil,
      Pi.add_apply, Pi.zero_apply] at *
    omega

/-! ## Steps and runs -/

/-- The calls that lose a reference. -/
def Call.lossy (k : Kernel) (P : Proc) : Call → Bool
  | .fork => !decide (ForkClean k P)
  | _ => false

/-- The steps that lose a reference. -/
def lossy (k : Kernel) (a : Action) : Bool :=
  (k.proc a.slot).any (fun P => !P.zombie && a.call.lossy k P)

/-- The history counts the references that were lost. -/
def losses (n : Nat) (k : Kernel) (a : Action) (_ : Kernel) : Nat := n + (lossy k a).toNat

theorem call_balanced {c : Call} (h : Sound L k) (hp : k.proc p = some P) (hz : P.zombie = false)
    (hc : CallOutcome L p P k c r k') :
    ∃ lost, lost.length = (c.lossy k P).toNat ∧ Balanced k k' lost := by
  cases hc with
  | fork ho => exact fork_balanced h hp ho
  | execFail hs => exact ⟨[], rfl, balanced_mem hs⟩
  | exec hx => exact ⟨[], rfl, h.balanced_image hp rfl hx.shift.balance⟩
  | sbrk ho => exact ⟨[], rfl, h.balanced_image hp ho.rest.1 ho.shift.balance⟩
  | load => exact ⟨[], rfl, .refl k⟩
  | loadFault _ ho => exact ⟨[], rfl, exit_balanced h hp ho⟩
  | store ho => exact ⟨[], rfl, h.balanced_store hp ho⟩
  | storeFault ho hexit =>
    exact ⟨[], rfl, (h.balanced_store hp ho).trans
      (exit_balanced (h.store hp ho) (update_self _ _ _) hexit)⟩
  | copyin => exact ⟨[], rfl, .refl k⟩
  | copyout hc => exact ⟨[], rfl, h.balanced_image hp rfl hc.shift.balance⟩
  | files hcall hc =>
    refine ⟨[], ?_, h.balanced hp _ ?_⟩
    · cases c <;> first | exact hcall.elim | rfl
    · intro f
      have h1 := hc.shift.balance f
      simp only [pagesOf, hc.trapframe, Pi.add_apply] at *
      omega
  | exit ho => exact ⟨[], rfl, exit_balanced h hp ho⟩
  | wait ho => exact ⟨[], rfl, wait_balanced h hp hz ho⟩

theorem step_balanced (h : Sound L k) (ho : StepOutcome L k a r k') :
    ∃ lost, lost.length = (lossy k a).toNat ∧ Balanced k k' lost := by
  cases ho with
  | idle hidle =>
    refine ⟨[], ?_, .refl k⟩
    unfold lossy
    cases hp : k.proc a.slot with
    | none => rfl
    | some P => simp [hidle P hp]
  | @call P r k' hp hz hc =>
    have hlossy : lossy k a = a.call.lossy k P := by
      rw [lossy, hp]
      simp [hz]
    rw [hlossy]
    exact call_balanced h hp hz hc

theorem boot_balanced {regions : List Region} {initcode : List UInt8} {bytes : Frame → Page}
    (h : boot L regions initcode bytes = .ok k) (hoom : k.mem.oom = false) (f : Frame) :
    k.mem.refcnt f = uses k f := by
  obtain ⟨m0, hrun0, hok, hzero, _⟩ := kinit_spec L bytes
  obtain ⟨m, kstack, m1, kpgtbl, disk, m2, P, m3, hinit, hkvm, hdisk, huser, rfl⟩ := boot_inv h
  rw [hrun0] at hinit
  cases hinit
  have hs12 := (kvmmake_shift hok hkvm).acquire
    (virtioDiskInit_shift ((kvmmake_shift hok hkvm).ok hok) hdisk)
  have hs3 := (userinit_spec (hs12.ok hok) huser hoom).1
  have h1 := (hs12.acquire hs3).balance f
  have h2 := procPages_update (t := fun _ => none) (by decide : 0 < NPROC) rfl (some P) f
  have h3 : procPages (fun _ => none) = 0 := total_zero (fun _ _ => rfl)
  have h4 := hzero f
  rw [h3] at h2
  simp only [uses, pipes_empty, pagesOf, Pi.add_apply, Pi.zero_apply] at *
  omega

/-- In every run from boot the references of a page are its uses and the references that
failed calls of `fork` have lost, one for each.  A page is free exactly if it has no use and
none of them is to it. -/
theorem pages_accounted {regions : List Region} {initcode : List UInt8} {bytes : Frame → Page}
    {k₀ k : Kernel} {n : Nat} (hboot : boot L regions initcode bytes = .ok k₀)
    (hoom : k₀.mem.oom = false)
    (hreach : Reach (instrument (next L) losses) (· = (k₀, 0)) (k, n)) :
    ∃ lost : List Frame, lost.length = n ∧ (∀ f, k.mem.refcnt f = uses k f + listed lost f) ∧
      ∀ f, f ∈ k.mem.freelist ↔ L.Managed f ∧ uses k f = 0 ∧ f ∉ lost := by
  have hinv : Sound L k ∧ ∃ lost : List Frame, lost.length = n ∧
      ∀ f, k.mem.refcnt f = uses k f + listed lost f := by
    refine hreach.invariant (I := fun x => Sound L x.1 ∧ ∃ lost : List Frame, lost.length = x.2 ∧
      ∀ f, x.1.mem.refcnt f = uses x.1 f + listed lost f) ?_ ?_
    · rintro _ rfl
      refine ⟨boot_sound hboot hoom, [], rfl, ?_⟩
      intro f
      rw [boot_balanced hboot hoom f, listed, List.count_nil, add_zero]
    · rintro ⟨k, n⟩ a ⟨k', n'⟩ ⟨h, lost, hlen, hrefs⟩ - hstep
      obtain ⟨hnext, hn⟩ := instrument_eq_some hstep
      obtain ⟨r, hrun⟩ := next_eq_some hnext
      have ho := step_outcome h hrun
      obtain ⟨more, hmore, hbal⟩ := step_balanced h ho
      refine ⟨step_sound h ho, lost ++ more, ?_, ?_⟩
      · rw [List.length_append, hlen, hmore, hn]
        rfl
      · intro f
        have h1 := hrefs f
        have h2 := hbal f
        simp only [listed, List.count_append] at *
        omega
  obtain ⟨h, lost, hlen, hrefs⟩ := hinv
  refine ⟨lost, hlen, hrefs, ?_⟩
  intro f
  rw [h.ok.free_iff f, hrefs f, Nat.add_eq_zero_iff, listed, List.count_eq_zero]

/-- A `fork` that fails with four pages left loses one reference. -/
theorem pages_accounted_tight :
    ∃ k₀ k, boot (tightLayout 4) [] [] (fun _ => zeroPage) = .ok k₀ ∧ k₀.mem.oom = false ∧
      Reach (instrument (next (tightLayout 4)) losses) (· = (k₀, 0)) (k, 1) ∧
      ∃ lost : List Frame, lost.length = 1 ∧ ∀ f, k.mem.refcnt f = uses k f + listed lost f := by
  obtain ⟨k₀, hboot, hoom, hk⟩ := exists_of_boots (L := tightLayout 4) (f := fun k =>
    (instrument (next (tightLayout 4)) losses (k, 0) ⟨0, .fork⟩).any (fun x => x.2 = 1))
    (by decide +kernel)
  obtain ⟨⟨k, n⟩, hstep, hn⟩ := (Option.any_eq_true _ _).mp hk
  obtain rfl : n = 1 := of_decide_eq_true hn
  have hreach : Reach (instrument (next (tightLayout 4)) losses) (· = (k₀, 0)) (k, 1) :=
    .step _ (.init rfl) trivial hstep
  obtain ⟨lost, hlen, hrefs, _⟩ := pages_accounted hboot hoom hreach
  exact ⟨k₀, k, hboot, hoom, hreach, lost, hlen, hrefs⟩

/-! ## Descriptors -/

/-- In every state that the processes reach from boot, the reference count of a file is the
number of descriptors of it.  A file with a descriptor is open.  If it is an end of a pipe, no
other file is that end, the pipe has it open, and its page is not free. -/
theorem descriptors_counted {regions : List Region} {initcode : List UInt8} {bytes : Frame → Page}
    {k₀ : Kernel} (hboot : boot L regions initcode bytes = .ok k₀) (hoom : k₀.mem.oom = false)
    (hreach : Reach (next L) (· = k₀) k) :
    (∀ f, (k.files.file f).ref = procFiles k.proc f) ∧
      ∀ p P fd f, k.proc p = some P → P.ofile fd = some f → 0 < (k.files.file f).ref ∧
        ∀ pi w, (k.files.file f).pipe = some (pi, w) →
          (∀ f', (k.files.file f').pipe = some (pi, w) → f' = f) ∧
          (k.files.pipe pi).isOpen w = true ∧ pi ∉ k.mem.freelist := by
  have h := reach_sound hboot hoom hreach
  refine ⟨h.counts.count, ?_⟩
  intro p P fd f hp hfd
  refine ⟨?_, ?_⟩
  · have hlt : fd < NOFILE := by
      by_contra hge
      rw [(h.wf p P hp).ofile fd (Nat.le_of_not_lt hge)] at hfd
      cases hfd
    have hle : filesOf (k.proc p) f ≤ procFiles k.proc f := le_total (h.mem_range hp) f
    rw [hp] at hle
    rw [h.counts.count f]
    exact (fds_pos hlt hfd).trans hle
  · intro pi w hpipe
    have hopen := h.counts.opened f pi w hpipe
    refine ⟨fun f' hf' => h.counts.unique f' f pi w hf' hpipe, hopen, h.not_free ?_⟩
    simp only [uses, Pi.add_apply, pipes, Pipe.used_of_isOpen hopen, if_true]
    omega

/-- The child of a process with a pipe shares both ends, and closes the first. -/
theorem descriptors_counted_pipe :
    ∃ k₀ k, boot smallLayout [] [] (fun _ => zeroPage) = .ok k₀ ∧ k₀.mem.oom = false ∧
      Reach (next smallLayout) (· = k₀) k ∧ (k.files.file 0).ref = 1 ∧
      (k.files.file 1).ref = 2 ∧ procFiles k.proc 1 = 2 := by
  obtain ⟨k₀, k, hboot, hoom, hreach, hk⟩ := exists_of_observe
    [⟨0, .sbrk 4096⟩, ⟨0, .pipe 4096⟩, ⟨0, .fork⟩, ⟨1, .close 0⟩]
    (f := fun k => decide ((k.files.file 0).ref = 1 ∧ (k.files.file 1).ref = 2))
    (by decide +kernel)
  obtain ⟨hread, hwrite⟩ := of_decide_eq_true hk
  refine ⟨k₀, k, hboot, hoom, hreach, hread, hwrite, ?_⟩
  rw [← (descriptors_counted hboot hoom hreach).1 1, hwrite]

end Xv6.Memory
