import Xv6.Memory.CopyOnWrite

/-!
# Processes leave each other alone

What a process has in memory, and what it has open, is its own.  `Undisturbed k k' q` says
that the process in slot `q` has at most got another parent, and that the pages of its table
have kept their bytes.  Every call of another process leaves it undisturbed, whether it succeeds
or fails, and so does every run of the others: `memory_isolated`.
-/

namespace Xv6.Memory

open Xv6.Lib Function

variable {L : Layout} {k k' k'' : Kernel} {p q : Nat} {P : Proc} {m' : Mem} {r : Reply}

/-- The process in slot `q` is as it was, apart from its parent. -/
def Undisturbed (k k' : Kernel) (q : Nat) : Prop :=
  ∀ Q, k.proc q = some Q →
    ∃ parent, k'.proc q = some { Q with parent := parent } ∧ Kept k.mem k'.mem Q.pagetable

theorem Undisturbed.refl (k : Kernel) (q : Nat) : Undisturbed k k q :=
  fun Q hQ => ⟨Q.parent, hQ, fun _ _ _ _ => rfl⟩

theorem Undisturbed.trans (h : Undisturbed k k' q) (h' : Undisturbed k' k'' q) :
    Undisturbed k k'' q := by
  intro Q hQ
  obtain ⟨parent, hQ', hkept⟩ := h Q hQ
  obtain ⟨parent', hQ'', hkept'⟩ := h' _ hQ'
  exact ⟨parent', hQ'', fun v e hv he => (hkept' v e hv he).trans (hkept v e hv he)⟩

/-- Another slot is stored, and the pages of this one are kept. -/
theorem undisturbed_setProc (hq : q ≠ p) (files' : Files) (P' : Option Proc)
    (hkept : ∀ Q, k.proc q = some Q → Kept k.mem m' Q.pagetable) :
    Undisturbed k ({ k with mem := m', files := files' }.setProc p P') q := by
  intro Q hQ
  refine ⟨Q.parent, ?_, hkept Q hQ⟩
  rw [setProc_proc, update_of_ne hq]
  exact hQ

/-! ## Calls -/

theorem exit_undisturbed {status : UInt32} (h : Sound L k) (hq : q ≠ p)
    (ho : ExitOutcome L p P status k k') : Undisturbed k k' q := by
  cases ho with
  | @zombie fs' m' _ hs _ =>
    intro Q hQ
    refine ⟨if Q.parent = p then 0 else Q.parent, ?_, h.kept_files hs q Q hQ⟩
    rw [setProc_proc, update_of_ne hq]
    show (k.proc q).map _ = _
    rw [hQ, Option.map_some]
    split <;> rfl

section Calls

variable (h : Sound L k) (hp : k.proc p = some P) (hq : q ≠ p)
  (hlive : ∀ Q, k.proc q = some Q → Q.zombie = false)
include h hp hq hlive

theorem wait_undisturbed {addr : Nat} (hz : P.zombie = false)
    (ho : WaitOutcome L p P addr k r k') : Undisturbed k k' q := by
  cases ho with
  | noChild => exact .refl k q
  | fault _ _ hc => exact undisturbed_setProc hq _ _ (fun Q hQ => h.kept hp hc.shift hq hQ)
  | @reaped i Q m1 m' pt' hchild hQ hc hs =>
    -- the child that goes is a zombie, and its pages are not those of `q`
    obtain ⟨_, Z, hZ, hzombie⟩ := zombieChild_some hchild
    have hqi : q ≠ i := by
      rintro rfl
      rw [hlive Z hZ] at hzombie
      cases hzombie
    refine (undisturbed_setProc hq k.files (some { P with pagetable := pt' })
      (fun Q hQ => h.kept hp hc.shift hq hQ)).trans ?_
    refine undisturbed_setProc hqi k.files none (fun Q' hQ' v e hv he => ?_)
    have h1 := h.copyOut hp hc
    have hQ1 : ({ k with mem := m1 }.setProc p (some { P with pagetable := pt' })).proc i =
        some Q := by
      rw [setProc_proc, update_of_ne (zombieChild_ne hp hz hchild)]
      exact hQ
    exact hs.frame (elsewhere_of_le (h1.elsewhere hQ1 q Q' v e hqi hQ' hv he) (Nat.le_add_left _ _))

theorem call_undisturbed {c : Call} (hx : Exclusive k.proc) (hz : P.zombie = false)
    (hc : CallOutcome L p P k c r k') : Undisturbed k k' q := by
  cases hc with
  | fork ho =>
    cases ho with
    | noProc hs _ => exact fun Q hQ => ⟨Q.parent, hQ, h.kept_all hs q Q hQ⟩
    | noTable _ _ _ hs => exact undisturbed_setProc hq _ _ (h.kept_all hs q)
    | @done m' old' new tf slot files' hslot _ hfork _ =>
      refine (undisturbed_setProc hq files' (some { P with pagetable := old' })
        (h.kept_all hfork.shift q)).trans ?_
      intro Q hQ
      refine ⟨Q.parent, ?_, fun _ _ _ _ => rfl⟩
      rw [setProc_proc, update_of_ne]
      · exact hQ
      · rintro rfl
        rw [setProc_proc, update_of_ne hq, (freeSlot_some hslot).2] at hQ
        cases hQ
  | execFail hs => exact fun Q hQ => ⟨Q.parent, hQ, h.kept_all hs q Q hQ⟩
  | exec hx => exact undisturbed_setProc hq _ _ (fun Q hQ => h.kept hp hx.shift hq hQ)
  | sbrk ho => exact undisturbed_setProc hq _ _ (fun Q hQ => h.kept hp ho.shift hq hQ)
  | load => exact .refl k q
  | loadFault _ ho => exact exit_undisturbed h hq ho
  | store ho => exact undisturbed_setProc hq _ _ (fun Q => (store_space h hx hp ho).1 q Q hq)
  | storeFault ho hexit =>
    exact (undisturbed_setProc hq _ _ (fun Q => (store_space h hx hp ho).1 q Q hq)).trans
      (exit_undisturbed (h.store hp ho) hq hexit)
  | copyin => exact .refl k q
  | copyout hc => exact undisturbed_setProc hq _ _ (fun Q hQ => h.kept hp hc.shift hq hQ)
  | files _ hc =>
    refine undisturbed_setProc hq _ _ (fun Q hQ v e hv he => hc.shift.frame ?_)
    refine elsewhere_of_le (h.elsewhere hp q Q v e hq hQ hv he) ?_
    simp only [Pi.add_apply]
    omega
  | exit ho => exact exit_undisturbed h hq ho
  | wait ho => exact wait_undisturbed h hp hq hlive hz ho

end Calls

/-! ## Runs -/

theorem step_undisturbed {a : Action} (h : Sound L k) (hx : Exclusive k.proc)
    (hlive : ∀ Q, k.proc q = some Q → Q.zombie = false) (hq : q ≠ a.slot)
    (ho : StepOutcome L k a r k') : Undisturbed k k' q := by
  cases ho with
  | idle => exact .refl k q
  | call hp hz hc => exact call_undisturbed h hp hq hlive hx hz hc

/-- Take any state that is reachable from boot, a process in it that has not exited, and any
run of the others from there: calls of `fork`, `exec`, `sbrk`, `pipe`, `dup`, `close`, `exit` and
`wait`, loads, stores, `copyin` and `copyout`, successful or not.  Afterwards the process has
the same size, page table, trapframe and open files, and it sees the same byte at every
address. -/
theorem memory_isolated {regions : List Region} {initcode : List UInt8} {bytes : Frame → Page}
    {k₀ k k' : Kernel} {Q : Proc} (hboot : boot L regions initcode bytes = .ok k₀)
    (hoom : k₀.mem.oom = false) (hreach : Reach (next L) (· = k₀) k) (hQ : k.proc q = some Q)
    (hz : Q.zombie = false) (hrun : ReachWhen (fun _ a => q ≠ a.slot) (next L) (· = k) k') :
    ∃ parent, k'.proc q = some { Q with parent := parent } ∧
      ∀ va, visible k' q va = visible k q va := by
  obtain ⟨h, hx⟩ := reach_exclusive hboot hoom hreach
  have hinv : Sound L k' ∧ Exclusive k'.proc ∧ Undisturbed k k' q := by
    refine hrun.invariant (I := fun t => Sound L t ∧ Exclusive t.proc ∧ Undisturbed k t q) ?_ ?_
    · rintro _ rfl
      exact ⟨h, hx, .refl _ q⟩
    · intro t a t' ⟨ht, hxt, hsame⟩ hq hnext
      obtain ⟨r, hstep⟩ := next_eq_some hnext
      have ho := step_outcome ht hstep
      have hlive : ∀ Q', t.proc q = some Q' → Q'.zombie = false := by
        intro Q' hQ'
        obtain ⟨parent, hsome, _⟩ := hsame Q hQ
        rw [hsome] at hQ'
        cases hQ'
        exact hz
      exact ⟨step_sound ht ho, step_exclusive ht hxt ho,
        hsame.trans (step_undisturbed ht hxt hlive hq ho)⟩
  obtain ⟨h', _, hsame⟩ := hinv
  obtain ⟨parent, hQ', hkept⟩ := hsame Q hQ
  refine ⟨parent, hQ', ?_⟩
  intro va
  rw [visible_space h', visible_space h, tasksOf, tasksOf, hQ, hQ']
  show (spaceOf k'.mem Q.pagetable).load va = (spaceOf k.mem Q.pagetable).load va
  rw [hkept.space]

/-- The child of the first process writes to a page that they share, and exits. -/
theorem memory_isolated_child :
    ∃ k₀ k k' Q, boot smallLayout [] [] (fun _ => zeroPage) = .ok k₀ ∧ k₀.mem.oom = false ∧
      Reach (next smallLayout) (· = k₀) k ∧ k.proc 0 = some Q ∧ Q.zombie = false ∧
      ReachWhen (fun _ a => 0 ≠ a.slot) (next smallLayout) (· = k) k' ∧
      ∀ va, visible k' 0 va = visible k 0 va := by
  obtain ⟨k₀, k, hboot, hoom, hreach, hk⟩ := exists_of_observe [⟨0, .fork⟩]
    (f := fun k => (k.proc 0).any (fun Q : Proc => !Q.zombie) &&
      (runWhen (fun _ (a : Action) => 0 ≠ a.slot) (next smallLayout) k
        [⟨1, .store 8 7⟩, ⟨1, .exit 0⟩]).isSome) (by decide +kernel)
  obtain ⟨hproc, hsome⟩ := (Bool.and_eq_true _ _).mp hk
  obtain ⟨Q, hQ, hz⟩ := (Option.any_eq_true _ _).mp hproc
  obtain ⟨k', hk'⟩ := Option.isSome_iff_exists.mp hsome
  have hrun : ReachWhen (fun _ a => 0 ≠ a.slot) (next smallLayout) (· = k) k' :=
    reachWhen_of_runWhen _ (.init rfl) hk'
  have hz' := Bool.not_eq_true' _ ▸ hz
  obtain ⟨_, _, hsame⟩ := memory_isolated hboot hoom hreach hQ hz' hrun
  exact ⟨k₀, k, k', Q, hboot, hoom, hreach, hQ, hz', hrun, hsame⟩

end Xv6.Memory
