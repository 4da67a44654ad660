import Xv6.Memory.Boot

/-!
# A writable page has one entry

`Exclusive` is the invariant that copy-on-write rests on: a user page that
some entry maps with `PTE_W` is mapped by no other entry of any process.
`fork` clears `PTE_W` in both tables, and a page that gets it back is one
that `cowHandler` has just allocated.

The invariant holds in every state that is reachable from boot, whatever the
processes call: `reach_exclusive`.
-/

namespace Xv6.Memory

open Xv6.Lib Function

variable {L : Layout} {k k' : Kernel} {p : Nat} {P : Proc} {m' : Mem}
  {proc proc' : Nat → Option Proc}

/-- The page of an entry with `PTE_W` has no other entry. -/
def Exclusive (proc : Nat → Option Proc) : Prop :=
  ∀ p q P Q v w e e', proc p = some P → proc q = some Q → v < TRAPFRAME → w < TRAPFRAME →
    P.pagetable.leaf v = some e → e.flags.w = true → Q.pagetable.leaf w = some e' →
    e'.ppn = e.ppn → p = q ∧ v = w

/-! ## How the process table changes -/

/-- The page tables stay, or go away. -/
theorem Exclusive.of_pagetables (h : Exclusive proc)
    (hsame : ∀ i Q', proc' i = some Q' → ∃ Q, proc i = some Q ∧ Q'.pagetable = Q.pagetable) :
    Exclusive proc' := by
  intro i j P' Q' v w e e' hi hj hv hw he hwe he' heq
  obtain ⟨P, hP, hPt⟩ := hsame i P' hi
  obtain ⟨Q, hQ, hQt⟩ := hsame j Q' hj
  rw [hPt] at he
  rw [hQt] at he'
  exact h i j P Q v w e e' hP hQ hv hw he hwe he' heq

/-- One process gets another table.  Its entries for the pages of others are
old ones. -/
theorem Exclusive.replace (h : Exclusive proc) (hp : proc p = some P) (P' : Proc)
    {others : Frame → Prop}
    (hothers : ∀ q Q w e, q ≠ p → proc q = some Q → w < TRAPFRAME →
      Q.pagetable.leaf w = some e → others e.ppn)
    (hr : Renewed others P.pagetable P'.pagetable) {n : Nat} (himg : Image P'.pagetable n) :
    Exclusive (update proc p (some P')) := by
  intro i j Pi Pj v w e e' hi hj hv hw he hwe he' heq
  rw [update_apply] at hi hj
  by_cases hip : i = p
  · rw [if_pos hip] at hi
    cases hi
    by_cases hjp : j = p
    · rw [if_pos hjp] at hj
      cases hj
      exact ⟨hip.trans hjp.symm, himg.distinct v w e e' hv hw he he' heq.symm⟩
    · rw [if_neg hjp] at hj
      have ho := hothers j Pj w e' hjp hj hw he'
      rw [heq] at ho
      obtain ⟨e0, he0, hp0, hw0⟩ := hr v e hv he ho
      exact absurd (h p j P Pj v w e0 e' hp hj hv hw he0 (hw0 hwe) he' (heq.trans hp0.symm)).1
        (Ne.symm hjp)
  · rw [if_neg hip] at hi
    by_cases hjp : j = p
    · rw [if_pos hjp] at hj
      cases hj
      have ho := hothers i Pi v e hip hi hv he
      rw [← heq] at ho
      obtain ⟨e0, he0, hp0, _⟩ := hr w e' hw he' ho
      exact absurd (h i p Pi P v w e e0 hi hp hv hw he hwe he0 (hp0.trans heq)).1 hip
    · rw [if_neg hjp] at hj
      exact h i j Pi Pj v w e e' hi hj hv hw he hwe he' heq

/-- A process appears that shares all its pages with `P`, and none of them
has `PTE_W`. -/
theorem Exclusive.insert (h : Exclusive proc) (hp : proc p = some P) (slot : Nat) (C : Proc)
    (hchild : ∀ v e, v < TRAPFRAME → C.pagetable.leaf v = some e → e.flags.w = false ∧
      ∃ e0, P.pagetable.leaf v = some e0 ∧ e0.ppn = e.ppn ∧ e0.flags.w = false) :
    Exclusive (update proc slot (some C)) := by
  intro i j Pi Pj v w e e' hi hj hv hw he hwe he' heq
  rw [update_apply] at hi hj
  split at hi
  · cases hi
    rw [(hchild v e hv he).1] at hwe
    cases hwe
  · split at hj
    · cases hj
      obtain ⟨_, e0, he0, hp0, hw0⟩ := hchild w e' hw he'
      obtain ⟨rfl, rfl⟩ := h i p Pi P v w e e0 hi hp hv hw he hwe he0 (hp0.trans heq)
      rw [hp] at hi
      cases hi
      rw [he] at he0
      cases he0
      rw [hwe] at hw0
      cases hw0
    · exact h i j Pi Pj v w e e' hi hj hv hw he hwe he' heq

/-! ## Every call keeps it -/

/-- A page of another process is counted apart from those of `P` and of the
pipes. -/
theorem Sound.elsewhere (h : Sound L k) (hp : k.proc p = some P) :
    ∀ q Q w e, q ≠ p → k.proc q = some Q → w < TRAPFRAME → Q.pagetable.leaf w = some e →
      Elsewhere k.mem (pipes k.files + (owned P.pagetable + one P.trapframe)) e.ppn := by
  intro q Q w e hne hQ hw he
  have h1 := h.covered e.ppn
  have h2 := le_total_pair (g := pagesOf) (t := k.proc) (h.mem_range hp) (h.mem_range hQ) hne e.ppn
  have h3 := leaves_pos hw he
  rw [hp, hQ] at h2
  simp only [uses, procPages, pagesOf, owned, Elsewhere, Pi.add_apply] at *
  omega

theorem Sound.elsewhere_image (h : Sound L k) (hp : k.proc p = some P) :
    ∀ q Q w e, q ≠ p → k.proc q = some Q → w < TRAPFRAME → Q.pagetable.leaf w = some e →
      Elsewhere k.mem (owned P.pagetable) e.ppn := by
  intro q Q w e hne hQ hw he
  refine elsewhere_of_le (h.elsewhere hp q Q w e hne hQ hw he) ?_
  simp only [Pi.add_apply]
  omega

theorem exit_exclusive {status : UInt32} (hx : Exclusive k.proc) (hp : k.proc p = some P)
    (ho : ExitOutcome L p P status k k') : Exclusive k'.proc := by
  cases ho with
  | zombie =>
    refine hx.of_pagetables ?_
    intro i Q' hQ'
    simp only [setProc_proc, update_apply] at hQ'
    split at hQ'
    · rename_i hi
      cases hQ'
      exact ⟨P, hi ▸ hp, rfl⟩
    · obtain ⟨Q, hQ, hpt, _⟩ := reparent_some hQ'
      exact ⟨Q, hQ, hpt⟩

section Calls

variable (h : Sound L k) (hx : Exclusive k.proc) (hp : k.proc p = some P)
include h hx hp

theorem fork_exclusive {r : Reply} (ho : ForkOutcome L p P k r k') : Exclusive k'.proc := by
  have hwf := h.wf p P hp
  cases ho with
  | noProc => exact hx
  | noTable _ _ _ _ hparent htables =>
    exact hx.replace hp _ (h.elsewhere_image hp) (hparent.renewed _)
      (owned_protected hwf.image hparent htables).1
  | @done m1 old' new tf slot files' hslot _ hfork _ =>
    have hparent := hx.replace hp { P with pagetable := old' } (h.elsewhere_image hp)
      (hfork.parent.renewed _) (owned_protected hwf.image hfork.parent hfork.tables).1
    refine hparent.insert (update_self _ _ _) slot _ ?_
    intro v e hv he
    rw [hfork.child v hv] at he
    obtain ⟨e0, he0, rfl⟩ := Option.map_eq_some_iff.mp he
    have hlt : v < pages P.sz := (hwf.image.mapped v hv).mp (by rw [he0]; rfl)
    refine ⟨rfl, e0.protect, ?_, rfl, rfl⟩
    show old'.leaf v = _
    rw [hfork.parent v, if_pos hlt, he0]
    rfl

theorem store_exclusive {va : Nat} {b : UInt8} {r : Bool} {pt' : PageTable}
    (ho : StoreOutcome L va b k.mem P.pagetable r m' pt') :
    Exclusive (update k.proc p (some { P with pagetable := pt' })) := by
  have hheld := h.held hp
  cases ho with
  | direct => exact hx.replace hp _ (h.elsewhere_image hp) (.of_leaf rfl) hheld.image
  | invalid => exact hx.replace hp _ (h.elsewhere_image hp) (.of_leaf rfl) hheld.image
  | oom => exact hx.replace hp _ (h.elsewhere_image hp) (.of_leaf rfl) hheld.image
  | copied _ _ hr =>
    exact hx.replace hp _ (h.elsewhere_image hp) (hr.renewed _) (hr.held hheld).image

theorem copyOut_exclusive {dstva : Nat} {src : List UInt8} {r : Bool} {pt' : PageTable}
    (hc : CopyOut L dstva src k.mem P.pagetable r m' pt') :
    Exclusive (update k.proc p (some { P with pagetable := pt' })) :=
  hx.replace hp _ (h.elsewhere_image hp) hc.renewed (hc.held (h.held hp)).image

theorem wait_exclusive {r : Reply} {addr : Nat} (ho : WaitOutcome L p P addr k r k') :
    Exclusive k'.proc := by
  cases ho with
  | noChild => exact hx
  | fault _ _ hc => exact copyOut_exclusive (k := k) h hx hp hc
  | reaped _ _ hc =>
    refine (copyOut_exclusive h hx hp hc).of_pagetables ?_
    intro i Q' hQ'
    rw [setProc_proc, update_apply] at hQ'
    split at hQ'
    · cases hQ'
    · exact ⟨Q', hQ', rfl⟩

theorem call_exclusive {c : Call} {r : Reply} (hc : CallOutcome L p P k c r k') :
    Exclusive k'.proc := by
  cases hc with
  | fork ho => exact fork_exclusive h hx hp ho
  | execFail => exact hx
  | exec he =>
    refine hx.replace hp _ (h.elsewhere_image hp) ?_ he.image
    intro v e hv hleaf ho
    exact absurd ho (not_elsewhere (he.fresh v e hv hleaf))
  | sbrk ho => exact hx.replace hp _ (h.elsewhere_image hp) (ho.renewed _) (ho.held (h.held hp)).image
  | load => exact hx
  | loadFault _ ho => exact exit_exclusive hx hp ho
  | store ho => exact store_exclusive (k := k) h hx hp ho
  | storeFault ho hexit =>
    exact exit_exclusive (store_exclusive h hx hp ho) (update_self _ _ _) hexit
  | copyin => exact hx
  | copyout hc => exact copyOut_exclusive (k := k) h hx hp hc
  | files _ hc =>
    refine hx.replace hp _ (h.elsewhere hp) (hc.renewed.mono ?_) hc.filed.held.image
    intro f hf
    refine elsewhere_of_le hf ?_
    simp only [Pi.add_apply]
    omega
  | exit ho => exact exit_exclusive hx hp ho
  | wait ho => exact wait_exclusive h hx hp ho

end Calls

theorem step_exclusive {a : Action} {r : Reply} (h : Sound L k) (hx : Exclusive k.proc)
    (ho : StepOutcome L k a r k') : Exclusive k'.proc := by
  cases ho with
  | idle => exact hx
  | call hp _ hc => exact call_exclusive h hx hp hc

/-! ## Runs from boot -/

theorem boot_exclusive {regions : List Region} {initcode : List UInt8} {bytes : Frame → Page}
    (hboot : boot L regions initcode bytes = .ok k) (hoom : k.mem.oom = false) :
    Exclusive k.proc := by
  have h := boot_sound hboot hoom
  intro i j P Q v w e e' hi hj hv hw he _ he' heq
  have hi0 := boot_proc hboot i P hi
  have hj0 := boot_proc hboot j Q hj
  rw [hi0] at hi
  rw [hj0, hi] at hj
  cases hj
  exact ⟨hi0.trans hj0.symm, (h.wf 0 P hi).image.distinct v w e e' hv hw he he' heq.symm⟩

theorem reach_exclusive {regions : List Region} {initcode : List UInt8} {bytes : Frame → Page}
    {k0 : Kernel} (hboot : boot L regions initcode bytes = .ok k0) (hoom : k0.mem.oom = false)
    (hreach : Reach (next L) (· = k0) k) : Sound L k ∧ Exclusive k.proc := by
  refine hreach.invariant (I := fun k => Sound L k ∧ Exclusive k.proc) ?_ ?_
  · rintro _ rfl
    exact ⟨boot_sound hboot hoom, boot_exclusive hboot hoom⟩
  · rintro k a k' ⟨h, hx⟩ _ hnext
    obtain ⟨r, hrun⟩ := next_eq_some hnext
    have ho := step_outcome h hrun
    exact ⟨step_sound h ho, step_exclusive h hx ho⟩

end Xv6.Memory
