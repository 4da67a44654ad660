import Xv6.Memory.Outcomes

/-!
# Every page in use is counted

`uses` is the number of uses of each page: the page tables, the trapframes
and the user pages of all processes, the pipe buffers, and what the kernel
took when it booted.  `Sound` is the invariant of the machine: no page has
more uses than references, every process has a well-formed image, and the
file table counts its references.

Each step is a transfer of the shares of the process that takes it, so the
uses of all others stay counted: `Sound.replace`.
-/

namespace Xv6.Memory

open Xv6.Lib Function

/-! ## Uses -/

/-- The pages of a process. -/
def pagesOf : Option Proc → Frame → Nat
  | none => 0
  | some P => owned P.pagetable + one P.trapframe

/-- The references of a process to open files. -/
def filesOf : Option Proc → Nat → Nat
  | none => 0
  | some P => fds P.ofile

/-- The pages of all processes. -/
def procPages (proc : Nat → Option Proc) : Frame → Nat :=
  total (Finset.range NPROC) pagesOf proc

/-- The references of all processes to open files. -/
def procFiles (proc : Nat → Option Proc) : Nat → Nat :=
  total (Finset.range NPROC) filesOf proc

/-- The uses of each page. -/
def uses (k : Kernel) : Frame → Nat :=
  tables k.kpgtbl + listed k.kstack + listed k.disk + pipes k.files + procPages k.proc

/-- The memory of a process is in order, and a zombie has no open files. -/
structure WellFormed (P : Proc) : Prop where
  image : Image P.pagetable (pages P.sz)
  bound : pages P.sz ≤ TRAPFRAME
  ofile : ∀ fd, NOFILE ≤ fd → P.ofile fd = none
  zombie : P.zombie = true → ∀ fd, P.ofile fd = none

/-- The invariant of the machine. -/
structure Sound (L : Layout) (k : Kernel) : Prop where
  ok : Ok L k.mem
  covered : ∀ f, uses k f ≤ k.mem.refcnt f
  slots : ∀ i P, k.proc i = some P → i < NPROC
  wf : ∀ i P, k.proc i = some P → WellFormed P
  counts : Counts k.files (procFiles k.proc)

variable {L : Layout} {k k' : Kernel} {p : Nat} {P P' : Proc} {m' : Mem}

theorem Sound.mem_range (h : Sound L k) (hp : k.proc p = some P) : p ∈ Finset.range NPROC :=
  Finset.mem_range.mpr (h.slots p P hp)

theorem Sound.pages_le (h : Sound L k) (hp : k.proc p = some P) (f : Frame) :
    pagesOf (some P) f ≤ procPages k.proc f := by
  rw [← hp]
  exact le_total (h.mem_range hp) f

theorem Sound.held (h : Sound L k) (hp : k.proc p = some P) :
    Held L k.mem P.pagetable (pages P.sz) := by
  refine ⟨h.ok, (h.wf p P hp).image, ?_, (h.wf p P hp).bound⟩
  intro f
  have h1 := h.covered f
  have h2 := h.pages_le hp f
  simp only [uses, pagesOf, Pi.add_apply] at h1 h2
  omega

/-- The uses that a step may change. -/
def movable (k : Kernel) : Frame → Nat := pipes k.files + procPages k.proc

/-- What one step has to show. -/
theorem Sound.step_of (h : Sound L k) (hkpgtbl : k'.kpgtbl = k.kpgtbl)
    (hkstack : k'.kstack = k.kstack) (hdisk : k'.disk = k.disk) (hok : Ok L k'.mem)
    (hbalance : ∀ f, k.mem.refcnt f + movable k' f ≤ k'.mem.refcnt f + movable k f)
    (hslots : ∀ i P, k'.proc i = some P → i < NPROC)
    (hwf : ∀ i P, k'.proc i = some P → WellFormed P)
    (hcounts : Counts k'.files (procFiles k'.proc)) : Sound L k' := by
  refine ⟨hok, ?_, hslots, hwf, hcounts⟩
  intro f
  have h1 := h.covered f
  have h2 := hbalance f
  simp only [uses, movable, Pi.add_apply, hkpgtbl, hkstack, hdisk] at *
  omega

/-- The slots after one of them is stored. -/
theorem setProc_slots (h : Sound L k) (hp : p < NPROC) (q : Option Proc) :
    ∀ i Q, update k.proc p q i = some Q → i < NPROC := by
  intro i Q hQ
  rw [update_apply] at hQ
  split at hQ
  · rename_i hi
    rw [hi]
    exact hp
  · exact h.slots i Q hQ

theorem setProc_wf (h : Sound L k) {q : Option Proc} (hq : ∀ Q, q = some Q → WellFormed Q) :
    ∀ i Q, update k.proc p q i = some Q → WellFormed Q := by
  intro i Q hQ
  rw [update_apply] at hQ
  split at hQ
  · exact hq Q hQ
  · exact h.wf i Q hQ

/-- A step of the process in slot `p` that moves only its own pages and the
pipe buffers. -/
theorem Sound.replace (h : Sound L k) (hp : k.proc p = some P) (files' : Files)
    (hs : Shift L k.mem m' (pipes k.files + pagesOf (some P)) (pipes files' + pagesOf (some P')))
    (hwf : WellFormed P')
    (hcounts : Counts files' (procFiles (update k.proc p (some P')))) :
    Sound L ({ k with mem := m', files := files' }.setProc p (some P')) := by
  refine h.step_of rfl rfl rfl (hs.ok h.ok) ?_
    (setProc_slots h (h.slots p P hp) _) (setProc_wf h (fun Q hQ => by cases hQ; exact hwf)) hcounts
  intro f
  have h1 := hs.balance f
  have h2 := total_update (g := pagesOf) (t := k.proc) (h.mem_range hp) (some P') f
  rw [hp] at h2
  simp only [movable, procPages, Kernel.setProc, Pi.add_apply] at *
  omega

/-- The same for a step that leaves the files alone. -/
theorem Sound.replace_image (h : Sound L k) (hp : k.proc p = some P) (P' : Proc)
    (hs : Shift L k.mem m' (owned P.pagetable) (owned P'.pagetable))
    (hrest : P'.trapframe = P.trapframe ∧ P'.ofile = P.ofile ∧ P'.zombie = P.zombie)
    (himg : Image P'.pagetable (pages P'.sz)) (hb : pages P'.sz ≤ TRAPFRAME) :
    Sound L ({ k with mem := m' }.setProc p (some P')) := by
  obtain ⟨htf, hofile, hz⟩ := hrest
  refine h.replace hp k.files ?_ ⟨himg, hb, ?_, ?_⟩ ?_
  · refine (hs.add (pipes k.files + one P.trapframe)).congr ?_ ?_
    · intro f
      simp only [pagesOf, Pi.add_apply]
      omega
    · intro f
      simp only [pagesOf, htf, Pi.add_apply]
      omega
  · rw [hofile]
    exact (h.wf p P hp).ofile
  · rw [hofile, hz]
    exact (h.wf p P hp).zombie
  · have heq : procFiles (update k.proc p (some P')) = procFiles k.proc := by
      refine total_congr ?_
      intro i _
      by_cases hi : i = p
      · rw [hi, update_self, hp]
        simp only [filesOf, hofile]
      · rw [update_of_ne hi]
    rw [heq]
    exact h.counts

/-- The files of one process, apart from those of the others. -/
theorem procFiles_update (proc : Nat → Option Proc) (hp : p ∈ Finset.range NPROC)
    (q : Option Proc) :
    procFiles (update proc p q) =
      procFiles (update proc p none) + filesOf q := by
  funext f
  have h := total_update (g := filesOf) (t := update proc p none) hp q f
  rw [update_idem, update_self] at h
  exact h

theorem Sound.files_eq (h : Sound L k) (hp : k.proc p = some P) :
    procFiles k.proc = procFiles (update k.proc p none) + fds P.ofile := by
  have heq := procFiles_update k.proc (h.mem_range hp) (some P)
  rw [← hp, update_eq_self] at heq
  rw [heq, hp]
  rfl

theorem Sound.pipes_le (h : Sound L k) (f : Frame) : pipes k.files f ≤ k.mem.refcnt f := by
  have := h.covered f
  simp only [uses, Pi.add_apply] at this
  omega

theorem Sound.filed (h : Sound L k) (hp : k.proc p = some P) :
    Filed L P k.files k.mem (procFiles (update k.proc p none)) := by
  refine ⟨h.held hp, ?_, by rw [← h.files_eq hp]; exact h.counts, (h.wf p P hp).ofile⟩
  intro f
  have h1 := h.covered f
  have h2 := h.pages_le hp f
  simp only [uses, pagesOf, Pi.add_apply] at *
  omega

/-- A call on the open files. -/
theorem Sound.fileCall (h : Sound L k) (hp : k.proc p = some P) (hz : P.zombie = false)
    {files' : Files}
    (hc : FileCall L P k.files k.mem (procFiles (update k.proc p none)) P' files' m') :
    Sound L ({ k with mem := m', files := files' }.setProc p (some P')) := by
  refine h.replace hp files' ?_ ⟨hc.filed.held.image, hc.filed.held.bound, hc.filed.ofile, ?_⟩ ?_
  · refine (hc.shift.add (one P.trapframe)).congr ?_ ?_
    · intro f
      simp only [pagesOf, Pi.add_apply]
      omega
    · intro f
      simp only [pagesOf, hc.trapframe, Pi.add_apply]
      omega
  · rw [hc.zombie, hz]
    intro hc'
    cases hc'
  · rw [procFiles_update k.proc (h.mem_range hp)]
    exact hc.filed.counts

theorem Sound.dupFiles (h : Sound L k) (hp : k.proc p = some P) :
    ∃ fs', dupFiles P.ofile k.files = .ok fs' ∧ Counts fs' (procFiles k.proc + fds P.ofile) ∧
      pipes fs' = pipes k.files := by
  refine dupFiles_spec P.ofile h.counts ?_
  intro fd f hfd hfile
  rw [h.files_eq hp]
  exact (fds_pos hfd hfile).trans (Nat.le_add_left _ _)

/-! ## What is in use is not free -/

/-- A page in use is not on the free list. -/
theorem Sound.not_free (h : Sound L k) {f : Frame} (hf : 1 ≤ uses k f) :
    f ∉ k.mem.freelist := by
  intro hmem
  have hzero := ((h.ok.free_iff f).mp hmem).2
  have hcov := h.covered f
  omega

/-- `kalloc` hands out only pages that are not in use. -/
theorem Sound.kalloc_unused (h : Sound L k) {f : Frame} (hrun : kalloc k.mem = .ok (some f, m')) :
    uses k f = 0 := by
  cases hfree : k.mem.freelist with
  | nil =>
    rw [kalloc_none hfree] at hrun
    cases hrun
  | cons r rest =>
    obtain ⟨m1, hrun1, _⟩ := kalloc_some h.ok hfree
    rw [hrun1] at hrun
    cases hrun
    by_contra hne
    exact h.not_free (Nat.pos_of_ne_zero hne) (by rw [hfree]; simp)

/-- A page that a process maps is in use. -/
theorem Sound.uses_pos (h : Sound L k) (hp : k.proc p = some P) {v : Nat} {e : Pte}
    (hv : v < pages P.sz) (he : P.pagetable.leaf v = some e) : 1 ≤ uses k e.ppn := by
  have h1 := h.pages_le hp e.ppn
  have h2 := leaves_pos (hv.trans_le (h.wf p P hp).bound) he
  simp only [uses, pagesOf, owned, Pi.add_apply] at *
  omega

end Xv6.Memory
