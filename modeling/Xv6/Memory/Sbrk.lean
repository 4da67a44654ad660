import Xv6.Memory.Boot

/-!
# `sbrk`

`sys_sbrk` returns the old size whenever `growproc` returns 0.  `growproc`
adds an `int` to a size of 64 bits, and `uvmdealloc` takes a new size that is
not smaller for nothing to do.  `Truthful` is what a caller may expect of the
result, and `sbrk_truthful_iff` is the exact condition for it: the new size,
as an integer, is not negative.
-/

namespace Xv6.Memory

open Xv6.Lib

variable {L : Layout} {m m' : Mem} {P P' : Proc} {n : Int}

/-- `sys_sbrk`.  The return value -1 is `none`. -/
def sysSbrk (L : Layout) (n : Int32) (P : Proc) (m : Mem) :
    Except Panic (Option Nat × Proc × Mem) := do
  let (r, P', m) ← growproc L n.toInt P m
  .ok (if r then some P.sz else none, P', m)

/-- The pages that are mapped are those of `[0, PGROUNDUP(p->sz))`, besides
the trapframe and the trampoline. -/
def Fits (P : Proc) : Prop :=
  ∀ v, (P.pagetable.leaf v).isSome ↔ v < pages P.sz ∨ v = TRAPFRAME ∨ v = TRAMPOLINE

/-- The result of `sbrk(n)` says what happened.  If it is the old size, the
size has changed by `n`.  If it is -1, the size, the entries and the user
pages are what they were. -/
def Truthful (n : Int) (P : Proc) (m : Mem) : Option Nat → Proc → Mem → Prop
  | some old, P', _ => old = P.sz ∧ (P'.sz : Int) = P.sz + n ∧ Fits P'
  | none, P', m' =>
      P'.sz = P.sz ∧ P'.pagetable.leaf = P.pagetable.leaf ∧
        ∀ v e, v < TRAPFRAME → P.pagetable.leaf v = some e → m'.bytes e.ppn = m.bytes e.ppn

theorem Held.fits (h : Held L m P.pagetable (pages P.sz)) : Fits P :=
  h.image.mapped_iff h.bound

/-! ## The new size -/

/-- A size that does not become negative. -/
theorem addSize_of_nonneg {sz : Nat} (hsz : pages sz ≤ PHYSTOP) (hneg : n < 0)
    (h : 0 ≤ (sz : Int) + n) : (min sz (addSize sz n) : Int) = sz + n := by
  have hle := le_of_pages_le hsz
  have hval : PHYSTOP * PGSIZE = 2281701376 := rfl
  rw [hval] at hle
  unfold addSize
  omega

/-- A size that would become negative wraps, and the old one is kept. -/
theorem addSize_of_neg {sz : Nat} (hsz : pages sz ≤ PHYSTOP) (hn : -2 ^ 31 ≤ n)
    (h : ¬ 0 ≤ (sz : Int) + n) : min sz (addSize sz n) = sz := by
  have hle := le_of_pages_le hsz
  have hval : PHYSTOP * PGSIZE = 2281701376 := rfl
  rw [hval] at hle
  unfold addSize
  omega

/-- `growproc` fails only when it grows. -/
theorem growproc_fails_pos (h : growproc L n P m = .ok (false, P', m')) : 0 < n := by
  by_contra hpos
  unfold growproc at h
  rw [if_neg hpos] at h
  by_cases hneg : n < 0
  · rw [if_pos hneg] at h
    cases hrun : uvmdealloc L P.pagetable P.sz (addSize P.sz n) m with
    | error err =>
      rw [hrun] at h
      cases h
    | ok q =>
      rw [hrun] at h
      cases h
  · rw [if_neg hneg] at h
    cases h

/-! ## When `sbrk` tells the truth -/

/-- For a process of any size and any `int`, `sys_sbrk` returns, and its
result is truthful if and only if the new size is not negative. -/
theorem sbrk_truthful_iff (h : Held L m P.pagetable (pages P.sz)) (n : Int32) :
    ∃ r P' m', sysSbrk L n P m = .ok (r, P', m') ∧
      (Truthful n.toInt P m r P' m' ↔ 0 ≤ (P.sz : Int) + n.toInt) := by
  have hmax : n.toInt < 2 ^ 31 := n.toInt_lt
  have hmin : -2 ^ 31 ≤ n.toInt := n.le_toInt
  obtain ⟨r, P', m', hrun, ho⟩ := growproc_spec h hmax
  have hfits : Fits P' := (ho.held h).fits
  refine ⟨if r then some P.sz else none, P', m', by rw [sysSbrk, hrun]; rfl, ?_⟩
  cases ho with
  | same hn => exact iff_of_true ⟨rfl, by omega, hfits⟩ (by omega)
  | extended hn =>
    have hsize := addSize_of_pos h.le_PHYSTOP hn hmax
    refine iff_of_true ⟨rfl, ?_, hfits⟩ (by omega)
    show (addSize P.sz n.toInt : Int) = _
    omega
  | oom _ hg =>
    have hpos := growproc_fails_pos hrun
    obtain ⟨d, hs, _⟩ := hg.shift
    refine iff_of_true ⟨rfl, hg.leaf, ?_⟩ (by omega)
    intro v e hv he
    exact hs.frame (h.refcnt_pos hv he)
  | shrunk hn =>
    by_cases hsize : 0 ≤ (P.sz : Int) + n.toInt
    · refine iff_of_true ⟨rfl, ?_, hfits⟩ hsize
      have := addSize_of_nonneg h.le_PHYSTOP hn hsize
      show ((min P.sz (addSize P.sz n.toInt) : Nat) : Int) = _
      omega
    · refine iff_of_false ?_ hsize
      rintro ⟨_, hsz, _⟩
      have hkeep : min P.sz (addSize P.sz n.toInt) = P.sz :=
        addSize_of_neg h.le_PHYSTOP hmin hsize
      have hsz' : ((min P.sz (addSize P.sz n.toInt) : Nat) : Int) = P.sz + n.toInt := hsz
      omega

/-- The first process of the machine, which has one page. -/
theorem sbrk_truthful_shrink :
    ∃ (k : Kernel) (P : Proc), Held smallLayout k.mem P.pagetable (pages P.sz) ∧ P.sz = 4096 ∧
      ∃ r P' m', sysSbrk smallLayout (-96) P k.mem = .ok (r, P', m') ∧
        Truthful (-96) P k.mem r P' m' := by
  obtain ⟨k₀, k, hboot, hoom, hreach, hk⟩ := exists_of_observe []
    (f := fun k => (k.proc 0).any (·.sz = 4096)) (by decide +kernel)
  obtain ⟨P, hP, hsz⟩ := (Option.any_eq_true _ _).mp hk
  have hsz := of_decide_eq_true hsz
  have hheld := (reach_sound hboot hoom hreach).held hP
  obtain ⟨r, P', m', hrun, hiff⟩ := sbrk_truthful_iff hheld (-96)
  have hsize : 0 ≤ (P.sz : Int) + (-96 : Int32).toInt := by
    rw [hsz]
    decide
  exact ⟨k, P, hheld, hsz, r, P', m', hrun, hiff.mpr hsize⟩

/-- The first process has 4096 bytes.  `sbrk(-5000)` returns 4096 like a
success, and the size is still 4096. -/
theorem sbrk_below_zero :
    ∃ k₀ k, boot smallLayout [] [] (fun _ => zeroPage) = .ok k₀ ∧ k₀.mem.oom = false ∧
      Reach (next smallLayout) (· = k₀) k ∧ ∃ P P' m', k.proc 0 = some P ∧ P.sz = 4096 ∧
        sysSbrk smallLayout (-5000) P k.mem = .ok (some 4096, P', m') ∧ P'.sz = 4096 ∧
        ¬ Truthful (-5000) P k.mem (some 4096) P' m' := by
  obtain ⟨k₀, k, hboot, hoom, hreach, hk⟩ := exists_of_observe []
    (f := fun k => (k.proc 0).any (fun P => (sysSbrk smallLayout (-5000) P k.mem).toOption.any
      (fun q => P.sz = 4096 ∧ q.1 = some 4096 ∧ q.2.1.sz = 4096))) (by decide +kernel)
  obtain ⟨P, hP, hk⟩ := (Option.any_eq_true _ _).mp hk
  obtain ⟨⟨r, P', m'⟩, hrun, hk⟩ := exists_ok_of_any hk
  obtain ⟨hsz, rfl, hsz'⟩ := of_decide_eq_true hk
  refine ⟨k₀, k, hboot, hoom, hreach, P, P', m', hP, hsz, hrun, hsz', ?_⟩
  rintro ⟨_, hsize, _⟩
  rw [hsz, hsz'] at hsize
  exact absurd hsize (by decide)

end Xv6.Memory
