import Xv6.Memory.Boot

/-!
# What a failed `fork` leaves behind

`fork` fails when there is no free slot, when `allocproc` runs out of pages,
or when `uvmcopy` does.  The first two leave the pages as they were.  The
loop of `uvmcopy` calls `increase_cnt` before `mappages`, and its error path
undoes the pages before the failing one only, so the last reference is never
dropped: `fork_fail_clean_iff` is the exact condition for a clean failure.
-/

namespace Xv6.Memory

open Xv6.Lib

variable {L : Layout} {k k' : Kernel} {p : Nat} {P : Proc} {m m' : Mem}

/-- The counts and the set of free pages are the same. -/
def SamePages (m m' : Mem) : Prop :=
  m'.refcnt = m.refcnt ∧ ∀ f, f ∈ m'.freelist ↔ f ∈ m.freelist

theorem Shift.samePages (hs : Shift L m m' 0 0) (hok : Ok L m) : SamePages m m' := by
  have href : m'.refcnt = m.refcnt := by
    funext f
    have := hs.balance f
    simp only [Pi.zero_apply] at this
    omega
  refine ⟨href, fun f => ?_⟩
  rw [(hs.ok hok).free_iff, hok.free_iff, href]

theorem Shift.not_samePages {pa : Frame} (hs : Shift L m m' 0 (one pa)) : ¬ SamePages m m' := by
  intro hsame
  have := hs.balance pa
  rw [hsame.1, one_self, Pi.zero_apply] at this
  omega

/-- The calls of `fork` whose failure leaks nothing: there is no slot for the
child, or too few pages for `allocproc`, or enough for all page-table pages
that `uvmcopy` takes. -/
def ForkClean (k : Kernel) (P : Proc) : Prop :=
  freeSlot k.proc = none ∨ k.mem.freelist.length < 4 ∨
    4 + tableCost (pages P.sz) ≤ k.mem.freelist.length

theorem step_fork (hp : k.proc p = some P) (hz : P.zombie = false) :
    step L k ⟨p, .fork⟩ = fork L p P k := by
  rw [step, hp]
  show (if P.zombie then _ else _) = _
  rw [hz]
  rfl

/-- When `fork` returns -1, the count of every page and the set of free
pages are what they were before, if and only if `ForkClean` held. -/
theorem fork_fail_clean_iff (h : Sound L k) (hp : k.proc p = some P) (hz : P.zombie = false) :
    (∀ k', step L k ⟨p, .fork⟩ = .ok (.fail, k') → SamePages k.mem k'.mem) ↔ ForkClean k P := by
  obtain ⟨files', hdup, _⟩ := h.dupFiles hp
  obtain ⟨r, k₁, hrun, ho⟩ := fork_spec (p := p) (h.held hp) hdup
  rw [step_fork hp hz, hrun]
  cases ho with
  | noProc hs hwhy =>
    refine ⟨fun _ => ?_, ?_⟩
    · rcases hwhy with hslot | ⟨_, hfew⟩
      · exact Or.inl hslot
      · exact Or.inr (Or.inl hfew)
    · rintro - k' hk'
      cases hk'
      exact hs.samePages h.ok
  | noTable hslot hmin hfew hs =>
    refine ⟨fun hsame => absurd (hsame _ rfl) hs.not_samePages, ?_⟩
    rintro (hnone | hlt | henough)
    · rw [hslot] at hnone
      cases hnone
    · omega
    · omega
  | done _ henough =>
    refine ⟨fun _ => Or.inr (Or.inr henough), ?_⟩
    rintro - k' hk'
    cases hk'

/-- A machine that boots with `n` pages to spare. -/
def tightLayout (n : Nat) : Layout := ⟨PHYSTOP - 77 - n, 0x80000⟩

theorem fork_fail_clean_noPages :
    ∃ k P, Sound (tightLayout 3) k ∧ k.proc 0 = some P ∧ P.zombie = false ∧
      k.mem.freelist.length = 3 ∧
      ∀ k', step (tightLayout 3) k ⟨0, .fork⟩ = .ok (.fail, k') → SamePages k.mem k'.mem := by
  obtain ⟨k, hboot, hoom, hk⟩ := exists_of_boots (L := tightLayout 3) (f := fun k =>
    (k.proc 0).any (fun P => P.zombie = false ∧ k.mem.freelist.length = 3)) (by decide +kernel)
  obtain ⟨P, hp, heq⟩ := (Option.any_eq_true _ _).mp hk
  obtain ⟨hz, hlen⟩ := of_decide_eq_true heq
  have h := boot_sound hboot hoom
  exact ⟨k, P, h, hp, hz, hlen,
    (fork_fail_clean_iff h hp hz).mpr (Or.inr (Or.inl (by omega)))⟩

/-- With four pages left, the child gets its trapframe and its page table,
and mapping its first page fails.  The page of `initcode` keeps two
references, and only the parent maps it. -/
theorem fork_fail_leaks :
    ∃ k k' P e, boot (tightLayout 4) [] [] (fun _ => zeroPage) = .ok k ∧ k.mem.oom = false ∧
      k.proc 0 = some P ∧ P.pagetable.leaf 0 = some e ∧
      step (tightLayout 4) k ⟨0, .fork⟩ = .ok (.fail, k') ∧
      k.mem.refcnt e.ppn = 1 ∧ k'.mem.refcnt e.ppn = 2 := by
  obtain ⟨k, hboot, hoom, hk⟩ := exists_of_boots (L := tightLayout 4) (f := fun k =>
    (k.proc 0).any (fun P => (P.pagetable.leaf 0).any (fun e =>
      (step (tightLayout 4) k ⟨0, .fork⟩).toOption.any (fun q =>
        q.1 = .fail ∧ k.mem.refcnt e.ppn = 1 ∧ q.2.mem.refcnt e.ppn = 2)))) (by decide +kernel)
  obtain ⟨P, hp, hk⟩ := (Option.any_eq_true _ _).mp hk
  obtain ⟨e, he, hk⟩ := (Option.any_eq_true _ _).mp hk
  obtain ⟨⟨r, k'⟩, hstep, heq⟩ := exists_ok_of_any hk
  obtain ⟨rfl, hbefore, hafter⟩ := of_decide_eq_true heq
  exact ⟨k, k', P, e, hboot, hoom, hp, he, hstep, hbefore, hafter⟩

end Xv6.Memory
