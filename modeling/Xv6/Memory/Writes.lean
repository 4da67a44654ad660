import Xv6.Memory.ForkFailure

/-!
# Kernel writes and user writes

A store by a process goes through the entry if it has `PTE_W`, and through
`cowHandler` with the faulting address if it faults.  `copyout` always calls
`cowHandler`, with the address rounded down to its page.  As `cowHandler`
refuses the address 0 and no other address of page 0, the two disagree there:
`copyout` never writes to page 0, and a store does.

`writes_agree_iff` has the exact condition under which a byte can be written
by one if and only if it can be written by the other, before and after a
`fork`.
-/

namespace Xv6.Memory

open Xv6.Lib Function

variable {L : Layout} {k : Kernel} {p : Nat} {P : Proc} {m : Mem} {pt pt' : PageTable}
  {n va : Nat} {b : UInt8}

/-- `copyout` of one byte returns 0. -/
def CopyoutWorks (L : Layout) (va : Nat) (b : UInt8) (pt : PageTable) (m : Mem) : Prop :=
  ∃ m' pt', copyout L va [b] pt m = .ok (true, m', pt')

/-- A store instruction works, at once or after its fault. -/
def StoreWorks (L : Layout) (va : Nat) (b : UInt8) (pt : PageTable) (m : Mem) : Prop :=
  ∃ m' pt', faultStore L va b pt m = .ok (true, m', pt')

/-- The addresses of a user page at 0, apart from address 0 itself if the
page has no `PTE_W`. -/
def InPageZero (pt : PageTable) (va : Nat) : Prop :=
  va < PGSIZE ∧ ∃ e, pt.leaf 0 = some e ∧ e.flags.u = true ∧ (e.flags.w = true ∨ va ≠ 0)

/-! ## The two ways to write -/

theorem pgrounddown_ne_zero : pgrounddown va ≠ 0 ↔ PGSIZE ≤ va := by
  unfold pgrounddown PGSIZE
  omega

/-- With a free page, `copyout` works where `cowHandler` does. -/
theorem copyoutWorks_iff (h : Backed L m pt) (hfree : m.freelist ≠ []) :
    CopyoutWorks L va b pt m ↔
      va < MAXVA ∧ PGSIZE ≤ va ∧ ∃ e, pt.leaf (va / PGSIZE) = some e ∧ e.flags.u = true := by
  have hiff : Cowable pt (pgrounddown va) ↔
      va < MAXVA ∧ PGSIZE ≤ va ∧ ∃ e, pt.leaf (va / PGSIZE) = some e ∧ e.flags.u = true := by
    rw [Cowable, pgrounddown_lt_MAXVA, pgrounddown_ne_zero, pgrounddown_div]
  rw [← hiff]
  have hne : [b] ≠ [] := by simp
  by_cases hc : Cowable pt (pgrounddown va)
  · refine iff_of_true ?_ hc
    obtain ⟨_, e, f, m1, pt1, hcow, hr⟩ :=
      (cowHandler_cowable h hc).resolve_left (fun hnil => hfree hnil.1)
    obtain ⟨m2, _, hloop⟩ := copyoutLoop_copied 0 hne hc hcow hr
    exact ⟨m2, pt1, hloop⟩
  · refine iff_of_false ?_ hc
    rintro ⟨m', pt', hrun⟩
    have hfail : copyout L va [b] pt m = .ok (false, m, pt) :=
      copyoutLoop_refused hne (cowHandler_invalid hc) (Or.inl rfl)
    rw [hfail] at hrun
    cases hrun

/-- With a free page, a store works in every user page, apart from address 0
of a page without `PTE_W`. -/
theorem storeWorks_iff (h : Held L m pt n) (hfree : m.freelist ≠ []) :
    StoreWorks L va b pt m ↔
      va < MAXVA ∧ ∃ e, pt.leaf (va / PGSIZE) = some e ∧ e.flags.u = true ∧
        (e.flags.w = true ∨ va ≠ 0) := by
  obtain ⟨r, m1, pt1, hrun, ho⟩ := faultStore_spec h va b
  have hworks : StoreWorks L va b pt m ↔ r = true := by
    unfold StoreWorks
    rw [hrun]
    cases r <;> simp
  rw [hworks]
  cases ho with
  | direct hstore =>
    obtain ⟨e, he, hmax, hu, hw, _⟩ := userStore_some hstore
    exact iff_of_true rfl ⟨hmax, e, he, hu, Or.inl hw⟩
  | invalid hfault hc =>
    refine iff_of_false Bool.false_ne_true ?_
    rintro ⟨hmax, e, he, hu, hw | hne⟩
    · rw [userStore, if_neg (by omega), he] at hfault
      simp [hu, hw] at hfault
    · exact hc ⟨hmax, hne, e, he, hu⟩
  | oom hfault hc =>
    rcases cowHandler_cowable h.backed hc with ⟨hnil, _⟩ | ⟨_, e, f, m2, pt2, hcow, hr⟩
    · exact absurd hnil hfree
    · -- the second try goes through the new entry
      have hat : pt2.leaf (va / PGSIZE) = some (e.copied f) := by
        rw [hr.leaf, update_self]
      have hretry : (userStore pt2 va b m2).isSome := by
        rw [userStore, if_neg (by have := hc.1; omega), hat]
        rfl
      obtain ⟨m3, hm3⟩ := Option.isSome_iff_exists.mp hretry
      rw [faultStore, hfault] at hrun
      dsimp only at hrun
      rw [hcow] at hrun
      dsimp only [bind, Except.bind] at hrun
      rw [if_pos rfl, hm3] at hrun
      cases hrun
  | copied _ hc hr =>
    exact iff_of_true rfl ⟨hc.1, _, hr.before, hr.user, Or.inr hc.2.1⟩

/-- The entries of the parent and of the child after `fork`. -/
theorem forked_entry {r : Reply} {k' : Kernel} {q : Nat} {P' : Proc}
    (hp : k.proc p = some P) (ho : ForkOutcome L p P k r k') (hq : q = p ∨ k.proc q = none)
    (hP' : k'.proc q = some P') {v : Nat} (hv : v < TRAPFRAME) :
    P'.pagetable.leaf v = P.pagetable.leaf v ∨
      P'.pagetable.leaf v = (P.pagetable.leaf v).map Pte.protect := by
  have hprot : ∀ {old' : PageTable} {i : Nat}, Protected P.pagetable old' i →
      old'.leaf v = P.pagetable.leaf v ∨ old'.leaf v = (P.pagetable.leaf v).map Pte.protect := by
    intro old' i hold
    rw [hold v]
    split
    · exact Or.inr rfl
    · exact Or.inl rfl
  cases ho with
  | noProc =>
    rcases hq with rfl | hnone
    · cases hp.symm.trans hP'
      exact Or.inl rfl
    · exact absurd (hnone.symm.trans hP') (by simp)
  | noTable _ _ _ _ hparent =>
    rw [setProc_proc] at hP'
    rcases hq with rfl | hnone
    · rw [update_self] at hP'
      cases hP'
      exact hprot hparent
    · have hne : q ≠ p := by
        rintro rfl
        cases hp.symm.trans hnone
      rw [update_of_ne hne] at hP'
      exact absurd (hnone.symm.trans hP') (by simp)
  | @done m' old' new tf slot files' hslot _ hfork =>
    rw [setProc_proc, setProc_proc] at hP'
    have hslot' := (freeSlot_some hslot).2
    by_cases hqs : q = slot
    · rw [hqs, update_self] at hP'
      cases hP'
      exact Or.inr (hfork.child v hv)
    · rw [update_of_ne hqs] at hP'
      rcases hq with rfl | hnone
      · rw [update_self] at hP'
        cases hP'
        exact hprot hfork.parent
      · have hne : q ≠ p := by
          rintro rfl
          cases hp.symm.trans hnone
        rw [update_of_ne hne] at hP'
        exact absurd (hnone.symm.trans hP') (by simp)

/-- A `fork` does not change where stores work, apart from address 0. -/
theorem storeWorks_forked {m' : Mem} {n' : Nat} (h : Held L m pt n) (h' : Held L m' pt' n')
    (hfree : m.freelist ≠ []) (hfree' : m'.freelist ≠ [])
    (hentry : ∀ v, v < TRAPFRAME →
      pt'.leaf v = pt.leaf v ∨ pt'.leaf v = (pt.leaf v).map Pte.protect)
    (hzero : ¬ InPageZero pt va) : StoreWorks L va b pt m ↔ StoreWorks L va b pt' m' := by
  rw [storeWorks_iff h hfree, storeWorks_iff h' hfree']
  have hlt : va < MAXVA → va / PGSIZE < MAXVPN := by
    intro hmax
    unfold MAXVA at hmax
    exact Nat.div_lt_of_lt_mul (by rw [Nat.mul_comm]; exact hmax)
  constructor
  · rintro ⟨hmax, e, he, hu, hw⟩
    have hv := h.backed.user_below _ e (hlt hmax) he hu
    rcases hentry _ hv with hsame | hprot
    · exact ⟨hmax, e, hsame.trans he, hu, hw⟩
    · refine ⟨hmax, e.protect, by rw [hprot, he]; rfl, hu, Or.inr ?_⟩
      rintro rfl
      exact hzero ⟨by decide, e, he, hu, hw⟩
  · rintro ⟨hmax, e', he', hu, hw⟩
    have hv := h'.backed.user_below _ e' (hlt hmax) he' hu
    rcases hentry _ hv with hsame | hprot
    · exact ⟨hmax, e', hsame.symm.trans he', hu, hw⟩
    · rw [hprot] at he'
      obtain ⟨e, he, rfl⟩ := Option.map_eq_some_iff.mp he'
      exact ⟨hmax, e, he, hu, Or.inr (hw.resolve_left Bool.false_ne_true)⟩

/-! ## Where they agree -/

/-- Take any state that the processes reach from boot, with a free page.  A
byte can be written by `copyout` if and only if it can be written by a store,
and by a store of the parent or of the child after a `fork` if and only if by
a store before it, exactly when the address is not in a user page at 0 that
the store can write to. -/
theorem writes_agree_iff {regions : List Region} {initcode : List UInt8} {bytes : Frame → Page}
    {k₀ : Kernel} (hboot : boot L regions initcode bytes = .ok k₀) (hoom : k₀.mem.oom = false)
    (hreach : Reach (next L) (· = k₀) k) (hp : k.proc p = some P) (hz : P.zombie = false)
    (hfree : k.mem.freelist ≠ []) (va : Nat) (b : UInt8) :
    ((CopyoutWorks L va b P.pagetable k.mem ↔ StoreWorks L va b P.pagetable k.mem) ∧
      ∀ r k' q P', step L k ⟨p, .fork⟩ = .ok (r, k') → k'.mem.freelist ≠ [] →
        (q = p ∨ k.proc q = none) → k'.proc q = some P' →
        (StoreWorks L va b P.pagetable k.mem ↔ StoreWorks L va b P'.pagetable k'.mem)) ↔
      ¬ InPageZero P.pagetable va := by
  have h := reach_sound hboot hoom hreach
  have hheld := h.held hp
  constructor
  · rintro ⟨hagree, _⟩ ⟨hlt, e, he, hu, hw⟩
    have hdiv : va / PGSIZE = 0 := Nat.div_eq_of_lt hlt
    rw [copyoutWorks_iff hheld.backed hfree, storeWorks_iff hheld hfree, hdiv] at hagree
    have hmax : va < MAXVA := hlt.trans_le (by decide)
    have hge := (hagree.mpr ⟨hmax, e, he, hu, hw⟩).2.1
    omega
  · intro hzero
    refine ⟨?_, ?_⟩
    · rw [copyoutWorks_iff hheld.backed hfree, storeWorks_iff hheld hfree]
      constructor
      · rintro ⟨hmax, hge, e, he, hu⟩
        exact ⟨hmax, e, he, hu, Or.inr (by unfold PGSIZE at hge; omega)⟩
      · rintro ⟨hmax, e, he, hu, hw⟩
        refine ⟨hmax, ?_, e, he, hu⟩
        by_contra hlt
        rw [Nat.div_eq_of_lt (by omega)] at he
        exact hzero ⟨by omega, e, he, hu, hw⟩
    · intro r k' q P' hrun hfree' hq hP'
      have h' : Sound L k' := step_sound h (step_outcome h hrun)
      rw [step_fork hp hz] at hrun
      obtain ⟨files', hdup, _⟩ := h.dupFiles hp
      obtain ⟨r₁, k₁, hrun₁, ho⟩ := fork_spec (p := p) hheld hdup
      rw [hrun₁] at hrun
      cases hrun
      exact storeWorks_forked hheld (h'.held hP') hfree hfree'
        (fun v hv => forked_entry hp ho hq hP' hv) hzero

/-- An address above page 0. -/
theorem writes_agree_second_page :
    ∃ (k : Kernel) (P : Proc), k.proc 0 = some P ∧ P.zombie = false ∧ k.mem.freelist ≠ [] ∧
      ¬ InPageZero P.pagetable 5000 ∧
      (CopyoutWorks smallLayout 5000 7 P.pagetable k.mem ↔
        StoreWorks smallLayout 5000 7 P.pagetable k.mem) := by
  obtain ⟨k₀, k, hboot, hoom, hreach, hk⟩ := exists_of_observe [⟨0, .sbrk 4096⟩]
    (f := fun k => (k.proc 0).any (fun P => P.zombie = false ∧ k.mem.freelist ≠ []))
    (by decide +kernel)
  obtain ⟨P, hP, hk⟩ := (Option.any_eq_true _ _).mp hk
  obtain ⟨hz, hfree⟩ := of_decide_eq_true hk
  have hzero : ¬ InPageZero P.pagetable 5000 := fun hin => absurd hin.1 (by decide)
  exact ⟨k, P, hP, hz, hfree, hzero,
    ((writes_agree_iff hboot hoom hreach hP hz hfree 5000 7).mpr hzero).1⟩

/-- Whether a call returns 0. -/
def works (r : Except Panic (Bool × Mem × PageTable)) : Bool := r.toOption.any (fun q => q.1)

theorem works_iff {r : Except Panic (Bool × Mem × PageTable)} :
    works r = true ↔ ∃ m' pt', r = .ok (true, m', pt') := by
  cases r with
  | error err => simp [works, Except.toOption]
  | ok q =>
    obtain ⟨r, m', pt'⟩ := q
    cases r <;> simp [works, Except.toOption]

/-- What the counterexample shows of a state. -/
def firstPage (k : Kernel) : Bool :=
  (k.proc 0).any (fun P => (step smallLayout k ⟨0, .fork⟩).toOption.any (fun q =>
    (q.2.proc 0).any (fun P' =>
      works (faultStore smallLayout 8 7 P.pagetable k.mem) ∧
        works (copyout smallLayout 8 [7] P.pagetable k.mem) = false ∧
        works (faultStore smallLayout 0 7 P.pagetable k.mem) ∧
        works (faultStore smallLayout 0 7 P'.pagetable q.2.mem) = false ∧
        k.mem.freelist ≠ [] ∧ q.2.mem.freelist ≠ [])))

/-- The first process has one page, at 0, with `PTE_W`.  It can store to
address 8, and `copyout` cannot.  It can store to address 0, but no more
after a `fork`. -/
theorem first_page_writes :
    ∃ k₀ k P r k' P', boot smallLayout [] [] (fun _ => zeroPage) = .ok k₀ ∧
      k₀.mem.oom = false ∧ Reach (next smallLayout) (· = k₀) k ∧ k.proc 0 = some P ∧
      k.mem.freelist ≠ [] ∧
      StoreWorks smallLayout 8 7 P.pagetable k.mem ∧
      ¬ CopyoutWorks smallLayout 8 7 P.pagetable k.mem ∧
      step smallLayout k ⟨0, .fork⟩ = .ok (r, k') ∧ k'.proc 0 = some P' ∧
      k'.mem.freelist ≠ [] ∧
      StoreWorks smallLayout 0 7 P.pagetable k.mem ∧
      ¬ StoreWorks smallLayout 0 7 P'.pagetable k'.mem := by
  obtain ⟨k₀, k, hboot, hoom, hreach, hk⟩ := exists_of_observe []
    (f := firstPage) (by decide +kernel)
  obtain ⟨P, hP, hk⟩ := (Option.any_eq_true _ _).mp hk
  obtain ⟨⟨r, k'⟩, hfork, hk⟩ := exists_ok_of_any hk
  obtain ⟨P', hP', hk⟩ := (Option.any_eq_true _ _).mp hk
  obtain ⟨h₁, h₂, h₃, h₄, hfree, hfree'⟩ := of_decide_eq_true hk
  exact ⟨k₀, k, P, r, k', P', hboot, hoom, hreach, hP, hfree, works_iff.mp h₁,
    fun h => Bool.eq_false_iff.mp h₂ (works_iff.mpr h), hfork, hP', hfree', works_iff.mp h₃,
    fun h => Bool.eq_false_iff.mp h₄ (works_iff.mpr h)⟩

end Xv6.Memory
