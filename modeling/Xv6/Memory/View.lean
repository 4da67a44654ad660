import Xv6.Memory.Eager
import Xv6.Memory.Exclusive

/-!
# What the kernel stands for

`tasksOf` is the state of the eager machine that a state of the kernel
stands for: each process with the pages that its table maps.  Sharing is not
visible in it.

The lemmas of this file are about one address space.  A fault moves a page
and keeps its bytes, `copyout` is a sequence of stores, and `copyin` is a
sequence of loads.
-/

namespace Xv6.Memory

open Xv6.Lib Function

variable {L : Layout} {k k' : Kernel} {p : Nat} {P : Proc} {m m' : Mem} {pt pt' : PageTable}
  {n va : Nat}

/-! ## The abstraction -/

/-- The page of an entry. -/
def Pte.view (m : Mem) (e : Pte) : UserPage := ⟨e.flags.u, e.first.w, m.bytes e.ppn⟩

/-- The address space of a page table. -/
def spaceOf (m : Mem) (pt : PageTable) : Space :=
  fun v => if v < TRAPFRAME then (pt.leaf v).map (Pte.view m) else none

/-- What a process stands for. -/
def taskOf (m : Mem) (P : Proc) : Task :=
  ⟨spaceOf m P.pagetable, P.sz, P.parent, P.zombie, P.xstate⟩

/-- What the state of the kernel stands for. -/
def tasksOf (k : Kernel) : Tasks := fun i => (k.proc i).map (taskOf k.mem)

variable {v : Nat} {e : Pte} {f : Frame} {page : Page}

theorem spaceOf_some (hv : v < TRAPFRAME) (he : pt.leaf v = some e) :
    spaceOf m pt v = some (e.view m) := by
  rw [spaceOf, if_pos hv, he]
  rfl

/-- The pages of an address space come from entries. -/
theorem spaceOf_inv {g : UserPage} (h : spaceOf m pt v = some g) :
    v < TRAPFRAME ∧ ∃ e, pt.leaf v = some e ∧ g = e.view m := by
  unfold spaceOf at h
  split at h
  · obtain ⟨e, he, rfl⟩ := Option.map_eq_some_iff.mp h
    exact ⟨by assumption, e, he, rfl⟩
  · cases h

/-- All bytes that a table maps are kept. -/
def Kept (m m' : Mem) (pt : PageTable) : Prop :=
  ∀ v e, v < TRAPFRAME → pt.leaf v = some e → m'.bytes e.ppn = m.bytes e.ppn

theorem Kept.space (h : Kept m m' pt) : spaceOf m' pt = spaceOf m pt := by
  funext v
  unfold spaceOf
  by_cases hv : v < TRAPFRAME
  · rw [if_pos hv, if_pos hv]
    cases he : pt.leaf v with
    | none => rfl
    | some e =>
      show some (e.view m') = some (e.view m)
      rw [Pte.view, h v e hv he]
      rfl
  · rw [if_neg hv, if_neg hv]

theorem Kept.task (h : Kept m m' P.pagetable) : taskOf m' P = taskOf m P := by
  rw [taskOf, h.space]
  rfl

/-- Entries that differ in `PTE_W` and `PTE_X` only stand for the same page. -/
theorem spaceOf_congr
    (h : ∀ v, v < TRAPFRAME → (pt'.leaf v).map (Pte.view m) = (pt.leaf v).map (Pte.view m)) :
    spaceOf m pt' = spaceOf m pt := by
  funext v
  unfold spaceOf
  by_cases hv : v < TRAPFRAME
  · rw [if_pos hv, if_pos hv, h v hv]
  · rw [if_neg hv, if_neg hv]

/-- Acquiring pages keeps what is mapped. -/
theorem Held.kept {d : Frame → Nat} (h : Held L m pt n) (hs : Shift L m m' 0 d) :
    Kept m m' pt := by
  intro v e hv he
  exact hs.frame (h.refcnt_pos hv he)

/-- The calls of one process keep the pages of the others. -/
theorem Sound.kept {d : Frame → Nat} (h : Sound L k) (hp : k.proc p = some P)
    (hs : Shift L k.mem m' (owned P.pagetable) d) {q : Nat} {Q : Proc} (hq : q ≠ p)
    (hQ : k.proc q = some Q) : Kept k.mem m' Q.pagetable := by
  intro v e hv he
  exact hs.frame (h.elsewhere_image hp q Q v e hq hQ hv he)

/-- All processes keep their pages. -/
theorem tasksOf_mem (hkept : ∀ q Q, k.proc q = some Q → Kept k.mem m' Q.pagetable) :
    tasksOf { k with mem := m' } = tasksOf k := by
  funext q
  show (k.proc q).map (taskOf m') = (k.proc q).map (taskOf k.mem)
  cases hQ : k.proc q with
  | none => rfl
  | some Q => exact congrArg some (hkept q Q hQ).task

/-- One slot changes, and the other processes keep their pages. -/
theorem tasksOf_set (P' : Option Proc) (m' : Mem) (hkept : ∀ q Q, q ≠ p → k.proc q = some Q →
    Kept k.mem m' Q.pagetable) :
    tasksOf ({ k with mem := m' }.setProc p P') =
      (tasksOf k).set p (P'.map (taskOf m')) := by
  funext q
  show (update k.proc p P' q).map (taskOf m') =
    update (tasksOf k) p (P'.map (taskOf m')) q
  by_cases hq : q = p
  · rw [hq, update_self, update_self]
  · rw [update_of_ne hq, update_of_ne hq]
    show (k.proc q).map (taskOf m') = (k.proc q).map (taskOf k.mem)
    cases hQ : k.proc q with
    | none => rfl
    | some Q => exact congrArg some (hkept q Q hq hQ).task

/-! ## Faults -/

/-- Another entry of the table has a share in its page, also if it is the
page of `v`. -/
theorem leaves_other {leaf : Nat → Option Pte} {w : Nat} {e' : Pte} (hw : w < TRAPFRAME)
    (hv : v < TRAPFRAME) (hne : w ≠ v) (he' : leaf w = some e') (he : leaf v = some e) :
    one e.ppn e'.ppn < leaves leaf e'.ppn := by
  have hleaf : update leaf v none w = some e' := (update_of_ne hne _ _).trans he'
  have hpos := leaves_pos hw hleaf
  have hsum := congrFun (leaves_clear hv he) e'.ppn
  simp only [Pi.add_apply] at hsum
  omega

/-- The address space after a page moves. -/
theorem Replaced.space (hr : Replaced L m pt v e f page m' pt') (h : Backed L m pt) :
    spaceOf m' pt' = update (spaceOf m pt) v (some ⟨true, e.first.w, page⟩) := by
  funext w
  by_cases hw : w = v
  · rw [hw, update_self,
      spaceOf_some hr.below (by rw [hr.leaf, update_self])]
    show some (Pte.view m' ⟨f, _, e.first⟩) = _
    rw [Pte.view, hr.page]
  · rw [update_of_ne hw]
    unfold spaceOf
    by_cases hlt : w < TRAPFRAME
    · rw [if_pos hlt, if_pos hlt, hr.leaf, update_of_ne hw]
      cases he' : pt.leaf w with
      | none => rfl
      | some e' =>
        have hkeep : m'.bytes e'.ppn = m.bytes e'.ppn :=
          hr.shift.frame (Nat.lt_of_lt_of_le
            (leaves_other hlt hr.below hw he' hr.before) (h.leaves_le e'.ppn))
        show some (e'.view m') = some (e'.view m)
        rw [Pte.view, hkeep]
        rfl
    · rw [if_neg hlt, if_neg hlt]

/-- A byte after a page moves. -/
theorem Replaced.load (hr : Replaced L m pt v e f page m' pt') (h : Backed L m pt) (va : Nat) :
    (spaceOf m' pt').load va =
      if va / PGSIZE = v then some (byteAt page va) else (spaceOf m pt).load va := by
  rw [Space.load, Space.page, hr.space h]
  by_cases hv : va / PGSIZE = v
  · rw [if_pos hv, hv, update_self]
    rfl
  · rw [if_neg hv, update_of_ne hv]
    rfl

theorem load_of_leaf (hv : v < TRAPFRAME) (he : pt.leaf v = some e) (hu : e.flags.u = true)
    {va : Nat} (hva : va / PGSIZE = v) :
    (spaceOf m pt).load va = some (byteAt (m.bytes e.ppn) va) := by
  rw [Space.load, Space.page, hva, spaceOf_some hv he]
  show Option.map _ (if e.flags.u then _ else _) = _
  rw [if_pos hu]
  rfl

/-- The addresses at which writing is compared: not in page 0, and not in a
page that was first mapped without `PTE_W`. -/
def target (pt : PageTable) (va : Nat) : Bool :=
  va / PGSIZE ≠ 0 && (pt.leaf (va / PGSIZE)).all (fun e => e.first.w)

theorem target_iff : target pt va = true ↔
    va / PGSIZE ≠ 0 ∧ ∀ e, pt.leaf (va / PGSIZE) = some e → e.first.w = true := by
  unfold target
  rw [Bool.and_eq_true, decide_eq_true_eq]
  cases pt.leaf (va / PGSIZE) <;> simp

/-- A fault does not change how a page was first mapped. -/
theorem Replaced.target (hr : Replaced L m pt v e f page m' pt') (ht : target pt va = true) :
    target pt' va = true := by
  rw [target_iff] at *
  refine ⟨ht.1, ?_⟩
  intro e' he'
  rw [hr.leaf, update_apply] at he'
  split at he'
  · rename_i hv
    cases he'
    exact ht.2 e (hv ▸ hr.before)
  · exact ht.2 e' he'

/-- Where `cowHandler` gives up, the eager machine does. -/
theorem store_none_of_not_cowable {va' : Nat} (hdiv : va' / PGSIZE = va / PGSIZE)
    (hne : va' ≠ 0) (hmax : va' ≤ va) (hc : ¬ Cowable pt va') (b : UInt8) :
    (spaceOf m pt).store va b = none := by
  unfold Space.store
  cases hs : spaceOf m pt (va / PGSIZE) with
  | none => rfl
  | some g =>
    obtain ⟨hlt, e, he, rfl⟩ := spaceOf_inv hs
    refine if_neg ?_
    intro hu
    have huser : e.flags.u = true := by
      rw [Bool.and_eq_true] at hu
      exact hu.1
    refine hc ⟨?_, hne, e, by rw [hdiv]; exact he, huser⟩
    have h1 := TRAPFRAME_lt
    unfold MAXVA PGSIZE at *
    omega

theorem pgrounddown_add (va : Nat) : va / PGSIZE * PGSIZE + va % PGSIZE = va := by
  unfold PGSIZE
  omega

/-- `copyout` is a sequence of stores. -/
theorem CopyOut.space {dstva : Nat} {src : List UInt8} {r : Bool}
    (hc : CopyOut L dstva src m pt r m' pt') (h : Held L m pt n)
    (ht : ∀ i, i < src.length → target pt (dstva + i) = true) (hoom : m'.oom = false) :
    Space.stores dstva src (spaceOf m pt) = (r, spaceOf m' pt') := by
  induction hc with
  | done => rfl
  | @invalid dstva src m pt hsrc hcow =>
    obtain ⟨b, rest, rfl⟩ := List.exists_cons_of_ne_nil hsrc
    have hpage := (target_iff.mp (ht 0 (by simp))).1
    rw [Nat.add_zero] at hpage
    have hnone := store_none_of_not_cowable (m := m) (pgrounddown_div dstva)
      (by unfold pgrounddown PGSIZE at *; omega) (by unfold pgrounddown PGSIZE; omega) hcow b
    rw [Space.stores, hnone]
  | oom => cases hoom
  | @page dstva src m m1 m' pt pt1 pt' r e f hsrc _ hr hrest ih =>
    have hlen : 0 < src.length := List.length_pos_iff.mpr hsrc
    have hfirst : e.first.w = true := by
      have := (target_iff.mp (ht 0 hlen)).2
      rw [Nat.add_zero] at this
      exact this e hr.before
    have hstart : spaceOf m pt (dstva / PGSIZE) = some ⟨true, true, m.bytes e.ppn⟩ := by
      rw [spaceOf_some hr.below hr.before, Pte.view, hr.user, hfirst]
    have hmod := Nat.mod_lt dstva (show 0 < PGSIZE by decide)
    have hn : (src.take (chunk dstva src.length)).length = chunk dstva src.length := by
      rw [List.length_take]
      unfold chunk
      omega
    have hchunk := Space.stores_chunk (src.drop (chunk dstva src.length))
      (src.take (chunk dstva src.length)) (spaceOf m pt) (m.bytes e.ppn) (dstva % PGSIZE)
      (by rw [hn]; unfold chunk; omega) hstart
    rw [List.take_append_drop, pgrounddown_add, hn] at hchunk
    have hspace := hr.space h.backed
    rw [hfirst] at hspace
    rw [hchunk, ← hspace]
    by_cases hend : src.drop (chunk dstva src.length) = []
    · rw [hend] at hrest ⊢
      cases hrest with
      | done => rfl
      | invalid hne => exact absurd rfl hne
      | oom hne => exact absurd rfl hne
      | page hne => exact absurd rfl hne
    · have hlong : dstva + chunk dstva src.length = pgrounddown dstva + PGSIZE := by
        have : chunk dstva src.length < src.length := by
          by_contra hge
          exact hend (List.drop_eq_nil_of_le (by omega))
        unfold chunk pgrounddown PGSIZE at *
        omega
      rw [hlong]
      refine ih (hr.held h) ?_ hoom
      intro i hi
      rw [List.length_drop] at hi
      rw [← hlong, Nat.add_assoc]
      exact hr.target (ht _ (by omega))

/-! ## Loads -/

/-- `walkaddr` finds the page of an address. -/
theorem walkaddr_page (h : Backed L m pt) {o : Option Frame} (hrun : walkaddr pt va = .ok o) :
    o.map m.bytes = (spaceOf m pt).page va := by
  rw [walkaddr_eq] at hrun
  cases hrun
  unfold Space.page spaceOf
  have htop := TRAPFRAME_lt
  by_cases hmax : va ≥ MAXVA
  · have hhigh : MAXVPN ≤ va / PGSIZE :=
      (Nat.le_div_iff_mul_le (by decide)).mpr (by unfold MAXVA at hmax; omega)
    rw [if_pos hmax, if_neg (by omega)]
    rfl
  rw [if_neg hmax]
  by_cases hv : va / PGSIZE < TRAPFRAME
  · rw [if_pos hv]
    cases pt.leaf (va / PGSIZE) with
    | none => rfl
    | some e =>
      show (if e.flags.u then some e.ppn else none).map m.bytes =
        if e.flags.u then some (m.bytes e.ppn) else none
      split <;> rfl
  · -- the trampoline and the trapframe
    have hlt : va / PGSIZE < MAXVPN := by
      unfold MAXVA at hmax
      exact Nat.div_lt_of_lt_mul (by rw [Nat.mul_comm]; omega)
    rw [if_neg hv]
    cases he : pt.leaf (va / PGSIZE) with
    | none => rfl
    | some e =>
      rw [Option.bind_some, if_neg (fun hu => hv (h.user_below _ e hlt he hu))]
      rfl

theorem userLoad_space (h : Held L m pt n) (va : Nat) :
    userLoad pt va m = (spaceOf m pt).load va := by
  rw [Space.load, ← walkaddr_page h.backed (walkaddr_eq pt va)]
  unfold userLoad
  by_cases hmax : va ≥ MAXVA
  · rw [if_pos hmax, if_pos hmax]
    rfl
  rw [if_neg hmax, if_neg hmax]
  cases he : pt.leaf (va / PGSIZE) with
  | none => rfl
  | some e =>
    show (if e.flags.u && e.flags.r then _ else _) = _
    rw [h.image.readable _ e he, Bool.and_true, Option.bind_some]
    split <;> rfl

/-- `copyin` is a sequence of loads. -/
theorem copyinLoop_space (h : Backed L m pt) :
    ∀ (fuel srcva len : Nat), len ≤ fuel →
      copyinLoop pt m fuel srcva len = .ok ((spaceOf m pt).loads srcva len) := by
  intro fuel
  induction fuel with
  | zero =>
    intro srcva len hlen
    rw [Nat.le_zero.mp hlen]
    rfl
  | succ fuel ih =>
    intro srcva len hfuel
    rw [copyinLoop]
    by_cases hlen : len = 0
    · rw [if_pos hlen, hlen]
      rfl
    rw [if_neg hlen, walkaddr_eq]
    have hpage := walkaddr_page h (walkaddr_eq pt (pgrounddown srcva))
    generalize (if pgrounddown srcva ≥ MAXVA then none else _) = addr at hpage ⊢
    have hmod := Nat.mod_lt srcva (show 0 < PGSIZE by decide)
    cases addr with
    | none =>
      obtain ⟨len, rfl⟩ := Nat.exists_eq_succ_of_ne_zero hlen
      have hload : (spaceOf m pt).load srcva = none := by
        have hsame : (spaceOf m pt).page srcva = (spaceOf m pt).page (pgrounddown srcva) := by
          unfold Space.page
          rw [pgrounddown_div]
        rw [Space.load, hsame, ← hpage]
        rfl
      rw [Space.loads, hload]
      rfl
    | some f =>
      have hn : chunk srcva len ≤ len := by
        unfold chunk
        omega
      have hpos : 0 < chunk srcva len := by
        unfold chunk
        omega
      have hchunk := Space.loads_chunk hpage.symm (len - chunk srcva len) (chunk srcva len)
        (srcva % PGSIZE) (by unfold chunk; omega)
      rw [pgrounddown_add, Nat.add_sub_cancel' hn] at hchunk
      show (copyinLoop pt m fuel (pgrounddown srcva + PGSIZE) (len - chunk srcva len) >>= _) = _
      rw [ih _ _ (by omega), hchunk]
      show Except.ok (Option.map _ _) = _
      by_cases hend : len - chunk srcva len = 0
      · rw [hend]
        rfl
      · have hlong : srcva + chunk srcva len = pgrounddown srcva + PGSIZE := by
          unfold chunk pgrounddown PGSIZE at *
          omega
        rw [hlong]

theorem copyin_space (h : Backed L m pt) (srcva len : Nat) :
    copyin pt srcva len m = .ok ((spaceOf m pt).loads srcva len) :=
  copyinLoop_space h len srcva len le_rfl

end Xv6.Memory
