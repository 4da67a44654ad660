import Xv6.Lib.Refinement
import Xv6.Memory.View

/-!
# Copy-on-write is eager copying

One step of the kernel in which no allocation fails is one step of the eager
machine with the same answer: `step_eager`.  Two facts carry it.  A call
changes only pages of which the process holds all the references, by
`Shift.frame`, and a store without a fault goes to a page that no other
entry maps, by `Exclusive`.

A page that was first mapped without `PTE_W` gets it from `cowHandler`, and
`cowHandler` refuses address 0, so stores and `copyout` are compared at the
other addresses.
-/

namespace Xv6.Memory

open Xv6.Lib Function

variable {L : Layout} {k k' : Kernel} {p : Nat} {P : Proc} {m m' : Mem} {pt pt' : PageTable}
  {va : Nat}

/-! ## The process table -/

theorem freeSlot_tasks (k : Kernel) : (tasksOf k).freeSlot = freeSlot k.proc := by
  unfold Tasks.freeSlot freeSlot tasksOf
  congr 1
  funext i
  cases k.proc i <;> rfl

theorem zombieChild_tasks (k : Kernel) (p : Nat) :
    (tasksOf k).zombieChild p = zombieChild p k.proc := by
  unfold Tasks.zombieChild zombieChild tasksOf
  congr 1
  funext i
  cases k.proc i <;> rfl

/-! ## Stores -/

/-- A store without a fault. -/
theorem userStore_space {b : UInt8} (h : Sound L k) (hx : Exclusive k.proc)
    (hp : k.proc p = some P) (hst : userStore P.pagetable va b k.mem = some m') :
    (∀ q Q, q ≠ p → k.proc q = some Q → Kept k.mem m' Q.pagetable) ∧
      (target P.pagetable va = true →
        (spaceOf k.mem P.pagetable).store va b = some (spaceOf m' P.pagetable)) := by
  have hheld := h.held hp
  obtain ⟨e, he, hmax, hu, hw, rfl⟩ := userStore_some hst
  have hv := image_user_below hheld.image hmax he hu
  refine ⟨?_, ?_⟩
  · intro q Q hq hQ w e' hw' he'
    refine update_of_ne ?_ _ _
    intro heq
    exact hq (hx p q P Q _ w e e' hp hQ hv hw' he hw he' heq).1.symm
  · intro ht
    have hfirst := (target_iff.mp ht).2 e he
    have hstart : spaceOf k.mem P.pagetable (va / PGSIZE) =
        some ⟨true, true, k.mem.bytes e.ppn⟩ := by
      rw [spaceOf_some hv he, Pte.view, hu, hfirst]
    rw [Space.store_eq va hstart]
    congr 1
    funext w
    by_cases hwv : w = va / PGSIZE
    · rw [hwv, update_self, spaceOf_some hv he, Pte.view, hu, hfirst]
      show some _ = some (UserPage.mk true true (update k.mem.bytes e.ppn _ e.ppn))
      rw [update_self]
    · rw [update_of_ne hwv]
      unfold spaceOf
      by_cases hlt : w < TRAPFRAME
      · rw [if_pos hlt, if_pos hlt]
        cases he' : P.pagetable.leaf w with
        | none => rfl
        | some e' =>
          have hne : e'.ppn ≠ e.ppn := fun heq =>
            hwv (hheld.image.distinct w _ e' e hlt hv he' he heq)
          show some (e'.view k.mem) = some (UserPage.mk _ _ (update k.mem.bytes e.ppn _ e'.ppn))
          rw [update_of_ne hne]
          rfl
      · rw [if_neg hlt, if_neg hlt]

/-- What a store does to the address space, and that the others keep their
pages. -/
theorem store_space {b : UInt8} {r : Bool} (h : Sound L k) (hx : Exclusive k.proc)
    (hp : k.proc p = some P) (ho : StoreOutcome L va b k.mem P.pagetable r m' pt') :
    (∀ q Q, q ≠ p → k.proc q = some Q → Kept k.mem m' Q.pagetable) ∧
      (target P.pagetable va = true → m'.oom = false →
        (spaceOf k.mem P.pagetable).store va b = if r then some (spaceOf m' pt') else none) := by
  have hheld := h.held hp
  cases ho with
  | direct hst =>
    obtain ⟨hkept, hspace⟩ := userStore_space h hx hp hst
    exact ⟨hkept, fun ht _ => hspace ht⟩
  | invalid _ hc =>
    refine ⟨fun q Q _ _ v e _ _ => rfl, fun ht _ => ?_⟩
    have hpage := (target_iff.mp ht).1
    exact store_none_of_not_cowable rfl (by rintro rfl; exact hpage rfl) le_rfl hc b
  | oom => exact ⟨fun q Q _ _ v e _ _ => rfl, fun _ hoom => by cases hoom⟩
  | @copied e f m' pt' _ _ hr =>
    refine ⟨fun q Q hq hQ => h.kept hp hr.shift_owned hq hQ, fun ht _ => ?_⟩
    have hfirst := (target_iff.mp ht).2 e hr.before
    have hstart : spaceOf k.mem P.pagetable (va / PGSIZE) =
        some ⟨true, true, k.mem.bytes e.ppn⟩ := by
      rw [spaceOf_some hr.below hr.before, Pte.view, hr.user, hfirst]
    have hspace := hr.space hheld.backed
    rw [hfirst] at hspace
    rw [Space.store_eq va hstart, ← hspace]
    rfl

/-! ## `sbrk` -/

variable {n : Nat} {r : Reply} {a : Action}

theorem Extended.space {j : Nat} (hx : Extended L m pt (userFlags true false) n j m' pt')
    (h : Held L m pt n) (hb : n + j ≤ TRAPFRAME) :
    spaceOf m' pt' = (spaceOf m pt).grow n (n + j) := by
  obtain ⟨dt, dl, hs, _, _⟩ := hx.shift
  have hkept := (h.kept hs).space
  funext v
  unfold Space.grow
  by_cases hin : n ≤ v ∧ v < n + j
  · obtain ⟨f, hf, _, hz⟩ := hx.new v hin.1 hin.2
    rw [if_pos hin, spaceOf_some (by omega) hf]
    show some (UserPage.mk true true (m'.bytes f)) = _
    rw [hz]
  · rw [if_neg hin, ← hkept]
    unfold spaceOf
    rw [hx.old v hin]

theorem Unmapped.space {j : Nat} (hu : Unmapped L m pt j (n - j) m' pt') (h : Held L m pt n) :
    spaceOf m' pt' = (spaceOf m pt).shrink j := by
  obtain ⟨c, hs, hc⟩ := hu.shift
  funext v
  unfold Space.shrink spaceOf
  by_cases hv : v < TRAPFRAME
  · rw [if_pos hv, if_pos hv, hu.leaf]
    by_cases hj : j ≤ v
    · rw [if_pos hj]
      by_cases hn : v < j + (n - j)
      · rw [if_pos ⟨hj, hn⟩]
        rfl
      · rw [if_neg (fun hin => hn hin.2), h.image.none hv (by omega)]
        rfl
    · rw [if_neg hj, if_neg (fun hin => hj hin.1)]
      cases he : pt.leaf v with
      | none => rfl
      | some e =>
        -- the entry is still there, so the pages given up are others
        have hstay : 1 ≤ leaves pt'.leaf e.ppn :=
          leaves_pos hv (by rw [hu.leaf, if_neg (fun hin => hj hin.1)]; exact he)
        have hkeep : m'.bytes e.ppn = m.bytes e.ppn := by
          refine hs.frame ?_
          have h1 := h.leaves_le e.ppn
          rw [hc, Pi.add_apply] at h1
          omega
        show some (e.view m') = some (e.view m)
        rw [Pte.view, hkeep]
        rfl
  · rw [if_neg hv, if_neg hv]
    split <;> rfl

/-- `sbrk` on the address space. -/
theorem GrowOutcome.task {n : Int} {r : Bool} {P' : Proc} (ho : GrowOutcome L n P m r P' m')
    (h : Held L m P.pagetable (pages P.sz)) (hoom : m'.oom = false) :
    r = true ∧ taskOf m' P' = (taskOf m P).sbrk n := by
  cases ho with
  | same hn =>
    refine ⟨rfl, ?_⟩
    rw [Task.sbrk, if_neg (by omega), if_neg (by omega)]
  | extended hn hle hb hx =>
    have hpages := Nat.add_sub_cancel' (pages_mono hle)
    have hspace := hx.space h (by rw [hpages]; exact hb)
    rw [hpages] at hspace
    refine ⟨rfl, ?_⟩
    rw [Task.sbrk, if_pos hn, taskOf, hspace]
    rfl
  | oom hfail =>
    rw [hfail] at hoom
    cases hoom
  | shrunk hn hu =>
    refine ⟨rfl, ?_⟩
    rw [Task.sbrk, if_neg (by omega), if_pos hn, taskOf, hu.space h]
    rfl

/-! ## `fork`, `exit` and `wait` -/

theorem Sound.kept_all {d : Frame → Nat} (h : Sound L k) (hs : Shift L k.mem m' 0 d) :
    ∀ q Q, k.proc q = some Q → Kept k.mem m' Q.pagetable :=
  fun _ _ hQ => (h.held hQ).kept hs

/-- Closing files keeps the pages of the processes. -/
theorem Sound.kept_files {d : Frame → Nat} (h : Sound L k)
    (hs : Shift L k.mem m' (pipes k.files) d) :
    ∀ q Q, k.proc q = some Q → Kept k.mem m' Q.pagetable := by
  intro q Q hQ v e hv he
  refine hs.frame ?_
  have h1 := h.covered e.ppn
  have h2 := h.pages_le hQ e.ppn
  have h3 := leaves_pos hv he
  simp only [uses, pagesOf, owned, Pi.add_apply] at *
  omega

/-- The two tables after `fork` map what the old one mapped. -/
theorem Forked.spaces {old old' new : PageTable} {tf : Frame} (hf : Forked L m old n tf m' old' new)
    (h : Held L m old n) : spaceOf m' old' = spaceOf m old ∧ spaceOf m' new = spaceOf m old := by
  have hkept := (h.kept hf.shift).space
  have hview : ∀ o : Option Pte, (o.map Pte.protect).map (Pte.view m') = o.map (Pte.view m') := by
    intro o
    cases o <;> rfl
  rw [← hkept]
  refine ⟨spaceOf_congr ?_, spaceOf_congr ?_⟩
  · intro v _
    rw [hf.parent v]
    split
    · exact hview _
    · rfl
  · intro v hv
    rw [hf.child v hv]
    exact hview _

theorem fork_eager (h : Sound L k) (hp : k.proc p = some P) (hoom : k'.mem.oom = false)
    (ho : ForkOutcome L p P k r k') :
    (tasksOf k).call p (taskOf k.mem P) .fork = some (r, tasksOf k') := by
  rw [Tasks.call, freeSlot_tasks]
  cases ho with
  | @noProc m' hs hwhy =>
    rcases hwhy with hslot | ⟨hfail, _⟩
    · rw [hslot, tasksOf_mem (h.kept_all hs)]
    · change m'.oom = false at hoom
      rw [hfail] at hoom
      cases hoom
  | @noTable m' _ _ _ _ _ _ _ _ _ _ hfail =>
    change m'.oom = false at hoom
    rw [hfail] at hoom
    cases hoom
  | @done m' old' new tf slot files' hslot _ hfork _ =>
    obtain ⟨hold, hnew⟩ := hfork.spaces (h.held hp)
    have hkept := h.kept_all hfork.shift
    rw [hslot]
    show some _ = some _
    congr 2
    funext q
    show update (tasksOf k) slot _ q =
      (update (update k.proc p (some { P with pagetable := old' })) slot
        (some ⟨new, tf, P.sz, p, P.ofile, false, 0⟩) q).map (taskOf m')
    by_cases hq : q = slot
    · rw [hq, update_self, update_self]
      show _ = some (Task.mk (spaceOf m' new) P.sz p false 0)
      rw [hnew]
      rfl
    · rw [update_of_ne hq, update_of_ne hq]
      by_cases hqp : q = p
      · rw [hqp, update_self, tasksOf, hp, Option.map_some, Option.map_some, taskOf,
          taskOf, hold]
      · rw [update_of_ne hqp, tasksOf]
        cases hQ : k.proc q with
        | none => rfl
        | some Q => exact congrArg some (hkept q Q hQ).task.symm

theorem exit_eager {status : UInt32} (h : Sound L k) (hp : k.proc p = some P)
    (ho : ExitOutcome L p P status k k') :
    (tasksOf k).exit p (taskOf k.mem P) status = some (tasksOf k') := by
  cases ho with
  | @zombie fs' m' hinit hs _ =>
    have hkept := h.kept_files hs
    rw [Tasks.exit, if_neg hinit]
    congr 1
    funext q
    show update ((tasksOf k).reparent p) p _ q =
      (update (reparent p k.proc) p _ q).map (taskOf m')
    by_cases hq : q = p
    · rw [hq, update_self, update_self, Option.map_some, taskOf, taskOf,
        (hkept p P hp).space]
    · rw [update_of_ne hq, update_of_ne hq]
      show ((k.proc q).map (taskOf k.mem)).map _ = ((k.proc q).map _).map (taskOf m')
      cases hQ : k.proc q with
      | none => rfl
      | some Q =>
        have htask := (hkept q Q hQ).task
        have hspace := (hkept q Q hQ).space
        simp only [Option.map_some]
        show some (if Q.parent = p then _ else taskOf k.mem Q) =
          some (taskOf m' (if Q.parent = p then _ else Q))
        split
        · rw [taskOf, taskOf, hspace]
        · rw [htask]

theorem wait_eager {addr : Nat} (h : Sound L k) (hp : k.proc p = some P) (hz : P.zombie = false)
    (ho : WaitOutcome L p P addr k r k') (hoom : k'.mem.oom = false)
    (ht : addr = 0 ∨ ∀ i, i < 4 → target P.pagetable (addr + i) = true) :
    (tasksOf k).wait p (taskOf k.mem P) addr = (r, tasksOf k') := by
  have htarget : ∀ xstate i, i < (statusBytes addr xstate).length →
      target P.pagetable (addr + i) = true := by
    intro xstate i hi
    rcases ht with rfl | ht
    · cases hi
    · refine ht i ?_
      unfold statusBytes at hi
      split at hi
      · cases hi
      · exact hi
  unfold Tasks.wait
  rw [zombieChild_tasks]
  cases ho with
  | noChild hchild => rw [hchild]
  | @fault i Q m' pt' hchild hQ hc =>
    have hspace := hc.space (h.held hp) (htarget Q.xstate) hoom
    have hset := tasksOf_set (some { P with pagetable := pt' }) m'
      (fun q Q hq hQ => h.kept hp hc.shift hq hQ)
    rw [hchild]
    dsimp only
    rw [show tasksOf k i = some (taskOf k.mem Q) by rw [tasksOf, hQ]; rfl]
    dsimp only
    rw [show (taskOf k.mem P).space = spaceOf k.mem P.pagetable from rfl,
      show (taskOf k.mem Q).xstate = Q.xstate from rfl, hspace, hset]
    rfl
  | @reaped i Q m1 m' pt' hchild hQ hc hs =>
    have hoom1 : m1.oom = false := by
      by_contra hfail
      have := hs.oom (Bool.eq_true_of_not_eq_false hfail)
      change m'.oom = false at hoom
      rw [this] at hoom
      cases hoom
    have hne := zombieChild_ne hp hz hchild
    have hspace := hc.space (h.held hp) (htarget Q.xstate) hoom1
    have hset := tasksOf_set (some { P with pagetable := pt' }) m1
      (fun q Q hq hQ => h.kept hp hc.shift hq hQ)
    have h1 := h.copyOut hp hc
    have hQ1 : ({ k with mem := m1 }.setProc p (some { P with pagetable := pt' })).proc i =
        some Q := by
      rw [setProc_proc, update_of_ne hne]
      exact hQ
    -- the pages of the zombie go, and nobody else's
    have hclear := tasksOf_set (p := i) none m' (fun q Q' hq hQ' v e hv he =>
      hs.frame (elsewhere_of_le (h1.elsewhere hQ1 q Q' v e hq hQ' hv he) (Nat.le_add_left _ _)))
    rw [hset] at hclear
    rw [hchild]
    dsimp only
    rw [show tasksOf k i = some (taskOf k.mem Q) by rw [tasksOf, hQ]; rfl]
    dsimp only
    rw [show (taskOf k.mem P).space = spaceOf k.mem P.pagetable from rfl,
      show (taskOf k.mem Q).xstate = Q.xstate from rfl, hspace]
    exact congrArg (Prod.mk Reply.done) hclear.symm

/-! ## Steps -/

/-- The calls that the eager machine has, with writes at targets only. -/
def Call.comparable (pt : PageTable) : Call → Bool
  | .fork | .sbrk _ | .load _ | .copyin _ _ | .exit _ => true
  | .store va _ => target pt va
  | .copyout va src => (List.range src.length).all (fun i => target pt (va + i))
  | .wait addr => addr = 0 || (List.range 4).all (fun i => target pt (addr + i))
  | _ => false

/-- The steps that are compared: no allocation fails, and no write is aimed
at page 0 or at a page that was first mapped without `PTE_W`. -/
def Comparable (L : Layout) (k : Kernel) (a : Action) : Prop :=
  (k.proc a.slot).all (fun P => a.call.comparable P.pagetable) = true ∧
    (step L k a).toOption.all (fun q => !q.2.mem.oom) = true

instance (L : Layout) (k : Kernel) (a : Action) : Decidable (Comparable L k a) :=
  inferInstanceAs (Decidable (_ ∧ _))

theorem call_eager {c : Call} (h : Sound L k) (hx : Exclusive k.proc) (hp : k.proc p = some P)
    (hz : P.zombie = false) (hc : CallOutcome L p P k c r k')
    (hcmp : c.comparable P.pagetable = true) (hoom : k'.mem.oom = false) :
    (tasksOf k).call p (taskOf k.mem P) c = some (r, tasksOf k') := by
  have hheld := h.held hp
  have hspace : (taskOf k.mem P).space = spaceOf k.mem P.pagetable := rfl
  cases hc with
  | fork ho => exact fork_eager h hp hoom ho
  | execFail => cases hcmp
  | exec => cases hcmp
  | @sbrk n r P' m' ho =>
    obtain ⟨rfl, htask⟩ := ho.task hheld hoom
    rw [tasksOf_set (some P') m' (fun q Q hq hQ => h.kept hp ho.shift hq hQ), Option.map_some,
      htask]
    rfl
  | load hload =>
    rw [userLoad_space hheld] at hload
    rw [Tasks.call, hspace, hload]
  | loadFault hload ho =>
    rw [userLoad_space hheld] at hload
    rw [Tasks.call, hspace, hload]
    dsimp only
    rw [exit_eager h hp ho]
    rfl
  | @store va b m' pt' ho =>
    obtain ⟨hkept, hst⟩ := store_space h hx hp ho
    rw [Tasks.call, hspace, hst hcmp hoom, if_pos rfl, tasksOf_set _ m' hkept]
    rfl
  | @storeFault va b m' pt' k' ho hexit =>
    have hst := (store_space h hx hp ho).2 hcmp
    cases ho with
    | invalid =>
      have hsame : { k with mem := k.mem }.setProc p (some { P with pagetable := P.pagetable }) =
          k := by
        unfold Kernel.setProc
        rw [← hp, update_eq_self]
      rw [hsame] at hexit
      have hoom' : k.mem.oom = false := by
        cases hexit with
        | @zombie fs' m' _ hs _ =>
          by_contra hfail
          have := hs.oom (Bool.eq_true_of_not_eq_false hfail)
          change m'.oom = false at hoom
          rw [this] at hoom
          cases hoom
      rw [Tasks.call, hspace, hst hoom', if_neg Bool.false_ne_true]
      dsimp only
      rw [exit_eager h hp hexit]
      rfl
    | oom =>
      cases hexit with
      | @zombie fs' m' _ hs _ =>
        have := hs.oom rfl
        change m'.oom = false at hoom
        rw [this] at hoom
        cases hoom
  | copyin hrun =>
    rw [copyin_space hheld.backed] at hrun
    cases hrun
    rfl
  | @copyout va src r m' pt' hc =>
    have ht : ∀ i, i < src.length → target P.pagetable (va + i) = true := by
      intro i hi
      exact List.all_eq_true.mp hcmp i (List.mem_range.mpr hi)
    rw [Tasks.call, hspace, hc.space hheld ht hoom,
      tasksOf_set _ m' (fun q Q hq hQ => h.kept hp hc.shift hq hQ)]
    rfl
  | @files c r P' files' m' hcall hc =>
    cases c <;> first | exact hcall.elim | cases hcmp
  | exit ho =>
    rw [Tasks.call, exit_eager h hp ho]
    rfl
  | wait ho =>
    rw [Tasks.call, wait_eager h hp hz ho hoom]
    rcases Bool.or_eq_true_iff.mp hcmp with haddr | hall
    · exact Or.inl (of_decide_eq_true haddr)
    · exact Or.inr (fun i hi => List.all_eq_true.mp hall i (List.mem_range.mpr hi))

/-- One step of the kernel is one step of the eager machine. -/
theorem step_eager (h : Sound L k) (hx : Exclusive k.proc) (hcmp : Comparable L k a)
    (hrun : step L k a = .ok (r, k')) : (tasksOf k).step a = some (r, tasksOf k') := by
  obtain ⟨hcall, hoom⟩ := hcmp
  rw [hrun] at hoom
  have hoom' : k'.mem.oom = false := by simpa [Except.toOption] using hoom
  unfold Tasks.step tasksOf
  cases step_outcome h hrun with
  | idle hidle =>
    cases hp : k.proc a.slot with
    | none => rfl
    | some P => exact if_pos (hidle P hp)
  | call hp hz hc =>
    rw [hp] at hcall ⊢
    show (if (taskOf k.mem _).zombie then _ else _) = _
    rw [show (taskOf k.mem _).zombie = false from hz]
    exact call_eager h hx hp hz hc hcall hoom'

/-! ## Runs -/

/-- The step of the kernel, with its answer. -/
def answer (L : Layout) (k : Kernel) (a : Action) : Option (Reply × Kernel) :=
  (step L k a).toOption

theorem answer_eq_some {q : Reply × Kernel} (h : answer L k a = some q) : step L k a = .ok q := by
  unfold answer at h
  cases hrun : step L k a with
  | error err =>
    rw [hrun] at h
    cases h
  | ok q' =>
    rw [hrun] at h
    cases h
    rfl

/-- The byte that a process sees at an address. -/
def visible (k : Kernel) (p va : Nat) : Option UInt8 :=
  (k.proc p).bind (fun P => userLoad P.pagetable va k.mem)

theorem visible_space (h : Sound L k) (q va : Nat) :
    visible k q va = (tasksOf k q).bind (fun T => T.space.load va) := by
  unfold visible tasksOf
  cases hQ : k.proc q with
  | none => rfl
  | some Q => exact userLoad_space (h.held hQ) va

/-- The writes of a process. -/
def Call.isWrite : Call → Bool
  | .store _ _ | .copyout _ _ => true
  | _ => false

/-- A write of one process does not change what another one sees. -/
theorem visible_write {q : Nat} (h : Sound L k) (hx : Exclusive k.proc) (hw : a.call.isWrite = true)
    (hq : q ≠ a.slot) (hrun : step L k a = .ok (r, k')) (va : Nat) :
    visible k' q va = visible k q va := by
  have ho := step_outcome h hrun
  rw [visible_space (step_sound h ho), visible_space h]
  obtain ⟨p, c⟩ := a
  cases ho with
  | idle => rfl
  | @call P r k' hp hz hc =>
    dsimp only at hp hc hq hw
    cases hc with
    | @store va b m' pt' ho =>
      rw [tasksOf_set _ m' (store_space h hx hp ho).1, Tasks.set, update_of_ne hq]
    | @storeFault va b m' pt' k' ho hexit =>
      have hset := tasksOf_set (some { P with pagetable := pt' }) m' (store_space h hx hp ho).1
      have hsome := exit_eager (h.store hp ho) (update_self _ _ _) hexit
      rw [hset, Tasks.exit] at hsome
      split at hsome
      · cases hsome
      · rw [← Option.some.inj hsome, Tasks.set, update_of_ne hq, Tasks.reparent,
          Tasks.set, update_of_ne hq]
        cases tasksOf k q with
        | none => rfl
        | some T =>
          show Space.load (if T.parent = p then _ else T).space _ = T.space.load _
          split <;> rfl
    | @copyout va src r m' pt' hc =>
      rw [tasksOf_set _ m' (fun q Q hq hQ => h.kept hp hc.shift hq hQ), Tasks.set,
        update_of_ne hq]
    | @files c r P' files' m' hcall => cases c <;> first | exact hcall.elim | cases hw
    | _ => cases hw

/-- Forget that an allocation has failed. -/
def Kernel.clearOom (k : Kernel) : Kernel := { k with mem := { k.mem with oom := false } }

theorem Sound.clearOom (h : Sound L k) : Sound L k.clearOom :=
  ⟨⟨h.ok.nodup, h.ok.free_iff, h.ok.unmanaged⟩, h.covered, h.slots, h.wf, h.counts⟩

/-- Copy-on-write refines eager copying.  Take any state that is reachable
from boot, and any run from it of `fork`, loads, stores, `copyin`,
`copyout`, `sbrk`, `exit` and `wait` in which no allocation fails and no
write is aimed at page 0 or at a page that was first mapped without `PTE_W`.
The eager machine gives the same answers.  In the state after the run a page
that an entry maps with `PTE_W` has no other entry, and no write of a
process changes a byte that another one sees. -/
theorem cow_refines_eager {regions : List Region} {initcode : List UInt8} {bytes : Frame → Page}
    {k₀ : Kernel} {as : List Action} {rs : List Reply}
    (hboot : boot L regions initcode bytes = .ok k₀) (hoom : k₀.mem.oom = false)
    (hreach : Reach (next L) (· = k₀) k)
    (hrun : answersWhen (Comparable L) (answer L) k.clearOom as = some (rs, k')) :
    answers Tasks.step (tasksOf k) as = some (rs, tasksOf k') ∧ Exclusive k'.proc ∧
      ∀ a r k'' q va, a.call.isWrite = true → q ≠ a.slot → step L k' a = .ok (r, k'') →
        visible k'' q va = visible k' q va := by
  obtain ⟨h₀, hx₀⟩ := reach_exclusive hboot hoom hreach
  obtain ⟨⟨h, hx⟩, hans⟩ := answersWhen_refine (f := tasksOf)
    (I := fun k => Sound L k ∧ Exclusive k.proc) (by
      rintro k a r k' ⟨h, hx⟩ hcmp hstep
      have hone := answer_eq_some hstep
      have ho := step_outcome h hone
      exact ⟨⟨step_sound h ho, step_exclusive h hx ho⟩, step_eager h hx hcmp hone⟩) as
    ⟨h₀.clearOom, hx₀⟩ hrun
  exact ⟨hans, hx, fun a r k'' q va hw hq hone => visible_write h hx hw hq hone va⟩

/-- A child writes to a page that it shares with its parent. -/
def shareRun : List Action :=
  [⟨0, .sbrk 8192⟩, ⟨0, .store 4100 7⟩, ⟨0, .fork⟩, ⟨1, .store 4100 9⟩, ⟨0, .load 4100⟩,
    ⟨1, .copyin 4100 2⟩]

theorem cow_refines_eager_shareRun :
    ∃ k₀ k', boot smallLayout [] [] (fun _ => zeroPage) = .ok k₀ ∧ k₀.mem.oom = false ∧
      answersWhen (Comparable smallLayout) (answer smallLayout) k₀.clearOom shareRun =
        some ([.done, .done, .done, .done, .data [7], .data [9, 0]], k') ∧
      answers Tasks.step (tasksOf k₀) shareRun =
        some ([.done, .done, .done, .done, .data [7], .data [9, 0]], tasksOf k') := by
  obtain ⟨k₀, hboot, hoom, hrun⟩ := exists_of_boots (L := smallLayout) (f := fun k =>
    (answersWhen (Comparable smallLayout) (answer smallLayout) k.clearOom shareRun).any
      (fun q => q.1 = [.done, .done, .done, .done, .data [7], .data [9, 0]])) (by decide +kernel)
  obtain ⟨⟨rs, k'⟩, hans, hrs⟩ := (Option.any_eq_true _ _).mp hrun
  obtain rfl := of_decide_eq_true hrs
  exact ⟨k₀, k', hboot, hoom, hans, (cow_refines_eager hboot hoom (.init rfl) hans).1⟩

end Xv6.Memory
