import Xv6.Memory.Boot
import Xv6.Memory.View

/-!
# `copyout` and `copyin`

`copyout` gives the process a page of its own for every page that it
touches, and drops one reference to the page that was there.  What a later
`copyin` sees is stated for any family of page tables whose entries are
counted, `RefCounted`: tables may share pages with each other, and a table
may map a page more than once.

* `CopyOut.load_eq`: the bytes of the process after a `copyout` that
  succeeds.
* `CopyOut.kept_beside`: the pages of any other table are kept.
* `copyout_copyin`: both together, with the bytes that `copyin` returns.
-/

namespace Xv6.Memory

open Xv6.Lib

variable {L : Layout} {m m' : Mem} {pt pt' : PageTable} {va : Nat}

/-! ## The bytes of a process -/

/-- The user byte at an address, in the page that `walkaddr` finds. -/
def userByte (pt : PageTable) (m : Mem) (va : Nat) : Option UInt8 :=
  match walkaddr pt va with
  | .ok (some f) => some (byteAt (m.bytes f) va)
  | _ => none

theorem userByte_eq (h : Backed L m pt) (va : Nat) :
    userByte pt m va = (spaceOf m pt).load va := by
  have hpage := walkaddr_page h (walkaddr_eq pt va)
  rw [userByte, walkaddr_eq, Space.load, ← hpage]
  generalize (if va ≥ MAXVA then none else _) = addr
  cases addr <;> rfl

/-- Bytes that can be read one by one are read together. -/
theorem Space.loads_eq {s : Space} :
    ∀ (bytes : List UInt8) (va : Nat), (∀ i, i < bytes.length → s.load (va + i) = bytes[i]?) →
      s.loads va bytes.length = some bytes := by
  intro bytes
  induction bytes with
  | nil =>
    intro va _
    rfl
  | cons b rest ih =>
    intro va hload
    have hfirst : s.load va = some b := hload 0 (by simp)
    have hrest : s.loads (va + 1) rest.length = some rest := by
      refine ih (va + 1) ?_
      intro i hi
      rw [Nat.add_assoc, Nat.add_comm 1 i]
      exact hload (i + 1) (by simpa using hi)
    rw [List.length_cons, Space.loads, hfirst, hrest]
    rfl

/-! ## The process that is written to -/

variable {dstva : Nat} {src : List UInt8} {r : Bool}

/-- The byte at an address of a page that was patched at the address
`dstva`. -/
theorem byteAt_patch (page : Page) (src : List UInt8) (hpage : va / PGSIZE = dstva / PGSIZE) :
    byteAt (patch page (dstva % PGSIZE) src) va =
      if dstva ≤ va then src.getD (va - dstva) (byteAt page va) else byteAt page va := by
  have hle : dstva % PGSIZE ≤ va % PGSIZE ↔ dstva ≤ va := by
    unfold PGSIZE at *
    omega
  have hsub : va % PGSIZE - dstva % PGSIZE = va - dstva := by
    unfold PGSIZE at *
    omega
  show (if dstva % PGSIZE ≤ va % PGSIZE then src.getD (va % PGSIZE - dstva % PGSIZE) _ else _) = _
  rw [hsub]
  by_cases h : dstva ≤ va
  · rw [if_pos h, if_pos (hle.mpr h)]
    rfl
  · rw [if_neg h, if_neg (fun h' => h (hle.mp h'))]
    rfl

/-- The bytes of the process after `copyout`. -/
theorem CopyOut.load_eq (hc : CopyOut L dstva src m pt true m' pt') (h : Backed L m pt) (va : Nat) :
    (spaceOf m' pt').load va =
      if dstva ≤ va ∧ va < dstva + src.length then src[va - dstva]?
      else (spaceOf m pt).load va := by
  generalize hr : true = r at hc
  induction hc with
  | done =>
    rw [if_neg]
    simp only [List.length_nil]
    omega
  | invalid => cases hr
  | oom => cases hr
  | @page dstva src m m1 m' pt pt1 pt' r e f hsrc _ hrep hrest ih =>
    have hlen : 0 < src.length := List.length_pos_iff.mpr hsrc
    rw [ih (hrep.backed h) hr, hrep.load h, List.length_drop]
    by_cases hin : va / PGSIZE = dstva / PGSIZE
    · -- in the first page, which the rest of the copy does not touch
      have hout : ¬ (pgrounddown dstva + PGSIZE ≤ va) := by
        unfold pgrounddown PGSIZE at *
        omega
      rw [if_neg (fun hand => hout hand.1), if_pos hin, byteAt_patch _ _ hin]
      by_cases hle : dstva ≤ va
      · rw [if_pos hle]
        by_cases hlt : va < dstva + src.length
        · have hchunk : va - dstva < chunk dstva src.length := by
            unfold chunk PGSIZE at *
            omega
          rw [if_pos ⟨hle, hlt⟩, List.getD_eq_getElem?_getD, List.getElem?_take_of_lt hchunk,
            List.getElem?_eq_getElem (by omega)]
          rfl
        · have hnone : (src.take (chunk dstva src.length))[va - dstva]? = none :=
            List.getElem?_eq_none (by rw [List.length_take]; omega)
          rw [if_neg (fun hand => hlt hand.2), List.getD_eq_getElem?_getD, hnone,
            load_of_leaf hrep.below hrep.before hrep.user hin]
          rfl
      · rw [if_neg hle, if_neg (fun hand => hle hand.1),
          load_of_leaf hrep.below hrep.before hrep.user hin]
    · rw [if_neg hin]
      have hiff : (pgrounddown dstva + PGSIZE ≤ va ∧
          va < pgrounddown dstva + PGSIZE + (src.length - chunk dstva src.length)) ↔
          (dstva ≤ va ∧ va < dstva + src.length) := by
        unfold chunk pgrounddown PGSIZE at *
        omega
      by_cases hrange : dstva ≤ va ∧ va < dstva + src.length
      · have hlong : dstva + chunk dstva src.length = pgrounddown dstva + PGSIZE := by
          unfold chunk pgrounddown PGSIZE at *
          omega
        rw [if_pos hrange, if_pos (hiff.mpr hrange), List.getElem?_drop, ← hlong]
        congr 1
        have hstart := (hiff.mpr hrange).1
        omega
      · rw [if_neg hrange, if_neg (fun h' => hrange (hiff.mp h'))]

/-- `copyin` returns what `copyout` has copied. -/
theorem CopyOut.copyin_eq (hc : CopyOut L dstva src m pt true m' pt') (h : Backed L m pt)
    (h' : Backed L m' pt') : copyin pt' dstva src.length m' = .ok (some src) := by
  rw [copyin_space h', Space.loads_eq src dstva]
  intro i hi
  rw [hc.load_eq h, if_pos (by omega), Nat.add_sub_cancel_left]

/-! ## The other tables -/

theorem CopyOut.backed (hc : CopyOut L dstva src m pt r m' pt') (h : Backed L m pt) :
    Backed L m' pt' := by
  induction hc with
  | done => exact h
  | invalid => exact h
  | oom => exact ⟨(shift_oom L _ 0).ok h.ok, h.user_below, h.leaves_le⟩
  | page _ _ hr _ ih => exact ih (hr.backed h)

/-- `copyout` only moves the shares of the entries. -/
theorem CopyOut.shift_leaves (hc : CopyOut L dstva src m pt r m' pt') :
    Shift L m m' (leaves pt.leaf) (leaves pt'.leaf) := by
  induction hc with
  | done => exact Shift.refl L _ _
  | invalid => exact Shift.refl L _ _
  | oom => exact shift_oom L _ _
  | page _ _ hr _ ih => exact hr.shift_leaves.trans ih

/-- A table beside the one that is written to keeps its pages. -/
theorem CopyOut.kept_beside {other : PageTable} (hc : CopyOut L dstva src m pt r m' pt')
    (hcov : ∀ f, leaves pt.leaf f + leaves other.leaf f ≤ m.refcnt f) : Kept m m' other := by
  intro v e hv he
  refine hc.shift_leaves.frame ?_
  have h1 := hcov e.ppn
  have h2 := leaves_pos hv he
  omega

/-! ## Families of page tables -/

/-- Page tables whose user pages are counted: a page has at least as many
references as the tables have entries for it. -/
structure RefCounted {ι : Type*} (L : Layout) (m : Mem) (s : Finset ι) (pts : ι → PageTable) :
    Prop where
  ok : Ok L m
  user_below : ∀ i ∈ s, ∀ v e, v < MAXVPN → (pts i).leaf v = some e → e.flags.u = true →
    v < TRAPFRAME
  covered : ∀ f, ∑ i ∈ s, leaves (pts i).leaf f ≤ m.refcnt f

section Family

variable {ι : Type*} {s : Finset ι} {pts : ι → PageTable} {p q : ι}

theorem RefCounted.backed (h : RefCounted L m s pts) (hp : p ∈ s) : Backed L m (pts p) := by
  refine ⟨h.ok, h.user_below p hp, ?_⟩
  intro f
  exact Nat.le_trans
    (Finset.single_le_sum (f := fun i => leaves (pts i).leaf f) (fun _ _ => Nat.zero_le _) hp)
    (h.covered f)

/-- Two tables of the family. -/
theorem RefCounted.two (h : RefCounted L m s pts) (hp : p ∈ s) (hq : q ∈ s) (hne : q ≠ p)
    (f : Frame) : leaves (pts p).leaf f + leaves (pts q).leaf f ≤ m.refcnt f := by
  classical
  have hsub : ({p, q} : Finset ι) ⊆ s := by
    intro i hi
    rw [Finset.mem_insert, Finset.mem_singleton] at hi
    rcases hi with rfl | rfl
    · exact hp
    · exact hq
  have hsum := Finset.sum_le_sum_of_subset (f := fun i => leaves (pts i).leaf f) hsub
  rw [Finset.sum_pair (Ne.symm hne)] at hsum
  exact hsum.trans (h.covered f)

/-- The tables of the processes are counted, in every state that keeps the
invariant of the machine. -/
theorem Sound.refCounted {k : Kernel} {s : Finset Nat} {pts : Nat → PageTable} (h : Sound L k)
    (hpts : ∀ i ∈ s, ∃ P, k.proc i = some P ∧ pts i = P.pagetable) :
    RefCounted L k.mem s pts := by
  refine ⟨h.ok, ?_, ?_⟩
  · intro i hi v e hv he hu
    obtain ⟨P, hP, hpt⟩ := hpts i hi
    rw [hpt] at he
    exact (h.held hP).backed.user_below v e hv he hu
  · intro f
    have hsub : s ⊆ Finset.range NPROC := by
      intro i hi
      obtain ⟨P, hP, _⟩ := hpts i hi
      exact h.mem_range hP
    have hle : ∑ i ∈ s, leaves (pts i).leaf f ≤ procPages k.proc f := by
      calc ∑ i ∈ s, leaves (pts i).leaf f
          ≤ ∑ i ∈ s, pagesOf (k.proc i) f := by
            refine Finset.sum_le_sum ?_
            intro i hi
            obtain ⟨P, hP, hpt⟩ := hpts i hi
            rw [hP, hpt]
            simp only [pagesOf, owned, Pi.add_apply]
            omega
        _ ≤ ∑ i ∈ Finset.range NPROC, pagesOf (k.proc i) f :=
            Finset.sum_le_sum_of_subset hsub
        _ = procPages k.proc f := by unfold procPages total; rfl
    have hcov := h.covered f
    simp only [uses, Pi.add_apply] at hcov
    omega

/-- Take any page tables whose entries are counted.  If `copyout` to one of
them returns 0, `copyin` from the same address returns what was copied, every
other user byte of the table reads as before, and so does every user byte of
every other table. -/
theorem copyout_copyin (h : RefCounted L m s pts) (hp : p ∈ s) (dst : Nat) (src : List UInt8)
    (hrun : copyout L dst src (pts p) m = .ok (true, m', pt')) :
    copyin pt' dst src.length m' = .ok (some src) ∧
      (∀ va, ¬ (dst ≤ va ∧ va < dst + src.length) →
        userByte pt' m' va = userByte (pts p) m va) ∧
      ∀ q ∈ s, q ≠ p → ∀ va, userByte (pts q) m' va = userByte (pts q) m va := by
  have hb := h.backed hp
  obtain ⟨r, m₁, pt₁, hrun₁, hc⟩ := copyout_spec hb dst src
  rw [hrun] at hrun₁
  cases hrun₁
  have hb' := hc.backed hb
  refine ⟨hc.copyin_eq hb hb', ?_, ?_⟩
  · intro va hva
    rw [userByte_eq hb', userByte_eq hb, hc.load_eq hb, if_neg hva]
  · intro q hq hne va
    have hkept := hc.kept_beside (h.two hp hq hne)
    have hcov := hc.shift_leaves
    have hq' : Backed L m' (pts q) := by
      refine ⟨hb'.ok, h.user_below q hq, ?_⟩
      intro f
      have h₁ := hcov.balance f
      have h₂ := h.two hp hq hne f
      omega
    rw [userByte_eq hq', userByte_eq (h.backed hq), hkept.space]

end Family

/-- The first process grows by two pages and forks. -/
def sharedPages : List Action := [⟨0, .sbrk 8192⟩, ⟨0, .fork⟩]

/-- The page table of a process. -/
def tableOf (k : Kernel) (i : Nat) : PageTable :=
  ((k.proc i).map Proc.pagetable).getD (PageTable.empty 0)

/-- Ten bytes, across two of the pages that it shares with its child. -/
theorem copyout_copyin_sharedPages :
    ∃ k m' pt', RefCounted smallLayout k.mem {0, 1} (tableOf k) ∧
      copyout smallLayout 8187 (List.replicate 10 7) (tableOf k 0) k.mem = .ok (true, m', pt') ∧
      copyin pt' 8187 10 m' = .ok (some (List.replicate 10 7)) ∧
      ∀ va, userByte (tableOf k 1) m' va = userByte (tableOf k 1) k.mem va := by
  obtain ⟨k₀, k, hboot, hoom, hreach, hk⟩ := exists_of_observe sharedPages
    (f := fun k =>
      (copyout smallLayout 8187 (List.replicate 10 7) (tableOf k 0) k.mem).toOption.any
        (fun q => q.1 = true ∧ (k.proc 0).isSome ∧ (k.proc 1).isSome)) (by decide +kernel)
  obtain ⟨⟨r, m', pt'⟩, hrun, hk⟩ := exists_ok_of_any hk
  obtain ⟨rfl, h₀, h₁⟩ := of_decide_eq_true hk
  obtain ⟨P, hP⟩ := Option.isSome_iff_exists.mp h₀
  obtain ⟨Q, hQ⟩ := Option.isSome_iff_exists.mp h₁
  have hc : RefCounted smallLayout k.mem {0, 1} (tableOf k) := by
    refine (reach_sound hboot hoom hreach).refCounted ?_
    intro i hi
    rw [Finset.mem_insert, Finset.mem_singleton] at hi
    rcases hi with rfl | rfl
    · exact ⟨P, hP, by rw [tableOf, hP]; rfl⟩
    · exact ⟨Q, hQ, by rw [tableOf, hQ]; rfl⟩
  have hall := copyout_copyin hc (p := 0) (by simp) 8187 (List.replicate 10 7) hrun
  exact ⟨k, m', pt', hc, hrun, hall.1, hall.2.2 1 (by simp) (by decide)⟩

end Xv6.Memory
