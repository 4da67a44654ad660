import Xv6.Memory.Kernel

/-!
# What the calls of a process do

One specification for each call of `Kernel`, as a list of its outcomes.  The
invariants of the machine are read off the outcomes, and no proof about runs
unfolds a call.
-/

namespace Xv6.Memory

open Xv6.Lib Function

variable {L : Layout} {m m' : Mem} {pt pt' : PageTable} {P P' : Proc}

/-! ## `growproc` -/

/-- The outcomes of `growproc`. -/
inductive GrowOutcome (L : Layout) (n : Int) (P : Proc) (m : Mem) : Bool → Proc → Mem → Prop
  | same (hn : n = 0) : GrowOutcome L n P m true P m
  | extended {m' : Mem} {pt' : PageTable} (hn : 0 < n) (hle : P.sz ≤ addSize P.sz n)
      (hb : pages (addSize P.sz n) ≤ TRAPFRAME)
      (hx : Extended L m P.pagetable (userFlags true false) (pages P.sz)
        (pages (addSize P.sz n) - pages P.sz) m' pt') :
      GrowOutcome L n P m true { P with pagetable := pt', sz := addSize P.sz n } m'
  | oom {m' : Mem} {pt' : PageTable} (hoom : m'.oom = true) (hg : Grown L m P.pagetable m' pt') :
      GrowOutcome L n P m false { P with pagetable := pt' } m'
  | shrunk {m' : Mem} {pt' : PageTable} (hn : n < 0)
      (hu : Unmapped L m P.pagetable (pages (addSize P.sz n))
        (pages P.sz - pages (addSize P.sz n)) m' pt') :
      GrowOutcome L n P m true { P with pagetable := pt', sz := min P.sz (addSize P.sz n) } m'

theorem le_of_pages_le {sz n : Nat} (h : pages sz ≤ n) : sz ≤ n * PGSIZE := by
  unfold pages PGSIZE at *
  omega

variable {n : Int} {r : Bool} {fd f : Nat}

/-- A size is far from the end of the address space. -/
theorem addSize_of_pos {sz : Nat} (h : pages sz ≤ PHYSTOP) (hpos : 0 < n) (hn : n < 2 ^ 31) :
    addSize sz n = sz + n.toNat := by
  have hsz := le_of_pages_le h
  have hval : PHYSTOP * PGSIZE = 2281701376 := rfl
  rw [hval] at hsz
  unfold addSize
  omega

theorem growproc_spec (h : Held L m P.pagetable (pages P.sz)) (hn : n < 2 ^ 31) :
    ∃ r P' m', growproc L n P m = .ok (r, P', m') ∧ GrowOutcome L n P m r P' m' := by
  unfold growproc
  by_cases hpos : n > 0
  · rw [if_pos hpos]
    have hadd := addSize_of_pos h.le_PHYSTOP hpos hn
    obtain ⟨r, m', pt', hrun, hcase⟩ := uvmalloc_spec h (addSize P.sz n) true false
    rw [hrun]
    show ∃ r' P' m'', (if r = 0 then _ else _) = _ ∧ _
    rcases hcase with ⟨hlt, _⟩ | ⟨hle, rfl, hb, hx⟩ | ⟨_, hr, hoom, hg⟩
    · omega
    · exact ⟨true, _, m', if_neg (by omega), .extended hpos hle hb hx⟩
    · exact ⟨false, _, m', if_pos hr, .oom hoom hg⟩
  rw [if_neg hpos]
  by_cases hneg : n < 0
  · rw [if_pos hneg]
    obtain ⟨m', pt', hrun, hu⟩ := uvmdealloc_spec P.sz (addSize P.sz n) h
    refine ⟨true, _, m', ?_, .shrunk hneg hu⟩
    rw [hrun]
    rfl
  · rw [if_neg hneg]
    exact ⟨true, P, m, rfl, .same (by omega)⟩

theorem Grown.shift_owned (hg : Grown L m pt m' pt') : Shift L m m' (owned pt) (owned pt') := by
  obtain ⟨d, hs, ht⟩ := hg.shift
  refine (hs.add (owned pt)).congr ?_ ?_
  · intro f
    simp
  · intro f
    simp only [owned, ht, hg.leaf, Pi.add_apply]
    omega

theorem Extended.shift_owned {flags : Flags} {base k : Nat}
    (hx : Extended L m pt flags base k m' pt') : Shift L m m' (owned pt) (owned pt') := by
  obtain ⟨dt, dl, hs, ht, hl⟩ := hx.shift
  refine (hs.add (owned pt)).congr ?_ ?_
  · intro f
    simp
  · intro f
    simp only [owned, ht, hl, Pi.add_apply]
    omega

theorem Unmapped.shift_owned {v k : Nat} (hu : Unmapped L m pt v k m' pt') :
    Shift L m m' (owned pt) (owned pt') := by
  obtain ⟨c, hs, hc⟩ := hu.shift
  refine (hs.add (owned pt')).congr ?_ ?_
  · intro f
    simp only [owned, hc, hu.tables, Pi.add_apply]
    omega
  · intro f
    simp

theorem pages_min (a b : Nat) : pages (min a b) = min (pages a) (pages b) := by
  rcases Nat.le_total a b with hle | hle
  · rw [Nat.min_eq_left hle, Nat.min_eq_left (pages_mono hle)]
  · rw [Nat.min_eq_right hle, Nat.min_eq_right (pages_mono hle)]

/-- `growproc` moves only the shares of the image. -/
theorem GrowOutcome.shift (ho : GrowOutcome L n P m r P' m') :
    Shift L m m' (owned P.pagetable) (owned P'.pagetable) := by
  cases ho with
  | same => exact Shift.refl L _ _
  | extended _ _ _ hx => exact hx.shift_owned
  | oom _ hg => exact hg.shift_owned
  | shrunk _ hu => exact hu.shift_owned

theorem GrowOutcome.held (ho : GrowOutcome L n P m r P' m') (h : Held L m P.pagetable (pages P.sz))
    : Held L m' P'.pagetable (pages P'.sz) := by
  cases ho with
  | same => exact h
  | extended _ hle hb hx =>
    have hpages := Nat.add_sub_cancel' (pages_mono hle)
    have := hx.held h rfl (by rw [hpages]; exact hb)
    rwa [hpages] at this
  | oom _ hg => exact hg.held h
  | shrunk _ hu =>
    have := hu.held h
    rwa [← pages_min] at this

theorem GrowOutcome.rest (ho : GrowOutcome L n P m r P' m') :
    P'.trapframe = P.trapframe ∧ P'.ofile = P.ofile ∧ P'.zombie = P.zombie := by
  cases ho <;> exact ⟨rfl, rfl, rfl⟩

theorem GrowOutcome.renewed (ho : GrowOutcome L n P m r P' m') (a : Frame → Nat) :
    Renewed (Elsewhere m a) P.pagetable P'.pagetable := by
  cases ho with
  | same => exact .of_leaf rfl
  | extended _ _ _ hx => exact hx.renewed
  | oom _ hg => exact .of_leaf hg.leaf
  | shrunk _ hu => exact hu.renewed _

/-! ## Stores -/

/-- The outcomes of a store. -/
inductive StoreOutcome (L : Layout) (va : Nat) (b : UInt8) (m : Mem) (pt : PageTable) :
    Bool → Mem → PageTable → Prop
  | direct {m' : Mem} (h : userStore pt va b m = some m') : StoreOutcome L va b m pt true m' pt
  | invalid (hfault : userStore pt va b m = none) (h : ¬ Cowable pt va) :
      StoreOutcome L va b m pt false m pt
  | oom (hfault : userStore pt va b m = none) (h : Cowable pt va) :
      StoreOutcome L va b m pt false { m with oom := true } pt
  | copied {e : Pte} {f : Frame} {m' : Mem} {pt' : PageTable}
      (hfault : userStore pt va b m = none) (h : Cowable pt va)
      (hr : Replaced L m pt (va / PGSIZE) e f (patch (m.bytes e.ppn) (va % PGSIZE) [b]) m' pt') :
      StoreOutcome L va b m pt true m' pt'

theorem faultStore_spec {m : Mem} {pt : PageTable} {n : Nat} (h : Held L m pt n) (va : Nat)
    (b : UInt8) :
    ∃ r m' pt', faultStore L va b pt m = .ok (r, m', pt') ∧
      StoreOutcome L va b m pt r m' pt' := by
  unfold faultStore
  cases hfault : userStore pt va b m with
  | some m' => exact ⟨true, m', pt, rfl, .direct hfault⟩
  | none =>
    obtain ⟨r, m1, pt1, hrun, hout⟩ := cowHandler_spec h.backed va
    dsimp only
    rw [hrun]
    cases hout with
    | invalid hc => exact ⟨false, m, pt, rfl, .invalid hfault hc⟩
    | oom hc => exact ⟨false, _, pt, rfl, .oom hfault hc⟩
    | copied hc hr =>
      rename_i e f
      have hat : pt1.leaf (va / PGSIZE) = some (e.copied f) := by
        rw [hr.leaf, update_self]
      have hpage : m1.bytes f = m.bytes e.ppn := hr.page
      have hretry : userStore pt1 va b m1 =
          some (m1.write f (patch (m1.bytes f) (va % PGSIZE) [b])) := by
        rw [userStore, if_neg (by have := hc.1; omega), hat]
        rfl
      have hw := hr.write (patch (m.bytes e.ppn) (va % PGSIZE) [b])
      refine ⟨true, _, pt1, ?_, .copied hfault hc hw⟩
      dsimp only [bind, Except.bind]
      rw [hretry, hpage]
      rfl

/-- A store without a fault. -/
theorem userStore_some {pt : PageTable} {va : Nat} {b : UInt8} {m m' : Mem}
    (h : userStore pt va b m = some m') :
    ∃ e, pt.leaf (va / PGSIZE) = some e ∧ va < MAXVA ∧ e.flags.u = true ∧ e.flags.w = true ∧
      m' = m.write e.ppn (patch (m.bytes e.ppn) (va % PGSIZE) [b]) := by
  unfold userStore at h
  split at h
  · cases h
  · split at h
    · cases h
    · rename_i e he
      split at h
      · rename_i hu
        rw [Bool.and_eq_true] at hu
        cases h
        exact ⟨e, he, by omega, hu.1, hu.2, rfl⟩
      · cases h

/-! ## `allocproc` and `freeproc` -/

theorem freeSlot_some {proc : Nat → Option Proc} {i : Nat} (h : freeSlot proc = some i) :
    i < NPROC ∧ proc i = none := by
  refine ⟨List.mem_range.mp (List.mem_of_find?_eq_some h), ?_⟩
  simpa using List.find?_some h

/-- `allocproc` takes four pages, or leaves everything as it was. -/
theorem allocproc_spec (proc : Nat → Option Proc) (hok : Ok L m) :
    ∃ r m', allocproc L proc m = .ok (r, m') ∧
      ((r = none ∧ Shift L m m' 0 0 ∧
          (freeSlot proc = none ∨ m'.oom = true ∧ m.freelist.length < 4)) ∨
        ∃ i tf pt, r = some (i, tf, pt) ∧ freeSlot proc = some i ∧ Fresh pt ∧
          Shift L m m' 0 (tables pt + one tf) ∧ m'.freelist.length + 4 = m.freelist.length) := by
  unfold allocproc
  cases hslot : freeSlot proc with
  | none => exact ⟨none, m, rfl, Or.inl ⟨rfl, Shift.refl L m 0, Or.inl rfl⟩⟩
  | some i =>
    dsimp only
    cases hfree : m.freelist with
    | nil =>
      refine ⟨none, { m with oom := true }, ?_,
        Or.inl ⟨rfl, shift_oom L m 0, Or.inr ⟨rfl, by simp⟩⟩⟩
      rw [kalloc_none hfree]
      rfl
    | cons tf rest =>
      obtain ⟨m1, hrun1, ha⟩ := kalloc_some hok hfree
      have hlen : m1.freelist.length + 1 = m.freelist.length := by
        rw [ha.freelist]
        rfl
      rw [hfree] at hlen
      obtain ⟨r2, m2, hrun2, hcase⟩ := procPagetable_spec tf (ha.shift.ok hok)
      rw [hrun1]
      show ∃ r m', (procPagetable L tf m1 >>= _) = _ ∧ _
      rw [hrun2]
      rcases hcase with ⟨rfl, hs2, hoom2, hfew⟩ | ⟨pt, rfl, hf, hs2, hlen2⟩
      · have hback : Shift L m m2 0 (one tf) := by
          refine (ha.shift.acquire hs2).congr (fun _ => rfl) ?_
          intro f
          simp
        obtain ⟨m3, hrun3, hs3, _, hoom3⟩ := kfree_spec (hback.ok hok) (f := tf) (by
          have := hback.balance tf
          rw [one_self, Pi.zero_apply] at this
          omega)
        refine ⟨none, m3, ?_, Or.inl ⟨rfl, hback.trans hs3, Or.inr ⟨hoom3.trans hoom2, ?_⟩⟩⟩
        · show (kfree L tf m2 >>= _) = _
          rw [hrun3]
          rfl
        · omega
      · refine ⟨some (i, tf, pt), m2, rfl, Or.inr ⟨i, tf, pt, rfl, rfl, hf, ?_, by omega⟩⟩
        refine (ha.shift.acquire hs2).congr (fun _ => rfl) ?_
        intro f
        simp [Nat.add_comm]

/-- `freeproc` gives back all pages of a process. -/
theorem freeproc_spec (tf : Frame) (sz : Nat) (hok : Ok L m) (hb : pages sz ≤ TRAPFRAME)
    (himg : Image pt (pages sz)) (hcov : ∀ f, (owned pt + one tf) f ≤ m.refcnt f) :
    ∃ m', freeproc L tf pt sz m = .ok m' ∧ Shift L m m' (owned pt + one tf) 0 ∧
      m'.oom = m.oom := by
  obtain ⟨m1, hrun1, hs1, _, hoom1⟩ := kfree_spec hok (f := tf) (by
    have := hcov tf
    rw [Pi.add_apply, one_self] at this
    omega)
  obtain ⟨m2, hrun2, hs2, hoom2⟩ := procFreepagetable_spec (hs1.ok hok) hb himg (fun f => by
    have h1 := hcov f
    have h2 := hs1.balance f
    simp only [Pi.add_apply, Pi.zero_apply] at h1 h2
    omega)
  refine ⟨m2, ?_, ?_, hoom2.trans hoom1⟩
  · rw [freeproc, hrun1]
    exact hrun2
  · rw [add_comm]
    exact hs1.release hs2

/-! ## `fork` -/

/-- The entries below page `i` have lost `PTE_W`. -/
def Protected (old old' : PageTable) (i : Nat) : Prop :=
  ∀ v, old'.leaf v = if v < i then (old.leaf v).map Pte.protect else old.leaf v

/-- The memory of a parent and of its child after `fork`. -/
structure Forked (L : Layout) (m : Mem) (old : PageTable) (n : Nat) (tf : Frame) (m' : Mem)
    (old' new : PageTable) : Prop where
  shift : Shift L m m' 0 (owned new + one tf)
  parent : Protected old old' n
  tables : tables old' = tables old
  image : Image new n
  child : ∀ v, v < TRAPFRAME → new.leaf v = (old.leaf v).map Pte.protect

/-- The outcomes of `fork`. -/
inductive ForkOutcome (L : Layout) (p : Nat) (P : Proc) (k : Kernel) : Reply → Kernel → Prop
  | noProc {m' : Mem} (hs : Shift L k.mem m' 0 0)
      (hwhy : freeSlot k.proc = none ∨ m'.oom = true ∧ k.mem.freelist.length < 4) :
      ForkOutcome L p P k .fail { k with mem := m' }
  | noTable {m' : Mem} {old' : PageTable} {pa : Frame} {slot i : Nat}
      (hslot : freeSlot k.proc = some slot) (hmin : 4 ≤ k.mem.freelist.length)
      (hfew : k.mem.freelist.length < 4 + tableCost (pages P.sz))
      (hs : Shift L k.mem m' 0 (one pa)) (hparent : Protected P.pagetable old' i)
      (htables : tables old' = tables P.pagetable) (hoom : m'.oom = true) :
      ForkOutcome L p P k .fail
        ({ k with mem := m' }.setProc p (some { P with pagetable := old' }))
  | done {m' : Mem} {old' new : PageTable} {tf : Frame} {slot : Nat} {files' : Files}
      (hslot : freeSlot k.proc = some slot)
      (henough : 4 + tableCost (pages P.sz) ≤ k.mem.freelist.length)
      (hfork : Forked L k.mem P.pagetable (pages P.sz) tf m' old' new)
      (hdup : dupFiles P.ofile k.files = .ok files') :
      ForkOutcome L p P k .done
        (({ k with mem := m', files := files' }.setProc p
          (some { P with pagetable := old' })).setProc slot
            (some ⟨new, tf, P.sz, p, P.ofile, false, 0⟩))

theorem Protected.renewed {old old' : PageTable} {i : Nat} (h : Protected old old' i)
    (others : Frame → Prop) : Renewed others old old' := by
  intro v e' _ he' _
  rw [h] at he'
  split at he'
  · obtain ⟨e, he, rfl⟩ := Option.map_eq_some_iff.mp he'
    exact ⟨e, he, rfl, fun hw => by cases hw⟩
  · exact ⟨e', he', rfl, id⟩

theorem Copied.forked {m1 : Mem} {old old' new new' : PageTable} {n : Nat} {tf : Frame}
    (hc : Copied L m1 old new n m' old' new') (h : Held L m1 old n) (hf : Fresh new)
    (hs : Shift L m m1 0 (tables new + one tf)) : Forked L m old n tf m' old' new' := by
  obtain ⟨dt, dl, hs2, ht, hl⟩ := hc.shift
  refine ⟨(hs.acquire hs2).congr (fun _ => rfl) ?_, hc.old_leaf, hc.old_tables,
    hc.new_image h hf, ?_⟩
  · intro f
    have hzero : leaves new.leaf = 0 :=
      leaves_of_none (fun v hv => hf.image.none hv (Nat.zero_le v))
    simp only [owned, ht, hl, hzero, Pi.add_apply, Pi.zero_apply]
    omega
  · intro v hv
    rw [hc.new_leaf]
    by_cases hlt : v < n
    · rw [if_pos hlt]
    · rw [if_neg hlt, hf.image.none hv (Nat.zero_le v), h.image.none hv (by omega)]
      rfl

theorem fork_spec {k : Kernel} {p : Nat} {files' : Files}
    (h : Held L k.mem P.pagetable (pages P.sz)) (hdup : dupFiles P.ofile k.files = .ok files') :
    ∃ r k', fork L p P k = .ok (r, k') ∧ ForkOutcome L p P k r k' := by
  obtain ⟨r1, m1, hrun1, hcase⟩ := allocproc_spec k.proc h.ok
  unfold fork
  rw [hrun1]
  rcases hcase with ⟨rfl, hs, hwhy⟩ | ⟨slot, tf, pt, rfl, hslot, hf, hs, hlen⟩
  · exact ⟨.fail, _, rfl, .noProc hs hwhy⟩
  have h1 := h.acquire hs
  obtain ⟨r2, m2, old', new', hrun2, hcopy⟩ := uvmcopy_spec h1 hf
  show ∃ r k', (uvmcopy L P.pagetable pt P.sz m1 >>= _) = _ ∧ _
  rw [hrun2]
  rcases hcopy with ⟨rfl, hc⟩ | ⟨rfl, hfail, hfew⟩
  · have hcost := hc.freelist
    refine ⟨.done, _, ?_, .done hslot (by omega) (hc.forked h1 hf hs) hdup⟩
    show (dupFiles P.ofile k.files >>= _) = _
    rw [hdup]
    rfl
  · obtain ⟨pa, dt, hs2, ht⟩ := hfail.shift
    obtain ⟨i, _, hparent⟩ := hfail.old_leaf
    have himg : Image new' 0 := by
      refine ⟨?_, ?_, ?_, ?_, ?_⟩ <;> rw [hfail.new_leaf]
      exacts [hf.image.mapped, hf.image.readable, hf.image.top, hf.image.high,
        hf.image.distinct]
    have howned : owned new' = tables pt + dt := by
      rw [owned, ht, leaves_of_none (fun v hv => himg.none hv (Nat.zero_le v)), add_zero]
    have hboth : Shift L k.mem m2 0 (one pa + (owned new' + one tf)) := by
      refine (hs.acquire hs2).congr (fun _ => rfl) ?_
      intro f
      rw [howned]
      simp only [Pi.add_apply]
      omega
    obtain ⟨m3, hrun3, hs3, hoom3⟩ := freeproc_spec tf 0 (hboth.ok h.ok) (Nat.zero_le _) himg
      (fun f => by
        have := hboth.balance f
        simp only [Pi.add_apply, Pi.zero_apply] at this ⊢
        omega)
    have hleak : Shift L k.mem m3 0 (one pa) := by
      refine hboth.trans ((hs3.add (one pa)).congr ?_ ?_)
      · intro f
        simp [Nat.add_comm]
      · intro f
        simp
    refine ⟨.fail, _, ?_, .noTable hslot (by omega) (by omega) hleak hparent
      hfail.old_tables (hoom3.trans hfail.oom)⟩
    show (freeproc L tf new' 0 m2 >>= _) = _
    rw [hrun3]
    rfl

/-! ## Open files -/

section Open

variable {fs fs' : Files} {others : Nat → Nat} {ofile : Nat → Option Nat}

/-- The references of a table of open files. -/
def fds (ofile : Nat → Option Nat) : Nat → Nat := tally (Finset.range NOFILE) ofile

theorem fds_none (h : ∀ fd, ofile fd = none) : fds ofile = 0 := by
  unfold fds
  exact tally_none (fun fd _ => h fd)

theorem fds_pos (hfd : fd < NOFILE) (h : ofile fd = some f) : 1 ≤ fds ofile f :=
  tally_pos (Finset.mem_range.mpr hfd) h

theorem fds_clear (hfd : fd < NOFILE) (h : ofile fd = some f) :
    fds ofile = fds (update ofile fd none) + one f :=
  tally_clear (Finset.mem_range.mpr hfd) h

theorem fdalloc_some {ofile' : Nat → Option Nat} (h : fdalloc f ofile = some (fd, ofile')) :
    fd < NOFILE ∧ fds ofile' = fds ofile + one f ∧
      ∀ fd', NOFILE ≤ fd' → ofile' fd' = ofile fd' := by
  obtain ⟨fd', hfind, heq⟩ := Option.map_eq_some_iff.mp h
  cases heq
  have hlt : fd < NOFILE := List.mem_range.mp (List.mem_of_find?_eq_some hfind)
  have hnone : ofile fd = none := by simpa using List.find?_some hfind
  refine ⟨hlt, tally_set (Finset.mem_range.mpr hlt) hnone, ?_⟩
  intro fd' hfd'
  exact update_of_ne (by omega) _ _

/-- The loop of `fork` over the open files. -/
theorem dupFiles_spec (ofile : Nat → Option Nat) {refs : Nat → Nat} (hc : Counts fs refs)
    (hpos : ∀ fd f, fd < NOFILE → ofile fd = some f → 1 ≤ refs f) :
    ∃ fs', dupFiles ofile fs = .ok fs' ∧ Counts fs' (refs + fds ofile) ∧ pipes fs' = pipes fs := by
  unfold dupFiles fds
  refine foldlM_range (I := fun i fs1 =>
    Counts fs1 (refs + tally (Finset.range i) ofile) ∧ pipes fs1 = pipes fs) NOFILE ?_ ⟨?_, rfl⟩
  · rintro i fs1 hi ⟨hc1, hp1⟩
    have hsucc := tally_range_succ (p := ofile) i
    cases hfile : ofile i with
    | none =>
      refine ⟨fs1, rfl, ?_, hp1⟩
      have heq : tally (Finset.range (i + 1)) ofile = tally (Finset.range i) ofile := by
        funext f
        rw [hsucc, hfile]
        simp
      rw [heq]
      exact hc1
    | some f =>
      obtain ⟨fs2, hrun, hc2, hp2⟩ := filedup_spec (f := f) hc1
        ((hpos i f hi hfile).trans (Nat.le_add_right _ _))
      refine ⟨fs2, hrun, ?_, ?_⟩
      · have heq : refs + tally (Finset.range (i + 1)) ofile =
            refs + tally (Finset.range i) ofile + one f := by
          funext g
          have hg := hsucc g
          rw [hfile, show (if some f = some g then 1 else 0) = one f g by
            simp only [one, Option.some.injEq, eq_comm]] at hg
          simp only [Pi.add_apply, hg]
          omega
        rw [heq]
        exact hc2
      · rw [← hp1]
        unfold pipes
        rw [hp2]
  · rw [tally_range_zero, add_zero]
    exact hc

/-- The loop of `exit` over the open files. -/
theorem closeFiles_spec (hok : Ok L m) (hc : Counts fs (others + fds ofile))
    (hcov : ∀ f, pipes fs f ≤ m.refcnt f) :
    ∃ fs' m', closeFiles L ofile fs m = .ok (fs', m') ∧ Counts fs' others ∧
      Shift L m m' (pipes fs) (pipes fs') := by
  -- `left` are the references of the files that are not closed yet
  suffices hloop : ∃ q : Files × Mem, closeFiles L ofile fs m = .ok q ∧
      ∃ left, left + tally (Finset.range NOFILE) ofile = fds ofile ∧
        Counts q.1 (others + left) ∧ Shift L m q.2 (pipes fs) (pipes q.1) by
    obtain ⟨⟨fs', m'⟩, hrun, left, hleft, hc', hs⟩ := hloop
    have hzero : left = 0 := add_right_cancel (hleft.trans (zero_add _).symm)
    rw [hzero, add_zero] at hc'
    exact ⟨fs', m', hrun, hc', hs⟩
  · have hzero : fds ofile + tally (Finset.range 0) ofile = fds ofile := by
      rw [tally_range_zero, add_zero]
    unfold closeFiles
    refine foldlM_range (I := fun i (q : Files × Mem) =>
      ∃ left, left + tally (Finset.range i) ofile = fds ofile ∧
        Counts q.1 (others + left) ∧ Shift L m q.2 (pipes fs) (pipes q.1)) NOFILE ?_
      ⟨fds ofile, hzero, hc, Shift.refl L m _⟩
    rintro i ⟨fs1, m1⟩ hi ⟨left, hleft, hc1, hs1⟩
    have hsucc := tally_range_succ (p := ofile) i
    cases hfile : ofile i with
    | none =>
      refine ⟨(fs1, m1), rfl, left, ?_, hc1, hs1⟩
      rw [← hleft]
      funext f
      rw [Pi.add_apply, hsucc, hfile]
      simp
    | some f =>
      have hle : tally (Finset.range (i + 1)) ofile f ≤ fds ofile f :=
        tally_mono (Finset.range_mono hi) f
      have hpos : 1 ≤ left f := by
        have h1 := congrFun hleft f
        rw [hsucc, hfile, if_pos rfl] at hle
        rw [Pi.add_apply] at h1
        omega
      have hsplit : left = (fun g => left g - one f g) + one f := by
        funext g
        by_cases hg : g = f
        · rw [Pi.add_apply, hg, one_self]
          omega
        · rw [Pi.add_apply, one_of_ne hg]
          rfl
      rw [hsplit, ← add_assoc] at hc1
      obtain ⟨fs2, m2, hrun, hc2, hs2⟩ := fileclose_spec (hs1.ok hok) hc1
        (covered_of_shift hs1 hcov)
      refine ⟨(fs2, m2), hrun, _, ?_, hc2, hs1.trans hs2⟩
      funext g
      have h1 := congrFun hleft g
      have h2 := congrFun hsplit g
      have h3 : (if some f = some g then 1 else 0) = one f g := by
        simp only [one, Option.some.injEq, eq_comm]
      rw [Pi.add_apply, hsucc, hfile, h3, ← h1]
      simp only [Pi.add_apply] at h2 ⊢
      omega

/-- A call on the open files starts here: `others` are the references of
the other processes. -/
structure Filed (L : Layout) (P : Proc) (fs : Files) (m : Mem) (others : Nat → Nat) : Prop where
  held : Held L m P.pagetable (pages P.sz)
  covered : ∀ f, (pipes fs + owned P.pagetable) f ≤ m.refcnt f
  counts : Counts fs (others + fds P.ofile)
  ofile : ∀ fd, NOFILE ≤ fd → P.ofile fd = none

/-- And it ends here. -/
structure FileCall (L : Layout) (P : Proc) (fs : Files) (m : Mem) (others : Nat → Nat)
    (P' : Proc) (fs' : Files) (m' : Mem) : Prop where
  shift : Shift L m m' (pipes fs + owned P.pagetable) (pipes fs' + owned P'.pagetable)
  filed : Filed L P' fs' m' others
  renewed : Renewed (Elsewhere m (pipes fs + owned P.pagetable)) P.pagetable P'.pagetable
  trapframe : P'.trapframe = P.trapframe
  zombie : P'.zombie = P.zombie

theorem Filed.pipes_le (h : Filed L P fs m others) (f : Frame) : pipes fs f ≤ m.refcnt f :=
  (Nat.le_add_right _ _).trans (h.covered f)

theorem Filed.refl (h : Filed L P fs m others) : FileCall L P fs m others P fs m :=
  ⟨Shift.refl L m _, h, .of_leaf rfl, rfl, rfl⟩

/-- Only the files and their pipes change. -/
theorem Filed.filesOnly (h : Filed L P fs m others) {ofile' : Nat → Option Nat}
    (hs : Shift L m m' (pipes fs) (pipes fs')) (hc : Counts fs' (others + fds ofile'))
    (hof : ∀ fd, NOFILE ≤ fd → ofile' fd = none) :
    FileCall L P fs m others { P with ofile := ofile' } fs' m' := by
  have hs' := hs.add (owned P.pagetable)
  have hcov := covered_of_shift hs' h.covered
  refine ⟨hs', ⟨⟨hs.ok h.held.ok, h.held.image, ?_, h.held.bound⟩, hcov, hc, hof⟩,
    .of_leaf rfl, rfl, rfl⟩
  intro f
  exact (Nat.le_add_left _ _).trans (hcov f)

theorem openFile_spec (h : Filed L P fs m others) :
    ∃ r P' fs' m', openFile L P fs m = .ok (r, P', fs', m') ∧
      FileCall L P fs m others P' fs' m' := by
  unfold openFile
  rcases filealloc_spec h.counts with h0 | ⟨f, fs1, h0, _, hc1, hp1, _⟩
  · rw [h0]
    exact ⟨.fail, P, fs, m, rfl, h.refl⟩
  have hpipes : pipes fs1 = pipes fs := by
    unfold pipes
    rw [hp1]
  rw [h0]
  dsimp only
  cases hfd : fdalloc f P.ofile with
  | none =>
    obtain ⟨fs', m', hrun, hc, hs⟩ := fileclose_spec h.held.ok hc1
      (by rw [hpipes]; exact h.pipes_le)
    rw [hpipes] at hs
    refine ⟨.fail, P, fs', m', ?_, h.filesOnly hs hc h.ofile⟩
    dsimp only
    rw [hrun]
    rfl
  | some q =>
    obtain ⟨fd, ofile'⟩ := q
    obtain ⟨_, hfds, hof⟩ := fdalloc_some hfd
    refine ⟨.done, _, fs1, m, rfl, h.filesOnly ?_ ?_ ?_⟩
    · rw [hpipes]
      exact Shift.refl L m _
    · rw [hfds, ← add_assoc]
      exact hc1
    · intro fd' hfd'
      rw [hof fd' hfd']
      exact h.ofile fd' hfd'

theorem argfd_some (h : argfd P fd = some f) : fd < NOFILE ∧ P.ofile fd = some f := by
  unfold argfd at h
  split at h
  · exact ⟨by assumption, h⟩
  · cases h

theorem sysDup_spec (h : Filed L P fs m others) (fd : Nat) :
    ∃ r P' fs', sysDup P fd fs = .ok (r, P', fs') ∧ FileCall L P fs m others P' fs' m := by
  unfold sysDup
  cases hfd : argfd P fd with
  | none => exact ⟨.fail, P, fs, rfl, h.refl⟩
  | some f =>
    obtain ⟨hlt, hfile⟩ := argfd_some hfd
    dsimp only
    cases halloc : fdalloc f P.ofile with
    | none => exact ⟨.fail, P, fs, rfl, h.refl⟩
    | some q =>
      obtain ⟨fd', ofile'⟩ := q
      obtain ⟨_, hfds, hof⟩ := fdalloc_some halloc
      obtain ⟨fs', hrun, hc, hp⟩ := filedup_spec (f := f) h.counts
        ((fds_pos hlt hfile).trans (Nat.le_add_left _ _))
      have hpipes : pipes fs' = pipes fs := by
        unfold pipes
        rw [hp]
      refine ⟨.done, { P with ofile := ofile' }, fs', ?_, h.filesOnly ?_ ?_ ?_⟩
      · dsimp only
        rw [hrun]
        rfl
      · rw [hpipes]
        exact Shift.refl L m _
      · rw [hfds, ← add_assoc]
        exact hc
      · intro fd'' hfd''
        rw [hof fd'' hfd'']
        exact h.ofile fd'' hfd''

theorem sysClose_spec (h : Filed L P fs m others) (fd : Nat) :
    ∃ r P' fs' m', sysClose L P fd fs m = .ok (r, P', fs', m') ∧
      FileCall L P fs m others P' fs' m' := by
  unfold sysClose
  cases hfd : argfd P fd with
  | none => exact ⟨.fail, P, fs, m, rfl, h.refl⟩
  | some f =>
    obtain ⟨hlt, hfile⟩ := argfd_some hfd
    have hcounts := h.counts
    rw [fds_clear hlt hfile, ← add_assoc] at hcounts
    obtain ⟨fs', m', hrun, hc, hs⟩ := fileclose_spec h.held.ok hcounts h.pipes_le
    refine ⟨.done, { P with ofile := update P.ofile fd none }, fs', m', ?_,
      h.filesOnly hs hc ?_⟩
    · dsimp only
      rw [hrun]
      rfl
    · intro fd' hfd'
      rw [update_of_ne (by omega)]
      exact h.ofile fd' hfd'

/-- The references that `pipealloc` made are given back. -/
theorem closePipe_spec (h : Filed L P fs m others) (P1 : Proc) {fs1 : Files} {m1 : Mem}
    {rf wf : Nat} (hs1 : Shift L m m1 (pipes fs + owned P.pagetable)
      (pipes fs1 + owned P1.pagetable))
    (hheld : Held L m1 P1.pagetable (pages P1.sz))
    (hr : Renewed (Elsewhere m (pipes fs + owned P.pagetable)) P.pagetable P1.pagetable)
    (htf : P1.trapframe = P.trapframe)
    (hz : P1.zombie = P.zombie) (hofile : P1.ofile = P.ofile)
    (hc1 : Counts fs1 (others + fds P.ofile + one rf + one wf)) :
    ∃ r P' fs' m', closePipe L rf wf P1 fs1 m1 = .ok (r, P', fs', m') ∧
      FileCall L P fs m others P' fs' m' := by
  have hcov1 := covered_of_shift hs1 h.covered
  rw [add_right_comm] at hc1
  obtain ⟨fs2, m2, hrun2, hc2, hs2⟩ := fileclose_spec hheld.ok hc1
    (fun f => (Nat.le_add_right _ _).trans (hcov1 f))
  have hs2' := hs2.add (owned P1.pagetable)
  have hcov2 := covered_of_shift hs2' hcov1
  obtain ⟨fs3, m3, hrun3, hc3, hs3⟩ := fileclose_spec (hs2.ok hheld.ok) hc2
    (fun f => (Nat.le_add_right _ _).trans (hcov2 f))
  have hs3' := hs3.add (owned P1.pagetable)
  have hcov3 := covered_of_shift hs3' hcov2
  refine ⟨.fail, P1, fs3, m3, ?_, hs1.trans (hs2'.trans hs3'), ⟨?_, hcov3, ?_, ?_⟩, hr, htf, hz⟩
  · rw [closePipe, hrun2]
    show (fileclose L wf fs2 m2 >>= _) = _
    rw [hrun3]
    rfl
  · exact ⟨hs3.ok (hs2.ok hheld.ok), hheld.image,
      fun f => (Nat.le_add_left _ _).trans (hcov3 f), hheld.bound⟩
  · rw [hofile]
    exact hc3
  · rw [hofile]
    exact h.ofile

theorem sysPipe_spec (h : Filed L P fs m others) (fdarray : Nat) :
    ∃ r P' fs' m', sysPipe L P fdarray fs m = .ok (r, P', fs', m') ∧
      FileCall L P fs m others P' fs' m' := by
  obtain ⟨r1, fs1, m1, hrun1, hs1, hcase⟩ := pipealloc_spec h.held.ok h.counts h.pipes_le
  have hs1' := hs1.add (owned P.pagetable)
  have hcov1 := covered_of_shift hs1' h.covered
  have hheld1 : Held L m1 P.pagetable (pages P.sz) :=
    ⟨hs1.ok h.held.ok, h.held.image, fun f => (Nat.le_add_left _ _).trans (hcov1 f),
      h.held.bound⟩
  unfold sysPipe
  rw [hrun1]
  rcases hcase with ⟨rfl, hc⟩ | ⟨rf, wf, rfl, _, _, hc⟩
  · exact ⟨.fail, P, fs1, m1, rfl, h.filesOnly hs1 hc h.ofile⟩
  show ∃ r P' fs' m', installPipe L P fdarray rf wf fs1 m1 = _ ∧ _
  unfold installPipe
  cases hfd0 : fdalloc rf P.ofile with
  | none => exact closePipe_spec h P hs1' hheld1 (.of_leaf rfl) rfl rfl rfl hc
  | some q0 =>
    obtain ⟨fd0, ofile0⟩ := q0
    dsimp only
    cases hfd1 : fdalloc wf ofile0 with
    | none => exact closePipe_spec h P hs1' hheld1 (.of_leaf rfl) rfl rfl rfl hc
    | some q1 =>
      obtain ⟨fd1, ofile1⟩ := q1
      obtain ⟨_, hfds0, hof0⟩ := fdalloc_some hfd0
      obtain ⟨_, hfds1, hof1⟩ := fdalloc_some hfd1
      -- a copy moves only the shares of the image
      have hmove : ∀ {m2 : Mem} {pt2 : PageTable}, Shift L m1 m2 (owned P.pagetable) (owned pt2) →
          Shift L m m2 (pipes fs + owned P.pagetable) (pipes fs1 + owned pt2) := by
        intro m2 pt2 hs2
        refine hs1'.trans ((hs2.add (pipes fs1)).congr ?_ ?_)
        · intro f
          simp [Nat.add_comm]
        · intro f
          simp [Nat.add_comm]
      have hrest : ∀ {m2 : Mem} {pt2 : PageTable}, Shift L m1 m2 (owned P.pagetable) (owned pt2) →
          ∀ f, Elsewhere m (pipes fs + owned P.pagetable) f → Elsewhere m2 (owned pt2) f := by
        intro m2 pt2 hs2 f hf
        have := elsewhere_shift (hmove hs2) hf
        simp only [Elsewhere, Pi.add_apply] at this ⊢
        omega
      obtain ⟨r2, m2, pt2, hrun2, hc2⟩ := copyout_spec hheld1.backed fdarray (le32 fd0)
      have hheld2 := hc2.held hheld1
      have hr2 := hc2.renewed.mono (hrest (Shift.refl L _ _))
      dsimp only
      rw [hrun2]
      show ∃ r P' fs' m', (if r2 then _ else _) = _ ∧ _
      cases r2 with
      | false =>
        exact closePipe_spec h { P with pagetable := pt2 } (hmove hc2.shift) hheld2 hr2 rfl rfl rfl
          hc
      | true =>
        obtain ⟨r3, m3, pt3, hrun3, hc3⟩ :=
          copyout_spec hheld2.backed ((fdarray + 4) % 2 ^ 64) (le32 fd1)
        have hheld3 := hc3.held hheld2
        have hs3 := hmove (hc2.shift.trans hc3.shift)
        have hr3 := hr2.trans (hc3.renewed.mono (hrest hc2.shift))
        rw [if_pos rfl, hrun3]
        show ∃ r P' fs' m', (if r3 then _ else _) = _ ∧ _
        cases r3 with
        | false =>
          exact closePipe_spec h { P with pagetable := pt3 } hs3 hheld3 hr3 rfl rfl rfl hc
        | true =>
          refine ⟨.done, { P with pagetable := pt3, ofile := ofile1 }, fs1, m3, rfl, hs3,
            ⟨hheld3, covered_of_shift hs3 h.covered, ?_, ?_⟩, hr3, rfl, rfl⟩
          · rw [hfds1, hfds0, ← add_assoc, ← add_assoc]
            exact hc
          · intro fd hfd
            exact (hof1 fd hfd).trans ((hof0 fd hfd).trans (h.ofile fd hfd))

end Open

end Xv6.Memory
