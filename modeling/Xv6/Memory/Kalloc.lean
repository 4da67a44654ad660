import Mathlib.Algebra.GroupWithZero.Nat
import Mathlib.Data.List.Nodup
import Xv6.Lib.Shares

/-!
# The page allocator

`kernel/kalloc.c`, with its reference counts.  A physical page is its page
number.  Page numbers at or above `PHYSTOP`, and those below the end of the
kernel, are not managed.

`refcnt` is a natural number: the source has an `int`, and the model is for
runs in which no count reaches 2^31.

`Ok` is the invariant of the allocator: the free list is the set of managed
pages with count 0.  `Shift` is a `Transfer` of shares that keeps it, and
each function has one specification in terms of `Shift`.
-/

namespace Xv6.Memory

open Xv6.Lib Function

/-- A physical page, by its number. -/
abbrev Frame := Nat

/-- `PGSIZE`. -/
abbrev PGSIZE : Nat := 4096

instance : NeZero PGSIZE := ⟨by decide⟩

/-- The contents of a page. -/
abbrev Page := Fin PGSIZE → UInt8

/-- `PHYSTOP`, as a page number. -/
def PHYSTOP : Frame := 0x88000

/-- What the linker decides: the first page after the kernel, which is
`PGROUNDUP(end)`, and the page of the trampoline code. -/
structure Layout where
  first : Frame
  trampoline : Frame

/-- The pages that `freerange` gives to the allocator. -/
def Layout.Managed (L : Layout) (f : Frame) : Prop := L.first ≤ f ∧ f < PHYSTOP

instance (L : Layout) (f : Frame) : Decidable (L.Managed f) :=
  inferInstanceAs (Decidable (_ ∧ _))

/-- The physical memory and the allocator.  `oom` records that some
`kalloc` has returned 0, and is read by no function. -/
structure Mem where
  refcnt : Frame → Nat
  freelist : List Frame
  bytes : Frame → Page
  oom : Bool

/-- `panic`. -/
inductive Panic
  | msg (text : String)
  deriving DecidableEq, Repr

/-- `JUNKFILL`. -/
def junkfill (val : UInt8) : Page := fun _ => val

/-- `kalloc`. -/
def kalloc (m : Mem) : Except Panic (Option Frame × Mem) :=
  match m.freelist with
  | [] => .ok (none, { m with oom := true })
  | r :: rest =>
      if m.refcnt r ≠ 0 then .error (.msg "refcnt kalloc")
      else
        .ok (some r, { m with
          refcnt := update m.refcnt r 1
          freelist := rest
          bytes := update m.bytes r (junkfill 5) })

/-- `increase_cnt`. -/
def increaseCnt (f : Frame) (m : Mem) : Except Panic Mem :=
  if f > PHYSTOP then .error (.msg "Physical address is greater than PHYSTOP")
  else if m.refcnt f < 1 then .error (.msg "Reference count is less than 1")
  else .ok { m with refcnt := update m.refcnt f (m.refcnt f + 1) }

/-- `kfree`. -/
def kfree (L : Layout) (f : Frame) (m : Mem) : Except Panic Mem :=
  if f < L.first ∨ f ≥ PHYSTOP then .error (.msg "Invalid physical address in kfree")
  else if m.refcnt f < 1 then .error (.msg "Reference count is less than 1 in kfree")
  else
    let tmp := m.refcnt f - 1
    let m := { m with refcnt := update m.refcnt f tmp }
    if tmp > 0 then .ok m
    else
      .ok { m with
        bytes := update m.bytes f (junkfill 1)
        freelist := f :: m.freelist }

/-- `freerange`, over the pages that are left. -/
def freerange (L : Layout) : List Frame → Mem → Except Panic Mem
  | [], m => .ok m
  | f :: rest, m => do
      let m ← kfree L f { m with refcnt := update m.refcnt f 1 }
      freerange L rest m

/-- The memory before `kinit`: the counts are zero. -/
def Mem.raw (bytes : Frame → Page) : Mem := ⟨fun _ => 0, [], bytes, false⟩

/-- `kinit`. -/
def kinit (L : Layout) (bytes : Frame → Page) : Except Panic Mem :=
  freerange L (List.range' L.first (PHYSTOP - L.first)) (Mem.raw bytes)

/-- Store a page. -/
def Mem.write (m : Mem) (f : Frame) (page : Page) : Mem :=
  { m with bytes := update m.bytes f page }

/-! ## The invariant -/

/-- The free list holds the managed pages that nobody refers to. -/
structure Ok (L : Layout) (m : Mem) : Prop where
  nodup : m.freelist.Nodup
  free_iff : ∀ f, f ∈ m.freelist ↔ L.Managed f ∧ m.refcnt f = 0
  unmanaged : ∀ f, ¬ L.Managed f → m.refcnt f = 0

/-- The pages as cells of the share library. -/
def Mem.cells (m : Mem) : Counted Frame Page := ⟨m.refcnt, m.bytes⟩

/-- The shares of the caller go from `a` to `b`, and the allocator stays in
order. -/
structure Shift (L : Layout) (m m' : Mem) (a b : Frame → Nat) : Prop where
  transfer : Transfer m.cells m'.cells a b
  ok : Ok L m → Ok L m'
  oom : m.oom = true → m'.oom = true

variable {f : Frame}

namespace Shift

variable {L : Layout} {m m' m'' : Mem} {a b c : Frame → Nat}

theorem refl (L : Layout) (m : Mem) (a : Frame → Nat) : Shift L m m a a :=
  ⟨Transfer.refl _ a, id, id⟩

theorem trans (h : Shift L m m' a b) (h' : Shift L m' m'' b c) : Shift L m m'' a c :=
  ⟨h.transfer.trans h'.transfer, h'.ok ∘ h.ok, h'.oom ∘ h.oom⟩

theorem add (h : Shift L m m' a b) (u : Frame → Nat) : Shift L m m' (a + u) (b + u) :=
  ⟨h.transfer.add u, h.ok, h.oom⟩

theorem congr (h : Shift L m m' a b) {a' b' : Frame → Nat} (ha : ∀ f, a' f = a f)
    (hb : ∀ f, b' f = b f) : Shift L m m' a' b' :=
  ⟨h.transfer.congr ha hb, h.ok, h.oom⟩

/-- The counts. -/
theorem balance (h : Shift L m m' a b) (f : Frame) :
    m'.refcnt f + a f = m.refcnt f + b f := h.transfer.balance f

/-- A page in which somebody else has a share keeps its contents. -/
theorem frame (h : Shift L m m' a b) (hf : a f < m.refcnt f) :
    m'.bytes f = m.bytes f := h.transfer.frame f hf

/-- More is acquired after some shares are. -/
theorem acquire {d : Frame → Nat} (h : Shift L m m' 0 a) (h' : Shift L m' m'' 0 d) :
    Shift L m m'' 0 (a + d) := by
  refine h.trans ((h'.add a).congr ?_ ?_)
  · intro f
    simp
  · intro f
    simp [Nat.add_comm]

/-- More is released after some shares are. -/
theorem release {d : Frame → Nat} (h : Shift L m m' a 0) (h' : Shift L m' m'' d 0) :
    Shift L m m'' (a + d) 0 := by
  refine Shift.trans ((h.add d).congr (fun _ => rfl) ?_) h'
  intro f
  simp

end Shift

/-! ## The allocator keeps it -/

variable {L : Layout} {m : Mem}

/-- `kalloc` with an empty list. -/
theorem kalloc_none (h : m.freelist = []) : kalloc m = .ok (none, { m with oom := true }) := by
  rw [kalloc, h]

theorem shift_oom (L : Layout) (m : Mem) (a : Frame → Nat) :
    Shift L m { m with oom := true } a a :=
  ⟨Transfer.refl _ a, fun h => ⟨h.nodup, h.free_iff, h.unmanaged⟩, fun _ => rfl⟩

/-- What `kalloc` does when a page is free. -/
structure Allocated (L : Layout) (m m' : Mem) (f : Frame) : Prop where
  shift : Shift L m m' 0 (one f)
  unused : m.refcnt f = 0
  managed : L.Managed f
  freelist : m.freelist = f :: m'.freelist
  others : ∀ g, g ≠ f → m'.bytes g = m.bytes g
  oom : m'.oom = m.oom

/-- `kalloc` with a page left. -/
theorem kalloc_some (h : Ok L m) {r : Frame} {rest : List Frame} (hfree : m.freelist = r :: rest) :
    ∃ m', kalloc m = .ok (some r, m') ∧ Allocated L m m' r := by
  have hr : L.Managed r ∧ m.refcnt r = 0 := (h.free_iff r).mp (by rw [hfree]; simp)
  have hnodup := h.nodup
  rw [hfree, List.nodup_cons] at hnodup
  have hrun : kalloc m = .ok (some r, { m with
      refcnt := update m.refcnt r 1
      freelist := rest
      bytes := update m.bytes r (junkfill 5) }) := by
    rw [kalloc, hfree]
    exact if_neg (by simp [hr.2])
  refine ⟨_, hrun, ⟨⟨?_, ?_⟩, ?_, id⟩, hr.2, hr.1, hfree, ?_, rfl⟩
  · intro f
    show update m.refcnt r 1 f + 0 = m.refcnt f + one r f
    by_cases hf : f = r
    · rw [hf, update_self, hr.2, one_self]
    · rw [update_of_ne hf, one_of_ne hf]
  · intro f hf
    have hne : f ≠ r := by
      intro he
      rw [he] at hf
      exact absurd hr.2 hf.ne'
    exact update_of_ne hne _ _
  · intro _
    refine ⟨hnodup.2, ?_, ?_⟩
    · intro f
      show f ∈ rest ↔ L.Managed f ∧ update m.refcnt r 1 f = 0
      by_cases hf : f = r
      · rw [hf, update_self]
        exact iff_of_false hnodup.1 (by simp)
      · rw [update_of_ne hf, ← h.free_iff f, hfree]
        simp [hf]
    · intro f hf
      have hne : f ≠ r := fun he => hf (he ▸ hr.1)
      exact (update_of_ne hne _ _).trans (h.unmanaged f hf)
  · intro g hg
    exact update_of_ne hg _ _

/-- A page with a reference is managed. -/
theorem Ok.managed (h : Ok L m) (hf : 1 ≤ m.refcnt f) : L.Managed f := by
  by_contra hnot
  have := h.unmanaged f hnot
  omega

/-- `increase_cnt` on a page that is referred to. -/
theorem increaseCnt_spec (h : Ok L m) (hf : 1 ≤ m.refcnt f) :
    ∃ m', increaseCnt f m = .ok m' ∧ Shift L m m' 0 (one f) ∧ m'.bytes = m.bytes ∧
      m'.freelist = m.freelist ∧ m'.oom = m.oom := by
  have hm := h.managed hf
  have hrun : increaseCnt f m =
      .ok { m with refcnt := update m.refcnt f (m.refcnt f + 1) } := by
    rw [increaseCnt, if_neg (Nat.not_lt.mpr hm.2.le), if_neg (by omega)]
  refine ⟨_, hrun, ⟨⟨?_, fun _ _ => rfl⟩, ?_, id⟩, rfl, rfl, rfl⟩
  · intro g
    show update m.refcnt f (m.refcnt f + 1) g + 0 = m.refcnt g + one f g
    by_cases hg : g = f
    · rw [hg, update_self, one_self]
    · rw [update_of_ne hg, one_of_ne hg]
  · intro _
    refine ⟨h.nodup, ?_, ?_⟩
    · intro g
      show g ∈ m.freelist ↔ L.Managed g ∧ update m.refcnt f (m.refcnt f + 1) g = 0
      by_cases hg : g = f
      · rw [hg, update_self, h.free_iff]
        exact iff_of_false (by omega) (by omega)
      · rw [update_of_ne hg]
        exact h.free_iff g
    · intro g hg
      have hne : g ≠ f := fun he => hg (he ▸ hm)
      exact (update_of_ne hne _ _).trans (h.unmanaged g hg)

/-- `kfree` of a page that is referred to. -/
theorem kfree_spec (h : Ok L m) (hf : 1 ≤ m.refcnt f) :
    ∃ m', kfree L f m = .ok m' ∧ Shift L m m' (one f) 0 ∧
      (∀ g, g ≠ f → m'.bytes g = m.bytes g) ∧ m'.oom = m.oom := by
  have hm := h.managed hf
  have hvalid : ¬ (f < L.first ∨ f ≥ PHYSTOP) :=
    not_or.mpr ⟨Nat.not_lt.mpr hm.1, Nat.not_le.mpr hm.2⟩
  have hcount : ∀ g, update m.refcnt f (m.refcnt f - 1) g + one f g = m.refcnt g := by
    intro g
    by_cases hg : g = f
    · rw [hg, update_self, one_self]
      omega
    · rw [update_of_ne hg, one_of_ne hg]
      rfl
  have hun : ∀ g, ¬ L.Managed g → update m.refcnt f (m.refcnt f - 1) g = 0 := by
    intro g hg
    have h1 := hcount g
    have h2 := h.unmanaged g hg
    omega
  by_cases hlast : m.refcnt f - 1 > 0
  · refine ⟨{ m with refcnt := update m.refcnt f (m.refcnt f - 1) }, ?_,
      ⟨⟨hcount, fun _ _ => rfl⟩, ?_, id⟩, fun _ _ => rfl, rfl⟩
    · rw [kfree, if_neg hvalid, if_neg (by omega)]
      exact if_pos hlast
    · intro _
      refine ⟨h.nodup, ?_, hun⟩
      intro g
      show g ∈ m.freelist ↔ L.Managed g ∧ update m.refcnt f (m.refcnt f - 1) g = 0
      by_cases hg : g = f
      · rw [hg, update_self, h.free_iff]
        exact iff_of_false (by omega) (by omega)
      · rw [update_of_ne hg]
        exact h.free_iff g
  · refine ⟨{ m with
        refcnt := update m.refcnt f (m.refcnt f - 1)
        bytes := update m.bytes f (junkfill 1)
        freelist := f :: m.freelist }, ?_, ⟨⟨hcount, ?_⟩, ?_, id⟩, ?_, rfl⟩
    · rw [kfree, if_neg hvalid, if_neg (by omega)]
      exact if_neg hlast
    · intro g hg
      have hne : g ≠ f := by
        intro he
        rw [he, one_self] at hg
        have hg' : 1 < m.refcnt f := hg
        omega
      exact update_of_ne hne _ _
    · intro _
      have hnot : f ∉ m.freelist := by
        rw [h.free_iff]
        omega
      refine ⟨List.nodup_cons.mpr ⟨hnot, h.nodup⟩, ?_, hun⟩
      intro g
      show g ∈ f :: m.freelist ↔
        L.Managed g ∧ update m.refcnt f (m.refcnt f - 1) g = 0
      by_cases hg : g = f
      · rw [hg, update_self]
        exact iff_of_true (by simp) ⟨hm, by omega⟩
      · rw [update_of_ne hg, ← h.free_iff g]
        simp [hg]
    · intro g hg
      exact update_of_ne hg _ _

/-! ## `kinit` -/

/-- `freerange` on fresh pages pushes them on the list. -/
theorem freerange_spec :
    ∀ (fs : List Frame) (m : Mem), fs.Nodup → (∀ f ∈ fs, L.Managed f) →
      (∀ f, m.refcnt f = 0) → ∃ m', freerange L fs m = .ok m' ∧
        (∀ f, m'.refcnt f = 0) ∧ m'.freelist = fs.reverse ++ m.freelist ∧ m'.oom = m.oom := by
  intro fs
  induction fs with
  | nil =>
    intro m _ _ hzero
    exact ⟨m, rfl, hzero, rfl, rfl⟩
  | cons f rest ih =>
    intro m hnodup hm hzero
    have hf := hm f (by simp)
    have hvalid : ¬ (f < L.first ∨ f ≥ PHYSTOP) :=
      not_or.mpr ⟨Nat.not_lt.mpr hf.1, Nat.not_le.mpr hf.2⟩
    have hcount : update (update m.refcnt f 1) f 0 = m.refcnt := by
      rw [update_idem, ← hzero f, update_eq_self]
    have hfirst : kfree L f { m with refcnt := update m.refcnt f 1 } = .ok { m with
        bytes := update m.bytes f (junkfill 1)
        freelist := f :: m.freelist } := by
      rw [kfree, if_neg hvalid]
      simp [hcount]
    obtain ⟨m', hrun, hzero', hlist, hoom⟩ := ih
      { m with bytes := update m.bytes f (junkfill 1), freelist := f :: m.freelist }
      (List.nodup_cons.mp hnodup).2 (fun g hg => hm g (by simp [hg])) hzero
    refine ⟨m', ?_, hzero', ?_, hoom⟩
    · rw [freerange, hfirst]
      exact hrun
    · rw [hlist, List.reverse_cons, List.append_assoc]
      rfl

/-- After `kinit` every managed page is free. -/
theorem kinit_spec (L : Layout) (bytes : Frame → Page) :
    ∃ m, kinit L bytes = .ok m ∧ Ok L m ∧ (∀ f, m.refcnt f = 0) ∧ m.oom = false ∧
      m.freelist = (List.range' L.first (PHYSTOP - L.first)).reverse := by
  have hmem : ∀ f, f ∈ List.range' L.first (PHYSTOP - L.first) ↔ L.Managed f := by
    intro f
    rw [List.mem_range'_1, Layout.Managed]
    constructor
    · rintro ⟨h1, h2⟩
      exact ⟨h1, by unfold PHYSTOP at *; simp only [Frame] at *; omega⟩
    · rintro ⟨h1, h2⟩
      exact ⟨h1, by unfold PHYSTOP at *; simp only [Frame] at *; omega⟩
  have hnodup : (List.range' L.first (PHYSTOP - L.first)).Nodup := List.nodup_range'
  obtain ⟨m, hrun, hzero, hlist, hoom⟩ := freerange_spec (L := L) _ (Mem.raw bytes) hnodup
    (fun f hf => (hmem f).mp hf) (fun _ => rfl)
  have hlist' : m.freelist = (List.range' L.first (PHYSTOP - L.first)).reverse := by
    rw [hlist]
    exact List.append_nil _
  refine ⟨m, hrun, ⟨?_, ?_, fun f _ => hzero f⟩, hzero, hoom, hlist'⟩
  · rw [hlist']
    exact List.nodup_reverse.mpr hnodup
  · intro f
    rw [hlist', List.mem_reverse, hmem]
    exact ⟨fun h => ⟨h, hzero f⟩, fun h => h.1⟩

/-- A store into a page that nobody else refers to. -/
theorem write_shift (hf : m.refcnt f = 1) (page : Page) :
    Shift L m (m.write f page) (one f) (one f) := by
  refine ⟨⟨fun _ => rfl, ?_⟩, fun h => ⟨h.nodup, h.free_iff, h.unmanaged⟩, id⟩
  intro g hg
  have hne : g ≠ f := by
    intro he
    rw [he, one_self] at hg
    have hg' : 1 < m.refcnt f := hg
    omega
  exact update_of_ne hne _ _

/-- Nobody else refers to a page that was just allocated. -/
theorem Allocated.alone {m' : Mem} (h : Allocated L m m' f) : m'.refcnt f = 1 := by
  have h1 := h.shift.balance f
  rw [one_self, h.unused, Pi.zero_apply] at h1
  omega

/-- A page that was just allocated is filled. -/
theorem Allocated.fill {m' : Mem} (h : Allocated L m m' f) (page : Page) :
    Shift L m (m'.write f page) 0 (one f) :=
  h.shift.trans (write_shift h.alone page)

end Xv6.Memory
