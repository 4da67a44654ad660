import Xv6.Memory.Sharing

/-!
# `exec`

`kernel/exec.c`, and the argument pages of `sys_exec`.  The file is given by
what `exec` reads from it: its program headers, where a short read is
`none`, and for each segment the bytes that the file holds from `ph.off` on.
The arguments are given by what `fetchaddr` and `fetchstr` return for them.
The trapframe and the name of the process are not modelled.

`Building` is the invariant of the new image: its pages are not in use when
`exec` starts, so no store of `exec` reaches a page of another image.
-/

namespace Xv6.Memory

open Xv6.Lib Function

/-- `MAXARG`. -/
def MAXARG : Nat := 32

/-- `struct proghdr`, and the file from `off` on.  `load` says that `type`
is `ELF_PROG_LOAD`. -/
structure Proghdr where
  load : Bool
  flags : UInt32
  vaddr : UInt64
  filesz : UInt64
  memsz : UInt64
  contents : List UInt8

/-- `flags2perm`: `PTE_W` and `PTE_X`. -/
def flags2perm (flags : UInt32) : Bool × Bool := (flags &&& 2 != 0, flags &&& 1 != 0)

/-! ## The steps of `exec` -/

/-- The loop of `loadseg` with `k` pages left, at page `i` of the segment. -/
def loadsegLoop (pt : PageTable) (va : Nat) (contents : List UInt8) (sz : Nat) :
    Nat → Nat → Mem → Except Panic (Bool × Mem)
  | 0, _, m => .ok (true, m)
  | k + 1, i, m => do
      match ← walkaddr pt (va + i * PGSIZE) with
      | none => .error (.msg "loadseg: address should exist")
      | some pa =>
          let n := min PGSIZE (sz - i * PGSIZE)
          let got := (contents.drop (i * PGSIZE)).take n
          let m := m.write pa (patch (m.bytes pa) 0 got)
          if got.length = n then loadsegLoop pt va contents sz k (i + 1) m else .ok (false, m)

/-- `loadseg`. -/
def loadseg (pt : PageTable) (va : Nat) (contents : List UInt8) (sz : Nat) (m : Mem) :
    Except Panic (Bool × Mem) :=
  loadsegLoop pt va contents sz (pages sz) 0 m

/-- The loop over the program headers.  The result has the size of the
image. -/
def loadSegments (L : Layout) : List (Option Proghdr) → Nat → PageTable → Mem →
    Except Panic (Bool × Nat × Mem × PageTable)
  | [], sz, pt, m => .ok (true, sz, m, pt)
  | none :: _, sz, pt, m => .ok (false, sz, m, pt)
  | some ph :: rest, sz, pt, m =>
      if ph.load = false then loadSegments L rest sz pt m
      else if ph.memsz < ph.filesz then .ok (false, sz, m, pt)
      else if ph.vaddr + ph.memsz < ph.vaddr then .ok (false, sz, m, pt)
      else if ph.vaddr.toNat % PGSIZE ≠ 0 then .ok (false, sz, m, pt)
      else do
        let (w, x) := flags2perm ph.flags
        let (sz1, m, pt) ← uvmalloc L pt sz (ph.vaddr + ph.memsz).toNat w x m
        if sz1 = 0 then .ok (false, sz, m, pt)
        else do
          let (r, m) ← loadseg pt ph.vaddr.toNat ph.contents (ph.filesz.toNat % 2 ^ 32) m
          if r then loadSegments L rest sz1 pt m else .ok (false, sz1, m, pt)

/-- The user stack and its guard page. -/
def userStack (L : Layout) (sz : Nat) (pt : PageTable) (m : Mem) :
    Except Panic (Bool × Nat × Mem × PageTable) := do
  let sz := pages sz * PGSIZE
  let (sz1, m, pt) ← uvmalloc L pt sz (sz + 2 * PGSIZE) true false m
  if sz1 = 0 then .ok (false, sz, m, pt)
  else do
    let pt ← uvmclear pt ((sz1 - 2 * PGSIZE) / PGSIZE)
    .ok (true, sz1, m, pt)

/-- The eight bytes of a `uint64`. -/
def le64 (x : Nat) : List UInt8 := (List.range 8).map (fun i => UInt8.ofNat (x / 256 ^ i))

/-- Push the argument strings.  The result has the stack pointer and
`ustack`.  The strings are shorter than a page and the stack is above page
0, so `sp` does not wrap. -/
def pushArgs (L : Layout) (stackbase : Nat) : List (List UInt8) → Nat → List Nat → PageTable →
    Mem → Except Panic (Bool × Nat × List Nat × Mem × PageTable)
  | [], sp, ustack, pt, m => .ok (true, sp, ustack, m, pt)
  | s :: rest, sp, ustack, pt, m =>
      if ustack.length ≥ MAXARG then .ok (false, sp, ustack, m, pt)
      else
        let sp := sp - (s.length + 1)
        let sp := sp - sp % 16
        if sp < stackbase then .ok (false, sp, ustack, m, pt)
        else do
          let (r, m, pt) ← copyout L sp (s ++ [0]) pt m
          if r then pushArgs L stackbase rest sp (ustack ++ [sp]) pt m
          else .ok (false, sp, ustack, m, pt)

/-- The initial stack: the strings, and the array of pointers to them. -/
def pushStack (L : Layout) (sz : Nat) (args : List (List UInt8)) (pt : PageTable) (m : Mem) :
    Except Panic (Bool × Mem × PageTable) := do
  let stackbase := sz - PGSIZE
  let (r, sp, ustack, m, pt) ← pushArgs L stackbase args sz [] pt m
  if r then
    let sp := sp - (ustack.length + 1) * 8
    let sp := sp - sp % 16
    if sp < stackbase then .ok (false, m, pt)
    else copyout L sp ((ustack ++ [0]).flatMap le64) pt m
  else .ok (false, m, pt)

/-- `exec` between `proc_pagetable` and the commit. -/
def execBuild (L : Layout) (headers : List (Option Proghdr)) (args : List (List UInt8))
    (pt : PageTable) (m : Mem) : Except Panic (Bool × Nat × Mem × PageTable) := do
  let (r, sz, m, pt) ← loadSegments L headers 0 pt m
  if r then do
    let (r, sz, m, pt) ← userStack L sz pt m
    if r then do
      let (r, m, pt) ← pushStack L sz args pt m
      .ok (r, sz, m, pt)
    else .ok (false, sz, m, pt)
  else .ok (false, sz, m, pt)

/-- `exec` of a process with the trapframe `tf` and the image `old` of size
`oldsz`.  `headers` is `none` when there is no such file or it is not an
executable.  The result is the new image, or `none` for -1. -/
def exec (L : Layout) (tf : Frame) (old : PageTable) (oldsz : Nat)
    (headers : Option (List (Option Proghdr))) (args : List (List UInt8)) (m : Mem) :
    Except Panic (Option (Nat × PageTable) × Mem) :=
  match headers with
  | none => .ok (none, m)
  | some headers => do
      let (pt, m) ← procPagetable L tf m
      match pt with
      | none => .ok (none, m)
      | some pt => do
          let (r, sz, m, pt) ← execBuild L headers args pt m
          if r then do
            let m ← procFreepagetable L old oldsz m
            .ok (some (sz, pt), m)
          else do
            let m ← procFreepagetable L pt sz m
            .ok (none, m)

/-- An argument of `exec`, as `sys_exec` reads it. -/
inductive Arg
  | badAddr
  | badStr
  | str (s : List UInt8)

/-- The loop of `sys_exec` over the arguments.  It keeps the pages and the
strings so far. -/
def fetchArgs : List Arg → List Frame → List (List UInt8) → Mem →
    Except Panic (Bool × List Frame × List (List UInt8) × Mem)
  | args, argv, strs, m =>
    if argv.length ≥ MAXARG then .ok (false, argv, strs, m)
    else
      match args with
      | [] => .ok (true, argv, strs, m)
      | .badAddr :: _ => .ok (false, argv, strs, m)
      | .badStr :: _ => do
          let (pa, m) ← kalloc m
          .ok (false, argv ++ pa.toList, strs, m)
      | .str s :: rest => do
          let (pa, m) ← kalloc m
          match pa with
          | none => .ok (false, argv, strs, m)
          | some pa =>
              if s.length < PGSIZE then
                fetchArgs rest (argv ++ [pa]) (strs ++ [s])
                  (m.write pa (patch (m.bytes pa) 0 (s ++ [0])))
              else .ok (false, argv ++ [pa], strs, m)

/-- The loop of `sys_exec` that frees the argument pages. -/
def freeArgs (L : Layout) : List Frame → Mem → Except Panic Mem
  | [], m => .ok m
  | pa :: rest, m => do
      let m ← kfree L pa m
      freeArgs L rest m

/-- `sys_exec`. -/
def sysExec (L : Layout) (tf : Frame) (old : PageTable) (oldsz : Nat)
    (headers : Option (List (Option Proghdr))) (args : List Arg) (m : Mem) :
    Except Panic (Option (Nat × PageTable) × Mem) := do
  let (r, argv, strs, m) ← fetchArgs args [] [] m
  if r then do
    let (res, m) ← exec L tf old oldsz headers strs m
    let m ← freeArgs L argv m
    .ok (res, m)
  else do
    let m ← freeArgs L argv m
    .ok (none, m)

/-! ## The new image -/

section Spec

variable {L : Layout} {m₀ m m' : Mem} {pt pt' : PageTable} {sz : Nat}

/-- An image of size `sz` on pages that were free in `m₀`. -/
structure Building (L : Layout) (m₀ m : Mem) (pt : PageTable) (sz : Nat) : Prop where
  shift : Shift L m₀ m 0 (owned pt)
  held : Held L m pt (pages sz)
  fresh : ∀ v e, v < TRAPFRAME → pt.leaf v = some e → m₀.refcnt e.ppn = 0

/-- A page that is free now was free then. -/
theorem Building.free (h : Building L m₀ m pt sz) {f : Frame} (hf : m.refcnt f = 0) :
    m₀.refcnt f = 0 := by
  have h1 := h.shift.balance f
  simp only [Pi.zero_apply] at h1
  omega

/-- A store into a page that was free. -/
theorem Shift.write_free {a : Frame → Nat} (h : Shift L m₀ m 0 a) {f : Frame}
    (hf : m₀.refcnt f = 0) (page : Page) : Shift L m₀ (m.write f page) 0 a := by
  refine ⟨⟨h.balance, ?_⟩, ?_, h.oom⟩
  · intro g hg
    have hne : g ≠ f := by
      intro he
      rw [he] at hg
      exact absurd hf hg.ne'
    exact (update_of_ne hne _ _).trans (h.frame hg)
  · intro hok
    have := h.ok hok
    exact ⟨this.nodup, this.free_iff, this.unmanaged⟩

theorem Building.write (h : Building L m₀ m pt sz) {f : Frame} (hf : m₀.refcnt f = 0)
    (page : Page) : Building L m₀ (m.write f page) pt sz :=
  ⟨h.shift.write_free hf page,
    ⟨⟨h.held.ok.nodup, h.held.ok.free_iff, h.held.ok.unmanaged⟩, h.held.image, h.held.covered,
      h.held.bound⟩, h.fresh⟩

theorem Building.grown (h : Building L m₀ m pt sz) (hg : Grown L m pt m' pt') :
    Building L m₀ m' pt' sz := by
  obtain ⟨d, hs, ht⟩ := hg.shift
  refine ⟨(h.shift.acquire hs).congr (fun _ => rfl) ?_, hg.held h.held, ?_⟩
  · intro f
    simp only [owned, ht, hg.leaf, Pi.add_apply]
    omega
  · rw [hg.leaf]
    exact h.fresh

theorem Building.extended {flags : Flags} {newsz : Nat} (h : Building L m₀ m pt sz)
    (hr : flags.r = true) (hle : sz ≤ newsz) (hb : pages newsz ≤ TRAPFRAME)
    (hx : Extended L m pt flags (pages sz) (pages newsz - pages sz) m' pt') :
    Building L m₀ m' pt' newsz := by
  have hpages : pages sz + (pages newsz - pages sz) = pages newsz :=
    Nat.add_sub_cancel' (pages_mono hle)
  obtain ⟨dt, dl, hs, ht, hl⟩ := hx.shift
  refine ⟨(h.shift.acquire hs).congr (fun _ => rfl) ?_, ?_, ?_⟩
  · intro f
    simp only [owned, ht, hl, Pi.add_apply]
    omega
  · have := hx.held h.held hr (by rw [hpages]; exact hb)
    rwa [hpages] at this
  · intro v e hv he
    by_cases hin : pages sz ≤ v ∧ v < pages sz + (pages newsz - pages sz)
    · obtain ⟨f, hf, hzero, _⟩ := hx.new v hin.1 hin.2
      rw [hf] at he
      cases he
      exact h.free hzero
    · rw [hx.old v hin] at he
      exact h.fresh v e hv he

theorem Building.copyOut {dstva : Nat} {src : List UInt8} {r : Bool}
    (hc : CopyOut L dstva src m pt r m' pt') (h : Building L m₀ m pt sz) :
    Building L m₀ m' pt' sz := by
  refine ⟨h.shift.trans hc.shift, hc.held h.held, ?_⟩
  induction hc with
  | done => exact h.fresh
  | invalid => exact h.fresh
  | oom => exact h.fresh
  | page _ _ hr _ ih =>
    refine ih ⟨h.shift.trans hr.shift_owned, hr.held h.held, ?_⟩
    intro v e hv he
    rw [hr.leaf, update_apply] at he
    split at he
    · cases he
      exact h.free hr.fresh
    · exact h.fresh v e hv he

/-- All user pages have `PTE_U`. -/
def AllUser (pt : PageTable) : Prop :=
  ∀ v e, v < TRAPFRAME → pt.leaf v = some e → e.flags.u = true

/-- `uvmalloc` on the new image. -/
theorem uvmalloc_building (h : Building L m₀ m pt sz) (hu : AllUser pt) (newsz : Nat)
    (w x : Bool) :
    ∃ r m' pt', uvmalloc L pt sz newsz w x m = .ok (r, m', pt') ∧ AllUser pt' ∧
      ((r = 0 ∧ m'.oom = true ∧ Building L m₀ m' pt' sz) ∨
        (r = max sz newsz ∧ Building L m₀ m' pt' r)) := by
  obtain ⟨r, m', pt', hrun, hcase⟩ := uvmalloc_spec h.held newsz w x
  refine ⟨r, m', pt', hrun, ?_⟩
  rcases hcase with ⟨hlt, rfl, rfl, rfl⟩ | ⟨hle, rfl, hb, hx⟩ | ⟨_, rfl, hoom, hg⟩
  · exact ⟨hu, Or.inr ⟨(Nat.max_eq_left hlt.le).symm, h⟩⟩
  · refine ⟨?_, Or.inr ⟨(Nat.max_eq_right hle).symm, h.extended rfl hle hb hx⟩⟩
    intro v e hv he
    by_cases hin : pages sz ≤ v ∧ v < pages sz + (pages r - pages sz)
    · obtain ⟨f, hf, _⟩ := hx.new v hin.1 hin.2
      rw [hf] at he
      cases he
      rfl
    · rw [hx.old v hin] at he
      exact hu v e hv he
  · refine ⟨?_, Or.inl ⟨rfl, hoom, h.grown hg⟩⟩
    intro v e hv he
    rw [hg.leaf] at he
    exact hu v e hv he

/-! ## The steps keep it -/

theorem loadsegLoop_spec {va filesz : Nat} (contents : List UInt8) (hu : AllUser pt)
    (hva : va % PGSIZE = 0) (hend : va + filesz ≤ sz) :
    ∀ (k i : Nat) {m : Mem}, i + k = pages filesz → Building L m₀ m pt sz →
      ∃ r m', loadsegLoop pt va contents filesz k i m = .ok (r, m') ∧
        Building L m₀ m' pt sz := by
  intro k
  induction k with
  | zero =>
    intro i m _ h
    exact ⟨true, m, rfl, h⟩
  | succ k ih =>
    intro i m hik h
    -- the page is below the size of the image, so it is mapped
    have hin : va / PGSIZE + i < pages sz := by
      unfold pages PGSIZE at *
      omega
    have hdiv : (va + i * PGSIZE) / PGSIZE = va / PGSIZE + i := by
      unfold PGSIZE
      omega
    have hbound := h.held.bound
    obtain ⟨e, he, _⟩ := h.held.isSome hin
    have hmax : va + i * PGSIZE < MAXVA := by
      have := TRAPFRAME_lt
      unfold MAXVA PGSIZE at *
      omega
    have haddr : walkaddr pt (va + i * PGSIZE) = .ok (some e.ppn) :=
      walkaddr_user hmax (by rw [hdiv]; exact he) (hu _ e (by omega) he)
    have hloop : loadsegLoop pt va contents filesz (k + 1) i m =
        let got := (contents.drop (i * PGSIZE)).take (min PGSIZE (filesz - i * PGSIZE))
        let m := m.write e.ppn (patch (m.bytes e.ppn) 0 got)
        if got.length = min PGSIZE (filesz - i * PGSIZE) then
          loadsegLoop pt va contents filesz k (i + 1) m else .ok (false, m) := by
      rw [loadsegLoop, haddr]
      rfl
    rw [hloop]
    dsimp only
    have hw := h.write (h.fresh _ e (by omega) he) (patch (m.bytes e.ppn) 0
      ((contents.drop (i * PGSIZE)).take (min PGSIZE (filesz - i * PGSIZE))))
    split
    · exact ih (i + 1) (by omega) hw
    · exact ⟨false, _, rfl, hw⟩

theorem toNat_add_of_le {a b : UInt64} (h : ¬ a + b < a) : (a + b).toNat = a.toNat + b.toNat := by
  rw [UInt64.lt_iff_toNat_lt, UInt64.toNat_add] at h
  rw [UInt64.toNat_add]
  have h1 := a.toNat_lt
  have h2 := b.toNat_lt
  omega

theorem loadSegments_spec :
    ∀ (headers : List (Option Proghdr)) {sz : Nat} {m : Mem} {pt : PageTable},
      Building L m₀ m pt sz → AllUser pt →
      ∃ r sz' m' pt', loadSegments L headers sz pt m = .ok (r, sz', m', pt') ∧ AllUser pt' ∧
        Building L m₀ m' pt' sz' := by
  intro headers
  induction headers with
  | nil =>
    intro sz m pt h hu
    exact ⟨true, sz, m, pt, rfl, hu, h⟩
  | cons ph rest ih =>
    intro sz m pt h hu
    cases ph with
    | none => exact ⟨false, sz, m, pt, rfl, hu, h⟩
    | some ph =>
      rw [loadSegments]
      by_cases hload : ph.load = false
      · rw [if_pos hload]
        exact ih h hu
      rw [if_neg hload]
      by_cases hsize : ph.memsz < ph.filesz
      · exact ⟨false, sz, m, pt, if_pos hsize, hu, h⟩
      rw [if_neg hsize]
      by_cases hwrap : ph.vaddr + ph.memsz < ph.vaddr
      · exact ⟨false, sz, m, pt, if_pos hwrap, hu, h⟩
      rw [if_neg hwrap]
      by_cases halign : ph.vaddr.toNat % PGSIZE ≠ 0
      · exact ⟨false, sz, m, pt, if_pos halign, hu, h⟩
      rw [if_neg halign]
      obtain ⟨r1, m1, pt1, hrun1, hu1, hcase⟩ := uvmalloc_building h hu
        (ph.vaddr + ph.memsz).toNat (flags2perm ph.flags).1 (flags2perm ph.flags).2
      show ∃ r sz' m' pt', (uvmalloc L pt sz _ (flags2perm ph.flags).1 (flags2perm ph.flags).2 m
        >>= _) = _ ∧ _
      rw [hrun1]
      show ∃ r sz' m' pt', (if r1 = 0 then _ else _) = _ ∧ _
      rcases hcase with ⟨hzero, _, hb⟩ | ⟨hr, hb⟩
      · exact ⟨false, sz, m1, pt1, if_pos hzero, hu1, hb⟩
      by_cases hzero : r1 = 0
      · have hsz : sz = 0 := by omega
        rw [hsz]
        rw [hzero] at hb
        exact ⟨false, 0, m1, pt1, if_pos hzero, hu1, hb⟩
      rw [if_neg hzero]
      -- the file part of the segment is inside the image
      have hend : ph.vaddr.toNat + ph.filesz.toNat % 2 ^ 32 ≤ r1 := by
        have h1 := toNat_add_of_le hwrap
        have h2 : ph.filesz.toNat ≤ ph.memsz.toNat := by
          rw [UInt64.lt_iff_toNat_lt] at hsize
          omega
        have h3 := Nat.mod_le ph.filesz.toNat (2 ^ 32)
        omega
      obtain ⟨r2, m2, hrun2, hb2⟩ := loadsegLoop_spec ph.contents hu1 (not_not.mp halign) hend
        (pages (ph.filesz.toNat % 2 ^ 32)) 0 (Nat.zero_add _) hb
      show ∃ r sz' m' pt', (loadsegLoop pt1 _ _ _ _ 0 m1 >>= _) = _ ∧ _
      rw [hrun2]
      show ∃ r sz' m' pt', (if r2 then _ else _) = _ ∧ _
      cases r2 with
      | true => exact ih hb2 hu1
      | false => exact ⟨false, r1, m2, pt1, rfl, hu1, hb2⟩

/-- `uvmclear` of a page of the image. -/
theorem uvmclear_building {v : Nat} (h : Building L m₀ m pt sz) (hv : v < pages sz) :
    ∃ (pt' : PageTable) (e : Pte), uvmclear pt v = .ok pt' ∧
      pt'.leaf = update pt.leaf v (some e.guard) ∧ Building L m₀ m pt' sz := by
  have hlt : v < TRAPFRAME := hv.trans_le h.held.bound
  obtain ⟨e, he, hr⟩ := h.held.isSome hv
  obtain ⟨hleaf, hlow, hmid, hroot⟩ := setLeaf_eq (pt.leaf_low v (by rw [he]; rfl)) e.guard
  refine ⟨pt.setLeaf v e.guard, e, ?_, hleaf, ?_⟩
  · rw [uvmclear, walk_leaf (hlt.trans TRAPFRAME_lt) he]
    rfl
  -- every entry keeps its page and `PTE_R`
  have hsome : ∀ {w e'}, (pt.setLeaf v e.guard).leaf w = some e' →
      ∃ e0, pt.leaf w = some e0 ∧ e'.ppn = e0.ppn ∧ e'.flags.r = e0.flags.r := by
    intro w e' he'
    rw [hleaf, update_apply] at he'
    split at he'
    · rename_i hw
      cases he'
      exact ⟨e, hw ▸ he, rfl, rfl⟩
    · exact ⟨e', he', rfl, rfl⟩
  have howned : owned (pt.setLeaf v e.guard) = owned pt := by
    have hl := leaves_replace hlt he e.guard
    rw [owned, tables_congr hroot hmid hlow, hleaf]
    rw [show e.guard.ppn = e.ppn from rfl] at hl
    rw [add_right_cancel hl]
    rfl
  refine ⟨by rw [howned]; exact h.shift, ⟨h.held.ok, ⟨?_, ?_, ?_, ?_, ?_⟩, ?_, h.held.bound⟩, ?_⟩
  · intro w hw
    rw [← h.held.image.mapped w hw, hleaf, update_apply]
    split
    · rename_i hwv
      rw [hwv, he]
      rfl
    · rfl
  · intro w e' he'
    obtain ⟨e0, h0, _, hr0⟩ := hsome he'
    rw [hr0]
    exact h.held.image.readable w e0 h0
  · intro w hle hlt'
    rw [hleaf, update_of_ne (by omega)]
    exact h.held.image.top w hle hlt'
  · intro w hw
    rw [hleaf, update_of_ne (by have := TRAPFRAME_lt; omega)]
    exact h.held.image.high w hw
  · intro w w' e1 e2 hw hw' he1 he2 heq
    obtain ⟨e1', h1, hp1, _⟩ := hsome he1
    obtain ⟨e2', h2, hp2, _⟩ := hsome he2
    exact h.held.image.distinct w w' e1' e2' hw hw' h1 h2 (by rw [← hp1, heq, hp2])
  · rw [howned]
    exact h.held.covered
  · intro w e' hw he'
    obtain ⟨e0, h0, hp0, _⟩ := hsome he'
    rw [hp0]
    exact h.fresh w e0 hw h0

/-- The last page of an image is its stack, and the page below it is not a
user page. -/
structure StackPages (pt : PageTable) (sz : Nat) : Prop where
  aligned : sz % PGSIZE = 0
  two : 2 * PGSIZE ≤ sz
  guard : ∃ e, pt.leaf (sz / PGSIZE - 2) = some e ∧ e.flags.u = false
  stack : ∃ e, pt.leaf (sz / PGSIZE - 1) = some e ∧ e.flags.u = true

theorem userStack_spec (h : Building L m₀ m pt sz) (hu : AllUser pt) :
    ∃ r sz' m' pt', userStack L sz pt m = .ok (r, sz', m', pt') ∧ Building L m₀ m' pt' sz' ∧
      (r = false → m'.oom = true) ∧ (r = true → StackPages pt' sz') := by
  have h' : Building L m₀ m pt (pages sz * PGSIZE) :=
    ⟨h.shift, by rw [pages_mul]; exact h.held, h.fresh⟩
  obtain ⟨r1, m1, pt1, hrun1, hu1, hcase⟩ := uvmalloc_building h' hu
    (pages sz * PGSIZE + 2 * PGSIZE) true false
  unfold userStack
  show ∃ r sz' m' pt', (uvmalloc L pt _ _ true false m >>= _) = _ ∧ _
  rw [hrun1]
  show ∃ r sz' m' pt', (if r1 = 0 then _ else _) = _ ∧ _
  rcases hcase with ⟨hzero, hoom, hb⟩ | ⟨hr, hb⟩
  · exact ⟨false, _, m1, pt1, if_pos hzero, hb, fun _ => hoom, fun hr => by cases hr⟩
  have hr' : r1 = (pages sz + 2) * PGSIZE := by
    rw [hr, Nat.add_mul]
    omega
  have hguard : (r1 - 2 * PGSIZE) / PGSIZE < pages r1 := by
    rw [hr', pages_mul]
    unfold PGSIZE
    omega
  have hbelow : (r1 - 2 * PGSIZE) / PGSIZE = r1 / PGSIZE - 2 := by
    rw [hr']
    unfold PGSIZE
    omega
  obtain ⟨pt2, e, hrun2, hleaf, hb2⟩ := uvmclear_building hb hguard
  refine ⟨true, r1, m1, pt2, ?_, hb2, fun hr => (by cases hr), fun _ => ⟨?_, ?_, ?_, ?_⟩⟩
  · rw [if_neg (by rw [hr']; unfold PGSIZE; omega), hrun2]
    rfl
  · rw [hr']
    exact Nat.mul_mod_left _ _
  · rw [hr', Nat.add_mul]
    exact Nat.le_add_left _ _
  · exact ⟨e.guard, by rw [hleaf, hbelow, update_self], rfl⟩
  · have hlast : r1 / PGSIZE - 1 < pages r1 := by
      rw [hr', pages_mul]
      unfold PGSIZE
      omega
    obtain ⟨e', he', _⟩ := hb.held.isSome hlast
    refine ⟨e', ?_, hu1 _ e' (hlast.trans_le hb.held.bound) he'⟩
    rw [hleaf, update_of_ne, he']
    rw [hbelow, hr']
    unfold PGSIZE
    omega

theorem pushArgs_spec (stackbase : Nat) :
    ∀ (args : List (List UInt8)) (sp : Nat) (ustack : List Nat) {m : Mem} {pt : PageTable},
      Building L m₀ m pt sz →
      ∃ r sp' ustack' m' pt', pushArgs L stackbase args sp ustack pt m =
        .ok (r, sp', ustack', m', pt') ∧ Building L m₀ m' pt' sz := by
  intro args
  induction args with
  | nil =>
    intro sp ustack m pt h
    exact ⟨true, sp, ustack, m, pt, rfl, h⟩
  | cons s rest ih =>
    intro sp ustack m pt h
    rw [pushArgs]
    by_cases hmax : ustack.length ≥ MAXARG
    · exact ⟨false, sp, ustack, m, pt, if_pos hmax, h⟩
    rw [if_neg hmax]
    dsimp only
    generalize sp - (s.length + 1) - (sp - (s.length + 1)) % 16 = sp'
    by_cases hlow : sp' < stackbase
    · exact ⟨false, sp', ustack, m, pt, if_pos hlow, h⟩
    rw [if_neg hlow]
    obtain ⟨r1, m1, pt1, hrun1, hc⟩ := copyout_spec h.held.backed sp' (s ++ [0])
    have h1 := h.copyOut hc
    rw [hrun1]
    show ∃ r sp'' ustack' m' pt', (if r1 then _ else _) = _ ∧ _
    cases r1 with
    | true => exact ih sp' (ustack ++ [sp']) h1
    | false => exact ⟨false, sp', ustack, m1, pt1, rfl, h1⟩

theorem pushStack_spec (args : List (List UInt8)) (h : Building L m₀ m pt sz) :
    ∃ r m' pt', pushStack L sz args pt m = .ok (r, m', pt') ∧ Building L m₀ m' pt' sz := by
  obtain ⟨r1, sp, ustack, m1, pt1, hrun1, h1⟩ := pushArgs_spec (sz - PGSIZE) args sz [] h
  unfold pushStack
  dsimp only
  rw [hrun1]
  show ∃ r m' pt', (if r1 then _ else _) = _ ∧ _
  cases r1 with
  | false => exact ⟨false, m1, pt1, rfl, h1⟩
  | true =>
    rw [if_pos rfl]
    dsimp only
    generalize sp - (ustack.length + 1) * 8 - (sp - (ustack.length + 1) * 8) % 16 = sp'
    by_cases hlow : sp' < sz - PGSIZE
    · exact ⟨false, m1, pt1, if_pos hlow, h1⟩
    rw [if_neg hlow]
    obtain ⟨r2, m2, pt2, hrun2, hc⟩ :=
      copyout_spec h1.held.backed sp' ((ustack ++ [0]).flatMap le64)
    exact ⟨r2, m2, pt2, hrun2, h1.copyOut hc⟩

theorem execBuild_spec (headers : List (Option Proghdr)) (args : List (List UInt8))
    (h : Building L m₀ m pt 0) (hu : AllUser pt) :
    ∃ r sz' m' pt', execBuild L headers args pt m = .ok (r, sz', m', pt') ∧
      Building L m₀ m' pt' sz' := by
  obtain ⟨r1, sz₁, m1, pt1, hrun1, hu1, h1⟩ := loadSegments_spec headers h hu
  unfold execBuild
  rw [hrun1]
  show ∃ r sz' m' pt', (if r1 then _ else _) = _ ∧ _
  cases r1 with
  | false => exact ⟨false, sz₁, m1, pt1, rfl, h1⟩
  | true =>
    obtain ⟨r2, sz2, m2, pt2, hrun2, h2, _⟩ := userStack_spec h1 hu1
    rw [if_pos rfl, hrun2]
    show ∃ r sz' m' pt', (if r2 then _ else _) = _ ∧ _
    cases r2 with
    | false => exact ⟨false, sz2, m2, pt2, rfl, h2⟩
    | true =>
      obtain ⟨r3, m3, pt3, hrun3, h3⟩ := pushStack_spec args h2
      refine ⟨r3, sz2, m3, pt3, ?_, h3⟩
      rw [if_pos rfl, hrun3]
      rfl

/-! ## `exec` and `sys_exec` -/

/-- More shares elsewhere leave an image as it is. -/
theorem Held.acquire {n : Nat} {d : Frame → Nat} (h : Held L m pt n) (hs : Shift L m m' 0 d) :
    Held L m' pt n := by
  refine ⟨hs.ok h.ok, h.image, ?_, h.bound⟩
  intro f
  have h1 := hs.balance f
  have h2 := h.covered f
  simp only [Pi.zero_apply] at h1
  omega

/-- The table of `proc_pagetable` is an image without pages. -/
theorem Fresh.building (hf : Fresh pt) (hok : Ok L m) (hs : Shift L m m' 0 (tables pt)) :
    Building L m m' pt 0 ∧ AllUser pt := by
  rw [← hf.owned_eq] at hs
  have hnone : ∀ {v e}, v < TRAPFRAME → pt.leaf v = some e → False := by
    intro v e hv he
    rw [hf.image.none hv (Nat.zero_le v)] at he
    cases he
  refine ⟨⟨hs, ⟨hs.ok hok, hf.image, ?_, Nat.zero_le _⟩, ?_⟩, ?_⟩
  · intro f
    have h1 := hs.balance f
    simp only [Pi.zero_apply] at h1
    omega
  · intro v e hv he
    exact (hnone hv he).elim
  · intro v e hv he
    exact (hnone hv he).elim

/-- The image `old` is given up for the image `pt` of size `sz`. -/
structure Execed (L : Layout) (m : Mem) (old : PageTable) (sz : Nat) (pt : PageTable)
    (m' : Mem) : Prop where
  image : Image pt (pages sz)
  bound : pages sz ≤ TRAPFRAME
  shift : Shift L m m' (owned old) (owned pt)
  fresh : ∀ v e, v < TRAPFRAME → pt.leaf v = some e → m.refcnt e.ppn = 0

/-- `exec` puts a new image in the place of the old one, or gives back all
that it has allocated. -/
theorem exec_spec (tf : Frame) {old : PageTable} {oldsz : Nat}
    (headers : Option (List (Option Proghdr))) (args : List (List UInt8))
    (hold : Held L m old (pages oldsz)) :
    ∃ r m', exec L tf old oldsz headers args m = .ok (r, m') ∧
      ((r = none ∧ Shift L m m' 0 0) ∨
        ∃ sz pt, r = some (sz, pt) ∧ Execed L m old sz pt m') := by
  cases headers with
  | none => exact ⟨none, m, rfl, Or.inl ⟨rfl, Shift.refl L m 0⟩⟩
  | some headers =>
    obtain ⟨r1, m1, hrun1, hcase⟩ := procPagetable_spec tf hold.ok
    rcases hcase with ⟨rfl, hs, _, _⟩ | ⟨pt, rfl, hf, hs, _⟩
    · refine ⟨none, m1, ?_, Or.inl ⟨rfl, hs⟩⟩
      rw [exec, hrun1]
      rfl
    obtain ⟨hb, hu⟩ := hf.building hold.ok hs
    obtain ⟨r2, sz, m2, pt2, hrun2, hb2⟩ := execBuild_spec headers args hb hu
    have hexec : exec L tf old oldsz (some headers) args m =
        if r2 then (procFreepagetable L old oldsz m2 >>= fun m => .ok (some (sz, pt2), m))
        else (procFreepagetable L pt2 sz m2 >>= fun m => .ok (none, m)) := by
      rw [exec, hrun1]
      show (execBuild L headers args pt m1 >>= _) = _
      rw [hrun2]
      rfl
    cases r2 with
    | true =>
      have hold2 := hold.acquire hb2.shift
      obtain ⟨m3, hrun3, hs3, _⟩ :=
        procFreepagetable_spec hold2.ok hold2.bound hold2.image hold2.covered
      refine ⟨some (sz, pt2), m3, ?_, Or.inr ⟨sz, pt2, rfl, hb2.held.image, hb2.held.bound, ?_,
        hb2.fresh⟩⟩
      · rw [hexec, if_pos rfl, hrun3]
        rfl
      · refine Shift.trans ((hb2.shift.add (owned old)).congr ?_ (fun _ => rfl))
          ((hs3.add (owned pt2)).congr ?_ ?_)
        · intro f
          simp
        · intro f
          simp [Nat.add_comm]
        · intro f
          simp
    | false =>
      obtain ⟨m3, hrun3, hs3, _⟩ :=
        procFreepagetable_spec hb2.held.ok hb2.held.bound hb2.held.image hb2.held.covered
      refine ⟨none, m3, ?_, Or.inl ⟨rfl, hb2.shift.trans hs3⟩⟩
      rw [hexec, if_neg Bool.false_ne_true, hrun3]
      rfl

/-- One reference to each page of a list. -/
def listed (l : List Frame) : Frame → Nat := fun f => l.count f

theorem listed_append (l : List Frame) (f : Frame) : listed (l ++ [f]) = listed l + one f := by
  funext g
  rw [listed, List.count_append, Pi.add_apply, listed, List.count_singleton, one]
  by_cases hg : g = f
  · simp [hg]
  · have : ¬ f = g := fun h => hg h.symm
    simp [hg, this]

theorem listed_cons (l : List Frame) (f : Frame) : listed (f :: l) = one f + listed l := by
  funext g
  rw [listed, List.count_cons, Pi.add_apply, listed, one]
  by_cases hg : g = f
  · simp [hg, Nat.add_comm]
  · have : ¬ f = g := fun h => hg h.symm
    simp [hg, this]

theorem fetchArgs_spec :
    ∀ (args : List Arg) (argv : List Frame) (strs : List (List UInt8)) {m : Mem}, Ok L m →
      Shift L m₀ m 0 (listed argv) →
      ∃ r argv' strs' m', fetchArgs args argv strs m = .ok (r, argv', strs', m') ∧
        Shift L m₀ m' 0 (listed argv') := by
  intro args
  induction args with
  | nil =>
    intro argv strs m _ hs
    rw [fetchArgs]
    by_cases hmax : argv.length ≥ MAXARG
    · exact ⟨false, argv, strs, m, if_pos hmax, hs⟩
    · exact ⟨true, argv, strs, m, if_neg hmax, hs⟩
  | cons arg rest ih =>
    intro argv strs m hok hs
    by_cases hmax : argv.length ≥ MAXARG
    · refine ⟨false, argv, strs, m, ?_, hs⟩
      cases arg <;> exact if_pos hmax
    cases arg with
    | badAddr => exact ⟨false, argv, strs, m, if_neg hmax, hs⟩
    | badStr =>
      rw [fetchArgs, if_neg hmax]
      cases hfree : m.freelist with
      | nil =>
        refine ⟨false, argv, strs, { m with oom := true }, ?_, hs.trans (shift_oom L m _)⟩
        rw [kalloc_none hfree]
        show Except.ok (false, argv ++ [], strs, _) = _
        rw [List.append_nil]
      | cons pa rest' =>
        obtain ⟨m1, hrun1, ha⟩ := kalloc_some hok hfree
        refine ⟨false, argv ++ [pa], strs, m1, ?_, ?_⟩
        · rw [hrun1]
          rfl
        · rw [listed_append]
          exact hs.acquire ha.shift
    | str s =>
      rw [fetchArgs, if_neg hmax]
      cases hfree : m.freelist with
      | nil =>
        refine ⟨false, argv, strs, { m with oom := true }, ?_, hs.trans (shift_oom L m _)⟩
        rw [kalloc_none hfree]
        rfl
      | cons pa rest' =>
        obtain ⟨m1, hrun1, ha⟩ := kalloc_some hok hfree
        rw [hrun1]
        show ∃ r argv' strs' m', (if s.length < PGSIZE then _ else _) = _ ∧ _
        by_cases hlen : s.length < PGSIZE
        · have hfill := ha.fill (patch (m1.bytes pa) 0 (s ++ [0]))
          rw [if_pos hlen]
          refine ih (argv ++ [pa]) (strs ++ [s]) (hfill.ok hok) ?_
          rw [listed_append]
          exact hs.acquire hfill
        · refine ⟨false, argv ++ [pa], strs, m1, if_neg hlen, ?_⟩
          rw [listed_append]
          exact hs.acquire ha.shift

theorem freeArgs_spec :
    ∀ (argv : List Frame) {m : Mem}, Ok L m → (∀ f, listed argv f ≤ m.refcnt f) →
      ∃ m', freeArgs L argv m = .ok m' ∧ Shift L m m' (listed argv) 0 := by
  intro argv
  induction argv with
  | nil =>
    intro m _ _
    exact ⟨m, rfl, Shift.refl L m 0⟩
  | cons pa rest ih =>
    intro m hok hcov
    rw [listed_cons] at hcov
    obtain ⟨m1, hrun1, hs1, _, _⟩ := kfree_spec hok (f := pa) (by
      have h1 := hcov pa
      rw [Pi.add_apply, one_self] at h1
      omega)
    obtain ⟨m2, hrun2, hs2⟩ := ih (hs1.ok hok) (by
      intro f
      have h1 := hcov f
      have h2 := hs1.balance f
      simp only [Pi.add_apply, Pi.zero_apply] at h1 h2
      omega)
    refine ⟨m2, ?_, by rw [listed_cons]; exact hs1.release hs2⟩
    rw [freeArgs, hrun1]
    exact hrun2

/-- `sys_exec`, as `exec`: the argument pages are given back. -/
theorem sysExec_spec (tf : Frame) {old : PageTable} {oldsz : Nat}
    (headers : Option (List (Option Proghdr))) (args : List Arg)
    (hold : Held L m old (pages oldsz)) :
    ∃ r m', sysExec L tf old oldsz headers args m = .ok (r, m') ∧
      ((r = none ∧ Shift L m m' 0 0) ∨
        ∃ sz pt, r = some (sz, pt) ∧ Execed L m old sz pt m') := by
  obtain ⟨r1, argv, strs, m1, hrun1, hs1⟩ := fetchArgs_spec args [] [] hold.ok
    (Shift.refl L m _)
  have hargs : ∀ f, m1.refcnt f = m.refcnt f + listed argv f := hs1.balance
  have hsys : sysExec L tf old oldsz headers args m =
      if r1 then (exec L tf old oldsz headers strs m1 >>= fun q =>
        freeArgs L argv q.2 >>= fun m => .ok (q.1, m))
      else (freeArgs L argv m1 >>= fun m => .ok (none, m)) := by
    rw [sysExec, hrun1]
    rfl
  -- `argv` is given back whatever the shares of the image have become
  have hback : ∀ {a b : Frame → Nat} {m2 : Mem}, (∀ f, a f ≤ m.refcnt f) → Shift L m1 m2 a b →
      ∃ m3, freeArgs L argv m2 = .ok m3 ∧ Shift L m m3 a b := by
    intro a b m2 ha hs2
    obtain ⟨m3, hrun3, hs3⟩ := freeArgs_spec argv (hs2.ok (hs1.ok hold.ok)) (by
      intro f
      have h1 := hs2.balance f
      have h2 := hargs f
      have h3 := ha f
      omega)
    refine ⟨m3, hrun3, ?_⟩
    have h1 : Shift L m m1 a (a + listed argv) := by
      refine (hs1.add a).congr ?_ ?_ <;> intro f <;> simp [Nat.add_comm, listed]
    have h3 : Shift L m2 m3 (b + listed argv) b := by
      refine (hs3.add b).congr ?_ ?_ <;> intro f <;> simp [Nat.add_comm]
    exact h1.trans ((hs2.add (listed argv)).trans h3)
  cases r1 with
  | false =>
    obtain ⟨m3, hrun3, hs3⟩ := hback (fun f => Nat.zero_le _) (Shift.refl L m1 0)
    refine ⟨none, m3, ?_, Or.inl ⟨rfl, hs3⟩⟩
    rw [hsys, if_neg Bool.false_ne_true, hrun3]
    rfl
  | true =>
    obtain ⟨r2, m2, hrun2, hcase⟩ := exec_spec tf headers strs (hold.acquire hs1)
    rw [if_pos rfl, hrun2] at hsys
    rcases hcase with ⟨rfl, hs2⟩ | ⟨sz, pt, rfl, hx⟩
    · obtain ⟨m3, hrun3, hs3⟩ := hback (fun f => Nat.zero_le _) hs2
      refine ⟨none, m3, ?_, Or.inl ⟨rfl, hs3⟩⟩
      rw [hsys]
      show (freeArgs L argv m2 >>= _) = _
      rw [hrun3]
      rfl
    · obtain ⟨m3, hrun3, hs3⟩ := hback hold.covered hx.shift
      refine ⟨some (sz, pt), m3, ?_, Or.inr ⟨sz, pt, rfl, hx.image, hx.bound, hs3, ?_⟩⟩
      · rw [hsys]
        show (freeArgs L argv m2 >>= _) = _
        rw [hrun3]
        rfl
      · intro v e hv he
        have h1 := hx.fresh v e hv he
        have h2 := hargs e.ppn
        omega

end Spec

end Xv6.Memory
