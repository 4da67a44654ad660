import Xv6.Memory.PageTable

/-!
# User memory

The functions of `kernel/vm.c` that grow, shrink, copy and access the memory
of a process, and the fault handler of `kernel/trap.c`.

An address is a natural number below 2^64.  A function that returns 0 or -1
for an error keeps the state that it leaves behind, so its result is a pair
of the return value and that state.
-/

namespace Xv6.Memory

/-- `MAXVA`. -/
def MAXVA : Nat := MAXVPN * PGSIZE

/-- A page full of zeroes. -/
def zeroPage : Page := fun _ => 0

/-- `PTE_R | PTE_U | xperm`. -/
def userFlags (w x : Bool) : Flags := ⟨true, w, x, true⟩

/-! ## Growing and shrinking -/

/-- `uvmdealloc`. -/
def uvmdealloc (L : Layout) (pt : PageTable) (oldsz newsz : Nat) (m : Mem) :
    Except Panic (Nat × Mem × PageTable) :=
  if newsz ≥ oldsz then .ok (oldsz, m, pt)
  else if pages newsz < pages oldsz then do
    let (m, pt) ← uvmunmap L true (pages oldsz - pages newsz) (pages newsz) pt m
    .ok (newsz, m, pt)
  else .ok (newsz, m, pt)

/-- The loop of `uvmalloc` with `k` pages left, at page `a`.  The result
says whether it runs to its end. -/
def uvmallocLoop (L : Layout) (flags : Flags) (base : Nat) :
    Nat → Nat → PageTable → Mem → Except Panic (Bool × Mem × PageTable)
  | 0, _, pt, m => .ok (true, m, pt)
  | k + 1, a, pt, m => do
      let (mem, m) ← kalloc m
      match mem with
      | none => do
          let (_, m, pt) ← uvmdealloc L pt (a * PGSIZE) (base * PGSIZE) m
          .ok (false, m, pt)
      | some f => do
          let (r, m, pt) ← mappages pt a (.new f flags) (m.write f zeroPage)
          if r then uvmallocLoop L flags base k (a + 1) pt m
          else do
            let m ← kfree L f m
            let (_, m, pt) ← uvmdealloc L pt (a * PGSIZE) (base * PGSIZE) m
            .ok (false, m, pt)

/-- `uvmalloc`.  The return value 0 is an error. -/
def uvmalloc (L : Layout) (pt : PageTable) (oldsz newsz : Nat) (w x : Bool) (m : Mem) :
    Except Panic (Nat × Mem × PageTable) :=
  if newsz < oldsz then .ok (oldsz, m, pt)
  else do
    let (r, m, pt) ← uvmallocLoop L (userFlags w x) (pages oldsz) (pages newsz - pages oldsz)
      (pages oldsz) pt m
    .ok (if r then newsz else 0, m, pt)

/-- `uvmfirst`.  A null pointer from `kalloc` is written through, which
traps in the kernel, and the result of `mappages` is not tested. -/
def uvmfirst (src : List UInt8) (pt : PageTable) (m : Mem) : Except Panic (Mem × PageTable) :=
  if src.length ≥ PGSIZE then .error (.msg "uvmfirst: more than a page")
  else do
    let (mem, m) ← kalloc m
    match mem with
    | none => .error (.msg "kerneltrap")
    | some f => do
        let (_, m, pt) ← mappages pt 0 (.new f (userFlags true true)) (m.write f zeroPage)
        .ok (m.write f (fun i => src.getD i 0), pt)

/-! ## Fork -/

/-- `*pte &= ~PTE_W`. -/
def Pte.protect (e : Pte) : Pte := { e with flags := { e.flags with w := false } }

/-- The loop of `uvmcopy` with `k` pages left, at page `i`.  The result
has the return value, the memory, the old table and the new one. -/
def uvmcopyLoop (L : Layout) :
    Nat → Nat → PageTable → PageTable → Mem → Except Panic (Bool × Mem × PageTable × PageTable)
  | 0, _, old, new, m => .ok (true, m, old, new)
  | k + 1, i, old, new, m => do
      match ← walk old i with
      | none => .error (.msg "uvmcopy: pte should exist")
      | some none => .error (.msg "uvmcopy: page not present")
      | some (some e) => do
          let old := old.setLeaf i e.protect
          let m ← increaseCnt e.ppn m
          let (r, m, new) ← mappages new i e.protect m
          if r then uvmcopyLoop L k (i + 1) old new m
          else do
            let (m, new) ← uvmunmap L true i 0 new m
            .ok (false, m, old, new)

/-- `uvmcopy`. -/
def uvmcopy (L : Layout) (old new : PageTable) (sz : Nat) (m : Mem) :
    Except Panic (Bool × Mem × PageTable × PageTable) :=
  uvmcopyLoop L (pages sz) 0 old new m

/-- `*pte &= ~PTE_U`. -/
def Pte.guard (e : Pte) : Pte := { e with flags := { e.flags with u := false } }

/-- `uvmclear`. -/
def uvmclear (pt : PageTable) (v : Nat) : Except Panic PageTable := do
  match ← walk pt v with
  | none => .error (.msg "uvmclear")
  | some none => .ok pt
  | some (some e) => .ok (pt.setLeaf v e.guard)

/-! ## Faults -/

/-- `allocate_and_copy_page`. -/
def allocateAndCopyPage (pa1 : Frame) (m : Mem) : Except Panic (Option Frame × Mem) := do
  let (pa2, m) ← kalloc m
  match pa2 with
  | none => .ok (none, m)
  | some f => .ok (some f, m.write f (m.bytes pa1))

/-- The entry that `cowHandler` stores, with all flags. -/
def Pte.copied (e : Pte) (f : Frame) : Pte := ⟨f, ⟨true, true, true, true⟩, e.first⟩

/-- `cowHandler`, after `walk`. -/
def cowPage (L : Layout) (v : Nat) (e : Pte) (pt : PageTable) (m : Mem) :
    Except Panic (Bool × Mem × PageTable) :=
  if e.flags.u then do
    let (pa2, m) ← allocateAndCopyPage e.ppn m
    match pa2 with
    | none => .ok (false, m, pt)
    | some f => do
        let pt := pt.setLeaf v (e.copied f)
        let m ← kfree L e.ppn m
        .ok (true, m, pt)
  else .ok (false, m, pt)

/-- `cowHandler`. -/
def cowHandler (L : Layout) (va : Nat) (pt : PageTable) (m : Mem) :
    Except Panic (Bool × Mem × PageTable) :=
  if va ≥ MAXVA then .ok (false, m, pt)
  else if va = 0 then .ok (false, m, pt)
  else do
    match ← walk pt (va / PGSIZE) with
    | some (some e) => cowPage L (va / PGSIZE) e pt m
    | _ => .ok (false, m, pt)

/-! ## Copies between the kernel and a process -/

/-- `walkaddr`. -/
def walkaddr (pt : PageTable) (va : Nat) : Except Panic (Option Frame) :=
  if va ≥ MAXVA then .ok none
  else do
    match ← walk pt (va / PGSIZE) with
    | some (some e) => .ok (if e.flags.u then some e.ppn else none)
    | _ => .ok none

/-- `memmove` of `src` to the offset `off` of a page. -/
def patch (page : Page) (off : Nat) (src : List UInt8) : Page :=
  fun i => if off ≤ i then src.getD (i - off) (page i) else page i

/-- `n` bytes of a page from the offset `off`. -/
def slice (page : Page) (off n : Nat) : List UInt8 :=
  (List.range n).map (fun i => page (Fin.ofNat PGSIZE (off + i)))

/-- `PGROUNDDOWN`. -/
def pgrounddown (va : Nat) : Nat := va / PGSIZE * PGSIZE

theorem pgrounddown_div (va : Nat) : pgrounddown va / PGSIZE = va / PGSIZE := by
  unfold pgrounddown PGSIZE
  omega

theorem pgrounddown_lt_MAXVA {va : Nat} : pgrounddown va < MAXVA ↔ va < MAXVA := by
  unfold pgrounddown MAXVA
  rw [MAXVPN_eq]
  unfold PGSIZE
  omega

/-- The bytes that the page of `va` holds from `va` on, at most `len`. -/
def chunk (va len : Nat) : Nat := min (PGSIZE - va % PGSIZE) len

/-- The loop of `copyout`, with a bound on its iterations. -/
def copyoutLoop (L : Layout) :
    Nat → Nat → List UInt8 → PageTable → Mem → Except Panic (Bool × Mem × PageTable)
  | 0, _, _, pt, m => .ok (true, m, pt)
  | fuel + 1, dstva, src, pt, m =>
      if src.length = 0 then .ok (true, m, pt)
      else if pgrounddown dstva > MAXVA then .ok (false, m, pt)
      else do
        let (r, m, pt) ← cowHandler L (pgrounddown dstva) pt m
        if r then do
          match ← walkaddr pt (pgrounddown dstva) with
          | none => .ok (false, m, pt)
          | some f =>
              let n := chunk dstva src.length
              copyoutLoop L fuel (pgrounddown dstva + PGSIZE) (src.drop n) pt
                (m.write f (patch (m.bytes f) (dstva % PGSIZE) (src.take n)))
        else .ok (false, m, pt)

/-- `copyout`.  Every iteration copies a byte, so the length of `src`
bounds their number. -/
def copyout (L : Layout) (dstva : Nat) (src : List UInt8) (pt : PageTable) (m : Mem) :
    Except Panic (Bool × Mem × PageTable) :=
  copyoutLoop L src.length dstva src pt m

/-- The loop of `copyin`, with a bound on its iterations. -/
def copyinLoop (pt : PageTable) (m : Mem) :
    Nat → Nat → Nat → Except Panic (Option (List UInt8))
  | 0, _, _ => .ok (some [])
  | fuel + 1, srcva, len =>
      if len = 0 then .ok (some [])
      else do
        match ← walkaddr pt (pgrounddown srcva) with
        | none => .ok none
        | some f => do
            let n := chunk srcva len
            let rest ← copyinLoop pt m fuel (pgrounddown srcva + PGSIZE) (len - n)
            .ok (rest.map (slice (m.bytes f) (srcva % PGSIZE) n ++ ·))

/-- `copyin`. -/
def copyin (pt : PageTable) (srcva len : Nat) (m : Mem) : Except Panic (Option (List UInt8)) :=
  copyinLoop pt m len srcva len

end Xv6.Memory
