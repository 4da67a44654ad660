import Mathlib.Data.Finset.Prod
import Xv6.Memory.Kalloc

/-!
# User page tables

The three-level page tables of `kernel/vm.c`, and the functions that build
them and take them apart.  A virtual page is its number, `va / PGSIZE`.

A table is kept flat.  `mid i` is the page of the level-1 table behind entry
`i` of the root, `low i j` is the page of the level-0 table behind entry `j`
of that one, and `leaf v` is the leaf entry of the virtual page `v`.  An
entry without `PTE_V` is `none`; the source only ever stores 0 there.  The
two fields of `PageTable` that are proofs say that an entry hangs below a
table that exists.

`tables` is the shares of a page table in its own pages, and `leaves` its
shares in the user pages, below `TRAPFRAME`.  The pages of the trampoline
and of the trapframe are mapped without a share.
-/

namespace Xv6.Memory

open Xv6.Lib Function

/-! ## Page tables -/

/-- `MAXVA`, as a page number. -/
def MAXVPN : Nat := 2 ^ 26

/-- `TRAMPOLINE`, as a page number. -/
def TRAMPOLINE : Nat := MAXVPN - 1

/-- `TRAPFRAME`, as a page number. -/
def TRAPFRAME : Nat := MAXVPN - 2

theorem MAXVPN_eq : MAXVPN = 67108864 := rfl

theorem TRAMPOLINE_eq : TRAMPOLINE = 67108863 := rfl

theorem TRAPFRAME_eq : TRAPFRAME = 67108862 := rfl

/-- `PX(level, va)`. -/
def px (level v : Nat) : Nat := v / 2 ^ (9 * level) % 512

/-- `PTE_R`, `PTE_W`, `PTE_X` and `PTE_U`. -/
structure Flags where
  r : Bool
  w : Bool
  x : Bool
  u : Bool
  deriving DecidableEq

/-- A leaf entry with `PTE_V`.  `first` records the flags with which the
page was first mapped, before any `fork` and any fault, and is read by no
function. -/
structure Pte where
  ppn : Frame
  flags : Flags
  first : Flags
  deriving DecidableEq

/-- The entry of a page that is mapped for the first time. -/
def Pte.new (ppn : Frame) (flags : Flags) : Pte := ⟨ppn, flags, flags⟩

/-- A page table. -/
structure PageTable where
  root : Frame
  mid : Nat → Option Frame
  low : Nat → Nat → Option Frame
  leaf : Nat → Option Pte
  low_mid : ∀ i j, (low i j).isSome → (mid i).isSome
  leaf_low : ∀ v, (leaf v).isSome → (low (px 2 v) (px 1 v)).isSome

namespace PageTable

/-- A root page full of zeroes. -/
def empty (root : Frame) : PageTable where
  root := root
  mid := fun _ => none
  low := fun _ _ => none
  leaf := fun _ => none
  low_mid := by simp
  leaf_low := by simp

/-- Hang a level-1 table below the root. -/
def setMid (pt : PageTable) (i : Nat) (f : Frame) : PageTable :=
  { pt with
    mid := update pt.mid i (some f)
    low_mid := by
      intro i' j h
      by_cases hi : i' = i
      · simp [hi]
      · rw [update_of_ne hi]
        exact pt.low_mid i' j h }

/-- Hang a level-0 table below a level-1 table. -/
def setLow (pt : PageTable) (i j : Nat) (f : Frame) : PageTable :=
  if hmid : (pt.mid i).isSome then
    { pt with
      low := update pt.low i (update (pt.low i) j (some f))
      low_mid := by
        intro i' j' h
        by_cases hi : i' = i
        · rw [hi]
          exact hmid
        · rw [update_of_ne hi] at h
          exact pt.low_mid i' j' h
      leaf_low := by
        intro v h
        have hold := pt.leaf_low v h
        by_cases hi : px 2 v = i
        · rw [hi, update_self]
          by_cases hj : px 1 v = j
          · simp [hj]
          · rw [update_of_ne hj, ← hi]
            exact hold
        · rw [update_of_ne hi]
          exact hold }
  else pt

/-- Store a leaf entry. -/
def setLeaf (pt : PageTable) (v : Nat) (e : Pte) : PageTable :=
  if hlow : (pt.low (px 2 v) (px 1 v)).isSome then
    { pt with
      leaf := update pt.leaf v (some e)
      leaf_low := by
        intro v' h
        by_cases hv : v' = v
        · rw [hv]
          exact hlow
        · rw [update_of_ne hv] at h
          exact pt.leaf_low v' h }
  else pt

/-- Store 0 in a leaf entry. -/
def clearLeaf (pt : PageTable) (v : Nat) : PageTable :=
  { pt with
    leaf := update pt.leaf v none
    leaf_low := by
      intro v' h
      by_cases hv : v' = v
      · simp [hv] at h
      · rw [update_of_ne hv] at h
        exact pt.leaf_low v' h }

end PageTable

/-! ## `walk` and `mappages` -/

/-- `walk(pagetable, va, 0)`.  The outer `none` is the null pointer, and
the inner one is an entry without `PTE_V`. -/
def walk (pt : PageTable) (v : Nat) : Except Panic (Option (Option Pte)) :=
  if v ≥ MAXVPN then .error (.msg "walk")
  else if (pt.mid (px 2 v)).isNone then .ok none
  else if (pt.low (px 2 v) (px 1 v)).isNone then .ok none
  else .ok (some (pt.leaf v))

/-- The iteration of `walk(pagetable, va, 1)` at level 2. -/
def walkMid (pt : PageTable) (v : Nat) (m : Mem) : Except Panic (Bool × Mem × PageTable) :=
  if (pt.mid (px 2 v)).isSome then .ok (true, m, pt)
  else do
    let (r, m) ← kalloc m
    match r with
    | none => .ok (false, m, pt)
    | some f => .ok (true, m, pt.setMid (px 2 v) f)

/-- The iteration of `walk(pagetable, va, 1)` at level 1. -/
def walkLow (pt : PageTable) (v : Nat) (m : Mem) : Except Panic (Bool × Mem × PageTable) :=
  if (pt.low (px 2 v) (px 1 v)).isSome then .ok (true, m, pt)
  else do
    let (r, m) ← kalloc m
    match r with
    | none => .ok (false, m, pt)
    | some f => .ok (true, m, pt.setLow (px 2 v) (px 1 v) f)

/-- `walk(pagetable, va, 1)`.  The result says whether the pointer is not
null. -/
def walkAlloc (pt : PageTable) (v : Nat) (m : Mem) : Except Panic (Bool × Mem × PageTable) :=
  if v ≥ MAXVPN then .error (.msg "walk")
  else do
    let (ok, m, pt) ← walkMid pt v m
    if ok then walkLow pt v m else .ok (false, m, pt)

/-- `mappages(pagetable, va, PGSIZE, pa, perm)`.  Every call on a user page
table maps one page. -/
def mappages (pt : PageTable) (v : Nat) (e : Pte) (m : Mem) :
    Except Panic (Bool × Mem × PageTable) := do
  let (ok, m, pt) ← walkAlloc pt v m
  if ok then
    if (pt.leaf v).isSome then .error (.msg "mappages: remap")
    else .ok (true, m, pt.setLeaf v e)
  else .ok (false, m, pt)

/-! ## Unmapping and freeing -/

/-- `uvmunmap(pagetable, va, npages, do_free)`. -/
def uvmunmap (L : Layout) (doFree : Bool) :
    Nat → Nat → PageTable → Mem → Except Panic (Mem × PageTable)
  | 0, _, pt, m => .ok (m, pt)
  | n + 1, v, pt, m => do
      match ← walk pt v with
      | none => .error (.msg "uvmunmap: walk")
      | some none => .error (.msg "uvmunmap: not mapped")
      | some (some e) =>
          if ¬ (e.flags.r ∨ e.flags.w ∨ e.flags.x ∨ e.flags.u) then .error (.msg "uvmunmap: not a leaf")
          else do
            let m ← if doFree then kfree L e.ppn m else .ok m
            uvmunmap L doFree n (v + 1) (pt.clearLeaf v) m

/-- `freewalk` of a level-0 table. -/
def freeLow (L : Layout) (pt : PageTable) (i j : Nat) (m : Mem) : Except Panic Mem :=
  match pt.low i j with
  | none => .ok m
  | some f =>
      if (List.range 512).any (fun k => (pt.leaf ((i * 512 + j) * 512 + k)).isSome) then
        .error (.msg "freewalk: leaf")
      else kfree L f m

/-- `freewalk` of a level-1 table. -/
def freeMid (L : Layout) (pt : PageTable) (i : Nat) (m : Mem) : Except Panic Mem :=
  match pt.mid i with
  | none => .ok m
  | some f => do
      let m ← (List.range 512).foldlM (fun m j => freeLow L pt i j m) m
      kfree L f m

/-- `freewalk`.  A user page table has no entry in the upper half of its
root. -/
def freewalk (L : Layout) (pt : PageTable) (m : Mem) : Except Panic Mem := do
  let m ← (List.range 256).foldlM (fun m i => freeMid L pt i m) m
  kfree L pt.root m

/-- `PGROUNDUP(sz) / PGSIZE`. -/
def pages (sz : Nat) : Nat := (sz + PGSIZE - 1) / PGSIZE

/-- `uvmfree`. -/
def uvmfree (L : Layout) (pt : PageTable) (sz : Nat) (m : Mem) : Except Panic Mem := do
  let (m, pt) ← if sz > 0 then uvmunmap L true (pages sz) 0 pt m else .ok (m, pt)
  freewalk L pt m

/-- `uvmcreate`. -/
def uvmcreate (m : Mem) : Except Panic (Option PageTable × Mem) := do
  let (r, m) ← kalloc m
  .ok (r.map PageTable.empty, m)

/-- `proc_pagetable`, for a process with the trapframe page `tf`. -/
def procPagetable (L : Layout) (tf : Frame) (m : Mem) :
    Except Panic (Option PageTable × Mem) := do
  let (r, m) ← uvmcreate m
  match r with
  | none => .ok (none, m)
  | some pt => do
      let (ok, m, pt) ← mappages pt TRAMPOLINE (.new L.trampoline ⟨true, false, true, false⟩) m
      if ok then
        let (ok, m, pt) ← mappages pt TRAPFRAME (.new tf ⟨true, true, false, false⟩) m
        if ok then .ok (some pt, m)
        else
          let (m, pt) ← uvmunmap L false 1 TRAMPOLINE pt m
          let m ← uvmfree L pt 0 m
          .ok (none, m)
      else
        let m ← uvmfree L pt 0 m
        .ok (none, m)

/-- `proc_freepagetable`. -/
def procFreepagetable (L : Layout) (pt : PageTable) (sz : Nat) (m : Mem) : Except Panic Mem := do
  let (m, pt) ← uvmunmap L false 1 TRAMPOLINE pt m
  let (m, pt) ← uvmunmap L false 1 TRAPFRAME pt m
  uvmfree L pt sz m

end Xv6.Memory
