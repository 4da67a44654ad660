import Mathlib.Algebra.Group.Int.Defs
import Mathlib.Algebra.GroupWithZero.Nat
import Mathlib.Logic.Function.Basic
import Xv6.Lib.Circle

/-!
# The user heap

The allocator of `user/umalloc.c`.  A header is 16 bytes, and the memory of
the process is seen as one header at each address, as far as the allocator
looks at it.  `freep` is 0 before the first call of `malloc`.  `base` is the
address of the static header with which the free list starts.

`sbrk` is given by its answers: an address, or nothing if it fails.  Its
argument is an `int`, and what it adds to the memory is a region of that
size.  A size in a header is a `uint`, so the additions of `free` wrap.

The loops of `free` and `malloc` have no bound.  They run with some fuel, and
a result is a result for every larger amount.
-/

namespace Xv6.Umalloc

open Xv6.Lib

/-- `sizeof(Header)`. -/
abbrev UNIT : Nat := 16

/-- `union header`: 16 bytes, of which the last four have no name. -/
structure Header where
  ptr : Nat
  size : Nat
  rest : Nat

/-- The memory, `freep`, the answers that `sbrk` is going to give, and the
regions that it has given: their addresses and their sizes in bytes. -/
structure Heap where
  mem : Nat → Header
  freep : Nat
  answers : List (Option Nat)
  regions : List (Nat × Nat)

/-- Change one header. -/
def Heap.set (h : Heap) (a : Nat) (x : Header) : Heap :=
  { h with mem := Function.update h.mem a x }

/-- `p->s.ptr`. -/
def Heap.ptr (h : Heap) (p : Nat) : Nat := (h.mem p).ptr

/-- `p->s.size`. -/
def Heap.size (h : Heap) (p : Nat) : Nat := (h.mem p).size

/-! ## `free` -/

/-- The two ways out of the loop of `free`: `bp` is between `p` and the next
block, or `p` is the last block and `bp` is before the first one or after the
last one. -/
def freeStop (h : Heap) (bp p : Nat) : Bool :=
  p < bp && bp < h.ptr p || h.ptr p ≤ p && (p < bp || bp < h.ptr p)

/-- Join to the upper neighbour. -/
def joinUpper (h : Heap) (bp p : Nat) : Heap :=
  if bp + UNIT * h.size bp = h.ptr p then
    h.set bp { h.mem bp with
      size := (h.size bp + h.size (h.ptr p)) % 2 ^ 32, ptr := h.ptr (h.ptr p) }
  else h.set bp { h.mem bp with ptr := h.ptr p }

/-- Join to the lower neighbour. -/
def joinLower (h : Heap) (bp p : Nat) : Heap :=
  if p + UNIT * h.size p = bp then
    h.set p { h.mem p with size := (h.size p + h.size bp) % 2 ^ 32, ptr := h.ptr bp }
  else h.set p { h.mem p with ptr := bp }

/-- `free`. -/
def free (fuel : Nat) (ap : Nat) (h : Heap) : Option Heap :=
  let bp := ap - UNIT
  (walk h.ptr (freeStop h bp) fuel h.freep).map (fun p =>
    { joinLower (joinUpper h bp p) bp p with freep := p })

/-! ## `malloc` -/

/-- The argument of `sbrk` in `morecore`, as an `int`. -/
def sbrkArg (nu : Nat) : Int := Int.bmod (nu * UNIT) (2 ^ 32)

/-- `sbrk`.  Without another answer it fails. -/
def sbrk (n : Int) (h : Heap) : Option Nat × Heap :=
  match h.answers with
  | [] => (none, h)
  | none :: rest => (none, { h with answers := rest })
  | some a :: rest =>
      (some a, { h with answers := rest, regions := (a, n.toNat) :: h.regions })

/-- The number of units that `morecore` asks for. -/
def coreUnits (nu : Nat) : Nat := if nu < 4096 then 4096 else nu

/-- `morecore`. -/
def morecore (fuel : Nat) (nu : Nat) (h : Heap) : Option (Nat × Heap) :=
  match sbrk (sbrkArg (coreUnits nu)) h with
  | (none, h) => some (0, h)
  | (some a, h) =>
      (free fuel (a + UNIT) (h.set a { h.mem a with size := coreUnits nu })).map
        (fun h => (h.freep, h))

/-- `nunits`.  The sum is computed in 64 bits. -/
def nunits (nbytes : UInt32) : Nat := (nbytes.toNat + UNIT - 1) / UNIT + 1

/-- Take `n` units from the block `p`, which has at least that many: the
whole block, or its tail end. -/
def carve (n prevp p : Nat) (h : Heap) : Nat × Heap :=
  if h.size p = n then
    (p + UNIT, { h.set prevp { h.mem prevp with ptr := h.ptr p } with freep := prevp })
  else
    let q := p + UNIT * (h.size p - n)
    let h := h.set p { h.mem p with size := h.size p - n }
    (q + UNIT, { h.set q { h.mem q with size := n } with freep := prevp })

/-- The loop of `malloc`. -/
def mallocLoop (n : Nat) : Nat → Nat → Nat → Heap → Option (Nat × Heap)
  | 0, _, _, _ => none
  | fuel + 1, prevp, p, h =>
      if n ≤ h.size p then some (carve n prevp p h)
      else if p = h.freep then
        (morecore fuel n h).bind (fun (p, h) =>
          if p = 0 then some (0, h) else mallocLoop n fuel p (h.ptr p) h)
      else mallocLoop n fuel p (h.ptr p) h

/-- The first call makes a free list of `base` alone. -/
def initList (base : Nat) (h : Heap) : Heap :=
  if h.freep = 0 then
    { h.set base { h.mem base with ptr := base, size := 0 } with freep := base }
  else h

/-- `malloc`. -/
def malloc (base fuel : Nat) (nbytes : UInt32) (h : Heap) : Option (Nat × Heap) :=
  let h := initList base h
  mallocLoop (nunits nbytes) fuel h.freep (h.ptr h.freep) h

/-! ## Programs that use the heap -/

/-- A block: its address, and its size in units with the header. -/
structure Block where
  addr : Nat
  size : Nat
  deriving DecidableEq, Repr

/-- The heap and the blocks that the program has. -/
structure State where
  heap : Heap
  allocated : List Block

/-- What a program does with its heap.  `fuel` bounds the loops.  A program
stores what it likes behind the header of a block. -/
inductive Op
  | malloc (nbytes : UInt32) (answers : List (Option Nat)) (fuel : Nat)
  | free (b : Block) (fuel : Nat)
  | store (b : Block) (k : Nat) (x : Header)

/-- One operation.  A result of `malloc` other than 0 is a new block, with the
size in its header. -/
def next (base : Nat) (s : State) : Op → Option State
  | .malloc nbytes answers fuel =>
      (malloc base fuel nbytes { s.heap with answers := answers }).map (fun (r, h) =>
        if r = 0 then ⟨h, s.allocated⟩
        else ⟨h, ⟨r - UNIT, h.size (r - UNIT)⟩ :: s.allocated⟩)
  | .free b fuel => (free fuel (b.addr + UNIT) s.heap).map (fun h => ⟨h, s.allocated.erase b⟩)
  | .store b k x => some ⟨s.heap.set (b.addr + UNIT * k) x, s.allocated⟩

/-- The heap of a new process. -/
def Initial (s : State) : Prop := s.heap.freep = 0 ∧ s.heap.regions = [] ∧ s.allocated = []

end Xv6.Umalloc
