import Xv6.FileSystem.Volume
import Xv6.Lib.Program

/-!
# The functions of `kernel/fs.c` on one inode

`balloc`, `bfree`, `bmap`, `itrunc`, `iupdate`, `readi` and `writei`.  They
work on an inode that the caller has locked, which is the copy `ip` in
memory, and on the disk as the buffer cache shows it.  `log_write` panics
unless a transaction is open.

A copy from user memory can fail after some bytes.  A `Source` has the bytes,
and says how many of each request arrive.  A `Sink` says which copies to user
memory succeed.  For a kernel address every copy succeeds.

`off` and `n` are 32-bit words, as in the source, and the checks of `readi`
and `writei` compare the wrapped sum.  After them all numbers are small.
-/

namespace Xv6.FileSystem

open Xv6.Lib

/-- The panics of `kernel/fs.c`, `kernel/log.c` and `kernel/sysfile.c` on
these paths. -/
inductive Panic
  | logWriteOutside | freeingFreeBlock | bmapRange | ilock | ilockNoType | igetNoInodes
  | dirlookupNotDir | dirlookupRead | dirlinkRead | isdiremptyRead | unlinkNlink | unlinkWritei
  | fileread | filewrite | filedup | fileclose
  deriving DecidableEq, Repr

/-- A locked inode: its number, its copy in memory, the disk, and whether a
transaction is open. -/
structure File where
  inum : Nat
  ip : Dinode
  disk : Disk
  trans : Bool

abbrev FileM := StateT File (Except Panic)

/-- What `either_copyin` reads from: the bytes, and how many of the `m` bytes
at offset `tot` arrive.  It returns -1 if these are less than `m`. -/
structure Source where
  byte : Buffer
  arrives : Nat → Nat → Nat
  arrives_le : ∀ tot m, arrives tot m ≤ m

/-- The bytes that arrive. -/
def Source.copy (src : Source) (tot m : Nat) : List UInt8 := src.byte.slice tot (src.arrives tot m)

/-- The first `n` bytes of the source can be read. -/
def Source.Readable (src : Source) (n : Nat) : Prop :=
  ∀ tot m, tot + m ≤ n → src.arrives tot m = m

/-- Whether `either_copyout` of `m` bytes to offset `tot` of the destination
succeeds. -/
abbrev Sink := Nat → Nat → Bool

/-- A source in kernel memory. -/
def Source.kernel (bytes : List UInt8) : Source :=
  ⟨fun k => bytes.getD k 0, fun _ m => m, fun _ m => Nat.le_refl m⟩

/-- A destination in kernel memory. -/
def Sink.kernel : Sink := fun _ _ => true

/-! ## Blocks -/

/-- `bread`. -/
def bread (b : Nat) : FileM Buffer := do
  let s ← get
  pure (s.disk.block b)

/-- `log_write`. -/
def logWrite : FileM PUnit := do
  let s ← get
  if s.trans then pure ⟨⟩ else throw .logWriteOutside

/-- Store into a block and log it. -/
def bwrite (b : Nat) (x : Buffer) : FileM PUnit := do
  logWrite
  modify (fun s => { s with disk := s.disk.setBlock b x })

/-- Store a bit of the free map and log it. -/
def setBit (b : Nat) (v : Bool) : FileM PUnit := do
  logWrite
  modify (fun s => { s with disk := s.disk.mark b v })

/-- The first block whose bit is clear.  The source goes through the free map
block by block. -/
def firstFree (sb : Superblock) (d : Disk) : Option Nat :=
  (List.range sb.size).find? (fun b => !d.bitmap b)

/-- `balloc`. -/
def balloc (sb : Superblock) : FileM Nat := do
  let s ← get
  match firstFree sb s.disk with
  | none => pure 0
  | some b => do
      setBit b true
      -- `bzero`
      bwrite b Buffer.zero
      pure b

/-- `bfree`. -/
def bfree (b : Nat) : FileM PUnit := do
  let s ← get
  if s.disk.bitmap b then setBit b false else throw .freeingFreeBlock

/-! ## The blocks of a file -/

/-- `ip->addrs[k]`, with a new block if there is none.  The result 0 means
that the disk is full. -/
def ipAddr (sb : Superblock) (k : Nat) : FileM Nat := do
  let s ← get
  if s.ip.addrs k = 0 then do
    let addr ← balloc sb
    if addr = 0 then pure 0
    else do
      modify (fun s => { s with ip := s.ip.setAddr k addr })
      pure addr
  else pure (s.ip.addrs k)

/-- `bmap`. -/
def bmap (sb : Superblock) (bn : Nat) : FileM Nat :=
  if bn < NDIRECT then ipAddr sb bn
  else if bn - NDIRECT < NINDIRECT then do
    let ind ← ipAddr sb NDIRECT
    if ind = 0 then pure 0
    else do
      let a ← bread ind
      if a.word (bn - NDIRECT) = 0 then do
        let addr ← balloc sb
        if addr = 0 then pure 0
        else do
          let a ← bread ind
          bwrite ind (a.setWord (bn - NDIRECT) addr)
          pure addr
      else pure (a.word (bn - NDIRECT))
  else throw .bmapRange

/-- `iupdate`. -/
def iupdate : FileM PUnit := do
  logWrite
  modify (fun s => { s with disk := s.disk.put s.inum s.ip })

/-- One round of the first loop of `itrunc`. -/
def freeDirect (i : Nat) : FileM PUnit := do
  let s ← get
  if s.ip.addrs i = 0 then pure ⟨⟩
  else do
    bfree (s.ip.addrs i)
    modify (fun s => { s with ip := s.ip.setAddr i 0 })

/-- One round of its second loop, over the words of the indirect block. -/
def freeWord (a : Buffer) (j : Nat) : FileM PUnit :=
  if a.word j = 0 then pure ⟨⟩ else bfree (a.word j)

/-- The part of `itrunc` for the indirect block. -/
def freeIndirect : FileM PUnit := do
  let s ← get
  if s.ip.addrs NDIRECT = 0 then pure ⟨⟩
  else do
    let a ← bread (s.ip.addrs NDIRECT)
    (List.range NINDIRECT).forM (freeWord a)
    bfree (s.ip.addrs NDIRECT)
    modify (fun s => { s with ip := s.ip.setAddr NDIRECT 0 })

/-- `itrunc`. -/
def itrunc : FileM PUnit := do
  (List.range NDIRECT).forM freeDirect
  freeIndirect
  modify (fun s => { s with ip := { s.ip with size := 0 } })
  iupdate

/-! ## Reading and writing -/

/-- The loop of `readi`.  Every round moves at least one byte, so the number
of bytes bounds the rounds. -/
def readLoop (sb : Superblock) (dst : Sink) :
    Nat → Nat → Nat → Nat → List UInt8 → FileM (Int × List UInt8)
  | 0, tot, _, _, out => pure (tot, out)
  | rounds + 1, tot, off, n, out =>
      if tot < n then do
        let addr ← bmap sb (off / BSIZE)
        if addr = 0 then pure (tot, out)
        else do
          let x ← bread addr
          let m := min (n - tot) (BSIZE - off % BSIZE)
          if dst tot m then
            readLoop sb dst rounds (tot + m) (off + m) n (out ++ x.slice (off % BSIZE) m)
          else pure (-1, out)
      else pure (tot, out)

/-- `readi`: its result, and the bytes that it has copied. -/
def readi (sb : Superblock) (dst : Sink) (off n : UInt32) : FileM (Int × List UInt8) := do
  let s ← get
  if off.toNat > s.ip.size ∨ off + n < off then pure (0, [])
  else
    let n := if (off + n).toNat > s.ip.size then s.ip.size - off.toNat else n.toNat
    readLoop sb dst n 0 off.toNat n []

/-- The loop of `writei`: the number of bytes written, and the new offset. -/
def writeLoop (sb : Superblock) (src : Source) : Nat → Nat → Nat → Nat → FileM (Nat × Nat)
  | 0, tot, off, _ => pure (tot, off)
  | rounds + 1, tot, off, n =>
      if tot < n then do
        let addr ← bmap sb (off / BSIZE)
        if addr = 0 then pure (tot, off)
        else do
          let x ← bread addr
          let m := min (n - tot) (BSIZE - off % BSIZE)
          let x := x.patch (off % BSIZE) (src.copy tot m)
          if src.arrives tot m = m then do
            bwrite addr x
            writeLoop sb src rounds (tot + m) (off + m) n
          else do
            -- the buffer has changed, but is not logged
            modify (fun s => { s with disk := s.disk.setBlock addr x })
            pure (tot, off)
      else pure (tot, off)

/-- `writei`. -/
def writei (sb : Superblock) (src : Source) (off n : UInt32) : FileM Int := do
  let s ← get
  if off.toNat > s.ip.size ∨ off + n < off then pure (-1)
  else if (off + n).toNat > MAXFILE * BSIZE then pure (-1)
  else do
    let (tot, off) ← writeLoop sb src n.toNat 0 off.toNat n.toNat
    modify (fun s => { s with ip := if off > s.ip.size then { s.ip with size := off } else s.ip })
    iupdate
    pure tot

end Xv6.FileSystem
