import Xv6.FileSystem.Dirent
import Xv6.Lib.Program

/-!
# `mkfs`

`mkfs/mkfs.c` as a program over the image that it writes.  An input file is
its path and what the calls of `read` return for it, so that every way in
which the host splits a file is covered.

The image is zeroed at the start.  A sector past its end cannot be read, and
`rsect` then dies.  `freeblock` is the next block that `iappend` takes.
`rinode` and `winode` are for the inode numbers that the image has room for.
-/

namespace Xv6.FileSystem.Mkfs

open Xv6.Lib

/-- `FSSIZE`. -/
abbrev FSSIZE : Nat := 2000

/-- `NINODES`. -/
abbrev NINODES : Nat := 200

/-- `IPB`: an inode has 64 bytes on the disk. -/
abbrev IPB : Nat := BSIZE / 64

/-- `nbitmap`. -/
abbrev nbitmap : Nat := FSSIZE / (BSIZE * 8) + 1

/-- `ninodeblocks`. -/
abbrev ninodeblocks : Nat := NINODES / IPB + 1

/-- `nlog`, which is `LOGSIZE`. -/
abbrev nlog : Nat := 30

/-- `nmeta`. -/
abbrev nmeta : Nat := 2 + nlog + ninodeblocks + nbitmap

/-- The superblock. -/
def sb : Superblock := ⟨FSSIZE, NINODES, 2 + nlog + ninodeblocks, by decide⟩

/-- How `mkfs` stops early: a failed assertion, or `die`. -/
inductive Exit
  | assert | die
  deriving DecidableEq, Repr

/-- The image, and the two counters. -/
structure State where
  disk : Disk
  freeinode : Nat
  freeblock : Nat

abbrev M := StateT State (Except Exit)

/-- What one call of `read` returns: at least one byte, and at most what fits
into `buf`. -/
abbrev Chunk := { bytes : List UInt8 // 0 < bytes.length ∧ bytes.length ≤ BSIZE }

/-- A file to be put into the image.  It cannot be opened if `reads` is
`none`. -/
structure InputFile where
  path : List UInt8
  reads : Option (List Chunk)

/-! ## Sectors and inodes -/

/-- `rsect`. -/
def rsect (sec : Nat) : M Buffer := do
  let s ← get
  if sec < FSSIZE then pure (s.disk.block sec) else throw .die

/-- `wsect`. -/
def wsect (sec : Nat) (buf : Buffer) : M PUnit :=
  modify (fun s => { s with disk := s.disk.setBlock sec buf })

/-- `rinode`. -/
def rinode (inum : Nat) : M Dinode := do
  let s ← get
  pure (s.disk.dinode inum)

/-- `winode`. -/
def winode (inum : Nat) (ip : Dinode) : M PUnit :=
  modify (fun s => { s with disk := s.disk.put inum ip })

/-- `ialloc`. -/
def ialloc (type : FileType) : M Nat := do
  let s ← get
  set { s with freeinode := s.freeinode + 1 }
  winode s.freeinode { Dinode.zero with type := type, nlink := 1 }
  pure s.freeinode

/-- `balloc`. -/
def balloc (used : Nat) : M PUnit :=
  if used < BSIZE * 8 then
    modify (fun s => { s with disk := { s.disk with bitmap := fun b => decide (b < used) } })
  else throw .assert

/-- `freeblock++`. -/
def nextBlock : M Nat := do
  let s ← get
  set { s with freeblock := s.freeblock + 1 }
  pure s.freeblock

/-! ## Appending to a file -/

/-- The part of `iappend` that finds the indirect block. -/
def iindirect (din : Dinode) : M Dinode :=
  if din.addrs NDIRECT = 0 then do
    let b ← nextBlock
    pure (din.setAddr NDIRECT b)
  else pure din

/-- The part of `iappend` that finds the block `x`, number `fbn` of the
file. -/
def iblock (din : Dinode) (fbn : Nat) : M (Nat × Dinode) :=
  if fbn < NDIRECT then
    if din.addrs fbn = 0 then do
      let b ← nextBlock
      pure (b, din.setAddr fbn b)
    else pure (din.addrs fbn, din)
  else do
    let din ← iindirect din
    let indirect ← rsect (din.addrs NDIRECT)
    if indirect.word (fbn - NDIRECT) = 0 then do
      let b ← nextBlock
      wsect (din.addrs NDIRECT) (indirect.setWord (fbn - NDIRECT) b)
      pure (b, din)
    else pure (indirect.word (fbn - NDIRECT), din)

/-- The loop of `iappend`, with the bytes `p` left.  Every round stores at
least one byte, so their number bounds the rounds. -/
def iappendLoop : Nat → Dinode → Nat → List UInt8 → M (Dinode × Nat)
  | 0, din, off, _ => pure (din, off)
  | rounds + 1, din, off, p =>
      if p = [] then pure (din, off)
      else do
        let fbn := off / BSIZE
        if fbn < MAXFILE then do
          let (x, din) ← iblock din fbn
          let n1 := min p.length ((fbn + 1) * BSIZE - off)
          let buf ← rsect x
          wsect x (buf.patch (off - fbn * BSIZE) (p.take n1))
          iappendLoop rounds din (off + n1) (p.drop n1)
        else throw .assert

/-- `iappend`. -/
def iappend (inum : Nat) (p : List UInt8) : M PUnit := do
  let din ← rinode inum
  let (din, off) ← iappendLoop p.length din din.size p
  winode inum { din with size := off }

/-! ## The program -/

/-- The path without `user/` in front. -/
def stripDir (path : List UInt8) : List UInt8 :=
  if path.take 5 = [117, 115, 101, 114, 47] then path.drop 5 else path

/-- The name without a `_` in front. -/
def stripUnderscore (name : List UInt8) : List UInt8 :=
  if name.head? = some 95 then name.tail else name

/-- The body of the loop over the files. -/
def addFile (rootino : Nat) (f : InputFile) : M PUnit := do
  let shortname := stripDir f.path
  if 47 ∈ shortname then throw .assert
  else
    match f.reads with
    | none => throw .die
    | some chunks => do
        let inum ← ialloc .file
        iappend rootino (Dirent.named inum (stripUnderscore shortname)).bytes
        chunks.forM (fun c => iappend inum c.val)

/-- `off = ((off/BSIZE) + 1) * BSIZE`. -/
def fixSize (off : Nat) : Nat := (off / BSIZE + 1) * BSIZE

/-- `main`, after the image is zeroed and the superblock is written. -/
def main (files : List InputFile) : M PUnit := do
  let rootino ← ialloc .dir
  if rootino = ROOTINO then do
    iappend rootino (Dirent.named rootino [46]).bytes
    iappend rootino (Dirent.named rootino [46, 46]).bytes
    files.forM (addFile rootino)
    -- fix size of root inode dir
    let din ← rinode rootino
    winode rootino { din with size := fixSize din.size }
    let s ← get
    balloc s.freeblock
  else throw .assert

/-- The zeroed image. -/
def blank : State := ⟨⟨fun _ => .zero, fun _ => false, fun _ => .zero⟩, 1, nmeta⟩

/-- The image that `mkfs` writes for a list of files. -/
def mkfs (files : List InputFile) : Except Exit State := do
  let r ← main files blank
  pure r.2

end Xv6.FileSystem.Mkfs
