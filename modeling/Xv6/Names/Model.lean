import Xv6.FileSystem.Content
import Xv6.FileSystem.Dirent

/-!
# Inodes in memory, directories and paths

The part of `kernel/fs.c` above the contents of one inode: the inode table,
`ialloc`, directories and path names, and from `kernel/sysfile.c` the functions
that change directories: `create`, `sys_link` and `sys_unlink`.

A pointer to an inode is its slot in the table.  `onInode` runs a function on the
inode in a slot.  Calls run one after the other, so a lock is free when a call takes
it, and the locks are not part of the state.  `begin_op` and `end_op` set and clear
`trans`.

A string is the list of its bytes before the 0 that ends it.  The name buffers of
`DIRSIZ` bytes that `skipelem` fills have no such 0 if the name is long; here they are
the first `DIRSIZ` bytes of the path element.
-/

namespace Xv6.Names

open Xv6.Lib Xv6.FileSystem

/-! ## The inode table -/

/-- `NINODE`. -/
abbrev NINODE : Nat := 50

instance : NeZero NINODE := ⟨by decide⟩

/-- A place in the inode table. -/
abbrev Slot := Fin NINODE

/-- `struct inode`.  `copy` has the fields that are a copy of the disk. -/
structure Inode where
  inum : Nat
  ref : Nat
  valid : Bool
  copy : Dinode

/-- The disk, the inode table, and whether a transaction is open. -/
structure Fs where
  disk : Disk
  inode : Slot → Inode
  trans : Bool

abbrev FsM := StateT Fs (Except Panic)

namespace Fs

/-- The inode in slot `k`, as the functions on one inode see it. -/
def file (s : Fs) (k : Slot) : File := ⟨(s.inode k).inum, (s.inode k).copy, s.disk, s.trans⟩

/-- The state after such a function. -/
def setFile (k : Slot) (t : File) (s : Fs) : Fs :=
  { s with disk := t.disk, inode := Function.update s.inode k { s.inode k with copy := t.ip } }

/-- The state with another inode in slot `k`. -/
def setInode (s : Fs) (k : Slot) (ip : Inode) : Fs :=
  { s with inode := Function.update s.inode k ip }

end Fs

/-- Run a function on the inode in slot `k`. -/
def onInode {α : Type} (k : Slot) (m : FileM α) : FsM α := zoom (fun s => s.file k) (Fs.setFile k) m

/-- `begin_op`. -/
def beginOp : FsM PUnit := modify (fun s => { s with trans := true })

/-- `end_op`. -/
def endOp : FsM PUnit := modify (fun s => { s with trans := false })

/-- `iget`.  The source looks for both slots in one loop. -/
def iget (inum : Nat) : FsM Slot := do
  let s ← get
  match (List.finRange NINODE).find? (fun k => 0 < (s.inode k).ref ∧ (s.inode k).inum = inum) with
  | some k => do
      set (s.setInode k { s.inode k with ref := (s.inode k).ref + 1 })
      pure k
  | none =>
      match (List.finRange NINODE).find? (fun k => (s.inode k).ref = 0) with
      | none => throw .igetNoInodes
      | some k => do
          set (s.setInode k { s.inode k with inum := inum, ref := 1, valid := false })
          pure k

/-- `idup`. -/
def idup (k : Slot) : FsM Slot := do
  modify (fun s => s.setInode k { s.inode k with ref := (s.inode k).ref + 1 })
  pure k

/-- `ilock`. -/
def ilock (k : Slot) : FsM PUnit := do
  let s ← get
  if (s.inode k).ref < 1 then throw .ilock
  else if (s.inode k).valid then pure ⟨⟩
  else do
    let copy := s.disk.dinode (s.inode k).inum
    set (s.setInode k { s.inode k with copy := copy, valid := true })
    if copy.type = .free then throw .ilockNoType else pure ⟨⟩

/-- Change the fields of a locked inode, then `iupdate`. -/
def updateInode (k : Slot) (f : Dinode → Dinode) : FsM PUnit :=
  onInode k (do
    modify (fun s => { s with ip := f s.ip })
    iupdate)

/-- `iput`. -/
def iput (k : Slot) : FsM PUnit := do
  let s ← get
  if (s.inode k).ref = 1 ∧ (s.inode k).valid = true ∧ (s.inode k).copy.nlink = 0 then do
    onInode k itrunc
    updateInode k (fun ip => { ip with type := .free })
    modify (fun s => s.setInode k { s.inode k with valid := false })
  modify (fun s => s.setInode k { s.inode k with ref := (s.inode k).ref - 1 })

/-- `ialloc`. -/
def ialloc (sb : Superblock) (type : FileType) : FsM (Option Slot) := do
  let s ← get
  match (List.range sb.ninodes).find? (fun i => 0 < i ∧ (s.disk.dinode i).type = .free) with
  | none => pure none
  | some inum =>
      if s.trans then do
        set { s with disk := s.disk.put inum { Dinode.zero with type := type } }
        let k ← iget inum
        pure (some k)
      else throw .logWriteOutside

/-! ## Directories -/

/-- A directory entry that has been read. -/
structure Entry where
  inum : Nat
  name : List UInt8
  deriving DecidableEq

/-- The entry in 16 bytes. -/
def Entry.ofBytes (bytes : List UInt8) : Entry :=
  ⟨(bytes.getD 0 0).toNat + 256 * (bytes.getD 1 0).toNat, bytes.drop 2⟩

/-- `strncmp(p, q, n)`. -/
def strncmp : List UInt8 → List UInt8 → Nat → Int
  | _, _, 0 => 0
  | p, q, n + 1 =>
      if p.headD 0 ≠ 0 ∧ p.headD 0 = q.headD 0 then strncmp p.tail q.tail n
      else (p.headD 0).toNat - (q.headD 0).toNat

/-- `namecmp`. -/
def namecmp (s t : List UInt8) : Int := strncmp s t DIRSIZ

/-- Read the entry at `off`. -/
def readEntry (sb : Superblock) (dp : Slot) (off : Nat) (short : Panic) : FsM Entry := do
  let (r, bytes) ← onInode dp (readi sb Sink.kernel (UInt32.ofNat off) (UInt32.ofNat DIRENT))
  if r ≠ DIRENT then throw short else pure (Entry.ofBytes bytes)

/-- The loops of `dirlookup`, `dirlink` and `isdirempty`: the first entry from `off` on at
which the loop stops, and its offset.  A short read panics. -/
def scanEntries (sb : Superblock) (dp : Slot) (short : Panic) (stop : Entry → Bool) :
    Nat → Nat → FsM (Option (Entry × Nat))
  | 0, _ => pure none
  | rounds + 1, off => do
      let s ← get
      if off < (s.inode dp).copy.size then do
        let de ← readEntry sb dp off short
        if stop de then pure (some (de, off))
        else scanEntries sb dp short stop rounds (off + DIRENT)
      else pure none

/-- `dirlookup`.  The result has the offset of the entry. -/
def dirlookup (sb : Superblock) (dp : Slot) (name : List UInt8) : FsM (Option (Slot × Nat)) := do
  let s ← get
  if (s.inode dp).copy.type ≠ .dir then throw .dirlookupNotDir
  else do
    let stop : Entry → Bool := fun de => de.inum ≠ 0 ∧ namecmp name de.name = 0
    match ← scanEntries sb dp .dirlookupRead stop ((s.inode dp).copy.size + 1) 0 with
    | none => pure none
    | some (de, off) => do
        let k ← iget de.inum
        pure (some (k, off))

/-- Write an entry, or zeroes, at `off`. -/
def writeEntry (sb : Superblock) (dp : Slot) (off : Nat) (bytes : List UInt8) : FsM Int :=
  onInode dp (writei sb (Source.kernel bytes) (UInt32.ofNat off) (UInt32.ofNat DIRENT))

/-- `dirlink`: whether it succeeds.  The entry goes to the first empty one, or to the end. -/
def dirlink (sb : Superblock) (dp : Slot) (name : List UInt8) (inum : Nat) : FsM Bool := do
  match ← dirlookup sb dp name with
  | some (ip, _) => do
      iput ip
      pure false
  | none => do
      let s ← get
      let size := (s.inode dp).copy.size
      let empty ← scanEntries sb dp .dirlinkRead (fun de => de.inum = 0) (size + 1) 0
      let off := (empty.map Prod.snd).getD size
      let r ← writeEntry sb dp off (Dirent.named inum name).bytes
      pure (r = DIRENT)

/-- `isdirempty`. -/
def isdirempty (sb : Superblock) (dp : Slot) : FsM Bool := do
  let s ← get
  let used ← scanEntries sb dp .isdiremptyRead (fun de => de.inum ≠ 0)
    ((s.inode dp).copy.size + 1) (2 * DIRENT)
  pure used.isNone

/-! ## Paths -/

/-- The slash. -/
def slash : UInt8 := 47

/-- The dot. -/
def dot : UInt8 := 46

/-- `skipelem`: the name of the first element, and the rest of the path. -/
def skipelem (path : List UInt8) : Option (List UInt8 × List UInt8) :=
  let path := path.dropWhile (· = slash)
  if path = [] then none
  else
    some ((path.takeWhile (· ≠ slash)).take DIRSIZ,
      (path.dropWhile (· ≠ slash)).dropWhile (· = slash))

/-- The loop of `namex`.  Every round takes a byte from the path. -/
def namexLoop (sb : Superblock) (nameiparent : Bool) :
    Nat → Slot → List UInt8 → FsM (Option (Slot × List UInt8))
  | 0, _, _ => pure none
  | rounds + 1, ip, path =>
      match skipelem path with
      | none =>
          if nameiparent then do
            iput ip
            pure none
          else pure (some (ip, []))
      | some (name, rest) => do
          ilock ip
          let s ← get
          if (s.inode ip).copy.type ≠ .dir then do
            iput ip
            pure none
          else if nameiparent ∧ rest = [] then pure (some (ip, name))
          else do
            match ← dirlookup sb ip name with
            | none => do
                iput ip
                pure none
            | some (next, _) => do
                iput ip
                namexLoop sb nameiparent rounds next rest

/-- Where `namex` starts, for a process with the working directory `cwd`. -/
def namexStart (cwd : Slot) (path : List UInt8) : FsM Slot :=
  if path.head? = some slash then iget ROOTINO else idup cwd

/-- `namex`. -/
def namex (sb : Superblock) (cwd : Slot) (nameiparent : Bool) (path : List UInt8) :
    FsM (Option (Slot × List UInt8)) := do
  let ip ← namexStart cwd path
  namexLoop sb nameiparent (path.length + 1) ip path

/-- `namei`. -/
def namei (sb : Superblock) (cwd : Slot) (path : List UInt8) : FsM (Option Slot) := do
  let r ← namex sb cwd false path
  pure (r.map Prod.fst)

/-- `nameiparent`. -/
def nameiparent (sb : Superblock) (cwd : Slot) (path : List UInt8) :
    FsM (Option (Slot × List UInt8)) :=
  namex sb cwd true path

/-! ## Functions that change directories -/

/-- The entries `.` and `..` of a new directory. -/
def createDots (sb : Superblock) (dp ip : Slot) : FsM Bool := do
  let s ← get
  if ← dirlink sb ip [dot] (s.inode ip).inum then dirlink sb ip [dot, dot] (s.inode dp).inum
  else pure false

/-- The entry of a new inode in its directory, and the link from `..`. -/
def createEntry (sb : Superblock) (dp ip : Slot) (name : List UInt8) (type : FileType) :
    FsM Bool := do
  let s ← get
  if ← dirlink sb dp name (s.inode ip).inum then
    if type = .dir then do
      updateInode dp (fun n => { n with nlink := n.nlink + 1 })
      pure true
    else pure true
  else pure false

/-- The part of `create` from the new inode on, before it drops `dp`.  The result says
whether it succeeds; otherwise it gets to `fail`. -/
def createIn (sb : Superblock) (dp ip : Slot) (name : List UInt8) (type : FileType)
    (major minor : Int16) : FsM Bool := do
  ilock ip
  updateInode ip (fun n => { n with major := major, minor := minor, nlink := 1 })
  if type = .dir then
    if ← createDots sb dp ip then createEntry sb dp ip name type else pure false
  else createEntry sb dp ip name type

/-- The part of `create` for a name that is there. -/
def createOld (dp ip : Slot) (type : FileType) : FsM (Option Slot) := do
  iput dp
  ilock ip
  let s ← get
  let found := (s.inode ip).copy.type
  if type = .file ∧ (found = .file ∨ found = .device) then pure (some ip)
  else do
    iput ip
    pure none

/-- The part of `create` for a new name. -/
def createNew (sb : Superblock) (dp : Slot) (name : List UInt8) (type : FileType)
    (major minor : Int16) : FsM (Option Slot) := do
  match ← ialloc sb type with
  | none => do
      iput dp
      pure none
  | some ip => do
      if ← createIn sb dp ip name type major minor then do
        iput dp
        pure (some ip)
      else do
        updateInode ip (fun n => { n with nlink := 0 })
        iput ip
        iput dp
        pure none

/-- `create`.  The inode that it returns is locked. -/
def create (sb : Superblock) (cwd : Slot) (path : List UInt8) (type : FileType)
    (major minor : Int16) : FsM (Option Slot) := do
  match ← nameiparent sb cwd path with
  | none => pure none
  | some (dp, name) => do
      ilock dp
      match ← dirlookup sb dp name with
      | some (ip, _) => createOld dp ip type
      | none => createNew sb dp name type major minor

/-- `bad` of `sys_link`. -/
def linkBad (ip : Slot) : FsM Int := do
  ilock ip
  updateInode ip (fun n => { n with nlink := n.nlink - 1 })
  iput ip
  endOp
  pure (-1)

/-- `sys_link`. -/
def sysLink (sb : Superblock) (cwd : Slot) (old new : List UInt8) : FsM Int := do
  beginOp
  match ← namei sb cwd old with
  | none => do
      endOp
      pure (-1)
  | some ip => do
      ilock ip
      let s ← get
      if (s.inode ip).copy.type = .dir then do
        iput ip
        endOp
        pure (-1)
      else do
        updateInode ip (fun n => { n with nlink := n.nlink + 1 })
        match ← nameiparent sb cwd new with
        | none => linkBad ip
        | some (dp, name) => do
            ilock dp
            if ← dirlink sb dp name (s.inode ip).inum then do
              iput dp
              iput ip
              endOp
              pure 0
            else do
              iput dp
              linkBad ip

/-- `bad` of `sys_unlink`. -/
def unlinkBad (dp : Slot) : FsM Int := do
  iput dp
  endOp
  pure (-1)

/-- The link from the `..` of a directory that is removed. -/
def unlinkParent (dp ip : Slot) : FsM PUnit := do
  let s ← get
  if (s.inode ip).copy.type = .dir then updateInode dp (fun n => { n with nlink := n.nlink - 1 })
  else pure ⟨⟩

/-- `sys_unlink` from the removal of the entry on. -/
def unlinkEntry (sb : Superblock) (dp ip : Slot) (off : Nat) : FsM Int := do
  let r ← writeEntry sb dp off (List.replicate DIRENT 0)
  if r ≠ DIRENT then throw .unlinkWritei
  else do
    unlinkParent dp ip
    iput dp
    updateInode ip (fun n => { n with nlink := n.nlink - 1 })
    iput ip
    endOp
    pure 0

/-- `sys_unlink`. -/
def sysUnlink (sb : Superblock) (cwd : Slot) (path : List UInt8) : FsM Int := do
  beginOp
  match ← nameiparent sb cwd path with
  | none => do
      endOp
      pure (-1)
  | some (dp, name) => do
      ilock dp
      if namecmp name [dot] = 0 ∨ namecmp name [dot, dot] = 0 then unlinkBad dp
      else do
        match ← dirlookup sb dp name with
        | none => unlinkBad dp
        | some (ip, off) => do
            ilock ip
            let s ← get
            if (s.inode ip).copy.nlink < 1 then throw .unlinkNlink
            else if (s.inode ip).copy.type = .dir then do
              if ← isdirempty sb ip then unlinkEntry sb dp ip off
              else do
                iput ip
                unlinkBad dp
            else unlinkEntry sb dp ip off

end Xv6.Names
