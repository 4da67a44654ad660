import Xv6.Lib.Transition
import Xv6.Names.Linking

/-!
# Sequences of operations

The functions of the file system, as the rest of the kernel calls them, one after the
other.  Each one runs in a transaction.  `Allowed` is the contract of a call: the caller
has a reference to the inode that it names, and has locked it where the function needs
that.  Directories are only written by `dirlink`, `create`, `link` and `unlink`, since
`sys_open` opens no directory for writing.
-/

namespace Xv6.Names

open Xv6.Lib Xv6.FileSystem Xv6.FileSystem.Disk

/-! ## The operations -/

/-- A call of a function of the file system. -/
inductive Op
  | namei (cwd : Slot) (path : List UInt8)
  | ilock (k : Slot)
  | iput (k : Slot)
  | writei (k : Slot) (src : Source) (off n : UInt32)
  | itrunc (k : Slot)
  | ialloc (type : FileType)
  | dirlink (dp : Slot) (name : List UInt8) (inum : Nat)
  | create (cwd : Slot) (path : List UInt8) (type : FileType) (major minor : Int16)
  | link (cwd : Slot) (old new : List UInt8)
  | unlink (cwd : Slot) (path : List UInt8)

/-- A function in a transaction. -/
def inOp {α : Type} (m : FsM α) : FsM PUnit := do
  beginOp
  let _ ← m
  endOp

/-- What a call does. -/
def Op.exec (sb : Superblock) : Op → FsM PUnit
  | .namei cwd path => inOp (Names.namei sb cwd path)
  | .ilock k => inOp (Names.ilock k)
  | .iput k => inOp (Names.iput k)
  | .writei k src off n => inOp (onInode k (FileSystem.writei sb src off n))
  | .itrunc k => inOp (onInode k FileSystem.itrunc)
  | .ialloc type => inOp (Names.ialloc sb type)
  | .dirlink dp name inum => inOp (Names.dirlink sb dp name inum)
  | .create cwd path type major minor => inOp (Names.create sb cwd path type major minor)
  | .link cwd old new => do
      let _ ← sysLink sb cwd old new
  | .unlink cwd path => do
      let _ ← sysUnlink sb cwd path

/-- The contract of a call. -/
def Op.Allowed (sb : Superblock) (s : Fs) : Op → Prop
  | .namei cwd _ => 0 < (s.inode cwd).ref
  | .ilock k => 0 < (s.inode k).ref
  | .iput k => 0 < (s.inode k).ref
  | .writei k _ _ _ => Locked s k ∧ (s.inode k).copy.type ≠ .dir
  | .itrunc k => Locked s k
  | .ialloc _ => True
  | .dirlink dp _ inum => Locked s dp ∧ (s.inode dp).copy.type = .dir ∧ inum < sb.ninodes
  | .create cwd _ _ _ _ => 0 < (s.inode cwd).ref
  | .link cwd _ _ => 0 < (s.inode cwd).ref
  | .unlink cwd _ => 0 < (s.inode cwd).ref

/-- The state after a call that returns. -/
def Op.next (sb : Superblock) (s : Fs) (op : Op) : Option Fs := (op.exec sb s).toOption.map Prod.snd

/-! ## One operation -/

variable {sb : Superblock} {s s' : Fs} {k : Slot} {op : Op}

/-- The panics that a call can end with: the inode table is full, an entry names a free
inode, or an inode has an entry but no link. -/
def Halts (e : Panic) : Prop := Stuck e ∨ e = .unlinkNlink

theorem writei_slot {E : Panic → Prop} {src : Source} {off n : UInt32} (h : Inv sb s)
    (hk : Locked s k) (hdir : (s.inode k).copy.type ≠ .dir) (htrans : s.trans = true) :
    Runs E (onInode k (writei sb src off n)) s (fun _ s' => Inv sb s' ∧ ∀ a, Moves s s' a a) := by
  obtain ⟨hcopy, htype⟩ := h.synced k hk.used hk.valid
  have hintact : Intact sb (s.file k).view := by
    rw [h.view hk.used hk.valid]
    exact h.intact
  have hfree : (s.file k).ip.type ≠ .free := by
    show (s.inode k).copy.type ≠ _
    rw [hcopy]
    exact htype
  refine .zoom ((writei_runs hintact htrans (h.range k hk.used) hfree).total.post ?_)
  intro r t hpost
  split at hpost
  · obtain ⟨w, e, _, hw⟩ := hpost
    obtain ⟨hst, hsync, a, z, hnode⟩ := h.written hk hw
    have hsame : t.ip.type = (s.disk.dinode (s.inode k).inum).type := by
      rw [← hsync, hnode]
    refine ⟨Inv.setFile hst hsync h hk.used ?_ ?_, Moves.setFile hst hsync hsame⟩
    · rw [hsame]
      exact htype
    · intro hd
      rw [hsame, ← hcopy] at hd
      exact absurd hd hdir
  · obtain ⟨_, rfl⟩ := hpost
    rw [setFile_file]
    exact ⟨h, Moves.refl s⟩

theorem itrunc_slot {E : Panic → Prop} (h : Inv sb s) (hk : Locked s k) (htrans : s.trans = true) :
    Runs E (onInode k itrunc) s (fun _ s' => Inv sb s' ∧ ∀ a, Moves s s' a a) := by
  obtain ⟨hcopy, htype⟩ := h.synced k hk.used hk.valid
  have hown : Owned sb (s.file k).view := by
    rw [h.view hk.used hk.valid]
    exact h.intact.toOwned
  refine .zoom ((itrunc_runs hown (h.range k hk.used) htrans).total.post ?_)
  intro _ t ht
  obtain ⟨hst, hsync, hnil⟩ := h.truncated hk ht
  have hsame : t.ip.type = (s.disk.dinode (s.inode k).inum).type := by
    obtain ⟨a, hip, _⟩ := ht.ip
    rw [← hcopy, hip]
    rfl
  refine ⟨Inv.setFile hst hsync h hk.used ?_ ?_, Moves.setFile hst hsync hsame⟩
  · rw [hsame]
    exact htype
  · intro _
    rw [hnil]
    exact DirShape.nil sb

theorem inOp_runs {α : Type} {E : Panic → Prop} {m : FsM α} {Q : α → Fs → Prop}
    (hm : Runs E m { s with trans := true } Q) (hinv : ∀ r t, Q r t → Inv sb t) :
    Runs E (inOp m) s (fun _ s' => Inv sb s' ∧ s'.trans = false) := by
  refine .bind (.modify (.call hm ?_))
  intro r t ht
  exact .modify ⟨(hinv r t ht).mode false, rfl⟩

/-- Every call keeps the invariant. -/
theorem Op.exec_runs (h : Inv sb s) (htrans : s.trans = false) (hop : op.Allowed sb s) :
    Runs Halts (op.exec sb) s (fun _ s' => Inv sb s' ∧ s'.trans = false) := by
  have hstuck : ∀ e, Stuck e → Halts e := fun e he => Or.inl he
  have hbegin : Inv sb { s with trans := true } := h.mode true
  cases op with
  | namei cwd path =>
    refine inOp_runs ((namei_runs hbegin hop rfl path).errors hstuck) ?_
    rintro r t ⟨⟨_, hw⟩ | ⟨_, _, hw⟩, _⟩
    · exact hw.inv
    · exact hw.inv
  | ilock k =>
    refine inOp_runs ((ilock_runs hbegin hop).errors hstuck) ?_
    rintro _ t ⟨hw, _⟩
    exact hw.inv
  | iput k =>
    refine inOp_runs (iput_runs hbegin hop rfl) ?_
    rintro _ t ⟨hw, _⟩
    exact hw.inv
  | writei k src off n =>
    refine inOp_runs (writei_slot hbegin ⟨hop.1.used, hop.1.valid⟩ hop.2 rfl) ?_
    rintro _ t ⟨hinv, _⟩
    exact hinv
  | itrunc k =>
    refine inOp_runs (itrunc_slot hbegin ⟨hop.used, hop.valid⟩ rfl) ?_
    rintro _ t ⟨hinv, _⟩
    exact hinv
  | ialloc type =>
    refine inOp_runs ((ialloc_runs hbegin rfl).errors hstuck) ?_
    rintro r t (⟨_, rfl⟩ | ⟨_, _, _, _, _, hinv, _⟩)
    · exact hbegin
    · exact hinv
  | dirlink dp name inum =>
    obtain ⟨hlocked, htype, hi⟩ := hop
    have hdp : IsDir { s with trans := true } dp := hbegin.isDir ⟨hlocked.used, hlocked.valid⟩ htype
    refine inOp_runs ((dirlink_nodes hbegin hdp rfl name hi).errors hstuck) ?_
    rintro r t ⟨hinv, _⟩
    exact hinv
  | create cwd path type major minor =>
    refine inOp_runs ((create_runs hbegin hop rfl path type major minor).errors hstuck) ?_
    intro r t hcreated
    exact hcreated.inv
  | link cwd old new =>
    refine .call ((sysLink_runs h hop htrans old new).errors hstuck) ?_
    intro r t hlinked
    obtain ⟨hinv, hm⟩ := hlinked.run
    exact .pure ⟨hinv, hm.mode.trans htrans⟩
  | unlink cwd path =>
    refine .call ((sysUnlink_runs h hop htrans path).errors ?_) ?_
    · rintro e (he | ⟨he, _⟩)
      · exact Or.inl he
      · exact Or.inr he
    · intro r t hunlinked
      obtain ⟨hinv, hm⟩ := hunlinked.run
      exact .pure ⟨hinv, hm.mode.trans htrans⟩

/-! ## Runs -/

/-- A file system to start from: the disk and the inode table are well formed, and no
transaction is open. -/
structure WellFormed (sb : Superblock) (s : Fs) : Prop extends Inv sb s where
  closed : s.trans = false

/-- The states after a sequence of calls. -/
def Reachable (sb : Superblock) : Fs → Prop :=
  ReachWhen (fun s (op : Op) => op.Allowed sb s) (Op.next sb) (WellFormed sb)

theorem Reachable.wellFormed (h : Reachable sb s) : WellFormed sb s := by
  refine ReachWhen.invariant (fun _ h0 => h0) ?_ h
  intro t op t' ht hop hnext
  obtain ⟨⟨r, u⟩, hrun, rfl⟩ := Option.map_eq_some_iff.mp hnext
  have hok : op.exec sb t = .ok (r, u) := by
    cases hexec : op.exec sb t with
    | error e =>
      rw [hexec] at hrun
      cases hrun
    | ok x =>
      rw [hexec] at hrun
      cases hrun
      rfl
  obtain ⟨hinv, hclosed⟩ := (op.exec_runs ht.toInv ht.closed hop).ok hok
  exact ⟨hinv, hclosed⟩

theorem Reachable.halts (h : Reachable sb s) {e : Panic} (hop : op.Allowed sb s)
    (hexec : op.exec sb s = .error e) : Halts e :=
  (op.exec_runs h.wellFormed.toInv h.wellFormed.closed hop).error hexec

/-- No inode is in the table. -/
def Fs.fresh (d : Disk) : Fs := ⟨d, fun _ => ⟨0, 0, false, Dinode.zero⟩, false⟩

theorem Fs.fresh_wellFormed {d : Disk} (hd : DiskInv sb d) : WellFormed sb (Fs.fresh d) := by
  have hunused : ∀ k, ¬ 0 < ((Fs.fresh d).inode k).ref := fun _ hpos => Nat.lt_irrefl 0 hpos
  exact ⟨⟨hd, fun k hk => absurd hk (hunused k), fun k _ hk => absurd hk (hunused k),
    fun k hk => absurd hk (hunused k)⟩, rfl⟩

theorem small_diskInv : DiskInv Superblock.small Disk.small := by
  refine ⟨small_intact, by decide, ?_⟩
  intro i hi hdir
  have htype : (Disk.small.dinode i).type = .file ∨ (Disk.small.dinode i).type = .free := by
    unfold Disk.small
    dsimp only
    split
    · exact Or.inl rfl
    · exact Or.inr rfl
  rw [hdir] at htype
  rcases htype with h | h <;> cases h

theorem small_reachable : Reachable Superblock.small (Fs.fresh Disk.small) :=
  .init (Fs.fresh_wellFormed small_diskInv)

/-- Every block index that a size covers has a block. -/
def NoHoles (sb : Superblock) (d : Disk) : Prop :=
  ∀ i bn, i < sb.ninodes → bn < blocks (d.dinode i).size → d.fileAddr i bn ≠ 0

/-- The panics that a hole or a short read leads to. -/
def ReadPanic (e : Panic) : Prop :=
  e = .logWriteOutside ∨ e = .dirlookupRead ∨ e = .dirlinkRead ∨ e = .isdiremptyRead

/-- A root directory of 8 bytes, with a block. -/
def Disk.ragged : Disk :=
  ⟨fun i => if i = ROOTINO then
      { Dinode.zero with type := .dir, nlink := 1, size := 8, addrs := fun k => if k = 0 then 1 else 0 }
    else Dinode.zero,
    fun b => b ≤ 1, fun _ => Buffer.zero⟩

end Xv6.Names
