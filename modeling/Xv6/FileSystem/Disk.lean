import Mathlib.Logic.Function.Basic
import Xv6.Lib.Buffer
import Xv6.Lib.Ownership

/-!
# The disk of a file system

The disk format of `kernel/fs.h`, which `mkfs` writes and the kernel reads.
The disk is given by its three areas: the inodes, the bits of the free map
and the data blocks.  An indirect block is a data block that is read as 256
words.

An inode has `NPLACE` places for a block address: the direct ones, the one
for the indirect block, and the words of that block.  `Disk.Holds` says which
block is at which place, and `Disk.assign` records a block at a place.

The fields of type `uint` are natural numbers.  The functions that store
into them bound what they store.
-/

namespace Xv6.FileSystem

open Xv6.Lib Function

/-- `BSIZE`. -/
abbrev BSIZE : Nat := 1024

/-- `NDIRECT`. -/
abbrev NDIRECT : Nat := 12

/-- `NINDIRECT`. -/
abbrev NINDIRECT : Nat := BSIZE / 4

/-- `MAXFILE`. -/
abbrev MAXFILE : Nat := NDIRECT + NINDIRECT

/-- The places of an inode that hold a block address. -/
abbrev NPLACE : Nat := NDIRECT + 1 + NINDIRECT

/-- `ROOTINO`. -/
def ROOTINO : Nat := 1

/-- `DIRSIZ`. -/
abbrev DIRSIZ : Nat := 14

/-- The type of an inode: 0, `T_DIR`, `T_FILE` or `T_DEVICE`. -/
inductive FileType
  | free | dir | file | device
  deriving DecidableEq, Repr

/-- `struct dinode`. -/
structure Dinode where
  type : FileType
  major : Int16
  minor : Int16
  nlink : Int16
  size : Nat
  addrs : Nat → Nat

/-- An inode full of zeroes. -/
def Dinode.zero : Dinode := ⟨.free, 0, 0, 0, 0, fun _ => 0⟩

/-- The inode with the address `b` at index `k`. -/
def Dinode.setAddr (n : Dinode) (k b : Nat) : Dinode :=
  { n with addrs := update n.addrs k b }

@[simp] theorem Dinode.addrs_setAddr_self (n : Dinode) (k b : Nat) : (n.setAddr k b).addrs k = b :=
  update_self _ _ _

theorem Dinode.addrs_setAddr_of_ne {k l : Nat} (h : l ≠ k) (n : Dinode) (b : Nat) :
    (n.setAddr k b).addrs l = n.addrs l :=
  update_of_ne h _ _

/-- The number of blocks that the size of a file covers. -/
def blocks (size : Nat) : Nat := (size + (BSIZE - 1)) / BSIZE

/-- What the superblock says.  The file system has `size` blocks. -/
structure Superblock where
  size : Nat
  ninodes : Nat
  bmapstart : Nat
  size_lt : size < 2 ^ 32

/-- The number of blocks before the data blocks: the free map is the last of
them. -/
def Superblock.nmeta (sb : Superblock) : Nat := sb.bmapstart + (sb.size / (BSIZE * 8) + 1)

theorem Superblock.nmeta_pos (sb : Superblock) : 0 < sb.nmeta := by
  unfold Superblock.nmeta
  exact Nat.add_pos_right _ (Nat.succ_pos _)

/-- The contents of the disk. -/
structure Disk where
  dinode : Nat → Dinode
  bitmap : Nat → Bool
  block : Nat → Buffer

namespace Disk

/-- The disk with another inode `i`. -/
def put (d : Disk) (i : Nat) (n : Dinode) : Disk := { d with dinode := update d.dinode i n }

/-- The disk with another block `b`. -/
def setBlock (d : Disk) (b : Nat) (x : Buffer) : Disk :=
  { d with block := update d.block b x }

/-- The block of the `j`-th word of the indirect block of an inode, or 0. -/
def indirect (d : Disk) (n : Dinode) (j : Nat) : Nat :=
  if n.addrs NDIRECT = 0 then 0 else (d.block (n.addrs NDIRECT)).word j

/-- The block at the place `k` of inode `i`, or 0. -/
def addr (d : Disk) (i k : Nat) : Nat :=
  if k ≤ NDIRECT then (d.dinode i).addrs k else d.indirect (d.dinode i) (k - NDIRECT - 1)

/-- The place of the `bn`-th block of a file. -/
def place (bn : Nat) : Nat := if bn < NDIRECT then bn else bn + 1

/-- The `bn`-th block of the file with inode `i`, or 0. -/
def fileAddr (d : Disk) (i bn : Nat) : Nat := d.addr i (place bn)

/-- The place `p.2` of inode `p.1` holds the block `b`. -/
def Holds (sb : Superblock) (d : Disk) (p : Nat × Nat) (b : Nat) : Prop :=
  p.1 < sb.ninodes ∧ p.2 < NPLACE ∧ d.addr p.1 p.2 = b ∧ b ≠ 0

/-- Record the block `b` at the place `k` of inode `i`. -/
def assign (d : Disk) (i k b : Nat) : Disk :=
  if k ≤ NDIRECT then
    d.put i ((d.dinode i).setAddr k b)
  else
    let ind := (d.dinode i).addrs NDIRECT
    d.setBlock ind ((d.block ind).setWord (k - NDIRECT - 1) b)

variable {sb : Superblock} {d : Disk} {i j k l b bn : Nat} {n : Dinode} {x : Buffer}

/-! ## Fields after an update -/

@[simp] theorem dinode_put_self : (d.put i n).dinode i = n := update_self _ _ _

theorem dinode_put_of_ne (h : j ≠ i) : (d.put i n).dinode j = d.dinode j :=
  update_of_ne h _ _

@[simp] theorem put_put {m : Dinode} : (d.put i n).put i m = d.put i m := by
  unfold put
  rw [update_idem]

@[simp] theorem block_put : (d.put i n).block = d.block := rfl

@[simp] theorem dinode_setBlock : (d.setBlock b x).dinode = d.dinode := rfl

@[simp] theorem block_setBlock_self : (d.setBlock b x).block b = x := update_self _ _ _

theorem block_setBlock_of_ne {c : Nat} (h : c ≠ b) : (d.setBlock b x).block c = d.block c :=
  update_of_ne h _ _

/-! ## Places -/

theorem place_lt (h : bn < MAXFILE) : place bn < NPLACE := by
  unfold place
  simp only [MAXFILE, NPLACE, NDIRECT, NINDIRECT] at h ⊢
  split <;> omega

theorem place_ne : place bn ≠ NDIRECT := by
  unfold place
  split <;> omega

theorem place_inj {bm : Nat} (h : place bn = place bm) : bn = bm := by
  unfold place at h
  split at h <;> split at h <;> omega

theorem addr_direct (h : k ≤ NDIRECT) : d.addr i k = (d.dinode i).addrs k := if_pos h

theorem addr_indirect (h : ¬ k ≤ NDIRECT) :
    d.addr i k = d.indirect (d.dinode i) (k - NDIRECT - 1) := if_neg h

/-- The addresses of an inode depend on its own addresses and on its indirect
block. -/
theorem addr_congr {d' : Disk} (haddrs : (d'.dinode i).addrs = (d.dinode i).addrs)
    (hblock : (d.dinode i).addrs NDIRECT ≠ 0 →
      d'.block ((d.dinode i).addrs NDIRECT) = d.block ((d.dinode i).addrs NDIRECT)) :
    d'.addr i k = d.addr i k := by
  unfold addr indirect
  rw [haddrs]
  split
  · rfl
  · split
    · rfl
    · rw [hblock ‹_›]

/-- A store to a block that is not the indirect block of the inode. -/
theorem addr_setBlock (h : (d.dinode j).addrs NDIRECT ≠ b) :
    (d.setBlock b x).addr j l = d.addr j l :=
  addr_congr rfl (fun _ => block_setBlock_of_ne h)

theorem addr_put_of_ne (h : j ≠ i) : (d.put i n).addr j l = d.addr j l :=
  addr_congr (by rw [dinode_put_of_ne h]) (fun _ => rfl)

theorem addr_put_addrs (h : n.addrs = (d.dinode i).addrs) : (d.put i n).addr j l = d.addr j l := by
  by_cases hj : j = i
  · rw [hj]
    exact addr_congr (by rw [dinode_put_self, h]) (fun _ => rfl)
  · exact addr_put_of_ne hj

/-- Addresses after a block is recorded at the place `k` of inode `i`.  The
indirect block of `i`, if it is the one that changes, belongs to no other
inode, and a new indirect block is empty. -/
theorem addr_assign (hb : b < 2 ^ 32) (hfree : d.addr i k = 0)
    (hind : NDIRECT < k → (d.dinode i).addrs NDIRECT ≠ 0 ∧
      (j ≠ i → (d.dinode j).addrs NDIRECT ≠ (d.dinode i).addrs NDIRECT))
    (hnew : k = NDIRECT → d.block b = Buffer.zero) :
    (d.assign i k b).addr j l = if j = i ∧ l = k then b else d.addr j l := by
  by_cases hk : k ≤ NDIRECT
  · -- an address of the inode itself
    rw [assign, if_pos hk]
    by_cases hj : j = i
    · rw [hj]
      by_cases hl : l ≤ NDIRECT
      · rw [addr_direct hl, dinode_put_self]
        by_cases hlk : l = k
        · rw [if_pos ⟨rfl, hlk⟩, hlk, Dinode.addrs_setAddr_self]
        · rw [if_neg (fun h => hlk h.2), addr_direct hl, Dinode.addrs_setAddr_of_ne hlk]
      · rw [if_neg (by omega), addr_indirect hl, addr_indirect hl, dinode_put_self, indirect,
          indirect]
        by_cases hki : k = NDIRECT
        · -- a new indirect block is empty, and there was none before
          rw [addr_direct hk, hki] at hfree
          simp only [hki, Dinode.addrs_setAddr_self, block_put, hnew hki, Buffer.word_zero, hfree,
            ite_self, if_true]
        · rw [Dinode.addrs_setAddr_of_ne (by omega), block_put]
    · rw [if_neg (fun h => hj h.1), addr_put_of_ne hj]
  · -- a word of its indirect block
    rw [assign, if_neg hk]
    obtain ⟨hne, honly⟩ := hind (by omega)
    by_cases hj : j = i
    · rw [hj]
      by_cases hl : l ≤ NDIRECT
      · rw [if_neg (by omega), addr_direct hl, addr_direct hl]
        rfl
      · rw [addr_indirect hl, addr_indirect hl, indirect, indirect, if_neg (by simpa using hne),
          if_neg hne]
        rw [dinode_setBlock, block_setBlock_self]
        by_cases hlk : l = k
        · rw [if_pos ⟨rfl, hlk⟩, hlk, Buffer.word_setWord_self hb]
        · rw [if_neg (fun h => hlk h.2), Buffer.word_setWord_of_ne (by omega)]
    · rw [if_neg (fun h => hj h.1), addr_setBlock (honly hj)]

/-! ## Exclusive blocks -/

/-- An inode holds its indirect block. -/
theorem holds_indirect (hj : j < sb.ninodes) (heq : (d.dinode j).addrs NDIRECT = b) (hne : b ≠ 0) :
    d.Holds sb (j, NDIRECT) b :=
  ⟨hj, show NDIRECT < NPLACE by decide, (addr_direct (Nat.le_refl _)).trans heq, hne⟩

/-- Disks with the same addresses hold the same blocks. -/
theorem holds_congr {d' : Disk}
    (h : ∀ i k, i < sb.ninodes → k < NPLACE → d'.addr i k = d.addr i k) (p : Nat × Nat) (b : Nat) :
    d'.Holds sb p b ↔ d.Holds sb p b := by
  unfold Holds
  refine and_congr_right (fun hi => and_congr_right (fun hk => ?_))
  rw [h p.1 p.2 hi hk]

section Exact

variable {used : Nat → Prop} (h : Exact (d.Holds sb) used)
include h

/-- A block at a place that is not an indirect one is no indirect block. -/
theorem not_indirect (hb : d.Holds sb (i, k) b) (hk : k ≠ NDIRECT) (hj : j < sb.ninodes) :
    (d.dinode j).addrs NDIRECT ≠ b := by
  intro heq
  exact hk (Prod.mk.inj (h.once hb (holds_indirect hj heq hb.2.2.2))).2

/-- A block that is not in use is no indirect block. -/
theorem not_indirect_of_fresh (hb : ¬ used b) (hne : b ≠ 0) (hj : j < sb.ninodes) :
    (d.dinode j).addrs NDIRECT ≠ b := by
  intro heq
  exact hb (h.inUse (holds_indirect hj heq hne))

/-- Different inodes have different indirect blocks. -/
theorem indirect_ne (hi : i < sb.ninodes) (hj : j < sb.ninodes) (hji : j ≠ i)
    (hne : (d.dinode i).addrs NDIRECT ≠ 0) :
    (d.dinode j).addrs NDIRECT ≠ (d.dinode i).addrs NDIRECT := by
  intro heq
  exact hji (Prod.mk.inj (h.once (holds_indirect hj heq hne) (holds_indirect hi rfl hne))).1

/-- The addresses after a fresh block is recorded at an empty place. -/
theorem addr_assign_fresh (hi : i < sb.ninodes) (hj : j < sb.ninodes) (hb : b < 2 ^ 32)
    (hfree : d.addr i k = 0) (hind : NDIRECT < k → (d.dinode i).addrs NDIRECT ≠ 0)
    (hnew : k = NDIRECT → d.block b = Buffer.zero) :
    (d.assign i k b).addr j l = if j = i ∧ l = k then b else d.addr j l := by
  refine addr_assign hb hfree ?_ hnew
  intro hk
  exact ⟨hind hk, fun hji => indirect_ne h hi hj hji (hind hk)⟩

/-- The blocks stay exclusive when a fresh one is recorded at an empty
place. -/
theorem exact_assign {used' : Nat → Prop} (hi : i < sb.ninodes) (hk : k < NPLACE)
    (hb : b < 2 ^ 32) (hne : b ≠ 0) (hfresh : ¬ used b) (hfree : d.addr i k = 0)
    (hind : NDIRECT < k → (d.dinode i).addrs NDIRECT ≠ 0)
    (hnew : k = NDIRECT → d.block b = Buffer.zero)
    (hused : ∀ c, used' c ↔ used c ∨ c = b) :
    Exact ((d.assign i k b).Holds sb) used' := by
  refine h.assign (i, k) hfresh ?_ hused
  rintro ⟨j, l⟩ c
  constructor
  · rintro ⟨hj, hl, haddr, hc⟩
    rw [addr_assign_fresh h hi hj hb hfree hind hnew] at haddr
    split at haddr
    · rename_i heq
      exact Or.inr ⟨Prod.ext heq.1 heq.2, haddr.symm⟩
    · exact Or.inl ⟨hj, hl, haddr, hc⟩
  · rintro (⟨hj, hl, haddr, hc⟩ | ⟨heq, rfl⟩)
    · refine ⟨hj, hl, ?_, hc⟩
      rw [addr_assign_fresh h hi hj hb hfree hind hnew, if_neg ?_]
      · exact haddr
      · rintro ⟨rfl, rfl⟩
        exact hc (haddr ▸ hfree)
    · obtain ⟨rfl, rfl⟩ := Prod.mk.inj heq
      exact ⟨hi, hk, by rw [addr_assign_fresh h hi hi hb hfree hind hnew, if_pos ⟨rfl, rfl⟩], hne⟩

end Exact

end Disk

end Xv6.FileSystem
