import Mathlib.Tactic.SplitIfs
import Xv6.FileSystem.Mkfs

/-!
# The image that `mkfs` writes

`Sound` is the invariant of `mkfs` between two calls of `iappend`: the blocks
below `freeblock` are held, each by one place, the blocks above it are
zeroed, and an inode holds exactly the blocks that its size covers.

Inside `iappend` the inode is a local copy, and its size is behind.
`State.view` is the image with that copy written back.  Taking a block is
`State.ensure` on the view, and the loop keeps the invariant of the view.

The last step breaks the invariant: `fixSize` rounds the size of the root
directory up to the next block even if it ends on a block boundary, and then
the size covers a block that was never taken.
-/

namespace Xv6.FileSystem.Mkfs

open Xv6.Lib Xv6.FileSystem.Disk

/-- A file of `size` bytes has a block at the place `k`. -/
def Mapped (size k : Nat) : Prop := (if k ≤ NDIRECT then k else k - 1) < blocks size

/-- The number of blocks that a file of `size` bytes takes, with its indirect
block. -/
def need (size : Nat) : Nat := blocks size + if NDIRECT < blocks size then 1 else 0

/-- What holds of the image at any time. -/
structure Base (s : State) : Prop where
  exact : Exact (s.disk.Holds sb) (fun b => nmeta ≤ b ∧ b < s.freeblock)
  fresh : ∀ b, s.freeblock ≤ b → s.disk.block b = Buffer.zero
  start : nmeta ≤ s.freeblock
  alive : ∀ i, 0 < i → i < s.freeinode → (s.disk.dinode i).type ≠ .free
  blank : ∀ i, i = 0 ∨ s.freeinode ≤ i → s.disk.dinode i = Dinode.zero

/-- The invariant between two calls of `iappend`. -/
structure Sound (s : State) : Prop extends Base s where
  mapped : ∀ i k, i < NINODES → k < NPLACE →
    (s.disk.addr i k ≠ 0 ↔ Mapped (s.disk.dinode i).size k)
  bounded : ∀ i, i < NINODES → (s.disk.dinode i).size ≤ MAXFILE * BSIZE

/-- Inode `i` is in the image and is one of those below `freeinode`. -/
structure Made (freeinode i : Nat) : Prop where
  lt : i < NINODES
  pos : 0 < i
  made : i < freeinode

/-- Record the next block at the place `k` of inode `i`. -/
def State.take (s : State) (i k : Nat) : State :=
  { s with disk := s.disk.assign i k s.freeblock, freeblock := s.freeblock + 1 }

/-- Record the next block at the place `k` of inode `i` if it is empty. -/
def State.ensure (s : State) (i k : Nat) : State := if s.disk.addr i k = 0 then s.take i k else s

/-- The blocks that `iblock` takes. -/
def State.ensured (s : State) (i fbn : Nat) : State :=
  if fbn < NDIRECT then s.ensure i fbn else (s.ensure i NDIRECT).ensure i (fbn + 1)

/-- The image with the local copy of inode `i` written back, with size
`off`. -/
def State.view (s : State) (i : Nat) (din : Dinode) (off : Nat) : State :=
  { s with disk := s.disk.put i { din with size := off } }

/-- The image with a store to the block `b`, and another size of inode
`i`. -/
def State.store (s : State) (i b : Nat) (buf : Buffer) (off : Nat) : State :=
  { s with disk := (s.disk.setBlock b buf).put i { s.disk.dinode i with size := off } }

variable {s v : State} {i j k l fbn off : Nat} {din : Dinode}

/-! ## Sizes -/

theorem need_mono {a b : Nat} (h : a ≤ b) : need a ≤ need b := by
  have hblocks : blocks a ≤ blocks b := Nat.div_le_div_right (Nat.add_le_add_right h _)
  unfold need
  split <;> split <;> omega

/-- The blocks of a file whose next byte is in block `fbn`. -/
theorem blocks_cases (hfbn : off / BSIZE = fbn) :
    blocks (off + 1) = fbn + 1 ∧ (blocks off = fbn ∨ blocks off = fbn + 1) := by
  simp only [blocks, BSIZE] at *
  omega

/-- The places of a file that has grown into block `fbn`. -/
theorem mapped_succ (hfbn : off / BSIZE = fbn) :
    Mapped (off + 1) k ↔ (if k ≤ NDIRECT then k else k - 1) ≤ fbn := by
  rw [Mapped, (blocks_cases hfbn).1, Nat.lt_succ_iff]

/-- Only the number of blocks matters. -/
theorem mapped_congr {a b : Nat} (h : blocks a = blocks b) : Mapped a k ↔ Mapped b k := by
  rw [Mapped, Mapped, h]

/-! ## Taking a block -/

/-- The next block has a number that fits into a word. -/
theorem Base.fits (h : Base s) (hroom : s.freeblock < FSSIZE) :
    s.freeblock < 2 ^ 32 ∧ s.freeblock ≠ 0 := by
  have hstart := h.start
  simp only [FSSIZE, nmeta, nlog] at hroom hstart
  omega

theorem Base.addr_take (h : Base s) (hi : i < NINODES) (hj : j < NINODES)
    (hroom : s.freeblock < FSSIZE) (hfree : s.disk.addr i k = 0)
    (hind : NDIRECT < k → s.disk.addr i NDIRECT ≠ 0) :
    (s.take i k).disk.addr j l = if j = i ∧ l = k then s.freeblock else s.disk.addr j l := by
  refine addr_assign_fresh h.exact hi hj (h.fits hroom).1 hfree ?_ ?_
  · intro hk
    rw [← addr_direct (Nat.le_refl _)]
    exact hind hk
  · intro _
    exact h.fresh _ (Nat.le_refl _)

/-- The indirect block of an inode is below `freeblock`. -/
theorem Base.indirect_lt (h : Base s) (hi : i < NINODES) (hne : s.disk.addr i NDIRECT ≠ 0) :
    (s.disk.dinode i).addrs NDIRECT < s.freeblock := by
  rw [addr_direct (Nat.le_refl _)] at hne
  exact (h.exact.inUse (holds_indirect hi rfl hne)).2

/-- The inodes other than `i` stay as they are. -/
structure Others (i : Nat) (s s' : State) : Prop where
  freeinode : s'.freeinode = s.freeinode
  same : ∀ j, j ≠ i → s'.disk.dinode j = s.disk.dinode j

theorem Others.refl (i : Nat) (s : State) : Others i s s := ⟨rfl, fun _ _ => rfl⟩

theorem Others.trans {s t u : State} (h : Others i s t) (h' : Others i t u) : Others i s u where
  freeinode := h'.freeinode.trans h.freeinode
  same j hj := (h'.same j hj).trans (h.same j hj)

theorem Others.alive (h : Others i s v) (hs : Base s)
    (htype : (v.disk.dinode i).type = (s.disk.dinode i).type) (hj : 0 < j)
    (hlt : j < v.freeinode) : (v.disk.dinode j).type ≠ .free := by
  rw [h.freeinode] at hlt
  by_cases hji : j = i
  · rw [hji, htype, ← hji]
    exact hs.alive j hj hlt
  · rw [h.same j hji]
    exact hs.alive j hj hlt

theorem Others.blank (h : Others i s v) (hs : Base s) (hm : Made s.freeinode i)
    (hj : j = 0 ∨ v.freeinode ≤ j) : v.disk.dinode j = Dinode.zero := by
  have hpos := hm.pos
  have hmade := hm.made
  rw [h.freeinode] at hj
  rw [h.same j (by omega)]
  exact hs.blank j hj

theorem others_take (s : State) (i k : Nat) : Others i s (s.take i k) ∧
    ((s.take i k).disk.dinode i).type = (s.disk.dinode i).type := by
  unfold State.take assign
  split
  · refine ⟨⟨rfl, fun j hj => dinode_put_of_ne hj⟩, ?_⟩
    simp only [dinode_put_self]
    rfl
  · exact ⟨⟨rfl, fun _ _ => rfl⟩, rfl⟩

theorem Base.take (h : Base s) (hm : Made s.freeinode i) (hk : k < NPLACE)
    (hroom : s.freeblock < FSSIZE) (hfree : s.disk.addr i k = 0)
    (hind : NDIRECT < k → s.disk.addr i NDIRECT ≠ 0) : Base (s.take i k) := by
  have hstart := h.start
  obtain ⟨hothers, htype⟩ := others_take s i k
  refine ⟨?_, ?_, by simp only [State.take]; omega, fun j => hothers.alive h htype,
    fun j => hothers.blank h hm⟩
  · refine exact_assign h.exact hm.lt hk (h.fits hroom).1 (h.fits hroom).2 (by omega) hfree ?_ ?_ ?_
    · intro hlt
      rw [← addr_direct (Nat.le_refl _)]
      exact hind hlt
    · intro _
      exact h.fresh _ (Nat.le_refl _)
    · intro c
      simp only [State.take]
      omega
  · intro b hb
    simp only [State.take] at hb ⊢
    by_cases hle : k ≤ NDIRECT
    · rw [assign, if_pos hle, block_put]
      exact h.fresh b (by omega)
    · have hlt := h.indirect_lt hm.lt (hind (by omega))
      rw [assign, if_neg hle, block_setBlock_of_ne (by omega)]
      exact h.fresh b (by omega)

theorem others_ensure (s : State) (i k : Nat) : Others i s (s.ensure i k) := by
  unfold State.ensure
  split
  · exact (others_take s i k).1
  · exact Others.refl i s

theorem freeblock_ensure (s : State) (i k : Nat) :
    (s.ensure i k).freeblock = s.freeblock + if s.disk.addr i k = 0 then 1 else 0 := by
  unfold State.ensure
  split <;> rfl

theorem Base.ensure (h : Base s) (hm : Made s.freeinode i) (hk : k < NPLACE)
    (hroom : (s.ensure i k).freeblock ≤ FSSIZE)
    (hind : NDIRECT < k → s.disk.addr i NDIRECT ≠ 0) : Base (s.ensure i k) := by
  rw [freeblock_ensure] at hroom
  unfold State.ensure
  split
  · rename_i hfree
    rw [if_pos hfree] at hroom
    exact h.take hm hk (by omega) hfree hind
  · exact h

theorem Base.addr_ensure (h : Base s) (hi : i < NINODES) (hj : j < NINODES)
    (hroom : (s.ensure i k).freeblock ≤ FSSIZE)
    (hind : NDIRECT < k → s.disk.addr i NDIRECT ≠ 0) :
    (s.ensure i k).disk.addr j l ≠ 0 ↔ s.disk.addr j l ≠ 0 ∨ j = i ∧ l = k := by
  rw [freeblock_ensure] at hroom
  unfold State.ensure
  split
  · rename_i hfree
    rw [if_pos hfree] at hroom
    have hlt : s.freeblock < FSSIZE := by omega
    have hne := (h.fits hlt).2
    rw [h.addr_take hi hj hlt hfree hind]
    split <;> simp [*]
  · rename_i hne
    constructor
    · exact Or.inl
    · rintro (h | ⟨rfl, rfl⟩)
      · exact h
      · exact hne

/-- One round of `iappend` takes the blocks that the file needs to grow by a
byte, and no others. -/
theorem Sound.ensured (h : Sound s) (hsize : (s.disk.dinode i).size = off)
    (hfbn : off / BSIZE = fbn) (hm : Made s.freeinode i) (hlt : fbn < MAXFILE)
    (hroom : s.freeblock + need (off + 1) ≤ FSSIZE + need off) :
    Base (s.ensured i fbn) ∧ Others i s (s.ensured i fbn) ∧
      (s.ensured i fbn).freeblock + need off = s.freeblock + need (off + 1) ∧
      ∀ j l, j < NINODES → l < NPLACE → ((s.ensured i fbn).disk.addr j l ≠ 0 ↔
        s.disk.addr j l ≠ 0 ∨ j = i ∧ Mapped (off + 1) l) := by
  obtain ⟨hnext, hcases⟩ := blocks_cases hfbn
  have hmapped : ∀ l, l < NPLACE → (s.disk.addr i l ≠ 0 ↔
      (if l ≤ NDIRECT then l else l - 1) < blocks off) := by
    intro l hl
    rw [h.mapped i l hm.lt hl, hsize]
    rfl
  have hneed : need off = blocks off + if NDIRECT < blocks off then 1 else 0 := rfl
  have hneed' : need (off + 1) = fbn + 1 + if NDIRECT < fbn + 1 then 1 else 0 := by
    rw [need, hnext]
  unfold State.ensured
  split
  · -- a direct block
    rename_i hdirect
    have hfree := hmapped fbn (by simp only [NPLACE]; omega)
    rw [if_pos (by omega)] at hfree
    have hcount : (s.ensure i fbn).freeblock + need off = s.freeblock + need (off + 1) := by
      rw [freeblock_ensure, hneed, hneed', if_neg (show ¬ NDIRECT < blocks off by omega),
        if_neg (show ¬ NDIRECT < fbn + 1 by omega)]
      split <;> omega
    have hfit : (s.ensure i fbn).freeblock ≤ FSSIZE := by omega
    have hind : NDIRECT < fbn → s.disk.addr i NDIRECT ≠ 0 := by omega
    refine ⟨h.toBase.ensure hm (by simp only [NPLACE]; omega) hfit hind,
      others_ensure s i fbn, hcount, ?_⟩
    intro j l hj hl
    rw [h.addr_ensure hm.lt hj hfit hind, mapped_succ hfbn]
    by_cases hji : j = i
    · rw [hji, hmapped l hl]
      split <;> omega
    · simp only [hji, false_and]
  · -- a block of the indirect block, which may be the first one
    rename_i hdirect
    have hfree := hmapped NDIRECT (by decide)
    rw [if_pos (Nat.le_refl _)] at hfree
    have hcount : (s.ensure i NDIRECT).freeblock =
        s.freeblock + if NDIRECT < blocks off then 0 else 1 := by
      rw [freeblock_ensure]
      congr 1
      split <;> split <;> omega
    have hroom' : (s.ensure i NDIRECT).freeblock ≤ FSSIZE := by
      rw [hneed', if_pos (by omega)] at hroom
      rw [hcount]
      split at hneed <;> split <;> omega
    have hbase := h.toBase.ensure hm (by decide) hroom' (by omega)
    have haddr : ∀ j l, j < NINODES → ((s.ensure i NDIRECT).disk.addr j l ≠ 0 ↔
        s.disk.addr j l ≠ 0 ∨ j = i ∧ l = NDIRECT) := by
      intro j l hj
      exact h.addr_ensure hm.lt hj hroom' (by omega)
    have hind : NDIRECT < fbn + 1 → (s.ensure i NDIRECT).disk.addr i NDIRECT ≠ 0 := by
      intro _
      exact (haddr i NDIRECT hm.lt).mpr (Or.inr ⟨rfl, rfl⟩)
    have hlt' : fbn + 1 < NPLACE := by
      simp only [NPLACE, MAXFILE] at hlt ⊢
      omega
    have hfree' : (s.ensure i NDIRECT).disk.addr i (fbn + 1) ≠ 0 ↔ fbn < blocks off := by
      rw [haddr i (fbn + 1) hm.lt, hmapped _ hlt', if_neg (by omega)]
      simp only [true_and, Nat.add_sub_cancel]
      omega
    have hcount' : ((s.ensure i NDIRECT).ensure i (fbn + 1)).freeblock + need off =
        s.freeblock + need (off + 1) := by
      rw [freeblock_ensure, hcount, hneed, hneed', if_pos (show NDIRECT < fbn + 1 by omega)]
      split <;> split <;> omega
    have hfit : ((s.ensure i NDIRECT).ensure i (fbn + 1)).freeblock ≤ FSSIZE := by omega
    have hothers := others_ensure s i NDIRECT
    refine ⟨hbase.ensure (hothers.freeinode ▸ hm) hlt' hfit hind,
      hothers.trans (others_ensure _ i _), hcount', ?_⟩
    intro j l hj hl
    rw [hbase.addr_ensure hm.lt hj hfit hind, haddr j l hj, mapped_succ hfbn]
    by_cases hji : j = i
    · rw [hji, hmapped l hl]
      split <;> omega
    · simp only [hji, false_and, or_false]

/-! ## The local copy of an inode -/

@[simp] theorem freeblock_view : (s.view i din off).freeblock = s.freeblock := rfl

@[simp] theorem dinode_view_self :
    (s.view i din off).disk.dinode i = { din with size := off } := dinode_put_self

theorem addr_view (hk : k ≤ NDIRECT) : (s.view i din off).disk.addr i k = din.addrs k := by
  rw [addr_direct hk, dinode_view_self]

/-- An address of the copy. -/
theorem view_setAddr (hk : k ≤ NDIRECT) :
    { s with freeblock := s.freeblock + 1 : State }.view i (din.setAddr k s.freeblock) off =
      (s.view i din off).take i k := by
  simp only [State.view, State.take, assign, if_pos hk, dinode_put_self, put_put]
  rfl

/-- A word of its indirect block. -/
theorem view_setWord (hfbn : ¬ fbn < NDIRECT) :
    { s with
        disk := s.disk.setBlock (din.addrs NDIRECT)
          ((s.disk.block (din.addrs NDIRECT)).setWord (fbn - NDIRECT) s.freeblock)
        freeblock := s.freeblock + 1 : State }.view i din off =
      (s.view i din off).take i (fbn + 1) := by
  have hword : fbn + 1 - NDIRECT - 1 = fbn - NDIRECT := by omega
  simp only [State.view, State.take, assign, if_neg (show ¬ fbn + 1 ≤ NDIRECT by omega),
    dinode_put_self, hword]
  rfl

/-- A store before the copy is written back is a store to the view. -/
theorem view_store (off b : Nat) (buf : Buffer) (off' : Nat) :
    { s with disk := s.disk.setBlock b buf : State }.view i din off' =
      (s.view i din off).store i b buf off' := by
  simp only [State.view, State.store, dinode_put_self]
  rw [show (s.disk.put i { din with size := off }).setBlock b buf =
    (s.disk.setBlock b buf).put i { din with size := off } from rfl, put_put]

theorem rsect_runs {sec : Nat} (h : sec < FSSIZE) :
    Runs (fun _ => False) (rsect sec) s (fun buf s' => buf = s.disk.block sec ∧ s' = s) := by
  unfold rsect
  refine .bind (.get ?_)
  rw [if_pos h]
  exact ⟨rfl, rfl⟩

theorem rinode_runs {E : Exit → Prop} {Q : Dinode → State → Prop} (h : Q (s.disk.dinode i) s) :
    Runs E (rinode i) s Q := h

theorem iindirect_runs (s : State) (i : Nat) (din : Dinode) (off : Nat) :
    Runs (fun _ => False) (iindirect din) s (fun din' s' =>
      s'.view i din' off = (s.view i din off).ensure i NDIRECT) := by
  have haddr : (s.view i din off).disk.addr i NDIRECT = din.addrs NDIRECT :=
    addr_view (Nat.le_refl _)
  unfold iindirect State.ensure
  rw [haddr]
  split
  · exact view_setAddr (Nat.le_refl _)
  · rfl

/-- The block that `iblock` finds or takes. -/
theorem iblock_runs (h : Sound (s.view i din off)) (hfbn : off / BSIZE = fbn)
    (hm : Made s.freeinode i) (hlt : fbn < MAXFILE)
    (hroom : s.freeblock + need (off + 1) ≤ FSSIZE + need off) :
    Runs (fun _ => False) (iblock din fbn) s (fun r s' =>
      s'.view i r.2 off = (s.view i din off).ensured i fbn ∧
      r.1 = (s'.view i r.2 off).disk.fileAddr i fbn) := by
  obtain ⟨hbase, -, hcount, haddr⟩ :=
    h.ensured (by rw [dinode_view_self]) hfbn hm hlt hroom
  have hi := hm.lt
  rw [freeblock_view] at hcount
  unfold iblock
  by_cases hdirect : fbn < NDIRECT
  · have hle : fbn ≤ NDIRECT := by omega
    have hview : (s.view i din off).disk.addr i fbn = din.addrs fbn := addr_view hle
    have hfile : ∀ w : State, w.disk.fileAddr i fbn = (w.disk.dinode i).addrs fbn := by
      intro w
      rw [fileAddr, place, if_pos hdirect, addr_direct hle]
    rw [if_pos hdirect, State.ensured, if_pos hdirect, State.ensure, hview]
    split
    · refine ⟨view_setAddr hle, ?_⟩
      rw [hfile, dinode_view_self]
      exact (Dinode.addrs_setAddr_self _ _ _).symm
    · refine ⟨rfl, ?_⟩
      rw [hfile, dinode_view_self]
  · have hfile : ∀ w : State, w.disk.fileAddr i fbn = w.disk.indirect (w.disk.dinode i)
        (fbn - NDIRECT) := by
      intro w
      have hword : fbn + 1 - NDIRECT - 1 = fbn - NDIRECT := by omega
      rw [fileAddr, place, if_neg hdirect, addr_indirect (by omega), hword]
    have hlast : (((s.view i din off).ensure i NDIRECT).ensure i (fbn + 1)).freeblock ≤ FSSIZE := by
      rw [State.ensured, if_neg hdirect] at hcount
      omega
    have hfit : ((s.view i din off).ensure i NDIRECT).freeblock ≤ FSSIZE := by
      rw [freeblock_ensure] at hlast
      omega
    have hbase := h.toBase.ensure hm (by decide) hfit (by omega)
    have hne := (h.addr_ensure (l := NDIRECT) hi hi hfit (by omega)).mpr (Or.inr ⟨rfl, rfl⟩)
    rw [if_neg hdirect, State.ensured, if_neg hdirect]
    refine .call (iindirect_runs s i din off) ?_
    intro din' s' hview
    rw [← hview] at hlast hfit hbase hne ⊢
    have hind : din'.addrs NDIRECT ≠ 0 := by rwa [addr_view (Nat.le_refl _)] at hne
    have hsect : din'.addrs NDIRECT < FSSIZE := by
      have hblk := hbase.indirect_lt hi hne
      rw [dinode_view_self] at hblk
      exact Nat.lt_of_lt_of_le hblk hfit
    have hword : (s'.view i din' off).disk.addr i (fbn + 1) =
        (s'.disk.block (din'.addrs NDIRECT)).word (fbn - NDIRECT) := by
      rw [show (s'.view i din' off).disk.addr i (fbn + 1) =
        (s'.view i din' off).disk.fileAddr i fbn by rw [fileAddr, place, if_neg hdirect], hfile,
        dinode_view_self, Disk.indirect, if_neg hind]
      rfl
    refine .call (rsect_runs hsect) ?_
    rintro buf t ⟨rfl, rfl⟩
    rw [State.ensure, hword]
    split
    · rename_i hfree
      have htake : State.view { t with
          disk := t.disk.setBlock (din'.addrs NDIRECT)
            ((t.disk.block (din'.addrs NDIRECT)).setWord (fbn - NDIRECT) t.freeblock)
          freeblock := t.freeblock + 1 } i din' off = (t.view i din' off).take i (fbn + 1) :=
        view_setWord hdirect
      refine ⟨htake, ?_⟩
      rw [freeblock_ensure, hword, if_pos hfree] at hlast
      show t.freeblock = (State.view _ i din' off).disk.fileAddr i fbn
      rw [htake, fileAddr, place, if_neg hdirect,
        hbase.addr_take hi hi hlast (hword.trans hfree) (fun _ => hne), if_pos ⟨rfl, rfl⟩]
      rfl
    · exact ⟨rfl, by rw [← hword, fileAddr, place, if_neg hdirect]⟩

/-! ## One round and the whole loop -/

/-- A store to a data block moves no block. -/
theorem Base.addr_store (h : Base s) (hi : i < NINODES) (hj : j < NINODES) (hk : k < NPLACE)
    (hdata : k ≠ NDIRECT) (hne : s.disk.addr i k ≠ 0) (buf : Buffer) (off : Nat) :
    (s.store i (s.disk.addr i k) buf off).disk.addr j l = s.disk.addr j l := by
  have hheld : s.disk.Holds sb (i, k) (s.disk.addr i k) := ⟨hi, hk, rfl, hne⟩
  rw [← addr_setBlock (not_indirect h.exact hheld hdata hj) (x := buf)]
  apply addr_put_addrs
  rfl

theorem Base.store (h : Base s) (hm : Made s.freeinode i) (hk : k < NPLACE) (hdata : k ≠ NDIRECT)
    (hne : s.disk.addr i k ≠ 0) (buf : Buffer) (off : Nat) :
    Base (s.store i (s.disk.addr i k) buf off) := by
  have hheld : s.disk.Holds sb (i, k) (s.disk.addr i k) := ⟨hm.lt, hk, rfl, hne⟩
  have hothers : Others i s (s.store i (s.disk.addr i k) buf off) :=
    ⟨rfl, fun j hj => dinode_put_of_ne hj⟩
  refine ⟨?_, ?_, h.start, fun j => hothers.alive h ?_, fun j => hothers.blank h hm⟩
  · refine h.exact.congr (holds_congr ?_) (fun _ => Iff.rfl)
    intro j l hj _
    exact h.addr_store hm.lt hj hk hdata hne buf off
  · intro b hb
    have hlt := (h.exact.inUse hheld).2
    rw [State.store, block_put, block_setBlock_of_ne (Nat.ne_of_gt (Nat.lt_of_lt_of_le hlt hb))]
    exact h.fresh b hb
  · rw [State.store, dinode_put_self]

/-- The loop of `iappend` takes the blocks that the new size needs. -/
theorem iappendLoop_runs : ∀ (rounds : Nat) (p : List UInt8) (din : Dinode) (off : Nat)
    (s : State), p.length ≤ rounds → Sound (s.view i din off) → Made s.freeinode i →
    off + p.length ≤ MAXFILE * BSIZE →
    s.freeblock + need (off + p.length) ≤ FSSIZE + need off →
    Runs (fun _ => False) (iappendLoop rounds din off p) s (fun r s' =>
      Sound (s'.view i r.1 r.2) ∧ r.2 = off + p.length ∧
      s'.freeblock + need off = s.freeblock + need (off + p.length) ∧ Others i s s') := by
  intro rounds
  induction rounds with
  | zero =>
    intro p din off s hlen h _ _ _
    have hp : p.length = 0 := Nat.le_zero.mp hlen
    rw [hp]
    exact ⟨h, rfl, rfl, Others.refl i s⟩
  | succ rounds ih =>
    intro p din off s hlen h hm hmax hroom
    unfold iappendLoop
    split
    · rename_i hp
      rw [hp]
      exact ⟨h, rfl, rfl, Others.refl i s⟩
    rename_i hp
    have hplen : 0 < p.length := List.length_pos_of_ne_nil hp
    have hlt : off / BSIZE < MAXFILE := by
      simp only [BSIZE, MAXFILE, NDIRECT, NINDIRECT] at hmax ⊢
      omega
    have hneed : need (off + 1) ≤ need (off + p.length) := need_mono (by omega)
    have hroom1 : s.freeblock + need (off + 1) ≤ FSSIZE + need off := by omega
    obtain ⟨hbase, hothers, hcount, haddr⟩ :=
      h.ensured (by rw [dinode_view_self]) rfl hm hlt hroom1
    dsimp only
    rw [if_pos hlt]
    refine .call (iblock_runs h rfl hm hlt hroom1) ?_
    rintro ⟨x, din1⟩ s1 ⟨hview, hx⟩
    dsimp only at hview hx ⊢
    rw [← hview] at hbase hothers hcount haddr
    have hplace := place_lt hlt
    have hne : (s1.view i din1 off).disk.addr i (place (off / BSIZE)) ≠ 0 := by
      refine (haddr i _ hm.lt hplace).mpr (Or.inr ⟨rfl, (mapped_succ rfl).mpr ?_⟩)
      unfold place
      split <;> split <;> omega
    have hm1 : Made s1.freeinode i := (show s1.freeinode = s.freeinode from hothers.freeinode) ▸ hm
    have hsect : x < FSSIZE := by
      have hblk := hbase.exact.inUse (show Holds sb _ (i, place (off / BSIZE)) _ from
        ⟨hm.lt, hplace, rfl, hne⟩)
      rw [hx, fileAddr]
      simp only [freeblock_view] at hblk hcount
      omega
    refine .call (rsect_runs hsect) ?_
    rintro buf t ⟨rfl, rfl⟩
    refine .bind (.modify ?_)
    -- the bytes fit into the block, so the number of blocks is right
    generalize hn : min p.length ((off / BSIZE + 1) * BSIZE - off) = n1
    have hn1 : 0 < n1 ∧ n1 ≤ p.length ∧ blocks (off + n1) = blocks (off + 1) := by
      simp only [BSIZE, blocks] at hn ⊢
      omega
    obtain ⟨hn0, hnp, hblocks⟩ := hn1
    have hdrop : (p.drop n1).length = p.length - n1 := List.length_drop
    have hsum : off + n1 + (p.length - n1) = off + p.length := by omega
    have hneed1 : need (off + n1) = need (off + 1) := by rw [need, need, hblocks]
    have hbytes : off + p.length ≤ MAXFILE * BSIZE := hmax
    simp only [freeblock_view] at hcount
    have hsound : Sound (State.view { t with disk := t.disk.setBlock x ((t.disk.block x).patch
        (off - off / BSIZE * BSIZE) (p.take n1)) } i din1 (off + n1)) := by
      generalize (t.disk.block x).patch (off - off / BSIZE * BSIZE) (p.take n1) = buf
      rw [view_store off, hx, fileAddr]
      refine ⟨hbase.store hm1 hplace place_ne hne buf (off + n1), ?_, ?_⟩
      swap
      · intro j hj
        by_cases hji : j = i
        · rw [hji, State.store, dinode_put_self]
          dsimp only
          omega
        · rw [State.store, dinode_put_of_ne hji, dinode_setBlock, hothers.same j hji]
          exact h.bounded j hj
      intro j l hj hl
      rw [hbase.addr_store hm.lt hj hplace place_ne hne buf (off + n1), haddr j l hj hl,
        h.mapped j l hj hl]
      by_cases hji : j = i
      · rw [hji, dinode_view_self, State.store, dinode_put_self, mapped_congr hblocks]
        simp only [true_and]
        constructor
        · rintro (hm | hm)
          · exact Nat.lt_of_lt_of_le hm (Nat.div_le_div_right (by omega))
          · exact hm
        · exact Or.inr
      · rw [← hothers.same j hji, State.store, dinode_put_of_ne hji, dinode_setBlock]
        simp only [hji, false_and, or_false]
    refine (ih (p.drop n1) din1 (off + n1) _ (by omega) hsound hm1 (by omega) ?_).post ?_
    · dsimp only
      rw [hdrop, hsum, hneed1]
      omega
    · rintro r s' ⟨hs', hoff, hfb, hrest⟩
      dsimp only at hfb
      rw [hdrop, hsum] at hoff hfb
      refine ⟨hs', hoff, by omega, hrest.freeinode.trans hothers.freeinode, ?_⟩
      intro j hj
      rw [hrest.same j hj, dinode_setBlock]
      have hj' := hothers.same j hj
      rwa [State.view, State.view, dinode_put_of_ne hj, dinode_put_of_ne hj] at hj'

/-! ## The functions -/

theorem view_self (s : State) (i : Nat) :
    s.view i (s.disk.dinode i) (s.disk.dinode i).size = s := by
  have hput : s.disk.put i (s.disk.dinode i) = s.disk := by
    unfold put
    rw [Function.update_eq_self]
  show { s with disk := s.disk.put i (s.disk.dinode i) } = s
  rw [hput]

/-- `iappend` makes the file longer, and takes the blocks that it needs. -/
theorem iappend_runs (h : Sound s) (p : List UInt8) (hm : Made s.freeinode i)
    (hmax : (s.disk.dinode i).size + p.length ≤ MAXFILE * BSIZE)
    (hroom : s.freeblock + need ((s.disk.dinode i).size + p.length) ≤
      FSSIZE + need (s.disk.dinode i).size) :
    Runs (fun _ => False) (iappend i p) s (fun _ s' =>
      Sound s' ∧ Others i s s' ∧
      s'.freeblock + need (s.disk.dinode i).size =
        s.freeblock + need ((s.disk.dinode i).size + p.length) ∧
      (s'.disk.dinode i).size = (s.disk.dinode i).size + p.length) := by
  have hview : Sound (s.view i (s.disk.dinode i) (s.disk.dinode i).size) := by rwa [view_self]
  refine .bind (rinode_runs ?_)
  refine .call (iappendLoop_runs p.length p _ _ s (Nat.le_refl _) hview hm hmax hroom) ?_
  rintro ⟨din, off⟩ s' ⟨hs', hoff, hfb, hothers⟩
  refine ⟨hs', ⟨hothers.freeinode, ?_⟩, hfb, ?_⟩
  · intro j hj
    exact (dinode_put_of_ne hj).trans (hothers.same j hj)
  · show ((s'.disk.put i { din with size := off }).dinode i).size = _
    rw [dinode_put_self]
    exact hoff

/-- One more entry of the root directory. -/
theorem iappend_root (h : Sound s) (d : Dirent) (hm : ROOTINO < s.freeinode) {n : Nat}
    (hsize : (s.disk.dinode ROOTINO).size = DIRENT * n) (hn : n ≤ NINODES)
    (hroom : s.freeblock + need (DIRENT * (n + 1)) ≤ FSSIZE + need (DIRENT * n)) :
    Runs (fun _ => False) (iappend ROOTINO d.bytes) s (fun _ s' =>
      Sound s' ∧ Others ROOTINO s s' ∧
      s'.freeblock + need (DIRENT * n) = s.freeblock + need (DIRENT * (n + 1)) ∧
      (s'.disk.dinode ROOTINO).size = DIRENT * (n + 1)) := by
  have hruns := iappend_runs h d.bytes ⟨by decide, by decide, hm⟩
  rw [hsize, Dirent.length_bytes, show DIRENT * n + DIRENT = DIRENT * (n + 1) from rfl] at hruns
  refine hruns ?_ hroom
  simp only [DIRENT, DIRSIZ, NINODES, MAXFILE, BSIZE, NDIRECT, NINDIRECT] at hn ⊢
  omega

/-- `ialloc` makes an empty file. -/
theorem ialloc_runs (h : Sound s) {type : FileType} (htype : type ≠ .free) (hpos : 0 < s.freeinode) :
    Runs (fun _ => False) (ialloc type) s (fun i s' =>
      i = s.freeinode ∧ Sound s' ∧ s'.freeinode = s.freeinode + 1 ∧
      s'.freeblock = s.freeblock ∧ (s'.disk.dinode i).size = 0 ∧
      ∀ j, j ≠ i → s'.disk.dinode j = s.disk.dinode j) := by
  have hblank := h.blank s.freeinode (Or.inr (Nat.le_refl _))
  have haddr : ∀ j l, (s.disk.put s.freeinode { Dinode.zero with type := type, nlink := 1 }).addr j l =
      s.disk.addr j l := by
    intro j l
    apply addr_put_addrs
    rw [hblank]
  refine ⟨rfl, ⟨⟨?_, h.fresh, h.start, ?_, ?_⟩, ?_, ?_⟩, rfl, rfl, ?_,
    fun j hj => dinode_put_of_ne hj⟩
  · exact h.exact.congr (holds_congr (fun j l _ _ => haddr j l)) (fun _ => Iff.rfl)
  · intro j hj hlt
    dsimp only at hlt ⊢
    by_cases hji : j = s.freeinode
    · rw [hji, dinode_put_self]
      exact htype
    · rw [dinode_put_of_ne hji]
      exact h.alive j hj (by omega)
  · intro j hj
    dsimp only at hj ⊢
    rw [dinode_put_of_ne (by omega)]
    exact h.blank j (by omega)
  · intro j l hj hl
    dsimp only
    rw [haddr, h.mapped j l hj hl]
    by_cases hji : j = s.freeinode
    · rw [hji, dinode_put_self, hblank]
    · rw [dinode_put_of_ne hji]
  · intro j hj
    dsimp only
    by_cases hji : j = s.freeinode
    · rw [hji, dinode_put_self]
      exact Nat.zero_le _
    · rw [dinode_put_of_ne hji]
      exact h.bounded j hj
  · dsimp only
    rw [dinode_put_self]
    rfl

/-! ## The whole program -/

/-- The number of bytes that some calls of `read` return. -/
def total (chunks : List Chunk) : Nat := (chunks.map (fun c => c.val.length)).sum

theorem total_append (a b : List Chunk) : total (a ++ b) = total a + total b := by
  simp [total]

theorem total_cons (c : Chunk) (cs : List Chunk) : total (c :: cs) = c.val.length + total cs := by
  simp [total]

/-- The number of bytes of an input file. -/
def InputFile.size (f : InputFile) : Nat := total (f.reads.getD [])

/-- The list of files fits: there are inodes and blocks for all of them.  A
file must be one that `mkfs` takes at all: it can be opened, and its name has
no `/`. -/
structure Fits (files : List InputFile) : Prop where
  inodes : files.length + 1 < NINODES
  named : ∀ f ∈ files, 47 ∉ stripDir f.path
  opened : ∀ f ∈ files, f.reads.isSome = true
  short : ∀ f ∈ files, f.size ≤ MAXFILE * BSIZE
  room : nmeta + need (DIRENT * (files.length + 2)) + (files.map (fun f => need f.size)).sum ≤
    FSSIZE

/-- The image after the files `done`. -/
structure Progress (done : List InputFile) (s : State) : Prop where
  sound : Sound s
  freeinode : s.freeinode = done.length + 2
  root : (s.disk.dinode ROOTINO).size = DIRENT * (done.length + 2)
  freeblock : s.freeblock = nmeta + need (DIRENT * (done.length + 2)) +
    (done.map (fun f => need f.size)).sum

variable {files : List InputFile}

/-- What is left for a file when the ones before it are in the image. -/
theorem Fits.room_for {done rest : List InputFile} {f : InputFile} (h : Fits files)
    (hfiles : files = done ++ f :: rest) : done.length + 3 ≤ NINODES ∧
      nmeta + need (DIRENT * (done.length + 2 + 1)) + (done.map (fun f => need f.size)).sum +
        need f.size ≤ FSSIZE := by
  have hroom := h.room
  have hinodes := h.inodes
  rw [hfiles] at hroom hinodes
  simp only [List.length_append, List.length_cons, List.map_append, List.map_cons, List.sum_append,
    List.sum_cons] at hroom hinodes
  have hroot : need (DIRENT * (done.length + 2 + 1)) ≤
      need (DIRENT * (done.length + (rest.length + 1) + 2)) :=
    need_mono (Nat.mul_le_mul_left _ (by omega))
  omega

/-- The loop that copies a file into inode `i`. -/
theorem copy_runs (h : Sound s) (hm : Made s.freeinode i) (hsize : (s.disk.dinode i).size = 0)
    (chunks : List Chunk) (hmax : total chunks ≤ MAXFILE * BSIZE)
    (hroom : s.freeblock + need (total chunks) ≤ FSSIZE) :
    Runs (fun _ => False) (chunks.forM (fun c => iappend i c.val)) s (fun _ s' =>
      Sound s' ∧ Others i s s' ∧ s'.freeblock = s.freeblock + need (total chunks)) := by
  refine (Runs.forM (fun done t => Sound t ∧ Others i s t ∧
    t.freeblock = s.freeblock + need (total done) ∧
    (t.disk.dinode i).size = total done) ?_ ?_).post ?_
  · exact ⟨h, Others.refl i s, rfl, hsize⟩
  · rintro done c rest t hchunks ⟨ht, hothers, hfb, hlen⟩
    rw [hchunks, total_append, total_cons] at hmax hroom
    have hneed : need (total done + c.val.length) ≤
        need (total done + (c.val.length + total rest)) := need_mono (by omega)
    refine (iappend_runs ht c.val (hothers.freeinode ▸ hm) (by omega) ?_).post ?_
    · rw [hlen]
      omega
    · rintro _ t' ⟨ht', hothers', hfb', hlen'⟩
      rw [total_append, total_cons, show total [] = 0 from rfl, Nat.add_zero]
      rw [hlen] at hfb' hlen'
      exact ⟨ht', hothers.trans hothers', by omega, hlen'⟩
  · rintro _ t ⟨ht, hothers, hfb, _⟩
    exact ⟨ht, hothers, hfb⟩

/-- One file. -/
theorem addFile_runs {done rest : List InputFile} {f : InputFile} (h : Fits files)
    (hfiles : files = done ++ f :: rest) (hs : Progress done s) :
    Runs (fun _ => False) (addFile ROOTINO f) s (fun _ s' => Progress (done ++ [f]) s') := by
  have hmem : f ∈ files := by
    rw [hfiles]
    simp
  obtain ⟨hinodes, hroom⟩ := h.room_for hfiles
  obtain ⟨chunks, hreads⟩ := Option.isSome_iff_exists.mp (h.opened f hmem)
  have hfsize : f.size = total chunks := by
    rw [InputFile.size, hreads]
    rfl
  have hshort := h.short f hmem
  rw [hfsize] at hroom hshort
  have hroot : ROOTINO = 1 := rfl
  have hfi := hs.freeinode
  have hfb := hs.freeblock
  unfold addFile
  rw [if_neg (h.named f hmem), hreads]
  refine .call (ialloc_runs hs.sound (by decide) (by omega)) ?_
  rintro i t ⟨hi, ht, hfi1, hfb1, hsize1, hsame1⟩
  have hroot1 : (t.disk.dinode ROOTINO).size = DIRENT * (done.length + 2) := by
    rw [hsame1 _ (by omega), hs.root]
  refine .call (iappend_root ht _ (by omega) hroot1 (by omega) (by omega)) ?_
  rintro _ u ⟨hu, hothers2, hfb2, hroot2⟩
  have hfi2 := hothers2.freeinode
  have hsize2 : (u.disk.dinode i).size = 0 := by rw [hothers2.same i (by omega), hsize1]
  refine (copy_runs hu ⟨by omega, by omega, by omega⟩ hsize2 chunks hshort (by omega)).post ?_
  rintro _ w ⟨hw, hothers3, hfb3⟩
  have hfi3 := hothers3.freeinode
  refine ⟨hw, ?_, ?_, ?_⟩
  · simp only [List.length_append, List.length_singleton]
    omega
  · rw [hothers3.same _ (by omega), hroot2, List.length_append]
    rfl
  · rw [List.length_append, List.map_append, List.sum_append]
    simp only [List.map_cons, List.map_nil, List.sum_cons, List.sum_nil, List.length_singleton]
    rw [hfsize, show done.length + 1 + 2 = done.length + 2 + 1 from rfl]
    omega

theorem blank_sound : Sound blank := by
  have haddr : ∀ i k, blank.disk.addr i k = 0 := by
    intro i k
    unfold addr
    split <;> rfl
  refine ⟨⟨⟨?_, ?_, ?_⟩, fun _ _ => rfl, Nat.le_refl _, ?_, fun _ _ => rfl⟩, ?_,
    fun _ _ => Nat.zero_le _⟩
  · rintro ⟨i, k⟩ b ⟨_, _, hb, hne⟩
    exact absurd ((haddr i k).symm.trans hb).symm hne
  · rintro ⟨i, k⟩ _ b ⟨_, _, hb, hne⟩
    exact absurd ((haddr i k).symm.trans hb).symm hne
  · rintro b ⟨hlo, hhi⟩
    exact absurd hhi (Nat.not_lt.mpr hlo)
  · intro i hpos hlt
    exact absurd hlt (Nat.not_lt.mpr hpos)
  · intro i k _ _
    rw [haddr]
    constructor
    · intro hne
      exact absurd rfl hne
    · intro hm
      rw [Mapped, show blocks (blank.disk.dinode i).size = 0 by exact (by decide : blocks 0 = 0)]
        at hm
      exact absurd hm (Nat.not_lt_zero _)

/-- The last steps of `main`. -/
def State.finish (s : State) : State :=
  let din := s.disk.dinode ROOTINO
  let disk := s.disk.put ROOTINO { din with size := fixSize din.size }
  { s with disk := { disk with bitmap := fun b => decide (b < s.freeblock) } }

/-- `mkfs` writes the image of all the files, and finishes it. -/
theorem mkfs_eq (h : Fits files) : ∃ s, Progress files s ∧ mkfs files = .ok s.finish := by
  have hroot : ROOTINO = 1 := rfl
  have hneed : need (DIRENT * 2) ≤ need (DIRENT * (files.length + 2)) :=
    need_mono (Nat.mul_le_mul_left _ (by omega))
  have hroom := h.room
  have hdot : need (DIRENT * 0) = 0 ∧ need (DIRENT * (0 + 1)) = 1 ∧
      need (DIRENT * (0 + 1 + 1)) = 1 ∧ need (DIRENT * 2) = 1 := by decide
  have hmain : Runs (fun _ => False) (main files) blank (fun _ s' =>
      ∃ s, Progress files s ∧ s' = s.finish) := by
    unfold main
    refine .call (ialloc_runs blank_sound (by decide) (by decide)) ?_
    rintro i s ⟨hi, hs, hfi, hfb, hsize, -⟩
    have hone : i = ROOTINO := hi
    subst hone
    rw [if_pos rfl]
    have hfi1 : s.freeinode = 2 := hfi
    have hfb1 : s.freeblock = nmeta := hfb
    -- the entries "." and ".."
    refine .call (iappend_root (n := 0) hs _ (by omega) hsize (by decide) (by omega)) ?_
    rintro _ t ⟨ht, ⟨hfi2, -⟩, hfb2, hsize2⟩
    refine .call (iappend_root ht _ (by omega) hsize2 (by decide) (by omega)) ?_
    rintro _ u ⟨hu, ⟨hfi3, -⟩, hfb3, hsize3⟩
    have hstart : Progress [] u := by
      refine ⟨hu, by simp only [List.length_nil]; omega, hsize3, ?_⟩
      simp only [List.length_nil, Nat.zero_add, List.map_nil, List.sum_nil]
      omega
    refine .call (Runs.forM Progress hstart ?_) ?_
    · intro done f rest w hfiles hw
      exact addFile_runs h hfiles hw
    intro _ w hw
    refine .bind (rinode_runs (.bind (.modify (.bind (.get ?_)))))
    have hlt : w.freeblock < BSIZE * 8 := by
      have hfree := hw.freeblock
      simp only [FSSIZE, BSIZE] at hroom ⊢
      omega
    unfold balloc
    rw [if_pos hlt]
    exact .modify ⟨w, hw, rfl⟩
  obtain ⟨_, s', hrun, s, hs, rfl⟩ := hmain.returns
  refine ⟨s, hs, ?_⟩
  unfold mkfs
  rw [hrun]
  rfl

/-- A well-formed image.  Every block index that the size of a file covers
has a data block of its own, no block is used twice, and the free map marks
the blocks below `freeblock`. -/
structure WellFormed (s : State) : Prop where
  mapped : ∀ i bn, i < NINODES → bn < blocks (s.disk.dinode i).size →
    nmeta ≤ s.disk.fileAddr i bn ∧ s.disk.fileAddr i bn < FSSIZE
  distinct : ∀ i j bn bm, i < NINODES → j < NINODES → bn < blocks (s.disk.dinode i).size →
    bm < blocks (s.disk.dinode j).size → s.disk.fileAddr i bn = s.disk.fileAddr j bm →
    i = j ∧ bn = bm
  once : ∀ p q b, s.disk.Holds sb p b → s.disk.Holds sb q b → p = q
  bitmap : ∀ b, s.disk.bitmap b = decide (b < s.freeblock)

theorem WellFormed.no_hole {bn : Nat} (h : WellFormed s) (hi : i < NINODES)
    (hbn : bn < blocks (s.disk.dinode i).size) : s.disk.fileAddr i bn ≠ 0 := by
  have hmapped := (h.mapped i bn hi hbn).1
  intro hzero
  rw [hzero] at hmapped
  exact absurd hmapped (by decide)

/-- The size of the root directory covers no further block, unless the
entries fill their last block. -/
theorem blocks_fixSize (n : Nat) :
    blocks (fixSize (DIRENT * n)) = blocks (DIRENT * n) + if n % 64 = 0 then 1 else 0 := by
  simp only [blocks, fixSize, BSIZE, DIRENT, DIRSIZ]
  split <;> omega

theorem addr_finish (s : State) (i k : Nat) : s.finish.disk.addr i k = s.disk.addr i k := by
  show (s.disk.put ROOTINO { s.disk.dinode ROOTINO with
    size := fixSize (s.disk.dinode ROOTINO).size }).addr i k = _
  apply addr_put_addrs
  rfl

/-- The blocks that the sizes cover in the finished image. -/
theorem Progress.blocks_finish (h : Progress files s) (i : Nat) :
    blocks (s.finish.disk.dinode i).size = blocks (s.disk.dinode i).size +
      if i = ROOTINO ∧ (files.length + 2) % 64 = 0 then 1 else 0 := by
  by_cases hi : i = ROOTINO
  · have hsize : (s.finish.disk.dinode i).size = fixSize (s.disk.dinode ROOTINO).size := by
      rw [hi]
      exact congrArg Dinode.size dinode_put_self
    rw [hsize, hi, h.root, blocks_fixSize]
    simp only [true_and]
  · have hsize : s.finish.disk.dinode i = s.disk.dinode i := dinode_put_of_ne hi
    rw [hsize, if_neg (fun hc => hi hc.1), Nat.add_zero]

/-- A block index below the size has a block. -/
theorem Sound.holds_of_lt {bn : Nat} (h : Sound s) (hi : i < NINODES)
    (hbn : bn < blocks (s.disk.dinode i).size) :
    s.disk.Holds sb (i, place bn) (s.disk.fileAddr i bn) := by
  have hmax : bn < MAXFILE := by
    have hsize := h.bounded i hi
    simp only [blocks, BSIZE, MAXFILE, NDIRECT, NINDIRECT] at hbn hsize ⊢
    omega
  refine ⟨hi, place_lt hmax, rfl, (h.mapped i _ hi (place_lt hmax)).mpr ?_⟩
  unfold Mapped place
  split <;> split <;> omega

theorem Progress.room (hs : Progress files s) (h : Fits files) : s.freeblock ≤ FSSIZE := by
  rw [hs.freeblock]
  exact h.room

/-- A size that ends on a block boundary gets a block that was never
taken. -/
theorem Progress.hole (hs : Progress files s) (h : Fits files) (hfull : (files.length + 2) % 64 = 0)
    :
    (files.length + 2) / 64 < blocks (s.finish.disk.dinode ROOTINO).size ∧
      s.finish.disk.fileAddr ROOTINO ((files.length + 2) / 64) = 0 := by
  have hblocks : blocks (DIRENT * (files.length + 2)) = (files.length + 2) / 64 := by
    simp only [blocks, BSIZE, DIRENT, DIRSIZ]
    omega
  constructor
  · rw [hs.blocks_finish, hs.root, hblocks, if_pos ⟨rfl, hfull⟩]
    omega
  · have hlt : (files.length + 2) / 64 < NDIRECT := by
      have hinodes := h.inodes
      simp only [NINODES, NDIRECT] at hinodes ⊢
      omega
    rw [fileAddr, place, if_pos hlt, addr_finish]
    refine Decidable.not_not.mp (fun hne => ?_)
    have hm := (hs.sound.mapped ROOTINO _ (by decide)
      (Nat.lt_trans hlt (by decide : NDIRECT < NPLACE))).mp hne
    rw [Mapped, if_pos (Nat.le_of_lt hlt), hs.root, hblocks] at hm
    exact absurd hm (Nat.lt_irrefl _)

/-- Otherwise the sizes cover the blocks that were taken. -/
theorem Progress.wellFormed (hs : Progress files s) (h : Fits files)
    (hfull : (files.length + 2) % 64 ≠ 0) : WellFormed s.finish := by
  have hblocks : ∀ i, blocks (s.finish.disk.dinode i).size = blocks (s.disk.dinode i).size := by
    intro i
    rw [hs.blocks_finish, if_neg (fun hc => hfull hc.2), Nat.add_zero]
  have hfile : ∀ i bn, s.finish.disk.fileAddr i bn = s.disk.fileAddr i bn :=
    fun i bn => addr_finish s i (place bn)
  have hholds : ∀ p b, s.finish.disk.Holds sb p b ↔ s.disk.Holds sb p b :=
    holds_congr (fun i k _ _ => addr_finish s i k)
  have hroom := hs.room h
  refine ⟨?_, ?_, ?_, fun _ => rfl⟩
  · intro i bn hi hbn
    rw [hblocks] at hbn
    rw [hfile]
    have hused := hs.sound.exact.inUse (hs.sound.holds_of_lt hi hbn)
    exact ⟨hused.1, Nat.lt_of_lt_of_le hused.2 hroom⟩
  · intro i j bn bm hi hj hbn hbm heq
    rw [hblocks] at hbn hbm
    rw [hfile, hfile] at heq
    have hbn := hs.sound.holds_of_lt hi hbn
    have hbm := hs.sound.holds_of_lt hj hbm
    rw [← heq] at hbm
    obtain ⟨rfl, hplace⟩ := Prod.mk.inj (hs.sound.exact.once hbn hbm)
    exact ⟨rfl, place_inj hplace⟩
  · intro p q b hp hq
    exact hs.sound.exact.once ((hholds p b).mp hp) ((hholds q b).mp hq)

/-- `mkfs` writes an image for every list of files that fits.  It is
well-formed unless the entries of the root directory fill their last
block. -/
theorem mkfs_image (files : List InputFile) (h : Fits files) :
    ∃ s, mkfs files = .ok s ∧ (WellFormed s ↔ (files.length + 2) % 64 ≠ 0) := by
  obtain ⟨s, hs, hrun⟩ := mkfs_eq h
  refine ⟨s.finish, hrun, ?_, hs.wellFormed h⟩
  intro hw hfull
  obtain ⟨hlt, hzero⟩ := hs.hole h hfull
  exact hw.no_hole (by decide) hlt hzero

/-- A number of empty files, all with the name `a`. -/
def emptyFiles (n : Nat) : List InputFile := List.replicate n ⟨[97], some []⟩

theorem emptyFiles_fits {n : Nat} (hn : n + 1 < NINODES) : Fits (emptyFiles n) := by
  have hfile : ∀ f ∈ emptyFiles n, f = ⟨[97], some []⟩ := fun f hf => List.eq_of_mem_replicate hf
  refine ⟨by simpa [emptyFiles] using hn, ?_, ?_, ?_, ?_⟩
  · intro f hf
    rw [hfile f hf]
    decide
  · intro f hf
    rw [hfile f hf]
    rfl
  · intro f hf
    rw [hfile f hf]
    exact Nat.zero_le _
  · have hzero : need (InputFile.size ⟨[97], some []⟩) = 0 := by decide
    have hroot : need (DIRENT * (n + 2)) ≤ need (DIRENT * (NINODES + 1)) :=
      need_mono (Nat.mul_le_mul_left _ (by omega))
    have hmax : nmeta + need (DIRENT * (NINODES + 1)) ≤ FSSIZE := by decide
    have hsum : (List.replicate n 0).sum = 0 := by simp
    simp only [emptyFiles, List.length_replicate, List.map_replicate, hzero, hsum]
    omega

theorem mkfs_image_emptyFiles :
    Fits (emptyFiles 61) ∧ ∃ s, mkfs (emptyFiles 61) = .ok s ∧ WellFormed s := by
  have hfits : Fits (emptyFiles 61) := emptyFiles_fits (by decide)
  obtain ⟨s, hrun, hwf⟩ := mkfs_image (emptyFiles 61) hfits
  exact ⟨hfits, s, hrun, hwf.mpr (by decide)⟩

/-- With 62 files the root directory has the size of two blocks, and one
block. -/
theorem mkfs_root_hole :
    Fits (emptyFiles 62) ∧ ∃ s, mkfs (emptyFiles 62) = .ok s ∧
      blocks (s.disk.dinode ROOTINO).size = 2 ∧ s.disk.fileAddr ROOTINO 1 = 0 ∧
      ¬ WellFormed s := by
  have hfits : Fits (emptyFiles 62) := emptyFiles_fits (by decide)
  obtain ⟨s, hs, hrun⟩ := mkfs_eq hfits
  have hlen : (emptyFiles 62).length + 2 = 64 := rfl
  have hblocks := hs.blocks_finish ROOTINO
  obtain ⟨hlt, hzero⟩ := hs.hole hfits (by decide)
  rw [hs.root, hlen, if_pos ⟨rfl, by decide⟩] at hblocks
  exact ⟨hfits, s.finish, hrun, hblocks, hzero, fun hw => hw.no_hole (by decide) hlt hzero⟩

end Xv6.FileSystem.Mkfs
