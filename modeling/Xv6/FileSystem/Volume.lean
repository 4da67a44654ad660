import Mathlib.Data.Finset.Card
import Mathlib.Data.Finset.Range
import Xv6.FileSystem.Disk

/-!
# Block ownership and the contents of files

`Owned` is the invariant of the free map: the marked data blocks are the ones
that inodes hold, each at one place, and a free inode holds none.  `Intact`
adds that a file has a block for every block index that its size covers.

A file system changes in four ways.  An inode takes a block (`Owned.take`),
a data block gets other bytes (`Owned.store`), an inode gets other fields
(`Owned.renode`), and an inode gives all its blocks back (`Owned.release`).
Each lemma says what becomes of the addresses, so that the bytes of the other
files are seen to be the same.

`Extends` is what the first kind of change does, any number of times.

`free` counts the free blocks, and `missing` the places of a set that have no
block.  An inode that takes a block lowers both by one.
-/

namespace Xv6.FileSystem

open Xv6.Lib Xv6.FileSystem.Disk Function

/-- The marked data blocks are held, each by one place. -/
structure Owned (sb : Superblock) (d : Disk) : Prop where
  exact : Exact (d.Holds sb) (fun b => sb.nmeta ≤ b ∧ b < sb.size ∧ d.bitmap b = true)
  reserved : ∀ b, b < sb.nmeta → d.bitmap b = true
  alive : ∀ {i k b}, d.Holds sb (i, k) b → (d.dinode i).type ≠ .free

/-- The invariant of a file system: besides, every block index that a size
covers has a block. -/
structure Intact (sb : Superblock) (d : Disk) : Prop extends Owned sb d where
  whole : ∀ i bn, i < sb.ninodes → bn < blocks (d.dinode i).size → d.fileAddr i bn ≠ 0
  bounded : ∀ i, i < sb.ninodes → (d.dinode i).size ≤ MAXFILE * BSIZE

/-- The block `b` is free. -/
def Fresh (sb : Superblock) (d : Disk) (b : Nat) : Prop :=
  sb.nmeta ≤ b ∧ b < sb.size ∧ d.bitmap b = false

namespace Disk

/-- The disk with another bit `b` of the free map. -/
def mark (d : Disk) (b : Nat) (v : Bool) : Disk :=
  { d with bitmap := update d.bitmap b v }

/-- The disk with the block `b` marked and zeroed. -/
def grab (d : Disk) (b : Nat) : Disk := (d.mark b true).setBlock b Buffer.zero

/-- The disk with a fresh block `b` at the place `k` of inode `i`. -/
def take (d : Disk) (i k b : Nat) : Disk := (d.grab b).assign i k b

/-- The byte `p` of the file with inode `i`. -/
def byte (d : Disk) (i p : Nat) : UInt8 := d.block (d.fileAddr i (p / BSIZE)) (p % BSIZE)

/-- The bytes of the file with inode `i`. -/
def contents (d : Disk) (i : Nat) : List UInt8 :=
  (List.range (d.dinode i).size).map (d.byte i)

end Disk

variable {sb : Superblock} {d d' : Disk} {i j k l b bn p : Nat} {n : Dinode} {x : Buffer}

theorem lt_MAXFILE {size : Nat} (hsize : size ≤ MAXFILE * BSIZE) (hbn : bn < blocks size) :
    bn < MAXFILE := by
  simp only [blocks, BSIZE, MAXFILE, NDIRECT, NINDIRECT] at hbn hsize ⊢
  omega

theorem div_lt_blocks {size : Nat} (hp : p < size) : p / BSIZE < blocks size := by
  simp only [blocks, BSIZE]
  omega

/-! ## Owned blocks -/

theorem Owned.range (h : Owned sb d) (hb : d.Holds sb (i, k) b) :
    sb.nmeta ≤ b ∧ b < sb.size ∧ d.bitmap b = true :=
  h.exact.inUse hb

/-- A fresh block is nowhere. -/
theorem Owned.fresh_not_held (h : Owned sb d) (hb : Fresh sb d b) (p : Nat × Nat) :
    ¬ d.Holds sb p b := by
  intro hheld
  have hused := (h.exact.inUse hheld).2.2
  rw [hb.2.2] at hused
  cases hused

theorem Fresh.ne_zero (hb : Fresh sb d b) : b ≠ 0 :=
  (sb.nmeta_pos.trans_le hb.1).ne'

theorem Fresh.lt (hb : Fresh sb d b) : b < 2 ^ 32 := hb.2.1.trans sb.size_lt

/-- A free inode has no blocks. -/
theorem Owned.addr_of_free (h : Owned sb d) (hi : i < sb.ninodes)
    (hfree : (d.dinode i).type = .free) (hk : k < NPLACE) : d.addr i k = 0 := by
  refine Decidable.not_not.mp (fun hne => ?_)
  exact h.alive (show d.Holds sb (i, k) _ from ⟨hi, hk, rfl, hne⟩) hfree

/-- The blocks of two files are different ones. -/
theorem Owned.fileAddr_inj (h : Owned sb d) {bm : Nat} (hi : i < sb.ninodes) (hj : j < sb.ninodes)
    (hbn : bn < MAXFILE) (hbm : bm < MAXFILE) (hne : d.fileAddr i bn ≠ 0)
    (heq : d.fileAddr j bm = d.fileAddr i bn) : j = i ∧ bm = bn := by
  have hown : d.Holds sb (j, place bm) (d.fileAddr i bn) := ⟨hj, place_lt hbm, heq, hne⟩
  have hown' : d.Holds sb (i, place bn) (d.fileAddr i bn) := ⟨hi, place_lt hbn, rfl, hne⟩
  obtain ⟨hij, hplace⟩ := Prod.mk.inj (h.exact.once hown hown')
  exact ⟨hij, place_inj hplace⟩

/-- A disk with the same addresses, marks and types. -/
theorem Owned.congr (h : Owned sb d)
    (haddr : ∀ j l, j < sb.ninodes → l < NPLACE → d'.addr j l = d.addr j l)
    (hbitmap : d'.bitmap = d.bitmap)
    (htype : ∀ j l b, d.Holds sb (j, l) b → (d'.dinode j).type ≠ .free) : Owned sb d' where
  exact := by
    rw [hbitmap]
    exact h.exact.congr (holds_congr haddr) (fun _ => Iff.rfl)
  reserved := by
    rw [hbitmap]
    exact h.reserved
  alive := by
    intro j l b hb
    exact htype j l b ((holds_congr haddr (j, l) b).mp hb)

/-! ## Taking a block -/

@[simp] theorem dinode_grab : (d.grab b).dinode = d.dinode := rfl

theorem block_grab_of_ne {c : Nat} (h : c ≠ b) : (d.grab b).block c = d.block c :=
  block_setBlock_of_ne h

@[simp] theorem block_grab_self : (d.grab b).block b = Buffer.zero := block_setBlock_self

/-- Zeroing a fresh block changes no address. -/
theorem Owned.addr_grab (h : Owned sb d) (hb : Fresh sb d b) (hj : j < sb.ninodes) :
    (d.grab b).addr j l = d.addr j l := by
  have hnot : ¬ (sb.nmeta ≤ b ∧ b < sb.size ∧ d.bitmap b = true) := by
    rintro ⟨_, _, hmark⟩
    rw [hb.2.2] at hmark
    cases hmark
  exact addr_setBlock (d := d.mark b true)
    (not_indirect_of_fresh h.exact hnot hb.ne_zero hj)

theorem Owned.grab_exact (h : Owned sb d) (hb : Fresh sb d b) :
    Exact ((d.grab b).Holds sb) (fun c => sb.nmeta ≤ c ∧ c < sb.size ∧ d.bitmap c = true) := by
  refine h.exact.congr (holds_congr ?_) (fun _ => Iff.rfl)
  intro j l hj _
  exact h.addr_grab hb hj

/-- The other inodes, and the other fields, stay. -/
theorem dinode_take (j : Nat) :
    (d.take i k b).dinode j = if j = i ∧ k ≤ NDIRECT then (d.dinode i).setAddr k b
      else d.dinode j := by
  unfold take assign
  by_cases hk : k ≤ NDIRECT
  · rw [if_pos hk]
    by_cases hj : j = i
    · rw [hj, dinode_put_self, if_pos ⟨rfl, hk⟩]
      rfl
    · rw [dinode_put_of_ne hj, if_neg (fun hc => hj hc.1)]
      rfl
  · rw [if_neg hk, if_neg (fun hc => hk hc.2)]
    rfl

theorem bitmap_take : (d.take i k b).bitmap = update d.bitmap b true := by
  unfold take assign
  split <;> rfl

/-- A data block of any file keeps its bytes. -/
theorem Owned.block_take (h : Owned sb d) (hi : i < sb.ninodes) (hb : Fresh sb d b)
    (hj : j < sb.ninodes) (hl : l < NPLACE) (hdata : l ≠ NDIRECT)
    (hne : d.addr j l ≠ 0) : (d.take i k b).block (d.addr j l) = d.block (d.addr j l) := by
  have hheld : d.Holds sb (j, l) (d.addr j l) := ⟨hj, hl, rfl, hne⟩
  have hnb : d.addr j l ≠ b := by
    intro heq
    rw [heq] at hheld
    exact h.fresh_not_held hb _ hheld
  unfold take assign
  split
  · rw [block_put]
    exact block_grab_of_ne hnb
  · have hni : d.addr j l ≠ (d.dinode i).addrs NDIRECT :=
      (not_indirect h.exact hheld hdata hi).symm
    exact (block_setBlock_of_ne hni).trans (block_grab_of_ne hnb)

section Take

variable (h : Owned sb d) (hi : i < sb.ninodes) (hb : Fresh sb d b) (hfree : d.addr i k = 0)
  (hind : NDIRECT < k → d.addr i NDIRECT ≠ 0)
include h hi hb hfree hind

theorem Owned.addr_take (hj : j < sb.ninodes) :
    (d.take i k b).addr j l = if j = i ∧ l = k then b else d.addr j l := by
  have hfree' : (d.grab b).addr i k = 0 := (h.addr_grab hb hi).trans hfree
  have hind' : NDIRECT < k → ((d.grab b).dinode i).addrs NDIRECT ≠ 0 := by
    intro hk
    rw [dinode_grab, ← addr_direct le_rfl]
    exact hind hk
  have hassign := addr_assign_fresh (l := l) (h.grab_exact hb) hi hj hb.lt hfree'
    hind' (fun _ => block_grab_self)
  rw [take, hassign, h.addr_grab hb hj]

theorem Owned.take (hk : k < NPLACE) (htype : (d.dinode i).type ≠ .free) :
    Owned sb (d.take i k b) := by
  have hbitmap := (bitmap_take (d := d) (i := i) (k := k) (b := b))
  have haddr : ∀ j l, j < sb.ninodes →
      (d.take i k b).addr j l = if j = i ∧ l = k then b else d.addr j l :=
    fun j l hj => h.addr_take hi hb hfree hind hj
  have hkeep : ∀ j, ((d.take i k b).dinode j).type = (d.dinode j).type := by
    intro j
    rw [dinode_take]
    split
    · rename_i hc
      rw [hc.1]
      rfl
    · rfl
  refine ⟨?_, ?_, ?_⟩
  · rw [hbitmap]
    refine exact_assign (h.grab_exact hb) hi hk hb.lt hb.ne_zero ?_ ?_ ?_ ?_ ?_
    · rintro ⟨_, _, hmark⟩
      rw [hb.2.2] at hmark
      cases hmark
    · exact (h.addr_grab hb hi).trans hfree
    · intro hlt
      rw [dinode_grab, ← addr_direct le_rfl]
      exact hind hlt
    · exact fun _ => block_grab_self
    · intro c
      by_cases hc : c = b
      · simp only [hc, update_self, or_true, iff_true]
        exact ⟨hb.1, hb.2.1, trivial⟩
      · simp only [update_of_ne hc, hc, or_false]
  · intro c hc
    rw [hbitmap, update_of_ne (hc.trans_le hb.1).ne]
    exact h.reserved c hc
  · rintro j l c ⟨hj, hl, hheld, hne⟩
    rw [hkeep]
    rw [haddr j l hj] at hheld
    split at hheld
    · rename_i hc
      rw [hc.1]
      exact htype
    · exact h.alive (show d.Holds sb (j, l) c from ⟨hj, hl, hheld, hne⟩)

end Take

/-! ## Counting blocks -/

/-- The number of free blocks. -/
def free (sb : Superblock) (d : Disk) : Nat :=
  ((Finset.range sb.size).filter (fun b => d.bitmap b = false)).card

/-- The number of places among `P` at which inode `i` has no block. -/
def missing (d : Disk) (i : Nat) (P : Finset Nat) : Nat := (P.filter (fun k => d.addr i k = 0)).card

theorem free_take (hb : Fresh sb d b) : free sb (d.take i k b) + 1 = free sb d := by
  have hmem : b ∈ (Finset.range sb.size).filter (fun c => d.bitmap c = false) :=
    Finset.mem_filter.mpr ⟨Finset.mem_range.mpr hb.2.1, hb.2.2⟩
  rw [free, free, ← Finset.card_erase_add_one hmem, bitmap_take]
  congr 2
  ext c
  rw [Finset.mem_filter, Finset.mem_erase, Finset.mem_filter]
  by_cases hc : c = b
  · rw [hc, update_self]
    simp
  · rw [update_of_ne hc]
    simp [hc]

theorem Owned.missing_take (h : Owned sb d) (hi : i < sb.ninodes) (hb : Fresh sb d b)
    (hfree : d.addr i k = 0) (hind : NDIRECT < k → d.addr i NDIRECT ≠ 0) {P : Finset Nat}
    (hk : k ∈ P) : missing (d.take i k b) i P + 1 = missing d i P := by
  have hmem : k ∈ P.filter (fun l => d.addr i l = 0) := Finset.mem_filter.mpr ⟨hk, hfree⟩
  rw [missing, missing, ← Finset.card_erase_add_one hmem]
  congr 2
  ext l
  rw [Finset.mem_filter, Finset.mem_erase, Finset.mem_filter,
    h.addr_take hi hb hfree hind hi]
  by_cases hl : l = k
  · rw [hl, if_pos ⟨rfl, rfl⟩]
    simp [hb.ne_zero]
  · rw [if_neg (fun hc => hl hc.2)]
    simp [hl]

/-! ## Growing files -/

/-- Inode `i` has taken blocks, any number of them. -/
structure Extends (sb : Superblock) (i : Nat) (d d' : Disk) : Prop where
  other : ∀ j, j ≠ i → d'.dinode j = d.dinode j
  node : ∃ a, d'.dinode i = { d.dinode i with addrs := a }
  kept : ∀ j k, j < sb.ninodes → k < NPLACE → d.addr j k ≠ 0 → d'.addr j k = d.addr j k
  same : ∀ j k, j < sb.ninodes → j ≠ i → d'.addr j k = d.addr j k
  data : ∀ j k, j < sb.ninodes → k < NPLACE → k ≠ NDIRECT → d.addr j k ≠ 0 →
    d'.block (d.addr j k) = d.block (d.addr j k)

theorem Extends.refl (sb : Superblock) (i : Nat) (d : Disk) : Extends sb i d d :=
  ⟨fun _ _ => rfl, ⟨_, rfl⟩, fun _ _ _ _ _ => rfl, fun _ _ _ _ => rfl, fun _ _ _ _ _ _ => rfl⟩

theorem Extends.trans {d'' : Disk} (h : Extends sb i d d') (h' : Extends sb i d' d'') :
    Extends sb i d d'' where
  other j hj := (h'.other j hj).trans (h.other j hj)
  node := by
    obtain ⟨a, ha⟩ := h.node
    obtain ⟨a', ha'⟩ := h'.node
    exact ⟨a', by rw [ha', ha]⟩
  kept j k hj hk hne := by
    have hkept := h.kept j k hj hk hne
    rw [h'.kept j k hj hk (by rwa [hkept]), hkept]
  same j k hj hji := (h'.same j k hj hji).trans (h.same j k hj hji)
  data j k hj hk hd hne := by
    have hkept := h.kept j k hj hk hne
    have hdata := h'.data j k hj hk hd (by rwa [hkept])
    rw [hkept] at hdata
    rw [hdata, h.data j k hj hk hd hne]

theorem Owned.extends_take (h : Owned sb d) (hi : i < sb.ninodes) (hb : Fresh sb d b)
    (hfree : d.addr i k = 0) (hind : NDIRECT < k → d.addr i NDIRECT ≠ 0) :
    Extends sb i d (d.take i k b) where
  other j hj := by
    rw [dinode_take, if_neg (fun hc => hj hc.1)]
  node := by
    refine ⟨((d.take i k b).dinode i).addrs, ?_⟩
    rw [dinode_take]
    split <;> rfl
  kept j l hj hl hne := by
    rw [h.addr_take hi hb hfree hind hj, if_neg ?_]
    rintro ⟨rfl, rfl⟩
    exact hne hfree
  same j l hj hji := by
    rw [h.addr_take hi hb hfree hind hj, if_neg (fun hc => hji hc.1)]
  data j l hj hl hd hne := h.block_take hi hb hj hl hd hne

section Extends

variable (h : Extends sb i d d')
include h

theorem Extends.type : (d'.dinode i).type = (d.dinode i).type := by
  obtain ⟨a, ha⟩ := h.node
  rw [ha]

theorem Extends.size (j : Nat) : (d'.dinode j).size = (d.dinode j).size := by
  by_cases hj : j = i
  · obtain ⟨a, ha⟩ := h.node
    rw [hj, ha]
  · rw [h.other j hj]

theorem Extends.fileAddr (hj : j < sb.ninodes) (hbn : bn < MAXFILE) (hne : d.fileAddr j bn ≠ 0) :
    d'.fileAddr j bn = d.fileAddr j bn :=
  h.kept j _ hj (place_lt hbn) hne

/-- The bytes of the files stay. -/
theorem Extends.byte (hj : j < sb.ninodes) (hbn : p / BSIZE < MAXFILE)
    (hne : d.fileAddr j (p / BSIZE) ≠ 0) : d'.byte j p = d.byte j p := by
  rw [Disk.byte, Disk.byte, h.fileAddr hj hbn hne]
  exact congrFun (h.data j _ hj (place_lt hbn) place_ne hne) _

end Extends

/-! ## Storing into a data block -/

section Store

variable (h : Owned sb d) (hi : i < sb.ninodes) (hbn : bn < MAXFILE) (hne : d.fileAddr i bn ≠ 0)
include h hi hbn hne

theorem Owned.addr_store (hj : j < sb.ninodes) :
    (d.setBlock (d.fileAddr i bn) x).addr j l = d.addr j l := by
  have hheld : d.Holds sb (i, place bn) (d.fileAddr i bn) := ⟨hi, place_lt hbn, rfl, hne⟩
  exact addr_setBlock (not_indirect h.exact hheld place_ne hj)

theorem Owned.store : Owned sb (d.setBlock (d.fileAddr i bn) x) :=
  h.congr (fun _ _ hj _ => h.addr_store hi hbn hne hj) rfl (fun _ _ _ hb => h.alive hb)

/-- Only the bytes of that block of that file change. -/
theorem Owned.byte_store (hj : j < sb.ninodes) (hp : p / BSIZE < MAXFILE) :
    (d.setBlock (d.fileAddr i bn) x).byte j p =
      if j = i ∧ p / BSIZE = bn then x (p % BSIZE) else d.byte j p := by
  have haddr : (d.setBlock (d.fileAddr i bn) x).fileAddr j (p / BSIZE) = d.fileAddr j (p / BSIZE) :=
    h.addr_store hi hbn hne hj
  rw [Disk.byte, haddr]
  split
  · rename_i hc
    rw [hc.1, hc.2, block_setBlock_self]
  · rename_i hc
    have hother : d.fileAddr j (p / BSIZE) ≠ d.fileAddr i bn := by
      intro heq
      exact hc (h.fileAddr_inj hi hj hbn hp hne heq)
    rw [block_setBlock_of_ne hother]
    rfl

end Store

/-! ## Other fields of an inode -/

/-- An inode with the same blocks. -/
theorem Owned.renode (h : Owned sb d) (haddrs : n.addrs = (d.dinode i).addrs)
    (htype : n.type ≠ .free ∨ (d.dinode i).type = .free) : Owned sb (d.put i n) := by
  refine h.congr (fun j l _ _ => addr_put_addrs haddrs) rfl ?_
  intro j l b hb
  have halive := h.alive hb
  by_cases hj : j = i
  · rw [hj, dinode_put_self]
    rw [hj] at halive
    exact htype.resolve_right halive
  · rwa [dinode_put_of_ne hj]

theorem byte_put_addrs (haddrs : n.addrs = (d.dinode i).addrs) :
    (d.put i n).byte j p = d.byte j p := by
  rw [Disk.byte, fileAddr, addr_put_addrs haddrs, block_put]
  rfl

/-! ## Giving the blocks back -/

/-- An inode has given all its blocks back. -/
theorem Owned.release (h : Owned sb d) (hi : i < sb.ninodes)
    (hgone : ∀ l, l < NPLACE → d'.addr i l = 0)
    (hsame : ∀ j l, j < sb.ninodes → j ≠ i → d'.addr j l = d.addr j l)
    (hbitmap : ∀ b, d'.bitmap b = true ↔ d.bitmap b = true ∧ ∀ l, ¬ d.Holds sb (i, l) b)
    (hother : ∀ j, j ≠ i → (d'.dinode j).type = (d.dinode j).type) : Owned sb d' := by
  have hholds : ∀ q b, d'.Holds sb q b ↔ d.Holds sb q b ∧ ∀ l, ¬ d.Holds sb (i, l) b := by
    rintro ⟨j, l⟩ b
    by_cases hj : j = i
    · rw [hj]
      constructor
      · rintro ⟨_, hl, haddr, hne⟩
        rw [hgone l hl] at haddr
        exact absurd haddr.symm hne
      · rintro ⟨hheld, hnone⟩
        exact absurd hheld (hnone l)
    · constructor
      · rintro ⟨hjn, hl, haddr, hne⟩
        rw [hsame j l hjn hj] at haddr
        have hheld : d.Holds sb (j, l) b := ⟨hjn, hl, haddr, hne⟩
        refine ⟨hheld, fun m hm => hj ?_⟩
        exact (Prod.mk.inj (h.exact.once hheld hm)).1
      · rintro ⟨⟨hjn, hl, haddr, hne⟩, _⟩
        exact ⟨hjn, hl, (hsame j l hjn hj).trans haddr, hne⟩
  refine ⟨h.exact.restrict (fun b => ∀ l, ¬ d.Holds sb (i, l) b) hholds ?_, ?_, ?_⟩
  · intro b
    rw [hbitmap]
    tauto
  · intro b hb
    refine (hbitmap b).mpr ⟨h.reserved b hb, fun l hl => ?_⟩
    exact absurd (h.range hl).1 (Nat.not_le.mpr hb)
  · intro j l b hb
    obtain ⟨hheld, hnone⟩ := (hholds (j, l) b).mp hb
    have hj : j ≠ i := by
      rintro rfl
      exact hnone l hheld
    rw [hother j hj]
    exact h.alive hheld

end Xv6.FileSystem
