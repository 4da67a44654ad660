import Xv6.FileSystem.Files
import Xv6.Lib.Shares
import Xv6.Names.Model

/-!
# The inode table

`Inv` is the invariant between two actions of a call.  The file system is intact, an
inode that is in use has one slot, a copy that has been read is the inode on the disk,
and a directory consists of entries with numbers of inodes.

A part of the kernel owns references, which are shares in the slots.  `Moves` says what
becomes of the table when the shares of the running code go from `a` to `b`: a slot in
which somebody else has a share keeps its inode, stays read, and its inode stays
allocated with its type.  Hence such a slot can be used as before.

`iput` frees an inode without links when the last reference is dropped.  In a state that
is `Quiet` somebody else holds every such inode, and `Walk` then leaves the disk as it
was.
-/

namespace Xv6.Names

open Xv6.Lib Xv6.FileSystem Xv6.FileSystem.Disk Function

/-! ## The invariant -/

/-- The entries of a directory. -/
def entries (data : List UInt8) : List Entry :=
  (List.range (data.length / DIRENT)).map
    (fun j => Entry.ofBytes ((data.drop (j * DIRENT)).take DIRENT))

/-- The bytes of a directory are whole entries, with numbers of inodes. -/
structure DirShape (sb : Superblock) (data : List UInt8) : Prop where
  whole : DIRENT ∣ data.length
  range : ∀ e ∈ entries data, e.inum < sb.ninodes

/-- The invariant of the disk. -/
structure DiskInv (sb : Superblock) (d : Disk) : Prop where
  intact : Intact sb d
  root : ROOTINO < sb.ninodes
  dirs : ∀ i, i < sb.ninodes → (d.dinode i).type = .dir → DirShape sb (d.contents i)

/-- The invariant of the disk and the inode table. -/
structure Inv (sb : Superblock) (s : Fs) : Prop extends DiskInv sb s.disk where
  range : ∀ k, 0 < (s.inode k).ref → (s.inode k).inum < sb.ninodes
  unique : ∀ k l, 0 < (s.inode k).ref → 0 < (s.inode l).ref →
    (s.inode k).inum = (s.inode l).inum → k = l
  synced : ∀ k, 0 < (s.inode k).ref → (s.inode k).valid = true →
    (s.inode k).copy = s.disk.dinode (s.inode k).inum ∧
      (s.disk.dinode (s.inode k).inum).type ≠ .free

/-! ## Shares -/

/-- The references to the slots, and the inodes in them. -/
def Fs.cells (s : Fs) : Counted Slot Nat := ⟨fun k => (s.inode k).ref, fun k => (s.inode k).inum⟩

/-- The shares of the running code go from `a` to `b`. -/
structure Moves (s s' : Fs) (a b : Slot → Nat) : Prop extends
    Transfer s.cells s'.cells a b where
  valid : ∀ k, a k < (s.inode k).ref → (s.inode k).valid = true → (s'.inode k).valid = true
  type : ∀ k, a k < (s.inode k).ref → (s.disk.dinode (s.inode k).inum).type ≠ .free →
    (s'.disk.dinode (s.inode k).inum).type = (s.disk.dinode (s.inode k).inum).type
  mode : s'.trans = s.trans

/-- Somebody else holds every inode that has no links. -/
def Quiet (sb : Superblock) (s : Fs) (a : Slot → Nat) : Prop :=
  ∀ i, i < sb.ninodes → (s.disk.dinode i).type ≠ .free → (s.disk.dinode i).nlink = 0 →
    ∃ k, (s.inode k).inum = i ∧ a k < (s.inode k).ref

theorem Quiet.mono {sb : Superblock} {s : Fs} {a b : Slot → Nat} (h : Quiet sb s a)
    (hle : ∀ k, b k ≤ a k) : Quiet sb s b := by
  intro i hi htype hlink
  obtain ⟨k, hinum, hk⟩ := h i hi htype hlink
  exact ⟨k, hinum, (hle k).trans_lt hk⟩

/-- Shares are moved, and only an inode without links can be freed. -/
structure Walk (sb : Superblock) (s s' : Fs) (a b : Slot → Nat) : Prop extends
    Moves s s' a b where
  inv : Inv sb s'
  quiet : Quiet sb s a → s'.disk = s.disk

variable {sb : Superblock} {s s' s'' : Fs} {a b c : Slot → Nat} {k l : Slot} {i : Nat}

namespace Moves

theorem ref (h : Moves s s' a b) (k : Slot) :
    (s'.inode k).ref + a k = (s.inode k).ref + b k :=
  h.balance k

theorem inum (h : Moves s s' a b) (hk : a k < (s.inode k).ref) :
    (s'.inode k).inum = (s.inode k).inum :=
  h.frame k hk

theorem refl (s : Fs) (a : Slot → Nat) : Moves s s a a :=
  ⟨Transfer.refl _ a, fun _ _ h => h, fun _ _ _ => rfl, rfl⟩

/-- A share of somebody else is still one. -/
theorem held (h : Moves s s' a b) (hk : a k < (s.inode k).ref) : b k < (s'.inode k).ref := by
  have := h.ref k
  omega

theorem comp (h : Moves s s' a b) (h' : Moves s' s'' b c) : Moves s s'' a c := by
  refine ⟨h.toTransfer.trans h'.toTransfer, ?_, ?_, h'.mode.trans h.mode⟩
  · intro k hk hv
    exact h'.valid k (h.held hk) (h.valid k hk hv)
  · intro k hk hfree
    have hkept := h.type k hk hfree
    have htype := h'.type k (h.held hk)
    rw [h.inum hk, hkept] at htype
    exact htype hfree

/-- The frame rule. -/
theorem add (h : Moves s s' a b) (u : Slot → Nat) : Moves s s' (a + u) (b + u) := by
  have hless : ∀ k, (a + u) k < (s.inode k).ref → a k < (s.inode k).ref := by
    intro k hk
    simp only [Pi.add_apply] at hk
    omega
  exact ⟨h.toTransfer.add u, fun k hk => h.valid k (hless k hk),
    fun k hk => h.type k (hless k hk), h.mode⟩

theorem congr {a' b' : Slot → Nat} (h : Moves s s' a b) (ha : ∀ k, a' k = a k)
    (hb : ∀ k, b' k = b k) : Moves s s' a' b' := by
  obtain rfl : a' = a := funext ha
  obtain rfl : b' = b := funext hb
  exact h

/-- Others still hold the inodes without links. -/
theorem quiet (h : Moves s s' a b) (hdisk : s'.disk = s.disk) (hq : Quiet sb s a) :
    Quiet sb s' b := by
  intro i hi htype hlink
  rw [hdisk] at htype hlink
  obtain ⟨k, hinum, hk⟩ := hq i hi htype hlink
  exact ⟨k, (h.inum hk).trans hinum, h.held hk⟩

end Moves

namespace Walk

theorem refl (h : Inv sb s) (a : Slot → Nat) : Walk sb s s a a :=
  ⟨Moves.refl s a, h, fun _ => rfl⟩

theorem comp (h : Walk sb s s' a b) (h' : Walk sb s' s'' b c) : Walk sb s s'' a c := by
  refine ⟨h.toMoves.comp h'.toMoves, h'.inv, ?_⟩
  intro hq
  have hdisk := h.quiet hq
  rw [h'.quiet (h.toMoves.quiet hdisk hq), hdisk]

/-- The frame rule. -/
theorem add (h : Walk sb s s' a b) (u : Slot → Nat) : Walk sb s s' (a + u) (b + u) := by
  refine ⟨h.toMoves.add u, h.inv, ?_⟩
  intro hq
  exact h.quiet (hq.mono (fun k => Nat.le_add_right _ _))

theorem congr {a' b' : Slot → Nat} (h : Walk sb s s' a b) (ha : ∀ k, a' k = a k)
    (hb : ∀ k, b' k = b k) : Walk sb s s' a' b' := by
  obtain rfl : a' = a := funext ha
  obtain rfl : b' = b := funext hb
  exact h

end Walk

/-! ## One slot changes -/

@[simp] theorem inode_setInode_self (s : Fs) (k : Slot) (ip : Inode) :
    (s.setInode k ip).inode k = ip :=
  update_self _ _ _

variable {ip : Inode} {E : Panic → Prop}

theorem inode_setInode_of_ne (h : l ≠ k) : (s.setInode k ip).inode l = s.inode l :=
  update_of_ne h _ _

/-- The invariant after a change of one slot. -/
theorem Inv.setInode (h : Inv sb s) (hrange : 0 < ip.ref → ip.inum < sb.ninodes)
    (hunique : 0 < ip.ref → ∀ l, l ≠ k → 0 < (s.inode l).ref → (s.inode l).inum ≠ ip.inum)
    (hsynced : 0 < ip.ref → ip.valid = true →
      ip.copy = s.disk.dinode ip.inum ∧ (s.disk.dinode ip.inum).type ≠ .free) :
    Inv sb (s.setInode k ip) := by
  refine ⟨h.toDiskInv, ?_, ?_, ?_⟩
  · intro l
    by_cases hl : l = k
    · rw [hl, inode_setInode_self]
      exact hrange
    · rw [inode_setInode_of_ne hl]
      exact h.range l
  · intro l m hl hm heq
    by_cases hlk : l = k
    · by_cases hmk : m = k
      · rw [hlk, hmk]
      · rw [hlk, inode_setInode_self] at hl heq
        rw [inode_setInode_of_ne hmk] at hm heq
        exact absurd heq.symm (hunique hl m hmk hm)
    · rw [inode_setInode_of_ne hlk] at hl heq
      by_cases hmk : m = k
      · rw [hmk, inode_setInode_self] at hm heq
        exact absurd heq (hunique hm l hlk hl)
      · rw [inode_setInode_of_ne hmk] at hm heq
        exact h.unique l m hl hm heq
  · intro l
    by_cases hl : l = k
    · rw [hl, inode_setInode_self]
      exact hsynced
    · rw [inode_setInode_of_ne hl]
      exact h.synced l

/-- The shares after a change of one slot. -/
theorem Moves.setInode (hbalance : ip.ref + a k = (s.inode k).ref + b k)
    (hother : ∀ l, l ≠ k → a l = b l) (hframe : a k < (s.inode k).ref → ip.inum = (s.inode k).inum ∧
      ((s.inode k).valid = true → ip.valid = true)) : Moves s (s.setInode k ip) a b := by
  refine ⟨⟨?_, ?_⟩, ?_, fun _ _ _ => rfl, rfl⟩
  · intro l
    show ((s.setInode k ip).inode l).ref + a l = (s.inode l).ref + b l
    by_cases hl : l = k
    · rw [hl, inode_setInode_self]
      exact hbalance
    · rw [inode_setInode_of_ne hl, hother l hl]
  · intro l hlt
    show ((s.setInode k ip).inode l).inum = (s.inode l).inum
    by_cases hl : l = k
    · rw [hl, inode_setInode_self]
      rw [hl] at hlt
      exact (hframe hlt).1
    · rw [inode_setInode_of_ne hl]
  · intro l hlt hv
    by_cases hl : l = k
    · rw [hl, inode_setInode_self]
      rw [hl] at hlt hv
      exact (hframe hlt).2 hv
    · rw [inode_setInode_of_ne hl]
      exact hv

/-- Such a change is a walk. -/
theorem Walk.setInode (hinv : Inv sb (s.setInode k ip)) (hmoves : Moves s (s.setInode k ip) a b) :
    Walk sb s (s.setInode k ip) a b :=
  ⟨hmoves, hinv, fun _ => rfl⟩

/-! ## `iget`, `idup` and `ilock` -/

/-- The panics of a walk along a path: the table is full, or an entry names an inode
that is free. -/
def Stuck (e : Panic) : Prop := e = .igetNoInodes ∨ e = .ilockNoType

/-- One more reference to an inode in use. -/
theorem Inv.more (h : Inv sb s) (hk : 0 < (s.inode k).ref) :
    Walk sb s (s.setInode k { s.inode k with ref := (s.inode k).ref + 1 }) 0 (one k) := by
  refine Walk.setInode (h.setInode ?_ ?_ ?_) (Moves.setInode ?_ ?_ ?_)
  · exact fun _ => h.range k hk
  · intro _ l hl hpos heq
    exact hl (h.unique l k hpos hk heq)
  · exact fun _ hv => h.synced k hk hv
  · simp
  · intro l hl
    rw [one_of_ne hl]
    rfl
  · exact fun _ => ⟨rfl, fun hv => hv⟩

/-- The inode is in the table. -/
def InTable (s : Fs) (i : Nat) : Prop := ∃ k, 0 < (s.inode k).ref ∧ (s.inode k).inum = i

instance (s : Fs) (i : Nat) : Decidable (InTable s i) :=
  inferInstanceAs (Decidable (∃ k, 0 < (s.inode k).ref ∧ (s.inode k).inum = i))

/-- `iget` finds a slot for the inode. -/
def Fits (s : Fs) (i : Nat) : Prop := InTable s i ∨ ∃ k, (s.inode k).ref = 0

/-- `iget` panics if and only if the table is full of other inodes. -/
theorem iget_exact (h : Inv sb s) (hi : i < sb.ninodes) :
    Runs (fun e => e = .igetNoInodes ∧ ¬ Fits s i) (iget i) s (fun k s' => Fits s i ∧
      Walk sb s s' 0 (one k) ∧ (s'.inode k).inum = i ∧ s'.disk = s.disk) := by
  unfold iget
  refine .bind (.get ?_)
  split
  · rename_i k hfind
    have hk : 0 < (s.inode k).ref ∧ (s.inode k).inum = i := by simpa using List.find?_some hfind
    refine .bind (.set (.pure ⟨Or.inl ⟨k, hk⟩, h.more hk.1, ?_, rfl⟩))
    rw [inode_setInode_self]
    exact hk.2
  · rename_i hnone
    have habsent : ∀ l, 0 < (s.inode l).ref → (s.inode l).inum ≠ i := by
      intro l hl
      have := List.find?_eq_none.mp hnone l (List.mem_finRange l)
      simp only [decide_eq_true_eq, not_and] at this
      exact this hl
    split
    · rename_i hfull
      refine .throw ⟨rfl, ?_⟩
      rintro (⟨k, hk, hinum⟩ | ⟨k, hk⟩)
      · exact habsent k hk hinum
      · have := List.find?_eq_none.mp hfull k (List.mem_finRange k)
        simp only [decide_eq_true_eq] at this
        exact this hk
    · rename_i k hfind
      have hk : (s.inode k).ref = 0 := by simpa using List.find?_some hfind
      refine .bind (.set (.pure ⟨Or.inr ⟨k, hk⟩,
        Walk.setInode (h.setInode ?_ ?_ ?_) (Moves.setInode ?_ ?_ ?_), ?_, rfl⟩))
      · exact fun _ => hi
      · exact fun _ l _ hl => habsent l hl
      · intro _ hv
        cases hv
      · simp [hk]
      · intro l hl
        rw [one_of_ne hl]
        rfl
      · intro hlt
        rw [hk] at hlt
        exact absurd hlt (Nat.not_lt_zero _)
      · rw [inode_setInode_self]

theorem iget_runs (h : Inv sb s) (hi : i < sb.ninodes) :
    Runs Stuck (iget i) s (fun k s' => Walk sb s s' 0 (one k) ∧ (s'.inode k).inum = i ∧
      s'.disk = s.disk) :=
  (iget_exact h hi).mono (fun _ _ hpost => hpost.2) (fun _ he => Or.inl he.1)

theorem idup_runs (h : Inv sb s) (hk : 0 < (s.inode k).ref) :
    Runs E (idup k) s (fun r s' => r = k ∧ Walk sb s s' 0 (one k) ∧
      (s'.inode k).inum = (s.inode k).inum ∧ s'.disk = s.disk) := by
  unfold idup
  refine .bind (.modify (.pure ⟨rfl, h.more hk, ?_, rfl⟩))
  rw [inode_setInode_self]

/-- `ilock` panics only on a free inode. -/
theorem ilock_exact (h : Inv sb s) (hk : 0 < (s.inode k).ref) :
    Runs (fun e => e = .ilockNoType ∧ (s.disk.dinode (s.inode k).inum).type = .free) (ilock k) s
      (fun _ s' => Walk sb s s' 0 0 ∧ (s'.inode k).valid = true ∧
        (s'.inode k).inum = (s.inode k).inum ∧ s'.disk = s.disk) := by
  unfold ilock
  refine .bind (.get ?_)
  rw [if_neg (by omega)]
  split
  · rename_i hv
    exact .pure ⟨Walk.refl h 0, hv, rfl, rfl⟩
  · refine .bind (.set ?_)
    split
    · rename_i htype
      exact .throw ⟨rfl, htype⟩
    · rename_i htype
      refine .pure ⟨Walk.setInode (h.setInode ?_ ?_ ?_) (Moves.setInode rfl (fun _ _ => rfl) ?_), ?_,
        ?_, rfl⟩
      · exact fun _ => h.range k hk
      · intro _ l hl hpos heq
        exact hl (h.unique l k hpos hk heq)
      · exact fun _ _ => ⟨rfl, htype⟩
      · exact fun _ => ⟨rfl, fun _ => rfl⟩
      · rw [inode_setInode_self]
      · rw [inode_setInode_self]

theorem ilock_runs (h : Inv sb s) (hk : 0 < (s.inode k).ref) :
    Runs Stuck (ilock k) s (fun _ s' => Walk sb s s' 0 0 ∧ (s'.inode k).valid = true ∧
      (s'.inode k).inum = (s.inode k).inum ∧ s'.disk = s.disk) :=
  (ilock_exact h hk).errors (fun _ he => Or.inr he.1)

/-! ## One inode changes on the disk -/

/-- Only inode `i` has changed. -/
structure Stores (sb : Superblock) (i : Nat) (d d' : Disk) : Prop where
  intact : Intact sb d'
  other : ∀ j, j ≠ i → d'.dinode j = d.dinode j
  contents : ∀ j, j < sb.ninodes → j ≠ i → d'.contents j = d.contents j

section Stores

variable {d d' d'' : Disk} {n : Dinode}

theorem Stores.trans (h : Stores sb i d d') (h' : Stores sb i d' d'') : Stores sb i d d'' where
  intact := h'.intact
  other j hj := (h'.other j hj).trans (h.other j hj)
  contents j hj hji := (h'.contents j hj hji).trans (h.contents j hj hji)

theorem Stores.diskInv (h : Stores sb i d d') (hd : DiskInv sb d)
    (hdir : (d'.dinode i).type = .dir → DirShape sb (d'.contents i)) : DiskInv sb d' := by
  refine ⟨h.intact, hd.root, ?_⟩
  intro j hj htype
  by_cases hji : j = i
  · rw [hji] at htype ⊢
    exact hdir htype
  · rw [h.other j hji] at htype
    rw [h.contents j hj hji]
    exact hd.dirs j hj htype

theorem contents_congr {j : Nat} (hsize : (d'.dinode j).size = (d.dinode j).size)
    (hbyte : ∀ p, d'.byte j p = d.byte j p) : d'.contents j = d.contents j := by
  refine contents_eq (by rw [hsize, length_contents]) ?_
  intro p hp
  rw [length_contents] at hp
  rw [getElem?_contents hp, hbyte]

theorem contents_put (haddrs : n.addrs = (d.dinode i).addrs) (hsize : n.size = (d.dinode i).size)
    (j : Nat) : (d.put i n).contents j = d.contents j := by
  refine contents_congr ?_ (fun p => byte_put_addrs haddrs)
  by_cases hj : j = i
  · rw [hj, dinode_put_self, hsize]
  · rw [dinode_put_of_ne hj]

/-- Other fields of an inode that stays allocated. -/
theorem Stores.put (hd : Intact sb d) (haddrs : n.addrs = (d.dinode i).addrs)
    (hsize : n.size = (d.dinode i).size) (htype : n.type ≠ .free) :
    Stores sb i d (d.put i n) := by
  have hsizes : ∀ j, ((d.put i n).dinode j).size = (d.dinode j).size := by
    intro j
    by_cases hj : j = i
    · rw [hj, dinode_put_self, hsize]
    · rw [dinode_put_of_ne hj]
  refine ⟨⟨hd.toOwned.renode haddrs (Or.inl htype), ?_, ?_⟩, ?_, ?_⟩
  · intro j bn hj hbn
    rw [hsizes] at hbn
    rw [fileAddr, addr_put_addrs haddrs]
    exact hd.whole j bn hj hbn
  · intro j hj
    rw [hsizes]
    exact hd.bounded j hj
  · exact fun j hj => dinode_put_of_ne hj
  · exact fun j _ _ => contents_put haddrs hsize j

/-- An inode without blocks gets other fields. -/
theorem Stores.blank (hd : Intact sb d) (hold : ∀ l, l < NPLACE → d.addr i l = 0)
    (hnew : ∀ l, l ≤ NDIRECT → n.addrs l = 0) (hsize : n.size = 0) : Stores sb i d (d.put i n) := by
  have hself : ∀ l, (d.put i n).addr i l = 0 := by
    intro l
    by_cases hl : l ≤ NDIRECT
    · rw [addr_direct hl, dinode_put_self, hnew l hl]
    · rw [addr_indirect hl, dinode_put_self, Disk.indirect, hnew _ le_rfl, if_pos rfl]
  have hother : ∀ j l, j ≠ i → (d.put i n).addr j l = d.addr j l :=
    fun j l hj => addr_put_of_ne hj
  refine ⟨⟨hd.toOwned.congr ?_ rfl ?_, ?_, ?_⟩, fun j hj => dinode_put_of_ne hj, ?_⟩
  · intro j l hj hl
    by_cases hji : j = i
    · rw [hji, hself, hold l hl]
    · exact hother j l hji
  · intro j l b hb
    by_cases hji : j = i
    · obtain ⟨_, hl, haddr, hne⟩ := hb
      dsimp only at hl haddr
      rw [hji, hold l hl] at haddr
      exact absurd haddr.symm hne
    · rw [dinode_put_of_ne hji]
      exact hd.alive hb
  · intro j bn hj hbn
    by_cases hji : j = i
    · rw [hji, dinode_put_self, hsize] at hbn
      exact absurd hbn (Nat.not_lt_zero _)
    · rw [dinode_put_of_ne hji] at hbn
      rw [fileAddr, hother j _ hji]
      exact hd.whole j bn hj hbn
  · intro j hj
    by_cases hji : j = i
    · rw [hji, dinode_put_self, hsize]
      exact Nat.zero_le _
    · rw [dinode_put_of_ne hji]
      exact hd.bounded j hj
  · intro j _ hji
    refine contents_congr (by rw [dinode_put_of_ne hji]) ?_
    intro p
    rw [Disk.byte, fileAddr, hother j _ hji, block_put]
    rfl

end Stores

/-! ## Storing an inode -/

@[simp] theorem inode_setFile_self {t : File} :
    (s.setFile k t).inode k = { s.inode k with copy := t.ip } :=
  update_self _ _ _

theorem inode_setFile_of_ne {t : File} (h : l ≠ k) : (s.setFile k t).inode l = s.inode l :=
  update_of_ne h _ _

section SetFile

variable {t : File} (hst : Stores sb (s.inode k).inum s.disk t.disk)
  (hsync : t.disk.dinode (s.inode k).inum = t.ip)
include hst hsync

/-- The invariant after a change of an inode that is read. -/
theorem Inv.setFile (h : Inv sb s) (hk : 0 < (s.inode k).ref) (htype : t.ip.type ≠ .free)
    (hdir : t.ip.type = .dir → DirShape sb (t.disk.contents (s.inode k).inum)) :
    Inv sb (s.setFile k t) := by
  have hinum : ∀ l, ((s.setFile k t).inode l).inum = (s.inode l).inum ∧
      ((s.setFile k t).inode l).ref = (s.inode l).ref := by
    intro l
    by_cases hl : l = k
    · rw [hl, inode_setFile_self]
      exact ⟨rfl, rfl⟩
    · rw [inode_setFile_of_ne hl]
      exact ⟨rfl, rfl⟩
  refine ⟨hst.diskInv h.toDiskInv (by rw [hsync]; exact hdir), ?_, ?_, ?_⟩
  · intro l
    rw [(hinum l).1, (hinum l).2]
    exact h.range l
  · intro l m
    rw [(hinum l).1, (hinum l).2, (hinum m).1, (hinum m).2]
    exact h.unique l m
  · intro l hl hv
    rw [(hinum l).2] at hl
    by_cases hlk : l = k
    · rw [hlk, inode_setFile_self]
      exact ⟨hsync.symm, by show (t.disk.dinode _).type ≠ _; rw [hsync]; exact htype⟩
    · rw [inode_setFile_of_ne hlk] at hv ⊢
      have hne : (s.inode l).inum ≠ (s.inode k).inum := fun heq => hlk (h.unique l k hl hk heq)
      show _ = t.disk.dinode _ ∧ (t.disk.dinode _).type ≠ _
      rw [hst.other _ hne]
      exact h.synced l hl hv

/-- The shares stay as they are. -/
theorem Moves.setFile (htype : t.ip.type = (s.disk.dinode (s.inode k).inum).type)
    (a : Slot → Nat) : Moves s (s.setFile k t) a a := by
  have hsame : ∀ l, ((s.setFile k t).inode l).inum = (s.inode l).inum ∧
      ((s.setFile k t).inode l).ref = (s.inode l).ref ∧
      ((s.setFile k t).inode l).valid = (s.inode l).valid := by
    intro l
    by_cases hl : l = k
    · rw [hl, inode_setFile_self]
      exact ⟨rfl, rfl, rfl⟩
    · rw [inode_setFile_of_ne hl]
      exact ⟨rfl, rfl, rfl⟩
  refine ⟨⟨?_, ?_⟩, ?_, ?_, rfl⟩
  · intro l
    show ((s.setFile k t).inode l).ref + a l = _
    rw [(hsame l).2.1]
    rfl
  · intro l _
    exact (hsame l).1
  · intro l _ hv
    rw [(hsame l).2.2]
    exact hv
  · intro l _ _
    show (t.disk.dinode _).type = _
    by_cases hl : (s.inode l).inum = (s.inode k).inum
    · rw [hl, hsync, htype]
    · rw [hst.other _ hl]

end SetFile

/-- The view of an inode that is read is the disk. -/
theorem Inv.view (h : Inv sb s) (hk : 0 < (s.inode k).ref) (hv : (s.inode k).valid = true) :
    (s.file k).view = s.disk := by
  have hcopy := (h.synced k hk hv).1
  unfold File.view Fs.file Disk.put
  dsimp only
  rw [hcopy, update_eq_self]

/-- A slot that is in use and read. -/
structure Locked (s : Fs) (k : Slot) : Prop where
  used : 0 < (s.inode k).ref
  valid : (s.inode k).valid = true

theorem Moves.locked (h : Moves s s' a b) (hk : a k < (s.inode k).ref) (hlocked : Locked s k) :
    Locked s' k := by
  refine ⟨?_, h.valid k hk hlocked.valid⟩
  have := h.held hk
  omega

/-- The state after `updateInode`. -/
def Fs.update (s : Fs) (k : Slot) (f : Dinode → Dinode) : Fs :=
  s.setFile k ⟨(s.inode k).inum, f (s.inode k).copy,
    s.disk.put (s.inode k).inum (f (s.inode k).copy), s.trans⟩

theorem updateInode_eq (f : Dinode → Dinode) (htrans : s.trans = true) :
    Runs E (updateInode k f) s (fun _ s' => s' = s.update k f) := by
  unfold updateInode onInode
  refine .zoom (.bind (.modify ?_))
  exact .bind (logWrite_runs htrans (.modify rfl))

/-- A change of the fields that are not the type and the blocks. -/
structure Minor (f : Dinode → Dinode) : Prop where
  type : ∀ n, (f n).type = n.type
  size : ∀ n, (f n).size = n.size
  addrs : ∀ n, (f n).addrs = n.addrs

section Update

variable {f : Dinode → Dinode} (h : Inv sb s) (hk : Locked s k)
include h hk

theorem Inv.disk_update : (s.update k f).disk =
    s.disk.put (s.inode k).inum (f (s.disk.dinode (s.inode k).inum)) := by
  show s.disk.put _ _ = _
  rw [(h.synced k hk.used hk.valid).1]

theorem Inv.stores_update (hf : Minor f) :
    Stores sb (s.inode k).inum s.disk (s.update k f).disk := by
  have htype := (h.synced k hk.used hk.valid).2
  rw [h.disk_update hk]
  exact Stores.put h.intact (hf.addrs _) (hf.size _) (by rw [hf.type]; exact htype)

theorem Inv.contents_update (hf : Minor f) (j : Nat) :
    (s.update k f).disk.contents j = s.disk.contents j := by
  rw [h.disk_update hk]
  exact contents_put (hf.addrs _) (hf.size _) j

theorem Inv.update (hf : Minor f) : Inv sb (s.update k f) := by
  have hst := h.stores_update hk hf
  obtain ⟨hcopy, htype⟩ := h.synced k hk.used hk.valid
  refine Inv.setFile hst dinode_put_self h hk.used ?_ ?_
  · show (f (s.inode k).copy).type ≠ .free
    rw [hf.type, hcopy]
    exact htype
  · intro hdir
    have hdir' : (s.disk.dinode (s.inode k).inum).type = .dir := by
      rw [← hcopy, ← hf.type]
      exact hdir
    have := h.dirs _ (h.range k hk.used) hdir'
    rwa [← h.contents_update hk hf] at this

theorem Inv.moves_update (hf : Minor f) (a : Slot → Nat) : Moves s (s.update k f) a a := by
  refine Moves.setFile (h.stores_update hk hf) dinode_put_self ?_ a
  show (f (s.inode k).copy).type = _
  rw [hf.type, (h.synced k hk.used hk.valid).1]

end Update

/-! ## `iput` -/

/-- One reference less. -/
theorem Inv.less (h : Inv sb s) (hk : 0 < (s.inode k).ref) :
    Walk sb s (s.setInode k { s.inode k with ref := (s.inode k).ref - 1 }) (one k) 0 := by
  refine Walk.setInode (h.setInode ?_ ?_ ?_) (Moves.setInode ?_ ?_ ?_)
  · exact fun _ => h.range k hk
  · intro _ l hl hpos heq
    exact hl (h.unique l k hpos hk heq)
  · exact fun _ hv => h.synced k hk hv
  · rw [one_self]
    show (s.inode k).ref - 1 + 1 = (s.inode k).ref + 0
    omega
  · intro l hl
    rw [one_of_ne hl]
    rfl
  · exact fun _ => ⟨rfl, fun hv => hv⟩

/-- An inode is freed, and its slot with it. -/
theorem Inv.freed (h : Inv sb s) (hk : Locked s k) (hone : (s.inode k).ref = 1) {d' : Disk}
    (hst : Stores sb (s.inode k).inum s.disk d') (hfree : (d'.dinode (s.inode k).inum).type = .free)
    (hip : ip.ref = 0) : Inv sb { s.setInode k ip with disk := d' } ∧
      Moves s { s.setInode k ip with disk := d' } (one k) 0 := by
  have hother : ∀ l, l ≠ k → 0 < (s.inode l).ref → (s.inode l).inum ≠ (s.inode k).inum :=
    fun l hl hpos heq => hl (h.unique l k hpos hk.used heq)
  have hgone : ∀ l, 0 < ((s.setInode k ip).inode l).ref →
      l ≠ k ∧ (s.setInode k ip).inode l = s.inode l := by
    intro l hl
    have hlk : l ≠ k := by
      rintro rfl
      rw [inode_setInode_self, hip] at hl
      exact absurd hl (Nat.not_lt_zero _)
    exact ⟨hlk, inode_setInode_of_ne hlk⟩
  have hheld : ∀ l, one k l < (s.inode l).ref → l ≠ k := by
    rintro l hl rfl
    rw [one_self, hone] at hl
    exact absurd hl (Nat.lt_irrefl 1)
  refine ⟨⟨hst.diskInv h.toDiskInv ?_, ?_, ?_, ?_⟩, ⟨⟨?_, ?_⟩, ?_, ?_, rfl⟩⟩
  · rw [hfree]
    intro hdir
    cases hdir
  · intro l hl
    obtain ⟨_, heq⟩ := hgone l hl
    show ((s.setInode k ip).inode l).inum < _
    have hl' : 0 < ((s.setInode k ip).inode l).ref := hl
    rw [heq] at hl' ⊢
    exact h.range l hl'
  · intro l m hl hm
    show ((s.setInode k ip).inode l).inum = ((s.setInode k ip).inode m).inum → _
    have hl' : 0 < ((s.setInode k ip).inode l).ref := hl
    have hm' : 0 < ((s.setInode k ip).inode m).ref := hm
    rw [(hgone l hl).2] at hl' ⊢
    rw [(hgone m hm).2] at hm' ⊢
    exact h.unique l m hl' hm'
  · intro l hl
    obtain ⟨hlk, heq⟩ := hgone l hl
    have hl' : 0 < ((s.setInode k ip).inode l).ref := hl
    show ((s.setInode k ip).inode l).valid = true → ((s.setInode k ip).inode l).copy =
      d'.dinode ((s.setInode k ip).inode l).inum ∧ (d'.dinode _).type ≠ _
    rw [heq] at hl' ⊢
    rw [hst.other _ (hother l hlk hl')]
    exact h.synced l hl'
  · intro l
    show ((s.setInode k ip).inode l).ref + one k l = (s.inode l).ref + 0
    by_cases hl : l = k
    · rw [hl, inode_setInode_self, hip, one_self, hone]
    · rw [inode_setInode_of_ne hl, one_of_ne hl]
  · intro l hl
    show ((s.setInode k ip).inode l).inum = (s.inode l).inum
    rw [inode_setInode_of_ne (hheld l hl)]
  · intro l hl hv
    show ((s.setInode k ip).inode l).valid = true
    rw [inode_setInode_of_ne (hheld l hl)]
    exact hv
  · intro l hl _
    have hlk := hheld l hl
    show (d'.dinode _).type = _
    rw [hst.other _ (hother l hlk (by omega))]

/-- The condition under which `iput` frees the inode. -/
def Last (s : Fs) (k : Slot) : Prop :=
  (s.inode k).ref = 1 ∧ (s.inode k).valid = true ∧ (s.inode k).copy.nlink = 0

/-- A free inode with nothing in it. -/
structure Vacant (n : Dinode) : Prop where
  type : n.type = .free
  nlink : n.nlink = 0
  size : n.size = 0

/-- What `iput` does to the disk. -/
structure Put (sb : Superblock) (s : Fs) (k : Slot) (s' : Fs) : Prop where
  last : Last s k → Stores sb (s.inode k).inum s.disk s'.disk ∧
    Vacant (s'.disk.dinode (s.inode k).inum)
  kept : ¬ Last s k → s'.disk = s.disk

/-- `itrunc` changes one inode. -/
theorem Inv.truncated {t : File} (h : Inv sb s) (hk : Locked s k)
    (ht : Truncated sb (s.file k) t) :
    Stores sb (s.inode k).inum s.disk t.disk ∧ t.disk.dinode (s.inode k).inum = t.ip ∧
      t.disk.contents (s.inode k).inum = [] := by
  have hview := h.view hk.used hk.valid
  have hdisk : t.disk = t.view := ht.view
  refine ⟨⟨?_, ?_, ?_⟩, ?_, ?_⟩
  · rw [hdisk]
    exact ht.intact (by rw [hview]; exact h.intact) (h.range k hk.used)
  · intro j hj
    rw [hdisk, ht.dinode_view, if_neg (show j ≠ (s.file k).inum from hj), hview]
  · intro j _ hj
    rw [hdisk, ht.contents_other (show j ≠ (s.file k).inum from hj), hview]
  · rw [hdisk, ht.dinode_view]
    exact if_pos rfl
  · rw [hdisk]
    exact ht.contents_self

/-- The inode of a `Last` slot after `itrunc` and `iupdate`. -/
theorem Inv.vacate {t : File} (h : Inv sb s) (hk : Locked s k)
    (hlink : (s.inode k).copy.nlink = 0) (ht : Truncated sb (s.file k) t) :
    Stores sb (s.inode k).inum s.disk
        (t.disk.put (s.inode k).inum { t.ip with type := .free }) ∧
      Vacant { t.ip with type := .free } := by
  obtain ⟨hst, _, _⟩ := h.truncated hk ht
  obtain ⟨addrs, hip, hzero⟩ := ht.ip
  refine ⟨hst.trans (Stores.blank hst.intact ?_ ?_ ht.size), rfl, ?_, ht.size⟩
  · intro l _
    rw [ht.view]
    exact ht.addr_self
  · intro l hl
    rw [hip]
    exact hzero l hl
  · rw [hip]
    exact hlink

theorem iput_runs (h : Inv sb s) (hk : 0 < (s.inode k).ref) (htrans : s.trans = true) :
    Runs E (iput k) s (fun _ s' => Walk sb s s' (one k) 0 ∧ Put sb s k s') := by
  unfold iput
  refine .bind (.get ?_)
  split
  · -- the last reference to an inode without links
    rename_i hlast
    obtain ⟨hone, hv, hlink⟩ := hlast
    have hlocked : Locked s k := ⟨hk, hv⟩
    obtain ⟨hcopy, htype⟩ := h.synced k hk hv
    have hi := h.range k hk
    have hown : Owned sb (s.file k).view := by
      rw [h.view hk hv]
      exact h.intact.toOwned
    refine .bind (.zoom ((itrunc_runs hown hi htrans).total.post ?_))
    intro _ t ht
    have htrans' : (s.setFile k t).trans = true := htrans
    refine .call (updateInode_eq (fun ip => { ip with type := .free }) htrans') ?_
    rintro _ _ rfl
    refine .bind (.modify (.modify ?_))
    obtain ⟨hst, hvacant⟩ := h.vacate hlocked hlink ht
    have hgone : Inode.ref ⟨(s.inode k).inum, 0, false, { t.ip with type := .free }⟩ = 0 := rfl
    obtain ⟨hinv, hmoves⟩ := h.freed hlocked hone hst (by rw [dinode_put_self]) hgone
    have hfinal : ∀ s1 : Fs, s1 = { s.setInode k
          ⟨(s.inode k).inum, 0, false, { t.ip with type := .free }⟩ with
          disk := t.disk.put (s.inode k).inum { t.ip with type := .free } } →
        Walk sb s s1 (one k) 0 ∧ Put sb s k s1 := by
      rintro _ rfl
      refine ⟨⟨hmoves, hinv, ?_⟩, ?_, ?_⟩
      · intro hq
        obtain ⟨l, hinum, hl⟩ := hq _ hi htype (by rw [← hcopy]; exact hlink)
        obtain rfl := h.unique l k (by omega) hk hinum
        rw [one_self, hone] at hl
        exact absurd hl (Nat.lt_irrefl 1)
      · exact fun _ => ⟨hst, by rw [dinode_put_self]; exact hvacant⟩
      · exact fun hnot => absurd ⟨hone, hv, hlink⟩ hnot
    refine hfinal _ ?_
    simp [Fs.setInode, Fs.update, Fs.setFile, hone]
  · rename_i hnot
    exact .modify ⟨h.less hk, fun hlast => absurd hlast hnot, fun _ => rfl⟩

/-! ## `ialloc` -/

theorem entries_nil : entries [] = [] := rfl

theorem DirShape.nil (sb : Superblock) : DirShape sb [] :=
  ⟨Nat.dvd_zero _, by rw [entries_nil]; intro e he; cases he⟩

/-- The disk after a free inode has been taken. -/
structure Allocated (sb : Superblock) (d : Disk) (type : FileType) (i : Nat) (d' : Disk) : Prop where
  pos : 0 < i
  lt : i < sb.ninodes
  free : (d.dinode i).type = .free
  disk : d' = d.put i { Dinode.zero with type := type }

section Ialloc

variable {d d' : Disk} {type : FileType}

theorem Allocated.stores (h : Allocated sb d type i d') (hd : Intact sb d) : Stores sb i d d' := by
  rw [h.disk]
  refine Stores.blank hd ?_ (fun _ _ => rfl) rfl
  intro l hl
  exact hd.toOwned.addr_of_free h.lt h.free hl

theorem Allocated.dinode (h : Allocated sb d type i d') :
    d'.dinode i = { Dinode.zero with type := type } := by
  rw [h.disk, dinode_put_self]

theorem Allocated.contents (h : Allocated sb d type i d') : d'.contents i = [] := by
  refine contents_eq ?_ (fun p hp => absurd hp (Nat.not_lt_zero _))
  rw [h.dinode]
  rfl

/-- A new inode is in no slot that is read. -/
theorem Allocated.inv (h : Allocated sb s.disk type i d') (hs : Inv sb s) :
    Inv sb { s with disk := d' } ∧ ∀ a, Moves s { s with disk := d' } a a := by
  have hst := h.stores hs.intact
  have hfresh : ∀ k, 0 < (s.inode k).ref → (s.inode k).valid = true → (s.inode k).inum ≠ i := by
    intro k hk hv heq
    have := (hs.synced k hk hv).2
    rw [heq] at this
    exact this h.free
  refine ⟨⟨hst.diskInv hs.toDiskInv ?_, hs.range, hs.unique, ?_⟩, ?_⟩
  · intro _
    rw [h.contents]
    exact DirShape.nil sb
  · intro k hk hv
    show _ = d'.dinode _ ∧ (d'.dinode _).type ≠ _
    rw [hst.other _ (hfresh k hk hv)]
    exact hs.synced k hk hv
  · intro a
    refine ⟨Transfer.refl _ a, fun _ _ hv => hv, ?_, rfl⟩
    intro k _ htype
    show (d'.dinode _).type = _
    rw [hst.other _ (fun heq => htype (by rw [heq]; exact h.free))]

theorem ialloc_runs (h : Inv sb s) (htrans : s.trans = true) :
    Runs Stuck (ialloc sb type) s (fun r s' => (r = none ∧ s' = s) ∨
      ∃ k i, r = some k ∧ Allocated sb s.disk type i s'.disk ∧ (s'.inode k).inum = i ∧
        Inv sb s' ∧ Moves s s' 0 (one k)) := by
  unfold ialloc
  refine .bind (.get ?_)
  split
  · exact .pure (Or.inl ⟨rfl, rfl⟩)
  · rename_i i hfind
    have hi : 0 < i ∧ (s.disk.dinode i).type = .free := by simpa using List.find?_some hfind
    have hlt := List.mem_range.mp (List.mem_of_find?_eq_some hfind)
    rw [if_pos htrans]
    refine .bind (.set ?_)
    have halloc : Allocated sb s.disk type i (s.disk.put i { Dinode.zero with type := type }) :=
      ⟨hi.1, hlt, hi.2, rfl⟩
    obtain ⟨hinv, hmoves⟩ := halloc.inv h
    refine .call (iget_runs hinv hlt) ?_
    rintro k s' ⟨hw, hinum, hdisk⟩
    refine .pure (Or.inr ⟨k, i, rfl, ?_, hinum, hw.inv, (hmoves 0).comp hw.toMoves⟩)
    rw [hdisk]
    exact halloc

end Ialloc

end Xv6.Names
