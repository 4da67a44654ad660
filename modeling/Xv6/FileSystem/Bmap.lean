import Xv6.FileSystem.Inode

/-!
# What `balloc` and `bmap` do

The copy of the inode in memory is ahead of the disk until `iupdate`.
`File.view` is the disk with that copy written back, and all invariants are
about the view.

`Took` lists the outcomes of looking for a block at one place of the inode:
it is there, the disk is full, or a fresh block is taken.  `bmap` does this
for one place or for two.  It returns the block, and 0 exactly if the disk is
full.  If the block is there it changes nothing, and it needs no transaction.
-/

namespace Xv6.FileSystem

open Xv6.Lib Xv6.FileSystem.Disk

/-- The disk with the copy of the inode written back. -/
def File.view (s : File) : Disk := s.disk.put s.inum s.ip

/-- Every block is marked. -/
def Full (sb : Superblock) (d : Disk) : Prop := ∀ b, b < sb.size → d.bitmap b = true

/-- The outcomes of looking for a block at the place `k`. -/
inductive Took (sb : Superblock) (s : File) (k : Nat) : Nat → File → Prop
  | found (h : s.view.addr s.inum k ≠ 0) : Took sb s k (s.view.addr s.inum k) s
  | full (h : s.view.addr s.inum k = 0) (hfull : Full sb s.view) : Took sb s k 0 s
  | taken {b : Nat} {s' : File} (h : s.view.addr s.inum k = 0) (hb : Fresh sb s.view b)
      (hview : s'.view = s.view.take s.inum k b) (hinum : s'.inum = s.inum)
      (htrans : s'.trans = s.trans) : Took sb s k b s'

variable {sb : Superblock} {s s' : File} {k r bn : Nat}

@[simp] theorem dinode_view : s.view.dinode s.inum = s.ip := dinode_put_self

@[simp] theorem block_view : s.view.block = s.disk.block := rfl

@[simp] theorem bitmap_view : s.view.bitmap = s.disk.bitmap := rfl

theorem addr_view (hk : k ≤ NDIRECT) : s.view.addr s.inum k = s.ip.addrs k := by
  rw [addr_direct hk, dinode_view]

/-! ## One block -/

theorem firstFree_eq_none (h : firstFree sb s.disk = none) : Full sb s.view := by
  intro b hb
  have hall := List.find?_eq_none.mp h b (List.mem_range.mpr hb)
  simpa using hall

variable {b : Nat} {E : Panic → Prop} {Q : PUnit → File → Prop}

theorem firstFree_eq_some (h : firstFree sb s.disk = some b) (hown : Owned sb s.view) :
    Fresh sb s.view b := by
  have hmem := List.mem_range.mp (List.mem_of_find?_eq_some h)
  have hclear : s.disk.bitmap b = false := by simpa using List.find?_some h
  refine ⟨Nat.le_of_not_lt (fun hlt => ?_), hmem, hclear⟩
  have hmark := hown.reserved b hlt
  rw [bitmap_view, hclear] at hmark
  cases hmark

theorem logWrite_runs (htrans : s.trans = true) (h : Q ⟨⟩ s) : Runs E logWrite s Q := by
  unfold logWrite
  refine .bind (.get ?_)
  rw [if_pos htrans]
  exact .pure h

theorem bread_runs {Q : Buffer → File → Prop} (h : Q (s.disk.block b) s) : Runs E (bread b) s Q := h

theorem bwrite_runs {x : Buffer} (htrans : s.trans = true)
    (h : Q ⟨⟩ { s with disk := s.disk.setBlock b x }) : Runs E (bwrite b x) s Q :=
  .bind (logWrite_runs htrans (.modify h))

theorem setBit_runs {v : Bool} (htrans : s.trans = true)
    (h : Q ⟨⟩ { s with disk := s.disk.mark b v }) : Runs E (setBit b v) s Q :=
  .bind (logWrite_runs htrans (.modify h))

/-- `balloc` returns 0 and does nothing if the disk is full, and grabs a
fresh block otherwise. -/
theorem balloc_runs (hown : Owned sb s.view) (htrans : s.trans = true) :
    Runs (fun _ => False) (balloc sb) s (fun r s' =>
      r = 0 ∧ s' = s ∧ Full sb s.view ∨
      Fresh sb s.view r ∧ s' = { s with disk := s.disk.grab r }) := by
  unfold balloc
  refine .bind (.get ?_)
  cases hfree : firstFree sb s.disk with
  | none => exact Or.inl ⟨rfl, rfl, firstFree_eq_none hfree⟩
  | some b =>
    refine .bind (setBit_runs htrans (.bind (bwrite_runs htrans (.pure ?_))))
    exact Or.inr ⟨firstFree_eq_some hfree hown, rfl⟩

/-! ## One place -/

section Took

variable (h : Took sb s k r s') (hown : Owned sb s.view) (hi : s.inum < sb.ninodes)
  (hind : NDIRECT < k → s.view.addr s.inum NDIRECT ≠ 0)
include h hown hi hind

theorem Took.addr : r = s'.view.addr s.inum k := by
  cases h with
  | found => rfl
  | full hzero => exact hzero.symm
  | taken hzero hb hview =>
    rw [hview, hown.addr_take hi hb hzero hind hi, if_pos ⟨rfl, rfl⟩]

theorem Took.owned (hk : k < NPLACE) (htype : s.ip.type ≠ .free) : Owned sb s'.view := by
  cases h with
  | found => exact hown
  | full => exact hown
  | taken hzero hb hview =>
    rw [hview]
    exact hown.take hi hb hzero hind hk (by rwa [dinode_view])

theorem Took.extends : Extends sb s.inum s.view s'.view := by
  cases h with
  | found => exact .refl _ _ _
  | full => exact .refl _ _ _
  | taken hzero hb hview =>
    rw [hview]
    exact hown.extends_take hi hb hzero hind

/-- Every place that gets a block costs a free block. -/
theorem Took.count {P : Finset Nat} (hk : k ∈ P) :
    free sb s'.view + missing s.view s.inum P = free sb s.view + missing s'.view s.inum P := by
  cases h with
  | found => rfl
  | full => rfl
  | taken hzero hb hview =>
    rw [hview, ← free_take (i := s.inum) (k := k) hb,
      ← hown.missing_take hi hb hzero hind hk]
    omega

end Took

theorem Took.inum (h : Took sb s k r s') : s'.inum = s.inum := by
  cases h with
  | found => rfl
  | full => rfl
  | taken _ _ _ hinum => exact hinum

theorem Took.trans (h : Took sb s k r s') : s'.trans = s.trans := by
  cases h with
  | found => rfl
  | full => rfl
  | taken _ _ _ _ htrans => exact htrans

/-- Only a full disk gives 0. -/
theorem Took.full_of_zero (h : Took sb s k 0 s') : s' = s ∧ Full sb s.view := by
  generalize hr : (0 : Nat) = r at h
  cases h with
  | found hne => exact absurd hr.symm hne
  | full _ hfull => exact ⟨rfl, hfull⟩
  | taken _ hb => exact absurd hr.symm hb.ne_zero

/-- The view after a block is recorded in the copy. -/
theorem view_grab_setAddr (s : File) (hk : k ≤ NDIRECT) :
    { s with ip := s.ip.setAddr k b, disk := s.disk.grab b : File }.view =
      s.view.take s.inum k b := by
  have hgrab : s.view.grab b = (s.disk.grab b).put s.inum s.ip := rfl
  rw [Disk.take, hgrab, assign, if_pos hk, dinode_put_self, put_put]
  rfl

/-- The view after a block is recorded in the indirect block. -/
theorem view_grab_setWord (s : File) (hk : ¬ k ≤ NDIRECT) (hne : s.ip.addrs NDIRECT ≠ b) :
    (File.mk s.inum s.ip ((s.disk.grab b).setBlock (s.ip.addrs NDIRECT)
      ((s.disk.block (s.ip.addrs NDIRECT)).setWord (k - NDIRECT - 1) b)) s.trans).view =
      s.view.take s.inum k b := by
  have hgrab : s.view.grab b = (s.disk.grab b).put s.inum s.ip := rfl
  have hblock : (s.disk.grab b).block (s.ip.addrs NDIRECT) = s.disk.block (s.ip.addrs NDIRECT) :=
    block_grab_of_ne hne
  rw [Disk.take, hgrab, assign, if_neg hk, dinode_put_self, block_put]
  dsimp only
  rw [hblock]
  rfl

theorem ipAddr_runs (hown : Owned sb s.view) (htrans : s.trans = true) (hk : k ≤ NDIRECT) :
    Runs (fun _ => False) (ipAddr sb k) s (Took sb s k) := by
  have haddr := addr_view (s := s) hk
  unfold ipAddr
  refine .bind (.get ?_)
  split
  · rename_i hzero
    rw [← haddr] at hzero
    refine .call (balloc_runs hown htrans) ?_
    rintro r t (⟨rfl, rfl, hfull⟩ | ⟨hb, rfl⟩)
    · exact .full hzero hfull
    · rw [if_neg hb.ne_zero]
      exact .bind (.modify (.pure (.taken hzero hb (view_grab_setAddr s hk) rfl rfl)))
  · rename_i hne
    rw [← haddr] at hne ⊢
    exact .found hne

/-! ## `bmap` -/

/-- What `bmap` does. -/
structure Bmapped (sb : Superblock) (s : File) (bn r : Nat) (s' : File) : Prop where
  owned : Owned sb s'.view
  extends' : Extends sb s.inum s.view s'.view
  inum : s'.inum = s.inum
  trans : s'.trans = s.trans
  addr : r = s'.view.fileAddr s.inum bn
  full : r = 0 → Full sb s'.view
  count : ∀ P : Finset Nat, place bn ∈ P → (NDIRECT ≤ bn → NDIRECT ∈ P) →
    free sb s'.view + missing s.view s.inum P = free sb s.view + missing s'.view s.inum P

theorem bmap_runs (hown : Owned sb s.view) (htrans : s.trans = true) (hi : s.inum < sb.ninodes)
    (htype : s.ip.type ≠ .free) (hbn : bn < MAXFILE) :
    Runs (fun _ => False) (bmap sb bn) s (Bmapped sb s bn) := by
  unfold bmap
  split
  · -- a direct block
    rename_i hdirect
    have hle : bn ≤ NDIRECT := hdirect.le
    refine (ipAddr_runs hown htrans hle).post ?_
    intro r s' h
    have hind : NDIRECT < bn → s.view.addr s.inum NDIRECT ≠ 0 := by omega
    have hlt : bn < NPLACE := by simp only [NPLACE, NDIRECT] at hdirect ⊢; omega
    have hplace : place bn = bn := if_pos hdirect
    refine ⟨h.owned hown hi hind hlt htype, h.extends hown hi hind, h.inum, h.trans, ?_, ?_, ?_⟩
    · rw [fileAddr, hplace]
      exact h.addr hown hi hind
    · rintro rfl
      obtain ⟨rfl, hfull⟩ := h.full_of_zero
      exact hfull
    · intro P hP _
      rw [hplace] at hP
      exact h.count hown hi hind hP
  rename_i hdirect
  rw [if_pos (by simp only [MAXFILE] at hbn; omega)]
  have hnone : NDIRECT < NDIRECT → s.view.addr s.inum NDIRECT ≠ 0 := by omega
  refine .call (ipAddr_runs hown htrans le_rfl) ?_
  intro ind t h
  have htaddr := h.addr hown hi hnone
  have htown := h.owned hown hi hnone (by decide) htype
  have htext := h.extends hown hi hnone
  have hplace : place bn = bn + 1 := if_neg hdirect
  have hword : bn + 1 - NDIRECT - 1 = bn - NDIRECT := by omega
  split
  · -- no room for the indirect block
    rename_i hzero
    subst hzero
    obtain ⟨rfl, hfull⟩ := h.full_of_zero
    refine ⟨htown, htext, rfl, rfl, ?_, fun _ => hfull, fun _ _ _ => rfl⟩
    rw [fileAddr, hplace, addr_indirect (by omega), Disk.indirect,
      if_pos (by rw [← addr_direct le_rfl]; exact htaddr.symm)]
  rename_i hne
  have htinum := h.inum
  have hti : t.inum < sb.ninodes := by rwa [htinum]
  have hind : t.ip.addrs NDIRECT = ind := by
    rw [htaddr, ← htinum]
    exact (addr_view le_rfl).symm
  have haddr : t.view.addr t.inum (bn + 1) = (t.disk.block ind).word (bn - NDIRECT) := by
    rw [addr_indirect (by omega), hword, dinode_view, Disk.indirect, hind, if_neg hne]
    rfl
  have hindirect : NDIRECT < bn + 1 → t.view.addr t.inum NDIRECT ≠ 0 := by
    intro _
    rw [addr_view le_rfl, hind]
    exact hne
  -- from here on it is the outcome for the place of the word
  have hrest : Runs (fun _ => False) (do
      let a ← bread ind
      if a.word (bn - NDIRECT) = 0 then do
        let addr ← balloc sb
        if addr = 0 then pure 0
        else do
          let a ← bread ind
          bwrite ind (a.setWord (bn - NDIRECT) addr)
          pure addr
      else pure (a.word (bn - NDIRECT))) t (Took sb t (bn + 1)) := by
    refine .bind (bread_runs ?_)
    rw [← haddr]
    split
    · rename_i hzero
      refine .call (balloc_runs htown (h.trans.trans htrans)) ?_
      rintro r u (⟨rfl, rfl, hfull⟩ | ⟨hb, rfl⟩)
      · exact .full hzero hfull
      · rw [if_neg hb.ne_zero]
        have hneb : t.ip.addrs NDIRECT ≠ r := by
          intro heq
          refine htown.fresh_not_held hb (t.inum, NDIRECT) ?_
          exact holds_indirect hti (by rw [dinode_view, heq]) hb.ne_zero
        have hview := view_grab_setWord t (k := bn + 1) (by omega) hneb
        rw [hword, hind] at hview
        refine .bind (bread_runs (.bind (bwrite_runs (h.trans.trans htrans) (.pure ?_))))
        refine .taken hzero hb ?_ rfl rfl
        rw [hind] at hneb
        rw [show (t.disk.grab r).block ind = t.disk.block ind from block_grab_of_ne hneb]
        exact hview
    · rename_i hne'
      exact .found hne'
  refine hrest.post ?_
  intro r u hu
  have hlt : bn + 1 < NPLACE := by
    simp only [MAXFILE, NPLACE] at hbn ⊢
    omega
  have hutype : t.ip.type ≠ .free := by
    have := htext.type
    rw [dinode_view, ← htinum, dinode_view] at this
    rwa [this]
  refine ⟨hu.owned htown hti hindirect hlt hutype,
    htext.trans (htinum ▸ hu.extends htown hti hindirect), hu.inum.trans htinum,
    hu.trans.trans h.trans, ?_, ?_, ?_⟩
  · rw [fileAddr, hplace, ← htinum]
    exact hu.addr htown hti hindirect
  · rintro rfl
    obtain ⟨rfl, hfull⟩ := hu.full_of_zero
    exact hfull
  · intro P hP hPind
    have hcount := h.count hown hi hnone (hPind (by omega))
    have hcount' := hu.count htown hti hindirect (P := P) (by rwa [hplace] at hP)
    rw [htinum] at hcount'
    omega

/-- If the block is there, `bmap` changes nothing and needs no transaction. -/
theorem bmap_found (hbn : bn < MAXFILE) (hne : s.view.fileAddr s.inum bn ≠ 0) :
    Runs (fun _ => False) (bmap sb bn) s (fun r s' => r = s.view.fileAddr s.inum bn ∧ s' = s) := by
  have hip : ∀ k, s.ip.addrs k ≠ 0 →
      Runs (fun _ => False) (ipAddr sb k) s (fun r s' => r = s.ip.addrs k ∧ s' = s) := by
    intro k hk
    unfold ipAddr
    refine .bind (.get ?_)
    rw [if_neg hk]
    exact ⟨rfl, rfl⟩
  unfold bmap
  split
  · rename_i hdirect
    have haddr : s.view.fileAddr s.inum bn = s.ip.addrs bn := by
      rw [fileAddr, place, if_pos hdirect, addr_view hdirect.le]
    rw [haddr] at hne ⊢
    exact hip bn hne
  rename_i hdirect
  rw [if_pos (by simp only [MAXFILE] at hbn; omega)]
  have haddr : s.view.fileAddr s.inum bn = s.disk.indirect s.ip (bn - NDIRECT) := by
    rw [fileAddr, place, if_neg hdirect, addr_indirect (by omega), dinode_view]
    rfl
  have hind : s.ip.addrs NDIRECT ≠ 0 := by
    intro hzero
    rw [haddr, Disk.indirect, if_pos hzero] at hne
    exact hne rfl
  rw [haddr, Disk.indirect, if_neg hind] at hne ⊢
  refine .call (hip NDIRECT hind) ?_
  rintro ind t ⟨rfl, rfl⟩
  rw [if_neg hind]
  refine .bind (bread_runs ?_)
  rw [if_neg hne]
  exact ⟨rfl, rfl⟩

end Xv6.FileSystem
