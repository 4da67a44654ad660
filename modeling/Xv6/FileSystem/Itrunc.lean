import Xv6.FileSystem.Bmap

/-!
# What `itrunc` does

`Freeing sb s P t` says that `t` is `s` with the bits cleared of the blocks
at the places `P` of the inode.  One call of `bfree` adds one place, and the
two loops add all of them.  No call panics: the block is marked, because the
inode holds it, and it was not freed before, because it holds it at one place
only.
-/

namespace Xv6.FileSystem

open Xv6.Lib Xv6.FileSystem.Disk Function

/-- The blocks at the places `P` of the inode are freed. -/
structure Freeing (sb : Superblock) (s : File) (P : Nat → Prop) (t : File) : Prop where
  inum : t.inum = s.inum
  trans : t.trans = s.trans
  block : t.disk.block = s.disk.block
  dinode : t.disk.dinode = s.disk.dinode
  bitmap : ∀ b, t.disk.bitmap b = true ↔
    s.disk.bitmap b = true ∧ ∀ k, P k → ¬ s.view.Holds sb (s.inum, k) b

variable {sb : Superblock} {s t : File} {P P' : Nat → Prop} {k b : Nat}

/-- An empty place has nothing to free. -/
theorem Freeing.skip (h : Freeing sb s P t) (hzero : s.view.addr s.inum k = 0)
    (hP : ∀ l, P' l ↔ P l ∨ l = k) : Freeing sb s P' t := by
  refine ⟨h.inum, h.trans, h.block, h.dinode, fun b => (h.bitmap b).trans ?_⟩
  refine and_congr_right (fun _ => ⟨?_, ?_⟩)
  · intro hall l hl
    rcases (hP l).mp hl with hl | rfl
    · exact hall l hl
    · rintro ⟨_, _, haddr, hne⟩
      exact hne (haddr.symm.trans hzero)
  · intro hall l hl
    exact hall l ((hP l).mpr (Or.inl hl))

/-- The block at a place that was not freed before is marked. -/
theorem Freeing.marked (h : Freeing sb s P t) (hown : Owned sb s.view)
    (hb : s.view.Holds sb (s.inum, k) b) (hk : ¬ P k) : t.disk.bitmap b = true := by
  refine (h.bitmap b).mpr ⟨(hown.range hb).2.2, ?_⟩
  intro l hl hheld
  have heq := (Prod.mk.inj (hown.exact.once hheld hb)).2
  exact hk (heq ▸ hl)

theorem Freeing.step (h : Freeing sb s P t)
    (hb : s.view.Holds sb (s.inum, k) b) (hP : ∀ l, P' l ↔ P l ∨ l = k) :
    Freeing sb s P' { t with disk := t.disk.mark b false } := by
  refine ⟨h.inum, h.trans, h.block, h.dinode, fun c => ?_⟩
  by_cases hc : c = b
  · rw [hc]
    simp only [mark, update_self, Bool.false_eq_true, false_iff]
    rintro ⟨_, hall⟩
    exact hall k ((hP k).mpr (Or.inr rfl)) hb
  · simp only [mark, update_of_ne hc]
    refine (h.bitmap c).trans (and_congr_right (fun _ => ⟨?_, ?_⟩))
    · intro hall l hl
      rcases (hP l).mp hl with hl | rfl
      · exact hall l hl
      · rintro ⟨_, _, haddr, _⟩
        exact hc (haddr.symm.trans hb.2.2.1)
    · intro hall l hl
      exact hall l ((hP l).mpr (Or.inl hl))

theorem bfree_runs {E : Panic → Prop} {Q : PUnit → File → Prop} (hmark : t.disk.bitmap b = true)
    (htrans : t.trans = true) (h : Q ⟨⟩ { t with disk := t.disk.mark b false }) :
    Runs E (bfree b) t Q := by
  unfold bfree
  refine .bind (.get ?_)
  rw [if_pos hmark]
  exact setBit_runs htrans h

section Loops

variable (hown : Owned sb s.view) (hi : s.inum < sb.ninodes) (htrans : s.trans = true)
include hown hi htrans

/-- The first loop frees the direct blocks, and clears their addresses in the
copy. -/
theorem freeDirect_runs :
    Runs (fun _ => False) ((List.range NDIRECT).forM freeDirect) s (fun _ t =>
      Freeing sb s (fun k => k < NDIRECT) t ∧
      ∃ a, t.ip = { s.ip with addrs := a } ∧ (∀ k, k < NDIRECT → a k = 0) ∧
        a NDIRECT = s.ip.addrs NDIRECT) := by
  refine (Runs.forM (fun done t => Freeing sb s (fun k => k ∈ done) t ∧
    ∃ a, t.ip = { s.ip with addrs := a } ∧
      ∀ k, a k = if k ∈ done then 0 else s.ip.addrs k) ?_ ?_).post ?_
  · refine ⟨?_, s.ip.addrs, rfl, fun k => by simp⟩
    exact ⟨rfl, rfl, rfl, rfl, by simp⟩
  · rintro done i rest t hlist ⟨hf, a, hip, ha⟩
    have hnodup : (done ++ i :: rest).Nodup := hlist ▸ List.nodup_range
    have hnew : i ∉ done := by
      intro hmem
      exact (List.nodup_append.mp hnodup).2.2 i hmem i (by simp) rfl
    have hlt : i < NDIRECT := by
      have hmem : i ∈ List.range NDIRECT := by rw [hlist]; simp
      exact List.mem_range.mp hmem
    have haddr : t.ip.addrs i = s.view.addr s.inum i := by
      rw [hip, addr_view hlt.le]
      exact (ha i).trans (if_neg hnew)
    have hP : ∀ l, l ∈ done ++ [i] ↔ l ∈ done ∨ l = i := by simp
    unfold freeDirect
    refine .bind (.get ?_)
    rw [haddr]
    split
    · rename_i hzero
      refine ⟨hf.skip hzero hP, a, hip, fun k => ?_⟩
      rw [ha k]
      by_cases hk : k = i
      · rw [hk, if_neg hnew, if_pos (by simp), ← addr_view hlt.le]
        exact hzero
      · simp only [List.mem_append, List.mem_singleton, hk, or_false]
    · rename_i hne
      have hheld : s.view.Holds sb (s.inum, i) (s.view.addr s.inum i) :=
        ⟨hi, hlt.trans (by decide : NDIRECT < NPLACE), rfl, hne⟩
      refine .bind (bfree_runs (hf.marked hown hheld hnew) (hf.trans.trans htrans) (.modify ?_))
      have hstep := hf.step hheld hP
      refine ⟨⟨hstep.inum, hstep.trans, hstep.block, hstep.dinode, hstep.bitmap⟩,
        update a i 0, by rw [hip]; rfl, fun k => ?_⟩
      by_cases hk : k = i
      · rw [hk, update_self, if_pos (by simp)]
      · rw [update_of_ne hk, ha k]
        simp only [List.mem_append, List.mem_singleton, hk, or_false]
  · rintro _ t ⟨hf, a, hip, ha⟩
    refine ⟨⟨hf.inum, hf.trans, hf.block, hf.dinode, by simpa using hf.bitmap⟩, a, hip, ?_, ?_⟩
    · intro k hk
      rw [ha k, if_pos (List.mem_range.mpr hk)]
    · rw [ha NDIRECT, if_neg (by simp)]

/-- The second loop frees the blocks of the indirect block. -/
theorem freeWord_runs (hf : Freeing sb s (fun k => k < NDIRECT) t)
    (hne : s.ip.addrs NDIRECT ≠ 0) :
    Runs (fun _ => False)
      ((List.range NINDIRECT).forM (freeWord (s.disk.block (s.ip.addrs NDIRECT)))) t (fun _ u =>
        Freeing sb s (fun k => k < NPLACE ∧ k ≠ NDIRECT) u ∧ u.ip = t.ip) := by
  have haddr : ∀ j, s.view.addr s.inum (NDIRECT + 1 + j) =
      (s.disk.block (s.ip.addrs NDIRECT)).word j := by
    intro j
    rw [addr_indirect (by omega), dinode_view, Disk.indirect, if_neg hne]
    congr 1
    omega
  refine (Runs.forM (fun done u => Freeing sb s (fun k => k < NDIRECT ∨
    ∃ j ∈ done, k = NDIRECT + 1 + j) u ∧ u.ip = t.ip) ?_ ?_).post ?_
  · exact ⟨⟨hf.inum, hf.trans, hf.block, hf.dinode, by simpa using hf.bitmap⟩, rfl⟩
  · rintro done j rest u hlist ⟨hu, hip⟩
    have hnodup : (done ++ j :: rest).Nodup := hlist ▸ List.nodup_range
    have hnew : ¬ (NDIRECT + 1 + j < NDIRECT ∨ ∃ m ∈ done, NDIRECT + 1 + j = NDIRECT + 1 + m) := by
      rintro (hlt | ⟨m, hm, heq⟩)
      · omega
      · have hmj : m = j := by omega
        exact (List.nodup_append.mp hnodup).2.2 m hm j (by simp) hmj
    have hlt : j < NINDIRECT := by
      have hmem : j ∈ List.range NINDIRECT := by rw [hlist]; simp
      exact List.mem_range.mp hmem
    have hP : ∀ l, (l < NDIRECT ∨ ∃ m ∈ done ++ [j], l = NDIRECT + 1 + m) ↔
        (l < NDIRECT ∨ ∃ m ∈ done, l = NDIRECT + 1 + m) ∨ l = NDIRECT + 1 + j := by
      intro l
      simp only [List.mem_append, List.mem_singleton]
      constructor
      · rintro (hl | ⟨m, hm | rfl, hl⟩)
        · exact Or.inl (Or.inl hl)
        · exact Or.inl (Or.inr ⟨m, hm, hl⟩)
        · exact Or.inr hl
      · rintro ((hl | ⟨m, hm, hl⟩) | hl)
        · exact Or.inl hl
        · exact Or.inr ⟨m, Or.inl hm, hl⟩
        · exact Or.inr ⟨j, Or.inr rfl, hl⟩
    unfold freeWord
    rw [← haddr]
    split
    · rename_i hzero
      exact ⟨hu.skip hzero hP, hip⟩
    · rename_i hne'
      have hheld : s.view.Holds sb (s.inum, NDIRECT + 1 + j) (s.view.addr s.inum (NDIRECT + 1 + j)) :=
        ⟨hi, show NDIRECT + 1 + j < NPLACE by simp only [NPLACE]; omega, rfl, hne'⟩
      refine bfree_runs (hu.marked hown hheld hnew) (hu.trans.trans htrans) ?_
      exact ⟨hu.step hheld hP, hip⟩
  · rintro _ u ⟨hu, hip⟩
    have hP : ∀ k, (k < NPLACE ∧ k ≠ NDIRECT) ↔
        (k < NDIRECT ∨ ∃ j ∈ List.range NINDIRECT, k = NDIRECT + 1 + j) := by
      intro k
      simp only [List.mem_range, NPLACE]
      constructor
      · rintro ⟨hk, hkn⟩
        by_cases hlt : k < NDIRECT
        · exact Or.inl hlt
        · exact Or.inr ⟨k - NDIRECT - 1, by omega, by omega⟩
      · rintro (hk | ⟨j, hj, hk⟩) <;> omega
    refine ⟨⟨hu.inum, hu.trans, hu.block, hu.dinode, fun b => (hu.bitmap b).trans ?_⟩, hip⟩
    simp only [hP]

end Loops

/-- What `itrunc` does: the inode has no blocks and size 0, on the disk too,
and its blocks are free. -/
structure Truncated (sb : Superblock) (s t : File) : Prop where
  inum : t.inum = s.inum
  trans : t.trans = s.trans
  ip : ∃ a, t.ip = { s.ip with size := 0, addrs := a } ∧ ∀ k, k ≤ NDIRECT → a k = 0
  dinode : t.disk.dinode = update s.disk.dinode s.inum t.ip
  block : t.disk.block = s.disk.block
  bitmap : ∀ b, t.disk.bitmap b = true ↔
    s.disk.bitmap b = true ∧ ∀ k, ¬ s.view.Holds sb (s.inum, k) b

theorem itrunc_runs (hown : Owned sb s.view) (hi : s.inum < sb.ninodes) (htrans : s.trans = true) :
    Runs (fun _ => False) itrunc s (fun _ t => Truncated sb s t) := by
  unfold itrunc
  refine .call (freeDirect_runs hown hi htrans) ?_
  rintro _ t ⟨hf, a, hip, ha, hlast⟩
  have hindirect : Runs (fun _ => False) freeIndirect t (fun _ u =>
      Freeing sb s (fun k => k < NPLACE) u ∧
      ∃ a, u.ip = { s.ip with addrs := a } ∧ ∀ k, k ≤ NDIRECT → a k = 0) := by
    have htaddr : t.ip.addrs NDIRECT = s.ip.addrs NDIRECT := by rw [hip]; exact hlast
    have hP : ∀ k, k < NPLACE ↔ (k < NPLACE ∧ k ≠ NDIRECT) ∨ k = NDIRECT := by
      intro k
      have : NDIRECT < NPLACE := by decide
      omega
    unfold freeIndirect
    refine .bind (.get ?_)
    rw [htaddr]
    split
    · rename_i hzero
      have hnone : ∀ k, k < NPLACE → ¬ k < NDIRECT → s.view.addr s.inum k = 0 := by
        intro k hk hkd
        by_cases hkn : k = NDIRECT
        · rw [hkn, addr_view le_rfl, hzero]
        · rw [addr_indirect (by omega), dinode_view, Disk.indirect, if_pos hzero]
      refine ⟨⟨hf.inum, hf.trans, hf.block, hf.dinode, fun b => (hf.bitmap b).trans ?_⟩,
        a, hip, ?_⟩
      · refine and_congr_right (fun _ => ⟨?_, ?_⟩)
        · intro hall k hk
          by_cases hkd : k < NDIRECT
          · exact hall k hkd
          · rintro ⟨_, _, haddr, hne⟩
            exact hne (haddr.symm.trans (hnone k hk hkd))
        · intro hall k hk
          exact hall k (hk.trans (by decide))
      · intro k hk
        by_cases hkn : k = NDIRECT
        · rw [hkn, hlast, hzero]
        · exact ha k (by omega)
    · rename_i hne
      refine .bind (bread_runs ?_)
      rw [show t.disk.block (s.ip.addrs NDIRECT) = s.disk.block (s.ip.addrs NDIRECT) by
        rw [hf.block]]
      refine .call (freeWord_runs hown hi htrans hf hne) ?_
      rintro _ u ⟨hu, huip⟩
      have hheld : s.view.Holds sb (s.inum, NDIRECT) (s.ip.addrs NDIRECT) :=
        holds_indirect hi (by rw [dinode_view]) hne
      refine .bind (bfree_runs (hu.marked hown hheld (fun hc => hc.2 rfl))
        (hu.trans.trans htrans) (.modify ?_))
      have hstep := hu.step hheld hP
      refine ⟨⟨hstep.inum, hstep.trans, hstep.block, hstep.dinode, hstep.bitmap⟩,
        update a NDIRECT 0, ?_, ?_⟩
      · show u.ip.setAddr NDIRECT 0 = _
        rw [huip, hip]
        rfl
      · intro k hk
        by_cases hkn : k = NDIRECT
        · rw [hkn, update_self]
        · rw [update_of_ne hkn]
          exact ha k (by omega)
  refine .call hindirect ?_
  rintro _ u ⟨hu, c, huip, hc⟩
  refine .bind (.modify (.bind (logWrite_runs (hu.trans.trans htrans) (.modify ?_))))
  refine ⟨hu.inum, hu.trans, ⟨c, ?_, hc⟩, ?_, hu.block, fun b => (hu.bitmap b).trans ?_⟩
  · dsimp only
    rw [huip]
  · show (u.disk.put u.inum _).dinode = _
    rw [hu.inum, Disk.put, hu.dinode]
  · refine and_congr_right (fun _ => ⟨?_, fun hall k _ => hall k⟩)
    intro hall k hheld
    exact hall k hheld.2.1 hheld

/-! ## The file system afterwards -/

section Truncated

variable (h : Truncated sb s t)
include h

theorem Truncated.view : t.disk = t.view := by
  have hput : t.view.dinode = t.disk.dinode := by
    rw [File.view, Disk.put, h.inum, h.dinode, update_idem]
  exact congrArg (fun f => Disk.mk f t.disk.bitmap t.disk.block) hput.symm

theorem Truncated.dinode_view (j : Nat) :
    t.view.dinode j = if j = s.inum then t.ip else s.view.dinode j := by
  rw [← h.view, h.dinode]
  split
  · rename_i hj
    rw [hj, update_self]
  · rename_i hj
    rw [update_of_ne hj]
    exact (dinode_put_of_ne hj).symm

theorem Truncated.addr_other {j l : Nat} (hj : j ≠ s.inum) : t.view.addr j l = s.view.addr j l := by
  refine addr_congr ?_ (fun _ => ?_)
  · rw [h.dinode_view, if_neg hj]
  · rw [block_view, block_view, h.block]

theorem Truncated.byte_other {j p : Nat} (hj : j ≠ s.inum) : t.view.byte j p = s.view.byte j p := by
  rw [Disk.byte, fileAddr, h.addr_other hj, block_view, h.block]
  rfl

theorem Truncated.addr_self {l : Nat} : t.view.addr s.inum l = 0 := by
  obtain ⟨a, hip, ha⟩ := h.ip
  by_cases hl : l ≤ NDIRECT
  · rw [addr_direct hl, h.dinode_view, if_pos rfl, hip]
    exact ha l hl
  · rw [addr_indirect hl, h.dinode_view, if_pos rfl, Disk.indirect, if_pos]
    rw [hip]
    exact ha NDIRECT le_rfl

theorem Truncated.size : t.ip.size = 0 := by
  obtain ⟨a, hip, _⟩ := h.ip
  rw [hip]

theorem Truncated.owned (hs : Owned sb s.view) (hi : s.inum < sb.ninodes) : Owned sb t.view := by
  refine hs.release hi ?_ ?_ ?_ ?_
  · exact fun l _ => h.addr_self
  · exact fun j l _ hj => h.addr_other hj
  · exact h.bitmap
  · intro j hj
    rw [h.dinode_view, if_neg hj]

theorem Truncated.intact (hs : Intact sb s.view) (hi : s.inum < sb.ninodes) :
    Intact sb t.view where
  toOwned := h.owned hs.toOwned hi
  whole j bn hj hbn := by
    rw [h.dinode_view] at hbn
    split at hbn
    · rw [h.size] at hbn
      exact absurd hbn (Nat.not_lt_zero _)
    · rename_i hji
      rw [fileAddr, h.addr_other hji]
      exact hs.whole j bn hj hbn
  bounded j hj := by
    rw [h.dinode_view]
    split
    · rw [h.size]
      exact Nat.zero_le _
    · exact hs.bounded j hj

end Truncated

end Xv6.FileSystem
