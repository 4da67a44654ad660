import Xv6.Names.Creation

/-!
# `sys_link` and `sys_unlink`

`sys_link` raises the link count before it looks for the new directory, and lowers it
again if it fails.  `sys_unlink` removes the entry first and lowers the counts after that.
-/

namespace Xv6.Names

open Xv6.Lib Xv6.FileSystem Xv6.FileSystem.Disk Function

variable {sb : Superblock} {s s' : Fs} {a b : Slot → Nat} {dp ip k : Slot} {name : List UInt8}
  {N : Nat → Node} {n : Node} {i j p : Nat}

/-! ## Transactions -/

theorem Inv.mode (h : Inv sb s) (b : Bool) : Inv sb { s with trans := b } :=
  ⟨h.toDiskInv, h.range, h.unique, h.synced⟩

theorem Calm.mode (h : Calm sb s a) (b : Bool) : Calm sb { s with trans := b } a :=
  ⟨h.quiet, h.alloc, h.read⟩

/-- A transaction leaves the mode as it was. -/
theorem Moves.ends (h : Moves { s with trans := true } s' a b) (hs : s.trans = false) :
    Moves s { s' with trans := false } a b :=
  ⟨⟨h.balance, h.frame⟩, h.valid, h.type, hs.symm⟩

/-! ## `sys_link` -/

theorem Node.relink_add_sub (n : Node) : (n.relink (· + 1)).relink (· - 1) = n := by
  unfold Node.relink
  dsimp only
  rw [Int16.add_sub_cancel]

/-- `bad` of `sys_link` takes the link back. -/
theorem linkBad_runs (h : Inv sb s) (hip : 0 < (s.inode ip).ref) (htrans : s.trans = true) :
    Runs Stuck (linkBad ip) s (fun r s' => r = -1 ∧ ∃ s1, s' = { s1 with trans := false } ∧
      Inv sb s1 ∧ Moves s s1 (one ip) 0 ∧ ∀ N, nodes sb s.disk =
          update N (s.inode ip).inum ((N (s.inode ip).inum).relink (· + 1)) →
        (∀ m, (N m).Idle → ∃ k, (s.inode k).inum = m ∧ one ip k < (s.inode k).ref) →
        nodes sb s1.disk = N) := by
  unfold linkBad
  refine .call (ilock_runs h hip) ?_
  rintro _ s1 ⟨hw1, hv1, hinum1, hdisk1⟩
  have hip1 : Locked s1 ip := ⟨hw1.held hip, hv1⟩
  refine .call (updateLink_runs hw1.inv hip1 (hw1.mode.trans htrans) (· - 1)) ?_
  rintro _ s2 ⟨hinv2, hm2, hip2, hn2⟩
  rw [hinum1, hdisk1] at hn2
  have hm : Moves s s2 (one ip) (one ip) := (hw1.keep _).toMoves.comp (hm2 _)
  refine .call (iput_runs hinv2 hip2.used (hm.mode.trans htrans)) ?_
  rintro _ s3 ⟨hw3, _⟩
  refine .bind (.modify (.pure ⟨rfl, s3, rfl, hw3.inv, hm.comp hw3.toMoves, ?_⟩))
  intro N hN hidle
  have hback : nodes sb s2.disk = N := by
    rw [hn2, hN, update_self, Node.relink_add_sub, update_idem,
      update_eq_self]
  have hquiet : Quiet sb s2 (one ip) := by
    refine quiet_iff.mpr ?_
    intro m hm'
    rw [hback] at hm'
    obtain ⟨k, hinum, hk⟩ := hidle m hm'
    exact ⟨k, (hm.inum hk).trans hinum, hm.held hk⟩
  rw [hw3.quiet hquiet, hback]

/-- A new link to inode `i`, with the name `name` in directory `p`.  A link count of -1 would
become 0 here. -/
structure NewLink (N : Nat → Node) (i p : Nat) (name : List UInt8) (N' : Nat → Node) : Prop where
  alloc : (N i).type ≠ .free
  notDir : (N i).type ≠ .dir
  parent : (N p).type = .dir
  absent : Absent (entries (N p).data) name
  adds : (N i).nlink ≠ -1 → ∃ j, EmptyAt (entries (N p).data) j ∧
    N' = update (update N i ((N i).relink (· + 1))) p
      ((N p).write j (Dirent.named i name).bytes)

/-- What `sys_link` does. -/
inductive Linked (sb : Superblock) (s : Fs) (cwd : Slot) (old new : List UInt8) : Int → Fs → Prop
  | failed {s' : Fs} (inv : Inv sb s') (moves : Moves s s' 0 0)
      (calm : Calm sb s 0 → nodes sb s'.disk = nodes sb s.disk) : Linked sb s cwd old new (-1) s'
  | linked {s' : Fs} (i p : Nat) (name : List UInt8) (inv : Inv sb s') (moves : Moves s s' 0 0)
      (calm : Calm sb s 0 → NewLink (nodes sb s.disk) i p name (nodes sb s'.disk) ∧
        (follow (nodes sb s.disk) false (start s cwd old) (components old)).map Prod.fst = some i ∧
        follow (nodes sb s.disk) true (start s cwd new) (components new) = some (p, name)) :
      Linked sb s cwd old new 0 s'

variable {cwd : Slot} {E : Panic → Prop}

theorem Linked.run {old new : List UInt8} {r : Int} (h : Linked sb s cwd old new r s') :
    Inv sb s' ∧ Moves s s' 0 0 := by
  cases h with
  | failed inv moves _ => exact ⟨inv, moves⟩
  | linked _ _ _ inv moves _ => exact ⟨inv, moves⟩

theorem sameDirs_relink (N : Nat → Node) (i : Nat) (f : Int16 → Int16) :
    SameDirs N (update N i ((N i).relink f)) := by
  intro m
  by_cases hm : m = i
  · rw [hm, update_self]
    exact ⟨Iff.rfl, fun _ => rfl⟩
  · rw [update_of_ne hm]
    exact ⟨Iff.rfl, fun _ => rfl⟩

theorem sysLink_runs (h : Inv sb s) (hcwd : 0 < (s.inode cwd).ref) (htrans : s.trans = false)
    (old new : List UInt8) : Runs Stuck (sysLink sb cwd old new) s (Linked sb s cwd old new) := by
  unfold sysLink
  refine .bind (.modify ?_)
  refine .call (namei_runs (h.mode true) hcwd rfl old) ?_
  rintro r s1 ⟨⟨rfl, hw1⟩ | ⟨ip, rfl, hw1⟩, hfollow⟩
  · exact .bind (.modify (.pure (.failed (hw1.inv.mode false) (hw1.ends htrans)
      (fun hc => by rw [← hw1.quiet (hc.mode true).quiet]))))
  have hip1 : 0 < (s1.inode ip).ref := (hw1.toMoves.owns (fun _ => Nat.zero_le _)).used
  refine .call (ilock_runs hw1.inv hip1) ?_
  rintro _ s2 ⟨hw2, hv2, hinum2, hdisk2⟩
  have hw : Walk sb _ s2 0 (one ip) := hw1.comp (hw2.keep _)
  have hip2 : Locked s2 ip := ⟨hw2.held hip1, hv2⟩
  have htrans2 : s2.trans = true := hw.mode
  obtain ⟨hcopy, halloc⟩ := hw2.inv.synced ip hip2.used hv2
  refine .bind (.get (.ite ?_ ?_))
  · intro _
    refine .call (iput_runs hw2.inv hip2.used htrans2) ?_
    rintro _ s3 ⟨hw3, _⟩
    have hend := hw.comp hw3
    exact .bind (.modify (.pure (.failed (hw3.inv.mode false) (hend.ends htrans)
      (fun hc => by rw [← hend.quiet (hc.mode true).quiet]))))
  intro hnotdir
  refine .call (updateLink_runs hw2.inv hip2 htrans2 (· + 1)) ?_
  rintro _ s3 ⟨hinv3, hm3, hip3, hn3⟩
  have hinum3 : (s3.inode ip).inum = (s2.inode ip).inum := (hm3 0).inum hip2.used
  have htrans3 : s3.trans = true := (hm3 0).mode.trans htrans2
  have hm : Moves _ s3 0 (one ip) := hw.toMoves.comp (hm3 _)
  have hi : (s2.inode ip).inum < sb.ninodes := hw2.inv.range ip hip2.used
  -- in a calm state the disk has changed by the new link only, and it stays quiet
  have hraised : Calm sb s 0 → nodes sb s3.disk = update (nodes sb s.disk)
      (s2.inode ip).inum ((nodes sb s.disk (s2.inode ip).inum).relink (· + 1)) := by
    intro hc
    rw [hn3, hw.quiet (hc.mode true).quiet]
  have hquiet : Calm sb s 0 → Quiet sb s3 0 := by
    intro hc
    refine quiet_iff.mpr ?_
    intro m hm'
    by_cases hmi : m = (s2.inode ip).inum
    · exact ⟨ip, by rw [hinum3, hmi], hip3.used⟩
    · rw [hraised hc, update_of_ne hmi] at hm'
      obtain ⟨k, hinum, hk⟩ := quiet_iff.mp (hc.mode true).quiet m hm'
      exact ⟨k, (hm.inum hk).trans hinum, Nat.zero_lt_of_lt (hm.held hk)⟩
  -- every failure from here on goes to `bad`
  have hbad : ∀ t, Inv sb t → Moves { s with trans := true } t 0 (one ip) →
      (t.inode ip).inum = (s2.inode ip).inum →
      (Calm sb s 0 → nodes sb t.disk = nodes sb s3.disk) →
      Runs Stuck (linkBad ip) t (Linked sb s cwd old new) := by
    intro t hinv hmt hinum hsame
    refine (linkBad_runs hinv (hmt.owns (fun _ => Nat.zero_le _)).used hmt.mode).post ?_
    rintro r s' ⟨rfl, t', rfl, hinv', hmt', hback⟩
    refine .failed (hinv'.mode false) ((hmt.comp hmt').ends htrans) ?_
    intro hc
    refine hback (nodes sb s.disk) (by rw [hsame hc, hraised hc, hinum]) ?_
    intro m hidle
    obtain ⟨k, hk, hlt⟩ := quiet_iff.mp (hc.mode true).quiet m hidle
    exact ⟨k, (hmt.inum hlt).trans hk, hmt.held hlt⟩
  have hcwd3 : 0 < (s3.inode cwd).ref := Nat.zero_lt_of_lt (hm.held hcwd)
  refine .call (nameiparent_runs hinv3 hcwd3 htrans3 new) ?_
  rintro r s4 ⟨⟨rfl, hw4⟩ | ⟨dp, name, rfl, hw4, hdp4⟩, hplace⟩
  · exact hbad s4 hw4.inv (hm.comp (hw4.keep _).toMoves) ((hw4.inum hip3.used).trans hinum3)
      (fun hc => by rw [hw4.quiet (hquiet hc)])
  refine .call (ilock_runs hw4.inv hdp4.used) ?_
  rintro _ s5 ⟨hw5, _, hinum5, hdisk5⟩
  have hw' : Walk sb s3 s5 0 (one dp) := hw4.comp (hw5.keep _)
  have hdp5 : IsDir s5 dp := hw5.toMoves.isDir hdp4.used hdp4
  have hm5 : Moves _ s5 0 (one ip + one dp) := hm.comp (hw'.beside _).toMoves
  have hip5 : (s5.inode ip).inum = (s2.inode ip).inum := (hw'.inum hip3.used).trans hinum3
  have htrans5 : s5.trans = true := hw'.mode.trans htrans3
  refine .call (dirlink_nodes hw5.inv hdp5 htrans5 name hi) ?_
  rintro r s6 ⟨hinv6, hm6, hn6⟩
  have hown5 : Owns s5 (one ip + one dp) := hm5.owns (fun _ => Nat.zero_le _)
  have hm6' : Moves _ s6 0 (one ip + one dp) := hm5.comp (hm6.keep _)
  have hown6 : Owns s6 (one ip + one dp) := hm6'.owns (fun _ => Nat.zero_le _)
  have hip6 : (s6.inode ip).inum = (s2.inode ip).inum := (hm6.inum (Nat.zero_lt_of_lt hown5.first)).trans hip5
  have hdp6 : 0 < (s6.inode dp).ref := Nat.zero_lt_of_lt hown6.second
  have htrans6 : s6.trans = true := hm6.mode.trans htrans5
  have hquiet5 : Calm sb s 0 → nodes sb s5.disk = nodes sb s3.disk ∧ Quiet sb s5 (one dp) := by
    intro hc
    have hdisk := hw'.quiet (hquiet hc)
    exact ⟨by rw [hdisk], hw'.toMoves.quiet hdisk (hquiet hc)⟩
  cases r with
  | false =>
    obtain ⟨_, hsame⟩ := hn6.resolve_left (by rintro ⟨hr, _⟩; cases hr)
    refine .call (iput_runs hinv6 hdp6 htrans6) ?_
    rintro _ s7 ⟨hw7, _⟩
    refine hbad s7 hw7.inv (hm6'.comp (hw7.release _).toMoves)
      ((hw7.inum hown6.first).trans hip6) ?_
    intro hc
    obtain ⟨hnodes5, hq5⟩ := hquiet5 hc
    have hnodes6 := hsame (Or.inr (hq5.mono (fun _ => Nat.zero_le _)))
    have hq6 : Quiet sb s6 (one dp) :=
      (hm6.keep _).quiet_nodes hq5 (fun m => by rw [hnodes6]; exact fun hidle => hidle)
    rw [hw7.quiet hq6, hnodes6, hnodes5]
  | true =>
    obtain ⟨_, habsent, j, hat, hlinked⟩ := hn6.resolve_right (by rintro ⟨hr, _⟩; cases hr)
    refine .call (iput_runs hinv6 hdp6 htrans6) ?_
    rintro _ s7 ⟨hw7, _⟩
    have hw7' : Walk sb s6 s7 (one ip + one dp) (one ip) := hw7.release _
    refine .call (iput_runs hw7.inv (Nat.zero_lt_of_lt (hw7.held hown6.first))
      (hw7.mode.trans htrans6)) ?_
    rintro _ s8 ⟨hw8, _⟩
    have hdrop := hw7'.comp hw8
    refine .bind (.modify (.pure (.linked (s2.inode ip).inum (s5.inode dp).inum name
      (hw8.inv.mode false) ((hm6'.comp hdrop.toMoves).ends htrans) ?_)))
    intro hc
    have hdisk2 : s2.disk = s.disk := hw.quiet (hc.mode true).quiet
    rw [hw5.inv.dir_eq hdp5.used] at habsent hat
    have hnodes5 := (hquiet5 hc).1.trans (hraised hc)
    have hparent : (nodes sb s5.disk (s5.inode dp).inum).type = .dir := by
      rw [← hw5.inv.type_eq hdp5.used]
      exact hdp5.dir
    have htype : (nodes sb s.disk (s2.inode ip).inum).type = (s2.inode ip).copy.type := by
      rw [hcopy, hw2.inv.type_eq hip2.used, hdisk2]
    have hne : (s5.inode dp).inum ≠ (s2.inode ip).inum := by
      intro heq
      rw [heq, hnodes5, update_self] at hparent
      exact hnotdir (htype.symm.trans hparent)
    rw [hnodes5, update_of_ne hne] at hparent habsent hat hlinked
    refine ⟨⟨?_, ?_, hparent, habsent, ?_⟩, ?_, ?_⟩
    · rw [htype, hcopy]
      exact halloc
    · rw [htype]
      exact hnotdir
    · intro hlink
      refine ⟨j, hat, ?_⟩
      have hidle : ∀ m, (nodes sb s6.disk m).Idle → (nodes sb s.disk m).Idle := by
        intro m hm'
        rw [hlinked] at hm'
        by_cases hmp : m = (s5.inode dp).inum
        · rw [hmp, update_self] at hm'
          rw [hmp]
          exact ⟨hm'.1, hm'.2⟩
        · rw [update_of_ne hmp] at hm'
          by_cases hmi : m = (s2.inode ip).inum
          · rw [hmi, update_self] at hm'
            have hneg : (nodes sb s.disk (s2.inode ip).inum).nlink = 0 - 1 := by
              rw [← hm'.2]
              exact (Int16.add_sub_cancel _ _).symm
            exact absurd hneg hlink
          · rw [update_of_ne hmi] at hm'
            exact hm'
      have hq6 := hm6'.quiet_nodes (hc.mode true).quiet hidle
      rw [show ({ s8 with trans := false } : Fs).disk = s8.disk from rfl, hdrop.quiet hq6, hlinked]
    · exact (hfollow (hc.mode true).quiet).symm.trans (congrArg some hinum2.symm)
    · have hpath := hplace (hquiet hc)
      rw [hraised hc, ← (sameDirs_relink (nodes sb s.disk) (s2.inode ip).inum (· + 1)).follow_eq] at hpath
      rw [place, Option.map_some, ← hinum5] at hpath
      have hstart : start s3 cwd new = start s cwd new := by
        unfold start
        rw [hm.inum hcwd]
      rw [← hstart, ← hpath]

/-! ## `sys_unlink` -/

theorem unlinkBad_runs (h : Inv sb s) (hdp : 0 < (s.inode dp).ref) (htrans : s.trans = true) :
    Runs E (unlinkBad dp) s (fun r s' => r = -1 ∧ ∃ s1, s' = { s1 with trans := false } ∧
      Walk sb s s1 (one dp) 0) := by
  unfold unlinkBad
  refine .call (iput_runs h hdp htrans) ?_
  rintro _ s1 ⟨hw, _⟩
  exact .bind (.modify (.pure ⟨rfl, s1, rfl, hw⟩))

/-- The directory after entry `j` has been cleared, and the link from the `..` of a directory
that is removed. -/
def Node.orphan (n : Node) (type : FileType) (j : Nat) : Node :=
  (n.write j (List.replicate DIRENT 0)).relink (fun l => if type = .dir then l - 1 else l)

theorem unlinkParent_runs (h : Inv sb s) (hdp : Locked s dp) (hip : Locked s ip)
    (htrans : s.trans = true) :
    Runs E (unlinkParent dp ip) s (fun _ s' => Inv sb s' ∧ (∀ a, Moves s s' a a) ∧
      nodes sb s'.disk = update (nodes sb s.disk) (s.inode dp).inum
        ((nodes sb s.disk (s.inode dp).inum).relink
          (fun l => if (nodes sb s.disk (s.inode ip).inum).type = .dir then l - 1 else l))) := by
  have htype : (s.inode ip).copy.type = (nodes sb s.disk (s.inode ip).inum).type := by
    rw [(h.synced ip hip.used hip.valid).1, h.type_eq hip.used]
  unfold unlinkParent
  refine .bind (.get (.ite ?_ ?_))
  · intro hdir
    refine (updateLink_runs h hdp htrans (· - 1)).post ?_
    rintro _ s' ⟨hinv, hm, _, hn⟩
    refine ⟨hinv, hm, hn.trans ?_⟩
    simp only [← htype, hdir, if_true]
  · intro hdir
    refine .pure ⟨h, Moves.refl s, ?_⟩
    rw [htype] at hdir
    simp only [hdir, if_false]
    exact (update_eq_self _ _).symm

/-- The name space after entry `j` of directory `p`, which was a link to inode `i`, has been
removed. -/
def detach (N : Nat → Node) (i p j : Nat) : Nat → Node :=
  update (update N p ((N p).orphan (N i).type j)) i ((N i).relink (· - 1))

theorem Node.orphan_idle {type : FileType} (h : (n.orphan type j).Idle)
    (hlink : type = .dir → n.nlink ≠ 1) : n.Idle := by
  refine ⟨h.1, ?_⟩
  have hzero : (if type = .dir then n.nlink - 1 else n.nlink) = 0 := h.2
  split at hzero
  · rename_i hdir
    have hone : n.nlink = 0 + 1 := by rw [← hzero, Int16.sub_add_cancel]
    exact absurd hone (hlink hdir)
  · exact hzero

theorem unlinkEntry_runs (h : Inv sb s) (hdp : IsDir s dp) (hip : Locked s ip)
    (hown : Owns s (one dp + one ip)) (htrans : s.trans = true) (hj : j < (s.dir dp).length) :
    Runs E (unlinkEntry sb dp ip (j * DIRENT)) s (fun r s' => r = 0 ∧ ∃ s1,
      s' = { s1 with trans := false } ∧ Inv sb s1 ∧ Moves s s1 (one dp + one ip) 0 ∧
      (Calm sb s (one dp + one ip) → (s.inode dp).inum ≠ (s.inode ip).inum →
        ((nodes sb s.disk (s.inode ip).inum).type = .dir →
          (nodes sb s.disk (s.inode dp).inum).nlink ≠ 1) →
        nodes sb s1.disk =
          if (s.inode ip).ref = 1 ∧ (nodes sb s.disk (s.inode ip).inum).nlink = 1 then
            update (detach (nodes sb s.disk) (s.inode ip).inum (s.inode dp).inum j)
              (s.inode ip).inum .vacant
          else detach (nodes sb s.disk) (s.inode ip).inum (s.inode dp).inum j)) := by
  unfold unlinkEntry
  have hzero : (Entry.ofBytes (List.replicate DIRENT 0)).inum < sb.ninodes := by
    rw [ofBytes_zeroes]
    exact Nat.zero_lt_of_lt h.root
  refine .call (writeEntry_runs h hdp htrans hj.le (List.length_replicate) hzero) ?_
  intro r s1 hwrite
  have hr := hwrite.inside hj
  refine .ite (fun hne => absurd hr hne) ?_
  intro _
  have hdp1 : IsDir s1 dp := (hwrite.moves 0).isDir hdp.used hdp
  have hip1 : Locked s1 ip := (hwrite.moves 0).locked hip.used hip
  have htrans1 : s1.trans = true := (hwrite.moves 0).mode.trans htrans
  refine .call (unlinkParent_runs hwrite.inv hdp1.toLocked hip1 htrans1) ?_
  rintro _ s2 ⟨hinv2, hm2, hn2⟩
  have hm : Moves s s2 (one dp + one ip) (one dp + one ip) := (hwrite.moves _).comp (hm2 _)
  have hown2 := hm.owns hown
  refine .call (iput_runs hinv2 (Nat.zero_lt_of_lt hown2.first) (hm.mode.trans htrans)) ?_
  rintro _ s3 ⟨hw3, _⟩
  have hip3 : Locked s3 ip := hw3.toMoves.locked hown2.second ((hm2 0).locked hip1.used hip1)
  have htrans3 : s3.trans = true := hw3.mode.trans (hm.mode.trans htrans)
  refine .call (updateLink_runs hw3.inv hip3 htrans3 (· - 1)) ?_
  rintro _ s4 ⟨hinv4, hm4, hip4, hn4⟩
  refine .call (iput_runs hinv4 hip4.used ((hm4 0).mode.trans htrans3)) ?_
  rintro _ s5 ⟨hw5, hput5⟩
  have hm4' : Moves s s4 (one dp + one ip) (one ip) := hm.comp ((hw3.leave _).toMoves.comp (hm4 _))
  refine .bind (.modify (.pure ⟨rfl, s5, rfl, hw5.inv, hm4'.comp hw5.toMoves, ?_⟩))
  intro hc hne hlink
  have hdpip : ip ≠ dp := fun heq => hne (by rw [heq])
  have hn1 := hwrite.nodes_written h hdp.used hr
  rw [(hwrite.moves 0).inum hdp.used, (hwrite.moves 0).inum hip.used, hn1, update_self,
    update_of_ne hne.symm, update_idem] at hn2
  have hn2' : nodes sb s2.disk = update (nodes sb s.disk) (s.inode dp).inum
      ((nodes sb s.disk (s.inode dp).inum).orphan (nodes sb s.disk (s.inode ip).inum).type j) := hn2
  -- the parent stays, so the first `iput` does not free it
  have hq2 : Quiet sb s2 (one dp + one ip) := by
    refine hm.quiet_nodes hc.quiet ?_
    intro m hm'
    rw [hn2'] at hm'
    by_cases hmp : m = (s.inode dp).inum
    · rw [hmp, update_self] at hm'
      rw [hmp]
      exact Node.orphan_idle hm' hlink
    · rw [update_of_ne hmp] at hm'
      exact hm'
  have hdisk3 : s3.disk = s2.disk := (hw3.leave (one ip)).quiet hq2
  have hinum3 : (s3.inode ip).inum = (s.inode ip).inum := by
    rw [hw3.inum hown2.second, (hm2 0).inum hip1.used, (hwrite.moves 0).inum hip.used]
  rw [hdisk3, hinum3, hn2', update_of_ne hne.symm] at hn4
  have hn4' : nodes sb s4.disk = detach (nodes sb s.disk) (s.inode ip).inum (s.inode dp).inum j := hn4
  have hinum4 : (s4.inode ip).inum = (s.inode ip).inum := ((hm4 0).inum hip3.used).trans hinum3
  have href : (s4.inode ip).ref = (s.inode ip).ref := by
    have := hm4'.ref ip
    rw [Pi.add_apply, one_self, one_of_ne hdpip] at this
    omega
  have hlast : Last s4 ip ↔ (s.inode ip).ref = 1 ∧
      (nodes sb s.disk (s.inode ip).inum).nlink = 1 := by
    rw [hinv4.last_iff hip4, href, hinum4, hn4', detach, update_self]
    refine and_congr_right (fun _ => ?_)
    show (nodes sb s.disk (s.inode ip).inum).nlink - 1 = 0 ↔ _
    refine ⟨fun hzero => ?_, fun hone => by rw [hone]; rfl⟩
    have hone : (nodes sb s.disk (s.inode ip).inum).nlink = 0 + 1 := by
      rw [← hzero, Int16.sub_add_cancel]
    exact hone
  split
  · rename_i hcond
    rw [hput5.nodes_last hinv4 hip4.used (hlast.mpr hcond), hinum4, hn4']
  · rename_i hcond
    rw [hput5.nodes_kept (fun hl => hcond (hlast.mp hl)), hn4']

/-- Somebody has a reference to inode `i`. -/
def Held (s : Fs) (i : Nat) : Prop := ∃ k, (s.inode k).inum = i ∧ 0 < (s.inode k).ref

/-- Entry `j` of directory `p`, with the name `name`, was a link to inode `i` and is removed.
The inode is freed if this was its last link and nobody holds it. -/
structure Removal (N : Nat → Node) (held : Prop) (name : List UInt8) (i p j : Nat)
    (N' : Nat → Node) : Prop where
  parent : (N p).type = .dir
  plain : namecmp name [dot] ≠ 0 ∧ namecmp name [dot, dot] ≠ 0
  found : ∃ e, Found (entries (N p).data) name e j ∧ e.inum = i
  alloc : (N i).type ≠ .free
  linked : ¬ (N i).nlink < 1
  empty : (N i).type = .dir → ∀ m e, 2 ≤ m → (entries (N i).data)[m]? = some e → e.inum = 0
  last : p ≠ i → ((N i).type = .dir → (N p).nlink ≠ 1) → ¬ held → (N i).nlink = 1 →
    N' = update (detach N i p j) i .vacant
  kept : p ≠ i → ((N i).type = .dir → (N p).nlink ≠ 1) → held ∨ (N i).nlink ≠ 1 →
    N' = detach N i p j

/-- What `sys_unlink` does. -/
inductive Unlinked (sb : Superblock) (s : Fs) (cwd : Slot) (path : List UInt8) : Int → Fs → Prop
  | failed {s' : Fs} (inv : Inv sb s') (moves : Moves s s' 0 0)
      (calm : Calm sb s 0 → nodes sb s'.disk = nodes sb s.disk) : Unlinked sb s cwd path (-1) s'
  | removed {s' : Fs} (i p j : Nat) (name : List UInt8) (inv : Inv sb s') (moves : Moves s s' 0 0)
      (calm : Calm sb s 0 →
        Removal (nodes sb s.disk) (Held s i) name i p j (nodes sb s'.disk) ∧
        follow (nodes sb s.disk) true (start s cwd path) (components path) = some (p, name)) :
      Unlinked sb s cwd path 0 s'

theorem Unlinked.run {path : List UInt8} {r : Int} (h : Unlinked sb s cwd path r s') :
    Inv sb s' ∧ Moves s s' 0 0 := by
  cases h with
  | failed inv moves _ => exact ⟨inv, moves⟩
  | removed _ _ _ _ inv moves _ => exact ⟨inv, moves⟩

/-- A directory has an entry for an inode without links. -/
def Dangling (N : Nat → Node) : Prop :=
  ∃ p e, (N p).type = .dir ∧ e ∈ entries (N p).data ∧ e.inum ≠ 0 ∧ (N e.inum).nlink < 1

/-- The panics of `sys_unlink`. -/
def UnlinkStuck (sb : Superblock) (s : Fs) (e : Panic) : Prop :=
  Stuck e ∨ (e = .unlinkNlink ∧ (Calm sb s 0 → Dangling (nodes sb s.disk)))

theorem sysUnlink_runs (h : Inv sb s) (hcwd : 0 < (s.inode cwd).ref) (htrans : s.trans = false)
    (path : List UInt8) :
    Runs (UnlinkStuck sb s) (sysUnlink sb cwd path) s (Unlinked sb s cwd path) := by
  have hstuck : ∀ e, Stuck e → UnlinkStuck sb s e := fun e he => Or.inl he
  unfold sysUnlink
  refine .bind (.modify ?_)
  refine .call ((nameiparent_runs (h.mode true) hcwd rfl path).errors hstuck) ?_
  rintro r s1 ⟨⟨rfl, hw1⟩ | ⟨dp, name, rfl, hw1, hdp1⟩, hplace⟩
  · exact .bind (.modify (.pure (.failed (hw1.inv.mode false) (hw1.ends htrans)
      (fun hc => by rw [← hw1.quiet (hc.mode true).quiet]))))
  refine .call ((ilock_runs hw1.inv hdp1.used).errors hstuck) ?_
  rintro _ s2 ⟨hw2, _, hinum2, _⟩
  have hw : Walk sb _ s2 0 (one dp) := hw1.comp (hw2.keep _)
  have hdp2 : IsDir s2 dp := hw2.toMoves.isDir hdp1.used hdp1
  -- every failure goes to `bad`
  have hbad : ∀ t, Walk sb { s with trans := true } t 0 (one dp) →
      Runs (UnlinkStuck sb s) (unlinkBad dp) t (Unlinked sb s cwd path) := by
    intro t hwt
    refine (unlinkBad_runs hwt.inv (hwt.toMoves.owns (fun _ => Nat.zero_le _)).used hwt.mode).post ?_
    rintro r s' ⟨rfl, t', rfl, hwt'⟩
    have hend := hwt.comp hwt'
    exact .failed (hwt'.inv.mode false) (hend.ends htrans)
      (fun hc => by rw [← hend.quiet (hc.mode true).quiet])
  refine .ite (fun _ => hbad s2 hw) ?_
  intro hplain
  rw [not_or] at hplain
  refine .call ((dirlookup_runs hw2.inv hdp2 name).errors hstuck) ?_
  rintro r s3 (⟨rfl, hs, _⟩ | ⟨ip, e, j, rfl, hfound, hw3, hinum3, hdisk3⟩)
  · obtain rfl := hs.symm
    exact hbad s2 hw
  have hw' : Walk sb _ s3 0 (one dp + one ip) := hw.comp (hw3.beside _)
  have hown3 : Owns s3 (one dp + one ip) := hw'.toMoves.owns (fun _ => Nat.zero_le _)
  refine .call ((ilock_runs hw3.inv (Nat.zero_lt_of_lt hown3.second)).errors hstuck) ?_
  rintro _ s4 ⟨hw4, hv4, hinum4, hdisk4⟩
  have hw4' : Walk sb _ s4 0 (one dp + one ip) := hw'.comp (hw4.keep _)
  have hown4 : Owns s4 (one dp + one ip) := hw4'.toMoves.owns (fun _ => Nat.zero_le _)
  have hip4 : Locked s4 ip := ⟨Nat.zero_lt_of_lt hown4.second, hv4⟩
  obtain ⟨hcopy, halloc⟩ := hw4.inv.synced ip hip4.used hv4
  have hdp4 : IsDir s4 dp :=
    hw4.toMoves.isDir (Nat.zero_lt_of_lt hown3.first) (hw3.toMoves.isDir hdp2.used hdp2)
  have hdisk : s4.disk = s2.disk := hdisk4.trans hdisk3
  have hip : (s4.inode ip).inum = e.inum := hinum4.trans hinum3
  have hdp : (s4.inode dp).inum = (s2.inode dp).inum :=
    (hw4.inum (Nat.zero_lt_of_lt hown3.first)).trans (hw3.inum hdp2.used)
  have hdir : s4.dir dp = s2.dir dp := by
    rw [Fs.dir, Fs.dir, hdisk, hdp]
  rw [← hdir] at hfound
  have hj : j < (s4.dir dp).length := (List.getElem?_eq_some_iff.mp hfound.here).1
  have hsame : Calm sb s 0 → s4.disk = s.disk := fun hc => hw4'.quiet (hc.mode true).quiet
  have hnode : nodeAt s4.disk e.inum = nodes sb s4.disk e.inum := by
    rw [← hip, nodes_of_lt (hw4.inv.range ip hip4.used)]
  have hparent : (nodes sb s4.disk (s4.inode dp).inum).type = .dir := by
    rw [← hw4.inv.type_eq hdp4.used]
    exact hdp4.dir
  have hentries : s4.dir dp = entries (nodes sb s4.disk (s4.inode dp).inum).data :=
    hw4.inv.dir_eq hdp4.used
  refine .bind (.get (.ite ?_ ?_))
  · intro hlink
    refine .throw (Or.inr ⟨rfl, ?_⟩)
    intro hc
    rw [← hsame hc]
    refine ⟨(s4.inode dp).inum, e, hparent, ?_, hfound.named.1, ?_⟩
    · rw [← hentries]
      exact List.mem_of_getElem? hfound.here
    · rw [hcopy, hip] at hlink
      rw [← hnode]
      exact hlink
  intro hlink
  have hremove : ((nodes sb s4.disk e.inum).type = .dir → ∀ m e', 2 ≤ m →
        (entries (nodes sb s4.disk e.inum).data)[m]? = some e' → e'.inum = 0) →
      Runs (UnlinkStuck sb s) (unlinkEntry sb dp ip (j * DIRENT)) s4 (Unlinked sb s cwd path) := by
    intro hempty
    refine (unlinkEntry_runs hw4.inv hdp4 hip4 hown4 hw4'.mode hj).post ?_
    rintro r s' ⟨rfl, s5, rfl, hinv, hm, hn⟩
    refine .removed e.inum (s4.inode dp).inum j name (hinv.mode false)
      ((hw4'.toMoves.comp hm).ends htrans) ?_
    intro hc
    have hnodes := hn (hw4'.calm (hc.mode true))
    have hpath := hplace (hc.mode true).quiet
    rw [hip] at hnodes
    rw [hsame hc] at hparent hentries hnodes hempty hnode halloc
    have hslot : (s4.inode dp).inum ≠ e.inum → (s4.inode ip).ref = (s.inode ip).ref + 1 := by
      intro hne
      have hdpip : ip ≠ dp := fun heq => hne (by rw [← heq, hip])
      have := hw4'.ref ip
      rw [Pi.add_apply, one_self, one_of_ne hdpip, Pi.zero_apply] at this
      omega
    have hheld : Held s e.inum ↔ 0 < (s.inode ip).ref := by
      refine ⟨?_, fun hpos => ⟨ip, (hw4'.inum hpos).symm.trans hip, hpos⟩⟩
      rintro ⟨k, hk, hpos⟩
      have hk4 : (s4.inode k).inum = (s4.inode ip).inum := by
        rw [hip, ← hk]
        exact hw4'.inum hpos
      have hkip : k = ip :=
        hw4.inv.unique k ip (Nat.zero_lt_of_lt (hw4'.held hpos)) hip4.used hk4
      rw [← hkip]
      exact hpos
    refine ⟨⟨hparent, hplain, ⟨e, by rw [← hentries]; exact hfound, rfl⟩, ?_, ?_, hempty, ?_, ?_⟩, ?_⟩
    · rw [← hnode, ← hip]
      exact halloc
    · rw [← hnode]
      rw [hcopy, hip, hsame hc] at hlink
      exact hlink
    · intro hne hparentlink hnot hone
      have hzero : (s.inode ip).ref = 0 := Nat.eq_zero_of_not_pos (fun hpos => hnot (hheld.mpr hpos))
      rw [hnodes hne hparentlink, if_pos ⟨by rw [hslot hne, hzero], hone⟩]
    · intro hne hparentlink hkeep
      rw [hnodes hne hparentlink, if_neg]
      rintro ⟨href, hone⟩
      rw [hslot hne] at href
      rcases hkeep with hk | hk
      · have := hheld.mp hk
        omega
      · exact hk hone
    · rw [hdp, hinum2]
      exact hpath.symm
  refine .ite ?_ ?_
  · intro htype
    have hisdir : IsDir s4 ip := hw4.inv.isDir hip4 htype
    refine .call (isdirempty_runs hw4.inv hisdir) ?_
    rintro r s5 ⟨hs, hempty⟩
    obtain rfl := hs.symm
    cases r with
    | true =>
      refine hremove ?_
      intro _
      rw [← hip, ← hw4.inv.dir_eq hip4.used]
      exact hempty.mp rfl
    | false =>
      refine .call (iput_runs hw4.inv hip4.used hw4'.mode) ?_
      rintro _ s6 ⟨hw6, _⟩
      exact hbad s6 (hw4'.comp (hw6.release _))
  · intro htype
    refine hremove ?_
    intro hisdir
    rw [← hnode] at hisdir
    rw [hcopy, hip] at htype
    exact absurd hisdir htype

end Xv6.Names
