import Xv6.Names.Resolve

/-!
# Paths

`namex` walks along a path with one reference at a time: it owns the inode that it has
reached, takes the next one, and drops the old one.  It returns with a reference to the
inode that it has found, or with none.
-/

namespace Xv6.Names

open Xv6.Lib Xv6.FileSystem Xv6.FileSystem.Disk

variable {sb : Superblock} {s s' : Fs} {a b u : Slot → Nat} {k ip : Slot}

/-! ## Owned references -/

/-- The running code has these references. -/
def Owns (s : Fs) (a : Slot → Nat) : Prop := ∀ k, a k ≤ (s.inode k).ref

theorem owns_one (hk : 0 < (s.inode k).ref) : Owns s (one k) := by
  intro l
  by_cases hl : l = k
  · rw [hl, one_self]
    exact hk
  · rw [one_of_ne hl]
    exact Nat.zero_le _

theorem Owns.used (h : Owns s (one k)) : 0 < (s.inode k).ref := by
  have := h k
  rw [one_self] at this
  exact this

/-- The first of two references is not the second. -/
theorem Owns.first (h : Owns s (one ip + one k)) : one k ip < (s.inode ip).ref := by
  have := h ip
  rw [Pi.add_apply, one_self] at this
  omega

theorem Owns.second (h : Owns s (one ip + one k)) : one ip k < (s.inode k).ref := by
  have := h k
  rw [Pi.add_apply, one_self] at this
  exact this

theorem Moves.owns (h : Moves s s' a b) (ho : Owns s a) : Owns s' b := by
  intro k
  have := h.ref k
  have := ho k
  omega

/-- A walk that keeps its references, with more references. -/
theorem Walk.keep (h : Walk sb s s' 0 0) (a : Slot → Nat) : Walk sb s s' a a :=
  (h.add a).congr (fun _ => (Nat.zero_add _).symm) (fun _ => (Nat.zero_add _).symm)

/-- Moves that keep their references, with more references. -/
theorem Moves.keep (h : Moves s s' 0 0) (a : Slot → Nat) : Moves s s' a a :=
  (h.add a).congr (fun _ => (Nat.zero_add _).symm) (fun _ => (Nat.zero_add _).symm)

/-- An inode that is read and is a directory in memory is one on the disk. -/
theorem Inv.isDir (h : Inv sb s) (hk : Locked s k) (htype : (s.inode k).copy.type = .dir) :
    IsDir s k :=
  ⟨hk, by rw [← (h.synced k hk.used hk.valid).1]; exact htype⟩

/-- A new reference, next to an old one. -/
theorem Walk.beside (h : Walk sb s s' 0 b) (a : Slot → Nat) : Walk sb s s' a (a + b) :=
  (h.add a).congr (fun _ => (Nat.zero_add _).symm) (fun _ => Nat.add_comm _ _)

/-- A reference is dropped, next to another one. -/
theorem Walk.leave (h : Walk sb s s' a 0) (b : Slot → Nat) : Walk sb s s' (a + b) b :=
  (h.add b).congr (fun _ => rfl) (fun _ => (Nat.zero_add _).symm)

/-- A reference is dropped, and others are kept. -/
theorem Walk.release (h : Walk sb s s' a 0) (b : Slot → Nat) : Walk sb s s' (b + a) b :=
  (h.add b).congr (fun _ => Nat.add_comm _ _) (fun _ => (Nat.zero_add _).symm)

/-! ## `namex` -/

/-- Every element takes a byte from the path. -/
theorem skipelem_length {path name rest : List UInt8} (h : skipelem path = some (name, rest)) :
    rest.length < path.length := by
  unfold skipelem at h
  dsimp only at h
  split at h
  · cases h
  rename_i hne
  cases h
  have hle : (path.dropWhile (· = slash)).length ≤ path.length :=
    (List.dropWhile_sublist _).length_le
  cases hpath : path.dropWhile (· = slash) with
  | nil => exact absurd hpath hne
  | cons c t =>
    have hc : c ≠ slash := by
      have := List.head_dropWhile_not (fun b => decide (b = slash)) hne
      simp only [hpath, List.head_cons, decide_eq_false_iff_not] at this
      exact this
    rw [hpath, List.length_cons] at hle
    rw [List.dropWhile_cons_of_pos (by simpa using hc)]
    have h1 := (List.dropWhile_sublist (l := t) (fun b => decide (b ≠ slash))).length_le
    have h2 := (List.dropWhile_sublist (l := t.dropWhile (fun b => decide (b ≠ slash)))
      (fun b => decide (b = slash))).length_le
    omega

/-- What `namex` returns.  The parent of a path is a directory, and it is read. -/
def Reached (sb : Superblock) (nameiparent : Bool) (s : Fs) (a : Slot → Nat)
    (r : Option (Slot × List UInt8)) (s' : Fs) : Prop :=
  (r = none ∧ Walk sb s s' a 0) ∨
    ∃ k name, r = some (k, name) ∧ Walk sb s s' a (one k) ∧ (nameiparent = true → IsDir s' k)

/-- The inode that `namex` returns, and the last name. -/
def place (s : Fs) (r : Option (Slot × List UInt8)) : Option (Nat × List UInt8) :=
  r.map (fun q => ((s.inode q.1).inum, q.2))

theorem namexLoop_runs (nameiparent : Bool) (rounds : Nat) :
    ∀ {s : Fs} (ip : Slot) (path : List UInt8), path.length < rounds → Inv sb s →
      0 < (s.inode ip).ref → s.trans = true →
      Runs Stuck (namexLoop sb nameiparent rounds ip path) s
        (fun r s' => Reached sb nameiparent s (one ip) r s' ∧ (Quiet sb s (one ip) →
          place s' r = follow (nodes sb s.disk) nameiparent (s.inode ip).inum (components path))) := by
  induction rounds with
  | zero =>
    intro s ip path hlen
    exact absurd hlen (Nat.not_lt_zero _)
  | succ rounds ih =>
    intro s ip path hlen h hip htrans
    unfold namexLoop
    split
    · -- the end of the path
      rename_i hskip
      rw [skipelem_none hskip, follow]
      split
      · refine .call (iput_runs h hip htrans) ?_
        rintro _ s' ⟨hw, _⟩
        exact .pure ⟨Or.inl ⟨rfl, hw⟩, fun _ => rfl⟩
      · rename_i hnot
        refine .pure ⟨Or.inr ⟨ip, [], rfl, Walk.refl h _, ?_⟩, fun _ => rfl⟩
        intro hnp
        exact absurd hnp hnot
    · rename_i name rest hskip
      have hrest := skipelem_length hskip
      obtain ⟨hcomponents, hlast⟩ := skipelem_some hskip
      rw [hcomponents, follow]
      refine .call (ilock_runs h hip) ?_
      rintro _ s1 ⟨hw1, hv, hinum1, hdisk1⟩
      have hip1 : 0 < (s1.inode ip).ref := hw1.held hip
      have htrans1 := hw1.mode.trans htrans
      have hcopy := (hw1.inv.synced ip hip1 hv).1
      have htype : (s1.inode ip).copy.type = (nodes sb s.disk (s.inode ip).inum).type := by
        rw [hcopy, hw1.inv.type_eq hip1, hdisk1, hinum1]
      -- every failure drops the inode that has been reached
      have hdrop : ∀ o, o = none → Runs Stuck (do iput ip; pure none) s1 (fun r s' =>
          Reached sb nameiparent s (one ip) r s' ∧ (Quiet sb s (one ip) → place s' r = o)) := by
        rintro _ rfl
        refine .call (iput_runs hw1.inv hip1 htrans1) ?_
        rintro _ s' ⟨hw, _⟩
        exact .pure ⟨Or.inl ⟨rfl, (hw1.keep _).comp hw⟩, fun _ => rfl⟩
      refine .bind (.get ?_)
      split
      · rename_i hdir
        rw [htype] at hdir
        exact hdrop _ (if_neg hdir)
      rename_i hdir
      have hisdir : IsDir s1 ip := hw1.inv.isDir ⟨hip1, hv⟩ (not_not.mp hdir)
      have hdir' : (nodes sb s.disk (s.inode ip).inum).type = .dir := htype ▸ not_not.mp hdir
      rw [if_pos hdir']
      split
      · rename_i hend
        refine .pure ⟨Or.inr ⟨ip, name, rfl, hw1.keep _, fun _ => hisdir⟩, fun _ => ?_⟩
        rw [place, Option.map_some, hinum1, if_pos ⟨hend.1, hlast.mp hend.2⟩]
      rename_i hend
      rw [if_neg (fun hnil => hend ⟨hnil.1, hlast.mpr hnil.2⟩)]
      refine .call (dirlookup_runs hw1.inv hisdir name) ?_
      rintro r s2 (⟨rfl, hs, habsent⟩ | ⟨next, e, j, rfl, hfound, hw2, hinum2, hdisk2⟩)
      · obtain rfl := hs.symm
        rw [hw1.inv.dir_eq hip1, hdisk1, hinum1] at habsent
        exact hdrop _ (by rw [lookup_absent habsent]; rfl)
      · rw [hw1.inv.dir_eq hip1, hdisk1, hinum1] at hfound
        have hstep := (hw1.keep (one ip)).comp (hw2.beside (one ip))
        have hown : Owns s2 (one ip + one next) := hstep.toMoves.owns (owns_one hip)
        have hip2 : 0 < (s2.inode ip).ref := Nat.zero_lt_of_lt (hw2.held hip1)
        refine .call (iput_runs hw2.inv hip2 (hw2.mode.trans htrans1)) ?_
        rintro _ s3 ⟨hw3, _⟩
        have hnext : 0 < (s3.inode next).ref := hw3.held hown.second
        refine (ih next rest (by omega) hw3.inv hnext
          (hw3.mode.trans (hw2.mode.trans htrans1))).post ?_
        have hreach := hstep.comp (hw3.leave (one next))
        rintro r' s' ⟨hr', hplace⟩
        refine ⟨?_, ?_⟩
        · rcases hr' with ⟨rfl, hw4⟩ | ⟨k, n, rfl, hw4, hk⟩
          · exact Or.inl ⟨rfl, hreach.comp hw4⟩
          · exact Or.inr ⟨k, n, rfl, hreach.comp hw4, hk⟩
        · intro hq
          have hdisk3 : s3.disk = s.disk := hreach.quiet hq
          have hinum3 : (s3.inode next).inum = e.inum := by
            rw [hw3.inum hown.second, hinum2]
          rw [hplace (hreach.toMoves.quiet hdisk3 hq), hdisk3, hinum3, lookup_found hfound]
          rfl

/-- Where a path starts. -/
def start (s : Fs) (cwd : Slot) (path : List UInt8) : Nat :=
  if path.head? = some slash then ROOTINO else (s.inode cwd).inum

theorem namexStart_runs (h : Inv sb s) {cwd : Slot} (hcwd : 0 < (s.inode cwd).ref)
    (path : List UInt8) :
    Runs Stuck (namexStart cwd path) s (fun k s' => Walk sb s s' 0 (one k) ∧
      (s'.inode k).inum = start s cwd path ∧ s'.disk = s.disk) := by
  unfold start
  refine .ite ?_ ?_
  · intro hroot
    rw [if_pos hroot]
    exact iget_runs h h.root
  · intro hroot
    rw [if_neg hroot]
    refine (idup_runs h hcwd).post ?_
    rintro k s' ⟨rfl, hw⟩
    exact hw

theorem namex_runs (h : Inv sb s) {cwd : Slot} (hcwd : 0 < (s.inode cwd).ref)
    (htrans : s.trans = true) (nameiparent : Bool) (path : List UInt8) :
    Runs Stuck (namex sb cwd nameiparent path) s (fun r s' => Reached sb nameiparent s 0 r s' ∧
      (Quiet sb s 0 → place s' r =
        follow (nodes sb s.disk) nameiparent (start s cwd path) (components path))) := by
  refine .call (namexStart_runs h hcwd path) ?_
  rintro ip s1 ⟨hw1, hinum, hdisk⟩
  have hip : 0 < (s1.inode ip).ref := (hw1.toMoves.owns (fun _ => Nat.zero_le _)).used
  refine (namexLoop_runs nameiparent _ ip path (Nat.lt_succ_self _) hw1.inv hip
    (hw1.mode.trans htrans)).post ?_
  rintro r s' ⟨hr, hplace⟩
  refine ⟨?_, ?_⟩
  · rcases hr with ⟨rfl, hw⟩ | ⟨k, n, rfl, hw, hk⟩
    · exact Or.inl ⟨rfl, hw1.comp hw⟩
    · exact Or.inr ⟨k, n, rfl, hw1.comp hw, hk⟩
  · intro hq
    rw [hplace (hw1.toMoves.quiet hdisk hq), hdisk, hinum]

theorem namei_runs (h : Inv sb s) {cwd : Slot} (hcwd : 0 < (s.inode cwd).ref)
    (htrans : s.trans = true) (path : List UInt8) :
    Runs Stuck (namei sb cwd path) s (fun r s' => ((r = none ∧ Walk sb s s' 0 0) ∨
      ∃ k, r = some k ∧ Walk sb s s' 0 (one k)) ∧
      (Quiet sb s 0 → r.map (fun k => (s'.inode k).inum) =
        (follow (nodes sb s.disk) false (start s cwd path) (components path)).map Prod.fst)) := by
  refine .call (namex_runs h hcwd htrans false path) ?_
  rintro r s' ⟨hr, hplace⟩
  refine .pure ⟨?_, ?_⟩
  · rcases hr with ⟨rfl, hw⟩ | ⟨k, n, rfl, hw, _⟩
    · exact Or.inl ⟨rfl, hw⟩
    · exact Or.inr ⟨k, rfl, hw⟩
  · intro hq
    rw [← hplace hq, place, Option.map_map, Option.map_map]
    rfl

theorem nameiparent_runs (h : Inv sb s) {cwd : Slot} (hcwd : 0 < (s.inode cwd).ref)
    (htrans : s.trans = true) (path : List UInt8) :
    Runs Stuck (nameiparent sb cwd path) s (fun r s' => ((r = none ∧ Walk sb s s' 0 0) ∨
      ∃ k name, r = some (k, name) ∧ Walk sb s s' 0 (one k) ∧ IsDir s' k) ∧
      (Quiet sb s 0 → place s' r =
        follow (nodes sb s.disk) true (start s cwd path) (components path))) := by
  refine (namex_runs h hcwd htrans true path).post ?_
  rintro r s' ⟨hr, hplace⟩
  refine ⟨?_, hplace⟩
  rcases hr with ⟨rfl, hw⟩ | ⟨k, n, rfl, hw, hdir⟩
  · exact Or.inl ⟨rfl, hw⟩
  · exact Or.inr ⟨k, n, rfl, hw, hdir rfl⟩

end Xv6.Names
