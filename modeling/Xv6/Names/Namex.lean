import Mathlib.Data.Fintype.Card
import Xv6.Lib.Transition
import Xv6.Names.Paths

/-!
# What `namex` does

`namex` with the locks of the inodes.  `Tracks` relates a program with locks to the one
without them, and gives the locks that are held before and after.  `namex` takes and
releases one lock in each round, so it ends without one.

`Clear` is the exact condition for `namex` to return.  Whenever it takes an inode, that
inode is in the table, or there is a slot for it: while it takes the next inode it holds
the last one, so that two slots are enough.  And whenever it locks an inode, that inode is
allocated: the parent of a removed directory may not be.
-/

namespace Xv6.Names

open Xv6.Lib Xv6.FileSystem Xv6.FileSystem.Disk Function

namespace Locks

/-! ## The functions -/

/-- Why a program with locks stops: a panic, or it sleeps because somebody has the lock. -/
inductive Stop
  | panic (e : Panic)
  | iunlock
  | asleep
  deriving DecidableEq

/-- The file system and the locks of the inodes in the table. -/
structure State where
  fs : Fs
  lock : Slot → Bool

abbrev LockM := StateT State (Except Stop)

/-- A function that takes no lock. -/
def lift {α : Type} (m : FsM α) : LockM α := fun t =>
  match m t.fs with
  | .ok (a, s) => .ok (a, ⟨s, t.lock⟩)
  | .error e => .error (.panic e)

/-- `ilock`. -/
def ilock (k : Slot) : LockM PUnit := fun t =>
  if (t.fs.inode k).ref < 1 then .error (.panic .ilock)
  -- `acquiresleep`
  else if t.lock k then .error .asleep
  else lift (Names.ilock k) { t with lock := update t.lock k true }

/-- `iunlock`. -/
def iunlock (k : Slot) : LockM PUnit := fun t =>
  if t.lock k = false ∨ (t.fs.inode k).ref < 1 then .error .iunlock
  -- `releasesleep`
  else .ok (⟨⟩, { t with lock := update t.lock k false })

/-- `iput`.  It has the lock while it frees an inode. -/
def iput (k : Slot) : LockM PUnit := fun t =>
  if ((t.fs.inode k).ref = 1 ∧ (t.fs.inode k).valid = true ∧ (t.fs.inode k).copy.nlink = 0) ∧
      t.lock k = true then .error .asleep
  else lift (Names.iput k) t

/-- `iunlockput`. -/
def iunlockput (k : Slot) : LockM PUnit := do
  iunlock k
  iput k

/-- The loop of `namex`. -/
def namexLoop (sb : Superblock) (nameiparent : Bool) :
    Nat → Slot → List UInt8 → LockM (Option (Slot × List UInt8))
  | 0, _, _ => pure none
  | rounds + 1, ip, path =>
      match skipelem path with
      | none =>
          if nameiparent then do
            iput ip
            pure none
          else pure (some (ip, []))
      | some (name, rest) => do
          ilock ip
          let t ← get
          if (t.fs.inode ip).copy.type ≠ .dir then do
            iunlockput ip
            pure none
          else if nameiparent ∧ rest = [] then do
            iunlock ip
            pure (some (ip, name))
          else do
            match ← lift (dirlookup sb ip name) with
            | none => do
                iunlockput ip
                pure none
            | some (next, _) => do
                iunlockput ip
                namexLoop sb nameiparent rounds next rest

/-- `namex`. -/
def namex (sb : Superblock) (cwd : Slot) (nameiparent : Bool) (path : List UInt8) :
    LockM (Option (Slot × List UInt8)) := do
  let ip ← lift (namexStart cwd path)
  namexLoop sb nameiparent (path.length + 1) ip path

/-! ## Programs with and without locks -/

/-- From the locks `l`, the program `m'` does what `m` does, and has the locks `l'` then. -/
def Tracks {α : Type} (l l' : Slot → Bool) (m' : LockM α) (m : FsM α) (s : Fs) : Prop :=
  m' ⟨s, l⟩ = match m s with
    | .ok (a, s') => .ok (a, ⟨s', l'⟩)
    | .error e => .error (.panic e)

namespace Tracks

variable {α β : Type} {l l' l'' : Slot → Bool} {m' : LockM α} {m : FsM α}
  {f' : α → LockM β} {f : α → FsM β} {s : Fs} {k : Slot}

theorem pure (a : α) : Tracks l l (pure a) (pure a) s := rfl

theorem lift (m : FsM α) : Tracks l l (Locks.lift m) m s := by
  unfold Tracks Locks.lift
  cases m s with
  | ok r => rfl
  | error e => rfl

/-- A sequence. -/
theorem bind (h : Tracks l l' m' m s)
    (hrest : ∀ a s', m s = .ok (a, s') → Tracks l' l'' (f' a) (f a) s') :
    Tracks l l'' (m' >>= f') (m >>= f) s := by
  have hbind' : (m' >>= f') ⟨s, l⟩ = (m' ⟨s, l⟩).bind (fun r => f' r.1 r.2) := rfl
  have hbind : (m >>= f) s = (m s).bind (fun r => f r.1 r.2) := rfl
  unfold Tracks at h hrest ⊢
  rw [hbind', hbind, h]
  cases hm : m s with
  | ok r => exact hrest r.1 r.2 hm
  | error e => rfl

/-- The state can be read on both sides. -/
theorem get {g' : State → LockM β} {g : Fs → FsM β} (h : Tracks l l' (g' ⟨s, l⟩) (g s) s) :
    Tracks l l' (MonadState.get >>= g') (MonadState.get >>= g) s := h

/-- A lock that nobody has is taken. -/
theorem ilock (hk : 0 < (s.inode k).ref) (hfree : l k = false) :
    Tracks l (update l k true) (Locks.ilock k) (Names.ilock k) s := by
  have hrun : Locks.ilock k ⟨s, l⟩ = Locks.lift (Names.ilock k) ⟨s, update l k true⟩ := by
    rw [Locks.ilock, if_neg (Nat.not_lt.mpr hk), if_neg (Bool.eq_false_iff.mp hfree)]
  unfold Tracks
  rw [hrun]
  exact lift (l := update l k true) (Names.ilock k)

/-- A lock is released, and the other side does nothing. -/
theorem iunlock {g' : PUnit → LockM β} {g : FsM β} (hk : 0 < (s.inode k).ref) (hheld : l k = true)
    (h : Tracks (update l k false) l' (g' ⟨⟩) g s) :
    Tracks l l' (Locks.iunlock k >>= g') g s := by
  have hrun : (Locks.iunlock k >>= g') ⟨s, l⟩ = g' ⟨⟩ ⟨s, update l k false⟩ := by
    have hbind : (Locks.iunlock k >>= g') ⟨s, l⟩ =
        (Locks.iunlock k ⟨s, l⟩).bind (fun r => g' r.1 r.2) := rfl
    have hok : Locks.iunlock k ⟨s, l⟩ = .ok (⟨⟩, ⟨s, update l k false⟩) := by
      rw [Locks.iunlock, if_neg]
      rintro (hnot | hlt)
      · exact Bool.eq_false_iff.mp hnot hheld
      · exact Nat.not_lt.mpr hk hlt
    rw [hbind, hok]
    rfl
  unfold Tracks at h ⊢
  rw [hrun]
  exact h

/-- A reference is dropped without the lock. -/
theorem iput (hfree : l k = false) : Tracks l l (Locks.iput k) (Names.iput k) s := by
  have hrun : Locks.iput k ⟨s, l⟩ = Locks.lift (Names.iput k) ⟨s, l⟩ := by
    rw [Locks.iput, if_neg]
    rintro ⟨_, hheld⟩
    exact Bool.eq_false_iff.mp hfree hheld
  unfold Tracks
  rw [hrun]
  exact lift (l := l) (Names.iput k)

end Tracks

/-- Nobody has a lock. -/
def unlocked : Slot → Bool := fun _ => false

theorem unlocked_update (k : Slot) :
    update (update unlocked k true) k false = unlocked := by
  rw [update_idem]
  exact update_eq_self k unlocked

section Namex

variable {sb : Superblock} {s : Fs}

/-- `iunlockput`, from a state in which only this lock is held. -/
theorem iunlockput_tracks {β : Type} {k : Slot} {f' : PUnit → LockM β} {f : PUnit → FsM β}
    (hk : 0 < (s.inode k).ref)
    (hrest : ∀ s', Names.iput k s = .ok (⟨⟩, s') → Tracks unlocked unlocked (f' ⟨⟩) (f ⟨⟩) s') :
    Tracks (update unlocked k true) unlocked (iunlockput k >>= f') (Names.iput k >>= f)
      s := by
  have hassoc : iunlockput k >>= f' = iunlock k >>= fun _ => iput k >>= f' := by
    rw [iunlockput, bind_assoc]
  rw [hassoc]
  refine .iunlock hk (update_self ..) ?_
  rw [unlocked_update]
  exact .bind (.iput rfl) (fun _ s' hrun => hrest s' hrun)

theorem namexLoop_tracks (nameiparent : Bool) (rounds : Nat) :
    ∀ {s : Fs} (ip : Slot) (path : List UInt8), Inv sb s → 0 < (s.inode ip).ref →
      s.trans = true →
      Tracks unlocked unlocked (namexLoop sb nameiparent rounds ip path)
        (Names.namexLoop sb nameiparent rounds ip path) s := by
  induction rounds with
  | zero =>
    intro s ip path _ _ _
    exact .pure _
  | succ rounds ih =>
    intro s ip path h hip htrans
    unfold namexLoop Names.namexLoop
    cases hskip : skipelem path with
    | none =>
      dsimp only
      split
      · exact .bind (.iput rfl) (fun _ _ _ => .pure _)
      · exact .pure _
    | some q =>
      obtain ⟨name, rest⟩ := q
      dsimp only
      refine .bind (.ilock hip rfl) ?_
      intro _ s1 hrun1
      obtain ⟨hw1, hv, _, _⟩ := (ilock_runs h hip).ok hrun1
      have hip1 : 0 < (s1.inode ip).ref := hw1.held hip
      have htrans1 := hw1.mode.trans htrans
      refine .get ?_
      dsimp only
      split
      · exact iunlockput_tracks hip1 (fun _ _ => .pure _)
      rename_i hdir
      have hisdir : IsDir s1 ip := hw1.inv.isDir ⟨hip1, hv⟩ (not_not.mp hdir)
      split
      · refine .iunlock hip1 (update_self ..) ?_
        rw [unlocked_update]
        exact .pure _
      refine .bind (.lift _) ?_
      intro r s2 hrun2
      rcases (dirlookup_runs hw1.inv hisdir name).ok hrun2 with
        ⟨rfl, rfl, _⟩ | ⟨next, e, j, rfl, _, hw2, _, _⟩
      · exact iunlockput_tracks hip1 (fun _ _ => .pure _)
      · have hip2 : 0 < (s2.inode ip).ref := Nat.zero_lt_of_lt (hw2.held hip1)
        have htrans2 := hw2.mode.trans htrans1
        refine iunlockput_tracks hip2 ?_
        intro s3 hrun3
        obtain ⟨hw3, _⟩ := (iput_runs (E := fun _ => False) hw2.inv hip2 htrans2).ok hrun3
        have hstep := (hw1.keep (one ip)).comp (hw2.beside (one ip))
        have hown : Owns s2 (one ip + one next) := hstep.toMoves.owns (owns_one hip)
        exact ih next rest hw3.inv (hw3.held hown.second) (hw3.mode.trans htrans2)

/-- `namex` leaves no inode locked. -/
theorem namex_tracks (h : Inv sb s) {cwd : Slot} (hcwd : 0 < (s.inode cwd).ref)
    (htrans : s.trans = true) (nameiparent : Bool) (path : List UInt8) :
    Tracks unlocked unlocked (namex sb cwd nameiparent path)
      (Names.namex sb cwd nameiparent path) s := by
  refine .bind (.lift _) ?_
  intro ip s1 hrun
  obtain ⟨hw, _⟩ := (namexStart_runs h hcwd path).ok hrun
  have hip : 0 < (s1.inode ip).ref := (hw.toMoves.owns (fun _ => Nat.zero_le _)).used
  exact namexLoop_tracks nameiparent _ ip path hw.inv hip (hw.mode.trans htrans)

end Namex

end Locks

/-! ## When the way is clear -/

/-- The slots that are free. -/
def vacancies (s : Fs) : Nat := (Finset.univ.filter (fun k => (s.inode k).ref = 0)).card

/-- With the table of `s` and a reference to inode `i`, there is a slot for inode `j`. -/
def Takes (s : Fs) (i j : Nat) : Prop :=
  InTable s j ∨ j = i ∨ (if InTable s i then 1 else 2) ≤ vacancies s

/-- Along the names, every inode that is locked is allocated, and there is a slot for every
inode that is taken. -/
def ClearFrom (s : Fs) (N : Nat → Node) (parent : Bool) : Nat → List (List UInt8) → Prop
  | _, [] => True
  | i, name :: names =>
      (N i).type ≠ .free ∧
        ((N i).type = .dir → ¬ (parent = true ∧ names = []) → ∀ j, lookup N i name = some j →
          Takes s i j ∧ ClearFrom s N parent j names)

/-- `ClearFrom`, for a path. -/
structure Clear (sb : Superblock) (s : Fs) (cwd : Slot) (parent : Bool) (path : List UInt8) :
    Prop where
  start : path.head? = some slash → InTable s ROOTINO ∨ 1 ≤ vacancies s
  way : ClearFrom s (nodes sb s.disk) parent (Names.start s cwd path) (components path)

/-- An allocated inode that has a link or is in use.  Dropping another reference does not
free it. -/
def Stays (s : Fs) (i : Nat) : Prop :=
  (s.disk.dinode i).type ≠ .free → (s.disk.dinode i).nlink = 0 → InTable s i

/-- The directories that are linked or in use.  An entry in one of them counts as a link.
It may lead to a free inode: the parent of a removed directory can be removed as well. -/
structure Tree (sb : Superblock) (s : Fs) : Prop extends Inv sb s where
  top : Stays s ROOTINO
  linked : ∀ i, i < sb.ninodes → (s.disk.dinode i).type = .dir → Stays s i →
    ∀ e ∈ entries (s.disk.contents i), e.inum ≠ 0 → Stays s e.inum

section Slots

variable {sb : Superblock} {s s' s0 : Fs} {ip : Slot} {b : Slot → Nat} {i j : Nat}

theorem vacancies_pos : 1 ≤ vacancies s ↔ ∃ k, (s.inode k).ref = 0 := by
  rw [vacancies, Nat.one_le_iff_ne_zero, ← Nat.pos_iff_ne_zero, Finset.card_pos]
  simp [Finset.Nonempty]

/-- The slots beside a free one. -/
theorem vacancies_two (hip : (s.inode ip).ref = 0) :
    2 ≤ vacancies s ↔ ∃ k, k ≠ ip ∧ (s.inode k).ref = 0 := by
  have hmem : ip ∈ Finset.univ.filter (fun k => (s.inode k).ref = 0) := by simpa using hip
  rw [vacancies, ← Finset.card_erase_add_one hmem, Nat.succ_le_succ_iff,
    Nat.one_le_iff_ne_zero, ← Nat.pos_iff_ne_zero, Finset.card_pos]
  simp [Finset.Nonempty]

/-- A walk has taken a new slot if its inode was not in the table. -/
theorem Walk.new_iff (hw : Walk sb s0 s 0 b) (hb : 0 < b ip) :
    (s0.inode ip).ref = 0 ↔ ¬ InTable s0 (s.inode ip).inum := by
  have href : (s.inode ip).ref = (s0.inode ip).ref + b ip := hw.ref ip
  constructor
  · rintro hzero ⟨k, hk, hinum⟩
    obtain rfl := hw.inv.unique k ip (Nat.zero_lt_of_lt (hw.held hk)) (by omega)
      ((hw.inum hk).trans hinum)
    omega
  · intro hnot
    by_contra hne
    have hpos : 0 < (s0.inode ip).ref := Nat.pos_of_ne_zero hne
    exact hnot ⟨ip, hpos, (hw.inum hpos).symm⟩

/-- A walk drops an inode that stays, and the disk is not changed. -/
theorem Walk.put_disk (hw : Walk sb s0 s 0 b) (hb : 0 < b ip) (hdisk : s.disk = s0.disk)
    (hstays : Stays s0 (s.inode ip).inum) (hput : Put sb s ip s') : s'.disk = s0.disk := by
  rw [← hdisk]
  refine hput.kept ?_
  rintro ⟨hone, hv, hlink⟩
  have href : (s.inode ip).ref = (s0.inode ip).ref + b ip := hw.ref ip
  obtain ⟨hcopy, htype⟩ := hw.inv.synced ip (by omega) hv
  rw [hcopy, hdisk] at hlink
  rw [hdisk] at htype
  -- it is in the table of `s0`, so that this is not the last reference
  have hnew := mt (hw.new_iff hb).mp (not_not.mpr (hstays htype hlink))
  omega

section Walk

variable (hw : Walk sb s0 s 0 (one ip))
include hw

theorem Walk.inTable_iff : InTable s j ↔ InTable s0 j ∨ j = (s.inode ip).inum := by
  have href : ∀ k, (s.inode k).ref = (s0.inode k).ref + one ip k := hw.ref
  constructor
  · rintro ⟨k, hk, rfl⟩
    by_cases hki : k = ip
    · exact Or.inr (by rw [hki])
    · have hk0 : 0 < (s0.inode k).ref := by
        have := href k
        rw [one_of_ne hki] at this
        omega
      exact Or.inl ⟨k, hk0, (hw.inum hk0).symm⟩
  · rintro (⟨k, hk, rfl⟩ | rfl)
    · exact ⟨k, Nat.zero_lt_of_lt (hw.held hk), hw.inum hk⟩
    · refine ⟨ip, ?_, rfl⟩
      have := href ip
      rw [one_self] at this
      omega

/-- Whether `iget` finds a slot, in terms of the table before the walk. -/
theorem Walk.fits_iff : Fits s j ↔ Takes s0 (s.inode ip).inum j := by
  have hb : 0 < one ip ip := by rw [one_self]; exact Nat.one_pos
  have hfree : ∀ k, (s.inode k).ref = 0 ↔ k ≠ ip ∧ (s0.inode k).ref = 0 := by
    intro k
    have href : (s.inode k).ref = (s0.inode k).ref + one ip k := hw.ref k
    by_cases hk : k = ip
    · rw [hk, one_self] at href
      exact iff_of_false (by rw [hk]; omega) (fun hand => hand.1 hk)
    · rw [one_of_ne hk] at href
      rw [href]
      exact (and_iff_right hk).symm
  have hslot : (∃ k, (s.inode k).ref = 0) ↔
      (if InTable s0 (s.inode ip).inum then 1 else 2) ≤ vacancies s0 := by
    simp only [hfree]
    by_cases hin : InTable s0 (s.inode ip).inum
    · rw [if_pos hin, vacancies_pos]
      have hpos : (s0.inode ip).ref ≠ 0 := fun hzero => (hw.new_iff hb).mp hzero hin
      constructor
      · rintro ⟨k, _, hk⟩
        exact ⟨k, hk⟩
      · rintro ⟨k, hk⟩
        refine ⟨k, ?_, hk⟩
        rintro rfl
        exact hpos hk
    · rw [if_neg hin, vacancies_two ((hw.new_iff hb).mpr hin)]
  rw [Fits, hw.inTable_iff, hslot, Takes, or_assoc]

end Walk

end Slots

/-! ## What `namex` returns -/

section Exact

variable {sb : Superblock} {s s0 : Fs} {cwd : Slot}

/-- The loop of `namex` follows the names if the way is clear, and else it panics. -/
theorem namexLoop_exact (h0 : Tree sb s0) (nameiparent : Bool) (rounds : Nat) :
    ∀ {s : Fs} (ip : Slot) (path : List UInt8), path.length < rounds →
      Walk sb s0 s 0 (one ip) → s.disk = s0.disk → Stays s0 (s.inode ip).inum →
      s.trans = true →
      Runs (fun _ => ¬ ClearFrom s0 (nodes sb s0.disk) nameiparent (s.inode ip).inum
          (components path))
        (namexLoop sb nameiparent rounds ip path) s
        (fun r s' => ClearFrom s0 (nodes sb s0.disk) nameiparent (s.inode ip).inum
            (components path) ∧ s'.disk = s0.disk ∧
          place s' r =
            follow (nodes sb s0.disk) nameiparent (s.inode ip).inum (components path)) := by
  induction rounds with
  | zero =>
    intro s ip path hlen
    exact absurd hlen (Nat.not_lt_zero _)
  | succ rounds ih =>
    intro s ip path hlen hw hdisk hstays htrans
    have hone : 0 < one ip ip := by rw [one_self]; exact Nat.one_pos
    have hip : 0 < (s.inode ip).ref := (hw.toMoves.owns (fun _ => Nat.zero_le _)).used
    unfold namexLoop
    split
    · -- the end of the path
      rename_i hskip
      rw [skipelem_none hskip, ClearFrom, follow]
      split
      · refine .call (iput_runs hw.inv hip htrans) ?_
        rintro _ s' ⟨_, hput⟩
        exact .pure ⟨trivial, hw.put_disk hone hdisk hstays hput, rfl⟩
      · exact .pure ⟨trivial, hdisk, rfl⟩
    · rename_i name rest hskip
      have hrest := skipelem_length hskip
      obtain ⟨hcomponents, hlast⟩ := skipelem_some hskip
      rw [hcomponents, ClearFrom, follow]
      have hi := hw.inv.range ip hip
      have hnode : (nodes sb s0.disk (s.inode ip).inum).type =
          (s0.disk.dinode (s.inode ip).inum).type := by rw [nodes_of_lt hi]; rfl
      refine .call ((ilock_exact hw.inv hip).errors ?_) ?_
      · rintro err ⟨_, hfree⟩ ⟨halloc, _⟩
        rw [hdisk] at hfree
        exact halloc (hnode.trans hfree)
      rintro _ s1 ⟨hw1, hv, hinum1, hdisk1⟩
      have hip1 : 0 < (s1.inode ip).ref := hw1.held hip
      have htrans1 := hw1.mode.trans htrans
      obtain ⟨hcopy, halloc⟩ := hw1.inv.synced ip hip1 hv
      have htype : (s1.inode ip).copy.type = (nodes sb s0.disk (s.inode ip).inum).type := by
        rw [hcopy, hw1.inv.type_eq hip1, hdisk1, hdisk, hinum1]
      have halloc' : (nodes sb s0.disk (s.inode ip).inum).type ≠ .free := by
        rw [← htype, hcopy]
        exact halloc
      have hw1' : Walk sb s0 s1 0 (one ip) := hw.comp (hw1.keep (one ip))
      have hdisk1' : s1.disk = s0.disk := hdisk1.trans hdisk
      have hstays1 : Stays s0 (s1.inode ip).inum := by rw [hinum1]; exact hstays
      -- every failure drops the inode that has been reached
      have hdrop : ∀ {P : Prop} {o : Option (Nat × List UInt8)}, P → o = none →
          Runs (fun _ => ¬ P) (do iput ip; pure none) s1
            (fun r s' => P ∧ s'.disk = s0.disk ∧ place s' r = o) := by
        rintro P _ hP rfl
        refine .call (iput_runs hw1.inv hip1 htrans1) ?_
        rintro _ s' ⟨_, hput⟩
        exact .pure ⟨hP, hw1'.put_disk hone hdisk1' hstays1 hput, rfl⟩
      refine .bind (.get ?_)
      split
      · rename_i hdir
        rw [htype] at hdir
        exact hdrop ⟨halloc', fun hdir' => absurd hdir' hdir⟩ (if_neg hdir)
      rename_i hdir
      have hisdir : IsDir s1 ip := hw1.inv.isDir ⟨hip1, hv⟩ (not_not.mp hdir)
      have hdir' : (nodes sb s0.disk (s.inode ip).inum).type = .dir := htype ▸ not_not.mp hdir
      rw [if_pos hdir']
      split
      · rename_i hend
        have hend' := And.intro hend.1 (hlast.mp hend.2)
        refine .pure ⟨⟨halloc', fun _ hnot => absurd hend' hnot⟩, hdisk1', ?_⟩
        rw [place, Option.map_some, hinum1, if_pos hend']
      rename_i hend
      have hend' : ¬ (nameiparent = true ∧ components rest = []) :=
        fun hnil => hend ⟨hnil.1, hlast.mpr hnil.2⟩
      rw [if_neg hend']
      have hentries : s1.dir ip = entries (nodes sb s0.disk (s.inode ip).inum).data := by
        rw [hw1.inv.dir_eq hip1, hdisk1', hinum1]
      have hfits : ∀ j, Fits s1 j ↔ Takes s0 (s.inode ip).inum j := by
        intro j
        rw [hw1'.fits_iff, hinum1]
      refine .call ((dirlookup_exact hw1.inv hisdir name).errors ?_) ?_
      · -- the entry is there, and the inode table is full
        rintro err ⟨_, e, j, hfound, hfull⟩ ⟨_, hclear⟩
        rw [hentries] at hfound
        exact hfull ((hfits _).mpr (hclear hdir' hend' _ (lookup_found hfound)).1)
      rintro r s2 (⟨rfl, hs, habsent⟩ | ⟨next, e, j, rfl, hfound, hfit, hw2, hinum2, hdisk2⟩)
      · obtain rfl := hs.symm
        rw [hentries] at habsent
        rw [lookup_absent habsent]
        refine hdrop ⟨halloc', ?_⟩ rfl
        intro _ _ j hj
        cases hj
      · rw [hentries] at hfound
        have hnext : Stays s0 e.inum := by
          have hmem := List.mem_of_getElem? hfound.here
          rw [nodes_of_lt hi] at hmem
          exact h0.linked _ hi (hnode.symm.trans hdir') hstays e hmem hfound.named.1
        have hstep := hw1'.comp (hw2.beside (one ip))
        have hown : Owns s2 (one ip + one next) := hstep.toMoves.owns (fun _ => Nat.zero_le _)
        have hip2 : 0 < (s2.inode ip).ref := Nat.zero_lt_of_lt (hw2.held hip1)
        have htrans2 := hw2.mode.trans htrans1
        have hinum2' : (s2.inode ip).inum = (s.inode ip).inum := (hw2.inum hip1).trans hinum1
        refine .call (iput_runs hw2.inv hip2 htrans2) ?_
        rintro _ s3 ⟨hw3, hput⟩
        have hreach := hstep.comp (hw3.leave (one next))
        have hdisk3 : s3.disk = s0.disk :=
          hstep.put_disk (by rw [Pi.add_apply, one_self]; omega) (hdisk2.trans hdisk1')
            (by rw [hinum2']; exact hstays) hput
        have hinum3 : (s3.inode next).inum = e.inum := by
          rw [hw3.inum hown.second, hinum2]
        have hgo := ih next rest (by omega) hreach hdisk3 (by rw [hinum3]; exact hnext)
          (hw3.mode.trans htrans2)
        rw [hinum3] at hgo
        rw [lookup_found hfound]
        refine hgo.mono ?_ ?_
        · rintro r' s' ⟨hclear, hrest⟩
          refine ⟨⟨halloc', ?_⟩, hrest⟩
          rintro _ _ j ⟨⟩
          exact ⟨(hfits e.inum).mp hfit, hclear⟩
        · rintro err hnot ⟨_, hclear⟩
          exact hnot (hclear hdir' hend' _ rfl).2

/-- `namex` follows the path if the way is clear, and else it panics. -/
theorem namex_exact (h : Tree sb s) (hcwd : 0 < (s.inode cwd).ref) (htrans : s.trans = true)
    (nameiparent : Bool) (path : List UInt8) :
    Runs (fun _ => ¬ Clear sb s cwd nameiparent path) (namex sb cwd nameiparent path) s
      (fun r s' => Clear sb s cwd nameiparent path ∧ s'.disk = s.disk ∧ place s' r =
        follow (nodes sb s.disk) nameiparent (start s cwd path) (components path)) := by
  have hloop : ∀ ip s1, Walk sb s s1 0 (one ip) → (s1.inode ip).inum = start s cwd path →
      s1.disk = s.disk → Stays s (start s cwd path) →
      (path.head? = some slash → InTable s ROOTINO ∨ 1 ≤ vacancies s) →
      Runs (fun _ => ¬ Clear sb s cwd nameiparent path)
        (namexLoop sb nameiparent (path.length + 1) ip path) s1
        (fun r s' => Clear sb s cwd nameiparent path ∧ s'.disk = s.disk ∧ place s' r =
          follow (nodes sb s.disk) nameiparent (start s cwd path) (components path)) := by
    intro ip s1 hw hinum hdisk hstays hstart
    have hgo := namexLoop_exact h nameiparent _ ip path (Nat.lt_succ_self _) hw hdisk
      (by rw [hinum]; exact hstays) (hw.mode.trans htrans)
    rw [hinum] at hgo
    refine hgo.mono ?_ (fun _ hnot hclear => hnot hclear.way)
    rintro r s' ⟨hway, hrest⟩
    exact ⟨⟨hstart, hway⟩, hrest⟩
  unfold namex namexStart
  by_cases hroot : path.head? = some slash
  · rw [if_pos hroot]
    have hfits : Fits s ROOTINO ↔ (InTable s ROOTINO ∨ 1 ≤ vacancies s) := by
      rw [Fits, vacancies_pos]
    have hstart : start s cwd path = ROOTINO := if_pos hroot
    refine .call ((iget_exact h.toInv h.root).errors ?_) ?_
    · rintro err ⟨_, hfull⟩ hclear
      exact hfull (hfits.mpr (hclear.start hroot))
    · rintro ip s1 ⟨hfit, hw, hinum, hdisk⟩
      exact hloop ip s1 hw (hinum.trans hstart.symm) hdisk (by rw [hstart]; exact h.top)
        (fun _ => hfits.mp hfit)
  · rw [if_neg hroot]
    have hstart : start s cwd path = (s.inode cwd).inum := if_neg hroot
    refine .call (idup_runs h.toInv hcwd) ?_
    rintro ip s1 ⟨rfl, hw, hinum, hdisk⟩
    exact hloop _ s1 hw (hinum.trans hstart.symm) hdisk
      (by rw [hstart]; exact fun _ _ => ⟨_, hcwd, rfl⟩) (fun hslash => absurd hslash hroot)

/-- The result is what the path means, there is one more reference to the inode that is
returned and no other change of the references, and no inode is locked. -/
structure Resolves (sb : Superblock) (s : Fs) (cwd : Slot) (nameiparent : Bool)
    (path : List UInt8) (r : Option (Slot × List UInt8)) (t : Locks.State) : Prop where
  result : place t.fs r =
    follow (nodes sb s.disk) nameiparent (start s cwd path) (components path)
  refs : ∀ k, (t.fs.inode k).ref = (s.inode k).ref + if r.map Prod.fst = some k then 1 else 0
  kept : ∀ k, 0 < (s.inode k).ref → (t.fs.inode k).inum = (s.inode k).inum
  disk : t.fs.disk = s.disk
  unlocked : ∀ k, t.lock k = false

/-- The references after `namex`. -/
theorem Reached.refs {nameiparent : Bool} {s' : Fs} {r : Option (Slot × List UInt8)}
    (h : Reached sb nameiparent s 0 r s') (k : Slot) :
    (s'.inode k).ref = (s.inode k).ref + if r.map Prod.fst = some k then 1 else 0 := by
  rcases h with ⟨rfl, hw⟩ | ⟨l, name, rfl, hw, _⟩
  · exact hw.ref k
  · have href : (s'.inode k).ref = (s.inode k).ref + one l k := hw.ref k
    rw [href, Option.map_some]
    by_cases hk : k = l
    · rw [hk, one_self, if_pos rfl]
    · rw [one_of_ne hk, if_neg (fun he => hk (Option.some.inj he).symm)]

theorem Reached.inum {nameiparent : Bool} {s' : Fs} {r : Option (Slot × List UInt8)}
    (h : Reached sb nameiparent s 0 r s') {k : Slot} (hk : 0 < (s.inode k).ref) :
    (s'.inode k).inum = (s.inode k).inum := by
  rcases h with ⟨_, hw⟩ | ⟨_, _, _, hw, _⟩
  · exact hw.inum hk
  · exact hw.inum hk

/-- Path resolution follows the path, if and only if the way is clear. -/
theorem namex_resolves_iff (h : Tree sb s) (hcwd : 0 < (s.inode cwd).ref)
    (htrans : s.trans = true) (nameiparent : Bool) (path : List UInt8) :
    (∃ r t, Locks.namex sb cwd nameiparent path ⟨s, Locks.unlocked⟩ = .ok (r, t) ∧
      Resolves sb s cwd nameiparent path r t) ↔ Clear sb s cwd nameiparent path := by
  have htracks := Locks.namex_tracks h.toInv hcwd htrans nameiparent path
  have hruns := (namex_exact h hcwd htrans nameiparent path).and
    (namex_runs h.toInv hcwd htrans nameiparent path)
  unfold Locks.Tracks at htracks
  cases hm : namex sb cwd nameiparent path s with
  | error e =>
    rw [hm] at htracks
    refine iff_of_false ?_ (hruns.error hm).1
    rintro ⟨r, t, hrun, _⟩
    rw [htracks] at hrun
    cases hrun
  | ok q =>
    obtain ⟨r, s'⟩ := q
    rw [hm] at htracks
    obtain ⟨⟨hclear, hdisk, hplace⟩, hreached, _⟩ := hruns.ok hm
    exact iff_of_true ⟨r, _, htracks, hplace, hreached.refs, fun _ => hreached.inum, hdisk,
      fun _ => rfl⟩ hclear

end Exact

/-! ## A table with many inodes -/

theorem Tree.of_linked {sb : Superblock} {s : Fs} (h : Inv sb s)
    (hlinked : ∀ i, i < sb.ninodes → (s.disk.dinode i).nlink ≠ 0 ∨
      (s.disk.dinode i).type = .free ∨ InTable s i) : Tree sb s := by
  have hstays : ∀ i, i < sb.ninodes → Stays s i := by
    intro i hi htype hlink
    rcases hlinked i hi with hne | hfree | hin
    · exact absurd hlink hne
    · exact absurd hfree htype
    · exact hin
  refine ⟨h, hstays _ h.root, ?_⟩
  intro i hi hdir _ e he _
  exact hstays _ ((h.dirs i hi hdir).range e he)

/-- 64 inodes, in the blocks before block 40. -/
def Superblock.crowded : Superblock := ⟨1000, 64, 40, by decide⟩

/-- Inode 2 is a directory that has been removed, inode 3 is free, and the inodes above it
are files. -/
def Disk.crowded : Disk :=
  ⟨fun i =>
      if i = ROOTINO then { Dinode.zero with type := .dir, nlink := 1 }
      else if i = 2 then { Dinode.zero with type := .dir }
      else if 4 ≤ i then { Dinode.zero with type := .file, nlink := 1 }
      else Dinode.zero,
    fun b => b < Superblock.crowded.nmeta, fun _ => Buffer.zero⟩

/-- The inode in slot `k`: the two directories are in use, and the files from 12 on. -/
def slotInum (k : Slot) : Nat := if k.val = 0 then ROOTINO else if k.val = 1 then 2 else k.val + 10

/-- The first `n` slots are in use, in a transaction. -/
def Fs.crowded (n : Nat) : Fs :=
  ⟨Disk.crowded,
    fun k => ⟨slotInum k, if k.val < n then 1 else 0, true, Disk.crowded.dinode (slotInum k)⟩, true⟩

/-- The name `a` for inode 5 in the root directory, and the free inode 3 as the parent of
the directory that has been removed. -/
def linkBoth : FsM PUnit := do
  let _ ← dirlink Superblock.crowded 0 [97] 5
  let _ ← dirlink Superblock.crowded 1 [46, 46] 3

theorem slotInum_inj {k l : Slot} (h : slotInum k = slotInum l) : k = l := by
  unfold slotInum ROOTINO at h
  refine Fin.ext ?_
  split_ifs at h <;> omega

theorem crowded_contents (i : Nat) : Disk.crowded.contents i = [] := by
  refine List.eq_nil_of_length_eq_zero ?_
  rw [length_contents]
  unfold Disk.crowded
  dsimp only
  split_ifs <;> rfl

theorem crowded_inv (n : Nat) : Inv Superblock.crowded (Fs.crowded n) := by
  refine ⟨⟨.of_empty ?_ ?_ ?_, by decide, ?_⟩, ?_, ?_, ?_⟩
  · intro i k
    show (Disk.crowded.dinode i).addrs k = 0
    unfold Disk.crowded
    dsimp only
    split_ifs <;> rfl
  · intro i
    show (Disk.crowded.dinode i).size = 0
    unfold Disk.crowded
    dsimp only
    split_ifs <;> rfl
  · intro b
    exact decide_eq_true_iff
  · intro i _ _
    show DirShape _ (Disk.crowded.contents i)
    rw [crowded_contents]
    exact .nil _
  · intro k _
    have hk : k.val < 50 := k.isLt
    show slotInum k < 64
    unfold slotInum ROOTINO
    split_ifs <;> omega
  · intro k l _ _ h
    exact slotInum_inj h
  · intro k _ _
    have hall : ∀ k : Slot, (Disk.crowded.dinode (slotInum k)).type ≠ .free := by decide
    exact ⟨rfl, hall k⟩

theorem crowded_isDir {n : Nat} (hn : 1 < n) :
    IsDir (Fs.crowded n) 0 ∧ IsDir (Fs.crowded n) 1 := by
  refine ⟨⟨⟨?_, rfl⟩, rfl⟩, ⟨⟨?_, rfl⟩, rfl⟩⟩
  · show 0 < if 0 < n then 1 else 0
    rw [if_pos (by omega)]
    exact Nat.one_pos
  · show 0 < if 1 < n then 1 else 0
    rw [if_pos hn]
    exact Nat.one_pos

theorem linkBoth_moves {n : Nat} (hn : 1 < n) {u : PUnit} {s : Fs}
    (h : linkBoth (Fs.crowded n) = .ok (u, s)) :
    Inv Superblock.crowded s ∧ Moves (Fs.crowded n) s 0 0 := by
  obtain ⟨hroot, hremoved⟩ := crowded_isDir hn
  obtain ⟨⟨r1, s1⟩, h1, h⟩ := bind_eq_ok h
  obtain ⟨⟨r2, s2⟩, h2, h⟩ := bind_eq_ok h
  cases h
  obtain ⟨hinv1, hmoves1⟩ := dirlink_moves (crowded_inv n) hroot rfl (by decide) h1
  have hremoved1 := hmoves1.isDir hremoved.used hremoved
  obtain ⟨hinv2, hmoves2⟩ := dirlink_moves hinv1 hremoved1 hmoves1.mode (by decide) h2
  exact ⟨hinv2, hmoves1.comp hmoves2⟩

/-- Whether `f` accepts the file system with both names. -/
def observeLinks (n : Nat) (f : Fs → Bool) : Bool :=
  (linkBoth (Fs.crowded n)).toOption.any (fun q =>
    decide (∀ i : Fin 64, (q.2.disk.dinode i).nlink ≠ 0 ∨ (q.2.disk.dinode i).type = .free ∨
      InTable q.2 i) && f q.2)

theorem exists_of_observeLinks {n : Nat} (hn : 1 < n) {f : Fs → Bool}
    (h : observeLinks n f = true) :
    ∃ s, Tree Superblock.crowded s ∧ 0 < (s.inode 0).ref ∧ 0 < (s.inode 1).ref ∧
      s.trans = true ∧ f s = true := by
  obtain ⟨⟨_, s⟩, hrun, h⟩ := exists_ok_of_any h
  obtain ⟨hlinked, hf⟩ := (Bool.and_eq_true _ _).mp h
  have hlinked := of_decide_eq_true hlinked
  obtain ⟨hinv, hmoves⟩ := linkBoth_moves hn hrun
  obtain ⟨hroot, hremoved⟩ := crowded_isDir hn
  exact ⟨s, .of_linked hinv (fun i hi => hlinked ⟨i, hi⟩), hmoves.held hroot.used,
    hmoves.held hremoved.used, hmoves.mode, hf⟩

/-- Why a program stops. -/
def stopOf {ε α : Type} : Except ε α → Option ε
  | .ok _ => none
  | .error e => some e

theorem eq_error_of_stopOf {ε α : Type} {x : Except ε α} {e : ε} (h : stopOf x = some e) :
    x = .error e := by
  cases x with
  | ok a => cases h
  | error e' =>
    obtain rfl : e' = e := Option.some.inj h
    rfl

/-- What the path means, and why `namex` stops. -/
def outcome (cwd : Slot) (path : List UInt8) (s : Fs) :
    Option (Nat × List UInt8) × Option Locks.Stop :=
  (follow (nodes Superblock.crowded s.disk) false (start s cwd path) (components path),
    stopOf (Locks.namex Superblock.crowded cwd false path ⟨s, Locks.unlocked⟩))

/-- There is a free slot beside the root directory. -/
def HasSlot (s : Fs) : Prop :=
  InTable s (start s 0 [97]) ∧ 1 ≤ vacancies s ∧
    (nodes Superblock.crowded s.disk (start s 0 [97])).type ≠ .free

instance (s : Fs) : Decidable (HasSlot s) := inferInstanceAs (Decidable (_ ∧ _ ∧ _))

theorem HasSlot.clear {s : Fs} (h : HasSlot s) : Clear Superblock.crowded s 0 false [97] := by
  obtain ⟨hin, hslot, halloc⟩ := h
  have hword : ∀ b ∈ ([97] : List UInt8), b ≠ slash := by
    intro b hb
    rw [List.mem_singleton.mp hb]
    decide
  have hnames : components [97] = [[97]] := components_last hword (by decide)
  refine ⟨fun hslash => absurd hslash (by decide), ?_⟩
  rw [hnames]
  refine ⟨halloc, fun _ _ j _ => ⟨Or.inr (Or.inr ?_), trivial⟩⟩
  rw [if_pos hin]
  exact hslot

/-- With a free slot, the name `a` in the root directory leads to inode 5. -/
theorem namex_resolves_five :
    ∃ s, Tree Superblock.crowded s ∧ 0 < (s.inode 0).ref ∧ s.trans = true ∧
      follow (nodes Superblock.crowded s.disk) false (start s 0 [97]) (components [97]) =
        some (5, []) ∧
      ∃ r t, Locks.namex Superblock.crowded 0 false [97] ⟨s, Locks.unlocked⟩ = .ok (r, t) ∧
        Resolves Superblock.crowded s 0 false [97] r t := by
  obtain ⟨s, htree, hroot, _, htrans, hobs⟩ := exists_of_observeLinks (n := 49) (by decide)
    (f := fun s => HasSlot s ∧ (outcome 0 [97] s).1 = some (5, [])) (by decide +kernel)
  obtain ⟨hslot, hfollow⟩ := of_decide_eq_true hobs
  exact ⟨s, htree, hroot, htrans, hfollow,
    (namex_resolves_iff htree hroot htrans false [97]).mpr hslot.clear⟩

/-- With a full table the lookup of the name `a` panics, although the name is there.  And a
lookup through the parent of a removed directory panics if the parent has been removed. -/
theorem namex_stops :
    (∃ s, Tree Superblock.crowded s ∧ 0 < (s.inode 0).ref ∧ s.trans = true ∧
      follow (nodes Superblock.crowded s.disk) false (start s 0 [97]) (components [97]) =
        some (5, []) ∧
      Locks.namex Superblock.crowded 0 false [97] ⟨s, Locks.unlocked⟩ =
        .error (.panic .igetNoInodes)) ∧
    ∃ s, Tree Superblock.crowded s ∧ 0 < (s.inode 1).ref ∧ s.trans = true ∧
      follow (nodes Superblock.crowded s.disk) false (start s 1 [46, 46, 47, 97])
        (components [46, 46, 47, 97]) = none ∧
      Locks.namex Superblock.crowded 1 false [46, 46, 47, 97] ⟨s, Locks.unlocked⟩ =
        .error (.panic .ilockNoType) := by
  refine ⟨?_, ?_⟩
  · obtain ⟨s, htree, hroot, _, htrans, hobs⟩ := exists_of_observeLinks (n := 50) (by decide)
      (f := fun s => outcome 0 [97] s = (some (5, []), some (.panic .igetNoInodes)))
      (by decide +kernel)
    obtain ⟨hfollow, hstop⟩ := Prod.mk.inj (of_decide_eq_true hobs)
    exact ⟨s, htree, hroot, htrans, hfollow, eq_error_of_stopOf hstop⟩
  · obtain ⟨s, htree, _, hremoved, htrans, hobs⟩ := exists_of_observeLinks (n := 49) (by decide)
      (f := fun s => outcome 1 [46, 46, 47, 97] s = (none, some (.panic .ilockNoType)))
      (by decide +kernel)
    obtain ⟨hfollow, hstop⟩ := Prod.mk.inj (of_decide_eq_true hobs)
    exact ⟨s, htree, hremoved, htrans, hfollow, eq_error_of_stopOf hstop⟩

end Xv6.Names
