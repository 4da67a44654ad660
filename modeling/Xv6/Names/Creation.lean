import Xv6.Names.Paths

/-!
# `create`

The steps of `create` between the lookup of the name and the end.  The new inode gets
its fields, a new directory gets its entries `.` and `..`, and then the name is put into
the directory.  Each step can fail for lack of space.
-/

namespace Xv6.Names

open Xv6.Lib Xv6.FileSystem Xv6.FileSystem.Disk Function

variable {sb : Superblock} {s s' : Fs} {dp ip k : Slot} {name : List UInt8} {i j p : Nat}

/-- `dirlink` of a name that is absent. -/
theorem dirlink_absent (h : Inv sb s) (hdp : IsDir s dp) (htrans : s.trans = true)
    (name : List UInt8) (hi : i < sb.ninodes) :
    Runs Stuck (dirlink sb dp name i) s (fun r s' => Inv sb s' ∧ Moves s s' 0 0 ∧
      (Absent (s.dir dp) name →
        (r = true ∧ ∃ j, EmptyAt (s.dir dp) j ∧ nodes sb s'.disk =
          update (nodes sb s.disk) (s.inode dp).inum
            ((nodes sb s.disk (s.inode dp).inum).write j (Dirent.named i name).bytes)) ∨
        (r = false ∧ nodes sb s'.disk = nodes sb s.disk))) := by
  refine (dirlink_nodes h hdp htrans name hi).post ?_
  rintro r s' ⟨hinv, hm, hn⟩
  refine ⟨hinv, hm, fun habsent => hn.imp ?_ ?_⟩
  · rintro ⟨hr, _, hlinked⟩
    exact ⟨hr, hlinked⟩
  · rintro ⟨hr, hsame⟩
    exact ⟨hr, hsame (Or.inl habsent)⟩

/-! ## `.` and `..` -/

/-- The bytes of a new directory. -/
def dotEntries (i p : Nat) : List UInt8 :=
  (Dirent.named i [dot]).bytes ++ (Dirent.named p [dot, dot]).bytes

theorem splice_nil (x : List UInt8) : splice [] (0 * DIRENT) x = x := by
  simp [splice]

theorem splice_end {data x : List UInt8} (h : data.length = j * DIRENT) :
    splice data (j * DIRENT) x = data ++ x := by
  rw [splice, List.take_of_length_le (by omega), List.drop_of_length_le (by omega),
    List.append_nil]

/-- The entries of one entry. -/
theorem entries_single {x : List UInt8} (hx : x.length = DIRENT) : entries x = [Entry.ofBytes x] := by
  have hempty : 0 * DIRENT ≤ ([] : List UInt8).length := Nat.zero_le _
  have h := entries_splice hx hempty (Nat.dvd_zero _)
  rw [splice_nil] at h
  exact h

theorem createDots_runs (h : Inv sb s) (hip : IsDir s ip) (hdp : 0 < (s.inode dp).ref)
    (htrans : s.trans = true) :
    Runs Stuck (createDots sb dp ip) s (fun r s' => Inv sb s' ∧ Moves s s' 0 0 ∧
      ((nodes sb s.disk (s.inode ip).inum).data = [] →
        ∃ data, nodes sb s'.disk = update (nodes sb s.disk) (s.inode ip).inum
            { nodes sb s.disk (s.inode ip).inum with data := data } ∧
          (r = true → (s.inode ip).inum % 2 ^ 16 ≠ 0 →
            data = dotEntries (s.inode ip).inum (s.inode dp).inum))) := by
  have hi := h.range ip hip.used
  have hp := h.range dp hdp
  unfold createDots
  refine .bind (.get (.call (dirlink_absent h hip htrans [dot] hi) ?_))
  rintro r s1 ⟨hinv1, hm1, hn1⟩
  have hnil : (nodes sb s.disk (s.inode ip).inum).data = [] → Absent (s.dir ip) [dot] := by
    intro hdata e he
    rw [h.dir_eq hip.used, hdata] at he
    cases he
  cases r with
  | false =>
    refine .pure ⟨hinv1, hm1, fun hdata => ?_⟩
    rcases hn1 (hnil hdata) with ⟨hr, _⟩ | ⟨_, hsame⟩
    · cases hr
    · refine ⟨[], ?_, fun hr => by cases hr⟩
      rw [hsame, ← hdata]
      exact (update_eq_self _ _).symm
  | true =>
    have hip1 : IsDir s1 ip := hm1.isDir hip.used hip
    refine (dirlink_absent hinv1 hip1 (hm1.mode.trans htrans) [dot, dot] hp).post ?_
    rintro r s2 ⟨hinv2, hm2, hn2⟩
    refine ⟨hinv2, hm1.comp hm2, fun hdata => ?_⟩
    have hinum : (s1.inode ip).inum = (s.inode ip).inum := hm1.inum hip.used
    obtain ⟨_, j, hat, hn1⟩ := (hn1 (hnil hdata)).resolve_right (by rintro ⟨hr, _⟩; cases hr)
    -- the first entry goes to the beginning
    have hj : j = 0 := by
      have := hat.le
      rw [h.dir_eq hip.used, hdata] at this
      exact Nat.le_zero.mp this
    have hwrite : (nodes sb s.disk (s.inode ip).inum).write j (Dirent.named (s.inode ip).inum
        [dot]).bytes = { nodes sb s.disk (s.inode ip).inum with
          data := (Dirent.named (s.inode ip).inum [dot]).bytes } := by
      rw [Node.write, hdata, hj, splice_nil]
    rw [hwrite] at hn1
    have hentries : s1.dir ip = [⟨(s.inode ip).inum % 2 ^ 16, strncpy [dot] DIRSIZ⟩] := by
      rw [hinv1.dir_eq hip1.used, hinum, hn1, update_self, ← ofBytes_named]
      exact entries_single (Dirent.length_bytes _)
    have habsent : Absent (s1.dir ip) [dot, dot] := by
      intro e he hnamed
      rw [hentries, List.mem_singleton] at he
      rw [he] at hnamed
      have hdots : namecmp [dot, dot] (strncpy [dot] DIRSIZ) ≠ 0 := by decide
      exact hdots hnamed.2
    rw [hinum] at hn2
    rcases hn2 habsent with ⟨hr, m, hat2, hn2⟩ | ⟨hr, hn2⟩
    · refine ⟨splice (Dirent.named (s.inode ip).inum [dot]).bytes (m * DIRENT)
        (Dirent.named (s.inode dp).inum [dot, dot]).bytes, ?_, ?_⟩
      · rw [hn2, hn1, update_idem, update_self]
        rfl
      · intro _ hne
        have hm : m = 1 := by
          have hle := hat2.le
          rw [hentries] at hle
          have hzero : m ≠ 0 := by
            rintro rfl
            exact hne (hat2.empty _ (by rw [hentries]; rfl))
          have : m ≤ 1 := hle
          omega
        rw [hm]
        exact splice_end (by rw [Dirent.length_bytes, Nat.one_mul])
    · refine ⟨(Dirent.named (s.inode ip).inum [dot]).bytes, ?_,
        fun hr' => by rw [hr] at hr'; cases hr'⟩
      rw [hn2, hn1]

/-! ## The name -/

/-- The parent after it has got the entry `name` for inode `i` at index `j`, and a link from
the `..` of a new directory. -/
def Node.adopt (n : Node) (type : FileType) (i j : Nat) (name : List UInt8) : Node :=
  { n.write j (Dirent.named i name).bytes with
    nlink := if type = .dir then n.nlink + 1 else n.nlink }

theorem createEntry_runs (h : Inv sb s) (hdp : IsDir s dp) (hip : 0 < (s.inode ip).ref)
    (htrans : s.trans = true) (name : List UInt8) (type : FileType) :
    Runs Stuck (createEntry sb dp ip name type) s (fun r s' => Inv sb s' ∧ Moves s s' 0 0 ∧
      (Absent (s.dir dp) name →
        (r = true ∧ ∃ j, EmptyAt (s.dir dp) j ∧ nodes sb s'.disk =
          update (nodes sb s.disk) (s.inode dp).inum
            ((nodes sb s.disk (s.inode dp).inum).adopt type (s.inode ip).inum j name)) ∨
        (r = false ∧ nodes sb s'.disk = nodes sb s.disk))) := by
  have hi := h.range ip hip
  unfold createEntry
  refine .bind (.get (.call (dirlink_absent h hdp htrans name hi) ?_))
  rintro r s1 ⟨hinv1, hm1, hn1⟩
  cases r with
  | false => exact .pure ⟨hinv1, hm1, fun habsent => (hn1 habsent).imp_left (fun hr => by cases hr.1)⟩
  | true =>
    rw [if_pos rfl]
    have hdp1 : IsDir s1 dp := hm1.isDir hdp.used hdp
    have hinum : (s1.inode dp).inum = (s.inode dp).inum := hm1.inum hdp.used
    have hlinked : Absent (s.dir dp) name → ∃ j, EmptyAt (s.dir dp) j ∧ nodes sb s1.disk = _ :=
      fun habsent => ((hn1 habsent).resolve_right (by rintro ⟨hr, _⟩; cases hr)).2
    refine .ite ?_ ?_
    · intro hdir
      refine .call (updateLink_runs hinv1 hdp1.toLocked (hm1.mode.trans htrans) (· + 1)) ?_
      rintro _ s2 ⟨hinv2, hm2, _, hn2⟩
      refine .pure ⟨hinv2, hm1.comp (hm2 0), fun habsent => Or.inl ⟨rfl, ?_⟩⟩
      obtain ⟨j, hat, hn⟩ := hlinked habsent
      refine ⟨j, hat, ?_⟩
      rw [hn2, hinum, hn, update_idem, update_self, Node.adopt, if_pos hdir]
      rfl
    · intro hdir
      refine .pure ⟨hinv1, hm1, fun habsent => Or.inl ⟨rfl, ?_⟩⟩
      obtain ⟨j, hat, hn⟩ := hlinked habsent
      refine ⟨j, hat, ?_⟩
      rw [hn, Node.adopt, if_neg hdir]
      rfl

/-! ## The new inode -/

/-- The contents of a new inode. -/
def newData (type : FileType) (i p : Nat) : List UInt8 := if type = .dir then dotEntries i p else []

/-- The name space after the new inode `i` has got the name `name` in directory `p`. -/
def Adds (N : Nat → Node) (type : FileType) (i p : Nat) (name : List UInt8) (N' : Nat → Node) : Prop :=
  ∃ data j, (i % 2 ^ 16 ≠ 0 → data = newData type i p) ∧ EmptyAt (entries (N p).data) j ∧
    N' = update (update N i ⟨type, 1, data⟩) p ((N p).adopt type i j name)

/-- The new inode in slot `ip` has been put into the directory in slot `dp`, or that has
failed. -/
structure Placed (sb : Superblock) (s : Fs) (dp ip : Slot) (name : List UInt8) (type : FileType)
    (r : Bool) (s' : Fs) : Prop where
  inv : Inv sb s'
  moves : Moves s s' 0 0
  locked : Locked s' ip
  nodes : Absent (s.dir dp) name →
    (r = true ∧ Adds (nodes sb s.disk) type (s.inode ip).inum (s.inode dp).inum name
      (nodes sb s'.disk)) ∨
    (r = false ∧ ∃ data, nodes sb s'.disk =
      update (nodes sb s.disk) (s.inode ip).inum ⟨type, 1, data⟩)

section CreateIn

variable {type : FileType} (h : Inv sb s) (hdp : IsDir s dp) (hip : 0 < (s.inode ip).ref)
  (htrans : s.trans = true) (hne : (s.inode dp).inum ≠ (s.inode ip).inum) (name : List UInt8)
include h hdp hip htrans hne

/-- The entry of a new inode that is ready in the state `t`. -/
theorem createEntry_ready {t : Fs} {data : List UInt8} (ht : Inv sb t) (hm : Moves s t 0 0)
    (hlocked : Locked t ip)
    (hdata : (s.inode ip).inum % 2 ^ 16 ≠ 0 →
      data = newData type (s.inode ip).inum (s.inode dp).inum)
    (hnodes : nodes sb t.disk =
      update (nodes sb s.disk) (s.inode ip).inum ⟨type, 1, data⟩) :
    Runs Stuck (createEntry sb dp ip name type) t (Placed sb s dp ip name type) := by
  have hdp' : IsDir t dp := hm.isDir hdp.used hdp
  refine (createEntry_runs ht hdp' hlocked.used (hm.mode.trans htrans) name type).post ?_
  rintro r s' ⟨hinv, hm', hn⟩
  refine ⟨hinv, hm.comp hm', hm'.locked hlocked.used hlocked, ?_⟩
  intro habsent
  have hdir : t.dir dp = s.dir dp := by
    rw [ht.dir_eq hdp'.used, hm.inum hdp.used, hnodes, update_of_ne hne, h.dir_eq hdp.used]
  rw [hm.inum hdp.used, hm.inum hip, hnodes, update_of_ne hne, hdir] at hn
  rcases hn habsent with ⟨hr, j, hat, heq⟩ | ⟨hr, heq⟩
  · rw [h.dir_eq hdp.used] at hat
    exact Or.inl ⟨hr, data, j, hdata, hat, heq⟩
  · exact Or.inr ⟨hr, data, heq⟩

theorem createIn_runs (hnew : nodes sb s.disk (s.inode ip).inum = ⟨type, 0, []⟩)
    (major minor : Int16) :
    Runs Stuck (createIn sb dp ip name type major minor) s (Placed sb s dp ip name type) := by
  unfold createIn
  refine .call (ilock_runs h hip) ?_
  rintro _ s1 ⟨hw1, hv1, hinum1, hdisk1⟩
  have hip1 : Locked s1 ip := ⟨hw1.held hip, hv1⟩
  have hminor : Minor (fun n => { n with major := major, minor := minor, nlink := 1 }) :=
    ⟨fun _ => rfl, fun _ => rfl, fun _ => rfl⟩
  refine .call (updateInode_eq (fun n => { n with major := major, minor := minor, nlink := 1 })
    (hw1.mode.trans htrans)) ?_
  intro _ s2 hs2
  have hinv2 : Inv sb s2 := hs2 ▸ hw1.inv.update hip1 hminor
  have hm1 : Moves s1 s2 0 0 := hs2 ▸ hw1.inv.moves_update hip1 hminor 0
  have hm2 : Moves s s2 0 0 := hw1.toMoves.comp hm1
  have hip2 : Locked s2 ip := hm1.locked hip1.used hip1
  have hn2 : nodes sb s2.disk =
      update (nodes sb s.disk) (s.inode ip).inum ⟨type, 1, []⟩ := by
    rw [hs2, hw1.inv.nodes_update hip1 hminor, hinum1, hdisk1, hnew]
  refine .ite ?_ ?_
  · intro hdir
    have hisdir := hinv2.isDir hip2 (by
      rw [(hinv2.synced ip hip2.used hip2.valid).1, hinv2.type_eq hip2.used, hm2.inum hip, hn2,
        update_self, hdir])
    have hdp2 := hm2.isDir hdp.used hdp
    refine .call (createDots_runs hinv2 hisdir hdp2.used (hm2.mode.trans htrans)) ?_
    rintro r s3 ⟨hinv3, hm3, hdots⟩
    rw [hm2.inum hip, hm2.inum hdp.used, hn2, update_self] at hdots
    obtain ⟨data, hn3, hdata⟩ := hdots rfl
    rw [update_idem] at hn3
    have hip3 := hm3.locked hip2.used hip2
    cases r with
    | false => exact .pure ⟨hinv3, hm2.comp hm3, hip3, fun _ => Or.inr ⟨rfl, data, hn3⟩⟩
    | true =>
      refine createEntry_ready h hdp hip htrans hne name hinv3 (hm2.comp hm3) hip3 ?_ hn3
      intro hlow
      rw [hdata rfl hlow, newData, if_pos hdir]
  · intro hdir
    refine createEntry_ready h hdp hip htrans hne name hinv2 hm2 hip2 ?_ hn2
    intro _
    rw [newData, if_neg hdir]

end CreateIn

/-! ## `create` -/

/-- A new inode `i` with the name `name` in directory `p`.  A link count of -1 would become
0 here, and the directory could be freed. -/
structure Newly (N : Nat → Node) (type : FileType) (i p : Nat) (name : List UInt8)
    (N' : Nat → Node) : Prop where
  pos : 0 < i
  free : (N i).type = .free
  parent : (N p).type = .dir
  absent : Absent (entries (N p).data) name
  adds : (type = .dir → (N p).nlink ≠ -1) → Adds N type i p name N'

/-- What becomes of a new name `name` in directory `p`, when the code that starts has the
shares `a`: no inode is free, or there is no space, or it succeeds. -/
inductive Made (sb : Superblock) (s : Fs) (a : Slot → Nat) (type : FileType) (p : Nat)
    (name : List UInt8) : Option Slot → Fs → Prop
  | full {s' : Fs} (walk : Walk sb s s' a 0) : Made sb s a type p name none s'
  | failed {s' : Fs} (inv : Inv sb s') (moves : Moves s s' a 0)
      (calm : Calm sb s a → ∃ i, (nodes sb s.disk i).type = .free ∧
        nodes sb s'.disk = update (nodes sb s.disk) i .vacant) :
      Made sb s a type p name none s'
  | made {s' : Fs} {k : Slot} (inv : Inv sb s') (moves : Moves s s' a (one k))
      (locked : Locked s' k)
      (calm : Calm sb s a →
        Newly (nodes sb s.disk) type (s'.inode k).inum p name (nodes sb s'.disk)) :
      Made sb s a type p name (some k) s'

variable {a : Slot → Nat} {r : Option Slot}

/-- A slot with a new inode is new. -/
theorem Calm.ref_new {type : FileType} {d' : Disk} (hc : Calm sb s a)
    (hown : ∀ l, 0 < (s.inode l).ref → a l < (s.inode l).ref ∨
      (s.disk.dinode (s.inode l).inum).type ≠ .free) (halloc : Allocated sb s.disk type i d')
    (hm : Moves s s' 0 (one k)) (hinum : (s'.inode k).inum = i) : (s'.inode k).ref = 1 := by
  have hzero : (s.inode k).ref = 0 := by
    by_contra hpos
    have hk : 0 < (s.inode k).ref := Nat.pos_of_ne_zero hpos
    have hfree : (s.disk.dinode (s.inode k).inum).type = .free := by
      rw [← hm.inum hk, hinum]
      exact halloc.free
    rcases hown k hk with hlt | htype
    · exact hc.alloc k hlt hfree
    · exact htype hfree
  have := hm.ref k
  rw [hzero, one_self] at this
  simpa using this

section Adds

variable {N N' : Nat → Node} {type : FileType} {n : Node}

/-- What inode `i` was before does not matter. -/
theorem Adds.forget (hne : p ≠ i) (h : Adds (update N i n) type i p name N') :
    Adds N type i p name N' := by
  obtain ⟨data, j, hdata, hat, heq⟩ := h
  rw [update_of_ne hne] at hat heq
  rw [update_idem] at heq
  exact ⟨data, j, hdata, hat, heq⟩

/-- No inode loses its last link. -/
theorem Adds.idle (h : Adds N type i p name N')
    (hlink : type = .dir → (N p).nlink ≠ -1) (m : Nat) (hm : (N' m).Idle) : (N m).Idle := by
  obtain ⟨data, j, _, _, rfl⟩ := h
  by_cases hmp : m = p
  · rw [hmp, update_self] at hm
    rw [hmp]
    refine ⟨hm.1, ?_⟩
    have hzero : (if type = .dir then (N p).nlink + 1 else (N p).nlink) = 0 := hm.2
    split at hzero
    · rename_i hdir
      have hneg : (N p).nlink = 0 - 1 := by rw [← hzero, Int16.add_sub_cancel]
      exact absurd hneg (hlink hdir)
    · exact hzero
  · rw [update_of_ne hmp] at hm
    by_cases hmi : m = i
    · rw [hmi, update_self] at hm
      have hone : (1 : Int16) = 0 := hm.2
      exact absurd hone (by decide)
    · rw [update_of_ne hmi] at hm
      exact hm

end Adds

theorem createNew_runs (h : Inv sb s) (hdp : IsDir s dp) (htrans : s.trans = true)
    (habsent : Absent (s.dir dp) name) (type : FileType) (major minor : Int16) :
    Runs Stuck (createNew sb dp name type major minor) s
      (Made sb s (one dp) type (s.inode dp).inum name) := by
  unfold createNew
  refine .call (ialloc_runs h htrans) ?_
  rintro r s1 (⟨rfl, hs⟩ | ⟨ip, i, rfl, halloc, rfl, hinv1, hm1⟩)
  · obtain rfl := hs.symm
    refine .call (iput_runs h hdp.used htrans) ?_
    rintro _ s' ⟨hw, _⟩
    exact .pure (.full hw)
  have hparent : (nodes sb s.disk (s.inode dp).inum).type = .dir := by
    rw [← h.type_eq hdp.used]
    exact hdp.dir
  have hfree := halloc.free_node
  have hn1 := halloc.nodes_eq h.intact
  have hp1 : (s1.inode dp).inum = (s.inode dp).inum := hm1.inum hdp.used
  have hne : (s.inode dp).inum ≠ (s1.inode ip).inum := by
    intro heq
    rw [heq, hfree] at hparent
    cases hparent
  have hdp1 : IsDir s1 dp := hm1.isDir hdp.used hdp
  have hip1 : 0 < (s1.inode ip).ref := (hm1.owns (fun _ => Nat.zero_le _)).used
  have habsent1 : Absent (s1.dir dp) name := by
    rw [hinv1.dir_eq hdp1.used, hp1, hn1, update_of_ne hne, ← h.dir_eq hdp.used]
    exact habsent
  have hm1' : Moves s s1 (one dp) (one dp + one ip) :=
    (hm1.add (one dp)).congr (fun _ => (Nat.zero_add _).symm) (fun _ => Nat.add_comm _ _)
  refine .call (createIn_runs hinv1 hdp1 hip1 (hm1.mode.trans htrans) (by rw [hp1]; exact hne) name
    (by rw [hn1, update_self]) major minor) ?_
  intro r s2 hplaced
  have hnodes := hplaced.nodes habsent1
  rw [hp1, hn1] at hnodes
  -- the code owns both inodes until it drops them
  have hm2 : Moves s s2 (one dp) (one dp + one ip) :=
    hm1'.comp (hplaced.moves.keep _)
  have hown2 : Owns s2 (one dp + one ip) := hm2.owns (owns_one hdp.used)
  have hdp2 : IsDir s2 dp := hplaced.moves.isDir hdp1.used hdp1
  have hip2 : (s2.inode ip).inum = (s1.inode ip).inum := hplaced.moves.inum hip1
  have htrans2 : s2.trans = true := hm2.mode.trans htrans
  cases r with
  | true =>
    have hadds := (hnodes.resolve_right (by rintro ⟨hr, _⟩; cases hr)).2.forget hne
    refine .call (iput_runs hplaced.inv hdp2.used htrans2) ?_
    rintro _ s' ⟨hw, _⟩
    have hshare : one dp ip < (s2.inode ip).ref := hown2.second
    have hinum' : (s'.inode ip).inum = (s1.inode ip).inum := (hw.inum hshare).trans hip2
    refine .pure (.made hw.inv (hm2.comp (hw.leave (one ip)).toMoves)
      (hw.toMoves.locked hshare hplaced.locked) ?_)
    intro hc
    rw [hinum']
    refine ⟨halloc.pos, hfree, hparent, by rw [← h.dir_eq hdp.used]; exact habsent, ?_⟩
    intro hlink
    have hc2 : Calm sb s2 (one dp + one ip) := hm2.calm hc (hadds.idle hlink)
    rw [(hw.leave (one ip)).quiet hc2.quiet]
    exact hadds
  | false =>
    obtain ⟨data, hn2⟩ := (hnodes.resolve_left (by rintro ⟨hr, _⟩; cases hr)).2
    rw [update_idem] at hn2
    refine .call (updateLink_runs hplaced.inv hplaced.locked htrans2 (fun _ => 0)) ?_
    rintro _ s3 ⟨hinv3, hm3, hip3, hn3⟩
    rw [hip2, hn2, update_idem, update_self] at hn3
    have hinum3 : (s3.inode ip).inum = (s1.inode ip).inum := ((hm3 0).inum hplaced.locked.used).trans hip2
    have htrans3 : s3.trans = true := (hm3 0).mode.trans htrans2
    refine .call (iput_runs hinv3 hip3.used htrans3) ?_
    rintro _ s4 ⟨hw4, hput4⟩
    have hm4 : Moves s s4 (one dp) (one dp) :=
      hm2.comp ((hm3 _).comp (hw4.release (one dp)).toMoves)
    have hdp4 : 0 < (s4.inode dp).ref := (hm4.owns (owns_one hdp.used)).used
    refine .call (iput_runs hw4.inv hdp4 (hw4.mode.trans htrans3)) ?_
    rintro _ s5 ⟨hw5, _⟩
    refine .pure (.failed hw5.inv (hm4.comp hw5.toMoves) ?_)
    intro hc
    refine ⟨(s1.inode ip).inum, hfree, ?_⟩
    have hone1 : (s1.inode ip).ref = 1 := by
      refine hc.ref_new ?_ halloc hm1 rfl
      intro l hl
      by_cases hldp : l = dp
      · rw [hldp, hdp.dir]
        exact Or.inr (by decide)
      · rw [one_of_ne hldp]
        exact Or.inl hl
    have hone : (s3.inode ip).ref = 1 := by
      have h2 := hplaced.moves.ref ip
      have h3 := (hm3 0).ref ip
      simp only [Pi.zero_apply] at h2 h3
      omega
    have hlast : Last s3 ip := (hinv3.last_iff hip3).mpr ⟨hone, by rw [hinum3, hn3, update_self]; rfl⟩
    have hn4 := hput4.nodes_last hinv3 hip3.used hlast
    rw [hinum3, hn3, update_idem] at hn4
    have hc4 : Calm sb s4 (one dp) := by
      refine hm4.calm hc ?_
      intro m hm
      rw [hn4] at hm
      by_cases hmi : m = (s1.inode ip).inum
      · rw [hmi, update_self] at hm
        exact absurd hm Node.vacant_not_idle
      · rw [update_of_ne hmi] at hm
        exact hm
    rw [hw5.quiet hc4.quiet, hn4]

theorem Made.inv {type : FileType} (h : Made sb s a type p name r s') : Inv sb s' := by
  cases h with
  | full walk => exact walk.inv
  | failed inv _ _ => exact inv
  | made inv _ _ _ => exact inv

/-- A walk before `createNew`. -/
theorem Made.after {b : Slot → Nat} {type : FileType} {s0 : Fs} (hw : Walk sb s0 s a b)
    (h : Made sb s b type p name r s') : Made sb s0 a type p name r s' := by
  cases h with
  | full walk => exact .full (hw.comp walk)
  | failed inv moves calm =>
    refine .failed inv (hw.toMoves.comp moves) ?_
    intro hc
    have hnew := calm (hw.calm hc)
    rw [hw.quiet hc.quiet] at hnew
    exact hnew
  | made inv moves locked calm =>
    refine .made inv (hw.toMoves.comp moves) locked ?_
    intro hc
    have hnew := calm (hw.calm hc)
    rw [hw.quiet hc.quiet] at hnew
    exact hnew

theorem createOld_runs (h : Inv sb s) (hown : Owns s (one dp + one ip)) (htrans : s.trans = true)
    (type : FileType) :
    Runs Stuck (createOld dp ip type) s (fun r s' =>
      (r = none ∧ Walk sb s s' (one dp + one ip) 0) ∨
        (r = some ip ∧ Walk sb s s' (one dp + one ip) (one ip) ∧ Locked s' ip ∧ type = .file ∧
          (s'.inode ip).copy.type ≠ .dir)) := by
  unfold createOld
  refine .call (iput_runs h (Nat.zero_lt_of_lt hown.first) htrans) ?_
  rintro _ s1 ⟨hw1, _⟩
  have hip1 : 0 < (s1.inode ip).ref := hw1.held hown.second
  refine .call (ilock_runs hw1.inv hip1) ?_
  rintro _ s2 ⟨hw2, hv, _, _⟩
  have hw : Walk sb s s2 (one dp + one ip) (one ip) := (hw1.leave _).comp (hw2.keep _)
  have hip2 : Locked s2 ip := ⟨hw2.held hip1, hv⟩
  refine .bind (.get (.ite ?_ ?_))
  · rintro ⟨htype, hfound⟩
    refine .pure (Or.inr ⟨rfl, hw, hip2, htype, ?_⟩)
    rcases hfound with hfound | hfound <;> rw [hfound] <;> decide
  · intro _
    refine .call (iput_runs hw2.inv hip2.used (hw.mode.trans htrans)) ?_
    rintro _ s3 ⟨hw3, _⟩
    exact .pure (Or.inl ⟨rfl, hw.comp hw3⟩)

/-- What `create` does: the name cannot be used, it is that of a file that is there, or it is
a new one. -/
inductive Created (sb : Superblock) (s : Fs) (cwd : Slot) (path : List UInt8) (type : FileType) :
    Option Slot → Fs → Prop
  | refused {s' : Fs} (walk : Walk sb s s' 0 0) : Created sb s cwd path type none s'
  | found {s' : Fs} {k : Slot} (walk : Walk sb s s' 0 (one k)) (locked : Locked s' k)
      (file : type = .file) (notDir : (s'.inode k).copy.type ≠ .dir) :
      Created sb s cwd path type (some k) s'
  | new {s' : Fs} {r : Option Slot} (p : Nat) (name : List UInt8) (made : Made sb s 0 type p name r s')
      (parent : Quiet sb s 0 →
        follow (nodes sb s.disk) true (start s cwd path) (components path) = some (p, name)) :
      Created sb s cwd path type r s'

theorem Created.inv {cwd : Slot} {path : List UInt8} {type : FileType}
    (h : Created sb s cwd path type r s') : Inv sb s' := by
  cases h with
  | refused walk => exact walk.inv
  | found walk _ _ _ => exact walk.inv
  | new _ _ made _ => exact made.inv

theorem create_runs (h : Inv sb s) {cwd : Slot} (hcwd : 0 < (s.inode cwd).ref)
    (htrans : s.trans = true) (path : List UInt8) (type : FileType) (major minor : Int16) :
    Runs Stuck (create sb cwd path type major minor) s (Created sb s cwd path type) := by
  unfold create
  refine .call (nameiparent_runs h hcwd htrans path) ?_
  rintro r s1 ⟨⟨rfl, hw1⟩ | ⟨dp, name, rfl, hw1, hdp1⟩, hplace⟩
  · exact .pure (.refused hw1)
  refine .call (ilock_runs hw1.inv hdp1.used) ?_
  rintro _ s2 ⟨hw2, _, hinum2, _⟩
  have hw : Walk sb s s2 0 (one dp) := hw1.comp (hw2.keep _)
  have hdp2 : IsDir s2 dp := hw2.toMoves.isDir hdp1.used hdp1
  refine .call (dirlookup_runs hw2.inv hdp2 name) ?_
  rintro r s3 (⟨rfl, hs, habsent⟩ | ⟨ip, e, j, rfl, _, hw3, _, _⟩)
  · obtain rfl := hs.symm
    refine (createNew_runs hw2.inv hdp2 (hw.mode.trans htrans) habsent type major minor).post ?_
    intro r s' hmade
    refine .new _ _ (hmade.after hw) ?_
    intro hq
    rw [← hplace hq, place, Option.map_some, hinum2]
  · have hw' : Walk sb s s3 0 (one dp + one ip) := hw.comp (hw3.beside _)
    have hown : Owns s3 (one dp + one ip) := hw'.toMoves.owns (fun _ => Nat.zero_le _)
    refine (createOld_runs hw3.inv hown (hw'.mode.trans htrans) type).post ?_
    rintro r s' (⟨rfl, hw4⟩ | ⟨rfl, hw4, hlocked, htype, hdir⟩)
    · exact .refused (hw'.comp hw4)
    · exact .found (hw'.comp hw4) hlocked htype hdir

end Xv6.Names
