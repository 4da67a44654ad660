import Xv6.Names.Linking
import Xv6.Names.NameMap
import Xv6.Names.Namex

/-!
# Calls on paths

What a caller sees of `link`, `unlink` and `create`.  A call that fails has changed no inode
that is in use.  After `link` or `create` the path leads to the inode, and every path that led
to an inode before still leads to it.

A directory gets one entry, in a place where none was in use.  `Keeps` is what follows for the
lookups, and it carries over to whole paths.
-/

namespace Xv6.Names

open Xv6.Lib Xv6.FileSystem Xv6.FileSystem.Disk Function

variable {sb : Superblock} {s s' : Fs} {N N' : Nat → Node} {n : Node} {i j p : Nat}
  {name : List UInt8}

/-! ## One entry -/

theorem Node.entries_write {x : List UInt8} (hwhole : DIRENT ∣ n.data.length)
    (hat : EmptyAt (entries n.data) j) (hx : x.length = DIRENT) (m : Nat) :
    (entries (n.write j x).data)[m]? =
      if m = j then some (Entry.ofBytes x) else (entries n.data)[m]? := by
  have hle := hat.le
  rw [length_entries] at hle
  have hend : j * DIRENT ≤ n.data.length :=
    (Nat.mul_le_mul_right _ hle).trans (Nat.div_mul_le_self _ _)
  have hlen : j * DIRENT < n.data.length ↔ j < (entries n.data).length := by
    rw [length_entries, Nat.lt_div_iff_mul_lt_of_dvd (by decide) hwhole]
  have hle := hat.le
  rw [Node.write, entries_splice hx hend hwhole]
  by_cases hlt : j < (entries n.data).length
  · rw [if_pos (hlen.mpr hlt)]
    grind
  · rw [if_neg (mt hlen.mp hlt)]
    grind

/-- A new entry is found, and hides no other. -/
theorem lookup_write (hwhole : DIRENT ∣ (N p).data.length) (hat : EmptyAt (entries (N p).data) j)
    (hpos : 0 < i) (hi : i < 2 ^ 16) (habsent : Absent (entries (N p).data) name)
    (hdata : (N' p).data = ((N p).write j (Dirent.named i name).bytes).data) :
    lookup N' p name = some i ∧
      ∀ other x, lookup N p other = some x → lookup N' p other = some x := by
  have hes : ∀ m : Nat, (entries (N' p).data)[m]? =
      if m = j then some ⟨i, key name⟩ else (entries (N p).data)[m]? := by
    intro m
    rw [hdata, Node.entries_write hwhole hat (Dirent.length_bytes _), ofBytes_named,
      Nat.mod_eq_of_lt hi]
    rfl
  refine ⟨lookup_found (e := ⟨i, key name⟩) (j := j) ⟨?_, ?_, ?_⟩, ?_⟩
  · rw [hes j, if_pos rfl]
  · exact ⟨hpos.ne', namecmp_iff.mpr (strncpy_strncpy name DIRSIZ).symm⟩
  · intro l e hl he
    rw [hes l, if_neg hl.ne] at he
    exact habsent e (List.mem_of_getElem? he)
  · intro other x hx
    refine (inumOf_write ?_ hat.empty hes).trans hx
    rintro ⟨_, hcmp⟩
    -- the name was absent, under each of its spellings
    have hkey : key other = key name :=
      (namecmp_iff.mp hcmp).trans (strncpy_strncpy name DIRSIZ)
    have hnone : lookup N p other = none := by
      refine lookup_absent ?_
      rintro e he ⟨hlive, hother⟩
      exact habsent e he ⟨hlive, namecmp_iff.mpr (hkey.symm.trans (namecmp_iff.mp hother))⟩
    rw [hnone] at hx
    cases hx

/-! ## Paths -/

/-- What is found in a directory before is found in it afterwards. -/
def Keeps (N N' : Nat → Node) : Prop :=
  ∀ m, (N m).type = .dir → (N' m).type = .dir ∧
    ∀ name x, lookup N m name = some x → lookup N' m name = some x

theorem Keeps.follow (h : Keeps N N') (names : List (List UInt8)) {m : Nat}
    {x : Nat × List UInt8} (hx : follow N false m names = some x) :
    Names.follow N' false m names = some x := by
  induction names generalizing m with
  | nil => exact hx
  | cons name names ih =>
    simp only [Names.follow, Bool.false_eq_true, false_and, if_false] at hx ⊢
    obtain ⟨hdir, hx⟩ := Option.ite_none_right_eq_some.mp hx
    obtain ⟨l, hl, hx⟩ := Option.bind_eq_some_iff.mp hx
    rw [if_pos (h m hdir).1, (h m hdir).2 name l hl]
    exact ih hx

/-- A path leads to the inode that its last name has got. -/
theorem Keeps.follow_new (h : Keeps N N') (hfound : lookup N' p name = some i)
    (names : List (List UInt8)) {m : Nat} (hpath : Names.follow N true m names = some (p, name)) :
    Names.follow N' false m names = some (i, []) := by
  induction names generalizing m with
  | nil => cases hpath
  | cons first names ih =>
    simp only [Names.follow, true_and, Bool.false_eq_true, false_and, if_false] at hpath ⊢
    obtain ⟨hdir, hpath⟩ := Option.ite_none_right_eq_some.mp hpath
    rw [if_pos (h m hdir).1]
    by_cases hlast : names = []
    · rw [if_pos hlast] at hpath
      cases hpath
      rw [hfound, hlast]
      rfl
    · rw [if_neg hlast] at hpath
      obtain ⟨l, hl, hpath⟩ := Option.bind_eq_some_iff.mp hpath
      rw [(h m hdir).2 first l hl]
      exact ih hpath

/-- One directory gets an entry, and no other directory changes. -/
theorem keeps_of_entry (hsame : ∀ m, m ≠ p → (N m).type = .dir → N' m = N m)
    (hdir : (N' p).type = .dir)
    (hentry : ∀ other x, lookup N p other = some x → lookup N' p other = some x) : Keeps N N' := by
  intro m hm
  by_cases hmp : m = p
  · rw [hmp]
    exact ⟨hdir, hentry⟩
  · have heq := hsame m hmp hm
    unfold lookup
    rw [heq]
    exact ⟨hm, fun _ _ hx => hx⟩

theorem NewLink.keeps (h : NewLink N i p name N') (hwhole : DIRENT ∣ (N p).data.length)
    (hpos : 0 < i) (hi : i < 2 ^ 16) (hlink : (N i).nlink ≠ -1) :
    Keeps N N' ∧ lookup N' p name = some i := by
  obtain ⟨j, hat, heq⟩ := h.adds hlink
  have hp : N' p = (N p).write j (Dirent.named i name).bytes := by rw [heq, update_self]
  obtain ⟨hnew, hold⟩ := lookup_write hwhole hat hpos hi h.absent (congrArg Node.data hp)
  refine ⟨keeps_of_entry ?_ (by rw [hp]; exact h.parent) hold, hnew⟩
  intro m hmp hm
  have hmi : m ≠ i := by
    rintro rfl
    exact h.notDir hm
  rw [heq, update_of_ne hmp, update_of_ne hmi]

theorem Newly.keeps {type : FileType} (h : Newly N type i p name N')
    (hwhole : DIRENT ∣ (N p).data.length) (hi : i < 2 ^ 16)
    (hlink : type = .dir → (N p).nlink ≠ -1) : Keeps N N' ∧ lookup N' p name = some i := by
  obtain ⟨data, j, _, hat, heq⟩ := h.adds hlink
  have hp : N' p = (N p).adopt type i j name := by rw [heq, update_self]
  have hdata : (N' p).data = ((N p).write j (Dirent.named i name).bytes).data := by rw [hp]; rfl
  obtain ⟨hnew, hold⟩ := lookup_write hwhole hat h.pos hi h.absent hdata
  refine ⟨keeps_of_entry ?_ (by rw [hp]; exact h.parent) hold, hnew⟩
  intro m hmp hm
  have hmi : m ≠ i := by
    rintro rfl
    cases h.free.symm.trans hm
  rw [heq, update_of_ne hmp, update_of_ne hmi]

/-! ## The calls -/

/-- The inode of a path, from inode `m` on. -/
def resolve (N : Nat → Node) (m : Nat) (path : List UInt8) : Option Nat :=
  (follow N false m (components path)).map Prod.fst

/-- Every path that led to an inode still leads to it. -/
theorem Keeps.resolve (h : Keeps N N') {m x : Nat} {path : List UInt8}
    (hx : Names.resolve N m path = some x) : Names.resolve N' m path = some x := by
  obtain ⟨y, hy, rfl⟩ := Option.map_eq_some_iff.mp hx
  exact Option.map_eq_some_iff.mpr ⟨y, h.follow _ hy, rfl⟩

theorem Inv.whole_dir (h : Inv sb s) (hdir : (nodes sb s.disk p).type = .dir) :
    DIRENT ∣ (nodes sb s.disk p).data.length := by
  by_cases hp : p < sb.ninodes
  · rw [nodes_of_lt hp] at hdir ⊢
    exact (h.dirs p hp hdir).whole
  · rw [nodes, if_neg hp] at hdir
    cases hdir

/-- The root directory of an empty file system, in which inode 2 has been removed while it is
in use. -/
theorem crowded_calm : Calm Superblock.crowded (Fs.crowded 2) 0 := by
  refine ⟨?_, ?_, fun _ _ _ => rfl⟩
  · intro i hi htype hlink
    have hall : ∀ i : Fin 64, (Disk.crowded.dinode i).type ≠ .free →
        (Disk.crowded.dinode i).nlink = 0 → i = 2 := by decide
    obtain rfl : i = 2 := congrArg Fin.val (hall ⟨i, hi⟩ htype hlink)
    exact ⟨1, rfl, by decide⟩
  · intro k _
    have hall : ∀ k : Slot, (Disk.crowded.dinode (slotInum k)).type ≠ .free := by decide
    exact hall k

end Xv6.Names
