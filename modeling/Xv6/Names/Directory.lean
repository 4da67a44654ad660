import Xv6.Names.Inodes

/-!
# Directories

The functions on one directory, in terms of its list of entries.  `Found` and `Absent`
say what `dirlookup` looks for.  A directory is written one entry at a time, at the
offset of an entry or at the end: `Rewritten` says that either the entry is there
afterwards, or the write has failed for lack of space and no file has changed.
-/

namespace Xv6.Names

open Xv6.Lib Xv6.FileSystem Xv6.FileSystem.Disk

/-! ## Names -/

/-- Names are compared as they are stored. -/
theorem strncmp_eq_zero (p q : List UInt8) (n : Nat) :
    strncmp p q n = 0 ↔ strncpy p n = strncpy q n := by
  induction n generalizing p q with
  | zero => cases p <;> cases q <;> simp [strncmp, strncpy]
  | succ n ih =>
    have hcons : ∀ t : List UInt8, strncpy t (n + 1) =
        t.headD 0 :: strncpy (if t.headD 0 = 0 then [] else t.tail) n := by
      intro t
      cases t with
      | nil => rfl
      | cons c t =>
        rw [strncpy]
        by_cases hc : c = 0
        · simp [hc]
        · simp [hc]
    rw [strncmp, hcons p, hcons q, List.cons.injEq]
    generalize p.headD 0 = x
    generalize q.headD 0 = y
    by_cases hxy : x = y
    · subst hxy
      by_cases hx : x = 0
      · simp [hx]
      · simp [hx, ih]
    · have hdiff : (x.toNat : Int) - y.toNat ≠ 0 := by
        intro hzero
        exact hxy (UInt8.toNat_inj.mp (by omega))
      simp [hxy, hdiff]

theorem namecmp_eq_zero (s t : List UInt8) :
    namecmp s t = 0 ↔ strncpy s DIRSIZ = strncpy t DIRSIZ :=
  strncmp_eq_zero s t DIRSIZ

/-! ## Entries -/

variable {data : List UInt8} {j m : Nat}

@[simp] theorem length_entries : (entries data).length = data.length / DIRENT := by
  simp [entries]

theorem getElem_entries (h : j < (entries data).length) :
    (entries data)[j] = Entry.ofBytes ((data.drop (j * DIRENT)).take DIRENT) := by
  simp [entries]

theorem getElem?_entries (h : (j + 1) * DIRENT ≤ data.length) :
    (entries data)[j]? = some (Entry.ofBytes ((data.drop (j * DIRENT)).take DIRENT)) := by
  have hlt : j < data.length / DIRENT := (Nat.le_div_iff_mul_le (by decide)).mpr h
  rw [entries, List.getElem?_map, List.getElem?_range hlt]
  rfl

section Splice

variable {x : List UInt8} (hx : x.length = DIRENT) (hj : j * DIRENT ≤ data.length)
include hx hj

/-- The bytes of entry `m` after entry `j` is written. -/
theorem chunk_splice (m : Nat) :
    ((splice data (j * DIRENT) x).drop (m * DIRENT)).take DIRENT =
      if m = j then x else (data.drop (m * DIRENT)).take DIRENT := by
  refine List.ext_getElem? (fun p => ?_)
  by_cases hp : p < DIRENT
  · rw [List.getElem?_take_of_lt hp, List.getElem?_drop, getElem?_splice hj, hx]
    by_cases hmj : m = j
    · rw [if_pos hmj, hmj, if_neg (by omega), if_pos (by omega), Nat.add_sub_cancel_left]
    · rw [if_neg hmj, List.getElem?_take_of_lt hp, List.getElem?_drop]
      simp only [DIRENT, DIRSIZ] at hp hx ⊢
      by_cases hlt : m < j
      · rw [if_pos (by omega)]
      · rw [if_neg (by omega), if_neg (by omega)]
  · have hlen : DIRENT ≤ p := Nat.le_of_not_lt hp
    rw [List.getElem?_eq_none ((List.length_take_le _ _).trans hlen)]
    split
    · rw [List.getElem?_eq_none (by omega)]
    · rw [List.getElem?_eq_none ((List.length_take_le _ _).trans hlen)]

/-- The entries after entry `j` is written, or after one is added. -/
theorem entries_splice (hdvd : DIRENT ∣ data.length) :
    entries (splice data (j * DIRENT) x) =
      if j * DIRENT < data.length then (entries data).set j (Entry.ofBytes x)
      else entries data ++ [Entry.ofBytes x] := by
  obtain ⟨n, hn⟩ := hdvd
  have hlen : (splice data (j * DIRENT) x).length = max data.length (j * DIRENT + DIRENT) := by
    rw [length_splice hj, hx]
  split
  · rename_i hlt
    have hcount : (splice data (j * DIRENT) x).length / DIRENT = data.length / DIRENT := by
      rw [hlen]
      simp only [DIRENT, DIRSIZ] at hn hlt ⊢
      omega
    refine List.ext_getElem (by simp [hcount]) (fun m _ _ => ?_)
    rw [List.getElem_set, getElem_entries, getElem_entries, chunk_splice hx hj]
    by_cases hm : m = j
    · rw [if_pos hm, if_pos hm.symm]
    · rw [if_neg hm, if_neg (fun h => hm h.symm)]
  · rename_i hge
    have hcount : (splice data (j * DIRENT) x).length / DIRENT = data.length / DIRENT + 1 ∧
        data.length / DIRENT = j := by
      rw [hlen]
      simp only [DIRENT, DIRSIZ] at hn hge hj ⊢
      omega
    refine List.ext_getElem (by simp [hcount.1]) (fun m hm _ => ?_)
    rw [length_entries, hcount.1, hcount.2] at hm
    rw [getElem_entries, chunk_splice hx hj]
    by_cases hmj : m = j
    · rw [if_pos hmj, List.getElem_append_right (by simp [hcount.2, hmj]), List.getElem_singleton]
    · rw [if_neg hmj, List.getElem_append_left (by simp [hcount.2]; omega), getElem_entries]

end Splice

/-! ## Reading an entry -/

/-- What the directory in slot `k` holds. -/
def Fs.dir (s : Fs) (k : Slot) : List Entry := entries (s.disk.contents (s.inode k).inum)

variable {sb : Superblock} {s s' : Fs} {dp k l : Slot} {name : List UInt8} {i : Nat}

@[simp] theorem setFile_file (s : Fs) (k : Slot) : s.setFile k (s.file k) = s := by
  unfold Fs.setFile Fs.file
  dsimp only
  rw [Function.update_eq_self]

/-- Offsets in a file fit into a word. -/
theorem toNat_offset {off : Nat} (h : off ≤ MAXFILE * BSIZE) : (UInt32.ofNat off).toNat = off := by
  refine UInt32.toNat_ofNat_of_lt' (h.trans_lt ?_)
  decide

/-- A slot with a directory that is read. -/
structure IsDir (s : Fs) (k : Slot) : Prop extends Locked s k where
  dir : (s.disk.dinode (s.inode k).inum).type = .dir

theorem Moves.isDir {a b : Slot → Nat} (h : Moves s s' a b) (hk : a k < (s.inode k).ref)
    (hdir : IsDir s k) : IsDir s' k := by
  refine ⟨h.locked hk hdir.toLocked, ?_⟩
  rw [h.inum hk, h.type k hk (by rw [hdir.dir]; decide)]
  exact hdir.dir

variable {E : Panic → Prop}

section Read

variable (h : Inv sb s) (hdp : IsDir s dp)
include h hdp

theorem Inv.copy_eq : (s.inode dp).copy = s.disk.dinode (s.inode dp).inum :=
  (h.synced dp hdp.used hdp.valid).1

/-- The size of a directory, in entries. -/
theorem Inv.size_eq : (s.inode dp).copy.size = (s.dir dp).length * DIRENT ∧
    (s.disk.contents (s.inode dp).inum).length = (s.dir dp).length * DIRENT ∧
    (s.dir dp).length * DIRENT ≤ MAXFILE * BSIZE := by
  have hi := h.range dp hdp.used
  have hwhole := (h.dirs _ hi hdp.dir).whole
  have hlen : (s.disk.contents (s.inode dp).inum).length = (s.dir dp).length * DIRENT := by
    rw [Fs.dir, length_entries, Nat.div_mul_cancel hwhole]
  have hsize : (s.inode dp).copy.size = (s.disk.contents (s.inode dp).inum).length := by
    rw [h.copy_eq hdp, length_contents]
  refine ⟨hsize.trans hlen, hlen, ?_⟩
  rw [← hlen, ← hsize, h.copy_eq hdp]
  exact h.intact.bounded _ hi

theorem readEntry_runs (short : Panic) (hj : j < (s.dir dp).length) :
    Runs E (readEntry sb dp (j * DIRENT) short) s (fun e s' => s' = s ∧
      (s.dir dp)[j]? = some e) := by
  obtain ⟨hsize, hlen, hmax⟩ := h.size_eq hdp
  have hi := h.range dp hdp.used
  have hview := h.view hdp.used hdp.valid
  have hend : (j + 1) * DIRENT ≤ (s.dir dp).length * DIRENT := Nat.mul_le_mul_right _ hj
  have hoff : (UInt32.ofNat (j * DIRENT)).toNat = j * DIRENT := by
    refine toNat_offset ?_
    simp only [DIRENT, DIRSIZ] at hend hmax ⊢
    omega
  have hwhole : ∀ bn, bn < blocks (s.file dp).ip.size →
      (s.file dp).view.fileAddr (s.file dp).inum bn ≠ 0 := by
    intro bn hbn
    rw [hview]
    refine h.intact.whole _ bn hi ?_
    show bn < blocks (s.disk.dinode (s.inode dp).inum).size
    rw [← h.copy_eq hdp]
    exact hbn
  have hbound : (s.file dp).ip.size ≤ MAXFILE * BSIZE := by
    show (s.inode dp).copy.size ≤ _
    rw [hsize]
    exact hmax
  have hread : Runs E (readi sb Sink.kernel (UInt32.ofNat (j * DIRENT)) (UInt32.ofNat DIRENT))
      (s.file dp) _ :=
    (readi_runs hwhole hbound _ _).total
  unfold readEntry
  refine .bind (.zoom (hread.post ?_))
  rintro r t ⟨rfl, hr⟩
  rw [setFile_file]
  have hcount : readCount (s.file dp).ip.size (UInt32.ofNat (j * DIRENT)).toNat
      (UInt32.ofNat DIRENT).toNat = DIRENT := by
    have hsize' : (s.file dp).ip.size = (s.dir dp).length * DIRENT := hsize
    rw [hoff, show (UInt32.ofNat DIRENT).toNat = DIRENT from rfl, hsize', readCount, if_pos]
    · simp only [DIRENT, DIRSIZ] at hend ⊢
      omega
    · simp only [DIRENT, DIRSIZ, MAXFILE, NDIRECT, NINDIRECT, BSIZE] at hend hmax ⊢
      omega
  rw [hcount, hoff, hview] at hr
  have hr := hr.resolve_right (by rintro ⟨_, _, _, hfalse⟩; cases hfalse)
  rw [hr]
  dsimp only
  rw [if_neg (by simp)]
  refine .pure ⟨rfl, ?_⟩
  have hfit : j * DIRENT + DIRENT ≤ (s.disk.dinode (s.inode dp).inum).size := by
    rw [← h.copy_eq hdp, hsize]
    simp only [DIRENT, DIRSIZ] at hend ⊢
    omega
  rw [Fs.dir, getElem?_entries (by rw [hlen]; exact hend)]
  show _ = some (Entry.ofBytes (s.disk.bytes (s.inode dp).inum (j * DIRENT) DIRENT))
  rw [bytes_eq hfit]

/-- The scan finds the first entry from `j` on at which it stops. -/
theorem scanEntries_runs (short : Panic) (stop : Entry → Bool) (rounds : Nat) :
    ∀ j, (s.dir dp).length < j + rounds →
    Runs E (scanEntries sb dp short stop rounds (j * DIRENT)) s (fun r s' => s' = s ∧
      ((r = none ∧ ∀ m e, j ≤ m → (s.dir dp)[m]? = some e → stop e = false) ∨
        ∃ e m, r = some (e, m * DIRENT) ∧ j ≤ m ∧ (s.dir dp)[m]? = some e ∧ stop e = true ∧
          ∀ l e', j ≤ l → l < m → (s.dir dp)[l]? = some e' → stop e' = false)) := by
  have hsize := (h.size_eq hdp).1
  induction rounds with
  | zero =>
    intro j hj
    refine .pure ⟨rfl, Or.inl ⟨rfl, ?_⟩⟩
    intro m e hm he
    rw [List.getElem?_eq_none (by omega)] at he
    cases he
  | succ rounds ih =>
    intro j hj
    unfold scanEntries
    refine .bind (.get ?_)
    rw [hsize]
    split
    · rename_i hlt
      have hin : j < (s.dir dp).length := Nat.lt_of_mul_lt_mul_right hlt
      refine .call (readEntry_runs h hdp short hin) ?_
      rintro e _ ⟨rfl, he⟩
      split
      · rename_i hstop
        refine .pure ⟨rfl, Or.inr ⟨e, j, rfl, Nat.le_refl j, he, hstop, ?_⟩⟩
        omega
      · rename_i hgo
        have hskip : stop e = false := by simpa using hgo
        have hnext := ih (j + 1) (by omega)
        rw [Nat.add_mul, Nat.one_mul] at hnext
        refine hnext.post ?_
        rintro r _ ⟨rfl, hr⟩
        refine ⟨rfl, hr.imp ?_ ?_⟩
        · rintro ⟨rfl, hnone⟩
          refine ⟨rfl, ?_⟩
          intro m e' hm he'
          by_cases hmj : m = j
          · rw [hmj, he] at he'
            cases he'
            exact hskip
          · exact hnone m e' (by omega) he'
        · rintro ⟨e', m, rfl, hm, he', hstop, hbefore⟩
          refine ⟨e', m, rfl, by omega, he', hstop, ?_⟩
          intro l e'' hl hlm hl'
          by_cases hlj : l = j
          · rw [hlj, he] at hl'
            cases hl'
            exact hskip
          · exact hbefore l e'' (by omega) hlm hl'
    · rename_i hge
      have hend : (s.dir dp).length ≤ j := by
        by_contra hlt
        exact hge (Nat.mul_lt_mul_of_pos_right (Nat.lt_of_not_le hlt) (by decide))
      refine .pure ⟨rfl, Or.inl ⟨rfl, ?_⟩⟩
      intro m e hm he
      rw [List.getElem?_eq_none (by omega)] at he
      cases he

end Read

/-! ## Looking for an entry -/

/-- The entry has the name `name`. -/
def Entry.Named (name : List UInt8) (e : Entry) : Prop := e.inum ≠ 0 ∧ namecmp name e.name = 0

/-- The first entry with the name `name` is `e`, at index `j`. -/
structure Found (es : List Entry) (name : List UInt8) (e : Entry) (j : Nat) : Prop where
  here : es[j]? = some e
  named : e.Named name
  first : ∀ l e', l < j → es[l]? = some e' → ¬ e'.Named name

/-- No entry has the name `name`. -/
def Absent (es : List Entry) (name : List UInt8) : Prop := ∀ e ∈ es, ¬ e.Named name

/-- The number in the first entry with the name `name`. -/
def inumOf (es : List Entry) (name : List UInt8) : Option Nat :=
  (es.find? (fun e => e.inum ≠ 0 ∧ namecmp name e.name = 0)).map Entry.inum

section Entries

variable {es : List Entry} {e : Entry}

theorem inumOf_found (h : Found es name e j) : inumOf es name = some e.inum := by
  have hfind : es.find? (fun e => e.inum ≠ 0 ∧ namecmp name e.name = 0) = some e := by
    rw [List.find?_eq_some_iff_getElem]
    obtain ⟨hlt, he⟩ := List.getElem?_eq_some_iff.mp h.here
    refine ⟨by simpa [Entry.Named] using h.named, j, hlt, he, ?_⟩
    intro l hl
    have hbefore := h.first l _ hl (List.getElem?_eq_getElem (hl.trans hlt))
    rw [Bool.not_eq_true', decide_eq_false_iff_not]
    exact hbefore
  rw [inumOf, hfind]
  rfl

theorem inumOf_absent (h : Absent es name) : inumOf es name = none := by
  have hfind : es.find? (fun e => e.inum ≠ 0 ∧ namecmp name e.name = 0) = none := by
    rw [List.find?_eq_none]
    intro e he
    have := h e he
    simpa [Entry.Named] using this
  rw [inumOf, hfind]
  rfl

end Entries

section Lookup

variable (h : Inv sb s) (hdp : IsDir s dp)
include h hdp

theorem Inv.entry_lt {e : Entry} (he : e ∈ s.dir dp) : e.inum < sb.ninodes :=
  (h.dirs _ (h.range dp hdp.used) hdp.dir).range e he

/-- `dirlookup` panics if and only if `iget` does for the entry that it finds. -/
theorem dirlookup_exact (name : List UInt8) :
    Runs (fun e => e = .igetNoInodes ∧
        ∃ e' j, Found (s.dir dp) name e' j ∧ ¬ Fits s e'.inum) (dirlookup sb dp name) s (fun r s' =>
      (r = none ∧ s' = s ∧ Absent (s.dir dp) name) ∨
        ∃ k e j, r = some (k, j * DIRENT) ∧ Found (s.dir dp) name e j ∧ Fits s e.inum ∧
          Walk sb s s' 0 (one k) ∧ (s'.inode k).inum = e.inum ∧ s'.disk = s.disk) := by
  have hsize := (h.size_eq hdp).1
  have hlen : (s.dir dp).length ≤ (s.inode dp).copy.size := by
    rw [hsize]
    exact Nat.le_mul_of_pos_right _ (by decide)
  unfold dirlookup
  refine .bind (.get ?_)
  rw [if_neg (by rw [h.copy_eq hdp]; exact not_not.mpr hdp.dir)]
  dsimp only
  refine .call (R := fun r s' => s' = s ∧ ((r = none ∧ Absent (s.dir dp) name) ∨
    ∃ e j, r = some (e, j * DIRENT) ∧ Found (s.dir dp) name e j)) ?_ ?_
  · have hscan := scanEntries_runs (E := fun e => e = .igetNoInodes ∧
        ∃ e' j, Found (s.dir dp) name e' j ∧ ¬ Fits s e'.inum) h hdp .dirlookupRead
      (fun de => de.inum ≠ 0 ∧ namecmp name de.name = 0) ((s.inode dp).copy.size + 1) 0 (by omega)
    rw [Nat.zero_mul] at hscan
    refine hscan.post ?_
    rintro r _ ⟨rfl, ⟨rfl, hnone⟩ | ⟨e, j, rfl, _, he, hstop, hbefore⟩⟩
    · refine ⟨rfl, Or.inl ⟨rfl, ?_⟩⟩
      intro e he hnamed
      obtain ⟨j, hj⟩ := List.mem_iff_getElem?.mp he
      have := hnone j e (Nat.zero_le j) hj
      simp only [decide_eq_false_iff_not] at this
      exact this hnamed
    · refine ⟨rfl, Or.inr ⟨e, j, rfl, he, by simpa [Entry.Named] using hstop, ?_⟩⟩
      intro l e' hl he' hnamed
      have := hbefore l e' (Nat.zero_le l) hl he'
      simp only [decide_eq_false_iff_not] at this
      exact this hnamed
  · rintro r _ ⟨rfl, ⟨rfl, habsent⟩ | ⟨e, j, rfl, hfound⟩⟩
    · exact .pure (Or.inl ⟨rfl, rfl, habsent⟩)
    · have hmem := List.mem_of_getElem? hfound.here
      refine .call ((iget_exact h (h.entry_lt hdp hmem)).errors ?_) ?_
      · rintro err ⟨rfl, hfull⟩
        exact ⟨rfl, e, j, hfound, hfull⟩
      · rintro k s' ⟨hfits, hw, hinum, hdisk⟩
        exact .pure (Or.inr ⟨k, e, j, rfl, hfound, hfits, hw, hinum, hdisk⟩)

theorem dirlookup_runs (name : List UInt8) :
    Runs Stuck (dirlookup sb dp name) s (fun r s' =>
      (r = none ∧ s' = s ∧ Absent (s.dir dp) name) ∨
        ∃ k e j, r = some (k, j * DIRENT) ∧ Found (s.dir dp) name e j ∧
          Walk sb s s' 0 (one k) ∧ (s'.inode k).inum = e.inum ∧ s'.disk = s.disk) := by
  refine (dirlookup_exact h hdp name).mono ?_ (fun _ he => Or.inl he.1)
  rintro r s' (hnone | ⟨k, e, j, hr, hfound, _, hrest⟩)
  · exact Or.inl hnone
  · exact Or.inr ⟨k, e, j, hr, hfound, hrest⟩

theorem isdirempty_runs : Runs E (isdirempty sb dp) s (fun r s' => s' = s ∧
      (r = true ↔ ∀ j e, 2 ≤ j → (s.dir dp)[j]? = some e → e.inum = 0)) := by
  have hsize := (h.size_eq hdp).1
  have hlen : (s.dir dp).length ≤ (s.inode dp).copy.size := by
    rw [hsize]
    exact Nat.le_mul_of_pos_right _ (by decide)
  unfold isdirempty
  refine .bind (.get (.call (scanEntries_runs h hdp .isdiremptyRead (fun de => de.inum ≠ 0)
    ((s.inode dp).copy.size + 1) 2 (by omega)) ?_))
  rintro r _ ⟨rfl, ⟨rfl, hnone⟩ | ⟨e, j, rfl, hj, he, hstop, _⟩⟩
  · refine .pure ⟨rfl, iff_of_true rfl ?_⟩
    intro j e hj he
    have := hnone j e hj he
    simpa using this
  · refine .pure ⟨rfl, iff_of_false (by simp) ?_⟩
    intro hall
    have := hall j e hj he
    simp [this] at hstop

end Lookup

/-! ## Writing an entry -/

/-- An entry is written at index `j`, or no file has changed. -/
structure Rewritten (sb : Superblock) (s : Fs) (dp : Slot) (j : Nat) (x : List UInt8) (r : Int)
    (s' : Fs) : Prop where
  inv : Inv sb s'
  moves : ∀ a, Moves s s' a a
  stores : Stores sb (s.inode dp).inum s.disk s'.disk
  node : ∃ a z, s'.disk.dinode (s.inode dp).inum =
    { s.disk.dinode (s.inode dp).inum with addrs := a, size := z }
  written : r = DIRENT → s'.disk.contents (s.inode dp).inum =
    splice (s.disk.contents (s.inode dp).inum) (j * DIRENT) x
  failed : r ≠ DIRENT → s'.disk.contents (s.inode dp).inum = s.disk.contents (s.inode dp).inum
  inside : j < (s.dir dp).length → r = DIRENT

/-- A kernel source can be read. -/
theorem Source.kernel_readable (x : List UInt8) (n : Nat) : (Source.kernel x).Readable n :=
  fun _ _ _ => rfl

theorem slice_kernel (x : List UInt8) : (Source.kernel x).byte.slice 0 x.length = x := by
  refine List.ext_getElem (by simp) (fun p hp hp' => ?_)
  rw [Buffer.getElem_slice]
  simp only [Source.kernel, Nat.zero_add]
  rw [List.getD_eq_getElem?_getD, List.getElem?_eq_getElem hp', Option.getD_some]

/-- An entry in range keeps the shape of a directory. -/
theorem DirShape.splice {x : List UInt8} (h : DirShape sb data) (hx : x.length = DIRENT)
    (hj : j * DIRENT ≤ data.length) (hrange : (Entry.ofBytes x).inum < sb.ninodes) :
    DirShape sb (splice data (j * DIRENT) x) := by
  refine ⟨?_, ?_⟩
  · rw [length_splice hj, hx]
    have hnext : DIRENT ∣ j * DIRENT + DIRENT :=
      Nat.dvd_add (Nat.dvd_mul_left _ _) (Nat.dvd_refl _)
    rcases Nat.le_total data.length (j * DIRENT + DIRENT) with hle | hle
    · rw [Nat.max_eq_right hle]
      exact hnext
    · rw [Nat.max_eq_left hle]
      exact h.whole
  · intro e he
    rw [entries_splice hx hj h.whole] at he
    split at he
    · rcases List.mem_or_eq_of_mem_set he with hold | rfl
      · exact h.range e hold
      · exact hrange
    · rcases List.mem_append.mp he with hold | hnew
      · exact h.range e hold
      · rw [List.mem_singleton.mp hnew]
        exact hrange

/-- A write changes the size and the blocks of one inode. -/
theorem Inv.written {src : Source} {off n w e : Nat} {t : File} (h : Inv sb s) (hk : Locked s k)
    (hw : Written sb src (s.file k) off n w e t) :
    Stores sb (s.inode k).inum s.disk t.disk ∧ t.disk.dinode (s.inode k).inum = t.ip ∧
      ∃ a z, t.disk.dinode (s.inode k).inum =
        { s.disk.dinode (s.inode k).inum with addrs := a, size := z } := by
  have hview := h.view hk.used hk.valid
  have hintact : Intact sb (s.file k).view := by
    rw [hview]
    exact h.intact
  refine ⟨?_, ?_, ?_⟩
  · rw [hw.synced]
    refine ⟨hw.intact, ?_, ?_⟩
    · intro m hm
      rw [hw.changes.other m hm, hview]
    · intro m hm hmi
      rw [hw.changes.contents hintact hm hmi, hview]
  · rw [hw.synced, show (s.inode k).inum = t.inum from hw.inum.symm, dinode_view]
  · have hnode := hw.changes.node
    rw [← hw.synced, hview] at hnode
    exact hnode

theorem writeEntry_runs {x : List UInt8} (h : Inv sb s) (hdp : IsDir s dp) (htrans : s.trans = true)
    (hj : j ≤ (s.dir dp).length) (hx : x.length = DIRENT)
    (hrange : (Entry.ofBytes x).inum < sb.ninodes) :
    Runs E (writeEntry sb dp (j * DIRENT) x) s (fun r s' => Rewritten sb s dp j x r s') := by
  obtain ⟨hsize, hlen, hmax⟩ := h.size_eq hdp
  have hi := h.range dp hdp.used
  have hview := h.view hdp.used hdp.valid
  have hend : j * DIRENT ≤ (s.dir dp).length * DIRENT := Nat.mul_le_mul_right _ hj
  have hoff : (UInt32.ofNat (j * DIRENT)).toNat = j * DIRENT := toNat_offset (hend.trans hmax)
  have hintact : Intact sb (s.file dp).view := by
    rw [hview]
    exact h.intact
  have htype : (s.file dp).ip.type ≠ .free := by
    show (s.inode dp).copy.type ≠ _
    rw [h.copy_eq hdp, hdp.dir]
    decide
  have hwritei : Runs E (writei sb (Source.kernel x) (UInt32.ofNat (j * DIRENT))
      (UInt32.ofNat DIRENT)) (s.file dp) _ := (writei_runs hintact htrans hi htype).total
  unfold writeEntry
  refine .zoom (hwritei.post ?_)
  intro r t hpost
  rw [hoff, show (UInt32.ofNat DIRENT).toNat = DIRENT from rfl] at hpost
  split at hpost
  · rename_i haccept
    obtain ⟨w, e, rfl, hw⟩ := hpost
    obtain ⟨rfl, hfull⟩ := hw.readable (Source.kernel_readable x DIRENT)
    -- an entry does not cross a block, so it is written or it is not
    have hcases : e = 0 ∨ e = DIRENT := by
      have hle := hw.le
      rcases hw.boundary with hzero | hall | haligned
      · exact Or.inl hzero
      · exact Or.inr hall
      · simp only [DIRENT, DIRSIZ, BSIZE] at haligned hle ⊢
        omega
    have hinside : j < (s.dir dp).length → e = DIRENT := by
      intro hlt
      by_contra hne
      obtain rfl := hcases.resolve_right hne
      have hp : j * DIRENT < (s.file dp).ip.size := by
        show _ < (s.inode dp).copy.size
        rw [hsize]
        exact Nat.mul_lt_mul_of_pos_right hlt (by decide)
      have hcover : j * DIRENT / BSIZE < blocks ((s.file dp).view.dinode (s.file dp).inum).size := by
        rw [dinode_view]
        exact div_lt_blocks hp
      have hmapped := hintact.whole _ _ hi hcover
      have hkept := hw.changes.fileAddr hi (lt_MAXFILE (hintact.bounded _ hi) hcover) hmapped
      exact hmapped (hkept.symm.trans (hfull (by decide)).2)
    have hcontents := hw.contents hintact hi haccept.1
    rw [← hw.synced, hview] at hcontents
    obtain ⟨hst, hsync, hnode⟩ := h.written hdp.toLocked hw
    have hold : t.ip.type = (s.disk.dinode (s.inode dp).inum).type := by
      obtain ⟨a, z, hn⟩ := hnode
      rw [← hsync]
      exact (congrArg Dinode.type hn).trans rfl
    have hwritten : (e : Int) = DIRENT → t.disk.contents (s.inode dp).inum =
        splice (s.disk.contents (s.inode dp).inum) (j * DIRENT) x := by
      intro he
      obtain rfl : e = DIRENT := by omega
      have hslice := slice_kernel x
      rw [hx] at hslice
      rw [← hslice]
      exact hcontents
    have hfailed : (e : Int) ≠ DIRENT → t.disk.contents (s.inode dp).inum =
        s.disk.contents (s.inode dp).inum := by
      intro he
      obtain rfl := hcases.resolve_right (by omega)
      refine hcontents.trans ?_
      show splice _ _ [] = _
      rw [splice, List.append_nil, List.length_nil, Nat.add_zero, List.take_append_drop]
      rfl
    have hshape := h.dirs _ hi hdp.dir
    refine ⟨Inv.setFile hst hsync h hdp.used ?_ ?_, Moves.setFile hst hsync hold, hst, hnode,
      hwritten, hfailed, fun hlt => by rw [hinside hlt]⟩
    · rw [hold, hdp.dir]
      decide
    · intro _
      by_cases he : (e : Int) = DIRENT
      · rw [hwritten he]
        exact hshape.splice hx (by rw [hlen]; exact hend) hrange
      · rw [hfailed he]
        exact hshape
  · rename_i hrefuse
    obtain ⟨rfl, rfl⟩ := hpost
    rw [setFile_file]
    refine ⟨h, Moves.refl s, ⟨h.intact, fun _ _ => rfl, fun _ _ _ => rfl⟩, ⟨_, _, rfl⟩, ?_,
      fun _ => rfl, ?_⟩
    · intro hneg
      exact absurd hneg (by decide)
    · intro hlt
      have hfit : (j + 1) * DIRENT ≤ (s.dir dp).length * DIRENT := Nat.mul_le_mul_right _ hlt
      have hsize' : (s.file dp).ip.size = (s.dir dp).length * DIRENT := hsize
      refine absurd ⟨?_, ?_⟩ hrefuse
      · rw [hsize']
        exact hend
      · rw [Nat.add_mul, Nat.one_mul] at hfit
        exact hfit.trans hmax

/-! ## `dirlink` -/

theorem ofBytes_named (inum : Nat) (name : List UInt8) :
    Entry.ofBytes (Dirent.named inum name).bytes = ⟨inum % 2 ^ 16, strncpy name DIRSIZ⟩ := by
  have hbytes : (Dirent.named inum name).bytes =
      UInt8.ofNat inum :: UInt8.ofNat (inum / 256) :: strncpy name DIRSIZ := rfl
  rw [hbytes, Entry.ofBytes]
  simp only [List.getD_cons_zero, List.getD_cons_succ, List.drop_succ_cons, List.drop_zero]
  congr 1
  rw [UInt8.toNat_ofNat', UInt8.toNat_ofNat']
  omega

theorem ofBytes_zeroes : Entry.ofBytes (List.replicate DIRENT 0) = ⟨0, List.replicate DIRSIZ 0⟩ := rfl

/-- The index at which `dirlink` puts an entry. -/
structure EmptyAt (es : List Entry) (j : Nat) : Prop where
  le : j ≤ es.length
  empty : ∀ e, es[j]? = some e → e.inum = 0

/-- The entries after entry `j` is written. -/
theorem Rewritten.getElem? {x : List UInt8} {q : Int} (hq : Rewritten sb s dp j x q s')
    (h : Inv sb s) (hdp : IsDir s dp) (hj : j ≤ (s.dir dp).length) (hx : x.length = DIRENT)
    (hfull : q = DIRENT) (m : Nat) :
    (s'.dir dp)[m]? = if m = j then some (Entry.ofBytes x) else (s.dir dp)[m]? := by
  obtain ⟨_, hlen, _⟩ := h.size_eq hdp
  have hend : j * DIRENT ≤ (s.disk.contents (s.inode dp).inum).length := by
    rw [hlen]
    exact Nat.mul_le_mul_right _ hj
  have hwhole := (h.dirs _ (h.range dp hdp.used) hdp.dir).whole
  have hdir : s'.dir dp = if j * DIRENT < (s.disk.contents (s.inode dp).inum).length then
      (s.dir dp).set j (Entry.ofBytes x) else s.dir dp ++ [Entry.ofBytes x] := by
    rw [Fs.dir, (hq.moves 0).inum hdp.used, hq.written hfull, entries_splice hx hend hwhole]
    rfl
  rw [hdir, hlen]
  by_cases hlt : j < (s.dir dp).length
  · rw [if_pos (Nat.mul_lt_mul_of_pos_right hlt (by decide)), List.getElem?_set]
    by_cases hm : m = j
    · rw [if_pos hm, if_pos hm.symm, if_pos hlt]
    · rw [if_neg hm, if_neg (fun he => hm he.symm)]
  · obtain rfl : j = (s.dir dp).length := by omega
    rw [if_neg (Nat.lt_irrefl _)]
    by_cases hm : m < (s.dir dp).length
    · rw [List.getElem?_append_left hm, if_neg (by omega)]
    · rw [List.getElem?_append_right (by omega)]
      by_cases hm' : m = (s.dir dp).length
      · rw [if_pos hm', hm', Nat.sub_self]
        rfl
      · rw [if_neg hm', List.getElem?_eq_none (by rw [List.length_singleton]; omega),
          List.getElem?_eq_none (by omega)]

/-- The entry is not written, and the directory is as before. -/
theorem Rewritten.dir_failed {x : List UInt8} {q : Int} (hq : Rewritten sb s dp j x q s')
    (hdp : IsDir s dp) (hfull : q ≠ DIRENT) : s'.dir dp = s.dir dp := by
  rw [Fs.dir, (hq.moves 0).inum hdp.used, hq.failed hfull, Fs.dir]

/-- A reference that is taken and dropped leaves a directory that somebody else holds. -/
theorem dir_put (h : Inv sb s) (hdp : 0 < (s.inode dp).ref) {s1 : Fs}
    (hw : Walk sb s s1 0 (one k)) (hdisk : s1.disk = s.disk)
    (hput : Walk sb s1 s' (one k) 0) (hp : Put sb s1 k s') : s'.dir dp = s.dir dp := by
  have hinum : (s1.inode dp).inum = (s.inode dp).inum := hw.inum hdp
  have hinum' : (s'.inode dp).inum = (s.inode dp).inum :=
    (hput.inum (hw.held hdp)).trans hinum
  have hcontents : s'.disk.contents (s.inode dp).inum = s.disk.contents (s.inode dp).inum := by
    by_cases hlast : Last s1 k
    · have hne : (s.inode dp).inum ≠ (s1.inode k).inum := by
        intro he
        have hheld := hw.held hdp
        have hk : 0 < (s1.inode k).ref := by
          have := hlast.1
          omega
        obtain rfl := hw.inv.unique dp k (by omega) hk (hinum.trans he)
        rw [one_self, hlast.1] at hheld
        exact Nat.lt_irrefl 1 hheld
      rw [(hp.last hlast).1.contents _ (h.range dp hdp) hne, hdisk]
    · rw [hp.kept hlast, hdisk]
  rw [Fs.dir, hinum', hcontents, Fs.dir]

/-- The first entry without an inode, or the end. -/
def firstEmpty (es : List Entry) : Nat := es.findIdx (fun e => e.inum = 0)

theorem emptyAt_firstEmpty (es : List Entry) : EmptyAt es (firstEmpty es) := by
  refine ⟨List.findIdx_le_length, ?_⟩
  intro e he
  obtain ⟨hlt, rfl⟩ := List.getElem?_eq_some_iff.mp he
  exact of_decide_eq_true (List.findIdx_getElem (w := hlt))

theorem dirlink_runs (h : Inv sb s) (hdp : IsDir s dp) (htrans : s.trans = true)
    (name : List UInt8) (hi : i < sb.ninodes) :
    Runs Stuck (dirlink sb dp name i) s (fun r s' =>
      (r = false ∧ (∃ e j, Found (s.dir dp) name e j) ∧ Walk sb s s' 0 0 ∧ s'.dir dp = s.dir dp) ∨
        (Absent (s.dir dp) name ∧ ∃ q,
          writeEntry sb dp (firstEmpty (s.dir dp) * DIRENT) (Dirent.named i name).bytes s =
            .ok (q, s') ∧
          Rewritten sb s dp (firstEmpty (s.dir dp)) (Dirent.named i name).bytes q s' ∧
          (r = true ↔ q = DIRENT))) := by
  have hsize := (h.size_eq hdp).1
  have hlen : (s.dir dp).length ≤ (s.inode dp).copy.size := by
    rw [hsize]
    exact Nat.le_mul_of_pos_right _ (by decide)
  unfold dirlink
  refine .call (dirlookup_runs h hdp name) ?_
  intro r s1 hr
  rcases hr with ⟨rfl, hs, habsent⟩ | ⟨k, e, j, rfl, hfound, hw, _, hdisk⟩
  · obtain rfl := hs.symm
    refine .bind (.get ?_)
    dsimp only
    have hscan := scanEntries_runs (E := Stuck) h hdp .dirlinkRead (fun de => de.inum = 0)
      ((s.inode dp).copy.size + 1) 0 (by omega)
    rw [Nat.zero_mul] at hscan
    refine .call hscan ?_
    rintro r s2 ⟨hs, hempty⟩
    obtain rfl := hs.symm
    have hrange : (Entry.ofBytes (Dirent.named i name).bytes).inum < sb.ninodes := by
      rw [ofBytes_named]
      exact (Nat.mod_le _ _).trans_lt hi
    have hoff : (r.map Prod.snd).getD (s.inode dp).copy.size = firstEmpty (s.dir dp) * DIRENT := by
      rcases hempty with ⟨rfl, hnone⟩ | ⟨e, m, rfl, _, he, hstop, hbefore⟩
      · have hend : firstEmpty (s.dir dp) = (s.dir dp).length := by
          refine List.findIdx_eq_length.mpr ?_
          intro e he
          obtain ⟨m, hm⟩ := List.mem_iff_getElem?.mp he
          exact hnone m e (Nat.zero_le m) hm
        rw [hend]
        exact hsize
      · obtain ⟨hlt, rfl⟩ := List.getElem?_eq_some_iff.mp he
        have hfirst : firstEmpty (s.dir dp) = m := by
          refine (List.findIdx_eq hlt).mpr ⟨hstop, ?_⟩
          intro l hl
          exact hbefore l _ (Nat.zero_le l) hl (List.getElem?_eq_getElem (hl.trans hlt))
        rw [hfirst]
        rfl
    rw [hoff]
    refine .call (writeEntry_runs h hdp htrans (emptyAt_firstEmpty _).le (Dirent.length_bytes _)
      hrange).result ?_
    rintro q s' ⟨hwrite, hq⟩
    exact .pure (Or.inr ⟨habsent, q, hwrite, hq, by simp⟩)
  · have hk : 0 < (s1.inode k).ref := by
      have := hw.ref k
      rw [one_self] at this
      simp only [Pi.zero_apply] at this
      omega
    refine .call (iput_runs hw.inv hk (hw.mode.trans htrans)) ?_
    rintro _ s' ⟨hput, hp⟩
    exact .pure (Or.inl ⟨rfl, ⟨e, j, hfound⟩, hw.comp hput, dir_put h hdp.used hw hdisk hput hp⟩)

theorem dirlink_moves {name : List UInt8} {r : Bool} (h : Inv sb s) (hdp : IsDir s dp)
    (htrans : s.trans = true) (hi : i < sb.ninodes)
    (hrun : dirlink sb dp name i s = .ok (r, s')) : Inv sb s' ∧ Moves s s' 0 0 := by
  rcases (dirlink_runs h hdp htrans name hi).ok hrun with ⟨_, _, hw, _⟩ | ⟨_, q, _, hq, _⟩
  · exact ⟨hw.inv, hw.toMoves⟩
  · exact ⟨hq.inv, hq.moves 0⟩

end Xv6.Names
