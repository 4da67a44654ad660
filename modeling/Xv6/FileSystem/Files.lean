import Xv6.FileSystem.Content
import Xv6.FileSystem.Itrunc
import Xv6.Lib.Refinement

/-!
# Files are byte arrays

Any number of inodes have a copy in memory, and a sequence of calls of
`readi`, `writei` and `itrunc` works on them.  The specification is an array
of bytes for each inode.  `FileOp.Answers` says what a call returns and what
becomes of the arrays.

The calls of `writei` are inside a transaction, and their sources can be
read.  A call of `readi` can be outside.
-/

namespace Xv6.FileSystem

open Xv6.Lib Xv6.FileSystem.Disk Function

/-- The copies of the inodes in memory, and the disk. -/
structure Files where
  copy : Nat → Dinode
  disk : Disk

abbrev FilesM := StateT Files (Except Panic)

/-- The state in which a call finds its inode. -/
def Files.file (f : Files) (i : Nat) (inTrans : Bool) : File := ⟨i, f.copy i, f.disk, inTrans⟩

/-- The files after a call on inode `i`. -/
def Files.put (i : Nat) (t : File) (f : Files) : Files := ⟨update f.copy i t.ip, t.disk⟩

/-- Run a program on inode `i`. -/
def onFile {α : Type} (i : Nat) (inTrans : Bool) (m : FileM α) : FilesM α :=
  zoom (fun f => f.file i inTrans) (Files.put i) m

/-- A call on one inode. -/
inductive FileOp
  | readi (i : Nat) (off n : UInt32) (inTrans : Bool)
  | writei (i : Nat) (src : Source) (off n : UInt32)
  | itrunc (i : Nat)

/-- The inode of a call. -/
def FileOp.inum : FileOp → Nat
  | .readi i _ _ _ => i
  | .writei i _ _ _ => i
  | .itrunc i => i

/-- What a call does: the number that it returns, and the bytes that it
reads. -/
def FileOp.exec (sb : Superblock) : FileOp → FilesM (Int × List UInt8)
  | .readi i off n inTrans => onFile i inTrans (FileSystem.readi sb Sink.kernel off n)
  | .writei i src off n => onFile i true (do
      let r ← FileSystem.writei sb src off n
      pure (r, []))
  | .itrunc i => onFile i true (do
      FileSystem.itrunc
      pure (0, []))

/-! ## The specification -/

/-- The array `a` with the bytes `x` from the index `off` on.  It grows if
they reach beyond its end. -/
def splice (a : List UInt8) (off : Nat) (x : List UInt8) : List UInt8 :=
  a.take off ++ x ++ a.drop (off + x.length)

/-- The places that a write of `n` bytes at `off` needs. -/
def needed (off n : Nat) : Finset Nat :=
  (Finset.range n).image (fun k => place ((off + k) / BSIZE)) ∪
    if NDIRECT * BSIZE < off + n then {NDIRECT} else ∅

/-- There is room on the disk for a write of `n` bytes at `off`. -/
def Room (sb : Superblock) (d : Disk) (i off n : Nat) : Prop :=
  missing d i (needed off n) ≤ free sb d

/-- The answer to a call, and the arrays after it.  A write that finds no
room writes the first bytes only. -/
def FileOp.Answers (sb : Superblock) (s : Files) (ref : Nat → List UInt8) :
    FileOp → Int × List UInt8 → (Nat → List UInt8) → Prop
  | .readi i off n _, r, ref' =>
      r = (((readCount (ref i).length off.toNat n.toNat : Nat) : Int),
        ((ref i).drop off.toNat).take (readCount (ref i).length off.toNat n.toNat)) ∧ ref' = ref
  | .writei i src off n, r, ref' =>
      if off.toNat ≤ (ref i).length ∧ off.toNat + n.toNat ≤ MAXFILE * BSIZE then
        ∃ w, w ≤ n.toNat ∧ r.1 = (w : Nat) ∧
          ref' = update ref i (splice (ref i) off.toNat (src.byte.slice 0 w)) ∧
          (Room sb s.disk i off.toNat n.toNat → w = n.toNat)
      else r.1 = -1 ∧ ref' = ref
  | .itrunc i, _, ref' => ref' = update ref i []

/-- The arrays are the contents of the files. -/
def Matches (sb : Superblock) (s : Files) (ref : Nat → List UInt8) : Prop :=
  ∀ i, i < sb.ninodes → s.copy i = s.disk.dinode i ∧ s.disk.contents i = ref i

/-! ## Contents -/

variable {sb : Superblock} {d d' : Disk} {i j off n : Nat} {src : Source} {s s' t : File}

@[simp] theorem length_contents : (d.contents i).length = (d.dinode i).size := by
  simp [Disk.contents]

theorem getElem_contents {p : Nat} (hp : p < (d.contents i).length) :
    (d.contents i)[p] = d.byte i p := by
  simp [Disk.contents]

theorem contents_eq {a : List UInt8} (hlen : (d.dinode i).size = a.length)
    (h : ∀ p, p < a.length → a[p]? = some (d.byte i p)) : d.contents i = a := by
  refine List.ext_getElem (by rw [length_contents, hlen]) (fun p hp hp' => ?_)
  have hget := h p hp'
  rw [List.getElem?_eq_getElem hp'] at hget
  rw [getElem_contents]
  exact (Option.some.inj hget).symm

theorem getElem?_contents {p : Nat} (hp : p < (d.dinode i).size) :
    (d.contents i)[p]? = some (d.byte i p) := by
  rw [List.getElem?_eq_getElem (by rwa [length_contents]), getElem_contents]

section Splice

variable {a x : List UInt8} (hoff : off ≤ a.length)
include hoff

theorem length_splice : (splice a off x).length = max a.length (off + x.length) := by
  simp only [splice, List.length_append, List.length_take, List.length_drop]
  omega

/-- Before, inside and after the bytes that are spliced in. -/
theorem getElem?_splice (p : Nat) : (splice a off x)[p]? =
    if p < off then a[p]? else if p < off + x.length then x[p - off]? else a[p]? := by
  have htake : (a.take off).length = off := by rw [List.length_take]; omega
  unfold splice
  rw [List.append_assoc]
  split
  · rw [List.getElem?_append_left (by omega), List.getElem?_take_of_lt ‹_›]
  split
  · rw [List.getElem?_append_right (by omega), htake, List.getElem?_append_left (by omega)]
  · rw [List.getElem?_append_right (by omega), htake, List.getElem?_append_right (by omega),
      List.getElem?_drop]
    congr 1
    omega

end Splice

/-- The bytes that are read are a part of the contents. -/
theorem bytes_eq (h : off + n ≤ (d.dinode i).size) :
    d.bytes i off n = ((d.contents i).drop off).take n := by
  have hlen : (d.bytes i off n).length = n := Buffer.length_slice
  refine List.ext_getElem ?_ (fun k hk hk' => ?_)
  · rw [hlen, List.length_take, List.length_drop, length_contents]
    omega
  · rw [List.getElem_take, List.getElem_drop, getElem_contents]
    exact Buffer.getElem_slice hk

theorem readCount_le {size : Nat} (h : off ≤ size) : off + readCount size off n ≤ size := by
  unfold readCount
  split <;> omega

theorem readCount_eq_zero {size : Nat} (h : ¬ off ≤ size) : readCount size off n = 0 :=
  if_neg (fun hc => h hc.1)

/-- A file that a write does not touch. -/
theorem Changes.contents {lo up : Nat} (h : Changes sb i lo up d d') (hd : Intact sb d)
    (hj : j < sb.ninodes) (hji : j ≠ i) : d'.contents j = d.contents j := by
  have hnode := h.other j hji
  refine contents_eq (by rw [hnode, length_contents]) (fun p hp => ?_)
  rw [length_contents] at hp
  have hcover := div_lt_blocks hp
  rw [getElem?_contents hp, h.byte j p hj (lt_MAXFILE (hd.bounded j hj) hcover)
    (hd.whole j _ hj hcover) (Or.inl hji)]

/-- A write splices the bytes into the contents. -/
theorem Written.contents {w : Nat} (h : Written sb src s off n w w s') (hs : Intact sb s.view)
    (hi : s.inum < sb.ninodes) (hoff : off ≤ s.ip.size) :
    s'.view.contents s.inum = splice (s.view.contents s.inum) off (src.byte.slice 0 w) := by
  have hsize : (s'.view.dinode s.inum).size = max s.ip.size (off + w) := by
    rw [← h.inum, dinode_view, h.size]
  have hlen : (s.view.contents s.inum).length = s.ip.size := by rw [length_contents, dinode_view]
  have hslice : (src.byte.slice 0 w).length = w := Buffer.length_slice
  have hold : ∀ p, p < s.ip.size → p < off ∨ off + w ≤ p →
      s'.view.byte s.inum p = s.view.byte s.inum p := by
    intro p hlt hout
    have hcover : p / BSIZE < blocks (s.view.dinode s.inum).size := by
      rw [dinode_view]
      exact div_lt_blocks hlt
    exact h.changes.byte s.inum p hi (lt_MAXFILE (hs.bounded _ hi) hcover)
      (hs.whole _ _ hi hcover) (Or.inr hout)
  have hoff' : off ≤ (s.view.contents s.inum).length := hlen ▸ hoff
  refine contents_eq (by rw [hsize, length_splice hoff', hlen, hslice]) (fun p hp => ?_)
  rw [length_splice hoff', hlen, hslice] at hp
  rw [getElem?_splice hoff', hslice]
  split
  · have hp' : p < s.ip.size := by omega
    rw [getElem?_contents (by rwa [dinode_view]), hold p hp' (by omega)]
  split
  · have hdata := h.data (p - off) (by omega)
    rw [show off + (p - off) = p by omega] at hdata
    rw [hdata, List.getElem?_eq_getElem (by omega), Buffer.getElem_slice, Nat.zero_add]
  · have hp' : p < s.ip.size := by omega
    rw [getElem?_contents (by rwa [dinode_view]), hold p hp' (by omega)]

theorem needed_spec {k : Nat} (hk : k < n) : place ((off + k) / BSIZE) ∈ needed off n ∧
    (NDIRECT ≤ (off + k) / BSIZE → NDIRECT ∈ needed off n) := by
  refine ⟨Finset.mem_union_left _ (Finset.mem_image.mpr ⟨k, Finset.mem_range.mpr hk, rfl⟩), ?_⟩
  intro hind
  have hlt : NDIRECT * BSIZE < off + n := by
    have := (Nat.le_div_iff_mul_le (by decide)).mp hind
    omega
  refine Finset.mem_union_right _ ?_
  rw [if_pos hlt]
  exact Finset.mem_singleton_self _

/-- A write with enough room writes everything. -/
theorem Written.complete {w e : Nat} (h : Written sb src s off n w e s') (hsrc : src.Readable n)
    (hroom : Room sb s.view s.inum off n) : w = n := by
  have hle := h.le
  by_contra hne
  obtain ⟨hfull, hzero⟩ := (h.readable hsrc).2 (by omega)
  have hfree : free sb s'.view = 0 := by
    unfold free
    rw [Finset.card_eq_zero, Finset.filter_eq_empty_iff]
    intro b hb
    rw [hfull b (Finset.mem_range.mp hb)]
    decide
  have hcount := h.count (needed off n) (fun k hk => needed_spec hk)
  have hmiss : 0 < missing s'.view s.inum (needed off n) := by
    refine Finset.card_pos.mpr ⟨place ((off + w) / BSIZE), Finset.mem_filter.mpr ⟨?_, hzero⟩⟩
    exact (needed_spec (by omega)).1
  unfold Room at hroom
  omega

theorem Truncated.contents_other (h : Truncated sb s t) (hj : j ≠ s.inum) :
    t.view.contents j = s.view.contents j := by
  have hnode : t.view.dinode j = s.view.dinode j := by rw [h.dinode_view, if_neg hj]
  refine contents_eq (by rw [hnode, length_contents]) (fun p hp => ?_)
  rw [length_contents] at hp
  rw [getElem?_contents hp, h.byte_other hj]

theorem Truncated.contents_self (h : Truncated sb s t) : t.view.contents s.inum = [] := by
  refine contents_eq ?_ (fun p hp => absurd hp (Nat.not_lt_zero _))
  rw [h.dinode_view, if_pos rfl, h.size]
  rfl

/-! ## One call -/

/-- A call on an allocated inode, with a source that can be read. -/
def FileOp.Valid (sb : Superblock) (d : Disk) (op : FileOp) : Prop :=
  op.inum < sb.ninodes ∧ (d.dinode op.inum).type ≠ .free ∧
    match op with
    | .writei _ src _ n => src.Readable n.toNat
    | _ => True

/-- The file system is intact, the arrays are its contents, and the types of
the inodes are those of `d`. -/
structure Refers (sb : Superblock) (d : Disk) (s : Files) (ref : Nat → List UInt8) : Prop where
  intact : Intact sb s.disk
  matching : Matches sb s ref
  type : ∀ i, (s.disk.dinode i).type = (d.dinode i).type

section Step

variable {f : Files} {ref : Nat → List UInt8} {op : FileOp}

theorem onFile_runs {α : Type} {E : Panic → Prop} {m : FileM α} {Q : α → Files → Prop}
    {inTrans : Bool} (h : Runs E m (f.file i inTrans) (fun r t => Q r (f.put i t))) :
    Runs E (onFile i inTrans m) f Q :=
  Runs.zoom h

section Refers

variable (h : Refers sb d f ref)
include h

theorem Refers.view (hi : i < sb.ninodes) (inTrans : Bool) : (f.file i inTrans).view = f.disk := by
  have hcopy : f.copy i = f.disk.dinode i := (h.matching i hi).1
  unfold Files.file File.view Disk.put
  dsimp only
  rw [hcopy, update_eq_self]

theorem Refers.length (hi : i < sb.ninodes) : (ref i).length = (f.copy i).size := by
  obtain ⟨hcopy, hcontents⟩ := h.matching i hi
  rw [← hcontents, length_contents, hcopy]

/-- The next state refers to the next arrays, if the copy of the inode is
written back and its contents are the new array. -/
theorem Refers.put {a : List UInt8} {t : File} (hinum : t.inum = i) (hsync : t.disk = t.view)
    (hintact : Intact sb t.view) (htype : ∀ j, (t.view.dinode j).type = (f.disk.dinode j).type)
    (hother : ∀ j, j < sb.ninodes → j ≠ i →
      t.view.dinode j = f.disk.dinode j ∧ t.view.contents j = f.disk.contents j)
    (hself : t.view.contents i = a) : Refers sb d (f.put i t) (update ref i a) := by
  have hdisk : (f.put i t).disk = t.view := hsync
  refine ⟨by rw [hdisk]; exact hintact, fun j hj => ?_, fun j => ?_⟩
  · rw [hdisk]
    by_cases hji : j = i
    · have hcopy : (f.put i t).copy i = t.ip := update_self _ _ _
      rw [hji, update_self, hcopy]
      refine ⟨?_, hself⟩
      rw [← hinum, dinode_view]
    · have hcopy : (f.put i t).copy j = f.copy j := update_of_ne hji _ _
      rw [update_of_ne hji, hcopy, (hother j hj hji).1, (hother j hj hji).2]
      exact h.matching j hj
  · rw [hdisk, htype j, h.type j]

/-- A call that changes nothing. -/
theorem Refers.same (i : Nat) (inTrans : Bool) : Refers sb d (f.put i (f.file i inTrans)) ref := by
  have hput : f.put i (f.file i inTrans) = f := by
    unfold Files.put Files.file
    dsimp only
    rw [update_eq_self]
  rw [hput]
  exact h

theorem Refers.readi (hi : i < sb.ninodes) (off n : UInt32) (inTrans : Bool) :
    Runs (fun _ => False) ((FileOp.readi i off n inTrans).exec sb) f (fun r f' => ∃ ref',
      (FileOp.readi i off n inTrans).Answers sb f ref r ref' ∧ Refers sb d f' ref') := by
  have hview := h.view hi inTrans
  have hcopy := (h.matching i hi).1
  have hwhole : ∀ bn, bn < blocks (f.copy i).size → (f.file i inTrans).view.fileAddr i bn ≠ 0 := by
    intro bn hbn
    rw [hview]
    exact h.intact.whole i bn hi (by rwa [← hcopy])
  have hbound : (f.copy i).size ≤ MAXFILE * BSIZE := by
    rw [hcopy]
    exact h.intact.bounded i hi
  refine onFile_runs ((readi_runs (s := f.file i inTrans) hwhole hbound off n).post ?_)
  rintro r t ⟨rfl, hr⟩
  refine ⟨ref, ⟨?_, rfl⟩, h.same i _⟩
  have hr : r = _ := hr.resolve_right (by rintro ⟨_, _, _, hfalse⟩; cases hfalse)
  rw [hr, h.length hi, ← (h.matching i hi).2]
  refine Prod.ext rfl ?_
  dsimp only
  rw [hview]
  by_cases hoff : off.toNat ≤ (f.copy i).size
  · refine bytes_eq ?_
    show _ ≤ (f.disk.dinode i).size
    rw [← hcopy]
    exact readCount_le hoff
  · have hzero : readCount (f.copy i).size off.toNat n.toNat = 0 := readCount_eq_zero hoff
    have hsize : (f.file i inTrans).ip.size = (f.copy i).size := rfl
    rw [hsize, hzero]
    rfl

theorem Refers.writei (hi : i < sb.ninodes) (htype : (f.copy i).type ≠ .free) (off n : UInt32)
    (hsrc : src.Readable n.toNat) :
    Runs (fun _ => False) ((FileOp.writei i src off n).exec sb) f (fun r f' => ∃ ref',
      (FileOp.writei i src off n).Answers sb f ref r ref' ∧ Refers sb d f' ref') := by
  have hview := h.view hi true
  have hs : Intact sb (f.file i true).view := by
    rw [hview]
    exact h.intact
  refine onFile_runs (.call (writei_runs hs rfl hi htype) ?_)
  intro r t hr
  refine .pure ?_
  simp only [FileOp.Answers, h.length hi]
  have hsize : (f.file i true).ip.size = (f.copy i).size := rfl
  rw [hsize] at hr
  split at hr
  · rename_i hok
    obtain ⟨w, e, hr, hw⟩ := hr
    obtain ⟨rfl, _⟩ := hw.readable hsrc
    refine ⟨update ref i (splice (ref i) off.toNat (src.byte.slice 0 e)), ?_, ?_⟩
    · rw [if_pos hok]
      refine ⟨e, hw.le.2, hr, rfl, fun hroom => hw.complete hsrc ?_⟩
      rw [hview]
      exact hroom
    · refine h.put hw.inum hw.synced hw.intact ?_ ?_ ?_
      · intro j
        by_cases hj : j = i
        · obtain ⟨a, z, hnode⟩ := hw.changes.node
          rw [hj]
          exact (congrArg Dinode.type hnode).trans (by rw [hview]; rfl)
        · exact congrArg Dinode.type ((hw.changes.other j hj).trans (by rw [hview]))
      · intro j hj hji
        have hnode := hw.changes.other j hji
        have hcontents := hw.changes.contents hs hj hji
        rw [hview] at hnode hcontents
        exact ⟨hnode, hcontents⟩
      · have hcontents := hw.contents hs hi hok.1
        rw [hview] at hcontents
        rw [← (h.matching i hi).2]
        exact hcontents
  · rename_i hbad
    obtain ⟨hr, rfl⟩ := hr
    refine ⟨ref, ?_, h.same i _⟩
    rw [if_neg hbad]
    exact ⟨hr, rfl⟩

theorem Refers.itrunc (hi : i < sb.ninodes) :
    Runs (fun _ => False) ((FileOp.itrunc i).exec sb) f (fun r f' => ∃ ref',
      (FileOp.itrunc i).Answers sb f ref r ref' ∧ Refers sb d f' ref') := by
  have hview := h.view hi true
  have hs : Intact sb (f.file i true).view := by
    rw [hview]
    exact h.intact
  refine onFile_runs (.call (itrunc_runs hs.toOwned hi rfl) ?_)
  intro _ t ht
  refine .pure ⟨update ref i [], rfl, ?_⟩
  refine h.put ht.inum ht.view (ht.intact hs hi) ?_ ?_ ht.contents_self
  · intro j
    rw [ht.dinode_view, hview]
    split
    · rename_i hj
      obtain ⟨a, hip, _⟩ := ht.ip
      rw [hip, hj, show (f.file i true).inum = i from rfl, ← (h.matching i hi).1]
      rfl
    · rfl
  · intro j _ hji
    have hnode : t.view.dinode j = (f.file i true).view.dinode j := by
      rw [ht.dinode_view, if_neg (show j ≠ (f.file i true).inum from hji)]
    have hcontents := ht.contents_other hji
    rw [hview] at hnode hcontents
    exact ⟨hnode, hcontents⟩

/-- Every call is answered as the specification says. -/
theorem Refers.step (hop : op.Valid sb d) :
    Runs (fun _ => False) (op.exec sb) f (fun r f' => ∃ ref',
      op.Answers sb f ref r ref' ∧ Refers sb d f' ref') := by
  obtain ⟨hi, htype, hsrc⟩ := hop
  cases op with
  | readi i off n inTrans => exact h.readi hi off n inTrans
  | writei i src off n =>
    have htype' : (f.copy i).type ≠ .free := by
      rw [(h.matching i hi).1, h.type]
      exact htype
    exact h.writei hi htype' off n hsrc
  | itrunc i => exact h.itrunc hi

end Refers

end Step

/-! ## Sequences of calls -/

/-- All calls are answered as the arrays say, and the arrays stay the contents
of the files. -/
def AsArrays (sb : Superblock) : Files → (Nat → List UInt8) → List FileOp → Prop :=
  Follows (fun op : FileOp => op.exec sb) (fun f ref op => op.Answers sb f ref) (Matches sb)

/-- Files behave as byte arrays.  In every sequence of calls on allocated
inodes every call returns what the arrays say, the arrays are updated by the
same writes, and they are the contents of all the files. -/
theorem files_are_byteArrays (hd : Intact sb d) (ops : List FileOp)
    (hops : ∀ op ∈ ops, op.Valid sb d) :
    AsArrays sb ⟨d.dinode, d⟩ d.contents ops := by
  refine follows_of_step (Refers sb d) (fun op => op.Valid sb d) (fun _ _ h => h.matching) ?_ ops
    ⟨hd, fun _ _ => ⟨rfl, rfl⟩, fun _ => rfl⟩ hops
  intro f ref op h hop
  obtain ⟨r, f', hrun, ref', hanswer, h'⟩ := (h.step hop).returns
  exact ⟨r, f', ref', hrun, hanswer, h'⟩

/-- A file system in which no file has a block. -/
theorem Intact.of_empty (haddrs : ∀ i k, (d.dinode i).addrs k = 0)
    (hsize : ∀ i, (d.dinode i).size = 0)
    (hmark : ∀ b, d.bitmap b = true ↔ b < sb.nmeta) : Intact sb d := by
  have haddr : ∀ i k, d.addr i k = 0 := by
    intro i k
    unfold Disk.addr Disk.indirect
    rw [haddrs, haddrs]
    simp
  refine ⟨⟨⟨?_, ?_, ?_⟩, fun b hb => (hmark b).mpr hb, ?_⟩, ?_, ?_⟩
  · rintro k b ⟨_, _, hb, hne⟩
    exact absurd (hb.symm.trans (haddr _ _)) hne
  · rintro k l b ⟨_, _, hb, hne⟩ _
    exact absurd (hb.symm.trans (haddr _ _)) hne
  · rintro b ⟨hb, _, hbit⟩
    have := (hmark b).mp hbit
    omega
  · rintro i k b ⟨_, _, hb, hne⟩
    exact absurd (hb.symm.trans (haddr _ _)) hne
  · intro i bn _ hbn
    rw [hsize] at hbn
    exact absurd hbn (Nat.not_lt_zero _)
  · intro i _
    rw [hsize]
    exact Nat.zero_le _

/-- A small file system with one empty file. -/
def Superblock.small : Superblock := ⟨8, 2, 0, by decide⟩

def Disk.small : Disk :=
  ⟨fun i => if i = 1 then { Dinode.zero with type := .file, nlink := 1 } else Dinode.zero,
    fun b => b == 0, fun _ => Buffer.zero⟩

theorem small_intact : Intact Superblock.small Disk.small := by
  refine .of_empty ?_ ?_ ?_
  · intro i k
    unfold Disk.small
    dsimp only
    split <;> rfl
  · intro i
    unfold Disk.small
    dsimp only
    split <;> rfl
  · intro b
    have hmeta : Superblock.small.nmeta = 1 := rfl
    rw [hmeta, Nat.lt_one_iff]
    exact beq_iff_eq

theorem files_are_byteArrays_small :
    AsArrays Superblock.small ⟨Disk.small.dinode, Disk.small⟩ Disk.small.contents
      [.writei 1 (Source.kernel [104, 105]) 0 2, .readi 1 1 9 false, .itrunc 1] := by
  refine files_are_byteArrays small_intact _ ?_
  intro op hop
  simp only [List.mem_cons, List.not_mem_nil, or_false] at hop
  rcases hop with rfl | rfl | rfl
  · exact ⟨by decide, by decide, fun _ _ _ => rfl⟩
  · exact ⟨by decide, by decide, trivial⟩
  · exact ⟨by decide, by decide, trivial⟩

end Xv6.FileSystem
