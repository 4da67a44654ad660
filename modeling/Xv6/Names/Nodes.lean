import Xv6.Names.Directory

/-!
# Nodes

The name space sees of an inode its type, its link count and its bytes.  `nodes` has
these for all inodes.  Each action that changes the disk changes one node: `updateInode`
its link count, `writeEntry` its bytes, `ialloc` and `iput` turn a vacant node into a new
one and back.
-/

namespace Xv6.Names

open Xv6.Lib Xv6.FileSystem Xv6.FileSystem.Disk Function

/-- What the name space has of an inode. -/
structure Node where
  type : FileType
  nlink : Int16
  data : List UInt8

/-- The node of a free inode with nothing in it. -/
def Node.vacant : Node := ⟨.free, 0, []⟩

/-- The node of inode `i`. -/
def nodeAt (d : Disk) (i : Nat) : Node := ⟨(d.dinode i).type, (d.dinode i).nlink, d.contents i⟩

/-- The nodes of the file system. -/
def nodes (sb : Superblock) (d : Disk) (i : Nat) : Node :=
  if i < sb.ninodes then nodeAt d i else .vacant

variable {sb : Superblock} {s s' : Fs} {d d' : Disk} {n : Node} {i j : Nat} {k : Slot}

theorem nodes_of_lt (hi : i < sb.ninodes) : nodes sb d i = nodeAt d i := if_pos hi

/-- A change of one inode is a change of one node. -/
theorem Stores.nodes_eq (h : Stores sb i d d') (hi : i < sb.ninodes) (hn : nodeAt d' i = n) :
    nodes sb d' = update (nodes sb d) i n := by
  funext m
  by_cases hm : m = i
  · rw [hm, update_self, nodes_of_lt hi, hn]
  · rw [update_of_ne hm, nodes, nodes]
    by_cases hlt : m < sb.ninodes
    · rw [if_pos hlt, if_pos hlt, nodeAt, nodeAt, h.other m hm, h.contents m hlt hm]
    · rw [if_neg hlt, if_neg hlt]

/-- The entries of a directory are those of its node. -/
theorem Inv.dir_eq (h : Inv sb s) (hk : 0 < (s.inode k).ref) :
    s.dir k = entries (nodes sb s.disk (s.inode k).inum).data := by
  rw [nodes_of_lt (h.range k hk)]
  rfl

theorem Inv.type_eq (h : Inv sb s) (hk : 0 < (s.inode k).ref) :
    (s.disk.dinode (s.inode k).inum).type = (nodes sb s.disk (s.inode k).inum).type := by
  rw [nodes_of_lt (h.range k hk)]
  rfl

/-! ## The actions -/

theorem Inv.nodes_update {f : Dinode → Dinode} (h : Inv sb s) (hk : Locked s k) (hf : Minor f) :
    nodes sb (s.update k f).disk = Function.update (nodes sb s.disk) (s.inode k).inum
      { nodes sb s.disk (s.inode k).inum with
        nlink := (f (s.disk.dinode (s.inode k).inum)).nlink } := by
  have hi := h.range k hk.used
  refine (h.stores_update hk hf).nodes_eq hi ?_
  rw [nodes_of_lt hi, nodeAt, nodeAt, h.contents_update hk hf, h.disk_update hk, dinode_put_self,
    hf.type]

/-- Another link count. -/
def Node.relink (n : Node) (f : Int16 → Int16) : Node := { n with nlink := f n.nlink }

theorem updateLink_runs {E : Panic → Prop} (h : Inv sb s) (hk : Locked s k) (htrans : s.trans = true)
    (f : Int16 → Int16) :
    Runs E (updateInode k (fun n => { n with nlink := f n.nlink })) s (fun _ s' => Inv sb s' ∧
      (∀ a, Moves s s' a a) ∧ Locked s' k ∧ nodes sb s'.disk =
        update (nodes sb s.disk) (s.inode k).inum
          ((nodes sb s.disk (s.inode k).inum).relink f)) := by
  have hminor : Minor (fun n => { n with nlink := f n.nlink }) :=
    ⟨fun _ => rfl, fun _ => rfl, fun _ => rfl⟩
  refine (updateInode_eq (fun n => { n with nlink := f n.nlink }) htrans).post ?_
  rintro _ _ rfl
  have hm := h.moves_update hk hminor
  refine ⟨h.update hk hminor, hm, (hm 0).locked hk.used hk, ?_⟩
  have hlink : (nodes sb s.disk (s.inode k).inum).nlink =
      (s.disk.dinode (s.inode k).inum).nlink := by
    rw [nodes_of_lt (h.range k hk.used)]
    rfl
  rw [h.nodes_update hk hminor, Node.relink, hlink]

section Rewritten

variable {dp : Slot} {x : List UInt8} {r : Int} (h : Inv sb s) (hdp : 0 < (s.inode dp).ref)
  (hr : Rewritten sb s dp j x r s')
include h hdp hr

theorem Rewritten.nodes_written (hw : r = DIRENT) :
    nodes sb s'.disk = update (nodes sb s.disk) (s.inode dp).inum
      { nodes sb s.disk (s.inode dp).inum with
        data := splice (nodes sb s.disk (s.inode dp).inum).data (j * DIRENT) x } := by
  have hi := h.range dp hdp
  obtain ⟨a, z, hn⟩ := hr.node
  refine hr.stores.nodes_eq hi ?_
  rw [nodes_of_lt hi, nodeAt, nodeAt, hr.written hw, hn]

theorem Rewritten.nodes_failed (hw : r ≠ DIRENT) : nodes sb s'.disk = nodes sb s.disk := by
  have hi := h.range dp hdp
  obtain ⟨a, z, hn⟩ := hr.node
  have hsame : nodeAt s'.disk (s.inode dp).inum = nodes sb s.disk (s.inode dp).inum := by
    rw [nodes_of_lt hi, nodeAt, nodeAt, hr.failed hw, hn]
  rw [hr.stores.nodes_eq hi hsame, update_eq_self]

end Rewritten

theorem Allocated.nodes_eq {type : FileType} (h : Allocated sb d type i d') (hd : Intact sb d) :
    nodes sb d' = update (nodes sb d) i ⟨type, 0, []⟩ := by
  refine (h.stores hd).nodes_eq h.lt ?_
  rw [nodeAt, h.dinode, h.contents]
  rfl

theorem Allocated.free_node {type : FileType} (h : Allocated sb d type i d') :
    (nodes sb d i).type = .free := by
  rw [nodes_of_lt h.lt]
  exact h.free

theorem Put.nodes_last (h : Put sb s k s') (hs : Inv sb s) (hk : 0 < (s.inode k).ref)
    (hlast : Last s k) :
    nodes sb s'.disk = update (nodes sb s.disk) (s.inode k).inum .vacant := by
  obtain ⟨hst, hvacant⟩ := h.last hlast
  refine hst.nodes_eq (hs.range k hk) ?_
  rw [nodeAt, hvacant.type, hvacant.nlink]
  have hnil : s'.disk.contents (s.inode k).inum = [] := by
    refine List.eq_nil_of_length_eq_zero ?_
    rw [length_contents, hvacant.size]
  rw [hnil]
  rfl

theorem Put.nodes_kept (h : Put sb s k s') (hnot : ¬ Last s k) :
    nodes sb s'.disk = nodes sb s.disk := by
  rw [h.kept hnot]

/-- The condition of `iput` in terms of the node. -/
theorem Inv.last_iff (h : Inv sb s) (hk : Locked s k) :
    Last s k ↔ (s.inode k).ref = 1 ∧ (nodes sb s.disk (s.inode k).inum).nlink = 0 := by
  rw [Last, (h.synced k hk.used hk.valid).1, nodes_of_lt (h.range k hk.used)]
  exact ⟨fun hlast => ⟨hlast.1, hlast.2.2⟩, fun hlast => ⟨hlast.1, hk.valid, hlast.2⟩⟩

/-! ## Calm states -/

/-- An inode that is allocated and has no links. -/
def Node.Idle (n : Node) : Prop := n.type ≠ .free ∧ n.nlink = 0

theorem Node.vacant_not_idle : ¬ Node.vacant.Idle := fun h => h.1 rfl

variable {a b : Slot → Nat}

/-- `Quiet`, by nodes. -/
theorem quiet_iff : Quiet sb s a ↔
    ∀ i, (nodes sb s.disk i).Idle → ∃ k, (s.inode k).inum = i ∧ a k < (s.inode k).ref := by
  refine ⟨fun h i hidle => ?_, fun h i hi htype hlink => ?_⟩
  · by_cases hi : i < sb.ninodes
    · rw [nodes_of_lt hi] at hidle
      exact h i hi hidle.1 hidle.2
    · rw [nodes, if_neg hi] at hidle
      exact absurd hidle Node.vacant_not_idle
  · exact h i (by rw [nodes_of_lt hi]; exact ⟨htype, hlink⟩)

/-- The others hold allocated inodes only, among them every inode without links.  They have
read those, so that the last of them frees it. -/
structure Calm (sb : Superblock) (s : Fs) (a : Slot → Nat) : Prop where
  quiet : Quiet sb s a
  alloc : ∀ k, a k < (s.inode k).ref → (s.disk.dinode (s.inode k).inum).type ≠ .free
  read : ∀ k, a k < (s.inode k).ref → (nodes sb s.disk (s.inode k).inum).Idle →
    (s.inode k).valid = true

/-- A state stays quiet if no inode has lost its last link. -/
theorem Moves.quiet_nodes (h : Moves s s' a b) (hq : Quiet sb s a)
    (hidle : ∀ i, (nodes sb s'.disk i).Idle → (nodes sb s.disk i).Idle) : Quiet sb s' b := by
  refine quiet_iff.mpr ?_
  intro i hi
  obtain ⟨k, hinum, hk⟩ := quiet_iff.mp hq i (hidle i hi)
  exact ⟨k, (h.inum hk).trans hinum, h.held hk⟩

/-- The inodes of the others stay allocated and read. -/
theorem Moves.calm_of_quiet (h : Moves s s' a b)
    (halloc : ∀ k, a k < (s.inode k).ref → (s.disk.dinode (s.inode k).inum).type ≠ .free)
    (hread : ∀ k, a k < (s.inode k).ref → (nodes sb s.disk (s.inode k).inum).Idle →
      (s.inode k).valid = true) (hq : Quiet sb s' b)
    (hidle : ∀ i, (nodes sb s'.disk i).Idle → (nodes sb s.disk i).Idle) : Calm sb s' b := by
  have hold : ∀ k, b k < (s'.inode k).ref → a k < (s.inode k).ref := by
    intro k hk
    have := h.ref k
    omega
  refine ⟨hq, ?_, ?_⟩
  · intro k hk
    rw [h.inum (hold k hk), h.type k (hold k hk) (halloc k (hold k hk))]
    exact halloc k (hold k hk)
  · intro k hk hi
    rw [h.inum (hold k hk)] at hi
    exact h.valid k (hold k hk) (hread k (hold k hk) (hidle _ hi))

theorem Moves.calm (h : Moves s s' a b) (hc : Calm sb s a)
    (hidle : ∀ i, (nodes sb s'.disk i).Idle → (nodes sb s.disk i).Idle) : Calm sb s' b :=
  h.calm_of_quiet hc.alloc hc.read (h.quiet_nodes hc.quiet hidle) hidle

/-- A walk leaves a calm state calm. -/
theorem Walk.calm (h : Walk sb s s' a b) (hc : Calm sb s a) : Calm sb s' b :=
  h.toMoves.calm hc (fun i => by rw [h.quiet hc.quiet]; exact fun hi => hi)

/-! ## `dirlink` -/

/-- An entry of a directory is written. -/
def Node.write (n : Node) (j : Nat) (x : List UInt8) : Node :=
  { n with data := splice n.data (j * DIRENT) x }

/-- `dirlink` fails if the name is there, or for lack of space. -/
theorem dirlink_nodes {dp : Slot} (h : Inv sb s) (hdp : IsDir s dp) (htrans : s.trans = true)
    (name : List UInt8) (hi : i < sb.ninodes) :
    Runs Stuck (dirlink sb dp name i) s (fun r s' => Inv sb s' ∧ Moves s s' 0 0 ∧
      ((r = true ∧ Absent (s.dir dp) name ∧ ∃ j, EmptyAt (s.dir dp) j ∧ nodes sb s'.disk =
          update (nodes sb s.disk) (s.inode dp).inum
            ((nodes sb s.disk (s.inode dp).inum).write j (Dirent.named i name).bytes)) ∨
        (r = false ∧ (Absent (s.dir dp) name ∨ Quiet sb s 0 →
          nodes sb s'.disk = nodes sb s.disk)))) := by
  refine (dirlink_runs h hdp htrans name hi).post ?_
  rintro r s' (⟨rfl, ⟨e, j, hfound⟩, hw, _⟩ | ⟨habsent, q, _, hq, hr⟩)
  · refine ⟨hw.inv, hw.toMoves, Or.inr ⟨rfl, ?_⟩⟩
    rintro (habsent | hquiet)
    · exact absurd hfound.named (habsent e (List.mem_of_getElem? hfound.here))
    · rw [hw.quiet hquiet]
  · refine ⟨hq.inv, hq.moves 0, ?_⟩
    by_cases hfull : q = DIRENT
    · exact Or.inl ⟨hr.mpr hfull, habsent, _, emptyAt_firstEmpty _,
        hq.nodes_written h hdp.used hfull⟩
    · refine Or.inr ⟨?_, fun _ => hq.nodes_failed h hdp.used hfull⟩
      cases r with
      | false => rfl
      | true => exact absurd (hr.mp rfl) hfull

end Xv6.Names
