import Mathlib.Algebra.Group.Nat.Defs
import Mathlib.Data.List.Basic
import Mathlib.Logic.Function.Basic
import Xv6.Lib.Transition

/-!
# The redo log

`kernel/log.c` over the part of the buffer cache that it needs.  The disk is
a function from block numbers to blocks, and a block is its 256 words.  The
header block holds `n` in word 0 and `block[i]` in word `i + 1`.

The system is a transition function `next`.  One label is one critical
section of `log.lock`, one hold of a buffer, or one disk write.

* `beginOp`, `logWrite` and `endOp` are the three entry points.  A call that
  would sleep is a label that does not apply.
* `bread`, `modify` and `brelse` are the file system's use of a buffer, and
  `evict` is the recycling of a buffer that nobody holds or pins.
* `advance` is the next step of `commit()`, or of `recover_from_log()` at
  boot.  Each such step writes at most one block, so there is a state
  between any two disk writes.
* `crash` keeps the disk and loses everything else.  It applies in every
  state, in the middle of a recovery too.

A panic is the phase `panicked`, in which only `crash` applies.

Three fields record the history and are read by no transition: `group`,
`committed` and `lost` hold the logged writes of the current group, of the
groups whose header reached the disk, and of the groups that a crash cut
off.
-/

namespace Xv6.Log

open Function

/-- `MAXOPBLOCKS` of `kernel/param.h`. -/
abbrev MAXOPBLOCKS : Nat := 10

/-- `LOGSIZE` of `kernel/param.h`. -/
abbrev LOGSIZE : Nat := MAXOPBLOCKS * 3

/-- A disk block: `BSIZE` bytes, read as `int`s. -/
abbrev Block := Fin 256 → UInt32

/-- A process, by its number. -/
abbrev Pid := Nat

/-- The log fields of the superblock: `log.start` and `log.size`.  The region
holds the header block at least. -/
structure Geometry where
  start : Nat
  size : Nat
  size_pos : 0 < size

/-- The log region that `mkfs` lays out: `logstart` is 2, and `nlog` is
`LOGSIZE`, header included. -/
def mkfsGeometry : Geometry := ⟨2, LOGSIZE, by decide⟩

/-- A block that the file system may log.  It lies outside the log region,
and its number is a `uint`. -/
def Geometry.Home (g : Geometry) (b : Nat) : Prop :=
  b < 2 ^ 32 ∧ (b < g.start ∨ g.start + g.size ≤ b)

instance (g : Geometry) (b : Nat) : Decidable (g.Home b) :=
  inferInstanceAs (Decidable (_ ∧ _))

/-! ## The header block -/

/-- `lh->block[i]` for `i < lh->n`, as `read_head` copies them. -/
def readHeader (b : Block) : List Nat :=
  (List.range (b 0).toNat).map
    (fun i => if h : i + 1 < 256 then (b ⟨i + 1, h⟩).toNat else 0)

/-- The stores of `write_head` into the header buffer.  The words above
`n` keep what they held. -/
def writeHeader (b : Block) (lh : List Nat) : Block := fun i =>
  if i.val = 0 then UInt32.ofNat lh.length
  else if h : i.val - 1 < lh.length then UInt32.ofNat lh[i.val - 1]
  else b i

/-! ## The state -/

/-- One `log_write`: the operation that made it, the block and the contents
of the buffer. -/
structure Write where
  op : Nat
  blk : Nat
  data : Block

/-- A file-system operation between `begin_op` and `end_op`.  `dirty` lists
the buffers it has modified since it last logged them, and `wrote` the
distinct blocks it has logged. -/
structure Op where
  pid : Pid
  id : Nat
  dirty : List Nat
  wrote : List Nat

/-- Where the kernel is.  `running` is the normal case, with no process in
`commit()`; the next five are the places in `commit()` and `end_op` before
each disk write; the last four are the boot and the end. -/
inductive Phase
  | running
  | writeLog (tail : Nat)
  | writeHead
  | install (tail : Nat)
  | clear
  | ending
  | readHead
  | recInstall (tail : Nat)
  | recClear
  | panicked (msg : String)
  deriving DecidableEq

/-- Whether file-system calls can run: the boot is over, and the kernel has
not panicked. -/
def Phase.up : Phase → Bool
  | .running | .writeLog _ | .writeHead | .install _ | .clear | .ending => true
  | .readHead | .recInstall _ | .recClear | .panicked _ => false

/-- The log, the buffers and the disk. -/
structure State where
  disk : Nat → Block
  cache : Nat → Option Block
  holder : Nat → Option Pid
  pins : Nat → Nat
  lh : List Nat
  outstanding : Nat
  committing : Bool
  phase : Phase
  ops : List Op
  nextOp : Nat
  group : List Write
  committed : List Write
  lost : List Write

/-- The steps of the system. -/
inductive Label
  | beginOp (p : Pid)
  | bread (p : Pid) (b : Nat)
  | modify (p : Pid) (b : Nat) (d : Block)
  | logWrite (p : Pid) (b : Nat)
  | brelse (p : Pid) (b : Nat)
  | endOp (p : Pid)
  | advance
  | evict (b : Nat)
  | crash

namespace State

/-- The contents that `bread` gives for block `b`. -/
def content (s : State) (b : Nat) : Block := (s.cache b).getD (s.disk b)

/-- `bread` of a block, as far as the cache sees it. -/
def load (s : State) (b : Nat) : State :=
  { s with cache := update s.cache b (some (s.content b)) }

/-- `bwrite` of the buffer of block `b` with contents `d`. -/
def bwrite (s : State) (b : Nat) (d : Block) : State :=
  { s with
    cache := update s.cache b (some d)
    disk := update s.disk b d }

/-- The operation of process `p`, if it is inside one. -/
def opOf (s : State) (p : Pid) : Option Op := s.ops.find? (fun o => o.pid == p)

/-- Replace the operation of process `p`. -/
def setOp (s : State) (o : Op) : State :=
  { s with ops := s.ops.map (fun o' => if o'.pid = o.pid then o else o') }

/-- The machine after a crash: the disk stays, the rest is as at boot. -/
def reboot (s : State) : State :=
  { s with
    cache := fun _ => none
    holder := fun _ => none
    pins := fun _ => 0
    lh := []
    outstanding := 0
    committing := false
    phase := .readHead
    ops := []
    group := []
    lost := s.lost ++ s.group }

end State

open State

/-! ## The transitions -/

/-- `begin_op`.  It sleeps while the log is committing, and while this
operation might exhaust the log space. -/
def beginOp (s : State) (p : Pid) : Option State :=
  if s.phase.up ∧ s.opOf p = none ∧ s.committing = false ∧
      ¬ s.lh.length + (s.outstanding + 1) * MAXOPBLOCKS > LOGSIZE then
    some { s with
      outstanding := s.outstanding + 1
      ops := ⟨p, s.nextOp, [], []⟩ :: s.ops
      nextOp := s.nextOp + 1 }
  else none

/-- `bread` by process `p`: wait for the buffer, then fill it. -/
def breadBy (s : State) (p : Pid) (b : Nat) : Option State :=
  if s.phase.up ∧ s.holder b = none then
    some { s.load b with holder := update s.holder b (some p) }
  else none

/-- A store into a held buffer by a process inside an operation. -/
def modify (g : Geometry) (s : State) (p : Pid) (b : Nat) (d : Block) : Option State :=
  match s.opOf p with
  | none => none
  | some o =>
      if s.phase.up ∧ s.holder b = some p ∧ g.Home b then
        some { s.setOp { o with dirty := b :: o.dirty } with
          cache := update s.cache b (some d) }
      else none

/-- `log_write`.  The search loop leaves `i` at the block's place in the
header, or at the end; only in the second case the header grows and the
buffer is pinned. -/
def logWrite (g : Geometry) (s : State) (p : Pid) (b : Nat) : Option State :=
  match s.opOf p with
  | none => none
  | some o =>
      if s.phase.up ∧ s.holder b = some p ∧ g.Home b then
        if s.lh.length ≥ LOGSIZE ∨ s.lh.length ≥ g.size - 1 then
          some { s with phase := .panicked "too big a transaction" }
        else if s.outstanding < 1 then
          some { s with phase := .panicked "log_write outside of trans" }
        else
          let s' := s.setOp { o with
            dirty := o.dirty.filter (· ≠ b)
            wrote := if b ∈ o.wrote then o.wrote else b :: o.wrote }
          let s' := { s' with group := s.group ++ [⟨o.id, b, s.content b⟩] }
          if b ∈ s.lh then some s'
          else
            some { s' with
              lh := s.lh ++ [b]
              pins := update s.pins b (s.pins b + 1) }
      else none

/-- `brelse`.  An operation logs a buffer that it has modified before it
releases it. -/
def brelse (s : State) (p : Pid) (b : Nat) : Option State :=
  if s.phase.up ∧ s.holder b = some p ∧ (s.opOf p).all (fun o => b ∉ o.dirty) then
    some { s with holder := update s.holder b none }
  else none

/-- `end_op`, up to the call of `commit()`.  The test at the head of
`commit()` is made here too: with an empty header there is nothing to do. -/
def endOp (s : State) (p : Pid) : Option State :=
  match s.opOf p with
  | none => none
  | some o =>
      if s.phase.up ∧ o.dirty = [] then
        let s' := { s with
          outstanding := s.outstanding - 1
          ops := s.ops.filter (fun o' => o'.pid ≠ p) }
        if s.committing then some { s' with phase := .panicked "log.committing" }
        else if s.outstanding - 1 = 0 then
          some { s' with
            committing := true
            phase := if s.lh.length > 0 then .writeLog 0 else .ending }
        else some s'
      else none

/-- One step of the loop of `install_trans`: copy the log block of `tail`
to its home. -/
def installStep (g : Geometry) (s : State) (b tail : Nat) : State :=
  ((s.load (g.start + tail + 1)).load b).bwrite b (s.content (g.start + tail + 1))

/-- The next step of `commit()`, of the end of `end_op`, or of
`recover_from_log()`.  Every `bread` waits for the buffer. -/
def advance (g : Geometry) (s : State) : Option State :=
  match s.phase with
  | .writeLog tail =>
      match s.lh[tail]? with
      | some b =>
          if s.holder (g.start + tail + 1) = none ∧ s.holder b = none then
            some { (s.load b).bwrite (g.start + tail + 1) (s.content b) with
              phase := .writeLog (tail + 1) }
          else none
      | none => some { s with phase := .writeHead }
  | .writeHead =>
      if s.holder g.start = none then
        some { s.bwrite g.start (writeHeader (s.content g.start) s.lh) with
          phase := .install 0
          committed := s.committed ++ s.group
          group := [] }
      else none
  | .install tail =>
      match s.lh[tail]? with
      | some b =>
          if s.holder (g.start + tail + 1) = none ∧ s.holder b = none then
            some { installStep g s b tail with
              pins := update s.pins b (s.pins b - 1)
              phase := .install (tail + 1) }
          else none
      | none => some { s with phase := .clear }
  | .clear =>
      if s.holder g.start = none then
        some { s.bwrite g.start (writeHeader (s.content g.start) []) with
          lh := []
          phase := .ending }
      else none
  | .ending => some { s with committing := false, phase := .running }
  | .readHead =>
      some { s.load g.start with
        lh := readHeader (s.content g.start)
        phase := .recInstall 0 }
  | .recInstall tail =>
      match s.lh[tail]? with
      | some b => some { installStep g s b tail with phase := .recInstall (tail + 1) }
      | none => some { s with phase := .recClear }
  | .recClear =>
      some { s.bwrite g.start (writeHeader (s.content g.start) []) with
        lh := []
        phase := .running }
  | .running | .panicked _ => none

/-- `bget` recycles a buffer with no reference. -/
def evict (s : State) (b : Nat) : Option State :=
  if s.holder b = none ∧ s.pins b = 0 then
    some { s with cache := update s.cache b none }
  else none

/-- The transition function. -/
def next (g : Geometry) (s : State) : Label → Option State
  | .beginOp p => beginOp s p
  | .bread p b => breadBy s p b
  | .modify p b d => modify g s p b d
  | .logWrite p b => logWrite g s p b
  | .brelse p b => brelse s p b
  | .endOp p => endOp s p
  | .advance => advance g s
  | .evict b => evict s b
  | .crash => some s.reboot

/-- The machine at its first boot, with the image `d` on the disk. -/
def boot (d : Nat → Block) : State where
  disk := d
  cache := fun _ => none
  holder := fun _ => none
  pins := fun _ => 0
  lh := []
  outstanding := 0
  committing := false
  phase := .readHead
  ops := []
  nextOp := 0
  group := []
  committed := []
  lost := []

/-- The first boot on the image `d`, whose log `mkfs` left empty. -/
def Initial (g : Geometry) (d : Nat → Block) (s : State) : Prop :=
  s = boot d ∧ readHeader (d g.start) = []

/-! ## The effect of logged writes -/

/-- The home blocks after the writes of a list, oldest first. -/
def applyWrites (ws : List Write) (d : Nat → Block) : Nat → Block :=
  ws.foldl (fun d w => update d w.blk w.data) d

end Xv6.Log
