import Mathlib.Algebra.Group.Nat.Defs
import Mathlib.Logic.Function.Basic
import Xv6.Lib.Transition

/-!
# The virtio disk

The request path of `kernel/virtio_disk.c`: `virtio_disk_rw` for any number
of processes, `virtio_disk_intr`, and the device.

The device takes the heads of the available ring in order, completes those
that it has taken in any order, and appends each of them to the used ring.
It writes the status byte where the third descriptor of the chain says.  The
data itself is left out.

A step of a process is what it does between two moments at which the device
or another process can come in: `alloc3_desc` with the formatting of the
descriptors, then the increment of `avail->idx`, then the wait.  The interrupt
handler looks at one entry of the used ring in a step, so the device can add
entries while it runs.  `vdisk_lock` is taken and given back as the source
does it.
-/

namespace Xv6.Virtio

open Xv6.Lib Function

/-- `NUM`, the number of descriptors. -/
abbrev NUM : Nat := 8

/-- `BSIZE`. -/
abbrev BSIZE : Nat := 1024

/-- `VRING_DESC_F_NEXT`. -/
abbrev VRING_DESC_F_NEXT : UInt16 := 1

/-- `VRING_DESC_F_WRITE`. -/
abbrev VRING_DESC_F_WRITE : UInt16 := 2

/-- `VIRTIO_BLK_T_IN`. -/
abbrev VIRTIO_BLK_T_IN : UInt32 := 0

/-- `VIRTIO_BLK_T_OUT`. -/
abbrev VIRTIO_BLK_T_OUT : UInt32 := 1

/-- A `struct buf`, by its address. -/
abbrev Buf := Nat

/-- A process, or a CPU in the interrupt handler. -/
abbrev Pid := Nat

/-- What the address in a descriptor points to. -/
inductive Addr
  | zero
  /-- `&disk.ops[i]`. -/
  | op (i : Nat)
  /-- `b->data`. -/
  | data (b : Buf)
  /-- `&disk.info[i].status`. -/
  | status (i : Nat)
  deriving DecidableEq

/-- `struct virtq_desc`. -/
structure Desc where
  addr : Addr
  len : Nat
  flags : UInt16
  next : Nat

/-- `struct virtio_blk_req`. -/
structure BlkReq where
  type : UInt32
  reserved : UInt32
  sector : UInt64

/-- An entry of `disk.info`. -/
structure Info where
  b : Option Buf
  status : UInt8

/-- `struct virtq_avail` and `struct virtq_used`: a ring of heads, and the
index of the next entry. -/
structure Queue where
  ring : Nat → Nat
  idx : UInt16

/-- `struct disk`, without its lock. -/
structure Disk where
  desc : Nat → Desc
  avail : Queue
  used : Queue
  free : Nat → Bool
  /-- `disk.used_idx`: the driver has looked this far. -/
  usedIdx : UInt16
  info : Nat → Info
  ops : Nat → BlkReq

/-- The device: how far it has looked in the available ring, and the heads
that it has taken and not completed. -/
structure Device where
  availIdx : UInt16
  taken : List Nat

/-! ## Descriptors -/

namespace Disk

/-- `alloc_desc`. -/
def allocDesc (d : Disk) : Option (Nat × Disk) :=
  ((List.range NUM).find? d.free).map (fun i =>
    (i, { d with free := update d.free i false }))

/-- `free_desc`, without the `wakeup`. -/
def freeDesc (d : Disk) (i : Nat) : Except String Disk :=
  if i ≥ NUM then .error "free_desc 1"
  else if d.free i then .error "free_desc 2"
  else .ok { d with
    desc := update d.desc i ⟨.zero, 0, 0, 0⟩
    free := update d.free i true }

/-- `free_chain`, for at most `k` descriptors.  A chain with more than `NUM`
descriptors meets a free one. -/
def freeChain : Nat → Disk → Nat → Except String Disk
  | 0, _, _ => .error "free_desc 2"
  | k + 1, d, i =>
      let flag := (d.desc i).flags
      let nxt := (d.desc i).next
      match d.freeDesc i with
      | .error msg => .error msg
      | .ok d => if flag &&& VRING_DESC_F_NEXT ≠ 0 then freeChain k d nxt else .ok d

end Disk

/-- The three descriptors of a request. -/
structure Chain where
  head : Nat
  data : Nat
  status : Nat
  deriving DecidableEq

/-- The descriptors in the order of the chain. -/
def Chain.toList (c : Chain) : List Nat := [c.head, c.data, c.status]

/-- `alloc3_desc`.  If there are not three, those that it has taken are given
back. -/
def Disk.alloc3Desc (d : Disk) : Except String (Option Chain × Disk) :=
  match d.allocDesc with
  | none => .ok (none, d)
  | some (i, d) =>
      match d.allocDesc with
      | none => do
          let d ← d.freeDesc i
          return (none, d)
      | some (j, d) =>
          match d.allocDesc with
          | none => do
              let d ← d.freeDesc i
              let d ← d.freeDesc j
              return (none, d)
          | some (k, d) => .ok (some ⟨i, j, k⟩, d)

/-- Format the descriptors, record the buffer, and put the head into the
available ring. -/
def Disk.format (d : Disk) (b : Buf) (blockno : UInt32) (write : Bool) (c : Chain) : Disk :=
  let flags : UInt16 := if write then 0 else VRING_DESC_F_WRITE
  { d with
    ops := update d.ops c.head
      ⟨if write then VIRTIO_BLK_T_OUT else VIRTIO_BLK_T_IN, 0,
        (blockno * UInt32.ofNat (BSIZE / 512)).toUInt64⟩
    desc := update (update (update d.desc
      c.head ⟨.op c.head, 16, VRING_DESC_F_NEXT, c.data⟩)
      c.data ⟨.data b, BSIZE, flags ||| VRING_DESC_F_NEXT, c.status⟩)
      c.status ⟨.status c.head, 1, VRING_DESC_F_WRITE, 0⟩
    info := update d.info c.head ⟨some b, 0xff⟩
    avail := { d.avail with
      ring := update d.avail.ring (d.avail.idx.toNat % NUM) c.head } }

/-! ## The system -/

/-- The place of a process. -/
inductive Pc
  | idle
  /-- In `virtio_disk_rw`, before it has the lock. -/
  | start (b : Buf) (write : Bool)
  /-- Before `alloc3_desc`. -/
  | alloc (b : Buf) (write : Bool)
  /-- In `sleep(&disk.free[0], &disk.vdisk_lock)`. -/
  | sleepFree (b : Buf) (write : Bool)
  | wokenFree (b : Buf) (write : Bool)
  /-- Before `disk.avail->idx += 1`. -/
  | publish (b : Buf) (c : Chain)
  /-- Before the test `b->disk == 1`. -/
  | wait (b : Buf) (c : Chain)
  /-- In `sleep(b, &disk.vdisk_lock)`. -/
  | sleepBuf (b : Buf) (c : Chain)
  | wokenBuf (b : Buf) (c : Chain)
  /-- In `virtio_disk_intr`, before it has the lock. -/
  | intr
  /-- The head of the loop of `virtio_disk_intr`. -/
  | intrLoop
  /-- Before `release(&disk.vdisk_lock)`. -/
  | leave

/-- The driver, the device and the processes. -/
structure Sys where
  disk : Disk
  device : Device
  /-- `b->disk`. -/
  onDisk : Buf → Bool
  blockno : Buf → UInt32
  /-- `disk.vdisk_lock`. -/
  lock : Option Pid
  pc : Pid → Pc
  panicked : Option String

/-- The steps. -/
inductive Step
  | rw (p : Pid) (b : Buf) (write : Bool)
  | intr (p : Pid)
  | go (p : Pid)
  /-- The device takes the next head of the available ring. -/
  | take
  /-- The device completes a request that it has taken. -/
  | complete (head : Nat)

namespace Sys

/-- Move a process. -/
def setPc (s : Sys) (p : Pid) (pc : Pc) : Sys := { s with pc := update s.pc p pc }

/-- `acquire(&disk.vdisk_lock)`, and go on at `pc`. -/
def acquire (s : Sys) (p : Pid) (pc : Pc) : Option Sys :=
  if s.lock = none then some ({ s with lock := some p }.setPc p pc) else none

/-- `release(&disk.vdisk_lock)`, and go on at `pc`. -/
def release (s : Sys) (p : Pid) (pc : Pc) : Sys := { s with lock := none }.setPc p pc

end Sys

/-- A `wakeup(&disk.free[0])` at one process. -/
def Pc.wakeFree : Pc → Pc
  | .sleepFree b write => .wokenFree b write
  | pc => pc

/-- A `wakeup(b)` at one process. -/
def Pc.wakeBuf (b : Buf) : Pc → Pc
  | .sleepBuf b' c => if b' = b then .wokenBuf b' c else .sleepBuf b' c
  | pc => pc

/-- `wakeup(&disk.free[0])`. -/
def Sys.wakeFree (s : Sys) : Sys := { s with pc := fun p => (s.pc p).wakeFree }

/-- `wakeup(b)`. -/
def Sys.wakeBuf (s : Sys) (b : Buf) : Sys := { s with pc := fun p => (s.pc p).wakeBuf b }

/-- One try of the loop around `alloc3_desc`. -/
def Sys.request (s : Sys) (p : Pid) (b : Buf) (write : Bool) : Sys :=
  match s.disk.alloc3Desc with
  | .error msg => { s with panicked := some msg }
  | .ok (some c, d) =>
      { s with
        disk := d.format b (s.blockno b) write c
        onDisk := update s.onDisk b true }.setPc p (.publish b c)
  | .ok (none, d) =>
      let s' := { s with disk := d }
      (if s.disk.allocDesc.isSome then s'.wakeFree else s').release p (.sleepFree b write)

/-- `disk.avail->idx += 1`. -/
def Sys.publish (s : Sys) (p : Pid) (b : Buf) (c : Chain) : Sys :=
  { s with disk := { s.disk with
      avail := { s.disk.avail with idx := s.disk.avail.idx + 1 } } }.setPc p (.wait b c)

/-- The rest of `virtio_disk_rw`: sleep, or free the chain. -/
def Sys.wait (s : Sys) (p : Pid) (b : Buf) (c : Chain) : Sys :=
  if s.onDisk b then s.release p (.sleepBuf b c)
  else
    let d := { s.disk with
      info := update s.disk.info c.head { s.disk.info c.head with b := none } }
    match d.freeChain (NUM + 1) c.head with
    | .error msg => { s with panicked := some msg }
    | .ok d => { s with disk := d }.wakeFree.setPc p .leave

/-- One entry of the used ring.  A null pointer in `info` is a fault. -/
def Sys.intrLoop (s : Sys) (p : Pid) : Sys :=
  if s.disk.usedIdx ≠ s.disk.used.idx then
    let id := s.disk.used.ring (s.disk.usedIdx.toNat % NUM)
    if (s.disk.info id).status ≠ 0 then { s with panicked := some "virtio_disk_intr status" }
    else
      match (s.disk.info id).b with
      | none => { s with panicked := some "kerneltrap" }
      | some b =>
          { s with
            onDisk := update s.onDisk b false
            disk := { s.disk with usedIdx := s.disk.usedIdx + 1 } }.wakeBuf b
  else s.setPc p .leave

/-- The next step of process `p`. -/
def callStep (s : Sys) (p : Pid) : Option Sys :=
  match s.pc p with
  | .idle | .sleepFree _ _ | .sleepBuf _ _ => none
  | .start b write | .wokenFree b write => s.acquire p (.alloc b write)
  | .alloc b write => some (s.request p b write)
  | .publish b c => some (s.publish p b c)
  | .wait b c => some (s.wait p b c)
  | .wokenBuf b c => s.acquire p (.wait b c)
  | .intr => s.acquire p .intrLoop
  | .intrLoop => some (s.intrLoop p)
  | .leave => some (s.release p .idle)

/-- The device takes a head. -/
def Sys.take (s : Sys) : Option Sys :=
  if s.device.availIdx ≠ s.disk.avail.idx then
    some { s with device :=
      { availIdx := s.device.availIdx + 1
        taken := s.device.taken ++ [s.disk.avail.ring (s.device.availIdx.toNat % NUM)] } }
  else none

/-- The device writes the status byte of a chain. -/
def Disk.writeStatus (d : Disk) (head : Nat) : Disk :=
  match (d.desc (d.desc (d.desc head).next).next).addr with
  | .status i => { d with info := update d.info i { d.info i with status := 0 } }
  | _ => d

/-- The device completes a request. -/
def Sys.complete (s : Sys) (head : Nat) : Option Sys :=
  if head ∈ s.device.taken then
    let d := s.disk.writeStatus head
    some { s with
      device := { s.device with taken := s.device.taken.erase head }
      disk := { d with used :=
        { ring := update d.used.ring (d.used.idx.toNat % NUM) head
          idx := d.used.idx + 1 } } }
  else none

/-- The transition function. -/
def next (s : Sys) (l : Step) : Option Sys :=
  if s.panicked.isSome then none
  else
    match l with
    | .rw p b write =>
        match s.pc p with
        | .idle => some (s.setPc p (.start b write))
        | _ => none
    | .intr p =>
        match s.pc p with
        | .idle => some (s.setPc p .intr)
        | _ => none
    | .go p => callStep s p
    | .take => s.take
    | .complete head => s.complete head

/-- After `virtio_disk_init`. -/
def Initial (s : Sys) : Prop :=
  s.disk.avail.idx = 0 ∧ s.disk.used.idx = 0 ∧ s.disk.usedIdx = 0 ∧
    (∀ i < NUM, s.disk.free i = true) ∧ s.device = ⟨0, []⟩ ∧ (∀ b, s.onDisk b = false) ∧
    s.lock = none ∧ (∀ p, s.pc p = .idle) ∧ s.panicked = none

/-- The buffer of the request of a process. -/
def Pc.buf : Pc → Option Buf
  | .start b _ | .alloc b _ | .sleepFree b _ | .wokenFree b _ | .publish b _ | .wait b _
  | .sleepBuf b _ | .wokenBuf b _ => some b
  | .idle | .intr | .intrLoop | .leave => none

/-- One outstanding request per buffer. -/
def Single (s : Sys) : Step → Prop
  | .rw _ b _ => ∀ q, (s.pc q).buf ≠ some b
  | _ => True

end Xv6.Virtio
