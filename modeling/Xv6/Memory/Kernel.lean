import Xv6.Memory.Exec
import Xv6.Memory.Pipe

/-!
# The kernel as a machine over physical pages

The system calls and faults that allocate and release pages, one step each,
and the boot sequence that they start from.  A process is the part of
`struct proc` that holds pages or open files.  Process 0 is `initproc`.

A reply of `-1` is `fail`.  A fault that the kernel does not resolve kills
the process, so its reply is `fail` and the process goes through `exit(-1)`.
-/

namespace Xv6.Memory

open Function

/-- `NPROC`. -/
def NPROC : Nat := 64

/-- `struct proc` of a slot that is in use. -/
structure Proc where
  pagetable : PageTable
  trapframe : Frame
  sz : Nat
  parent : Nat
  ofile : Nat → Option Nat
  zombie : Bool
  xstate : UInt32

/-- The state of the kernel.  An `UNUSED` slot of `proc` is `none`. -/
structure Kernel where
  mem : Mem
  proc : Nat → Option Proc
  files : Files
  kpgtbl : PageTable
  kstack : List Frame
  disk : List Frame

/-- The result of a system call or of an instruction. -/
inductive Reply
  | fail
  | done
  | data (bytes : List UInt8)
  deriving DecidableEq

/-- Store a slot of the process table. -/
def Kernel.setProc (k : Kernel) (i : Nat) (p : Option Proc) : Kernel :=
  { k with proc := update k.proc i p }

@[simp] theorem setProc_proc (k : Kernel) (i : Nat) (p : Option Proc) :
    (k.setProc i p).proc = update k.proc i p := rfl

/-! ## Processes -/

/-- The slot that `allocproc` finds. -/
def freeSlot (proc : Nat → Option Proc) : Option Nat :=
  (List.range NPROC).find? (fun i => (proc i).isNone)

/-- `allocproc`: the slot, the trapframe and the page table of the new
process. -/
def allocproc (L : Layout) (proc : Nat → Option Proc) (m : Mem) :
    Except Panic (Option (Nat × Frame × PageTable) × Mem) :=
  match freeSlot proc with
  | none => .ok (none, m)
  | some i => do
      let (tf, m) ← kalloc m
      match tf with
      | none => .ok (none, m)
      | some tf => do
          let (pt, m) ← procPagetable L tf m
          match pt with
          | none => do
              let m ← kfree L tf m
              .ok (none, m)
          | some pt => .ok (some (i, tf, pt), m)

/-- `freeproc`, for a process with a trapframe and a page table. -/
def freeproc (L : Layout) (tf : Frame) (pt : PageTable) (sz : Nat) (m : Mem) :
    Except Panic Mem := do
  let m ← kfree L tf m
  procFreepagetable L pt sz m

/-- The loop of `fork` over the open files. -/
def dupFiles (ofile : Nat → Option Nat) (fs : Files) : Except Panic Files :=
  (List.range NOFILE).foldlM
    (fun fs fd => match ofile fd with
      | none => .ok fs
      | some f => filedup f fs) fs

/-- `fork` by the process `P` in slot `p`. -/
def fork (L : Layout) (p : Nat) (P : Proc) (k : Kernel) : Except Panic (Reply × Kernel) := do
  let (np, m) ← allocproc L k.proc k.mem
  match np with
  | none => .ok (.fail, { k with mem := m })
  | some (i, tf, pt) => do
      let (r, m, old, new) ← uvmcopy L P.pagetable pt P.sz m
      let k := k.setProc p (some { P with pagetable := old })
      if r then do
        let files ← dupFiles P.ofile k.files
        let child := ⟨new, tf, P.sz, p, P.ofile, false, 0⟩
        .ok (.done, { k with mem := m, files := files }.setProc i (some child))
      else do
        let m ← freeproc L tf new 0 m
        .ok (.fail, { k with mem := m })

/-- The loop of `exit` over the open files. -/
def closeFiles (L : Layout) (ofile : Nat → Option Nat) (fs : Files) (m : Mem) :
    Except Panic (Files × Mem) :=
  (List.range NOFILE).foldlM
    (fun q fd => match ofile fd with
      | none => .ok q
      | some f => fileclose L f q.1 q.2) (fs, m)

/-- `reparent`. -/
def reparent (p : Nat) (proc : Nat → Option Proc) : Nat → Option Proc :=
  fun i => (proc i).map (fun Q => if Q.parent = p then { Q with parent := 0 } else Q)

/-- `exit(status)`. -/
def exit (L : Layout) (p : Nat) (P : Proc) (status : UInt32) (k : Kernel) :
    Except Panic Kernel :=
  if p = 0 then .error (.msg "init exiting")
  else do
    let (files, m) ← closeFiles L P.ofile k.files k.mem
    let zombie := { P with ofile := fun _ => none, zombie := true, xstate := status }
    .ok ({ k with mem := m, files := files, proc := reparent p k.proc }.setProc p (some zombie))

/-- The four bytes of an `int`. -/
def le32 (x : Nat) : List UInt8 := (List.range 4).map (fun i => UInt8.ofNat (x / 256 ^ i))

/-- The zombie child that `wait` finds. -/
def zombieChild (p : Nat) (proc : Nat → Option Proc) : Option Nat :=
  (List.range NPROC).find? (fun i => (proc i).any (fun Q => Q.parent = p ∧ Q.zombie = true))

/-- The `copyout` of `wait`. -/
def copyStatus (L : Layout) (addr : Nat) (xstate : UInt32) (pt : PageTable) (m : Mem) :
    Except Panic (Bool × Mem × PageTable) :=
  if addr = 0 then .ok (true, m, pt) else copyout L addr (le32 xstate.toNat) pt m

/-- `wait(addr)`.  A call that sleeps is a step that changes nothing. -/
def wait (L : Layout) (p : Nat) (P : Proc) (addr : Nat) (k : Kernel) :
    Except Panic (Reply × Kernel) :=
  match zombieChild p k.proc with
  | none => .ok (.fail, k)
  | some i =>
      match k.proc i with
      | none => .ok (.fail, k)
      | some Q => do
          let (r, m, pt) ← copyStatus L addr Q.xstate P.pagetable k.mem
          let k := k.setProc p (some { P with pagetable := pt })
          if r then do
            let m ← freeproc L Q.trapframe Q.pagetable Q.sz m
            .ok (.done, { k with mem := m }.setProc i none)
          else .ok (.fail, { k with mem := m })

/-! ## Memory -/

/-- `sz + n`, in 64 bits. -/
def addSize (sz : Nat) (n : Int) : Nat := ((sz + n) % 2 ^ 64).toNat

/-- `growproc(n)`. -/
def growproc (L : Layout) (n : Int) (P : Proc) (m : Mem) : Except Panic (Bool × Proc × Mem) :=
  if n > 0 then do
    let (sz, m, pt) ← uvmalloc L P.pagetable P.sz (addSize P.sz n) true false m
    if sz = 0 then .ok (false, { P with pagetable := pt }, m)
    else .ok (true, { P with pagetable := pt, sz := sz }, m)
  else if n < 0 then do
    let (sz, m, pt) ← uvmdealloc L P.pagetable P.sz (addSize P.sz n) m
    .ok (true, { P with pagetable := pt, sz := sz }, m)
  else .ok (true, P, m)

/-- The byte at an address of a page. -/
def byteAt (page : Page) (va : Nat) : UInt8 := page (Fin.ofNat PGSIZE va)

/-- A load instruction.  `none` is a fault. -/
def userLoad (pt : PageTable) (va : Nat) (m : Mem) : Option UInt8 :=
  if va ≥ MAXVA then none
  else
    match pt.leaf (va / PGSIZE) with
    | none => none
    | some e => if e.flags.u && e.flags.r then some (byteAt (m.bytes e.ppn) va) else none

/-- A store instruction.  `none` is a fault. -/
def userStore (pt : PageTable) (va : Nat) (b : UInt8) (m : Mem) : Option Mem :=
  if va ≥ MAXVA then none
  else
    match pt.leaf (va / PGSIZE) with
    | none => none
    | some e =>
        if e.flags.u && e.flags.w then
          some (m.write e.ppn (patch (m.bytes e.ppn) (va % PGSIZE) [b]))
        else none

/-- A store instruction with its fault: `usertrap` calls `cowHandler`, and
the instruction is tried again. -/
def faultStore (L : Layout) (va : Nat) (b : UInt8) (pt : PageTable) (m : Mem) :
    Except Panic (Bool × Mem × PageTable) :=
  match userStore pt va b m with
  | some m => .ok (true, m, pt)
  | none => do
      let (r, m, pt) ← cowHandler L va pt m
      if r then
        match userStore pt va b m with
        | some m => .ok (true, m, pt)
        | none => .ok (false, m, pt)
      else .ok (false, m, pt)

/-! ## Files -/

/-- `fdalloc`. -/
def fdalloc (f : Nat) (ofile : Nat → Option Nat) : Option (Nat × (Nat → Option Nat)) :=
  ((List.range NOFILE).find? (fun fd => (ofile fd).isNone)).map
    (fun fd => (fd, update ofile fd (some f)))

/-- The file table and the process after a call that opens a file which is
not a pipe: the part of `sys_open` after the inode is found. -/
def openFile (L : Layout) (P : Proc) (fs : Files) (m : Mem) :
    Except Panic (Reply × Proc × Files × Mem) :=
  match filealloc fs with
  | (none, fs) => .ok (.fail, P, fs, m)
  | (some f, fs) =>
      match fdalloc f P.ofile with
      | none => do
          let (fs, m) ← fileclose L f fs m
          .ok (.fail, P, fs, m)
      | some (_, ofile) => .ok (.done, { P with ofile := ofile }, fs, m)

/-- `argfd`. -/
def argfd (P : Proc) (fd : Nat) : Option Nat := if fd < NOFILE then P.ofile fd else none

/-- `sys_dup`. -/
def sysDup (P : Proc) (fd : Nat) (fs : Files) : Except Panic (Reply × Proc × Files) :=
  match argfd P fd with
  | none => .ok (.fail, P, fs)
  | some f =>
      match fdalloc f P.ofile with
      | none => .ok (.fail, P, fs)
      | some (_, ofile) => do
          let fs ← filedup f fs
          .ok (.done, { P with ofile := ofile }, fs)

/-- `sys_close`. -/
def sysClose (L : Layout) (P : Proc) (fd : Nat) (fs : Files) (m : Mem) :
    Except Panic (Reply × Proc × Files × Mem) :=
  match argfd P fd with
  | none => .ok (.fail, P, fs, m)
  | some f => do
      let (fs, m) ← fileclose L f fs m
      .ok (.done, { P with ofile := update P.ofile fd none }, fs, m)

/-- The error path of `sys_pipe`. -/
def closePipe (L : Layout) (rf wf : Nat) (P : Proc) (fs : Files) (m : Mem) :
    Except Panic (Reply × Proc × Files × Mem) := do
  let (fs, m) ← fileclose L rf fs m
  let (fs, m) ← fileclose L wf fs m
  .ok (.fail, P, fs, m)

/-- `sys_pipe(fdarray)`, after `pipealloc`. -/
def installPipe (L : Layout) (P : Proc) (fdarray rf wf : Nat) (fs : Files) (m : Mem) :
    Except Panic (Reply × Proc × Files × Mem) :=
  match fdalloc rf P.ofile with
  | none => closePipe L rf wf P fs m
  | some (fd0, ofile) =>
      match fdalloc wf ofile with
      | none => closePipe L rf wf P fs m
      | some (fd1, ofile) => do
          let (r, m, pt) ← copyout L fdarray (le32 fd0) P.pagetable m
          if r then do
            let (r, m, pt) ← copyout L ((fdarray + 4) % 2 ^ 64) (le32 fd1) pt m
            if r then .ok (.done, { P with pagetable := pt, ofile := ofile }, fs, m)
            else closePipe L rf wf { P with pagetable := pt } fs m
          else closePipe L rf wf { P with pagetable := pt } fs m

/-- `sys_pipe(fdarray)`. -/
def sysPipe (L : Layout) (P : Proc) (fdarray : Nat) (fs : Files) (m : Mem) :
    Except Panic (Reply × Proc × Files × Mem) := do
  let (r, fs, m) ← pipealloc L fs m
  match r with
  | none => .ok (.fail, P, fs, m)
  | some (rf, wf) => installPipe L P fdarray rf wf fs m

/-! ## Steps -/

/-- What a process does. -/
inductive Call
  | fork
  | exec (headers : Option (List (Option Proghdr))) (args : List Arg)
  | sbrk (n : Int32)
  | load (va : Nat)
  | store (va : Nat) (b : UInt8)
  | copyin (va len : Nat)
  | copyout (va : Nat) (src : List UInt8)
  | pipe (fdarray : Nat)
  | openFile
  | dup (fd : Nat)
  | close (fd : Nat)
  | exit (status : UInt32)
  | wait (addr : Nat)

/-- A step of the machine. -/
structure Action where
  slot : Nat
  call : Call

/-- A process is killed by a fault. -/
def kill (L : Layout) (p : Nat) (P : Proc) (k : Kernel) : Except Panic (Reply × Kernel) := do
  let k ← exit L p P 0xFFFFFFFF k
  .ok (.fail, k)

/-- A call of the process `P` in slot `p`. -/
def call (L : Layout) (p : Nat) (P : Proc) (k : Kernel) : Call → Except Panic (Reply × Kernel)
  | .fork => fork L p P k
  | .exec headers args => do
      let (r, m) ← sysExec L P.trapframe P.pagetable P.sz headers args k.mem
      match r with
      | none => .ok (.fail, { k with mem := m })
      | some (sz, pt) =>
          .ok (.done, { k with mem := m }.setProc p (some { P with pagetable := pt, sz := sz }))
  | .sbrk n => do
      let (r, P, m) ← growproc L n.toInt P k.mem
      .ok (if r then .done else .fail, { k with mem := m }.setProc p (some P))
  | .load va =>
      match userLoad P.pagetable va k.mem with
      | some b => .ok (.data [b], k)
      | none => kill L p P k
  | .store va b => do
      let (r, m, pt) ← faultStore L va b P.pagetable k.mem
      let P := { P with pagetable := pt }
      let k := { k with mem := m }.setProc p (some P)
      if r then .ok (.done, k) else kill L p P k
  | .copyin va len => do
      match ← copyin P.pagetable va len k.mem with
      | some bytes => .ok (.data bytes, k)
      | none => .ok (.fail, k)
  | .copyout va src => do
      let (r, m, pt) ← copyout L va src P.pagetable k.mem
      .ok (if r then .done else .fail,
        { k with mem := m }.setProc p (some { P with pagetable := pt }))
  | .pipe fdarray => do
      let (r, P, files, m) ← sysPipe L P fdarray k.files k.mem
      .ok (r, { k with mem := m, files := files }.setProc p (some P))
  | .openFile => do
      let (r, P, files, m) ← openFile L P k.files k.mem
      .ok (r, { k with mem := m, files := files }.setProc p (some P))
  | .dup fd => do
      let (r, P, files) ← sysDup P fd k.files
      .ok (r, { k with files := files }.setProc p (some P))
  | .close fd => do
      let (r, P, files, m) ← sysClose L P fd k.files k.mem
      .ok (r, { k with mem := m, files := files }.setProc p (some P))
  | .exit status => do
      let k ← exit L p P status k
      .ok (.done, k)
  | .wait addr => wait L p P addr k

/-- A step.  Nothing happens for a slot without a process that can run. -/
def step (L : Layout) (k : Kernel) (a : Action) : Except Panic (Reply × Kernel) :=
  match k.proc a.slot with
  | none => .ok (.fail, k)
  | some P => if P.zombie then .ok (.fail, k) else call L a.slot P k a.call

/-- The state after a step, unless it panics. -/
def next (L : Layout) (k : Kernel) (a : Action) : Option Kernel :=
  match step L k a with
  | .ok (_, k) => some k
  | .error _ => none

/-! ## Boot -/

/-- A range that `kvmmake` maps. -/
structure Region where
  va : Nat
  pa : Frame
  npages : Nat
  flags : Flags

/-- `kvmmap`, with `n` pages left. -/
def kvmmap (flags : Flags) :
    Nat → Nat → Frame → PageTable → Mem → Except Panic (Mem × PageTable)
  | 0, _, _, pt, m => .ok (m, pt)
  | n + 1, v, pa, pt, m => do
      let (r, m, pt) ← mappages pt v (.new pa flags) m
      if r then kvmmap flags n (v + 1) (pa + 1) pt m else .error (.msg "kvmmap")

/-- `KSTACK(p)`, as a page number. -/
def KSTACK (p : Nat) : Nat := TRAMPOLINE - (p + 1) * 2

/-- `proc_mapstacks`, for the slots of a list.  It keeps the stacks so far. -/
def procMapstacks :
    List Nat → List Frame → PageTable → Mem → Except Panic (List Frame × Mem × PageTable)
  | [], kstack, pt, m => .ok (kstack, m, pt)
  | p :: rest, kstack, pt, m => do
      let (pa, m) ← kalloc m
      match pa with
      | none => .error (.msg "kalloc")
      | some pa => do
          let (m, pt) ← kvmmap ⟨true, true, false, false⟩ 1 (KSTACK p) pa pt m
          procMapstacks rest (kstack ++ [pa]) pt m

/-- The loop over the regions of `kvmmake`. -/
def kvmmapAll : List Region → PageTable → Mem → Except Panic (Mem × PageTable)
  | [], pt, m => .ok (m, pt)
  | g :: rest, pt, m => do
      let (m, pt) ← kvmmap g.flags g.npages g.va g.pa pt m
      kvmmapAll rest pt m

/-- `kvmmake`.  The regions are the devices, the text of the kernel, and its
data with the rest of the memory.  A null pointer from `kalloc` is written
through. -/
def kvmmake (L : Layout) (regions : List Region) (m : Mem) :
    Except Panic (List Frame × Mem × PageTable) := do
  let (root, m) ← kalloc m
  match root with
  | none => .error (.msg "kerneltrap")
  | some root => do
      let (m, pt) ← kvmmapAll regions (.empty root) m
      let (m, pt) ← kvmmap ⟨true, false, true, false⟩ 1 TRAMPOLINE L.trampoline pt m
      procMapstacks (List.range NPROC) [] pt m

/-- The pages of `virtio_disk_init`. -/
def virtioDiskInit (m : Mem) : Except Panic (List Frame × Mem) := do
  let (desc, m) ← kalloc m
  let (avail, m) ← kalloc m
  let (used, m) ← kalloc m
  match desc, avail, used with
  | some desc, some avail, some used => .ok ([desc, avail, used], m)
  | _, _, _ => .error (.msg "virtio disk kalloc")

/-- `userinit`: slot 0, with `initcode` at address 0. -/
def userinit (L : Layout) (initcode : List UInt8) (m : Mem) : Except Panic (Proc × Mem) := do
  let (np, m) ← allocproc L (fun _ => none) m
  match np with
  | none => .error (.msg "kerneltrap")
  | some (_, tf, pt) => do
      let (m, pt) ← uvmfirst initcode pt m
      .ok (⟨pt, tf, PGSIZE, 0, fun _ => none, false, 0⟩, m)

/-- `main`, up to the scheduler. -/
def boot (L : Layout) (regions : List Region) (initcode : List UInt8) (bytes : Frame → Page) :
    Except Panic Kernel := do
  let m ← kinit L bytes
  let (kstack, m, kpgtbl) ← kvmmake L regions m
  let (disk, m) ← virtioDiskInit m
  let (P, m) ← userinit L initcode m
  .ok ⟨m, update (fun _ => none) 0 (some P), .empty, kpgtbl, kstack, disk⟩

end Xv6.Memory
