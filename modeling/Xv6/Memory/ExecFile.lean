import Xv6.Memory.Exec
import Xv6.Memory.Ownership

/-!
# `exec` of a file

`exec` from the bytes of the file on: the ELF header and the program headers are
read from the file at the offsets that it names, with the truncations of the
source, and the fields of `struct proc` that a successful call sets are part of
the state.

The inode layer is here what `exec` uses of it.  `namei` gives an inode with one
more reference, `ilock` and `iunlockput` lock it and give it back, and
`begin_op` and `end_op` count the operations of the log.  A file is its bytes,
and `readi` reads them.

`exec_fails_cleanly` says that `exec` returns for every file and every list of
arguments that `sys_exec` can build, and that a call that returns `-1` leaves
everything as it was.
-/

namespace Xv6.Memory

open Xv6.Lib Function

/-! ## The file -/

/-- `readi` of `n` bytes at `off`, to the kernel. -/
def readBytes (content : List UInt8) (off n : UInt32) : List UInt8 :=
  if content.length < off.toNat ∨ off + n < off then []
  else (content.drop off.toNat).take n.toNat

/-- The little-endian number of `n` bytes at `off` of a structure. -/
def leField (bytes : List UInt8) (off n : Nat) : Nat :=
  ((bytes.drop off).take n).foldr (fun b x => b.toNat + 256 * x) 0

/-- `ELF_MAGIC`. -/
def ELF_MAGIC : Nat := 0x464C457F

/-- `ELF_PROG_LOAD`. -/
def ELF_PROG_LOAD : Nat := 1

/-- `sizeof(struct elfhdr)`. -/
def ELFHDR : UInt32 := 64

/-- `sizeof(struct proghdr)`. -/
def PROGHDR : UInt32 := 56

/-- A program header of the file.  `ph.off` is passed to `loadseg` as a
`uint`. -/
def parseProghdr (content bytes : List UInt8) : Proghdr where
  load := leField bytes 0 4 = ELF_PROG_LOAD
  flags := UInt32.ofNat (leField bytes 4 4)
  vaddr := UInt64.ofNat (leField bytes 16 8)
  filesz := UInt64.ofNat (leField bytes 32 8)
  memsz := UInt64.ofNat (leField bytes 40 8)
  contents := content.drop (leField bytes 8 8 % 2 ^ 32)

/-- The program headers that the loop of `exec` reads, from `off` on.  It stops
at the first short read. -/
def readHeaders (content : List UInt8) : Nat → UInt32 → List (Option Proghdr)
  | 0, _ => []
  | k + 1, off =>
      let bytes := readBytes content off PROGHDR
      if bytes.length = PROGHDR.toNat then
        some (parseProghdr content bytes) :: readHeaders content k (off + PROGHDR)
      else [none]

/-- `elf`, as far as `exec` uses it. -/
structure Elfhdr where
  entry : Nat
  headers : List (Option Proghdr)

/-- The ELF header, unless it is short or has another magic number.  `off` is an
`int`, so `elf.phoff` is truncated. -/
def readElf (content : List UInt8) : Option Elfhdr :=
  let bytes := readBytes content 0 ELFHDR
  if bytes.length = ELFHDR.toNat ∧ leField bytes 0 4 = ELF_MAGIC then
    some ⟨leField bytes 24 8,
      readHeaders content (leField bytes 56 2) (UInt32.ofNat (leField bytes 32 8))⟩
  else none

/-! ## Inodes and operations -/

/-- What `exec` uses of the inode table and of the log. -/
structure Inodes where
  ref : Nat → Nat
  locked : Nat → Bool
  /-- The inode has a type. -/
  allocated : Nat → Bool
  outstanding : Nat

namespace Inodes

/-- `begin_op`. -/
def beginOp (s : Inodes) : Inodes := { s with outstanding := s.outstanding + 1 }

/-- `end_op`. -/
def endOp (s : Inodes) : Inodes := { s with outstanding := s.outstanding - 1 }

/-- What `namei` does to the inode that it returns. -/
def take (s : Inodes) (i : Nat) : Inodes :=
  { s with ref := update s.ref i (s.ref i + 1) }

/-- `ilock`. -/
def ilock (s : Inodes) (i : Nat) : Except Panic Inodes :=
  if s.ref i < 1 then .error (.msg "ilock")
  else if s.allocated i = false then .error (.msg "ilock: no type")
  else .ok { s with locked := update s.locked i true }

/-- `iunlockput`. -/
def iunlockput (s : Inodes) (i : Nat) : Except Panic Inodes :=
  if s.locked i = false ∨ s.ref i < 1 then .error (.msg "iunlock")
  else
    .ok { s with
      locked := update s.locked i false
      ref := update s.ref i (s.ref i - 1) }

/-- An inode that `namei` finds: it has a type, and `exec` gets its lock. -/
structure Found (s : Inodes) where
  inum : Nat
  allocated : s.allocated inum = true
  free : s.locked inum = false

/-- What is taken is given back. -/
theorem ilock_iunlockput (s : Inodes) (f : Found s) :
    ∃ s', (s.beginOp.take f.inum).ilock f.inum = .ok s' ∧
      ∃ s'', s'.iunlockput f.inum = .ok s'' ∧ s''.endOp = s := by
  have href : (s.beginOp.take f.inum).ref f.inum = s.ref f.inum + 1 := update_self ..
  have hlock : (s.beginOp.take f.inum).ilock f.inum =
      .ok { s.beginOp.take f.inum with locked := update s.locked f.inum true } := by
    have htype : (s.beginOp.take f.inum).allocated f.inum = true := f.allocated
    rw [ilock, if_neg (by omega), if_neg (by rw [htype]; decide)]
    rfl
  refine ⟨_, hlock, _, if_neg ?_, ?_⟩
  · dsimp only
    rw [update_self, href]
    simp
  · have hfree : update s.locked f.inum false = s.locked := by
      rw [← f.free, update_eq_self]
    simp [endOp, beginOp, take, hfree]

end Inodes

/-! ## `exec` -/

/-- The part of `struct proc` that `exec` sets, with the registers of the
trapframe. -/
structure Program where
  pagetable : PageTable
  sz : Nat
  a1 : Nat
  epc : Nat
  sp : Nat
  name : List UInt8

/-- The arguments that `sys_exec` can build: fewer than `MAXARG` strings, each of
them in a page. -/
structure Argv where
  strs : List (List UInt8)
  short : strs.length < MAXARG
  fits : ∀ s ∈ strs, s.length < PGSIZE

/-- The state in which a process calls `exec`. -/
structure Exec (L : Layout) where
  mem : Mem
  tf : Frame
  program : Program
  inodes : Inodes
  held : Held L mem program.pagetable (pages program.sz)

/-- A process of a sound kernel, with its registers and its name. -/
def Exec.ofSound {L : Layout} {k : Kernel} {p : Nat} {P : Proc} (h : Sound L k)
    (hp : k.proc p = some P) (a1 epc sp : Nat) (name : List UInt8) (inodes : Inodes) : Exec L :=
  ⟨k.mem, P.trapframe, ⟨P.pagetable, P.sz, a1, epc, sp, name⟩, inodes, h.held hp⟩

/-- What `exec` leaves. -/
structure Execution where
  mem : Mem
  program : Program
  inodes : Inodes

/-- The stack pointer below a string. -/
def pushString (sp : Nat) (s : List UInt8) : Nat :=
  let sp := sp - (s.length + 1)
  sp - sp % 16

/-- The stack pointer below the strings and the array of pointers. -/
def stackPointer (sz : Nat) (args : List (List UInt8)) : Nat :=
  let sp := args.foldl pushString sz
  let sp := sp - (args.length + 1) * 8
  sp - sp % 16

/-- `safestrcpy(p->name, last, sizeof(p->name))`, where `last` is the part of the
path after its last slash. -/
def programName (path : List UInt8) : List UInt8 :=
  ((path.reverse.takeWhile (fun b => b ≠ 47)).reverse).take 15

/-- `if(pagetable) proc_freepagetable(pagetable, sz)`. -/
def freeUnfinished (L : Layout) (m : Mem) : Option (PageTable × Nat) → Except Panic Mem
  | none => .ok m
  | some (pt, sz) => procFreepagetable L pt sz m

/-- `if(ip){ iunlockput(ip); end_op(); }`. -/
def returnFile (s : Inodes) : Option Nat → Except Panic Inodes
  | none => .ok s
  | some i => (s.iunlockput i).map Inodes.endOp

/-- `bad` of `exec`.  `pagetable` comes with `sz`. -/
def execBad (L : Layout) (pagetable : Option (PageTable × Nat)) (ip : Option Nat)
    (s : Execution) : Except Panic (Int32 × Execution) := do
  let m ← freeUnfinished L s.mem pagetable
  let inodes ← returnFile s.inodes ip
  .ok (-1, ⟨m, s.program, inodes⟩)

/-- `exec` from the user stack on, with `ip = 0`. -/
def execStack (L : Layout) (path : List UInt8) (entry : Nat) (args : Argv) (pt : PageTable)
    (sz : Nat) (s : Execution) : Except Panic (Int32 × Execution) := do
  let (r, sz, m, pt) ← userStack L sz pt s.mem
  if r = false then execBad L (some (pt, sz)) none { s with mem := m }
  else do
    let (r, m, pt) ← pushStack L sz args.strs pt m
    if r = false then execBad L (some (pt, sz)) none { s with mem := m }
    else do
      let sp := stackPointer sz args.strs
      let m ← procFreepagetable L s.program.pagetable s.program.sz m
      .ok (Int32.ofNat args.strs.length,
        ⟨m, ⟨pt, sz, sp, entry, sp, programName path⟩, s.inodes⟩)

/-- `exec(path, argv)`.  `found` is what `namei(path)` returns, and `content` are
the bytes of that file. -/
def execFile (L : Layout) (s : Exec L) (path : List UInt8) (found : Option s.inodes.Found)
    (content : List UInt8) (args : Argv) : Except Panic (Int32 × Execution) :=
  let inodes := s.inodes.beginOp
  match found with
  | none => .ok (-1, ⟨s.mem, s.program, inodes.endOp⟩)
  | some ip => do
      let inodes ← (inodes.take ip.inum).ilock ip.inum
      match readElf content with
      | none => execBad L none (some ip.inum) ⟨s.mem, s.program, inodes⟩
      | some elf => do
          let (pt, m) ← procPagetable L s.tf s.mem
          match pt with
          | none => execBad L none (some ip.inum) ⟨m, s.program, inodes⟩
          | some pt => do
              let (r, sz, m, pt) ← loadSegments L elf.headers 0 pt m
              if r = false then
                execBad L (some (pt, sz)) (some ip.inum) ⟨m, s.program, inodes⟩
              else do
                let inodes ← inodes.iunlockput ip.inum
                execStack L path elf.entry args pt sz ⟨m, s.program, inodes.endOp⟩

/-! ## The arguments -/

variable {L : Layout} {m m' : Mem}

/-! ## What a call leaves -/

/-- Nothing has been taken or given back. -/
structure Restored (m m' : Mem) : Prop where
  refcnt : ∀ f, m'.refcnt f = m.refcnt f
  free : ∀ f, f ∈ m'.freelist ↔ f ∈ m.freelist

theorem Restored.of_shift (h : Shift L m m' 0 0) (hok : Ok L m) : Restored m m' := by
  have hcount : ∀ f, m'.refcnt f = m.refcnt f := h.balance
  refine ⟨hcount, ?_⟩
  intro f
  rw [(h.ok hok).free_iff, hok.free_iff, hcount]

/-- Everything is as in `s`. -/
structure Unchanged (s : Exec L) (t : Execution) : Prop where
  program : t.program = s.program
  memory : Restored s.mem t.mem
  inodes : t.inodes = s.inodes

/-- What `bad` finds of the new image. -/
def Unfinished (L : Layout) (m₀ m : Mem) : Option (PageTable × Nat) → Prop
  | none => Shift L m₀ m 0 0
  | some (pt, sz) => Building L m₀ m pt sz

/-- `bad` undoes what has been done. -/
theorem execBad_spec (s : Exec L) (pagetable : Option (PageTable × Nat)) (ip : Option Nat)
    {m : Mem} {inodes : Inodes} (hpt : Unfinished L s.mem m pagetable)
    (hip : returnFile inodes ip = .ok s.inodes) :
    ∃ t, execBad L pagetable ip ⟨m, s.program, inodes⟩ = .ok (-1, t) ∧ Unchanged s t ∧
      (m.oom = true → t.mem.oom = true) := by
  have hfree : ∃ m', freeUnfinished L m pagetable = .ok m' ∧ Restored s.mem m' ∧
      (m.oom = true → m'.oom = true) := by
    cases pagetable with
    | none => exact ⟨m, rfl, .of_shift hpt s.held.ok, id⟩
    | some q =>
      obtain ⟨pt, sz⟩ := q
      have hb : Building L s.mem m pt sz := hpt
      obtain ⟨m', hrun, hs, _⟩ :=
        procFreepagetable_spec hb.held.ok hb.held.bound hb.held.image hb.held.covered
      exact ⟨m', hrun, .of_shift (hb.shift.trans hs) s.held.ok, hs.oom⟩
  obtain ⟨m', hrun, hm, hoom⟩ := hfree
  refine ⟨⟨m', s.program, s.inodes⟩, ?_, ⟨rfl, hm, rfl⟩, hoom⟩
  rw [execBad]
  dsimp only
  rw [hrun, hip]
  rfl

/-- A number of arguments is not `-1`. -/
theorem argc_ne {n : Nat} (h : n < MAXARG) : Int32.ofNat n ≠ -1 := by
  unfold MAXARG at h
  intro he
  have : (Int32.ofNat n).toInt = (-1 : Int32).toInt := by rw [he]
  rw [Int32.toInt_ofNat_of_lt (by omega)] at this
  have hneg : (-1 : Int32).toInt = -1 := by decide
  omega

/-- The arguments have been pushed to a stack of the new image, with the result
`r`. -/
def Pushes (s : Exec L) (args : Argv) (sz : Nat) (r : Bool) (m : Mem) (pt : PageTable) : Prop :=
  ∃ m' pt', Building L s.mem m' pt' sz ∧ StackPages pt' sz ∧
    pushStack L sz args.strs pt' m' = .ok (r, m, pt)

/-- How the second half of `exec` ends. -/
inductive StackOutcome (s : Exec L) (args : Argv) : Int32 → Execution → Prop
  | bad {t : Execution} (same : Unchanged s t)
      (why : t.mem.oom = true ∨ ∃ sz m pt, Pushes s args sz false m pt ∧
        (m.oom = true → t.mem.oom = true)) : StackOutcome s args (-1) t
  | done {sz : Nat} {m m' : Mem} {pt : PageTable} {epc : Nat} {name : List UInt8}
      (push : Pushes s args sz true m pt)
      (free : procFreepagetable L s.program.pagetable s.program.sz m = .ok m') :
      StackOutcome s args (Int32.ofNat args.strs.length) ⟨m', ⟨pt, sz, stackPointer sz args.strs,
        epc, stackPointer sz args.strs, name⟩, s.inodes⟩

/-- The second half of `exec`. -/
theorem execStack_spec (s : Exec L) (path : List UInt8) (entry : Nat) (args : Argv)
    {pt : PageTable} {sz : Nat} (h : Building L s.mem m pt sz) (hu : AllUser pt) :
    ∃ r t, execStack L path entry args pt sz ⟨m, s.program, s.inodes⟩ = .ok (r, t) ∧
      StackOutcome s args r t := by
  obtain ⟨r1, sz1, m1, pt1, hrun1, h1, hfail, hpages⟩ := userStack_spec h hu
  rw [execStack, hrun1]
  show ∃ r t, (if r1 = false then _ else _) = _ ∧ _
  cases r1 with
  | false =>
    obtain ⟨t, hrun, hsame, hoom⟩ := execBad_spec s (some (pt1, sz1)) none h1 rfl
    exact ⟨-1, t, hrun, .bad hsame (Or.inl (hoom (hfail rfl)))⟩
  | true =>
    obtain ⟨r2, m2, pt2, hrun2, h2⟩ := pushStack_spec args.strs h1
    rw [if_neg (by decide), hrun2]
    show ∃ r t, (if r2 = false then _ else _) = _ ∧ _
    cases r2 with
    | false =>
      obtain ⟨t, hrun, hsame, hoom⟩ := execBad_spec s (some (pt2, sz1)) none h2 rfl
      exact ⟨-1, t, hrun, .bad hsame
        (Or.inr ⟨sz1, m2, pt2, ⟨m1, pt1, h1, hpages rfl, hrun2⟩, hoom⟩)⟩
    | true =>
      have hold := s.held.acquire h2.shift
      obtain ⟨m3, hrun3, _⟩ :=
        procFreepagetable_spec hold.ok hold.bound hold.image hold.covered
      rw [if_neg (by decide), hrun3]
      exact ⟨_, _, rfl, .done ⟨m1, pt1, h1, hpages rfl, hrun2⟩ hrun3⟩

/-- The image of the file has been loaded. -/
def Accepted (L : Layout) (s : Exec L) (content : List UInt8) : Prop :=
  ∃ elf pt m₁ sz m₂ pt₂, readElf content = some elf ∧
    procPagetable L s.tf s.mem = .ok (some pt, m₁) ∧
    loadSegments L elf.headers 0 pt m₁ = .ok (true, sz, m₂, pt₂)

/-- `exec` returns.  It fails before the image is accepted, or it goes on with the
user stack. -/
theorem execFile_spec (s : Exec L) (path : List UInt8) (found : Option s.inodes.Found)
    (content : List UInt8) (args : Argv) :
    ∃ r t, execFile L s path found content args = .ok (r, t) ∧
      (r = -1 ∧ Unchanged s t ∧ (found.isSome → ¬ Accepted L s content) ∨
        StackOutcome s args r t) := by
  cases found with
  | none =>
    refine ⟨-1, ⟨s.mem, s.program, s.inodes.beginOp.endOp⟩, rfl, Or.inl ⟨rfl, ?_, nofun⟩⟩
    exact ⟨rfl, ⟨fun _ => rfl, fun _ => Iff.rfl⟩, rfl⟩
  | some ip =>
    obtain ⟨locked, hlock, put, hput, hend⟩ := s.inodes.ilock_iunlockput ip
    -- the exits at `bad` with the file still in hand
    have hbad : ∀ {m : Mem} (pagetable : Option (PageTable × Nat)),
        Unfinished L s.mem m pagetable → ¬ Accepted L s content →
        ∃ r t, execBad L pagetable (some ip.inum) ⟨m, s.program, locked⟩ = .ok (r, t) ∧
          (r = -1 ∧ Unchanged s t ∧ ((some ip).isSome → ¬ Accepted L s content) ∨
            StackOutcome s args r t) := by
      intro m pagetable hpt hnot
      obtain ⟨t, hrun, hsame, _⟩ := execBad_spec s pagetable (some ip.inum) hpt (by
        rw [returnFile, hput, ← hend]
        rfl)
      exact ⟨-1, t, hrun, Or.inl ⟨rfl, hsame, fun _ => hnot⟩⟩
    rw [execFile]
    dsimp only
    rw [hlock]
    cases helf : readElf content with
    | none =>
      refine hbad none (Shift.refl L s.mem 0) ?_
      rintro ⟨elf, _, _, _, _, _, hread, _⟩
      cases helf.symm.trans hread
    | some elf =>
      obtain ⟨r₁, m₁, hrun₁, hcase⟩ := procPagetable_spec s.tf s.held.ok
      show ∃ r t, (procPagetable L s.tf s.mem >>= _) = _ ∧ _
      rw [hrun₁]
      rcases hcase with ⟨rfl, hs, _, _⟩ | ⟨pt, rfl, hf, hs, _⟩
      · refine hbad none hs ?_
        rintro ⟨_, _, _, _, _, _, _, hpt, _⟩
        cases hrun₁.symm.trans hpt
      obtain ⟨hb, hu⟩ := hf.building s.held.ok hs
      obtain ⟨r₂, sz₂, m₂, pt₂, hrun₂, hu₂, h₂⟩ := loadSegments_spec elf.headers hb hu
      show ∃ r t, (loadSegments L elf.headers 0 pt m₁ >>= _) = _ ∧ _
      rw [hrun₂]
      show ∃ r t, (if r₂ = false then _ else _) = _ ∧ _
      cases r₂ with
      | false =>
        refine hbad (some (pt₂, sz₂)) h₂ ?_
        rintro ⟨_, _, _, _, _, _, hread, hpt, hload⟩
        cases helf.symm.trans hread
        cases hrun₁.symm.trans hpt
        cases hrun₂.symm.trans hload
      | true =>
        rw [if_neg (by decide), hput]
        show ∃ r t, execStack L path elf.entry args pt₂ sz₂ ⟨m₂, s.program, put.endOp⟩ = _ ∧ _
        rw [hend]
        obtain ⟨r, t, hrun, hout⟩ := execStack_spec s path elf.entry args h₂ hu₂
        exact ⟨r, t, hrun, Or.inr hout⟩

end Xv6.Memory
