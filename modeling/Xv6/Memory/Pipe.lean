import Xv6.Memory.Kalloc

/-!
# The file table and pipe buffers

The reference counts of `kernel/file.c`, and the allocation and the release
of pipe buffers in `kernel/pipe.c`.  A file that is not a pipe needs nothing
here but its reference count.  The data that goes through a pipe is not
modelled.

`Counts` is the invariant: the reference count of each file is the number of
references that somebody holds, and a file of a pipe keeps its end open.
-/

namespace Xv6.Memory

open Xv6.Lib Function

/-- `NFILE`. -/
def NFILE : Nat := 100

/-- `NOFILE`. -/
def NOFILE : Nat := 16

/-- `struct file`.  `pipe` has the buffer and `writable` of an `FD_PIPE`. -/
structure File where
  ref : Nat
  pipe : Option (Frame × Bool)

/-- `readopen` and `writeopen` of `struct pipe`. -/
structure Pipe where
  readopen : Bool
  writeopen : Bool

namespace Pipe

/-- The end that a file with this `writable` uses is open. -/
def isOpen (pi : Pipe) (writable : Bool) : Bool := if writable then pi.writeopen else pi.readopen

/-- Close that end. -/
def close (pi : Pipe) (writable : Bool) : Pipe :=
  if writable then { pi with writeopen := false } else { pi with readopen := false }

/-- Some end is open. -/
def used (pi : Pipe) : Bool := pi.readopen || pi.writeopen

theorem used_of_isOpen {pi : Pipe} {w : Bool} (h : pi.isOpen w = true) : pi.used = true := by
  cases w <;> simp_all [isOpen, used]

theorem isOpen_close_of_ne {pi : Pipe} {w w' : Bool} (h : w' ≠ w) :
    (pi.close w).isOpen w' = pi.isOpen w' := by
  cases w <;> cases w' <;> simp_all [isOpen, close]

end Pipe

/-- `ftable`, and the pipe in each page that holds one. -/
structure Files where
  file : Nat → File
  pipe : Frame → Pipe

/-- No open files. -/
def Files.empty : Files := ⟨fun _ => ⟨0, none⟩, fun _ => ⟨false, false⟩⟩

/-- Store a file structure. -/
def Files.setFile (fs : Files) (f : Nat) (file : File) : Files :=
  { fs with file := update fs.file f file }

/-- `filealloc`. -/
def filealloc (fs : Files) : Option Nat × Files :=
  match (List.range NFILE).find? (fun f => (fs.file f).ref = 0) with
  | none => (none, fs)
  | some f => (some f, fs.setFile f { fs.file f with ref := 1 })

/-- `filedup`. -/
def filedup (f : Nat) (fs : Files) : Except Panic Files :=
  if (fs.file f).ref < 1 then .error (.msg "filedup")
  else .ok (fs.setFile f { fs.file f with ref := (fs.file f).ref + 1 })

/-- `pipeclose`. -/
def pipeclose (L : Layout) (pi : Frame) (writable : Bool) (fs : Files) (m : Mem) :
    Except Panic (Files × Mem) :=
  let closed := (fs.pipe pi).close writable
  let fs := { fs with pipe := update fs.pipe pi closed }
  if closed.readopen = false ∧ closed.writeopen = false then do
    let m ← kfree L pi m
    .ok (fs, m)
  else .ok (fs, m)

/-- `fileclose`. -/
def fileclose (L : Layout) (f : Nat) (fs : Files) (m : Mem) : Except Panic (Files × Mem) :=
  if (fs.file f).ref < 1 then .error (.msg "fileclose")
  else if (fs.file f).ref - 1 > 0 then
    .ok (fs.setFile f { fs.file f with ref := (fs.file f).ref - 1 }, m)
  else
    match (fs.file f).pipe with
    | some (pi, writable) => pipeclose L pi writable (fs.setFile f ⟨0, none⟩) m
    | none => .ok (fs.setFile f ⟨0, none⟩, m)

/-- The end of `pipealloc`, with two files and a page. -/
def pipeinit (f0 f1 : Nat) (pi : Frame) (fs : Files) : Files :=
  let fs := { fs with pipe := update fs.pipe pi ⟨true, true⟩ }
  let fs := fs.setFile f0 { fs.file f0 with pipe := some (pi, false) }
  fs.setFile f1 { fs.file f1 with pipe := some (pi, true) }

/-- `pipealloc`. -/
def pipealloc (L : Layout) (fs : Files) (m : Mem) :
    Except Panic (Option (Nat × Nat) × Files × Mem) :=
  match filealloc fs with
  | (none, fs) => .ok (none, fs, m)
  | (some f0, fs) =>
      match filealloc fs with
      | (none, fs) => do
          let (fs, m) ← fileclose L f0 fs m
          .ok (none, fs, m)
      | (some f1, fs) => do
          let (pi, m) ← kalloc m
          match pi with
          | none => do
              let (fs, m) ← fileclose L f0 fs m
              let (fs, m) ← fileclose L f1 fs m
              .ok (none, fs, m)
          | some pi => .ok (some (f0, f1), pipeinit f0 f1 pi fs, m)

/-! ## The invariant -/

/-- The references that pipes hold on their buffers. -/
def pipes (fs : Files) : Frame → Nat := fun pi => if (fs.pipe pi).used then 1 else 0

/-- The file table is in order, and `refs` are the references that somebody
holds. -/
structure Counts (fs : Files) (refs : Nat → Nat) : Prop where
  count : ∀ f, (fs.file f).ref = refs f
  closed : ∀ f, (fs.file f).ref = 0 → (fs.file f).pipe = none
  opened : ∀ f pi w, (fs.file f).pipe = some (pi, w) → (fs.pipe pi).isOpen w = true
  unique : ∀ f f' pi w, (fs.file f).pipe = some (pi, w) → (fs.file f').pipe = some (pi, w) →
    f = f'

variable {L : Layout} {m : Mem} {fs : Files} {refs : Nat → Nat} {f : Nat}

theorem counts_empty : Counts Files.empty 0 := by
  refine ⟨fun _ => rfl, fun _ _ => rfl, ?_, ?_⟩
  · intro f pi w h
    cases h
  · intro f f' pi w h
    cases h

theorem pipes_empty : pipes Files.empty = 0 := rfl

/-- Another reference count for a file that stays open. -/
theorem Counts.setRef (h : Counts fs refs) {k : Nat} {refs' : Nat → Nat}
    (hopen : k = 0 → (fs.file f).ref = 0) (hself : refs' f = k)
    (hother : ∀ g, g ≠ f → refs' g = refs g) :
    Counts (fs.setFile f { fs.file f with ref := k }) refs' := by
  have hpipe : ∀ g, ((fs.setFile f { fs.file f with ref := k }).file g).pipe =
      (fs.file g).pipe := by
    intro g
    by_cases hg : g = f
    · simp [Files.setFile, hg]
    · simp [Files.setFile, hg]
  refine ⟨?_, ?_, ?_, ?_⟩
  · intro g
    by_cases hg : g = f
    · simp [Files.setFile, hg, hself]
    · simp [Files.setFile, hg, hother g hg, h.count g]
  · intro g hg
    rw [hpipe]
    refine h.closed g ?_
    by_cases hgf : g = f
    · subst hgf
      exact hopen (by simpa [Files.setFile] using hg)
    · simpa [Files.setFile, hgf] using hg
  · intro g pi w hg
    rw [hpipe] at hg
    exact h.opened g pi w hg
  · intro g g' pi w hg hg'
    rw [hpipe] at hg hg'
    exact h.unique g g' pi w hg hg'

/-- The last reference to a file goes away. -/
theorem Counts.release (h : Counts fs (refs + one f)) (hzero : refs f = 0) :
    Counts (fs.setFile f ⟨0, none⟩) refs := by
  have hsome : ∀ g p, ((fs.setFile f ⟨0, none⟩).file g).pipe = some p →
      (fs.file g).pipe = some p := by
    intro g p hg
    by_cases hgf : g = f
    · simp [Files.setFile, hgf] at hg
    · simpa [Files.setFile, hgf] using hg
  refine ⟨?_, ?_, ?_, ?_⟩
  · intro g
    by_cases hgf : g = f
    · simp [Files.setFile, hgf, hzero]
    · have := h.count g
      rw [Pi.add_apply, one_of_ne hgf] at this
      simpa [Files.setFile, hgf] using this
  · intro g hg
    by_cases hgf : g = f
    · simp [Files.setFile, hgf]
    · simp only [Files.setFile, update_of_ne hgf] at hg ⊢
      exact h.closed g hg
  · intro g pi w hg
    exact h.opened g pi w (hsome g _ hg)
  · intro g g' pi w hg hg'
    exact h.unique g g' pi w (hsome g _ hg) (hsome g' _ hg')

/-- An end that no file uses is closed. -/
theorem Counts.closeEnd (h : Counts fs refs) {pi : Frame} {w : Bool}
    (hnone : ∀ g, (fs.file g).pipe ≠ some (pi, w)) :
    Counts { fs with pipe := update fs.pipe pi ((fs.pipe pi).close w) } refs := by
  refine ⟨h.count, h.closed, ?_, h.unique⟩
  intro g pi' w' hg
  have hopen := h.opened g pi' w' hg
  show (update fs.pipe pi ((fs.pipe pi).close w) pi').isOpen w' = true
  by_cases hpi : pi' = pi
  · subst hpi
    have hw : w' ≠ w := fun hw => hnone g (hw ▸ hg)
    rw [update_self, Pipe.isOpen_close_of_ne hw]
    exact hopen
  · rw [update_of_ne hpi]
    exact hopen

/-! ## The functions keep it -/

theorem filealloc_spec (h : Counts fs refs) :
    filealloc fs = (none, fs) ∨
      ∃ f fs', filealloc fs = (some f, fs') ∧ f < NFILE ∧ Counts fs' (refs + one f) ∧
        fs'.pipe = fs.pipe ∧ refs f = 0 := by
  unfold filealloc
  cases hfind : (List.range NFILE).find? (fun f => (fs.file f).ref = 0) with
  | none => exact Or.inl rfl
  | some f =>
    have hzero : (fs.file f).ref = 0 := by simpa using List.find?_some hfind
    have hlt : f < NFILE := List.mem_range.mp (List.mem_of_find?_eq_some hfind)
    have hrefs : refs f = 0 := (h.count f).symm.trans hzero
    refine Or.inr ⟨f, _, rfl, hlt, h.setRef (by simp) ?_ ?_, rfl, hrefs⟩
    · simp [hrefs]
    · intro g hg
      simp [one_of_ne hg]

theorem filedup_spec (h : Counts fs refs) (hf : 1 ≤ refs f) :
    ∃ fs', filedup f fs = .ok fs' ∧ Counts fs' (refs + one f) ∧ fs'.pipe = fs.pipe := by
  have hcount := h.count f
  unfold filedup
  rw [if_neg (by omega)]
  refine ⟨_, rfl, h.setRef (by simp) ?_ ?_, rfl⟩
  · simp [hcount]
  · intro g hg
    simp [one_of_ne hg]

/-- Closing an end releases the buffer exactly when the other end is closed
too. -/
theorem pipeclose_spec (hok : Ok L m) (h : Counts fs refs) {pi : Frame} {w : Bool}
    (hnone : ∀ g, (fs.file g).pipe ≠ some (pi, w)) (hopen : (fs.pipe pi).isOpen w = true)
    (hcov : ∀ g, pipes fs g ≤ m.refcnt g) :
    ∃ fs' m', pipeclose L pi w fs m = .ok (fs', m') ∧ Counts fs' refs ∧
      Shift L m m' (pipes fs) (pipes fs') := by
  have hused := Pipe.used_of_isOpen hopen
  have hother : ∀ g, g ≠ pi → pipes { fs with
      pipe := update fs.pipe pi ((fs.pipe pi).close w) } g = pipes fs g := by
    intro g hg
    simp [pipes, hg]
  have hself : pipes fs pi = 1 := if_pos hused
  unfold pipeclose
  by_cases hlast : ((fs.pipe pi).close w).readopen = false ∧ ((fs.pipe pi).close w).writeopen = false
  · have hpos : 1 ≤ m.refcnt pi := by
      have := hcov pi
      omega
    obtain ⟨m', hrun, hs, _, _⟩ := kfree_spec hok hpos
    refine ⟨_, m', ?_, h.closeEnd hnone, ?_⟩
    · rw [if_pos hlast, hrun]
      rfl
    · have hclosed : pipes { fs with
          pipe := update fs.pipe pi ((fs.pipe pi).close w) } pi = 0 := by
        simp [pipes, Pipe.used, hlast]
      refine (hs.add (fun g => if g = pi then 0 else pipes fs g)).congr ?_ ?_
      · intro g
        by_cases hg : g = pi
        · simp [hg, hself]
        · simp [hg, one_of_ne hg]
      · intro g
        by_cases hg : g = pi
        · simp [hg, hclosed]
        · simp [hg, hother g hg]
  · refine ⟨_, m, if_neg hlast, h.closeEnd hnone, ?_⟩
    refine (Shift.refl L m (pipes fs)).congr (fun _ => rfl) ?_
    intro g
    by_cases hg : g = pi
    · rw [hg, hself]
      have hstill : ((fs.pipe pi).close w).used = true := by
        by_contra hno
        simp [Pipe.used] at hno
        exact hlast hno
      simp [pipes, hstill]
    · exact hother g hg

theorem fileclose_spec (hok : Ok L m) (h : Counts fs (refs + one f))
    (hcov : ∀ g, pipes fs g ≤ m.refcnt g) :
    ∃ fs' m', fileclose L f fs m = .ok (fs', m') ∧ Counts fs' refs ∧
      Shift L m m' (pipes fs) (pipes fs') := by
  have hcount := h.count f
  rw [Pi.add_apply, one_self] at hcount
  unfold fileclose
  rw [if_neg (by omega)]
  by_cases hmore : (fs.file f).ref - 1 > 0
  · refine ⟨_, m, if_pos hmore, h.setRef (by omega) (by omega) ?_, Shift.refl L m _⟩
    intro g hg
    simp [one_of_ne hg]
  · rw [if_neg hmore]
    have hrel := h.release (by omega)
    cases hpipe : (fs.file f).pipe with
    | none => exact ⟨_, m, rfl, hrel, Shift.refl L m _⟩
    | some p =>
      obtain ⟨pi, w⟩ := p
      have hnone : ∀ g, ((fs.setFile f ⟨0, none⟩).file g).pipe ≠ some (pi, w) := by
        intro g hg
        by_cases hgf : g = f
        · simp [Files.setFile, hgf] at hg
        · simp only [Files.setFile, update_of_ne hgf] at hg
          exact hgf (h.unique g f pi w hg hpipe)
      exact pipeclose_spec hok hrel hnone (h.opened f pi w hpipe) hcov

/-- Two new files on a new page. -/
theorem pipeinit_spec (f0 f1 : Nat) (pi : Frame) (h : Counts fs refs) (h0 : 1 ≤ refs f0)
    (h1 : 1 ≤ refs f1) (hne : f0 ≠ f1) (hfree : pipes fs pi = 0) :
    Counts (pipeinit f0 f1 pi fs) refs ∧ pipes (pipeinit f0 f1 pi fs) = pipes fs + one pi := by
  have hunused : (fs.pipe pi).used = false := by
    by_contra hno
    rw [pipes, if_pos (by simpa using hno)] at hfree
    omega
  -- no file is on the page yet
  have hfresh : ∀ g w, (fs.file g).pipe ≠ some (pi, w) := by
    intro g w hg
    have := Pipe.used_of_isOpen (h.opened g pi w hg)
    rw [hunused] at this
    cases this
  have hpipe : (pipeinit f0 f1 pi fs).pipe = update fs.pipe pi ⟨true, true⟩ := rfl
  have hfile : ∀ g, ((pipeinit f0 f1 pi fs).file g).pipe =
      if g = f1 then some (pi, true) else if g = f0 then some (pi, false)
      else (fs.file g).pipe := by
    intro g
    by_cases hg1 : g = f1
    · simp [pipeinit, Files.setFile, hg1]
    · by_cases hg0 : g = f0
      · subst hg0
        simp [pipeinit, Files.setFile, hne]
      · simp [pipeinit, Files.setFile, hg0, hg1]
  have href : ∀ g, ((pipeinit f0 f1 pi fs).file g).ref = (fs.file g).ref := by
    intro g
    by_cases hg1 : g = f1
    · subst hg1
      simp [pipeinit, Files.setFile, hne.symm]
    · by_cases hg0 : g = f0
      · subst hg0
        simp [pipeinit, Files.setFile, hne]
      · simp [pipeinit, Files.setFile, hg0, hg1]
  refine ⟨⟨?_, ?_, ?_, ?_⟩, ?_⟩
  · intro g
    rw [href]
    exact h.count g
  · intro g hg
    rw [href, h.count] at hg
    rw [hfile, if_neg (fun hc => by rw [hc] at hg; omega),
      if_neg (fun hc => by rw [hc] at hg; omega)]
    exact h.closed g ((h.count g).trans hg)
  · intro g pi' w hg
    rw [hfile] at hg
    rw [hpipe]
    split at hg
    · cases hg
      simp [Pipe.isOpen]
    · split at hg
      · cases hg
        simp [Pipe.isOpen]
      · have hpi : pi' ≠ pi := fun hc => hfresh g w (hc ▸ hg)
        rw [update_of_ne hpi]
        exact h.opened g pi' w hg
  · intro g g' pi' w hg hg'
    rw [hfile] at hg hg'
    have := hfresh g
    have := hfresh g'
    have := h.unique g g' pi' w
    grind
  · funext g
    rw [Pi.add_apply]
    by_cases hg : g = pi
    · subst hg
      rw [hfree, one_self]
      simp [pipes, hpipe, Pipe.used]
    · rw [one_of_ne hg]
      simp [pipes, hpipe, hg]

theorem pipealloc_spec (hok : Ok L m) (h : Counts fs refs)
    (hcov : ∀ g, pipes fs g ≤ m.refcnt g) :
    ∃ r fs' m', pipealloc L fs m = .ok (r, fs', m') ∧ Shift L m m' (pipes fs) (pipes fs') ∧
      ((r = none ∧ Counts fs' refs) ∨
        ∃ f0 f1, r = some (f0, f1) ∧ f0 < NFILE ∧ f1 < NFILE ∧
          Counts fs' (refs + one f0 + one f1)) := by
  unfold pipealloc
  rcases filealloc_spec h with h₀ | ⟨f0, fs1, h₀, hlt0, hc1, hp1, _⟩
  · rw [h₀]
    exact ⟨none, fs, m, rfl, Shift.refl L m _, Or.inl ⟨rfl, h⟩⟩
  have hpipes1 : pipes fs1 = pipes fs := by
    unfold pipes
    rw [hp1]
  rw [h₀]
  dsimp only
  rcases filealloc_spec hc1 with h₁ | ⟨f1, fs2, h₁, hlt1, hc2, hp2, hzero1⟩
  · rw [h₁]
    obtain ⟨fs', m', hrun, hc, hs⟩ := fileclose_spec hok hc1 (by rw [hpipes1]; exact hcov)
    rw [hpipes1] at hs
    refine ⟨none, fs', m', ?_, hs, Or.inl ⟨rfl, hc⟩⟩
    dsimp only
    rw [hrun]
    rfl
  have hpipes2 : pipes fs2 = pipes fs := by
    rw [← hpipes1]
    unfold pipes
    rw [hp2]
  rw [h₁]
  dsimp only
  cases hfree : m.freelist with
  | nil =>
    have hc2' : Counts fs2 (refs + one f1 + one f0) := by
      rw [add_right_comm]
      exact hc2
    have hs0 := shift_oom L m (pipes fs)
    obtain ⟨fs3, m3, hrun3, hc3, hs3⟩ := fileclose_spec (hs0.ok hok) hc2'
      (by rw [hpipes2]; exact hcov)
    rw [hpipes2] at hs3
    have hs03 := hs0.trans hs3
    obtain ⟨fs4, m4, hrun4, hc4, hs4⟩ := fileclose_spec (hs03.ok hok) hc3 (fun g => by
      have h₁ := hs03.balance g
      have h2 := hcov g
      omega)
    refine ⟨none, fs4, m4, ?_, hs03.trans hs4, Or.inl ⟨rfl, hc4⟩⟩
    rw [kalloc_none hfree]
    show (fileclose L f0 fs2 _ >>= _) = _
    rw [hrun3]
    show (fileclose L f1 fs3 m3 >>= _) = _
    rw [hrun4]
    rfl
  | cons pi rest =>
    obtain ⟨m', hrun, ha⟩ := kalloc_some hok hfree
    have hunused : pipes fs2 pi = 0 := by
      have := hcov pi
      rw [ha.unused] at this
      rw [hpipes2]
      omega
    have hne : f0 ≠ f1 := by
      intro heq
      rw [Pi.add_apply, heq, one_self] at hzero1
      omega
    obtain ⟨hc, hp⟩ := pipeinit_spec f0 f1 pi hc2
      (by simp only [Pi.add_apply, one_self]; omega) (by simp) hne hunused
    refine ⟨some (f0, f1), pipeinit f0 f1 pi fs2, m', ?_, ?_,
      Or.inr ⟨f0, f1, rfl, hlt0, hlt1, hc⟩⟩
    · rw [hrun]
      rfl
    · rw [hp, hpipes2]
      refine (ha.shift.add (pipes fs)).congr ?_ ?_
      · intro g
        simp
      · intro g
        simp [Nat.add_comm]

end Xv6.Memory
