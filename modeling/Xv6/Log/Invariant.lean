import Xv6.Log.Model

/-!
# The invariant of the redo log

The invariant has three parts.

* `Durable` speaks of the disk only, and holds in every state.  The home
  blocks, with the log blocks that the header lists laid over them, are the
  effect of the committed writes.  A crash keeps it because a crash keeps
  the disk, so it is the whole crash argument.
* `Volatile` speaks of the buffers while file-system calls can run.  The
  contents that `bread` gives are the effect of every logged write, and the
  blocks of the header are pinned until they are installed.
* `Progress` says how far `commit()` or the recovery has come.

`effect s d` is the effect of the committed writes on the first image, and
`view s d` adds the writes of the current group.
-/

namespace Xv6.Log

open State Function

/-! ## Writes and their effect -/

theorem applyWrites_append (ws ws' : List Write) (d : Nat → Block) :
    applyWrites (ws ++ ws') d = applyWrites ws' (applyWrites ws d) := by
  rw [applyWrites, List.foldl_append]
  rfl

theorem applyWrites_concat (ws : List Write) (w : Write) (d : Nat → Block) :
    applyWrites (ws ++ [w]) d = update (applyWrites ws d) w.blk w.data := by
  rw [applyWrites_append]
  rfl

variable {b : Nat} {lh : List Nat} {P : Nat → Prop} {s : State} {disk eff : Nat → Block}

/-- A block that no write names keeps its contents. -/
theorem applyWrites_of_not_mem {ws : List Write} (d : Nat → Block) (h : b ∉ ws.map Write.blk) :
    applyWrites ws d b = d b := by
  induction ws generalizing d with
  | nil => rfl
  | cons w ws ih =>
    rw [List.map_cons, List.mem_cons, not_or] at h
    have hstep : applyWrites (w :: ws) d = applyWrites ws (update d w.blk w.data) := rfl
    rw [hstep, ih _ h.2, update_of_ne h.1]

/-! ## The header block -/

theorem LOGSIZE_eq : LOGSIZE = 30 := rfl

/-- `read_head` reads what `write_head` wrote. -/
theorem readHeader_writeHeader (b : Block) (hlen : lh.length ≤ LOGSIZE)
    (hsmall : ∀ x ∈ lh, x < 2 ^ 32) : readHeader (writeHeader b lh) = lh := by
  rw [LOGSIZE_eq] at hlen
  have hzero : (writeHeader b lh 0).toNat = lh.length := by
    simp only [writeHeader, Fin.val_zero, if_true]
    rw [UInt32.toNat_ofNat', Nat.mod_eq_of_lt (by omega)]
  rw [readHeader, hzero]
  refine List.ext_getElem (by simp) ?_
  intro i _ hi'
  have hi256 : i + 1 < 256 := by omega
  rw [List.getElem_map, List.getElem_range, dif_pos hi256]
  simp only [writeHeader, Nat.add_sub_cancel]
  rw [if_neg (by omega), dif_pos hi', UInt32.toNat_ofNat',
    Nat.mod_eq_of_lt (hsmall _ (List.getElem_mem hi'))]

/-! ## Buffers -/

@[simp] theorem content_load (s : State) (b b' : Nat) : (s.load b).content b' = s.content b' := by
  by_cases h : b' = b
  · simp [content, load, h]
  · simp [content, load, h]

@[simp] theorem content_bwrite (s : State) (b b' : Nat) (d : Block) :
    (s.bwrite b d).content b' = if b' = b then d else s.content b' := by
  by_cases h : b' = b
  · simp [content, bwrite, h]
  · simp [content, bwrite, h]

@[simp] theorem disk_load (s : State) (b : Nat) : (s.load b).disk = s.disk := rfl

@[simp] theorem disk_bwrite (s : State) (b : Nat) (d : Block) :
    (s.bwrite b d).disk = update s.disk b d := rfl

/-- The cached blocks of `P` are as on the disk. -/
def Coherent (P : Nat → Prop) (s : State) : Prop := ∀ b, P b → s.content b = s.disk b

theorem Coherent.load (h : Coherent P s) (b : Nat) : Coherent P (s.load b) := by
  intro b' hb'
  rw [content_load, disk_load]
  exact h b' hb'

theorem Coherent.bwrite (h : Coherent P s) (b : Nat) (d : Block) : Coherent P (s.bwrite b d) := by
  intro b' hb'
  rw [content_bwrite, disk_bwrite]
  split
  · rename_i hbb
    rw [hbb, update_self]
  · rename_i hbb
    rw [update_of_ne hbb]
    exact h b' hb'

theorem Coherent.evict (h : Coherent P s) (b : Nat) :
    Coherent P { s with cache := update s.cache b none } := by
  intro b' hb'
  by_cases hbb : b' = b
  · simp [content, hbb]
  · simpa [content, update_of_ne hbb] using h b' hb'

/-- A block of the log region. -/
def Geometry.InLog (g : Geometry) (b : Nat) : Prop := g.start ≤ b ∧ b < g.start + g.size

theorem Geometry.inLog_start (g : Geometry) : g.InLog g.start := by
  have := g.size_pos
  exact ⟨Nat.le_refl _, by omega⟩

variable {g : Geometry}

/-- A block of the log region is not a home block. -/
theorem Geometry.Home.ne_log (h : g.Home b) {i : Nat} (hi : i < g.size) : b ≠ g.start + i := by
  have := h.2
  omega

theorem Geometry.Home.ne_inLog {b' : Nat} (h : g.Home b) (hb' : g.InLog b') : b' ≠ b := by
  have := h.2
  have := hb'.1
  have := hb'.2
  omega

theorem Geometry.Home.ne_start (h : g.Home b) : b ≠ g.start :=
  h.ne_log (i := 0) g.size_pos

/-! ## The durable part -/

/-- The effect of the committed writes. -/
def effect (s : State) (d : Nat → Block) : Nat → Block := applyWrites s.committed d

/-- The effect of all writes that are committed or in the current group. -/
def view (s : State) (d : Nat → Block) : Nat → Block :=
  applyWrites (s.committed ++ s.group) d

theorem view_of_not_mem (d : Nat → Block) (h : b ∉ s.group.map Write.blk) :
    view s d b = effect s d b := by
  rw [view, applyWrites_append, applyWrites_of_not_mem _ h]
  rfl

/-- The block numbers that the header on the disk lists. -/
def header (g : Geometry) (disk : Nat → Block) : List Nat := readHeader (disk g.start)

/-- A list of block numbers that fits the header and the log region. -/
structure Fits (g : Geometry) (lh : List Nat) : Prop where
  nodup : lh.Nodup
  home : ∀ b ∈ lh, g.Home b
  short : lh.length ≤ LOGSIZE
  inside : lh.length ≤ g.size - 1

theorem Fits.nil (g : Geometry) : Fits g [] :=
  ⟨List.nodup_nil, by simp, by simp, by simp⟩

/-- The log block of an entry lies in the log region. -/
theorem Fits.tail_lt (h : Fits g lh) {i : Nat} (hi : lh[i]? = some b) : i + 1 < g.size := by
  have hlen := (List.getElem?_eq_some_iff.mp hi).1
  have := h.inside
  omega

/-- The header that `write_head` stores is the list. -/
theorem Fits.header (h : Fits g lh) (b : Block) (disk : Nat → Block) :
    header g (update disk g.start (writeHeader b lh)) = lh := by
  rw [Log.header, update_self]
  exact readHeader_writeHeader b h.short (fun x hx => (h.home x hx).1)

/-- The disk alone determines the effect of the committed writes: a home
block that the header lists is in the log, and any other one is in place. -/
structure Durable (g : Geometry) (disk eff : Nat → Block) : Prop where
  fits : Fits g (header g disk)
  logged : ∀ i b, (header g disk)[i]? = some b → disk (g.start + i + 1) = eff b
  rest : ∀ b, g.Home b → b ∉ header g disk → disk b = eff b

/-- A write to a block that is neither the header nor a listed log block nor
an unlisted home block keeps `Durable`. -/
theorem Durable.write (h : Durable g disk eff) {d : Block} (hstart : b ≠ g.start)
    (hlog : ∀ i x, (header g disk)[i]? = some x → b = g.start + i + 1 → d = eff x)
    (hrest : g.Home b → b ∉ header g disk → d = eff b) : Durable g (update disk b d) eff := by
  have hh : header g (update disk b d) = header g disk := by
    rw [header, update_of_ne (Ne.symm hstart)]
    rfl
  refine ⟨hh ▸ h.fits, ?_, ?_⟩
  · intro i x hi
    rw [hh] at hi
    by_cases hb : g.start + i + 1 = b
    · rw [hb, update_self]
      exact hlog i x hi hb.symm
    · rw [update_of_ne hb]
      exact h.logged i x hi
  · intro x hx hxh
    rw [hh] at hxh
    by_cases hb : x = b
    · rw [hb, update_self]
      exact hrest (hb ▸ hx) (hb ▸ hxh)
    · rw [update_of_ne hb]
      exact h.rest x hx hxh

/-- The header write that commits: the log blocks hold the new contents of
the listed blocks, and the new effect differs from the old one only there. -/
theorem Durable.commit {eff' : Nat → Block} (h : Durable g disk eff) (hempty : header g disk = [])
    (hfits : Fits g lh) (b : Block)
    (hcopied : ∀ i x, lh[i]? = some x → disk (g.start + i + 1) = eff' x)
    (hsame : ∀ x, x ∉ lh → eff' x = eff x) :
    Durable g (update disk g.start (writeHeader b lh)) eff' := by
  have hh := hfits.header b disk
  refine ⟨by rw [hh]; exact hfits, ?_, ?_⟩
  · intro i x hi
    rw [hh] at hi
    rw [update_of_ne (by omega)]
    exact hcopied i x hi
  · intro x hx hxh
    rw [hh] at hxh
    rw [update_of_ne hx.ne_start, hsame x hxh]
    exact h.rest x hx (by rw [hempty]; simp)

/-- The header write that clears the log, once every listed block is
installed. -/
theorem Durable.clear (h : Durable g disk eff) (hinst : ∀ x ∈ header g disk, disk x = eff x)
    (b : Block) : Durable g (update disk g.start (writeHeader b [])) eff := by
  have hh := (Fits.nil g).header b disk
  refine ⟨by rw [hh]; exact Fits.nil g, ?_, ?_⟩
  · intro i x hi
    rw [hh] at hi
    simp at hi
  · intro x hx _
    rw [update_of_ne hx.ne_start]
    by_cases hxh : x ∈ header g disk
    · exact hinst x hxh
    · exact h.rest x hx hxh

/-! ## The volatile part -/

/-- The blocks that the log still pins: the whole header until the commit
installs them, one by one. -/
def pinned (s : State) : List Nat :=
  match s.phase with
  | .install tail => s.lh.drop tail
  | .clear => []
  | _ => s.lh

/-- No operation has an unlogged change of block `b`. -/
def Clean (s : State) (b : Nat) : Prop := ∀ o ∈ s.ops, b ∉ o.dirty

/-- The buffers while file-system calls can run. -/
structure Volatile (g : Geometry) (d : Nat → Block) (s : State) : Prop where
  view : ∀ b, g.Home b → Clean s b → s.content b = view s d b
  held : ∀ o ∈ s.ops, ∀ b ∈ o.dirty, s.holder b = some o.pid
  count : s.outstanding = s.ops.length
  pids : (s.ops.map Op.pid).Nodup
  pins : ∀ b, s.pins b = if b ∈ pinned s then 1 else 0

/-! ## The places in `commit()` and in the recovery -/

/-- The header in memory lists the blocks of the current group. -/
def Listed (s : State) : Prop := ∀ b, b ∈ s.lh ↔ b ∈ s.group.map Write.blk

/-- `write_log` has copied the first `tail` blocks of the header. -/
def Copied (g : Geometry) (d : Nat → Block) (s : State) (tail : Nat) : Prop :=
  ∀ i b, i < tail → s.lh[i]? = some b → s.disk (g.start + i + 1) = view s d b

/-- `install_trans` has installed the first `tail` blocks of the header. -/
def Installed (d : Nat → Block) (s : State) (tail : Nat) : Prop :=
  ∀ i b, i < tail → s.lh[i]? = some b → s.disk b = effect s d b

/-- No file-system call has run since the boot. -/
structure Booting (s : State) : Prop where
  ops : s.ops = []
  group : s.group = []
  outstanding : s.outstanding = 0
  committing : s.committing = false
  pins : ∀ b, s.pins b = 0
  cached : Coherent (fun _ => True) s

/-- What holds at each place of the kernel. -/
def Progress (g : Geometry) (d : Nat → Block) (s : State) : Prop :=
  match s.phase with
  | .running => s.committing = false ∧ Listed s ∧ header g s.disk = []
  | .writeLog tail =>
      s.committing = true ∧ s.ops = [] ∧ Listed s ∧ header g s.disk = [] ∧ Copied g d s tail
  | .writeHead =>
      s.committing = true ∧ s.ops = [] ∧ Listed s ∧ header g s.disk = [] ∧
        Copied g d s s.lh.length
  | .install tail =>
      s.committing = true ∧ s.ops = [] ∧ s.group = [] ∧ header g s.disk = s.lh ∧
        Installed d s tail
  | .clear =>
      s.committing = true ∧ s.ops = [] ∧ s.group = [] ∧ header g s.disk = s.lh ∧
        Installed d s s.lh.length
  | .ending =>
      s.committing = true ∧ s.ops = [] ∧ s.group = [] ∧ s.lh = [] ∧ header g s.disk = []
  | .readHead => Booting s ∧ s.lh = []
  | .recInstall tail => Booting s ∧ header g s.disk = s.lh ∧ Installed d s tail
  | .recClear => Booting s ∧ header g s.disk = s.lh ∧ Installed d s s.lh.length
  | .panicked _ => True

/-- The invariant, for the first image `d`. -/
structure Inv (g : Geometry) (d : Nat → Block) (s : State) : Prop where
  durable : Durable g s.disk (effect s d)
  fits : Fits g s.lh
  region : Coherent g.InLog s
  volatile : s.phase.up = true → Volatile g d s
  progress : Progress g d s

end Xv6.Log
