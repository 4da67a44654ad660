import Xv6.FileSystem.Files

/-!
# Writing from user memory

`writei` with a source in user memory, where any page can be missing.
`copyin` copies page by page into the buffer of the block and returns -1 at the
first page that is not mapped.  What it has copied until then stays in the
buffer, and `writei` does not count it.

`writei_reports_iff` says when the file is nevertheless as the result says.
-/

namespace Xv6.FileSystem

open Xv6.Lib Xv6.FileSystem.Disk

/-- `PGSIZE`. -/
def PGSIZE : Nat := 4096

/-- `MAXVA`. -/
def MAXVA : Nat := 2 ^ 38

/-- The memory of a process.  A page is mapped if `walkaddr` finds it. -/
structure UserMem where
  mapped : Nat → Bool
  byte : Nat → UInt8
  bounded : ∀ v, MAXVA ≤ v * PGSIZE → mapped v = false

/-- `copyin`: how many of the `len` bytes at `srcva` it copies.  It returns -1 if
these are less than `len`.  Every round copies a byte, so `len` bounds the
rounds. -/
def UserMem.copyin (u : UserMem) : Nat → Nat → Nat → Nat
  | 0, _, _ => 0
  | rounds + 1, srcva, len =>
      if 0 < len then
        let va0 := srcva - srcva % PGSIZE
        if u.mapped (va0 / PGSIZE) then
          let n := min (PGSIZE - (srcva - va0)) len
          n + u.copyin rounds (va0 + PGSIZE) (len - n)
        else 0
      else 0

/-- Of the `len` bytes at `srcva` the first `r` are on mapped pages. -/
structure UserMem.Copies (u : UserMem) (srcva len r : Nat) : Prop where
  le : r ≤ len
  mapped : ∀ k, k < r → u.mapped ((srcva + k) / PGSIZE) = true
  fault : r < len → u.mapped ((srcva + r) / PGSIZE) = false

theorem UserMem.copyin_copies (u : UserMem) :
    ∀ (rounds srcva len : Nat), len ≤ rounds → u.Copies srcva len (u.copyin rounds srcva len) := by
  intro rounds
  induction rounds with
  | zero =>
    intro srcva len hlen
    refine ⟨Nat.zero_le _, ?_, ?_⟩
    · intro k hk
      exact absurd hk (Nat.not_lt_zero k)
    · intro hlt
      rw [copyin] at hlt
      omega
  | succ rounds ih =>
    intro srcva len hlen
    rw [copyin]
    by_cases hpos : 0 < len
    · rw [if_pos hpos]
      dsimp only
      have hpage : (srcva - srcva % PGSIZE) / PGSIZE = srcva / PGSIZE := by
        unfold PGSIZE
        omega
      rw [hpage]
      by_cases hmapped : u.mapped (srcva / PGSIZE) = true
      · rw [if_pos hmapped]
        have hoff : srcva - (srcva - srcva % PGSIZE) = srcva % PGSIZE := by
          have := Nat.mod_le srcva PGSIZE
          omega
        rw [hoff]
        obtain ⟨n, hn⟩ : ∃ n, n = min (PGSIZE - srcva % PGSIZE) len := ⟨_, rfl⟩
        rw [← hn]
        have hmod : srcva % PGSIZE < PGSIZE := Nat.mod_lt _ (by decide)
        obtain ⟨hle, hrest, hfault⟩ := ih (srcva - srcva % PGSIZE + PGSIZE) (len - n) (by omega)
        generalize u.copyin rounds (srcva - srcva % PGSIZE + PGSIZE) (len - n) = r at hle hrest hfault ⊢
        -- the rest begins a page if there is any
        have hnext : n < len → srcva - srcva % PGSIZE + PGSIZE = srcva + n := by
          intro hlt
          have := Nat.mod_le srcva PGSIZE
          omega
        refine ⟨by omega, ?_, ?_⟩
        · intro k hk
          by_cases hkn : k < n
          · have hsame : (srcva + k) / PGSIZE = srcva / PGSIZE := by
              unfold PGSIZE at hn ⊢
              omega
            rw [hsame]
            exact hmapped
          · have := hrest (k - n) (by omega)
            rwa [hnext (by omega), show srcva + n + (k - n) = srcva + k by omega] at this
        · intro hlt
          have := hfault (by omega)
          rwa [hnext (by omega), Nat.add_assoc] at this
      · rw [if_neg hmapped]
        refine ⟨Nat.zero_le _, ?_, ?_⟩
        · intro k hk
          exact absurd hk (Nat.not_lt_zero k)
        · intro _
          simpa using hmapped
    · rw [if_neg hpos]
      refine ⟨Nat.zero_le _, ?_, ?_⟩
      · intro k hk
        exact absurd hk (Nat.not_lt_zero k)
      · intro hlt
        exact absurd hlt hpos

/-- The source of a write from user memory. -/
def Source.user (u : UserMem) (srcva : Nat) : Source where
  byte k := u.byte (srcva + k)
  arrives tot m := u.copyin m (srcva + tot) m
  arrives_le tot m := (u.copyin_copies m (srcva + tot) m (Nat.le_refl m)).le

/-! ## What the result says -/

/-- A locked inode in a transaction, on a file system that is intact. -/
structure Writable (sb : Superblock) where
  file : File
  intact : Intact sb file.view
  trans : file.trans = true
  valid : file.inum < sb.ninodes
  allocated : file.ip.type ≠ .free

/-- The first `w` bytes of `x` are written at `off`, and nothing else. -/
structure Reported (x : Buffer) (off w : Nat) (s s' : File) : Prop where
  data : ∀ k, k < w → s'.view.byte s.inum (off + k) = x k
  kept : ∀ p, p < s.ip.size → p < off ∨ off + w ≤ p →
    s'.view.byte s.inum p = s.view.byte s.inum p
  size : s'.ip.size = max s.ip.size (off + w)

/-- The file is as the result `r` says. -/
def AsReported (x : Buffer) (off : Nat) (r : Int) (s s' : File) : Prop :=
  (∀ w : Nat, r = w → Reported x off w s s') ∧ (r = -1 → s' = s)

/-- The byte `k` is the first of `n` bytes that cannot be read. -/
structure UserMem.Fault (u : UserMem) (srcva n k : Nat) : Prop where
  lt : k < n
  unmapped : u.mapped ((srcva + k) / PGSIZE) = false
  before : ∀ j, j < k → u.mapped ((srcva + j) / PGSIZE) = true

/-- If byte `k` is the first that cannot be read, the bytes of its block before it
are in the file already, as far as the file goes. -/
def Unharmed (u : UserMem) (srcva off n : Nat) (s : File) : Prop :=
  ∀ k, u.Fault srcva n k → ∀ j, k - (off + k) % BSIZE ≤ j → j < k → off + j < s.ip.size →
    u.byte (srcva + j) = s.view.byte s.inum (off + j)

/-! ## Where a write stops -/

section Stop

variable {sb : Superblock} {u : UserMem} {srcva off n w e : Nat} {s : Writable sb} {s' : File}

/-- The block of a byte of the file. -/
theorem Writable.covered (s : Writable sb) {p : Nat} (hp : p < s.file.ip.size) :
    p / BSIZE < MAXFILE ∧ s.file.view.fileAddr s.file.inum (p / BSIZE) ≠ 0 := by
  have hcover : p / BSIZE < blocks (s.file.view.dinode s.file.inum).size := by
    rw [dinode_view]
    exact div_lt_blocks hp
  exact ⟨lt_MAXFILE (s.intact.bounded _ s.valid) hcover, s.intact.whole _ _ s.valid hcover⟩

/-- Every byte that `writei` touches is on a mapped page. -/
theorem Written.mapped (h : Written sb (Source.user u srcva) s.file off n w e s') {k : Nat}
    (hk : k < e) : u.mapped ((srcva + k) / PGSIZE) = true := by
  refine h.arrived (fun k => u.mapped ((srcva + k) / PGSIZE) = true) ?_ k hk
  intro x m j hj
  have := (u.copyin_copies m (srcva + x) m (Nat.le_refl m)).mapped j hj
  rwa [Nat.add_assoc] at this

/-- A write touches what it counts and stops early at the end of the file only, or
it stops in the chunk of the fault. -/
theorem Written.stops (h : Written sb (Source.user u srcva) s.file off n w e s') :
    (e = w ∧ (w < n → s.file.ip.size ≤ off + w)) ∨
      (u.Fault srcva n e ∧ w = e - (off + e) % BSIZE) := by
  have hle := h.le
  rcases h.stop with ⟨heq, hfull⟩ | ⟨harr, hlt⟩
  · refine Or.inl ⟨heq, fun hw => ?_⟩
    by_contra hin
    obtain ⟨hmax, hne⟩ := s.covered (Nat.lt_of_not_le hin)
    have hkept := h.changes.fileAddr s.valid hmax hne
    exact hne (hkept.symm.trans (hfull hw).2)
  · have hcopies := u.copyin_copies (chunkSize (off + w) (n - w)) (srcva + w) _ le_rfl
    have harr' : u.copyin (chunkSize (off + w) (n - w)) (srcva + w)
        (chunkSize (off + w) (n - w)) = e - w := harr
    have hfault := hcopies.fault (by omega)
    rw [harr', show srcva + w + (e - w) = srcva + e by omega] at hfault
    unfold chunkSize at hlt
    refine Or.inr ⟨⟨by omega, hfault, fun j hj => h.mapped hj⟩, ?_⟩
    have hboundary := h.boundary
    simp only [BSIZE] at hlt hboundary ⊢
    omega

theorem UserMem.Fault.unique {k k' : Nat} (h : u.Fault srcva n k) (h' : u.Fault srcva n k') :
    k = k' := by
  rcases Nat.lt_trichotomy k k' with hlt | heq | hlt
  · have := h'.before k hlt
    rw [h.unmapped] at this
    cases this
  · exact heq
  · have := h.before k' hlt
    rw [h'.unmapped] at this
    cases this

/-- Outside of what it touches a write keeps the file. -/
theorem Written.kept (h : Written sb (Source.user u srcva) s.file off n w e s') {p : Nat}
    (hp : p < s.file.ip.size) (hout : p < off ∨ off + e ≤ p) :
    s'.view.byte s.file.inum p = s.file.view.byte s.file.inum p := by
  obtain ⟨hmax, hne⟩ := s.covered hp
  exact h.changes.byte _ p s.valid hmax hne (Or.inr hout)

/-- A write that touches only what it counts. -/
theorem Written.reported (h : Written sb (Source.user u srcva) s.file off n w w s') :
    Reported (Source.user u srcva).byte off w s.file s' :=
  ⟨h.data, fun _ hp hout => h.kept hp hout, h.size⟩

/-- Then there is nothing to harm. -/
theorem Written.unharmed (h : Written sb (Source.user u srcva) s.file off n w w s')
    (hstop : w < n → s.file.ip.size ≤ off + w) : Unharmed u srcva off n s.file := by
  intro k hk j hlo hhi hsize
  have hwk : w ≤ k := by
    by_contra hlt
    have := h.mapped (Nat.lt_of_not_le hlt)
    rw [hk.unmapped] at this
    cases this
  have hkn := hk.lt
  have hend := hstop (by omega)
  have hboundary := h.boundary
  simp only [BSIZE] at hlo hboundary
  omega

/-- A write that stops at a fault is as it says if the bytes that have arrived were
there before. -/
theorem Written.reported_iff (h : Written sb (Source.user u srcva) s.file off n w e s')
    (hfault : u.Fault srcva n e) (hw : w = e - (off + e) % BSIZE) :
    Reported (Source.user u srcva).byte off w s.file s' ↔ Unharmed u srcva off n s.file := by
  have hle := h.le
  constructor
  · intro hrep k hk j hlo hhi hsize
    obtain rfl := hk.unique hfault
    have hdata : s'.view.byte s.file.inum (off + j) = u.byte (srcva + j) := h.data j hhi
    rw [← hdata]
    exact hrep.kept _ hsize (by omega)
  · intro hun
    refine ⟨fun k hk => h.data k (by omega), ?_, h.size⟩
    intro p hp hout
    by_cases hin : p < off ∨ off + e ≤ p
    · exact h.kept hp hin
    · have hj : off + (p - off) = p := by omega
      have hdata := h.data (p - off) (by omega)
      have hold := hun e hfault (p - off) (by omega) (by omega) (by omega)
      rw [hj] at hdata hold
      exact hdata.trans hold

end Stop

variable {sb : Superblock}

/-- `writei` returns, and the file is as its result says exactly if the write is
refused for its length, or the first page fault, if there is one, does not harm the
file. -/
theorem writei_reports_iff (s : Writable sb) (u : UserMem) (srcva : Nat) (off n : UInt32) :
    ∃ r s', writei sb (Source.user u srcva) off n s.file = .ok (r, s') ∧
      (AsReported (Source.user u srcva).byte off.toNat r s.file s' ↔
        (off.toNat + n.toNat ≤ MAXFILE * BSIZE →
          Unharmed u srcva off.toNat n.toNat s.file)) := by
  have hwritei : Runs (fun _ => False) (writei sb (Source.user u srcva) off n) s.file _ :=
    writei_runs s.intact s.trans s.valid s.allocated
  obtain ⟨r, s', hrun, hpost⟩ := hwritei.returns
  refine ⟨r, s', hrun, ?_⟩
  split at hpost
  · rename_i haccept
    obtain ⟨w, e, rfl, h⟩ := hpost
    have hresult : AsReported (Source.user u srcva).byte off.toNat (w : Nat) s.file s' ↔
        Reported (Source.user u srcva).byte off.toNat w s.file s' := by
      constructor
      · intro hrep
        exact hrep.1 w rfl
      · intro hrep
        refine ⟨fun w' hw' => ?_, fun hneg => by omega⟩
        obtain rfl : w = w' := by omega
        exact hrep
    rw [hresult]
    rcases h.stops with ⟨rfl, hstop⟩ | ⟨hfault, hw⟩
    · exact iff_of_true h.reported (fun _ => h.unharmed hstop)
    · rw [h.reported_iff hfault hw]
      exact ⟨fun hun _ => hun, fun hun => hun haccept.2⟩
  · rename_i hrefuse
    obtain ⟨rfl, rfl⟩ := hpost
    refine iff_of_true ⟨fun w hw => by omega, fun _ => rfl⟩ ?_
    intro hfit k _ j _ _ hsize
    exact absurd ⟨by omega, hfit⟩ hrefuse

/-- A file of one byte, as a write of that byte leaves it. -/
def oneByte : File :=
  match writei Superblock.small (Source.kernel [5]) 0 1
      ⟨1, Disk.small.dinode 1, Disk.small, true⟩ with
  | .ok (_, s) => s
  | .error _ => ⟨1, Disk.small.dinode 1, Disk.small, true⟩

theorem oneByte_intact : Intact Superblock.small oneByte.view := by
  have hview : (File.mk 1 (Disk.small.dinode 1) Disk.small true).view = Disk.small := by
    unfold File.view Disk.put
    dsimp only
    rw [Function.update_eq_self]
  have hwritei : Runs (fun _ => False) (writei Superblock.small (Source.kernel [5]) 0 1)
      ⟨1, Disk.small.dinode 1, Disk.small, true⟩ _ :=
    writei_runs (by rw [hview]; exact small_intact) rfl (by decide) (by decide)
  have hrun : writei Superblock.small (Source.kernel [5]) 0 1
      ⟨1, Disk.small.dinode 1, Disk.small, true⟩ = .ok (1, oneByte) := rfl
  have hpost := hwritei.ok hrun
  rw [if_pos (by decide)] at hpost
  obtain ⟨_, _, _, h⟩ := hpost
  exact h.intact

/-- The same file, locked for a write. -/
def Writable.oneByte : Writable Superblock.small :=
  ⟨FileSystem.oneByte, oneByte_intact, rfl, by decide, by decide⟩

/-- User memory with one page, full of sevens. -/
def onePage : UserMem where
  mapped v := v == 0
  byte _ := 7
  bounded v hv := by
    have : v ≠ 0 := by
      rintro rfl
      exact absurd hv (by decide)
    simpa using this

/-- A write of two bytes, the second of them on a page that is not mapped.  It
returns 0, and it has changed the file. -/
theorem writei_half_chunk :
    ∃ s', writei Superblock.small (Source.user onePage 4095) 0 2 Writable.oneByte.file =
        .ok (0, s') ∧
      Writable.oneByte.file.view.contents 1 = [5] ∧ s'.view.contents 1 = [7] ∧
      ¬ AsReported (Source.user onePage 4095).byte 0 0 Writable.oneByte.file s' := by
  refine ⟨_, rfl, by decide, by decide, ?_⟩
  intro hrep
  have hkept := (hrep.1 0 rfl).kept 0 (by decide) (by decide)
  exact absurd hkept (by decide)

end Xv6.FileSystem
