import Xv6.Memory.Steps

/-!
# The state after boot is sound

`main` maps the kernel, gives each slot a kernel stack, and creates the
first process.  `boot_sound` is for every boot that returns and in which no
allocation fails.  The last condition is needed for `uvmfirst` alone, which
does not test the result of `mappages`; all other failures panic.
-/

namespace Xv6.Memory

open Xv6.Lib Function

variable {L : Layout} {m0 m m' : Mem} {pt pt' : PageTable}

/-! ## The kernel page table -/

/-- `mappages` returns only for a page that is not mapped. -/
theorem mappages_inv {v : Nat} {e : Pte} {q : Bool × Mem × PageTable}
    (h : mappages pt v e m = .ok q) : v < MAXVPN ∧ pt.leaf v = none := by
  have hlt : v < MAXVPN := by
    by_contra hge
    rw [mappages, walkAlloc, if_pos (by omega)] at h
    cases h
  refine ⟨hlt, ?_⟩
  by_contra hsome
  have hleaf : (pt.leaf v).isSome := Option.isSome_iff_ne_none.mpr hsome
  have hlow := pt.leaf_low v hleaf
  have hmid := pt.low_mid _ _ hlow
  have hwalk : walkAlloc pt v m = .ok (true, m, pt) := by
    rw [walkAlloc, if_neg (by omega), walkMid, if_pos hmid]
    show walkLow pt v m = _
    rw [walkLow, if_pos hlow]
  rw [mappages, hwalk] at h
  change (if (pt.leaf v).isSome then _ else _) = _ at h
  rw [if_pos hleaf] at h
  cases h

/-- A kernel page table that is being built holds its pages and the stacks. -/
theorem kvmmap_shift {flags : Flags} {a : Frame → Nat} :
    ∀ (n v : Nat) (pa : Frame) {pt : PageTable} {m : Mem}, Ok L m →
      kvmmap flags n v pa pt m = .ok (m', pt') → Shift L m0 m 0 (tables pt + a) →
      Shift L m0 m' 0 (tables pt' + a) := by
  intro n
  induction n with
  | zero =>
    intro v pa pt m _ h hs
    cases h
    exact hs
  | succ n ih =>
    intro v pa pt m hok h hs
    rw [kvmmap] at h
    cases hmap : mappages pt v (.new pa flags) m with
    | error e =>
      rw [hmap] at h
      cases h
    | ok q =>
      obtain ⟨hv, hnone⟩ := mappages_inv hmap
      obtain ⟨r, m1, pt1, hrun, hm⟩ := mappages_spec hok pt hv hnone (.new pa flags)
      obtain ⟨d, hs1, ht⟩ := hm.shift
      rw [hrun] at h
      change (if r then _ else _) = _ at h
      cases r with
      | false => cases h
      | true =>
        refine ih (v + 1) (pa + 1) (hs1.ok hok) h ?_
        refine (hs.acquire hs1).congr (fun _ => rfl) ?_
        intro f
        simp only [ht, Pi.add_apply]
        omega

theorem kvmmapAll_shift {a : Frame → Nat} :
    ∀ (regions : List Region) {pt : PageTable} {m : Mem}, Ok L m0 →
      kvmmapAll regions pt m = .ok (m', pt') → Shift L m0 m 0 (tables pt + a) →
      Shift L m0 m' 0 (tables pt' + a) := by
  intro regions
  induction regions with
  | nil =>
    intro pt m _ h hs
    cases h
    exact hs
  | cons g rest ih =>
    intro pt m hok h hs
    rw [kvmmapAll] at h
    cases hmap : kvmmap g.flags g.npages g.va g.pa pt m with
    | error e =>
      rw [hmap] at h
      cases h
    | ok q =>
      rw [hmap] at h
      exact ih hok h (kvmmap_shift _ _ _ (hs.ok hok) hmap hs)

theorem procMapstacks_shift :
    ∀ (slots : List Nat) (kstack : List Frame) {kstack' : List Frame} {pt : PageTable} {m : Mem},
      Ok L m0 → procMapstacks slots kstack pt m = .ok (kstack', m', pt') →
      Shift L m0 m 0 (tables pt + listed kstack) →
      Shift L m0 m' 0 (tables pt' + listed kstack') := by
  intro slots
  induction slots with
  | nil =>
    intro kstack kstack' pt m _ h hs
    cases h
    exact hs
  | cons p rest ih =>
    intro kstack kstack' pt m hok h hs
    rw [procMapstacks] at h
    cases hfree : m.freelist with
    | nil =>
      rw [kalloc_none hfree] at h
      cases h
    | cons pa rest' =>
      obtain ⟨m1, hrun1, ha⟩ := kalloc_some (hs.ok hok) hfree
      rw [hrun1] at h
      change (kvmmap _ 1 (KSTACK p) pa pt m1 >>= _) = _ at h
      cases hmap : kvmmap ⟨true, true, false, false⟩ 1 (KSTACK p) pa pt m1 with
      | error e =>
        rw [hmap] at h
        cases h
      | ok q =>
        rw [hmap] at h
        have hs1 : Shift L m0 m1 0 (tables pt + listed (kstack ++ [pa])) := by
          rw [listed_append, ← add_assoc]
          exact hs.acquire ha.shift
        exact ih (kstack ++ [pa]) hok h (kvmmap_shift _ _ _ (hs1.ok hok) hmap hs1)

variable {regions : List Region} {initcode : List UInt8} {bytes : Frame → Page} {k : Kernel}

theorem kvmmake_shift {kstack : List Frame} (hok : Ok L m)
    (h : kvmmake L regions m = .ok (kstack, m', pt)) :
    Shift L m m' 0 (tables pt + listed kstack) := by
  unfold kvmmake at h
  cases hfree : m.freelist with
  | nil =>
    rw [kalloc_none hfree] at h
    cases h
  | cons root rest =>
    obtain ⟨m1, hrun1, ha⟩ := kalloc_some hok hfree
    rw [hrun1] at h
    change (kvmmapAll regions (.empty root) m1 >>= _) = _ at h
    have hs1 : Shift L m m1 0 (tables (.empty root) + listed []) := by
      rw [tables_empty]
      exact ha.shift
    cases hall : kvmmapAll regions (.empty root) m1 with
    | error e =>
      rw [hall] at h
      cases h
    | ok q =>
      rw [hall] at h
      have hs2 := kvmmapAll_shift regions hok hall hs1
      change (kvmmap _ 1 TRAMPOLINE L.trampoline q.2 q.1 >>= _) = _ at h
      cases htramp : kvmmap ⟨true, false, true, false⟩ 1 TRAMPOLINE L.trampoline q.2 q.1 with
      | error e =>
        rw [htramp] at h
        cases h
      | ok q' =>
        rw [htramp] at h
        exact procMapstacks_shift _ [] hok h (kvmmap_shift _ _ _ (hs2.ok hok) htramp hs2)

theorem virtioDiskInit_shift {disk : List Frame} (hok : Ok L m)
    (h : virtioDiskInit m = .ok (disk, m')) : Shift L m m' 0 (listed disk) := by
  obtain ⟨desc, m1, hrun1, hs1⟩ := kalloc_entry hok
  obtain ⟨avail, m2, hrun2, hs2⟩ := kalloc_entry (hs1.ok hok)
  obtain ⟨used, m3, hrun3, hs3⟩ := kalloc_entry (hs2.ok (hs1.ok hok))
  have hs := (hs1.acquire hs2).acquire hs3
  rw [virtioDiskInit, hrun1] at h
  change (kalloc m1 >>= _) = _ at h
  rw [hrun2] at h
  change (kalloc m2 >>= _) = _ at h
  rw [hrun3] at h
  cases desc with
  | none => cases h
  | some desc =>
    cases avail with
    | none => cases h
    | some avail =>
      cases used with
      | none => cases h
      | some used =>
        cases h
        simp only [entry_some] at hs
        rw [listed_cons, listed_cons, listed_cons]
        refine hs.congr (fun _ => rfl) ?_
        intro f
        simp only [Pi.add_apply, listed, List.count_nil]
        omega

/-! ## The first process -/

theorem uvmfirst_spec {src : List UInt8} (h : uvmfirst src pt m = .ok (m', pt'))
    (hheld : Held L m pt 0) (hoom : m'.oom = false) :
    ∃ d, Shift L m m' 0 d ∧ owned pt' = owned pt + d ∧ Image pt' 1 ∧
      ∃ f, pt'.leaf 0 = some (.new f (userFlags true true)) := by
  unfold uvmfirst at h
  by_cases hlen : src.length ≥ PGSIZE
  · rw [if_pos hlen] at h
    cases h
  rw [if_neg hlen] at h
  cases hfree : m.freelist with
  | nil =>
    rw [kalloc_none hfree] at h
    cases h
  | cons f rest =>
    obtain ⟨m1, hrun1, ha⟩ := kalloc_some hheld.ok hfree
    obtain ⟨r, m2, pt2, hrun2, hm⟩ := mappages_spec ((ha.fill zeroPage).ok hheld.ok) pt
      (v := 0) (by decide) (hheld.image.none (by decide) (Nat.le_refl 0))
      (.new f (userFlags true true))
    rw [hrun1] at h
    change (mappages pt 0 _ _ >>= _) = _ at h
    rw [hrun2] at h
    cases h
    cases r with
    | false =>
      rw [show (m2.write f _).oom = m2.oom from rfl, hm.failed rfl] at hoom
      cases hoom
    | true =>
      have hx := (Extended.refl L m pt (userFlags true true) 0).snoc hheld ha hm
      obtain ⟨dt, dl, hs, ht, hl⟩ := hx.shift
      obtain ⟨f', hf', _⟩ := hx.new 0 (Nat.le_refl 0) (by decide)
      refine ⟨dt + dl, hs.write_free ha.unused _, ?_, (hx.held hheld rfl (by decide)).image,
        f', hf'⟩
      funext g
      simp only [owned, ht, hl, Pi.add_apply]
      omega

theorem userinit_spec {P : Proc} (hok : Ok L m) (h : userinit L initcode m = .ok (P, m'))
    (hoom : m'.oom = false) :
    Shift L m m' 0 (pagesOf (some P)) ∧ WellFormed P ∧ (P.ofile = fun _ => none) ∧
      P.sz = PGSIZE ∧ ∃ f, P.pagetable.leaf 0 = some (.new f (userFlags true true)) := by
  obtain ⟨r, m1, hrun, hcase⟩ := allocproc_spec (fun _ => none) hok
  rw [userinit, hrun] at h
  rcases hcase with ⟨rfl, _, _⟩ | ⟨i, tf, pt, rfl, _, hf, hs, _⟩
  · cases h
  change (uvmfirst initcode pt m1 >>= _) = _ at h
  have hheld : Held L m1 pt 0 := by
    refine ⟨hs.ok hok, hf.image, ?_, Nat.zero_le _⟩
    intro f
    have := hs.balance f
    rw [hf.owned_eq]
    simp only [Pi.add_apply, Pi.zero_apply] at this
    omega
  cases hfirst : uvmfirst initcode pt m1 with
  | error e =>
    rw [hfirst] at h
    cases h
  | ok q =>
    obtain ⟨m2, pt2⟩ := q
    rw [hfirst] at h
    cases h
    obtain ⟨d, hs2, howned, himg, hleaf⟩ := uvmfirst_spec hfirst hheld hoom
    have hpages : pages PGSIZE = 1 := rfl
    refine ⟨(hs.acquire hs2).congr (fun _ => rfl) ?_,
      ⟨by rw [hpages]; exact himg, by rw [hpages]; decide, fun _ _ => rfl, fun _ _ => rfl⟩, rfl,
      rfl, hleaf⟩
    intro f
    simp only [pagesOf, howned, hf.owned_eq, Pi.add_apply]
    omega

/-- The parts of a boot that returns. -/
theorem boot_inv (h : boot L regions initcode bytes = .ok k) :
    ∃ m0 kstack m1 kpgtbl disk m2 P m3, kinit L bytes = .ok m0 ∧
      kvmmake L regions m0 = .ok (kstack, m1, kpgtbl) ∧ virtioDiskInit m1 = .ok (disk, m2) ∧
      userinit L initcode m2 = .ok (P, m3) ∧
      k = ⟨m3, update (fun _ => none) 0 (some P), .empty, kpgtbl, kstack, disk⟩ := by
  unfold boot at h
  obtain ⟨m0, hinit, h⟩ := bind_eq_ok h
  obtain ⟨⟨kstack, m1, kpgtbl⟩, hkvm, h⟩ := bind_eq_ok h
  obtain ⟨⟨disk, m2⟩, hdisk, h⟩ := bind_eq_ok h
  obtain ⟨⟨P, m3⟩, huser, h⟩ := bind_eq_ok h
  cases h
  exact ⟨m0, kstack, m1, kpgtbl, disk, m2, P, m3, hinit, hkvm, hdisk, huser, rfl⟩

/-- The only process is the first one. -/
theorem boot_proc (h : boot L regions initcode bytes = .ok k) :
    ∀ i Q, k.proc i = some Q → i = 0 := by
  obtain ⟨_, _, _, _, _, _, P, _, _, _, _, _, rfl⟩ := boot_inv h
  intro i Q hQ
  by_contra hi
  change update (fun _ => none) 0 (some P) i = some Q at hQ
  rw [update_of_ne hi] at hQ
  cases hQ

/-- The state after boot. -/
theorem boot_sound (h : boot L regions initcode bytes = .ok k) (hoom : k.mem.oom = false) :
    Sound L k := by
  obtain ⟨m0, hrun0, hok, hzero, _⟩ := kinit_spec L bytes
  obtain ⟨m, kstack, m1, kpgtbl, disk, m2, P, m3, hinit, hkvm, hdisk, huser, rfl⟩ := boot_inv h
  rw [hrun0] at hinit
  cases hinit
  have hs1 := kvmmake_shift hok hkvm
  have hs2 := virtioDiskInit_shift (hs1.ok hok) hdisk
  have hs12 := hs1.acquire hs2
  obtain ⟨hs3, hwf, hofile, _⟩ := userinit_spec (hs12.ok hok) huser hoom
  have hs := hs12.acquire hs3
  have hmem : (0 : Nat) ∈ Finset.range NPROC := Finset.mem_range.mpr (by decide)
  have hat : ∀ i Q, update (fun _ => none) 0 (some P) i = some Q →
      i = 0 ∧ Q = P := by
    intro i Q hQ
    rw [update_apply] at hQ
    split at hQ
    · cases hQ
      exact ⟨by assumption, rfl⟩
    · cases hQ
  refine ⟨hs.ok hok, ?_, ?_, ?_, ?_⟩
  · intro f
    have h1 := hs.balance f
    have h2 := total_update (g := pagesOf) (t := fun _ => none) hmem (some P) f
    have h3 : total (Finset.range NPROC) pagesOf (fun _ => none) = 0 :=
      total_zero (fun _ _ => rfl)
    have h4 := hzero f
    rw [h3] at h2
    simp only [uses, procPages, pipes_empty, pagesOf, Pi.add_apply, Pi.zero_apply] at *
    omega
  · intro i Q hQ
    rw [(hat i Q hQ).1]
    decide
  · intro i Q hQ
    rw [(hat i Q hQ).2]
    exact hwf
  · have hfiles : procFiles (update (fun _ => none) 0 (some P)) = 0 := by
      refine total_zero ?_
      intro i _
      by_cases hi : i = 0
      · rw [hi, update_self]
        refine fds_none ?_
        rw [hofile]
        exact fun _ => rfl
      · rw [update_of_ne hi]
        rfl
    rw [hfiles]
    exact counts_empty

/-- The page of `initcode`. -/
theorem boot_leaf (h : boot L regions initcode bytes = .ok k) (hoom : k.mem.oom = false) :
    ∃ f, ∀ P, k.proc 0 = some P →
      P.sz = PGSIZE ∧ P.pagetable.leaf 0 = some (.new f (userFlags true true)) := by
  obtain ⟨m0, hrun0, hok, _⟩ := kinit_spec L bytes
  obtain ⟨m, kstack, m1, kpgtbl, disk, m2, P, m3, hinit, hkvm, hdisk, huser, rfl⟩ := boot_inv h
  rw [hrun0] at hinit
  cases hinit
  have hs1 := kvmmake_shift hok hkvm
  have hs2 := virtioDiskInit_shift (hs1.ok hok) hdisk
  obtain ⟨_, _, _, hsz, f, hf⟩ := userinit_spec ((hs1.acquire hs2).ok hok) huser hoom
  refine ⟨f, ?_⟩
  intro Q hQ
  have hP : update (fun _ : Nat => none) 0 (some P) 0 = some P := update_self _ _ _
  cases hP.symm.trans hQ
  exact ⟨hsz, hf⟩

/-! ## No page is freed too early -/

theorem reach_sound {k0 : Kernel} (hboot : boot L regions initcode bytes = .ok k0)
    (hoom : k0.mem.oom = false) (hreach : Reach (next L) (· = k0) k) : Sound L k := by
  refine hreach.invariant ?_ (fun _ _ _ h _ hnext => next_sound h hnext)
  rintro _ rfl
  exact boot_sound hboot hoom

/-- A step panics only in the `exit` of `initproc`. -/
theorem Sound.panics {a : Action} {err : Panic} (h : Sound L k) (hrun : step L k a = .error err) :
    err = .msg "init exiting" := by
  rcases step_spec h a with ⟨r, k', hok, _⟩ | herr
  · rw [hok] at hrun
    cases hrun
  · rw [herr] at hrun
    cases hrun
    rfl

/-- Take any state that the processes reach from boot by any calls, failed
ones included.  Every page has at least as many references as uses, a page
in use is not on the free list, among them the pages below `p->sz`, and
`kalloc` returns none of them.  No call panics, apart from the `exit` of
`initproc`. -/
theorem no_premature_free {regions : List Region} {initcode : List UInt8} {bytes : Frame → Page}
    {k₀ k : Kernel} (hboot : boot L regions initcode bytes = .ok k₀) (hoom : k₀.mem.oom = false)
    (hreach : Reach (next L) (· = k₀) k) :
    (∀ f, uses k f ≤ k.mem.refcnt f) ∧
      (∀ f, 1 ≤ uses k f → f ∉ k.mem.freelist) ∧
      (∀ p P v e, k.proc p = some P → v * PGSIZE < P.sz → P.pagetable.leaf v = some e →
        1 ≤ uses k e.ppn) ∧
      (∀ f m', kalloc k.mem = .ok (some f, m') → uses k f = 0) ∧
      ∀ a err, step L k a = .error err → err = .msg "init exiting" := by
  have h := reach_sound hboot hoom hreach
  refine ⟨h.covered, fun f => h.not_free, ?_, fun f m' => h.kalloc_unused, fun a err => h.panics⟩
  intro p P v e hp hv he
  refine h.uses_pos hp ?_ he
  unfold pages PGSIZE at *
  omega

/-- A machine with a hundred pages for the allocator. -/
def smallLayout : Layout := ⟨PHYSTOP - 100, 0x80000⟩

/-- Whether a machine boots to a state that `f` accepts. -/
def boots (L : Layout) (f : Kernel → Bool) : Bool :=
  (boot L [] [] (fun _ => zeroPage)).toOption.any (fun k => !k.mem.oom && f k)

theorem exists_of_boots {f : Kernel → Bool} (h : boots L f = true) :
    ∃ k, boot L [] [] (fun _ => zeroPage) = .ok k ∧ k.mem.oom = false ∧ f k = true := by
  obtain ⟨k, hboot, hk⟩ := exists_ok_of_any h
  obtain ⟨hoom, hf⟩ := (Bool.and_eq_true _ _).mp hk
  exact ⟨k, hboot, Bool.not_eq_true' _ ▸ hoom, hf⟩

/-- Whether `f` accepts the state of the small machine after some actions. -/
def observe (run : List Action) (f : Kernel → Bool) : Bool :=
  boots smallLayout (fun k => (runFrom (next smallLayout) k run).any f)

theorem exists_of_observe (run : List Action) {f : Kernel → Bool} (h : observe run f = true) :
    ∃ k0 k, boot smallLayout [] [] (fun _ => zeroPage) = .ok k0 ∧ k0.mem.oom = false ∧
      Reach (next smallLayout) (· = k0) k ∧ f k = true := by
  obtain ⟨k0, hboot, hoom, hrun⟩ := exists_of_boots h
  obtain ⟨k, hk, hf⟩ := (Option.any_eq_true _ _).mp hrun
  exact ⟨k0, k, hboot, hoom, reachWhen_of_runWhen run (.init rfl) hk, hf⟩

/-- The first process forks, and the child writes to the page they share. -/
def forkRun : List Action := [⟨0, .fork⟩, ⟨1, .store 8 7⟩, ⟨1, .exit 0⟩]

theorem no_premature_free_forkRun :
    ∃ k₀ k, boot smallLayout [] [] (fun _ => zeroPage) = .ok k₀ ∧ k₀.mem.oom = false ∧
      Reach (next smallLayout) (· = k₀) k ∧ k.mem.freelist.length = 16 ∧
      (k.proc 1).isSome ∧ ∀ f, uses k f ≤ k.mem.refcnt f := by
  obtain ⟨k₀, k, hboot, hoom, hreach, hk⟩ := exists_of_observe forkRun
    (f := fun k => decide (k.mem.freelist.length = 16 ∧ (k.proc 1).isSome)) (by decide +kernel)
  obtain ⟨hlength, hproc⟩ := of_decide_eq_true hk
  exact ⟨k₀, k, hboot, hoom, hreach, hlength, hproc, (no_premature_free hboot hoom hreach).1⟩

/-! ## The shape of an address space -/

/-- The pages that a user page table maps: those below `PGROUNDUP(sz)`, the
trapframe and the trampoline. -/
theorem Image.mapped_iff {pt : PageTable} {n : Nat} (h : Image pt n) (hbound : n ≤ TRAPFRAME)
    (v : Nat) : (pt.leaf v).isSome ↔ v < n ∨ v = TRAPFRAME ∨ v = TRAMPOLINE := by
  by_cases hlow : v < TRAPFRAME
  · rw [h.mapped v hlow]
    have hne : v ≠ TRAPFRAME ∧ v ≠ TRAMPOLINE := by
      rw [TRAPFRAME_eq, TRAMPOLINE_eq] at *
      omega
    tauto
  · by_cases htop : v < MAXVPN
    · obtain ⟨e, he, _⟩ := h.top v (Nat.le_of_not_lt hlow) htop
      have hv : v = TRAPFRAME ∨ v = TRAMPOLINE := by
        rw [TRAPFRAME_eq, TRAMPOLINE_eq, MAXVPN_eq] at *
        omega
      simp [he, hv]
    · rw [h.high v (Nat.le_of_not_lt htop)]
      have hne : ¬ (v < n ∨ v = TRAPFRAME ∨ v = TRAMPOLINE) := by
        rw [TRAPFRAME_eq, TRAMPOLINE_eq, MAXVPN_eq] at *
        omega
      simp [hne]

/-- The process in a slot can be torn down: `freeproc` returns, and it
drops one reference for each leaf, for each page of the table and for the
trapframe. -/
theorem Sound.freeproc {p : Nat} {P : Proc} (h : Sound L k) (hp : k.proc p = some P) :
    ∃ m', freeproc L P.trapframe P.pagetable P.sz k.mem = .ok m' ∧
      ∀ f, m'.refcnt f + (tables P.pagetable f + leaves P.pagetable.leaf f + one P.trapframe f)
        = k.mem.refcnt f := by
  have hwf := h.wf p P hp
  obtain ⟨m', hrun, hshift, _⟩ := freeproc_spec P.trapframe P.sz h.ok hwf.bound hwf.image
    (fun f => by
      have h1 := h.covered f
      have h2 := h.pages_le hp f
      simp only [uses, pagesOf, Pi.add_apply] at h1 h2 ⊢
      omega)
  exact ⟨m', hrun, hshift.transfer.balance⟩

/-- Take any state that the processes reach from boot by any calls, failed
ones included.  The table of a process maps the pages below
`PGROUNDUP(p->sz)`, the trapframe and the trampoline and no others, and it
can be read through every entry.  No call panics, apart from the `exit` of
`initproc`.  The teardown of a process drops each of its references
once. -/
theorem address_space_shape {regions : List Region} {initcode : List UInt8}
    {bytes : Frame → Page} {k₀ k : Kernel} (hboot : boot L regions initcode bytes = .ok k₀)
    (hoom : k₀.mem.oom = false) (hreach : Reach (next L) (· = k₀) k) :
    (∀ p P, k.proc p = some P →
      (∀ v, (P.pagetable.leaf v).isSome ↔ v < pages P.sz ∨ v = TRAPFRAME ∨ v = TRAMPOLINE) ∧
      ∀ v e, P.pagetable.leaf v = some e → e.flags.r = true) ∧
      (∀ a err, step L k a = .error err → err = .msg "init exiting") ∧
      ∀ p P, k.proc p = some P →
        ∃ m', freeproc L P.trapframe P.pagetable P.sz k.mem = .ok m' ∧
          ∀ f, m'.refcnt f +
              (tables P.pagetable f + leaves P.pagetable.leaf f + one P.trapframe f)
            = k.mem.refcnt f := by
  have h := reach_sound hboot hoom hreach
  refine ⟨?_, fun a err => h.panics, fun p P => h.freeproc⟩
  intro p P hp
  exact ⟨(h.wf p P hp).image.mapped_iff (h.wf p P hp).bound, (h.wf p P hp).image.readable⟩

/-- The first process grows by a page and a half, forks, and the child
shrinks and exits.  The reaping tears its address space down. -/
def growRun : List Action :=
  [⟨0, .sbrk 6144⟩, ⟨0, .fork⟩, ⟨1, .store 4100 7⟩, ⟨1, .sbrk (-5000)⟩, ⟨1, .exit 0⟩]

theorem address_space_shape_growRun :
    ∃ k₀ k, boot smallLayout [] [] (fun _ => zeroPage) = .ok k₀ ∧ k₀.mem.oom = false ∧
      Reach (next smallLayout) (· = k₀) k ∧ (k.proc 0).map Proc.sz = some 10240 ∧
      (k.proc 1).map Proc.sz = some 5240 ∧
      ∀ P, k.proc 1 = some P →
        ∀ v, (P.pagetable.leaf v).isSome ↔ v < 2 ∨ v = TRAPFRAME ∨ v = TRAMPOLINE := by
  obtain ⟨k₀, k, hboot, hoom, hreach, hk⟩ := exists_of_observe growRun
    (f := fun k => decide ((k.proc 0).map Proc.sz = some 10240 ∧
      (k.proc 1).map Proc.sz = some 5240)) (by decide +kernel)
  obtain ⟨hk₀, hk₁⟩ := of_decide_eq_true hk
  refine ⟨k₀, k, hboot, hoom, hreach, hk₀, hk₁, ?_⟩
  intro P hP
  have hshape := ((address_space_shape hboot hoom hreach).1 1 P hP).1
  have hsz : P.sz = 5240 := by
    rw [hP] at hk₁
    exact Option.some.inj hk₁
  rw [hsz] at hshape
  exact hshape

end Xv6.Memory
