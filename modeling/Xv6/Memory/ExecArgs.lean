import Xv6.Memory.Copies
import Xv6.Memory.ExecFile

/-!
# The arguments of a new program

`exec` pushes the argument strings and then the array of pointers to them
onto the stack page of the new image, each piece 16-byte aligned and each by
a `copyout` that moves the page.

The layout is stated by offsets from the top of the stack: `stringSpace` is
how far down the strings reach, `blockSize` how far the whole block does.  It
depends on the lengths of the strings only.  `pushArgs_block` and
`pushStack_block` say what the pushes do to the user bytes, and
`exec_arguments` puts them together with the rest of `exec`.
-/

namespace Xv6.Memory

open Xv6.Lib

variable {L : Layout} {m m' : Mem} {pt pt' : PageTable} {sz o : Nat}

/-! ## The layout -/

/-- The next multiple of 16. -/
def roundUp16 (n : Nat) : Nat := (n + 15) / 16 * 16

/-- The offset of the last string from the top, if the first one is pushed at
the offset `o`. -/
def stringSpace : Nat → List (List UInt8) → Nat
  | o, [] => o
  | o, s :: rest => stringSpace (roundUp16 (o + (s.length + 1))) rest

/-- The bytes that the argument block takes. -/
def blockSize (args : List (List UInt8)) : Nat :=
  roundUp16 (stringSpace 0 args + (args.length + 1) * 8)

/-- The addresses of the strings, below the top `sz`. -/
def stringAddrs (sz : Nat) : Nat → List (List UInt8) → List Nat
  | _, [] => []
  | o, s :: rest =>
      (sz - roundUp16 (o + (s.length + 1))) ::
        stringAddrs sz (roundUp16 (o + (s.length + 1))) rest

/-- The addresses from the start of a string to the end of its zero. -/
def stringRegions (ptrs : List Nat) (args : List (List UInt8)) : List (Nat × Nat) :=
  List.zipWith (fun p s => (p, p + (s.length + 1))) ptrs args

/-- The addresses of the array of pointers and of the strings. -/
def regions (sp : Nat) (ptrs : List Nat) (args : List (List UInt8)) : List (Nat × Nat) :=
  (sp, sp + (args.length + 1) * 8) :: stringRegions ptrs args

theorem le_roundUp16 (n : Nat) : n ≤ roundUp16 n := by
  unfold roundUp16
  omega

theorem le_stringSpace : ∀ (args : List (List UInt8)) (o : Nat), o ≤ stringSpace o args := by
  intro args
  induction args with
  | nil =>
    intro o
    exact Nat.le_refl o
  | cons s rest ih =>
    intro o
    have h1 := le_roundUp16 (o + (s.length + 1))
    have h2 := ih (roundUp16 (o + (s.length + 1)))
    rw [stringSpace]
    omega

/-- The strings are in the block. -/
theorem stringSpace_le_blockSize (args : List (List UInt8)) :
    stringSpace 0 args + (args.length + 1) * 8 ≤ blockSize args :=
  le_roundUp16 _

theorem length_stringAddrs (sz : Nat) :
    ∀ (args : List (List UInt8)) (o : Nat), (stringAddrs sz o args).length = args.length := by
  intro args
  induction args with
  | nil =>
    intro o
    rfl
  | cons s rest ih =>
    intro o
    rw [stringAddrs, List.length_cons, List.length_cons, ih]

variable {s : List UInt8} {args : List (List UInt8)}

/-- `sp -= strlen(s) + 1; sp -= sp % 16`, by offsets. -/
theorem pushString_eq (haligned : sz % PGSIZE = 0) (hroom : roundUp16 (o + (s.length + 1)) ≤ sz) :
    pushString (sz - o) s = sz - roundUp16 (o + (s.length + 1)) := by
  unfold pushString roundUp16 PGSIZE at *
  dsimp only
  omega

theorem foldl_pushString (haligned : sz % PGSIZE = 0) :
    ∀ (args : List (List UInt8)) (o : Nat), stringSpace o args ≤ sz →
      args.foldl pushString (sz - o) = sz - stringSpace o args := by
  intro args
  induction args with
  | nil =>
    intro o _
    rfl
  | cons s rest ih =>
    intro o hroom
    rw [stringSpace] at hroom ⊢
    have hle := le_stringSpace rest (roundUp16 (o + (s.length + 1)))
    rw [List.foldl_cons, pushString_eq haligned (by omega), ih _ hroom]

/-- The stack pointer of `exec`. -/
theorem stackPointer_eq (haligned : sz % PGSIZE = 0) (hroom : blockSize args ≤ sz) :
    stackPointer sz args = sz - blockSize args := by
  have hle := stringSpace_le_blockSize args
  have hfold := foldl_pushString haligned args 0 (by omega)
  rw [Nat.sub_zero] at hfold
  unfold stackPointer
  dsimp only
  rw [hfold]
  unfold blockSize roundUp16 PGSIZE at *
  omega

theorem stringAddrs_aligned (haligned : sz % PGSIZE = 0) :
    ∀ (args : List (List UInt8)) (o : Nat), stringSpace o args ≤ sz →
      ∀ p ∈ stringAddrs sz o args, p % 16 = 0 := by
  intro args
  induction args with
  | nil =>
    intro o _ p hp
    cases hp
  | cons s rest ih =>
    intro o hroom p hp
    rw [stringSpace] at hroom
    rw [stringAddrs, List.mem_cons] at hp
    rcases hp with rfl | hp
    · have hle := le_stringSpace rest (roundUp16 (o + (s.length + 1)))
      unfold roundUp16 PGSIZE at *
      omega
    · exact ih _ hroom p hp

/-- Each string lies below those before it. -/
theorem stringRegions_below (sz : Nat) :
    ∀ (args : List (List UInt8)) (o : Nat), stringSpace o args ≤ sz →
      (∀ r ∈ stringRegions (stringAddrs sz o args) args,
        sz - stringSpace o args ≤ r.1 ∧ r.2 ≤ sz - o) ∧
      (stringRegions (stringAddrs sz o args) args).Pairwise (fun a b => b.2 ≤ a.1) := by
  intro args
  induction args with
  | nil =>
    intro o _
    exact ⟨fun r hr => (by cases hr), List.Pairwise.nil⟩
  | cons s rest ih =>
    intro o hroom
    rw [stringSpace] at hroom ⊢
    obtain ⟨hin, hpair⟩ := ih _ hroom
    have hle := le_stringSpace rest (roundUp16 (o + (s.length + 1)))
    have hup := le_roundUp16 (o + (s.length + 1))
    rw [stringRegions, stringAddrs, List.zipWith_cons_cons]
    refine ⟨?_, List.pairwise_cons.mpr ⟨?_, hpair⟩⟩
    · intro r hr
      rw [List.mem_cons] at hr
      rcases hr with rfl | hr
      · dsimp only
        omega
      · have hbounds := hin r hr
        omega
    · intro r hr
      exact (hin r hr).2

/-! ## Copies to the stack -/

/-- `copyout` leaves the stack page and the guard page what they are. -/
theorem StackPages.copyOut {dst : Nat} {src : List UInt8} {r : Bool}
    (hc : CopyOut L dst src m pt r m' pt') (h : StackPages pt sz) : StackPages pt' sz := by
  induction hc with
  | done => exact h
  | invalid => exact h
  | oom => exact h
  | page _ _ hr _ ih =>
    refine ih ⟨h.aligned, h.two, ?_, ?_⟩
    · obtain ⟨e, he, hu⟩ := h.guard
      refine ⟨e, ?_, hu⟩
      rw [hr.leaf, Function.update_of_ne, he]
      intro hv
      rw [hv, hr.before] at he
      cases he
      rw [hr.user] at hu
      cases hu
    · obtain ⟨e, he, hu⟩ := h.stack
      rw [hr.leaf, Function.update_apply]
      split
      · exact ⟨_, rfl, rfl⟩
      · exact ⟨e, he, hu⟩

/-- A copy inside the stack page works, unless no page is free. -/
theorem copyout_stack (h : Backed L m pt) (hs : StackPages pt sz) (hmax : sz ≤ MAXVA) (dst : Nat)
    (src : List UInt8) (hlow : sz - PGSIZE ≤ dst) (hhigh : dst + src.length ≤ sz) :
    ∃ r m' pt', copyout L dst src pt m = .ok (r, m', pt') ∧ CopyOut L dst src m pt r m' pt' ∧
      (r = false → m'.oom = true) := by
  obtain ⟨r, m', pt', hrun, hc⟩ := copyout_spec h dst src
  refine ⟨r, m', pt', hrun, hc, ?_⟩
  intro hr
  have haligned := hs.aligned
  have htwo := hs.two
  cases hc with
  | done => cases hr
  | invalid hsrc hcow =>
    have hlen := List.length_pos_iff.mpr hsrc
    obtain ⟨e, he, hu⟩ := hs.stack
    refine absurd ⟨?_, ?_, e, ?_, hu⟩ hcow
    · rw [pgrounddown_lt_MAXVA]
      omega
    · unfold pgrounddown PGSIZE at *
      omega
    · rw [pgrounddown_div, ← he]
      congr 1
      unfold PGSIZE at *
      omega
  | oom => rfl
  | page hsrc _ _ hrest =>
    -- the copy ends with the page
    have hend : src.drop (chunk dst src.length) = [] := by
      apply List.drop_eq_nil_of_le
      unfold chunk PGSIZE at *
      omega
    rw [hend] at hrest
    cases hrest with
    | done => cases hr
    | invalid hne => exact absurd rfl hne
    | oom hne => exact absurd rfl hne
    | page hne => exact absurd rfl hne

/-! ## The pushes -/

/-- What the strings leave when they are pushed from the offset `o` on. -/
structure Pushed (L : Layout) (m : Mem) (pt : PageTable) (sz o : Nat) (args : List (List UInt8))
    (m' : Mem) (pt' : PageTable) : Prop where
  room : stringSpace o args ≤ PGSIZE
  backed : Backed L m' pt'
  stack : StackPages pt' sz
  kept : ∀ va, sz - o ≤ va → (spaceOf m' pt').load va = (spaceOf m pt).load va
  strings : ∀ (i : Nat) (s : List UInt8) (p : Nat), args[i]? = some s → (stringAddrs sz o args)[i]? = some p →
    ∀ j, j < s.length + 1 → (spaceOf m' pt').load (p + j) = (s ++ [0])[j]?

/-- One string, and then the rest. -/
theorem Pushed.cons {rest : List (List UInt8)} {m1 : Mem} {pt1 : PageTable} (hb : Backed L m pt)
    (htwo : 2 * PGSIZE ≤ sz)
    (hc : CopyOut L (sz - roundUp16 (o + (s.length + 1))) (s ++ [0]) m pt true m1 pt1)
    (h : Pushed L m1 pt1 sz (roundUp16 (o + (s.length + 1))) rest m' pt') :
    Pushed L m pt sz o (s :: rest) m' pt' := by
  have hup := le_roundUp16 (o + (s.length + 1))
  have hle := (le_stringSpace rest _).trans h.room
  have hlen : (s ++ [0]).length = s.length + 1 := List.length_append
  refine ⟨h.room, h.backed, h.stack, ?_, ?_⟩
  · intro va hva
    rw [h.kept va (by omega), hc.load_eq hb, if_neg]
    omega
  · intro i t p hi hp
    cases i with
    | zero =>
      cases hi
      cases hp
      intro j hj
      rw [h.kept _ (by omega), hc.load_eq hb, if_pos (by omega), Nat.add_sub_cancel_left]
    | succ i => exact h.strings i t p hi hp

/-- `pushArgs` pushes the strings, unless they do not fit or no page is
free. -/
theorem pushArgs_block (hmax : sz ≤ MAXVA) :
    ∀ (args : List (List UInt8)) (o : Nat) (ustack : List Nat) {m : Mem} {pt : PageTable},
      ustack.length + args.length < MAXARG → (∀ s ∈ args, s.length < PGSIZE) → o ≤ PGSIZE →
      Backed L m pt → StackPages pt sz →
      ∃ r sp ustack' m' pt', pushArgs L (sz - PGSIZE) args (sz - o) ustack pt m =
          .ok (r, sp, ustack', m', pt') ∧
        (r = true → sp = sz - stringSpace o args ∧ ustack' = ustack ++ stringAddrs sz o args ∧
          Pushed L m pt sz o args m' pt') ∧
        (r = false → PGSIZE < stringSpace o args ∨ m'.oom = true) := by
  intro args
  induction args with
  | nil =>
    intro o ustack m pt _ _ hroom hb hs
    refine ⟨true, _, ustack, m, pt, rfl, fun _ => ⟨rfl, (List.append_nil _).symm, ?_⟩,
      fun hr => (by cases hr)⟩
    refine ⟨hroom, hb, hs, fun _ _ => rfl, ?_⟩
    intro i s p hi
    cases hi
  | cons s rest ih =>
    intro o ustack m pt hcount hshort hroom hb hs
    have haligned := hs.aligned
    have htwo := hs.two
    have hlen : s.length < PGSIZE := hshort s (List.mem_cons_self ..)
    rw [List.length_cons] at hcount
    have hup : roundUp16 (o + (s.length + 1)) ≤ 2 * PGSIZE := by
      unfold roundUp16 PGSIZE at *
      omega
    have hsp := pushString_eq haligned (hup.trans htwo)
    unfold pushString at hsp
    dsimp only at hsp
    rw [pushArgs, if_neg (by omega)]
    dsimp only
    rw [hsp, stringSpace, stringAddrs]
    generalize hnext : roundUp16 (o + (s.length + 1)) = o'
    have hle := le_stringSpace rest o'
    by_cases hlow : sz - o' < sz - PGSIZE
    · refine ⟨false, _, ustack, m, pt, if_pos hlow, fun hr => (by cases hr), fun _ => Or.inl ?_⟩
      omega
    rw [if_neg hlow]
    have hstart := le_roundUp16 (o + (s.length + 1))
    have hbytes : (s ++ [0]).length = s.length + 1 := List.length_append
    obtain ⟨r1, m1, pt1, hrun1, hc, hoom⟩ := copyout_stack hb hs hmax (sz - o')
      (s ++ [0]) (by omega) (by omega)
    rw [hrun1]
    show ∃ r sp ustack' m' pt', (if r1 then _ else _) = _ ∧ _
    cases r1 with
    | false =>
      exact ⟨false, _, ustack, m1, pt1, rfl, fun hr => (by cases hr), fun _ => Or.inr (hoom rfl)⟩
    | true =>
      obtain ⟨r, sp, ustack', m', pt', hrun, hdone, hfail⟩ := ih o' (ustack ++ [sz - o'])
        (by rw [List.length_append, List.length_singleton]; omega)
        (fun t ht => hshort t (List.mem_cons_of_mem _ ht)) (by omega) (hc.backed hb)
        (hs.copyOut hc)
      refine ⟨r, sp, ustack', m', pt', hrun, ?_, hfail⟩
      intro hr
      obtain ⟨hsp', hstack, hpushed⟩ := hdone hr
      subst hnext
      refine ⟨hsp', ?_, hpushed.cons hb htwo hc⟩
      rw [hstack, List.append_assoc]
      rfl

theorem length_flatMap_le64 (xs : List Nat) : (xs.flatMap le64).length = xs.length * 8 := by
  induction xs with
  | nil => rfl
  | cons x xs ih =>
    rw [List.flatMap_cons, List.length_append, ih, le64, List.length_map, List.length_range,
      List.length_cons]
    omega

/-- The bytes of the argument block. -/
structure Block (m : Mem) (pt : PageTable) (sz : Nat) (args : List (List UInt8)) : Prop where
  room : blockSize args ≤ PGSIZE
  stack : StackPages pt sz
  pointers : ∀ j, j < (args.length + 1) * 8 → (spaceOf m pt).load (sz - blockSize args + j) =
    ((stringAddrs sz 0 args ++ [0]).flatMap le64)[j]?
  strings : ∀ (i : Nat) (s : List UInt8) (p : Nat), args[i]? = some s → (stringAddrs sz 0 args)[i]? = some p →
    ∀ j, j < s.length + 1 → (spaceOf m pt).load (p + j) = (s ++ [0])[j]?

/-- The addresses of a string are above the array of pointers. -/
theorem stringAddrs_bounds (hroom : stringSpace 0 args ≤ sz) {i : Nat} {p : Nat}
    (hs : args[i]? = some s) (hp : (stringAddrs sz 0 args)[i]? = some p) :
    sz - stringSpace 0 args ≤ p ∧ p + (s.length + 1) ≤ sz := by
  have hmem : (p, p + (s.length + 1)) ∈ stringRegions (stringAddrs sz 0 args) args := by
    refine List.mem_of_getElem? (i := i) ?_
    rw [stringRegions, List.getElem?_zipWith, hp, hs]
  exact (stringRegions_below _ args 0 hroom).1 _ hmem

/-- The strings and the array of pointers are pushed, unless they do not fit
or no page is free. -/
theorem pushStack_block (hmax : sz ≤ MAXVA) (args : Argv) (hb : Backed L m pt)
    (hs : StackPages pt sz) :
    ∃ r m' pt', pushStack L sz args.strs pt m = .ok (r, m', pt') ∧
      (r = true → Block m' pt' sz args.strs) ∧
      (r = false → PGSIZE < blockSize args.strs ∨ m'.oom = true) := by
  have hle := stringSpace_le_blockSize args.strs
  have haligned := hs.aligned
  have htwo := hs.two
  obtain ⟨r1, sp, ustack, m1, pt1, hrun1, hdone, hfail⟩ := pushArgs_block hmax args.strs 0 []
    (by rw [List.length_nil, Nat.zero_add]; exact args.short) args.fits (Nat.zero_le _) hb hs
  rw [Nat.sub_zero] at hrun1
  unfold pushStack
  dsimp only
  rw [hrun1]
  show ∃ r m' pt', (if r1 then _ else _) = _ ∧ _
  cases r1 with
  | false =>
    refine ⟨false, m1, pt1, rfl, fun hr => (by cases hr), fun _ => ?_⟩
    rcases hfail rfl with hbig | hoom
    · exact Or.inl (by omega)
    · exact Or.inr hoom
  | true =>
    obtain ⟨rfl, rfl, hp⟩ := hdone rfl
    have hroom := hp.room
    have hcount : ([] ++ stringAddrs sz 0 args.strs).length = args.strs.length :=
      length_stringAddrs sz args.strs 0
    have hshort := args.short
    have hsmall : blockSize args.strs ≤ 2 * PGSIZE := by
      unfold blockSize roundUp16 MAXARG PGSIZE at *
      omega
    have hsp : sz - stringSpace 0 args.strs - (args.strs.length + 1) * 8 -
        (sz - stringSpace 0 args.strs - (args.strs.length + 1) * 8) % 16 =
        sz - blockSize args.strs := by
      unfold blockSize roundUp16 PGSIZE at *
      omega
    rw [if_pos rfl]
    dsimp only
    rw [hcount, hsp, List.nil_append]
    by_cases hlow : sz - blockSize args.strs < sz - PGSIZE
    · exact ⟨false, m1, pt1, if_pos hlow, fun hr => (by cases hr), fun _ => Or.inl (by omega)⟩
    rw [if_neg hlow]
    have hbytes : ((stringAddrs sz 0 args.strs ++ [0]).flatMap le64).length =
        (args.strs.length + 1) * 8 := by
      rw [length_flatMap_le64, List.length_append, length_stringAddrs]
      rfl
    obtain ⟨r2, m2, pt2, hrun2, hc, hoom⟩ := copyout_stack hp.backed hp.stack hmax
      (sz - blockSize args.strs) ((stringAddrs sz 0 args.strs ++ [0]).flatMap le64) (by omega) (by omega)
    refine ⟨r2, m2, pt2, hrun2, ?_, fun hr => Or.inr (hoom hr)⟩
    rintro rfl
    refine ⟨by omega, hp.stack.copyOut hc, ?_, ?_⟩
    · intro j hj
      rw [hc.load_eq hp.backed, if_pos (by omega), Nat.add_sub_cancel_left]
    · intro i s p hi hpi j hj
      have hbounds := stringAddrs_bounds (by omega) hi hpi
      rw [hc.load_eq hp.backed, if_neg (by omega)]
      exact hp.strings i s p hi hpi j hj

/-! ## `exec` -/

theorem Building.le_MAXVA {m₀ : Mem} (h : Building L m₀ m pt sz) : sz ≤ MAXVA := by
  have hle := le_of_pages_le h.held.bound
  exact hle.trans (Nat.mul_le_mul_right _ TRAPFRAME_lt.le)

/-- The argument block of a program: `ptrs` are the addresses of the
strings.  The regions are half open. -/
structure ArgBlock (P : Program) (m : Mem) (args : List (List UInt8)) (ptrs : List Nat) :
    Prop where
  sp : P.sp = P.a1
  count : ptrs.length = args.length
  pointers : copyin P.pagetable P.a1 ((args.length + 1) * 8) m =
    .ok (some ((ptrs ++ [0]).flatMap le64))
  strings : ∀ (i : Nat) (s : List UInt8) (p : Nat), args[i]? = some s → ptrs[i]? = some p →
    copyin P.pagetable p (s.length + 1) m = .ok (some (s ++ [0]))
  aligned : ∀ p ∈ P.sp :: ptrs, p % 16 = 0
  disjoint : (regions P.sp ptrs args).Pairwise (fun a b => a.2 ≤ b.1 ∨ b.2 ≤ a.1)
  inside : ∀ r ∈ regions P.sp ptrs args, P.sz - PGSIZE ≤ r.1 ∧ r.2 ≤ P.sz
  stack : StackPages P.pagetable P.sz

/-- What the pushes leave is an argument block. -/
theorem Block.argBlock {P : Program} (h : Block m pt sz args) (hb : Backed L m pt)
    (hpt : P.pagetable = pt) (hsz : P.sz = sz) (ha1 : P.a1 = stackPointer sz args)
    (hsp : P.sp = stackPointer sz args) : ArgBlock P m args (stringAddrs sz 0 args) := by
  have hroom := h.room
  have htwo := h.stack.two
  have haligned := h.stack.aligned
  have hle := stringSpace_le_blockSize args
  rw [stackPointer_eq haligned (by omega)] at ha1 hsp
  have hcount := length_stringAddrs sz args 0
  obtain ⟨hin, hpair⟩ := stringRegions_below sz args 0 (by omega)
  refine ⟨hsp.trans ha1.symm, hcount, ?_, ?_, ?_, ?_, ?_, by rw [hpt, hsz]; exact h.stack⟩
  · have hlen : ((stringAddrs sz 0 args ++ [0]).flatMap le64).length =
        (args.length + 1) * 8 := by
      rw [length_flatMap_le64, List.length_append, hcount]
      rfl
    rw [hpt, ha1, copyin_space hb, ← hlen, Space.loads_eq]
    intro j hj
    exact h.pointers j (by omega)
  · intro i s p hs hp
    have hlen : (s ++ [0]).length = s.length + 1 := List.length_append
    rw [hpt, copyin_space hb, ← hlen, Space.loads_eq]
    intro j hj
    exact h.strings i s p hs hp j (by omega)
  · intro p hp
    rw [List.mem_cons] at hp
    rcases hp with rfl | hp
    · rw [hsp]
      unfold blockSize roundUp16 PGSIZE at *
      omega
    · exact stringAddrs_aligned haligned args 0 (by omega) p hp
  · rw [regions, List.pairwise_cons]
    refine ⟨?_, hpair.imp Or.inr⟩
    intro r hr
    have hbounds := hin r hr
    rw [hsp]
    dsimp only
    omega
  · intro r hr
    rw [regions, List.mem_cons] at hr
    rw [hsz]
    rcases hr with rfl | hr
    · rw [hsp]
      dsimp only
      omega
    · have hbounds := hin r hr
      omega

/-- What the pushes of a new image leave, behind the old one is freed. -/
theorem Pushes.argBlock {s : Exec L} {args : Argv} {P : Program} {m1 : Mem}
    (h : Pushes s args sz true m pt)
    (hfree : procFreepagetable L s.program.pagetable s.program.sz m = .ok m1)
    (hpt : P.pagetable = pt) (hsz : P.sz = sz) (ha1 : P.a1 = stackPointer sz args.strs)
    (hsp : P.sp = stackPointer sz args.strs) :
    ArgBlock P m1 args.strs (stringAddrs sz 0 args.strs) := by
  obtain ⟨m', pt', hb, hpages, hrun⟩ := h
  obtain ⟨_, _, _, hrun', h2⟩ := pushStack_spec args.strs hb
  cases hrun.symm.trans hrun'
  have hold := s.held.acquire h2.shift
  obtain ⟨_, hfree', hs, _⟩ :=
    procFreepagetable_spec hold.ok hold.bound hold.image hold.covered
  cases hfree.symm.trans hfree'
  -- the pages of the new image are not those of the old one
  have hcount : ∀ f, s.mem.refcnt f + owned pt f = m.refcnt f := by
    intro f
    have := h2.shift.balance f
    simp only [Pi.zero_apply] at this
    omega
  have hkept : Kept m m1 pt := by
    intro v e hv he
    refine hs.frame ?_
    have h1 := hcount e.ppn
    have h2 := s.held.covered e.ppn
    have h3 := leaves_pos hv he
    simp only [owned, Pi.add_apply] at *
    omega
  have hbacked : Backed L m1 pt := by
    refine ⟨hs.ok hold.ok, h2.held.backed.user_below, ?_⟩
    intro f
    have h1 := hcount f
    have h2 := s.held.covered f
    have h3 := hs.balance f
    simp only [owned, Pi.add_apply, Pi.zero_apply] at *
    omega
  obtain ⟨_, _, _, hrun2, hdone, _⟩ := pushStack_block hb.le_MAXVA args hb.held.backed hpages
  cases hrun.symm.trans hrun2
  have hblock := hdone rfl
  refine Block.argBlock ⟨hblock.room, hblock.stack, ?_, ?_⟩ hbacked hpt hsz ha1 hsp
  · rw [hkept.space]
    exact hblock.pointers
  · rw [hkept.space]
    exact hblock.strings

/-- For every file, every memory and all arguments that `sys_exec` can build,
`exec` returns.  If it succeeds it returns the number of arguments, and their
block is on the stack of the new image: `copyin` at `a1` yields the pointers
and a zero, and at the `i`-th pointer the `i`-th string with its zero.  The
stack pointer and the strings are aligned, and all pieces are disjoint and
inside the stack page, which is above a guard page.  Once the image is
accepted, `exec` fails only if the block is larger than a page or the memory
runs out. -/
theorem exec_arguments (s : Exec L) (path : List UInt8) (found : Option s.inodes.Found)
    (content : List UInt8) (args : Argv) :
    ∃ r t, execFile L s path found content args = .ok (r, t) ∧
      (r ≠ -1 → r = Int32.ofNat args.strs.length ∧
        ∃ ptrs, ArgBlock t.program t.mem args.strs ptrs) ∧
      (found.isSome → Accepted L s content → r = -1 →
        PGSIZE < blockSize args.strs ∨ t.mem.oom = true) := by
  obtain ⟨r, t, hrun, ⟨rfl, _, hnot⟩ | hout⟩ := execFile_spec s path found content args
  · exact ⟨-1, t, hrun, fun hne => absurd rfl hne, fun hsome hacc => absurd hacc (hnot hsome)⟩
  · refine ⟨r, t, hrun, ?_⟩
    cases hout with
    | bad _ why =>
      refine ⟨fun hne => absurd rfl hne, fun _ _ _ => ?_⟩
      rcases why with hoom | ⟨sz, m, pt, ⟨m', pt', hb, hpages, hpush⟩, hoom⟩
      · exact Or.inr hoom
      · obtain ⟨_, _, _, hpush', _, hfail⟩ := pushStack_block hb.le_MAXVA args hb.held.backed hpages
        cases hpush.symm.trans hpush'
        exact (hfail rfl).imp_right hoom
    | done push free =>
      exact ⟨fun _ => ⟨rfl, _, push.argBlock free rfl rfl rfl rfl⟩,
        fun _ _ hneg => absurd hneg (argc_ne args.short)⟩

end Xv6.Memory
