import Xv6.Memory.Footprint

/-!
# What faults and `fork` do to pages

A fault replaces one page of an image by a page of its own: `Replaced`.
`CowOutcome` has the outcomes of `cowHandler`, and `CopyOut` those of
`copyout`, which is a sequence of replaced pages that may stop early.

`uvmcopy` gives the new table the pages of the old one, with `PTE_W`
cleared in both.  `Copied` is the state of its loop, and `CopyFailed` is
what its error path leaves: the reference that was taken for the page whose
`mappages` failed is not given back.
-/

namespace Xv6.Memory

open Xv6.Lib Function

variable {L : Layout} {m m' m'' : Mem} {pt pt' pt'' : PageTable} {n v : Nat} {e : Pte}
  {f : Frame} {page : Page}

/-! ## Counted tables -/

/-- A table whose user pages are counted. -/
structure Backed (L : Layout) (m : Mem) (pt : PageTable) : Prop where
  ok : Ok L m
  user_below : ∀ v e, v < MAXVPN → pt.leaf v = some e → e.flags.u = true → v < TRAPFRAME
  leaves_le : ∀ f, leaves pt.leaf f ≤ m.refcnt f

theorem Held.backed (h : Held L m pt n) : Backed L m pt := by
  refine ⟨h.ok, ?_, h.leaves_le⟩
  intro v e hv he hu
  by_contra hge
  obtain ⟨e', he', hu'⟩ := h.image.top v (Nat.le_of_not_lt hge) hv
  cases he.symm.trans he'
  rw [hu] at hu'
  cases hu'

theorem Backed.refcnt_pos (h : Backed L m pt) (hv : v < TRAPFRAME) (he : pt.leaf v = some e) :
    1 ≤ m.refcnt e.ppn :=
  (leaves_pos hv he).trans (h.leaves_le e.ppn)

/-! ## Replacing a page -/

/-- The user page `v` moves to the new page `f`, which holds `page`. -/
structure Replaced (L : Layout) (m : Mem) (pt : PageTable) (v : Nat) (e : Pte) (f : Frame)
    (page : Page) (m' : Mem) (pt' : PageTable) : Prop where
  before : pt.leaf v = some e
  user : e.flags.u = true
  below : v < TRAPFRAME
  counted : 1 ≤ m.refcnt e.ppn
  fresh : m.refcnt f = 0
  shift : Shift L m m' (one e.ppn) (one f)
  leaf : pt'.leaf = update pt.leaf v (some (e.copied f))
  tables : tables pt' = tables pt
  page : m'.bytes f = page

theorem leaves_replace {leaf : Nat → Option Pte} (hv : v < TRAPFRAME) (he : leaf v = some e)
    (e' : Pte) :
    leaves (update leaf v (some e')) + one e.ppn = leaves leaf + one e'.ppn := by
  have hset := leaves_set (update leaf v none) hv
    (update_self v none leaf) e'
  rw [update_idem] at hset
  rw [hset, leaves_clear hv he, add_assoc, add_assoc, add_comm (one e.ppn)]

section Replaced

variable (h : Replaced L m pt v e f page m' pt')
include h

theorem Replaced.ne : e.ppn ≠ f := by
  intro heq
  have h1 := h.counted
  rw [heq, h.fresh] at h1
  omega

/-- Nobody else refers to the new page. -/
theorem Replaced.alone : m'.refcnt f = 1 := by
  have h1 := h.shift.balance f
  rw [one_self, one_of_ne h.ne.symm, h.fresh] at h1
  omega

/-- A store into the new page. -/
theorem Replaced.write (page' : Page) : Replaced L m pt v e f page' (m'.write f page') pt' where
  before := h.before
  user := h.user
  below := h.below
  counted := h.counted
  fresh := h.fresh
  shift := h.shift.trans (write_shift h.alone page')
  leaf := h.leaf
  tables := h.tables
  page := update_self _ _ _

/-- The move, as a transfer of the shares of the entries. -/
theorem Replaced.shift_leaves : Shift L m m' (leaves pt.leaf) (leaves pt'.leaf) := by
  have hsum := leaves_replace h.below h.before (e.copied f)
  rw [← h.leaf] at hsum
  have hle : ∀ g, one e.ppn g ≤ leaves pt.leaf g := by
    intro g
    by_cases hg : g = e.ppn
    · rw [hg, one_self]
      exact leaves_pos h.below h.before
    · rw [one_of_ne hg]
      exact Nat.zero_le _
  -- the shares that stay as they are
  have hadd := h.shift.add (fun g => leaves pt.leaf g - one e.ppn g)
  refine hadd.congr ?_ ?_
  · intro g
    have h1 := hle g
    simp only [Pi.add_apply]
    omega
  · intro g
    have h1 := hle g
    have h2 := congrFun hsum g
    simp only [Pi.add_apply, Pte.copied] at h2 ⊢
    omega

/-- The move, as a transfer of the shares of the image. -/
theorem Replaced.shift_owned : Shift L m m' (Memory.owned pt) (Memory.owned pt') := by
  refine (h.shift_leaves.add (Memory.tables pt)).congr ?_ ?_
  · intro g
    simp only [Memory.owned, Pi.add_apply]
    omega
  · intro g
    simp only [Memory.owned, h.tables, Pi.add_apply]
    omega

theorem Replaced.held (hh : Held L m pt n) : Held L m' pt' n := by
  have hv := h.below
  have hvn : v < n := (hh.image.mapped v hv).mp (by rw [h.before]; rfl)
  have hother : ∀ w, w ≠ v → pt'.leaf w = pt.leaf w := by
    intro w hw
    rw [h.leaf, update_of_ne hw]
  have hat : pt'.leaf v = some (e.copied f) := by rw [h.leaf, update_self]
  -- the pages of the other entries are counted, and `f` was not
  have hne : ∀ w e', w < TRAPFRAME → w ≠ v → pt'.leaf w = some e' → e'.ppn ≠ f := by
    intro w e' hw hwv he' heq
    rw [hother w hwv] at he'
    have hpos := hh.refcnt_pos hw he'
    rw [heq, h.fresh] at hpos
    omega
  refine ⟨h.shift.ok hh.ok, ⟨?_, ?_, ?_, ?_, ?_⟩,
    covered_of_shift h.shift_owned hh.covered, hh.bound⟩
  · intro w hw
    by_cases hwv : w = v
    · rw [hwv, hat]
      exact iff_of_true rfl hvn
    · rw [hother w hwv]
      exact hh.image.mapped w hw
  · intro w e' he'
    by_cases hwv : w = v
    · rw [hwv, hat] at he'
      cases he'
      rfl
    · rw [hother w hwv] at he'
      exact hh.image.readable w e' he'
  · intro w hle hlt
    rw [hother w (by omega)]
    exact hh.image.top w hle hlt
  · intro w hw
    rw [hother w (by have := TRAPFRAME_lt; omega)]
    exact hh.image.high w hw
  · intro w w' e1 e2 hw hw' he1 he2 heq
    by_cases h1 : w = v
    · by_cases h2 : w' = v
      · omega
      · rw [h1, hat] at he1
        cases he1
        exact absurd heq.symm (hne w' e2 hw' h2 he2)
    · by_cases h2 : w' = v
      · rw [h2, hat] at he2
        cases he2
        exact absurd heq (hne w e1 hw h1 he1)
      · rw [hother w h1] at he1
        rw [hother w' h2] at he2
        exact hh.image.distinct w w' e1 e2 hw hw' he1 he2 heq

/-- The move keeps the table counted. -/
theorem Replaced.backed (hb : Backed L m pt) : Backed L m' pt' := by
  refine ⟨h.shift.ok hb.ok, ?_, ?_⟩
  · intro w e' hw he' hu'
    rw [h.leaf, update_apply] at he'
    split at he'
    · rename_i hwv
      rw [hwv]
      exact h.below
    · exact hb.user_below w e' hw he' hu'
  · intro g
    have hl := congrFun (leaves_replace h.below h.before (e.copied f)) g
    have hbal := h.shift.balance g
    have hle := hb.leaves_le g
    rw [← h.leaf] at hl
    simp only [Pi.add_apply, Pte.copied] at hl
    omega

theorem Replaced.renewed (a : Frame → Nat) : Renewed (Elsewhere m a) pt pt' := by
  intro w e' _ he' ho
  rw [h.leaf, update_apply] at he'
  split at he'
  · cases he'
    exact absurd ho (not_elsewhere h.fresh)
  · exact ⟨e', he', rfl, id⟩

end Replaced

/-! ## `cowHandler` -/

/-- The addresses at which `cowHandler` goes on to copy the page. -/
def Cowable (pt : PageTable) (va : Nat) : Prop :=
  va < MAXVA ∧ va ≠ 0 ∧ ∃ e, pt.leaf (va / PGSIZE) = some e ∧ e.flags.u = true

/-- The outcomes of `cowHandler`. -/
inductive CowOutcome (L : Layout) (m : Mem) (pt : PageTable) (va : Nat) :
    Bool → Mem → PageTable → Prop
  | invalid (h : ¬ Cowable pt va) : CowOutcome L m pt va false m pt
  | oom (h : Cowable pt va) : CowOutcome L m pt va false { m with oom := true } pt
  | copied {e : Pte} {f : Frame} {m' : Mem} {pt' : PageTable} (h : Cowable pt va)
      (hr : Replaced L m pt (va / PGSIZE) e f (m.bytes e.ppn) m' pt') :
      CowOutcome L m pt va true m' pt'

theorem cowPage_spec (h : Backed L m pt) (he : pt.leaf v = some e) (hu : e.flags.u = true)
    (hv : v < TRAPFRAME) :
    (m.freelist = [] ∧ cowPage L v e pt m = .ok (false, { m with oom := true }, pt)) ∨
      (m.freelist ≠ [] ∧ ∃ f m' pt', cowPage L v e pt m = .ok (true, m', pt') ∧
        Replaced L m pt v e f (m.bytes e.ppn) m' pt') := by
  have hcount := h.refcnt_pos hv he
  unfold cowPage allocateAndCopyPage
  rw [if_pos hu]
  cases hfree : m.freelist with
  | nil =>
    refine Or.inl ⟨rfl, ?_⟩
    rw [kalloc_none hfree, ← hfree]
    rfl
  | cons f rest =>
    obtain ⟨m1, hrun1, ha⟩ := kalloc_some h.ok hfree
    have hne : e.ppn ≠ f := by
      intro heq
      rw [heq, ha.unused] at hcount
      omega
    have hcopy : Shift L m (m1.write f (m1.bytes e.ppn)) 0 (one f) := ha.fill _
    obtain ⟨m2, hrun2, hs2, hother, _⟩ := kfree_spec (hcopy.ok h.ok) (f := e.ppn) (by
      have h1 := hcopy.balance e.ppn
      rw [one_of_ne hne, Pi.zero_apply] at h1
      omega)
    have hlow : (pt.low (px 2 v) (px 1 v)).isSome := pt.leaf_low v (by rw [he]; rfl)
    obtain ⟨hleaf, hlow', hmid', hroot'⟩ := setLeaf_eq hlow (e.copied f)
    refine Or.inr ⟨by simp, f, m2, pt.setLeaf v (e.copied f), ?_,
      ⟨he, hu, hv, hcount, ha.unused, ?_, hleaf, tables_congr hroot' hmid' hlow', ?_⟩⟩
    · rw [hrun1]
      show (kfree L e.ppn (m1.write f (m1.bytes e.ppn)) >>= _) = _
      rw [hrun2]
      rfl
    · refine Shift.trans ((hcopy.add (one e.ppn)).congr ?_ (fun _ => rfl))
        ((hs2.add (one f)).congr ?_ ?_)
      · intro g
        simp
      · intro g
        simp [Nat.add_comm]
      · intro g
        simp
    · rw [hother f hne.symm]
      show update m1.bytes f (m1.bytes e.ppn) f = m.bytes e.ppn
      rw [update_self, ha.others e.ppn hne]

variable {va dstva i : Nat} {src : List UInt8} {r : Bool}

/-- `cowHandler` at a user page.  It copies the page if some page is free. -/
theorem cowHandler_cowable (h : Backed L m pt) (hc : Cowable pt va) :
    (m.freelist = [] ∧ cowHandler L va pt m = .ok (false, { m with oom := true }, pt)) ∨
      (m.freelist ≠ [] ∧ ∃ e f m' pt', cowHandler L va pt m = .ok (true, m', pt') ∧
        Replaced L m pt (va / PGSIZE) e f (m.bytes e.ppn) m' pt') := by
  obtain ⟨hmax, hzero, e, he, hu⟩ := hc
  have hlt : va / PGSIZE < MAXVPN := by
    unfold MAXVA at hmax
    exact Nat.div_lt_of_lt_mul (by rw [Nat.mul_comm]; omega)
  have hrun : cowHandler L va pt m = cowPage L (va / PGSIZE) e pt m := by
    rw [cowHandler, if_neg (by omega), if_neg hzero, walk_leaf hlt he]
    rfl
  rw [hrun]
  rcases cowPage_spec h he hu (h.user_below _ e hlt he hu) with
    hnone | ⟨hsome, f, m', pt', hpage, hr⟩
  · exact Or.inl hnone
  · exact Or.inr ⟨hsome, e, f, m', pt', hpage, hr⟩

/-- `cowHandler` at any other address. -/
theorem cowHandler_invalid (hc : ¬Cowable pt va) : cowHandler L va pt m = .ok (false, m, pt) := by
  unfold cowHandler
  by_cases hmax : va ≥ MAXVA
  · exact if_pos hmax
  rw [if_neg hmax]
  by_cases hzero : va = 0
  · exact if_pos hzero
  rw [if_neg hzero]
  have hlt : va / PGSIZE < MAXVPN := by
    unfold MAXVA at hmax
    exact Nat.div_lt_of_lt_mul (by rw [Nat.mul_comm]; omega)
  cases he : pt.leaf (va / PGSIZE) with
  | none => rcases walk_none hlt he with hw | hw <;> rw [hw] <;> rfl
  | some e =>
    have hu : ¬e.flags.u = true := fun hu => hc ⟨by omega, hzero, e, he, hu⟩
    rw [walk_leaf hlt he]
    show cowPage L (va / PGSIZE) e pt m = _
    rw [cowPage, if_neg hu]

theorem cowHandler_spec (h : Backed L m pt) (va : Nat) :
    ∃ r m' pt', cowHandler L va pt m = .ok (r, m', pt') ∧ CowOutcome L m pt va r m' pt' := by
  by_cases hc : Cowable pt va
  · rcases cowHandler_cowable h hc with ⟨_, hrun⟩ | ⟨_, e, f, m', pt', hrun, hr⟩
    · exact ⟨_, _, _, hrun, .oom hc⟩
    · exact ⟨_, _, _, hrun, .copied hc hr⟩
  · exact ⟨_, _, _, cowHandler_invalid hc, .invalid hc⟩

/-! ## `copyout` -/

/-- The outcomes of `copyout`. -/
inductive CopyOut (L : Layout) :
    Nat → List UInt8 → Mem → PageTable → Bool → Mem → PageTable → Prop
  | done {dstva : Nat} {m : Mem} {pt : PageTable} : CopyOut L dstva [] m pt true m pt
  | invalid {dstva : Nat} {src : List UInt8} {m : Mem} {pt : PageTable} (hsrc : src ≠ [])
      (h : ¬ Cowable pt (pgrounddown dstva)) : CopyOut L dstva src m pt false m pt
  | oom {dstva : Nat} {src : List UInt8} {m : Mem} {pt : PageTable} (hsrc : src ≠ [])
      (h : Cowable pt (pgrounddown dstva)) :
      CopyOut L dstva src m pt false { m with oom := true } pt
  | page {dstva : Nat} {src : List UInt8} {m m₁ m' : Mem} {pt pt₁ pt' : PageTable} {r : Bool}
      {e : Pte} {f : Frame} (hsrc : src ≠ []) (h : Cowable pt (pgrounddown dstva))
      (hr : Replaced L m pt (dstva / PGSIZE) e f
        (patch (m.bytes e.ppn) (dstva % PGSIZE) (src.take (chunk dstva src.length))) m₁ pt₁)
      (hrest : CopyOut L (pgrounddown dstva + PGSIZE) (src.drop (chunk dstva src.length))
        m₁ pt₁ r m' pt') :
      CopyOut L dstva src m pt r m' pt'

/-- `walkaddr` of any address. -/
theorem walkaddr_eq (pt : PageTable) (va : Nat) :
    walkaddr pt va = .ok (if va ≥ MAXVA then none else
      (pt.leaf (va / PGSIZE)).bind (fun e => if e.flags.u then some e.ppn else none)) := by
  unfold walkaddr
  by_cases hva : va ≥ MAXVA
  · rw [if_pos hva, if_pos hva]
  · have hlt : va / PGSIZE < MAXVPN := by
      unfold MAXVA at hva
      exact Nat.div_lt_of_lt_mul (by rw [Nat.mul_comm]; omega)
    rw [if_neg hva, if_neg hva]
    cases he : pt.leaf (va / PGSIZE) with
    | none => rcases walk_none hlt he with hw | hw <;> rw [hw] <;> rfl
    | some e =>
      rw [walk_leaf hlt he]
      rfl

theorem walkaddr_pgrounddown (pt : PageTable) (va : Nat) :
    walkaddr pt (pgrounddown va) = walkaddr pt va := by
  rw [walkaddr_eq, walkaddr_eq, pgrounddown_div]
  by_cases hmax : va < MAXVA
  · rw [if_neg (Nat.not_le.mpr (pgrounddown_lt_MAXVA.mpr hmax)), if_neg (Nat.not_le.mpr hmax)]
  · rw [if_pos (Nat.not_lt.mp (fun h => hmax (pgrounddown_lt_MAXVA.mp h))),
      if_pos (Nat.not_lt.mp hmax)]

theorem walkaddr_user (hva : va < MAXVA) (he : pt.leaf (va / PGSIZE) = some e)
    (hu : e.flags.u = true) : walkaddr pt va = .ok (some e.ppn) := by
  rw [walkaddr_eq, if_neg (by omega), he, Option.bind_some, if_pos hu]

/-- One iteration of `copyout`, if `cowHandler` refuses the page. -/
theorem copyoutLoop_refused {fuel : Nat} (hsrc : src ≠ [])
    (hrun : cowHandler L (pgrounddown dstva) pt m = .ok (false, m', pt)) (hc : m' = m ∨
      Cowable pt (pgrounddown dstva)) :
    copyoutLoop L (fuel + 1) dstva src pt m = .ok (false, m', pt) := by
  have hpos : src.length ≠ 0 := fun hz => hsrc (List.eq_nil_of_length_eq_zero hz)
  rw [copyoutLoop, if_neg hpos]
  by_cases hmax : pgrounddown dstva > MAXVA
  · rw [if_pos hmax, hc.resolve_right (fun hc => absurd hc.1 (by omega))]
  · rw [if_neg hmax, hrun]
    rfl

/-- One iteration of `copyout`, if `cowHandler` copies the page. -/
theorem copyoutLoop_copied (fuel : Nat) (hsrc : src ≠ []) (hc : Cowable pt (pgrounddown dstva))
    (hrun : cowHandler L (pgrounddown dstva) pt m = .ok (true, m', pt'))
    (hr : Replaced L m pt (pgrounddown dstva / PGSIZE) e f (m.bytes e.ppn) m' pt') :
    ∃ m1, Replaced L m pt (dstva / PGSIZE) e f
        (patch (m.bytes e.ppn) (dstva % PGSIZE) (src.take (chunk dstva src.length))) m1 pt' ∧
      copyoutLoop L (fuel + 1) dstva src pt m =
        copyoutLoop L fuel (pgrounddown dstva + PGSIZE) (src.drop (chunk dstva src.length)) pt'
          m1 := by
  have hpos : src.length ≠ 0 := fun hz => hsrc (List.eq_nil_of_length_eq_zero hz)
  have hat : pt'.leaf (pgrounddown dstva / PGSIZE) = some (e.copied f) := by
    rw [hr.leaf, update_self]
  have haddr : walkaddr pt' (pgrounddown dstva) = .ok (some f) :=
    walkaddr_user hc.1 hat rfl
  have hpage : m'.bytes f = m.bytes e.ppn := hr.page
  rw [pgrounddown_div] at hr
  refine ⟨_, hr.write (patch (m.bytes e.ppn) (dstva % PGSIZE)
    (src.take (chunk dstva src.length))), ?_⟩
  have hmax := hc.1
  rw [copyoutLoop, if_neg hpos, if_neg (by omega), hrun]
  show (walkaddr pt' (pgrounddown dstva) >>= _) = _
  rw [haddr, ← hpage]
  rfl

theorem copyoutLoop_spec :
    ∀ (fuel dstva : Nat) (src : List UInt8) {m : Mem} {pt : PageTable}, src.length ≤ fuel →
      Backed L m pt →
      ∃ r m' pt', copyoutLoop L fuel dstva src pt m = .ok (r, m', pt') ∧
        CopyOut L dstva src m pt r m' pt' := by
  intro fuel
  induction fuel with
  | zero =>
    intro dstva src m pt hlen _
    have hnil : src = [] := List.eq_nil_of_length_eq_zero (by omega)
    subst hnil
    exact ⟨true, m, pt, rfl, .done⟩
  | succ fuel ih =>
    intro dstva src m pt hlen h
    by_cases hnil : src = []
    · subst hnil
      exact ⟨true, m, pt, rfl, .done⟩
    obtain ⟨r1, m1, pt1, hrun1, hout⟩ := cowHandler_spec h (pgrounddown dstva)
    cases hout with
    | invalid hc =>
      exact ⟨false, m, pt, copyoutLoop_refused hnil hrun1 (Or.inl rfl), .invalid hnil hc⟩
    | oom hc =>
      exact ⟨false, _, pt, copyoutLoop_refused hnil hrun1 (Or.inr hc), .oom hnil hc⟩
    | copied hc hr =>
      obtain ⟨m2, hw, hrun2⟩ := copyoutLoop_copied fuel hnil hc hrun1 hr
      have hchunk : 0 < chunk dstva src.length := by
        have := Nat.mod_lt dstva (show 0 < PGSIZE by decide)
        have hpos := List.length_pos_iff.mpr hnil
        unfold chunk
        omega
      obtain ⟨r, m', pt', hrun, hrest⟩ := ih (pgrounddown dstva + PGSIZE)
        (src.drop (chunk dstva src.length)) (by rw [List.length_drop]; omega) (hw.backed h)
      exact ⟨r, m', pt', hrun2.trans hrun, .page hnil hc hw hrest⟩

/-- `copyout` returns. -/
theorem copyout_spec (h : Backed L m pt) (dstva : Nat) (src : List UInt8) :
    ∃ r m' pt', copyout L dstva src pt m = .ok (r, m', pt') ∧
      CopyOut L dstva src m pt r m' pt' :=
  copyoutLoop_spec src.length dstva src le_rfl h

/-- `copyout` only moves the shares of the image. -/
theorem CopyOut.shift (hc : CopyOut L dstva src m pt r m' pt') :
    Shift L m m' (owned pt) (owned pt') := by
  induction hc with
  | done => exact Shift.refl L _ _
  | invalid => exact Shift.refl L _ _
  | oom => exact shift_oom L _ _
  | page _ _ hr _ ih => exact hr.shift_owned.trans ih

theorem CopyOut.held (hc : CopyOut L dstva src m pt r m' pt') (h : Held L m pt n) :
    Held L m' pt' n := by
  induction hc with
  | done => exact h
  | invalid => exact h
  | oom =>
    exact ⟨(shift_oom L _ 0).ok h.ok, h.image, h.covered, h.bound⟩
  | page _ _ hr _ ih => exact ih (hr.held h)

theorem CopyOut.renewed (hc : CopyOut L dstva src m pt r m' pt') :
    Renewed (Elsewhere m (owned pt)) pt pt' := by
  induction hc with
  | done => exact .of_leaf rfl
  | invalid => exact .of_leaf rfl
  | oom => exact .of_leaf rfl
  | page _ _ hr _ ih =>
    exact (hr.renewed _).trans (ih.mono (fun _ => elsewhere_shift hr.shift_owned))

/-! ## `copyin` -/

theorem copyinLoop_returns (pt : PageTable) (m : Mem) :
    ∀ (fuel srcva len : Nat), ∃ r, copyinLoop pt m fuel srcva len = .ok r := by
  intro fuel
  induction fuel with
  | zero =>
    intro srcva len
    exact ⟨_, rfl⟩
  | succ fuel ih =>
    intro srcva len
    rw [copyinLoop]
    by_cases hlen : len = 0
    · exact ⟨_, if_pos hlen⟩
    rw [if_neg hlen, walkaddr_eq]
    obtain ⟨r, hr⟩ := ih (pgrounddown srcva + PGSIZE) (len - chunk srcva len)
    generalize (if pgrounddown srcva ≥ MAXVA then none else _) = addr
    cases addr with
    | none => exact ⟨none, rfl⟩
    | some f =>
      refine ⟨r.map (slice (m.bytes f) (srcva % PGSIZE) (chunk srcva len) ++ ·), ?_⟩
      show (copyinLoop pt m fuel _ _ >>= _) = _
      rw [hr]
      rfl

/-- `copyin` returns. -/
theorem copyin_returns (pt : PageTable) (srcva len : Nat) (m : Mem) :
    ∃ r, copyin pt srcva len m = .ok r :=
  copyinLoop_returns pt m len srcva len

/-! ## `uvmcopy` -/

/-- The page-table pages that mapping the pages below `i` takes. -/
def tableCost (i : Nat) : Nat := (i + 511) / 512 + (i + 262143) / 262144

theorem tableCost_mono {j : Nat} (h : i ≤ j) : tableCost i ≤ tableCost j :=
  Nat.add_le_add (Nat.div_le_div_right (by omega)) (Nat.div_le_div_right (by omega))

theorem tableCost_succ (i : Nat) :
    tableCost (i + 1) =
      tableCost i + ((if i % 262144 = 0 then 1 else 0) + (if i % 512 = 0 then 1 else 0)) := by
  unfold tableCost
  split <;> split <;> omega

section Copy

variable {old old' new new' : PageTable}

/-- The loop of `uvmcopy` after the pages below `i`. -/
structure Copied (L : Layout) (m : Mem) (old new : PageTable) (i : Nat) (m' : Mem)
    (old' new' : PageTable) : Prop where
  shift : ∃ dt dl, Shift L m m' 0 (dt + dl) ∧ tables new' = tables new + dt ∧
    leaves new'.leaf = leaves new.leaf + dl
  old_leaf : ∀ v, old'.leaf v = if v < i then (old.leaf v).map Pte.protect else old.leaf v
  old_tables : tables old' = tables old
  new_leaf : ∀ v, new'.leaf v = if v < i then (old.leaf v).map Pte.protect else new.leaf v
  mid : ∀ a, (new'.mid a).isSome ↔ (new.mid a).isSome ∨ ∃ v < i, a = px 2 v
  low : ∀ a b, (new'.low a b).isSome ↔ (new.low a b).isSome ∨ ∃ v < i, a = px 2 v ∧ b = px 1 v
  freelist : m'.freelist.length + tableCost i = m.freelist.length

/-- What the error path of `uvmcopy` leaves.  The page `pa` has a reference
that nobody holds. -/
structure CopyFailed (L : Layout) (m : Mem) (old new : PageTable) (n : Nat) (m' : Mem)
    (old' new' : PageTable) : Prop where
  shift : ∃ pa dt, Shift L m m' 0 (dt + one pa) ∧ tables new' = tables new + dt
  old_leaf : ∃ i, i ≤ n ∧
    ∀ v, old'.leaf v = if v < i then (old.leaf v).map Pte.protect else old.leaf v
  old_tables : tables old' = tables old
  new_leaf : new'.leaf = new.leaf
  oom : m'.oom = true

theorem Copied.refl (L : Layout) (m : Mem) (old new : PageTable) :
    Copied L m old new 0 m old new := by
  refine ⟨⟨0, 0, Shift.refl L m 0, by simp, by simp⟩, ?_, rfl, ?_, ?_, ?_, rfl⟩
  · intro v
    rw [if_neg (Nat.not_lt_zero v)]
  · intro v
    rw [if_neg (Nat.not_lt_zero v)]
  · intro a
    simp
  · intro a b
    simp

/-- The page-table pages for page `i`, when those below are mapped. -/
theorem Copied.need_eq (hc : Copied L m old new i m' old' new') (hf : Fresh new) (hi : i ≤ PHYSTOP)
    :
    need new' i = (if i % 262144 = 0 then 1 else 0) + (if i % 512 = 0 then 1 else 0) := by
  have hi' : i ≤ 557056 := hi
  have hmid : (new'.mid (px 2 i)).isSome ↔ ¬ i % 262144 = 0 := by
    rw [hc.mid, hf.mid]
    constructor
    · rintro (h1 | ⟨v, hv, h1⟩) h2 <;> unfold px at h1 <;> omega
    · intro h1
      refine Or.inr ⟨i - 1, by omega, ?_⟩
      unfold px
      omega
  have hlow : (new'.low (px 2 i) (px 1 i)).isSome ↔ ¬ i % 512 = 0 := by
    rw [hc.low, hf.low]
    constructor
    · rintro (h1 | ⟨v, hv, h1⟩) h2 <;> unfold px at h1 <;> omega
    · intro h1
      refine Or.inr ⟨i - 1, by omega, ?_, ?_⟩ <;> unfold px <;> omega
  unfold need
  by_cases h1 : i % 262144 = 0
  · by_cases h2 : i % 512 = 0
    · rw [if_neg (fun h => hmid.mp h h1), if_neg (fun h => hlow.mp h h2), if_pos h1, if_pos h2]
    · omega
  · by_cases h2 : i % 512 = 0
    · rw [if_pos (hmid.mpr h1), if_neg (fun h => hlow.mp h h2), if_neg h1, if_pos h2]
    · rw [if_pos (hmid.mpr h1), if_pos (hlow.mpr h2), if_neg h1, if_neg h2]

/-- `*pte &= ~PTE_W` in the old table. -/
theorem Copied.old_step (hc : Copied L m old new i m' old' new') (he : old.leaf i = some e) :
    tables (old'.setLeaf i e.protect) = tables old ∧
      ∀ v, (old'.setLeaf i e.protect).leaf v =
        if v < i + 1 then (old.leaf v).map Pte.protect else old.leaf v := by
  have he' : old'.leaf i = some e := by
    rw [hc.old_leaf, if_neg (Nat.lt_irrefl i)]
    exact he
  obtain ⟨hleaf, hlow, hmid, hroot⟩ :=
    setLeaf_eq (old'.leaf_low i (by rw [he']; rfl)) e.protect
  refine ⟨(tables_congr hroot hmid hlow).trans hc.old_tables, ?_⟩
  intro v
  rw [hleaf, update_apply]
  by_cases hv : v = i
  · rw [if_pos hv, if_pos (by omega), hv, he]
    rfl
  · rw [if_neg hv, hc.old_leaf]
    by_cases hlt : v < i
    · rw [if_pos hlt, if_pos (by omega)]
    · rw [if_neg hlt, if_neg (by omega)]

/-- One more page is copied. -/
theorem Copied.snoc {m1 : Mem} (hc : Copied L m old new i m' old' new') (h : Held L m old n)
    (hf : Fresh new) (hi : i < n) (he : old.leaf i = some e) (hs1 : Shift L m' m1 0 (one e.ppn))
    (hlen : m1.freelist = m'.freelist) {new'' : PageTable}
    (hm : Mapped L m1 new' i e.protect true m'' new'') :
    Copied L m old new (i + 1) m'' (old'.setLeaf i e.protect) new'' := by
  obtain ⟨dt, dl, hs, ht, hl⟩ := hc.shift
  obtain ⟨d, hs2, ht2⟩ := hm.shift
  obtain ⟨hot, hol⟩ := hc.old_step he
  have hlt : i < TRAPFRAME := hi.trans_le h.bound
  have hnone : new'.leaf i = none := by
    rw [hc.new_leaf, if_neg (Nat.lt_irrefl i)]
    exact hf.image.none hlt (Nat.zero_le i)
  have hleaf : new''.leaf = update new'.leaf i (some e.protect) := hm.leaf
  refine ⟨⟨dt + d, dl + one e.ppn, ?_, ?_, ?_⟩, hol, hot, ?_, ?_, ?_, ?_⟩
  · refine (hs.acquire (hs1.acquire hs2)).congr (fun _ => rfl) ?_
    intro g
    simp only [Pi.add_apply]
    omega
  · rw [ht2, ht, add_assoc]
  · rw [hleaf, leaves_set _ hlt hnone, hl, add_assoc]
    rfl
  · intro v
    rw [hleaf, update_apply]
    by_cases hv : v = i
    · rw [if_pos hv, if_pos (by omega), hv, he]
      rfl
    · rw [if_neg hv, hc.new_leaf]
      by_cases hlt' : v < i
      · rw [if_pos hlt', if_pos (by omega)]
      · rw [if_neg hlt', if_neg (by omega)]
  · intro a
    rw [hm.mid rfl, hc.mid, or_assoc]
    refine or_congr_right ⟨?_, ?_⟩
    · rintro (⟨v, hv, h1⟩ | h1)
      · exact ⟨v, by omega, h1⟩
      · exact ⟨i, by omega, h1⟩
    · rintro ⟨v, hv, h1⟩
      by_cases hvi : v = i
      · exact Or.inr (hvi ▸ h1)
      · exact Or.inl ⟨v, by omega, h1⟩
  · intro a b
    rw [hm.low rfl, hc.low, or_assoc]
    refine or_congr_right ⟨?_, ?_⟩
    · rintro (⟨v, hv, h1⟩ | h1)
      · exact ⟨v, by omega, h1⟩
      · exact ⟨i, by omega, h1⟩
    · rintro ⟨v, hv, h1⟩
      by_cases hvi : v = i
      · exact Or.inr (hvi ▸ h1)
      · exact Or.inl ⟨v, by omega, h1⟩
  · have h1 := hm.freelist rfl
    have h2 := hc.freelist
    have hle : i ≤ PHYSTOP := hi.le.trans h.le_PHYSTOP
    rw [hc.need_eq hf hle, hlen] at h1
    rw [tableCost_succ]
    omega

/-- The error path of `uvmcopy`. -/
theorem Copied.fail {m1 : Mem} (hc : Copied L m old new i m' old' new') (h : Held L m old n)
    (hf : Fresh new) (hi : i < n) (he : old.leaf i = some e) (hs1 : Shift L m' m1 0 (one e.ppn))
    {new'' : PageTable} (hm : Mapped L m1 new' i e.protect false m'' new'') :
    ∃ m3 new3, uvmunmap L true i 0 new'' m'' = .ok (m3, new3) ∧
      CopyFailed L m old new n m3 (old'.setLeaf i e.protect) new3 := by
  obtain ⟨dt, dl, hs, ht, hl⟩ := hc.shift
  obtain ⟨d, hs2, ht2⟩ := hm.shift
  obtain ⟨hot, hol⟩ := hc.old_step he
  have hleaf : new''.leaf = new'.leaf := hm.leaf
  have hbound := h.bound
  have hzero : leaves new.leaf = 0 :=
    leaves_of_none (fun v hv => hf.image.none hv (Nat.zero_le v))
  have hshift : Shift L m m'' 0 (dt + d + one e.ppn + dl) := by
    refine (hs.acquire (hs1.acquire hs2)).congr (fun _ => rfl) ?_
    intro g
    simp only [Pi.add_apply]
    omega
  obtain ⟨m3, new3, hrun, hu⟩ := uvmunmap_free i 0 new'' (hshift.ok h.ok) (by omega)
    (by
      intro w _ hw
      obtain ⟨e', he', hr'⟩ := h.isSome (v := w) (by omega)
      refine ⟨e'.protect, ?_, hr'⟩
      rw [hleaf, hc.new_leaf, if_pos (by omega), he']
      rfl)
    (by
      intro g
      have h1 := hshift.balance g
      rw [hleaf, hl, hzero, zero_add]
      simp only [Pi.add_apply, Pi.zero_apply] at h1
      omega)
  obtain ⟨c, hs3, hcl⟩ := hu.shift
  have hback : new3.leaf = new.leaf := by
    funext w
    rw [hu.leaf, hleaf, hc.new_leaf]
    by_cases hw : w < i
    · rw [if_pos (by omega), hf.image.none (by omega) (Nat.zero_le w)]
    · rw [if_neg (by omega), if_neg hw]
  have hcdl : c = dl := by
    rw [hback, hleaf, hl] at hcl
    exact (add_left_cancel hcl).symm
  refine ⟨m3, new3, hrun, ⟨e.ppn, dt + d, ?_, ?_⟩, ⟨i + 1, hi, hol⟩, hot, hback, ?_⟩
  · refine hshift.trans ((hs3.add (dt + d + one e.ppn)).congr ?_ ?_)
    · intro g
      rw [hcdl]
      simp only [Pi.add_apply]
      omega
    · intro g
      simp
  · rw [hu.tables, ht2, ht, add_assoc]
  · rw [hu.oom]
    exact hm.failed rfl

theorem uvmcopyLoop_spec (h : Held L m old n) (hf : Fresh new) :
    ∀ (k i : Nat) {m' : Mem} {old' new' : PageTable}, i + k = n →
      Copied L m old new i m' old' new' →
      ∃ r m'' old'' new'', uvmcopyLoop L k i old' new' m' = .ok (r, m'', old'', new'') ∧
        ((r = true ∧ Copied L m old new n m'' old'' new'') ∨
          (r = false ∧ CopyFailed L m old new n m'' old'' new'' ∧
            m.freelist.length < tableCost n)) := by
  intro k
  induction k with
  | zero =>
    intro i m' old' new' hik hc
    rw [Nat.add_zero] at hik
    subst hik
    exact ⟨true, m', old', new', rfl, Or.inl ⟨rfl, hc⟩⟩
  | succ k ih =>
    intro i m' old' new' hik hc
    have hi : i < n := by omega
    have hlt : i < TRAPFRAME := hi.trans_le h.bound
    have hmax := hlt.trans TRAPFRAME_lt
    obtain ⟨e, he, _⟩ := h.isSome hi
    obtain ⟨dt, dl, hs, ht, hl⟩ := hc.shift
    have he' : old'.leaf i = some e := by
      rw [hc.old_leaf, if_neg (Nat.lt_irrefl i)]
      exact he
    have hpos : 1 ≤ m'.refcnt e.ppn := by
      have h1 := hs.balance e.ppn
      have h2 := h.refcnt_pos hlt he
      simp only [Pi.zero_apply] at h1
      omega
    obtain ⟨m1, hrun1, hs1, _, hlen, _⟩ := increaseCnt_spec (hs.ok h.ok) hpos
    have hnone : new'.leaf i = none := by
      rw [hc.new_leaf, if_neg (Nat.lt_irrefl i)]
      exact hf.image.none hlt (Nat.zero_le i)
    obtain ⟨r, m2, new2, hrun2, hm⟩ := mappages_spec (hs1.ok (hs.ok h.ok)) new' hmax hnone e.protect
    have hloop : uvmcopyLoop L (k + 1) i old' new' m' =
        if r then uvmcopyLoop L k (i + 1) (old'.setLeaf i e.protect) new2 m2
        else (uvmunmap L true i 0 new2 m2 >>= fun q =>
          .ok (false, q.1, old'.setLeaf i e.protect, q.2)) := by
      rw [uvmcopyLoop, walk_leaf hmax he']
      show (increaseCnt e.ppn m' >>= _) = _
      rw [hrun1]
      show (mappages new' i e.protect m1 >>= _) = _
      rw [hrun2]
      rfl
    cases hr : r with
    | true =>
      rw [hr] at hm hloop
      have hc' := hc.snoc h hf hi he hs1 hlen hm
      obtain ⟨r', m', old', new', hrun', hend⟩ := ih (i + 1) (by omega) hc'
      exact ⟨r', m', old', new', hloop.trans hrun', hend⟩
    | false =>
      rw [hr] at hm hloop
      obtain ⟨m3, new3, hrun3, hfail⟩ := hc.fail h hf hi he hs1 hm
      refine ⟨false, m3, old'.setLeaf i e.protect, new3, ?_, Or.inr ⟨rfl, hfail, ?_⟩⟩
      · rw [hloop, if_neg Bool.false_ne_true, hrun3]
        rfl
      · have hshort : ¬ need new' i ≤ m1.freelist.length :=
          fun hle => Bool.false_ne_true (hm.found.mpr hle)
        have hle : i ≤ PHYSTOP := hi.le.trans h.le_PHYSTOP
        have hcost := tableCost_mono (show i + 1 ≤ n from hi)
        have hfree := hc.freelist
        rw [hc.need_eq hf hle, hlen] at hshort
        rw [tableCost_succ] at hcost
        omega

/-- `uvmcopy` copies all pages, or fails for lack of page-table pages. -/
theorem uvmcopy_spec {sz : Nat} (h : Held L m old (pages sz)) (hf : Fresh new) :
    ∃ r m' old' new', uvmcopy L old new sz m = .ok (r, m', old', new') ∧
      ((r = true ∧ Copied L m old new (pages sz) m' old' new') ∨
        (r = false ∧ CopyFailed L m old new (pages sz) m' old' new' ∧
          m.freelist.length < tableCost (pages sz))) :=
  uvmcopyLoop_spec h hf (pages sz) 0 (Nat.zero_add _) (Copied.refl L m old new)

/-- The old table keeps its shape and its shares. -/
theorem image_protect (h : Image old n)
    (hl : ∀ v, old'.leaf v = if v < i then (old.leaf v).map Pte.protect else old.leaf v) :
    Image old' n ∧ leaves old'.leaf = leaves old.leaf := by
  have hsome : ∀ {v e'}, old'.leaf v = some e' →
      ∃ e, old.leaf v = some e ∧ e'.ppn = e.ppn ∧ e'.flags.r = e.flags.r := by
    intro v e' he'
    rw [hl] at he'
    split at he'
    · obtain ⟨e, he, rfl⟩ := Option.map_eq_some_iff.mp he'
      exact ⟨e, he, rfl, rfl⟩
    · exact ⟨e', he', rfl, rfl⟩
  have hdom : ∀ v, (old'.leaf v).isSome = (old.leaf v).isSome := by
    intro v
    rw [hl]
    split
    · exact Option.isSome_map
    · rfl
  refine ⟨⟨?_, ?_, ?_, ?_, ?_⟩, ?_⟩
  · intro v hv
    rw [hdom]
    exact h.mapped v hv
  · intro v e' he'
    obtain ⟨e, he, _, hr⟩ := hsome he'
    rw [hr]
    exact h.readable v e he
  · intro v hle hlt
    obtain ⟨e, he, hu⟩ := h.top v hle hlt
    rw [hl, he]
    split
    · exact ⟨e.protect, rfl, hu⟩
    · exact ⟨e, rfl, hu⟩
  · intro v hv
    rw [hl, h.high v hv]
    simp
  · intro v w e1 e2 hv hw he1 he2 heq
    obtain ⟨e1', h1, hp1, _⟩ := hsome he1
    obtain ⟨e2', h2, hp2, _⟩ := hsome he2
    exact h.distinct v w e1' e2' hv hw h1 h2 (by rw [← hp1, heq, hp2])
  · refine tally_congr ?_
    intro v _
    rw [hl]
    split
    · rw [Option.map_map]
      rfl
    · rfl

/-- The new table has the shape of the old one. -/
theorem Copied.new_image (hc : Copied L m old new n m' old' new') (h : Held L m old n)
    (hf : Fresh new) : Image new' n := by
  have hbound := h.bound
  have hlow : ∀ {v e'}, v < TRAPFRAME → new'.leaf v = some e' →
      ∃ e, v < n ∧ old.leaf v = some e ∧ e' = e.protect := by
    intro v e' hv he'
    rw [hc.new_leaf] at he'
    split at he'
    · obtain ⟨e, he, rfl⟩ := Option.map_eq_some_iff.mp he'
      exact ⟨e, by assumption, he, rfl⟩
    · rw [hf.image.none hv (Nat.zero_le v)] at he'
      cases he'
  refine ⟨?_, ?_, ?_, ?_, ?_⟩
  · intro v hv
    rw [hc.new_leaf]
    split
    · rw [Option.isSome_map, h.image.mapped v hv]
    · rw [hf.image.none hv (Nat.zero_le v)]
      simpa using Nat.le_of_not_lt ‹_›
  · intro v e' he'
    rw [hc.new_leaf] at he'
    split at he'
    · obtain ⟨e, he, rfl⟩ := Option.map_eq_some_iff.mp he'
      exact h.image.readable v e he
    · exact hf.image.readable v e' he'
  · intro v hle hlt
    rw [hc.new_leaf, if_neg (by omega)]
    exact hf.image.top v hle hlt
  · intro v hv
    rw [hc.new_leaf, if_neg (by have := TRAPFRAME_lt; omega)]
    exact hf.image.high v hv
  · intro v w e1 e2 hv hw he1 he2 heq
    obtain ⟨e1', _, h1, rfl⟩ := hlow hv he1
    obtain ⟨e2', _, h2, rfl⟩ := hlow hw he2
    exact h.image.distinct v w e1' e2' hv hw h1 h2 heq

end Copy

end Xv6.Memory
