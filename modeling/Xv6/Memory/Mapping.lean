import Xv6.Lib.Transition
import Xv6.Memory.PageTable

/-!
# What the page-table functions do

One specification for each function of `PageTable`: it returns, its result
and the entries afterwards, and the shares that it acquires or releases.
-/

namespace Xv6.Memory

open Xv6.Lib Function

variable {L : Layout} {m m' : Mem} {pt pt' : PageTable}

/-! ## Shares -/

/-- The entries of `a` tables with `b` entries each.  It is not unfolded, as
the terms are large. -/
@[irreducible] def grid (a b : Nat) : Finset (Nat × Nat) := Finset.range a ×ˢ Finset.range b

variable {i v n : Nat} {leaf : Nat → Option Pte} {e : Pte}

theorem mem_grid {a b j : Nat} : (i, j) ∈ grid a b ↔ i < a ∧ j < b := by
  rw [grid, Finset.mem_product, Finset.mem_range, Finset.mem_range]

/-- The shares of a page table in its own pages. -/
def tables (pt : PageTable) : Frame → Nat :=
  one pt.root + tally (Finset.range 256) pt.mid +
    tally (grid 256 512) (fun ij => pt.low ij.1 ij.2)

/-- The shares of leaf entries in the user pages. -/
def leaves (leaf : Nat → Option Pte) : Frame → Nat :=
  tally (Finset.range TRAPFRAME) (fun v => (leaf v).map Pte.ppn)

/-- All shares of a page table. -/
def owned (pt : PageTable) : Frame → Nat := tables pt + leaves pt.leaf

theorem leaves_set (leaf : Nat → Option Pte) (hv : v < TRAPFRAME) (hnone : leaf v = none) (e : Pte)
    :
    leaves (update leaf v (some e)) = leaves leaf + one e.ppn := by
  have hset := tally_set (p := fun v => (leaf v).map Pte.ppn) (g := e.ppn)
    (Finset.mem_range.mpr hv) (by rw [hnone]; rfl)
  refine Eq.trans (congrArg (tally _) ?_) hset
  funext v'
  by_cases hv' : v' = v
  · simp [hv']
  · simp [hv']

theorem leaves_clear (hv : v < TRAPFRAME) (hsome : leaf v = some e) :
    leaves leaf = leaves (update leaf v none) + one e.ppn := by
  have hset := leaves_set (update leaf v none) hv (update_self v none leaf) e
  rw [update_idem, ← hsome, update_eq_self] at hset
  exact hset

/-- The entries of the trampoline and of the trapframe are not counted. -/
theorem leaves_top (hv : TRAPFRAME ≤ v) (e : Option Pte) :
    leaves (update leaf v e) = leaves leaf := by
  refine tally_congr ?_
  intro v' hv'
  have hne : v' ≠ v := by
    have := Finset.mem_range.mp hv'
    omega
  rw [update_of_ne hne]

theorem leaves_pos (hv : v < TRAPFRAME) (hsome : leaf v = some e) : 1 ≤ leaves leaf e.ppn :=
  tally_pos (Finset.mem_range.mpr hv) (by rw [hsome]; rfl)

/-! ## Indices -/

theorem px_two_lt (hv : v < MAXVPN) : px 2 v < 256 := by
  rw [MAXVPN_eq] at hv
  unfold px
  omega

theorem px_one_lt (v : Nat) : px 1 v < 512 := Nat.mod_lt _ (by decide)

/-! ## Updates of a page table -/

@[simp] theorem setMid_mid (pt : PageTable) (i : Nat) (f : Frame) :
    (pt.setMid i f).mid = update pt.mid i (some f) := rfl

theorem setLow_eq (h : (pt.mid i).isSome) (j : Nat) (f : Frame) :
    (pt.setLow i j f).low = update pt.low i (update (pt.low i) j (some f)) ∧
      (pt.setLow i j f).mid = pt.mid ∧ (pt.setLow i j f).leaf = pt.leaf ∧
      (pt.setLow i j f).root = pt.root := by
  rw [PageTable.setLow, dif_pos h]
  exact ⟨rfl, rfl, rfl, rfl⟩

theorem setLeaf_eq (h : (pt.low (px 2 v) (px 1 v)).isSome) (e : Pte) :
    (pt.setLeaf v e).leaf = update pt.leaf v (some e) ∧
      (pt.setLeaf v e).low = pt.low ∧ (pt.setLeaf v e).mid = pt.mid ∧
      (pt.setLeaf v e).root = pt.root := by
  rw [PageTable.setLeaf, dif_pos h]
  exact ⟨rfl, rfl, rfl, rfl⟩

@[simp] theorem clearLeaf_leaf (pt : PageTable) (v : Nat) :
    (pt.clearLeaf v).leaf = update pt.leaf v none := rfl

@[simp] theorem tables_clearLeaf (pt : PageTable) (v : Nat) :
    tables (pt.clearLeaf v) = tables pt := rfl

theorem tables_congr (hroot : pt'.root = pt.root) (hmid : pt'.mid = pt.mid)
    (hlow : pt'.low = pt.low) : tables pt' = tables pt := by
  unfold tables
  rw [hroot, hmid, hlow]

theorem tables_setMid (hi : i < 256) (hnone : pt.mid i = none) (f : Frame) :
    tables (pt.setMid i f) = tables pt + one f := by
  have hset := tally_set (p := pt.mid) (g := f) (Finset.mem_range.mpr hi) hnone
  unfold tables
  rw [setMid_mid, hset]
  funext g
  simp only [Pi.add_apply, PageTable.setMid]
  omega

theorem tables_setLow {j : Nat} (hi : i < 256) (hj : j < 512) (hmid : (pt.mid i).isSome)
    (hnone : pt.low i j = none) (f : Frame) : tables (pt.setLow i j f) = tables pt + one f := by
  obtain ⟨hlow, hmid', _, hroot⟩ := setLow_eq hmid j f
  have hmem := mem_grid.mpr ⟨hi, hj⟩
  have hset := tally_set (p := fun ij : Nat × Nat => pt.low ij.1 ij.2) (g := f) hmem hnone
  have hfun : (fun ij : Nat × Nat => (pt.setLow i j f).low ij.1 ij.2) =
      update (fun ij : Nat × Nat => pt.low ij.1 ij.2) (i, j) (some f) := by
    rw [hlow]
    funext ij
    by_cases h1 : ij.1 = i
    · by_cases h2 : ij.2 = j
      · have : ij = (i, j) := Prod.ext h1 h2
        simp [this]
      · have : ij ≠ (i, j) := fun h => h2 (by rw [h])
        simp [h1, h2, this]
    · have : ij ≠ (i, j) := fun h => h1 (by rw [h])
      simp [h1, this]
  unfold tables
  rw [hfun, hset, hmid', hroot]
  funext g
  simp only [Pi.add_apply]
  omega

/-! ## `walk` -/

/-- `walk` finds the entry of a page that is mapped. -/
theorem walk_leaf (hv : v < MAXVPN) (hleaf : pt.leaf v = some e) :
    walk pt v = .ok (some (some e)) := by
  have hlow := pt.leaf_low v (by rw [hleaf]; rfl)
  have hmid := pt.low_mid _ _ hlow
  rw [walk, if_neg (by omega), if_neg (by rw [← Option.not_isSome]; simp [hmid]),
    if_neg (by rw [← Option.not_isSome]; simp [hlow]), hleaf]

/-- `walk` finds no entry of a page that is not mapped. -/
theorem walk_none (hv : v < MAXVPN) (hleaf : pt.leaf v = none) :
    walk pt v = .ok none ∨ walk pt v = .ok (some none) := by
  rw [walk, if_neg (by omega)]
  split
  · exact Or.inl rfl
  · split
    · exact Or.inl rfl
    · rw [hleaf]
      exact Or.inr rfl

/-- The page-table pages that mapping `v` needs. -/
def need (pt : PageTable) (v : Nat) : Nat :=
  (if (pt.mid (px 2 v)).isSome then 0 else 1) +
    (if (pt.low (px 2 v) (px 1 v)).isSome then 0 else 1)

/-- A page table that has only gained pages of its own. -/
structure Grown (L : Layout) (m : Mem) (pt : PageTable) (m' : Mem) (pt' : PageTable) : Prop where
  leaf : pt'.leaf = pt.leaf
  shift : ∃ d, Shift L m m' 0 d ∧ tables pt' = tables pt + d

theorem Grown.refl (L : Layout) (m : Mem) (pt : PageTable) : Grown L m pt m pt :=
  ⟨rfl, 0, Shift.refl L m 0, by simp⟩

/-- What one level of `walk(pagetable, va, 1)` does: it finds the table, or
allocates it, or runs out of memory. -/
structure Walked (L : Layout) (cost : Nat) (m : Mem) (pt : PageTable) (r : Bool) (m' : Mem)
    (pt' : PageTable) : Prop where
  grown : Grown L m pt m' pt'
  found : r = true ↔ cost ≤ m.freelist.length
  freelist : r = true → m'.freelist.length + cost = m.freelist.length
  failed : r = false → m'.oom = true

theorem walkMid_spec (h : Ok L m) (pt : PageTable) (hv : v < MAXVPN) :
    ∃ r m' pt', walkMid pt v m = .ok (r, m', pt') ∧
      Walked L (if (pt.mid (px 2 v)).isSome then 0 else 1) m pt r m' pt' ∧ pt'.low = pt.low ∧
      (r = true → ∀ i, (pt'.mid i).isSome ↔ (pt.mid i).isSome ∨ i = px 2 v) := by
  unfold walkMid
  by_cases hmid : (pt.mid (px 2 v)).isSome
  · refine ⟨true, m, pt, if_pos hmid, ⟨Grown.refl L m pt, by simp [hmid], by simp [hmid],
      by simp⟩, rfl, ?_⟩
    intro _ i
    constructor
    · exact Or.inl
    · rintro (hi | rfl)
      · exact hi
      · exact hmid
  · have hnone : pt.mid (px 2 v) = none := by simpa using hmid
    rw [if_neg hmid, if_neg hmid]
    cases hfree : m.freelist with
    | nil =>
      refine ⟨false, { m with oom := true }, pt, ?_, ⟨?_, by simp [hfree], by simp,
        fun _ => rfl⟩, rfl, by simp⟩
      · rw [kalloc_none hfree]
        rfl
      · exact ⟨rfl, 0, shift_oom L m 0, by simp⟩
    | cons f rest =>
      obtain ⟨m', hrun, ha⟩ := kalloc_some h hfree
      refine ⟨true, m', pt.setMid (px 2 v) f, ?_, ⟨?_, by simp [hfree], ?_, by simp⟩, rfl, ?_⟩
      · rw [hrun]
        rfl
      · exact ⟨rfl, one f, ha.shift, tables_setMid (px_two_lt hv) hnone f⟩
      · intro _
        rw [ha.freelist]
        rfl
      · intro _ i
        by_cases hi : i = px 2 v
        · simp [hi]
        · simp [hi]

theorem walkLow_spec (h : Ok L m) (hv : v < MAXVPN) (hmid : (pt.mid (px 2 v)).isSome) :
    ∃ r m' pt', walkLow pt v m = .ok (r, m', pt') ∧
      Walked L (if (pt.low (px 2 v) (px 1 v)).isSome then 0 else 1) m pt r m' pt' ∧
      pt'.mid = pt.mid ∧
      (r = true → ∀ i j, (pt'.low i j).isSome ↔
        (pt.low i j).isSome ∨ (i = px 2 v ∧ j = px 1 v)) := by
  unfold walkLow
  by_cases hlow : (pt.low (px 2 v) (px 1 v)).isSome
  · refine ⟨true, m, pt, if_pos hlow, ⟨Grown.refl L m pt, by simp [hlow], by simp [hlow],
      by simp⟩, rfl, ?_⟩
    intro _ i j
    constructor
    · exact Or.inl
    · rintro (hi | ⟨rfl, rfl⟩)
      · exact hi
      · exact hlow
  · have hnone : pt.low (px 2 v) (px 1 v) = none := by simpa using hlow
    rw [if_neg hlow, if_neg hlow]
    cases hfree : m.freelist with
    | nil =>
      refine ⟨false, { m with oom := true }, pt, ?_, ⟨?_, by simp [hfree], by simp,
        fun _ => rfl⟩, rfl, by simp⟩
      · rw [kalloc_none hfree]
        rfl
      · exact ⟨rfl, 0, shift_oom L m 0, by simp⟩
    | cons f rest =>
      obtain ⟨m', hrun, ha⟩ := kalloc_some h hfree
      obtain ⟨hl, hm, hleaf, _⟩ := setLow_eq hmid (px 1 v) f
      refine ⟨true, m', pt.setLow (px 2 v) (px 1 v) f, ?_, ⟨?_, by simp [hfree], ?_, by simp⟩,
        hm, ?_⟩
      · rw [hrun]
        rfl
      · exact ⟨hleaf, one f, ha.shift,
          tables_setLow (px_two_lt hv) (px_one_lt v) hmid hnone f⟩
      · intro _
        rw [ha.freelist]
        rfl
      · intro _ i j
        rw [hl]
        by_cases hi : i = px 2 v
        · subst hi
          by_cases hj : j = px 1 v
          · simp [hj]
          · simp [hj]
        · simp [hi]

/-- The outcome of `mappages`. -/
structure Mapped (L : Layout) (m : Mem) (pt : PageTable) (v : Nat) (e : Pte) (r : Bool)
    (m' : Mem) (pt' : PageTable) : Prop where
  shift : ∃ d, Shift L m m' 0 d ∧ tables pt' = tables pt + d
  leaf : pt'.leaf = if r then update pt.leaf v (some e) else pt.leaf
  found : r = true ↔ need pt v ≤ m.freelist.length
  freelist : r = true → m'.freelist.length + need pt v = m.freelist.length
  failed : r = false → m'.oom = true
  mid : r = true → ∀ i, (pt'.mid i).isSome ↔ (pt.mid i).isSome ∨ i = px 2 v
  low : r = true → ∀ i j, (pt'.low i j).isSome ↔
    (pt.low i j).isSome ∨ (i = px 2 v ∧ j = px 1 v)

/-- `mappages` on a page that is not mapped. -/
theorem mappages_spec (h : Ok L m) (pt : PageTable) (hv : v < MAXVPN) (hnone : pt.leaf v = none)
    (e : Pte) : ∃ r m' pt', mappages pt v e m = .ok (r, m', pt') ∧ Mapped L m pt v e r m' pt' := by
  obtain ⟨r1, m1, pt1, hrun1, hw1, hlow1, hmid1⟩ := walkMid_spec h pt hv
  obtain ⟨d1, hs1, ht1⟩ := hw1.grown.shift
  have hrun : walkAlloc pt v m =
      if r1 then walkLow pt1 v m1 else .ok (false, m1, pt1) := by
    rw [walkAlloc, if_neg (by omega), hrun1]
    rfl
  cases hr1 : r1 with
  | false =>
    have hcost := hw1.found
    rw [hr1] at hcost hrun hw1
    have hfew : ¬ need pt v ≤ m.freelist.length := by
      intro hle
      unfold need at hle
      exact Bool.false_ne_true (hcost.mpr (by omega))
    refine ⟨false, m1, pt1, ?_, ⟨⟨d1, hs1, ht1⟩, hw1.grown.leaf, ?_, ?_, hw1.failed, ?_, ?_⟩⟩
    · rw [mappages, hrun]
      rfl
    · exact iff_of_false Bool.false_ne_true hfew
    all_goals
      intro hc
      exact absurd hc Bool.false_ne_true
  | true =>
    rw [hr1] at hrun hw1 hmid1
    have hhere : (pt1.mid (px 2 v)).isSome := (hmid1 rfl _).mpr (Or.inr rfl)
    obtain ⟨r2, m2, pt2, hrun2, hw2, hmid2, hlow2⟩ := walkLow_spec (hs1.ok h) hv hhere
    obtain ⟨d2, hs2, ht2⟩ := hw2.grown.shift
    have hfree1 := hw1.freelist rfl
    have hneed : need pt v = (if (pt.mid (px 2 v)).isSome then 0 else 1) +
        (if (pt1.low (px 2 v) (px 1 v)).isSome then 0 else 1) := by
      rw [hlow1]
      rfl
    have hshift : ∃ d, Shift L m m2 0 d ∧ tables pt2 = tables pt + d :=
      ⟨d1 + d2, hs1.acquire hs2, by rw [ht2, ht1, add_assoc]⟩
    have hleaf2 : pt2.leaf = pt.leaf := hw2.grown.leaf.trans hw1.grown.leaf
    have hfound : r2 = true ↔ need pt v ≤ m.freelist.length := by
      rw [hw2.found, hneed]
      omega
    cases hr2 : r2 with
    | false =>
      rw [hr2] at hrun2 hw2 hfound
      refine ⟨false, m2, pt2, ?_, ⟨hshift, hleaf2, hfound, ?_, hw2.failed, ?_, ?_⟩⟩
      · rw [mappages, hrun, if_pos rfl, hrun2]
        rfl
      all_goals
        intro hc
        exact absurd hc Bool.false_ne_true
    | true =>
      rw [hr2] at hrun2 hw2 hfound hlow2
      have hthere : (pt2.low (px 2 v) (px 1 v)).isSome :=
        (hlow2 rfl _ _).mpr (Or.inr ⟨rfl, rfl⟩)
      obtain ⟨hleaf3, hlow3, hmid3, hroot3⟩ := setLeaf_eq hthere e
      refine ⟨true, m2, pt2.setLeaf v e, ?_, ⟨?_, ?_, hfound, ?_, by simp, ?_, ?_⟩⟩
      · rw [mappages, hrun, if_pos rfl, hrun2]
        show (if (pt2.leaf v).isSome then _ else _) = _
        rw [hleaf2, hnone]
        rfl
      · rw [tables_congr hroot3 hmid3 hlow3]
        exact hshift
      · rw [hleaf3, hleaf2]
        rfl
      · intro _
        have hfree2 := hw2.freelist rfl
        omega
      · intro _ i
        rw [hmid3, hmid2]
        exact hmid1 rfl i
      · intro _ i j
        rw [hlow3, hlow2 rfl, hlow1]

/-! ## `uvmunmap` -/

/-- The outcome of `uvmunmap` of the `n` pages from `v`. -/
structure Unmapped (L : Layout) (m : Mem) (pt : PageTable) (v n : Nat) (m' : Mem)
    (pt' : PageTable) : Prop where
  shift : ∃ c, Shift L m m' c 0 ∧ leaves pt.leaf = leaves pt'.leaf + c
  leaf : ∀ w, pt'.leaf w = if v ≤ w ∧ w < v + n then none else pt.leaf w
  tables : tables pt' = tables pt
  oom : m'.oom = m.oom

/-- One page less to unmap. -/
theorem uvmunmap_step {doFree : Bool} (hv : v < MAXVPN) (hleaf : pt.leaf v = some e)
    (hr : e.flags.r = true) : uvmunmap L doFree (n + 1) v pt m =
      ((if doFree then kfree L e.ppn m else .ok m) >>=
        fun m => uvmunmap L doFree n (v + 1) (pt.clearLeaf v) m) := by
  rw [uvmunmap, walk_leaf hv hleaf]
  show (if ¬ (e.flags.r ∨ e.flags.w ∨ e.flags.x ∨ e.flags.u) then _ else _) = _
  rw [if_neg (by simp [hr])]
  cases doFree <;> rfl

/-- `uvmunmap` with `do_free`, on pages that are mapped. -/
theorem uvmunmap_free :
    ∀ (n v : Nat) {m : Mem} (pt : PageTable), Ok L m → v + n ≤ TRAPFRAME →
      (∀ w, v ≤ w → w < v + n → ∃ e, pt.leaf w = some e ∧ e.flags.r = true) →
      (∀ f, leaves pt.leaf f ≤ m.refcnt f) →
      ∃ m' pt', uvmunmap L true n v pt m = .ok (m', pt') ∧ Unmapped L m pt v n m' pt' := by
  intro n
  induction n with
  | zero =>
    intro v m pt _ _ _ _
    refine ⟨m, pt, rfl, ⟨0, Shift.refl L m 0, by simp⟩, ?_, rfl, rfl⟩
    intro w
    rw [if_neg (by omega)]
  | succ n ih =>
    intro v m pt hok hle hmapped hcov
    obtain ⟨e, hleaf, hr⟩ := hmapped v (by omega) (by omega)
    have hv : v < TRAPFRAME := by omega
    have hmax : v < MAXVPN := by
      rw [TRAPFRAME_eq] at hv
      rw [MAXVPN_eq]
      omega
    have hcount : 1 ≤ m.refcnt e.ppn := (leaves_pos hv hleaf).trans (hcov _)
    obtain ⟨m1, hfree, hs1, _, hoom1⟩ := kfree_spec hok hcount
    have hsplit := leaves_clear hv hleaf
    have hcov1 : ∀ f, leaves (pt.clearLeaf v).leaf f ≤ m1.refcnt f := by
      intro f
      have h1 := hs1.balance f
      have h2 := hcov f
      have h3 := congrFun hsplit f
      simp only [Pi.add_apply, Pi.zero_apply, clearLeaf_leaf] at *
      omega
    obtain ⟨m2, pt2, hrun, hu⟩ := ih (v + 1) (pt.clearLeaf v) (hs1.ok hok) (by omega)
      (by
        intro w hw hw'
        obtain ⟨e', he', hr'⟩ := hmapped w (by omega) (by omega)
        refine ⟨e', ?_, hr'⟩
        rw [clearLeaf_leaf, update_of_ne (by omega)]
        exact he') hcov1
    obtain ⟨c, hs2, hc⟩ := hu.shift
    refine ⟨m2, pt2, ?_, ⟨one e.ppn + c, hs1.release hs2, ?_⟩, ?_, hu.tables,
      hu.oom.trans hoom1⟩
    · rw [uvmunmap_step hmax hleaf hr, if_pos rfl, hfree]
      exact hrun
    · rw [hsplit, show update pt.leaf v none = (pt.clearLeaf v).leaf from rfl, hc]
      funext f
      simp only [Pi.add_apply]
      omega
    · intro w
      rw [hu.leaf, clearLeaf_leaf]
      by_cases hw : w = v
      · rw [hw, update_self, if_neg (by omega), if_pos (by omega)]
      · rw [update_of_ne hw]
        by_cases hin : v + 1 ≤ w ∧ w < v + 1 + n
        · rw [if_pos hin, if_pos (by omega)]
        · rw [if_neg hin, if_neg (by omega)]

/-- `uvmunmap` of one page without `do_free`. -/
theorem uvmunmap_keep (hv : v < MAXVPN) (hleaf : pt.leaf v = some e) (hr : e.flags.r = true) :
    uvmunmap L false 1 v pt m = .ok (m, pt.clearLeaf v) := by
  rw [uvmunmap_step hv hleaf hr, if_neg Bool.false_ne_true]
  rfl

/-! ## `freewalk` -/

/-- A loop that gives references back. -/
theorem foldlM_release {step : Mem → Nat → Except Panic Mem} {c : Nat → Frame → Nat}
    (hstep : ∀ m i, Ok L m → (∀ f, c i f ≤ m.refcnt f) →
      ∃ m', step m i = .ok m' ∧ Shift L m m' (c i) 0 ∧ m'.oom = m.oom)
    (n : Nat) (hok : Ok L m) (hcov : ∀ f, ∑ i ∈ Finset.range n, c i f ≤ m.refcnt f) :
    ∃ m', (List.range n).foldlM step m = .ok m' ∧
      Shift L m m' (fun f => ∑ i ∈ Finset.range n, c i f) 0 ∧ m'.oom = m.oom := by
  have hsum : ∀ i f, ∑ j ∈ Finset.range (i + 1), c j f = ∑ j ∈ Finset.range i, c j f + c i f :=
    fun i f => Finset.sum_range_succ _ _
  refine foldlM_range (I := fun i m1 =>
    Shift L m m1 (fun f => ∑ j ∈ Finset.range i, c j f) 0 ∧ m1.oom = m.oom) n ?_
    ⟨Shift.refl L m 0, rfl⟩
  rintro i m1 hi ⟨hs1, hoom1⟩
  obtain ⟨m2, hrun2, hs2, hoom2⟩ := hstep m1 i (hs1.ok hok) (fun f => by
    have h1 := hcov f
    have h2 := hs1.balance f
    have h3 : ∑ j ∈ Finset.range (i + 1), c j f ≤ ∑ j ∈ Finset.range n, c j f :=
      Finset.sum_le_sum_of_subset (Finset.range_mono hi)
    rw [hsum] at h3
    simp only [Pi.zero_apply] at h2
    omega)
  exact ⟨m2, hrun2, (hs1.release hs2).congr (fun f => hsum i f) (fun _ => rfl),
    hoom2.trans hoom1⟩

/-- The reference of an optional table page. -/
def entry (p : Option Frame) : Frame → Nat := fun f => if p = some f then 1 else 0

theorem entry_some (f : Frame) : entry (some f) = one f := by
  funext g
  by_cases hg : g = f
  · simp [entry, one, hg]
  · have : f ≠ g := fun h => hg h.symm
    simp [entry, one, hg, this]

/-- `kalloc`, whether or not a page is left. -/
theorem kalloc_entry (hok : Ok L m) :
    ∃ r m', kalloc m = .ok (r, m') ∧ Shift L m m' 0 (entry r) := by
  cases hfree : m.freelist with
  | nil => exact ⟨none, _, kalloc_none hfree, shift_oom L m 0⟩
  | cons f rest =>
    obtain ⟨m', hrun, ha⟩ := kalloc_some hok hfree
    exact ⟨some f, m', hrun, by rw [entry_some]; exact ha.shift⟩

theorem freeLow_spec (hleaf : ∀ v, pt.leaf v = none) (i : Nat) (m : Mem) (j : Nat)
    (hok : Ok L m) (hcov : ∀ f, entry (pt.low i j) f ≤ m.refcnt f) :
    ∃ m', freeLow L pt i j m = .ok m' ∧ Shift L m m' (entry (pt.low i j)) 0 ∧
      m'.oom = m.oom := by
  unfold freeLow
  cases hlow : pt.low i j with
  | none => exact ⟨m, rfl, (Shift.refl L m 0).congr (fun _ => rfl) (fun _ => rfl), rfl⟩
  | some f =>
    rw [hlow, entry_some] at hcov
    obtain ⟨m', hrun, hs, _, hoom⟩ := kfree_spec hok (f := f) (by simpa using hcov f)
    refine ⟨m', ?_, by rw [entry_some]; exact hs, hoom⟩
    dsimp only
    rw [if_neg (by simp [hleaf])]
    exact hrun

/-- The references of a level-1 table and of the tables below it. -/
def branch (pt : PageTable) (i : Nat) : Frame → Nat :=
  fun f => ∑ j ∈ Finset.range 512, entry (pt.low i j) f + entry (pt.mid i) f

theorem freeMid_spec (hleaf : ∀ v, pt.leaf v = none) (m : Mem) (i : Nat)
    (hok : Ok L m) (hcov : ∀ f, branch pt i f ≤ m.refcnt f) :
    ∃ m', freeMid L pt i m = .ok m' ∧ Shift L m m' (branch pt i) 0 ∧ m'.oom = m.oom := by
  unfold freeMid
  cases hmid : pt.mid i with
  | none =>
    have hzero : ∀ f, branch pt i f = 0 := by
      intro f
      have hlow : ∀ j, pt.low i j = none := by
        intro j
        by_contra hne
        have := pt.low_mid i j (Option.isSome_iff_ne_none.mpr hne)
        rw [hmid] at this
        exact Bool.false_ne_true this
      simp [branch, entry, hmid, hlow]
    exact ⟨m, rfl, (Shift.refl L m 0).congr hzero (fun _ => rfl), rfl⟩
  | some f =>
    obtain ⟨m1, hrun1, hs1, hoom1⟩ := foldlM_release
      (fun m j hok hc => freeLow_spec hleaf i m j hok hc) 512 hok (fun g => by
        have := hcov g
        unfold branch at this
        omega)
    obtain ⟨m2, hrun2, hs2, _, hoom2⟩ := kfree_spec (hs1.ok hok) (f := f) (by
      have h1 := hcov f
      have h2 := hs1.balance f
      unfold branch at h1
      rw [hmid, entry_some, one_self] at h1
      simp only [Pi.zero_apply] at h2
      omega)
    refine ⟨m2, ?_, (hs1.release hs2).congr ?_ (fun _ => rfl), hoom2.trans hoom1⟩
    · dsimp only
      rw [hrun1]
      exact hrun2
    · intro g
      simp only [branch, hmid, entry_some, Pi.add_apply]

/-- The shares of a page table, branch by branch. -/
theorem tables_eq (pt : PageTable) (f : Frame) :
    tables pt f = ∑ i ∈ Finset.range 256, branch pt i f + one pt.root f := by
  have hgrid : tally (grid 256 512) (fun ij => pt.low ij.1 ij.2) f =
      ∑ i ∈ Finset.range 256, ∑ j ∈ Finset.range 512, entry (pt.low i j) f := by
    rw [grid, tally, Finset.sum_product]
    rfl
  simp only [tables, Pi.add_apply, hgrid, branch, Finset.sum_add_distrib]
  have hmid : tally (Finset.range 256) pt.mid f =
      ∑ i ∈ Finset.range 256, entry (pt.mid i) f := rfl
  rw [hmid]
  omega

/-- `freewalk` of a table without leaves gives all its pages back. -/
theorem freewalk_spec (hok : Ok L m) (hleaf : ∀ v, pt.leaf v = none)
    (hcov : ∀ f, tables pt f ≤ m.refcnt f) :
    ∃ m', freewalk L pt m = .ok m' ∧ Shift L m m' (tables pt) 0 ∧ m'.oom = m.oom := by
  obtain ⟨m1, hrun1, hs1, hoom1⟩ := foldlM_release
    (fun m i hok hc => freeMid_spec hleaf m i hok hc) 256 hok (fun f => by
      have := hcov f
      rw [tables_eq] at this
      omega)
  obtain ⟨m2, hrun2, hs2, _, hoom2⟩ := kfree_spec (hs1.ok hok) (f := pt.root) (by
    have h1 := hcov pt.root
    have h2 := hs1.balance pt.root
    rw [tables_eq, one_self] at h1
    simp only [Pi.zero_apply] at h2
    omega)
  refine ⟨m2, ?_, (hs1.release hs2).congr (fun f => tables_eq pt f) (fun _ => rfl),
    hoom2.trans hoom1⟩
  rw [freewalk, hrun1]
  exact hrun2

/-! ## User images -/

/-- A user page table with `n` pages of user memory: the entries below `n`,
and the trampoline and the trapframe at the top. -/
structure Image (pt : PageTable) (n : Nat) : Prop where
  mapped : ∀ v, v < TRAPFRAME → ((pt.leaf v).isSome ↔ v < n)
  readable : ∀ v e, pt.leaf v = some e → e.flags.r = true
  top : ∀ v, TRAPFRAME ≤ v → v < MAXVPN → ∃ e, pt.leaf v = some e ∧ e.flags.u = false
  high : ∀ v, MAXVPN ≤ v → pt.leaf v = none
  distinct : ∀ v w e e', v < TRAPFRAME → w < TRAPFRAME → pt.leaf v = some e →
    pt.leaf w = some e' → e.ppn = e'.ppn → v = w

theorem TRAPFRAME_lt : TRAPFRAME < MAXVPN := by decide

theorem Image.some (h : Image pt n) (hv : v < TRAPFRAME) (hn : v < n) :
    ∃ e, pt.leaf v = some e := Option.isSome_iff_exists.mp ((h.mapped v hv).mpr hn)

theorem Image.none (h : Image pt n) (hv : v < TRAPFRAME) (hn : n ≤ v) : pt.leaf v = none := by
  by_contra hne
  have := (h.mapped v hv).mp (Option.isSome_iff_ne_none.mpr hne)
  omega

/-- Image pages lie in distinct managed pages, so there are few of them. -/
theorem Image.le_PHYSTOP (h : Image pt n) (hok : Ok L m) (hcov : ∀ f, leaves pt.leaf f ≤ m.refcnt f)
    (hn : n ≤ TRAPFRAME) : n ≤ PHYSTOP := by
  have hmem : ∀ v ∈ Finset.range n, ((pt.leaf v).map Pte.ppn).getD 0 ∈ Finset.range PHYSTOP := by
    intro v hv
    have hv := Finset.mem_range.mp hv
    obtain ⟨e, he⟩ := h.some (by omega) hv
    have hpos := (leaves_pos (by omega) he).trans (hcov e.ppn)
    rw [he]
    exact Finset.mem_range.mpr (hok.managed hpos).2
  have hinj : Set.InjOn (fun v => ((pt.leaf v).map Pte.ppn).getD 0) (Finset.range n) := by
    intro v hv w hw heq
    have hv := Finset.mem_range.mp hv
    have hw := Finset.mem_range.mp hw
    obtain ⟨e, he⟩ := h.some (by omega) hv
    obtain ⟨e', he'⟩ := h.some (by omega) hw
    simp only [he, he'] at heq
    exact h.distinct v w e e' (by omega) (by omega) he he' heq
  have hcard := Finset.card_le_card_of_injOn _ hmem hinj
  simpa using hcard

/-- `uvmfree` of a table with only user pages. -/
theorem uvmfree_spec (pt : PageTable) (sz : Nat) (hok : Ok L m) (hsz : pages sz ≤ TRAPFRAME)
    (hmapped : ∀ v, v < pages sz → ∃ e, pt.leaf v = some e ∧ e.flags.r = true)
    (hnone : ∀ v, pages sz ≤ v → pt.leaf v = none) (hcov : ∀ f, owned pt f ≤ m.refcnt f) :
    ∃ m', uvmfree L pt sz m = .ok m' ∧ Shift L m m' (owned pt) 0 ∧ m'.oom = m.oom := by
  have hif : uvmfree L pt sz m =
      uvmunmap L true (pages sz) 0 pt m >>= fun r => freewalk L r.2 r.1 := by
    unfold uvmfree
    by_cases hpos : sz > 0
    · exact if_pos hpos
    · have hzero : sz = 0 := by omega
      subst hzero
      rfl
  obtain ⟨m1, pt1, hrun1, hu⟩ := uvmunmap_free (pages sz) 0 pt hok (by omega)
    (fun v _ hv => hmapped v (by omega)) (fun f => (Nat.le_add_left _ _).trans (hcov f))
  obtain ⟨c, hs1, hc⟩ := hu.shift
  have hclear : ∀ v, pt1.leaf v = none := by
    intro v
    rw [hu.leaf]
    by_cases hv : v < pages sz
    · exact if_pos (by omega)
    · rw [if_neg (by omega)]
      exact hnone v (by omega)
  have hzero : leaves pt1.leaf = 0 := tally_none (fun v _ => by rw [hclear]; rfl)
  have howned : owned pt = c + tables pt1 := by
    rw [owned, hc, hzero, hu.tables, zero_add, add_comm]
  obtain ⟨m2, hrun2, hs2, hoom2⟩ := freewalk_spec (hs1.ok hok) hclear (fun f => by
    have h1 := hcov f
    have h2 := hs1.balance f
    rw [howned] at h1
    simp only [Pi.add_apply, Pi.zero_apply] at h1 h2
    omega)
  refine ⟨m2, ?_, by rw [howned]; exact hs1.release hs2, hoom2.trans hu.oom⟩
  rw [hif, hrun1]
  exact hrun2

/-- `proc_freepagetable` gives back all shares of an image. -/
theorem procFreepagetable_spec {sz : Nat} (hok : Ok L m) (hsz : pages sz ≤ TRAPFRAME)
    (h : Image pt (pages sz)) (hcov : ∀ f, owned pt f ≤ m.refcnt f) :
    ∃ m', procFreepagetable L pt sz m = .ok m' ∧ Shift L m m' (owned pt) 0 ∧
      m'.oom = m.oom := by
  have htop := TRAPFRAME_lt
  have hne : TRAPFRAME ≠ TRAMPOLINE := by decide
  obtain ⟨e1, he1, _⟩ := h.top TRAMPOLINE (by decide) (by decide)
  obtain ⟨e2, he2, _⟩ := h.top TRAPFRAME le_rfl htop
  have he2' : (pt.clearLeaf TRAMPOLINE).leaf TRAPFRAME = some e2 := by
    rw [clearLeaf_leaf, update_of_ne hne]
    exact he2
  have hleaf : ∀ v, ((pt.clearLeaf TRAMPOLINE).clearLeaf TRAPFRAME).leaf v =
      if v < TRAPFRAME then pt.leaf v else none := by
    intro v
    rw [clearLeaf_leaf, clearLeaf_leaf, update_apply, update_apply]
    by_cases h1 : v < TRAPFRAME
    · rw [if_neg (by omega), if_neg (by rw [TRAMPOLINE_eq]; rw [TRAPFRAME_eq] at h1; omega),
        if_pos h1]
    · rw [if_neg h1]
      by_cases h2 : v < MAXVPN
      · have hor : v = TRAPFRAME ∨ v = TRAMPOLINE := by
          rw [TRAPFRAME_eq, TRAMPOLINE_eq]
          rw [TRAPFRAME_eq] at h1
          rw [MAXVPN_eq] at h2
          omega
        rcases hor with hor | hor <;> simp [hor]
      · rw [h.high v (by omega)]
        simp
  have howned : owned ((pt.clearLeaf TRAMPOLINE).clearLeaf TRAPFRAME) = owned pt := by
    rw [owned, tables_clearLeaf, tables_clearLeaf, clearLeaf_leaf, leaves_top le_rfl,
      clearLeaf_leaf, leaves_top (by decide)]
    rfl
  obtain ⟨m', hrun, hs, hoom⟩ := uvmfree_spec ((pt.clearLeaf TRAMPOLINE).clearLeaf TRAPFRAME)
    sz hok hsz
    (by
      intro v hv
      obtain ⟨e, he⟩ := h.some (v := v) (by omega) hv
      exact ⟨e, by rw [hleaf, if_pos (by omega)]; exact he, h.readable v e he⟩)
    (by
      intro v hv
      rw [hleaf]
      by_cases hlt : v < TRAPFRAME
      · rw [if_pos hlt]
        exact h.none hlt hv
      · exact if_neg hlt)
    (by rw [howned]; exact hcov)
  rw [howned] at hs
  refine ⟨m', ?_, hs, hoom⟩
  rw [procFreepagetable, uvmunmap_keep (by decide) he1 (h.readable _ _ he1)]
  show (uvmunmap L false 1 TRAPFRAME (pt.clearLeaf TRAMPOLINE) m >>= _) = _
  rw [uvmunmap_keep htop he2' (h.readable _ _ he2)]
  exact hrun

/-! ## `proc_pagetable` -/

theorem tables_empty (f : Frame) : tables (PageTable.empty f) = one f := by
  have hmid : tally (Finset.range 256) (PageTable.empty f).mid = 0 := tally_none (fun _ _ => rfl)
  have hlow : tally (grid 256 512) (fun ij => (PageTable.empty f).low ij.1 ij.2) = 0 :=
    tally_none (fun _ _ => rfl)
  rw [tables, hmid, hlow, add_zero, add_zero]
  rfl

theorem leaves_of_none (h : ∀ v, v < TRAPFRAME → leaf v = none) : leaves leaf = 0 :=
  tally_none (fun v hv => by rw [h v (Finset.mem_range.mp hv)]; rfl)

/-- A table as `proc_pagetable` leaves it. -/
structure Fresh (pt : PageTable) : Prop where
  image : Image pt 0
  mid : ∀ i, (pt.mid i).isSome ↔ i = 255
  low : ∀ i j, (pt.low i j).isSome ↔ i = 255 ∧ j = 511

theorem Fresh.owned_eq (h : Fresh pt) : owned pt = tables pt := by
  rw [owned, leaves_of_none (fun v hv => h.image.none hv (Nat.zero_le v)), add_zero]

/-- `proc_pagetable` takes three pages, or leaves everything as it was. -/
theorem procPagetable_spec (tf : Frame) (hok : Ok L m) :
    ∃ r m', procPagetable L tf m = .ok (r, m') ∧
      ((r = none ∧ Shift L m m' 0 0 ∧ m'.oom = true ∧ m.freelist.length < 3) ∨
        ∃ pt, r = some pt ∧ Fresh pt ∧ Shift L m m' 0 (tables pt) ∧
          m'.freelist.length + 3 = m.freelist.length) := by
  cases hfree : m.freelist with
  | nil =>
    refine ⟨none, { m with oom := true }, ?_, Or.inl ⟨rfl, shift_oom L m 0, rfl, by simp⟩⟩
    rw [procPagetable, uvmcreate, kalloc_none hfree]
    rfl
  | cons f rest =>
    obtain ⟨m1, hrun1, ha⟩ := kalloc_some hok hfree
    have hcreate : uvmcreate m = .ok (some (PageTable.empty f), m1) := by
      rw [uvmcreate, hrun1]
      rfl
    have hlen1 : m1.freelist.length + 1 = m.freelist.length := by
      rw [ha.freelist]
      rfl
    rw [hfree] at hlen1
    obtain ⟨r2, m2, pt2, hrun2, hm2⟩ := mappages_spec (ha.shift.ok hok)
      (PageTable.empty f) (v := TRAMPOLINE) (by decide) rfl
      (.new L.trampoline ⟨true, false, true, false⟩)
    obtain ⟨d2, hs2, ht2⟩ := hm2.shift
    have hneed : need (PageTable.empty f) TRAMPOLINE = 2 := rfl
    have hshift2 : Shift L m m2 0 (tables pt2) := by
      rw [ht2, tables_empty]
      exact ha.shift.acquire hs2
    cases hr2 : r2 with
    | false =>
      rw [hr2] at hrun2 hm2
      have hleaf2 : ∀ v, pt2.leaf v = none := fun v => congrFun hm2.leaf v
      have howned : owned pt2 = tables pt2 := by
        rw [owned, leaves_of_none (fun v _ => hleaf2 v), add_zero]
      obtain ⟨m3, hrun3, hs3, hoom3⟩ := uvmfree_spec pt2 0 (hshift2.ok hok)
        (Nat.zero_le _) (fun v hv => absurd hv (Nat.not_lt_zero v)) (fun v _ => hleaf2 v)
        (fun g => by
          have := hshift2.balance g
          rw [howned]
          simp only [Pi.zero_apply] at this
          omega)
      rw [howned] at hs3
      have hfew : ¬ need (PageTable.empty f) TRAMPOLINE ≤ m1.freelist.length :=
        fun hle => Bool.false_ne_true (hm2.found.mpr hle)
      refine ⟨none, m3, ?_, Or.inl ⟨rfl, hshift2.trans hs3, hoom3.trans (hm2.failed rfl), ?_⟩⟩
      · rw [procPagetable, hcreate]
        show (mappages (PageTable.empty f) TRAMPOLINE _ m1 >>= _) = _
        rw [hrun2]
        show (uvmfree L pt2 0 m2 >>= _) = _
        rw [hrun3]
        rfl
      · rw [hneed] at hfew
        simp only [List.length_cons] at hlen1 ⊢
        omega
    | true =>
      rw [hr2] at hrun2 hm2
      have hleaf2 : pt2.leaf = update (fun _ => none) TRAMPOLINE
          (some (.new L.trampoline ⟨true, false, true, false⟩)) := hm2.leaf
      have hmid2 : ∀ i, (pt2.mid i).isSome ↔ i = 255 := by
        intro i
        rw [hm2.mid rfl i]
        simp [PageTable.empty, show px 2 TRAMPOLINE = 255 from rfl]
      have hlow2 : ∀ i j, (pt2.low i j).isSome ↔ i = 255 ∧ j = 511 := by
        intro i j
        rw [hm2.low rfl i j]
        simp [PageTable.empty, show px 2 TRAMPOLINE = 255 from rfl,
          show px 1 TRAMPOLINE = 511 from rfl]
      obtain ⟨r3, m3, pt3, hrun3, hm3⟩ := mappages_spec (hshift2.ok hok) pt2
        TRAPFRAME_lt (by rw [hleaf2]; rfl) (.new tf ⟨true, true, false, false⟩)
      have hneed3 : need pt2 TRAPFRAME = 0 := by
        have h1 : (pt2.mid (px 2 TRAPFRAME)).isSome := (hmid2 _).mpr rfl
        have h2 : (pt2.low (px 2 TRAPFRAME) (px 1 TRAPFRAME)).isSome := (hlow2 _ _).mpr ⟨rfl, rfl⟩
        rw [need, if_pos h1, if_pos h2]
      have hr3 : r3 = true := hm3.found.mpr (by omega)
      rw [hr3] at hrun3 hm3
      obtain ⟨d3, hs3, ht3⟩ := hm3.shift
      have hleaf3 : pt3.leaf = update pt2.leaf TRAPFRAME
          (some (.new tf ⟨true, true, false, false⟩)) := hm3.leaf
      have hbelow : ∀ v, v < TRAPFRAME → pt3.leaf v = none := by
        intro v hv
        have h1 : v ≠ TRAMPOLINE := by
          rw [TRAPFRAME_eq] at hv
          rw [TRAMPOLINE_eq]
          omega
        rw [hleaf3, update_of_ne (by omega), hleaf2, update_of_ne h1]
      have hat : ∀ v e, pt3.leaf v = some e →
          (v = TRAPFRAME ∨ v = TRAMPOLINE) ∧ e.flags.r = true ∧ e.flags.u = false := by
        intro v e he
        rw [hleaf3, update_apply] at he
        by_cases h1 : v = TRAPFRAME
        · rw [if_pos h1] at he
          cases he
          exact ⟨Or.inl h1, rfl, rfl⟩
        · rw [if_neg h1, hleaf2, update_apply] at he
          by_cases h2 : v = TRAMPOLINE
          · rw [if_pos h2] at he
            cases he
            exact ⟨Or.inr h2, rfl, rfl⟩
          · rw [if_neg h2] at he
            cases he
      refine ⟨some pt3, m3, ?_, Or.inr ⟨pt3, rfl, ⟨⟨?_, ?_, ?_, ?_, ?_⟩, ?_, ?_⟩, ?_, ?_⟩⟩
      · rw [procPagetable, hcreate]
        show (mappages (PageTable.empty f) TRAMPOLINE _ m1 >>= _) = _
        rw [hrun2]
        show (mappages pt2 TRAPFRAME _ m2 >>= _) = _
        rw [hrun3]
        rfl
      · intro v hv
        rw [hbelow v hv]
        simp
      · intro v e he
        exact (hat v e he).2.1
      · intro v hle hlt
        have hsome : ∃ e, pt3.leaf v = some e := by
          have hor : v = TRAPFRAME ∨ v = TRAMPOLINE := by
            rw [TRAPFRAME_eq] at *
            rw [TRAMPOLINE_eq]
            rw [MAXVPN_eq] at hlt
            omega
          rw [hleaf3, hleaf2]
          rcases hor with rfl | rfl
          · exact ⟨_, update_self _ _ _⟩
          · rw [update_of_ne (by decide)]
            exact ⟨_, update_self _ _ _⟩
        obtain ⟨e, he⟩ := hsome
        exact ⟨e, he, (hat v e he).2.2⟩
      · intro v hv
        by_contra hne
        obtain ⟨e, he⟩ := Option.ne_none_iff_exists'.mp hne
        rw [MAXVPN_eq] at hv
        have := (hat v e he).1
        rw [TRAPFRAME_eq, TRAMPOLINE_eq] at this
        omega
      · intro v w e e' hv _ he
        rw [hbelow v hv] at he
        cases he
      · intro i
        rw [hm3.mid rfl i, hmid2, show px 2 TRAPFRAME = 255 from rfl, or_self]
      · intro i j
        rw [hm3.low rfl i j, hlow2, show px 2 TRAPFRAME = 255 from rfl,
          show px 1 TRAPFRAME = 511 from rfl, or_self]
      · rw [ht3]
        exact hshift2.acquire hs3
      · have h2 := hm2.freelist rfl
        have h3 := hm3.freelist rfl
        rw [hneed] at h2
        rw [hneed3] at h3
        omega

end Xv6.Memory
