import Xv6.Memory.Mapping
import Xv6.Memory.UserMemory

/-!
# What the user-memory functions do

One specification for each function of `UserMemory`.  `Held` is what they
start from: a table with the shape of a user image whose shares are counted.
Each specification says that the function returns, which entries it changes,
and which shares it acquires or releases.
-/

namespace Xv6.Memory

open Xv6.Lib Function

variable {L : Layout} {m m' m'' : Mem} {pt pt' pt'' : PageTable} {n : Nat}

/-- A page with `PTE_U` is below the trapframe. -/
theorem image_user_below {va : Nat} {e : Pte} (h : Image pt n) (hmax : va < MAXVA)
    (he : pt.leaf (va / PGSIZE) = some e) (hu : e.flags.u = true) : va / PGSIZE < TRAPFRAME := by
  by_contra hge
  have hlt : va / PGSIZE < MAXVPN := by
    unfold MAXVA at hmax
    exact Nat.div_lt_of_lt_mul (by rw [Nat.mul_comm]; exact hmax)
  obtain ⟨e', he', hu'⟩ := h.top _ (by omega) hlt
  rw [he] at he'
  cases he'
  rw [hu] at hu'
  cases hu'

/-! ## Counted images -/

/-- An image of `n` pages whose shares are counted. -/
structure Held (L : Layout) (m : Mem) (pt : PageTable) (n : Nat) : Prop where
  ok : Ok L m
  image : Image pt n
  covered : ∀ f, owned pt f ≤ m.refcnt f
  bound : n ≤ TRAPFRAME

theorem Held.leaves_le (h : Held L m pt n) (f : Frame) : leaves pt.leaf f ≤ m.refcnt f :=
  (Nat.le_add_left _ _).trans (h.covered f)

theorem Held.le_PHYSTOP (h : Held L m pt n) : n ≤ PHYSTOP :=
  h.image.le_PHYSTOP h.ok h.leaves_le h.bound

theorem PHYSTOP_lt : PHYSTOP < TRAPFRAME := by decide

/-- There is room for another page. -/
theorem Held.lt_TRAPFRAME (h : Held L m pt n) : n < TRAPFRAME :=
  h.le_PHYSTOP.trans_lt PHYSTOP_lt

variable {v k : Nat} {a b : Frame → Nat} {f : Frame} {flags : Flags}

theorem Held.refcnt_pos (h : Held L m pt n) {e : Pte} (hv : v < TRAPFRAME) (he : pt.leaf v = some e)
    : 1 ≤ m.refcnt e.ppn :=
  (leaves_pos hv he).trans (h.leaves_le e.ppn)

theorem Held.isSome (h : Held L m pt n) (hv : v < n) :
    ∃ e, pt.leaf v = some e ∧ e.flags.r = true := by
  obtain ⟨e, he⟩ := h.image.some (hv.trans_le h.bound) hv
  exact ⟨e, he, h.image.readable v e he⟩

/-- Shares stay counted. -/
theorem covered_of_shift (hs : Shift L m m' a b) (h : ∀ f, a f ≤ m.refcnt f) (f : Frame) :
    b f ≤ m'.refcnt f := by
  have h1 := hs.balance f
  have h2 := h f
  omega

theorem pages_mul (a : Nat) : pages (a * PGSIZE) = a := by
  unfold pages PGSIZE
  omega

theorem pages_mono {a b : Nat} (h : a ≤ b) : pages a ≤ pages b :=
  Nat.div_le_div_right (by omega)

/-! ## Entries for pages of others -/

/-- Somebody else has a share in the page. -/
def Elsewhere (m : Mem) (a : Frame → Nat) (f : Frame) : Prop := a f < m.refcnt f

/-- A transfer does not change what the others have. -/
theorem elsewhere_shift (hs : Shift L m m' a b) (h : Elsewhere m a f) : Elsewhere m' b f := by
  have h1 := hs.balance f
  unfold Elsewhere at *
  omega

theorem elsewhere_of_le (h : Elsewhere m b f) (hle : a f ≤ b f) : Elsewhere m a f :=
  hle.trans_lt h

/-- An entry of the new table for a page of others is an entry of the old
table, and has `PTE_W` only if that had it. -/
def Renewed (others : Frame → Prop) (pt pt' : PageTable) : Prop :=
  ∀ v e', v < TRAPFRAME → pt'.leaf v = some e' → others e'.ppn →
    ∃ e, pt.leaf v = some e ∧ e.ppn = e'.ppn ∧ (e'.flags.w = true → e.flags.w = true)

section Renewed

variable {others others' : Frame → Prop}

theorem Renewed.of_leaf (h : pt'.leaf = pt.leaf) : Renewed others pt pt' := by
  intro v e' _ he' _
  exact ⟨e', by rw [← h]; exact he', rfl, id⟩

theorem Renewed.mono (h : Renewed others pt pt') (hsub : ∀ f, others' f → others f) :
    Renewed others' pt pt' :=
  fun v e' hv he' ho => h v e' hv he' (hsub _ ho)

theorem Renewed.trans (h : Renewed others pt pt') (h' : Renewed others pt' pt'') :
    Renewed others pt pt'' := by
  intro v e2 hv he2 ho
  obtain ⟨e1, he1, hp1, hw1⟩ := h' v e2 hv he2 ho
  obtain ⟨e, he, hp, hw⟩ := h v e1 hv he1 (by rw [hp1]; exact ho)
  exact ⟨e, he, hp.trans hp1, fun h => hw (hw1 h)⟩

/-- No page that was free is a page of others. -/
theorem not_elsewhere (h : m.refcnt f = 0) : ¬ Elsewhere m a f := by
  unfold Elsewhere
  omega

end Renewed

/-! ## `uvmdealloc` -/

theorem uvmdealloc_spec (oldsz newsz : Nat) (h : Held L m pt (pages oldsz)) :
    ∃ m' pt', uvmdealloc L pt oldsz newsz m = .ok (min oldsz newsz, m', pt') ∧
      Unmapped L m pt (pages newsz) (pages oldsz - pages newsz) m' pt' := by
  have hsame : ∀ k, Unmapped L m pt k 0 m pt := by
    intro k
    refine ⟨⟨0, Shift.refl L m 0, by simp⟩, ?_, rfl, rfl⟩
    intro w
    rw [if_neg (by omega)]
  unfold uvmdealloc
  by_cases hle : newsz ≥ oldsz
  · have hpages := pages_mono hle
    rw [if_pos hle, Nat.sub_eq_zero_of_le hpages, Nat.min_eq_left hle]
    exact ⟨m, pt, rfl, hsame _⟩
  · rw [if_neg hle, Nat.min_eq_right (by omega)]
    by_cases hlt : pages newsz < pages oldsz
    · have hend : pages newsz + (pages oldsz - pages newsz) = pages oldsz := by omega
      obtain ⟨m', pt', hrun, hu⟩ := uvmunmap_free (pages oldsz - pages newsz) (pages newsz) pt h.ok
        (by rw [hend]; exact h.bound) (fun w _ hw => h.isSome (by omega)) h.leaves_le
      refine ⟨m', pt', ?_, hu⟩
      rw [if_pos hlt, hrun]
      rfl
    · rw [if_neg hlt, Nat.sub_eq_zero_of_le (by omega)]
      exact ⟨m, pt, rfl, hsame _⟩

/-- The image after pages are unmapped at its end. -/
theorem Unmapped.held (hu : Unmapped L m pt k (n - k) m' pt') (h : Held L m pt n) :
    Held L m' pt' (min n k) := by
  obtain ⟨c, hs, hc⟩ := hu.shift
  have hbound := h.bound
  have hsub : ∀ {v e}, pt'.leaf v = some e → pt.leaf v = some e := by
    intro v e he
    rw [hu.leaf] at he
    split at he
    · cases he
    · exact he
  refine ⟨hs.ok h.ok, ⟨?_, ?_, ?_, ?_, ?_⟩, ?_, by omega⟩
  · intro v hv
    rw [hu.leaf]
    split
    · simp
      omega
    · rw [h.image.mapped v hv]
      omega
  · intro v e he
    exact h.image.readable v e (hsub he)
  · intro v hle hlt
    obtain ⟨e, he, hu'⟩ := h.image.top v hle hlt
    exact ⟨e, by rw [hu.leaf, if_neg (by omega)]; exact he, hu'⟩
  · intro v hv
    rw [hu.leaf, h.image.high v hv]
    simp
  · intro v w e e' hv hw he he' heq
    exact h.image.distinct v w e e' hv hw (hsub he) (hsub he') heq
  · intro f
    have h1 := hs.balance f
    have h2 := h.covered f
    have h3 := congrFun hc f
    simp only [owned, Pi.add_apply, Pi.zero_apply, hu.tables] at *
    omega

theorem Unmapped.renewed (hu : Unmapped L m pt v k m' pt') (others : Frame → Prop) :
    Renewed others pt pt' := by
  intro w e' _ he' _
  rw [hu.leaf] at he'
  split at he'
  · cases he'
  · exact ⟨e', he', rfl, id⟩

/-! ## `uvmalloc` -/

/-- The `k` pages from `base` are new, and full of zeroes. -/
structure Extended (L : Layout) (m : Mem) (pt : PageTable) (flags : Flags) (base k : Nat)
    (m' : Mem) (pt' : PageTable) : Prop where
  shift : ∃ dt dl, Shift L m m' 0 (dt + dl) ∧ tables pt' = tables pt + dt ∧
    leaves pt'.leaf = leaves pt.leaf + dl
  old : ∀ v, ¬ (base ≤ v ∧ v < base + k) → pt'.leaf v = pt.leaf v
  new : ∀ v, base ≤ v → v < base + k → ∃ f, pt'.leaf v = some (.new f flags) ∧
    m.refcnt f = 0 ∧ m'.bytes f = zeroPage
  distinct : ∀ v w e e', base ≤ v → v < base + k → base ≤ w → w < base + k →
    pt'.leaf v = some e → pt'.leaf w = some e' → e.ppn = e'.ppn → v = w

theorem Extended.refl (L : Layout) (m : Mem) (pt : PageTable) (flags : Flags) (base : Nat) :
    Extended L m pt flags base 0 m pt := by
  refine ⟨⟨0, 0, Shift.refl L m 0, by simp, by simp⟩, fun _ _ => rfl, ?_, ?_⟩
  · intro v h1 h2
    omega
  · intro v w e e' h1 h2
    omega

theorem Extended.covered {base : Nat} (hx : Extended L m pt flags base k m' pt')
    (h : ∀ f, owned pt f ≤ m.refcnt f) (f : Frame) : owned pt' f ≤ m'.refcnt f := by
  obtain ⟨dt, dl, hs, ht, hl⟩ := hx.shift
  have h1 := hs.balance f
  have h2 := h f
  simp only [owned, ht, hl, Pi.add_apply, Pi.zero_apply] at *
  omega

/-- The image after pages are added at its end. -/
theorem Extended.held (hx : Extended L m pt flags n k m' pt') (h : Held L m pt n)
    (hr : flags.r = true) (hk : n + k ≤ TRAPFRAME) : Held L m' pt' (n + k) := by
  obtain ⟨dt, dl, hs, ht, hl⟩ := hx.shift
  -- an old page and a new one are different, as only the old one was counted
  have hcross : ∀ v w e e', v < TRAPFRAME → ¬ (n ≤ v ∧ v < n + k) → n ≤ w → w < n + k →
      pt'.leaf v = some e → pt'.leaf w = some e' → e.ppn ≠ e'.ppn := by
    intro v w e e' hv hout h1 h2 he he' heq
    obtain ⟨f, hf, hzero, _⟩ := hx.new w h1 h2
    rw [hx.old v hout] at he
    have hpos := h.refcnt_pos hv he
    rw [hf] at he'
    cases he'
    rw [heq] at hpos
    exact absurd hzero (Nat.ne_of_gt hpos)
  refine ⟨hs.ok h.ok, ⟨?_, ?_, ?_, ?_, ?_⟩, hx.covered h.covered, hk⟩
  · intro v hv
    by_cases hin : n ≤ v ∧ v < n + k
    · obtain ⟨f, hf, _⟩ := hx.new v hin.1 hin.2
      rw [hf]
      exact iff_of_true rfl hin.2
    · rw [hx.old v hin, h.image.mapped v hv]
      omega
  · intro v e he
    by_cases hin : n ≤ v ∧ v < n + k
    · obtain ⟨f, hf, _⟩ := hx.new v hin.1 hin.2
      rw [hf] at he
      cases he
      exact hr
    · rw [hx.old v hin] at he
      exact h.image.readable v e he
  · intro v hle hlt
    obtain ⟨e, he, hu⟩ := h.image.top v hle hlt
    exact ⟨e, by rw [hx.old v (by omega)]; exact he, hu⟩
  · intro v hv
    rw [hx.old v (by have := TRAPFRAME_lt; omega)]
    exact h.image.high v hv
  · intro v w e e' hv hw he he' heq
    by_cases hin : n ≤ v ∧ v < n + k
    · by_cases hin' : n ≤ w ∧ w < n + k
      · exact hx.distinct v w e e' hin.1 hin.2 hin'.1 hin'.2 he he' heq
      · exact absurd heq.symm (hcross w v e' e hw hin' hin.1 hin.2 he' he)
    · by_cases hin' : n ≤ w ∧ w < n + k
      · exact absurd heq (hcross v w e e' hv hin hin'.1 hin'.2 he he')
      · rw [hx.old v hin] at he
        rw [hx.old w hin'] at he'
        exact h.image.distinct v w e e' hv hw he he' heq

theorem Extended.renewed {base : Nat} (hx : Extended L m pt flags base k m' pt') :
    Renewed (Elsewhere m a) pt pt' := by
  intro v e' _ he' ho
  by_cases hin : base ≤ v ∧ v < base + k
  · obtain ⟨f, hf, hzero, _⟩ := hx.new v hin.1 hin.2
    rw [hf] at he'
    cases he'
    exact absurd ho (not_elsewhere hzero)
  · rw [hx.old v hin] at he'
    exact ⟨e', he', rfl, id⟩

/-- One more page. -/
theorem Extended.snoc {m1 : Mem} (hx : Extended L m pt flags n k m' pt') (h : Held L m' pt' (n + k))
    (ha : Allocated L m' m1 f)
    (hm : Mapped L (m1.write f zeroPage) pt' (n + k) (.new f flags) true m'' pt'') :
    Extended L m pt flags n (k + 1) m'' pt'' := by
  obtain ⟨dt, dl, hs, ht, hl⟩ := hx.shift
  obtain ⟨d, hs2, ht2⟩ := hm.shift
  have hlt := h.lt_TRAPFRAME
  have hnone : pt'.leaf (n + k) = none := h.image.none hlt le_rfl
  have hleaf : pt''.leaf = update pt'.leaf (n + k) (some (.new f flags)) := hm.leaf
  have hone : m1.refcnt f = 1 := ha.alone
  have hfill : Shift L m' (m1.write f zeroPage) 0 (one f) := ha.fill _
  have hstep : Shift L m' m'' 0 (one f + d) := hfill.acquire hs2
  have hzero : m.refcnt f = 0 := by
    have h1 := hs.balance f
    have h2 := ha.unused
    simp only [Pi.zero_apply] at h1
    omega
  have hbytes : m''.bytes f = zeroPage := by
    rw [hs2.frame (by show 0 < m1.refcnt f; omega)]
    exact update_self _ _ _
  refine ⟨⟨dt + d, dl + one f, ?_, ?_, ?_⟩, ?_, ?_, ?_⟩
  · refine (hs.acquire hstep).congr (fun _ => rfl) ?_
    intro g
    simp only [Pi.add_apply]
    omega
  · rw [ht2, ht, add_assoc]
  · rw [hleaf, leaves_set _ hlt hnone, hl, add_assoc]
    rfl
  · intro v hv
    rw [hleaf, update_of_ne (by omega)]
    exact hx.old v (by omega)
  · intro v h1 h2
    by_cases hv : v = n + k
    · exact ⟨f, by rw [hleaf, hv, update_self], hzero, hbytes⟩
    · obtain ⟨g, hg, hg0, hgz⟩ := hx.new v h1 (by omega)
      refine ⟨g, by rw [hleaf, update_of_ne hv]; exact hg, hg0, ?_⟩
      have hpos : 1 ≤ m'.refcnt g := h.refcnt_pos (by omega) hg
      rw [hstep.frame hpos]
      exact hgz
  · -- the page just allocated was not counted before, and the others were
    have hne : ∀ v e, v ≠ n + k → v < n + k → pt''.leaf v = some e → e.ppn ≠ f := by
      intro v e hv hlt' he heq
      rw [hleaf, update_of_ne hv] at he
      have hpos := h.refcnt_pos (by omega) he
      rw [heq, ha.unused] at hpos
      omega
    have hat : ∀ v e, v = n + k → pt''.leaf v = some e → e.ppn = f := by
      intro v e hv he
      rw [hleaf, hv, update_self] at he
      cases he
      rfl
    intro v w e e' h1 h2 h3 h4 he he' heq
    by_cases hv : v = n + k
    · by_cases hw : w = n + k
      · omega
      · exact absurd (heq.symm.trans (hat v e hv he)) (hne w e' hw (by omega) he')
    · by_cases hw : w = n + k
      · exact absurd (heq.trans (hat w e' hw he')) (hne v e hv (by omega) he)
      · rw [hleaf, update_of_ne hv] at he
        rw [hleaf, update_of_ne hw] at he'
        exact hx.distinct v w e e' h1 (by omega) h3 (by omega) he he' heq

/-- Page-table pages that turn up on the way change nothing. -/
theorem Extended.grown (hx : Extended L m pt flags n k m' pt') (h : Held L m' pt' (n + k))
    (hg : Grown L m' pt' m'' pt'') : Extended L m pt flags n k m'' pt'' := by
  obtain ⟨dt, dl, hs, ht, hl⟩ := hx.shift
  obtain ⟨d, hs2, ht2⟩ := hg.shift
  refine ⟨⟨dt + d, dl, ?_, by rw [ht2, ht, add_assoc], by rw [hg.leaf, hl]⟩, ?_, ?_, ?_⟩
  · refine (hs.acquire hs2).congr (fun _ => rfl) ?_
    intro g
    simp only [Pi.add_apply]
    omega
  · rw [hg.leaf]
    exact hx.old
  · intro v h1 h2
    obtain ⟨f, hf, hf0, hz⟩ := hx.new v h1 h2
    have hpos : 1 ≤ m'.refcnt f := h.refcnt_pos (h2.trans_le h.bound) hf
    exact ⟨f, by rw [hg.leaf]; exact hf, hf0, by rw [hs2.frame hpos]; exact hz⟩
  · rw [hg.leaf]
    exact hx.distinct

theorem Grown.held (hg : Grown L m pt m' pt') (h : Held L m pt n) : Held L m' pt' n := by
  obtain ⟨d, hs, ht⟩ := hg.shift
  refine ⟨hs.ok h.ok, ?_, ?_, h.bound⟩
  · exact ⟨by rw [hg.leaf]; exact h.image.mapped, by rw [hg.leaf]; exact h.image.readable,
      by rw [hg.leaf]; exact h.image.top, by rw [hg.leaf]; exact h.image.high,
      by rw [hg.leaf]; exact h.image.distinct⟩
  · intro f
    have h1 := hs.balance f
    have h2 := h.covered f
    simp only [owned, ht, hg.leaf, Pi.add_apply, Pi.zero_apply] at *
    omega

/-- `uvmdealloc` on the error path takes all new pages back. -/
theorem Extended.rollback (hx : Extended L m pt flags n k m' pt')
    (hnone : ∀ v, n ≤ v → v < n + k → pt.leaf v = none) (hu : Unmapped L m' pt' n k m'' pt'') :
    Grown L m pt m'' pt'' := by
  obtain ⟨dt, dl, hs, ht, hl⟩ := hx.shift
  obtain ⟨c, hs2, hc⟩ := hu.shift
  have hleaf : pt''.leaf = pt.leaf := by
    funext v
    rw [hu.leaf]
    by_cases hin : n ≤ v ∧ v < n + k
    · rw [if_pos hin, hnone v hin.1 hin.2]
    · rw [if_neg hin, hx.old v hin]
  have hcl : c = dl := by
    rw [hleaf, hl] at hc
    exact (add_left_cancel hc).symm
  rw [hcl] at hs2
  refine ⟨hleaf, dt, hs.trans ((hs2.add dt).congr ?_ ?_), by rw [hu.tables, ht]⟩
  · intro f
    simp [Nat.add_comm]
  · intro f
    simp

/-- The error path of the loop of `uvmalloc`. -/
theorem uvmalloc_rollback (h : Held L m pt n) (hx : Extended L m pt flags n k m' pt')
    (h' : Held L m' pt' (n + k)) :
    ∃ r m'' pt'', uvmdealloc L pt' ((n + k) * PGSIZE) (n * PGSIZE) m' = .ok (r, m'', pt'') ∧
      Grown L m pt m'' pt'' ∧ m''.oom = m'.oom := by
  obtain ⟨m'', pt'', hrun, hu⟩ := uvmdealloc_spec ((n + k) * PGSIZE) (n * PGSIZE)
    (by rw [pages_mul]; exact h')
  rw [pages_mul, pages_mul, Nat.add_sub_cancel_left] at hu
  refine ⟨_, m'', pt'', hrun, hx.rollback ?_ hu, hu.oom⟩
  intro v h1 h2
  exact h.image.none (h2.trans_le h'.bound) h1

/-- The loop of `uvmalloc`, `j` pages after its start. -/
theorem uvmallocLoop_spec (flags : Flags) (hr : flags.r = true) (h : Held L m pt n) :
    ∀ (k j : Nat) {m' : Mem} {pt' : PageTable}, Extended L m pt flags n j m' pt' →
      Held L m' pt' (n + j) →
      ∃ r m'' pt'', uvmallocLoop L flags n k (n + j) pt' m' = .ok (r, m'', pt'') ∧
        ((r = true ∧ Extended L m pt flags n (j + k) m'' pt'' ∧ n + (j + k) ≤ TRAPFRAME) ∨
          (r = false ∧ m''.oom = true ∧ Grown L m pt m'' pt'')) := by
  intro k
  induction k with
  | zero =>
    intro j m' pt' hx h'
    exact ⟨true, m', pt', rfl, Or.inl ⟨rfl, hx, h'.bound⟩⟩
  | succ k ih =>
    intro j m' pt' hx h'
    cases hfree : m'.freelist with
    | nil =>
      -- no page
      have hg : Grown L m' pt' { m' with oom := true } pt' :=
        ⟨rfl, 0, shift_oom L m' 0, by simp⟩
      obtain ⟨r, m2, pt2, hrun, hg2, hoom⟩ :=
        uvmalloc_rollback h (hx.grown h' hg) (hg.held h')
      refine ⟨false, m2, pt2, ?_, Or.inr ⟨rfl, hoom, hg2⟩⟩
      rw [uvmallocLoop, kalloc_none hfree]
      show (uvmdealloc L pt' _ _ _ >>= _) = _
      rw [hrun]
      rfl
    | cons f rest =>
      obtain ⟨m1, hrun1, ha⟩ := kalloc_some h'.ok hfree
      have hfill : Shift L m' (m1.write f zeroPage) 0 (one f) := ha.fill _
      obtain ⟨r2, m2, pt2, hrun2, hm⟩ := mappages_spec (hfill.ok h'.ok) pt'
        (h'.lt_TRAPFRAME.trans TRAPFRAME_lt)
        (h'.image.none h'.lt_TRAPFRAME le_rfl) (.new f flags)
      have hloop : uvmallocLoop L flags n (k + 1) (n + j) pt' m' =
          if r2 then uvmallocLoop L flags n k (n + j + 1) pt2 m2
          else (kfree L f m2 >>= fun m =>
            uvmdealloc L pt2 ((n + j) * PGSIZE) (n * PGSIZE) m >>= fun r =>
            .ok (false, r.2.1, r.2.2)) := by
        rw [uvmallocLoop, hrun1]
        show (mappages pt' (n + j) _ _ >>= _) = _
        rw [hrun2]
        rfl
      cases hr2 : r2 with
      | true =>
        rw [hr2] at hm hloop
        have hx2 := hx.snoc h' ha hm
        have h2 := hx2.held h hr (by have := h'.lt_TRAPFRAME; omega)
        obtain ⟨r3, m3, pt3, hrun3, hend⟩ := ih (j + 1) hx2 h2
        refine ⟨r3, m3, pt3, hloop.trans hrun3, ?_⟩
        rw [show j + (k + 1) = j + 1 + k by omega]
        exact hend
      | false =>
        -- no page for the table: the page goes back too
        rw [hr2] at hm hloop
        obtain ⟨d, hs2, ht2⟩ := hm.shift
        have hpos : 1 ≤ m2.refcnt f := by
          have h1 := hs2.balance f
          have h2 : (m1.write f zeroPage).refcnt f = 1 := ha.alone
          simp only [Pi.zero_apply] at h1
          omega
        obtain ⟨m3, hrun3, hs3, _, hoom3⟩ := kfree_spec (hs2.ok (hfill.ok h'.ok)) hpos
        have hg : Grown L m' pt' m3 pt2 := by
          refine ⟨hm.leaf, d, (hfill.acquire hs2).trans ((hs3.add d).congr (fun _ => rfl) ?_), ht2⟩
          intro g
          simp
        obtain ⟨r, m4, pt4, hrun4, hg4, hoom4⟩ :=
          uvmalloc_rollback h (hx.grown h' hg) (hg.held h')
        refine ⟨false, m4, pt4, ?_, Or.inr ⟨rfl, ?_, hg4⟩⟩
        · rw [hloop, if_neg Bool.false_ne_true, hrun3]
          show (uvmdealloc L pt2 _ _ _ >>= _) = _
          rw [hrun4]
          rfl
        · rw [hoom4, hoom3]
          exact hm.failed rfl

/-- `uvmalloc` does nothing, or adds pages, or runs out of memory and takes
everything back except page-table pages. -/
theorem uvmalloc_spec {oldsz : Nat} (h : Held L m pt (pages oldsz)) (newsz : Nat) (w x : Bool) :
    ∃ r m' pt', uvmalloc L pt oldsz newsz w x m = .ok (r, m', pt') ∧
      ((newsz < oldsz ∧ r = oldsz ∧ m' = m ∧ pt' = pt) ∨
        (oldsz ≤ newsz ∧ r = newsz ∧ pages newsz ≤ TRAPFRAME ∧
          Extended L m pt (userFlags w x) (pages oldsz) (pages newsz - pages oldsz) m' pt') ∨
        (oldsz ≤ newsz ∧ r = 0 ∧ m'.oom = true ∧ Grown L m pt m' pt')) := by
  unfold uvmalloc
  by_cases hlt : newsz < oldsz
  · exact ⟨oldsz, m, pt, if_pos hlt, Or.inl ⟨hlt, rfl, rfl, rfl⟩⟩
  · have hle : oldsz ≤ newsz := Nat.le_of_not_lt hlt
    have hpages := pages_mono hle
    obtain ⟨r, m', pt', hrun, hend⟩ := uvmallocLoop_spec (userFlags w x) rfl h
      (pages newsz - pages oldsz) 0 (Extended.refl L m pt _ _) h
    rw [Nat.zero_add, Nat.add_sub_cancel' hpages] at hend
    refine ⟨if r then newsz else 0, m', pt', ?_, Or.inr ?_⟩
    · rw [if_neg hlt]
      show (uvmallocLoop L _ _ _ (pages oldsz + 0) pt m >>= _) = _
      rw [hrun]
      rfl
    · rcases hend with ⟨rfl, hx, hb⟩ | ⟨rfl, hoom, hg⟩
      · exact Or.inl ⟨hle, rfl, hb, hx⟩
      · exact Or.inr ⟨hle, rfl, hoom, hg⟩

end Xv6.Memory
