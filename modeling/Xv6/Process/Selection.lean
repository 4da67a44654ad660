import Mathlib.Data.List.FinRange
import Xv6.Process.Priority

/-!
# What the scan selects

One scan of `scheduler()` with no other hart in between.  `min_priority` is an
`int` and the fields that it is compared with are unsigned, but it always holds
the dynamic priority of `min_proc`, so every comparison is one of unsigned
numbers.  The four tests of the loop are one comparison of the keys
(`better_iff_keyLe`), and the scan keeps the last slot with the least key among
those that it has visited (`Selects`).
-/

namespace Xv6.Process

open Function

variable {t : Table} {best : Best} {V : Slot → Prop} {a b c : Proc} {i m q : Slot}

/-! ## Keys -/

/-- The key of `a` is at most that of `b`: `DYNAMIC_PRIO`, then `N_RUN`, then
`ctime`. -/
def Proc.KeyLe (a b : Proc) : Prop :=
  a.dynamicPrio < b.dynamicPrio ∨ a.dynamicPrio = b.dynamicPrio ∧
    (a.nRun < b.nRun ∨ a.nRun = b.nRun ∧ a.ctime ≤ b.ctime)

theorem Proc.KeyLe.refl (a : Proc) : a.KeyLe a :=
  Or.inr ⟨rfl, Or.inr ⟨rfl, UInt32.le_refl _⟩⟩

theorem Proc.KeyLe.trans (h : a.KeyLe b) (h' : b.KeyLe c) : a.KeyLe c := by
  simp only [KeyLe, UInt32.lt_iff_toNat_lt, UInt32.le_iff_toNat_le, ← UInt32.toNat_inj] at h h' ⊢
  omega

theorem Proc.KeyLe.of_not (h : ¬a.KeyLe b) : b.KeyLe a := by
  simp only [KeyLe, UInt32.lt_iff_toNat_lt, UInt32.le_iff_toNat_le, ← UInt32.toNat_inj] at h ⊢
  omega

/-- The tests of the loop compare the keys. -/
theorem better_iff_keyLe {minPriority : Int32} (hprio : minPriority.toUInt32 = a.dynamicPrio) :
    better minPriority a b = true ↔ b.KeyLe a := by
  simp only [better, hprio, Bool.or_eq_true, Bool.and_eq_true, decide_eq_true_eq, beq_iff_eq,
    Proc.KeyLe, UInt32.lt_iff_toNat_lt, UInt32.le_iff_toNat_le, ← UInt32.toNat_inj]
  omega

/-- `m` has the least key, and is the last slot with it. -/
def Chosen (t : Table) (m i : Slot) : Prop :=
  (t m).KeyLe (t i) ∧ ((t i).KeyLe (t m) → i ≤ m)

theorem Chosen.refl (t : Table) (m : Slot) : Chosen t m m := ⟨.refl _, fun _ => le_refl m⟩

theorem Chosen.trans (h : Chosen t q m) (h' : Chosen t m i) : Chosen t q i := by
  refine ⟨h.1.trans h'.1, ?_⟩
  intro hle
  exact (h'.2 (hle.trans h.1)).trans (h.2 (h'.1.trans hle))

theorem Chosen.congr {t' : Table} (hm : t' m = t m) (hi : t' i = t i) :
    Chosen t' m i ↔ Chosen t m i := by
  rw [Chosen, Chosen, hm, hi]

/-! ## One slot -/

/-- What the scan makes of a slot. -/
def Proc.scanned (p : Proc) : Proc := if p.state = .runnable then p.recompute else p

theorem Proc.scanned_state (p : Proc) : p.scanned.state = p.state := by
  unfold scanned
  split <;> rfl

theorem Proc.scanned_nRun (p : Proc) : p.scanned.nRun = p.nRun := by
  unfold scanned
  split <;> rfl

theorem scanSlot_fst (t : Table) (best : Best) (q : Slot) :
    (scanSlot t best q).1 = update t q (t q).scanned := by
  unfold scanSlot Proc.scanned
  split
  · dsimp only
    split
    · rfl
    · split <;> rfl
  · rw [update_eq_self]

/-- Among the slots `V`, the scan remembers the one to choose. -/
@[irreducible] def Selects (t : Table) (V : Slot → Prop) (best : Best) : Prop :=
  match best.minProc with
  | none => ∀ i, V i → (t i).state ≠ .runnable
  | some m =>
      V m ∧ (t m).state = .runnable ∧ best.minPriority.toUInt32 = (t m).dynamicPrio ∧
        ∀ i, V i → (t i).state = .runnable → Chosen t m i

/-- A slot that is not `RUNNABLE` does not matter. -/
theorem Selects.skip (h : Selects t V best) (hq : (t q).state ≠ .runnable) :
    Selects t (fun i => V i ∨ i = q) best := by
  unfold Selects at h ⊢
  split at h
  · intro i hi
    cases hi with
    | inl hV => exact h i hV
    | inr hiq => exact hiq ▸ hq
  · obtain ⟨hV, hm, hprio, hbest⟩ := h
    refine ⟨Or.inl hV, hm, hprio, ?_⟩
    intro i hi hrun
    cases hi with
    | inl hV => exact hbest i hV hrun
    | inr hiq => exact absurd (hiq ▸ hrun) hq

/-- The slot `q` is to be chosen over all those before. -/
theorem Selects.take (hq : (t q).state = .runnable)
    (hbest : ∀ i, V i → (t i).state = .runnable → Chosen t q i) :
    Selects t (fun i => V i ∨ i = q) ⟨some q, (t q).dynamicPrio.toInt32⟩ := by
  unfold Selects
  refine ⟨Or.inr rfl, hq, by simp, ?_⟩
  intro i hi hrun
  cases hi with
  | inl hV => exact hbest i hV hrun
  | inr hiq => exact hiq ▸ Chosen.refl t q

/-- The scan of one more slot, which comes after those that were visited. -/
theorem Selects.scanSlot (h : Selects t V best) (hlater : ∀ i, V i → i < q) :
    Selects (scanSlot t best q).1 (fun i => V i ∨ i = q) (scanSlot t best q).2 := by
  by_cases hready : (t q).state = .runnable
  · -- the table with the new priority of `q`
    have hupd : ∀ i, V i → update t q (t q).recompute i = t i :=
      fun i hi => update_of_ne (hlater i hi).ne _ _
    have hq : update t q (t q).recompute q = (t q).recompute := update_self ..
    generalize ht' : update t q (t q).recompute = t' at hupd hq
    have hself : (t' q).state = .runnable := by rw [hq]; exact hready
    unfold Process.scanSlot
    rw [if_pos hready]
    simp only [ht']
    simp only [← hq]
    cases hmin : best.minProc with
    | none =>
      simp only [Selects, hmin] at h
      dsimp only
      refine Selects.take hself ?_
      intro i hi hrun
      rw [hupd i hi] at hrun
      exact absurd hrun (h i hi)
    | some m =>
      simp only [Selects, hmin] at h
      obtain ⟨hVm, hm, hprio, hbest⟩ := h
      -- the order among the slots before is that of the old table
      have hold : ∀ i, V i → (t' i).state = .runnable → Chosen t' m i := by
        intro i hi hrun
        rw [hupd i hi] at hrun
        exact (Chosen.congr (hupd m hVm) (hupd i hi)).mpr (hbest i hi hrun)
      have hcmp : better best.minPriority (t' m) (t' q) = true ↔ (t' q).KeyLe (t' m) :=
        better_iff_keyLe (by rw [hprio, hupd m hVm])
      dsimp only
      split
      · rename_i hb
        have hqm : Chosen t' q m := ⟨hcmp.mp hb, fun _ => (hlater m hVm).le⟩
        refine Selects.take hself ?_
        intro i hi hrun
        exact hqm.trans (hold i hi hrun)
      · rename_i hb
        simp only [Selects, hmin]
        refine ⟨Or.inl hVm, by rw [hupd m hVm]; exact hm, by rw [hupd m hVm]; exact hprio, ?_⟩
        intro i hi hrun
        cases hi with
        | inl hV => exact hold i hV hrun
        | inr hiq =>
          have hnot : ¬(t' q).KeyLe (t' m) := fun hle => hb (hcmp.mpr hle)
          rw [hiq]
          exact ⟨.of_not hnot, fun hle => absurd hle hnot⟩
  · unfold Process.scanSlot
    rw [if_neg hready]
    exact h.skip hready

/-! ## The whole scan -/

/-- The slots that are left to scan come after those that were visited. -/
structure Ordered (rest : List Slot) : Prop where
  sorted : rest.Pairwise (· < ·)
  later : ∀ i, i ∉ rest → ∀ j ∈ rest, i < j

theorem Ordered.all : Ordered (List.finRange NPROC) :=
  ⟨List.pairwise_lt_finRange NPROC, fun i hi => absurd (List.mem_finRange i) hi⟩

theorem Ordered.tail {rest : List Slot} (h : Ordered (q :: rest)) : Ordered rest := by
  obtain ⟨hq, hrest⟩ := List.pairwise_cons.mp h.sorted
  refine ⟨hrest, fun i hi j hj => ?_⟩
  by_cases hiq : i = q
  · exact hiq ▸ hq j hj
  · exact h.later i (by simp [hiq, hi]) j (List.mem_cons_of_mem q hj)

/-- A slot is visited once. -/
theorem Ordered.notMem_iff {rest : List Slot} (h : Ordered (q :: rest)) (i : Slot) :
    i ∉ rest ↔ i ∉ q :: rest ∨ i = q := by
  have hq : q ∉ rest := fun hq =>
    absurd ((List.pairwise_cons.mp h.sorted).1 q hq) (lt_irrefl q)
  rw [List.mem_cons, not_or]
  constructor
  · intro hi
    by_cases hiq : i = q
    · exact Or.inr hiq
    · exact Or.inl ⟨hiq, hi⟩
  · intro hi
    cases hi with
    | inl hi => exact hi.2
    | inr hiq => exact hiq ▸ hq

/-- The loop over the slots that are left. -/
def scanRest (rest : List Slot) (acc : Table × Best) : Table × Best :=
  rest.foldl (fun acc q => scanSlot acc.1 acc.2 q) acc

theorem scanTable_eq (t : Table) : scanTable t = scanRest (List.finRange NPROC) (t, Best.start) :=
  rfl

theorem Selects.scanRest {rest : List Slot} :
    ∀ (t : Table) (best : Best), Ordered rest → Selects t (· ∉ rest) best →
      Selects (scanRest rest (t, best)).1 (fun _ => True) (scanRest rest (t, best)).2 ∧
      ∀ i, (scanRest rest (t, best)).1 i = if i ∈ rest then (t i).scanned else t i := by
  induction rest with
  | nil =>
    intro t best _ h
    have hall : (fun i : Slot => i ∉ []) = fun _ => True := by simp
    rw [hall] at h
    exact ⟨h, fun _ => rfl⟩
  | cons q rest ih =>
    intro t best hord h
    have hstep := h.scanSlot (fun i hi => hord.later i hi q (List.mem_cons_self ..))
    have hvisited : (fun i => i ∉ q :: rest ∨ i = q) = (· ∉ rest) := by
      funext i
      exact propext (hord.notMem_iff i).symm
    rw [hvisited] at hstep
    obtain ⟨hend, hprocs⟩ := ih _ _ hord.tail hstep
    refine ⟨hend, ?_⟩
    intro i
    have hone : (Process.scanSlot t best q).1 i = if i = q then (t q).scanned else t i := by
      rw [scanSlot_fst, update_apply]
    show (Process.scanRest rest (Process.scanSlot t best q)).1 i = _
    rw [hprocs i, hone]
    by_cases hi : i = q
    · have hq := (hord.notMem_iff q).mpr (Or.inr rfl)
      rw [hi, if_neg hq, if_pos rfl, if_pos (List.mem_cons_self ..)]
    · simp [hi]

/-- For every table, the scan leaves `min_proc = 0` exactly if no process is
`RUNNABLE`, and otherwise selects a `RUNNABLE` process with the least key, the
last one in the table among those.  The priorities of the `RUNNABLE` processes
are computed anew, and nothing else changes. -/
theorem scanTable_selects (t : Table) :
    ((scanTable t).2.minProc = none ↔ ∀ i, (t i).state ≠ .runnable) ∧
    (∀ m, (scanTable t).2.minProc = some m →
      (t m).state = .runnable ∧
      ∀ i, (t i).state = .runnable →
        ((scanTable t).1 m).KeyLe ((scanTable t).1 i) ∧
        (((scanTable t).1 i).KeyLe ((scanTable t).1 m) → i ≤ m)) ∧
    (∀ i, (t i).state = .runnable → (scanTable t).1 i = (t i).recompute) ∧
    (∀ i, (t i).state ≠ .runnable → (scanTable t).1 i = t i) := by
  have hstart : Selects t (· ∉ List.finRange NPROC) Best.start := by
    unfold Selects
    intro i hi
    exact absurd (List.mem_finRange i) hi
  obtain ⟨hend, hprocs⟩ := Selects.scanRest t Best.start Ordered.all hstart
  rw [← scanTable_eq] at hend hprocs
  have hscanned : ∀ i, (scanTable t).1 i = (t i).scanned := by
    intro i
    rw [hprocs i, if_pos (List.mem_finRange i)]
  have hstate : ∀ i, ((scanTable t).1 i).state = (t i).state := by
    intro i
    rw [hscanned i, Proc.scanned_state]
  refine ⟨?_, ?_, ?_, ?_⟩
  · cases hmin : (scanTable t).2.minProc with
    | none =>
      simp only [Selects, hmin, hstate] at hend
      exact ⟨fun _ i => hend i True.intro, fun _ => rfl⟩
    | some m =>
      simp only [Selects, hmin, hstate] at hend
      constructor
      · intro hnone
        cases hnone
      · intro hnone
        exact absurd hend.2.1 (hnone m)
  · intro m hmin
    simp only [Selects, hmin, hstate] at hend
    obtain ⟨_, hm, _, hbest⟩ := hend
    exact ⟨hm, fun i hi => hbest i True.intro hi⟩
  · intro i hi
    rw [hscanned i, Proc.scanned, if_pos hi]
  · intro i hi
    rw [hscanned i, Proc.scanned, if_neg hi]

end Xv6.Process
