import Mathlib.Algebra.BigOperators.Ring.Finset
import Xv6.Cafe.Threads

/-!
# Baristas and totals

What the runs of the cafe keep.  A barista is held by one customer at a time,
and a customer gets one barista and keeps them.  When all the threads have
finished the semaphores are back at 1, `coffee_waste` is the number of
customers who were late, and `waiting_time` has the whole wait of a customer who
was late beside their tolerance: the braces of the last `if` are missing, so
`waiting_time` is updated there for everybody.
-/

namespace Xv6.Cafe

open Xv6.Lib Function

variable {inp : Input} {s s' : State} {c : Customer} {j : Nat}

/-- `current_time` of a customer who has finished. -/
def At.completion : At → Option Int
  | .done _ t => some t
  | _ => none

/-- All the threads have finished. -/
def Finished (inp : Input) (s : State) : Prop :=
  ∀ j < inp.customers.length, ((s.customer j).completion).isSome = true

instance (inp : Input) (s : State) : Decidable (Finished inp s) :=
  inferInstanceAs (Decidable (∀ j < inp.customers.length, _))

theorem completion_eq_some {a : At} {t : Int} (h : a.completion = some t) :
    ∃ i, a = .done i t := by
  cases a with
  | done i t' =>
    cases h
    exact ⟨i, rfl⟩
  | _ => cases h

theorem Finished.done (h : Finished inp s) (hj : j < inp.customers.length) :
    ∃ i t, s.customer j = .done i t := by
  obtain ⟨t, ht⟩ := Option.isSome_iff_exists.mp (h j hj)
  obtain ⟨i, hi⟩ := completion_eq_some ht
  exact ⟨i, t, hi⟩

/-- Two sums that agree once all the threads have finished. -/
theorem Finished.sumOver_eq {f g : Customer → At → Int} (h : Finished inp s)
    (heq : ∀ c i t, f c (.done i t) = g c (.done i t)) : sumOver inp f s = sumOver inp g s := by
  refine Finset.sum_congr rfl ?_
  intro j hj
  obtain ⟨i, t, hat⟩ := h.done (Finset.mem_range.mp hj)
  simp only [hat, heq]

/-! ## Baristas -/

/-- Which customer got which barista, the last one first. -/
abbrev Grabs := List (Nat × Nat)

/-- The customer of the step gets a barista. -/
def record (grabs : Grabs) (s : State) : Action → State → Grabs
  | .main, _ => grabs
  | .customer j _, s' =>
      if (s.customer j).barista = none then
        (s'.customer j).barista.toList.map (fun i => (j, i)) ++ grabs
      else grabs

/-- The program starts, and nobody has had a barista. -/
def Started (inp : Input) (x : State × Grabs) : Prop := x = (start inp, [])

/-- The baristas that customer `j` has got. -/
def Grabs.of (grabs : Grabs) (j : Nat) : List Nat :=
  grabs.filterMap (fun g => if g.1 = j then some g.2 else none)

@[simp] theorem Grabs.of_append (g h : Grabs) (j : Nat) :
    Grabs.of (g ++ h) j = Grabs.of g j ++ Grabs.of h j :=
  List.filterMap_append

theorem Grabs.of_map (l : List Nat) (k j : Nat) :
    Grabs.of (l.map (fun i => (k, i))) j = if k = j then l else [] := by
  by_cases hk : k = j
  · simp [Grabs.of, List.filterMap_map, hk]
  · simp [Grabs.of, List.filterMap_map, hk]

/-- Every customer has got the barista of their choice, once. -/
def Served (x : State × Grabs) : Prop :=
  ∀ j, x.2.of j = ((x.1.customer j).choice).toList

/-- `main` gives nobody a barista. -/
theorem mainStep_choice (h : Inv inp s) (hs : mainStep inp s = some s') (j : Nat) :
    (s'.customer j).choice = (s.customer j).choice := by
  unfold mainStep at hs
  split at hs
  case h_1 => split at hs <;> cases hs <;> rfl
  case h_2 => cases hs; rfl
  case h_3 k hat =>
    split at hs
    · cases hs
      have habsent : s.customer k = .absent := h.closed k (by rw [hat]; simp [MainAt.unborn])
      show (update s.customer k .arriving j).choice = _
      by_cases hj : j = k
      · rw [hj, update_self, habsent]
        rfl
      · rw [update_of_ne hj]
    · cases hs
      rfl
  case h_4 =>
    split at hs
    · split at hs
      · cases hs
        rfl
      · cases hs
    · cases hs
      rfl
  case h_5 => cases hs

/-- A step of a customer that meets `Moves` is recorded once. -/
theorem Served.move {grabs : Grabs} {b : At} {now : Int} (h : Served (s, grabs))
    (hm : Moves inp c j s s' b) : Served (s', record grabs s (.customer j now) s') := by
  intro k
  have hold : grabs.of k = ((s.customer k).choice).toList := h k
  have hself : s'.customer j = b := by rw [hm.customer, update_self]
  show Grabs.of (if _ then _ else _) k = ((s'.customer k).choice).toList
  by_cases hk : k = j
  · subst hk
    rw [hself]
    rcases hm.choice with ⟨hchoice, hkeep⟩ | ⟨hchoice, hnone, hget⟩
    · rw [hchoice]
      split
      · rename_i hnone
        rw [hkeep hnone]
        exact hold
      · exact hold
    · rw [if_pos hnone, Grabs.of_append, Grabs.of_map, if_pos rfl, hold, hchoice, hget]
      exact List.append_nil _
  · have hother : s'.customer k = s.customer k := by rw [hm.customer, update_of_ne hk]
    rw [hother]
    split
    · rw [Grabs.of_append, Grabs.of_map, if_neg (Ne.symm hk), hold]
      rfl
    · exact hold

/-- Every state of a run with its history meets both. -/
theorem inv_served {x : State × Grabs} (h : Reach (instrument (next inp) record) (Started inp) x) :
    Inv inp x.1 ∧ Served x := by
  refine ReachWhen.invariant (I := fun x => Inv inp x.1 ∧ Served x) ?_ ?_ h
  · intro x hx
    rw [hx]
    exact ⟨inv_start inp, fun _ => rfl⟩
  · intro x a y hx _ hnext
    obtain ⟨hinv, hserved⟩ := hx
    obtain ⟨hs, hrecord⟩ := instrument_eq_some hnext
    refine ⟨next_inv hinv hs, ?_⟩
    cases a with
    | main =>
      intro j
      rw [hrecord, mainStep_choice hinv hs]
      exact hserved j
    | customer j now =>
      obtain ⟨c, hc, hs⟩ := Option.bind_eq_some_iff.mp hs
      obtain ⟨b, hm⟩ := customerStep_moves hinv hc hs
      have hmoved : Served (y.1, record x.2 x.1 (.customer j now) y.1) := hserved.move hm
      rw [← hrecord] at hmoved
      exact hmoved

/-- The customers who are being served. -/
def served (inp : Input) (s : State) : Finset Nat :=
  {j ∈ Finset.range inp.customers.length | ((s.customer j).barista).isSome = true}

/-- The customers who were late. -/
def lateCustomers (inp : Input) (s : State) : Finset Nat :=
  {j ∈ Finset.range inp.customers.length |
    (inp.customers[j]?).any (fun c => ((s.customer j).completion).any (fun t => c.late t)) = true}

/-- The semaphores are initialised once some thread is there. -/
theorem Inv.ready (h : Inv inp s) (hyes : admitted inp = true)
    (hborn : ∃ j, s.customer j ≠ .absent) {i : Nat} (hi : i < inp.numBaristas) :
    s.baristaSemaphores i + holders inp s i = 1 := by
  refine h.semaphore hyes i hi ?_
  obtain ⟨j, hj⟩ := hborn
  cases hmain : s.main with
  | initBarista l => exact absurd (h.closed j (by rw [hmain]; rfl)) hj
  | _ => rfl

/-- A barista has at most one customer. -/
theorem Inv.holders_le (h : Inv inp s) {i : Nat} (hi : i < inp.numBaristas) :
    holders inp s i ≤ 1 := by
  by_cases hborn : ∃ j, s.customer j ≠ .absent
  · by_cases hyes : admitted inp = true
    · have hone := h.ready hyes hborn hi
      omega
    · obtain ⟨j, hj⟩ := hborn
      rw [h.refused (by simpa using hyes)] at hj
      exact absurd rfl hj
  · have hzero : holders inp s = 0 := by
      refine total_zero ?_
      intro j _
      have habsent : s.customer j = .absent := by
        by_contra hj
        exact hborn ⟨j, hj⟩
      funext k
      rw [habsent]
      rfl
    rw [hzero]
    exact Nat.zero_le 1

theorem has_of_barista {a : At} {i : Nat} (h : a.barista = some i) : a.has i = 1 := if_pos h

/-- No barista has two customers. -/
theorem Inv.exclusive (h : Inv inp s) {j k i : Nat} (hj : j < inp.customers.length)
    (hk : k < inp.customers.length) (hji : (s.customer j).barista = some i)
    (hki : (s.customer k).barista = some i) : j = k := by
  by_contra hne
  have hle := h.holders_le (h.range j i (choice_of_barista hji))
  have hpair := le_total_pair (g := At.has) (t := s.customer) (Finset.mem_range.mpr hj)
    (Finset.mem_range.mpr hk) (Ne.symm hne) i
  rw [has_of_barista hji, has_of_barista hki] at hpair
  rw [holders] at hle
  omega

/-- The baristas that are held are different ones. -/
theorem Inv.served_le (h : Inv inp s) : (served inp s).card ≤ inp.numBaristas := by
  have hinj : Set.InjOn (fun j => ((s.customer j).barista).getD 0) (served inp s) := by
    intro j hj k hk heq
    obtain ⟨hj, hsj⟩ := Finset.mem_filter.mp (Finset.mem_coe.mp hj)
    obtain ⟨hk, hsk⟩ := Finset.mem_filter.mp (Finset.mem_coe.mp hk)
    obtain ⟨i, hi⟩ := Option.isSome_iff_exists.mp hsj
    obtain ⟨l, hl⟩ := Option.isSome_iff_exists.mp hsk
    simp only [hi, hl, Option.getD_some] at heq
    rw [← heq] at hl
    exact h.exclusive (Finset.mem_range.mp hj) (Finset.mem_range.mp hk) hi hl
  have hmaps : Set.MapsTo (fun j => ((s.customer j).barista).getD 0) (served inp s)
      (Finset.range inp.numBaristas) := by
    intro j hj
    obtain ⟨_, hsj⟩ := Finset.mem_filter.mp (Finset.mem_coe.mp hj)
    obtain ⟨i, hi⟩ := Option.isSome_iff_exists.mp hsj
    simp only [hi, Option.getD_some]
    exact Finset.mem_coe.mpr (Finset.mem_range.mpr (h.range j i (choice_of_barista hi)))
  have hcard := Finset.card_le_card_of_injOn _ hmaps hinj
  rw [Finset.card_range] at hcard
  exact hcard

/-- Nobody has a barista once all the threads have finished. -/
theorem Finished.holders_zero (h : Finished inp s) : holders inp s = 0 := by
  refine total_zero ?_
  intro j hj
  obtain ⟨i, t, hat⟩ := h.done (Finset.mem_range.mp hj)
  funext k
  rw [hat]
  rfl

/-- `coffee_waste` counts those who were late. -/
theorem Finished.waste (hdone : Finished inp s) (h : Inv inp s) :
    s.coffeeWaste = (lateCustomers inp s).card := by
  rw [h.waste, lateCustomers, Finset.card_filter, Nat.cast_sum]
  refine Finset.sum_congr rfl ?_
  intro j hj
  obtain ⟨i, t, hat⟩ := hdone.done (Finset.mem_range.mp hj)
  have hlt := Finset.mem_range.mp hj
  have hany : (inp.customers[j]?).any
      (fun c => ((s.customer j).completion).any (fun t => c.late t)) = inp.customers[j].late t := by
    rw [List.getElem?_eq_getElem hlt, hat]
    rfl
  rw [hany, List.getElem?_eq_getElem hlt, hat, Nat.cast_ite, Nat.cast_one, Nat.cast_zero]
  rfl

/-- Admission makes sure that there is a customer. -/
theorem admitted_pos (h : admitted inp = true) : 0 < inp.customers.length := by
  simp only [admitted, Bool.and_eq_true, decide_eq_true_eq] at h
  exact h.1.1.1.1.2

theorem baristas_and_waste {x : State × Grabs} (hyes : admitted inp = true)
    (h : Reach (instrument (next inp) record) (Started inp) x) :
    (∀ j < inp.customers.length, ∀ k < inp.customers.length, ∀ i,
      (x.1.customer j).barista = some i → (x.1.customer k).barista = some i → j = k) ∧
    (served inp x.1).card ≤ inp.numBaristas ∧
    (∀ j, x.2.of j = ((x.1.customer j).choice).toList) ∧
    (Finished inp x.1 →
      (∀ j < inp.customers.length, ∃ i < inp.numBaristas, x.2.of j = [i]) ∧
      (∀ i < inp.numBaristas, x.1.baristaSemaphores i = 1) ∧
      x.1.coffeeWaste = (lateCustomers inp x.1).card) := by
  obtain ⟨hinv, hserved⟩ := inv_served h
  refine ⟨fun j hj k hk i => hinv.exclusive hj hk, hinv.served_le, hserved, ?_⟩
  intro hdone
  refine ⟨?_, ?_, hdone.waste hinv⟩
  · intro j hj
    obtain ⟨i, t, hat⟩ := hdone.done hj
    have hof : x.2.of j = [i] := by rw [hserved j, hat]; rfl
    exact ⟨i, hinv.range j i (by rw [hat]; rfl), hof⟩
  · intro i hi
    obtain ⟨l, t, hat⟩ := hdone.done (admitted_pos hyes)
    have hone := hinv.ready hyes ⟨0, by rw [hat]; simp⟩ hi
    rw [hdone.holders_zero] at hone
    exact hone

/-- Two customers and one barista.  The second one is late. -/
def twoCustomers : Input where
  numBaristas := 1
  coffeeTypes := ["Espresso"]
  customers := [⟨"Espresso", 0, 3⟩, ⟨"Espresso", 0, 1⟩]

/-- `main` creates the threads, and the customers come one after the other. -/
def oneByOne : List Action :=
  List.replicate 6 .main ++ List.replicate 11 (.customer 0 2) ++ List.replicate 19 (.customer 1 4)

theorem baristas_and_waste_oneByOne :
    ∃ x, Reach (instrument (next twoCustomers) record) (Started twoCustomers) x ∧
      (∀ j < 2, ∃ i < 1, x.2.of j = [i]) ∧ x.1.baristaSemaphores 0 = 1 ∧
      x.1.coffeeWaste = 1 := by
  obtain ⟨x, hx, hdone, hlate⟩ :
      ∃ x, Reach (instrument (next twoCustomers) record) (Started twoCustomers) x ∧
        Finished twoCustomers x.1 ∧ (lateCustomers twoCustomers x.1).card = 1 :=
    exists_reachWhen_of_run (s := (start twoCustomers, [])) oneByOne rfl (by decide +kernel)
  obtain ⟨hchoice, hsem, hwaste⟩ := (baristas_and_waste (by decide) hx).2.2.2 hdone
  refine ⟨x, hx, hchoice, hsem 0 (by decide), ?_⟩
  rw [hwaste, hlate]
  rfl

/-! ## Waiting time -/

/-- The wait of a customer, up to their tolerance. -/
def spent (c : Customer) (a : At) : Int :=
  (a.completion.map (fun t => if c.late t then c.tolerance.toInt else c.waited t)).getD 0

/-- The whole wait of a customer who was late. -/
def overstay (c : Customer) (a : At) : Int :=
  (a.completion.map (fun t => if c.late t then c.waited t else 0)).getD 0

theorem counted_done (c : Customer) (i : Nat) (t : Int) :
    At.counted c (.done i t) = spent c (.done i t) + overstay c (.done i t) := by
  simp only [At.counted, spent, overstay, At.completion, Option.map_some, Option.getD_some]
  split
  · rfl
  · exact Int.add_comm _ _

/-- What `waiting_time` is in the end. -/
theorem Finished.waiting (hdone : Finished inp s) (h : Inv inp s) :
    s.waitingTime = sumOver inp spent s + sumOver inp overstay s := by
  rw [h.waiting, hdone.sumOver_eq (g := fun c a => spent c a + overstay c a) counted_done, sumOver,
    sumOver, sumOver, ← Finset.sum_add_distrib]
  refine Finset.sum_congr rfl ?_
  intro j _
  cases inp.customers[j]? <;> rfl

/-- With tolerances that are not negative, whoever is late has waited. -/
theorem sumOver_overstay_eq_zero (htol : ∀ c ∈ inp.customers, 0 ≤ c.tolerance.toInt) :
    sumOver inp overstay s = 0 ↔ lateCustomers inp s = ∅ := by
  have hterm : ∀ j ∈ Finset.range inp.customers.length,
      0 ≤ ((inp.customers[j]?).map (fun c => overstay c (s.customer j))).getD 0 ∧
      (((inp.customers[j]?).map (fun c => overstay c (s.customer j))).getD 0 = 0 ↔
        j ∉ lateCustomers inp s) := by
    intro j hj
    have hlt := Finset.mem_range.mp hj
    have hc := htol _ (List.getElem_mem hlt)
    rw [lateCustomers, Finset.mem_filter, List.getElem?_eq_getElem hlt]
    simp only [hj, true_and, Option.map_some, Option.getD_some, Option.any_some, overstay]
    cases (s.customer j).completion with
    | none => simp
    | some t =>
      simp only [Option.map_some, Option.getD_some, Option.any_some]
      split
      · rename_i hlate
        have hgt : inp.customers[j].waited t > inp.customers[j].tolerance.toInt :=
          of_decide_eq_true hlate
        simp only [hlate, not_true_eq_false, iff_false]
        omega
      · rename_i hlate
        simp [hlate]
  rw [sumOver, Finset.sum_eq_zero_iff_of_nonneg (fun j hj => (hterm j hj).1),
    Finset.eq_empty_iff_forall_notMem]
  constructor
  · intro hzero j hj
    have hrange := (Finset.mem_filter.mp hj).1
    exact (hterm j hrange).2.mp (hzero j hrange) hj
  · intro hnone j hj
    exact (hterm j hj).2.mpr (hnone j)

/-- `waiting_time` has the waits up to the tolerances exactly if the waits of
those who were late come to nothing. -/
theorem waiting_time_iff (h : Reachable inp s) (hdone : Finished inp s) :
    (s.waitingTime = sumOver inp spent s ↔ sumOver inp overstay s = 0) ∧
    ((∀ c ∈ inp.customers, 0 ≤ c.tolerance.toInt) →
      (s.waitingTime = sumOver inp spent s ↔ lateCustomers inp s = ∅)) := by
  have hsum := hdone.waiting h.inv
  have hiff : s.waitingTime = sumOver inp spent s ↔ sumOver inp overstay s = 0 := by
    rw [hsum]
    omega
  refine ⟨hiff, ?_⟩
  intro htol
  rw [hiff, sumOver_overstay_eq_zero htol]

/-- The first customer alone. -/
def oneCustomer (tolerance : Int32) : Input where
  numBaristas := 1
  coffeeTypes := ["Espresso"]
  customers := [⟨"Espresso", 0, tolerance⟩]

theorem waiting_time_inTime :
    ∃ s, Reachable (oneCustomer 3) s ∧ Finished (oneCustomer 3) s ∧
      s.waitingTime = sumOver (oneCustomer 3) spent s := by
  obtain ⟨s, hs, hdone, hzero⟩ : ∃ s, Reachable (oneCustomer 3) s ∧
      Finished (oneCustomer 3) s ∧ sumOver (oneCustomer 3) overstay s = 0 :=
    exists_reachWhen_of_run (List.replicate 5 .main ++ List.replicate 11 (.customer 0 2)) rfl
      (by decide +kernel)
  exact ⟨s, hs, hdone, (waiting_time_iff hs hdone).1.mpr hzero⟩

/-- A customer with tolerance 1 gets their coffee after 4 seconds. -/
theorem late_counted_twice :
    ∃ s, Reachable (oneCustomer 1) s ∧ Finished (oneCustomer 1) s ∧
      sumOver (oneCustomer 1) spent s = 1 ∧ s.waitingTime = 5 :=
  exists_reachWhen_of_run (List.replicate 5 .main ++ List.replicate 19 (.customer 0 4)) rfl
    (by decide +kernel)

end Xv6.Cafe
