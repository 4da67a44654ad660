import Mathlib.Algebra.BigOperators.Ring.Finset
import Xv6.Parlor.Acceptance

/-!
# Seats and machine time

Two counters that the customers share.  `customer_sem` counts the free seats,
and `machineTimeAvailable` the time that is not booked.

A customer who is accepted never posts `customer_sem`.  So a seat is lost with
every customer who has been served, and the sum of the free seats and of the
customers inside is `K` as long as there is none.

The comparison with `machineTimeAvailable` and the subtraction are apart.  The
time stays non-negative as long as every customer who subtracts still finds
enough of it.
-/

namespace Xv6.Parlor

open Xv6.Lib Function

variable {inp : Input} {s s' : State} {j : Nat} {c : CustomerOrder}

/-! ## The time that is booked -/

/-- The preparation time of customer `j`, if it has been subtracted. -/
def booked (inp : Input) (a : CustomerAt) (j : Nat) : Int :=
  match inp.customers[j]? with
  | some c => if a.paid then totalTime inp c else 0
  | none => 0

theorem booked_unpaid {a : CustomerAt} (h : a.paid = false) : booked inp a j = 0 := by
  unfold booked
  rw [h]
  split <;> rfl

theorem booked_paid {a : CustomerAt} (hc : inp.customers[j]? = some c) (h : a.paid = true) :
    booked inp a j = totalTime inp c := by
  simp only [booked, hc, h, if_true]

/-- The preparation time of all the customers whose time has been subtracted. -/
def bookedTime (inp : Input) (s : State) : Int :=
  ∑ j ∈ Finset.range inp.customers.length, booked inp (s.customer j) j

/-- The two counters, in every state.  The seats include those of the customers
who have been served. -/
structure Ledger (inp : Input) (s : State) : Prop extends Seats inp s where
  time : s.machineTimeAvailable = machineTime inp - bookedTime inp s

theorem bookedTime_update (hj : j < inp.customers.length) (b : CustomerAt)
    (hcustomer : s'.customer = update s.customer j b) :
    bookedTime inp s' = bookedTime inp s + (booked inp b j - booked inp (s.customer j) j) := by
  have hsum := sum_change (f := fun i => booked inp (s.customer i) i)
    (g := fun i => booked inp (s'.customer i) i) (Finset.mem_range.mpr hj) ?_
  · rw [hcustomer, update_self] at hsum
    rw [bookedTime, hcustomer]
    exact hsum
  · intro i _ hi
    rw [hcustomer, update_of_ne hi]

theorem Ledger.step {a : Action} (h : Ledger inp s) (hnext : next inp s a = some s') :
    Ledger inp s' := by
  refine ⟨h.toSeats.step hnext, ?_⟩
  -- a step that no customer takes
  have hcongr : s'.customer = s.customer → s'.machineTimeAvailable = s.machineTimeAvailable →
      s'.machineTimeAvailable = machineTime inp - bookedTime inp s' := by
    intro hcustomer htime
    rw [htime, bookedTime, hcustomer]
    exact h.time
  cases a with
  | tick =>
    cases hnext
    exact hcongr rfl rfl
  | main =>
    obtain ⟨htime, _, hsame | ⟨l, hmain, hl, hcreate⟩⟩ := mainStep_customers hnext
    · exact hcongr hsame htime
    · have habsent : s.customer l = .absent :=
        h.closed l (by rw [hmain]; exact decide_eq_true (Nat.le_refl l))
      rw [bookedTime_update hl .started hcreate, habsent, booked_unpaid rfl, booked_unpaid rfl,
        sub_zero, add_zero, htime]
      exact h.time
  | machine i =>
    obtain ⟨m, _, hstep⟩ := Option.bind_eq_some_iff.mp hnext
    obtain ⟨_, hcustomer, _, htime, _⟩ := machineStep_customers hstep
    exact hcongr hcustomer htime
  | customer j =>
    obtain ⟨c, hc, hstep⟩ := Option.bind_eq_some_iff.mp hnext
    obtain ⟨b, hm⟩ := customerStep_counters hstep
    rw [bookedTime_update (List.getElem?_eq_some_iff.mp hc).1 b hm.customer]
    rcases hm.time with ⟨_, hpaid, htime⟩ | ⟨hat, hpaid, htime⟩
    · have hsame : booked inp b j = booked inp (s.customer j) j := by
        simp only [booked, hpaid]
      rw [htime, h.time, hsame, sub_self, add_zero]
    · rw [htime, h.time, booked_paid hc hpaid, hat, booked_unpaid rfl]
      omega
  | order j k =>
    obtain ⟨o, _, hstep⟩ := Option.bind_eq_some_iff.mp hnext
    obtain ⟨_, hcustomer, _, htime, _⟩ := orderStep_customers hstep
    exact hcongr hcustomer htime

theorem Ledger.start : Ledger inp (Parlor.start inp) where
  closed _ _ := rfl
  seats h := absurd rfl h
  time := by
    have hzero : bookedTime inp (Parlor.start inp) = 0 := by
      refine Finset.sum_eq_zero ?_
      intro j _
      exact booked_unpaid rfl
    rw [hzero, sub_zero]
    rfl

theorem ledger_of_reachable (h : Reachable inp s) : Ledger inp s := by
  refine ReachWhen.invariant (fun s hs => ?_) (fun s a s' hs _ hnext => hs.step hnext) h
  rw [hs]
  exact Ledger.start

/-! ## Seats -/

/-- The visit of an accepted customer is over: their thread and all their order
threads have finished. -/
def departed (inp : Input) (s : State) (j : Nat) : Bool :=
  match inp.customers[j]? with
  | some c => decide (s.customer j = .served) &&
      (List.range c.orders.length).all (fun k => decide (s.order j k = .done))
  | none => false

/-- The customer is past `sem_wait` and has not left. -/
def present (inp : Input) (s : State) (j : Nat) : Bool :=
  (s.customer j).inside && !departed inp s j

/-- The number of customers with a property. -/
def number (inp : Input) (P : Nat → Bool) : Nat :=
  ∑ j ∈ Finset.range inp.customers.length, (P j).toNat

theorem inside_of_departed (h : departed inp s j = true) : (s.customer j).inside = true := by
  unfold departed at h
  split at h
  · rw [Bool.and_eq_true, decide_eq_true_eq] at h
    rw [h.1]
    rfl
  · cases h

/-- Whoever has a seat is there, or has left and taken the seat along. -/
theorem seated_eq : seated inp s = number inp (present inp s) + number inp (departed inp s) := by
  rw [number, number, ← Finset.sum_add_distrib, seated, total]
  refine Finset.sum_congr rfl ?_
  intro j _
  unfold present
  cases hd : departed inp s j with
  | false => simp
  | true => simp [inside_of_departed hd]

theorem number_eq_zero {P : Nat → Bool} :
    number inp P = 0 ↔ ∀ j < inp.customers.length, P j = false := by
  rw [number, Finset.sum_eq_zero_iff]
  constructor
  · intro h j hj
    have hzero := h j (Finset.mem_range.mpr hj)
    cases hp : P j with
    | false => rfl
    | true =>
      rw [hp] at hzero
      cases hzero
  · intro h j hj
    rw [h j (Finset.mem_range.mp hj)]
    rfl

/-- One machine, one seat, and two customers with one order each. -/
def oneSeat : Input where
  machines := [⟨0, 10⟩]
  K := 1
  flavors := [⟨"vanilla", 1⟩]
  toppings := []
  customers := [⟨0, [⟨"vanilla", []⟩]⟩, ⟨0, [⟨"vanilla", []⟩]⟩]

/-- The first customer is served, and both threads end. -/
def servedRun : List Action :=
  List.replicate 7 .main ++ List.replicate 3 (.machine 0) ++ List.replicate 12 (.customer 0) ++
    List.replicate 4 (.order 0 0) ++ [.tick, .order 0 0]

/-- A customer who is about to subtract finds enough machine time. -/
def Covered (inp : Input) (s : State) : Action → Prop
  | .customer j => s.customer j = .subtracting → ∀ c, inp.customers[j]? = some c →
      totalTime inp c ≤ s.machineTimeAvailable
  | _ => True

/-- A step keeps the machine time non-negative exactly if it is covered. -/
theorem time_step_iff {a : Action} (h : 0 ≤ s.machineTimeAvailable)
    (hnext : next inp s a = some s') : 0 ≤ s'.machineTimeAvailable ↔ Covered inp s a := by
  cases a with
  | tick =>
    cases hnext
    exact ⟨fun _ => trivial, fun _ => h⟩
  | main =>
    rw [(mainStep_customers hnext).1]
    exact ⟨fun _ => trivial, fun _ => h⟩
  | machine i =>
    obtain ⟨m, _, hstep⟩ := Option.bind_eq_some_iff.mp hnext
    rw [(machineStep_customers hstep).2.2.2.1]
    exact ⟨fun _ => trivial, fun _ => h⟩
  | order j k =>
    obtain ⟨o, _, hstep⟩ := Option.bind_eq_some_iff.mp hnext
    rw [(orderStep_customers hstep).2.2.2.1]
    exact ⟨fun _ => trivial, fun _ => h⟩
  | customer j =>
    obtain ⟨c, hc, hstep⟩ := Option.bind_eq_some_iff.mp hnext
    obtain ⟨b, hm⟩ := customerStep_counters hstep
    rcases hm.time with ⟨hat, _, htime⟩ | ⟨hat, _, htime⟩
    · rw [htime]
      exact ⟨fun _ hsub => absurd hsub hat, fun _ => h⟩
    · rw [htime]
      constructor
      · intro hle _ c' hc'
        obtain rfl := Option.some.inj (hc.symm.trans hc')
        omega
      · intro hcov
        have hle := hcov hat c hc
        omega

/-- One machine with ten seconds, two seats, and two customers with ten seconds
of work each. -/
def tenSeconds : Input where
  machines := [⟨0, 10⟩]
  K := 2
  flavors := [⟨"sundae", 10⟩]
  toppings := []
  customers := [⟨0, [⟨"sundae", []⟩]⟩, ⟨0, [⟨"sundae", []⟩]⟩]

end Xv6.Parlor
