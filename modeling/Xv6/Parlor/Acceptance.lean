import Xv6.Parlor.Machines

/-!
# At most one order

`Seats` counts the seats: `customer_sem` and the customers inside are `K`
together.

If two orders cannot be accepted by `TwoOrders`, then no run creates two
order threads.  `Solo` is the invariant: a customer who has passed a check
meets its condition, and at most one customer with orders is accepted.
`Checked` says what the step of one customer has to meet, and the steps of
`customer_thread` are instances of it.
-/

namespace Xv6.Parlor

open Xv6.Lib Function

/-! ## Where a customer is -/

/-- The customer has a seat. -/
def CustomerAt.inside : CustomerAt → Bool
  | .absent | .started | .arriving _ | .entering | .gone => false
  | _ => true

/-- The customer has passed the check of the menu. -/
def CustomerAt.onMenu : CustomerAt → Bool
  | .checkTime | .checkMachines _ _ _ | .booking | .subtracting | .unlocking | .ordering _
  | .served => true
  | _ => false

/-- The customer has passed the check of the machine time. -/
def CustomerAt.inTime : CustomerAt → Bool
  | .checkMachines _ _ _ | .booking | .subtracting | .unlocking | .ordering _ | .served => true
  | _ => false

/-- The customer has passed all checks. -/
def CustomerAt.accepted : CustomerAt → Bool
  | .booking | .subtracting | .unlocking | .ordering _ | .served => true
  | _ => false

/-- The machine time of the customer is subtracted. -/
def CustomerAt.paid : CustomerAt → Bool
  | .unlocking | .ordering _ | .served => true
  | _ => false

/-- The number of customers with a seat. -/
def seated (inp : Input) (s : State) : Nat :=
  total (Finset.range inp.customers.length) (fun (a : CustomerAt) (_ : Unit) => a.inside.toNat)
    s.customer ()

/-- Customer `j`, with orders `c`, is accepted. -/
structure Accepted (inp : Input) (s : State) (j : Nat) (c : CustomerOrder) : Prop where
  customer : inp.customers[j]? = some c
  orders : c.orders ≠ []
  accepted : (s.customer j).accepted = true

/-- `main` has not created customer `j` yet. -/
def MainAt.unborn (j : Nat) : MainAt → Bool
  | .initShared | .initMachine _ | .createMachine _ => true
  | .createCustomer l => l ≤ j
  | .join => false

/-- A customer that `main` has not created is not there, and the seats are
counted. -/
structure Seats (inp : Input) (s : State) : Prop where
  closed : ∀ j, s.main.unborn j = true → s.customer j = .absent
  seats : s.main ≠ .initShared → s.customerSem + seated inp s = inp.K

/-- At most one customer with orders is accepted. -/
structure Solo (inp : Input) (s : State) : Prop extends Seats inp s where
  menu : ∀ (j : Nat) c, inp.customers[j]? = some c → (s.customer j).onMenu = true →
    feasible inp c = true
  time : ∀ (j : Nat) c, inp.customers[j]? = some c → (s.customer j).inTime = true →
    c.orders ≠ [] → totalTime inp c ≤ machineTime inp ∨
      ∃ j' c', j' ≠ j ∧ Accepted inp s j' c' ∧ totalTime inp c ≤ machineTime inp - totalTime inp c'
  scan : ∀ (j : Nat) c i k flag, inp.customers[j]? = some c →
    s.customer j = .checkMachines i k flag → (i = 0 → flag = false) ∧ (0 < i → Served inp c)
  served : ∀ j c, Accepted inp s j c → Served inp c
  left : s.machineTimeAvailable = machineTime inp ∨ ∃ j c, Accepted inp s j c ∧
    (s.customer j).paid = true ∧ s.machineTimeAvailable = machineTime inp - totalTime inp c
  one : ∀ j j' c c', Accepted inp s j c → Accepted inp s j' c' → j = j'
  ordered : ∀ j k, s.order j k ≠ .absent →
    ∃ c, Accepted inp s j c ∧ k < c.orders.length

variable {inp : Input} {s s' : State} {j j' k : Nat} {c c' : CustomerOrder}

theorem Solo.start : Solo inp (Parlor.start inp) where
  closed _ _ := rfl
  seats h := absurd rfl h
  menu _ _ _ h := by cases h
  time _ _ _ h := by cases h
  scan _ _ _ _ _ _ h := by cases h
  served _ _ h := by cases h.accepted
  left := Or.inl rfl
  one _ _ _ _ h := by cases h.accepted
  ordered _ _ h := absurd rfl h

/-! ## Seats -/

variable {a b : CustomerAt}

theorem inside_of_accepted (h : a.accepted = true) : a.inside = true := by
  cases a <;> first | rfl | cases h

theorem inTime_of_accepted (h : a.accepted = true) : a.inTime = true := by
  cases a <;> first | rfl | cases h

theorem onMenu_of_inTime (h : a.inTime = true) : a.onMenu = true := by
  cases a <;> first | rfl | cases h

theorem lt_of_customer (h : inp.customers[j]? = some c) : j ∈ Finset.range inp.customers.length :=
  Finset.mem_range.mpr (List.getElem?_eq_some_iff.mp h).1

/-- What the step of customer `j` to `b` does to the two counters. -/
structure CounterMove (inp : Input) (c : CustomerOrder) (j : Nat) (s s' : State) (b : CustomerAt) :
    Prop where
  customer : s'.customer = update s.customer j b
  main : s'.main = s.main
  there : s.customer j ≠ .absent
  seat : s'.customerSem + b.inside.toNat = s.customerSem + (s.customer j).inside.toNat
  time : s.customer j ≠ .subtracting ∧ b.paid = (s.customer j).paid ∧
      s'.machineTimeAvailable = s.machineTimeAvailable ∨
    s.customer j = .subtracting ∧ b.paid = true ∧
      s'.machineTimeAvailable = s.machineTimeAvailable - totalTime inp c

/-- The counters stay. -/
def CustomerAt.keepsCounters (a b : CustomerAt) : Bool :=
  decide (a ≠ .absent) && decide (a ≠ .subtracting) && (b.inside == a.inside) && (b.paid == a.paid)

theorem CounterMove.quiet (b : CustomerAt) (hat : s.customer j = a)
    (hcustomer : s'.customer = update s.customer j b) (hmain : s'.main = s.main)
    (hsem : s'.customerSem = s.customerSem)
    (htime : s'.machineTimeAvailable = s.machineTimeAvailable) (hkeeps : a.keepsCounters b = true) :
    CounterMove inp c j s s' b := by
  simp only [CustomerAt.keepsCounters, Bool.and_eq_true, decide_eq_true_eq, beq_iff_eq] at hkeeps
  obtain ⟨⟨⟨habsent, hsub⟩, hinside⟩, hpaid⟩ := hkeeps
  subst hat
  exact ⟨hcustomer, hmain, habsent, by rw [hsem, hinside], Or.inl ⟨hsub, hpaid, htime⟩⟩

theorem customerStep_counters (h : customerStep inp c j s = some s') :
    ∃ b, CounterMove inp c j s s' b := by
  unfold customerStep at h
  cases hat : s.customer j with
  | absent | served | gone =>
    rw [hat] at h
    cases h
  | started | unlocking =>
    rw [hat] at h
    cases h
    exact ⟨_, .quiet _ hat rfl rfl rfl rfl rfl⟩
  | arriving wake | booking | checkMenu | checkTime | ordering k =>
    rw [hat] at h
    dsimp only at h
    split at h
    all_goals cases h
    all_goals exact ⟨_, .quiet _ hat rfl rfl rfl rfl rfl⟩
  | checkMachines i k flag =>
    rw [hat] at h
    dsimp only at h
    repeat' split at h
    all_goals cases h
    all_goals exact ⟨_, .quiet _ hat rfl rfl rfl rfl rfl⟩
  | entering =>
    rw [hat] at h
    dsimp only at h
    split at h
    · rename_i hpos
      cases h
      refine ⟨.checkMenu, rfl, rfl, by simp [hat], ?_, Or.inl ⟨by simp [hat], by rw [hat]; rfl, rfl⟩⟩
      rw [hat]
      show s.customerSem - 1 + 1 = s.customerSem + 0
      omega
    · cases h
  | subtracting =>
    rw [hat] at h
    cases h
    exact ⟨.unlocking, rfl, rfl, by simp [hat], by rw [hat]; rfl, Or.inr ⟨hat, rfl, rfl⟩⟩
  | leaving =>
    rw [hat] at h
    cases h
    exact ⟨.gone, rfl, rfl, by simp [hat], by rw [hat]; rfl,
      Or.inl ⟨by simp [hat], by rw [hat]; rfl, rfl⟩⟩

theorem seated_update (hj : j < inp.customers.length) (b : CustomerAt)
    (hcustomer : s'.customer = update s.customer j b) :
    seated inp s' + (s.customer j).inside.toNat = seated inp s + b.inside.toNat := by
  rw [seated, hcustomer]
  exact total_update (Finset.mem_range.mpr hj) b ()

theorem Seats.move (h : Seats inp s) (hc : inp.customers[j]? = some c)
    (hm : CounterMove inp c j s s' b) : Seats inp s' := by
  have hj : j < inp.customers.length := (List.getElem?_eq_some_iff.mp hc).1
  constructor
  case closed =>
    intro i hi
    rw [hm.main] at hi
    have habsent := h.closed i hi
    have hne : i ≠ j := by
      rintro rfl
      exact hm.there habsent
    rw [hm.customer, update_of_ne hne, habsent]
  case seats =>
    intro hmain
    rw [hm.main] at hmain
    have hseats := h.seats hmain
    have hupdate := seated_update hj b hm.customer
    have hseat := hm.seat
    omega

/-- A step that no customer takes. -/
theorem Seats.congr (h : Seats inp s)
    (hunborn : ∀ j, s'.main.unborn j = true → s.main.unborn j = true)
    (hseats : s'.main ≠ .initShared → s'.customerSem + seated inp s = inp.K)
    (hcustomer : s'.customer = s.customer) : Seats inp s' := by
  constructor
  case closed =>
    intro j hj
    rw [hcustomer]
    exact h.closed j (hunborn j hj)
  case seats =>
    rw [seated, hcustomer]
    exact hseats

theorem Seats.mainStep (h : Seats inp s) (hstep : mainStep inp s = some s') : Seats inp s' := by
  unfold Parlor.mainStep at hstep
  cases hmain : s.main with
  | initShared =>
    -- the semaphores get their values, and nobody is there
    rw [hmain] at hstep
    cases hstep
    have habsent : ∀ j, s.customer j = .absent := fun j => h.closed j (by rw [hmain]; rfl)
    refine h.congr (fun j _ => by rw [hmain]; rfl) (fun _ => ?_) rfl
    have hzero := total_zero (s := Finset.range inp.customers.length)
      (g := fun (a : CustomerAt) (_ : Unit) => a.inside.toNat) (t := s.customer)
      (fun j _ => by rw [habsent j]; rfl)
    show inp.K + total _ _ s.customer () = inp.K
    rw [hzero]
    rfl
  | initMachine i | createMachine i =>
    rw [hmain] at hstep
    dsimp only at hstep
    split at hstep
    all_goals cases hstep
    all_goals
      exact h.congr (fun j _ => by rw [hmain]; rfl) (fun _ => h.seats (by simp [hmain])) rfl
  | createCustomer i =>
    rw [hmain] at hstep
    dsimp only at hstep
    split at hstep
    · rename_i hi
      cases hstep
      have habsent : s.customer i = .absent :=
        h.closed i (by rw [hmain]; exact decide_eq_true (Nat.le_refl i))
      constructor
      case closed =>
        intro j hj
        have hlt : i + 1 ≤ j := of_decide_eq_true hj
        have hne : j ≠ i := by omega
        show update s.customer i .started j = .absent
        rw [update_of_ne hne]
        exact h.closed j (by rw [hmain]; exact decide_eq_true (by omega))
      case seats =>
        intro _
        have hseats := h.seats (by simp [hmain])
        have hupdate := seated_update (s := s) hi .started (show ({ s.setCustomer i .started with
          main := .createCustomer (i + 1) } : State).customer = _ from rfl)
        rw [habsent] at hupdate
        exact (congrArg (s.customerSem + ·) hupdate).trans hseats
    · cases hstep
      exact h.congr (fun j hj => by cases hj) (fun _ => h.seats (by simp [hmain])) rfl
  | join =>
    rw [hmain] at hstep
    cases hstep

theorem machineStep_customers {m : Machine} {i : Nat} (h : machineStep m i s = some s') :
    s'.main = s.main ∧ s'.customer = s.customer ∧ s'.customerSem = s.customerSem ∧
      s'.machineTimeAvailable = s.machineTimeAvailable ∧ s'.order = s.order := by
  unfold machineStep at h
  repeat' split at h
  all_goals cases h
  all_goals exact ⟨rfl, rfl, rfl, rfl, rfl⟩

theorem orderStep_customers {o : SingleOrder} (h : orderStep inp o j k s = some s') :
    s'.main = s.main ∧ s'.customer = s.customer ∧ s'.customerSem = s.customerSem ∧
      s'.machineTimeAvailable = s.machineTimeAvailable ∧
      ∀ l k', s'.order l k' ≠ .absent → s.order l k' ≠ .absent := by
  have hset : s.order j k ≠ .absent → ∀ a l k', (s.setOrder j k a).order l k' ≠ .absent →
      s.order l k' ≠ .absent := by
    intro hat a l k' hl
    rw [setOrder_order] at hl
    split at hl
    · rename_i heq
      rw [heq.1, heq.2]
      exact hat
    · exact hl
  unfold orderStep at h
  repeat' split at h
  all_goals cases h
  all_goals
    rename_i hat
    refine ⟨rfl, rfl, rfl, rfl, hset ?_ _⟩
    simp_all

theorem mainStep_customers (h : mainStep inp s = some s') :
    s'.machineTimeAvailable = s.machineTimeAvailable ∧ s'.order = s.order ∧
      (s'.customer = s.customer ∨ ∃ l, s.main = .createCustomer l ∧
        l < inp.customers.length ∧ s'.customer = update s.customer l .started) := by
  unfold mainStep at h
  repeat' split at h
  all_goals cases h
  all_goals refine ⟨rfl, rfl, ?_⟩
  all_goals first | exact Or.inl rfl | exact Or.inr ⟨_, by assumption, by assumption, rfl⟩

theorem Seats.step {a : Action} (h : Seats inp s) (hnext : next inp s a = some s') :
    Seats inp s' := by
  cases a with
  | tick =>
    cases hnext
    exact h.congr (fun _ hj => hj) h.seats rfl
  | main => exact h.mainStep hnext
  | machine i =>
    obtain ⟨m, _, hstep⟩ := Option.bind_eq_some_iff.mp hnext
    obtain ⟨hmain, hcustomer, hsem, _, _⟩ := machineStep_customers hstep
    exact h.congr (by rw [hmain]; exact fun _ hj => hj) (by rw [hmain, hsem]; exact h.seats)
      hcustomer
  | customer j =>
    obtain ⟨c, hc, hstep⟩ := Option.bind_eq_some_iff.mp hnext
    obtain ⟨b, hm⟩ := customerStep_counters hstep
    exact h.move hc hm
  | order j k =>
    obtain ⟨o, _, hstep⟩ := Option.bind_eq_some_iff.mp hnext
    obtain ⟨hmain, hcustomer, hsem, _, _⟩ := orderStep_customers hstep
    exact h.congr (by rw [hmain]; exact fun _ hj => hj) (by rw [hmain, hsem]; exact h.seats)
      hcustomer

/-- Somebody inside has a seat. -/
theorem Seats.one_seat (h : Seats inp s) (hc : inp.customers[j]? = some c)
    (hin : (s.customer j).inside = true) : 1 ≤ inp.K := by
  have hmain : s.main ≠ .initShared := by
    intro hm
    rw [h.closed j (by rw [hm]; rfl)] at hin
    cases hin
  have hle := le_total (g := fun (a : CustomerAt) (_ : Unit) => a.inside.toNat) (t := s.customer)
    (lt_of_customer hc) ()
  have hseats := h.seats hmain
  rw [hin] at hle
  unfold seated at hseats
  simp only [Bool.toNat_true] at hle
  omega

/-- Two customers inside have two seats. -/
theorem Seats.two_seats (h : Seats inp s) (hc : inp.customers[j]? = some c)
    (hc' : inp.customers[j']? = some c') (hne : j' ≠ j) (hin : (s.customer j).inside = true)
    (hin' : (s.customer j').inside = true) : 2 ≤ inp.K := by
  have hmain : s.main ≠ .initShared := by
    intro hm
    rw [h.closed j (by rw [hm]; rfl)] at hin
    cases hin
  have hle := le_total_pair (g := fun (a : CustomerAt) (_ : Unit) => a.inside.toNat)
    (t := s.customer) (lt_of_customer hc) (lt_of_customer hc') hne ()
  have hseats := h.seats hmain
  rw [hin, hin'] at hle
  unfold seated at hseats
  simp only [Bool.toNat_true] at hle
  omega

/-! ## Acceptable customers -/

/-- An accepted customer was accepted with all the machine time left. -/
theorem Solo.acceptable (h : Solo inp s) (ha : Accepted inp s j c) :
    Acceptable inp (machineTime inp) c := by
  have hin := inTime_of_accepted ha.accepted
  refine ⟨ha.orders, h.menu j c ha.customer (onMenu_of_inTime hin), ?_, h.served j c ha⟩
  rcases h.time j c ha.customer hin ha.orders with hle | ⟨j', c', hne, ha', _⟩
  · exact hle
  · exact absurd (h.one j' j c' c ha' ha) hne

/-- A customer who passes the last check is the first one. -/
theorem Solo.first (h : Solo inp s) (htwo : ¬ TwoOrders inp) (hc : inp.customers[j]? = some c)
    (horders : c.orders ≠ []) (hin : (s.customer j).inTime = true) (hserved : Served inp c)
    (hnot : (s.customer j).accepted = false) (j' : Nat) (c' : CustomerOrder) :
    ¬ Accepted inp s j' c' := by
  intro ha'
  have hne : j' ≠ j := by
    rintro rfl
    have := ha'.accepted
    rw [hnot] at this
    cases this
  have hinside : (s.customer j).inside = true := by
    cases hat : s.customer j <;> rw [hat] at hin <;> first | rfl | cases hin
  have hmenu := h.menu j c hc (onMenu_of_inTime hin)
  refine htwo (Or.inr ⟨j', j, c', c, hne, ha'.customer, hc, ?_, h.acceptable ha', ?_⟩)
  · exact h.two_seats hc ha'.customer hne hinside (inside_of_accepted ha'.accepted)
  · rcases h.time j c hc hin horders with hle | ⟨l, d, hl, hd, hle⟩
    · exact Or.inl ⟨horders, hmenu, hle, hserved⟩
    · have hlj : l = j' := h.one l j' d c' hd ha'
      rw [hlj] at hd
      have hdc : d = c' := Option.some.inj (hd.customer.symm.trans ha'.customer)
      rw [hdc] at hle
      exact Or.inr ⟨horders, hmenu, hle, hserved⟩

/-! ## One customer goes on -/

/-- What the step of customer `j` has to meet. -/
structure Checked (inp : Input) (c : CustomerOrder) (j : Nat) (s s' : State) : Prop where
  menu : (s'.customer j).onMenu = true → (s.customer j).onMenu = true ∨ feasible inp c = true
  time : (s'.customer j).inTime = true → (s.customer j).inTime = true ∨
    totalTime inp c ≤ s.machineTimeAvailable
  scan : ∀ i k flag, s'.customer j = .checkMachines i k flag →
    (i = 0 → flag = false) ∧ (0 < i → Served inp c)
  accepted : (s'.customer j).accepted = true → (s.customer j).accepted = true ∨
    (s.customer j).inTime = true ∧ (c.orders ≠ [] → Served inp c)
  kept : (s.customer j).accepted = true → (s'.customer j).accepted = true
  order : ∀ l k, s'.order l k ≠ .absent → s.order l k ≠ .absent ∨
    l = j ∧ k < c.orders.length ∧ (s.customer j).accepted = true

theorem totalTime_nil (h : c.orders = []) : totalTime inp c = 0 := by
  rw [totalTime, h]
  rfl

theorem Solo.move (h : Solo inp s) (htwo : ¬ TwoOrders inp) (hc : inp.customers[j]? = some c)
    (hm : CounterMove inp c j s s' b) (hp : Checked inp c j s s') : Solo inp s' := by
  have hother : ∀ l, l ≠ j → s'.customer l = s.customer l := by
    intro l hl
    rw [hm.customer, update_of_ne hl]
  have hself : ∀ d, inp.customers[j]? = some d → d = c :=
    fun d hd => Option.some.inj (hd.symm.trans hc)
  -- acceptance is not taken back
  have hmono : ∀ l d, Accepted inp s l d → Accepted inp s' l d := by
    intro l d ha
    refine ⟨ha.customer, ha.orders, ?_⟩
    by_cases hl : l = j
    · rw [hl]
      exact hp.kept (hl ▸ ha.accepted)
    · rw [hother l hl]
      exact ha.accepted
  -- whoever is accepted now was accepted before, or is `j`, who passes the last check
  have hback : ∀ l d, Accepted inp s' l d → Accepted inp s l d ∨
      l = j ∧ d = c ∧ (s.customer j).accepted = false ∧ (s.customer j).inTime = true ∧
        Served inp c := by
    intro l d ha
    have hacc := ha.accepted
    by_cases hl : l = j
    · subst hl
      have hd := hself d ha.customer
      cases hold : (s.customer l).accepted with
      | true => exact Or.inl ⟨ha.customer, ha.orders, hold⟩
      | false =>
        rcases hp.accepted hacc with hold' | ⟨hin, hserved⟩
        · rw [hold] at hold'
          cases hold'
        · exact Or.inr ⟨rfl, hd, rfl, hin, hserved (hd ▸ ha.orders)⟩
    · rw [hother l hl] at hacc
      exact Or.inl ⟨ha.customer, ha.orders, hacc⟩
  refine ⟨h.toSeats.move hc hm, ?_, ?_, ?_, ?_, ?_, ?_, ?_⟩
  · intro l d hd hmenu
    by_cases hl : l = j
    · subst hl
      rcases hp.menu hmenu with hold | hfeasible
      · exact h.menu l d hd hold
      · rw [hself d hd]
        exact hfeasible
    · exact h.menu l d hd (hother l hl ▸ hmenu)
  · intro l d hd htime horders
    have hlift : (totalTime inp d ≤ machineTime inp ∨ ∃ j' c', j' ≠ l ∧ Accepted inp s j' c' ∧
        totalTime inp d ≤ machineTime inp - totalTime inp c') →
        totalTime inp d ≤ machineTime inp ∨ ∃ j' c', j' ≠ l ∧ Accepted inp s' j' c' ∧
        totalTime inp d ≤ machineTime inp - totalTime inp c' := by
      rintro (hle | ⟨j', c', hne, ha, hle⟩)
      · exact Or.inl hle
      · exact Or.inr ⟨j', c', hne, hmono j' c' ha, hle⟩
    refine hlift ?_
    by_cases hl : l = j
    · subst hl
      cases hold : (s.customer l).inTime with
      | true => exact h.time l d hd hold horders
      | false =>
        have hle : totalTime inp c ≤ s.machineTimeAvailable := by
          rcases hp.time htime with hin | hle
          · rw [hold] at hin
            cases hin
          · exact hle
        rw [hself d hd]
        rcases h.left with hleft | ⟨j', c', ha, hpaid, hleft⟩
        · exact Or.inl (hleft ▸ hle)
        · refine Or.inr ⟨j', c', ?_, ha, hleft ▸ hle⟩
          rintro rfl
          rw [inTime_of_accepted ha.accepted] at hold
          cases hold
    · exact h.time l d hd (hother l hl ▸ htime) horders
  · intro l d i k flag hd hat
    by_cases hl : l = j
    · subst hl
      rw [hself d hd]
      exact hp.scan i k flag hat
    · exact h.scan l d i k flag hd (hother l hl ▸ hat)
  · intro l d ha
    rcases hback l d ha with hold | ⟨_, hd, _, _, hserved⟩
    · exact h.served l d hold
    · rw [hd]
      exact hserved
  · -- who has paid before has paid now
    have hpaid : ∀ l, (s.customer l).paid = true → (s'.customer l).paid = true := by
      intro l hl
      by_cases hlj : l = j
      · rw [hm.customer, hlj, update_self]
        rcases hm.time with ⟨_, hsame, _⟩ | ⟨_, hpaid, _⟩
        · rw [hsame, ← hlj]
          exact hl
        · exact hpaid
      · rw [hother l hlj]
        exact hl
    have hkeep : s'.machineTimeAvailable = s.machineTimeAvailable →
        s'.machineTimeAvailable = machineTime inp ∨ ∃ j c, Accepted inp s' j c ∧
          (s'.customer j).paid = true ∧
          s'.machineTimeAvailable = machineTime inp - totalTime inp c := by
      intro htime
      rw [htime]
      rcases h.left with hleft | ⟨l, d, ha, hl, hleft⟩
      · exact Or.inl hleft
      · exact Or.inr ⟨l, d, hmono l d ha, hpaid l hl, hleft⟩
    rcases hm.time with ⟨_, _, htime⟩ | ⟨hat, hpays, htime⟩
    · exact hkeep htime
    · by_cases horders : c.orders = []
      · -- nothing to pay
        rw [totalTime_nil horders, Int.sub_zero] at htime
        exact hkeep htime
      · have ha : Accepted inp s j c := ⟨hc, horders, by rw [hat]; rfl⟩
        have hleft : s.machineTimeAvailable = machineTime inp := by
          rcases h.left with hleft | ⟨l, d, ha', hl, _⟩
          · exact hleft
          · rw [h.one l j d c ha' ha, hat] at hl
            cases hl
        refine Or.inr ⟨j, c, hmono j c ha, ?_, by rw [htime, hleft]⟩
        rw [hm.customer, update_self]
        exact hpays
  · intro l l' d d' ha ha'
    rcases hback l d ha with hold | ⟨hl, hd, hnot, hin, hserved⟩ <;>
      rcases hback l' d' ha' with hold' | ⟨hl', hd', hnot', hin', hserved'⟩
    · exact h.one l l' d d' hold hold'
    · exact absurd hold (h.first htwo hc (hd' ▸ ha'.orders) hin' hserved' hnot' l d)
    · exact absurd hold' (h.first htwo hc (hd ▸ ha.orders) hin hserved hnot l' d')
    · rw [hl, hl']
  · intro l k horder
    rcases hp.order l k horder with hold | ⟨hl, hk, hacc⟩
    · obtain ⟨d, ha, hk⟩ := h.ordered l k hold
      exact ⟨d, hmono l d ha, hk⟩
    · refine ⟨c, hmono l c ⟨hl ▸ hc, ?_, hl ▸ hacc⟩, hk⟩
      rintro hnil
      rw [hnil] at hk
      exact absurd hk (Nat.not_lt_zero _)

/-- A step from `a` to `b` passes no check. -/
def CustomerAt.quiet (a b : CustomerAt) : Bool :=
  (a.onMenu || !b.onMenu) && (a.inTime || !b.inTime) && b.accepted == a.accepted

theorem Checked.quiet (hat : s.customer j = a) (hto : s'.customer j = b) (hquiet : a.quiet b = true)
    (hscan : ∀ i k flag, b = .checkMachines i k flag →
      (i = 0 → flag = false) ∧ (0 < i → Served inp c)) (horder : s'.order = s.order) :
    Checked inp c j s s' := by
  simp only [CustomerAt.quiet, Bool.and_eq_true, beq_iff_eq, Bool.or_eq_true,
    Bool.not_eq_true'] at hquiet
  obtain ⟨⟨hmenu, htime⟩, hacc⟩ := hquiet
  subst hat hto
  refine ⟨?_, ?_, hscan, fun h => Or.inl (hacc ▸ h), fun h => hacc.trans h,
    fun l k h => Or.inl (by rwa [horder] at h)⟩
  · intro h
    rw [h] at hmenu
    exact Or.inl (hmenu.resolve_right (by decide))
  · intro h
    rw [h] at htime
    exact Or.inl (htime.resolve_right (by decide))

/-- The steps of the last check. -/
theorem Solo.checkMachines {i k : Nat} {flag : Bool} (h : Solo inp s)
    (hc : inp.customers[j]? = some c) (hat : s.customer j = .checkMachines i k flag)
    (hstep : customerStep inp c j s = some s') : Checked inp c j s s' := by
  obtain ⟨hzero, hpos⟩ := h.scan j c i k flag hc hat
  -- the next position of the scan
  have hgo : ∀ i' k' flag', (i' = 0 → flag' = false) → (0 < i' → Served inp c) →
      Checked inp c j s (s.setCustomer j (.checkMachines i' k' flag')) := by
    intro i' k' flag' hzero' hpos'
    refine .quiet hat (setCustomer_self _) rfl ?_ rfl
    intro _ _ _ heq
    cases heq
    exact ⟨hzero', hpos'⟩
  unfold customerStep at hstep
  rw [hat] at hstep
  dsimp only at hstep
  split at hstep
  · -- all orders are looked at
    rename_i hend
    cases hstep
    refine ⟨?_, ?_, ?_, ?_, ?_, fun _ _ hk => Or.inl hk⟩
    · rw [hat]; exact fun _ => Or.inl rfl
    · rw [hat]; exact fun _ => Or.inl rfl
    · rw [setCustomer_self]; nofun
    · refine fun _ => Or.inr ⟨by rw [hat]; rfl, fun horders => hpos ?_⟩
      have hlen : 0 < c.orders.length := List.length_pos_iff.mpr horders
      have := List.getElem?_eq_none_iff.mp hend
      omega
    · rw [setCustomer_self]; exact fun _ => rfl
  · rename_i o ho
    split at hstep
    · rename_i m hm
      split at hstep
      · -- a machine is found
        rename_i hfound
        cases hstep
        refine hgo _ _ _ nofun (fun _ => ?_)
        by_cases hi : i = 0
        · subst hi
          refine ⟨o, ?_, m, List.mem_of_getElem? hm, (Bool.and_eq_true_iff.mp hfound).2⟩
          rw [List.head?_eq_getElem?]
          exact ho
        · exact hpos (by omega)
      · cases hstep
        exact hgo _ _ _ hzero hpos
    · split at hstep
      · rename_i hflag
        cases hstep
        refine hgo _ _ _ nofun (fun _ => hpos ?_)
        by_contra hi
        rw [hzero (by omega)] at hflag
        cases hflag
      · cases hstep
        exact .quiet hat (setCustomer_self _) rfl nofun rfl

theorem Solo.checked (h : Solo inp s) (hc : inp.customers[j]? = some c)
    (hstep : customerStep inp c j s = some s') : Checked inp c j s s' := by
  have hcopy := hstep
  unfold customerStep at hstep
  cases hat : s.customer j with
  | absent | served | gone =>
    rw [hat] at hstep
    cases hstep
  | started | subtracting | unlocking | leaving =>
    rw [hat] at hstep
    cases hstep
    exact .quiet hat (update_self ..) rfl nofun rfl
  | arriving wake | entering | booking =>
    rw [hat] at hstep
    dsimp only at hstep
    split at hstep
    all_goals cases hstep
    all_goals exact .quiet hat (update_self ..) rfl nofun rfl
  | checkMenu =>
    rw [hat] at hstep
    dsimp only at hstep
    split at hstep
    · rename_i hfeasible
      cases hstep
      refine ⟨fun _ => Or.inr hfeasible, ?_, ?_, ?_, by rw [hat]; nofun, fun _ _ hk => Or.inl hk⟩
      all_goals rw [setCustomer_self]; nofun
    · cases hstep
      exact .quiet hat (update_self ..) rfl nofun rfl
  | checkTime =>
    rw [hat] at hstep
    dsimp only at hstep
    split at hstep
    · cases hstep
      exact .quiet hat (update_self ..) rfl nofun rfl
    · rename_i hle
      cases hstep
      refine ⟨fun _ => Or.inl (by rw [hat]; rfl), fun _ => Or.inr (by omega), ?_, ?_,
        by rw [hat]; nofun, fun _ _ hk => Or.inl hk⟩
      · intro _ _ _ heq
        rw [setCustomer_self] at heq
        cases heq
        exact ⟨fun _ => rfl, nofun⟩
      · rw [setCustomer_self]; nofun
  | checkMachines i k flag => exact h.checkMachines hc hat hcopy
  | ordering k =>
    rw [hat] at hstep
    dsimp only at hstep
    split at hstep
    · -- an order thread is created
      rename_i hk
      cases hstep
      refine ⟨fun _ => Or.inl (by rw [hat]; rfl), fun _ => Or.inl (by rw [hat]; rfl), ?_,
        fun _ => Or.inl (by rw [hat]; rfl), ?_, fun l k' hl => ?_⟩
      · rw [setCustomer_self]; nofun
      · rw [setCustomer_self]; exact fun _ => rfl
      have hsame : ((s.setOrder j k .started).setCustomer j (.ordering (k + 1))).order l k' =
          (s.setOrder j k .started).order l k' := rfl
      rw [hsame, setOrder_order] at hl
      split at hl
      · rename_i heq
        exact Or.inr ⟨heq.1, heq.2 ▸ hk, by rw [hat]; rfl⟩
      · exact Or.inl hl
    · cases hstep
      exact .quiet hat (update_self ..) rfl nofun rfl

/-! ## The other threads -/

/-- A step that no customer takes.  `main` may create one. -/
theorem Solo.congr (h : Solo inp s) (hseats : Seats inp s')
    (hcustomer : ∀ j, s'.customer j = s.customer j ∨
      s.customer j = .absent ∧ s'.customer j = .started)
    (hleft : s'.machineTimeAvailable = s.machineTimeAvailable)
    (horder : ∀ j k, s'.order j k ≠ .absent → s.order j k ≠ .absent) : Solo inp s' := by
  have hsame : ∀ p : CustomerAt → Bool, p .started = p .absent →
      ∀ j, p (s'.customer j) = p (s.customer j) := by
    intro p hp j
    rcases hcustomer j with heq | ⟨hold, hnew⟩
    · rw [heq]
    · rw [hold, hnew, hp]
  have hacc : ∀ j c, Accepted inp s' j c ↔ Accepted inp s j c := by
    intro j c
    have heq := hsame CustomerAt.accepted rfl j
    constructor
    · rintro ⟨h1, h2, h3⟩
      exact ⟨h1, h2, heq ▸ h3⟩
    · rintro ⟨h1, h2, h3⟩
      exact ⟨h1, h2, heq.symm ▸ h3⟩
  refine ⟨hseats, ?_, ?_, ?_, ?_, ?_, ?_, ?_⟩
  · simp only [hsame CustomerAt.onMenu rfl]
    exact h.menu
  · simp only [hacc, hsame CustomerAt.inTime rfl]
    exact h.time
  · intro j c i k flag hc hat
    rcases hcustomer j with heq | ⟨_, hnew⟩
    · exact h.scan j c i k flag hc (heq ▸ hat)
    · rw [hnew] at hat
      cases hat
  · simp only [hacc]
    exact h.served
  · simp only [hacc, hsame CustomerAt.paid rfl, hleft]
    exact h.left
  · simp only [hacc]
    exact h.one
  · intro j k hk
    obtain ⟨c, ha, hlt⟩ := h.ordered j k (horder j k hk)
    exact ⟨c, (hacc j c).mpr ha, hlt⟩

theorem Solo.step {a : Action} (h : Solo inp s) (htwo : ¬ TwoOrders inp)
    (hnext : next inp s a = some s') : Solo inp s' := by
  have hseats := h.toSeats.step hnext
  cases a with
  | tick =>
    cases hnext
    exact h.congr hseats (fun _ => Or.inl rfl) rfl (fun _ _ hk => hk)
  | main =>
    obtain ⟨hleft, horder, hcustomer⟩ := mainStep_customers hnext
    refine h.congr hseats (fun j => ?_) hleft (fun j k hk => by rwa [horder] at hk)
    rcases hcustomer with hsame | ⟨l, hmain, _, hcreate⟩
    · exact Or.inl (by rw [hsame])
    · rw [hcreate]
      by_cases hj : j = l
      · refine Or.inr ⟨h.closed j ?_, by rw [hj, update_self]⟩
        rw [hmain, hj]
        exact decide_eq_true (Nat.le_refl l)
      · exact Or.inl (update_of_ne hj _ _)
  | machine i =>
    obtain ⟨m, _, hstep⟩ := Option.bind_eq_some_iff.mp hnext
    obtain ⟨_, hcustomer, _, hleft, horder⟩ := machineStep_customers hstep
    exact h.congr hseats (fun j => Or.inl (by rw [hcustomer])) hleft
      (fun j k hk => by rwa [horder] at hk)
  | customer j =>
    obtain ⟨c, hc, hstep⟩ := Option.bind_eq_some_iff.mp hnext
    obtain ⟨b, hm⟩ := customerStep_counters hstep
    exact h.move htwo hc hm (h.checked hc hstep)
  | order j k =>
    obtain ⟨o, _, hstep⟩ := Option.bind_eq_some_iff.mp hnext
    obtain ⟨_, hcustomer, _, hleft, horder⟩ := orderStep_customers hstep
    exact h.congr hseats (fun j => Or.inl (by rw [hcustomer])) hleft horder

theorem solo_of_reachable (htwo : ¬ TwoOrders inp) (h : Reachable inp s) : Solo inp s := by
  refine ReachWhen.invariant (fun s hs => ?_) (fun s a s' hs _ hnext => hs.step htwo hnext) h
  rw [hs]
  exact Solo.start

/-- At most one order thread exists. -/
theorem Solo.one_order {k' : Nat} (h : Solo inp s) (htwo : ¬ TwoOrders inp)
    (hk : s.order j k ≠ .absent) (hk' : s.order j' k' ≠ .absent) : j = j' ∧ k = k' := by
  obtain ⟨c, ha, hlt⟩ := h.ordered j k hk
  obtain ⟨c', ha', hlt'⟩ := h.ordered j' k' hk'
  have hj : j = j' := h.one j j' c c' ha ha'
  have hc : c' = c := by
    rw [← hj] at ha'
    exact Option.some.inj (ha'.customer.symm.trans ha.customer)
  have hlen : c.orders.length < 2 := by
    by_contra hlen
    refine htwo (Or.inl ⟨j, c, ha.customer, ?_, by omega, h.acceptable ha⟩)
    exact h.one_seat ha.customer (inside_of_accepted ha.accepted)
  rw [hc] at hlt'
  exact ⟨hj, by omega⟩

end Xv6.Parlor
