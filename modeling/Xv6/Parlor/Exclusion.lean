import Xv6.Parlor.Acceptance
import Xv6.Parlor.Checks

/-!
# Two orders on one machine

A machine serves one order at a time in every run exactly if `TwoOrders` does
not hold of the input.  One direction is `Solo`.  For the other this module
puts a run together: `main` creates all threads, the first machine posts its
semaphore twice, the customers are admitted and pay, and two of their orders
take that machine.  All other threads wait.
-/

namespace Xv6.Parlor

open Xv6.Lib Function

variable {inp : Input} {s : State} {j k : Nat} {c : CustomerOrder}

theorem ticks (s : State) (n : Nat) : Star (next inp) s { s with clock := s.clock + n } := by
  induction n with
  | zero => exact .refl s
  | succ n ih => exact .step .tick ih rfl

theorem next_main (s : State) : next inp s .main = mainStep inp s := rfl

/-! ## `main` -/

/-- The state in which all semaphores are initialised and the first threads
are created. -/
def created (inp : Input) (main : MainAt) (machines customers : Nat) : State :=
  { start inp with
    main := main
    customerSem := inp.K
    machineLock := 1
    machineTimeAvailableLock := 1
    machine := fun i => if i < machines then .started else .absent
    customer := fun j => if j < customers then .started else .absent }

theorem initMachine_run {i : Nat} (hi : i ≤ inp.machines.length) :
    Star (next inp) (start inp) (created inp (.initMachine i) 0 0) := by
  induction i with
  | zero => exact .one .main rfl
  | succ i ih =>
    refine .step .main (ih (by omega)) ?_
    rw [next_main]
    unfold mainStep created
    dsimp only
    rw [if_pos (by omega), State.setMachineSem]
    dsimp only [start]
    rw [update_eq_self_iff.mpr rfl]

theorem createMachine_run {i : Nat} (hi : i ≤ inp.machines.length) :
    Star (next inp) (start inp) (created inp (.createMachine i) i 0) := by
  induction i with
  | zero =>
    refine .step .main (initMachine_run le_rfl) ?_
    rw [next_main]
    unfold mainStep created
    dsimp only
    rw [if_neg (by omega)]
  | succ i ih =>
    refine .step .main (ih (by omega)) ?_
    rw [next_main]
    unfold mainStep created
    dsimp only
    rw [if_pos (by omega), State.setMachine]
    dsimp only
    congr 2
    funext l
    by_cases hl : l = i
    · rw [hl, update_self, if_pos (by omega)]
    · rw [update_of_ne hl]
      simp only [show l < i ↔ l < i + 1 by omega]

theorem createCustomer_run {i : Nat} (hi : i ≤ inp.customers.length) :
    Star (next inp) (start inp) (created inp (.createCustomer i) inp.machines.length i) := by
  induction i with
  | zero =>
    refine .step .main (createMachine_run le_rfl) ?_
    rw [next_main]
    unfold mainStep created
    dsimp only
    rw [if_neg (by omega)]
  | succ i ih =>
    refine .step .main (ih (by omega)) ?_
    rw [next_main]
    unfold mainStep created
    dsimp only
    rw [if_pos (by omega), State.setCustomer]
    dsimp only
    congr 2
    funext l
    by_cases hl : l = i
    · rw [hl, update_self, if_pos (by omega)]
    · rw [update_of_ne hl]
      simp only [show l < i ↔ l < i + 1 by omega]

/-! ## The first machine -/

/-- A machine posts its semaphore twice. -/
theorem open_run {i : Nat} {m : Machine} (hm : inp.machines[i]? = some m)
    (hat : s.machine i = .started) : ∃ t, Star (next inp) s
      { s with clock := t, machine := update s.machine i .posted,
               machineSem := update s.machineSem i (s.machineSem i + 2) } := by
  refine ⟨s.clock + seconds m.startTime.toInt, ?_⟩
  refine .head (.machine i) (s.setMachine i (.sleeping (s.clock + seconds m.startTime.toInt)))
    (by simp only [next, hm, Option.bind_some, machineStep, hat]) ?_
  refine (ticks _ (seconds m.startTime.toInt)).trans ?_
  refine .head (.machine i) _ (by
    simp only [next, hm, Option.bind_some, machineStep, State.setMachine, update_self,
      Nat.le_refl, if_true]
    rfl) ?_
  refine .one (.machine i) ?_
  simp only [next, hm, Option.bind_some, machineStep, State.setMachine, State.postMachine,
    State.setMachineSem, update_self, update_idem]

/-! ## Customers -/

section Customer

variable (hc : inp.customers[j]? = some c)
include hc

theorem customer_next (s : State) : next inp s (.customer j) = customerStep inp c j s := by
  simp only [next, hc, Option.bind_some]

/-- What a customer does alone is a run of the parlor. -/
theorem alone_run {s' : State} (h : Alone inp c j s s') : Star (next inp) s s' := by
  induction h with
  | refl => exact .refl _
  | step a h hstep ih => exact .step (.customer j) ih (by rwa [customer_next hc])

/-- A customer comes in and passes the checks. -/
theorem admit_run (hat : s.customer j = .started) (hseat : 0 < s.customerSem)
    (hok : Acceptable inp s.machineTimeAvailable c)
    (havail : ∀ i, i < inp.machines.length → s.isAvailable i = true) :
    ∃ t, Star (next inp) s { s with
      clock := t, customerSem := s.customerSem - 1,
      customer := update s.customer j .booking } := by
  obtain ⟨_, hfeasible, htime, hserved⟩ := hok
  obtain ⟨t, ht⟩ : ∃ t, t = s.clock + seconds c.arrivalTime.toInt := ⟨_, rfl⟩
  refine ⟨t, ?_⟩
  -- the state once the customer is inside
  obtain ⟨u, hu⟩ : ∃ u : State, u = { s with clock := t, customerSem := s.customerSem - 1 } :=
    ⟨_, rfl⟩
  have hwait : Star (next inp) s ({ s with clock := t }.setCustomer j .entering) := by
    refine .head (.customer j) (s.setCustomer j (.arriving t)) ?_ ?_
    · rw [customer_next hc]
      simp only [customerStep, hat, ht]
    refine (ticks _ (seconds c.arrivalTime.toInt)).trans (.one (.customer j) ?_)
    rw [customer_next hc]
    simp only [customerStep, State.setCustomer, update_self, update_idem, ht,
      Nat.le_refl, if_true]
  have henter : Star (next inp) ({ s with clock := t }.setCustomer j .entering)
      (u.setCustomer j .checkMenu) := by
    refine .one (.customer j) ?_
    rw [customer_next hc, hu]
    simp only [customerStep, State.setCustomer, update_self, update_idem, hseat,
      if_true]
  have henters : Alone inp c j (u.setCustomer j .checkMenu)
      (u.setCustomer j (.checkMachines 0 0 false)) :=
    alone_enters hfeasible (by rw [hu]; exact htime)
  -- the last check finds a machine for the first order
  have hmachines : Alone inp c j (u.setCustomer j (.checkMachines 0 0 false))
      (u.setCustomer j .booking) := by
    rcases alone_machines inp c j u with ⟨_, hrun⟩ | ⟨hnone, _⟩
    · exact hrun
    · refine absurd ?_ hnone
      obtain ⟨o, ho, m, hm, hcovers⟩ := hserved
      obtain ⟨l, hl⟩ := List.getElem?_of_mem hm
      intro o' ho'
      rw [← Option.mem_unique ho ho']
      refine ⟨l, m, hl, ?_, hcovers⟩
      rw [hu]
      exact havail l (List.getElem?_eq_some_iff.mp hl).1
  have hall := hwait.trans (henter.trans (alone_run hc (henters.trans hmachines)))
  rw [hu] at hall
  exact hall

end Customer

/-! ## Orders -/

/-- An order takes the first machine. -/
theorem seize_run {o : SingleOrder} (hc : inp.customers[j]? = some c) (ho : c.orders[k]? = some o)
    (hat : s.order j k = .started) (hN : 0 < inp.machines.length) (havail : s.isAvailable 0 = true)
    (hsem : 0 < s.machineSem 0) :
    Star (next inp) s
      ((s.setMachineSem 0 (s.machineSem 0 - 1)).setOrder j k (.assigned 0)) := by
  have hnext : ∀ u : State, next inp u (.order j k) = orderStep inp o j k u := by
    intro u
    simp only [next, hc, ho, Option.bind_some]
  have hset : ∀ a b, (s.setOrder j k a).setOrder j k b = s.setOrder j k b := by
    intro a b
    simp only [State.setOrder, update_self, update_idem]
  refine .head (.order j k) (s.setOrder j k (.looking 0)) ?_ ?_
  · rw [hnext]
    simp only [orderStep, hat]
  refine .head (.order j k) (s.setOrder j k (.trying 0)) ?_ (.one (.order j k) ?_)
  · rw [hnext]
    simp only [orderStep, setOrder_self, hN, if_true]
    rw [if_pos (show (s.setOrder j k (.looking 0)).isAvailable 0 = true from havail), hset]
  · rw [hnext]
    simp only [orderStep, setOrder_self]
    rw [if_pos (show 0 < (s.setOrder j k (.trying 0)).machineSem 0 from hsem)]
    simp only [State.setOrder, State.setMachineSem, update_self, update_idem]

/-- Two orders that are there take the first machine, once it has posted
twice. -/
theorem seize_two {j' k' : Nat} {c' : CustomerOrder} {o o' : SingleOrder}
    (hc : inp.customers[j]? = some c) (ho : c.orders[k]? = some o)
    (hc' : inp.customers[j']? = some c') (ho' : c'.orders[k']? = some o')
    (hne : ¬ (j' = j ∧ k' = k)) (hat : s.order j k = .started) (hat' : s.order j' k' = .started)
    (hN : 0 < inp.machines.length) (havail : s.isAvailable 0 = true) (hsem : s.machineSem 0 = 2) :
    ∃ u, Star (next inp) s u ∧ Held u 0 j k ∧ Held u 0 j' k' := by
  have hfirst := seize_run hc ho hat hN havail (by omega)
  have hone : ((s.setMachineSem 0 (s.machineSem 0 - 1)).setOrder j k (.assigned 0)).machineSem 0 =
      1 := by
    show update s.machineSem 0 (s.machineSem 0 - 1) 0 = 1
    rw [update_self, hsem]
  have hother : ((s.setMachineSem 0 (s.machineSem 0 - 1)).setOrder j k (.assigned 0)).order j' k' =
      .started := by
    rw [setOrder_order, if_neg hne]
    exact hat'
  have hsecond := seize_run hc' ho' hother hN havail (by omega)
  refine ⟨_, hfirst.trans hsecond, ?_, ?_⟩
  · unfold Held
    rw [setOrder_order, if_neg (fun h => hne ⟨h.1.symm, h.2.symm⟩)]
    show (((s.setMachineSem 0 _).setOrder j k (.assigned 0)).order j k).machine = some 0
    rw [setOrder_self]
    rfl
  · unfold Held
    rw [setOrder_self]
    rfl

/-! ## The run -/

/-- The first machine has posted twice, no machine has stopped, and nobody is
paying. -/
structure Opened (inp : Input) (s : State) : Prop where
  reachable : Reachable inp s
  lock : s.machineTimeAvailableLock = 1
  available : ∀ i, i < inp.machines.length → s.isAvailable i = true
  machineSem : s.machineSem 0 = 2

theorem exists_opened (hN : 0 < inp.machines.length) : ∃ s, Opened inp s ∧
    (∀ j, j < inp.customers.length → s.customer j = .started) ∧ s.customerSem = inp.K ∧
    s.machineTimeAvailable = machineTime inp := by
  have hmain : Star (next inp) (start inp) (created inp (.createCustomer inp.customers.length)
      inp.machines.length inp.customers.length) := createCustomer_run le_rfl
  have hat : (created inp (.createCustomer inp.customers.length) inp.machines.length
      inp.customers.length).machine 0 = .started := if_pos hN
  obtain ⟨t, hopen⟩ := open_run (List.getElem?_eq_getElem hN) hat
  refine ⟨_, ⟨(hmain.trans hopen).reach (.init rfl), rfl, ?_, ?_⟩, ?_, rfl, rfl⟩
  · exact fun i hi => decide_eq_true hi
  · show update (fun _ => 0) 0 2 0 = 2
    rw [update_self]
  · exact fun j hj => if_pos hj

section Opened

variable (h : Opened inp s) (hc : inp.customers[j]? = some c)
include h hc

theorem Opened.admit (hat : s.customer j = .started) (hseat : 0 < s.customerSem)
    (hok : Acceptable inp s.machineTimeAvailable c) : ∃ s', Opened inp s' ∧
      s'.customer = update s.customer j .booking ∧
      s'.customerSem = s.customerSem - 1 ∧ s'.machineTimeAvailable = s.machineTimeAvailable ∧
      s'.order = s.order := by
  obtain ⟨t, hrun⟩ := admit_run hc hat hseat hok h.available
  exact ⟨_, ⟨hrun.reach h.reachable, h.lock, h.available, h.machineSem⟩, rfl, rfl, rfl, rfl⟩

/-- An accepted customer pays and creates the first order thread. -/
theorem Opened.place (hat : s.customer j = .booking) (hne : c.orders ≠ []) : ∃ s', Opened inp s' ∧
      s'.customer = update s.customer j (.ordering 1) ∧
      s'.customerSem = s.customerSem ∧
      s'.machineTimeAvailable = s.machineTimeAvailable - totalTime inp c ∧
      s'.order = (s.setOrder j 0 .started).order := by
  have hplace := alone_run hc ((alone_pay hat (by rw [h.lock]; omega)).trans
    (alone_place (update_self _ _ _) (List.length_pos_iff.mpr hne)))
  refine ⟨_, ⟨hplace.reach h.reachable, h.lock, h.available, h.machineSem⟩, ?_, rfl,
    rfl, rfl⟩
  simp only [State.setCustomer, State.setOrder, update_idem]

end Opened

/-- If two orders can be accepted, then two orders hold one machine in some
run. -/
theorem twoOrders_run (h : TwoOrders inp) : ∃ s j k j' k', Reachable inp s ∧ Held s 0 j k ∧
    Held s 0 j' k' ∧ ¬ (j' = j ∧ k' = k) := by
  have hN : ∀ {left c}, Acceptable inp left c → 0 < inp.machines.length := by
    rintro left c ⟨_, _, _, _, _, m, hm, _⟩
    exact List.length_pos_of_mem hm
  have hlt : ∀ {j : Nat} {c}, inp.customers[j]? = some c → j < inp.customers.length :=
    fun hc => (List.getElem?_eq_some_iff.mp hc).1
  have hhead : ∀ {left c}, Acceptable inp left c → ∃ o, c.orders[0]? = some o :=
    fun hok => ⟨_, List.getElem?_eq_getElem (List.length_pos_iff.mpr hok.1)⟩
  rcases h with ⟨j, c, hc, hK, hlen, hok⟩ | ⟨j, j', c, c', hne, hc, hc', hK, hok, hok'⟩
  · -- two orders of one customer
    obtain ⟨s, hs, hstarted, hsem, hleft⟩ := exists_opened (hN hok)
    obtain ⟨s1, hs1, hat1, -, -, -⟩ := hs.admit hc (hstarted j (hlt hc)) (by omega)
      (by rw [hleft]; exact hok)
    obtain ⟨s2, hs2, hat2, -, -, horder2⟩ := hs1.place hc
      (by rw [hat1, update_self]) hok.1
    have hplace := alone_run hc (alone_place (s := s2) (k := 1)
      (by rw [hat2, update_self]) (by omega))
    obtain ⟨o, ho⟩ := hhead hok
    have hfirst : ((s2.setOrder j 1 .started).setCustomer j (.ordering 2)).order j 0 =
        .started := by
      show (s2.setOrder j 1 .started).order j 0 = .started
      rw [setOrder_order, if_neg (by omega), horder2, setOrder_self]
    have hsecond : ((s2.setOrder j 1 .started).setCustomer j (.ordering 2)).order j 1 =
        .started := setOrder_self _
    obtain ⟨u, hu, hheld, hheld'⟩ := seize_two hc ho hc (List.getElem?_eq_getElem (by omega))
      (by omega) hfirst hsecond (hN hok) (hs2.available 0 (hN hok)) hs2.machineSem
    exact ⟨u, j, 0, j, 1, hu.reach (hplace.reach hs2.reachable), hheld, hheld', by omega⟩
  · -- one order of each of two customers
    obtain ⟨s, hs, hstarted, hsem, hleft⟩ := exists_opened (hN hok)
    obtain ⟨s1, hs1, hat1, hsem1, hleft1, -⟩ := hs.admit hc (hstarted j (hlt hc)) (by omega)
      (by rw [hleft]; exact hok)
    have hboth : ∃ u, Opened inp u ∧ u.order j 0 = .started ∧ u.order j' 0 = .started := by
      rcases hok' with hok' | hok'
      · -- the second customer passes the checks before the first one pays
        obtain ⟨s2, hs2, hat2, -, -, -⟩ := hs1.admit hc'
          (by rw [hat1, update_of_ne hne.symm]; exact hstarted j' (hlt hc')) (by omega)
          (by rw [hleft1, hleft]; exact hok')
        obtain ⟨s3, hs3, hat3, -, -, horder3⟩ := hs2.place hc
          (by rw [hat2, update_of_ne hne, hat1, update_self]) hok.1
        obtain ⟨s4, hs4, -, -, -, horder4⟩ := hs3.place hc'
          (by rw [hat3, update_of_ne hne.symm, hat2, update_self]) hok'.1
        refine ⟨s4, hs4, ?_, by rw [horder4, setOrder_self]⟩
        rw [horder4, setOrder_order, if_neg (fun hc => hne hc.1), horder3, setOrder_self]
      · -- the second customer comes after the first one has paid
        obtain ⟨s2, hs2, hat2, hsem2, hleft2, horder2⟩ := hs1.place hc
          (by rw [hat1, update_self]) hok.1
        obtain ⟨s3, hs3, hat3, -, -, horder3⟩ := hs2.admit hc' (by
            rw [hat2, update_of_ne hne.symm, hat1, update_of_ne hne.symm]
            exact hstarted j' (hlt hc')) (by omega)
          (by rw [hleft2, hleft1, hleft]; exact hok')
        obtain ⟨s4, hs4, -, -, -, horder4⟩ := hs3.place hc'
          (by rw [hat3, update_self]) hok'.1
        refine ⟨s4, hs4, ?_, by rw [horder4, setOrder_self]⟩
        rw [horder4, setOrder_order, if_neg (fun hc => hne hc.1), horder3, horder2, setOrder_self]
    obtain ⟨u, hu, hat, hat'⟩ := hboth
    obtain ⟨o, ho⟩ := hhead hok
    have ⟨o', ho'⟩ : ∃ o', c'.orders[0]? = some o' := by
      rcases hok' with hok' | hok' <;> exact hhead hok'
    obtain ⟨v, hv, hheld, hheld'⟩ := seize_two hc ho hc' ho' (fun hc => hne hc.1.symm) hat hat'
      (hN hok) (hu.available 0 (hN hok)) hu.machineSem
    exact ⟨v, j, 0, j', 0, hv.reach hu.reachable, hheld, hheld', fun hc => hne hc.1.symm⟩

/-- Machines serve one order at a time, and none before they start, in every
run, exactly if the parlor cannot accept two orders. -/
theorem machines_orderly_iff (inp : Input) :
    (∀ s, Reachable inp s → Orderly inp s) ↔ ¬ TwoOrders inp := by
  constructor
  · intro hall htwo
    obtain ⟨s, j, k, j', k', hs, hheld, hheld', hne⟩ := twoOrders_run htwo
    exact hne ((hall s hs).oneAtATime 0 j' k' j k hheld' hheld)
  · intro htwo s hs
    have hsolo := solo_of_reachable htwo hs
    have htimed := timed_of_reachable hs
    have hthere : ∀ {i j k}, Held s i j k → s.order j k ≠ .absent := by
      intro i j k hheld habsent
      unfold Held at hheld
      rw [habsent] at hheld
      cases hheld
    refine ⟨fun i j k j' k' hheld hheld' => ?_, fun i j k m hheld hm => ?_⟩
    · exact hsolo.one_order htwo (hthere hheld) (hthere hheld')
    · exact htimed.passed i m hm (htimed.open_of_held hheld)

/-- One machine, and one customer with two orders. -/
def twoScoops : Input where
  machines := [⟨0, 10⟩]
  K := 1
  flavors := [⟨"vanilla", 1⟩]
  toppings := []
  customers := [⟨0, [⟨"vanilla", []⟩, ⟨"vanilla", []⟩]⟩]

theorem twoScoops_share : ∃ s, Reachable twoScoops s ∧ Held s 0 0 0 ∧ Held s 0 0 1 :=
  exists_reachWhen_of_run (List.replicate 6 .main ++ List.replicate 3 (.machine 0) ++
      List.replicate 13 (.customer 0) ++ List.replicate 3 (.order 0 0) ++
      List.replicate 3 (.order 0 1)) rfl (by decide +kernel)

end Xv6.Parlor
