import Xv6.Parlor.Machines

/-!
# The checks of a customer

`customer_thread` of `concurrency/2.c` looks at the flavors, at the machine
time, and at the machines.  `Alone` is a run of one `customer_thread` while
the other threads wait, so that it sees the machines and the machine time as
they are at its start.  The flag of the last check is not cleared between the
orders, so only the first order needs a machine: `alone_machines`.
-/

namespace Xv6.Parlor

open Xv6.Lib

variable {inp : Input} {c : CustomerOrder} {o : SingleOrder} {s : State} {j : Nat}

/-! ## The checks -/

/-- A machine that is available runs while the order is prepared. -/
def HasMachine (inp : Input) (s : State) (c : CustomerOrder) (o : SingleOrder) : Prop :=
  ∃ (k : Nat) (m : Machine), inp.machines[k]? = some m ∧ s.isAvailable k = true ∧
    covers inp m c o = true

/-! ## Running alone -/

/-- The steps of one `customer_thread`. -/
abbrev Alone (inp : Input) (c : CustomerOrder) (j : Nat) : State → State → Prop :=
  Star (fun s (_ : Unit) => customerStep inp c j s)

theorem setCustomer_twice (a b : CustomerAt) :
    (s.setCustomer j a).setCustomer j b = s.setCustomer j b := by
  simp [State.setCustomer]

/-- One step that moves the customer only. -/
theorem alone_step {a b : CustomerAt} {s' : State}
    (h : customerStep inp c j (s.setCustomer j a) = some ((s.setCustomer j a).setCustomer j b))
    (hrest : Alone inp c j (s.setCustomer j b) s') : Alone inp c j (s.setCustomer j a) s' := by
  rw [setCustomer_twice] at h
  exact .head () _ h hrest

section Machines

variable {i k : Nat} {flag : Bool}

/-- The search for a machine, from machine `k` on.  It stops at a machine that
will do, and without one the flag of the orders before decides. -/
theorem alone_search (ho : c.orders[i]? = some o) (d : Nat) (hk : k + d = inp.machines.length)
    (hbefore : ∀ l m, l < k → inp.machines[l]? = some m →
      ¬(s.isAvailable l = true ∧ covers inp m c o = true)) :
    ∃ b, Alone inp c j (s.setCustomer j (.checkMachines i k flag)) (s.setCustomer j b) ∧
      (HasMachine inp s c o ∧ b = .checkMachines (i + 1) 0 true ∨ ¬ HasMachine inp s c o ∧
        b = if flag then .checkMachines (i + 1) 0 flag else .leaving) := by
  induction d generalizing k with
  | zero =>
    have hend : inp.machines[k]? = none := List.getElem?_eq_none (by omega)
    refine ⟨_, alone_step ?_ (.refl _), Or.inr ⟨?_, rfl⟩⟩
    · simp only [customerStep, setCustomer_self, ho, hend]
      cases flag <;> rfl
    · rintro ⟨l, m, hm, hdo⟩
      have hl := (List.getElem?_eq_some_iff.mp hm).1
      exact hbefore l m (by omega) hm hdo
  | succ d ih =>
    have hm := List.getElem?_eq_getElem (show k < inp.machines.length by omega)
    have hstep : customerStep inp c j (s.setCustomer j (.checkMachines i k flag)) =
        some ((s.setCustomer j (.checkMachines i k flag)).setCustomer j
          (if s.isAvailable k && covers inp inp.machines[k] c o then .checkMachines (i + 1) 0 true
          else .checkMachines i (k + 1) flag)) := by
      simp only [customerStep, setCustomer_self, ho, hm]
      rw [show (s.setCustomer j _).isAvailable k = s.isAvailable k from rfl]
      split <;> rfl
    by_cases hhere : s.isAvailable k = true ∧ covers inp inp.machines[k] c o = true
    · rw [if_pos (by rw [hhere.1, hhere.2]; rfl)] at hstep
      exact ⟨_, alone_step hstep (.refl _), Or.inl ⟨⟨k, _, hm, hhere⟩, rfl⟩⟩
    · rw [if_neg (by rwa [Bool.and_eq_true])] at hstep
      have hnext : ∀ l m, l < k + 1 → inp.machines[l]? = some m →
          ¬(s.isAvailable l = true ∧ covers inp m c o = true) := by
        intro l m hl hget
        rcases Nat.lt_succ_iff_lt_or_eq.mp hl with hlt | rfl
        · exact hbefore l m hlt hget
        · rw [hm] at hget
          cases hget
          exact hhere
      obtain ⟨b, hrun, hb⟩ := ih (by omega) hnext
      exact ⟨b, alone_step hstep hrun, hb⟩

/-- With the flag set, the other orders are not looked at. -/
theorem alone_flag (d : Nat) (hi : i + d = c.orders.length) :
    Alone inp c j (s.setCustomer j (.checkMachines i 0 true)) (s.setCustomer j .booking) := by
  induction d generalizing i with
  | zero =>
    have hend : c.orders[i]? = none := List.getElem?_eq_none (by omega)
    refine alone_step ?_ (.refl _)
    simp only [customerStep, setCustomer_self, hend]
  | succ d ih =>
    have ho := List.getElem?_eq_getElem (show i < c.orders.length by omega)
    refine Star.trans ?_ (ih (i := i + 1) (by omega))
    obtain ⟨b, hrun, ⟨_, rfl⟩ | ⟨_, rfl⟩⟩ := alone_search ho _ (Nat.zero_add _) nofun
    · exact hrun
    · exact hrun

theorem alone_machines (inp : Input) (c : CustomerOrder) (j : Nat) (s : State) :
    (∀ o ∈ c.orders.head?, HasMachine inp s c o) ∧
        Alone inp c j (s.setCustomer j (.checkMachines 0 0 false)) (s.setCustomer j .booking) ∨
      ¬(∀ o ∈ c.orders.head?, HasMachine inp s c o) ∧
        Alone inp c j (s.setCustomer j (.checkMachines 0 0 false)) (s.setCustomer j .leaving) := by
  cases horders : c.orders with
  | nil =>
    refine Or.inl ⟨?_, alone_step ?_ (.refl _)⟩
    · intro o ho
      cases ho
    · simp [customerStep, horders]
  | cons o os =>
    have ho : c.orders[0]? = some o := by rw [horders]; rfl
    obtain ⟨b, hrun, ⟨hmachine, rfl⟩ | ⟨hmachine, rfl⟩⟩ :=
      alone_search ho _ (Nat.zero_add _) nofun
    · refine Or.inl ⟨?_, hrun.trans (alone_flag os.length ?_)⟩
      · intro o' ho'
        cases ho'
        exact hmachine
      · rw [horders, List.length_cons, Nat.add_comm]
    · exact Or.inr ⟨fun hall => hmachine (hall o rfl), hrun⟩

end Machines

/-- The first two checks. -/
theorem alone_enters (hfeasible : feasible inp c = true)
    (htime : totalTime inp c ≤ s.machineTimeAvailable) :
    Alone inp c j (s.setCustomer j .checkMenu) (s.setCustomer j (.checkMachines 0 0 false)) := by
  refine alone_step (b := .checkTime) ?_ (alone_step ?_ (.refl _))
  · simp [customerStep, hfeasible]
  · simp [customerStep, State.setCustomer, htime]

/-- An accepted customer pays. -/
theorem alone_pay (hat : s.customer j = .booking) (hlock : 0 < s.machineTimeAvailableLock) :
    Alone inp c j s { s with
      machineTimeAvailable := s.machineTimeAvailable - totalTime inp c
      customer := Function.update s.customer j (.ordering 0) } := by
  have hlock' : s.machineTimeAvailableLock - 1 + 1 = s.machineTimeAvailableLock := by omega
  refine .head () { s.setCustomer j .subtracting with
    machineTimeAvailableLock := s.machineTimeAvailableLock - 1 } ?_
    (.head () { s.setCustomer j .unlocking with
      machineTimeAvailable := s.machineTimeAvailable - totalTime inp c
      machineTimeAvailableLock := s.machineTimeAvailableLock - 1 } ?_ (.one () ?_))
  · simp only [customerStep, hat, hlock, if_true]
  · simp [customerStep, State.setCustomer]
  · simp [customerStep, State.setCustomer, hlock']

/-- The next order thread is created. -/
theorem alone_place {k : Nat} (hat : s.customer j = .ordering k) (hk : k < c.orders.length) :
    Alone inp c j s ((s.setOrder j k .started).setCustomer j (.ordering (k + 1))) := by
  refine .one () ?_
  simp only [customerStep, hat, hk, if_true]

end Xv6.Parlor
