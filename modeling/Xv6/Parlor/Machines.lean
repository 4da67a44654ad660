import Xv6.Lib.Shares
import Xv6.Parlor.Model

/-!
# Machines and their orders

An order holds a machine from its successful `sem_trywait` to its `sem_post`.
No machine is held before its start time: `machine_thread` posts its
semaphore after it has slept, and nobody posts it before.

But `machine_thread` posts the semaphore twice, so two orders can hold one
machine.  They do in some run, unless the parlor accepts at most one order:
`TwoOrders` says from the input alone that two orders can be accepted.  A
customer is accepted if there is a seat, the menu has what they want, the
machine time covers their orders, and some machine runs when their first
order is prepared.  The later orders are not looked at, because `flag` stays
set.  A second customer can be accepted before the first one has paid with
machine time, or after.
-/

namespace Xv6.Parlor

open Xv6.Lib Function

/-- The machine that an order holds. -/
def OrderAt.machine : OrderAt → Option Nat
  | .assigned i => some i
  | .preparing i _ => some i
  | _ => none

/-- Order `k` of customer `j` is between its `sem_trywait` and its `sem_post`
on machine `i`. -/
def Held (s : State) (i j k : Nat) : Prop := (s.order j k).machine = some i

instance (s : State) (i j k : Nat) : Decidable (Held s i j k) :=
  inferInstanceAs (Decidable (_ = _))

/-- A machine serves one order at a time, and none before it starts. -/
structure Orderly (inp : Input) (s : State) : Prop where
  oneAtATime : ∀ i j k j' k', Held s i j k → Held s i j' k' → j = j' ∧ k = k'
  notBefore : ∀ (i j k : Nat) m, Held s i j k → inp.machines[i]? = some m →
    m.startTime.toInt ≤ (s.clock : Int)

/-! ## Two orders -/

/-- Some machine runs while the first order of the customer is prepared. -/
def Served (inp : Input) (c : CustomerOrder) : Prop :=
  ∃ o ∈ c.orders.head?, ∃ m ∈ inp.machines, covers inp m c o = true

instance (inp : Input) (c : CustomerOrder) : Decidable (Served inp c) := by
  unfold Served
  infer_instance

/-- The customer has orders, and is accepted if this much machine time is
left. -/
def Acceptable (inp : Input) (left : Int) (c : CustomerOrder) : Prop :=
  c.orders ≠ [] ∧ feasible inp c = true ∧ totalTime inp c ≤ left ∧ Served inp c

/-- Two orders can be accepted: of one customer, or of two. -/
def TwoOrders (inp : Input) : Prop :=
  (∃ (j : Nat) (c : CustomerOrder), inp.customers[j]? = some c ∧ 1 ≤ inp.K ∧ 2 ≤ c.orders.length ∧
    Acceptable inp (machineTime inp) c) ∨
  ∃ (j j' : Nat) (c c' : CustomerOrder), j ≠ j' ∧ inp.customers[j]? = some c ∧ inp.customers[j']? = some c' ∧
    2 ≤ inp.K ∧ Acceptable inp (machineTime inp) c ∧
    (Acceptable inp (machineTime inp) c' ∨ Acceptable inp (machineTime inp - totalTime inp c) c')

variable {inp : Input} {s s' : State} {i j k : Nat} {c : CustomerOrder} {m : Machine}
  {o : SingleOrder}

/-! ## Fields after an update -/

@[simp] theorem setMachine_self (a : MachineAt) : (s.setMachine i a).machine i = a :=
  update_self _ _ _

@[simp] theorem setCustomer_self (a : CustomerAt) : (s.setCustomer j a).customer j = a :=
  update_self _ _ _

@[simp] theorem setOrder_self (a : OrderAt) : (s.setOrder j k a).order j k = a := by
  simp [State.setOrder]

theorem setOrder_order (a : OrderAt) (j' k' : Nat) :
    (s.setOrder j k a).order j' k' = if j' = j ∧ k' = k then a else s.order j' k' := by
  unfold State.setOrder
  by_cases hj : j' = j
  · subst hj
    by_cases hk : k' = k
    · simp [hk]
    · simp [hk]
  · simp [hj]

/-! ## Before the start time -/

/-- The machine has posted its semaphore. -/
def MachineAt.open : MachineAt → Bool
  | .absent | .started | .sleeping _ => false
  | _ => true

/-- `main` has not created machine `i` yet. -/
def MainAt.before (i : Nat) : MainAt → Bool
  | .initShared | .initMachine _ => true
  | .createMachine l => l ≤ i
  | _ => false

/-- Nobody has a machine before it has slept until its start time. -/
structure Timed (inp : Input) (s : State) : Prop where
  fresh : ∀ i, s.main.before i = true → s.machine i = .absent
  shut : ∀ i, (s.machine i).open = false → s.machineSem i = 0 ∧ ∀ j k, ¬ Held s i j k
  wake : ∀ (i : Nat) m (w : Nat), inp.machines[i]? = some m → s.machine i = .sleeping w →
    m.startTime.toInt ≤ (w : Int)
  passed : ∀ (i : Nat) m, inp.machines[i]? = some m → (s.machine i).open = true →
    m.startTime.toInt ≤ (s.clock : Int)

theorem le_seconds (t : Int32) : t.toInt ≤ seconds t.toInt := by
  have hlt := t.toInt_lt
  have hle := t.le_toInt
  unfold seconds
  omega

theorem Timed.start : Timed inp (Parlor.start inp) where
  fresh _ _ := rfl
  shut _ _ := ⟨rfl, fun _ _ h => by cases h⟩
  wake _ _ _ _ h := by cases h
  passed _ _ _ h := by cases h

/-- What a step of a customer leaves alone.  It holds no machine for the
orders that it creates. -/
structure Elsewhere (s s' : State) : Prop where
  clock : s'.clock = s.clock
  main : s'.main = s.main
  machineSem : s'.machineSem = s.machineSem
  machine : s'.machine = s.machine
  held : ∀ i j k, Held s' i j k → Held s i j k

theorem held_setOrder {a : OrderAt} (ha : a.machine = none) {i' j' k' : Nat}
    (h : Held (s.setOrder j k a) i' j' k') : Held s i' j' k' := by
  unfold Held at h ⊢
  rw [setOrder_order] at h
  split at h
  · rw [ha] at h
    cases h
  · exact h

theorem customerStep_elsewhere (h : customerStep inp c j s = some s') : Elsewhere s s' := by
  unfold customerStep at h
  repeat' split at h
  all_goals cases h
  all_goals refine ⟨rfl, rfl, rfl, rfl, ?_⟩
  all_goals first | exact fun _ _ _ h => h | exact fun _ _ _ h => held_setOrder rfl h

theorem Timed.elsewhere (h : Timed inp s) (he : Elsewhere s s') : Timed inp s' := by
  refine ⟨?_, ?_, ?_, ?_⟩
  · rw [he.main, he.machine]
    exact h.fresh
  · rw [he.machine, he.machineSem]
    intro i hi
    exact ⟨(h.shut i hi).1, fun j k hheld => (h.shut i hi).2 j k (he.held i j k hheld)⟩
  · rw [he.machine]
    exact h.wake
  · rw [he.machine, he.clock]
    exact h.passed

/-- An order holds only a machine that has posted. -/
theorem Timed.open_of_held (h : Timed inp s) (hheld : Held s i j k) : (s.machine i).open = true := by
  cases hopen : (s.machine i).open with
  | true => rfl
  | false => exact absurd hheld ((h.shut i hopen).2 j k)

theorem Timed.open_of_sem (h : Timed inp s) (hsem : 0 < s.machineSem i) :
    (s.machine i).open = true := by
  cases hopen : (s.machine i).open with
  | true => rfl
  | false => exact absurd (h.shut i hopen).1 hsem.ne'

theorem Timed.mainStep (h : Timed inp s) (hstep : mainStep inp s = some s') : Timed inp s' := by
  unfold Parlor.mainStep at hstep
  split at hstep
  · rename_i hmain
    cases hstep
    exact ⟨fun i _ => h.fresh i (by rw [hmain]; rfl), h.shut, h.wake, h.passed⟩
  · rename_i l hmain
    have hfresh : ∀ i, s.machine i = .absent := fun i => h.fresh i (by rw [hmain]; rfl)
    split at hstep
    · cases hstep
      refine ⟨fun i _ => hfresh i, fun i hi => ⟨?_, (h.shut i hi).2⟩, h.wake, h.passed⟩
      show update s.machineSem l 0 i = 0
      by_cases hil : i = l
      · rw [hil, update_self]
      · rw [update_of_ne hil]
        exact (h.shut i hi).1
    · cases hstep
      exact ⟨fun i _ => hfresh i, h.shut, h.wake, h.passed⟩
  · rename_i l hmain
    split at hstep
    · cases hstep
      have hl : s.machine l = .absent := h.fresh l (by rw [hmain]; exact decide_eq_true (Nat.le_refl l))
      have hother : ∀ i, i ≠ l → (s.setMachine l .started).machine i = s.machine i :=
        fun i hi => update_of_ne hi _ _
      refine ⟨fun i hi => ?_, fun i hi => ?_, fun i m w hm hw => ?_, fun i m hm hopen => ?_⟩
      · have hlt : l + 1 ≤ i := of_decide_eq_true hi
        refine (hother i (by omega)).trans (h.fresh i ?_)
        rw [hmain]
        exact decide_eq_true (by omega)
      · by_cases hil : i = l
        · rw [hil]
          exact h.shut l (by rw [hl]; rfl)
        · exact h.shut i ((hother i hil) ▸ hi)
      · by_cases hil : i = l
        · rw [hil, show (s.setMachine l .started).machine l = .started from setMachine_self _] at hw
          cases hw
        · exact h.wake i m w hm ((hother i hil) ▸ hw)
      · by_cases hil : i = l
        · rw [hil, show (s.setMachine l .started).machine l = .started from setMachine_self _] at hopen
          cases hopen
        · exact h.passed i m hm ((hother i hil) ▸ hopen)
    · cases hstep
      exact ⟨fun i hi => (by cases hi), h.shut, h.wake, h.passed⟩
  · rename_i l hmain
    split at hstep
    · cases hstep
      exact ⟨fun i hi => (by cases hi), h.shut, h.wake, h.passed⟩
    · cases hstep
      exact ⟨fun i hi => (by cases hi), h.shut, h.wake, h.passed⟩
  · cases hstep

/-- One machine goes on.  It posts its semaphore only when it is open. -/
theorem Timed.move {a : MachineAt} (h : Timed inp s) (hm : inp.machines[i]? = some m)
    (hold : s.machine i ≠ .absent) (hmachine : s'.machine = update s.machine i a)
    (hmain : s'.main = s.main) (hclock : s'.clock = s.clock) (horder : s'.order = s.order)
    (hother : ∀ l, l ≠ i → s'.machineSem l = s.machineSem l)
    (hshut : a.open = false → (s.machine i).open = false ∧ s'.machineSem i = s.machineSem i)
    (hwake : ∀ w, a = .sleeping w → m.startTime.toInt ≤ (w : Int))
    (hpassed : a.open = true → m.startTime.toInt ≤ (s.clock : Int)) : Timed inp s' := by
  have hself : s'.machine i = a := by rw [hmachine, update_self]
  have hne : ∀ l, l ≠ i → s'.machine l = s.machine l := by
    intro l hl
    rw [hmachine, update_of_ne hl]
  have hheld : ∀ l j k, Held s' l j k ↔ Held s l j k := by
    intro l j k
    unfold Held
    rw [horder]
  refine ⟨fun l hl => ?_, fun l hl => ?_, fun l m' w hm' hw => ?_, fun l m' hm' hopen => ?_⟩
  · rw [hmain] at hl
    by_cases hli : l = i
    · rw [hli] at hl
      exact absurd (h.fresh i hl) hold
    · rw [hne l hli]
      exact h.fresh l hl
  · simp only [hheld]
    by_cases hli : l = i
    · rw [hli, hself] at hl
      obtain ⟨hwas, hsem⟩ := hshut hl
      rw [hli, hsem]
      exact h.shut i hwas
    · rw [hother l hli]
      exact h.shut l (hne l hli ▸ hl)
  · by_cases hli : l = i
    · rw [hli, hself] at hw
      rw [hli, hm] at hm'
      cases hm'
      exact hwake w hw
    · exact h.wake l m' w hm' (hne l hli ▸ hw)
  · rw [hclock]
    by_cases hli : l = i
    · rw [hli, hm] at hm'
      cases hm'
      exact hpassed (hself ▸ hli ▸ hopen)
    · exact h.passed l m' hm' (hne l hli ▸ hopen)

theorem Timed.machineStep (h : Timed inp s) (hm : inp.machines[i]? = some m)
    (hstep : machineStep m i s = some s') : Timed inp s' := by
  have hpassed : ∀ {a}, s.machine i = a → a.open = true → m.startTime.toInt ≤ (s.clock : Int) := by
    intro a ha hopen
    exact h.passed i m hm (ha ▸ hopen)
  have hpost : ∀ l, l ≠ i → (s.postMachine i).machineSem l = s.machineSem l :=
    fun l hl => update_of_ne hl _ _
  unfold Parlor.machineStep at hstep
  split at hstep
  · cases hstep
  · -- `sleep(start_time)`
    rename_i hat
    cases hstep
    refine h.move hm (by rw [hat]; nofun) rfl rfl rfl rfl (fun _ _ => rfl)
      (fun _ => ⟨by rw [hat]; rfl, rfl⟩) (fun w hw => ?_) nofun
    cases hw
    have := le_seconds m.startTime
    omega
  · -- the first post
    rename_i wake hat
    split at hstep
    · rename_i hawake
      cases hstep
      refine h.move hm (by rw [hat]; nofun) rfl rfl rfl rfl hpost nofun nofun (fun _ => ?_)
      have := h.wake i m wake hm hat
      omega
    · cases hstep
  · rename_i hat
    cases hstep
    exact h.move hm (by rw [hat]; nofun) rfl rfl rfl rfl hpost nofun nofun
      (fun _ => hpassed hat rfl)
  · rename_i hat
    cases hstep
    exact h.move hm (by rw [hat]; nofun) rfl rfl rfl rfl (fun _ _ => rfl) nofun nofun
      (fun _ => hpassed hat rfl)
  · rename_i wake hat
    split at hstep
    · cases hstep
      exact h.move hm (by rw [hat]; nofun) rfl rfl rfl rfl (fun _ _ => rfl) nofun nofun
        (fun _ => hpassed hat rfl)
    · cases hstep
  · rename_i hat
    split at hstep
    · cases hstep
      exact h.move hm (by rw [hat]; nofun) rfl rfl rfl rfl (fun _ _ => rfl) nofun nofun
        (fun _ => hpassed hat rfl)
    · cases hstep
  · rename_i hat
    cases hstep
    exact h.move hm (by rw [hat]; nofun) rfl rfl rfl rfl (fun _ _ => rfl) nofun nofun
      (fun _ => hpassed hat rfl)
  · rename_i hat
    cases hstep
    exact h.move hm (by rw [hat]; nofun) rfl rfl rfl rfl (fun _ _ => rfl) nofun nofun
      (fun _ => hpassed hat rfl)
  · cases hstep

/-- An order goes on.  It changes only the semaphore of a machine that is
open, and holds only such a machine. -/
theorem Timed.order (h : Timed inp s) (hmachine : s'.machine = s.machine)
    (hmain : s'.main = s.main) (hclock : s'.clock = s.clock)
    (hsem : ∀ l, (s.machine l).open = false → s'.machineSem l = s.machineSem l)
    (hheld : ∀ l j k, Held s' l j k → Held s l j k ∨ (s.machine l).open = true) :
    Timed inp s' := by
  refine ⟨by rw [hmain, hmachine]; exact h.fresh, fun l hl => ?_, by rw [hmachine]; exact h.wake,
    by rw [hmachine, hclock]; exact h.passed⟩
  rw [hmachine] at hl
  rw [hsem l hl]
  refine ⟨(h.shut l hl).1, fun j k hk => ?_⟩
  rcases hheld l j k hk with hk | hopen
  · exact (h.shut l hl).2 j k hk
  · rw [hl] at hopen
    cases hopen

theorem Timed.orderStep (h : Timed inp s) (hstep : orderStep inp o j k s = some s') :
    Timed inp s' := by
  -- the steps that hold nothing and post nothing
  have hquiet : ∀ a : OrderAt, a.machine = none → Timed inp (s.setOrder j k a) := by
    intro a ha
    exact h.order rfl rfl rfl (fun _ _ => rfl) (fun _ _ _ hk => Or.inl (held_setOrder ha hk))
  unfold Parlor.orderStep at hstep
  split at hstep
  · cases hstep
  · cases hstep
    exact hquiet _ rfl
  · split at hstep
    · split at hstep
      · cases hstep
        exact hquiet _ rfl
      · cases hstep
        exact hquiet _ rfl
    · cases hstep
      exact hquiet _ rfl
  · rename_i i hat
    split at hstep
    · -- `sem_trywait` succeeds
      rename_i hsem
      have hopen := h.open_of_sem hsem
      cases hstep
      refine h.order rfl rfl rfl (fun l hl => ?_) (fun l j' k' hk => ?_)
      · refine update_of_ne ?_ _ _
        rintro rfl
        rw [hopen] at hl
        cases hl
      · unfold Held at hk
        rw [setOrder_order] at hk
        split at hk
        · cases hk
          exact Or.inr hopen
        · exact Or.inl hk
    · cases hstep
      exact hquiet _ rfl
  · rename_i i hat
    cases hstep
    have hopen := h.open_of_held (show Held s i j k by unfold Held; rw [hat]; rfl)
    refine h.order rfl rfl rfl (fun _ _ => rfl) (fun l j' k' hk => ?_)
    unfold Held at hk
    rw [setOrder_order] at hk
    split at hk
    · cases hk
      exact Or.inr hopen
    · exact Or.inl hk
  · rename_i i wake hat
    split at hstep
    · cases hstep
      have hopen := h.open_of_held (show Held s i j k by unfold Held; rw [hat]; rfl)
      refine h.order rfl rfl rfl (fun l hl => ?_) (fun l j' k' hk => ?_)
      · refine update_of_ne ?_ _ _
        rintro rfl
        rw [hopen] at hl
        cases hl
      · exact Or.inl (held_setOrder (s := s.postMachine i) rfl hk)
    · cases hstep
  · cases hstep

/-- In every run the machines are timed. -/
theorem Timed.step {a : Action} (h : Timed inp s) (hnext : next inp s a = some s') :
    Timed inp s' := by
  cases a with
  | tick =>
    cases hnext
    refine ⟨h.fresh, h.shut, h.wake, fun i m hm hopen => ?_⟩
    have hclock : ({ s with clock := s.clock + 1 } : State).clock = s.clock + 1 := rfl
    have := h.passed i m hm hopen
    rw [hclock]
    omega
  | main => exact h.mainStep hnext
  | machine i =>
    obtain ⟨m, hm, hstep⟩ := Option.bind_eq_some_iff.mp hnext
    exact h.machineStep hm hstep
  | customer j =>
    obtain ⟨c, _, hstep⟩ := Option.bind_eq_some_iff.mp hnext
    exact h.elsewhere (customerStep_elsewhere hstep)
  | order j k =>
    obtain ⟨o, _, hstep⟩ := Option.bind_eq_some_iff.mp hnext
    exact h.orderStep hstep

theorem timed_of_reachable (h : Reachable inp s) : Timed inp s := by
  refine ReachWhen.invariant (fun s hs => ?_) (fun s a s' hs _ hnext => hs.step hnext) h
  rw [hs]
  exact Timed.start

end Xv6.Parlor
