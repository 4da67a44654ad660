import Mathlib.Algebra.Group.Int.Defs
import Mathlib.Logic.Function.Basic
import Xv6.Lib.Transition

/-!
# The ice cream parlor

The program `concurrency/2.c`: `main` reads the machines, the menu and the
customers, initialises the semaphores, and creates one thread for each
machine and one for each customer.  A customer who is accepted creates one
thread for each order, and that thread looks for a machine.

A thread is a program counter, and one step of a thread is one access to
what the threads share.  `sleep` is a step that waits for the clock, which
runs at any speed.  Semaphores are counters.

Times are of type `int`, and their sums are exact: an overflow is undefined
in the source.  `printf`, and the semaphores that no thread uses, are left
out.
-/

namespace Xv6.Parlor

open Xv6.Lib Function

/-! ## The input -/

/-- `Machine`, as it is read.  `isAvailable` is in the state. -/
structure Machine where
  startTime : Int32
  endTime : Int32

/-- `IceCream`. -/
structure IceCream where
  flavor : String
  preparationTime : Int32

/-- One order of a customer: the flavor, and the indices of the toppings. -/
structure SingleOrder where
  flavor : String
  toppings : List Nat

/-- `CustomerOrder`. -/
structure CustomerOrder where
  arrivalTime : Int32
  orders : List SingleOrder

/-- What `main` reads.  `toppings` are the names in `topping_info`. -/
structure Input where
  machines : List Machine
  K : Nat
  flavors : List IceCream
  toppings : List String
  customers : List CustomerOrder

/-- `findFlavorId`. -/
def findFlavorId (inp : Input) (flavor : String) : Option Nat :=
  inp.flavors.findIdx? (fun f => f.flavor == flavor)

/-- `findToppingId`. -/
def findToppingId (inp : Input) (topping : String) : Option Nat :=
  inp.toppings.findIdx? (fun t => t == topping)

/-- `flavors[findFlavorId(flavor)].preparation_time`. -/
def preparationTime (inp : Input) (o : SingleOrder) : Int :=
  match (findFlavorId inp o.flavor).bind (fun id => inp.flavors[id]?) with
  | some f => f.preparationTime.toInt
  | none => 0

/-- The first check of `customer_thread`: every flavor and every topping of
every order exists. -/
def feasible (inp : Input) (c : CustomerOrder) : Bool :=
  c.orders.all (fun o => (findFlavorId inp o.flavor).isSome &&
    o.toppings.all (fun t => ((inp.toppings[t]?).bind (findToppingId inp)).isSome))

/-- `total_time_required`. -/
def totalTime (inp : Input) (c : CustomerOrder) : Int :=
  c.orders.foldl (fun t o => t + preparationTime inp o) 0

/-- `machineTimeAvailable`, as `main` computes it. -/
def machineTime (inp : Input) : Int :=
  inp.machines.foldl (fun t m => t + (m.endTime.toInt - m.startTime.toInt)) 0

/-- The machine runs while the order is prepared, if that starts when the
customer arrives. -/
def covers (inp : Input) (m : Machine) (c : CustomerOrder) (o : SingleOrder) : Bool :=
  m.startTime.toInt ≤ c.arrivalTime.toInt &&
    c.arrivalTime.toInt + preparationTime inp o ≤ m.endTime.toInt

/-- The argument of `sleep` is unsigned. -/
def seconds (t : Int) : Nat := (t % 2 ^ 32).toNat

/-! ## Threads -/

/-- Where `main` is. -/
inductive MainAt
  | initShared | initMachine (i : Nat) | createMachine (i : Nat) | createCustomer (j : Nat) | join
  deriving DecidableEq, Repr

/-- Where a `machine_thread` is. -/
inductive MachineAt
  | absent | started | sleeping (wake : Nat) | postAgain | posted | running (wake : Nat)
  | stopping | closing | unlocking | exited
  deriving DecidableEq, Repr

/-- Where a `customer_thread` is.  In the last check it is at order `i` and
machine `k`. -/
inductive CustomerAt
  | absent | started | arriving (wake : Nat) | entering | checkMenu | checkTime
  | checkMachines (i k : Nat) (flag : Bool) | booking | subtracting | unlocking
  | ordering (k : Nat) | served | leaving | gone
  deriving DecidableEq, Repr

/-- Where a `single_order_thread` is. -/
inductive OrderAt
  | absent | started | looking (i : Nat) | trying (i : Nat) | assigned (i : Nat)
  | preparing (i wake : Nat) | done
  deriving DecidableEq, Repr

/-- What the threads share, and where they are.  Orders are named by their
customer and their number. -/
structure State where
  clock : Nat
  main : MainAt
  machineSem : Nat → Nat
  isAvailable : Nat → Bool
  customerSem : Nat
  machineLock : Nat
  machineTimeAvailableLock : Nat
  machineTimeAvailable : Int
  machine : Nat → MachineAt
  customer : Nat → CustomerAt
  order : Nat → Nat → OrderAt

/-- `main` has read its input. -/
def start (inp : Input) : State where
  clock := 0
  main := .initShared
  machineSem := fun _ => 0
  isAvailable := fun i => i < inp.machines.length
  customerSem := 0
  machineLock := 0
  machineTimeAvailableLock := 0
  machineTimeAvailable := machineTime inp
  machine := fun _ => .absent
  customer := fun _ => .absent
  order := fun _ _ => .absent

namespace State

def setMachine (s : State) (i : Nat) (a : MachineAt) : State :=
  { s with machine := update s.machine i a }

def setCustomer (s : State) (j : Nat) (a : CustomerAt) : State :=
  { s with customer := update s.customer j a }

def setOrder (s : State) (j k : Nat) (a : OrderAt) : State :=
  { s with order := update s.order j (update (s.order j) k a) }

def setMachineSem (s : State) (i n : Nat) : State :=
  { s with machineSem := update s.machineSem i n }

/-- `sem_post(&machine_sem[i])`. -/
def postMachine (s : State) (i : Nat) : State := s.setMachineSem i (s.machineSem i + 1)

end State

/-- One step of `main`. -/
def mainStep (inp : Input) (s : State) : Option State :=
  match s.main with
  | .initShared => some { s with
      customerSem := inp.K, machineLock := 1, machineTimeAvailableLock := 1,
      main := .initMachine 0 }
  | .initMachine i =>
      if i < inp.machines.length then
        some { s.setMachineSem i 0 with main := .initMachine (i + 1) }
      else some { s with main := .createMachine 0 }
  | .createMachine i =>
      if i < inp.machines.length then
        some { s.setMachine i .started with main := .createMachine (i + 1) }
      else some { s with main := .createCustomer 0 }
  | .createCustomer j =>
      if j < inp.customers.length then
        some { s.setCustomer j .started with main := .createCustomer (j + 1) }
      else some { s with main := .join }
  | .join => none

/-- One step of `machine_thread`. -/
def machineStep (m : Machine) (i : Nat) (s : State) : Option State :=
  match s.machine i with
  | .absent => none
  | .started => some (s.setMachine i (.sleeping (s.clock + seconds m.startTime.toInt)))
  | .sleeping wake =>
      if wake ≤ s.clock then some ((s.postMachine i).setMachine i .postAgain) else none
  | .postAgain => some ((s.postMachine i).setMachine i .posted)
  | .posted => some (s.setMachine i
      (.running (s.clock + seconds (m.endTime.toInt - m.startTime.toInt))))
  | .running wake => if wake ≤ s.clock then some (s.setMachine i .stopping) else none
  | .stopping =>
      if 0 < s.machineLock then
        some { s.setMachine i .closing with machineLock := s.machineLock - 1 }
      else none
  | .closing =>
      some { s.setMachine i .unlocking with isAvailable := update s.isAvailable i false }
  | .unlocking => some { s.setMachine i .exited with machineLock := s.machineLock + 1 }
  | .exited => none

/-- One step of `customer_thread`.  A customer who is accepted does not post
`customer_sem`. -/
def customerStep (inp : Input) (c : CustomerOrder) (j : Nat) (s : State) : Option State :=
  match s.customer j with
  | .absent => none
  | .started => some (s.setCustomer j (.arriving (s.clock + seconds c.arrivalTime.toInt)))
  | .arriving wake => if wake ≤ s.clock then some (s.setCustomer j .entering) else none
  | .entering =>
      if 0 < s.customerSem then
        some { s.setCustomer j .checkMenu with customerSem := s.customerSem - 1 }
      else none
  | .checkMenu =>
      if feasible inp c then some (s.setCustomer j .checkTime)
      else some (s.setCustomer j .leaving)
  | .checkTime =>
      if totalTime inp c > s.machineTimeAvailable then some (s.setCustomer j .leaving)
      else some (s.setCustomer j (.checkMachines 0 0 false))
  | .checkMachines i k flag =>
      match c.orders[i]? with
      | none => some (s.setCustomer j .booking)
      | some o =>
          match inp.machines[k]? with
          | some m =>
              -- `flag` is not cleared for the next order
              if s.isAvailable k && covers inp m c o then
                some (s.setCustomer j (.checkMachines (i + 1) 0 true))
              else some (s.setCustomer j (.checkMachines i (k + 1) flag))
          | none =>
              if flag then some (s.setCustomer j (.checkMachines (i + 1) 0 flag))
              else some (s.setCustomer j .leaving)
  | .booking =>
      if 0 < s.machineTimeAvailableLock then
        some { s.setCustomer j .subtracting with
          machineTimeAvailableLock := s.machineTimeAvailableLock - 1 }
      else none
  | .subtracting =>
      some { s.setCustomer j .unlocking with
        machineTimeAvailable := s.machineTimeAvailable - totalTime inp c }
  | .unlocking =>
      some { s.setCustomer j (.ordering 0) with
        machineTimeAvailableLock := s.machineTimeAvailableLock + 1 }
  | .ordering k =>
      if k < c.orders.length then
        some ((s.setOrder j k .started).setCustomer j (.ordering (k + 1)))
      else some (s.setCustomer j .served)
  | .served => none
  | .leaving => some { s.setCustomer j .gone with customerSem := s.customerSem + 1 }
  | .gone => none

/-- One step of `single_order_thread`.  It goes round the machines until
`sem_trywait` succeeds on one of them. -/
def orderStep (inp : Input) (o : SingleOrder) (j k : Nat) (s : State) : Option State :=
  match s.order j k with
  | .absent => none
  | .started => some (s.setOrder j k (.looking 0))
  | .looking i =>
      if i < inp.machines.length then
        if s.isAvailable i then some (s.setOrder j k (.trying i))
        else some (s.setOrder j k (.looking (i + 1)))
      else some (s.setOrder j k (.looking 0))
  | .trying i =>
      if 0 < s.machineSem i then
        some ((s.setMachineSem i (s.machineSem i - 1)).setOrder j k (.assigned i))
      else some (s.setOrder j k (.looking (i + 1)))
  | .assigned i =>
      some (s.setOrder j k (.preparing i (s.clock + seconds (preparationTime inp o))))
  | .preparing i wake =>
      if wake ≤ s.clock then some ((s.postMachine i).setOrder j k .done) else none
  | .done => none

/-- Who takes the next step. -/
inductive Action
  | tick | main | machine (i : Nat) | customer (j : Nat) | order (j k : Nat)
  deriving DecidableEq, Repr

/-- One step of the program. -/
def next (inp : Input) (s : State) : Action → Option State
  | .tick => some { s with clock := s.clock + 1 }
  | .main => mainStep inp s
  | .machine i => (inp.machines[i]?).bind (fun m => machineStep m i s)
  | .customer j => (inp.customers[j]?).bind (fun c => customerStep inp c j s)
  | .order j k => ((inp.customers[j]?).bind (fun c => c.orders[k]?)).bind
      (fun o => orderStep inp o j k s)

/-- The states of all runs. -/
abbrev Reachable (inp : Input) : State → Prop := Reach (next inp) (fun s => s = start inp)

end Xv6.Parlor
