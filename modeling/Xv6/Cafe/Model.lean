import Mathlib.Algebra.Group.Int.Defs
import Mathlib.Logic.Function.Basic
import Xv6.Lib.Transition

/-!
# The cafe

The program `concurrency/1.c`: `main` reads the baristas, the coffee types and
the customers, initialises the semaphores, and creates one thread for each
customer.

A thread is a program counter with its local variables, and one step of a
thread is one access to what the threads share.  `waiting_time` and
`coffee_waste` are read in one step and written in another.  `usleep` lasts any
time, and `gettimeofday` gives any time: the step of a customer carries the
`current_time` that it reads.

Times are of type `int`, and their sums are exact: an overflow is undefined in
the source.  `printf` is left out, and with it the ids and the names of the
customers.
-/

namespace Xv6.Cafe

open Xv6.Lib

/-- `MAX_COFFEE_TYPES`. -/
abbrev MAX_COFFEE_TYPES : Nat := 10

/-- `MAX_CUSTOMERS`. -/
abbrev MAX_CUSTOMERS : Nat := 100

/-- `Customer`, as it is read. -/
structure Customer where
  coffeeType : String
  arrivalTime : Int32
  tolerance : Int32

/-- What `main` reads.  `coffeeTypes` are the names. -/
structure Input where
  numBaristas : Nat
  coffeeTypes : List String
  customers : List Customer

/-- The checks of `main`.  A negative count is refused like 0. -/
def admitted (inp : Input) : Bool :=
  0 < inp.numBaristas && 0 < inp.coffeeTypes.length && 0 < inp.customers.length &&
    inp.numBaristas ≤ MAX_CUSTOMERS && inp.coffeeTypes.length ≤ MAX_COFFEE_TYPES &&
    inp.customers.length ≤ MAX_CUSTOMERS &&
    inp.customers.all (fun c => inp.coffeeTypes.any (fun t => t == c.coffeeType))

/-- `current_time - customer->arrival_time`. -/
def Customer.waited (c : Customer) (t : Int) : Int := t - c.arrivalTime.toInt

/-- `current_time - customer->arrival_time > customer->tolerance`. -/
def Customer.late (c : Customer) (t : Int) : Bool := c.waited t > c.tolerance.toInt

/-! ## Threads -/

/-- Where `main` is. -/
inductive MainAt
  | initBarista (i : Nat) | initWaste | create (j : Nat) | join (j : Nat) | returned
  deriving DecidableEq

/-- Where a `customerThread` is, with `selected_barista` and `current_time` as
far as they are set.  `lateStore`, `wasteStore` and `closeStore` have the value
that they have read. -/
inductive At
  | absent
  | arriving
  | ordering
  /-- At barista `i` of the `for` loop. -/
  | looking (i : Nat)
  | chosen (i : Nat)
  | starting (i : Nat)
  | preparing (i : Nat)
  | lateLock (i : Nat) (t : Int)
  | lateLoad (i : Nat) (t : Int)
  | lateStore (i : Nat) (t w : Int)
  | wasteWait (i : Nat) (t : Int)
  | wasteLoad (i : Nat) (t : Int)
  | wasteStore (i : Nat) (t k : Int)
  | wastePost (i : Nat) (t : Int)
  | lateUnlock (i : Nat) (t : Int)
  | closing (i : Nat) (t : Int)
  | closeLoad (i : Nat) (t : Int)
  | closeStore (i : Nat) (t w : Int)
  | closeUnlock (i : Nat) (t : Int)
  | posting (i : Nat) (t : Int)
  | done (i : Nat) (t : Int)
  deriving DecidableEq

/-- What the threads share, and where they are. -/
structure State where
  main : MainAt
  baristaSemaphores : Nat → Nat
  coffeeWasteMutex : Nat
  /-- The thread that has locked `print_mutex`. -/
  printMutex : Option Nat
  coffeeWaste : Int
  waitingTime : Int
  customer : Nat → At

/-- `main` has read its input. -/
def start (inp : Input) : State where
  main := if admitted inp then .initBarista 0 else .returned
  baristaSemaphores := fun _ => 0
  coffeeWasteMutex := 0
  printMutex := none
  coffeeWaste := 0
  waitingTime := 0
  customer := fun _ => .absent

namespace State

def setCustomer (s : State) (j : Nat) (a : At) : State :=
  { s with customer := Function.update s.customer j a }

def setBarista (s : State) (i n : Nat) : State :=
  { s with baristaSemaphores := Function.update s.baristaSemaphores i n }

/-- `pthread_mutex_lock(&print_mutex)`. -/
def lockPrint (s : State) (j : Nat) (a : At) : Option State :=
  if s.printMutex = none then some { s.setCustomer j a with printMutex := some j } else none

/-- `pthread_mutex_unlock(&print_mutex)`. -/
def unlockPrint (s : State) (j : Nat) (a : At) : State :=
  { s.setCustomer j a with printMutex := none }

end State

/-- One step of `main`. -/
def mainStep (inp : Input) (s : State) : Option State :=
  match s.main with
  | .initBarista i =>
      if i < inp.numBaristas then some { s.setBarista i 1 with main := .initBarista (i + 1) }
      else some { s with main := .initWaste }
  | .initWaste => some { s with coffeeWasteMutex := 1, main := .create 0 }
  | .create j =>
      if j < inp.customers.length then some { s.setCustomer j .arriving with main := .create (j + 1) }
      else some { s with main := .join 0 }
  | .join j =>
      if j < inp.customers.length then
        match s.customer j with
        | .done _ _ => some { s with main := .join (j + 1) }
        | _ => none
      else some { s with main := .returned }
  | .returned => none

/-- One step of `customerThread`, which reads the time `now` if it calls
`gettimeofday`. -/
def customerStep (inp : Input) (c : Customer) (j : Nat) (now : Int) (s : State) : Option State :=
  match s.customer j with
  | .absent => none
  | .arriving => s.lockPrint j .ordering
  | .ordering => some (s.unlockPrint j (.looking 0))
  | .looking i =>
      if i < inp.numBaristas then
        -- `sem_trywait`
        if 0 < s.baristaSemaphores i then
          some ((s.setBarista i (s.baristaSemaphores i - 1)).setCustomer j (.chosen i))
        else some (s.setCustomer j (.looking (i + 1)))
      else some (s.setCustomer j (.looking 0))
  | .chosen i => s.lockPrint j (.starting i)
  | .starting i => some (s.unlockPrint j (.preparing i))
  | .preparing i =>
      some (s.setCustomer j (if c.late now then .lateLock i now else .closing i now))
  | .lateLock i t => s.lockPrint j (.lateLoad i t)
  | .lateLoad i t => some (s.setCustomer j (.lateStore i t s.waitingTime))
  | .lateStore i t w =>
      some { s.setCustomer j (.wasteWait i t) with waitingTime := w + c.tolerance.toInt }
  | .wasteWait i t =>
      if 0 < s.coffeeWasteMutex then
        some { s.setCustomer j (.wasteLoad i t) with coffeeWasteMutex := s.coffeeWasteMutex - 1 }
      else none
  | .wasteLoad i t => some (s.setCustomer j (.wasteStore i t s.coffeeWaste))
  | .wasteStore i t k => some { s.setCustomer j (.wastePost i t) with coffeeWaste := k + 1 }
  | .wastePost i t =>
      some { s.setCustomer j (.lateUnlock i t) with coffeeWasteMutex := s.coffeeWasteMutex + 1 }
  | .lateUnlock i t => some (s.unlockPrint j (.closing i t))
  | .closing i t => s.lockPrint j (.closeLoad i t)
  -- only the `printf` belongs to the `if` in the source
  | .closeLoad i t => some (s.setCustomer j (.closeStore i t s.waitingTime))
  | .closeStore i t w =>
      some { s.setCustomer j (.closeUnlock i t) with waitingTime := w + c.waited t }
  | .closeUnlock i t => some (s.unlockPrint j (.posting i t))
  | .posting i t =>
      some ((s.setBarista i (s.baristaSemaphores i + 1)).setCustomer j (.done i t))
  | .done _ _ => none

/-- Who takes the next step. -/
inductive Action
  | main | customer (j : Nat) (now : Int)

/-- One step of the program. -/
def next (inp : Input) (s : State) : Action → Option State
  | .main => mainStep inp s
  | .customer j now => (inp.customers[j]?).bind (fun c => customerStep inp c j now s)

/-- The states of all runs. -/
abbrev Reachable (inp : Input) : State → Prop := Reach (next inp) (start inp = ·)

end Xv6.Cafe
