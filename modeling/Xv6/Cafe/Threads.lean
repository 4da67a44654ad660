import Xv6.Cafe.Model
import Xv6.Lib.Shares

/-!
# The threads of the cafe

What each place of a customer says: which barista they have, whether they have
locked `print_mutex`, and what they have added to `waiting_time` and to
`coffee_waste` so far.  `Inv` says that the semaphores and the two sums agree
with the places of all the customers.

`Inv.move` says what the step of one customer has to meet, and the steps of
`customerThread` are instances of it.
-/

namespace Xv6.Cafe

open Xv6.Lib Function

variable {inp : Input} {s s' : State} {c : Customer} {j : Nat}

/-! ## What a place says -/

namespace At

/-- The barista that the customer has. -/
def barista : At → Option Nat
  | .absent | .arriving | .ordering | .looking _ | .done _ _ => none
  | .chosen i | .starting i | .preparing i => some i
  | .lateLock i _ | .lateLoad i _ | .lateStore i _ _ | .wasteWait i _ | .wasteLoad i _
  | .wasteStore i _ _ | .wastePost i _ | .lateUnlock i _ | .closing i _ | .closeLoad i _
  | .closeStore i _ _ | .closeUnlock i _ | .posting i _ => some i

/-- The barista that the customer has or has had. -/
def choice : At → Option Nat
  | .done i _ => some i
  | a => a.barista

/-- `main` has created the thread. -/
def created : At → Bool
  | .absent => false
  | _ => true

/-- The customer has locked `print_mutex`. -/
def prints : At → Bool
  | .ordering | .starting _ | .lateLoad _ _ | .lateStore _ _ _ | .wasteWait _ _ | .wasteLoad _ _
  | .wasteStore _ _ _ | .wastePost _ _ | .lateUnlock _ _ | .closeLoad _ _ | .closeStore _ _ _
  | .closeUnlock _ _ => true
  | .absent | .arriving | .looking _ | .chosen _ | .preparing _ | .lateLock _ _ | .closing _ _
  | .posting _ _ | .done _ _ => false

/-- The customer is in the branch for those who are late. -/
def leaving : At → Option Int
  | .lateLock _ t | .lateLoad _ t | .lateStore _ t _ | .wasteWait _ t | .wasteLoad _ t
  | .wasteStore _ t _ | .wastePost _ t | .lateUnlock _ t => some t
  | _ => none

/-- What the customer has added to `waiting_time`. -/
def counted (c : Customer) : At → Int
  | .wasteWait _ t | .wasteLoad _ t | .wasteStore _ t _ | .wastePost _ t | .lateUnlock _ t
  | .closing _ t | .closeLoad _ t | .closeStore _ t _ =>
      if c.late t then c.tolerance.toInt else 0
  | .closeUnlock _ t | .posting _ t | .done _ t =>
      (if c.late t then c.tolerance.toInt else 0) + c.waited t
  | _ => 0

/-- What the customer has added to `coffee_waste`. -/
def wasted (c : Customer) : At → Int
  | .wastePost _ t | .lateUnlock _ t | .closing _ t | .closeLoad _ t | .closeStore _ t _
  | .closeUnlock _ t | .posting _ t | .done _ t => if c.late t then 1 else 0
  | _ => 0

/-- The value of `waiting_time` that the customer has read. -/
def readTime : At → Option Int
  | .lateStore _ _ w | .closeStore _ _ w => some w
  | _ => none

/-- The value of `coffee_waste` that the customer has read. -/
def readWaste : At → Option Int
  | .wasteStore _ _ k => some k
  | _ => none

/-- One if the customer has barista `i`. -/
def has (a : At) (i : Nat) : Nat := if a.barista = some i then 1 else 0

end At

/-- Something about the customers, summed up. -/
def sumOver (inp : Input) (f : Customer → At → Int) (s : State) : Int :=
  ∑ j ∈ Finset.range inp.customers.length,
    ((inp.customers[j]?).map (fun c => f c (s.customer j))).getD 0

theorem sumOver_update {f : Customer → At → Int} (hc : inp.customers[j]? = some c) (b : At)
    (hcustomer : s'.customer = update s.customer j b) :
    sumOver inp f s' = sumOver inp f s + (f c b - f c (s.customer j)) := by
  have hj : j ∈ Finset.range inp.customers.length :=
    Finset.mem_range.mpr (List.getElem?_eq_some_iff.mp hc).1
  have hsum := sum_change
    (f := fun i => ((inp.customers[i]?).map (fun c => f c (s.customer i))).getD 0)
    (g := fun i => ((inp.customers[i]?).map (fun c => f c (s'.customer i))).getD 0) hj ?_
  · simp only [hc, Option.map_some, Option.getD_some] at hsum
    rw [sumOver, hsum, hcustomer, update_self]
    rfl
  · intro i _ hi
    rw [hcustomer, update_of_ne hi]

/-- The customers who have barista `i`. -/
def holders (inp : Input) (s : State) (i : Nat) : Nat :=
  total (Finset.range inp.customers.length) At.has s.customer i

/-! ## The invariant -/

/-- `main` has not created customer `j` yet. -/
def MainAt.unborn (j : Nat) : MainAt → Bool
  | .initBarista _ | .initWaste => true
  | .create l => l ≤ j
  | .join _ | .returned => false

/-- `main` has initialised the semaphore of barista `i`. -/
def MainAt.ready (i : Nat) : MainAt → Bool
  | .initBarista l => i < l
  | _ => true

structure Inv (inp : Input) (s : State) : Prop where
  closed : ∀ j, s.main.unborn j = true → s.customer j = .absent
  refused : admitted inp = false → s = start inp
  semaphore : admitted inp = true → ∀ i < inp.numBaristas, s.main.ready i = true →
    s.baristaSemaphores i + holders inp s i = 1
  range : ∀ j i, (s.customer j).choice = some i → i < inp.numBaristas
  mutex : ∀ j, (s.customer j).prints = true ↔ s.printMutex = some j
  late : ∀ (j : Nat) c t, inp.customers[j]? = some c → (s.customer j).leaving = some t →
    c.late t = true
  waiting : s.waitingTime = sumOver inp At.counted s
  waste : s.coffeeWaste = sumOver inp At.wasted s
  readTime : ∀ j w, (s.customer j).readTime = some w → w = s.waitingTime
  readWaste : ∀ j k, (s.customer j).readWaste = some k → k = s.coffeeWaste

variable {a b : At} {i : Nat}

theorem choice_of_barista (h : a.barista = some i) : a.choice = some i := by
  cases a <;> first | exact h | cases h

/-- Whoever has read one of the sums has locked `print_mutex`. -/
theorem prints_of_readTime {w : Int} (h : a.readTime = some w) : a.prints = true := by
  cases a <;> first | rfl | cases h

theorem prints_of_readWaste {k : Int} (h : a.readWaste = some k) : a.prints = true := by
  cases a <;> first | rfl | cases h

/-- `print_mutex` before and after a step of customer `j` from `a` to `b`. -/
inductive MutexMove (j : Nat) (a b : At) (m m' : Option Nat) : Prop
  | keep (hprints : b.prints = a.prints) (hsame : m' = m)
  | lock (hfree : m = none) (hprints : b.prints = true) (hlock : m' = some j)
  | unlock (hprinted : a.prints = true) (hprints : b.prints = false) (hfree : m' = none)

/-- What the step of customer `j` to `b` has to meet. -/
structure Moves (inp : Input) (c : Customer) (j : Nat) (s s' : State) (b : At) : Prop where
  customer : s'.customer = update s.customer j b
  main : s'.main = s.main
  created : (s.customer j).created = true
  /-- The customer gets a barista only if they have had none before. -/
  choice : b.choice = (s.customer j).choice ∧ ((s.customer j).barista = none → b.barista = none) ∨
    (s.customer j).choice = none ∧ (s.customer j).barista = none ∧ b.barista = b.choice
  semaphore : ∀ i, s'.baristaSemaphores i + b.has i =
    s.baristaSemaphores i + (s.customer j).has i
  range : ∀ i, b.barista = some i → (s.customer j).barista = some i ∨ i < inp.numBaristas
  mutex : MutexMove j (s.customer j) b s.printMutex s'.printMutex
  late : ∀ t, b.leaving = some t → (s.customer j).leaving = some t ∨ c.late t = true
  waiting : s'.waitingTime = s.waitingTime + (b.counted c - (s.customer j).counted c)
  waste : s'.coffeeWaste = s.coffeeWaste + (b.wasted c - (s.customer j).wasted c)
  /-- The sums change only under `print_mutex`. -/
  locked : s'.waitingTime = s.waitingTime ∧ s'.coffeeWaste = s.coffeeWaste ∨
    (s.customer j).prints = true
  readTime : ∀ w, b.readTime = some w → w = s'.waitingTime
  readWaste : ∀ k, b.readWaste = some k → k = s'.coffeeWaste

theorem Inv.move (h : Inv inp s) (hc : inp.customers[j]? = some c) (hm : Moves inp c j s s' b) :
    Inv inp s' := by
  have hself : s'.customer j = b := by rw [hm.customer, update_self]
  have hother : ∀ i, i ≠ j → s'.customer i = s.customer i := by
    intro i hi
    rw [hm.customer, update_of_ne hi]
  have hj : j ∈ Finset.range inp.customers.length :=
    Finset.mem_range.mpr (List.getElem?_eq_some_iff.mp hc).1
  -- nobody else has read one of the sums, if it changes
  have hread : ∀ i, i ≠ j → (s.customer i).prints = true →
      s'.waitingTime = s.waitingTime ∧ s'.coffeeWaste = s.coffeeWaste := by
    intro i hi hprints
    refine hm.locked.resolve_right ?_
    intro hprints'
    have howner := (h.mutex i).mp hprints
    rw [(h.mutex j).mp hprints'] at howner
    exact hi (Option.some.inj howner).symm
  constructor
  case closed =>
    intro i hi
    rw [hm.main] at hi
    have habsent := h.closed i hi
    have hij : i ≠ j := by
      intro hij
      have hcreated := hm.created
      rw [← hij, habsent] at hcreated
      cases hcreated
    rw [hother i hij, habsent]
  case refused =>
    intro hno
    have hcreated := hm.created
    rw [h.refused hno] at hcreated
    cases hcreated
  case semaphore =>
    intro hyes i hi hready
    rw [hm.main] at hready
    have hone := h.semaphore hyes i hi hready
    have hsem := hm.semaphore i
    have hupdate := total_update (g := At.has) (t := s.customer) hj b i
    rw [holders] at hone ⊢
    rw [hm.customer]
    omega
  case range =>
    intro k i hk
    by_cases hkj : k = j
    · rw [hkj, hself] at hk
      rcases hm.choice with ⟨hchoice, _⟩ | ⟨_, hnone, hget⟩
      · rw [hchoice] at hk
        exact h.range j i hk
      · rw [← hget] at hk
        refine (hm.range i hk).resolve_left ?_
        simp [hnone]
    · rw [hother k hkj] at hk
      exact h.range k i hk
  case mutex =>
    intro k
    have hold := h.mutex k
    by_cases hkj : k = j
    · subst hkj
      rw [hself]
      cases hm.mutex with
      | keep hprints hsame => rw [hprints, hsame, hold]
      | lock hfree hprints hlock => simp [hprints, hlock]
      | unlock hprinted hprints hfree => simp [hprints, hfree]
    · rw [hother k hkj]
      cases hm.mutex with
      | keep hprints hsame => rw [hsame, hold]
      | lock hfree hprints hlock =>
        rw [hold, hfree, hlock]
        simp [Ne.symm hkj]
      | unlock hprinted hprints hfree =>
        have howner := (h.mutex j).mp hprinted
        rw [hold, hfree, howner]
        simp [Ne.symm hkj]
  case late =>
    intro k c' t hc' hk
    by_cases hkj : k = j
    · subst hkj
      obtain rfl := Option.some.inj (hc.symm.trans hc')
      rw [hself] at hk
      exact (hm.late t hk).elim (h.late k c t hc) id
    · rw [hother k hkj] at hk
      exact h.late k c' t hc' hk
  case waiting => rw [hm.waiting, h.waiting, sumOver_update hc b hm.customer]
  case waste => rw [hm.waste, h.waste, sumOver_update hc b hm.customer]
  case readTime =>
    intro k w hk
    by_cases hkj : k = j
    · rw [hkj, hself] at hk
      exact hm.readTime w hk
    · rw [hother k hkj] at hk
      rw [(hread k hkj (prints_of_readTime hk)).1]
      exact h.readTime k w hk
  case readWaste =>
    intro k w hk
    by_cases hkj : k = j
    · rw [hkj, hself] at hk
      exact hm.readWaste w hk
    · rw [hother k hkj] at hk
      rw [(hread k hkj (prints_of_readWaste hk)).2]
      exact h.readWaste k w hk

/-! ## The steps -/

/-- Two places at which the customer has added the same to the sums. -/
structure Level (c : Customer) (a b : At) : Prop where
  created : a.created = true
  leaving : b.leaving = none ∨ b.leaving = a.leaving
  counted : b.counted c = a.counted c
  wasted : b.wasted c = a.wasted c

/-- Two places at which the customer has the same barista too. -/
structure Alike (c : Customer) (a b : At) : Prop extends Level c a b where
  barista : b.barista = a.barista
  choice : b.choice = a.choice

/-- Nothing has been read at the place. -/
structure Unread (b : At) : Prop where
  time : b.readTime = none
  waste : b.readWaste = none

/-- A step that keeps the sums. -/
theorem Moves.level (hat : s.customer j = a) (hlevel : Level c a b)
    (hcustomer : s'.customer = update s.customer j b) (hmain : s'.main = s.main)
    (htime : s'.waitingTime = s.waitingTime) (hwaste : s'.coffeeWaste = s.coffeeWaste)
    (hmutex : MutexMove j a b s.printMutex s'.printMutex)
    (hreadTime : ∀ w, b.readTime = some w → w = s.waitingTime)
    (hreadWaste : ∀ k, b.readWaste = some k → k = s.coffeeWaste)
    (hchoice : b.choice = a.choice ∧ (a.barista = none → b.barista = none) ∨
      a.choice = none ∧ a.barista = none ∧ b.barista = b.choice)
    (hsem : ∀ i, s'.baristaSemaphores i + b.has i = s.baristaSemaphores i + a.has i)
    (hrange : ∀ i, b.barista = some i → a.barista = some i ∨ i < inp.numBaristas) :
    Moves inp c j s s' b := by
  subst hat
  constructor
  case customer => exact hcustomer
  case main => exact hmain
  case created => exact hlevel.created
  case choice => exact hchoice
  case semaphore => exact hsem
  case range => exact hrange
  case mutex => exact hmutex
  case late =>
    intro t ht
    cases hlevel.leaving with
    | inl hnone =>
      rw [hnone] at ht
      cases ht
    | inr hsame =>
      rw [hsame] at ht
      exact Or.inl ht
  case waiting => rw [htime, hlevel.counted, sub_self, add_zero]
  case waste => rw [hwaste, hlevel.wasted, sub_self, add_zero]
  case locked => exact Or.inl ⟨htime, hwaste⟩
  case readTime =>
    intro w hw
    rw [htime]
    exact hreadTime w hw
  case readWaste =>
    intro k hk
    rw [hwaste]
    exact hreadWaste k hk

/-- A step that keeps the baristas too. -/
theorem Moves.alike (hat : s.customer j = a) (halike : Alike c a b)
    (hcustomer : s'.customer = update s.customer j b) (hmain : s'.main = s.main)
    (hsem : s'.baristaSemaphores = s.baristaSemaphores) (htime : s'.waitingTime = s.waitingTime)
    (hwaste : s'.coffeeWaste = s.coffeeWaste) (hmutex : MutexMove j a b s.printMutex s'.printMutex)
    (hreadTime : ∀ w, b.readTime = some w → w = s.waitingTime)
    (hreadWaste : ∀ k, b.readWaste = some k → k = s.coffeeWaste) : Moves inp c j s s' b := by
  apply Moves.level hat halike.toLevel hcustomer hmain htime hwaste hmutex hreadTime hreadWaste
  · refine Or.inl ⟨halike.choice, ?_⟩
    intro hnone
    rw [halike.barista, hnone]
  · intro i
    rw [hsem, At.has, At.has, halike.barista]
  · intro i hi
    rw [halike.barista] at hi
    exact Or.inl hi

theorem Unread.readTime (h : Unread b) {x : Int} : ∀ w, b.readTime = some w → w = x := by
  intro w hw
  rw [h.time] at hw
  cases hw

theorem Unread.readWaste (h : Unread b) {x : Int} : ∀ k, b.readWaste = some k → k = x := by
  intro k hk
  rw [h.waste] at hk
  cases hk

/-- A step that changes only the place. -/
theorem Moves.quiet (hat : s.customer j = a) (halike : Alike c a b) (hread : Unread b)
    (hprints : b.prints = a.prints) : Moves inp c j s (s.setCustomer j b) b :=
  .alike hat halike rfl rfl rfl rfl rfl (.keep hprints rfl) hread.readTime hread.readWaste

theorem Moves.lockPrint (hat : s.customer j = a) (hs : s.lockPrint j b = some s')
    (halike : Alike c a b) (hread : Unread b) (hprints : b.prints = true) :
    Moves inp c j s s' b := by
  unfold State.lockPrint at hs
  split at hs
  · rename_i hfree
    cases hs
    exact .alike hat halike rfl rfl rfl rfl rfl (.lock hfree hprints rfl) hread.readTime
      hread.readWaste
  · cases hs

theorem Moves.unlockPrint (hat : s.customer j = a) (halike : Alike c a b) (hread : Unread b)
    (hprinted : a.prints = true) (hprints : b.prints = false) :
    Moves inp c j s (s.unlockPrint j b) b :=
  .alike hat halike rfl rfl rfl rfl rfl (.unlock hprinted hprints rfl) hread.readTime
    hread.readWaste

/-- `sem_trywait` succeeds. -/
theorem Moves.grab (hat : s.customer j = .looking i) (hi : i < inp.numBaristas)
    (hsem : 0 < s.baristaSemaphores i) :
    Moves inp c j s ((s.setBarista i (s.baristaSemaphores i - 1)).setCustomer j (.chosen i))
      (.chosen i) := by
  have hread : Unread (.chosen i) := ⟨rfl, rfl⟩
  refine .level hat ⟨rfl, Or.inl rfl, rfl, rfl⟩ rfl rfl rfl rfl (.keep rfl rfl) hread.readTime
    hread.readWaste ?_ ?_ ?_
  · exact Or.inr ⟨rfl, rfl, rfl⟩
  · intro k
    by_cases hk : k = i
    · subst hk
      simp only [State.setCustomer, State.setBarista, update_self, At.has, At.barista]
      simp
      omega
    · simp [State.setCustomer, State.setBarista, At.has, At.barista, hk, Ne.symm hk]
  · intro k hk
    cases hk
    exact Or.inr hi

/-- `sem_post` of the barista. -/
theorem Moves.release {t : Int} (hat : s.customer j = .posting i t) :
    Moves inp c j s ((s.setBarista i (s.baristaSemaphores i + 1)).setCustomer j (.done i t))
      (.done i t) := by
  have hread : Unread (.done i t) := ⟨rfl, rfl⟩
  refine .level hat ⟨rfl, Or.inl rfl, rfl, rfl⟩ rfl rfl rfl rfl (.keep rfl rfl) hread.readTime
    hread.readWaste ?_ ?_ ?_
  · exact Or.inl ⟨rfl, fun hnone => by cases hnone⟩
  · intro k
    by_cases hk : k = i
    · subst hk
      simp [State.setCustomer, State.setBarista, At.has, At.barista]
    · simp [State.setCustomer, State.setBarista, At.has, At.barista, hk, Ne.symm hk]
  · intro k hk
    cases hk

/-- A step that writes one of the sums, under `print_mutex`. -/
theorem Moves.write (hat : s.customer j = a) (hprinted : a.prints = true)
    (hprints : b.prints = true) (hcreated : a.created = true) (hread : Unread b)
    (hbarista : b.barista = a.barista) (hchoice : b.choice = a.choice)
    (hleaving : b.leaving = a.leaving) (hcustomer : s'.customer = update s.customer j b)
    (hmain : s'.main = s.main) (hsem : s'.baristaSemaphores = s.baristaSemaphores)
    (hmutex : s'.printMutex = s.printMutex)
    (hwaiting : s'.waitingTime = s.waitingTime + (b.counted c - a.counted c))
    (hwaste : s'.coffeeWaste = s.coffeeWaste + (b.wasted c - a.wasted c)) :
    Moves inp c j s s' b := by
  subst hat
  constructor
  case customer => exact hcustomer
  case main => exact hmain
  case created => exact hcreated
  case choice =>
    refine Or.inl ⟨hchoice, ?_⟩
    intro hnone
    rw [hbarista, hnone]
  case semaphore =>
    intro i
    rw [hsem, At.has, At.has, hbarista]
  case range =>
    intro i hi
    rw [hbarista] at hi
    exact Or.inl hi
  case mutex => exact .keep (hprints.trans hprinted.symm) hmutex
  case late =>
    intro t ht
    rw [hleaving] at ht
    exact Or.inl ht
  case waiting => exact hwaiting
  case waste => exact hwaste
  case locked => exact Or.inr hprinted
  case readTime => exact hread.readTime
  case readWaste => exact hread.readWaste

/-- The end of the preparation.  Only the customers who are late go to the
first branch. -/
theorem Moves.prepared (hat : s.customer j = .preparing i) (now : Int) : Moves inp c j s
      (s.setCustomer j (if c.late now then .lateLock i now else .closing i now))
      (if c.late now then .lateLock i now else .closing i now) := by
  by_cases hlate : c.late now = true
  · rw [if_pos hlate]
    constructor
    case customer => rfl
    case main => rfl
    case created => rw [hat]; rfl
    case choice =>
      rw [hat]
      exact Or.inl ⟨rfl, fun hnone => by cases hnone⟩
    case semaphore =>
      intro k
      rw [hat]
      rfl
    case range =>
      intro k hk
      rw [hat]
      exact Or.inl hk
    case mutex =>
      rw [hat]
      exact .keep rfl rfl
    case late =>
      intro t ht
      cases ht
      exact Or.inr hlate
    case waiting => rw [hat]; exact (add_zero _).symm
    case waste => rw [hat]; exact (add_zero _).symm
    case locked => exact Or.inl ⟨rfl, rfl⟩
    case readTime => exact fun w hw => by cases hw
    case readWaste => exact fun k hk => by cases hk
  · rw [if_neg hlate]
    have hlevel : Alike c (.preparing i) (.closing i now) :=
      ⟨⟨rfl, Or.inl rfl, if_neg hlate, if_neg hlate⟩, rfl, rfl⟩
    exact .quiet hat hlevel ⟨rfl, rfl⟩ rfl

/-- What a step of a customer does. -/
theorem customerStep_moves {now : Int} (h : Inv inp s) (hc : inp.customers[j]? = some c)
    (hs : customerStep inp c j now s = some s') : ∃ b, Moves inp c j s s' b := by
  unfold customerStep at hs
  split at hs
  case h_1 => cases hs
  case h_2 hat => exact ⟨_, .lockPrint hat hs ⟨⟨rfl, Or.inl rfl, rfl, rfl⟩, rfl, rfl⟩ ⟨rfl, rfl⟩ rfl⟩
  case h_3 hat =>
    cases hs
    exact ⟨_, .unlockPrint hat ⟨⟨rfl, Or.inl rfl, rfl, rfl⟩, rfl, rfl⟩ ⟨rfl, rfl⟩ rfl rfl⟩
  case h_4 i hat =>
    split at hs
    · rename_i hi
      split at hs
      · rename_i hsem
        cases hs
        exact ⟨_, .grab hat hi hsem⟩
      · cases hs
        exact ⟨_, .quiet hat ⟨⟨rfl, Or.inl rfl, rfl, rfl⟩, rfl, rfl⟩ ⟨rfl, rfl⟩ rfl⟩
    · cases hs
      exact ⟨_, .quiet hat ⟨⟨rfl, Or.inl rfl, rfl, rfl⟩, rfl, rfl⟩ ⟨rfl, rfl⟩ rfl⟩
  case h_5 i hat =>
    exact ⟨_, .lockPrint hat hs ⟨⟨rfl, Or.inl rfl, rfl, rfl⟩, rfl, rfl⟩ ⟨rfl, rfl⟩ rfl⟩
  case h_6 i hat =>
    cases hs
    exact ⟨_, .unlockPrint hat ⟨⟨rfl, Or.inl rfl, rfl, rfl⟩, rfl, rfl⟩ ⟨rfl, rfl⟩ rfl rfl⟩
  case h_7 i hat =>
    cases hs
    exact ⟨_, .prepared hat now⟩
  case h_8 i t hat =>
    exact ⟨_, .lockPrint hat hs ⟨⟨rfl, Or.inr rfl, rfl, rfl⟩, rfl, rfl⟩ ⟨rfl, rfl⟩ rfl⟩
  case h_9 i t hat =>
    cases hs
    refine ⟨.lateStore i t s.waitingTime, .alike hat ⟨⟨rfl, Or.inr rfl, rfl, rfl⟩, rfl, rfl⟩ rfl rfl
      rfl rfl rfl (.keep rfl rfl) ?_ ?_⟩
    · intro w hw
      exact (Option.some.inj hw).symm
    · intro k hk
      cases hk
  case h_10 i t w hat =>
    cases hs
    have hlate := h.late j c t hc (by rw [hat]; rfl)
    have hw := h.readTime j w (by rw [hat]; rfl)
    refine ⟨.wasteWait i t, .write hat rfl rfl rfl ⟨rfl, rfl⟩ rfl rfl rfl rfl rfl rfl rfl ?_ ?_⟩
    · show w + c.tolerance.toInt = s.waitingTime + ((if c.late t then c.tolerance.toInt else 0) - 0)
      rw [if_pos hlate, hw, sub_zero]
    · exact (add_zero _).symm
  case h_11 i t hat =>
    split at hs
    · cases hs
      have hread : Unread (.wasteLoad i t) := ⟨rfl, rfl⟩
      exact ⟨.wasteLoad i t, .alike hat ⟨⟨rfl, Or.inr rfl, rfl, rfl⟩, rfl, rfl⟩ rfl rfl rfl rfl rfl
        (.keep rfl rfl) hread.readTime hread.readWaste⟩
    · cases hs
  case h_12 i t hat =>
    cases hs
    refine ⟨.wasteStore i t s.coffeeWaste, .alike hat ⟨⟨rfl, Or.inr rfl, rfl, rfl⟩, rfl, rfl⟩ rfl rfl
      rfl rfl rfl (.keep rfl rfl) ?_ ?_⟩
    · intro w hw
      cases hw
    · intro k hk
      exact (Option.some.inj hk).symm
  case h_13 i t k hat =>
    cases hs
    have hlate := h.late j c t hc (by rw [hat]; rfl)
    have hk := h.readWaste j k (by rw [hat]; rfl)
    refine ⟨.wastePost i t, .write hat rfl rfl rfl ⟨rfl, rfl⟩ rfl rfl rfl rfl rfl rfl rfl ?_ ?_⟩
    · show s.waitingTime = s.waitingTime + (At.counted c (.wastePost i t) - At.counted c (.wastePost i t))
      rw [sub_self, add_zero]
    · show k + 1 = s.coffeeWaste + ((if c.late t then 1 else 0) - 0)
      rw [if_pos hlate, hk, sub_zero]
  case h_14 i t hat =>
    cases hs
    have hread : Unread (.lateUnlock i t) := ⟨rfl, rfl⟩
    exact ⟨.lateUnlock i t, .alike hat ⟨⟨rfl, Or.inr rfl, rfl, rfl⟩, rfl, rfl⟩ rfl rfl rfl rfl rfl
      (.keep rfl rfl) hread.readTime hread.readWaste⟩
  case h_15 i t hat =>
    cases hs
    exact ⟨_, .unlockPrint hat ⟨⟨rfl, Or.inl rfl, rfl, rfl⟩, rfl, rfl⟩ ⟨rfl, rfl⟩ rfl rfl⟩
  case h_16 i t hat =>
    exact ⟨_, .lockPrint hat hs ⟨⟨rfl, Or.inl rfl, rfl, rfl⟩, rfl, rfl⟩ ⟨rfl, rfl⟩ rfl⟩
  case h_17 i t hat =>
    cases hs
    refine ⟨.closeStore i t s.waitingTime, .alike hat ⟨⟨rfl, Or.inl rfl, rfl, rfl⟩, rfl, rfl⟩ rfl rfl
      rfl rfl rfl (.keep rfl rfl) ?_ ?_⟩
    · intro w hw
      exact (Option.some.inj hw).symm
    · intro k hk
      cases hk
  case h_18 i t w hat =>
    cases hs
    have hw := h.readTime j w (by rw [hat]; rfl)
    refine ⟨.closeUnlock i t, .write hat rfl rfl rfl ⟨rfl, rfl⟩ rfl rfl rfl rfl rfl rfl rfl ?_ ?_⟩
    · show w + c.waited t = s.waitingTime + (_ + c.waited t - _)
      rw [hw, At.counted, add_sub_cancel_left]
    · show s.coffeeWaste = s.coffeeWaste + (At.wasted c (.closeStore i t w) -
        At.wasted c (.closeStore i t w))
      rw [sub_self, add_zero]
  case h_19 i t hat =>
    cases hs
    exact ⟨_, .unlockPrint hat ⟨⟨rfl, Or.inl rfl, rfl, rfl⟩, rfl, rfl⟩ ⟨rfl, rfl⟩ rfl rfl⟩
  case h_20 i t hat =>
    cases hs
    exact ⟨_, .release hat⟩
  case h_21 => cases hs

/-! ## The steps of `main` -/

/-- Two places that say the same. -/
structure Same (a b : At) : Prop where
  barista : b.barista = a.barista
  choice : b.choice = a.choice
  prints : b.prints = a.prints
  leaving : b.leaving = a.leaving
  counted : ∀ c, b.counted c = a.counted c
  wasted : ∀ c, b.wasted c = a.wasted c
  readTime : b.readTime = a.readTime
  readWaste : b.readWaste = a.readWaste

theorem Same.refl (a : At) : Same a a := ⟨rfl, rfl, rfl, rfl, fun _ => rfl, fun _ => rfl, rfl, rfl⟩

theorem sumOver_congr {f : Customer → At → Int}
    (h : ∀ j c, f c (s'.customer j) = f c (s.customer j)) : sumOver inp f s' = sumOver inp f s := by
  refine Finset.sum_congr rfl ?_
  intro j _
  simp only [h]

theorem holders_congr (h : ∀ j, Same (s.customer j) (s'.customer j)) :
    holders inp s' = holders inp s := by
  refine total_congr ?_
  intro j _
  funext i
  rw [At.has, At.has, (h j).barista]

/-- What a step of `main` has to meet. -/
theorem Inv.mainMove (h : Inv inp s) (hsame : ∀ j, Same (s.customer j) (s'.customer j))
    (hmutex : s'.printMutex = s.printMutex) (htime : s'.waitingTime = s.waitingTime)
    (hwaste : s'.coffeeWaste = s.coffeeWaste) (hyes : admitted inp = true)
    (hclosed : ∀ j, s'.main.unborn j = true → s'.customer j = .absent)
    (hsem : ∀ i < inp.numBaristas, s'.main.ready i = true →
      s'.baristaSemaphores i + holders inp s i = 1) : Inv inp s' where
  closed := hclosed
  refused := by
    intro hno
    rw [hyes] at hno
    cases hno
  semaphore := by
    intro _ i hi hready
    rw [holders_congr hsame]
    exact hsem i hi hready
  range := by
    intro j i hj
    rw [(hsame j).choice] at hj
    exact h.range j i hj
  mutex := by
    intro j
    rw [(hsame j).prints, hmutex]
    exact h.mutex j
  late := by
    intro j c t hc ht
    rw [(hsame j).leaving] at ht
    exact h.late j c t hc ht
  waiting := by
    rw [htime, h.waiting, sumOver_congr (fun j c => (hsame j).counted c)]
  waste := by
    rw [hwaste, h.waste, sumOver_congr (fun j c => (hsame j).wasted c)]
  readTime := by
    intro j w hw
    rw [(hsame j).readTime] at hw
    rw [htime]
    exact h.readTime j w hw
  readWaste := by
    intro j k hk
    rw [(hsame j).readWaste] at hk
    rw [hwaste]
    exact h.readWaste j k hk

theorem inv_start (inp : Input) : Inv inp (start inp) where
  closed := fun _ _ => rfl
  refused := fun _ => rfl
  semaphore := by
    intro hyes i _ hready
    rw [start, if_pos hyes] at hready
    simp [MainAt.ready] at hready
  range := fun _ _ h => by cases h
  mutex := by
    intro j
    simp [start, At.prints]
  late := fun _ _ _ _ h => by cases h
  waiting := by
    refine (Finset.sum_eq_zero ?_).symm
    intro j _
    cases inp.customers[j]? <;> rfl
  waste := by
    refine (Finset.sum_eq_zero ?_).symm
    intro j _
    cases inp.customers[j]? <;> rfl
  readTime := fun _ _ h => by cases h
  readWaste := fun _ _ h => by cases h

/-- Nobody has a barista before `main` creates the threads. -/
theorem Inv.holders_zero (h : Inv inp s) (hunborn : ∀ j, s.main.unborn j = true) :
    holders inp s = 0 := by
  refine total_zero ?_
  intro j _
  funext i
  rw [h.closed j (hunborn j)]
  rfl

theorem mainStep_inv (h : Inv inp s) (hs : mainStep inp s = some s') : Inv inp s' := by
  have hyes : admitted inp = true := by
    by_contra hno
    have hstart := h.refused (by simpa using hno)
    rw [hstart, mainStep, start, if_neg hno] at hs
    cases hs
  unfold mainStep at hs
  split at hs
  case h_1 i hat =>
    have hunborn : ∀ j, s.main.unborn j = true := fun j => by rw [hat]; rfl
    split at hs
    · cases hs
      refine h.mainMove (fun j => .refl _) rfl rfl rfl hyes (fun j _ => h.closed j (hunborn j)) ?_
      intro l hl hready
      show update s.baristaSemaphores i 1 l + _ = 1
      by_cases hli : l = i
      · rw [hli, update_self, h.holders_zero hunborn]
        rfl
      · rw [update_of_ne hli]
        refine h.semaphore hyes l hl ?_
        rw [hat]
        simp only [MainAt.ready, decide_eq_true_eq] at hready ⊢
        omega
    · rename_i hi
      cases hs
      refine h.mainMove (fun j => .refl _) rfl rfl rfl hyes (fun j _ => h.closed j (hunborn j)) ?_
      intro l hl _
      refine h.semaphore hyes l hl ?_
      rw [hat]
      simp only [MainAt.ready, decide_eq_true_eq]
      omega
  case h_2 hat =>
    have hunborn : ∀ j, s.main.unborn j = true := fun j => by rw [hat]; rfl
    cases hs
    refine h.mainMove (fun j => .refl _) rfl rfl rfl hyes (fun j _ => h.closed j (hunborn j)) ?_
    intro l hl _
    exact h.semaphore hyes l hl (by rw [hat]; rfl)
  case h_3 j hat =>
    have hready : ∀ l < inp.numBaristas, s.baristaSemaphores l + holders inp s l = 1 :=
      fun l hl => h.semaphore hyes l hl (by rw [hat]; rfl)
    split at hs
    · cases hs
      have habsent : s.customer j = .absent := h.closed j (by rw [hat]; simp [MainAt.unborn])
      refine h.mainMove ?_ rfl rfl rfl hyes ?_ (fun l hl _ => hready l hl)
      · intro k
        show Same (s.customer k) (update s.customer j .arriving k)
        by_cases hk : k = j
        · rw [hk, update_self, habsent]
          exact ⟨rfl, rfl, rfl, rfl, fun _ => rfl, fun _ => rfl, rfl, rfl⟩
        · rw [update_of_ne hk]
          exact .refl _
      · intro k hk
        simp only [MainAt.unborn, decide_eq_true_eq] at hk
        show update s.customer j .arriving k = .absent
        rw [update_of_ne (by omega)]
        refine h.closed k ?_
        rw [hat]
        simp only [MainAt.unborn, decide_eq_true_eq]
        omega
    · cases hs
      refine h.mainMove (fun j => .refl _) rfl rfl rfl hyes ?_ (fun l hl _ => hready l hl)
      intro k hk
      cases hk
  case h_4 j hat =>
    have hready : ∀ l < inp.numBaristas, s.baristaSemaphores l + holders inp s l = 1 :=
      fun l hl => h.semaphore hyes l hl (by rw [hat]; rfl)
    split at hs
    · split at hs
      · cases hs
        refine h.mainMove (fun j => .refl _) rfl rfl rfl hyes ?_ (fun l hl _ => hready l hl)
        intro k hk
        cases hk
      · cases hs
    · cases hs
      refine h.mainMove (fun j => .refl _) rfl rfl rfl hyes ?_ (fun l hl _ => hready l hl)
      intro k hk
      cases hk
  case h_5 => cases hs

/-- A step of the program keeps the invariant. -/
theorem next_inv {a : Action} (h : Inv inp s) (hs : next inp s a = some s') : Inv inp s' := by
  cases a with
  | main => exact mainStep_inv h hs
  | customer j now =>
    obtain ⟨c, hc, hs⟩ := Option.bind_eq_some_iff.mp hs
    obtain ⟨b, hm⟩ := customerStep_moves h hc hs
    exact h.move hc hm

theorem Reachable.inv (h : Reachable inp s) : Inv inp s := by
  refine ReachWhen.invariant (I := Inv inp) ?_ ?_ h
  · intro s hs
    rw [← hs]
    exact inv_start inp
  · intro s a s' hs _ hnext
    exact next_inv hs hnext

end Xv6.Cafe
