import Xv6.Memory.Steps

/-!
# Processes that share nothing

The machine that the copy-on-write kernel stands for.  Every process has
pages of its own, and `fork` copies them all at once.  There is no physical
memory, so there are no counts and no faults that allocate: an access works
on the byte at its address, and `copyin` and `copyout` are sequences of
loads and stores.

`Tasks.step` is one step.  It covers `fork`, loads, stores, `copyin`,
`copyout`, `sbrk`, `exit` and `wait`.
-/

namespace Xv6.Memory

open Function

/-! ## Address spaces -/

/-- A page of a process. -/
structure UserPage where
  user : Bool
  writable : Bool
  bytes : Page

/-- The pages of a process. -/
abbrev Space := Nat → Option UserPage

namespace Space

/-- The page of an address, if the process may read it. -/
def page (s : Space) (va : Nat) : Option Page :=
  match s (va / PGSIZE) with
  | none => none
  | some g => if g.user then some g.bytes else none

/-- The byte at an address. -/
def load (s : Space) (va : Nat) : Option UInt8 := (s.page va).map (byteAt · va)

/-- Set the byte at an address. -/
def store (s : Space) (va : Nat) (b : UInt8) : Option Space :=
  match s (va / PGSIZE) with
  | none => none
  | some g =>
      if g.user && g.writable then
        some (update s (va / PGSIZE)
          (some { g with bytes := update g.bytes (Fin.ofNat PGSIZE va) b }))
      else none

/-- The `n` bytes from an address, unless one of them cannot be read. -/
def loads (s : Space) : Nat → Nat → Option (List UInt8)
  | _, 0 => some []
  | va, n + 1 => do
      let b ← s.load va
      let rest ← s.loads (va + 1) n
      some (b :: rest)

/-- Set the bytes from an address, up to the first one that cannot be
written. -/
def stores : Nat → List UInt8 → Space → Bool × Space
  | _, [], s => (true, s)
  | va, b :: rest, s =>
      match s.store va b with
      | none => (false, s)
      | some s => stores (va + 1) rest s

/-- Add the pages from `n` on below `n'`. -/
def grow (n n' : Nat) (s : Space) : Space :=
  fun v => if n ≤ v ∧ v < n' then some ⟨true, true, zeroPage⟩ else s v

/-- Drop the pages from `n` on. -/
def shrink (n : Nat) (s : Space) : Space := fun v => if n ≤ v then none else s v

end Space

/-! ## Processes -/

/-- A process. -/
structure Task where
  space : Space
  sz : Nat
  parent : Nat
  zombie : Bool
  xstate : UInt32

/-- The processes, by slot. -/
abbrev Tasks := Nat → Option Task

/-- `sbrk(n)`. -/
def Task.sbrk (n : Int) (T : Task) : Task :=
  if n > 0 then
    { T with
      space := T.space.grow (pages T.sz) (pages (addSize T.sz n))
      sz := addSize T.sz n }
  else if n < 0 then
    { T with
      space := T.space.shrink (pages (addSize T.sz n))
      sz := min T.sz (addSize T.sz n) }
  else T

namespace Tasks

/-- The first slot without a process. -/
def freeSlot (ts : Tasks) : Option Nat :=
  (List.range NPROC).find? (fun i => (ts i).isNone)

/-- The first zombie child of `p`. -/
def zombieChild (p : Nat) (ts : Tasks) : Option Nat :=
  (List.range NPROC).find? (fun i => (ts i).any (fun T => T.parent = p ∧ T.zombie = true))

/-- The children of `p` become those of `initproc`. -/
def reparent (p : Nat) (ts : Tasks) : Tasks :=
  fun i => (ts i).map (fun T => if T.parent = p then { T with parent := 0 } else T)

/-- Store a process. -/
def set (p : Nat) (T : Option Task) (ts : Tasks) : Tasks := update ts p T

/-- `exit(status)`.  The result is `none` for `initproc`. -/
def exit (p : Nat) (T : Task) (status : UInt32) (ts : Tasks) : Option Tasks :=
  if p = 0 then none
  else some ((ts.reparent p).set p (some { T with zombie := true, xstate := status }))

/-- `wait(addr)`. -/
def wait (p : Nat) (T : Task) (addr : Nat) (ts : Tasks) : Reply × Tasks :=
  match ts.zombieChild p with
  | none => (.fail, ts)
  | some i =>
      match ts i with
      | none => (.fail, ts)
      | some C =>
          match T.space.stores addr (statusBytes addr C.xstate) with
          | (true, s) => (.done, (ts.set p (some { T with space := s })).set i none)
          | (false, s) => (.fail, ts.set p (some { T with space := s }))

/-- A call of the process `T` in slot `p`. -/
def call (p : Nat) (T : Task) (ts : Tasks) : Call → Option (Reply × Tasks)
  | .fork =>
      match ts.freeSlot with
      | none => some (.fail, ts)
      | some i =>
          some (.done, ts.set i (some { T with parent := p, zombie := false, xstate := 0 }))
  | .sbrk n => some (.done, ts.set p (some (T.sbrk n.toInt)))
  | .load va =>
      match T.space.load va with
      | some b => some (.data [b], ts)
      | none => (ts.exit p T 0xFFFFFFFF).map (.fail, ·)
  | .store va b =>
      match T.space.store va b with
      | some s => some (.done, ts.set p (some { T with space := s }))
      | none => (ts.exit p T 0xFFFFFFFF).map (.fail, ·)
  | .copyin va len => some ((T.space.loads va len).elim .fail .data, ts)
  | .copyout va src =>
      let (r, s) := T.space.stores va src
      some (if r then .done else .fail, ts.set p (some { T with space := s }))
  | .exit status => (ts.exit p T status).map (.done, ·)
  | .wait addr => some (ts.wait p T addr)
  | _ => none

/-- A step. -/
def step (ts : Tasks) (a : Action) : Option (Reply × Tasks) :=
  match ts a.slot with
  | none => some (.fail, ts)
  | some T => if T.zombie then some (.fail, ts) else ts.call a.slot T a.call

end Tasks

/-! ## Whole chunks -/

section Chunk

variable {s : Space} {v va : Nat}

/-- The bytes of one page. -/
theorem Space.loads_chunk {page : Page} (hpage : s.page (v * PGSIZE) = some page) (k : Nat) :
    ∀ (n off : Nat), off + n ≤ PGSIZE →
      s.loads (v * PGSIZE + off) (n + k) =
        (s.loads (v * PGSIZE + off + n) k).map (slice page off n ++ ·) := by
  intro n
  induction n with
  | zero =>
    intro off _
    rw [Nat.zero_add]
    simp [slice]
  | succ n ih =>
    intro off hoff
    have hsame : s.page (v * PGSIZE + off) = s.page (v * PGSIZE) := by
      have hdiv : (v * PGSIZE + off) / PGSIZE = v * PGSIZE / PGSIZE := by
        unfold PGSIZE at *
        omega
      unfold Space.page
      rw [hdiv]
    have hbyte : byteAt page (v * PGSIZE + off) = page (Fin.ofNat PGSIZE off) := by
      unfold byteAt
      congr 1
      apply Fin.ext
      simp [Fin.ofNat]
    have hload : s.load (v * PGSIZE + off) = some (page (Fin.ofNat PGSIZE off)) := by
      rw [load, hsame, hpage, Option.map_some, hbyte]
    have hslice : slice page off (n + 1) =
        page (Fin.ofNat PGSIZE off) :: slice page (off + 1) n := by
      rw [slice, List.range_succ_eq_map, List.map_cons, List.map_map, slice]
      congr 1
      refine List.map_congr_left ?_
      intro i _
      show page (Fin.ofNat PGSIZE (off + (i + 1))) = _
      rw [show off + (i + 1) = off + 1 + i by omega]
    have hnext := ih (off + 1) (by omega)
    rw [show v * PGSIZE + (off + 1) = v * PGSIZE + off + 1 by omega] at hnext
    rw [show n + 1 + k = (n + k) + 1 by omega, loads, hload, hnext,
      show v * PGSIZE + off + 1 + n = v * PGSIZE + off + (n + 1) by omega, hslice]
    cases s.loads (v * PGSIZE + off + (n + 1)) k <;> rfl

/-- A byte, and then the bytes after it. -/
theorem patch_cons (page : Page) {off : Nat} (hoff : off < PGSIZE) (b : UInt8)
    (rest : List UInt8) :
    patch (update page (Fin.ofNat PGSIZE off) b) (off + 1) rest =
      patch page off (b :: rest) := by
  funext i
  have hval : (Fin.ofNat PGSIZE off).val = off := Nat.mod_eq_of_lt hoff
  unfold patch
  by_cases hi : i.val = off
  · have hfin : i = Fin.ofNat PGSIZE off := Fin.ext (by rw [hval, hi])
    rw [if_neg (by omega), if_pos (by omega), hfin, update_self, hval, Nat.sub_self]
    rfl
  · have hne : i ≠ Fin.ofNat PGSIZE off := fun heq => hi (by rw [heq, hval])
    rw [update_of_ne hne]
    by_cases hlt : off + 1 ≤ i.val
    · rw [if_pos hlt, if_pos (by omega), show i.val - off = (i.val - (off + 1)) + 1 by omega]
      rfl
    · rw [if_neg hlt, if_neg (by omega)]

@[simp] theorem patch_nil (page : Page) (off : Nat) : patch page off [] = page := by
  funext i
  simp [patch]

theorem Space.store_eq {page : Page} (va : Nat)
    (hs : s (va / PGSIZE) = some ⟨true, true, page⟩) (b : UInt8) :
    s.store va b =
      some (update s (va / PGSIZE) (some ⟨true, true, patch page (va % PGSIZE) [b]⟩)) := by
  have hfin : Fin.ofNat PGSIZE (va % PGSIZE) = Fin.ofNat PGSIZE va := by
    apply Fin.ext
    simp [Fin.ofNat]
  rw [store, hs, ← patch_cons page (Nat.mod_lt va (by decide)), patch_nil, hfin]
  rfl

theorem Space.stores_cons {s' : Space} {b : UInt8} (h : s.store va b = some s')
    (rest : List UInt8) : stores va (b :: rest) s = stores (va + 1) rest s' := by
  rw [stores, h]

/-- The bytes that go to one page. -/
theorem Space.stores_chunk (rest : List UInt8) :
    ∀ (src : List UInt8) (s : Space) (page : Page) (off : Nat), off + src.length ≤ PGSIZE →
      s v = some ⟨true, true, page⟩ →
      stores (v * PGSIZE + off) (src ++ rest) s =
        stores (v * PGSIZE + off + src.length) rest
          (update s v (some ⟨true, true, patch page off src⟩)) := by
  intro src
  induction src with
  | nil =>
    intro s page off _ hs
    rw [patch_nil, ← hs, update_eq_self, List.nil_append, List.length_nil, Nat.add_zero]
  | cons b src ih =>
    intro s page off hoff hs
    rw [List.length_cons] at hoff
    have hdiv : (v * PGSIZE + off) / PGSIZE = v := by
      unfold PGSIZE at *
      omega
    have hmod : (v * PGSIZE + off) % PGSIZE = off := by
      unfold PGSIZE at *
      omega
    have hstore := store_eq (s := s) (v * PGSIZE + off) (by rw [hdiv]; exact hs) b
    rw [hdiv, hmod] at hstore
    have hone : patch (patch page off [b]) (off + 1) src = patch page off (b :: src) := by
      rw [← patch_cons page (by omega) b [], patch_nil, patch_cons page (by omega)]
    have hnext := ih (update s v (some ⟨true, true, patch page off [b]⟩))
      (patch page off [b]) (off + 1) (by omega) (update_self _ _ _)
    rw [hone, update_idem,
      show v * PGSIZE + (off + 1) = v * PGSIZE + off + 1 by omega] at hnext
    rw [List.cons_append, stores_cons hstore, hnext, List.length_cons,
      show v * PGSIZE + off + (src.length + 1) = v * PGSIZE + off + 1 + src.length by omega]

end Chunk

end Xv6.Memory
