import Xv6.Lib.Ring
import Xv6.Pipes.Model

/-!
# A pipe is a queue

The history of a pipe has the bytes that the writers stored, and the bytes
that each `piperead` copied out, one entry for each call in the order in
which the calls begin to copy.  A call copies with `pi->lock` held, so its
bytes come one after the other.

`Sound` is the invariant: the bytes stored are those delivered, then the one
in the hand of the reader, then those between `nread` and `nwrite`.  The
counters wrap modulo `2 ^ 32` and the ring does not notice (`Lib.Ring`).

`piperead` advances `nread` before it calls `copyout`.  If that fails, the
byte is lost.  So all of this holds in the runs in which every `copyout` of
`piperead` succeeds, and fails with the first one that does not.
-/

namespace Xv6.Pipes

open Xv6.Lib Function

variable {s s' : Sys} {c : Caller} {l : Step}

/-! ## The history -/

/-- What has gone into the pipe and out of it. -/
structure History where
  /-- The bytes that the writers stored. -/
  stored : List UInt8
  /-- The calls of `piperead` that have begun to copy, the last one first,
  with the bytes that they copied out. -/
  calls : List (Caller × List UInt8)

/-- Add a byte to the last call of process `c`. -/
def addByte (c : Caller) (ch : UInt8) : List (Caller × List UInt8) → List (Caller × List UInt8)
  | [] => []
  | (c', bytes) :: rest =>
      if c' = c then (c', bytes ++ [ch]) :: rest else (c', bytes) :: addByte c ch rest

/-- The history after a step. -/
def History.record (h : History) (s : Sys) (l : Step) (s' : Sys) : History :=
  match l with
  | .go c e =>
      match s.pc c, s'.pc c with
      | .writeLoop _ _, .writeLoop _ _ => { h with stored := h.stored ++ e.copyin.toList }
      | .readWait _, .readCopy _ _ => { h with calls := (c, []) :: h.calls }
      | .readOut _ _ ch, .readCopy _ _ => { h with calls := addByte c ch h.calls }
      | _, _ => h
  | _ => h

/-- The bytes copied to the readers, in the order of their calls. -/
def History.delivered (h : History) : List UInt8 := h.calls.reverse.flatMap Prod.snd

def History.start : History := ⟨[], []⟩

/-- The byte between `nread` and the reader. -/
def Sys.hand (s : Sys) : List UInt8 :=
  match s.lock with
  | some c => (s.pc c).hand
  | none => []

/-- The bytes between `nread` and `nwrite`. -/
def Pipe.unread (pi : Pipe) : List UInt8 :=
  (List.range (pi.nwrite - pi.nread).toNat).map
    (fun k => pi.data ((pi.nread + UInt32.ofNat k).toNat % PIPESIZE))

/-- A `copyout` of `piperead` does not fail in the step. -/
def CopiesOut (s : Sys) : Step → Prop
  | .go c e => (s.pc c).hand = [] ∨ e.copyout = true
  | _ => True

instance (s : Sys) : ∀ l, Decidable (CopiesOut s l)
  | .go _ _ => inferInstanceAs (Decidable (_ ∨ _))
  | .write _ _ | .read _ _ | .kill _ | .close _ => inferInstanceAs (Decidable True)

variable {h : History}

theorem delivered_start (h : History) (c : Caller) :
    History.delivered { h with calls := (c, []) :: h.calls } = h.delivered := by
  simp [History.delivered]

/-- The bytes of the call that copies come last. -/
theorem delivered_addByte {bytes : List UInt8} {rest : List (Caller × List UInt8)} {ch : UInt8}
    (hcalls : h.calls = (c, bytes) :: rest) :
    History.delivered { h with calls := addByte c ch h.calls } = h.delivered ++ [ch] := by
  simp [History.delivered, hcalls, addByte]

theorem record_outside (hl : ∀ c e, l ≠ .go c e) : h.record s l s' = h := by
  cases l with
  | go c e => exact absurd rfl (hl c e)
  | write | read | kill | close => rfl

/-- Outside the lock nothing is recorded. -/
theorem record_before {e : Env} (hpc : (s.pc c).holds = false) : h.record s (.go c e) s' = h := by
  simp only [History.record]
  cases hp : s.pc c <;> first | rfl | (rw [hp] at hpc; cases hpc)

theorem record_after {e : Env} (hpc : (s'.pc c).holds = false) : h.record s (.go c e) s' = h := by
  simp only [History.record]
  cases hp : s'.pc c <;> first | (rw [hp] at hpc; cases hpc; done) | (cases s.pc c <;> rfl)

theorem record_leave {e : Env} {i : Int32} (hp : s'.pc c = .writeDone i ∨ s'.pc c = .readDone i) :
    h.record s (.go c e) s' = h := by
  simp only [History.record]
  rcases hp with hp | hp <;> rw [hp] <;> cases s.pc c <;> rfl

/-! ## The invariant -/

/-- The counters and the cells of the pipe hold the list. -/
structure Holding (pi : Pipe) (xs : List UInt8) : Prop where
  ring : ∃ r, Ring PIPESIZE pi.data r xs ∧ pi.nread.toNat = r % 2 ^ 32 ∧
    pi.nwrite.toNat = (r + xs.length) % 2 ^ 32

structure Sound (s : Sys) (h : History) : Prop where
  locked : ∀ c, (s.pc c).holds = true → s.lock = some c
  turn : ∀ c, (s.pc c).copies = true → ∃ bytes rest, h.calls = (c, bytes) :: rest
  queue : ∃ xs, Holding s.pipe xs ∧ h.stored = h.delivered ++ s.hand ++ xs

namespace Holding

variable {pi : Pipe} {xs : List UInt8} {ch : UInt8}

theorem put (hx : Holding pi xs) (hroom : pi.full = false) : Holding (pi.put ch) (xs ++ [ch]) := by
  obtain ⟨r, hring, hread, hwrite⟩ := hx.ring
  have hbound := hring.bound
  have hlt : xs.length < PIPESIZE := by
    refine Nat.lt_of_le_of_ne hbound ?_
    intro hfull
    refine Bool.eq_false_iff.mp hroom (decide_eq_true ?_)
    rw [← UInt32.toNat_inj, UInt32.toNat_add, hread, hwrite, hfull]
    simp
  refine ⟨r, ?_, hread, ?_⟩
  · have hpush := hring.push (a := ch) hlt
    rw [show (r + xs.length) % PIPESIZE = pi.nwrite.toNat % PIPESIZE by
      rw [hwrite, Nat.mod_mod_of_dvd _ (by decide)]] at hpush
    exact hpush
  · show (pi.nwrite + 1).toNat = _
    rw [UInt32.toNat_add, hwrite, List.length_append]
    simp [Nat.add_assoc]

theorem drop (hx : Holding pi xs) (hsome : pi.empty = false) :
    ∃ rest, xs = pi.head :: rest ∧ Holding pi.drop rest := by
  obtain ⟨r, hring, hread, hwrite⟩ := hx.ring
  cases xs with
  | nil =>
    refine absurd (decide_eq_true ?_) (Bool.eq_false_iff.mp hsome)
    rw [← UInt32.toNat_inj, hread, hwrite]
    rfl
  | cons a rest =>
    obtain ⟨ha, hrest⟩ := hring.pop
    refine ⟨rest, ?_, r + 1, hrest, ?_, ?_⟩
    · rw [Pipe.head, hread, Nat.mod_mod_of_dvd _ (by decide), ha]
    · show (pi.nread + 1).toNat = _
      rw [UInt32.toNat_add, hread]
      simp
    · rw [show pi.drop.nwrite = pi.nwrite from rfl, hwrite, List.length_cons]
      congr 1
      omega

/-- The distance of the counters. -/
theorem length (hx : Holding pi xs) : (pi.nwrite - pi.nread).toNat = xs.length := by
  obtain ⟨r, hring, hread, hwrite⟩ := hx.ring
  have hbound := hring.bound
  rw [UInt32.toNat_sub, hread, hwrite]
  simp only [PIPESIZE] at hbound
  omega

theorem unread (hx : Holding pi xs) : pi.unread = xs := by
  obtain ⟨r, hring, hread, hwrite⟩ := hx.ring
  have hlen := hx.length
  rw [Pipe.unread, hlen]
  refine Eq.trans ?_ hring.eq_map.symm
  refine List.map_congr_left (fun k hk => ?_)
  have hk' : k < PIPESIZE := Nat.lt_of_lt_of_le (List.mem_range.mp hk) hring.bound
  simp only [PIPESIZE] at hk'
  congr 1
  rw [UInt32.toNat_add, hread, UInt32.toNat_ofNat']
  simp only [PIPESIZE]
  omega

end Holding

/-! ## The step -/

theorem Pc.hand_of_not_copies {p : Pc} (hp : p.copies = false) : p.hand = [] := by
  cases p <;> first | rfl | cases hp

theorem Pc.not_copies {p : Pc} (hp : p.holds = false) : p.copies = false := by
  cases p <;> first | rfl | cases hp

/-- The byte in the hand of the process that holds the lock. -/
theorem hand_eq (hlock : s.lock = some c) : s.hand = (s.pc c).hand := by
  rw [Sys.hand, hlock]

/-- The process that makes the step moves with the lock in its hand, and the
others do nothing. -/
theorem Sound.of_holder {pi : Pipe} {p : Pc} {h' : History} (hs : Sound s h)
    (hlock : s.lock = some c)
    (hturn : p.copies = true → ∃ bytes rest, h'.calls = (c, bytes) :: rest)
    (hqueue : ∃ xs, Holding pi xs ∧ h'.stored = h'.delivered ++ p.hand ++ xs) :
    Sound ({ s with pipe := pi }.setPc c p) h' := by
  have hother : ∀ c', c' ≠ c → ({ s with pipe := pi }.setPc c p).pc c' = s.pc c' :=
    fun c' hc => update_of_ne hc _ _
  have hself : ({ s with pipe := pi }.setPc c p).pc c = p := update_self _ _ _
  -- nobody else is inside
  have hout : ∀ c', c' ≠ c → (s.pc c').holds = false := by
    intro c' hc
    by_contra hheld
    have hmine := hs.locked c' (by simpa using hheld)
    rw [hlock, Option.some.injEq] at hmine
    exact hc hmine.symm
  refine ⟨?_, ?_, ?_⟩
  · intro c' hheld
    by_cases hc : c' = c
    · rw [hc]
      exact hlock
    · rw [hother c' hc, hout c' hc] at hheld
      cases hheld
  · intro c' hcopies
    by_cases hc : c' = c
    · rw [hc] at hcopies ⊢
      rw [hself] at hcopies
      exact hturn hcopies
    · rw [hother c' hc, Pc.not_copies (hout c' hc)] at hcopies
      cases hcopies
  · rw [hand_eq (c := c) (show ({ s with pipe := pi }.setPc c p).lock = some c from hlock), hself]
    exact hqueue

/-- A step in which nobody inside the lock moves, except that `c` may come
in or go out. -/
theorem Sound.of_others {C : Caller → Prop} (hs : Sound s h) (hdata : s'.pipe.data = s.pipe.data)
    (hread : s'.pipe.nread = s.pipe.nread) (hwrite : s'.pipe.nwrite = s.pipe.nwrite)
    (hlocked : ∀ c, (s'.pc c).holds = true → s'.lock = some c)
    (hother : Elsewhere s s' C) (hC : ∀ c, C c → (s'.pc c).copies = false)
    (hhand : s'.hand = s.hand) : Sound s' h := by
  refine ⟨hlocked, ?_, ?_⟩
  · intro c hcopies
    by_cases hc : C c
    · rw [hC c hc] at hcopies
      cases hcopies
    · rcases hother c hc with hsame | ⟨_, hout⟩
      · exact hs.turn c (hsame ▸ hcopies)
      · rw [Pc.not_copies hout] at hcopies
        cases hcopies
  · obtain ⟨xs, ⟨r, hring, hr, hw⟩, hstored⟩ := hs.queue
    exact ⟨xs, ⟨r, hdata ▸ hring, hread ▸ hr, hwrite ▸ hw⟩, hhand ▸ hstored⟩

theorem Sound.step (hs : Sound s h) (hok : CopiesOut s l) (hr : Rule s l s') :
    Sound s' (h.record s l s') := by
  have hself : ∀ (t : Sys) c p, (t.setPc c p).pc c = p := fun t c p => update_self _ _ _
  obtain ⟨xs, hx, hstored⟩ := hs.queue
  cases hr with
  | outside hl hdata hread hwrite hlock hpc =>
    rw [record_outside hl]
    refine hs.of_others hdata hread hwrite ?_ hpc (fun _ => False.elim) ?_
    · intro c hheld
      rcases hpc c not_false with hsame | ⟨_, hout⟩
      · rw [hlock]
        exact hs.locked c (hsame ▸ hheld)
      · rw [hout] at hheld
        cases hheld
    · unfold Sys.hand
      rw [hlock]
      split
      · rename_i c _
        rcases hpc c not_false with hsame | ⟨hout, hout'⟩
        · rw [hsame]
        · rw [Pc.hand_of_not_copies (Pc.not_copies hout),
            Pc.hand_of_not_copies (Pc.not_copies hout')]
      · rfl
  | @acquire c e p hlock hpc hp =>
    rw [record_before hpc]
    refine hs.of_others (C := (· = c)) rfl rfl rfl ?_
      (fun c' hc => Or.inl (update_of_ne hc _ _)) ?_ ?_
    · intro c' hheld
      by_cases hc : c' = c
      · rw [hc]
        rfl
      · rw [show (Sys.setPc { s with lock := some c } c p).pc c' = s.pc c' from
          update_of_ne hc _ _] at hheld
        have hmine := hs.locked c' hheld
        rw [hlock] at hmine
        cases hmine
    · rintro c' rfl
      rw [hself]
      exact hp
    · rw [hand_eq (c := c) rfl, hself, Pc.hand_of_not_copies hp, Sys.hand, hlock]
  | @release c e s' hpc hcopies hpipe hlock hother hpc' =>
    rw [record_after hpc']
    have hmine := hs.locked c hpc
    refine hs.of_others (C := (· = c)) (by rw [hpipe]) (by rw [hpipe]) (by rw [hpipe]) ?_ hother ?_ ?_
    · intro c' hheld
      by_cases hc : c' = c
      · rw [hc, hpc'] at hheld
        cases hheld
      · rcases hother c' hc with hsame | ⟨_, hout⟩
        · have htheirs := hs.locked c' (hsame ▸ hheld)
          rw [hmine, Option.some.injEq] at htheirs
          exact absurd htheirs.symm hc
        · rw [hout] at hheld
          cases hheld
    · rintro c' rfl
      exact Pc.not_copies hpc'
    · rw [hand_eq hmine, Pc.hand_of_not_copies hcopies, Sys.hand, hlock]
  | @leave c e i p hpc hhand hp =>
    rw [record_leave (i := i) (by rw [hself]; exact hp)]
    have hlock := hs.locked c hpc
    rw [hand_eq hlock, hhand] at hstored
    refine hs.of_holder hlock ?_ ⟨xs, hx, ?_⟩
    · rcases hp with rfl | rfl <;> exact nofun
    · rcases hp with rfl | rfl <;> exact hstored
  | @put c e n i ch hpc hroom hch =>
    have hlock := hs.locked c (by rw [hpc]; rfl)
    rw [hand_eq hlock, hpc] at hstored
    have hrec : h.record s (.go c e)
        ({ s with pipe := s.pipe.put ch }.setPc c (.writeLoop n (i + 1))) =
        { h with stored := h.stored ++ [ch] } := by
      simp only [History.record, hpc, hself, hch]
      rfl
    rw [hrec]
    refine hs.of_holder hlock nofun ⟨xs ++ [ch], hx.put hroom, ?_⟩
    show h.stored ++ [ch] = h.delivered ++ [] ++ (xs ++ [ch])
    rw [hstored]
    simp [Pc.hand]
  | @start c e n hpc =>
    have hlock := hs.locked c (by rw [hpc]; rfl)
    rw [hand_eq hlock, hpc] at hstored
    have hrec : h.record s (.go c e) (s.setPc c (.readCopy n 0)) =
        { h with calls := (c, []) :: h.calls } := by
      simp only [History.record, hpc, hself]
    rw [hrec]
    refine hs.of_holder hlock (fun _ => ⟨_, _, rfl⟩) ⟨xs, hx, ?_⟩
    rw [delivered_start]
    exact hstored
  | @take c e n i hpc hsome =>
    have hlock := hs.locked c (by rw [hpc]; rfl)
    rw [hand_eq hlock, hpc] at hstored
    have hrec : h.record s (.go c e)
        ({ s with pipe := s.pipe.drop }.setPc c (.readOut n i s.pipe.head)) = h := by
      simp only [History.record, hpc]
    rw [hrec]
    obtain ⟨rest, hxs, hrest⟩ := hx.drop hsome
    refine hs.of_holder hlock (fun _ => hs.turn c (by rw [hpc]; rfl)) ⟨rest, hrest, ?_⟩
    rw [hstored, hxs]
    simp [Pc.hand]
  | @deliver c e n i ch hpc hout =>
    have hlock := hs.locked c (by rw [hpc]; rfl)
    rw [hand_eq hlock, hpc] at hstored
    obtain ⟨bytes, rest, hcalls⟩ := hs.turn c (by rw [hpc]; rfl)
    have hrec : h.record s (.go c e) (s.setPc c (.readCopy n (i + 1))) =
        { h with calls := addByte c ch h.calls } := by
      simp only [History.record, hpc, hself]
    rw [hrec]
    refine hs.of_holder hlock (fun _ => ⟨bytes ++ [ch], rest, by simp [hcalls, addByte]⟩)
      ⟨xs, hx, ?_⟩
    rw [delivered_addByte hcalls]
    show h.stored = _
    rw [hstored]
    simp [Pc.hand]
  | @lose c e n i ch hpc hout =>
    rcases hok with hnone | htrue
    · rw [hpc] at hnone
      cases hnone
    · rw [hout] at htrue
      cases htrue

/-! ## Runs -/

/-- A new pipe, with no history. -/
def Started (x : Sys × History) : Prop := Fresh x.1 ∧ x.2 = History.start

theorem Fresh.sound (hs : Fresh s) : Sound s History.start := by
  obtain ⟨hread, hwrite, hlock, hpc⟩ := hs
  refine ⟨?_, ?_, [], ⟨0, .nil, by rw [hread]; rfl, by rw [hwrite]; rfl⟩, ?_⟩
  · intro c hheld
    rw [hpc c] at hheld
    cases hheld
  · intro c hcopies
    rw [hpc c] at hcopies
    cases hcopies
  · rw [Sys.hand, hlock]
    rfl

/-- A `copyout` that fails loses the byte. -/
theorem Sound.lose (hs : Sound s h) (hfail : ¬CopiesOut s l) (hr : Rule s l s') :
    (h.record s l s').stored ≠
      (h.record s l s').delivered ++ s'.hand ++ s'.pipe.unread := by
  have hself : ∀ (t : Sys) c p, (t.setPc c p).pc c = p := fun t c p => update_self _ _ _
  obtain ⟨xs, hx, hstored⟩ := hs.queue
  cases hr with
  | @lose c e n i ch hpc hout =>
    have hlock := hs.locked c (by rw [hpc]; rfl)
    rw [hand_eq hlock, hpc] at hstored
    rw [record_leave (i := i) (Or.inr (hself s c _)),
      hand_eq (c := c) (show (s.setPc c _).lock = some c from hlock), hself,
      show (s.setPc c _).pipe = s.pipe from rfl, hx.unread, hstored]
    intro heq
    have hlen := congrArg List.length heq
    simp [Pc.hand] at hlen
  | outside hl =>
    cases l with
    | go c e => exact absurd rfl (hl c e)
    | write | read | kill | close => exact absurd True.intro hfail
  | acquire _ hpc => exact absurd (Or.inl (Pc.hand_of_not_copies (Pc.not_copies hpc))) hfail
  | release _ hcopies => exact absurd (Or.inl (Pc.hand_of_not_copies hcopies)) hfail
  | leave _ hhand => exact absurd (Or.inl hhand) hfail
  | put hpc | start hpc | take hpc => exact absurd (Or.inl (by rw [hpc]; rfl)) hfail
  | deliver _ hout => exact absurd (Or.inr hout) hfail

/-- In every run in which every `copyout` of `piperead` succeeds: the bytes
delivered are a prefix of the bytes stored, those not yet delivered are the
ones between `nread` and `nwrite`, after the one that a reader may have in
its hand while it holds the lock, and there are at most `PIPESIZE` of them.
After a `copyout` that fails this is no longer so. -/
theorem pipe_fifo (x : Sys × History)
    (h : ReachWhen (fun x l => CopiesOut x.1 l) (instrument next History.record) Started x) :
    x.2.delivered <+: x.2.stored ∧
      x.2.stored = x.2.delivered ++ x.1.hand ++ x.1.pipe.unread ∧
      (x.1.lock = none → x.1.hand = []) ∧
      (x.1.pipe.nwrite - x.1.pipe.nread).toNat ≤ PIPESIZE ∧
      ∀ l y, instrument next History.record x l = some y → ¬CopiesOut x.1 l →
        y.2.stored ≠ y.2.delivered ++ y.1.hand ++ y.1.pipe.unread := by
  have hx : Sound x.1 x.2 := by
    refine h.invariant (I := fun x => Sound x.1 x.2) ?_ ?_
    · rintro ⟨s, h⟩ ⟨hs, rfl⟩
      exact hs.sound
    · intro x l y hx hok hnext
      obtain ⟨hstep, hrec⟩ := instrument_eq_some hnext
      rw [hrec]
      exact hx.step hok (next_rule hstep)
  obtain ⟨xs, hxs, hstored⟩ := hx.queue
  rw [hxs.unread]
  refine ⟨?_, hstored, ?_, ?_, ?_⟩
  · rw [hstored, List.append_assoc]
    exact List.prefix_append _ _
  · intro hlock
    rw [Sys.hand, hlock]
  · rw [hxs.length]
    obtain ⟨_, hring, _, _⟩ := hxs.ring
    exact hring.bound
  · intro l y hnext hfail
    obtain ⟨hstep, hrec⟩ := instrument_eq_some hnext
    rw [hrec]
    exact hx.lose hfail (next_rule hstep)

/-- A new pipe. -/
def freshSys : Sys := ⟨⟨fun _ => 5, 0, 0, true, true⟩, none, fun _ => .idle none⟩

theorem freshSys_started : Started (freshSys, History.start) :=
  ⟨⟨rfl, rfl, rfl, fun _ => rfl⟩, rfl⟩

/-- `n` steps of the call of process `c`, with a user address that holds
`ch`. -/
def callRun (c : Caller) (ch : UInt8) (n : Nat) : List Step :=
  List.replicate n (.go c ⟨false, some ch, true⟩)

/-- Process 0 writes two bytes, and process 1 reads one. -/
def passRun : List Step :=
  .write 0 2 :: callRun 0 7 2 ++ callRun 0 8 3 ++ .read 1 1 :: callRun 1 0 6

theorem pipe_fifo_passRun :
    ∃ x, ReachWhen (fun x l => CopiesOut x.1 l) (instrument next History.record) Started x ∧
      x.2.stored = [7, 8] ∧ x.2.delivered = [7] ∧ x.1.pipe.unread = [8] := by
  obtain ⟨x, hx, hstored, hdelivered, hhand⟩ :
      ∃ x, ReachWhen (fun x l => CopiesOut x.1 l) (instrument next History.record) Started x ∧
        x.2.stored = [7, 8] ∧ x.2.delivered = [7] ∧ x.1.hand = [] :=
    exists_reachWhen_of_run passRun freshSys_started (by decide +kernel)
  have hparts := (pipe_fifo x hx).2.1
  rw [hstored, hdelivered, hhand] at hparts
  simp at hparts
  exact ⟨x, hx, hstored, hdelivered, hparts.symm⟩

/-- Process 0 writes two bytes.  The user address of the first read is not
valid, that of the second is. -/
def loseRun : List Step :=
  .write 0 2 :: callRun 0 7 2 ++ callRun 0 8 3 ++ .read 1 1 :: callRun 1 0 3 ++
    .go 1 ⟨false, none, false⟩ :: callRun 1 0 1 ++ .read 1 1 :: callRun 1 0 6

/-- The first byte is not delivered, and the second is. -/
theorem byte_lost :
    ∃ x, Reach (instrument next History.record) Started x ∧
      x.2.stored = [7, 8] ∧ x.2.delivered = [8] ∧ x.1.lock = none ∧
      ¬x.2.delivered <+: x.2.stored :=
  exists_reachWhen_of_run loseRun freshSys_started (by decide +kernel)

end Xv6.Pipes
