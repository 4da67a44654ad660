import Xv6.Virtio.Requests

/-!
# The request protocol

Every step of the driver and of the device keeps `Core`.  Most steps move a
process between places with the same request.  The others are the six lemmas
of `Core`.

`Change` lists what a step can do to the available ring and to the flags
`b->disk`.  `Stepped` says that a step keeps the invariant and is one of these
changes.

The history `served` is reset when a request is formatted and set when the
device completes it.
-/

namespace Xv6.Virtio

open Xv6.Lib Function

variable {s s' : Sys} {p q : Pid} {served : Nat → Bool}

/-- The request of a process, from the formatting of the chain until it is
freed. -/
def Pc.request : Pc → Option Request
  | .publish b c => some ⟨b, c, false⟩
  | .wait b c | .sleepBuf b c | .wokenBuf b c => some ⟨b, c, true⟩
  | .idle | .start _ _ | .alloc _ _ | .sleepFree _ _ | .wokenFree _ _ | .intr | .intrLoop
  | .leave => none

/-- The places in which a process holds `vdisk_lock`. -/
def Pc.holds : Pc → Bool
  | .alloc _ _ | .publish _ _ | .wait _ _ | .intrLoop | .leave => true
  | .idle | .start _ _ | .sleepFree _ _ | .wokenFree _ _ | .sleepBuf _ _ | .wokenBuf _ _
  | .intr => false

/-- What the processes have asked for. -/
def Sys.requests (s : Sys) (p : Pid) : Option Request := (s.pc p).request

structure Inv (s : Sys) (served : Nat → Bool) (L : List Pid) (A U : List Nat) : Prop where
  calm : s.panicked = none
  locked : ∀ p, (s.pc p).holds = true → s.lock = some p
  single : ∀ p q b, (s.pc p).buf = some b → (s.pc q).buf = some b → p = q
  core : Core s.disk s.device s.onDisk s.requests served L A U

variable {r : Request} {b : Buf}

/-- A request has its buffer. -/
theorem buf_of_request {pc : Pc} (h : pc.request = some r) : pc.buf = some r.buf := by
  cases pc with
  | publish b c | wait b c | sleepBuf b c | wokenBuf b c =>
    cases h
    rfl
  | _ => cases h

/-- What the invariant sees of a place. -/
def Pc.view (pc : Pc) : Option Request × Option Buf × Bool := (pc.request, pc.buf, pc.holds)

theorem wakeFree_view (pc : Pc) : pc.wakeFree.view = pc.view := by
  cases pc <;> rfl

theorem wakeBuf_view (b : Buf) (pc : Pc) : (pc.wakeBuf b).view = pc.view := by
  cases pc with
  | sleepBuf b' c =>
    rw [Pc.wakeBuf]
    split <;> rfl
  | _ => rfl

/-! ## One process moves -/

/-- The other processes are where they were, as far as the invariant sees. -/
def Others (s s' : Sys) (p : Pid) : Prop := ∀ q, q ≠ p → (s'.pc q).view = (s.pc q).view

theorem Others.setPc (pc : Pc) : Others s (s.setPc p pc) p := by
  intro q hq
  rw [show (s.setPc p pc).pc q = s.pc q from update_of_ne hq _ _]

/-- The requests after a step of `p`. -/
theorem Others.requests (h : Others s s' p) :
    s'.requests = update s.requests p (s'.pc p).request := by
  funext q
  by_cases hqp : q = p
  · subst hqp
    rw [update_self]
    rfl
  · rw [update_of_ne hqp]
    exact (Prod.mk.inj (h q hqp)).1

section Moves

variable {L : List Pid} {A U : List Nat} {pc : Pc}

/-- A step of `p` to the place `pc`. -/
theorem Inv.move {served' : Nat → Bool} {L' : List Pid} {A' U' : List Nat}
    (h : Inv s served L A U) (hpc : s'.pc p = pc) (hothers : Others s s' p)
    (hcalm : s'.panicked = none) (hlock : s'.lock = s.lock ∨ s.lock = none ∨ s.lock = some p)
    (hholds : pc.holds = true → s'.lock = some p)
    (hbuf : ∀ b, pc.buf = some b → ∀ q, q ≠ p → (s.pc q).buf ≠ some b)
    (hcore : Core s'.disk s'.device s'.onDisk (update s.requests p pc.request)
      served' L' A' U') :
    Inv s' served' L' A' U' := by
  subst hpc
  have hview : ∀ q, q ≠ p → (s'.pc q).buf = (s.pc q).buf ∧ (s'.pc q).holds = (s.pc q).holds := by
    intro q hq
    obtain ⟨-, hrest⟩ := Prod.mk.inj (hothers q hq)
    exact Prod.mk.inj hrest
  refine ⟨hcalm, ?_, ?_, hothers.requests ▸ hcore⟩
  · intro q hq
    by_cases hqp : q = p
    · subst hqp
      exact hholds hq
    rw [(hview q hqp).2] at hq
    have hold := h.locked q hq
    rcases hlock with hlock | hlock | hlock
    · rw [hlock, hold]
    · rw [hold] at hlock
      cases hlock
    · rw [hold] at hlock
      exact absurd (Option.some.inj hlock) hqp
  · intro q q' b hq hq'
    by_cases hqp : q = p
    · subst hqp
      by_contra hne
      rw [(hview q' (Ne.symm hne)).1] at hq'
      exact hbuf b hq q' (Ne.symm hne) hq'
    · by_cases hqp' : q' = p
      · subst hqp'
        rw [(hview q hqp).1] at hq
        exact absurd hq (hbuf b hq' q hqp)
      · rw [(hview q hqp).1] at hq
        rw [(hview q' hqp').1] at hq'
        exact h.single q q' b hq hq'

/-- A buffer that `p` has is not the one of another process. -/
theorem Inv.buf_ne (h : Inv s served L A U) (hp : (s.pc p).buf = some b) (q : Pid) (hq : q ≠ p) :
    (s.pc q).buf ≠ some b := by
  intro hb
  exact hq (h.single q p b hb hp)

/-- The same request at another place. -/
theorem Inv.core_same (pc : Pc) (h : Inv s served L A U) (hrequest : pc.request = (s.pc p).request) :
    Core s.disk s.device s.onDisk (update s.requests p pc.request) served L A U := by
  have hreq : update s.requests p pc.request = s.requests := by
    rw [hrequest]
    exact update_eq_self _ _
  rw [hreq]
  exact h.core

/-- `acquire` at a place with the same request. -/
theorem Inv.acquire (h : Inv s served L A U) (hs : s.acquire p pc = some s')
    (hrequest : pc.request = (s.pc p).request) (hbuf : pc.buf = (s.pc p).buf) :
    Inv s' served L A U := by
  unfold Sys.acquire at hs
  obtain ⟨hlock, ⟨⟩⟩ := Option.ite_none_right_eq_some.mp hs
  refine h.move (update_self _ _ _) (fun q hq => ?_) h.calm (Or.inr (Or.inl hlock)) ?_ ?_
    (h.core_same pc hrequest)
  · exact Others.setPc (s := s) pc q hq
  · exact fun _ => rfl
  · intro b hb
    rw [hbuf] at hb
    exact h.buf_ne hb

/-- `release` at a place with the same request. -/
theorem Inv.release (h : Inv s served L A U) (hp : (s.pc p).holds = true)
    (hholds : pc.holds = false) (hrequest : pc.request = (s.pc p).request)
    (hbuf : ∀ b, pc.buf = some b → (s.pc p).buf = some b) : Inv (s.release p pc) served L A U := by
  refine h.move (update_self _ _ _) (fun q hq => ?_) h.calm
    (Or.inr (Or.inr (h.locked p hp))) ?_ ?_ (h.core_same pc hrequest)
  · exact Others.setPc (s := s) pc q hq
  · intro hpc
    rw [hholds] at hpc
    cases hpc
  · exact fun b hb => h.buf_ne (hbuf b hb)

/-- A move without the lock, or with it kept. -/
theorem Inv.setPc (h : Inv s served L A U) (hholds : pc.holds = (s.pc p).holds)
    (hrequest : pc.request = (s.pc p).request)
    (hbuf : ∀ b, pc.buf = some b → ∀ q, q ≠ p → (s.pc q).buf ≠ some b) :
    Inv (s.setPc p pc) served L A U := by
  refine h.move (update_self _ _ _) (Others.setPc pc) h.calm (Or.inl rfl) ?_ hbuf
    (h.core_same pc hrequest)
  intro hpc
  rw [hholds] at hpc
  exact h.locked p hpc

/-- Nobody else is about to publish while `p` has the lock. -/
theorem Inv.published (h : Inv s served L A U) (hp : (s.pc p).holds = true)
    (hnone : (s.pc p).request = none) {q : Pid} (hq : s.requests q = some r) :
    r.published = true := by
  rw [Sys.requests] at hq
  cases hpc : s.pc q with
  | publish b c =>
    have hlock := h.locked q (by rw [hpc]; rfl)
    rw [h.locked p hp] at hlock
    obtain rfl := Option.some.inj hlock
    rw [hnone] at hq
    cases hq
  | wait b c | sleepBuf b c | wokenBuf b c =>
    rw [hpc] at hq
    cases hq
    rfl
  | _ =>
    rw [hpc] at hq
    cases hq

end Moves

/-! ## The steps -/

/-- The requests that have been completed, by their heads. -/
def record (served : Nat → Bool) (s : Sys) (l : Step) (s' : Sys) : Nat → Bool :=
  match l with
  | .go p =>
      match s.pc p, s'.pc p with
      | .alloc _ _, .publish _ c => update served c.head false
      | _, _ => served
  | .complete head => update served head true
  | _ => served

/-- The invariant of a run. -/
def Sound (s : Sys) (served : Nat → Bool) : Prop := ∃ L A U, Inv s served L A U

/-- The heads that the device has not looked at. -/
def Sys.unconsumed (s : Sys) : List Nat :=
  window s.disk.avail.ring s.device.availIdx s.disk.avail.idx

/-- The interrupt handler looks at the head `h`. -/
def Looks (s : Sys) (l : Step) (h : Nat) : Prop :=
  ∃ p, l = .go p ∧ s.pc p = .intrLoop ∧ s.disk.usedIdx ≠ s.disk.used.idx ∧
    h = s.disk.used.ring (s.disk.usedIdx.toNat % NUM)

/-- The flags and the available ring after a step. -/
inductive Change (s : Sys) (served : Nat → Bool) (l : Step) (s' : Sys) : Prop
  | quiet (hflags : s'.onDisk = s.onDisk) (havail : s'.unconsumed = s.unconsumed)
      (hlooks : ∀ h, ¬ Looks s l h)
  /-- A request is formatted. -/
  | format (b : Buf) (hflags : s'.onDisk = update s.onDisk b true)
      (havail : s'.unconsumed = s.unconsumed) (hlooks : ∀ h, ¬ Looks s l h)
  | publish (h : Nat) (hflags : s'.onDisk = s.onDisk)
      (havail : s'.unconsumed = s.unconsumed ++ [h]) (hlooks : ∀ h, ¬ Looks s l h)
  | take (h : Nat) (hl : l = .take) (hflags : s'.onDisk = s.onDisk)
      (havail : s.unconsumed = h :: s'.unconsumed) (hlooks : ∀ h, ¬ Looks s l h)
  /-- A completed request is noticed. -/
  | clear (p : Pid) (r : Request) (hp : s.requests p = some r) (hflag : s.onDisk r.buf = true)
      (hserved : served r.chain.head = true) (hlooks : Looks s l r.chain.head)
      (hflags : s'.onDisk = update s.onDisk r.buf false)
      (havail : s'.unconsumed = s.unconsumed)

/-- The step keeps the invariant, and changes the rings and the flags as it
may. -/
structure Stepped (s : Sys) (served : Nat → Bool) (l : Step) (s' : Sys) : Prop where
  sound : Sound s' (record served s l s')
  change : Change s served l s'

section Steps

variable {L : List Pid} {A U : List Nat}

theorem Inv.unconsumed (h : Inv s served L A U) : s.unconsumed = A := h.core.avail.window_eq

/-- A step of a process that is not at the used ring looks at nothing. -/
theorem not_looks (hpc : s.pc p ≠ .intrLoop) (h : Nat) : ¬ Looks s (.go p) h := by
  rintro ⟨q, hq, hloop, -⟩
  cases hq
  exact hpc hloop

/-- A step that leaves the history, the flags and the available ring. -/
theorem Inv.quiet {l : Step} {M : List Pid} {V : List Nat} (h : Inv s served L A U)
    (h' : Inv s' served M A V) (hrec : record served s l s' = served)
    (hflags : s'.onDisk = s.onDisk) (hlooks : ∀ h, ¬ Looks s l h) : Stepped s served l s' :=
  ⟨hrec.symm ▸ ⟨M, A, V, h'⟩, .quiet hflags (h'.unconsumed.trans h.unconsumed.symm) hlooks⟩

theorem record_go (hp : ∀ b write, s.pc p ≠ .alloc b write) : record served s (.go p) s' = served := by
  unfold record
  dsimp only
  split
  · rename_i hpc _
    exact absurd hpc (hp _ _)
  · rfl

theorem Inv.request (h : Inv s served L A U) {write : Bool} (hpc : s.pc p = .alloc b write) :
    Stepped s served (.go p) (s.request p b write) := by
  have hbuf : (s.pc p).buf = some b := by rw [hpc]; rfl
  have hholds : (s.pc p).holds = true := by rw [hpc]; rfl
  have hnone : (s.pc p).request = none := by rw [hpc]; rfl
  have hlooks := not_looks (s := s) (p := p) (by simp [hpc])
  obtain ⟨x, hx, hspec⟩ := alloc3Desc_spec s.disk
  unfold Sys.request
  rw [hx]
  cases hspec with
  | some c hnodup hlt hfree =>
    have hinv : Inv (Sys.setPc { s with
        disk := Disk.format { s.disk with free := c.set s.disk.free false } b (s.blockno b) write c
        onDisk := update s.onDisk b true } p (.publish b c)) (update served c.head false)
        (p :: L) A U := by
      refine h.move (update_self _ _ _) (fun q hq => ?_) h.calm (Or.inl rfl) ?_ ?_ ?_
      · exact Others.setPc (s := s) _ q hq
      · exact fun _ => h.locked p hholds
      · intro b' hb'
        cases hb'
        exact h.buf_ne hbuf
      · apply h.core.alloc hnone _ (fun _ _ hq => h.published hholds hnone hq) hnodup hlt hfree
        intro q r hq heq
        have hq' := buf_of_request hq
        rw [heq] at hq'
        obtain rfl := h.single q p b hq' hbuf
        rw [Sys.requests, hnone] at hq
        cases hq
    refine ⟨?_, .format b rfl (hinv.unconsumed.trans h.unconsumed.symm) hlooks⟩
    simp only [record, hpc, Sys.setPc, update_self]
    exact ⟨p :: L, A, U, hinv⟩
  | none desc hdesc =>
    dsimp only
    -- the processes that the rollback wakes have no request
    have hsleep : ∀ t : Sys, t.pc p = .sleepFree b write → Others s t p → t.panicked = none →
        t.lock = none → t.disk = { s.disk with desc := desc } → t.device = s.device →
        t.onDisk = s.onDisk → Stepped s served (.go p) t := by
      intro t ht hothers hcalm hlock hdisk hdevice hflags
      refine h.quiet (M := L) (V := U) (h.move ht hothers hcalm
        (Or.inr (Or.inr (h.locked p hholds))) nofun ?_ ?_) ?_ hflags hlooks
      · intro b' hb'
        cases hb'
        exact h.buf_ne hbuf
      · rw [hdisk, hdevice, hflags]
        exact (h.core_same (.sleepFree b write) hnone.symm).desc hdesc
      · simp only [record, hpc, ht]
    apply hsleep
    · exact update_self _ _ _
    · intro q hq
      refine (Others.setPc (p := p) (.sleepFree b write) q hq).trans ?_
      split
      · exact wakeFree_view (s.pc q)
      · rfl
    · split <;> exact h.calm
    · rfl
    · split <;> rfl
    · split <;> rfl
    · split <;> rfl

theorem Inv.publish (h : Inv s served L A U) {c : Chain} (hpc : s.pc p = .publish b c) :
    Stepped s served (.go p) (s.publish p b c) := by
  have hp : s.requests p = some ⟨b, c, false⟩ := by rw [Sys.requests, hpc]; rfl
  have hinv : Inv (s.publish p b c) served L (A ++ [c.head]) U := by
    refine h.move (update_self _ _ _) (fun q hq => ?_) h.calm (Or.inl rfl) ?_ ?_
      (h.core.publish hp)
    · exact Others.setPc (s := s) _ q hq
    · exact fun _ => h.locked p (by rw [hpc]; rfl)
    · intro b' hb'
      cases hb'
      exact h.buf_ne (by rw [hpc]; rfl)
  refine ⟨?_, .publish c.head rfl ?_ (not_looks (by simp [hpc]))⟩
  · rw [record_go (by simp [hpc])]
    exact ⟨L, A ++ [c.head], U, hinv⟩
  · rw [hinv.unconsumed, h.unconsumed]

/-- `free_chain` frees the chain of a request. -/
theorem Inv.freeChain (h : Inv s served L A U) (hp : s.requests p = some r) :
    Disk.freeChain (NUM + 1) { s.disk with
        info := update s.disk.info r.chain.head
          { s.disk.info r.chain.head with b := none } } r.chain.head =
      .ok { s.disk with
        info := update s.disk.info r.chain.head
          { s.disk.info r.chain.head with b := none }
        desc := r.chain.set s.disk.desc ⟨.zero, 0, 0, 0⟩
        free := r.chain.set s.disk.free true } := by
  obtain ⟨hnodup, hused⟩ := h.core.chain hp
  have hlinked := (h.core.formatted p _ hp).toLinked
  exact freeChain_ok (d := { s.disk with
      info := update s.disk.info r.chain.head
        { s.disk.info r.chain.head with b := none } })
    ⟨hlinked.head, hlinked.data, hlinked.status⟩ hnodup (fun i hi => (hused i hi).1)
    (fun i hi => (hused i hi).2) 6

theorem Inv.wait (h : Inv s served L A U) {c : Chain} (hpc : s.pc p = .wait b c) :
    Stepped s served (.go p) (s.wait p b c) := by
  have hholds : (s.pc p).holds = true := by rw [hpc]; rfl
  have hp : s.requests p = some ⟨b, c, true⟩ := by rw [Sys.requests, hpc]; rfl
  have hrec : ∀ t, record served s (.go p) t = served := fun _ => record_go (by simp [hpc])
  have hlooks := not_looks (s := s) (p := p) (by simp [hpc])
  unfold Sys.wait
  split
  · refine h.quiet (h.release hholds rfl ?_ ?_) (hrec _) rfl hlooks
    · rw [hpc]
      rfl
    · intro b' hb'
      rw [hpc]
      exact hb'
  · rename_i hflag
    dsimp only
    rw [h.freeChain hp]
    refine h.quiet (M := L.erase p) (V := U) (h.move (update_self _ _ _) (fun q hq => ?_) h.calm
      (Or.inl rfl) ?_ nofun (h.core.free hp (Bool.eq_false_iff.mpr hflag))) (hrec _) rfl hlooks
    · refine (Others.setPc (p := p) .leave q hq).trans ?_
      exact wakeFree_view (s.pc q)
    · exact fun _ => h.locked p hholds

/-- The entry of the used ring that the handler looks at. -/
theorem Inv.intrLoop (h : Inv s served L A U) (hpc : s.pc p = .intrLoop) :
    Stepped s served (.go p) (s.intrLoop p) := by
  have hholds : (s.pc p).holds = true := by rw [hpc]; rfl
  have hnone : (s.pc p).request = none := by rw [hpc]; rfl
  have hrec : ∀ t, record served s (.go p) t = served := fun _ => record_go (by simp [hpc])
  unfold Sys.intrLoop
  split
  · rename_i hne
    obtain ⟨rest, hU, hrest⟩ := h.core.used.pop hne
    obtain ⟨q, r, hq, hpub, hhead, hflag, hb, hstatus⟩ := h.core.first hU
    have hserved := (h.core.status r.chain.head (by simp [hU, hhead])).2
    dsimp only
    rw [if_neg (by rw [hstatus]; decide), hb]
    have hmoved : (s.pc p).wakeBuf r.buf = .intrLoop := by
      rw [hpc]
      rfl
    have hinv : Inv (Sys.wakeBuf { s with
        onDisk := update s.onDisk r.buf false
        disk := { s.disk with usedIdx := s.disk.usedIdx + 1 } } r.buf) served L A rest := by
      refine h.move (p := p) hmoved (fun q hq => ?_) h.calm (Or.inl rfl) ?_ nofun ?_
      · exact wakeBuf_view r.buf (s.pc q)
      · exact fun _ => h.locked p hholds
      · rw [show update s.requests p (Pc.intrLoop).request = s.requests by
          rw [show (Pc.intrLoop).request = s.requests p from hnone.symm, update_eq_self]]
        exact h.core.intr hq hpub (by rw [hhead]; exact hU) hrest
    exact ⟨(hrec _).symm ▸ ⟨L, A, rest, hinv⟩, .clear q r hq hflag hserved
      ⟨p, rfl, hpc, hne, hhead⟩ rfl (hinv.unconsumed.trans h.unconsumed.symm)⟩
  · rename_i heq
    refine h.quiet (h.setPc ?_ hnone.symm nofun) (hrec _) rfl ?_
    · rw [hpc]
      rfl
    · rintro head ⟨q, -, -, hne, -⟩
      exact heq hne

theorem Inv.take (h : Inv s served L A U) (hs : s.take = some s') :
    Stepped s served .take s' := by
  unfold Sys.take at hs
  obtain ⟨hne, ⟨⟩⟩ := Option.ite_none_right_eq_some.mp hs
  obtain ⟨rest, hA, hrest⟩ := h.core.avail.pop hne
  have hinv : Inv { s with device :=
      { availIdx := s.device.availIdx + 1
        taken := s.device.taken ++ [s.disk.avail.ring (s.device.availIdx.toNat % NUM)] } }
      served L rest U := ⟨h.calm, h.locked, h.single, h.core.take hA hrest⟩
  have havail := h.unconsumed.trans hA
  rw [← hinv.unconsumed] at havail
  exact ⟨⟨L, rest, U, hinv⟩, .take _ rfl rfl havail nofun⟩

theorem Inv.complete (h : Inv s served L A U) {head : Nat} (hs : s.complete head = some s') :
    Stepped s served (.complete head) s' := by
  unfold Sys.complete at hs
  split at hs
  · rename_i htaken
    rw [h.core.writeStatus (by simp [htaken])] at hs
    obtain rfl := Option.some.inj hs
    exact ⟨⟨L, A, U ++ [head], h.calm, h.locked, h.single, h.core.complete htaken⟩,
      .quiet rfl rfl nofun⟩
  · cases hs

/-- Every step of a process. -/
theorem Inv.callStep (h : Inv s served L A U) (hs : callStep s p = some s') :
    Stepped s served (.go p) s' := by
  unfold Virtio.callStep at hs
  cases hpc : s.pc p with
  | idle | sleepFree b write | sleepBuf b c =>
    rw [hpc] at hs
    cases hs
  | start b write | wokenFree b write | wokenBuf b c | intr =>
    rw [hpc] at hs
    refine h.quiet (h.acquire hs (by rw [hpc]; rfl) (by rw [hpc]; rfl))
      (record_go (by simp [hpc])) ?_ (not_looks (by simp [hpc]))
    obtain ⟨-, ⟨⟩⟩ := Option.ite_none_right_eq_some.mp hs
    rfl
  | alloc b write =>
    rw [hpc] at hs
    obtain rfl := Option.some.inj hs
    exact h.request hpc
  | publish b c =>
    rw [hpc] at hs
    obtain rfl := Option.some.inj hs
    exact h.publish hpc
  | wait b c =>
    rw [hpc] at hs
    obtain rfl := Option.some.inj hs
    exact h.wait hpc
  | intrLoop =>
    rw [hpc] at hs
    obtain rfl := Option.some.inj hs
    exact h.intrLoop hpc
  | leave =>
    rw [hpc] at hs
    obtain rfl := Option.some.inj hs
    exact h.quiet (h.release (by rw [hpc]; rfl) rfl (by rw [hpc]; rfl) nofun)
      (record_go (by simp [hpc])) rfl (not_looks (by simp [hpc]))

end Steps

/-- A new request is for a buffer without one, if the invariant is to hold. -/
theorem Inv.step {L : List Pid} {A U : List Nat} (h : Inv s served L A U) {l : Step}
    (hs : next s l = some s') :
    (Single s l → Sound s' (record served s l s')) ∧ Change s served l s' := by
  have hstepped : ∀ {l}, Stepped s served l s' →
      (Single s l → Sound s' (record served s l s')) ∧ Change s served l s' :=
    fun h => ⟨fun _ => h.sound, h.change⟩
  unfold next at hs
  rw [if_neg (by rw [h.calm]; decide)] at hs
  cases l with
  | rw p b write =>
    dsimp only at hs
    cases hpc : s.pc p with
    | idle =>
      rw [hpc] at hs
      obtain rfl := Option.some.inj hs
      refine ⟨fun hok => ⟨L, A, U, h.setPc (by rw [hpc]; rfl) (by rw [hpc]; rfl) ?_⟩,
        .quiet rfl rfl nofun⟩
      intro b' hb' q _
      cases hb'
      exact hok q
    | _ =>
      rw [hpc] at hs
      cases hs
  | intr p =>
    dsimp only at hs
    cases hpc : s.pc p with
    | idle =>
      rw [hpc] at hs
      obtain rfl := Option.some.inj hs
      exact hstepped (h.quiet (h.setPc (by rw [hpc]; rfl) (by rw [hpc]; rfl) nofun) rfl rfl nofun)
    | _ =>
      rw [hpc] at hs
      cases hs
  | go p => exact hstepped (h.callStep hs)
  | take => exact hstepped (h.take hs)
  | complete head => exact hstepped (h.complete hs)

end Xv6.Virtio
