import Xv6.Virtio.Protocol

/-!
# Runs of the driver

What holds in every run of the driver, by the invariant and by the changes
that a step can make to the available ring and to the flags `b->disk`.
-/

namespace Xv6.Virtio

open Xv6.Lib Function

variable {s s' : Sys} {p : Pid} {served : Nat → Bool}

/-- A request that returns has been completed. -/
theorem Inv.returns {L : List Pid} {A U : List Nat} (h : Inv s served L A U) {b : Buf} {c : Chain} (hpc : s.pc p = .wait b c)
    (hs : next s (.go p) = some s') (hleave : (s'.pc p).request = none) :
    served c.head = true := by
  have hp : s.requests p = some ⟨b, c, true⟩ := by rw [Sys.requests, hpc]; rfl
  apply h.core.done p _ hp
  rw [← Bool.not_eq_true]
  intro hflag
  have hs' : some (s.release p (.sleepBuf b c)) = some s' := by
    rw [next, if_neg (by rw [h.calm]; decide)] at hs
    simp only [Virtio.callStep, hpc, Sys.wait, if_pos hflag] at hs
    exact hs
  obtain rfl := Option.some.inj hs'
  simp only [Sys.release, Sys.setPc, update_self] at hleave
  cases hleave

/-! ## Runs -/

/-- The free descriptors. -/
def Sys.freeDescs (s : Sys) : List Nat := (List.range NUM).filter s.disk.free

theorem Core.total {d : Disk} {dev : Device} {onDisk : Buf → Bool} {req : Pid → Option Request}
    {L : List Pid} {A U : List Nat} (hc : Core d dev onDisk req served L A U) :
    ((List.range NUM).filter d.free).length + 3 * L.length = NUM := by
  have hlen := hc.tiles.length_eq
  have hchains : (L.flatMap (chainOf req)).length = 3 * L.length := by
    have hthree : ∀ p ∈ L, (chainOf req p).length = 3 := by
      intro p hp
      obtain ⟨r, hr⟩ := Option.ne_none_iff_exists'.mp ((hc.mem p).mp hp)
      rw [chainOf, hr]
      rfl
    rw [List.length_flatMap, List.map_congr_left hthree, List.map_const', List.sum_replicate_nat,
      Nat.mul_comm]
  rw [List.length_append, hchains, List.length_range] at hlen
  omega

/-- The driver after `virtio_disk_init`, with an empty history. -/
def Started (x : Sys × (Nat → Bool)) : Prop := Initial x.1

theorem Initial.sound (h : Initial s) : Sound s served := by
  obtain ⟨havail, hused, husedIdx, hfree, hdevice, hflags, hlock, hidle, hcalm⟩ := h
  have hnone : ∀ p, s.requests p = none := by
    intro p
    rw [Sys.requests, hidle p]
    rfl
  refine ⟨[], [], [], hcalm, ?_, ?_, ?_⟩
  · intro p hp
    rw [hidle p] at hp
    cases hp
  · intro p q b hp
    rw [hidle p] at hp
    cases hp
  · constructor
    case nodup => exact List.nodup_nil
    case mem => simp [hnone]
    case tiles =>
      have hall : (List.range NUM).filter s.disk.free = List.range NUM :=
        List.filter_eq_self.mpr (fun i hi => hfree i (List.mem_range.mp hi))
      rw [Tiles, hall]
      exact List.Perm.refl _
    case avail => exact ⟨0, .nil, by rw [hdevice]; exact .zero, by rw [havail]; exact .zero⟩
    case used => exact ⟨0, .nil, by rw [husedIdx]; exact .zero, by rw [hused]; exact .zero⟩
    case heads => simp [hdevice, hnone]
    case once => simp [hdevice]
    all_goals simp [hnone]

/-- What a step may do to the heads that the device has not looked at: leave
them, add one behind them, or let the device look at the first one. -/
def Keeps (s : Sys) (l : Step) (s' : Sys) : Prop :=
  s'.unconsumed = s.unconsumed ∨ (∃ h, s'.unconsumed = s.unconsumed ++ [h]) ∨
    l = .take ∧ ∃ h, s.unconsumed = h :: s'.unconsumed

theorem Change.keeps {l : Step} (h : Change s served l s') : Keeps s l s' := by
  cases h with
  | quiet _ havail _ | format _ _ havail _ | clear _ _ _ _ _ _ _ havail => exact .inl havail
  | publish head _ havail _ => exact .inr (.inl ⟨head, havail⟩)
  | take head hl _ havail _ => exact .inr (.inr ⟨hl, head, havail⟩)

/-- The flag of `b` is cleared when the handler looks at the completed request
for `b`. -/
theorem Change.cleared {l : Step} (h : Change s served l s') {b : Buf} (hb : s.onDisk b = true)
    (hb' : s'.onDisk b = false) :
    ∃ p r, s.requests p = some r ∧ r.buf = b ∧ served r.chain.head = true ∧
      Looks s l r.chain.head := by
  cases h with
  | quiet hflags _ _ | publish _ hflags _ _ | take _ _ hflags _ _ =>
    rw [hflags, hb] at hb'
    cases hb'
  | format b' hflags _ _ =>
    rw [hflags] at hb'
    by_cases heq : b = b'
    · rw [heq, update_self] at hb'
      cases hb'
    · rw [update_of_ne heq, hb] at hb'
      cases hb'
  | clear p r hp _ hserved hlooks hflags _ =>
    refine ⟨p, r, hp, ?_, hserved, hlooks⟩
    by_contra hne
    rw [hflags, update_of_ne (Ne.symm hne), hb] at hb'
    cases hb'

/-- Looking at a head clears one flag. -/
theorem Change.looks {l : Step} (h : Change s served l s') {head : Nat} (hl : Looks s l head) :
    ∃ p r, s.requests p = some r ∧ r.chain.head = head ∧ s.onDisk r.buf = true ∧
      s'.onDisk = update s.onDisk r.buf false := by
  cases h with
  | quiet _ _ hlooks | publish _ _ _ hlooks | take _ _ _ _ hlooks | format _ _ _ hlooks =>
    exact absurd hl (hlooks head)
  | clear p r hp hflag _ hlooks hflags _ =>
    obtain ⟨_, _, _, _, hhead⟩ := hlooks
    obtain ⟨_, _, _, _, hhead'⟩ := hl
    exact ⟨p, r, hp, hhead.trans hhead'.symm, hflag, hflags⟩

/-- In every run with one outstanding request per buffer: nothing panics.  The
chains of the outstanding requests are disjoint and, with the free
descriptors, all the descriptors.  No entry of the available ring is lost
before the device looks at it.  The flag of a buffer is cleared exactly when
the handler looks at its completed request, and a request returns only after
its own completion. -/
theorem virtio_protocol (x : Sys × (Nat → Bool))
    (hx : ReachWhen (fun x l => Single x.1 l) (instrument next record) Started x) :
    x.1.panicked = none ∧
    (∃ L : List Pid, L.Nodup ∧ (∀ p, p ∈ L ↔ x.1.requests p ≠ none) ∧
      x.1.freeDescs.length + 3 * L.length = NUM) ∧
    (∀ p q r r', p ≠ q → x.1.requests p = some r → x.1.requests q = some r' →
      List.Disjoint r.chain.toList r'.chain.toList) ∧
    (∀ p r, x.1.requests p = some r → r.chain.toList.Nodup ∧
      ∀ i ∈ r.chain.toList, i < NUM ∧ i ∉ x.1.freeDescs) ∧
    (∀ l s', next x.1 l = some s' → Keeps x.1 l s' ∧
      (∀ b, x.1.onDisk b = true → s'.onDisk b = false → ∃ p r, x.1.requests p = some r ∧
        r.buf = b ∧ x.2 r.chain.head = true ∧ Looks x.1 l r.chain.head) ∧
      ∀ head, Looks x.1 l head → ∃ p r, x.1.requests p = some r ∧ r.chain.head = head ∧
        x.1.onDisk r.buf = true ∧ s'.onDisk = update x.1.onDisk r.buf false) ∧
    ∀ p b c s', x.1.pc p = .wait b c → next x.1 (.go p) = some s' → s'.pc p = .leave →
      x.2 c.head = true := by
  have hsound : Sound x.1 x.2 := by
    apply hx.invariant (I := fun x => Sound x.1 x.2)
    · intro x hstart
      exact Initial.sound hstart
    · intro x l y hsound hok hnext
      obtain ⟨hstep, hrec⟩ := instrument_eq_some hnext
      obtain ⟨L, A, U, h⟩ := hsound
      rw [hrec]
      exact (h.step hstep).1 hok
  obtain ⟨L, A, U, h⟩ := hsound
  refine ⟨h.calm, ⟨L, h.core.nodup, h.core.mem, h.core.total⟩, ?_, ?_, ?_, ?_⟩
  · intro p q r r' hpq hp hq i hi hi'
    exact hpq (h.core.disjoint hp hq hi hi')
  · intro p r hp
    obtain ⟨hnodup, hused⟩ := h.core.chain hp
    refine ⟨hnodup, fun i hi => ⟨(hused i hi).1, ?_⟩⟩
    rw [Sys.freeDescs, List.mem_filter, (hused i hi).2]
    exact fun hfree => Bool.false_ne_true hfree.2
  · intro l s' hnext
    have hchange := (h.step hnext).2
    exact ⟨hchange.keeps, fun b => hchange.cleared, fun head => hchange.looks⟩
  · intro p b c s' hpc hnext hleave
    exact h.returns hpc hnext (by rw [hleave]; rfl)

/-- The driver when it starts. -/
def freshSys : Sys where
  disk := ⟨fun _ => ⟨.zero, 0, 0, 0⟩, ⟨fun _ => 0, 0⟩, ⟨fun _ => 0, 0⟩, fun _ => true, 0,
    fun _ => ⟨none, 0⟩, fun _ => ⟨0, 0, 0⟩⟩
  device := ⟨0, []⟩
  onDisk := fun _ => false
  blockno := fun b => UInt32.ofNat b
  lock := none
  pc := fun _ => .idle
  panicked := none

/-- Only a new request has a condition. -/
noncomputable instance (s : Sys) : ∀ l, Decidable (Single s l)
  | .rw _ _ _ => Classical.propDecidable _
  | .intr _ | .go _ | .take | .complete _ => isTrue trivial

/-- Process 0 has called `virtio_disk_rw`.  It sends the request and sleeps,
the device completes it, CPU 1 handles the interrupt, and process 0 wakes. -/
def rwRun : List Step :=
  List.replicate 4 (.go 0) ++ [.take, .complete 0, .intr 1] ++ List.replicate 4 (.go 1) ++ [.go 0]

theorem virtio_protocol_rwRun : ∃ x,
    ReachWhen (fun x l => Single x.1 l) (instrument next record) Started x ∧
      (x.1.pc 0).request.map Request.chain = some ⟨0, 1, 2⟩ ∧ x.1.onDisk 5 = false ∧
      x.1.freeDescs = [3, 4, 5, 6, 7] ∧ x.1.panicked = none := by
  have hfirst : ReachWhen (fun x l => Single x.1 l) (instrument next record) Started
      (freshSys.setPc 0 (.start 5 true), fun _ => false) := by
    apply ReachWhen.step (s := (freshSys, fun _ => false)) (.rw 0 5 true)
    · apply ReachWhen.init
      exact ⟨rfl, rfl, rfl, fun _ _ => rfl, rfl, fun _ => rfl, rfl, fun _ => rfl, rfl⟩
    · exact fun q => nofun
    · rfl
  have hrun : (runWhen (fun x l => Single x.1 l) (instrument next record)
      (freshSys.setPc 0 (.start 5 true), fun _ => false) rwRun).map
        (fun x => ((x.1.pc 0).request.map Request.chain, x.1.onDisk 5, x.1.freeDescs)) =
      some (some ⟨0, 1, 2⟩, false, [3, 4, 5, 6, 7]) := by
    decide +kernel
  obtain ⟨x, hx, heq⟩ := Option.map_eq_some_iff.mp hrun
  obtain ⟨hchain, hrest⟩ := Prod.mk.inj heq
  obtain ⟨hflag, hfree⟩ := Prod.mk.inj hrest
  have hreach := reachWhen_of_runWhen rwRun hfirst hx
  exact ⟨x, hreach, hchain, hflag, hfree, (virtio_protocol x hreach).1⟩

end Xv6.Virtio
