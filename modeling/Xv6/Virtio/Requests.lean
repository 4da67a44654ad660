import Mathlib.Data.List.Pairwise
import Mathlib.Data.List.Perm.Subperm
import Xv6.Lib.Ring
import Xv6.Virtio.Descriptors

/-!
# Requests on their way

A request that the device can see is in one of three places: in the part of
the available ring that the device has not looked at, with the device, or in
the part of the used ring that the driver has not looked at.  Its buffer has
`b->disk` set until it has been through all of them.

`Core` is the invariant, in terms of what each process has asked for.  There
is one lemma for each step that changes it.
-/

namespace Xv6.Virtio

open Xv6.Lib Function

/-! ## The two rings -/

/-- The entries of a ring from index `i` to index `j`. -/
def window (ring : Nat → Nat) (i j : UInt16) : List Nat :=
  (List.range (j - i).toNat).map (fun k => ring ((i + UInt16.ofNat k).toNat % NUM))

/-- The ring has the entries `xs` from index `i` to index `j`. -/
def Window (ring : Nat → Nat) (i j : UInt16) (xs : List Nat) : Prop :=
  ∃ k, Ring NUM ring k xs ∧ Counts i.toBitVec k ∧ Counts j.toBitVec (k + xs.length)

namespace Window

variable {ring : Nat → Nat} {i j : UInt16} {xs : List Nat} {h : Nat}

theorem short (hw : Window ring i j xs) : xs.length < 2 ^ 16 := by
  obtain ⟨k, hring, -, -⟩ := hw
  have hbound := hring.bound
  simp only [NUM] at hbound
  omega

theorem window_eq (hw : Window ring i j xs) : window ring i j = xs := by
  have hshort := hw.short
  obtain ⟨k, hring, hi, hj⟩ := hw
  have hlen : (j - i).toNat = xs.length := hi.sub hj hshort
  rw [window, hlen]
  apply List.ext_getElem
  · simp
  · intro m hm hm'
    have hpos : (i + UInt16.ofNat m).toNat % NUM = (k + m) % NUM := (hi.add m).cell (by decide)
    rw [List.getElem_map, List.getElem_range, hpos]
    exact hring.cell m hm'

/-- A store behind the entries. -/
theorem store (hw : Window ring i j xs) (hroom : xs.length < NUM) (h : Nat) :
    Window (update ring (j.toNat % NUM) h) i j xs := by
  obtain ⟨k, hring, hi, hj⟩ := hw
  have hpos : j.toNat % NUM = (k + xs.length) % NUM := hj.cell (by decide)
  rw [hpos]
  exact ⟨k, (hring.push hroom).take, hi, hj⟩

/-- The index moves behind the entry that has been stored. -/
theorem push (hw : Window ring i j xs) (hroom : xs.length < NUM)
    (hslot : ring (j.toNat % NUM) = h) : Window ring i (j + 1) (xs ++ [h]) := by
  obtain ⟨k, hring, hi, hj⟩ := hw
  have hpos : j.toNat % NUM = (k + xs.length) % NUM := hj.cell (by decide)
  have hpush := hring.push (a := h) hroom
  rw [← hpos, ← hslot, update_eq_self, hslot] at hpush
  refine ⟨k, hpush, hi, ?_⟩
  rw [List.length_append, List.length_singleton, ← Nat.add_assoc]
  exact hj.succ

/-- Looking at the first entry. -/
theorem pop (hw : Window ring i j xs) (hne : i ≠ j) :
    ∃ rest, xs = ring (i.toNat % NUM) :: rest ∧ Window ring (i + 1) j rest := by
  have hshort := hw.short
  obtain ⟨k, hring, hi, hj⟩ := hw
  cases xs with
  | nil => exact absurd (UInt16.toBitVec_inj.mp ((hi.eq_iff hj hshort).mpr rfl)) hne
  | cons h rest =>
    obtain ⟨hh, hrest⟩ := hring.pop
    have hpos : i.toNat % NUM = k % NUM := hi.cell (by decide)
    rw [hpos, hh]
    refine ⟨rest, rfl, k + 1, hrest, hi.succ, ?_⟩
    rw [List.length_cons, Nat.add_comm rest.length, ← Nat.add_assoc] at hj
    exact hj

end Window

/-- Distinct descriptors, with one more, are fewer than `NUM`. -/
theorem length_lt {xs : List Nat} {h : Nat} (hnodup : xs.Nodup) (hnot : h ∉ xs)
    (hlt : ∀ x, x = h ∨ x ∈ xs → x < NUM) : xs.length < NUM := by
  have hsub : (h :: xs) ⊆ List.range NUM := by
    intro x hx
    exact List.mem_range.mpr (hlt x (List.mem_cons.mp hx))
  have hle := (List.subperm_of_subset (List.nodup_cons.mpr ⟨hnot, hnodup⟩) hsub).length_le
  rw [List.length_cons, List.length_range] at hle
  exact hle

/-! ## The invariant -/

/-- The descriptors of a request. -/
def chainOf (req : Pid → Option Request) (p : Pid) : List Nat :=
  match req p with
  | some r => r.chain.toList
  | none => []

/-- One process has a new request, or none any more. -/
theorem update_eq_some {req : Pid → Option Request} {p q : Pid} {x : Option Request} {r : Request}
    (h : update req p x q = some r) : q = p ∧ x = some r ∨ q ≠ p ∧ req q = some r := by
  by_cases hqp : q = p
  · subst hqp
    rw [update_self] at h
    exact Or.inl ⟨rfl, h⟩
  · rw [update_of_ne hqp] at h
    exact Or.inr ⟨hqp, h⟩

/-- The descriptors, the rings and the flags, for the requests of the
processes.  `L` are the processes with a request, `A` the heads that the
device has not looked at, `U` those that the driver has not looked at.
`served` has the heads whose requests have been completed. -/
structure Core (d : Disk) (dev : Device) (onDisk : Buf → Bool) (req : Pid → Option Request)
    (served : Nat → Bool) (L : List Pid) (A U : List Nat) : Prop where
  nodup : L.Nodup
  mem : ∀ p, p ∈ L ↔ req p ≠ none
  tiles : Tiles (L.flatMap (chainOf req)) d.free
  formatted : ∀ p r, req p = some r → Formatted d r.buf r.chain
  bufs : ∀ p q r r', req p = some r → req q = some r' → r.buf = r'.buf → p = q
  avail : Window d.avail.ring dev.availIdx d.avail.idx A
  used : Window d.used.ring d.usedIdx d.used.idx U
  once : (A ++ dev.taken ++ U).Nodup
  heads : ∀ h, h ∈ A ++ dev.taken ++ U ↔ ∃ p r, req p = some r ∧ r.published = true ∧
    r.chain.head = h ∧ onDisk r.buf = true
  slot : ∀ p r, req p = some r → r.published = false →
    onDisk r.buf = true ∧ d.avail.ring (d.avail.idx.toNat % NUM) = r.chain.head
  status : ∀ h ∈ U, (d.info h).status = 0 ∧ served h = true
  done : ∀ p r, req p = some r → onDisk r.buf = false → served r.chain.head = true

namespace Core

variable {d : Disk} {dev : Device} {onDisk : Buf → Bool} {req : Pid → Option Request}
  {served : Nat → Bool} {L : List Pid} {A U : List Nat} {p q : Pid} {r r' : Request}
  (hc : Core d dev onDisk req served L A U)
include hc

theorem mem_of (hp : req p = some r) : p ∈ L := by
  rw [hc.mem, hp]
  exact Option.some_ne_none r

theorem chain_mem (hp : req p = some r) {i : Nat} (hi : i ∈ r.chain.toList) :
    i ∈ L.flatMap (chainOf req) := by
  rw [List.mem_flatMap]
  exact ⟨p, hc.mem_of hp, by rw [chainOf, hp]; exact hi⟩

/-- The descriptors of a chain are distinct, and used. -/
theorem chain (hp : req p = some r) :
    r.chain.toList.Nodup ∧ ∀ i ∈ r.chain.toList, i < NUM ∧ d.free i = false := by
  refine ⟨?_, fun i hi => hc.tiles.mem (hc.chain_mem hp hi)⟩
  have hnodup := (List.nodup_flatMap.mp hc.tiles.nodup).1 p (hc.mem_of hp)
  rw [chainOf, hp] at hnodup
  exact hnodup

/-- Chains of different processes are disjoint. -/
theorem disjoint (hp : req p = some r) (hq : req q = some r') {i : Nat}
    (hi : i ∈ r.chain.toList) (hi' : i ∈ r'.chain.toList) : p = q := by
  by_contra hne
  have hpair := (List.nodup_flatMap.mp hc.tiles.nodup).2
  have : Std.Symm (onFun List.Disjoint (chainOf req)) := ⟨fun _ _ h _ ha hb => h hb ha⟩
  have hdisj : List.Disjoint (chainOf req p) (chainOf req q) :=
    hpair.forall (hc.mem_of hp) (hc.mem_of hq) hne
  rw [chainOf, chainOf, hp, hq] at hdisj
  exact hdisj hi hi'

omit hc in
/-- Requests with different values belong to different processes. -/
theorem ne_of {f : Request → Bool} (hp : req p = some r) (hq : req q = some r')
    (hne : f r' ≠ f r) : q ≠ p := by
  rintro rfl
  rw [hp] at hq
  cases hq
  exact hne rfl

/-- A request is known by its head. -/
theorem head_inj (hp : req p = some r) (hq : req q = some r') (hhead : r.chain.head = r'.chain.head) :
    p = q := by
  apply hc.disjoint hp hq (i := r.chain.head)
  · simp [Chain.toList]
  · simp [Chain.toList, hhead]

/-- The heads on their way are descriptors in use. -/
theorem head_used {h : Nat} (hh : h ∈ A ++ dev.taken ++ U) : h < NUM ∧ d.free h = false := by
  obtain ⟨p, r, hp, -, rfl, -⟩ := (hc.heads h).mp hh
  exact (hc.chain hp).2 _ (by simp [Chain.toList])

/-- There is room in a ring for a head that is not on its way. -/
theorem room {xs : List Nat} {h : Nat} (hsub : xs.Sublist (A ++ dev.taken ++ U)) (hnot : h ∉ xs)
    (hlt : h < NUM) : xs.length < NUM := by
  apply length_lt (hc.once.sublist hsub) hnot
  intro x hx
  rcases hx with rfl | hx
  · exact hlt
  · exact (hc.head_used (hsub.mem hx)).1

omit hc in
/-- The chains of the processes whose requests do not change. -/
theorem flatMap_congr {req' : Pid → Option Request} {L : List Pid}
    (hsame : ∀ q ∈ L, req' q = req q) : L.flatMap (chainOf req') = L.flatMap (chainOf req) := by
  apply List.flatMap_congr
  intro q hq
  rw [chainOf, chainOf, hsame q hq]

variable {c : Chain} {b : Buf} {rest : List Nat}

/-- A free descriptor is in no chain. -/
theorem not_free (hp : req p = some r) {i : Nat} (hi : i ∈ r.chain.toList)
    (hfree : ∀ i ∈ c.toList, d.free i = true) : i ∉ c.toList := by
  intro hmem
  have hused := ((hc.chain hp).2 i hi).2
  rw [hfree i hmem] at hused
  cases hused

/-- The free descriptors change. -/
theorem desc {desc : Nat → Desc} (hdesc : ∀ i, d.free i = false → desc i = d.desc i) :
    Core { d with desc := desc } dev onDisk req served L A U := by
  refine { hc with formatted := ?_ }
  intro q r hq
  refine (hc.formatted q r hq).congr ?_ rfl
  intro i hi
  exact hdesc i ((hc.chain hq).2 i hi).2

/-- A request is formatted. -/
theorem alloc {blockno : UInt32} {write : Bool} (hp : req p = none)
    (hbuf : ∀ q r, req q = some r → r.buf ≠ b) (hpub : ∀ q r, req q = some r → r.published = true)
    (hnodup : c.toList.Nodup) (hlt : ∀ i ∈ c.toList, i < NUM)
    (hfree : ∀ i ∈ c.toList, d.free i = true) :
    Core (Disk.format { d with free := c.set d.free false } b blockno write c) dev
      (update onDisk b true) (update req p (some ⟨b, c, false⟩))
      (update served c.head false) (p :: L) A U := by
  have hpL : p ∉ L := by
    rw [hc.mem]
    exact not_not.mpr hp
  have hhead : c.head ∈ c.toList := by simp [Chain.toList]
  have hflag : ∀ {q r}, req q = some r → update onDisk b true r.buf = onDisk r.buf :=
    fun hq => update_of_ne (hbuf _ _ hq) _ _
  have hne : ∀ {q r}, req q = some r → r.chain.head ≠ c.head := by
    intro q r hq heq
    exact hc.not_free hq (by simp [Chain.toList]) hfree (heq ▸ hhead)
  constructor
  case nodup => exact List.nodup_cons.mpr ⟨hpL, hc.nodup⟩
  case mem =>
    intro q
    rw [List.mem_cons]
    by_cases hqp : q = p
    · subst hqp
      simp
    · rw [update_of_ne hqp, ← hc.mem]
      simp [hqp]
  case tiles =>
    have hsame : ∀ q ∈ L, update req p (some ⟨b, c, false⟩) q = req q := by
      intro q hq
      apply update_of_ne
      rintro rfl
      exact hpL hq
    rw [List.flatMap_cons, flatMap_congr hsame, chainOf, update_self]
    exact hc.tiles.alloc hnodup hlt hfree
  case formatted =>
    intro q r hq
    rcases update_eq_some hq with ⟨rfl, ⟨⟩⟩ | ⟨hqp, hq⟩
    · exact formatted_format hnodup b blockno write
    · apply (hc.formatted q r hq).congr
      · intro i hi
        have hnot := hc.not_free hq hi hfree
        simp only [Chain.toList, List.mem_cons, List.not_mem_nil, or_false, not_or] at hnot
        simp only [Disk.format, update_of_ne hnot.1, update_of_ne hnot.2.1,
          update_of_ne hnot.2.2]
      · simp only [Disk.format, update_of_ne (hne hq)]
  case bufs =>
    intro q q' r r' hq hq' heq
    rcases update_eq_some hq with ⟨rfl, ⟨⟩⟩ | ⟨_, hold⟩
    · rcases update_eq_some hq' with ⟨rfl, ⟨⟩⟩ | ⟨_, hold'⟩
      · rfl
      · exact absurd heq.symm (hbuf _ _ hold')
    · rcases update_eq_some hq' with ⟨rfl, ⟨⟩⟩ | ⟨_, hold'⟩
      · exact absurd heq (hbuf _ _ hold)
      · exact hc.bufs q q' r r' hold hold' heq
  case avail =>
    apply hc.avail.store
    apply hc.room (h := c.head) (by simp) _ (hlt _ hhead)
    intro hmem
    have hused := (hc.head_used (h := c.head) (by simp [hmem])).2
    rw [hfree _ hhead] at hused
    cases hused
  case used => exact hc.used
  case once => exact hc.once
  case heads =>
    intro h
    rw [hc.heads]
    constructor
    · rintro ⟨q, r, hq, hpub', rfl, hdisk⟩
      have hqp : q ≠ p := by
        rintro rfl
        rw [hp] at hq
        cases hq
      exact ⟨q, r, by rw [update_of_ne hqp, hq], hpub', rfl, by rw [hflag hq, hdisk]⟩
    · rintro ⟨q, r, hq, hpub', rfl, hdisk⟩
      rcases update_eq_some hq with ⟨rfl, ⟨⟩⟩ | ⟨_, hq⟩
      · cases hpub'
      · exact ⟨q, r, hq, hpub', rfl, by rw [← hflag hq, hdisk]⟩
  case slot =>
    intro q r hq hunpub
    rcases update_eq_some hq with ⟨rfl, ⟨⟩⟩ | ⟨_, hq⟩
    · exact ⟨update_self _ _ _, update_self _ _ _⟩
    · rw [hpub q r hq] at hunpub
      cases hunpub
  case status =>
    intro h hh
    have hne' : h ≠ c.head := by
      rintro rfl
      have hused := (hc.head_used (h := c.head) (by simp [hh])).2
      rw [hfree _ hhead] at hused
      cases hused
    simp only [Disk.format, update_of_ne hne']
    exact hc.status h hh
  case done =>
    intro q r hq hdisk
    rcases update_eq_some hq with ⟨rfl, ⟨⟩⟩ | ⟨_, hq⟩
    · rw [update_self] at hdisk
      cases hdisk
    · rw [hflag hq] at hdisk
      rw [update_of_ne (hne hq)]
      exact hc.done q r hq hdisk

/-- The device can see the request. -/
theorem publish (hp : req p = some ⟨b, c, false⟩) :
    Core { d with avail := { d.avail with idx := d.avail.idx + 1 } } dev onDisk
      (update req p (some ⟨b, c, true⟩)) served L (A ++ [c.head]) U := by
  have hhead : c.head ∈ c.toList := by simp [Chain.toList]
  obtain ⟨hflag, hslot⟩ := hc.slot p _ hp rfl
  -- the head is not on its way yet
  have hnot : c.head ∉ A ++ dev.taken ++ U := by
    intro hmem
    obtain ⟨q, r, hq, hpub, hhead', -⟩ := (hc.heads _).mp hmem
    exact ne_of (f := Request.published) hp hq (by simp [hpub]) (hc.head_inj hq hp hhead')
  -- nothing but `published` changes
  have hold : ∀ {q r}, update req p (some ⟨b, c, true⟩) q = some r →
      ∃ r0, req q = some r0 ∧ r0.buf = r.buf ∧ r0.chain = r.chain := by
    intro q r hq
    rcases update_eq_some hq with ⟨rfl, ⟨⟩⟩ | ⟨_, hq⟩
    · exact ⟨_, hp, rfl, rfl⟩
    · exact ⟨r, hq, rfl, rfl⟩
  refine { hc with
    mem := ?mem, tiles := ?tiles, formatted := ?formatted, bufs := ?bufs, avail := ?avail,
    once := ?once, heads := ?heads, slot := ?slot, done := ?done }
  case mem =>
    intro q
    rw [hc.mem]
    by_cases hqp : q = p
    · subst hqp
      simp [hp]
    · rw [update_of_ne hqp]
  case tiles =>
    have hchain : chainOf (update req p (some ⟨b, c, true⟩)) = chainOf req := by
      funext q
      by_cases hqp : q = p
      · subst hqp
        rw [chainOf, chainOf, update_self, hp]
      · rw [chainOf, chainOf, update_of_ne hqp]
    rw [hchain]
    exact hc.tiles
  case formatted =>
    intro q r hq
    obtain ⟨r0, hq0, hbuf, hchain⟩ := hold hq
    rw [← hbuf, ← hchain]
    exact (hc.formatted q r0 hq0).congr (fun _ _ => rfl) rfl
  case bufs =>
    intro q q' r r' hq hq' heq
    obtain ⟨r0, hq0, hbuf, -⟩ := hold hq
    obtain ⟨r0', hq0', hbuf', -⟩ := hold hq'
    exact hc.bufs q q' r0 r0' hq0 hq0' (by rw [hbuf, hbuf', heq])
  case avail =>
    apply hc.avail.push _ hslot
    apply hc.room (h := c.head) (by simp) _ ((hc.chain hp).2 _ hhead).1
    intro hmem
    exact hnot (by simp [hmem])
  case once =>
    have hperm : (A ++ [c.head] ++ dev.taken ++ U).Perm (c.head :: (A ++ dev.taken ++ U)) := by
      simp only [List.append_assoc, List.singleton_append]
      exact List.perm_middle
    exact hperm.nodup_iff.mpr (List.nodup_cons.mpr ⟨hnot, hc.once⟩)
  case heads =>
    intro h
    have hmem : h ∈ A ++ [c.head] ++ dev.taken ++ U ↔ h = c.head ∨ h ∈ A ++ dev.taken ++ U := by
      simp only [List.mem_append, List.mem_singleton]
      tauto
    rw [hmem, hc.heads]
    constructor
    · rintro (rfl | ⟨q, r, hq, hpub, rfl, hdisk⟩)
      · exact ⟨p, _, update_self _ _ _, rfl, rfl, hflag⟩
      · have hqp : q ≠ p := ne_of (f := Request.published) hp hq (by simp [hpub])
        exact ⟨q, r, by rw [update_of_ne hqp, hq], hpub, rfl, hdisk⟩
    · rintro ⟨q, r, hq, hpub, rfl, hdisk⟩
      rcases update_eq_some hq with ⟨rfl, ⟨⟩⟩ | ⟨_, hq⟩
      · exact Or.inl rfl
      · exact Or.inr ⟨q, r, hq, hpub, rfl, hdisk⟩
  case slot =>
    -- the slot has room for one head only
    intro q r hq hunpub
    rcases update_eq_some hq with ⟨rfl, ⟨⟩⟩ | ⟨hqp, hq⟩
    · cases hunpub
    · exact absurd (hc.head_inj hq hp ((hc.slot q r hq hunpub).2.symm.trans hslot)) hqp
  case done =>
    intro q r hq hdisk
    obtain ⟨r0, hq0, hbuf, hchain⟩ := hold hq
    rw [← hchain]
    exact hc.done q r0 hq0 (by rw [hbuf, hdisk])

/-- A request that has been through all is taken back. -/
theorem free (hp : req p = some ⟨b, c, true⟩) (hdisk : onDisk b = false) : Core { d with
      info := update d.info c.head { d.info c.head with b := none }
      desc := c.set d.desc ⟨.zero, 0, 0, 0⟩
      free := c.set d.free true } dev onDisk (update req p none) served (L.erase p) A U := by
  have hpL := hc.mem_of hp
  have hhead : c.head ∈ c.toList := by simp [Chain.toList]
  have hperm := List.perm_cons_erase hpL
  -- the descriptors of the others
  have hother : ∀ {q r}, q ≠ p → req q = some r → ∀ i ∈ r.chain.toList, i ∉ c.toList := by
    intro q r hqp hq i hi hi'
    exact hqp (hc.disjoint hq hp hi hi')
  have hne : ∀ {q r}, q ≠ p → req q = some r → r.chain.head ≠ c.head := by
    intro q r hqp hq heq
    exact hqp (hc.head_inj hq hp heq)
  refine { hc with
    nodup := hc.nodup.erase p, mem := ?mem, tiles := ?tiles, formatted := ?formatted,
    bufs := ?bufs, heads := ?heads, slot := ?slot, status := ?status, done := ?done }
  case mem =>
    intro q
    rw [hc.nodup.mem_erase_iff, hc.mem]
    by_cases hqp : q = p
    · subst hqp
      simp
    · simp [hqp]
  case tiles =>
    have hsame : ∀ q ∈ L.erase p, update req p none q = req q := by
      intro q hq
      exact update_of_ne (hc.nodup.mem_erase_iff.mp hq).1 _ _
    rw [flatMap_congr hsame]
    apply Tiles.free_chain
    have hflat := hperm.flatMap_right (chainOf req)
    rw [List.flatMap_cons, chainOf, hp] at hflat
    exact (hflat.symm.append_right _).trans hc.tiles
  case formatted =>
    intro q r hq
    rcases update_eq_some hq with ⟨_, ⟨⟩⟩ | ⟨hqp, hq⟩
    apply (hc.formatted q r hq).congr
    · intro i hi
      exact Chain.set_of_not_mem (hother hqp hq i hi)
    · simp only [update_of_ne (hne hqp hq)]
  case bufs =>
    intro q q' r r' hq hq' heq
    rcases update_eq_some hq with ⟨_, ⟨⟩⟩ | ⟨_, hq⟩
    rcases update_eq_some hq' with ⟨_, ⟨⟩⟩ | ⟨_, hq'⟩
    exact hc.bufs q q' r r' hq hq' heq
  case heads =>
    intro h
    rw [hc.heads]
    constructor
    · rintro ⟨q, r, hq, hpub, rfl, hflag⟩
      have hqp : q ≠ p := ne_of (f := fun r => onDisk r.buf) hp hq (by simp [hdisk, hflag])
      exact ⟨q, r, by rw [update_of_ne hqp, hq], hpub, rfl, hflag⟩
    · rintro ⟨q, r, hq, hpub, rfl, hflag⟩
      rcases update_eq_some hq with ⟨_, ⟨⟩⟩ | ⟨_, hq⟩
      exact ⟨q, r, hq, hpub, rfl, hflag⟩
  case slot =>
    intro q r hq hunpub
    rcases update_eq_some hq with ⟨_, ⟨⟩⟩ | ⟨_, hq⟩
    exact hc.slot q r hq hunpub
  case status =>
    intro h hh
    obtain ⟨q, r, hq, -, rfl, hflag⟩ := (hc.heads h).mp (by simp [hh])
    have hqp : q ≠ p := ne_of (f := fun r => onDisk r.buf) hp hq (by simp [hdisk, hflag])
    simp only [update_of_ne (hne hqp hq)]
    exact hc.status _ hh
  case done =>
    intro q r hq hflag
    rcases update_eq_some hq with ⟨_, ⟨⟩⟩ | ⟨_, hq⟩
    exact hc.done q r hq hflag

/-- The first entry of the used ring is the head of a request with its flag
set. -/
theorem first {h : Nat} (hU : U = h :: rest) : ∃ p r, req p = some r ∧
    r.published = true ∧ r.chain.head = h ∧ onDisk r.buf = true ∧ (d.info h).b = some r.buf ∧
    (d.info h).status = 0 := by
  obtain ⟨p, r, hp, hpub, rfl, hflag⟩ := (hc.heads h).mp (by simp [hU])
  exact ⟨p, r, hp, hpub, rfl, hflag, (hc.formatted p r hp).buf, (hc.status _ (by simp [hU])).1⟩

/-- The interrupt handler clears the flag of the request that is first in the
used ring. -/
theorem intr (hp : req p = some r) (hpub : r.published = true) (hU : U = r.chain.head :: rest)
    (hrest : Window d.used.ring (d.usedIdx + 1) d.used.idx rest) :
    Core { d with usedIdx := d.usedIdx + 1 } dev (update onDisk r.buf false) req served L
      A rest := by
  have hother : ∀ {q r'}, q ≠ p → req q = some r' →
      update onDisk r.buf false r'.buf = onDisk r'.buf := by
    intro q r' hqp hq
    apply update_of_ne
    intro heq
    exact hqp (hc.bufs q p r' r hq hp heq)
  have honce := hc.once
  rw [hU] at honce
  have hperm : (A ++ dev.taken ++ r.chain.head :: rest).Perm
      (r.chain.head :: (A ++ dev.taken ++ rest)) := List.perm_middle
  obtain ⟨hnot, hnodup⟩ := List.nodup_cons.mp (hperm.nodup_iff.mp honce)
  refine { hc with
    formatted := ?formatted, used := hrest, once := hnodup, heads := ?heads, slot := ?slot,
    status := ?status, done := ?done }
  case formatted =>
    intro q r' hq
    exact (hc.formatted q r' hq).congr (fun _ _ => rfl) rfl
  case heads =>
    intro h
    have hmem : h ∈ A ++ dev.taken ++ U ↔ h = r.chain.head ∨ h ∈ A ++ dev.taken ++ rest := by
      rw [hU, hperm.mem_iff, List.mem_cons]
    constructor
    · intro hh
      obtain ⟨q, r', hq, hpub', rfl, hflag⟩ := (hc.heads h).mp (hmem.mpr (Or.inr hh))
      have hqp : q ≠ p := by
        rintro rfl
        rw [hp] at hq
        obtain rfl := Option.some.inj hq
        exact hnot hh
      exact ⟨q, r', hq, hpub', rfl, by rw [hother hqp hq, hflag]⟩
    · rintro ⟨q, r', hq, hpub', rfl, hflag⟩
      have hqp : q ≠ p :=
        ne_of (f := fun r' => update onDisk r.buf false r'.buf) hp hq (by simp [hflag])
      rw [hother hqp hq] at hflag
      have hh := hmem.mp ((hc.heads _).mpr ⟨q, r', hq, hpub', rfl, hflag⟩)
      exact hh.resolve_left (fun heq => hqp (hc.head_inj hq hp heq))
  case slot =>
    intro q r' hq hunpub
    rw [hother (ne_of (f := Request.published) hp hq (by simp [hpub, hunpub])) hq]
    exact hc.slot q r' hq hunpub
  case status =>
    intro h hh
    exact hc.status h (by rw [hU]; exact List.mem_cons_of_mem _ hh)
  case done =>
    intro q r' hq hflag
    by_cases hqp : q = p
    · subst hqp
      rw [hp] at hq
      obtain rfl := Option.some.inj hq
      exact (hc.status _ (by simp [hU])).2
    · rw [hother hqp hq] at hflag
      exact hc.done q r' hq hflag

/-- The device takes the first head of the available ring. -/
theorem take {h : Nat} (hA : A = h :: rest)
    (hrest : Window d.avail.ring (dev.availIdx + 1) d.avail.idx rest) :
    Core d ⟨dev.availIdx + 1, dev.taken ++ [h]⟩ onDisk req served L rest U := by
  have hperm : (rest ++ (dev.taken ++ [h]) ++ U).Perm (A ++ dev.taken ++ U) := by
    rw [hA]
    simp only [List.append_assoc, List.cons_append, List.nil_append]
    rw [← List.append_assoc rest, ← List.append_assoc rest]
    exact List.perm_middle
  refine { hc with avail := hrest, once := hperm.nodup_iff.mpr hc.once, heads := ?_ }
  intro x
  rw [hperm.mem_iff]
  exact hc.heads x

/-- The status byte that the device writes is the one of the request. -/
theorem writeStatus {h : Nat} (hh : h ∈ A ++ dev.taken ++ U) :
    d.writeStatus h =
      { d with info := update d.info h { d.info h with status := 0 } } := by
  obtain ⟨p, r, hp, -, rfl, -⟩ := (hc.heads h).mp hh
  have hf := hc.formatted p r hp
  rw [Disk.writeStatus, hf.head.2, hf.data.2, hf.status.2]

/-- The device completes a request. -/
theorem complete {h : Nat} (htaken : h ∈ dev.taken) :
    Core { d with
      info := update d.info h { d.info h with status := 0 }
      used := ⟨update d.used.ring (d.used.idx.toNat % NUM) h, d.used.idx + 1⟩ }
      { dev with taken := dev.taken.erase h } onDisk req
      (update served h true) L A (U ++ [h]) := by
  have hperm : (A ++ dev.taken.erase h ++ (U ++ [h])).Perm
      (A ++ dev.taken ++ U) := by
    have htake := (List.perm_cons_erase htaken).symm
    rw [← List.append_assoc]
    refine (List.perm_append_singleton _ _).trans ?_
    rw [List.append_assoc, List.append_assoc]
    exact List.perm_middle.symm.trans ((htake.append_right U).append_left A)
  have hnot : h ∉ U := by
    intro hmem
    exact (List.nodup_append.mp hc.once).2.2 _ (by simp [htaken]) _ hmem rfl
  have hlt := (hc.head_used (h := h) (by simp [htaken])).1
  have hroom : U.length < NUM := hc.room (by simp) hnot hlt
  refine { hc with
    formatted := ?formatted, used := (hc.used.store hroom _).push hroom (update_self _ _ _),
    once := hperm.nodup_iff.mpr hc.once, heads := ?heads, status := ?status, done := ?done }
  case formatted =>
    intro q r' hq
    refine (hc.formatted q r' hq).congr ?_ ?_
    · exact fun _ _ => rfl
    · dsimp only
      by_cases hhead : r'.chain.head = h
      · rw [hhead, update_self]
      · rw [update_of_ne hhead]
  case heads =>
    intro x
    rw [hperm.mem_iff]
    exact hc.heads x
  case status =>
    intro x hx
    dsimp only
    by_cases hhead : x = h
    · rw [hhead, update_self, update_self]
      exact ⟨rfl, rfl⟩
    · rw [update_of_ne hhead, update_of_ne hhead]
      rw [List.mem_append, List.mem_singleton] at hx
      exact hc.status x (hx.resolve_right hhead)
  case done =>
    intro q r' hq hflag
    by_cases hhead : r'.chain.head = h
    · rw [hhead, update_self]
    · rw [update_of_ne hhead]
      exact hc.done q r' hq hflag

end Core

end Xv6.Virtio
