import Xv6.Cache.List

/-!
# Runs of the buffer cache

`Sound` is the invariant: the list of the buffers is sorted by the last time
at which `brelse` dropped a buffer to 0, no block is in two buffers, and
`refcnt` counts the references.  There is one lemma for each critical section.
-/

namespace Xv6.Cache

open Xv6.Lib Function

variable {s s' : Sys} {h : History} {order : List Nat} {p : Pid} {b : Nat}

/-- Buffer `b` was dropped to 0 before buffer `a`.  The buffers that have never
been dropped to 0 are the oldest, in the order of `bcache.buf`. -/
def Older (h : History) (b a : Nat) : Prop :=
  h.last b < h.last a ∨ h.last b = 0 ∧ h.last a = 0 ∧ b < a

/-- No block is in two buffers. -/
def Distinct (c : Bcache) : Prop :=
  ∀ a b, a < NBUF → b < NBUF → c.dev a ≠ 0 → c.dev a = c.dev b → c.blockno a = c.blockno b → a = b

/-- The references of a process to a buffer, by the owner of the lock and the
place of the process. -/
def refsAt (owner : Option Pid) (p : Pid) (pc : Pc) (b : Nat) : Nat :=
  (if owner = some p then 1 else 0) + (if pc = .acquire b then 1 else 0) +
    (if pc = .release b then 1 else 0)

def Sys.uses (s : Sys) (p : Pid) (b : Nat) : Nat := refsAt (s.lock b) p (s.pc p) b

structure Sound (s : Sys) (h : History) (order : List Nat) : Prop where
  chained : Chained s.cache order
  sorted : order.Pairwise (fun a b => Older h b a)
  last_le : ∀ b, h.last b ≤ h.drops
  distinct : Distinct s.cache
  count : ∀ b < NBUF, (s.cache.refcnt b).toNat = h.holds b + h.pins b
  refs : ∀ p b, h.refs.count (p, b) = s.uses p b
  inside : ∀ r ∈ h.refs, r.2 < NBUF
  pinned : ∀ b, 0 < h.pins b → b < NBUF

/-! ## References -/

theorem toNat_succ {n : UInt32} (hn : n.toNat + 1 < 2 ^ 32) : (n + 1).toNat = n.toNat + 1 := by
  rw [UInt32.toNat_add]
  exact Nat.mod_eq_of_lt hn

theorem toNat_pred {n : UInt32} (hn : 0 < n.toNat) : (n - 1).toNat = n.toNat - 1 := by
  have hle : (1 : UInt32) ≤ n := hn
  rw [UInt32.toNat_sub_of_le _ _ hle]
  rfl

theorem holds_cons (h : History) (p : Pid) (a b : Nat) :
    { h with refs := (p, b) :: h.refs }.holds a = h.holds a + if a = b then 1 else 0 := by
  rw [History.holds, List.countP_cons]
  simp only [beq_iff_eq, History.holds, eq_comm (a := a)]

theorem holds_erase {h : History} (hmem : (p, b) ∈ h.refs) (a : Nat) :
    h.holds a = { h with refs := h.refs.erase (p, b) }.holds a + if a = b then 1 else 0 := by
  rw [← holds_cons _ p a b]
  exact (List.perm_cons_erase hmem).countP_eq _

theorem uses_setPc_self (s : Sys) (p : Pid) (pc : Pc) (a : Nat) :
    (s.setPc p pc).uses p a = refsAt (s.lock a) p pc a := by
  simp only [Sys.uses, Sys.setPc, update_self]

theorem uses_setPc_of_ne (s : Sys) {p q : Pid} (hq : q ≠ p) (pc : Pc) (a : Nat) :
    (s.setPc p pc).uses q a = s.uses q a := by
  simp only [Sys.uses, Sys.setPc, update_of_ne hq]

/-- A block that is in no buffer gets one. -/
theorem Distinct.recycle {c : Bcache} {dev blockno : UInt32} (hc : Distinct c)
    (hmiss : ∀ a < NBUF, c.caches dev blockno a = false) {valid : Nat → Bool}
    {refcnt : Nat → UInt32} :
    Distinct { c with
      dev := update c.dev b dev
      blockno := update c.blockno b blockno
      valid := valid
      refcnt := refcnt } := by
  have hne : ∀ a < NBUF, ¬ (c.dev a = dev ∧ c.blockno a = blockno) := by
    intro a ha
    have hfalse := hmiss a ha
    simpa [Bcache.caches] using hfalse
  intro a a' ha ha' hdev heq heq'
  dsimp only at hdev heq heq'
  by_cases hab : a = b
  · by_cases hab' : a' = b
    · rw [hab, hab']
    · rw [hab, update_self, update_of_ne hab'] at heq heq'
      exact absurd ⟨heq.symm, heq'.symm⟩ (hne a' ha')
  · rw [update_of_ne hab] at hdev heq heq'
    by_cases hab' : a' = b
    · rw [hab', update_self] at heq heq'
      exact absurd ⟨heq, heq'⟩ (hne a ha)
    · rw [update_of_ne hab'] at heq heq'
      exact hc a a' ha ha' hdev heq heq'

/-! ## The steps -/

namespace Sound

/-- `bget` returns a reference to buffer `b`. -/
theorem got (hs : Sound s h order) (hpc : s.pc p = .idle) (hb : b < NBUF) {c : Bcache}
    (hnext : c.next = s.cache.next) (hprev : c.prev = s.cache.prev) (hdistinct : Distinct c)
    (hcount : ∀ a < NBUF, (c.refcnt a).toNat = h.holds a + h.pins a + if a = b then 1 else 0) :
    Sound ({ s with cache := c }.setPc p (.acquire b)) { h with refs := (p, b) :: h.refs }
      order := by
  constructor
  case chained => exact hs.chained.congr hnext hprev
  case sorted => exact hs.sorted
  case last_le => exact hs.last_le
  case distinct => exact hdistinct
  case count =>
    intro a ha
    rw [holds_cons, Nat.add_right_comm]
    exact hcount a ha
  case refs =>
    intro q a
    rw [List.count_cons, hs.refs]
    by_cases hq : q = p
    · subst hq
      rw [uses_setPc_self, Sys.uses, hpc]
      by_cases hab : b = a <;> simp [refsAt, hab]
    · rw [uses_setPc_of_ne _ hq]
      simp [Sys.uses, Ne.symm hq]
  case inside =>
    intro r hr
    rcases List.mem_cons.mp hr with rfl | hr
    · exact hb
    · exact hs.inside r hr
  case pinned => exact hs.pinned

theorem bget (hs : Sound s h order) (hpc : s.pc p = .idle) {dev blockno : UInt32}
    (hroom : ∀ b < NBUF, h.holds b + h.pins b + 1 < 2 ^ 32) {r : Except String (Nat × Bcache)}
    (hr : Bget s.cache dev blockno order r) :
    Sound (s.enter p r) (h.record s (.bget p dev blockno) (s.enter p r)) order := by
  have hrecord : ∀ b c, h.record s (.bget p dev blockno) (s.enter p (.ok (b, c))) =
      { h with refs := (p, b) :: h.refs } := by
    intro b c
    simp only [History.record, Sys.enter, Sys.setPc, update_self]
  cases hr with
  | hit b hb hcached =>
    rw [hrecord]
    refine hs.got hpc hb rfl rfl hs.distinct ?_
    intro a ha
    have hcount := hs.count a ha
    have hlt := hroom a ha
    dsimp only
    by_cases hab : a = b
    · subst hab
      rw [update_self, if_pos rfl, toNat_succ (by omega), hcount]
    · rw [update_of_ne hab, if_neg hab, hcount, Nat.add_zero]
  | recycle l1 l2 b hmiss horder hzero hused =>
    have hb : b < NBUF := hs.chained.mem_iff.mp (by simp [horder])
    rw [hrecord]
    refine hs.got hpc hb rfl rfl ?_ ?_
    · exact hs.distinct.recycle hmiss
    · intro a ha
      have hcount := hs.count a ha
      dsimp only
      by_cases hab : a = b
      · subst hab
        rw [hzero] at hcount
        rw [update_self, if_pos rfl, ← hcount]
        rfl
      · rw [update_of_ne hab, if_neg hab, hcount, Nat.add_zero]
  | full hmiss hused =>
    have hsame : h.record s (.bget p dev blockno) (s.enter p (.error "bget: no buffers")) = h := by
      simp only [History.record, Sys.enter, hpc]
    rw [hsame]
    exact ⟨hs.chained, hs.sorted, hs.last_le, hs.distinct, hs.count, hs.refs, hs.inside, hs.pinned⟩

/-- `acquiresleep` returns: the process that waits is now the owner. -/
theorem acquire (hs : Sound s h order) (hpc : s.pc p = .acquire b) (hlock : s.lock b = none) :
    Sound ({ s with lock := update s.lock b (some p) }.setPc p .idle) h order := by
  refine ⟨hs.chained, hs.sorted, hs.last_le, hs.distinct, hs.count, ?_, hs.inside, hs.pinned⟩
  intro q a
  rw [hs.refs]
  by_cases hab : a = b
  · subst hab
    by_cases hq : q = p
    · subst hq
      rw [uses_setPc_self, Sys.uses, hpc, hlock]
      simp [refsAt]
    · rw [uses_setPc_of_ne _ hq]
      simp [Sys.uses, refsAt, hlock, Ne.symm hq]
  · by_cases hq : q = p
    · subst hq
      rw [uses_setPc_self, Sys.uses, hpc]
      simp [refsAt, hab, Ne.symm hab]
    · rw [uses_setPc_of_ne _ hq]
      simp [Sys.uses, hab]

/-- `releasesleep`: the owner goes on without the lock. -/
theorem brelse (hs : Sound s h order) (hpc : s.pc p = .idle) (hlock : s.lock b = some p) :
    Sound ({ s with lock := update s.lock b none }.setPc p (.release b)) h order := by
  refine ⟨hs.chained, hs.sorted, hs.last_le, hs.distinct, hs.count, ?_, hs.inside, hs.pinned⟩
  intro q a
  rw [hs.refs]
  by_cases hab : a = b
  · subst hab
    by_cases hq : q = p
    · subst hq
      rw [uses_setPc_self, Sys.uses, hpc, hlock]
      simp [refsAt]
    · rw [uses_setPc_of_ne _ hq]
      simp [Sys.uses, refsAt, hlock, Ne.symm hq]
  · by_cases hq : q = p
    · subst hq
      rw [uses_setPc_self, Sys.uses, hpc]
      simp [refsAt, hab, Ne.symm hab]
    · rw [uses_setPc_of_ne _ hq]
      simp [Sys.uses, hab]

/-- The reference that `brelse` gives back. -/
theorem mem_refs (hs : Sound s h order) (hpc : s.pc p = .release b) : (p, b) ∈ h.refs := by
  rw [← List.count_pos_iff, hs.refs]
  simp [Sys.uses, refsAt, hpc]

/-- The counts after one reference to `b` has gone. -/
theorem unref {h' : History} (hs : Sound s h order)
    (hcount : ∀ a < NBUF, h.holds a + h.pins a = h'.holds a + h'.pins a + if a = b then 1 else 0)
    {a : Nat} (ha : a < NBUF) :
    ((s.cache.unref b).refcnt a).toNat = h'.holds a + h'.pins a := by
  have hold := (hs.count a ha).trans (hcount a ha)
  by_cases hab : a = b
  · subst hab
    rw [if_pos rfl] at hold
    simp only [Bcache.unref, update_self]
    rw [toNat_pred (by omega), hold]
    rfl
  · rw [if_neg hab] at hold
    simp only [Bcache.unref, update_of_ne hab]
    exact hold

/-- A buffer that is dropped to 0 is the newest one. -/
theorem sorted_drop {l1 l2 : List Nat} {refs : List (Pid × Nat)}
    (hs : Sound s h (l1 ++ b :: l2)) :
    (b :: (l1 ++ l2)).Pairwise (fun a a' => Older { h with
      refs := refs
      drops := h.drops + 1
      last := update h.last b (h.drops + 1) } a' a) := by
  have hnot : b ∉ l1 ++ l2 := by
    have hnodup := hs.chained.nodup
    rw [List.nodup_middle, List.nodup_cons] at hnodup
    exact hnodup.1
  refine List.pairwise_cons.mpr ⟨?_, ?_⟩
  · intro a ha
    left
    dsimp only
    rw [update_self, update_of_ne (ne_of_mem_of_not_mem ha hnot)]
    exact Nat.lt_succ_of_le (hs.last_le a)
  · have hold := hs.sorted.sublist ((List.sublist_cons_self b l2).append_left l1)
    refine hold.imp_of_mem ?_
    intro a a' ha ha' holder
    unfold Older
    dsimp only
    rw [update_of_ne (ne_of_mem_of_not_mem ha hnot),
      update_of_ne (ne_of_mem_of_not_mem ha' hnot)]
    exact holder

/-- The rest of `brelse`. -/
theorem drop (hs : Sound s h order) (hpc : s.pc p = .release b) :
    ∃ order', Sound ({ s with cache := s.cache.drop b }.setPc p .idle)
      (if (s.cache.drop b).refcnt b = 0 then
        { h with
          refs := h.refs.erase (p, b)
          drops := h.drops + 1
          last := update h.last b (h.drops + 1) }
      else { h with refs := h.refs.erase (p, b) }) order' := by
  have hmem := hs.mem_refs hpc
  have hb : b < NBUF := hs.inside _ hmem
  have hcount : ∀ a < NBUF, ((s.cache.unref b).refcnt a).toNat =
      { h with refs := h.refs.erase (p, b) }.holds a + h.pins a := by
    apply hs.unref
    intro a _
    rw [holds_erase hmem a, Nat.add_right_comm]
  have hrefs : ∀ q a, (h.refs.erase (p, b)).count (q, a) =
      Sys.uses ({ s with cache := s.cache.drop b }.setPc p .idle) q a := by
    intro q a
    rw [List.count_erase, hs.refs]
    by_cases hq : q = p
    · subst hq
      rw [uses_setPc_self, Sys.uses, hpc]
      by_cases hab : b = a <;> simp [refsAt, hab]
    · rw [uses_setPc_of_ne _ hq]
      simp [Sys.uses, Ne.symm hq]
  have hinside : ∀ r ∈ h.refs.erase (p, b), r.2 < NBUF :=
    fun r hr => hs.inside r (List.mem_of_mem_erase hr)
  by_cases hzero : (s.cache.unref b).refcnt b = 0
  · have hdrop : s.cache.drop b = ((s.cache.unref b).unlink b).linkFirst b := if_pos hzero
    obtain ⟨l1, l2, rfl⟩ := List.append_of_mem (hs.chained.mem_iff.mpr hb)
    refine ⟨b :: (l1 ++ l2), ?_⟩
    rw [if_pos (by rw [hdrop]; exact hzero)]
    constructor
    case chained =>
      have hunref : Chained (s.cache.unref b) _ := hs.chained.congr rfl rfl
      rw [hdrop]
      exact hunref.move
    case sorted => exact hs.sorted_drop
    case last_le =>
      intro a
      dsimp only
      by_cases hab : a = b
      · exact Nat.le_of_eq (by rw [hab, update_self])
      · rw [update_of_ne hab]
        exact Nat.le_succ_of_le (hs.last_le a)
    case distinct =>
      rw [hdrop]
      exact hs.distinct
    case count =>
      rw [hdrop]
      exact hcount
    case refs => exact hrefs
    case inside => exact hinside
    case pinned => exact hs.pinned
  · have hdrop : s.cache.drop b = s.cache.unref b := if_neg hzero
    refine ⟨order, ?_⟩
    rw [if_neg (by rw [hdrop]; exact hzero)]
    constructor
    case chained =>
      rw [hdrop]
      exact hs.chained.congr rfl rfl
    case sorted => exact hs.sorted
    case last_le => exact hs.last_le
    case distinct =>
      rw [hdrop]
      exact hs.distinct
    case count =>
      rw [hdrop]
      exact hcount
    case refs => exact hrefs
    case inside => exact hinside
    case pinned => exact hs.pinned

theorem bpin (hs : Sound s h order) (hb : b < NBUF)
    (hroom : ∀ b < NBUF, h.holds b + h.pins b + 1 < 2 ^ 32) :
    Sound { s with cache := s.cache.bpin b }
      { h with pins := update h.pins b (h.pins b + 1) } order := by
  refine ⟨hs.chained.congr rfl rfl, hs.sorted, hs.last_le, hs.distinct, ?_, hs.refs, hs.inside, ?_⟩
  · intro a ha
    have hcount := hs.count a ha
    have hlt := hroom a ha
    show (update s.cache.refcnt b (s.cache.refcnt b + 1) a).toNat =
      h.holds a + update h.pins b (h.pins b + 1) a
    by_cases hab : a = b
    · subst hab
      rw [update_self, update_self, toNat_succ (by omega), hcount]
      rfl
    · rw [update_of_ne hab, update_of_ne hab, hcount]
  · intro a ha
    by_cases hab : a = b
    · rw [hab]
      exact hb
    · dsimp only at ha
      rw [update_of_ne hab] at ha
      exact hs.pinned a ha

theorem bunpin (hs : Sound s h order) (hb : 0 < h.pins b) :
    Sound { s with cache := s.cache.bunpin b }
      { h with pins := update h.pins b (h.pins b - 1) } order := by
  refine ⟨hs.chained.congr rfl rfl, hs.sorted, hs.last_le, hs.distinct, ?_, hs.refs, hs.inside, ?_⟩
  · intro a ha
    apply hs.unref _ ha
    intro a' _
    show h.holds a' + h.pins a' =
      h.holds a' + update h.pins b (h.pins b - 1) a' + if a' = b then 1 else 0
    by_cases hab : a' = b
    · subst hab
      rw [update_self, if_pos rfl]
      omega
    · rw [update_of_ne hab, if_neg hab]
      rfl
  · intro a ha
    by_cases hab : a = b
    · rw [hab]
      exact hs.pinned b hb
    · dsimp only at ha
      rw [update_of_ne hab] at ha
      exact hs.pinned a ha

end Sound

/-! ## Runs -/

theorem call_eq_some {t : Option Sys} (hs : s.call p t = some s') :
    s.pc p = .idle ∧ t = some s' := by
  unfold Sys.call at hs
  split at hs
  · exact ⟨‹_›, hs⟩
  · cases hs

theorem Sound.step (hs : Sound s h order) {l : Step} (hok : Balanced (s, h) l) (hroom : Room (s, h) l)
    (hnext : next s l = some s') : ∃ order', Sound s' (h.record s l s') order' := by
  unfold next at hnext
  split at hnext
  · cases hnext
  cases l with
  | bget p dev blockno =>
    obtain ⟨hpc, hnext⟩ := call_eq_some hnext
    obtain ⟨r, hr, hspec⟩ := hs.chained.bget_spec dev blockno
    rw [hr] at hnext
    obtain rfl := Option.some.inj hnext
    exact ⟨order, hs.bget hpc hroom hspec⟩
  | acquire p =>
    dsimp only at hnext
    split at hnext
    · rename_i b hpc
      obtain ⟨hlock, ⟨⟩⟩ := Option.ite_none_right_eq_some.mp hnext
      exact ⟨order, hs.acquire hpc hlock⟩
    · cases hnext
  | fill p b =>
    obtain ⟨-, hnext⟩ := call_eq_some hnext
    obtain ⟨-, ⟨⟩⟩ := Option.ite_none_right_eq_some.mp hnext
    exact ⟨order, hs.chained.congr rfl rfl, hs.sorted, hs.last_le, hs.distinct, hs.count, hs.refs,
      hs.inside, hs.pinned⟩
  | brelse p b =>
    obtain ⟨hpc, hnext⟩ := call_eq_some hnext
    have hlock : s.lock b = some p := hok
    rw [if_pos hlock] at hnext
    obtain rfl := Option.some.inj hnext
    exact ⟨order, hs.brelse hpc hlock⟩
  | drop p =>
    dsimp only at hnext
    split at hnext
    · rename_i b hpc
      obtain rfl := Option.some.inj hnext
      dsimp only [History.record]
      rw [hpc]
      exact hs.drop hpc
    · cases hnext
  | bpin p b =>
    obtain ⟨-, hnext⟩ := call_eq_some hnext
    obtain rfl := Option.some.inj hnext
    exact ⟨order, hs.bpin hok hroom⟩
  | bunpin p b =>
    obtain ⟨-, hnext⟩ := call_eq_some hnext
    obtain rfl := Option.some.inj hnext
    exact ⟨order, hs.bunpin hok⟩

theorem binit_fields (c : Bcache) : c.binit.dev = c.dev ∧ c.binit.refcnt = c.refcnt := by
  have hloop : ∀ (l : List Nat) (c : Bcache), (l.foldl Bcache.linkFirst c).dev = c.dev ∧
      (l.foldl Bcache.linkFirst c).refcnt = c.refcnt := by
    intro l
    induction l with
    | nil => exact fun c => ⟨rfl, rfl⟩
    | cons b l ih => exact fun c => ih (c.linkFirst b)
  exact hloop _ _

theorem Sound.boot : Sound Cache.boot History.start (List.range NBUF).reverse := by
  obtain ⟨hdev, hrefcnt⟩ := binit_fields Bcache.zero
  constructor
  case chained => exact binit_chained
  case sorted =>
    rw [List.pairwise_reverse]
    exact List.pairwise_lt_range.imp (fun hlt => Or.inr ⟨rfl, rfl, hlt⟩)
  case last_le => exact fun _ => Nat.le_refl 0
  case distinct =>
    intro a b _ _ ha
    rw [Cache.boot, hdev] at ha
    exact absurd rfl ha
  case count =>
    intro b _
    rw [Cache.boot, hrefcnt]
    rfl
  case refs => exact fun _ _ => rfl
  case inside => exact fun r hr => absurd hr List.not_mem_nil
  case pinned => exact fun b hb => absurd hb (Nat.lt_irrefl 0)

/-- A buffer with a reference keeps its block. -/
theorem Sound.kept (hs : Sound s h order) {l : Step} (hnext : next s l = some s')
    (hb : s.cache.refcnt b ≠ 0) :
    s'.cache.dev b = s.cache.dev b ∧ s'.cache.blockno b = s.cache.blockno b := by
  unfold next at hnext
  split at hnext
  · cases hnext
  cases l with
  | bget p dev blockno =>
    obtain ⟨hpc, hnext⟩ := call_eq_some hnext
    obtain ⟨r, hr, hspec⟩ := hs.chained.bget_spec dev blockno
    rw [hr] at hnext
    obtain rfl := Option.some.inj hnext
    cases hspec with
    | hit | full => exact ⟨rfl, rfl⟩
    | recycle l1 l2 a hmiss horder hzero hused =>
      have hne : b ≠ a := by
        rintro rfl
        exact hb hzero
      exact ⟨update_of_ne hne _ _, update_of_ne hne _ _⟩
  | acquire p =>
    dsimp only at hnext
    split at hnext
    · obtain ⟨-, ⟨⟩⟩ := Option.ite_none_right_eq_some.mp hnext
      exact ⟨rfl, rfl⟩
    · cases hnext
  | fill p a =>
    obtain ⟨-, hnext⟩ := call_eq_some hnext
    obtain ⟨-, ⟨⟩⟩ := Option.ite_none_right_eq_some.mp hnext
    exact ⟨rfl, rfl⟩
  | brelse p a =>
    obtain ⟨-, hnext⟩ := call_eq_some hnext
    split at hnext
    · obtain rfl := Option.some.inj hnext
      exact ⟨rfl, rfl⟩
    · obtain rfl := Option.some.inj hnext
      exact ⟨rfl, rfl⟩
  | drop p =>
    dsimp only at hnext
    split at hnext
    · obtain rfl := Option.some.inj hnext
      simp only [Sys.setPc, Bcache.drop]
      split <;> exact ⟨rfl, rfl⟩
    · cases hnext
  | bpin p a | bunpin p a =>
    obtain ⟨-, hnext⟩ := call_eq_some hnext
    obtain rfl := Option.some.inj hnext
    exact ⟨rfl, rfl⟩

/-- What `bget` has done when it leaves its critical section: it has found the
block, or recycled the oldest buffer without a reference, or panicked because
there is none. -/
inductive Got (s : Sys) (h : History) (p : Pid) (dev blockno : UInt32) (s' : Sys) : Prop
  | hit (b : Nat) (hb : b < NBUF) (hcached : s.cache.caches dev blockno b = true)
      (hpc : s'.pc p = .acquire b) (hdev : s'.cache.dev = s.cache.dev)
      (hblockno : s'.cache.blockno = s.cache.blockno)
  | recycled (b : Nat) (hb : b < NBUF) (hmiss : ∀ a < NBUF, s.cache.caches dev blockno a = false)
      (hfree : s.cache.refcnt b = 0) (hpc : s'.pc p = .acquire b)
      (hcached : s'.cache.caches dev blockno b = true)
      (holdest : ∀ a < NBUF, a ≠ b → s.cache.refcnt a = 0 → Older h b a)
  | full (hmiss : ∀ a < NBUF, s.cache.caches dev blockno a = false)
      (hused : ∀ a < NBUF, s.cache.refcnt a ≠ 0)
      (hpanic : s'.panicked = some "bget: no buffers")

theorem Sound.got_bget (hs : Sound s h order) (hcalm : s.panicked = none) (hpc : s.pc p = .idle)
    (dev blockno : UInt32) :
    ∃ s', next s (.bget p dev blockno) = some s' ∧ Got s h p dev blockno s' := by
  obtain ⟨r, hr, hspec⟩ := hs.chained.bget_spec dev blockno
  have hnext : next s (.bget p dev blockno) = some (s.enter p r) := by
    rw [next, if_neg (by rw [hcalm]; decide)]
    simp only [Sys.call, hpc, if_true, hr, Option.map_some]
  refine ⟨_, hnext, ?_⟩
  cases hspec with
  | hit b hb hcached => exact .hit b hb hcached (update_self _ _ _) rfl rfl
  | full hmiss hused => exact .full hmiss hused rfl
  | recycle l1 l2 b hmiss horder hzero hused =>
    have hb : b < NBUF := hs.chained.mem_iff.mp (by simp [horder])
    refine .recycled b hb hmiss hzero (update_self _ _ _) ?_ ?_
    · simp [Bcache.caches, Sys.enter, Sys.setPc]
    · intro a ha hab hfree
      have hmem := hs.chained.mem_iff.mpr ha
      have hsorted := hs.sorted
      rw [horder] at hmem hsorted
      rcases List.mem_append.mp hmem with hl1 | hl2
      · exact (List.pairwise_append.mp hsorted).2.2 a hl1 b List.mem_cons_self
      · rcases List.mem_cons.mp hl2 with rfl | hl2
        · exact absurd rfl hab
        · exact absurd hfree (hused a hl2)

/-- The cache after `binit`, with an empty history. -/
def Started (x : Sys × History) : Prop := x = (boot, History.start)

/-- In every run of balanced use with fewer than `2 ^ 32` references to each
buffer: the list from `bcache.head` has every buffer once, in both directions.
No block is in two buffers, `refcnt` counts the references and the pins, and a
buffer with a reference keeps its block.  A miss recycles the oldest of the
buffers without a reference. -/
theorem cache_structure (x : Sys × History)
    (hx : ReachWhen (fun x l => Balanced x l ∧ Room x l) (instrument next History.record) Started
      x) :
    (∃ order : List Nat, order.Perm (List.range NBUF) ∧
      Path x.1.cache.next (x.1.cache.next HEAD) order HEAD ∧
      Path x.1.cache.prev (x.1.cache.prev HEAD) order.reverse HEAD) ∧
    Distinct x.1.cache ∧
    (∀ b < NBUF, (x.1.cache.refcnt b).toNat = x.2.holds b + x.2.pins b) ∧
    (∀ l s', next x.1 l = some s' → ∀ b, x.1.cache.refcnt b ≠ 0 →
      s'.cache.dev b = x.1.cache.dev b ∧ s'.cache.blockno b = x.1.cache.blockno b) ∧
    ∀ p dev blockno, x.1.panicked = none → x.1.pc p = .idle →
      ∃ s', next x.1 (.bget p dev blockno) = some s' ∧ Got x.1 x.2 p dev blockno s' := by
  have hsound : ∃ order, Sound x.1 x.2 order := by
    apply hx.invariant (I := fun x => ∃ order, Sound x.1 x.2 order)
    · rintro x rfl
      exact ⟨_, Sound.boot⟩
    · rintro x l y ⟨order, hs⟩ hok hnext
      obtain ⟨hstep, hrec⟩ := instrument_eq_some hnext
      rw [hrec]
      exact hs.step hok.1 hok.2 hstep
  obtain ⟨order, hs⟩ := hsound
  refine ⟨⟨order, hs.chained.perm, hs.chained.linked.path, hs.chained.linked.symm.path⟩,
    hs.distinct, hs.count, ?_, ?_⟩
  · intro l s' hnext b hb
    exact hs.kept hnext hb
  · intro p dev blockno hcalm hpc
    exact hs.got_bget hcalm hpc dev blockno

instance (x : Sys × History) : ∀ l, Decidable (Balanced x l)
  | .bget _ _ _ => inferInstanceAs (Decidable (_ ≠ _))
  | .brelse _ _ => inferInstanceAs (Decidable (_ = _))
  | .bpin _ _ => inferInstanceAs (Decidable (_ < _))
  | .bunpin _ _ => inferInstanceAs (Decidable (_ < _))
  | .acquire _ | .fill _ _ | .drop _ => isTrue trivial

instance (x : Sys × History) : ∀ l, Decidable (Room x l)
  | .bget _ _ _ | .bpin _ _ => inferInstanceAs (Decidable (∀ b < NBUF, _))
  | .acquire _ | .fill _ _ | .brelse _ _ | .drop _ | .bunpin _ _ => isTrue trivial

/-- Process 1 reads block 7, pins its buffer, releases it and takes the pin
away. -/
def pinRun : List Step :=
  [.bget 1 1 7, .acquire 1, .fill 1 0, .bpin 1 0, .brelse 1 0, .drop 1, .bunpin 1 0]

theorem cache_structure_pinRun : ∃ x,
    ReachWhen (fun x l => Balanced x l ∧ Room x l) (instrument next History.record) Started x ∧
      x.2.holds 0 + x.2.pins 0 = 0 ∧ x.1.cache.refcnt 0 = 0 := by
  obtain ⟨x, hx, hzero⟩ : ∃ x,
      ReachWhen (fun x l => Balanced x l ∧ Room x l) (instrument next History.record) Started x ∧
        x.1.cache.refcnt 0 = 0 :=
    exists_reachWhen_of_run (s := (boot, History.start)) pinRun rfl (by decide +kernel)
  have hcount := (cache_structure x hx).2.2.1 0 (by decide)
  rw [hzero] at hcount
  exact ⟨x, hx, hcount.symm, hzero⟩

/-- After that run buffer 0 has been used, and the other buffers have not: they
still have device 0.  A miss recycles buffer 0. -/
theorem unpinned_first : ∃ x,
    ReachWhen (fun x l => Balanced x l ∧ Room x l) (instrument next History.record) Started x ∧
      x.1.cache.dev 0 = 1 ∧ x.1.cache.dev 1 = 0 ∧ x.1.cache.refcnt 0 = 0 ∧
      x.1.cache.refcnt 1 = 0 ∧ x.1.cache.caches 1 8 0 = false ∧
      (next x.1 (.bget 1 1 8)).map (fun s => s.pc 1) = some (.acquire 0) :=
  exists_reachWhen_of_run (s := (boot, History.start)) pinRun rfl (by decide +kernel)

end Xv6.Cache
