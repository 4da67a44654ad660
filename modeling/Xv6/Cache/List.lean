import Mathlib.Data.List.Perm.Basic
import Mathlib.Data.List.Pairwise
import Xv6.Cache.Model

/-!
# The list of buffers

`Chained c order` says that the list from `bcache.head` has the buffers of
`order`, in both directions, and that these are all the buffers.  `binit`
establishes it, and `brelse` keeps it and moves its buffer to the front.  The
two loops of `bget` search `order` from the front and from the back.
-/

namespace Xv6.Cache

open Xv6.Lib Function

variable {c c' : Bcache} {order : List Nat} {b : Nat}

/-- The list from `bcache.head`, from the front to the back. -/
structure Chained (c : Bcache) (order : List Nat) : Prop where
  linked : TwoWay c.next c.prev (HEAD :: order)
  perm : order.Perm (List.range NBUF)

namespace Chained

theorem mem_iff (h : Chained c order) : b ∈ order ↔ b < NBUF := by
  rw [h.perm.mem_iff, List.mem_range]

theorem nodup (h : Chained c order) : order.Nodup := h.perm.nodup_iff.mpr List.nodup_range

theorem nodup_head (h : Chained c order) : (HEAD :: order).Nodup := by
  refine List.nodup_cons.mpr ⟨?_, h.nodup⟩
  rw [h.mem_iff]
  exact Nat.lt_irrefl NBUF

theorem length (h : Chained c order) : order.length = NBUF := by
  rw [h.perm.length_eq, List.length_range]

/-- Only the links matter. -/
theorem congr (h : Chained c order) (hnext : c'.next = c.next) (hprev : c'.prev = c.prev) :
    Chained c' order :=
  ⟨by rw [hnext, hprev]; exact h.linked, h.perm⟩

end Chained

/-! ## Changes -/

theorem linkFirst_linked {l : List Nat} (h : TwoWay c.next c.prev (HEAD :: l))
    (hb : b ∉ HEAD :: l) (hnodup : (HEAD :: l).Nodup) :
    TwoWay (c.linkFirst b).next (c.linkFirst b).prev (HEAD :: b :: l) := by
  have hne : HEAD ≠ b := fun he => hb (he ▸ List.mem_cons_self)
  have hlink := h.link hb hnodup
  unfold Bcache.linkFirst
  dsimp only
  rw [update_of_ne hne]
  exact hlink

theorem unlink_linked {l1 l2 : List Nat} (h : TwoWay c.next c.prev (HEAD :: (l1 ++ b :: l2)))
    (hnodup : (HEAD :: (l1 ++ b :: l2)).Nodup) :
    TwoWay (c.unlink b).next (c.unlink b).prev (HEAD :: (l1 ++ l2)) := by
  have hring : TwoWay c.next c.prev ((HEAD :: l1) ++ (b :: l2)) := h
  have hrot : TwoWay c.next c.prev (b :: (l2 ++ HEAD :: l1)) := hring.rotate
  have hprev : update c.prev (c.next b) (c.prev b) b = c.prev b := by
    by_cases he : b = c.next b
    · rw [← he, update_self]
    · rw [update_of_ne he]
  have hunlink := hrot.unlink (by simp) ?_
  · unfold Bcache.unlink
    dsimp only
    rw [hprev]
    exact TwoWay.rotate hunlink
  · have hperm : ((b :: l2) ++ (HEAD :: l1)).Perm ((HEAD :: l1) ++ (b :: l2)) :=
      List.perm_append_comm
    exact hperm.nodup_iff.mpr hnodup

/-- The loop of `binit`. -/
theorem foldl_linkFirst {k : Nat} (hk : k ≤ NBUF) (h : TwoWay c.next c.prev [HEAD]) :
    TwoWay ((List.range k).foldl Bcache.linkFirst c).next
      ((List.range k).foldl Bcache.linkFirst c).prev (HEAD :: (List.range k).reverse) := by
  induction k with
  | zero => exact h
  | succ k ih =>
    rw [List.range_succ, List.foldl_append, List.reverse_append]
    have hne : HEAD ∉ (List.range k).reverse := by
      rw [List.mem_reverse, List.mem_range]
      exact Nat.not_lt.mpr (Nat.le_of_succ_le hk)
    apply linkFirst_linked (ih (Nat.le_of_succ_le hk))
    · rw [List.mem_cons, List.mem_reverse, List.mem_range, not_or]
      exact ⟨Nat.ne_of_lt hk, Nat.lt_irrefl k⟩
    · exact List.nodup_cons.mpr ⟨hne, List.nodup_reverse.mpr List.nodup_range⟩

theorem binit_chained : Chained c.binit (List.range NBUF).reverse := by
  refine ⟨?_, List.reverse_perm _⟩
  unfold Bcache.binit
  apply foldl_linkFirst (Nat.le_refl NBUF)
  constructor
  · apply Circle.single
    simp only [update_self]
  · apply Circle.single
    simp only [update_self]

/-- `brelse` of the last reference moves the buffer to the front. -/
theorem Chained.move {l1 l2 : List Nat} (h : Chained c (l1 ++ b :: l2)) :
    Chained ((c.unlink b).linkFirst b) (b :: (l1 ++ l2)) := by
  have hnodup := h.nodup_head
  have hperm : (HEAD :: (l1 ++ b :: l2)).Perm (b :: HEAD :: (l1 ++ l2)) :=
    (List.perm_middle.cons HEAD).trans (List.Perm.swap b HEAD _)
  obtain ⟨hb, hrest⟩ := List.nodup_cons.mp (hperm.nodup_iff.mp hnodup)
  exact ⟨linkFirst_linked (unlink_linked h.linked hnodup) hb hrest, List.perm_middle.symm.trans h.perm⟩

/-! ## Searches -/

/-- The loop stops at `HEAD`, or at the first buffer that it looks for. -/
theorem find_head {l : List Nat} (h : HEAD ∉ l) (q : Nat → Bool) :
    l.find? (fun b => b == HEAD || q b) = l.find? q := by
  induction l with
  | nil => rfl
  | cons b l ih =>
    rw [List.mem_cons, not_or] at h
    rw [List.find?_cons, List.find?_cons, ih h.2, beq_eq_false_iff_ne.mpr (Ne.symm h.1),
      Bool.false_or]

namespace Chained

theorem head_not_mem (h : Chained c order) : HEAD ∉ order := (List.nodup_cons.mp h.nodup_head).1

/-- The search from the front. -/
theorem walk_next (h : Chained c order) (q : Nat → Bool) :
    walk c.next (fun b => b == HEAD || q b) (NBUF + 1) (c.next HEAD) =
      some ((order.find? q).getD HEAD) := by
  have hwalk : walk c.next (fun b => b == HEAD || q b) (order.length + 1) (c.next HEAD) =
      some ((order.find? (fun b => b == HEAD || q b)).getD HEAD) :=
    walk_find h.linked.path (by simp)
  rw [h.length, find_head h.head_not_mem] at hwalk
  exact hwalk

/-- The search from the back. -/
theorem walk_prev (h : Chained c order) (q : Nat → Bool) :
    walk c.prev (fun b => b == HEAD || q b) (NBUF + 1) (c.prev HEAD) =
      some ((order.reverse.find? q).getD HEAD) := by
  have hwalk : walk c.prev (fun b => b == HEAD || q b) (order.reverse.length + 1) (c.prev HEAD) =
      some ((order.reverse.find? (fun b => b == HEAD || q b)).getD HEAD) :=
    walk_find h.linked.symm.path (by simp)
  rw [List.length_reverse, h.length, find_head (by rw [List.mem_reverse]; exact h.head_not_mem)]
    at hwalk
  exact hwalk

end Chained

/-- What `bget` does, given the list of buffers. -/
inductive Bget (c : Bcache) (dev blockno : UInt32) (order : List Nat) :
    Except String (Nat × Bcache) → Prop
  | hit (b : Nat) (hb : b < NBUF) (hcached : c.caches dev blockno b = true) :
      Bget c dev blockno order
        (.ok (b, { c with refcnt := update c.refcnt b (c.refcnt b + 1) }))
  | recycle (l₁ l₂ : List Nat) (b : Nat) (hmiss : ∀ a < NBUF, c.caches dev blockno a = false)
      (horder : order = l₁ ++ b :: l₂) (hb : c.refcnt b = 0) (hused : ∀ a ∈ l₂, c.refcnt a ≠ 0) :
      Bget c dev blockno order
        (.ok (b, { c with
          dev := update c.dev b dev
          blockno := update c.blockno b blockno
          valid := update c.valid b false
          refcnt := update c.refcnt b 1 }))
  | full (hmiss : ∀ a < NBUF, c.caches dev blockno a = false)
      (hused : ∀ a < NBUF, c.refcnt a ≠ 0) :
      Bget c dev blockno order (.error "bget: no buffers")

theorem Chained.bget_spec (h : Chained c order) (dev blockno : UInt32) :
    ∃ r, c.bget dev blockno = some r ∧ Bget c dev blockno order r := by
  unfold Bcache.bget
  rw [h.walk_next]
  cases hhit : order.find? (c.caches dev blockno) with
  | some b =>
    have hb : b < NBUF := h.mem_iff.mp (List.mem_of_find?_eq_some hhit)
    refine ⟨_, if_pos (Nat.ne_of_lt hb), .hit b hb ?_⟩
    exact List.find?_some hhit
  | none =>
    have hmiss : ∀ a < NBUF, c.caches dev blockno a = false := by
      intro a ha
      exact Bool.eq_false_iff.mpr (List.find?_eq_none.mp hhit a (h.mem_iff.mpr ha))
    dsimp only [Option.getD_none, bind, Option.bind]
    rw [if_neg (not_not.mpr rfl), h.walk_prev]
    cases hfree : order.reverse.find? (fun b => c.refcnt b == 0) with
    | some b =>
      have hb : b < NBUF := by
        have hmem := List.mem_of_find?_eq_some hfree
        rw [List.mem_reverse] at hmem
        exact h.mem_iff.mp hmem
      obtain ⟨hzero, l2, l1, hrev, hl2⟩ := List.find?_eq_some_iff_append.mp hfree
      refine ⟨_, if_pos (Nat.ne_of_lt hb), .recycle l1.reverse l2.reverse b hmiss ?_ ?_ ?_⟩
      · rw [← List.reverse_reverse order, hrev]
        simp
      · exact eq_of_beq hzero
      · intro a ha
        have hne := hl2 a (List.mem_reverse.mp ha)
        simpa using hne
    | none =>
      refine ⟨_, if_neg (not_not.mpr rfl), .full hmiss ?_⟩
      intro a ha
      have hne := List.find?_eq_none.mp hfree a (List.mem_reverse.mpr (h.mem_iff.mpr ha))
      simpa using hne

end Xv6.Cache
