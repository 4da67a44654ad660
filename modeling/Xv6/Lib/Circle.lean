import Mathlib.Data.List.Nodup
import Mathlib.Logic.Function.Basic

/-!
# Circular linked lists

`Path next s l z` says that following `next` from `s` visits the list `l` and
then arrives at `z`.  `Circle next l` says that the list `l` is linked in a
circle.  A circle has no first element: `Circle.rotate`.

A pointer program changes `next` at a few places.  `Circle.insert` and
`Circle.remove` say what becomes of the circle, and `Circle.congr` that other
places do not matter.  `walk` is a loop that follows the links until it may
stop, and `Circle.walk` says where it stops.

A list that is linked in both directions is two circles, `TwoWay`.
-/

namespace Xv6.Lib

open Function

variable {α : Type*} {next next' : α → α} {s z p x : α} {l l1 l2 : List α}

/-- Following `next` from `s` visits `l` and arrives at `z`. -/
def Path (next : α → α) : α → List α → α → Prop
  | s, [], z => s = z
  | s, x :: l, z => s = x ∧ Path next (next x) l z

theorem path_append : Path next s (l1 ++ l2) z ↔ ∃ m, Path next s l1 m ∧ Path next m l2 z := by
  induction l1 generalizing s with
  | nil => simp [Path]
  | cons x l ih =>
    simp only [List.cons_append, Path, ih]
    constructor
    · rintro ⟨hs, m, h1, h2⟩
      exact ⟨m, ⟨hs, h1⟩, h2⟩
    · rintro ⟨m, ⟨hs, h1⟩, h2⟩
      exact ⟨hs, m, h1, h2⟩

/-- Only the links of the visited places matter. -/
theorem Path.congr (h : Path next s l z) (hsame : ∀ x ∈ l, next' x = next x) :
    Path next' s l z := by
  induction l generalizing s with
  | nil => exact h
  | cons x l ih =>
    refine ⟨h.1, ?_⟩
    rw [hsame x List.mem_cons_self]
    exact ih h.2 (fun y hy => hsame y (List.mem_cons_of_mem _ hy))

/-! ## Circles -/

/-- The list is linked in a circle. -/
def Circle (next : α → α) (l : List α) : Prop := ∃ s, Path next s l s

namespace Circle

theorem rotate (h : Circle next (l1 ++ l2)) : Circle next (l2 ++ l1) := by
  obtain ⟨s, hs⟩ := h
  obtain ⟨m, h1, h2⟩ := path_append.mp hs
  exact ⟨m, path_append.mpr ⟨s, h2, h1⟩⟩

theorem congr (h : Circle next l) (hsame : ∀ x ∈ l, next' x = next x) : Circle next' l := by
  obtain ⟨s, hs⟩ := h
  exact ⟨s, hs.congr hsame⟩

/-- The part before a place, and the part after it. -/
theorem split : Circle next (l1 ++ p :: l2) ↔
    ∃ s, Path next s l1 p ∧ Path next (next p) l2 s := by
  constructor
  · rintro ⟨s, hs⟩
    obtain ⟨m, h1, hm, h2⟩ := path_append.mp hs
    exact ⟨s, hm ▸ h1, h2⟩
  · rintro ⟨s, h1, h2⟩
    exact ⟨s, path_append.mpr ⟨p, h1, rfl, h2⟩⟩

/-- Links lead from a place to the next one. -/
theorem next_eq (h : Circle next (l1 ++ p :: x :: l2)) : next p = x := by
  obtain ⟨s, _, h2⟩ := split.mp h
  exact h2.1

theorem next_single (h : Circle next [p]) : next p = p := by
  obtain ⟨s, hp, hnext⟩ := h
  exact hnext.trans hp

theorem single (h : next p = p) : Circle next [p] := ⟨p, rfl, h⟩

/-- Link a new place behind `p`. -/
theorem insert (h : Circle next (l1 ++ p :: l2)) (hx : next' x = next p) (hp : next' p = x)
    (hsame : ∀ y, y ∈ l1 ∨ y ∈ l2 → next' y = next y) : Circle next' (l1 ++ p :: x :: l2) := by
  obtain ⟨s, h1, h2⟩ := split.mp h
  refine split.mpr ⟨s, h1.congr (fun y hy => hsame y (Or.inl hy)), ?_⟩
  rw [hp]
  refine ⟨rfl, ?_⟩
  rw [hx]
  exact h2.congr (fun y hy => hsame y (Or.inr hy))

/-- Unlink the place behind `p`. -/
theorem remove (h : Circle next (l1 ++ p :: x :: l2)) (hp : next' p = next x)
    (hsame : ∀ y, y ∈ l1 ∨ y ∈ l2 → next' y = next y) : Circle next' (l1 ++ p :: l2) := by
  obtain ⟨s, h1, hx, h2⟩ := split.mp h
  refine split.mpr ⟨s, h1.congr (fun y hy => hsame y (Or.inl hy)), ?_⟩
  rw [hp]
  exact h2.congr (fun y hy => hsame y (Or.inr hy))

/-- From every place a path goes through all the others and back. -/
theorem path_from (h : Circle next l) (hp : p ∈ l) :
    ∃ l', Path next (next p) l' p ∧ (∀ y, y ∈ l ↔ y = p ∨ y ∈ l') ∧ (l.Nodup → p ∉ l') := by
  obtain ⟨l1, l2, rfl⟩ := List.append_of_mem hp
  obtain ⟨s, h1, h2⟩ := split.mp h
  refine ⟨l2 ++ l1, path_append.mpr ⟨s, h2, h1⟩, fun y => ?_, fun hnodup => ?_⟩
  · simp only [List.mem_append, List.mem_cons]
    tauto
  · rw [List.nodup_middle, List.nodup_cons] at hnodup
    rw [List.mem_append, or_comm, ← List.mem_append]
    exact hnodup.1

end Circle

/-! ## Walking -/

/-- Follow the links until `stop`, for at most `fuel` places. -/
def walk (next : α → α) (stop : α → Bool) : Nat → α → Option α
  | 0, _ => none
  | fuel + 1, p => if stop p then some p else walk next stop fuel (next p)

/-- More fuel does not change where a walk stops. -/
theorem walk_mono {stop : α → Bool} {fuel : Nat} (h : walk next stop fuel s = some z) (k : Nat) :
    walk next stop (fuel + k) s = some z := by
  induction fuel generalizing s with
  | zero => cases h
  | succ fuel ih =>
    rw [Nat.succ_add, walk]
    rw [walk] at h
    split at h
    · rename_i hstop
      rw [if_pos hstop, h]
    · rename_i hgo
      rw [if_neg hgo]
      exact ih h

theorem walk_path {stop : α → Bool} (h : Path next s l z) (hgo : ∀ y ∈ l, stop y = false)
    (hz : stop z = true) (k : Nat) : walk next stop (l.length + 1 + k) s = some z := by
  induction l generalizing s with
  | nil =>
    obtain rfl : s = z := h
    rw [List.length_nil, Nat.zero_add, Nat.add_comm, walk, if_pos hz]
  | cons x l ih =>
    obtain ⟨rfl, h⟩ := h
    rw [List.length_cons, show l.length + 1 + 1 + k = (l.length + 1 + k) + 1 by omega, walk,
      hgo s List.mem_cons_self]
    exact ih h (fun y hy => hgo y (List.mem_cons_of_mem _ hy))

/-- A walk along a path stops at the first place at which it may stop. -/
theorem walk_find {stop : α → Bool} (h : Path next s l z) (hz : stop z = true) :
    walk next stop (l.length + 1) s = some ((l.find? stop).getD z) := by
  induction l generalizing s with
  | nil =>
    obtain rfl : s = z := h
    rw [List.length_nil, walk, if_pos hz]
    rfl
  | cons x l ih =>
    obtain ⟨rfl, h⟩ := h
    rw [List.length_cons, walk, List.find?_cons]
    cases hs : stop s with
    | true => rfl
    | false => exact ih h

/-- If the walk may stop at one place of a circle only, it stops there. -/
theorem Circle.walk {stop : α → Bool} (h : Circle next l) (hs : s ∈ l) (hz : z ∈ l)
    (hstop : stop z = true) (hgo : ∀ y ∈ l, y ≠ z → stop y = false) :
    ∃ fuel, ∀ k, Lib.walk next stop (fuel + k) s = some z := by
  by_cases hsz : s = z
  · exact ⟨1, fun k => by rw [Nat.add_comm, Lib.walk, hsz, if_pos hstop]⟩
  obtain ⟨l', hpath, hmem, -⟩ := h.path_from hs
  have hz' : z ∈ l' := ((hmem z).mp hz).resolve_left (fun he => hsz he.symm)
  obtain ⟨a, b, rfl, hza⟩ := List.eq_append_cons_of_mem hz'
  obtain ⟨m, ha, hm, _⟩ := path_append.mp hpath
  have hfirst : Path next s (s :: a) z := ⟨rfl, hm ▸ ha⟩
  refine ⟨_, walk_path hfirst (fun y hy => ?_) hstop⟩
  rcases List.mem_cons.mp hy with rfl | hy
  · exact hgo y hs hsz
  · refine hgo y ((hmem y).mpr (Or.inr (List.mem_append_left _ hy))) ?_
    rintro rfl
    exact hza hy

/-! ## Links in both directions -/

/-- The list is a circle for `next`, and its reverse is one for `prev`. -/
def TwoWay (next prev : α → α) (l : List α) : Prop := Circle next l ∧ Circle prev l.reverse

namespace TwoWay

variable {prev : α → α}

theorem symm (h : TwoWay next prev (x :: l)) : TwoWay prev next (x :: l.reverse) := by
  refine ⟨?_, ?_⟩
  · have hprev := h.2
    rw [List.reverse_cons] at hprev
    exact hprev.rotate
  · have hnext : Circle next ([x] ++ l) := h.1
    rw [List.reverse_cons, List.reverse_reverse]
    exact hnext.rotate

theorem rotate (h : TwoWay next prev (l1 ++ l2)) : TwoWay next prev (l2 ++ l1) := by
  refine ⟨h.1.rotate, ?_⟩
  have hprev := h.2
  rw [List.reverse_append] at hprev ⊢
  exact hprev.rotate

/-- From a place, the links visit the others in order. -/
theorem path (h : TwoWay next prev (p :: l)) : Path next (next p) l p := by
  obtain ⟨s, hp, hs⟩ := h.1
  exact hp ▸ hs

variable [DecidableEq α]

/-- The half of `unlink` in one direction. -/
theorem unlink_next (h : TwoWay next prev (x :: l)) (hl : l ≠ []) (hnodup : (x :: l).Nodup) :
    Circle (update next (prev x) (next x)) l := by
  obtain ⟨l, p, rfl⟩ := (List.eq_nil_or_concat' l).resolve_left hl
  have hlast : prev x = p := by
    have hprev := h.symm.path
    rw [List.reverse_append] at hprev
    exact hprev.1
  have hcircle : Circle next (l ++ p :: [x]) := by
    have hnext : Circle next ([x] ++ (l ++ [p])) := h.1
    have hrot := hnext.rotate
    rw [List.append_assoc] at hrot
    exact hrot
  rw [hlast]
  apply hcircle.remove
  · rw [update_self]
  · intro y hy
    apply update_of_ne
    rintro rfl
    rw [List.nodup_cons, List.nodup_append] at hnodup
    exact hnodup.2.2.2 y (hy.resolve_right List.not_mem_nil) y List.mem_cons_self rfl

/-- Take a place out. -/
theorem unlink (h : TwoWay next prev (x :: l)) (hl : l ≠ []) (hnodup : (x :: l).Nodup) :
    TwoWay (update next (prev x) (next x)) (update prev (next x) (prev x)) l := by
  refine ⟨h.unlink_next hl hnodup, h.symm.unlink_next ?_ ?_⟩
  · simpa using hl
  · simpa using hnodup

/-- Put a place behind `p`. -/
theorem link (h : TwoWay next prev (p :: l)) (hx : x ∉ p :: l) (hnodup : (p :: l).Nodup) :
    TwoWay (update (update next x (next p)) p x)
      (update (update prev x p) (next p) x) (p :: x :: l) := by
  have hxp : x ≠ p := fun he => hx (he ▸ List.mem_cons_self)
  constructor
  · have hcircle : Circle next ([] ++ p :: l) := h.1
    refine hcircle.insert ?_ ?_ ?_
    · rw [update_of_ne hxp, update_self]
    · rw [update_self]
    · intro y hy
      have hyl : y ∈ l := hy.resolve_left List.not_mem_nil
      rw [update_of_ne, update_of_ne]
      · rintro rfl
        exact hx (List.mem_cons_of_mem _ hyl)
      · rintro rfl
        exact (List.nodup_cons.mp hnodup).1 hyl
  · cases l with
    | nil =>
      have hnext : next p = p := h.1.next_single
      have hcircle : Circle prev ([] ++ p :: []) := h.2
      rw [hnext]
      have hinsert : Circle (update (update prev x p) p x) ([p] ++ [x]) := by
        refine hcircle.insert ?_ ?_ ?_
        · rw [update_of_ne hxp, update_self]
          exact h.2.next_single.symm
        · rw [update_self]
        · simp
      exact hinsert.rotate
    | cons n l =>
      have hnext : next p = n := h.path.1
      have hprev : Circle prev (l.reverse ++ n :: [p]) := by
        have hrev := h.2
        rw [List.reverse_cons, List.reverse_cons, List.append_assoc] at hrev
        exact hrev
      have hxn : x ≠ n := fun he => hx (by simp [he])
      rw [hnext, List.reverse_cons, List.reverse_cons, List.reverse_cons, List.append_assoc,
        List.append_assoc]
      apply hprev.insert
      · rw [update_of_ne hxn, update_self]
        exact hprev.next_eq.symm
      · rw [update_self]
      · intro y hy
        simp only [List.nodup_cons, List.mem_cons, not_or] at hnodup hx
        rw [List.mem_reverse, List.mem_singleton] at hy
        have hyn : y ≠ n := by
          rintro rfl
          exact hy.elim hnodup.2.1 (fun he => hnodup.1.1 he.symm)
        have hyx : y ≠ x := by
          rintro rfl
          exact hy.elim hx.2.2 hx.1
        rw [update_of_ne hyn, update_of_ne hyx]

end TwoWay

end Xv6.Lib
