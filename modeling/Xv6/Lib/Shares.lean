import Mathlib.Algebra.BigOperators.Group.Finset.Basic
import Mathlib.Algebra.BigOperators.Intervals
import Mathlib.Algebra.Order.BigOperators.Group.Finset
import Mathlib.Tactic.Abel

/-!
# Shares in reference-counted cells

A `Counted` store has cells with a reference count and some data.  A part
of a program holds shares in the cells: a function that says how many of
the references of each cell are its own.

`Transfer m m' a b` is what a part of the program does to the store when it
starts with the shares `a` and ends with the shares `b`.  The counts change
by exactly the difference, and a cell in which somebody else has a share
keeps its data.  Transfers compose, and a transfer with some shares is one
with more shares: this is the frame rule.

`tally` is the shares that a table of optional references holds, and
`total` is the shares that the rows of a table hold together.  `sum_change` is
the same for a sum in a group.
-/

namespace Xv6.Lib

open Function

variable {φ β ι : Type*}

/-! ## One reference -/

section One

variable [DecidableEq φ]

/-- One reference to the cell `f`. -/
def one (f : φ) : φ → Nat := fun g => if g = f then 1 else 0

@[simp] theorem one_self (f : φ) : one f f = 1 := if_pos rfl

theorem one_of_ne {f g : φ} (h : g ≠ f) : one f g = 0 := if_neg h

end One

/-! ## Transfers -/

/-- Cells with a reference count. -/
structure Counted (φ β : Type*) where
  count : φ → Nat
  data : φ → β

/-- The shares of a part of the program go from `a` to `b`. -/
structure Transfer (m m' : Counted φ β) (a b : φ → Nat) : Prop where
  balance : ∀ f, m'.count f + a f = m.count f + b f
  frame : ∀ f, a f < m.count f → m'.data f = m.data f

namespace Transfer

variable {m m' m'' : Counted φ β} {a b c : φ → Nat}

theorem refl (m : Counted φ β) (a : φ → Nat) : Transfer m m a a :=
  ⟨fun _ => rfl, fun _ _ => rfl⟩

theorem trans (h : Transfer m m' a b) (h' : Transfer m' m'' b c) : Transfer m m'' a c := by
  constructor
  · intro f
    have h1 := h.balance f
    have h2 := h'.balance f
    omega
  · intro f hf
    have h1 := h.balance f
    rw [h'.frame f (by omega), h.frame f hf]

/-- The frame rule: more shares are kept as they are. -/
theorem add (h : Transfer m m' a b) (u : φ → Nat) : Transfer m m' (a + u) (b + u) := by
  constructor
  · intro f
    have h1 := h.balance f
    simp only [Pi.add_apply]
    omega
  · intro f hf
    simp only [Pi.add_apply] at hf
    exact h.frame f (by omega)

/-- The shares matter cell by cell. -/
theorem congr (h : Transfer m m' a b) {a' b' : φ → Nat} (ha : ∀ f, a' f = a f)
    (hb : ∀ f, b' f = b f) : Transfer m m' a' b' := by
  constructor
  · intro f
    rw [ha, hb]
    exact h.balance f
  · intro f hf
    rw [ha] at hf
    exact h.frame f hf

end Transfer

/-! ## The shares of a table -/

section Tally

variable [DecidableEq φ]

/-- The references that the entries `p i`, for `i` in `s`, hold. -/
def tally (s : Finset ι) (p : ι → Option φ) : φ → Nat :=
  fun f => ∑ i ∈ s, if p i = some f then 1 else 0

variable {s : Finset ι} {p p' : ι → Option φ}

theorem tally_congr (h : ∀ i ∈ s, p i = p' i) : tally s p = tally s p' := by
  funext f
  refine Finset.sum_congr rfl ?_
  intro i hi
  rw [h i hi]

theorem tally_none (h : ∀ i ∈ s, p i = none) : tally s p = 0 := by
  funext f
  refine Finset.sum_eq_zero ?_
  intro i hi
  rw [h i hi]
  exact if_neg (by simp)

/-- An entry is a reference. -/
theorem tally_pos {i : ι} {f : φ} (hi : i ∈ s) (hp : p i = some f) : 1 ≤ tally s p f := by
  have hle := Finset.single_le_sum (f := fun j => if p j = some f then 1 else 0)
    (fun j _ => Nat.zero_le _) hi
  rw [if_pos hp] at hle
  exact hle

theorem tally_mono {s' : Finset ι} (h : s ⊆ s') (f : φ) : tally s p f ≤ tally s' p f :=
  Finset.sum_le_sum_of_subset h

@[simp] theorem tally_range_zero (p : Nat → Option φ) : tally (Finset.range 0) p = 0 := rfl

theorem tally_range_succ {p : Nat → Option φ} (n : Nat) (f : φ) :
    tally (Finset.range (n + 1)) p f =
      tally (Finset.range n) p f + if p n = some f then 1 else 0 :=
  Finset.sum_range_succ _ _

variable [DecidableEq ι]

/-- The shares of a table, one entry apart. -/
theorem tally_erase {i : ι} (hi : i ∈ s) (f : φ) :
    tally s p f = (if p i = some f then 1 else 0) + tally (s.erase i) p f :=
  (Finset.add_sum_erase s (fun j => if p j = some f then 1 else 0) hi).symm

/-- Fill an empty entry. -/
theorem tally_set {i : ι} {g : φ} (hi : i ∈ s) (hnone : p i = none) :
    tally s (update p i (some g)) = tally s p + one g := by
  funext f
  have hrest : tally (s.erase i) (update p i (some g)) = tally (s.erase i) p := by
    refine tally_congr ?_
    intro j hj
    exact update_of_ne (Finset.ne_of_mem_erase hj) _ _
  rw [Pi.add_apply, tally_erase hi, tally_erase hi, hrest, update_self, hnone]
  by_cases hf : f = g
  · simp [one, hf, Nat.add_comm]
  · have hg : g ≠ f := fun h => hf h.symm
    simp [one, hf, hg]

/-- Clear an entry. -/
theorem tally_clear {i : ι} {g : φ} (hi : i ∈ s) (hsome : p i = some g) :
    tally s p = tally s (update p i none) + one g := by
  have hset := tally_set (p := update p i none) (g := g) hi
    (update_self i none p)
  rw [update_idem, ← hsome, update_eq_self] at hset
  exact hset

end Tally

/-! ## The shares of several holders -/

section Total

variable {ρ : Type*} {s : Finset ι} {g : ρ → φ → Nat} {t : ι → ρ}

/-- The shares of the rows `t i`, for `i` in `s`. -/
@[irreducible] def total (s : Finset ι) (g : ρ → φ → Nat) (t : ι → ρ) : φ → Nat :=
  fun f => ∑ i ∈ s, g (t i) f

theorem le_total {i : ι} (hi : i ∈ s) (f : φ) : g (t i) f ≤ total s g t f := by
  unfold total
  exact Finset.single_le_sum (f := fun j => g (t j) f) (fun _ _ => Nat.zero_le _) hi

theorem le_total_pair [DecidableEq ι] {i j : ι} (hi : i ∈ s) (hj : j ∈ s) (hne : j ≠ i) (f : φ) :
    g (t i) f + g (t j) f ≤ total s g t f := by
  have hsplit := Finset.add_sum_erase s (fun n => g (t n) f) hi
  have hle := Finset.single_le_sum (f := fun n => g (t n) f) (fun _ _ => Nat.zero_le _)
    (Finset.mem_erase.mpr ⟨hne, hj⟩)
  unfold total
  omega

theorem total_congr {t' : ι → ρ} (h : ∀ i ∈ s, g (t i) = g (t' i)) :
    total s g t = total s g t' := by
  unfold total
  funext f
  refine Finset.sum_congr rfl ?_
  intro i hi
  rw [h i hi]

theorem total_zero (h : ∀ i ∈ s, g (t i) = 0) : total s g t = 0 := by
  unfold total
  funext f
  refine Finset.sum_eq_zero ?_
  intro i hi
  rw [h i hi]
  rfl

/-- One row changes. -/
theorem total_update [DecidableEq ι] {i : ι} (hi : i ∈ s) (r : ρ) (f : φ) :
    total s g (update t i r) f + g (t i) f = total s g t f + g r f := by
  have hold := Finset.add_sum_erase s (fun j => g (t j) f) hi
  have hnew := Finset.add_sum_erase s (fun j => g (update t i r j) f) hi
  have hrest : ∑ j ∈ s.erase i, g (update t i r j) f = ∑ j ∈ s.erase i, g (t j) f := by
    refine Finset.sum_congr rfl ?_
    intro j hj
    rw [update_of_ne (Finset.ne_of_mem_erase hj)]
  simp only [update_self] at hnew
  unfold total
  omega

end Total

/-! ## Sums over a table -/

/-- One row of a sum changes. -/
theorem sum_change {M : Type*} [AddCommGroup M] [DecidableEq ι] {s : Finset ι} {f g : ι → M} {i : ι}
    (hi : i ∈ s) (hsame : ∀ j ∈ s, j ≠ i → g j = f j) :
    ∑ j ∈ s, g j = ∑ j ∈ s, f j + (g i - f i) := by
  have hrest : ∑ j ∈ s.erase i, g j = ∑ j ∈ s.erase i, f j := by
    refine Finset.sum_congr rfl ?_
    intro j hj
    exact hsame j (Finset.mem_of_mem_erase hj) (Finset.ne_of_mem_erase hj)
  rw [← Finset.add_sum_erase s g hi, ← Finset.add_sum_erase s f hi, hrest]
  abel

end Xv6.Lib
