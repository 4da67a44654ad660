import Mathlib.Algebra.Group.Nat.Defs
import Mathlib.Data.List.Basic
import Mathlib.Logic.Function.Basic

/-!
# Ring buffers

`Ring N cells r xs` says that the `N` cells of a ring buffer hold the list
`xs`, with its first element at position `r` of an endless tape.  Position
`k` is in cell `k % N`.  `Ring.push` and `Ring.pop` are the two operations.

The positions never wrap.  A program that counts them in machine words knows
them modulo some power of two, and finds the same cells if `N` divides it.
`Counts` is for a counter of 32 bits.
-/

namespace Xv6.Lib

variable {α : Type*} {N r : Nat} {cells : Nat → α} {xs : List α} {a : α}

/-- The cells hold the list, from position `r` on. -/
structure Ring (N : Nat) (cells : Nat → α) (r : Nat) (xs : List α) : Prop where
  bound : xs.length ≤ N
  cell : ∀ k (h : k < xs.length), cells ((r + k) % N) = xs[k]

/-- Two positions less than `N` apart are in different cells. -/
theorem cell_ne {i j : Nat} (hij : i < j) (hj : j < i + N) : i % N ≠ j % N := by
  intro he
  have hdvd : N ∣ j - i := 
    Nat.dvd_of_mod_eq_zero (Nat.sub_mod_eq_zero_of_mod_eq he.symm)
  have hle := Nat.le_of_dvd (by omega) hdvd
  omega

namespace Ring

theorem nil : Ring N cells r [] :=
  ⟨Nat.zero_le _, fun _ hk => absurd hk (Nat.not_lt_zero _)⟩

/-- Write one more element. -/
theorem push (h : Ring N cells r xs) (hroom : xs.length < N) :
    Ring N (Function.update cells ((r + xs.length) % N) a) r (xs ++ [a]) := by
  refine ⟨by simp; omega, fun k hk => ?_⟩
  by_cases hlast : k = xs.length
  · subst hlast
    simp
  · have hlt : k < xs.length := by
      rw [List.length_append, List.length_singleton] at hk
      omega
    rw [Function.update_of_ne (cell_ne (by omega) (by omega)), h.cell k hlt,
      List.getElem_append_left hlt]

/-- Read the first element and leave the others. -/
theorem pop (h : Ring N cells r (a :: xs)) :
    cells (r % N) = a ∧ Ring N cells (r + 1) xs := by
  constructor
  · exact h.cell 0 (Nat.zero_lt_succ _)
  · have hbound := h.bound
    rw [List.length_cons] at hbound
    refine ⟨by omega, fun k hk => ?_⟩
    have hcell := h.cell (k + 1) (by simpa using hk)
    rw [List.getElem_cons_succ] at hcell
    rw [← hcell]
    congr 2
    omega

/-- Forget the elements at the end. -/
theorem take {ys : List α} (h : Ring N cells r (xs ++ ys)) : Ring N cells r xs := by
  have hbound := h.bound
  rw [List.length_append] at hbound
  refine ⟨by omega, ?_⟩
  intro k hk
  rw [h.cell k (by rw [List.length_append]; omega), List.getElem_append_left hk]

/-- The list, read off the cells. -/
theorem eq_map (h : Ring N cells r xs) :
    xs = (List.range xs.length).map (fun k => cells ((r + k) % N)) := by
  refine List.ext_getElem (by simp) (fun k hk _ => ?_)
  simpa using (h.cell k hk).symm

end Ring

/-! ## Counters -/

/-- The counter of `w` bits shows the number `k`, as far as it goes. -/
def Counts {w : Nat} (c : BitVec w) (k : Nat) : Prop := c = BitVec.ofNat w k

namespace Counts

variable {w : Nat} {c c' : BitVec w} {k n : Nat}

theorem zero : Counts 0#w 0 := rfl

theorem succ (h : Counts c k) : Counts (c + 1#w) (k + 1) := by
  unfold Counts at *
  rw [h, BitVec.ofNat_add]

theorem add (h : Counts c k) (n : Nat) : Counts (c + BitVec.ofNat w n) (k + n) := by
  unfold Counts at *
  rw [h, BitVec.ofNat_add]

theorem pred (h : Counts c (k + 1)) : Counts (c - 1#w) k := by
  unfold Counts at *
  rw [h, BitVec.ofNat_add, BitVec.add_sub_cancel]

/-- The distance of two counters. -/
theorem sub (h : Counts c k) (h' : Counts c' (k + n)) (hn : n < 2 ^ w) : (c' - c).toNat = n := by
  unfold Counts at *
  rw [h, h', BitVec.ofNat_add, BitVec.add_comm, BitVec.add_sub_cancel, BitVec.toNat_ofNat,
    Nat.mod_eq_of_lt hn]

theorem eq_iff (h : Counts c k) (h' : Counts c' (k + n)) (hn : n < 2 ^ w) : c = c' ↔ n = 0 := by
  constructor
  · rintro rfl
    have hsub := h.sub h' hn
    rw [BitVec.sub_self] at hsub
    exact hsub.symm
  · rintro rfl
    exact h.trans h'.symm

/-- The counter and the number are in the same cell. -/
theorem cell (h : Counts c k) (hN : N ∣ 2 ^ w) : c.toNat % N = k % N := by
  unfold Counts at h
  rw [h, BitVec.toNat_ofNat, Nat.mod_mod_of_dvd _ hN]

end Counts

end Xv6.Lib
