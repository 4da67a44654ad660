import Mathlib.Algebra.GroupWithZero.Nat
import Mathlib.Data.List.Basic
import Mathlib.Data.Nat.Find

/-!
# Strings that end with a zero

A partial memory is a function that may have no byte at an address.  `scan`
reads the bytes from an address on, up to a zero, to a byte that is missing,
or to a bound.  `Terminated` says where the first zero is, and `strlen` is
the length of a string in a buffer.

* `scan_chunk`: a scan through bytes that are known, and the scan of the
  rest.
* `scan_iff`, `scan_terminated`: when a scan finds a zero, and what it has
  read by then.
* `strlen_append`: the string of a buffer is the one at its front.
-/

namespace Xv6.Lib

/-- Read at most `n` bytes from an address on.  The first part of the result
says whether a zero was read. -/
def scan (mem : Nat → Option UInt8) : Nat → Nat → Bool × List UInt8
  | 0, _ => (false, [])
  | n + 1, a =>
      match mem a with
      | none => (false, [])
      | some c => if c = 0 then (true, [0]) else ((scan mem n (a + 1)).1, c :: (scan mem n (a + 1)).2)

/-- A string of `k` bytes starts at the address, with a zero after it. -/
structure Terminated (mem : Nat → Option UInt8) (a k : Nat) : Prop where
  body : ∀ j, j < k → ∃ c, mem (a + j) = some c ∧ c ≠ 0
  zero : mem (a + k) = some 0

/-- `strlen`. -/
def strlen (buf : List UInt8) : Nat := (buf.takeWhile (· ≠ 0)).length

variable {mem : Nat → Option UInt8} {a k n : Nat}

/-! ## One byte -/

theorem scan_none (h : mem a = none) : scan mem n a = (false, []) := by
  cases n with
  | zero => rfl
  | succ n => rw [scan, h]

theorem scan_zero (h : mem a = some 0) : scan mem (n + 1) a = (true, [0]) := by
  rw [scan, h]
  rfl

theorem scan_byte {c : UInt8} (h : mem a = some c) (hc : c ≠ 0) :
    scan mem (n + 1) a = ((scan mem n (a + 1)).1, c :: (scan mem n (a + 1)).2) := by
  rw [scan, h]
  exact if_neg hc

theorem length_scan (mem : Nat → Option UInt8) (n : Nat) :
    ∀ a, (scan mem n a).2.length ≤ n := by
  induction n with
  | zero =>
    intro a
    exact Nat.le_refl 0
  | succ n ih =>
    intro a
    cases h : mem a with
    | none =>
      rw [scan_none h]
      exact Nat.zero_le _
    | some c =>
      by_cases hc : c = 0
      · rw [hc] at h
        rw [scan_zero h]
        exact Nat.le_add_left 1 n
      · rw [scan_byte h hc]
        exact Nat.succ_le_succ (ih (a + 1))

/-! ## Chunks -/

/-- A scan of `n` bytes that another memory has too, and of `k` bytes after
them. -/
theorem scan_chunk (mem mem' : Nat → Option UInt8) (k : Nat) :
    ∀ (n a off : Nat), (∀ i, i < n → mem (a + i) = mem' (off + i) ∧ (mem' (off + i)).isSome) →
      scan mem (n + k) a =
        if (scan mem' n off).1 = true then scan mem' n off
        else ((scan mem k (a + n)).1, (scan mem' n off).2 ++ (scan mem k (a + n)).2) := by
  intro n
  induction n with
  | zero =>
    intro a off _
    rw [Nat.zero_add]
    rfl
  | succ n ih =>
    intro a off hsame
    obtain ⟨hfirst, hsome⟩ := hsame 0 (Nat.succ_pos n)
    rw [Nat.add_zero, Nat.add_zero] at hfirst
    obtain ⟨c, hc⟩ := Option.isSome_iff_exists.mp hsome
    rw [Nat.add_zero] at hc
    rw [hc] at hfirst
    rw [Nat.add_right_comm]
    by_cases hzero : c = 0
    · rw [hzero] at hfirst hc
      rw [scan_zero hfirst, scan_zero hc]
      rfl
    · rw [scan_byte hfirst hzero, scan_byte hc hzero, ih (a + 1) (off + 1) ?_]
      · rw [show a + 1 + n = a + (n + 1) by omega]
        by_cases hfound : (scan mem' n (off + 1)).1 = true
        · rw [if_pos hfound, if_pos hfound]
        · rw [if_neg hfound, if_neg hfound]
          rfl
      · intro i hi
        have hnext := hsame (i + 1) (Nat.succ_lt_succ hi)
        rw [show a + 1 + i = a + (i + 1) by omega, show off + 1 + i = off + (i + 1) by omega]
        exact hnext

/-! ## What a scan finds -/

theorem Terminated.succ {c : UInt8} (h : mem a = some c) (hc : c ≠ 0)
    (ht : Terminated mem (a + 1) k) : Terminated mem a (k + 1) := by
  refine ⟨?_, ?_⟩
  · intro j hj
    cases j with
    | zero => exact ⟨c, h, hc⟩
    | succ j =>
      rw [show a + (j + 1) = a + 1 + j by omega]
      exact ht.body j (Nat.lt_of_succ_lt_succ hj)
  · rw [show a + (k + 1) = a + 1 + k by omega]
    exact ht.zero

/-- The bytes after the first one. -/
theorem Terminated.tail (ht : Terminated mem a (k + 1)) : Terminated mem (a + 1) k := by
  refine ⟨?_, ?_⟩
  · intro j hj
    rw [show a + 1 + j = a + (j + 1) by omega]
    exact ht.body (j + 1) (Nat.succ_lt_succ hj)
  · rw [show a + 1 + k = a + (k + 1) by omega]
    exact ht.zero

/-- A scan that finds a zero has read a string. -/
theorem terminated_of_scan :
    ∀ (n a : Nat), (scan mem n a).1 = true → ∃ k, k < n ∧ Terminated mem a k := by
  intro n
  induction n with
  | zero =>
    intro a h
    cases h
  | succ n ih =>
    intro a h
    cases hm : mem a with
    | none =>
      rw [scan_none hm] at h
      cases h
    | some c =>
      by_cases hc : c = 0
      · rw [hc] at hm
        exact ⟨0, Nat.succ_pos n, fun j hj => absurd hj (Nat.not_lt_zero j), hm⟩
      · rw [scan_byte hm hc] at h
        obtain ⟨k, hk, ht⟩ := ih (a + 1) h
        exact ⟨k + 1, Nat.succ_lt_succ hk, ht.succ hm hc⟩

/-- What a scan has read when it finds a zero: the string, and the zero. -/
theorem scan_terminated :
    ∀ (k n a : Nat), k < n → Terminated mem a k →
      (scan mem n a).1 = true ∧ (scan mem n a).2.length = k + 1 ∧
        ∀ j, j ≤ k → (scan mem n a).2[j]? = mem (a + j) := by
  intro k
  induction k with
  | zero =>
    intro n a hn ht
    obtain ⟨n, rfl⟩ := Nat.exists_eq_succ_of_ne_zero (Nat.ne_of_gt hn)
    rw [scan_zero (a := a) ht.zero]
    refine ⟨rfl, rfl, ?_⟩
    intro j hj
    rw [Nat.le_zero.mp hj]
    exact ht.zero.symm
  | succ k ih =>
    intro n a hn ht
    obtain ⟨n, rfl⟩ := Nat.exists_eq_succ_of_ne_zero (Nat.ne_of_gt (Nat.zero_lt_of_lt hn))
    obtain ⟨c, hm, hc⟩ := ht.body 0 (Nat.succ_pos k)
    obtain ⟨hfound, hlen, hbytes⟩ := ih n (a + 1) (Nat.lt_of_succ_lt_succ hn) ht.tail
    rw [scan_byte (a := a) hm hc]
    refine ⟨hfound, congrArg Nat.succ hlen, ?_⟩
    intro j hj
    cases j with
    | zero => exact hm.symm
    | succ j =>
      rw [show a + (j + 1) = a + 1 + j by omega]
      exact hbytes j (Nat.le_of_succ_le_succ hj)

/-- The first zero, if there is one and no byte before it is missing. -/
theorem exists_terminated (hbytes : ∀ j, j ≤ k → (mem (a + j)).isSome)
    (hzero : mem (a + k) = some 0) : ∃ j, j ≤ k ∧ Terminated mem a j := by
  classical
  have hex : ∃ j, mem (a + j) = some 0 := ⟨k, hzero⟩
  refine ⟨Nat.find hex, Nat.find_min' hex hzero, ?_, Nat.find_spec hex⟩
  intro j hj
  have hle : j ≤ k := Nat.le_trans (Nat.le_of_lt hj) (Nat.find_min' hex hzero)
  obtain ⟨c, hc⟩ := Option.isSome_iff_exists.mp (hbytes j hle)
  refine ⟨c, hc, ?_⟩
  rintro rfl
  exact Nat.find_min hex hj hc

/-- A scan finds a zero if and only if there is one within the bound, with no
byte missing up to it. -/
theorem scan_iff (n a : Nat) :
    (scan mem n a).1 = true ↔
      ∃ k, k < n ∧ (∀ j, j ≤ k → (mem (a + j)).isSome) ∧ mem (a + k) = some 0 := by
  constructor
  · intro h
    obtain ⟨k, hk, ht⟩ := terminated_of_scan n a h
    refine ⟨k, hk, ?_, ht.zero⟩
    intro j hj
    rcases Nat.lt_or_eq_of_le hj with hlt | rfl
    · obtain ⟨c, hc, _⟩ := ht.body j hlt
      rw [hc]
      rfl
    · rw [ht.zero]
      rfl
  · rintro ⟨k, hk, hbytes, hzero⟩
    obtain ⟨j, hj, ht⟩ := exists_terminated hbytes hzero
    exact (scan_terminated j n a (Nat.lt_of_le_of_lt hj hk) ht).1

/-! ## Buffers -/

/-- The bytes at the front of a buffer, up to a zero, are its string. -/
theorem strlen_append {bytes : List UInt8} (rest : List UInt8) (ht : Terminated mem a k)
    (hlen : bytes.length = k + 1) (hbytes : ∀ j, j ≤ k → bytes[j]? = mem (a + j)) :
    strlen (bytes ++ rest) = k := by
  induction k generalizing a bytes with
  | zero =>
    obtain ⟨b, bytes, rfl⟩ := List.exists_cons_of_length_eq_add_one hlen
    have hb : some b = some 0 := (hbytes 0 (Nat.le_refl 0)).trans ht.zero
    cases hb
    rfl
  | succ k ih =>
    obtain ⟨b, bytes, rfl⟩ := List.exists_cons_of_length_eq_add_one hlen
    obtain ⟨c, hm, hc⟩ := ht.body 0 (Nat.succ_pos k)
    have hb : some b = some c := (hbytes 0 (Nat.zero_le _)).trans hm
    cases hb
    have hrest := ih ht.tail (Nat.succ.inj hlen) (fun j hj => by
      rw [show a + 1 + j = a + (j + 1) by omega]
      exact hbytes (j + 1) (Nat.succ_le_succ hj))
    unfold strlen at *
    rw [List.cons_append, List.takeWhile_cons_of_pos (by simpa using hc), List.length_cons, hrest]

end Xv6.Lib
