import Mathlib.Algebra.GroupWithZero.Nat
import Mathlib.Data.List.Basic

/-!
# Byte buffers

A buffer is a function from offsets to bytes.  `patch` stores a list of bytes
at an offset, and `slice` reads one back.  `word` reads four bytes as a
little-endian number, and `setWord` stores one.

A program with buffers of a fixed length uses the offsets below that length.
-/

namespace Xv6.Lib

/-- The bytes of a buffer, by their offset. -/
abbrev Buffer := Nat → UInt8

namespace Buffer

/-- A buffer full of zeroes. -/
def zero : Buffer := fun _ => 0

/-- The buffer with the bytes `src` stored from the offset `off` on. -/
def patch (b : Buffer) (off : Nat) (src : List UInt8) : Buffer :=
  fun i => if off ≤ i then src.getD (i - off) (b i) else b i

/-- The `n` bytes from the offset `off` on. -/
def slice (b : Buffer) (off n : Nat) : List UInt8 := (List.range n).map (fun i => b (off + i))

/-- The `j`-th word of four bytes. -/
def word (b : Buffer) (j : Nat) : Nat :=
  (b (4 * j)).toNat + 256 * ((b (4 * j + 1)).toNat +
    256 * ((b (4 * j + 2)).toNat + 256 * (b (4 * j + 3)).toNat))

/-- The buffer with `v` stored in the `j`-th word. -/
def setWord (b : Buffer) (j v : Nat) : Buffer :=
  fun i => if i / 4 = j then UInt8.ofNat (v / 256 ^ (i % 4)) else b i

variable {b c : Buffer} {off n i : Nat} {src : List UInt8}

/-! ## Lists of bytes -/

theorem patch_outside (h : i < off ∨ off + src.length ≤ i) : b.patch off src i = b i := by
  unfold patch
  split
  · rw [List.getD_eq_getElem?_getD, List.getElem?_eq_none (by omega), Option.getD_none]
  · rfl

theorem patch_inside (h : i < src.length) : b.patch off src (off + i) = src[i] := by
  unfold patch
  rw [if_pos (by omega), Nat.add_sub_cancel_left, List.getD_eq_getElem?_getD,
    List.getElem?_eq_getElem h, Option.getD_some]

@[simp] theorem length_slice : (b.slice off n).length = n := by
  simp [slice]

theorem getElem_slice (h : i < (b.slice off n).length) : (b.slice off n)[i] = b (off + i) := by
  simp [slice]

/-- The same bytes at another offset. -/
theorem slice_shift {off' : Nat} (h : ∀ i, i < n → b (off + i) = c (off' + i)) :
    b.slice off n = c.slice off' n := by
  unfold slice
  exact List.map_congr_left (fun i hi => h i (List.mem_range.mp hi))

theorem slice_append (m : Nat) : b.slice off (n + m) = b.slice off n ++ b.slice (off + n) m := by
  unfold slice
  rw [List.range_add, List.map_append, List.map_map]
  simp [Function.comp_def, Nat.add_assoc]

/-! ## Words -/

@[simp] theorem word_zero (j : Nat) : zero.word j = 0 := rfl

theorem word_congr {j : Nat} (h : ∀ i, 4 * j ≤ i → i < 4 * j + 4 → b i = c i) :
    b.word j = c.word j := by
  unfold word
  rw [h (4 * j) (by omega) (by omega), h (4 * j + 1) (by omega) (by omega),
    h (4 * j + 2) (by omega) (by omega), h (4 * j + 3) (by omega) (by omega)]

theorem word_setWord_self {j v : Nat} (hv : v < 2 ^ 32) : (b.setWord j v).word j = v := by
  have hbyte : ∀ r, r < 4 → ((b.setWord j v) (4 * j + r)).toNat = v / 256 ^ r % 256 := by
    intro r hr
    have hdiv : (4 * j + r) / 4 = j := by omega
    have hmod : (4 * j + r) % 4 = r := by omega
    rw [setWord, if_pos hdiv, hmod]
    rfl
  have h0 := hbyte 0 (by omega)
  have h1 := hbyte 1 (by omega)
  have h2 := hbyte 2 (by omega)
  have h3 := hbyte 3 (by omega)
  simp only [Nat.add_zero] at h0
  unfold word
  rw [h0, h1, h2, h3]
  omega

theorem word_setWord_of_ne {j k v : Nat} (h : k ≠ j) : (b.setWord j v).word k = b.word k := by
  refine word_congr (fun i hlo hhi => ?_)
  rw [setWord, if_neg (by omega)]

end Buffer

end Xv6.Lib
