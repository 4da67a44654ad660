import Xv6.Memory.Kalloc

/-!
# The words of a page

A page is 512 words of eight bytes, little-endian.  The free list keeps its
links in the first word of the pages, and a page table is a page of such
words.
-/

namespace Xv6.Memory

/-- The `i`-th word of a page. -/
def loadWord (page : Page) (i : Nat) : Nat :=
  (List.range 8).foldr (fun k w => (page (Fin.ofNat PGSIZE (8 * i + k))).toNat + 256 * w) 0

/-- The page with `w` in its `i`-th word. -/
def storeWord (page : Page) (i w : Nat) : Page :=
  fun j => if j.val / 8 = i then UInt8.ofNat (w / 256 ^ (j.val % 8)) else page j

variable {page : Page} {i j w : Nat}

theorem loadWord_congr {page' : Page}
    (h : ∀ k, k < 8 → page' (Fin.ofNat PGSIZE (8 * i + k)) = page (Fin.ofNat PGSIZE (8 * i + k))) :
    loadWord page' i = loadWord page i := by
  unfold loadWord
  refine List.foldr_ext _ _ _ ?_
  intro k hk w
  rw [h k (List.mem_range.mp hk)]

/-- The value of eight bytes. -/
theorem foldr_bytes (w : Nat) :
    (List.range 8).foldr (fun k v => w / 256 ^ k % 256 + 256 * v) 0 = w % 2 ^ 64 := by
  simp only [List.range, List.range.loop, List.foldr]
  omega

theorem loadWord_storeWord (page : Page) (hi : i < 512) (w : Nat) :
    loadWord (storeWord page i w) i = w % 2 ^ 64 := by
  rw [← foldr_bytes w]
  unfold loadWord
  refine List.foldr_ext _ _ _ ?_
  intro k hk v
  have hk := List.mem_range.mp hk
  have hval : (Fin.ofNat PGSIZE (8 * i + k)).val = 8 * i + k :=
    Nat.mod_eq_of_lt (by unfold PGSIZE; omega)
  have hdiv : (8 * i + k) / 8 = i := by omega
  have hmod : (8 * i + k) % 8 = k := by omega
  rw [storeWord, hval, if_pos hdiv, hmod, UInt8.toNat_ofNat']

/-- A store does not change the other words. -/
theorem loadWord_storeWord_of_ne (page : Page) (hj : j < 512) (hne : j ≠ i) (w : Nat) :
    loadWord (storeWord page i w) j = loadWord page j := by
  refine loadWord_congr ?_
  intro k hk
  have hval : (Fin.ofNat PGSIZE (8 * j + k)).val = 8 * j + k :=
    Nat.mod_eq_of_lt (by unfold PGSIZE; omega)
  rw [storeWord, hval, if_neg (by omega)]

end Xv6.Memory
