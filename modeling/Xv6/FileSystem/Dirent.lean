import Xv6.FileSystem.Disk

/-!
# Directory entries

`struct dirent` of `kernel/fs.h` and its 16 bytes on the disk: a little-endian
`ushort` and a name that is padded with zeroes.

A string of C is the list of its bytes before the 0 that ends it.
-/

namespace Xv6.FileSystem

/-- `strncpy(s, t, n)`: the `n` bytes that it stores at `s`. -/
def strncpy : List UInt8 → Nat → List UInt8
  | _, 0 => []
  | [], n + 1 => 0 :: strncpy [] n
  | c :: t, n + 1 => if c = 0 then 0 :: strncpy [] n else c :: strncpy t n

theorem length_strncpy (t : List UInt8) (n : Nat) : (strncpy t n).length = n := by
  induction n generalizing t with
  | zero => cases t <;> rfl
  | succ n ih =>
    cases t with
    | nil => simp [strncpy, ih]
    | cons c t =>
      unfold strncpy
      split <;> simp [ih]

/-- `struct dirent`. -/
structure Dirent where
  inum : Nat
  name : List UInt8
  length_name : name.length = DIRSIZ

/-- The entry that gives the name `name` to inode `inum`. -/
def Dirent.named (inum : Nat) (name : List UInt8) : Dirent :=
  ⟨inum, strncpy name DIRSIZ, length_strncpy name DIRSIZ⟩

/-- The bytes of an entry. -/
def Dirent.bytes (e : Dirent) : List UInt8 :=
  UInt8.ofNat e.inum :: UInt8.ofNat (e.inum / 256) :: e.name

/-- `sizeof(struct dirent)`. -/
abbrev DIRENT : Nat := DIRSIZ + 2

@[simp] theorem Dirent.length_bytes (e : Dirent) : e.bytes.length = DIRENT := by
  simp [Dirent.bytes, e.length_name]

end Xv6.FileSystem
