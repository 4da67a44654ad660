import Xv6.Lib.CString
import Xv6.Memory.Copies

/-!
# Strings from a process

`copyinstr` of `kernel/vm.c` and `fetchstr` of `kernel/syscall.c`.  The
outer loop of `copyinstr` goes from page to page and the inner one from byte
to byte; both count `max` down.

A result is the return value with the bytes that were stored from `dst` on.
`copyinstrLoop` has a bound on its iterations, and `none` says that the bound
was reached: `copyinstr_scan` shows that it never is, and that the two loops
are one scan of the user bytes.
-/

namespace Xv6.Memory

open Xv6.Lib

variable {pt : PageTable} {m : Mem}

/-! ## The functions -/

/-- The inner loop of `copyinstr`, with `n` bytes left at the offset `p` of
the page.  The first part of the result is `got_null`. -/
def copyinstrPage (page : Page) : Nat → Nat → Bool × List UInt8
  | 0, _ => (false, [])
  | n + 1, p =>
      if byteAt page p = 0 then (true, [0])
      else
        let (gotNull, rest) := copyinstrPage page n (p + 1)
        (gotNull, byteAt page p :: rest)

/-- The outer loop of `copyinstr`, with a bound on its iterations. -/
def copyinstrLoop (pt : PageTable) (m : Mem) :
    Nat → Nat → Nat → Except Panic (Option (Bool × List UInt8))
  | 0, _, _ => .ok none
  | fuel + 1, srcva, max =>
      if max = 0 then .ok (some (false, []))
      else do
        match ← walkaddr pt (pgrounddown srcva) with
        | none => .ok (some (false, []))
        | some f =>
            let n := chunk srcva max
            let (gotNull, bytes) := copyinstrPage (m.bytes f) n (srcva % PGSIZE)
            if gotNull then .ok (some (true, bytes))
            else do
              let r ← copyinstrLoop pt m fuel (pgrounddown srcva + PGSIZE) (max - n)
              .ok (r.map (fun q => (q.1, bytes ++ q.2)))

/-- `copyinstr`. -/
def copyinstr (pt : PageTable) (srcva max : Nat) (m : Mem) :
    Except Panic (Option (Bool × List UInt8)) :=
  copyinstrLoop pt m (max + 1) srcva max

/-- An `int` as the `uint64` parameter of a function. -/
def toUint64 (n : Int32) : Nat := (n.toInt % 2 ^ 64).toNat

/-- A count as an `int`. -/
def asInt (n : Nat) : Int := Int.bmod n (2 ^ 32)

/-- A buffer after bytes are stored at its front. -/
def overwrite (buf bytes : List UInt8) : List UInt8 := bytes ++ buf.drop bytes.length

/-- `fetchstr(addr, buf, max)`: the return value, and the buffer.  The value
of `strlen` is an `int`. -/
def fetchstr (pt : PageTable) (addr : Nat) (buf : List UInt8) (max : Int32) (m : Mem) :
    Except Panic (Option (Int × List UInt8)) := do
  match ← copyinstr pt addr (toUint64 max) m with
  | none => .ok none
  | some (false, bytes) => .ok (some (-1, overwrite buf bytes))
  | some (true, bytes) =>
      let buf := overwrite buf bytes
      .ok (some (asInt (strlen buf), buf))

/-! ## The loops are a scan -/

theorem copyinstrPage_eq (page : Page) :
    ∀ n p, copyinstrPage page n p = scan (fun i => some (byteAt page i)) n p := by
  intro n
  induction n with
  | zero =>
    intro p
    rfl
  | succ n ih =>
    intro p
    rw [copyinstrPage, ih (p + 1)]
    rfl

/-- The user bytes of one page, from an address on. -/
theorem userByte_page {va : Nat} {f : Frame} (h : walkaddr pt va = .ok (some f)) {i : Nat}
    (hi : va % PGSIZE + i < PGSIZE) :
    userByte pt m (va + i) = some (byteAt (m.bytes f) (va % PGSIZE + i)) := by
  have hdown : pgrounddown (va + i) = pgrounddown va := by
    unfold pgrounddown PGSIZE at *
    omega
  have hwalk : walkaddr pt (va + i) = .ok (some f) := by
    rw [← walkaddr_pgrounddown, hdown, walkaddr_pgrounddown, h]
  have hbyte : byteAt (m.bytes f) (va + i) = byteAt (m.bytes f) (va % PGSIZE + i) := by
    unfold byteAt
    congr 1
    apply Fin.ext
    show (va + i) % PGSIZE = (va % PGSIZE + i) % PGSIZE
    rw [Nat.mod_add_mod]
  rw [userByte, hwalk, ← hbyte]

/-- With more iterations than bytes, the loops of `copyinstr` are one scan of
the user bytes. -/
theorem copyinstrLoop_scan :
    ∀ (fuel srcva max : Nat), max < fuel →
      copyinstrLoop pt m fuel srcva max = .ok (some (scan (userByte pt m) max srcva)) := by
  intro fuel
  induction fuel with
  | zero =>
    intro srcva max hfuel
    exact absurd hfuel (Nat.not_lt_zero max)
  | succ fuel ih =>
    intro srcva max hfuel
    rw [copyinstrLoop]
    by_cases hmax : max = 0
    · rw [if_pos hmax, hmax]
      rfl
    rw [if_neg hmax, walkaddr_pgrounddown]
    cases haddr : walkaddr pt srcva with
    | error err =>
      rw [walkaddr_eq] at haddr
      cases haddr
    | ok addr =>
      cases addr with
      | none =>
        have hnone : userByte pt m srcva = none := by rw [userByte, haddr]
        rw [scan_none hnone]
        rfl
      | some f =>
        have hmod := Nat.mod_lt srcva (show 0 < PGSIZE by decide)
        have hle : chunk srcva max ≤ max := by
          unfold chunk
          omega
        have hpos : 0 < chunk srcva max := by
          unfold chunk
          omega
        have hchunk := scan_chunk (userByte pt m) (fun i => some (byteAt (m.bytes f) i))
          (max - chunk srcva max) (chunk srcva max) srcva (srcva % PGSIZE)
          (fun i hi => ⟨userByte_page haddr (by unfold chunk at hi; omega), rfl⟩)
        rw [Nat.add_sub_cancel' hle, ← copyinstrPage_eq] at hchunk
        rw [hchunk]
        dsimp only [bind, Except.bind]
        by_cases hnull : (copyinstrPage (m.bytes f) (chunk srcva max) (srcva % PGSIZE)).1 = true
        · rw [if_pos hnull, if_pos hnull]
          congr 2
          exact Prod.ext hnull.symm rfl
        · rw [if_neg hnull, if_neg hnull, ih _ _ (by omega)]
          -- if bytes are left, the chunk ends at the end of its page
          by_cases hend : max - chunk srcva max = 0
          · rw [hend]
            rfl
          · have hnext : srcva + chunk srcva max = pgrounddown srcva + PGSIZE := by
              unfold chunk pgrounddown PGSIZE at *
              omega
            rw [hnext]
            rfl

theorem copyinstr_scan (pt : PageTable) (srcva max : Nat) (m : Mem) :
    copyinstr pt srcva max m = .ok (some (scan (userByte pt m) max srcva)) :=
  copyinstrLoop_scan (max + 1) srcva max (Nat.lt_succ_self max)

/-! ## What they return -/

/-- The address is in a valid user page below `MAXVA`. -/
def UserAddress (pt : PageTable) (va : Nat) : Prop :=
  va < MAXVA ∧ ∃ e, pt.leaf (va / PGSIZE) = some e ∧ e.flags.u = true

theorem userByte_isSome (pt : PageTable) (m : Mem) (va : Nat) :
    (userByte pt m va).isSome ↔ UserAddress pt va := by
  rw [userByte, walkaddr_eq, UserAddress]
  by_cases hmax : va ≥ MAXVA
  · rw [if_pos hmax]
    exact iff_of_false Bool.false_ne_true (fun h => absurd h.1 (Nat.not_lt.mpr hmax))
  rw [if_neg hmax]
  cases he : pt.leaf (va / PGSIZE) with
  | none =>
    refine iff_of_false Bool.false_ne_true ?_
    rintro ⟨_, e, he', _⟩
    cases he'
  | some e =>
    rw [Option.bind_some]
    by_cases hu : e.flags.u = true
    · rw [if_pos hu]
      exact iff_of_true rfl ⟨Nat.not_le.mp hmax, e, rfl, hu⟩
    · rw [if_neg hu]
      refine iff_of_false Bool.false_ne_true ?_
      rintro ⟨_, e', he', hu'⟩
      cases he'
      exact hu hu'

/-- A length below 2^31 is an `int`. -/
theorem asInt_of_lt {k : Nat} (hk : k < 2 ^ 31) : asInt k = k :=
  Int.bmod_eq_of_le (by omega) (by omega)

/-- `fetchstr` after `copyinstr`. -/
theorem fetchstr_eq {addr : Nat} {n : Int32} {r : Bool} {bytes : List UInt8}
    (h : copyinstr pt addr (toUint64 n) m = .ok (some (r, bytes))) (buf : List UInt8) :
    fetchstr pt addr buf n m = .ok (some
      (if r then asInt (strlen (overwrite buf bytes)) else -1, overwrite buf bytes)) := by
  rw [fetchstr, h]
  dsimp only [bind, Except.bind]
  cases r with
  | false => rw [if_neg Bool.false_ne_true]
  | true => rw [if_pos rfl]

/-- For every page table, address and bound, `copyinstr` returns, and it
stores at most `max` bytes.  It returns 0 if and only if there is a zero byte
within the bound and all bytes up to it are in valid user pages.  Then the
bytes stored are the string with its zero, and `fetchstr` returns its
length; otherwise `fetchstr` returns -1. -/
theorem copyinstr_exact (pt : PageTable) (srcva max : Nat) (m : Mem) :
    ∃ r bytes, copyinstr pt srcva max m = .ok (some (r, bytes)) ∧ bytes.length ≤ max ∧
      (r = true ↔ ∃ k, k < max ∧ (∀ j, j ≤ k → UserAddress pt (srcva + j)) ∧
        userByte pt m (srcva + k) = some 0) ∧
      (∀ k, k < max → Terminated (userByte pt m) srcva k →
        bytes.length = k + 1 ∧ (∀ j, j ≤ k → bytes[j]? = userByte pt m (srcva + j)) ∧
        ∀ (n : Int32) (buf : List UInt8), toUint64 n = max → k < 2 ^ 31 →
          fetchstr pt srcva buf n m = .ok (some (k, overwrite buf bytes))) ∧
      (r = false → ∀ (n : Int32) (buf : List UInt8), toUint64 n = max →
        fetchstr pt srcva buf n m = .ok (some (-1, overwrite buf bytes))) := by
  have hrun := copyinstr_scan pt srcva max m
  refine ⟨_, _, hrun, length_scan _ _ _, ?_, ?_, ?_⟩
  · rw [scan_iff]
    simp only [userByte_isSome]
  · intro k hk ht
    obtain ⟨hfound, hlen, hbytes⟩ := scan_terminated k max srcva hk ht
    refine ⟨hlen, hbytes, ?_⟩
    rintro n buf rfl hint
    rw [fetchstr_eq hrun, hfound, overwrite, strlen_append _ ht hlen hbytes, asInt_of_lt hint]
    rfl
  · rintro hr n buf rfl
    rw [fetchstr_eq hrun, hr]
    rfl

end Xv6.Memory
