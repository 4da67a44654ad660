import Xv6.Process.Range

/-!
# The interactivity bonus

`calculate_RBI` takes `3 * RTime - STime - WTime` over
`RTime + WTime + STime + 1` in unsigned arithmetic, multiplies the quotient by
50, and reads the product as an `int`.  The maximum with 0 is to remove a
negative result.

If the difference is negative it wraps before the division.  The quotient is then
positive, and so is the product in some cases: its sign depends on the residue
modulo `2^32` alone.  `calculateRBI_eq_iff` is the exact condition.
-/

namespace Xv6.Process

variable {r s w : UInt32}

/-- The formula over the integers. -/
def exactRBI (r s w : UInt32) : Int :=
  max 0 (50 * (3 * (r.toNat : Int) - s.toNat - w.toNat).tdiv (r.toNat + w.toNat + s.toNat + 1))

/-- The quotient of the code if the difference has wrapped. -/
def wrappedQuotient (r s w : UInt32) : Nat :=
  (2 ^ 32 - (s.toNat + w.toNat - 3 * r.toNat)) / (r.toNat + w.toNat + s.toNat + 1)

/-- The difference does not wrap, or the product is negative as an `int`. -/
def Clamped (r s w : UInt32) : Prop :=
  s.toNat + w.toNat ≤ 3 * r.toNat ∨ 2 ^ 31 ≤ wrappedQuotient r s w * 50 % 2 ^ 32

instance (r s w : UInt32) : Decidable (Clamped r s w) := inferInstanceAs (Decidable (_ ∨ _))

/-! ## What the code computes -/

theorem divisor_toNat (hfit : 3 * (r.toNat + s.toNat + w.toNat) + 1 < 2 ^ 31) :
    (r + w + s + 1).toNat = r.toNat + w.toNat + s.toNat + 1 := by
  rw [UInt32.toNat_add, UInt32.toNat_add, UInt32.toNat_add, show (1 : UInt32).toNat = 1 from rfl]
  omega

theorem difference_toNat (hfit : 3 * (r.toNat + s.toNat + w.toNat) + 1 < 2 ^ 31) :
    (3 * r - s - w).toNat =
      if s.toNat + w.toNat ≤ 3 * r.toNat then 3 * r.toNat - s.toNat - w.toNat
      else 2 ^ 32 - (s.toNat + w.toNat - 3 * r.toNat) := by
  rw [UInt32.toNat_sub, UInt32.toNat_sub, UInt32.toNat_mul, show (3 : UInt32).toNat = 3 from rfl]
  split <;> omega

/-- The product as an `int`, with 0 as the least result. -/
theorem maxOf_zero_toInt (u : UInt32) :
    (maxOf u.toInt32 0).toInt = if u.toNat < 2 ^ 31 then (u.toNat : Int) else 0 := by
  have hu := UInt32.toNat_lt u
  have hread := toInt32_toInt u
  rw [Int.bmod_def] at hread
  unfold maxOf
  split
  · rename_i hpos
    have hpos' := Int32.lt_iff_toInt_lt.mp hpos
    rw [show (0 : Int32).toInt = 0 from rfl] at hpos'
    split <;> omega
  · rename_i hneg
    have hneg' : u.toInt32.toInt ≤ 0 := Int32.le_iff_toInt_le.mp (Int32.not_lt.mp hneg)
    rw [show (0 : Int32).toInt = 0 from rfl]
    split <;> omega

theorem product_toNat (hfit : 3 * (r.toNat + s.toNat + w.toNat) + 1 < 2 ^ 31) :
    (divu (3 * r - s - w) (r + w + s + 1) * 50).toNat =
      (3 * r - s - w).toNat / (r.toNat + w.toNat + s.toNat + 1) * 50 % 2 ^ 32 := by
  have hdiv := divisor_toNat hfit
  have hne : r + w + s + 1 ≠ 0 := by
    intro hzero
    rw [hzero, show (0 : UInt32).toNat = 0 from rfl] at hdiv
    omega
  rw [divu, if_neg hne, UInt32.toNat_mul, UInt32.toNat_div, hdiv]
  rfl

/-! ## Both cases -/

/-- A difference that is not negative: the quotient is at most 2. -/
theorem calculateRBI_of_le (hfit : 3 * (r.toNat + s.toNat + w.toNat) + 1 < 2 ^ 31)
    (hstarted : ¬(r = 0 ∧ s = 0)) (hle : s.toNat + w.toNat ≤ 3 * r.toNat) :
    (calculateRBI r s w).toInt = exactRBI r s w ∧ exactRBI r s w ≤ 100 := by
  have hq : (3 * r.toNat - s.toNat - w.toNat) / (r.toNat + w.toNat + s.toNat + 1) < 3 := by
    apply Nat.div_lt_of_lt_mul
    omega
  have hexact : exactRBI r s w =
      ((3 * r.toNat - s.toNat - w.toNat) / (r.toNat + w.toNat + s.toNat + 1) * 50 : Nat) := by
    have hnum : 3 * (r.toNat : Int) - s.toNat - w.toNat =
        ((3 * r.toNat - s.toNat - w.toNat : Nat) : Int) := by omega
    have hden : (r.toNat : Int) + w.toNat + s.toNat + 1 =
        ((r.toNat + w.toNat + s.toNat + 1 : Nat) : Int) := by omega
    rw [exactRBI, hnum, hden, ← Int.ofNat_tdiv]
    omega
  constructor
  · rw [calculateRBI, if_neg hstarted, maxOf_zero_toInt, product_toNat hfit, difference_toNat hfit,
      if_pos hle, hexact]
    generalize (3 * r.toNat - s.toNat - w.toNat) / (r.toNat + w.toNat + s.toNat + 1) = q at hq
    rw [Nat.mod_eq_of_lt (by omega), if_pos (by omega)]
  · rw [hexact]
    omega

/-- A negative difference is 0 after the division over the integers. -/
theorem exactRBI_of_lt (hlt : 3 * r.toNat < s.toNat + w.toNat) : exactRBI r s w = 0 := by
  have hneg : 3 * (r.toNat : Int) - s.toNat - w.toNat =
      -((s.toNat + w.toNat - 3 * r.toNat : Nat) : Int) := by omega
  have hzero : ((s.toNat + w.toNat - 3 * r.toNat : Nat) : Int).tdiv
      (r.toNat + w.toNat + s.toNat + 1) = 0 := by
    apply Int.tdiv_eq_zero_of_lt
    · omega
    · omega
  rw [exactRBI, hneg, Int.neg_tdiv, hzero]
  rfl

/-- The product of a wrapped difference is never 0. -/
theorem wrappedQuotient_product_ne (hfit : 3 * (r.toNat + s.toNat + w.toNat) + 1 < 2 ^ 31)
    (hlt : 3 * r.toNat < s.toNat + w.toNat) : wrappedQuotient r s w * 50 % 2 ^ 32 ≠ 0 := by
  have hpos : 0 < wrappedQuotient r s w := by
    apply Nat.div_pos
    · omega
    · omega
  have hsmall : wrappedQuotient r s w < 2 ^ 31 := by
    apply Nat.div_lt_of_lt_mul
    omega
  intro hzero
  -- 50 has one factor 2, so the quotient would have the other 31
  have htwice : 2 ^ 31 * 2 ∣ wrappedQuotient r s w * 25 * 2 := by
    rw [Nat.mul_assoc]
    exact Nat.dvd_of_mod_eq_zero hzero
  have hdvd : 2 ^ 31 ∣ wrappedQuotient r s w :=
    (Nat.Coprime.pow_left 31 (by decide)).dvd_of_dvd_mul_right
      (Nat.dvd_of_mul_dvd_mul_right Nat.two_pos htwice)
  exact absurd (Nat.le_of_dvd hpos hdvd) (Nat.not_le.mpr hsmall)

/-- A difference that wraps: the result is 0 exactly if the product is negative
as an `int`. -/
theorem calculateRBI_of_lt (hfit : 3 * (r.toNat + s.toNat + w.toNat) + 1 < 2 ^ 31)
    (hstarted : ¬(r = 0 ∧ s = 0)) (hlt : 3 * r.toNat < s.toNat + w.toNat) :
    (calculateRBI r s w).toInt = 0 ↔ 2 ^ 31 ≤ wrappedQuotient r s w * 50 % 2 ^ 32 := by
  have hne := wrappedQuotient_product_ne hfit hlt
  have hproduct : (divu (3 * r - s - w) (r + w + s + 1) * 50).toNat =
      wrappedQuotient r s w * 50 % 2 ^ 32 := by
    rw [product_toNat hfit, difference_toNat hfit, if_neg (by omega), wrappedQuotient]
  rw [calculateRBI, if_neg hstarted, maxOf_zero_toInt, hproduct]
  generalize wrappedQuotient r s w * 50 % 2 ^ 32 = p at hne
  split <;> omega

/-- `calculate_RBI` is the formula, and lies in `0..100`, exactly if the
difference does not wrap or its product is negative as an `int`. -/
theorem calculateRBI_eq_iff (r s w : UInt32)
    (hfit : 3 * (r.toNat + s.toNat + w.toNat) + 1 < 2 ^ 31) (hstarted : ¬(r = 0 ∧ s = 0)) :
    ((calculateRBI r s w).toInt = exactRBI r s w ∧
      0 ≤ (calculateRBI r s w).toInt ∧ (calculateRBI r s w).toInt ≤ 100) ↔ Clamped r s w := by
  have hnonneg := calculateRBI_nonneg r s w
  by_cases hle : s.toNat + w.toNat ≤ 3 * r.toNat
  · obtain ⟨heq, hmax⟩ := calculateRBI_of_le hfit hstarted hle
    constructor
    · intro _
      exact Or.inl hle
    · intro _
      exact ⟨heq, hnonneg, heq ▸ hmax⟩
  · have hlt := Nat.lt_of_not_le hle
    rw [exactRBI_of_lt hlt, Clamped, or_iff_right hle, ← calculateRBI_of_lt hfit hstarted hlt]
    omega

theorem calculateRBI_eq_one_tick :
    (calculateRBI 1 0 0).toInt = exactRBI 1 0 0 ∧ (calculateRBI 1 0 0).toInt ≤ 100 := by
  have h := (calculateRBI_eq_iff 1 0 0 (by decide) (by decide)).mpr (by decide)
  exact ⟨h.1, h.2.2⟩

/-- Three ticks of sleep: the product of the wrapped quotient is a positive
`int`. -/
theorem calculateRBI_three_slept :
    exactRBI 0 3 0 = 0 ∧ (calculateRBI 0 3 0).toInt = 2147483598 := by
  decide

end Xv6.Process
