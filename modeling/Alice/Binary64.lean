import Mathlib.Data.Int.Log
import Mathlib.Data.Rat.Floor
import Mathlib.Tactic.Positivity

/-! # Rounding to binary64

Floating point numbers are the rationals that they stand for, and an operation
is the exact one followed by rounding to nearest, ties to even.  Numbers that
are too large for the format are not considered. -/

namespace Binary64

/-- The nearest integer, and the even one of two that are equally near. -/
def roundEven (x : ℚ) : ℤ :=
  if x - ⌊x⌋ < 1 / 2 then
    ⌊x⌋
  else if 1 / 2 < x - ⌊x⌋ then
    ⌊x⌋ + 1
  else if ⌊x⌋ % 2 = 0 then
    ⌊x⌋
  else
    ⌊x⌋ + 1

/-- The distance of the numbers of the format around `x`. -/
def ulp (x : ℚ) : ℚ :=
  2 ^ max (Int.log 2 |x| - 52) (-1074)

def rounded (x : ℚ) : ℚ :=
  roundEven (x / ulp x) * ulp x

def add (x y : ℚ) : ℚ :=
  rounded (x + y)

def mul (x y : ℚ) : ℚ :=
  rounded (x * y)

def div (x y : ℚ) : ℚ :=
  rounded (x / y)

theorem roundEven_intCast (n : ℤ) : roundEven n = n := by
  simp [roundEven]

theorem abs_roundEven_sub_le (x : ℚ) : |(roundEven x : ℚ) - x| ≤ 1 / 2 := by
  have below := Int.floor_le x
  have above := Int.lt_floor_add_one x
  unfold roundEven
  split_ifs with low high even
  · rw [abs_le]
    constructor <;> linarith
  · push_cast
    rw [abs_le]
    constructor <;> linarith
  · rw [abs_le]
    constructor <;> linarith
  · push_cast
    rw [abs_le]
    constructor <;> linarith

theorem ulp_pos (x : ℚ) : 0 < ulp x :=
  zpow_pos (by norm_num) _

theorem abs_rounded_sub_le (x : ℚ) : |rounded x - x| ≤ ulp x / 2 := by
  have positive := ulp_pos x
  have error := abs_roundEven_sub_le (x / ulp x)
  have scaled : rounded x - x = ((roundEven (x / ulp x) : ℚ) - x / ulp x) * ulp x := by
    rw [sub_mul, div_mul_cancel₀ x positive.ne', rounded]
  rw [scaled, abs_mul, abs_of_pos positive]
  calc |(roundEven (x / ulp x) : ℚ) - x / ulp x| * ulp x
      ≤ 1 / 2 * ulp x := mul_le_mul_of_nonneg_right error positive.le
    _ = ulp x / 2 := by ring

variable {x : ℚ} {k : ℕ}

theorem ulp_le_of_lt (small : |x| < 2 ^ (k + 1)) : ulp x ≤ 2 ^ ((k : ℤ) - 52) := by
  have logBound : Int.log 2 |x| ≤ k := by
    rcases eq_or_ne x 0 with isZero | nonzero
    · rw [isZero, abs_zero, Int.log_zero_right]
      exact Int.natCast_nonneg k
    · by_contra above
      have lower : ((2 : ℕ) : ℚ) ^ Int.log 2 |x| ≤ |x| :=
        Int.zpow_log_le_self (by norm_num) (abs_pos.2 nonzero)
      have higher : ((2 : ℕ) : ℚ) ^ ((k : ℤ) + 1) ≤ ((2 : ℕ) : ℚ) ^ Int.log 2 |x| :=
        zpow_le_zpow_right₀ (by norm_num) (by omega)
      have bound := (higher.trans lower).trans_lt small
      exact lt_irrefl _ bound
  apply zpow_le_zpow_right₀ (by norm_num)
  omega

theorem abs_rounded_sub_le_of_lt
    {x : ℚ} {k : ℕ} (small : |x| < 2 ^ (k + 1)) :
    |rounded x - x| ≤ 2 ^ ((k : ℤ) - 53) := by
  have halved : (2 : ℚ) ^ ((k : ℤ) - 52) / 2 = 2 ^ ((k : ℤ) - 53) := by
    rw [show (k : ℤ) - 52 = (k : ℤ) - 53 + 1 by omega, zpow_add_one₀ (by norm_num)]
    norm_num
  calc |rounded x - x| ≤ ulp x / 2 := abs_rounded_sub_le x
    _ ≤ 2 ^ ((k : ℤ) - 52) / 2 := div_le_div_of_nonneg_right (ulp_le_of_lt small) (by norm_num)
    _ = 2 ^ ((k : ℤ) - 53) := halved

/-! ## The numbers of the format -/

/-- A number of the format, or one that is only too large for it. -/
def Representable (x : ℚ) : Prop :=
  ∃ mantissa exponent : ℤ, |mantissa| < 2 ^ 53 ∧ -1074 ≤ exponent ∧ x = mantissa * 2 ^ exponent

theorem Representable.mul_two_pow (representable : Representable x) (k : ℕ) :
    Representable (x * 2 ^ k) := by
  obtain ⟨mantissa, exponent, small, large, rfl⟩ := representable
  refine ⟨mantissa, exponent + k, small, by omega, ?_⟩
  rw [zpow_add₀ (by norm_num), zpow_natCast, mul_assoc]

theorem rounded_of_representable (representable : Representable x) : rounded x = x := by
  obtain ⟨mantissa, exponent, small, large, isProduct⟩ := representable
  have positive : (0 : ℚ) < 2 ^ exponent := zpow_pos (by norm_num) _
  rcases eq_or_ne mantissa 0 with isZero | nonzero
  · simp [isProduct, isZero, rounded, roundEven]
  have xPositive : 0 < |x| := by
    rw [isProduct]
    exact abs_pos.2 (mul_ne_zero (Int.cast_ne_zero.2 nonzero) positive.ne')
  have xBound : |x| < ((2 : ℕ) : ℚ) ^ (53 + exponent) := by
    rw [Nat.cast_ofNat, zpow_add₀ (by norm_num), isProduct, abs_mul, abs_of_pos positive]
    refine mul_lt_mul_of_pos_right ?_ positive
    exact_mod_cast small
  have logBound : Int.log 2 |x| < 53 + exponent :=
    (Int.lt_zpow_iff_log_lt (by norm_num) xPositive).1 xBound
  -- The distance divides the number.
  obtain ⟨k, isDifference⟩ := Int.eq_ofNat_of_zero_le
    (show 0 ≤ exponent - max (Int.log 2 |x| - 52) (-1074) by omega)
  have scaled : x = ((mantissa * 2 ^ k : ℤ) : ℚ) * ulp x := by
    calc x = mantissa * 2 ^ exponent := isProduct
      _ = mantissa * (2 ^ (k : ℤ) * ulp x) := by
          rw [ulp, ← zpow_add₀ (by norm_num)]
          congr 2
          omega
      _ = ((mantissa * 2 ^ k : ℤ) : ℚ) * ulp x := by
          push_cast
          rw [zpow_natCast, mul_assoc]
  have quotient := (div_eq_iff (ulp_pos x).ne').2 scaled
  rw [rounded, quotient, roundEven_intCast]
  exact scaled.symm

theorem representable_of_le {mantissa exponent : ℤ} (small : |mantissa| ≤ 2 ^ 53)
    (large : -1074 ≤ exponent) : Representable (mantissa * 2 ^ exponent) := by
  rcases small.lt_or_eq with smaller | isBound
  · exact ⟨mantissa, exponent, smaller, large, rfl⟩
  · have shifted : (2 : ℚ) ^ (exponent + 1) = 2 ^ exponent * 2 := zpow_add_one₀ (by norm_num) _
    obtain isBound | isBound := (abs_eq (by norm_num)).1 isBound
    · refine ⟨2 ^ 52, exponent + 1, by norm_num, by omega, ?_⟩
      rw [isBound, shifted]
      ring
    · refine ⟨-2 ^ 52, exponent + 1, by norm_num, by omega, ?_⟩
      rw [isBound, shifted]
      ring

theorem representable_intCast {n : ℤ} (small : |n| ≤ 2 ^ 53) :
    Representable n := by
  simpa using representable_of_le small (by decide : -1074 ≤ (0 : ℤ))

theorem rounded_natCast {n : ℕ} (small : n < 2 ^ 53) : rounded (n : ℚ) = n := by
  have bound : |(n : ℤ)| ≤ 2 ^ 53 := by
    exact_mod_cast small.le
  exact_mod_cast rounded_of_representable (representable_intCast bound)

theorem abs_div_ulp_lt (x : ℚ) : |x / ulp x| < 2 ^ 53 := by
  rcases eq_or_ne x 0 with isZero | nonzero
  · simp [isZero]
  have xBound : |x| < ((2 : ℕ) : ℚ) ^ (Int.log 2 |x| + 1) :=
    Int.lt_zpow_succ_log_self (by norm_num) _
  have distance : (2 : ℚ) ^ (Int.log 2 |x| - 52) ≤ ulp x :=
    zpow_le_zpow_right₀ (by norm_num) (le_max_left _ _)
  rw [abs_div, abs_of_pos (ulp_pos x), div_lt_iff₀ (ulp_pos x)]
  calc |x| < 2 ^ (Int.log 2 |x| + 1) := by exact_mod_cast xBound
    _ = 2 ^ 53 * 2 ^ (Int.log 2 |x| - 52) := by
        rw [← zpow_natCast, ← zpow_add₀ (by norm_num)]
        congr 1
        omega
    _ ≤ 2 ^ 53 * ulp x := by gcongr

theorem abs_roundEven_le {n : ℕ} (small : |x| < n) :
    |roundEven x| ≤ n := by
  have error := abs_roundEven_sub_le x
  have bound : |(roundEven x : ℚ)| < n + 1 := by
    calc |(roundEven x : ℚ)| = |(roundEven x : ℚ) - x + x| := by rw [sub_add_cancel]
      _ ≤ |(roundEven x : ℚ) - x| + |x| := abs_add_le _ _
      _ < n + 1 := by linarith
  have cast : ((|roundEven x| : ℤ) : ℚ) < ((n + 1 : ℤ) : ℚ) := by
    push_cast
    exact bound
  have := Int.cast_lt.1 cast
  omega

/-- The mantissa of a rounded number, for the exponent of the distance. -/
theorem exists_rounded_eq (x : ℚ) : ∃ mantissa : ℤ, |mantissa| ≤ 2 ^ 53 ∧
      rounded x = mantissa * 2 ^ max (Int.log 2 |x| - 52) (-1074) := by
  refine ⟨roundEven (x / ulp x), ?_, rfl⟩
  have bound : |x / ulp x| < ((2 ^ 53 : ℕ) : ℚ) := by exact_mod_cast abs_div_ulp_lt x
  exact_mod_cast abs_roundEven_le bound

theorem representable_rounded (x : ℚ) : Representable (rounded x) := by
  obtain ⟨mantissa, small, isRounded⟩ := exists_rounded_eq x
  rw [isRounded]
  exact representable_of_le small (le_max_right _ _)

theorem Representable.ceil (representable : Representable x) : Representable (⌈x⌉ : ℤ) := by
  obtain ⟨mantissa, exponent, small, large, isProduct⟩ := representable
  rcases le_or_gt 0 exponent with isInteger | hasFraction
  · obtain ⟨k, rfl⟩ := Int.eq_ofNat_of_zero_le isInteger
    have isCast : x = ((mantissa * 2 ^ k : ℤ) : ℚ) := by
      rw [isProduct, zpow_natCast]
      push_cast
      rfl
    rw [isCast, Int.ceil_intCast, ← isCast]
    exact ⟨mantissa, k, small, large, isProduct⟩
  · apply representable_intCast
    have positive : (0 : ℚ) < 2 ^ exponent := zpow_pos (by norm_num) _
    have half : (2 : ℚ) ^ exponent ≤ 2 ^ (-1 : ℤ) := zpow_le_zpow_right₀ (by norm_num) (by omega)
    have cast : |(mantissa : ℚ)| < 2 ^ 53 := by exact_mod_cast small
    have bound : |x| ≤ 2 ^ 53 * 2 ^ (-1 : ℤ) := by
      rw [isProduct, abs_mul, abs_of_pos positive]
      exact mul_le_mul cast.le half positive.le (by norm_num)
    norm_num at bound
    have lower := Int.le_ceil x
    have upper := Int.ceil_lt_add_one x
    obtain ⟨above, below⟩ := abs_le.1 bound
    rw [abs_le]
    constructor
    · have : ((-2 ^ 53 : ℤ) : ℚ) ≤ (⌈x⌉ : ℤ) := by
        push_cast
        linarith
      exact_mod_cast this
    · have : ((⌈x⌉ : ℤ) : ℚ) ≤ ((2 ^ 53 : ℤ) : ℚ) := by
        push_cast
        linarith
      exact_mod_cast this

/-! ## Rounded natural numbers -/

theorem log_natCast_nonneg (n : ℕ) : 0 ≤ Int.log 2 |(n : ℚ)| := by
  rw [Nat.abs_cast, Int.log_natCast]
  exact Int.natCast_nonneg _

theorem rounded_div_two_pow (small : k ≤ 1000) (n : ℕ) :
    rounded (rounded (n : ℚ) / 2 ^ k) = rounded (n : ℚ) / 2 ^ k := by
  obtain ⟨mantissa, mantissaSmall, isRounded⟩ := exists_rounded_eq (n : ℚ)
  have logBound := log_natCast_nonneg n
  apply rounded_of_representable
  have divided : rounded (n : ℚ) / 2 ^ k =
      mantissa * 2 ^ (max (Int.log 2 |(n : ℚ)| - 52) (-1074) - k) := by
    rw [isRounded, zpow_sub₀ (by norm_num), zpow_natCast, mul_div_assoc]
  rw [divided]
  exact representable_of_le mantissaSmall (by omega)

theorem le_roundEven_of_le {n : ℤ} (le : (n : ℚ) ≤ x) : n ≤ roundEven x := by
  have floor : n ≤ ⌊x⌋ := Int.le_floor.2 le
  unfold roundEven
  split_ifs <;> omega

theorem rounded_nonneg (nonneg : 0 ≤ x) : 0 ≤ rounded x := by
  have quotient : ((0 : ℤ) : ℚ) ≤ x / ulp x := by
    exact div_nonneg nonneg (ulp_pos x).le
  exact mul_nonneg (by exact_mod_cast le_roundEven_of_le quotient) (ulp_pos x).le

/-- Rounding does not pass a power of two. -/
theorem two_pow_le_rounded_iff (small : k < 53) (n : ℕ) :
    (2 : ℚ) ^ k ≤ rounded (n : ℚ) ↔ 2 ^ k ≤ n := by
  rcases le_or_gt (2 ^ k) n with large | less
  · refine iff_of_true ?_ large
    have positive : 0 < n := (Nat.two_pow_pos k).trans_le large
    have castPositive : (0 : ℚ) < n := Nat.cast_pos.2 positive
    have kBound : (k : ℤ) ≤ Int.log 2 |(n : ℚ)| := by
      rw [Nat.abs_cast, ← Int.zpow_le_iff_le_log (by norm_num) castPositive]
      exact_mod_cast large
    have exponent : max (Int.log 2 |(n : ℚ)| - 52) (-1074) = Int.log 2 |(n : ℚ)| - 52 := by omega
    have power : (2 : ℚ) ^ Int.log 2 |(n : ℚ)| = 2 ^ 52 * ulp n := by
      rw [ulp, exponent, ← zpow_natCast, ← zpow_add₀ (by norm_num)]
      congr 1
      omega
    have below : (2 : ℚ) ^ Int.log 2 |(n : ℚ)| ≤ n := by
      have := Int.zpow_log_le_self (by norm_num : 1 < 2) castPositive
      exact_mod_cast this
    have quotient : ((2 ^ 52 : ℤ) : ℚ) ≤ n / ulp n := by
      rw [le_div_iff₀ (ulp_pos _)]
      calc ((2 ^ 52 : ℤ) : ℚ) * ulp n = 2 ^ 52 * ulp n := by norm_num
        _ = 2 ^ Int.log 2 |(n : ℚ)| := power.symm
        _ ≤ n := below
    have mantissa : ((2 ^ 52 : ℤ) : ℚ) ≤ roundEven (n / ulp n) :=
      Int.cast_le.2 (le_roundEven_of_le quotient)
    calc (2 : ℚ) ^ k = 2 ^ (k : ℤ) := (zpow_natCast _ _).symm
      _ ≤ 2 ^ Int.log 2 |(n : ℚ)| := zpow_le_zpow_right₀ (by norm_num) kBound
      _ = 2 ^ 52 * ulp n := power
      _ ≤ roundEven (n / ulp n) * ulp n := by
          refine mul_le_mul_of_nonneg_right ?_ (ulp_pos _).le
          exact_mod_cast mantissa
  · have exact : rounded (n : ℚ) = n := rounded_natCast
      (less.trans_le (Nat.pow_le_pow_right (by decide) small.le))
    rw [exact]
    exact_mod_cast Iff.rfl

end Binary64
