import Mathlib

/-! # Numbers with few significant digits

A mantissa below a bound and an exponent stand for a number of any size, most of whose digits are
zero. Digits beyond the mantissa are dropped by rounding down, which finds the greatest such number.
-/

namespace Nat

/-- A number with a mantissa below `bound` in the given base. -/
def HasMantissa (base bound number : ℕ) : Prop :=
  ∃ mantissa exponent, mantissa < bound ∧ number = mantissa * base ^ exponent

/-- The least exponent for which the mantissa of a number is below `bound`. -/
structure IsLeastExponent (base bound number exponent : ℕ) : Prop where
  lt : number / base ^ exponent < bound
  least : exponent ≠ 0 → bound ≤ number / base ^ (exponent - 1)

variable {base bound number exponent : ℕ}

section

variable (least : IsLeastExponent base bound number exponent) (positive : 0 < base) (divides : base ∣ bound)
include least positive divides

theorem IsLeastExponent.le_of_hasMantissa {other : ℕ} (short : HasMantissa base bound other) (le : other ≤ number) :
    other ≤ number / base ^ exponent * base ^ exponent := by
  obtain ⟨mantissa, shift, small, rfl⟩ := short
  have powers : 0 < base ^ exponent := Nat.pow_pos positive
  rcases Nat.lt_or_ge shift exponent with below | above
  · -- a smaller exponent cannot reach the digits that are kept
    obtain ⟨digits, rfl⟩ := divides
    have kept := least.least (by omega)
    have split : base ^ exponent = base ^ (exponent - 1) * base := by
      rw [← Nat.pow_succ]
      congr 1
      omega
    have mantissas : digits ≤ number / base ^ exponent := by
      rw [split, ← Nat.div_div_eq_div_mul, Nat.le_div_iff_mul_le positive, Nat.mul_comm]
      exact kept
    calc mantissa * base ^ shift ≤ base * digits * base ^ (exponent - 1) :=
          Nat.mul_le_mul small.le (Nat.pow_le_pow_right positive (by omega))
      _ = digits * base ^ exponent := by
          rw [split, Nat.mul_comm base, Nat.mul_assoc, Nat.mul_comm base]
      _ ≤ number / base ^ exponent * base ^ exponent := Nat.mul_le_mul_right _ mantissas
  · have split : mantissa * base ^ shift = mantissa * base ^ (shift - exponent) * base ^ exponent := by
      rw [Nat.mul_assoc, ← Nat.pow_add, Nat.sub_add_cancel above]
    rw [split] at le ⊢
    exact Nat.mul_le_mul_right _ ((Nat.le_div_iff_mul_le powers).mpr le)

theorem IsLeastExponent.eq_of_hasMantissa (short : HasMantissa base bound number) :
    number / base ^ exponent * base ^ exponent = number :=
  (Nat.div_mul_le_self ..).antisymm (least.le_of_hasMantissa positive divides short le_rfl)

end

end Nat
