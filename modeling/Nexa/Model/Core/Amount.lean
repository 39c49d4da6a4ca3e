import Mathlib.Algebra.Ring.Int.Defs
import Nexa.Model.Consensus.Validation

/-! # Amounts

`CAmount` is a signed 64-bit integer. The node adds and subtracts amounts without checks where it
relies on earlier range tests; an overflow there is undefined behaviour, which is a crash here.
-/

namespace Nexa

abbrev CAmount := Int64

/-- `MAX_MONEY` of `amount.h`: 21 million million coins of 100 satoshis. -/
def maxMoney : ℤ := 21000000000000 * 100

def moneyRange (nValue : ℤ) : Prop := 0 ≤ nValue ∧ nValue ≤ maxMoney

instance (nValue : ℤ) : Decidable (moneyRange nValue) := inferInstanceAs (Decidable (_ ∧ _))

abbrev fitsInt64 (value : ℤ) : Prop := -2 ^ 63 ≤ value ∧ value < 2 ^ 63

/-- The result of an `int64_t` operation, a crash when it does not fit. -/
def CAmount.ofResult (result : ℤ) : Validation CAmount :=
  if fitsInt64 result then pure (Int64.ofInt result) else crash

def CAmount.add (x y : CAmount) : Validation CAmount := CAmount.ofResult (x.toInt + y.toInt)

theorem CAmount.ofResult_eq_ok_iff {result : ℤ} {amount : CAmount} :
    CAmount.ofResult result = .ok amount ↔ amount.toInt = result := by
  constructor
  · intro computed
    rw [CAmount.ofResult] at computed
    split_ifs at computed with fits
    · cases computed
      exact Int64.toInt_ofInt_of_le fits.1 fits.2
    · cases computed
  · intro same
    have fits : -2 ^ 63 ≤ result ∧ result < 2 ^ 63 := same ▸ ⟨amount.le_toInt, amount.toInt_lt⟩
    rw [CAmount.ofResult, if_pos fits, ← same, Int64.ofInt_toInt]
    rfl

theorem CAmount.add_eq_ok_iff {x y sum : CAmount} :
    x.add y = .ok sum ↔ sum.toInt = x.toInt + y.toInt := CAmount.ofResult_eq_ok_iff

end Nexa
