import Nexa.Model.Core.ArithUint256
import Nexa.ToMathlib.FewDigits

/-! # Compact targets

The compact form keeps the leading three bytes of a target and the number of its bytes. A byte more
is counted where the leading bit is set, since this bit is the sign; so the size is the number of
bytes of twice the target.
-/

namespace Nexa

open Nat

/-- The size byte of a number: the bytes of twice the number. -/
def compactSize (number : ℕ) : ℕ := if number = 0 then 0 else log 256 (2 * number) + 1

/-- The mantissa of a number: its bytes from the third leading one on are dropped. -/
def compactWord (number : ℕ) : ℕ := number * 256 ^ 3 / 256 ^ compactSize number

/-- A target that some bits encode. -/
def CompactRepresentable (target : Uint256) : Prop :=
  ∃ nBits, (setCompact nBits).target = target ∧ (setCompact nBits).fNegative = false ∧
    (setCompact nBits).fOverflow = false

/-- Bits as `GetCompact` writes them: positive, without overflow and in the one form of their target. -/
structure IsCanonical (nBits : UInt32) : Prop where
  positive : (setCompact nBits).target ≠ 0
  nonneg : (setCompact nBits).fNegative = false
  inRange : (setCompact nBits).fOverflow = false
  form : getCompact (setCompact nBits).target = nBits

/-! ## Sizes -/

variable {number size : ℕ}

theorem lt_pow_compactSize (number : ℕ) : 2 * number < 256 ^ compactSize number := by
  unfold compactSize
  split_ifs with zero
  · simp [zero]
  · exact lt_pow_succ_log_self (by norm_num) _

theorem pow_compactSize_le (positive : number ≠ 0) : 256 ^ compactSize number ≤ 512 * number := by
  have least := pow_log_le_self 256 (show 2 * number ≠ 0 by omega)
  rw [compactSize, if_neg positive]
  omega

theorem compactSize_pos_iff : 0 < compactSize number ↔ number ≠ 0 := by
  rw [compactSize]
  split_ifs with zero <;> simp [zero]

theorem compactSize_eq (lower : 256 ^ size ≤ 2 * number) (upper : 2 * number < 256 ^ (size + 1)) :
    compactSize number = size + 1 := by
  have positive : number ≠ 0 := by
    rintro rfl
    exact absurd lower (by simp)
  rw [compactSize, if_neg positive, log_eq_of_pow_le_of_lt_pow lower upper]

theorem compactSize_le (bound : number < 2 ^ 256) : compactSize number ≤ 33 := by
  unfold compactSize
  split_ifs
  · norm_num
  · have small : log 256 (2 * number) < 33 := log_lt_of_lt_pow (by omega) (by omega)
    omega

theorem compactWord_lt (number : ℕ) : compactWord number < 2 ^ 23 := by
  have upper := lt_pow_compactSize number
  rw [compactWord, div_lt_iff_lt_mul (by positivity)]
  omega

theorem le_compactWord (positive : number ≠ 0) : 2 ^ 15 ≤ compactWord number := by
  have lower := pow_compactSize_le positive
  rw [compactWord, le_div_iff_mul_le (by positivity)]
  omega

theorem compactWord_eq (is : compactSize number = size) : compactWord number = number * 256 ^ 3 / 256 ^ size := by
  rw [compactWord, is]

theorem compactWord_eq_div {dropped : ℕ} (is : compactSize number = dropped + 3) :
    compactWord number = number / 256 ^ dropped := by
  rw [compactWord_eq is, pow_add, Nat.mul_div_mul_right _ _ (by positivity)]

/-- The number without the low bytes that the compact form drops. -/
def compactFloor (number : ℕ) : ℕ := number / 256 ^ (compactSize number - 3) * 256 ^ (compactSize number - 3)

theorem compactFloor_le (number : ℕ) : compactFloor number ≤ number := div_mul_le_self ..

theorem compactFloor_eq_self (short : compactSize number ≤ 3) : compactFloor number = number := by
  simp [compactFloor, Nat.sub_eq_zero_of_le short]

theorem compactWord_mul_pow (number : ℕ) :
    compactWord number * 256 ^ compactSize number / 256 ^ 3 = compactFloor number := by
  rcases le_total (compactSize number) 3 with short | long
  · rw [compactFloor_eq_self short, compactWord, Nat.div_mul_cancel ((pow_dvd_pow 256 short).mul_left _),
      Nat.mul_div_cancel _ (by positivity)]
  · obtain ⟨dropped, size⟩ := Nat.exists_eq_add_of_le' long
    rw [compactWord_eq_div size, compactFloor, size, pow_add, ← mul_assoc, Nat.mul_div_cancel _ (by positivity),
      Nat.add_sub_cancel]

theorem isLeastExponent_compactSize (number : ℕ) : IsLeastExponent 256 (2 ^ 23) number (compactSize number - 3) := by
  constructor
  · have upper := lt_pow_compactSize number
    rw [div_lt_iff_lt_mul (by positivity)]
    rcases le_total (compactSize number) 3 with short | long
    · have powers := Nat.pow_le_pow_right (show 0 < 256 by norm_num) short
      rw [Nat.sub_eq_zero_of_le short]
      omega
    · obtain ⟨dropped, size⟩ := Nat.exists_eq_add_of_le' long
      rw [size, pow_add] at upper
      rw [size, Nat.add_sub_cancel]
      omega
  · intro some
    obtain ⟨dropped, size⟩ : ∃ dropped, compactSize number = dropped + 4 := ⟨compactSize number - 4, by omega⟩
    have lower := pow_compactSize_le (compactSize_pos_iff.mp (show 0 < compactSize number by omega))
    rw [size, pow_add] at lower
    rw [size, le_div_iff_mul_le (by positivity), show dropped + 4 - 3 - 1 = dropped by omega]
    omega

theorem le_compactFloor {other : ℕ} (short : HasMantissa 256 (2 ^ 23) other) (le : other ≤ number) :
    other ≤ compactFloor number :=
  (isLeastExponent_compactSize number).le_of_hasMantissa (by norm_num) (by decide) short le

theorem compactSize_floor (number : ℕ) : compactSize (compactFloor number) = compactSize number := by
  rcases le_total (compactSize number) 3 with short | long
  · rw [compactFloor_eq_self short]
  obtain ⟨dropped, size⟩ := Nat.exists_eq_add_of_le' long
  have lower := pow_compactSize_le (compactSize_pos_iff.mp (show 0 < compactSize number by omega))
  have upper := lt_pow_compactSize number
  have le := compactFloor_le number
  rw [size, pow_add] at lower upper
  have kept : 2 ^ 15 * 256 ^ dropped ≤ compactFloor number :=
    le_compactFloor ⟨2 ^ 15, dropped, by decide, rfl⟩ (by omega)
  rw [size]
  refine @compactSize_eq _ _ ?_ ?_
  · calc 256 ^ (dropped + 2) = 2 * (2 ^ 15 * 256 ^ dropped) := by rw [pow_add, ← mul_assoc, mul_comm]; rfl
      _ ≤ 2 * compactFloor number := mul_le_mul_left 2 kept
  · exact lt_of_le_of_lt (by omega) (upper.trans_eq (pow_add 256 dropped 3).symm)

theorem compactWord_floor (number : ℕ) : compactWord (compactFloor number) = compactWord number := by
  rcases le_total (compactSize number) 3 with short | long
  · rw [compactFloor_eq_self short]
  obtain ⟨dropped, size⟩ := Nat.exists_eq_add_of_le' long
  rw [compactWord_eq_div size, compactWord_eq_div ((compactSize_floor number).trans size), compactFloor, size,
    Nat.add_sub_cancel, Nat.mul_div_cancel _ (by positivity)]

/-! ## Bits -/

variable (nBits : UInt32)

/-- The number that the bits stand for. -/
def compactValue : ℕ := nBits.toNat % 2 ^ 23 * 256 ^ (nBits.toNat / 2 ^ 24) / 256 ^ 3

theorem toNat_target_setCompact : (setCompact nBits).target.toNat = compactValue nBits % 2 ^ 256 := by
  unfold setCompact compactValue
  generalize nBits.toNat % 2 ^ 23 = mantissa
  generalize nBits.toNat / 2 ^ 24 = size
  dsimp only
  split_ifs with short
  · rw [← pow_mul_pow_sub 256 short, mul_comm mantissa, Nat.mul_div_mul_left _ _ (by positivity), pow_mul]
    rfl
  · obtain ⟨dropped, rfl⟩ : ∃ dropped, size = dropped + 3 := ⟨size - 3, by omega⟩
    rw [BitVec.toNat_shiftLeft, BitVec.toNat_ofNat, Nat.shiftLeft_eq, pow_add, ← mul_assoc,
      Nat.mul_div_cancel _ (by positivity), pow_mul, Nat.mod_mul_mod]
    rfl

/-- Bits with a size and a mantissa. -/
def compactBits (size word : ℕ) : UInt32 := UInt32.ofNat (size * 2 ^ 24 + word)

variable {x : Uint256}

theorem toNat_compactBits {word : ℕ} (sizes : size < 2 ^ 8) (words : word < 2 ^ 24) :
    (compactBits size word).toNat = size * 2 ^ 24 + word := by
  rw [compactBits, UInt32.toNat_ofNat']
  exact mod_eq_of_lt (by omega)

theorem log2_div_eight {number : ℕ} (positive : number ≠ 0) : number.log2 / 8 = log 256 number := by
  have lower : 256 ^ (number.log2 / 8) ≤ number := by
    calc 256 ^ (number.log2 / 8) = 2 ^ (8 * (number.log2 / 8)) := by rw [pow_mul]; rfl
      _ ≤ 2 ^ number.log2 := Nat.pow_le_pow_right Nat.two_pos (Nat.mul_div_le ..)
      _ ≤ number := log2_self_le positive
  have upper : number < 256 ^ (number.log2 / 8 + 1) := by
    calc number < 2 ^ (number.log2 + 1) := lt_log2_self
      _ ≤ 2 ^ (8 * (number.log2 / 8 + 1)) := Nat.pow_le_pow_right Nat.two_pos (by omega)
      _ = 256 ^ (number.log2 / 8 + 1) := by rw [pow_mul]; rfl
  exact (log_eq_of_pow_le_of_lt_pow lower upper).symm

theorem leadingBytes (fits : x.toNat < 256 ^ size) : (if size ≤ 3 then x.toNat % 2 ^ 64 * 2 ^ (8 * (3 - size)) % 2 ^ 32
      else (x >>> (8 * (size - 3))).toNat % 2 ^ 32) = x.toNat * 256 ^ 3 / 256 ^ size := by
  have powers : 0 < 256 ^ size := by positivity
  have small : x.toNat * 256 ^ 3 / 256 ^ size < 2 ^ 32 := by
    rw [div_lt_iff_lt_mul powers]
    omega
  split_ifs with short
  · have word : x.toNat < 2 ^ 64 := fits.trans_le ((Nat.pow_le_pow_right (by norm_num) short).trans (by decide))
    rw [← pow_mul_pow_sub 256 short, mul_left_comm, Nat.mul_div_cancel_left _ powers] at small ⊢
    rw [mod_eq_of_lt word, pow_mul]
    exact mod_eq_of_lt small
  · obtain ⟨dropped, rfl⟩ : ∃ dropped, size = dropped + 3 := ⟨size - 3, by omega⟩
    rw [pow_add, Nat.mul_div_mul_right _ _ (by positivity)] at small ⊢
    rw [BitVec.toNat_ushiftRight, shiftRight_eq_div_pow, pow_mul]
    exact mod_eq_of_lt small

theorem ofNat_or_shiftLeft {word : ℕ} (words : word < 2 ^ 24) :
    UInt32.ofNat (word ||| size <<< 24) = compactBits size word := by
  rw [compactBits, Nat.or_comm, ← Nat.shiftLeft_add_eq_or_of_lt words, Nat.shiftLeft_eq]

theorem getCompact_eq (x : Uint256) : getCompact x = compactBits (compactSize x.toNat) (compactWord x.toNat) := by
  by_cases zero : x = 0
  · subst zero
    decide
  have positive : x.toNat ≠ 0 := fun none => zero (BitVec.eq_of_toNat_eq none)
  have bytes : (x.bits + 7) / 8 = log 256 x.toNat + 1 := by
    rw [Uint256.bits, if_neg zero, ← log2_div_eight positive]
    omega
  have fits : x.toNat < 256 ^ (log 256 x.toNat + 1) := lt_pow_succ_log_self (by norm_num) _
  have lower := pow_log_le_self 256 positive
  have leading := leadingBytes fits
  have small : x.toNat * 256 ^ 3 / 256 ^ (log 256 x.toNat + 1) < 2 ^ 24 := by
    rw [div_lt_iff_lt_mul (by positivity)]
    omega
  have split : 256 ^ (log 256 x.toNat + 1 + 1) = 256 ^ (log 256 x.toNat + 1) * 256 := pow_succ ..
  simp only [getCompact, bytes, leading]
  split_ifs with sign
  · have high : 2 ^ 23 ≤ x.toNat * 256 ^ 3 / 256 ^ (log 256 x.toNat + 1) := by omega
    rw [le_div_iff_mul_le (by positivity)] at high
    have size : compactSize x.toNat = log 256 x.toNat + 1 + 1 := compactSize_eq (by omega) (by omega)
    rw [ofNat_or_shiftLeft (by omega), compactWord, size, split, ← Nat.div_div_eq_div_mul]
    rfl
  · have low : x.toNat * 256 ^ 3 / 256 ^ (log 256 x.toNat + 1) < 2 ^ 23 := by omega
    rw [div_lt_iff_lt_mul (by positivity)] at low
    have size : compactSize x.toNat = log 256 x.toNat + 1 := compactSize_eq (by omega) (by omega)
    rw [ofNat_or_shiftLeft small, compactWord, size]

theorem toNat_getCompact (x : Uint256) : (getCompact x).toNat = compactSize x.toNat * 2 ^ 24 + compactWord x.toNat := by
  have size := compactSize_le x.isLt
  have word := compactWord_lt x.toNat
  rw [getCompact_eq, toNat_compactBits (by omega) (by omega)]

theorem compactValue_getCompact (x : Uint256) : compactValue (getCompact x) = compactFloor x.toNat := by
  have word := compactWord_lt x.toNat
  have mantissa : (compactSize x.toNat * 2 ^ 24 + compactWord x.toNat) % 2 ^ 23 = compactWord x.toNat := by omega
  have size : (compactSize x.toNat * 2 ^ 24 + compactWord x.toNat) / 2 ^ 24 = compactSize x.toNat := by omega
  rw [compactValue, toNat_getCompact, mantissa, size, compactWord_mul_pow]

theorem compactValue_getCompact_le (x : Uint256) : compactValue (getCompact x) ≤ x.toNat := by
  rw [compactValue_getCompact]
  exact compactFloor_le _

theorem toNat_target_getCompact (x : Uint256) :
    (setCompact (getCompact x)).target.toNat = compactValue (getCompact x) := by
  rw [toNat_target_setCompact]
  exact mod_eq_of_lt ((compactValue_getCompact_le x).trans_lt x.isLt)

theorem fNegative_getCompact (x : Uint256) : (setCompact (getCompact x)).fNegative = false := by
  have word := compactWord_lt x.toNat
  have sign : (getCompact x).toNat / 2 ^ 23 % 2 = 0 := by
    rw [toNat_getCompact]
    omega
  simp only [setCompact, sign]
  simp

theorem fOverflow_getCompact (x : Uint256) : (setCompact (getCompact x)).fOverflow = false := by
  have word := compactWord_lt x.toNat
  have sizes := compactSize_le x.isLt
  have bits := toNat_getCompact x
  have size : (getCompact x).toNat / 2 ^ 24 = compactSize x.toNat := by omega
  have mantissa : (getCompact x).toNat % 2 ^ 23 = compactWord x.toNat := by omega
  -- the largest size has a mantissa of two bytes
  have largest : compactSize x.toNat = 33 → compactWord x.toNat ≤ 0xffff := by
    intro size
    rw [compactWord, size]
    omega
  simp only [setCompact, size, mantissa, decide_eq_false_iff_not, not_and_or, not_or]
  right
  refine ⟨by omega, .inr (by omega), ?_⟩
  rcases lt_or_ge 32 (compactSize x.toNat) with long | short
  · rw [if_neg (by omega)]
    exact .inl (not_lt.mpr (largest (by omega)))
  · exact .inr (not_lt.mpr short)

theorem le_target_getCompact {other : ℕ} (short : HasMantissa 256 (2 ^ 23) other) (le : other ≤ x.toNat) :
    other ≤ (setCompact (getCompact x)).target.toNat := by
  rw [toNat_target_getCompact, compactValue_getCompact]
  exact le_compactFloor short le

section

variable {nBits : UInt32} (inRange : (setCompact nBits).fOverflow = false)
include inRange

theorem compactValue_of_inRange : compactValue nBits < 2 ^ 256 ∧ HasMantissa 256 (2 ^ 23) (compactValue nBits) := by
  have word : nBits.toNat % 2 ^ 23 < 2 ^ 23 := mod_lt _ (by norm_num)
  rw [compactValue]
  simp only [setCompact, decide_eq_false_iff_not] at inRange
  generalize nBits.toNat % 2 ^ 23 = mantissa at word inRange
  generalize nBits.toNat / 2 ^ 24 = size at inRange
  rcases le_total size 3 with short | long
  · have powers := Nat.pow_le_pow_right (show 0 < 256 by norm_num) short
    have small : mantissa * 256 ^ size / 256 ^ 3 ≤ mantissa := by
      refine Nat.div_le_of_le_mul ?_
      rw [mul_comm (256 ^ 3)]
      exact mul_le_mul_left mantissa powers
    exact ⟨by omega, mantissa * 256 ^ size / 256 ^ 3, 0, by omega, by omega⟩
  · obtain ⟨exponent, rfl⟩ := Nat.exists_eq_add_of_le' long
    rw [pow_add, ← mul_assoc, Nat.mul_div_cancel _ (by positivity)]
    refine ⟨?_, mantissa, exponent, word, rfl⟩
    by_cases zero : mantissa = 0
    · simp [zero]
    have sizes : exponent ≤ 29 ∨ exponent = 30 ∧ mantissa ≤ 0xffff ∨ exponent = 31 ∧ mantissa ≤ 0xff := by
      split_ifs at inRange with few
      · omega
      · omega
    rcases sizes with short | ⟨rfl, two⟩ | ⟨rfl, one⟩
    · have powers := Nat.pow_le_pow_right (show 0 < 256 by norm_num) short
      calc mantissa * 256 ^ exponent ≤ 2 ^ 23 * 256 ^ 29 := Nat.mul_le_mul word.le powers
        _ < 2 ^ 256 := by decide
    · omega
    · omega

theorem toNat_target_of_inRange : (setCompact nBits).target.toNat = compactValue nBits := by
  rw [toNat_target_setCompact, mod_eq_of_lt (compactValue_of_inRange inRange).1]

theorem hasMantissa_of_inRange : HasMantissa 256 (2 ^ 23) (setCompact nBits).target.toNat := by
  rw [toNat_target_of_inRange inRange]
  exact (compactValue_of_inRange inRange).2

end

theorem compactRepresentable_iff {target : Uint256} :
    CompactRepresentable target ↔ HasMantissa 256 (2 ^ 23) target.toNat := by
  constructor
  · rintro ⟨nBits, rfl, -, inRange⟩
    exact hasMantissa_of_inRange inRange
  · intro short
    refine ⟨getCompact target, BitVec.eq_of_toNat_eq (le_antisymm ?_ (le_target_getCompact short le_rfl)),
      fNegative_getCompact target, fOverflow_getCompact target⟩
    rw [toNat_target_getCompact]
    exact compactValue_getCompact_le target

theorem target_getCompact_ne_zero (positive : x ≠ 0) : (setCompact (getCompact x)).target ≠ 0 := by
  have nonzero : x.toNat ≠ 0 := fun none => positive (BitVec.eq_of_toNat_eq none)
  have one := @le_target_getCompact x 1 ⟨1, 0, by norm_num, rfl⟩ (by omega)
  intro none
  rw [none] at one
  exact absurd one (by decide)

theorem isCanonical_getCompact (positive : x ≠ 0) : IsCanonical (getCompact x) := by
  refine ⟨target_getCompact_ne_zero positive, fNegative_getCompact x, fOverflow_getCompact x, ?_⟩
  rw [getCompact_eq, toNat_target_getCompact, compactValue_getCompact, compactSize_floor,
    compactWord_floor, ← getCompact_eq]

/-! ## Round trips -/

/-- Bits in normal form: zero, or a mantissa without leading zeros of which no bit lies below the number. -/
def HasNormalForm : Prop :=
  nBits = 0 ∨ 2 ^ 15 ≤ nBits.toNat % 2 ^ 23 ∧ 256 ^ 3 ∣ nBits.toNat % 2 ^ 23 * 256 ^ (nBits.toNat / 2 ^ 24)

theorem getCompact_target {nBits : UInt32} (normal : HasNormalForm nBits)
    (nonneg : (setCompact nBits).fNegative = false) (inRange : (setCompact nBits).fOverflow = false) :
    getCompact (setCompact nBits).target = nBits := by
  obtain rfl | ⟨leading, number, whole⟩ := normal
  · decide
  have target : (setCompact nBits).target.toNat = number := by
    rw [toNat_target_of_inRange inRange, compactValue, whole]
    exact Nat.mul_div_cancel_left _ (by norm_num)
  have positive : 0 < 256 ^ (nBits.toNat / 2 ^ 24) := by positivity
  have lower := mul_le_mul_right (256 ^ (nBits.toNat / 2 ^ 24)) leading
  have upper := Nat.mul_lt_mul_of_pos_right (mod_lt nBits.toNat (show 0 < 2 ^ 23 by norm_num)) positive
  have size : compactSize number = nBits.toNat / 2 ^ 24 := by
    generalize nBits.toNat / 2 ^ 24 = exponent at lower upper whole
    cases exponent with
    | zero => omega
    | succ size =>
      exact compactSize_eq (by omega) (by omega)
  have word : compactWord number = nBits.toNat % 2 ^ 23 := by
    rw [compactWord_eq size, mul_comm, ← whole]
    exact Nat.mul_div_cancel _ positive
  -- the sign bit is clear because the number is not zero
  have sign : nBits.toNat / 2 ^ 23 % 2 ≠ 1 := by
    simp only [setCompact, decide_eq_false_iff_not, not_and] at nonneg target
    refine nonneg fun zero => ?_
    rw [zero] at target
    simp at target
    omega
  have range := nBits.toNat_lt
  rw [getCompact_eq, target, compactBits]
  apply UInt32.toNat.inj
  rw [UInt32.toNat_ofNat']
  omega

/-- `GetCompact` rounds down to the greatest target that bits can encode, and restores bits in normal form. -/
theorem compact_round_trips :
    (∀ x, CompactRepresentable (setCompact (getCompact x)).target ∧ (setCompact (getCompact x)).target ≤ x ∧
      ∀ other, CompactRepresentable other → other ≤ x → other ≤ (setCompact (getCompact x)).target) ∧
    ∀ nBits, HasNormalForm nBits → (setCompact nBits).fNegative = false → (setCompact nBits).fOverflow = false →
      getCompact (setCompact nBits).target = nBits := by
  refine ⟨fun x => ⟨⟨getCompact x, rfl, fNegative_getCompact x, fOverflow_getCompact x⟩, ?_, ?_⟩, ?_⟩
  · rw [BitVec.le_def, toNat_target_getCompact]
    exact compactValue_getCompact_le x
  · intro other representable le
    exact BitVec.le_def.mpr (le_target_getCompact (compactRepresentable_iff.mp representable) le)
  · intro nBits normal nonneg inRange
    exact getCompact_target normal nonneg inRange

end Nexa
