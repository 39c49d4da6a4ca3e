import Mathlib
import Nexa.Model.Chain.Daa

/-! # The ASERT schedule

The target after an anchor is the anchor's target times a fixed-point power of two, rounded down and
held between 1 and `powLimit`. The power splits into a cubic factor for the fraction and a shift for
the integer part of the exponent; it never decreases with the exponent, also where the integer part
steps, because the factor stays between 65536 and twice that.
-/

namespace Nexa

open Nat

/-- The polynomial of `CalculateASERT` before it is cut to 64 bits. -/
def asertPolynomial (frac : ℕ) : ℕ := 195766423245049 * frac + 971821376 * frac ^ 2 + 5127 * frac ^ 3 + 2 ^ 47

variable {frac : ℕ}

theorem asertPolynomial_mono {frac' : ℕ} (le : frac ≤ frac') : asertPolynomial frac ≤ asertPolynomial frac' := by
  unfold asertPolynomial
  gcongr

theorem asertPolynomial_lt (bound : frac < 65536) : asertPolynomial frac < 2 ^ 64 := by
  have largest : asertPolynomial frac ≤ asertPolynomial 65535 := asertPolynomial_mono (by omega)
  exact largest.trans_lt (by decide)

theorem asertFactor_eq (bound : frac < 65536) : asertFactor frac = 65536 + asertPolynomial frac / 2 ^ 48 := by
  rw [← Nat.mod_eq_of_lt (asertPolynomial_lt bound)]
  rfl

theorem asertFactor_mono {frac' : ℕ} (le : frac ≤ frac') (bound : frac' < 65536) :
    asertFactor frac ≤ asertFactor frac' := by
  rw [asertFactor_eq bound, asertFactor_eq (le.trans_lt bound)]
  have polynomial := asertPolynomial_mono le
  gcongr

theorem le_asertFactor (frac : ℕ) : 65536 ≤ asertFactor frac := Nat.le_add_right ..

theorem asertFactor_le (bound : frac < 65536) : asertFactor frac ≤ 131072 := by
  have polynomial := asertPolynomial_lt bound
  rw [asertFactor_eq bound]
  omega

/-- The power of two that the code multiplies the anchor's target with, exactly. -/
def asertScale (exponent : ℤ) : ℚ := asertFactor (exponent % 65536).toNat * 2 ^ (exponent / 65536 - 16)

theorem asertScale_mono : Monotone asertScale := by
  intro exponent exponent' le
  have small : (exponent % 65536).toNat < 65536 := by omega
  have small' : (exponent' % 65536).toNat < 65536 := by omega
  obtain same | step : exponent / 65536 = exponent' / 65536 ∨ exponent / 65536 + 1 ≤ exponent' / 65536 := by omega
  · have factors : asertFactor (exponent % 65536).toNat ≤ asertFactor (exponent' % 65536).toNat :=
      asertFactor_mono (by omega) small'
    rw [asertScale, asertScale, same]
    gcongr
  · calc asertScale exponent ≤ (131072 : ℕ) * 2 ^ (exponent / 65536 - 16) := by
          unfold asertScale
          gcongr
          exact asertFactor_le small
      _ = (65536 : ℕ) * 2 ^ (exponent / 65536 - 16 + 1) := by
          rw [zpow_add_one₀ (by norm_num)]
          ring
      _ ≤ (65536 : ℕ) * 2 ^ (exponent' / 65536 - 16) := by
          gcongr
          · norm_num
          · omega
      _ ≤ asertScale exponent' := by
          unfold asertScale
          gcongr
          exact le_asertFactor _

/-- The anchor's target times the power of two, rounded down and held in the permitted range. -/
def asertTarget (refTarget powLimit : ℕ) (exponent : ℤ) : ℕ := max 1 (min powLimit ⌊refTarget * asertScale exponent⌋₊)

theorem asertTarget_mono {refTarget refTarget' : ℕ} (powLimit : ℕ) {exponent exponent' : ℤ}
    (refs : refTarget ≤ refTarget') (exponents : exponent ≤ exponent') :
    asertTarget refTarget powLimit exponent ≤ asertTarget refTarget' powLimit exponent' := by
  have scales := asertScale_mono exponents
  have nonneg : 0 ≤ asertScale exponent := mul_nonneg (cast_nonneg _) (zpow_nonneg (by positivity) _)
  have products : (refTarget : ℚ) * asertScale exponent ≤ refTarget' * asertScale exponent' :=
    mul_le_mul (cast_le.mpr refs) scales nonneg (cast_nonneg _)
  exact max_le_max le_rfl (min_le_min le_rfl (floor_mono products))

variable {shifts : ℤ} {powLimit : Uint256} {nPowTargetSpacing nHalfLife : ℤ}

theorem floor_mul_two_zpow_of_nonpos (value : ℕ) (nonpos : shifts ≤ 0) :
    ⌊(value : ℚ) * 2 ^ shifts⌋₊ = value / 2 ^ (-shifts).toNat := by
  obtain ⟨shift, rfl⟩ : ∃ shift : ℕ, shifts = -shift := ⟨(-shifts).toNat, by omega⟩
  have quotient : (value : ℚ) * 2 ^ (-(shift : ℤ)) = (value : ℚ) / ((2 ^ shift : ℕ) : ℚ) := by
    rw [zpow_neg]
    push_cast
    rfl
  rw [quotient, floor_div_eq_div, Int.neg_neg, Int.toNat_natCast]

theorem floor_mul_two_zpow_of_nonneg (value : ℕ) (nonneg : 0 ≤ shifts) :
    ⌊(value : ℚ) * 2 ^ shifts⌋₊ = value * 2 ^ shifts.toNat := by
  obtain ⟨shift, rfl⟩ : ∃ shift : ℕ, shifts = shift := ⟨shifts.toNat, by omega⟩
  have product : (value : ℚ) * 2 ^ (shift : ℤ) = ((value * 2 ^ shift : ℕ) : ℚ) := by
    push_cast
    rfl
  rw [product, floor_natCast, Int.toNat_natCast]

theorem shiftLeft_shiftRight_eq_iff {width : ℕ} (x : BitVec width) (shift : ℕ) :
    (x <<< shift) >>> shift = x ↔ x.toNat * 2 ^ shift < 2 ^ width := by
  rw [← BitVec.toNat_inj, BitVec.toNat_ushiftRight, BitVec.toNat_shiftLeft, shiftRight_eq_div_pow, shiftLeft_eq]
  constructor
  · intro same
    calc x.toNat * 2 ^ shift = x.toNat * 2 ^ shift % 2 ^ width / 2 ^ shift * 2 ^ shift := by rw [same]
      _ ≤ x.toNat * 2 ^ shift % 2 ^ width := div_mul_le_self ..
      _ < 2 ^ width := Nat.mod_lt _ (Nat.two_pow_pos width)
  · intro fits
    rw [Nat.mod_eq_of_lt fits, Nat.mul_div_cancel _ (Nat.two_pow_pos shift)]

def asertExponent (nPowTargetSpacing nTimeDiff nHeightDiff nHalfLife : ℤ) : ℤ :=
  ((nTimeDiff - nPowTargetSpacing * (nHeightDiff + 1)) * 65536).tdiv nHalfLife

/-- What `CalculateASERT` is called with: the target of the anchor is positive and within the limit,
the schedule is an `int64_t`, and the clock is less than 2^47 seconds away from it. -/
structure AsertInputs (refTarget : Uint256) (nPowTargetSpacing nTimeDiff nHeightDiff : ℤ) (powLimit : Uint256)
    (nHalfLife : ℤ) : Prop where
  refTarget_pos : 0 < refTarget
  refTarget_le : refTarget ≤ powLimit
  spacing_pos : 0 < nPowTargetSpacing
  halfLife_pos : 0 < nHalfLife
  heightDiff_nonneg : 0 ≤ nHeightDiff
  schedule_lt : nPowTargetSpacing * (nHeightDiff + 1) < 2 ^ 63
  drift_lt : (nTimeDiff - nPowTargetSpacing * nHeightDiff).natAbs < 2 ^ 47
  nextDrift_lt : (nTimeDiff - nPowTargetSpacing * (nHeightDiff + 1)).natAbs < 2 ^ 47
  exponent_lt : (asertExponent nPowTargetSpacing nTimeDiff nHeightDiff nHalfLife).natAbs < 2 ^ 31 * 65536

theorem toNat_clampTarget (positive : 0 < powLimit) (nextTarget : BitVec 320) :
    (clampTarget powLimit nextTarget).toNat = max 1 (min powLimit.toNat nextTarget.toNat) := by
  have limitPos : 0 < powLimit.toNat := positive
  unfold clampTarget
  split_ifs with zero above
  · rw [zero]
    simp
  · rw [min_eq_left above.le, max_eq_right limitPos]
  · have nextPos : 0 < nextTarget.toNat := pos_of_ne_zero fun none => zero (BitVec.eq_of_toNat_eq none)
    have fits := (Nat.le_of_not_lt above).trans_lt powLimit.isLt
    rw [min_eq_right (Nat.le_of_not_lt above), max_eq_right nextPos, BitVec.toNat_setWidth, Nat.mod_eq_of_lt fits]

section

variable {value : ℕ}

theorem toNat_shiftLeft_or_powLimit (positive : 0 < powLimit) (fits : value < 2 ^ 320) (nonneg : 0 ≤ shifts)
    (bound : shifts < 2 ^ 32) :
    (if (BitVec.ofNat 320 value <<< (shifts.toNat % 2 ^ 32)) >>> (shifts.toNat % 2 ^ 32) ≠ BitVec.ofNat 320 value
      then powLimit
      else clampTarget powLimit (BitVec.ofNat 320 value <<< (shifts.toNat % 2 ^ 32))).toNat =
      max 1 (min powLimit.toNat ⌊(value : ℚ) * 2 ^ shifts⌋₊) := by
  have limitPos : 0 < powLimit.toNat := positive
  have shift : shifts.toNat % 2 ^ 32 = shifts.toNat := Nat.mod_eq_of_lt (by omega)
  have toNat : (BitVec.ofNat 320 value).toNat = value := by rw [BitVec.toNat_ofNat, Nat.mod_eq_of_lt fits]
  rw [shift, floor_mul_two_zpow_of_nonneg value nonneg, ite_not]
  split_ifs with whole
  · rw [shiftLeft_shiftRight_eq_iff, toNat] at whole
    rw [toNat_clampTarget positive, BitVec.toNat_shiftLeft, toNat, shiftLeft_eq, Nat.mod_eq_of_lt whole]
  · rw [shiftLeft_shiftRight_eq_iff, toNat] at whole
    have above : powLimit.toNat ≤ value * 2 ^ shifts.toNat := by
      omega
    rw [min_eq_left above, max_eq_right limitPos]

end

theorem AsertInputs.fits {refTarget : Uint256} {nTimeDiff nHeightDiff : ℤ}
    (inputs : AsertInputs refTarget nPowTargetSpacing nTimeDiff nHeightDiff powLimit nHalfLife) :
    fitsInt64 (nPowTargetSpacing * nHeightDiff) ∧ fitsInt64 (nPowTargetSpacing * (nHeightDiff + 1)) ∧
      fitsInt64 ((nTimeDiff - nPowTargetSpacing * (nHeightDiff + 1)) * 65536) := by
  have schedule := inputs.schedule_lt
  have drift := inputs.nextDrift_lt
  have nonneg := Int.mul_nonneg inputs.spacing_pos.le inputs.heightDiff_nonneg
  have spacing := inputs.spacing_pos
  rw [Int.mul_add, Int.mul_one] at schedule drift ⊢
  refine ⟨?_, ?_, ?_⟩ <;> constructor <;> omega

theorem calculateASERT_eq {refTarget : Uint256} {nTimeDiff nHeightDiff : ℤ}
    (inputs : AsertInputs refTarget nPowTargetSpacing nTimeDiff nHeightDiff powLimit nHalfLife) :
    ∃ target, calculateASERT refTarget nPowTargetSpacing nTimeDiff nHeightDiff powLimit nHalfLife = .ok target ∧
      target.toNat = asertTarget refTarget.toNat powLimit.toNat
        (asertExponent nPowTargetSpacing nTimeDiff nHeightDiff nHalfLife) := by
  have limitPos : 0 < powLimit := Nat.lt_of_lt_of_le inputs.refTarget_pos inputs.refTarget_le
  have exponentBound := inputs.exponent_lt
  set exponent := asertExponent nPowTargetSpacing nTimeDiff nHeightDiff nHalfLife with exponentDef
  set value := refTarget.toNat * asertFactor (exponent % 65536).toNat with valueDef
  have valueFits : value < 2 ^ 320 := by
    have factor : asertFactor (exponent % 65536).toNat ≤ 2 ^ 17 := asertFactor_le (by omega)
    calc value ≤ refTarget.toNat * 2 ^ 17 := mul_le_mul_left _ factor
      _ < 2 ^ 256 * 2 ^ 17 := mul_lt_mul_of_pos_right refTarget.isLt (by decide)
      _ < 2 ^ 320 := by decide
  have scaled : (refTarget.toNat : ℚ) * asertScale exponent = (value : ℚ) * 2 ^ (exponent / 65536 - 16) := by
    rw [asertScale, cast_mul, mul_assoc]
  have parts : exponent = exponent / 65536 * 65536 + (exponent % 65536).toNat := by omega
  obtain ⟨fitsNow, fitsNext⟩ := inputs.fits
  simp only [calculateASERT, inputs.refTarget_pos, inputs.refTarget_le, inputs.heightDiff_nonneg, eq_true fitsNow,
    inputs.drift_lt, eq_true fitsNext, asertTarget, scaled]
  rw [← asertExponent, ← exponentDef]
  simp only [← parts]
  by_cases nonpos : exponent / 65536 - 16 ≤ 0
  · rw [if_pos nonpos]
    refine ⟨_, rfl, ?_⟩
    rw [toNat_clampTarget limitPos, floor_mul_two_zpow_of_nonpos value nonpos, Nat.mod_eq_of_lt (by omega),
      BitVec.toNat_ushiftRight, BitVec.toNat_ofNat, Nat.mod_eq_of_lt valueFits, shiftRight_eq_div_pow]
  · rw [if_neg nonpos, ← apply_ite]
    exact ⟨_, rfl, toNat_shiftLeft_or_powLimit limitPos valueFits (by omega) (by omega)⟩

theorem asertExponent_mono {nTimeDiff nTimeDiff' nHeightDiff nHeightDiff' : ℤ} (spacing : 0 < nPowTargetSpacing)
    (halfLife : 0 < nHalfLife) (later : nTimeDiff ≤ nTimeDiff') (lower : nHeightDiff' ≤ nHeightDiff) :
    asertExponent nPowTargetSpacing nTimeDiff nHeightDiff nHalfLife ≤
      asertExponent nPowTargetSpacing nTimeDiff' nHeightDiff' nHalfLife := by
  have schedule : nPowTargetSpacing * (nHeightDiff' + 1) ≤ nPowTargetSpacing * (nHeightDiff + 1) :=
    Int.mul_le_mul_of_nonneg_left (by omega) spacing.le
  exact Int.tdiv_le_tdiv halfLife (by omega)

/-- `CalculateASERT` fails no assertion and returns a target between 1 and `powLimit`; its polynomial
fits 64 bits and the factor stays between 65536 and 131072; and the target never decreases when the
anchor's target or the time grows or when the height falls. -/
theorem calculateASERT_sound {nPowTargetSpacing : ℤ} {powLimit : Uint256} {nHalfLife : ℤ} {refTarget : Uint256}
    {nTimeDiff nHeightDiff : ℤ}
    (inputs : AsertInputs refTarget nPowTargetSpacing nTimeDiff nHeightDiff powLimit nHalfLife) :
    (∀ frac < 65536, asertPolynomial frac < 2 ^ 64 ∧ 65536 ≤ asertFactor frac ∧ asertFactor frac ≤ 131072) ∧
    ∃ target, calculateASERT refTarget nPowTargetSpacing nTimeDiff nHeightDiff powLimit nHalfLife = .ok target ∧
      1 ≤ target ∧ target ≤ powLimit ∧
      ∀ refTarget' nTimeDiff' nHeightDiff' target',
        AsertInputs refTarget' nPowTargetSpacing nTimeDiff' nHeightDiff' powLimit nHalfLife →
        calculateASERT refTarget' nPowTargetSpacing nTimeDiff' nHeightDiff' powLimit nHalfLife = .ok target' →
        refTarget ≤ refTarget' → nTimeDiff ≤ nTimeDiff' → nHeightDiff' ≤ nHeightDiff → target ≤ target' := by
  refine ⟨fun frac bound => ⟨asertPolynomial_lt bound, le_asertFactor frac, asertFactor_le bound⟩, ?_⟩
  obtain ⟨target, computed, value⟩ := calculateASERT_eq inputs
  have limitPos := Nat.lt_of_lt_of_le inputs.refTarget_pos inputs.refTarget_le
  refine ⟨target, computed, ?_, ?_, ?_⟩
  · show 1 ≤ target.toNat
    rw [value]
    exact le_max_left ..
  · show target.toNat ≤ powLimit.toNat
    rw [value]
    exact Nat.max_le.mpr ⟨limitPos, Nat.min_le_left ..⟩
  · intro refTarget' nTimeDiff' nHeightDiff' target' inputs' computed' refs later lower
    obtain ⟨found, computedFound, value'⟩ := calculateASERT_eq inputs'
    cases computed'.symm.trans computedFound
    show target.toNat ≤ target'.toNat
    rw [value, value']
    exact asertTarget_mono _ refs (asertExponent_mono inputs.spacing_pos inputs.halfLife_pos later lower)

/-- Half an hour late on a two-minute schedule with a half life of a day. -/
theorem calculateASERT_sound_sample : AsertInputs (1 <<< 200) 120 3600 15 (1 <<< 240) 86400 ∧
      ∃ target, calculateASERT (1 <<< 200) 120 3600 15 (1 <<< 240) 86400 = .ok target ∧ 1 ≤ target ∧
        target ≤ 1 <<< 240 := by
  have inputs : AsertInputs (1 <<< 200) 120 3600 15 (1 <<< 240) 86400 := by
    constructor <;> decide
  obtain ⟨-, target, computed, positive, bounded, -⟩ := calculateASERT_sound inputs
  exact ⟨inputs, target, computed, positive, bounded⟩

theorem asertScale_halfLives (count : ℤ) : asertScale (count * 65536) = 2 ^ count := by
  have factor : asertFactor 0 = 65536 := by decide
  rw [asertScale, Int.mul_emod_left, Int.mul_ediv_cancel _ (by decide), Int.toNat_zero, factor, zpow_sub₀ two_ne_zero]
  norm_num
  ring

/-- A chain that is some half lives behind its schedule has a target that has doubled as often; the target is halved
for each half life that it is ahead. -/
theorem calculateASERT_halfLives {refTarget : Uint256} {nTimeDiff nHeightDiff : ℤ}
    (inputs : AsertInputs refTarget nPowTargetSpacing nTimeDiff nHeightDiff powLimit nHalfLife) {count : ℤ}
    (late : nTimeDiff = nPowTargetSpacing * (nHeightDiff + 1) + count * nHalfLife) :
    ∃ target, calculateASERT refTarget nPowTargetSpacing nTimeDiff nHeightDiff powLimit nHalfLife = .ok target ∧
      target.toNat = max 1 (min powLimit.toNat ⌊(refTarget.toNat : ℚ) * 2 ^ count⌋₊) := by
  obtain ⟨target, computed, value⟩ := calculateASERT_eq inputs
  have exponent : asertExponent nPowTargetSpacing nTimeDiff nHeightDiff nHalfLife = count * 65536 := by
    rw [asertExponent, late, add_sub_cancel_left, mul_right_comm]
    exact Int.mul_tdiv_cancel _ inputs.halfLife_pos.ne'
  rw [exponent, asertTarget, asertScale_halfLives] at value
  exact ⟨target, computed, value⟩

/-- Two days late with a half life of a day. -/
theorem calculateASERT_halfLives_sample : ∃ target,
    calculateASERT (1 <<< 200) 120 (120 * 16 + 2 * 86400) 15 (1 <<< 240) 86400 = .ok target ∧
      target.toNat = 2 ^ 202 := by
  obtain ⟨target, computed, value⟩ := @calculateASERT_halfLives (1 <<< 240) 120 86400 (1 <<< 200) _ 15
    (by constructor <;> decide) 2 rfl
  rw [floor_mul_two_zpow_of_nonneg _ (by decide)] at value
  exact ⟨target, computed, value.trans (by decide)⟩

end Nexa
