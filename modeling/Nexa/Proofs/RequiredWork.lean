import Nexa.Model.Chain.Daa
import Nexa.Proofs.CompactTarget

/-! # Bits for a required work

A smaller target takes more work. The target for a required work is rounded down twice, by the division
and by the compact form, so the bits bring at least that work; the next harder bits are those of the
greatest target below.
-/

namespace Nexa

open Nat

/-! ## The work of a target -/

variable {target : Uint256} {nBits : UInt32} {requiredWork : Uint256}

theorem toNat_getWorkForTarget_eq (positive : target ≠ 0) (bound : target.toNat + 1 < 2 ^ 256) :
    (getWorkForTarget target).toNat = 2 ^ 256 / (target.toNat + 1) := by
  have split : 2 ^ 256 - 1 - target.toNat + (target.toNat + 1) = 2 ^ 256 := by omega
  rw [toNat_getWorkForTarget positive bound, ← add_div_right _ (succ_pos _), split]

theorem getWorkForTarget_anti {easier : Uint256} (positive : target ≠ 0) (bound : easier.toNat + 1 < 2 ^ 256)
    (le : target.toNat ≤ easier.toNat) : (getWorkForTarget easier).toNat ≤ (getWorkForTarget target).toNat := by
  have some : target.toNat ≠ 0 := fun none => positive (BitVec.eq_of_toNat_eq none)
  have positive' : easier ≠ 0 := by
    rintro rfl
    exact some (le_zero.mp le)
  rw [toNat_getWorkForTarget_eq positive (by omega), toNat_getWorkForTarget_eq positive' bound]
  exact div_le_div_left (by omega) (succ_pos _)

theorem IsCanonical.work (canonical : IsCanonical nBits) :
    getWorkForDifficultyBits nBits = getWorkForTarget (setCompact nBits).target := by
  have positive := decide_eq_false canonical.positive
  simp only [getWorkForDifficultyBits, canonical.nonneg, canonical.inRange, positive, Bool.or_self, Bool.false_eq_true,
    ↓reduceIte]

theorem getWorkForTarget_le_getCompact (positive : target ≠ 0) (bound : target.toNat + 1 < 2 ^ 256) :
    (getWorkForTarget target).toNat ≤ (getWorkForDifficultyBits (getCompact target)).toNat := by
  have canonical := isCanonical_getCompact positive
  rw [canonical.work]
  refine getWorkForTarget_anti canonical.positive bound ?_
  rw [toNat_target_getCompact]
  exact compactValue_getCompact_le target

theorem work_getTargetForRequiredWork (positive : 1 ≤ requiredWork.toNat) (bound : requiredWork.toNat ≤ 2 ^ 255) :
    getTargetForRequiredWork requiredWork ≠ 0 ∧ (getTargetForRequiredWork requiredWork).toNat + 1 < 2 ^ 256 ∧
      requiredWork.toNat ≤ (getWorkForTarget (getTargetForRequiredWork requiredWork)).toNat := by
  have nonzero : requiredWork ≠ 0 := by
    rintro rfl
    exact absurd positive (by decide)
  have quotient : (~~~requiredWork / requiredWork).toNat = (2 ^ 256 - 1 - requiredWork.toNat) / requiredWork.toNat := by
    rw [BitVec.toNat_udiv, BitVec.toNat_not]
  rw [getTargetForRequiredWork, if_neg nonzero]
  dsimp only
  split_ifs with largest
  · have work : (getWorkForTarget 1).toNat = 2 ^ 255 := by decide
    exact ⟨by decide, by decide, work ▸ bound⟩
  · have small : (2 ^ 256 - 1 - requiredWork.toNat) / requiredWork.toNat + 1 < 2 ^ 256 := by
      have := div_le_self (2 ^ 256 - 1 - requiredWork.toNat) requiredWork.toNat
      omega
    refine ⟨largest, quotient ▸ small, ?_⟩
    rw [toNat_getWorkForTarget_eq largest (quotient ▸ small), quotient, le_div_iff_mul_le (succ_pos _)]
    have product := mul_div_le (2 ^ 256 - 1 - requiredWork.toNat) requiredWork.toNat
    rw [mul_succ]
    omega

theorem getCompactBitsForRequiredWork_eq (positive : 1 ≤ requiredWork.toNat) (bound : requiredWork.toNat ≤ 2 ^ 255) :
    ∃ nBits, getCompactBitsForRequiredWork requiredWork = .ok nBits ∧ IsCanonical nBits ∧
      requiredWork.toNat ≤ (getWorkForDifficultyBits nBits).toNat := by
  obtain ⟨nonzero, small, enough⟩ := work_getTargetForRequiredWork positive bound
  have canonical := isCanonical_getCompact nonzero
  have work := enough.trans (getWorkForTarget_le_getCompact nonzero small)
  refine ⟨getCompact _, ?_, canonical, work⟩
  unfold getCompactBitsForRequiredWork
  generalize getCompact (getTargetForRequiredWork requiredWork) = nBits at work
  dsimp only
  have done : ¬getWorkForDifficultyBits nBits < requiredWork := not_lt.mpr work
  cases nBits.toNat with
  | zero => rfl
  | succ fuel =>
    rw [hardenCompactBits, if_neg done]
    rfl

/-! ## The next harder bits -/

/-- The size and the mantissa after the decrement, with a byte of the exponent folded in if needed. -/
def harderFields (size word : ℕ) : ℕ × ℕ := if word = 2 ^ 15 then (size - 1, 2 ^ 23 - 1) else (size, word - 1)

theorem foldExponent_eq {size word : ℕ} (normal : 2 ^ 15 ≤ word) (sizes : 0 < size)
    (room : word = 2 ^ 15 → 1 < size) : foldExponent size (word - 1) = harderFields size word := by
  obtain ⟨size, rfl⟩ : ∃ rest, size = rest + 1 := ⟨size - 1, by omega⟩
  unfold harderFields
  split_ifs with least
  · obtain ⟨size, rfl⟩ : ∃ rest, size = rest + 1 := ⟨size - 1, by omega⟩
    subst least
    rfl
  · rw [foldExponent, if_neg (by omega)]

/-- The mantissa without the bits that a size below three drops. -/
def maskedWord (size word : ℕ) : ℕ := if size < 3 then word - word % 2 ^ (8 * (3 - size)) else word

variable {number : ℕ}

/-- The fields of the predecessor are the harder ones, without the bits that the size drops. -/
def HasHarderPred (number : ℕ) : Prop :=
  let fields := harderFields (compactSize number) (compactWord number)
  compactSize (number - 1) = fields.1 ∧ compactWord (number - 1) = maskedWord fields.1 fields.2

theorem hasHarderPred_of_le (large : 1 < number) (few : compactSize number ≤ 3) : HasHarderPred number := by
  rw [HasHarderPred]
  have lower := pow_compactSize_le (show number ≠ 0 by omega)
  have upper := lt_pow_compactSize number
  have positive := compactSize_pos_iff.mpr (show number ≠ 0 by omega)
  obtain one | two | three : compactSize number = 1 ∨ compactSize number = 2 ∨ compactSize number = 3 := by omega
  · have word := compactWord_eq one
    rw [one] at lower upper
    have size : compactSize (number - 1) = 1 := @compactSize_eq _ 0 (by omega) (by omega)
    have unfolded : harderFields 1 (compactWord number) = (1, compactWord number - 1) := if_neg (by omega)
    rw [one, unfolded, compactWord_eq size, size, maskedWord, if_pos (by norm_num)]
    dsimp only
    exact ⟨rfl, by omega⟩
  · have word := compactWord_eq two
    rw [two] at lower upper
    rw [two, harderFields]
    split_ifs with least
    · obtain rfl : number = 128 := by omega
      decide
    · have size : compactSize (number - 1) = 2 := @compactSize_eq _ 1 (by omega) (by omega)
      rw [compactWord_eq size, size, maskedWord, if_pos (by norm_num)]
      dsimp only
      exact ⟨rfl, by omega⟩
  · have word := compactWord_eq three
    rw [three] at lower upper
    rw [three, harderFields]
    split_ifs with least
    · obtain rfl : number = 2 ^ 15 := by omega
      decide
    · have size : compactSize (number - 1) = 3 := @compactSize_eq _ 2 (by omega) (by omega)
      rw [compactWord_eq size, size, maskedWord, if_neg (by norm_num)]
      exact ⟨rfl, by omega⟩

theorem mul_sub_one_div {count size : ℕ} (positive : 0 < count) (sizes : 0 < size) :
    (count * size - 1) / size = count - 1 := by
  obtain ⟨count, rfl⟩ : ∃ rest, count = rest + 1 := ⟨count - 1, by omega⟩
  have split : (count + 1) * size - 1 = size * count + (size - 1) := by
    rw [add_mul, mul_comm]
    omega
  rw [split, mul_add_div sizes, div_eq_of_lt (by omega)]
  omega

theorem compactFields_pred_of_gt (short : HasMantissa 256 (2 ^ 23) number) {dropped : ℕ}
    (many : compactSize number = dropped + 4) :
    (compactSize (number - 1), compactWord (number - 1)) = harderFields (compactSize number) (compactWord number) := by
  have floor := (isLeastExponent_compactSize number).eq_of_hasMantissa (by norm_num) (by decide) short
  rw [many, show dropped + 4 - 3 = dropped + 1 by omega] at floor
  rw [← compactWord_eq_div (by omega)] at floor
  have normal := le_compactWord (compactSize_pos_iff.mp (show 0 < compactSize number by omega))
  have digit : 256 ^ (dropped + 1) = 256 * 256 ^ dropped := by rw [pow_succ, mul_comm]
  have positive : 0 < 256 ^ dropped := by positivity
  rw [many, harderFields]
  split_ifs with least
  · rw [least, digit] at floor
    have size : compactSize (number - 1) = dropped + 3 := by
      refine @compactSize_eq _ _ ?_ ?_
      · rw [pow_add]
        omega
      · rw [show dropped + 2 + 1 = dropped + 3 from rfl, pow_add]
        omega
    rw [size, compactWord_eq_div size, ← floor, ← mul_assoc, mul_sub_one_div (by norm_num) positive]
    rfl
  · have more : (2 ^ 15 + 1) * 256 ^ (dropped + 1) ≤ compactWord number * 256 ^ (dropped + 1) :=
      mul_le_mul_right _ (by omega)
    have upper := lt_pow_compactSize number
    rw [many] at upper
    have size : compactSize (number - 1) = dropped + 4 := by
      refine @compactSize_eq _ _ ?_ ?_
      · rw [pow_add]
        omega
      · rw [show dropped + 3 + 1 = dropped + 4 from rfl]
        omega
    rw [size, compactWord_eq_div (show compactSize (number - 1) = dropped + 1 + 3 by omega)]
    nth_rewrite 1 [← floor]
    rw [mul_sub_one_div (by omega) (by positivity)]

theorem hasHarderPred (short : HasMantissa 256 (2 ^ 23) number) (large : 1 < number) : HasHarderPred number := by
  rcases lt_or_ge 3 (compactSize number) with many | few
  · obtain ⟨dropped, size⟩ : ∃ dropped, compactSize number = dropped + 4 := ⟨compactSize number - 4, by omega⟩
    have unmasked : ¬(harderFields (compactSize number) (compactWord number)).1 < 3 := by
      rw [harderFields]
      split_ifs <;> dsimp only <;> omega
    rw [HasHarderPred, maskedWord, if_neg unmasked, ← compactFields_pred_of_gt short size]
    exact ⟨rfl, rfl⟩
  · exact hasHarderPred_of_le large few

theorem getNextHarderCompactBits_of_fold {size word : ℕ} {fields : ℕ × ℕ} (mantissa : nBits.toNat % 2 ^ 23 = word)
    (sizes : nBits.toNat / 2 ^ 24 = size) (found : word ≠ 0) (folded : foldExponent size (word - 1) = fields)
    (left : 1 < maskedWord fields.1 fields.2) :
    getNextHarderCompactBits nBits = .ok (UInt32.ofNat (fields.1 <<< 24 ||| maskedWord fields.1 fields.2)) := by
  have foundOk : assertThat (word ≠ 0) = .ok () := assertThat_eq_ok_iff.mpr found
  have leftOk : assertThat (1 < maskedWord fields.1 fields.2) = .ok () := assertThat_eq_ok_iff.mpr left
  rw [getNextHarderCompactBits, mantissa, sizes, folded, foundOk]
  change assertThat (1 < maskedWord fields.1 fields.2) >>= _ = _
  rw [leftOk]
  rfl

theorem getNextHarderCompactBits_eq (canonical : IsCanonical nBits) (large : 1 < (setCompact nBits).target.toNat) :
    getNextHarderCompactBits nBits = .ok (getCompact ((setCompact nBits).target - 1)) := by
  have bits := toNat_getCompact (setCompact nBits).target
  have short := hasMantissa_of_inRange canonical.inRange
  rw [canonical.form] at bits
  have pred : ((setCompact nBits).target - 1).toNat = (setCompact nBits).target.toNat - 1 :=
    BitVec.toNat_sub_of_le large.le
  generalize (setCompact nBits).target = target at bits short pred large
  have words := compactWord_lt target.toNat
  have normal := le_compactWord (show target.toNat ≠ 0 by omega)
  have positive := compactSize_pos_iff.mpr (show target.toNat ≠ 0 by omega)
  have mantissa : nBits.toNat % 2 ^ 23 = compactWord target.toNat := by omega
  have size : nBits.toNat / 2 ^ 24 = compactSize target.toNat := by omega
  have room : compactWord target.toNat = 2 ^ 15 → 1 < compactSize target.toNat := by
    by_contra one
    have word := compactWord_eq (show compactSize target.toNat = 1 by omega)
    omega
  have folded := foldExponent_eq normal positive room
  obtain ⟨sizes, masked⟩ := hasHarderPred short large
  have normalPred := le_compactWord (show target.toNat - 1 ≠ 0 by omega)
  have wordsPred := compactWord_lt (target.toNat - 1)
  rw [getCompact_eq, pred, getNextHarderCompactBits_of_fold mantissa size (by omega) folded (masked ▸ by omega),
    ← masked, ← sizes, Nat.or_comm, ofNat_or_shiftLeft (by omega)]

/-- The bits for a required work are canonical and bring the work; the next harder bits are those of the
greatest target below. -/
theorem compactBits_harden : (∀ requiredWork : Uint256, 1 ≤ requiredWork.toNat → requiredWork.toNat ≤ 2 ^ 255 →
      ∃ nBits, getCompactBitsForRequiredWork requiredWork = .ok nBits ∧ IsCanonical nBits ∧
        requiredWork ≤ getWorkForDifficultyBits nBits) ∧
    (∀ nBits, IsCanonical nBits → 1 < (setCompact nBits).target.toNat →
      ∃ harder, getNextHarderCompactBits nBits = .ok harder ∧ IsCanonical harder ∧
        (setCompact harder).target < (setCompact nBits).target ∧
        ∀ other, CompactRepresentable other → other < (setCompact nBits).target →
          other ≤ (setCompact harder).target) := by
  refine ⟨fun requiredWork positive bound => getCompactBitsForRequiredWork_eq positive bound, ?_⟩
  intro nBits canonical large
  have pred : ((setCompact nBits).target - 1).toNat = (setCompact nBits).target.toNat - 1 :=
    BitVec.toNat_sub_of_le large.le
  have nonzero : (setCompact nBits).target - 1 ≠ 0 := by
    intro none
    rw [none] at pred
    exact absurd pred (by simp; omega)
  refine ⟨_, getNextHarderCompactBits_eq canonical large, isCanonical_getCompact nonzero, ?_, ?_⟩
  · have le := compactValue_getCompact_le ((setCompact nBits).target - 1)
    rw [← toNat_target_getCompact] at le
    exact BitVec.lt_def.mpr (by omega)
  · intro other representable below
    have lt : other.toNat < (setCompact nBits).target.toNat := below
    exact BitVec.le_def.mpr (le_target_getCompact (compactRepresentable_iff.mp representable) (by omega))

end Nexa
