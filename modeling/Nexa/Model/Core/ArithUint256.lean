import Nexa.Model.Core.Serialize

/-! # 256-bit arithmetic and compact targets

`arith_uint256` computes modulo 2^256, as `BitVec 256` does. A difficulty target is carried in the
header as a `uint32_t` with an exponent byte and a signed mantissa; `setCompact` reports a negative
or overflowing encoding beside the value, and the callers decide what to do with it.
-/

namespace Nexa

/-- The result of `arith_uint256::SetCompact`. -/
structure CompactTarget where
  target : Uint256
  fNegative : Bool
  fOverflow : Bool
deriving DecidableEq, Repr

/-- `arith_uint256::SetCompact`: the mantissa is already shifted when it is tested for zero. -/
def setCompact (nCompact : UInt32) : CompactTarget :=
  let nSize := nCompact.toNat / 2 ^ 24
  let mantissa := nCompact.toNat % 2 ^ 23
  let nWord := if nSize ≤ 3 then mantissa / 2 ^ (8 * (3 - nSize)) else mantissa
  { target := if nSize ≤ 3 then BitVec.ofNat 256 nWord else BitVec.ofNat 256 nWord <<< (8 * (nSize - 3))
    fNegative := nWord ≠ 0 ∧ nCompact.toNat / 2 ^ 23 % 2 = 1
    fOverflow := nWord ≠ 0 ∧ (34 < nSize ∨ (0xff < nWord ∧ 33 < nSize) ∨ (0xffff < nWord ∧ 32 < nSize)) }

/-- `base_uint::bits`: the position of the highest set bit plus one. -/
def Uint256.bits (x : Uint256) : ℕ := if x = 0 then 0 else x.toNat.log2 + 1

/-- `arith_uint256::GetCompact` for a value that is not marked negative. -/
def getCompact (x : Uint256) : UInt32 :=
  let nSize := (x.bits + 7) / 8
  let nCompact :=
    if nSize ≤ 3 then x.toNat % 2 ^ 64 * 2 ^ (8 * (3 - nSize)) % 2 ^ 32
    else (x >>> (8 * (nSize - 3))).toNat % 2 ^ 32
  -- The 0x00800000 bit is the sign, so a mantissa that has it set moves down one byte.
  if nCompact / 2 ^ 23 % 2 = 1 then UInt32.ofNat (nCompact / 2 ^ 8 ||| (nSize + 1) <<< 24)
  else UInt32.ofNat (nCompact ||| nSize <<< 24)

/-- `GetWorkForTarget`: the number of hashes expected to meet the target. -/
def getWorkForTarget (bnTarget : Uint256) : Uint256 := ~~~bnTarget / (bnTarget + 1) + 1

/-- `GetWorkForDifficultyBits`: an encoding that is no positive target carries no work. -/
def getWorkForDifficultyBits (nBits : UInt32) : Uint256 :=
  let compact := setCompact nBits
  if compact.fNegative || compact.fOverflow || compact.target = 0 then 0
  else getWorkForTarget compact.target

theorem toNat_getWorkForTarget {bnTarget : Uint256} (positive : bnTarget ≠ 0)
    (bound : bnTarget.toNat + 1 < 2 ^ 256) :
    (getWorkForTarget bnTarget).toNat = (2 ^ 256 - 1 - bnTarget.toNat) / (bnTarget.toNat + 1) + 1 := by
  have nonzero : bnTarget.toNat ≠ 0 := fun zero => positive (BitVec.eq_of_toNat_eq zero)
  have successor : (bnTarget + 1).toNat = bnTarget.toNat + 1 := by
    exact Nat.mod_eq_of_lt bound
  have quotient : (2 ^ 256 - 1 - bnTarget.toNat) / (bnTarget.toNat + 1) + 1 < 2 ^ 256 := by
    have := Nat.div_le_self (2 ^ 256 - 1 - bnTarget.toNat) (bnTarget.toNat + 1)
    omega
  rw [getWorkForTarget, BitVec.toNat_add, BitVec.toNat_udiv, BitVec.toNat_not, successor]
  exact Nat.mod_eq_of_lt quotient

theorem setCompact_target_bound (nCompact : UInt32) : (setCompact nCompact).target.toNat + 1 < 2 ^ 256 := by
  simp only [setCompact]
  split_ifs with small
  · have shifted := Nat.div_le_self (nCompact.toNat % 2 ^ 23) (2 ^ (8 * (3 - nCompact.toNat / 2 ^ 24)))
    have modulo := Nat.mod_le (nCompact.toNat % 2 ^ 23 / 2 ^ (8 * (3 - nCompact.toNat / 2 ^ 24))) (2 ^ 256)
    rw [BitVec.toNat_ofNat]
    omega
  · -- A left shift by at least one byte leaves the lowest byte zero.
    rw [BitVec.toNat_shiftLeft]
    have low : ((BitVec.ofNat 256 (nCompact.toNat % 2 ^ 23)).toNat <<<
        (8 * (nCompact.toNat / 2 ^ 24 - 3)) % 2 ^ 256) % 2 = 0 := by
      rw [Nat.mod_mod_of_dvd _ (by decide : (2 : ℕ) ∣ 2 ^ 256), Nat.shiftLeft_eq]
      exact Nat.mod_eq_zero_of_dvd (Dvd.dvd.mul_left (dvd_pow_self 2 (by omega)) _)
    omega

theorem getWorkForDifficultyBits_pos {nBits : UInt32} (sign : (setCompact nBits).fNegative = false)
    (range : (setCompact nBits).fOverflow = false) (positive : (setCompact nBits).target ≠ 0) :
    0 < (getWorkForDifficultyBits nBits).toNat := by
  simp only [getWorkForDifficultyBits, sign, range, positive, decide_false, Bool.or_self, Bool.false_eq_true,
    ↓reduceIte]
  rw [toNat_getWorkForTarget positive (setCompact_target_bound nBits)]
  exact Nat.succ_pos _

end Nexa
