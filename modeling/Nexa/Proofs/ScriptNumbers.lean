import Nexa.Proofs.Serialize
import Nexa.Model.Script.Numeric
import Mathlib.Tactic.Ring

/-! # Numbers on the stack

A script number keeps its sign in the highest bit of its last byte, and `CScriptNum::serialize` writes a
number of 64 bits so that it is read back. A `BigNum` is charged its magnitude and a byte for its sign, which
is never less than its script number takes.
-/

namespace Nexa

open StackItem List

/-! ## Magnitudes -/

theorem natLE_append (low high : Bytes) : natLE (low ++ high) = natLE low + 256 ^ low.length * natLE high := by
  induction low with
  | nil => simp [natLE]
  | cons byte low ih =>
    simp only [cons_append, natLE, ih, length_cons]
    ring

theorem natLE_magnitudeBytes {width magnitude : ℕ} (fits : magnitude < 256 ^ width) :
    natLE (magnitudeBytes width magnitude) = magnitude := by
  induction width generalizing magnitude with
  | zero =>
    have zero : magnitude = 0 := by simpa using fits
    rw [zero]
    rfl
  | succ width ih =>
    unfold magnitudeBytes
    split
    next zero => exact zero.symm
    next =>
      have rest : magnitude / 256 < 256 ^ width := Nat.div_lt_of_lt_mul (by rwa [← pow_succ'])
      rw [natLE, ih rest, UInt8.toNat_ofNat']
      omega

theorem length_magnitudeBytes_le {width magnitude count : ℕ} (fits : magnitude < 256 ^ count) :
    (magnitudeBytes width magnitude).length ≤ count := by
  induction width generalizing magnitude count with
  | zero => exact Nat.zero_le _
  | succ width ih =>
    unfold magnitudeBytes
    split
    next => exact Nat.zero_le _
    next positive =>
      cases count with
      | zero => omega
      | succ count =>
        have rest : magnitude / 256 < 256 ^ count := Nat.div_lt_of_lt_mul (by rwa [← pow_succ'])
        exact Nat.succ_le_succ (ih rest)

theorem natAbs_lt_magSize (n : ℤ) : n.natAbs < 256 ^ magSize n := by
  unfold magSize
  split
  next zero => simp [zero]
  next =>
    have digits : n.natAbs < 2 ^ (n.natAbs.log2 + 1) := Nat.lt_log2_self
    refine digits.trans_le ?_
    rw [show (256 : ℕ) = 2 ^ 8 from rfl, ← pow_mul]
    exact Nat.pow_le_pow_right (by decide) (by omega)

theorem magSize_le {n : ℤ} {count : ℕ} (positive : 0 < count) (fits : n.natAbs < 256 ^ count) : magSize n ≤ count := by
  unfold magSize
  split
  next => exact positive
  next nonzero =>
    rw [show (256 : ℕ) = 2 ^ 8 from rfl, ← pow_mul] at fits
    have digits : n.natAbs.log2 < 8 * count := (Nat.log2_lt (by omega)).mpr fits
    omega

theorem magSize_pos (n : ℤ) : 0 < magSize n := by
  unfold magSize
  split <;> omega

/-! ## The sign -/

theorem sign_bit (byte : UInt8) : byte &&& 0x80 ≠ 0 ↔ 0x80 ≤ byte := by
  obtain ⟨byte⟩ := byte
  revert byte
  decide

theorem sign_set {byte : UInt8} (clear : byte &&& 0x80 = 0) :
    (byte ||| 0x80).toNat = byte.toNat + 0x80 ∧ 0x80 ≤ byte ||| 0x80 := by
  obtain ⟨byte⟩ := byte
  revert byte
  decide

theorem scriptNum_concat (bytes : Bytes) (last : UInt8) : scriptNum (bytes ++ [last]) =
      if 0x80 ≤ last then -((natLE bytes : ℤ) + 256 ^ bytes.length * (last.toNat - 0x80))
      else natLE bytes + 256 ^ bytes.length * last.toNat := by
  simp only [scriptNum, getLast?_concat, Option.getD_some, natLE_append, natLE, length_append, length_singleton]
  push_cast
  split <;> ring

theorem natAbs_scriptNum_lt (data : Bytes) : (scriptNum data).natAbs < 256 ^ data.length := by
  obtain rfl | ⟨bytes, last, rfl⟩ := data.eq_nil_or_concat
  · decide
  rw [concat_eq_append, scriptNum_concat, length_append, length_singleton]
  have low := natLE_lt bytes
  have small : last.toNat < 256 := last.toNat_lt
  split
  next negative =>
    have high : 0x80 ≤ last.toNat := negative
    have magnitude : ((natLE bytes : ℤ) + 256 ^ bytes.length * (last.toNat - 0x80)) =
        ((natLE bytes + 256 ^ bytes.length * (last.toNat - 0x80) : ℕ) : ℤ) := by
      push_cast [high]
      rfl
    have scaled : 256 ^ bytes.length * (last.toNat - 0x80) ≤ 256 ^ bytes.length * 127 :=
      Nat.mul_le_mul_left _ (by omega)
    omega
  next =>
    have magnitude : ((natLE bytes : ℤ) + 256 ^ bytes.length * last.toNat) =
        ((natLE bytes + 256 ^ bytes.length * last.toNat : ℕ) : ℤ) := by push_cast; rfl
    have scaled : 256 ^ bytes.length * last.toNat ≤ 256 ^ bytes.length * 255 := Nat.mul_le_mul_left _ (by omega)
    omega

theorem scriptNum_serialize {value : ℤ} (fits : value.natAbs < 2 ^ 64) :
    scriptNum (CScriptNum.serialize value) = value := by
  have magnitude : natLE (magnitudeBytes 8 value.natAbs) = value.natAbs := natLE_magnitudeBytes fits
  simp only [CScriptNum.serialize]
  split
  next empty =>
    have empty := reverse_eq_nil_iff.mp empty
    rw [empty] at magnitude
    have zero : value = 0 := by simpa [natLE, eq_comm] using magnitude
    rw [zero]
    rfl
  next last rest reversed =>
    have shape : magnitudeBytes 8 value.natAbs = rest.reverse ++ [last] := by
      rw [← reverse_inj, reversed]
      simp
    rw [shape] at magnitude ⊢
    have parts : (natLE rest.reverse : ℤ) + 256 ^ rest.reverse.length * last.toNat = value.natAbs := by
      rw [← magnitude, natLE_append]
      simp [natLE]
    by_cases full : last &&& 0x80 ≠ 0
    · -- the highest bit is taken, so the sign has a byte of its own
      rw [if_pos full, scriptNum_concat]
      by_cases negative : value < 0
      · rw [if_pos negative, if_pos (by decide)]
        simp only [UInt8.reduceToNat]
        omega
      · rw [if_neg negative, if_neg (by decide)]
        simp only [UInt8.toNat_zero]
        omega
    · rw [if_neg full]
      obtain ⟨added, high⟩ := sign_set (not_not.mp full)
      split
      next negative =>
        rw [reverse_cons, scriptNum_concat, if_pos high, added]
        push_cast
        rw [add_sub_cancel_right]
        omega
      next positive =>
        have low : ¬0x80 ≤ last := fun high => full ((sign_bit last).mpr high)
        rw [scriptNum_concat, if_neg low]
        omega

theorem length_serialize_le (value : ℤ) : (CScriptNum.serialize value).length ≤ magSize value + 1 := by
  have length : (magnitudeBytes 8 value.natAbs).length ≤ magSize value :=
    length_magnitudeBytes_le (natAbs_lt_magSize value)
  simp only [CScriptNum.serialize]
  split
  next => exact Nat.zero_le _
  next last rest reversed =>
    have lengths := congrArg List.length reversed
    simp only [length_reverse, length_cons] at lengths
    split_ifs <;> simp <;> omega

end Nexa
