import Nexa.Model.Wallet.CashAddr
import Nexa.ToMathlib.BigEndian

/-! # Regrouping bits

`ConvertBits` keeps the number that its values spell: behind every value the groups pushed so far,
followed by the bits still held, are the number of the values read so far.
-/

namespace Nexa

open List Nat

variable (width : ℕ) (values : Bytes)

/-- The number spelled by values of `width` bits, the first value most significant. -/
def bitsValue : ℕ := ofDigitsBE (2 ^ width) (values.map UInt8.toNat)

/-- A number of `width` bits is split into groups of `tobits` bits and a rest of `bits` bits. -/
structure Regroups (tobits number width : ℕ) (out : Bytes) (bits rest : ℕ) : Prop where
  bits_lt : bits < tobits
  width_eq : out.length * tobits + bits = width
  bound : ∀ value ∈ out, value.toNat < 2 ^ tobits
  number_eq : number = bitsValue tobits out * 2 ^ bits + rest

@[simp] theorem bitsValue_nil : bitsValue width [] = 0 := by
  simp [bitsValue]

theorem bitsValue_append (front back : Bytes) :
    bitsValue width (front ++ back) = bitsValue width front * 2 ^ (back.length * width) + bitsValue width back := by
  simp [bitsValue, ofDigitsBE_append, ← pow_mul, mul_comm]

theorem bitsValue_cons (value : UInt8) (rest : Bytes) :
    bitsValue width (value :: rest) = value.toNat * 2 ^ (rest.length * width) + bitsValue width rest := by
  simp [bitsValue, ofDigitsBE_cons, ← pow_mul, mul_comm]

theorem bitsValue_concat (value : UInt8) :
    bitsValue width (values ++ [value]) = bitsValue width values * 2 ^ width + value.toNat := by
  simp [bitsValue, ofDigitsBE_concat]

theorem eq_of_bitsValue_eq {width : ℕ} (positive : 0 < width) {values values' : Bytes}
    (length : values.length = values'.length) (bound : ∀ v ∈ values, v.toNat < 2 ^ width)
    (bound' : ∀ v ∈ values', v.toNat < 2 ^ width) (same : bitsValue width values = bitsValue width values') :
    values = values' := by
  have digits := Nat.ofDigitsBE_inj_of_len_eq (Nat.one_lt_two_pow positive.ne') (by simpa using length)
    (by simpa using bound) (by simpa using bound') same
  exact map_injective_iff.mpr (fun a b => UInt8.toNat_inj.mp) digits

namespace Regroups

variable {tobits number width bits rest : ℕ} {out : Bytes}

theorem append {out' : Bytes} {added value bits' rest' : ℕ} (split : Regroups tobits number width out bits rest)
    (later : Regroups tobits (rest * 2 ^ added + value) (bits + added) out' bits' rest') :
    Regroups tobits (number * 2 ^ added + value) (width + added) (out ++ out') bits' rest' where
  bits_lt := later.bits_lt
  width_eq := by
    have first := split.width_eq
    have second := later.width_eq
    rw [length_append, add_mul]
    omega
  bound := by
    intro v mem
    exact (mem_append.mp mem).elim (split.bound v) (later.bound v)
  number_eq := by
    have shift : 2 ^ bits * 2 ^ added = 2 ^ (out'.length * tobits) * 2 ^ bits' := by
      rw [← pow_add, ← pow_add, later.width_eq]
    calc number * 2 ^ added + value = bitsValue tobits out * (2 ^ bits * 2 ^ added) + (rest * 2 ^ added + value) := by
          rw [split.number_eq]; ring
      _ = bitsValue tobits out * (2 ^ (out'.length * tobits) * 2 ^ bits') +
            (bitsValue tobits out' * 2 ^ bits' + rest') := by
          rw [shift, later.number_eq]
      _ = bitsValue tobits (out ++ out') * 2 ^ bits' + rest' := by
          rw [bitsValue_append]; ring

end Regroups

section ConvertBits

variable {frombits tobits : ℕ}

theorem toNat_masked (narrow : tobits ≤ 8) (number : ℕ) :
    (UInt8.ofNat (number &&& (2 ^ tobits - 1))).toNat = number % 2 ^ tobits := by
  rw [and_two_pow_sub_one_eq_mod]
  have small : number % 2 ^ tobits < 2 ^ tobits := mod_lt _ (by positivity)
  exact Nat.mod_eq_of_lt (small.trans_le (Nat.pow_le_pow_right (by norm_num) narrow))

theorem convertGroups_regroups (positive : 0 < tobits) (narrow : tobits ≤ 8) (acc : ℕ) {fuel bits : ℕ}
    (enough : bits ≤ fuel) :
    Regroups tobits (acc % 2 ^ bits) bits (convertGroups tobits acc fuel bits).1
      (convertGroups tobits acc fuel bits).2 (acc % 2 ^ (convertGroups tobits acc fuel bits).2) := by
  induction fuel generalizing bits with
  | zero =>
    obtain rfl : bits = 0 := by omega
    exact ⟨positive, by simp [convertGroups], by simp [convertGroups], by simp [convertGroups]⟩
  | succ fuel ih =>
    rw [convertGroups]
    split_ifs with full
    · have later := @ih (bits - tobits) (by omega)
      have group := toNat_masked narrow (acc >>> (bits - tobits))
      rw [shiftRight_eq_div_pow] at group
      refine ⟨later.bits_lt, ?_, ?_, ?_⟩
      · have width := later.width_eq
        simp only [length_cons, add_mul]
        omega
      · intro value mem
        rcases mem_cons.mp mem with rfl | mem
        · rw [shiftRight_eq_div_pow, group]
          exact mod_lt _ (by positivity)
        · exact later.bound value mem
      · -- the group is the front of the bits, the rest of them are split by the later rounds
        have front : acc % 2 ^ bits =
            acc % 2 ^ (bits - tobits) + 2 ^ (bits - tobits) * (acc / 2 ^ (bits - tobits) % 2 ^ tobits) := by
          rw [← Nat.mod_mul, ← pow_add, Nat.sub_add_cancel full]
        rw [bitsValue_cons, shiftRight_eq_div_pow, group, front, add_mul, mul_assoc, ← pow_add,
          later.width_eq, add_assoc, ← later.number_eq]
        ring
    · exact ⟨by omega, by simp, by simp, by simp⟩

theorem acc_mod_two_pow {acc bits value : ℕ} (small : value < 2 ^ frombits) (held : bits < tobits) :
    (((acc <<< frombits) ||| value) &&& (2 ^ (frombits + tobits - 1) - 1)) % 2 ^ (bits + frombits) =
      acc % 2 ^ bits * 2 ^ frombits + value := by
  rw [and_two_pow_sub_one_eq_mod, mod_mod_of_dvd _ (pow_dvd_pow 2 (by omega)),
    ← shiftLeft_add_eq_or_of_lt small, Nat.shiftLeft_eq, pow_add, mul_comm (2 ^ bits), Nat.mod_mul]
  have low : (acc * 2 ^ frombits + value) % 2 ^ frombits = value := mul_add_mod_of_lt small
  have high : (acc * 2 ^ frombits + value) / 2 ^ frombits = acc := by
    rw [mul_comm, mul_add_div (by positivity), div_eq_of_lt small, add_zero]
  rw [low, high]
  ring

section

variable (positive : 0 < tobits) (narrow : tobits ≤ 8) {values : Bytes} (bound : ∀ v ∈ values, v.toNat < 2 ^ frombits)
include positive narrow bound

theorem convertLoop_regroups (acc : ℕ) {bits : ℕ} (held : bits < tobits) :
    Regroups tobits (acc % 2 ^ bits * 2 ^ (values.length * frombits) + bitsValue frombits values)
      (bits + values.length * frombits) (convertLoop frombits tobits values acc bits).1
      (convertLoop frombits tobits values acc bits).2.2
      ((convertLoop frombits tobits values acc bits).2.1 % 2 ^ (convertLoop frombits tobits values acc bits).2.2) := by
  induction values generalizing acc bits with
  | nil => exact ⟨held, by simp [convertLoop], by simp [convertLoop], by simp [convertLoop]⟩
  | cons value values ih =>
    have first := convertGroups_regroups positive narrow
      (((acc <<< frombits) ||| value.toNat) &&& (2 ^ (frombits + tobits - 1) - 1)) (le_refl (bits + frombits))
    rw [acc_mod_two_pow (bound value mem_cons_self) held] at first
    have both := first.append (ih (fun v mem => bound v (mem_cons_of_mem value mem)) _ first.bits_lt)
    have number : acc % 2 ^ bits * 2 ^ ((value :: values).length * frombits) + bitsValue frombits (value :: values) =
        (acc % 2 ^ bits * 2 ^ frombits + value.toNat) * 2 ^ (values.length * frombits) + bitsValue frombits values := by
      rw [bitsValue_cons, length_cons]
      ring
    have width : bits + (value :: values).length * frombits = bits + frombits + values.length * frombits := by
      rw [length_cons, add_mul]
      omega
    rw [number, width]
    exact both

theorem convertBits_pad : ∃ padding < tobits,
      (convertBits frombits tobits true values).1.length * tobits = values.length * frombits + padding ∧
      (∀ v ∈ (convertBits frombits tobits true values).1, v.toNat < 2 ^ tobits) ∧
      bitsValue tobits (convertBits frombits tobits true values).1 = bitsValue frombits values * 2 ^ padding := by
  have split := convertLoop_regroups positive narrow bound 0 positive
  unfold convertBits
  generalize convertLoop frombits tobits values 0 0 = loop at split
  obtain ⟨out, acc, bits⟩ := loop
  simp only [zero_mod, zero_mul, zero_add] at split
  by_cases whole : bits = 0
  · subst whole
    exact ⟨0, positive, by simpa using split.width_eq, by simpa using split.bound,
      by simpa [mod_one] using split.number_eq.symm⟩
  · have held := split.bits_lt
    have width := split.width_eq
    have last := toNat_masked narrow (acc <<< (tobits - bits))
    have padded : acc <<< (tobits - bits) % 2 ^ tobits = acc % 2 ^ bits * 2 ^ (tobits - bits) := by
      rw [Nat.shiftLeft_eq, ← Nat.mul_mod_mul_right, ← pow_add, Nat.add_sub_cancel' held.le]
    refine ⟨tobits - bits, by omega, ?_⟩
    simp only [Bool.not_true, Bool.false_and, Bool.false_eq_true, ↓reduceIte, Bool.true_and, whole, ne_eq,
      not_false_eq_true, decide_true]
    refine ⟨?_, ?_, ?_⟩
    · rw [length_append, length_singleton, add_mul]
      omega
    · intro v mem
      rcases mem_append.mp mem with mem | mem
      · exact split.bound v mem
      · rw [mem_singleton.mp mem, last]
        exact mod_lt _ (by positivity)
    · rw [bitsValue_concat, last, padded, split.number_eq, add_mul, mul_assoc, ← pow_add, Nat.add_sub_cancel' held.le]

theorem convertBits_noPad : ∃ dropped < tobits,
      (convertBits frombits tobits false values).1.length * tobits + dropped = values.length * frombits ∧
      (∀ v ∈ (convertBits frombits tobits false values).1, v.toNat < 2 ^ tobits) ∧
      bitsValue tobits (convertBits frombits tobits false values).1 = bitsValue frombits values / 2 ^ dropped := by
  have split := convertLoop_regroups positive narrow bound 0 positive
  have out : (convertBits frombits tobits false values).1 = (convertLoop frombits tobits values 0 0).1 := by
    unfold convertBits
    simp only [↓reduceIte]
    split <;> rfl
  rw [out]
  simp only [zero_mod, zero_mul, zero_add] at split
  refine ⟨_, split.bits_lt, split.width_eq, split.bound, ?_⟩
  rw [split.number_eq, mul_comm, mul_add_div (by positivity), mod_div_self, add_zero]

end

end ConvertBits

end Nexa
