import Mathlib.Tactic.IntervalCases
import Nexa.Model.Core.MoneyStr

/-! # Amounts read back

Where `ParseMoney` undoes `FormatMoney`.
-/

namespace Nexa

open List

theorem ne_of_isDigit {c : Char} (digit : c.isDigit = true) : c ≠ '.' ∧ isspace c = false := by
  have low : 48 ≤ c.toNat := (Char.isDigit_iff_toNat.mp digit).1
  refine ⟨?_, decide_eq_false ?_⟩
  · rintro rfl
    cases digit
  · rintro (rfl | ⟨-, blank⟩)
    · cases digit
    · omega

theorem formatMoney_eq {n : CAmount} (nonneg : 0 ≤ n.toInt) : formatMoney n = Nat.toDigits 10 (n.toInt.toNat / 100) ++
      ['.', Nat.digitChar (n.toInt.toNat % 100 / 10), Nat.digitChar (n.toInt.toNat % 100 % 10)] := by
  have n_abs : (if 0 < n.toInt then n.toInt else -n.toInt) = n.toInt.toNat := by omega
  have untrimmed (first second : Char) (whole : List Char) :
      trailingZeros (whole ++ ['.', first, second]).reverse = 0 := by
    rw [reverse_append]
    unfold trailingZeros
    split
    · rename_i shape
      cases shape
      rfl
    · rfl
  simp only [formatMoney, n_abs, untrimmed, if_neg (not_lt.mpr nonneg), Nat.sub_zero, take_length]
  norm_cast

theorem parseWhole_append {digits : List Char} (areDigits : ∀ c ∈ digits, c.isDigit = true)
    (strWhole rest : List Char) : parseWhole strWhole (digits ++ rest) = parseWhole (strWhole ++ digits) rest := by
  induction digits generalizing strWhole with
  | nil => simp
  | cons c digits ih =>
    obtain ⟨digit, areDigits⟩ := forall_mem_cons.mp areDigits
    obtain ⟨notPoint, notSpace⟩ := ne_of_isDigit digit
    rw [cons_append, parseWhole, if_neg notPoint, notSpace, digit]
    simpa using ih areDigits (strWhole ++ [c])

theorem toNat_digitChar {d : ℕ} (small : d < 10) : (Nat.digitChar d).toNat = d + '0'.toNat := by
  interval_cases d <;> rfl

theorem parseUnits_digits {remainder : ℕ} (small : remainder < 100) :
    parseUnits (CENT * 10) [Nat.digitChar (remainder / 10), Nat.digitChar (remainder % 10)] =
      ((remainder : ℤ), []) := by
  have tens : remainder / 10 < 10 := by omega
  have ones : remainder % 10 < 10 := by omega
  simp [parseUnits, CENT, tens, ones, toNat_digitChar]
  omega

/-- A formatted amount is read back exactly if its whole coins have at most ten digits. -/
theorem parseMoney_formatMoney_iff {n : CAmount} (range : moneyRange n.toInt) :
    parseMoney (formatMoney n) = some n ↔ n.toInt < 10 ^ 10 * COIN := by
  obtain ⟨nonneg, -⟩ := range
  have areDigits : ∀ c ∈ Nat.toDigits 10 (n.toInt.toNat / 100), c.isDigit = true := fun c =>
    Nat.isDigit_of_mem_toDigits (by decide) (by decide)
  have noSpace : (formatMoney n).dropWhile isspace = formatMoney n := by
    obtain ⟨first, others, shape⟩ := exists_cons_of_ne_nil (@Nat.toDigits_ne_nil _ 10)
    rw [shape] at areDigits
    rw [formatMoney_eq nonneg, shape, cons_append,
      dropWhile_cons_of_neg (by simp [(ne_of_isDigit (areDigits _ mem_cons_self)).2])]
  have value : (n.toInt.toNat / 100 : ℕ) * COIN + (n.toInt.toNat % 100 : ℕ) = n.toInt := by
    unfold COIN
    omega
  have units : ¬(((n.toInt.toNat % 100 : ℕ) : ℤ) < 0 ∨ COIN < (n.toInt.toNat % 100 : ℕ)) := by
    unfold COIN
    omega
  have read : parseMoney (formatMoney n) =
      if 10 < (Nat.toDigits 10 (n.toInt.toNat / 100)).length then none else some n := by
    rw [parseMoney, noSpace, formatMoney_eq nonneg, parseWhole_append areDigits, nil_append, parseWhole, if_pos rfl,
      parseUnits_digits (Nat.mod_lt _ (by decide))]
    simp only [Option.bind_eq_bind, Option.bind_some, all_nil, Bool.not_true, Bool.false_eq_true, if_false,
      Nat.ofDigitChars_ten_toDigits, value, if_neg units, Int64.ofInt_toInt]
  have digits := @Nat.length_toDigits_le_iff 10 (n.toInt.toNat / 100) 10 (by decide) (by decide)
  rw [read, COIN]
  split_ifs with long
  · simp only [false_iff]
    omega
  · simp only [true_iff]
    omega

theorem parseMoney_formatMoney_cents : parseMoney (formatMoney 150) = some 150 :=
  (@parseMoney_formatMoney_iff 150 (by decide)).mpr (by decide)

/-- Ten thousand million coins, which have eleven digits. -/
theorem parseMoney_formatMoney_large :
    moneyRange (1000000000000 : CAmount).toInt ∧ parseMoney (formatMoney 1000000000000) = none := by decide

end Nexa
