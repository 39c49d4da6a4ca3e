import Mathlib.Data.Nat.Digits.Lemmas

/-! # Digits, the most significant first

`Nat.ofDigits` reads its digits from the least significant on. Formats that send the most
significant digit first are read with the list turned round.
-/

namespace Nat

/-- The number with the given digits, the most significant first. -/
def ofDigitsBE (base : ℕ) (digits : List ℕ) : ℕ := ofDigits base digits.reverse

variable {base : ℕ}

@[simp] theorem ofDigitsBE_nil : ofDigitsBE base [] = 0 := by
  simp [ofDigitsBE]

theorem ofDigitsBE_append (front back : List ℕ) :
    ofDigitsBE base (front ++ back) = ofDigitsBE base front * base ^ back.length + ofDigitsBE base back := by
  simp only [ofDigitsBE, List.reverse_append, ofDigits_append, List.length_reverse]
  ring

theorem ofDigitsBE_singleton (digit : ℕ) : ofDigitsBE base [digit] = digit := by
  simp [ofDigitsBE]

theorem ofDigitsBE_cons (digit : ℕ) (digits : List ℕ) :
    ofDigitsBE base (digit :: digits) = digit * base ^ digits.length + ofDigitsBE base digits := by
  rw [← List.singleton_append, ofDigitsBE_append, ofDigitsBE_singleton]

theorem ofDigitsBE_concat (digits : List ℕ) (digit : ℕ) :
    ofDigitsBE base (digits ++ [digit]) = ofDigitsBE base digits * base + digit := by
  rw [ofDigitsBE_append, ofDigitsBE_singleton, List.length_singleton, pow_one]

theorem ofDigitsBE_lt_base_pow_length (one_lt : 1 < base) {digits : List ℕ} (bound : ∀ d ∈ digits, d < base) :
    ofDigitsBE base digits < base ^ digits.length := by
  have reversed := ofDigits_lt_base_pow_length one_lt (l := digits.reverse) (by simpa using bound)
  simpa [ofDigitsBE] using reversed

theorem ofDigitsBE_inj_of_len_eq (one_lt : 1 < base) {digits digits' : List ℕ}
    (length : digits.length = digits'.length) (bound : ∀ d ∈ digits, d < base) (bound' : ∀ d ∈ digits', d < base)
    (same : ofDigitsBE base digits = ofDigitsBE base digits') : digits = digits' := by
  have lengthReversed : digits.reverse.length = digits'.reverse.length := by simpa using length
  exact List.reverse_injective
    (ofDigits_inj_of_len_eq one_lt lengthReversed (by simpa using bound) (by simpa using bound') same)

end Nat
