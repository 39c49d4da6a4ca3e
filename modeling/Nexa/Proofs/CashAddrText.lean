import Nexa.Proofs.CashAddrChecksum

/-! # The text of an address

An encoded address decodes to the prefix and the values it was made from. A text that decodes is,
in lower case and with its prefix written out, the encoding of what it decodes to.
-/

namespace Nexa.CashAddr

open List

/-- The character of a value. -/
def valueChar (value : UInt8) : UInt8 := charset.getD value.toNat 0

variable (c : UInt8)

/-- The value of a character that has one. -/
def valueOf : UInt8 := (charValue c).getD 0

/-- A character in lower case. -/
def lowerCased : UInt8 := if 65 ≤ c ∧ c ≤ 90 then c + 32 else c

/-- A text in lower case, with the prefix it omits. -/
def canonicalText (addrPrefix str : Bytes) : Bytes :=
  if 58 ∈ str then str.map lowerCased else addrPrefix ++ ascii ":" ++ str.map lowerCased

def IsLowerLetter : Prop := 97 ≤ c ∧ c ≤ 122

instance : DecidablePred IsLowerLetter := fun c => inferInstanceAs (Decidable (97 ≤ c ∧ c ≤ 122))

/-- A prefix that is told from the values: letters only, in lower case. -/
structure IsPrefix (addrPrefix : Bytes) : Prop where
  nonempty : addrPrefix ≠ []
  letters : ∀ c ∈ addrPrefix, IsLowerLetter c

/-! ## Characters and values -/

theorem forall_byte {holds : UInt8 → Prop} (byNumber : ∀ n < 256, holds (UInt8.ofNat n)) (c : UInt8) : holds c := by
  have byte := byNumber c.toNat c.toNat_lt
  rwa [UInt8.ofNat_toNat] at byte

theorem charValue_valueChar (value : UInt8) (bound : value.toNat < 2 ^ 5) :
    charValue (valueChar value) = some value := by
  revert value
  exact forall_byte (by decide +kernel)

theorem valueChar_valueOf (valid : (charValue c).isSome) :
    (valueOf c).toNat < 2 ^ 5 ∧ valueChar (valueOf c) = lowerCased c ∧ c ≠ 58 := by
  revert c
  exact forall_byte (by decide +kernel)

theorem charValue_cases (valid : (charValue c).isSome) :
    (97 ≤ c ∧ c ≤ 122) ∧ lowerCased c = c ∨ ¬(97 ≤ c ∧ c ≤ 122) ∧ (65 ≤ c ∧ c ≤ 90) ∧ lowerCased c ≠ c ∨
      ¬(97 ≤ c ∧ c ≤ 122) ∧ (48 ≤ c ∧ c ≤ 57) ∧ lowerCased c = c := by
  revert c
  exact forall_byte (by decide +kernel)

variable {values str letters chars addrPrefix : Bytes} {i : ℕ}

theorem charValues_eq_some_iff :
    charValues str = some values ↔ (∀ c ∈ str, (charValue c).isSome) ∧ values = str.map valueOf := by
  induction str generalizing values with
  | nil => simp [charValues]
  | cons c str ih =>
    simp only [charValues, Option.bind_eq_some_iff, Option.map_eq_some_iff, ih, forall_mem_cons, map_cons, valueOf]
    cases charValue c with
    | none => simp
    | some value => simp [@eq_comm _ _ values]

theorem charValues_map_valueChar (bound : ∀ v ∈ values, v.toNat < 2 ^ 5) :
    charValues (values.map valueChar) = some values := by
  have all := fun v mem => charValue_valueChar v (bound v mem)
  refine charValues_eq_some_iff.mpr ⟨by simpa using fun v mem => by rw [all v mem]; rfl, ?_⟩
  rw [map_map, map_congr_left fun v mem => show (valueOf ∘ valueChar) v = v by simp [valueOf, all v mem], map_id']

theorem charValues_eq_some (found : charValues str = some values) :
    (∀ v ∈ values, v.toNat < 2 ^ 5) ∧ values.map valueChar = str.map lowerCased ∧ 58 ∉ str := by
  obtain ⟨valid, rfl⟩ := charValues_eq_some_iff.mp found
  have all := fun c mem => valueChar_valueOf c (valid c mem)
  refine ⟨by simpa using fun c mem => (all c mem).1, ?_, fun colon => (all 58 colon).2.2 rfl⟩
  rw [map_map]
  exact map_congr_left fun c mem => (all c mem).2.1

/-! ## The first pass -/

theorem TextScan.run_letters (lower : ∀ c ∈ letters, IsLowerLetter c) (scan : TextScan) (i : ℕ) (rest : Bytes) :
    scan.run i (letters ++ rest) =
      { scan with lower := scan.lower || !letters.isEmpty }.run (i + letters.length) rest := by
  induction letters generalizing scan i with
  | nil => simp
  | cons c letters ih =>
    have letter : 97 ≤ c ∧ c ≤ 122 := lower c mem_cons_self
    rw [cons_append, TextScan.run, TextScan.see, if_pos letter, Option.bind_some,
      ih fun a mem => lower a (mem_cons_of_mem c mem), Nat.add_assoc, Nat.add_comm 1]
    simp

theorem TextScan.run_chars (valid : ∀ c ∈ chars, (charValue c).isSome) (scan : TextScan) (i : ℕ) :
    ∃ seen, scan.run i chars = some seen ∧ (seen.upper = false ↔ scan.upper = false ∧ chars.map lowerCased = chars) ∧
      (scan.lower = true → seen.lower = true) ∧ seen.prefixSize = scan.prefixSize := by
  induction chars generalizing scan i with
  | nil => exact ⟨scan, rfl, by simp, id, rfl⟩
  | cons c chars ih =>
    have later := ih fun a mem => valid a (mem_cons_of_mem c mem)
    simp only [TextScan.run, TextScan.see]
    rcases charValue_cases c (valid c mem_cons_self) with ⟨letter, same⟩ | ⟨other, upper, changes⟩ |
      ⟨other, number, same⟩
    · obtain ⟨seen, run, upper, lower, size⟩ := later { scan with lower := true } (i + 1)
      rw [if_pos letter]
      exact ⟨seen, run, by simpa [same] using upper, fun _ => lower rfl, size⟩
    · obtain ⟨seen, run, noUpper, lower, size⟩ := later { scan with upper := true } (i + 1)
      rw [if_neg other, if_pos upper]
      exact ⟨seen, run, by simp [noUpper, changes], lower, size⟩
    · obtain ⟨seen, run, upper, lower, size⟩ := later { scan with hasNumber := true } (i + 1)
      have noUpper : ¬(65 ≤ c ∧ c ≤ 90) := by grind
      rw [if_neg other, if_neg noUpper, if_pos number]
      exact ⟨seen, run, by simpa [same] using upper, lower, size⟩

variable {scan seen : TextScan}

theorem lowerCase_eq_lowerCased {c : UInt8} (see : scan.see i c = some seen) : lowerCase c = lowerCased c := by
  have all : ∀ c : UInt8, 97 ≤ c ∧ c ≤ 122 ∨ 65 ≤ c ∧ c ≤ 90 ∨ 48 ≤ c ∧ c ≤ 57 ∨ c = 58 →
      lowerCase c = lowerCased c := forall_byte (by decide +kernel)
  unfold TextScan.see at see
  split_ifs at see with lower upper number colon
  · exact all c (.inl lower)
  · exact all c (.inr (.inl upper))
  · exact all c (.inr (.inr (.inl number)))
  · exact all c (.inr (.inr (.inr colon)))

theorem TextScan.map_lowerCase (run : scan.run i str = some seen) : str.map lowerCase = str.map lowerCased := by
  induction str generalizing scan i with
  | nil => rfl
  | cons c str ih =>
    obtain ⟨next, see, later⟩ := Option.bind_eq_some_iff.mp run
    rw [map_cons, map_cons, lowerCase_eq_lowerCased see, ih later]

theorem TextScan.prefixSize_cases (run : scan.run i str = some seen) :
    seen.prefixSize = scan.prefixSize ∨ ∃ front back, str = front ++ 58 :: back ∧
      seen.prefixSize = i + front.length := by
  induction str generalizing scan i with
  | nil =>
    cases run
    exact .inl rfl
  | cons c str ih =>
    obtain ⟨next, see, later⟩ := Option.bind_eq_some_iff.mp run
    rcases ih later with same | ⟨front, back, rfl, size⟩
    · unfold TextScan.see at see
      split_ifs at see with lower upper number colon <;> cases see
      · exact .inl same
      · exact .inl same
      · exact .inl same
      · exact .inr ⟨[], str, by rw [colon]; rfl, same⟩
    · refine .inr ⟨c :: front, back, rfl, ?_⟩
      rw [length_cons]
      omega

/-! ## Encoding and decoding -/

theorem encode_eq (addrPrefix values : Bytes) :
    encode addrPrefix values = addrPrefix ++ 58 :: (values ++ createChecksum addrPrefix values).map valueChar := by
  unfold encode
  rw [append_assoc]
  rfl

theorem map_lowerCase_of_letters (lower : ∀ c ∈ letters, IsLowerLetter c) : letters.map lowerCase = letters := by
  have all : ∀ c : UInt8, IsLowerLetter c → lowerCase c = c := forall_byte (by decide +kernel)
  rw [map_congr_left fun c mem => all c (lower c mem), map_id']

theorem charValues_encode (bound : ∀ v ∈ values, v.toNat < 2 ^ 5) :
    charValues ((values ++ createChecksum addrPrefix values).map valueChar) =
      some (values ++ createChecksum addrPrefix values) :=
  charValues_map_valueChar fun v mem => (mem_append.mp mem).elim (bound v) (createChecksum_lt addrPrefix values v)

theorem verifyChecksum_createChecksum (addrPrefix values : Bytes) :
    verifyChecksum addrPrefix (values ++ createChecksum addrPrefix values) = true :=
  (verifyChecksum_append_iff (length_createChecksum addrPrefix values) (createChecksum_lt addrPrefix values)).mpr rfl

theorem decode_text (legal : IsPrefix addrPrefix) (valid : ∀ c ∈ chars, (charValue c).isSome) (defaultPrefix : Bytes) :
    decode (addrPrefix ++ 58 :: chars) defaultPrefix =
      if chars.map lowerCased = chars then decodeValues addrPrefix chars else .ok ([], []) := by
  have letters := TextScan.run_letters legal.letters {} 0 (58 :: chars)
  have colon : TextScan.see { lower := true } (0 + addrPrefix.length) 58 =
      some { lower := true, prefixSize := addrPrefix.length } := by
    simp [TextScan.see, legal.nonempty]
  obtain ⟨seen, run, upper, lower, size⟩ := TextScan.run_chars valid
    { lower := true, prefixSize := addrPrefix.length } (0 + addrPrefix.length + 1)
  rw [isEmpty_eq_false_iff.mpr legal.nonempty, Bool.not_false, Bool.or_true, TextScan.run, colon, Option.bind_some,
    run] at letters
  have found : seen.prefixSize ≠ 0 := by simpa [size] using legal.nonempty
  simp only [decode, letters, lower, Bool.and_true, found, if_false]
  rw [size, take_left, map_lowerCase_of_letters legal.letters, ← drop_drop, drop_left, drop_one, tail_cons]
  by_cases same : chars.map lowerCased = chars
  · rw [if_pos same, upper.mpr ⟨rfl, same⟩, if_neg Bool.false_ne_true]
  · rw [if_neg same, if_pos (Bool.of_not_eq_false fun none => same (upper.mp none).2)]

section

variable (legal : IsPrefix addrPrefix) (bound : ∀ v ∈ values, v.toNat < 2 ^ 5) (defaultPrefix : Bytes)
include legal bound defaultPrefix

theorem decode_encode : decode (encode addrPrefix values) defaultPrefix = .ok (addrPrefix, values) := by
  have found := @charValues_encode values addrPrefix bound
  have length := length_createChecksum addrPrefix values
  rw [encode_eq, decode_text legal (charValues_eq_some_iff.mp found).1, if_pos (charValues_eq_some found).2.1.symm]
  simp only [decodeValues, found, verifyChecksum_createChecksum, Bool.not_true, Bool.false_eq_true, if_false,
    length_append, length, Nat.add_sub_cancel, take_left]
  rw [if_neg (by omega)]

/-- Up to eight neighbouring characters cannot be changed without notice. -/
theorem decode_encode_burst : decode (encode addrPrefix values) defaultPrefix = .ok (addrPrefix, values) ∧
      ∀ front run others back, encode addrPrefix values = addrPrefix ++ ascii ":" ++ (front ++ run ++ back) →
        run.length ≤ 8 → others.length = run.length → (∀ c ∈ others, (charValue c).isSome) → others ≠ run →
          decode (addrPrefix ++ ascii ":" ++ (front ++ others ++ back)) defaultPrefix = .ok ([], []) := by
  refine ⟨decode_encode legal bound defaultPrefix, fun front run others back text short length valid changed => ?_⟩
  have found := @charValues_encode values addrPrefix bound
  have passes := verifyChecksum_createChecksum addrPrefix values
  rw [show ascii ":" = [58] from rfl, append_assoc, singleton_append] at text ⊢
  have chars := tail_eq_of_cons_eq (append_cancel_left ((encode_eq addrPrefix values).symm.trans text))
  rw [chars] at found
  obtain ⟨validRun, all⟩ := charValues_eq_some_iff.mp found
  have validOthers : ∀ c ∈ front ++ others ++ back, (charValue c).isSome := by
    simp only [forall_mem_append] at validRun ⊢
    exact ⟨⟨validRun.1.1, valid⟩, validRun.2⟩
  have foundOthers := charValues_eq_some_iff.mpr ⟨validOthers, rfl⟩
  rw [decode_text legal validOthers]
  split_ifs with lower
  · have fails : verifyChecksum addrPrefix ((front ++ others ++ back).map valueOf) ≠ true := by
      intro others_pass
      have bounds := (charValues_eq_some found).1
      have boundsOthers := (charValues_eq_some foundOthers).1
      rw [all] at passes bounds
      simp only [map_append, forall_mem_append] at passes others_pass bounds boundsOthers
      have same := eq_of_verifyChecksum (by simpa using length) (by simpa using short) bounds.1.2 boundsOthers.1.2
        passes others_pass
      -- in lower case the same values are the same characters
      have texts : front ++ others ++ back = front ++ run ++ back := by
        rw [← lower, ← (charValues_eq_some foundOthers).2.1, ← chars, all]
        simp only [map_append, same]
      exact changed (by simpa using texts)
    simp only [decodeValues, foundOthers, fails, Bool.not_eq_true', if_true]
  · rfl

end

theorem decode_encode_burst_first : decode (encode [110] [3]) [] = .ok ([110], [3]) ∧
      decode ([110] ++ ascii ":" ++ ([] ++ ascii "q" ++ (createChecksum [110] [3]).map valueChar)) [] =
        .ok ([], []) := by
  obtain ⟨same, burst⟩ := @decode_encode_burst [3] [110] ⟨by simp, by simp [IsLowerLetter]⟩ (by simp) []
  exact ⟨same, burst [] [valueChar 3] (ascii "q") _ (encode_eq _ _) (by decide) rfl (by decide +kernel)
    (by decide +kernel)⟩

theorem chars_of_decodeValues {expected chars addrPrefix : Bytes}
    (decoded : decodeValues expected chars = .ok (addrPrefix, values)) (found : addrPrefix ≠ []) :
    addrPrefix = expected ∧ (∀ v ∈ values, v.toNat < 2 ^ 5) ∧ 58 ∉ chars ∧
      (values ++ createChecksum addrPrefix values).map valueChar = chars.map lowerCased := by
  unfold decodeValues at decoded
  split at decoded
  · cases decoded
    exact absurd rfl found
  next all decodes =>
    obtain ⟨bound, characters, noColon⟩ := charValues_eq_some decodes
    split_ifs at decoded with fails short
    · cases decoded
      exact absurd rfl found
    · cases decoded
      have passes : verifyChecksum expected all = true := by simpa using fails
      have split := take_append_drop (all.length - 8) all
      rw [← split, verifyChecksum_append_iff (by rw [length_drop]; omega)
        fun v mem => bound v (mem_of_mem_drop mem)] at passes
      refine ⟨rfl, fun v mem => bound v (mem_of_mem_take mem), noColon, ?_⟩
      rw [← passes, split, characters]

theorem canonicalText_of_decode {defaultPrefix addrPrefix : Bytes}
    (decoded : decode str defaultPrefix = .ok (addrPrefix, values)) (found : addrPrefix ≠ []) :
    canonicalText addrPrefix str = encode addrPrefix values ∧ ∀ v ∈ values, v.toNat < 2 ^ 5 := by
  unfold decode at decoded
  split at decoded
  · cases decoded
    exact absurd rfl found
  next scan run =>
    split_ifs at decoded with mixed omitted
    · cases decoded
      exact absurd rfl found
    · obtain ⟨rfl, bound, noColon, chars⟩ := chars_of_decodeValues decoded found
      refine ⟨?_, bound⟩
      rw [canonicalText, if_neg noColon, encode_eq, chars, append_assoc]
      rfl
    · obtain ⟨rfl, bound, -, chars⟩ := chars_of_decodeValues decoded found
      refine ⟨?_, bound⟩
      -- the prefix ends at the colon that the first pass saw
      obtain none | ⟨front, back, rfl, size⟩ := TextScan.prefixSize_cases run
      · exact absurd none omitted
      have lower := TextScan.map_lowerCase run
      rw [Nat.zero_add] at size
      rw [size, ← drop_drop, drop_left, take_left] at chars
      rw [map_append, map_append] at lower
      have front_eq : front.map lowerCase = front.map lowerCased := (append_inj lower (by simp)).1
      have colon : (58 : UInt8) ∈ front ++ 58 :: back := by simp
      rw [size, take_left, canonicalText, if_pos colon, encode_eq, chars, map_append, front_eq]
      rfl

end Nexa.CashAddr
