import Nexa.Proofs.NumericOpcodes

/-! # Conversions of numbers

The sign of a number is a bit of its own, so zeros between it and the magnitude change nothing: `MinimallyEncode`
drops them, `OP_NUM2BIN` and `BigNum::serialize` add them.
-/

namespace Nexa

open ScriptMachine StackItem EStateM CScriptNum List

/-! ## Zeros below the sign -/

theorem natLE_replicate_zero (count : ℕ) : natLE (replicate count 0) = 0 := by
  induction count with
  | zero => rfl
  | succ count ih => simp [replicate_succ, natLE, ih]

/-- A last byte that holds the sign and nothing else. -/
theorem scriptNum_of_sign {sign : UInt8} (bytes : Bytes) (count : ℕ) (isSign : sign &&& 0x7f = 0) :
    scriptNum (bytes ++ replicate count 0 ++ [sign]) = if 0x80 ≤ sign then -(natLE bytes : ℤ) else natLE bytes := by
  have values : ∀ sign : UInt8, sign &&& 0x7f = 0 → sign.toNat = if 0x80 ≤ sign then 0x80 else 0 := by
    rintro ⟨sign⟩
    revert sign
    decide
  rw [scriptNum_concat, natLE_append, natLE_replicate_zero, values sign isSign]
  split <;> simp

variable {data : Bytes} {maxIntegerSize : ℕ}

theorem isMinimallyEncoded_concat {bytes : Bytes} {last : UInt8} :
    isMinimallyEncoded (bytes ++ [last]) maxIntegerSize = true ↔
      bytes.length < maxIntegerSize ∧ (last &&& 0x7f ≠ 0 ∨ bytes.getLast?.getD 0 &&& 0x80 ≠ 0) := by
  simp [isMinimallyEncoded, Nat.succ_le_iff]

theorem minimallyEncode_eq_self (minimal : isMinimallyEncoded data maxIntegerSize = true) :
    minimallyEncode data = data := by
  obtain rfl | ⟨bytes, last, rfl⟩ := data.eq_nil_or_concat
  · rfl
  rw [concat_eq_append] at minimal ⊢
  obtain ⟨-, filled⟩ := isMinimallyEncoded_concat.mp minimal
  simp only [minimallyEncode, reverse_append, reverse_singleton, singleton_append]
  split
  next => rfl
  next signOnly =>
    have carried := filled.resolve_left signOnly
    obtain rfl | ⟨bytes, byte, rfl⟩ := bytes.eq_nil_or_concat
    · exact absurd rfl carried
    rw [concat_eq_append, getLast?_concat, Option.getD_some] at carried
    have nonzero : byte ≠ 0 := by
      rintro rfl
      exact carried rfl
    simp [nonzero, carried]

theorem sign_cases (sign : UInt8) (isSign : sign &&& 0x7f = 0) : sign = 0 ∨ sign = 0x80 := by
  obtain ⟨sign⟩ := sign
  revert sign
  decide

/-- The sign joins the last byte of the magnitude where there is room for it. -/
theorem joinSign {byte sign : UInt8} (rest : Bytes) (isSign : sign &&& 0x7f = 0) (clear : byte &&& 0x80 = 0) :
    scriptNum (rest ++ [byte ||| sign]) =
      if 0x80 ≤ sign then -(natLE (rest ++ [byte]) : ℤ) else natLE (rest ++ [byte]) := by
  have low : ¬0x80 ≤ byte := fun high => (sign_bit byte).mpr high clear
  rw [scriptNum_concat, natLE_append]
  obtain rfl | rfl := sign_cases sign isSign
  · simp [natLE, low]
  · obtain ⟨value, high⟩ := sign_set clear
    simp [natLE, value, high]

theorem low_bits_ne_zero {byte sign : UInt8} (nonzero : byte ≠ 0) (clear : byte &&& 0x80 = 0)
    (isSign : sign &&& 0x7f = 0) : (byte ||| sign) &&& 0x7f ≠ 0 := by
  have bits : ∀ byte : UInt8, byte ≠ 0 → byte &&& 0x80 = 0 →
      (byte ||| 0) &&& 0x7f ≠ 0 ∧ (byte ||| 0x80) &&& 0x7f ≠ 0 := by
    rintro ⟨byte⟩
    revert byte
    decide
  obtain rfl | rfl := sign_cases sign isSign
  · exact (bits byte nonzero clear).1
  · exact (bits byte nonzero clear).2

/-- `MinimallyEncode` keeps the number and leaves nothing to drop. -/
theorem minimallyEncode_spec (data : Bytes) : scriptNum (minimallyEncode data) = scriptNum data ∧
      isMinimallyEncoded (minimallyEncode data) (minimallyEncode data).length = true := by
  obtain rfl | ⟨bytes, last, rfl⟩ := data.eq_nil_or_concat
  · exact ⟨rfl, rfl⟩
  rw [concat_eq_append]
  simp only [minimallyEncode, reverse_append, reverse_singleton, singleton_append]
  split
  next filled => exact ⟨rfl, isMinimallyEncoded_concat.mpr ⟨by simp, .inl filled⟩⟩
  next signOnly =>
    have isSign := not_not.mp signOnly
    obtain ⟨count, zeros⟩ : ∃ count, bytes.reverse.takeWhile (· = 0) = replicate count 0 :=
      ⟨_, eq_replicate_of_mem fun byte member => of_decide_eq_true (all_eq_true.mp all_takeWhile byte member)⟩
    have parts : bytes = (bytes.reverse.dropWhile (· = 0)).reverse ++ replicate count 0 := by
      rw [← reverse_inj, reverse_append, reverse_reverse, reverse_replicate, ← zeros]
      exact takeWhile_append_dropWhile.symm
    have stops := head?_dropWhile_not (· = 0) bytes.reverse
    generalize bytes.reverse.dropWhile (· = 0) = kept at parts stops
    rw [parts, scriptNum_of_sign _ _ isSign]
    cases kept with
    | nil => simp [scriptNum, natLE, isMinimallyEncoded]
    | cons byte rest =>
      have nonzero : byte ≠ 0 := by simpa using stops
      simp only [reverse_cons]
      split
      next carried =>
        have value := scriptNum_of_sign (rest.reverse ++ [byte]) 0 isSign
        simp only [replicate_zero, append_nil] at value
        exact ⟨value, isMinimallyEncoded_concat.mpr ⟨by simp, .inr (by simpa using carried)⟩⟩
      next clear =>
        have clear := not_not.mp clear
        refine ⟨joinSign _ isSign clear, isMinimallyEncoded_concat.mpr ⟨by simp, .inl ?_⟩⟩
        exact low_bits_ne_zero nonzero clear isSign

theorem getLast_magnitudeBytes {width magnitude : ℕ} {bytes : Bytes} {last : UInt8} (fits : magnitude < 256 ^ width)
    (shape : magnitudeBytes width magnitude = bytes ++ [last]) : last ≠ 0 := by
  induction width generalizing magnitude bytes with
  | zero => simp [magnitudeBytes] at shape
  | succ width ih =>
    unfold magnitudeBytes at shape
    split at shape
    next => simp at shape
    next nonzero =>
      have rest : magnitude / 256 < 256 ^ width := Nat.div_lt_of_lt_mul (by rwa [← pow_succ'])
      cases bytes with
      | cons byte bytes => exact ih rest (cons.inj shape).2
      | nil =>
        obtain ⟨rfl, none⟩ := cons.inj shape
        have small := natLE_magnitudeBytes rest
        rw [none, natLE] at small
        rw [Ne, ← UInt8.toNat_inj, UInt8.toNat_ofNat', UInt8.toNat_zero]
        omega

/-- The encoding of a number of 64 bits is minimal and takes at most eight bytes. -/
theorem isMinimallyEncoded_serialize {value : ℤ} (fits : value.natAbs < 2 ^ 63) :
    isMinimallyEncoded (CScriptNum.serialize value) maximumElementSize = true := by
  have fits' : value.natAbs < 256 ^ 8 := fits.trans (by decide)
  have magnitude := natLE_magnitudeBytes fits'
  have length := @length_magnitudeBytes_le 8 _ _ fits'
  simp only [CScriptNum.serialize]
  split
  next => rfl
  next last rest reversed =>
    have shape : magnitudeBytes 8 value.natAbs = rest.reverse ++ [last] := by
      rw [← reverse_inj, reversed]
      simp
    have nonzero := getLast_magnitudeBytes fits' shape
    rw [shape] at magnitude length ⊢
    simp only [length_append, length_reverse, length_singleton] at length
    split
    next full =>
      -- a byte for the sign is added to at most seven others
      have high : 0x80 ≤ last.toNat := (sign_bit last).mp full
      have short : rest.length < 7 := by
        by_contra long
        have eight : rest.length = 7 := by omega
        rw [natLE_append, length_reverse, eight, natLE] at magnitude
        omega
      refine isMinimallyEncoded_concat.mpr ⟨?_, .inr (by simpa using full)⟩
      simp only [length_append, length_reverse, length_singleton, maximumElementSize]
      omega
    next clear =>
      have clear := not_not.mp clear
      have room : rest.reverse.length < maximumElementSize := by
        simp only [length_reverse, maximumElementSize]
        omega
      split
      next =>
        rw [reverse_cons]
        exact isMinimallyEncoded_concat.mpr ⟨room, .inl (low_bits_ne_zero nonzero clear rfl)⟩
      next => exact isMinimallyEncoded_concat.mpr ⟨room, .inl (by simpa using @low_bits_ne_zero _ 0 nonzero clear rfl)⟩

/-- A script number is read back from its encoding, which is minimal. `MinimallyEncode` keeps the number and leaves
an encoding that is minimal and that it leaves alone. -/
theorem scriptNum_encodings {value : ℤ} (inRange : -2 ^ 63 < value ∧ value < 2 ^ 63) (data : Bytes) :
    (isMinimallyEncoded (CScriptNum.serialize value) maximumElementSize = true ∧
        ∀ minimal, ofVch (CScriptNum.serialize value) minimal maximumElementSize = .ok value) ∧
      scriptNum (minimallyEncode data) = scriptNum data ∧
      (∀ maxIntegerSize, isMinimallyEncoded (minimallyEncode data) maxIntegerSize =
        decide ((minimallyEncode data).length ≤ maxIntegerSize)) ∧
      minimallyEncode (minimallyEncode data) = minimallyEncode data := by
  have minimal := @isMinimallyEncoded_serialize value (by omega)
  obtain ⟨sameNumber, minimal'⟩ := minimallyEncode_spec data
  refine ⟨⟨minimal, fun required => ?_⟩, sameNumber, fun maxIntegerSize => ?_, minimallyEncode_eq_self minimal'⟩
  · have short : ¬maximumElementSize < (CScriptNum.serialize value).length := by
      simp only [isMinimallyEncoded, Bool.and_eq_true, decide_eq_true_eq] at minimal
      exact not_lt.mpr minimal.1
    rw [ofVch, if_neg short, minimal, if_neg (by simp), @scriptNum_serialize value (by omega)]
  · simp only [isMinimallyEncoded, le_refl, decide_true, Bool.true_and] at minimal' ⊢
    rw [minimal', Bool.and_true]

theorem scriptNum_encodings_sample :
    minimallyEncode [1, 0, 0x80] = [0x81] ∧ minimallyEncode (minimallyEncode [1, 0, 0x80]) = [0x81] :=
  ⟨rfl, (@scriptNum_encodings (-1) (by decide) [1, 0, 0x80]).2.2.2⟩

/-! ## BigNum -/

variable {n : ℤ} {padTo sz : ℕ}

/-- A number is read back from its bytes, whatever the padding. -/
theorem scriptNum_serialize_bigNum (n : ℤ) (padTo : ℕ) : scriptNum (StackItem.serialize n padTo) = n := by
  have isSign : (if n < 0 then 0x80 else 0 : UInt8) &&& 0x7f = 0 := by split <;> rfl
  rw [StackItem.serialize, scriptNum_of_sign _ _ isSign, natLE_bytesLE, Nat.mod_eq_of_lt (natAbs_lt_magSize n)]
  by_cases negative : n < 0
  · rw [if_pos negative, if_pos (by decide)]
    omega
  · rw [if_neg negative, if_neg (by decide)]
    omega

/-- The vector has its expected length and the bytes of the buffer unless the number is zero, which is padded behind
a byte that is there already. -/
theorem serialize_agrees_iff : ((StackItem.serialize n padTo).length = max padTo (magSize n) + 1 ∧
        (∀ bytes, serializeInto n padTo sz = .ok bytes → StackItem.serialize n padTo = bytes) ∧
        scriptNum (StackItem.serialize n padTo) = n) ↔
      n ≠ 0 ∨ padTo = 0 ∧ sz ≤ 1 := by
  rw [and_iff_left (scriptNum_serialize_bigNum n padTo)]
  by_cases zero : n = 0
  · subst zero
    simp only [ne_eq, not_true_eq_false, false_or]
    constructor
    · rintro ⟨length, agrees⟩
      simp only [StackItem.serialize, length_append, length_bytesLE, length_replicate, length_singleton] at length
      have unpadded : padTo = 0 := by
        simp only [magSize, if_true] at length
        omega
      subst unpadded
      by_contra large
      have written : serializeInto 0 0 sz = .ok [0] := by
        rw [serializeInto, if_neg (by omega : sz ≠ 0), if_neg (by simp only [magSize, if_true]; omega)]
        rfl
      cases agrees _ written
    · rintro ⟨rfl, small⟩
      refine ⟨rfl, fun bytes written => ?_⟩
      have tooSmall : (if sz = 0 then 0 + 1 else sz) < magSize 0 + 1 := by
        simp only [magSize, if_true]
        split <;> omega
      rw [serializeInto, if_pos tooSmall] at written
      cases written
  · refine iff_of_true ⟨?_, fun bytes written => ?_⟩ (.inl zero)
    · simp only [StackItem.serialize, zero, if_false, length_append, length_bytesLE, length_replicate, length_singleton]
      omega
    · by_cases small : (if sz = 0 then padTo + 1 else sz) < magSize n + 1
      · rw [serializeInto, if_pos small] at written
        cases written
      · rw [serializeInto, if_neg small] at written
        cases written
        rw [StackItem.serialize, if_neg zero]

/-- Zero padded to one byte has three bytes as a vector and two in a buffer. -/
theorem serialize_zero_padded :
    StackItem.serialize 0 1 = [0, 0, 0] ∧ serializeInto 0 1 0 = .ok [0, 0] ∧ max 1 (magSize 0) + 1 = 2 := by decide

/-! ## OP_NUM2BIN and OP_BIN2BIGNUM -/

section

variable {machine : ScriptMachine} {item sizeItem : StackItem} {data : Bytes} {size : ℕ}

theorem num2BinPadded_spec {rawnum : Bytes} (short : rawnum.length < size) (small : size < 2 ^ 31) :
    (num2BinPadded rawnum size).length = size ∧ scriptNum (num2BinPadded rawnum size) = scriptNum rawnum := by
  have width : ((size : ℤ).bmod (2 ^ 32) - 1).toNat = size - 1 := by
    rw [Int.bmod_eq_of_le (by omega) (by omega)]
    omega
  have bits : ∀ last : UInt8, (last &&& 0x80) &&& 0x7f = 0 ∧ (0x80 ≤ last &&& 0x80 ↔ 0x80 ≤ last) ∧
      (last.toNat : ℤ) = (last &&& 0x7f).toNat + if 0x80 ≤ last then 0x80 else 0 := by
    rintro ⟨last⟩
    revert last
    decide
  obtain rfl | ⟨bytes, last, rfl⟩ := rawnum.eq_nil_or_concat
  · have zero := @scriptNum_of_sign 0 [] (size - 1) rfl
    have shape : num2BinPadded [] size = replicate (size - 1) 0 ++ [0] := by
      rw [num2BinPadded, width]
      rfl
    rw [shape]
    refine ⟨?_, zero⟩
    simp only [length_append, length_replicate]
    exact Nat.sub_add_cancel short
  · obtain ⟨isSign, sameSign, value⟩ := bits last
    rw [concat_eq_append] at short ⊢
    simp only [length_append, length_singleton] at short
    simp only [num2BinPadded, width, getLast?_concat, Option.getD_some, dropLast_concat, Option.map_some,
      Option.toList_some]
    refine ⟨by simp; omega, ?_⟩
    rw [scriptNum_of_sign _ _ isSign, scriptNum_concat, natLE_append, value]
    simp only [sameSign, natLE]
    split <;> push_cast <;> ring

section Num2Bin

variable (request : sizeItem.asUint64 (machine.flags.has .VERIFY_MINIMALDATA) = .ok size)
  (element : withinStackWidth size machine.flags = true) (limit : size ≤ maxScriptStackSize)

include request element limit

theorem opNum2Bin_eq_ok_iff {final : ScriptMachine} :
    opNum2Bin (machine.withArguments [sizeItem, .vch data]) = .ok () final ↔
      (minimallyEncode data).length = size ∧ machine.withArguments [.vch data] = final ∨
      (minimallyEncode data).length < size ∧
        (machine.stackUse + size < 2 ^ 31 ∧ machine.stackUse + size ≤ machine.maxStackUse) ∧
        machine.pushed (.vch (num2BinPadded (minimallyEncode data) size)) = final := by
  have small : maxScriptStackSize < 2 ^ 31 := by decide
  have word : size % 2 ^ 32 = size := Nat.mod_eq_of_lt (by omega)
  have width : ¬withinStackWidth (size % 2 ^ 32) (machine.withArguments [sizeItem, .vch data]).flags = false := by
    rw [word, flags_withArguments, element]
    exact Bool.noConfusion
  simp only [opNum2Bin]
  rw [requireItems_bind (by simp [withArguments]), stackItemAt_bind rfl,
    fRequireMinimal, bind_eq_of_ok (hasFlag_apply _), flags_withArguments, liftExcept_bind request,
    stackItemAt_bind rfl]
  dsimp only
  rw [get_bind_apply, abortIf_bind width, bind_eq_of_ok popStack_withArguments]
  obtain long | same | short := Nat.lt_trichotomy size (minimallyEncode data).length
  · rw [bind_eq_of_error (by rw [abortIf_apply, if_pos long])]
    simp [long.ne', long.not_gt]
  · simp [same]
  · rw [abortIf_bind (by omega)]
    have length := (num2BinPadded_spec short (by omega)).1
    have replaced := @replaceArguments_withArguments_iff machine [.vch data]
      (.vch (num2BinPadded (minimallyEncode data) size)) final
    rw [StackItem.size, length] at replaced
    simp only [short, short.ne, false_and, false_or, true_and]
    exact replaced

/-- `OP_NUM2BIN` leaves its argument with the requested size unless that is the size of its minimal encoding and not
its own. -/
theorem opNum2Bin_iff : ((∀ final, opNum2Bin (machine.withArguments [sizeItem, .vch data]) = .ok () final →
        ∃ out, final.stack = .vch out :: machine.stack ∧ out.length = size ∧ scriptNum out = scriptNum data) ∧
      ((minimallyEncode data).length ≤ size →
        ∃ final, opNum2Bin (machine.withArguments [sizeItem, .vch data]) = .ok () final)) ↔
      ((minimallyEncode data).length = size → data.length = size) ∧ ((minimallyEncode data).length < size →
          machine.stackUse + size < 2 ^ 31 ∧ machine.stackUse + size ≤ machine.maxStackUse) := by
  simp only [opNum2Bin_eq_ok_iff request element limit]
  constructor
  · rintro ⟨leaves, succeeds⟩
    refine ⟨fun same => ?_, fun short => ?_⟩
    · obtain ⟨out, stack, length, -⟩ := leaves _ (.inl ⟨same, rfl⟩)
      cases stack
      exact length
    · obtain ⟨final, ⟨same, -⟩ | ⟨-, room, -⟩⟩ := succeeds short.le
      · exact absurd same short.ne
      · exact room
  · rintro ⟨unpadded, padded⟩
    refine ⟨?_, fun fits => ?_⟩
    · rintro final (⟨same, rfl⟩ | ⟨short, -, rfl⟩)
      · exact ⟨data, rfl, unpadded same, rfl⟩
      · obtain ⟨length, value⟩ := num2BinPadded_spec short (by omega)
        exact ⟨_, rfl, length, value.trans (minimallyEncode_spec data).1⟩
    · obtain same | short := fits.eq_or_lt
      · exact ⟨_, .inl ⟨same, rfl⟩⟩
      · exact ⟨_, .inr ⟨short, padded short, rfl⟩⟩

end Num2Bin

theorem opNum2Bin_padded : ∃ final out,
    opNum2Bin (upgrade2Machine.withArguments [.vch [3], .vch [0x85]]) = .ok () final ∧
    final.stack = [.vch out] ∧ out.length = 3 ∧ scriptNum out = scriptNum [0x85] := by
  obtain ⟨out, left⟩ := ((@opNum2Bin_iff upgrade2Machine (.vch [3]) [0x85] 3 (by decide) (by decide) (by decide)).mpr
    (by decide)).1 _ rfl
  exact ⟨_, out, rfl, left⟩

/-- 1 in three bytes stays as it is when one byte is requested. -/
theorem opNum2Bin_stays_long : opNum2Bin (upgrade2Machine.withArguments [.vch [1], .vch [1, 0, 0]]) =
    .ok () (upgrade2Machine.withArguments [.vch [1, 0, 0]]) := rfl

/-- What `OP_BIN2BIGNUM` is to do with an item, once, twice and with the number in place of its bytes. -/
structure ConvertsToBigNum (machine : ScriptMachine) (item : StackItem) : Prop where
  once : opBin2BigNum (machine.withArguments [item]) =
    .ok () (machine.pushed (.bigNum (item.integer.tmod machine.bigNumModulo)))
  twice : opBin2BigNum (machine.pushed (.bigNum (item.integer.tmod machine.bigNumModulo))) =
    .ok () (machine.pushed (.bigNum (item.integer.tmod machine.bigNumModulo)))
  sameForm : opBin2BigNum (machine.withArguments [.bigNum item.integer]) =
    .ok () (machine.pushed (.bigNum (item.integer.tmod machine.bigNumModulo)))

theorem opBin2BigNum_bigNum_ne_ok {n : ℤ} {final : ScriptMachine} :
    opBin2BigNum (machine.withArguments [.bigNum n]) ≠ .ok () final := by
  simp only [opBin2BigNum]
  rw [requireItems_bind (by simp [withArguments]), stackItemAt_bind rfl, bind_eq_of_ok popStack_withArguments]
  simp

/-- `OP_BIN2BIGNUM` does all of this with no item: it leaves the remainder of a byte array with room for it and
fails on every `BigNum`. -/
theorem opBin2BigNum_iff : (ConvertsToBigNum machine item ↔ False) ∧ (opBin2BigNum (machine.withArguments [item]) =
        .ok () (machine.pushed (.bigNum (item.integer.tmod machine.bigNumModulo))) ↔
      item.isVch = true ∧ machine.stackUse + (magSize (item.integer.tmod machine.bigNumModulo) + 1) < 2 ^ 31 ∧
        machine.stackUse + (magSize (item.integer.tmod machine.bigNumModulo) + 1) ≤ machine.maxStackUse) := by
  refine ⟨iff_false_intro fun converts => opBin2BigNum_bigNum_ne_ok converts.sameForm, ?_⟩
  cases item with
  | bigNum n => exact iff_of_false opBin2BigNum_bigNum_ne_ok (by simp [isVch])
  | vch data =>
    simp only [opBin2BigNum]
    rw [requireItems_bind (by simp [withArguments]), stackItemAt_bind rfl, bind_eq_of_ok popStack_withArguments]
    exact pushStack_eq_ok_iff.trans (by simp [isVch, integer, pushed, StackItem.size, withArguments])

/-- A `BigNum` is not converted, be it the result of a conversion. -/
theorem opBin2BigNum_twice :
    opBin2BigNum (upgrade2Machine.withArguments [.bigNum 5]) = .error (.error .badOpOnType) upgrade2Machine ∧
      opBin2BigNum (upgrade2Machine.withArguments [.vch [5]]) = .ok () (upgrade2Machine.pushed (.bigNum 5)) ∧
      ∃ stopped, opBin2BigNum (upgrade2Machine.pushed (.bigNum 5)) = .error (.error .badOpOnType) stopped :=
  ⟨rfl, rfl, _, rfl⟩

end

end Nexa
