import Nexa.Proofs.CashAddrText
import Nexa.Proofs.Serialize
import Nexa.ToMathlib.StateProgram

/-! # Addresses and destinations

An address holds a version byte and the bytes of a destination. Its text is determined by these
bytes, but they are not determined by the destination: for a template the size bits of the version
and what follows the serialized script are not looked at.
-/

namespace Nexa

open CashAddr List

/-- The version byte and the bytes that the encoder packs for a destination. -/
def CTxDestination.addressBytes : CTxDestination → Bytes
  | .noDestination => []
  | .keyID id => 0 :: id.toBytes
  | .scriptID id => 8 :: id.toBytes
  | .scriptTemplate output => 152 :: writeVector output

/-- A script that a stream gives back. -/
def CTxDestination.Readable : CTxDestination → Prop
  | .scriptTemplate output => output.length ≤ maxSize
  | _ => True

/-- The version byte and the bytes that a text holds. -/
def addressData (addr : Bytes) (params : ChainParams) : Option Bytes :=
  match CashAddr.decode addr params.cashAddrPrefix with
  | .ok (addrPrefix, payload) => if addrPrefix = params.cashAddrPrefix then payloadBytes payload else none
  | .error _ => none

/-- A template's size bits are clear, and nothing follows its script. -/
def ExactTemplate (data : Bytes) : Prop := CashAddrType.ofByte (data.headD 0 >>> 3) = .scriptTemplateType →
    data.headD 0 &&& 7 = 0 ∧ (readVector data.tail).map Prod.snd = some []

/-- No bit of what a text holds is ignored. -/
def HoldsExactly (addr : Bytes) (params : ChainParams) : Prop := ∀ data ∈ addressData addr params, ExactTemplate data

theorem isPrefix_cashAddrPrefix (params : ChainParams) : IsPrefix params.cashAddrPrefix := by
  cases params <;> exact ⟨by decide, by decide +kernel⟩

/-! ## Payloads -/

/-- The bits of the bytes in groups of five. -/
def packed (data : Bytes) : Bytes := (convertBits 8 5 true data).1

theorem packed_lt (data : Bytes) : ∀ v ∈ packed data, v.toNat < 2 ^ 5 := by
  obtain ⟨-, -, -, bound, -⟩ := @convertBits_pad 8 5 (by norm_num) (by norm_num) data fun v _ => v.toNat_lt
  exact bound

variable {payload data addr : Bytes} {params : ChainParams} {dst : CTxDestination} {hash : Bytes} {version : UInt8}

theorem getLastD_mod (nonempty : payload ≠ []) {extrabits : ℕ} (few : extrabits ≤ 5) :
    (payload.getLastD 0).toNat % 2 ^ extrabits = bitsValue 5 payload % 2 ^ extrabits := by
  obtain ⟨front, last, rfl⟩ : ∃ front last, payload = front ++ [last] := ⟨_, _, (dropLast_append_getLast nonempty).symm⟩
  have low : 2 ^ extrabits ∣ bitsValue 5 front * 2 ^ 5 := (Nat.pow_dvd_pow 2 few).mul_left _
  rw [getLastD_concat, bitsValue_concat, Nat.add_mod, Nat.mod_eq_zero_of_dvd low, Nat.zero_add, Nat.mod_mod]

theorem payloadBytes_eq_some_iff : payloadBytes payload = some data ↔
      payload ≠ [] ∧ payload.length * 5 % 8 < 5 ∧ bitsValue 5 payload % 2 ^ (payload.length * 5 % 8) = 0 ∧
        (convertBits 5 8 false payload).1 = data := by
  unfold payloadBytes
  dsimp only
  split_ifs with empty long padded
  · simp [empty]
  · simp only [false_iff]
    omega
  · rw [Nat.and_two_pow_sub_one_eq_mod, getLastD_mod empty (by omega)] at padded
    simp [padded]
  · rw [not_not, Nat.and_two_pow_sub_one_eq_mod, getLastD_mod empty (by omega)] at padded
    simp [empty, padded, not_le.mp long]

theorem payloadBytes_packed (nonempty : data ≠ []) : payloadBytes (packed data) = some data := by
  obtain ⟨padding, few, width, bound, value⟩ :=
    @convertBits_pad 8 5 (by norm_num) (by norm_num) data fun v _ => v.toNat_lt
  obtain ⟨dropped, fewer, widthBack, boundBack, valueBack⟩ :=
    @convertBits_noPad 5 8 (by norm_num) (by norm_num) _ (packed_lt data)
  change (packed data).length * 5 = _ at width
  change bitsValue 5 (packed data) = _ at value
  have some : 0 < data.length := length_pos_iff.mpr nonempty
  have extrabits : (packed data).length * 5 % 8 = padding := by omega
  obtain rfl : dropped = padding := by omega
  refine payloadBytes_eq_some_iff.mpr ⟨?_, by omega, ?_, ?_⟩
  · intro empty
    rw [empty, length_nil] at width
    omega
  · rw [extrabits, value, Nat.mul_mod_left]
  · refine eq_of_bitsValue_eq (by norm_num) (by omega) boundBack (fun v _ => v.toNat_lt) ?_
    rw [valueBack, value, Nat.mul_div_cancel _ (by positivity)]

theorem eq_packed_of_payloadBytes (bound : ∀ v ∈ payload, v.toNat < 2 ^ 5)
    (accepted : payloadBytes payload = some data) : payload = packed data ∧ data ≠ [] := by
  obtain ⟨nonempty, few, padded, rfl⟩ := payloadBytes_eq_some_iff.mp accepted
  obtain ⟨dropped, fewer, width, boundData, value⟩ := @convertBits_noPad 5 8 (by norm_num) (by norm_num) payload bound
  generalize (convertBits 5 8 false payload).1 = data at *
  obtain ⟨padding, fewPadding, widthBack, boundBack, valueBack⟩ :=
    @convertBits_pad 8 5 (by norm_num) (by norm_num) data boundData
  change (packed data).length * 5 = _ at widthBack
  change bitsValue 5 (packed data) = _ at valueBack
  have some := length_pos_iff.mpr nonempty
  have extrabits : payload.length * 5 % 8 = dropped := by omega
  obtain rfl : padding = dropped := by omega
  refine ⟨eq_of_bitsValue_eq (by norm_num) (by omega) bound (packed_lt data) ?_, ?_⟩
  · rw [extrabits] at padded
    rw [valueBack, value, Nat.div_mul_cancel (Nat.dvd_of_mod_eq_zero padded)]
  · rintro rfl
    rw [length_nil] at width
    omega

/-! ## Destinations -/

/-- What `DecodeCashAddr` makes of the bytes of an address. -/
def destinationOf (data : Bytes) : Except CashAddrFault CTxDestination :=
  if (contentOfBytes data).hash = [] then .ok .noDestination else decodeCashAddrDestination (contentOfBytes data)

theorem decodeCashAddr_eq_of_addressData (held : addressData addr params = some data) :
    decodeCashAddr addr params = destinationOf data := by
  unfold addressData at held
  split at held
  · next addrPrefix payload decoded =>
    split_ifs at held with same
    have content : decodeCashAddrContent addr params = .ok (contentOfBytes data) := by
      rw [decodeCashAddrContent, decoded]
      change (if addrPrefix ≠ params.cashAddrPrefix then _ else _) = _
      rw [if_neg (not_not.mpr same), held]
      rfl
    rw [decodeCashAddr, content]
    rfl
  · cases held

theorem addressData_of_decodeCashAddr (decoded : decodeCashAddr addr params = .ok dst) (found : dst ≠ .noDestination) :
    ∃ data, addressData addr params = some data ∧ destinationOf data = .ok dst := by
  have held : addressData addr params ≠ none := by
    intro empty
    unfold addressData at empty
    obtain ⟨content, contents, destination⟩ := Except.bind_eq_ok_iff.mp decoded
    obtain ⟨⟨addrPrefix, payload⟩, text, contents⟩ := Except.bind_eq_ok_iff.mp contents
    have nothing : content = {} := by
      simp only [text] at empty
      split_ifs at empty with same
      · simp only [same, ne_eq, empty] at contents
        cases contents
        rfl
      · simp only [same, ne_eq] at contents
        cases contents
        rfl
    subst nothing
    cases destination
    exact found rfl
  obtain ⟨data, held⟩ := Option.ne_none_iff_exists'.mp held
  exact ⟨data, held, decodeCashAddr_eq_of_addressData held ▸ decoded⟩

theorem addressData_encode (nonempty : data ≠ []) (params : ChainParams) :
    addressData (encode params.cashAddrPrefix (packed data)) params = some data := by
  unfold addressData
  rw [decode_encode (isPrefix_cashAddrPrefix params) (packed_lt data)]
  simp only [↓reduceIte]
  exact payloadBytes_packed nonempty

theorem canonicalText_of_addressData (held : addressData addr params = some data) :
    canonicalText params.cashAddrPrefix addr = encode params.cashAddrPrefix (packed data) ∧ data ≠ [] := by
  unfold addressData at held
  split at held
  · next addrPrefix payload decoded =>
    split_ifs at held with same
    subst same
    obtain ⟨canonical, bound⟩ := canonicalText_of_decode decoded (isPrefix_cashAddrPrefix params).nonempty
    obtain ⟨rfl, nonempty⟩ := eq_packed_of_payloadBytes bound held
    exact ⟨canonical, nonempty⟩
  · cases held

theorem length_toBytes160 (id : Uint160) : id.toBytes.length = 20 := length_bytesLE 20 id.toNat

theorem ofBytes_toBytes160 (id : Uint160) : Uint160.ofBytes id.toBytes = id := by
  rw [Uint160.ofBytes, take_of_length_le (length_toBytes160 id).le, Uint160.toBytes, natLE_bytesLE,
    Nat.mod_eq_of_lt (by simpa using id.isLt), BitVec.ofNat_toNat, BitVec.setWidth_eq]

theorem toBytes_ofBytes160 (length : hash.length = 20) : (Uint160.ofBytes hash).toBytes = hash := by
  have small := natLE_lt hash
  rw [length] at small
  rw [Uint160.toBytes, Uint160.ofBytes, take_of_length_le length.le, BitVec.toNat_ofNat,
    Nat.mod_eq_of_lt (by simpa using small), ← length, bytesLE_natLE]

theorem encodeCashAddr_eq (found : dst ≠ .noDestination) (params : ChainParams) :
    encodeCashAddr dst params = .ok (encode params.cashAddrPrefix (packed dst.addressBytes)) := by
  cases dst with
  | noDestination => exact absurd rfl found
  | keyID id | scriptID id | scriptTemplate output => rfl

theorem le_hashSize (version : UInt8) : 20 ≤ hashSize version := by
  revert version
  exact forall_byte (by decide +kernel)

theorem version_of_hashSize_le (version : UInt8) (small : hashSize version ≤ 20) : version = (version >>> 3) <<< 3 := by
  revert version
  exact forall_byte (by decide +kernel)

theorem version_of_size_bits (version : UInt8) (clear : version &&& 7 = 0) : version = (version >>> 3) <<< 3 := by
  revert version
  exact forall_byte (by decide +kernel)

theorem toByte_ofByte (value : UInt8) : (CashAddrType.ofByte value).toByte = value := by
  unfold CashAddrType.ofByte
  split_ifs <;> simp [CashAddrType.toByte, *]

theorem contentOfBytes_eq {type : CashAddrType} (kind : CashAddrType.ofByte (version >>> 3) = type)
    (fits : type.anySize = false → hash.length = hashSize version) :
    contentOfBytes (version :: hash) = { type := type, hash := hash } := by
  cases sized : type.anySize
  · simp [contentOfBytes, kind, fits sized]
  · simp [contentOfBytes, kind, sized]

theorem destinationOf_addressBytes_iff (found : dst ≠ .noDestination) :
    destinationOf dst.addressBytes = .ok dst ↔ dst.Readable := by
  cases dst with
  | noDestination => exact absurd rfl found
  | keyID id | scriptID id =>
    have nonempty : id.toBytes ≠ [] := ne_nil_of_length_pos (by rw [length_toBytes160]; norm_num)
    rw [destinationOf, CTxDestination.addressBytes, contentOfBytes_eq rfl]
    · simp [nonempty, CashAddrType.ofByte, show (8 : UInt8) >>> 3 = 1 from rfl, decodeCashAddrDestination, copyUint160,
        length_toBytes160, ofBytes_toBytes160, CTxDestination.Readable]
    · exact fun _ => length_toBytes160 id
  | scriptTemplate output =>
    have content : contentOfBytes (152 :: writeVector output) =
        { type := .scriptTemplateType, hash := writeVector output } :=
      contentOfBytes_eq (by decide) (by simp [CashAddrType.anySize])
    have nonemptyVector : writeVector output ≠ [] := by
      unfold writeVector writeCompactSize
      split_ifs <;> simp
    simp only [destinationOf, CTxDestination.addressBytes, content, nonemptyVector, ↓reduceIte,
      decodeCashAddrDestination]
    constructor
    · intro decoded
      split at decoded
      · cases decoded
      · next read =>
        cases decoded
        exact length_le_of_readVector read
    · intro fits
      have read := reads_readVector fits []
      rw [append_nil] at read
      rw [read]

theorem eq_addressBytes_iff (nonempty : data ≠ []) (decoded : destinationOf data = .ok dst)
    (found : dst ≠ .noDestination) : dst.addressBytes = data ↔ ExactTemplate data := by
  obtain ⟨version, hash, rfl⟩ := exists_cons_of_ne_nil nonempty
  unfold destinationOf at decoded
  split_ifs at decoded with empty
  · cases decoded
    exact absurd rfl found
  -- the content is not empty, so that the size is the version's
  have size : (CashAddrType.ofByte (version >>> 3)).anySize = false → hash.length = hashSize version := by
    intro sized
    by_contra other
    simp [contentOfBytes, sized, other] at empty
  rw [contentOfBytes_eq rfl size] at decoded
  unfold ExactTemplate
  rw [headD_cons, tail_cons]
  have number := toByte_ofByte (version >>> 3)
  generalize CashAddrType.ofByte (version >>> 3) = type at decoded size number ⊢
  cases type with
  | pubkeyType | scriptType =>
    obtain ⟨id, copied, ⟨⟩⟩ := Except.bind_eq_ok_iff.mp decoded
    have least := le_hashSize version
    have fits := size rfl
    simp only [copyUint160] at copied
    split_ifs at copied with long
    cases copied
    rw [CTxDestination.addressBytes, toBytes_ofBytes160 (by omega), version_of_hashSize_le version (by omega), ← number]
    exact iff_of_true rfl nofun
  | groupType | unnamed value =>
    cases decoded
    exact absurd rfl found
  | scriptTemplateType =>
    simp only [decodeCashAddrDestination] at decoded
    split at decoded
    · cases decoded
    next output behind read =>
      cases decoded
      have bytes := append_of_readVector read
      rw [read, CTxDestination.addressBytes, List.cons.injEq]
      constructor
      · rintro ⟨rfl, exactly⟩ -
        refine ⟨by decide, ?_⟩
        rw [← exactly] at bytes
        simpa using bytes
      · intro exactly
        obtain ⟨clear, rfl⟩ : version &&& 7 = 0 ∧ behind = [] := by simpa using exactly
        rw [bytes, append_nil, version_of_size_bits version clear, ← number]
        exact ⟨by decide, rfl⟩

theorem addressBytes_ne_nil (found : dst ≠ .noDestination) : dst.addressBytes ≠ [] := by
  cases dst with
  | noDestination => exact absurd rfl found
  | keyID id | scriptID id | scriptTemplate output => exact cons_ne_nil _ _

theorem decode_encodeCashAddr_iff (found : dst ≠ .noDestination) (params : ChainParams) :
    (encodeCashAddr dst params >>= fun addr => decodeCashAddr addr params) = .ok dst ↔ dst.Readable := by
  rw [encodeCashAddr_eq found]
  change decodeCashAddr _ params = _ ↔ _
  rw [decodeCashAddr_eq_of_addressData (addressData_encode (addressBytes_ne_nil found) params),
    destinationOf_addressBytes_iff found]

theorem encode_decodeCashAddr_iff (decoded : decodeCashAddr addr params = .ok dst) (found : dst ≠ .noDestination) :
    encodeCashAddr dst params = .ok (canonicalText params.cashAddrPrefix addr) ↔ HoldsExactly addr params := by
  obtain ⟨data, held, destination⟩ := addressData_of_decodeCashAddr decoded found
  obtain ⟨canonical, nonempty⟩ := canonicalText_of_addressData held
  have exactly : HoldsExactly addr params ↔ ExactTemplate data := by
    simp [HoldsExactly, held]
  rw [exactly, ← eq_addressBytes_iff nonempty destination found, encodeCashAddr_eq found, canonical, Except.ok.injEq]
  constructor
  · intro same
    have bytes := addressData_encode (addressBytes_ne_nil found) params
    rw [same, addressData_encode nonempty] at bytes
    exact (Option.some.inj bytes).symm
  · intro same
    rw [same]

/-- Encoding and decoding are inverse, but for scripts that are too long to be read and for texts
that hold a template with size bits or with more than its script. -/
theorem cashAddr_inverse_iff (params : ChainParams) : (∀ dst : CTxDestination, dst ≠ .noDestination →
      ((encodeCashAddr dst params >>= fun addr => decodeCashAddr addr params) = .ok dst ↔ dst.Readable)) ∧
    (∀ addr dst, decodeCashAddr addr params = .ok dst → dst ≠ .noDestination →
      (encodeCashAddr dst params = .ok (canonicalText params.cashAddrPrefix addr) ↔ HoldsExactly addr params)) ∧
    (∀ addr other dst, decodeCashAddr addr params = .ok dst → decodeCashAddr other params = .ok dst →
      dst ≠ .noDestination → HoldsExactly addr params →
        (canonicalText params.cashAddrPrefix addr = canonicalText params.cashAddrPrefix other ↔
          HoldsExactly other params)) := by
  refine ⟨fun dst found => decode_encodeCashAddr_iff found params,
    fun addr dst decoded found => encode_decodeCashAddr_iff decoded found, ?_⟩
  intro addr other dst decoded decodedOther found exactly
  rw [← encode_decodeCashAddr_iff decodedOther found, (encode_decodeCashAddr_iff decoded found).mpr exactly,
    Except.ok.injEq]

/-- A size bit in the version byte of a template changes the text and not the destination. -/
theorem decodeCashAddr_sizeBit : decodeCashAddr (ascii "nexa:nqq4zzmkj20uk") .nexa = .ok (.scriptTemplate [0x51]) ∧
    decodeCashAddr (ascii "nexa:nyq4z4j0zzkvt") .nexa = .ok (.scriptTemplate [0x51]) ∧
    encodeCashAddr (.scriptTemplate [0x51]) .nexa ≠
      .ok (canonicalText ChainParams.nexa.cashAddrPrefix (ascii "nexa:nyq4z4j0zzkvt")) := by
  refine ⟨?_, ?_, ?_⟩ <;> decide

end Nexa
