import Nexa.Model.Core.Serialize

/-! # CashAddr

The text of an address is a prefix, a colon and one character for every 5-bit value of the payload
and of its checksum. The payload regroups the bits of a version byte and of the destination's bytes.
Texts are the bytes of a `std::string`. Where a decoder would leave its buffers or let an exception
escape, the model stops with a `CashAddrFault`.
-/

namespace Nexa

/-- How an address function ends without a result. -/
inductive CashAddrFault where
  /-- `PackAddrData` throws `std::runtime_error`. -/
  | invalidAddressLength
  /-- `Decode` takes eight values off the end of fewer. -/
  | lengthError
  /-- `DecodeCashAddrDestination` copies more than 20 bytes into a `uint160`. -/
  | overrun
  /-- The stream throws `std::ios_base::failure`. -/
  | streamFailure
deriving DecidableEq, Repr

/-- The bytes of a text that has ASCII characters only. -/
def ascii (text : String) : Bytes := text.toList.map fun c => UInt8.ofNat c.toNat

abbrev Uint160 := BitVec 160

def Uint160.toBytes (x : Uint160) : Bytes := bytesLE 20 x.toNat

/-- `base_blob(const uint8_t *)`: the first 20 bytes. -/
def Uint160.ofBytes (bytes : Bytes) : Uint160 := BitVec.ofNat 160 (natLE (bytes.take 20))

section

variable (frombits tobits : ℕ)

/-- The inner loop of `ConvertBits`: groups of `tobits` bits leave the front of the last `bits` bits. -/
def convertGroups (acc : ℕ) : ℕ → ℕ → Bytes × ℕ
  | 0, bits => ([], bits)
  | fuel + 1, bits =>
    if tobits ≤ bits then
      let later := convertGroups acc fuel (bits - tobits)
      (UInt8.ofNat ((acc >>> (bits - tobits)) &&& (2 ^ tobits - 1)) :: later.1, later.2)
    else ([], bits)

/-- The outer loop of `ConvertBits`: what it pushes, and `acc` and `bits` behind it. -/
def convertLoop : Bytes → ℕ → ℕ → Bytes × ℕ × ℕ
  | [], acc, bits => ([], acc, bits)
  | value :: rest, acc, bits =>
    let acc := ((acc <<< frombits) ||| value.toNat) &&& (2 ^ (frombits + tobits - 1) - 1)
    -- each round of the inner loop takes a bit at least
    let groups := convertGroups tobits acc (bits + frombits) (bits + frombits)
    let later := convertLoop rest acc groups.2
    (groups.1 ++ later.1, later.2)

/-- `ConvertBits`: what it pushes into `out`, and its result. -/
def convertBits (pad : Bool) (values : Bytes) : Bytes × Bool :=
  let (out, acc, bits) := convertLoop frombits tobits values 0 0
  if !pad && bits ≠ 0 then (out, false)
  else if pad && bits ≠ 0 then (out ++ [UInt8.ofNat ((acc <<< (tobits - bits)) &&& (2 ^ tobits - 1))], true)
  else (out, true)

end

namespace CashAddr

def charset : Bytes := ascii "qpzry9x8gf2tvdw0s3jn54khce6mua7l"

def charsetRev : List ℤ :=
  [-1, -1, -1, -1, -1, -1, -1, -1, -1, -1, -1, -1, -1, -1, -1, -1, -1, -1, -1, -1, -1, -1,
    -1, -1, -1, -1, -1, -1, -1, -1, -1, -1, -1, -1, -1, -1, -1, -1, -1, -1, -1, -1, -1, -1, -1, -1, -1, -1, 15, -1, 10,
    17, 21, 20, 26, 30, 7, 5, -1, -1, -1, -1, -1, -1, -1, 29, -1, 24, 13, 25, 9, 8, 23, -1, 18, 22, 31, 27, 19, -1, 1,
    0, 3, 16, 11, 28, 12, 14, 6, 4, 2, -1, -1, -1, -1, -1, -1, 29, -1, 24, 13, 25, 9, 8, 23, -1, 18, 22, 31, 27, 19, -1,
    1, 0, 3, 16, 11, 28, 12, 14, 6, 4, 2, -1, -1, -1, -1, -1]

/-- The loop body of `PolyMod`. -/
def polyModStep (c : ℕ) (d : UInt8) : ℕ :=
  let c0 := (c >>> 35) % 2 ^ 8
  let c := ((c &&& 0x07ffffffff) <<< 5) ^^^ d.toNat
  let c := if c0 &&& 0x01 ≠ 0 then c ^^^ 0x98f2bc8e61 else c
  let c := if c0 &&& 0x02 ≠ 0 then c ^^^ 0x79b76d99e2 else c
  let c := if c0 &&& 0x04 ≠ 0 then c ^^^ 0xf33e5fb3c4 else c
  let c := if c0 &&& 0x08 ≠ 0 then c ^^^ 0xae2eabe2a8 else c
  if c0 &&& 0x10 ≠ 0 then c ^^^ 0x1e4f43e470 else c

def polyMod (v : Bytes) : ℕ := v.foldl polyModStep 1

/-- `LowerCase`, for a letter. -/
def lowerCase (c : UInt8) : UInt8 := c ||| 0x20

def expandPrefix (addrPrefix : Bytes) : Bytes := addrPrefix.map (· &&& 0x1f) ++ [0]

variable (addrPrefix values : Bytes)

def verifyChecksum : Bool := polyMod (expandPrefix addrPrefix ++ values) == 1

def createChecksum : Bytes :=
  let enc := expandPrefix addrPrefix ++ values
  let mod := polyMod (enc ++ List.replicate 8 0) ^^^ 1
  (List.range 8).map fun i => UInt8.ofNat ((mod >>> (5 * (7 - i))) &&& 0x1f)

/-- `cashaddr::Encode`, for values below 32: others fail its assertion. -/
def encode : Bytes :=
  let combined := values ++ createChecksum addrPrefix values
  addrPrefix ++ ascii ":" ++ combined.map fun c => charset.getD c.toNat 0

/-- What the first pass of `Decode` has seen. -/
structure TextScan where
  lower : Bool := false
  upper : Bool := false
  hasNumber : Bool := false
  prefixSize : ℕ := 0

/-- The first pass of `Decode` at the character of index `i`. -/
def TextScan.see (scan : TextScan) (i : ℕ) (c : UInt8) : Option TextScan :=
  if 97 ≤ c ∧ c ≤ 122 then some { scan with lower := true }
  else if 65 ≤ c ∧ c ≤ 90 then some { scan with upper := true }
  else if 48 ≤ c ∧ c ≤ 57 then some { scan with hasNumber := true }
  else if c = 58 then
    if scan.hasNumber || i = 0 || scan.prefixSize ≠ 0 then none else some { scan with prefixSize := i }
  else none

/-- The first pass of `Decode` over the text from index `i` on. -/
def TextScan.run (scan : TextScan) (i : ℕ) : Bytes → Option TextScan
  | [] => some scan
  | c :: rest => (scan.see i c).bind fun seen => seen.run (i + 1) rest

def charValue (c : UInt8) : Option UInt8 :=
  if 127 < c ∨ charsetRev.getD c.toNat (-1) = -1 then none
  else some (UInt8.ofNat (charsetRev.getD c.toNat (-1)).toNat)

def charValues : Bytes → Option Bytes
  | [] => some []
  | c :: rest => (charValue c).bind fun value => (charValues rest).map (value :: ·)

/-- The second half of `Decode`: the characters behind the prefix. -/
def decodeValues (addrPrefix chars : Bytes) : Except CashAddrFault (Bytes × Bytes) :=
  match charValues chars with
  | none => .ok ([], [])
  | some values =>
    if !verifyChecksum addrPrefix values then .ok ([], [])
    else if values.length < 8 then .error .lengthError
    else .ok (addrPrefix, values.take (values.length - 8))

/-- `cashaddr::Decode`: the prefix and the values without the checksum, both empty for a bad text. -/
def decode (str defaultPrefix : Bytes) : Except CashAddrFault (Bytes × Bytes) :=
  match TextScan.run {} 0 str with
  | none => .ok ([], [])
  | some scan =>
    if scan.upper && scan.lower then .ok ([], [])
    else if scan.prefixSize = 0 then decodeValues defaultPrefix str
    -- the colon is skipped with the prefix
    else decodeValues ((str.take scan.prefixSize).map lowerCase) (str.drop (scan.prefixSize + 1))

end CashAddr

/-- `CashAddrType`; a version byte can hold other numbers than the four that have a name. -/
inductive CashAddrType where
  | pubkeyType
  | scriptType
  | groupType
  | scriptTemplateType
  | unnamed (value : UInt8)
deriving DecidableEq, Repr

namespace CashAddrType

def ofByte (value : UInt8) : CashAddrType :=
  if value = 0 then pubkeyType
  else if value = 1 then scriptType
  else if value = 11 then groupType
  else if value = 19 then scriptTemplateType
  else unnamed value

def toByte : CashAddrType → UInt8
  | pubkeyType => 0
  | scriptType => 1
  | groupType => 11
  | scriptTemplateType => 19
  | unnamed value => value

/-- The types whose size is not in the version byte. -/
def anySize (type : CashAddrType) : Bool := type = scriptTemplateType || type = groupType

end CashAddrType

/-- The `encoded_size` of `PackAddrData` for an id of `size` bytes. -/
def encodedSize (size : ℕ) : Except CashAddrFault UInt8 :=
  match size * 8 with
  | 160 => .ok 0
  | 192 => .ok 1
  | 224 => .ok 2
  | 256 => .ok 3
  | 320 => .ok 4
  | 384 => .ok 5
  | 448 => .ok 6
  | 512 => .ok 7
  | _ => .error .invalidAddressLength

def packAddrData (id : Bytes) (type : CashAddrType) : Except CashAddrFault Bytes := do
  let encoded ← if type.anySize then pure 0 else encodedSize id.length
  let versionByte := (type.toByte <<< 3) ||| encoded
  pure (convertBits 8 5 true (versionByte :: id)).1

inductive CTxDestination where
  | noDestination
  | keyID (id : Uint160)
  | scriptID (id : Uint160)
  | scriptTemplate (output : Bytes)
deriving DecidableEq

/-- The chains of `chainparams.cpp`. -/
inductive ChainParams where
  | unitTest
  | nexa
  | testnet
  | regtest
  | stormtest
deriving DecidableEq, Repr

def ChainParams.cashAddrPrefix : ChainParams → Bytes
  | unitTest => ascii "bitcoincash"
  | nexa => ascii "nexa"
  | testnet => ascii "nexatest"
  | regtest => ascii "nexareg"
  | stormtest => ascii "stormtest"

def encodeCashAddr (dst : CTxDestination) (params : ChainParams) : Except CashAddrFault Bytes :=
  match dst with
  | .noDestination => .ok []
  | .keyID id => CashAddr.encode params.cashAddrPrefix <$> packAddrData id.toBytes .pubkeyType
  | .scriptID id => CashAddr.encode params.cashAddrPrefix <$> packAddrData id.toBytes .scriptType
  | .scriptTemplate output =>
    CashAddr.encode params.cashAddrPrefix <$> packAddrData (writeVector output) .scriptTemplateType

structure CashAddrContent where
  type : CashAddrType := .pubkeyType
  hash : Bytes := []
deriving DecidableEq, Repr

/-- The bytes of a payload with a legal padding: a version byte and what follows it. -/
def payloadBytes (payload : Bytes) : Option Bytes :=
  let extrabits := payload.length * 5 % 8
  if payload = [] then none
  else if 5 ≤ extrabits then none
  else if (payload.getLastD 0).toNat &&& (2 ^ extrabits - 1) ≠ 0 then none
  else some (convertBits 5 8 false payload).1

/-- The `hash_size` of a version byte. -/
def hashSize (version : UInt8) : ℕ :=
  let size := 20 + 4 * (version &&& 0x03).toNat
  if version &&& 0x04 ≠ 0 then size * 2 else size

/-- The version byte and the id as `CashAddrContent`; empty where the size is not the version's. -/
def contentOfBytes (data : Bytes) : CashAddrContent :=
  let version := data.headD 0
  let type := CashAddrType.ofByte (version >>> 3)
  if !type.anySize && data.length ≠ hashSize version + 1 then {} else { type := type, hash := data.tail }

def decodeCashAddrContent (addr : Bytes) (params : ChainParams) : Except CashAddrFault CashAddrContent := do
  let (addrPrefix, payload) ← CashAddr.decode addr params.cashAddrPrefix
  if addrPrefix ≠ params.cashAddrPrefix then pure {}
  else
    match payloadBytes payload with
    | none => pure {}
    | some data => pure (contentOfBytes data)

/-- `std::copy` of the bytes into a `uint160`, which holds zeros. -/
def copyUint160 (hash : Bytes) : Except CashAddrFault Uint160 :=
  if 20 < hash.length then .error .overrun else .ok (Uint160.ofBytes hash)

/-- `DecodeCashAddrDestination`; what a template leaves in the stream is not looked at. -/
def decodeCashAddrDestination (content : CashAddrContent) : Except CashAddrFault CTxDestination :=
  match content.type with
  | .pubkeyType => .keyID <$> copyUint160 content.hash
  | .scriptType => .scriptID <$> copyUint160 content.hash
  | .scriptTemplateType =>
    match readVector content.hash with
    | none => .error .streamFailure
    | some (output, _) => .ok (.scriptTemplate output)
  | .groupType => .ok .noDestination
  | .unnamed _ => .ok .noDestination

def decodeCashAddr (addr : Bytes) (params : ChainParams) : Except CashAddrFault CTxDestination := do
  let content ← decodeCashAddrContent addr params
  if content.hash = [] then pure .noDestination else decodeCashAddrDestination content

end Nexa
