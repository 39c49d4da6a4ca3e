import Nexa.Model.Core.Serialize

/-! # Stack items

`stackitem.h`, `bignum.h` and the class `CScriptNum`: an item is a string of bytes or a `BigNum`. Bytes
are read as a script number, an integer of at most eight bytes with its sign in the last one. `BigNum`
wraps an integer of GMP, here `ℤ`.
-/

namespace Nexa

/-- The codes of `ScriptError` that the modelled functions set, `SCRIPT_ERR_OK` apart. `badOpOnType` is
`SCRIPT_ERR_BAD_OPERATION_ON_TYPE`. -/
inductive ScriptError where
  | unknownError
  | evalFalse
  | opReturn
  | scriptSize
  | pushSize
  | opCount
  | stackSize
  | sigCount
  | pubkeyCount
  | invalidOperandSize
  | invalidNumberRange
  | impossibleEncoding
  | invalidSplitRange
  | invalidBitCount
  | verify
  | equalVerify
  | checkMultiSigVerify
  | checkSigVerify
  | checkDataSigVerify
  | numEqualVerify
  | badOpcode
  | disabledOpcode
  | invalidStackOperation
  | invalidAltStackOperation
  | unbalancedConditional
  | divByZero
  | modByZero
  | invalidBitfieldSize
  | invalidBitRange
  | negativeLockTime
  | unsatisfiedLockTime
  | sigHashType
  | minimalData
  | sigPushOnly
  | pubkeyType
  | cleanStack
  | sigNullFail
  | sigNonSchnorr
  | discourageUpgradableNops
  | nonCompressedPubkey
  | numberOverflow
  | numberBadEncoding
  | sigChecksLimitExceeded
  | dataRequired
  | invalidTxInputIndex
  | invalidTxOutputIndex
  | template
  | execDepthExceeded
  | execCountExceeded
  | badOpOnType
  | invalidStateSpecifier
  | invalidRegister
  | stackBytes
  | parse
  | invalidJump
  | invalidParameter
deriving DecidableEq, Repr

/-! ## Flags -/

/-- The flags of `script_flags.h` that select rules. -/
abbrev ScriptFlags := BitVec 32

namespace ScriptFlags

def VERIFY_STRICTENC : ScriptFlags := 1 <<< 1
def VERIFY_MINIMALDATA : ScriptFlags := 1 <<< 6
def VERIFY_DISCOURAGE_UPGRADABLE_NOPS : ScriptFlags := 1 <<< 7
def VERIFY_CHECKLOCKTIMEVERIFY : ScriptFlags := 1 <<< 9
def VERIFY_CHECKSEQUENCEVERIFY : ScriptFlags := 1 <<< 10
def VERIFY_NULLFAIL : ScriptFlags := 1 <<< 14
def VERIFY_COMPRESSED_PUBKEYTYPE : ScriptFlags := 1 <<< 15
def RELAX_STACK_WIDTH : ScriptFlags := 1 <<< 26
def ENFORCE_STACK_TOTAL : ScriptFlags := 1 <<< 27
def FORK1_OPCODES : ScriptFlags := 1 <<< 28
def UPGRADE2_OPCODES : ScriptFlags := 1 <<< 29

def has (flags flag : ScriptFlags) : Bool := flags &&& flag ≠ 0

end ScriptFlags

/-- `GENESIS_MAX_SCRIPT_ELEMENT_SIZE`, the width of an item before it was relaxed. -/
def genesisMaxScriptElementSize : ℕ := 520

/-- `MAX_SCRIPT_STACK_SIZE`, the bytes both stacks may hold. -/
def maxScriptStackSize : ℕ := 1024 * 1024

def withinStackWidth (size : ℕ) (flags : ScriptFlags) : Bool :=
  (flags.has .RELAX_STACK_WIDTH || size ≤ genesisMaxScriptElementSize) &&
    (!flags.has .ENFORCE_STACK_TOTAL || size ≤ maxScriptStackSize)

/-! ## Items -/

inductive StackItem where
  | vch (data : Bytes)
  | bigNum (n : ℤ)
deriving DecidableEq, Repr

namespace StackItem

/-- `CScriptNum::set_vch` and `BigNum::deserialize`: little-endian with the sign in the last byte. -/
def scriptNum (vch : Bytes) : ℤ :=
  if 0x80 ≤ vch.getLast?.getD 0 then -((natLE vch : ℤ) - 0x80 * 256 ^ (vch.length - 1)) else natLE vch

/-- `BigNum::magSize`; GMP counts one bit for zero. -/
def magSize (n : ℤ) : ℕ := if n = 0 then 1 else (Nat.log2 n.natAbs + 1 + 7) / 8

/-- `BigNum::serialize`; nothing is exported for zero, so its bytes are all padding. -/
def serialize (n : ℤ) (padTo : ℕ) : Bytes :=
  let count := if n = 0 then 0 else magSize n
  bytesLE (magSize n) n.natAbs ++ List.replicate (padTo - count) 0 ++ [if n < 0 then 0x80 else 0]

/-- `BigNum::serialize` into a buffer of `sz` bytes, or the size that is needed. -/
def serializeInto (n : ℤ) (padTo sz : ℕ) : Except ℕ Bytes :=
  let sz := if sz = 0 then padTo + 1 else sz
  let sizeNeeded := magSize n + 1
  let count := if n = 0 then 0 else magSize n
  if sz < sizeNeeded then .error sizeNeeded
  else .ok (bytesLE count n.natAbs ++ List.replicate (padTo - count) 0 ++ [if n < 0 then 0x80 else 0])

def asVch : StackItem → Bytes
  | vch data => data
  | bigNum n => serialize n (magSize n + 1)

/-- `data()`, which throws on a number. -/
def data : StackItem → Except ScriptError Bytes
  | vch data => .ok data
  | bigNum _ => .error .badOpOnType

/-- The bytes of a magnitude of at most `width` bytes, without leading zeros. -/
def magnitudeBytes : ℕ → ℕ → Bytes
  | 0, _ => []
  | width + 1, magnitude =>
    if magnitude = 0 then [] else UInt8.ofNat magnitude :: magnitudeBytes width (magnitude / 256)

/-- `StackItem::size`: a number counts the bytes of its magnitude and one for its sign. -/
def size : StackItem → ℕ
  | vch data => data.length
  | bigNum n => magSize n + 1

def isVch : StackItem → Bool
  | vch _ => true
  | bigNum _ => false

def isBigNum : StackItem → Bool
  | vch _ => false
  | bigNum _ => true

end StackItem

/-- `CastToBool`: false is any form of zero, also a negative one. -/
def castToBool : Bytes → Bool
  | [] => false
  | [last] => last ≠ 0 ∧ last ≠ 0x80
  | byte :: rest => byte ≠ 0 || castToBool rest

/-- The conversion of an item to `bool`, and `CastToBool` of an item. -/
def StackItem.toBool : StackItem → Bool
  | .vch data => castToBool data
  | .bigNum n => n ≠ 0

/-! ## Script numbers -/

namespace CScriptNum

def maximumElementSize : ℕ := 8

def isMinimallyEncoded (vch : Bytes) (maxIntegerSize : ℕ) : Bool :=
  vch.length ≤ maxIntegerSize &&
    match vch.reverse with
    | [] => true
    | last :: rest => last &&& 0x7f ≠ 0 || rest.head?.getD 0 &&& 0x80 ≠ 0

/-- `MinimallyEncode`: zeros between the sign and the magnitude are dropped. -/
def minimallyEncode (data : Bytes) : Bytes :=
  match data.reverse with
  | [] => []
  | last :: rest =>
    if last &&& 0x7f ≠ 0 then data
    else
      match rest.dropWhile (· = 0) with
      | [] => []
      | byte :: rest =>
        if byte &&& 0x80 ≠ 0 then (last :: byte :: rest).reverse else ((byte ||| last) :: rest).reverse

def ofVch (vch : Bytes) (fRequireMinimal : Bool) (nMaxNumSize : ℕ) : Except ScriptError ℤ :=
  if nMaxNumSize < vch.length then .error .numberOverflow
  else if fRequireMinimal && !isMinimallyEncoded vch nMaxNumSize then .error .numberBadEncoding
  else .ok (StackItem.scriptNum vch)

/-- `fromInt` of an exact result: it has to fit 64 bits and must not be the least of these integers. -/
def fromInt (x : ℤ) : Except ScriptError ℤ := if -2 ^ 63 < x ∧ x < 2 ^ 63 then .ok x else .error .invalidNumberRange

def serialize (value : ℤ) : Bytes :=
  let result := StackItem.magnitudeBytes 8 value.natAbs
  match result.reverse with
  | [] => []
  | last :: rest =>
    if last &&& 0x80 ≠ 0 then result ++ [if value < 0 then 0x80 else 0]
    else if value < 0 then ((last ||| 0x80) :: rest).reverse
    else result

end CScriptNum

namespace StackItem

def ofInt (value : ℤ) : StackItem := vch (CScriptNum.serialize value)

/-- `StackItem(IntStack, i)`: the number is converted to `int64_t`. -/
def ofUint64 (i : ℕ) : StackItem := ofInt ((i : ℤ).bmod (2 ^ 64))

/-- `vchTrue` and `vchFalse`. -/
def ofBool (value : Bool) : StackItem := vch (if value then [1] else [])

variable (item : StackItem) (requireMinimal : Bool)

def asInt64 : Except ScriptError ℤ :=
  match item with
  | vch data => CScriptNum.ofVch data requireMinimal CScriptNum.maximumElementSize
  | bigNum n =>
    if 2 ^ 63 ≤ n then .error .badOpOnType else if n ≤ -2 ^ 63 then .error .invalidNumberRange else .ok n

def asUint64 : Except ScriptError ℕ :=
  match item with
  | vch data => do
    let ret ← CScriptNum.ofVch data requireMinimal CScriptNum.maximumElementSize
    if ret < 0 then .error .badOpOnType else .ok ret.toNat
  | bigNum n => if n < 0 ∨ 2 ^ 64 ≤ n then .error .badOpOnType else .ok n.toNat

/-- `asBigNum`: bytes are reduced by the modulo, a `BigNum` is taken as it is. -/
def asBigNum (bmd : ℤ) : ℤ :=
  match item with
  | vch data => (scriptNum data).tmod bmd
  | bigNum n => n

def within (this gte lt : StackItem) (bmd : ℤ) : Except ScriptError Bool :=
  if this.isBigNum || gte.isBigNum || lt.isBigNum then
    .ok (this.asBigNum bmd ≤ gte.asBigNum bmd ∧ this.asBigNum bmd < lt.asBigNum bmd)
  else do
    let nthis ← CScriptNum.ofVch (← this.data) false CScriptNum.maximumElementSize
    let ngte ← CScriptNum.ofVch (← gte.data) false CScriptNum.maximumElementSize
    let nlt ← CScriptNum.ofVch (← lt.data) false CScriptNum.maximumElementSize
    .ok (nthis ≤ ngte ∧ nthis < nlt)

end StackItem

end Nexa
