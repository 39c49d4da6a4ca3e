import Nexa.Model.Primitives.Script

/-! # Opcodes

The opcodes behind the pushes of data, named as in the enumeration `opcodetype`. Those that share a
`case` of the interpreter are one constructor with the operation as its argument, and an operation and
its `VERIFY` variant are one with a flag.
-/

namespace Nexa

/-- `OP_1ADD` to `OP_0NOTEQUAL`. -/
inductive UnaryOp where
  | add1
  | sub1
  | negate
  | abs
  | not
  | notEqual0
deriving DecidableEq, Repr

inductive BinaryOp where
  | add
  | sub
  | mul
  | div
  | mod
  | boolAnd
  | boolOr
  | numEqual
  | numEqualVerify
  | numNotEqual
  | lessThan
  | greaterThan
  | lessThanOrEqual
  | greaterThanOrEqual
  | min
  | max
deriving DecidableEq, Repr

inductive BitwiseOp where
  | and
  | or
  | xor
deriving DecidableEq, Repr

inductive HashOp where
  | ripemd160
  | sha1
  | sha256
  | hash160
  | hash256
deriving DecidableEq, Repr

/-- Introspection without an argument. -/
inductive TxField where
  | inputIndex
  | activeBytecode
  | txVersion
  | txInputCount
  | txOutputCount
  | txLockTime
deriving DecidableEq, Repr

inductive InputField where
  | utxoValue
  | utxoBytecode
  | outpointHash
  | inputBytecode
  | inputSequenceNumber
  | inputType
  | inputValue
deriving DecidableEq, Repr

inductive OutputField where
  | outputValue
  | outputBytecode
  | outputType
deriving DecidableEq, Repr

/-- `number n` is `OP_1NEGATE` or one of `OP_1` to `OP_16`, `upgradableNop` one of the unused `OP_NOP`s,
and `unknown` what the switch leaves to its default. -/
inductive Opcode where
  | number (n : ℤ)
  | nop
  | ifTrue
  | notIf
  | jump
  | elseBranch
  | endIf
  | verify
  | opReturn
  | toAltStack
  | fromAltStack
  | drop2
  | dup2
  | dup3
  | over2
  | rot2
  | swap2
  | ifDup
  | depth
  | drop
  | dup
  | nip
  | over1
  | pick
  | roll
  | rot
  | swap
  | tuck
  | cat
  | split
  | num2Bin
  | bin2Num
  | size
  | bitwise (op : BitwiseOp)
  | equal (verify : Bool)
  | unary (op : UnaryOp)
  | binary (op : BinaryOp)
  | lshift
  | rshift
  | within
  | hash (op : HashOp)
  | codeSeparator
  | checkSig (verify : Bool)
  | checkMultiSig (verify : Bool)
  | checkLockTimeVerify
  | checkSequenceVerify
  | upgradableNop
  | checkDataSig (verify : Bool)
  | reverseBytes
  | txField (field : TxField)
  | inputField (field : InputField)
  | outputField (field : OutputField)
  | parse
  | store
  | load
  | place
  | pushTxState
  | setBmd
  | bin2BigNum
  | exec
  | merkleRoot
  | unknown
deriving DecidableEq, Repr

def OP_IF : ℕ := 0x63
def OP_NOTIF : ℕ := 0x64
def OP_ELSE : ℕ := 0x67
def OP_ENDIF : ℕ := 0x68
def OP_INVERT : ℕ := 0x83
def OP_2MUL : ℕ := 0x8d
def OP_2DIV : ℕ := 0x8e
def OP_EXEC : ℕ := 0xed

/-- The opcodes from `OP_NOP` on by their byte. -/
def Opcode.operation : ℕ → Opcode
  | 0x61 => .nop
  | 0x63 => .ifTrue
  | 0x64 => .notIf
  | 0x65 => .jump
  | 0x67 => .elseBranch
  | 0x68 => .endIf
  | 0x69 => .verify
  | 0x6a => .opReturn
  | 0x6b => .toAltStack
  | 0x6c => .fromAltStack
  | 0x6d => .drop2
  | 0x6e => .dup2
  | 0x6f => .dup3
  | 0x70 => .over2
  | 0x71 => .rot2
  | 0x72 => .swap2
  | 0x73 => .ifDup
  | 0x74 => .depth
  | 0x75 => .drop
  | 0x76 => .dup
  | 0x77 => .nip
  | 0x78 => .over1
  | 0x79 => .pick
  | 0x7a => .roll
  | 0x7b => .rot
  | 0x7c => .swap
  | 0x7d => .tuck
  | 0x7e => .cat
  | 0x7f => .split
  | 0x80 => .num2Bin
  | 0x81 => .bin2Num
  | 0x82 => .size
  | 0x84 => .bitwise .and
  | 0x85 => .bitwise .or
  | 0x86 => .bitwise .xor
  | 0x87 => .equal false
  | 0x88 => .equal true
  | 0x8b => .unary .add1
  | 0x8c => .unary .sub1
  | 0x8f => .unary .negate
  | 0x90 => .unary .abs
  | 0x91 => .unary .not
  | 0x92 => .unary .notEqual0
  | 0x93 => .binary .add
  | 0x94 => .binary .sub
  | 0x95 => .binary .mul
  | 0x96 => .binary .div
  | 0x97 => .binary .mod
  | 0x98 => .lshift
  | 0x99 => .rshift
  | 0x9a => .binary .boolAnd
  | 0x9b => .binary .boolOr
  | 0x9c => .binary .numEqual
  | 0x9d => .binary .numEqualVerify
  | 0x9e => .binary .numNotEqual
  | 0x9f => .binary .lessThan
  | 0xa0 => .binary .greaterThan
  | 0xa1 => .binary .lessThanOrEqual
  | 0xa2 => .binary .greaterThanOrEqual
  | 0xa3 => .binary .min
  | 0xa4 => .binary .max
  | 0xa5 => .within
  | 0xa6 => .hash .ripemd160
  | 0xa7 => .hash .sha1
  | 0xa8 => .hash .sha256
  | 0xa9 => .hash .hash160
  | 0xaa => .hash .hash256
  | 0xab => .codeSeparator
  | 0xac => .checkSig false
  | 0xad => .checkSig true
  | 0xae => .checkMultiSig false
  | 0xaf => .checkMultiSig true
  | 0xb0 => .upgradableNop
  | 0xb1 => .checkLockTimeVerify
  | 0xb2 => .checkSequenceVerify
  | 0xb3 => .upgradableNop
  | 0xb4 => .upgradableNop
  | 0xb5 => .upgradableNop
  | 0xb6 => .upgradableNop
  | 0xb7 => .upgradableNop
  | 0xb8 => .upgradableNop
  | 0xb9 => .upgradableNop
  | 0xba => .checkDataSig false
  | 0xbb => .checkDataSig true
  | 0xbc => .reverseBytes
  | 0xc0 => .txField .inputIndex
  | 0xc1 => .txField .activeBytecode
  | 0xc2 => .txField .txVersion
  | 0xc3 => .txField .txInputCount
  | 0xc4 => .txField .txOutputCount
  | 0xc5 => .txField .txLockTime
  | 0xc6 => .inputField .utxoValue
  | 0xc7 => .inputField .utxoBytecode
  | 0xc8 => .inputField .outpointHash
  | 0xca => .inputField .inputBytecode
  | 0xcb => .inputField .inputSequenceNumber
  | 0xcc => .outputField .outputValue
  | 0xcd => .outputField .outputBytecode
  | 0xce => .inputField .inputType
  | 0xcf => .outputField .outputType
  | 0xd0 => .inputField .inputValue
  | 0xe6 => .parse
  | 0xe7 => .store
  | 0xe8 => .load
  | 0xe9 => .place
  | 0xea => .pushTxState
  | 0xeb => .setBmd
  | 0xec => .bin2BigNum
  | 0xed => .exec
  | 0xee => .merkleRoot
  | _ => .unknown

/-- The opcode of a byte that does not push data. -/
def Opcode.ofByte (opcode : ℕ) : Opcode :=
  if opcode = OP_1NEGATE ∨ OP_1 ≤ opcode ∧ opcode ≤ OP_16 then .number (opcode - (OP_1 - 1)) else .operation opcode

def isOpcodeDisabled (opcode : ℕ) : Bool := opcode = OP_2MUL ∨ opcode = OP_2DIV ∨ opcode = OP_INVERT

end Nexa
