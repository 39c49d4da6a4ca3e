import Nexa.Model.Core.Serialize

/-! # Scripts

A script is its bytes. The parser `GetOp` advances an iterator over them; here it returns the bytes
that remain. Of the output formats only the data prefix is read by consensus code outside the
script machine: the group and its quantity, then the template and argument hashes.
-/

namespace Nexa

abbrev CScript := Bytes

/-- `ScriptType`; constraint scripts are of one of these two. -/
inductive ScriptType where
  | satoscript
  | template
deriving DecidableEq, Repr

def OP_0 : ℕ := 0x00
def OP_PUSHDATA1 : ℕ := 0x4c
def OP_PUSHDATA2 : ℕ := 0x4d
def OP_PUSHDATA4 : ℕ := 0x4e
def OP_1NEGATE : ℕ := 0x4f
def OP_1 : ℕ := 0x51
def OP_16 : ℕ := 0x60
def OP_RETURN : ℕ := 0x6a
def OP_INVALIDOPCODE : ℕ := 0xff

def maxScriptSize : ℕ := 10000

/-- The length operand of a push opcode. -/
def pushSize (opcode : ℕ) : Reader ℕ :=
  if opcode < OP_PUSHDATA1 then pure opcode
  else if opcode = OP_PUSHDATA1 then readLE 1
  else if opcode = OP_PUSHDATA2 then readLE 2
  else readLE 4

/-- `CScript::GetOp`: the opcode and the bytes it pushes, or a failure where the script is truncated. -/
def getOp : Reader (ℕ × Bytes) := do
  let opcode ← readLE 1
  if opcode ≤ OP_PUSHDATA4 then
    let nSize ← pushSize opcode
    let data ← readBytes nSize
    pure (opcode, data)
  else pure (opcode, [])

/-- `GetOp` at the start of a script. `prevector` finds the end with an `int32_t`: with 2^31 bytes or more it lies in
front of the start, and nothing is read. -/
def firstOp (script : CScript) : Option ((ℕ × Bytes) × CScript) :=
  if 2 ^ 31 ≤ script.length then none else getOp script

def isPushOpcode (opcode : ℕ) : Bool := opcode ≤ OP_16

/-- `serializeVector`: a push with the length in front. -/
def serializeVector (b : Bytes) : CScript :=
  if b.length < OP_PUSHDATA1 then UInt8.ofNat b.length :: b
  else if b.length ≤ 0xff then UInt8.ofNat OP_PUSHDATA1 :: bytesLE 1 b.length ++ b
  else if b.length ≤ 0xffff then UInt8.ofNat OP_PUSHDATA2 :: bytesLE 2 b.length ++ b
  else UInt8.ofNat OP_PUSHDATA4 :: bytesLE 4 b.length ++ b

/-- `CScript::operator<<` of a vector; small numbers have opcodes of their own. -/
def pushVector (b : Bytes) : CScript :=
  match b with
  | [] => [UInt8.ofNat OP_0]
  | [n] =>
    if 1 ≤ n ∧ n ≤ 16 then [UInt8.ofNat (OP_1 - 1) + n]
    else if n = 0x81 then [UInt8.ofNat OP_1NEGATE]
    else serializeVector b
  | b => serializeVector b

/-- `CScript::IsUnspendable`: such an output never enters the set of coins. -/
def CScript.isUnspendable (script : CScript) : Bool :=
  script.head?.map UInt8.toNat = some OP_RETURN ∨ maxScriptSize < script.length

end Nexa
