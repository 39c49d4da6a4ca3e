import Nexa.Model.Script.Opcode
import Nexa.Model.Script.StackItem

/-! # Arithmetic of the numeric opcodes

Script numbers are added, subtracted and multiplied with a check of the result. Every result of an
operation on `BigNum`s is reduced by the modulo of the machine, with the sign of the dividend.
-/

namespace Nexa

def boolInt (value : Bool) : ℤ := if value then 1 else 0

def bigNumScriptOp (op : BinaryOp) (bn1 bn2 bmd : ℤ) : Except ScriptError ℤ := do
  let bn ←
    match op with
    | .add => pure (bn1 + bn2)
    | .sub => pure (bn1 - bn2)
    | .div => if bn2 = 0 then .error .divByZero else pure (bn1.tdiv bn2)
    | .mod => if bn2 = 0 then .error .modByZero else pure (bn1 % bn2)
    | .boolAnd => pure (boolInt (bn1 ≠ 0 ∧ bn2 ≠ 0))
    | .boolOr => pure (boolInt (bn1 ≠ 0 ∨ bn2 ≠ 0))
    | .numEqual => pure (boolInt (bn1 = bn2))
    | .numEqualVerify => pure (boolInt (bn1 = bn2))
    | .numNotEqual => pure (boolInt (bn1 ≠ bn2))
    | .lessThan => pure (boolInt (bn1 < bn2))
    | .greaterThan => pure (boolInt (bn2 < bn1))
    | .lessThanOrEqual => pure (boolInt (bn1 ≤ bn2))
    | .greaterThanOrEqual => pure (boolInt (bn2 ≤ bn1))
    | .min => pure (if bn1 < bn2 then bn1 else bn2)
    | .max => pure (if bn2 < bn1 then bn1 else bn2)
    | .mul => pure (bn1 * bn2)
  pure (bn.tmod bmd)

/-- The switch of the interpreter over two script numbers. -/
def scriptNumOp (op : BinaryOp) (bn1 bn2 : ℤ) : Except ScriptError ℤ :=
  match op with
  | .add => CScriptNum.fromInt (bn1 + bn2)
  | .sub => CScriptNum.fromInt (bn1 - bn2)
  | .mul => CScriptNum.fromInt (bn1 * bn2)
  | .div => if bn2 = 0 then .error .divByZero else .ok (bn1.tdiv bn2)
  | .mod => if bn2 = 0 then .error .modByZero else .ok (bn1.tmod bn2)
  | .boolAnd => .ok (boolInt (bn1 ≠ 0 ∧ bn2 ≠ 0))
  | .boolOr => .ok (boolInt (bn1 ≠ 0 ∨ bn2 ≠ 0))
  | .numEqual => .ok (boolInt (bn1 = bn2))
  | .numEqualVerify => .ok (boolInt (bn1 = bn2))
  | .numNotEqual => .ok (boolInt (bn1 ≠ bn2))
  | .lessThan => .ok (boolInt (bn1 < bn2))
  | .greaterThan => .ok (boolInt (bn2 < bn1))
  | .lessThanOrEqual => .ok (boolInt (bn1 ≤ bn2))
  | .greaterThanOrEqual => .ok (boolInt (bn2 ≤ bn1))
  | .min => .ok (if bn1 < bn2 then bn1 else bn2)
  | .max => .ok (if bn2 < bn1 then bn1 else bn2)

/-- The switch over one script number. -/
def scriptNumUnaryOp (op : UnaryOp) (bn : ℤ) : Except ScriptError ℤ :=
  match op with
  | .add1 => CScriptNum.fromInt (bn + 1)
  | .sub1 => CScriptNum.fromInt (bn - 1)
  | .negate => .ok (-bn)
  | .abs => .ok (if bn < 0 then -bn else bn)
  | .not => .ok (boolInt (bn = 0))
  | .notEqual0 => .ok (boolInt (bn ≠ 0))

/-- The switch over one `BigNum`; the two tests leave a truth value and not a number. -/
def bigNumUnaryOp (op : UnaryOp) (bn bmd : ℤ) : StackItem :=
  match op with
  | .add1 => .bigNum ((bn + 1).tmod bmd)
  | .sub1 => .bigNum ((bn - 1).tmod bmd)
  | .negate => .bigNum (-bn)
  | .abs => .bigNum bn.natAbs
  | .not => .ofBool (bn = 0)
  | .notEqual0 => .ofBool (bn ≠ 0)

/-- The bitwise operators of `BigNum`, which refuse negative numbers. -/
def bigNumBitwiseOp (op : BitwiseOp) (b1 b2 bmd : ℤ) : Except ScriptError ℤ :=
  if b1 < 0 ∨ b2 < 0 then .error .invalidNumberRange
  else
    let result :=
      match op with
      | .and => b1.toNat &&& b2.toNat
      | .or => b1.toNat ||| b2.toNat
      | .xor => b1.toNat ^^^ b2.toNat
    .ok ((result : ℤ).tmod bmd)

/-- A bitwise operation on each byte of the first operand in place. -/
def bytesBitwiseOp (op : BitwiseOp) (vch1 vch2 : Bytes) : Bytes :=
  vch1.mapIdx fun i byte =>
    match op with
    | .and => byte &&& vch2.getD i 0
    | .or => byte ||| vch2.getD i 0
    | .xor => byte ^^^ vch2.getD i 0

/-- `MAX_BIGNUM_MAGNITUDE_SIZE` and `MAX_BIGNUM_BITSHIFT_SIZE`. -/
def maxBigNumMagnitudeSize : ℕ := 512
def maxBigNumBitShiftSize : ℕ := maxBigNumMagnitudeSize * 8

/-- `operator<<`. -/
def bigNumShiftLeft (n : ℤ) (amt : ℕ) : Except ScriptError ℤ :=
  if maxBigNumBitShiftSize < amt then .error .invalidNumberRange else .ok (n * 2 ^ amt)

/-- `operator>>`. -/
def bigNumShiftRight (n : ℤ) (amt : ℕ) : ℤ := if maxBigNumBitShiftSize < amt then 0 else n.tdiv (2 ^ amt)

def bigNumUpperLimit : ℤ := 2 ^ 4096

end Nexa
