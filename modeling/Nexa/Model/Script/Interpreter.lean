import Nexa.Model.Script.TxState

/-! # The interpreter

`ScriptMachine::Step` and `ScriptMachine::Eval`. Each `case` of the switch is a definition of its own.
`OP_EXEC` evaluates its code in a machine of its own, so the instructions take the evaluation of a child
as an argument; `eval` closes the loop over a number of rounds, which it may run out of.
-/

namespace Nexa

open ScriptFlags CScriptNum

/-! ## Control -/

variable (context : ScriptContext)

def opCheckLockTimeVerify : ScriptM Unit := do
  let enabled ← hasFlag VERIFY_CHECKLOCKTIMEVERIFY
  if enabled = false then pure ()
  else do
    requireItems 1
    let nLockTime ← scriptNumAt 1 5
    abortIf (nLockTime < 0) .negativeLockTime
    let checker ← dataRequired context.sis.checker
    abortIf (checker.checkLockTime nLockTime = false) .unsatisfiedLockTime

def sequenceLockTimeDisableFlag : ℕ := 2 ^ 31

def opCheckSequenceVerify : ScriptM Unit := do
  let enabled ← hasFlag VERIFY_CHECKSEQUENCEVERIFY
  if enabled = false then pure ()
  else do
    requireItems 1
    let nSequence ← scriptNumAt 1 5
    abortIf (nSequence < 0) .negativeLockTime
    if nSequence.toNat &&& sequenceLockTimeDisableFlag ≠ 0 then pure ()
    else do
      let checker ← dataRequired context.sis.checker
      abortIf (checker.checkSequence nSequence = false) .unsatisfiedLockTime

def opUpgradableNop : ScriptM Unit := do
  let discouraged ← hasFlag VERIFY_DISCOURAGE_UPGRADABLE_NOPS
  abortIf (discouraged = true) .discourageUpgradableNops

/-- The truth value on top; before fork 1 a number throws. -/
def topAsBool : ScriptM Bool := do
  let enableExtBignum ← hasFlag FORK1_OPCODES
  if enableExtBignum then do
    let item ← stackItemAt 1
    pure item.toBool
  else do
    let vch ← stacktop 1
    pure (castToBool vch)

def modifyConditions (f : ConditionStack → ConditionStack) : ScriptM Unit :=
  modify fun machine => { machine with vfExec := f machine.vfExec }

/-- `OP_IF` and `OP_NOTIF`; in a branch that is not taken no value is read. -/
def opIf (fExec negated : Bool) : ScriptM Unit :=
  if fExec then do
    let machine ← get
    abortIf (machine.stack.length < 1) .unbalancedConditional
    let value ← topAsBool
    popStack
    modifyConditions (·.pushBack (value ^^ negated))
  else modifyConditions (·.pushBack false)

def opElse : ScriptM Unit := do
  let machine ← get
  abortIf (machine.vfExec.empty = true) .unbalancedConditional
  modifyConditions ConditionStack.toggleTop

def opEndIf : ScriptM Unit := do
  let machine ← get
  abortIf (machine.vfExec.empty = true) .unbalancedConditional
  modifyConditions ConditionStack.popBack

def setPc (pc : ℕ) : ScriptM Unit := modify fun machine => { machine with pc }

/-- `OP_JUMP`: the offset counts back from the opcode itself. -/
def opJump : ScriptM Unit := do
  let enableJump ← hasFlag FORK1_OPCODES
  abortIf (enableJump = false) .badOpcode
  requireItems 1
  let si ← stackItemAt 1
  let offset ← liftExcept (si.asInt64 false)
  if offset ≠ 0 then do
    let machine ← get
    let temp : ℤ := machine.pc - (1 + offset)
    abortIf (temp < 0) .invalidJump
    abortIf (machine.script.length < temp) .invalidJump
    setPc temp.toNat
  else pure ()
  popStack

def opVerify : ScriptM Unit := do
  requireItems 1
  let fValue ← topAsBool
  if fValue then popStack else abort .verify

/-! ## The stacks -/

def opToAltStack : ScriptM Unit := do
  requireItems 1
  moveStackToAlt

def opFromAltStack : ScriptM Unit := do
  let machine ← get
  abortIf (machine.altstack.length < 1) .invalidAltStackOperation
  moveAltToStack

variable (count : ℕ)

/-- `OP_DROP` and `OP_2DROP`. -/
def opDrop : ScriptM Unit := do
  requireItems count
  popMany count

/-- The opcodes that push copies of the `count` items from `depth` on upwards: `OP_DUP`, `OP_2DUP`,
`OP_3DUP`, `OP_OVER` and `OP_2OVER`. -/
def opDup (depth count : ℕ) : ScriptM Unit := do
  requireItems depth
  let machine ← get
  pushMany (((machine.stack.drop (depth - count)).take count).reverse)

/-- `OP_2ROT`, `OP_2SWAP`, `OP_ROT` and `OP_SWAP`: the top items in another order, their depths from the
top down. -/
def opRearrange (order : List ℕ) : ScriptM Unit := do
  requireItems order.length
  modifyStack fun stack => order.filterMap (fun depth => stack[depth - 1]?) ++ stack.drop order.length

def opIfDup : ScriptM Unit := do
  requireItems 1
  let value ← topAsBool
  let item ← stackItemAt 1
  if value then pushStack item else pure ()

def opDepth : ScriptM Unit := do
  let machine ← get
  pushStack (.ofInt machine.stack.length)

def opNip : ScriptM Unit := do
  requireItems 2
  eraseStackItemAt 2

/-- `OP_ROLL` of the item with `n` above it. -/
def rollUp (n : ℕ) (stack : List StackItem) : List StackItem :=
  match stack[n]? with
  | some item => item :: stack.eraseIdx n
  | none => stack

/-- `OP_ROLL` by a negative number: the top is inserted below `n` items, of which it is the first, and
removed there. -/
def rollDown (n : ℕ) (stack : List StackItem) : List StackItem :=
  match stack with
  | item :: rest => rest.take (n - 1) ++ item :: rest.drop (n - 1)
  | [] => []

def opPickRoll (roll : Bool) : ScriptM Unit := do
  requireItems 2
  let n ← scriptNumAt 1 maximumElementSize
  popStack
  let machine ← get
  if 0 ≤ n then do
    abortIf (machine.stack.length ≤ n) .invalidStackOperation
    let si ← stackItemAt (n.toNat + 1)
    if roll then modifyStack (rollUp n.toNat) else pushStack si
  else do
    let negativeAllowed ← hasFlag FORK1_OPCODES
    abortIf (negativeAllowed = false) .invalidStackOperation
    abortIf (machine.stack.length < n.natAbs) .invalidStackOperation
    let si ← stacktop 1
    if roll then modifyStack (rollDown n.natAbs) else insertStackItem n.natAbs (.vch si)

def opTuck : ScriptM Unit := do
  requireItems 2
  let si ← stackItemAt 1
  insertStackItem 2 si

def opSize : ScriptM Unit := do
  requireItems 1
  let vch ← stacktop 1
  pushStack (.ofInt vch.length)

def registerAt : ScriptM ℕ := do
  let registerNum ← scriptNumAt 1 maximumElementSize
  abortIf (registerNum < 0) .invalidRegister
  abortIf (numScriptRegisters ≤ registerNum) .invalidRegister
  pure registerNum.toNat

def setRegister (register : ℕ) (value : StackItem) : ScriptM Unit :=
  modify fun machine => { machine with arrRegisters := machine.arrRegisters.setIfInBounds register value }

def opStore : ScriptM Unit := do
  let scriptRegisters ← hasFlag FORK1_OPCODES
  abortIf (scriptRegisters = false) .badOpcode
  requireItems 2
  let registerValue ← stackItemAt 2
  let register ← registerAt
  setRegister register registerValue
  popMany 2

def opLoad : ScriptM Unit := do
  let scriptRegisters ← hasFlag FORK1_OPCODES
  abortIf (scriptRegisters = false) .badOpcode
  requireItems 1
  let register ← registerAt
  let machine ← get
  replaceArguments 1 (machine.arrRegisters[register]?.getD (.vch []))

/-- A negative count is taken from the bottom of the stack. -/
def opPlace : ScriptM Unit := do
  requireItems 2
  let countStk ← stackItemAt 1
  let minimal ← fRequireMinimal
  let count ← liftExcept (countStk.asInt64 minimal)
  popStack
  let item ← stackItemAt 1
  let machine ← get
  if 0 < count then do
    abortIf (machine.stack.length ≤ count) .invalidStackOperation
    setStackItem count.toNat item
  else if count < 0 then do
    abortIf (machine.stack.length ≤ -count - 1) .invalidStackOperation
    setStackItem (machine.stack.length + count).toNat item
  else pure ()

/-! ## Bytes -/

/-- `OP_AND`, `OP_OR` and `OP_XOR` on bytes change the second item in place. -/
def bitwiseInPlace (op : BitwiseOp) (stack : List StackItem) : List StackItem :=
  match stack with
  | top :: .vch vch1 :: rest => top :: .vch (bytesBitwiseOp op vch1 top.asVch) :: rest
  | _ => stack

def opBitwise (op : BitwiseOp) : ScriptM Unit := do
  requireItems 2
  let enableExtBignum ← hasFlag FORK1_OPCODES
  let arg1 ← stackItemAt 2
  let arg2 ← stackItemAt 1
  if enableExtBignum && (arg1.isBigNum || arg2.isBigNum) then do
    let machine ← get
    let bmd := machine.bigNumModulo
    let result ← liftExcept (bigNumBitwiseOp op (arg1.asBigNum bmd) (arg2.asBigNum bmd) bmd)
    replaceArguments 2 (.bigNum result)
  else do
    let vch1 ← stacktop 2
    let vch2 ← stacktop 1
    if vch1.length = vch2.length then do
      modifyStack (bitwiseInPlace op)
      popStack
    else abort .invalidOperandSize

variable (verify : Bool)

def opEqual : ScriptM Unit := do
  requireItems 2
  let a ← stackItemAt 1
  let b ← stackItemAt 2
  let fEqual : Bool := a = b
  replaceArguments 2 (.ofBool fEqual)
  if verify then (if fEqual then popStack else abort .equalVerify) else pure ()

/-- `OP_CAT` joins the two items in place. -/
def catInPlace (stack : List StackItem) : List StackItem :=
  match stack with
  | .vch vch2 :: .vch vch1 :: rest => .vch (vch1 ++ vch2) :: rest
  | _ => stack

def opCat : ScriptM Unit := do
  requireItems 2
  let vch1 ← stacktop 2
  let vch2 ← stacktop 1
  let machine ← get
  abortIf (withinStackWidth (vch1.length + vch2.length) machine.flags = false) .pushSize
  modifyStack catInPlace

def opSplit : ScriptM Unit := do
  requireItems 2
  let data ← stacktop 2
  let position ← scriptNumAt 1 maximumElementSize
  abortIf (position < 0 ∨ data.length < position) .invalidSplitRange
  setStackItem 1 (.vch (data.take position.toNat))
  setStackItem 0 (.vch (data.drop position.toNat))

def reverseInPlace (stack : List StackItem) : List StackItem :=
  match stack with
  | .vch data :: rest => .vch data.reverse :: rest
  | _ => stack

def opReverseBytes : ScriptM Unit := do
  requireItems 1
  let _ ← stacktop 1
  modifyStack reverseInPlace

/-- The bytes of a number that was shortened as far as possible, padded to `size` bytes. The conversions
to `int` truncate a size above 2^31. -/
def num2BinPadded (rawnum : Bytes) (size : ℕ) : Bytes :=
  let signbit := rawnum.getLast?.getD 0 &&& 0x80
  let rawnum := rawnum.dropLast ++ (rawnum.getLast?.map (· &&& 0x7f)).toList
  rawnum ++ List.replicate (((size : ℤ).bmod (2 ^ 32) - 1).toNat - rawnum.length) 0 ++ [signbit]

def opNum2Bin : ScriptM Unit := do
  requireItems 2
  let sizeItem ← stackItemAt 1
  let minimal ← fRequireMinimal
  let size ← liftExcept (sizeItem.asUint64 minimal)
  let item ← stackItemAt 2
  match item with
  | .bigNum n => do
    abortIf (maxBigNumMagnitudeSize + 1 < size) .pushSize
    popStack
    replaceArguments 1 (.vch (StackItem.serialize n size))
  | .vch data => do
    let machine ← get
    abortIf (withinStackWidth (size % 2 ^ 32) machine.flags = false) .pushSize
    popStack
    let rawnum := minimallyEncode data
    abortIf (size < rawnum.length) .impossibleEncoding
    -- an item that needs no padding stays as it was
    if rawnum.length = size then pure () else replaceArguments 1 (.vch (num2BinPadded rawnum size))

def opBin2Num : ScriptM Unit := do
  requireItems 1
  let data ← stacktop 1
  let n := minimallyEncode data
  replaceArguments 1 (.vch n)
  abortIf (isMinimallyEncoded n maximumElementSize = false) .invalidNumberRange

/-! ## Numbers -/

def opShift (left : Bool) : ScriptM Unit := do
  requireItems 2
  let a ← stackItemAt 1
  let b ← stackItemAt 2
  let machine ← get
  let minimal ← fRequireMinimal
  match b with
  | .vch _ => do
    -- a left shift looks at the amount before it finds out
    match left, a with
    | true, .bigNum amount => do
      abortIf (amount < 0) .badOpOnType
      abortIf (maxBigNumBitShiftSize < amount) .invalidNumberRange
    | _, _ => pure ()
    abort .disabledOpcode
  | .bigNum n => do
    let ret ←
      match left, a with
      | true, .bigNum amount => do
        abortIf (amount < 0) .badOpOnType
        abortIf (maxBigNumBitShiftSize < amount) .invalidNumberRange
        liftExcept (bigNumShiftLeft n amount.toNat)
      | true, .vch _ => do
        let amount ← liftExcept (a.asUint64 minimal)
        liftExcept (bigNumShiftLeft n amount)
      | false, .bigNum amount => do
        abortIf (amount < 0) .badOpOnType
        pure (bigNumShiftRight n amount.toNat)
      | false, .vch _ => do
        let amount ← liftExcept (a.asUint64 minimal)
        pure (bigNumShiftRight n amount)
    replaceArguments 2 (.bigNum (ret.tmod machine.bigNumModulo))

def opUnary (op : UnaryOp) : ScriptM Unit := do
  requireItems 1
  let arg ← stackItemAt 1
  let enableExtBignum ← hasFlag FORK1_OPCODES
  if !enableExtBignum || arg.isVch then do
    let bn ← scriptNumAt 1 maximumElementSize
    let bn ← liftExcept (scriptNumUnaryOp op bn)
    replaceArguments 1 (.ofInt bn)
  else do
    let machine ← get
    let bmd := machine.bigNumModulo
    replaceArguments 1 (bigNumUnaryOp op (arg.asBigNum bmd) bmd)

/-- The result of a binary operation, before it takes the place of its arguments. -/
def binaryResult (op : BinaryOp) : ScriptM StackItem := do
  let a ← stackItemAt 1
  let b ← stackItemAt 2
  if a.isBigNum || b.isBigNum then do
    let upgrade2 ← hasFlag UPGRADE2_OPCODES
    let machine ← get
    let bmd := machine.bigNumModulo
    let ret ← liftExcept
      (if upgrade2 then bigNumScriptOp op (b.asBigNum bmd) (a.asBigNum bmd) bmd
        else bigNumScriptOp op (a.asBigNum bmd) (b.asBigNum bmd) bmd)
    pure (.bigNum ret)
  else do
    let bn1 ← scriptNumAt 2 maximumElementSize
    let bn2 ← scriptNumAt 1 maximumElementSize
    let bn ← liftExcept (scriptNumOp op bn1 bn2)
    pure (.ofInt bn)

def opBinary (op : BinaryOp) : ScriptM Unit := do
  requireItems 2
  let result ← binaryResult op
  replaceArguments 2 result
  if op = .numEqualVerify then do
    let top ← stackItemAt 1
    if top.toBool then popStack else abort .numEqualVerify
  else pure ()

def opWithin : ScriptM Unit := do
  requireItems 3
  let enableExtBignum ← hasFlag FORK1_OPCODES
  let fValue ←
    if enableExtBignum then do
      let bn1 ← stackItemAt 3
      let bn2 ← stackItemAt 2
      let bn3 ← stackItemAt 1
      let machine ← get
      liftExcept (bn1.within bn2 bn3 machine.bigNumModulo)
    else do
      let bn1 ← scriptNumAt 3 maximumElementSize
      let bn2 ← scriptNumAt 2 maximumElementSize
      let bn3 ← scriptNumAt 1 maximumElementSize
      pure (decide (bn2 ≤ bn1 ∧ bn1 < bn3))
  replaceArguments 3 (.ofBool fValue)

def setModulo (bigNumModulo : ℤ) : ScriptM Unit := modify fun machine => { machine with bigNumModulo }

def opSetBmd : ScriptM Unit := do
  requireItems 1
  let top ← stackItemAt 1
  let bn :=
    match top with
    | .bigNum n => n
    | .vch data => StackItem.scriptNum data
  abortIf (bigNumUpperLimit < bn) .invalidNumberRange
  abortIf (bn ≤ 0) .invalidNumberRange
  setModulo bn
  popStack

/-- On a number the source assigns to the number of a byte item, which throws. -/
def opBin2BigNum : ScriptM Unit := do
  requireItems 1
  let top ← stackItemAt 1
  popStack
  match top with
  | .bigNum _ => abort .badOpOnType
  | .vch data => do
    let machine ← get
    pushStack (.bigNum ((StackItem.scriptNum data).tmod machine.bigNumModulo))

/-! ## Cryptography -/

def opHash (op : HashOp) : ScriptM Unit := do
  requireItems 1
  let vch ← stacktop 1
  let vchHash :=
    match op with
    | .ripemd160 => context.ripemd160.hash vch
    | .sha1 => context.sha1.hash vch
    | .sha256 => Sha256.hash vch
    | .hash160 => hash160 context vch
    | .hash256 => Sha256.hash (Sha256.hash vch)
  replaceArguments 1 (.vch vchHash)

def opCodeSeparator : ScriptM Unit := modify fun machine => { machine with pbegincodehash := machine.pc }

variable (vchPubKey : Bytes)

def isCompressedPubKey : Bool := vchPubKey.length = 33 ∧ (vchPubKey.head? = some 2 ∨ vchPubKey.head? = some 3)

def isCompressedOrUncompressedPubKey : Bool :=
  isCompressedPubKey vchPubKey ∨ vchPubKey.length = 65 ∧ vchPubKey.head? = some 4

/-- `CheckSignatureEncodingSigHashChoice`. Without a hash type a signature longer than 64 bytes gets an
error code but passes. -/
def checkSignatureEncoding (vchSig : Bytes) (checkSighash : Bool) : Except ScriptError Unit := do
  if vchSig = [] then .ok ()
  else if vchSig.length < 64 ∨ 64 + 4 < vchSig.length then .error .sigNonSchnorr
  else if checkSighash ∧ (SigHashType.fromBytes (vchSig.drop 64)).isNone then .error .sigHashType
  else .ok ()

def checkPubKeyEncoding (flags : ScriptFlags) : Except ScriptError Unit :=
  if flags.has VERIFY_STRICTENC ∧ isCompressedOrUncompressedPubKey vchPubKey = false then .error .pubkeyType
  else if flags.has VERIFY_COMPRESSED_PUBKEYTYPE ∧ isCompressedPubKey vchPubKey = false then
    .error .nonCompressedPubkey
  else .ok ()

/-- Copies of `b` at the start of a script are skipped. -/
def dropCopies (b : Bytes) : ℕ → Bytes → Bytes
  | 0, script => script
  | rounds + 1, script => if b.isPrefixOf script then dropCopies b rounds (script.drop b.length) else script

/-- The loop of `FindAndDelete`, from one opcode to the next. -/
def findAndDeleteLoop (b : Bytes) : ℕ → Bytes → Bytes
  | 0, script => script
  | rounds + 1, script =>
    let kept := dropCopies b script.length script
    match getOp kept with
    | none => kept
    | some (_, rest) => kept.take (kept.length - rest.length) ++ findAndDeleteLoop b rounds rest

def findAndDelete (script b : Bytes) : Bytes :=
  if b = [] then script else findAndDeleteLoop b (script.length + 1) script

def addSigChecks : ScriptM Unit :=
  modify fun machine =>
    { machine with
      stats := { machine.stats with consensusSigCheckCount := machine.stats.consensusSigCheckCount + count } }

/-- The test in front of one more signature check. -/
def requireSigCheckBudget : ScriptM Unit := do
  let machine ← get
  abortIf (machine.maxConsensusSigOps ≤ machine.stats.consensusSigCheckCount) .sigChecksLimitExceeded

def finishSignature (arguments : ℕ) (fSuccess verify : Bool) (error : ScriptError) : ScriptM Unit := do
  replaceArguments arguments (.ofBool fSuccess)
  if verify then (if fSuccess then popStack else abort error) else pure ()

def opCheckSig : ScriptM Unit := do
  requireItems 2
  let vchSig ← stacktop 2
  let vchPubKey ← stacktop 1
  let machine ← get
  -- the push of the signature is dropped, since it cannot sign itself
  let scriptCode := findAndDelete (machine.script.drop machine.pbegincodehash) (pushVector vchSig)
  if vchSig ≠ [] then do
    requireSigCheckBudget
    addSigChecks 1
  else pure ()
  liftExcept (checkSignatureEncoding vchSig true)
  liftExcept (checkPubKeyEncoding vchPubKey machine.flags)
  let checker ← dataRequired context.sis.checker
  let fSuccess := checker.checkSig vchSig vchPubKey scriptCode
  abortIf (fSuccess = false ∧ machine.flags.has VERIFY_NULLFAIL ∧ vchSig ≠ []) .sigNullFail
  finishSignature 2 fSuccess verify .checkSigVerify

def opCheckDataSig : ScriptM Unit := do
  requireItems 3
  let vchSig ← stacktop 3
  let vchMessage ← stacktop 2
  let vchPubKey ← stacktop 1
  let machine ← get
  liftExcept (checkSignatureEncoding vchSig false)
  liftExcept (checkPubKeyEncoding vchPubKey machine.flags)
  requireSigCheckBudget
  let fSuccess ←
    if vchSig ≠ [] then do
      let checker ← dataRequired context.sis.checker
      addSigChecks 1
      pure (checker.verifySignature vchSig vchPubKey (sha256 vchMessage))
    else pure false
  abortIf (fSuccess = false ∧ machine.flags.has VERIFY_NULLFAIL ∧ vchSig ≠ []) .sigNullFail
  finishSignature 3 fSuccess verify .checkDataSigVerify

/-- Both forms of `DecodeBitfield`. After fork 1 the bits are a script number, before it as many bytes as
the keys need. -/
def decodeBitfield (vch : Bytes) (size : ℕ) (fork1 minimal : Bool) : Except ScriptError ℕ := do
  let bitfield ←
    if fork1 then do
      let value ← ofVch vch minimal maximumElementSize
      pure (getInt32 value % 2 ^ 32).toNat
    else if vch.length ≠ (size + 7) / 8 then .error .invalidBitfieldSize
    else pure (natLE vch)
  if 2 ^ size ≤ bitfield then .error .invalidBitRange else pure bitfield

/-- The keys a bit field selects, the lowest bit first. -/
def selectedKeys (checkBits : ℕ) : List ℕ := (List.range 32).filter checkBits.testBit

/-- The loop over the signatures with the key selected for each: their depths on the stack. -/
def checkSignatures (context : ScriptContext) (scriptCode : CScript) : List (ℕ × ℕ) → ScriptM Unit
  | [] => pure ()
  | (sigDepth, keyDepth) :: rest => do
    let vchSig ← stacktop sigDepth
    let vchPubKey ← stacktop keyDepth
    let machine ← get
    liftExcept (checkSignatureEncoding vchSig true)
    liftExcept (checkPubKeyEncoding vchPubKey machine.flags)
    let checker ← dataRequired context.sis.checker
    abortIf (checker.checkSig vchSig vchPubKey scriptCode = false) .checkMultiSigVerify
    checkSignatures context scriptCode rest

/-- The number of keys, which `OP_CHECKMULTISIG` adds to the operations. -/
def multisigKeyCount : ScriptM ℕ := do
  requireItems 1
  let nKeysCount ← scriptNumAt 1 maximumElementSize
  abortIf (nKeysCount < 0 ∨ maxPubkeysPerMultisig < nKeysCount) .pubkeyCount
  pure nKeysCount.toNat

def multisigSigCount (nKeysCount : ℕ) : ScriptM ℕ := do
  requireItems (nKeysCount + 2)
  let nSigsCount ← scriptNumAt (nKeysCount + 2) maximumElementSize
  abortIf (nSigsCount < 0 ∨ nKeysCount < nSigsCount) .sigCount
  requireItems (nKeysCount + 2 + nSigsCount.toNat + 1)
  pure nSigsCount.toNat

/-- `stats.nOpCount` counts modulo 2^32. -/
def countOps : ScriptM Unit := do
  modify fun machine =>
    { machine with stats := { machine.stats with nOpCount := (machine.stats.nOpCount + count) % 2 ^ 32 } }
  let machine ← get
  abortIf (machine.maxOps < machine.stats.nOpCount) .opCount

/-- The signatures of `OP_CHECKMULTISIG`, each checked with the key that its bit selects. There are as many
bits as signatures, so neither runs out. -/
def multisigVerify (nKeysCount nSigsCount : ℕ) (vchDummy : Bytes) : ScriptM Unit := do
  let machine ← get
  let minimal ← fRequireMinimal
  let checkBits ← liftExcept
    (decodeBitfield vchDummy nKeysCount (machine.flags.has ENFORCE_STACK_TOTAL) minimal)
  abortIf ((selectedKeys checkBits).length ≠ nSigsCount) .invalidBitCount
  let idxBottomKey := nKeysCount + 1
  let idxBottomSig := nKeysCount + 2 + nSigsCount
  checkSignatures context (machine.script.drop machine.pbegincodehash)
    ((selectedKeys checkBits).mapIdx fun iSig iKey => (idxBottomSig - iSig, idxBottomKey - iKey))

/-- With an empty bit field the operation fails softly and checks nothing. The number of signatures is
added to the count without a test against its limit. -/
def opCheckMultiSig : ScriptM Unit := do
  let nKeysCount ← multisigKeyCount
  countOps nKeysCount
  let nSigsCount ← multisigSigCount nKeysCount
  let idxDummy := nKeysCount + 2 + nSigsCount + 1
  let vchDummy ← stacktop idxDummy
  let fSuccess : Bool := vchDummy ≠ []
  if fSuccess then do
    addSigChecks nSigsCount
    multisigVerify context nKeysCount nSigsCount vchDummy
  else pure ()
  popMany idxDummy
  if verify then abortIf (fSuccess = false) .checkMultiSigVerify else pushStack (.ofBool fSuccess)

/-- `OP_MERKLEROOT`, with a `PopStack` for each argument and a `PushStack` for each result. -/
def opMerkleRootStack : ScriptM Unit := do
  let opMerkleRootEnabled ← hasFlag FORK1_OPCODES
  abortIf (opMerkleRootEnabled = false) .badOpcode
  let machine ← get
  let newStack ← liftExcept (opMerkleRoot context.ripemd160 context.beyond machine.stack)
  let countItem ← stackItemAt 2
  let numElements ← liftExcept (countItem.asUint64 false)
  let arguments := 3 + numElements
  let results := newStack.take (newStack.length - (machine.stack.length - arguments))
  popMany arguments
  pushMany results.reverse

/-! ## OP_EXEC -/

/-- A difference of `unsigned int`s. -/
def subUInt32 (a b : ℕ) : ℕ := (((a : ℤ) - b) % 2 ^ 32).toNat

def execMachine (parent : ScriptMachine) : ScriptMachine :=
  let child := ScriptMachine.create parent.flags (subUInt32 parent.maxOps parent.stats.nOpCount)
    (subUInt32 parent.maxConsensusSigOps parent.stats.consensusSigCheckCount)
  { child with stats := { child.stats with nOpExecDepth := parent.stats.nOpExecDepth + 1 } }

/-- A program of the child, inside one of its parent. -/
def inChild {α : Type} (program : ScriptM α) (child : ScriptMachine) : ScriptM ScriptMachine :=
  match program child with
  | .ok _ child => pure child
  | .error halt _ => throw halt

/-- The parameters move from the stack of the parent to that of the child, the top first. -/
def moveParameters : ℕ → ScriptMachine → ScriptM ScriptMachine
  | 0, child => pure child
  | count + 1, child => do
    let parameter ← stacktop 1
    let child ← inChild (pushStack (.vch parameter)) child
    popStack
    moveParameters count child

/-- What `OP_EXEC` takes from the stack: a machine with its parameters, its code and the number of its
results. -/
structure ExecCall where
  child : ScriptMachine
  code : CScript
  returnedParamQty : ℤ

/-- `OP_EXEC` until the child is evaluated. -/
def prepareExec : ScriptM ExecCall := do
  let machine ← get
  abortIf (machine.maxOpExecDepth ≤ machine.stats.nOpExecDepth) .execDepthExceeded
  abortIf (machine.maxOpExec ≤ machine.stats.nOpExec) .execCountExceeded
  requireItems 2
  let minimal ← fRequireMinimal
  let returnedItem ← stackItemAt 1
  let returnedParamQty ← liftExcept (returnedItem.asInt64 minimal)
  let paramItem ← stackItemAt 2
  let paramQty ← liftExcept (paramItem.asInt64 minimal)
  abortIf (paramQty < 0) .invalidStackOperation
  abortIf (machine.stack.length < 3 + paramQty) .invalidStackOperation
  let code ← stacktop (3 + paramQty.toNat)
  popMany 2
  let child ← moveParameters paramQty.toNat (execMachine machine)
  popStack
  let machine ← get
  modify fun machine => { machine with stats := { machine.stats with nOpExec := machine.stats.nOpExec + 1 } }
  pure
    { child := { child with maxStackUse := subUInt32 machine.maxStackUse machine.stackUse }
      code
      returnedParamQty }

/-- The statistics of a child are added to those of its parent. -/
def updateStats (child : ScriptMachine) : ScriptM Unit := do
  modify fun machine => { machine with stats := machine.stats.update child.stats machine.stackUse }
  let machine ← get
  abortIf (Nexa.maxOpExec < machine.stats.nOpExec) .execCountExceeded

/-- `OP_EXEC` after the child is evaluated. An error of the child is one of the parent. -/
def finishExec (call : ExecCall) : EStateM.Result Halt ScriptMachine Unit → ScriptM Unit
  | .error (.error error) child => do
    updateStats child
    abort error
  | .error halt _ => throw halt
  | .ok _ child => do
    updateStats child
    abortIf (call.returnedParamQty < 0) .invalidStackOperation
    abortIf (child.stack.length < call.returnedParamQty) .invalidStackOperation
    pushMany (child.stack.take call.returnedParamQty.toNat).reverse

variable (evalChild : CScript → ScriptM Unit)

def opExec : ScriptM Unit := do
  let call ← prepareExec
  finishExec call (evalChild call.code call.child)

/-! ## Steps -/

/-- The switch over the opcode. -/
def execute (fExec : Bool) : Opcode → ScriptM Unit
  | .number n => pushStack (.ofInt n)
  | .nop => pure ()
  | .checkLockTimeVerify => opCheckLockTimeVerify context
  | .checkSequenceVerify => opCheckSequenceVerify context
  | .upgradableNop => opUpgradableNop
  | .lshift => opShift true
  | .rshift => opShift false
  | .pushTxState => opPushTxState context
  | .exec => opExec evalChild
  | .jump => opJump
  | .ifTrue => opIf fExec false
  | .notIf => opIf fExec true
  | .elseBranch => opElse
  | .endIf => opEndIf
  | .verify => opVerify
  | .opReturn => abort .opReturn
  | .toAltStack => opToAltStack
  | .fromAltStack => opFromAltStack
  | .drop2 => opDrop 2
  | .dup2 => opDup 2 2
  | .dup3 => opDup 3 3
  | .over2 => opDup 4 2
  | .rot2 => opRearrange [5, 6, 1, 2, 3, 4]
  | .swap2 => opRearrange [3, 4, 1, 2]
  | .ifDup => opIfDup
  | .depth => opDepth
  | .drop => opDrop 1
  | .dup => opDup 1 1
  | .nip => opNip
  | .over1 => opDup 2 1
  | .pick => opPickRoll false
  | .roll => opPickRoll true
  | .rot => opRearrange [3, 1, 2]
  | .swap => opRearrange [2, 1]
  | .tuck => opTuck
  | .size => opSize
  | .store => opStore
  | .load => opLoad
  | .bitwise op => opBitwise op
  | .equal verify => opEqual verify
  | .unary op => opUnary op
  | .binary op => opBinary op
  | .within => opWithin
  | .hash op => opHash context op
  | .codeSeparator => opCodeSeparator
  | .checkSig verify => opCheckSig context verify
  | .checkMultiSig verify => opCheckMultiSig context verify
  | .checkDataSig verify => opCheckDataSig context verify
  | .cat => opCat
  | .split => opSplit
  | .reverseBytes => opReverseBytes
  | .txField field => opTxField context field
  | .inputField field => opInputField context field
  | .outputField field => opOutputField context field
  | .parse => opParse context
  | .place => opPlace
  | .setBmd => opSetBmd
  | .bin2BigNum => opBin2BigNum
  | .num2Bin => opNum2Bin
  | .bin2Num => opBin2Num
  | .merkleRoot => opMerkleRootStack context
  | .unknown => abort .badOpcode

/-- `CheckMinimalPush` of a push of data. -/
def checkMinimalPush (data : Bytes) (opcode : ℕ) : Bool :=
  if data = [] then opcode = OP_0
  else if data.length = 1 ∧ (1 ≤ natLE data ∧ natLE data ≤ 16 ∨ natLE data = 0x81) then false
  else if data.length ≤ 75 then opcode = data.length
  else if data.length ≤ 255 then opcode = OP_PUSHDATA1
  else if data.length ≤ 65535 then opcode = OP_PUSHDATA2
  else true

def readInstruction : ScriptM (ℕ × Bytes) := do
  let machine ← get
  match getOp (machine.script.drop machine.pc) with
  | none => abort .badOpcode
  | some (instruction, rest) => do
    setPc (machine.script.length - rest.length)
    pure instruction

/-- The opcodes that take effect in a branch that is not taken. Before upgrade 2 these include `OP_JUMP`. -/
def isIfControlOpcode (opcode : ℕ) (upgrade2 : Bool) : Bool :=
  if upgrade2 then opcode = OP_IF ∨ opcode = OP_ELSE ∨ opcode = OP_ENDIF ∨ opcode = OP_NOTIF
  else OP_IF ≤ opcode ∧ opcode ≤ OP_ENDIF

/-- The tests in front of the switch. -/
def fetch : ScriptM (ℕ × Bytes) := do
  let (opcode, vchPushValue) ← readInstruction
  let machine ← get
  abortIf (withinStackWidth vchPushValue.length machine.flags = false) .pushSize
  if OP_16 < opcode then countOps 1 else pure ()
  abortIf (isOpcodeDisabled opcode = true) .disabledOpcode
  pure (opcode, vchPushValue)

def pushData (opcode : ℕ) (vchPushValue : Bytes) : ScriptM Unit := do
  let minimal ← fRequireMinimal
  abortIf (minimal = true ∧ checkMinimalPush vchPushValue opcode = false) .minimalData
  pushStack (.vch vchPushValue)

def limitStackItems : ScriptM Unit := do
  modify fun machine =>
    { machine with
      stats := { machine.stats with maxStackItems := max machine.stats.maxStackItems machine.stackItems } }
  let machine ← get
  abortIf (machine.maxStackItems < machine.stackItems) .stackSize

/-- The push of the data of an instruction, or the switch. -/
def dispatch (fExec upgrade2 : Bool) (opcode : ℕ)
    (vchPushValue : Bytes) : ScriptM Unit :=
  if fExec ∧ opcode ≤ OP_PUSHDATA4 then pushData opcode vchPushValue
  else if fExec ∨ isIfControlOpcode opcode upgrade2 then execute context evalChild fExec (Opcode.ofByte opcode)
  else pure ()

def step : ScriptM Unit := do
  let machine ← get
  let (opcode, vchPushValue) ← fetch
  dispatch context evalChild machine.vfExec.allTrue (machine.flags.has UPGRADE2_OPCODES) opcode vchPushValue
  limitStackItems

/-! ## Evaluation -/

def beginStep (script : CScript) : ScriptM Unit := do
  modify fun machine =>
    { machine with
      script
      pc := 0
      pbegincodehash := 0
      stats := { machine.stats with nOpCount := 0 }
      vfExec := {} }
  let machine ← get
  abortIf (machine.maxScriptSize < script.length) .scriptSize

def endStep : ScriptM Unit := do
  let machine ← get
  abortIf (machine.vfExec.empty = false) .unbalancedConditional

/-- The loop of `Eval`. A child has one round less than its parent. -/
def stepLoop (context : ScriptContext) : ℕ → ScriptM Unit
  | 0 => throw .unfinished
  | rounds + 1 => do
    let machine ← get
    if machine.pc < machine.script.length then do
      step context fun code => do
        beginStep code
        stepLoop context rounds
        endStep
      stepLoop context rounds
    else pure ()

def eval (rounds : ℕ) (script : CScript) : ScriptM Unit := do
  beginStep script
  stepLoop context rounds
  endStep

end Nexa
