import Nexa.Model.Consensus.TxVerify
import Nexa.Model.Script.ScriptMachine

/-! # Opcodes that read the transaction

The introspection opcodes, `OP_PUSH_TX_STATE` of `pushtxstate.cpp` and `OP_PARSE` of `op_parse.cpp`: they
push data about the transaction, the coins it spends and the groups of its outputs.
-/

namespace Nexa

open CScriptNum

variable (context : ScriptContext)

/-! ## Introspection -/

/-- A push of a script, which must not be wider than an item may be. -/
def pushScript (script : CScript) : ScriptM Unit := do
  let machine ← get
  abortIf (withinStackWidth script.length machine.flags = false) .pushSize
  pushStack (.vch script)

/-- The push of an amount through `CScriptNum::fromInt`. -/
def pushAmount (amount : CAmount) : ScriptM Unit := do
  let bn ← liftExcept (fromInt amount.toInt)
  pushStack (.ofInt bn)

def opTxField (field : TxField) : ScriptM Unit := do
  let tx ← dataRequired context.sis.tx
  match field with
  | .inputIndex => pushStack (.ofInt context.sis.nIn.toNat)
  | .activeBytecode => do
    let machine ← get
    pushScript (machine.script.drop machine.pbegincodehash)
  | .txVersion => pushStack (.ofInt tx.nVersion.toNat)
  | .txInputCount => pushStack (.ofInt tx.vin.length)
  | .txOutputCount => pushStack (.ofInt tx.vout.length)
  | .txLockTime => pushStack (.ofInt tx.nLockTime.toNat)

/-- `CScriptNum::getint32`, which saturates. -/
def getInt32 (value : ℤ) : ℤ := if 2 ^ 31 ≤ value then 2 ^ 31 - 1 else if value < -2 ^ 31 then -2 ^ 31 else value

/-- The element with an index from the stack, which may be negative or too large. -/
def elementAt {α : Type} (list : List α) (index : ℤ) (error : ScriptError) : ScriptM α :=
  match if index < 0 then none else list[index.toNat]? with
  | some a => pure a
  | none => abort error

def opInputField (field : InputField) : ScriptM Unit := do
  let tx ← dataRequired context.sis.tx
  requireItems 1
  let top ← scriptNumAt 1 maximumElementSize
  popStack
  let idx := getInt32 top
  let input ← elementAt tx.vin idx .invalidTxInputIndex
  match field with
  | .utxoValue => do
    let coin ← dataRequired context.sis.spentCoins[idx.toNat]?
    pushAmount coin.nValue
  | .utxoBytecode => do
    let coin ← dataRequired context.sis.spentCoins[idx.toNat]?
    pushScript coin.scriptPubKey
  | .outpointHash => pushStack (.vch input.prevout.hash.toBytes)
  | .inputBytecode => pushScript input.scriptSig
  | .inputType => do
    let extendedIntrospectionEnabled ← hasFlag .FORK1_OPCODES
    abortIf (extendedIntrospectionEnabled = false) .badOpcode
    pushStack (.ofInt input.type.toNat)
  | .inputValue => do
    let extendedIntrospectionEnabled ← hasFlag .FORK1_OPCODES
    abortIf (extendedIntrospectionEnabled = false) .badOpcode
    pushAmount input.amount
  | .inputSequenceNumber => pushStack (.ofInt input.nSequence.toNat)

def opOutputField (field : OutputField) : ScriptM Unit := do
  let tx ← dataRequired context.sis.tx
  requireItems 1
  let top ← scriptNumAt 1 maximumElementSize
  popStack
  let output ← elementAt tx.vout (getInt32 top) .invalidTxOutputIndex
  match field with
  | .outputValue => pushAmount output.nValue
  | .outputBytecode => pushScript output.scriptPubKey
  | .outputType => do
    let extendedIntrospectionEnabled ← hasFlag .FORK1_OPCODES
    abortIf (extendedIntrospectionEnabled = false) .badOpcode
    pushStack (.ofInt output.type.toNat)

/-! ## OP_PUSH_TX_STATE -/

/-- The index of the output number `nth` of the group among those from index `vIdx` on. -/
def groupNth (grpId : CGroupTokenID) : ℕ → ℕ → List CTxOut → Option ℕ
  | _, _, [] => none
  | nth, vIdx, outp :: rest =>
    if (CGroupTokenInfo.ofTxOut outp).associatedGroup = grpId then
      match nth with
      | 0 => some vIdx
      | nth + 1 => groupNth grpId nth (vIdx + 1) rest
    else groupNth grpId nth (vIdx + 1) rest

/-- The specifiers `GROUP_NTH_INPUT` and `GROUP_NTH_OUTPUT`, given the outputs that are searched. -/
def pushGroupNth (arguments : Bytes) (outputs : List CTxOut) : ScriptM Unit := do
  abortIf (arguments.length < 2) .invalidStateSpecifier
  let nth := StackItem.scriptNum (arguments.take 2)
  abortIf (nth < 0 ∨ maxTxNumVout ≤ nth) .invalidStateSpecifier
  let grpId := arguments.drop 2
  abortIf (grpId.length < 32) .invalidStateSpecifier
  match groupNth grpId nth.toNat 0 outputs with
  | some vIdx => pushStack (.ofInt vIdx)
  | none => abort .invalidStateSpecifier

/-- The specifiers that take a group only, given what they push of its balance. A group that the
transaction does not have is pushed as that of an empty balance. -/
def pushGroupState (grpId : CGroupTokenID) (part : GroupBalance → StackItem) : ScriptM Unit := do
  let groupState ← dataRequired context.sis.groupState
  abortIf (grpId.length < 32) .invalidStateSpecifier
  pushStack (part (if grpId ∈ groupState.groups then groupState.balance grpId else {}))

def evalPushTxState (specifier : Bytes) : ScriptM Unit :=
  match specifier with
  | [] => abort .invalidStateSpecifier
  | kind :: arguments => do
    let tx ← dataRequired context.sis.tx
    match kind.toNat with
    | 0x2 => pushStack (.vch tx.getId.toBytes)
    | 0x3 => pushStack (.vch tx.getIdem.toBytes)
    | 0x5 => pushStack (.ofInt context.sis.txInAmount.toInt)
    | 0x6 => pushStack (.ofInt context.sis.txOutAmount.toInt)
    | 0x7 => pushGroupState context arguments fun gb => .ofInt gb.input.toInt
    | 0x8 => pushGroupState context arguments fun gb => .ofInt gb.output.toInt
    | 0x9 => pushGroupState context arguments fun gb => .ofInt gb.numInputs
    | 0xa => pushGroupState context arguments fun gb => .ofInt gb.numOutputs
    | 0xb => pushGroupNth arguments context.sis.spentCoins
    | 0xc => pushGroupNth arguments tx.vout
    | 0xd => pushGroupState context arguments fun gb => .vch gb.covenant
    | _ => abort .invalidStateSpecifier

def opPushTxState : ScriptM Unit := do
  requireItems 1
  let s ← stackItemAt 1
  match s with
  | .bigNum _ => abort .badOpOnType
  | .vch specifier => do
    popStack
    evalPushTxState context specifier

/-! ## OP_PARSE -/

def pushedItem (opcode : ℕ) (pushedData : Bytes) : StackItem :=
  if OP_1 ≤ opcode ∧ opcode ≤ OP_16 ∨ opcode = OP_1NEGATE then .ofInt (opcode - (OP_1 - 1)) else .vch pushedData

/-- `GetOp` until it fails. -/
def readOps : ℕ → CScript → List (ℕ × Bytes)
  | 0, _ => []
  | rounds + 1, rest =>
    match getOp rest with
    | none => []
    | some (op, rest) => op :: readOps rounds rest

/-- `GetOp` from the start of a script, where `firstOp` finds nothing in 2^31 bytes or more. -/
def CScript.getOps (script : CScript) : List (ℕ × Bytes) :=
  if 2 ^ 31 ≤ script.length then [] else readOps (script.length + 1) script

/-- The loop of `EvalParseBytecode`; each round reads at least one byte. -/
def parseLoop (first count : ℕ) : ℕ → CScript → ℕ → ℕ → ScriptM Unit
  | 0, _, _, _ => abort .parse
  | rounds + 1, rest, pushPos, pushedCount =>
    match getOp rest with
    | none => abort .parse
    | some ((opcode, pushedData), rest) =>
      if isPushOpcode opcode then
        if first ≤ pushPos then do
          pushStack (pushedItem opcode pushedData)
          if pushedCount + 1 = count then pure ()
          else parseLoop first count rounds rest (pushPos + 1) (pushedCount + 1)
        else parseLoop first count rounds rest (pushPos + 1) pushedCount
      else parseLoop first count rounds rest pushPos pushedCount

variable (first count : ℕ)

def evalParseBytecode (script : CScript) : ScriptM Unit :=
  if count = 0 then pure () else parseLoop first count script.length script 0 0

/-- The pushes of both template parsers: from eight fields first, then from the pushes of a script. -/
def parseFields (fields : List StackItem) (rest : CScript) : ScriptM Unit := do
  let requested := (fields.drop first).take count
  pushMany requested
  if requested.length < count then evalParseBytecode (first - fields.length) (count - requested.length) rest
  else pure ()

/-- The group of a locking script, its amount and its authority flags. -/
def groupFields (grp : CGroupTokenInfo) (upgrade2 : Bool) : List StackItem :=
  let zero : StackItem := .vch []
  if grp.associatedGroup = CGroupTokenID.NoGroup then [zero, zero, zero]
  else if grp.isAuthority then
    let flags := grp.controllingGroupFlags
    [.vch grp.associatedGroup, zero, if upgrade2 then .vch (bytesLE 8 flags.toNat) else .ofInt flags.toInt]
  else [.vch grp.associatedGroup, .ofInt grp.quantity.toInt, zero]

def evalParseCanonicalLockingBytecode (script : CScript) : ScriptM Unit := do
  let upgrade2 ← hasFlag .UPGRADE2_OPCODES
  if count = 0 then pure ()
  else
    match getScriptTemplate script .template with
    | .ok templateHash hiddenArgsHash rest =>
      let grp := (isScriptGrouped script .template).1
      let zero : StackItem := .vch []
      parseFields first count
        (groupFields grp upgrade2 ++ [.vch templateHash, .vch hiddenArgsHash, zero, zero, zero]) rest
    | _ => abort .parse

/-! The template that a spend is checked against is either the well-known one or the first push of the
satisfier script. -/

/-- `p2pkt`, the one well-known template: `OP_FROMALTSTACK OP_CHECKSIGVERIFY`. -/
def p2pkt : CScript := [0x6c, 0xad]

def p2pktId : Bytes := [1]

def hash160 (message : Bytes) : Bytes := context.ripemd160.hash (Sha256.hash message)

/-- The hash of a script is of one of two kinds, told apart by their length. -/
def isPreimage (script hash : Bytes) : Bool :=
  if hash.length = 20 then hash160 context script = hash
  else if hash.length = 32 then Sha256.hash (Sha256.hash script) = hash
  else false

/-- `LoadCheckTemplateHash`: the template and the rest of the satisfier script. -/
def loadCheckTemplateHash (scriptSig : CScript) (templateHash : Bytes) : Except ScriptError (CScript × CScript) :=
  if 0 < templateHash.length ∧ templateHash.length ≤ 2 then
    if templateHash = p2pktId then .ok (p2pkt, scriptSig) else .error .template
  else
    match getOp scriptSig with
    | none => .error .template
    | some ((_, templateScript), rest) =>
      if isPreimage context templateScript templateHash then .ok (templateScript, rest) else .error .template

def evalParseUnlockingTemplateBytecode (unlockingScript lockingScript : CScript) : ScriptM Unit :=
  if count = 0 then pure ()
  else
    match getScriptTemplate lockingScript .template with
    | .ok templateHash hiddenArgsHash _ => do
      let (templateScript, satisfier) ← liftExcept (loadCheckTemplateHash context unlockingScript templateHash)
      let (hiddenArgs, satisfier) ←
        if hiddenArgsHash = [] then pure ([], satisfier)
        else
          match getOp satisfier with
          | none => abort .template
          | some ((_, hiddenArgs), satisfier) => pure (hiddenArgs, satisfier)
      parseFields first count ([.vch templateScript, .vch hiddenArgs] ++ List.replicate 6 (.vch [])) satisfier
    | _ => abort .parse

/-- `CScriptNum(stackItemAt(…), false, 8)`, as `OP_PARSE` reads its arguments. -/
def parseArgument (depth : ℕ) : ScriptM ℤ := do
  let vch ← stacktop depth
  liftExcept (ofVch vch false maximumElementSize)

/-- The three arguments of the options that read an input or an output. -/
def parseArguments : ScriptM (ℕ × ℕ × ℕ) := do
  requireItems 3
  let count ← parseArgument 1
  let first ← parseArgument 2
  let which ← parseArgument 3
  popMany 3
  abortIf (first < 0 ∨ count < 0 ∨ which < 0) .invalidNumberRange
  pure (first.toNat, count.toNat, which.toNat)

/-- The locking script of an output by its type. -/
def evalParseOutput (output : CTxOut) : ScriptM Unit :=
  if output.type = CTxOut.TEMPLATE then evalParseCanonicalLockingBytecode first count output.scriptPubKey
  else if output.type = CTxOut.SATOSCRIPT then evalParseBytecode first count output.scriptPubKey
  else abort .badOpOnType

def opParse : ScriptM Unit := do
  let opParseEnabled ← hasFlag .FORK1_OPCODES
  abortIf (opParseEnabled = false) .badOpcode
  requireItems 1
  let option ← stacktop 1
  let parseOption ← liftExcept (ofVch option true 1)
  popStack
  if parseOption = 0 then do
    let (first, count, whichOutput) ← parseArguments
    let tx ← dereference context.sis.tx
    let output ← elementAt tx.vout whichOutput .invalidTxOutputIndex
    evalParseOutput first count output
  else if parseOption = 1 then do
    let tx ← dereference context.sis.tx
    abortIf (context.sis.spentCoins.length ≠ tx.vin.length) .dataRequired
    let (first, count, whichInput) ← parseArguments
    let coin ← elementAt context.sis.spentCoins whichInput .invalidTxInputIndex
    evalParseOutput first count coin
  else if parseOption = 2 then do
    let tx ← dereference context.sis.tx
    abortIf (context.sis.spentCoins.length ≠ tx.vin.length) .dataRequired
    let (first, count, whichInput) ← parseArguments
    let input ← elementAt tx.vin whichInput .invalidTxInputIndex
    let coin ← elementAt context.sis.spentCoins whichInput .invalidTxInputIndex
    if coin.type = CTxOut.TEMPLATE then
      evalParseUnlockingTemplateBytecode context first count input.scriptSig coin.scriptPubKey
    else if coin.type = CTxOut.SATOSCRIPT then evalParseBytecode first count input.scriptSig
    else abort .badOpOnType
  else if parseOption = 3 then do
    requireItems 3
    let count ← parseArgument 1
    let first ← parseArgument 2
    let serializedScript ← stackItemAt 3
    popMany 3
    abortIf (first < 0 ∨ count < 0) .invalidNumberRange
    evalParseBytecode first.toNat count.toNat serializedScript.asVch
  else abort .badOpcode

end Nexa
