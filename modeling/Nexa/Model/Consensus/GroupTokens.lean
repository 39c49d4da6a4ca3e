import Nexa.Model.Coins.CoinsView

/-! # Group tokens

An output script may start with a group and a quantity. A negative quantity makes the output an
authority, whose flags are the bits of the quantity. `CheckGroupTokens` gathers a balance for each
group in passes over the outputs and the inputs, hands the capabilities of parent groups down to
their subgroups, and then compares the totals and permissions of each group.
-/

namespace Nexa

/-! ## Groups and their flags -/

abbrev GroupAuthorityFlags := BitVec 64

namespace GroupAuthorityFlags

def AUTHORITY : GroupAuthorityFlags := 1 <<< 63
def MINT : GroupAuthorityFlags := 1 <<< 62
def MELT : GroupAuthorityFlags := 1 <<< 61
def BATON : GroupAuthorityFlags := 1 <<< 60
def RESCRIPT : GroupAuthorityFlags := 1 <<< 59
def SUBGROUP : GroupAuthorityFlags := 1 <<< 58
def NONE : GroupAuthorityFlags := 0
def ACTIVE_FLAG_BITS : GroupAuthorityFlags := AUTHORITY ||| MINT ||| MELT ||| BATON ||| RESCRIPT ||| SUBGROUP
def ALL_FLAG_BITS : GroupAuthorityFlags := 0xffff <<< 48
def RESERVED_FLAG_BITS : GroupAuthorityFlags := ACTIVE_FLAG_BITS &&& ~~~ALL_FLAG_BITS

def hasCapability (object capability : GroupAuthorityFlags) : Bool := object &&& capability ≠ 0

end GroupAuthorityFlags

abbrev CGroupTokenID := Bytes

namespace CGroupTokenID

def PARENT_GROUP_ID_SIZE : ℕ := 32

/-- `NoGroup`, the group of the native coin. -/
def NoGroup : CGroupTokenID := []

/-- The flags `COVENANT` and `HOLDS_NEX` of a group and the reserved ones. -/
def COVENANT : BitVec 16 := 1
def HOLDS_NEX : BitVec 16 := 2
def GROUP_RESERVED_BITS : BitVec 16 := 0xffff &&& ~~~(COVENANT ||| HOLDS_NEX)

variable (group : CGroupTokenID)

/-- Bytes 30 and 31 of a group. -/
def flags : BitVec 16 := BitVec.ofNat 16 ((group.getD 30 0).toNat * 256 + (group.getD 31 0).toNat)

def hasFlag (flag : BitVec 16) : Bool := PARENT_GROUP_ID_SIZE ≤ group.length ∧ group.flags &&& flag = flag

def isSubgroup : Bool := PARENT_GROUP_ID_SIZE < group.length

def parentGroup : CGroupTokenID := group.take PARENT_GROUP_ID_SIZE

end CGroupTokenID

open GroupAuthorityFlags CGroupTokenID

/-! ## The data prefix of a script -/

/-- The default is that of `clear`: no group, and not invalid. -/
structure CGroupTokenInfo where
  associatedGroup : CGroupTokenID := NoGroup
  controllingGroupFlags : GroupAuthorityFlags := NONE
  quantity : CAmount := 0
  invalid : Bool := false
deriving DecidableEq, Repr

def deserializeAmount (vec : Bytes) : Option CAmount :=
  if vec.length = 2 ∨ vec.length = 4 ∨ vec.length = 8 then some (UInt64.ofNat (natLE vec)).toInt64 else none

/-- `IsScriptGrouped`: the group data, and the rest of the script unless it is malformed. -/
def isScriptGrouped (script : CScript) : ScriptType → CGroupTokenInfo × Option Bytes
  | .satoscript => ({}, some script)
  | .template =>
    match firstOp script with
    | none => ({ invalid := true }, none)
    | some ((opcodeGrp, groupId), pc) =>
      if opcodeGrp = OP_0 then ({}, some pc)
      else
        match getOp pc with
        | none => ({ invalid := true }, none)
        | some ((opcodeQty, tokenQty), pc) =>
          if opcodeGrp < 0x20 ∨ OP_PUSHDATA4 < opcodeGrp then ({ invalid := true }, none)
          else if groupId.length < 0x20 then ({ invalid := true }, none)
          else if opcodeQty ≠ 2 ∧ opcodeQty ≠ 4 ∧ opcodeQty ≠ 8 then ({ invalid := true }, none)
          else
            match deserializeAmount tokenQty with
            | none => ({ invalid := true }, none)
            | some quantity =>
              let controllingGroupFlags := if quantity.toInt < 0 then quantity.toUInt64.toBitVec else NONE
              ({ associatedGroup := groupId, controllingGroupFlags, quantity }, some pc)

/-- The constructor `CGroupTokenInfo(const CTxOut &)`. -/
def CGroupTokenInfo.ofTxOut (output : CTxOut) : CGroupTokenInfo :=
  (isScriptGrouped output.scriptPubKey output.scriptType).1

namespace CGroupTokenInfo

variable (info : CGroupTokenInfo)

def isAuthority : Bool := info.controllingGroupFlags &&& AUTHORITY = AUTHORITY

def allowsRenew : Bool := info.controllingGroupFlags &&& (AUTHORITY ||| BATON) = AUTHORITY ||| BATON

/-- The test that `allowsMint` and the functions next to it make for their flag. -/
def allows (capability : GroupAuthorityFlags) : Bool :=
  info.controllingGroupFlags &&& (AUTHORITY ||| capability) = AUTHORITY ||| capability

def allowsMint : Bool := info.allows MINT
def allowsMelt : Bool := info.allows MELT
def allowsRescript : Bool := info.allows RESCRIPT
def allowsSubgroup : Bool := info.allows SUBGROUP

/-- The bits of the quantity below the flags. -/
def nonce : BitVec 64 := info.quantity.toUInt64.toBitVec &&& ~~~ALL_FLAG_BITS

/-- `isGroupCreation`: an authority with a nonce, of a group with the given flags. -/
def isGroupCreation (tokenGroupIdFlags : BitVec 16) : Bool :=
  info.isAuthority && info.nonce ≠ 0 && info.associatedGroup.hasFlag tokenGroupIdFlags

end CGroupTokenInfo

/-- `GetScriptTemplate`: the template and argument hashes and the visible arguments, or the error. -/
inductive ScriptTemplateResult where
  | ok (templateHash hiddenArgsHash rest : Bytes)
  | notATemplate
  | invalid
deriving DecidableEq, Repr

/-- `NumericOpcodeToVector` on the opcode and data of a push. -/
def numericOpcodeToVector (opcode : ℕ) (templateHash : Bytes) : Bytes := if opcode = OP_1 then [1] else templateHash

/-- `ParseWellKnownTemplateHashArg`: a hash of 20 or 32 bytes, or the one well known identifier. -/
def isTemplateHash (templateHash : Bytes) : Bool :=
  templateHash.length = 20 ∨ templateHash.length = 32 ∨ templateHash = [1]

def getScriptTemplate (script : CScript) : ScriptType → ScriptTemplateResult
  | .satoscript => .notATemplate
  | .template =>
    match (isScriptGrouped script .template).2 with
    | none => .invalid
    | some pc =>
      match getOp pc with
      | none => .invalid
      | some ((opcode, data), pc) =>
        let templateHash := numericOpcodeToVector opcode data
        if !isPushOpcode opcode || !isTemplateHash templateHash then .invalid
        else
          match getOp pc with
          | none => .invalid
          | some ((opcode, hiddenArgsHash), pc) =>
            if !isPushOpcode opcode then .invalid else .ok templateHash hiddenArgsHash pc

/-- The template hash that `GetScriptTemplate` leaves in `contractId`. -/
def ScriptTemplateResult.contractId : ScriptTemplateResult → Bytes
  | .ok templateHash _ _ => templateHash
  | .notATemplate => []
  | .invalid => []

/-! ## Balances -/

structure GroupBalance where
  ctrlPerms : GroupAuthorityFlags := NONE
  allowedCtrlOutputPerms : GroupAuthorityFlags := NONE
  allowedSubgroupCtrlOutputPerms : GroupAuthorityFlags := NONE
  ctrlOutputPerms : GroupAuthorityFlags := NONE
  input : CAmount := 0
  output : CAmount := 0
  numOutputs : ℕ := 0
  numInputs : ℕ := 0
  covenant : Bytes := []
deriving DecidableEq, Repr

/-- The balances by group, and the groups that have one. `operator[]` creates an empty balance, so
that a group without one may be read as an empty balance too. -/
structure GroupBalanceMap where
  groups : List CGroupTokenID := []
  balance : CGroupTokenID → GroupBalance := fun _ => {}

variable (gBalance : GroupBalanceMap)

/-- Changes one balance, which is created first if need be. -/
def GroupBalanceMap.modify (group : CGroupTokenID) (f : GroupBalance → GroupBalance) :
    GroupBalanceMap where
  groups := gBalance.groups.insert group
  balance := Function.update gBalance.balance group (f (gBalance.balance group))

/-- `std::numeric_limits<CAmount>::max() - total < amount` and the addition that the test guards. -/
def addTokens (total amount : CAmount) : Validation CAmount := do
  let room ← CAmount.ofResult (Int64.maxValue.toInt - total.toInt)
  invalidIf (room.toInt < amount.toInt) .invalid "token overflow" ""
  total.add amount

/-- The amount an output of a group stands for: the coins themselves if the group holds coins. -/
def tokenAmount (output : CTxOut) : CAmount :=
  if (CGroupTokenInfo.ofTxOut output).associatedGroup.hasFlag HOLDS_NEX then output.nValue
  else (CGroupTokenInfo.ofTxOut output).quantity

/-- The body of the first loop of `CheckGroupTokens` for an output of a group. -/
def tallyOutput (outp : CTxOut) (bal : GroupBalance) : Validation GroupBalance := do
  let tokenGrp := CGroupTokenInfo.ofTxOut outp
  let bal := { bal with numOutputs := bal.numOutputs + 1 }
  invalidIf (tokenGrp.associatedGroup.hasFlag HOLDS_NEX ∧ 0 < tokenGrp.quantity.toInt) .invalid
    "fenced groups must hold 0 tokens" ""
  let quantity := tokenAmount outp
  if tokenGrp.isAuthority then
    pure { bal with ctrlOutputPerms := bal.ctrlOutputPerms ||| tokenGrp.controllingGroupFlags }
  else if 0 < quantity.toInt then do
    let output ← addTokens bal.output quantity
    pure { bal with output }
  else do
    invalidIf (quantity.toInt = 0) .invalid "GROUP quantity is zero" ""
    pure bal

/-- The first loop of `CheckGroupTokens`, over the outputs. -/
def tallyOutputs : List CTxOut → GroupBalanceMap → Validation GroupBalanceMap
  | [], gBalance => pure gBalance
  | outp :: rest, gBalance => do
    let tokenGrp := CGroupTokenInfo.ofTxOut outp
    invalidIf tokenGrp.invalid .invalid "bad GROUP" ""
    if tokenGrp.associatedGroup = NoGroup then tallyOutputs rest gBalance
    else do
      let bal ← tallyOutput outp (gBalance.balance tokenGrp.associatedGroup)
      tallyOutputs rest (gBalance.modify tokenGrp.associatedGroup fun _ => bal)

/-- `firstOpReturn`: the first output script of value 0 that starts with `OP_RETURN`, or nothing. -/
def firstOpReturn (vout : List CTxOut) : CScript :=
  match vout.find? fun outp => outp.nValue.toInt = 0 ∧ outp.scriptPubKey.head?.map UInt8.toNat = some OP_RETURN with
  | none => []
  | some outp => outp.scriptPubKey

/-- Whether an input counts: a read-only one only if it is an authority with `BATON` and is signed. -/
def countsInput (inp : CTxIn) (tokenGrp : CGroupTokenInfo) : Bool :=
  !tokenGrp.invalid && (!inp.isReadOnly || (tokenGrp.isAuthority && tokenGrp.allowsRenew && inp.scriptSig.length ≠ 0))

/-- The permissions of a balance after an input with the given authority flags. -/
def addAuthority (flags : GroupAuthorityFlags) (bal : GroupBalance) : GroupBalance :=
  if flags = NONE then bal
  else
    { bal with
      ctrlPerms := bal.ctrlPerms ||| flags
      allowedCtrlOutputPerms :=
        if hasCapability flags BATON then bal.allowedCtrlOutputPerms ||| flags else bal.allowedCtrlOutputPerms
      allowedSubgroupCtrlOutputPerms :=
        if hasCapability flags BATON ∧ hasCapability flags SUBGROUP then bal.allowedSubgroupCtrlOutputPerms ||| flags
        else bal.allowedSubgroupCtrlOutputPerms }

variable (out : CTxOut) (bal : GroupBalance)

/-- The covenant of a group is the template of the first input of it that has one. -/
def findCovenant : Validation GroupBalance :=
  let tokenGrp := CGroupTokenInfo.ofTxOut out
  if !tokenGrp.isAuthority ∧ tokenGrp.associatedGroup.hasFlag COVENANT ∧ bal.covenant = [] then
    match getScriptTemplate out.scriptPubKey out.scriptType with
    | .invalid => .error (.rejected ⟨0, .invalid, "bad general txout", ""⟩)
    | .notATemplate => pure bal
    | .ok templateHash _ _ => pure { bal with covenant := templateHash }
  else pure bal

/-- The amount of an input that is not an authority goes to the total of its group. -/
def addInput : Validation GroupBalance :=
  let tokenGrp := CGroupTokenInfo.ofTxOut out
  if tokenGrp.associatedGroup ≠ NoGroup ∧ !tokenGrp.isAuthority then do
    let input ← addTokens bal.input (tokenAmount out)
    pure { bal with input }
  else pure bal

/-- The body of the second loop of `CheckGroupTokens` for an input that counts. -/
def tallyInput : Validation GroupBalance := do
  let bal ← findCovenant out (addAuthority (CGroupTokenInfo.ofTxOut out).controllingGroupFlags bal)
  let bal ← addInput out bal
  pure { bal with numInputs := bal.numInputs + 1 }

/-- The coin of an input, from the view for its type. -/
def inputCoin (view readonlyCoins : COutPoint → Coin) (inp : CTxIn) : Coin :=
  if inp.isReadOnly then readonlyCoins inp.prevout else view inp.prevout

/-- The second loop of `CheckGroupTokens`, over the inputs. -/
def tallyInputs (view readonlyCoins : COutPoint → Coin) : List CTxIn → GroupBalanceMap → Validation GroupBalanceMap
  | [], gBalance => pure gBalance
  | inp :: rest, gBalance => do
    let coin := inputCoin view readonlyCoins inp
    invalidIf coin.isSpent .invalid "already-spent" ""
    let tokenGrp := CGroupTokenInfo.ofTxOut coin.out
    if countsInput inp tokenGrp then do
      let bal ← tallyInput coin.out (gBalance.balance tokenGrp.associatedGroup)
      tallyInputs view readonlyCoins rest (gBalance.modify tokenGrp.associatedGroup fun _ => bal)
    else tallyInputs view readonlyCoins rest gBalance

/-! ## The checks -/

/-- What a subgroup gets from its parent: the capabilities if the parent's inputs carry `SUBGROUP`, and the
right to create the authorities that single inputs of the parent delegate. -/
def delegateFrom (parentData : GroupBalance) (bal : GroupBalance) : GroupBalance :=
  { bal with
    ctrlPerms :=
      if hasCapability parentData.ctrlPerms SUBGROUP then bal.ctrlPerms ||| (parentData.ctrlPerms &&& ~~~SUBGROUP)
      else bal.ctrlPerms
    allowedCtrlOutputPerms :=
      bal.allowedCtrlOutputPerms ||| (parentData.allowedSubgroupCtrlOutputPerms &&& ~~~SUBGROUP) }

/-- The third loop of `CheckGroupTokens`. A parent is not a subgroup, so that the loop reads only
balances that it does not change. -/
def delegateToSubgroups : GroupBalanceMap :=
  { gBalance with
    balance := fun group =>
      if group ∈ gBalance.groups ∧ group.isSubgroup ∧ group.parentGroup ∈ gBalance.groups then
        delegateFrom (gBalance.balance group.parentGroup) (gBalance.balance group)
      else gBalance.balance group }

/-- The id of the group that a transaction may create with the given permissions. -/
def newGroupId (prevout : COutPoint) (opReturn : CScript) (ctrlOutputPerms : GroupAuthorityFlags) : CGroupTokenID :=
  (hash256 (prevout.hash.toBytes ++ (if opReturn.length ≠ 0 then writeVector opReturn else [])
    ++ bytesLE 8 ctrlOutputPerms.toNat)).toBytes

variable (tx : CTransaction)

/-- The test for a group creation in the fourth loop, which then has all authority. -/
def checkCreation (group : CGroupTokenID) (bal : GroupBalance) : Validation GroupBalance :=
  if hasCapability bal.ctrlOutputPerms AUTHORITY ∧ bal.ctrlPerms = NONE then
    match tx.vin with
    | [] => crash
    | first :: _ =>
      if newGroupId first.prevout (firstOpReturn tx.vout) bal.ctrlOutputPerms = group then do
        invalidIf (group.flags &&& GROUP_RESERVED_BITS ≠ 0) .groupImbalance "grp-invalid-create"
          "Nonzero group reserved bits"
        invalidIf (bal.ctrlOutputPerms &&& RESERVED_FLAG_BITS ≠ 0) .groupImbalance "grp-invalid-create"
          "Nonzero authority reserved bits"
        invalidIf (bal.numOutputs ≠ 1) .groupImbalance "grp-invalid-create"
          "Multiple grouped outputs created during group creation transaction"
        pure { bal with ctrlPerms := ACTIVE_FLAG_BITS, allowedCtrlOutputPerms := ACTIVE_FLAG_BITS }
      else do
        invalidIf (bal.ctrlOutputPerms &&& ~~~ALL_FLAG_BITS ≠ 0) .invalid "grp-invalid-tx"
          "Only genesis transactions can have a nonce"
        pure bal
  else pure bal

/-- The body of the fourth loop of `CheckGroupTokens`. -/
def checkBalance (group : CGroupTokenID) (bal : GroupBalance) : Validation GroupBalance := do
  let bal ← checkCreation tx group bal
  invalidIf (bal.output.toInt < bal.input.toInt ∧ !hasCapability bal.ctrlPerms MELT) .groupImbalance
    "grp-invalid-melt" "Group input exceeds output, but no melt permission"
  invalidIf (bal.input.toInt < bal.output.toInt ∧ !hasCapability bal.ctrlPerms MINT) .groupImbalance
    "grp-invalid-mint" "Group output exceeds input, but no mint permission"
  invalidIf (bal.ctrlOutputPerms &&& ACTIVE_FLAG_BITS &&& ~~~(bal.allowedCtrlOutputPerms &&& ACTIVE_FLAG_BITS) ≠ 0)
    .groupImbalance "grp-invalid-perm" "Group output permissions exceeds input permissions"
  pure bal

/-- The fourth loop of `CheckGroupTokens`, over the groups that have a balance. -/
def checkBalances (tx : CTransaction) : List CGroupTokenID → (CGroupTokenID → GroupBalance) →
    Validation (CGroupTokenID → GroupBalance)
  | [], balance => pure balance
  | group :: rest, balance => do
    let bal ← checkBalance tx group (balance group)
    checkBalances tx rest (Function.update balance group bal)

/-- The last loop of `CheckGroupTokens`, over the outputs again: templates and covenants. -/
def checkCovenants (balance : CGroupTokenID → GroupBalance) : List CTxOut → Validation Unit
  | [] => pure ()
  | outp :: rest => do
    let grp := CGroupTokenInfo.ofTxOut outp
    let template := getScriptTemplate outp.scriptPubKey outp.scriptType
    invalidIf (template = .invalid) .invalid "template-invalid" "invalid template in constraint script"
    invalidIf (grp.associatedGroup.hasFlag COVENANT ∧
        !hasCapability (balance grp.associatedGroup).ctrlPerms RESCRIPT ∧
        template.contractId ≠ (balance grp.associatedGroup).covenant) .invalid
      "grp-covenant-bad-template" "covenant group has incorrect output template"
    checkCovenants balance rest

/-- `CheckGroupTokens`, with the coins that the two views return; the balances are the `groupState`. -/
def checkGroupTokens (view readonlyCoins : COutPoint → Coin) : Validation GroupBalanceMap := do
  let gBalance ← tallyOutputs tx.vout {}
  let gBalance ← tallyInputs view readonlyCoins tx.vin gBalance
  let gBalance := delegateToSubgroups gBalance
  let balance ← checkBalances tx gBalance.groups gBalance.balance
  checkCovenants balance tx.vout
  pure { gBalance with balance }

end Nexa
