import Nexa.Model.Consensus.GroupTokens
import Nexa.Model.Script.MerkleProof
import Nexa.Model.Script.Numeric
import Nexa.Model.Script.SigHash

/-! # The script machine

The state of `ScriptMachine` and the operations on it that the opcodes are made of. Both stacks are
lists with the top at the head; the source counts items from the top with negative numbers, the top
being -1, and here the top has depth 1. An instruction is a program over this state that can end early.
The state it has reached is kept, since a caller may look at the stacks of a machine that has stopped.

Lengths of byte strings are taken to be below 2^31, as they are for every vector that was read from a
stream: the sum of `CheckAndUpdateStackSize` is an `int`, and turns negative from there on.
-/

namespace Nexa

/-! ## What a machine runs in -/

/-- `BaseSignatureChecker`, the virtual functions a script can reach. -/
structure SignatureChecker where
  checkSig : Bytes → Bytes → CScript → Bool
  verifySignature : Bytes → Bytes → Uint256 → Bool
  checkLockTime : ℤ → Bool
  checkSequence : ℤ → Bool

/-- `ScriptImportedState`; a null pointer is `none`. The fee is not read by any opcode. -/
structure ScriptImportedState where
  checker : Option SignatureChecker := none
  tx : Option CTransaction := none
  spentCoins : List CTxOut := []
  nIn : UInt32 := 0xffffffff
  txInAmount : CAmount := -1
  txOutAmount : CAmount := -1
  groupState : Option GroupBalanceMap := none

/-- The hash function of `OP_SHA1`; its digests have 20 bytes. -/
structure Sha1 where
  hash : Bytes → Bytes
  length_hash : ∀ message, (hash message).length = 20

/-- The imported state of a machine, the hash functions and what `OP_MERKLEROOT` reads behind a proof. -/
structure ScriptContext where
  sis : ScriptImportedState
  ripemd160 : Ripemd160
  sha1 : Sha1
  beyond : ℕ → UInt8

/-! ## The state -/

/-- `ConditionStack`: the number of open conditionals, and which of them is the first that is false. -/
structure ConditionStack where
  stackSize : ℕ := 0
  firstFalsePos : Option ℕ := none
deriving DecidableEq, Repr

namespace ConditionStack

variable (conditions : ConditionStack)

def empty : Bool := conditions.stackSize = 0

def allTrue : Bool := conditions.firstFalsePos.isNone

def pushBack (f : Bool) : ConditionStack where
  stackSize := conditions.stackSize + 1
  firstFalsePos :=
    if conditions.firstFalsePos = none ∧ f = false then some conditions.stackSize else conditions.firstFalsePos

def popBack : ConditionStack where
  stackSize := conditions.stackSize - 1
  firstFalsePos :=
    if conditions.firstFalsePos = some (conditions.stackSize - 1) then none else conditions.firstFalsePos

def toggleTop : ConditionStack where
  stackSize := conditions.stackSize
  firstFalsePos :=
    if conditions.firstFalsePos = none then some (conditions.stackSize - 1)
    else if conditions.firstFalsePos = some (conditions.stackSize - 1) then none
    else conditions.firstFalsePos

end ConditionStack

structure ScriptMachineResourceTracker where
  consensusSigCheckCount : ℕ := 0
  nOpCount : ℕ := 0
  nOpExec : ℕ := 0
  nOpExecDepth : ℕ := 0
  maxStackBytes : ℕ := 0
  maxStackItems : ℕ := 0
deriving DecidableEq, Repr

/-- `update`; neither the depth nor the number of items is taken over. -/
def ScriptMachineResourceTracker.update (tracker stats : ScriptMachineResourceTracker)
    (parentsCurrentStackUse : ℕ) : ScriptMachineResourceTracker :=
  { tracker with
    consensusSigCheckCount := tracker.consensusSigCheckCount + stats.consensusSigCheckCount
    nOpCount := (tracker.nOpCount + stats.nOpCount) % 2 ^ 32
    nOpExec := tracker.nOpExec + stats.nOpExec
    maxStackBytes := max tracker.maxStackBytes (parentsCurrentStackUse + stats.maxStackBytes) }

def maxScriptTemplateSize : ℕ := 100000
def genesisMaxStackItems : ℕ := 1000
def maxStackItems : ℕ := 1024 * 8
def maxPubkeysPerMultisig : ℕ := 16
def numScriptRegisters : ℕ := 32

/-- `MAX_EXEC_DEPTH` and `MAX_OP_EXEC`. -/
def maxExecDepth : ℕ := 3
def maxOpExec : ℕ := 20

/-- `ScriptMachine`. The script is the one that `Eval` works on, and `pc` and `pbegincodehash` are offsets
into it. The limits, the operation count and the signature budget are `unsigned int`. -/
structure ScriptMachine where
  flags : ScriptFlags
  stack : List StackItem := []
  altstack : List StackItem := []
  stackSize : ℕ := 0
  altStackSize : ℕ := 0
  script : CScript := []
  pc : ℕ := 0
  pbegincodehash : ℕ := 0
  stats : ScriptMachineResourceTracker := {}
  vfExec : ConditionStack := {}
  arrRegisters : Vector StackItem numScriptRegisters := Vector.replicate _ (.vch [])
  bigNumModulo : ℤ := 2 ^ 64
  maxScriptSize : ℕ := Nexa.maxScriptSize
  maxOps : ℕ
  maxConsensusSigOps : ℕ
  maxStackUse : ℕ
  maxStackItems : ℕ
  maxOpExec : ℕ := Nexa.maxOpExec
  maxOpExecDepth : ℕ := Nexa.maxExecDepth
deriving DecidableEq, Repr

namespace ScriptMachine

def create (flags : ScriptFlags) (maxOps maxSigOps : ℕ) : ScriptMachine where
  flags := flags
  maxOps := maxOps
  maxConsensusSigOps := maxSigOps
  maxStackUse := if flags.has .ENFORCE_STACK_TOTAL then maxScriptStackSize else 2 ^ 32 - 1
  maxStackItems := if flags.has .ENFORCE_STACK_TOTAL then Nexa.maxStackItems else genesisMaxStackItems

variable (machine : ScriptMachine)

def stackUse : ℕ := machine.stackSize + machine.altStackSize

def stackItems : ℕ := machine.stack.length + machine.altstack.length

def itemBytes (items : List StackItem) : ℕ := (items.map StackItem.size).sum

/-- `setStack` and `setAltStack` without a size. -/
def setStack (stack : List StackItem) : ScriptMachine :=
  { machine with stack, stackSize := itemBytes stack }

def setAltStack (altstack : List StackItem) : ScriptMachine :=
  { machine with altstack, altStackSize := itemBytes altstack }

end ScriptMachine

/-! ## Programs over the state -/

/-- How an evaluation ends early: with an error; by the death of the process at an assertion or a null
pointer; or because the rounds given to the model are used up. -/
inductive Halt where
  | error (error : ScriptError)
  | crash
  | unfinished
deriving DecidableEq, Repr

abbrev ScriptM := EStateM Halt ScriptMachine

variable {α : Type}

/-- `return set_error(serror, …)`, or the throw of an exception that `Step` turns into this code. -/
def abort (error : ScriptError) : ScriptM α := throw (.error error)

def abortIf (bad : Prop) [Decidable bad] (error : ScriptError) : ScriptM Unit :=
  if bad then abort error else pure ()

def crashIf (bad : Prop) [Decidable bad] : ScriptM Unit := if bad then throw .crash else pure ()

def liftExcept : Except ScriptError α → ScriptM α
  | .ok a => pure a
  | .error error => abort error

/-- The value behind a pointer that is null without an error code for it. -/
def dereference : Option α → ScriptM α
  | some a => pure a
  | none => throw .crash

/-- The value behind a pointer that the source tests first. -/
def dataRequired : Option α → ScriptM α
  | some a => pure a
  | none => abort .dataRequired

def hasFlag (flag : ScriptFlags) : ScriptM Bool := do
  let machine ← get
  pure (machine.flags.has flag)

def fRequireMinimal : ScriptM Bool := hasFlag .VERIFY_MINIMALDATA

/-! ## The stacks -/

variable (count : ℕ)

def requireItems : ScriptM Unit := do
  let machine ← get
  abortIf (machine.stack.length < count) .invalidStackOperation

variable (depth : ℕ)

/-- `stackItemAt`; an access outside of the stack throws. -/
def stackItemAt : ScriptM StackItem := do
  let machine ← get
  match machine.stack[depth - 1]? with
  | some item => pure item
  | none => abort .stackBytes

def stacktop : ScriptM Bytes := do
  let item ← stackItemAt depth
  liftExcept item.data

/-- `CScriptNum(stacktop(…), fRequireMinimal, maxIntegerSize)`. -/
def scriptNumAt (nMaxNumSize : ℕ) : ScriptM ℤ := do
  let vch ← stacktop depth
  let minimal ← fRequireMinimal
  liftExcept (CScriptNum.ofVch vch minimal nMaxNumSize)

def checkAndUpdateStackSize (itemSize : ℤ) : ScriptM Unit := do
  let machine ← get
  let currentTotal : ℤ := machine.altStackSize + machine.stackSize + itemSize
  abortIf (currentTotal < 0 ∨ 2 ^ 31 ≤ currentTotal) .stackBytes
  abortIf (machine.maxStackUse < currentTotal) .stackBytes
  set { machine with
    stackSize := (machine.stackSize + itemSize).toNat
    stats := { machine.stats with maxStackBytes := max machine.stats.maxStackBytes currentTotal.toNat } }

def pushStack (item : StackItem) : ScriptM Unit := do
  checkAndUpdateStackSize item.size
  modify fun machine => { machine with stack := item :: machine.stack }

/-- `CheckAndUpdateStackSize` and the insertion of an item below `count` others. -/
def insertStackItem (item : StackItem) : ScriptM Unit := do
  checkAndUpdateStackSize item.size
  modify fun machine => { machine with stack := machine.stack.take count ++ item :: machine.stack.drop count }

def popStack : ScriptM Unit := do
  let machine ← get
  match machine.stack with
  | [] => abort .stackBytes
  | item :: stack => do
    crashIf (machine.stackSize < item.size)
    set { machine with stack, stackSize := machine.stackSize - item.size }

def eraseStackItemAt : ScriptM Unit := do
  let machine ← get
  match machine.stack[depth - 1]? with
  | none => abort .stackBytes
  | some item => do
    crashIf (machine.stackSize < item.size)
    set { machine with stack := machine.stack.eraseIdx (depth - 1), stackSize := machine.stackSize - item.size }

/-- `setStackItem` for an item that is there; the index 0 is the top. -/
def setStackItem (idxFromEnd : ℕ) (item : StackItem) : ScriptM Unit := do
  let machine ← get
  match machine.stack[idxFromEnd]? with
  | none => abort .unknownError
  | some cur => do
    checkAndUpdateStackSize (item.size - cur.size)
    modify fun machine => { machine with stack := machine.stack.set idxFromEnd item }

def moveAltToStack : ScriptM Unit := do
  let machine ← get
  match machine.altstack with
  | [] => abort .unknownError
  | elem :: altstack =>
    set { machine with
      stack := elem :: machine.stack
      altstack
      stackSize := machine.stackSize + elem.size
      altStackSize := machine.altStackSize - elem.size }

def moveStackToAlt : ScriptM Unit := do
  let machine ← get
  match machine.stack with
  | [] => abort .unknownError
  | elem :: stack =>
    set { machine with
      stack
      altstack := elem :: machine.altstack
      stackSize := machine.stackSize - elem.size
      altStackSize := machine.altStackSize + elem.size }

/-- A change of the vector `stack` itself, past the helpers that keep count of its bytes. -/
def modifyStack (f : List StackItem → List StackItem) : ScriptM Unit :=
  modify fun machine => { machine with stack := f machine.stack }

def popMany : ℕ → ScriptM Unit
  | 0 => pure ()
  | count + 1 => do
    popStack
    popMany count

def pushMany : List StackItem → ScriptM Unit
  | [] => pure ()
  | item :: items => do
    pushStack item
    pushMany items

/-- `PushStack` of a result in place of the `count` arguments on top. -/
def replaceArguments (result : StackItem) : ScriptM Unit := do
  popMany count
  pushStack result

end Nexa
