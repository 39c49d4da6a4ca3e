import Nexa.Model.Script.Interpreter

/-! # Spending an output of a template

`VerifyScript` for constraint scripts of type `TEMPLATE`. It takes the template and the arguments out of both
scripts, and `VerifyTemplate` evaluates the rest of the input script, the arguments and then the template.
-/

namespace Nexa

open ScriptFlags

/-- The loop of `CScript::IsPushOnly`. Every round takes a byte at least. -/
def isPushOnlyFrom : ℕ → CScript → Bool
  | _, [] => true
  | 0, _ :: _ => false
  | rounds + 1, byte :: rest =>
    match getOp (byte :: rest) with
    | none => false
    | some ((opcode, _), pc) =>
      -- what is behind the `OP_RETURN` is not executed
      if opcode = OP_RETURN then true else if OP_16 < opcode then false else isPushOnlyFrom rounds pc

def isPushOnly (script : CScript) : Bool := isPushOnlyFrom script.length script

/-- The copy constructor of `ScriptMachine`, which leaves out the registers and the limits of `OP_EXEC`. -/
def ScriptMachine.copy (machine : ScriptMachine) : ScriptMachine :=
  { machine with
    arrRegisters := Vector.replicate _ (.vch [])
    maxOpExec := Nexa.maxOpExec
    maxOpExecDepth := maxExecDepth }

variable (context : ScriptContext) (rounds : ℕ)

/-- `Eval` of a script that may end at an `OP_RETURN` after fork 1. -/
def evalPushes (fork1 : Bool) (script : CScript) (machine : ScriptMachine) :
    Except Halt ScriptMachine :=
  match eval context rounds script machine with
  | .ok _ machine => .ok machine
  | .error halt machine => if fork1 ∧ halt = .error .opReturn then .ok machine else .error halt

/-- The machine of the satisfier; since fork 1 its script may be as long as a template. -/
def satisfierMachine (flags : ScriptFlags) (maxOps maxActualSigops : UInt32) : ScriptMachine :=
  let ssm := ScriptMachine.create flags maxOps.toNat maxActualSigops.toNat
  if flags.has FORK1_OPCODES then { ssm with maxScriptSize := maxScriptTemplateSize } else ssm

/-- The machine of the arguments is a copy that keeps the statistics. -/
def constraintMachine (ssm : ScriptMachine) : ScriptMachine :=
  ({ ssm.copy with maxScriptSize := maxScriptTemplateSize }.setStack []).setAltStack []

def templateMachine (ssm sm : ScriptMachine) : ScriptMachine :=
  { sm with
    altstack := sm.stack
    altStackSize := sm.stackSize
    stack := ssm.stack
    stackSize := ssm.stackSize }

/-- `VerifyTemplate`, with the machine whose statistics go to the tracker. -/
def verifyTemplate (templat constraint satisfier : CScript)
    (flags : ScriptFlags) (maxOps maxActualSigops : UInt32) : Except Halt ScriptMachine :=
  let fork1 := flags.has FORK1_OPCODES
  if !isPushOnly satisfier then .error (.error .sigPushOnly)
  else if !isPushOnly constraint then .error (.error .sigPushOnly)
  else do
    let ssm ← evalPushes context rounds fork1 satisfier (satisfierMachine flags maxOps maxActualSigops)
    let sm ← evalPushes context rounds fork1 constraint (constraintMachine ssm)
    match eval context rounds templat (templateMachine ssm sm) with
    | .error halt _ => .error halt
    | .ok _ sm => if sm.stack ≠ [] then .error (.error .cleanStack) else .ok sm

/-- The script of hidden arguments and the satisfier; there is none if its hash is empty. -/
def loadCheckArgsHash (pc : CScript) (argsHash : Bytes) :
    Except ScriptError (CScript × CScript) :=
  if argsHash ≠ [] then
    match getOp pc with
    | none => .error .template
    | some ((_, argsScriptBytes), pc) =>
      if isPreimage context argsScriptBytes argsHash then .ok (argsScriptBytes, pc) else .error .template
  else .ok ([], pc)

/-- `VerifyScript` of a constraint script of type `TEMPLATE`; `maxScriptTemplateOps` can be configured. -/
def verifyScript (scriptSig scriptPubKey : CScript) (flags : ScriptFlags)
    (maxScriptTemplateOps : UInt32) : Except Halt ScriptMachine :=
  match getScriptTemplate scriptPubKey .template with
  | .ok templateHash argsHash restOfOutput => do
    let (templateScript, pc) ← (loadCheckTemplateHash context scriptSig templateHash).mapError .error
    let (argsScriptBytes, satisfier) ← (loadCheckArgsHash context pc argsHash).mapError .error
    verifyTemplate context rounds templateScript (argsScriptBytes ++ restOfOutput) satisfier flags
      maxScriptTemplateOps 0xFFFFFFFF
  | _ => .error (.error .template)

end Nexa
