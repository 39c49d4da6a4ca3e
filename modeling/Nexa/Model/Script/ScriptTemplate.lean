import Nexa.Model.Script.TxState

/-! # Locking scripts of templates

The functions of `scripttemplate.cpp` that put an output script together: the group with its quantity or
`OP_0`, the hash of the template, the hash of the hidden arguments, and the visible arguments as they are.
-/

namespace Nexa

open CGroupTokenID

def serializeAmount (num : CAmount) : Bytes :=
  if num.toInt < 0 then bytesLE 8 num.toUInt64.toNat
  else if num.toInt ≤ 0xffff then bytesLE 2 num.toUInt64.toNat
  else if num.toInt ≤ 0xffffffff then bytesLE 4 num.toUInt64.toNat
  else bytesLE 8 num.toUInt64.toNat

def pushInt64 (n : ℤ) : CScript :=
  if n = -1 ∨ (1 ≤ n ∧ n ≤ 16) then [UInt8.ofNat (n + (OP_1 - 1)).toNat]
  else if n = 0 then [UInt8.ofNat OP_0]
  else pushVector (CScriptNum.serialize n)

/-- What stands in front of the template: the quantity -1 is replaced by an invalid one, for use in addresses. -/
def pushGroup (group : CGroupTokenID) (grpQuantity : CAmount) : CScript :=
  if group ≠ NoGroup then
    if grpQuantity ≠ -1 then pushVector group ++ pushVector (serializeAmount grpQuantity)
    else pushVector group ++ [UInt8.ofNat OP_0]
  else [UInt8.ofNat OP_0]

/-- `ScriptTemplateLock` and `ScriptTemplateOutput` of hashes. -/
def scriptTemplateLock (templateHash hiddenArgsHash visibleArgs : Bytes) (group : CGroupTokenID)
    (grpQuantity : CAmount) : CScript :=
  pushGroup group grpQuantity ++ pushVector templateHash ++ pushVector hiddenArgsHash ++ visibleArgs

/-- `ScriptWellKnownTemplateLock`, which asserts that the template is the one that is known. -/
def scriptWellKnownTemplateLock (wellKnownId : UInt64) (hiddenArgsHash visibleArgs : Bytes) (group : CGroupTokenID)
    (grpQuantity : CAmount) : Option CScript :=
  if wellKnownId = 1 then
    some (pushGroup group grpQuantity ++ pushInt64 wellKnownId.toNat ++ pushVector hiddenArgsHash ++ visibleArgs)
  else none

/-- `UngroupedScriptTemplate`; without assertions a script that is no template is returned as it is. -/
def ungroupedScriptTemplate (templateIn : CScript) (scriptType : ScriptType) : CScript :=
  match getScriptTemplate templateIn scriptType with
  | .ok templateHash argsHash restOfScript => scriptTemplateLock templateHash argsHash restOfScript NoGroup (-1)
  | _ => templateIn

end Nexa
