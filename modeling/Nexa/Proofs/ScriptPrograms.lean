import Nexa.Model.Script.Interpreter
import Nexa.ToMathlib.StateProgram

/-! # What the instructions are made of

All instructions but `OP_EXEC` are put together from a few operations on the stacks, changes of the control
state and, for the opcodes with signatures, additions to two counters.
-/

namespace Nexa

open Halt ScriptMachine List EStateM

/-! ## What successful tests and reads say -/

variable {machine machine' : ScriptMachine}

variable {α β : Type} {bad : Prop} {error : ScriptError} {u : Unit} {a : α} {count depth : ℕ}
  {program : Unit → ScriptM β}

@[simp] theorem abort_apply (error : ScriptError) :
    (abort error : ScriptM α) machine = .error (.error error) machine := rfl

theorem abortIf_apply (bad : Prop) [Decidable bad] (error : ScriptError) :
    abortIf bad error machine = if bad then .error (.error error) machine else .ok () machine := by
  unfold abortIf
  split <;> rfl

@[simp] theorem abortIf_eq_ok_iff [Decidable bad] :
    abortIf bad error machine = .ok u machine' ↔ ¬bad ∧ machine = machine' := by
  rw [abortIf_apply]
  split <;> simp_all

theorem abortIf_bind [Decidable bad] (good : ¬bad) : (abortIf bad error >>= program) machine = program () machine :=
  bind_eq_of_ok (abortIf_eq_ok_iff.mpr ⟨good, rfl⟩)

variable {result : Except ScriptError α}

@[simp] theorem liftExcept_eq_ok_iff :
    liftExcept result machine = .ok a machine' ↔ result = .ok a ∧ machine = machine' := by
  cases result <;> simp [liftExcept]

theorem liftExcept_bind {program : α → ScriptM β} (ran : result = .ok a) :
    (liftExcept result >>= program) machine = program a machine :=
  bind_eq_of_ok (liftExcept_eq_ok_iff.mpr ⟨ran, rfl⟩)

@[simp] theorem dataRequired_eq_ok_iff {pointer : Option α} :
    dataRequired pointer machine = .ok a machine' ↔ pointer = some a ∧ machine = machine' := by
  cases pointer <;> simp [dataRequired]

@[simp] theorem hasFlag_apply (flag : ScriptFlags) : hasFlag flag machine = .ok (machine.flags.has flag) machine := rfl

@[simp] theorem fRequireMinimal_apply :
    fRequireMinimal machine = .ok (machine.flags.has .VERIFY_MINIMALDATA) machine := rfl

@[simp] theorem requireItems_eq_ok_iff :
    requireItems count machine = .ok u machine' ↔ count ≤ machine.stack.length ∧ machine = machine' := by
  simp [requireItems, get_bind_apply]

theorem requireItems_bind (enough : count ≤ machine.stack.length) :
    (requireItems count >>= program) machine = program () machine :=
  bind_eq_of_ok (requireItems_eq_ok_iff.mpr ⟨enough, rfl⟩)

@[simp] theorem stackItemAt_eq_ok_iff {item : StackItem} :
    stackItemAt depth machine = .ok item machine' ↔ machine.stack[depth - 1]? = some item ∧ machine = machine' := by
  simp only [stackItemAt, get_bind_apply]
  cases machine.stack[depth - 1]? <;> simp

theorem stackItemAt_bind {item : StackItem} {program : StackItem → ScriptM β}
    (found : machine.stack[depth - 1]? = some item) : (stackItemAt depth >>= program) machine = program item machine :=
  bind_eq_of_ok (stackItemAt_eq_ok_iff.mpr ⟨found, rfl⟩)

@[simp] theorem stacktop_eq_ok_iff {data : Bytes} :
    stacktop depth machine = .ok data machine' ↔ machine.stack[depth - 1]? = some (.vch data) ∧ machine = machine' := by
  simp only [stacktop, bind_eq_ok_iff, stackItemAt_eq_ok_iff, liftExcept_eq_ok_iff]
  constructor
  · rintro ⟨item, _, ⟨found, rfl⟩, isData, rfl⟩
    cases item <;> simp_all [StackItem.data]
  · rintro ⟨found, rfl⟩
    exact ⟨_, _, ⟨found, rfl⟩, rfl, rfl⟩

@[simp] theorem scriptNumAt_eq_ok_iff {nMaxNumSize : ℕ} {n : ℤ} :
    scriptNumAt depth nMaxNumSize machine = .ok n machine' ↔
      (∃ data, machine.stack[depth - 1]? = some (.vch data) ∧
        CScriptNum.ofVch data (machine.flags.has .VERIFY_MINIMALDATA) nMaxNumSize = .ok n) ∧
      machine = machine' := by
  simp only [scriptNumAt, bind_eq_ok_iff, stacktop_eq_ok_iff, liftExcept_eq_ok_iff]
  constructor
  · rintro ⟨data, _, ⟨found, rfl⟩, _, _, ⟨_⟩, read, rfl⟩
    exact ⟨⟨data, found, read⟩, rfl⟩
  · rintro ⟨⟨data, found, read⟩, rfl⟩
    exact ⟨data, _, ⟨found, rfl⟩, _, _, rfl, read, rfl⟩

/-! ## Primitive operations -/

/-- The reasons other than a lack of rounds. -/
def Halt.isFinal (halt : Halt) : Prop := halt ≠ .unfinished

variable {basic : ScriptM Unit → Prop}

instance {α : Type} (error : ScriptError) : Built basic isFinal (abort error : ScriptM α) :=
  .throw _ (by simp [isFinal])

instance {α : Type} : Built basic isFinal (throw .crash : ScriptM α) := .throw _ (by simp [isFinal])

instance (bad : Prop) [Decidable bad] (error : ScriptError) : Built basic isFinal (abortIf bad error) := by
  unfold abortIf
  infer_instance

instance (bad : Prop) [Decidable bad] : Built basic isFinal (crashIf bad) := by
  unfold crashIf
  infer_instance

instance {α : Type} (result : Except ScriptError α) : Built basic isFinal (liftExcept result) := by
  cases result <;> simp only [liftExcept] <;> infer_instance

instance {α : Type} (pointer : Option α) : Built basic isFinal (dereference pointer) := by
  cases pointer <;> simp only [dereference] <;> infer_instance

instance {α : Type} (pointer : Option α) : Built basic isFinal (dataRequired pointer) := by
  cases pointer <;> simp only [dataRequired] <;> infer_instance

instance (flag : ScriptFlags) : Built basic isFinal (hasFlag flag) := by
  unfold hasFlag
  infer_instance

instance : Built basic isFinal fRequireMinimal := by
  unfold fRequireMinimal
  infer_instance

instance (count : ℕ) : Built basic isFinal (requireItems count) := by
  unfold requireItems
  infer_instance

instance (depth : ℕ) : Built basic isFinal (stackItemAt depth) := by
  unfold stackItemAt
  have : ∀ machine : ScriptMachine, Built basic isFinal
      (match machine.stack[depth - 1]? with
      | some item => pure item
      | none => abort .stackBytes : ScriptM StackItem) := by
    intro machine
    split <;> infer_instance
  infer_instance

instance (depth : ℕ) : Built basic isFinal (stacktop depth) := by
  unfold stacktop
  infer_instance

instance (depth nMaxNumSize : ℕ) : Built basic isFinal (scriptNumAt depth nMaxNumSize) := by
  unfold scriptNumAt
  infer_instance

/-- The operations that change a machine. The counters change only if `tallies` holds. -/
inductive Primitive (tallies : Prop) : ScriptM Unit → Prop
  | push (item : StackItem) : Primitive tallies (pushStack item)
  | insert (count : ℕ) (item : StackItem) : Primitive tallies (insertStackItem count item)
  | pop : Primitive tallies popStack
  | erase (depth : ℕ) : Primitive tallies (eraseStackItemAt depth)
  | setItem (idxFromEnd : ℕ) (item : StackItem) : Primitive tallies (setStackItem idxFromEnd item)
  | fromAlt : Primitive tallies moveAltToStack
  | toAlt : Primitive tallies moveStackToAlt
  | inPlace (f : List StackItem → List StackItem)
      (sameBytes : ∀ stack, itemBytes (f stack) = itemBytes stack) :
      Primitive tallies (modifyStack f)
  | control (f : ScriptMachine → ScriptMachine)
      (onlyControl : ∀ machine, f machine =
        { machine with
          pc := (f machine).pc
          pbegincodehash := (f machine).pbegincodehash
          vfExec := (f machine).vfExec
          arrRegisters := (f machine).arrRegisters
          bigNumModulo := (f machine).bigNumModulo }) :
      Primitive tallies (modify f)
  | countOps (allowed : tallies) (count : ℕ) (few : count ≤ maxPubkeysPerMultisig) : Primitive tallies (countOps count)
  | addSigChecks (allowed : tallies) (count : ℕ) : Primitive tallies (addSigChecks count)

/-- A program that is put together from them. -/
abbrev Instructed (tallies : Prop) {α : Type} (program : ScriptM α) : Prop :=
  Built (Primitive tallies) isFinal program

variable {tallies : Prop}

instance (item : StackItem) : Instructed tallies (pushStack item) := .basic (.push item)

instance (count : ℕ) (item : StackItem) : Instructed tallies (insertStackItem count item) :=
  .basic (.insert count item)

instance : Instructed tallies popStack := .basic .pop

instance (depth : ℕ) : Instructed tallies (eraseStackItemAt depth) := .basic (.erase depth)

instance (idxFromEnd : ℕ) (item : StackItem) : Instructed tallies (setStackItem idxFromEnd item) :=
  .basic (.setItem idxFromEnd item)

instance : Instructed tallies moveAltToStack := .basic .fromAlt

instance : Instructed tallies moveStackToAlt := .basic .toAlt

instance (f : ConditionStack → ConditionStack) : Instructed tallies (modifyConditions f) :=
  .basic (.control _ fun _ => rfl)

instance (pc : ℕ) : Instructed tallies (setPc pc) := .basic (.control _ fun _ => rfl)

instance (register : ℕ) (value : StackItem) : Instructed tallies (setRegister register value) :=
  .basic (.control _ fun _ => rfl)

instance (bigNumModulo : ℤ) : Instructed tallies (setModulo bigNumModulo) := .basic (.control _ fun _ => rfl)

instance : Instructed tallies opCodeSeparator := .basic (.control _ fun _ => rfl)

instance (count : ℕ) : Instructed tallies (popMany count) := by
  induction count with
  | zero | succ count _ =>
    unfold popMany
    infer_instance

instance (items : List StackItem) : Instructed tallies (pushMany items) := by
  induction items with
  | nil | cons item items _ =>
    unfold pushMany
    infer_instance

instance (count : ℕ) (result : StackItem) : Instructed tallies (replaceArguments count result) := by
  unfold replaceArguments
  infer_instance

/-! ## Control and stacks -/

instance : Instructed tallies topAsBool := by
  simp only [topAsBool]
  infer_instance

instance : Instructed tallies registerAt := by
  simp only [registerAt]
  infer_instance

/-! The changes of the stack in place keep the sum of its sizes. -/

theorem itemBytes_eq_of_perm {items others : List StackItem} (perm : items.Perm others) :
    itemBytes items = itemBytes others :=
  (perm.map _).sum_nat

theorem filterMap_getElem?_range (stack : List StackItem) (count : ℕ) :
    (range count).filterMap (fun index => stack[index]?) = stack.take count := by
  induction count with
  | zero => rfl
  | succ count ih =>
    rw [range_succ, filterMap_append, ih, take_add_one]
    cases found : stack[count]? <;> simp [found]

theorem opRearrange_instructed {order : List ℕ} (perm : order.Perm (range' 1 order.length)) :
    Instructed tallies (opRearrange order) := by
  have sameBytes : ∀ stack : List StackItem, itemBytes
      (order.filterMap (fun depth => stack[depth - 1]?) ++ stack.drop order.length) = itemBytes stack := by
    intro stack
    apply itemBytes_eq_of_perm
    have reordered := perm.filterMap fun depth => stack[depth - 1]?
    rw [range'_eq_map_range, filterMap_map] at reordered
    have indices : (fun depth => stack[depth - 1]?) ∘ (1 + ·) = fun index => stack[index]? := by
      funext index
      simp
    rw [indices, filterMap_getElem?_range] at reordered
    simpa using reordered.append_right (stack.drop order.length)
  have : Instructed tallies (modifyStack fun stack =>
      order.filterMap (fun depth => stack[depth - 1]?) ++ stack.drop order.length) :=
    .basic (.inPlace _ sameBytes)
  simp only [opRearrange]
  infer_instance

instance (n : ℕ) : Instructed tallies (modifyStack (rollUp n)) := by
  refine .basic (.inPlace _ fun stack => itemBytes_eq_of_perm ?_)
  unfold rollUp
  split
  next item found =>
    obtain ⟨bound, rfl⟩ := List.getElem?_eq_some_iff.mp found
    exact getElem_cons_eraseIdx_perm bound
  · exact .refl stack

instance (n : ℕ) : Instructed tallies (modifyStack (rollDown n)) := by
  refine .basic (.inPlace _ fun stack => itemBytes_eq_of_perm ?_)
  cases stack with
  | nil => exact .refl _
  | cons item rest =>
    have moved : (rest.take (n - 1) ++ item :: rest.drop (n - 1)).Perm (item :: _) := perm_middle
    rwa [take_append_drop] at moved

/-! ## Bytes and numbers -/

instance (op : BitwiseOp) : Instructed tallies (modifyStack (bitwiseInPlace op)) := by
  refine .basic (.inPlace _ fun stack => ?_)
  unfold bitwiseInPlace
  split
  · simp [itemBytes, StackItem.size, bytesBitwiseOp]
  · rfl

instance : Instructed tallies (modifyStack catInPlace) := by
  refine .basic (.inPlace _ fun stack => ?_)
  unfold catInPlace
  split
  · simp only [itemBytes, map_cons, sum_cons, StackItem.size, length_append]
    omega
  · rfl

instance : Instructed tallies (modifyStack reverseInPlace) := by
  refine .basic (.inPlace _ fun stack => ?_)
  unfold reverseInPlace
  split
  · simp [itemBytes, StackItem.size]
  · rfl

instance : Instructed tallies opNum2Bin := by
  repeat refine Built.andThen fun _ => ?_
  split <;> infer_instance

instance (left : Bool) : Instructed tallies (opShift left) := by
  repeat refine Built.andThen fun _ => ?_
  split
  · split <;> infer_instance
  · split <;> infer_instance

instance (op : BinaryOp) : Instructed tallies (binaryResult op) := by
  simp only [binaryResult]
  infer_instance

instance : Instructed tallies opBin2BigNum := by
  repeat refine Built.andThen fun _ => ?_
  split <;> infer_instance

/-! ## The transaction -/

section

variable (context : ScriptContext)

instance (script : CScript) : Instructed tallies (pushScript script) := by
  simp only [pushScript]
  infer_instance

instance (amount : CAmount) : Instructed tallies (pushAmount amount) := by
  simp only [pushAmount]
  infer_instance

instance (field : TxField) : Instructed tallies (opTxField context field) := by
  simp only [opTxField]
  cases field <;> infer_instance

instance {α : Type} (list : List α) (index : ℤ) (error : ScriptError) :
    Instructed tallies (elementAt list index error) := by
  unfold elementAt
  split <;> infer_instance

instance (field : InputField) : Instructed tallies (opInputField context field) := by
  repeat refine Built.andThen fun _ => ?_
  cases field <;> infer_instance

instance (field : OutputField) : Instructed tallies (opOutputField context field) := by
  repeat refine Built.andThen fun _ => ?_
  cases field <;> infer_instance

instance (arguments : Bytes) (outputs : List CTxOut) : Instructed tallies (pushGroupNth arguments outputs) := by
  repeat refine Built.andThen fun _ => ?_
  split <;> infer_instance

instance (grpId : CGroupTokenID) (part : GroupBalance → StackItem) :
    Instructed tallies (pushGroupState context grpId part) := by
  simp only [pushGroupState]
  infer_instance

instance (specifier : Bytes) : Instructed tallies (evalPushTxState context specifier) := by
  cases specifier with
  | nil =>
    simp only [evalPushTxState]
    infer_instance
  | cons kind arguments =>
    simp only [evalPushTxState]
    split <;> infer_instance

instance : Instructed tallies (opPushTxState context) := by
  repeat refine Built.andThen fun _ => ?_
  split <;> infer_instance

instance (first count rounds : ℕ) (rest : CScript) (pushPos pushedCount : ℕ) :
    Instructed tallies (parseLoop first count rounds rest pushPos pushedCount) := by
  induction rounds generalizing rest pushPos pushedCount with
  | zero =>
    simp only [parseLoop]
    infer_instance
  | succ rounds ih =>
    simp only [parseLoop]
    split <;> infer_instance

instance (first count : ℕ) (script : CScript) : Instructed tallies (evalParseBytecode first count script) := by
  simp only [evalParseBytecode]
  infer_instance

instance (first count : ℕ) (fields : List StackItem) (rest : CScript) :
    Instructed tallies (parseFields first count fields rest) := by
  simp only [parseFields]
  infer_instance

instance (first count : ℕ) (script : CScript) :
    Instructed tallies (evalParseCanonicalLockingBytecode first count script) := by
  simp only [evalParseCanonicalLockingBytecode]
  split
  · infer_instance
  · split <;> infer_instance

instance (first count : ℕ) (unlockingScript lockingScript : CScript) :
    Instructed tallies (evalParseUnlockingTemplateBytecode context first count unlockingScript lockingScript) := by
  simp only [evalParseUnlockingTemplateBytecode]
  split
  · infer_instance
  split
  · refine Built.andThen fun _ => ?_
    split
    · infer_instance
    · split <;> infer_instance
  · infer_instance

instance (depth : ℕ) : Instructed tallies (parseArgument depth) := by
  simp only [parseArgument]
  infer_instance

instance : Instructed tallies parseArguments := by
  simp only [parseArguments]
  infer_instance

instance (first count : ℕ) (output : CTxOut) : Instructed tallies (evalParseOutput first count output) := by
  simp only [evalParseOutput]
  infer_instance

end

/-! ## Signatures -/

instance : Instructed tallies requireSigCheckBudget := by
  simp only [requireSigCheckBudget]
  infer_instance

instance [allowed : Fact tallies] (count : ℕ) : Instructed tallies (addSigChecks count) :=
  .basic (.addSigChecks allowed.out count)

instance (arguments : ℕ) (fSuccess verify : Bool) (error : ScriptError) :
    Instructed tallies (finishSignature arguments fSuccess verify error) := by
  simp only [finishSignature]
  infer_instance

instance [Fact tallies] (context : ScriptContext) (verify : Bool) :
    Instructed tallies (opCheckSig context verify) := by
  repeat refine Built.andThen fun _ => ?_
  infer_instance

instance [Fact tallies] (context : ScriptContext) (verify : Bool) :
    Instructed tallies (opCheckDataSig context verify) := by
  repeat refine Built.andThen fun _ => ?_
  infer_instance

instance (context : ScriptContext) (scriptCode : CScript) (pairs : List (ℕ × ℕ)) :
    Instructed tallies (checkSignatures context scriptCode pairs) := by
  induction pairs with
  | nil | cons pair rest ih =>
    simp only [checkSignatures]
    infer_instance

instance : Instructed tallies multisigKeyCount := by
  simp only [multisigKeyCount]
  infer_instance

theorem le_of_multisigKeyCount {machine machine' : ScriptMachine} {nKeysCount : ℕ}
    (counted : multisigKeyCount machine = .ok nKeysCount machine') :
    nKeysCount ≤ maxPubkeysPerMultisig ∧ machine = machine' := by
  simp only [multisigKeyCount, bind_eq_ok_iff, requireItems_eq_ok_iff, abortIf_eq_ok_iff,
    scriptNumAt_eq_ok_iff] at counted
  obtain ⟨_, _, ⟨_, rfl⟩, n, _, ⟨_, rfl⟩, _, _, ⟨inRange, rfl⟩, ⟨_⟩⟩ := counted
  exact ⟨by omega, rfl⟩

instance (nKeysCount : ℕ) : Instructed tallies (multisigSigCount nKeysCount) := by
  simp only [multisigSigCount]
  infer_instance

instance (context : ScriptContext) (nKeysCount nSigsCount : ℕ) (vchDummy : Bytes) :
    Instructed tallies (multisigVerify context nKeysCount nSigsCount vchDummy) := by
  simp only [multisigVerify]
  infer_instance

instance [allowed : Fact tallies] (context : ScriptContext) (verify : Bool) :
    Instructed tallies (opCheckMultiSig context verify) := by
  refine .bindOf inferInstance fun nKeysCount returned => ?_
  obtain ⟨machine, _, counted⟩ := returned
  have : Instructed tallies (countOps nKeysCount) :=
    .basic (.countOps allowed.out _ (le_of_multisigKeyCount counted).1)
  infer_instance

/-! ## Instructions -/

/-- The opcodes that count signature checks or operations of their own. -/
def Opcode.countsSignatures : Opcode → Bool
  | .checkSig _ | .checkDataSig _ | .checkMultiSig _ => true
  | _ => false

variable {context : ScriptContext} {evalChild : CScript → ScriptM Unit} {fExec : Bool} {opcode : Opcode}

theorem execute_instructed_of_not_countsSignatures (notExec : opcode ≠ .exec)
    (noSignature : opcode.countsSignatures = false) :
    Instructed tallies (execute context evalChild fExec opcode) := by
  cases opcode <;> simp only [execute, opCheckLockTimeVerify, opCheckSequenceVerify, opUpgradableNop, opIf, opElse,
    opEndIf, opJump, opVerify, opToAltStack, opFromAltStack, opDrop, opDup, opIfDup, opDepth, opNip, opTuck, opSize,
    opStore, opLoad, opPlace, opPickRoll, opBitwise, opEqual, opCat, opSplit, opReverseBytes, opBin2Num, opUnary,
    opBinary, opWithin, opSetBmd, opHash, opParse, opMerkleRootStack] <;>
    first
      | infer_instance
      | exact absurd rfl notExec
      | exact opRearrange_instructed (by decide)
      | exact absurd noSignature.symm Bool.false_ne_true
      | repeat refine Built.andThen fun _ => ?_
        infer_instance

theorem execute_instructed (notExec : opcode ≠ .exec) : Instructed True (execute context evalChild fExec opcode) := by
  cases counts : opcode.countsSignatures with
  | false => exact execute_instructed_of_not_countsSignatures notExec counts
  | true =>
    have : Fact True := ⟨trivial⟩
    cases opcode <;> simp only [execute] <;>
      first
        | infer_instance
        | cases counts

/-! ## Early ends

No instruction but `OP_EXEC` ends for a lack of rounds. The operations themselves are put together from tests
and from changes of the state, which do not fail. -/

/-- A change of the state. -/
def Unfailing (program : ScriptM Unit) : Prop := ∀ machine halt machine', program machine ≠ .error halt machine'

instance (machine : ScriptMachine) : Built Unfailing isFinal (set machine : ScriptM Unit) :=
  .basic fun _ _ _ failed => nomatch failed

instance (f : ScriptMachine → ScriptMachine) : Built Unfailing isFinal (modify f : ScriptM Unit) :=
  .basic fun _ _ _ failed => nomatch failed

instance (itemSize : ℤ) : Built Unfailing isFinal (checkAndUpdateStackSize itemSize) := by
  simp only [checkAndUpdateStackSize]
  infer_instance

theorem Primitive.unfailing {program : ScriptM Unit} (primitive : Primitive tallies program) :
    Built Unfailing isFinal program := by
  cases primitive with
  | push item =>
    simp only [pushStack]
    infer_instance
  | insert count item =>
    simp only [insertStackItem]
    infer_instance
  | pop | erase depth | setItem idxFromEnd item | fromAlt | toAlt =>
    refine Built.andThen fun _ => ?_
    split <;> infer_instance
  | inPlace f _ =>
    simp only [modifyStack]
    infer_instance
  | control f _ => infer_instance
  | countOps _ count _ =>
    simp only [Nexa.countOps]
    infer_instance
  | addSigChecks _ count =>
    simp only [Nexa.addSigChecks]
    infer_instance

instance (priority := low) {α : Type} {program : ScriptM α} [instructed : Instructed True program] :
    Built Unfailing isFinal program :=
  Built.trans (fun _ primitive => primitive.unfailing) instructed

theorem isFinal_of_built {α : Type} {program : ScriptM α} (built : Built Unfailing isFinal program)
    {machine machine' : ScriptMachine} {halt : Halt} (failed : program machine = .error halt machine') :
    halt.isFinal :=
  Built.raised (fun _ unfailing _ _ _ failed => absurd failed (unfailing _ _ _)) built failed

end Nexa
