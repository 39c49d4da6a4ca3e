import Nexa.Proofs.GetOp
import Nexa.Proofs.ScriptEffects

/-! # One step of a machine

A step reads an instruction, counts it and carries it out. `OP_EXEC` takes a machine with its parameters and
its code from the stack, and later takes over the statistics and the results of that machine.
-/

namespace Nexa

open ScriptMachine EStateM

variable {machine machine' : ScriptMachine} {u : Unit}

/-! ## Fetching -/

/-- A machine behind an instruction that is followed by `rest`. -/
def ScriptMachine.fetched (machine : ScriptMachine) (opcode : ℕ) (rest : CScript) : ScriptMachine :=
  { machine with
    pc := machine.script.length - rest.length
    stats := { machine.stats with
      nOpCount := if OP_16 < opcode then (machine.stats.nOpCount + 1) % 2 ^ 32 else machine.stats.nOpCount } }

variable {instruction : ℕ × Bytes} {opcode count : ℕ} {child : ScriptMachine} {call : ExecCall}

theorem readInstruction_eq_ok_iff :
    readInstruction machine = .ok instruction machine' ↔
      ∃ rest, getOp (machine.script.drop machine.pc) = some (instruction, rest) ∧
        { machine with pc := machine.script.length - rest.length } = machine' := by
  simp only [readInstruction, get_bind_apply]
  cases getOp (machine.script.drop machine.pc) with
  | none => simp
  | some read =>
    obtain ⟨read, rest⟩ := read
    simp only [bind_eq_ok_iff, Option.some.injEq, Prod.mk.injEq]
    constructor
    · rintro ⟨_, _, ⟨_⟩, ⟨_⟩⟩
      exact ⟨rest, ⟨rfl, rfl⟩, rfl⟩
    · rintro ⟨_, ⟨rfl, rfl⟩, rfl⟩
      exact ⟨(), _, rfl, rfl⟩

theorem fetch_eq_ok_iff {data : Bytes} :
    fetch machine = .ok (opcode, data) machine' ↔
      ∃ rest, getOp (machine.script.drop machine.pc) = some ((opcode, data), rest) ∧
        withinStackWidth data.length machine.flags = true ∧
        (OP_16 < opcode → (machine.stats.nOpCount + 1) % 2 ^ 32 ≤ machine.maxOps) ∧
        isOpcodeDisabled opcode = false ∧ machine.fetched opcode rest = machine' := by
  simp only [fetch, bind_eq_ok_iff, readInstruction_eq_ok_iff, get_bind_apply, abortIf_eq_ok_iff]
  constructor
  · rintro ⟨⟨op, bytes⟩, _, ⟨rest, read, rfl⟩, _, _, ⟨narrow, rfl⟩, counted⟩
    split at counted
    next isCounted =>
      simp only [bind_eq_ok_iff, countOps_eq_ok_iff, abortIf_eq_ok_iff] at counted
      obtain ⟨_, _, ⟨inLimit, rfl⟩, _, _, ⟨enabled, rfl⟩, ⟨_⟩⟩ := counted
      refine ⟨rest, read, by simpa using narrow, fun _ => inLimit, by simpa using enabled, ?_⟩
      simp [fetched, isCounted]
    next notCounted =>
      simp only [bind_eq_ok_iff, abortIf_eq_ok_iff] at counted
      obtain ⟨_, _, ⟨enabled, rfl⟩, ⟨_⟩⟩ := counted
      refine ⟨rest, read, by simpa using narrow, fun isCounted => absurd isCounted notCounted,
        by simpa using enabled, ?_⟩
      simp [fetched, notCounted]
  · rintro ⟨rest, read, narrow, inLimit, enabled, rfl⟩
    refine ⟨_, _, ⟨rest, read, rfl⟩, (), _, ⟨by simpa using narrow, rfl⟩, ?_⟩
    split
    next isCounted =>
      simp only [bind_eq_ok_iff, countOps_eq_ok_iff, abortIf_eq_ok_iff]
      refine ⟨(), _, ⟨inLimit isCounted, rfl⟩, (), _, ⟨by simpa using enabled, rfl⟩, ?_⟩
      simp [fetched, isCounted]
    next notCounted =>
      simp only [bind_eq_ok_iff, abortIf_eq_ok_iff]
      refine ⟨(), _, ⟨by simpa using enabled, rfl⟩, ?_⟩
      simp [fetched, notCounted]

instance : Instructed True readInstruction := by
  refine Built.andThen fun _ => ?_
  split <;> infer_instance

instance : Instructed True (countOps 1) := .basic (.countOps trivial 1 (by decide))

instance : Instructed True fetch := by
  simp only [fetch]
  infer_instance

theorem fetch_effect (ran : fetch machine = .ok instruction machine') :
    Effect True machine machine' :=
  effect_of_instructed inferInstance ran

/-! ## The switch -/

theorem eq_of_operation_eq_exec (isExec : Opcode.operation opcode = .exec) : opcode = OP_EXEC := by
  unfold Opcode.operation at isExec
  split at isExec <;> first | rfl | cases isExec

theorem ofByte_eq_exec_iff : Opcode.ofByte opcode = .exec ↔ opcode = OP_EXEC := by
  constructor
  · intro isExec
    unfold Opcode.ofByte at isExec
    split at isExec
    · cases isExec
    · exact eq_of_operation_eq_exec isExec
  · rintro rfl
    rfl

instance (opcode : ℕ) (vchPushValue : Bytes) {tallies : Prop} : Instructed tallies (pushData opcode vchPushValue) := by
  simp only [pushData]
  infer_instance

variable {context : ScriptContext} {evalChild : CScript → ScriptM Unit} {fExec upgrade2 : Bool}
  {data : Bytes}

theorem dispatch_exec (isExec : Opcode.ofByte opcode = .exec) :
    dispatch context evalChild true upgrade2 opcode data = opExec evalChild := by
  obtain rfl := ofByte_eq_exec_iff.mp isExec
  rfl

theorem not_isIfControlOpcode_of_exec (isExec : Opcode.ofByte opcode = .exec) :
    isIfControlOpcode opcode upgrade2 = false := by
  obtain rfl := ofByte_eq_exec_iff.mp isExec
  cases upgrade2 <;> rfl

theorem dispatch_instructed (notCalled : ¬(fExec = true ∧ Opcode.ofByte opcode = .exec)) :
    Instructed True (dispatch context evalChild fExec upgrade2 opcode data) := by
  simp only [dispatch]
  split
  · infer_instance
  split
  next taken =>
    apply execute_instructed
    intro isExec
    rw [not_isIfControlOpcode_of_exec isExec] at taken
    exact notCalled ⟨by simpa using taken, isExec⟩
  · infer_instance

/-! ## The limit on items -/

/-- A machine whose items are recorded. -/
def ScriptMachine.itemsRecorded (machine : ScriptMachine) : ScriptMachine :=
  { machine with
    stats := { machine.stats with maxStackItems := max machine.stats.maxStackItems machine.stackItems } }

theorem limitStackItems_eq_ok_iff :
    limitStackItems machine = .ok u machine' ↔
      machine.stackItems ≤ machine.maxStackItems ∧ machine.itemsRecorded = machine' := by
  simp only [limitStackItems, bind_eq_ok_iff, abortIf_eq_ok_iff]
  constructor
  · rintro ⟨_, _, ⟨_⟩, _, _, ⟨_⟩, inLimit, rfl⟩
    exact ⟨not_lt.mp inLimit, rfl⟩
  · rintro ⟨inLimit, rfl⟩
    exact ⟨(), _, rfl, _, _, rfl, not_lt.mpr inLimit, rfl⟩

theorem step_eq_ok_iff {context : ScriptContext} {evalChild : CScript → ScriptM Unit} :
    step context evalChild machine = .ok u machine' ↔
      ∃ opcode data fetched carriedOut, fetch machine = .ok (opcode, data) fetched ∧
        dispatch context evalChild machine.vfExec.allTrue (machine.flags.has .UPGRADE2_OPCODES) opcode data fetched =
          .ok () carriedOut ∧
        carriedOut.stackItems ≤ carriedOut.maxStackItems ∧ carriedOut.itemsRecorded = machine' := by
  simp only [step, get_bind_apply, bind_eq_ok_iff, limitStackItems_eq_ok_iff, Prod.exists]
  constructor
  · rintro ⟨opcode, data, fetched, fetch, _, carriedOut, dispatch, inLimit⟩
    exact ⟨opcode, data, fetched, carriedOut, fetch, dispatch, inLimit⟩
  · rintro ⟨opcode, data, fetched, carriedOut, fetch, dispatch, inLimit⟩
    exact ⟨opcode, data, fetched, fetch, (), carriedOut, dispatch, inLimit⟩

/-! ## OP_EXEC -/

/-- An effect that leaves no more on the stacks than there was. -/
structure Shrunk (machine machine' : ScriptMachine) : Prop extends Effect False machine machine' where
  items : machine'.stackItems ≤ machine.stackItems
  use : machine.Tracked → machine'.stackUse ≤ machine.stackUse

theorem Shrunk.refl (machine : ScriptMachine) : Shrunk machine machine := ⟨.refl machine, le_rfl, fun _ => le_rfl⟩

theorem Shrunk.trans {middle : ScriptMachine} (first : Shrunk machine middle) (second : Shrunk middle machine') :
    Shrunk machine machine' :=
  ⟨first.toEffect.trans second.toEffect, second.items.trans first.items,
    fun before => (second.use (first.tracked before)).trans (first.use before)⟩

theorem popStack_shrunk (ran : popStack machine = .ok u machine') : Shrunk machine machine' := by
  refine ⟨Primitive.effect .pop ran, ?_, fun _ => ?_⟩
  all_goals obtain ⟨item, stack, shape, rfl⟩ := popStack_eq_ok ran
  · simp only [stackItems, shape, List.length_cons]
    omega
  · simp only [stackUse]
    omega

theorem popMany_shrunk (ran : popMany count machine = .ok u machine') : Shrunk machine machine' := by
  induction count generalizing machine with
  | zero =>
    cases ran
    exact .refl _
  | succ count ih =>
    obtain ⟨_, middle, popped, rest⟩ := bind_eq_ok_iff.mp ran
    exact (popStack_shrunk popped).trans (ih rest)

theorem inChild_eq_ok_iff {α : Type} {program : ScriptM α} {child' : ScriptMachine} :
    inChild program child machine = .ok child' machine' ↔ (∃ a, program child = .ok a child') ∧ machine = machine' := by
  unfold inChild
  cases program child <;> simp

/-- What is moved from one machine to another. -/
structure Moved (machine child machine' child' : ScriptMachine) : Prop where
  caller : Shrunk machine machine'
  callee : Effect False child child'
  items : machine'.stackItems + child'.stackItems = machine.stackItems + child.stackItems
  use : machine.Tracked → machine'.stackUse + child'.stackUse = machine.stackUse + child.stackUse

theorem moveParameter {parameter : Bytes} {child' : ScriptMachine} (top : machine.stack[0]? = some (.vch parameter))
    (pushed : pushStack (.vch parameter) child = .ok u child') (popped : popStack machine = .ok u machine') :
    Moved machine child machine' child' := by
  refine ⟨popStack_shrunk popped, Primitive.effect (.push _) pushed, ?_, ?_⟩
  all_goals
    obtain ⟨item, stack, shape, rfl⟩ := popStack_eq_ok popped
    obtain ⟨-, rfl⟩ := pushStack_eq_ok_iff.mp pushed
    obtain rfl : item = .vch parameter := by simpa [shape] using top
  · simp only [stackItems, resized, shape, List.length_cons]
    omega
  · intro before
    have sized := before.stack
    simp only [shape, itemBytes_cons] at sized
    simp only [stackUse, resized]
    omega

theorem moveParameters_moved {child' : ScriptMachine} (ran : moveParameters count child machine = .ok child' machine') :
    Moved machine child machine' child' := by
  induction count generalizing machine child with
  | zero =>
    cases ran
    exact ⟨.refl _, .refl _, rfl, fun _ => rfl⟩
  | succ count ih =>
    simp only [moveParameters, bind_eq_ok_iff, stacktop_eq_ok_iff, inChild_eq_ok_iff] at ran
    obtain ⟨parameter, _, ⟨top, rfl⟩, next, _, ⟨⟨_, pushed⟩, rfl⟩, _, rest, popped, ran⟩ := ran
    have first := moveParameter top pushed popped
    have others := ih ran
    refine ⟨first.caller.trans others.caller, first.callee.trans others.callee, ?_, fun before => ?_⟩
    · rw [others.items, first.items]
    · rw [others.use (first.caller.tracked before), first.use before]

/-- A machine with one `OP_EXEC` more. -/
def ScriptMachine.execCounted (machine : ScriptMachine) : ScriptMachine :=
  { machine with stats := { machine.stats with nOpExec := machine.stats.nOpExec + 1 } }

/-- A machine with what another one leaves of its bytes. -/
def ScriptMachine.limitedBy (machine caller : ScriptMachine) : ScriptMachine :=
  { machine with maxStackUse := subUInt32 caller.maxStackUse caller.stackUse }

/-- What `OP_EXEC` moves from `machine`, of which `caller` is left, to `child`. -/
structure Called (machine caller child : ScriptMachine) : Prop where
  depthInLimit : machine.stats.nOpExecDepth < machine.maxOpExecDepth
  countInLimit : machine.stats.nOpExec < machine.maxOpExec
  left : Shrunk machine caller
  moved : Effect False (execMachine machine) child
  items : caller.stackItems + child.stackItems ≤ machine.stackItems
  use : machine.Tracked → caller.stackUse + child.stackUse ≤ machine.stackUse

theorem prepareExec_eq_ok (ran : prepareExec machine = .ok call machine') :
    ∃ caller child, Called machine caller child ∧ caller.execCounted = machine' ∧
      child.limitedBy caller = call.child := by
  simp only [prepareExec, get_bind_apply, bind_eq_ok_iff, abortIf_eq_ok_iff, requireItems_eq_ok_iff,
    stackItemAt_eq_ok_iff, liftExcept_eq_ok_iff, stacktop_eq_ok_iff] at ran
  obtain ⟨_, _, ⟨depthInLimit, rfl⟩, _, _, ⟨countInLimit, rfl⟩, _, _, ⟨-, rfl⟩, _, _, ⟨_⟩, returnedItem, _,
    ⟨-, rfl⟩, returnedParamQty, _, ⟨-, rfl⟩, paramItem, _, ⟨-, rfl⟩, paramQty, _, ⟨-, rfl⟩, _, _, ⟨-, rfl⟩, _, _,
    ⟨-, rfl⟩, code, _, ⟨-, rfl⟩, _, args, popped, child, before, moved, _, caller, poppedCode, _, _, ⟨_⟩, ⟨_⟩⟩ := ran
  have first := popMany_shrunk popped
  have moved := moveParameters_moved moved
  have last := popStack_shrunk poppedCode
  have empty : (execMachine machine).stackItems = 0 ∧ (execMachine machine).stackUse = 0 := ⟨rfl, rfl⟩
  refine ⟨caller, child, ⟨by omega, by omega, first.trans (moved.caller.trans last), moved.callee, ?_, ?_⟩, rfl, rfl⟩
  · have := first.items
    have := moved.items
    have := last.items
    omega
  · intro before
    have := first.use before
    have := moved.use (first.tracked before)
    have := last.use (moved.caller.tracked (first.tracked before))
    omega

/-- A machine that has taken over the statistics of another. -/
def ScriptMachine.updated (machine child : ScriptMachine) : ScriptMachine :=
  { machine with stats := machine.stats.update child.stats machine.stackUse }

theorem finishExec_eq_ok (ran : finishExec call (.ok () child) machine = .ok u machine') :
    (machine.updated child).stats.nOpExec ≤ Nexa.maxOpExec ∧ Effect False (machine.updated child) machine' := by
  simp only [finishExec, updateStats, bind_eq_ok_iff, get_bind_apply, abortIf_eq_ok_iff] at ran
  obtain ⟨_, _, ⟨_, _, ⟨_⟩, inLimit, rfl⟩, _, _, ⟨-, rfl⟩, _, _, ⟨-, rfl⟩, pushed⟩ := ran
  exact ⟨not_lt.mp inLimit, effect_of_instructed inferInstance pushed⟩

end Nexa
