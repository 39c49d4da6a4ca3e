import Nexa.Proofs.ScriptPrograms

/-! # What the instructions do to a machine

The bytes on the stacks are counted in `stackSize` and `altStackSize`, stay below the limit and are recorded.
Every primitive operation keeps this, and leaves the script, the limits and the counters of `OP_EXEC` alone.
-/

namespace Nexa

open EStateM

namespace ScriptMachine

@[simp] theorem itemBytes_nil : itemBytes [] = 0 := rfl

@[simp] theorem itemBytes_cons (item : StackItem) (items : List StackItem) :
    itemBytes (item :: items) = item.size + itemBytes items := by
  simp [itemBytes]

@[simp] theorem itemBytes_append (items others : List StackItem) :
    itemBytes (items ++ others) = itemBytes items + itemBytes others := by
  simp [itemBytes]

variable {items : List StackItem} {index : ℕ}

theorem itemBytes_eraseIdx {item : StackItem} (found : items[index]? = some item) :
    item.size + itemBytes (items.eraseIdx index) = itemBytes items := by
  obtain ⟨bound, rfl⟩ := List.getElem?_eq_some_iff.mp found
  exact itemBytes_eq_of_perm (List.getElem_cons_eraseIdx_perm bound)

theorem itemBytes_set {cur : StackItem} (item : StackItem) (found : items[index]? = some cur) :
    cur.size + itemBytes (items.set index item) = item.size + itemBytes items := by
  obtain ⟨bound, rfl⟩ := List.getElem?_eq_some_iff.mp found
  have before := itemBytes_eq_of_perm (List.getElem_cons_eraseIdx_perm bound)
  have after := itemBytes_eq_of_perm (List.set_perm_cons_eraseIdx bound item)
  simp only [itemBytes_cons] at before after
  omega

/-- The counted sizes are those of the items. -/
structure Sized (machine : ScriptMachine) : Prop where
  stack : machine.stackSize = itemBytes machine.stack
  altstack : machine.altStackSize = itemBytes machine.altstack

/-- The bytes are within the limit, and the record knows of them. -/
structure Tracked (machine : ScriptMachine) : Prop extends Sized machine where
  withinLimit : machine.stackUse ≤ machine.maxStackUse
  recorded : machine.stackUse ≤ machine.stats.maxStackBytes

/-- The script, the limits and the depth do not change from step to step. -/
structure SameLimits (machine machine' : ScriptMachine) : Prop where
  flags : machine'.flags = machine.flags
  script : machine'.script = machine.script
  maxScriptSize : machine'.maxScriptSize = machine.maxScriptSize
  maxOps : machine'.maxOps = machine.maxOps
  maxConsensusSigOps : machine'.maxConsensusSigOps = machine.maxConsensusSigOps
  maxStackUse : machine'.maxStackUse = machine.maxStackUse
  maxStackItems : machine'.maxStackItems = machine.maxStackItems
  maxOpExec : machine'.maxOpExec = machine.maxOpExec
  maxOpExecDepth : machine'.maxOpExecDepth = machine.maxOpExecDepth
  nOpExecDepth : machine'.stats.nOpExecDepth = machine.stats.nOpExecDepth

theorem SameLimits.refl (machine : ScriptMachine) : SameLimits machine machine := by
  constructor <;> rfl

variable {machine middle machine' : ScriptMachine}

theorem SameLimits.trans (first : SameLimits machine middle)
    (second : SameLimits middle machine') : SameLimits machine machine' := by
  cases first
  cases second
  constructor <;> simp only [*]

/-- Instructions other than `OP_EXEC` do not count calls either. -/
structure SameFrame (machine machine' : ScriptMachine) : Prop extends SameLimits machine machine' where
  nOpExec : machine'.stats.nOpExec = machine.stats.nOpExec

theorem SameFrame.of_eq {machine machine' : ScriptMachine} (same : machine' = { machine with
      stack := machine'.stack
      altstack := machine'.altstack
      stackSize := machine'.stackSize
      altStackSize := machine'.altStackSize
      pc := machine'.pc
      pbegincodehash := machine'.pbegincodehash
      vfExec := machine'.vfExec
      arrRegisters := machine'.arrRegisters
      bigNumModulo := machine'.bigNumModulo
      stats := { machine.stats with
        consensusSigCheckCount := machine'.stats.consensusSigCheckCount
        nOpCount := machine'.stats.nOpCount
        maxStackBytes := machine'.stats.maxStackBytes } }) : SameFrame machine machine' := by
  rw [same]
  refine ⟨?_, rfl⟩
  constructor <;> rfl

theorem SameFrame.trans (first : SameFrame machine middle)
    (second : SameFrame middle machine') : SameFrame machine machine' where
  toSameLimits := first.toSameLimits.trans second.toSameLimits
  nOpExec := second.nOpExec.trans first.nOpExec

end ScriptMachine

open ScriptMachine

/-! ## The operations on the stacks -/

variable {machine machine' : ScriptMachine} {u : Unit}

/-- A machine after `CheckAndUpdateStackSize`. -/
def ScriptMachine.resized (machine : ScriptMachine) (itemSize : ℤ) : ScriptMachine := { machine with
    stackSize := (machine.stackSize + itemSize).toNat
    stats := { machine.stats with
      maxStackBytes := max machine.stats.maxStackBytes (machine.stackUse + itemSize).toNat } }

theorem checkAndUpdateStackSize_eq_ok_iff {itemSize : ℤ} : checkAndUpdateStackSize itemSize machine = .ok u machine' ↔
      (0 ≤ machine.stackUse + itemSize ∧ machine.stackUse + itemSize < 2 ^ 31 ∧
        machine.stackUse + itemSize ≤ machine.maxStackUse) ∧ machine.resized itemSize = machine' := by
  have total : (machine.altStackSize + machine.stackSize + itemSize : ℤ) = machine.stackUse + itemSize := by
    simp only [stackUse]
    omega
  simp only [checkAndUpdateStackSize, get_bind_apply, bind_eq_ok_iff, abortIf_eq_ok_iff, total]
  constructor
  · rintro ⟨_, _, ⟨inRange, rfl⟩, _, _, ⟨withinLimit, rfl⟩, ⟨_⟩⟩
    exact ⟨by omega, rfl⟩
  · rintro ⟨bounds, rfl⟩
    exact ⟨(), _, ⟨by omega, rfl⟩, (), _, ⟨by omega, rfl⟩, rfl⟩

variable {item : StackItem} {count : ℕ}

theorem insertStackItem_eq_ok_iff : insertStackItem count item machine = .ok u machine' ↔
      (machine.stackUse + item.size < 2 ^ 31 ∧ machine.stackUse + item.size ≤ machine.maxStackUse) ∧
        { machine.resized item.size with
          stack := machine.stack.take count ++ item :: machine.stack.drop count } = machine' := by
  simp only [insertStackItem, bind_eq_ok_iff, checkAndUpdateStackSize_eq_ok_iff]
  constructor
  · rintro ⟨_, _, ⟨bounds, rfl⟩, ⟨_⟩⟩
    exact ⟨by omega, rfl⟩
  · rintro ⟨bounds, rfl⟩
    exact ⟨(), _, ⟨by omega, rfl⟩, rfl⟩

theorem pushStack_eq_ok_iff : pushStack item machine = .ok u machine' ↔
      (machine.stackUse + item.size < 2 ^ 31 ∧ machine.stackUse + item.size ≤ machine.maxStackUse) ∧
        { machine.resized item.size with stack := item :: machine.stack } = machine' :=
  @insertStackItem_eq_ok_iff _ _ _ _ 0

theorem popStack_eq_ok (ran : popStack machine = .ok u machine') : ∃ item stack, machine.stack = item :: stack ∧
      { machine with stack, stackSize := machine.stackSize - item.size } = machine' := by
  simp only [popStack, get_bind_apply] at ran
  cases found : machine.stack <;> simp only [found] at ran
  · cases ran
  · obtain ⟨_, middle, tested, ⟨_⟩⟩ := bind_eq_ok_iff.mp ran
    exact ⟨_, _, rfl, rfl⟩

theorem eraseStackItemAt_eq_ok {depth : ℕ} (ran : eraseStackItemAt depth machine = .ok u machine') :
    ∃ item, machine.stack[depth - 1]? = some item ∧ { machine with
        stack := machine.stack.eraseIdx (depth - 1)
        stackSize := machine.stackSize - item.size } = machine' := by
  simp only [eraseStackItemAt, get_bind_apply] at ran
  cases found : machine.stack[depth - 1]? <;> simp only [found] at ran
  · cases ran
  · obtain ⟨_, middle, tested, ⟨_⟩⟩ := bind_eq_ok_iff.mp ran
    exact ⟨_, rfl, rfl⟩

theorem setStackItem_eq_ok {idxFromEnd : ℕ} (ran : setStackItem idxFromEnd item machine = .ok u machine') :
    ∃ cur, machine.stack[idxFromEnd]? = some cur ∧ machine.stackUse + (item.size - cur.size : ℤ) ≤ machine.maxStackUse ∧
      { machine.resized (item.size - cur.size) with stack := machine.stack.set idxFromEnd item } = machine' := by
  simp only [setStackItem, get_bind_apply] at ran
  cases found : machine.stack[idxFromEnd]? <;> simp only [found] at ran
  · cases ran
  · simp only [bind_eq_ok_iff, checkAndUpdateStackSize_eq_ok_iff] at ran
    obtain ⟨_, _, ⟨bounds, rfl⟩, ⟨_⟩⟩ := ran
    exact ⟨_, rfl, bounds.2.2, rfl⟩

theorem moveAltToStack_eq_ok (ran : moveAltToStack machine = .ok u machine') :
    ∃ elem altstack, machine.altstack = elem :: altstack ∧ { machine with
        stack := elem :: machine.stack
        altstack
        stackSize := machine.stackSize + elem.size
        altStackSize := machine.altStackSize - elem.size } = machine' := by
  simp only [moveAltToStack, get_bind_apply] at ran
  cases found : machine.altstack <;> simp only [found] at ran <;> cases ran
  exact ⟨_, _, rfl, rfl⟩

theorem moveStackToAlt_eq_ok (ran : moveStackToAlt machine = .ok u machine') :
    ∃ elem stack, machine.stack = elem :: stack ∧ { machine with
        stack
        altstack := elem :: machine.altstack
        stackSize := machine.stackSize - elem.size
        altStackSize := machine.altStackSize + elem.size } = machine' := by
  simp only [moveStackToAlt, get_bind_apply] at ran
  cases found : machine.stack <;> simp only [found] at ran <;> cases ran
  exact ⟨_, _, rfl, rfl⟩

theorem countOps_eq_ok_iff : countOps count machine = .ok u machine' ↔
      (machine.stats.nOpCount + count) % 2 ^ 32 ≤ machine.maxOps ∧ { machine with
          stats := { machine.stats with nOpCount := (machine.stats.nOpCount + count) % 2 ^ 32 } } = machine' := by
  simp only [countOps, bind_eq_ok_iff, abortIf_eq_ok_iff]
  constructor
  · rintro ⟨_, _, ⟨_⟩, _, _, ⟨_⟩, inLimit, rfl⟩
    exact ⟨not_lt.mp inLimit, rfl⟩
  · rintro ⟨inLimit, rfl⟩
    exact ⟨(), _, rfl, _, _, rfl, not_lt.mpr inLimit, rfl⟩

/-! ## Effects -/

/-- What a successful instruction other than `OP_EXEC` does. Neither counter changes without `tallies`. -/
structure Effect (tallies : Prop) (machine machine' : ScriptMachine) : Prop extends
    SameFrame machine machine' where
  maxStackBytes : machine.stats.maxStackBytes ≤ machine'.stats.maxStackBytes
  tracked : machine.Tracked → machine'.Tracked
  nOpCount : machine.maxOps + maxPubkeysPerMultisig < 2 ^ 32 → machine.stats.nOpCount ≤ machine.maxOps →
    machine.stats.nOpCount ≤ machine'.stats.nOpCount ∧ machine'.stats.nOpCount ≤ machine'.maxOps
  untallied : ¬tallies → machine'.stats.nOpCount = machine.stats.nOpCount ∧
    machine'.stats.consensusSigCheckCount = machine.stats.consensusSigCheckCount

namespace Effect

variable {tallies : Prop} {middle : ScriptMachine}

theorem refl (machine : ScriptMachine) : Effect tallies machine machine where
  toSameFrame := .of_eq rfl
  maxStackBytes := le_rfl
  tracked := id
  nOpCount _ inLimit := ⟨le_rfl, inLimit⟩
  untallied _ := ⟨rfl, rfl⟩

theorem trans (first : Effect tallies machine middle) (second : Effect tallies middle machine') :
    Effect tallies machine machine' where
  toSameFrame := first.toSameFrame.trans second.toSameFrame
  maxStackBytes := first.maxStackBytes.trans second.maxStackBytes
  tracked := second.tracked ∘ first.tracked
  nOpCount small inLimit := by
    obtain ⟨grown, stillIn⟩ := first.nOpCount small inLimit
    obtain ⟨grown', stillIn'⟩ := second.nOpCount (first.maxOps ▸ small) stillIn
    exact ⟨grown.trans grown', stillIn'⟩
  untallied noTallies := by
    obtain ⟨ops, sigs⟩ := first.untallied noTallies
    obtain ⟨ops', sigs'⟩ := second.untallied noTallies
    exact ⟨ops'.trans ops, sigs'.trans sigs⟩

theorem ofTracked (frame : SameFrame machine machine')
    (maxStackBytes : machine.stats.maxStackBytes ≤ machine'.stats.maxStackBytes)
    (tracked : machine.Tracked → machine'.Tracked)
    (nOpCount : machine'.stats.nOpCount = machine.stats.nOpCount)
    (sigs : machine'.stats.consensusSigCheckCount = machine.stats.consensusSigCheckCount) :
    Effect tallies machine machine' where
  toSameFrame := frame
  maxStackBytes := maxStackBytes
  tracked := tracked
  nOpCount _ inLimit := by
    rw [nOpCount, frame.maxOps]
    exact ⟨le_rfl, inLimit⟩
  untallied _ := ⟨nOpCount, sigs⟩

end Effect

theorem ScriptMachine.resized_frame (machine : ScriptMachine) (itemSize : ℤ) (stack : List StackItem) :
    SameFrame machine { machine.resized itemSize with stack } :=
  .of_eq rfl

variable {tallies : Prop}

theorem Effect.resized {itemSize : ℤ} {stack : List StackItem}
    (bytes : (itemBytes stack : ℤ) = itemBytes machine.stack + itemSize)
    (inLimit : machine.stackUse + itemSize ≤ machine.maxStackUse) :
    Effect tallies machine { machine.resized itemSize with stack } := by
  refine .ofTracked (machine.resized_frame itemSize stack) (le_max_left _ _) (fun before => ?_) rfl rfl
  have sized := before.stack
  simp only [stackUse] at inLimit
  constructor
  · constructor
    · simp only [ScriptMachine.resized]
      omega
    · exact before.altstack
  · simp only [ScriptMachine.resized, stackUse]
    omega
  · simp only [ScriptMachine.resized, stackUse]
    omega

theorem Effect.restacked {stack altstack : List StackItem} {stackSize altStackSize : ℕ}
    (sized : machine.stackSize = itemBytes machine.stack → machine.altStackSize = itemBytes machine.altstack →
      stackSize = itemBytes stack ∧ altStackSize = itemBytes altstack ∧ stackSize + altStackSize ≤ machine.stackUse) :
    Effect tallies machine { machine with stack, altstack, stackSize, altStackSize } := by
  refine .ofTracked (.of_eq rfl) le_rfl (fun before => ?_) rfl rfl
  obtain ⟨stackSized, altStackSized, fewer⟩ := sized before.stack before.altstack
  exact ⟨⟨stackSized, altStackSized⟩, fewer.trans before.withinLimit, fewer.trans before.recorded⟩

theorem Primitive.effect {program : ScriptM Unit} (primitive : Primitive tallies program) {machine' : ScriptMachine}
    (ran : program machine = .ok () machine') : Effect tallies machine machine' := by
  cases primitive with
  | push item =>
    obtain ⟨bounds, rfl⟩ := pushStack_eq_ok_iff.mp ran
    exact .resized (by simp only [itemBytes_cons]; omega) (by omega)
  | insert count item =>
    obtain ⟨⟨-, inLimit⟩, rfl⟩ := insertStackItem_eq_ok_iff.mp ran
    have parts := itemBytes_append (machine.stack.take count) (machine.stack.drop count)
    rw [List.take_append_drop] at parts
    exact .resized (by simp only [itemBytes_append, itemBytes_cons]; omega) (by omega)
  | pop =>
    obtain ⟨item, stack, shape, rfl⟩ := popStack_eq_ok ran
    refine .restacked fun sized altSized => ?_
    simp only [shape, itemBytes_cons] at sized
    simp only [stackUse]
    omega
  | erase depth =>
    obtain ⟨item, found, rfl⟩ := eraseStackItemAt_eq_ok ran
    refine .restacked fun sized altSized => ?_
    have erased := itemBytes_eraseIdx found
    simp only [stackUse]
    omega
  | setItem idxFromEnd item =>
    obtain ⟨cur, found, inLimit, rfl⟩ := setStackItem_eq_ok ran
    have replaced := itemBytes_set item found
    exact .resized (by omega) inLimit
  | fromAlt =>
    obtain ⟨elem, altstack, shape, rfl⟩ := moveAltToStack_eq_ok ran
    refine .restacked fun sized altSized => ?_
    simp only [shape, itemBytes_cons] at altSized
    simp only [stackUse, itemBytes_cons]
    omega
  | toAlt =>
    obtain ⟨elem, stack, shape, rfl⟩ := moveStackToAlt_eq_ok ran
    refine .restacked fun sized altSized => ?_
    simp only [shape, itemBytes_cons] at sized
    simp only [stackUse, itemBytes_cons]
    omega
  | inPlace f sameBytes =>
    cases ran
    exact .restacked fun sized altSized => ⟨by rw [sameBytes, sized], altSized, le_rfl⟩
  | control f onlyControl =>
    cases ran
    rw [onlyControl]
    exact .ofTracked (.of_eq rfl) le_rfl
      (fun ⟨⟨stack, altstack⟩, limit, record⟩ => ⟨⟨stack, altstack⟩, limit, record⟩) rfl
      rfl
  | countOps allowed count few =>
    obtain ⟨inLimit, rfl⟩ := countOps_eq_ok_iff.mp ran
    refine ⟨.of_eq rfl, le_rfl,
      fun before => ⟨⟨before.stack, before.altstack⟩, before.withinLimit, before.recorded⟩, ?_,
      fun noTallies => absurd allowed noTallies⟩
    intro small counted
    have noWrap : (machine.stats.nOpCount + count) % 2 ^ 32 = machine.stats.nOpCount + count :=
      Nat.mod_eq_of_lt (by omega)
    simp only [noWrap]
    omega
  | addSigChecks allowed count =>
    cases ran
    exact ⟨.of_eq rfl, le_rfl, fun before => ⟨⟨before.stack, before.altstack⟩, before.withinLimit, before.recorded⟩,
      fun _ inLimit => ⟨le_rfl, inLimit⟩, fun noTallies => absurd allowed noTallies⟩

theorem effect_of_instructed {α : Type} {program : ScriptM α} (instructed : Instructed tallies program)
    {machine' : ScriptMachine} {a : α} (ran : program machine = .ok a machine') : Effect tallies machine machine' :=
  Built.rel .refl (fun _ _ _ => .trans) (fun _ primitive _ _ => primitive.effect) instructed ran

end Nexa
