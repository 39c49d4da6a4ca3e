import Nexa.Proofs.ScriptCounts

/-! # Running pieces of scripts

How a machine without open conditionals runs over a piece of its script that does not call: pushes one after
the other, and a multisignature with no signatures, whose only effect is on the count of operations.
-/

namespace Nexa

open ScriptMachine EStateM CScriptNum List

variable {context : ScriptContext}

/-! ## Walks -/

variable {machine : ScriptMachine} {count : ℕ} {middle final : ScriptMachine}

theorem Executes.trans {moments others : List Moment}
    (first : Executes context machine moments middle) (second : Executes context middle others final) :
    Executes context machine (moments ++ others) final := by
  induction first with
  | refl machine => exact second
  | step unfinished notCalled stepped _ ih => exact .step unfinished notCalled stepped (ih second)
  | exec unfinished launched evaluated finished stepped _ _ ih =>
    rw [append_assoc]
    exact .exec unfinished launched evaluated finished stepped (ih second)

/-- A run of `count` steps none of which calls. -/
def Walks (context : ScriptContext) (machine : ScriptMachine) (count : ℕ) (final : ScriptMachine) : Prop :=
  ∃ moments, Executes context machine moments final ∧ moments.length = count ∧
    ∀ moment ∈ moments, moment.machine.calls = false

theorem Walks.refl (machine : ScriptMachine) : Walks context machine 0 machine := ⟨[], .refl machine, rfl, by simp⟩

theorem Walks.trans {others : ℕ} (first : Walks context machine count middle)
    (second : Walks context middle others final) : Walks context machine (count + others) final := by
  obtain ⟨moments, run, rfl, own⟩ := first
  obtain ⟨moments', run', rfl, own'⟩ := second
  exact ⟨moments ++ moments', run.trans run', length_append, forall_mem_append.mpr ⟨own, own'⟩⟩

section

variable {final : ScriptMachine} (walk : Walks context machine count final)
include walk

theorem Walks.sameLimits : SameLimits machine final := by
  obtain ⟨moments, run, -, -⟩ := walk
  exact run.sameLimits

theorem Walks.nOpExec : final.stats.nOpExec = machine.stats.nOpExec := by
  obtain ⟨moments, run, rfl, own⟩ := walk
  induction run with
  | refl machine => rfl
  | step unfinished notCalled stepped _ ih =>
    obtain ⟨opcode, data, fetched, carriedOut, ordinary⟩ := exists_ordinaryStep notCalled stepped
    exact (ih (forall_mem_cons.mp own).2).trans ordinary.nOpExec
  | exec unfinished launched evaluated finished stepped _ _ ih =>
    cases (launch_eq_some_iff.mp launched).1.symm.trans (forall_mem_exec.mp own).1

theorem Walks.stepLoop (rounds : ℕ) : stepLoop context (rounds + count) machine = stepLoop context rounds final := by
  obtain ⟨moments, run, rfl, own⟩ := walk
  induction run with
  | refl machine => rfl
  | step unfinished notCalled stepped _ ih =>
    rw [length_cons, ← Nat.add_assoc, stepLoop_succ_apply, if_pos unfinished]
    rw [step_congr (fun calls => absurd calls (by simp [notCalled]))] at stepped
    rw [bind_eq_of_ok stepped]
    exact ih (forall_mem_cons.mp own).2
  | exec unfinished launched evaluated finished stepped _ _ ih =>
    cases (launch_eq_some_iff.mp launched).1.symm.trans (forall_mem_exec.mp own).1

end

theorem not_completed_of_walks {P : ScriptMachine → Prop}
    (loop : ∀ machine, P machine → ∃ count next, 0 < count ∧ Walks context machine count next ∧ P next)
    (rounds : ℕ) (machine : ScriptMachine) (holds : P machine) :
    ¬Completed (Nexa.stepLoop context rounds machine) := by
  induction rounds using Nat.strong_induction_on generalizing machine with
  | h rounds ih =>
    intro completed
    obtain ⟨count, next, positive, walk, again⟩ := loop machine holds
    by_cases enough : count ≤ rounds
    · obtain ⟨fewer, rfl⟩ := Nat.exists_eq_add_of_le' enough
      rw [walk.stepLoop] at completed
      exact ih fewer (by omega) next again completed
    · have same := stepLoop_of_le (Nat.le_of_not_le enough) completed
      rw [← Nat.zero_add count, walk.stepLoop] at same
      exact completed next same.symm

/-! ## Positions -/

/-- The rules with limits on both stacks and without a check for minimal pushes. -/
def blockFlags : ScriptFlags := .ENFORCE_STACK_TOTAL ||| .RELAX_STACK_WIDTH ||| .FORK1_OPCODES

/-- A machine with its alternative stack empty, at the place of its script that is followed by `rest`. -/
structure ScriptMachine.At (machine : ScriptMachine) (script rest : CScript) (stack : List StackItem)
    (nOpCount : ℕ) : Prop where
  runs : machine.script = script
  place : machine.script.drop machine.pc = rest
  items : machine.stack = stack
  noAlt : machine.altstack = []
  bytes : machine.stackSize = itemBytes stack
  noAltBytes : machine.altStackSize = 0
  counted : machine.stats.nOpCount = nOpCount
  noCondition : machine.vfExec = {}
  rules : machine.flags = blockFlags
  byteLimit : machine.maxStackUse = maxScriptStackSize
  itemLimit : machine.maxStackItems = Nexa.maxStackItems

section At

variable {machine : ScriptMachine} {script rest behind : CScript} {stack : List StackItem} {nOpCount opcode : ℕ}
  {data : Bytes} {item : StackItem} {items : List StackItem} {count offset : ℕ} {code : CScript}

theorem withinStackWidth_blockFlags {size : ℕ} (width : size ≤ maxScriptStackSize) :
    withinStackWidth size blockFlags = true := by
  have relaxed : blockFlags.has .RELAX_STACK_WIDTH = true := by decide
  simp [withinStackWidth, relaxed, width]

theorem setUp_at (script : CScript) (maxOps maxSigOps : UInt32) (maxScriptSize : ℕ) :
    ((setUp blockFlags maxOps maxSigOps maxScriptSize [] []).begun script).At script script [] 0 := by
  constructor <;> rfl

section

variable (here : machine.At script rest stack nOpCount)

include here

theorem ScriptMachine.At.stackUse : machine.stackUse = itemBytes stack := by
  rw [ScriptMachine.stackUse, here.bytes, here.noAltBytes, Nat.add_zero]

theorem ScriptMachine.At.stackItems : machine.stackItems = stack.length := by
  rw [ScriptMachine.stackItems, here.items, here.noAlt, length_nil, Nat.add_zero]

theorem ScriptMachine.At.unfinished (more : rest ≠ []) : machine.pc < machine.script.length := by
  rw [← here.place] at more
  simpa using more

theorem ScriptMachine.At.fetch
    (read : getOp rest = some ((opcode, data), behind)) (width : data.length ≤ maxScriptStackSize)
    (enabled : isOpcodeDisabled opcode = false)
    (inLimit : OP_16 < opcode → (nOpCount + 1) % 2 ^ 32 ≤ machine.maxOps) :
    fetch machine = .ok (opcode, data) (machine.fetched opcode behind) ∧
      (machine.fetched opcode behind).At script behind stack
        (if OP_16 < opcode then (nOpCount + 1) % 2 ^ 32 else nOpCount) := by
  rw [← here.place] at read
  refine ⟨fetch_eq_ok_iff.mpr ⟨behind, read, ?_, ?_, enabled, rfl⟩, ?_⟩
  · rw [here.rules]
    exact withinStackWidth_blockFlags width
  · rw [here.counted]
    exact inLimit
  · refine { here with place := drop_of_getOp read, counted := ?_ }
    simp only [fetched, here.counted]

theorem ScriptMachine.At.itemsRecorded : machine.itemsRecorded.At script rest stack nOpCount := { here with }

theorem ScriptMachine.At.walk {next : ScriptMachine} {later : CScript} {stack' : List StackItem} {nOpCount' : ℕ}
    (read : getOp rest = some ((opcode, data), behind))
    (width : data.length ≤ maxScriptStackSize) (enabled : isOpcodeDisabled opcode = false)
    (notExec : opcode ≠ OP_EXEC) (inLimit : OP_16 < opcode → (nOpCount + 1) % 2 ^ 32 ≤ machine.maxOps)
    (dispatched : dispatch context (returning machine) true false opcode data (machine.fetched opcode behind) =
      .ok () next)
    (there : next.At script later stack' nOpCount') (items : stack'.length ≤ Nexa.maxStackItems) :
    Walks context machine 1 next.itemsRecorded ∧ next.itemsRecorded.At script later stack' nOpCount' := by
  obtain ⟨fetched, -⟩ := here.fetch read width enabled inLimit
  have taken : machine.vfExec.allTrue = true := by rw [here.noCondition]; rfl
  have notCalled : machine.calls = false := by simp [calls, nextOpcode_of_fetch fetched, notExec]
  refine ⟨⟨_, .step (here.unfinished ?_) notCalled ?_ (.refl _), rfl, by simpa using notCalled⟩, there.itemsRecorded⟩
  · rintro rfl
    cases read
  · refine step_eq_ok_iff.mpr ⟨opcode, data, _, next, fetched, ?_, ?_, rfl⟩
    · rw [taken]
      exact dispatched
    · rw [there.stackItems, there.itemLimit]
      exact items

theorem ScriptMachine.At.countOps (inLimit : (nOpCount + count) % 2 ^ 32 ≤ machine.maxOps) :
    ∃ next, countOps count machine = .ok () next ∧ next.At script rest stack ((nOpCount + count) % 2 ^ 32) ∧
      next.maxOps = machine.maxOps := by
  refine ⟨_, countOps_eq_ok_iff.mpr ⟨?_, rfl⟩, ?_, rfl⟩
  · rw [here.counted]
    exact inLimit
  · exact { here with counted := by simp only [here.counted] }

theorem ScriptMachine.At.pushData : pushData opcode data machine = Nexa.pushStack (.vch data) machine := by
  have lax : machine.flags.has .VERIFY_MINIMALDATA = false := by rw [here.rules]; decide
  simp [Nexa.pushData, bind, EStateM.bind, abortIf_apply, lax]

theorem ScriptMachine.At.push (read : getOp rest = some ((opcode, data), behind)) (low : opcode ≤ OP_16)
    (width : data.length ≤ maxScriptStackSize)
    (dispatched : ∀ machine' : ScriptMachine, machine'.At script behind stack nOpCount →
      dispatch context (returning machine) true false opcode data machine' = Nexa.pushStack item machine')
    (bytes : itemBytes stack + item.size ≤ maxScriptStackSize) (items : stack.length + 1 ≤ Nexa.maxStackItems) :
    ∃ next, Walks context machine 1 next ∧ next.At script behind (item :: stack) nOpCount := by
  unfold OP_16 at low
  have enabled : isOpcodeDisabled opcode = false := by
    apply decide_eq_false
    unfold OP_2MUL OP_2DIV OP_INVERT
    omega
  have notExec : opcode ≠ OP_EXEC := by
    unfold OP_EXEC
    omega
  have uncounted : ¬OP_16 < opcode := not_lt.mpr low
  obtain ⟨-, behindIt⟩ := here.fetch read width enabled (fun counted => absurd counted uncounted)
  rw [if_neg uncounted] at behindIt
  refine ⟨_, here.walk read width enabled notExec (fun counted => absurd counted uncounted)
    ((dispatched _ behindIt).trans (pushStack_eq_ok_iff.mpr ⟨?_, rfl⟩)) ?_ items⟩
  · rw [behindIt.stackUse, behindIt.byteLimit]
    exact ⟨bytes.trans_lt (by decide), bytes⟩
  · refine { behindIt with items := ?_, bytes := ?_ }
    · simp only [behindIt.items]
    · simp only [resized, behindIt.bytes, itemBytes_cons]
      omega

end

/-! ## Operations at a place -/

theorem ScriptMachine.At.popStack (here : machine.At script rest (item :: stack) nOpCount) :
    ∃ next, popStack machine = .ok () next ∧ next.At script rest stack nOpCount := by
  have bytes := here.bytes
  rw [itemBytes_cons] at bytes
  refine ⟨{ machine with stack, stackSize := machine.stackSize - item.size }, ?_, ?_⟩
  · have noCrash : ¬machine.stackSize < item.size := by omega
    simp only [Nexa.popStack, get_bind_apply, here.items, crashIf, noCrash]
    rfl
  · exact { here with items := rfl, bytes := by simp only; omega }

theorem ScriptMachine.At.popMany (here : machine.At script rest (items ++ stack) nOpCount) :
    ∃ next, popMany items.length machine = .ok () next ∧ next.At script rest stack nOpCount := by
  induction items generalizing machine with
  | nil => exact ⟨machine, rfl, here⟩
  | cons item items ih =>
    obtain ⟨middle, popped, there⟩ := here.popStack
    obtain ⟨next, poppedRest, last⟩ := ih there
    exact ⟨next, bind_eq_ok_iff.mpr ⟨(), middle, popped, poppedRest⟩, last⟩

/-! ## Pushes -/

theorem ScriptMachine.At.pushBytes {b : Bytes} (here : machine.At script (serializeVector b ++ rest) stack nOpCount)
    (bytes : itemBytes stack + b.length ≤ maxScriptStackSize) (items : stack.length + 1 ≤ Nexa.maxStackItems) :
    ∃ next, Walks context machine 1 next ∧ next.At script rest (.vch b :: stack) nOpCount := by
  have width : b.length ≤ maxScriptStackSize := (Nat.le_add_left ..).trans bytes
  have fits : b.length < 2 ^ 32 := width.trans_lt (by decide)
  refine here.push (reads_serializeVector fits rest) ((pushOpcode_le _).trans (by decide)) width
    (fun _ there => ?_) bytes items
  rw [dispatch, if_pos ⟨rfl, pushOpcode_le _⟩, there.pushData]

theorem ScriptMachine.At.pushZeros (here : machine.At script (replicate count 0 ++ rest) stack nOpCount)
    (bytes : itemBytes stack ≤ maxScriptStackSize) (items : stack.length + count ≤ Nexa.maxStackItems) :
    ∃ next, Walks context machine count next ∧ next.At script rest (replicate count (.vch []) ++ stack) nOpCount := by
  induction count generalizing machine stack with
  | zero => exact ⟨machine, .refl machine, here⟩
  | succ count ih =>
    obtain ⟨middle, walk, there⟩ := @pushBytes context _ _ _ _ _ [] here bytes (by omega)
    obtain ⟨next, walk', last⟩ := ih there (by simpa [StackItem.size] using bytes) (by simp only [length_cons]; omega)
    refine ⟨next, Nat.add_comm 1 count ▸ walk.trans walk', ?_⟩
    rw [replicate_succ']
    simpa using last

theorem ScriptMachine.At.pushNumber {n : ℕ} (here : machine.At script (UInt8.ofNat (0x50 + n) :: rest) stack nOpCount)
    (positive : 1 ≤ n) (small : n ≤ 16) (bytes : itemBytes stack + 1 ≤ maxScriptStackSize)
    (items : stack.length + 1 ≤ Nexa.maxStackItems) :
    ∃ next, Walks context machine 1 next ∧ next.At script rest (.ofInt n :: stack) nOpCount := by
  have byte : (UInt8.ofNat (0x50 + n)).toNat = 0x50 + n := UInt8.toNat_ofNat_of_lt (show 0x50 + n < 256 by omega)
  have read : getOp (UInt8.ofNat (0x50 + n) :: rest) = some ((0x50 + n, []), rest) := by
    have reads := @reads_operation (UInt8.ofNat (0x50 + n)) (by rw [OP_PUSHDATA4]; omega) rest
    rwa [byte] at reads
  have number : Opcode.ofByte (0x50 + n) = .number n := by
    rw [Opcode.ofByte, if_pos (by unfold OP_1 OP_16; omega)]
    congr 1
    unfold OP_1
    omega
  have sizes : ∀ n : ℕ, n ≤ 16 → 1 ≤ n → (StackItem.ofInt n).size = 1 := by decide
  have size := sizes n small positive
  refine here.push read (by unfold OP_16; omega) (Nat.zero_le _) (fun machine' there => ?_) (by omega) items
  have notData : ¬0x50 + n ≤ OP_PUSHDATA4 := by unfold OP_PUSHDATA4; omega
  simp [dispatch, notData, number, execute]

/-! ## A multisignature without signatures -/

/-- The pushes of a bit field without bits, of no signatures and of `count` empty keys, and the opcode. -/
def emptyMultisig (count : ℕ) : CScript := [1, 0, 0] ++ replicate count 0 ++ [UInt8.ofNat (0x50 + count), 0xaf]

/-- The arguments on the stack. -/
def emptyMultisigItems (count : ℕ) : List StackItem :=
  .ofInt count :: (replicate count (.vch []) ++ [.vch [], .vch [0]])

theorem ofVch_serialize_small : ∀ n : ℕ, n ≤ 16 → ∀ minimal,
    ofVch (serialize n) minimal maximumElementSize = .ok (n : ℤ) := by
  decide

theorem multisigKeyCount_empty (small : count ≤ 16) (items : machine.stack = emptyMultisigItems count) :
    multisigKeyCount machine = .ok count machine := by
  have bounds : ¬((count : ℤ) < 0 ∨ (maxPubkeysPerMultisig : ℤ) < count) := by
    unfold maxPubkeysPerMultisig
    omega
  have read : scriptNumAt 1 maximumElementSize machine = .ok (count : ℤ) machine := by
    refine scriptNumAt_eq_ok_iff.mpr ⟨⟨serialize count, ?_, ofVch_serialize_small _ small _⟩, rfl⟩
    rw [items]
    rfl
  simp only [multisigKeyCount]
  rw [requireItems_bind (by simp [items, emptyMultisigItems]), bind_eq_of_ok read, abortIf_bind bounds]
  rfl

theorem multisigSigCount_empty (items : machine.stack = emptyMultisigItems count) :
    multisigSigCount count machine = .ok 0 machine := by
  have length : machine.stack.length = count + 3 := by
    simp [items, emptyMultisigItems]
  have read : scriptNumAt (count + 2) maximumElementSize machine = .ok (0 : ℤ) machine := by
    refine scriptNumAt_eq_ok_iff.mpr ⟨⟨[], ?_, ?_⟩, rfl⟩
    · simp [items, emptyMultisigItems]
    · cases machine.flags.has .VERIFY_MINIMALDATA <;> rfl
  simp only [multisigSigCount]
  rw [requireItems_bind (by omega), bind_eq_of_ok read, abortIf_bind (by omega),
    requireItems_bind (by simp only [Int.toNat_zero]; omega)]
  rfl

theorem multisigVerify_empty (count : ℕ) (rules : machine.flags = blockFlags) :
    multisigVerify context count 0 [0] machine = .ok () machine := by
  have enforced : blockFlags.has .ENFORCE_STACK_TOTAL = true := by decide
  have lax : blockFlags.has .VERIFY_MINIMALDATA = false := by decide
  have positive := Nat.two_pow_pos count
  have decoded : decodeBitfield [0] count true false = .ok 0 := by
    have bits : ¬2 ^ count ≤ (getInt32 0 % 2 ^ 32).toNat := by
      have zero : (getInt32 0 % 2 ^ 32).toNat = 0 := by decide
      omega
    change (if 2 ^ count ≤ (getInt32 0 % 2 ^ 32).toNat then _ else _) = _
    rw [if_neg bits]
    rfl
  simp only [multisigVerify, get_bind_apply, rules, enforced]
  rw [bind_eq_of_ok (fRequireMinimal_apply), rules, lax, decoded]
  rfl

theorem ScriptMachine.At.opCheckMultiSig (here : machine.At script rest (emptyMultisigItems count) nOpCount)
    (small : count ≤ 16) (inLimit : (nOpCount + count) % 2 ^ 32 ≤ machine.maxOps) :
    ∃ next, opCheckMultiSig context true machine = .ok () next ∧
      next.At script rest [] ((nOpCount + count) % 2 ^ 32) := by
  obtain ⟨counted, countOps, there, -⟩ := here.countOps inLimit
  have dummy : stacktop (count + 2 + 0 + 1) counted = .ok [0] counted :=
    stacktop_eq_ok_iff.mpr ⟨by simp [there.items, emptyMultisigItems], rfl⟩
  -- no signature is added to the count
  obtain ⟨checked, added, checkedAt⟩ : ∃ checked, addSigChecks 0 counted = .ok () checked ∧
      checked.At script rest (emptyMultisigItems count) ((nOpCount + count) % 2 ^ 32) :=
    ⟨_, rfl, { there with }⟩
  have arguments : (emptyMultisigItems count).length = count + 2 + 0 + 1 := by
    simp [emptyMultisigItems]
  obtain ⟨next, popped, last⟩ := @popMany _ _ _ [] _ _ (by simpa using checkedAt)
  rw [arguments] at popped
  refine ⟨next, ?_, last⟩
  simp only [Nexa.opCheckMultiSig]
  rw [bind_eq_of_ok (multisigKeyCount_empty small here.items), bind_eq_of_ok countOps,
    bind_eq_of_ok (multisigSigCount_empty there.items), bind_eq_of_ok dummy]
  simp only [ne_eq, cons_ne_nil, not_false_eq_true, decide_true, if_true]
  rw [bind_eq_of_ok added, bind_eq_of_ok (multisigVerify_empty count checkedAt.rules), bind_eq_of_ok popped]
  rfl

theorem ScriptMachine.At.emptyMultisig (here : machine.At script (emptyMultisig count ++ rest) [] nOpCount)
    (positive : 1 ≤ count) (small : count ≤ 16) (inLimit : (nOpCount + 1) % 2 ^ 32 ≤ machine.maxOps)
    (inLimit' : ((nOpCount + 1) % 2 ^ 32 + count) % 2 ^ 32 ≤ machine.maxOps) :
    ∃ next steps, 0 < steps ∧ Walks context machine steps next ∧
      next.At script rest [] (((nOpCount + 1) % 2 ^ 32 + count) % 2 ^ 32) := by
  have shape : Nexa.emptyMultisig count ++ rest =
      1 :: 0 :: 0 :: (replicate count 0 ++ UInt8.ofNat (0x50 + count) :: 0xaf :: rest) := by
    simp [Nexa.emptyMultisig]
  rw [shape] at here
  have room : 16 + 3 ≤ Nexa.maxStackItems := by decide
  obtain ⟨m1, walk1, at1⟩ := @pushBytes context _ _ _ _ _ [0] here (by decide) (by decide)
  obtain ⟨m2, walk2, at2⟩ := @pushBytes context _ _ _ _ _ [] at1 (by decide) (by decide)
  obtain ⟨m3, walk3, at3⟩ := @pushZeros context _ _ _ _ _ _ at2 (by decide)
    (by simp only [length_cons, length_nil]; omega)
  have noBytes : itemBytes (replicate count (.vch []) ++ [.vch [], .vch [0]]) = 1 := by
    simp [itemBytes, StackItem.size]
  obtain ⟨m4, walk4, at4⟩ := @pushNumber context _ _ _ _ _ _ at3 positive small (by rw [noBytes]; decide)
    (by simp only [length_append, length_replicate, length_cons, length_nil]; omega)
  have walk := ((walk1.trans walk2).trans walk3).trans walk4
  have limits := walk.sameLimits.maxOps
  have read : getOp (0xaf :: rest) = some ((0xaf, []), rest) := @reads_operation 0xaf (by decide) rest
  obtain ⟨-, at5⟩ := at4.fetch read (Nat.zero_le _) rfl (fun _ => limits ▸ inLimit)
  obtain ⟨next, ran, last⟩ := @opCheckMultiSig context _ _ _ _ _ at5 small (limits.symm ▸ inLimit')
  obtain ⟨walk5, at6⟩ := at4.walk read (Nat.zero_le _) rfl (by decide) (fun _ => limits ▸ inLimit) ran last (by decide)
  exact ⟨_, _, by omega, walk.trans walk5, at6⟩

/-! ## Jumps -/

theorem ScriptMachine.At.jump (here : machine.At script (0x65 :: rest) (item :: stack) nOpCount)
    (isOffset : item.asInt64 false = .ok (offset : ℤ)) (positive : 0 < offset)
    (inside : offset + 1 ≤ script.length - rest.length) (inLimit : (nOpCount + 1) % 2 ^ 32 ≤ machine.maxOps)
    (items : stack.length ≤ Nexa.maxStackItems) :
    ∃ next, Walks context machine 1 next ∧
      next.At script (script.drop (script.length - rest.length - (offset + 1))) stack ((nOpCount + 1) % 2 ^ 32) := by
  have read : getOp (0x65 :: rest) = some ((0x65, []), rest) := @reads_operation 0x65 (by decide) rest
  obtain ⟨-, behindIt⟩ := here.fetch read (Nat.zero_le _) rfl (fun _ => inLimit)
  have pc : (machine.fetched 0x65 rest).pc = script.length - rest.length := by
    rw [fetched, here.runs]
  generalize fetchedEq : machine.fetched 0x65 rest = start at behindIt pc
  have enabled : start.flags.has .FORK1_OPCODES = true := by rw [behindIt.rules]; decide
  have top : stackItemAt 1 start = .ok item start := stackItemAt_eq_ok_iff.mpr ⟨by simp [behindIt.items], rfl⟩
  have target : ((start.pc : ℤ) - (1 + offset)).toNat = script.length - rest.length - (offset + 1) := by omega
  have jumped : ({ start with pc := script.length - rest.length - (offset + 1) } : ScriptMachine).At script
      (script.drop (script.length - rest.length - (offset + 1))) (item :: stack) ((nOpCount + 1) % 2 ^ 32) :=
    { behindIt with place := by simp only [behindIt.runs] }
  obtain ⟨next, popped, there⟩ := jumped.popStack
  refine ⟨_, here.walk read (Nat.zero_le _) rfl (by decide) (fun _ => inLimit) ?_ there items⟩
  rw [fetchedEq]
  change opJump start = _
  simp only [opJump]
  rw [bind_eq_of_ok (hasFlag_apply _), abortIf_bind (by simp [enabled]),
    requireItems_bind (by simp [behindIt.items]), bind_eq_of_ok top,
    liftExcept_bind isOffset, if_pos (by omega),
    get_bind_apply, abortIf_bind (by omega),
    abortIf_bind (by rw [behindIt.runs]; omega), target]
  rw [← popped]
  rfl

/-! ## A call without parameters and results -/

theorem ScriptMachine.At.prepareExec (here : machine.At script rest (.vch [] :: .vch [] :: .vch code :: stack) nOpCount)
    (depth : machine.stats.nOpExecDepth < machine.maxOpExecDepth) (count : machine.stats.nOpExec < machine.maxOpExec) :
    ∃ left, left.At script rest stack nOpCount ∧ prepareExec machine =
      .ok ⟨(execMachine machine).limitedBy left, code, 0⟩ left.execCounted := by
  obtain ⟨middle, popped, there⟩ := @popMany _ _ _ _ _ [.vch [], .vch []] here
  change Nexa.popMany 2 machine = _ at popped
  obtain ⟨left, poppedCode, last⟩ := there.popStack
  refine ⟨left, last, ?_⟩
  have length : machine.stack.length = stack.length + 3 := by simp [here.items]
  have noQuantity : ∀ minimal, (StackItem.vch []).asInt64 minimal = .ok 0 := by decide
  have returned : stackItemAt 1 machine = .ok (.vch []) machine := stackItemAt_eq_ok_iff.mpr ⟨by simp [here.items], rfl⟩
  have parameters : stackItemAt 2 machine = .ok (.vch []) machine :=
    stackItemAt_eq_ok_iff.mpr ⟨by simp [here.items], rfl⟩
  have readCode : stacktop (3 + Int.toNat 0) machine = .ok code machine :=
    stacktop_eq_ok_iff.mpr ⟨by simp [here.items], rfl⟩
  simp only [Nexa.prepareExec]
  rw [get_bind_apply, abortIf_bind (by omega), abortIf_bind (by omega), requireItems_bind (by omega),
    bind_eq_of_ok fRequireMinimal_apply, bind_eq_of_ok returned,
    liftExcept_bind (noQuantity _), bind_eq_of_ok parameters,
    liftExcept_bind (noQuantity _),
    abortIf_bind (by omega), abortIf_bind (by omega),
    bind_eq_of_ok readCode, bind_eq_of_ok popped,
    bind_eq_of_ok (show moveParameters (Int.toNat 0) (execMachine machine) middle =
      .ok (execMachine machine) middle from rfl), bind_eq_of_ok poppedCode]
  rfl

theorem execMachine_at {left : ScriptMachine} (rules : machine.flags = blockFlags)
    (there : left.At script rest stack nOpCount) (noBytes : itemBytes stack = 0) :
    (((execMachine machine).limitedBy left).begun code).At code code [] 0 := by
  refine ⟨rfl, rfl, rfl, rfl, rfl, rfl, rfl, rfl, rules, ?_, ?_⟩
  · change subUInt32 left.maxStackUse left.stackUse = maxScriptStackSize
    rw [there.byteLimit, there.stackUse, noBytes]
    decide
  · change (if machine.flags.has .ENFORCE_STACK_TOTAL then Nexa.maxStackItems else genesisMaxStackItems) = _
    rw [rules]
    rfl

theorem ScriptMachine.At.call
    (here : machine.At script (0xed :: rest) (.vch [] :: .vch [] :: .vch code :: stack) nOpCount)
    (depth : machine.stats.nOpExecDepth < machine.maxOpExecDepth) (count : machine.stats.nOpExec < machine.maxOpExec)
    (few : machine.stats.nOpExec < Nexa.maxOpExec) (inLimit : (nOpCount + 1) % 2 ^ 32 ≤ machine.maxOps)
    (short : code.length ≤ Nexa.maxScriptSize) (noBytes : itemBytes stack = 0)
    (fits : stack.length ≤ Nexa.maxStackItems)
    (childWalks : ∀ child : ScriptMachine, child.At code code [] 0 → ∃ steps result, Walks context child steps result ∧
      result.At code [] items 0) :
    ∃ caller child result next inner, machine.launch = some (caller, child) ∧
      (Executes context child inner result ∧ ∀ moment ∈ inner, moment.machine.calls = false) ∧ result.finished ∧
      step context (returning result) machine = .ok () next ∧
      caller.stackItems = stack.length ∧ child.maxStackItems = Nexa.maxStackItems ∧ result.stackItems = items.length ∧
      next.At script rest stack ((nOpCount + 1) % 2 ^ 32) := by
  have read : getOp (0xed :: rest) = some ((0xed, []), rest) := @reads_operation 0xed (by decide) rest
  have taken : machine.vfExec.allTrue = true := by rw [here.noCondition]; rfl
  obtain ⟨fetched, behindIt⟩ := here.fetch read (Nat.zero_le _) rfl (fun _ => inLimit)
  rw [if_pos (by decide)] at behindIt
  obtain ⟨left, leftAt, prepared⟩ := behindIt.prepareExec depth count
  have childAt := @execMachine_at _ _ _ _ _ code _ behindIt.rules leftAt noBytes
  obtain ⟨steps, result, walk, resultAt⟩ := childWalks _ childAt
  have launchedCount : (left.execCounted.updated result).stats.nOpExec = machine.stats.nOpExec + 1 := by
    obtain ⟨left', _, called, same, -⟩ := prepareExec_eq_ok prepared
    have leftCount : left.execCounted.stats.nOpExec = machine.stats.nOpExec + 1 := by
      rw [← same]
      exact congrArg (· + 1) (called.left.nOpExec.trans (fetch_effect fetched).nOpExec)
    have resultCount : result.stats.nOpExec = 0 := walk.nOpExec
    change left.execCounted.stats.nOpExec + result.stats.nOpExec = _
    rw [leftCount, resultCount]
  have updatedAt : (left.execCounted.updated result).At script rest stack ((nOpCount + 1) % 2 ^ 32) := by
    refine { leftAt with counted := ?_ }
    change (left.stats.nOpCount + result.stats.nOpCount) % 2 ^ 32 = _
    rw [leftAt.counted, resultAt.counted]
    omega
  have calls : machine.calls = true := calls_iff.mpr ⟨taken, nextOpcode_of_fetch fetched⟩
  have begun : beginStep code ((execMachine (machine.fetched 0xed rest)).limitedBy left) = .ok () _ :=
    beginStep_eq_ok_iff.mpr ⟨short, rfl⟩
  obtain ⟨inner, run, -, own⟩ := walk
  refine ⟨_, _, result, _, inner,
    launch_eq_some_iff.mpr ⟨calls, _, _, _, fetched, prepared, begun⟩, ⟨run, own⟩, ⟨?_, ?_⟩, ?_, leftAt.stackItems,
    childAt.itemLimit, resultAt.stackItems, updatedAt.itemsRecorded⟩
  · exact drop_eq_nil_iff.mp resultAt.place
  · rw [resultAt.noCondition]
    rfl
  · refine step_eq_ok_iff.mpr ⟨OP_EXEC, [], _, _, fetched, ?_, ?_, rfl⟩
    · rw [taken, dispatch_exec rfl, opExec, bind_eq_of_ok prepared]
      have updated : updateStats result left.execCounted = .ok () (left.execCounted.updated result) := by
        refine bind_eq_ok_iff.mpr ⟨(), left.execCounted.updated result, rfl, ?_⟩
        exact abortIf_eq_ok_iff.mpr ⟨by omega, rfl⟩
      simp only [finishExec, returning]
      rw [bind_eq_of_ok updated]
      rfl
    · rw [updatedAt.stackItems, updatedAt.itemLimit]
      exact fits

end At

end Nexa
