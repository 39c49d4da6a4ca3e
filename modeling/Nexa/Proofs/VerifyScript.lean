import Nexa.Model.Script.VerifyScript
import Nexa.Proofs.ScriptCounts

/-! # Accepted spends of templates

The satisfier and the arguments consist of pushes up to their end or to an `OP_RETURN`. What the two leave is
all that the template starts with.
-/

namespace Nexa

open ScriptMachine EStateM

variable {context : ScriptContext}

/-! ## Programs without OP_RETURN -/

/-- A program that does not end with the error of `OP_RETURN`. -/
def Unreturned {α : Type} (program : ScriptM α) : Prop :=
  ∀ machine halt machine', program machine = .error halt machine' → halt ≠ .error .opReturn

section Unreturned

variable {α β : Type} {program : ScriptM α} {next : α → ScriptM β}

theorem Unreturned.bind (first : Unreturned program) (second : ∀ a, Unreturned (next a)) :
    Unreturned (program >>= next) := by
  intro machine halt machine' failed
  obtain failed | ⟨a, middle, -, failed⟩ := bind_eq_error_iff.mp failed
  · exact first _ _ _ failed
  · exact second a _ _ _ failed

theorem Unreturned.of_ok (succeeds : ∀ machine, ∃ a machine', program machine = .ok a machine') :
    Unreturned program := by
  intro machine halt machine' failed
  obtain ⟨a, middle, ran⟩ := succeeds machine
  rw [ran] at failed
  cases failed

theorem unreturned_abort {error : ScriptError} (other : error ≠ .opReturn) : Unreturned (abort error : ScriptM α) := by
  intro machine halt machine' failed
  cases failed
  simpa using other

theorem unreturned_abortIf {bad : Prop} [Decidable bad] {error : ScriptError} (other : error ≠ .opReturn) :
    Unreturned (abortIf bad error) := by
  unfold abortIf
  split
  · exact unreturned_abort other
  · exact .of_ok fun machine => ⟨(), machine, rfl⟩

theorem unreturned_get : Unreturned (get : ScriptM ScriptMachine) := .of_ok fun machine => ⟨machine, machine, rfl⟩

theorem unreturned_modify (f : ScriptMachine → ScriptMachine) : Unreturned (modify f : ScriptM Unit) :=
  .of_ok fun machine => ⟨(), f machine, rfl⟩

theorem unreturned_pushStack (item : StackItem) : Unreturned (pushStack item) := by
  refine Unreturned.bind (unreturned_get.bind fun machine => ?_) fun _ => unreturned_modify _
  exact (unreturned_abortIf (by decide)).bind fun _ =>
    (unreturned_abortIf (by decide)).bind fun _ => unreturned_modify _

theorem unreturned_countOps (count : ℕ) : Unreturned (countOps count) :=
  (unreturned_modify _).bind fun _ => unreturned_get.bind fun _ => unreturned_abortIf (by decide)

theorem unreturned_fetch : Unreturned fetch := by
  have read : Unreturned readInstruction := by
    refine unreturned_get.bind fun machine => ?_
    split
    · exact unreturned_abort (by decide)
    · exact (unreturned_modify _).bind fun _ => .of_ok fun machine => ⟨_, machine, rfl⟩
  refine read.bind fun instruction => unreturned_get.bind fun machine =>
    (unreturned_abortIf (by decide)).bind fun _ => ?_
  have rest : Unreturned (do abortIf (isOpcodeDisabled instruction.1 = true) .disabledOpcode; pure instruction) :=
    (unreturned_abortIf (by decide)).bind fun _ => .of_ok fun machine => ⟨_, machine, rfl⟩
  split
  · exact (unreturned_countOps 1).bind fun _ => rest
  · exact rest

theorem unreturned_limitStackItems : Unreturned limitStackItems :=
  (unreturned_modify _).bind fun _ => unreturned_get.bind fun _ => unreturned_abortIf (by decide)

theorem unreturned_beginStep (script : CScript) : Unreturned (beginStep script) :=
  (unreturned_modify _).bind fun _ => unreturned_get.bind fun _ => unreturned_abortIf (by decide)

theorem unreturned_endStep : Unreturned endStep := unreturned_get.bind fun _ => unreturned_abortIf (by decide)

end Unreturned

/-! ## Pushes -/

variable {evalChild : CScript → ScriptM Unit} {upgrade2 : Bool} {opcode : ℕ} {data : Bytes}

theorem dispatch_push (low : opcode ≤ OP_16) :
    dispatch context evalChild true upgrade2 opcode data = pushData opcode data ∨
      (∃ item, dispatch context evalChild true upgrade2 opcode data = pushStack item) ∨
      dispatch context evalChild true upgrade2 opcode data = abort .badOpcode := by
  by_cases holdsData : opcode ≤ OP_PUSHDATA4
  · exact .inl (if_pos ⟨rfl, holdsData⟩)
  have switch : dispatch context evalChild true upgrade2 opcode data =
      execute context evalChild true (Opcode.ofByte opcode) := by
    simp [dispatch, holdsData]
  rw [switch]
  by_cases isNumber : opcode = OP_1NEGATE ∨ OP_1 ≤ opcode ∧ opcode ≤ OP_16
  · rw [Opcode.ofByte, if_pos isNumber]
    exact .inr (.inl ⟨_, rfl⟩)
  · obtain rfl : opcode = 0x50 := by
      unfold OP_1NEGATE OP_1 OP_16 OP_PUSHDATA4 at *
      omega
    exact .inr (.inr rfl)

theorem unreturned_dispatch_push (low : opcode ≤ OP_16) :
    Unreturned (dispatch context evalChild true upgrade2 opcode data) := by
  obtain same | ⟨item, same⟩ | same := @dispatch_push context evalChild upgrade2 opcode data low
  · rw [same]
    exact (Unreturned.of_ok fun machine => ⟨_, machine, rfl⟩).bind fun minimal =>
      (unreturned_abortIf (by decide)).bind fun _ => unreturned_pushStack _
  · rw [same]
    exact unreturned_pushStack item
  · rw [same]
    exact unreturned_abort (by decide)

/-! ## Steps of a script of pushes -/

/-- No conditional is open and what is left of the script is made of pushes. -/
def ScriptMachine.PushesOnly (machine : ScriptMachine) : Prop :=
  machine.vfExec = {} ∧ ∃ rounds, isPushOnlyFrom rounds (machine.script.drop machine.pc) = true

variable {machine machine' : ScriptMachine}

theorem ScriptMachine.PushesOnly.next (pushes : machine.PushesOnly) (unfinished : machine.pc < machine.script.length) :
    ∃ opcode data rest, getOp (machine.script.drop machine.pc) = some ((opcode, data), rest) ∧
      (opcode = OP_RETURN ∨ opcode ≤ OP_16 ∧ ∃ rounds, isPushOnlyFrom rounds rest = true) := by
  obtain ⟨-, rounds, pushes⟩ := pushes
  obtain ⟨byte, behind, left⟩ := List.exists_cons_of_ne_nil (List.drop_eq_nil_iff.not.mpr (not_le.mpr unfinished))
  rw [left] at pushes ⊢
  cases rounds with
  | zero => cases pushes
  | succ rounds =>
    rw [isPushOnlyFrom] at pushes
    split at pushes
    · cases pushes
    next opcode data rest read =>
      refine ⟨opcode, data, rest, read, ?_⟩
      split_ifs at pushes with returns high
      · exact .inl returns
      · exact .inr ⟨not_lt.mp high, rounds, pushes⟩

theorem step_eq_error {halt : Halt} (failed : step context evalChild machine = .error halt machine') :
    fetch machine = .error halt machine' ∨ ∃ opcode data fetched, fetch machine = .ok (opcode, data) fetched ∧
      (dispatch context evalChild machine.vfExec.allTrue (machine.flags.has .UPGRADE2_OPCODES) opcode data fetched =
          .error halt machine' ∨ ∃ carriedOut, limitStackItems carriedOut = .error halt machine') := by
  simp only [step, get_bind_apply] at failed
  obtain failed | ⟨⟨opcode, data⟩, fetched, fetch, failed⟩ := bind_eq_error_iff.mp failed
  · exact .inl failed
  · refine .inr ⟨opcode, data, fetched, fetch, ?_⟩
    obtain failed | ⟨_, carriedOut, -, failed⟩ := bind_eq_error_iff.mp failed
    · exact .inl failed
    · exact .inr ⟨carriedOut, failed⟩

theorem ScriptMachine.PushesOnly.ne_of_push {opcode : ℕ} {data rest : Bytes} {halt : Halt}
    (pushes : machine.PushesOnly) (read : getOp (machine.script.drop machine.pc) = some ((opcode, data), rest))
    (low : opcode ≤ OP_16) (failed : step context evalChild machine = .error halt machine') :
    halt ≠ .error .opReturn := by
  obtain failed | ⟨_, _, fetched, fetch, failed | ⟨carriedOut, failed⟩⟩ := step_eq_error failed
  · exact unreturned_fetch _ _ _ failed
  · obtain ⟨_, read', -, -, -, -⟩ := fetch_eq_ok_iff.mp fetch
    rw [read] at read'
    cases read'
    have taken : machine.vfExec.allTrue = true := by rw [pushes.1]; rfl
    rw [taken] at failed
    exact unreturned_dispatch_push low _ _ _ failed
  · exact unreturned_limitStackItems _ _ _ failed

theorem ScriptMachine.PushesOnly.step_return {data rest : Bytes} (pushes : machine.PushesOnly)
    (read : getOp (machine.script.drop machine.pc) = some ((OP_RETURN, data), rest)) :
    (∀ next, step context evalChild machine ≠ .ok () next) ∧
      (step context evalChild machine = .error (.error .opReturn) machine' →
        machine'.stack = machine.stack ∧ machine'.flags = machine.flags) := by
  have taken : machine.vfExec.allTrue = true := by rw [pushes.1]; rfl
  have opcode : ∀ {opcode data fetched}, fetch machine = .ok (opcode, data) fetched →
      opcode = OP_RETURN ∧ fetched.stack = machine.stack ∧ fetched.flags = machine.flags := by
    intro opcode data fetched fetch
    obtain ⟨_, read', -, -, -, rfl⟩ := fetch_eq_ok_iff.mp fetch
    rw [read] at read'
    cases read'
    exact ⟨rfl, rfl, rfl⟩
  constructor
  · intro next stepped
    obtain ⟨_, _, fetched, carriedOut, fetch, dispatched, -⟩ := step_eq_ok_iff.mp stepped
    rw [taken, (opcode fetch).1] at dispatched
    cases dispatched
  · intro failed
    obtain failed | ⟨_, _, fetched, fetch, failed | ⟨carriedOut, failed⟩⟩ := step_eq_error failed
    · exact absurd rfl (unreturned_fetch _ _ _ failed)
    · rw [taken, (opcode fetch).1] at failed
      cases failed
      exact (opcode fetch).2
    · exact absurd rfl (unreturned_limitStackItems _ _ _ failed)

/-! ## Runs of pushes -/

/-- A run in which only opcodes up to `OP_16` are carried out. -/
def PushRun (context : ScriptContext) (machine last : ScriptMachine) : Prop :=
  ∃ moments, Executes context machine moments last ∧
    ∀ moment ∈ moments, moment.suspended = [] ∧ ∃ opcode ≤ OP_16, moment.machine.nextOpcode = some opcode

variable {rounds : ℕ} {final : ScriptMachine}

theorem PushRun.flags {last : ScriptMachine} (run : PushRun context machine last) : last.flags = machine.flags := by
  obtain ⟨moments, executed, -⟩ := run
  exact executed.sameLimits.flags

theorem PushRun.refl (machine : ScriptMachine) : PushRun context machine machine := ⟨[], .refl machine, by simp⟩

theorem ScriptMachine.PushesOnly.advance {evalChild : CScript → ScriptM Unit} {next : ScriptMachine}
    (pushes : machine.PushesOnly) (unfinished : machine.pc < machine.script.length)
    (stepped : step context evalChild machine = .ok () next) :
    next.PushesOnly ∧ ∀ last, PushRun context next last → PushRun context machine last := by
  obtain ⟨opcode, data, rest, read, rfl | ⟨low, more⟩⟩ := pushes.next unfinished
  · exact absurd stepped ((@PushesOnly.step_return context evalChild machine machine _ _ pushes read).1 next)
  have nextOpcode : machine.nextOpcode = some opcode := by
    simp [ScriptMachine.nextOpcode, read]
  have notCalled : machine.calls = false := by
    have notExec : opcode ≠ OP_EXEC := by
      rintro rfl
      exact absurd low (by decide)
    simp [ScriptMachine.calls, nextOpcode, notExec]
  refine ⟨?_, ?_⟩
  · obtain ⟨_, _, _, carriedOut, fetched, dispatched, -, rfl⟩ := step_eq_ok_iff.mp stepped
    obtain ⟨_, read', -, -, -, rfl⟩ := fetch_eq_ok_iff.mp fetched
    rw [read] at read'
    cases read'
    have taken : machine.vfExec.allTrue = true := by rw [pushes.1]; rfl
    rw [taken] at dispatched
    have pushed : ∃ item, pushStack item (machine.fetched opcode rest) = .ok () carriedOut := by
      obtain same | ⟨item, same⟩ | same := @dispatch_push context evalChild _ opcode data low
      · rw [same] at dispatched
        obtain ⟨minimal, _, ⟨_⟩, dispatched⟩ := bind_eq_ok_iff.mp dispatched
        obtain ⟨_, _, tested, dispatched⟩ := bind_eq_ok_iff.mp dispatched
        obtain ⟨-, rfl⟩ := abortIf_eq_ok_iff.mp tested
        exact ⟨_, dispatched⟩
      · rw [same] at dispatched
        exact ⟨item, dispatched⟩
      · rw [same] at dispatched
        cases dispatched
    obtain ⟨item, pushed⟩ := pushed
    obtain ⟨-, rfl⟩ := pushStack_eq_ok_iff.mp pushed
    obtain ⟨rounds, rest'⟩ := more
    refine ⟨pushes.1, rounds, ?_⟩
    change isPushOnlyFrom rounds (machine.script.drop (machine.script.length - rest.length)) = true
    rw [drop_of_getOp read]
    exact rest'
  rintro last ⟨moments, run, all⟩
  rw [step_congr (fun calls => absurd calls (by simp [notCalled]))] at stepped
  exact ⟨_, .step unfinished notCalled stepped run, List.forall_mem_cons.mpr ⟨⟨rfl, opcode, low, nextOpcode⟩, all⟩⟩

theorem ScriptMachine.PushesOnly.run_to_end (pushes : machine.PushesOnly)
    (ran : stepLoop context rounds machine = .ok () final) :
    PushRun context machine final ∧ final.script.length ≤ final.pc := by
  induction rounds generalizing machine with
  | zero => cases ran
  | succ rounds ih =>
    rw [stepLoop_succ_apply] at ran
    split_ifs at ran with unfinished
    · obtain ⟨_, next, stepped, ran⟩ := bind_eq_ok_iff.mp ran
      obtain ⟨nextPushes, extend⟩ := pushes.advance unfinished stepped
      obtain ⟨run, atEnd⟩ := ih nextPushes ran
      exact ⟨extend _ run, atEnd⟩
    · cases ran
      exact ⟨.refl _, not_lt.mp unfinished⟩

theorem ScriptMachine.PushesOnly.run_to_return (pushes : machine.PushesOnly)
    (ran : stepLoop context rounds machine = .error (.error .opReturn) final) :
    ∃ last, PushRun context machine last ∧ last.nextOpcode = some OP_RETURN ∧
      final.stack = last.stack ∧ final.flags = last.flags := by
  induction rounds generalizing machine with
  | zero => cases ran
  | succ rounds ih =>
    rw [stepLoop_succ_apply] at ran
    split_ifs at ran with unfinished
    · obtain failed | ⟨_, next, stepped, ran⟩ := bind_eq_error_iff.mp ran
      · obtain ⟨opcode, data, rest, read, rfl | ⟨low, more⟩⟩ := pushes.next unfinished
        · exact ⟨machine, .refl machine, by simp [ScriptMachine.nextOpcode, read], (pushes.step_return read).2 failed⟩
        · exact absurd rfl (pushes.ne_of_push read low failed)
      · obtain ⟨nextPushes, extend⟩ := pushes.advance unfinished stepped
        obtain ⟨last, run, returns, same⟩ := ih nextPushes ran
        exact ⟨last, extend _ run, returns, same⟩

/-- The pushes of a script leave a stack, at its end or, after fork 1, in front of an `OP_RETURN`. -/
def RunsPushes (context : ScriptContext) (fork1 : Bool) (script : CScript) (machine : ScriptMachine)
    (stack : List StackItem) : Prop :=
  ∃ start last, beginStep script machine = .ok () start ∧ PushRun context start last ∧ last.stack = stack ∧
    (last.finished ∨ fork1 = true ∧ last.nextOpcode = some OP_RETURN)

theorem runsPushes_of_evalPushes {fork1 : Bool} {script : CScript} {machine after : ScriptMachine}
    (pushOnly : isPushOnly script = true) (ran : evalPushes context rounds fork1 script machine = .ok after) :
    RunsPushes context fork1 script machine after.stack ∧ after.flags = machine.flags := by
  have startPushes : ∀ start, beginStep script machine = .ok () start →
      start.PushesOnly ∧ start.flags = machine.flags := by
    intro start begun
    obtain ⟨-, rfl⟩ := beginStep_eq_ok_iff.mp begun
    exact ⟨⟨rfl, _, pushOnly⟩, rfl⟩
  unfold evalPushes at ran
  split at ran
  next evaluated =>
    cases ran
    obtain ⟨start, begun, looped, empty⟩ := eval_eq_ok_iff.mp evaluated
    obtain ⟨pushes, flags⟩ := startPushes start begun
    obtain ⟨run, atEnd⟩ := pushes.run_to_end looped
    exact ⟨⟨start, after, begun, run, rfl, .inl ⟨atEnd, empty⟩⟩, run.flags.trans flags⟩
  next halt failed evaluated =>
    split_ifs at ran with allowed
    obtain ⟨after1, rfl⟩ := allowed
    cases ran
    obtain begun | ⟨_, start, begun, evaluated⟩ := bind_eq_error_iff.mp evaluated
    · exact absurd rfl (unreturned_beginStep script _ _ _ begun)
    obtain looped | ⟨_, last, -, ended⟩ := bind_eq_error_iff.mp evaluated
    · obtain ⟨pushes, flags⟩ := startPushes start begun
      obtain ⟨last, run, returns, sameStack, sameFlags⟩ := pushes.run_to_return looped
      exact ⟨⟨start, last, begun, run, sameStack.symm, .inr ⟨after1, returns⟩⟩, sameFlags.trans (run.flags.trans flags)⟩
    · exact absurd rfl (unreturned_endStep _ _ _ ended)

/-! ## Accepted spends -/

/-- The template is the well-known one, or the data of the first item and the preimage of its hash. -/
def TakesTemplate (context : ScriptContext) (scriptSig : CScript) (templateHash : Bytes)
    (templateScript rest : CScript) : Prop :=
  templateHash = p2pktId ∧ templateScript = p2pkt ∧ rest = scriptSig ∨
    ∃ opcode, getOp scriptSig = some ((opcode, templateScript), rest) ∧
      isPreimage context templateScript templateHash = true

/-- The hidden arguments are the data of the next item, if there is a hash of which they are the preimage. -/
def TakesArgs (context : ScriptContext) (pc : CScript) (argsHash : Bytes) (hiddenArgs satisfier : CScript) : Prop :=
  argsHash = [] ∧ hiddenArgs = [] ∧ satisfier = pc ∨
    argsHash ≠ [] ∧ ∃ opcode, getOp pc = some ((opcode, hiddenArgs), satisfier) ∧
      isPreimage context hiddenArgs argsHash = true

theorem takesTemplate_of_load {scriptSig templateScript rest : CScript} {templateHash : Bytes}
    (loaded : loadCheckTemplateHash context scriptSig templateHash = .ok (templateScript, rest)) :
    TakesTemplate context scriptSig templateHash templateScript rest := by
  unfold loadCheckTemplateHash at loaded
  split_ifs at loaded with short known
  · cases loaded
    exact .inl ⟨known, rfl, rfl⟩
  · split at loaded
    · cases loaded
    next opcode script behind read =>
      split_ifs at loaded with preimage
      cases loaded
      exact .inr ⟨opcode, read, preimage⟩

theorem takesArgs_of_load {pc hiddenArgs satisfier : CScript} {argsHash : Bytes}
    (loaded : loadCheckArgsHash context pc argsHash = .ok (hiddenArgs, satisfier)) :
    TakesArgs context pc argsHash hiddenArgs satisfier := by
  unfold loadCheckArgsHash at loaded
  split_ifs at loaded with committed
  · split at loaded
    · cases loaded
    next opcode script behind read =>
      split_ifs at loaded with preimage
      cases loaded
      exact .inr ⟨committed, opcode, read, preimage⟩
  · cases loaded
    exact .inl ⟨not_not.mp committed, rfl, rfl⟩

/-- A run of pushes from empty stacks. -/
def PushesFromEmpty (context : ScriptContext) (flags : ScriptFlags) (script : CScript)
    (stack : List StackItem) : Prop :=
  ∃ machine : ScriptMachine, machine.flags = flags ∧ machine.stack = [] ∧ machine.altstack = [] ∧
    RunsPushes context (flags.has .FORK1_OPCODES) script machine stack

/-- A successful evaluation from two stacks to an empty main stack. -/
def Satisfies (context : ScriptContext) (flags : ScriptFlags) (script : CScript) (stack altstack : List StackItem)
    (final : ScriptMachine) : Prop :=
  ∃ machine moments, machine.flags = flags ∧ machine.stack = stack ∧ machine.altstack = altstack ∧
    Evaluates context script machine moments final ∧ final.stack = []

theorem verifyTemplate_eq_ok {templat constraint satisfier : CScript} {flags : ScriptFlags}
    {maxOps maxActualSigops : UInt32} {final : ScriptMachine}
    (accepted : verifyTemplate context rounds templat constraint satisfier flags maxOps maxActualSigops = .ok final) :
    ∃ satisfierStack argsStack, PushesFromEmpty context flags satisfier satisfierStack ∧
      PushesFromEmpty context flags constraint argsStack ∧
      Satisfies context flags templat satisfierStack argsStack final := by
  simp only [verifyTemplate] at accepted
  split_ifs at accepted with satisfierOther constraintOther
  obtain ⟨ssm, evaluatedSatisfier, accepted⟩ := Except.bind_eq_ok_iff.mp accepted
  obtain ⟨sm, evaluatedArgs, accepted⟩ := Except.bind_eq_ok_iff.mp accepted
  obtain ⟨satisfierPushes, satisfierFlags⟩ :=
    runsPushes_of_evalPushes (by simpa using satisfierOther) evaluatedSatisfier
  obtain ⟨argsPushes, argsFlags⟩ := runsPushes_of_evalPushes (by simpa using constraintOther) evaluatedArgs
  obtain ⟨emptyStack, emptyAltstack, createdFlags⟩ : (satisfierMachine flags maxOps maxActualSigops).stack = [] ∧
      (satisfierMachine flags maxOps maxActualSigops).altstack = [] ∧
      (satisfierMachine flags maxOps maxActualSigops).flags = flags := by
    unfold satisfierMachine
    split <;> exact ⟨rfl, rfl, rfl⟩
  have copiedFlags : (constraintMachine ssm).flags = flags := satisfierFlags.trans createdFlags
  split at accepted
  · cases accepted
  next evaluated =>
    split_ifs at accepted with leftOver
    cases accepted
    obtain ⟨moments, evaluates⟩ := exists_evaluates_of_eval evaluated
    exact ⟨ssm.stack, sm.stack, ⟨_, createdFlags, emptyStack, emptyAltstack, satisfierPushes⟩,
      ⟨_, copiedFlags, rfl, rfl, argsPushes⟩,
      ⟨templateMachine ssm sm, moments, argsFlags.trans copiedFlags, rfl, rfl, evaluates, not_not.mp leftOver⟩⟩

/-- The parts of a spend that is accepted. -/
structure TemplateSpend (context : ScriptContext) (flags : ScriptFlags) (scriptSig scriptPubKey : CScript)
    (final : ScriptMachine) where
  templateHash : Bytes
  argsHash : Bytes
  visibleArgs : CScript
  templateScript : CScript
  hiddenArgs : CScript
  behindTemplate : CScript
  satisfier : CScript
  satisfierStack : List StackItem
  argsStack : List StackItem
  committed : getScriptTemplate scriptPubKey .template = .ok templateHash argsHash visibleArgs
  template : TakesTemplate context scriptSig templateHash templateScript behindTemplate
  args : TakesArgs context behindTemplate argsHash hiddenArgs satisfier
  satisfierPushes : PushesFromEmpty context flags satisfier satisfierStack
  argsPushes : PushesFromEmpty context flags (hiddenArgs ++ visibleArgs) argsStack
  satisfied : Satisfies context flags templateScript satisfierStack argsStack final

/-- Every spend of a template that `VerifyScript` accepts has these parts. -/
theorem templateSpend_of_verifyScript {scriptSig scriptPubKey : CScript} {flags : ScriptFlags}
    {maxScriptTemplateOps : UInt32} {final : ScriptMachine}
    (accepted : verifyScript context rounds scriptSig scriptPubKey flags maxScriptTemplateOps = .ok final) :
    Nonempty (TemplateSpend context flags scriptSig scriptPubKey final) := by
  unfold verifyScript at accepted
  split at accepted
  next templateHash argsHash visibleArgs committed =>
    obtain ⟨⟨templateScript, behindTemplate⟩, loaded, accepted⟩ := Except.bind_eq_ok_iff.mp accepted
    obtain ⟨⟨hiddenArgs, satisfier⟩, loadedArgs, accepted⟩ := Except.bind_eq_ok_iff.mp accepted
    obtain ⟨satisfierStack, argsStack, satisfierPushes, argsPushes, satisfied⟩ := verifyTemplate_eq_ok accepted
    exact ⟨{
      templateHash, argsHash, visibleArgs, templateScript, hiddenArgs, behindTemplate, satisfier, satisfierStack
      argsStack, committed, satisfierPushes, argsPushes, satisfied
      template := takesTemplate_of_load (Except.mapError_eq_ok_iff.mp loaded)
      args := takesArgs_of_load (Except.mapError_eq_ok_iff.mp loadedArgs) }⟩
  · cases accepted

def sampleLock : CScript :=
  0 :: 32 :: Sha256.hash (Sha256.hash p2pkt) ++ 32 :: Sha256.hash (Sha256.hash [1, 0x20])

def sampleUnlock : CScript := [2, 0x6c, 0xad, 2, 1, 0x20, 0x40] ++ List.replicate 64 0

theorem templateSpend_of_verifyScript_hidden : ∃ final,
    verifyScript .accepting 10 sampleUnlock sampleLock .FORK1_OPCODES 10 = .ok final ∧
      Nonempty (TemplateSpend .accepting .FORK1_OPCODES sampleUnlock sampleLock final) := by
  have succeeds : (verifyScript .accepting 10 sampleUnlock sampleLock .FORK1_OPCODES 10).toOption.isSome = true := by
    decide +kernel
  cases accepted : verifyScript .accepting 10 sampleUnlock sampleLock .FORK1_OPCODES 10 with
  | error halt =>
    rw [accepted] at succeeds
    cases succeeds
  | ok final => exact ⟨final, rfl, templateSpend_of_verifyScript accepted⟩

end Nexa
