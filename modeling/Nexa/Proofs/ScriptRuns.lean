import Nexa.Proofs.MerkleCall
import Nexa.Proofs.ScriptSteps

/-! # Runs of a machine

A run of `Eval` passes a machine from one step to the next. At an `OP_EXEC` it passes all machines of the
evaluation of its code on the way, while the caller waits. What `Eval` returns does not depend on the rounds
the model gives it, as long as they are enough.
-/

namespace Nexa

open ScriptMachine EStateM

variable {context : ScriptContext}

/-! ## Calls -/

variable (machine : ScriptMachine)

/-- The opcode that the next step reads. -/
def ScriptMachine.nextOpcode : Option ℕ := (getOp (machine.script.drop machine.pc)).map fun read => read.1.1

/-- The next step carries out `OP_EXEC`. -/
def ScriptMachine.calls : Bool := machine.vfExec.allTrue ∧ machine.nextOpcode = some OP_EXEC

/-- A machine in front of a script. -/
def ScriptMachine.begun (script : CScript) : ScriptMachine := { machine with
    script
    pc := 0
    pbegincodehash := 0
    stats := { machine.stats with nOpCount := 0 }
    vfExec := {} }

variable {script : CScript} {machine : ScriptMachine} {u : Unit} {caller child fetched : ScriptMachine} {opcode : ℕ}
  {data : Bytes} {evalChild : CScript → ScriptM Unit} {next : ScriptMachine} {rounds : ℕ} {call : ExecCall}

variable {start carriedOut result machine' final : ScriptMachine} {more : ℕ}

theorem beginStep_eq_ok_iff :
    beginStep script machine = .ok u start ↔ script.length ≤ machine.maxScriptSize ∧ machine.begun script = start := by
  simp only [beginStep, bind_eq_ok_iff, get_bind_apply, abortIf_eq_ok_iff]
  constructor
  · rintro ⟨_, _, ⟨_⟩, inLimit, rfl⟩
    exact ⟨not_lt.mp inLimit, rfl⟩
  · rintro ⟨inLimit, rfl⟩
    exact ⟨(), _, rfl, not_lt.mpr inLimit, rfl⟩

/-- The machine that waits and the machine that is evaluated in the next step. -/
def ScriptMachine.launch : Option (ScriptMachine × ScriptMachine) := if machine.calls then
    match (do let _ ← fetch; prepareExec) machine with
    | .ok call caller =>
      match beginStep call.code call.child with
      | .ok _ child => some (caller, child)
      | .error _ _ => none
    | .error _ _ => none
  else none

theorem launch_eq_some_iff : machine.launch = some (caller, child) ↔
      machine.calls = true ∧ ∃ instruction fetched call, fetch machine = .ok instruction fetched ∧
        prepareExec fetched = .ok call caller ∧ beginStep call.code call.child = .ok () child := by
  unfold launch
  split
  next calls =>
    simp only [calls, true_and]
    constructor
    · intro launched
      split at launched
      next call middle ran =>
        obtain ⟨instruction, fetched, fetch, prepared⟩ := bind_eq_ok_iff.mp ran
        split at launched
        next begun =>
          cases launched
          exact ⟨instruction, fetched, call, fetch, prepared, begun⟩
        · cases launched
      · cases launched
    · rintro ⟨instruction, fetched, call, fetch, prepared, begun⟩
      simp [bind_eq_of_ok fetch, prepared, begun]
  next notCalled => simp [notCalled]

theorem nextOpcode_of_fetch (fetch : fetch machine = .ok (opcode, data) fetched) :
    machine.nextOpcode = some opcode := by
  obtain ⟨rest, read, -⟩ := fetch_eq_ok_iff.mp fetch
  simp [nextOpcode, read]

theorem execute_congr (evalChild evalChild' : CScript → ScriptM Unit) {fExec : Bool} {opcode : Opcode}
    (notExec : opcode ≠ .exec) : execute context evalChild fExec opcode = execute context evalChild' fExec opcode := by
  cases opcode <;> first | rfl | exact absurd rfl notExec

/-- A step depends on the evaluation of the child it launches only. -/
theorem step_congr {evalChild' : CScript → ScriptM Unit}
    (same : machine.calls = true → ∀ instruction fetched call caller, fetch machine = .ok instruction fetched →
      prepareExec fetched = .ok call caller → evalChild call.code call.child = evalChild' call.code call.child) :
    step context evalChild machine = step context evalChild' machine := by
  simp only [step, get_bind_apply]
  cases ran : fetch machine with
  | error halt fetched => rw [bind_eq_of_error ran, bind_eq_of_error ran]
  | ok instruction fetched =>
    obtain ⟨opcode, data⟩ := instruction
    rw [bind_eq_of_ok ran, bind_eq_of_ok ran]
    have dispatched : ∀ upgrade2, dispatch context evalChild machine.vfExec.allTrue upgrade2 opcode data fetched =
        dispatch context evalChild' machine.vfExec.allTrue upgrade2 opcode data fetched := by
      intro upgrade2
      by_cases isExec : Opcode.ofByte opcode = .exec
      · cases taken : machine.vfExec.allTrue with
        | false => simp [dispatch, not_isIfControlOpcode_of_exec isExec]
        | true =>
          have calls : machine.calls = true := by
            simp [calls, taken, nextOpcode_of_fetch ran, ofByte_eq_exec_iff.mp isExec]
          rw [dispatch_exec isExec, dispatch_exec isExec]
          simp only [opExec]
          cases prepared : prepareExec fetched with
          | error halt caller => rw [bind_eq_of_error prepared, bind_eq_of_error prepared]
          | ok call caller =>
            rw [bind_eq_of_ok prepared, bind_eq_of_ok prepared, same calls _ _ _ _ ran prepared]
      · simp [dispatch, execute_congr evalChild evalChild' isExec]
    simp [bind, EStateM.bind, dispatched]

/-- The evaluation of a child of which only the result is given. -/
def returning (result : ScriptMachine) : CScript → ScriptM Unit := fun _ _ => .ok () result

/-! ## Steps by case -/

/-- A step that does not call: the machine behind the instruction, and the machine in front of the test of its
items. -/
structure OrdinaryStep (context : ScriptContext) (machine next : ScriptMachine) (opcode : ℕ) (data : Bytes)
    (fetched carriedOut : ScriptMachine) : Prop where
  fetch : fetch machine = .ok (opcode, data) fetched
  notCalled : ¬(machine.vfExec.allTrue = true ∧ Opcode.ofByte opcode = .exec)
  dispatch : ∃ evalChild, dispatch context evalChild machine.vfExec.allTrue
    (machine.flags.has .UPGRADE2_OPCODES) opcode data fetched = .ok () carriedOut
  itemsInLimit : carriedOut.stackItems ≤ carriedOut.maxStackItems
  recorded : carriedOut.itemsRecorded = next

theorem exists_ordinaryStep (notCalled : machine.calls = false)
    (stepped : step context evalChild machine = .ok () next) :
    ∃ opcode data fetched carriedOut, OrdinaryStep context machine next opcode data fetched carriedOut := by
  obtain ⟨opcode, data, fetched, carriedOut, fetch, dispatched, inLimit, recorded⟩ := step_eq_ok_iff.mp stepped
  refine ⟨opcode, data, fetched, carriedOut, fetch, ?_, ⟨evalChild, dispatched⟩, inLimit, recorded⟩
  rintro ⟨taken, isExec⟩
  have calls : machine.calls = true := by
    simp [calls, taken, nextOpcode_of_fetch fetch, ofByte_eq_exec_iff.mp isExec]
  exact absurd calls (by simp [notCalled])

theorem OrdinaryStep.effect (ordinary : OrdinaryStep context machine next opcode data fetched carriedOut) :
    Effect True machine fetched ∧ Effect True fetched carriedOut := by
  obtain ⟨evalChild, dispatched⟩ := ordinary.dispatch
  exact ⟨fetch_effect ordinary.fetch, effect_of_instructed (dispatch_instructed ordinary.notCalled) dispatched⟩

theorem OrdinaryStep.sameLimits (ordinary : OrdinaryStep context machine next opcode data fetched carriedOut) :
    SameLimits machine next := by
  obtain ⟨fetch, dispatched⟩ := ordinary.effect
  rw [← ordinary.recorded]
  refine (fetch.toSameLimits.trans dispatched.toSameLimits).trans ?_
  constructor <;> rfl

/-- The launch of a child: the machine behind the instruction, what is left of it and what is moved away. -/
structure Launched (machine caller child fetched left moved : ScriptMachine) (code : CScript) : Prop where
  fetch : ∃ data, fetch machine = .ok (OP_EXEC, data) fetched
  called : Called fetched left moved
  waiting : left.execCounted = caller
  codeInLimit : code.length ≤ moved.maxScriptSize
  started : (moved.limitedBy left).begun code = child

/-- A step that calls, and the machine in front of the test of its items. -/
structure CallStep (machine caller child result next fetched left moved carriedOut : ScriptMachine)
    (code : CScript) : Prop extends Launched machine caller child fetched left moved code where
  countInLimit : (caller.updated result).stats.nOpExec ≤ Nexa.maxOpExec
  effect : Effect False (caller.updated result) carriedOut
  itemsInLimit : carriedOut.stackItems ≤ carriedOut.maxStackItems
  recorded : carriedOut.itemsRecorded = next

theorem calls_iff : machine.calls = true ↔ machine.vfExec.allTrue = true ∧ machine.nextOpcode = some OP_EXEC := by
  simp [ScriptMachine.calls]

theorem exists_launched (launched : machine.launch = some (caller, child)) :
    ∃ fetched left moved code, Launched machine caller child fetched left moved code := by
  obtain ⟨calls, ⟨opcode, data⟩, fetched, call, fetch, prepared, begun⟩ := launch_eq_some_iff.mp launched
  obtain rfl : opcode = OP_EXEC := by simpa [nextOpcode_of_fetch fetch] using (calls_iff.mp calls).2
  obtain ⟨left, moved, called, waiting, limited⟩ := prepareExec_eq_ok prepared
  rw [← limited] at begun
  obtain ⟨codeInLimit, started⟩ := beginStep_eq_ok_iff.mp begun
  exact ⟨fetched, left, moved, call.code, ⟨data, fetch⟩, called, waiting, codeInLimit, started⟩

theorem exists_callStep (launched : machine.launch = some (caller, child))
    (stepped : step context (returning result) machine = .ok () next) :
    ∃ fetched left moved carriedOut code,
      CallStep machine caller child result next fetched left moved carriedOut code := by
  obtain ⟨fetched, left, moved, code, launch⟩ := exists_launched launched
  obtain ⟨calls, instruction, _, call, fetch, prepared, begun⟩ := launch_eq_some_iff.mp launched
  obtain ⟨data, fetch'⟩ := launch.fetch
  rw [fetch'] at fetch
  cases fetch
  obtain ⟨opcode, data, _, carriedOut, fetch, dispatched, inLimit, recorded⟩ := step_eq_ok_iff.mp stepped
  rw [fetch'] at fetch
  cases fetch
  rw [(calls_iff.mp calls).1, dispatch_exec rfl, opExec, bind_eq_of_ok prepared] at dispatched
  obtain ⟨countInLimit, effect⟩ := finishExec_eq_ok dispatched
  exact ⟨fetched, left, moved, carriedOut, code, launch, countInLimit, effect, inLimit, recorded⟩

theorem CallStep.sameLimits {left moved : ScriptMachine} {code : CScript}
    (call : CallStep machine caller child result next fetched left moved carriedOut code) :
    SameLimits machine next := by
  obtain ⟨data, fetch⟩ := call.fetch
  have updated : SameLimits left (caller.updated result) := by
    rw [← call.waiting]
    constructor <;> rfl
  have recorded : SameLimits carriedOut next := by
    rw [← call.recorded]
    constructor <;> rfl
  exact ((((fetch_effect fetch).toSameLimits.trans call.called.left.toSameLimits).trans updated).trans
    call.effect.toSameLimits).trans recorded

/-! ## Runs -/

/-- A machine between two steps, and the machines that wait for it, the innermost first. -/
structure Moment where
  machine : ScriptMachine
  suspended : List ScriptMachine := []

/-- A moment in the evaluation of a child. -/
def Moment.under (moment : Moment) (caller : ScriptMachine) : Moment :=
  { moment with suspended := moment.suspended ++ [caller] }

/-- The machine is behind its script and has no open conditional. -/
def ScriptMachine.finished : Prop := machine.script.length ≤ machine.pc ∧ machine.vfExec.empty = true

/-- The steps of a machine, with all moments before one of them. -/
inductive Executes (context : ScriptContext) : ScriptMachine → List Moment → ScriptMachine → Prop
  | refl (machine : ScriptMachine) : Executes context machine [] machine
  | step {machine next final : ScriptMachine} {moments : List Moment}
      (unfinished : machine.pc < machine.script.length) (notCalled : machine.calls = false)
      (stepped : step context (returning machine) machine = .ok () next)
      (rest : Executes context next moments final) : Executes context machine (⟨machine, []⟩ :: moments) final
  | exec {machine caller child result next final : ScriptMachine} {inner moments : List Moment}
      (unfinished : machine.pc < machine.script.length) (launched : machine.launch = some (caller, child))
      (evaluated : Executes context child inner result) (finished : result.finished)
      (stepped : step context (returning result) machine = .ok () next)
      (rest : Executes context next moments final) :
      Executes context machine
        (⟨machine, []⟩ :: (inner ++ [⟨result, []⟩] : List Moment).map (·.under caller) ++ moments) final

/-- Runs are followed step by step, into the evaluations that are launched and behind them. -/
theorem Executes.stepwise {motive : ∀ {machine final moments}, Executes context machine moments final → Prop}
    (refl : ∀ machine, motive (.refl machine))
    (ordinary : ∀ {machine next final moments opcode data fetched carriedOut},
      OrdinaryStep context machine next opcode data fetched carriedOut → ∀ rest, @motive next final moments rest →
        ∀ {run}, @motive machine final (⟨machine, []⟩ :: moments) run)
    (call : ∀ {machine caller child result next final inner moments fetched left moved carriedOut code},
      CallStep machine caller child result next fetched left moved carriedOut code → ∀ evaluated, result.finished →
        ∀ rest, @motive child result inner evaluated → @motive next final moments rest → ∀ {run}, @motive machine final
          (⟨machine, []⟩ :: (inner ++ [⟨result, []⟩] : List Moment).map (·.under caller) ++ moments) run)
    {moments : List Moment} (run : Executes context machine moments final) : motive run := by
  induction run with
  | refl machine => exact refl machine
  | step _ notCalled stepped rest ih =>
    obtain ⟨_, _, _, _, step⟩ := exists_ordinaryStep notCalled stepped
    exact ordinary step rest ih
  | exec _ launched evaluated finished stepped rest inner ih =>
    obtain ⟨_, _, _, _, _, step⟩ := exists_callStep launched stepped
    exact call step evaluated finished rest inner ih

/-- The moments of a step that calls, one after the other. -/
theorem forall_mem_exec {inner moments : List Moment} {P : Moment → Prop} :
    (∀ moment ∈ ⟨machine, []⟩ :: (inner ++ [⟨result, []⟩] : List Moment).map (·.under caller) ++ moments, P moment) ↔
      P ⟨machine, []⟩ ∧ ((∀ moment ∈ inner, P (moment.under caller)) ∧ P ⟨result, [caller]⟩) ∧
        ∀ moment ∈ moments, P moment := by
  simp only [List.cons_append, List.forall_mem_append, List.forall_mem_map, List.forall_mem_cons]
  simp [Moment.under]

/-- A successful evaluation of a script, with all moments before its end. -/
def Evaluates (context : ScriptContext) (script : CScript) (machine : ScriptMachine) (moments : List Moment)
    (final : ScriptMachine) : Prop :=
  ∃ start, beginStep script machine = .ok () start ∧ Executes context start moments final ∧ final.finished

/-- A new machine with its stacks and the limit for its script, as it is set up in front of `Eval`. -/
def ScriptMachine.setUp (flags : ScriptFlags) (maxOps maxSigOps : UInt32) (maxScriptSize : ℕ)
    (stack altstack : List StackItem) : ScriptMachine :=
  { ((create flags maxOps.toNat maxSigOps.toNat).setStack stack).setAltStack altstack with maxScriptSize }

/-- A context for scripts that neither look at a transaction nor hash with SHA1 or RIPEMD160. -/
def ScriptContext.bare : ScriptContext where
  sis := {}
  ripemd160 := .unused
  sha1 := ⟨fun _ => List.replicate 20 0, fun _ => List.length_replicate⟩
  beyond _ := 0

/-- A context in which every signature is valid. -/
def ScriptContext.accepting : ScriptContext := { ScriptContext.bare with
    sis := { checker := some ⟨fun _ _ _ => true, fun _ _ _ => true, fun _ => true, fun _ => true⟩ } }

/-! ## The runs of `Eval` -/

theorem endStep_eq_ok_iff : endStep machine = .ok u machine' ↔ machine.vfExec.empty = true ∧ machine = machine' := by
  simp [endStep, get_bind_apply]

theorem stepLoop_succ_apply (rounds : ℕ) (machine : ScriptMachine) : stepLoop context (rounds + 1) machine =
      if machine.pc < machine.script.length then
        (step context (eval context rounds) >>= fun _ => stepLoop context rounds) machine
      else .ok () machine := by
  rw [stepLoop, get_bind_apply]
  split <;> rfl

theorem eval_eq_ok_iff : eval context rounds script machine = .ok u final ↔
      ∃ start, beginStep script machine = .ok () start ∧ stepLoop context rounds start = .ok () final ∧
        final.vfExec.empty = true := by
  simp only [eval, bind_eq_ok_iff, endStep_eq_ok_iff]
  constructor
  · rintro ⟨_, start, begun, _, _, looped, empty, rfl⟩
    exact ⟨start, begun, looped, empty⟩
  · rintro ⟨start, begun, looped, empty⟩
    exact ⟨(), start, begun, (), final, looped, empty, rfl⟩

theorem calls_of_launch (launched : machine.launch = some (caller, child)) : machine.calls = true :=
  (launch_eq_some_iff.mp launched).1

theorem finishExec_error_ne_ok {halt : Halt} : finishExec call (.error halt child) machine ≠ .ok u machine' := by
  intro finished
  cases halt with
  | error error =>
    obtain ⟨_, _, _, ⟨⟩⟩ := bind_eq_ok_iff.mp finished
  | crash => cases finished
  | unfinished => cases finished

/-- A step that calls gives the child a result, or else fails as the child does. -/
theorem exists_launch_of_step (calls : machine.calls = true) (stepped : step context evalChild machine = .ok () next) :
    ∃ instruction fetched call caller result, fetch machine = .ok instruction fetched ∧
      prepareExec fetched = .ok call caller ∧ evalChild call.code call.child = .ok () result ∧
      step context (returning result) machine = .ok () next := by
  obtain ⟨taken, isExec⟩ := calls_iff.mp calls
  obtain ⟨opcode, data, fetched, carriedOut, fetch, dispatched, -⟩ := step_eq_ok_iff.mp stepped
  obtain rfl : opcode = OP_EXEC := by simpa [nextOpcode_of_fetch fetch] using isExec
  rw [taken] at dispatched
  obtain ⟨call, caller, prepared, finished⟩ := bind_eq_ok_iff.mp dispatched
  cases evaluated : evalChild call.code call.child with
  | error halt child =>
    rw [evaluated] at finished
    exact absurd finished finishExec_error_ne_ok
  | ok _ result =>
    refine ⟨_, fetched, call, caller, result, fetch, prepared, evaluated, ?_⟩
    rw [← stepped]
    apply step_congr
    intro _ instruction' fetched' call' caller' fetch' prepared'
    rw [fetch] at fetch'
    cases fetch'
    rw [prepared] at prepared'
    cases prepared'
    rw [evaluated]
    rfl

theorem exists_executes_of_stepLoop (looped : stepLoop context rounds machine = .ok () final) :
    final.script.length ≤ final.pc ∧ ∃ moments, Executes context machine moments final := by
  induction rounds generalizing machine final with
  | zero => cases looped
  | succ rounds ih =>
    rw [stepLoop_succ_apply] at looped
    split at looped
    next unfinished =>
      obtain ⟨_, next, stepped, looped⟩ := bind_eq_ok_iff.mp looped
      obtain ⟨atEnd, moments, rest⟩ := ih looped
      refine ⟨atEnd, ?_⟩
      cases calls : machine.calls with
      | false =>
        rw [step_congr (fun calls' => absurd calls' (by simp [calls]))] at stepped
        exact ⟨_, .step unfinished calls stepped rest⟩
      | true =>
        obtain ⟨instruction, fetched, call, caller, result, fetch, prepared, evaluated, stepped⟩ :=
          exists_launch_of_step calls stepped
        obtain ⟨child, begun, looped, empty⟩ := eval_eq_ok_iff.mp evaluated
        obtain ⟨childAtEnd, inner, executed⟩ := ih looped
        have launched : machine.launch = some (caller, child) :=
          launch_eq_some_iff.mpr ⟨calls, instruction, fetched, call, fetch, prepared, begun⟩
        exact ⟨_, .exec unfinished launched executed ⟨childAtEnd, empty⟩ stepped rest⟩
    next finished =>
      cases looped
      exact ⟨not_lt.mp finished, [], .refl _⟩

/-- Every evaluation that returns true is a run. -/
theorem exists_evaluates_of_eval (evaluated : eval context rounds script machine = .ok () final) :
    ∃ moments, Evaluates context script machine moments final := by
  obtain ⟨start, begun, looped, empty⟩ := eval_eq_ok_iff.mp evaluated
  obtain ⟨atEnd, moments, executed⟩ := exists_executes_of_stepLoop looped
  exact ⟨moments, start, begun, executed, atEnd, empty⟩

/-! ## Rounds -/

/-- The rounds were enough. -/
def Completed (result : Result Halt ScriptMachine Unit) : Prop := ∀ machine, result ≠ .error .unfinished machine

theorem Completed.of_bind {x : ScriptM Unit} {f : Unit → ScriptM Unit} (completed : Completed ((x >>= f) machine)) :
    Completed (x machine) :=
  fun _ failed => completed _ (bind_eq_of_error failed)

/-- A step that completes has completed the evaluation of its child. -/
theorem completed_child {instruction : ℕ × Bytes} (calls : machine.calls = true)
    (fetch : fetch machine = .ok instruction fetched) (prepared : prepareExec fetched = .ok call caller)
    (completed : Completed (step context evalChild machine)) : Completed (evalChild call.code call.child) := by
  obtain ⟨taken, isExec⟩ := calls_iff.mp calls
  obtain ⟨opcode, data⟩ := instruction
  obtain rfl : opcode = OP_EXEC := by simpa [nextOpcode_of_fetch fetch] using isExec
  intro child failed
  apply completed caller
  simp only [step, get_bind_apply]
  rw [bind_eq_of_ok fetch, taken, dispatch_exec rfl]
  apply bind_eq_of_error
  rw [opExec, bind_eq_of_ok prepared, failed]
  rfl

/-! A step whose child completes does so itself. -/

section Completed

theorem completed_of_built {program : ScriptM Unit} (built : Built Unfailing Halt.isFinal program)
    (machine : ScriptMachine) : Completed (program machine) :=
  fun _ failed => isFinal_of_built built failed rfl

theorem Completed.bind {α : Type} {x : ScriptM α} {f : α → ScriptM Unit} (first : Built Unfailing Halt.isFinal x)
    (second : ∀ a middle, x machine = .ok a middle → Completed (f a middle)) : Completed ((x >>= f) machine) := by
  cases ran : x machine with
  | error halt middle =>
    rw [bind_eq_of_error ran]
    rintro _ ⟨_⟩
    exact isFinal_of_built first ran rfl
  | ok a middle =>
    rw [bind_eq_of_ok ran]
    exact second a middle ran

instance (parameter : Bytes) (child : ScriptMachine) :
    Built Unfailing Halt.isFinal (inChild (pushStack (.vch parameter)) child) := by
  unfold inChild
  split
  · infer_instance
  next failed => exact .throw _ (isFinal_of_built (Primitive.unfailing (.push _ : Primitive True _)) failed)

instance (count : ℕ) (child : ScriptMachine) : Built Unfailing Halt.isFinal (moveParameters count child) := by
  induction count generalizing child with
  | zero | succ count ih =>
    simp only [moveParameters]
    infer_instance

instance : Built Unfailing Halt.isFinal prepareExec := by
  repeat refine Built.andThen fun _ => ?_
  infer_instance

instance (child : ScriptMachine) : Built Unfailing Halt.isFinal (updateStats child) := by
  simp only [updateStats]
  infer_instance

theorem finishExec_built (call : ExecCall) {result : Result Halt ScriptMachine Unit}
    (completed : Completed result) : Built Unfailing Halt.isFinal (finishExec call result) := by
  cases result with
  | ok _ child =>
    simp only [finishExec]
    infer_instance
  | error halt child =>
    cases halt with
    | error error | crash =>
      simp only [finishExec]
      infer_instance
    | unfinished => exact absurd rfl (completed child)

instance : Built Unfailing Halt.isFinal limitStackItems := by
  simp only [limitStackItems]
  infer_instance

instance (script : CScript) : Built Unfailing Halt.isFinal (beginStep script) := by
  simp only [beginStep]
  infer_instance

instance : Built Unfailing Halt.isFinal endStep := by
  simp only [endStep]
  infer_instance

theorem step_completed {evalChild : CScript → ScriptM Unit}
    (childCompleted : machine.calls = true → ∀ instruction fetched call caller,
      fetch machine = .ok instruction fetched → prepareExec fetched = .ok call caller →
      Completed (evalChild call.code call.child)) :
    Completed (step context evalChild machine) := by
  rw [step, get_bind_apply]
  refine .bind inferInstance fun instruction fetched fetch => ?_
  obtain ⟨opcode, data⟩ := instruction
  by_cases calls : machine.vfExec.allTrue = true ∧ Opcode.ofByte opcode = .exec
  · obtain ⟨taken, isExec⟩ := calls
    have calls : machine.calls = true :=
      calls_iff.mpr ⟨taken, by rw [nextOpcode_of_fetch fetch, ofByte_eq_exec_iff.mp isExec]⟩
    simp only [taken, dispatch_exec isExec, opExec, bind_assoc]
    refine .bind inferInstance fun call caller prepared => ?_
    have := finishExec_built call (childCompleted calls _ _ _ _ fetch prepared)
    exact completed_of_built inferInstance _
  · have : Instructed True (dispatch context evalChild machine.vfExec.allTrue
        (machine.flags.has .UPGRADE2_OPCODES) opcode data) := dispatch_instructed calls
    exact completed_of_built inferInstance _

end Completed

theorem stepLoop_succ (completed : Completed (stepLoop context rounds machine)) :
    stepLoop context (rounds + 1) machine = stepLoop context rounds machine := by
  induction rounds generalizing machine with
  | zero => exact absurd rfl (completed machine)
  | succ rounds ih =>
    rw [stepLoop_succ_apply, stepLoop_succ_apply]
    rw [stepLoop_succ_apply] at completed
    split
    next unfinished =>
      rw [if_pos unfinished] at completed
      have same : step context (eval context (rounds + 1)) machine = step context (eval context rounds) machine := by
        apply step_congr
        intro calls instruction fetched call caller fetch prepared
        have childCompleted := completed_child calls fetch prepared completed.of_bind
        cases begun : beginStep call.code call.child with
        | error halt start => simp only [eval, bind, EStateM.bind, begun]
        | ok _ start =>
          have looped : Completed (stepLoop context rounds start) := by
            rw [eval, bind_eq_of_ok begun] at childCompleted
            exact childCompleted.of_bind
          simp [eval, bind, EStateM.bind, begun, ih looped]
      cases stepped : step context (eval context rounds) machine with
      | error halt next =>
        rw [bind_eq_of_error stepped, bind_eq_of_error (same.trans stepped)]
      | ok _ next =>
        rw [bind_eq_of_ok stepped, bind_eq_of_ok (same.trans stepped)]
        rw [bind_eq_of_ok stepped] at completed
        exact ih completed
    · rfl

theorem stepLoop_of_le (enough : rounds ≤ more) (completed : Completed (stepLoop context rounds machine)) :
    stepLoop context more machine = stepLoop context rounds machine := by
  induction more, enough using Nat.le_induction with
  | base => rfl
  | succ more _ ih =>
    rw [← ih] at completed
    rw [stepLoop_succ completed, ih]

theorem eval_of_le (enough : rounds ≤ more) (begun : beginStep script machine = .ok () start)
    (completed : Completed (stepLoop context rounds start)) :
    eval context more script machine = eval context rounds script machine := by
  simp [eval, bind, EStateM.bind, begun, stepLoop_of_le enough completed]

end Nexa
