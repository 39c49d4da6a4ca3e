import Nexa.Proofs.ScriptRuns

/-! # Operations and nested evaluations

The operations of a run are counted in `nOpCount`, those of the evaluations it launches among them. As long as
the count cannot wrap around, it stays within the limit, and a run ends: a step either counts an operation or
moves on in the script.
-/

namespace Nexa

open ScriptMachine List

variable {context : ScriptContext}

/-! ## What a step counts -/

/-- The next step counts an operation. -/
def ScriptMachine.counts (machine : ScriptMachine) : Bool := match machine.nextOpcode with
  | some opcode => OP_16 < opcode
  | none => false

/-- The count is within a limit behind which there is room for the keys of `OP_CHECKMULTISIG`. -/
structure ScriptMachine.Counting (machine : ScriptMachine) : Prop where
  room : machine.maxOps + maxPubkeysPerMultisig < 2 ^ 32
  inLimit : machine.stats.nOpCount ≤ machine.maxOps

variable {machine : ScriptMachine} {opcode : ℕ} {data : Bytes} {moments : List Moment} {rounds : ℕ} {script : CScript}

section

variable (atEnd : machine.script.length ≤ machine.pc)

include atEnd

theorem nextOpcode_of_atEnd : machine.nextOpcode = none := by
  rw [nextOpcode, drop_eq_nil_of_le atEnd]
  rfl

theorem counts_of_atEnd : machine.counts = false := by
  simp [counts, nextOpcode_of_atEnd atEnd]

theorem calls_of_atEnd : machine.calls = false := by
  simp [calls, nextOpcode_of_atEnd atEnd]

end

theorem operation_of_le (low : opcode ≤ OP_16) : Opcode.operation opcode = .unknown := by
  unfold OP_16 at low
  unfold Opcode.operation
  split <;> first | rfl | omega

theorem dispatch_of_le {evalChild : CScript → ScriptM Unit} {fExec upgrade2 : Bool} {machine' : ScriptMachine}
    (low : opcode ≤ OP_16) (ran : dispatch context evalChild fExec upgrade2 opcode data machine = .ok () machine') :
    machine'.pc = machine.pc := by
  have pushed : ∀ item, pushStack item machine = .ok () machine' → machine'.pc = machine.pc := by
    intro item pushed
    obtain ⟨-, rfl⟩ := pushStack_eq_ok_iff.mp pushed
    rfl
  unfold dispatch at ran
  split at ran
  · simp only [pushData, EStateM.bind_eq_ok_iff, abortIf_eq_ok_iff] at ran
    obtain ⟨_, _, ⟨_⟩, _, _, ⟨-, rfl⟩, ran⟩ := ran
    exact pushed _ ran
  split at ran
  · unfold Opcode.ofByte at ran
    split at ran
    · exact pushed _ ran
    · rw [operation_of_le low] at ran
      cases ran
  · cases ran
    rfl

variable {fetched next final start : ScriptMachine}

theorem fetch_counting (ran : fetch machine = .ok (opcode, data) fetched) (counting : machine.Counting) :
    fetched.Counting ∧ fetched.stats.nOpCount = machine.stats.nOpCount + (if machine.counts then 1 else 0) ∧
      (machine.pc < machine.script.length → machine.pc < fetched.pc) := by
  have effect := fetch_effect ran
  have opcodes : machine.counts = decide (OP_16 < opcode) := by
    simp [counts, nextOpcode_of_fetch ran]
  have room : machine.maxOps + 16 < 2 ^ 32 := counting.room
  have inLimit := counting.inLimit
  refine ⟨⟨effect.maxOps ▸ counting.room, (effect.nOpCount counting.room counting.inLimit).2⟩, ?_, ?_⟩
  all_goals obtain ⟨rest, read, -, -, -, rfl⟩ := fetch_eq_ok_iff.mp ran
  · have noWrap : (machine.stats.nOpCount + 1) % 2 ^ 32 = machine.stats.nOpCount + 1 := Nat.mod_eq_of_lt (by omega)
    simp only [fetched, noWrap, opcodes, decide_eq_true_eq]
    split <;> rfl
  · have shorter := length_lt_of_getOp read
    rw [length_drop] at shorter
    simp only [fetched]
    omega

variable {carriedOut : ScriptMachine}

theorem OrdinaryStep.counting
    (ordinary : OrdinaryStep context machine next opcode data fetched carriedOut) (counting : machine.Counting) :
    next.Counting ∧ machine.stats.nOpCount + (if machine.counts then 1 else 0) ≤ next.stats.nOpCount ∧
      (machine.pc < machine.script.length → machine.counts = false → machine.pc < next.pc) := by
  obtain ⟨fetchCounting, fetchCount, fetchPc⟩ := fetch_counting ordinary.fetch counting
  obtain ⟨-, effect⟩ := ordinary.effect
  obtain ⟨grown, inLimit⟩ := effect.nOpCount fetchCounting.room fetchCounting.inLimit
  rw [← ordinary.recorded]
  refine ⟨⟨effect.maxOps ▸ fetchCounting.room, inLimit⟩, fetchCount.symm.trans_le grown, ?_⟩
  intro unfinished uncounted
  obtain ⟨evalChild, dispatched⟩ := ordinary.dispatch
  have low : opcode ≤ OP_16 := by
    simpa [counts, nextOpcode_of_fetch ordinary.fetch] using uncounted
  exact (fetchPc unfinished).trans_eq (dispatch_of_le low dispatched).symm

theorem subUInt32_of_le {a b : ℕ} (le : b ≤ a) (small : a < 2 ^ 32) : subUInt32 a b = a - b := by
  unfold subUInt32
  omega

section Call

variable {caller child result left moved : ScriptMachine} {code : CScript}

section

variable (launch : Launched machine caller child fetched left moved code)

include launch

theorem Launched.counts : machine.counts = true := by
  obtain ⟨data, fetch⟩ := launch.fetch
  simp only [ScriptMachine.counts, nextOpcode_of_fetch fetch]
  rfl

theorem Launched.child_maxOps (counting : machine.Counting) :
    child.maxOps = fetched.maxOps - fetched.stats.nOpCount := by
  obtain ⟨data, fetch⟩ := launch.fetch
  obtain ⟨fetchCounting, -, -⟩ := fetch_counting fetch counting
  have room := fetchCounting.room
  rw [← launch.started]
  exact launch.called.moved.maxOps.trans (subUInt32_of_le fetchCounting.inLimit (by omega))

theorem Launched.child_counting (counting : machine.Counting) : child.Counting := by
  obtain ⟨data, fetch⟩ := launch.fetch
  obtain ⟨fetchCounting, -, -⟩ := fetch_counting fetch counting
  have room := fetchCounting.room
  refine ⟨?_, ?_⟩
  · rw [launch.child_maxOps counting]
    omega
  · rw [← launch.started]
    exact Nat.zero_le _

theorem Launched.nOpExecDepth : child.stats.nOpExecDepth = machine.stats.nOpExecDepth + 1 ∧
      machine.stats.nOpExecDepth < machine.maxOpExecDepth ∧ child.maxOpExecDepth = maxExecDepth := by
  obtain ⟨data, fetch⟩ := launch.fetch
  have limits := (fetch_effect fetch).toSameLimits
  have inLimit := launch.called.depthInLimit
  rw [limits.nOpExecDepth, limits.maxOpExecDepth] at inLimit
  refine ⟨?_, inLimit, ?_⟩
  · rw [← launch.started, ← limits.nOpExecDepth]
    exact launch.called.moved.nOpExecDepth
  · rw [← launch.started]
    exact launch.called.moved.maxOpExecDepth

end

section

variable (call : CallStep machine caller child result next fetched left moved carriedOut code)
include call

theorem CallStep.counting (counting : machine.Counting) (resultInLimit : result.stats.nOpCount ≤ child.maxOps) :
    next.Counting ∧ next.stats.nOpCount = machine.stats.nOpCount + 1 + result.stats.nOpCount := by
  obtain ⟨data, fetch⟩ := call.fetch
  obtain ⟨fetchCounting, fetchCount, -⟩ := fetch_counting fetch counting
  have room := fetchCounting.room
  have inLimit := fetchCounting.inLimit
  rw [call.counts, if_pos rfl] at fetchCount
  rw [call.child_maxOps counting] at resultInLimit
  have unchanged : carriedOut.stats.nOpCount = (left.stats.nOpCount + result.stats.nOpCount) % 2 ^ 32 := by
    rw [(call.effect.untallied id).1, ← call.waiting]
    rfl
  rw [(call.called.left.untallied id).1] at unchanged
  have nextCount : next.stats.nOpCount = carriedOut.stats.nOpCount := by
    rw [← call.recorded]
    rfl
  have sameMax := call.sameLimits.maxOps
  have fetchMax := (fetch_effect fetch).maxOps
  refine ⟨⟨sameMax ▸ counting.room, ?_⟩, ?_⟩ <;> omega

theorem CallStep.nOpExec :
    child.stats.nOpExec = 0 ∧ next.stats.nOpExec = machine.stats.nOpExec + 1 + result.stats.nOpExec ∧
      next.stats.nOpExec ≤ Nexa.maxOpExec := by
  obtain ⟨data, fetch⟩ := call.fetch
  have nextCount : next.stats.nOpExec = (caller.updated result).stats.nOpExec := by
    rw [← call.recorded]
    exact call.effect.nOpExec
  refine ⟨?_, ?_, nextCount.trans_le call.countInLimit⟩
  · rw [← call.started]
    exact call.called.moved.nOpExec
  · rw [nextCount, ← call.waiting, ← (fetch_effect fetch).nOpExec, ← call.called.left.nOpExec]
    rfl

end

end Call

theorem OrdinaryStep.nOpExec (ordinary : OrdinaryStep context machine next opcode data fetched carriedOut) :
    next.stats.nOpExec = machine.stats.nOpExec := by
  obtain ⟨fetch, dispatched⟩ := ordinary.effect
  rw [← ordinary.recorded]
  exact dispatched.nOpExec.trans fetch.nOpExec

/-! ## What a run counts -/

theorem Executes.sameLimits (run : Executes context machine moments final) : SameLimits machine final := by
  induction run using Executes.stepwise with
  | refl machine => exact .refl machine
  | ordinary ordinary _ ih =>
    exact ordinary.sameLimits.trans ih
  | call call _ finished _ _ ih =>
    exact call.sameLimits.trans ih

variable (p : ScriptMachine → Bool)

theorem countP_step (machine : ScriptMachine) (moments : List Moment) :
    (⟨machine, []⟩ :: moments : List Moment).countP (fun moment => p moment.machine) =
      (if p machine then 1 else 0) + moments.countP (fun moment => p moment.machine) := by
  rw [countP_cons, Nat.add_comm]

theorem countP_exec (machine caller result : ScriptMachine) (inner moments : List Moment) (last : p result = false) :
    (⟨machine, []⟩ :: (inner ++ [⟨result, []⟩] : List Moment).map (·.under caller) ++ moments).countP
        (fun moment => p moment.machine) =
      (if p machine then 1 else 0) + inner.countP (fun moment => p moment.machine) +
        moments.countP (fun moment => p moment.machine) := by
  simp only [countP_cons, countP_append, countP_map, countP_nil, Function.comp_def, Moment.under, last]
  simp only [Bool.false_eq_true, if_false]
  omega

section

variable (run : Executes context machine moments final)

include run

theorem Executes.counting (counting : machine.Counting) : final.Counting ∧
      machine.stats.nOpCount + moments.countP (fun moment => moment.machine.counts) ≤ final.stats.nOpCount := by
  induction run using Executes.stepwise with
  | refl machine => exact ⟨counting, le_rfl⟩
  | ordinary ordinary _ ih =>
    obtain ⟨nextCounting, counted, -⟩ := ordinary.counting counting
    obtain ⟨finalCounting, rest⟩ := ih nextCounting
    refine ⟨finalCounting, ?_⟩
    rw [countP_step]
    omega
  | call call evaluated finished _ inner ih =>
    obtain ⟨resultCounting, counted⟩ := inner (call.child_counting counting)
    have resultInLimit := resultCounting.inLimit
    rw [evaluated.sameLimits.maxOps] at resultInLimit
    obtain ⟨nextCounting, nextCount⟩ := call.counting counting resultInLimit
    obtain ⟨finalCounting, rest⟩ := ih nextCounting
    refine ⟨finalCounting, ?_⟩
    rw [countP_exec ScriptMachine.counts _ _ _ _ _ (counts_of_atEnd finished.1), call.counts, if_pos rfl]
    omega

theorem Executes.nOpExec :
    final.stats.nOpExec = machine.stats.nOpExec + moments.countP (fun moment => moment.machine.calls) ∧
      (machine.stats.nOpExec ≤ Nexa.maxOpExec → final.stats.nOpExec ≤ Nexa.maxOpExec) := by
  induction run with
  | refl machine => exact ⟨rfl, id⟩
  | step unfinished notCalled stepped _ ih =>
    obtain ⟨opcode, data, fetched, carriedOut, ordinary⟩ := exists_ordinaryStep notCalled stepped
    have same := ordinary.nOpExec
    rw [countP_step, notCalled]
    simp only [Bool.false_eq_true, if_false]
    omega
  | exec unfinished launched evaluated finished stepped _ inner ih =>
    obtain ⟨fetched, left, moved, carriedOut, code, call⟩ := exists_callStep launched stepped
    obtain ⟨childStart, nextCount, inLimit⟩ := call.nOpExec
    rw [countP_exec ScriptMachine.calls _ _ _ _ _ (calls_of_atEnd finished.1), calls_of_launch launched, if_pos rfl]
    omega

theorem Executes.depth (limit : machine.maxOpExecDepth = maxExecDepth)
    (inLimit : machine.stats.nOpExecDepth ≤ maxExecDepth) :
    ∀ moment ∈ moments, machine.stats.nOpExecDepth + moment.suspended.length ≤ maxExecDepth := by
  induction run using Executes.stepwise with
  | refl machine => simp
  | ordinary ordinary _ ih =>
    have limits := ordinary.sameLimits
    rw [limits.maxOpExecDepth, limits.nOpExecDepth] at ih
    exact forall_mem_cons.mpr ⟨inLimit, ih limit inLimit⟩
  | call call evaluated finished _ inner ih =>
    have limits := call.sameLimits
    obtain ⟨childDepth, deeper, childLimit⟩ := call.nOpExecDepth
    rw [limits.maxOpExecDepth, limits.nOpExecDepth] at ih
    have innerDepth := inner childLimit (by omega)
    refine forall_mem_exec.mpr ⟨inLimit, ⟨fun moment isInner => ?_, ?_⟩, ih limit inLimit⟩
    · have := innerDepth moment isInner
      simp only [Moment.under, length_append, length_singleton]
      omega
    · simp only [length_singleton]
      omega

end

/-! ## Termination -/

/-- A bound for the steps that a machine has left, evaluations of children not counted. -/
def ScriptMachine.remaining (machine : ScriptMachine) : ℕ :=
  (machine.maxOps - machine.stats.nOpCount) * (machine.script.length + 1) + (machine.script.length - machine.pc)

/-- A step counts an operation or moves on. -/
structure Progress (machine next : ScriptMachine) : Prop where
  limits : SameLimits machine next
  counting : next.Counting
  counted : machine.stats.nOpCount + (if machine.counts then 1 else 0) ≤ next.stats.nOpCount
  movesOn : machine.counts = false → machine.pc < next.pc

theorem Progress.remaining_lt (progress : Progress machine next) (unfinished : machine.pc < machine.script.length) :
    next.remaining < machine.remaining := by
  have inLimit := progress.counting.inLimit
  have counted := progress.counted
  rw [progress.limits.maxOps] at inLimit
  unfold remaining
  rw [progress.limits.maxOps, progress.limits.script]
  cases counts : machine.counts with
  | false =>
    have moved := progress.movesOn counts
    have fewer : (machine.maxOps - next.stats.nOpCount) * (machine.script.length + 1) ≤
        (machine.maxOps - machine.stats.nOpCount) * (machine.script.length + 1) :=
      Nat.mul_le_mul_right _ (by omega)
    omega
  | true =>
    rw [counts, if_pos rfl] at counted
    have fewer : (machine.maxOps - next.stats.nOpCount + 1) * (machine.script.length + 1) ≤
        (machine.maxOps - machine.stats.nOpCount) * (machine.script.length + 1) :=
      Nat.mul_le_mul_right _ (by omega)
    rw [Nat.add_mul] at fewer
    omega

theorem progress_of_step (counting : machine.Counting) (unfinished : machine.pc < machine.script.length)
    (stepped : step context (eval context rounds) machine = .ok () next) : Progress machine next := by
  cases calls : machine.calls with
  | false =>
    obtain ⟨opcode, data, fetched, carriedOut, ordinary⟩ := exists_ordinaryStep calls stepped
    obtain ⟨nextCounting, counted, movesOn⟩ := ordinary.counting counting
    exact ⟨ordinary.sameLimits, nextCounting, counted, movesOn unfinished⟩
  | true =>
    obtain ⟨instruction, fetched, call, caller, result, fetch, prepared, evaluated, stepped⟩ :=
      exists_launch_of_step calls stepped
    obtain ⟨child, begun, looped, -⟩ := eval_eq_ok_iff.mp evaluated
    obtain ⟨-, inner, run⟩ := exists_executes_of_stepLoop looped
    have launched : machine.launch = some (caller, child) :=
      launch_eq_some_iff.mpr ⟨calls, instruction, fetched, call, fetch, prepared, begun⟩
    obtain ⟨fetched, left, moved, carriedOut, code, call⟩ := exists_callStep launched stepped
    have resultInLimit := (run.counting (call.child_counting counting)).1.inLimit
    rw [run.sameLimits.maxOps] at resultInLimit
    obtain ⟨nextCounting, nextCount⟩ := call.counting counting resultInLimit
    refine ⟨call.sameLimits, nextCounting, ?_, fun uncounted => ?_⟩
    · rw [call.counts, if_pos rfl]
      omega
    · rw [call.counts] at uncounted
      cases uncounted

theorem eval_completed (begun : beginStep script machine = .ok () start)
    (completed : Completed (stepLoop context rounds start)) : Completed (eval context rounds script machine) := by
  rw [eval, EStateM.bind_eq_of_ok begun]
  cases looped : stepLoop context rounds start with
  | error halt final =>
    rw [EStateM.bind_eq_of_error looped, ← looped]
    exact completed
  | ok _ final =>
    rw [EStateM.bind_eq_of_ok looped]
    exact completed_of_built inferInstance _

theorem eval_of_begin_error {halt : Halt} (failed : beginStep script machine = .error halt start) :
    eval context rounds script machine = .error halt start := by
  rw [eval, EStateM.bind_eq_of_error failed]

theorem exists_rounds_for_step (childCompleted : ∀ caller child, machine.launch = some (caller, child) → ∃ rounds,
      Completed (stepLoop context rounds child)) :
    ∃ first, ∀ rounds, first ≤ rounds → Completed (step context (eval context rounds) machine) ∧
      step context (eval context rounds) machine = step context (eval context first) machine := by
  obtain ⟨first, enough⟩ : ∃ first, machine.calls = true → ∀ instruction fetched call caller,
      fetch machine = .ok instruction fetched → prepareExec fetched = .ok call caller →
        ∀ rounds, first ≤ rounds → Completed (eval context rounds call.code call.child) ∧
          eval context rounds call.code call.child = eval context first call.code call.child := by
    cases launched : machine.launch with
    | none =>
      refine ⟨0, fun calls instruction fetched call caller fetch prepared rounds _ => ?_⟩
      cases begun : beginStep call.code call.child with
      | ok _ child =>
        have := launch_eq_some_iff.mpr ⟨calls, instruction, fetched, call, fetch, prepared, begun⟩
        rw [launched] at this
        cases this
      | error halt start =>
        rw [eval_of_begin_error begun, eval_of_begin_error begun]
        refine ⟨?_, rfl⟩
        rw [← begun]
        exact completed_of_built inferInstance _
    | some pair =>
      obtain ⟨caller, child⟩ := pair
      obtain ⟨first, completed⟩ := childCompleted caller child launched
      obtain ⟨-, instruction, fetched, call, fetch, prepared, begun⟩ := launch_eq_some_iff.mp launched
      refine ⟨first, fun _ _ _ _ _ fetch' prepared' rounds enough => ?_⟩
      rw [fetch] at fetch'
      cases fetch'
      rw [prepared] at prepared'
      cases prepared'
      have same := eval_of_le enough begun completed
      rw [same]
      exact ⟨eval_completed begun completed, rfl⟩
  refine ⟨first, fun rounds later => ⟨?_, ?_⟩⟩
  · apply step_completed
    intro calls instruction fetched call caller fetch prepared
    exact (enough calls instruction fetched call caller fetch prepared rounds later).1
  · apply step_congr
    intro calls instruction fetched call caller fetch prepared
    exact (enough calls instruction fetched call caller fetch prepared rounds later).2

theorem exists_completed_of_children (counting : machine.Counting)
    (children : ∀ later, SameLimits machine later → later.Counting → ∀ caller child, later.launch = some (caller,
      child) → ∃ rounds, Completed (stepLoop context rounds child)) :
    ∃ rounds, Completed (stepLoop context rounds machine) := by
  generalize bound : machine.remaining = steps
  induction steps using Nat.strong_induction_on generalizing machine with
  | h steps ih =>
    by_cases unfinished : machine.pc < machine.script.length
    · obtain ⟨first, enough⟩ := exists_rounds_for_step (children machine (.refl machine) counting)
      cases stepped : step context (eval context first) machine with
      | error halt next =>
        refine ⟨first + 1, ?_⟩
        rw [stepLoop_succ_apply, if_pos unfinished, EStateM.bind_eq_of_error stepped, ← stepped]
        exact (enough first le_rfl).1
      | ok _ next =>
        have progress := progress_of_step counting unfinished stepped
        obtain ⟨second, completed⟩ := ih next.remaining (bound ▸ progress.remaining_lt unfinished) progress.counting
          (fun later limits => children later (progress.limits.trans limits)) rfl
        refine ⟨max first second + 1, ?_⟩
        have same := (enough (max first second) (le_max_left _ _)).2
        rw [stepLoop_succ_apply, if_pos unfinished, EStateM.bind_eq_of_ok (same.trans stepped),
          stepLoop_of_le (le_max_right _ _) completed]
        exact completed
    · refine ⟨1, ?_⟩
      rw [stepLoop_succ_apply, if_neg unfinished]
      rintro _ ⟨_⟩

theorem exists_completed (levels : ℕ) (counting : machine.Counting) (limit : machine.maxOpExecDepth = maxExecDepth)
    (deep : maxExecDepth ≤ machine.stats.nOpExecDepth + levels) :
    ∃ rounds, Completed (stepLoop context rounds machine) := by
  induction levels generalizing machine with
  | zero =>
    refine exists_completed_of_children counting fun later limits _ caller child launched => ?_
    obtain ⟨fetched, left, moved, code, launch⟩ := exists_launched launched
    obtain ⟨-, inLimit, -⟩ := launch.nOpExecDepth
    rw [limits.nOpExecDepth, limits.maxOpExecDepth] at inLimit
    omega
  | succ levels ih =>
    refine exists_completed_of_children counting fun later limits laterCounting caller child launched => ?_
    obtain ⟨fetched, left, moved, code, launch⟩ := exists_launched launched
    obtain ⟨childDepth, -, childLimit⟩ := launch.nOpExecDepth
    rw [limits.nOpExecDepth] at childDepth
    exact ih (launch.child_counting laterCounting) childLimit (by omega)

end Nexa
