import Nexa.Proofs.ScriptBlocks

/-! # Signature checks

The checks of one signature test their count against its limit first. `OP_CHECKMULTISIG` adds the number of
its signatures without a test, so the count is within the limit as long as each of these additions is.
-/

namespace Nexa

open ScriptMachine Opcode EStateM

variable {context : ScriptContext} (machine : ScriptMachine)

/-- `stats.consensusSigCheckCount`. -/
abbrev ScriptMachine.sigChecks : ℕ := machine.stats.consensusSigCheckCount

/-! ## Instructions -/

/-- The start of `OP_CHECKMULTISIG`, up to the number of signatures it is going to add. -/
def readMultisig : ScriptM ℕ := do
  let nKeysCount ← multisigKeyCount
  countOps nKeysCount
  let nSigsCount ← multisigSigCount nKeysCount
  let vchDummy ← stacktop (nKeysCount + 2 + nSigsCount + 1)
  pure (if vchDummy = [] then 0 else nSigsCount)

/-- The next step carries out `OP_CHECKMULTISIG` or `OP_CHECKMULTISIGVERIFY`. -/
def ScriptMachine.atMultisig : Prop :=
  machine.vfExec.allTrue = true ∧ ∃ verify, machine.nextOpcode.map ofByte = some (.checkMultiSig verify)

/-- The signatures that it adds without a test. -/
def ScriptMachine.multisigSignatures : ℕ := match (do let _ ← fetch; readMultisig) machine with
  | .ok count _ => count
  | .error _ _ => 0

/-- At most one check is added, and only below the limit. -/
def SigCharge (machine machine' : ScriptMachine) : Prop := machine'.sigChecks = machine.sigChecks ∨
    machine.sigChecks < machine.maxConsensusSigOps ∧ machine'.sigChecks = machine.sigChecks + 1

theorem sigChecks_of_instructed {α : Type} {program : ScriptM α} (instructed : Instructed False program)
    {machine machine' : ScriptMachine} {a : α} (ran : program machine = .ok a machine') :
    machine'.sigChecks = machine.sigChecks :=
  ((effect_of_instructed instructed ran).untallied id).2

variable {machine machine' : ScriptMachine} {verify : Bool} {u : Unit}

theorem requireSigCheckBudget_eq_ok_iff : requireSigCheckBudget machine = .ok u machine' ↔
      machine.sigChecks < machine.maxConsensusSigOps ∧ machine = machine' := by
  simp [requireSigCheckBudget, get_bind_apply]

theorem opCheckSig_sigCharge (ran : opCheckSig context verify machine = .ok u machine') :
    SigCharge machine machine' := by
  simp only [opCheckSig, bind_eq_ok_iff, requireItems_eq_ok_iff, stacktop_eq_ok_iff, get_bind_apply] at ran
  obtain ⟨_, _, ⟨-, rfl⟩, vchSig, _, ⟨-, rfl⟩, vchPubKey, _, ⟨-, rfl⟩, ran⟩ := ran
  split at ran
  · obtain ⟨_, _, tested, ran⟩ := bind_eq_ok_iff.mp ran
    obtain ⟨inBudget, rfl⟩ := requireSigCheckBudget_eq_ok_iff.mp tested
    obtain ⟨_, _, ⟨_⟩, ran⟩ := bind_eq_ok_iff.mp ran
    exact .inr ⟨inBudget, sigChecks_of_instructed inferInstance ran⟩
  · exact .inl (sigChecks_of_instructed inferInstance ran)

theorem opCheckDataSig_sigCharge (ran : opCheckDataSig context verify machine = .ok u machine') :
    SigCharge machine machine' := by
  simp only [opCheckDataSig, bind_eq_ok_iff, requireItems_eq_ok_iff, stacktop_eq_ok_iff, get_bind_apply,
    liftExcept_eq_ok_iff, requireSigCheckBudget_eq_ok_iff] at ran
  obtain ⟨_, _, ⟨-, rfl⟩, vchSig, _, ⟨-, rfl⟩, vchMessage, _, ⟨-, rfl⟩, vchPubKey, _, ⟨-, rfl⟩, _, _, ⟨-, rfl⟩, _, _,
    ⟨-, rfl⟩, _, _, ⟨inBudget, rfl⟩, ran⟩ := ran
  split at ran
  · obtain ⟨checker, _, given, ran⟩ := bind_eq_ok_iff.mp ran
    obtain ⟨-, rfl⟩ := dataRequired_eq_ok_iff.mp given
    obtain ⟨_, _, ⟨_⟩, ran⟩ := bind_eq_ok_iff.mp ran
    exact .inr ⟨inBudget, sigChecks_of_instructed inferInstance ran⟩
  · exact .inl (sigChecks_of_instructed inferInstance ran)

theorem opCheckMultiSig_sigChecks (ran : opCheckMultiSig context verify machine = .ok u machine') :
    ∃ count middle, readMultisig machine = .ok count middle ∧ machine'.sigChecks = machine.sigChecks + count := by
  obtain ⟨nKeysCount, _, keyCount, ran⟩ := bind_eq_ok_iff.mp ran
  obtain ⟨_, counted, countOps, ran⟩ := bind_eq_ok_iff.mp ran
  obtain ⟨nSigsCount, _, sigCount, ran⟩ := bind_eq_ok_iff.mp ran
  obtain ⟨vchDummy, middle, readDummy, ran⟩ := bind_eq_ok_iff.mp ran
  have read : readMultisig machine = .ok (if vchDummy = [] then 0 else nSigsCount) middle := by
    simp only [readMultisig, bind_eq_of_ok keyCount, bind_eq_of_ok countOps,
      bind_eq_of_ok sigCount, bind_eq_of_ok readDummy, pure_apply]
  have before : middle.sigChecks = machine.sigChecks := by
    obtain ⟨-, rfl⟩ := countOps_eq_ok_iff.mp countOps
    have keys := sigChecks_of_instructed inferInstance keyCount
    rw [sigChecks_of_instructed inferInstance readDummy, sigChecks_of_instructed inferInstance sigCount, ← keys]
  refine ⟨_, middle, read, ?_⟩
  rw [← before]
  simp only [decide_not, Bool.not_eq_eq_eq_not, Bool.not_true, decide_eq_false_iff_not] at ran
  split at ran
  next filled =>
    obtain ⟨_, _, ⟨_⟩, ran⟩ := bind_eq_ok_iff.mp ran
    rw [if_neg filled]
    exact sigChecks_of_instructed inferInstance ran
  next empty =>
    rw [if_pos (not_not.mp empty)]
    exact sigChecks_of_instructed inferInstance ran

/-! ## Steps -/

theorem sigChecks_of_fetch {machine fetched : ScriptMachine} {instruction : ℕ × Bytes}
    (fetch : fetch machine = .ok instruction fetched) : fetched.sigChecks = machine.sigChecks := by
  obtain ⟨rest, -, -, -, -, rfl⟩ := fetch_eq_ok_iff.mp fetch
  rfl

variable {opcode : ℕ} {evalChild : CScript → ScriptM Unit} {data : Bytes} {moments : List Moment}

theorem isMultisig_range (isMultisig : ofByte opcode = .checkMultiSig verify) : opcode = 0xae ∨ opcode = 0xaf := by
  unfold ofByte at isMultisig
  split at isMultisig
  · cases isMultisig
  · unfold operation at isMultisig
    split at isMultisig <;> first | (left; rfl) | (right; rfl) | cases isMultisig

/-- In a branch that is not taken nothing is checked. -/
theorem dispatch_sigCharge {fExec upgrade2 : Bool} {machine machine' : ScriptMachine}
    (notCalled : ¬(fExec = true ∧ ofByte opcode = .exec))
    (notMultisig : ∀ verify, ¬(fExec = true ∧ ofByte opcode = .checkMultiSig verify))
    (ran : dispatch context evalChild fExec upgrade2 opcode data machine = .ok () machine') :
    SigCharge machine machine' := by
  unfold dispatch at ran
  split at ran
  · exact .inl (sigChecks_of_instructed inferInstance ran)
  split at ran
  next taken =>
    have notExec : ofByte opcode ≠ .exec := by
      intro isExec
      rw [not_isIfControlOpcode_of_exec isExec] at taken
      exact notCalled ⟨by simpa using taken, isExec⟩
    -- the opcodes that do not count signatures leave their number alone, all others but one test it
    cases counts : (ofByte opcode).countsSignatures with
    | false =>
      exact .inl (sigChecks_of_instructed (execute_instructed_of_not_countsSignatures notExec counts) ran)
    | true =>
      cases isMultisig : ofByte opcode with
      | checkSig verify => exact opCheckSig_sigCharge (isMultisig ▸ ran)
      | checkDataSig verify => exact opCheckDataSig_sigCharge (isMultisig ▸ ran)
      | checkMultiSig verify =>
        have notControl : isIfControlOpcode opcode upgrade2 = false := by
          obtain rfl | rfl := isMultisig_range isMultisig <;> cases upgrade2 <;> rfl
        rw [notControl] at taken
        exact absurd ⟨by simpa using taken, isMultisig⟩ (notMultisig verify)
      | _ => simp [isMultisig, Opcode.countsSignatures] at counts
  · cases ran
    exact .inl rfl

/-- A step other than `OP_EXEC` adds the signatures of `OP_CHECKMULTISIG`, or tests the count it adds to. -/
theorem OrdinaryStep.sigChecks {machine next fetched carriedOut : ScriptMachine}
    (ordinary : OrdinaryStep context machine next opcode data fetched carriedOut) :
    machine.atMultisig ∧ next.sigChecks = machine.sigChecks + machine.multisigSignatures ∨
      ¬machine.atMultisig ∧ SigCharge machine next := by
  obtain ⟨evalChild, dispatched⟩ := ordinary.dispatch
  have fetchChecks := sigChecks_of_fetch ordinary.fetch
  have fetchLimit := (fetch_effect ordinary.fetch).maxConsensusSigOps
  have reads : machine.nextOpcode.map ofByte = some (ofByte opcode) := by rw [nextOpcode_of_fetch ordinary.fetch]; rfl
  rw [← ordinary.recorded]
  by_cases multisig : machine.atMultisig
  · refine .inl ⟨multisig, ?_⟩
    obtain ⟨taken, verify, isMultisig⟩ := multisig
    have isMultisig : ofByte opcode = .checkMultiSig verify := Option.some.inj (reads.symm.trans isMultisig)
    have notPush : ¬opcode ≤ OP_PUSHDATA4 := by
      obtain rfl | rfl := isMultisig_range isMultisig <;> decide
    rw [taken] at dispatched
    simp only [Nexa.dispatch, notPush, isMultisig] at dispatched
    obtain ⟨count, middle, read, added⟩ := opCheckMultiSig_sigChecks dispatched
    have ran : (do let _ ← Nexa.fetch; readMultisig) machine = .ok count middle := by
      rw [bind_eq_of_ok ordinary.fetch, read]
    unfold multisigSignatures
    rw [ran, ← fetchChecks, ← added]
    rfl
  · refine .inr ⟨multisig, ?_⟩
    have charge := dispatch_sigCharge ordinary.notCalled
      (fun verify isMultisig => multisig ⟨isMultisig.1, verify, isMultisig.2 ▸ reads⟩) dispatched
    unfold SigCharge at charge
    rwa [fetchChecks, fetchLimit] at charge

variable {caller child result next fetched left moved carriedOut : ScriptMachine} {code : CScript}

theorem Launched.sigChecks (launch : Launched machine caller child fetched left moved code) :
    caller.sigChecks = machine.sigChecks ∧ child.sigChecks = 0 ∧ ¬machine.atMultisig := by
  obtain ⟨data, fetch⟩ := launch.fetch
  refine ⟨?_, ?_, ?_⟩
  · rw [← launch.waiting, ← sigChecks_of_fetch fetch]
    exact (launch.called.left.untallied id).2
  · rw [← launch.started]
    exact (launch.called.moved.untallied id).2
  · rintro ⟨-, verify, isMultisig⟩
    rw [nextOpcode_of_fetch fetch, Option.map_some, Option.some_inj] at isMultisig
    obtain isMultisig | isMultisig := isMultisig_range isMultisig <;> cases isMultisig

/-- The budget of the child, with the wrap-around of its subtraction. -/
theorem Launched.child_maxConsensusSigOps (launch : Launched machine caller child fetched left moved code) :
    caller.maxConsensusSigOps = machine.maxConsensusSigOps ∧
      child.maxConsensusSigOps = subUInt32 machine.maxConsensusSigOps machine.sigChecks := by
  obtain ⟨data, fetch⟩ := launch.fetch
  have fetchLimit := (fetch_effect fetch).maxConsensusSigOps
  refine ⟨?_, ?_⟩
  · rw [← launch.waiting, ← fetchLimit]
    exact launch.called.left.maxConsensusSigOps
  · rw [← launch.started, ← sigChecks_of_fetch fetch, ← fetchLimit]
    exact launch.called.moved.maxConsensusSigOps

theorem CallStep.sigChecks (call : CallStep machine caller child result next fetched left moved carriedOut code) :
    next.sigChecks = machine.sigChecks + result.sigChecks := by
  rw [← call.toLaunched.sigChecks.1, ← call.recorded]
  exact (call.effect.untallied id).2

/-! ## Runs -/

theorem not_atMultisig_of_atEnd {machine : ScriptMachine} (atEnd : machine.script.length ≤ machine.pc) :
    ¬machine.atMultisig := by
  simp [atMultisig, nextOpcode_of_atEnd atEnd]

variable {final : ScriptMachine}

theorem Executes.sigChecks_mono (run : Executes context machine moments final) :
    machine.sigChecks ≤ final.sigChecks := by
  induction run using Executes.stepwise with
  | refl machine => exact le_rfl
  | ordinary ordinary _ ih =>
    obtain ⟨-, added⟩ | ⟨-, kept | ⟨-, added⟩⟩ := ordinary.sigChecks <;> omega
  | call call evaluated finished _ _ ih =>
    have added := call.sigChecks
    omega

/-- What an `OP_CHECKMULTISIG` adds is within the limit of its machine. -/
def Moment.withinSigBudget (moment : Moment) : Prop := moment.machine.atMultisig →
    moment.machine.sigChecks + moment.machine.multisigSignatures ≤ moment.machine.maxConsensusSigOps

section

variable (run : Executes context machine moments final) (small : machine.maxConsensusSigOps < 2 ^ 32)
include run small

/-- As long as every addition of `OP_CHECKMULTISIG` is within the limit, the count of every machine is. -/
theorem Executes.sigChecks_le (start : machine.sigChecks ≤ machine.maxConsensusSigOps)
    (budgets : ∀ moment ∈ moments, moment.withinSigBudget) :
    (∀ moment ∈ moments, moment.machine.sigChecks ≤ moment.machine.maxConsensusSigOps ∧
        moment.machine.maxConsensusSigOps < 2 ^ 32) ∧
      final.sigChecks ≤ machine.maxConsensusSigOps := by
  induction run using Executes.stepwise with
  | refl machine => exact ⟨by simp, start⟩
  | @ordinary machine next final moments _ _ _ _ ordinary rest ih =>
    obtain ⟨budget, budgets⟩ := List.forall_mem_cons.mp budgets
    rw [ordinary.sameLimits.maxConsensusSigOps] at ih
    have nextInLimit : next.sigChecks ≤ machine.maxConsensusSigOps := by
      obtain ⟨multisig, added⟩ | ⟨-, kept | ⟨inBudget, added⟩⟩ := ordinary.sigChecks
      · exact added.trans_le (budget multisig)
      · omega
      · omega
    obtain ⟨tail, last⟩ := ih small nextInLimit budgets
    exact ⟨List.forall_mem_cons.mpr ⟨⟨start, small⟩, tail⟩, last⟩
  | @call machine caller child result next final inner moments _ _ _ _ _ call evaluated finished rest innerIh ih =>
    obtain ⟨-, ⟨innerBudgets, -⟩, budgets⟩ := forall_mem_exec.mp budgets
    have added := call.sigChecks
    obtain ⟨-, childStart, -⟩ := call.toLaunched.sigChecks
    obtain ⟨-, childLimit⟩ := call.toLaunched.child_maxConsensusSigOps
    rw [subUInt32_of_le start small] at childLimit
    obtain ⟨nested, nestedLast⟩ := innerIh (by omega) (by omega) innerBudgets
    rw [call.sameLimits.maxConsensusSigOps] at ih
    obtain ⟨tail, last⟩ := ih small (by omega) budgets
    refine ⟨forall_mem_exec.mpr ⟨⟨start, small⟩, ⟨nested, ?_⟩, tail⟩, last⟩
    rw [evaluated.sameLimits.maxConsensusSigOps]
    exact ⟨nestedLast, by omega⟩

/-- Nothing is ever taken off the count, so that an addition above the limit stays. -/
theorem Executes.withinSigBudget (inLimit : final.sigChecks ≤ machine.maxConsensusSigOps) :
    ∀ moment ∈ moments, moment.withinSigBudget := by
  induction run using Executes.stepwise with
  | refl machine => simp
  | @ordinary machine next final moments _ _ _ _ ordinary rest ih =>
    have later := rest.sigChecks_mono
    rw [ordinary.sameLimits.maxConsensusSigOps] at ih
    refine List.forall_mem_cons.mpr ⟨fun multisig => ?_, ih small inLimit⟩
    obtain ⟨-, added⟩ | ⟨other, -⟩ := ordinary.sigChecks
    · exact (added ▸ later).trans inLimit
    · exact absurd multisig other
  | @call machine caller child result next final inner moments _ _ _ _ _ call evaluated finished rest innerIh ih =>
    have later := rest.sigChecks_mono
    have added := call.sigChecks
    obtain ⟨-, -, other⟩ := call.toLaunched.sigChecks
    obtain ⟨-, childLimit⟩ := call.toLaunched.child_maxConsensusSigOps
    rw [subUInt32_of_le (by omega) small] at childLimit
    rw [call.sameLimits.maxConsensusSigOps] at ih
    exact forall_mem_exec.mpr ⟨fun multisig => absurd multisig other, ⟨innerIh (by omega) (by omega),
      fun multisig => absurd multisig (not_atMultisig_of_atEnd finished.1)⟩, ih small inLimit⟩

end

/-! ## The limit and the budgets -/

/-- The budget of the child that a machine launches is at most what is left of its own. -/
def ScriptMachine.handsOverBudget : Prop := ∀ caller child, machine.launch = some (caller, child) →
    child.maxConsensusSigOps + caller.sigChecks ≤ caller.maxConsensusSigOps

theorem handsOverBudget_of_sigChecks_le (inLimit : machine.sigChecks ≤ machine.maxConsensusSigOps)
    (small : machine.maxConsensusSigOps < 2 ^ 32) : machine.handsOverBudget := by
  intro caller child launched
  obtain ⟨fetched, left, moved, code, launch⟩ := exists_launched launched
  obtain ⟨callerLimit, childLimit⟩ := launch.child_maxConsensusSigOps
  rw [callerLimit, childLimit, subUInt32_of_le inLimit small, launch.sigChecks.1, Nat.sub_add_cancel inLimit]

/-- The signature checks of a successful evaluation and the budgets it hands over are within the limit iff the
checks it starts with are and every `OP_CHECKMULTISIG` stays within the limit of its own machine. -/
theorem sigChecks_within_limit_iff {flags : ScriptFlags} {maxOps maxSigOps : UInt32} {maxScriptSize : ℕ}
    {stack altstack : List StackItem} {stats : ScriptMachineResourceTracker} {script : CScript}
    {moments : List Moment} {final : ScriptMachine}
    (evaluated : Evaluates context script
      { setUp flags maxOps maxSigOps maxScriptSize stack altstack with stats } moments final) :
    (final.sigChecks ≤ maxSigOps.toNat ∧ ∀ moment ∈ moments, moment.machine.handsOverBudget) ↔
      stats.consensusSigCheckCount ≤ maxSigOps.toNat ∧ ∀ moment ∈ moments, moment.withinSigBudget := by
  obtain ⟨start, begun, run, -⟩ := evaluated
  obtain ⟨-, rfl⟩ := beginStep_eq_ok_iff.mp begun
  have small := maxSigOps.toNat_lt
  constructor
  · rintro ⟨inLimit, -⟩
    exact ⟨run.sigChecks_mono.trans inLimit, run.withinSigBudget small inLimit⟩
  · rintro ⟨first, budgets⟩
    obtain ⟨within, inLimit⟩ := run.sigChecks_le small first budgets
    exact ⟨inLimit, fun moment member =>
      handsOverBudget_of_sigChecks_le (within moment member).1 (within moment member).2⟩

/-- One key and one signature, which a checker accepts. -/
def oneOfOneScript : CScript := [0x51, 0x40] ++ List.replicate 64 0 ++ [0x51, 0, 0x51, 0xae]

/-- The signature checks of a successful evaluation. -/
def evalSigChecks (context : ScriptContext) (rounds : ℕ) (script : CScript) (machine : ScriptMachine) : Option ℕ :=
  match eval context rounds script machine with
  | .ok _ final => some final.sigChecks
  | .error _ _ => none

theorem exists_evaluates_of_evalSigChecks {rounds count : ℕ} {script : CScript} {machine : ScriptMachine}
    (evaluated : evalSigChecks context rounds script machine = some count) :
    ∃ moments final, Evaluates context script machine moments final ∧ final.sigChecks = count := by
  unfold evalSigChecks at evaluated
  split at evaluated
  next u final ran =>
    obtain ⟨moments, evaluates⟩ := exists_evaluates_of_eval ran
    exact ⟨moments, final, evaluates, Option.some.inj evaluated⟩
  · cases evaluated

theorem sigChecks_within_limit_oneOfOne : ∃ moments final,
    Evaluates .accepting oneOfOneScript (setUp blockFlags 10 1 Nexa.maxScriptSize [] []) moments final ∧
      ((final.sigChecks ≤ 1 ∧ ∀ moment ∈ moments, moment.machine.handsOverBudget) ↔
        0 ≤ 1 ∧ ∀ moment ∈ moments, moment.withinSigBudget) := by
  obtain ⟨moments, final, evaluated, -⟩ := @exists_evaluates_of_evalSigChecks .accepting 10 1 oneOfOneScript
    (setUp blockFlags 10 1 Nexa.maxScriptSize [] []) (by decide +kernel)
  exact ⟨moments, final, evaluated, @sigChecks_within_limit_iff _ blockFlags 10 1 _ [] [] {} _ _ _ evaluated⟩

/-- With a limit of no checks at all, a multisignature still adds one. -/
theorem sigChecks_above_limit : ∃ moments final,
    Evaluates .accepting oneOfOneScript (setUp blockFlags 10 0 Nexa.maxScriptSize [] []) moments final ∧
      0 < final.sigChecks := by
  obtain ⟨moments, final, evaluated, checks⟩ := @exists_evaluates_of_evalSigChecks .accepting 10 1 oneOfOneScript
    (setUp blockFlags 10 0 Nexa.maxScriptSize [] []) (by decide +kernel)
  exact ⟨moments, final, evaluated, by rw [checks]; decide⟩

end Nexa
