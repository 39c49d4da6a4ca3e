import Nexa.Proofs.ScriptBlocks

/-! # The limits on operations and nested evaluations

`Eval` ends, and keeps the limits on operations, on the depth and on the number of nested evaluations, as long as
the counter of operations cannot pass its limit by wrapping around. A limit within 16 of 2^32 can be jumped over
with the keys of `OP_CHECKMULTISIG`, and then a loop does not end.
-/

namespace Nexa

open ScriptMachine

variable {context : ScriptContext}

/-! ## A loop around the limit -/

/-- The part of the script that repeats. It adds 32 operations: 17 and 14 by two multisignatures, one by the
jump. -/
def wrapLoop : CScript := emptyMultisig 16 ++ (emptyMultisig 13 ++ [1, 41, 0x65])

/-- The first multisignature moves the count, so that the largest additions end on multiples of 32. -/
def wrapScript : CScript := emptyMultisig 14 ++ wrapLoop

/-- The machine in front of the part that repeats. -/
structure Wrapping (machine : ScriptMachine) (nOpCount : ℕ) : Prop where
  here : machine.At wrapScript wrapLoop [] nOpCount
  place : nOpCount % 32 = 15
  count : nOpCount < 2 ^ 32
  limit : 2 ^ 32 - 16 ≤ machine.maxOps

theorem Wrapping.again {machine : ScriptMachine} {nOpCount : ℕ} (wrapping : Wrapping machine nOpCount) :
    ∃ steps next, 0 < steps ∧ Walks context machine steps next ∧ ∃ nOpCount', Wrapping next nOpCount' := by
  obtain ⟨here, place, count, limit⟩ := wrapping
  obtain ⟨m1, steps1, positive, walk1, at1⟩ := @At.emptyMultisig context _ _ _ _ 16 here (by decide) (by decide)
    (by omega) (by omega)
  have limit1 := walk1.sameLimits.maxOps
  obtain ⟨m2, steps2, -, walk2, at2⟩ := @At.emptyMultisig context _ _ _ _ 13 at1 (by decide) (by decide)
    (by omega) (by omega)
  have limit2 := walk2.sameLimits.maxOps
  -- 14 operations behind a multiple of 32, so that the jump is the fifteenth
  obtain ⟨c, place', count', at2⟩ : ∃ c, c % 32 = 14 ∧ c < 2 ^ 32 ∧ m2.At wrapScript [1, 41, 0x65] [] c :=
    ⟨_, by omega, by omega, at2⟩
  obtain ⟨m3, walk3, at3⟩ := @At.pushBytes context _ _ _ _ _ [41] at2 (by decide) (by decide)
  have limit3 := walk3.sameLimits.maxOps
  obtain ⟨m4, walk4, at4⟩ := @At.jump context _ _ _ _ _ _ 41 at3 rfl (by decide) (by decide)
    (by omega) (by decide)
  have limit4 := walk4.sameLimits.maxOps
  exact ⟨_, m4, by omega, ((walk1.trans walk2).trans walk3).trans walk4, (c + 1) % 2 ^ 32, at4, by omega, by omega,
    by omega⟩

theorem not_completed_eval {rounds : ℕ} {script : CScript} {machine start : ScriptMachine}
    (begun : beginStep script machine = .ok () start) (runsOn : ¬Completed (stepLoop context rounds start)) :
    ¬Completed (eval context rounds script machine) := by
  intro completed
  rw [eval, EStateM.bind_eq_of_ok begun] at completed
  exact runsOn completed.of_bind

theorem not_completed_wrapScript {maxOps maxSigOps : UInt32} (high : 2 ^ 32 ≤ maxOps.toNat + maxPubkeysPerMultisig)
    (rounds : ℕ) :
    ¬Completed (eval context rounds wrapScript (setUp blockFlags maxOps maxSigOps Nexa.maxScriptSize [] [])) := by
  have limit : 2 ^ 32 - 16 ≤ maxOps.toNat := by
    change 2 ^ 32 ≤ maxOps.toNat + 16 at high
    omega
  have short : wrapScript.length ≤ Nexa.maxScriptSize := by decide
  refine not_completed_eval (beginStep_eq_ok_iff.mpr ⟨short, rfl⟩) fun completed => ?_
  obtain ⟨next, steps, positive, walk, there⟩ := @At.emptyMultisig context _ _ _ _ 14
    (setUp_at wrapScript maxOps maxSigOps Nexa.maxScriptSize) (by decide) (by decide)
    (le_trans (by decide) limit) (le_trans (by decide) limit)
  have wrapping : Wrapping next 15 := ⟨there, rfl, by decide, by rw [walk.sameLimits.maxOps]; exact limit⟩
  have same := stepLoop_of_le (Nat.le_add_right rounds steps) completed
  rw [walk.stepLoop] at same
  refine not_completed_of_walks (P := fun machine => ∃ c, Wrapping machine c) ?_ rounds next ⟨15, wrapping⟩
    (same ▸ completed)
  rintro machine ⟨c, wrapping⟩
  exact wrapping.again

/-! ## The limits -/

/-- The evaluation ends. When it succeeds it is a run, with limits on its operations, on the number of machines
that wait and on the number of evaluations it has launched. -/
structure EndsWithinLimits (context : ScriptContext) (script : CScript) (machine : ScriptMachine) (maxOps : ℕ) :
    Prop where
  ends : ∃ rounds, Completed (eval context rounds script machine)
  runs : ∀ rounds final, eval context rounds script machine = .ok () final →
    ∃ moments, Evaluates context script machine moments final
  operations : ∀ moments final, Evaluates context script machine moments final →
    moments.countP (fun moment => moment.machine.counts) ≤ maxOps
  depth : ∀ moments final, Evaluates context script machine moments final →
    ∀ moment ∈ moments, moment.suspended.length ≤ maxExecDepth
  launches : ∀ moments final, Evaluates context script machine moments final →
    moments.countP (fun moment => moment.machine.calls) ≤ Nexa.maxOpExec

/-- `Eval` ends within its limits for all scripts, rules, imported states and stacks iff the limit on operations
leaves room for the keys of one `OP_CHECKMULTISIG` below 2^32. -/
theorem endsWithinLimits_iff (maxOps : UInt32) :
    (∀ (context : ScriptContext) (flags : ScriptFlags) (maxSigOps : UInt32) (maxScriptSize : ℕ)
      (stack altstack : List StackItem) (script : CScript), EndsWithinLimits context script
        (setUp flags maxOps maxSigOps maxScriptSize stack altstack) maxOps.toNat) ↔
      maxOps.toNat + maxPubkeysPerMultisig < 2 ^ 32 := by
  constructor
  · intro always
    by_contra high
    obtain ⟨rounds, completed⟩ := (always .bare blockFlags 0 Nexa.maxScriptSize [] [] wrapScript).ends
    exact not_completed_wrapScript (not_lt.mp high) rounds completed
  · intro room context flags maxSigOps maxScriptSize stack altstack script
    have counting : ((setUp flags maxOps maxSigOps maxScriptSize stack altstack).begun script).Counting :=
      ⟨room, Nat.zero_le _⟩
    refine ⟨?_, fun rounds final => exists_evaluates_of_eval, ?_, ?_, ?_⟩
    · cases begun : beginStep script (setUp flags maxOps maxSigOps maxScriptSize stack altstack) with
      | error halt start =>
        refine ⟨0, ?_⟩
        rw [eval_of_begin_error begun, ← begun]
        exact completed_of_built inferInstance _
      | ok _ start =>
        obtain ⟨-, rfl⟩ := beginStep_eq_ok_iff.mp begun
        obtain ⟨rounds, completed⟩ := exists_completed maxExecDepth counting rfl (Nat.le_add_left _ _)
        exact ⟨rounds, eval_completed begun completed⟩
    all_goals
      rintro moments final ⟨start, begun, run, -⟩
      obtain ⟨-, rfl⟩ := beginStep_eq_ok_iff.mp begun
    · obtain ⟨finalCounting, counted⟩ := run.counting counting
      have inLimit := finalCounting.inLimit
      rw [run.sameLimits.maxOps] at inLimit
      exact ((Nat.le_add_left _ _).trans counted).trans inLimit
    · intro moment member
      exact (Nat.le_add_left _ _).trans (run.depth rfl (Nat.zero_le _) moment member)
    · obtain ⟨counted, inLimit⟩ := run.nOpExec
      exact ((Nat.le_add_left _ _).trans counted.ge).trans (inLimit (Nat.zero_le _))

/-- `OP_1 OP_JUMP` does not end in a machine without a limit on operations. -/
theorem not_completed_jump : ¬∃ rounds, Completed
    (eval .bare rounds [0x51, 0x65] (setUp blockFlags 0xffffffff 0xffffffff Nexa.maxScriptSize [] [])) := by
  rintro ⟨rounds, completed⟩
  refine not_completed_eval (beginStep_eq_ok_iff.mpr ⟨by decide, rfl⟩) ?_ completed
  refine not_completed_of_walks (P := fun machine =>
    (∃ c, machine.At [0x51, 0x65] [0x51, 0x65] [] c) ∧ machine.maxOps = 2 ^ 32 - 1) ?_ rounds _
    ⟨⟨0, setUp_at _ _ _ _⟩, rfl⟩
  rintro machine ⟨⟨c, here⟩, limit⟩
  obtain ⟨m1, walk1, at1⟩ := @At.pushNumber .bare _ _ _ _ _ 1 here (by decide) (by decide) (by decide) (by decide)
  have limit1 := walk1.sameLimits.maxOps
  obtain ⟨m2, walk2, at2⟩ := @At.jump .bare _ _ _ _ _ _ 1 at1 rfl (by decide) (by decide) (by omega) (by decide)
  exact ⟨_, m2, by decide, walk1.trans walk2, ⟨_, at2⟩, walk2.sameLimits.maxOps.trans (limit1.trans limit)⟩

end Nexa
