import Nexa.Proofs.ScriptCounts

/-! # Bytes on the stacks

A frame that starts with its bytes counted, within the limit and recorded keeps this for the whole run, and so
do all frames that `OP_EXEC` starts: they share the limit of their caller, and their record goes into its own.
-/

namespace Nexa

open ScriptMachine List

variable {context : ScriptContext} (moment : Moment)

/-- The bytes of all machines at a moment. -/
def Moment.use : ℕ := moment.machine.stackUse + (moment.suspended.map stackUse).sum

@[simp] theorem Moment.use_under (caller : ScriptMachine) :
    (moment.under caller).use = moment.use + caller.stackUse := by
  simp [Moment.use, Moment.under]
  omega

/-- The frames of an evaluation by their first machine: its own and those that `OP_EXEC` starts. -/
inductive Frame (context : ScriptContext) (machine : ScriptMachine) : ScriptMachine → Prop
  | self : Frame context machine machine
  | call {start later caller child : ScriptMachine} {moments : List Moment} (frame : Frame context machine start)
      (run : Executes context start moments later) (launched : later.launch = some (caller, child)) :
      Frame context machine child

/-! ## Steps -/

theorem ScriptMachine.Tracked.itemsRecorded {machine : ScriptMachine} (tracked : machine.Tracked) :
    machine.itemsRecorded.Tracked :=
  ⟨⟨tracked.stack, tracked.altstack⟩, tracked.withinLimit, tracked.recorded⟩

theorem OrdinaryStep.tracked {machine next fetched carriedOut : ScriptMachine} {opcode : ℕ} {data : Bytes}
    (ordinary : OrdinaryStep context machine next opcode data fetched carriedOut) (tracked : machine.Tracked) :
    next.Tracked ∧ machine.stats.maxStackBytes ≤ next.stats.maxStackBytes := by
  obtain ⟨fetch, dispatched⟩ := ordinary.effect
  rw [← ordinary.recorded]
  exact ⟨(dispatched.tracked (fetch.tracked tracked)).itemsRecorded, fetch.maxStackBytes.trans dispatched.maxStackBytes⟩

section

variable {machine caller child result next fetched left moved carriedOut : ScriptMachine} {code : CScript}

theorem execMachine_tracked (machine : ScriptMachine) : (execMachine machine).Tracked :=
  ⟨⟨rfl, rfl⟩, Nat.zero_le _, Nat.zero_le _⟩

section

variable (launch : Launched machine caller child fetched left moved code) (tracked : machine.Tracked)
include launch tracked

theorem Launched.left_tracked : left.Tracked := by
  obtain ⟨data, fetch⟩ := launch.fetch
  exact launch.called.left.tracked ((fetch_effect fetch).tracked tracked)

theorem Launched.child_tracked (small : machine.maxStackUse < 2 ^ 32) : child.Tracked ∧ child.maxStackUse < 2 ^ 32 := by
  obtain ⟨data, fetch⟩ := launch.fetch
  have fetchTracked := (fetch_effect fetch).tracked tracked
  have leftTracked := launch.left_tracked tracked
  have movedTracked := launch.called.moved.tracked (execMachine_tracked fetched)
  have shared := launch.called.use fetchTracked
  have inLimit := fetchTracked.withinLimit
  have sameLimit := launch.called.left.maxStackUse
  have fetchLimit := (fetch_effect fetch).maxStackUse
  have rest : subUInt32 left.maxStackUse left.stackUse = left.maxStackUse - left.stackUse :=
    subUInt32_of_le leftTracked.withinLimit (by omega)
  rw [← launch.started]
  refine ⟨⟨⟨movedTracked.stack, movedTracked.altstack⟩, ?_, movedTracked.recorded⟩, ?_⟩
  · change moved.stackUse ≤ subUInt32 left.maxStackUse left.stackUse
    omega
  · change subUInt32 left.maxStackUse left.stackUse < 2 ^ 32
    omega

end

theorem CallStep.tracked (call : CallStep machine caller child result next fetched left moved carriedOut code)
    (tracked : machine.Tracked) :
    next.Tracked ∧ machine.stats.maxStackBytes ≤ next.stats.maxStackBytes ∧
      caller.stackUse + result.stats.maxStackBytes ≤ next.stats.maxStackBytes := by
  obtain ⟨data, fetch⟩ := call.fetch
  have leftTracked := call.toLaunched.left_tracked tracked
  have grown := call.effect.maxStackBytes
  have before := (fetch_effect fetch).maxStackBytes.trans call.called.left.maxStackBytes
  rw [← call.recorded]
  have updated : (caller.updated result).Tracked ∧ left.stats.maxStackBytes ≤
      (caller.updated result).stats.maxStackBytes ∧
      caller.stackUse + result.stats.maxStackBytes ≤ (caller.updated result).stats.maxStackBytes := by
    rw [← call.waiting]
    exact ⟨⟨⟨leftTracked.stack, leftTracked.altstack⟩, leftTracked.withinLimit,
      leftTracked.recorded.trans (le_max_left _ _)⟩, le_max_left _ _, le_max_right _ _⟩
  obtain ⟨updatedTracked, keeps, adds⟩ := updated
  exact ⟨(call.effect.tracked updatedTracked).itemsRecorded, before.trans (keeps.trans grown), adds.trans grown⟩

end

/-! ## Runs -/

theorem Executes.tracked {machine final : ScriptMachine} {moments : List Moment}
    (run : Executes context machine moments final) (tracked : machine.Tracked)
    (small : machine.maxStackUse < 2 ^ 32) :
    final.Tracked ∧ machine.stats.maxStackBytes ≤ final.stats.maxStackBytes ∧
      ∀ moment ∈ moments, moment.use ≤ final.stats.maxStackBytes := by
  induction run using Executes.stepwise with
  | refl machine => exact ⟨tracked, le_rfl, by simp⟩
  | ordinary ordinary _ ih =>
    obtain ⟨nextTracked, grown⟩ := ordinary.tracked tracked
    obtain ⟨finalTracked, grown', later⟩ := ih nextTracked (ordinary.sameLimits.maxStackUse ▸ small)
    refine ⟨finalTracked, grown.trans grown', forall_mem_cons.mpr ⟨?_, later⟩⟩
    exact tracked.recorded.trans (grown.trans grown')
  | call call evaluated finished _ inner ih =>
    obtain ⟨childTracked, childSmall⟩ := call.toLaunched.child_tracked tracked small
    obtain ⟨resultTracked, -, innerUse⟩ := inner childTracked childSmall
    obtain ⟨nextTracked, grown, added⟩ := call.tracked tracked
    obtain ⟨finalTracked, grown', later⟩ := ih nextTracked (call.sameLimits.maxStackUse ▸ small)
    refine ⟨finalTracked, grown.trans grown', ?_⟩
    have recorded := tracked.recorded
    have resultRecorded := resultTracked.recorded
    refine forall_mem_exec.mpr ⟨?_, ⟨fun moment isInner => ?_, ?_⟩, later⟩
    · exact recorded.trans (grown.trans grown')
    · have := innerUse moment isInner
      rw [Moment.use_under]
      omega
    · simp only [Moment.use, map_cons, map_nil, sum_cons, sum_nil]
      omega

theorem Frame.tracked {machine start : ScriptMachine} (frame : Frame context machine start)
    (tracked : machine.Tracked) (small : machine.maxStackUse < 2 ^ 32) :
    start.Tracked ∧ start.maxStackUse < 2 ^ 32 := by
  induction frame with
  | self => exact ⟨tracked, small⟩
  | call _ run launched ih =>
    obtain ⟨startTracked, startSmall⟩ := ih
    obtain ⟨laterTracked, -, -⟩ := run.tracked startTracked startSmall
    obtain ⟨fetched, left, moved, code, launch⟩ := exists_launched launched
    exact launch.child_tracked laterTracked (run.sameLimits.maxStackUse ▸ startSmall)

/-! ## The account of bytes -/

/-- In every frame of the evaluation, the sizes of the stacks are counted between all steps, their sum is within
the limit, and the record is not below the bytes at any moment of the frame up to there. -/
def AccountsForBytes (context : ScriptContext) (script : CScript) (machine : ScriptMachine) : Prop :=
  ∀ start, beginStep script machine = .ok () start → ∀ first, Frame context start first →
    ∀ moments later, Executes context first moments later → later.Sized ∧ later.stackUse ≤ later.maxStackUse ∧
        ∀ moment ∈ moments ++ [⟨later, []⟩], moment.use ≤ later.stats.maxStackBytes

/-- The bytes are accounted for in all evaluations iff those a machine starts with are within its limit and
already recorded: setting the stacks does neither. -/
theorem accountsForBytes_iff (flags : ScriptFlags) (maxOps maxSigOps : UInt32) (maxScriptSize : ℕ)
    (stats : ScriptMachineResourceTracker) (stack altstack : List StackItem) :
    (∀ context script, AccountsForBytes context script
      { setUp flags maxOps maxSigOps maxScriptSize stack altstack with stats }) ↔
      itemBytes stack + itemBytes altstack ≤ (create flags maxOps.toNat maxSigOps.toNat).maxStackUse ∧
        itemBytes stack + itemBytes altstack ≤ stats.maxStackBytes := by
  constructor
  · intro always
    obtain ⟨-, withinLimit, recorded⟩ := always .bare [] _
      (beginStep_eq_ok_iff.mpr ⟨Nat.zero_le _, rfl⟩) _ .self [] _ (.refl _)
    exact ⟨withinLimit, recorded _ (mem_append_right _ mem_cons_self)⟩
  · rintro ⟨withinLimit, recorded⟩ context script start begun first frame moments later run
    obtain ⟨-, rfl⟩ := beginStep_eq_ok_iff.mp begun
    have small : (create flags maxOps.toNat maxSigOps.toNat).maxStackUse < 2 ^ 32 := by
      simp only [create]
      split <;> decide
    obtain ⟨firstTracked, firstSmall⟩ := frame.tracked ⟨⟨rfl, rfl⟩, withinLimit, recorded⟩ small
    obtain ⟨laterTracked, -, uses⟩ := run.tracked firstTracked firstSmall
    refine ⟨laterTracked.toSized, laterTracked.withinLimit, forall_mem_append.mpr ⟨uses, ?_⟩⟩
    simpa [Moment.use] using laterTracked.recorded

/-- A machine that gets its alternative stack from elsewhere, as the one of a template does, records nothing of
it while `OP_FROMALTSTACK OP_DROP` uses it up. -/
theorem unrecorded_altstack : ∃ moments final,
    Evaluates .bare [0x6c, 0x75] (setUp .FORK1_OPCODES 10 0 10 [] [.vch [0xbb]]) moments final ∧
      final.stats.maxStackBytes = 0 ∧ ∃ moment ∈ moments, moment.use = 1 := by
  refine ⟨_, _, ⟨_, rfl, .step (by decide) (by decide) rfl (.step (by decide) (by decide) rfl (.refl _)), ?_⟩, ?_, ?_⟩
  · exact ⟨by decide, by decide⟩
  · rfl
  · exact ⟨_, mem_cons_self, rfl⟩

end Nexa
