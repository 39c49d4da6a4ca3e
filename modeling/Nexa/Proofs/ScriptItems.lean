import Nexa.Proofs.ScriptBlocks

/-! # Items on the stacks

Every machine tests the items on its own two stacks after each step, and a child is given the full limit. The
items of the machines that wait for it are not part of the test.
-/

namespace Nexa

open ScriptMachine List

variable {context : ScriptContext} (moment : Moment)

/-- The items of all machines at a moment. -/
def Moment.items : ℕ := moment.machine.stackItems + (moment.suspended.map stackItems).sum

/-- The items that wait while a child runs: those of the caller, as its launch leaves it, and of its own callers. -/
def Moment.waitingItems (caller : ScriptMachine) : ℕ := caller.stackItems + (moment.suspended.map stackItems).sum

/-- A child that is launched may hold no more items than those that wait leave of the limit. -/
def Moment.launchFits : Prop := ∀ caller child, moment.machine.launch = some (caller, child) →
    moment.waitingItems caller + child.maxStackItems ≤ Nexa.maxStackItems

@[simp] theorem Moment.items_under (caller : ScriptMachine) :
    (moment.under caller).items = moment.items + caller.stackItems := by
  simp only [Moment.items, Moment.under, map_append, map_cons, map_nil, sum_append, sum_cons, sum_nil]
  omega

@[simp] theorem Moment.waitingItems_under (caller other : ScriptMachine) :
    (moment.under caller).waitingItems other = moment.waitingItems other + caller.stackItems := by
  simp only [Moment.waitingItems, Moment.under, map_append, map_cons, map_nil, sum_append, sum_cons, sum_nil]
  omega

/-! ## Steps -/

variable {machine : ScriptMachine} {moments : List Moment}

theorem OrdinaryStep.stackItems_le {next fetched carriedOut : ScriptMachine} {opcode : ℕ} {data : Bytes}
    (ordinary : OrdinaryStep context machine next opcode data fetched carriedOut) :
    next.stackItems ≤ machine.maxStackItems := by
  obtain ⟨fetch, dispatched⟩ := ordinary.effect
  rw [← fetch.maxStackItems, ← dispatched.maxStackItems, ← ordinary.recorded]
  exact ordinary.itemsInLimit

section

variable {machine caller child result next fetched left moved carriedOut : ScriptMachine} {code : CScript}

theorem CallStep.stackItems_le (call : CallStep machine caller child result next fetched left moved carriedOut code) :
    next.stackItems ≤ machine.maxStackItems := by
  rw [← call.sameLimits.maxStackItems, ← call.recorded]
  exact call.itemsInLimit

/-- The items of the child were items of its caller. -/
theorem Launched.stackItems_le (launch : Launched machine caller child fetched left moved code) :
    caller.stackItems + child.stackItems ≤ machine.stackItems := by
  obtain ⟨data, fetch⟩ := launch.fetch
  obtain ⟨rest, -, -, -, -, behind⟩ := fetch_eq_ok_iff.mp fetch
  have sameItems : fetched.stackItems = machine.stackItems := by
    rw [← behind]
    rfl
  rw [← launch.waiting, ← launch.started, ← sameItems]
  exact launch.called.items

end

/-! ## Runs -/

variable {final : ScriptMachine}

/-- With `outside` items elsewhere: a machine tests its own items, and the room that it has is enough if every
child gets no more than what its callers leave. -/
theorem Executes.items_le {outside limit : ℕ} (run : Executes context machine moments final)
    (items : machine.stackItems + outside ≤ limit) (room : machine.maxStackItems + outside ≤ limit)
    (launches : ∀ moment ∈ moments, ∀ caller child, moment.machine.launch = some (caller, child) →
      moment.waitingItems caller + outside + child.maxStackItems ≤ limit) :
    (∀ moment ∈ moments, moment.items + outside ≤ limit) ∧ final.stackItems + outside ≤ limit := by
  induction run generalizing outside with
  | refl machine => exact ⟨by simp, items⟩
  | step _ notCalled stepped _ ih =>
    obtain ⟨_, _, _, _, ordinary⟩ := exists_ordinaryStep notCalled stepped
    have own := ordinary.stackItems_le
    rw [ordinary.sameLimits.maxStackItems] at ih
    obtain ⟨later, last⟩ := ih (by omega) room (forall_mem_cons.mp launches).2
    exact ⟨forall_mem_cons.mpr ⟨items, later⟩, last⟩
  | @exec machine caller child result next final inner moments _ launched _ _ stepped _ innerIh ih =>
    obtain ⟨_, _, _, _, _, call⟩ := exists_callStep launched stepped
    obtain ⟨fits, ⟨innerFits, -⟩, launches⟩ := forall_mem_exec.mp launches
    have own := call.stackItems_le
    have moved := call.toLaunched.stackItems_le
    have launch : caller.stackItems + outside + child.maxStackItems ≤ limit := fits caller child launched
    obtain ⟨nested, nestedLast⟩ := @innerIh (caller.stackItems + outside) (by omega) (by omega)
      fun moment member other grandchild launched => by
        have fits := innerFits moment member other grandchild launched
        rw [Moment.waitingItems_under] at fits
        omega
    rw [call.sameLimits.maxStackItems] at ih
    obtain ⟨later, last⟩ := ih (by omega) room launches
    refine ⟨forall_mem_exec.mpr ⟨items, ⟨fun moment member => ?_, ?_⟩, later⟩, last⟩
    · have inside := nested moment member
      rw [Moment.items_under]
      omega
    · have inside : (⟨result, [caller]⟩ : Moment).items = result.stackItems + caller.stackItems := rfl
      omega

/-! ## The limit over all frames -/

/-- A stack of `count` empty items and a call of code that has `pushes` of them. -/
def crowdedScript (count pushes : ℕ) : CScript :=
  replicate count 0 ++ (serializeVector (replicate pushes 0) ++ [0, 0, 0xed])

theorem exists_evaluates_crowdedScript {count pushes : ℕ} (fits : count + 3 ≤ Nexa.maxStackItems)
    (few : pushes ≤ Nexa.maxStackItems) (short : count + pushes + 8 ≤ Nexa.maxScriptSize) : ∃ moments final,
    Evaluates .bare (crowdedScript count pushes) (setUp blockFlags 10 0 Nexa.maxScriptSize [] []) moments final ∧
      (∃ moment ∈ moments, moment.items = count + pushes) ∧ (∃ moment ∈ moments, moment.machine.launch.isSome) ∧
      ∀ moment ∈ moments, ∀ caller child, moment.machine.launch = some (caller, child) →
        moment.waitingItems caller = count ∧ child.maxStackItems = Nexa.maxStackItems := by
  have noBytes : itemBytes (replicate count (.vch [])) = 0 := by
    simp [itemBytes, StackItem.size]
  have length : (crowdedScript count pushes).length ≤ Nexa.maxScriptSize := by
    have sized := length_serializeVector_le (replicate pushes 0)
    rw [length_replicate] at sized
    simp only [crowdedScript, length_append, length_replicate, length_cons, length_nil]
    omega
  have size : (replicate pushes (0 : UInt8)).length ≤ maxScriptStackSize := by
    rw [length_replicate]
    exact few.trans (by decide)
  obtain ⟨m1, walk1, at1⟩ := @At.pushZeros .bare _ _ _ _ _ _
    (setUp_at (crowdedScript count pushes) 10 0 Nexa.maxScriptSize) (by decide) (by simp only [length_nil]; omega)
  rw [append_nil] at at1
  obtain ⟨m2, walk2, at2⟩ := @At.pushBytes .bare _ _ _ _ _ _ at1 (by rwa [noBytes, Nat.zero_add])
    (by rw [length_replicate]; omega)
  have bytes : itemBytes (.vch (replicate pushes 0) :: replicate count (.vch [])) = pushes := by
    rw [itemBytes_cons, noBytes, StackItem.size, length_replicate]
    omega
  obtain ⟨m3, walk3, at3⟩ := @At.pushZeros .bare _ _ [0xed] _ _ 2 at2 (by rw [bytes]; exact few.trans (by decide))
    (by rw [length_cons, length_replicate]; omega)
  have walk := (walk1.trans walk2).trans walk3
  have launches : m3.stats.nOpExec = 0 := walk.nOpExec
  have launchLimit : m3.maxOpExec = Nexa.maxOpExec := walk.sameLimits.maxOpExec
  have depth : m3.stats.nOpExecDepth = 0 := walk.sameLimits.nOpExecDepth
  have depthLimit : m3.maxOpExecDepth = maxExecDepth := walk.sameLimits.maxOpExecDepth
  have opLimit : m3.maxOps = 10 := walk.sameLimits.maxOps
  have code : (replicate pushes (0 : UInt8)).length ≤ Nexa.maxScriptSize := by
    rw [length_replicate]
    omega
  obtain ⟨caller, child, result, next, inner, launched, ⟨run, own⟩, finished, stepped, callerItems, childLimit,
    resultItems, nextAt⟩ := @At.call .bare m3 _ _ _ _ _ _ at3
      (by rw [depth, depthLimit]; decide) (by rw [launches, launchLimit]; decide) (by rw [launches]; decide)
      (by rw [opLimit]; decide) code noBytes (by rw [length_replicate]; omega)
      fun child childAt => ⟨pushes, @At.pushZeros .bare _ _ [] _ _ pushes (by rwa [append_nil]) (by decide)
        (by rw [length_nil]; omega)⟩
  obtain ⟨before, beforeRun, -, beforeOwn⟩ := walk
  have nextFinished : next.finished := ⟨drop_eq_nil_iff.mp nextAt.place, by rw [nextAt.noCondition]; rfl⟩
  refine ⟨_, next, ⟨_, beginStep_eq_ok_iff.mpr ⟨length, rfl⟩, beforeRun.trans
    (.exec (at3.unfinished (by simp)) launched run finished stepped (.refl next)), nextFinished⟩,
    ⟨⟨result, [caller]⟩, ?_, ?_⟩, ⟨⟨m3, []⟩, ?_, ?_⟩, ?_⟩
  · simp [Moment.under]
  · simp [Moment.items, callerItems, resultItems, Nat.add_comm]
  · simp
  · simp [launched]
  · have none {moment : Moment} (notCalled : moment.machine.calls = false) : ∀ caller child,
        moment.machine.launch = some (caller, child) →
          moment.waitingItems caller = count ∧ child.maxStackItems = Nexa.maxStackItems := fun _ _ launched => by
      cases (launch_eq_some_iff.mp launched).1.symm.trans notCalled
    refine forall_mem_append.mpr ⟨fun moment member => none (beforeOwn moment member), forall_mem_exec.mpr
      ⟨fun _ _ again => ?_, ⟨fun moment member => none (own moment member), none (calls_of_atEnd finished.1)⟩, by simp⟩⟩
    cases launched.symm.trans again
    exact ⟨by simp [Moment.waitingItems, callerItems], childLimit⟩

/-- The items of a successful evaluation stay within the limit if those it starts with do and, whenever a child is
launched, the items that wait and those the child may hold do. -/
theorem items_within_limit_of_launches {flags : ScriptFlags} {maxOps maxSigOps : UInt32} {maxScriptSize : ℕ}
    {stack altstack : List StackItem} {script : CScript} {moments : List Moment} {final : ScriptMachine}
    (enforced : flags.has .ENFORCE_STACK_TOTAL = true)
    (evaluated : Evaluates context script (setUp flags maxOps maxSigOps maxScriptSize stack altstack) moments final)
    (first : stack.length + altstack.length ≤ Nexa.maxStackItems) (fits : ∀ moment ∈ moments, moment.launchFits) :
    ∀ moment ∈ moments ++ [⟨final, []⟩], moment.items ≤ Nexa.maxStackItems := by
  obtain ⟨start, begun, run, -⟩ := evaluated
  obtain ⟨-, rfl⟩ := beginStep_eq_ok_iff.mp begun
  have limit : (create flags maxOps.toNat maxSigOps.toNat).maxStackItems = Nexa.maxStackItems := by
    simp [create, enforced]
  rw [forall_mem_append, forall_mem_singleton]
  exact @Executes.items_le _ _ _ _ 0 _ run first limit.le fits

/-- A call for which nothing waits. -/
theorem items_within_limit_nested : ∃ moments final,
    Evaluates .bare (crowdedScript 0 4) (setUp blockFlags 10 0 Nexa.maxScriptSize [] []) moments final ∧
      (∃ moment ∈ moments, moment.machine.launch.isSome) ∧ (∀ moment ∈ moments, moment.launchFits) ∧
      ∀ moment ∈ moments ++ [⟨final, []⟩], moment.items ≤ Nexa.maxStackItems := by
  obtain ⟨moments, final, evaluated, -, launched, launches⟩ :=
    @exists_evaluates_crowdedScript 0 4 (by decide) (by decide) (by decide)
  have fits : ∀ moment ∈ moments, moment.launchFits := fun moment member caller child launched => by
    obtain ⟨nothing, limit⟩ := launches moment member caller child launched
    rw [nothing, limit, Nat.zero_add]
  exact ⟨moments, final, evaluated, launched, fits,
    items_within_limit_of_launches (by decide) evaluated (Nat.zero_le _) fits⟩

/-- Whatever number of items waits, other than none, there is code with which a child exceeds the limit. -/
theorem exists_items_above_limit {waiting : ℕ} (some : 0 < waiting) (room : waiting + 3 ≤ Nexa.maxStackItems) :
    ∃ moments final,
      Evaluates .bare (crowdedScript waiting (Nexa.maxStackItems + 1 - waiting))
        (setUp blockFlags 10 0 Nexa.maxScriptSize [] []) moments final ∧
      (∀ moment ∈ moments, ∀ caller child, moment.machine.launch = Option.some (caller, child) →
        moment.waitingItems caller = waiting) ∧
      ∃ moment ∈ moments, Nexa.maxStackItems < moment.items := by
  have limit : Nexa.maxStackItems = 8192 := rfl
  have size : Nexa.maxScriptSize = 10000 := rfl
  obtain ⟨moments, final, evaluated, ⟨moment, member, items⟩, -, launches⟩ :=
    @exists_evaluates_crowdedScript waiting (Nexa.maxStackItems + 1 - waiting) room (by omega) (by omega)
  exact ⟨moments, final, evaluated, fun moment member caller child launched =>
    (launches moment member caller child launched).1, moment, member, by omega⟩

/-- 8189 items of the caller and four of the nested evaluation exceed the limit together. -/
theorem items_above_limit : ∃ moments final,
    Evaluates .bare (crowdedScript 8189 4) (setUp blockFlags 10 0 Nexa.maxScriptSize [] []) moments final ∧
      ∃ moment ∈ moments, Nexa.maxStackItems < moment.items := by
  obtain ⟨moments, final, evaluated, -, above⟩ := @exists_items_above_limit 8189 (by decide) (by decide)
  exact ⟨moments, final, evaluated, above⟩

end Nexa
