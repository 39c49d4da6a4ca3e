import Nexa.Proofs.MerkleClimbs

/-! # The commands of a multiproof

The bytes of a proof are read as commands. A byte that is no command is passed over, and a sibling hash
that ends early is completed with what lies in memory behind the proof. After this repair the evaluation
is a fold over the commands.
-/

namespace Nexa

open Option List

/-- A command of a proof with the hash that follows it. -/
inductive ProofCommand where
  | sibling (climb : Climb) (hash : Bytes)
  | plain (climb : Climb)
deriving DecidableEq, Repr

/-- The byte of the command. -/
def Climb.code : Climb → UInt8
  | leftSibling => multiproofLeftSibling
  | rightSibling => multiproofRightSibling
  | leftIsEmpty => multiproofLeftIsEmpty
  | rightIsEmpty => multiproofRightIsEmpty
  | pop => multiproofPop
  | push => multiproofPush

def ProofCommand.bytes : ProofCommand → Bytes
  | sibling climb hash => climb.code :: hash
  | plain climb => [climb.code]

namespace Climb

def ofCode (byte : UInt8) : Option Climb :=
  [leftSibling, rightSibling, leftIsEmpty, rightIsEmpty, pop, push].find? (·.code = byte)

/-- A hash follows the command. -/
def hasHash : Climb → Bool
  | leftSibling | rightSibling => true
  | _ => false

theorem ofCode_code (climb : Climb) : ofCode climb.code = some climb := by
  cases climb <;> rfl

theorem code_of_ofCode {byte : UInt8} {climb : Climb} (found : ofCode byte = some climb) : climb.code = byte := by
  simpa using find?_some found

end Climb

/-- What the cursor meets in a proof: a command with all that belongs to it, a command whose hash ends
early, or another byte. -/
inductive ProofToken where
  | complete (command : ProofCommand)
  | truncated (climb : Climb) (bytes : Bytes)
  | undefined (byte : UInt8)
deriving DecidableEq, Repr

/-- The tokens from the cursor on, after `skip` bytes of the last one. -/
def tokens (hashSize : ℕ) : Bytes → ℕ → List ProofToken
  | [], _ => []
  | _ :: rest, skip + 1 => tokens hashSize rest skip
  | byte :: rest, 0 =>
    match Climb.ofCode byte with
    | none => .undefined byte :: tokens hashSize rest 0
    | some climb =>
      if climb.hasHash = false then .complete (.plain climb) :: tokens hashSize rest 0
      else if hashSize ≤ rest.length then
        .complete (.sibling climb (rest.take hashSize)) :: tokens hashSize rest hashSize
      else .truncated climb rest :: tokens hashSize rest hashSize

/-- The command with all that belongs to it. -/
def ProofCommand.Complete (hashSize : ℕ) : ProofCommand → Prop
  | sibling climb hash => climb.hasHash = true ∧ hash.length = hashSize
  | plain climb => climb.hasHash = false

section

variable (hashSize : ℕ) (beyond : ℕ → UInt8)

/-- The command that the evaluation makes of a token. -/
def ProofToken.repair : ProofToken → Option ProofCommand
  | complete command => some command
  | truncated climb bytes => some (.sibling climb (siblingAt hashSize beyond bytes))
  | undefined _ => none

/-- The commands of a proof as the evaluation reads it. -/
def repaired (proof : Bytes) (skip : ℕ) : List ProofCommand :=
  (tokens hashSize proof skip).filterMap (ProofToken.repair hashSize beyond)

theorem length_siblingAt (rest : Bytes) : (siblingAt hashSize beyond rest).length = hashSize := by
  simp [siblingAt]
  omega

theorem complete_of_mem_repaired {proof : Bytes} {skip : ℕ} {command : ProofCommand}
    (member : command ∈ repaired hashSize beyond proof skip) : command.Complete hashSize := by
  unfold repaired at member
  fun_induction tokens hashSize proof skip with
  | case1 skip => cases member
  | case2 byte rest skip ih | case3 byte rest undefined ih => exact ih member
  | case4 byte rest climb found plain ih =>
    obtain rfl | member := mem_cons.mp member
    · exact plain
    · exact ih member
  | case5 byte rest climb found hash enough ih =>
    obtain rfl | member := mem_cons.mp member
    · exact ⟨Bool.eq_true_of_not_eq_false hash, length_take_of_le enough⟩
    · exact ih member
  | case6 byte rest climb found hash short ih =>
    obtain rfl | member := mem_cons.mp member
    · exact ⟨Bool.eq_true_of_not_eq_false hash, length_siblingAt hashSize beyond rest⟩
    · exact ih member

end

section Step

variable (hasher : Bytes → Option Bytes) {hashSize : ℕ} (beyond : ℕ → UInt8) (elements : List Bytes)

/-- The step of a command with the given sibling. -/
def climbStep (climb : Climb) (sibling : Bytes) (state : MultiproofState) : Option MultiproofState := match climb with
  | .rightSibling => (hasher (state.cur ++ sibling)).map fun cur => state.climb cur 0 0xFD
  | .leftSibling => (hasher (sibling ++ state.cur)).map fun cur => state.climb cur 1 0xFE
  | .rightIsEmpty => (hashNodes hasher state.cur []).map fun cur => state.climb cur 0 0xFF
  | .leftIsEmpty => (hashNodes hasher [] state.cur).map fun cur => state.climb cur 1 0xFF
  | .pop =>
    match state.evalStack with
    | [] => none
    | top :: evalStack =>
      (hashNodes hasher top state.cur).map fun cur => { state with evalStack }.climb cur 1 0xFF
  | .push =>
    elements[state.elementPos + 1]?.map fun next =>
      { elementPos := state.elementPos + 1, cur := next, depth := 0, evalStack := state.cur :: state.evalStack
        infos := updateIndex state.infos state.elementPos state.depth 0 0xFF }

variable {elements} {state : MultiproofState}

variable {climb : Climb} {sibling : Bytes} {next : MultiproofState} {byte : UInt8}

/-- A push loads the next element and makes the stack higher, a pop makes it lower. -/
theorem climbStep_control (step : climbStep hasher elements climb sibling state = some next) :
    next.elementPos = state.elementPos + (if climb = .push then 1 else 0) ∧
      next.evalStack.length + (if climb = .pop then 1 else 0) =
        state.evalStack.length + (if climb = .push then 1 else 0) ∧
      (climb = .push → next.elementPos < elements.length) := by
  cases climb with
  | leftSibling | rightSibling | leftIsEmpty | rightIsEmpty =>
    obtain ⟨cur, -, rfl⟩ := map_eq_some_iff.mp step
    simp [MultiproofState.climb]
  | pop =>
    unfold climbStep at step
    cases stack : state.evalStack with
    | nil => simp [stack] at step
    | cons top evalStack =>
      simp only [stack] at step
      obtain ⟨cur, -, rfl⟩ := map_eq_some_iff.mp step
      simp [MultiproofState.climb]
  | push =>
    obtain ⟨element, loaded, rfl⟩ := map_eq_some_iff.mp step
    have inside := (List.getElem?_eq_some_iff.mp loaded).1
    simp [inside]

variable (inRange : state.elementPos < elements.length)
include inRange

theorem multiproofStep_code (climb : Climb) (rest : Bytes) :
    multiproofStep hasher hashSize beyond elements climb.code rest state =
      (climbStep hasher elements climb (siblingAt hashSize beyond rest) state).map
        (·, if climb.hasHash then hashSize else 0) := by
  unfold multiproofStep climbStep
  rw [if_neg (Nat.not_le.mpr inRange)]
  cases climb with
  | leftSibling =>
    cases hasher (siblingAt hashSize beyond rest ++ state.cur) <;> rfl
  | rightSibling =>
    cases hasher (state.cur ++ siblingAt hashSize beyond rest) <;> rfl
  | leftIsEmpty =>
    cases hashNodes hasher [] state.cur <;> rfl
  | rightIsEmpty =>
    cases hashNodes hasher state.cur [] <;> rfl
  | pop =>
    rw [if_neg (by decide), if_neg (by decide), if_neg (by decide), if_neg (by decide), if_pos (by decide)]
    cases stack : state.evalStack with
    | nil => rfl
    | cons top evalStack => cases found : hashNodes hasher top state.cur <;> simp [found, Climb.hasHash]
  | push =>
    cases elements[state.elementPos + 1]? <;> rfl

theorem multiproofStep_undefined (undefined : Climb.ofCode byte = none) (rest : Bytes) :
    multiproofStep hasher hashSize beyond elements byte rest state = some (state, 0) := by
  have other (climb : Climb) : byte ≠ climb.code := by
    rintro rfl
    rw [Climb.ofCode_code] at undefined
    cases undefined
  unfold multiproofStep
  rw [if_neg (Nat.not_le.mpr inRange), if_neg (by exact other .rightSibling), if_neg (by exact other .leftSibling),
    if_neg (by exact other .rightIsEmpty), if_neg (by exact other .leftIsEmpty), if_neg (by exact other .pop),
    if_neg (by exact other .push)]

theorem climbStep_inRange (step : climbStep hasher elements climb sibling state = some next) :
    next.elementPos < elements.length := by
  obtain ⟨position, -, loaded⟩ := climbStep_control hasher step
  by_cases push : climb = .push
  · exact loaded push
  · rwa [position, if_neg push]

theorem multiproofLoop_code (climb : Climb) (rest : Bytes) :
    multiproofLoop hasher hashSize beyond elements (climb.code :: rest) 0 state =
      (climbStep hasher elements climb (if climb.hasHash then siblingAt hashSize beyond rest else []) state).bind
        (multiproofLoop hasher hashSize beyond elements rest (if climb.hasHash then hashSize else 0)) := by
  have ignored : climbStep hasher elements climb (siblingAt hashSize beyond rest) state =
      climbStep hasher elements climb (if climb.hasHash then siblingAt hashSize beyond rest else []) state := by
    cases climb <;> rfl
  rw [multiproofLoop, multiproofStep_code hasher beyond inRange, ignored]
  cases climbStep hasher elements climb _ state <;> rfl

end Step

variable (hasher : Bytes → Option Bytes) (elements : List Bytes)

/-- The step of a command with its hash. -/
def ProofCommand.step : ProofCommand → MultiproofState → Option MultiproofState
  | sibling climb hash => climbStep hasher elements climb hash
  | plain climb => climbStep hasher elements climb []

variable (commands : List ProofCommand)

def evalCommands (state : MultiproofState) : Option MultiproofState :=
  commands.foldlM (fun state command => command.step hasher elements state) state

section

variable {hasher : Bytes → Option Bytes} {hashSize : ℕ} {beyond : ℕ → UInt8} {elements : List Bytes}
  {state final : MultiproofState}

theorem evalCommands_cons (command : ProofCommand) (commands : List ProofCommand) (state : MultiproofState) :
    evalCommands hasher elements (command :: commands) state =
      (command.step hasher elements state).bind (evalCommands hasher elements commands) :=
  foldlM_cons ..

theorem evalCommands_append (commands others : List ProofCommand) (state : MultiproofState) :
    evalCommands hasher elements (commands ++ others) state =
      (evalCommands hasher elements commands state).bind (evalCommands hasher elements others) :=
  foldlM_append ..

theorem multiproofLoop_eq_repaired (proof : Bytes) (skip : ℕ) (inRange : state.elementPos < elements.length) :
    multiproofLoop hasher hashSize beyond elements proof skip state =
      evalCommands hasher elements (repaired hashSize beyond proof skip) state := by
  unfold repaired
  fun_induction tokens hashSize proof skip generalizing state with
  | case1 skip => cases skip <;> rfl
  | case2 byte rest skip ih => exact ih inRange
  | case3 byte rest undefined ih =>
    rw [multiproofLoop, multiproofStep_undefined hasher beyond inRange undefined]
    exact ih inRange
  | case4 byte rest climb found plain ih =>
    obtain rfl := Climb.code_of_ofCode found
    rw [multiproofLoop_code hasher beyond inRange, plain]
    exact bind_congr fun next step => ih (climbStep_inRange hasher inRange step)
  | case5 byte rest climb found hash enough ih =>
    obtain rfl := Climb.code_of_ofCode found
    have whole : siblingAt hashSize beyond rest = rest.take hashSize := by
      simp [siblingAt, Nat.sub_eq_zero_of_le enough]
    rw [multiproofLoop_code hasher beyond inRange, Bool.eq_true_of_not_eq_false hash, whole]
    exact bind_congr fun next step => ih (climbStep_inRange hasher inRange step)
  | case6 byte rest climb found hash short ih =>
    obtain rfl := Climb.code_of_ofCode found
    rw [multiproofLoop_code hasher beyond inRange, Bool.eq_true_of_not_eq_false hash]
    exact bind_congr fun next step => ih (climbStep_inRange hasher inRange step)

theorem tokens_skip {skipped : Bytes} {skip : ℕ} (length : skipped.length = skip) (rest : Bytes) :
    tokens hashSize (skipped ++ rest) skip = tokens hashSize rest 0 := by
  induction skipped generalizing skip with
  | nil =>
    subst length
    rfl
  | cons byte skipped ih =>
    subst length
    rw [cons_append, length_cons, tokens, ih rfl]

variable {commands : List ProofCommand} (complete : ∀ command ∈ commands, command.Complete hashSize)

include complete

theorem tokens_bytes (rest : Bytes) :
    tokens hashSize (commands.flatMap ProofCommand.bytes ++ rest) 0 =
      commands.map .complete ++ tokens hashSize rest 0 := by
  induction commands with
  | nil => rfl
  | cons command commands ih =>
    rw [forall_mem_cons] at complete
    rw [flatMap_cons, append_assoc, map_cons, cons_append, ← ih complete.2]
    cases command with
    | plain climb =>
      have plain : climb.hasHash = false := complete.1
      rw [ProofCommand.bytes, singleton_append, tokens, Climb.ofCode_code]
      simp [plain]
    | sibling climb hash =>
      obtain ⟨hasHash, size⟩ := complete.1
      have enough : hashSize ≤ (hash ++ (commands.flatMap ProofCommand.bytes ++ rest)).length := by
        rw [length_append]
        omega
      rw [ProofCommand.bytes, cons_append, tokens, Climb.ofCode_code]
      simp only [hasHash, Bool.true_eq_false, if_false, if_pos enough, take_left' size, tokens_skip size]

/-- The bytes of complete commands have the effect of the commands, whatever follows. -/
theorem multiproofLoop_bytes (inRange : state.elementPos < elements.length)
    (evaluated : evalCommands hasher elements commands state = some final)
    (stays : final.elementPos < elements.length) (rest : Bytes) :
    multiproofLoop hasher hashSize beyond elements (commands.flatMap ProofCommand.bytes ++ rest) 0 state =
      multiproofLoop hasher hashSize beyond elements rest 0 final := by
  have made : (commands.map ProofToken.complete).filterMap (ProofToken.repair hashSize beyond) = commands := by
    rw [filterMap_map]
    exact filterMap_some
  rw [multiproofLoop_eq_repaired _ _ inRange, multiproofLoop_eq_repaired _ _ stays, repaired, tokens_bytes complete,
    filterMap_append, made, evalCommands_append, evaluated]
  rfl

end

end Nexa
