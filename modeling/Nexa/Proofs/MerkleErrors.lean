import Nexa.Proofs.MerkleRoot

/-! # What OP_MERKLEROOT accepts as a proof

A byte that is no command is passed over, and a sibling hash that ends early is completed with what
lies in memory behind the proof. An accepted proof is therefore a sequence of complete commands, with
balanced pushes and pops and every element used, only after this repair.
-/

namespace Nexa

open Option List

variable (commands : List ProofCommand)

def pushes : ℕ := commands.count (.plain .push)

def pops : ℕ := commands.count (.plain .pop)

/-- Pushes and pops balance, and with each push the next of `count` elements is used. -/
def Balanced (count : ℕ) (commands : List ProofCommand) : Prop :=
  (∀ n, pops (commands.take n) ≤ pushes (commands.take n)) ∧ pops commands = pushes commands ∧
    pushes commands + 1 = count

/-- A sequence of commands, complete and balanced. -/
def WellFormed (hashSize count : ℕ) (proof : Bytes) : Prop :=
  ∃ commands : List ProofCommand, proof = commands.flatMap ProofCommand.bytes ∧
    (∀ command ∈ commands, command.Complete hashSize) ∧ Balanced count commands

/-- No undefined byte and no hash that ends early. -/
def Intact (hashSize : ℕ) (proof : Bytes) : Prop :=
  ∀ token ∈ tokens hashSize proof 0, ∃ command, token = .complete command

variable {hasher : Bytes → Option Bytes} {hashSize : ℕ} {elements : List Bytes}

theorem pushes_cons (command : ProofCommand) (commands : List ProofCommand) :
    pushes (command :: commands) = pushes [command] + pushes commands := by
  simp [pushes, count_cons, Nat.add_comm]

theorem pops_cons (command : ProofCommand) (commands : List ProofCommand) :
    pops (command :: commands) = pops [command] + pops commands := by
  simp [pops, count_cons, Nat.add_comm]

theorem ProofCommand.step_control {command : ProofCommand} (complete : command.Complete hashSize)
    {state next : MultiproofState} (step : command.step hasher elements state = some next) :
    next.elementPos = state.elementPos + pushes [command] ∧
      next.evalStack.length + pops [command] = state.evalStack.length + pushes [command] := by
  cases command with
  | plain climb =>
    obtain ⟨position, height, -⟩ := climbStep_control hasher step
    cases climb <;> exact ⟨position, height⟩
  | sibling climb hash =>
    obtain ⟨position, height, -⟩ := climbStep_control hasher step
    cases climb <;> first | exact ⟨position, height⟩ | cases complete.1

/-- The position counts the pushes, and the stack holds those that are not popped yet. -/
theorem evalCommands_control {commands : List ProofCommand} (complete : ∀ command ∈ commands, command.Complete hashSize)
    {state final : MultiproofState} (evaluated : evalCommands hasher elements commands state = some final) :
    final.elementPos = state.elementPos + pushes commands ∧
      final.evalStack.length + pops commands = state.evalStack.length + pushes commands ∧
      ∀ n, pops (commands.take n) ≤ state.evalStack.length + pushes (commands.take n) := by
  induction commands generalizing state with
  | nil =>
    cases evaluated
    simp [pushes, pops]
  | cons command commands ih =>
    rw [forall_mem_cons] at complete
    obtain ⟨next, step, evaluated⟩ := bind_eq_some_iff.mp evaluated
    obtain ⟨position, height⟩ := command.step_control complete.1 step
    obtain ⟨positions, heights, prefixes⟩ := ih complete.2 evaluated
    rw [pushes_cons, pops_cons]
    refine ⟨by omega, by omega, fun n => ?_⟩
    cases n with
    | zero => simp [pops]
    | succ n =>
      have taken := prefixes n
      rw [take_succ_cons, pushes_cons, pops_cons]
      omega

section Total

variable (total : ∀ message, ∃ hash ≠ [], hasher message = some hash)
include total

/-- A step fails only where there is nothing to push or to pop. -/
theorem ProofCommand.exists_step {command : ProofCommand} (complete : command.Complete hashSize)
    {state : MultiproofState} (room : state.elementPos + pushes [command] < elements.length)
    (filled : pops [command] ≤ state.evalStack.length) :
    ∃ next, command.step hasher elements state = some next ∧ (command ≠ .plain .push → next.cur ≠ []) := by
  have nodes (a b : Bytes) : ∃ node ≠ [], hashNodes hasher a b = some node := by
    unfold hashNodes
    split
    · exact ⟨emptyNode, by decide, rfl⟩
    · exact total _
  have hashed {cur : Option Bytes} (found : ∃ node ≠ [], cur = some node) (state : MultiproofState) (bit : ℕ)
      (mask : UInt8) : ∃ next, cur.map (fun cur => state.climb cur bit mask) = some next ∧
        (command ≠ .plain .push → next.cur ≠ []) := by
    obtain ⟨node, present, rfl⟩ := found
    exact ⟨_, rfl, fun _ => present⟩
  cases command with
  | sibling climb hash =>
    cases climb with
    | leftSibling | rightSibling => exact hashed (total _) _ _ _
    | _ => cases complete.1
  | plain climb =>
    cases climb with
    | leftSibling | rightSibling => cases complete
    | leftIsEmpty | rightIsEmpty => exact hashed (nodes _ _) _ _ _
    | pop =>
      cases stack : state.evalStack with
      | nil => simp [stack, pops] at filled
      | cons top rest =>
        simp only [step, climbStep, stack]
        exact hashed (nodes _ _) _ _ _
    | push =>
      have inside : state.elementPos + 1 < elements.length := room
      exact ⟨_, by rw [step, climbStep, getElem?_eq_getElem inside, map_some], fun other => absurd rfl other⟩

/-- Commands that neither push nor pop too much are evaluated, to something empty only if nothing has been hashed
since the last push. -/
theorem exists_evalCommands {commands : List ProofCommand} (complete : ∀ command ∈ commands, command.Complete hashSize)
    {state : MultiproofState} (room : state.elementPos + pushes commands < elements.length)
    (prefixes : ∀ n, pops (commands.take n) ≤ state.evalStack.length + pushes (commands.take n)) :
    ∃ final, evalCommands hasher elements commands state = some final ∧
      (final.cur = [] → state.cur = [] ∧ commands = [] ∨ commands.getLast? = some (.plain .push)) := by
  induction commands generalizing state with
  | nil => exact ⟨state, rfl, fun empty => .inl ⟨empty, rfl⟩⟩
  | cons command commands ih =>
    rw [forall_mem_cons] at complete
    rw [pushes_cons] at room
    have first := prefixes 1
    rw [take_succ_cons, take_zero] at first
    have alone : pops [command] = 0 ∨ pushes [command] = 0 := by
      by_cases push : command = .plain .push
      · exact .inl (by rw [push]; rfl)
      · exact .inr (by simp [pushes, push])
    have used : pops [command] ≤ 1 := by
      rw [pops]
      exact count_le_length
    have inside : state.elementPos + pushes [command] < elements.length := by omega
    have filled : pops [command] ≤ state.evalStack.length := by omega
    obtain ⟨next, step, hashed⟩ := command.exists_step total complete.1 inside filled
    obtain ⟨position, height⟩ := command.step_control complete.1 step
    obtain ⟨final, evaluated, empty⟩ := @ih complete.2 next (by omega) fun n => by
      have more := prefixes (n + 1)
      rw [take_succ_cons, pushes_cons, pops_cons] at more
      omega
    refine ⟨final, bind_eq_some_iff.mpr ⟨next, step, evaluated⟩, fun none => .inr ?_⟩
    obtain ⟨nextEmpty, rfl⟩ | last := empty none
    · rw [getLast?_singleton]
      by_contra other
      exact hashed (fun push => other (congrArg some push)) nextEmpty
    · rw [getLast?_cons, last]
      rfl

end Total

variable {skip : ℕ} {proof : Bytes}

/-- The complete tokens are all there is of an intact proof. -/
theorem bytes_repaired_of_complete (beyond : ℕ → UInt8)
    (complete : ∀ token ∈ tokens hashSize proof skip, ∃ command, token = .complete command) :
    (repaired hashSize beyond proof skip).flatMap ProofCommand.bytes = proof.drop skip := by
  unfold repaired
  fun_induction tokens hashSize proof skip with
  | case1 skip => rw [drop_nil]; rfl
  | case2 byte rest skip ih => exact ih complete
  | case3 | case6 =>
    obtain ⟨command, ⟨⟩⟩ := complete _ (mem_cons_self ..)
  | case4 byte rest climb found plain ih =>
    have others := ih (forall_mem_cons.mp complete).2
    simp only [filterMap_cons, ProofToken.repair, flatMap_cons, others, ProofCommand.bytes, Climb.code_of_ofCode found]
    rfl
  | case5 byte rest climb found hash enough ih =>
    have others := ih (forall_mem_cons.mp complete).2
    simp only [filterMap_cons, ProofToken.repair, flatMap_cons, others, ProofCommand.bytes, Climb.code_of_ofCode found]
    rw [cons_append, take_append_drop, drop_zero]

theorem WellFormed.intact {count : ℕ} (wellFormed : WellFormed hashSize count proof) : Intact hashSize proof := by
  obtain ⟨commands, rfl, complete, -⟩ := wellFormed
  intro token member
  rw [← append_nil (commands.flatMap _), tokens_bytes complete, tokens, append_nil] at member
  obtain ⟨command, -, rfl⟩ := mem_map.mp member
  exact ⟨command, rfl⟩

theorem computeMultiproofRoot_of_balanced (beyond : ℕ → UInt8)
    (total : ∀ message, ∃ hash ≠ [], hasher message = some hash) (nonempty : elements ≠ [[]])
    (balanced : Balanced elements.length (repaired hashSize beyond proof 0)) : ∃ final : MultiproofState,
      computeMultiproofRoot hasher hashSize beyond elements proof = some (final.cur, final.infos) ∧ final.cur ≠ [] := by
  obtain ⟨prefixes, closed, used⟩ := balanced
  cases elements with
  | nil => cases used
  | cons first others =>
    rw [length_cons, Nat.add_right_cancel_iff] at used
    have complete : ∀ command ∈ repaired hashSize beyond proof 0, command.Complete hashSize :=
      fun _ => complete_of_mem_repaired hashSize beyond
    obtain ⟨final, evaluated, empty⟩ := @exists_evalCommands _ _ (first :: others) total _ complete
      (.start first (first :: others)) (by simp [MultiproofState.start, used])
      fun n => (prefixes n).trans (Nat.le_add_left _ _)
    obtain ⟨position, height, -⟩ := evalCommands_control complete evaluated
    rw [← multiproofLoop_eq_repaired proof 0 (Nat.succ_pos _)] at evaluated
    simp only [MultiproofState.start, length_nil, Nat.zero_add] at position height
    refine ⟨final, ?_, fun none => ?_⟩
    · rw [computeMultiproofRoot, evaluated, bind_eq_bind, bind_some,
        if_neg (not_not.mpr (eq_nil_of_length_eq_zero (by omega))), if_neg (by simp [position, used])]
    · obtain ⟨firstEmpty, noCommands⟩ | last := empty none
      · rw [noCommands] at used
        have single : others = [] := eq_nil_of_length_eq_zero used.symm
        exact nonempty (by rw [single, show first = [] from firstEmpty])
      · -- a push at the end is not popped
        obtain ⟨before, shape⟩ := getLast?_eq_some_iff.mp last
        have early := prefixes before.length
        rw [shape, take_left] at early
        rw [shape] at closed
        simp [pops, pushes] at early closed
        omega

theorem sha256_ne_nil (message : Bytes) : Sha256.hash message ≠ [] :=
  ne_nil_of_length_pos (by rw [Sha256.length_hash]; decide)

theorem exists_mpHash {ripemd160 : Ripemd160} {alg : ℕ} (defined : alg < 4) (message : Bytes) :
    ∃ hash ≠ [], mpHash ripemd160 alg message = some hash := by
  have present (message : Bytes) : ripemd160.hash message ≠ [] :=
    ne_nil_of_length_pos (by rw [ripemd160.length_hash]; decide)
  obtain rfl | rfl | rfl | rfl : alg = 0 ∨ alg = 1 ∨ alg = 2 ∨ alg = 3 := by omega
  · exact ⟨_, sha256_ne_nil _, rfl⟩
  · exact ⟨_, present _, rfl⟩
  · exact ⟨_, present _, rfl⟩
  · exact ⟨_, sha256_ne_nil _, rfl⟩

namespace MerkleRootCall

variable {ripemd160 : Ripemd160} (beyond : ℕ → UInt8) (call : MerkleRootCall ripemd160) (proof : Bytes)

def Accepts : Prop := ∃ results, opMerkleRoot ripemd160 beyond (call.stack proof) = .ok results

theorem compute_of_accepts (accepts : call.Accepts beyond proof) :
    ∃ root infos, call.compute beyond proof = some (root, infos) := by
  obtain ⟨results, accepted⟩ := accepts
  rw [opMerkleRoot_stack] at accepted
  cases computed : call.compute beyond proof with
  | none =>
    rw [computed] at accepted
    cases accepted
  | some found => exact ⟨found.1, found.2, rfl⟩

theorem balanced_of_accepts (accepts : call.Accepts beyond proof) :
    Balanced call.elements.length (repaired (algSize (nodeAlg call.opt)) beyond proof 0) := by
  obtain ⟨root, infos, computed⟩ := call.compute_of_accepts beyond proof accepts
  unfold compute at computed
  generalize call.elements = elements at computed ⊢
  cases elements with
  | nil => cases computed
  | cons first others =>
    obtain ⟨final, looped, computed⟩ := bind_eq_some_iff.mp computed
    split_ifs at computed with stack last
    rw [multiproofLoop_eq_repaired proof 0 (Nat.succ_pos _)] at looped
    obtain ⟨position, height, prefixes⟩ := evalCommands_control (fun _ => complete_of_mem_repaired _ beyond) looped
    rw [not_not.mp stack] at height
    rw [position, not_not] at last
    simp only [MultiproofState.start, length_nil, Nat.zero_add] at height prefixes last
    exact ⟨prefixes, height, by simp [last]⟩

/-- With a defined algorithm, what is balanced after the repair is accepted, unless it is about one empty element. -/
theorem accepts_of_balanced (defined : nodeAlg call.opt < 4) (nonempty : call.elements ≠ [[]])
    (balanced : Balanced call.elements.length (repaired (algSize (nodeAlg call.opt)) beyond proof 0)) :
    call.Accepts beyond proof := by
  obtain ⟨final, computed, present⟩ :=
    computeMultiproofRoot_of_balanced beyond (exists_mpHash defined) nonempty balanced
  rw [Accepts, opMerkleRoot_stack, compute, computed]
  exact ⟨_, if_neg present⟩

/-- A proof that is not a complete and balanced sequence of commands is rejected if it is intact, or if the commands
that are made of it do not balance; if the algorithm is defined, no other one is. -/
theorem accepts_imp_wellFormed_iff : (Intact (algSize (nodeAlg call.opt)) proof ∨
        ¬Balanced call.elements.length (repaired (algSize (nodeAlg call.opt)) beyond proof 0) →
      call.Accepts beyond proof → WellFormed (algSize (nodeAlg call.opt)) call.elements.length proof) ∧
    (nodeAlg call.opt < 4 → call.elements ≠ [[]] →
      (call.Accepts beyond proof → WellFormed (algSize (nodeAlg call.opt)) call.elements.length proof) →
      Intact (algSize (nodeAlg call.opt)) proof ∨
        ¬Balanced call.elements.length (repaired (algSize (nodeAlg call.opt)) beyond proof 0)) := by
  constructor
  · rintro (intact | unbalanced) accepts
    · refine ⟨repaired _ beyond proof 0, ?_, fun _ => complete_of_mem_repaired _ beyond,
        call.balanced_of_accepts beyond proof accepts⟩
      rw [bytes_repaired_of_complete beyond intact, drop_zero]
    · exact absurd (call.balanced_of_accepts beyond proof accepts) unbalanced
  · intro defined nonempty wellFormed
    by_cases balanced : Balanced call.elements.length (repaired (algSize (nodeAlg call.opt)) beyond proof 0)
    · exact .inl (wellFormed (call.accepts_of_balanced beyond proof defined nonempty balanced)).intact
    · exact .inr balanced

/-- A call with the hash of one element. -/
def single : MerkleRootCall .unused where
  optionItem := .vch [0x03, 0x03]
  countItem := .vch [0x01]
  items := [.vch (replicate 32 1)]
  remaining := []
  opt := 0x303
  elements := [replicate 32 1]
  option_eq := rfl
  count_eq := rfl
  usedOnly := rfl
  many := by decide
  few := by decide
  sameSize := rfl
  loads := rfl

/-- The undefined byte 6 is passed over, and a sibling of which no byte is there is read from behind the proof. -/
theorem accepts_malformed :
    (opMerkleRoot .unused cleared (single.stack [6]) = .ok [.vch (List.replicate 32 1)] ∧ ¬WellFormed 32 1 [6]) ∧
      opMerkleRoot .unused cleared (single.stack [multiproofRightSibling]) =
        .ok [.vch (Sha256.hash (Sha256.hash (List.replicate 32 1 ++ (List.range 32).map cleared)))] ∧
      ¬WellFormed 32 1 [multiproofRightSibling] := by
  have undefined : ProofToken.undefined 6 ∈ tokens 32 [6] 0 := by decide
  have truncated : ProofToken.truncated .rightSibling [] ∈ tokens 32 [multiproofRightSibling] 0 := by decide
  refine ⟨⟨?_, fun wellFormed => ?_⟩, ?_, fun wellFormed => ?_⟩
  · rfl
  · obtain ⟨command, ⟨⟩⟩ := wellFormed.intact _ undefined
  · simp only [opMerkleRoot_stack]
    exact if_neg (sha256_ne_nil _)
  · obtain ⟨command, ⟨⟩⟩ := wellFormed.intact _ truncated

end MerkleRootCall

end Nexa
