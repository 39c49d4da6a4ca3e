import Nexa.Proofs.NumberConversions

/-! # Opcodes and the kinds of their items

`OP_PICK` and `OP_ROLL` with a negative number read the top as a byte array, unlike with a positive one.
-/

namespace Nexa

open ScriptMachine StackItem EStateM CScriptNum List

variable {machine : ScriptMachine} {index : Bytes} {n : ℕ} {item : StackItem}

theorem takeNumber_bind {k : ℤ} (program : ℤ → ScriptM Unit)
    (read : ofVch index (machine.flags.has .VERIFY_MINIMALDATA) maximumElementSize = .ok k) :
    (do
      let n ← scriptNumAt 1 maximumElementSize
      popStack
      program n) (machine.withArguments [.vch index]) = program k machine := by
  have found : scriptNumAt 1 maximumElementSize (machine.withArguments [.vch index]) = .ok k _ :=
    scriptNumAt_eq_ok_iff.mpr ⟨⟨index, rfl, read⟩, rfl⟩
  rw [bind_eq_of_ok found, bind_eq_of_ok popStack_withArguments]
  rfl

theorem opRoll_nonneg (read : ofVch index (machine.flags.has .VERIFY_MINIMALDATA) maximumElementSize = .ok (n : ℤ))
    (found : machine.stack[n]? = some item) :
    opPickRoll true (machine.withArguments [.vch index]) =
      .ok () { machine with stack := item :: machine.stack.eraseIdx n } := by
  obtain ⟨deep, -⟩ := List.getElem?_eq_some_iff.mp found
  have rolled : rollUp n machine.stack = item :: machine.stack.eraseIdx n := by simp [rollUp, found]
  simp only [opPickRoll]
  rw [requireItems_bind (by simp [withArguments]; omega), takeNumber_bind _ read, get_bind_apply,
    if_pos (Int.natCast_nonneg n), abortIf_bind (by omega),
    stackItemAt_bind found, ← rolled]
  rfl

theorem opPickRoll_negative (fork1 : machine.flags.has .FORK1_OPCODES = true)
    (read : ofVch index (machine.flags.has .VERIFY_MINIMALDATA) maximumElementSize = .ok (-(n + 1)))
    (deep : n < machine.stack.length) (roll : Bool) :
    opPickRoll roll (machine.withArguments [.vch index]) = (do
        let si ← stacktop 1
        if roll then modifyStack (rollDown (n + 1)) else insertStackItem (n + 1) (.vch si)) machine := by
  have size : (-(n + 1 : ℤ)).natAbs = n + 1 := by omega
  simp only [opPickRoll]
  rw [requireItems_bind (by simp [withArguments]; omega), takeNumber_bind _ read, get_bind_apply,
    if_neg (by omega), bind_eq_of_ok (hasFlag_apply _), abortIf_bind (by rw [fork1]; decide), size,
    abortIf_bind (by omega)]

/-- A roll is taken back, and the top is copied below, exactly where the items that move are byte arrays with room for
the copy. -/
theorem opPickRoll_negative_iff {up down : Bytes} {top : StackItem} (fork1 : machine.flags.has .FORK1_OPCODES = true)
    (readUp : ofVch up (machine.flags.has .VERIFY_MINIMALDATA) maximumElementSize = .ok (n : ℤ))
    (readDown : ofVch down (machine.flags.has .VERIFY_MINIMALDATA) maximumElementSize = .ok (-(n + 1)))
    (found : machine.stack[n]? = some item) (first : machine.stack[0]? = some top) :
    ((∃ rolled, opPickRoll true (machine.withArguments [.vch up]) = .ok () rolled ∧
        opPickRoll true (rolled.withArguments [.vch down]) = .ok () machine) ∧
      opPickRoll false (machine.withArguments [.vch down]) = .ok () { machine.resized top.size with
        stack := machine.stack.take (n + 1) ++ top :: machine.stack.drop (n + 1) }) ↔
    item.isVch = true ∧ top.isVch = true ∧
      machine.stackUse + top.size < 2 ^ 31 ∧ machine.stackUse + top.size ≤ machine.maxStackUse := by
  obtain ⟨deep, same⟩ := List.getElem?_eq_some_iff.mp found
  have rolledDeep : n < (item :: machine.stack.eraseIdx n).length := by
    rw [length_cons, length_eraseIdx_of_lt deep]
    omega
  have back := @opPickRoll_negative { machine with stack := item :: machine.stack.eraseIdx n } down n fork1 readDown
    rolledDeep true
  rw [opRoll_nonneg readUp found, opPickRoll_negative fork1 readDown deep]
  refine and_congr ?_ ?_
  · simp only [Result.ok.injEq, true_and, exists_eq_left', back]
    cases item with
    | bigNum k => simp [isVch, bind_eq_ok_iff]
    | vch data =>
      have restored : rollDown (n + 1) (.vch data :: machine.stack.eraseIdx n) = machine.stack := by
        have length := length_take_of_le deep.le
        rw [rollDown, Nat.add_sub_cancel, eraseIdx_eq_take_drop_succ, take_left' length, drop_left' length, ← same,
          getElem_cons_drop, take_append_drop]
      simp only [isVch, iff_true]
      exact congrArg (fun stack => Result.ok () { machine with stack }) restored
  · cases top with
    | bigNum k => simp [isVch, bind_eq_ok_iff, first]
    | vch data =>
      rw [bind_eq_of_ok (stacktop_eq_ok_iff.mpr ⟨first, rfl⟩)]
      exact insertStackItem_eq_ok_iff.trans (by simp [isVch])

theorem opPickRoll_negative_iff_below :
    opPickRoll false ((fork1Machine.withArguments [.vch [7], .vch [8]]).withArguments [.vch [0x82]]) =
      .ok () { (fork1Machine.withArguments [.vch [7], .vch [8]]).resized 1 with
        stack := [.vch [7], .vch [8], .vch [7]] } :=
  ((@opPickRoll_negative_iff _ 1 _ [1] [0x82] (.vch [7]) rfl rfl rfl rfl rfl).mpr (by decide)).2

/-- A `BigNum` is rolled up but not down again, and is not copied below. -/
theorem opRoll_bigNum : opPickRoll true (fork1Machine.withArguments [.vch [1], .vch [8], .bigNum 5]) =
        .ok () (fork1Machine.withArguments [.bigNum 5, .vch [8]]) ∧
      (∃ stopped, opPickRoll true (fork1Machine.withArguments [.vch [0x82], .bigNum 5, .vch [8]]) =
        .error (.error .badOpOnType) stopped) ∧
      ∃ stopped, opPickRoll false (fork1Machine.withArguments [.vch [0x82], .bigNum 5, .vch [8]]) =
        .error (.error .badOpOnType) stopped :=
  ⟨rfl, ⟨_, rfl⟩, _, rfl⟩

end Nexa
