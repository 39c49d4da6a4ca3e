import Nexa.Proofs.ScriptEffects
import Nexa.Proofs.ScriptNumbers

/-! # Numeric opcodes on either kind of number

The arguments of an opcode are integers, each of which is on the stack as a script number or as a `BigNum`.
What the opcode leaves is compared with the integer it should be.
-/

namespace Nexa

open ScriptMachine StackItem EStateM CScriptNum

/-! ## Arguments and results -/

/-- An item that stands for an integer: a script number that can be read, or a `BigNum`. -/
inductive StackItem.Holds (minimal : Bool) : StackItem → ℤ → Prop
  | scriptNum {data : Bytes} {n : ℤ} (read : ofVch data minimal maximumElementSize = .ok n) :
    Holds minimal (.vch data) n
  | bigNum (n : ℤ) : Holds minimal (.bigNum n) n

/-- The bytes of the magnitude. -/
def StackItem.width : StackItem → ℕ
  | .vch data => data.length
  | .bigNum n => magSize n

variable (machine : ScriptMachine)

/-- A machine with arguments on top of its stack. -/
def ScriptMachine.withArguments (arguments : List StackItem) : ScriptMachine := { machine with
    stack := arguments ++ machine.stack
    stackSize := machine.stackSize + itemBytes arguments }

/-- A machine after `PushStack`. -/
def ScriptMachine.pushed (item : StackItem) : ScriptMachine :=
  { machine.resized item.size with stack := item :: machine.stack }

theorem tmod_of_abs_lt {n bmd : ℤ} (below : |n| < bmd) : n.tmod bmd = n := by
  obtain ⟨low, high⟩ := abs_lt.mp below
  obtain positive | negative := le_total 0 n
  · exact Int.tmod_eq_of_lt positive high
  · rw [← neg_inj, ← Int.neg_tmod]
    exact Int.tmod_eq_of_lt (by omega) (by omega)

variable {minimal : Bool} {item : StackItem} {data : Bytes} {n bmd : ℤ}

theorem ofVch_eq_ok (read : ofVch data minimal maximumElementSize = .ok n) :
    data.length ≤ 8 ∧ StackItem.scriptNum data = n := by
  unfold ofVch at read
  split_ifs at read with long
  cases read
  exact ⟨not_lt.mp long, rfl⟩

theorem StackItem.Holds.eq_of_ofVch {other : Bool} {k : ℤ} (holds : item.Holds minimal n) (isData : item = .vch data)
    (read : ofVch data other maximumElementSize = .ok k) : k = n := by
  cases holds with
  | bigNum n => cases isData
  | scriptNum read' =>
    cases isData
    rw [← (ofVch_eq_ok read).2, ← (ofVch_eq_ok read').2]

theorem StackItem.Holds.natAbs_lt (holds : item.Holds minimal n) : n.natAbs < 256 ^ item.width := by
  cases holds with
  | scriptNum read =>
    obtain ⟨-, rfl⟩ := ofVch_eq_ok read
    exact natAbs_scriptNum_lt _
  | bigNum n => exact natAbs_lt_magSize n

theorem StackItem.Holds.asBigNum (holds : item.Holds minimal n) (below : item.isBigNum = true → |n| < bmd) :
    item.asBigNum bmd = n.tmod bmd := by
  cases holds with
  | scriptNum read =>
    obtain ⟨-, rfl⟩ := ofVch_eq_ok read
    rfl
  | bigNum n => exact (tmod_of_abs_lt (below rfl)).symm

section

variable {machine : ScriptMachine} {arguments : List StackItem} {result : StackItem}

theorem flags_withArguments : (machine.withArguments arguments).flags = machine.flags := rfl

theorem popStack_withArguments {item : StackItem} :
    popStack (machine.withArguments (item :: arguments)) = .ok () (machine.withArguments arguments) := by
  have noCrash : ¬(machine.withArguments (item :: arguments)).stackSize < item.size := by
    simp only [withArguments, itemBytes_cons]
    omega
  simp only [popStack, get_bind_apply, withArguments, List.cons_append, itemBytes_cons] at noCrash ⊢
  rw [crashIf, if_neg noCrash]
  have size : machine.stackSize + (item.size + itemBytes arguments) - item.size =
      machine.stackSize + itemBytes arguments := by omega
  rw [size]
  rfl

theorem popMany_withArguments : popMany arguments.length (machine.withArguments arguments) = .ok () machine := by
  induction arguments with
  | nil => rfl
  | cons item arguments ih => exact bind_eq_ok_iff.mpr ⟨(), _, popStack_withArguments, ih⟩

theorem replaceArguments_withArguments_iff {final : ScriptMachine} :
    replaceArguments arguments.length result (machine.withArguments arguments) = .ok () final ↔
      (machine.stackUse + result.size < 2 ^ 31 ∧ machine.stackUse + result.size ≤ machine.maxStackUse) ∧
        machine.pushed result = final := by
  rw [replaceArguments, bind_eq_of_ok popMany_withArguments]
  exact pushStack_eq_ok_iff

theorem replaceArguments_withArguments (room : machine.stackUse + result.size ≤ machine.maxStackUse)
    (limit : machine.maxStackUse ≤ maxScriptStackSize) :
    replaceArguments arguments.length result (machine.withArguments arguments) = .ok () (machine.pushed result) := by
  have small : maxScriptStackSize < 2 ^ 31 := by decide
  exact replaceArguments_withArguments_iff.mpr ⟨⟨by omega, room⟩, rfl⟩

theorem stackUse_withArguments :
    (machine.withArguments arguments).stackUse = machine.stackUse + itemBytes arguments := by
  simp only [ScriptMachine.stackUse, withArguments]
  omega

end

/-! ## OP_WITHIN -/

section

variable {machine : ScriptMachine} {x min max : StackItem} {a b c : ℤ}

/-- Some argument is a `BigNum`, so all of them are read as `BigNum`s. -/
def mixed (x min max : StackItem) : Bool := x.isBigNum || min.isBigNum || max.isBigNum

theorem StackItem.Holds.abs_lt {minimal : Bool} {item : StackItem} {n bmd : ℤ} {items : List StackItem}
    (holds : item.Holds minimal n) (below : ∀ n, .bigNum n ∈ items → |n| < bmd) (member : item ∈ items) :
    item.isBigNum = true → |n| < bmd := by
  cases holds with
  | scriptNum read => simp [isBigNum]
  | bigNum n => exact fun _ => below n member

/-- The answer of `OP_WITHIN` since fork 1. -/
def withinAnswer (promotes : Bool) (bmd a b c : ℤ) : Bool :=
  if promotes then a.tmod bmd ≤ b.tmod bmd ∧ a.tmod bmd < c.tmod bmd else a ≤ b ∧ a < c

theorem within_of_holds {bmd : ℤ} (isX : x.Holds false a) (isMin : min.Holds false b) (isMax : max.Holds false c)
    (below : ∀ n, .bigNum n ∈ [max, min, x] → |n| < bmd) :
    x.within min max bmd = .ok (withinAnswer (mixed x min max) bmd a b c) := by
  change (if mixed x min max = true then _ else _) = _
  unfold withinAnswer
  by_cases promotes : mixed x min max = true
  · rw [if_pos promotes, if_pos promotes, isX.asBigNum (isX.abs_lt below (by simp)),
      isMin.asBigNum (isMin.abs_lt below (by simp)), isMax.asBigNum (isMax.abs_lt below (by simp))]
  · rw [if_neg promotes, if_neg promotes]
    cases isX with
    | bigNum a => exact absurd rfl promotes
    | scriptNum readX =>
      cases isMin with
      | bigNum b => exact absurd rfl promotes
      | scriptNum readMin =>
        cases isMax with
        | bigNum c => exact absurd rfl promotes
        | scriptNum readMax => simp [StackItem.data, readX, readMin, readMax, bind, Except.bind]

theorem StackItem.Holds.eq_zero_of_size {minimal : Bool} {item : StackItem} {n : ℤ} (holds : item.Holds minimal n)
    (empty : item.size = 0) : n = 0 := by
  cases holds with
  | scriptNum read =>
    obtain ⟨-, rfl⟩ := ofVch_eq_ok read
    rw [List.length_eq_zero_iff.mp empty]
    rfl
  | bigNum n => cases empty

theorem size_withinAnswer_le {promotes : Bool} {bmd : ℤ} (isX : x.Holds false a) (isMax : max.Holds false c) :
    (StackItem.ofBool (withinAnswer promotes bmd a b c)).size ≤ itemBytes [max, min, x] := by
  cases answer : withinAnswer promotes bmd a b c with
  | false => exact Nat.zero_le _
  | true =>
    have filled : ¬(x.size = 0 ∧ max.size = 0) := by
      rintro ⟨emptyX, emptyMax⟩
      rw [isX.eq_zero_of_size emptyX, isMax.eq_zero_of_size emptyMax] at answer
      simp [withinAnswer] at answer
    have one : (StackItem.ofBool true).size = 1 := rfl
    simp only [itemBytes_cons]
    omega

theorem opWithin_before_fork {final : ScriptMachine} (fork1 : machine.flags.has .FORK1_OPCODES = false)
    (isX : x.Holds false a) (isMin : min.Holds false b) (isMax : max.Holds false c)
    (ran : opWithin (machine.withArguments [max, min, x]) = .ok () final) :
    final.stack = .ofBool (b ≤ a ∧ a < c) :: machine.stack := by
  have disabled : ¬(machine.withArguments [max, min, x]).flags.has .FORK1_OPCODES = true := by
    change ¬machine.flags.has .FORK1_OPCODES = true
    simp [fork1]
  simp only [opWithin] at ran
  rw [requireItems_bind (by simp [withArguments]), bind_eq_of_ok (hasFlag_apply _), if_neg disabled] at ran
  simp only [bind_eq_ok_iff, scriptNumAt_eq_ok_iff] at ran
  obtain ⟨_, _, ⟨⟨data1, there1, read1⟩, rfl⟩, _, _, ⟨⟨data2, there2, read2⟩, rfl⟩, _, _,
      ⟨⟨data3, there3, read3⟩, rfl⟩, _, _,
    ⟨⟩, ran⟩ := ran
  rw [isX.eq_of_ofVch (Option.some.inj there1) read1, isMin.eq_of_ofVch (Option.some.inj there2) read2,
    isMax.eq_of_ofVch (Option.some.inj there3) read3] at ran
  obtain ⟨_, popped, pops, pushes⟩ := bind_eq_ok_iff.mp ran
  rw [show 3 = [max, min, x].length from rfl, popMany_withArguments] at pops
  cases pops
  obtain ⟨-, rfl⟩ := pushStack_eq_ok_iff.mp pushes
  rfl

/-- The multiple of the modulo that the promotion of a script number takes off it. -/
def takenOff (bmd n : ℤ) : ℤ := bmd * n.tdiv bmd

section

variable (fork1 : machine.flags.has .FORK1_OPCODES = true)
  (limit : machine.maxStackUse ≤ maxScriptStackSize)
  (room : (machine.withArguments [max, min, x]).stackUse ≤ machine.maxStackUse)
  (isX : x.Holds false a) (isMin : min.Holds false b) (isMax : max.Holds false c)
  (below : ∀ n, .bigNum n ∈ [max, min, x] → |n| < machine.bigNumModulo)

include fork1 limit room isX isMin isMax below

theorem opWithin_of_holds : opWithin (machine.withArguments [max, min, x]) =
    .ok () (machine.pushed (.ofBool (withinAnswer (mixed x min max) machine.bigNumModulo a b c))) := by
  have size := @size_withinAnswer_le x min max a b c (mixed x min max) machine.bigNumModulo isX isMax
  rw [stackUse_withArguments] at room
  have enabled : (machine.withArguments [max, min, x]).flags.has .FORK1_OPCODES = true := fork1
  have within : x.within min max (machine.withArguments [max, min, x]).bigNumModulo = _ :=
    within_of_holds isX isMin isMax below
  rw [← @replaceArguments_withArguments machine [max, min, x] _ (le_trans (Nat.add_le_add_left size _) room) limit]
  simp only [opWithin]
  rw [requireItems_bind (by simp [withArguments]), bind_eq_of_ok (hasFlag_apply _), enabled, if_pos rfl,
    stackItemAt_bind rfl,
    stackItemAt_bind rfl,
    stackItemAt_bind rfl, get_bind_apply,
    liftExcept_bind within]
  rfl

/-- Since fork 1 the answer is that of the interval, and that of the evaluation before the fork, iff the number is
equal to the lower bound or not below the upper one. Where script numbers are reduced, a number of the interval is
found iff the modulo takes at least its distance from the lower bound more off it than off that bound, and less than its
distance to the upper bound more off that bound than off it. -/
theorem opWithin_interval_iff :
    (opWithin (machine.withArguments [max, min, x]) = .ok () (machine.pushed (.ofBool (b ≤ a ∧ a < c))) ∧
      ∀ flags final, ScriptFlags.has flags .FORK1_OPCODES = false →
        opWithin ({ machine with flags }.withArguments [max, min, x]) = .ok () final →
        final.stack = .ofBool (b ≤ a ∧ a < c) :: machine.stack) ↔
      if mixed x min max = true ∧ ¬(|a| < machine.bigNumModulo ∧ |b| < machine.bigNumModulo ∧
          |c| < machine.bigNumModulo) then
        if b ≤ a ∧ a < c then
          a - b ≤ takenOff machine.bigNumModulo a - takenOff machine.bigNumModulo b ∧
            takenOff machine.bigNumModulo c - takenOff machine.bigNumModulo a < c - a
        else takenOff machine.bigNumModulo a - takenOff machine.bigNumModulo b < a - b ∨
          c - a ≤ takenOff machine.bigNumModulo c - takenOff machine.bigNumModulo a
      else a = b ∨ c ≤ a := by
  have before : ∀ flags final, ScriptFlags.has flags .FORK1_OPCODES = false →
      opWithin ({ machine with flags }.withArguments [max, min, x]) = .ok () final →
      final.stack = .ofBool (b ≤ a ∧ a < c) :: machine.stack :=
    fun flags final disabled => @opWithin_before_fork { machine with flags } _ _ _ _ _ _ final disabled isX isMin isMax
  have apart {answer other : Bool} : (.ok () (machine.pushed (.ofBool answer)) : Result Halt ScriptMachine Unit) =
          .ok () (machine.pushed (.ofBool other)) ↔
        answer = other := by
    cases answer <;> cases other <;> simp [pushed, StackItem.ofBool]
  rw [and_iff_left before, opWithin_of_holds fork1 limit room isX isMin isMax below, apart]
  unfold withinAnswer
  cases mixed x min max with
  | false =>
    simp only [Bool.false_eq_true, false_and, if_false, decide_eq_decide]
    omega
  | true =>
    simp only [true_and, if_true, decide_eq_decide]
    split
    next =>
      have whole (n : ℤ) : n.tmod machine.bigNumModulo = n - takenOff machine.bigNumModulo n := by
        have := Int.tmod_add_mul_tdiv n machine.bigNumModulo
        rw [takenOff]
        omega
      rw [whole a, whole b, whole c]
      split <;> omega
    next small =>
      obtain ⟨smallA, smallB, smallC⟩ := not_not.mp small
      rw [tmod_of_abs_lt smallA, tmod_of_abs_lt smallB, tmod_of_abs_lt smallC]
      omega

end

/-- A machine with the rules of fork 1. -/
def fork1Machine : ScriptMachine := create (.ENFORCE_STACK_TOTAL ||| .FORK1_OPCODES) 10 0

theorem opWithin_interval_atBound : opWithin (fork1Machine.withArguments [.bigNum 3, .vch [1], .vch [1]]) =
    .ok () (fork1Machine.pushed (.ofBool true)) := by
  have interval := @opWithin_interval_iff fork1Machine (.vch [1]) (.vch [1]) (.bigNum 3) 1 1 3 (by decide) (by decide)
    (by decide) (.scriptNum rfl) (.scriptNum rfl) (.bigNum 3) (by simp; decide)
  exact (interval.mpr (by decide)).1

/-- 1 is not found between 0 and 2, where it was before the fork. -/
theorem opWithin_outside : opWithin (fork1Machine.withArguments [.ofInt 2, .ofInt 0, .ofInt 1]) =
        .ok () (fork1Machine.pushed (.ofBool false)) ∧
      opWithin ((create 0 10 0).withArguments [.ofInt 2, .ofInt 0, .ofInt 1]) =
        .ok () ((create 0 10 0).pushed (.ofBool true)) :=
  ⟨rfl, rfl⟩

end

/-! ## Operations on two numbers -/

variable {op : BinaryOp} {a b r : ℤ}

/-- The integer an operation stands for. -/
def exactResult (op : BinaryOp) (a b : ℤ) : Option ℤ := match op with
  | .add => some (a + b)
  | .sub => some (a - b)
  | .mul => some (a * b)
  | .div => if b = 0 then none else some (a.tdiv b)
  | .mod => if b = 0 then none else some (a.tmod b)
  | .boolAnd => some (boolInt (a ≠ 0 ∧ b ≠ 0))
  | .boolOr => some (boolInt (a ≠ 0 ∨ b ≠ 0))
  | .numEqual => some (boolInt (a = b))
  | .numEqualVerify => some (boolInt (a = b))
  | .numNotEqual => some (boolInt (a ≠ b))
  | .lessThan => some (boolInt (a < b))
  | .greaterThan => some (boolInt (b < a))
  | .lessThanOrEqual => some (boolInt (a ≤ b))
  | .greaterThanOrEqual => some (boolInt (b ≤ a))
  | .min => some (min a b)
  | .max => some (max a b)

/-- An integer, or the error of a division by zero. -/
def divided (result : Option ℤ) : Except ScriptError ℤ := result.elim (.error .divByZero) .ok

theorem scriptNumOp_eq (notMod : op ≠ .mod) (fits : ∀ r ∈ exactResult op a b, |r| < 2 ^ 63) :
    scriptNumOp op a b = divided (exactResult op a b) := by
  have fromInt : ∀ r, |r| < 2 ^ 63 → CScriptNum.fromInt r = .ok r := fun r small => if_pos (abs_lt.mp small)
  cases op with
  | mod => exact absurd rfl notMod
  | add | sub | mul => exact fromInt _ (fits _ rfl)
  | div =>
    by_cases zero : b = 0 <;> simp [scriptNumOp, exactResult, divided, zero]
  | min | max =>
    simp only [scriptNumOp]
    congr 1
    omega
  | _ => rfl

theorem bigNumScriptOp_eq (notMod : op ≠ .mod) (below : ∀ r ∈ exactResult op a b, |r| < bmd) :
    bigNumScriptOp op a b bmd = divided (exactResult op a b) := by
  have reduced : ∀ r, |r| < bmd → (Except.ok (r.tmod bmd) : Except ScriptError ℤ) = .ok r :=
    fun r small => congrArg _ (tmod_of_abs_lt small)
  cases op with
  | mod => exact absurd rfl notMod
  | div =>
    by_cases zero : b = 0
    · simp only [zero]
      rfl
    · simp only [exactResult, zero, if_false, Option.mem_def, Option.some.injEq, forall_eq'] at below
      simp only [bigNumScriptOp, exactResult, zero]
      exact reduced _ below
  | min =>
    have same : (if a < b then a else b) = min a b := by omega
    simp only [bigNumScriptOp, same]
    exact reduced _ (below _ rfl)
  | max =>
    have same : (if b < a then a else b) = max a b := by omega
    simp only [bigNumScriptOp, same]
    exact reduced _ (below _ rfl)
  | _ => exact reduced _ (below _ rfl)

theorem natAbs_boolInt_le (value : Bool) : (boolInt value).natAbs ≤ 1 := by
  cases value <;> decide

theorem natAbs_exactResult_lt {A B : ℕ} (smallA : a.natAbs < A) (smallB : b.natAbs < B) (room : 2 ≤ A * B)
    (exact : exactResult op a b = some r) : r.natAbs < A * B := by
  have sum : A + B ≤ A * B + 1 := by
    obtain ⟨A, rfl⟩ := Nat.exists_eq_succ_of_ne_zero (by omega : A ≠ 0)
    obtain ⟨B, rfl⟩ := Nat.exists_eq_succ_of_ne_zero (by omega : B ≠ 0)
    simp only [Nat.succ_eq_add_one, Nat.add_mul, Nat.mul_add]
    omega
  have one : ∀ value, (boolInt value).natAbs < A * B := fun value => (natAbs_boolInt_le value).trans_lt room
  cases op with
  | add | sub | min | max =>
    cases exact
    omega
  | mul =>
    cases exact
    rw [Int.natAbs_mul]
    exact Nat.mul_lt_mul'' smallA smallB
  | div =>
    simp only [exactResult] at exact
    split_ifs at exact
    cases exact
    rw [Int.natAbs_tdiv]
    have quotient : a.natAbs.div b.natAbs ≤ a.natAbs := Nat.div_le_self _ _
    omega
  | mod =>
    simp only [exactResult] at exact
    split_ifs at exact
    cases exact
    rw [Int.natAbs_tmod]
    have := Nat.mod_le a.natAbs b.natAbs
    omega
  | _ =>
    cases exact
    exact one _

theorem StackItem.size_eq_width (item : StackItem) : item.size = item.width + if item.isBigNum then 1 else 0 := by
  cases item <;> rfl

theorem StackItem.width_pos {item : StackItem} (isBig : item.isBigNum = true) : 0 < item.width := by
  cases item with
  | vch data => cases isBig
  | bigNum n => exact magSize_pos n

theorem magSize_exactResult_le {minimal : Bool} {x y : StackItem} (isX : x.Holds minimal a) (isY : y.Holds minimal b)
    (someBig : x.isBigNum = true ∨ y.isBigNum = true) (exact : exactResult op a b = some r) :
    magSize r + 1 ≤ itemBytes [y, x] := by
  have positive : 0 < x.width + y.width := by
    obtain big | big := someBig
    · exact Nat.add_pos_left (width_pos big) _
    · exact Nat.add_pos_right _ (width_pos big)
  have digits : r.natAbs < 256 ^ (x.width + y.width) := by
    rw [pow_add]
    refine natAbs_exactResult_lt isX.natAbs_lt isY.natAbs_lt ?_ exact
    rw [← pow_add]
    exact (by decide : 2 ≤ 256).trans (Nat.le_self_pow positive.ne' 256)
  have magnitude := magSize_le positive digits
  have sizes : x.width + y.width + 1 ≤ x.size + y.size := by
    rw [size_eq_width, size_eq_width]
    obtain big | big := someBig <;> simp only [big, if_true] <;> omega
  simp only [itemBytes_cons]
  omega

/-- The integer of an item. -/
def StackItem.integer : StackItem → ℤ
  | .vch data => scriptNum data
  | .bigNum n => n

/-- What an instruction leaves: an integer and the items below it, or the reason of its failure. -/
def numberLeft : Result Halt ScriptMachine Unit → Except Halt (Option ℤ × List StackItem)
  | .ok _ next => .ok (next.stack.head?.map integer, next.stack.tail)
  | .error halt _ => .error halt

/-- The integer on top of the items of a machine, or the failure of a division. -/
def expectedNumber : Option ℤ → Except Halt (Option ℤ × List StackItem)
  | some r => .ok (some r, machine.stack)
  | none => .error (.error .divByZero)

variable {machine : ScriptMachine} {x y : StackItem}

theorem numberLeft_opBinary {item : ℤ → StackItem} (notVerify : op ≠ .numEqualVerify)
    (limit : machine.maxStackUse ≤ maxScriptStackSize)
    (result : binaryResult op (machine.withArguments [y, x]) =
      (liftExcept (divided (exactResult op a b)) >>= fun r => pure (item r)) (machine.withArguments [y, x]))
    (room : ∀ r ∈ exactResult op a b, machine.stackUse + (item r).size ≤ machine.maxStackUse)
    (value : ∀ r ∈ exactResult op a b, (item r).integer = r) :
    numberLeft (opBinary op (machine.withArguments [y, x])) = expectedNumber machine (exactResult op a b) := by
  simp only [opBinary]
  rw [requireItems_bind (by simp [withArguments])]
  cases exact : exactResult op a b with
  | none =>
    rw [exact] at result
    rw [bind_eq_of_error result]
    rfl
  | some r =>
    rw [exact] at result
    have replaced : replaceArguments 2 (item r) (machine.withArguments [y, x]) = .ok () (machine.pushed (item r)) :=
      @replaceArguments_withArguments machine [y, x] (item r) (room r exact) limit
    rw [bind_eq_of_ok result, bind_eq_of_ok replaced, if_neg notVerify]
    simp [numberLeft, expectedNumber, pushed, value r exact]

theorem binaryResult_bigNum (notMod : op ≠ .mod) (upgrade2 : machine.flags.has .UPGRADE2_OPCODES = true)
    {minimal : Bool} (isX : x.Holds minimal a) (isY : y.Holds minimal b)
    (someBig : x.isBigNum = true ∨ y.isBigNum = true) (belowA : |a| < machine.bigNumModulo)
    (belowB : |b| < machine.bigNumModulo) (below : ∀ r ∈ exactResult op a b, |r| < machine.bigNumModulo) :
    binaryResult op (machine.withArguments [y, x]) =
      (liftExcept (divided (exactResult op a b)) >>= fun r => pure (.bigNum r)) (machine.withArguments [y, x]) := by
  have big : (y.isBigNum || x.isBigNum) = true := by
    rw [Bool.or_eq_true]
    exact someBig.symm
  have enabled : (machine.withArguments [y, x]).flags.has .UPGRADE2_OPCODES = true := upgrade2
  have modulo : (machine.withArguments [y, x]).bigNumModulo = machine.bigNumModulo := rfl
  simp only [binaryResult]
  rw [stackItemAt_bind rfl, stackItemAt_bind rfl, if_pos big,
    bind_eq_of_ok (hasFlag_apply _), get_bind_apply, enabled, if_pos rfl, modulo,
    isX.asBigNum (fun _ => belowA), isY.asBigNum (fun _ => belowB), tmod_of_abs_lt belowA, tmod_of_abs_lt belowB,
    bigNumScriptOp_eq notMod below]

theorem binaryResult_scriptNum {dataX dataY : Bytes} (notMod : op ≠ .mod)
    (readX : ofVch dataX (machine.flags.has .VERIFY_MINIMALDATA) maximumElementSize = .ok a)
    (readY : ofVch dataY (machine.flags.has .VERIFY_MINIMALDATA) maximumElementSize = .ok b)
    (fits : ∀ r ∈ exactResult op a b, |r| < 2 ^ 63) :
    binaryResult op (machine.withArguments [.vch dataY, .vch dataX]) =
      (liftExcept (divided (exactResult op a b)) >>= fun r => pure (.ofInt r))
        (machine.withArguments [.vch dataY, .vch dataX]) := by
  have first : scriptNumAt 2 maximumElementSize (machine.withArguments [.vch dataY, .vch dataX]) =
      .ok a (machine.withArguments [.vch dataY, .vch dataX]) := scriptNumAt_eq_ok_iff.mpr ⟨⟨dataX, rfl, readX⟩, rfl⟩
  have second : scriptNumAt 1 maximumElementSize (machine.withArguments [.vch dataY, .vch dataX]) =
      .ok b (machine.withArguments [.vch dataY, .vch dataX]) := scriptNumAt_eq_ok_iff.mpr ⟨⟨dataY, rfl, readY⟩, rfl⟩
  simp only [binaryResult]
  rw [stackItemAt_bind rfl, stackItemAt_bind rfl, if_neg (by simp [isBigNum]),
    bind_eq_of_ok first, bind_eq_of_ok second, scriptNumOp_eq notMod fits]

/-- With `BigNum` operands an operation leaves the same integer, or fails in the same way, as with script numbers. -/
theorem opBinary_bigNum_agrees {dataX dataY : Bytes} (notMod : op ≠ .mod) (notVerify : op ≠ .numEqualVerify)
    (upgrade2 : machine.flags.has .UPGRADE2_OPCODES = true) (limit : machine.maxStackUse ≤ maxScriptStackSize)
    (room : (machine.withArguments [y, x]).stackUse ≤ machine.maxStackUse)
    (isX : x.Holds (machine.flags.has .VERIFY_MINIMALDATA) a) (isY : y.Holds (machine.flags.has .VERIFY_MINIMALDATA) b)
    (someBig : x.isBigNum = true ∨ y.isBigNum = true)
    (readX : CScriptNum.ofVch dataX (machine.flags.has .VERIFY_MINIMALDATA) CScriptNum.maximumElementSize = .ok a)
    (readY : CScriptNum.ofVch dataY (machine.flags.has .VERIFY_MINIMALDATA) CScriptNum.maximumElementSize = .ok b)
    (fits : ∀ r ∈ exactResult op a b, |r| < 2 ^ 63) (belowA : |a| < machine.bigNumModulo)
    (belowB : |b| < machine.bigNumModulo) (below : ∀ r ∈ exactResult op a b, |r| < machine.bigNumModulo) :
    numberLeft (opBinary op (machine.withArguments [y, x])) =
        numberLeft (opBinary op (machine.withArguments [.vch dataY, .vch dataX])) ∧
      numberLeft (opBinary op (machine.withArguments [y, x])) = expectedNumber machine (exactResult op a b) := by
  rw [stackUse_withArguments] at room
  have bigRoom : ∀ r ∈ exactResult op a b, machine.stackUse + (magSize r + 1) ≤ machine.maxStackUse :=
    fun r exact => (Nat.add_le_add_left (magSize_exactResult_le isX isY someBig exact) _).trans room
  have big := numberLeft_opBinary notVerify limit
    (binaryResult_bigNum notMod upgrade2 isX isY someBig belowA belowB below) bigRoom (fun r _ => rfl)
  have readBack : ∀ r ∈ exactResult op a b, (StackItem.ofInt r).integer = r := by
    intro r exact
    obtain ⟨low, high⟩ := abs_lt.mp (fits r exact)
    exact scriptNum_serialize (by omega)
  have script := numberLeft_opBinary notVerify limit (binaryResult_scriptNum notMod readX readY fits)
    (fun r exact => (Nat.add_le_add_left (length_serialize_le r) _).trans (bigRoom r exact)) readBack
  exact ⟨big.trans script.symm, big⟩

/-- A machine with the rules of upgrade 2. -/
def upgrade2Machine : ScriptMachine := create (.ENFORCE_STACK_TOTAL ||| .FORK1_OPCODES ||| .UPGRADE2_OPCODES) 10 0

theorem opBinary_bigNum_agrees_div :
    numberLeft (opBinary .div (upgrade2Machine.withArguments [.bigNum 2, .vch [0x87]])) =
        numberLeft (opBinary .div (upgrade2Machine.withArguments [.vch [2], .vch [0x87]])) ∧
      numberLeft (opBinary .div (upgrade2Machine.withArguments [.bigNum 2, .vch [0x87]])) = .ok (some (-3), []) :=
  @opBinary_bigNum_agrees .div (-7) 2 upgrade2Machine _ _ [0x87] [2] (by decide) (by decide)
    (by decide) (by decide) (by decide) (.scriptNum rfl) (.bigNum 2) (.inr rfl) rfl rfl (by decide) (by decide)
    (by decide) (by decide)

end Nexa
