import Mathlib.Tactic.IntervalCases
import Nexa.Model.Script.ScriptTemplate
import Nexa.Proofs.ScriptRuns

/-! # Pushes written and read

`CScript::operator<<` chooses the shortest opcode for a push, and `GetOp` reads back what was written.
-/

namespace Nexa

open List

/-- What is appended to a script. -/
inductive Push where
  | vector (b : Bytes)
  | int64 (n : ℤ)

/-- The bytes that a push leaves on a stack. -/
def Push.bytes : Push → Bytes
  | vector b => b
  | int64 n => CScriptNum.serialize n

/-- What `CScript::operator<<` appends. -/
def Push.written : Push → CScript
  | vector b => pushVector b
  | int64 n => pushInt64 n

/-- A push that was read stands for these bytes, and no shorter opcode could have been used for them. -/
def StandsFor (op : ℕ × Bytes) (b : Bytes) : Prop :=
  pushedItem op.1 op.2 = .vch b ∧ (OP_PUSHDATA4 < op.1 ∨ checkMinimalPush op.2 op.1 = true)

theorem pushInt64_eq (n : ℤ) : pushInt64 n = pushVector (CScriptNum.serialize n) := by
  unfold pushInt64
  split_ifs with small zero
  · obtain rfl | ⟨low, high⟩ := small
    · rfl
    · interval_cases n <;> rfl
  · rw [zero]
    rfl
  · rfl

theorem standsFor_pushOpcode {b : Bytes} (filled : b ≠ [])
    (ownOpcode : ¬(b.length = 1 ∧ (1 ≤ natLE b ∧ natLE b ≤ 16 ∨ natLE b = 0x81))) :
    StandsFor (pushOpcode b.length, b) b := by
  have opcode := pushOpcode_le b.length
  have data : ¬(OP_1 ≤ pushOpcode b.length ∧ pushOpcode b.length ≤ OP_16 ∨ pushOpcode b.length = OP_1NEGATE) := by
    unfold OP_PUSHDATA4 at opcode
    unfold OP_1 OP_1NEGATE
    omega
  refine ⟨if_neg data, .inr ?_⟩
  change checkMinimalPush b (pushOpcode b.length) = true
  rw [checkMinimalPush, if_neg filled]
  unfold pushOpcode OP_PUSHDATA1
  split_ifs <;> simp <;> omega

theorem exists_reads_pushVector {b : Bytes} (fits : b.length < 2 ^ 32) :
    ∃ op, Reads getOp (pushVector b) op ∧ StandsFor op b := by
  match b with
  | [] => exact ⟨_, reads_pushVector_nil, rfl, .inr rfl⟩
  | n :: m :: b => exact ⟨_, reads_pushVector (by simp) fits, standsFor_pushOpcode (by simp) (by simp)⟩
  | [n] =>
    simp only [pushVector]
    split_ifs with small negative
    · have number : ∀ n : UInt8, 1 ≤ n ∧ n ≤ 16 → OP_PUSHDATA4 < (UInt8.ofNat (OP_1 - 1) + n).toNat ∧
          pushedItem (UInt8.ofNat (OP_1 - 1) + n).toNat [] = .vch [n] := by
        rintro ⟨n⟩
        revert n
        decide
      obtain ⟨operation, item⟩ := number n small
      exact ⟨_, reads_operation operation, item, .inl operation⟩
    · subst negative
      exact ⟨_, reads_operation (by decide), rfl, .inl (by decide)⟩
    · refine ⟨_, reads_serializeVector fits, standsFor_pushOpcode (by simp) ?_⟩
      rintro ⟨-, ⟨low, high⟩ | same⟩
      · exact small ⟨UInt8.le_iff_toNat_le.mpr low, UInt8.le_iff_toNat_le.mpr high⟩
      · exact negative (UInt8.toNat_inj.mp same)

theorem readOps_written {pushes : List Push} {rounds : ℕ} (enough : (pushes.flatMap Push.written).length < rounds)
    (fits : ∀ push ∈ pushes, push.bytes.length < 2 ^ 32) :
    Forall₂ (fun op push => StandsFor op push.bytes) (readOps rounds (pushes.flatMap Push.written)) pushes := by
  induction pushes generalizing rounds with
  | nil =>
    cases rounds <;> exact .nil
  | cons push pushes ih =>
    obtain ⟨rounds, rfl⟩ := Nat.exists_eq_add_one_of_ne_zero (Nat.ne_zero_of_lt enough)
    obtain ⟨op, reads, stands⟩ : ∃ op, Reads getOp push.written op ∧ StandsFor op push.bytes := by
      cases push with
      | vector b => exact exists_reads_pushVector (fits _ mem_cons_self)
      | int64 n =>
        rw [Push.written, pushInt64_eq]
        exact exists_reads_pushVector (fits _ mem_cons_self)
    have read := reads (pushes.flatMap Push.written)
    have shorter := length_lt_of_getOp read
    rw [flatMap_cons] at enough ⊢
    simp only [readOps, read]
    exact .cons stands (ih (by omega) fun push listed => fits push (mem_cons_of_mem _ listed))

/-- The pushes of a script of less than 2^31 bytes are read as they were written, with minimal opcodes. -/
theorem getOps_written {pushes : List Push} (small : (pushes.flatMap Push.written).length < 2 ^ 31) :
    (CScript.getOps (pushes.flatMap Push.written)).map (fun op => pushedItem op.1 op.2) =
        pushes.map (fun push => .vch push.bytes) ∧
      ∀ op ∈ CScript.getOps (pushes.flatMap Push.written), OP_PUSHDATA4 < op.1 ∨ checkMinimalPush op.2 op.1 = true := by
  have fits : ∀ push ∈ pushes, push.bytes.length < 2 ^ 32 := by
    intro push listed
    have one : push.bytes.length ≤ push.written.length := by
      cases push with
      | vector b => exact length_le_pushVector b
      | int64 n =>
        rw [Push.written, pushInt64_eq]
        exact length_le_pushVector _
    obtain ⟨before, after, rfl⟩ := append_of_mem listed
    simp only [flatMap_append, flatMap_cons, length_append] at small
    omega
  rw [CScript.getOps, if_neg (not_le.mpr small)]
  generalize ended : readOps _ _ = ops
  have read : Forall₂ (fun op push => StandsFor op push.bytes) ops pushes :=
    ended ▸ readOps_written (Nat.lt_succ_self _) fits
  clear ended small fits
  induction read with
  | nil => simp
  | cons stands _ ih => simpa [stands.1, stands.2] using ih

theorem getOps_written_sample :
    (CScript.getOps ([Push.int64 (-1), .vector [7, 8]].flatMap Push.written)).map (fun op => pushedItem op.1 op.2) =
      [.vch [0x81], .vch [7, 8]] :=
  (@getOps_written [.int64 (-1), .vector [7, 8]] (by decide)).1

/-- Nothing is read of the push of a string of 2^31 bytes. -/
theorem getOps_long : ∃ b : Bytes, b.length ≤ 2 ^ 32 - 1 ∧ CScript.getOps (Push.vector b).written = [] := by
  obtain ⟨b, length⟩ : ∃ b : Bytes, b.length = 2 ^ 31 := ⟨replicate (2 ^ 31) 0, length_replicate⟩
  refine ⟨b, by omega, if_pos ?_⟩
  exact length.ge.trans (length_le_pushVector b)

end Nexa
