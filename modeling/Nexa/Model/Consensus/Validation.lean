import Mathlib.Data.List.Basic

/-! # Outcomes of validation

The checks of the node return a Boolean and leave the reason of a failure in a `CValidationState`.
Here a check is a computation that either returns or stops: with the rejection that the source
records, or with a crash where the source asserts, dereferences a null pointer, lets an exception
escape or overflows a signed integer. Nothing is ever accepted on a crash.
-/

namespace Nexa

/-- The `REJECT_…` codes of `consensus/validation.h`, `consensus/grouptokens.h` and `main.h`; `none` is
the default code 0. -/
inductive RejectCode where
  | none
  | malformed
  | invalid
  | obsolete
  | duplicate
  | nonstandard
  | dust
  | insufficientFee
  | fork
  | waiting
  | multipleInputs
  | checkpoint
  | limited
  | retry
  | orphan
  | nonfinal
  | noContext
  | groupImbalance
  | conflict
deriving DecidableEq, Repr

/-- What `CValidationState::DoS` records; `Invalid` is level 0. -/
structure Rejection where
  nDoS : ℕ
  rejectCode : RejectCode
  reason : String
  debugMessage : String := ""
deriving DecidableEq, Repr

inductive Failure where
  | rejected (rejection : Rejection)
  | crash
deriving DecidableEq, Repr

abbrev Validation := Except Failure

/-- `return state.DoS(level, error(…), code, reason)`. -/
def dos {α : Type} (level : ℕ) (code : RejectCode) (reason : String) (debugMessage : String := "") : Validation α :=
  .error (.rejected { nDoS := level, rejectCode := code, reason, debugMessage })

def crash {α : Type} : Validation α := .error .crash

/-- The guard `if (bad) return state.DoS(…)`. -/
def rejectIf (bad : Prop) [Decidable bad] (level : ℕ) (code : RejectCode) (reason : String)
    (debugMessage : String := "") : Validation Unit :=
  if bad then dos level code reason debugMessage else pure ()

/-- The guard `if (bad) return state.Invalid(false, …)`. -/
def invalidIf (bad : Prop) [Decidable bad] (code : RejectCode) (reason : String) (debugMessage : String) :
    Validation Unit :=
  if bad then .error (.rejected { nDoS := 0, rejectCode := code, reason, debugMessage }) else pure ()

/-- An assertion of the source. -/
def assertThat (condition : Prop) [Decidable condition] : Validation Unit :=
  if condition then pure () else crash

variable {α : Type} {x : Validation α} {bad : Prop} {level : ℕ} {code : RejectCode} {reason debugMessage : String}
  {value : Unit}

theorem Validation.bind_eq_ok_iff {β : Type} {f : α → Validation β} {result : β} :
    x >>= f = .ok result ↔ ∃ value, x = .ok value ∧ f value = .ok result := by
  cases x with
  | error failure => simp [bind, Except.bind]
  | ok value => simp [bind, Except.bind]

@[simp] theorem rejectIf_eq_ok_iff [Decidable bad] :
    rejectIf bad level code reason debugMessage = .ok value ↔ ¬bad := by
  by_cases condition : bad <;> simp [rejectIf, dos, condition, pure, Except.pure]

@[simp] theorem invalidIf_eq_ok_iff [Decidable bad] : invalidIf bad code reason debugMessage = .ok value ↔ ¬bad := by
  by_cases condition : bad <;> simp [invalidIf, condition, pure, Except.pure]

@[simp] theorem assertThat_eq_ok_iff {condition : Prop} [Decidable condition] :
    assertThat condition = .ok value ↔ condition := by
  by_cases holds : condition <;> simp [assertThat, crash, holds, pure, Except.pure]

@[simp] theorem dos_ne_ok {value : α} : dos level code reason debugMessage ≠ .ok value := nofun

@[simp] theorem crash_ne_ok {value : α} : (crash : Validation α) ≠ .ok value := nofun

theorem Validation.exists_ok_of_toBool (accepted : x.toBool = true) : ∃ value, x = .ok value := by
  cases x with
  | error failure => cases accepted
  | ok value => exact ⟨value, rfl⟩

theorem Validation.seq_eq_ok_iff {β : Type} {x : Validation Unit} {rest : Validation β} {result : β} :
    (x >>= fun _ => rest) = .ok result ↔ x = .ok () ∧ rest = .ok result := by
  rw [Validation.bind_eq_ok_iff]
  constructor
  · rintro ⟨⟨⟩, check, remaining⟩
    exact ⟨check, remaining⟩
  · rintro ⟨check, remaining⟩
    exact ⟨(), check, remaining⟩

end Nexa
