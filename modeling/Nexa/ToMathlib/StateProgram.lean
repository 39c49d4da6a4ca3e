import Mathlib.Logic.Basic

/-! # Programs that can end early

Programs of `EStateM` that are put together from basic ones by sequencing, by reading the state and by
ending early. A relation between states that is reflexive and transitive holds between the states before
and after such a program as soon as it does for the basic ones.
-/

theorem Except.bind_eq_ok_iff {ε α β : Type} {x : Except ε α} {f : α → Except ε β} {b : β} :
    x >>= f = .ok b ↔ ∃ a, x = .ok a ∧ f a = .ok b := by
  cases x with
  | error e => simp [bind, Except.bind]
  | ok a => simp [bind, Except.bind]

theorem Except.mapError_eq_ok_iff {ε ε' α : Type} {x : Except ε α} {f : ε → ε'} {a : α} :
    x.mapError f = .ok a ↔ x = .ok a := by
  cases x <;> constructor <;> rintro ⟨⟩ <;> rfl

namespace EStateM

variable {ε σ α β : Type} {x : EStateM ε σ α} {f : α → EStateM ε σ β} {s s' : σ} {b : β}

theorem bind_eq_ok_iff : (x >>= f) s = .ok b s' ↔ ∃ a middle, x s = .ok a middle ∧ f a middle = .ok b s' := by
  simp only [bind, EStateM.bind]
  cases ran : x s with
  | ok a middle =>
    constructor
    · intro rest
      exact ⟨a, middle, rfl, rest⟩
    · rintro ⟨_, _, same, rest⟩
      cases same
      exact rest
  | error e middle => simp

theorem bind_eq_error_iff {e : ε} :
    (x >>= f) s = .error e s' ↔ x s = .error e s' ∨ ∃ a middle, x s = .ok a middle ∧ f a middle = .error e s' := by
  simp only [bind, EStateM.bind]
  cases ran : x s with
  | ok a middle =>
    constructor
    · intro rest
      exact .inr ⟨a, middle, rfl, rest⟩
    · rintro (failed | ⟨_, _, same, rest⟩)
      · cases failed
      · cases same
        exact rest
  | error e' middle => simp

theorem bind_eq_of_ok {a : α} {middle : σ} (ran : x s = .ok a middle) : (x >>= f) s = f a middle := by
  simp [bind, EStateM.bind, ran]

theorem bind_eq_of_error {e : ε} {middle : σ} (failed : x s = .error e middle) : (x >>= f) s = .error e middle := by
  simp [bind, EStateM.bind, failed]

@[simp] theorem pure_apply (a : α) : (pure a : EStateM ε σ α) s = .ok a s := rfl

@[simp] theorem throw_apply (e : ε) : (throw e : EStateM ε σ α) s = .error e s := rfl

@[simp] theorem get_apply : (get : EStateM ε σ σ) s = .ok s s := rfl

theorem get_bind_apply {f : σ → EStateM ε σ β} : (get >>= f) s = f s s := rfl

@[simp] theorem set_apply (t : σ) : (set t : EStateM ε σ PUnit) s = .ok ⟨⟩ t := rfl

@[simp] theorem modify_apply (g : σ → σ) : (modify g : EStateM ε σ PUnit) s = .ok ⟨⟩ (g s) := rfl

/-- The programs that can be put together from basic ones. They may end early for the reasons in `raises`
only. The second part of a sequence has to be put together for the values that the first part can return. -/
class inductive Built (basic : EStateM ε σ Unit → Prop) (raises : ε → Prop) :
    {α : Type} → EStateM ε σ α → Prop
  | basic {program : EStateM ε σ Unit} (holds : basic program) : Built basic raises program
  | pure {α : Type} (a : α) : Built basic raises (pure a)
  | throw {α : Type} (e : ε) (allowed : raises e) : Built basic raises (throw e : EStateM ε σ α)
  | get : Built basic raises get
  | bindOf {α β : Type} {x : EStateM ε σ α} {f : α → EStateM ε σ β} (first : Built basic raises x)
      (second : ∀ a, (∃ s s', x s = .ok a s') → Built basic raises (f a)) : Built basic raises (x >>= f)

namespace Built

variable {basic : EStateM ε σ Unit → Prop} {raises : ε → Prop}

instance (a : α) : Built basic raises (Pure.pure a) := .pure a

instance : Built basic raises MonadState.get := .get

theorem andThen [first : Built basic raises x] (second : ∀ a, Built basic raises (f a)) :
    Built basic raises (x >>= f) :=
  .bindOf first fun a _ => second a

instance [Built basic raises x] [second : ∀ a, Built basic raises (f a)] : Built basic raises (x >>= f) :=
  andThen second

instance {y : EStateM ε σ α} {condition : Prop} [Decidable condition] [holds : Built basic raises x]
    [fails : Built basic raises y] : Built basic raises (if condition then x else y) := by
  split
  · exact holds
  · exact fails

theorem trans {other : EStateM ε σ Unit → Prop} (basicBuilt : ∀ program, basic program → Built other raises program)
    (built : Built basic raises x) : Built other raises x := by
  induction built with
  | basic holds => exact basicBuilt _ holds
  | pure a => exact .pure a
  | throw e allowed => exact .throw e allowed
  | get => exact .get
  | bindOf _ _ first second => exact .bindOf first second

theorem rel {R : σ → σ → Prop} (refl : ∀ s, R s s) (trans : ∀ s t u, R s t → R t u → R s u)
    (basicRel : ∀ program, basic program → ∀ s s', program s = .ok () s' → R s s')
    (built : Built basic raises x) {a : α} (ran : x s = .ok a s') : R s s' := by
  induction built generalizing s s' with
  | basic holds => exact basicRel _ holds _ _ ran
  | pure a =>
    cases ran
    exact refl s
  | throw e _ => cases ran
  | get =>
    cases ran
    exact refl s
  | bindOf _ _ first second =>
    obtain ⟨value, middle, ranFirst, ranSecond⟩ := bind_eq_ok_iff.mp ran
    exact trans _ _ _ (first ranFirst) (second value ⟨_, _, ranFirst⟩ ranSecond)

theorem raised (basicRaised : ∀ program, basic program → ∀ s e s', program s = .error e s' → raises e)
    (built : Built basic raises x) {e : ε} (failed : x s = .error e s') : raises e := by
  induction built generalizing s s' with
  | basic holds => exact basicRaised _ holds _ _ _ failed
  | pure a => cases failed
  | throw e allowed =>
    cases failed
    exact allowed
  | get => cases failed
  | @bindOf _ _ x f _ _ first second =>
    cases ran : x s with
    | error reason middle =>
      rw [bind_eq_of_error ran] at failed
      cases failed
      exact first ran
    | ok value middle =>
      rw [bind_eq_of_ok ran] at failed
      exact second value ⟨_, _, ran⟩ failed

end Built

end EStateM
