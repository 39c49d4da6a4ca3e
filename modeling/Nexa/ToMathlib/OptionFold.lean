import Mathlib.Data.List.Basic

/-! # Folds of steps that may fail

An invariant of the steps is one of the fold, and the fold succeeds if every step that keeps to the
invariant does. A map between the states that the steps respect is respected by the fold.
-/

namespace List

variable {σ α : Type*} {step : σ → α → Option σ} {items : List α} {state last : σ} (inv : σ → Prop)

theorem foldlM_option_inv
    (keeps : ∀ {state item next}, item ∈ items → inv state → step state item = some next → inv next)
    (holds : inv state) (ended : items.foldlM step state = some last) : inv last := by
  induction items generalizing state with
  | nil =>
    cases ended
    exact holds
  | cons item items ih =>
    obtain ⟨next, first, rest⟩ := Option.bind_eq_some_iff.mp ended
    exact ih (fun member => keeps (mem_cons_of_mem item member)) (keeps mem_cons_self holds first) rest

theorem exists_foldlM_eq_some
    (ends : ∀ {state item}, item ∈ items → inv state → ∃ next, step state item = some next ∧ inv next)
    (holds : inv state) : ∃ last, items.foldlM step state = some last ∧ inv last := by
  induction items generalizing state with
  | nil => exact ⟨state, rfl, holds⟩
  | cons item items ih =>
    obtain ⟨next, first, holdsNext⟩ := ends mem_cons_self holds
    rw [foldlM_cons, first]
    exact ih (fun member => ends (mem_cons_of_mem item member)) holdsNext

theorem map_foldlM_option {τ : Type*} (f : σ → τ) {image : τ → α → Option τ}
    (respects : ∀ state item, (step state item).map f = image (f state) item) (items : List α) (state : σ) :
    (items.foldlM step state).map f = items.foldlM image (f state) := by
  induction items generalizing state with
  | nil => rfl
  | cons item items ih =>
    rw [foldlM_cons, foldlM_cons, ← respects]
    cases step state item with
    | none => rfl
    | some next => exact ih next

end List
