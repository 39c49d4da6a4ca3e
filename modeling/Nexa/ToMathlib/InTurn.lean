import Mathlib

/-! # Sets that can be put in turn

`enabled earlier a` says that `a` may come after the elements `earlier`. A set is in turn if its
elements can be listed so that each is enabled by those in front of it. Adding enabled elements until
there are no more leads to the largest of these sets.
-/

/-- Each element of the list is enabled by those in front of it. -/
inductive List.InTurn {α : Type*} (enabled : Set α → α → Prop) : List α → Prop
  | nil : InTurn enabled []
  | concat {order : List α} {a : α} (before : InTurn enabled order) (next : enabled {b | b ∈ order} a) :
      InTurn enabled (order ++ [a])

/-- The elements of the set can be put in turn. -/
def Set.InTurn {α : Type*} (enabled : Set α → α → Prop) (s : Set α) : Prop :=
  ∃ order : List α, order.InTurn enabled ∧ s = {a | a ∈ order}

variable {α : Type*} {enabled other : Set α → α → Prop}

theorem List.InTurn.imp {order : List α} (turn : order.InTurn enabled)
    (implied : ∀ a ∈ order, ∀ earlier, enabled earlier a → other earlier a) : order.InTurn other := by
  induction turn with
  | nil => exact .nil
  | concat _ next ih =>
    rw [List.forall_mem_append, List.forall_mem_singleton] at implied
    exact .concat (ih implied.1) (implied.2 _ next)

theorem Set.InTurn.isGreatest {s : Set α} (turn : s.InTurn enabled)
    (mono : ∀ {earlier later a}, earlier ⊆ later → enabled earlier a → enabled later a)
    (closed : ∀ a, enabled s a → a ∈ s) : IsGreatest {t : Set α | t.InTurn enabled} s := by
  refine ⟨turn, ?_⟩
  rintro _ ⟨order, turn, rfl⟩
  change ∀ a ∈ order, a ∈ s
  induction turn with
  | nil => simp
  | concat _ next ih =>
    rw [List.forall_mem_append, List.forall_mem_singleton]
    exact ⟨ih, closed _ (mono ih next)⟩

theorem Set.InTurn.enabled_of_mem {s : Set α} (turn : s.InTurn enabled)
    (mono : ∀ {earlier later a}, earlier ⊆ later → enabled earlier a → enabled later a) : ∀ a ∈ s, enabled s a := by
  obtain ⟨order, turn, rfl⟩ := turn
  induction turn with
  | nil => simp
  | @concat order a _ next ih =>
    have grown : {b | b ∈ order} ⊆ {b | b ∈ order ++ [a]} := fun b listed => List.mem_append_left _ listed
    rintro b listed
    rcases List.mem_append.mp listed with listed | last
    · exact mono grown (ih b listed)
    · rw [List.mem_singleton.mp last]
      exact mono grown next
