import Mathlib

/-! # Placing the nodes of a dag by priority

A node is ready when all its parents are placed. A schedule always places, of the ready nodes, the one
that goes before the others. There is at most one schedule, it places every node of the dag after its
parents, and it does not depend on what the nodes are called.
-/

/-- Nodes with their parents, and a strict order that decides which of two ready nodes comes first. -/
structure PriorityDag (α : Type*) where
  nodes : Set α
  parents : α → Set α
  before : α → α → Prop
  closed : ∀ a ∈ nodes, parents a ⊆ nodes
  founded : WellFounded fun parent child => child ∈ nodes ∧ parent ∈ parents child
  asymm : ∀ a ∈ nodes, ∀ b ∈ nodes, before a b → ¬ before b a
  total : ∀ a ∈ nodes, ∀ b ∈ nodes, a ≠ b → before a b ∨ before b a

namespace PriorityDag

open List

variable {α β : Type*} (dag : PriorityDag α)

/-- The node is not placed yet and all its parents are. -/
structure Ready (placed : List α) (a : α) : Prop where
  mem : a ∈ dag.nodes
  waiting : a ∉ placed
  parents : ∀ parent ∈ dag.parents a, parent ∈ placed

/-- The nodes `rest` follow after those that are placed. -/
inductive Schedule : List α → List α → Prop
  | done {placed : List α} (idle : ∀ a, ¬ dag.Ready placed a) : Schedule placed []
  | place {placed rest : List α} {a : α} (ready : dag.Ready placed a)
      (first : ∀ b, dag.Ready placed b → b ≠ a → dag.before a b) (next : Schedule (placed ++ [a]) rest) :
      Schedule placed (a :: rest)

variable {dag} {placed rest other : List α}

theorem Ready.append_singleton {a b : α} (ready : dag.Ready placed a) (different : a ≠ b) :
    dag.Ready (placed ++ [b]) a where
  mem := ready.mem
  waiting := by
    rw [mem_append, mem_singleton, not_or]
    exact ⟨ready.waiting, different⟩
  parents := fun parent linked => mem_append_left _ (ready.parents parent linked)

namespace Schedule

section

variable (schedule : dag.Schedule placed rest)

include schedule

theorem unique (another : dag.Schedule placed other) : rest = other := by
  induction schedule generalizing other with
  | done idle =>
    cases another with
    | done => rfl
    | place ready => exact absurd ready (idle _)
  | @place placed rest a ready first next ih =>
    cases another with
    | done idle => exact absurd ready (idle _)
    | @place _ _ b readyOther firstOther nextOther =>
      have same : a = b := by
        by_contra different
        exact dag.asymm a ready.mem b readyOther.mem (first b readyOther (Ne.symm different))
          (firstOther a ready different)
      subst same
      rw [ih nextOther]

theorem subset : ∀ a ∈ rest, a ∈ dag.nodes := by
  induction schedule with
  | done => simp
  | place ready _ _ ih => exact forall_mem_cons.mpr ⟨ready.mem, ih⟩

theorem nodup (distinct : placed.Nodup) : (placed ++ rest).Nodup := by
  induction schedule with
  | done => rwa [append_nil]
  | place ready _ _ ih =>
    rw [← append_cons] at ih
    apply ih
    rw [nodup_append]
    refine ⟨distinct, nodup_singleton _, fun b listed c last same => ?_⟩
    rw [mem_singleton] at last
    exact ready.waiting (last ▸ same ▸ listed)

theorem complete : ∀ a ∈ dag.nodes, a ∈ placed ++ rest := by
  induction schedule with
  | @done placed idle =>
    intro a
    induction a using dag.founded.induction with
    | _ a ih =>
      intro member
      rw [append_nil] at ih ⊢
      by_contra waiting
      exact idle a ⟨member, waiting, fun parent linked => ih parent ⟨member, linked⟩ (dag.closed a member linked)⟩
  | place _ _ _ ih => rwa [append_cons]

end

theorem drop {some : List α} (schedule : dag.Schedule placed (some ++ rest)) : dag.Schedule (placed ++ some) rest := by
  induction some generalizing placed with
  | nil => rwa [append_nil]
  | cons a some ih =>
    cases schedule with
    | place _ _ next =>
      rw [append_cons]
      exact ih next

theorem parents_mem {a : α} {some : List α} (schedule : dag.Schedule placed (some ++ a :: rest)) :
    ∀ parent ∈ dag.parents a, parent ∈ placed ++ some := by
  cases schedule.drop with
  | place ready => exact ready.parents

section

variable [DecidableEq α] {a b : α}

section

variable (schedule : dag.Schedule placed rest) (readyA : dag.Ready placed a) (readyB : dag.Ready placed b)
include schedule readyA readyB

theorem idxOf_lt_idxOf (different : a ≠ b) (less : dag.before a b) : rest.idxOf a < rest.idxOf b := by
  induction schedule with
  | done idle => exact absurd readyA (idle a)
  | @place placed rest c ready first next ih =>
    by_cases sameB : b = c
    · subst sameB
      exact absurd (first a readyA different) (dag.asymm a readyA.mem b readyB.mem less)
    · rw [idxOf_cons_ne _ (Ne.symm sameB)]
      by_cases sameA : a = c
      · rw [sameA, idxOf_cons_self]
        exact Nat.succ_pos _
      · rw [idxOf_cons_ne _ (Ne.symm sameA)]
        exact Nat.succ_lt_succ (ih (readyA.append_singleton sameA) (readyB.append_singleton sameB))

theorem idxOf_lt_idxOf_iff (different : a ≠ b) :
    (placed ++ rest).idxOf a < (placed ++ rest).idxOf b ↔ dag.before a b := by
  rw [idxOf_append_of_notMem readyA.waiting, idxOf_append_of_notMem readyB.waiting, Nat.add_lt_add_iff_left]
  refine ⟨fun earlier => ?_, schedule.idxOf_lt_idxOf readyA readyB different⟩
  refine (dag.total a readyA.mem b readyB.mem different).resolve_right fun less => ?_
  exact Nat.lt_asymm earlier (schedule.idxOf_lt_idxOf readyB readyA (Ne.symm different) less)

end

end

end Schedule

/-- The nodes of `other` are those of `dag` under new names. -/
structure Renaming (dag : PriorityDag α) (other : PriorityDag β) (rename : α → β) : Prop where
  injOn : Set.InjOn rename dag.nodes
  nodes : other.nodes = rename '' dag.nodes
  parents : ∀ a ∈ dag.nodes, other.parents (rename a) = rename '' dag.parents a
  before : ∀ a ∈ dag.nodes, ∀ b ∈ dag.nodes, dag.before a b → other.before (rename a) (rename b)

namespace Renaming

variable {other : PriorityDag β} {rename : α → β} (renamed : Renaming dag other rename)

include renamed

section

variable (inside : ∀ a ∈ placed, a ∈ dag.nodes)

include inside

theorem mem_map {a : α} (member : a ∈ dag.nodes) : rename a ∈ placed.map rename ↔ a ∈ placed := by
  refine ⟨fun listed => ?_, mem_map_of_mem⟩
  obtain ⟨b, listed, same⟩ := List.mem_map.mp listed
  rwa [← renamed.injOn (inside b listed) member same]

theorem ready_iff {a : α} (member : a ∈ dag.nodes) :
    other.Ready (placed.map rename) (rename a) ↔ dag.Ready placed a := by
  constructor
  · rintro ⟨-, waiting, parents⟩
    refine ⟨member, fun listed => waiting (mem_map_of_mem listed), fun parent linked => ?_⟩
    rw [renamed.parents a member] at parents
    exact (renamed.mem_map inside (dag.closed a member linked)).mp (parents _ ⟨parent, linked, rfl⟩)
  · rintro ⟨-, waiting, parents⟩
    refine ⟨renamed.nodes ▸ ⟨a, member, rfl⟩, fun listed => waiting ((renamed.mem_map inside member).mp listed), ?_⟩
    rw [renamed.parents a member]
    rintro _ ⟨parent, linked, rfl⟩
    exact mem_map_of_mem (parents parent linked)

theorem exists_of_ready {b : β} (ready : other.Ready (placed.map rename) b) :
    ∃ a, dag.Ready placed a ∧ rename a = b := by
  obtain ⟨a, member, rfl⟩ : b ∈ rename '' dag.nodes := renamed.nodes ▸ ready.mem
  exact ⟨a, (renamed.ready_iff inside member).mp ready, rfl⟩

end

theorem schedule (schedule : dag.Schedule placed rest) (inside : ∀ a ∈ placed, a ∈ dag.nodes) :
    other.Schedule (placed.map rename) (rest.map rename) := by
  induction schedule with
  | done idle =>
    refine .done fun b ready => ?_
    obtain ⟨a, ready, -⟩ := renamed.exists_of_ready inside ready
    exact idle a ready
  | @place placed rest a ready first next ih =>
    refine .place ((renamed.ready_iff inside ready.mem).mpr ready) (fun b readyB different => ?_) ?_
    · obtain ⟨b, waits, rfl⟩ := renamed.exists_of_ready inside readyB
      exact renamed.before a ready.mem b waits.mem (first b waits fun same => different (same ▸ rfl))
    · rw [← map_singleton, ← map_append]
      apply ih
      rw [forall_mem_append, forall_mem_singleton]
      exact ⟨inside, ready.mem⟩

end Renaming

end PriorityDag
