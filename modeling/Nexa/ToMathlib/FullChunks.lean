import Mathlib

/-! # Full chunks

A chunk is full when its weight passes a limit with its last element. Full chunks form a prefix code, so a
list is cut into full chunks in at most one way.
-/

namespace List

variable {α : Type*} {weight : α → ℕ} {limit : ℕ} {chunk rest : List α} {last : α}

/-- The weight passes the limit with the last element. -/
structure PassesWith (weight : α → ℕ) (limit : ℕ) (chunk : List α) (last : α) : Prop where
  below : (chunk.map weight).sum ≤ limit
  above : limit < ((chunk ++ [last]).map weight).sum

/-- The list consists of full chunks. -/
inductive FullChunks (weight : α → ℕ) (limit : ℕ) : List α → Prop
  | nil : FullChunks weight limit []
  | cons {chunk rest : List α} {last : α} : PassesWith weight limit chunk last → FullChunks weight limit rest →
      FullChunks weight limit (chunk ++ last :: rest)

theorem sum_weight_le_append (chunk more : List α) : (chunk.map weight).sum ≤ ((chunk ++ more).map weight).sum := by
  rw [map_append, sum_append]
  exact Nat.le_add_right _ _

section

variable (full : PassesWith weight limit chunk last)

include full

theorem PassesWith.above_append (rest : List α) : limit < ((chunk ++ last :: rest).map weight).sum := by
  have longer := @sum_weight_le_append _ weight (chunk ++ [last]) rest
  rw [append_assoc] at longer
  exact full.above.trans_le longer

theorem PassesWith.length_le {chunk' rest' : List α} {last' : α} (full' : PassesWith weight limit chunk' last')
    (same : chunk ++ last :: rest = chunk' ++ last' :: rest') : chunk'.length ≤ chunk.length := by
  by_contra! shorter
  have initial : chunk ++ [last] = chunk'.take (chunk.length + 1) := by
    rw [← take_append_of_le_length shorter, ← same, take_append]
    simp
  have heavy := full.above
  rw [initial] at heavy
  have light := @sum_weight_le_append _ weight (chunk'.take (chunk.length + 1)) (chunk'.drop (chunk.length + 1))
  rw [take_append_drop] at light
  exact absurd full'.below (not_le.mpr (heavy.trans_le light))

theorem PassesWith.fullChunks_iff : FullChunks weight limit (chunk ++ last :: rest) ↔ FullChunks weight limit rest := by
  constructor
  · intro chunks
    generalize whole : chunk ++ last :: rest = list at chunks
    cases chunks with
    | nil => exact absurd whole (by simp)
    | cons full' chunks =>
      have length := le_antisymm (full'.length_le full whole.symm) (full.length_le full' whole)
      obtain ⟨-, tails⟩ := append_inj whole length
      rw [(cons_eq_cons.mp tails).2]
      exact chunks
  · exact FullChunks.cons full

end

theorem fullChunks_iff_eq_nil (light : (chunk.map weight).sum ≤ limit) :
    FullChunks weight limit chunk ↔ chunk = [] := by
  constructor
  · intro chunks
    cases chunks with
    | nil => rfl
    | cons full _ => exact absurd light (not_le.mpr (full.above_append _))
  · rintro rfl
    exact .nil

end List
