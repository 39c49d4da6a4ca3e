import Mathlib

/-! # Pairing up a list

The elements of a list are taken two by two, an odd last one with itself. The list can be read off
its pairs again unless it has twins: a pair of equal elements that the list itself holds.
-/

namespace List

variable {α β : Type*}

/-- The pairs of a list, an odd last element with itself. -/
def pairUp : List α → List (α × α)
  | [] => []
  | [last] => [(last, last)]
  | left :: right :: rest => (left, right) :: pairUp rest

/-- The two elements of a pair are equal. -/
def HasTwins : List α → Prop
  | left :: right :: rest => left = right ∨ HasTwins rest
  | _ => False

theorem eq_of_pairUp_eq {l m : List α} (distinct : ¬ l.HasTwins) (distinct' : ¬ m.HasTwins)
    (same : l.pairUp = m.pairUp) : l = m := by
  fun_induction pairUp l generalizing m with
  | case1 =>
    rcases m with _ | ⟨left', _ | ⟨right', rest'⟩⟩
    · rfl
    · simp [pairUp] at same
    · simp [pairUp] at same
  | case2 last =>
    rcases m with _ | ⟨left', _ | ⟨right', rest'⟩⟩
    · simp [pairUp] at same
    · simpa [pairUp] using same
    · -- the padded element looks like a pair of twins
      simp only [pairUp, cons.injEq, Prod.mk.injEq] at same
      exact absurd (.inl (same.1.1.symm.trans same.1.2)) distinct'
  | case3 left right rest ih =>
    rcases m with _ | ⟨left', _ | ⟨right', rest'⟩⟩
    · simp [pairUp] at same
    · simp only [pairUp, cons.injEq, Prod.mk.injEq] at same
      exact absurd (.inl (same.1.1.trans same.1.2.symm)) distinct
    · simp only [pairUp, cons.injEq] at same
      obtain ⟨⟨rfl, rfl⟩, sameRest⟩ := same
      simp only [HasTwins, not_or] at distinct distinct'
      rw [ih distinct.2 distinct'.2 sameRest]

theorem eq_of_map_eq_of_injOn {f : α → β} {l m : List α} (injective : Set.InjOn f {a | a ∈ l ∨ a ∈ m})
    (same : l.map f = m.map f) : l = m := by
  induction l generalizing m with
  | nil => exact (map_eq_nil_iff.mp same.symm).symm
  | cons a l ih =>
    obtain ⟨b, m, rfl, sameHead, sameTail⟩ := map_eq_cons_iff.mp same.symm
    have head : a = b := injective (.inl mem_cons_self) (.inr mem_cons_self) sameHead.symm
    rw [head, ih (injective.mono fun c mem => mem.imp (mem_cons_of_mem a) (mem_cons_of_mem b)) sameTail.symm]

end List
