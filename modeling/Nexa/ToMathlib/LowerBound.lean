import Mathlib.Data.List.Sort

/-! # Binary search for an insertion point

`List.lowerBound` is the search of `std::lower_bound`, also on lists that are not sorted. In a sorted list
it finds the end of the smaller elements, so that an element inserted there keeps the list sorted.
-/

namespace List

variable {α : Type*} [LinearOrder α]

/-- The loop over a part of the list, given by its first index and its length. -/
def lowerBoundLoop (l : List α) (x : α) : ℕ → ℕ → ℕ → ℕ
  | 0, first, _ => first
  | fuel + 1, first, len =>
    if len = 0 then first
    else
      match l[first + len / 2]? with
      | some middle =>
        if middle < x then lowerBoundLoop l x fuel (first + len / 2 + 1) (len - len / 2 - 1)
        else lowerBoundLoop l x fuel first (len / 2)
      | none => first

/-- The index of the first element that is not smaller, as long as the smaller ones come first. -/
def lowerBound (l : List α) (x : α) : ℕ := lowerBoundLoop l x l.length 0 l.length

/-- An index that separates the smaller elements from the others. -/
structure Separates (l : List α) (x : α) (i : ℕ) : Prop where
  le : i ≤ l.length
  before : ∀ y ∈ l.take i, y < x
  behind : ∀ y ∈ l.drop i, x ≤ y

variable {l : List α}

theorem lowerBoundLoop_separates {x : α} (sorted : l.Pairwise (· ≤ ·)) {fuel first len : ℕ}
    (enough : len ≤ fuel) (within : first + len ≤ l.length) (before : ∀ y ∈ l.take first, y < x)
    (behind : ∀ y ∈ l.drop (first + len), x ≤ y) : Separates l x (lowerBoundLoop l x fuel first len) := by
  induction fuel generalizing first len with
  | zero =>
    obtain rfl : len = 0 := by omega
    exact ⟨within, before, behind⟩
  | succ fuel ih =>
    rw [lowerBoundLoop]
    split_ifs with empty
    · subst empty
      exact ⟨within, before, behind⟩
    · have inside : first + len / 2 < l.length := by omega
      rw [getElem?_eq_getElem inside]
      dsimp only
      have split : l = l.take (first + len / 2) ++ l[first + len / 2] :: l.drop (first + len / 2 + 1) := by
        rw [← drop_eq_getElem_cons, take_append_drop]
      rw [split, pairwise_append] at sorted
      obtain ⟨-, suffix, across⟩ := sorted
      split_ifs with smaller
      · refine ih (by omega) (by omega) (fun y member => ?_) ?_
        · rw [take_succ_eq_append_getElem inside, mem_append, mem_singleton] at member
          rcases member with earlier | rfl
          · exact (across y earlier _ mem_cons_self).trans_lt smaller
          · exact smaller
        · rwa [show first + len / 2 + 1 + (len - len / 2 - 1) = first + len by omega]
      · refine ih (by omega) (by omega) before (fun y member => ?_)
        rw [drop_eq_getElem_cons inside] at member
        rcases mem_cons.mp member with rfl | later
        · exact not_lt.mp smaller
        · exact (not_lt.mp smaller).trans ((pairwise_cons.mp suffix).1 y later)

theorem lowerBound_separates (sorted : l.Pairwise (· ≤ ·)) (x : α) : Separates l x (l.lowerBound x) :=
  lowerBoundLoop_separates sorted le_rfl (by omega) (by simp) (by simp)

/-- An element inserted where the search ends. -/
def insertAtLowerBound (l : List α) (x : α) : List α := l.take (l.lowerBound x) ++ x :: l.drop (l.lowerBound x)

theorem insertAtLowerBound_perm (l : List α) (x : α) : (l.insertAtLowerBound x).Perm (x :: l) := by
  have parts : (l.insertAtLowerBound x).Perm (x :: (l.take (l.lowerBound x) ++ l.drop (l.lowerBound x))) := perm_middle
  rwa [take_append_drop] at parts

theorem insertAtLowerBound_sorted (sorted : l.Pairwise (· ≤ ·)) (x : α) :
    (l.insertAtLowerBound x).Pairwise (· ≤ ·) := by
  obtain ⟨-, before, behind⟩ := lowerBound_separates sorted x
  rw [← take_append_drop (l.lowerBound x) l] at sorted
  have parts := pairwise_append.mp sorted
  refine pairwise_append.mpr ⟨parts.1, pairwise_cons.mpr ⟨behind, parts.2.1⟩, fun y earlier z member => ?_⟩
  rcases mem_cons.mp member with rfl | later
  · exact (before y earlier).le
  · exact parts.2.2 y earlier z later

end List
