import Mathlib

/-! # Streams of pieces closed by a separator

`separated sep pieces` writes the pieces one after the other, each closed by `sep` and none escaped.
The number of pieces and the stream determine the pieces exactly when no piece contains the
separator or there is at most one piece: a separator inside a piece can trade places with the
closing one of a neighbour.
-/

namespace List

variable {α : Type*} (sep : α)

def separated (pieces : List (List α)) : List α := pieces.flatMap (· ++ [sep])

theorem separated_cons (piece : List α) (pieces : List (List α)) :
    separated sep (piece :: pieces) = piece ++ sep :: separated sep pieces := by
  simp [separated]

theorem separated_append (pieces others : List (List α)) :
    separated sep (pieces ++ others) = separated sep pieces ++ separated sep others := by
  simp [separated]

variable {sep : α} {pieces : List (List α)} {piece : List α}

theorem length_le_length_separated (member : piece ∈ pieces) : piece.length ≤ (separated sep pieces).length := by
  obtain ⟨before, after, rfl⟩ := append_of_mem member
  rw [separated_append, separated_cons]
  simp only [length_append]
  omega

theorem count_separated [DecidableEq α] (sep : α) (pieces : List (List α)) :
    (separated sep pieces).count sep = pieces.length + (pieces.map (count sep)).sum := by
  induction pieces with
  | nil => rfl
  | cons piece pieces ih =>
    rw [separated_cons, count_append, count_cons_self]
    simp only [length_cons, map_cons, sum_cons]
    omega

theorem eq_and_eq_of_append_cons_eq {x y u v : List α} (freeX : sep ∉ x) (freeY : sep ∉ y)
    (same : x ++ sep :: u = y ++ sep :: v) : x = y ∧ u = v := by
  induction x generalizing y with
  | nil =>
    cases y with
    | nil => exact ⟨rfl, (cons.inj same).2⟩
    | cons head y => exact absurd (cons.inj same).1 (ne_of_not_mem_cons freeY)
  | cons first x ih =>
    cases y with
    | nil => exact absurd (cons.inj same).1.symm (ne_of_not_mem_cons freeX)
    | cons head y =>
      obtain ⟨rfl, rest⟩ := cons.inj same
      obtain ⟨rfl, tails⟩ := ih (not_mem_of_not_mem_cons freeX) (not_mem_of_not_mem_cons freeY) rest
      exact ⟨rfl, tails⟩

variable {others : List (List α)}

theorem eq_of_separated_eq_of_notMem (free : ∀ piece ∈ pieces, sep ∉ piece)
    (otherFree : ∀ piece ∈ others, sep ∉ piece) (same : separated sep pieces = separated sep others) :
    pieces = others := by
  induction pieces generalizing others with
  | nil =>
    cases others with
    | nil => rfl
    | cons other others => simp [separated] at same
  | cons piece pieces ih =>
    cases others with
    | nil => simp [separated] at same
    | cons other others =>
      rw [forall_mem_cons] at free otherFree
      rw [separated_cons, separated_cons] at same
      obtain ⟨rfl, rest⟩ := eq_and_eq_of_append_cons_eq free.1 otherFree.1 same
      rw [ih free.2 otherFree.2 rest]

theorem notMem_of_separated_eq (sameLength : pieces.length = others.length)
    (free : ∀ piece ∈ pieces, sep ∉ piece) (same : separated sep pieces = separated sep others) :
    ∀ piece ∈ others, sep ∉ piece := by
  classical
  have none : (pieces.map (count sep)).sum = 0 := by
    rw [List.sum_eq_zero_iff_forall_eq_nat]
    simpa [count_eq_zero] using free
  have counts := congrArg (count sep) same
  rw [count_separated, count_separated] at counts
  have noneOther : (others.map (count sep)).sum = 0 := by omega
  rw [List.sum_eq_zero_iff_forall_eq_nat] at noneOther
  intro piece member
  exact count_eq_zero.mp (noneOther _ (mem_map_of_mem member))

theorem exists_adjacent_of_mem {l : List α} {a : α} (member : a ∈ l) (two : 2 ≤ l.length) :
    ∃ before x y after, l = before ++ x :: y :: after ∧ (a = x ∨ a = y) := by
  obtain ⟨before, after, rfl⟩ := append_of_mem member
  cases after with
  | cons y after => exact ⟨before, a, y, after, rfl, Or.inl rfl⟩
  | nil =>
    obtain rfl | ⟨front, x, rfl⟩ := before.eq_nil_or_concat
    · simp at two
    · exact ⟨front, x, a, [], by simp, Or.inr rfl⟩

theorem separated_inj_iff :
    (∀ others, others.length = pieces.length → separated sep others = separated sep pieces → others = pieces) ↔
      pieces.length ≤ 1 ∨ ∀ piece ∈ pieces, sep ∉ piece := by
  constructor
  · intro unique
    by_contra! fails
    obtain ⟨two, piece, member, contains⟩ := fails
    -- a piece that contains the separator and has a neighbour can be cut elsewhere
    obtain ⟨before, x, y, after, rfl, here⟩ := exists_adjacent_of_mem member (by omega)
    obtain ⟨front, back, rfl⟩ := append_of_mem contains
    obtain rfl | rfl := here
    · have same := unique (before ++ front :: (back ++ sep :: y) :: after) (by simp)
        (by simp [separated_append, separated_cons])
      simp at same
    · have same := unique (before ++ (x ++ sep :: front) :: back :: after) (by simp)
        (by simp [separated_append, separated_cons])
      simp at same
  · rintro (short | free) others length same
    · match pieces, others, short, length with
      | [], [], _, _ => rfl
      | [piece], [other], _, _ => simpa [separated] using same
    · have otherFree := notMem_of_separated_eq length.symm free same.symm
      exact eq_of_separated_eq_of_notMem otherFree free same

end List
