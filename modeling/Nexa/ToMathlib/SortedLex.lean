import Mathlib

/-! # Sorted lists in the lexicographic order

Two multisets compare by their lists in descending order. What both have in common does not matter
for the comparison.
-/

instance UInt32.linearOrder : LinearOrder UInt32 where
  le_refl := UInt32.le_refl
  le_trans _ _ _ := UInt32.le_trans
  le_antisymm _ _ := UInt32.le_antisymm
  le_total := UInt32.le_total
  lt_iff_le_not_ge _ _ := by
    rw [UInt32.not_le]
    exact ⟨fun less => ⟨UInt32.le_of_lt less, less⟩, And.right⟩
  toDecidableLE := inferInstance
  toDecidableLT := inferInstance
  toDecidableEq := inferInstance

namespace List

variable {α : Type*} [LinearOrder α]

theorem orderedInsert_lt_orderedInsert (a : α) {l m : List α} (less : l < m) :
    l.orderedInsert (· ≥ ·) a < m.orderedInsert (· ≥ ·) a := by
  induction l generalizing m with
  | nil =>
    cases m with
    | nil => exact absurd less (List.lt_irrefl _)
    | cons c m =>
      rw [orderedInsert_cons]
      split_ifs with above
      · exact cons_lt_cons_self.mpr (nil_lt_cons c m)
      · exact cons_lt_cons_iff.mpr (.inl (not_le.mp above))
  | cons b l ih =>
    cases m with
    | nil => exact absurd less (not_lt_nil _)
    | cons c m =>
      rw [orderedInsert_cons, orderedInsert_cons]
      obtain lower | ⟨rfl, rest⟩ := cons_lt_cons_iff.mp less
      · split_ifs with overFirst overSecond overSecond
        · exact cons_lt_cons_self.mpr less
        · exact cons_lt_cons_iff.mpr (.inl (not_le.mp overSecond))
        · exact absurd (overSecond.trans' lower.le) overFirst
        · exact cons_lt_cons_iff.mpr (.inl lower)
      · split_ifs with above
        · exact cons_lt_cons_self.mpr less
        · exact cons_lt_cons_self.mpr (ih rest)

end List

namespace Multiset

variable {α : Type*} [LinearOrder α]

theorem coe_sort_eq_insertionSort (l : List α) : (l : Multiset α).sort (· ≥ ·) = l.insertionSort (· ≥ ·) := by
  rw [coe_sort, List.mergeSort_eq_insertionSort]

theorem sort_cons_eq_orderedInsert (a : α) (s : Multiset α) :
    (a ::ₘ s).sort (· ≥ ·) = (s.sort (· ≥ ·)).orderedInsert (· ≥ ·) a := by
  induction s using Quotient.inductionOn with
  | h l =>
    change ((a :: l : List α) : Multiset α).sort (· ≥ ·) = _
    rw [coe_sort_eq_insertionSort, List.insertionSort_cons, ← coe_sort_eq_insertionSort]
    rfl

theorem sort_add_lt_sort_add_iff (common : Multiset α) {s t : Multiset α} :
    (common + s).sort (· ≥ ·) < (common + t).sort (· ≥ ·) ↔ s.sort (· ≥ ·) < t.sort (· ≥ ·) := by
  induction common using Multiset.induction with
  | empty => rw [Multiset.zero_add, Multiset.zero_add]
  | cons a common ih =>
    have strict : StrictMono (List.orderedInsert (· ≥ ·) a) := fun _ _ => List.orderedInsert_lt_orderedInsert a
    rw [cons_add, cons_add, sort_cons_eq_orderedInsert, sort_cons_eq_orderedInsert, strict.lt_iff_lt, ih]

theorem sort_inj {s t : Multiset α} : s.sort (· ≥ ·) = t.sort (· ≥ ·) ↔ s = t := by
  refine ⟨fun same => ?_, fun same => by rw [same]⟩
  rw [← sort_eq s (· ≥ ·), same, sort_eq]

end Multiset
