import Mathlib

/-! # Sums by key

Weights added up over an association list follow its insertions and deletions, and a sum over a list
splits into the sums over the items of each key.
-/

namespace AList

open List

variable {α M : Type*} {β : α → Type*} [DecidableEq α] [AddCommMonoid M] (weight : Sigma β → M)

/-- The sum of the weights of all entries. -/
def sumBy (s : AList β) : M := (s.entries.map weight).sum

theorem sumBy_insert (a : α) (b : β a) (s : AList β) :
    (s.insert a b).sumBy weight = weight ⟨a, b⟩ + (s.erase a).sumBy weight := by
  simp [sumBy, erase]

theorem sumBy_erase_of_lookup_eq_none {a : α} {s : AList β} (absent : s.lookup a = none) :
    (s.erase a).sumBy weight = s.sumBy weight := by
  have notKey := lookup_eq_none.mp absent
  change ((s.entries.kerase a).map weight).sum = (s.entries.map weight).sum
  rw [kerase_of_notMem_keys notKey]

theorem sumBy_erase_of_lookup_eq_some {a : α} {b : β a} {s : AList β} (found : s.lookup a = some b) :
    weight ⟨a, b⟩ + (s.erase a).sumBy weight = s.sumBy weight := by
  have entry := mem_lookup_iff.mp found
  obtain ⟨b', before, after, -, split, erased⟩ := exists_of_kerase (mem_keys_of_mem entry)
  have same : b = b' := by
    apply NodupKeys.eq_of_mk_mem s.nodupKeys entry
    rw [split]
    simp
  subst same
  change weight ⟨a, b⟩ + ((s.entries.kerase a).map weight).sum = (s.entries.map weight).sum
  rw [erased, split]
  simp only [map_append, sum_append]
  exact add_left_comm _ _ _

end AList

variable {α κ M : Type*}

theorem List.sum_map_eq_sum_groups [DecidableEq κ] [AddCommMonoid M] (key : α → κ) (value : α → M)
    (keys : Finset κ) (l : List α) :
    (l.map value).sum = ((l.filter fun x => key x ∉ keys).map value).sum +
      ∑ k ∈ keys, ((l.filter fun x => key x = k).map value).sum := by
  induction l with
  | nil => simp
  | cons x rest ih =>
    have group (k : κ) : (((x :: rest).filter fun x => key x = k).map value).sum =
        (if key x = k then value x else 0) + ((rest.filter fun x => key x = k).map value).sum := by
      split_ifs <;> simp_all
    rw [Finset.sum_congr rfl fun k _ => group k, Finset.sum_add_distrib, Finset.sum_ite_eq, filter_cons,
      map_cons, sum_cons, ih]
    by_cases listed : key x ∈ keys
    · simp only [listed]
      exact add_left_comm (value x) _ _
    · simp only [listed, ↓reduceIte, zero_add]
      exact (add_assoc (value x) _ _).symm
